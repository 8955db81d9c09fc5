import RelayOs.Vfs.Contract

/-!
# Who may change the console

The chain of process groups that handed the console on, from process 1's group at the
bottom to the foreground group at the top. A group gives the console to another only while
it is in the chain, and the chain is then cut back to it before the other is put on top; a
group taking the console back is cut back to.
-/

namespace RelayOs.Kernel

open Vfs

/-- The most processes that exist at once. -/
def maxProcs : ℕ := 64

instance : NeZero maxProcs := ⟨by decide⟩

/-- Process 1: the parent of orphans, and the one `kill` refuses. -/
def init : ℕ := 1

/-- **The groups that may change the console**, each given it by the one before. -/
structure Holders where
  groups : List ℕ
  deriving DecidableEq, Repr

namespace Holders

/-- Process 1's group alone. -/
def new : Holders := ⟨[init]⟩

/-- The group at the top, which reads the console. -/
def foreground (h : Holders) : ℕ := h.groups.getLastD 0

/-- Whether the group `pgid` may change the console. -/
def holds (h : Holders) (pgid : ℕ) : Bool := h.groups.contains pgid

/-- The groups that no longer exist leave the chain, the bottom one never. -/
def compact (h : Holders) (exist : ℕ → Bool) : Holders :=
  ⟨h.groups.take 1 ++ (h.groups.drop 1).filter exist⟩

/-- The chain cut back to the group `pgid`, if it is in it. -/
def cutTo (h : Holders) (pgid : ℕ) : Option Holders :=
  (h.groups.idxOf? pgid).map fun i => ⟨h.groups.take (i + 1)⟩

/-- **The group `giver` gives the console to the group `dst`**: the chain is cut back to
`giver`, then to `dst` if it holds the console already, and otherwise `dst` goes on top. -/
def give (h : Holders) (giver dst : ℕ) (exist : ℕ → Bool) : Except Errno Unit × Holders :=
  let h := h.compact exist
  match h.cutTo giver with
  | none => (.error .EPERM, h)
  | some h =>
    match h.cutTo dst with
    | some h => (.ok (), h)
    | none =>
      if h.groups.length < maxProcs then (.ok (), ⟨h.groups ++ [dst]⟩) else (.error .EAGAIN, h)

/-- Process 1 takes the console back from everyone. -/
def reset (h : Holders) : Holders := ⟨h.groups.take 1⟩

end Holders

end RelayOs.Kernel
