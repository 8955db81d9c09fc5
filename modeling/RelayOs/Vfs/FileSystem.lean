import RelayOs.Lib.Program
import RelayOs.Vfs.Path

/-!
# Filesystems and the trees they show

What is asked of a filesystem is one list of operations, `RelayOs.Vfs.FsOp`. A **filesystem** is
anything that answers them. Seen from outside it is a tree of directories, and what is said here
of its answers is said of that tree (`RelayOs.Vfs.Tree.Allows`): which error a change is refused
with, and what is read from a file, is left open.
-/

namespace RelayOs.Vfs

/-- What `df` reports about a filesystem. -/
structure StatFs where
  blockSize : ℕ
  blocks : ℕ
  freeBlocks : ℕ
  availBlocks : ℕ
  files : ℕ
  freeFiles : ℕ
  readOnly : Bool
  deriving DecidableEq, Repr

/-- **An operation of a filesystem.** `readAt` names the length of the buffer. -/
inductive FsOp
  | stat (ino : Ino)
  | lookup (dir : Ino) (name : Bytes)
  | readDir (dir : Ino)
  | readLink (ino : Ino)
  | readAt (ino : Ino) (offset len : ℕ)
  | writeAt (ino : Ino) (offset : ℕ) (buf : Bytes)
  | truncate (ino : Ino) (size : ℕ)
  | touch (ino : Ino)
  | create (dir : Ino) (name : Bytes)
  | mkdir (dir : Ino) (name : Bytes)
  | unlink (dir : Ino) (name : Bytes)
  | rmdir (dir : Ino) (name : Bytes)
  | rename (fromDir : Ino) (src : Bytes) (toDir : Ino) (dst : Bytes)
  | statfs
  | sync
  | shutdown
  deriving DecidableEq, Repr

/-- What an operation gives if it succeeds. -/
def FsOp.Value : FsOp → Type
  | .stat _ => Stat
  | .lookup _ _ => Ino
  | .readDir _ => List DirEntry
  | .readLink _ => Bytes
  | .readAt _ _ _ => Bytes
  | .writeAt _ _ _ => ℕ
  | .truncate _ _ => Unit
  | .touch _ => Unit
  | .create _ _ => Ino
  | .mkdir _ _ => Ino
  | .unlink _ _ => Unit
  | .rmdir _ _ => Unit
  | .rename _ _ _ _ => Unit
  | .statfs => StatFs
  | .sync => Unit
  | .shutdown => Unit

/-- The answer to an operation. -/
abbrev FsOp.Reply (op : FsOp) : Type := Except Errno op.Value

/-- **A filesystem** with states in `σ`: its root, and its answer to every operation;
`none` if it stops dead, or never answers. -/
structure FileSystem (σ : Type) where
  root : σ → Ino
  answer : (op : FsOp) → σ → Option (op.Reply × σ)

/-! ### The tree a filesystem shows -/

/-- **A directory tree, seen from outside.** -/
@[ext] structure Tree where
  kind : Ino → Option FileType
  entry : Ino → Bytes → Option Ino

namespace Tree

/-- **A well-formed tree**: names lead from directories to inodes in use, a directory has
at most one name, and the root none. -/
structure Wf (root : Ino) (t : Tree) : Prop where
  root_dir : t.kind root = some .directory
  entry_dir : ∀ {d n i}, t.entry d n = some i → t.kind d = some .directory
  entry_used : ∀ {d n i}, t.entry d n = some i → t.kind i ≠ none
  entry_root : ∀ {d n}, t.entry d n ≠ some root
  entry_inj : ∀ {d n d' n' i}, t.kind i = some .directory → t.entry d n = some i →
    t.entry d' n' = some i → d = d' ∧ n = n'

/-- Directory `e` is `d` or lies below it. -/
inductive Below (t : Tree) (d : Ino) : Ino → Prop
  | refl : Below t d d
  | step {e i : Ino} {n : Bytes} : Below t d e → t.entry e n = some i → Below t d i

/-- The tree with one name set. -/
def setEntry (t : Tree) (d : Ino) (n : Bytes) (i : Option Ino) : Tree :=
  { t with entry := Function.update t.entry d (Function.update (t.entry d) n i) }

/-- The tree with the kind of one inode set. -/
def setKind (t : Tree) (i : Ino) (k : Option FileType) : Tree :=
  { t with kind := Function.update t.kind i k }

theorem entry_setEntry (t : Tree) (d : Ino) (n : Bytes) (i : Option Ino) (d' : Ino) (n' : Bytes) :
    (t.setEntry d n i).entry d' n' = if d' = d ∧ n' = n then i else t.entry d' n' := by
  unfold setEntry
  simp only [Function.update_apply]
  by_cases hd : d' = d
  · subst hd
    simp only [if_true, true_and, Function.update_apply]
  · simp [hd]

@[simp] theorem kind_setEntry (t : Tree) (d : Ino) (n : Bytes) (i : Option Ino) :
    (t.setEntry d n i).kind = t.kind := rfl

@[simp] theorem entry_setKind (t : Tree) (i : Ino) (k : Option FileType) :
    (t.setKind i k).entry = t.entry := rfl

theorem kind_setKind (t : Tree) (i : Ino) (k : Option FileType) (j : Ino) :
    (t.setKind i k).kind j = if j = i then k else t.kind j := by
  unfold setKind
  simp only [Function.update_apply]

/-- A new inode of kind `k` gets the name `n` in `d`. -/
structure Adds (t : Tree) (d : Ino) (n : Bytes) (k : FileType) (i : Ino) (t' : Tree) : Prop where
  dir : t.kind d = some .directory
  free_name : t.entry d n = none
  free_ino : t.kind i = none
  eq : t' = (t.setKind i (some k)).setEntry d n (some i)

/-- The name `n` of a non-directory is removed from `d`, and its inode is freed or not. -/
structure Unlinks (t : Tree) (d : Ino) (n : Bytes) (t' : Tree) : Prop where
  eq : ∃ i, t.entry d n = some i ∧ t.kind i ≠ some .directory ∧
    (t' = t.setEntry d n none ∨ t' = (t.setKind i none).setEntry d n none)

/-- The empty directory `n` of `d` is removed. -/
structure RemovesDir (t : Tree) (d : Ino) (n : Bytes) (t' : Tree) : Prop where
  eq : ∃ i, t.entry d n = some i ∧ t.kind i = some .directory ∧ (∀ m, t.entry i m = none) ∧
    t' = (t.setKind i none).setEntry d n none

/-- Inode `i` moves from the name `n` of `d` to the name `n'` of `d'`, where `freed` loses its last
name. -/
structure Moves (t : Tree) (d : Ino) (n : Bytes) (d' : Ino) (n' : Bytes) (i : Ino)
    (freed : Option Ino) (t' : Tree) : Prop where
  src : t.entry d n = some i
  dst_dir : t.kind d' = some .directory
  ne : t.entry d' n' ≠ some i
  not_below : t.kind i = some .directory → ¬t.Below i d'
  replaced : ∀ j, t.entry d' n' = some j →
    (t.kind j = some .directory ↔ t.kind i = some .directory) ∧
    (t.kind j = some .directory → freed = some j ∧ ∀ m, t.entry j m = none)
  freed_eq : ∀ j, freed = some j → t.entry d' n' = some j
  eq : t' = ((match freed with
    | none => t
    | some j => t.setKind j none).setEntry d n none).setEntry d' n' (some i)

/-- **What an operation may answer, told of the tree**, and the tree it leaves: `stat` tells the
kind and `lookup` the entry, a change that succeeds is exactly the change of the tree it stands
for, and one that fails leaves the tree, as all other operations do. Any change may be refused,
with any error. -/
def Allows (t : Tree) : (op : FsOp) → op.Reply → Tree → Prop
  | .stat i, r, t' => t' = t ∧ match t.kind i with
    | none => r = .error .ENOENT
    | some k => ∃ st, r = .ok st ∧ st.kind = k
  | .lookup d n, r, t' => t' = t ∧
    if t.kind d = some .directory then
      NameOk n → r = (match t.entry d n with | none => .error .ENOENT | some i => .ok i)
    else ∃ e, r = .error e
  | .create d n, r, t' => match r with
    | .error _ => t' = t
    | .ok i => t.Adds d n .regular i t'
  | .mkdir d n, r, t' => match r with
    | .error _ => t' = t
    | .ok i => t.Adds d n .directory i t'
  | .unlink d n, r, t' => match r with
    | .error _ => t' = t
    | .ok _ => t.Unlinks d n t'
  | .rmdir d n, r, t' => match r with
    | .error _ => t' = t
    | .ok _ => t.RemovesDir d n t'
  | .rename d n d' n', r, t' => match r with
    | .error _ => t' = t
    | .ok _ => (t' = t ∧ ∃ i, t.entry d n = some i ∧ t.entry d' n' = some i) ∨
        ∃ i freed, t.Moves d n d' n' i freed t'
  | _, _, t' => t' = t

end Tree

/-- **A filesystem that keeps its tree**: its good states show well-formed trees, every
operation is answered, the answer is one the tree allows, and good states lead to good states. -/
structure FileSystem.Contract {σ : Type} (fs : FileSystem σ) where
  Good : σ → Prop
  tree : σ → Tree
  wf : ∀ {s}, Good s → (tree s).Wf (fs.root s)
  root_eq : ∀ {s op r s'}, fs.answer op s = some (r, s') → fs.root s' = fs.root s
  allows : ∀ {s} (op : FsOp), Good s → ∃ r s', fs.answer op s = some (r, s') ∧ Good s' ∧
    (tree s).Allows op r (tree s')

/-! ### Runs -/

/-- A run of operations, with their answers; `none` if one is never answered. -/
def FileSystem.run {σ : Type} (fs : FileSystem σ) :
    List FsOp → σ → Option (List (Σ op : FsOp, op.Reply) × σ)
  | [], s => some ([], s)
  | op :: ops, s => do
    let (r, s) ← fs.answer op s
    let (rs, s) ← fs.run ops s
    some (⟨op, r⟩ :: rs, s)

/-- **A run of steps of `A`**, with the answers given. -/
def Follows {σ : Type} (A : σ → (op : FsOp) → op.Reply → σ → Prop) (s : σ) :
    List (Σ op : FsOp, op.Reply) → σ → Prop
  | [], s' => s' = s
  | x :: xs, s' => ∃ s1, A s x.1 x.2 s1 ∧ Follows A s1 xs s'

theorem FileSystem.run_follows {σ : Type} (fs : FileSystem σ) {P : σ → Prop}
    {A : σ → (op : FsOp) → op.Reply → σ → Prop}
    (h : ∀ {s} op, P s → ∃ r s', fs.answer op s = some (r, s') ∧ P s' ∧ A s op r s')
    (ops : List FsOp) :
    ∀ {s}, P s → ∃ rs s', fs.run ops s = some (rs, s') ∧ P s' ∧ Follows A s rs s' := by
  induction ops with
  | nil => exact fun {s} hs => ⟨[], s, rfl, hs, rfl⟩
  | cons op ops ih =>
    intro s hs
    obtain ⟨r, s1, hr, hs1, hstep⟩ := h op hs
    obtain ⟨rs, s', hrun, hs', hfollows⟩ := ih hs1
    refine ⟨⟨op, r⟩ :: rs, s', ?_, hs', s1, hstep, hfollows⟩
    simp only [FileSystem.run, hr, hrun, Option.bind_eq_bind, Option.bind_some]

end RelayOs.Vfs
