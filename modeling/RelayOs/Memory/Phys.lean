import RelayOs.Lib.Program
import RelayOs.Lib.Fields

/-!
# Physical memory as page-table code sees it

Page tables and programs' pages live in frames of physical memory, one pool for all. The
code that works on them reaches a frame only by a few requests (`RelayOs.Mm.Request`): a
word of a table, bytes of a page, a new frame filled with zeros, and giving one back. So it
is a program over those requests, and what it does is reasoned about over a plain map from
frames to bytes (`RelayOs.Mm.Mem`) whose allocator answers as it likes.
-/

namespace RelayOs.Mm

/-- Bytes in a page or frame. -/
def page : ℕ := 4096

/-- What is asked of physical memory. -/
inductive Request
  | word (frame i : ℕ)
  | setWord (frame i value : ℕ)
  | alloc
  | free (frame : ℕ)
  | bytes (frame i n : ℕ)
  | setBytes (frame i : ℕ) (data : Bytes)

/-- What each request is answered with. -/
def Request.Reply : Request → Type
  | .word _ _ => ℕ
  | .setWord _ _ _ => Unit
  | .alloc => Option ℕ
  | .free _ => Unit
  | .bytes _ _ _ => Bytes
  | .setBytes _ _ _ => Unit

/-- Requests of physical memory. -/
def physMem : Signature := ⟨Request, Request.Reply⟩

/-! ### Frames -/

/-- The address bits of a table entry. -/
def addrMask : ℕ := 0x000FFFFFFFFFF000

/-- **The address of a frame**: a multiple of the page size that fits in a table entry. -/
def IsFrame (f : ℕ) : Prop := f &&& addrMask = f

instance (f : ℕ) : Decidable (IsFrame f) := inferInstanceAs (Decidable (_ = _))

theorem IsFrame.and_eq_zero {f m : ℕ} (hf : IsFrame f) (hm : addrMask &&& m = 0) : f &&& m = 0 := by
  rw [← hf, Nat.and_assoc, hm, Nat.and_zero]

/-- **Memory**: the frames that are handed out, what every frame holds, and whether the
allocator may run out at all. -/
structure Mem where
  taken : Set ℕ
  content : ℕ → Block page
  short : Prop

namespace Mem

/-- Word `i` of a frame. -/
def word (s : Mem) (f i : ℕ) : ℕ := u64At (s.content f).1 (8 * i)

/-- Memory with a word of a frame changed. -/
def setWord (s : Mem) (f i v : ℕ) : Mem :=
  ⟨s.taken, Function.update s.content f
    ⟨setU64 (s.content f).1 (8 * i) v, (length_setU64 ..).trans (s.content f).2⟩, s.short⟩

/-- The `n` bytes of a frame from byte `i` on. -/
def bytes (s : Mem) (f i n : ℕ) : Bytes := slice (s.content f).1 i n

/-- Memory with bytes of a frame changed. -/
def setBytes (s : Mem) (f i : ℕ) (data : Bytes) : Mem :=
  ⟨s.taken, Function.update s.content f
    ⟨splice (s.content f).1 i data, (length_splice ..).trans (s.content f).2⟩, s.short⟩

/-- A frame of zeros. -/
def zeros : Block page := ⟨List.replicate page 0, List.length_replicate⟩

/-- The frame is handed out, filled with zeros. -/
def take (s : Mem) (f : ℕ) : Mem := ⟨insert f s.taken, Function.update s.content f zeros, s.short⟩

variable {s : Mem} {f g i j v : ℕ}

theorem word_setWord_self (hi : i < 512) (hv : v < 2 ^ 64) : (s.setWord f i v).word f i = v := by
  have hlen : 8 * i + 8 ≤ (s.content f).1.length := by
    rw [(s.content f).2]
    unfold page
    omega
  simp only [word, setWord, Function.update_self]
  rw [u64At_setU64 _ hlen, Nat.mod_eq_of_lt hv]

theorem word_setWord_of_ne (h : ¬(g = f ∧ j = i)) : (s.setWord f i v).word g j = s.word g j := by
  unfold word setWord
  rcases eq_or_ne g f with rfl | hg
  · simp only [Function.update_self]
    exact u64At_setU64_of_disjoint _ _ (by have := fun hc => h ⟨rfl, hc⟩; omega)
  · simp only [Function.update_of_ne hg]

theorem content_setWord_of_ne (hg : g ≠ f) : (s.setWord f i v).content g = s.content g :=
  Function.update_of_ne hg _ _

theorem content_setBytes_of_ne {data : Bytes} (hg : g ≠ f) :
    (s.setBytes f i data).content g = s.content g :=
  Function.update_of_ne hg _ _

theorem content_take_of_ne (hg : g ≠ f) : (s.take f).content g = s.content g :=
  Function.update_of_ne hg _ _

theorem content_take_self : (s.take f).content f = zeros := Function.update_self _ _ _

theorem word_take_self : (s.take f).word f i = 0 := by
  rw [word, content_take_self]
  exact u64At_replicate _ _

theorem word_congr {s' : Mem} (h : s'.content f = s.content f) : s'.word f i = s.word f i := by
  rw [word, h, word]

theorem word_lt (s : Mem) (f i : ℕ) : s.word f i < 2 ^ 64 := u64At_lt _ _

end Mem

/-! ### What memory may answer -/

/-- The frame may be looked at and changed: it is handed out, and not out of bounds. -/
def Usable (D : Set ℕ) (s : Mem) (f : ℕ) : Prop := f ∈ s.taken ∧ f ∉ D

/-- **What memory answers**, to a program that stays off the frames `D`. -/
def spec (D : Set ℕ) : Spec physMem Mem where
  pre
    | .word f i, s => Usable D s f ∧ i < 512
    | .setWord f i v, s => Usable D s f ∧ i < 512 ∧ v < 2 ^ 64
    | .alloc, _ => True
    | .free f, s => Usable D s f
    | .bytes f i n, s => Usable D s f ∧ i + n ≤ page
    | .setBytes f i data, s => Usable D s f ∧ i + data.length ≤ page
  post
    | .word f i, s, x, s' => x = s.word f i ∧ s' = s
    | .setWord f i v, s, _, s' => s' = s.setWord f i v
    | .alloc, s, x, s' => (x = none ∧ s.short ∧ s' = s) ∨ ∃ f, x = some f ∧ f ∉ s.taken ∧
        IsFrame f ∧ s' = s.take f
    | .free f, s, _, s' =>
      s'.taken = s.taken \ {f} ∧ (∀ g ≠ f, s'.content g = s.content g) ∧ s'.short = s.short
    | .bytes f i n, s, x, s' => x = s.bytes f i n ∧ s' = s
    | .setBytes f i data, s, _, s' => s' = s.setBytes f i data

/-! ### Requests -/

section Requests

open Prog

variable {D : Set ℕ} {s : Mem} {f i n v : ℕ}

/-- Word `i` of a frame. -/
def word (f i : ℕ) : Prog physMem ℕ := request (S := physMem) (.word f i)

/-- Changes a word of a frame. -/
def setWord (f i v : ℕ) : Prog physMem Unit := request (S := physMem) (.setWord f i v)

/-- Asks for a zeroed frame. -/
def allocTable : Prog physMem (Option ℕ) := request (S := physMem) .alloc

/-- Gives a frame back. -/
def freeFrame (f : ℕ) : Prog physMem Unit := request (S := physMem) (.free f)

/-- Reads bytes of a frame. -/
def readBytes (f i n : ℕ) : Prog physMem Bytes := request (S := physMem) (.bytes f i n)

/-- Writes bytes of a frame. -/
def writeBytes (f i : ℕ) (data : Bytes) : Prog physMem Unit :=
  request (S := physMem) (.setBytes f i data)

theorem wp_word {Q : ℕ → Mem → Prop} :
    wp (spec D) (word f i) Q s ↔ (Usable D s f ∧ i < 512) ∧ Q (s.word f i) s := by
  refine (wp_request (S := physMem)).trans (and_congr Iff.rfl ⟨fun h => h _ _ ⟨rfl, rfl⟩, ?_⟩)
  rintro h x s' ⟨rfl, rfl⟩
  exact h

variable {Q : Unit → Mem → Prop}

theorem wp_setWord :
    wp (spec D) (setWord f i v) Q s ↔ (Usable D s f ∧ i < 512 ∧ v < 2 ^ 64) ∧
      Q () (s.setWord f i v) := by
  refine (wp_request (S := physMem)).trans (and_congr Iff.rfl ⟨fun h => h () _ rfl, ?_⟩)
  rintro h x s' rfl
  exact h

theorem wp_allocTable {Q : Option ℕ → Mem → Prop} :
    wp (spec D) allocTable Q s ↔
      (s.short → Q none s) ∧ ∀ f, f ∉ s.taken → IsFrame f → Q (some f) (s.take f) := by
  refine (wp_request (S := physMem)).trans ⟨fun h => ⟨fun hs => h.2 none s (Or.inl ⟨rfl, hs, rfl⟩),
    fun f h1 h2 => h.2 (some f) _ (Or.inr ⟨f, rfl, h1, h2, rfl⟩)⟩, fun h => ⟨trivial, ?_⟩⟩
  rintro x s' (⟨rfl, hs, rfl⟩ | ⟨f, rfl, h1, h2, rfl⟩)
  · exact h.1 hs
  · exact h.2 f h1 h2

theorem wp_freeFrame :
    wp (spec D) (freeFrame f) Q s ↔ Usable D s f ∧
      ∀ s', s'.taken = s.taken \ {f} → (∀ g ≠ f, s'.content g = s.content g) → s'.short = s.short →
        Q () s' := by
  refine (wp_request (S := physMem)).trans
    (and_congr Iff.rfl ⟨fun h s' h1 h2 h3 => h () s' ⟨h1, h2, h3⟩, ?_⟩)
  rintro h x s' ⟨h1, h2, h3⟩
  exact h s' h1 h2 h3

theorem wp_writeBytes {data : Bytes} :
    wp (spec D) (writeBytes f i data) Q s ↔
      (Usable D s f ∧ i + data.length ≤ page) ∧ Q () (s.setBytes f i data) := by
  refine (wp_request (S := physMem)).trans (and_congr Iff.rfl ⟨fun h => h () _ rfl, ?_⟩)
  rintro h x s' rfl
  exact h

end Requests

/-! ### Frames out of bounds -/

section Bounds

open Prog

variable {D D' : Set ℕ} {s : Mem} {α : Type} {p : Prog physMem α} {Q : α → Mem → Prop}

/-- What is proved with more frames out of bounds holds with fewer. -/
theorem wp_anti (hD : D ⊆ D') (h : wp (spec D') p Q s) : wp (spec D) p Q s := by
  have hr : (spec D).Refines (spec D') Eq := by
    rintro r s _ rfl hpre
    refine ⟨?_, fun x t' ht => ⟨t', ht, rfl⟩⟩
    have husable : ∀ f, Usable D' s f → Usable D s f := fun f hf => ⟨hf.1, fun hc => hf.2 (hD hc)⟩
    cases r with
    | alloc => trivial
    | free f => exact husable f hpre
    | _ => exact ⟨husable _ hpre.1, hpre.2⟩
  refine wp_mono (wp_refine hr rfl h) fun a s' => ?_
  rintro ⟨_, rfl, hq⟩
  exact hq

/-- **Frames out of bounds stay as they are.** -/
theorem wp_untouched (hD : D ⊆ s.taken) (h : wp (spec D) p Q s) :
    wp (spec D) p (fun a s' => Q a s' ∧ D ⊆ s'.taken ∧ ∀ f ∈ D, s'.content f = s.content f) s := by
  have hr : (spec D).Refines (spec D) fun s1 s2 =>
      s1 = s2 ∧ D ⊆ s2.taken ∧ ∀ f ∈ D, s2.content f = s.content f := by
    rintro r s1 _ ⟨rfl, hsub, hsame⟩ hpre
    refine ⟨hpre, fun x t' ht => ⟨t', ht, rfl, ?_⟩⟩
    cases r with
    | word f i =>
      obtain ⟨-, rfl⟩ := ht
      exact ⟨hsub, hsame⟩
    | setWord f i v =>
      cases ht
      have hne : ∀ g ∈ D, g ≠ f := fun g hg he => hpre.1.2 (he ▸ hg)
      exact ⟨hsub, fun g hg => (Mem.content_setWord_of_ne (hne g hg)).trans (hsame g hg)⟩
    | alloc =>
      rcases ht with ⟨-, -, rfl⟩ | ⟨f, -, hf, -, rfl⟩
      · exact ⟨hsub, hsame⟩
      · have hne : ∀ g ∈ D, g ≠ f := fun g hg he => hf (he ▸ hsub hg)
        exact ⟨hsub.trans (Set.subset_insert f _), fun g hg =>
          (Mem.content_take_of_ne (hne g hg)).trans (hsame g hg)⟩
    | free f =>
      obtain ⟨htaken, hcontent, -⟩ := ht
      have hne : ∀ g ∈ D, g ≠ f := fun g hg he => hpre.2 (he ▸ hg)
      refine ⟨fun g hg => ?_, fun g hg => (hcontent g (hne g hg)).trans (hsame g hg)⟩
      rw [htaken]
      exact ⟨hsub hg, hne g hg⟩
    | bytes f i n =>
      obtain ⟨-, rfl⟩ := ht
      exact ⟨hsub, hsame⟩
    | setBytes f i data =>
      cases ht
      have hne : ∀ g ∈ D, g ≠ f := fun g hg he => hpre.1.2 (he ▸ hg)
      exact ⟨hsub, fun g hg => (Mem.content_setBytes_of_ne (hne g hg)).trans (hsame g hg)⟩
  refine wp_mono (wp_refine hr ⟨rfl, hD, fun _ _ => rfl⟩ h) fun a s' => ?_
  rintro ⟨_, ⟨rfl, hsub, hsame⟩, hq⟩
  exact ⟨hq, hsub, hsame⟩

theorem wp_short (h : wp (spec D) p Q s) :
    wp (spec D) p (fun a s' => Q a s' ∧ s'.short = s.short) s := by
  have hr : (spec D).Refines (spec D) fun s1 s2 => s1 = s2 ∧ s2.short = s.short := by
    rintro r s1 _ ⟨rfl, hshort⟩ hpre
    refine ⟨hpre, fun x t' ht => ⟨t', ht, rfl, ?_⟩⟩
    cases r with
    | word f i => exact ht.2 ▸ hshort
    | setWord f i v => exact ht ▸ hshort
    | alloc =>
      rcases ht with ⟨-, -, rfl⟩ | ⟨f, -, -, -, rfl⟩
      · exact hshort
      · exact hshort
    | free f => exact ht.2.2.trans hshort
    | bytes f i n => exact ht.2 ▸ hshort
    | setBytes f i data => exact ht ▸ hshort
  refine wp_mono (wp_refine hr ⟨rfl, rfl⟩ h) fun a s' => ?_
  rintro ⟨_, ⟨rfl, hshort⟩, hq⟩
  exact ⟨hq, hshort⟩

end Bounds

end RelayOs.Mm
