import RelayOs.Memory.Copy

/-!
# What a program's memory looks like

Which frames a program's pages are in is nobody's business but the kernel's. What the
program sees is an `RelayOs.Mm.Image`: a permission for every page it has, and a byte for
every address. `RelayOs.Mm.Shows` says that pages in memory show an image, and fresh pages and
copied bytes are operations on images.
-/

namespace RelayOs.Mm

open Prog AddressSpace

/-- **What a program sees of its memory**: the permissions of its pages, and what is at the
addresses on them. -/
structure Image where
  perm : ℕ → Option Perm
  byte : ℕ → UInt8

namespace Image

/-- No pages. -/
def empty : Image := ⟨fun _ => none, fun _ => 0⟩

/-- Adds `n` pages of zeros from `v` on. -/
def add (I : Image) (v n : ℕ) (perm : Perm) : Image where
  perm p := if v / page ≤ p ∧ p < v / page + n then some perm else I.perm p
  byte x := if v / page ≤ x / page ∧ x / page < v / page + n then 0 else I.byte x

/-- The bytes `data` at `v`. -/
def write (I : Image) (v : ℕ) (data : Bytes) : Image where
  perm := I.perm
  byte x := if v ≤ x ∧ x < v + data.length then data.getD (x - v) 0 else I.byte x

end Image

/-- **The pages show the image.** -/
structure Shows (m : Pages) (s : Mem) (I : Image) : Prop where
  perm : ∀ p, (m p).map Prod.snd = I.perm p
  byte : ∀ x, byteAt m s x = (I.perm (x / page)).map fun _ => I.byte x

section Shows

variable {B : Set ℕ} {root : ℕ} {m m' : Pages} {s s' : Mem} {I : Image} {v n : ℕ} {perm : Perm}

theorem shows_empty (s : Mem) : Shows noPages s .empty := ⟨fun _ => rfl, fun _ => rfl⟩

theorem Shows.eq_none (h : Shows m s I) {p : ℕ} : m p = none ↔ I.perm p = none := by
  rw [← h.perm p, Option.map_eq_none_iff]

/-- Fresh pages are pages of zeros. -/
theorem Shows.added (h : Shows m s I) (ha : Added m s (pagesFrom v n) perm m' s') :
    Shows m' s' (I.add v n perm) := by
  refine ⟨fun p => ?_, fun x => ?_⟩
  · by_cases hp : p ∈ pagesFrom v n
    · obtain ⟨-, f, hf, -⟩ := ha.new p hp
      rw [hf]
      exact (if_pos hp).symm
    · rw [ha.old p hp, h.perm]
      exact (if_neg hp).symm
  · by_cases hp : x / page ∈ pagesFrom v n
    · obtain ⟨-, f, hf, hzero⟩ := ha.new _ hp
      have hperm : (I.add v n perm).perm (x / page) = some perm := if_pos hp
      have hbyte : (I.add v n perm).byte x = 0 := if_pos hp
      simp only [byteAt, hf, Option.map_some, hzero, hperm, hbyte, Mem.zeros]
      rw [List.getD_eq_getElem?_getD, List.getElem?_replicate]
      split <;> rfl
    · have hperm : (I.add v n perm).perm (x / page) = I.perm (x / page) := if_neg hp
      have hbyte : (I.add v n perm).byte x = I.byte x := if_neg hp
      rw [hperm, hbyte, ← h.byte x]
      unfold byteAt
      rw [ha.old _ hp]
      cases hx : m (x / page) with
      | none => rfl
      | some y => rw [Option.map_some, Option.map_some, ha.content y.1 (mem_frames hx)]

/-- Bytes that were copied are there. -/
theorem Shows.filled {data : Bytes} (h : Shows m s I) (hf : Filled m s v data data.length s')
    (hpages : ∀ x, v ≤ x → x < v + data.length → I.perm (x / page) ≠ none) :
    Shows m s' (I.write v data) := by
  refine ⟨h.perm, fun x => ?_⟩
  rw [hf x]
  by_cases hx : v ≤ x ∧ x < v + data.length
  · obtain ⟨a, ha⟩ := Option.ne_none_iff_exists'.1 (hpages x hx.1 hx.2)
    have hperm : (I.write v data).perm (x / page) = some a := ha
    have hbyte : (I.write v data).byte x = data.getD (x - v) 0 := if_pos hx
    rw [if_pos hx, hperm, Option.map_some, hbyte, List.getD_eq_getElem?_getD,
      List.getElem?_eq_getElem (by omega),
      Option.getD_some]
  · have hbyte : (I.write v data).byte x = I.byte x := if_neg hx
    rw [if_neg hx, hbyte, h.byte x]
    rfl

/-- **Fresh pages where none were**: they are added, unless memory runs out. -/
theorem Shows.wp_mapZeroed (h : Shows m s I) (hhas : Has B root m s) (hv : v % page = 0)
    (hend : v + n * page ≤ lowerHalfEnd) (hfree : ∀ p ∈ pagesFrom v n, I.perm p = none)
    (perm : Perm) :
    wp (spec B) (mapZeroed root v n perm).run (fun r s' => ∃ m', Has B root m' s' ∧
      match r with
      | .ok () => Shows m' s' (I.add v n perm)
      | .error e => e = .outOfMemory ∧ s'.short) s := by
  refine wp_mono (Mm.wp_mapZeroed hhas v n perm) fun r s' => ?_
  rintro ⟨m', hhas', hr⟩
  refine ⟨m', hhas', ?_⟩
  cases r with
  | ok _ => exact h.added hr.2
  | error e =>
    obtain ⟨j, -, ⟨hj, hwhy⟩ | ⟨-, -, hover⟩⟩ := hr
    · have hplace : (v + j * page) / page ∈ pagesFrom v n := by
        rw [add_page_div]
        exact ⟨by omega, by omega⟩
      rcases hwhy with hmem | ⟨-, hconf⟩ | ⟨-, halign⟩ | ⟨-, hhigh⟩
      · exact hmem
      · exact absurd (h.eq_none.2 (hfree _ hplace)) hconf
      · rw [Nat.add_mul_mod_self_right] at halign
        exact absurd hv halign
      · have hmul : (j + 1) * page ≤ n * page := Nat.mul_le_mul_right page hj
        have hpos : 0 < page := by norm_num [page]
        rw [Nat.succ_mul] at hmul
        omega
    · omega

/-- **Bytes copied to pages that are there.** -/
theorem Shows.wp_fill (h : Shows m s I) (hhas : Has B root m s) {data : Bytes}
    (hend : v + data.length ≤ lowerHalfEnd)
    (hpages : ∀ x, v ≤ x → x < v + data.length → I.perm (x / page) ≠ none) :
    wp (spec B) (fill root v data).run (fun r s' => r = .ok () ∧ Has B root m s' ∧
      Shows m s' (I.write v data)) s := by
  refine wp_mono (Mm.wp_fill hhas v data) fun r s' => ?_
  rintro ⟨hhas', done, hfilled, hr⟩
  cases r with
  | ok _ => exact ⟨rfl, hhas', h.filled (hr ▸ hfilled) hpages⟩
  | error e =>
    obtain ⟨hdone, hlookup, -⟩ := hr
    have hlow : ¬lowerHalfEnd ≤ v + done := by omega
    rw [lookup, if_neg hlow, h.eq_none] at hlookup
    exact absurd hlookup (hpages _ (by omega) (by omega))

end Shows

end RelayOs.Mm
