import RelayOs.Memory.Pages

/-!
# Copying into and out of a program's memory

What a program sees at an address is a byte of the frame its page is mapped to
(`RelayOs.Mm.byteAt`). The kernel copies page by page through those frames; as no frame is
mapped twice, the bytes at all other addresses stay.
-/

namespace RelayOs.Mm

open Prog AddressSpace

variable {B : Set ℕ} {root : ℕ} {m : Pages} {s s' : Mem} {f v : ℕ} {perm : Perm}

/-- **The byte at an address** of the program's, if a page is mapped there. -/
def byteAt (m : Pages) (s : Mem) (x : ℕ) : Option UInt8 :=
  (m (x / page)).map fun y => (s.content y.1).1.getD (x % page) 0

/-- **Bytes written to a page** are seen at their addresses, and nothing else changes. -/
theorem byteAt_setBytes (h : Has B root m s) (hf : m (v / page) = some (f, perm)) (data : Bytes)
    (hlen : v % page + data.length ≤ page) (x : ℕ) :
    byteAt m (s.setBytes f (v % page) data) x =
      if v ≤ x ∧ x < v + data.length then data[x - v]? else byteAt m s x := by
  have hsize : v % page + data.length ≤ (s.content f).1.length := (s.content f).2.symm ▸ hlen
  by_cases hpage : x / page = v / page
  · have hin : v ≤ x ∧ x < v + data.length ↔ v % page ≤ x % page ∧
        x % page < v % page + data.length := by
      unfold page at *
      omega
    have hsub : v ≤ x → x % page - v % page = x - v := by
      unfold page at *
      omega
    simp only [byteAt, hpage, hf, Option.map_some, Mem.setBytes, Function.update_self]
    rw [getD_splice]
    by_cases hx : v ≤ x ∧ x < v + data.length
    · rw [if_pos hx, if_pos ⟨hsize, hin.1 hx⟩, hsub hx.1, List.getD_eq_getElem?_getD,
        List.getElem?_eq_getElem (by omega), Option.getD_some]
    · rw [if_neg hx, if_neg fun hc => hx (hin.2 hc.2)]
  · have hout : ¬(v ≤ x ∧ x < v + data.length) := by
      unfold page at *
      omega
    rw [if_neg hout]
    unfold byteAt
    cases hx : m (x / page) with
    | none => rfl
    | some y =>
      obtain ⟨g, b⟩ := y
      have hne : g ≠ f := by
        rintro rfl
        exact hpage (h.inj hx hf)
      rw [Option.map_some, Option.map_some, Mem.content_setBytes_of_ne hne]

theorem Has.wp_userPage {Q : Option (ℕ × Perm) → Mem → Prop} (h : Has B root m s)
    (hQ : Q (lookup m v) s) :
    wp (spec B) (userPage root v) Q s := by
  obtain ⟨t, ht, rfl⟩ := h
  exact Mm.wp_userPage ht.holds (serves_spec fun _ ⟨_, _, _, hf⟩ => ht.usable hf) hQ

theorem lookup_eq_some (h : lookup m v = some (f, perm)) :
    v < lowerHalfEnd ∧ m (v / page) = some (f, perm) := by
  unfold lookup at h
  split at h
  · cases h
  · next hv => exact ⟨not_le.1 hv, h⟩

/-! ### Filling pages -/

/-- The first `done` of `bytes` have been written at `virt` since `s`. -/
def Filled (m : Pages) (s : Mem) (virt : ℕ) (bytes : Bytes) (done : ℕ) (s' : Mem) : Prop :=
  ∀ x, byteAt m s' x = if virt ≤ x ∧ x < virt + done then bytes[x - virt]? else byteAt m s x

/-- As many bytes as fit in the page. -/
theorem Filled.step {virt done n : ℕ} {bytes : Bytes} (h : Filled m s virt bytes done s')
    (hhas : Has B root m s')
    (hf : m ((virt + done) / page) = some (f, perm)) (hn : (virt + done) % page + n ≤ page)
    (hlen : done + n ≤ bytes.length) :
    Filled m s virt bytes (done + n)
      (s'.setBytes f ((virt + done) % page) ((bytes.drop done).take n)) := by
  have hdata : ((bytes.drop done).take n).length = n := by
    rw [List.length_take, List.length_drop]
    omega
  intro x
  rw [byteAt_setBytes hhas hf _ (hdata.symm ▸ hn), hdata, h x]
  by_cases hnew : virt + done ≤ x ∧ x < virt + done + n
  · rw [if_pos hnew, if_pos (by omega), List.getElem?_take_of_lt (by omega), List.getElem?_drop]
    congr 1
    omega
  · rw [if_neg hnew]
    exact if_congr (by omega) rfl rfl

/-- What filling leaves behind: the bytes, up to the first page that is not there. -/
def FillPost (B : Set ℕ) (root : ℕ) (m : Pages) (s : Mem) (virt : ℕ) (bytes : Bytes)
    (r : Except MapError Unit) (s' : Mem) : Prop :=
  Has B root m s' ∧ ∃ done, Filled m s virt bytes done s' ∧
    match r with
    | .ok () => done = bytes.length
    | .error e => done < bytes.length ∧ lookup m (virt + done) = none ∧ ∃ w, e = .notUser w

theorem wp_fillFrom {virt done rounds : ℕ} {bytes : Bytes} (hhas : Has B root m s')
    (h : Filled m s virt bytes done s') (hdone : done ≤ bytes.length)
    (hrounds : bytes.length ≤ done + rounds) :
    wp (spec B) (fillFrom root virt bytes rounds done).run (FillPost B root m s virt bytes) s' := by
  induction rounds generalizing done s' with
  | zero => exact ⟨hhas, done, h, by omega⟩
  | succ rounds ih =>
    unfold fillFrom
    split
    · exact ⟨hhas, done, h, by omega⟩
    · next hmore =>
      have hnone : checkedAdd virt done = none → lookup m (virt + done) = none := fun hadd => by
        refine if_pos ?_
        unfold checkedAdd at hadd
        split at hadd
        · cases hadd
        · unfold lowerHalfEnd
          omega
      cases hadd : checkedAdd virt done with
      | none => exact ⟨hhas, done, h, by omega, hnone hadd, virt, rfl⟩
      | some w =>
        obtain rfl : virt + done = w := by
          unfold checkedAdd at hadd
          split at hadd
          · exact Option.some.inj hadd
          · cases hadd
        simp only [wp_except_bind, wp_lift]
        refine hhas.wp_userPage ?_
        cases hpage : lookup m (virt + done) with
        | none => exact ⟨hhas, done, h, by omega, hpage, _, rfl⟩
        | some y =>
          obtain ⟨f, perm⟩ := y
          obtain ⟨-, hf⟩ := lookup_eq_some hpage
          have hmod : (virt + done) % page < page := Nat.mod_lt _ (by norm_num [page])
          generalize hn : min (page - (virt + done) % page) (bytes.length - done) = n
          have hfits : (virt + done) % page + n ≤ page ∧ done + n ≤ bytes.length ∧ 0 < n := by omega
          simp only [wp_except_bind, wp_lift, wp_writeBytes]
          refine ⟨⟨hhas.usable (mem_frames hf), ?_⟩, ?_⟩
          · rw [List.length_take, List.length_drop]
            omega
          · exact ih (hhas.setBytes (mem_frames hf) _ _) (h.step hhas hf hfits.1 hfits.2.1)
              hfits.2.1 (by omega)

/-- **Filling** writes the bytes, if every page is mapped. -/
theorem wp_fill (h : Has B root m s) (virt : ℕ) (bytes : Bytes) :
    wp (spec B) (fill root virt bytes).run (FillPost B root m s virt bytes) s :=
  wp_fillFrom h (fun x => by rw [if_neg (by omega)]) (Nat.zero_le _) (by omega)

end RelayOs.Mm
