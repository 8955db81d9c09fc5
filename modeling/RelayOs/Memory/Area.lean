import RelayOs.Memory.Pages
import RelayOs.Lib.Spans

/-!
# The `mem_map` area

The regions of the area are ranges of addresses in order, with a gap after each, and the
pages of the area that the program has are those that lie in a region. Mapping puts the new
pages in the first gap they fit in, joined with the regions they meet; unmapping cuts pages
out of one region. Both are what `RelayOs.Lib.Spans` does to a list of ranges.
-/

namespace RelayOs.Mm

open Prog AddressSpace

/-! ### Regions -/

/-- The addresses of a region. -/
def span (r : ℕ × ℕ) : Span := ⟨r.1, r.2 * page⟩

/-- The page lies in one of the regions. -/
def Covered (maps : List (ℕ × ℕ)) (p : ℕ) : Prop :=
  ∃ r ∈ maps, r.1 ≤ p * page ∧ p * page < r.1 + r.2 * page

/-- The page is one of the area's. -/
def InArea (p : ℕ) : Prop := mapStart ≤ p * page ∧ p * page < mapEnd

/-- **The regions are as they should be**: whole pages of the area, sorted, none touching the
next, and not too many. -/
structure MapsOk (maps : List (ℕ × ℕ)) : Prop where
  sorted : maps.Pairwise fun a b => a.1 + a.2 * page < b.1
  within : ∀ r ∈ maps, mapStart ≤ r.1 ∧ r.1 + r.2 * page ≤ mapEnd
  aligned : ∀ r ∈ maps, r.1 % page = 0 ∧ 0 < r.2
  few : maps.length ≤ mapsMax

/-- **The area's pages are those of the regions**, and read-write. -/
def AreaOk (maps : List (ℕ × ℕ)) (m : Pages) : Prop :=
  ∀ p, InArea p → (Covered maps p → ∃ f, m p = some (f, .readWrite)) ∧
    (¬Covered maps p → m p = none)

variable {maps : List (ℕ × ℕ)} {p : ℕ}

theorem covered_iff : Covered maps p ↔ p * page ∈ Spans.bytes (maps.map span) := by
  rw [Spans.mem_bytes]
  constructor
  · rintro ⟨r, hr, h⟩
    exact ⟨span r, List.mem_map_of_mem hr, h⟩
  · rintro ⟨b, hb, h⟩
    obtain ⟨r, hr, rfl⟩ := List.mem_map.mp hb
    exact ⟨r, hr, h⟩

/-- A range of whole pages of the area. -/
structure IsRegion (b : Span) : Prop where
  start_le : mapStart ≤ b.start
  stop_le : b.stop ≤ mapEnd
  start_mod : b.start % page = 0
  size_mod : b.size % page = 0
  pos : 0 < b.size

theorem IsRegion.join {b c : Span} (h : b.stop = c.start) (hb : IsRegion b) (hc : IsRegion c) :
    IsRegion (b.join c) where
  start_le := hb.start_le
  stop_le := (Span.stop_join h).trans_le hc.stop_le
  start_mod := hb.start_mod
  size_mod := by
    change (b.size + c.size) % page = 0
    rw [Nat.add_mod, hb.size_mod, hc.size_mod]
    rfl
  pos := Nat.add_pos_left hb.pos _

theorem mapsOk_iff : MapsOk maps ↔
    Spans.Spaced (maps.map span) ∧ (∀ b ∈ maps.map span, IsRegion b) ∧ maps.length ≤ mapsMax := by
  constructor
  · intro h
    refine ⟨List.pairwise_map.2 h.sorted, fun b hb => ?_, h.few⟩
    obtain ⟨r, hr, rfl⟩ := List.mem_map.mp hb
    exact ⟨(h.within r hr).1, (h.within r hr).2, (h.aligned r hr).1, Nat.mul_mod_left _ _,
      Nat.mul_pos (h.aligned r hr).2 (by norm_num [page])⟩
  · rintro ⟨hspaced, hregion, hfew⟩
    have hr : ∀ r ∈ maps, IsRegion (span r) := fun r hr => hregion _ (List.mem_map_of_mem hr)
    exact ⟨List.pairwise_map.1 hspaced, fun r h => ⟨(hr r h).start_le, (hr r h).stop_le⟩,
      fun r h => ⟨(hr r h).start_mod, Nat.pos_of_mul_pos_right (hr r h).pos⟩, hfew⟩

/-! ### Finding a gap -/

/-- The place where the region before, or the area's first page, ends. -/
def Follows (before : List (ℕ × ℕ)) (place : ℕ) : Prop :=
  (before = [] ∧ place = mapStart) ∨ ∃ l r, before = l ++ [r] ∧ place = r.1 + r.2 * page

/-- **A gap for `len` bytes** at `place`, between the first `i` regions and the others. -/
def IsGap (maps : List (ℕ × ℕ)) (len place i : ℕ) : Prop :=
  ∃ before after, maps = before ++ after ∧ before.length = i ∧ Follows before place ∧
    (∀ r ∈ after, place + len ≤ r.1) ∧ place + len ≤ mapEnd

variable {before after : List (ℕ × ℕ)} {place pages i : ℕ}

theorem Follows.le (hm : MapsOk (before ++ after))
    (hf : Follows before place) : mapStart ≤ place ∧ place ≤ mapEnd ∧ ∀ r ∈ after, place ≤ r.1 := by
  rcases hf with ⟨rfl, rfl⟩ | ⟨l, r, rfl, rfl⟩
  · exact ⟨le_rfl, by decide, fun r hr => (hm.within r hr).1⟩
  · have hr := hm.within r (by simp)
    refine ⟨hr.1.trans (Nat.le_add_right _ _), hr.2, fun c hc => ?_⟩
    exact ((List.pairwise_append.mp hm.sorted).2.2 r (by simp) c hc).le

theorem wp_findGap {S : Spec physMem Mem} {s : Mem} {rest : List (ℕ × ℕ)} {len : ℕ}
    (hm : MapsOk (before ++ rest)) (hf : Follows before place) :
    wp S (findGap len rest place before.length) (fun x s' => s' = s ∧
      ∀ place' i, x = some (place', i) → IsGap (before ++ rest) len place' i) s := by
  obtain ⟨-, hend, hrest⟩ := hf.le hm
  induction rest generalizing before place with
  | nil =>
    simp only [findGap, bind_eq, wp_bind, wp_need]
    refine ⟨hend, ?_⟩
    split
    · next hfit =>
      refine ⟨rfl, fun place' i he => ?_⟩
      cases he
      exact ⟨before, [], rfl, rfl, hf, nofun, by omega⟩
    · exact ⟨rfl, nofun⟩
  | cons r rest ih =>
    obtain ⟨start, n⟩ := r
    have hlast := hm.within (start, n) (by simp)
    have hmap : mapEnd < 2 ^ 64 := by decide
    simp only [findGap, bind_eq, wp_bind, wp_need]
    refine ⟨hrest _ List.mem_cons_self, ?_⟩
    split
    · next hfit =>
      refine ⟨rfl, fun place' i he => ?_⟩
      cases he
      have hplace : place ≤ start := hrest _ List.mem_cons_self
      have hsorted := (List.pairwise_append.mp hm.sorted).2.1
      refine ⟨before, (start, n) :: rest, rfl, rfl, hf,
        List.forall_mem_cons.2 ⟨?_, fun c hc => ?_⟩, ?_⟩
      · change place + len ≤ start
        omega
      · have := (List.pairwise_cons.mp hsorted).1 c hc
        omega
      · dsimp only at hlast
        omega
    · simp only [wp_bind, endOf, wp_need, bind_eq]
      refine ⟨lt_of_le_of_lt hlast.2 hmap, ?_⟩
      have hassoc : before ++ (start, n) :: rest = (before ++ [(start, n)]) ++ rest := by simp
      rw [hassoc] at hm ⊢
      have hf' : Follows (before ++ [(start, n)]) (start + n * page) := Or.inr ⟨before, _, rfl, rfl⟩
      have hle := hf'.le hm
      have := ih hm hf' hle.2.1 hle.2.2
      rwa [List.length_append] at this

/-! ### Putting a region in -/

theorem span_join {r r' : ℕ × ℕ} : (span r).join (span r') = span (r.1, r.2 + r'.2) := by
  unfold span Span.join
  rw [Nat.add_mul]

/-- A region is joined with the next if it ends where that starts. -/
theorem settle_span (r c : ℕ × ℕ) (bs : List Span) : Spans.settle (span r) (span c :: bs) =
    if c.1 = r.1 + r.2 * page then span (r.1, r.2 + c.2) :: bs else span r :: span c :: bs := by
  rw [Spans.settle, span_join]
  exact if_congr eq_comm rfl rfl

section Merge

variable (l after rest : List (ℕ × ℕ)) (r c : ℕ × ℕ) {place pages : ℕ}

theorem meetsBefore_eq {r} (hr : place = r.1 + r.2 * page) :
    meetsBefore (l ++ r :: after) place (l.length + 1) = true := by
  unfold meetsBefore
  rw [Nat.add_sub_cancel, List.getElem?_append_right le_rfl, Nat.sub_self]
  simp [hr]

theorem meetsAfter_nil (stop : ℕ) : meetsAfter l stop l.length = false := by
  rw [meetsAfter, List.getElem?_eq_none le_rfl, Option.any_none]

theorem meetsAfter_cons (stop : ℕ) :
    meetsAfter (l ++ c :: rest) stop l.length = decide (c.1 = stop) := by
  rw [meetsAfter, List.getElem?_append_right le_rfl, Nat.sub_self, List.getElem?_cons_zero,
    Option.any_some]

theorem mergeAt_both : mergeAt (l ++ r :: c :: rest) place pages (l.length + 1) true true =
    l ++ (r.1, r.2 + (pages + c.2)) :: rest := by
  have hc : (l ++ r :: c :: rest).getD (l.length + 1) (0, 0) = c := by
    simp [List.getD_eq_getElem?_getD]
  have herase : (l ++ r :: c :: rest).eraseIdx (l.length + 1) = l ++ r :: rest := by
    rw [List.eraseIdx_append_of_length_le (Nat.le_succ _)]
    simp
  rw [mergeAt, hc, herase, Nat.add_sub_cancel]
  simp [List.modify_eq_take_cons_drop]

theorem mergeAt_before : mergeAt (l ++ r :: after) place pages (l.length + 1) true false =
    l ++ (r.1, r.2 + pages) :: after := by
  rw [mergeAt, Nat.add_sub_cancel]
  simp [List.modify_eq_take_cons_drop]

end Merge

/-- The regions put in a gap. -/
def merged (maps : List (ℕ × ℕ)) (place pages i : ℕ) : List (ℕ × ℕ) :=
  mergeAt maps place pages i (meetsBefore maps place i) (meetsAfter maps (place + pages * page) i)

/-- **The four ways of putting a region in** are one: it is joined with what it meets. -/
theorem map_span_merged (hf : Follows before place) :
    (merged (before ++ after) place pages before.length).map span =
      Spans.joinLast (before.map span) (Spans.settle (span (place, pages)) (after.map span)) := by
  rcases hf with ⟨rfl, -⟩ | ⟨l, r, rfl, hplace⟩
  · -- nothing before
    cases after with
    | nil => rfl
    | cons c rest =>
      change (mergeAt (c :: rest) place pages 0 false
          (decide (c.1 = place + pages * page))).map span =
        Spans.settle (span (place, pages)) (span c :: rest.map span)
      rw [settle_span]
      by_cases hc : c.1 = place + pages * page
      · rw [decide_eq_true hc, if_pos hc]
        rfl
      · rw [decide_eq_false hc, if_neg hc]
        rfl
  · -- the last region before ends where the pages start
    rw [List.map_append, List.map_singleton, Spans.joinLast_append, List.append_assoc,
      List.singleton_append,
      List.length_append, List.length_singleton, merged, meetsBefore_eq l after hplace]
    cases after with
    | nil =>
      have hnone := meetsAfter_nil (l ++ [r]) (place + pages * page)
      rw [List.length_append, List.length_singleton] at hnone
      rw [hnone, mergeAt_before, List.map_append]
      change _ = _ ++ Spans.settle (span r) [span (place, pages)]
      rw [settle_span, if_pos hplace]
      rfl
    | cons c rest =>
      have hsome := meetsAfter_cons (l ++ [r]) rest c (place + pages * page)
      rw [List.length_append, List.length_singleton, List.append_assoc,
        List.singleton_append] at hsome
      rw [hsome, List.map_cons, settle_span]
      by_cases hc : c.1 = place + pages * page
      · rw [decide_eq_true hc, mergeAt_both, List.map_append, if_pos hc, settle_span, if_pos hplace]
        rfl
      · rw [decide_eq_false hc, mergeAt_before, List.map_append, if_neg hc, settle_span,
          if_pos hplace]
        rfl

theorem length_merged_le (maps : List (ℕ × ℕ)) (place pages i : ℕ) :
    (merged maps place pages i).length ≤
      if meetsBefore maps place i || meetsAfter maps (place + pages * page) i then maps.length
      else maps.length + 1 := by
  unfold merged
  cases meetsBefore maps place i <;> cases meetsAfter maps (place + pages * page) i
  · exact List.length_insertIdx_le_succ
  · exact (List.length_modify ..).le
  · exact (List.length_modify ..).le
  · exact (List.length_modify ..).le.trans (List.length_eraseIdx_le ..)

theorem length_merged_le_max (hfew : maps.length ≤ mapsMax)
    (hfits : ¬(!meetsBefore maps place i && !meetsAfter maps (place + pages * page) i &&
      decide (mapsMax ≤ maps.length)) = true) : (merged maps place pages i).length ≤ mapsMax := by
  have hlen := length_merged_le maps place pages i
  split at hlen
  · exact hlen.trans hfew
  · next hmeets =>
    rw [Bool.not_eq_true, Bool.or_eq_false_iff] at hmeets
    simp only [hmeets.1, hmeets.2, Bool.not_false, Bool.true_and, decide_eq_true_eq] at hfits
    omega

/-- The addresses of whole pages, as pages. -/
theorem mem_span_iff (hp : place % page = 0) :
    p * page ∈ (span (place, pages)).bytes ↔ p ∈ pagesFrom place pages := by
  rw [Span.mem_bytes]
  change place ≤ p * page ∧ p * page < place + pages * page ↔ place / page ≤ p ∧
      p < place / page + pages
  unfold page at *
  omega

theorem Follows.stop_le (hm : MapsOk (before ++ after))
    (hf : Follows before place) : ∀ r ∈ before, r.1 + r.2 * page ≤ place := by
  rcases hf with ⟨rfl, rfl⟩ | ⟨l, r, rfl, rfl⟩
  · exact nofun
  · intro c hc
    have hsorted := (List.pairwise_append.mp (List.pairwise_append.mp hm.sorted).1).2.2
    rcases List.mem_append.mp hc with hc | hc
    · exact (hsorted c hc r (by simp)).le.trans (Nat.le_add_right _ _)
    · rw [List.mem_singleton.mp hc]

theorem Follows.mod_eq (hm : MapsOk (before ++ after))
    (hf : Follows before place) : place % page = 0 := by
  rcases hf with ⟨rfl, rfl⟩ | ⟨l, r, rfl, rfl⟩
  · decide
  · have hr := (hm.aligned r (by simp)).1
    rw [Nat.add_mod, hr, Nat.mul_mod_left]
    rfl

/-- **Putting a region in a gap** keeps the regions as they should be, and adds its pages. -/
theorem mapsOk_merged (hm : MapsOk maps) (hgap : IsGap maps (pages * page) place i)
    (hpages : 0 < pages) (hfew : (merged maps place pages i).length ≤ mapsMax) :
    MapsOk (merged maps place pages i) ∧
      ∀ p, Covered (merged maps place pages i) p ↔ Covered maps p ∨ p ∈ pagesFrom place pages := by
  obtain ⟨before, after, rfl, rfl, hf, hafter, hend⟩ := hgap
  have hmod := hf.mod_eq hm
  obtain ⟨hspaced, hregion, -⟩ := mapsOk_iff.1 hm
  rw [List.map_append] at hspaced hregion
  obtain ⟨hbefore, hrest, -⟩ := List.pairwise_append.mp hspaced
  have hafter' : ∀ c ∈ after.map span, (span (place, pages)).stop ≤ c.start := by
    intro c hc
    obtain ⟨r, hr, rfl⟩ := List.mem_map.mp hc
    exact hafter r hr
  have hnew : IsRegion (span (place, pages)) :=
    ⟨(hf.le hm).1, hend, hmod, Nat.mul_mod_left _ _, Nat.mul_pos hpages (by norm_num [page])⟩
  constructor
  · rw [mapsOk_iff, map_span_merged hf]
    refine ⟨Spans.spaced_joinLast hbefore (Spans.spaced_settle hrest hafter')
      fun b hb c hc => ?_, ?_, hfew⟩
    · obtain ⟨r, hr, rfl⟩ := List.mem_map.mp hb
      have hstart := Spans.start_le_settle
          (fun c hc => (Spans.start_le_stop _).trans (hafter' c hc)) c hc
      exact (hf.stop_le hm r hr).trans hstart
    · exact Spans.forall_joinLast (fun _ _ => IsRegion.join)
        (fun b hb => hregion b (List.mem_append_left _ hb))
        (Spans.forall_settle (fun _ _ => IsRegion.join) hnew fun b hb =>
          hregion b (List.mem_append_right _ hb))
  · intro p
    rw [covered_iff, map_span_merged hf, Spans.bytes_joinLast, Spans.bytes_settle, covered_iff,
      List.map_append,
      Spans.bytes_append]
    simp only [Multiset.mem_add, mem_span_iff hmod]
    tauto

/-! ### Mapping pages in the area -/

variable {B : Set ℕ} {root : ℕ} {m m0 : Pages} {s s0 : Mem}

theorem pagesFrom_add_one (v k : ℕ) :
    pagesFrom v k ∪ pagesFrom (v + k * page) 1 = pagesFrom v (k + 1) := by
  ext p
  simp only [pagesFrom, add_page_div, Set.mem_union, Set.mem_ofPred_eq]
  omega

theorem Added.without_eq {v k : ℕ} {perm : Perm} (h : Added m0 s0 (pagesFrom v k) perm m s) :
    without m v k = m0 := by
  funext p
  by_cases hp : p ∈ pagesFrom v k
  · exact (without_of_mem hp).trans (h.new p hp).1.symm
  · exact (without_of_notMem hp).trans (h.old p hp)

theorem wp_mapEach {left k : ℕ} (h : Has B root m s)
    (hend : place + (k + left) * page ≤ lowerHalfEnd)
    (hadded : Added m0 s0 (pagesFrom place k) .readWrite m s) :
    wp (spec B) (mapEach root place left k) (fun ok s' =>
      if ok then ∃ m', Has B root m' s' ∧ Added m0 s0 (pagesFrom place (k + left)) .readWrite m' s'
      else Has B root m0 s' ∧ ∀ f ∈ frames m0, s'.content f = s0.content f) s := by
  induction left generalizing k m s with
  | zero => exact ⟨m, h, hadded⟩
  | succ left ih =>
    have hback : place + k * page ≤ lowerHalfEnd :=
      (Nat.add_le_add_left (Nat.mul_le_mul_right page (Nat.le_add_right k _)) place).trans hend
    rw [mapEach, bind_eq, wp_bind]
    refine wp_mono (wp_mapZeroed h (place + k * page) 1 .readWrite) fun r s1 => ?_
    rintro ⟨m1, h1, hr⟩
    cases r with
    | ok _ =>
      have hmore := pagesFrom_add_one place k ▸ hadded.trans hr.2
      have hsum : k + 1 + left = k + (left + 1) := by omega
      have := ih h1 (hsum ▸ hend) hmore
      rwa [hsum] at this
    | error e =>
      -- nothing was mapped by the call that failed, so those before it are what is taken back
      obtain ⟨j, hj, hwhy⟩ := hr
      obtain rfl : j = 0 := hwhy.elim (fun h => Nat.lt_one_iff.1 h.1) fun h => h.1
      rw [pagesFrom_zero] at hj
      obtain rfl := hj.eq_of_empty
      change wp (spec B) ((unmapPages root place k).bind fun _ => ret false) _ s1
      rw [wp_bind]
      refine wp_mono (wp_unmapPages h1 hback) fun _ s' hs' => ?_
      obtain ⟨hhas, hsame⟩ := hs'
      rw [hadded.without_eq] at hhas hsame
      refine ⟨hhas, fun f hf => ?_⟩
      rw [hsame f hf, hj.content f (hadded.frames_subset hf), hadded.content f hf]

/-- **A space as it should be**: its pages are its own, and the regions are in order. -/
structure SpaceOk (B : Set ℕ) (sp : AddressSpace) (m : Pages) (s : Mem) : Prop where
  has : Has B sp.pml4 m s
  maps : MapsOk sp.maps

/-- The pages of a gap are pages of the area that no region has. -/
theorem IsGap.free (hm : MapsOk maps) (hgap : IsGap maps (pages * page) place i) :
    ∀ p ∈ pagesFrom place pages, InArea p := by
  obtain ⟨before, after, rfl, rfl, hf, hafter, hend⟩ := hgap
  have hle := hf.le hm
  intro p hp
  have hspan := Span.mem_bytes.1 ((mem_span_iff (hf.mod_eq hm)).2 hp)
  exact ⟨hle.1.trans hspan.1, hspan.2.trans_le hend⟩

/-- What `mapArea` does: on failure nothing, or a new region of fresh pages. -/
def MapAreaPost (B : Set ℕ) (sp : AddressSpace) (m : Pages) (s : Mem) (pages : ℕ)
    (r : Except Vfs.Errno ℕ × AddressSpace) (s' : Mem) : Prop :=
  match r.1 with
  | .error _ => r.2 = sp ∧ SpaceOk B sp m s' ∧ ∀ f ∈ frames m, s'.content f = s.content f
  | .ok place => r.2.pml4 = sp.pml4 ∧ ∃ m', SpaceOk B r.2 m' s' ∧
      Added m s (pagesFrom place pages) .readWrite m' s' ∧ (∀ p ∈ pagesFrom place pages, InArea p) ∧
      ∀ p, Covered r.2.maps p ↔ Covered sp.maps p ∨ p ∈ pagesFrom place pages

theorem wp_mapAt {sp : AddressSpace} (h : SpaceOk B sp m s) (hpages : 0 < pages)
    (hgap : IsGap sp.maps (pages * page) place i) :
    wp (spec B) (mapAt sp pages place i) (MapAreaPost B sp m s pages) s := by
  have hlow : place + (0 + pages) * page ≤ lowerHalfEnd := by
    obtain ⟨-, -, -, -, -, -, hend⟩ := hgap
    rw [Nat.zero_add]
    exact hend.trans (by decide)
  have hstart : Added m s (pagesFrom place 0) .readWrite m s :=
    pagesFrom_zero place ▸ Added.none fun _ _ => rfl
  unfold mapAt
  dsimp only
  split
  · exact ⟨rfl, h, fun _ _ => rfl⟩
  · next hfits =>
    rw [bind_eq, wp_bind]
    refine wp_mono (wp_mapEach h.has hlow hstart) fun ok s' hs' => ?_
    cases ok with
    | false => exact ⟨rfl, ⟨hs'.1, h.maps⟩, hs'.2⟩
    | true =>
      obtain ⟨m', hhas, hadded⟩ := hs'
      rw [Nat.zero_add] at hadded
      obtain ⟨hmaps, hcov⟩ := mapsOk_merged h.maps hgap hpages
          (length_merged_le_max h.maps.few hfits)
      exact ⟨rfl, m', ⟨hhas, hmaps⟩, hadded, hgap.free h.maps, hcov⟩

theorem checkedMul_eq_some {a b c : ℕ} (h : checkedMul a b = some c) : c = a * b := by
  unfold checkedMul at h
  split at h
  · exact (Option.some.inj h).symm
  · cases h

/-- **`map_area`** maps fresh pages of the area, or leaves the space as it was. -/
theorem wp_mapArea {sp : AddressSpace} (h : SpaceOk B sp m s) (pages room : ℕ) :
    wp (spec B) (mapArea sp pages room) (MapAreaPost B sp m s pages) s := by
  have hsame : ∀ e, MapAreaPost B sp m s pages (.error e, sp) s := fun e => ⟨rfl, h, fun _ _ => rfl⟩
  unfold mapArea
  split
  · exact hsame _
  · next hpages =>
    split
    · exact hsame _
    · cases hlen : checkedMul pages page with
      | none => exact hsame _
      | some len =>
        obtain rfl := checkedMul_eq_some hlen
        have hfind := @wp_findGap [] _ (spec B) s _ (pages * page) h.maps (Or.inl ⟨rfl, rfl⟩)
        dsimp only
        rw [bind_eq, wp_bind]
        refine wp_mono hfind fun x s' => ?_
        rintro ⟨rfl, hx⟩
        cases x with
        | none => exact hsame _
        | some x => exact wp_mapAt h (Nat.pos_of_ne_zero hpages) (hx x.1 x.2 rfl)

/-! ### Taking pages out of the area -/

section Unmap

variable {addr pages : ℕ} {r : ℕ × ℕ}

/-- The range lies inside a region and touches neither of its ends: taking it out would
leave two. -/
def Splits (maps : List (ℕ × ℕ)) (addr stop : ℕ) : Prop :=
  ∃ r ∈ maps, r.1 < addr ∧ stop < r.1 + r.2 * page

/-- **When pages can be taken out**: there are some, they are whole pages, each of them lies in
a region, and what is left is not too many regions. -/
structure CanUnmap (maps : List (ℕ × ℕ)) (addr pages : ℕ) : Prop where
  pos : 0 < pages
  aligned : addr % page = 0
  covered : ∀ p ∈ pagesFrom addr pages, Covered maps p
  fits : Splits maps addr (addr + pages * page) → maps.length < mapsMax

theorem MapsOk.mem_bytes_of_covered (hm : MapsOk maps) {y : ℕ} (h : Covered maps (y / page)) :
    y ∈ Spans.bytes (maps.map span) := by
  obtain ⟨r, hr, hcov⟩ := h
  have := (hm.aligned r hr).1
  refine Spans.mem_bytes.2 ⟨span r, List.mem_map_of_mem hr, ?_⟩
  change r.1 ≤ y ∧ y < r.1 + r.2 * page
  unfold page at *
  omega

/-- Pages in a row that all lie in regions lie in one. -/
theorem MapsOk.stop_le (hm : MapsOk maps) (hr : r ∈ maps) (haddr : r.1 ≤ addr)
    (haddr' : addr < r.1 + r.2 * page)
    (hcov : ∀ p ∈ pagesFrom addr pages, Covered maps p) (hmod : addr % page = 0) :
    addr + pages * page ≤ r.1 + r.2 * page := by
  refine Spans.Spaced.le_stop (mapsOk_iff.1 hm).1 (List.mem_map_of_mem hr) haddr haddr'
    fun y hy hy' => ?_
  refine hm.mem_bytes_of_covered (hcov _ ?_)
  change addr / page ≤ y / page ∧ y / page < addr / page + pages
  unfold page at *
  omega

/-- Two regions with a common address are one. -/
theorem MapsOk.unique (hm : MapsOk maps) {c : ℕ × ℕ} (hr : r ∈ maps) (hc : c ∈ maps) {x : ℕ}
    (hrx : r.1 ≤ x ∧ x < r.1 + r.2 * page) (hcx : c.1 ≤ x ∧ x < c.1 + c.2 * page) : r = c := by
  by_contra hne
  have hpair : maps.Pairwise fun a b => a.1 + a.2 * page < b.1 ∨ b.1 + b.2 * page < a.1 :=
    hm.sorted.imp Or.inl
  have : Std.Symm fun a b : ℕ × ℕ => a.1 + a.2 * page < b.1 ∨ b.1 + b.2 * page < a.1 :=
    ⟨fun _ _ h => h.symm⟩
  have := hpair.forall hr hc hne
  omega

theorem insertIdx_append_cons {α : Type} (l rest : List α) (a b : α) :
    (l ++ a :: rest).insertIdx (l.length + 1) b = l ++ a :: b :: rest := by
  induction l with
  | nil => rfl
  | cons c l ih => exact congrArg (c :: ·) ih

/-- **The four ways of cutting a region** are one: what is left of it takes its place. -/
theorem map_span_cutAt (l rest : List (ℕ × ℕ)) (haddr : r.1 ≤ addr)
    (hstop : addr + pages * page ≤ r.1 + r.2 * page)
    (hr : r.1 % page = 0) (hmod : addr % page = 0) :
    (cutAt (l ++ r :: rest) r addr (addr + pages * page) l.length (decide (r.1 < addr))
      (decide (addr + pages * page < r.1 + r.2 * page))).map span =
    l.map span ++ (Spans.cut (span r) addr (pages * page) ++ rest.map span) := by
  have hbefore : span (r.1, (addr - r.1) / page) = ⟨r.1, addr - r.1⟩ := by
    unfold span page at *
    dsimp only
    rw [Nat.div_mul_cancel (by omega)]
  have hafter : span (addr + pages * page, (r.1 + r.2 * page - (addr + pages * page)) / page) =
      ⟨addr + pages * page, r.1 + r.2 * page - (addr + pages * page)⟩ := by
    unfold span page at *
    dsimp only
    rw [Nat.div_mul_cancel (by omega)]
  have hset : ∀ x, (l ++ r :: rest).set l.length x = l ++ x :: rest := fun x => by simp
  have hcut : Spans.cut (span r) addr (pages * page) =
      (if r.1 < addr then [⟨r.1, addr - r.1⟩] else []) ++
        (if addr + pages * page < r.1 + r.2 * page then
          [⟨addr + pages * page, r.1 + r.2 * page - (addr + pages * page)⟩] else []) := rfl
  rw [hcut]
  by_cases h1 : r.1 < addr <;> by_cases h2 : addr + pages * page < r.1 + r.2 * page <;>
    simp only [h1, h2, decide_true, decide_false, if_true, if_false, cutAt]
  · rw [hset, insertIdx_append_cons, List.map_append, List.map_cons, List.map_cons, hbefore, hafter]
    simp
  · rw [hset, List.map_append, List.map_cons, hbefore]
    simp
  · rw [hset, List.map_append, List.map_cons, hafter]
    simp
  · rw [List.eraseIdx_append_of_length_le le_rfl]
    simp

theorem length_cutAt_le (stop i : ℕ) (before after : Bool) :
    (cutAt maps r addr stop i before after).length ≤ if before && after then maps.length + 1
      else maps.length := by
  cases before <;> cases after
  · exact List.length_eraseIdx_le ..
  · exact (List.length_set ..).le
  · exact (List.length_set ..).le
  · refine List.length_insertIdx_le_succ.trans ?_
    rw [List.length_set]
    rfl

theorem IsRegion.of_mem_cut {b c : Span} {x n : ℕ} (hb : IsRegion b) (h1 : b.start ≤ x)
    (h2 : x + n ≤ b.stop)
    (hx : x % page = 0) (hn : n % page = 0) (hc : c ∈ Spans.cut b x n) : IsRegion c := by
  have hle := Spans.start_stop_of_mem_cut h1 h2 hc
  have hstart := hb.start_le
  have hstop := hb.stop_le
  have hmod : c.start % page = 0 ∧ c.size % page = 0 := by
    have hb1 := hb.start_mod
    have hb2 := hb.size_mod
    unfold Spans.cut at hc
    rcases List.mem_append.mp hc with hc | hc <;> split at hc
    · obtain rfl := List.mem_singleton.mp hc
      simp only [page] at *
      omega
    · cases hc
    · obtain rfl := List.mem_singleton.mp hc
      simp only [page, Span.stop] at *
      omega
    · cases hc
  refine ⟨by omega, by omega, hmod.1, hmod.2, ?_⟩
  unfold Span.stop at hle
  omega

/-- The regions with the pages cut out of region `i`. -/
def cutOut (maps : List (ℕ × ℕ)) (r : ℕ × ℕ) (addr pages i : ℕ) : List (ℕ × ℕ) :=
  cutAt maps r addr (addr + pages * page) i (decide (r.1 < addr))
    (decide (addr + pages * page < r.1 + r.2 * page))

/-- **Cutting pages out of a region** keeps the regions as they should be, and takes the pages
out. -/
theorem mapsOk_cutOut {i : ℕ} (hm : MapsOk maps) (hr : maps[i]? = some r) (hpages : 0 < pages)
    (hmod : addr % page = 0) (haddr : r.1 ≤ addr) (hstop : addr + pages * page ≤ r.1 + r.2 * page)
    (hfew : (cutOut maps r addr pages i).length ≤ mapsMax) :
    MapsOk (cutOut maps r addr pages i) ∧
      ∀ p, Covered (cutOut maps r addr pages i) p ↔ Covered maps p ∧ p ∉ pagesFrom addr pages := by
  obtain ⟨hi, hget⟩ := List.getElem?_eq_some_iff.1 hr
  have hsplit : maps = maps.take i ++ r :: maps.drop (i + 1) := by
    rw [← hget, List.getElem_cons_drop, List.take_append_drop]
  have hlen : (maps.take i).length = i := List.length_take_of_le hi.le
  generalize maps.take i = l at hsplit hlen
  generalize maps.drop (i + 1) = rest at hsplit
  subst hsplit hlen
  obtain ⟨hspaced, hregion, -⟩ := mapsOk_iff.1 hm
  rw [List.map_append, List.map_cons] at hspaced hregion
  have hr : IsRegion (span r) := hregion _ (by simp)
  have hpos : 0 < pages * page := Nat.mul_pos hpages (by norm_num [page])
  have heq := map_span_cutAt l rest haddr hstop hr.start_mod hmod
  constructor
  · refine mapsOk_iff.2 ⟨?_, ?_, hfew⟩
    · rw [cutOut, heq]
      exact Spans.spaced_cut haddr hstop hpos hspaced
    · rw [cutOut, heq]
      intro b hb
      rcases List.mem_append.mp hb with hb | hb
      · exact hregion b (List.mem_append_left _ hb)
      · rcases List.mem_append.mp hb with hb | hb
        · exact hr.of_mem_cut haddr hstop hmod (Nat.mul_mod_left _ _) hb
        · exact hregion b (List.mem_append_right _ (List.mem_cons_of_mem _ hb))
  · intro p
    rw [covered_iff, cutOut, heq, Spans.mem_bytes_append_cut haddr hstop hspaced, covered_iff,
      List.map_append,
      List.map_cons, ← mem_span_iff hmod, Span.mem_bytes]
    rfl

/-- What `unmapArea` does: if the pages can be taken out they are, otherwise nothing. -/
def UnmapAreaPost (B : Set ℕ) (sp : AddressSpace) (m : Pages) (s : Mem) (addr pages : ℕ)
    (r : Except Vfs.Errno Unit × AddressSpace) (s' : Mem) : Prop :=
  match r.1 with
  | .error _ => ¬CanUnmap sp.maps addr pages ∧ r.2 = sp ∧ s' = s
  | .ok () => CanUnmap sp.maps addr pages ∧ r.2.pml4 = sp.pml4 ∧
      SpaceOk B r.2 (without m addr pages) s' ∧
      (∀ f ∈ frames (without m addr pages), s'.content f = s.content f) ∧
      ∀ p, Covered r.2.maps p ↔ Covered sp.maps p ∧ p ∉ pagesFrom addr pages

theorem wp_unmapAt {sp : AddressSpace} {i : ℕ} (h : SpaceOk B sp m s) (hr : sp.maps[i]? = some r)
    (hpages : 0 < pages) (hmod : addr % page = 0) (haddr : r.1 ≤ addr)
    (haddr' : addr < r.1 + r.2 * page) :
    wp (spec B) (unmapAt sp r addr pages (addr + pages * page) i)
      (UnmapAreaPost B sp m s addr pages) s := by
  have hmem : r ∈ sp.maps := List.mem_of_getElem? hr
  have hend := (h.maps.within r hmem).2
  have hsplits : Splits sp.maps addr (addr + pages * page) ↔
      r.1 < addr ∧ addr + pages * page < r.1 + r.2 * page := by
    refine ⟨fun ⟨c, hc, hlt, hgt⟩ => ?_, fun hlt => ⟨r, hmem, hlt⟩⟩
    obtain rfl := h.maps.unique hmem hc ⟨haddr, haddr'⟩ ⟨hlt.le, by omega⟩
    exact ⟨hlt, hgt⟩
  simp only [unmapAt, endOf, bind_eq, wp_bind, wp_need, pure_eq, wp_ret]
  refine ⟨lt_of_le_of_lt hend (by decide), ?_⟩
  split
  · next hpast =>
    refine ⟨fun hcan => ?_, rfl, rfl⟩
    exact absurd (h.maps.stop_le hmem haddr haddr' hcan.covered hmod) (not_le.2 hpast)
  · next hstop =>
    rw [not_lt] at hstop
    have hcov : ∀ p ∈ pagesFrom addr pages, Covered sp.maps p := fun p hp => by
      have := Span.mem_bytes.1 ((mem_span_iff hmod).2 hp)
      refine ⟨r, hmem, haddr.trans this.1, this.2.trans_le hstop⟩
    split
    · next hmany =>
      refine ⟨fun hcan => ?_, rfl, rfl⟩
      simp only [Bool.and_eq_true, decide_eq_true_eq] at hmany
      have := hcan.fits (hsplits.2 hmany.1)
      omega
    · next hfew =>
      have hlow : addr + pages * page ≤ lowerHalfEnd := (hstop.trans hend).trans (by decide)
      simp only [Bool.and_eq_true, decide_eq_true_eq, not_and, not_le] at hfew
      have hfits : Splits sp.maps addr (addr + pages * page) → sp.maps.length < mapsMax := fun hs =>
        hfew (hsplits.1 hs)
      have hlen : (cutOut sp.maps r addr pages i).length ≤ mapsMax := by
        refine (length_cutAt_le ..).trans ?_
        have := h.maps.few
        split
        · next hb =>
          simp only [Bool.and_eq_true, decide_eq_true_eq] at hb
          exact hfits (hsplits.2 hb)
        · exact this
      obtain ⟨hmaps, hcovered⟩ := mapsOk_cutOut h.maps hr hpages hmod haddr hstop hlen
      rw [wp_bind]
      refine wp_mono (wp_unmapPages h.has hlow) fun _ s' hs' => ?_
      exact ⟨⟨hpages, hmod, hcov, hfits⟩, rfl, ⟨hs'.1, hmaps⟩, hs'.2, hcovered⟩

theorem checkedEnd_eq (addr pages : ℕ) : (checkedMul pages page).bind (checkedAdd addr) =
    if addr + pages * page < 2 ^ 64 then some (addr + pages * page) else none := by
  unfold checkedMul
  split
  · rw [Option.bind_some, checkedAdd]
  · next h => rw [if_neg fun hlt => h ((Nat.le_add_left _ _).trans_lt hlt), Option.bind_none]

/-- **`unmap_area`** takes pages out exactly when they can be, and otherwise changes
nothing. -/
theorem wp_unmapArea {sp : AddressSpace} (h : SpaceOk B sp m s) (addr pages : ℕ) :
    wp (spec B) (unmapArea sp addr pages) (UnmapAreaPost B sp m s addr pages) s := by
  have hlow : CanUnmap sp.maps addr pages → addr + pages * page ≤ mapEnd ∧
      ∃ r ∈ sp.maps, r.1 ≤ addr ∧ addr < r.1 + r.2 * page := fun hcan => by
    have hdiv : addr / page * page = addr :=
      Nat.div_mul_cancel (Nat.dvd_of_mod_eq_zero hcan.aligned)
    obtain ⟨r, hr, hcov⟩ := hcan.covered (addr / page) ⟨le_rfl, Nat.lt_add_of_pos_right hcan.pos⟩
    rw [hdiv] at hcov
    exact ⟨(h.maps.stop_le hr hcov.1 hcov.2 hcan.covered hcan.aligned).trans
      (h.maps.within r hr).2, r, hr, hcov⟩
  have herror : ∀ e, ¬CanUnmap sp.maps addr pages →
      UnmapAreaPost B sp m s addr pages (.error e, sp) s :=
    fun e hnot => ⟨hnot, rfl, rfl⟩
  unfold unmapArea
  rw [checkedEnd_eq]
  by_cases hsmall : addr + pages * page < 2 ^ 64
  · rw [if_pos hsmall]
    dsimp only
    split
    · next hbad => exact herror _ fun hcan => hbad.elim hcan.pos.ne' fun hne => hne hcan.aligned
    · next hgood =>
      rw [not_or, not_not] at hgood
      cases hfind : sp.maps.findIdx? fun r => r.1 ≤ addr ∧ addr < r.1 + r.2 * page with
      | none =>
        refine herror _ fun hcan => ?_
        obtain ⟨-, r, hr, hcov⟩ := hlow hcan
        have := List.findIdx?_eq_none_iff.1 hfind r hr
        simp [hcov] at this
      | some i =>
        obtain ⟨hi, hpred, -⟩ := List.findIdx?_eq_some_iff_getElem.1 hfind
        simp only [decide_eq_true_eq] at hpred
        have hget : sp.maps.getD i (0, 0) = sp.maps[i] := by
          rw [List.getD_eq_getElem?_getD, List.getElem?_eq_getElem hi, Option.getD_some]
        dsimp only
        rw [hget]
        exact wp_unmapAt h (List.getElem?_eq_getElem hi) (Nat.pos_of_ne_zero hgood.1) hgood.2
          hpred.1 hpred.2
  · rw [if_neg hsmall]
    refine herror _ fun hcan => hsmall ?_
    exact lt_of_le_of_lt (hlow hcan).1 (by decide)

end Unmap

/-! ### The area's pages -/

namespace AreaOk

variable {maps' : List (ℕ × ℕ)} {m' : Pages}

/-- A page that lies in no new region and out of no old one stays as it was. -/
theorem congr (h : AreaOk maps m) (hpage : ∀ p, InArea p → m' p = m p) : AreaOk maps m' :=
  fun p hp => by
  rw [hpage p hp]
  exact h p hp

theorem add {s s' : Mem} {V : Set ℕ} (h : AreaOk maps m) (hadded : Added m s V .readWrite m' s')
    (hcov : ∀ p, Covered maps' p ↔ Covered maps p ∨ p ∈ V) : AreaOk maps' m' := fun p hp => by
  rw [hcov]
  by_cases hnew : p ∈ V
  · obtain ⟨-, f, hf, -⟩ := hadded.new p hnew
    exact ⟨fun _ => ⟨f, hf⟩, fun hc => absurd (Or.inr hnew) hc⟩
  · rw [hadded.old p hnew]
    exact ⟨fun hc => (h p hp).1 (hc.resolve_right hnew), fun hc => (h p hp).2 fun h =>
      hc (Or.inl h)⟩

theorem without {addr pages : ℕ} (h : AreaOk maps m)
    (hcov : ∀ p, Covered maps' p ↔ Covered maps p ∧ p ∉ pagesFrom addr pages) :
    AreaOk maps' (without m addr pages) := fun p hp => by
  rw [hcov]
  by_cases hout : p ∈ pagesFrom addr pages
  · rw [without_of_mem hout]
    exact ⟨fun hc => absurd hout hc.2, fun _ => rfl⟩
  · rw [without_of_notMem hout]
    exact ⟨fun hc => (h p hp).1 hc.1, fun hc => (h p hp).2 fun h => hc ⟨h, hout⟩⟩

end AreaOk

end RelayOs.Mm
