import Mathlib

/-!
# Lists of address ranges

A range of addresses is a start and a size. What a list of ranges covers is the multiset of
its addresses (`RelayOs.Spans.bytes`): splitting a range, joining two that touch and moving
one from a list to another leave the multiset as it is, and that no address occurs twice
says that the ranges are disjoint. So an allocator's books balance as soon as every
operation keeps one sum.
-/

namespace RelayOs

/-- The addresses from `start` on, `size` of them. -/
structure Span where
  start : ℕ
  size : ℕ
  deriving DecidableEq, Repr

namespace Span

variable {s t : Span} {x : ℕ}

/-- The first address past the range. -/
def stop (s : Span) : ℕ := s.start + s.size

/-- The addresses of the range. -/
def bytes (s : Span) : Multiset ℕ := Multiset.Ico s.start s.stop

/-- One of the two ranges ends where the other starts, or before. -/
def Apart (s t : Span) : Prop := s.stop ≤ t.start ∨ t.stop ≤ s.start

instance : Decidable (s.Apart t) := inferInstanceAs (Decidable (_ ∨ _))

/-- The range with the one that follows it. -/
def join (s t : Span) : Span := ⟨s.start, s.size + t.size⟩

theorem mem_bytes : x ∈ s.bytes ↔ s.start ≤ x ∧ x < s.stop := Multiset.mem_Ico

theorem card_bytes (s : Span) : s.bytes.card = s.size := by
  change (Finset.Ico s.start s.stop).card = s.size
  rw [Nat.card_Ico]
  exact Nat.add_sub_cancel_left _ _

theorem Apart.symm (h : s.Apart t) : t.Apart s := h.elim Or.inr Or.inl

theorem stop_join (h : s.stop = t.start) : (s.join t).stop = t.stop := by
  change s.start + (s.size + t.size) = t.start + t.size
  rw [← h, ← Nat.add_assoc]
  rfl

theorem size_add_le (h : s.stop = t.start) : s.size + t.size ≤ t.stop := by
  rw [← stop_join h]
  exact Nat.le_add_left _ _

theorem bytes_join (h : s.stop = t.start) : (s.join t).bytes = s.bytes + t.bytes := by
  have hs : s.start ≤ s.stop := Nat.le_add_right _ _
  have ht : s.stop ≤ t.stop := h ▸ Nat.le_add_right _ _
  unfold bytes
  rw [stop_join h, ← h]
  exact (Multiset.Ico_add_Ico_eq_Ico hs ht).symm

/-- **A range cut at two places**: what is before, between and after. -/
theorem bytes_cut {n : ℕ} (h1 : s.start ≤ x) (h2 : x + n ≤ s.stop) :
    s.bytes = (⟨s.start, x - s.start⟩ : Span).bytes + (⟨x, n⟩ : Span).bytes +
      (⟨x + n, s.stop - (x + n)⟩ : Span).bytes := by
  unfold bytes stop at *
  simp only
  rw [Nat.add_sub_cancel' h1, Nat.add_sub_cancel' h2,
    Multiset.Ico_add_Ico_eq_Ico h1 (Nat.le_add_right x n),
    Multiset.Ico_add_Ico_eq_Ico (h1.trans (Nat.le_add_right x n)) h2]

/-- **Ranges that share no address are apart.** -/
theorem apart_of_disjoint (hs : 0 < s.size) (ht : 0 < t.size) (h : Disjoint s.bytes t.bytes) :
    s.Apart t := by
  by_contra hcon
  have hmax : max s.start t.start ∈ s.bytes ∧ max s.start t.start ∈ t.bytes := by
    unfold Apart stop at hcon
    simp only [mem_bytes, stop]
    omega
  exact Multiset.disjoint_left.mp h hmax.1 hmax.2

theorem Apart.disjoint (h : s.Apart t) : Disjoint s.bytes t.bytes := by
  refine Multiset.disjoint_left.mpr fun {x} hs ht => ?_
  rw [mem_bytes] at hs ht
  unfold Apart at h
  omega

end Span

namespace Spans

variable {s t : Span} {l l' bs : List Span} {x : ℕ}

/-- The addresses the ranges of the list cover, with multiplicities. -/
def bytes (l : List Span) : Multiset ℕ := (l.map Span.bytes).sum

@[simp]
theorem bytes_nil : bytes [] = 0 := rfl

@[simp]
theorem bytes_cons (s : Span) (l : List Span) : bytes (s :: l) = s.bytes + bytes l :=
  List.sum_cons

@[simp]
theorem bytes_append (l l' : List Span) : bytes (l ++ l') = bytes l + bytes l' := by
  simp [bytes]

/-- The sizes of the ranges added up. -/
def size (l : List Span) : ℕ := (l.map Span.size).sum

@[simp]
theorem size_nil : size [] = 0 := rfl

@[simp]
theorem size_cons (s : Span) (l : List Span) : size (s :: l) = s.size + size l := List.sum_cons

theorem card_bytes (l : List Span) : (bytes l).card = size l := by
  induction l with
  | nil => rfl
  | cons s l ih => rw [bytes_cons, Multiset.card_add, ih, Span.card_bytes, size_cons]

theorem mem_bytes : x ∈ bytes l ↔ ∃ s ∈ l, s.start ≤ x ∧ x < s.stop := by
  induction l with
  | nil => simp
  | cons s l ih => simp [ih, Span.mem_bytes]

theorem disjoint_bytes {m : Multiset ℕ} (h : Disjoint (bytes l) m) (hs : s ∈ l) :
    Disjoint s.bytes m := by
  refine Multiset.disjoint_left.mpr fun {x} hx => Multiset.disjoint_left.mp h ?_
  exact mem_bytes.mpr ⟨s, hs, Span.mem_bytes.mp hx⟩

/-- **No address twice, no two ranges overlap.** -/
theorem pairwise_apart (h : (bytes l).Nodup) (hpos : ∀ s ∈ l, 0 < s.size) :
    l.Pairwise Span.Apart := by
  induction l with
  | nil => exact .nil
  | cons s l ih =>
    rw [bytes_cons, Multiset.nodup_add] at h
    refine List.pairwise_cons.mpr ⟨fun t ht => ?_,
      ih h.2.1 fun t ht => hpos t (List.mem_cons_of_mem s ht)⟩
    exact Span.apart_of_disjoint (hpos s List.mem_cons_self) (hpos t (List.mem_cons_of_mem s ht))
      (disjoint_bytes h.2.2.symm ht).symm

/-- Ranges of lists that share no address are apart. -/
theorem apart_of_disjoint (h : Disjoint (bytes l) (bytes l')) (hs : s ∈ l) (ht : t ∈ l')
    (hs0 : 0 < s.size) (ht0 : 0 < t.size) : s.Apart t :=
  Span.apart_of_disjoint hs0 ht0 (disjoint_bytes (disjoint_bytes h hs).symm ht).symm

theorem bytes_perm (h : l.Perm l') : bytes l = bytes l' := (h.map Span.bytes).sum_eq

theorem size_perm (h : l.Perm l') : size l = size l' := (h.map Span.size).sum_eq

/-- **Ranges of one size in a row** cover what one range does. -/
theorem bytes_row (start width n : ℕ) :
    bytes ((List.range n).map fun i => ⟨start + i * width, width⟩) =
      (⟨start, n * width⟩ : Span).bytes := by
  induction n with
  | zero => simp [Span.bytes, Span.stop]
  | succ n ih =>
    have hjoin := Span.bytes_join (s := ⟨start, n * width⟩) (t := ⟨start + n * width, width⟩) rfl
    rw [List.range_succ, List.map_append, bytes_append, ih, Nat.succ_mul]
    simpa [Span.join] using hjoin.symm

/-! ### Lists in the order of addresses -/

/-- **In the order of addresses, with a gap after each range.** -/
def Spaced (l : List Span) : Prop := l.Pairwise fun s t => s.stop < t.start

/-- Puts `s` in front of the ranges, joined with the first if they touch. -/
def settle (s : Span) : List Span → List Span
  | [] => [s]
  | n :: ns => if s.stop = n.start then s.join n :: ns else s :: n :: ns

/-- Puts the ranges of the first list in front of those of the second, the last of them
joined with what follows if they touch. -/
def joinLast : List Span → List Span → List Span
  | [], l => l
  | [p], l => settle p l
  | p :: q :: bs, l => p :: joinLast (q :: bs) l

/-- **Inserts a range in its place**, joined with the ranges before and after it if they
touch. -/
def insert (s : Span) (l : List Span) : List Span :=
  joinLast (l.takeWhile fun b => b.start < s.start)
    (settle s (l.dropWhile fun b => b.start < s.start))

theorem joinLast_append (bs : List Span) (p : Span) (l : List Span) :
    joinLast (bs ++ [p]) l = bs ++ settle p l := by
  induction bs with
  | nil => rfl
  | cons b bs ih =>
    rcases bs with _ | ⟨c, bs⟩
    · rfl
    · rw [List.cons_append, List.cons_append, joinLast, ← List.cons_append, ih]
      rfl

/-- The range touches the first one and is joined with it, or stands in front. -/
theorem settle_cases (s : Span) (l : List Span) :
    (settle s l = s :: l ∧ ∀ n ns, l = n :: ns → s.stop ≠ n.start) ∨
      ∃ n ns, l = n :: ns ∧ s.stop = n.start ∧ settle s l = s.join n :: ns := by
  cases l with
  | nil => exact Or.inl ⟨rfl, nofun⟩
  | cons n ns =>
    by_cases h : s.stop = n.start
    · exact Or.inr ⟨n, ns, rfl, h, if_pos h⟩
    · refine Or.inl ⟨if_neg h, fun n' ns' he => ?_⟩
      obtain ⟨rfl, -⟩ := List.cons.inj he
      exact h

theorem bytes_settle (s : Span) (l : List Span) : bytes (settle s l) = s.bytes + bytes l := by
  rcases settle_cases s l with ⟨he, -⟩ | ⟨n, ns, rfl, h, he⟩
  · rw [he, bytes_cons]
  · rw [he, bytes_cons, Span.bytes_join h, bytes_cons, add_assoc]

theorem bytes_joinLast (bs l : List Span) : bytes (joinLast bs l) = bytes bs + bytes l := by
  rcases List.eq_nil_or_concat bs with rfl | ⟨bs, p, rfl⟩
  · simp [joinLast]
  · rw [List.concat_eq_append, joinLast_append, bytes_append, bytes_settle,
      bytes_append, bytes_cons,
      bytes_nil, add_zero, add_assoc]

/-- **Inserting a range adds its addresses.** -/
theorem bytes_insert (s : Span) (l : List Span) : bytes (insert s l) = s.bytes + bytes l := by
  unfold insert
  rw [bytes_joinLast, bytes_settle, add_left_comm, ← bytes_append, List.takeWhile_append_dropWhile]

section Forall

variable {P : Span → Prop} (hP : ∀ s t, s.stop = t.start → P s → P t → P (s.join t))

include hP

theorem forall_settle (hs : P s) (hl : ∀ b ∈ l, P b) : ∀ b ∈ settle s l, P b := by
  rcases settle_cases s l with ⟨he, -⟩ | ⟨n, ns, rfl, h, he⟩ <;> rw [he]
  · exact List.forall_mem_cons.mpr ⟨hs, hl⟩
  · obtain ⟨hn, hns⟩ := List.forall_mem_cons.mp hl
    exact List.forall_mem_cons.mpr ⟨hP s n h hs hn, hns⟩

theorem forall_joinLast (hbs : ∀ b ∈ bs, P b) (hl : ∀ b ∈ l, P b) : ∀ b ∈ joinLast bs l, P b := by
  rcases List.eq_nil_or_concat bs with rfl | ⟨bs, p, rfl⟩
  · exact hl
  · rw [List.concat_eq_append] at hbs ⊢
    rw [joinLast_append]
    intro b hb
    rcases List.mem_append.mp hb with hb | hb
    · exact hbs b (List.mem_append_left _ hb)
    · exact forall_settle hP (hbs p (by simp)) hl b hb

theorem forall_insert (hs : P s) (hl : ∀ b ∈ l, P b) : ∀ b ∈ insert s l, P b :=
  forall_joinLast hP (fun b hb => hl b ((List.takeWhile_prefix _).subset hb))
    (forall_settle hP hs fun b hb => hl b ((List.dropWhile_suffix _).subset hb))

end Forall

section Exists

variable {P : Span → Prop} (hP : ∀ s t, s.stop = t.start → P s ∨ P t → P (s.join t))

include hP

theorem exists_settle (h : P s ∨ ∃ b ∈ l, P b) : ∃ b ∈ settle s l, P b := by
  rcases settle_cases s l with ⟨he, -⟩ | ⟨n, ns, rfl, htouch, he⟩ <;> rw [he]
  · simpa only [List.mem_cons, exists_eq_or_imp] using h
  · simp only [List.mem_cons, exists_eq_or_imp, ← or_assoc] at h ⊢
    exact h.imp_left (hP s n htouch)

theorem exists_joinLast (h : ∃ b ∈ l, P b) : ∃ b ∈ joinLast bs l, P b := by
  rcases List.eq_nil_or_concat bs with rfl | ⟨bs, p, rfl⟩
  · exact h
  · rw [List.concat_eq_append, joinLast_append]
    obtain ⟨b, hb, hPb⟩ := exists_settle (s := p) hP (Or.inr h)
    exact ⟨b, List.mem_append_right bs hb, hPb⟩

theorem exists_insert (hs : P s) : ∃ b ∈ insert s l, P b :=
  exists_joinLast hP (exists_settle hP (Or.inl hs))

end Exists

theorem start_le_stop (s : Span) : s.start ≤ s.stop := Nat.le_add_right _ _

theorem spaced_settle (hl : Spaced l) (h : ∀ b ∈ l, s.stop ≤ b.start) : Spaced (settle s l) := by
  rcases settle_cases s l with ⟨he, hne⟩ | ⟨n, ns, rfl, htouch, he⟩ <;> rw [he]
  · refine List.pairwise_cons.mpr ⟨?_, hl⟩
    cases l with
    | nil => exact nofun
    | cons n ns =>
      have hlt : s.stop < n.start := lt_of_le_of_ne (h n List.mem_cons_self) (hne n ns rfl)
      refine List.forall_mem_cons.mpr ⟨hlt, fun b hb => ?_⟩
      have hnb := (List.pairwise_cons.mp hl).1 b hb
      exact hlt.trans ((start_le_stop n).trans_lt hnb)
  · obtain ⟨hn, hns⟩ := List.pairwise_cons.mp hl
    refine List.pairwise_cons.mpr ⟨fun b hb => ?_, hns⟩
    rw [Span.stop_join htouch]
    exact hn b hb

/-- The first range stays the first. -/
theorem start_le_settle (h : ∀ b ∈ l, s.start ≤ b.start) : ∀ b ∈ settle s l, s.start ≤ b.start := by
  rcases settle_cases s l with ⟨he, -⟩ | ⟨n, ns, rfl, -, he⟩ <;> rw [he]
  · exact List.forall_mem_cons.mpr ⟨le_rfl, h⟩
  · exact List.forall_mem_cons.mpr ⟨le_rfl, (List.forall_mem_cons.mp h).2⟩

theorem spaced_joinLast (hbs : Spaced bs) (hl : Spaced l)
    (h : ∀ b ∈ bs, ∀ c ∈ l, b.stop ≤ c.start) :
    Spaced (joinLast bs l) := by
  rcases List.eq_nil_or_concat bs with rfl | ⟨bs, p, rfl⟩
  · exact hl
  · rw [List.concat_eq_append] at hbs h
    rw [List.concat_eq_append, joinLast_append]
    have hp : ∀ c ∈ l, p.stop ≤ c.start := h p (by simp)
    have hpair := List.pairwise_append.mp hbs
    refine List.pairwise_append.mpr ⟨hpair.1, spaced_settle hl hp, fun b hb c hc => ?_⟩
    have hbp : b.stop < p.start := hpair.2.2 b hb p (by simp)
    have hpc : p.start ≤ c.start :=
      start_le_settle (fun c hc => (Nat.le_add_right _ _).trans (hp c hc)) c hc
    omega

theorem start_le_of_mem_dropWhile (hl : Spaced l) :
    ∀ b ∈ l.dropWhile (fun b => b.start < s.start), s.start ≤ b.start := by
  induction l with
  | nil => exact nofun
  | cons n ns ih =>
    obtain ⟨hn, hns⟩ := List.pairwise_cons.mp hl
    by_cases hlt : n.start < s.start
    · rw [List.dropWhile_cons_of_pos (by simpa using hlt)]
      exact ih hns
    · rw [List.dropWhile_cons_of_neg (by simpa using hlt)]
      refine List.forall_mem_cons.mpr ⟨not_lt.mp hlt, fun b hb => ?_⟩
      exact (not_lt.mp hlt).trans ((start_le_stop n).trans (hn b hb).le)

/-- **A list in order covers no address twice.** -/
theorem nodup_bytes_of_spaced (hl : Spaced l) : (bytes l).Nodup := by
  induction l with
  | nil => exact Multiset.nodup_zero
  | cons s l ih =>
    obtain ⟨hs, hl'⟩ := List.pairwise_cons.mp hl
    rw [bytes_cons, Multiset.nodup_add]
    refine ⟨Multiset.nodup_Ico, ih hl', Multiset.disjoint_left.mpr fun {x} hx hx' => ?_⟩
    obtain ⟨t, ht, htx⟩ := mem_bytes.mp hx'
    have := hs t ht
    rw [Span.mem_bytes] at hx
    omega

section Apart

variable (hapart : ∀ b ∈ l, s.Apart b)

include hapart

theorem stop_le_of_mem_takeWhile :
    ∀ b ∈ l.takeWhile (fun b => b.start < s.start), b.stop ≤ s.start := by
  intro b hb
  have hlt : b.start < s.start := by simpa using List.mem_takeWhile_imp hb
  refine (hapart b ((List.takeWhile_prefix _).subset hb)).resolve_left fun h => ?_
  exact absurd (hlt.trans_le (start_le_stop s)) (not_lt.mpr h)

theorem stop_le_of_mem_dropWhile (hl : Spaced l) (hpos : ∀ b ∈ l, 0 < b.size) :
    ∀ b ∈ l.dropWhile (fun b => b.start < s.start), s.stop ≤ b.start := by
  intro b hb
  have hmem : b ∈ l := (List.dropWhile_suffix _).subset hb
  have hle : s.start ≤ b.start := start_le_of_mem_dropWhile hl b hb
  refine (hapart b hmem).resolve_right fun h => ?_
  exact absurd (h.trans hle) (not_le.mpr (Nat.lt_add_of_pos_right (hpos b hmem)))

/-- **An insertion keeps the order and the gaps**, if the range is apart from those there
are. -/
theorem spaced_insert (hl : Spaced l) (hpos : ∀ b ∈ l, 0 < b.size) : Spaced (insert s l) := by
  have hafter := stop_le_of_mem_dropWhile hapart hl hpos
  have hsplit : Spaced (l.takeWhile (fun b => b.start < s.start) ++
      l.dropWhile fun b => b.start < s.start) := by
    rwa [List.takeWhile_append_dropWhile]
  have hparts := List.pairwise_append.mp hsplit
  refine spaced_joinLast hparts.1 (spaced_settle hparts.2.1 hafter) fun b hb c hc => ?_
  refine (stop_le_of_mem_takeWhile hapart b hb).trans (start_le_settle (fun c hc => ?_) c hc)
  exact (start_le_stop s).trans (hafter c hc)

end Apart

/-- Two ranges of a list in order do not even touch. -/
theorem Spaced.gap (hl : Spaced l) (hs : s ∈ l) (ht : t ∈ l) (hne : s ≠ t) :
    s.stop < t.start ∨ t.stop < s.start := by
  have hpair : l.Pairwise fun s t => s.stop < t.start ∨ t.stop < s.start := hl.imp Or.inl
  have : Std.Symm fun s t : Span => s.stop < t.start ∨ t.stop < s.start := ⟨fun _ _ h => h.symm⟩
  exact hpair.forall hs ht hne

/-- **What is covered without a hole is covered by one range.** -/
theorem Spaced.le_stop (hl : Spaced l) (hs : s ∈ l) {z : ℕ} (hx : s.start ≤ x) (hx' : x < s.stop)
    (h : ∀ y, x ≤ y → y < z → y ∈ bytes l) : z ≤ s.stop := by
  by_contra hlt
  obtain ⟨t, ht, htx⟩ := mem_bytes.mp (h s.stop hx'.le (not_le.mp hlt))
  have hne : s ≠ t := by
    rintro rfl
    exact lt_irrefl _ htx.2
  have := hl.gap hs ht hne
  omega

/-! ### Cutting a piece out -/

/-- What is left of a range when the `n` addresses from `x` on are cut out of it: a piece before and
a piece after, if there is one. -/
def cut (s : Span) (x n : ℕ) : List Span :=
  (if s.start < x then [⟨s.start, x - s.start⟩] else []) ++
    (if x + n < s.stop then [⟨x + n, s.stop - (x + n)⟩] else [])

section Cut

variable {n : ℕ} (h1 : s.start ≤ x) (h2 : x + n ≤ s.stop)

include h1 h2

theorem start_stop_of_mem_cut (ht : t ∈ cut s x n) :
    s.start ≤ t.start ∧ t.stop ≤ s.stop ∧ t.start < t.stop ∧ (t.stop ≤ x ∨ x + n ≤ t.start) := by
  unfold cut at ht
  rcases List.mem_append.mp ht with ht | ht
  · split at ht
    · obtain rfl := List.mem_singleton.mp ht
      simp only [Span.stop] at *
      omega
    · cases ht
  · split at ht
    · obtain rfl := List.mem_singleton.mp ht
      simp only [Span.stop] at *
      omega
    · cases ht

theorem mem_bytes_cut {y : ℕ} : y ∈ bytes (cut s x n) ↔ y ∈ s.bytes ∧ ¬(x ≤ y ∧ y < x + n) := by
  rw [mem_bytes, Span.mem_bytes]
  constructor
  · rintro ⟨t, ht, hy⟩
    have := start_stop_of_mem_cut h1 h2 ht
    omega
  · rintro ⟨hy, hnot⟩
    rcases Nat.lt_or_ge y x with hlt | hge
    · refine ⟨⟨s.start, x - s.start⟩, List.mem_append_left _ ?_, hy.1, ?_⟩
      · rw [if_pos (by omega)]
        exact List.mem_singleton_self _
      · simp only [Span.stop]
        omega
    · refine ⟨⟨x + n, s.stop - (x + n)⟩, List.mem_append_right _ ?_, ?_⟩
      · rw [if_pos (by omega)]
        exact List.mem_singleton_self _
      · simp only [Span.stop] at *
        omega

theorem spaced_cut (hn : 0 < n) (hl : Spaced (l ++ s :: l')) : Spaced (l ++ (cut s x n ++ l')) := by
  obtain ⟨hbefore, hrest, hcross⟩ := List.pairwise_append.mp hl
  obtain ⟨hafter, hrest⟩ := List.pairwise_cons.mp hrest
  have hpieces : Spaced (cut s x n) := by
    unfold cut Spaced
    refine List.pairwise_append.mpr ⟨?_, ?_, fun t ht u hu => ?_⟩
    · split
      · exact List.pairwise_singleton _ _
      · exact List.Pairwise.nil
    · split
      · exact List.pairwise_singleton _ _
      · exact List.Pairwise.nil
    · split at ht <;> split at hu <;> simp only [List.mem_singleton, List.not_mem_nil] at ht hu
      subst ht hu
      unfold Span.stop
      dsimp only
      omega
  refine List.pairwise_append.mpr ⟨hbefore, List.pairwise_append.mpr ⟨hpieces, hrest, ?_⟩, ?_⟩
  · intro t ht u hu
    have := start_stop_of_mem_cut h1 h2 ht
    have := hafter u hu
    omega
  · intro t ht u hu
    rcases List.mem_append.mp hu with hu | hu
    · have := start_stop_of_mem_cut h1 h2 hu
      have := hcross t ht s List.mem_cons_self
      omega
    · exact hcross t ht u (List.mem_cons_of_mem _ hu)

/-- **Cutting a piece out of a list in order** takes its addresses out. -/
theorem mem_bytes_append_cut (hl : Spaced (l ++ s :: l')) {y : ℕ} :
    y ∈ bytes (l ++ (cut s x n ++ l')) ↔ y ∈ bytes (l ++ s :: l') ∧ ¬(x ≤ y ∧ y < x + n) := by
  have hother : ∀ t ∈ l ++ l', t.start ≤ y → y < t.stop → ¬(x ≤ y ∧ y < x + n) := by
    intro t ht hy hy'
    obtain ⟨-, hrest, hcross⟩ := List.pairwise_append.mp hl
    rcases List.mem_append.mp ht with ht | ht
    · have := hcross t ht s List.mem_cons_self
      omega
    · have := (List.pairwise_cons.mp hrest).1 t ht
      omega
  simp only [bytes_append, bytes_cons, Multiset.mem_add, mem_bytes_cut h1 h2]
  constructor
  · rintro (hy | hy | hy)
    · obtain ⟨t, ht, h⟩ := mem_bytes.mp hy
      exact ⟨Or.inl hy, hother t (List.mem_append_left _ ht) h.1 h.2⟩
    · exact ⟨Or.inr (Or.inl hy.1), hy.2⟩
    · obtain ⟨t, ht, h⟩ := mem_bytes.mp hy
      exact ⟨Or.inr (Or.inr hy), hother t (List.mem_append_right _ ht) h.1 h.2⟩
  · rintro ⟨hy | hy | hy, hnot⟩
    · exact Or.inl hy
    · exact Or.inr (Or.inl ⟨hy, hnot⟩)
    · exact Or.inr (Or.inr hy)

end Cut

end Spans

end RelayOs
