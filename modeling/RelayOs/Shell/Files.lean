import RelayOs.Shell.Syntax

/-!
# The files redirections have open

A command's fds 0, 1 and 2 are a **context** (`RelayOs.Sh.Fds`): each one the shell's own,
an end of a pipe, or a file a redirection opened, by its place in the table
(`RelayOs.Sh.Files`). The table counts, for each file, the fds that hold it; a file is
closed when the count comes to 0.
-/

namespace RelayOs.Sh

/-- What one of a command's fds is. -/
inductive Slot where
  | shell (fd : ℕ)
  | file (i : ℕ)
  | pipeIn
  | pipeOut
  deriving DecidableEq, Repr

/-- A command's fds 0, 1 and 2. -/
abbrev Fds := Fin 3 → Slot

/-- The shell's own, where nothing is redirected. -/
def Fds.shell : Fds :=
  fun fd => .shell fd

/-- The three fds, in no order. -/
def Fds.slots (fds : Fds) : Multiset Slot :=
  {fds 0, fds 1, fds 2}

theorem Fds.mem_slots {fds : Fds} (k : Fin 3) : fds k ∈ fds.slots := by
  fin_cases k <;> simp [slots]

/-- One fd of a context replaced. -/
def Fds.set (fds : Fds) (k : Fin 3) (slot : Slot) : Fds :=
  Function.update fds k slot

theorem Fds.slots_set (fds : Fds) (k : Fin 3) (slot : Slot) :
    (fds.set k slot).slots + {fds k} = fds.slots + {slot} := by
  ext s
  fin_cases k <;> simp [slots, set, Function.update, Multiset.count_cons,
    Multiset.count_singleton] <;>
    omega

/-- A file a redirection opened: `/bin/sh`'s fd, or the in-process runner's node with where
the next read or write goes. -/
inductive Handle where
  | fd (fd : ℕ)
  | node (node offset : ℕ)
  deriving DecidableEq, Repr

/-- The file of a handle, wherever in it the handle stands. -/
def Handle.place : Handle → ℕ ⊕ ℕ
  | .fd n => .inl n
  | .node n _ => .inr n

/-- An open file: which opening it is, its handle, and how many fds hold it. -/
structure Entry where
  key : ℕ
  handle : Handle
  count : ℕ

/-- The table, and the contexts that have been made and not released. -/
structure Files where
  opened : List (Option Entry)
  contexts : Multiset Fds

namespace Files

variable {files : Files} {i j : ℕ}

/-- The file at place `i`. -/
def entry (files : Files) (i : ℕ) : Option Entry :=
  files.opened[i]?.join

/-- Its handle; a slot of a context names an open file. -/
def handle (files : Files) (i : ℕ) : Option Handle :=
  (files.entry i).map Entry.handle

/-! ### The operations -/

/-- What is at place `i` changed. -/
def alter (files : Files) (i : ℕ) (f : Entry → Option Entry) : Files :=
  { files with opened := files.opened.modify i fun e => e.bind f }

/-- The in-process runner's file `i` has been read or written up to `at_`. -/
def setOffset (files : Files) (i at_ : ℕ) : Files :=
  files.alter i fun e => match e.handle with
    | .fd _ => some e
    | .node node _ => some { e with handle := .node node at_ }

/-- One more fd holds `slot`. -/
def holdSlot (files : Files) : Slot → Files
  | .file i => files.alter i fun e => some { e with count := e.count + 1 }
  | _ => files

/-- One more fd holds each file of `fds`, and `fds` is a context. -/
def hold (files : Files) (fds : Fds) : Files :=
  let files := ((files.holdSlot (fds 0)).holdSlot (fds 1)).holdSlot (fds 2)
  { files with contexts := fds ::ₘ files.contexts }

/-- A context's fds have become `fds'`. -/
def turn (files : Files) (fds fds' : Fds) : Files :=
  { files with contexts := fds' ::ₘ files.contexts.erase fds }

/-- A context is one no more. -/
def forget (files : Files) (fds : Fds) : Files :=
  { files with contexts := files.contexts.erase fds }

/-- An fd that held `slot` holds it no more: the file to close, if that was the last one, with its
place. -/
def dropSlot (files : Files) : Slot → Files × Option (ℕ × Entry)
  | .file i =>
    match files.entry i with
    | none => (files, none)
    | some e =>
      if e.count - 1 = 0 then (files.alter i fun _ => none, some (i, e))
      else (files.alter i fun e => some { e with count := e.count - 1 }, none)
  | _ => (files, none)

/-- The first place that is free. -/
def freePlace (files : Files) : ℕ :=
  files.opened.findIdx Option.isNone

/-- A file just opened, held by one fd: its place. -/
def add (files : Files) (key : ℕ) (handle : Handle) : Files × ℕ :=
  let entry := some ⟨key, handle, 1⟩
  let i := files.freePlace
  if i < files.opened.length then ({ files with opened := files.opened.set i entry }, i)
  else ({ files with opened := files.opened ++ [entry] }, files.opened.length)

theorem entry_alter (f : Entry → Option Entry) :
    (files.alter i f).entry j = if i = j then (files.entry j).bind f else files.entry j := by
  simp only [entry, alter, List.getElem?_modify]
  by_cases h : i = j
  · subst h
    simp only [if_true]
    rcases files.opened[i]? with _ | _ | e <;> rfl
  · simp [if_neg h]

theorem entry_add (files : Files) (key : ℕ) (handle : Handle) :
    files.entry (files.add key handle).2 = none ∧
      ∀ j, (files.add key handle).1.entry j =
        if (files.add key handle).2 = j then some ⟨key, handle, 1⟩ else files.entry j := by
  rw [add]
  by_cases hlt : files.freePlace < files.opened.length
  · rw [if_pos hlt]
    have hnone : files.opened[files.freePlace].isNone = true :=
      List.findIdx_getElem (p := Option.isNone) (w := hlt)
    constructor
    · simp [entry, List.getElem?_eq_getElem hlt, Option.isNone_iff_eq_none.mp hnone]
    · intro j
      simp only [entry, List.getElem?_set, hlt, if_true]
      split <;> rfl
  · rw [if_neg hlt]
    constructor
    · simp [entry]
    · intro j
      simp only [entry, List.getElem?_append, List.getElem?_singleton]
      rcases lt_trichotomy j files.opened.length with hj | rfl | hj
      · rw [if_pos hj, if_neg (by omega)]
      · simp
      · rw [if_neg (by omega), if_neg (by omega), if_neg (by omega)]
        simp [List.getElem?_eq_none hj.le]

@[simp] theorem contexts_holdSlot (slot : Slot) :
    (files.holdSlot slot).contexts = files.contexts := by
  cases slot <;> rfl

@[simp] theorem contexts_add (key : ℕ) (handle : Handle) :
    (files.add key handle).1.contexts = files.contexts := by
  rw [add]
  split <;> rfl

/-! ### What the counts count -/

/-- How many fds hold the file at place `i`. -/
def count (files : Files) (i : ℕ) : ℕ :=
  ((files.entry i).map Entry.count).getD 0

/-- What the fds of the live contexts are. -/
def held (files : Files) : Multiset Slot :=
  files.contexts.bind Fds.slots

/-- **The counts are right**: each file's is the number of fds of live contexts, and of
pending ones, that hold it, and no file is held by none. -/
structure Counted (files : Files) (pending : Multiset Slot) : Prop where
  count_eq : ∀ i, files.count i = (files.held + pending).count (.file i)
  pos : ∀ i e, files.entry i = some e → 0 < e.count

variable {pending : Multiset Slot} {slot : Slot} {fds : Fds}

/-- A file that is held is open. -/
theorem Counted.exists_entry (h : files.Counted pending) (hi : Slot.file i ∈ files.held + pending) :
    ∃ e, files.entry i = some e := by
  have hpos := Multiset.count_pos.mpr hi
  rw [← h.count_eq i, count] at hpos
  cases he : files.entry i with
  | none =>
    rw [he] at hpos
    exact absurd hpos (lt_irrefl 0)
  | some e => exact ⟨e, rfl⟩

theorem Counted.count_entry (h : files.Counted pending) {e : Entry} (he : files.entry i = some e) :
    e.count = (files.held + pending).count (.file i) := by
  rw [← h.count_eq i, count, he]
  rfl

theorem Counted.mem_of_entry (h : files.Counted pending) {e : Entry}
    (he : files.entry i = some e) : Slot.file i ∈ files.held + pending := by
  rw [← Multiset.count_pos, ← h.count_entry he]
  exact h.pos i e he

theorem mem_held (hc : fds ∈ files.contexts) (k : Fin 3) : fds k ∈ files.held :=
  Multiset.mem_bind.mpr ⟨fds, hc, Fds.mem_slots k⟩

/-- **Which opening** is at place `i`, and of what file. -/
def id (files : Files) (i : ℕ) : Option (ℕ × (ℕ ⊕ ℕ)) :=
  (files.entry i).map fun e => (e.key, e.handle.place)

/-- A row of the table: the opening at a place, and how many fds hold it. -/
def row (files : Files) (i : ℕ) : Option (ℕ × (ℕ ⊕ ℕ) × ℕ) :=
  (files.entry i).map fun e => (e.key, e.handle.place, e.count)

/-- **Nothing lost, nothing left**: with the same contexts, and the same openings where they
hold files, the table has the same rows. -/
theorem row_eq {files' : Files} (h : files.Counted 0) (h' : files'.Counted 0)
    (hc : files'.contexts = files.contexts)
    (hid : ∀ i, Slot.file i ∈ files.held → files'.id i = files.id i) (i : ℕ) :
    files'.row i = files.row i := by
  have hheld : files'.held = files.held := by rw [held, hc, held]
  by_cases hi : Slot.file i ∈ files.held
  · obtain ⟨e, he⟩ := h.exists_entry (i := i) (by simpa using hi)
    obtain ⟨e', he'⟩ := h'.exists_entry (i := i) (by simpa [hheld] using hi)
    have hcount : e'.count = e.count := by rw [h'.count_entry he', h.count_entry he, hheld]
    have hsame := hid i hi
    simp only [id, he, he', Option.map_some, Option.some.injEq, Prod.mk.injEq] at hsame
    simp only [row, he, he', Option.map_some, hcount, hsame.1, hsame.2]
  · have hnone : files.entry i = none := by
      by_contra hcon
      obtain ⟨e, he⟩ := Option.ne_none_iff_exists'.mp hcon
      exact hi (by simpa using h.mem_of_entry he)
    have hnone' : files'.entry i = none := by
      by_contra hcon
      obtain ⟨e, he⟩ := Option.ne_none_iff_exists'.mp hcon
      exact hi (by simpa [hheld] using h'.mem_of_entry he)
    simp only [row, hnone, hnone']

/-! ### The operations keep the counts -/

theorem count_alter (f : Entry → Option Entry) :
    (files.alter i f).count j =
      if i = j then (((files.entry j).bind f).map Entry.count).getD 0 else files.count j := by
  rw [count, entry_alter]
  by_cases h : i = j
  · rw [if_pos h, if_pos h]
  · rw [if_neg h, if_neg h, count]

/-- Pending fds can become those of a context, and the other way round. -/
theorem Counted.congr {files' : Files} {pending' : Multiset Slot} (h : files.Counted pending)
    (he : files'.opened = files.opened)
    (hh : ∀ i, (files'.held + pending').count (.file i) = (files.held + pending).count (.file i)) :
    files'.Counted pending' := by
  have hentry : ∀ i, files'.entry i = files.entry i := fun i => by rw [entry, he, entry]
  constructor
  · intro i
    rw [hh, count, hentry, ← h.count_eq i, count]
  · intro i e hi
    exact h.pos i e (hentry i ▸ hi)

theorem Counted.pend (h : files.Counted pending) (hs : ∀ i, slot ≠ .file i) :
    files.Counted (slot ::ₘ pending) :=
  h.congr rfl fun i => by
    rw [Multiset.add_cons, Multiset.count_cons_of_ne fun heq => hs i heq.symm]

/-- One more fd holds a slot that is held. -/
theorem Counted.holdSlot (h : files.Counted pending) (slot : Slot)
    (hs : ∀ i, slot = .file i → slot ∈ files.held + pending) :
    (files.holdSlot slot).Counted (slot ::ₘ pending) := by
  cases slot with
  | file i =>
    obtain ⟨e, he⟩ := h.exists_entry (hs i rfl)
    constructor
    · intro j
      rw [Multiset.add_cons, Multiset.count_cons]
      show _ = (files.held + pending).count (.file j) + _
      rw [← h.count_eq j, Files.holdSlot, count_alter]
      by_cases hij : i = j
      · subst hij
        simp [count, he]
      · rw [if_neg hij, if_neg (by simpa using fun hji => hij hji.symm)]
        rfl
    · intro j e' he'
      rw [Files.holdSlot, entry_alter] at he'
      by_cases hij : i = j
      · subst hij
        rw [if_pos rfl, he] at he'
        cases he'
        exact Nat.succ_pos _
      · rw [if_neg hij] at he'
        exact h.pos j e' he'
  | shell fd => exact h.pend fun i => nofun
  | pipeIn => exact h.pend fun i => nofun
  | pipeOut => exact h.pend fun i => nofun

theorem id_holdSlot (slot : Slot) : (files.holdSlot slot).id = files.id := by
  cases slot with
  | file i =>
    ext1 j
    rw [id, Files.holdSlot, entry_alter, id]
    by_cases hij : i = j
    · rw [if_pos hij]
      cases files.entry j <;> rfl
    · rw [if_neg hij]
  | shell fd => rfl
  | pipeIn => rfl
  | pipeOut => rfl

theorem held_holdSlot (slot : Slot) : (files.holdSlot slot).held = files.held := by
  rw [held, contexts_holdSlot, held]

/-- **A context over slots that are held.** -/
theorem Counted.hold (h : files.Counted 0) (hb : ∀ k i, fds k = .file i → fds k ∈ files.held) :
    (files.hold fds).Counted 0 := by
  have h0 := h.holdSlot (fds 0) fun i hi => by simpa using hb 0 i hi
  have h1 := h0.holdSlot (fds 1) fun i hi => by
    rw [held_holdSlot]
    exact Multiset.mem_add.mpr (.inl (hb 1 i hi))
  have h2 := h1.holdSlot (fds 2) fun i hi => by
    rw [held_holdSlot, held_holdSlot]
    exact Multiset.mem_add.mpr (.inl (hb 2 i hi))
  refine h2.congr rfl fun i => ?_
  simp only [held, Files.hold, contexts_holdSlot, Multiset.cons_bind, Fds.slots,
    Multiset.count_add, Multiset.insert_eq_cons, Multiset.count_cons, Multiset.count_singleton,
    Multiset.count_zero]
  omega

theorem id_hold (fds : Fds) : (files.hold fds).id = files.id := by
  show (((files.holdSlot (fds 0)).holdSlot (fds 1)).holdSlot (fds 2)).id = _
  rw [id_holdSlot, id_holdSlot, id_holdSlot]

@[simp] theorem contexts_hold (fds : Fds) : (files.hold fds).contexts = fds ::ₘ files.contexts := by
  simp [Files.hold]

/-- An fd of a context replaced: the new slot was pending, the old one is now. -/
theorem Counted.turn {k : Fin 3} (h : files.Counted {slot}) (hc : fds ∈ files.contexts) :
    (files.turn fds (fds.set k slot)).Counted {fds k} := by
  refine h.congr rfl fun i => ?_
  have hslots := congrArg (Multiset.count (.file i)) (fds.slots_set k slot)
  have hheld : files.held = fds.slots + (files.contexts.erase fds).bind Fds.slots := by
    rw [← Multiset.cons_bind, Multiset.cons_erase hc, held]
  rw [hheld]
  simp only [held, Files.turn, Multiset.cons_bind, Multiset.count_add] at hslots ⊢
  omega

/-- A context that ends leaves its fds to be dropped. -/
theorem Counted.forget (h : files.Counted 0) (hc : fds ∈ files.contexts) :
    (files.forget fds).Counted (fds 0 ::ₘ fds 1 ::ₘ {fds 2}) := by
  refine h.congr rfl fun i => ?_
  have hheld : files.held = fds.slots + (files.contexts.erase fds).bind Fds.slots := by
    rw [← Multiset.cons_bind, Multiset.cons_erase hc, held]
  rw [hheld, add_zero, add_comm fds.slots]
  rfl

/-- A file just opened, with the fd that is going to hold it. -/
theorem Counted.add (h : files.Counted 0) (key : ℕ) (handle : Handle) :
    (files.add key handle).1.Counted {.file (files.add key handle).2} := by
  obtain ⟨hfree, hentry⟩ := entry_add files key handle
  have hheld : (files.add key handle).1.held = files.held := by rw [held, contexts_add, held]
  constructor
  · intro j
    have hj := h.count_eq j
    rw [count, hentry, hheld, Multiset.count_add, Multiset.count_singleton]
    rw [add_zero, count] at hj
    by_cases hij : (files.add key handle).2 = j
    · rw [if_pos hij, if_pos (by rw [hij]), ← hj, ← hij, hfree]
      rfl
    · rw [if_neg hij, if_neg (by simpa using fun hji => hij hji.symm), hj]
      rfl
  · intro j e he
    rw [hentry] at he
    by_cases hij : (files.add key handle).2 = j
    · rw [if_pos hij] at he
      cases he
      exact Nat.one_pos
    · rw [if_neg hij] at he
      exact h.pos j e he

/-- What dropping a slot does: nothing to the openings, or it takes out of the table a file
that no fd holds any more. -/
inductive Drops (files : Files) (pending : Multiset Slot) : Files × Option (ℕ × Entry) → Prop
  | keep {files' : Files} (hid : files'.id = files.id) (hc : files'.contexts = files.contexts) :
    Drops files pending (files', none)
  | last {files' : Files} {i : ℕ} {e : Entry} (he : files.entry i = some e)
    (hi : Slot.file i ∉ files.held + pending)
    (hentry : ∀ j, files'.entry j = if i = j then none else files.entry j)
    (hc : files'.contexts = files.contexts) : Drops files pending (files', some (i, e))

theorem dropSlot_drops (h : files.Counted (slot ::ₘ pending)) :
    Drops files pending (files.dropSlot slot) ∧ (files.dropSlot slot).1.Counted pending := by
  have hother : (∀ i, slot ≠ .file i) → files.Counted pending := fun hs => h.congr rfl fun i => by
    rw [Multiset.add_cons, Multiset.count_cons_of_ne fun heq => hs i heq.symm]
  cases slot with
  | file i =>
    obtain ⟨e, he⟩ := h.exists_entry (i := i) (by simp)
    have hcount := h.count_entry he
    rw [Multiset.add_cons, Multiset.count_cons_self] at hcount
    rw [Files.dropSlot, he]
    dsimp only
    have hj : ∀ j, i ≠ j → files.count j = (files.held + pending).count (.file j) := fun j hij => by
      rw [h.count_eq j, Multiset.add_cons,
        Multiset.count_cons_of_ne fun hji => hij (Slot.file.inj hji).symm]
    by_cases hlast : e.count - 1 = 0
    · rw [if_pos hlast]
      have hentry : ∀ j, (files.alter i fun _ => none).entry j =
          if i = j then none else files.entry j := fun j => by
        rw [entry_alter]
        by_cases hij : i = j
        · subst hij
          rw [if_pos rfl, if_pos rfl, he]
          rfl
        · rw [if_neg hij, if_neg hij]
      constructor
      · exact .last he (Multiset.count_eq_zero.mp (by omega)) hentry rfl
      · constructor
        · intro j
          show _ = (files.held + pending).count (.file j)
          rw [count, hentry]
          by_cases hij : i = j
          · subst hij
            rw [if_pos rfl]
            show 0 = _
            omega
          · rw [if_neg hij, ← hj j hij, count]
        · intro j e' he'
          rw [hentry] at he'
          by_cases hij : i = j
          · rw [if_pos hij] at he'
            cases he'
          · rw [if_neg hij] at he'
            exact h.pos j e' he'
    · rw [if_neg hlast]
      constructor
      · refine .keep ?_ rfl
        ext1 j
        rw [id, entry_alter, id]
        by_cases hij : i = j
        · rw [if_pos hij]
          cases files.entry j <;> rfl
        · rw [if_neg hij]
      · constructor
        · intro j
          show _ = (files.held + pending).count (.file j)
          rw [count_alter]
          by_cases hij : i = j
          · subst hij
            rw [if_pos rfl, he]
            show e.count - 1 = _
            omega
          · rw [if_neg hij, hj j hij]
        · intro j e' he'
          rw [entry_alter] at he'
          by_cases hij : i = j
          · subst hij
            rw [if_pos rfl, he] at he'
            cases he'
            exact Nat.pos_of_ne_zero hlast
          · rw [if_neg hij] at he'
            exact h.pos j e' he'
  | shell fd => exact ⟨.keep rfl rfl, hother fun i => nofun⟩
  | pipeIn => exact ⟨.keep rfl rfl, hother fun i => nofun⟩
  | pipeOut => exact ⟨.keep rfl rfl, hother fun i => nofun⟩

theorem row_setOffset (files : Files) (i n : ℕ) : (files.setOffset i n).row = files.row := by
  ext1 j
  rw [row, setOffset, entry_alter, row]
  by_cases hij : i = j
  · rw [if_pos hij]
    rcases files.entry j with _ | ⟨key, handle, count⟩
    · rfl
    · cases handle <;> rfl
  · rw [if_neg hij]

theorem id_setOffset (n : ℕ) : (files.setOffset i n).id = files.id := by
  ext1 j
  have hrow := congrFun (row_setOffset files i n) j
  have hmap := congrArg (Option.map fun r => (r.1, r.2.1)) hrow
  rw [row, row, Option.map_map, Option.map_map] at hmap
  exact hmap

theorem Counted.setOffset (h : files.Counted pending) (n : ℕ) :
    (files.setOffset i n).Counted pending := by
  have hcount : ∀ j, ((files.setOffset i n).entry j).map Entry.count =
      (files.entry j).map Entry.count := fun j => by
    have hrow := congrFun (row_setOffset files i n) j
    have hmap := congrArg (Option.map fun r => r.2.2) hrow
    rw [row, row, Option.map_map, Option.map_map] at hmap
    exact hmap
  constructor
  · intro j
    rw [count, hcount, ← count, h.count_eq j]
    rfl
  · intro j e he
    have hj := hcount j
    rw [he] at hj
    obtain ⟨e', he', hee⟩ := Option.map_eq_some_iff.mp hj.symm
    exact hee ▸ h.pos j e' he'

end Files

end RelayOs.Sh
