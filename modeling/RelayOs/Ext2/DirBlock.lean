import RelayOs.Lib.Records
import RelayOs.Ext2.Directory

/-!
# Directory blocks stay directory blocks

A block is a directory block if its records tile it and its names are in order
(`RelayOs.Ext2.Dirent.Accepts`). Removing an entry and pointing one at another inode keep it one,
and inserting a name does, but for one case: a name put into the spare room of a block's very first
record pushes the entry after it one place up, and `..` has to be second. A first block that leaves
room there – `.` with a record longer than it needs, then `..` – is accepted as it is read, and
refused after the next file is made in the directory (`RelayOs.Ext2.Dirent.dots_pushed`).
-/

namespace RelayOs.Ext2

open Vfs

namespace Dirent

variable {block block' : Bytes} {filetype first : Bool} {maxInode a b off : ℕ} {e spot prev : Entry}
  {entries l l₁ l₂ : List Entry}

/-! ### One record -/

/-- The entry the header at `off` stands for. -/
def headerAt (block : Bytes) (filetype : Bool) (off : ℕ) : Entry :=
  ⟨off, u32At block off, u16At block (off + 4),
    if filetype then (block.getD (off + 6) 0).toNat else u16At block (off + 6)⟩

/-- **An entry that a block of `len` bytes may have.** -/
structure Entry.Ok (len maxInode : ℕ) (e : Entry) : Prop where
  recLen_mod : e.recLen % 4 = 0
  header_le : header ≤ e.recLen
  stop_le : e.offset + e.recLen ≤ len
  nameLen_le : e.nameLen ≤ 255
  name_le : recLenFor e.nameLen ≤ e.recLen
  inode_le : e.inode ≤ maxInode

theorem parseEntry_eq_ok :
    parseEntry block filetype maxInode off = .ok e ↔
      e = headerAt block filetype off ∧ e.Ok block.length maxInode := by
  have hheader : header = 8 := rfl
  rw [parseEntry, headerAt]
  generalize (if filetype then (block.getD (off + 6) 0).toNat else u16At block (off + 6)) = nameLen
  constructor
  · intro h
    split at h
    · cases h
    split at h
    · cases h
    split at h
    · cases h
    split at h
    · cases h
    split at h
    · cases h
    next h1 h2 h3 h4 h5 =>
    cases h
    rw [not_or] at h2 h4
    exact ⟨rfl, by simpa using h2.1, not_lt.mp h2.2, by dsimp only; omega, not_lt.mp h4.1,
      not_lt.mp h4.2,
      not_lt.mp h5⟩
  · rintro ⟨rfl, hok⟩
    obtain ⟨h1, h2, h3, h4, h5, h6⟩ := hok
    dsimp only at h1 h2 h3 h4 h5 h6
    rw [if_neg (by omega), if_neg (by omega), if_neg (by omega), if_neg (by omega),
      if_neg (by omega)]

theorem recLenFor_ge (n : ℕ) : header + n ≤ recLenFor n := by
  unfold recLenFor
  omega

theorem recLenFor_mod (n : ℕ) : recLenFor n % 4 = 0 := Nat.mul_mod_left _ _

/-- The name of an entry lies in its record. -/
theorem Entry.Ok.name_stop_le {len : ℕ} (h : e.Ok len maxInode) :
    e.offset + header + e.nameLen ≤ e.offset + e.recLen := by
  have := recLenFor_ge e.nameLen
  have := h.name_le
  omega

theorem Entry.Ok.recLen_lt {len : ℕ} (h : e.Ok len maxInode) (hlen : len < 2 ^ 16) :
    e.recLen < 2 ^ 16 := by
  have := h.stop_le
  omega

theorem headerAt_congr (h : SameOn block block' off (off + header)) :
    headerAt block' filetype off = headerAt block filetype off := by
  have hheader : header = 8 := rfl
  rw [headerAt, headerAt, h.u32At le_rfl (by omega), h.u16At (by omega) (by omega),
    h.u16At (i := off + 6) (by omega) (by omega), h.byte (i := off + 6) (by omega) (by omega)]

/-! ### A row of records -/

/-- **The entries of a part of the block**, from `a` to `b`. -/
abbrev Row (block : Bytes) (filetype : Bool) (maxInode : ℕ) : ℕ → ℕ → List Entry → Prop :=
  Tiled Entry.recLen fun off e => parseEntry block filetype maxInode off = .ok e

section

variable (h : Row block filetype maxInode a b l)

include h

theorem Row.ok (he : e ∈ l) :
    e.Ok block.length maxInode ∧ a ≤ e.offset ∧ e.offset + e.recLen ≤ b := by
  obtain ⟨x, hx, hx', hparse⟩ := h.exists_of_mem he
  obtain ⟨rfl, hok⟩ := parseEntry_eq_ok.mp hparse
  exact ⟨hok, hx, hx'⟩

/-- What was not written to is as it was. -/
theorem Row.congr (hlen : block'.length = block.length)
    (hsame : SameOn block block' a b) : Row block' filetype maxInode a b l := by
  refine h.mono fun x e _ hx hx' hparse => ?_
  obtain ⟨he, hok⟩ := parseEntry_eq_ok.mp hparse
  have hheader := hok.header_le
  rw [parseEntry_eq_ok, hlen, headerAt_congr (hsame.mono hx (by omega))]
  exact ⟨he, hok⟩

theorem Row.name_eq (hlen : block'.length = block.length)
    (hsame : SameOn block block' a b) (he : e ∈ l) : e.name block' = e.name block := by
  obtain ⟨hok, ha, hb⟩ := h.ok he
  have hstop := hok.name_stop_le
  exact hsame.slice hlen (by omega) (by omega)

end

theorem Row.eq_nil (h : Row block filetype maxInode block.length b l) : l = [] := by
  cases l with
  | nil => rfl
  | cons e l =>
    obtain ⟨hok, hle, -⟩ := h.ok List.mem_cons_self
    have hstop := hok.stop_le
    have hheader := hok.header_le
    unfold header at hheader
    omega

theorem row_iff (hoff : off < block.length) :
    Row block filetype maxInode off block.length l ↔
      ∃ e l', l = e :: l' ∧ parseEntry block filetype maxInode off = .ok e ∧
        Row block filetype maxInode (off + e.recLen) block.length l' := by
  constructor
  · intro h
    cases l with
    | nil => exact absurd h hoff.ne
    | cons e l' => exact ⟨e, l', rfl, h⟩
  · rintro ⟨e, l', rfl, h⟩
    exact h

variable {turns i : ℕ}

theorem parseLoop_succ (hoff : off < block.length) :
    parseLoop block filetype maxInode (turns + 1) off = .ok l ↔
      ∃ e l', l = e :: l' ∧ parseEntry block filetype maxInode off = .ok e ∧
        parseLoop block filetype maxInode turns (off + e.recLen) = .ok l' := by
  rw [parseLoop, if_neg (not_le.mpr hoff)]
  constructor
  · intro h
    split at h
    · cases h
    · next e he =>
      split at h
      · cases h
      · next l' hl' =>
        cases h
        exact ⟨e, l', rfl, he, hl'⟩
  · rintro ⟨e, l', rfl, he, hl'⟩
    simp only [he, hl']

theorem parseLoop_end :
    parseLoop block filetype maxInode turns block.length = .ok l ↔
      Row block filetype maxInode block.length block.length l := by
  have hloop : parseLoop block filetype maxInode turns block.length = .ok [] := by
    cases turns with
    | zero => rfl
    | succ turns => rw [parseLoop, if_pos le_rfl]
  rw [hloop]
  constructor
  · rintro ⟨⟩
    exact rfl
  · intro h
    rw [h.eq_nil]

/-- **Parsing succeeds exactly if the entries tile the block.** -/
theorem parseLoop_eq_ok (hoff : off ≤ block.length) (hturns : block.length ≤ off + turns) :
    parseLoop block filetype maxInode turns off = .ok l ↔
      Row block filetype maxInode off block.length l := by
  induction turns generalizing off l with
  | zero =>
    obtain rfl : off = block.length := by omega
    exact parseLoop_end
  | succ turns ih =>
    rcases hoff.eq_or_lt with rfl | hlt
    · exact parseLoop_end
    rw [parseLoop_succ hlt, row_iff hlt]
    refine exists_congr fun e => exists_congr fun l' => and_congr_right fun _ =>
      and_congr_right fun he => ?_
    obtain ⟨rfl, hok⟩ := parseEntry_eq_ok.mp he
    have hheader := hok.header_le
    unfold header at hheader
    exact ih hok.stop_le (by omega)

theorem parse_eq_ok :
    parse block filetype maxInode = .ok l ↔ Row block filetype maxInode 0 block.length l :=
  parseLoop_eq_ok (Nat.zero_le _) (by omega)

/-! ### Names in order -/

/-- The names of the entries are in order, the first of them at place `i`. -/
def Named (block : Bytes) (first : Bool) : ℕ → List Entry → Prop
  | _, [] => True
  | i, e :: l => checkName block first i e = none ∧ Named block first (i + 1) l

/-- No entry in use is called `.` or `..`. -/
def NoDots (block : Bytes) (l : List Entry) : Prop :=
  ∀ e ∈ l, e.inode ≠ 0 → place (e.name block) = none

theorem checkNamesLoop_eq_ok : checkNamesLoop block first i l = .ok () ↔ Named block first i l := by
  induction l generalizing i with
  | nil => exact iff_of_true rfl trivial
  | cons e l ih =>
    rw [checkNamesLoop, Named]
    cases hname : checkName block first i e with
    | some what => exact iff_of_false nofun nofun
    | none =>
      dsimp only
      rw [ih]
      exact ⟨fun h => ⟨rfl, h⟩, And.right⟩

theorem named_append :
    Named block first i (l₁ ++ l₂) ↔ Named block first i l₁ ∧
      Named block first (i + l₁.length) l₂ := by
  induction l₁ generalizing i with
  | nil => exact ⟨fun h => ⟨trivial, h⟩, And.right⟩
  | cons e l₁ ih =>
    rw [List.cons_append, Named, Named, ih, and_assoc, List.length_cons, Nat.add_assoc,
      Nat.add_comm 1]

theorem checkName_congr {e' : Entry} (hinode : e'.inode = 0 ↔ e.inode = 0)
    (hname : e'.name block' = e.name block) :
    checkName block' first i e' = checkName block first i e := by
  simp only [checkName, hname, hinode]

theorem named_congr (hname : ∀ e ∈ l, e.name block' = e.name block) :
    Named block' first i l ↔ Named block first i l := by
  induction l generalizing i with
  | nil => exact Iff.rfl
  | cons e l ih =>
    obtain ⟨he, hl⟩ := List.forall_mem_cons.mp hname
    rw [Named, Named, checkName_congr Iff.rfl he, ih hl]

theorem checkName_move {j : ℕ} (h : checkName block first i e = none)
    (hdots : e.inode ≠ 0 → place (e.name block) = none) : checkName block first j e = none := by
  by_cases hinode : e.inode = 0
  · simp only [checkName, if_pos hinode]
  · simpa only [checkName, hdots hinode] using h

theorem Named.move {j : ℕ} (h : Named block first i l) (hdots : NoDots block l) :
    Named block first j l := by
  induction l generalizing i j with
  | nil => trivial
  | cons e l ih =>
    obtain ⟨he, hl⟩ := List.forall_mem_cons.mp hdots
    exact ⟨checkName_move h.1 he, ih h.2 hl⟩

theorem place_lt {name : Bytes} {p : ℕ} (h : place name = some p) : p < 2 := by
  unfold place at h
  split at h
  · cases h
    decide
  · split at h
    · cases h
      decide
    · cases h

theorem place_eq_of_checkName {p : ℕ} (h : checkName block first i e = none) (hinode : e.inode ≠ 0)
    (hp : place (e.name block) = some p) : first = true ∧ p = i := by
  simp only [checkName, if_neg hinode, hp] at h
  split at h
  · cases h
  split at h
  · cases h
  split at h
  · cases h
  · next hcond => simpa using hcond

/-- From the third place on, no name is `.` or `..`. -/
theorem Named.noDots (h : Named block first i l) (hi : 2 ≤ i) : NoDots block l := by
  induction l generalizing i with
  | nil => exact nofun
  | cons e l ih =>
    refine List.forall_mem_cons.mpr ⟨fun hinode => ?_, ih h.2 (by omega)⟩
    cases hp : place (e.name block) with
    | none => rfl
    | some p =>
      have hplace := (place_eq_of_checkName h.1 hinode hp).2
      have := place_lt hp
      omega

/-! ### Directory blocks -/

/-- **The block is a directory block** with these entries: they tile it, and their names are in
order. -/
def Accepts (block : Bytes) (filetype : Bool) (maxInode : ℕ) (first : Bool)
    (entries : List Entry) : Prop :=
  parse block filetype maxInode = .ok entries ∧ checkNames block entries first = .ok ()

instance : Decidable (Accepts block filetype maxInode first entries) :=
  inferInstanceAs (Decidable (_ ∧ _))

theorem accepts_iff : Accepts block filetype maxInode first entries ↔
    Row block filetype maxInode 0 block.length entries ∧ Named block first 0 entries :=
  and_congr parse_eq_ok checkNamesLoop_eq_ok

theorem listed_append : listed block (l₁ ++ l₂) = listed block l₁ ++ listed block l₂ := by
  rw [listed, List.filter_append, List.map_append]
  rfl

theorem listed_congr (hname : ∀ e ∈ l, e.name block' = e.name block) :
    listed block' l = listed block l := by
  refine List.map_congr_left fun e he => ?_
  rw [hname e (List.mem_of_mem_filter he)]

theorem listed_used (hinode : e.inode ≠ 0) : listed block [e] = [⟨e.name block, e.inode⟩] := by
  rw [listed, List.filter_cons_of_pos (by simpa using hinode)]
  rfl

theorem listed_unused (hinode : e.inode = 0) : listed block [e] = [] := by
  rw [listed, List.filter_cons_of_neg (by simpa using hinode)]
  rfl

/-- **Some records in the middle are replaced by others**, and nothing is written elsewhere:
the block is read as the records before, the new ones and those after, and its names are in
order if those in the middle and those after are. -/
theorem Accepts.replace_parse {x y : ℕ} {mid mid' : List Entry}
    (h : Accepts block filetype maxInode first (l₁ ++ (mid ++ l₂)))
    (hlen : block'.length = block.length)
    (h1 : Row block filetype maxInode 0 x l₁) (h2 : Row block filetype maxInode y block.length l₂)
    (hbefore : SameOn block block' 0 x) (hafter : SameOn block block' y block.length)
    (hmid : Row block' filetype maxInode x y mid') (hnamed : Named block' first l₁.length mid') :
    parse block' filetype maxInode = .ok (l₁ ++ (mid' ++ l₂)) ∧
      (Accepts block' filetype maxInode first (l₁ ++ (mid' ++ l₂)) ↔
        Named block first (l₁.length + mid'.length) l₂) ∧
      listed block' (l₁ ++ (mid' ++ l₂)) =
        listed block l₁ ++ (listed block' mid' ++ listed block l₂) := by
  have hname1 : ∀ e ∈ l₁, e.name block' = e.name block := fun e => h1.name_eq hlen hbefore
  have hname2 : ∀ e ∈ l₂, e.name block' = e.name block := fun e => h2.name_eq hlen hafter
  have hnames := (named_append.mp (accepts_iff.mp h).2).1
  have hrow : Row block' filetype maxInode 0 block'.length (l₁ ++ (mid' ++ l₂)) := by
    rw [hlen]
    exact tiled_append.mpr
      ⟨x, h1.congr hlen hbefore, tiled_append.mpr ⟨y, hmid, h2.congr hlen hafter⟩⟩
  refine ⟨parse_eq_ok.mpr hrow, ?_, ?_⟩
  · rw [accepts_iff, named_append, named_append, Nat.zero_add, named_congr hname1,
      named_congr hname2]
    exact ⟨fun hacc => hacc.2.2.2, fun hrest => ⟨hrow, hnames, hnamed, hrest⟩⟩
  · rw [listed_append, listed_append, listed_congr hname1, listed_congr hname2]

/-- **Some records in the middle are replaced by others**, and nothing is written elsewhere. -/
theorem Accepts.replace {x y : ℕ} {mid mid' : List Entry}
    (h : Accepts block filetype maxInode first (l₁ ++ (mid ++ l₂)))
    (hlen : block'.length = block.length)
    (h1 : Row block filetype maxInode 0 x l₁) (h2 : Row block filetype maxInode y block.length l₂)
    (hbefore : SameOn block block' 0 x) (hafter : SameOn block block' y block.length)
    (hmid : Row block' filetype maxInode x y mid') (hnamed : Named block' first l₁.length mid')
    (hrest : Named block first (l₁.length + mid'.length) l₂) :
    Accepts block' filetype maxInode first (l₁ ++ (mid' ++ l₂)) ∧
      listed block' (l₁ ++ (mid' ++ l₂)) =
        listed block l₁ ++ (listed block' mid' ++ listed block l₂) := by
  obtain ⟨-, hacc, hlisted⟩ := h.replace_parse hlen h1 h2 hbefore hafter hmid hnamed
  exact ⟨hacc.mpr hrest, hlisted⟩

/-! ### What the changes write -/

section Edits

variable {recLen inode : ℕ} {name : Bytes} {fileType : Option UInt8}

theorem headerAt_setRecLen (hoff : off + header ≤ block.length) (hrec : recLen < 2 ^ 16) :
    headerAt ((setRecLen off recLen).apply block) filetype off =
      { headerAt block filetype off with recLen := recLen } := by
  have hheader : header = 8 := rfl
  have hlen : (u16Bytes (recLen % 2 ^ 16)).length = 2 := length_u16Bytes _
  have hset : u16At ((setRecLen off recLen).apply block) (off + 4) = recLen := by
    rw [setRecLen]
    refine (u16At_setU16 _ (by omega)).trans ?_
    omega
  have hbefore : SameOn block ((setRecLen off recLen).apply block) off (off + 4) :=
    .splice _ (Or.inl le_rfl)
  have hafter : SameOn block ((setRecLen off recLen).apply block) (off + 6) (off + 8) :=
    .splice _ (Or.inr (by omega))
  rw [headerAt, hset, hbefore.u32At le_rfl le_rfl, hafter.u16At le_rfl le_rfl,
    hafter.byte le_rfl (by omega)]
  rfl

theorem sameOn_setRecLen (h : b ≤ off + 4 ∨ off + 6 ≤ a) :
    SameOn block ((setRecLen off recLen).apply block) a b :=
  .splice _ (by rw [length_u16Bytes]; omega)

theorem headerAt_setInode (hoff : off + header ≤ block.length) (hinode : inode < 2 ^ 32) :
    headerAt ((Edit.u32 off inode).apply block) filetype off =
      { headerAt block filetype off with inode := inode } := by
  have hheader : header = 8 := rfl
  have hset : u32At ((Edit.u32 off inode).apply block) off = inode := by
    refine (u32At_setU32 _ (by omega)).trans ?_
    omega
  have hafter : SameOn block ((Edit.u32 off inode).apply block) (off + 4) (off + 8) :=
    .splice _ (by rw [length_u32Bytes]; omega)
  rw [headerAt, hset, hafter.u16At le_rfl (by omega), hafter.u16At (i := off + 6) (by omega) le_rfl,
    hafter.byte (i := off + 6) (by omega) (by omega)]
  rfl

theorem sameOn_setInode (h : b ≤ off ∨ off + 4 ≤ a) :
    SameOn block ((Edit.u32 off inode).apply block) a b :=
  .splice _ (by rw [length_u32Bytes]; omega)

theorem length_lenBytes (n : ℕ) (t : Option UInt8) : (lenBytes n t).length = 2 := by
  cases t with
  | none => exact length_u16Bytes _
  | some t => rfl

theorem sameOn_put (h : b ≤ off ∨ off + header + name.length ≤ a) :
    SameOn block ((put off recLen name inode fileType).apply block) a b := by
  have hheader : header = 8 := rfl
  have hl := length_lenBytes name.length fileType
  refine SameOn.trans (SameOn.trans (SameOn.trans (sameOn_setInode ?_) (sameOn_setRecLen ?_))
    (.splice _ ?_))
    (.splice _ ?_)
  all_goals omega

theorem length_apply_put :
    ((put off recLen name inode fileType).apply block).length = block.length :=
  (put off recLen name inode fileType).length_apply block

theorem headerAt_put (hfits : PutFits off name block.length) (hname : name.length ≤ 255)
    (hrec : recLen < 2 ^ 16)
    (hinode : inode < 2 ^ 32) (htype : fileType.isSome = filetype) :
    headerAt ((put off recLen name inode fileType).apply block) filetype off =
      ⟨off, inode, recLen, name.length⟩ ∧
      slice ((put off recLen name inode fileType).apply block)
        (off + header) name.length = name := by
  have hheader : header = 8 := rfl
  unfold PutFits at hfits
  have hl := length_lenBytes name.length fileType
  -- the four writes, one after another
  generalize hb1 : (Edit.u32 off inode).apply block = b1
  generalize hb2 : (setRecLen off recLen).apply b1 = b2
  generalize hb3 : RelayOs.splice b2 (off + 6) (lenBytes name.length fileType) = b3
  have hput : (put off recLen name inode fileType).apply block =
      RelayOs.splice b3 (off + header) name := by
    rw [← hb3, ← hb2, ← hb1]
    rfl
  have hlen1 : b1.length = block.length := by
    rw [← hb1]
    exact (Edit.u32 off inode).length_apply block
  have hlen2 : b2.length = block.length := by
    rw [← hb2, ← hlen1]
    exact (setRecLen off recLen).length_apply b1
  have hlen3 : b3.length = block.length := by rw [← hb3, length_splice, hlen2]
  rw [hput]
  refine ⟨?_, slice_splice_same (by omega)⟩
  have h1 : headerAt b1 filetype off = { headerAt block filetype off with inode := inode } :=
    hb1 ▸ headerAt_setInode (by omega) hinode
  have h2 : headerAt b2 filetype off = { headerAt b1 filetype off with recLen := recLen } :=
    hb2 ▸ headerAt_setRecLen (by omega) hrec
  rw [h1] at h2
  have hsame : SameOn b2 b3 off (off + 6) := hb3 ▸ SameOn.splice _ (Or.inl le_rfl)
  have hlast : headerAt (RelayOs.splice b3 (off + header) name) filetype off =
      headerAt b3 filetype off :=
    headerAt_congr (.splice _ (Or.inl le_rfl))
  rw [hlast, headerAt, hsame.u32At le_rfl (by omega), hsame.u16At (by omega) le_rfl]
  have hfields := Entry.mk.inj h2
  rw [hfields.2.1, hfields.2.2.1]
  congr 1
  -- the name's length, as the feature has it
  cases fileType with
  | some t =>
    obtain rfl : filetype = true := htype.symm
    have hbyte : b3.getD (off + 6) 0 = UInt8.ofNat name.length := by
      rw [← hb3, getD_splice, if_pos ⟨by omega, le_rfl, by omega⟩, Nat.sub_self]
      rfl
    rw [if_pos rfl, hbyte, toNat_ofNat_byte]
    omega
  | none =>
    obtain rfl : filetype = false := htype.symm
    have hword : u16At b3 (off + 6) = name.length % 2 ^ 16 % 65536 := by
      rw [← hb3]
      exact u16At_setU16 _ (by omega)
    rw [if_neg (by decide), hword]
    omega

/-- **What `put` writes is an entry.** -/
theorem parseEntry_put (hok : Entry.Ok block.length maxInode ⟨off, inode, recLen, name.length⟩)
    (hlen : block.length < 2 ^ 16) (hmax : maxInode < 2 ^ 32) (htype : fileType.isSome = filetype) :
    parseEntry ((put off recLen name inode fileType).apply block) filetype maxInode off =
        .ok ⟨off, inode, recLen, name.length⟩ ∧
      (⟨off, inode, recLen, name.length⟩ : Entry).name
        ((put off recLen name inode fileType).apply block) = name := by
  have hstop := hok.stop_le
  have hname := hok.name_stop_le
  have hinode := hok.inode_le
  dsimp only at hstop hname hinode
  obtain ⟨hheader, hslice⟩ := headerAt_put (show PutFits off name block.length by
    unfold PutFits
    omega) hok.nameLen_le (hok.recLen_lt hlen) (show inode < 2 ^ 32 by omega) htype
  refine ⟨parseEntry_eq_ok.mpr ⟨hheader.symm, ?_⟩, hslice⟩
  rw [length_apply_put]
  exact hok

end Edits

/-! ### The three changes -/

section Changes

variable {name : Bytes} {inode : ℕ} {fileType : Option UInt8}

/-- The block around one of its entries. -/
theorem Accepts.cut (h : Accepts block filetype maxInode first (l₁ ++ ([e] ++ l₂))) :
    Row block filetype maxInode 0 e.offset l₁ ∧ e = headerAt block filetype e.offset ∧
      e.Ok block.length maxInode ∧
        Row block filetype maxInode (e.offset + e.recLen) block.length l₂ := by
  obtain ⟨x, h1, hrest⟩ := tiled_append.mp (accepts_iff.mp h).1
  obtain ⟨hparse, h2⟩ := hrest
  obtain ⟨he, hok⟩ := parseEntry_eq_ok.mp hparse
  have hx : e.offset = x := by rw [he, headerAt]
  rw [hx]
  exact ⟨h1, he, hok, h2⟩

/-- The entries after one in the block are in order at their places. -/
theorem Accepts.named_after (h : Accepts block filetype maxInode first (l₁ ++ ([e] ++ l₂))) :
    checkName block first l₁.length e = none ∧ Named block first (l₁.length + 1) l₂ := by
  have hnamed := (named_append.mp (accepts_iff.mp h).2).2
  rw [Nat.zero_add] at hnamed
  exact hnamed

theorem checkName_of_nameOk {i : ℕ} (hname : Vfs.checkName name = .ok ())
    (he : e.name block = name) :
    checkName block first i e = none := by
  have hok := checkName_ok_iff.mp hname
  have hplace : place name = none := by
    rw [place, if_neg (show name ≠ dot from hok.ne_dot),
      if_neg (show name ≠ dotDot from hok.ne_dotdot)]
  have hslash : name.contains 0x2f = false := by
    rw [List.contains_eq_mem, decide_eq_false_iff_not]
    exact hok.no_slash
  have hnul : name.contains 0 = false := by
    rw [List.contains_eq_mem, decide_eq_false_iff_not]
    exact hok.no_nul
  simp only [checkName, he, if_neg hok.ne_nil, hslash, hnul, hplace, Bool.or_self,
    Bool.false_eq_true, if_false,
    ite_self]

/-- **The name would push `..` up**: it goes into the spare room of the very first record, and
`..` comes next. -/
def PushesDots (block : Bytes) (entries : List Entry) (spot : Entry) : Prop :=
  spot.inode ≠ 0 ∧ entries.head? = some spot ∧ ∃ e ∈ entries[1]?, e.inode ≠ 0 ∧
    e.name block = dotDot

section

variable (h : Accepts block filetype maxInode first (l₁ ++ ([spot] ++ l₂)))

include h

theorem noDots_after (hspot : spot.inode ≠ 0)
    (hpush : ¬PushesDots block (l₁ ++ ([spot] ++ l₂)) spot) : NoDots block l₂ := by
  have hafter := h.named_after.2
  cases l₁ with
  | cons e l₁ => exact hafter.noDots (by rw [List.length_cons]; omega)
  | nil =>
    cases l₂ with
    | nil => exact nofun
    | cons e l₂ =>
      refine List.forall_mem_cons.mpr ⟨fun hinode => ?_, hafter.2.noDots le_rfl⟩
      cases hp : place (e.name block) with
      | none => rfl
      | some p =>
        obtain ⟨-, rfl⟩ := place_eq_of_checkName hafter.1 hinode hp
        refine absurd ⟨hspot, rfl, e, rfl, hinode, ?_⟩ hpush
        unfold place at hp
        split at hp
        · cases hp
        · split at hp
          · assumption
          · cases hp

/-- The very first record stands nowhere else in the block. -/
theorem nil_of_head (hhead : (l₁ ++ ([spot] ++ l₂)).head? = some spot) : l₁ = [] := by
  cases l₁ with
  | nil => rfl
  | cons e l₁ =>
    obtain rfl : e = spot := by simpa using hhead
    obtain ⟨hok, -, hstop⟩ := h.cut.1.ok List.mem_cons_self
    have hheader := hok.header_le
    unfold header at hheader
    omega

theorem noDots_iff (hspot : spot.inode ≠ 0) :
    NoDots block l₂ ↔ ¬PushesDots block (l₁ ++ ([spot] ++ l₂)) spot := by
  refine ⟨?_, noDots_after h hspot⟩
  rintro hdots ⟨-, hhead, e, he, hinode, hname⟩
  obtain rfl := nil_of_head h hhead
  have hmem : e ∈ l₂ := by
    rw [List.nil_append, List.singleton_append, List.getElem?_cons_succ] at he
    exact List.mem_of_getElem? he
  have hplace := hdots e hmem hinode
  rw [hname] at hplace
  exact absurd hplace (by decide)

/-- **A name goes into an unused record.** -/
theorem insert_unused (hspot : spot.inode = 0)
    (hlen : block.length < 2 ^ 16) (hname : Vfs.checkName name = .ok ())
    (hroom : recLenFor name.length ≤ spot.recLen)
    (hinode : 0 < inode ∧ inode ≤ maxInode) (hmax : maxInode < 2 ^ 32)
    (htype : fileType.isSome = filetype) :
    ∃ entries, Accepts ((insert spot name inode fileType).apply block) filetype maxInode
      first entries ∧
      listed ((insert spot name inode fileType).apply block) entries =
        listed block l₁ ++ ([⟨name, inode⟩] ++ listed block l₂) := by
  obtain ⟨h1, -, hok, h2⟩ := h.cut
  have hnew : Entry.Ok block.length maxInode ⟨spot.offset, inode, spot.recLen, name.length⟩ :=
    ⟨hok.recLen_mod, hok.header_le, hok.stop_le, (checkName_ok_iff.mp hname).length_le,
      hroom, hinode.2⟩
  obtain ⟨hparse, hput⟩ := parseEntry_put hnew hlen hmax htype
  have hstop : spot.offset + header + name.length ≤ spot.offset + spot.recLen := hnew.name_stop_le
  have hbefore : SameOn block ((put spot.offset spot.recLen name inode fileType).apply block) 0
      spot.offset :=
    sameOn_put (Or.inl le_rfl)
  have hafter : SameOn block ((put spot.offset spot.recLen name inode fileType).apply block)
      (spot.offset + spot.recLen) block.length := sameOn_put (Or.inr hstop)
  obtain ⟨hacc, hlisted⟩ :=
    h.replace length_apply_put h1 h2 hbefore hafter (tiled_singleton.mpr ⟨hparse, rfl⟩)
    ⟨checkName_of_nameOk hname hput, trivial⟩ h.named_after.2
  rw [insert, if_pos hspot]
  refine ⟨_, hacc, hlisted.trans ?_⟩
  rw [listed_used (show inode ≠ 0 by omega), hput]

/-- **A name goes into the spare room** behind a used entry's own name: the block is read with
the name in it, and accepted exactly if no `.` or `..` comes after. -/
theorem insert_split (hspot : spot.inode ≠ 0)
    (hlen : block.length < 2 ^ 16) (hname : Vfs.checkName name = .ok ())
    (hroom : recLenFor spot.nameLen + recLenFor name.length ≤ spot.recLen)
    (hinode : 0 < inode ∧ inode ≤ maxInode) (hmax : maxInode < 2 ^ 32)
    (htype : fileType.isSome = filetype) :
    ∃ entries, parse ((insert spot name inode fileType).apply block) filetype maxInode =
        .ok entries ∧
      (Accepts ((insert spot name inode fileType).apply block) filetype maxInode first entries ↔
        NoDots block l₂) ∧
      listed ((insert spot name inode fileType).apply block) entries =
        listed block (l₁ ++ [spot]) ++ ([⟨name, inode⟩] ++ listed block l₂) := by
  obtain ⟨h1, hheader, hok, h2⟩ := h.cut
  have hbits := hok.recLen_lt hlen
  have hmod := hok.recLen_mod
  have hstop := hok.stop_le
  have hge := recLenFor_ge name.length
  have hge' := recLenFor_ge spot.nameLen
  have hmod' := recLenFor_mod spot.nameLen
  have hheader8 : header = 8 := rfl
  generalize hkeep : recLenFor spot.nameLen = keep at *
  -- first the record of the used entry is cut to what its name needs
  generalize hb1 : (setRecLen spot.offset keep).apply block = b1
  have hlen1 : b1.length = block.length := by
    rw [← hb1]
    exact (setRecLen spot.offset keep).length_apply block
  have hkept : headerAt b1 filetype spot.offset = { spot with recLen := keep } := by
    rw [← hb1, headerAt_setRecLen (by omega) (by omega), ← hheader]
  -- then the new entry is put behind it
  generalize hb2 : (put (spot.offset + keep) (spot.recLen - keep) name inode fileType).apply b1 = b2
  have hlen2 : b2.length = block.length := by
    rw [← hb2, length_apply_put, hlen1]
  have hnew : Entry.Ok b1.length maxInode ⟨spot.offset + keep, inode, spot.recLen - keep,
      name.length⟩ := by
    refine ⟨?_, ?_, ?_, (checkName_ok_iff.mp hname).length_le, ?_, hinode.2⟩ <;>
      dsimp only <;> omega
  obtain ⟨hparse, hput⟩ := parseEntry_put hnew (by omega) hmax htype
  rw [hb2] at hparse hput
  have hnew_stop := hnew.name_stop_le
  dsimp only at hnew_stop
  have hsame : ∀ {x y : ℕ}, y ≤ spot.offset + 4 ∨ spot.offset + 6 ≤ x →
      (y ≤ spot.offset + keep ∨ spot.offset + spot.recLen ≤ x) → SameOn block b2 x y := fun hx hy =>
    hb2 ▸ (hb1 ▸ sameOn_setRecLen hx).trans (sameOn_put (by omega))
  have hold : parseEntry b2 filetype maxInode spot.offset = .ok { spot with recLen := keep } := by
    have hput_before : SameOn b1 b2 spot.offset (spot.offset + header) :=
      hb2 ▸ sameOn_put (by omega)
    rw [parseEntry_eq_ok, headerAt_congr hput_before, hkept, hlen2]
    exact ⟨rfl, hmod', by dsimp only; omega, by dsimp only; omega, hok.nameLen_le,
      hkeep.le, hok.inode_le⟩
  have hold_name : ({ spot with recLen := keep } : Entry).name b2 = spot.name block :=
    (hsame (x := spot.offset + header) (y := spot.offset + keep) (by omega) (by omega)).slice
      hlen2 le_rfl (by
      dsimp only
      omega)
  have hnamed : Named b2 first l₁.length
      [{ spot with recLen := keep },
        ⟨spot.offset + keep, inode, spot.recLen - keep, name.length⟩] :=
    ⟨(checkName_congr Iff.rfl hold_name).trans h.named_after.1,
      checkName_of_nameOk hname hput, trivial⟩
  have hrow : Row b2 filetype maxInode spot.offset (spot.offset + spot.recLen)
      [{ spot with recLen := keep },
        ⟨spot.offset + keep, inode, spot.recLen - keep, name.length⟩] :=
    ⟨hold, hparse, show spot.offset + keep + (spot.recLen - keep) =
      spot.offset + spot.recLen by omega⟩
  obtain ⟨hread, hacc, hlisted⟩ := h.replace_parse hlen2 h1 h2
    (hsame (Or.inl (by omega)) (Or.inl (by omega))) (hsame (Or.inr (by omega)) (Or.inr le_rfl))
    hrow hnamed
  have hafter := h.named_after.2
  have hdots : Named block first (l₁.length + 2) l₂ ↔ NoDots block l₂ :=
    ⟨fun hnamed => hnamed.noDots (by omega), fun hdots => hafter.move hdots⟩
  have happly : (insert spot name inode fileType).apply block = b2 := by
    rw [insert, if_neg hspot, hkeep, ← hb2, ← hb1]
    rfl
  rw [happly]
  refine ⟨_, hread, hacc.trans hdots, hlisted.trans ?_⟩
  have hpair : listed b2 [{ spot with recLen := keep },
      ⟨spot.offset + keep, inode, spot.recLen - keep, name.length⟩] =
      listed block [spot] ++ [⟨name, inode⟩] := by
    change listed b2 ([_] ++ [_]) = _
    rw [listed_append, listed_used (e := { spot with recLen := keep }) hspot,
      listed_used hspot, hold_name,
      listed_used (show inode ≠ 0 by omega), hput]
  rw [hpair, listed_append]
  simp only [List.append_assoc]

end

/-- **An entry that is not the first is removed**: the record before takes it in. -/
theorem remove_joined (h : Accepts block filetype maxInode first (l₁ ++ ([prev] ++ ([e] ++ l₂))))
    (hlen : block.length < 2 ^ 16) :
    ∃ entries, Accepts ((remove e (some prev)).apply block) filetype maxInode first entries ∧
      listed ((remove e (some prev)).apply block) entries = listed block (l₁ ++ [prev]) ++
        listed block l₂ := by
  obtain ⟨h1, hprev, hok, hrest⟩ := h.cut
  have hsplit : l₁ ++ ([prev] ++ ([e] ++ l₂)) = (l₁ ++ [prev]) ++ ([e] ++ l₂) := by simp
  obtain ⟨h1', -, hok', h2⟩ := (hsplit ▸ h).cut
  -- the record before ends where this one starts
  have htouch : prev.offset + prev.recLen = e.offset := by
    obtain ⟨x, -, hx⟩ := tiled_append.mp h1'
    obtain ⟨hparse, hstop⟩ := hx
    obtain ⟨he, -⟩ := parseEntry_eq_ok.mp hparse
    have : prev.offset = x := by rw [he, headerAt]
    rw [this]
    exact hstop
  have hmod := hok.recLen_mod
  have hmod' := hok'.recLen_mod
  have hstop := hok.stop_le
  have hstop' := hok'.stop_le
  have hheader := hok.header_le
  have hname := hok.name_stop_le
  have hname' := hok.name_le
  have hheader8 : header = 8 := rfl
  rw [remove]
  generalize hb : (setRecLen prev.offset (prev.recLen + e.recLen)).apply block = block'
  have hlen' : block'.length = block.length := by
    rw [← hb]
    exact (setRecLen prev.offset (prev.recLen + e.recLen)).length_apply block
  have hsame : ∀ {x y : ℕ}, y ≤ prev.offset + 4 ∨ prev.offset + 6 ≤ x →
      SameOn block block' x y := fun hxy =>
    hb ▸ sameOn_setRecLen hxy
  have hjoined : parseEntry block' filetype maxInode prev.offset =
      .ok { prev with recLen := prev.recLen + e.recLen } := by
    rw [parseEntry_eq_ok, ← hb, headerAt_setRecLen (by omega) (by omega), ← hprev, hb, hlen']
    refine ⟨rfl, ?_, ?_, ?_, hok.nameLen_le, ?_, hok.inode_le⟩ <;> dsimp only <;> omega
  have hjoined_name : ({ prev with recLen := prev.recLen + e.recLen } : Entry).name block' =
      prev.name block :=
    (hsame (x := prev.offset + header) (y := block.length) (by omega)).slice hlen' le_rfl
      (by dsimp only; omega)
  have hafter := (hsplit ▸ h).named_after.2
  rw [List.length_append, List.length_singleton] at hafter
  obtain ⟨hacc, hlisted⟩ :=
    (show Accepts block filetype maxInode first (l₁ ++ ([prev, e] ++ l₂)) from h).replace
    hlen' h1 h2 (hsame (Or.inl (Nat.le_add_right _ _)))
      (hsame (x := e.offset + e.recLen) (Or.inr (by omega)))
    (tiled_singleton.mpr ⟨hjoined, by dsimp only; omega⟩)
    ⟨(checkName_congr Iff.rfl hjoined_name).trans h.named_after.1, trivial⟩
    (hafter.move (hafter.noDots (by omega)))
  refine ⟨_, hacc, hlisted.trans ?_⟩
  have hone : listed block' [{ prev with recLen := prev.recLen + e.recLen }] =
      listed block [prev] := by
    by_cases hinode : prev.inode = 0
    · rw [listed_unused hinode,
        listed_unused (e := { prev with recLen := prev.recLen + e.recLen }) hinode]
    · rw [listed_used hinode, listed_used (e := { prev with recLen := prev.recLen + e.recLen })
        hinode, hjoined_name]
  rw [hone, listed_append, List.append_assoc]

theorem setInode_accepts (h : Accepts block filetype maxInode first (l₁ ++ ([e] ++ l₂)))
    (hlen : block'.length = block.length) (hbefore : SameOn block block' 0 e.offset)
    (hafter : SameOn block block' (e.offset + header) block.length)
    (hheader : headerAt block' filetype e.offset = { e with inode := inode })
    (hinode : inode ≤ maxInode)
    (hname : inode ≠ 0 → e.inode ≠ 0) :
    ∃ entries, Accepts block' filetype maxInode first entries ∧
      listed block' entries =
        listed block l₁ ++ ((if inode = 0 then [] else [⟨e.name block, inode⟩]) ++
          listed block l₂) := by
  obtain ⟨h1, -, hok, h2⟩ := h.cut
  have hheader_le := hok.header_le
  have hname_le := hok.name_stop_le
  have hstop := hok.stop_le
  have hsame_name : ({ e with inode := inode } : Entry).name block' = e.name block :=
    hafter.slice hlen le_rfl (by dsimp only; omega)
  have hnamed : checkName block' first l₁.length { e with inode := inode } = none := by
    by_cases h0 : inode = 0
    · simp only [checkName, if_pos h0]
    · exact (checkName_congr (iff_of_false h0 (hname h0)) hsame_name).trans h.named_after.1
  have hparse : parseEntry block' filetype maxInode e.offset = .ok { e with inode := inode } := by
    rw [parseEntry_eq_ok, hheader, hlen]
    exact ⟨rfl, hok.recLen_mod, hok.header_le, hok.stop_le, hok.nameLen_le, hok.name_le, hinode⟩
  obtain ⟨hacc, hlisted⟩ := h.replace hlen h1 h2 hbefore (hafter.mono (by omega) le_rfl)
    (tiled_singleton.mpr ⟨hparse, rfl⟩) ⟨hnamed, trivial⟩ h.named_after.2
  refine ⟨_, hacc, hlisted.trans ?_⟩
  by_cases h0 : inode = 0
  · rw [if_pos h0, listed_unused (e := { e with inode := inode }) h0]
  · rw [if_neg h0, listed_used (e := { e with inode := inode }) h0, hsame_name]

/-- **The first entry is removed**: its record becomes unused. -/
theorem remove_first (h : Accepts block filetype maxInode first ([e] ++ l₂)) :
    ∃ entries, Accepts ((remove e none).apply block) filetype maxInode first entries ∧
      listed ((remove e none).apply block) entries = listed block l₂ := by
  rw [← List.nil_append ([e] ++ l₂)] at h
  obtain ⟨-, he, hok, -⟩ := h.cut
  have hheader_le := hok.header_le
  have hstop := hok.stop_le
  have hheader8 : header = 8 := rfl
  have hset : headerAt ((Edit.u32 e.offset 0).apply block) filetype e.offset =
      { e with inode := 0 } := by
    rw [headerAt_setInode (by omega) (by decide), ← he]
  exact setInode_accepts h ((Edit.u32 e.offset 0).length_apply block)
    (sameOn_setInode (Or.inl le_rfl))
    (sameOn_setInode (Or.inr (by omega))) hset (Nat.zero_le _) fun h0 => absurd rfl h0

/-- **An entry is pointed at another inode.** -/
theorem retarget_accepts (h : Accepts block filetype maxInode first (l₁ ++ ([e] ++ l₂)))
    (he : e.inode ≠ 0)
    (hinode : 0 < inode ∧ inode ≤ maxInode) (hmax : maxInode < 2 ^ 32)
    (htype : fileType.isSome = filetype) :
    ∃ entries, Accepts ((retarget e inode fileType).apply block) filetype maxInode first entries ∧
      listed ((retarget e inode fileType).apply block) entries =
        listed block l₁ ++ ([⟨e.name block, inode⟩] ++ listed block l₂) := by
  obtain ⟨-, hheader, hok, -⟩ := h.cut
  have hheader_le := hok.header_le
  have hstop := hok.stop_le
  have hheader8 : header = 8 := rfl
  have hset : headerAt ((Edit.u32 e.offset inode).apply block) filetype e.offset =
      { e with inode := inode } := by
    rw [headerAt_setInode (by omega) (by omega), ← hheader]
  have hbefore : SameOn block ((Edit.u32 e.offset inode).apply block) 0 e.offset :=
    sameOn_setInode (Or.inl le_rfl)
  have hafter : SameOn block ((Edit.u32 e.offset inode).apply block) (e.offset + header)
      block.length :=
    sameOn_setInode (Or.inr (by omega))
  have hne : inode ≠ 0 := by omega
  cases fileType with
  | none =>
    have := setInode_accepts h ((Edit.u32 e.offset inode).length_apply block) hbefore hafter hset
        hinode.2 fun _ => he
    rwa [if_neg hne] at this
  | some t =>
    obtain rfl : filetype = true := htype.symm
    -- the type byte is not looked at
    generalize hb : (Edit.u32 e.offset inode).apply block = b1 at *
    have hlen1 : b1.length = block.length := by
      rw [← hb]
      exact (Edit.u32 e.offset inode).length_apply block
    have htypeByte : headerAt (RelayOs.splice b1 (e.offset + 7) [t]) true e.offset =
        headerAt b1 true e.offset := by
      have hsame : SameOn b1 (RelayOs.splice b1 (e.offset + 7) [t]) e.offset (e.offset + 7) :=
        .splice _ (Or.inl le_rfl)
      rw [headerAt, headerAt, hsame.u32At le_rfl (by omega),
        hsame.u16At (by omega) (by omega), if_pos rfl,
        if_pos rfl, hsame.byte (by omega) le_rfl]
    have happly : (retarget e inode (some t)).apply block =
        RelayOs.splice b1 (e.offset + 7) [t] := by
      rw [← hb]
      rfl
    rw [happly]
    have := setInode_accepts h ((length_splice _ _ _).trans hlen1)
        (hbefore.trans (.splice _ (Or.inl (by omega))))
      (hafter.trans (.splice _ (Or.inr (by rw [List.length_singleton]; omega))))
        (htypeByte.trans hset) hinode.2
      fun _ => he
    rwa [if_neg hne] at this

/-! ### Finding an entry -/

theorem findIn_eq_some {found : Found} {b : ℕ} {before : Option Entry}
    (h : findIn name b block before entries = some found) :
    ∃ l₁ l₂, entries = l₁ ++ ([found.entry] ++ l₂) ∧ found.entry.inode ≠ 0 ∧
      found.entry.name block = name ∧
      found.prev = l₁.getLast?.or before := by
  induction entries generalizing before with
  | nil => cases h
  | cons e entries ih =>
    rw [findIn] at h
    split at h
    · rename_i hname
      cases h
      exact ⟨[], entries, rfl, hname.1, hname.2, rfl⟩
    · obtain ⟨l₁, l₂, rfl, hinode, hname, hprev⟩ := ih h
      refine ⟨e :: l₁, l₂, rfl, hinode, hname, hprev.trans ?_⟩
      rw [List.getLast?_cons]
      cases l₁.getLast? <;> rfl

theorem room_eq_some {nameLen : ℕ} (h : room entries nameLen = some spot) :
    (∃ l₁ l₂, entries = l₁ ++ ([spot] ++ l₂)) ∧ (spot.inode = 0 → recLenFor nameLen ≤ spot.recLen) ∧
      (spot.inode ≠ 0 → recLenFor spot.nameLen + recLenFor nameLen ≤ spot.recLen) := by
  obtain ⟨hroom, l₁, l₂, rfl, -⟩ := List.find?_eq_some_iff_append.mp h
  refine ⟨⟨l₁, l₂, rfl⟩, fun hinode => ?_, fun hinode => ?_⟩
  · simpa only [if_pos hinode, decide_eq_true_eq] using hroom
  · simpa only [if_neg hinode, decide_eq_true_eq] using hroom

theorem remove_accepts (h : Accepts block filetype maxInode first (l₁ ++ ([e] ++ l₂)))
    (hlen : block.length < 2 ^ 16) :
    ∃ entries, Accepts ((remove e l₁.getLast?).apply block) filetype maxInode first entries ∧
      listed ((remove e l₁.getLast?).apply block) entries = listed block l₁ ++ listed block l₂ := by
  induction l₁ using List.reverseRecOn with
  | nil => exact remove_first h
  | append_singleton l₁ prev _ =>
    rw [List.append_assoc] at h
    rw [List.getLast?_concat]
    exact remove_joined h hlen

end Changes

/-! ### Directory blocks stay valid -/

/-- **What the three changes make of a directory block that is accepted**, with exactly the
entries the change stands for. A name in range inserted where `room` says leaves a block that is
read with the name in it, and accepted exactly if the name does not push `..` up; the block is
accepted after an entry found in it and other than `.` and `..` is removed, and after any entry
found in it is pointed at another inode. -/
theorem changes_accepted (hblock : Accepts block filetype maxInode first entries)
    (hlen : block.length < 2 ^ 16) (hmax : maxInode < 2 ^ 32) :
    (∀ name inode kind spot, Vfs.checkName name = .ok () →
      name ∉ (listed block entries).map DirEntry.name → 0 < inode → inode ≤ maxInode →
      room entries name.length = some spot →
      ∃ entries' l₁ l₂,
        parse ((insert spot name inode (if filetype then some (typeByte kind) else none)).apply
          block) filetype maxInode = .ok entries' ∧
        (Accepts ((insert spot name inode
            (if filetype then some (typeByte kind) else none)).apply block) filetype maxInode first
          entries' ↔ ¬PushesDots block entries spot) ∧
        listed block entries = l₁ ++ l₂ ∧
        listed ((insert spot name inode (if filetype then some (typeByte kind) else none)).apply
          block) entries' = l₁ ++ ⟨name, inode⟩ :: l₂) ∧
    (∀ name b found, findIn name b block none entries = some found → name ≠ dot → name ≠ dotDot →
      ∃ entries' l₁ l₂,
        Accepts ((remove found.entry found.prev).apply block) filetype maxInode first entries' ∧
        listed block entries = l₁ ++ ⟨name, found.entry.inode⟩ :: l₂ ∧
        listed ((remove found.entry found.prev).apply block) entries' = l₁ ++ l₂) ∧
    (∀ name b found inode kind, findIn name b block none entries = some found → 0 < inode →
      inode ≤ maxInode →
      ∃ entries' l₁ l₂,
        Accepts ((retarget found.entry inode (if filetype then some (typeByte kind)
          else none)).apply block)
          filetype maxInode first entries' ∧
        listed block entries = l₁ ++ ⟨name, found.entry.inode⟩ :: l₂ ∧
        listed ((retarget found.entry inode (if filetype then some (typeByte kind) else none)).apply
          block) entries' =
          l₁ ++ ⟨name, inode⟩ :: l₂) := by
  have htype : ∀ kind, (if filetype then some (typeByte kind) else none).isSome = filetype := by
    intro kind
    cases filetype <;> rfl
  refine ⟨?_, ?_, ?_⟩
  · intro name inode kind spot hname _ hpos hle hroom
    obtain ⟨⟨l₁, l₂, rfl⟩, hunused, hused⟩ := room_eq_some hroom
    by_cases hspot : spot.inode = 0
    · obtain ⟨entries', hacc, hlisted⟩ :=
        insert_unused hblock hspot hlen hname (hunused hspot) ⟨hpos, hle⟩ hmax (htype kind)
      refine ⟨entries', listed block l₁, listed block l₂, hacc.1,
        iff_of_true hacc fun hpush => hpush.1 hspot, ?_, hlisted⟩
      rw [listed_append, listed_append, listed_unused hspot, List.nil_append]
    · obtain ⟨entries', hread, hacc, hlisted⟩ :=
        insert_split hblock hspot hlen hname (hused hspot) ⟨hpos, hle⟩ hmax (htype kind)
      refine ⟨entries', listed block (l₁ ++ [spot]), listed block l₂, hread,
        hacc.trans (noDots_iff hblock hspot), ?_, hlisted⟩
      rw [← List.append_assoc, listed_append]
  · intro name b found hfound _ _
    obtain ⟨l₁, l₂, rfl, hinode, rfl, hprev⟩ := findIn_eq_some hfound
    obtain ⟨entries', hacc, hlisted⟩ := remove_accepts hblock hlen
    rw [Option.or_none] at hprev
    rw [← hprev] at hacc hlisted
    refine ⟨entries', listed block l₁, listed block l₂, hacc, ?_, hlisted⟩
    rw [listed_append, listed_append, listed_used hinode, List.singleton_append]
  · intro name b found inode kind hfound hpos hle
    obtain ⟨l₁, l₂, rfl, hinode, rfl, -⟩ := findIn_eq_some hfound
    obtain ⟨entries', hacc, hlisted⟩ := retarget_accepts hblock hinode ⟨hpos, hle⟩ hmax (htype kind)
    refine ⟨entries', listed block l₁, listed block l₂, hacc, ?_, hlisted⟩
    rw [listed_append, listed_append, listed_used hinode, List.singleton_append]

/-- A directory's first block with nothing spare but at its end, as `mke2fs` makes it. -/
def tightBlock : Bytes := (initDir 2 2 true).apply (List.replicate 1024 0)

/-- The first record has nothing to spare, so a new name goes after `..`. -/
theorem changes_accepted_tightBlock :
    Accepts tightBlock true 16 true [⟨0, 2, 12, 1⟩, ⟨12, 2, 1012, 2⟩] ∧
      ∃ entries' l₁ l₂,
        Accepts ((insert ⟨12, 2, 1012, 2⟩ [0x61] 11 (some (typeByte .regular))).apply tightBlock)
          true 16 true entries' ∧
        listed tightBlock [⟨0, 2, 12, 1⟩, ⟨12, 2, 1012, 2⟩] = l₁ ++ l₂ ∧
        listed ((insert ⟨12, 2, 1012, 2⟩ [0x61] 11 (some (typeByte .regular))).apply tightBlock)
          entries' = l₁ ++ ⟨[0x61], 11⟩ :: l₂ := by
  have h : Accepts tightBlock true 16 true [⟨0, 2, 12, 1⟩, ⟨12, 2, 1012, 2⟩] := by decide +kernel
  obtain ⟨entries', l₁, l₂, -, hacc, hlisted⟩ := (changes_accepted h (by decide +kernel)
    (by decide)).1 [0x61] 11 .regular ⟨12, 2, 1012, 2⟩ (by decide) (by decide +kernel) (by decide)
    (by decide) (by decide)
  refine ⟨h, entries', l₁, l₂, hacc.mpr ?_, hlisted⟩
  rintro ⟨-, hhead, -⟩
  exact absurd hhead (by decide)

/-- A first block whose `.` has a longer record than it needs. -/
def looseBlock : Bytes :=
  (put 24 1000 dotDot 2 (some (typeByte .directory))).apply
    ((put 0 24 dot 2 (some (typeByte .directory))).apply (List.replicate 1024 0))

/-- **The next name goes between `.` and `..`**, and the directory is refused from then on. -/
theorem dots_pushed :
    Accepts looseBlock true 16 true [⟨0, 2, 24, 1⟩, ⟨24, 2, 1000, 2⟩] ∧
      Vfs.checkName [0x61] = .ok () ∧ room [⟨0, 2, 24, 1⟩, ⟨24, 2, 1000, 2⟩] 1 =
        some ⟨0, 2, 24, 1⟩ ∧
      parse ((insert ⟨0, 2, 24, 1⟩ [0x61] 11 (some (typeByte .regular))).apply looseBlock) true 16 =
        .ok [⟨0, 2, 12, 1⟩, ⟨12, 11, 12, 1⟩, ⟨24, 2, 1000, 2⟩] ∧
      checkNames ((insert ⟨0, 2, 24, 1⟩ [0x61] 11 (some (typeByte .regular))).apply looseBlock)
        [⟨0, 2, 12, 1⟩, ⟨12, 11, 12, 1⟩, ⟨24, 2, 1000, 2⟩] true = .error ⟨24, .misplacedDots⟩ := by
  decide +kernel

end Dirent

end RelayOs.Ext2
