import RelayOs.Lib.Fallible
import RelayOs.Memory.Phys

/-!
# The rules a program's file must follow

Before the kernel runs a program it checks the file: a static ELF64 executable whose segments
lie in the program area, on pages of their own, and which carries the ABI's note. The file
comes from a disk, so nothing in it may stop the kernel; and the loader trusts what the check
let through.
-/

namespace RelayOs.Elf

open Mm (page)

/-- The largest program the kernel loads. -/
def maxSize : ℕ := 16 * 2 ^ 20

/-- Where a program's segments may lie: above the unmapped first 4 MiB, below the `mem_map`
area. -/
def programBase : ℕ := 0x400000

/-- Programs end below this address. -/
def programEnd : ℕ := 0x100000000000

/-- The length of the file header. -/
def headerLen : ℕ := 64

/-- The length of a program header. -/
def phdrLen : ℕ := 56

/-- The file type of an executable at fixed addresses. -/
def etExec : ℕ := 2

/-- A segment to load. -/
def ptLoad : ℕ := 1

/-- A segment of notes. -/
def ptNote : ℕ := 4

/-- The segment that says whether the stack may be executed. -/
def ptGnuStack : ℕ := 0x6474e551

/-- The flag of a segment that may be executed. -/
def pfX : ℕ := 1

/-- The flag of a segment that may be written. -/
def pfW : ℕ := 2

/-- The name of the note, `Relay`. -/
def noteName : Bytes := [82, 101, 108, 97, 121]

/-- The type of the note that names the system call interface. -/
def noteType : ℕ := 1

/-- What the program may do with a segment's pages. -/
inductive Access
  | readExec
  | read
  | readWrite
  deriving DecidableEq, Repr

/-- **A loadable segment**: `memsz` bytes at `vaddr`, the first `filesz` of them from the file
at `offset`, the rest zero. -/
structure Segment where
  vaddr : ℕ
  memsz : ℕ
  offset : ℕ
  filesz : ℕ
  access : Access
  deriving DecidableEq, Repr

/-- The first address after it; an overflow stops the kernel. -/
def Segment.stop (s : Segment) : Option ℕ :=
  if s.vaddr + s.memsz < 2 ^ 64 then some (s.vaddr + s.memsz) else none

/-- A program that passed every check: its entry point, and its segments in address order. -/
structure Program where
  entry : ℕ
  segments : List Segment
  deriving DecidableEq, Repr

/-- Why a file is not a program the kernel runs. -/
inductive ElfError
  | tooBig (len : ℕ)
  | notElf
  | not64Bit
  | notLittleEndian
  | notExec (kind : ℕ)
  | machine (m : ℕ)
  | programHeaders
  | segmentKind (kind : ℕ)
  | noLoad
  | outside (vaddr : ℕ)
  | writableAndExecutable (vaddr : ℕ)
  | moreFileThanMemory (vaddr : ℕ)
  | notCongruent (vaddr : ℕ)
  | overlap (vaddr : ℕ)
  | pastTheFile (vaddr : ℕ)
  | entry (e : ℕ)
  | noteOutside
  | notePastItsSegment
  | noteType (t : ℕ)
  | noteSize (n : ℕ)
  | noNote
  | abi (v : ℕ)
  deriving DecidableEq, Repr

/-- A check that can fail. -/
abbrev Checked := ExceptT ElfError Option

/-! ### Reading the file -/

/-- The byte at `i`; the kernel stops past the end of `b`. -/
def u8 (b : Bytes) (i : ℕ) : Option UInt8 := b[i]?

/-- The 16-bit number at `i`; the kernel stops past the end of `b`. -/
def u16 (b : Bytes) (i : ℕ) : Option ℕ := if i + 2 ≤ b.length then some (u16At b i) else none

/-- The 32-bit number at `i`. -/
def u32 (b : Bytes) (i : ℕ) : Option ℕ := if i + 4 ≤ b.length then some (u32At b i) else none

/-- The 64-bit number at `i`. -/
def u64 (b : Bytes) (i : ℕ) : Option ℕ := if i + 8 ≤ b.length then some (u64At b i) else none

/-- The bytes `offset..offset + len` of `file`, if they are all in it. -/
def range (file : Bytes) (offset len : ℕ) : Option Bytes :=
  if offset + len < 2 ^ 64 ∧ offset + len ≤ file.length then some (slice file offset len) else none

/-- The first multiple of `n` from `x` on; an overflow stops the kernel. -/
def nextMultipleOf (x n : ℕ) : Option ℕ :=
  if (x + (n - 1)) / n * n < 2 ^ 64 then some ((x + (n - 1)) / n * n) else none

/-! ### Program headers -/

/-- What the loops over the program headers collect. -/
structure Headers where
  segments : List Segment
  notes : List Bytes

/-- How a segment may be accessed; never both to write and to execute. -/
def accessOf (flags vaddr : ℕ) : Checked Access :=
  if flags &&& pfX ≠ 0 then
    if flags &&& pfW ≠ 0 then throw (.writableAndExecutable vaddr) else return .readExec
  else if flags &&& pfW ≠ 0 then return .readWrite
  else return .read

/-- A header of type `kind`. -/
def addHeader (file : Bytes) (h : Headers) (kind flags offset vaddr filesz memsz : ℕ) :
    Checked Headers :=
  if kind = ptLoad then do
    let access ← accessOf flags vaddr
    return { h with segments := h.segments ++ [⟨vaddr, memsz, offset, filesz, access⟩] }
  else if kind = ptNote then do
    let note ← orFail (range file offset filesz) .noteOutside
    return { h with notes := h.notes ++ [note] }
  else if kind = ptGnuStack then return h
  else throw (.segmentKind kind)

/-- **One program header**, checked and added to those before it. -/
def header (file : Bytes) (h : Headers) (ph : Bytes) : Checked Headers := do
  let kind ← u32 ph 0
  let flags ← u32 ph 4
  let offset ← u64 ph 8
  let vaddr ← u64 ph 16
  let filesz ← u64 ph 32
  let memsz ← u64 ph 40
  addHeader file h kind flags offset vaddr filesz memsz

/-- Pieces of `phdrLen` bytes; what is left over is dropped. -/
def chunks (b : Bytes) : List Bytes :=
  (List.range (b.length / phdrLen)).map fun i => slice b (phdrLen * i) phdrLen

/-! ### Segments -/

/-- Checks one segment against the file and the end of the segment before it; the end of this one.
-/
def segment (file : Bytes) (previousEnd : ℕ) (s : Segment) : Checked ℕ := do
  failIf (¬(s.vaddr + s.memsz < 2 ^ 64 ∧ programBase ≤ s.vaddr ∧ s.vaddr + s.memsz ≤ programEnd))
    (.outside s.vaddr)
  failIf (s.memsz < s.filesz) (.moreFileThanMemory s.vaddr)
  failIf (s.offset % page ≠ s.vaddr % page) (.notCongruent s.vaddr)
  failIf (range file s.offset s.filesz = none) (.pastTheFile s.vaddr)
  -- segments may not share a page: each page gets one permission
  failIf (s.vaddr / page * page < previousEnd) (.overlap s.vaddr)
  s.stop

/-- Whether `entry` lies in one of the segments. -/
def holdsEntry (entry : ℕ) (segments : List Segment) : Option Bool :=
  segments.anyM fun s => s.stop.map fun stop => s.vaddr ≤ entry ∧ entry < stop

/-! ### The note -/

/-- Without one NUL at the end. -/
def stripNul (name : Bytes) : Bytes := if name.getLast? = some 0 then name.dropLast else name

/-- The note at `i` holds the version, if it is the Relay note. -/
def noteAt (notes : Bytes) (i namesz descAt : ℕ) : Checked (Option ℕ) := do
  let descsz ← u32 notes (i + 4)
  let kind ← u32 notes (i + 8)
  let name ← range notes (i + 12) namesz
  if stripNul name = noteName then do
    failIf (kind ≠ noteType) (.noteType kind)
    failIf (descsz ≠ 4) (.noteSize descsz)
    let v ← u32 notes descAt
    return some v
  else return none

/-- The rounds of `relay_note`, from the note at `i` on. -/
def noteFrom (notes : Bytes) : ℕ → ℕ → Checked (Option ℕ)
  | 0, _ => (none : Option (Option ℕ))
  | rounds + 1, i =>
    if i + 12 ≤ notes.length then do
      let namesz ← u32 notes i
      let descsz ← u32 notes (i + 4)
      let nameLen ← nextMultipleOf namesz 4
      let descAt ← orFail (if i + 12 + nameLen < 2 ^ 64 then some (i + 12 + nameLen) else none)
          .notePastItsSegment
      let descLen ← nextMultipleOf descsz 4
      let next ← orFail
        (if descAt + descLen < 2 ^ 64 ∧ descAt + descLen ≤ notes.length then
          some (descAt + descLen)
        else none) .notePastItsSegment
      match ← noteAt notes i namesz descAt with
      | some v => return some v
      | none => noteFrom notes rounds next
    else return none

/-- **The ABI version in the `Relay` note** among `notes`, if it has one. -/
def relayNote (notes : Bytes) : Checked (Option ℕ) :=
  -- a note takes twelve bytes at least
  noteFrom notes (notes.length / 12 + 1) 0

/-- The version in a later note counts. -/
def noteVersion (version : Option ℕ) (n : Bytes) : Checked (Option ℕ) := do
  let v ← relayNote n
  return v.or version

/-! ### The check -/

/-- The note's version, if any, must be the ABI's. -/
def finish (abi entry : ℕ) (segments : List Segment) : Option ℕ → Checked Program
  | none => throw .noNote
  | some v => if v ≠ abi then throw (.abi v) else return ⟨entry, segments⟩

/-- What is checked once the program headers are read. -/
def checkProgram (file : Bytes) (abi entry : ℕ) (h : Headers) : Checked Program := do
  failIf (h.segments = []) .noLoad
  let segments := h.segments.insertionSort fun s t => s.vaddr ≤ t.vaddr
  let _ ← segments.foldlM (segment file) 0
  let inside ← holdsEntry entry (segments.filter fun s => s.access = .readExec)
  failIf (inside = false) (.entry entry)
  let version ← h.notes.foldlM noteVersion none
  finish abi entry segments version

/-- **Checks `file`** for a machine of type `machine` and ABI version `abi`, and returns what
the kernel needs to load it. -/
def check (file : Bytes) (machine abi : ℕ) : Checked Program := do
  failIf (maxSize < file.length) (.tooBig file.length)
  failIf (file.length < headerLen ∨ file.take 4 ≠ [0x7f, 0x45, 0x4c, 0x46]) .notElf
  let width ← u8 file 4
  failIf (width ≠ 2) .not64Bit
  let order ← u8 file 5
  failIf (order ≠ 1) .notLittleEndian
  let kind ← u16 file 16
  failIf (kind ≠ etExec) (.notExec kind)
  let m ← u16 file 18
  failIf (m ≠ machine) (.machine m)
  let entry ← u64 file 24
  let phoff ← u64 file 32
  let phentsize ← u16 file 54
  let phnum ← u16 file 56
  failIf (phentsize ≠ phdrLen) .programHeaders
  let phdrs ← orFail (range file phoff (phnum * phdrLen)) .programHeaders
  let h ← (chunks phdrs).foldlM (header file) ⟨[], []⟩
  checkProgram file abi entry h

/-! ### The check returns, whatever the file -/

/-- **A segment that can be loaded.** -/
structure Segment.Ok (file : Bytes) (s : Segment) : Prop where
  base_le : programBase ≤ s.vaddr
  le_end : s.vaddr + s.memsz ≤ programEnd
  filesz_le : s.filesz ≤ s.memsz
  range_eq : range file s.offset s.filesz = some (slice file s.offset s.filesz)

/-- **A program that can be loaded**: no two segments share a page, and the entry point is
code. -/
structure Program.Ok (file : Bytes) (p : Program) : Prop where
  segments : ∀ s ∈ p.segments, s.Ok file
  apart : p.segments.Pairwise fun s t => s.vaddr + s.memsz ≤ t.vaddr / page * page
  entry : ∃ s ∈ p.segments, s.access = .readExec ∧ s.vaddr ≤ p.entry ∧ p.entry < s.vaddr + s.memsz

section Returns

variable {file notes : Bytes}

theorem range_eq_some {offset len : ℕ} {b : Bytes} (h : range file offset len = some b) :
    offset + len ≤ file.length ∧ b = slice file offset len := by
  unfold range at h
  split at h
  · next hc => exact ⟨hc.2, (Option.some.inj h).symm⟩
  · cases h

theorem Segment.Ok.in_file {s : Segment} (h : s.Ok file) : s.offset + s.filesz ≤ file.length :=
  (range_eq_some h.range_eq).1

theorem returns_accessOf (flags vaddr : ℕ) : Returns (accessOf flags vaddr) fun _ => True := by
  unfold accessOf
  split
  · split
    · exact Returns.fail _
    · exact Returns.ret trivial
  · split
    · exact Returns.ret trivial
    · exact Returns.ret trivial

theorem returns_header {h : Headers} {ph : Bytes} (hnotes : ∀ n ∈ h.notes, n.length ≤ file.length)
    (hlen : ph.length = phdrLen) : Returns (header file h ph) fun r => ∀ n ∈ r.notes,
      n.length ≤ file.length := by
  have h32 : ∀ i, i + 4 ≤ phdrLen → u32 ph i = some (u32At ph i) :=
    fun i hi => if_pos (hlen.symm ▸ hi)
  have h64 : ∀ i, i + 8 ≤ phdrLen → u64 ph i = some (u64At ph i) :=
    fun i hi => if_pos (hlen.symm ▸ hi)
  unfold header
  refine Returns.lift_bind (h32 0 (by decide)) ?_
  refine Returns.lift_bind (h32 4 (by decide)) ?_
  refine Returns.lift_bind (h64 8 (by decide)) ?_
  refine Returns.lift_bind (h64 16 (by decide)) ?_
  refine Returns.lift_bind (h64 32 (by decide)) ?_
  refine Returns.lift_bind (h64 40 (by decide)) ?_
  unfold addHeader
  split
  · exact (returns_accessOf _ _).bind fun _ _ => Returns.ret hnotes
  · split
    · refine Returns.orFail_bind fun note hnote => Returns.ret ?_
      obtain ⟨hle, rfl⟩ := range_eq_some hnote
      refine List.forall_mem_append.2 ⟨hnotes, List.forall_mem_singleton.2 ?_⟩
      rw [length_slice hle]
      omega
    · split
      · exact Returns.ret hnotes
      · exact Returns.fail _

theorem length_of_mem_chunks {b ph : Bytes} (h : ph ∈ chunks b) : ph.length = phdrLen := by
  obtain ⟨i, hi, rfl⟩ := List.mem_map.1 h
  have hlt : i < b.length / phdrLen := List.mem_range.1 hi
  refine length_slice ?_
  unfold phdrLen at *
  omega

/-- What is known after the segments in `done`, the last of which ends at `e`. -/
structure Passed (file : Bytes) (done : List Segment) (e : ℕ) : Prop where
  ok : ∀ s ∈ done, s.Ok file
  apart : done.Pairwise fun s t => s.vaddr + s.memsz ≤ t.vaddr / page * page
  stop_le : ∀ s ∈ done, s.vaddr + s.memsz ≤ e

theorem returns_segment {done : List Segment} {e : ℕ} (h : Passed file done e) (s : Segment) :
    Returns (segment file e s) (Passed file (done ++ [s])) := by
  unfold segment
  refine Returns.failIf_bind fun hinside => ?_
  rw [not_not] at hinside
  refine Returns.failIf_bind fun hsize => ?_
  refine Returns.failIf_bind fun _ => ?_
  refine Returns.failIf_bind fun hfile => ?_
  refine Returns.failIf_bind fun hapart => ?_
  obtain ⟨b, hb⟩ := Option.ne_none_iff_exists'.1 hfile
  obtain ⟨-, rfl⟩ := range_eq_some hb
  have hs : s.Ok file := ⟨hinside.2.1, hinside.2.2, not_lt.1 hsize, hb⟩
  have hfloor : s.vaddr / page * page ≤ s.vaddr := Nat.div_mul_le_self _ _
  refine Returns.lift (if_pos hinside.1) ⟨?_, ?_, ?_⟩
  · exact List.forall_mem_append.2 ⟨h.ok, List.forall_mem_singleton.2 hs⟩
  · refine List.pairwise_append.2 ⟨h.apart, List.pairwise_singleton _ _, fun t ht u hu => ?_⟩
    rw [List.mem_singleton.1 hu]
    exact (h.stop_le t ht).trans (not_lt.1 hapart)
  · refine List.forall_mem_append.2 ⟨fun t ht => ?_, List.forall_mem_singleton.2 le_rfl⟩
    exact ((h.stop_le t ht).trans (not_lt.1 hapart)).trans (hfloor.trans (Nat.le_add_right _ _))

theorem returns_segments (l : List Segment) :
    Returns (l.foldlM (segment file) 0) fun e => Passed file l e :=
  Returns.foldlM (I := Passed file) ⟨nofun, List.Pairwise.nil, nofun⟩ fun _ s _ _ h =>
    returns_segment h s

theorem holdsEntry_eq (entry : ℕ) {l : List Segment} (h : ∀ s ∈ l, s.Ok file) :
    holdsEntry entry l = some (l.any fun s => s.vaddr ≤ entry ∧ entry < s.vaddr + s.memsz) := by
  induction l with
  | nil => rfl
  | cons s l ih =>
    obtain ⟨hs, hl⟩ := List.forall_mem_cons.1 h
    have hstop : s.stop = some (s.vaddr + s.memsz) := if_pos (by
      have := hs.le_end
      unfold programEnd at this
      omega)
    have hrest := ih hl
    unfold holdsEntry at hrest ⊢
    rw [List.anyM, hstop, hrest, List.any_cons, Option.map_some]
    generalize decide (s.vaddr ≤ entry ∧ entry < s.vaddr + s.memsz) = here
    cases here <;> rfl

/-! #### Notes -/

theorem nextMultipleOf_eq {x : ℕ} (h : x < 2 ^ 32) :
    nextMultipleOf x 4 = some ((x + 3) / 4 * 4) := if_pos (by omega)

theorem returns_noteAt {i namesz descAt : ℕ} (hname : i + 12 + namesz ≤ descAt)
    (hlen : notes.length < 2 ^ 64)
    (hnext : descAt + (u32At notes (i + 4) + 3) / 4 * 4 ≤ notes.length) :
    Returns (noteAt notes i namesz descAt) fun _ => True := by
  have hdesc : u32 notes (i + 4) = some (u32At notes (i + 4)) := if_pos (by omega)
  have hkind : u32 notes (i + 8) = some (u32At notes (i + 8)) := if_pos (by omega)
  unfold noteAt
  refine Returns.lift_bind hdesc (Returns.lift_bind hkind ?_)
  refine Returns.lift_bind (if_pos ⟨by omega, by omega⟩) ?_
  split
  · refine Returns.failIf_bind fun _ => Returns.failIf_bind fun hfour => ?_
    refine Returns.lift_bind (if_pos ?_) (Returns.ret trivial)
    omega
  · exact Returns.ret trivial

theorem returns_noteFrom (hlen : notes.length < 2 ^ 32) {rounds i : ℕ} (hi : i ≤ notes.length)
    (hrounds : notes.length < i + 12 * rounds) :
    Returns (noteFrom notes rounds i) fun _ => True := by
  induction rounds generalizing i with
  | zero => omega
  | succ rounds ih =>
    unfold noteFrom
    split
    · next hat =>
      have hname : u32 notes i = some (u32At notes i) := if_pos (by omega)
      have hdesc : u32 notes (i + 4) = some (u32At notes (i + 4)) := if_pos (by omega)
      have hn := u32At_lt notes i
      have hd := u32At_lt notes (i + 4)
      refine Returns.lift_bind hname
        (Returns.lift_bind hdesc (Returns.lift_bind (nextMultipleOf_eq hn) ?_))
      refine Returns.orFail_bind fun descAt hdescAt => Returns.lift_bind (nextMultipleOf_eq hd) ?_
      refine Returns.orFail_bind fun next hnext => ?_
      obtain ⟨-, ⟨⟩⟩ := Option.ite_none_right_eq_some.1 hdescAt
      obtain ⟨⟨-, hle⟩, ⟨⟩⟩ := Option.ite_none_right_eq_some.1 hnext
      refine (returns_noteAt (by omega) (by omega) hle).bind fun v _ => ?_
      cases v with
      | some v => exact Returns.ret trivial
      | none => exact ih hle (by omega)
    · exact Returns.ret trivial

theorem returns_notes {l : List Bytes} (h : ∀ n ∈ l, n.length < 2 ^ 32) :
    Returns (l.foldlM noteVersion none) fun _ => True := by
  refine Returns.foldlM (I := fun _ _ => True) trivial fun _ n _ hn _ => ?_
  unfold noteVersion relayNote
  refine Returns.bind (returns_noteFrom (h n hn) (Nat.zero_le _) ?_) fun _ _ => Returns.ret trivial
  omega

theorem returns_headers {l : List Bytes} (h : ∀ ph ∈ l, ph.length = phdrLen) :
    Returns (l.foldlM (header file) ⟨[], []⟩) fun r => ∀ n ∈ r.notes, n.length ≤ file.length :=
  Returns.foldlM (I := fun _ (r : Headers) => ∀ n ∈ r.notes, n.length ≤ file.length)
    (fun _ hn => nomatch hn)
    fun _ ph _ hph hr => returns_header hr (h ph hph)

theorem returns_finish (abi entry : ℕ) (segments : List Segment) (version : Option ℕ) :
    Returns (finish abi entry segments version) fun p => p = ⟨entry, segments⟩ := by
  unfold finish
  split
  · exact Returns.fail _
  · split
    · exact Returns.fail _
    · exact Returns.ret rfl

theorem returns_checkProgram {h : Headers} (abi entry : ℕ)
    (hnotes : ∀ n ∈ h.notes, n.length < 2 ^ 32) :
    Returns (checkProgram file abi entry h) (Program.Ok file) := by
  unfold checkProgram
  refine Returns.failIf_bind fun _ => ?_
  generalize h.segments.insertionSort (fun s t => s.vaddr ≤ t.vaddr) = segments
  refine (returns_segments segments).bind fun _ hpassed => ?_
  refine Returns.lift_bind
    (holdsEntry_eq entry fun s hs => hpassed.ok s (List.mem_filter.1 hs).1) ?_
  refine Returns.failIf_bind fun hentry => ?_
  refine (returns_notes hnotes).bind fun version _ => ?_
  refine (returns_finish abi entry segments version).mono fun p hp => ?_
  subst hp
  rw [Bool.not_eq_false, List.any_eq_true] at hentry
  obtain ⟨s, hs, hin⟩ := hentry
  obtain ⟨hmem, haccess⟩ := List.mem_filter.1 hs
  exact ⟨hpassed.ok, hpassed.apart, s, hmem, of_decide_eq_true haccess, of_decide_eq_true hin⟩

/-- **The check returns**, whatever the file: no index is out of range, and nothing overflows.
What it lets through can be loaded. -/
theorem check_returns (file : Bytes) (machine abi : ℕ) :
    Returns (check file machine abi) (Program.Ok file) := by
  unfold check
  refine Returns.failIf_bind fun hsize => Returns.failIf_bind fun hheader => ?_
  have hmax : file.length ≤ maxSize := not_lt.1 hsize
  have hlen : headerLen ≤ file.length := not_lt.1 fun hlt => hheader (Or.inl hlt)
  unfold maxSize headerLen at *
  have h8 : ∀ i, i < 64 → ∃ b, u8 file i = some b :=
    fun i hi => ⟨_, List.getElem?_eq_getElem (by omega)⟩
  have h16 : ∀ i, i + 2 ≤ 64 → u16 file i = some (u16At file i) := fun i hi => if_pos (by omega)
  have h64 : ∀ i, i + 8 ≤ 64 → u64 file i = some (u64At file i) := fun i hi => if_pos (by omega)
  obtain ⟨width, hwidth⟩ := h8 4 (by norm_num)
  obtain ⟨order, horder⟩ := h8 5 (by norm_num)
  refine Returns.lift_bind hwidth (Returns.failIf_bind fun _ => ?_)
  refine Returns.lift_bind horder (Returns.failIf_bind fun _ => ?_)
  refine Returns.lift_bind (h16 16 (by norm_num)) (Returns.failIf_bind fun _ => ?_)
  refine Returns.lift_bind (h16 18 (by norm_num)) (Returns.failIf_bind fun _ => ?_)
  refine Returns.lift_bind (h64 24 (by norm_num)) (Returns.lift_bind (h64 32 (by norm_num)) ?_)
  refine Returns.lift_bind (h16 54 (by norm_num)) (Returns.lift_bind (h16 56 (by norm_num)) ?_)
  refine Returns.failIf_bind fun _ => Returns.orFail_bind fun phdrs _ => ?_
  refine (returns_headers fun ph hph => length_of_mem_chunks hph).bind fun h hnotes => ?_
  exact returns_checkProgram _ _ fun n hn => (hnotes n hn).trans_lt (by omega)

end Returns

end RelayOs.Elf
