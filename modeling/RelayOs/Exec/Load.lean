import RelayOs.Exec.Elf
import RelayOs.Memory.Image
import RelayOs.Memory.Calls

/-!
# A program in its address space

The loader maps a checked program's segments, each on pages with its permission, a stack of a
megabyte less a page below the top of the lower half, and copies the arguments and the
environment to the top of the stack.
-/

namespace RelayOs.Exec

open Prog Mm Vfs Elf

/-! ### The code -/

/-- The first address above the stack; the page from here up is never mapped. -/
def stackTop : ℕ := 0x7FFFFFFFF000

/-- The stack's pages: 1 MiB less one page. -/
def stackPages : ℕ := 255

/-- The lowest address of the stack; the page below it is the guard page. -/
def stackBottom : ℕ := stackTop - stackPages * page

/-- The most argument bytes a program gets. -/
def argsMax : ℕ := 64 * 1024

/-- The most environment bytes a program gets. -/
def envMax : ℕ := 64 * 1024

/-- **Where a program starts**: its first instruction, its stack pointer, its arguments' address,
length and count, and its environment's, all 0 for none. -/
structure Entry where
  ip : ℕ
  sp : ℕ
  args : ℕ
  argsLen : ℕ
  argc : ℕ
  env : ℕ
  envLen : ℕ
  envc : ℕ
  deriving DecidableEq, Repr

/-- The pages of a segment, by how it may be accessed. -/
def perm : Access → Perm
  | .readExec => .readExec
  | .read => .read
  | .readWrite => .readWrite

/-- The error of a mapping that failed: `ENOMEM` when the frames ran out. -/
def errno : MapError → Errno
  | .outOfMemory => .ENOMEM
  | _ => .ENOEXEC

/-- Strings for the new stack: `count` of them, each followed by a NUL, in `bytes`. -/
structure Strings where
  bytes : Bytes
  count : ℕ
  deriving DecidableEq, Repr

/-- A function of the loader's, which can fail. -/
abbrev LoadM (α : Type) := ExceptT Errno (Prog physMem) α

/-- A mapping as a step of the loader, its failure as an error number. -/
def withErrno {α : Type} (x : MapM α) : LoadM α :=
  ExceptT.mk (x.run.bind fun r => .ret (r.mapError errno))

/-- The value, or the error `e` if there is none. -/
def orErrno {α : Type} (e : Errno) : Option α → LoadM α
  | none => throw e
  | some a => pure a

/-- Maps and fills one segment. -/
def loadSegment (pml4 : ℕ) (file : Bytes) (s : Segment) : LoadM Unit := do
  let stop ← (ofOption s.stop : Prog physMem ℕ)
  let last ← (ofOption (nextMultipleOf stop page) : Prog physMem ℕ)
  let first := s.vaddr / page * page
  (need (first ≤ last) : Prog physMem Unit)
  withErrno (AddressSpace.mapZeroed pml4 first ((last - first) / page) (perm s.access))
  let bytes ← orErrno .ENOEXEC (range file s.offset s.filesz)
  withErrno (AddressSpace.fill pml4 s.vaddr bytes)

/-- Loads the segments one after the other. -/
def loadSegments (pml4 : ℕ) (file : Bytes) : List Segment → LoadM Unit
  | [] => return ()
  | s :: rest => do
    loadSegment pml4 file s
    loadSegments pml4 file rest

/-- The arguments lie at `argsAt` and the environment at `envAt`. -/
def entryAt (ip argsAt envAt : ℕ) (args env : Strings) : Entry where
  ip := ip
  sp := envAt / 16 * 16
  args := argsAt
  argsLen := args.bytes.length
  argc := args.count
  env := if env.bytes = [] then 0 else envAt
  envLen := env.bytes.length
  envc := env.count

/-- Copies the arguments to the top of the stack, and the environment just below them. They are no
longer than the stack. -/
def loadStrings (pml4 entry : ℕ) (args env : Strings) : LoadM Entry := do
  let argsAt := stackTop - args.bytes.length
  withErrno (AddressSpace.fill pml4 argsAt args.bytes)
  let envAt := argsAt - env.bytes.length
  withErrno (AddressSpace.fill pml4 envAt env.bytes)
  return entryAt entry argsAt envAt args env

/-- **Maps `program` and its stack**, with `args` at the top of the stack and `env` just below
them. On an error the caller destroys the space. -/
def load (pml4 : ℕ) (file : Bytes) (program : Program) (args env : Strings) : LoadM Entry := do
  loadSegments pml4 file program.segments
  withErrno (AddressSpace.mapZeroed pml4 stackBottom stackPages .readWrite)
  if argsMax < args.bytes.length ∨ envMax < env.bytes.length then throw .E2BIG
  else loadStrings pml4 program.entry args env

/-! ### The image of a program -/

/-- The pages of a segment: from this one … -/
def firstPage (s : Segment) : ℕ := s.vaddr / page

/-- Up to this one, which is not the segment's any more. -/
def endPage (s : Segment) : ℕ := (s.vaddr + s.memsz + (page - 1)) / page

/-- The page is one of the segment's. -/
def InSegment (s : Segment) (p : ℕ) : Prop := firstPage s ≤ p ∧ p < endPage s

/-- The segment, put where it belongs. -/
def place (file : Bytes) (I : Image) (s : Segment) : Image :=
  (I.add (s.vaddr / page * page) (endPage s - firstPage s) (perm s.access)).write s.vaddr
    (slice file s.offset s.filesz)

/-- The segments of a program. -/
def segmentsImage (file : Bytes) (segments : List Segment) : Image :=
  segments.foldl (place file) .empty

/-- **What a program finds** in its memory when it starts. -/
def image (file : Bytes) (program : Program) (args env : Strings) : Image :=
  (((segmentsImage file program.segments).add stackBottom stackPages .readWrite).write
    (stackTop - args.bytes.length) args.bytes).write
      (stackTop - args.bytes.length - env.bytes.length) env.bytes

section Place

variable {file : Bytes} {I : Image} {s t : Segment} {l : List Segment} {p x : ℕ}

/-- No two of the segments share a page. -/
def Apart (s t : Segment) : Prop := s.vaddr + s.memsz ≤ t.vaddr / page * page

theorem Apart.notMem (h : Apart s t) (hp : InSegment s p) : ¬InSegment t p := by
  unfold Apart InSegment firstPage endPage page at *
  omega

theorem firstPage_le_endPage (s : Segment) : firstPage s ≤ endPage s := by
  unfold firstPage endPage page
  omega

/-- An address of a segment is on one of its pages. -/
theorem inSegment_div (h1 : s.vaddr ≤ x) (h2 : x < s.vaddr + s.memsz) : InSegment s (x / page) := by
  unfold InSegment firstPage endPage page
  omega

theorem mem_pagesFrom_iff (s : Segment) (p : ℕ) :
    p ∈ pagesFrom (s.vaddr / page * page) (endPage s - firstPage s) ↔ InSegment s p := by
  have hle := firstPage_le_endPage s
  have hdiv : s.vaddr / page * page / page = firstPage s :=
    Nat.mul_div_cancel _ (by norm_num [page])
  unfold pagesFrom InSegment
  rw [hdiv, Set.mem_ofPred_eq]
  omega

theorem perm_place_of_mem (hp : InSegment s p) : (place file I s).perm p = some (perm s.access) :=
  if_pos ((mem_pagesFrom_iff s p).2 hp)

theorem perm_place_of_notMem (hp : ¬InSegment s p) : (place file I s).perm p = I.perm p :=
  if_neg fun hc => hp ((mem_pagesFrom_iff s p).1 hc)

theorem byte_place_of_mem (hs : s.Ok file) (h1 : s.vaddr ≤ x) (h2 : x < s.vaddr + s.memsz) :
    (place file I s).byte x =
      if x < s.vaddr + s.filesz then file.getD (s.offset + (x - s.vaddr)) 0 else 0 := by
  have hlen : (slice file s.offset s.filesz).length = s.filesz := length_slice hs.in_file
  have hzero :
      (I.add (s.vaddr / page * page) (endPage s - firstPage s) (perm s.access)).byte x = 0 :=
    if_pos ((mem_pagesFrom_iff s _).2 (inSegment_div h1 h2))
  simp only [place, Image.write, hlen, hzero]
  by_cases hx : x < s.vaddr + s.filesz
  · rw [if_pos ⟨h1, hx⟩, if_pos hx, getD_slice (by omega)]
  · rw [if_neg fun hc => hx hc.2, if_neg hx]

theorem byte_place_of_notMem (hs : s.Ok file) (hp : ¬InSegment s (x / page)) :
    (place file I s).byte x = I.byte x := by
  have hlen : (slice file s.offset s.filesz).length = s.filesz := length_slice hs.in_file
  have hout : ¬(s.vaddr ≤ x ∧ x < s.vaddr + s.filesz) := fun hc =>
    hp (inSegment_div hc.1 (hc.2.trans_le (Nat.add_le_add_left hs.filesz_le _)))
  simp only [place, Image.write, hlen, if_neg hout]
  exact if_neg fun hc => hp ((mem_pagesFrom_iff s _).1 hc)

theorem perm_foldl_place (hp : ∀ s ∈ l, ¬InSegment s p) :
    (l.foldl (place file) I).perm p = I.perm p := by
  induction l generalizing I with
  | nil => rfl
  | cons s l ih =>
    obtain ⟨hs, hl⟩ := List.forall_mem_cons.1 hp
    rw [List.foldl_cons, ih hl, perm_place_of_notMem hs]

theorem byte_foldl_place (hok : ∀ s ∈ l, s.Ok file) (hp : ∀ s ∈ l, ¬InSegment s (x / page)) :
    (l.foldl (place file) I).byte x = I.byte x := by
  induction l generalizing I with
  | nil => rfl
  | cons s l ih =>
    obtain ⟨hs, hl⟩ := List.forall_mem_cons.1 hp
    obtain ⟨hoks, hokl⟩ := List.forall_mem_cons.1 hok
    rw [List.foldl_cons, ih hokl hl, byte_place_of_notMem hoks hs]

/-- **Every segment is in the image**, with its permission and its bytes. -/
theorem segment_foldl_place (hok : ∀ s ∈ l, s.Ok file) (hapart : l.Pairwise Apart) (hs : s ∈ l)
    (h1 : s.vaddr ≤ x)
    (h2 : x < s.vaddr + s.memsz) :
    (l.foldl (place file) I).perm (x / page) = some (perm s.access) ∧
      (l.foldl (place file) I).byte x =
        if x < s.vaddr + s.filesz then file.getD (s.offset + (x - s.vaddr)) 0 else 0 := by
  induction l generalizing I with
  | nil => cases hs
  | cons t l ih =>
    obtain ⟨hokt, hokl⟩ := List.forall_mem_cons.1 hok
    obtain ⟨hapt, hapl⟩ := List.pairwise_cons.1 hapart
    rcases List.mem_cons.1 hs with rfl | hs
    · have hin := inSegment_div h1 h2
      have hout : ∀ u ∈ l, ¬InSegment u (x / page) := fun u hu => (hapt u hu).notMem hin
      rw [List.foldl_cons, perm_foldl_place hout, byte_foldl_place hokl hout, perm_place_of_mem hin,
        byte_place_of_mem hokt h1 h2]
      exact ⟨rfl, rfl⟩
    · exact ih hokl hapl hs

end Place

/-! ### Loading -/

section Load

variable {B : Set ℕ} {root : ℕ} {m : Pages} {σ : Mem} {I : Image} {file : Bytes} {s : Segment}
  {l : List Segment}

theorem wp_withErrno {α : Type} {sp : Spec physMem Mem} {x : MapM α}
    {Q : Except Errno α → Mem → Prop} :
    wp sp (withErrno x).run Q σ ↔ wp sp x.run (fun r => Q (r.mapError errno)) σ := wp_bind _ _

/-- What the loader leaves behind: an image, or a space to be destroyed for want of memory. -/
def Outcome (B : Set ℕ) (root : ℕ) {α : Type} (P : α → Image → Prop) (r : Except Errno α)
    (σ : Mem) : Prop :=
  ∃ m, Has B root m σ ∧
    match r with
    | .ok a => ∃ I, Shows m σ I ∧ P a I
    | .error e => e = .ENOMEM ∧ σ.short

theorem stop_eq (hs : s.Ok file) : s.stop = some (s.vaddr + s.memsz) := by
  have := hs.le_end
  unfold programEnd at this
  exact if_pos (by omega)

theorem nextMultipleOf_page (hs : s.Ok file) :
    nextMultipleOf (s.vaddr + s.memsz) page = some (endPage s * page) := by
  have := hs.le_end
  refine if_pos ?_
  unfold programEnd at this
  unfold page
  omega

theorem wp_loadSegment (hhas : Has B root m σ) (hI : Shows m σ I) (hs : s.Ok file)
    (hfree : ∀ p, InSegment s p → I.perm p = none) :
    wp (spec B) (loadSegment root file s).run
      (Outcome B root fun _ I' => I' = place file I s) σ := by
  have hle := hs.le_end
  have hpages : (endPage s * page - s.vaddr / page * page) / page = endPage s - firstPage s := by
    rw [← Nat.sub_mul]
    exact Nat.mul_div_cancel _ (by norm_num [page])
  unfold loadSegment
  simp only [wp_except_bind, wp_lift, wp_ofOption (stop_eq hs),
    wp_ofOption (nextMultipleOf_page hs), wp_need,
    wp_withErrno, hpages]
  refine ⟨?_, ?_⟩
  · unfold endPage page
    omega
  · refine wp_mono (hI.wp_mapZeroed hhas ?_ ?_ ?_ _) fun r σ1 => ?_
    · exact Nat.mul_mod_left _ _
    · unfold endPage firstPage lowerHalfEnd
      unfold programEnd at hle
      unfold page
      omega
    · exact fun p hp => hfree p ((mem_pagesFrom_iff s p).1 hp)
    · rintro ⟨m1, hhas1, hr⟩
      cases r with
      | error e =>
        obtain ⟨rfl, hshort⟩ := hr
        exact ⟨m1, hhas1, rfl, hshort⟩
      | ok _ =>
        have hlen : (slice file s.offset s.filesz).length = s.filesz := length_slice hs.in_file
        simp only [Except.mapError, hs.range_eq, orErrno, wp_except_pure]
        refine wp_mono (Shows.wp_fill hr hhas1 ?_ fun x h1 h2 => ?_) fun r σ2 => ?_
        · have := hs.filesz_le
          unfold programEnd at hle
          unfold lowerHalfEnd
          omega
        · have hin : InSegment s (x / page) := by
            rw [hlen] at h2
            exact inSegment_div h1 (h2.trans_le (Nat.add_le_add_left hs.filesz_le _))
          exact (@perm_place_of_mem file I s _ hin).trans_ne (Option.some_ne_none _)
        · rintro ⟨rfl, hhas2, hshows⟩
          exact ⟨m1, hhas2, _, hshows, rfl⟩

theorem wp_loadSegments (hhas : Has B root m σ) (hI : Shows m σ I) (hok : ∀ s ∈ l, s.Ok file)
    (hapart : l.Pairwise Apart)
    (hfree : ∀ s ∈ l, ∀ p, InSegment s p → I.perm p = none) :
    wp (spec B) (loadSegments root file l).run
      (Outcome B root fun _ I' => I' = l.foldl (place file) I) σ := by
  induction l generalizing m σ I with
  | nil => exact ⟨m, hhas, I, hI, rfl⟩
  | cons s l ih =>
    obtain ⟨hoks, hokl⟩ := List.forall_mem_cons.1 hok
    obtain ⟨hfrees, hfreel⟩ := List.forall_mem_cons.1 hfree
    obtain ⟨haps, hapl⟩ := List.pairwise_cons.1 hapart
    rw [loadSegments, wp_except_bind]
    refine wp_mono (wp_loadSegment hhas hI hoks hfrees) fun r σ1 => ?_
    rintro ⟨m1, hhas1, hr⟩
    cases r with
    | error e => exact ⟨m1, hhas1, hr⟩
    | ok _ =>
      obtain ⟨_, hI1, rfl⟩ := hr
      refine ih hhas1 hI1 hokl hapl fun t ht p hp => ?_
      rw [perm_place_of_notMem fun hc => (haps t ht).notMem hc hp]
      exact hfreel t ht p hp

theorem inSegment_lt_stack (hs : s.Ok file) {p : ℕ} (hp : InSegment s p) :
    p + 1 < stackBottom / page := by
  have := hs.le_end
  unfold InSegment endPage page at hp
  unfold programEnd at this
  have hbottom : stackBottom / page = 34359738112 := by decide
  rw [hbottom]
  omega

theorem stack_page {x : ℕ} (h1 : stackBottom ≤ x) (h2 : x < stackTop) :
    stackBottom / page ≤ x / page ∧ x / page < stackBottom / page + stackPages := by
  have hbottom : stackBottom = 0x7FFFFFF00000 := by decide
  rw [hbottom] at h1 ⊢
  unfold stackTop at h2
  unfold page stackPages
  omega

theorem wp_loadStrings {args env : Strings} (hhas : Has B root m σ) (hI : Shows m σ I) (ip : ℕ)
    (hstack : ∀ x, stackBottom ≤ x → x < stackTop → I.perm (x / page) ≠ none)
    (hlen : args.bytes.length + env.bytes.length ≤ stackTop - stackBottom) :
    wp (spec B) (loadStrings root ip args env).run (fun r σ' => Has B root m σ' ∧
      r = .ok (entryAt ip (stackTop - args.bytes.length)
        (stackTop - args.bytes.length - env.bytes.length) args env) ∧
      Shows m σ' ((I.write (stackTop - args.bytes.length) args.bytes).write
        (stackTop - args.bytes.length - env.bytes.length) env.bytes)) σ := by
  have htop : stackTop ≤ lowerHalfEnd := by decide
  have hbottom : stackBottom ≤ stackTop := by decide
  unfold loadStrings
  simp only [wp_except_bind, wp_withErrno]
  refine wp_mono (hI.wp_fill hhas (by omega) fun x h1 h2 => hstack x (by omega) (by omega))
    fun r σ1 => ?_
  rintro ⟨rfl, hhas1, hI1⟩
  refine wp_mono (hI1.wp_fill hhas1 (by omega) fun x h1 h2 => hstack x (by omega) (by omega))
    fun r σ2 => ?_
  rintro ⟨rfl, hhas2, hI2⟩
  exact ⟨hhas2, rfl, hI2⟩

/-- **Loading a checked program** into an empty space gives its image, unless memory runs out
or the strings are too long. -/
theorem wp_load {program : Program} (hhas : Has B root noPages σ) (hp : program.Ok file)
    (args env : Strings) :
    wp (spec B) (load root file program args env).run (fun r σ' => ∃ m, Has B root m σ' ∧
      match r with
      | .ok e => (args.bytes.length ≤ argsMax ∧ env.bytes.length ≤ envMax) ∧
          e = entryAt program.entry (stackTop - args.bytes.length)
            (stackTop - args.bytes.length - env.bytes.length) args env ∧
          Shows m σ' (image file program args env)
      | .error e => (e = .ENOMEM ∧ σ'.short) ∨
          (e = .E2BIG ∧ (argsMax < args.bytes.length ∨ envMax < env.bytes.length))) σ := by
  unfold load
  rw [wp_except_bind]
  refine wp_mono (wp_loadSegments hhas (shows_empty σ) hp.segments hp.apart fun _ _ _ _ => rfl)
    fun r σ1 => ?_
  rintro ⟨m1, hhas1, hr⟩
  cases r with
  | error e => exact ⟨m1, hhas1, Or.inl hr⟩
  | ok _ =>
    obtain ⟨_, hI1, rfl⟩ := hr
    simp only [wp_except_bind, wp_withErrno]
    refine wp_mono (hI1.wp_mapZeroed hhas1 (by decide) (by decide) (fun p hpage => ?_) .readWrite)
      fun r σ2 => ?_
    · refine (perm_foldl_place fun s hs hin => ?_).trans rfl
      have := inSegment_lt_stack (hp.segments s hs) hin
      have := hpage.1
      omega
    · rintro ⟨m2, hhas2, hr2⟩
      cases r with
      | error e =>
        obtain ⟨rfl, hshort⟩ := hr2
        exact ⟨m2, hhas2, Or.inl ⟨rfl, hshort⟩⟩
      | ok _ =>
        simp only [Except.mapError]
        split
        · next hlong => exact ⟨m2, hhas2, Or.inr ⟨rfl, hlong⟩⟩
        · next hshort =>
          rw [not_or, not_lt, not_lt] at hshort
          have hroom : argsMax + envMax ≤ stackTop - stackBottom := by decide
          refine wp_mono (wp_loadStrings hhas2 hr2 program.entry (fun x h1 h2 => ?_) (by omega))
            fun r σ3 => ?_
          · exact (if_pos (stack_page h1 h2)).trans_ne (Option.some_ne_none Perm.readWrite)
          · rintro ⟨hhas3, rfl, hI3⟩
            exact ⟨m2, hhas3, hshort, rfl, hI3⟩

end Load

/-! ### What the program finds -/

/-- **A program in its memory**: its segments with their permissions, the bytes of the file and
zeros after them; its entry point on a page of code; its stack, with nothing mapped below it;
its arguments and environment where the entry state says, above the stack pointer. -/
structure Loaded (file : Bytes) (program : Program) (args env : Strings) (e : Entry) (m : Pages)
    (σ : Mem) : Prop where
  segment : ∀ s ∈ program.segments, ∀ x, s.vaddr ≤ x → x < s.vaddr + s.memsz →
    (m (x / page)).map Prod.snd = some (perm s.access) ∧
      byteAt m σ x = some (if x < s.vaddr + s.filesz then file.getD
        (s.offset + (x - s.vaddr)) 0 else 0)
  ip : e.ip = program.entry ∧ (m (e.ip / page)).map Prod.snd = some .readExec
  stack : ∀ x, stackBottom ≤ x → x < stackTop → (m (x / page)).map Prod.snd = some .readWrite
  guard : m (stackBottom / page - 1) = none
  args_at : (e.argsLen = args.bytes.length ∧ e.argc = args.count) ∧
    ∀ i < args.bytes.length, byteAt m σ (e.args + i) = args.bytes[i]?
  env_at : (e.envLen = env.bytes.length ∧ e.envc = env.count ∧ (env.bytes = [] → e.env = 0)) ∧
    ∀ i < env.bytes.length, byteAt m σ (e.env + i) = env.bytes[i]?
  sp_ok : e.sp % 16 = 0 ∧ stackBottom ≤ e.sp ∧ e.sp ≤ e.args ∧ (env.bytes ≠ [] → e.sp ≤ e.env)

section Found

variable {file : Bytes} {program : Program} {args env : Strings} {m : Pages} {σ : Mem} {x : ℕ}

theorem perm_image_of_not_stack (hx : x / page < stackBottom / page) :
    (image file program args env).perm (x / page) =
      (segmentsImage file program.segments).perm (x / page) :=
  if_neg fun hc => absurd hc.1 (not_le.2 hx)

theorem byte_image_of_not_stack
    (hlen : args.bytes.length + env.bytes.length ≤ stackTop - stackBottom)
    (hx : x / page < stackBottom / page) :
    (image file program args env).byte x = (segmentsImage file program.segments).byte x := by
  have hlow : x < stackBottom := by
    by_contra hc
    exact absurd (Nat.div_le_div_right (not_lt.1 hc)) (not_le.2 hx)
  have hbottom : stackBottom ≤ stackTop := by decide
  simp only [image, Image.write]
  rw [if_neg (by omega), if_neg (by omega)]
  exact if_neg fun hc => absurd hc.1 (not_le.2 hx)

theorem byte_image_args {i : ℕ}
    (hlen : args.bytes.length + env.bytes.length ≤ stackTop - stackBottom)
    (hi : i < args.bytes.length) :
    (image file program args env).byte (stackTop - args.bytes.length + i) =
      args.bytes.getD i 0 := by
  have hbottom : stackBottom ≤ stackTop := by decide
  simp only [image, Image.write]
  rw [if_neg (by omega), if_pos (by omega), Nat.add_sub_cancel_left]

theorem byte_image_env {i : ℕ} (hi : i < env.bytes.length) :
    (image file program args env).byte (stackTop - args.bytes.length - env.bytes.length + i) =
      env.bytes.getD i 0 := by
  simp only [image, Image.write]
  rw [if_pos (by omega), Nat.add_sub_cancel_left]

theorem perm_image_stack (h1 : stackBottom ≤ x) (h2 : x < stackTop) :
    (image file program args env).perm (x / page) = some .readWrite := if_pos (stack_page h1 h2)

theorem Loaded.of_shows (hp : program.Ok file) (hargs : args.bytes.length ≤ argsMax)
    (henv : env.bytes.length ≤ envMax)
    (h : Shows m σ (image file program args env)) :
    Loaded file program args env (entryAt program.entry (stackTop - args.bytes.length)
      (stackTop - args.bytes.length - env.bytes.length) args env) m σ := by
  have hroom : argsMax + envMax + 16 ≤ stackTop - stackBottom := by decide
  have hbottom : stackBottom ≤ stackTop := by decide
  have hsegment : ∀ s ∈ program.segments, ∀ x, s.vaddr ≤ x → x < s.vaddr + s.memsz →
      (m (x / page)).map Prod.snd = some (perm s.access) ∧
        byteAt m σ x = some (if x < s.vaddr + s.filesz then file.getD (s.offset + (x - s.vaddr))
          0 else 0) := by
    intro s hs x h1 h2
    have hlow := inSegment_lt_stack (hp.segments s hs) (inSegment_div h1 h2)
    obtain ⟨hperm, hbyte⟩ := segment_foldl_place (I := .empty) hp.segments hp.apart hs h1 h2
    rw [h.perm, h.byte, perm_image_of_not_stack (by omega),
      byte_image_of_not_stack (by omega) (by omega), segmentsImage,
      hperm, hbyte]
    exact ⟨rfl, rfl⟩
  have hstring : ∀ (data : Bytes) (v : ℕ), stackBottom ≤ v → v + data.length ≤ stackTop →
      (∀ i < data.length, (image file program args env).byte (v + i) = data.getD i 0) →
      ∀ i < data.length, byteAt m σ (v + i) = data[i]? := by
    intro data v h1 h2 hbyte i hi
    rw [h.byte, perm_image_stack (by omega) (by omega), Option.map_some, hbyte i hi,
      List.getD_eq_getElem?_getD,
      List.getElem?_eq_getElem hi, Option.getD_some]
  refine ⟨hsegment, ⟨rfl, ?_⟩, fun x h1 h2 => ?_, ?_, ⟨⟨rfl, rfl⟩, ?_⟩,
    ⟨⟨rfl, rfl, fun hnil => if_pos hnil⟩, ?_⟩, ?_⟩
  · obtain ⟨s, hs, haccess, h1, h2⟩ := hp.entry
    rw [entryAt, (hsegment s hs _ h1 h2).1, haccess]
    rfl
  · rw [h.perm, perm_image_stack h1 h2]
  · have hguard : stackBottom / page - 1 = (stackBottom - page) / page := by decide
    rw [h.eq_none, hguard, perm_image_of_not_stack (by decide), segmentsImage]
    refine (perm_foldl_place fun s hs hin => ?_).trans rfl
    have hlow := inSegment_lt_stack (hp.segments s hs) hin
    rw [← hguard] at hlow
    omega
  · exact hstring args.bytes (stackTop - args.bytes.length) (by omega) (by omega) fun i hi =>
      byte_image_args (by omega) hi
  · intro i hi
    have hne : env.bytes ≠ [] := List.ne_nil_of_length_pos (by omega)
    have hat : (entryAt program.entry (stackTop - args.bytes.length)
      (stackTop - args.bytes.length - env.bytes.length) args env).env =
        stackTop - args.bytes.length - env.bytes.length := if_neg hne
    rw [hat]
    exact hstring env.bytes _ (by omega) (by omega) (fun i hi => byte_image_env hi) i hi
  · simp only [entryAt]
    have hbase : stackBottom % 16 = 0 := by decide
    refine ⟨Nat.mul_mod_left _ _, by omega, by omega, fun hne => ?_⟩
    rw [if_neg hne]
    exact Nat.div_mul_le_self _ _

end Found

/-! ### Checked programs load -/

/-- A fresh space with the program in it. -/
def loadFresh (kernel : ℕ) (file : Bytes) (program : Program) (args env : Strings) :
    LoadM (AddressSpace × Entry) := do
  let space ← withErrno (AddressSpace.new kernel)
  let entry ← load space.pml4 file program args env
  return (space, entry)

/-- No page can be written and executed: the entry the processor finds for an address of the
lower half does not allow both. -/
def WriteXorExecute (B : Set ℕ) (root : ℕ) (σ : Mem) : Prop :=
  ∀ virt < lowerHalfEnd, wp (spec B) (leafEntry root virt) (fun r σ' => σ' = σ ∧
    ∀ w, r = some w → w &&& present ≠ 0 → w &&& writable ≠ 0 → w &&& noExecute ≠ 0) σ

theorem writeXorExecute_of_has {B : Set ℕ} {root : ℕ} {m : Pages} {σ : Mem} (h : Has B root m σ) :
    WriteXorExecute B root σ := by
  obtain ⟨t, ht, rfl⟩ := h
  intro virt hvirt
  refine wp_anti Set.subset_union_left
    (wp_mono (wp_leafEntry ht.holds (lowerHalf_has hvirt)) fun r σ' => ?_)
  rintro ⟨rfl, hr⟩
  refine ⟨rfl, ?_⟩
  rintro w rfl hpresent hwritable
  cases hnode : t.node 0 (pos virt 0) with
  | none =>
    simp only [hnode] at hr
    exact absurd hr.present_eq hpresent
  | some x =>
    simp only [hnode] at hr
    exact hr.noExecute_ne hwritable

/-- **Checked programs load.** The check returns, whatever the file, without an index out of
range or an overflow. A program it lets through, with arguments and an environment of at most
64 KiB each, is loaded into a fresh space over any allocator: the loader fails only with
`ENOMEM`, and only if the allocator can run out of frames; else the program's memory is as it
should be. -/
theorem checked_programs_load (file : Bytes) (machine abi : ℕ) :
    ∃ r, (check file machine abi).run = some r ∧
    ∀ program, r = .ok program → ∀ args env : Strings, args.bytes.length ≤ argsMax →
      env.bytes.length ≤ envMax →
      ∀ (σ : Mem) (kernel : ℕ), kernel ∈ σ.taken →
        wp (spec (σ.taken \ {kernel})) (loadFresh kernel file program args env).run (fun r σ' =>
          match r with
          | .error e => e = .ENOMEM ∧ σ.short
          | .ok (space, e) => ∃ m, Answers σ.taken space.pml4 m σ' ∧
              WriteXorExecute σ.taken space.pml4 σ' ∧
              Loaded file program args env e m σ') σ := by
  obtain ⟨r, hr, hok⟩ := check_returns file machine abi
  refine ⟨r, hr, fun program hprogram args env hargs henv σ kernel hk => ?_⟩
  have hp := hok program hprogram
  unfold loadFresh
  simp only [wp_except_bind, wp_withErrno]
  refine wp_mono (wp_short (wp_new hk)) fun r σ₁ hr₁ => ?_
  cases r with
  | error e =>
    obtain ⟨⟨rfl, hshort, -⟩, -⟩ := hr₁
    exact ⟨rfl, hshort⟩
  | ok space =>
    obtain ⟨⟨-, hhas, -⟩, hsame⟩ := hr₁
    simp only [Except.mapError]
    refine wp_anti Set.sdiff_subset (wp_mono (wp_short (wp_load hhas hp args env)) fun r σ₂ => ?_)
    rintro ⟨⟨m, hhas₂, hr₂⟩, hsame₂⟩
    cases r with
    | error e =>
      rcases hr₂ with ⟨rfl, hshort⟩ | ⟨-, hlong⟩
      · exact ⟨rfl, by rwa [hsame₂, hsame] at hshort⟩
      · omega
    | ok e =>
      obtain ⟨-, rfl, hshows⟩ := hr₂
      exact ⟨m, hhas₂.answers, writeXorExecute_of_has hhas₂, Loaded.of_shows hp hargs henv hshows⟩

/-- A file of 200 bytes: the header, a segment of code that is the whole file, and a note. -/
def tinyFile : Bytes :=
  [0x7f, 0x45, 0x4c, 0x46, 2, 1] ++ List.replicate 10 0 ++ u16Bytes 2 ++
    u16Bytes 62 ++ u32Bytes 1 ++
  u32Bytes 0x4000B0 ++ u32Bytes 0 ++ u32Bytes 64 ++ u32Bytes 0 ++ List.replicate 14 0 ++
    u16Bytes 56 ++ u16Bytes 2 ++
  List.replicate 6 0 ++
  u32Bytes 1 ++ u32Bytes 5 ++ u32Bytes 0 ++ u32Bytes 0 ++ u32Bytes 0x400000 ++
    List.replicate 12 0 ++
  u32Bytes 200 ++ u32Bytes 0 ++ u32Bytes 5000 ++ List.replicate 12 0 ++
  u32Bytes 4 ++ u32Bytes 4 ++ u32Bytes 176 ++ u32Bytes 0 ++ u32Bytes 0x4000B0 ++
    List.replicate 12 0 ++
  u32Bytes 24 ++ u32Bytes 0 ++ u32Bytes 24 ++ List.replicate 12 0 ++
  u32Bytes 6 ++ u32Bytes 4 ++ u32Bytes 1 ++ noteName ++ [0, 0, 0] ++ u32Bytes 1

/-- A program of one segment, most of it beyond the file. -/
def tinyProgram : Program := ⟨0x4000B0, [⟨0x400000, 5000, 0, 200, .readExec⟩]⟩

theorem checked_programs_load_tinyFile :
    (check tinyFile 62 1).run = some (.ok tinyProgram) ∧
      wp (spec ({4096} \ {4096}))
        (loadFresh 4096 tinyFile tinyProgram ⟨[97, 0], 1⟩ ⟨[], 0⟩).run (fun r σ' =>
        match r with
        | .error e => e = .ENOMEM ∧ True
        | .ok (space, e) => ∃ m, Answers {4096} space.pml4 m σ' ∧
            WriteXorExecute {4096} space.pml4 σ' ∧
            Loaded tinyFile tinyProgram ⟨[97, 0], 1⟩ ⟨[], 0⟩ e m σ') oneFrame := by
  have hcheck : (check tinyFile 62 1).run = some (.ok tinyProgram) := by decide +kernel
  obtain ⟨r, hr, hload⟩ := checked_programs_load tinyFile 62 1
  rw [hcheck] at hr
  exact ⟨hcheck, hload tinyProgram (Option.some.inj hr).symm _ _ (by decide)
    (by decide) oneFrame 4096 rfl⟩

end RelayOs.Exec
