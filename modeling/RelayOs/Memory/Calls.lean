import RelayOs.Memory.Area
import RelayOs.Memory.User

/-!
# Sequences of calls on an address space

What the kernel does with a program's address space, between making it and destroying it, is
a sequence of the calls below. One statement says what a call does
(`RelayOs.Mm.Call.wp_run`), and by induction what any sequence of them does, whatever the
allocator answers: the pages stay the program's own, the regions stay in order, and the pages
of the `mem_map` area are those of the regions.
-/

namespace RelayOs.Mm

open Prog Vfs

/-! ### Calls -/

/-- **A call on an address space.** -/
inductive Call
  | mapZeroed (virt pages : ℕ) (perm : Perm)
  | fill (virt : ℕ) (bytes : Bytes)
  | mapArea (pages room : ℕ)
  | unmapArea (addr pages : ℕ)
  | read (addr len offset : ℕ) (buf : Bytes)
  | write (addr len offset : ℕ) (bytes : Bytes)

/-- What is answered. -/
inductive Answer
  | mapped (r : Except MapError Unit)
  | area (r : Except Errno ℕ)
  | done (r : Except Errno Unit)
  | bytes (r : Except Errno Unit) (buf : Bytes)

/-- The call failed. -/
def Answer.failed : Answer → Bool
  | mapped r => !r.isOk
  | area r => !r.isOk
  | done r => !r.isOk
  | bytes r _ => !r.isOk

namespace Call

/-- **The program behind a call.** -/
def run (sp : AddressSpace) : Call → Prog physMem (Answer × AddressSpace)
  | mapZeroed virt pages perm => do
    let r ← (AddressSpace.mapZeroed sp.pml4 virt pages perm).run
    return (.mapped r, sp)
  | fill virt bytes => do
    let r ← (AddressSpace.fill sp.pml4 virt bytes).run
    return (.mapped r, sp)
  | mapArea pages room => do
    let r ← sp.mapArea pages room
    return (.area r.1, r.2)
  | unmapArea addr pages => do
    let r ← sp.unmapArea addr pages
    return (.done r.1, r.2)
  | read addr len offset buf =>
    match UserSlice.new addr len with
    | .error e => return (.bytes (.error e) buf, sp)
    | .ok u => do
      let r ← u.read sp offset buf
      return (.bytes r.1 r.2, sp)
  | write addr len offset bytes =>
    match UserSlice.new addr len with
    | .error e => return (.done (.error e), sp)
    | .ok u => do
      let r ← u.write sp offset bytes
      return (.done r, sp)

/-- The calls one after another. -/
def runAll : List Call → AddressSpace → Prog physMem (List Answer × AddressSpace)
  | [], sp => return ([], sp)
  | c :: cs, sp => do
    let r ← c.run sp
    let rs ← runAll cs r.2
    return (r.1 :: rs.1, rs.2)

/-- The call maps no pages in the `mem_map` area but by `mem_map`. -/
def Outside : Call → Prop
  | mapZeroed virt pages _ => ∀ p ∈ pagesFrom virt pages, ¬InArea p
  | _ => True

/-! ### What a call does -/

/-- **What a call leaves behind.** -/
structure Post (c : Call) (B : Set ℕ) (sp : AddressSpace) (m : Pages) (r : Answer × AddressSpace)
    (m' : Pages) (s' : Mem) : Prop where
  pml4_eq : r.2.pml4 = sp.pml4
  ok : SpaceOk B r.2 m' s'
  zero : ∀ p f a, m p = none → m' p = some (f, a) → s'.content f = Mem.zeros
  area : c.Outside → AreaOk sp.maps m → AreaOk r.2.maps m'
  failed : r.1.failed = true → r.2.maps = sp.maps ∧ (c.Outside → ∀ p, InArea p → m' p = m p)
  unmaps : ∀ addr pages, c = .unmapArea addr pages →
    (r.1.failed = false ↔ CanUnmap sp.maps addr pages)

variable {B : Set ℕ} {sp : AddressSpace} {m : Pages} {s s' : Mem}

/-- A call that maps and unmaps nothing. -/
theorem Post.of_same {c : Call} {a : Answer} (h : SpaceOk B sp m s')
    (hc : ∀ addr pages, c ≠ .unmapArea addr pages) :
    Post c B sp m (a, sp) m s' where
  pml4_eq := rfl
  ok := h
  zero := fun p f b hnone hsome => by
    rw [hnone] at hsome
    cases hsome
  area := fun _ ha => ha
  failed := fun _ => ⟨rfl, fun _ _ _ => rfl⟩
  unmaps := fun addr pages he => absurd he (hc addr pages)

theorem zero_of_added {V : Set ℕ} {perm : Perm} {m' : Pages} (h : Added m s V perm m' s') :
    ∀ p f a, m p = none → m' p = some (f, a) → s'.content f = Mem.zeros := by
  intro p f a hnone hsome
  by_cases hp : p ∈ V
  · obtain ⟨-, g, hg, hzero⟩ := h.new p hp
    rw [hg, Option.some.injEq, Prod.mk.injEq] at hsome
    exact hsome.1 ▸ hzero
  · rw [h.old p hp, hnone] at hsome
    cases hsome

theorem pagesFrom_mono {v j n : ℕ} (h : j ≤ n) : pagesFrom v j ⊆ pagesFrom v n := fun _ hp =>
  ⟨hp.1, hp.2.trans_le (Nat.add_le_add_left h _)⟩

section

variable (h : SpaceOk B sp m s)

include h

theorem wp_run_mapZeroed (virt pages : ℕ) (perm : Perm) :
    wp (spec B) ((mapZeroed virt pages perm).run sp)
      (fun r s' => ∃ m', Post (.mapZeroed virt pages perm) B sp m r m' s') s := by
  rw [run, bind_eq, wp_bind]
  refine wp_mono (wp_mapZeroed h.has virt pages perm) fun r s' => ?_
  rintro ⟨m', hhas, hr⟩
  have hadded : ∃ j ≤ pages, Added m s (pagesFrom virt j) perm m' s' := by
    cases r with
    | ok _ => exact ⟨pages, le_rfl, hr.2⟩
    | error e =>
      obtain ⟨j, hj, hwhy⟩ := hr
      exact ⟨j, by omega, hj⟩
  obtain ⟨j, hj, hadded⟩ := hadded
  have hsame : (mapZeroed virt pages perm).Outside → ∀ p, InArea p → m' p = m p := fun hout p hp =>
    hadded.old p fun hc => hout p (pagesFrom_mono hj hc) hp
  exact ⟨m', rfl, ⟨hhas, h.maps⟩, zero_of_added hadded, fun hout ha => ha.congr (hsame hout),
    fun _ => ⟨rfl, hsame⟩, nofun⟩

theorem wp_run_mapArea (pages room : ℕ) :
    wp (spec B) ((mapArea pages room).run sp) (fun r s' => ∃ m',
      Post (.mapArea pages room) B sp m r m' s') s := by
  rw [run, bind_eq, wp_bind]
  refine wp_mono (wp_mapArea h pages room) fun r s' hr => ?_
  obtain ⟨r, sp'⟩ := r
  cases r with
  | error e =>
    obtain ⟨rfl, hok, -⟩ := hr
    exact ⟨m, Post.of_same hok nofun⟩
  | ok place =>
    obtain ⟨hpml4, m', hok, hadded, -, hcov⟩ := hr
    exact ⟨m', hpml4, hok, zero_of_added hadded, fun _ ha => ha.add hadded hcov, nofun, nofun⟩

theorem wp_run_unmapArea (addr pages : ℕ) :
    wp (spec B) ((unmapArea addr pages).run sp) (fun r s' => ∃ m',
      Post (.unmapArea addr pages) B sp m r m' s') s := by
  rw [run, bind_eq, wp_bind]
  refine wp_mono (wp_unmapArea h addr pages) fun r s' hr => ?_
  obtain ⟨r, sp'⟩ := r
  cases r with
  | error e =>
    obtain ⟨hnot, rfl, rfl⟩ := hr
    refine ⟨m, rfl, h, fun p f a hnone hsome => ?_, fun _ ha => ha,
      fun _ => ⟨rfl, fun _ _ _ => rfl⟩,
      fun addr' pages' he => ?_⟩
    · rw [hnone] at hsome
      cases hsome
    · cases he
      exact ⟨nofun, fun hcan => absurd hcan hnot⟩
  | ok _ =>
    obtain ⟨hcan, hpml4, hok, -, hcov⟩ := hr
    refine ⟨_, hpml4, hok, fun p f a hnone hsome => ?_, fun _ ha => ha.without hcov, nofun,
      fun addr' pages' he => ?_⟩
    · unfold without at hsome
      split at hsome
      · cases hsome
      · rw [hnone] at hsome
        cases hsome
    · cases he
      exact ⟨fun _ => hcan, fun _ => rfl⟩

/-- **What a call does**, whatever the allocator answers. -/
theorem wp_run (c : Call) :
    wp (spec B) (c.run sp) (fun r s' => ∃ m', Post c B sp m r m' s') s := by
  cases c with
  | mapZeroed virt pages perm => exact wp_run_mapZeroed h virt pages perm
  | mapArea pages room => exact wp_run_mapArea h pages room
  | unmapArea addr pages => exact wp_run_unmapArea h addr pages
  | fill virt bytes =>
    rw [run, bind_eq, wp_bind]
    exact wp_mono (wp_fill h.has virt bytes) fun r s' hr => ⟨m, Post.of_same ⟨hr.1, h.maps⟩ nofun⟩
  | read addr len offset buf =>
    rw [run]
    split
    · exact ⟨m, Post.of_same h nofun⟩
    · next u hu =>
      obtain ⟨rfl, hle⟩ := UserMemory.le_of_new hu
      obtain ⟨t, ht, rfl⟩ := h.has
      have hread := ht.wp_copy (UserSlice.wp_read_view ⟨addr, len⟩ ht rfl hle offset buf)
      rw [bind_eq, wp_bind]
      refine wp_mono hread fun r s' hr => ⟨_, Post.of_same ?_ nofun⟩
      exact hr.1 ▸ h
  | write addr len offset bytes =>
    rw [run]
    split
    · exact ⟨m, Post.of_same h nofun⟩
    · next u hu =>
      obtain ⟨rfl, hle⟩ := UserMemory.le_of_new hu
      obtain ⟨t, ht, rfl⟩ := h.has
      have hwrite := ht.wp_copy (UserSlice.wp_write_view ⟨addr, len⟩ ht rfl hle offset bytes)
      rw [bind_eq, wp_bind]
      exact wp_mono hwrite fun r s' hr => ⟨_, Post.of_same ⟨⟨t, hr.1, rfl⟩, h.maps⟩ nofun⟩

/-- **What a sequence of calls does.** -/
theorem wp_runAll (cs : List Call) :
    wp (spec B) (runAll cs sp) (fun r s' => r.2.pml4 = sp.pml4 ∧ ∃ m', SpaceOk B r.2 m' s' ∧
      ((∀ c ∈ cs, c.Outside) → AreaOk sp.maps m → AreaOk r.2.maps m')) s := by
  induction cs generalizing sp m s with
  | nil => exact ⟨rfl, m, h, fun _ ha => ha⟩
  | cons c cs ih =>
    unfold runAll
    simp only [bind_eq, wp_bind]
    refine wp_mono (wp_run h c) fun r s1 => ?_
    rintro ⟨m1, h1⟩
    refine wp_mono (ih h1.ok) fun r' s2 => ?_
    rintro ⟨hpml4, m2, h2, harea⟩
    refine ⟨hpml4.trans h1.pml4_eq, m2, h2, fun hout ha => ?_⟩
    obtain ⟨hc, hcs⟩ := List.forall_mem_cons.1 hout
    exact harea hcs (h1.area hc ha)

end

end Call

/-! ### A space from its making to its end -/

/-- What `user_page` answers for every address: the page of `m` that holds it. -/
def Answers (B : Set ℕ) (root : ℕ) (m : Pages) (s : Mem) : Prop :=
  ∀ virt, wp (spec B) (userPage root virt) (fun x s' => x = lookup m virt ∧ s' = s) s

theorem Has.answers {B : Set ℕ} {root : ℕ} {m : Pages} {s : Mem} (h : Has B root m s) :
    Answers B root m s :=
  fun _ => h.wp_userPage ⟨rfl, rfl⟩

/-- A space is made and the calls are done on it. -/
def history (kernel : ℕ) (cs : List Call) : MapM AddressSpace := do
  let sp ← AddressSpace.new kernel
  let r ← Call.runAll cs sp
  return r.2

theorem mapsOk_nil : MapsOk [] := ⟨List.Pairwise.nil, nofun, nofun, Nat.zero_le _⟩

theorem areaOk_noPages : AreaOk [] noPages := fun _ _ =>
  ⟨fun ⟨_, hr, _⟩ => absurd hr List.not_mem_nil, fun _ => rfl⟩

/-- **An address space through any sequence of calls**, over an allocator that may run out at
any point. All frames handed out before it was made are out of bounds. The regions are sorted,
apart, in the area and not too many; a page of the area is a user page, and read-write, exactly
if it lies in a region; no frame is mapped twice. A further call that fails leaves the
regions and the area's pages as they were, and pages are unmapped exactly if they can be.
Destroying the space gives back every frame taken since it was made, each once: what is
handed out then is what was handed out before. -/
theorem address_space_invariant {s : Mem} {kernel : ℕ} (hk : kernel ∈ s.taken) (cs : List Call)
    (hcs : ∀ c ∈ cs, c.Outside) :
    wp (spec (s.taken \ {kernel})) (history kernel cs).run (fun r s' =>
      match r with
      | .error e => e = .outOfMemory ∧ s' = s
      | .ok sp => ∃ m, Answers s.taken sp.pml4 m s' ∧ MapsOk sp.maps ∧ AreaOk sp.maps m ∧
          (∀ p q f a b, m p = some (f, a) → m q = some (f, b) → p = q) ∧
          (∀ c : Call, c.Outside → wp (spec s.taken) (c.run sp) (fun r s'' => ∃ m',
            Answers s.taken r.2.pml4 m' s'' ∧ c.Post s.taken sp m r m' s'') s') ∧
          wp (spec s.taken) sp.destroy (fun _ s'' => s''.taken = s.taken) s') s := by
  unfold history
  rw [wp_except_bind]
  refine wp_mono (wp_new hk) fun r s₁ hr => ?_
  cases r with
  | error e => exact ⟨hr.1, hr.2.2⟩
  | ok sp =>
    obtain ⟨hmaps, hhas, -⟩ := hr
    have hok : SpaceOk s.taken sp noPages s₁ := ⟨hhas, hmaps ▸ mapsOk_nil⟩
    simp only [wp_except_bind, wp_lift]
    refine wp_anti Set.sdiff_subset (wp_mono (Call.wp_runAll hok cs) fun r s' => ?_)
    rintro ⟨-, m, hok', harea⟩
    refine ⟨m, hok'.has.answers, hok'.maps, harea hcs (hmaps ▸ areaOk_noPages),
      fun p q f a b => hok'.has.inj,
      fun c _ => ?_, wp_destroy hok'.has⟩
    refine wp_mono (Call.wp_run hok' c) fun r' s'' => ?_
    rintro ⟨m', hpost⟩
    exact ⟨m', hpost.ok.has.answers, hpost⟩

/-- A memory with one frame handed out. -/
def oneFrame : Mem := ⟨{4096}, fun _ => Mem.zeros, True⟩

/-- Two pages of code, three pages of the area, one of which is given back. -/
def someCalls : List Call :=
  [.mapZeroed 0x400000 2 .readExec, .mapArea 3 100, .unmapArea (mapStart + page) 1]

theorem address_space_invariant_someCalls :
    wp (spec ({4096} \ {4096})) (history 4096 someCalls).run (fun r s' =>
      match r with
      | .error e => e = .outOfMemory ∧ s' = oneFrame
      | .ok sp => ∃ m, Answers {4096} sp.pml4 m s' ∧ MapsOk sp.maps ∧ AreaOk sp.maps m ∧
          (∀ p q f a b, m p = some (f, a) → m q = some (f, b) → p = q) ∧
          (∀ c : Call, c.Outside → wp (spec {4096}) (c.run sp) (fun r s'' => ∃ m',
            Answers {4096} r.2.pml4 m' s'' ∧ c.Post {4096} sp m r m' s'') s') ∧
          wp (spec {4096}) sp.destroy (fun _ s'' => s''.taken = {4096}) s') oneFrame := by
  refine address_space_invariant (s := oneFrame) rfl someCalls ?_
  intro c hc
  simp only [someCalls, List.mem_cons, List.not_mem_nil, or_false] at hc
  rcases hc with rfl | rfl | rfl
  · intro p hp hin
    unfold InArea mapStart at hin
    unfold pagesFrom page at *
    obtain ⟨-, hp⟩ := hp
    omega
  · trivial
  · trivial

/-- **No pages at all cannot be unmapped**: of an empty range every page lies in a region and
nothing is split, but the call is refused. -/
theorem unmap_area_no_pages :
    (∀ p ∈ pagesFrom mapStart 0, Covered [] p) ∧ ¬Splits [] mapStart (mapStart + 0 * page) ∧
      AddressSpace.unmapArea ⟨4096, []⟩ mapStart 0 = .ret (.error .EINVAL, ⟨4096, []⟩) := by
  refine ⟨fun p hp => ?_, fun ⟨_, hr, _⟩ => absurd hr List.not_mem_nil, rfl⟩
  rw [pagesFrom_zero] at hp
  exact absurd hp (Set.notMem_empty p)

end RelayOs.Mm
