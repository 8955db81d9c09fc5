import RelayOs.Ext2.CacheTransparent

/-!
# Runs of the block cache

A run is a list of calls, made one after the other on a cache over a device that fails
as it likes. What the caller may expect of it is said by a store that has no cache and
no device at all: a map from block numbers to contents, in which a call that succeeded
has its effect and a call that failed has none
(`RelayOs.Ext2.BlockCache.contentAfter`).
-/

namespace RelayOs.Ext2

open Vfs

namespace BlockCache

/-- A call on the cache, with what its caller does to the block it gets for changing. -/
inductive Call
  | read (b : ℕ)
  | write (b : ℕ) (f : Edit)
  | zeroed (b : ℕ) (f : Edit)
  | sync

/-- Makes a call. A call for changing gives what the block held before the change. -/
def Call.run : Call → BlockCache → Option (Except Errno Bytes × BlockCache)
  | .read b, c => c.read b
  | .write b f, c => c.writeWith b f
  | .zeroed b f, c => c.zeroedWith b f
  | .sync, c => c.sync.map fun rc => (rc.1.map fun _ => [], rc.2)

/-- Makes the calls of a run one after the other, and lists them with their results. -/
def runCalls : List Call → BlockCache → Option (List (Call × Except Errno Bytes) × BlockCache)
  | [], c => some ([], c)
  | call :: calls, c => do
    let (r, c) ← call.run c
    let (trace, c) ← runCalls calls c
    some ((call, r) :: trace, c)

/-! ### The store without a cache -/

/-- What a call presents if it succeeds, in a store of blocks of `n` bytes. -/
def Call.presents (n : ℕ) (m : ℕ → Bytes) : Call → Bytes
  | .read b => m b
  | .write b _ => m b
  | .zeroed _ _ => List.replicate n 0
  | .sync => []

/-- What the store holds after a call. -/
def Call.next (n : ℕ) (m : ℕ → Bytes) : Call → Except Errno Bytes → ℕ → Bytes
  | .write b f, .ok _ => Function.update m b (f.apply (m b))
  | .zeroed b f, .ok _ => Function.update m b (f.apply (List.replicate n 0))
  | _, _ => m

/-- **The last content given to each block** by the calls of a trace, over what the
store held at first. -/
def contentAfter (n : ℕ) (m : ℕ → Bytes) (trace : List (Call × Except Errno Bytes)) : ℕ → Bytes :=
  trace.foldl (fun m cr => cr.1.next n m cr.2) m

/-! ### One call -/

theorem ite_eq_update {m : ℕ → Bytes} {b : ℕ} {d : Bytes} :
    (fun b' => if b' = b then d else m b') = Function.update m b d := by
  funext b'
  rw [Function.update_apply]

/-- **One call**: it never stops dead, presents what the store holds, moves the store on,
and leaves every dirty block dirty until the device has it. -/
theorem call_spec {c : BlockCache} (hc : c.Inv) (call : Call) :
    ∃ r c', call.run c = some (r, c') ∧ c'.Inv ∧ DeviceSteps c c' ∧ Kept c c' ∧
      c'.view = call.next c.blockSize c.view r ∧
      ∀ d, r = .ok d → d = call.presents c.blockSize c.view := by
  cases call with
  | read b =>
    obtain ⟨r, c', h, ⟨hs, hc', hview⟩, hok, -⟩ := read_spec hc b
    exact ⟨r, c', h, hc', hs.toDeviceSteps, hs.kept, funext hview, hok⟩
  | write b f =>
    obtain ⟨r, c', h, herr, hok, -⟩ := writeWith_spec hc b f
    cases r with
    | error e =>
      obtain ⟨hs, hc', hview⟩ := herr e rfl
      exact ⟨_, c', h, hc', hs.toDeviceSteps, hs.kept, funext hview, nofun⟩
    | ok d =>
      obtain ⟨rfl, ho⟩ := hok d rfl
      refine ⟨_, c', h, ho.inv, ho.toDeviceSteps, ho.kept, ?_, fun d hd => by cases hd; rfl⟩
      exact (funext ho.view_eq).trans ite_eq_update
  | zeroed b f =>
    obtain ⟨r, c', h, herr, hok, -⟩ := zeroedWith_spec hc b f
    cases r with
    | error e =>
      obtain ⟨hs, hc', hview⟩ := herr e rfl
      exact ⟨_, c', h, hc', hs.toDeviceSteps, hs.kept, funext hview, nofun⟩
    | ok d =>
      obtain ⟨rfl, ho⟩ := hok d rfl
      refine ⟨_, c', h, ho.inv, ho.toDeviceSteps, ho.kept, ?_, fun d hd => by cases hd; rfl⟩
      exact (funext ho.view_eq).trans ite_eq_update
  | sync =>
    obtain ⟨r, c', h, ⟨hs, hc', hview⟩, -, -⟩ := sync_spec hc
    refine ⟨_, c', by simp only [Call.run, h]; rfl, hc', hs.toDeviceSteps, hs.kept, ?_, ?_⟩
    · cases r <;> exact funext hview
    · intro d hd
      cases r with
      | error e => cases hd
      | ok u =>
        cases hd
        rfl

/-! ### Runs -/

/-- **A run from any point on**: it never stops dead, and at its end the cache presents
what the store holds. -/
theorem runCalls_spec (calls : List Call) :
    ∀ {c : BlockCache}, c.Inv → ∃ trace c', runCalls calls c = some (trace, c') ∧
      trace.map Prod.fst = calls ∧ c'.Inv ∧ c'.blockSize = c.blockSize ∧
      c'.view = contentAfter c.blockSize c.view trace ∧
      ∀ pre call d post, trace = pre ++ (call, .ok d) :: post →
        d = call.presents c.blockSize (contentAfter c.blockSize c.view pre) := by
  induction calls with
  | nil =>
    intro c hc
    refine ⟨[], c, rfl, rfl, hc, rfl, rfl, fun pre call d post h => ?_⟩
    cases pre <;> cases h
  | cons call calls ih =>
    intro c hc
    obtain ⟨r, c1, h1, hc1, hd1, -, hnext, hpres⟩ := call_spec hc call
    obtain ⟨trace, c', h', hmap, hc', hsize, hview, htrace⟩ := ih hc1
    rw [hd1.blockSize_eq] at hsize hview htrace
    rw [hnext] at hview htrace
    refine ⟨(call, r) :: trace, c', ?_, ?_, hc', hsize, hview, fun pre call' d post h => ?_⟩
    · simp only [runCalls, h1, h', Option.bind_eq_bind, Option.bind_some]
    · rw [List.map_cons, hmap]
    · -- the call is the first one, or one of the rest
      cases pre with
      | nil =>
        cases h
        exact hpres d rfl
      | cons p pre =>
        rw [List.cons_append, List.cons.injEq] at h
        rw [← h.1]
        exact htrace pre call' d post h.2

/-- A new cache presents what the device holds. -/
theorem new_spec {dev : Device} {blockSize capacityBytes : ℕ} {c : BlockCache}
    (h : new dev blockSize capacityBytes = .ok c) :
    c.Inv ∧ (∀ b, ¬c.DirtyAt b) ∧ c.dev = dev ∧ c.blockSize = blockSize ∧
      c.scale = blockSize / dev.blockSize := by
  unfold new at h
  split at h
  · cases h
  rename_i hne
  rw [not_or, not_or, not_not] at hne
  obtain ⟨hdev, hsize, hmod⟩ := hne
  cases h
  have hdiv := Nat.div_add_mod blockSize dev.blockSize
  have hempty : ∀ b : ℕ, (∅ : Std.TreeMap ℕ Entry)[b]? = none := fun b =>
    Std.TreeMap.getElem?_emptyc
  have hlru : ∀ b : ℕ, (∅ : Std.TreeMap ℕ ℕ)[b]? = none := fun b =>
    Std.TreeMap.getElem?_emptyc
  refine ⟨⟨Nat.pos_of_ne_zero hdev, ?_, ?_, Nat.le_max_right _ _, ?_, ?_, ?_, ?_, rfl, ?_⟩, ?_,
    rfl, rfl, rfl⟩
  · exact Nat.div_pos (Nat.le_of_dvd (Nat.pos_of_ne_zero hsize) (Nat.dvd_of_mod_eq_zero hmod))
      (Nat.pos_of_ne_zero hdev)
  · change blockSize = blockSize / dev.blockSize * dev.blockSize
    rw [Nat.mul_comm]
    omega
  · intro b e he
    rw [hempty] at he
    cases he
  · intro b e he
    rw [hempty] at he
    cases he
  · intro b b' e e' he
    rw [hempty] at he
    cases he
  · intro t b
    simp only [hlru, hempty]
    exact ⟨nofun, nofun⟩
  · intro b e _ he
    rw [hempty] at he
    cases he
  · rintro b ⟨e, he, -⟩
    rw [hempty] at he
    cases he

/-- **The cache is transparent**, over every run of calls and every pattern of device
failures: a successful call presents the last content given to its block, or the
device's original content; what a block holds is on the device or waits in the cache,
dirty, and it waits there until a device write of it goes through; and a `sync` that
succeeds leaves every content on the device and nothing dirty. -/
theorem run_transparent (dev : Device) (blockSize capacityBytes : ℕ) (c₀ : BlockCache)
    (h : new dev blockSize capacityBytes = .ok c₀) (calls : List Call) :
    let original := fun b =>
      dev.span (b * (blockSize / dev.blockSize)) (blockSize / dev.blockSize)
    ∃ trace c, runCalls calls c₀ = some (trace, c) ∧ trace.map Prod.fst = calls ∧
      (∀ pre call d post, trace = pre ++ (call, .ok d) :: post →
        d = call.presents blockSize (contentAfter blockSize original pre)) ∧
      (∀ b, c.DirtyAt b ∨ c.onDevice b = contentAfter blockSize original trace b) ∧
      (∀ (call : Call) r c', call.run c = some (r, c') → Kept c c') ∧
      ∀ c', c.sync = some (.ok (), c') →
        (∀ b, c'.onDevice b = contentAfter blockSize original trace b) ∧ c'.dirtyBlocks = 0 := by
  intro original
  obtain ⟨hc₀, hclean, hdev, hsize, hscale⟩ := new_spec h
  have hview : c₀.view = original := by
    funext b
    rw [view_of_not_dirty hc₀ (hclean b), onDevice, hdev, hscale]
  obtain ⟨trace, c, hrun, hmap, hc, -, hviewc, htrace⟩ := runCalls_spec calls hc₀
  rw [hsize, hview] at hviewc htrace
  refine ⟨trace, c, hrun, hmap, htrace, fun b => ?_, fun call r c' hcall => ?_, fun c' hsync => ?_⟩
  · by_cases hb : c.DirtyAt b
    · exact Or.inl hb
    · exact Or.inr (by rw [← hviewc, view_of_not_dirty hc hb])
  · obtain ⟨r', c'', hcall', -, -, hkept, -⟩ := call_spec hc call
    rw [hcall] at hcall'
    cases hcall'
    exact hkept
  · obtain ⟨r, c'', hsync', ⟨-, hc', hviewc'⟩, hnone, -⟩ := sync_spec hc
    rw [hsync] at hsync'
    cases hsync'
    refine ⟨fun b => ?_, ?_⟩
    · rw [← view_of_not_dirty hc' (hnone rfl b), hviewc', hviewc]
    · rw [dirtyBlocks, hc'.dirty_eq]
      refine List.length_eq_zero_iff.mpr (List.eq_nil_iff_forall_not_mem.mpr fun b hb => ?_)
      exact hnone rfl b (mem_dirtyList.mp hb)

/-- A device of eight two-byte blocks whose first request fails. -/
def failsFirst : Device where
  blockSize := 2
  blockCount := 8
  data := fun _ => ⟨[0, 0], rfl⟩
  fault := fun t => if t = 0 then some fun _ old _ => old else none
  asked := 0
  history := []

/-- Overwriting a block with ones. -/
def fillOnes : Edit := ⟨fun d => List.replicate d.length 1, fun _ => List.length_replicate⟩

theorem run_transparent_failsFirst :
    ∃ c₀, new failsFirst 4 0 = .ok c₀ ∧ ∃ trace c,
      runCalls [.read 0, .read 0, .write 0 fillOnes, .sync] c₀ = some (trace, c) ∧
      ∀ c', c.sync = some (.ok (), c') → c'.dirtyBlocks = 0 := by
  refine ⟨_, rfl, ?_⟩
  obtain ⟨trace, c, hrun, -, -, -, -, hsync⟩ :=
    run_transparent failsFirst 4 0 _ rfl [.read 0, .read 0, .write 0 fillOnes, .sync]
  exact ⟨trace, c, hrun, fun c' h => (hsync c' h).2⟩

end BlockCache

end RelayOs.Ext2
