import RelayOs.Usb.Bus

/-!
# Cutting a disk request into commands

A mass-storage disk takes requests of any number of blocks and sends them on as READ(10) or
WRITE(10) commands, each as large as a transfer may be. The commands name blocks with 32 bits
and counts with 16; what was asked of the disk is of 64 bits. The transport's answers are the
input here, whatever they are.

The main result is `RelayOs.Usb.request_covers`: a request is refused without a command, or
the commands cover what was asked up to the first that fails, and the disk is given up exactly
if a command was not answered.
-/

namespace RelayOs.Usb

/-- **What READ CAPACITY answers.** -/
structure Capacity where
  blockSize : ℕ
  lastLba : ℕ

/-- The block size and the number of blocks, from what READ CAPACITY(10) and (16) answer. -/
def capacity (ten : Capacity) (sixteen : Except UsbError Capacity) : Except UsbError (ℕ × ℕ) :=
  match if ten.lastLba = 0xFFFFFFFF then sixteen else .ok ten with
  | .error e => .error e
  | .ok cap =>
    if cap.blockSize ∉ [512, 1024, 2048, 4096] then .error (.unsupported "block size")
    else if 0xFFFFFFFF < cap.lastLba then .error (.unsupported "over 2^32 blocks")
    else .ok (cap.blockSize, cap.lastLba + 1)

/-- **A disk**: its size, and whether it was given up as not answering. -/
structure Disk where
  blockSize : ℕ
  blockCount : ℕ
  notAnswering : Bool
  deriving DecidableEq

/-- **A command as it is sent**: its block, and the part of the buffer that goes with it. -/
structure Command where
  cdb : List UInt8
  offset : ℕ
  len : ℕ
  deriving DecidableEq

/-- The operation code of READ(10). -/
def read10 : UInt8 := 0x28

/-- The operation code of WRITE(10). -/
def write10 : UInt8 := 0x2A

/-- The address is narrowed to 32 bits and the count to 16, both big-endian. -/
def rw10 (opcode : UInt8) (lba blocks : ℕ) : List UInt8 :=
  let lba := lba % 2 ^ 32
  let blocks := blocks % 2 ^ 16
  [opcode, 0, .ofNat (lba / 2 ^ 24), .ofNat (lba / 2 ^ 16), .ofNat (lba / 2 ^ 8), .ofNat lba, 0,
    .ofNat (blocks / 2 ^ 8), .ofNat blocks, 0]

/-- One command, whose answer – that of its last try – is `r`: a timeout gives the disk up. -/
def Disk.command (d : Disk) (r : Except UsbError ℕ) : Disk :=
  if r = .error .timeout then { d with notAnswering := true } else d

/-- The command for part `i` of a buffer of `len` bytes. -/
def Disk.part (d : Disk) (opcode : UInt8) (lba len i : ℕ) : Command :=
  let bytes := min maxBulk (len - i * maxBulk)
  ⟨rw10 opcode (lba + i * (maxBulk / d.blockSize)) (bytes / d.blockSize), i * maxBulk, bytes⟩

/-- **What a request comes to**: the commands it sent, its answer and the disk left behind. -/
abbrev Disk.Outcome := List Command × Except UsbError Unit × Disk

/-- The loop over the parts of the buffer, from part `i` on; `answer i` is what the transport
answers to command `i`. -/
def Disk.sendFrom (opcode : UInt8) (lba len : ℕ) (answer : ℕ → Except UsbError ℕ) :
    ℕ → ℕ → Disk → Disk.Outcome
  | 0, _, d => ([], .ok (), d)
  | turns + 1, i, d =>
    if len ≤ i * maxBulk then ([], .ok (), d) else
    match answer i with
    | .error e => ([d.part opcode lba len i], .error e, d.command (.error e))
    | .ok n =>
      let (rest, r, d') := sendFrom opcode lba len answer turns (i + 1) (d.command (.ok n))
      (d.part opcode lba len i :: rest, r, d')

/-- Checks the request, then sends one command per `maxBulk` bytes. -/
def Disk.request (d : Disk) (opcode : UInt8) (lba len : ℕ) (answer : ℕ → Except UsbError ℕ) :
    Disk.Outcome :=
  if d.notAnswering then ([], .error .timeout, d)
  else if len % d.blockSize ≠ 0 then ([], .error (.unsupported "not whole blocks"), d)
  else if ¬(lba + len / d.blockSize < 2 ^ 64 ∧ lba + len / d.blockSize ≤ d.blockCount) then
    ([], .error (.unsupported "past the end of the disk"), d)
  else d.sendFrom opcode lba len answer (len / maxBulk + 1) 0

/-- Reads blocks from `lba` on into a buffer of `len` bytes. -/
def Disk.read (d : Disk) (lba len : ℕ) (answer : ℕ → Except UsbError ℕ) : Disk.Outcome :=
  d.request read10 lba len answer

/-- Writes a buffer of `len` bytes to the blocks from `lba` on. -/
def Disk.write (d : Disk) (lba len : ℕ) (answer : ℕ → Except UsbError ℕ) : Disk.Outcome :=
  d.request write10 lba len answer

/-- **A request of the disk.** -/
inductive Request
  | read (lba len : ℕ)
  | write (lba len : ℕ)

/-- One request, with what the transport answers to its commands. -/
def Disk.perform (d : Disk) (answer : ℕ → Except UsbError ℕ) : Request → Disk.Outcome
  | .read lba len => d.read lba len answer
  | .write lba len => d.write lba len answer

/-- **A run of requests**: what each sent and was answered. -/
def Disk.serve :
    Disk → List (Request × (ℕ → Except UsbError ℕ)) → List (List Command × Except UsbError Unit)
  | _, [] => []
  | d, (req, answer) :: rest =>
    let (sent, r, d') := d.perform answer req
    (sent, r) :: serve d' rest

/-! ### What the commands cover -/

/-- The number a big-endian field holds. -/
def bigEndian (bytes : List UInt8) : ℕ := bytes.foldl (fun n b => 256 * n + b.toNat) 0

/-- The block a command starts at, as the device reads it. -/
def Command.lba (c : Command) : ℕ := bigEndian (slice c.cdb 2 4)

/-- How many blocks a command moves, as the device reads it. -/
def Command.blocks (c : Command) : ℕ := bigEndian (slice c.cdb 7 2)

/-- **The commands cover** the blocks from `lba` to `stop` with the buffer from `off` to `len`,
each taking up where the one before it ended. -/
def Covers (opcode : UInt8) (size stop len : ℕ) : ℕ → ℕ → List Command → Prop
  | lba, off, [] => lba = stop ∧ off = len
  | lba, off, c :: cs =>
    (c.cdb.head? = some opcode ∧ c.lba = lba ∧ c.offset = off ∧ 0 < c.blocks ∧
      c.len = c.blocks * size ∧ c.len ≤ maxBulk) ∧
      Covers opcode size stop len (lba + c.blocks) (off + c.len) cs

/-- **A request is cut exactly** if it is refused without a command, or its commands cover what
was asked, up to the first that fails and with it; and the disk is given up exactly if the
answer is a timeout. -/
structure Disk.Cut (d : Disk) (opcode : UInt8) (lba len : ℕ)
    (answer : ℕ → Except UsbError ℕ) (out : Disk.Outcome) : Prop where
  refused : d.notAnswering ∨ len % d.blockSize ≠ 0 ∨ d.blockCount < lba + len / d.blockSize →
    out.1 = [] ∧ ∃ e, out.2.1 = .error e
  covers : d.notAnswering = false → len % d.blockSize = 0 →
    lba + len / d.blockSize ≤ d.blockCount →
    ∃ all, Covers opcode d.blockSize (lba + len / d.blockSize) len lba 0 all ∧
      ((∀ j < all.length, ∃ n, answer j = .ok n) → out.1 = all ∧ out.2.1 = .ok ()) ∧
      ∀ k < all.length, ∀ e, (∀ j < k, ∃ n, answer j = .ok n) → answer k = .error e →
        out.1 = all.take (k + 1) ∧ out.2.1 = .error e
  disk : out.2.2 = { d with notAnswering := decide (out.2.1 = .error .timeout) }

section Request

variable {opcode : UInt8} {lba len : ℕ} {answer : ℕ → Except UsbError ℕ} {d : Disk}

theorem lba_rw10 (n off bytes : ℕ) :
    (Command.mk (rw10 opcode lba n) off bytes).lba = lba % 2 ^ 32 := by
  simp only [Command.lba, rw10, slice, bigEndian, List.drop_succ_cons, List.drop_zero,
    List.take_succ_cons, List.take_zero, List.foldl_cons, List.foldl_nil, toNat_ofNat_byte]
  omega

theorem blocks_rw10 (n off bytes : ℕ) :
    (Command.mk (rw10 opcode lba n) off bytes).blocks = n % 2 ^ 16 := by
  simp only [Command.blocks, rw10, slice, bigEndian, List.drop_succ_cons, List.drop_zero,
    List.take_succ_cons, List.take_zero, List.foldl_cons, List.foldl_nil, toNat_ofNat_byte]
  omega

@[simp]
theorem command_ok (n : ℕ) : d.command (.ok n) = d := if_neg (by simp)

/-- What is sent if every command succeeds. -/
def Disk.plan (d : Disk) (opcode : UInt8) (lba len : ℕ) (turns i : ℕ) : List Command :=
  (d.sendFrom opcode lba len (fun _ => .ok 0) turns i).1

theorem plan_succ (turns i : ℕ) : d.plan opcode lba len (turns + 1) i =
    if len ≤ i * maxBulk then []
    else d.part opcode lba len i :: d.plan opcode lba len turns (i + 1) := by
  rw [Disk.plan, Disk.sendFrom]
  split <;> simp [Disk.plan]

/-- A transfer is a whole number of blocks, few enough for 16 bits. -/
theorem exists_perCommand {size : ℕ} (hsize : size ∈ [512, 1024, 2048, 4096]) :
    ∃ per, maxBulk = size * per ∧ 0 < size ∧ 0 < per ∧ per ≤ 128 := by
  simp only [List.mem_cons, List.not_mem_nil, or_false] at hsize
  rcases hsize with rfl | rfl | rfl | rfl
  exacts [⟨128, rfl, by decide⟩, ⟨64, rfl, by decide⟩, ⟨32, rfl, by decide⟩, ⟨16, rfl, by decide⟩]

/-- The plan from part `i` on covers what is left of the request there. -/
theorem covers_plan (hsize : d.blockSize ∈ [512, 1024, 2048, 4096])
    (hlen : len % d.blockSize = 0) (hend : lba + len / d.blockSize ≤ 2 ^ 32) (turns i : ℕ)
    (h : len ≤ (i + turns) * maxBulk) :
    Covers opcode d.blockSize (lba + len / d.blockSize) len
      (lba + min (i * maxBulk) len / d.blockSize) (min (i * maxBulk) len)
      (d.plan opcode lba len turns i) := by
  obtain ⟨per, hper, hpos, hper0, hper128⟩ := exists_perCommand hsize
  obtain ⟨n, rfl⟩ := Nat.dvd_of_mod_eq_zero hlen
  -- counted in blocks, part `i` starts at `i * per` and the request ends at `n`
  have hstart : ∀ j, min (j * maxBulk) (d.blockSize * n) = d.blockSize * min (j * per) n := by
    intro j
    rw [hper, mul_left_comm, Nat.mul_min_mul_left]
  have hbytes : ∀ j, min maxBulk (d.blockSize * n - j * maxBulk) =
      d.blockSize * min per (n - j * per) := by
    intro j
    rw [hper, mul_left_comm, ← Nat.mul_sub, Nat.mul_min_mul_left]
  simp only [hstart, Nat.mul_div_cancel_left _ hpos] at hend ⊢
  induction turns generalizing i with
  | zero =>
    have hn : n ≤ i * per := by
      rw [Nat.add_zero, hper, mul_left_comm] at h
      exact Nat.le_of_mul_le_mul_left h hpos
    rw [min_eq_right hn]
    exact ⟨rfl, rfl⟩
  | succ turns ih =>
    have hrest := ih (i + 1) (by rwa [show i + 1 + turns = i + (turns + 1) by omega])
    rw [plan_succ]
    have hle : d.blockSize * n ≤ i * maxBulk ↔ n ≤ i * per := by
      rw [hper, mul_left_comm]
      exact Nat.mul_le_mul_left_iff hpos
    split
    · next hdone =>
      rw [min_eq_right (hle.mp hdone)]
      exact ⟨rfl, rfl⟩
    · next hmore =>
      have hlt : i * per < n := not_le.mp (mt hle.mpr hmore)
      have hpart : d.part opcode lba (d.blockSize * n) i =
          ⟨rw10 opcode (lba + i * per) (min per (n - i * per)), d.blockSize * (i * per),
            d.blockSize * min per (n - i * per)⟩ := by
        simp only [Disk.part, hbytes, Nat.mul_div_cancel_left _ hpos, Command.mk.injEq, and_true]
        exact ⟨by rw [hper, Nat.mul_div_cancel_left _ hpos], by rw [hper, mul_left_comm]⟩
      have hblocks : min per (n - i * per) % 2 ^ 16 = min per (n - i * per) :=
        Nat.mod_eq_of_lt (by omega)
      have hnext : min (i * per) n + min per (n - i * per) = min ((i + 1) * per) n := by
        rw [Nat.succ_mul]
        omega
      rw [hpart]
      simp only [Covers, lba_rw10, blocks_rw10, hblocks]
      refine ⟨⟨rfl, ?_, by rw [min_eq_left hlt.le], by omega, mul_comm _ _, ?_⟩, ?_⟩
      · rw [min_eq_left hlt.le, Nat.mod_eq_of_lt (by omega)]
      · rw [hper]
        exact Nat.mul_le_mul_left _ (min_le_left _ _)
      · rw [Nat.add_assoc, ← Nat.mul_add, hnext]
        exact hrest

/-- The commands sent are those of the plan, up to the first that fails and with it. -/
theorem sendFrom_eq (turns i : ℕ) :
    ((∀ j < (d.plan opcode lba len turns i).length, ∃ n, answer (i + j) = .ok n) →
      (d.sendFrom opcode lba len answer turns i).1 = d.plan opcode lba len turns i ∧
      (d.sendFrom opcode lba len answer turns i).2.1 = .ok ()) ∧
    ∀ k < (d.plan opcode lba len turns i).length, ∀ e,
      (∀ j < k, ∃ n, answer (i + j) = .ok n) → answer (i + k) = .error e →
      (d.sendFrom opcode lba len answer turns i).1 =
        (d.plan opcode lba len turns i).take (k + 1) ∧
      (d.sendFrom opcode lba len answer turns i).2.1 = .error e := by
  induction turns generalizing i with
  | zero => exact ⟨fun _ => ⟨rfl, rfl⟩, fun k hk => absurd hk (Nat.not_lt_zero k)⟩
  | succ turns ih =>
    obtain ⟨hall, hfirst⟩ := ih (i + 1)
    rw [plan_succ, Disk.sendFrom]
    split
    · exact ⟨fun _ => ⟨rfl, rfl⟩, fun k hk => absurd hk (Nat.not_lt_zero k)⟩
    · refine ⟨fun h => ?_, fun k hk e hok he => ?_⟩
      · obtain ⟨n, hn⟩ := h 0 (by simp)
        obtain ⟨h1, h2⟩ := hall fun j hj => by
          simpa [Nat.add_assoc, Nat.add_comm 1] using h (j + 1) (by simpa using hj)
        rw [Nat.add_zero] at hn
        simp only [hn, command_ok, h1, h2, and_self]
      · cases k with
        | zero =>
          rw [Nat.add_zero] at he
          simp [he]
        | succ k =>
          obtain ⟨n, hn⟩ := hok 0 (Nat.succ_pos k)
          obtain ⟨h1, h2⟩ := hfirst k (by simpa using hk) e
            (fun j hj => by simpa [Nat.add_assoc, Nat.add_comm 1] using hok (j + 1) (by omega))
            (by simpa [Nat.add_assoc, Nat.add_comm 1] using he)
          rw [Nat.add_zero] at hn
          simp only [hn, command_ok, h1, h2, List.take_succ_cons, and_self]

/-- A disk that answered so far is given up exactly if the loop ends with a timeout. -/
theorem sendFrom_disk (hd : d.notAnswering = false) (turns i : ℕ) :
    (d.sendFrom opcode lba len answer turns i).2.2 = { d with
      notAnswering := decide ((d.sendFrom opcode lba len answer turns i).2.1 =
        .error .timeout) } := by
  induction turns generalizing i with
  | zero => simp [Disk.sendFrom, ← hd]
  | succ turns ih =>
    rw [Disk.sendFrom]
    split
    · simp [← hd]
    · cases answer i with
      | error e => by_cases he : e = .timeout <;> simp [Disk.command, he, ← hd]
      | ok n => simpa using ih (i + 1)

theorem capacity_eq_ok {ten : Capacity} {sixteen : Except UsbError Capacity} {size count : ℕ}
    (h : capacity ten sixteen = .ok (size, count)) :
    size ∈ [512, 1024, 2048, 4096] ∧ count ≤ 2 ^ 32 := by
  unfold capacity at h
  split at h
  · cases h
  · split_ifs at h with hsize hlast
    obtain ⟨rfl, rfl⟩ := Prod.mk.inj (Except.ok.inj h)
    exact ⟨hsize, by omega⟩

/-- **A request with either opcode is cut exactly.** -/
theorem request_cut (hsize : d.blockSize ∈ [512, 1024, 2048, 4096])
    (hcount : d.blockCount ≤ 2 ^ 32) :
    d.Cut opcode lba len answer (d.request opcode lba len answer) := by
  by_cases hreq : d.notAnswering = false ∧ len % d.blockSize = 0 ∧
      lba + len / d.blockSize ≤ d.blockCount
  · obtain ⟨h1, h2, h3⟩ := hreq
    have hsend : d.request opcode lba len answer =
        d.sendFrom opcode lba len answer (len / maxBulk + 1) 0 := by
      rw [Disk.request, if_neg (by simp [h1]), if_neg (by simp [h2]), if_neg (by simp; omega)]
    have hcovers := @covers_plan opcode lba len d hsize h2 (h3.trans hcount)
      (len / maxBulk + 1) 0 (by unfold maxBulk; omega)
    obtain ⟨hall, hfirst⟩ := @sendFrom_eq opcode lba len answer d (len / maxBulk + 1) 0
    simp only [Nat.zero_mul, Nat.zero_min, Nat.zero_div, Nat.add_zero, Nat.zero_add]
      at hcovers hall hfirst
    rw [hsend]
    refine ⟨fun h => ?_, fun _ _ _ => ⟨_, hcovers, hall, hfirst⟩, sendFrom_disk h1 _ _⟩
    rcases h with h | h | h
    · simp [h1] at h
    · exact absurd h2 h
    · omega
  · have hrefused : ∃ e, d.request opcode lba len answer = ([], .error e, d) ∧
        (d.notAnswering = decide (e = .timeout)) := by
      unfold Disk.request
      split_ifs with h1 h2 h3
      · exact ⟨_, rfl, by simpa using h1⟩
      · exact ⟨_, rfl, by simpa using h1⟩
      · exact absurd ⟨by simpa using h1, by simpa using h2, h3.2⟩ hreq
      · exact ⟨_, rfl, by simpa using h1⟩
    obtain ⟨e, he, hd⟩ := hrefused
    rw [he]
    refine ⟨fun _ => ⟨rfl, e, rfl⟩, fun h1 h2 h3 => absurd ⟨h1, h2, h3⟩ hreq, ?_⟩
    simp [← hd]

/-- A disk that was given up sends nothing more, over a whole run of requests. -/
theorem serve_of_notAnswering (hd : d.notAnswering = true)
    (reqs : List (Request × (ℕ → Except UsbError ℕ))) :
    d.serve reqs = reqs.map fun _ => ([], .error .timeout) := by
  induction reqs with
  | nil => rfl
  | cons r reqs ih =>
    obtain ⟨req, answer⟩ := r
    have hone : d.perform answer req = ([], .error .timeout, d) := by
      cases req <;> simp [Disk.perform, Disk.read, Disk.write, Disk.request, hd]
    simp [Disk.serve, hone, ih]

theorem Disk.Cut.notAnswering {out : Disk.Outcome} (hcut : d.Cut opcode lba len answer out)
    (h : out.2.1 = .error .timeout) : out.2.2.notAnswering = true := by
  rw [hcut.disk]
  exact decide_eq_true h

/-- **Requests are cut exactly**, reads and writes alike: refused without a command, or sent as
commands that cover what was asked, up to the first that fails. Once one was answered with a
timeout, no later request sends anything. -/
theorem request_covers (ten : Capacity) (sixteen : Except UsbError Capacity) (d : Disk)
    (hd : capacity ten sixteen = .ok (d.blockSize, d.blockCount)) (lba len : ℕ)
    (answer : ℕ → Except UsbError ℕ) :
    d.Cut read10 lba len answer (d.read lba len answer) ∧
    d.Cut write10 lba len answer (d.write lba len answer) ∧
    ∀ req later, (d.perform answer req).2.1 = .error .timeout →
      (d.perform answer req).2.2.serve later = later.map fun _ => ([], .error .timeout) := by
  obtain ⟨hsize, hcount⟩ := capacity_eq_ok hd
  refine ⟨request_cut hsize hcount, request_cut hsize hcount, fun req later h => ?_⟩
  apply serve_of_notAnswering
  cases req with
  | read lba len => exact (request_cut hsize hcount).notAnswering h
  | write lba len => exact (request_cut hsize hcount).notAnswering h

/-- A read of 65 KiB from block 3 on is two commands. The disk hangs at the second and is given
up: a write after it sends nothing. -/
theorem request_covers_hangs :
    let d : Disk := ⟨512, 8192, false⟩
    let answer : ℕ → Except UsbError ℕ := fun i => if i = 0 then .ok 65536 else .error .timeout
    capacity ⟨512, 8191⟩ (.error .timeout) = .ok (512, 8192) ∧
    (d.read 3 66560 answer).1 =
      [⟨[0x28, 0, 0, 0, 0, 3, 0, 0, 128, 0], 0, 65536⟩,
        ⟨[0x28, 0, 0, 0, 0, 131, 0, 0, 2, 0], 65536, 1024⟩] ∧
    (∃ all, Covers read10 512 (3 + 66560 / 512) 66560 3 0 all ∧
      (d.read 3 66560 answer).1 = all.take 2) ∧
    (d.read 3 66560 answer).2.2.serve [(.write 0 512, answer)] = [([], .error .timeout)] := by
  intro d answer
  obtain ⟨hread, -, hlater⟩ := request_covers ⟨512, 8191⟩ (.error .timeout) d rfl 3 66560 answer
  obtain ⟨all, hcovers, -, hfirst⟩ :=
    hread.covers rfl (show 66560 % 512 = 0 by decide) (show 3 + 66560 / 512 ≤ 8192 by decide)
  refine ⟨rfl, by decide, ⟨all, hcovers, ?_⟩, hlater (.read 3 66560) _ (by decide)⟩
  refine (hfirst 1 ?_ .timeout (fun j hj => ⟨65536, if_pos (by omega)⟩) rfl).1
  -- one command alone would be longer than a transfer
  rcases all with _ | ⟨c, _ | ⟨c', cs⟩⟩
  · exact absurd hcovers.1 (by decide)
  · have hlen := hcovers.2.2
    have hmax := hcovers.1.2.2.2.2.2
    unfold maxBulk at hmax
    omega
  · simp

end Request

end RelayOs.Usb
