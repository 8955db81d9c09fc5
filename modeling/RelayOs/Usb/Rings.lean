import RelayOs.Lib.Laps

/-!
# The rings of an xHCI controller

A producer ring is a page of 256 TRBs: 255 requests and a Link TRB back to the start that toggles
the consumer's cycle state (`RelayOs.Xhci.ProducerRing`). The controller is a consumer that goes by
cycle bits and links (`RelayOs.Xhci.Consumer.step`). To both of them the ring is a queue
(`RelayOs.Xhci.Queue`): the Link TRBs are entries of it, so the ring is one of 256 slots with an
owner bit (`RelayOs.Laps.Holds`), as is the event ring.
-/

namespace RelayOs.Xhci

open Laps

/-! ### TRBs -/

/-- A TRB as four dwords. -/
structure Trb where
  d0 : BitVec 32
  d1 : BitVec 32
  d2 : BitVec 32
  d3 : BitVec 32
  deriving DecidableEq, Repr

namespace Trb

/-- The type of a link. -/
def LINK : BitVec 8 := 6#8

/-- The type of a TRB. -/
def trbType (t : Trb) : BitVec 8 := (t.d3 >>> 10).setWidth 8 &&& 0x3F#8

/-- The bit that says whose TRB it is. -/
def cycle (t : Trb) : Bool := t.d3 &&& 1#32 ≠ 0#32

/-- The link flips the consumer's cycle state. -/
def toggleCycle (t : Trb) : Bool := t.d3 &&& 2#32 ≠ 0#32

/-- The TRB goes on with the next one. -/
def chain (t : Trb) : Bool := t.d3 &&& 16#32 ≠ 0#32

/-- The TRB with its cycle bit set so. -/
def withCycle (t : Trb) (cycle : Bool) : Trb :=
  { t with d3 := t.d3 &&& ~~~1#32 ||| if cycle then 1#32 else 0#32 }

/-- A TRB with an address. -/
def withPointer (pointer : ℕ) (status control : BitVec 32) : Trb :=
  ⟨BitVec.ofNat 32 pointer, BitVec.ofNat 32 (pointer >>> 32), status, control⟩

/-- A Link TRB to `segment` that toggles the consumer's cycle state. -/
def link (segment : ℕ) : Trb := withPointer segment 0#32 (6#32 <<< 10 ||| 2#32)

/-- The address in a TRB. -/
def pointer (t : Trb) : ℕ := t.d0.toNat ||| t.d1.toNat <<< 32

end Trb

/-! ### The driver's side -/

/-- The page: where it is, and its TRBs. -/
structure ProducerRing where
  phys : ℕ
  slots : ℕ → Trb
  index : ℕ
  /-- The cycle bit valid TRBs carry this lap. -/
  cycle : Bool

namespace ProducerRing

/-- The place of the link. -/
def linkIndex : ℕ := 255

/-- The dword with the cycle bit is written last, so a TRB is handed over at once. -/
def write (r : ProducerRing) (index : ℕ) (t : Trb) : ProducerRing :=
  { r with slots := Function.update r.slots index t }

/-- The page is zeroed: the controller stops before the link until it is valid. -/
def new (phys : ℕ) : ProducerRing :=
  write ⟨phys, fun _ => ⟨0, 0, 0, 0⟩, 0, true⟩ linkIndex (Trb.link phys)

/-- The link of a lap, which carries the chain bit of the TRB before it. -/
def linkTrb (phys : ℕ) (chain : Bool) : Trb :=
  let link := Trb.link phys
  if chain then { link with d3 := link.d3 ||| 16#32 } else link

/-- **Adds a TRB with the current cycle bit**, and returns its address. -/
def push (r : ProducerRing) (t : Trb) : ℕ × ProducerRing :=
  let addr := r.phys + r.index * 16
  let r := { r.write r.index (t.withCycle r.cycle) with index := r.index + 1 }
  if r.index = linkIndex then
    (addr, { r.write linkIndex ((linkTrb r.phys t.chain).withCycle r.cycle) with
      cycle := !r.cycle, index := 0 })
  else (addr, r)

theorem push_of_ne {r : ProducerRing} {t : Trb} (h : r.index + 1 ≠ 255) : r.push t =
    (r.phys + r.index * 16,
      ⟨r.phys, Function.update r.slots r.index (t.withCycle r.cycle), r.index + 1, r.cycle⟩) :=
        if_neg h

theorem push_of_eq {r : ProducerRing} {t : Trb} (h : r.index + 1 = 255) : r.push t =
    (r.phys + r.index * 16,
      ⟨r.phys, Function.update (Function.update r.slots r.index (t.withCycle r.cycle)) 255
        ((linkTrb r.phys t.chain).withCycle r.cycle), 0, !r.cycle⟩) := if_pos h

/-- Overwrites the TRB at `addr` with the cycle bit it has. -/
def replace (r : ProducerRing) (addr : ℕ) (t : Trb) : Option ProducerRing :=
  if r.phys ≤ addr ∧ addr - r.phys < linkIndex * 16 ∧ (addr - r.phys) % 16 = 0 then
    let i := (addr - r.phys) / 16
    some (r.write i (t.withCycle (r.slots i).cycle))
  else none

/-- The next TRB's address with the cycle state in bit 0. -/
def enqueuePointer (r : ProducerRing) : ℕ := (r.phys + r.index * 16) ||| r.cycle.toNat

end ProducerRing

/-! ### The controller's side -/

/-- What a consumer reads: a request with its address, or a link with its chain bit. -/
inductive Entry
  | trb (addr : ℕ) (t : Trb)
  | link (chain : Bool)
  deriving DecidableEq, Repr

namespace Entry

/-- What slot `i` reads as. -/
def of (phys i : ℕ) (t : Trb) : Entry :=
  if t.trbType = Trb.LINK then .link t.chain else .trb (phys + i * 16) (t.withCycle false)

/-- It is a request. -/
def isTrb : Entry → Bool
  | .trb _ _ => true
  | .link _ => false

/-- The request at `addr` changed to `t`. -/
def replace (addr : ℕ) (t : Trb) : Entry → Entry
  | .trb a old => .trb a (if a = addr then t.withCycle false else old)
  | .link chain => .link chain

end Entry

/-- The consumer's TRB and cycle state. -/
structure Consumer where
  index : ℕ
  cycle : Bool

namespace Consumer

/-- The TRB of the page at `phys` that a pointer names; its low bits are not part of the address. -/
def slotOf (phys pointer : ℕ) : ℕ := (pointer / 16 * 16 - phys) / 16

/-- Started at a pointer with the cycle state in bit 0. -/
def startAt (phys pointer : ℕ) : Consumer := ⟨slotOf phys pointer, pointer % 2 = 1⟩

/-- **One TRB**, if its cycle bit says that it is the consumer's. -/
def step (r : ProducerRing) (c : Consumer) : Option Entry × Consumer :=
  let t := r.slots c.index
  if t.cycle = c.cycle then
    (some (Entry.of r.phys c.index t),
      if t.trbType = Trb.LINK then ⟨slotOf r.phys t.pointer, c.cycle ^^ t.toggleCycle⟩
        else ⟨c.index + 1, c.cycle⟩)
  else (none, c)

end Consumer

/-- A TRB that is not a link, as all are that the driver pushes: only the ring makes a `Trb.link`.
-/
structure Request where
  trb : Trb
  not_link : trb.trbType ≠ Trb.LINK

/-- A command that does nothing. -/
def Request.noOpCommand : Request := ⟨⟨0, 0, 0, 23#32 <<< 10⟩, by decide⟩

/-- What the driver and the controller do. -/
inductive Op
  | push (t : Request)
  | replace (addr : ℕ) (t : Request)
  | step
  | restart

/-- What comes of it. -/
inductive Out
  | address (addr : ℕ)
  | read (e : Option Entry)
  | done
  deriving DecidableEq, Repr

/-- **The driver's ring and the controller's place on it.** -/
structure Sys where
  ring : ProducerRing
  consumer : Consumer

namespace Sys

/-- A new ring, with the controller at its start. -/
def start (phys : ℕ) : Sys := ⟨.new phys, .startAt phys (ProducerRing.new phys).enqueuePointer⟩

/-- The driver's calls on its ring, and a step or a restart of the controller. -/
def exec (s : Sys) : Op → Option (Out × Sys)
  | .push t => some (.address (s.ring.push t.trb).1, { s with ring := (s.ring.push t.trb).2 })
  | .replace addr t => do
    let ring ← s.ring.replace addr t.trb
    some (.done, { s with ring })
  | .step => some (.read (s.consumer.step s.ring).1,
      { s with consumer := (s.consumer.step s.ring).2 })
  | .restart => some (.done, { s with consumer := .startAt s.ring.phys s.ring.enqueuePointer })

/-- What comes of a run. -/
def run (s : Sys) : List Op → Option (List Out)
  | [] => some []
  | op :: ops => do
    let (out, s) ← s.exec op
    let outs ← s.run ops
    some (out :: outs)

end Sys

/-! ### The queue it should be -/

/-- The requests the consumer has not read, and where the next one goes. -/
structure Queue where
  index : ℕ := 0
  unread : List Entry := []

namespace Queue

/-- At most 254 requests are unread at a time. -/
def push (phys : ℕ) (q : Queue) (t : Trb) : Option Queue :=
  let e := .trb (phys + q.index * 16) (t.withCycle false)
  if q.unread.countP Entry.isTrb < 254 then
    some (if q.index + 1 = 255 then ⟨0, q.unread ++ [e, .link t.chain]⟩
      else ⟨q.index + 1, q.unread ++ [e]⟩)
  else none

/-- **The queue's operations**: requests are read in order, each once. -/
def exec (phys : ℕ) (q : Queue) : Op → Option (Out × Queue)
  | .push t => do
    let q' ← q.push phys t.trb
    some (.address (phys + q.index * 16), q')
  | .replace addr t =>
    if phys ≤ addr ∧ addr - phys < 255 * 16 ∧ (addr - phys) % 16 = 0 then
      some (.done, { q with unread := q.unread.map (Entry.replace addr t.trb) })
    else none
  | .step => some (.read q.unread.head?, { q with unread := q.unread.tail })
  | .restart => some (.done, { q with unread := [] })

/-- What comes of a run of the queue. -/
def run (phys : ℕ) (q : Queue) : List Op → Option (List Out)
  | [] => some []
  | op :: ops => do
    let (out, q) ← q.exec phys op
    let outs ← q.run phys ops
    some (out :: outs)

end Queue

/-! ### Bits -/

namespace Trb

variable {t : Trb} {c : Bool}

theorem and_twoPow_ne_zero (x : BitVec 32) (i : ℕ) (hi : i < 32) :
    decide (x &&& BitVec.twoPow 32 i ≠ 0#32) = x.getLsbD i := by
  rw [BitVec.and_twoPow]
  cases x.getLsbD i with
  | true =>
    have hne : BitVec.twoPow 32 i ≠ 0#32 := by
      intro h
      have := congrArg (BitVec.getLsbD · i) h
      simp [hi] at this
    simp [hne]
  | false => simp

theorem getLsbD_withCycle (i : ℕ) (hi : i < 32) :
    (t.withCycle c).d3.getLsbD i = if i = 0 then c else t.d3.getLsbD i := by
  rcases Nat.eq_zero_or_pos i with rfl | hpos
  · cases c <;> simp [withCycle]
  · have hone : (1#32).getLsbD i = false := by
      rw [BitVec.getLsbD_one]
      simp [hpos.ne']
    have hbit : (if c then 1#32 else 0#32).getLsbD i = false := by
      cases c
      · exact BitVec.getLsbD_zero
      · exact hone
    rw [if_neg hpos.ne', withCycle, BitVec.getLsbD_or, BitVec.getLsbD_and,
      BitVec.getLsbD_not, hone, hbit,
      decide_eq_true hi]
    cases t.d3.getLsbD i <;> rfl

theorem cycle_eq : t.cycle = t.d3.getLsbD 0 := and_twoPow_ne_zero t.d3 0 (by norm_num)

theorem toggleCycle_eq : t.toggleCycle = t.d3.getLsbD 1 := and_twoPow_ne_zero t.d3 1 (by norm_num)

theorem chain_eq : t.chain = t.d3.getLsbD 4 := and_twoPow_ne_zero t.d3 4 (by norm_num)

@[simp]
theorem cycle_withCycle : (t.withCycle c).cycle = c := by
  rw [cycle_eq, getLsbD_withCycle 0 (by norm_num), if_pos rfl]

@[simp]
theorem chain_withCycle : (t.withCycle c).chain = t.chain := by
  rw [chain_eq, chain_eq, getLsbD_withCycle 4 (by norm_num), if_neg (by norm_num)]

@[simp]
theorem trbType_withCycle : (t.withCycle c).trbType = t.trbType := by
  refine BitVec.eq_of_getLsbD_eq fun i hi => ?_
  rw [trbType, trbType, BitVec.getLsbD_and, BitVec.getLsbD_and, BitVec.getLsbD_setWidth,
    BitVec.getLsbD_setWidth,
    BitVec.getLsbD_ushiftRight, BitVec.getLsbD_ushiftRight, getLsbD_withCycle _ (by omega),
      if_neg (by omega)]

@[simp]
theorem withCycle_withCycle {c' : Bool} : (t.withCycle c).withCycle c' = t.withCycle c' := by
  refine Trb.mk.injEq .. |>.mpr ⟨rfl, rfl, rfl, BitVec.eq_of_getLsbD_eq fun i hi => ?_⟩
  have h1 := getLsbD_withCycle (t := t.withCycle c) (c := c') i hi
  have h2 := getLsbD_withCycle (t := t) (c := c') i hi
  rw [getLsbD_withCycle (t := t) (c := c) i hi] at h1
  refine h1.trans (Eq.trans ?_ h2.symm)
  split <;> rfl

end Trb

section Link

variable {phys : ℕ} {chain c : Bool}

theorem linkTrb_d3 : (ProducerRing.linkTrb phys chain).d3 = if chain then 0x1812#32
    else 0x1802#32 := by
  cases chain
  · rfl
  · show (6#32 <<< 10 ||| 2#32) ||| 16#32 = 0x1812#32
    decide

theorem trbType_linkTrb : (ProducerRing.linkTrb phys chain).trbType = Trb.LINK := by
  rw [Trb.trbType, linkTrb_d3]
  cases chain <;> rfl

theorem chain_linkTrb : (ProducerRing.linkTrb phys chain).chain = chain := by
  rw [Trb.chain, linkTrb_d3]
  cases chain <;> rfl

theorem toggleCycle_linkTrb :
    ((ProducerRing.linkTrb phys chain).withCycle c).toggleCycle = true := by
  rw [Trb.toggleCycle_eq, Trb.getLsbD_withCycle 1 (by norm_num), linkTrb_d3]
  cases chain <;> rfl

theorem pointer_linkTrb (h : phys < 2 ^ 64) :
    ((ProducerRing.linkTrb phys chain).withCycle c).pointer = phys := by
  have hd0 : ((ProducerRing.linkTrb phys chain).withCycle c).d0 = BitVec.ofNat 32 phys := by
    cases chain <;> rfl
  have hd1 : ((ProducerRing.linkTrb phys chain).withCycle c).d1 =
      BitVec.ofNat 32 (phys >>> 32) := by
    cases chain <;> rfl
  rw [Trb.pointer, hd0, hd1, BitVec.toNat_ofNat, BitVec.toNat_ofNat, Nat.shiftRight_eq_div_pow,
    Nat.shiftLeft_eq,
    Nat.or_comm, Nat.mul_comm, ← Nat.two_pow_add_eq_or_of_lt (Nat.mod_lt _ (by norm_num))]
  omega

end Link

/-! ### The ring is the queue -/

/-- Where a page may be: page-aligned, within 64 bits. -/
structure Page (phys : ℕ) : Prop where
  aligned : phys % 4096 = 0
  lt : phys < 2 ^ 64

/-- **The driver's ring and the consumer hold the queue**, `n` entries having been read. -/
structure Inv (phys : ℕ) (s : Sys) (q : Queue) (n : ℕ) : Prop where
  phys_eq : s.ring.phys = phys
  holds : Holds 256 Trb.cycle (Entry.of phys) s.ring.slots n q.unread
  index_eq : s.ring.index = (n + q.unread.length) % 256
  index_lt : s.ring.index < 255
  cycle_eq : s.ring.cycle = lap 256 (n + q.unread.length)
  queue_index : q.index = s.ring.index
  consumer_index : s.consumer.index = n % 256
  consumer_cycle : s.consumer.cycle = lap 256 n
  request : ∀ i < 255, (s.ring.slots i).trbType ≠ Trb.LINK
  link : ∃ chain c, s.ring.slots 255 = (ProducerRing.linkTrb phys chain).withCycle c

theorem slotOf_add {phys i b : ℕ} (h : phys % 4096 = 0) (hb : b < 16) :
    Consumer.slotOf phys (phys + i * 16 + b) = i := by
  rw [Consumer.slotOf]
  omega

theorem startAt_pointer {phys i : ℕ} (h : phys % 4096 = 0) (c : Bool) :
    Consumer.startAt phys ((phys + i * 16) ||| c.toNat) = ⟨i, c⟩ := by
  have hor : (phys + i * 16) ||| c.toNat = phys + i * 16 + c.toNat := by
    obtain ⟨k, hk⟩ : ∃ k, phys + i * 16 = 2 ^ 4 * k := ⟨(phys + i * 16) / 16, by omega⟩
    rw [hk, Nat.two_pow_add_eq_or_of_lt (c.toNat_lt.trans (by norm_num))]
  have hc : c.toNat < 2 := c.toNat_lt
  rw [hor, Consumer.startAt, slotOf_add h (by omega)]
  have hbit : (phys + i * 16 + c.toNat) % 2 = c.toNat := by omega
  rw [hbit]
  cases c <;> rfl

/-- 256 entries in a row have at most one link. -/
theorem countP_link_le {l : List Entry} {n : ℕ} (h : l.length ≤ 256)
    (hlink : ∀ k e, l[k]? = some e → (e.isTrb = false ↔ (n + k) % 256 = 255)) :
    l.length ≤ l.countP Entry.isTrb + 1 := by
  induction l generalizing n with
  | nil => exact Nat.zero_le _
  | cons e l ih =>
    rw [List.length_cons] at h
    have hrest : ∀ k e, l[k]? = some e → (e.isTrb = false ↔ (n + 1 + k) % 256 = 255) := by
      intro k e he
      rw [Nat.add_right_comm, Nat.add_assoc]
      exact hlink (k + 1) e he
    cases he : e.isTrb with
    | true =>
      rw [List.countP_cons_of_pos he, List.length_cons]
      have := ih (by omega) hrest
      omega
    | false =>
      have hn := (hlink 0 e rfl).mp he
      -- the next link is 256 entries on
      have hall : l.countP Entry.isTrb = l.length := by
        refine List.countP_eq_length.mpr fun x hx => ?_
        obtain ⟨k, hk⟩ := List.mem_iff_getElem?.mp hx
        have hlt := (List.getElem?_eq_some_iff.mp hk).1
        by_contra hfalse
        have := (hrest k x hk).mp (Bool.not_eq_true _ ▸ hfalse)
        omega
      rw [List.countP_cons_of_neg (by rw [he]; exact Bool.false_ne_true), hall, List.length_cons]

namespace Inv

variable {phys n : ℕ} {s : Sys} {q : Queue}

theorem isTrb_eq_false_iff (h : Inv phys s q n) {k : ℕ} {e : Entry} (he : q.unread[k]? = some e) :
    e.isTrb = false ↔ (n + k) % 256 = 255 := by
  obtain ⟨hread, -⟩ := h.holds.owned k e he
  rw [← hread, Entry.of]
  obtain ⟨chain, c, hlink⟩ := h.link
  rcases eq_or_ne ((n + k) % 256) 255 with heq | hne
  · rw [heq, hlink, Trb.trbType_withCycle, trbType_linkTrb, if_pos rfl]
    exact ⟨fun _ => rfl, fun _ => rfl⟩
  · rw [if_neg (h.request _ (by omega))]
    exact ⟨nofun, fun heq => absurd heq hne⟩

theorem length_le (h : Inv phys s q n) (hcount : q.unread.countP Entry.isTrb < 254) :
    q.unread.length ≤ 254 := by
  have := countP_link_le h.holds.fits fun k e he => h.isTrb_eq_false_iff he
  omega

/-- What the consumer reads of a request. -/
theorem of_request {i : ℕ} {t : Trb} (h : t.trbType ≠ Trb.LINK) (c : Bool) :
    Entry.of phys i (t.withCycle c) = .trb (phys + i * 16) (t.withCycle false) := by
  rw [Entry.of, Trb.trbType_withCycle, if_neg h, Trb.withCycle_withCycle]

theorem of_link {i : ℕ} (chain c : Bool) :
    Entry.of phys i ((ProducerRing.linkTrb phys chain).withCycle c) = .link chain := by
  rw [Entry.of, Trb.trbType_withCycle, trbType_linkTrb, if_pos rfl, Trb.chain_withCycle,
    chain_linkTrb]

theorem start (hp : Page phys) : Inv phys (Sys.start phys) {} 0 := by
  have hconsumer : (Sys.start phys).consumer = ⟨0, true⟩ := startAt_pointer (i := 0) hp.aligned true
  have hslots : ∀ i ≠ 255, (Sys.start phys).ring.slots i = ⟨0, 0, 0, 0⟩ :=
    fun i hi => Function.update_of_ne hi _ _
  have hlast : (Sys.start phys).ring.slots 255 =
      (ProducerRing.linkTrb phys false).withCycle false := by
    show Function.update (fun _ => (⟨0, 0, 0, 0⟩ : Trb)) 255 (Trb.link phys) 255 = _
    rw [Function.update_self, Trb.withCycle, linkTrb_d3]
    rfl
  refine ⟨rfl, holds_nil_zero fun i hi => ?_, rfl, Nat.zero_lt_succ _, rfl, rfl, by rw [hconsumer],
    by rw [hconsumer]; rfl, fun i hi => ?_, false, false, hlast⟩
  · rcases eq_or_ne i 255 with rfl | hne
    · rw [hlast, Trb.cycle_withCycle]
    · rw [hslots i hne]
      rfl
  · rw [hslots i (by omega)]
    decide

/-- **A push** is the queue's. -/
theorem push (h : Inv phys s q n) (t : Request) {q' : Queue} (hq : q.push phys t.trb = some q') :
    (s.ring.push t.trb).1 = phys + q.index * 16 ∧
      Inv phys { s with ring := (s.ring.push t.trb).2 } q' n := by
  obtain rfl := h.phys_eq
  have hlt := h.index_lt
  rw [Queue.push] at hq
  split at hq
  case isFalse => cases hq
  case isTrue hcount =>
    have hlen := h.length_le hcount
    obtain rfl := Option.some.inj hq
    rw [h.queue_index]
    -- the request's own slot
    have hwrite := h.holds.write (y := t.trb.withCycle s.ring.cycle) (by omega)
        (Trb.cycle_withCycle.trans h.cycle_eq)
    rw [← h.index_eq, of_request t.not_link] at hwrite
    obtain ⟨hnext, hlap⟩ := step_next (N := 256) (n := n + q.unread.length)
        (by rw [← h.index_eq]; omega)
    rw [← h.index_eq] at hnext
    rw [← h.cycle_eq] at hlap
    have hrequest : ∀ i < 255,
        (Function.update s.ring.slots s.ring.index (t.trb.withCycle s.ring.cycle) i).trbType ≠
        Trb.LINK := by
      intro i hi
      rcases eq_or_ne i s.ring.index with rfl | hne
      · rw [Function.update_self, Trb.trbType_withCycle]
        exact t.not_link
      · rw [Function.update_of_ne hne]
        exact h.request i hi
    rcases eq_or_ne (s.ring.index + 1) 255 with hwrap | hmore
    · rw [ProducerRing.push_of_eq hwrap, if_pos hwrap]
      -- and the link's, after it
      have hlink := hwrite.write
          (y := (ProducerRing.linkTrb s.ring.phys t.trb.chain).withCycle s.ring.cycle)
        (by rw [List.length_append, List.length_singleton]; omega)
        (by
          rw [Trb.cycle_withCycle, List.length_append, List.length_singleton,
            ← Nat.add_assoc, hlap])
      rw [List.length_append, List.length_singleton, ← Nat.add_assoc, hnext, hwrap, of_link,
        List.append_assoc] at hlink
      obtain ⟨hzero, hflip⟩ :=
        step_wrap (N := 256) (n := n + q.unread.length + 1) (by norm_num) (by rw [hnext, hwrap])
      refine ⟨rfl, rfl, hlink, ?_, by norm_num, ?_, rfl, h.consumer_index, h.consumer_cycle,
        fun i hi => ?_, ?_⟩
      · rw [List.length_append]
        exact hzero.symm
      · rw [List.length_append]
        exact (hflip.trans (congrArg _ hlap)).symm
      · exact (congrArg Trb.trbType (Function.update_of_ne hi.ne _ _)).trans_ne (hrequest i hi)
      · refine ⟨t.trb.chain, s.ring.cycle, ?_⟩
        dsimp only
        rw [Function.update_self]
    · rw [ProducerRing.push_of_ne hmore, if_neg hmore]
      refine ⟨rfl, rfl, hwrite, ?_, by show s.ring.index + 1 < 255; omega, ?_, rfl,
        h.consumer_index, h.consumer_cycle,
        hrequest, ?_⟩
      · rw [List.length_append]
        exact hnext.symm
      · rw [List.length_append]
        exact hlap.symm
      · show ∃ chain c, Function.update _ _ _ 255 = _
        rw [Function.update_of_ne hlt.ne']
        exact h.link

/-- **A replacement** changes the request at its address, if that is unread. -/
theorem replace (h : Inv phys s q n) (t : Request) {addr : ℕ}
    (haddr : phys ≤ addr ∧ addr - phys < 255 * 16 ∧ (addr - phys) % 16 = 0) :
    ∃ ring, s.ring.replace addr t.trb = some ring ∧
      Inv phys { s with ring } { q with unread := q.unread.map (Entry.replace addr t.trb) } n := by
  obtain rfl := h.phys_eq
  obtain ⟨i, hi, rfl⟩ : ∃ i < 255, addr = s.ring.phys + i * 16 :=
    ⟨(addr - s.ring.phys) / 16, by omega, by omega⟩
  have hslot : (s.ring.phys + i * 16 - s.ring.phys) / 16 = i := by omega
  refine ⟨s.ring.write i (t.trb.withCycle (s.ring.slots i).cycle), ?_, ?_⟩
  · rw [ProducerRing.replace, ProducerRing.linkIndex, if_pos haddr, hslot]
  · have hrewrite := h.holds.rewrite (s := i) (y := t.trb.withCycle (s.ring.slots i).cycle)
      (f := Entry.replace (s.ring.phys + i * 16) t.trb) Trb.cycle_withCycle
      (by rw [of_request t.not_link, Entry.of, if_neg (h.request i hi), Entry.replace, if_pos rfl])
      (fun j hj => by
        rw [Entry.of]
        split
        · rfl
        · rw [Entry.replace, if_neg (by omega)])
    refine ⟨rfl, hrewrite, ?_, h.index_lt, ?_, h.queue_index, h.consumer_index, h.consumer_cycle,
      fun j hj => ?_, ?_⟩
    · rw [List.length_map]
      exact h.index_eq
    · rw [List.length_map]
      exact h.cycle_eq
    · dsimp only [ProducerRing.write]
      rcases eq_or_ne j i with rfl | hne
      · rw [Function.update_self, Trb.trbType_withCycle]
        exact t.not_link
      · rw [Function.update_of_ne hne]
        exact h.request j hj
    · show ∃ chain c, Function.update _ _ _ 255 = _
      rw [Function.update_of_ne hi.ne']
      exact h.link

section

variable (hp : Page phys) (h : Inv phys s q n)

include hp h

/-- The TRB after an entry: the next one, or the first with the other cycle state. -/
theorem follow {c : Consumer}
    (hc : c = if (s.ring.slots s.consumer.index).trbType = Trb.LINK then
      ⟨Consumer.slotOf s.ring.phys (s.ring.slots s.consumer.index).pointer,
        s.consumer.cycle ^^ (s.ring.slots s.consumer.index).toggleCycle⟩
      else ⟨s.consumer.index + 1, s.consumer.cycle⟩) : c.index = (n + 1) % 256 ∧
        c.cycle = lap 256 (n + 1) := by
  obtain rfl := h.phys_eq
  obtain ⟨chain, b, hlink⟩ := h.link
  have hmod := Nat.mod_lt n (show 0 < 256 by norm_num)
  rw [h.consumer_index, h.consumer_cycle] at hc
  rcases eq_or_ne (n % 256) 255 with heq | hne
  · obtain ⟨hzero, hflip⟩ := step_wrap (N := 256) (n := n) (by norm_num) (by rw [heq])
    rw [heq, hlink, Trb.trbType_withCycle, trbType_linkTrb, if_pos rfl, pointer_linkTrb hp.lt,
      toggleCycle_linkTrb] at hc
    rw [hc, hzero, hflip, Bool.xor_true]
    exact ⟨slotOf_add (i := 0) (b := 0) hp.aligned (by norm_num), rfl⟩
  · obtain ⟨hnext, hlap⟩ := step_next (N := 256) (n := n) (by omega)
    rw [if_neg (h.request _ (by omega))] at hc
    rw [hc, hnext, hlap]
    exact ⟨rfl, rfl⟩

/-- **The consumer's step** takes the queue's head. -/
theorem step : (s.consumer.step s.ring).1 = q.unread.head? ∧
    ∃ n', Inv phys { s with consumer := (s.consumer.step s.ring).2 }
      { q with unread := q.unread.tail } n' := by
  obtain rfl := h.phys_eq
  obtain ⟨index, unread⟩ := q
  cases unread with
  | nil =>
    have hstop := h.holds.stops (by norm_num)
    rw [← h.consumer_index, ← h.consumer_cycle] at hstop
    rw [Consumer.step, if_neg hstop]
    exact ⟨rfl, n, h⟩
  | cons e unread =>
    obtain ⟨hread, howned⟩ := h.holds.head
    rw [← h.consumer_index] at hread howned
    rw [← h.consumer_cycle] at howned
    rw [Consumer.step, if_pos howned]
    obtain ⟨hindex, hcycle⟩ := h.follow hp rfl
    refine ⟨congrArg some hread, n + 1, rfl, h.holds.tail, ?_, h.index_lt, ?_, h.queue_index,
      hindex, hcycle, h.request,
      h.link⟩
    · rw [Nat.add_right_comm, Nat.add_assoc]
      exact h.index_eq
    · rw [Nat.add_right_comm, Nat.add_assoc]
      exact h.cycle_eq

/-- **A restart** where the next request goes. -/
theorem restart :
    Inv phys { s with consumer := .startAt s.ring.phys s.ring.enqueuePointer }
      { q with unread := [] }
      (n + q.unread.length) := by
  obtain rfl := h.phys_eq
  rw [ProducerRing.enqueuePointer, startAt_pointer hp.aligned]
  exact ⟨rfl, h.holds.restart, h.index_eq, h.index_lt, h.cycle_eq, h.queue_index, h.index_eq,
    h.cycle_eq, h.request,
    h.link⟩

/-- One operation of the system is one of the queue. -/
theorem exec {op : Op} {out : Out} {q' : Queue}
    (hq : q.exec phys op = some (out, q')) :
    ∃ s' n', s.exec op = some (out, s') ∧ Inv phys s' q' n' := by
  cases op with
  | push t =>
    rw [Queue.exec, Option.bind_eq_bind, Option.bind_eq_some_iff] at hq
    obtain ⟨q1, hpush, hq⟩ := hq
    obtain ⟨rfl, rfl⟩ := Prod.mk.inj (Option.some.inj hq)
    obtain ⟨haddr, hinv⟩ := h.push t hpush
    exact ⟨_, n, by rw [Sys.exec, haddr], hinv⟩
  | replace addr t =>
    rw [Queue.exec] at hq
    split at hq
    case isFalse => cases hq
    case isTrue haddr =>
      obtain ⟨rfl, rfl⟩ := Prod.mk.inj (Option.some.inj hq)
      obtain ⟨ring, hring, hinv⟩ := h.replace t haddr
      exact ⟨_, n, by rw [Sys.exec, hring]; rfl, hinv⟩
  | step =>
    obtain ⟨rfl, rfl⟩ := Prod.mk.inj (Option.some.inj hq)
    obtain ⟨hread, n', hinv⟩ := h.step hp
    exact ⟨_, n', by rw [Sys.exec, hread], hinv⟩
  | restart =>
    obtain ⟨rfl, rfl⟩ := Prod.mk.inj (Option.some.inj hq)
    exact ⟨_, _, rfl, h.restart hp⟩

/-- A run of the queue is one of the system, with the same outcomes. -/
theorem run {ops : List Op} {outs : List Out}
    (hq : q.run phys ops = some outs) : s.run ops = some outs := by
  induction ops generalizing s q n outs with
  | nil => exact hq
  | cons op ops ih =>
    rw [Queue.run, Option.bind_eq_bind, Option.bind_eq_some_iff] at hq
    obtain ⟨⟨out, q1⟩, hexec, hq⟩ := hq
    obtain ⟨outs, hrest, rfl⟩ : ∃ l, q1.run phys ops = some l ∧ out :: l = _ := by
      simpa [Option.bind_eq_some_iff] using hq
    obtain ⟨s1, n1, hs, hinv⟩ := h.exec hp hexec
    rw [Sys.run, hs]
    show (do let outs ← s1.run ops; some (out :: outs)) = _
    rw [ih hinv hrest]
    rfl

end

end Inv

/-! ### The event ring -/

/-- The ring the controller fills. -/
structure EventRing where
  segment : ℕ → Trb
  index : ℕ
  cycle : Bool

namespace EventRing

/-- **The next event**, if the controller has written one. -/
def next (r : EventRing) : Option Trb × EventRing :=
  let t := r.segment r.index
  if t.cycle ≠ r.cycle then (none, r)
  else if r.index + 1 = 256 then (some t, { r with index := 0, cycle := !r.cycle })
  else (some t, { r with index := r.index + 1 })

end EventRing

/-- The controller's place in the event ring. -/
structure EventSys where
  ring : EventRing := ⟨fun _ => ⟨0, 0, 0, 0⟩, 0, true⟩
  index : ℕ := 0
  cycle : Bool := true

/-- The controller writes an event, or the driver asks for one. -/
inductive EventOp
  | write (t : Trb)
  | next

namespace EventSys

/-- The controller's write, with the cycle bit of its lap. -/
def write (s : EventSys) (t : Trb) : EventSys where
  ring := { s.ring with segment := Function.update s.ring.segment s.index (t.withCycle s.cycle) }
  index := if s.index + 1 = 256 then 0 else s.index + 1
  cycle := if s.index + 1 = 256 then !s.cycle else s.cycle

/-- What the driver's calls return, but for the cycle bits. -/
def run (s : EventSys) : List EventOp → List (Option Trb)
  | [] => []
  | .write t :: ops => (s.write t).run ops
  | .next :: ops => s.ring.next.1.map (·.withCycle false) ::
      { s with ring := s.ring.next.2 }.run ops

end EventSys

/-- **The events it should return**: those written, in order, with at most 256 unread. -/
def eventRun (unread : List Trb) : List EventOp → Option (List (Option Trb))
  | [] => some []
  | .write t :: ops => if unread.length < 256 then eventRun
      (unread ++ [t.withCycle false]) ops else none
  | .next :: ops => (eventRun unread.tail ops).map (unread.head? :: ·)

/-- The event ring holds the events `unread`, `n` having been read. -/
structure EventInv (s : EventSys) (unread : List Trb) (n : ℕ) : Prop where
  holds : Holds 256 Trb.cycle (fun _ t => t.withCycle false) s.ring.segment n unread
  index_eq : s.index = (n + unread.length) % 256
  cycle_eq : s.cycle = lap 256 (n + unread.length)
  ring_index : s.ring.index = n % 256
  ring_cycle : s.ring.cycle = lap 256 n

/-- A place around the ring, one step on. -/
theorem wrap_eq {n : ℕ} : (if n % 256 + 1 = 256 then 0 else n % 256 + 1) = (n + 1) % 256 ∧
    (if n % 256 + 1 = 256 then !lap 256 n else lap 256 n) = lap 256 (n + 1) := by
  have hmod := Nat.mod_lt n (show 0 < 256 by norm_num)
  rcases eq_or_ne (n % 256 + 1) 256 with heq | hne
  · obtain ⟨hzero, hflip⟩ := step_wrap (N := 256) (by norm_num) heq
    rw [if_pos heq, if_pos heq, hzero, hflip]
    exact ⟨rfl, rfl⟩
  · obtain ⟨hnext, hlap⟩ := step_next (N := 256) (n := n) (by omega)
    rw [if_neg hne, if_neg hne, hnext, hlap]
    exact ⟨rfl, rfl⟩

namespace EventInv

variable {s : EventSys} {unread : List Trb} {n : ℕ}

theorem start : EventInv {} [] 0 := by
  have hzero : Trb.cycle ⟨0, 0, 0, 0⟩ = false := by decide
  exact ⟨holds_nil_zero fun _ _ => hzero, rfl, rfl, rfl, rfl⟩

theorem write (h : EventInv s unread n) (hlt : unread.length < 256) (t : Trb) :
    EventInv (s.write t) (unread ++ [t.withCycle false]) n := by
  have hwrite := h.holds.write (y := t.withCycle s.cycle) hlt (Trb.cycle_withCycle.trans h.cycle_eq)
  rw [← h.index_eq, Trb.withCycle_withCycle] at hwrite
  obtain ⟨hindex, hcycle⟩ := wrap_eq (n := n + unread.length)
  rw [← h.index_eq] at hindex hcycle
  rw [← h.cycle_eq] at hcycle
  refine ⟨hwrite, ?_, ?_, h.ring_index, h.ring_cycle⟩
  · rw [List.length_append]
    exact hindex
  · rw [List.length_append]
    exact hcycle

theorem next (h : EventInv s unread n) : s.ring.next.1.map (·.withCycle false) = unread.head? ∧
    ∃ n', EventInv { s with ring := s.ring.next.2 } unread.tail n' := by
  cases unread with
  | nil =>
    have hstop := h.holds.stops (by norm_num)
    rw [← h.ring_index, ← h.ring_cycle] at hstop
    rw [EventRing.next, if_pos hstop]
    exact ⟨rfl, n, h⟩
  | cons t unread =>
    obtain ⟨hread, howned⟩ := h.holds.head
    rw [← h.ring_index] at hread howned
    rw [← h.ring_cycle] at howned
    have hnext : s.ring.next =
        (some (s.ring.segment s.ring.index), ⟨s.ring.segment, (n + 1) % 256, lap 256 (n + 1)⟩) := by
      obtain ⟨hindex, hcycle⟩ := wrap_eq (n := n)
      rw [EventRing.next, if_neg (not_not.mpr howned), ← hindex, ← hcycle,
        h.ring_index, h.ring_cycle]
      split <;> rfl
    rw [hnext]
    refine ⟨congrArg some hread, n + 1, h.holds.tail, ?_, ?_, rfl, rfl⟩
    · rw [Nat.add_right_comm, Nat.add_assoc]
      exact h.index_eq
    · rw [Nat.add_right_comm, Nat.add_assoc]
      exact h.cycle_eq

theorem run (h : EventInv s unread n) {ops : List EventOp} {outs : List (Option Trb)}
    (hrun : eventRun unread ops = some outs) : s.run ops = outs := by
  induction ops generalizing s unread n outs with
  | nil => exact Option.some.inj hrun
  | cons op ops ih =>
    cases op with
    | write t =>
      rw [eventRun] at hrun
      split at hrun
      case isFalse => cases hrun
      case isTrue hlt => exact ih (h.write hlt t) hrun
    | next =>
      rw [eventRun, Option.map_eq_some_iff] at hrun
      obtain ⟨rest, hrest, rfl⟩ := hrun
      obtain ⟨hhead, n', hinv⟩ := h.next
      rw [EventSys.run, hhead, ih hinv hrest]

end EventInv

/-- **The rings are queues.** Whatever the driver pushes, replaces and restarts, and however the
controller's steps come between, as long as at most 254 requests are unread, the consumer reads what
the queue has, and no push or replacement fails; and the driver's calls return the events the
controller wrote. -/
theorem rings_deliver :
    (∀ phys, Page phys → ∀ ops outs, ({} : Queue).run phys ops = some outs →
      (Sys.start phys).run ops = some outs) ∧
      ∀ ops outs, eventRun [] ops = some outs → ({} : EventSys).run ops = outs :=
  ⟨fun _ hp _ _ h => (Inv.start hp).run hp h, fun _ _ h => EventInv.start.run h⟩

/-- A request chained to the next one. -/
def Request.chained : Request := ⟨⟨0, 0, 0, 1#32 <<< 10 ||| 16#32⟩, by decide⟩

/-- A lap of commands, the last one chained over the link, and the first of the next lap, which is
replaced before it is read; one more is dropped by a restart. -/
def lapOps : List Op :=
  (List.replicate 254 [.push .noOpCommand, .step]).flatten ++
    [.push .chained, .step, .step, .push .chained, .replace 4096 .noOpCommand, .step,
      .push .noOpCommand, .restart, .step]

/-- What comes of it: the link has the chain bit of the command before it. -/
def lapOuts : List Out :=
  let noOp i : Entry := .trb (4096 + i * 16) Request.noOpCommand.trb
  let chained : Entry := .trb (4096 + 254 * 16) Request.chained.trb
  (List.range 254).flatMap (fun i => [.address (4096 + i * 16), .read (some (noOp i))]) ++
    [.address (4096 + 254 * 16), .read (some chained), .read (some (.link true)), .address 4096,
      .done, .read (some (noOp 0)), .address (4096 + 16), .done, .read none]

theorem rings_deliver_lap : (Sys.start 4096).run lapOps = some lapOuts ∧
    ({} : EventSys).run [.next, .write Request.noOpCommand.trb, .next, .next] =
      [none, some Request.noOpCommand.trb, none] :=
  ⟨rings_deliver.1 4096 ⟨rfl, by norm_num⟩ _ _ (by decide +kernel),
    rings_deliver.2 _ _ (by decide +kernel)⟩

end RelayOs.Xhci
