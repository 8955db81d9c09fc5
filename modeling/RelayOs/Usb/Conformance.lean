import RelayOs.Usb.Transport

/-!
# Conformance of the bulk-only transport

A device that got a command block wrapper owes a status wrapper; until it has given one, or
has been reset, it must not be sent another command. Whether the transport keeps to that is
a property of the trace of a whole session (`RelayOs.Usb.Transport.Good`): every wrapper in
it is **settled** before the next one (`RelayOs.Usb.Transport.Settles`) – by a valid status
wrapper with its tag that says passed or failed, by a reset recovery issued to the end, or
because the bus said that the device or the controller is gone.
-/

namespace RelayOs.Usb

open Prog

/-! ### Events -/

/-- The error an event brought. -/
def failureOf (e : Event bus) : Option UsbError := BusRequest.failure e.request e.reply

/-- The bus said that the device or the controller is gone. -/
def Fatal (e : Event bus) : Prop := ∃ x, failureOf e = some x ∧ isFatal x = true

/-- The command block wrapper a request sends. -/
def wrapperOf : BusRequest → Option Cbw
  | .bulkOut _ _ (.wrapper cbw) => some cbw
  | _ => none

/-- The request sends no command block wrapper. -/
def Plain (r : BusRequest) : Prop := wrapperOf r = none

/-- No event of the trace is fatal. -/
def Calm (tr : Trace bus) : Prop := ∀ e ∈ tr, ¬Fatal e

/-- **A fatal event ends the trace**, and the error it ends with is fatal. -/
def Ends (tr : Trace bus) (err : Option UsbError) : Prop :=
  (Calm tr ∧ ∀ x, err = some x → isFatal x = false) ∨
    ∃ pre e x, tr = pre ++ [e] ∧ Calm pre ∧ Fatal e ∧ err = some x ∧ isFatal x = true

theorem calm_nil : Calm [] := fun _ he => absurd he List.not_mem_nil

theorem Calm.append {tr1 tr2 : Trace bus} (h1 : Calm tr1) (h2 : Calm tr2) : Calm (tr1 ++ tr2) := by
  intro e he
  rcases List.mem_append.mp he with he | he
  · exact h1 e he
  · exact h2 e he

theorem Ends.append {tr1 tr2 : Trace bus} {err : Option UsbError} (h1 : Calm tr1)
    (h2 : Ends tr2 err) :
    Ends (tr1 ++ tr2) err := by
  rcases h2 with ⟨hc, hx⟩ | ⟨pre, e, x, rfl, hc, he, hx⟩
  · exact Or.inl ⟨h1.append hc, hx⟩
  · exact Or.inr ⟨tr1 ++ pre, e, x, (List.append_assoc ..).symm, h1.append hc, he, hx⟩

theorem Ends.calm {tr : Trace bus} (h : Ends tr none) : Calm tr := by
  rcases h with ⟨hc, -⟩ | ⟨pre, e, x, -, -, -, hx, -⟩
  · exact hc
  · cases hx

theorem ends_nil {err : Option UsbError} (h : ∀ x, err = some x → isFatal x = false) :
    Ends [] err :=
  Or.inl ⟨calm_nil, h⟩

/-- **After a fatal event there is none.** -/
theorem Ends.last {tr pre post : Trace bus} {e : Event bus} {err : Option UsbError}
    (h : Ends tr err)
    (htr : tr = pre ++ e :: post) (he : Fatal e) : post = [] := by
  rcases h with ⟨hc, -⟩ | ⟨pre', e', x, rfl, hc, -⟩
  · exact absurd he (hc e (htr ▸ List.mem_append_right _ List.mem_cons_self))
  · rcases List.eq_nil_or_concat post with hnil | ⟨post', last, hpost⟩
    · exact hnil
    · -- then the fatal event is among those before the last
      have hsplit : pre' ++ [e'] = (pre ++ e :: post') ++ [last] := by simpa [hpost] using htr
      have hpre := (List.append_inj' hsplit rfl).1
      exact absurd he (hc e (hpre ▸ List.mem_append_right _ List.mem_cons_self))

/-! ### Steps whose fatal events end them -/

/-- Whatever the replies, a fatal event ends the step. -/
def Fair {α : Type} (x : Step α) : Prop := ∀ tr r, x.run.Runs tr r → Ends tr (errorOf r)

section Fair

variable {α β : Type}

theorem fair_pure (a : α) : Fair (pure a : Step α) := by
  rintro tr r ⟨rfl, rfl⟩
  exact ends_nil fun _ hx => nomatch hx

theorem fair_throw {e : UsbError} (he : isFatal e = false) : Fair (throw e : Step α) := by
  rintro tr r ⟨rfl, rfl⟩
  refine ends_nil fun x hx => ?_
  obtain rfl : e = x := Option.some.inj hx
  exact he

theorem Fair.bind {x : Step α} {f : α → Step β} (hx : Fair x) (hf : ∀ a, Fair (f a)) :
    Fair (x >>= f) := by
  intro tr r h
  rcases runs_except_bind.mp h with ⟨t1, a, t2, h1, h2, rfl⟩ | ⟨e, h1, rfl⟩
  · exact (hf a t2 r h2).append (hx t1 _ h1).calm
  · exact hx tr _ h1

theorem ends_event (e : Event bus) : Ends [e] (failureOf e) := by
  by_cases he : Fatal e
  · obtain ⟨x, hx, hfatal⟩ := he
    exact Or.inr ⟨[], e, x, rfl, calm_nil, ⟨x, hx, hfatal⟩, hx, hfatal⟩
  · refine Or.inl ⟨fun e' he' => ?_, fun x hx => ?_⟩
    · rwa [List.mem_singleton.mp he']
    · exact Bool.eq_false_iff.mpr fun hfatal => he ⟨x, hx, hfatal⟩

theorem fair_ask {r : BusRequest} {f : r.Reply → Step β}
    (hcalm : ∀ x, (∀ e, r.failure x = some e → isFatal e = false) → Fair (f x))
    (hfatal : ∀ x e, r.failure x = some e → isFatal e = true → f x = throw e) :
    Fair ((liftM (request (S := bus) r) : Step r.Reply) >>= f) := by
  intro tr res h
  rcases runs_except_bind.mp h with ⟨t1, x, t2, h1, h2, rfl⟩ | ⟨e, h, -⟩
  · obtain ⟨y, hy, hxy⟩ := runs_lift.mp h1
    obtain rfl := Except.ok.inj hxy
    obtain rfl := runs_request.mp hy
    have hev := ends_event ⟨r, x⟩
    rcases hev with ⟨hc, hx⟩ | ⟨pre, e, err, htr, hc, he, hx, herr⟩
    · exact (hcalm x hx t2 res h2).append hc
    · rw [hfatal x err hx herr] at h2
      obtain ⟨rfl, rfl⟩ := h2
      exact Or.inr ⟨pre, e, err, by rw [List.append_nil, htr], hc, he, rfl, herr⟩
  · obtain ⟨y, -, hy⟩ := runs_lift.mp h
    cases hy

end Fair

theorem Csw.parse_error {b : Bytes} {tag length : ℕ} {e : UsbError}
    (h : Csw.parse b tag length = .error e) :
    ∃ what, e = .protocol what := by
  rw [parse] at h
  repeat' split at h
  all_goals first | exact ⟨_, (Except.error.inj h).symm⟩ | cases h

theorem Csw.tag_of_parse {b : Bytes} {tag length : ℕ} {csw : Csw}
    (h : Csw.parse b tag length = .ok csw) :
    csw.tag = tag := by
  rw [parse] at h
  split at h
  · cases h
  split at h
  · cases h
  split at h
  · cases h
  · next htag =>
    split at h
    · cases h
    · split at h
      · cases h
      · rw [← Except.ok.inj h]
        exact not_not.mp htag

namespace Transport

variable {t : Transport} {tr : Trace bus}

theorem fair_clearHalt (t : Transport) (endpoint : ℕ) : Fair (t.clearHalt endpoint) := by
  intro tr r h
  obtain rfl := runs_request.mp h
  exact ends_event ⟨.clearHalt t.slot endpoint, r⟩

theorem fair_sendCbw (t : Transport) (cbw : Cbw) : Fair (t.sendCbw cbw) := by
  refine Fair.bind ?_ fun n => ?_
  · intro tr r h
    obtain rfl := runs_request.mp h
    exact ends_event ⟨.bulkOut t.slot t.bulkOut (.wrapper cbw), r⟩
  · split
    · exact fair_pure ()
    · exact fair_throw rfl

variable {r : Except UsbError ℕ} {e : UsbError} {tag length : ℕ} {csw : Csw} {data : Data}

theorem fair_moved (t : Transport) (endpoint : ℕ)
    (hr : ∀ e, errorOf r = some e → isFatal e = false) : Fair (t.moved endpoint r) := by
  cases r with
  | ok n => exact fair_pure n
  | error e =>
    have he := hr e rfl
    cases e <;>
      first
      | exact (fair_clearHalt t endpoint).bind fun _ => fair_pure 0
      | exact fair_throw he

theorem moved_of_fatal {endpoint : ℕ} (hr : errorOf r = some e)
    (he : isFatal e = true) : t.moved endpoint r = throw e := by
  cases r with
  | ok n => cases hr
  | error x =>
    obtain rfl : x = e := Option.some.inj hr
    cases x <;> first | rfl | cases he

theorem fair_dataPhase (t : Transport) (data : Data) : Fair (t.dataPhase data) := by
  cases data with
  | none => exact fair_pure _
  | input len =>
    refine fair_ask (fun x hx => (fair_moved t _ hx).bind fun n => fair_pure _) fun x e hx he => ?_
    rw [moved_of_fatal hx he]
    rfl
  | output bytes =>
    refine fair_ask (fun x hx => (fair_moved t _ hx).bind fun n => fair_pure _) fun x e hx he => ?_
    rw [moved_of_fatal hx he]
    rfl

theorem fair_parseCsw (tag length n : ℕ) (raw : Bytes) : Fair (parseCsw tag length n raw) := by
  rw [parseCsw]
  cases hp : Csw.parse (raw.take (min n cswLen)) tag length with
  | ok csw => exact fair_pure csw
  | error e =>
    obtain ⟨what, rfl⟩ := Csw.parse_error hp
    exact fair_throw rfl

theorem fair_rereadCsw (t : Transport) (tag length : ℕ) : Fair (t.rereadCsw tag length) := by
  refine (fair_clearHalt t _).bind fun _ => fair_ask (fun x hx => ?_) fun x e hx he => ?_
  · obtain ⟨r, raw⟩ := x
    cases r with
    | ok n => exact fair_parseCsw tag length n raw.1
    | error e => exact fair_throw (hx e rfl)
  · obtain ⟨r, raw⟩ := x
    cases r with
    | ok n => cases hx
    | error e' =>
      obtain rfl : e' = e := Option.some.inj hx
      rfl

theorem fair_readCsw (t : Transport) (tag length : ℕ) : Fair (t.readCsw tag length) := by
  refine fair_ask (fun x hx => ?_) fun x e hx he => ?_
  · obtain ⟨r, raw⟩ := x
    cases r with
    | ok n => exact fair_parseCsw tag length n raw.1
    | error e =>
      have hcalm := hx e rfl
      cases e <;>
        first
        | exact fair_rereadCsw t tag length
        | exact fair_throw hcalm
  · obtain ⟨r, raw⟩ := x
    cases r with
    | ok n => cases hx
    | error e' =>
      obtain rfl : e' = e := Option.some.inj hx
      cases e' <;> first | rfl | cases he

theorem fair_exchange (t : Transport) (cdb : Bytes) (data : Data) : Fair (t.exchange cdb data) :=
  (fair_sendCbw t _).bind fun _ => (fair_dataPhase t data).bind fun _ =>
    (fair_readCsw t _ _).bind fun _ => fair_pure _

/-! ### Where the wrappers are -/

theorem asks_clearHalt (t : Transport) (endpoint : ℕ) : (t.clearHalt endpoint).run.Asks Plain :=
  ⟨rfl, fun _ => trivial⟩

theorem asks_moved (t : Transport) (endpoint : ℕ) (r : Except UsbError ℕ) :
    (t.moved endpoint r).run.Asks Plain := by
  cases r with
  | ok n => trivial
  | error e =>
    cases e <;>
      first
      | exact asks_except_bind (asks_clearHalt t endpoint) fun _ => trivial
      | trivial

theorem asks_dataPhase (t : Transport) (data : Data) : (t.dataPhase data).run.Asks Plain := by
  cases data with
  | none => trivial
  | input len =>
    refine asks_except_bind (asks_lift ⟨rfl, fun _ => trivial⟩) fun r => ?_
    exact asks_except_bind (asks_moved t _ _) fun _ => trivial
  | output bytes =>
    refine asks_except_bind (asks_lift ⟨rfl, fun _ => trivial⟩) fun r => ?_
    exact asks_except_bind (asks_moved t _ _) fun _ => trivial

theorem asks_parseCsw (tag length n : ℕ) (raw : Bytes) :
    (parseCsw tag length n raw).run.Asks Plain := by
  rw [parseCsw]
  split <;> trivial

theorem asks_rereadCsw (t : Transport) (tag length : ℕ) :
    (t.rereadCsw tag length).run.Asks Plain := by
  refine asks_except_bind (asks_clearHalt t _) fun _ => ?_
  refine asks_except_bind (asks_lift ⟨rfl, fun _ => trivial⟩) fun r => ?_
  obtain ⟨_ | n, raw⟩ := r
  · trivial
  · exact asks_parseCsw tag length n raw.1

theorem asks_readCsw (t : Transport) (tag length : ℕ) : (t.readCsw tag length).run.Asks Plain := by
  refine asks_except_bind (asks_lift ⟨rfl, fun _ => trivial⟩) fun r => ?_
  obtain ⟨e | n, raw⟩ := r
  · cases e <;> first | exact asks_rereadCsw t tag length | trivial
  · exact asks_parseCsw tag length n raw.1

theorem asks_recoverStep (t : Transport) (step : Option ℕ) : (t.recoverStep step).Asks Plain := by
  cases step with
  | none => exact ⟨rfl, fun _ => trivial⟩
  | some endpoint => exact ⟨rfl, fun _ => trivial⟩

theorem asks_recoverFrom (t : Transport) (cause : UsbError) (steps : List (Option ℕ)) :
    (t.recoverFrom cause steps).Asks Plain := by
  induction steps with
  | nil => trivial
  | cons step steps ih =>
    refine asks_bind (asks_recoverStep t step) fun r => ?_
    rcases r with e | ⟨⟨⟩⟩
    · dsimp only
      split
      · trivial
      · exact ih
    · exact ih

theorem asks_recover (t : Transport) (cause : UsbError) : (t.recover cause).Asks Plain := by
  rw [recover]
  split
  · trivial
  · exact asks_recoverFrom t cause _

/-! ### Status wrappers and recoveries in a trace -/

/-- The event brought the status wrapper `csw`, valid for `tag` and `length`. -/
def StatusRead (t : Transport) (tag length : ℕ) (csw : Csw) (e : Event bus) : Prop :=
  ∃ n raw, e = ⟨.bulkIn t.slot t.bulkIn .status, (.ok n, raw)⟩ ∧
    Csw.parse (raw.1.take (min n cswLen)) tag length = .ok csw

/-- The event moved the data, every byte of them. -/
def Moved (t : Transport) (data : Data) (e : Event bus) : Prop :=
  match data with
  | .none => False
  | .input len => ∃ buf, e = ⟨.bulkIn t.slot t.bulkIn (.data len), (.ok len, buf)⟩
  | .output bytes => e = ⟨.bulkOut t.slot t.bulkOut (.data bytes), .ok bytes.length⟩

theorem runs_parseCsw {n : ℕ} {raw : Bytes}
    (h : (parseCsw tag length n raw).run.Runs tr (.ok csw)) :
    tr = [] ∧ Csw.parse (raw.take (min n cswLen)) tag length = .ok csw := by
  rw [parseCsw] at h
  cases hp : Csw.parse (raw.take (min n cswLen)) tag length with
  | ok csw' =>
    rw [hp] at h
    obtain ⟨rfl, hcsw⟩ := runs_pure.mp h
    exact ⟨rfl, by rw [Except.ok.inj hcsw]⟩
  | error e =>
    rw [hp] at h
    cases (runs_throw.mp h).2

theorem runs_statusIn {r : Except UsbError (Except UsbError ℕ × Block cswLen)}
    (h : (liftM t.statusIn : Step _).run.Runs tr r) :
    ∃ x, r = .ok x ∧ tr = [⟨.bulkIn t.slot t.bulkIn .status, x⟩] := by
  obtain ⟨x, hx, rfl⟩ := runs_lift.mp h
  exact ⟨x, rfl, runs_request.mp hx⟩

theorem runs_rereadCsw (h : (t.rereadCsw tag length).run.Runs tr (.ok csw)) :
    ∃ e ∈ tr, t.StatusRead tag length csw e := by
  rcases runs_except_bind.mp h with ⟨t1, -, t2, -, h2, rfl⟩ | ⟨e, -, he⟩
  · rcases runs_except_bind.mp h2 with ⟨t3, a, t4, h3, h4, rfl⟩ | ⟨e, -, he⟩
    · obtain ⟨⟨r, raw⟩, ha, rfl⟩ := runs_statusIn h3
      cases ha
      cases r with
      | error e => cases (runs_throw.mp h4).2
      | ok n =>
        obtain ⟨-, hp⟩ := runs_parseCsw h4
        exact ⟨_, List.mem_append_right _ List.mem_cons_self, n, raw, rfl, hp⟩
    · cases he
  · cases he

theorem runs_readCsw (h : (t.readCsw tag length).run.Runs tr (.ok csw)) :
    ∃ e ∈ tr, t.StatusRead tag length csw e := by
  rcases runs_except_bind.mp h with ⟨t1, a, t2, h1, h2, rfl⟩ | ⟨e, -, he⟩
  · obtain ⟨⟨r, raw⟩, ha, rfl⟩ := runs_statusIn h1
    cases ha
    cases r with
    | ok n =>
      obtain ⟨-, hp⟩ := runs_parseCsw h2
      exact ⟨_, List.mem_append_left _ List.mem_cons_self, n, raw, rfl, hp⟩
    | error e =>
      -- only a stall leads to a second read
      have hstall : e = .stall := by
        cases e <;> first | rfl | exact absurd (runs_throw.mp h2).2 nofun
      subst hstall
      obtain ⟨e, he, hread⟩ := runs_rereadCsw h2
      exact ⟨e, List.mem_append_right _ he, hread⟩
  · cases he

theorem runs_moved {endpoint n : ℕ} (h : (t.moved endpoint r).run.Runs tr (.ok n))
    (hn : n ≠ 0) : r = .ok n := by
  cases r with
  | ok m =>
    obtain ⟨-, hm⟩ := runs_pure.mp h
    cases hm
    rfl
  | error e =>
    have hstall : e = .stall := by
      cases e <;> first | rfl | exact absurd (runs_throw.mp h).2 nofun
    subst hstall
    -- a stalled data phase counts as nothing moved
    rcases runs_except_bind.mp h with ⟨t1, -, t2, -, h2, -⟩ | ⟨e, -, he⟩
    · obtain ⟨-, hm⟩ := runs_pure.mp h2
      cases hm
      exact absurd rfl hn
    · cases he

theorem runs_dataPhase {m : ℕ × Bytes} (h : (t.dataPhase data).run.Runs tr (.ok m))
    (hlen : data.len ≠ 0) (hm : m.1 = data.len) : ∃ e ∈ tr, t.Moved data e := by
  cases data with
  | none => exact absurd rfl hlen
  | input len =>
    rcases runs_except_bind.mp h with ⟨t1, x, t2, h1, h2, rfl⟩ | ⟨e, -, he⟩
    · obtain ⟨⟨r, buf⟩, hx, hx'⟩ := runs_lift.mp h1
      cases hx'
      obtain rfl := runs_request.mp hx
      rcases runs_except_bind.mp h2 with ⟨t3, n, t4, h3, h4, rfl⟩ | ⟨e, -, he⟩
      · obtain ⟨-, hn⟩ := runs_pure.mp h4
        cases hn
        obtain rfl : n = len := hm
        obtain rfl : r = .ok n := runs_moved h3 hlen
        exact ⟨_, List.mem_append_left _ List.mem_cons_self, buf, rfl⟩
      · cases he
    · cases he
  | output bytes =>
    rcases runs_except_bind.mp h with ⟨t1, x, t2, h1, h2, rfl⟩ | ⟨e, -, he⟩
    · obtain ⟨r, hx, hx'⟩ := runs_lift.mp h1
      cases hx'
      obtain rfl := runs_request.mp hx
      rcases runs_except_bind.mp h2 with ⟨t3, n, t4, h3, h4, rfl⟩ | ⟨e, -, he⟩
      · obtain ⟨-, hn⟩ := runs_pure.mp h4
        cases hn
        obtain rfl : n = bytes.length := hm
        obtain rfl := runs_moved h3 hlen
        exact ⟨_, List.mem_append_left _ List.mem_cons_self, rfl⟩
      · cases he
    · cases he

theorem runs_sendCbw {cbw : Cbw} {r : Except UsbError Unit} (h : (t.sendCbw cbw).run.Runs tr r) :
    ∃ x, tr = [⟨.bulkOut t.slot t.bulkOut (.wrapper cbw), x⟩] := by
  rcases runs_except_bind.mp h with ⟨t1, n, t2, h1, h2, rfl⟩ | ⟨e, h1, -⟩
  · obtain rfl := runs_request.mp h1
    refine ⟨.ok n, ?_⟩
    have hnil : t2 = [] := by
      split at h2
      · exact (runs_pure.mp h2).1
      · exact (runs_throw.mp h2).1
    rw [hnil, List.append_nil]
  · exact ⟨.error e, runs_request.mp h1⟩

/-- **What an exchange does**: it sends its wrapper, with the event `e`, and no other; a fatal
event ends it; and a status it returns has been read. -/
structure Exchanged (t : Transport) (cdb : Bytes) (data : Data) (e : Event bus) (rest : Trace bus)
    (r : Except UsbError ((ℕ × Bytes) × Csw)) : Prop where
  ends : Ends (e :: rest) (errorOf r)
  sent : wrapperOf e.request = some (t.cbw cdb data)
  plain : ∀ e ∈ rest, Plain e.request
  read : ∀ m csw, r = .ok (m, csw) → ∃ e ∈ rest, t.StatusRead t.nextTag data.len csw e
  moved : ∀ m csw, r = .ok (m, csw) → data.len ≠ 0 → m.1 = data.len → ∃ e ∈ rest, t.Moved data e

theorem runs_exchange {cdb : Bytes} {r : Except UsbError ((ℕ × Bytes) × Csw)}
    (h : (t.exchange cdb data).run.Runs tr r) :
    ∃ e rest, tr = e :: rest ∧ t.Exchanged cdb data e rest r := by
  have hends := fair_exchange t cdb data tr r h
  rcases runs_except_bind.mp h with ⟨t1, _, t2, h1, h2, rfl⟩ | ⟨e, h1, rfl⟩
  · obtain ⟨x, rfl⟩ := runs_sendCbw h1
    have hplain : ∀ e ∈ t2, Plain e.request := by
      refine Asks.of_runs ?_ h2
      refine asks_except_bind (asks_dataPhase t data) fun _ => ?_
      exact asks_except_bind (asks_readCsw t _ _) fun _ => trivial
    refine ⟨_, t2, rfl, hends, rfl, hplain, ?_, ?_⟩
    all_goals
      rintro m csw rfl
      rcases runs_except_bind.mp h2 with ⟨t3, m', t4, h3, h4, rfl⟩ | ⟨e, -, he⟩
      case inr => cases he
      rcases runs_except_bind.mp h4 with ⟨t5, csw', t6, h5, h6, rfl⟩ | ⟨e, -, he⟩
      case inr => cases he
      cases (runs_pure.mp h6).2
    · obtain ⟨e, he, hread⟩ := runs_readCsw h5
      exact ⟨e, by simp [he], hread⟩
    · intro hlen hm
      obtain ⟨e, he, hmoved⟩ := runs_dataPhase h3 hlen hm
      exact ⟨e, by simp [he], hmoved⟩
  · obtain ⟨x, rfl⟩ := runs_sendCbw h1
    exact ⟨_, [], rfl, hends, rfl, fun _ he => absurd he List.not_mem_nil, nofun, nofun⟩

/-! ### Every wrapper is settled -/

/-- A status wrapper that answers `c` has been read, and says passed or failed. -/
def Answered (t : Transport) (c : Cbw) (mid : Trace bus) : Prop :=
  ∃ e ∈ mid, ∃ csw, t.StatusRead c.tag c.dataLength csw e ∧ csw.tag = c.tag ∧
    (csw.status = .passed ∨ csw.status = .failed)

/-- A reset recovery has been issued: the class reset, then both halt clears. -/
def Recovered (t : Transport) (mid : Trace bus) : Prop :=
  ∃ x y z, [⟨.control t.slot t.resetSetup, x⟩, ⟨.clearHalt t.slot t.bulkIn, y⟩,
    ⟨.clearHalt t.slot t.bulkOut, z⟩] <:+: mid

/-- **The wrapper `c`, sent with the event `e`, is settled** by what came after it. -/
def Settles (t : Transport) (c : Cbw) (e : Event bus) (mid : Trace bus) : Prop :=
  t.Answered c mid ∨ t.Recovered mid ∨ ∃ e' ∈ e :: mid, Fatal e'

theorem Settles.mono {c : Cbw} {e : Event bus} {mid mid' : Trace bus} (h : t.Settles c e mid)
    (hle : mid <:+: mid') :
    t.Settles c e mid' := by
  rcases h with ⟨e', he', hcsw⟩ | ⟨x, y, z, hrec⟩ | ⟨e', he', hfatal⟩
  · exact Or.inl ⟨e', hle.subset he', hcsw⟩
  · exact Or.inr (Or.inl ⟨x, y, z, hrec.trans hle⟩)
  · exact Or.inr (Or.inr ⟨e', List.cons_subset_cons e hle.subset he', hfatal⟩)

/-- The events up to the next wrapper. -/
def untilNext (tr : Trace bus) : Trace bus := tr.takeWhile fun e => (wrapperOf e.request).isNone

/-- **Every wrapper of the trace is settled** before the next one, and before the end. -/
def Good (t : Transport) : Trace bus → Prop
  | [] => True
  | e :: rest => (∀ c, wrapperOf e.request = some c → t.Settles c e (untilNext rest)) ∧ Good t rest

theorem good_of_plain (h : ∀ e ∈ tr, Plain e.request) : t.Good tr := by
  induction tr with
  | nil => trivial
  | cons e rest ih =>
    refine ⟨fun c hc => ?_, ih fun e' he' => h e' (List.mem_cons_of_mem e he')⟩
    have hplain : wrapperOf e.request = none := h e List.mem_cons_self
    rw [hc] at hplain
    cases hplain

theorem untilNext_append {tr' : Trace bus} (h : ∀ e ∈ tr, Plain e.request) :
    untilNext (tr ++ tr') = tr ++ untilNext tr' := by
  refine List.takeWhile_append_of_pos fun e he => ?_
  rw [show wrapperOf e.request = none from h e he]
  rfl

theorem untilNext_grows (tr tr' : Trace bus) : untilNext tr <+: untilNext (tr ++ tr') := by
  rw [untilNext, untilNext, List.takeWhile_append]
  split
  · exact (List.takeWhile_prefix _).trans (List.prefix_append ..)
  · exact List.prefix_rfl

/-- More events after a trace only settle more. -/
theorem Good.append {tr' : Trace bus} (h : t.Good tr) (h' : t.Good tr') : t.Good (tr ++ tr') := by
  induction tr with
  | nil => exact h'
  | cons e rest ih =>
    exact ⟨fun c hc => (h.1 c hc).mono (untilNext_grows rest tr').isInfix, ih h.2⟩

theorem good_of_settles {e : Event bus} {rest : Trace bus} {c : Cbw}
    (hc : wrapperOf e.request = some c)
    (hrest : ∀ e ∈ rest, Plain e.request) (h : t.Settles c e rest) : t.Good (e :: rest) := by
  refine ⟨fun c' hc' => ?_, good_of_plain hrest⟩
  have hnext : untilNext rest = rest := by
    have happ := @untilNext_append rest [] hrest
    rwa [List.append_nil, show untilNext [] = [] from rfl, List.append_nil] at happ
  rw [hc] at hc'
  rw [hnext]
  exact Option.some.inj hc' ▸ h

/-- **Two wrappers in a row**: the first is settled by what is between them. -/
theorem Good.between {pre mid post : Trace bus} {e1 e2 : Event bus} {c1 c2 : Cbw} (h : t.Good tr)
    (htr : tr = pre ++ e1 :: (mid ++ e2 :: post)) (h1 : wrapperOf e1.request = some c1)
    (h2 : wrapperOf e2.request = some c2) (hmid : ∀ e ∈ mid, Plain e.request) :
    t.Settles c1 e1 mid := by
  subst htr
  induction pre with
  | nil =>
    have hnext : untilNext (e2 :: post) = [] := List.takeWhile_cons_of_neg (by rw [h2]; simp)
    have hsettles := h.1 c1 h1
    rwa [untilNext_append hmid, hnext, List.append_nil] at hsettles
  | cons e pre ih => exact ih h.2

/-- The transport with another tag is good for the same traces. -/
theorem good_advance (t : Transport) (tr : Trace bus) : t.advance.Good tr ↔ t.Good tr := by
  induction tr with
  | nil => exact Iff.rfl
  | cons e rest ih => exact and_congr Iff.rfl ih

/-! ### Recovery -/

/-- The request of a step of a recovery. -/
def stepRequest (t : Transport) : Option ℕ → BusRequest
  | none => .control t.slot t.resetSetup
  | some endpoint => .clearHalt t.slot endpoint

theorem runs_recoverStep {step : Option ℕ} {r : Except UsbError Unit}
    (h : (t.recoverStep step).Runs tr r) :
    ∃ e : Event bus, tr = [e] ∧ e.request = t.stepRequest step ∧ failureOf e = errorOf r := by
  cases step with
  | none =>
    obtain ⟨t1, x, t2, h1, ⟨rfl, rfl⟩, rfl⟩ := runs_bind.mp h
    obtain rfl := runs_request.mp h1
    refine ⟨_, rfl, rfl, ?_⟩
    rcases x with e | n <;> rfl
  | some endpoint =>
    obtain rfl := runs_request.mp h
    exact ⟨_, rfl, rfl, rfl⟩

theorem runs_recoverFrom {cause : UsbError} (hcause : isFatal cause = false)
    {steps : List (Option ℕ)}
    (h : (t.recoverFrom cause steps).Runs tr e) : Ends tr (some e) ∧
      (tr.map Event.request = steps.map t.stepRequest ∨ ∃ e ∈ tr, Fatal e) := by
  induction steps generalizing tr with
  | nil =>
    obtain ⟨rfl, rfl⟩ := h
    exact ⟨ends_nil fun x hx => Option.some.inj hx ▸ hcause, Or.inl rfl⟩
  | cons step steps ih =>
    obtain ⟨t1, r, t2, h1, h2, rfl⟩ := runs_bind.mp h
    obtain ⟨ev, rfl, hreq, hfail⟩ := runs_recoverStep h1
    by_cases hfatal : Fatal ev
    · -- the step showed the device gone: its error is the result
      obtain ⟨x, hx, hxf⟩ := hfatal
      rw [hfail] at hx
      rcases r with e' | ⟨⟨⟩⟩
      · obtain rfl : e' = x := Option.some.inj hx
        simp only [hxf, if_true] at h2
        obtain ⟨rfl, rfl⟩ := h2
        have hev : Fatal ev := ⟨e, hfail, hxf⟩
        exact ⟨Or.inr ⟨[], ev, e, rfl, calm_nil, hev, rfl, hxf⟩,
          Or.inr ⟨ev, List.mem_cons_self, hev⟩⟩
      · cases hx
    · have hgo : (t.recoverFrom cause steps).Runs t2 e := by
        rcases r with e' | ⟨⟨⟩⟩
        · have hcalm : ¬isFatal e' = true := fun hf => hfatal ⟨e', hfail, hf⟩
          simpa only [if_neg hcalm] using h2
        · exact h2
      obtain ⟨hends, hsteps⟩ := ih hgo
      have hcalm : Calm [ev] := fun e' he' => List.mem_singleton.mp he' ▸ hfatal
      refine ⟨hends.append hcalm, ?_⟩
      rcases hsteps with hsteps | ⟨e', he', hf⟩
      · refine Or.inl ?_
        rw [List.map_append, List.map_cons, List.map_nil, hreq, hsteps]
        rfl
      · exact Or.inr ⟨e', List.mem_append_right _ he', hf⟩

/-- **A recovery** after an error that is not fatal: it is issued to the end, unless a step
shows the device gone. -/
theorem runs_recover {cause : UsbError} (hcause : isFatal cause = false)
    (h : (t.recover cause).Runs tr e) :
    Ends tr (some e) ∧ (t.Recovered tr ∨ ∃ e ∈ tr, Fatal e) := by
  rw [recover, hcause] at h
  obtain ⟨hends, hsteps | hfatal⟩ := runs_recoverFrom hcause h
  · refine ⟨hends, Or.inl ?_⟩
    match tr, hsteps with
    | [⟨_, x⟩, ⟨_, y⟩, ⟨_, z⟩], hsteps =>
      obtain ⟨rfl, hsteps1⟩ := List.cons.inj hsteps
      obtain ⟨rfl, hsteps2⟩ := List.cons.inj hsteps1
      obtain ⟨rfl, -⟩ := List.cons.inj hsteps2
      exact ⟨x, y, z, List.infix_rfl⟩
  · exact ⟨hends, Or.inr hfatal⟩

section Finish

variable {cdb : Bytes} {data : Data} {e : Event bus} {rest tr2 : Trace bus}

/-- An exchange that is answered is settled, and nothing in it was fatal. -/
theorem Exchanged.answered {m : ℕ × Bytes} {csw : Csw}
    (hx : t.Exchanged cdb data e rest (.ok (m, csw)))
    (hs : csw.status = .passed ∨ csw.status = .failed) : t.Good (e :: rest) ∧ Calm (e :: rest) := by
  obtain ⟨ev, hev, hread⟩ := hx.read m csw rfl
  refine ⟨good_of_settles hx.sent hx.plain (Or.inl ⟨ev, hev, csw, hread, ?_, hs⟩), hx.ends.calm⟩
  obtain ⟨n, raw, -, hparse⟩ := hread
  exact Csw.tag_of_parse hparse

theorem Exchanged.recovered {r : Except UsbError ((ℕ × Bytes) × Csw)} {cause err : UsbError}
    (hx : t.Exchanged cdb data e rest r)
    (hr : errorOf r = some cause ∨ errorOf r = none ∧ isFatal cause = false)
    (h : (t.advance.recover cause).Runs tr2 err) :
    t.Good (e :: rest ++ tr2) ∧ Ends (e :: rest ++ tr2) (some err) := by
  have hplain : ∀ e' ∈ rest ++ tr2, Plain e'.request := by
    intro e' he'
    rcases List.mem_append.mp he' with he' | he'
    · exact hx.plain e' he'
    · exact (asks_recover t.advance cause).of_runs h e' he'
  cases hfatal : isFatal cause with
  | true =>
    -- nothing more is sent
    rcases hr with hr | ⟨-, hcalm⟩
    · rw [recover, if_pos hfatal] at h
      obtain ⟨rfl, rfl⟩ := h
      rw [List.append_nil]
      have hends := hx.ends
      rw [hr] at hends
      refine ⟨good_of_settles hx.sent hx.plain (Or.inr (Or.inr ?_)), hends⟩
      rcases hends with ⟨-, hnot⟩ | ⟨pre, ev, x, htr, -, hev, -⟩
      · rw [hnot _ rfl] at hfatal
        cases hfatal
      · exact ⟨ev, htr ▸ List.mem_append_right _ List.mem_cons_self, hev⟩
    · rw [hfatal] at hcalm
      cases hcalm
  | false =>
    have hcalm : Calm (e :: rest) := by
      rcases hx.ends with ⟨hc, -⟩ | ⟨pre, ev, x, -, -, -, hx', hxf⟩
      · exact hc
      · rcases hr with hr | ⟨hr, -⟩
        · obtain rfl : x = cause := Option.some.inj (hx'.symm.trans hr)
          rw [hfatal] at hxf
          cases hxf
        · rw [hr] at hx'
          cases hx'
    obtain ⟨hends, hrec⟩ := runs_recover hfatal h
    refine ⟨good_of_settles hx.sent hplain (Or.inr ?_), hends.append hcalm⟩
    rcases hrec with ⟨x, y, z, hinfix⟩ | ⟨ev, hev, hf⟩
    · exact Or.inl ⟨x, y, z, hinfix.trans (List.suffix_append rest tr2).isInfix⟩
    · exact Or.inr ⟨ev, List.mem_cons_of_mem e (List.mem_append_right _ hev), hf⟩

theorem Sense.parse_error {b : Bytes} {err : UsbError} (h : Sense.parse b = .error err) :
    isFatal err = false := by
  rw [Sense.parse] at h
  repeat' split at h
  all_goals first | (obtain rfl := Except.error.inj h; rfl) | cases h

/-- **REQUEST SENSE** settles its own wrapper. -/
theorem runs_requestSense {err : UsbError} (h : t.requestSense.Runs tr err) :
    t.Good tr ∧ Ends tr (some err) := by
  obtain ⟨tr1, r, tr2, h1, h2, rfl⟩ := runs_bind.mp h
  obtain ⟨e, rest, rfl, hx⟩ := runs_exchange h1
  -- `recover` sends nothing with a tag
  have hrec : ∀ cause, (t.recover cause).Runs tr2 err →
      (t.advance.recover cause).Runs tr2 err := fun _ => id
  rcases r with cause | ⟨m, csw⟩
  · exact hx.recovered (Or.inl rfl) (hrec cause h2)
  · -- nothing is sent after an answer, and the error says what was answered
    have hdone : ∀ {x : UsbError}, csw.status = .passed ∨ csw.status = .failed → isFatal x = false →
        (ret x : Prog bus UsbError).Runs tr2 err → t.Good (e :: rest ++ tr2) ∧
          Ends (e :: rest ++ tr2) (some err) := by
      rintro x hs hxf ⟨rfl, rfl⟩
      obtain ⟨hgood, hcalm⟩ := hx.answered hs
      rw [List.append_nil]
      exact ⟨hgood, Or.inl ⟨hcalm, fun y hy => Option.some.inj hy ▸ hxf⟩⟩
    cases hs : csw.status with
    | passed =>
      simp only [hs] at h2
      cases hp : Sense.parse (m.2.take (min m.1 senseLen)) with
      | ok sense =>
        rw [hp] at h2
        exact hdone (Or.inl hs) rfl h2
      | error x =>
        rw [hp] at h2
        exact hdone (Or.inl hs) (Sense.parse_error hp) h2
    | failed =>
      simp only [hs] at h2
      exact hdone (Or.inr hs) rfl h2
    | phaseError =>
      simp only [hs] at h2
      exact hx.recovered (Or.inr ⟨rfl, rfl⟩) (hrec _ h2)

/-- Every byte of the data has moved, and the status said so. -/
def Whole (t : Transport) (data : Data) (tr : Trace bus) (m : ℕ × Bytes) : Prop :=
  m.1 = data.len ∧ (data.len ≠ 0 → ∃ e ∈ tr, t.Moved data e) ∧
    ∃ e ∈ tr, ∃ csw, t.StatusRead t.nextTag data.len csw e ∧ csw.status = .passed ∧ csw.residue = 0

/-- **What a command run once does.** -/
structure Executed (t : Transport) (data : Data) (need : Need) (tr : Trace bus)
    (out : Outcome) : Prop where
  good : t.Good tr
  ends : Ends tr (errorOf out.1)
  later : ∀ tr', out.2.Good tr' ↔ t.Good tr'
  whole : ∀ m, out.1 = .ok m → need = .all → t.Whole data tr m

theorem Exchanged.finish {need : Need} {r : Except UsbError ((ℕ × Bytes) × Csw)} {out : Outcome}
    (hx : t.Exchanged cdb data e rest r) (h : (t.finish data.len need r).Runs tr2 out) :
    t.Executed data need (e :: rest ++ tr2) out := by
  -- a recovery ends the command
  have hrecover : ∀ {cause : UsbError}, errorOf r = some cause ∨ errorOf r = none ∧
      isFatal cause = false →
      ((t.advance.recover cause).bind fun x =>
        ret (.error x, t.advance) : Prog bus Outcome).Runs tr2 out →
      t.Executed data need (e :: rest ++ tr2) out := by
    intro cause hr hrun
    obtain ⟨tr3, x, tr4, h3, ⟨rfl, rfl⟩, rfl⟩ := runs_bind.mp hrun
    rw [List.append_nil]
    obtain ⟨hgood, hends⟩ := hx.recovered hr h3
    exact ⟨hgood, hends, good_advance t, nofun⟩
  rcases r with cause | ⟨m, csw⟩
  · exact hrecover (Or.inl rfl) h
  · rw [Transport.finish] at h
    cases hs : csw.status with
    | phaseError =>
      simp only [hs] at h
      exact hrecover (Or.inr ⟨rfl, rfl⟩) h
    | failed =>
      simp only [hs] at h
      obtain ⟨tr3, x, tr4, h3, ⟨rfl, rfl⟩, rfl⟩ := runs_bind.mp h
      obtain ⟨hgood, hcalm⟩ := hx.answered (Or.inr hs)
      obtain ⟨hgood', hends⟩ := runs_requestSense h3
      rw [List.append_nil]
      refine ⟨hgood.append ((good_advance t _).mp hgood'), hends.append hcalm, fun tr' => ?_, nofun⟩
      exact (good_advance t.advance tr').trans (good_advance t tr')
    | passed =>
      simp only [hs] at h
      obtain ⟨hgood, hcalm⟩ := hx.answered (Or.inl hs)
      -- whatever is made of it, nothing more is sent
      have hdone : ∀ {res : Except UsbError (ℕ × Bytes)},
          (ret (res, t.advance) : Prog bus Outcome).Runs tr2 out →
          (∀ x, errorOf res = some x → isFatal x = false) →
          (∀ m', res = .ok m' → need = .all → t.Whole data (e :: rest) m') →
          t.Executed data need (e :: rest ++ tr2) out := by
        rintro res ⟨rfl, rfl⟩ hres hwhole
        rw [List.append_nil]
        exact ⟨hgood, Or.inl ⟨hcalm, hres⟩, good_advance t, hwhole⟩
      split at h
      · exact hdone h (fun x hx => Option.some.inj hx ▸ rfl) nofun
      · next hshort =>
        split at h
        · exact hdone h (fun x hx => Option.some.inj hx ▸ rfl) nofun
        · next hresidue =>
          refine hdone h (fun _ hx => nomatch hx) fun m' hm' hneed => ?_
          cases hm'
          have hlen : m.1 = data.len := not_not.mp fun hne => hshort ⟨hneed, hne⟩
          obtain ⟨ev, hev, hread⟩ := hx.read m csw rfl
          refine ⟨hlen, fun hne => ?_, ev, List.mem_cons_of_mem e hev, csw, hread, hs, ?_⟩
          · obtain ⟨ev', hev', hmoved⟩ := hx.moved m csw rfl hne hlen
            exact ⟨ev', List.mem_cons_of_mem e hev', hmoved⟩
          · exact not_not.mp fun hne => hresidue ⟨hneed, hne⟩

theorem runs_execute {need : Need} {out : Outcome} (h : (t.execute cdb data need).Runs tr out) :
    t.Executed data need tr out := by
  rw [execute] at h
  split at h
  · obtain ⟨rfl, rfl⟩ := h
    exact ⟨trivial, ends_nil fun x hx => Option.some.inj hx ▸ rfl, fun _ => Iff.rfl, nofun⟩
  · obtain ⟨tr1, r, tr2, h1, h2, rfl⟩ := runs_bind.mp h
    obtain ⟨e, rest, rfl, hx⟩ := runs_exchange h1
    exact hx.finish h2

end Finish

/-! ### Commands and sessions -/

/-- **The trace is that of `n` tries at most**: runs of `execute`, one after the other. -/
def Tries (cdb : Bytes) (data : Data) (need : Need) (n : ℕ) (tr : Trace bus) : Prop :=
  ∃ trs : List (Trace bus), trs.length ≤ n ∧ tr = trs.flatten ∧
    ∀ tr' ∈ trs, ∃ t out, (execute t cdb data need).Runs tr' out

/-- **What a command does**, from the try `tries` on. -/
structure Commanded (t : Transport) (cdb : Bytes) (data : Data) (need : Need) (tries : ℕ)
    (tr : Trace bus)
    (out : Outcome) : Prop where
  good : t.Good tr
  ends : Ends tr (errorOf out.1)
  later : ∀ tr', out.2.Good tr' ↔ t.Good tr'
  tried : Tries cdb data need (maxTries - tries + 1) tr

theorem runs_commandFrom {cdb : Bytes} {need : Need} {tries : ℕ} {out : Outcome}
    (h : (t.commandFrom cdb data need tries).Runs tr out) :
    t.Commanded cdb data need tries tr out := by
  induction hn : maxTries - tries using Nat.strong_induction_on generalizing tries t tr with
  | _ n ih =>
    rw [commandFrom] at h
    obtain ⟨tr1, ⟨res, t'⟩, tr2, h1, h2, rfl⟩ := runs_bind.mp h
    have hx := runs_execute h1
    -- the command ends with this try
    have hlast : (ret (res, t') : Prog bus Outcome).Runs tr2 out →
        t.Commanded cdb data need tries (tr1 ++ tr2) out := by
      rintro ⟨rfl, rfl⟩
      rw [List.append_nil]
      refine ⟨hx.good, hx.ends, hx.later, [tr1], by simp, by simp, fun tr' htr' => ?_⟩
      exact ⟨t, _, List.mem_singleton.mp htr' ▸ h1⟩
    rcases res with e | m
    · dsimp only at h2
      split at h2
      · exact hlast h2
      · next hcalm =>
        split at h2
        · exact hlast h2
        · next hagain =>
          have hlt : maxTries - (tries + 1) < n := by omega
          have hrest := ih _ hlt h2 rfl
          have hends : Ends tr1 (some e) := hx.ends
          obtain ⟨trs, hlen, rfl, htrs⟩ := hrest.tried
          refine ⟨hx.good.append ((hx.later _).mp hrest.good), hrest.ends.append ?_,
            fun tr' => (hrest.later tr').trans (hx.later tr'), tr1 :: trs, ?_, rfl, ?_⟩
          · -- an error that is not fatal comes from a try without a fatal event
            rcases hends with ⟨hc, -⟩ | ⟨pre, ev, x, -, -, -, hx', hxf⟩
            · exact hc
            · obtain rfl := Option.some.inj hx'
              exact absurd hxf hcalm
          · rw [List.length_cons]
            omega
          · intro tr' htr'
            rcases List.mem_cons.mp htr' with rfl | htr'
            · exact ⟨t, _, h1⟩
            · exact htrs tr' htr'
    · exact hlast h2

end Transport

/-- A call of the transport. -/
inductive TransportCall
  | execute (cdb : Bytes) (data : Data) (need : Need)
  | command (cdb : Bytes) (data : Data) (need : Need)

namespace Transport

/-- The program behind a call. -/
def perform (t : Transport) : TransportCall → Prog bus Outcome
  | .execute cdb data need => t.execute cdb data need
  | .command cdb data need => t.command cdb data need

/-- **A session**: calls one after the other, whatever each comes to. -/
def session : List TransportCall → Transport → Prog bus Transport
  | [], t => ret t
  | c :: calls, t => (t.perform c).bind fun out => session calls out.2

variable {t : Transport} {tr : Trace bus}

/-- **Every wrapper of a session is settled** before the next one. -/
theorem session_good {calls : List TransportCall} {t' : Transport}
    (h : (session calls t).Runs tr t') : t.Good tr := by
  induction calls generalizing t tr with
  | nil =>
    obtain ⟨rfl, -⟩ := h
    trivial
  | cons c calls ih =>
    obtain ⟨tr1, out, tr2, h1, h2, rfl⟩ := runs_bind.mp h
    have hrest := ih h2
    cases c with
    | execute cdb data need =>
      have hx := runs_execute h1
      exact hx.good.append ((hx.later _).mp hrest)
    | command cdb data need =>
      have hx := runs_commandFrom h1
      exact hx.good.append ((hx.later _).mp hrest)

end Transport

open Transport

/-- **The transport conforms**, whatever the device and the bus do. Between two wrappers it
sends in a row, the first has been answered by a valid status wrapper with its tag that says
passed or failed, or a reset recovery has been issued, or the bus has said that the device or
the controller is gone. A command is tried three times at most, and sends nothing after the
bus has said so. A command that needs all its data succeeds only if they moved and the status
said that they did. -/
theorem transport_conforms (t : Transport) :
    (∀ calls tr t', (session calls t).Runs tr t' → ∀ pre e₁ mid e₂ post c₁ c₂,
      tr = pre ++ e₁ :: (mid ++ e₂ :: post) → wrapperOf e₁.request = some c₁ →
        wrapperOf e₂.request = some c₂ →
      (∀ e ∈ mid, Plain e.request) → t.Answered c₁ mid ∨ t.Recovered mid ∨
        ∃ e ∈ e₁ :: mid, Fatal e) ∧
    (∀ cdb data need tr out, (t.command cdb data need).Runs tr out →
      Tries cdb data need maxTries tr ∧ ∀ pre e post, tr = pre ++ e :: post → Fatal e → post = []) ∧
    ∀ cdb data tr m t', (t.execute cdb data .all).Runs tr (.ok m, t') → t.Whole data tr m := by
  refine ⟨?_, ?_, ?_⟩
  · intro calls tr t' h pre e₁ mid e₂ post c₁ c₂ htr h₁ h₂ hmid
    exact (session_good h).between htr h₁ h₂ hmid
  · intro cdb data need tr out h
    have hx := runs_commandFrom h
    exact ⟨hx.tried, fun pre e post htr he => hx.ends.last htr he⟩
  · intro cdb data tr m t' h
    exact (runs_execute h).whole m rfl rfl

/-- The two events of a command whose status read shows the device gone. -/
def lostEvents (t : Transport) (cdb : Bytes) : Event bus × Event bus :=
  (⟨.bulkOut t.slot t.bulkOut (.wrapper (t.cbw cdb .none)), .ok cbwLen⟩,
    ⟨.bulkIn t.slot t.bulkIn .status,
      (.error .disconnected, ⟨List.replicate cswLen 0, List.length_replicate⟩)⟩)

theorem runs_lostEvents (t : Transport) (cdb : Bytes) : (t.command cdb .none .upTo).Runs
    [(lostEvents t cdb).1, (lostEvents t cdb).2] (.error .disconnected, t.advance) := by
  have hexchange : (t.exchange cdb .none).run.Runs [(lostEvents t cdb).1, (lostEvents t cdb).2]
      (.error .disconnected) := by
    refine runs_except_bind.mpr
      (Or.inl ⟨[(lostEvents t cdb).1], (), [(lostEvents t cdb).2], ?_, ?_, rfl⟩)
    · exact ⟨.ok cbwLen, [], rfl, rfl, rfl⟩
    · exact ⟨_, [], rfl, rfl, rfl⟩
  rw [command, commandFrom]
  refine runs_bind.mpr ⟨_, (.error .disconnected, t.advance), [], ?_, ⟨rfl, rfl⟩,
    (List.append_nil _).symm⟩
  rw [execute, if_neg (by decide)]
  exact runs_bind.mpr ⟨_, _, [], hexchange, ⟨rfl, rfl⟩, (List.append_nil _).symm⟩

/-- The status wrapper with this tag and status, of a command that left nothing over. -/
def cswBytes (tag status : UInt8) : Block cswLen :=
  ⟨[0x55, 0x53, 0x42, 0x53, tag, 0, 0, 0, 0, 0, 0, 0, status], rfl⟩

/-- Four bytes are read: the wrapper, the data, and the status that it passed. -/
def readEvents (t : Transport) (cdb : Bytes) (tag : UInt8) : Trace bus :=
  [⟨.bulkOut t.slot t.bulkOut (.wrapper (t.cbw cdb (.input 4))), .ok cbwLen⟩,
    ⟨.bulkIn t.slot t.bulkIn (.data 4), (.ok 4, ⟨[1, 2, 3, 4], rfl⟩)⟩,
    ⟨.bulkIn t.slot t.bulkIn .status, (.ok cswLen, cswBytes tag 0)⟩]

/-- The status says that the phases went wrong, and the device is reset. -/
def brokenEvents (t : Transport) (cdb : Bytes) (tag : UInt8) : Trace bus :=
  [⟨.bulkOut t.slot t.bulkOut (.wrapper (t.cbw cdb .none)), .ok cbwLen⟩,
    ⟨.bulkIn t.slot t.bulkIn .status, (.ok cswLen, cswBytes tag 2)⟩,
    ⟨.control t.slot t.resetSetup, .ok 0⟩, ⟨.clearHalt t.slot t.bulkIn, .ok ()⟩,
    ⟨.clearHalt t.slot t.bulkOut, .ok ()⟩]

/-- Three wrappers in a row: the first is answered, after the second the device is reset, and
with the third it is lost. -/
theorem transport_conforms_recovers :
    let t := Transport.new 1 0 0x81 0x02
    let cdb : Bytes := [0, 0, 0, 0, 0, 0]
    let calls := [TransportCall.execute cdb (.input 4) .all, .execute cdb .none .upTo,
      .command cdb .none .upTo]
    let lost := [(lostEvents t.advance.advance cdb).1, (lostEvents t.advance.advance cdb).2]
    (session calls t).Runs (readEvents t cdb 1 ++ (brokenEvents t.advance cdb 2 ++ lost))
        t.advance.advance.advance ∧
      (t.Answered (t.cbw cdb (.input 4)) (readEvents t cdb 1).tail ∨
        t.Recovered (readEvents t cdb 1).tail ∨ ∃ e ∈ readEvents t cdb 1, Fatal e) ∧
      (t.Answered (t.advance.cbw cdb .none) (brokenEvents t.advance cdb 2).tail ∨
        t.Recovered (brokenEvents t.advance cdb 2).tail ∨
        ∃ e ∈ brokenEvents t.advance cdb 2, Fatal e) ∧
      Tries cdb .none .upTo maxTries lost ∧
      t.Whole (.input 4) (readEvents t cdb 1) (4, [1, 2, 3, 4]) := by
  intro t cdb calls lost
  have hread : (t.execute cdb (.input 4) .all).Runs (readEvents t cdb 1)
      (.ok (4, [1, 2, 3, 4]), t.advance) :=
    ⟨_, _, rfl, _, _, rfl, _, _, rfl, rfl, rfl⟩
  have hbroken : (t.advance.execute cdb .none .upTo).Runs (brokenEvents t.advance cdb 2)
      (.error (.protocol "phase error"), t.advance.advance) :=
    ⟨_, _, rfl, _, _, rfl, _, _, rfl, _, _, rfl, _, _, rfl, rfl, rfl⟩
  have hlost := runs_lostEvents t.advance.advance cdb
  have hrun : (session calls t).Runs
      (readEvents t cdb 1 ++ (brokenEvents t.advance cdb 2 ++ lost)) t.advance.advance.advance := by
    refine runs_bind.mpr ⟨_, _, _, hread, ?_, rfl⟩
    refine runs_bind.mpr ⟨_, _, _, hbroken, ?_, rfl⟩
    exact runs_bind.mpr ⟨_, _, [], hlost, ⟨rfl, rfl⟩, rfl⟩
  have hplain : (∀ e ∈ (readEvents t cdb 1).tail, Plain e.request) ∧
      ∀ e ∈ (brokenEvents t.advance cdb 2).tail, Plain e.request := by
    simp [readEvents, brokenEvents, Plain, wrapperOf]
  obtain ⟨hbetween, -, hwhole⟩ := transport_conforms t
  refine ⟨hrun, ?_, ?_, ?_, hwhole _ _ _ _ _ hread⟩
  · exact hbetween calls _ _ hrun [] _ _ _ _ _ _ rfl rfl rfl hplain.1
  · exact hbetween calls _ _ hrun (readEvents t cdb 1) _ _ _ _ _ _ rfl rfl rfl hplain.2
  · exact ((transport_conforms t.advance.advance).2.1 _ _ _ _ _ hlost).1

/-- **The last alternative cannot be left out**: when the first command's status read shows the
device gone, the second command's wrapper goes out after neither a status nor a recovery. -/
theorem unsettled_after_disconnect :
    ¬∀ (t : Transport) (calls : List TransportCall) (tr : Trace bus) (t' : Transport),
    (session calls t).Runs tr t' → ∀ pre e₁ mid e₂ post c₁ c₂,
      tr = pre ++ e₁ :: (mid ++ e₂ :: post) → wrapperOf e₁.request = some c₁ →
        wrapperOf e₂.request = some c₂ →
      (∀ e ∈ mid, Plain e.request) → t.Answered c₁ mid ∨ t.Recovered mid := by
  intro h
  let t := Transport.new 1 0 0x81 0x02
  let ready : Bytes := [0, 0, 0, 0, 0, 0]
  let calls := [TransportCall.command ready .none .upTo, .command ready .none .upTo]
  have hrun : (session calls t).Runs
      [(lostEvents t ready).1, (lostEvents t ready).2, (lostEvents t.advance ready).1,
        (lostEvents t.advance ready).2]
      t.advance.advance := by
    refine runs_bind.mpr ⟨_, _, _, runs_lostEvents t ready, ?_, rfl⟩
    exact runs_bind.mpr ⟨_, _, [], runs_lostEvents t.advance ready, ⟨rfl, rfl⟩, rfl⟩
  have hmid : ∀ e ∈ [(lostEvents t ready).2], Plain e.request := by
    intro e he
    rw [List.mem_singleton.mp he]
    rfl
  rcases h t calls _ _ hrun [] _ [(lostEvents t ready).2] _ [(lostEvents t.advance ready).2] _ _ rfl
    rfl rfl hmid with
    ⟨e, he, csw, ⟨n, raw, hev, -⟩, -⟩ | ⟨x, y, z, hinfix⟩
  · rw [List.mem_singleton.mp he] at hev
    cases hev
  · have hlen := hinfix.length_le
    simp at hlen

end RelayOs.Usb
