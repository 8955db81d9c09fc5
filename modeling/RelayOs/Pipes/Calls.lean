import RelayOs.Memory.User
import RelayOs.Pipes.Ring

/-!
# Reading and writing the ends of a pipe

The ring never blocks; the waiting is here. A read waits only while it has got nothing and a
write only while nothing of it has gone in, so a call that waits has moved no byte yet: that
is what makes it safe to be killed while it does (`RelayOs.Pipes.readFrom_spec`,
`RelayOs.Pipes.writeFrom_spec`).
-/

namespace RelayOs.Pipes

open Vfs Mm

/-- Which end. -/
inductive Side
  | read
  | write
  deriving DecidableEq, Repr

/-- **What a call works on**: the pipe, the program's memory, and whether it has woken those
who wait on the pipe. -/
structure Work where
  pipe : Pipe
  mem : UserMemory
  woke : Bool

/-- Where a stretch of a call ends: in a wait – a write with the bytes it has copied into the
kernel – or in the call's answer. -/
inductive Stop
  | waits (chunk : Bytes)
  | returns (r : Except Errno ℕ)

/-- The rounds of `read`, with `done` bytes copied. -/
def readFrom (u : UserSlice) : ℕ → ℕ → Work → Stop × Work
  | 0, done, w => (.returns (.ok done), w)
  | rounds + 1, done, w =>
    if done < u.len then
      match w.pipe.read (min (u.len - done) page) with
      | some ([], _) => (.returns (.ok done), w)
      | some (b :: bytes, pipe) =>
        match w.mem.write u done (b :: bytes) with
        | .error e => (.returns (.error e), ⟨pipe, w.mem, true⟩)
        | .ok mem => readFrom u rounds (done + (b :: bytes).length) ⟨pipe, mem, true⟩
      | none => if 0 < done then (.returns (.ok done), w) else (.waits [], w)
    else (.returns (.ok done), w)

/-- **Reads a read end** into the program's buffer, which is checked writable first. -/
def read (side : Side) (addr len : ℕ) (w : Work) : Stop × Work :=
  if side = .read then
    match UserSlice.new addr (min len size) with
    | .error e => (.returns (.error e), w)
    | .ok u =>
      match w.mem.checkWritable u with
      | .error e => (.returns (.error e), w)
      | .ok () => readFrom u u.len 0 w
  else (.returns (.error .EBADF), w)

/-- The rounds that put `chunk` into the ring, with `done` bytes of the buffer in before it and
`put` of its own; `none` when it is all in. -/
def putFrom (done : ℕ) (chunk : Bytes) : ℕ → ℕ → Work → Option Stop × Work
  | 0, _, w => (none, w)
  | rounds + 1, put, w =>
    if put < chunk.length then
      match w.pipe.write (chunk.drop put) with
      | .ok (some (k, pipe)) => putFrom done chunk rounds (put + k) ⟨pipe, w.mem, true⟩
      | .ok none => if 0 < done + put then (some (.returns (.ok (done + put))), w)
          else (some (.waits chunk), w)
      | .error e =>
        if done + put = 0 then (some (.returns (.error e)), w)
          else (some (.returns (.ok (done + put))), w)
    else (none, w)

/-- The rounds of `write`, with `done` bytes in. -/
def writeFrom (u : UserSlice) : ℕ → ℕ → Work → Stop × Work
  | 0, done, w => (.returns (.ok done), w)
  | rounds + 1, done, w =>
    if done < u.len then
      match w.mem.read u done (min (u.len - done) (page - (u.addr + done) % page)) with
      | .error e => if done = 0 then (.returns (.error e), w) else (.returns (.ok done), w)
      | .ok chunk =>
        match putFrom done chunk chunk.length 0 w with
        | (some stop, w) => (stop, w)
        | (none, w) => writeFrom u rounds (done + chunk.length) w
    else (.returns (.ok done), w)

/-- **Writes the program's buffer** to a write end, a page at a time. -/
def write (side : Side) (addr len : ℕ) (w : Work) : Stop × Work :=
  if side = .write then
    match UserSlice.new addr len with
    | .error e => (.returns (.error e), w)
    | .ok u => writeFrom u u.len 0 w
  else (.returns (.error .EBADF), w)

/-- A write that was woken goes on with the bytes it has copied. -/
def writeAgain (u : UserSlice) (chunk : Bytes) (w : Work) : Stop × Work :=
  match putFrom 0 chunk chunk.length 0 w with
  | (some stop, w) => (stop, w)
  | (none, w) => writeFrom u u.len chunk.length w

/-! ### Reads -/

variable {u : UserSlice} {w w' : Work} {done rounds : ℕ} {moved : Bytes}

/-- The bytes `moved` went from the front of the queue to the program, at `done` into its buffer. -/
structure Took (u : UserSlice) (done : ℕ) (w : Work) (moved : Bytes) (w' : Work) : Prop where
  contents : w.pipe.contents = moved ++ w'.pipe.contents
  readers : w'.pipe.readers = w.pipe.readers
  writers : w'.pipe.writers = w.pipe.writers
  mem : w'.mem = w.mem.put (u.addr + done) moved
  woke : w'.woke = true ∨ w' = w

/-- **What a stretch of a read ends in**, `moved` having gone out of the ring. -/
def ReadStop (u : UserSlice) (done : ℕ) (w : Work) (moved : Bytes) (w' : Work) : Stop → Prop
  | .waits chunk => chunk = [] ∧ done = 0 ∧ w' = w ∧ w.pipe.len = 0 ∧ w.pipe.writers ≠ 0
  | .returns (.ok n) => n = done + moved.length ∧ n ≤ u.len ∧
      (n = 0 → 0 < u.len → w'.pipe.len = 0 ∧ w'.pipe.writers = 0)
  | .returns (.error _) => False

theorem Took.refl : Took u done w [] w := ⟨rfl, rfl, rfl, (w.mem.put_nil _).symm, Or.inr rfl⟩

/-- Nothing more is read. -/
theorem readStop_done (hdone : done ≤ u.len)
    (h : done = 0 → 0 < u.len → w.pipe.len = 0 ∧ w.pipe.writers = 0) :
    ReadStop u done w [] w (.returns (.ok done)) :=
  ⟨rfl, hdone, h⟩

variable {w1 : Work} {data chunk : Bytes} {put : ℕ}

/-- One round, and what the others take after it. -/
theorem Took.cons (h : Took u done w data w1) (hwoke : w1.woke = true)
    (h' : Took u (done + data.length) w1 moved w') : Took u done w (data ++ moved) w' where
  contents := by rw [h.contents, h'.contents, List.append_assoc]
  readers := h'.readers.trans h.readers
  writers := h'.writers.trans h.writers
  mem := by rw [h'.mem, h.mem, UserMemory.put_append, Nat.add_assoc]
  woke := by
    rcases h'.woke with hw | rfl
    · exact Or.inl hw
    · exact Or.inl hwoke

theorem ReadStop.cons (hne : data ≠ []) {stop : Stop}
    (h : ReadStop u (done + data.length) w1 moved w' stop) :
    ReadStop u done w (data ++ moved) w' stop := by
  have hpos : 0 < data.length := List.length_pos_iff.mpr hne
  match stop, h with
  | .waits _, h =>
    obtain ⟨-, hz, -⟩ := h
    omega
  | .returns (.ok n), h =>
    obtain ⟨hn, hle, hend⟩ := h
    exact ⟨by rw [List.length_append]; omega, hle, hend⟩

/-- **A read takes from the front of the queue** and loses nothing: it never fails once its
buffer is known to be writable, and waits only with nothing taken. -/
theorem readFrom_spec (hu : u.len < 2 ^ 64) (hw : w.mem.checkWritable u = .ok ())
    (hdone : done ≤ u.len)
    (hrounds : u.len ≤ done + rounds) :
    ∃ moved, Took u done w moved (readFrom u rounds done w).2 ∧
      ReadStop u done w moved (readFrom u rounds done w).2 (readFrom u rounds done w).1 := by
  induction rounds generalizing done w with
  | zero => exact ⟨[], .refl, readStop_done hdone fun _ _ => by omega⟩
  | succ rounds ih =>
    rw [readFrom]
    split
    · next hlt =>
      split
      · next hread =>
        obtain ⟨-, -, -, -, hend⟩ := Pipe.read_eq_some _ hread
        have hpage : 0 < page := by norm_num [page]
        obtain ⟨-, hlen, hwriters⟩ := hend rfl (by omega)
        exact ⟨[], .refl, readStop_done hdone fun _ _ => ⟨hlen, hwriters⟩⟩
      · next b bytes pipe hread =>
        obtain ⟨hcontents, hle, hreaders, hwriters, -⟩ := Pipe.read_eq_some _ hread
        have hne : b :: bytes ≠ [] := List.cons_ne_nil b bytes
        generalize b :: bytes = data at *
        have hfits : done + data.length ≤ u.len := by omega
        have hpos : 0 < data.length := List.length_pos_iff.mpr hne
        -- the buffer was found writable, so the bytes arrive
        rw [UserMemory.write_of_writable hu hw hfits]
        have htook : Took u done w data ⟨pipe, w.mem.put (u.addr + done) data, true⟩ :=
          ⟨hcontents, hreaders, hwriters, rfl, Or.inl rfl⟩
        obtain ⟨moved, h, hstop⟩ :=
          @ih ⟨pipe, w.mem.put (u.addr + done) data, true⟩ (done + data.length)
          (hw ▸ UserMemory.checkWritable_congr (UserMemory.perm_put _ _ _) u) hfits (by omega)
        exact ⟨data ++ moved, htook.cons rfl h, hstop.cons hne⟩
      · next hread =>
        obtain ⟨hlen, hwriters⟩ := Pipe.read_eq_none _ hread
        split
        · next hpos => exact ⟨[], .refl, readStop_done hdone fun hz => by omega⟩
        · next hz => exact ⟨[], .refl, rfl, by omega, rfl, hlen, hwriters⟩
    · exact ⟨[], .refl, readStop_done hdone fun hz hpos => by omega⟩

/-! ### Writes -/

/-- The bytes `moved` went to the back of the queue. -/
structure Gave (w : Work) (moved : Bytes) (w' : Work) : Prop where
  contents : w'.pipe.contents = w.pipe.contents ++ moved
  readers : w'.pipe.readers = w.pipe.readers
  writers : w'.pipe.writers = w.pipe.writers
  mem : w'.mem = w.mem
  woke : w'.woke = true ∨ w' = w

theorem Gave.refl : Gave w [] w := ⟨(List.append_nil _).symm, rfl, rfl, rfl, Or.inr rfl⟩

theorem Gave.trans (h : Gave w data w1) (h' : Gave w1 moved w') :
    Gave w (data ++ moved) w' where
  contents := by rw [h'.contents, h.contents, List.append_assoc]
  readers := h'.readers.trans h.readers
  writers := h'.writers.trans h.writers
  mem := h'.mem.trans h.mem
  woke := by
    rcases h'.woke with hw | rfl
    · exact Or.inl hw
    · exact h.woke

/-- **What a stretch of a write ends in**, `moved` of the buffer from `done` on having gone
into the ring. -/
def WriteStop (u : UserSlice) (done : ℕ) (w : Work) (moved : Bytes) (w' : Work) : Stop → Prop
  | .waits chunk => done = 0 ∧ w' = w ∧ w.pipe.len = size ∧ w.pipe.readers ≠ 0 ∧ chunk ≠ [] ∧
      chunk = w.mem.bytes u.addr chunk.length ∧ chunk.length ≤ u.len
  | .returns (.ok n) => n = done + moved.length ∧ n ≤ u.len ∧
      moved = w.mem.bytes (u.addr + done) moved.length
  | .returns (.error e) => done = 0 ∧ w' = w ∧ (e = .EPIPE → w.pipe.readers = 0)

/-- The chunk is the part of the buffer behind its first `done` bytes. -/
def Chunk (u : UserSlice) (mem : UserMemory) (done : ℕ) (chunk : Bytes) : Prop :=
  chunk = mem.bytes (u.addr + done) chunk.length ∧ done + chunk.length ≤ u.len ∧ chunk ≠ []

/-- What is in of a chunk is the part of the buffer it was copied from. -/
theorem Chunk.take {mem : UserMemory} (h : Chunk u mem done chunk) (hput : put ≤ chunk.length) :
    chunk.take put = mem.bytes (u.addr + done) put := by
  have hsplit : chunk = mem.bytes (u.addr + done) put ++ mem.bytes (u.addr + done + put)
      (chunk.length - put) := by
    rw [← UserMemory.bytes_add, Nat.add_sub_cancel' hput]
    exact h.1
  conv_lhs => rw [hsplit]
  rw [List.take_append_of_le_length (by rw [UserMemory.length_bytes]),
    List.take_of_length_le (by rw [UserMemory.length_bytes])]

theorem Chunk.writeStop (h : Chunk u w.mem done chunk) (hput : put ≤ chunk.length) :
    WriteStop u done w (chunk.take put) w' (.returns (.ok (done + put))) := by
  have hlen : (chunk.take put).length = put := List.length_take_of_le hput
  refine ⟨by rw [hlen], by have := h.2.1; omega, ?_⟩
  rw [hlen]
  exact h.take hput

/-- What putting a chunk comes to: it is all in, or the call ends or waits. -/
def PutPost (u : UserSlice) (done : ℕ) (chunk : Bytes) (w : Work) (r : Option Stop × Work) : Prop :=
  match r.1 with
  | none => Gave w chunk r.2
  | some stop => ∃ moved, Gave w moved r.2 ∧ WriteStop u done w moved r.2 stop

/-- **A chunk goes to the back of the queue**, all of it or as much as has room; the stretch
starts at `w₀` with none of it in. -/
theorem putFrom_spec {w0 : Work} (hchunk : Chunk u w0.mem done chunk)
    (hgave : Gave w0 (chunk.take put) w) (hfirst : put = 0 → w = w0) (hput : put ≤ chunk.length)
    (hrounds : chunk.length ≤ put + rounds) :
    PutPost u done chunk w0 (putFrom done chunk rounds put w) := by
  induction rounds generalizing put w with
  | zero =>
    rw [List.take_of_length_le (by omega)] at hgave
    exact hgave
  | succ rounds ih =>
    rw [putFrom]
    split
    · next hlt =>
      have hne : chunk.drop put ≠ [] := fun hnil => by
        rw [List.drop_eq_nil_iff] at hnil
        omega
      split
      · next k pipe hwrite =>
        obtain ⟨hcontents, hk, hreaders, hwriters, -, hpos⟩ := Pipe.write_eq_ok _ hwrite
        have hmore : 0 < k := hpos hne
        rw [List.length_drop] at hk
        have hstep : Gave w ((chunk.drop put).take k) ⟨pipe, w.mem, true⟩ :=
          ⟨hcontents, hreaders, hwriters, rfl, Or.inl rfl⟩
        have hboth := hgave.trans hstep
        rw [← List.take_add] at hboth
        exact ih hboth (fun hz => by omega) (by omega) (by omega)
      · next hwrite =>
        obtain ⟨hlen, hreaders⟩ := Pipe.write_eq_none _ hwrite
        split
        · exact ⟨_, hgave, hchunk.writeStop hput⟩
        · next hz =>
          obtain rfl : w = w0 := hfirst (by omega)
          obtain rfl : done = 0 := by omega
          exact ⟨[], .refl, rfl, rfl, hlen, hreaders, hchunk.2.2,
            hchunk.1, by have := hchunk.2.1; omega⟩
      · next e hwrite =>
        obtain ⟨rfl, hreaders⟩ := Pipe.write_eq_error _ hwrite
        split
        · next hz =>
          obtain rfl : w = w0 := hfirst (by omega)
          exact ⟨[], .refl, by omega, rfl, fun _ => hreaders⟩
        · exact ⟨_, hgave, hchunk.writeStop hput⟩
    · rw [List.take_of_length_le (by omega)] at hgave
      exact hgave

/-- A chunk is in, and what comes of the rest of the buffer. -/
theorem WriteStop.after (hchunk : Chunk u w.mem done chunk) (hmem : w1.mem = w.mem)
    {stop : Stop} (h : WriteStop u (done + chunk.length) w1 moved w' stop) :
    WriteStop u done w (chunk ++ moved) w' stop := by
  have hpos : 0 < chunk.length := List.length_pos_iff.mpr hchunk.2.2
  match stop, h with
  | .waits _, h =>
    have := h.1
    omega
  | .returns (.error _), h =>
    have := h.1
    omega
  | .returns (.ok n), h =>
    obtain ⟨hn, hle, hmoved⟩ := h
    refine ⟨by rw [List.length_append]; omega, hle, ?_⟩
    rw [hmem, ← Nat.add_assoc] at hmoved
    rw [List.length_append, UserMemory.bytes_add, ← hchunk.1, ← hmoved]

/-- **A write gives to the back of the queue**, and answers with just the number of bytes that
went in: it waits, and fails, only with none in. -/
theorem writeFrom_spec (hdone : done ≤ u.len) (hrounds : u.len ≤ done + rounds) :
    ∃ moved, Gave w moved (writeFrom u rounds done w).2 ∧
      WriteStop u done w moved (writeFrom u rounds done w).2 (writeFrom u rounds done w).1 := by
  have hstop : ∀ {done : ℕ} {w : Work}, done ≤ u.len →
      WriteStop u done w [] w (.returns (.ok done)) :=
    fun hdone => ⟨rfl, hdone, rfl⟩
  induction rounds generalizing done w with
  | zero => exact ⟨[], .refl, hstop hdone⟩
  | succ rounds ih =>
    rw [writeFrom]
    split
    · next hlt =>
      split
      · next e hread =>
        split
        · next hz =>
          refine ⟨[], .refl, hz, rfl, fun he => ?_⟩
          rw [UserMemory.read_eq_error hread] at he
          cases he
        · exact ⟨[], .refl, hstop hdone⟩
      · next chunk hread =>
        obtain ⟨hbytes, hle, hlen⟩ := UserMemory.read_eq_ok hread
        have hmod : (u.addr + done) % page < page := Nat.mod_lt _ (by norm_num [page])
        have hchunk : Chunk u w.mem done chunk := by
          refine ⟨by rw [hlen]; exact hbytes, by rw [hlen]; exact hle, fun hnil => ?_⟩
          rw [hnil, List.length_nil] at hlen
          omega
        have hput := @putFrom_spec u w done chunk.length chunk 0 w hchunk .refl (fun _ => rfl)
            (Nat.zero_le _) (by omega)
        have hpos : 0 < chunk.length := List.length_pos_iff.mpr hchunk.2.2
        split
        · next stop w1 heq =>
          rw [heq] at hput
          exact hput
        · next w1 heq =>
          rw [heq] at hput
          have hin : Gave w chunk w1 := hput
          obtain ⟨moved, hgave, hrest⟩ := @ih w1 (done + chunk.length) hchunk.2.1 (by omega)
          exact ⟨chunk ++ moved, hin.trans hgave, hrest.after hchunk hin.mem⟩
    · exact ⟨[], .refl, hstop hdone⟩

theorem writeAgain_spec (hchunk : Chunk u w.mem 0 chunk) :
    ∃ moved, Gave w moved (writeAgain u chunk w).2 ∧
      WriteStop u 0 w moved (writeAgain u chunk w).2 (writeAgain u chunk w).1 := by
  have hput := @putFrom_spec u w 0 chunk.length chunk 0 w hchunk .refl (fun _ => rfl)
      (Nat.zero_le _) (by omega)
  have hle := hchunk.2.1
  rw [writeAgain]
  split
  · next stop w1 heq =>
    rw [heq] at hput
    exact hput
  · next w1 heq =>
    rw [heq] at hput
    have hin : Gave w chunk w1 := hput
    obtain ⟨moved, hgave, hrest⟩ := @writeFrom_spec u w1 chunk.length u.len (by omega) (by omega)
    refine ⟨chunk ++ moved, hin.trans hgave, WriteStop.after hchunk hin.mem ?_⟩
    rw [Nat.zero_add]
    exact hrest

end RelayOs.Pipes
