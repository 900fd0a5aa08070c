import IMUParser.Parse.FirstHeader

/-!
# `processIMU_Frames` and the loop of `main`

The parser process of `IMU_Parser/src/imu_parser.cpp`. A call of `processIMU_Frames` reads the
port, appends what it gets to `inputBuffer` and calls `parsePacket`, until a packet is found; it
broadcasts the packet and returns. `main` calls it again and again; `inputBuffer` survives from one
call to the next, `indexInBuffer` does not.

The port is the list of the results of the successive `read`s. A run ends when they are used up,
which leaves the process at the head of the `while` loop, or after a given number of calls. The
waits (10 ms after a failing read, 80 ms between two calls), the log and `reserve` have no part in
the state.

## Main definitions

* `ReadResult`, `payloads`, `delivered`: the reads and the bytes they bring.
* `loopBody`, `processIMUFrames`, `mainLoop`.
-/

namespace IMUParser

/-! ### Reads -/

/-- The result of `read(port_fd, stagingBuffer, sizeof(stagingBuffer))`: between 1 and 128 bytes, or
no byte, or a failure, for which `errno` is `EAGAIN` or `EWOULDBLOCK` (the loop waits) or something
else (the loop reports it). -/
inductive ReadResult
  | data (bytes : List UInt8) (pos : 0 < bytes.length) (le : bytes.length ≤ 128)
  | empty
  | fail (wouldBlock : Bool)

/-- The bytes that the reads bring, one list for each read that brings any. -/
def payloads : List ReadResult → List (List UInt8)
  | [] => []
  | .data bytes _ _ :: reads => bytes :: payloads reads
  | .empty :: reads => payloads reads
  | .fail _ :: reads => payloads reads

/-- All bytes that the reads bring. -/
def delivered (reads : List ReadResult) : List UInt8 := (payloads reads).flatten

@[simp] theorem payloads_append (reads unread : List ReadResult) :
    payloads (reads ++ unread) = payloads reads ++ payloads unread := by
  induction reads with
  | nil => rfl
  | cons r reads ih => cases r <;> simp [payloads, ih]

@[simp] theorem delivered_append (reads unread : List ReadResult) :
    delivered (reads ++ unread) = delivered reads ++ delivered unread := by
  simp [delivered]

@[simp] theorem delivered_data_cons (bytes : List UInt8) (pos : 0 < bytes.length)
    (le : bytes.length ≤ 128) (reads : List ReadResult) :
    delivered (.data bytes pos le :: reads) = bytes ++ delivered reads := rfl

theorem length_le_of_mem_payloads {c : List UInt8} {reads : List ReadResult}
    (h : c ∈ payloads reads) : 0 < c.length ∧ c.length ≤ 128 := by
  induction reads with
  | nil => simp [payloads] at h
  | cons r reads ih =>
    cases r with
    | data bytes pos le =>
      rcases List.mem_cons.mp h with rfl | h
      · exact ⟨pos, le⟩
      · exact ih h
    | empty => exact ih h
    | fail => exact ih h

/-! ### One call -/

/-- How an iteration of the `while` loop ends: at the loop's head again, or, after a broadcast, with
`break`. -/
inductive Iteration
  | next (inputBuffer : List UInt8) (indexInBuffer : UInt8)
  | sent (packet : ParsedPacket) (inputBuffer : List UInt8)

/-- The body of the `while` loop. -/
def loopBody (o : ByteOrder) (littleEndian : Bool) (inputBuffer : List UInt8)
    (indexInBuffer : UInt8) : ReadResult → Except Fault Iteration
  | .data bytes _ _ => do
    let parseResult ← parsePacket o littleEndian (inputBuffer ++ bytes) indexInBuffer
    if parseResult.found then
      return .sent parseResult.packet parseResult.dataBuffer
    return .next parseResult.dataBuffer parseResult.position
  | .empty => .ok (.next inputBuffer indexInBuffer)
  | .fail _ => .ok (.next inputBuffer indexInBuffer)

/-- How a call ends for given reads: they are used up and it waits at the loop's head, or it has
broadcast a packet and left the reads `unread`. -/
inductive CallOutcome
  | waiting (inputBuffer : List UInt8) (indexInBuffer : UInt8)
  | broadcast (packet : ParsedPacket) (inputBuffer : List UInt8) (unread : List ReadResult)

/-- The packet that a call has broadcast. -/
def CallOutcome.packet? : CallOutcome → Option ParsedPacket
  | .waiting _ _ => none
  | .broadcast packet _ _ => some packet

/-- The `while` loop of `processIMU_Frames`. -/
def whileLoop (o : ByteOrder) (littleEndian : Bool) :
    List UInt8 → UInt8 → List ReadResult → Except Fault CallOutcome
  | inputBuffer, indexInBuffer, [] => .ok (.waiting inputBuffer indexInBuffer)
  | inputBuffer, indexInBuffer, r :: unread => do
    match ← loopBody o littleEndian inputBuffer indexInBuffer r with
    | .next inputBuffer indexInBuffer =>
      whileLoop o littleEndian inputBuffer indexInBuffer unread
    | .sent packet inputBuffer => return .broadcast packet inputBuffer unread

/-- A call of `processIMU_Frames()`. -/
def processIMUFrames (o : ByteOrder) (littleEndian : Bool) (inputBuffer : List UInt8)
    (reads : List ReadResult) : Except Fault CallOutcome :=
  whileLoop o littleEndian inputBuffer 0 reads

/-! ### The loop of `main` -/

/-- The state of `main`'s loop: the buffer, the reads not made yet, and what has been broadcast. -/
structure MainState where
  inputBuffer : List UInt8
  unread : List ReadResult
  broadcasts : List ParsedPacket

/-- The loop of `main`, with the flag that its probe has set: at most `n` successive calls. -/
def mainLoop (o : ByteOrder) : ℕ → List UInt8 → List ReadResult → Except Fault MainState
  | 0, inputBuffer, reads => .ok ⟨inputBuffer, reads, []⟩
  | n + 1, inputBuffer, reads => do
    match ← processIMUFrames o (littleEndian o) inputBuffer reads with
    | .waiting inputBuffer _ => return ⟨inputBuffer, [], []⟩
    | .broadcast packet inputBuffer unread =>
      let rest ← mainLoop o n inputBuffer unread
      return { rest with broadcasts := packet :: rest.broadcasts }

/-! ### The reads left -/

/-- A call that broadcasts leaves the last ones of its reads. -/
theorem whileLoop_suffix {o : ByteOrder} {le : Bool} {packet : ParsedPacket} {l : List UInt8}
    {reads unread : List ReadResult} :
    ∀ {buffer : List UInt8} {index : UInt8},
      whileLoop o le buffer index reads = .ok (.broadcast packet l unread) →
        unread <:+ reads := by
  induction reads with
  | nil => intro buffer index h; cases h
  | cons r reads ih =>
    intro buffer index h
    obtain ⟨iteration, -, h⟩ := bind_eq_ok_iff.mp h
    cases iteration with
    | next => exact (ih h).trans (List.suffix_cons _ _)
    | sent =>
      obtain ⟨-, -, rfl⟩ := CallOutcome.broadcast.inj (Except.ok.inj h)
      exact List.suffix_cons _ _

/-- Successive calls leave the last ones of the reads. -/
theorem mainLoop_suffix {o : ByteOrder} {n : ℕ} :
    ∀ {buffer : List UInt8} {reads : List ReadResult} {m : MainState},
      mainLoop o n buffer reads = .ok m → m.unread <:+ reads := by
  induction n with
  | zero => intro buffer reads m h; obtain rfl := Except.ok.inj h; exact List.suffix_rfl
  | succ n ih =>
    intro buffer reads m h
    obtain ⟨outcome, hcall, h⟩ := bind_eq_ok_iff.mp h
    cases outcome with
    | waiting => obtain rfl := Except.ok.inj h; exact List.nil_suffix
    | broadcast =>
      obtain ⟨rest, hrest, h⟩ := bind_eq_ok_iff.mp h
      obtain rfl := Except.ok.inj h
      exact (ih hrest).trans (whileLoop_suffix hcall)

end IMUParser
