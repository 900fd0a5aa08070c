import Mathlib.Data.Seq.Basic
import IMUParser.Codec.FakeData
import IMUParser.Library.Transition
import IMUParser.Receive.Recognition

/-!
# The loop test

`IMU_Driver/LoopTester.py` and the parser process, connected by the serial port in one direction and
by datagrams in the other. The driver writes the frame of a packet to the port, waits for one
datagram and goes on with the next packet; the parser process runs the loop of `main`. The port and
the datagrams are ordered and lose nothing, and nobody else sends.

There is at most one frame under way. While it is, the buffer of the parser is the part of it that
has been read, so the first header in the buffer is that of the frame, whatever the payload is, and
no packet is found before the frame is complete.

The driver's comparison of the datagram with what it has sent, and its pause of one second, have no
part in the state. That a failed comparison ends the driver is left to `CheckedLoopStep`, which has
fewer steps: what holds here in every state reached holds there (`reachable_of_checkedLoopStep`).

## Main definitions

* `LoopState`, `LoopStep`: the states and steps of the system.
* `Round`, `LoopInvariant`.
* `LoopAgreement`: what has been produced and received, in terms of what has been read and sent.

## Main results

* `LoopInvariant.step`.
* `loop_agreement`: the agreement holds in every state reached.
-/

namespace IMUParser

open Words Transition

/-! ### The system -/

/-- Where the parser process is: at the head of the loop of `processIMU_Frames`, or in the pause of
`main` between two calls, or behind a fault. -/
inductive ParserPhase
  | reading (indexInBuffer : UInt8)
  | sleeping
  | faulted (fault : Fault)
  deriving DecidableEq, Repr

/-- The state of the driver, the port, the parser process and the datagrams, and what has happened
so far. -/
structure LoopState where
  /-- The driver's `count`, the index of the packet that it sends or that it waits for. -/
  count : ℕ
  /-- The driver is in `recvfrom`. -/
  awaiting : Bool
  /-- The bytes written to the port and not yet read. -/
  port : List UInt8
  inputBuffer : List UInt8
  parser : ParserPhase
  /-- The datagrams sent and not yet received. -/
  datagrams : List (List UInt8)
  bytesRead : ℕ
  /-- All datagrams that the parser has sent. -/
  produced : List (List UInt8)
  /-- All datagrams that the driver has received. -/
  received : List (List UInt8)

namespace LoopState

/-- The driver is about to send the first frame, the first call has started. -/
def initial : LoopState := ⟨0, false, [], [], .reading 0, [], 0, [], []⟩

/-- The end of an iteration of the loop of `processIMU_Frames`. -/
def iterate (s : LoopState) (o : ByteOrder) : Except Fault Iteration → LoopState
  | .error fault => { s with parser := .faulted fault }
  | .ok (.next inputBuffer indexInBuffer) =>
    { s with inputBuffer := inputBuffer, parser := .reading indexInBuffer }
  | .ok (.sent packet inputBuffer) =>
    { s with inputBuffer := inputBuffer, parser := .sleeping,
             datagrams := s.datagrams ++ [packet.image o],
             produced := s.produced ++ [packet.image o] }

@[simp] theorem iterate_count (s : LoopState) (o : ByteOrder) (result : Except Fault Iteration) :
    (s.iterate o result).count = s.count := by
  rcases result with _ | _ | _ <;> rfl

end LoopState

/-- The bytes that a read takes from the port. -/
def ReadResult.bytes : ReadResult → List UInt8
  | .data bytes _ _ => bytes
  | .empty => []
  | .fail _ => []

/-- The kinds of steps, a read with its result. -/
inductive LoopLabel
  | send
  | receive
  | read (r : ReadResult)
  | wake

/-- The steps of the system, for the sequence of packets that the driver sends. A read takes any
number of bytes that are there, or none. -/
inductive LoopStep (o : ByteOrder) (packets : Stream'.Seq Packet) :
    LoopState → LoopLabel → LoopState → Prop
  | send {s : LoopState} {P : Packet} (idle : s.awaiting = false)
      (next : packets.get? s.count = some P) :
      LoopStep o packets s .send
        { s with awaiting := true, port := s.port ++ createFakePacket o P.count P.x P.y P.z }
  | receive {s : LoopState} {data : List UInt8} {rest : List (List UInt8)}
      (awaiting : s.awaiting = true) (arrived : s.datagrams = data :: rest) :
      LoopStep o packets s .receive
        { s with count := s.count + 1, awaiting := false, datagrams := rest,
                 received := s.received ++ [data] }
  | read {s : LoopState} {indexInBuffer : UInt8} {r : ReadResult} {rest : List UInt8}
      (reading : s.parser = .reading indexInBuffer) (taken : s.port = r.bytes ++ rest) :
      LoopStep o packets s (.read r)
        ({ s with port := rest, bytesRead := s.bytesRead + r.bytes.length }.iterate o
          (loopBody o (littleEndian o) s.inputBuffer indexInBuffer r))
  | wake {s : LoopState} (sleeping : s.parser = .sleeping) :
      LoopStep o packets s .wake { s with parser := .reading 0 }

/-! ### The invariant -/

/-- A round of the exchange: the driver is about to send; or a frame is under way, part of it in
the buffer and at least its last byte in the port; or it has been read and its datagram is under
way. -/
inductive Round (o : ByteOrder) (packets : Stream'.Seq Packet) (s : LoopState) : Prop
  | idle (awaiting : s.awaiting = false) (datagrams : s.datagrams = [])
      (inputBuffer : s.inputBuffer = []) (port : s.port = [])
  | underWay (P : Packet) (awaiting : s.awaiting = true) (next : packets.get? s.count = some P)
      (datagrams : s.datagrams = []) (frame : s.inputBuffer ++ s.port = P.frame)
      (port : s.port ≠ [])
  | answered (P : Packet) (awaiting : s.awaiting = true) (next : packets.get? s.count = some P)
      (datagrams : s.datagrams = [datagram o P]) (inputBuffer : s.inputBuffer = [])
      (port : s.port = [])

/-- The invariant of the system. -/
structure LoopInvariant (o : ByteOrder) (packets : Stream'.Seq Packet) (s : LoopState) : Prop where
  not_faulted : ∀ fault, s.parser ≠ .faulted fault
  round : Round o packets s
  bytesRead : s.bytesRead = 20 * s.produced.length + s.inputBuffer.length
  produced : s.produced = s.received ++ s.datagrams
  received : s.received = (packets.take s.count).map (datagram o)
  count : s.received.length = s.count

variable {o : ByteOrder} {packets : Stream'.Seq Packet} {s s' : LoopState} {l : LoopLabel}

theorem take_succ_of_get? {α : Type*} {seq : Stream'.Seq α} {n : ℕ} {a : α}
    (h : seq.get? n = some a) : seq.take (n + 1) = seq.take n ++ [a] := by
  induction n generalizing seq with
  | zero =>
    cases seq with
    | nil => simp at h
    | cons b seq => simpa using h
  | succ n ih =>
    cases seq with
    | nil => simp at h
    | cons b seq =>
      rw [Stream'.Seq.get?_cons_succ] at h
      rw [Stream'.Seq.take_succ_cons, ih h, Stream'.Seq.take_succ_cons, List.cons_append]

theorem loopInvariant_initial : LoopInvariant o packets .initial :=
  ⟨nofun, .idle rfl rfl rfl rfl, rfl, rfl, by simp [LoopState.initial], rfl⟩

/-- A read that brings no bytes changes nothing. -/
theorem LoopInvariant.read_nothing (h : LoopInvariant o packets s) (index : UInt8) :
    LoopInvariant o packets { s with parser := .reading index } where
  not_faulted := nofun
  round := match h.round with
    | .idle ha hd hb hp => .idle ha hd hb hp
    | .underWay P ha hn hd hf hp => .underWay P ha hn hd hf hp
    | .answered P ha hn hd hb hp => .answered P ha hn hd hb hp
  bytesRead := h.bytesRead
  produced := h.produced
  received := h.received
  count := h.count

/-- A read that brings bytes takes them from the frame under way. With the last byte of the frame
its packet is broadcast; before, the bytes are kept. -/
theorem LoopInvariant.read_data (h : LoopInvariant o packets s) (index : UInt8)
    {bytes rest : List UInt8} (pos : 0 < bytes.length) (h128 : bytes.length ≤ 128)
    (hport : s.port = bytes ++ rest) :
    LoopInvariant o packets
      ({ s with port := rest, bytesRead := s.bytesRead + bytes.length }.iterate o
        (loopBody o (littleEndian o) s.inputBuffer index (.data bytes pos h128))) := by
  have hne : s.port ≠ [] := by
    rw [hport]
    exact List.append_ne_nil_of_left_ne_nil (List.length_pos_iff.mp pos) rest
  have hbytes := h.bytesRead
  cases h.round with
  | idle _ _ _ hp => exact absurd hp hne
  | answered P _ _ _ _ hp => exact absurd hp hne
  | underWay P hawait hnext hdata hframe _ =>
    rw [hport, ← List.append_assoc] at hframe
    have hlen := congrArg List.length hframe
    simp only [List.length_append, Packet.length_frame] at hlen
    rcases List.eq_nil_or_concat' rest with rfl | ⟨init, b, rfl⟩
    · -- the frame is complete
      rw [List.append_nil] at hframe
      have haccept : (frameRecogniser o (littleEndian o)).accept (s.inputBuffer ++ bytes) =
          some P.toParsed := by rw [hframe, accept_frame]
      rw [loopBody_data_of_accept index pos h128 (by rw [hframe, P.length_frame]; decide) haccept]
      refine ⟨nofun, .answered P hawait hnext ?_ rfl rfl, ?_, ?_, h.received, h.count⟩
      · simp only [LoopState.iterate, hdata, List.nil_append, datagram]
      · simp only [LoopState.iterate, List.length_append, List.length_nil] at hlen ⊢
        simp only [List.length_cons, List.length_nil]
        omega
      · simp only [LoopState.iterate, h.produced, List.append_assoc]
    · -- a byte is missing
      rw [List.length_append, List.length_singleton] at hlen
      have hshort : (s.inputBuffer ++ bytes).length < 20 := by
        rw [List.length_append]
        omega
      have hnone : (frameRecogniser o (littleEndian o)).accept (s.inputBuffer ++ bytes) = none :=
        accept_of_length_lt hshort
      obtain ⟨index', hbody⟩ := loopBody_data_of_not_accept index pos h128 (by omega) hnone
      rw [hbody]
      refine ⟨nofun, .underWay P hawait hnext hdata hframe (by simp [LoopState.iterate]), ?_,
        h.produced, h.received, h.count⟩
      simp only [LoopState.iterate, List.length_append]
      omega

/-- **The step lemma.** -/
theorem LoopInvariant.step (h : LoopInvariant o packets s) (hstep : LoopStep o packets s l s') :
    LoopInvariant o packets s' := by
  cases hstep with
  | send idle next =>
    cases h.round with
    | underWay _ ha => exact absurd (idle.symm.trans ha) Bool.false_ne_true
    | answered _ ha => exact absurd (idle.symm.trans ha) Bool.false_ne_true
    | idle _ hd hb hp =>
      refine ⟨h.not_faulted, .underWay _ rfl next hd ?_ ?_, h.bytesRead, h.produced, h.received,
        h.count⟩
      · simp only [hb, hp, List.nil_append, createFakePacket_eq_frame]
      · simp [hp, createFakePacket_eq_frame, Packet.frame, header]
  | receive awaiting arrived =>
    cases h.round with
    | idle ha => exact absurd (ha.symm.trans awaiting) Bool.false_ne_true
    | underWay _ _ _ hd => exact absurd (hd.symm.trans arrived) (by simp)
    | answered P _ hn hd hb hp =>
      obtain ⟨rfl, rfl⟩ := List.cons.inj (arrived.symm.trans hd)
      refine ⟨h.not_faulted, .idle rfl rfl hb hp, h.bytesRead, ?_, ?_, ?_⟩
      · simpa [hd] using h.produced
      · simp only [take_succ_of_get? hn, List.map_append, ← h.received, List.map_cons, List.map_nil]
      · simp only [List.length_append, h.count, List.length_cons, List.length_nil]
  | @read index r rest reading taken =>
    cases r with
    | data bytes pos h128 => exact h.read_data index pos h128 taken
    | empty =>
      obtain rfl : s.port = rest := taken
      exact h.read_nothing index
    | fail =>
      obtain rfl : s.port = rest := taken
      exact h.read_nothing index
  | wake => exact h.read_nothing 0

/-! ### The agreement -/

/-- What driver and parser agree on: the datagrams sent are those of the packets whose frames, of 20
bytes each, have been read completely, in order and each once; the `n`-th datagram received carries
the `n`-th packet sent. -/
structure LoopAgreement (o : ByteOrder) (packets : Stream'.Seq Packet) (s : LoopState) : Prop where
  not_faulted : ∀ fault, s.parser ≠ .faulted fault
  produced : s.produced = (packets.take (s.bytesRead / 20)).map (datagram o)
  length_produced : s.produced.length = s.bytesRead / 20
  received : ∀ n data, s.received[n]? = some data →
    ∃ P, packets.get? n = some P ∧ unpackNative o data = some P

theorem LoopInvariant.agreement (h : LoopInvariant o packets s) : LoopAgreement o packets s := by
  -- less than a frame is in the buffer, so the frames read are those answered
  have hlength : s.produced.length = s.bytesRead / 20 := by
    have hbytes := h.bytesRead
    have hshort : s.inputBuffer.length < 20 := by
      cases h.round with
      | idle _ _ hb => simp [hb]
      | answered _ _ _ _ hb => simp [hb]
      | underWay P _ _ _ hf hp =>
        have hlen := congrArg List.length hf
        have hpos := List.length_pos_iff.mpr hp
        rw [List.length_append, P.length_frame] at hlen
        omega
    omega
  refine ⟨h.not_faulted, ?_, hlength, fun n data hn => ?_⟩
  · rw [← hlength, h.produced]
    cases h.round with
    | idle _ hd => rw [hd, List.append_nil, h.count, ← h.received]
    | underWay _ _ _ hd => rw [hd, List.append_nil, h.count, ← h.received]
    | answered P _ hnext hd =>
      rw [hd, List.length_append, h.count, List.length_singleton, take_succ_of_get? hnext,
        List.map_append, ← h.received, List.map_singleton]
  · rw [h.received, List.getElem?_map, Option.map_eq_some_iff] at hn
    obtain ⟨P, hP, rfl⟩ := hn
    rw [Stream'.Seq.getElem?_take] at hP
    split_ifs at hP
    exact ⟨P, hP, unpackNative_image o P.toParsed⟩

/-- **Lock-step agreement.** For every finite or infinite sequence of packets with any payloads, and
every order of steps and way in which the reads cut up the frames, driver and parser agree in every
state reached. -/
theorem loop_agreement (o : ByteOrder) (packets : Stream'.Seq Packet) (s : LoopState)
    (h : Reachable (LoopStep o packets) .initial s) : LoopAgreement o packets s :=
  (h.invariant loopInvariant_initial fun _ _ _ hs hstep => hs.step hstep).agreement

/-- A packet with a header in its payload, sent, read in two parts and received. -/
theorem loop_agreement_one_round :
    ∃ s, Reachable (LoopStep .little (.ofList [⟨1, 0x7FF01CAF, 3, 4⟩])) .initial s ∧
      s.bytesRead = 20 ∧ s.received.length = 1 ∧
      LoopAgreement .little (.ofList [⟨1, 0x7FF01CAF, 3, 4⟩]) s := by
  let P : Packet := ⟨1, 0x7FF01CAF, 3, 4⟩
  have hstart : Reachable (LoopStep .little (.ofList [P])) .initial .initial := .start
  have hsend := hstart.next (.send (P := P) rfl rfl)
  have hpart := hsend.next (.read (r := .data (P.frame.take 13) (by decide) (by decide)) rfl
    (show _ = P.frame.take 13 ++ P.frame.drop 13 by decide))
  have hrest := hpart.next (.read (r := .data (P.frame.drop 13) (by decide) (by decide))
    (show _ = ParserPhase.reading 0 by decide +kernel)
    (show _ = P.frame.drop 13 ++ [] by decide +kernel))
  have hanswer := hrest.next (.receive (by decide +kernel)
    (show _ = datagram .little P :: [] by decide +kernel))
  exact ⟨_, hanswer, by decide +kernel, by decide +kernel, loop_agreement .little _ _ hanswer⟩

end IMUParser
