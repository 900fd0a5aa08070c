import IMUParser.Codec.FakeData
import IMUParser.Receive.ShortWrites
import IMUParser.Receive.Windows
import IMUParser.System.ParserProcess

/-!
# The mock IMU, the parser and a receiver

`mock_imu` of `IMU_Parser/test/mock_imu.cpp` draws one packet, its count included, encodes it as the
driver of the loop test does, and writes its frame to the port again and again; the parser process
broadcasts the packets it finds; `IMU_Driver/DummyReceiver.py` prints what it receives. A write may
be accepted in part, which `writeIMU_frame` does not notice, or fail, which ends the mock IMU. A
datagram may get lost on the way. The receiver ends with an exception when a datagram is not 16
bytes long.

Frames are written without waiting for an answer, so many can be on the port at once, and a read may
end anywhere. Consider a packet without a header in its payload. In every state that the system can
reach, in whatever order its parts make their steps, at most as many of the packets printed are
wrong as writes have been short (`mock_shortWrites`). Without short writes none is wrong, and the
parser keeps up with what it reads, however much that is (`mock_wholeWrites`).

## Main definitions

* `MockState`, `MockStep`: the states and steps of the system.
* `MockInvariant`.

## Main results

* `MockInvariant.step`.
* `mock_shortWrites`, `mock_wholeWrites`.
-/

namespace IMUParser

open Words Transition
open scoped List

/-! ### The system -/

/-- The tuple that `receive_broadcast()` returns, `none` for the `None` of data that cannot be
unpacked. It receives at most 1024 bytes. -/
def receiveBroadcast (o : ByteOrder) (data : List UInt8) : Option Packet :=
  unpackNative o (data.take 1024)

/-- The state of the mock IMU, the port, the parser process, the datagrams under way and the
receiver, and what has happened so far. -/
structure MockState where
  /-- The writes of the mock IMU. -/
  writes : List Write
  /-- A write has failed. -/
  ended : Bool
  /-- The bytes accepted by the port and not yet read. -/
  port : List UInt8
  process : ParserProcess
  /-- The reads of the parser. -/
  reads : List ReadResult
  datagrams : List (List UInt8)
  /-- The tuples that the receiver has printed. -/
  printed : List Packet
  /-- The receiver has tried to unpack `None`. -/
  crashed : Bool

namespace MockState

/-- All three programs have started. -/
def initial : MockState := ⟨[], false, [], .initial, [], [], [], false⟩

/-- The end of an iteration of the loop of `processIMU_Frames`. -/
def iterate (s : MockState) (o : ByteOrder) (result : Except Fault Iteration) : MockState :=
  { s with
    process := s.process.iterate result
    datagrams := match result with
      | .ok (.sent packet _) => s.datagrams ++ [packet.image o]
      | _ => s.datagrams }

/-- The end of an iteration of the loop of the receiver. -/
def print (s : MockState) : Option Packet → MockState
  | some tuple => { s with printed := s.printed ++ [tuple] }
  | none => { s with crashed := true }

section Print

variable (s : MockState) (result : Option Packet)

@[simp] theorem print_writes : (s.print result).writes = s.writes := by cases result <;> rfl

@[simp] theorem print_ended : (s.print result).ended = s.ended := by cases result <;> rfl

@[simp] theorem print_port : (s.print result).port = s.port := by cases result <;> rfl

@[simp] theorem print_process : (s.print result).process = s.process := by cases result <;> rfl

@[simp] theorem print_reads : (s.print result).reads = s.reads := by cases result <;> rfl

end Print

end MockState

/-- The kinds of steps, a write with the number of bytes that the port accepts, a read with its
result. -/
inductive MockLabel
  | write (accepted : ℕ)
  | fail
  | read (r : ReadResult)
  | wake
  | lose
  | receive

/-- The steps of the system, for the packet `P` that the mock IMU has drawn. -/
inductive MockStep (o : ByteOrder) (P : Packet) : MockState → MockLabel → MockState → Prop
  | write {s : MockState} {accepted : ℕ} (running : s.ended = false)
      (le : accepted ≤ packetSize) :
      MockStep o P s (.write accepted)
        { s with writes := s.writes ++ [⟨P, accepted, le⟩],
                 port := s.port ++ (createFakePacket o P.count P.x P.y P.z).take accepted }
  | fail {s : MockState} (running : s.ended = false) :
      MockStep o P s .fail { s with ended := true }
  | read {s : MockState} {indexInBuffer : UInt8} {r : ReadResult} {rest : List UInt8}
      (reading : s.process.phase = .reading indexInBuffer) (taken : s.port = r.bytes ++ rest) :
      MockStep o P s (.read r)
        ({ s with port := rest, reads := s.reads ++ [r] }.iterate o
          (loopBody o (littleEndian o) s.process.inputBuffer indexInBuffer r))
  | wake {s : MockState} (sleeping : s.process.phase = .sleeping) :
      MockStep o P s .wake { s with process := { s.process with phase := .reading 0 } }
  | lose {s : MockState} {data : List UInt8} {before behind : List (List UInt8)}
      (sent : s.datagrams = before ++ data :: behind) :
      MockStep o P s .lose { s with datagrams := before ++ behind }
  | receive {s : MockState} {data : List UInt8} {rest : List (List UInt8)}
      (running : s.crashed = false) (arrived : s.datagrams = data :: rest) :
      MockStep o P s .receive ({ s with datagrams := rest }.print (receiveBroadcast o data))

/-! ### The invariant -/

/-- The invariant of the system. -/
structure MockInvariant (o : ByteOrder) (P : Packet) (s : MockState) : Prop where
  packet : ∀ v ∈ s.writes, v.packet = P
  written : writtenBytes s.writes = delivered s.reads ++ s.port
  refines : s.process.Refines o s.reads
  /-- What has been printed and what is under way are some of the broadcasts, in order. -/
  datagrams : ∃ l m : List ParsedPacket, s.printed = l.map ParsedPacket.toPacket ∧
    s.datagrams = m.map (ParsedPacket.image o) ∧ l ++ m <+ s.process.broadcasts
  running : s.crashed = false

variable {o : ByteOrder} {P : Packet} {s s' : MockState} {l : MockLabel}

theorem mockInvariant_initial : MockInvariant o P .initial :=
  ⟨nofun, rfl, ParserProcess.refines_initial, ⟨[], [], rfl, rfl, .slnil⟩, rfl⟩

theorem delivered_concat (reads : List ReadResult) (r : ReadResult) :
    delivered (reads ++ [r]) = delivered reads ++ r.bytes := by
  rw [delivered_append]
  cases r <;> simp [delivered, payloads, ReadResult.bytes]

/-- **The step lemma.** -/
theorem MockInvariant.step (h : MockInvariant o P s) (hstep : MockStep o P s l s') :
    MockInvariant o P s' := by
  obtain ⟨hpacket, hwritten, hrefines, ⟨printed, sent, hprinted, hsent, hsublist⟩, hrunning⟩ := h
  cases hstep with
  | write _ le =>
    refine ⟨?_, ?_, hrefines, ⟨printed, sent, hprinted, hsent, hsublist⟩, hrunning⟩
    · simpa [or_imp, forall_and] using hpacket
    · rw [createFakePacket_eq_frame]
      simp only [writtenBytes, List.flatMap_append] at hwritten ⊢
      rw [hwritten, List.append_assoc]
      simp [Write.bytes]
  | fail =>
    exact ⟨hpacket, hwritten, hrefines, ⟨printed, sent, hprinted, hsent, hsublist⟩, hrunning⟩
  | wake sleeping =>
    exact ⟨hpacket, hwritten, hrefines.wake sleeping, ⟨printed, sent, hprinted, hsent, hsublist⟩,
      hrunning⟩
  | @read index r rest reading taken =>
    refine ⟨hpacket, ?_, hrefines.read reading r, ?_, hrunning⟩
    · simp only [MockState.iterate, delivered_concat, List.append_assoc, ← taken, hwritten]
    · cases loopBody o (littleEndian o) s.process.inputBuffer index r with
      | error => exact ⟨printed, sent, hprinted, hsent, hsublist⟩
      | ok iteration =>
        cases iteration with
        | next => exact ⟨printed, sent, hprinted, hsent, hsublist⟩
        | sent packet =>
          refine ⟨printed, sent ++ [packet], hprinted, ?_, ?_⟩
          · simp [MockState.iterate, hsent]
          · rw [← List.append_assoc]
            exact hsublist.append (List.Sublist.refl _)
  | @lose data before behind hsplit =>
    -- a lost datagram is one of those under way
    obtain ⟨m, m', rfl, rfl, hm'⟩ := List.map_eq_append_iff.mp (hsent.symm.trans hsplit)
    obtain ⟨packet, behind', rfl, -, rfl⟩ := List.map_eq_cons_iff.mp hm'
    refine ⟨hpacket, hwritten, hrefines, ⟨printed, m ++ behind', hprinted, by simp, ?_⟩, hrunning⟩
    exact .trans (.append_left (.append_left (List.sublist_cons_self packet behind') m) printed)
      hsublist
  | @receive data rest _ arrived =>
    -- the receiver can unpack the image of a packet
    obtain ⟨packet, sent, rfl, rfl, rfl⟩ := List.map_eq_cons_iff.mp (hsent.symm.trans arrived)
    have hunpack : receiveBroadcast o (packet.image o) = some packet.toPacket := by
      rw [receiveBroadcast, List.take_of_length_le (by simp), unpackNative_image]
    rw [hunpack]
    refine ⟨hpacket, hwritten, hrefines, ⟨printed ++ [packet], sent, ?_, rfl, ?_⟩, hrunning⟩
    · simp [MockState.print, hprinted]
    · rwa [List.append_assoc]

theorem MockInvariant.of_reachable (h : Reachable (MockStep o P) .initial s) :
    MockInvariant o P s :=
  h.invariant mockInvariant_initial fun _ _ _ hs hstep => hs.step hstep

/-- What has been read is the start of what has been written. -/
theorem MockInvariant.delivered_isPrefix (h : MockInvariant o P s) :
    delivered s.reads <+: writtenBytes s.writes :=
  h.written ▸ List.prefix_append _ _

theorem MockInvariant.not_faulted (h : MockInvariant o P s) (hfit : ScansFit (delivered s.reads))
    (fault : Fault) : s.process.phase ≠ .faulted fault :=
  h.refines.not_faulted (fun n => (mainLoop_refines n s.reads hfit).imp fun _ hm => hm.1) fault

/-- If no size is exceeded, wrong packets that have been printed are due to short writes. -/
theorem MockInvariant.countP_printed_le (h : MockInvariant o P s)
    (hpayload : ∀ i, ¬ OccursAt header P.payload i) (hfit : ScansFit (delivered s.reads)) :
    s.printed.countP (· ≠ P) ≤ s.writes.countP fun v => ¬ v.Whole := by
  have hwrites : ∀ v ∈ s.writes, ∀ i, ¬ OccursAt header v.packet.payload i := fun v hv =>
    h.packet v hv ▸ hpayload
  have hloop := h.refines.mainLoop_eq (h.not_faulted hfit)
  obtain ⟨m, vs, hm, hvs, hcarries⟩ := mainLoop_carries o _ hwrites h.delivered_isPrefix hfit
  obtain rfl := Except.ok.inj (hloop.symm.trans hm)
  obtain ⟨printed, sent, hprinted, -, hsublist⟩ := h.datagrams
  calc s.printed.countP (· ≠ P)
      = printed.countP (fun packet => packet.toPacket ≠ P) := by
        rw [hprinted, List.countP_map]
        rfl
    _ ≤ s.process.broadcasts.countP (fun packet => packet.toPacket ≠ P) :=
        ((List.sublist_append_left printed sent).trans hsublist).countP_le
    _ ≤ vs.countP fun v => ¬ v.Whole :=
        countP_le_of_carries hcarries fun v hv => h.packet v (hvs.subset hv)
    _ ≤ s.writes.countP fun v => ¬ v.Whole := hvs.countP_le

/-- Without short writes the header is never far away in what has been read. -/
theorem MockInvariant.dense (h : MockInvariant o P s) (hwhole : ∀ v ∈ s.writes, v.Whole) :
    Dense (delivered s.reads) := by
  have hframes : delivered s.reads <+: (frameBytes (s.writes.map Write.packet)).drop 0 := by
    rw [List.drop_zero, ← writtenBytes_of_whole hwhole]
    exact h.delivered_isPrefix
  exact dense_of_prefix_drop hframes

/-- Without short writes a packet is broadcast for each 166 bytes read. -/
theorem MockInvariant.length_delivered_le (h : MockInvariant o P s)
    (hwhole : ∀ v ∈ s.writes, v.Whole) :
    (delivered s.reads).length ≤ 166 * s.process.broadcasts.length + 38 := by
  have hdense := h.dense hwhole
  exact hdense.length_delivered_le
    (h.refines.mainLoop_eq (h.not_faulted (scansFit_of_dense hdense))) (Nat.lt_succ_self _)

/-! ### What is printed -/

/-- **Short writes do limited damage.** For a packet without a header in its payload, whatever the
port accepts of each write, and in every state reached in which the parser has read less than
`2 ^ 31` bytes: the parser has not faulted, the receiver has not ended, and at most as many of the
packets it has printed are wrong as writes have been short. -/
theorem mock_shortWrites (o : ByteOrder) (P : Packet) (s : MockState)
    (hpayload : ∀ i, ¬ OccursAt header P.payload i)
    (h : Reachable (MockStep o P) .initial s) (hlen : (delivered s.reads).length < 2 ^ 31) :
    (∀ fault, s.process.phase ≠ .faulted fault) ∧ s.crashed = false ∧
      s.printed.countP (· ≠ P) ≤ s.writes.countP fun v => ¬ v.Whole := by
  have hinv := MockInvariant.of_reachable h
  have hfit := scansFit_of_length_lt hlen
  exact ⟨hinv.not_faulted hfit, hinv.running, hinv.countP_printed_le hpayload hfit⟩

/-- Of the first write 12 bytes are accepted; the packet printed is wrong. -/
theorem mock_shortWrites_oneShort :
    ∃ s, Reachable (MockStep .little ⟨7, 2, 3, 4⟩) .initial s ∧
      (delivered s.reads).length < 2 ^ 31 ∧ s.printed = [⟨7, 2, 0x7FF01CAF, 7⟩] ∧
      (∀ fault, s.process.phase ≠ .faulted fault) ∧ s.crashed = false ∧
      s.printed.countP (· ≠ ⟨7, 2, 3, 4⟩) ≤ s.writes.countP fun v => ¬ v.Whole := by
  let P : Packet := ⟨7, 2, 3, 4⟩
  have hpayload : ∀ i, ¬ OccursAt header P.payload i :=
    (firstIndex?_eq_none_iff header_ne_nil).mp (by decide)
  have hstart : Reachable (MockStep .little P) .initial .initial := .start
  have hshort := hstart.next (.write rfl (show 12 ≤ packetSize by decide))
  have hwhole := hshort.next (.write rfl (show 20 ≤ packetSize by decide))
  have hread := hwhole.next (.read (r := .data (P.frame.take 12 ++ P.frame) (by decide) (by decide))
    rfl (show _ = (P.frame.take 12 ++ P.frame) ++ [] by decide))
  have hprint := hread.next (.receive rfl
    (show _ = datagram .little ⟨7, 2, 0x7FF01CAF, 7⟩ :: [] by decide +kernel))
  exact ⟨_, hprint, by decide +kernel, by decide +kernel,
    mock_shortWrites .little P _ hpayload hprint (by decide +kernel)⟩

/-- **Without short writes**, for a packet with any payload, however much has been written, and in
every state reached: the parser has not faulted and has broadcast a packet for each 166 bytes that
it has read, and the receiver has not ended; if the payload contains no header, all packets printed
are right. -/
theorem mock_wholeWrites (o : ByteOrder) (P : Packet) (s : MockState)
    (h : Reachable (MockStep o P) .initial s) (hwhole : ∀ v ∈ s.writes, v.Whole) :
    (∀ fault, s.process.phase ≠ .faulted fault) ∧ s.crashed = false ∧
      (delivered s.reads).length ≤ 166 * s.process.broadcasts.length + 38 ∧
      ((∀ i, ¬ OccursAt header P.payload i) → ∀ tuple ∈ s.printed, tuple = P) := by
  have hinv := MockInvariant.of_reachable h
  have hfit := scansFit_of_dense (hinv.dense hwhole)
  refine ⟨hinv.not_faulted hfit, hinv.running, hinv.length_delivered_le hwhole, ?_⟩
  intro hpayload
  have hcount := hinv.countP_printed_le hpayload hfit
  have hshort : (s.writes.countP fun v => ¬ v.Whole) = 0 :=
    List.countP_eq_zero.mpr fun v hv => by simpa using hwhole v hv
  rw [hshort, Nat.le_zero, List.countP_eq_zero] at hcount
  exact fun tuple htuple => by simpa using hcount tuple htuple

/-- Two frames are written, a read ends in the second one, and a packet is printed. -/
theorem mock_wholeWrites_twoWrites :
    ∃ s, Reachable (MockStep .big ⟨7, 2, 3, 4⟩) .initial s ∧ (∀ v ∈ s.writes, v.Whole) ∧
      s.printed.length = 1 ∧
      (∀ fault, s.process.phase ≠ .faulted fault) ∧ s.crashed = false ∧
      (delivered s.reads).length ≤ 166 * s.process.broadcasts.length + 38 ∧
      ((∀ i, ¬ OccursAt header (⟨7, 2, 3, 4⟩ : Packet).payload i) →
        ∀ tuple ∈ s.printed, tuple = ⟨7, 2, 3, 4⟩) := by
  let P : Packet := ⟨7, 2, 3, 4⟩
  have hstart : Reachable (MockStep .big P) .initial .initial := .start
  have hfirst := hstart.next (.write rfl (show 20 ≤ packetSize by decide))
  have hsecond := hfirst.next (.write rfl (show 20 ≤ packetSize by decide))
  have hread := hsecond.next (.read (r := .data (P.frame ++ P.frame.take 5) (by decide) (by decide))
    rfl (show _ = (P.frame ++ P.frame.take 5) ++ P.frame.drop 5 by decide))
  have hprint := hread.next (.receive rfl (show _ = datagram .big P :: [] by decide +kernel))
  exact ⟨_, hprint, by decide +kernel, by decide +kernel,
    mock_wholeWrites .big P _ hprint (by decide +kernel)⟩

end IMUParser
