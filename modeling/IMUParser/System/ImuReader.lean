import IMUParser.Library.Transition
import IMUParser.Receive.FrameStream

/-!
# The two-thread reader

`IMU_Parser/src/imu_reader.cpp`: the thread `receive` appends what it reads to `dataBuffer`, the
thread `broadcast` parses `dataBuffer` and sends a datagram, again and again. A mutex makes each
append and each parse one step; the `sendto` is a step of its own.

The result of `parse` does not say whether a frame was found, so a datagram is sent each time, with
indeterminate bytes when none was. `parse` removes the bytes before the frame and not the frame
itself, so the next parse finds the same frame. `dataBuffer` is a vector of `char`: where `char` is
signed, the byte `F0` is -16 and never equal to `HEADER2`. And `little_endian` is set and not used:
the words are sent in network order, so on a little-endian host a datagram is not that of the packet
of the frame (`unpackNative_payload`). What does hold is that a first parse of a buffer whose first
frame is complete and in reach sends the packet of that frame, if its words are the same in network
order and in that of the host (`sendsFrames`).

The accesses that are checked are those of `dataBuffer`: the bytes that `findHeader` compares, the
words that `parse` copies and the bytes that it removes. Not modelled is the access to the struct in
`printf("packet %s", (char *) &packet)`, which prints it as a string: that is undefined when the
struct has not been written to, and when none of its 16 bytes is zero. The other output, and `halt`,
which nothing sets, are left out; so are reads that bring nothing.

## Main definitions

* `ImuReader.findHeader`, `ImuReader.parse`.
* `ReaderState`, `ReaderStep`: the states and steps of the two threads.
* `SendsFrames`, `NetworkOrdered`, `ParseFinds`.

## Main results

* `ImuReader.parse_of_firstAt`, `ImuReader.parse_of_isPrefix`, `ImuReader.parse_of_signed`.
* `unpackNative_payload`.
* `sendsFrames`, `not_sendsFrames`.
-/

namespace IMUParser

open Words Transition
open scoped List

/-! ### `findHeader` and `parse` -/

namespace ImuReader

/-- The promotion of a `char`, which is signed on some hosts and unsigned on others. -/
def promoteChar (charSigned : Bool) (c : UInt8) : ℤ :=
  if charSigned then c.toInt8.toInt else promoteUnsigned c

/-- `findHeader(position)` on `dataBuffer`. -/
def findHeader (charSigned : Bool) (dataBuffer : List UInt8) (position : UInt8) :
    Except Fault (Bool × UInt8) := do
  let bound ← subInt (staticCastInt dataBuffer.length) headerSize
  findHeaderLoop (promoteChar charSigned) dataBuffer position bound.toNat 0

/-- `buffer.erase(buffer.begin(), buffer.begin() + position)`, where `position > 0`. -/
def eraseFront (buffer : List UInt8) (position : UInt8) : Except Fault (List UInt8) :=
  if position > 0 then
    if position.toNat ≤ buffer.length then .ok (buffer.drop position.toNat)
    else .error (.outOfRange position.toNat buffer.length)
  else .ok buffer

/-- `parse(buffer, mtx)`: the packet returned, `none` for one that has not been written to, and the
buffer left. -/
def parse (o : ByteOrder) (charSigned : Bool) (buffer : List UInt8) :
    Except Fault (Option ParsedPacket × List UInt8) := do
  let (headerFound, position) ← findHeader charSigned buffer 0
  if headerFound ∧ sizeT (position.toNat + packetSize) ≤ buffer.length then
    let packet ← copyFields o buffer position.toNat
    let buffer ← eraseFront buffer position
    return (some packet, buffer)
  else
    let buffer ← eraseFront buffer position
    return (none, buffer)

variable {o : ByteOrder} {buffer : List UInt8} {p : ℕ}

theorem eraseFront_eq {position : UInt8} (h : position.toNat ≤ buffer.length) :
    eraseFront buffer position = .ok (buffer.drop position.toNat) := by
  rw [eraseFront, if_pos h]
  split_ifs with hpos
  · rfl
  · obtain rfl : position = 0 := UInt8.le_zero_iff.mp (UInt8.not_lt.mp hpos)
    rfl

/-- The struct copied from a frame has the payload of the frame as its image. -/
theorem image_rawPacket (h : p + 20 ≤ buffer.length) :
    (rawPacket o buffer p).image o = (packetAt buffer p).payload := by
  have hword {i : ℕ} (hi : i + 4 ≤ buffer.length) :
      o.storeWord (o.loadWord ((buffer.drop i).take 4)) =
        ByteOrder.big.storeWord (wordAt buffer i) := by
    rw [storeWord_wordAt hi, o.storeWord_loadWord (by simp; omega)]
  simp only [ParsedPacket.image, rawPacket, Packet.payload, packetAt, UInt32.toUInt32_toInt32]
  rw [hword (by omega), hword (by omega), hword (by omega), hword (by omega)]

/-- Where `char` is unsigned, `parse` returns a first frame that is complete and in reach, and
removes what stands before it. -/
theorem parse_of_firstAt (h : FirstAt header buffer p) (hp : p < 256)
    (hlen : p + packetSize ≤ buffer.length)
    (hscan : (p + headerSize : ℕ) < staticCastInt buffer.length) :
    parse o false buffer = .ok (some (rawPacket o buffer p), buffer.drop p) := by
  have hcast := staticCastInt_lt buffer.length
  have hfind : findHeader false buffer 0 = .ok (true, UInt8.ofNat p) := by
    simp only [headerSize] at hscan
    rw [findHeader, subInt_eq (by simp only [headerSize]; omega), ok_bind]
    exact findHeaderLoop_of_firstAt h (by simp only [headerSize]; omega)
  have hposition : (UInt8.ofNat p).toNat = p := UInt8.toNat_ofNat_of_lt' hp
  simp only [packetSize] at hlen
  unfold parse
  rw [hfind]
  simp only [ok_bind, sizeT_position, hposition]
  rw [if_pos ⟨trivial, hlen⟩, copyFields_eq hlen, ok_bind, eraseFront_eq (by omega), ok_bind,
    hposition]
  rfl

/-- `parse` leaves the frame that it returns in the buffer: whatever is appended, the next `parse`
returns it again. -/
theorem parse_of_isPrefix (h : header <+: buffer) (hlen : packetSize ≤ buffer.length)
    (hscan : (headerSize : ℤ) < staticCastInt buffer.length) :
    parse o false buffer = .ok (some (rawPacket o buffer 0), buffer) :=
  parse_of_firstAt (firstAt_zero h) (by decide) (by omega) (by simpa using hscan)

/-- Where `char` is signed, no byte compares equal to `HEADER2`. -/
theorem promoteChar_ne (c : UInt8) : promoteChar true c ≠ 0xF0 := by
  have h := c.toInt8.toInt_lt
  simp only [promoteChar, if_true]
  omega

/-- Where `char` is signed, `parse` never returns a packet. -/
theorem parse_of_signed (hn : buffer.length < 2 ^ 31) :
    parse o true buffer = .ok (none, buffer) := by
  have hmiss (j : ℕ) (hj : j + 4 < buffer.length) :
      matchesAt (promoteChar true) buffer headerBytes j = .ok false := by
    simp only [headerBytes, matchesAt, byteAt_of_lt (show j < buffer.length by omega),
      byteAt_of_lt (show j + 1 < buffer.length by omega), ok_bind, promoteChar_ne, if_false]
    split_ifs <;> rfl
  have hfind : findHeader true buffer 0 = .ok (false, 0) := by
    rw [findHeader, staticCastInt_of_lt hn, subInt_eq (by simp only [headerSize]; omega), ok_bind]
    exact findHeaderLoop_of_forall fun j _ hj =>
      hmiss j (by simp only [headerSize] at hj; omega)
  unfold parse
  rw [hfind]
  rfl

end ImuReader

/-! ### The two threads -/

/-- Where the thread `broadcast` is: at the head of its loop, or between `parse` and `sendto`, with
the offset in the stream from which `parse` has copied the packet, or behind a fault. -/
inductive BroadcastPhase
  | looping
  | parsed (packet : Option ParsedPacket) (origin : ℕ)
  | faulted (fault : Fault)
  deriving DecidableEq, Repr

/-- The state of the reader, and what has happened so far. -/
structure ReaderState where
  /-- The bytes of the stream that `receive` has not appended yet. -/
  unread : List UInt8
  /-- The bytes that it has appended. -/
  received : List UInt8
  dataBuffer : List UInt8
  broadcast : BroadcastPhase
  /-- The datagrams sent, `none` for one with indeterminate bytes. -/
  sent : List (Option (List UInt8))
  /-- The offsets in the stream from which their packets have been copied. -/
  origins : List ℕ

namespace ReaderState

/-- The threads are about to start, `bytes` is the stream to come. -/
def initial (bytes : List UInt8) : ReaderState := ⟨bytes, [], [], .looping, [], []⟩

/-- The end of a call of `parse`. It has removed what stood before the frame that it has copied, so
that the buffer left starts with this frame. -/
def afterParse (s : ReaderState) : Except Fault (Option ParsedPacket × List UInt8) → ReaderState
  | .error fault => { s with broadcast := .faulted fault }
  | .ok (packet, buffer) =>
    { s with dataBuffer := buffer,
             broadcast := .parsed packet (s.received.length - buffer.length) }

end ReaderState

/-- The kinds of steps. -/
inductive ReaderLabel
  | append
  | parse
  | send

/-- The steps of the two threads. A step `send` is the rest of an iteration of `broadcast` behind
`parse`, without its output. -/
inductive ReaderStep (o : ByteOrder) (charSigned : Bool) :
    ReaderState → ReaderLabel → ReaderState → Prop
  | append {s : ReaderState} {chunk rest : List UInt8} (pos : 0 < chunk.length)
      (le : chunk.length ≤ 128) (next : s.unread = chunk ++ rest) :
      ReaderStep o charSigned s .append
        { s with unread := rest, received := s.received ++ chunk,
                 dataBuffer := s.dataBuffer ++ chunk }
  | parse {s : ReaderState} (looping : s.broadcast = .looping) :
      ReaderStep o charSigned s .parse (s.afterParse (ImuReader.parse o charSigned s.dataBuffer))
  | send {s : ReaderState} {packet : Option ParsedPacket} {origin : ℕ}
      (parsed : s.broadcast = .parsed packet origin) :
      ReaderStep o charSigned s .send
        { s with broadcast := .looping, sent := s.sent ++ [packet.map (·.image o)],
                 origins := s.origins ++ [origin] }

/-! ### What is sent -/

/-- The datagrams sent are those of the packets of distinct frames that have been received, in
order. -/
structure SendsFrames (o : ByteOrder) (S : FramedStream) (s : ReaderState) : Prop where
  distinct : s.origins <+ S.starts
  received : ∀ q ∈ s.origins, q + packetSize ≤ s.received.length
  sent : s.sent = s.origins.map fun q => some (datagram o (packetAt S.bytes q))

/-- The payload of a frame is what a host sends of it that has the words as `ntohl` changes them. -/
theorem image_ntohl (o : ByteOrder) (P : Packet) : (P.toParsed.ntohl o).image o = P.payload := by
  simp only [ParsedPacket.image, ParsedPacket.ntohl, Packet.toParsed, UInt32.toUInt32_toInt32,
    ntohl, ByteOrder.storeWord_networkWord, Packet.payload]

/-- The words of a payload are in network order, so a receiver reads them as `ntohl` changes them:
as those of the packet on a big-endian host only. -/
theorem unpackNative_payload (o : ByteOrder) (P : Packet) :
    unpackNative o P.payload = some (P.toParsed.ntohl o).toPacket := by
  rw [← image_ntohl o P, unpackNative_image]

/-- `ntohl` would not change the words of the packet: the host is big-endian, or they are the same
in both byte orders. -/
def NetworkOrdered (o : ByteOrder) (P : Packet) : Prop := P.toParsed.ntohl o = P.toParsed

theorem networkOrdered_big (P : Packet) : NetworkOrdered .big P := by
  simp only [NetworkOrdered, ParsedPacket.ntohl, ntohl, ByteOrder.networkWord_big,
    Packet.toParsed, UInt32.toUInt32_toInt32]

theorem NetworkOrdered.datagram_eq {o : ByteOrder} {P : Packet} (h : NetworkOrdered o P) :
    datagram o P = P.payload := by
  rw [datagram, ← h, image_ntohl]

/-- A parse that finds a frame which has not been sent: `char` is unsigned, nothing has been sent,
and the first frame of the buffer is complete, at an index below 256 and, the size taken as an
`int`, within the scan; and its words need no `ntohl`. -/
structure ParseFinds (o : ByteOrder) (charSigned : Bool) (s : ReaderState) : Prop where
  unsigned : charSigned = false
  first : s.sent = []
  exists_firstAt : ∃ p, FirstAt header s.dataBuffer p ∧ p < 256 ∧
    p + packetSize ≤ s.dataBuffer.length ∧
    (p + headerSize : ℕ) < staticCastInt s.dataBuffer.length ∧
    NetworkOrdered o (packetAt s.dataBuffer p)

/-- The condition on the steps: each parse finds a frame which has not been sent. -/
def ParsesFind (o : ByteOrder) (charSigned : Bool) (s : ReaderState) : ReaderLabel → Prop
  | .parse => ParseFinds o charSigned s
  | _ => True

/-- How far a run has come in which each parse finds a frame which has not been sent. -/
inductive ReaderStage (o : ByteOrder) (S : FramedStream) (s : ReaderState) : Prop
  | fresh (sent : s.sent = []) (origins : s.origins = []) (dataBuffer : s.dataBuffer = s.received)
      (looping : s.broadcast = .looping)
  | parsed (q : ℕ) (packet : ParsedPacket) (mem : q ∈ S.starts)
      (fits : q + packetSize ≤ s.received.length) (sent : s.sent = []) (origins : s.origins = [])
      (parsed : s.broadcast = .parsed (some packet) q)
      (image : packet.image o = datagram o (packetAt S.bytes q))
  | sent (q : ℕ) (mem : q ∈ S.starts) (fits : q + packetSize ≤ s.received.length)
      (looping : s.broadcast = .looping)
      (sent : s.sent = [some (datagram o (packetAt S.bytes q))]) (origins : s.origins = [q])

/-- The invariant of these runs. -/
structure ReaderInvariant (o : ByteOrder) (S : FramedStream) (s : ReaderState) : Prop where
  stream : S.bytes = s.received ++ s.unread
  stage : ReaderStage o S s

variable {o : ByteOrder} {charSigned : Bool} {S : FramedStream} {s s' : ReaderState}
  {l : ReaderLabel}

theorem readerInvariant_initial : ReaderInvariant o S (.initial S.bytes) :=
  ⟨rfl, .fresh rfl rfl rfl rfl⟩

/-- A parse that finds the first frame of what has been received. -/
theorem ReaderInvariant.parse (h : ReaderInvariant o S s) (hfinds : ParseFinds o charSigned s)
    (hlooping : s.broadcast = .looping) :
    ReaderInvariant o S (s.afterParse (ImuReader.parse o charSigned s.dataBuffer)) := by
  obtain ⟨rfl, hfirst, p, hp, hp256, hlen, hscan, hordered⟩ := hfinds
  cases h.stage with
  | parsed _ _ _ _ _ _ hparsed => exact absurd (hlooping.symm.trans hparsed) nofun
  | sent _ _ _ _ hsent => exact absurd (hfirst.symm.trans hsent) nofun
  | fresh hsent horigins hbuffer =>
    have hreceived : s.received <+: S.bytes := h.stream ▸ List.prefix_append _ _
    rw [hbuffer] at hp hlen hscan hordered ⊢
    rw [ImuReader.parse_of_firstAt hp hp256 hlen hscan]
    refine ⟨h.stream, .parsed p (rawPacket o s.received p)
      (FramedStream.mem_starts hreceived hp.occursAt) hlen hsent horigins ?_ ?_⟩
    · have horigin : s.received.length - (s.received.drop p).length = p := by
        rw [List.length_drop]
        omega
      simp only [ReaderState.afterParse, horigin]
    · rw [ImuReader.image_rawPacket hlen, h.stream, packetAt_append hlen, hordered.datagram_eq]

/-- **The step lemma.** -/
theorem ReaderInvariant.step (h : ReaderInvariant o S s)
    (hstep : restrict (ReaderStep o charSigned) (ParsesFind o charSigned) s l s') :
    ReaderInvariant o S s' := by
  obtain ⟨hcond, hstep⟩ := hstep
  cases hstep with
  | @append chunk rest _ _ next =>
    have hgrow {q : ℕ} (hq : q + packetSize ≤ s.received.length) :
        q + packetSize ≤ (s.received ++ chunk).length :=
      hq.trans (List.length_append ▸ Nat.le_add_right _ _)
    refine ⟨by rw [h.stream, next, List.append_assoc], ?_⟩
    cases h.stage with
    | fresh hs ho hb hl => exact .fresh hs ho (congrArg (· ++ chunk) hb) hl
    | parsed q packet hm hf hs ho hp hi => exact .parsed q packet hm (hgrow hf) hs ho hp hi
    | sent q hm hf hl hs ho => exact .sent q hm (hgrow hf) hl hs ho
  | parse looping => exact h.parse hcond looping
  | send parsed =>
    cases h.stage with
    | fresh _ _ _ hl => exact absurd (hl.symm.trans parsed) nofun
    | sent _ _ _ hl => exact absurd (hl.symm.trans parsed) nofun
    | parsed q packet hm hf hs ho hp hi =>
      obtain ⟨rfl, rfl⟩ := BroadcastPhase.parsed.inj (parsed.symm.trans hp)
      refine ⟨h.stream, .sent _ hm hf rfl ?_ ?_⟩
      · simp only [hs, List.nil_append, Option.map_some, hi]
      · simp only [ho, List.nil_append]

/-- **When the reader sends frames.** In every state of every run each of whose parses finds a frame
which has not been sent, and whose words need no `ntohl`, the datagrams sent are those of the
packets of distinct received frames, in order. -/
theorem sendsFrames (o : ByteOrder) (charSigned : Bool) (S : FramedStream) (s : ReaderState)
    (h : Reachable (restrict (ReaderStep o charSigned) (ParsesFind o charSigned))
      (.initial S.bytes) s) :
    SendsFrames o S s := by
  have hinv := h.invariant (I := ReaderInvariant o S) readerInvariant_initial
    fun _ _ _ hs hstep => hs.step hstep
  cases hinv.stage with
  | fresh hs ho => exact ⟨by simp [ho], by simp [ho], by simp [hs, ho]⟩
  | parsed _ _ _ _ hs ho => exact ⟨by simp [ho], by simp [ho], by simp [hs, ho]⟩
  | sent q hm hf _ hs ho => exact ⟨by simpa [ho] using hm, by simpa [ho] using hf, by simp [hs, ho]⟩

/-- A stream of two frames is appended, parsed and sent. -/
theorem sendsFrames_twoFrames :
    ∃ s, Reachable (restrict (ReaderStep .big false) (ParsesFind .big false))
        (.initial twoFrames.bytes) s ∧
      s.sent = [some (datagram .big ⟨1, 2, 3, 4⟩)] ∧ SendsFrames .big twoFrames s := by
  let packet : ParsedPacket := ⟨1, 2, 3, 4⟩
  have hstart : Reachable (restrict (ReaderStep .big false) (ParsesFind .big false))
    (.initial twoFrames.bytes) (.initial twoFrames.bytes) := .start
  have happend := hstart.next (l := ReaderLabel.append) ⟨trivial, .append (by decide) (by decide)
    (show _ = twoFrames.bytes ++ [] by decide)⟩
  have hparse := happend.next (l := ReaderLabel.parse) ⟨⟨rfl, rfl, 2, ⟨by decide, by decide⟩,
    by decide, by decide, by decide, networkOrdered_big _⟩, .parse rfl⟩
  have hsend := hparse.next (l := ReaderLabel.send)
    ⟨trivial, .send (show _ = BroadcastPhase.parsed (some packet) 2 by decide +kernel)⟩
  exact ⟨_, hsend, by decide +kernel, sendsFrames .big false twoFrames _ hsend⟩

/-- On a host with signed `char`, a datagram is sent before any frame has been received; with
unsigned `char`, the first frame is sent twice; and on a little-endian host, the datagram sent for
the first frame is not that of its packet. -/
theorem not_sendsFrames :
    (∃ s, Reachable (ReaderStep .big true) (.initial twoFrames.bytes) s ∧ s.received = [] ∧
      s.sent = [none] ∧ ¬ SendsFrames .big twoFrames s) ∧
    (∃ s, Reachable (ReaderStep .big false) (.initial twoFrames.bytes) s ∧
      s.origins = [2, 2] ∧ s.sent = List.replicate 2 (some (datagram .big ⟨1, 2, 3, 4⟩)) ∧
      ¬ SendsFrames .big twoFrames s) ∧
    ∃ s, Reachable (ReaderStep .little false) (.initial twoFrames.bytes) s ∧ s.origins = [2] ∧
      s.sent = [some (⟨1, 2, 3, 4⟩ : Packet).payload] ∧ ¬ SendsFrames .little twoFrames s := by
  refine ⟨?_, ?_, ?_⟩
  · have hstart : Reachable (ReaderStep .big true) (.initial twoFrames.bytes)
      (.initial twoFrames.bytes) := .start
    have hparse := hstart.next (.parse rfl)
    have hsend := hparse.next (.send (show _ = BroadcastPhase.parsed none 0 by decide +kernel))
    exact ⟨_, hsend, rfl, rfl, fun h => absurd h.sent (by decide +kernel)⟩
  · let packet : ParsedPacket := ⟨1, 2, 3, 4⟩
    have hstart : Reachable (ReaderStep .big false) (.initial twoFrames.bytes)
      (.initial twoFrames.bytes) := .start
    have happend := hstart.next (.append (by decide) (by decide)
      (show _ = twoFrames.bytes ++ [] by decide))
    have hparse := happend.next (.parse rfl)
    have hsend := hparse.next
      (.send (show _ = BroadcastPhase.parsed (some packet) 2 by decide +kernel))
    have hparse' := hsend.next (.parse rfl)
    have hsend' := hparse'.next
      (.send (show _ = BroadcastPhase.parsed (some packet) 2 by decide +kernel))
    exact ⟨_, hsend', by decide +kernel, by decide +kernel,
      fun h => absurd h.distinct (by decide +kernel)⟩
  · let packet : ParsedPacket := ⟨0x01000000, 0x02000000, 0x03000000, 0x04000000⟩
    have hstart : Reachable (ReaderStep .little false) (.initial twoFrames.bytes)
      (.initial twoFrames.bytes) := .start
    have happend := hstart.next (.append (by decide) (by decide)
      (show _ = twoFrames.bytes ++ [] by decide))
    have hparse := happend.next (.parse rfl)
    have hsend := hparse.next
      (.send (show _ = BroadcastPhase.parsed (some packet) 2 by decide +kernel))
    exact ⟨_, hsend, by decide +kernel, by decide +kernel,
      fun h => absurd h.sent (by decide +kernel)⟩

end IMUParser
