import IMUParser.System.ImuReader

/-!
# Whole runs of the two-thread reader

What `imu_reader` sends, in every run and for every stream. With unsigned `char`, `parse` removes
the bytes before the first header, or, if the position wraps around, a number of them that leaves
the header at a multiple of 256. From then on the position is 0 and nothing is removed any more:
every parse reads the same 20 bytes (`ImuReader.parse_eq`). So all datagrams with determined bytes
are one and the same, `dataBuffer` loses at most 255 bytes in the whole run, and no other frame is
ever sent (`reader_repeats`). With signed `char` no datagram has determined bytes, and `dataBuffer`
loses nothing (`reader_signed`).

## Main definitions

* `RepeatsFrom`, `ReaderProgress`: the datagrams of a run, and the invariant.

## Main results

* `ImuReader.parse_eq`.
* `reader_repeats`, `reader_signed`.
-/

namespace IMUParser

open Words Transition

/-! ### What `parse` computes -/

namespace ImuReader

variable {o : ByteOrder} {buffer : List UInt8} {p : ℕ}

/-- Where `char` is unsigned, `findHeader` finds the first header, as in the parser process. -/
theorem findHeader_eq (hn : buffer.length < 2 ^ 31) :
    findHeader false buffer 0 = .ok (match visibleHeader? buffer with
      | some p => (true, UInt8.ofNat p)
      | none => (false, 0)) := by
  rw [findHeader, staticCastInt_of_lt hn, subInt_eq (by simp only [headerSize]; omega), ok_bind]
  cases hvis : visibleHeader? buffer with
  | some p =>
    obtain ⟨hfirst, hp⟩ := visibleHeader?_eq_some_iff.mp hvis
    exact findHeaderLoop_of_firstAt hfirst (by simp only [headerSize]; omega)
  | none =>
    refine findHeaderLoop_of_forall fun j _ hj => ?_
    simp only [headerSize] at hj
    have hmatch : matchesAt promoteUnsigned buffer headerBytes j = _ := matchesAt_header (by omega)
    rwa [decide_eq_false (not_occursAt_of_visibleHeader?_eq_none hvis (by omega))] at hmatch

/-- **`parse`**, where `char` is unsigned: it returns the frame at the index of the first header
modulo 256, if it is complete, and removes what stands before it. -/
theorem parse_eq (hn : buffer.length < 2 ^ 31) :
    parse o false buffer = .ok (match visibleHeader? buffer with
      | some p =>
        (if p % 256 + 20 ≤ buffer.length then some (rawPacket o buffer (p % 256)) else none,
          buffer.drop (p % 256))
      | none => (none, buffer)) := by
  unfold parse
  rw [findHeader_eq hn]
  cases hvis : visibleHeader? buffer with
  | none => rfl
  | some p =>
    obtain ⟨-, hp⟩ := visibleHeader?_eq_some_iff.mp hvis
    have herase : eraseFront buffer (UInt8.ofNat p) = .ok (buffer.drop (p % 256)) := by
      rw [eraseFront_eq (by rw [toNat_ofNat_mod]; omega), toNat_ofNat_mod]
    simp only [ok_bind, sizeT_position, toNat_ofNat_mod, true_and]
    by_cases hlen : p % 256 + 20 ≤ buffer.length
    · rw [if_pos hlen, if_pos hlen, copyFields_eq hlen, herase]
      rfl
    · rw [if_neg hlen, if_neg hlen, herase]
      rfl

end ImuReader

/-! ### Without a header -/

/-- No header has been found: nothing has been removed and no determined bytes have been sent. -/
structure ReaderState.Searching (s : ReaderState) : Prop where
  dataBuffer : s.dataBuffer = s.received
  sent : ∀ data ∈ s.sent, data = none
  parsed : ∀ packet origin, s.broadcast = .parsed packet origin → packet = none

variable {o : ByteOrder} {s s' : ReaderState} {l : ReaderLabel}

namespace ReaderState.Searching

theorem append (h : s.Searching) (chunk rest : List UInt8) :
    Searching { s with unread := rest, received := s.received ++ chunk,
                       dataBuffer := s.dataBuffer ++ chunk } :=
  ⟨congrArg (· ++ chunk) h.dataBuffer, h.sent, h.parsed⟩

theorem afterParse_none (h : s.Searching) : (s.afterParse (.ok (none, s.dataBuffer))).Searching :=
  ⟨h.dataBuffer, h.sent, fun _ _ hpacket => (BroadcastPhase.parsed.inj hpacket).1.symm⟩

theorem send (h : s.Searching) (o : ByteOrder) {packet : Option ParsedPacket} {origin : ℕ}
    (parsed : s.broadcast = .parsed packet origin) :
    Searching { s with broadcast := .looping, sent := s.sent ++ [packet.map (·.image o)],
                       origins := s.origins ++ [origin] } := by
  refine ⟨h.dataBuffer, fun data hdata => ?_, nofun⟩
  rcases List.mem_append.mp hdata with hdata | hdata
  · exact h.sent data hdata
  · rw [List.mem_singleton.mp hdata, h.parsed packet origin parsed, Option.map_none]

end ReaderState.Searching

/-! ### Unsigned `char` -/

/-- The datagram, if its bytes are determined, is what stands in the stream behind the header that
is assumed at `p % 256`. -/
def RepeatsFrom (bytes : List UInt8) (p : ℕ) (data : Option (List UInt8)) : Prop :=
  data = none ∨ data = some ((bytes.drop (p % 256 + 4)).take 16)

/-- How far a run has come: no header has been found and nothing has been removed, or the first
header of the stream has been found at `p` and is now at a multiple of 256 of the buffer. -/
inductive ReaderProgress (o : ByteOrder) (bytes : List UInt8) (s : ReaderState) : Prop
  | searching (h : s.Searching)
  | found (p : ℕ) (first : FirstAt header s.received p) (visible : p + 4 < s.received.length)
      (dataBuffer : s.dataBuffer = s.received.drop (p % 256))
      (sent : ∀ data ∈ s.sent, RepeatsFrom bytes p data)
      (parsed : ∀ packet origin, s.broadcast = .parsed packet origin →
        RepeatsFrom bytes p (packet.map (·.image o)))

/-- The invariant of all runs. -/
structure ReaderRun (o : ByteOrder) (bytes : List UInt8) (s : ReaderState) : Prop where
  stream : bytes = s.received ++ s.unread
  not_faulted : ∀ fault, s.broadcast ≠ .faulted fault
  progress : ReaderProgress o bytes s

variable {bytes received unread : List UInt8} {p : ℕ}

theorem readerRun_initial : ReaderRun o bytes (.initial bytes) :=
  ⟨rfl, nofun, .searching ⟨rfl, nofun, nofun⟩⟩

/-- The struct copied from the buffer at `i`, when the first `k` bytes of the stream have been
removed. -/
theorem image_rawPacket_drop (k i : ℕ) (h : i + 20 ≤ (received.drop k).length) :
    (rawPacket o (received.drop k) i).image o =
      ((received ++ unread).drop (k + i + 4)).take 16 := by
  rw [ImuReader.image_rawPacket h, payload_packetAt h, List.drop_drop, Nat.add_assoc]
  rw [List.length_drop] at h
  rw [List.drop_append_of_le_length (by omega),
    List.take_append_of_le_length (by rw [List.length_drop]; omega)]

/-- The first header, once found, is at a multiple of 256 of the buffer. -/
theorem visibleHeader?_drop (hfirst : FirstAt header received p) (hp : p + 4 < received.length) :
    visibleHeader? (received.drop (p % 256)) = some (p - p % 256) := by
  have hle := Nat.mod_le p 256
  refine visibleHeader?_eq_some_iff.mpr ⟨⟨?_, fun i hi hocc => ?_⟩, ?_⟩
  · rw [occursAt_drop_iff, Nat.add_sub_cancel' hle]
    exact hfirst.occursAt
  · rw [occursAt_drop_iff] at hocc
    exact hfirst.not_occursAt _ (by omega) hocc
  · rw [List.length_drop]
    omega

/-- A parse finds the first header of the stream, or reads behind it again. -/
theorem ReaderRun.parse (h : ReaderRun o bytes s) (hlen : bytes.length < 2 ^ 31) :
    ReaderRun o bytes (s.afterParse (ImuReader.parse o false s.dataBuffer)) := by
  obtain ⟨hstream, -, hprogress⟩ := h
  have hreceived := congrArg List.length hstream
  rw [List.length_append] at hreceived
  cases hprogress with
  | searching hsearching =>
    have hbuffer := hsearching.dataBuffer
    rw [hbuffer, ImuReader.parse_eq (by omega)]
    cases hvis : visibleHeader? s.received with
    | none =>
      exact ⟨hstream, nofun, .searching (hbuffer ▸ hsearching.afterParse_none)⟩
    | some p =>
      obtain ⟨hfirst, hp⟩ := visibleHeader?_eq_some_iff.mp hvis
      refine ⟨hstream, nofun, .found p hfirst hp rfl (fun data hdata =>
        Or.inl (hsearching.sent data hdata)) fun packet _ hpacket => ?_⟩
      obtain ⟨rfl, -⟩ := BroadcastPhase.parsed.inj hpacket
      split_ifs with hcomplete
      · right
        rw [Option.map_some, hstream]
        exact congrArg some (by simpa using image_rawPacket_drop (o := o) 0 (p % 256) hcomplete)
      · exact Or.inl rfl
  | found p hfirst hp hbuffer hsent hparsed =>
    have hzero : (p - p % 256) % 256 = 0 := by omega
    rw [hbuffer, ImuReader.parse_eq (by rw [List.length_drop]; omega),
      visibleHeader?_drop hfirst hp]
    simp only [hzero, List.drop_zero]
    refine ⟨hstream, nofun, .found p hfirst hp rfl hsent fun packet _ hpacket => ?_⟩
    obtain ⟨rfl, -⟩ := BroadcastPhase.parsed.inj hpacket
    split_ifs with hcomplete
    · right
      rw [Option.map_some, hstream, image_rawPacket_drop _ _ hcomplete, Nat.add_zero]
    · exact Or.inl rfl

/-- **The step lemma.** -/
theorem ReaderRun.step (h : ReaderRun o bytes s) (hlen : bytes.length < 2 ^ 31)
    (hstep : ReaderStep o false s l s') : ReaderRun o bytes s' := by
  cases hstep with
  | parse => exact h.parse hlen
  | @append chunk rest _ _ next =>
    refine ⟨by rw [h.stream, next, List.append_assoc], h.not_faulted, ?_⟩
    cases h.progress with
    | searching hsearching => exact .searching (hsearching.append chunk rest)
    | found p hfirst hp hbuffer hsent hparsed =>
      have hle := Nat.mod_le p 256
      refine .found p (hfirst.append header_ne_nil chunk) ?_ ?_ hsent hparsed
      · rw [List.length_append]
        omega
      · rw [hbuffer, List.drop_append_of_le_length (by omega)]
  | @send packet origin parsed =>
    refine ⟨h.stream, nofun, ?_⟩
    cases h.progress with
    | searching hsearching => exact .searching (hsearching.send o parsed)
    | found p hfirst hp hbuffer hsent hparsed =>
      refine .found p hfirst hp hbuffer (fun data hdata => ?_) nofun
      rcases List.mem_append.mp hdata with hdata | hdata
      · exact hsent data hdata
      · exact List.mem_singleton.mp hdata ▸ hparsed packet origin parsed

/-- **The reader repeats itself.** Where `char` is unsigned, for every stream of less than `2 ^ 31`
bytes, in every state of every run: no access to `dataBuffer` is out of range, `dataBuffer` holds
all bytes received but for at most 255 at the front, and all datagrams sent with determined bytes
carry the same 16 bytes of the stream, which are those of the first frame if its index is below
256. -/
theorem reader_repeats (o : ByteOrder) (bytes : List UInt8) (s : ReaderState)
    (hlen : bytes.length < 2 ^ 31) (h : Reachable (ReaderStep o false) (.initial bytes) s) :
    (∀ fault, s.broadcast ≠ .faulted fault) ∧
      (∃ k < 256, s.dataBuffer = s.received.drop k) ∧
      ∀ data ∈ s.sent, data = none ∨ ∃ p, FirstAt header bytes p ∧
        data = some ((bytes.drop (p % 256 + 4)).take 16) := by
  have hrun := h.invariant (I := ReaderRun o bytes) readerRun_initial
    fun _ _ _ hs hstep => hs.step hlen hstep
  refine ⟨hrun.not_faulted, ?_⟩
  cases hrun.progress with
  | searching hsearching =>
    exact ⟨⟨0, by decide, hsearching.dataBuffer⟩,
      fun data hdata => Or.inl (hsearching.sent data hdata)⟩
  | found p hfirst _ hbuffer hsent _ =>
    refine ⟨⟨p % 256, Nat.mod_lt p (by decide), hbuffer⟩, fun data hdata => ?_⟩
    exact (hsent data hdata).imp_right fun hdata =>
      ⟨p, hrun.stream ▸ hfirst.append header_ne_nil s.unread, hdata⟩

/-- Two frames, with a failed search before the first one has been appended; the first one is sent
twice. -/
theorem reader_repeats_twoFrames :
    ∃ s, Reachable (ReaderStep .little false) (.initial twoFrames.bytes) s ∧ s.sent.length = 3 ∧
      (∀ fault, s.broadcast ≠ .faulted fault) ∧ (∃ k < 256, s.dataBuffer = s.received.drop k) ∧
      ∀ data ∈ s.sent, data = none ∨ ∃ p, FirstAt header twoFrames.bytes p ∧
        data = some ((twoFrames.bytes.drop (p % 256 + 4)).take 16) := by
  let packet : ParsedPacket := ⟨0x01000000, 0x02000000, 0x03000000, 0x04000000⟩
  have hstart : Reachable (ReaderStep .little false) (.initial twoFrames.bytes)
    (.initial twoFrames.bytes) := .start
  have hfail := hstart.next (.parse rfl)
  have hnone := hfail.next (.send (show _ = BroadcastPhase.parsed none 0 by decide +kernel))
  have happend := hnone.next (.append (by decide) (by decide)
    (show _ = twoFrames.bytes ++ [] by decide))
  have hparse := happend.next (.parse rfl)
  have hsend := hparse.next
    (.send (show _ = BroadcastPhase.parsed (some packet) 2 by decide +kernel))
  have hparse' := hsend.next (.parse rfl)
  have hsend' := hparse'.next
    (.send (show _ = BroadcastPhase.parsed (some packet) 2 by decide +kernel))
  exact ⟨_, hsend', by decide +kernel,
    reader_repeats .little twoFrames.bytes _ (by decide) hsend'⟩

/-! ### Signed `char` -/

/-- The invariant of all runs. -/
structure SignedReaderRun (bytes : List UInt8) (s : ReaderState) : Prop where
  stream : bytes = s.received ++ s.unread
  not_faulted : ∀ fault, s.broadcast ≠ .faulted fault
  searching : s.Searching

/-- **The step lemma.** -/
theorem SignedReaderRun.step (h : SignedReaderRun bytes s) (hlen : bytes.length < 2 ^ 31)
    (hstep : ReaderStep o true s l s') : SignedReaderRun bytes s' := by
  cases hstep with
  | parse =>
    have hreceived := congrArg List.length h.stream
    rw [List.length_append, ← h.searching.dataBuffer] at hreceived
    rw [ImuReader.parse_of_signed (by omega)]
    exact ⟨h.stream, nofun, h.searching.afterParse_none⟩
  | @append chunk rest _ _ next =>
    exact ⟨by rw [h.stream, next, List.append_assoc], h.not_faulted, h.searching.append chunk rest⟩
  | send parsed => exact ⟨h.stream, nofun, h.searching.send o parsed⟩

/-- **The reader finds nothing.** Where `char` is signed, for every stream of less than `2 ^ 31`
bytes, in every state of every run: no access to `dataBuffer` is out of range, `dataBuffer` holds
all bytes received, and no datagram sent has determined bytes. -/
theorem reader_signed (o : ByteOrder) (bytes : List UInt8) (s : ReaderState)
    (hlen : bytes.length < 2 ^ 31) (h : Reachable (ReaderStep o true) (.initial bytes) s) :
    (∀ fault, s.broadcast ≠ .faulted fault) ∧ s.dataBuffer = s.received ∧
      ∀ data ∈ s.sent, data = none := by
  have hrun := h.invariant (I := SignedReaderRun bytes) ⟨rfl, nofun, rfl, nofun, nofun⟩
    fun _ _ _ hs hstep => hs.step hlen hstep
  exact ⟨hrun.not_faulted, hrun.searching.dataBuffer, hrun.searching.sent⟩

/-- A datagram is sent when both frames have been appended. -/
theorem reader_signed_twoFrames :
    ∃ s, Reachable (ReaderStep .little true) (.initial twoFrames.bytes) s ∧
      s.received = twoFrames.bytes ∧ s.sent.length = 1 ∧ (∀ fault, s.broadcast ≠ .faulted fault) ∧
      s.dataBuffer = s.received ∧ ∀ data ∈ s.sent, data = none := by
  have hstart : Reachable (ReaderStep .little true) (.initial twoFrames.bytes)
    (.initial twoFrames.bytes) := .start
  have happend := hstart.next (.append (by decide) (by decide)
    (show _ = twoFrames.bytes ++ [] by decide))
  have hparse := happend.next (.parse rfl)
  have hsend := hparse.next (.send (show _ = BroadcastPhase.parsed none 0 by decide +kernel))
  exact ⟨_, hsend, rfl, rfl, reader_signed .little twoFrames.bytes _ (by decide) hsend⟩

end IMUParser
