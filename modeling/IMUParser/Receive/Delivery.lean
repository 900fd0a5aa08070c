import IMUParser.Receive.Recognition

/-!
# Independence of the delivery

What a call of `processIMU_Frames` broadcasts is a function of the bytes that it gets, not of how
`read` cuts them up or of the empty and failing reads in between (`processIMUFrames_delivery`). This
holds for every stream, also where the position wraps around: the stored index depends on the first
header alone.

At the head of the loop the buffer is one that `parsePacket` has refused, or it is empty. So a
complete frame never waits there (`mainLoop_no_complete_frame`): a first header at 256 or later is
accepted even before its frame is complete.

## Main results

* `processIMUFrames_packet?`, `processIMUFrames_delivery`.
* `mainLoop_no_complete_frame`.
-/

namespace IMUParser

open Words

/-! ### One call -/

/-- A call on an empty buffer broadcasts what the recogniser says of all bytes delivered. -/
theorem processIMUFrames_packet? (o : ByteOrder) (le : Bool) (reads : List ReadResult)
    (hlen : (delivered reads).length < 2 ^ 31) :
    ∃ out, processIMUFrames o le [] reads = .ok out ∧
      out.packet? = (frameRecogniser o le).accept (delivered reads) := by
  have hvalue := (frameRecogniser o le).await_map_fst (payloads reads) [] (Recogniser.accept_nil _)
  have hcall := processIMUFrames_refines o le (scansFit_of_length_lt hlen)
  rw [List.nil_append] at hvalue
  change _ = (frameRecogniser o le).accept (delivered reads) at hvalue
  rw [← hvalue]
  cases hawait : (frameRecogniser o le).await [] (payloads reads) with
  | none =>
    rw [hawait] at hcall
    obtain ⟨index', hloop⟩ := hcall
    exact ⟨_, hloop, rfl⟩
  | some r =>
    obtain ⟨packet, cs⟩ := r
    rw [hawait] at hcall
    obtain ⟨-, -, -, -, unread, -, -, hloop⟩ := hcall
    exact ⟨_, hloop, rfl⟩

/-- **A broadcast does not depend on the delivery.** Two deliveries of the same bytes, with any
empty and failing reads in between, lead one call to the same packet or to none. -/
theorem processIMUFrames_delivery (o : ByteOrder) (le : Bool) (s : List UInt8)
    (reads reads' : List ReadResult) (hlen : s.length < 2 ^ 31) (h : delivered reads = s)
    (h' : delivered reads' = s) :
    ∃ out out', processIMUFrames o le [] reads = .ok out ∧
      processIMUFrames o le [] reads' = .ok out' ∧ out.packet? = out'.packet? := by
  obtain ⟨out, hout, hpacket⟩ := processIMUFrames_packet? o le reads (h ▸ hlen)
  obtain ⟨out', hout', hpacket'⟩ := processIMUFrames_packet? o le reads' (h' ▸ hlen)
  exact ⟨out, out', hout, hout', by rw [hpacket, hpacket', h, h']⟩

/-- One frame in one read, and in two of 5 and 15 bytes with a failing read between them. -/
theorem processIMUFrames_delivery_frame :
    ∃ out out', processIMUFrames .little true []
        [.data (⟨1, 2, 3, 4⟩ : Packet).frame (by decide) (by decide)] = .ok out ∧
      processIMUFrames .little true []
        [.data ((⟨1, 2, 3, 4⟩ : Packet).frame.take 5) (by decide) (by decide), .fail true,
          .data ((⟨1, 2, 3, 4⟩ : Packet).frame.drop 5) (by decide) (by decide)] = .ok out' ∧
      out.packet? = out'.packet? :=
  processIMUFrames_delivery .little true (⟨1, 2, 3, 4⟩ : Packet).frame _ _ (by decide) (by decide)
    (by decide)

/-! ### The head of the loop -/

/-- **No complete frame waits in the buffer.** Wherever the reads made so far leave the process at
the head of the loop, in whatever call, the first header in the buffer has fewer than 20 bytes from
it on. -/
theorem mainLoop_no_complete_frame (o : ByteOrder) (n : ℕ) (reads : List ReadResult)
    (hlen : (delivered reads).length < 2 ^ 31) :
    ∃ s, mainLoop o n [] reads = .ok s ∧
      ∀ p, FirstAt header s.inputBuffer p → s.inputBuffer.length - p < 20 := by
  obtain ⟨s, hs, hdrain⟩ := mainLoop_refines (o := o) n reads (scansFit_of_length_lt hlen)
  have hbuffer : s.inputBuffer =
      ((frameRecogniser o (littleEndian o)).drain n (payloads reads)).buffer :=
    congrArg Recogniser.Drained.buffer hdrain
  have hnone := (Recogniser.drain_window (frameRecogniser o (littleEndian o)) n (payloads reads)).1
  rw [← hbuffer, frameRecogniser_accept_eq_none_iff, acceptedAt?_eq_none_iff] at hnone
  refine ⟨s, hs, fun p hp => ?_⟩
  have hlt := (hnone p hp).trans_le (neededLength_le p)
  omega

/-- Half a frame stays in the buffer. -/
theorem mainLoop_no_complete_frame_half :
    ∃ s, mainLoop .big 3 []
        [.data ((⟨1, 2, 3, 4⟩ : Packet).frame.take 10) (by decide) (by decide)] = .ok s ∧
      ∀ p, FirstAt header s.inputBuffer p → s.inputBuffer.length - p < 20 :=
  mainLoop_no_complete_frame .big 3 _ (by decide)

end IMUParser
