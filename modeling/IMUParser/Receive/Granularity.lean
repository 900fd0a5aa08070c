import IMUParser.Library.Draining
import IMUParser.Receive.Alignment
import IMUParser.Receive.FrameStream

/-!
# The size of the reads

A read that completes a packet may bring more bytes, and `parsePacket` drops them. So what is lost
depends on how the port cuts up the stream. Smaller reads can lose other packets, but never reduce
the number of broadcasts: bytes in front of a buffer that is accepted do not keep it from being
accepted, because a header among them is the first one and its frame, or the byte behind the header
that a wrapped index asks for, ends earlier (`frameRecogniser_leftClosed`). So a call on smaller
reads returns no later and the next one starts no later, and there are at least as many broadcasts
(`mainLoop_finer`), on every stream.

For frames in a row, with any payloads, no frame is lost when no read brings bytes of two frames
(`mainLoop_wholeFrames`).

## Main results

* `mainLoop_finer`, `mainLoop_wholeFrames`.
-/

namespace IMUParser

open Words Recogniser

variable {o : ByteOrder} {le : Bool}

/-! ### Smaller reads -/

/-- What stands in front of an accepted buffer does not keep it from being accepted. -/
theorem frameRecogniser_leftClosed (o : ByteOrder) (le : Bool) :
    (frameRecogniser o le).LeftClosed := by
  intro d l h
  obtain ⟨packet, haccept⟩ := Option.isSome_iff_exists.mp h
  obtain ⟨p, hp, -⟩ := frameRecogniser_accept_eq_some_iff.mp haccept
  obtain ⟨hfirst, hlen⟩ := acceptedAt?_eq_some_iff.mp hp
  obtain ⟨q, hqp, hq⟩ := (occursAt_append_length_add.mpr hfirst.occursAt :
    OccursAt header (d ++ l) (d.length + p)).exists_firstAt
  have hneeded : neededLength q ≤ (d ++ l).length := by
    rw [List.length_append]
    rcases hqp.eq_or_lt with rfl | hlt
    · -- the same header, further from the start of the buffer
      simp only [neededLength, packetSize, headerSize] at hlen ⊢
      split_ifs at hlen ⊢ <;> omega
    · -- a header that starts in front of the buffer
      have hfront : q < d.length := by
        by_contra hge
        obtain ⟨i, rfl⟩ := Nat.exists_eq_add_of_le (not_lt.mp hge)
        exact hfirst.not_occursAt i (by omega) (occursAt_append_length_add.mp hq.occursAt)
      have hread := (mod_add_le_neededLength p).trans hlen
      have hneeded := neededLength_le q
      omega
  have haccepted : acceptedAt? (d ++ l) = some q := acceptedAt?_eq_some_iff.mpr ⟨hq, hneeded⟩
  exact Option.isSome_iff_exists.mpr ⟨_, frameRecogniser_accept_eq_some_iff.mpr ⟨q, haccepted, rfl⟩⟩

/-- **Smaller reads never reduce the number of broadcasts.** When the bytes of each read of one
delivery, of less than `2 ^ 31` bytes in all, are cut up into several reads of another one, with any
empty and failing reads in between, as many calls make at least as many broadcasts, whatever the
stream. -/
theorem mainLoop_finer (o : ByteOrder) (n : ℕ) (reads reads' : List ReadResult)
    (hlen : (delivered reads).length < 2 ^ 31)
    (hfiner : Finer (payloads reads') (payloads reads)) :
    ∃ m m', mainLoop o n [] reads = .ok m ∧ mainLoop o n [] reads' = .ok m' ∧
      m.broadcasts.length ≤ m'.broadcasts.length := by
  have hdelivered : delivered reads' = delivered reads := hfiner.flatten_eq
  obtain ⟨m, hm, hdrain⟩ := mainLoop_refines (o := o) n reads (scansFit_of_length_lt hlen)
  obtain ⟨m', hm', hdrain'⟩ :=
    mainLoop_refines (o := o) n reads' (scansFit_of_length_lt (hdelivered ▸ hlen))
  have hcount := length_emitted_le_of_finer (frameRecogniser_leftClosed o (littleEndian o)) [] n
    hfiner
  rw [List.nil_append, ← hdrain, ← hdrain'] at hcount
  exact ⟨m, m', hm, hm', hcount⟩

/-- Two frames in one read, and in two reads with a failing one in between. -/
theorem mainLoop_finer_twoFrames :
    ∃ m m', mainLoop .little 2 []
        [.data (twoFrames.bytes.take 22 ++ twoFrames.bytes.drop 22) (by decide) (by decide)] =
          .ok m ∧
      mainLoop .little 2 [] [.data (twoFrames.bytes.take 22) (by decide) (by decide), .fail true,
        .data (twoFrames.bytes.drop 22) (by decide) (by decide)] = .ok m' ∧
      m.broadcasts.length ≤ m'.broadcasts.length :=
  mainLoop_finer .little 2 _ _ (by decide) (.cons [_, _] .nil)

/-! ### Reads inside frames -/

/-- A frame is accepted as a whole and not before. -/
theorem frame_exact (o : ByteOrder) (P : Packet) :
    (frameRecogniser o (littleEndian o)).Exact P.frame P.toParsed where
  accept := accept_frame o P
  accept_eq_none := by
    rintro p ⟨m, hm⟩ hne
    have hlen := congrArg List.length hm
    have hpos : 0 < m.length := by
      refine List.length_pos_iff.mpr fun hnil => hne ?_
      rwa [hnil, List.append_nil] at hm
    rw [List.length_append, P.length_frame] at hlen
    exact accept_of_length_lt (by omega)

/-- Frames in a row and less than a frame behind them are dense. -/
theorem dense_frameBytes_append (packets : List Packet) {m : List UInt8} (hm : m.length < 20) :
    Dense (frameBytes packets ++ m) := by
  intro e he
  rw [List.length_append, length_frameBytes] at he
  obtain ⟨r, hle, hlt, j, hj⟩ := exists_dvd_add 0 e
  rw [Nat.zero_add] at hj
  exact ⟨r, hj ▸ (occursAt_frameBytes (by omega)).append m, hle, hlt⟩

/-- **No frame is lost** when each read brings bytes of one frame only. For packets with any
payloads, whose frames arrive each in one or several reads, and further reads of less than a frame:
the broadcasts are the packets, as many as calls are made, and the bytes of the further reads are
kept. -/
theorem mainLoop_wholeFrames (o : ByteOrder) (n : ℕ) (packets : List Packet)
    (reads tail : List ReadResult)
    (hreads : Finer (payloads reads) (packets.map Packet.frame))
    (htail : (delivered tail).length < 20) :
    ∃ m, mainLoop o n [] (reads ++ tail) = .ok m ∧
      m.broadcasts = (packets.take n).map Packet.toParsed ∧
      (packets.length < n → m.inputBuffer = delivered tail) := by
  have hdelivered : delivered (reads ++ tail) = frameBytes packets ++ delivered tail := by
    rw [delivered_append, frameBytes, List.flatMap]
    exact congrArg (· ++ delivered tail) hreads.flatten_eq
  have hfit : ScansFit (delivered (reads ++ tail)) :=
    hdelivered ▸ scansFit_of_dense (dense_frameBytes_append packets htail)
  obtain ⟨m, hm, hdrain⟩ := mainLoop_refines (o := o) n (reads ++ tail) hfit
  have hvalue (P : Packet) : packetAt P.frame 0 = P := by
    simpa using packetAt_frame (m := []) P
  obtain ⟨hemitted, hbuffer⟩ := drain_of_finer (R := frameRecogniser o (littleEndian o))
    (f := fun w => (packetAt w 0).toParsed)
    (List.forall_mem_map.mpr fun P _ => by simpa only [hvalue] using frame_exact o P) hreads
    (fun c hc => List.length_pos_iff.mp (length_le_of_mem_payloads hc).1) (payloads tail)
    (accept_of_length_lt htail) n
  rw [← payloads_append, ← hdrain] at hemitted hbuffer
  refine ⟨m, hm, ?_, fun hlt => hbuffer (by rwa [List.length_map])⟩
  rw [List.map_map, ← List.map_take] at hemitted
  exact hemitted.trans (List.map_congr_left fun P _ => congrArg Packet.toParsed (hvalue P))

/-- The first frame in two reads, the second one, with the header as its count, in one, and the
start of a third one. -/
theorem mainLoop_wholeFrames_threeReads :
    ∃ m, mainLoop .big 3 []
        ([.data ((⟨1, 2, 3, 4⟩ : Packet).frame.take 9) (by decide) (by decide), .empty,
          .data ((⟨1, 2, 3, 4⟩ : Packet).frame.drop 9) (by decide) (by decide),
          .data (⟨0x7FF01CAF, 6, 7, 8⟩ : Packet).frame (by decide) (by decide)] ++
        [.data [0x7F, 0xF0] (by decide) (by decide)]) = .ok m ∧
      m.broadcasts = ([⟨1, 2, 3, 4⟩, ⟨0x7FF01CAF, 6, 7, 8⟩] : List Packet).map Packet.toParsed ∧
      (2 < 3 → m.inputBuffer = [0x7F, 0xF0]) :=
  mainLoop_wholeFrames .big 3 [⟨1, 2, 3, 4⟩, ⟨0x7FF01CAF, 6, 7, 8⟩] _ _
    (.cons [_, _] (.cons [_] .nil)) (by decide)

end IMUParser
