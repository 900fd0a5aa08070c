import IMUParser.Receive.Alignment

/-!
# An unbounded stream of frames

Frames in a row, without an end, whose payloads do not contain the header; the process may start to
read anywhere in the stream. A read brings at most 127 bytes behind the frame that it completes, the
next header is at most 19 bytes further on, and `20 + 127 + 19 = 166` bytes are less than nine
frames. So at most seven frames are lost between two broadcasts. The buffer stays below 39 bytes,
whatever has been delivered.

## Main definitions

* `frameStream`.

## Main results

* `mainLoop_boundedLoss`.
-/

namespace IMUParser

open Words

/-- The first `count` frames of an unbounded stream. -/
def frameStream (frames : ℕ → Packet) (count : ℕ) : List UInt8 :=
  frameBytes ((List.range count).map frames)

variable {frames : ℕ → Packet} {s : List UInt8} {start count : ℕ}

/-- Without headers in the payloads, the header occurs where frames start only. -/
theorem dvd_of_occursAt_frameStream {q : ℕ}
    (hpayload : ∀ j i, ¬ OccursAt header (frames j).payload i)
    (hs : s <+: (frameStream frames count).drop start) (hq : OccursAt header s q) :
    20 ∣ start + q := by
  rcases dvd_or_of_occursAt_frameBytes (occursAt_frameBytes_of_prefix_drop hs hq) with
    hdvd | ⟨j, hj, i, -, hocc⟩
  · exact hdvd
  · rw [List.getElem_map] at hocc
    exact absurd hocc (hpayload _ i)

/-- A complete frame in what has been delivered carries the packet with its index. -/
theorem packetAt_frameStream {q j : ℕ} (hs : s <+: (frameStream frames count).drop start)
    (hj : start + q = 20 * j) (hq : q + 20 ≤ s.length) : packetAt s q = frames j := by
  obtain ⟨hlt, hframe⟩ := List.getElem?_eq_some_iff.mp (packetAt_of_prefix_drop hs hj hq)
  rw [← hframe, List.getElem_map, List.getElem_range]

/-- From one frame that is read to the next one it is less than nine frames. -/
theorem PickedFrom.isChain {packets : List Packet} {C : ℕ → ℕ → Prop} {k e : ℕ} {qs : List ℕ}
    (hs : s <+: (frameBytes packets).drop start) (h : PickedFrom s C k e qs) :
    qs.IsChain fun q q' => OccursAt header s q ∧ OccursAt header s q' ∧
      q + 20 ≤ q' ∧ q' < q + 167 := by
  induction h with
  | nil => exact .nil
  | cons _ next le lt _ rest ih =>
    cases rest with
    | nil => exact .singleton _
    | cons _ next' _ _ _ _ =>
      have hlow := next'.le
      have hhigh := lt_add_of_nextAt hs next'
      exact List.isChain_cons_cons.mpr
        ⟨⟨next.occursAt, next'.occursAt, by omega, by omega⟩, ih⟩

/-- **Bounded loss and a bounded buffer.** For every unbounded stream of frames without headers in
their payloads, every offset at which the process starts to read, all reads made so far and every
number of calls: the buffer holds at most 38 bytes, and at most 166 when the next read has been
appended; each call reads the frame at the next header behind the offset where it starts; and of two
successive broadcasts the second one carries one of the eight frames behind that of the first. -/
theorem mainLoop_boundedLoss (o : ByteOrder) (n : ℕ) (frames : ℕ → Packet) (start count : ℕ)
    (reads : List ReadResult) (hpayload : ∀ j i, ¬ OccursAt header (frames j).payload i)
    (hreads : delivered reads <+: (frameStream frames count).drop start) :
    ∃ m, mainLoop o n [] reads = .ok m ∧
      m.inputBuffer.length ≤ 38 ∧
      (∀ bytes : List UInt8, bytes.length ≤ 128 → (m.inputBuffer ++ bytes).length ≤ 166) ∧
      ∃ js : List ℕ, m.broadcasts = js.map (fun j => (frames j).toParsed) ∧
        PickedFrom (delivered reads) (CallStartsAt o reads) 0 0 (js.map fun j => 20 * j - start) ∧
        (∀ j ∈ js, start ≤ 20 * j ∧ 20 * (j + 1) ≤ start + (delivered reads).length) ∧
        js.IsChain fun j k => j < k ∧ k ≤ j + 8 := by
  have hdense := dense_of_prefix_drop hreads
  obtain ⟨m, qs, hm, -, hbroadcasts, hpicked⟩ := mainLoop_pickedFrom (o := o) n
    (scansFit_of_dense hdense) (inReach_of_prefix_drop hreads)
  have hbuffer := length_inputBuffer_lt hdense hm
  have hdvd {q : ℕ} (hq : OccursAt header (delivered reads) q) :
      start + q = 20 * ((start + q) / 20) :=
    (Nat.mul_div_cancel' (dvd_of_occursAt_frameStream hpayload hreads hq)).symm
  have hfit := hpicked.add_le_length
  have hoffsets : (qs.map fun q => (start + q) / 20).map (fun j => 20 * j - start) = qs := by
    rw [List.map_map]
    refine (List.map_congr_left fun q hq => ?_).trans (List.map_id qs)
    have hq20 := hdvd (hpicked.occursAt q hq)
    simp only [Function.comp_apply, id_eq]
    omega
  refine ⟨m, hm, by omega, fun bytes h => by rw [List.length_append]; omega,
    qs.map fun q => (start + q) / 20, ?_, hoffsets.symm ▸ hpicked, ?_, ?_⟩
  · rw [hbroadcasts, List.map_map]
    refine List.map_congr_left fun q hq => ?_
    exact congrArg Packet.toParsed
      (packetAt_frameStream hreads (hdvd (hpicked.occursAt q hq)) (hfit q hq))
  · refine List.forall_mem_map.mpr fun q hq => ?_
    have hq20 := hdvd (hpicked.occursAt q hq)
    have hend := hfit q hq
    omega
  · rw [List.isChain_map]
    refine (hpicked.isChain hreads).imp fun q q' ⟨hq, hq', hlow, hhigh⟩ => ?_
    have hq20 := hdvd hq
    have hq'20 := hdvd hq'
    omega

/-- Packets that alternate. -/
def alternating (j : ℕ) : Packet := if j % 2 = 0 then ⟨1, 2, 3, 4⟩ else ⟨2, 6, 7, 8⟩

/-- What is read of their stream from the eighth byte on. -/
def alternatingPart : List UInt8 := (frameStream alternating 9).drop 7

/-- Reads of 94 and of 70 bytes; the first one ends inside a header. -/
def alternatingReads : List ReadResult :=
  [.data (alternatingPart.take 94) (by simp [alternatingPart, frameStream])
      (by simp [alternatingPart, frameStream]), .fail true,
    .data ((alternatingPart.drop 94).take 70) (by simp [alternatingPart, frameStream])
      (by simp [alternatingPart, frameStream])]

theorem mainLoop_boundedLoss_alternating :
    ∃ m, mainLoop .little 3 [] alternatingReads = .ok m ∧
      m.inputBuffer.length ≤ 38 ∧
      (∀ bytes : List UInt8, bytes.length ≤ 128 → (m.inputBuffer ++ bytes).length ≤ 166) ∧
      ∃ js : List ℕ, m.broadcasts = js.map (fun j => (alternating j).toParsed) ∧
        PickedFrom (delivered alternatingReads) (CallStartsAt .little alternatingReads) 0 0
          (js.map fun j => 20 * j - 7) ∧
        (∀ j ∈ js, 7 ≤ 20 * j ∧ 20 * (j + 1) ≤ 7 + (delivered alternatingReads).length) ∧
        js.IsChain fun j k => j < k ∧ k ≤ j + 8 := by
  have hdelivered : delivered alternatingReads = alternatingPart.take (94 + 70) := by
    rw [List.take_add]
    exact congrArg (alternatingPart.take 94 ++ ·) (List.append_nil _)
  refine mainLoop_boundedLoss .little 3 alternating 7 9 alternatingReads (fun j i => ?_)
    (hdelivered ▸ List.take_prefix _ _)
  refine (firstIndex?_eq_none_iff header_ne_nil).mp ?_ i
  rw [alternating]
  split_ifs <;> decide

end IMUParser
