import IMUParser.Codec.Packet

/-!
# Frames in a row

A stream that consists of frames alone. The header occurs where a frame starts and, when a payload
contains it, inside that payload; it cannot lie across the start of a payload or of a frame, because
it does not overlap with itself.

## Main definitions

* `frameBytes`: the bytes of frames in a row.

## Main results

* `occursAt_frameBytes`, `dvd_or_of_occursAt_frameBytes`: where the header occurs.
* `packetAt_frameBytes`.
* `occursAt_of_prefix_drop`, `packetAt_of_prefix_drop`: the same for a part of the stream.
-/

namespace IMUParser

open Words

/-- The frames of the packets, one behind the other. -/
def frameBytes (packets : List Packet) : List UInt8 := packets.flatMap Packet.frame

variable {packets : List Packet} {s : List UInt8} {j q start : ℕ}

@[simp] theorem length_frameBytes (packets : List Packet) :
    (frameBytes packets).length = 20 * packets.length := by
  induction packets with
  | nil => rfl
  | cons P packets ih =>
    rw [frameBytes] at ih ⊢
    rw [List.flatMap_cons, List.length_append, P.length_frame, ih, List.length_cons]
    omega

/-- The stream, split at the frame with the index `j`. -/
theorem frameBytes_split (hj : j < packets.length) :
    ∃ l m, frameBytes packets = l ++ (packets[j].frame ++ m) ∧ l.length = 20 * j := by
  refine ⟨frameBytes (packets.take j), frameBytes (packets.drop (j + 1)), ?_, ?_⟩
  · conv_lhs => rw [← List.take_append_drop j packets, List.drop_eq_getElem_cons hj]
    simp only [frameBytes, List.flatMap_append, List.flatMap_cons]
  · rw [length_frameBytes, List.length_take_of_le hj.le]

/-- The header occurs where a frame starts. -/
theorem occursAt_frameBytes (hj : j < packets.length) :
    OccursAt header (frameBytes packets) (20 * j) := by
  obtain ⟨l, m, hsplit, hlen⟩ := frameBytes_split hj
  rw [hsplit, ← hlen, occursAt_append_length]
  exact header_prefix_frame _ _

/-- The frame with the index `j` carries the packet with that index. -/
theorem packetAt_frameBytes (hj : j < packets.length) :
    packetAt (frameBytes packets) (20 * j) = packets[j] := by
  obtain ⟨l, m, hsplit, hlen⟩ := frameBytes_split hj
  rw [hsplit, ← hlen, packetAt_append_frame]

/-- A header in a frame that does not start it lies in the payload. -/
theorem exists_occursAt_payload {P : Packet} {r : ℕ} (h : OccursAt header P.frame r) (hr : 0 < r) :
    ∃ i, r = 4 + i ∧ OccursAt header P.payload i := by
  have hstart : OccursAt header P.frame 0 := List.prefix_append header P.payload
  have hle := header_unbordered.add_length_le hstart h hr
  rw [length_header, Nat.zero_add] at hle
  obtain ⟨i, rfl⟩ := Nat.exists_eq_add_of_le hle
  exact ⟨i, rfl, occursAt_append_length_add.mp h⟩

/-- **Where the header occurs.** It starts a frame or lies in a payload. -/
theorem dvd_or_of_occursAt_frameBytes (h : OccursAt header (frameBytes packets) q) :
    20 ∣ q ∨ ∃ (j : ℕ) (_ : j < packets.length) (i : ℕ), q = 20 * j + 4 + i ∧
      OccursAt header packets[j].payload i := by
  have hfit := h.add_length_le header_ne_nil
  rw [length_header, length_frameBytes] at hfit
  have hdiv := Nat.div_add_mod q 20
  rcases Nat.eq_zero_or_pos (q % 20) with hzero | hpos
  · exact Or.inl (Nat.dvd_of_mod_eq_zero hzero)
  · right
    have hj : q / 20 < packets.length := by omega
    -- the header ends before the next frame starts
    have hend : q % 20 + 4 ≤ 20 := by
      by_contra hlt
      have hle := header_unbordered.add_length_le h
        (occursAt_frameBytes (show q / 20 + 1 < packets.length by omega)) (by omega)
      rw [length_header] at hle
      omega
    obtain ⟨l, m, hsplit, hlen⟩ := frameBytes_split hj
    have hframe : OccursAt header (packets[q / 20].frame ++ m) (q % 20) := by
      rw [← occursAt_append_length_add (l := l), hlen, hdiv, ← hsplit]
      exact h
    obtain ⟨i, hi, hpayload⟩ :=
      exists_occursAt_payload (hframe.of_append (by simpa using hend)) hpos
    exact ⟨q / 20, hj, i, by omega, hpayload⟩

/-! ### A part of the stream -/

/-- In a part of the stream, the header occurs where a frame starts. -/
theorem occursAt_of_prefix_drop (hs : s <+: (frameBytes packets).drop start)
    (hdvd : 20 ∣ start + q) (hq : q + 4 ≤ s.length) : OccursAt header s q := by
  obtain ⟨m, hm⟩ := hs
  obtain ⟨j, hj⟩ := hdvd
  have hlen := congrArg List.length hm
  rw [List.length_append, List.length_drop, length_frameBytes] at hlen
  have hocc : OccursAt header ((frameBytes packets).drop start) q := by
    rw [occursAt_drop_iff, hj]
    exact occursAt_frameBytes (by omega)
  rw [← hm] at hocc
  exact hocc.of_append hq

/-- A header in a part of the stream is one of the stream. -/
theorem occursAt_frameBytes_of_prefix_drop (hs : s <+: (frameBytes packets).drop start)
    (hq : OccursAt header s q) : OccursAt header (frameBytes packets) (start + q) := by
  obtain ⟨m, hm⟩ := hs
  rw [← occursAt_drop_iff, ← hm]
  exact hq.append m

/-- In a part of the stream, a complete frame carries its packet. -/
theorem packetAt_of_prefix_drop (hs : s <+: (frameBytes packets).drop start)
    (hj : start + q = 20 * j) (hq : q + 20 ≤ s.length) : packets[j]? = some (packetAt s q) := by
  obtain ⟨m, hm⟩ := hs
  have hlen := congrArg List.length hm
  rw [List.length_append, List.length_drop, length_frameBytes] at hlen
  have hlt : j < packets.length := by omega
  rw [List.getElem?_eq_getElem hlt, ← packetAt_frameBytes hlt, ← hj, ← packetAt_drop, ← hm,
    packetAt_append hq]

end IMUParser
