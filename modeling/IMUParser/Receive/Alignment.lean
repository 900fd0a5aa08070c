import IMUParser.Codec.Frames
import IMUParser.Receive.Restarts

/-!
# Frames in a row and payloads that contain the header

When the frames are delivered one behind the other, a call that starts on a frame boundary reads the
frame there, whatever its payload is. A call clears the buffer, though, and with it the start of a
frame that the last read has brought along: the next call starts inside that frame, and a header in
the rest of its payload is taken for the start of a frame. The packet broadcast then is made up of
the ends of two frames (`not_staysAligned`).

`staysAligned` shows that this is the only way to lose the alignment.

## Main definitions

* `StaysAligned`, `RestHeaderless`.

## Main results

* `staysAligned`, `not_staysAligned`.
-/

namespace IMUParser

open Words
open scoped List

variable {packets : List Packet} {s : List UInt8} {e k n q start : ℕ} {C : ℕ → ℕ → Prop}
  {qs : List ℕ}

/-! ### Parts of a stream of frames -/

/-- A frame boundary is never 20 bytes away. -/
theorem exists_dvd_add (start e : ℕ) : ∃ r, e ≤ r ∧ r < e + 20 ∧ 20 ∣ start + r :=
  ⟨e + (20 - (start + e) % 20) % 20, by omega, by omega, by omega⟩

/-- In a part of a stream of frames the next header is never 20 bytes away. -/
theorem lt_add_of_nextAt (hs : s <+: (frameBytes packets).drop start)
    (h : NextAt header s e q) : q < e + 20 := by
  by_contra hge
  have hfit := h.occursAt.add_length_le header_ne_nil
  rw [length_header] at hfit
  obtain ⟨r, hle, hlt, hdvd⟩ := exists_dvd_add start e
  exact h.not_occursAt r hle (by omega) (occursAt_of_prefix_drop hs hdvd (by omega))

theorem inReach_of_prefix_drop (hs : s <+: (frameBytes packets).drop start) : InReach s :=
  fun e q h => by
    have := lt_add_of_nextAt hs h
    omega

theorem dense_of_prefix_drop (hs : s <+: (frameBytes packets).drop start) : Dense s := by
  intro e he
  obtain ⟨r, hle, hlt, hdvd⟩ := exists_dvd_add start e
  exact ⟨r, occursAt_of_prefix_drop hs hdvd (by omega), hle, hlt⟩

/-! ### Alignment -/

/-- The broadcasts are a subsequence of the packets sent: each is one of them, and their indices
increase. -/
def StaysAligned (o : ByteOrder) (n : ℕ) (packets : List Packet) (reads : List ReadResult) : Prop :=
  ∃ m, mainLoop o n [] reads = .ok m ∧ m.broadcasts <+ packets.map Packet.toParsed

/-- The offset `e` is a frame boundary, or no header lies between it and the next one. -/
def RestHeaderless (s : List UInt8) (e : ℕ) : Prop :=
  20 ∣ e ∨ ∀ q, e ≤ q → q + headerSize ≤ 20 * (e / 20 + 1) → ¬ OccursAt header s q

/-- From such an offset the next header starts a frame. -/
theorem dvd_of_nextAt (hs : s <+: frameBytes packets) (h : NextAt header s e q)
    (hrest : RestHeaderless (frameBytes packets) e) : 20 ∣ q := by
  have hs0 : s <+: (frameBytes packets).drop 0 := hs
  have hfit := h.occursAt.add_length_le header_ne_nil
  have hocc := occursAt_frameBytes_of_prefix_drop hs0 h.occursAt
  rw [length_header] at hfit
  rw [Nat.zero_add] at hocc
  -- the next boundary is not passed over
  have hboundary (r : ℕ) (hr : 20 ∣ r) (hle : e ≤ r) : q ≤ r := by
    by_contra hlt
    exact h.not_occursAt r hle (by omega)
      (occursAt_of_prefix_drop hs0 ((Nat.zero_add r).symm ▸ hr) (by omega))
  have hle := h.le
  rcases hrest with he | hnone
  · rwa [le_antisymm (hboundary e he le_rfl) hle]
  · have hend := hboundary (20 * (e / 20 + 1)) ⟨_, rfl⟩ (by omega)
    rcases dvd_or_of_occursAt_frameBytes hocc with hdvd | ⟨j, hj, i, rfl, hpayload⟩
    · exact hdvd
    · have hin := hpayload.add_length_le header_ne_nil
      rw [length_header, Packet.length_payload] at hin
      exact absurd hocc (hnone _ hle (by simp only [headerSize]; omega))

/-- When all calls start at such offsets, only frames are read. -/
theorem PickedFrom.dvd (hs : s <+: frameBytes packets) (h : PickedFrom s C k e qs)
    (hlen : k + qs.length ≤ n)
    (hC : ∀ j < n, ∀ e, C j e → RestHeaderless (frameBytes packets) e) : ∀ q ∈ qs, 20 ∣ q := by
  induction h with
  | nil => simp
  | cons start next _ _ _ _ ih =>
    rw [List.length_cons] at hlen
    exact List.forall_mem_cons.mpr
      ⟨dvd_of_nextAt hs next (hC _ (by omega) _ start), ih (by omega)⟩

/-- The offsets of all frames. -/
theorem map_packetAt_range (packets : List Packet) :
    ((List.range packets.length).map (20 * ·)).map (packetAt (frameBytes packets)) = packets := by
  refine List.ext_getElem (by simp) fun j h _ => ?_
  have hj : j < packets.length := by simpa using h
  simpa using packetAt_frameBytes hj

/-- **The alignment is kept.** For packets with any payloads, any reads and any number `n` of calls:
if wherever one of these calls starts inside a frame no header lies in the rest of that frame, then
the broadcasts are a subsequence of the packets sent. -/
theorem staysAligned (o : ByteOrder) (n : ℕ) (packets : List Packet) (reads : List ReadResult)
    (hreads : delivered reads <+: frameBytes packets)
    (hrest : ∀ k < n, ∀ e, CallStartsAt o reads k e → RestHeaderless (frameBytes packets) e) :
    StaysAligned o n packets reads := by
  have hs0 : delivered reads <+: (frameBytes packets).drop 0 := hreads
  obtain ⟨m, qs, hm, hlen, hbroadcasts, hpicked⟩ := mainLoop_pickedFrom (o := o) n
    (scansFit_of_dense (dense_of_prefix_drop hs0)) (inReach_of_prefix_drop hs0)
  have hdvd := hpicked.dvd hreads ((Nat.zero_add _).trans_le hlen) hrest
  have hmem : ∀ q ∈ qs, q ∈ (List.range packets.length).map (20 * ·) := by
    intro q hq
    obtain ⟨j, rfl⟩ := hdvd q hq
    have hfit := (hpicked.occursAt _ hq).add_length_le header_ne_nil
    have hle := hreads.length_le
    rw [length_header] at hfit
    rw [length_frameBytes] at hle
    exact List.mem_map.mpr ⟨j, List.mem_range.mpr (by omega), rfl⟩
  have hstarts : ((List.range packets.length).map (20 * ·)).Pairwise (· < ·) := by
    rw [List.pairwise_map]
    exact List.pairwise_lt_range.imp fun h => by omega
  have hsublist := hpicked.map_packetAt_sublist hreads hmem hstarts
  rw [map_packetAt_range, ← hbroadcasts] at hsublist
  exact ⟨m, hm, hsublist⟩

/-- Where a call starts, a read has ended, or none has been made. -/
theorem CallStartsAt.exists_append {o : ByteOrder} {reads : List ReadResult}
    (h : CallStartsAt o reads k e) :
    ∃ before unread, reads = before ++ unread ∧ e = (delivered before).length := by
  obtain ⟨m, hm, -, he⟩ := h
  obtain ⟨before, rfl⟩ := mainLoop_suffix hm
  refine ⟨before, m.unread, rfl, ?_⟩
  rw [delivered_append, List.length_append] at he
  omega

/-- Payloads without a header do not harm the alignment. -/
theorem restHeaderless_of_payload (h : ∀ P ∈ packets, ∀ i, ¬ OccursAt header P.payload i) (e : ℕ) :
    RestHeaderless (frameBytes packets) e := by
  refine or_iff_not_imp_left.mpr fun he q hq hend hocc => ?_
  rcases dvd_or_of_occursAt_frameBytes hocc with hdvd | ⟨j, hj, i, -, hpayload⟩
  · simp only [headerSize] at hend
    omega
  · exact h _ (List.getElem_mem hj) i hpayload

/-! ### A header in a payload -/

/-- Three packets, the second one with the header as its count. -/
def headerAsCount : List Packet := [⟨1, 2, 3, 4⟩, ⟨0x7FF01CAF, 6, 7, 8⟩, ⟨3, 10, 11, 12⟩]

/-- The same packets, without the header. -/
def headerless : List Packet := [⟨1, 2, 3, 4⟩, ⟨2, 6, 7, 8⟩, ⟨3, 10, 11, 12⟩]

/-- The frames of three packets in two reads, the first one of `k` bytes. -/
def inTwoReads (packets : List Packet) (k : ℕ) (hlen : packets.length = 3) (pos : 0 < k)
    (lt : k < 60) : List ReadResult :=
  [.data ((frameBytes packets).take k) (by simp [hlen]; omega) (by simp [hlen]),
    .data ((frameBytes packets).drop k) (by simp [hlen]; omega) (by simp [hlen]; omega)]

/-- A header in a payload and a read that ends on a frame boundary; payloads without a header and a
read that ends behind the header of the second frame; and one call only, which starts at the first
frame. -/
theorem staysAligned_inTwoReads :
    StaysAligned .little 3 headerAsCount (inTwoReads headerAsCount 20 rfl (by decide) (by decide)) ∧
      StaysAligned .little 3 headerless (inTwoReads headerless 24 rfl (by decide) (by decide)) ∧
      StaysAligned .little 1 headerAsCount
        (inTwoReads headerAsCount 24 rfl (by decide) (by decide)) := by
  refine ⟨staysAligned .little 3 headerAsCount _ (by decide) fun _ _ e he => Or.inl ?_,
    staysAligned .little 3 headerless _ (by decide) fun _ _ e _ => restHeaderless_of_payload ?_ e,
    staysAligned .little 1 headerAsCount _ (by decide) fun k hk e he => Or.inl ?_⟩
  · obtain ⟨before, unread, hreads, rfl⟩ := he.exists_append
    match before, hreads with
    | [], _ => exact dvd_zero 20
    | [_], hreads =>
      obtain ⟨rfl, -⟩ := List.cons.inj hreads
      decide
    | [_, _], hreads =>
      obtain ⟨rfl, hrest⟩ := List.cons.inj hreads
      obtain ⟨rfl, -⟩ := List.cons.inj hrest
      decide
  · have hnone : ∀ P ∈ headerless, firstIndex? header P.payload = none := by decide
    exact fun P hP => (firstIndex?_eq_none_iff header_ne_nil).mp (hnone P hP)
  · obtain rfl : k = 0 := Nat.lt_one_iff.mp hk
    obtain rfl := he.eq_zero
    exact dvd_zero 20

/-- A header in a payload and a read that ends behind the header of its frame. The second packet
broadcast is made up of the gyro rates of the second packet sent and the header of the third
frame. -/
theorem not_staysAligned :
    delivered (inTwoReads headerAsCount 24 rfl (by decide) (by decide)) =
        frameBytes headerAsCount ∧
      ¬ StaysAligned .little 2 headerAsCount
        (inTwoReads headerAsCount 24 rfl (by decide) (by decide)) := by
  refine ⟨by decide, ?_⟩
  rintro ⟨m, hm, hsublist⟩
  have hbroadcasts : (mainLoop .little 2 []
      (inTwoReads headerAsCount 24 rfl (by decide) (by decide))).map MainState.broadcasts =
        .ok [⟨1, 2, 3, 4⟩, ⟨6, 7, 8, 0x7FF01CAF⟩] := by
    decide +kernel
  rw [hm] at hbroadcasts
  rw [Except.ok.inj hbroadcasts] at hsublist
  exact absurd hsublist (by decide)

end IMUParser
