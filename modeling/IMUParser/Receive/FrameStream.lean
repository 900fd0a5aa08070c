import IMUParser.Receive.Restarts

/-!
# Frames with gaps between them

A stream in which frames occur, with other bytes before, between and behind them, and the header
occurs where a frame starts and nowhere else. If at most 236 bytes precede each frame, the next
header is in reach from every offset: `19 + 236 = 255` bytes behind the second byte of a frame that
has been lost. Then the broadcasts are a subsequence of the packets of the frames.

## Main definitions

* `FramedStream`, `FramedStream.packets`, `FramedStream.GapsLe`.

## Main results

* `FramedStream.mainLoop_sublist`.
-/

namespace IMUParser

open Words
open scoped List

/-- A stream of bytes in which the header occurs where a frame starts and nowhere else. -/
structure FramedStream where
  bytes : List UInt8
  /-- The offsets of the frames. -/
  starts : List ℕ
  occursAt_iff : ∀ i, OccursAt header bytes i ↔ i ∈ starts
  /-- The frames are complete. -/
  fits : ∀ q ∈ starts, q + packetSize ≤ bytes.length
  /-- The frames are in order and do not overlap. -/
  spaced : starts.Pairwise fun q q' => q + packetSize ≤ q'

/-- At most `g` bytes precede the frame at the first offset, since the offset `e`, and each further
one since the end of the frame before it. -/
def GapsLeFrom (g : ℕ) : ℕ → List ℕ → Prop
  | _, [] => True
  | e, q :: qs => q ≤ e + g ∧ GapsLeFrom g (q + packetSize) qs

/-- A frame is at most `g` bytes behind the start or behind the end of an earlier frame. -/
theorem GapsLeFrom.exists_before {g : ℕ} {qs : List ℕ} :
    ∀ {e : ℕ}, GapsLeFrom g e qs → (qs.Pairwise fun q q' => q + packetSize ≤ q') →
      ∀ q ∈ qs, q ≤ e + g ∨ ∃ r ∈ qs, r + packetSize ≤ q ∧ q ≤ r + packetSize + g := by
  induction qs with
  | nil => simp
  | cons q qs ih =>
    rintro e ⟨hq, hgaps⟩ hspaced r hr
    obtain ⟨hhead, htail⟩ := List.pairwise_cons.mp hspaced
    rcases List.mem_cons.mp hr with rfl | hr
    · exact Or.inl hq
    · rcases ih hgaps htail r hr with hle | ⟨r', hr', hlow, hhigh⟩
      · exact Or.inr ⟨q, List.mem_cons_self, hhead r hr, hle⟩
      · exact Or.inr ⟨r', List.mem_cons_of_mem _ hr', hlow, hhigh⟩

namespace FramedStream

variable (S : FramedStream)

/-- The packets that the frames carry. -/
def packets : List Packet := S.starts.map (packetAt S.bytes)

/-- At most `g` bytes precede each frame, since the end of the frame before it or the start of the
stream. -/
def GapsLe (g : ℕ) : Prop := GapsLeFrom g 0 S.starts

variable {S}

/-- In what has been delivered, headers occur where frames start. -/
theorem mem_starts {s : List UInt8} {q : ℕ} (hs : s <+: S.bytes) (hq : OccursAt header s q) :
    q ∈ S.starts := by
  obtain ⟨m, hm⟩ := hs
  exact (S.occursAt_iff q).mp (hm ▸ hq.append m)

/-- With gaps of at most 236 bytes, every header is in reach. -/
theorem GapsLe.inReach {s : List UInt8} (hgaps : S.GapsLe 236) (hs : s <+: S.bytes) :
    InReach s := by
  intro e q hnext
  have hq := mem_starts hs hnext.occursAt
  rcases hgaps.exists_before S.spaced q hq with hle | ⟨r, hr, hlow, hhigh⟩
  · omega
  · -- the frame before this one starts before the offset, or it would be the next one
    have hlt : r < e := by
      by_contra hge
      obtain ⟨m, hm⟩ := hs
      have hocc : OccursAt header (s ++ m) r := hm ▸ (S.occursAt_iff r).mpr hr
      have hfit := hnext.occursAt.add_length_le header_ne_nil
      simp only [packetSize, length_header] at hlow hfit
      exact hnext.not_occursAt r (not_lt.mp hge) (by omega)
        (hocc.of_append (by simp only [length_header]; omega))
    simp only [packetSize] at hhigh
    omega

/-- **Soundness of the broadcasts.** On a stream of frames with at most 236 bytes before each, the
broadcasts are a subsequence of the packets of the frames, whatever the reads and however many calls
are made: nothing is invented, duplicated or reordered. -/
theorem mainLoop_sublist (o : ByteOrder) (n : ℕ) (S : FramedStream) (reads : List ReadResult)
    (hgaps : S.GapsLe 236) (hlen : S.bytes.length < 2 ^ 31)
    (hreads : delivered reads <+: S.bytes) :
    ∃ m, mainLoop o n [] reads = .ok m ∧ m.broadcasts <+ S.packets.map Packet.toParsed := by
  have hfit := scansFit_of_length_lt (hreads.length_le.trans_lt hlen)
  obtain ⟨m, qs, hm, -, hbroadcasts, hpicked⟩ :=
    mainLoop_pickedFrom (o := o) n hfit (hgaps.inReach hreads)
  refine ⟨m, hm, hbroadcasts ▸ hpicked.map_packetAt_sublist hreads
    (fun q hq => mem_starts hreads (hpicked.occursAt q hq)) ?_⟩
  exact S.spaced.imp fun h => by simp only [packetSize] at h; omega

/-- It is enough to look for headers inside the stream. -/
theorem occursAt_iff_of_forall_lt {bytes : List UInt8} {starts : List ℕ}
    (h : ∀ i < bytes.length, OccursAt header bytes i ↔ i ∈ starts)
    (fits : ∀ q ∈ starts, q + packetSize ≤ bytes.length) (i : ℕ) :
    OccursAt header bytes i ↔ i ∈ starts := by
  rcases lt_or_ge i bytes.length with hlt | hge
  · exact h i hlt
  · refine iff_of_false (fun hocc => ?_) (fun hi => ?_)
    · have hfit := hocc.add_length_le header_ne_nil
      simp only [length_header] at hfit
      omega
    · have hfit := fits i hi
      simp only [packetSize] at hfit
      omega

end FramedStream

/-- Two frames, with half a header in front of the first one and a byte between them. -/
def twoFrames : FramedStream where
  bytes := [0x7F, 0xF0] ++ (⟨1, 2, 3, 4⟩ : Packet).frame ++ [0x7F] ++ (⟨2, 6, 7, 8⟩ : Packet).frame
  starts := [2, 23]
  occursAt_iff := FramedStream.occursAt_iff_of_forall_lt (by decide) (by decide)
  fits := by decide
  spaced := by decide

/-- The first read completes the first frame and brings 5 bytes of the second one, which is lost. -/
theorem mainLoop_sublist_twoFrames :
    ∃ m, mainLoop .little 2 [] [.data (twoFrames.bytes.take 28) (by decide) (by decide), .empty,
        .data (twoFrames.bytes.drop 28) (by decide) (by decide)] = .ok m ∧
      m.broadcasts <+ twoFrames.packets.map Packet.toParsed :=
  FramedStream.mainLoop_sublist .little 2 twoFrames _ ⟨by decide, by decide, trivial⟩ (by decide)
    (by decide)

end IMUParser
