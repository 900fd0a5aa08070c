import IMUParser.Receive.Recognition

/-!
# Resynchronisation after noise

Bytes without a header precede a frame. The first header of the stream is then that of the frame, at
the length of the noise, so for fewer than 256 bytes of noise one call of `processIMU_Frames`
broadcasts the packet, on the read that delivers the last byte of the frame.

From 256 bytes on the stored index wraps around: the call returns on the read that delivers the
fifth byte of the frame, with a packet read from the noise. `resynchronises_iff` says when this
still is the packet of the frame, on the read that delivers its last byte.

## Main definitions

* `Resynchronises`, `NoiseInReach`.

## Main results

* `processIMUFrames_of_firstAt`: the call on a stream whose first header is known.
* `resynchronises_iff`, `not_resynchronises`.
-/

namespace IMUParser

open Words

variable {reads : List ReadResult} {noise trailing : List UInt8} {P : Packet} {p : ℕ}

/-- A call on a stream with its first header at `p` broadcasts the frame at `p % 256`, on the read
with which the bytes reach the length that `p` needs. -/
theorem processIMUFrames_of_firstAt (o : ByteOrder) (le : Bool)
    (hlen : (delivered reads).length < 2 ^ 31)
    (hp : FirstAt header (delivered reads) p)
    (hneeded : neededLength p ≤ (delivered reads).length) :
    ∃ before bytes pos h128 unread, reads = before ++ .data bytes pos h128 :: unread ∧
      (delivered before).length < neededLength p ∧
      neededLength p ≤ (delivered before).length + bytes.length ∧
      processIMUFrames o le [] reads =
        .ok (.broadcast (readPacket o le (delivered reads) (p % 256)) [] unread) := by
  have haccepted : acceptedAt? (delivered reads) = some p :=
    acceptedAt?_eq_some_iff.mpr ⟨hp, hneeded⟩
  have hcall := processIMUFrames_refines o le (scansFit_of_length_lt hlen)
  cases hawait : (frameRecogniser o le).await [] (payloads reads) with
  | none =>
    rw [Recogniser.await_eq_none_iff _ (Recogniser.accept_nil _),
      frameRecogniser_accept_eq_none_iff] at hawait
    exact absurd (haccepted.symm.trans hawait) (by simp)
  | some r =>
    obtain ⟨packet, cs⟩ := r
    rw [hawait] at hcall
    obtain ⟨before, bytes, pos, h128, unread, hreads, rfl, hloop⟩ := hcall
    obtain ⟨pre, c, hchunks, hnone, hsome⟩ := Recogniser.exists_of_await_nil _ hawait
    -- the chunks before the accepting one are those of the reads before it
    obtain ⟨rfl, rfl⟩ : pre = payloads before ∧ c = bytes := by
      rw [hreads, payloads_append, payloads] at hchunks
      obtain ⟨hpre, hc⟩ := List.append_inj' hchunks.symm rfl
      exact ⟨hpre, (List.cons.inj hc).1⟩
    have hwindow : delivered reads = (delivered before ++ c) ++ delivered unread := by
      simp [hreads]
    change (frameRecogniser o le).accept (delivered before) = none at hnone
    change (frameRecogniser o le).accept (delivered before ++ c) = some packet at hsome
    rw [frameRecogniser_accept_eq_none_iff] at hnone
    obtain ⟨q, hq, hpacket⟩ := frameRecogniser_accept_eq_some_iff.mp hsome
    obtain rfl : q = p :=
      Option.some.inj ((hwindow ▸ acceptedAt?_append _ hq).symm.trans haccepted)
    obtain ⟨hfirst, hle⟩ := acceptedAt?_eq_some_iff.mp hq
    refine ⟨before, c, pos, h128, unread, hreads, ?_, List.length_append ▸ hle, ?_⟩
    · by_contra hge
      have hfit := (not_lt.mp hge)
      have hheader : q + header.length ≤ (delivered before).length := by
        have h4 : q + 4 ≤ neededLength q := by
          simp only [neededLength, packetSize, headerSize]; split_ifs <;> omega
        simp only [length_header]
        omega
      rw [acceptedAt?_eq_some_iff.mpr ⟨hfirst.of_append hheader, hfit⟩] at hnone
      exact absurd hnone (by simp)
    · rw [hloop, hwindow, readPacket_append ((mod_add_le_neededLength q).trans hle), hpacket]

/-! ### Noise and a frame -/

/-- One call on an empty buffer broadcasts the packet `P`, on the read that delivers the 20th byte
of the frame behind the noise. -/
def Resynchronises (o : ByteOrder) (noise : List UInt8) (P : Packet) (reads : List ReadResult) :
    Prop :=
  ∃ before bytes pos h128 inputBuffer unread, reads = before ++ .data bytes pos h128 :: unread ∧
    (delivered before).length < noise.length + 20 ∧
    noise.length + 20 ≤ (delivered before).length + bytes.length ∧
    processIMUFrames o (littleEndian o) [] reads = .ok (.broadcast P.toParsed inputBuffer unread)

/-- There are fewer than 256 bytes of noise; or the payload of the frame stands in the noise where
the wrapped index looks for it, and no read ends behind the fifth byte of the frame but before its
last one. -/
def NoiseInReach (noise : List UInt8) (P : Packet) (reads : List ReadResult) : Prop :=
  noise.length < 256 ∨
    (noise.drop (noise.length % 256 + 4)).take 16 = P.payload ∧
      ∀ before after, reads = before ++ after →
        ¬ (noise.length + 5 ≤ (delivered before).length ∧
          (delivered before).length < noise.length + 20)

/-- The packet at the wrapped index is that of the frame when the payloads agree. -/
theorem packetAt_mod_eq_iff (h : 256 ≤ noise.length) :
    packetAt (noise ++ (P.frame ++ trailing)) (noise.length % 256) = P ↔
      (noise.drop (noise.length % 256 + 4)).take 16 = P.payload := by
  have hin : noise.length % 256 + 20 ≤ noise.length := by omega
  rw [packetAt_append hin, ← payload_packetAt hin, Packet.payload_injective.eq_iff]

/-- When a call is known to return at a read, with a packet of which something is known, the
condition is about this packet and this read. -/
theorem resynchronises_iff_of_call {o : ByteOrder} {Q : Packet} {before unread : List ReadResult}
    {bytes l : List UInt8} {pos : 0 < bytes.length} {h128 : bytes.length ≤ 128}
    (hsplit : reads = before ++ .data bytes pos h128 :: unread)
    (hcall : processIMUFrames o (littleEndian o) [] reads =
      .ok (.broadcast Q.toParsed l unread)) :
    Resynchronises o noise P reads ↔ Q = P ∧ (delivered before).length < noise.length + 20 ∧
      noise.length + 20 ≤ (delivered before).length + bytes.length := by
  constructor
  · rintro ⟨before', bytes', _, _, _, unread', hsplit', hlow, hhigh, hcall'⟩
    obtain ⟨hpacket, -, rfl⟩ := CallOutcome.broadcast.inj (Except.ok.inj (hcall.symm.trans hcall'))
    obtain ⟨rfl, hdata⟩ := List.append_inj' (hsplit.symm.trans hsplit') rfl
    obtain rfl := ReadResult.data.inj (List.cons.inj hdata).1
    exact ⟨Packet.toParsed_injective hpacket, hlow, hhigh⟩
  · rintro ⟨rfl, hlow, hhigh⟩
    exact ⟨before, bytes, pos, h128, l, unread, hsplit, hlow, hhigh, hcall⟩

/-- The read that delivers the byte before the offset `a` goes on up to the offset `b` if and only
if no read ends between the two. -/
theorem le_length_iff_forall_append {a b : ℕ} {before unread : List ReadResult}
    {bytes : List UInt8} {pos : 0 < bytes.length} {h128 : bytes.length ≤ 128}
    (hsplit : reads = before ++ .data bytes pos h128 :: unread)
    (hlow : (delivered before).length < a)
    (hhigh : a ≤ (delivered before).length + bytes.length) :
    b ≤ (delivered before).length + bytes.length ↔
      ∀ before' after, reads = before' ++ after →
        ¬ (a ≤ (delivered before').length ∧ (delivered before').length < b) := by
  have hread : (delivered (before ++ [.data bytes pos h128])).length =
      (delivered before).length + bytes.length := by
    simp [delivered, payloads]
  constructor
  · rintro hb before' after hsplit' ⟨hge, hlt⟩
    rcases List.append_eq_append_iff.mp (hsplit.symm.trans hsplit') with ⟨m, rfl, hm⟩ | ⟨m, rfl, -⟩
    · -- this read is among the reads before the end, or none is
      cases m with
      | nil =>
        rw [List.append_nil] at hge
        omega
      | cons r m =>
        obtain ⟨rfl, -⟩ := List.cons.inj hm
        rw [delivered_append, delivered_data_cons, List.length_append, List.length_append] at hlt
        omega
    · rw [delivered_append, List.length_append] at hlow
      omega
  · intro hends
    have hend := hends (before ++ [.data bytes pos h128]) unread (by simp [hsplit])
    omega

/-- **When the parser resynchronises.** For noise of any length that does not contain the header,
every packet, every trailing bytes and every delivery. -/
theorem resynchronises_iff (o : ByteOrder) (P : Packet) (trailing : List UInt8)
    (hnoise : ∀ i, ¬ OccursAt header noise i)
    (hreads : delivered reads = noise ++ (P.frame ++ trailing))
    (hlen : (delivered reads).length < 2 ^ 31) :
    Resynchronises o noise P reads ↔ NoiseInReach noise P reads := by
  have hfirst : FirstAt header (delivered reads) noise.length :=
    hreads ▸ firstAt_noise hnoise P trailing
  have htotal : noise.length + 20 ≤ (delivered reads).length := by simp [hreads]
  have hneeded := (neededLength_le noise.length).trans htotal
  obtain ⟨before, bytes, pos, h128, unread, hsplit, hlow, hhigh, hcall⟩ :=
    processIMUFrames_of_firstAt o (littleEndian o) hlen hfirst hneeded
  rw [readPacket_littleEndian ((mod_add_le_neededLength _).trans hneeded), hreads] at hcall
  rw [resynchronises_iff_of_call hsplit hcall, NoiseInReach]
  rcases lt_or_ge noise.length 256 with hshort | hlong
  · rw [neededLength_of_lt hshort] at hlow hhigh
    refine iff_of_true ⟨?_, hlow, hhigh⟩ (Or.inl hshort)
    rw [Nat.mod_eq_of_lt hshort, packetAt_append_frame]
  · rw [neededLength_of_le hlong] at hlow hhigh
    rw [packetAt_mod_eq_iff hlong, le_length_iff_forall_append hsplit hlow hhigh,
      or_iff_right (not_lt.mpr hlong)]
    exact and_congr_right fun _ => and_iff_right (by omega)

/-- Four bytes of noise, and the frame in two reads. -/
theorem resynchronises_four :
    Resynchronises .little [0x95, 0xAB, 0xCD, 0x7F] ⟨1, 2, 3, 4⟩
      [.data ([0x95, 0xAB, 0xCD, 0x7F] ++ (⟨1, 2, 3, 4⟩ : Packet).frame.take 3) (by decide)
        (by decide), .empty,
       .data ((⟨1, 2, 3, 4⟩ : Packet).frame.drop 3 ++ [0x7F]) (by decide) (by decide)] := by
  refine (resynchronises_iff .little _ [0x7F] (fun i hi => ?_) (by decide)
    (by decide)).mpr (Or.inl (by decide))
  have hfit := hi.add_length_le header_ne_nil
  simp only [length_header, List.length_cons, List.length_nil] at hfit
  obtain rfl : i = 0 := by omega
  revert hi
  decide

/-- The reads that bring 256 zero bytes and a frame. -/
def zerosThenFrame : List ReadResult :=
  [.data (List.replicate 128 0) (by simp) (by simp),
    .data (List.replicate 128 0) (by simp) (by simp),
    .data (⟨1, 2, 3, 4⟩ : Packet).frame (by decide) (by decide)]

/-- 256 bytes of noise without a header: the zero packet is broadcast, read from the noise. -/
theorem not_resynchronises :
    (∀ i, ¬ OccursAt header (List.replicate 256 0) i) ∧
      delivered zerosThenFrame = List.replicate 256 0 ++ ((⟨1, 2, 3, 4⟩ : Packet).frame ++ []) ∧
      ¬ Resynchronises .little (List.replicate 256 0) ⟨1, 2, 3, 4⟩ zerosThenFrame := by
  have hnoise := not_occursAt_header_replicate 256
  have hreads : delivered zerosThenFrame =
      List.replicate 256 0 ++ ((⟨1, 2, 3, 4⟩ : Packet).frame ++ []) := by
    simp only [zerosThenFrame, delivered_data_cons]
    rw [← List.append_assoc, List.replicate_append_replicate]
    rfl
  have hfirst : FirstAt header (delivered zerosThenFrame) 256 := by
    have h := firstAt_noise hnoise ⟨1, 2, 3, 4⟩ []
    rwa [← hreads, List.length_replicate] at h
  have hlen : (delivered zerosThenFrame).length = 276 := by
    rw [hreads, List.length_append, List.length_replicate]
    rfl
  refine ⟨hnoise, hreads, ?_⟩
  rintro ⟨-, -, -, -, inputBuffer, unread, -, -, -, hcall⟩
  obtain ⟨-, -, -, -, unread', -, -, -, hzero⟩ :=
    processIMUFrames_of_firstAt .little (littleEndian .little) (by omega) hfirst
      (by rw [hlen]; decide)
  -- the packet of the call is read at the index 0
  have hpacket := (CallOutcome.broadcast.inj (Except.ok.inj (hcall.symm.trans hzero))).1
  rw [hreads, readPacket_append (by rw [List.length_replicate]; decide)] at hpacket
  revert hpacket
  decide

end IMUParser
