import IMUParser.Receive.Resync
import IMUParser.System.LoopTester

/-!
# The loop test on a port that is not empty

`loop_agreement` assumes that the port is empty when the driver starts. It may hold bytes, though:
noise, or what an earlier run of the driver has written. The first answer is then what stands at the
first header of these bytes and the first frame, its index taken modulo 256, whatever the order of
steps is (`staleLoop_first`). So the frame of an earlier run is taken for the answer to the first
one of this run.

If the bytes do not contain the header and are less than 256, the parser skips them, and from then
on driver and parser go in lock-step (`staleLoop_agreement`).

## Main definitions

* `LoopState.onPort`, `firstFrame`.
* `FirstRound`, `FirstAnswer`: before the first datagram is sent, and when it is.

## Main results

* `FirstRound.step`.
* `staleLoop_first`, `staleLoop_agreement`.
-/

namespace IMUParser

open Words Transition

/-- Driver and parser are about to start, and `stale` is on the port. -/
def LoopState.onPort (stale : List UInt8) : LoopState := { LoopState.initial with port := stale }

/-- The bytes that the driver sends first. -/
def firstFrame (packets : Stream'.Seq Packet) : List UInt8 :=
  (packets.get? 0).elim [] Packet.frame

/-- The bytes that have been on the port in the first round. -/
def firstBytes (packets : Stream'.Seq Packet) (stale : List UInt8) (s : LoopState) : List UInt8 :=
  if s.awaiting then stale ++ firstFrame packets else stale

/-- Nothing has been accepted yet. -/
structure FirstRound (o : ByteOrder) (packets : Stream'.Seq Packet) (stale : List UInt8)
    (s : LoopState) : Prop where
  not_faulted : ∀ fault, s.parser ≠ .faulted fault
  count : s.count = 0
  bytes : s.inputBuffer ++ s.port = firstBytes packets stale s
  datagrams : s.datagrams = []
  produced : s.produced = []
  received : s.received = []

/-- The packet found in the bytes `w` has just been broadcast. -/
structure FirstAnswer (o : ByteOrder) (packets : Stream'.Seq Packet) (stale w : List UInt8)
    (packet : ParsedPacket) (s : LoopState) : Prop where
  accept : (frameRecogniser o (littleEndian o)).accept w = some packet
  bytes : w ++ s.port = firstBytes packets stale s
  count : s.count = 0
  inputBuffer : s.inputBuffer = []
  parser : s.parser = .sleeping
  datagrams : s.datagrams = [packet.image o]
  produced : s.produced = [packet.image o]
  received : s.received = []

variable {o : ByteOrder} {packets : Stream'.Seq Packet} {stale w : List UInt8} {s s' : LoopState}
  {l : LoopLabel} {packet : ParsedPacket} {p : ℕ}

theorem firstFrame_of_get? {P : Packet} (h : packets.get? 0 = some P) :
    firstFrame packets = P.frame := by
  rw [firstFrame, h, Option.elim_some]

theorem length_firstFrame_le (packets : Stream'.Seq Packet) : (firstFrame packets).length ≤ 20 := by
  cases h : packets.get? 0 with
  | none => simp [firstFrame, h]
  | some P => rw [firstFrame_of_get? h, P.length_frame]

theorem firstBytes_isPrefix (packets : Stream'.Seq Packet) (stale : List UInt8) (s : LoopState) :
    firstBytes packets stale s <+: stale ++ firstFrame packets := by
  rw [firstBytes]
  split_ifs
  · exact List.prefix_rfl
  · exact List.prefix_append _ _

theorem firstRound_onPort : FirstRound o packets stale (.onPort stale) :=
  ⟨nofun, rfl, rfl, rfl, rfl, rfl⟩

/-- Reads that bring nothing and the end of the pause change nothing. -/
theorem FirstRound.of_phase (h : FirstRound o packets stale s) (index : UInt8) :
    FirstRound o packets stale { s with parser := .reading index } :=
  ⟨nofun, h.count, h.bytes, h.datagrams, h.produced, h.received⟩

/-- **The step lemma.** A step leaves the first round as it is, or the first answer is sent. -/
theorem FirstRound.step (h : FirstRound o packets stale s) (hlen : stale.length + 20 < 2 ^ 31)
    (hstep : LoopStep o packets s l s') :
    FirstRound o packets stale s' ∨ ∃ w packet, FirstAnswer o packets stale w packet s' := by
  cases hstep with
  | @send P idle next =>
    rw [h.count] at next
    have hbytes := h.bytes
    rw [firstBytes, idle, if_neg Bool.false_ne_true] at hbytes
    refine Or.inl ⟨h.not_faulted, h.count, ?_, h.datagrams, h.produced, h.received⟩
    rw [firstBytes, if_pos rfl, firstFrame_of_get? next, ← hbytes, List.append_assoc,
      createFakePacket_eq_frame]
  | receive _ arrived => exact absurd (h.datagrams.symm.trans arrived) nofun
  | wake => exact Or.inl (h.of_phase 0)
  | @read index r rest _ taken =>
    cases r with
    | empty =>
      obtain rfl : s.port = rest := taken
      exact Or.inl (h.of_phase index)
    | fail =>
      obtain rfl : s.port = rest := taken
      exact Or.inl (h.of_phase index)
    | data bytes pos h128 =>
      have hbytes : s.inputBuffer ++ bytes ++ rest = firstBytes packets stale s := by
        rw [List.append_assoc, ← h.bytes, taken]
        rfl
      have hfits : (s.inputBuffer ++ bytes).length < 2 ^ 31 := by
        have hprefix : s.inputBuffer ++ bytes <+: stale ++ firstFrame packets :=
          (hbytes ▸ List.prefix_append _ rest).trans (firstBytes_isPrefix packets stale s)
        have hframe := length_firstFrame_le packets
        calc (s.inputBuffer ++ bytes).length
            ≤ stale.length + (firstFrame packets).length :=
              hprefix.length_le.trans_eq List.length_append
          _ < 2 ^ 31 := by omega
      cases haccept : (frameRecogniser o (littleEndian o)).accept (s.inputBuffer ++ bytes) with
      | none =>
        obtain ⟨index', hbody⟩ := loopBody_data_of_not_accept index pos h128 hfits haccept
        rw [hbody]
        exact Or.inl ⟨nofun, h.count, hbytes, h.datagrams, h.produced, h.received⟩
      | some packet =>
        rw [loopBody_data_of_accept index pos h128 hfits haccept]
        refine Or.inr ⟨_, packet, haccept, hbytes, h.count, rfl, rfl, ?_, ?_, h.received⟩
        · simp only [LoopState.iterate, h.datagrams, List.nil_append]
        · simp only [LoopState.iterate, h.produced, List.nil_append]

/-- The first answer is read at the first header. -/
theorem FirstAnswer.packet_eq (h : FirstAnswer o packets stale w packet s)
    (hfirst : FirstAt header (stale ++ firstFrame packets) p) :
    packet = (packetAt (stale ++ firstFrame packets) (p % 256)).toParsed ∧
      neededLength p ≤ w.length := by
  obtain ⟨m, hm⟩ : w <+: stale ++ firstFrame packets :=
    (h.bytes ▸ List.prefix_append w s.port).trans (firstBytes_isPrefix packets stale s)
  obtain ⟨q, hq, rfl⟩ := frameRecogniser_accept_eq_some_iff.mp h.accept
  obtain ⟨hfirst', hneeded⟩ := acceptedAt?_eq_some_iff.mp hq
  obtain rfl : q = p := FirstAt.eq (hm ▸ hfirst'.append header_ne_nil m) hfirst
  have hin := (mod_add_le_neededLength q).trans hneeded
  rw [readPacket_littleEndian hin, ← hm, packetAt_append hin]
  exact ⟨rfl, hneeded⟩

/-! ### The first answer -/

/-- Behind the first round, the datagram `data` has been sent first. -/
structure SentFirst (data : List UInt8) (s : LoopState) : Prop where
  produced : s.produced = s.received ++ s.datagrams
  head : s.produced.head? = some data

/-- The first datagram remains the first one. -/
theorem SentFirst.step {data : List UInt8} (h : SentFirst data s)
    (hstep : LoopStep o packets s l s') : SentFirst data s' := by
  cases hstep with
  | send => exact ⟨h.produced, h.head⟩
  | wake => exact ⟨h.produced, h.head⟩
  | receive _ arrived => exact ⟨by simp [h.produced, arrived], h.head⟩
  | @read index r =>
    cases loopBody o (littleEndian o) s.inputBuffer index r with
    | error => exact ⟨h.produced, h.head⟩
    | ok iteration =>
      cases iteration with
      | next => exact ⟨h.produced, h.head⟩
      | sent packet =>
        refine ⟨?_, ?_⟩
        · simp only [LoopState.iterate, h.produced, List.append_assoc]
        · simp only [LoopState.iterate, List.head?_append, h.head, Option.some_or]

/-- **The first answer.** Whatever is on the port when the driver starts, and in every state
reached: the first datagram that the driver has received carries the packet at the index modulo 256
of the first header of these bytes and the first frame. -/
theorem staleLoop_first (o : ByteOrder) (packets : Stream'.Seq Packet) (stale : List UInt8)
    (s : LoopState) (p : ℕ) (hlen : stale.length + 20 < 2 ^ 31)
    (hfirst : FirstAt header (stale ++ firstFrame packets) p)
    (h : Reachable (LoopStep o packets) (.onPort stale) s) (data : List UInt8)
    (hdata : s.received.head? = some data) :
    unpackNative o data = some (packetAt (stale ++ firstFrame packets) (p % 256)) := by
  have hinv : FirstRound o packets stale s ∨
      SentFirst (datagram o (packetAt (stale ++ firstFrame packets) (p % 256))) s := by
    refine h.invariant (I := fun t => FirstRound o packets stale t ∨ SentFirst _ t)
      (Or.inl firstRound_onPort) fun t l t' ht hstep => ?_
    rcases ht with hround | hsent
    · refine (hround.step hlen hstep).imp_right fun ⟨w, packet, hanswer⟩ => ?_
      obtain ⟨rfl, -⟩ := hanswer.packet_eq hfirst
      refine ⟨?_, ?_⟩
      · rw [hanswer.produced, hanswer.received, hanswer.datagrams, List.nil_append]
      · rw [hanswer.produced]
        rfl
    · exact Or.inr (hsent.step hstep)
  rcases hinv with hround | hsent
  · exact absurd (hround.received ▸ hdata) nofun
  · have hhead := hsent.head
    rw [hsent.produced, List.head?_append, hdata, Option.some_or] at hhead
    obtain rfl := Option.some.inj hhead
    exact unpackNative_image o _

/-- The frame of an earlier run is on the port; its packet is the first answer. -/
theorem staleLoop_first_frame :
    ∃ s data, Reachable (LoopStep .little (.ofList [⟨1, 2, 3, 4⟩]))
        (.onPort (⟨9, 9, 9, 9⟩ : Packet).frame) s ∧
      s.received.head? = some data ∧ unpackNative .little data = some ⟨9, 9, 9, 9⟩ := by
  let Q : Packet := ⟨9, 9, 9, 9⟩
  have hstart : Reachable (LoopStep .little (.ofList [⟨1, 2, 3, 4⟩])) (.onPort Q.frame)
    (.onPort Q.frame) := .start
  have hsend := hstart.next (.send (P := ⟨1, 2, 3, 4⟩) rfl rfl)
  have hread := hsend.next (.read (r := .data Q.frame (by decide) (by decide)) rfl
    (show _ = Q.frame ++ (⟨1, 2, 3, 4⟩ : Packet).frame by decide))
  have hreceive := hread.next (.receive (by decide +kernel)
    (show _ = datagram .little Q :: [] by decide +kernel))
  obtain ⟨s, hreach, hhead⟩ : ∃ s, Reachable (LoopStep .little (.ofList [⟨1, 2, 3, 4⟩]))
      (.onPort Q.frame) s ∧ s.received.head? = some (datagram .little Q) :=
    ⟨_, hreceive, by decide +kernel⟩
  have hdata := staleLoop_first .little _ Q.frame s 0 (by decide) (firstAt_zero (by decide)) hreach
    _ hhead
  exact ⟨s, _, hreach, hhead, hdata.trans (by decide +kernel)⟩

/-! ### Noise -/

/-- Nothing depends on how many bytes have been read. -/
theorem LoopState.iterate_bytesRead (s : LoopState) (result : Except Fault Iteration) (n : ℕ) :
    LoopState.iterate { s with bytesRead := n } o result =
      { s.iterate o result with bytesRead := n } := by
  rcases result with _ | _ | _ <;> rfl

theorem LoopStep.exists_bytesRead (h : LoopStep o packets s l s') (n : ℕ) :
    ∃ n', LoopStep o packets { s with bytesRead := n } l { s' with bytesRead := n' } := by
  cases h with
  | send idle next => exact ⟨n, .send idle next⟩
  | receive awaiting arrived => exact ⟨n, .receive awaiting arrived⟩
  | wake sleeping => exact ⟨n, .wake sleeping⟩
  | @read index r rest reading taken =>
    refine ⟨n + r.bytes.length, ?_⟩
    rw [← LoopState.iterate_bytesRead]
    exact .read (s := { s with bytesRead := n }) reading taken

/-- When noise has been skipped, the first answer is right, and nothing is left of the noise. -/
theorem FirstAnswer.loopInvariant (h : FirstAnswer o packets stale w packet s)
    (hnoise : ∀ i, ¬ OccursAt header stale i) (hlen : stale.length < 256) :
    LoopInvariant o packets { s with bytesRead := 20 } := by
  have hbytes := h.bytes
  cases hnext : packets.get? 0 with
  | none =>
    -- there is no frame, so no header
    obtain ⟨q, hq, -⟩ := frameRecogniser_accept_eq_some_iff.mp h.accept
    have hocc := (acceptedAt?_eq_some_iff.mp hq).1.occursAt.append s.port
    rw [hbytes, firstBytes, firstFrame, hnext, Option.elim_none, List.append_nil, ite_self] at hocc
    exact absurd hocc (hnoise q)
  | some P =>
    have hfirst : FirstAt header (stale ++ firstFrame packets) stale.length := by
      rw [firstFrame_of_get? hnext]
      simpa using firstAt_noise hnoise P []
    obtain ⟨rfl, hneeded⟩ := h.packet_eq hfirst
    have hpacket : packetAt (stale ++ firstFrame packets) (stale.length % 256) = P := by
      rw [firstFrame_of_get? hnext, Nat.mod_eq_of_lt hlen]
      simpa using packetAt_append_frame (l := stale) (m := []) P
    rw [neededLength_of_lt hlen] at hneeded
    have hcount := congrArg List.length hbytes
    rw [List.length_append] at hcount
    cases ha : s.awaiting with
    | false =>
      rw [firstBytes, ha, if_neg Bool.false_ne_true] at hcount
      omega
    | true =>
      rw [firstBytes, ha, if_pos rfl, firstFrame_of_get? hnext, List.length_append,
        P.length_frame] at hcount
      have hport : s.port = [] := List.eq_nil_of_length_eq_zero (by omega)
      have hsent : s.datagrams = [datagram o P] := by rw [h.datagrams, hpacket, datagram]
      refine ⟨?_, .answered P rfl (h.count.symm ▸ hnext) hsent h.inputBuffer hport, ?_, ?_, ?_, ?_⟩
      · intro fault hfault
        cases h.parser.symm.trans hfault
      · simp [h.produced, h.inputBuffer]
      · simp [h.produced, h.received, h.datagrams]
      · simp [h.received, h.count]
      · simp [h.received, h.count]

/-- **Lock-step agreement behind noise.** If fewer than 256 bytes without a header are on the port
when the driver starts: in every state reached, the parser has not faulted, the datagrams sent are
those of the first packets, in order and each once, and the `n`-th datagram received carries the
`n`-th packet sent. -/
theorem staleLoop_agreement (o : ByteOrder) (packets : Stream'.Seq Packet) (stale : List UInt8)
    (s : LoopState) (hnoise : ∀ i, ¬ OccursAt header stale i) (hlen : stale.length < 256)
    (h : Reachable (LoopStep o packets) (.onPort stale) s) :
    (∀ fault, s.parser ≠ .faulted fault) ∧
      s.produced = (packets.take s.produced.length).map (datagram o) ∧
      ∀ n data, s.received[n]? = some data →
        ∃ P, packets.get? n = some P ∧ unpackNative o data = some P := by
  have hinv : FirstRound o packets stale s ∨
      ∃ n, LoopInvariant o packets { s with bytesRead := n } := by
    refine h.invariant (I := fun t => FirstRound o packets stale t ∨
      ∃ n, LoopInvariant o packets { t with bytesRead := n }) (Or.inl firstRound_onPort) ?_
    rintro t l t' (hround | ⟨n, hloop⟩) hstep
    · exact (hround.step (by omega) hstep).imp_right fun ⟨w, packet, hanswer⟩ =>
        ⟨20, hanswer.loopInvariant hnoise hlen⟩
    · obtain ⟨n', hstep'⟩ := hstep.exists_bytesRead n
      exact Or.inr ⟨n', hloop.step hstep'⟩
  rcases hinv with hround | ⟨n, hloop⟩
  · refine ⟨hround.not_faulted, ?_, ?_⟩
    · rw [hround.produced]
      rfl
    · rw [hround.received]
      nofun
  · have hagreement := hloop.agreement
    refine ⟨hagreement.not_faulted, ?_, hagreement.received⟩
    rw [hagreement.length_produced]
    exact hagreement.produced

/-- Three bytes of a header are on the port, and a packet is sent with a header in its payload. -/
theorem staleLoop_agreement_partialHeader :
    ∃ s, Reachable (LoopStep .big (.ofList [⟨1, 0x7FF01CAF, 3, 4⟩]))
        (.onPort [0x7F, 0xF0, 0x1C]) s ∧
      s.received.length = 1 ∧ (∀ fault, s.parser ≠ .faulted fault) ∧
      s.produced = ((Stream'.Seq.ofList [⟨1, 0x7FF01CAF, 3, 4⟩]).take s.produced.length).map
        (datagram .big) ∧
      ∀ n data, s.received[n]? = some data →
        ∃ P, (Stream'.Seq.ofList [⟨1, 0x7FF01CAF, 3, 4⟩]).get? n = some P ∧
          unpackNative .big data = some P := by
  let stale : List UInt8 := [0x7F, 0xF0, 0x1C]
  let P : Packet := ⟨1, 0x7FF01CAF, 3, 4⟩
  have hnoise : ∀ i, ¬ OccursAt header stale i :=
    (firstIndex?_eq_none_iff header_ne_nil).mp (by decide)
  have hstart : Reachable (LoopStep .big (.ofList [P])) (.onPort stale) (.onPort stale) := .start
  have hsend := hstart.next (.send (P := P) rfl rfl)
  have hread := hsend.next (.read (r := .data (stale ++ P.frame) (by decide) (by decide)) rfl
    (show _ = (stale ++ P.frame) ++ [] by decide))
  have hreceive := hread.next (.receive (by decide +kernel)
    (show _ = datagram .big P :: [] by decide +kernel))
  exact ⟨_, hreceive, by decide +kernel,
    staleLoop_agreement .big _ stale _ hnoise (by decide) hreceive⟩

end IMUParser
