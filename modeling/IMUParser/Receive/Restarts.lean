import Mathlib.Data.List.Sort
import IMUParser.Receive.Recognition

/-!
# Where the calls restart

A call that broadcasts a packet clears the buffer, so the next call starts in the stream where the
read ended that completed the packet: anywhere in a frame, a header or noise. Each call looks for
the next header from there on.

Let every header be in reach: at most 255 bytes behind any offset from which it is the next one.
Then a call reads the frame at the next header, when the first 20 bytes from it on have been read,
and a read brings at most 127 bytes more. So the offsets of the frames read by successive calls
form a chain, `PickedFrom`, and what is true of the broadcasts follows from where the headers are.

## Main definitions

* `InReach`, `CallStartsAt`, `PickedFrom`, `EmitsPicked`.

## Main results

* `mainLoop_pickedFrom`: the broadcasts are the packets at such a chain of offsets.
* `scansFit_of_dense`, `length_inputBuffer_lt`: bounds on the buffer, for streams in which a header
  is never far away.
-/

namespace IMUParser

open Words
open scoped List

variable {o : ByteOrder} {s d w m : List UInt8} {e q : ℕ} {packet : ParsedPacket}

/-- No header is more than 255 bytes behind an offset from which it is the next one. -/
def InReach (s : List UInt8) : Prop := ∀ e q, NextAt header s e q → q ≤ e + 255

/-! ### Windows of the stream -/

/-- The packet of an accepted window is that of the frame at the next header. -/
theorem exists_nextAt_of_accept (hreach : InReach (d ++ (w ++ m)))
    (h : (frameRecogniser o (littleEndian o)).accept w = some packet) :
    ∃ q, NextAt header (d ++ (w ++ m)) d.length q ∧ q + 20 ≤ d.length + w.length ∧
      packet = (packetAt (d ++ (w ++ m)) q).toParsed := by
  obtain ⟨p, hp, rfl⟩ := frameRecogniser_accept_eq_some_iff.mp h
  obtain ⟨hfirst, hlen⟩ := acceptedAt?_eq_some_iff.mp hp
  have hnext := hfirst.nextAt header_ne_nil d m
  have hshort : p < 256 := by
    have := hreach _ _ hnext
    omega
  rw [neededLength_of_lt hshort] at hlen
  refine ⟨d.length + p, hnext, by omega, ?_⟩
  rw [Nat.mod_eq_of_lt hshort, readPacket_littleEndian hlen, packetAt_append_length_add,
    packetAt_append hlen]

/-- A window that is not accepted ends before the frame at the next header does. -/
theorem lt_add_of_acceptedAt?_eq_none (hq : NextAt header (d ++ (w ++ m)) d.length q)
    (h : acceptedAt? w = none) : d.length + w.length < q + 20 := by
  rw [acceptedAt?_eq_none_iff] at h
  obtain ⟨p, rfl⟩ := Nat.exists_eq_add_of_le hq.le
  by_contra hge
  have hlt := (h p (hq.firstAt (by rw [length_header]; omega))).trans_le (neededLength_le p)
  omega

/-! ### Chains of offsets -/

/-- The call with the index `k` of `main`'s loop, counted from 0, starts at the offset `e`: as many
bytes have been read when `k` calls have returned, all with a broadcast. -/
def CallStartsAt (o : ByteOrder) (reads : List ReadResult) (k e : ℕ) : Prop :=
  ∃ m, mainLoop o k [] reads = .ok m ∧ m.broadcasts.length = k ∧
    e + (delivered m.unread).length = (delivered reads).length

/-- The first call starts where the stream starts. -/
theorem CallStartsAt.eq_zero {reads : List ReadResult} (h : CallStartsAt o reads 0 e) : e = 0 := by
  obtain ⟨m, hm, -, he⟩ := h
  obtain rfl := Except.ok.inj hm
  exact Nat.add_eq_right.mp he

/-- The offsets of the frames that the calls from the index `k` on read, the call `k` from the
offset `e` on, if `C` relates the calls to the offsets where they start: each call reads the frame
at the next header, and the one behind it starts at the end of that frame or less than 128 bytes
later. -/
inductive PickedFrom (s : List UInt8) (C : ℕ → ℕ → Prop) : ℕ → ℕ → List ℕ → Prop
  | nil (k e : ℕ) : PickedFrom s C k e []
  | cons {k e q e' : ℕ} {qs : List ℕ} (start : C k e) (next : NextAt header s e q)
      (le : q + 20 ≤ e') (lt : e' < q + 20 + 128) (fits : e' ≤ s.length)
      (rest : PickedFrom s C (k + 1) e' qs) : PickedFrom s C k e (q :: qs)

/-- The values `packets` of the calls on the chunks `cs`, behind the bytes `d` of the stream `s`,
are those at a chain of offsets, if `C` holds of the calls that give them, the first one having the
index `j`, and of the offsets where they start. -/
def EmitsPicked (o : ByteOrder) (s : List UInt8) (C : ℕ → ℕ → Prop) (d : List UInt8)
    (cs : List (List UInt8)) (packets : List ParsedPacket) : Prop :=
  ∀ j, s = d ++ cs.flatten → (∀ c ∈ cs, c.length ≤ 128) →
    (∀ k < packets.length, ∀ e,
      ((frameRecogniser o (littleEndian o)).drain k cs).emitted.length = k →
      e + ((frameRecogniser o (littleEndian o)).drain k cs).unread.flatten.length = s.length →
        C (j + k) e) →
    ∃ qs, packets = qs.map (fun q => (packetAt s q).toParsed) ∧ PickedFrom s C j d.length qs

/-- A call in front of others. -/
theorem EmitsPicked.cons {C : ℕ → ℕ → Prop} (hreach : InReach s) {d c : List UInt8}
    {pre rest : List (List UInt8)} {packets : List ParsedPacket}
    (hnone : (frameRecogniser o (littleEndian o)).accept pre.flatten = none)
    (hsome : (frameRecogniser o (littleEndian o)).accept (pre.flatten ++ c) = some packet)
    (ih : EmitsPicked o s C (d ++ (pre.flatten ++ c)) rest packets) :
    EmitsPicked o s C d (pre ++ c :: rest) (packet :: packets) := by
  intro j hs hle hstarts
  have hwindow : s = d ++ ((pre.flatten ++ c) ++ rest.flatten) := by simp [hs]
  have hawait : (frameRecogniser o (littleEndian o)).await [] (pre ++ c :: rest) =
      some (packet, rest) :=
    (Recogniser.await_eq_some_iff _ (Recogniser.accept_nil _)).mpr ⟨pre, c, rfl, hnone, hsome⟩
  obtain ⟨qs, rfl, hpicked⟩ := ih (j + 1) (by simp [hs]) (fun c hc => hle c (by simp [hc]))
    fun k hk e hemitted he => by
      have hstart := hstarts (k + 1) (by simpa using hk) e
        (by rw [Recogniser.drain_succ_of_some _ _ hawait, List.length_cons, hemitted])
        (by rwa [Recogniser.drain_succ_of_some _ _ hawait])
      rwa [Nat.add_right_comm, Nat.add_assoc]
  obtain ⟨q, hnext, hend, rfl⟩ := exists_nextAt_of_accept (hwindow ▸ hreach) hsome
  -- before the last chunk the window was not accepted, so it ended inside the frame
  have hlt := lt_add_of_acceptedAt?_eq_none (m := c ++ rest.flatten)
    (by simpa only [List.append_assoc] using hnext) (frameRecogniser_accept_eq_none_iff.mp hnone)
  have hc := hle c (by simp)
  have hstart : C j d.length :=
    hstarts 0 (by simp) d.length rfl (by rw [Recogniser.drain_zero, hs, List.length_append])
  have hfits := congrArg List.length hwindow
  simp only [List.length_append] at hend hpicked hfits
  rw [← hwindow] at hnext ⊢
  exact ⟨q :: qs, rfl, .cons hstart hnext hend (by omega) (by omega) hpicked⟩

/-- Draining chunks of at most 128 bytes gives the packets at a chain of offsets. -/
theorem drain_emitsPicked {C : ℕ → ℕ → Prop} (hreach : InReach s) (n : ℕ) (d : List UInt8)
    (cs : List (List UInt8)) :
    EmitsPicked o s C d cs ((frameRecogniser o (littleEndian o)).drain n cs).emitted :=
  Recogniser.drain_induction (frameRecogniser o (littleEndian o))
    (fun _ _ _ _ _ _ => ⟨[], rfl, .nil _ _⟩)
    (fun _ _ _ _ _ _ hnone hsome ih => ih.cons hreach hnone hsome) n d cs

/-- **Successive calls read a chain of frames**, all of them read completely. -/
theorem mainLoop_pickedFrom (n : ℕ) {reads : List ReadResult} (hfit : ScansFit (delivered reads))
    (hreach : InReach (delivered reads)) :
    ∃ m qs, mainLoop o n [] reads = .ok m ∧ qs.length ≤ n ∧
      m.broadcasts = qs.map (fun q => (packetAt (delivered reads) q).toParsed) ∧
      PickedFrom (delivered reads) (CallStartsAt o reads) 0 0 qs := by
  obtain ⟨m, hm, hdrain⟩ := mainLoop_refines (o := o) n reads hfit
  have hn := Recogniser.length_emitted_le (frameRecogniser o (littleEndian o)) n (payloads reads)
  obtain ⟨qs, hqs, hpicked⟩ := drain_emitsPicked (o := o) (C := CallStartsAt o reads) hreach n []
    (payloads reads) 0 rfl (fun c hc => (length_le_of_mem_payloads hc).2) fun k _ e hk he => by
      obtain ⟨mk, hmk, hdraink⟩ := mainLoop_refines (o := o) k reads hfit
      rw [← hdraink] at hk he
      rw [Nat.zero_add]
      exact ⟨mk, hmk, hk, he⟩
  refine ⟨m, qs, hm, ?_, ?_, hpicked⟩
  · rwa [hqs, List.length_map] at hn
  · rw [← hqs, ← hdrain]
    rfl

namespace PickedFrom

variable {C : ℕ → ℕ → Prop} {k : ℕ} {qs : List ℕ}

/-- Frames are read behind the start, and not twice. -/
theorem pairwise (h : PickedFrom s C k e qs) :
    (∀ q ∈ qs, e ≤ q) ∧ qs.Pairwise fun q q' => q + 20 ≤ q' := by
  induction h with
  | nil => simp
  | cons _ next le _ _ _ ih =>
    obtain ⟨hge, hpairwise⟩ := ih
    have hnext := next.le
    refine ⟨fun r hr => ?_, List.pairwise_cons.mpr ⟨fun r hr => le.trans (hge r hr), hpairwise⟩⟩
    rcases List.mem_cons.mp hr with rfl | hr
    · exact hnext
    · have := hge r hr
      omega

/-- Frames are read at headers. -/
theorem occursAt (h : PickedFrom s C k e qs) : ∀ q ∈ qs, OccursAt header s q := by
  induction h with
  | nil => simp
  | cons _ next _ _ _ _ ih => exact List.forall_mem_cons.mpr ⟨next.occursAt, ih⟩

/-- The frames have been read completely. -/
theorem add_le_length (h : PickedFrom s C k e qs) : ∀ q ∈ qs, q + 20 ≤ s.length := by
  induction h with
  | nil => simp
  | cons _ _ le _ fits _ ih => exact List.forall_mem_cons.mpr ⟨le.trans fits, ih⟩

/-- When the frames read start at some of the given offsets, in order, they carry a subsequence of
the packets there. -/
theorem map_packetAt_sublist {t : List UInt8} {starts : List ℕ} (h : PickedFrom s C k e qs)
    (hs : s <+: t) (hmem : ∀ q ∈ qs, q ∈ starts)
    (hstarts : starts.Pairwise (· < ·)) :
    qs.map (fun q => (packetAt s q).toParsed) <+
      (starts.map (packetAt t)).map Packet.toParsed := by
  have hlt : qs.Pairwise (· < ·) := h.pairwise.2.imp fun h => by omega
  have hnodup : qs.Nodup := hlt.imp ne_of_lt
  have hsublist : qs <+ starts :=
    List.sublist_of_subperm_of_pairwise (hnodup.subperm hmem) (hlt.imp le_of_lt)
      (hstarts.imp le_of_lt)
  have hpackets : qs.map (fun q => (packetAt s q).toParsed) =
      qs.map fun q => (packetAt t q).toParsed := by
    refine List.map_congr_left fun q hq => ?_
    obtain ⟨m, rfl⟩ := hs
    rw [packetAt_append (h.add_le_length q hq)]
  rw [hpackets, List.map_map]
  exact hsublist.map _

end PickedFrom

/-! ### The size of the buffer -/

/-- Behind every offset that is 39 bytes before the end or more, a header starts within 20 bytes. -/
def Dense (s : List UInt8) : Prop :=
  ∀ e, e + 39 ≤ s.length → ∃ q, OccursAt header s q ∧ e ≤ q ∧ q < e + 20

/-- A window of a dense stream that is not accepted has fewer than 39 bytes. -/
theorem Dense.length_lt (hs : Dense (d ++ (w ++ m))) (h : acceptedAt? w = none) :
    w.length < 39 := by
  by_contra hge
  obtain ⟨q, hq, hle, hlt⟩ := hs d.length (by simp only [List.length_append]; omega)
  obtain ⟨r, hr, hnext⟩ := hq.exists_nextAt hle
  have := lt_add_of_acceptedAt?_eq_none hnext h
  omega

theorem scansFit_of_dense (hs : Dense s) : ScansFit s := by
  rintro d w c m rfl hnone hc
  have := Dense.length_lt (d := d) (w := w) (m := c ++ m) (by simpa using hs) hnone
  rw [List.length_append]
  omega

/-- On a dense stream the buffer never holds more than 38 bytes between two reads. -/
theorem length_inputBuffer_lt {n : ℕ} {reads : List ReadResult} (hs : Dense (delivered reads))
    {state : MainState} (h : mainLoop o n [] reads = .ok state) :
    state.inputBuffer.length < 39 := by
  obtain ⟨state', hstate', hdrain⟩ := mainLoop_refines (o := o) n reads (scansFit_of_dense hs)
  obtain rfl := Except.ok.inj (hstate'.symm.trans h)
  obtain ⟨hnone, d, hd⟩ :=
    Recogniser.drain_window (frameRecogniser o (littleEndian o)) n (payloads reads)
  rw [← hdrain, frameRecogniser_accept_eq_none_iff] at hnone
  rw [← hdrain, List.append_assoc] at hd
  change delivered reads = _ at hd
  rw [hd] at hs
  exact hs.length_lt hnone

end IMUParser
