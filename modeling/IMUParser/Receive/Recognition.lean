import IMUParser.Library.Recogniser
import IMUParser.Receive.ProcessFrames

/-!
# The parser process as a recogniser

`parsePacket` is a recogniser of buffers (`frameRecogniser`): a buffer that it accepts stays
accepted when bytes are appended, with the same packet, because the first header does not move and
the frame that is read lies inside the accepted buffer. A call of `processIMU_Frames` awaits it, and
`main` drains the stream with it, as long as no buffer outgrows an `int` (`whileLoop_refines`,
`mainLoop_refines`).

## Main definitions

* `frameRecogniser`, `ScansFit`, `CallRefines`, `MainState.toDrained`.

## Main results

* `whileLoop_refines`, `mainLoop_refines`.
-/

namespace IMUParser

open Words

variable {o : ByteOrder} {le : Bool} {l m buffer : List UInt8} {p : ℕ}

/-! ### The recogniser -/

theorem acceptedAt?_nil : acceptedAt? [] = none := by decide

theorem acceptedAt?_append (m : List UInt8) (h : acceptedAt? l = some p) :
    acceptedAt? (l ++ m) = some p := by
  obtain ⟨hfirst, hlen⟩ := acceptedAt?_eq_some_iff.mp h
  refine acceptedAt?_eq_some_iff.mpr ⟨hfirst.append header_ne_nil m, ?_⟩
  rw [List.length_append]
  omega

/-- `parsePacket` as a recogniser of buffers. -/
def frameRecogniser (o : ByteOrder) (le : Bool) : Recogniser UInt8 ParsedPacket where
  accept buffer := (acceptedAt? buffer).map fun p => readPacket o le buffer (p % 256)
  accept_nil := by rw [acceptedAt?_nil, Option.map_none]
  accept_append {l b} m h := by
    obtain ⟨p, hp, rfl⟩ := Option.map_eq_some_iff.mp h
    obtain ⟨-, hlen⟩ := acceptedAt?_eq_some_iff.mp hp
    rw [acceptedAt?_append m hp, Option.map_some,
      readPacket_append ((mod_add_le_neededLength p).trans hlen)]

theorem frameRecogniser_accept_eq_none_iff :
    (frameRecogniser o le).accept buffer = none ↔ acceptedAt? buffer = none :=
  Option.map_eq_none_iff

theorem frameRecogniser_accept_eq_some_iff {packet : ParsedPacket} :
    (frameRecogniser o le).accept buffer = some packet ↔
      ∃ p, acceptedAt? buffer = some p ∧ readPacket o le buffer (p % 256) = packet :=
  Option.map_eq_some_iff

/-- Fewer than 20 bytes are not accepted, whatever they are. -/
theorem accept_of_length_lt {w : List UInt8} (h : w.length < 20) :
    (frameRecogniser o le).accept w = none := by
  rw [frameRecogniser_accept_eq_none_iff, acceptedAt?_eq_none_iff]
  intro p _
  have := mod_add_le_neededLength p
  omega

/-- A frame is accepted, whatever its payload is. -/
theorem accept_frame (o : ByteOrder) (P : Packet) :
    (frameRecogniser o (littleEndian o)).accept P.frame = some P.toParsed := by
  have hfirst : FirstAt header P.frame 0 := firstAt_zero (List.prefix_append header P.payload)
  refine frameRecogniser_accept_eq_some_iff.mpr ⟨0, ?_, ?_⟩
  · exact acceptedAt?_eq_some_iff.mpr ⟨hfirst, by rw [P.length_frame]; decide⟩
  · rw [readPacket_littleEndian (by simp)]
    exact congrArg Packet.toParsed (by simpa using packetAt_frame (m := []) P)

/-! ### The loop body -/

variable (index : UInt8) {bytes : List UInt8} {packet : ParsedPacket}

theorem loopBody_data_of_accept (pos : 0 < bytes.length) (h128 : bytes.length ≤ 128)
    (hn : (buffer ++ bytes).length < 2 ^ 31)
    (h : (frameRecogniser o le).accept (buffer ++ bytes) = some packet) :
    loopBody o le buffer index (.data bytes pos h128) = .ok (.sent packet []) := by
  obtain ⟨p, hp, rfl⟩ := frameRecogniser_accept_eq_some_iff.mp h
  rw [loopBody, parsePacket_eq hn, hp]
  rfl

theorem loopBody_data_of_not_accept (pos : 0 < bytes.length) (h128 : bytes.length ≤ 128)
    (hn : (buffer ++ bytes).length < 2 ^ 31)
    (h : (frameRecogniser o le).accept (buffer ++ bytes) = none) :
    ∃ index', loopBody o le buffer index (.data bytes pos h128) =
      .ok (.next (buffer ++ bytes) index') := by
  refine ⟨(visibleHeader? (buffer ++ bytes)).elim index UInt8.ofNat, ?_⟩
  rw [loopBody, parsePacket_eq hn, frameRecogniser_accept_eq_none_iff.mp h]
  rfl

/-! ### Sizes -/

/-- No buffer that is scanned on the stream `s` outgrows an `int`: neither total size nor anything
else bounds `inputBuffer`, only that it is cleared when a packet is found. -/
def ScansFit (s : List UInt8) : Prop :=
  ∀ d w c m, s = d ++ (w ++ c) ++ m → acceptedAt? w = none → c.length ≤ 128 →
    (w ++ c).length < 2 ^ 31

theorem scansFit_of_length_lt {s : List UInt8} (h : s.length < 2 ^ 31) : ScansFit s := by
  rintro d w c m rfl - -
  simp only [List.length_append] at h ⊢
  omega

theorem ScansFit.of_append {d s : List UInt8} (h : ScansFit (d ++ s)) : ScansFit s := by
  rintro d' w c m rfl
  exact h (d ++ d') w c m (by simp only [List.append_assoc])

/-! ### Refinement -/

/-- How a call ends, given what the recogniser does on the chunks that the reads bring: it keeps
all bytes, or it returns at a read that brings bytes. -/
def CallRefines (buffer : List UInt8) (reads : List ReadResult)
    (outcome : Except Fault CallOutcome) : Option (ParsedPacket × List (List UInt8)) → Prop
  | none => ∃ index', outcome = .ok (.waiting (buffer ++ delivered reads) index')
  | some (packet, cs) => ∃ before bytes pos h128 unread,
      reads = before ++ .data bytes pos h128 :: unread ∧ payloads unread = cs ∧
        outcome = .ok (.broadcast packet [] unread)

/-- A read in front, whose bytes are in the buffer behind it. -/
theorem CallRefines.cons {reads : List ReadResult} {outcome : Except Fault CallOutcome}
    {result : Option (ParsedPacket × List (List UInt8))} {buffer' : List UInt8} (r : ReadResult)
    (hr : buffer' ++ delivered reads = buffer ++ delivered (r :: reads))
    (h : CallRefines buffer' reads outcome result) :
    CallRefines buffer (r :: reads) outcome result := by
  cases result with
  | none =>
    obtain ⟨index', rfl⟩ := h
    exact ⟨index', by rw [hr]⟩
  | some result =>
    obtain ⟨before, bytes, pos, h128, unread, rfl, hcs, hout⟩ := h
    exact ⟨r :: before, bytes, pos, h128, unread, rfl, hcs, hout⟩

/-- **One call.** From a buffer that is not acceptable, a call behaves as the recogniser does on the
chunks that the reads bring. -/
theorem whileLoop_refines (reads : List ReadResult) :
    ∀ {buffer : List UInt8} {index : UInt8}, acceptedAt? buffer = none →
      ScansFit (buffer ++ delivered reads) →
      CallRefines buffer reads (whileLoop o le buffer index reads)
        ((frameRecogniser o le).await buffer (payloads reads)) := by
  induction reads with
  | nil =>
    intro buffer index _ _
    exact ⟨index, by simp [whileLoop, delivered, payloads]⟩
  | cons r reads ih =>
    intro buffer index hnone hfit
    cases r with
    | empty => exact (ih hnone hfit).cons _ rfl
    | fail => exact (ih hnone hfit).cons _ rfl
    | data bytes pos h128 =>
      have hsplit : buffer ++ bytes ++ delivered reads =
          buffer ++ delivered (.data bytes pos h128 :: reads) := by
        simp [delivered, payloads]
      rw [← hsplit] at hfit
      have hn := hfit [] buffer bytes (delivered reads) rfl hnone h128
      rw [payloads]
      cases haccept : (frameRecogniser o le).accept (buffer ++ bytes) with
      | some packet =>
        rw [Recogniser.await_cons_of_some _ _ haccept, whileLoop,
          loopBody_data_of_accept index pos h128 hn haccept]
        exact ⟨[], bytes, pos, h128, reads, rfl, rfl, rfl⟩
      | none =>
        obtain ⟨index', hbody⟩ :=
          loopBody_data_of_not_accept index pos h128 hn haccept
        rw [Recogniser.await_cons_of_none _ _ haccept, whileLoop, hbody]
        exact (ih (frameRecogniser_accept_eq_none_iff.mp haccept) hfit).cons _ hsplit

theorem processIMUFrames_refines (o : ByteOrder) (le : Bool) {reads : List ReadResult}
    (hfit : ScansFit (delivered reads)) :
    CallRefines [] reads (processIMUFrames o le [] reads)
      ((frameRecogniser o le).await [] (payloads reads)) :=
  whileLoop_refines reads acceptedAt?_nil hfit

/-- The state of `main`'s loop without what the recogniser does not see. -/
def MainState.toDrained (s : MainState) : Recogniser.Drained UInt8 ParsedPacket :=
  ⟨s.inputBuffer, payloads s.unread, s.broadcasts⟩

/-- **Successive calls.** The loop of `main` drains the stream with the recogniser. -/
theorem mainLoop_refines (n : ℕ) (reads : List ReadResult) (hfit : ScansFit (delivered reads)) :
    ∃ s, mainLoop o n [] reads = .ok s ∧
      s.toDrained = (frameRecogniser o (littleEndian o)).drain n (payloads reads) := by
  induction n generalizing reads with
  | zero => exact ⟨_, rfl, rfl⟩
  | succ n ih =>
    have hcall := processIMUFrames_refines o (littleEndian o) hfit
    cases hawait : (frameRecogniser o (littleEndian o)).await [] (payloads reads) with
    | none =>
      rw [hawait] at hcall
      obtain ⟨index', hloop⟩ := hcall
      refine ⟨⟨delivered reads, [], []⟩, ?_, ?_⟩
      · rw [mainLoop, hloop]
        rfl
      · rw [Recogniser.drain_succ_of_none _ _ hawait]
        rfl
    | some r =>
      obtain ⟨packet, cs⟩ := r
      rw [hawait] at hcall
      obtain ⟨-, -, -, -, unread, -, rfl, hloop⟩ := hcall
      obtain ⟨pre, c, hchunks, -, -⟩ := Recogniser.exists_of_await_nil _ hawait
      have hrest : delivered reads = (pre.flatten ++ c) ++ delivered unread := by
        simp [delivered, hchunks]
      obtain ⟨s, hs, hdrain⟩ := ih unread (hrest ▸ hfit).of_append
      refine ⟨{ s with broadcasts := packet :: s.broadcasts }, ?_, ?_⟩
      · rw [mainLoop, hloop]
        simp only [ok_bind, hs]
        rfl
      · rw [Recogniser.drain_succ_of_some _ _ hawait, ← hdrain]
        rfl

end IMUParser
