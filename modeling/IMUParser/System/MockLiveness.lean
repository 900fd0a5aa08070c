import Mathlib.Data.Fin.VecNotation
import Mathlib.Data.Fintype.EquivFin
import IMUParser.Library.Liveness
import IMUParser.System.MockImu

/-!
# The parser keeps broadcasting

As long as the port accepts whole frames, the parser process never gets stuck on the stream of the
mock IMU, not even when the payload contains a header: in an execution in which the mock IMU goes on
writing and the parser process goes on reading bytes that are there and ends its pauses, there are
more and more broadcasts (`mock_keepsBroadcasting`). The mock IMU does not wait for the parser, so
any number of frames may be written between two reads, and a read may end anywhere.

## Main definitions

* `WholeWrites`, `MockAction`, `MockState.rank`, `MockState.helpful`.

## Main results

* `Streaming.enabled`, `Streaming.rank_step`, `mock_progress`.
* `mock_keepsBroadcasting`.
-/

namespace IMUParser

open Transition

/-- The condition on the steps: no write fails or is short. -/
def WholeWrites (_ : MockState) : MockLabel → Prop
  | .write accepted => accepted = packetSize
  | .fail => False
  | _ => True

/-- The kinds of steps that are not put off for ever. -/
inductive MockAction
  | write
  | readData
  | wake

instance : Nonempty MockAction := ⟨.write⟩

instance : Finite MockAction :=
  .of_surjective (![.write, .readData, .wake] : Fin 3 → MockAction) fun
    | .write => ⟨0, rfl⟩
    | .readData => ⟨1, rfl⟩
    | .wake => ⟨2, rfl⟩

/-- The labels of these steps; a read must bring bytes. -/
def MockAction.labels : MockAction → Set MockLabel
  | .write => {.write packetSize}
  | .readData => {l | ∃ bytes pos le, l = .read (.data bytes pos le)}
  | .wake => {.wake}

namespace MockState

/-- How far the parser is from reading bytes: a pause, or an empty port, is in the way. -/
def rank (s : MockState) : ℕ :=
  if s.process.phase = .sleeping then 2 else if s.port = [] then 1 else 0

/-- The kind of step that brings it closer. -/
def helpful (s : MockState) : MockAction :=
  if s.process.phase = .sleeping then .wake else if s.port = [] then .write else .readData

end MockState

/-- The invariant of these executions. -/
structure Streaming (o : ByteOrder) (P : Packet) (s : MockState) : Prop where
  invariant : MockInvariant o P s
  whole : ∀ v ∈ s.writes, v.Whole
  running : s.ended = false

variable {o : ByteOrder} {P : Packet} {s s' : MockState} {l : MockLabel}

theorem streaming_initial : Streaming o P .initial := ⟨mockInvariant_initial, nofun, rfl⟩

theorem Streaming.step (h : Streaming o P s)
    (hstep : restrict (MockStep o P) WholeWrites s l s') : Streaming o P s' := by
  obtain ⟨hcond, hstep⟩ := hstep
  refine ⟨h.invariant.step hstep, ?_, ?_⟩
  · cases hstep with
    | @write accepted _ le =>
      obtain rfl : accepted = packetSize := hcond
      simpa [or_imp, forall_and, Write.Whole] using h.whole
    | receive => simpa using h.whole
    | _ => exact h.whole
  · cases hstep with
    | fail => exact hcond.elim
    | receive => simpa using h.running
    | _ => exact h.running

/-- A step that brings the parser closer to reading bytes can be made. -/
theorem Streaming.enabled (h : Streaming o P s) :
    Enabled (restrict (MockStep o P) WholeWrites) s.helpful.labels s := by
  have hfit := scansFit_of_dense (h.invariant.dense h.whole)
  cases hphase : s.process.phase with
  | faulted fault => exact absurd hphase (h.invariant.not_faulted hfit fault)
  | sleeping =>
    simp only [MockState.helpful, hphase, if_true]
    exact ⟨.wake, rfl, _, trivial, .wake hphase⟩
  | reading index =>
    by_cases hport : s.port = []
    · simp only [MockState.helpful, hphase, reduceCtorEq, if_false, hport, if_true]
      exact ⟨.write packetSize, rfl, _, rfl, .write h.running le_rfl⟩
    · simp only [MockState.helpful, hphase, reduceCtorEq, if_false, hport]
      obtain ⟨b, rest, hport⟩ := List.exists_cons_of_ne_nil hport
      exact ⟨_, ⟨[b], Nat.one_pos, Nat.one_le_ofNat, rfl⟩, _, trivial, .read hphase hport⟩

theorem MockState.rank_congr (hphase : s'.process.phase = s.process.phase)
    (hport : s'.port = s.port) : s'.rank = s.rank ∧ s'.helpful = s.helpful := by
  simp only [MockState.rank, MockState.helpful, hphase, hport, and_self]

/-- A read that brings nothing is of none of these kinds. -/
theorem MockAction.read_notMem_labels {r : ReadResult} (hr : r.bytes = []) (action : MockAction) :
    .read r ∉ action.labels := by
  cases action with
  | readData =>
    rintro ⟨bytes, pos, le, h⟩
    obtain rfl := MockLabel.read.inj h
    exact absurd hr (List.length_pos_iff.mp pos)
  | _ => nofun

/-- It leaves the parser where it is. -/
theorem MockState.rank_read_nothing {index : UInt8} {r : ReadResult} {rest : List UInt8}
    (hphase : s.process.phase = .reading index) (hport : s.port = r.bytes ++ rest)
    (hr : r.bytes = []) (hbody : loopBody o (littleEndian o) s.process.inputBuffer index r =
      .ok (.next s.process.inputBuffer index)) :
    let s' := { s with port := rest, reads := s.reads ++ [r] }.iterate o
      (loopBody o (littleEndian o) s.process.inputBuffer index r)
    s'.rank = s.rank ∧ s'.helpful = s.helpful ∧ .read r ∉ s.helpful.labels := by
  rw [hbody]
  have hrest : rest = s.port := by
    rw [hport, hr]
    rfl
  refine ⟨?_, ?_, MockAction.read_notMem_labels hr s.helpful⟩
  · exact (MockState.rank_congr hphase.symm hrest).1
  · exact (MockState.rank_congr hphase.symm hrest).2

/-- **The step lemma.** A step reads bytes, or brings the parser closer to it, or is of another kind
than the one that would. -/
theorem Streaming.rank_step (hstep : restrict (MockStep o P) WholeWrites s l s') :
    (delivered s.reads).length < (delivered s'.reads).length ∨
      (delivered s'.reads).length = (delivered s.reads).length ∧ (s'.rank < s.rank ∨
        s'.rank = s.rank ∧ s'.helpful = s.helpful ∧ l ∉ s.helpful.labels) := by
  obtain ⟨hcond, hstep⟩ := hstep
  cases hstep with
  | fail => exact hcond.elim
  | @write accepted _ le =>
    obtain rfl : accepted = packetSize := hcond
    refine Or.inr ⟨rfl, ?_⟩
    by_cases hsleep : s.process.phase = .sleeping
    · simp [MockState.rank, MockState.helpful, MockAction.labels, hsleep]
    · by_cases hport : s.port = []
      · left
        simp [MockState.rank, hsleep, hport, createFakePacket_eq_frame, Packet.frame, header,
          packetSize]
      · simp [MockState.rank, MockState.helpful, MockAction.labels, hsleep, hport]
  | @read index r rest hreading taken =>
    have hlen : (delivered (s.reads ++ [r])).length =
        (delivered s.reads).length + r.bytes.length := by
      rw [delivered_concat, List.length_append]
    cases r with
    | data bytes pos =>
      refine Or.inl ?_
      simp only [MockState.iterate, hlen, ReadResult.bytes]
      omega
    | empty => exact Or.inr ⟨hlen, Or.inr (MockState.rank_read_nothing hreading taken rfl rfl)⟩
    | fail => exact Or.inr ⟨hlen, Or.inr (MockState.rank_read_nothing hreading taken rfl rfl)⟩
  | wake hsleep =>
    refine Or.inr ⟨rfl, Or.inl ?_⟩
    simp only [MockState.rank, hsleep, if_true, reduceCtorEq, if_false]
    split_ifs <;> decide
  | lose =>
    obtain ⟨hrank, hhelpful⟩ := MockState.rank_congr (s := s) rfl rfl
    refine Or.inr ⟨rfl, Or.inr ⟨hrank, hhelpful, ?_⟩⟩
    cases s.helpful <;> simp [MockAction.labels]
  | @receive data rest =>
    have hphase : ({ s with datagrams := rest }.print (receiveBroadcast o data)).process.phase =
        s.process.phase := by simp
    obtain ⟨hrank, hhelpful⟩ := MockState.rank_congr hphase (by simp)
    refine Or.inr ⟨by simp, Or.inr ⟨hrank, hhelpful, ?_⟩⟩
    cases s.helpful <;> simp [MockAction.labels]

/-! ### Progress -/

/-- More bytes are read. -/
theorem mock_progress (n : ℕ) :
    Progress (restrict (MockStep o P) WholeWrites)
      (fun s => Streaming o P s ∧ (delivered s.reads).length = n)
      (fun s => n < (delivered s.reads).length) MockState.rank MockState.helpful
      MockAction.labels where
  enabled _ hs := hs.1.enabled
  next s l s' hs hstep := by
    obtain ⟨hstreaming, rfl⟩ := hs
    exact (Streaming.rank_step hstep).imp_right fun ⟨hlen, hrank⟩ =>
      ⟨⟨hstreaming.step hstep, hlen⟩, hrank⟩

/-- Any number of bytes are read. -/
theorem exists_le_length_delivered
    (E : Execution (restrict (MockStep o P) WholeWrites) .initial)
    (hfair : ∀ action : MockAction, E.WeaklyFair action.labels) (n : ℕ) :
    ∃ t, n ≤ (delivered (E.state t).reads).length := by
  induction n with
  | zero => exact ⟨0, Nat.zero_le _⟩
  | succ n ih =>
    obtain ⟨t, ht⟩ := ih
    have hstreaming := E.invariant streaming_initial (fun _ _ _ hs hstep => hs.step hstep) t
    obtain ⟨t', -, ht'⟩ := (mock_progress _).leadsTo E hfair t ⟨hstreaming, rfl⟩
    exact ⟨t', ht.trans_lt ht'⟩

/-- **The parser keeps broadcasting.** For a packet with any payload, in every execution without
failing and short writes that does not put off for ever to write, to read bytes that are there and
to end a pause: there are any number of broadcasts. -/
theorem mock_keepsBroadcasting (o : ByteOrder) (P : Packet)
    (E : Execution (restrict (MockStep o P) WholeWrites) .initial)
    (hfair : ∀ action : MockAction, E.WeaklyFair action.labels) (n : ℕ) :
    ∃ t, n ≤ (E.state t).process.broadcasts.length := by
  obtain ⟨t, ht⟩ := exists_le_length_delivered E hfair (166 * n)
  have hstreaming := E.invariant streaming_initial (fun _ _ _ hs hstep => hs.step hstep) t
  have hrate := hstreaming.invariant.length_delivered_le hstreaming.whole
  exact ⟨t, by omega⟩

/-- A packet whose count is the header, in an execution in which the kinds of steps take turns. -/
theorem mock_keepsBroadcasting_headerAsCount :
    ∃ E : Execution (restrict (MockStep .little ⟨0x7FF01CAF, 2, 3, 4⟩) WholeWrites) .initial,
      (∀ action : MockAction, E.WeaklyFair action.labels) ∧
      ∃ t, 1000 ≤ (E.state t).process.broadcasts.length := by
  obtain ⟨E, hfair⟩ := exists_weaklyFair
    (restrict (MockStep .little ⟨0x7FF01CAF, 2, 3, 4⟩) WholeWrites) .initial MockAction.labels
  exact ⟨E, hfair, mock_keepsBroadcasting .little _ E hfair 1000⟩

end IMUParser
