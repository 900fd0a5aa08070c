import IMUParser.System.LoopTester

/-!
# The loop test when datagrams get lost

A datagram can get lost on its way to the driver. What the driver has received is right all the
same. But it waits for the answer without a time limit and sends no frame meanwhile, so the first
loss ends the exchange: in every state reached afterwards only the phase of the parser process
differs (`lossyLoop_stuck`).

## Main definitions

* `LossyLoopLabel`, `LossyLoopStep`: the steps of the loop test, and the loss of a datagram.
* `Deadlocked`.

## Main results

* `Deadlocked.step`, `Deadlocked.of_lose`.
* `lossyLoop_stuck`.
-/

namespace IMUParser

open Transition

/-- The kinds of steps: those of the loop test, and a loss. -/
inductive LossyLoopLabel
  | step (l : LoopLabel)
  | lose

/-- The steps of the loop test when any datagram under way may get lost. -/
inductive LossyLoopStep (o : ByteOrder) (packets : Stream'.Seq Packet) :
    LoopState → LossyLoopLabel → LoopState → Prop
  | step {s s' : LoopState} {l : LoopLabel} (h : LoopStep o packets s l s') :
      LossyLoopStep o packets s (.step l) s'
  | lose {s : LoopState} {data : List UInt8} {before behind : List (List UInt8)}
      (sent : s.datagrams = before ++ data :: behind) :
      LossyLoopStep o packets s .lose { s with datagrams := before ++ behind }

/-- The driver waits for a datagram, none is under way, and there is nothing to read. -/
structure Deadlocked (s : LoopState) : Prop where
  awaiting : s.awaiting = true
  datagrams : s.datagrams = []
  port : s.port = []
  not_faulted : ∀ fault, s.parser ≠ .faulted fault

variable {o : ByteOrder} {packets : Stream'.Seq Packet} {s s' : LoopState} {l : LossyLoopLabel}

/-- Another phase of the parser process, not behind a fault. -/
theorem Deadlocked.of_phase (h : Deadlocked s) {phase : ParserPhase}
    (hphase : ∀ fault, phase ≠ .faulted fault) : Deadlocked { s with parser := phase } :=
  ⟨h.awaiting, h.datagrams, h.port, hphase⟩

/-- **The step lemma.** All that can happen are reads that bring nothing, and the end of the
pause. -/
theorem Deadlocked.step (h : Deadlocked s) (hstep : LossyLoopStep o packets s l s') :
    Deadlocked s' ∧ ∃ phase, s' = { s with parser := phase } := by
  cases hstep with
  | step hstep =>
    cases hstep with
    | send idle => exact absurd (idle.symm.trans h.awaiting) Bool.false_ne_true
    | receive _ arrived => exact absurd (h.datagrams.symm.trans arrived) nofun
    | @read index r rest _ taken =>
      cases r with
      | data bytes pos =>
        obtain ⟨hbytes, -⟩ := List.append_eq_nil_iff.mp (taken.symm.trans h.port)
        exact absurd (List.length_pos_iff.mp pos) (not_not.mpr hbytes)
      | empty =>
        obtain rfl : s.port = rest := taken
        exact ⟨h.of_phase nofun, .reading index, rfl⟩
      | fail =>
        obtain rfl : s.port = rest := taken
        exact ⟨h.of_phase nofun, .reading index, rfl⟩
    | wake => exact ⟨h.of_phase nofun, .reading 0, rfl⟩
  | lose sent => exact absurd (h.datagrams.symm.trans sent) (by simp)

/-- Nothing but the phase of the parser process ever changes. -/
theorem Deadlocked.of_reachable (h : Deadlocked s)
    (hreach : Reachable (LossyLoopStep o packets) s s') :
    ∃ phase, s' = { s with parser := phase } := by
  refine (hreach.invariant (I := fun t => Deadlocked t ∧ ∃ phase, t = { s with parser := phase })
    ⟨h, s.parser, rfl⟩ ?_).2
  rintro t l t' ⟨hdeadlocked, phase, rfl⟩ hstep
  obtain ⟨hdeadlocked', phase', rfl⟩ := hdeadlocked.step hstep
  exact ⟨hdeadlocked', phase', rfl⟩

/-- The datagram that gets lost is the only one, and all bytes have been read. -/
theorem Deadlocked.of_lose (h : LoopInvariant o packets s)
    (hlose : LossyLoopStep o packets s .lose s') :
    Deadlocked s' := by
  cases hlose with
  | @lose data before behind sent =>
    cases h.round with
    | idle _ hd => exact absurd (hd.symm.trans sent) (by simp)
    | underWay _ _ _ hd => exact absurd (hd.symm.trans sent) (by simp)
    | answered P ha _ hd _ hp =>
      have hlen := congrArg List.length (hd.symm.trans sent)
      simp only [List.length_append, List.length_cons, List.length_nil] at hlen
      have hnone : before ++ behind = [] := List.eq_nil_of_length_eq_zero (by
        rw [List.length_append]
        omega)
      exact ⟨ha, hnone, hp, h.not_faulted⟩

/-- The invariant: that of the loop test before a loss, and a deadlock after it. -/
structure LossyLoopInvariant (o : ByteOrder) (packets : Stream'.Seq Packet) (s : LoopState) :
    Prop where
  phase : LoopInvariant o packets s ∨ Deadlocked s
  received : s.received = (packets.take s.count).map (datagram o)

theorem LossyLoopInvariant.step (h : LossyLoopInvariant o packets s)
    (hstep : LossyLoopStep o packets s l s') : LossyLoopInvariant o packets s' := by
  rcases h.phase with hloop | hdeadlocked
  · cases hstep with
    | step hstep => exact ⟨Or.inl (hloop.step hstep), (hloop.step hstep).received⟩
    | lose sent => exact ⟨Or.inr (.of_lose hloop (.lose sent)), h.received⟩
  · obtain ⟨hdeadlocked', phase, rfl⟩ := hdeadlocked.step hstep
    exact ⟨Or.inr hdeadlocked', h.received⟩

/-- **A lost datagram ends the exchange.** In every state reached, the parser has not faulted and
the driver has received the datagrams of the packets it has gone through; and if a datagram gets
lost there, the driver waits for ever: in every state reached afterwards only the phase of the
parser process differs, so nothing is sent, received or lost again. -/
theorem lossyLoop_stuck (o : ByteOrder) (packets : Stream'.Seq Packet) (s : LoopState)
    (h : Reachable (LossyLoopStep o packets) .initial s) :
    (∀ fault, s.parser ≠ .faulted fault) ∧
      s.received = (packets.take s.count).map (datagram o) ∧
      ∀ lost, LossyLoopStep o packets s .lose lost →
        lost.awaiting = true ∧ lost.datagrams = [] ∧ lost.port = [] ∧
          ∀ s', Reachable (LossyLoopStep o packets) lost s' →
            ∃ phase, s' = { lost with parser := phase } := by
  have hinv : LossyLoopInvariant o packets s :=
    h.invariant ⟨Or.inl loopInvariant_initial, loopInvariant_initial.received⟩
      fun _ _ _ hs hstep => hs.step hstep
  refine ⟨?_, hinv.received, fun lost hlose => ?_⟩
  · exact hinv.phase.elim LoopInvariant.not_faulted Deadlocked.not_faulted
  · have hlost : Deadlocked lost := by
      rcases hinv.phase with hloop | hdeadlocked
      · exact .of_lose hloop hlose
      · exact (hdeadlocked.step hlose).1
    exact ⟨hlost.awaiting, hlost.datagrams, hlost.port, fun s' => hlost.of_reachable⟩

/-- The datagram of the first packet gets lost. -/
theorem lossyLoop_stuck_firstDatagram :
    ∃ s lost, Reachable (LossyLoopStep .little (.ofList [⟨1, 2, 3, 4⟩, ⟨2, 3, 4, 5⟩])) .initial s ∧
      LossyLoopStep .little (.ofList [⟨1, 2, 3, 4⟩, ⟨2, 3, 4, 5⟩]) s .lose lost ∧
      lost.awaiting = true ∧ ∀ s',
        Reachable (LossyLoopStep .little (.ofList [⟨1, 2, 3, 4⟩, ⟨2, 3, 4, 5⟩])) lost s' →
          ∃ phase, s' = { lost with parser := phase } := by
  let P : Packet := ⟨1, 2, 3, 4⟩
  have hstart : Reachable (LossyLoopStep .little (.ofList [P, ⟨2, 3, 4, 5⟩])) .initial .initial :=
    .start
  have hsend := hstart.next (.step (.send (P := P) rfl rfl))
  have hread := hsend.next (.step (.read (r := .data P.frame (by decide) (by decide)) rfl
    (show _ = P.frame ++ [] by decide)))
  obtain ⟨s, hreach, hsent⟩ : ∃ s, Reachable (LossyLoopStep .little (.ofList [P, ⟨2, 3, 4, 5⟩]))
      .initial s ∧ s.datagrams = [] ++ datagram .little P :: [] :=
    ⟨_, hread, by decide +kernel⟩
  obtain ⟨-, -, hlost⟩ := lossyLoop_stuck .little _ s hreach
  obtain ⟨hawaiting, -, -, hstuck⟩ := hlost _ (.lose hsent)
  exact ⟨s, _, hreach, .lose hsent, hawaiting, hstuck⟩

end IMUParser
