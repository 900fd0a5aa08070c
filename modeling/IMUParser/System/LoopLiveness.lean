import Mathlib.Data.Fin.VecNotation
import Mathlib.Data.Fintype.EquivFin
import IMUParser.Library.Liveness
import IMUParser.System.DriverChecks

/-!
# Every packet of the loop test comes back

`loop_agreement` says what has been received; this file says that it will be. In an execution in
which the driver does not put off for ever to send and to receive, nor the parser process to read
bytes that are there and to end its pauses, the datagram of a packet is received if and only if the
driver has not ended before, on a gyro rate that is a NaN (`loop_receives`). So the datagrams of all
packets are received when all rates are numbers, however long the sequence of packets is, whatever
else the payloads are and however the reads cut up the frames.

Reads that bring nothing may occur as often as they like. The rank of a state counts what is left of
a round: the frame to send, the bytes to read and the pause before the next read.

## Main definitions

* `LoopAction`, `LoopState.rank`, `LoopState.helpful`.

## Main results

* `LoopInvariant.enabled`, `LoopInvariant.rank_step`, `loop_progress`.
* `loop_receives`.
-/

namespace IMUParser

open Transition

/-- The kinds of steps that are not put off for ever. -/
inductive LoopAction
  | send
  | receive
  | readData
  | wake

instance : Nonempty LoopAction := ⟨.send⟩

instance : Finite LoopAction :=
  .of_surjective (![.send, .receive, .readData, .wake] : Fin 4 → LoopAction) fun
    | .send => ⟨0, rfl⟩
    | .receive => ⟨1, rfl⟩
    | .readData => ⟨2, rfl⟩
    | .wake => ⟨3, rfl⟩

/-- The labels of these steps; a read must bring bytes. -/
def LoopAction.labels : LoopAction → Set LoopLabel
  | .send => {.send}
  | .receive => {.receive}
  | .readData => {l | ∃ bytes pos le, l = .read (.data bytes pos le)}
  | .wake => {.wake}

namespace LoopState

/-- What is left of the round until a datagram is under way. -/
def rank (s : LoopState) : ℕ :=
  if s.awaiting then
    if s.datagrams = [] then
      if s.parser = .sleeping then 2 * s.port.length + 2 else 2 * s.port.length + 1
    else 0
  else 43

/-- The kind of step that brings the round forward. -/
def helpful (s : LoopState) : LoopAction :=
  if s.awaiting then
    if s.datagrams = [] then
      if s.parser = .sleeping then .wake else .readData
    else .receive
  else .send

variable {s : LoopState}

theorem rank_of_idle (ha : s.awaiting = false) : s.rank = 43 ∧ s.helpful = .send := by
  simp [rank, helpful, ha]

theorem rank_of_answered (ha : s.awaiting = true) (hd : s.datagrams ≠ []) :
    s.rank = 0 ∧ s.helpful = .receive := by
  simp [rank, helpful, ha, hd]

theorem rank_of_sleeping (ha : s.awaiting = true) (hd : s.datagrams = [])
    (hp : s.parser = .sleeping) : s.rank = 2 * s.port.length + 2 ∧ s.helpful = .wake := by
  simp [rank, helpful, ha, hd, hp]

theorem rank_of_reading {index : UInt8} (ha : s.awaiting = true) (hd : s.datagrams = [])
    (hp : s.parser = .reading index) : s.rank = 2 * s.port.length + 1 ∧ s.helpful = .readData := by
  simp [rank, helpful, ha, hd, hp]

end LoopState

variable {o : ByteOrder} {packets : Stream'.Seq Packet} {s s' : LoopState} {l : LoopLabel}
  {P : Packet}

/-- A step that brings the round forward can be made. -/
theorem LoopInvariant.enabled (h : LoopInvariant o packets s)
    (hnext : packets.get? s.count = some P) :
    Enabled (LoopStep o packets) s.helpful.labels s := by
  cases h.round with
  | idle ha =>
    rw [(LoopState.rank_of_idle ha).2]
    exact ⟨.send, rfl, _, .send ha hnext⟩
  | answered Q ha _ hd =>
    rw [(LoopState.rank_of_answered ha (by simp [hd])).2]
    exact ⟨.receive, rfl, _, .receive ha hd⟩
  | underWay Q ha _ hd _ hp =>
    cases hparser : s.parser with
    | faulted fault => exact absurd hparser (h.not_faulted fault)
    | sleeping =>
      rw [(LoopState.rank_of_sleeping ha hd hparser).2]
      exact ⟨.wake, rfl, _, .wake hparser⟩
    | reading index =>
      rw [(LoopState.rank_of_reading ha hd hparser).2]
      obtain ⟨b, rest, hport⟩ := List.exists_cons_of_ne_nil hp
      exact ⟨_, ⟨[b], Nat.one_pos, Nat.one_le_ofNat, rfl⟩, _, .read hparser hport⟩

/-- A read that brings bytes brings the round forward. -/
theorem LoopInvariant.rank_read_data (h : LoopInvariant o packets s) {index : UInt8}
    (hreading : s.parser = .reading index) {bytes rest : List UInt8} (pos : 0 < bytes.length)
    (hport : s.port = bytes ++ rest) {result : Except Fault Iteration}
    (h' : LoopInvariant o packets
      ({ s with port := rest, bytesRead := s.bytesRead + bytes.length }.iterate o result)) :
    ({ s with port := rest, bytesRead := s.bytesRead + bytes.length }.iterate o result).rank <
      s.rank := by
  have hlen := congrArg List.length hport
  rw [List.length_append] at hlen
  cases h.round with
  | idle _ _ _ hp => simp only [hp, List.length_nil] at hlen; omega
  | answered _ _ _ _ _ hp => simp only [hp, List.length_nil] at hlen; omega
  | underWay _ ha _ hd =>
    rw [(LoopState.rank_of_reading ha hd hreading).1]
    cases result with
    | error fault => exact absurd rfl (h'.not_faulted fault)
    | ok iteration =>
      cases iteration with
      | next l index' =>
        simp only [LoopState.iterate, LoopState.rank, ha, hd, if_true, reduceCtorEq, if_false]
        omega
      | sent packet l =>
        simp only [LoopState.iterate, LoopState.rank, ha, hd, List.nil_append, if_true,
          reduceCtorEq, if_false]
        exact Nat.succ_pos _

/-- A read that brings nothing is of none of these kinds. -/
theorem LoopAction.read_notMem_labels {r : ReadResult} (hr : r.bytes = []) (action : LoopAction) :
    .read r ∉ action.labels := by
  cases action with
  | readData =>
    rintro ⟨bytes, pos, le, h⟩
    obtain rfl := LoopLabel.read.inj h
    exact absurd hr (List.length_pos_iff.mp pos)
  | _ => nofun

/-- It leaves the round as it is. -/
theorem LoopState.rank_read_nothing {index : UInt8} {r : ReadResult}
    (hreading : s.parser = .reading index) (hr : r.bytes = []) (n : ℕ) :
    LoopState.rank { s with parser := .reading index, bytesRead := n } = s.rank ∧
      LoopState.helpful { s with parser := .reading index, bytesRead := n } = s.helpful ∧
      .read r ∉ s.helpful.labels := by
  refine ⟨?_, ?_, LoopAction.read_notMem_labels hr s.helpful⟩
  · simp only [LoopState.rank, hreading]
  · simp only [LoopState.helpful, hreading]

/-- **The step lemma.** A step ends the round, or brings it forward, or is of another kind than the
one that would. -/
theorem LoopInvariant.rank_step (h : LoopInvariant o packets s)
    (hstep : LoopStep o packets s l s') :
    s'.count = s.count + 1 ∨ s'.count = s.count ∧ (s'.rank < s.rank ∨
      s'.rank = s.rank ∧ s'.helpful = s.helpful ∧ l ∉ s.helpful.labels) := by
  have h' := h.step hstep
  cases hstep with
  | receive => exact Or.inl rfl
  | send idle next =>
    refine Or.inr ⟨rfl, Or.inl ?_⟩
    cases h.round with
    | underWay _ ha => exact absurd (idle.symm.trans ha) Bool.false_ne_true
    | answered _ ha => exact absurd (idle.symm.trans ha) Bool.false_ne_true
    | idle _ hd _ hp =>
      rw [(LoopState.rank_of_idle idle).1]
      simp only [LoopState.rank, hd, hp, createFakePacket_eq_frame, List.nil_append,
        Packet.length_frame, if_true]
      split_ifs <;> decide
  | wake sleeping =>
    refine Or.inr ⟨rfl, ?_⟩
    cases h.round with
    | idle ha =>
      simp [LoopState.rank, LoopState.helpful, LoopAction.labels, ha]
    | answered _ ha _ hd =>
      simp [LoopState.rank, LoopState.helpful, LoopAction.labels, ha, hd]
    | underWay _ ha _ hd =>
      left
      rw [(LoopState.rank_of_sleeping ha hd sleeping).1]
      simp [LoopState.rank, ha, hd]
  | @read index r rest reading taken =>
    cases r with
    | data bytes pos h128 =>
      exact Or.inr ⟨LoopState.iterate_count _ o _, Or.inl (h.rank_read_data reading pos taken h')⟩
    | empty =>
      obtain rfl : s.port = rest := taken
      exact Or.inr ⟨rfl, Or.inr (LoopState.rank_read_nothing reading rfl _)⟩
    | fail =>
      obtain rfl : s.port = rest := taken
      exact Or.inr ⟨rfl, Or.inr (LoopState.rank_read_nothing reading rfl _)⟩

/-! ### Progress -/

variable {n : ℕ}

/-- While the driver has not ended and there is a packet to send, its round is brought to an end. -/
theorem loop_progress (hnext : packets.get? n = some P)
    (hnumbers : ∀ k < n, ∀ Q, packets.get? k = some Q → nanField? Q = none) :
    Progress (CheckedLoopStep o packets) (fun s => CheckedLoopInvariant o packets s ∧ s.count = n)
      (fun s => s.count = n + 1) LoopState.rank LoopState.helpful LoopAction.labels where
  enabled s hs := by
    obtain ⟨hinv, rfl⟩ := hs
    obtain ⟨l, hl, s', hstep⟩ := hinv.loop.enabled hnext
    exact ⟨l, hl, s', (hinv.loop.driverRuns_iff.mpr hnumbers).driverMakes l, hstep⟩
  next s l s' hs hstep := by
    obtain ⟨hinv, rfl⟩ := hs
    exact (hinv.loop.rank_step hstep.2).imp_right fun ⟨hcount, hrank⟩ =>
      ⟨⟨hinv.step hstep, hcount⟩, hrank⟩

/-- All rounds until the driver ends are brought to an end. -/
theorem exists_count_eq (E : Execution (CheckedLoopStep o packets) .initial)
    (hfair : ∀ action : LoopAction, E.WeaklyFair action.labels) (hnext : packets.get? n = some P)
    (hnumbers : ∀ k < n, ∀ Q, packets.get? k = some Q → nanField? Q = none) :
    ∃ t, (E.state t).count = n + 1 := by
  have hinv := E.invariant checkedLoopInvariant_initial fun _ _ _ hs hstep => hs.step hstep
  induction n generalizing P with
  | zero =>
    obtain ⟨t, -, ht⟩ := (loop_progress hnext hnumbers).leadsTo E hfair 0
      ⟨hinv 0, by rw [E.start]; rfl⟩
    exact ⟨t, ht⟩
  | succ n ih =>
    obtain ⟨Q, hQ⟩ := packets.ge_stable (Nat.le_succ n) hnext
    obtain ⟨t, ht⟩ := ih hQ fun k hk => hnumbers k (Nat.lt_succ_of_lt hk)
    obtain ⟨t', -, ht'⟩ := (loop_progress hnext hnumbers).leadsTo E hfair t ⟨hinv t, ht⟩
    exact ⟨t', ht'⟩

/-- **Every packet comes back until the driver ends.** In every execution, with a driver that ends
when a check fails, that does not put off for ever to send, to receive, to read bytes that are there
and to end a pause: for each packet of the finite or infinite sequence, the driver at some time has
received a datagram, in its place, that it unpacks to the packet, if and only if no packet before it
has a gyro rate that is a NaN. -/
theorem loop_receives (o : ByteOrder) (packets : Stream'.Seq Packet)
    (E : Execution (CheckedLoopStep o packets) .initial)
    (hfair : ∀ action : LoopAction, E.WeaklyFair action.labels) (n : ℕ) (P : Packet)
    (hnext : packets.get? n = some P) :
    (∃ t data, (E.state t).received[n]? = some data ∧ unpackNative o data = some P) ↔
      ∀ k < n, ∀ Q, packets.get? k = some Q → nanField? Q = none := by
  have hinv := E.invariant checkedLoopInvariant_initial fun _ _ _ hs hstep => hs.step hstep
  refine ⟨fun ⟨t, data, hdata, _⟩ k hk => (hinv t).passed k ?_, fun hnumbers => ?_⟩
  · obtain ⟨hn, -⟩ := List.getElem?_eq_some_iff.mp hdata
    rw [(hinv t).loop.count] at hn
    exact (Nat.succ_le_of_lt hk).trans_lt hn
  · obtain ⟨t, ht⟩ := exists_count_eq E hfair hnext hnumbers
    refine ⟨t, datagram o P, ?_, unpackNative_image o P.toParsed⟩
    rw [(hinv t).loop.received, ht, List.getElem?_map, Stream'.Seq.getElem?_take,
      if_pos (Nat.lt_succ_self n), hnext, Option.map_some]

/-- Of three packets, the second one with a header as its first gyro rate, which is a NaN, the first
two come back, in an execution in which the kinds of steps take turns. -/
theorem loop_receives_nan :
    let packets : Stream'.Seq Packet :=
      .ofList [⟨1, 2, 3, 4⟩, ⟨2, 0x7FF01CAF, 3, 4⟩, ⟨3, 2, 3, 4⟩]
    ∃ E : Execution (CheckedLoopStep .little packets) .initial,
      (∀ action : LoopAction, E.WeaklyFair action.labels) ∧
      (∃ t data, (E.state t).received[1]? = some data ∧
        unpackNative .little data = some ⟨2, 0x7FF01CAF, 3, 4⟩) ∧
      ¬ ∃ t data, (E.state t).received[2]? = some data ∧
        unpackNative .little data = some ⟨3, 2, 3, 4⟩ := by
  intro packets
  obtain ⟨E, hfair⟩ := exists_weaklyFair (CheckedLoopStep .little packets) .initial
    LoopAction.labels
  refine ⟨E, hfair, (loop_receives .little packets E hfair 1 _ rfl).mpr fun k hk Q hQ => ?_,
    fun h => ?_⟩
  · obtain rfl : k = 0 := Nat.lt_one_iff.mp hk
    obtain rfl := Option.some.inj hQ
    decide
  · have hpassed := (loop_receives .little packets E hfair 2 _ rfl).mp h 1 Nat.one_lt_two _ rfl
    exact absurd hpassed (by decide)

end IMUParser
