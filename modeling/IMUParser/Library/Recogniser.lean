import Mathlib.Data.List.Basic

/-!
# Recognisers fed in chunks

A *recogniser* reads values out of a growing buffer: it may accept a buffer, with a value, and a
buffer it has accepted stays accepted, with the same value, however it is extended. The stream that
feeds the buffer arrives in chunks, and the recogniser is asked after each of them.

One *call* (`Recogniser.await`) appends chunks to the buffer until it is accepted. Its value does
not depend on how the stream is cut into chunks (`Recogniser.await_map_fst`), only the chunk it
returns at does. *Draining* a stream (`Recogniser.drain`) makes call after call, each from an empty
buffer: whatever the accepting chunk carries beyond the recognised part is lost.

## Main definitions

* `Recogniser`, `Recogniser.await`, `Recogniser.drain`.

## Main results

* `Recogniser.await_eq_some_iff`: a call returns at the first chunk whose arrival makes the buffer
  acceptable.
* `Recogniser.drain_window`: what the buffer holds between two chunks is a window of the stream,
  and not acceptable.
* `Recogniser.drain_induction`: the rule for properties of the values of successive calls.
-/

/-- A test of buffers that, once it accepts a buffer, accepts all extensions with the same value. -/
structure Recogniser (α β : Type*) where
  /-- The value of an accepted buffer. -/
  accept : List α → Option β
  accept_nil : accept [] = none
  accept_append {l : List α} {b : β} (m : List α) : accept l = some b → accept (l ++ m) = some b

namespace Recogniser

variable {α β : Type*} (R : Recogniser α β) {l m : List α} {b : β}

/-! ### One call -/

/-- A call: chunks are appended to the buffer until it is accepted. It gives the value and the
chunks that it has not taken; `none` means that the chunks do not suffice. -/
def await : List α → List (List α) → Option (β × List (List α))
  | _, [] => none
  | buffer, c :: cs =>
    match R.accept (buffer ++ c) with
    | some b => some (b, cs)
    | none => await (buffer ++ c) cs

@[simp] theorem await_nil (buffer : List α) : R.await buffer [] = none := rfl

theorem await_cons_of_some {buffer c : List α} (cs : List (List α))
    (h : R.accept (buffer ++ c) = some b) : R.await buffer (c :: cs) = some (b, cs) := by
  simp only [await, h]

theorem await_cons_of_none {buffer c : List α} (cs : List (List α))
    (h : R.accept (buffer ++ c) = none) : R.await buffer (c :: cs) = R.await (buffer ++ c) cs := by
  simp only [await, h]

/-- The value of a call is that of the whole stream, however it is cut into chunks. -/
theorem await_map_fst (cs : List (List α)) :
    ∀ buffer, R.accept buffer = none →
      (R.await buffer cs).map Prod.fst = R.accept (buffer ++ cs.flatten) := by
  induction cs with
  | nil => intro buffer h; simpa using h.symm
  | cons c cs ih =>
    intro buffer _
    rw [List.flatten_cons, ← List.append_assoc]
    cases hc : R.accept (buffer ++ c) with
    | some b => rw [R.await_cons_of_some cs hc, R.accept_append cs.flatten hc]; rfl
    | none => rw [R.await_cons_of_none cs hc, ih _ hc]

theorem await_eq_none_iff {buffer : List α} {cs : List (List α)} (h : R.accept buffer = none) :
    R.await buffer cs = none ↔ R.accept (buffer ++ cs.flatten) = none := by
  rw [← R.await_map_fst cs buffer h, Option.map_eq_none_iff]

/-- A call returns at the chunk `c` exactly when the buffer is not acceptable before the arrival
of `c` and acceptable after it. -/
theorem await_eq_some_iff {cs rest : List (List α)} :
    ∀ {buffer : List α}, R.accept buffer = none →
      (R.await buffer cs = some (b, rest) ↔ ∃ pre c, cs = pre ++ c :: rest ∧
        R.accept (buffer ++ pre.flatten) = none ∧
        R.accept (buffer ++ pre.flatten ++ c) = some b) := by
  induction cs with
  | nil => simp
  | cons c cs ih =>
    intro buffer hbuf
    cases hc : R.accept (buffer ++ c) with
    | some v =>
      rw [R.await_cons_of_some cs hc, Option.some.injEq, Prod.mk.injEq]
      constructor
      · rintro ⟨rfl, rfl⟩
        exact ⟨[], c, rfl, by simpa using hbuf, by simpa using hc⟩
      · rintro ⟨pre, c', hcs, hnone, hsome⟩
        cases pre with
        | nil =>
          obtain ⟨rfl, rfl⟩ := List.cons.inj hcs
          simp only [List.flatten_nil, List.append_nil, hc, Option.some.injEq] at hsome
          exact ⟨hsome, rfl⟩
        | cons d pre =>
          obtain ⟨rfl, -⟩ := List.cons.inj hcs
          rw [List.flatten_cons, ← List.append_assoc, R.accept_append _ hc] at hnone
          exact absurd hnone (by simp)
    | none =>
      rw [R.await_cons_of_none cs hc, ih hc]
      constructor
      · rintro ⟨pre, c', rfl, hnone, hsome⟩
        exact ⟨c :: pre, c', rfl, by simpa using hnone, by simpa using hsome⟩
      · rintro ⟨pre, c', hcs, hnone, hsome⟩
        cases pre with
        | nil =>
          obtain ⟨rfl, -⟩ := List.cons.inj hcs
          simp [hc] at hsome
        | cons d pre =>
          obtain ⟨rfl, rfl⟩ := List.cons.inj hcs
          exact ⟨pre, c', rfl, by simpa using hnone, by simpa using hsome⟩

/-! ### Successive calls -/

/-- What successive calls leave and give. -/
structure Drained (α β : Type*) where
  /-- What has been read since the last accepted chunk. -/
  buffer : List α
  /-- The chunks not yet read. -/
  unread : List (List α)
  /-- The values of the calls that have returned. -/
  emitted : List β

/-- At most `n` successive calls on the chunks, each from an empty buffer. -/
def drain : ℕ → List (List α) → Drained α β
  | 0, cs => ⟨[], cs, []⟩
  | n + 1, cs =>
    match R.await [] cs with
    | none => ⟨cs.flatten, [], []⟩
    | some (b, rest) => { drain n rest with emitted := b :: (drain n rest).emitted }

@[simp] theorem drain_zero (cs : List (List α)) : R.drain 0 cs = ⟨[], cs, []⟩ := rfl

theorem drain_succ_of_none {cs : List (List α)} (n : ℕ) (h : R.await [] cs = none) :
    R.drain (n + 1) cs = ⟨cs.flatten, [], []⟩ := by
  simp only [drain, h]

theorem drain_succ_of_some {cs rest : List (List α)} (n : ℕ) (h : R.await [] cs = some (b, rest)) :
    R.drain (n + 1) cs =
      ⟨(R.drain n rest).buffer, (R.drain n rest).unread, b :: (R.drain n rest).emitted⟩ := by
  simp only [drain, h]

/-- A call gives at most one value. -/
theorem length_emitted_le (n : ℕ) (cs : List (List α)) : (R.drain n cs).emitted.length ≤ n := by
  induction n generalizing cs with
  | zero => exact Nat.le_refl 0
  | succ n ih =>
    cases h : R.await [] cs with
    | none =>
      rw [R.drain_succ_of_none n h]
      exact Nat.zero_le _
    | some r =>
      rw [R.drain_succ_of_some n h]
      exact Nat.succ_le_succ (ih r.2)

/-- A call that returns splits the stream into the window that it has read, which became
acceptable with its last chunk, and the chunks it has left. -/
theorem exists_of_await_nil {cs rest : List (List α)} (h : R.await [] cs = some (b, rest)) :
    ∃ pre c, cs = pre ++ c :: rest ∧ R.accept pre.flatten = none ∧
      R.accept (pre.flatten ++ c) = some b := by
  simpa using (R.await_eq_some_iff R.accept_nil).mp h

/-- **The window of the buffer.** The buffer holds what has been delivered since some point of the
stream, and it is not acceptable. -/
theorem drain_window (n : ℕ) (cs : List (List α)) :
    R.accept (R.drain n cs).buffer = none ∧
      ∃ d, cs.flatten = d ++ (R.drain n cs).buffer ++ (R.drain n cs).unread.flatten := by
  induction n generalizing cs with
  | zero => exact ⟨R.accept_nil, [], by simp⟩
  | succ n ih =>
    cases h : R.await [] cs with
    | none =>
      rw [R.drain_succ_of_none n h]
      exact ⟨by simpa using (R.await_eq_none_iff R.accept_nil).mp h, [], by simp⟩
    | some r =>
      obtain ⟨b, rest⟩ := r
      obtain ⟨pre, c, rfl, -, -⟩ := R.exists_of_await_nil h
      obtain ⟨hnone, d, hd⟩ := ih rest
      rw [R.drain_succ_of_some n h]
      exact ⟨hnone, pre.flatten ++ c ++ d, by simp [hd]⟩

/-- **The rule for successive calls.** A property of the stream read so far, the chunks to come and
the values to come holds of every run when it holds of no values, and is inherited by a call from
the calls behind it. -/
theorem drain_induction {Q : List α → List (List α) → List β → Prop}
    (nil : ∀ d cs, Q d cs [])
    (emit : ∀ d pre c rest b em, R.accept pre.flatten = none →
      R.accept (pre.flatten ++ c) = some b →
      Q (d ++ (pre.flatten ++ c)) rest em → Q d (pre ++ c :: rest) (b :: em))
    (n : ℕ) (d : List α) (cs : List (List α)) : Q d cs (R.drain n cs).emitted := by
  induction n generalizing d cs with
  | zero => exact nil d cs
  | succ n ih =>
    cases h : R.await [] cs with
    | none => rw [R.drain_succ_of_none n h]; exact nil d cs
    | some r =>
      obtain ⟨b, rest⟩ := r
      obtain ⟨pre, c, rfl, hnone, hsome⟩ := R.exists_of_await_nil h
      rw [R.drain_succ_of_some n h]
      exact emit d pre c rest b _ hnone hsome (ih _ rest)

end Recogniser
