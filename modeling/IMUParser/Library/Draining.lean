import IMUParser.Library.Recogniser

/-!
# Draining a stream: windows and finer chunks

Draining a stream in chunks cuts it into windows, one for each value, and loses what a window
carries beyond the recognised part. How much is lost depends on the chunks. This file compares the
chunkings of one stream.

A recogniser is *left closed* when bytes in front of an accepted buffer do not keep it from being
accepted, with whatever value. Then each call on finer chunks returns no later than the call on the
coarser ones that it corresponds to, and so starts no later; by induction a finer chunking gives at
least as many values (`Recogniser.length_emitted_le_of_finer`). When the chunks are parts of windows
that are accepted as a whole and not before, nothing is lost (`Recogniser.drain_of_finer`).

## Main definitions

* `Recogniser.Finer`: one list of chunks arises from another one by cutting up the chunks.
* `Recogniser.LeftClosed`.

## Main results

* `Recogniser.drain_rule`: the rule for what successive calls leave and give.
* `Recogniser.length_emitted_le_of_finer`, `Recogniser.drain_of_finer`.
-/

namespace Recogniser

variable {α β : Type*} {R : Recogniser α β} {l m : List α} {b : β} {fs cs : List (List α)}

/-! ### The rule for successive calls -/

/-- **The rule for what successive calls leave and give**, in terms of the stream `d` read so far
and the chunks to come: no call is made, or a call waits, or a call returns and others follow. -/
theorem drain_rule (R : Recogniser α β) {Q : List α → List (List α) → Drained α β → Prop}
    (stop : ∀ d cs, Q d cs ⟨[], cs, []⟩)
    (wait : ∀ d cs, R.accept cs.flatten = none → Q d cs ⟨cs.flatten, [], []⟩)
    (emit : ∀ d pre c rest b r, R.accept pre.flatten = none →
      R.accept (pre.flatten ++ c) = some b → Q (d ++ (pre.flatten ++ c)) rest r →
        Q d (pre ++ c :: rest) ⟨r.buffer, r.unread, b :: r.emitted⟩)
    (n : ℕ) (d : List α) (cs : List (List α)) : Q d cs (R.drain n cs) := by
  induction n generalizing d cs with
  | zero => exact stop d cs
  | succ n ih =>
    cases h : R.await [] cs with
    | none =>
      rw [R.drain_succ_of_none n h]
      exact wait d cs (by simpa using (R.await_eq_none_iff R.accept_nil).mp h)
    | some r =>
      obtain ⟨b, rest⟩ := r
      obtain ⟨pre, c, rfl, hnone, hsome⟩ := R.exists_of_await_nil h
      rw [R.drain_succ_of_some n h]
      exact emit d pre c rest b _ hnone hsome (ih _ rest)

/-- If not all calls return, all chunks are read. -/
theorem unread_eq_nil_of_length_lt {n : ℕ} (h : (R.drain n cs).emitted.length < n) :
    (R.drain n cs).unread = [] := by
  induction n generalizing cs with
  | zero => exact absurd h (Nat.not_lt_zero _)
  | succ n ih =>
    cases hawait : R.await [] cs with
    | none => rw [R.drain_succ_of_none n hawait]
    | some r =>
      rw [R.drain_succ_of_some n hawait] at h ⊢
      exact ih (Nat.lt_of_succ_lt_succ h)

/-! ### Finer chunks -/

/-- The chunks `fs` arise from the chunks `cs` by cutting up each of them. -/
inductive Finer : List (List α) → List (List α) → Prop
  | nil : Finer [] []
  | cons (parts : List (List α)) {fs cs : List (List α)} (h : Finer fs cs) :
      Finer (parts ++ fs) (parts.flatten :: cs)

namespace Finer

/-- Finer chunks are split where the coarser ones are. -/
theorem split {pre rest : List (List α)} (h : Finer fs (pre ++ rest)) :
    ∃ fpre frest, fs = fpre ++ frest ∧ fpre.flatten = pre.flatten ∧ Finer frest rest := by
  induction pre generalizing fs with
  | nil => exact ⟨[], fs, rfl, rfl, h⟩
  | cons c pre ih =>
    cases h with
    | cons parts h =>
      obtain ⟨fpre, frest, rfl, hpre, hrest⟩ := ih h
      exact ⟨parts ++ fpre, frest, by simp, by simp [hpre], hrest⟩

theorem flatten_eq (h : Finer fs cs) : fs.flatten = cs.flatten := by
  induction h with
  | nil => rfl
  | cons parts _ ih => simp [ih]

end Finer

/-- What stands in front of an accepted buffer does not keep it from being accepted. -/
def LeftClosed (R : Recogniser α β) : Prop :=
  ∀ d {l : List α}, (R.accept l).isSome → (R.accept (d ++ l)).isSome

/-- A call returns by the end of chunks that bring about an acceptable buffer. -/
theorem exists_await_append {buffer : List α} (xs ys : List (List α))
    (hbuffer : R.accept buffer = none) (h : (R.accept (buffer ++ xs.flatten)).isSome) :
    ∃ b rest, R.await buffer (xs ++ ys) = some (b, rest ++ ys) := by
  induction xs generalizing buffer with
  | nil =>
    rw [List.flatten_nil, List.append_nil, hbuffer] at h
    exact absurd h (by simp)
  | cons x xs ih =>
    cases hx : R.accept (buffer ++ x) with
    | some b => exact ⟨b, xs, R.await_cons_of_some _ hx⟩
    | none =>
      obtain ⟨b, rest, hawait⟩ := ih hx (by simpa using h)
      exact ⟨b, rest, (R.await_cons_of_none _ hx).trans hawait⟩

/-- **Finer chunks give at least as many values.** The finer chunks may start with further ones:
the calls on them stay ahead. -/
theorem length_emitted_le_of_finer (hR : R.LeftClosed) (ahead : List (List α)) (n : ℕ)
    (h : Finer fs cs) :
    (R.drain n cs).emitted.length ≤ (R.drain n (ahead ++ fs)).emitted.length := by
  induction n generalizing ahead fs cs with
  | zero => exact Nat.le_refl 0
  | succ n ih =>
    cases hawait : R.await [] cs with
    | none =>
      rw [R.drain_succ_of_none n hawait]
      exact Nat.zero_le _
    | some r =>
      obtain ⟨b, rest⟩ := r
      obtain ⟨pre, c, rfl, -, hsome⟩ := R.exists_of_await_nil hawait
      rw [List.append_cons] at h
      obtain ⟨fpre, frest, rfl, hflatten, hrest⟩ := h.split
      -- the window of the coarser chunks ends a longer one of the finer chunks
      have haccept : (R.accept ([] ++ (ahead ++ fpre).flatten)).isSome := by
        rw [List.nil_append, List.flatten_append, hflatten]
        exact hR _ (by simp [hsome])
      obtain ⟨b', left, hawait'⟩ := exists_await_append (ahead ++ fpre) frest R.accept_nil haccept
      rw [List.append_assoc] at hawait'
      rw [R.drain_succ_of_some n hawait, R.drain_succ_of_some n hawait']
      exact Nat.succ_le_succ (ih left hrest)

/-! ### Chunks of accepted windows -/

/-- The window `w` is accepted as a whole and not before. -/
structure Exact (R : Recogniser α β) (w : List α) (b : β) : Prop where
  accept : R.accept w = some b
  accept_eq_none : ∀ {p : List α}, p <+: w → p ≠ w → R.accept p = none

/-- A call on the parts of such a window returns at its end. -/
theorem Exact.await {w : List α} (h : R.Exact w b) {parts : List (List α)}
    (hparts : parts.flatten = w) (hne : ∀ c ∈ parts, c ≠ []) (rest : List (List α)) :
    R.await [] (parts ++ rest) = some (b, rest) := by
  rcases List.eq_nil_or_concat' parts with rfl | ⟨pre, c, rfl⟩
  · rw [← hparts, List.flatten_nil] at h
    exact absurd (R.accept_nil.symm.trans h.accept) (by simp)
  · have hsplit : pre.flatten ++ c = w := by simpa using hparts
    refine (R.await_eq_some_iff R.accept_nil).mpr ⟨pre, c, by simp, ?_, ?_⟩
    · rw [List.nil_append]
      refine h.accept_eq_none ⟨c, hsplit⟩ fun heq => hne c (by simp) ?_
      rwa [← heq, List.append_right_eq_self] at hsplit
    · rw [List.nil_append, hsplit, h.accept]

/-- **Nothing is lost.** When the chunks are those of windows that are accepted as a whole and not
before, successive calls give the values of all windows, and then keep what follows them. -/
theorem drain_of_finer {ws : List (List α)} {f : List α → β} (hws : ∀ w ∈ ws, R.Exact w (f w))
    (hfiner : Finer fs ws) (hne : ∀ c ∈ fs, c ≠ []) (tail : List (List α))
    (htail : R.accept tail.flatten = none) (n : ℕ) :
    (R.drain n (fs ++ tail)).emitted = (ws.map f).take n ∧
      (ws.length < n → (R.drain n (fs ++ tail)).buffer = tail.flatten) := by
  induction hfiner generalizing n with
  | nil =>
    rw [List.nil_append]
    cases n with
    | zero => exact ⟨rfl, fun h => absurd h (Nat.not_lt_zero _)⟩
    | succ n =>
      have hawait : R.await [] tail = none := (R.await_eq_none_iff R.accept_nil).mpr htail
      rw [R.drain_succ_of_none n hawait]
      exact ⟨rfl, fun _ => rfl⟩
  | @cons parts fs ws h ih =>
    cases n with
    | zero => exact ⟨rfl, fun h => absurd h (Nat.not_lt_zero _)⟩
    | succ n =>
      have hawait := (hws _ List.mem_cons_self).await rfl
        (fun c hc => hne c (List.mem_append_left _ hc)) (fs ++ tail)
      obtain ⟨hemitted, hbuffer⟩ := ih (fun w hw => hws w (List.mem_cons_of_mem _ hw))
        (fun c hc => hne c (List.mem_append_right _ hc)) n
      rw [List.append_assoc, R.drain_succ_of_some n hawait]
      refine ⟨?_, fun hlt => hbuffer (Nat.lt_of_succ_lt_succ hlt)⟩
      rw [hemitted, List.map_cons, List.take_succ_cons]

end Recogniser
