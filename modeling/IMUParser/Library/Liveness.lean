import Mathlib.Data.Countable.Basic
import Mathlib.Data.Nat.Pairing
import IMUParser.Library.Transition

/-!
# Fair executions of labelled transition systems

An execution goes on for ever; at each time it makes a step or none. It is *weakly fair* to a set of
labels when steps with these labels cannot stay possible from some time on without one being made.

`P` leads to `Q` when after each time at which `P` holds there is one at which `Q` does. To prove it
of fair executions, give a rank and, for each state with `P`, a set of helpful labels: a step may
lower the rank, or it keeps the rank and the choice of the helpful labels, and is not one of those;
and a helpful step can be made (`Progress`). Then the rank cannot stay the same for ever, so `Q`
holds at some time (`Progress.leadsTo`).

## Main definitions

* `Transition.Execution`, `Transition.Execution.WeaklyFair`, `Transition.Execution.LeadsTo`.
* `Transition.Progress`.

## Main results

* `Transition.Progress.leadsTo`.
* `Transition.exists_weaklyFair`: fair executions exist.
-/

namespace Transition

variable {State Label ι : Type*} {step : State → Label → State → Prop} {init s : State}
  {A : Set Label} {P Q : State → Prop}

/-- An infinite execution from `init`: its states, and the labels of the steps made. -/
structure Execution (step : State → Label → State → Prop) (init : State) where
  state : ℕ → State
  label : ℕ → Option Label
  start : state 0 = init
  move : ∀ t l, label t = some l → step (state t) l (state (t + 1))
  stay : ∀ t, label t = none → state (t + 1) = state t

/-- A step with one of the labels can be made. -/
def Enabled (step : State → Label → State → Prop) (A : Set Label) (s : State) : Prop :=
  ∃ l ∈ A, ∃ s', step s l s'

namespace Execution

variable (E : Execution step init)

/-- If from some time on steps with these labels can always be made, then one is made. -/
def WeaklyFair (A : Set Label) : Prop :=
  ∀ t, (∀ t' ≥ t, Enabled step A (E.state t')) → ∃ t' ≥ t, ∃ l ∈ A, E.label t' = some l

/-- Whenever `P` holds, `Q` holds then or later. -/
def LeadsTo (P Q : State → Prop) : Prop := ∀ t, P (E.state t) → ∃ t' ≥ t, Q (E.state t')

/-- An invariant holds at all times. -/
theorem invariant {I : State → Prop} (start : I init)
    (next : ∀ s l s', I s → step s l s' → I s') (t : ℕ) : I (E.state t) := by
  induction t with
  | zero => rwa [E.start]
  | succ t ih =>
    cases hlabel : E.label t with
    | none => rwa [E.stay t hlabel]
    | some l => exact next _ l _ ih (E.move t l hlabel)

end Execution

/-! ### Fair executions exist -/

section RoundRobin

open Classical in
/-- A step with one of the labels, if one can be made. -/
noncomputable def attempt (step : State → Label → State → Prop) (A : Set Label) (s : State) :
    Option Label × State :=
  if h : Enabled step A s then (some h.choose, h.choose_spec.2.choose) else (none, s)

theorem attempt_of_enabled (h : Enabled step A s) :
    ∃ l ∈ A, (attempt step A s).1 = some l ∧ step s l (attempt step A s).2 := by
  rw [attempt, dif_pos h]
  exact ⟨h.choose, h.choose_spec.1, rfl, h.choose_spec.2.choose_spec⟩

theorem attempt_of_not_enabled (h : ¬ Enabled step A s) : attempt step A s = (none, s) :=
  dif_neg h

/-- The states of the execution that attempts a step with the labels `kinds (turn t)` at the
time `t`. -/
noncomputable def attempts (step : State → Label → State → Prop) (init : State)
    (kinds : ι → Set Label) (turn : ℕ → ι) : ℕ → State
  | 0 => init
  | t + 1 => (attempt step (kinds (turn t)) (attempts step init kinds turn t)).2

/-- **Fair executions exist**: the kinds of steps take turns, and each of countably many has its
turn again and again. -/
theorem exists_weaklyFair [Countable ι] [Nonempty ι] (step : State → Label → State → Prop)
    (init : State) (kinds : ι → Set Label) :
    ∃ E : Execution step init, ∀ i, E.WeaklyFair (kinds i) := by
  obtain ⟨e, he⟩ := exists_surjective_nat ι
  let turn (t : ℕ) : ι := e t.unpair.1
  let state := attempts step init kinds turn
  have hmove (t : ℕ) (l : Label) (hl : (attempt step (kinds (turn t)) (state t)).1 = some l) :
      step (state t) l (state (t + 1)) := by
    by_cases henabled : Enabled step (kinds (turn t)) (state t)
    · obtain ⟨l', -, hl', hstep⟩ := attempt_of_enabled henabled
      obtain rfl := Option.some.inj (hl'.symm.trans hl)
      exact hstep
    · rw [attempt_of_not_enabled henabled] at hl
      cases hl
  have hstay (t : ℕ) (hl : (attempt step (kinds (turn t)) (state t)).1 = none) :
      state (t + 1) = state t := by
    by_cases henabled : Enabled step (kinds (turn t)) (state t)
    · obtain ⟨l', -, hl', -⟩ := attempt_of_enabled henabled
      exact absurd (hl.symm.trans hl') nofun
    · exact congrArg Prod.snd (attempt_of_not_enabled henabled)
  refine ⟨⟨state, fun t => (attempt step (kinds (turn t)) (state t)).1, rfl, hmove, hstay⟩, ?_⟩
  intro i t henabled
  obtain ⟨n, rfl⟩ := he i
  -- the next turn of the kind after the time `t`
  have hturn : turn (Nat.pair n t) = e n := by simp [turn]
  obtain ⟨l, hl, hlabel, -⟩ := attempt_of_enabled (henabled _ (Nat.right_le_pair n t))
  refine ⟨Nat.pair n t, Nat.right_le_pair n t, l, hl, ?_⟩
  change (attempt step (kinds (turn (Nat.pair n t))) _).1 = some l
  rw [hturn]
  exact hlabel

end RoundRobin

/-! ### Progress -/

/-- A rank and a choice of helpful labels by which `P` leads to `Q`. -/
structure Progress (step : State → Label → State → Prop) (P Q : State → Prop) (rank : State → ℕ)
    (helpful : State → ι) (labels : ι → Set Label) : Prop where
  /-- A helpful step can be made. -/
  enabled : ∀ s, P s → Enabled step (labels (helpful s)) s
  /-- A step ends in `Q`, or lowers the rank, or keeps rank and choice and is not helpful. -/
  next : ∀ s l s', P s → step s l s' → Q s' ∨ P s' ∧ (rank s' < rank s ∨
    rank s' = rank s ∧ helpful s' = helpful s ∧ l ∉ labels (helpful s))

namespace Progress

variable {rank : State → ℕ} {helpful : State → ι} {labels : ι → Set Label}

/-- From one time to the next. -/
theorem next_time (h : Progress step P Q rank helpful labels) (E : Execution step init) {t : ℕ}
    (hP : P (E.state t)) :
    Q (E.state (t + 1)) ∨ P (E.state (t + 1)) ∧ (rank (E.state (t + 1)) < rank (E.state t) ∨
      rank (E.state (t + 1)) = rank (E.state t) ∧
      helpful (E.state (t + 1)) = helpful (E.state t) ∧
      ∀ l ∈ labels (helpful (E.state t)), E.label t ≠ some l) := by
  cases hlabel : E.label t with
  | none =>
    rw [E.stay t hlabel]
    exact Or.inr ⟨hP, Or.inr ⟨rfl, rfl, fun _ _ => nofun⟩⟩
  | some l =>
    refine (h.next _ l _ hP (E.move t l hlabel)).imp_right fun hstep => hstep.imp_right fun hrank =>
      hrank.imp_right fun hsame => ⟨hsame.1, hsame.2.1, ?_⟩
    rintro l' hl' heq
    exact hsame.2.2 (Option.some.inj heq ▸ hl')

/-- As long as neither `Q` holds nor the rank falls, the choice of the helpful labels stays. -/
theorem persists (h : Progress step P Q rank helpful labels) (E : Execution step init) {t : ℕ}
    (hP : P (E.state t)) (hQ : ∀ t' ≥ t, ¬ Q (E.state t'))
    (hrank : ∀ t' ≥ t, P (E.state t') → ¬ rank (E.state t') < rank (E.state t)) :
    ∀ t' ≥ t, P (E.state t') ∧ rank (E.state t') = rank (E.state t) ∧
      helpful (E.state t') = helpful (E.state t) := by
  intro t' ht'
  induction t', ht' using Nat.le_induction with
  | base => exact ⟨hP, rfl, rfl⟩
  | succ t' ht' ih =>
    obtain ⟨hP', hrank', hhelpful⟩ := ih
    rcases h.next_time E hP' with hQ' | ⟨hP', hlt | ⟨heq, hsame, -⟩⟩
    · exact absurd hQ' (hQ _ (Nat.le_succ_of_le ht'))
    · exact absurd (hrank' ▸ hlt) (hrank _ (Nat.le_succ_of_le ht') hP')
    · exact ⟨hP', heq.trans hrank', hsame.trans hhelpful⟩

/-- **The progress rule.** In an execution that is fair to all choices of labels, `P` leads to
`Q`. -/
theorem leadsTo (h : Progress step P Q rank helpful labels) (E : Execution step init)
    (hfair : ∀ i, E.WeaklyFair (labels i)) : E.LeadsTo P Q := by
  intro t hP
  induction hn : rank (E.state t) using Nat.strong_induction_on generalizing t with
  | _ n ih =>
    subst hn
    by_contra hnone
    have hQ : ∀ t' ≥ t, ¬ Q (E.state t') := fun t' ht' hQ => hnone ⟨t', ht', hQ⟩
    have hrank : ∀ t' ≥ t, P (E.state t') → ¬ rank (E.state t') < rank (E.state t) := by
      intro t' ht' hP' hlt
      obtain ⟨t'', ht'', hQ''⟩ := ih _ hlt t' hP' rfl
      exact hQ t'' (Nat.le_trans ht' ht'') hQ''
    have hpersists := h.persists E hP hQ hrank
    -- the helpful steps stay possible, so one is made, and the rank falls
    obtain ⟨t', ht', l, hl, hlabel⟩ := hfair (helpful (E.state t)) t fun t' ht' => by
      obtain ⟨hP', -, hsame⟩ := hpersists t' ht'
      exact hsame ▸ h.enabled _ hP'
    obtain ⟨hP', hrank', hsame⟩ := hpersists t' ht'
    rcases h.next_time E hP' with hQ' | ⟨hP'', hlt | ⟨-, -, hnot⟩⟩
    · exact hQ _ (Nat.le_succ_of_le ht') hQ'
    · exact hrank _ (Nat.le_succ_of_le ht') hP'' (hrank' ▸ hlt)
    · exact hnot l (hsame ▸ hl) hlabel

end Progress

end Transition
