import Mathlib.Logic.Relation

/-!
# Runs of labelled transition systems

The runs of a system given by its step relation, with the labels of the steps taken, and the
invariant rule: what holds at the start and is kept by every step holds in every state reached.
A condition on the steps of a run is a run of the system restricted to the steps that meet it.

## Main definitions

* `Transition.Run`, `Transition.Reachable`, `Transition.restrict`.

## Main results

* `Transition.Run.invariant`: the invariant rule.
-/

namespace Transition

variable {State Label : Type*} {step : State → Label → State → Prop} {init s s' : State}
  {labels : List Label}

/-- The runs from `init`: the labels of the steps taken, in order, and the state reached. -/
inductive Run (step : State → Label → State → Prop) (init : State) :
    List Label → State → Prop
  | start : Run step init [] init
  | next {labels : List Label} {s s' : State} {l : Label} (run : Run step init labels s)
      (h : step s l s') : Run step init (labels ++ [l]) s'

/-- Some run reaches the state. -/
def Reachable (step : State → Label → State → Prop) (init s : State) : Prop :=
  ∃ labels, Run step init labels s

/-- The steps that meet a condition on the label and the state before. -/
def restrict (step : State → Label → State → Prop) (cond : State → Label → Prop) :
    State → Label → State → Prop :=
  fun s l s' => cond s l ∧ step s l s'

/-- **The invariant rule.** -/
theorem Run.invariant {I : State → Prop} (h : Run step init labels s) (start : I init)
    (next : ∀ s l s', I s → step s l s' → I s') : I s := by
  induction h with
  | start => exact start
  | next _ hstep ih => exact next _ _ _ ih hstep

theorem Reachable.invariant {I : State → Prop} (h : Reachable step init s) (start : I init)
    (next : ∀ s l s', I s → step s l s' → I s') : I s :=
  h.elim fun _ hrun => hrun.invariant start next

theorem Reachable.start : Reachable step init init := ⟨[], .start⟩

theorem Reachable.next {l : Label} (h : Reachable step init s) (hs : step s l s') :
    Reachable step init s' :=
  h.elim fun _ hrun => ⟨_, hrun.next hs⟩

/-- A condition on the steps reaches no further states. -/
theorem Reachable.of_restrict {cond : State → Label → Prop}
    (h : Reachable (restrict step cond) init s) : Reachable step init s :=
  h.invariant .start fun _ _ _ hs hstep => hs.next hstep.2

end Transition
