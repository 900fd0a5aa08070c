import Mathlib.Data.List.PeriodicityLemma

/-!
# Occurrences of a word in a list

A word `w` occurs in a list `l` at the index `i` when `l` continues with `w` from there on. This
file collects what a search for the first occurrence needs when the list grows at its end: the
occurrences of a list are those of any extension that fit into it, so the first occurrence does
not move once it has been seen.

Two occurrences of one word that overlap at distance `d` make `d` a period of the word
(`List.HasPeriod`). A word without a period shorter than itself is *unbordered*; its occurrences
never overlap.

## Main definitions

* `Words.OccursAt`, `Words.FirstAt`, `Words.NextAt`: occurrence, first occurrence and next
  occurrence at an index.
* `Words.firstIndex?`: the index of the first occurrence, computed.
* `Words.Unbordered`.

## Main results

* `Words.OccursAt.append`, `Words.OccursAt.of_append`, `Words.FirstAt.append`,
  `Words.FirstAt.of_append`: occurrences in an extension.
* `Words.FirstAt.nextAt`, `Words.NextAt.firstAt`: occurrences in a window.
* `Words.firstIndex?_eq_some_iff`, `Words.firstIndex?_eq_none_iff`.
* `Words.Unbordered.add_length_le`: occurrences of an unbordered word do not overlap.
-/

namespace Words

variable {α : Type*}

/-! ### Occurrences -/

/-- The word `w` occurs in `l` at the index `i`. -/
def OccursAt (w l : List α) (i : ℕ) : Prop := w <+: l.drop i

instance [DecidableEq α] (w l : List α) (i : ℕ) : Decidable (OccursAt w l i) :=
  inferInstanceAs (Decidable (w <+: l.drop i))

variable {w l m : List α} {i j p q : ℕ}

theorem occursAt_iff_getElem? : OccursAt w l i ↔ ∀ k < w.length, l[i + k]? = w[k]? := by
  rw [OccursAt, List.prefix_iff_getElem?]
  refine forall_congr' fun k => forall_congr' fun hk => ?_
  rw [List.getElem?_drop, List.getElem?_eq_getElem hk]

theorem occursAt_cons_iff {a : α} (hi : i < l.length) :
    OccursAt (a :: w) l i ↔ a = l[i] ∧ OccursAt w l (i + 1) := by
  rw [OccursAt, List.drop_eq_getElem_cons hi, List.cons_prefix_cons, OccursAt]

theorem occursAt_drop_iff {k : ℕ} : OccursAt w (l.drop k) i ↔ OccursAt w l (k + i) := by
  rw [OccursAt, List.drop_drop, OccursAt]

/-- An occurrence of a nonempty word fits into the list. -/
theorem OccursAt.add_length_le (h : OccursAt w l i) (hw : w ≠ []) : i + w.length ≤ l.length := by
  have hlen := h.length_le
  have hpos := List.length_pos_iff.mpr hw
  rw [List.length_drop] at hlen
  omega

theorem OccursAt.append (h : OccursAt w l i) (m : List α) : OccursAt w (l ++ m) i := by
  rw [OccursAt, List.drop_append]
  exact h.trans (List.prefix_append _ _)

theorem OccursAt.of_append (h : OccursAt w (l ++ m) i) (hi : i + w.length ≤ l.length) :
    OccursAt w l i := by
  rw [occursAt_iff_getElem?] at h ⊢
  intro k hk
  rw [← h k hk, List.getElem?_append_left (by omega)]

/-- Occurrences behind a list `l` are occurrences in what follows it. -/
@[simp] theorem occursAt_append_length_add :
    OccursAt w (l ++ m) (l.length + i) ↔ OccursAt w m i := by
  rw [OccursAt, OccursAt, List.drop_length_add_append]

theorem occursAt_append_length : OccursAt w (l ++ m) l.length ↔ w <+: m := by
  simp [OccursAt]

/-- A word with another letter than `a` does not occur in a list of `a`s only. -/
theorem not_occursAt_replicate {a b : α} (hb : b ∈ w) (hba : b ≠ a) (n i : ℕ) :
    ¬ OccursAt w (List.replicate n a) i := by
  rintro ⟨t, ht⟩
  have hmem : b ∈ (List.replicate n a).drop i := ht ▸ List.mem_append_left t hb
  exact hba (List.eq_of_mem_replicate (List.mem_of_mem_drop hmem))

/-! ### The first occurrence -/

/-- The index `p` is that of the first occurrence of `w` in `l`. -/
structure FirstAt (w l : List α) (p : ℕ) : Prop where
  occursAt : OccursAt w l p
  not_occursAt : ∀ i < p, ¬ OccursAt w l i

namespace FirstAt

theorem le_of_occursAt (h : FirstAt w l p) (hi : OccursAt w l i) : p ≤ i :=
  not_lt.mp fun hip => h.not_occursAt i hip hi

theorem eq (h : FirstAt w l p) (h' : FirstAt w l q) : p = q :=
  le_antisymm (h.le_of_occursAt h'.occursAt) (h'.le_of_occursAt h.occursAt)

/-- The first occurrence stays the first one when the list is extended. -/
theorem append (h : FirstAt w l p) (hw : w ≠ []) (m : List α) : FirstAt w (l ++ m) p where
  occursAt := h.occursAt.append m
  not_occursAt i hi hocc := by
    have hfit := h.occursAt.add_length_le hw
    exact h.not_occursAt i hi (hocc.of_append (by omega))

theorem of_append (h : FirstAt w (l ++ m) p) (hp : p + w.length ≤ l.length) : FirstAt w l p where
  occursAt := h.occursAt.of_append hp
  not_occursAt i hi hocc := h.not_occursAt i hi (hocc.append m)

end FirstAt

/-- A word that the list starts with occurs there first. -/
theorem firstAt_zero (h : w <+: l) : FirstAt w l 0 :=
  ⟨h, fun i hi => absurd hi (Nat.not_lt_zero i)⟩

/-! ### The next occurrence -/

/-- The first occurrence of `w` in `l` at the index `e` or behind it is at `q`. -/
structure NextAt (w l : List α) (e q : ℕ) : Prop where
  le : e ≤ q
  occursAt : OccursAt w l q
  not_occursAt : ∀ i, e ≤ i → i < q → ¬ OccursAt w l i

/-- An occurrence behind an index has a next one before it. -/
theorem OccursAt.exists_nextAt {e : ℕ} (h : OccursAt w l i) (he : e ≤ i) :
    ∃ q ≤ i, NextAt w l e q := by
  classical
  have hex : ∃ q, e ≤ q ∧ OccursAt w l q := ⟨i, he, h⟩
  obtain ⟨hle, hocc⟩ := Nat.find_spec hex
  exact ⟨Nat.find hex, Nat.find_min' hex ⟨he, h⟩, hle, hocc,
    fun j hj hlt hj' => Nat.find_min hex hlt ⟨hj, hj'⟩⟩

/-- A word that occurs has a first occurrence. -/
theorem OccursAt.exists_firstAt (h : OccursAt w l i) : ∃ p ≤ i, FirstAt w l p := by
  obtain ⟨p, hp, hnext⟩ := h.exists_nextAt (Nat.zero_le i)
  exact ⟨p, hp, hnext.occursAt, fun j => hnext.not_occursAt j (Nat.zero_le j)⟩

/-- The first occurrence in a window of a list is the next one from the start of the window on. -/
theorem FirstAt.nextAt (h : FirstAt w l p) (hw : w ≠ []) (d m : List α) :
    NextAt w (d ++ (l ++ m)) d.length (d.length + p) where
  le := Nat.le_add_right _ _
  occursAt := occursAt_append_length_add.mpr (h.occursAt.append m)
  not_occursAt i hi hlt hocc := by
    obtain ⟨k, rfl⟩ := Nat.exists_eq_add_of_le hi
    exact (h.append hw m).not_occursAt k (by omega) (occursAt_append_length_add.mp hocc)

/-- The next occurrence from the start of a window on is the first one in the window, if it fits
into it. -/
theorem NextAt.firstAt {d : List α} (h : NextAt w (d ++ (l ++ m)) d.length (d.length + p))
    (hp : p + w.length ≤ l.length) : FirstAt w l p where
  occursAt := (occursAt_append_length_add.mp h.occursAt).of_append hp
  not_occursAt i hi hocc :=
    h.not_occursAt (d.length + i) (by omega) (by omega)
      (occursAt_append_length_add.mpr (hocc.append m))

/-! ### The search -/

/-- The index of the first occurrence of `w` in `l`, if there is one. -/
def firstIndex? [DecidableEq α] (w l : List α) : Option ℕ :=
  (List.range (l.length + 1)).find? fun i => decide (OccursAt w l i)

section FirstIndex

variable [DecidableEq α]

theorem firstIndex?_eq_some_iff (hw : w ≠ []) : firstIndex? w l = some p ↔ FirstAt w l p := by
  rw [firstIndex?, List.find?_range_eq_some]
  simp only [decide_eq_true_eq, List.mem_range, Bool.not_eq_true', decide_eq_false_iff_not]
  constructor
  · rintro ⟨hocc, -, hmin⟩
    exact ⟨hocc, hmin⟩
  · intro h
    have hfit := h.occursAt.add_length_le hw
    exact ⟨h.occursAt, by omega, h.not_occursAt⟩

theorem firstIndex?_eq_none_iff (hw : w ≠ []) :
    firstIndex? w l = none ↔ ∀ i, ¬ OccursAt w l i := by
  constructor
  · intro h i hocc
    obtain ⟨p, -, hp⟩ := hocc.exists_firstAt
    rw [(firstIndex?_eq_some_iff hw).mpr hp] at h
    exact absurd h (by simp)
  · intro h
    cases hp : firstIndex? w l with
    | none => rfl
    | some p => exact absurd ((firstIndex?_eq_some_iff hw).mp hp).occursAt (h p)

end FirstIndex

/-! ### Unbordered words -/

/-- A word is *unbordered* when it has no period shorter than itself. -/
def Unbordered (w : List α) : Prop := ∀ d < w.length, 0 < d → ¬ w.HasPeriod d

instance [DecidableEq α] (w : List α) : Decidable (Unbordered w) :=
  have (d : ℕ) : Decidable (w.HasPeriod d) :=
    inferInstanceAs (Decidable (w <+: List.take d w ++ w))
  inferInstanceAs (Decidable (∀ d < w.length, 0 < d → ¬ w.HasPeriod d))

/-- Two occurrences at distance `d` give the word the period `d`. -/
theorem OccursAt.hasPeriod {d : ℕ} (hi : OccursAt w l i) (hj : OccursAt w l (i + d)) :
    w.HasPeriod d := by
  rw [List.hasPeriod_iff_getElem?]
  intro k hk
  rw [occursAt_iff_getElem?] at hi hj
  calc w[k]? = l[i + d + k]? := (hj k (by omega)).symm
    _ = l[i + (k + d)]? := by rw [Nat.add_assoc, Nat.add_comm d k]
    _ = w[k + d]? := hi (k + d) (by omega)

/-- Occurrences of an unbordered word do not overlap. -/
theorem Unbordered.add_length_le (hw : Unbordered w) (hi : OccursAt w l i) (hj : OccursAt w l j)
    (hij : i < j) : i + w.length ≤ j := by
  by_contra hlt
  have hd : i + (j - i) = j := by omega
  exact hw (j - i) (by omega) (by omega) (hi.hasPeriod (hd.symm ▸ hj))

/-- An unbordered word that does not occur in `l` and that `m` starts with first occurs in
`l ++ m` right behind `l`. -/
theorem Unbordered.firstAt_append (hw : Unbordered w) (hwm : w <+: m)
    (hl : ∀ i, ¬ OccursAt w l i) : FirstAt w (l ++ m) l.length where
  occursAt := occursAt_append_length.mpr hwm
  not_occursAt i hi hocc :=
    hl i (hocc.of_append (hw.add_length_le hocc (occursAt_append_length.mpr hwm) hi))

end Words
