import Mathlib.Algebra.BigOperators.Group.Finset.Piecewise
import Mathlib.Data.Fintype.Card
import Mathlib.Data.List.Basic

/-!
# Runs of Labelled Transition Systems

A small library for systems that are given by a step relation `σ → α → σ → Prop` with
labels `α`. A run is a finite sequence of steps; its labels are what an observer of the
system sees, with the silent ones left out by a projection. The states of a system of
threads are functions of the thread, of which a step changes one value.

## Main results

* `Runs.invariant`: what every step preserves, every run preserves.
* `Runs.invariant_labels`: the same for a relation between the state and the labels so
  far.
* `Runs.map`: what an abstraction function makes of a run, if it does so for each step.
* `card_filter_update`: how the number of threads in a place changes with one of them.
-/

namespace OsLabs

variable {σ τ α β : Type}

/-- `Runs step s as t`: from `s` the steps with the labels `as` lead to `t`. -/
inductive Runs (step : σ → α → σ → Prop) (s : σ) : List α → σ → Prop
  | nil : Runs step s [] s
  | snoc {as : List α} {t u : σ} {a : α} :
      Runs step s as t → step t a u → Runs step s (as ++ [a]) u

namespace Runs

variable {step : σ → α → σ → Prop} {s t u : σ} {as bs : List α} {a : α}

/-- A single step is a run. -/
theorem single (h : step s a t) : Runs step s [a] t :=
  snoc nil h

/-- A run can go on from the state in which another one has ended. -/
theorem trans (h : Runs step s as t) (h' : Runs step t bs u) : Runs step s (as ++ bs) u := by
  induction h' with
  | nil => rwa [List.append_nil]
  | snoc _ hstep ih =>
    rw [← List.append_assoc]
    exact ih.snoc hstep

/-- A run of a part of the steps is a run. -/
theorem mono {step' : σ → α → σ → Prop} (hsub : ∀ t a u, step t a u → step' t a u)
    (h : Runs step s as t) : Runs step' s as t := by
  induction h with
  | nil => exact nil
  | snoc _ hstep ih => exact ih.snoc (hsub _ _ _ hstep)

/-- **Invariant rule**, for a relation between a state and the labels that led to it. -/
theorem invariant_labels {P : List α → σ → Prop} (h : Runs step s as t) (hinit : P [] s)
    (hstep : ∀ as t a u, P as t → step t a u → P (as ++ [a]) u) : P as t := by
  induction h with
  | nil => exact hinit
  | snoc _ h ih => exact hstep _ _ _ _ ih h

/-- **Invariant rule**: what holds at the start and is kept by every step holds in every state
that a run reaches. -/
theorem invariant {P : σ → Prop} (h : Runs step s as t) (hinit : P s)
    (hstep : ∀ t a u, P t → step t a u → P u) : P t :=
  h.invariant_labels (P := fun _ => P) hinit fun _ t a u => hstep t a u

/-- **Simulation rule** for an abstraction function, of the states with `P`. -/
theorem map {step' : τ → β → τ → Prop} {P : σ → Prop} (f : σ → τ) (g : α → β)
    (h : Runs step s as t) (hinit : P s)
    (hstep : ∀ t a u, P t → step t a u → P u ∧ step' (f t) (g a) (f u)) :
    Runs step' (f s) (as.map g) (f t) := by
  suffices hmap : P t ∧ Runs step' (f s) (as.map g) (f t) from hmap.2
  induction h with
  | nil => exact ⟨hinit, nil⟩
  | snoc _ h ih =>
    obtain ⟨hP, hrun⟩ := ih
    obtain ⟨hP', hstep'⟩ := hstep _ _ _ hP h
    rw [List.map_append, List.map_singleton]
    exact ⟨hP', hrun.snoc hstep'⟩

end Runs

/-- **The number of threads in a place after one of them has moved.** -/
theorem card_filter_update [Fintype τ] [DecidableEq τ] (P : β → Bool) (f : τ → β) (t : τ)
    (v : β) :
    (Finset.univ.filter fun u => P (Function.update f t v u)).card + (P (f t)).toNat =
      (Finset.univ.filter fun u => P (f u)).card + (P v).toNat := by
  have hrest : ∑ u ∈ Finset.univ.erase t, (if P (Function.update f t v u) then 1 else 0) =
      ∑ u ∈ Finset.univ.erase t, if P (f u) then 1 else 0 :=
    Finset.sum_congr rfl fun u hu => by
      rw [Function.update_of_ne (Finset.ne_of_mem_erase hu)]
  rw [Finset.card_filter, Finset.card_filter, ← Finset.add_sum_erase _ _ (Finset.mem_univ t),
    hrest, ← Finset.add_sum_erase _ (fun u => if P (f u) then 1 else 0) (Finset.mem_univ t),
    Function.update_self]
  cases P (f t) <;> cases P v <;> simp <;> omega

end OsLabs
