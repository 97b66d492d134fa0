/-
# Runs of a machine

A machine here is a step function: a state and an input give the next state and an output.
`Run step legal s₀ tr s` says that some inputs, each legal where it is given, take the machine
from `s₀` to `s` with the trace `tr` of inputs and outputs.

* `Run.invariant`: what a step keeps, a run keeps.
* `Run.simulation`: two machines whose steps answer alike and keep a relation run alike.
* `foldlM_induction`: a step that may fail, taken for each element of a list.
-/
import Mathlib.Tactic

namespace Cpm8000.Sys

variable {σ τ ι ο : Type*}

/-- The runs of a machine from a state, the last step outermost. -/
inductive Run (step : σ → ι → σ × ο) (legal : σ → ι → Prop) (s₀ : σ) : List (ι × ο) → σ → Prop
  | nil : Run step legal s₀ [] s₀
  | snoc {tr : List (ι × ο)} {s : σ} {i : ι} : Run step legal s₀ tr s → legal s i →
      Run step legal s₀ (tr ++ [(i, (step s i).2)]) (step s i).1

variable {step : σ → ι → σ × ο} {legal : σ → ι → Prop} {s₀ s : σ} {tr : List (ι × ο)}

/-- What every legal step keeps holds in every state reached. -/
theorem Run.invariant {I : σ → Prop} (h : Run step legal s₀ tr s) (h₀ : I s₀)
    (hstep : ∀ s i, I s → legal s i → I (step s i).1) : I s := by
  induction h with
  | nil => exact h₀
  | snoc _ hi ih => exact hstep _ _ ih hi

/-- A run under fewer restrictions. -/
theorem Run.mono {legal' : σ → ι → Prop} (h : Run step legal s₀ tr s)
    (hle : ∀ s i, legal s i → legal' s i) : Run step legal' s₀ tr s := by
  induction h with
  | nil => exact .nil
  | snoc _ hi ih => exact ih.snoc (hle _ _ hi)

/-- The state after the inputs of a trace. -/
theorem Run.last {i : ι} {o : ο} (h : Run step legal s₀ (tr ++ [(i, o)]) s) :
    ∃ t, Run step legal s₀ tr t ∧ legal t i ∧ s = (step t i).1 ∧ o = (step t i).2 := by
  generalize htr : tr ++ [(i, o)] = full at h
  cases h with
  | nil => simp at htr
  | @snoc tr' t j ht hj =>
    obtain ⟨rfl, hlast⟩ := List.append_inj' htr rfl
    obtain ⟨rfl, rfl⟩ := Prod.mk.inj (List.cons.inj hlast).1
    exact ⟨t, ht, hj, rfl, rfl⟩

/-- **Simulation.**  When related states answer every legal input alike and stay related, every
run of the one machine is a run of the other with the same trace. -/
theorem Run.simulation {step' : τ → ι → τ × ο} {R : σ → τ → Prop} {t₀ : τ}
    (h : Run step legal s₀ tr s) (h₀ : R s₀ t₀)
    (hstep : ∀ s t i, R s t → legal s i →
      (step s i).2 = (step' t i).2 ∧ R (step s i).1 (step' t i).1) :
    ∃ t, Run step' (fun _ _ => True) t₀ tr t ∧ R s t := by
  induction h with
  | nil => exact ⟨t₀, .nil, h₀⟩
  | snoc _ hi ih =>
    obtain ⟨t, ht, hR⟩ := ih
    obtain ⟨ho, hR'⟩ := hstep _ _ _ hR hi
    rw [ho]
    exact ⟨_, ht.snoc trivial, hR'⟩

/-! ## Steps for the elements of a list -/

variable {α : Type*} {f : σ → α → Option σ} {s t : σ} {l : List α}

theorem of_foldlM_cons {x : α} (h : (x :: l).foldlM f s = some t) :
    ∃ u, f s x = some u ∧ l.foldlM f u = some t := by
  rw [List.foldlM_cons] at h
  exact Option.bind_eq_some_iff.mp h

theorem of_foldlM_append {l' : List α} (h : (l ++ l').foldlM f s = some t) :
    ∃ u, l.foldlM f s = some u ∧ l'.foldlM f u = some t := by
  rw [List.foldlM_append] at h
  exact Option.bind_eq_some_iff.mp h

/-- **What a step keeps**, of the elements so far and the state, holds of the list and the last state. -/
theorem foldlM_induction {I : List α → σ → Prop} (h : l.foldlM f s = some t) (h₀ : I [] s)
    (hstep : ∀ pre x post u u', l = pre ++ x :: post → pre.foldlM f s = some u → I pre u →
      f u x = some u' → I (pre ++ [x]) u') : I l t := by
  have hprefix : ∀ pre post, l = pre ++ post → ∀ u, pre.foldlM f s = some u → I pre u := by
    intro pre
    induction pre using List.reverseRecOn with
    | nil =>
      intro post hl u hu
      obtain rfl := Option.some.inj hu
      exact h₀
    | append_singleton pre x ih =>
      intro post hl u hu
      obtain ⟨w, hw, hx⟩ := of_foldlM_append hu
      obtain ⟨u', hu', hnil⟩ := of_foldlM_cons hx
      obtain rfl := Option.some.inj hnil
      rw [List.append_assoc, List.singleton_append] at hl
      exact hstep pre x post w u' hl hw (ih (x :: post) hl w hw) hu'
  exact hprefix l [] (List.append_nil l).symm t h

/-- What every step keeps. -/
theorem foldlM_invariant {I : σ → Prop} (h : l.foldlM f s = some t) (h₀ : I s)
    (hstep : ∀ x ∈ l, ∀ u u', I u → f u x = some u' → I u') : I t := by
  refine @foldlM_induction _ _ f s t l (fun _ u => I u) h h₀ ?_
  intro pre x post u u' hl _ hu hx
  have hmem : x ∈ l := by simp [hl]
  exact hstep x hmem u u' hu hx

end Cpm8000.Sys
