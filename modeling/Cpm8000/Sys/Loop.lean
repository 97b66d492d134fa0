/-
# Programs that may not return

A program with loops comes to an `Outcome` in a given number of turns of each loop: it is still running, it
has ended the whole process, it has done what its language does not define, or it has returned.  `Ends o Q`
says that it is not still running and did nothing undefined, and that `Q` holds of what it returns, if it
returns.

* `Ends.bind`, `Ends.mono`: one program after the other.
* `Ends.loop`: an invariant and a measure that every turn makes smaller.
* `loop_keeps`: what every turn keeps, of a loop that returns.
* `loop_still`: what every turn keeps keeps a loop running.
-/
import Mathlib.Tactic

namespace Cpm8000.Sys

universe u

variable {α β σ : Type u}

inductive Outcome (α : Type u)
  | still
  | exit
  | wild
  | ok (a : α)
  deriving DecidableEq

namespace Outcome

def bind (o : Outcome α) (f : α → Outcome β) : Outcome β :=
  match o with
  | still => still
  | exit => exit
  | wild => wild
  | ok a => f a

instance : Monad Outcome where
  pure := ok
  bind := bind

@[simp] theorem pure_eq (a : α) : (pure a : Outcome α) = ok a := rfl

@[simp] theorem ok_bind (a : α) (f : α → Outcome β) : (ok a >>= f) = f a := rfl

@[simp] theorem exit_bind (f : α → Outcome β) : ((exit : Outcome α) >>= f) = exit := rfl

@[simp] theorem wild_bind (f : α → Outcome β) : ((wild : Outcome α) >>= f) = wild := rfl

@[simp] theorem still_bind (f : α → Outcome β) : ((still : Outcome α) >>= f) = still := rfl

/-- What may end the process, as a program. -/
def ofOption : Option α → Outcome α
  | none => exit
  | some a => ok a

/-- The program ends, and what it returns has `Q`. -/
def Ends (o : Outcome α) (Q : α → Prop) : Prop :=
  match o with
  | still => False
  | exit => True
  | wild => False
  | ok a => Q a

@[simp] theorem ends_ok {a : α} {Q : α → Prop} : (ok a).Ends Q ↔ Q a := Iff.rfl

@[simp] theorem ends_exit {Q : α → Prop} : (exit : Outcome α).Ends Q := trivial

@[simp] theorem ends_pure {a : α} {Q : α → Prop} : (pure a : Outcome α).Ends Q ↔ Q a := Iff.rfl

@[simp] theorem ends_ofOption {o : Option α} {Q : α → Prop} : (ofOption o).Ends Q ↔ ∀ a, o = some a → Q a := by
  cases o with
  | none => simp [ofOption]
  | some a => simp [ofOption]

theorem Ends.mono {o : Outcome α} {Q R : α → Prop} (h : o.Ends Q) (hQR : ∀ a, Q a → R a) : o.Ends R := by
  cases o with
  | still => exact h
  | exit => trivial
  | wild => exact h.elim
  | ok a => exact hQR a h

theorem Ends.bind {o : Outcome α} {f : α → Outcome β} {Q : α → Prop} {R : β → Prop} (h : o.Ends Q)
    (hf : ∀ a, Q a → (f a).Ends R) : (o >>= f).Ends R := by
  cases o with
  | still => exact h.elim
  | exit => trivial
  | wild => exact h.elim
  | ok a => exact hf a h

theorem Ends.and {o : Outcome α} {Q R : α → Prop} (hQ : o.Ends Q) (hR : o.Ends R) :
    o.Ends fun a => Q a ∧ R a := by
  cases o with
  | still => exact hQ
  | exit => trivial
  | wild => exact hQ
  | ok a => exact ⟨hQ, hR⟩

/-- What a program that ends returns is what it returns. -/
theorem Ends.self {o : Outcome α} {Q : α → Prop} (h : o.Ends Q) : o.Ends fun a => Q a ∧ o = ok a := by
  cases o with
  | still => exact h
  | exit => trivial
  | wild => exact h
  | ok a => exact ⟨h, rfl⟩

theorem Ends.of_ok {o : Outcome α} {Q : α → Prop} {a : α} (h : o.Ends Q) (ho : o = ok a) : Q a := by
  subst ho
  exact h

theorem bind_eq_ok {o : Outcome α} {f : α → Outcome β} {b : β} :
    (o >>= f) = ok b ↔ ∃ a, o = ok a ∧ f a = ok b := by
  constructor
  · intro hb
    cases o with
    | ok a => exact ⟨a, rfl, hb⟩
    | still => cases hb
    | exit => cases hb
    | wild => cases hb
  · rintro ⟨a, rfl, hb⟩
    exact hb

/-- Two ways to come to the same continuation. -/
theorem ite_bind_eq_ok {c : Prop} [Decidable c] {o o' : Outcome α} {f : α → Outcome β} {b : β} :
    (if c then o >>= f else o' >>= f) = ok b ↔ ∃ a, (if c then o else o') = ok a ∧ f a = ok b := by
  split_ifs
  · exact bind_eq_ok
  · exact bind_eq_ok

end Outcome

open Outcome

/-! ## Loops -/

variable {cond : σ → Bool} {body : σ → Outcome σ}

/-- `while(cond) body`, for `n` turns at most. -/
def loop (cond : σ → Bool) (body : σ → Outcome σ) : ℕ → σ → Outcome σ
  | 0, _ => still
  | n + 1, s => if cond s then body s >>= loop cond body n else ok s

/-- **A loop ends if every turn keeps an invariant and makes a measure smaller.** -/
theorem Outcome.Ends.loop {I : σ → Prop} {m : σ → ℕ}
    (hbody : ∀ s, I s → cond s = true → (body s).Ends fun t => I t ∧ m t < m s) {n : ℕ} {s : σ} (hs : I s)
    (hn : m s < n) : (loop cond body n s).Ends fun t => I t ∧ cond t = false ∧ m t ≤ m s := by
  induction n generalizing s with
  | zero => exact absurd hn (Nat.not_lt_zero _)
  | succ n ih =>
    rw [Sys.loop]
    split_ifs with hc
    · refine (hbody s hs hc).bind fun t ht => (ih ht.1 (by omega)).mono fun u hu => ?_
      exact ⟨hu.1, hu.2.1, by omega⟩
    · exact ⟨hs, eq_false_of_ne_true hc, le_refl _⟩

/-- A loop that returns keeps what every turn keeps, and has come to its end. -/
theorem loop_keeps {I : σ → Prop} (hbody : ∀ s t, I s → cond s = true → body s = ok t → I t) {n : ℕ} {s t : σ}
    (hs : I s) (ht : loop cond body n s = ok t) : I t ∧ cond t = false := by
  induction n generalizing s with
  | zero => cases ht
  | succ n ih =>
    rw [loop] at ht
    split_ifs at ht with hc
    · obtain ⟨u, hu, hut⟩ := bind_eq_ok.mp ht
      exact ih (hbody s u hs hc hu) hut
    · cases ht
      exact ⟨hs, eq_false_of_ne_true hc⟩

/-- **A loop goes on if every turn keeps what makes it go on.** -/
theorem loop_still {I : σ → Prop} (hbody : ∀ s, I s → cond s = true ∧ ∃ t, body s = ok t ∧ I t) (n : ℕ) {s : σ}
    (hs : I s) : loop cond body n s = still := by
  induction n generalizing s with
  | zero => rfl
  | succ n ih =>
    obtain ⟨hc, t, ht, hI⟩ := hbody s hs
    rw [loop, if_pos hc, ht, ok_bind, ih hI]

end Cpm8000.Sys
