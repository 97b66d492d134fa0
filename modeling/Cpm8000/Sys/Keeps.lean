/-
# What a program does to its state

A program that changes a state and may end without a result is a `StateT σ Option`. `Keeps R m` says
that whenever `m` has a result, the state before and the state after are related by `R`. When `R` is
reflexive and transitive this goes along the program: there is a rule for each way programs are put
together, and the proof follows the text of the program. `Gives m s Q` says that `m` has a result from `s`,
and has rules of the same kind.
-/
import Mathlib.Data.Nat.Notation
import Mathlib.Data.Option.Basic
import Mathlib.Order.Defs.Unbundled

namespace Cpm8000.Sys

universe u

variable {σ α β : Type u} {R : σ → σ → Prop}

/-- What `m` does to the state, when it has a result, is in `R`. -/
def Keeps (R : σ → σ → Prop) (m : StateT σ Option α) : Prop :=
  ∀ s a s', m s = some (a, s') → R s s'

/-- A result of one program after the other. -/
theorem of_bind {m : StateT σ Option α} {f : α → StateT σ Option β} {s s' : σ} {b : β}
    (h : (m >>= f) s = some (b, s')) : ∃ a t, m s = some (a, t) ∧ f a t = some (b, s') := by
  obtain ⟨⟨a, t⟩, hmt, hft⟩ := Option.bind_eq_some_iff.mp h
  exact ⟨a, t, hmt, hft⟩

namespace Keeps

/-- A change of the state that always has a result. -/
theorem modifyGet {f : σ → α × σ} (h : ∀ s, R s (f s).2) :
    Keeps R (modifyGet f : StateT σ Option α) := by
  intro s a s' hs
  obtain rfl : (f s).2 = s' := congrArg Prod.snd (Option.some.inj hs)
  exact h s

theorem modify {f : σ → σ} (h : ∀ s, R s (f s)) : Keeps R (modify f : StateT σ Option PUnit) :=
  modifyGet h

theorem pure [Std.Refl R] (a : α) : Keeps R (pure a : StateT σ Option α) := by
  intro s b s' hs
  obtain rfl : s = s' := congrArg Prod.snd (Option.some.inj hs)
  exact refl_of R s

theorem get [Std.Refl R] : Keeps R (get : StateT σ Option σ) := by
  intro s b s' hs
  obtain rfl : s = s' := congrArg Prod.snd (Option.some.inj hs)
  exact refl_of R s

/-- A program that ends without a result. -/
theorem none : Keeps R (fun _ => Option.none : StateT σ Option α) := by
  intro s a s' hs
  cases hs

/-- One program after the other. -/
theorem comp {S T : σ → σ → Prop} (h : ∀ s t u, R s t → S t u → T s u) {m : StateT σ Option α}
    {f : α → StateT σ Option β} (hm : Keeps R m) (hf : ∀ a, Keeps S (f a)) : Keeps T (m >>= f) := by
  intro s b s' hs
  obtain ⟨a, t, hmt, hft⟩ := of_bind hs
  exact h s t s' (hm s a t hmt) (hf a t b s' hft)

theorem bind [IsTrans σ R] {m : StateT σ Option α} {f : α → StateT σ Option β} (hm : Keeps R m)
    (hf : ∀ a, Keeps R (f a)) : Keeps R (m >>= f) :=
  comp (S := R) (T := R) (fun _ _ _ h h' => trans_of R h h') hm hf

theorem ite {c : Prop} [Decidable c] {m m' : StateT σ Option α} (hm : Keeps R m) (hm' : Keeps R m') :
    Keeps R (if c then m else m') := by
  split
  · exact hm
  · exact hm'

/-- A program for each element of a list. -/
theorem forM [Std.Refl R] [IsTrans σ R] {ι : Type*} {f : ι → StateT σ Option PUnit} (l : List ι)
    (h : ∀ i ∈ l, Keeps R (f i)) : Keeps R (l.forM f) := by
  induction l with
  | nil => exact pure _
  | cons i l ih =>
    refine bind (h i (List.mem_cons_self ..)) fun _ => ih fun j hj => h j (List.mem_cons_of_mem _ hj)

end Keeps

/-! ## Programs that have a result -/

/-- `m` has a result from `s`, and with the state after it is in `Q`. -/
def Gives (m : StateT σ Option α) (s : σ) (Q : α → σ → Prop) : Prop :=
  ∃ a s', m s = some (a, s') ∧ Q a s'

namespace Gives

variable {s : σ} {Q : α → σ → Prop}

theorem mono {Q' : α → σ → Prop} {m : StateT σ Option α} (h : Gives m s Q)
    (hQ : ∀ a s', Q a s' → Q' a s') : Gives m s Q' := by
  obtain ⟨a, s', hm, hq⟩ := h
  exact ⟨a, s', hm, hQ a s' hq⟩

theorem pure {a : α} (h : Q a s) : Gives (pure a : StateT σ Option α) s Q := ⟨a, s, rfl, h⟩

theorem get {Q : σ → σ → Prop} (h : Q s s) : Gives (get : StateT σ Option σ) s Q := ⟨s, s, rfl, h⟩

theorem modify {f : σ → σ} {Q : PUnit → σ → Prop} (h : Q ⟨⟩ (f s)) :
    Gives (modify f : StateT σ Option PUnit) s Q := ⟨⟨⟩, f s, rfl, h⟩

/-- One program after the other. -/
theorem bind {m : StateT σ Option α} {f : α → StateT σ Option β} {Q : β → σ → Prop}
    (h : Gives m s fun a s' => Gives (f a) s' Q) : Gives (m >>= f) s Q := by
  obtain ⟨a, s', hm, b, t, hf, hq⟩ := h
  refine ⟨b, t, ?_, hq⟩
  change (m s).bind (fun p => f p.1 p.2) = _
  rw [hm]
  exact hf

/-- A program for each number, with what holds before the next. -/
theorem forM_range {f : ℕ → StateT σ Option PUnit} {I : ℕ → σ → Prop} {k : ℕ} (h₀ : I 0 s)
    (hstep : ∀ j < k, ∀ t, I j t → Gives (f j) t fun _ t' => I (j + 1) t') :
    Gives ((List.range k).forM f) s fun _ t => I k t := by
  have hfrom (m i : ℕ) (hk : i + m = k) (t : σ) (ht : I i t) :
      Gives ((List.range' i m).forM f) t fun _ t' => I k t' := by
    induction m generalizing i t with
    | zero =>
      obtain rfl : i = k := hk
      exact pure ht
    | succ m ih =>
      refine bind ((hstep i (by omega) t ht).mono fun _ t' ht' => ?_)
      exact ih (i + 1) (by omega) t' ht'
  rw [List.range_eq_range']
  exact hfrom k 0 (Nat.zero_add k) s h₀

end Gives

end Cpm8000.Sys
