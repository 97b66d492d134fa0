/-
# Tables of slots

A table of `n` slots each of which is free or taken for a key. Slots are released, and a free slot is
taken. What matters of such a table is that no key has two slots (`Unique`): then the slots in use are
as many as their keys, and there is a free slot for a new key as long as the keys at work are no more
than the slots (`Unique.exists_free`).
-/
import Mathlib.Data.Finset.Option
import Mathlib.Data.Fintype.Card
import Mathlib.Tactic

namespace Cpm8000.Sys

variable {n : ℕ} {K : Type*}

/-- The keys of the slots, `none` for a free one. -/
abbrev SlotTable (n : ℕ) (K : Type*) := Fin n → Option K

namespace SlotTable

/-- No two slots have one key. -/
def Unique (t : SlotTable n K) : Prop := ∀ i j k, t i = some k → t j = some k → i = j

/-- The slots of `t'` were slots of `t`: some were released and none was taken. -/
def Released (t t' : SlotTable n K) : Prop := ∀ i k, t' i = some k → t i = some k

/-- One round of work for a key: slots are released, and perhaps one is taken for the key, that no
other slot has by then. -/
def Works (k : K) (t t' : SlotTable n K) : Prop :=
  Released t t' ∨
    ∃ u i, Released t u ∧ (∀ j, u j ≠ some k) ∧ t' = Function.update u i (some k)

variable {t t' u : SlotTable n K} {k : K} {i : Fin n}

theorem Released.refl (t : SlotTable n K) : Released t t := fun _ _ h => h

theorem Released.trans (h : Released t u) (h' : Released u t') : Released t t' :=
  fun i k hi => h i k (h' i k hi)

theorem released_update (t : SlotTable n K) (i : Fin n) :
    Released t (Function.update t i none) := by
  intro j k hj
  by_cases hji : j = i
  · rw [hji, Function.update_self] at hj
    cases hj
  · rwa [Function.update_of_ne hji] at hj

theorem Unique.released (h : Unique t) (hr : Released t t') : Unique t' :=
  fun i j k hi hj => h i j k (hr i k hi) (hr j k hj)

theorem Unique.take (h : Unique t) (hk : ∀ j, t j ≠ some k) :
    Unique (Function.update t i (some k)) := by
  have hother : ∀ {j l}, Function.update t i (some k) j = some l → j ≠ i → t j = some l := by
    intro j l hj hne
    rwa [Function.update_of_ne hne] at hj
  have hself : ∀ {l}, Function.update t i (some k) i = some l → l = k := by
    intro l hl
    rw [Function.update_self] at hl
    exact (Option.some.inj hl).symm
  intro a b l ha hb
  by_cases hai : a = i <;> by_cases hbi : b = i
  · rw [hai, hbi]
  · subst hai
    obtain rfl := hself ha
    exact absurd (hother hb hbi) (hk b)
  · subst hbi
    obtain rfl := hself hb
    exact absurd (hother ha hai) (hk a)
  · exact h a b l (hother ha hai) (hother hb hbi)

/-- **Work for a key keeps a table unique.** -/
theorem Unique.works (h : Unique t) (hw : Works k t t') : Unique t' := by
  rcases hw with hr | ⟨u, i, hr, hk, rfl⟩
  · exact h.released hr
  · exact (h.released hr).take hk

variable [DecidableEq K]

/-- The keys in use. -/
def held (t : SlotTable n K) : Finset K := (Finset.univ.image t).eraseNone

theorem mem_held : k ∈ held t ↔ ∃ i, t i = some k := by
  rw [held, Finset.mem_eraseNone, Finset.mem_image]
  simp only [Finset.mem_univ, true_and]

theorem Released.held_subset (h : Released t t') : held t' ⊆ held t := by
  intro k hk
  obtain ⟨i, hi⟩ := mem_held.mp hk
  exact mem_held.mpr ⟨i, h i k hi⟩

/-- A table without a free slot has as many keys as slots. -/
theorem Unique.card_held (h : Unique t) (hfull : ∀ i, t i ≠ none) : (held t).card = n := by
  have hsome : ∀ i, ∃ k, t i = some k := fun i => Option.ne_none_iff_exists'.mp (hfull i)
  choose key hkey using hsome
  have hinj : Function.Injective key := by
    intro i j hij
    exact h i j (key i) (hkey i) (hij ▸ hkey j)
  have himage : held t = Finset.univ.image key := by
    ext k
    rw [mem_held, Finset.mem_image]
    constructor
    · rintro ⟨i, hi⟩
      exact ⟨i, Finset.mem_univ i, Option.some.inj ((hkey i).symm.trans hi)⟩
    · rintro ⟨i, -, rfl⟩
      exact ⟨i, hkey i⟩
  rw [himage, Finset.card_image_of_injective _ hinj, Finset.card_univ, Fintype.card_fin]

/-- **A free slot for a new key**, when the keys at work are no more than the slots. -/
theorem Unique.exists_free (h : Unique t) (hk : ∀ i, t i ≠ some k)
    (hcard : (insert k (held t)).card ≤ n) : ∃ i, t i = none := by
  by_contra hno
  rw [not_exists] at hno
  have hnew : k ∉ held t := fun hmem => (mem_held.mp hmem).elim hk
  rw [Finset.card_insert_of_notMem hnew, h.card_held hno] at hcard
  exact absurd hcard (Nat.not_succ_le_self n)

end SlotTable

end Cpm8000.Sys
