/-
# Places given out in order

Several areas are filled from their beginning. Each has a mark, below which it may be in use; a place
begins at the mark of its area or after it, and the mark moves to its end or after it.

* `Filled`: the places given out so far are below the marks, and no two of them meet.
* `Filled.alloc`, `Filled.mono`: a new place, and marks that move up.
-/
import Mathlib.Data.List.Pairwise
import Mathlib.Data.Nat.Notation

namespace Cpm8000.Sys

/-- A place: its area, where it begins in it, and how long it is. -/
structure Place where
  area : ℕ
  start : ℕ
  len : ℕ
  deriving DecidableEq

namespace Place

/-- The first place ends before the second begins, or they are in two areas. -/
def Before (p q : Place) : Prop := p.area = q.area → p.start + p.len ≤ q.start

/-- No byte is in both places. -/
def Disjoint (p q : Place) : Prop :=
  p.area = q.area → p.start + p.len ≤ q.start ∨ q.start + q.len ≤ p.start

theorem Before.disjoint {p q : Place} (h : Before p q) : Disjoint p q := fun ha => .inl (h ha)

theorem Disjoint.symm {p q : Place} (h : Disjoint p q) : Disjoint q p := fun ha => (h ha.symm).symm

end Place

/-- **Areas filled with places**, up to their marks. -/
structure Filled (mark : ℕ → ℕ) (l : List Place) : Prop where
  below : ∀ p ∈ l, p.start + p.len ≤ mark p.area
  ordered : l.Pairwise Place.Before

namespace Filled

variable {mark mark' : ℕ → ℕ} {l : List Place}

theorem nil (mark : ℕ → ℕ) : Filled mark [] := ⟨List.forall_mem_nil _, .nil⟩

/-- The marks move up. -/
theorem mono (h : Filled mark l) (hle : ∀ a, mark a ≤ mark' a) : Filled mark' l :=
  ⟨fun p hp => Nat.le_trans (h.below p hp) (hle p.area), h.ordered⟩

/-- **A new place**, from the mark of its area on. -/
theorem alloc (h : Filled mark l) {p : Place} (hstart : mark p.area ≤ p.start)
    (hend : p.start + p.len ≤ mark' p.area) (hle : ∀ a, mark a ≤ mark' a) :
    Filled mark' (l ++ [p]) := by
  constructor
  · intro q hq
    rcases List.mem_append.mp hq with hq | hq
    · exact Nat.le_trans (h.below q hq) (hle q.area)
    · rw [List.mem_singleton] at hq
      rw [hq]
      exact hend
  · rw [List.pairwise_append]
    refine ⟨h.ordered, List.pairwise_singleton _ _, ?_⟩
    intro q hq p' hp'
    rw [List.mem_singleton] at hp'
    rw [hp']
    intro harea
    have hbelow := h.below q hq
    rw [harea] at hbelow
    exact Nat.le_trans hbelow hstart

/-- Two of the places, by where they are in the list. -/
theorem disjoint (h : Filled mark l) {i j : ℕ} (hi : i < l.length) (hj : j < l.length) (hne : i ≠ j) :
    (l.get ⟨i, hi⟩).Disjoint (l.get ⟨j, hj⟩) := by
  rcases Nat.lt_or_gt_of_ne hne with hlt | hlt
  · exact (List.pairwise_iff_get.mp h.ordered ⟨i, hi⟩ ⟨j, hj⟩ hlt).disjoint
  · exact (List.pairwise_iff_get.mp h.ordered ⟨j, hj⟩ ⟨i, hi⟩ hlt).disjoint.symm

end Filled

end Cpm8000.Sys
