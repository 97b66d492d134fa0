/-
# Sets of small numbers

A set of numbers is a number, whose bits say which they are. Whether two sets meet takes one operation;
`image` is the set of what a function gives on two sets of numbers below `n`.
-/
import Mathlib.Data.Nat.Bitwise

namespace Cpm8000.Sys.Bitset

variable {n a b s t : ℕ}

/-! ## 1. Meeting -/

def meets (s t : ℕ) : Bool := Nat.blt 0 (s &&& t)

theorem meets_of_testBit (hs : s.testBit a = true) (ht : t.testBit a = true) : meets s t = true := by
  have hboth : (s &&& t).testBit a = true := by
    rw [Nat.testBit_and, hs, ht, Bool.and_self]
  refine Nat.blt_eq.mpr (Nat.pos_of_ne_zero fun hzero => ?_)
  rw [hzero, Nat.zero_testBit] at hboth
  cases hboth

/-! ## 2. Images -/

variable {l : List ℕ} {f : ℕ → ℕ → ℕ} {v : ℕ}

/-- What the elements of a set add to another, one after the other; `l` are the candidates. -/
def gather (l : List ℕ) (s : ℕ) (f : ℕ → ℕ → ℕ) (m : ℕ) : ℕ :=
  l.foldl (fun m a => if s.testBit a then f a m else m) m

theorem gather_mono (hmono : ∀ a m, m.testBit v = true → (f a m).testBit v = true) (m : ℕ)
    (hm : m.testBit v = true) : (gather l s f m).testBit v = true := by
  induction l generalizing m with
  | nil => exact hm
  | cons b l ih =>
    refine ih _ ?_
    by_cases hb : s.testBit b
    · simp only [if_pos hb]
      exact hmono b m hm
    · simp only [if_neg hb]
      exact hm

/-- What an element adds is there at the end. -/
theorem testBit_gather (hmono : ∀ a m, m.testBit v = true → (f a m).testBit v = true) (ha : a ∈ l)
    (hs : s.testBit a = true) (hadd : ∀ m, (f a m).testBit v = true) (m : ℕ) :
    (gather l s f m).testBit v = true := by
  obtain ⟨x, y, rfl⟩ := List.append_of_mem ha
  rw [gather, List.foldl_append, List.foldl_cons, if_pos hs]
  exact gather_mono hmono _ (hadd _)

/-- The numbers `f a b` for elements below `n` of two sets. -/
def image (n : ℕ) (f : ℕ → ℕ → ℕ) (s t : ℕ) : ℕ :=
  gather (List.range n) s (fun a => gather (List.range n) t fun b m => m ||| 1 <<< f a b) 0

theorem testBit_image (ha : a < n) (hs : s.testBit a = true) (hb : b < n) (ht : t.testBit b = true) :
    (image n f s t).testBit (f a b) = true := by
  have hkeep (c d m : ℕ) (hm : m.testBit (f a b) = true) : (m ||| 1 <<< f c d).testBit (f a b) = true := by
    rw [Nat.testBit_or, hm, Bool.true_or]
  refine testBit_gather (fun c m hm => gather_mono (hkeep c) m hm) (List.mem_range.mpr ha) hs (fun m => ?_) 0
  refine testBit_gather (hkeep a) (List.mem_range.mpr hb) ht (fun m => ?_) m
  rw [Nat.testBit_or, Nat.one_shiftLeft, Nat.testBit_two_pow_self, Bool.or_true]

end Cpm8000.Sys.Bitset
