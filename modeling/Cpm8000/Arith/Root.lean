/-
# Square roots, one binary digit at a time

The schoolbook root: the radicand is taken two bits at a time from the top, and each pair gives
one bit of the root.  `RootRem N Q S` says that `Q` is the root of `N` rounded down and `S` what
is left over; `RootRem.one` and `RootRem.zero` are the two ways a step can go, and
`RootRem.roundOdd` reads the rounding bits of the exact root off the last remainder.
-/
import Cpm8000.Arith.RoundOdd

namespace Cpm8000.Arith

/-- `Q` is the integer square root of `N`, and `S` the remainder. -/
structure RootRem (N Q S : ℕ) : Prop where
  eq : Q ^ 2 + S = N
  le : S ≤ 2 * Q

/-- The next digit is one: the trial subtrahend `4 Q + 1` fits. -/
theorem RootRem.one {N Q S t : ℕ} (h : RootRem N Q S) (ht : t < 4)
    (hle : 4 * Q + 1 ≤ 4 * S + t) :
    RootRem (4 * N + t) (2 * Q + 1) (4 * S + t - (4 * Q + 1)) := by
  obtain ⟨heq, hS⟩ := h
  refine ⟨?_, by omega⟩
  obtain ⟨r, hr⟩ := Nat.exists_eq_add_of_le hle
  rw [hr, Nat.add_sub_cancel_left]
  calc (2 * Q + 1) ^ 2 + r = 4 * Q ^ 2 + (4 * Q + 1 + r) := by ring
    _ = 4 * Q ^ 2 + (4 * S + t) := by rw [hr]
    _ = 4 * N + t := by rw [← heq]; ring

/-- The next digit is zero: it does not fit. -/
theorem RootRem.zero {N Q S t : ℕ} (h : RootRem N Q S) (hlt : 4 * S + t < 4 * Q + 1) :
    RootRem (4 * N + t) (2 * Q) (4 * S + t) := by
  obtain ⟨heq, hS⟩ := h
  refine ⟨?_, by omega⟩
  rw [← heq]
  ring

/-- The root has half as many bits as the radicand. -/
theorem RootRem.lt_two_pow {N Q S n : ℕ} (h : RootRem N Q S) (hN : N < 2 ^ (2 * n)) :
    Q < 2 ^ n := by
  have hsq : Q ^ 2 < (2 ^ n) ^ 2 := by
    rw [← Nat.pow_mul, Nat.mul_comm n 2]
    exact lt_of_le_of_lt (h.eq ▸ Nat.le_add_right _ _) hN
  exact lt_of_pow_lt_pow_left₀ 2 (Nat.zero_le _) hsq

theorem RootRem.two_pow_le {N Q S n : ℕ} (h : RootRem N Q S) (hN : 2 ^ (2 * n) ≤ N) :
    2 ^ n ≤ Q := by
  by_contra hlt
  have hQ : Q + 1 ≤ 2 ^ n := by omega
  have hsq : (Q + 1) ^ 2 ≤ 2 ^ (2 * n) := by
    rw [Nat.mul_comm, Nat.pow_mul]
    exact Nat.pow_le_pow_left hQ 2
  obtain ⟨heq, hS⟩ := h
  have hexp : (Q + 1) ^ 2 = Q ^ 2 + 2 * Q + 1 := by ring
  omega

/-- The remainder of an even number is not one above its root. -/
theorem RootRem.ne_succ {N Q S : ℕ} (h : RootRem N Q S) (heven : N % 2 = 0) : S ≠ Q + 1 := by
  rintro rfl
  have hpar : Q * (Q + 1) % 2 = 0 := Nat.even_iff.mp (Nat.even_mul_succ_self Q)
  have hN : N = Q * (Q + 1) + 1 := by
    rw [← h.eq]
    ring
  omega

variable {K : Type*} [Field K] [LinearOrder K] [IsStrictOrderedRing K]

/-- **The rounding bits of a root.**  The guard bit is set when the remainder exceeds the root,
the sticky bit when there is a remainder at all. -/
theorem RootRem.roundOdd {N Q S : ℕ} (h : RootRem N Q S) {y : K} (hy : 0 ≤ y)
    (hyy : y ^ 2 = N) :
    RoundOdd (4 * y) (4 * Q + 2 * (decide (Q < S)).toNat + (decide (S ≠ 0)).toNat) := by
  obtain ⟨heq, hS⟩ := h
  have hyy' : y ^ 2 = (Q : K) ^ 2 + S := by
    rw [hyy, ← heq]
    push_cast
    rfl
  have hQ : (0 : K) ≤ Q := Nat.cast_nonneg Q
  have hSle : (S : K) ≤ 2 * Q := by exact_mod_cast hS
  by_cases h0 : S = 0
  · left
    have hyQ : y = Q := by
      rw [h0, Nat.cast_zero, add_zero] at hyy'
      exact (sq_eq_sq₀ hy hQ).mp hyy'
    rw [h0, hyQ]
    simp
  · have hpos : (0 : K) < S := by exact_mod_cast Nat.pos_of_ne_zero h0
    have hlow : (Q : K) < y := by
      refine lt_of_pow_lt_pow_left₀ 2 hy ?_
      linarith
    have hhigh : y < Q + 1 := by
      refine lt_of_pow_lt_pow_left₀ 2 (by linarith) ?_
      have e : ((Q : K) + 1) ^ 2 = Q ^ 2 + 2 * Q + 1 := by ring
      linarith
    right
    rw [decide_eq_true h0, Bool.toNat_true]
    by_cases hg : Q < S
    · rw [decide_eq_true hg, Bool.toNat_true]
      have hge : (Q : K) + 1 ≤ S := by exact_mod_cast hg
      have hmid : (Q : K) + 1 / 2 < y := by
        refine lt_of_pow_lt_pow_left₀ 2 hy ?_
        have e : ((Q : K) + 1 / 2) ^ 2 = Q ^ 2 + Q + 1 / 4 := by ring
        linarith
      refine ⟨by omega, ?_, ?_⟩ <;> push_cast <;> linarith
    · rw [decide_eq_false hg, Bool.toNat_false]
      have hle : (S : K) ≤ Q := by exact_mod_cast not_lt.mp hg
      have hmid : y < (Q : K) + 1 / 2 := by
        refine lt_of_pow_lt_pow_left₀ 2 (by linarith) ?_
        have e : ((Q : K) + 1 / 2) ^ 2 = Q ^ 2 + Q + 1 / 4 := by ring
        linarith
      refine ⟨by omega, ?_, ?_⟩ <;> push_cast <;> linarith

end Cpm8000.Arith
