/-
# Packed decimal numbers

`bcd k n` is the number whose `k` hexadecimal digits are the last `k` decimal digits of `n`.

* `bcd_add`: the digits in two parts.
* `Fraction.digit`, `Fraction.rest`: decimal digits one after the other from a binary fraction.  The
  fraction is a little more than the number, by less than a unit of its last digit; every digit comes
  out right, and the excess stays what it is.
-/
import Mathlib.Tactic

namespace Cpm8000.Arith

/-! ## 1. Packed digits -/

/-- The last `k` decimal digits of `n`, four bits each. -/
def bcd : ℕ → ℕ → ℕ
  | 0, _ => 0
  | k + 1, n => bcd k (n / 10) * 16 + n % 10

@[simp] theorem bcd_zero (n : ℕ) : bcd 0 n = 0 := rfl

theorem bcd_succ (k n : ℕ) : bcd (k + 1) n = bcd k (n / 10) * 16 + n % 10 := rfl

theorem bcd_lt (k n : ℕ) : bcd k n < 16 ^ k := by
  induction k generalizing n with
  | zero => simp
  | succ k ih =>
    have h := ih (n / 10)
    rw [bcd_succ, Nat.pow_succ]
    omega

/-- **The digits in two parts.** -/
theorem bcd_add (j k n : ℕ) : bcd (j + k) n = bcd j (n / 10 ^ k) * 16 ^ k + bcd k (n % 10 ^ k) := by
  induction k generalizing n with
  | zero => simp
  | succ k ih =>
    have hdiv : n / 10 / 10 ^ k = n / 10 ^ (k + 1) := by rw [Nat.div_div_eq_div_mul, Nat.pow_succ']
    have hmod : n % 10 ^ (k + 1) / 10 = n / 10 % 10 ^ k := by
      rw [Nat.pow_succ', Nat.mod_mul_right_div_self]
    have hlast : n % 10 ^ (k + 1) % 10 = n % 10 :=
      Nat.mod_mod_of_dvd n (dvd_pow_self 10 (Nat.succ_ne_zero k))
    rw [← Nat.add_assoc, bcd_succ, bcd_succ, ih, hdiv, hmod, hlast, Nat.pow_succ]
    ring

/-- A leading zero. -/
theorem bcd_of_lt {k n : ℕ} (h : n < 10 ^ k) : bcd (k + 1) n = bcd k n := by
  have hadd := bcd_add 1 k n
  rw [Nat.div_eq_of_lt h, Nat.mod_eq_of_lt h, Nat.add_comm] at hadd
  rw [hadd]
  simp [bcd_succ]

/-! ## 2. Digits from a fraction -/

/-- `F / 2 ^ b` is `N / 10 ^ j` and less than `1 / 10 ^ j` more. -/
structure Fraction (b j N δ F : ℕ) : Prop where
  eq : F * 10 ^ j = 2 ^ b * N + δ
  lt : δ < 2 ^ b

/-- The integer part is the digits in front of the last `j`. -/
theorem Fraction.digit {b j N δ F : ℕ} (h : Fraction b j N δ F) : F / 2 ^ b = N / 10 ^ j := by
  have hb := Nat.two_pow_pos b
  have hj : 0 < 10 ^ j := Nat.pow_pos (by norm_num)
  rw [← Nat.mul_div_mul_right F (2 ^ b) hj, h.eq, ← Nat.div_div_eq_div_mul, Nat.mul_add_div hb,
    Nat.div_eq_of_lt h.lt, Nat.add_zero]

/-- What is behind the point stands for the last `j` digits, with the same excess. -/
theorem Fraction.rest {b j N δ F : ℕ} (h : Fraction b (j + 1) N δ F) :
    Fraction b j (N % 10 ^ (j + 1)) δ (10 * (F % 2 ^ b)) := by
  refine ⟨?_, h.lt⟩
  have hF := Nat.div_add_mod F (2 ^ b)
  have hN := Nat.div_add_mod N (10 ^ (j + 1))
  have he := h.eq
  rw [h.digit] at hF
  have hsum : 2 ^ b * (10 ^ (j + 1) * (N / 10 ^ (j + 1))) + F % 2 ^ b * 10 ^ (j + 1) =
      2 ^ b * (10 ^ (j + 1) * (N / 10 ^ (j + 1))) + (2 ^ b * (N % 10 ^ (j + 1)) + δ) := by
    calc 2 ^ b * (10 ^ (j + 1) * (N / 10 ^ (j + 1))) + F % 2 ^ b * 10 ^ (j + 1)
        = (2 ^ b * (N / 10 ^ (j + 1)) + F % 2 ^ b) * 10 ^ (j + 1) := by ring
      _ = 2 ^ b * N + δ := by rw [hF, he]
      _ = 2 ^ b * (10 ^ (j + 1) * (N / 10 ^ (j + 1)) + N % 10 ^ (j + 1)) + δ := by rw [hN]
      _ = _ := by ring
  have hrest := Nat.add_left_cancel hsum
  rw [← hrest, Nat.pow_succ]
  ring

end Cpm8000.Arith
