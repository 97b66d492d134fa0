/-
# Rounding a number to a given number of significant bits

The specification side of every arithmetic result: what it means to round an exact number
once.  Nothing here knows how the number was computed or stored.

* `roundInt m neg x` rounds the magnitude `x` of a number of sign `neg` to an integer in the
  mode `m`.
* `rnd p m x` rounds `x` to `p` significant bits, the exponent unbounded: it scales `x` by the
  power of two that puts `p` bits in front of the point, rounds that to an integer and scales
  back.

The carrier is any ordered field with a floor, so the same definition serves quotients and
square roots.
-/
import Mathlib.Algebra.Order.Floor.Ring
import Mathlib.Data.Int.Log
import Mathlib.Data.Rat.Floor
import Mathlib.Tactic

namespace Cpm8000.Arith

/-! ## 1. Rounding to an integer -/

/-- The four rounding directions. -/
inductive RoundMode
  | nearest
  | chop
  | plusInf
  | minusInf
  deriving DecidableEq, Repr

variable {K : Type*} [Field K] [LinearOrder K] [IsStrictOrderedRing K] [FloorRing K]

/-- Round the magnitude `x` of a number to an integer.  `neg` is the sign of the number, which
only the two directed modes look at; ties in nearest mode go to the even neighbour. -/
def roundInt (m : RoundMode) (neg : Bool) (x : K) : ℤ :=
  match m with
  | .nearest =>
    if Int.fract x < 1 / 2 then ⌊x⌋
    else if 1 / 2 < Int.fract x then ⌊x⌋ + 1
    else if 2 ∣ ⌊x⌋ then ⌊x⌋ else ⌊x⌋ + 1
  | .chop => ⌊x⌋
  | .plusInf => if neg then ⌊x⌋ else ⌈x⌉
  | .minusInf => if neg then ⌈x⌉ else ⌊x⌋

/-- An integer is its own rounding, in every mode. -/
theorem roundInt_intCast (m : RoundMode) (neg : Bool) (n : ℤ) :
    roundInt m neg (n : K) = n := by
  cases m <;> simp [roundInt]

/-- A rounding is one of the two integers around `x`. -/
theorem roundInt_eq_or (m : RoundMode) (neg : Bool) (x : K) :
    roundInt m neg x = ⌊x⌋ ∨ roundInt m neg x = ⌈x⌉ := by
  by_cases hx : (⌊x⌋ : K) = x
  · left
    rw [← hx, roundInt_intCast, Int.floor_intCast]
  · have hc : ⌈x⌉ = ⌊x⌋ + 1 := by
      refine Int.ceil_eq_iff.mpr ⟨?_, ?_⟩
      · push_cast
        have := lt_of_le_of_ne (Int.floor_le x) hx
        linarith
      · push_cast
        exact (Int.lt_floor_add_one x).le
    cases m with
    | chop => exact Or.inl rfl
    | nearest => simp only [roundInt, hc]; split_ifs <;> simp
    | plusInf => simp only [roundInt, hc]; split_ifs <;> simp
    | minusInf => simp only [roundInt, hc]; split_ifs <;> simp

/-- A rounding is less than a unit away. -/
theorem abs_roundInt_sub_lt (m : RoundMode) (neg : Bool) (x : K) : |(roundInt m neg x : K) - x| < 1 := by
  rw [abs_lt]
  rcases roundInt_eq_or m neg x with h | h <;> rw [h]
  · have h1 := Int.floor_le x
    have h2 := Int.lt_floor_add_one x
    constructor <;> linarith
  · have h1 := Int.le_ceil x
    have h2 := Int.ceil_lt_add_one x
    constructor <;> linarith

/-- Rounding is exact only on integers. -/
theorem roundInt_eq_self_iff (m : RoundMode) (neg : Bool) (x : K) :
    (roundInt m neg x : K) = x ↔ (⌊x⌋ : K) = x := by
  constructor
  · intro h
    rw [← h, Int.floor_intCast]
  · intro h
    rw [← h, roundInt_intCast]

/-- A number less than half a unit from an integer is nearest to that one. -/
theorem roundInt_nearest_of_lt {x : K} {k : ℤ} (neg : Bool) (h1 : (k : K) - 1 / 2 < x)
    (h2 : x < k + 1 / 2) : roundInt .nearest neg x = k := by
  simp only [roundInt]
  by_cases hx : (k : K) ≤ x
  · have hfl : ⌊x⌋ = k := Int.floor_eq_iff.mpr ⟨hx, by linarith⟩
    have hfr : Int.fract x = x - k := by rw [Int.fract, hfl]
    rw [if_pos (by linarith), hfl]
  · have hfl : ⌊x⌋ = k - 1 := by
      refine Int.floor_eq_iff.mpr ⟨?_, ?_⟩ <;> push_cast <;> linarith
    have hfr : Int.fract x = x - k + 1 := by
      rw [Int.fract, hfl]
      push_cast
      ring
    rw [if_neg (by linarith), if_pos (by linarith), hfl, sub_add_cancel]

/-- The nearest integer is at most half a unit away. -/
theorem abs_sub_roundInt_nearest (neg : Bool) (x : K) :
    x - 1 / 2 ≤ roundInt .nearest neg x ∧ (roundInt .nearest neg x : K) ≤ x + 1 / 2 := by
  have hx := Int.self_sub_floor x
  have h0 := Int.fract_nonneg x
  have h1 := Int.fract_lt_one x
  simp only [roundInt]
  split_ifs <;> push_cast <;> constructor <;> linarith

/-- **A number that rounds to a multiple rounds to it in larger units too.** -/
theorem roundInt_div {m : RoundMode} {neg : Bool} {x : K} {n : ℕ} {k : ℤ} (hn : 2 ≤ n)
    (h : roundInt m neg x = n * k) : roundInt m neg (x / n) = k := by
  have hn2 : (2 : K) ≤ n := by exact_mod_cast hn
  have hpos : (0 : K) < n := by linarith
  have hfloor (hf : ⌊x⌋ = n * k) : ⌊x / n⌋ = k := by
    obtain ⟨h1, h2⟩ := Int.floor_eq_iff.mp hf
    push_cast at h1 h2
    rw [Int.floor_eq_iff, le_div_iff₀ hpos, div_lt_iff₀ hpos]
    constructor <;> linarith
  have hceil (hf : ⌈x⌉ = n * k) : ⌈x / n⌉ = k := by
    obtain ⟨h1, h2⟩ := Int.ceil_eq_iff.mp hf
    push_cast at h1 h2
    rw [Int.ceil_eq_iff, lt_div_iff₀ hpos, div_le_iff₀ hpos]
    constructor <;> linarith
  cases m with
  | nearest =>
    obtain ⟨h1, h2⟩ := abs_sub_roundInt_nearest neg x
    rw [h] at h1 h2
    push_cast at h1 h2
    apply roundInt_nearest_of_lt
    · rw [lt_div_iff₀ hpos]
      linarith
    · rw [div_lt_iff₀ hpos]
      linarith
  | chop => exact hfloor h
  | plusInf =>
    cases neg with
    | false => exact hceil h
    | true => exact hfloor h
  | minusInf =>
    cases neg with
    | false => exact hfloor h
    | true => exact hceil h

/-! ## 2. Signs -/

section Signed

variable {F : Type*} [Field F]

/-- The number with the given sign and magnitude. -/
def signed (neg : Bool) (x : F) : F := if neg then -x else x

@[simp] theorem signed_false (x : F) : signed false x = x := rfl

@[simp] theorem signed_true (x : F) : signed true x = -x := rfl

theorem signed_inj {neg : Bool} {x y : F} : signed neg x = signed neg y ↔ x = y := by
  cases neg <;> simp

theorem signed_mul (a b : Bool) (x y : F) :
    signed a x * signed b y = signed (a ^^ b) (x * y) := by
  cases a <;> cases b <;> simp

theorem signed_div (a b : Bool) (x y : F) :
    signed a x / signed b y = signed (a ^^ b) (x / y) := by
  cases a <;> cases b <;> simp [div_neg, neg_div]

theorem ratCast_signed (neg : Bool) (x : ℚ) : ((signed neg x : ℚ) : F) = signed neg (x : F) := by
  cases neg
  · rfl
  · exact Rat.cast_neg x

variable [LinearOrder F] [IsStrictOrderedRing F]

theorem abs_signed (neg : Bool) {x : F} (hx : 0 ≤ x) : |signed neg x| = x := by
  cases neg <;> simp [abs_of_nonneg hx]

theorem signed_lt_zero (neg : Bool) {x : F} (hx : 0 < x) :
    decide (signed neg x < 0) = neg := by
  cases neg
  · exact decide_eq_false (not_lt.mpr hx.le)
  · exact decide_eq_true (neg_lt_zero.mpr hx)

theorem signed_abs (x : F) : signed (decide (x < 0)) |x| = x := by
  by_cases hx : x < 0
  · rw [decide_eq_true hx, signed_true, abs_of_neg hx, neg_neg]
  · rw [decide_eq_false hx, signed_false, abs_of_nonneg (not_lt.mp hx)]

omit [IsStrictOrderedRing F] in
theorem abs_signed_sub (neg : Bool) (x y : F) : |signed neg x - signed neg y| = |x - y| := by
  cases neg
  · rfl
  · rw [signed_true, signed_true, neg_sub_neg, abs_sub_comm]

end Signed

/-! ## 3. Rounding to `p` significant bits -/

/-- The unit in the last place of `p` significant bits at the number `x`. -/
def ulp (p : ℕ) (x : K) : K := 2 ^ (Int.log 2 |x| - p + 1)

/-- `x` rounded once to `p` significant bits in mode `m`. -/
def rnd (p : ℕ) (m : RoundMode) (x : K) : K :=
  signed (decide (x < 0)) ((roundInt m (decide (x < 0)) (|x| / ulp p x) : K) * ulp p x)

/-- The binary logarithm of a scaled significand: `x` in `[2^n, 2^(n+1))` at the scale `2^k`. -/
theorem log_scaled {x : K} {n k : ℤ} (h1 : (2 : K) ^ n ≤ x) (h2 : x < 2 ^ (n + 1)) :
    Int.log 2 (x * 2 ^ k) = n + k := by
  have hk : (0 : K) < 2 ^ k := zpow_pos (by norm_num) k
  have hx : 0 < x := lt_of_lt_of_le (zpow_pos (by norm_num) n) h1
  have e : ∀ j : ℤ, (2 : K) ^ j * 2 ^ k = 2 ^ (j + k) := fun j => (zpow_add₀ (by norm_num) j k).symm
  apply le_antisymm
  · have : Int.log 2 (x * 2 ^ k) < n + k + 1 := by
      rw [← Int.lt_zpow_iff_log_lt (by norm_num) (mul_pos hx hk)]
      calc x * 2 ^ k < 2 ^ (n + 1) * 2 ^ k := mul_lt_mul_of_pos_right h2 hk
        _ = ((2 : ℕ) : K) ^ (n + k + 1) := by rw [e]; push_cast; congr 1; ring
    omega
  · rw [← Int.zpow_le_iff_le_log (by norm_num) (mul_pos hx hk)]
    calc ((2 : ℕ) : K) ^ (n + k) = 2 ^ n * 2 ^ k := by rw [e]; push_cast; rfl
      _ ≤ x * 2 ^ k := mul_le_mul_of_nonneg_right h1 hk.le

/-- **Rounding a scaled significand.**  A number of sign `neg` whose magnitude is `x * 2^k`
with `2^n ≤ x < 2^(n+1)` rounds to `p` bits by rounding `x` to a multiple of `2^(n+1-p)`. -/
theorem rnd_scaled {p : ℕ} {m : RoundMode} {neg : Bool} {x : K} {n k : ℤ}
    (h1 : (2 : K) ^ n ≤ x) (h2 : x < 2 ^ (n + 1)) :
    rnd p m (signed neg (x * 2 ^ k)) =
      signed neg ((roundInt m neg (x / 2 ^ (n + 1 - p)) : K) * 2 ^ (n + 1 - p) * 2 ^ k) := by
  have hk : (0 : K) < 2 ^ k := zpow_pos (by norm_num) k
  have hx : 0 < x := lt_of_lt_of_le (zpow_pos (by norm_num) n) h1
  have hpos : 0 < x * 2 ^ k := mul_pos hx hk
  have hu : ulp p (signed neg (x * 2 ^ k)) = 2 ^ (n + 1 - p) * 2 ^ k := by
    rw [ulp, abs_signed neg hpos.le, log_scaled h1 h2, ← zpow_add₀ (by norm_num)]
    congr 1
    ring
  have hq : x * 2 ^ k / (2 ^ (n + 1 - (p : ℤ)) * 2 ^ k) = x / 2 ^ (n + 1 - (p : ℤ)) :=
    mul_div_mul_right x _ hk.ne'
  rw [rnd, hu, abs_signed neg hpos.le, signed_lt_zero neg hpos, hq, mul_assoc]

/-! ## 4. Which numbers are representable -/

/-- `x` has at most `p` significant bits. -/
def Representable {F : Type*} [Field F] (p : ℕ) (x : F) : Prop :=
  ∃ n k : ℤ, |n| < 2 ^ p ∧ x = n * 2 ^ k

theorem representable_neg {F : Type*} [Field F] {p : ℕ} {x : F} (h : Representable p x) :
    Representable p (-x) := by
  obtain ⟨n, k, hn, rfl⟩ := h
  exact ⟨-n, k, by rwa [abs_neg], by push_cast; ring⟩

theorem ulp_pos (p : ℕ) (x : K) : 0 < ulp p x := zpow_pos (by norm_num) _

theorem ulp_le {p n : ℕ} {x : K} (hn : 0 < n) (h : |x| < 2 ^ n) : ulp p x ≤ 2 ^ ((n : ℤ) - p) := by
  have hlog : Int.log 2 |x| < n := by
    rcases eq_or_ne x 0 with rfl | hx
    · rw [abs_zero, Int.log_zero_right]
      exact_mod_cast hn
    · rw [← Int.lt_zpow_iff_log_lt (by norm_num) (abs_pos.mpr hx), zpow_natCast]
      exact_mod_cast h
  exact zpow_le_zpow_right₀ (by norm_num) (by omega)

/-- **A rounding is less than a unit in the last place away.** -/
theorem abs_rnd_sub_lt (p : ℕ) (m : RoundMode) (x : K) : |rnd p m x - x| < ulp p x := by
  have hu := ulp_pos p x
  have hscale : |x| / ulp p x * ulp p x = |x| := div_mul_cancel₀ _ hu.ne'
  have hmul := mul_lt_mul_of_pos_right (abs_roundInt_sub_lt m (decide (x < 0)) (|x| / ulp p x)) hu
  have hdiff : rnd p m x - x = signed (decide (x < 0))
      ((roundInt m (decide (x < 0)) (|x| / ulp p x) : K) * ulp p x) - signed (decide (x < 0)) |x| := by
    rw [signed_abs, rnd]
  rw [hdiff, abs_signed_sub]
  calc _ = |((roundInt m (decide (x < 0)) (|x| / ulp p x) : K) - |x| / ulp p x) * ulp p x| := by
        rw [sub_mul, hscale]
    _ = |(roundInt m (decide (x < 0)) (|x| / ulp p x) : K) - |x| / ulp p x| * ulp p x := by
        rw [abs_mul, abs_of_pos hu]
    _ < ulp p x := by rwa [one_mul] at hmul

/-- A number is less than `2^p` units in its last place. -/
theorem abs_div_ulp_lt (p : ℕ) (x : K) : |x| / ulp p x < 2 ^ p := by
  have hlt : |x| < ((2 : ℕ) : K) ^ (Int.log 2 |x| + 1) :=
    Int.lt_zpow_succ_log_self (by norm_num) |x|
  have hpow : (2 : K) ^ p * ulp p x = 2 ^ (Int.log 2 |x| + 1) := by
    rw [ulp, ← zpow_natCast, ← zpow_add₀ (by norm_num)]
    congr 1
    ring
  rw [div_lt_iff₀ (ulp_pos p x), hpow]
  exact_mod_cast hlt

/-- A number of at most `p` bits is a whole number of units in its last place. -/
theorem Representable.floor_div_ulp {p : ℕ} {x : K} (h : Representable p x) :
    (⌊|x| / ulp p x⌋ : K) = |x| / ulp p x := by
  obtain ⟨n, k, hn, rfl⟩ := h
  by_cases h0 : n = 0
  · simp [h0]
  · have hpos : 0 < n.natAbs := Int.natAbs_pos.mpr h0
    have hlog : (Nat.log 2 n.natAbs : ℤ) + 1 ≤ p := by
      have hlt : n.natAbs < 2 ^ p := by
        rw [← Int.natCast_natAbs] at hn
        exact_mod_cast hn
      have := Nat.log_lt_of_lt_pow hpos.ne' hlt
      omega
    have habs : |(n : K) * 2 ^ k| = (n.natAbs : K) * 2 ^ k := by
      rw [abs_mul, abs_of_pos (zpow_pos (by norm_num : (0 : K) < 2) k), ← Int.cast_abs,
        ← Int.natCast_natAbs, Int.cast_natCast]
    have h1 : (2 : K) ^ (Nat.log 2 n.natAbs : ℤ) ≤ n.natAbs := by
      rw [zpow_natCast]
      exact_mod_cast Nat.pow_log_le_self 2 hpos.ne'
    have h2 : (n.natAbs : K) < 2 ^ ((Nat.log 2 n.natAbs : ℤ) + 1) := by
      have h := Nat.lt_pow_succ_log_self (b := 2) (by norm_num) n.natAbs
      have e : ((Nat.log 2 n.natAbs : ℤ) + 1) = ((Nat.log 2 n.natAbs + 1 : ℕ) : ℤ) := by
        push_cast
        rfl
      rw [e, zpow_natCast]
      exact_mod_cast h
    obtain ⟨d, hd⟩ := Int.eq_ofNat_of_zero_le (sub_nonneg.mpr hlog)
    -- the unit in the last place divides the last place of `n`
    have hq : (n.natAbs : K) * 2 ^ k / ulp p ((n : K) * 2 ^ k) = ((n.natAbs * 2 ^ d : ℕ) : K) := by
      rw [ulp, habs, log_scaled h1 h2, div_eq_iff (zpow_pos (by norm_num : (0 : K) < 2) _).ne']
      push_cast
      rw [← zpow_natCast, mul_assoc, ← zpow_add₀ (by norm_num : (2 : K) ≠ 0)]
      congr 2
      rw [← hd]
      ring
    rw [habs, hq, Int.floor_natCast, Int.cast_natCast]

/-- **A rounding is exact just on the numbers of at most `p` bits.** -/
theorem rnd_eq_self_iff (p : ℕ) (m : RoundMode) (x : K) :
    rnd p m x = x ↔ Representable p x := by
  have hu := ulp_pos p x
  have hsign := signed_abs x
  have hiff : rnd p m x = x ↔ (⌊|x| / ulp p x⌋ : K) = |x| / ulp p x := by
    conv_lhs => rhs; rw [← hsign]
    rw [rnd, signed_inj, ← eq_div_iff hu.ne', roundInt_eq_self_iff]
  rw [hiff]
  constructor
  · intro hfl
    have habs : |x| = (⌊|x| / ulp p x⌋ : K) * 2 ^ (Int.log 2 |x| - p + 1) := by
      rw [hfl, ← ulp, div_mul_cancel₀ _ hu.ne']
    have hlt : |⌊|x| / ulp p x⌋| < 2 ^ p := by
      have h0 : 0 ≤ ⌊|x| / ulp p x⌋ := Int.floor_nonneg.mpr (div_nonneg (abs_nonneg x) hu.le)
      rw [abs_of_nonneg h0, Int.floor_lt]
      push_cast
      exact abs_div_ulp_lt p x
    have hrep : Representable p |x| := ⟨_, _, hlt, habs⟩
    rcases abs_choice x with h | h
    · rwa [h] at hrep
    · rw [h] at hrep
      simpa using representable_neg hrep
  · exact Representable.floor_div_ulp

end Cpm8000.Arith
