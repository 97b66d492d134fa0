/-
# Aligning a significand

The conversions shift a significand until its binary point is where they want it, and normalise the
result afterwards.

* `shiftdigs_roundOdd`: a right shift leaves the shifted number rounded to odd.  The carry that the
  caller leaves enters at the top; it does no harm when the shift is long enough to bring it down
  among the sticky bits.
* `normordigs_keeps`: normalising an exact significand, zero or not, leaves the number it denotes.
-/
import Cpm8000.Fpe.Overflow

namespace Cpm8000.Fpe

open Arith

/-! ## 1. Shifting right -/

/-- Halving a number often enough leaves the sticky bit. -/
theorem jam_two_iterate_one {n X : ℕ} (hX : 0 < X) (h : X ≤ 2 ^ n) : (jam 2)^[n] X = 1 := by
  induction n generalizing X with
  | zero => exact le_antisymm h hX
  | succ n ih =>
    rw [Function.iterate_succ_apply]
    refine ih (jam_two_pos hX) ?_
    rw [Nat.pow_succ] at h
    rw [jam]
    split_ifs <;> omega

theorem shifD1_iterate (n : ℕ) (s : Acc) :
    ((shifD1 false)^[n] s).wide = (jam 2)^[n] s.wide ∧ ((shifD1 false)^[n] s).expBits = s.expBits ∧
      ((shifD1 false)^[n] s).rh6 = s.rh6 ∧ ((shifD1 false)^[n] s).rh5 = s.rh5 := by
  induction n generalizing s with
  | zero => exact ⟨rfl, rfl, rfl, rfl⟩
  | succ n ih =>
    obtain ⟨h1, h2, h3, h4⟩ := ih (shifD1 false s)
    have hw : (shifD1 false s).wide = jam 2 s.wide := by
      rw [shifD1_wide, Bool.toNat_false, Nat.mul_zero, Nat.add_zero]
    rw [Function.iterate_succ_apply, Function.iterate_succ_apply, ← hw]
    exact ⟨h1, h2.trans (shifD1_expBits _ _), h3.trans (shifD1_rh6 _ _), h4.trans (shifD1_rh5 _ _)⟩

/-- A right shift with a carry is one step with it and the others without. -/
theorem shiftdigs_pos {r0 : BitVec 16} {k : ℕ} (hk : r0.toNat = k + 1) (hlt : k + 1 < 2 ^ 15) (c : Bool)
    (s : Acc) : shiftdigs r0 c s = (shifD1 false)^[k] (shifD1 c s) := by
  have hm : ¬ r0.msb = true := fun h => by
    have := (msb_eq_true_iff r0).mp h
    omega
  have h0 : ¬ r0 = 0 := fun h => by
    rw [h] at hk
    exact absurd hk (Nat.succ_ne_zero k).symm
  rw [shiftdigs, if_neg hm, if_neg h0, hk, Nat.add_sub_cancel]

/-- A carry above a number comes down among its sticky bits. -/
theorem jam_carry_roundOdd {W k : ℕ} (h0 : 0 < W) (hW : W < 2 ^ 72) (hk : 73 ≤ k) :
    RoundOdd ((W : ℚ) / 2 ^ (k + 1)) ((jam 2)^[k] (jam 2 (W + 2 ^ 72 * true.toNat))) := by
  have hpow : (2 : ℕ) ^ 73 ≤ 2 ^ k := Nat.pow_le_pow_right (by norm_num) hk
  have hpos : 0 < W + 2 ^ 72 * true.toNat := Nat.add_pos_left h0 _
  have hjam : jam 2 (W + 2 ^ 72 * true.toNat) ≤ 2 ^ k := by
    rw [Bool.toNat_true, jam]
    split_ifs <;> omega
  rw [jam_two_iterate_one (jam_two_pos hpos) hjam]
  have hW0 : (0 : ℚ) < W := by exact_mod_cast h0
  have hWk : (W : ℚ) < 2 ^ (k + 1) := by
    have hlt : W < 2 ^ (k + 1) := by
      rw [Nat.pow_succ]
      omega
    exact_mod_cast hlt
  refine Or.inr ⟨rfl, ?_, ?_⟩
  · rw [Nat.cast_one, sub_self]
    exact div_pos hW0 (by positivity)
  · rw [div_lt_iff₀ (by positivity)]
    push_cast
    linarith

/-- **A right shift leaves the shifted significand rounded to odd**, and nothing else is changed.  A
carry may come in when it is shifted out again. -/
theorem shiftdigs_roundOdd {r0 : BitVec 16} {k : ℕ} (hk : r0.toNat = k + 1) (hlt : k + 1 < 2 ^ 15)
    {c : Bool} {s : Acc} (h5 : s.rl5 = 0) (hpos : 0 < s.digits) (hc : c = true → 73 ≤ k) :
    RoundOdd (4 * ((s.digits : ℚ) / 2 ^ (k + 1))) (shiftdigs r0 c s).grs ∧
      (shiftdigs r0 c s).rh6 = s.rh6 ∧ (shiftdigs r0 c s).rh5 = s.rh5 := by
  obtain ⟨hw, -, h6, h5'⟩ := shifD1_iterate k (shifD1 c s)
  rw [shiftdigs_pos hk hlt]
  refine ⟨?_, h6.trans (shifD1_rh6 c s), h5'.trans (shifD1_rh5 c s)⟩
  have hwide : s.wide = 256 * s.digits := by
    rw [Acc.wide, h5]
    exact (Nat.add_zero _).trans (Nat.mul_comm _ _)
  rw [shifD1_wide] at hw
  -- the wide number is the shifted one rounded to odd
  have hodd : RoundOdd ((s.wide : ℚ) / 2 ^ (k + 1)) ((shifD1 false)^[k] (shifD1 c s)).wide := by
    rw [hw]
    cases c with
    | false =>
      have h0 : s.wide + 2 ^ 72 * false.toNat = s.wide := by simp
      rw [h0, ← Function.iterate_succ_apply]
      exact (roundOdd_natCast s.wide).jam_iterate (k + 1)
    | true => exact jam_carry_roundOdd (by omega) s.wide_lt (hc rfl)
  have hjam := hodd.jam (n := 64) (by norm_num) (by norm_num)
  rw [← Acc.grs_eq_jam] at hjam
  have hval : (s.wide : ℚ) / 2 ^ (k + 1) / (64 : ℕ) = 4 * ((s.digits : ℚ) / 2 ^ (k + 1)) := by
    rw [hwide]
    push_cast
    ring
  rwa [hval] at hjam

/-! ## 2. Normalising -/

/-- The word that is tested for zero. -/
theorem normordigs_word_eq_zero_iff (s : Acc) :
    word (hib s.rq8.w3) (lob s.rq8.w3 ||| s.rl5) ||| s.rq8.w2 ||| s.rq8.w1 ||| s.rq8.w0 = 0 ↔
      s.wide = 0 := by
  have h5 : s.rl5 = 0 ↔ s.rl5.toNat = 0 := ⟨fun h => by rw [h]; rfl, eq_zero_of_toNat⟩
  have hor : ∀ x y : BitVec 16, x ||| y = 0 ↔ x = 0 ∧ y = 0 := fun x y => by
    rw [toNat_or_eq_zero_iff]
    exact and_congr ⟨eq_zero_of_toNat, fun h => by rw [h]; rfl⟩ ⟨eq_zero_of_toNat, fun h => by rw [h]; rfl⟩
  have hz : ∀ x : BitVec 16, x = 0 ↔ x.toNat = 0 := fun x => ⟨fun h => by rw [h]; rfl, eq_zero_of_toNat⟩
  rw [hor, hor, hor, word_orb_eq_zero_iff, h5, hz, hz, hz, Acc.wide, Op.digits, Quad.toNat]
  omega

/-- A normalised significand is left alone. -/
theorem normordigs_of_normal {s : Acc} (h : s.Normal) : normordigs s = some s := by
  have hbit : s.rq8.w0.getLsbD 15 = true := (Quad.getLsbD_w0_iff _).mpr h
  have hr0 := mt (normordigs_word_eq_zero_iff s).mp fun hw => by
    rw [Acc.wide] at hw
    unfold Op.Normal at h
    omega
  rw [normordigs, normdigs, if_neg hr0, normLoop, if_pos hbit]

/-- Zero gets the exponent zero. -/
theorem normordigs_of_zero {s : Acc} (h : s.wide = 0) :
    normordigs s = some { s with r7 := 0, rl6 := 0 } := by
  have hr0 := (normordigs_word_eq_zero_iff s).mpr h
  rw [normordigs]
  simp only [hr0]
  rfl

theorem normordigs_spec {s : Acc} (h : s.wide ≠ 0) :
    ∃ n r, normordigs s = some r ∧ Normalised n s r := by
  rw [normordigs]
  exact normdigs_spec (mt (normordigs_word_eq_zero_iff s).mp h) h

/-- An exact significand is shifted as it is, nothing being below it. -/
theorem normordigs_exact {s : Acc} (h5 : s.rl5 = 0) (hpos : 0 < s.digits) :
    ∃ n r, normordigs s = some r ∧ Normalised n s r ∧ r.rl5 = 0 ∧ r.digits = 2 ^ n * s.digits ∧ n < 64 := by
  have hwide : s.wide = 256 * s.digits := by
    rw [Acc.wide, h5]
    exact (Nat.add_zero _).trans (Nat.mul_comm _ _)
  obtain ⟨n, r, hr, hN⟩ := normordigs_spec (show s.wide ≠ 0 by omega)
  have hdig : r.rl5.toNat = 0 ∧ r.digits = 2 ^ n * s.digits := by
    have hrl := r.rl5.isLt
    have hrw : r.wide = r.digits * 256 + r.rl5.toNat := rfl
    have hw := hN.wide
    rw [hwide, hrw, Nat.mul_left_comm] at hw
    omega
  refine ⟨n, r, hr, hN, eq_zero_of_toNat hdig.1, hdig.2, ?_⟩
  by_contra hn
  have hlt := r.digits_lt
  rw [hdig.2] at hlt
  have hpow : (2 : ℕ) ^ 64 ≤ 2 ^ n := Nat.pow_le_pow_right (by norm_num) (not_lt.mp hn)
  have hmul := Nat.mul_le_mul hpow (Nat.one_le_iff_ne_zero.mpr hpos.ne')
  omega

/-- The exponent before a shift that does not wrap. -/
theorem add_of_mod {a n b : ℕ} (h : (a + n) % 2 ^ 24 = b) (ha : a < 2 ^ 24) (hn : n < 64)
    (hb : 64 ≤ b) : a + n = b := by
  omega

/-- Taking `n` off an exponent of sixteen bits. -/
theorem expBits_less {r s : Op} {n : ℕ} (h : r.expBits + n = s.expBits) (hs : s.expBits < 2 ^ 16) :
    r.rl6 = 0 ∧ r.r7.toNat ≤ s.expBits ∧ s.expo = n + r.expo := by
  have hrE : r.expo = r.expBits := Op.expo_of_expBits rfl (by omega)
  have hsE : s.expo = s.expBits := Op.expo_of_expBits rfl (by omega)
  have h6 : r.rl6 = 0 := rl6_of_expo (by omega) (by omega)
  have h7 := expo_of_rl6 h6
  exact ⟨h6, by omega, by omega⟩

/-- What normalising leaves of an exact significand. -/
structure Normed (s r : Acc) : Prop where
  val : r.val = s.val
  rh6 : r.rh6 = s.rh6
  rh5 : r.rh5 = s.rh5
  rl5 : r.rl5 = 0
  rl6 : r.rl6 = 0
  le : r.r7.toNat ≤ s.expBits
  normal : r.digits = 0 ∨ r.Normal

/-- **Normalising leaves the number**, when the exponent has room for the shift. -/
theorem normordigs_keeps {s : Acc} (h5 : s.rl5 = 0) (hE : 64 ≤ s.expBits) (hE' : s.expBits < 2 ^ 16) :
    ∃ r, normordigs s = some r ∧ Normed s r := by
  have hwide : s.wide = 256 * s.digits := by
    rw [Acc.wide, h5]
    exact (Nat.add_zero _).trans (Nat.mul_comm _ _)
  by_cases h0 : s.wide = 0
  · have hd : s.digits = 0 := by omega
    refine ⟨_, normordigs_of_zero h0, ?_, rfl, rfl, h5, rfl, Nat.zero_le _, Or.inl hd⟩
    have hd' : Op.digits { s with r7 := 0, rl6 := 0 : Acc }.toOp = 0 := hd
    have hmag : Op.mag { s with r7 := 0, rl6 := 0 : Acc }.toOp = s.mag := by
      rw [Op.mag, Op.mag, hd', hd, Nat.cast_zero, zero_mul, zero_mul]
    rw [Op.val, Op.val, hmag]
    rfl
  · obtain ⟨n, r, hr, hN, hrl, hdig, hn⟩ := normordigs_exact h5 (show 0 < s.digits by omega)
    have hbits := add_of_mod hN.expBits r.expBits_lt hn hE
    obtain ⟨hr6, hr7, hexpo⟩ := expBits_less hbits hE'
    refine ⟨r, hr, ?_, hN.rh6, hN.rh5, hrl, hr6, hr7, Or.inr hN.normal⟩
    have hneg : r.neg = s.neg := by rw [Op.neg, hN.rh6, Op.neg]
    have hz : (2 : ℚ) ^ (s.expo - bias - 63) = 2 ^ n * 2 ^ (r.expo - bias - 63) := by
      rw [← zpow_natCast, ← zpow_add₀ (by norm_num), hexpo]
      congr 1
      ring
    rw [Op.val, Op.val, hneg, Op.mag, Op.mag, hz, hdig]
    congr 1
    push_cast
    ring

/-! ## 3. Integers -/

/-- The significand of an integer is the integer moved to the left. -/
theorem digits_of_natCast {o : Op} (hn : o.Normal) {N : ℕ} (h0 : 0 < N) (hN : N < 2 ^ 64)
    (h : o.mag = N) : ∃ k : ℕ, k ≤ 63 ∧ o.expo + k = 0x403E ∧ o.digits = N * 2 ^ k := by
  have hn' : 2 ^ 63 ≤ o.digits := hn
  rcases le_or_gt (o.expo - bias - 63) 0 with hz | hz
  · obtain ⟨k, hk⟩ := Int.eq_ofNat_of_zero_le (neg_nonneg.mpr hz)
    have hd : o.digits = N * 2 ^ k := by
      have hq : (o.digits : ℚ) = N * 2 ^ k := by
        rw [← h, Op.mag, ← zpow_natCast, mul_assoc, ← zpow_add₀ (by norm_num)]
        have hzero : o.expo - bias - 63 + (k : ℤ) = 0 := by omega
        rw [hzero, zpow_zero, mul_one]
      exact_mod_cast hq
    refine ⟨k, ?_, by rw [bias] at hk; omega, hd⟩
    by_contra hk64
    have hpow : 2 ^ 64 ≤ 2 ^ k := Nat.pow_le_pow_right (by norm_num) (by omega)
    have hle := Nat.mul_le_mul h0 hpow
    rw [Nat.one_mul, ← hd] at hle
    exact absurd o.digits_lt (not_lt.mpr hle)
  · have hge : (2 : ℚ) ^ 64 ≤ N := by
      have hd : (2 : ℚ) ^ 63 ≤ o.digits := by exact_mod_cast hn'
      have hp : (2 : ℚ) ^ (1 : ℤ) ≤ 2 ^ (o.expo - bias - 63) := zpow_le_zpow_right₀ (by norm_num) hz
      calc (2 : ℚ) ^ 64 = (2 : ℚ) ^ 63 * (2 : ℚ) ^ (1 : ℤ) := by norm_num
        _ ≤ (o.digits : ℚ) * 2 ^ (o.expo - bias - 63) := mul_le_mul hd hp (by positivity) (Nat.cast_nonneg _)
        _ = N := h
    have hge' : 2 ^ 64 ≤ N := by exact_mod_cast hge
    omega

/-- The error byte that rounding leaves. -/
theorem round_rh5 (e : Env) (s : Acc) : (round e s).rh5 = s.rh5 ∨ (round e s).rh5 = set s.rh5 4 := by
  have hroundup (b : Bump) : (roundup b).rh5 = b.s.rh5 := by
    simp only [roundup]
    split_ifs <;> rfl
  have hkept := (pre_kept e s).rh5
  rw [round, foolsround, nowround]
  simp only
  split_ifs at hkept ⊢ <;> rw [hroundup] <;> simp [hkept]

end Cpm8000.Fpe
