/-
# Rounding a shifted significand

A significand is followed by a guard bit and a sticky bit, and the two of them say all that a
rounding needs of what comes after.  A right shift moves the bits down through the guard bit and
gathers what it loses in the sticky bit, so it makes no difference whether a number is shifted and
then rounded, or the exact quotient is rounded.

* `shifD1_grs`: one step of the shift halves significand, guard and sticky bit, the lost bit kept.
* `shiftdigs_grs`: so does the whole shift, at any distance, the carry of the caller on top.
* `round_rounds`: rounding leaves the significand the mode asks for.
* `round_shifted`: both together.
-/
import Cpm8000.Fpe.Align

namespace Cpm8000.Fpe

open Arith

/-! ## 1. Shifting -/

/-- The order of two sticky divisions does not matter. -/
theorem jam_comm_two (W : ℕ) : jam 64 (jam 2 W) = jam 2 (jam 64 W) := by
  unfold jam
  split_ifs <;> omega

theorem jam_add_carry (W k : ℕ) : jam 64 (W + 2 ^ 72 * k) = jam 64 W + 2 ^ 66 * k := by
  unfold jam
  split_ifs <;> omega

theorem Acc.grs_of_clear {s : Acc} (h : s.rl5 = 0) : s.grs = 4 * s.digits := by
  rw [Acc.grs_eq_jam, Acc.wide, h]
  exact (congrArg (jam 64) ((Nat.add_zero _).trans (Nat.mul_comm _ _))).trans (jam_64 _)

/-- **One step of the right shift**, seen by a later rounding. -/
theorem shifD1_grs (c : Bool) (s : Acc) :
    (shifD1 c s).grs = jam 2 (s.grs + 2 ^ 66 * c.toNat) := by
  rw [Acc.grs_eq_jam, shifD1_wide, jam_comm_two, jam_add_carry, ← Acc.grs_eq_jam]

theorem shifD1_iterate_grs (n : ℕ) (s : Acc) : ((shifD1 false)^[n] s).grs = (jam 2)^[n] s.grs := by
  induction n generalizing s with
  | zero => rfl
  | succ n ih =>
    rw [Function.iterate_succ_apply, Function.iterate_succ_apply, ih, shifD1_grs, Bool.toNat_false,
      Nat.mul_zero, Nat.add_zero]

/-- The number after a right shift by `n` places.  The carry of the caller is shifted in with the
first of them, so a shift by no place at all does not see it. -/
def shiftedValue (x : ℚ) (c : Bool) (n : ℕ) : ℚ :=
  if n = 0 then x else (x + 2 ^ 64 * c.toNat) / 2 ^ n

/-- **The right shift**: what is left stands for the exact quotient, and nothing but the digits and
the rounding byte has changed. -/
theorem shiftdigs_grs {r0 : BitVec 16} (hr : r0.toNat < 2 ^ 15) (c : Bool) {s : Acc} {x : ℚ}
    (hx : RoundOdd (4 * x) s.grs) :
    RoundOdd (4 * shiftedValue x c r0.toNat) (shiftdigs r0 c s).grs ∧
      (shiftdigs r0 c s).rh6 = s.rh6 ∧ (shiftdigs r0 c s).rh5 = s.rh5 ∧
      (shiftdigs r0 c s).expBits = s.expBits := by
  rcases Nat.eq_zero_or_pos r0.toNat with h0 | h0
  · have hz : r0 = 0 := eq_zero_of_toNat h0
    have hs : shiftdigs r0 c s = s := by
      rw [hz, shiftdigs, if_neg (by decide), if_pos rfl]
    rw [hs, shiftedValue, if_pos h0]
    exact ⟨hx, rfl, rfl, rfl⟩
  · obtain ⟨k, hk⟩ : ∃ k, r0.toNat = k + 1 := Nat.exists_eq_succ_of_ne_zero h0.ne'
    obtain ⟨-, he, h6, h5⟩ := shifD1_iterate k (shifD1 c s)
    rw [shiftdigs_pos hk (by omega)]
    refine ⟨?_, h6.trans (shifD1_rh6 c s), h5.trans (shifD1_rh5 c s), he.trans (shifD1_expBits c s)⟩
    have hcarry : RoundOdd ((2 ^ 66 * c.toNat : ℕ) + 4 * x) (2 ^ 66 * c.toNat + s.grs) :=
      hx.natCast_add (by omega)
    have hstep := (hcarry.jam_iterate (k + 1))
    rw [Function.iterate_succ_apply, Nat.add_comm (2 ^ 66 * c.toNat), ← shifD1_grs, ← shifD1_iterate_grs] at hstep
    have hval : ((2 ^ 66 * c.toNat : ℕ) + 4 * x) / 2 ^ (k + 1) = 4 * shiftedValue x c r0.toNat := by
      rw [shiftedValue, if_neg h0.ne', hk]
      push_cast
      ring
    rwa [hval] at hstep

/-! ## 2. Rounding -/

/-- The number `y`, in units of the last place of the selected precision, rounded in the selected
mode. -/
def inUnits (e : Env) (neg : Bool) (y : ℚ) : ℤ := roundInt e.mode neg (y / 2 ^ (64 - e.prec))

/-- **The significand `y` of `s` has been rounded to leave `t`.**  The significand is the rounded
one, or a leading bit with the exponent one up when it carried out; nothing is left below the
precision, and the operation is flagged inexact just when that lost something. -/
structure Rounds (e : Env) (s t : Acc) (y : ℚ) : Prop where
  rh6 : t.rh6 = s.rh6
  result : (inUnits e s.neg y < 2 ^ e.prec ∧
      (t.digits : ℤ) = inUnits e s.neg y * 2 ^ (64 - e.prec) ∧ t.expBits = s.expBits) ∨
    (inUnits e s.neg y = 2 ^ e.prec ∧ t.digits = 2 ^ 63 ∧ t.expBits = (s.expBits + 1) % 2 ^ 24)
  cleared : t.digits % 2 ^ (64 - e.prec) = 0
  inexact : t.inexact = true ↔
    s.inexact = true ∨ (inUnits e s.neg y : ℚ) * 2 ^ (64 - e.prec) ≠ y

/-- **Rounding leaves what the mode asks for**, whatever significand with guard and sticky bit it
is given. -/
theorem round_rounds (e : Env) {s : Acc} {y : ℚ} (hy : RoundOdd (4 * y) s.grs) :
    Rounds e s (round e s) y := by
  have hJ := roundOdd_jam_prec e hy
  rw [← jammed, ← jam_split (jammed e s)] at hJ
  have hR : inUnits e s.neg y = rounded e s := hJ.roundInt_eq e.mode s.neg
  have hpos : (0 : ℚ) < 2 ^ (64 - e.prec) := by positivity
  have hexact : (inUnits e s.neg y : ℚ) * 2 ^ (64 - e.prec) = y ↔
      (jammed e s / 2 % 2 == 1) = false ∧ (jammed e s % 2 == 1) = false := by
    rw [← hJ.floor_eq_self_iff, ← roundInt_eq_self_iff e.mode s.neg, eq_div_iff hpos.ne']
    rfl
  obtain ⟨h6, hi, hcases⟩ := round_spec e s
  refine ⟨h6, ?_, ?_, ?_⟩
  · rw [hR]
    rcases hcases with ⟨h1, h2, h3⟩ | ⟨h1, h2, h3⟩
    · exact Or.inl ⟨by exact_mod_cast h1, by exact_mod_cast h2, h3⟩
    · exact Or.inr ⟨by exact_mod_cast h1, h2, h3⟩
  · rcases hcases with ⟨-, h2, -⟩ | ⟨-, h2, -⟩
    · rw [h2]
      exact Nat.mul_mod_left _ _
    · rw [h2]
      rcases prec_cases e with hp | hp | hp <;> rw [hp] <;> decide
  · rw [hi, Ne, hexact]
    cases s.inexact <;> cases (jammed e s / 2 % 2 == 1) <;> cases (jammed e s % 2 == 1) <;> simp

/-- Nothing is lost just when the bits below the precision and the rounding byte are clear. -/
theorem round_inexact_iff (e : Env) (s : Acc) :
    (round e s).inexact = true ↔
      s.inexact = true ∨ s.digits % 2 ^ (64 - e.prec) ≠ 0 ∨ s.rl5 ≠ 0 := by
  obtain ⟨-, hi, -⟩ := round_spec e s
  have hg := grs_low_eq_zero_iff s.rl5
  have hlow := grs_low_lt s.rl5
  have hgrs : s.grs = 4 * s.digits +
      (2 * (s.rl5.getLsbD 7).toNat + (decide (s.rl5.toNat % 128 ≠ 0)).toNat) := by
    unfold Acc.grs
    omega
  generalize 2 * (s.rl5.getLsbD 7).toNat + (decide (s.rl5.toNat % 128 ≠ 0)).toNat = r at hg hlow hgrs
  -- the guard and the sticky bit of the jammed significand are clear
  have hbits : ((jammed e s / 2 % 2 == 1) = false ∧ (jammed e s % 2 == 1) = false) ↔
      s.digits % 2 ^ (64 - e.prec) = 0 ∧ r = 0 := by
    rw [beq_eq_false_iff_ne, beq_eq_false_iff_ne]
    unfold jammed
    rw [hgrs]
    rcases prec_cases e with hp | hp | hp <;> rw [hp]
    · simp only [jam]
      split_ifs <;> omega
    · simp only [jam]
      split_ifs <;> omega
    · simp only [jam, Nat.sub_self, Nat.pow_zero, Nat.mod_one, if_true, Nat.div_one,
        true_and]
      omega
  rw [hi, ← hg]
  constructor
  · intro h
    by_contra hn
    push Not at hn
    obtain ⟨h1, h2⟩ := hbits.mpr ⟨hn.2.1, hn.2.2⟩
    rw [h1, h2, Bool.or_false, Bool.or_false] at h
    exact hn.1 h
  · intro h
    by_contra hn
    rw [Bool.not_eq_true, Bool.or_eq_false_iff, Bool.or_eq_false_iff] at hn
    obtain ⟨⟨h1, h2⟩, h3⟩ := hn
    obtain ⟨h4, h5⟩ := hbits.mp ⟨h2, h3⟩
    rcases h with h | h | h
    · rw [h1] at h
      cases h
    · exact h h4
    · exact h h5

/-! ## 3. Both together -/

/-- **One rounding.**  `x` is the significand of `s` with its guard and sticky bit.  Rounding
leaves the significand the mode asks for, and shifted to the right by any distance before, the one
it asks for the exact quotient. -/
theorem round_shifted (e : Env) {s : Acc} {x : ℚ} (hx : RoundOdd (4 * x) s.grs) :
    Rounds e s (round e s) x ∧
      ((round e s).inexact = true ↔
        s.inexact = true ∨ s.digits % 2 ^ (64 - e.prec) ≠ 0 ∨ s.rl5 ≠ 0) ∧
      ∀ (r0 : BitVec 16) (c : Bool), r0.toNat < 2 ^ 15 →
        Rounds e s (round e (shiftdigs r0 c s)) (shiftedValue x c r0.toNat) := by
  refine ⟨round_rounds e hx, round_inexact_iff e s, fun r0 c hr => ?_⟩
  obtain ⟨hodd, h6, h5, he⟩ := shiftdigs_grs hr c hx
  have hneg : (shiftdigs r0 c s).neg = s.neg := by rw [Op.neg, h6, Op.neg]
  have hinx : (shiftdigs r0 c s).inexact = s.inexact := by rw [Acc.inexact, h5, Acc.inexact]
  obtain ⟨r6, rres, rclr, rinx⟩ := round_rounds e hodd
  rw [hneg] at rres rinx
  rw [he] at rres
  rw [hinx] at rinx
  exact ⟨r6.trans h6, rres, rclr, rinx⟩

/-- The theorem at a significand of one and a half units of the last place, shifted out of sight by
seventy places. -/
theorem round_shifted_seventy :
    Rounds extNearest ⟨⟨0, 0, 0x3FFF, ⟨0, 0, 0, 1⟩⟩, 0, 0x80⟩
      (round extNearest (shiftdigs 70 false ⟨⟨0, 0, 0x3FFF, ⟨0, 0, 0, 1⟩⟩, 0, 0x80⟩))
      (shiftedValue (3 / 2) false 70) := by
  have hx : RoundOdd (4 * (3 / 2 : ℚ)) (Acc.grs ⟨⟨0, 0, 0x3FFF, ⟨0, 0, 0, 1⟩⟩, 0, 0x80⟩) := by
    have h : Acc.grs ⟨⟨0, 0, 0x3FFF, ⟨0, 0, 0, 1⟩⟩, 0, 0x80⟩ = 6 := by decide
    rw [h]
    exact Or.inl (by norm_num)
  exact (round_shifted extNearest hx).2.2 70 false (by decide)

end Cpm8000.Fpe
