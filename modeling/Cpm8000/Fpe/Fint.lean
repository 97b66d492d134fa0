/-
# Rounding to an integer

`intno` shifts a small operand until its last place at the selected precision is the unit, rounds
there, and normalises the result.  An operand whose last place is the unit or more is just rounded.

The place comes from the precision bits of the format byte, and `intno` asks for the single bit
first: with the double bit alone it takes the place of the extended precision, while `round` rounds to
the double one, eleven bits further up.

* `intno_small`, `intno_large`: what becomes of the two kinds of operands.
* `actint_integral_iff`: when the result is the operand rounded to an integer.
-/
import Cpm8000.Fpe.Overflow
import Cpm8000.Fpe.Align

namespace Cpm8000.Fpe

open Arith

/-! ## 1. The code -/

/-- The biased exponent at which the last place of the precision is the unit. -/
def unitExp (e : Env) : BitVec 16 :=
  if !e.rh4.getLsbD 0 then 0x403E
  else if !e.rh4.getLsbD 1 then 0x4016
  else 0x4033

/-- Put the last place at the unit. -/
def alignUnit (e : Env) (s : Acc) : Acc :=
  let r1 := unitExp e
  let r0 := sub r1 s.r7
  if r1.sle s.r7 then s
  else { shiftdigs r0.val r0.c s with r7 := r1, rl6 := 0 }

/-- Normalise with the rounding bits put aside, and check the range. -/
def intOver (e : Env) (s : Acc) : Option Acc :=
  (normordigs { s with rl5 := 0 }).map fun t => overRange e { t with rl5 := s.rl5 }

/-- Round to the precision specified for the result. -/
def intno (e : Env) (s : Acc) : Option Acc :=
  (normordigs s).bind fun s => intOver e (round e (alignUnit e s))

/-- The result is a NaN, checked for the bits that the destination has no room for. -/
def resnsrc (e : Env) (s : Acc) : Acc :=
  if !e.rh4.getLsbD 0 then s
  else if e.rh4.getLsbD 1 then
    if 0x7FF &&& s.rq8.w3 = 0 then s else { s with rh5 := set s.rh5 0 }
  else if s.rq8.lo ≠ 0 then { s with rh5 := set s.rh5 0 }
  else if 0xFF &&& s.rq8.w1 = 0 then s
  else { s with rh5 := set s.rh5 0 }

/-- The stock NaN. -/
def makenan (s : Acc) : Acc :=
  { s with rq8 := ⟨0x4000, 0, 0, 0⟩, rh6 := 0, rl6 := 0, r7 := 0x7FFF }

/-- A trapping NaN stays one when the trap is enabled. -/
def dotrap (e : Env) (s : Acc) : Acc :=
  if e.traps.getLsbD 6 then s else makenan s

/-- The cases of `Fint`. -/
def actint (e : Env) (u : Unpacked) : Option Acc :=
  match u.kind with
  | .num => intno e u.acc
  | .zero => some u.acc
  | .inf => some u.acc
  | .qnan => some (resnsrc e u.acc)
  | .snan => some (dotrap e { u.acc with rh5 := set u.rh5 6 })

/-! ## 2. What has to be left -/

/-- The number rounded to an integer in a mode. -/
def rint (m : RoundMode) (x : ℚ) : ℚ := signed (decide (x < 0)) (roundInt m (decide (x < 0)) |x| : ℚ)

/-- **The number rounded to an integer**, below the numbers that have no other bits anyway; an integer
of the precision stays as it is; and the result is flagged inexact just when it differs. -/
structure Integral (e : Env) (x : ℚ) (r : Acc) : Prop where
  small : |x| < 2 ^ (e.prec - 1) → r.val = rint e.mode x
  exact : (∃ n : ℤ, x = n) → Representable e.prec x → r.val = x ∧ r.inexact = false
  inexact : r.inexact = true ↔ r.val ≠ x

/-- The unit of the place at which the precision rounds. -/
def place (e : Env) : ℚ := if e.DoubleAlone then 2048 else 1

theorem unitExp_eq (e : Env) :
    ((unitExp e).toNat : ℤ) = bias + e.prec - 1 + if e.DoubleAlone then 11 else 0 := by
  by_cases hd : e.DoubleAlone
  · obtain ⟨h1, h0⟩ := hd
    rw [if_pos ⟨h1, h0⟩, unitExp, Env.prec, h1, h0]
    rfl
  · rw [if_neg hd, unitExp, Env.prec]
    rw [Env.DoubleAlone] at hd
    revert hd
    cases e.rh4.getLsbD 1 <;> cases e.rh4.getLsbD 0 <;> intro hd
    · rfl
    · rfl
    · exact absurd ⟨rfl, rfl⟩ hd
    · rfl

/-! ## 3. A small operand -/

theorem rint_signed (m : RoundMode) (neg : Bool) {y : ℚ} (hy : 0 < y) :
    rint m (signed neg y) = signed neg (roundInt m neg y : ℚ) := by
  rw [rint, abs_signed neg hy.le, signed_lt_zero neg hy]

/-- The result of rounding to a multiple of the place. -/
structure Placed (e : Env) (o : Op) (r : Acc) : Prop where
  val : r.val = signed o.neg ((roundInt e.mode o.neg (o.mag / place e) : ℚ) * place e)
  inexact : r.inexact = true ↔ r.val ≠ o.val

/-- The exponent of an operand in the registers, and what is left of it when it is subtracted from
the place of the unit. -/
theorem unitExp_sub {e : Env} (o : Number) (h : o.expo < (unitExp e).toNat) :
    ∃ k : ℕ, (sub (unitExp e) o.r7).val.toNat = k + 1 ∧ k + 1 < 2 ^ 15 ∧
      o.expo + (k + 1) = (unitExp e).toNat ∧ ((sub (unitExp e) o.r7).c = true → 73 ≤ k) := by
  have hu : (unitExp e).toNat ≤ 0x403E ∧ 0x4016 ≤ (unitExp e).toNat := by
    unfold unitExp
    split_ifs <;> decide
  have hr := o.range
  have hs := sub_spec (unitExp e) o.r7
  have h7 := o.r7.isLt
  have h6 := o.rl6.isLt
  have hv := (sub (unitExp e) o.r7).val.isLt
  rw [Op.expo, Op.expBits] at h hr ⊢
  cases hc : (sub (unitExp e) o.r7).c <;> rw [hc] at hs <;> simp only [Bool.toNat_false, Bool.toNat_true] at hs
  · refine ⟨(sub (unitExp e) o.r7).val.toNat - 1, ?_, ?_, ?_, fun h => absurd h (by decide)⟩ <;>
      split_ifs at h hr ⊢ <;> omega
  · refine ⟨(sub (unitExp e) o.r7).val.toNat - 1, ?_, ?_, ?_, fun _ => ?_⟩ <;>
      split_ifs at h hr ⊢ <;> omega

/-- The comparison of the exponents. -/
theorem unitExp_sle {e : Env} (o : Number) :
    (unitExp e).sle o.r7 = true ↔ ((unitExp e).toNat : ℤ) ≤ o.expo := by
  have hu : (unitExp e).toNat ≤ 0x403E := by
    unfold unitExp
    split_ifs <;> decide
  have hr := o.range
  have h7 := o.r7.isLt
  have h6 := o.rl6.isLt
  rw [BitVec.sle_iff_toInt_le, BitVec.toInt_eq_toNat_cond, BitVec.toInt_eq_toNat_cond, if_pos (by omega)]
  rw [Op.expo, Op.expBits] at hr ⊢
  split_ifs at hr ⊢ <;> omega

/-- Put at the unit, an operand is rounded to odd there, and fits below the leading bit. -/
theorem alignUnit_spec {e : Env} (o : Number) (f : Clean) (h : o.expo < (unitExp e).toNat) :
    RoundOdd (4 * (o.mag / 2 ^ (((unitExp e).toNat : ℤ) - bias - 63))) (alignUnit e (o.start f)).grs ∧
      (alignUnit e (o.start f)).expBits = (unitExp e).toNat ∧
      (alignUnit e (o.start f)).neg = o.neg ∧ (alignUnit e (o.start f)).inexact = false ∧
      o.mag / 2 ^ (((unitExp e).toNat : ℤ) - bias - 63) < 2 ^ 63 := by
  obtain ⟨k, hk, hlt, hE, hc⟩ := unitExp_sub o h
  have hpos : 0 < (o.start f).digits := lt_of_lt_of_le (by norm_num) o.normal
  obtain ⟨hodd, h6, h5⟩ := shiftdigs_roundOdd (s := o.start f) hk hlt rfl hpos hc
  have hsle : ¬ (unitExp e).sle o.r7 = true := by
    rw [unitExp_sle]
    exact not_le.mpr h
  have he : alignUnit e (o.start f) = { shiftdigs (sub (unitExp e) o.r7).val (sub (unitExp e) o.r7).c
      (o.start f) with r7 := unitExp e, rl6 := 0 } := by
    rw [alignUnit]
    exact if_neg hsle
  set t := shiftdigs (sub (unitExp e) o.r7).val (sub (unitExp e) o.r7).c (o.start f) with ht
  have hx : o.mag / 2 ^ (((unitExp e).toNat : ℤ) - bias - 63) = (o.start f).digits / 2 ^ (k + 1) := by
    have hz : (2 : ℚ) ^ (o.expo - bias - 63) * 2 ^ (k + 1) = 2 ^ (((unitExp e).toNat : ℤ) - bias - 63) := by
      rw [← zpow_natCast, ← zpow_add₀ (by norm_num)]
      congr 1
      push_cast
      omega
    have hd : (o.start f).digits = o.digits := rfl
    rw [← hz, Op.mag, hd]
    field_simp
  have hgrs : (alignUnit e (o.start f)).grs = t.grs := by rw [he]; rfl
  refine ⟨by rw [hx, hgrs]; exact hodd, ?_, ?_, ?_, ?_⟩
  · rw [he]
    simp [Op.expBits]
  · rw [he, Op.neg]
    exact congrArg (BitVec.getLsbD · 7) h6
  · rw [he, Acc.inexact]
    exact (congrArg (BitVec.getLsbD · 4) h5).trans f.exact
  · rw [hx, div_lt_iff₀ (by positivity)]
    have hd64 : ((o.start f).digits : ℚ) < 2 ^ 64 := by exact_mod_cast (o.start f).digits_lt
    have hpow : (2 : ℚ) ^ 1 ≤ 2 ^ (k + 1) :=
      pow_le_pow_right₀ (by norm_num) (Nat.succ_le_succ (Nat.zero_le k))
    linarith

/-- An exact operand of a small exponent is normalised, and passes the check. -/
theorem intOver_spec {e : Env} {s : Acc} (hE : 64 ≤ s.expBits) (hE' : s.expBits ≤ 0x403F) :
    ∃ r, intOver e s = some r ∧ r.val = s.val ∧ r.inexact = s.inexact := by
  obtain ⟨t, ht, hN⟩ := normordigs_keeps (s := { s with rl5 := 0 }) rfl hE (by
    refine lt_of_le_of_lt hE' (by norm_num))
  have hthr : 0x407E ≤ (overThreshold e).toNat := by
    unfold overThreshold
    split_ifs <;> decide
  refine ⟨{ t with rl5 := s.rl5 }, ?_, hN.val, congrArg (BitVec.getLsbD · 4) hN.rh5⟩
  rw [intOver, ht]
  refine congrArg some (overRange_of_le (s := { t with rl5 := s.rl5 }) ?_)
  exact (hN.le.trans hE').trans ((by norm_num : 0x403F ≤ 0x407E).trans hthr)

theorem place_pos (e : Env) : 0 < place e := by
  unfold place
  split_ifs <;> norm_num

/-- The place in terms of the exponent at which it is. -/
theorem place_eq (e : Env) :
    place e = 2 ^ (64 - e.prec) * 2 ^ (((unitExp e).toNat : ℤ) - bias - 63) := by
  have hp : e.prec ≤ 64 := by rcases prec_cases e with h | h | h <;> rw [h] <;> norm_num
  rw [unitExp_eq, place, ← zpow_natCast, ← zpow_add₀ (by norm_num)]
  have hz : ((64 - e.prec : ℕ) : ℤ) + (bias + e.prec - 1 + (if e.DoubleAlone then 11 else 0) - bias - 63) =
      if e.DoubleAlone then 11 else 0 := by
    split_ifs <;> omega
  rw [hz]
  split_ifs <;> norm_num

/-- **A small operand is rounded to a multiple of the place.** -/
theorem intno_small {e : Env} (o : Number) (f : Clean) (h : o.expo < (unitExp e).toNat) :
    ∃ r, intno e (o.start f) = some r ∧ Placed e o.toOp r := by
  obtain ⟨hodd, hE, hneg, hclean, hlt⟩ := alignUnit_spec (e := e) o f h
  have hu : (unitExp e).toNat ≤ 0x403E ∧ 0x4016 ≤ (unitExp e).toNat := by
    unfold unitExp
    split_ifs <;> decide
  have hstart : intno e (o.start f) = intOver e (round e (alignUnit e (o.start f))) := by
    rw [intno, normordigs_of_normal (s := o.start f) o.normal]
    rfl
  set t := alignUnit e (o.start f) with ht
  set x := o.mag / 2 ^ (((unitExp e).toNat : ℤ) - bias - 63) with hx
  -- the rounded significand is the operand rounded in units of the place
  have hy : x / 2 ^ (64 - e.prec) = o.mag / place e := by
    rw [hx, place_eq, div_div, mul_comm]
  have hJ := roundOdd_jam_prec e hodd
  rw [← jam_split (jam _ _), hy] at hJ
  have hround : (roundInt e.mode o.neg (o.mag / place e) : ℤ) = rounded e t := by
    rw [hJ.roundInt_eq, rounded, hneg]
    rfl
  have hxpos : 0 ≤ x := div_nonneg o.mag_pos.le (zpow_nonneg (by norm_num) _)
  have hfit : rounded e t < 2 ^ e.prec := by
    have hp : 1 ≤ e.prec ∧ e.prec ≤ 64 := by
      rcases prec_cases e with h | h | h <;> rw [h] <;> norm_num
    have hlt' : x / 2 ^ (64 - e.prec) ≤ ((2 ^ (e.prec - 1) : ℤ) : ℚ) := by
      rw [div_le_iff₀ (by positivity)]
      push_cast
      rw [← pow_add]
      have hz : e.prec - 1 + (64 - e.prec) = 63 := by omega
      rw [hz]
      exact hlt.le
    have hceil : ⌈x / 2 ^ (64 - e.prec)⌉ ≤ 2 ^ (e.prec - 1) := Int.ceil_le.mpr hlt'
    have hle : roundInt e.mode o.neg (o.mag / place e) ≤ 2 ^ (e.prec - 1) := by
      rw [hy] at hceil
      rcases roundInt_eq_or e.mode o.neg (o.mag / place e) with h | h <;> rw [h]
      · exact (Int.floor_le_ceil _).trans hceil
      · exact hceil
    rw [hround] at hle
    have hle' : rounded e t ≤ 2 ^ (e.prec - 1) := by exact_mod_cast hle
    exact lt_of_le_of_lt hle' (Nat.pow_lt_pow_right (by norm_num) (by omega))
  obtain ⟨-, hflag, hcases⟩ := round_spec e t
  have hrE : (round e t).expBits = (unitExp e).toNat := by
    rcases hcases with ⟨-, -, h⟩ | ⟨h, -, -⟩
    · exact h.trans hE
    · exact absurd h hfit.ne
  obtain ⟨r, hr, hval, hin⟩ := intOver_spec (e := e) (s := round e t) (by omega) (by omega)
  have htE : t.expo = (unitExp e).toNat := Op.expo_of_expBits hE (by omega)
  have hrval : r.val = signed o.neg ((roundInt e.mode o.neg (o.mag / place e) : ℚ) * place e) := by
    rw [hval, round_val e t (by omega), hneg, htE, hround, place_eq]
    congr 1
    push_cast
    ring
  refine ⟨r, hstart.trans hr, hrval, ?_⟩
  have hov : o.val = signed o.neg (o.mag / place e * place e) := by
    rw [div_mul_cancel₀ _ (place_pos e).ne']
    rfl
  rw [hrval, hov, Ne, signed_inj, mul_left_inj' (place_pos e).ne', roundInt_eq_self_iff,
    hJ.floor_eq_self_iff, hin, hflag, hclean, Bool.false_or, jammed]
  generalize (jam (2 ^ (64 - e.prec)) t.grs / 2 % 2 == 1) = g
  generalize (jam (2 ^ (64 - e.prec)) t.grs % 2 == 1) = l
  revert g l
  decide

/-! ## 4. A large operand -/

/-- Rounding carries out only in a mode and sign that take an overflow to infinity. -/
theorem toInf_of_carry {e : Env} {s : Acc} (h : rounded e s = 2 ^ e.prec) : toInf e.mode s.neg = true := by
  have hq : jammed e s / 4 < 2 ^ e.prec := by
    have hp : 2 ^ 64 = 2 ^ e.prec * 2 ^ (64 - e.prec) := by
      rw [← Nat.pow_add]
      congr 1
      rcases prec_cases e with h | h | h <;> rw [h]
    rw [jammed_div_four, Nat.div_lt_iff_lt_mul (Nat.two_pow_pos _), ← hp]
    exact s.digits_lt
  rw [rounded, roundNat] at h
  have hup : roundUp e.mode s.neg (jammed e s / 4) (jammed e s / 2 % 2 == 1) (jammed e s % 2 == 1) = true := by
    by_contra hn
    rw [Bool.not_eq_true] at hn
    rw [hn, Bool.toNat_false, Nat.add_zero] at h
    exact absurd h hq.ne
  revert hup
  generalize (jammed e s / 2 % 2 == 1) = g
  generalize (jammed e s % 2 == 1) = t
  cases e.mode <;> cases s.neg <;> simp [roundUp, toInf]

/-- The inexact flag survives the check. -/
theorem overRange_inexact {e : Env} {s : Acc} (h : s.inexact = true) : (overRange e s).inexact = true := by
  have h1 : (set s.rh5 1).getLsbD 4 = true := by
    rw [getLsbD_set _ _ _ (by norm_num)]
    exact Bool.or_eq_true_iff.mpr (Or.inl h)
  have h4 : (set (set s.rh5 1) 4).getLsbD 4 = true := by
    rw [getLsbD_set _ _ _ (by norm_num)]
    exact Bool.or_eq_true_iff.mpr (Or.inr rfl)
  by_cases hle : s.r7.toNat ≤ (overThreshold e).toNat
  · rwa [overRange_of_le hle]
  · obtain ⟨r1, hr⟩ := overRange_eq_itsover (not_le.mp hle)
    simp only [hr, itsover]
    split_ifs
    · exact h1
    · exact h4
    · exact h4

theorem Op.mag_pos {o : Op} (h : o.Normal) : 0 < o.mag := by
  have hd : (0 : ℚ) < o.digits := by exact_mod_cast lt_of_lt_of_le (by norm_num) h
  exact mul_pos hd (zpow_pos (by norm_num) _)

/-- A power of two with a smaller exponent is smaller than a normalised number. -/
theorem mag_lt_of_expo {a b : Op} (ha : a.digits = 2 ^ 63) (hb : b.Normal) (h : a.expo < b.expo) :
    a.mag < b.mag := by
  have hd : (a.digits : ℚ) ≤ b.digits := by
    rw [Nat.cast_le, ha]
    exact hb
  have hpos : (0 : ℚ) < b.digits := by exact_mod_cast lt_of_lt_of_le (by norm_num) hb
  calc a.mag = a.digits * 2 ^ (a.expo - bias - 63) := rfl
    _ ≤ b.digits * 2 ^ (a.expo - bias - 63) :=
      mul_le_mul_of_nonneg_right hd (zpow_nonneg (by norm_num) _)
    _ < b.digits * 2 ^ (b.expo - bias - 63) :=
      mul_lt_mul_of_pos_left (zpow_lt_zpow_right₀ (by norm_num) (by omega)) hpos

theorem overThreshold_register {e : Env} (he : e.Register) : overThreshold e = 0x7FFE := by
  have he' : e.rh4.getLsbD 2 = true := he
  rw [overThreshold, if_pos he']

/-- With the trap enabled the exponent is wrapped by 6000 hex. -/
theorem overRange_of_trap {e : Env} (he : e.Register) (ht : e.traps.getLsbD 1 = true) {s : Acc}
    (h : 0x7FFE < s.r7.toNat) :
    (overRange e s).rl6 = s.rl6 ∧ (overRange e s).r7 = (sub s.r7 0x6000).val ∧
      (overRange e s).rq8 = s.rq8 := by
  have hle : ¬ s.r7.toNat ≤ (0x7FFE : BitVec 16).toNat := by
    have hlit : (0x7FFE : BitVec 16).toNat = 0x7FFE := rfl
    omega
  have he' : e.rh4.getLsbD 2 = true := he
  simp only [overRange, itsover, he', ht, if_true, if_neg hle, and_self]

theorem sub_6000 {x : BitVec 16} (h : x.toNat = 0x7FFF) : (sub x 0x6000).val.toNat = 0x1FFF := by
  have hs := sub_spec x 0x6000
  have hv := (sub x 0x6000).val.isLt
  have h6000 : (0x6000 : BitVec 16).toNat = 0x6000 := rfl
  omega

/-- A power of two past the largest exponent does not come back from the check as any number of the
largest exponent. -/
theorem overRange_carry_lt {e : Env} (he : e.Register) {s : Acc} (hd : s.digits = 2 ^ 63)
    (h6 : s.rl6 = 0) (h7 : s.r7.toNat = 0x7FFF) (hinf : toInf e.mode s.neg = true) {o : Op}
    (ho : o.Normal) (hoE : o.expo = 0x7FFE) : (overRange e s).mag < o.mag := by
  cases ht : e.traps.getLsbD 1 with
  | false =>
    have hlt : (overThreshold e).toNat < s.r7.toNat := by
      have hlit : (0x7FFE : BitVec 16).toNat = 0x7FFE := rfl
      rw [overThreshold_register he, h7, hlit]
      norm_num
    obtain ⟨-, -, -, h⟩ := overRange_of_lt ht hlt
    rw [if_pos hinf] at h
    have hz : (overRange e s).mag = 0 := by
      rw [Op.mag, Op.digits, h.2, Quad.toNat_zero, Nat.cast_zero, zero_mul]
    rw [hz]
    exact Op.mag_pos ho
  | true =>
    have hgt : 0x7FFE < s.r7.toNat := by
      rw [h7]
      norm_num
    obtain ⟨hr6, hr7, hq⟩ := overRange_of_trap he ht hgt
    have hexpo : (overRange e s).expo = (0x1FFF : ℕ) := by
      rw [expo_of_rl6 (hr6.trans h6), hr7, sub_6000 h7]
    have hdig : (overRange e s).digits = 2 ^ 63 := by rw [Op.digits, hq, ← Op.digits, hd]
    exact mag_lt_of_expo hdig ho (by omega)

/-- What is left of an operand that is rounded to the precision. -/
structure Precise (e : Env) (x : ℚ) (r : Acc) : Prop where
  exact : Representable e.prec x → r.val = x ∧ r.inexact = false
  inexact : r.inexact = true ↔ r.val ≠ x

/-- **A large operand is rounded to the precision.** -/
theorem intno_large {e : Env} (he : e.Register) (o : Number) (f : Clean)
    (h : ((unitExp e).toNat : ℤ) ≤ o.expo) :
    ∃ r, intno e (o.start f) = some r ∧ Precise e o.val r := by
  have hu : 0x4016 ≤ (unitExp e).toNat := by
    unfold unitExp
    split_ifs <;> decide
  have hr := o.range
  have hbits : (o.start f).expBits = o.expo := by
    have hlt := o.expBits_lt
    have hE : (o.start f).expBits = o.expBits := rfl
    rw [Op.expo] at h hr ⊢
    split_ifs at h hr ⊢ <;> omega
  have halign : alignUnit e (o.start f) = o.start f := by
    rw [alignUnit]
    exact if_pos ((unitExp_sle o).mpr h)
  set s := o.start f with hs
  have hn : (round e s).Normal := round_normal e o.normal
  refine ⟨overRange e (round e s), ?_, ?_⟩
  · rw [intno, normordigs_of_normal (s := s) o.normal, Option.bind_some, halign, intOver,
      normordigs_of_normal (s := { round e s with rl5 := 0 }) hn]
    rfl
  have hodd : RoundOdd (4 * (s.digits : ℚ)) s.grs := by
    have hg : s.grs = 4 * s.digits := by
      rw [Acc.grs_eq_jam, ← jam_64]
      congr 1
      exact (Nat.add_zero _).trans (Nat.mul_comm _ _)
    rw [hg]
    exact Or.inl (by push_cast; rfl)
  have hsn : s.Normal := o.normal
  have hround : RoundsTo e (round e s) o.val := round_roundsTo e hsn (by omega) f.exact hodd
  obtain ⟨-, -, hcases⟩ := round_spec e s
  have hneg := round_neg e s
  have hthr : (overThreshold e).toNat = 0x7FFE := by
    rw [overThreshold_register he]
    rfl
  have hflag := hround.inexact
  have hval := hround.val
  rw [Ne, rnd_eq_self_iff] at hflag
  by_cases hE : (round e s).expBits ≤ 0x7FFE
  · have hr7 : (round e s).r7.toNat ≤ (overThreshold e).toNat := by
      rw [Op.expBits] at hE
      omega
    rw [overRange_of_le hr7]
    constructor
    · intro hrep
      rw [hval, (rnd_eq_self_iff _ _ _).mpr hrep]
      exact ⟨rfl, Bool.eq_false_iff.mpr fun hi => hflag.mp hi hrep⟩
    · rw [hflag, hval, Ne, rnd_eq_self_iff]
  · obtain ⟨hcarry, hd, hE'⟩ := hcases.resolve_left fun hc => hE (by omega)
    have hinf := toInf_of_carry hcarry
    have hoE : o.expo = 0x7FFE := by omega
    rw [← hneg] at hinf
    have h67 : (round e s).rl6 = 0 ∧ (round e s).r7.toNat = 0x7FFF := by
      rw [Op.expBits] at hE'
      exact ⟨eq_zero_of_toNat (by omega), by omega⟩
    have hlt := overRange_carry_lt he hd h67.1 h67.2 hinf o.normal hoE
    have hne : (overRange e (round e s)).val ≠ o.val := by
      intro hv
      have habs := congrArg abs hv
      have hnn : (0 : ℚ) ≤ (overRange e (round e s)).mag :=
        mul_nonneg (Nat.cast_nonneg _) (zpow_nonneg (by norm_num) _)
      rw [Op.val, Op.val, abs_signed _ hnn, abs_signed _ o.mag_pos.le] at habs
      exact absurd habs hlt.ne
    -- a carry out is a loss
    have hlost : ¬ Representable e.prec o.val := by
      intro hrep
      rw [(rnd_eq_self_iff _ _ _).mpr hrep] at hval
      have hmag : (round e s).mag = o.mag := by
        have hv := congrArg abs hval
        have hnn : (0 : ℚ) ≤ (round e s).mag :=
          mul_nonneg (Nat.cast_nonneg _) (zpow_nonneg (by norm_num) _)
        rwa [Op.val, Op.val, abs_signed _ hnn, abs_signed _ o.mag_pos.le] at hv
      have hexpo : (round e s).expo = 0x7FFF := by
        rw [Op.expo, if_pos (by omega)]
        omega
      have hlt64 : (o.digits : ℚ) < 2 ^ 64 := by exact_mod_cast o.digits_lt
      have hz : (2 : ℚ) ^ ((0x7FFF : ℤ) - bias - 63) = 2 * 2 ^ ((0x7FFE : ℤ) - bias - 63) := by
        rw [← zpow_one_add₀ (by norm_num)]
        congr 1
      rw [Op.mag, Op.mag, hd, hexpo, hoE, hz] at hmag
      have hpos : (0 : ℚ) < 2 ^ ((0x7FFE : ℤ) - bias - 63) := zpow_pos (by norm_num) _
      push_cast at hmag
      nlinarith
    have hin := overRange_inexact (e := e) (hflag.mpr hlost)
    exact ⟨fun hrep => absurd hrep hlost, iff_of_true hin hne⟩

/-! ## 5. The two together -/

/-- What the misread precision asks of the operand: that its rounding, or itself when it is an integer
of the precision, is a multiple of 2048. -/
def Coarse (e : Env) (x : ℚ) : Prop :=
  (|x| < 2 ^ (e.prec - 1) → 2048 ∣ roundInt e.mode (decide (x < 0)) |x|) ∧
    ((∃ n : ℤ, x = n) → Representable e.prec x → ∃ k : ℤ, x = 2048 * k)

theorem two_zpow_mul_digits_le {o : Op} (hn : o.Normal) {k : ℤ} (h : k ≤ o.expo - bias) :
    2 ^ k ≤ o.mag := by
  have hd : (2 : ℚ) ^ (63 : ℤ) ≤ o.digits := by exact_mod_cast hn
  calc (2 : ℚ) ^ k ≤ 2 ^ (o.expo - bias) := zpow_le_zpow_right₀ (by norm_num) h
    _ = 2 ^ (63 : ℤ) * 2 ^ (o.expo - bias - 63) := by
      rw [← zpow_add₀ (by norm_num)]
      congr 1
      ring
    _ ≤ o.digits * 2 ^ (o.expo - bias - 63) :=
      mul_le_mul_of_nonneg_right hd (zpow_nonneg (by norm_num) _)

/-- A number of few bits is a multiple of its last place. -/
theorem Representable.multiple {p : ℕ} {x : ℚ} (h : Representable p x) {n : ℕ}
    (hx : 2 ^ ((p : ℤ) - 1 + n) ≤ |x|) : ∃ k : ℤ, x = 2 ^ n * k := by
  have hx0 : 0 < |x| := lt_of_lt_of_le (zpow_pos (by norm_num) _) hx
  have hlog : (p : ℤ) - 1 + n ≤ Int.log 2 |x| := by
    rw [← Int.zpow_le_iff_le_log (by norm_num) hx0]
    exact_mod_cast hx
  obtain ⟨d, hd⟩ := Int.eq_ofNat_of_zero_le (sub_nonneg.mpr hlog)
  have hu : ulp p x = 2 ^ n * 2 ^ d := by
    rw [ulp, ← zpow_natCast, ← zpow_natCast, ← zpow_add₀ (by norm_num)]
    congr 1
    omega
  have hfl := h.floor_div_ulp
  rw [eq_div_iff (ulp_pos p x).ne', hu] at hfl
  generalize ⌊|x| / (2 ^ n * 2 ^ d)⌋ = m at hfl
  rcases abs_choice x with ha | ha
  · refine ⟨m * 2 ^ d, ?_⟩
    calc x = m * (2 ^ n * 2 ^ d) := by rw [hfl, ha]
      _ = 2 ^ n * ((m * 2 ^ d : ℤ) : ℚ) := by push_cast; ring
  · refine ⟨-(m * 2 ^ d), ?_⟩
    calc x = -(m * (2 ^ n * 2 ^ d)) := by rw [hfl, ha, neg_neg]
      _ = 2 ^ n * ((-(m * 2 ^ d) : ℤ) : ℚ) := by push_cast; ring

/-- Rounding to a multiple of the place does what is asked, if the place is the unit or the operand is
so coarse. -/
theorem Placed.integral_iff {e : Env} {o : Op} {r : Acc} (ho : 0 < o.mag) (h : Placed e o r) :
    Integral e o.val r ↔ (e.DoubleAlone → Coarse e o.val) := by
  have hval : o.val = signed o.neg o.mag := rfl
  have habs : |o.val| = o.mag := abs_signed o.neg ho.le
  have hneg : decide (o.val < 0) = o.neg := signed_lt_zero o.neg ho
  have hr := h.val
  by_cases hd : e.DoubleAlone
  · have hp : place e = 2048 := if_pos hd
    rw [hp] at hr
    rw [imp_iff_right hd]
    constructor
    · refine fun hi => ⟨fun hlt => ?_, fun hint hrep => ?_⟩
      · have hs := hi.small hlt
        rw [hval, rint_signed _ _ ho, hr, signed_inj] at hs
        rw [hneg, habs]
        exact ⟨_, by rw [mul_comm]; exact_mod_cast hs.symm⟩
      · rw [← (hi.exact hint hrep).1, hr]
        cases o.neg
        · exact ⟨_, mul_comm _ _⟩
        · exact ⟨-_, by rw [signed_true]; push_cast; ring⟩
    · rintro ⟨hsmall, hexact⟩
      refine ⟨fun hlt => ?_, fun hint hrep => ?_, h.inexact⟩
      · obtain ⟨k, hk⟩ := hsmall hlt
        rw [hneg, habs] at hk
        have hk' : roundInt e.mode o.neg (o.mag / 2048) = k :=
          roundInt_div (n := 2048) (by norm_num) (by exact_mod_cast hk)
        rw [hr, hval, rint_signed _ _ ho, signed_inj, hk', hk]
        push_cast
        ring
      · obtain ⟨k, hk⟩ := hexact hint hrep
        have hmag : o.mag / 2048 = (|k| : ℤ) := by
          rw [← habs, hk, abs_mul, Int.cast_abs]
          norm_num
        have hv : r.val = o.val := by
          rw [hr, hval, signed_inj, hmag, roundInt_intCast, ← hmag, div_mul_cancel₀ _ (by norm_num)]
        exact ⟨hv, Bool.eq_false_iff.mpr fun hi => h.inexact.mp hi hv⟩
  · have hp : place e = 1 := if_neg hd
    rw [hp, div_one, mul_one] at hr
    refine iff_of_true ⟨fun _ => ?_, fun hint _ => ?_, h.inexact⟩ fun hd' => absurd hd' hd
    · rw [hr, hval, rint_signed _ _ ho]
    · obtain ⟨n, hn⟩ := hint
      have hmag : o.mag = (|n| : ℤ) := by rw [← habs, hn, Int.cast_abs]
      have hv : r.val = o.val := by rw [hr, hval, signed_inj, hmag, roundInt_intCast]
      exact ⟨hv, Bool.eq_false_iff.mpr fun hi => h.inexact.mp hi hv⟩

/-- A large operand is always served: it is no small one, and with the misread precision it is a
multiple of 2048 when it has the precision. -/
theorem Precise.integral {e : Env} {o : Op} {r : Acc} (ho : o.Normal)
    (hE : ((unitExp e).toNat : ℤ) ≤ o.expo) (h : Precise e o.val r) :
    Integral e o.val r ∧ (e.DoubleAlone → Coarse e o.val) := by
  have habs : |o.val| = o.mag := abs_signed o.neg (Op.mag_pos ho).le
  have hu := unitExp_eq e
  have hp : 24 ≤ e.prec := by rcases prec_cases e with h | h | h <;> rw [h] <;> norm_num
  have hlarge : ¬ |o.val| < 2 ^ (e.prec - 1) := by
    rw [habs, not_lt, ← zpow_natCast]
    refine two_zpow_mul_digits_le ho ?_
    split_ifs at hu <;> omega
  refine ⟨⟨fun hlt => absurd hlt hlarge, fun _ hrep => h.exact hrep, h.inexact⟩, fun hd => ?_⟩
  refine ⟨fun hlt => absurd hlt hlarge, fun _ hrep => ?_⟩
  rw [if_pos hd] at hu
  have hx : (2 : ℚ) ^ ((e.prec : ℤ) - 1 + (11 : ℕ)) ≤ |o.val| := by
    rw [habs]
    refine two_zpow_mul_digits_le ho ?_
    push_cast
    omega
  obtain ⟨k, hk⟩ := Representable.multiple hrep hx
  exact ⟨k, by rw [hk]; norm_num⟩

/-- A zero is returned as it is. -/
theorem integral_zero (e : Env) {s : Acc} (hd : s.digits = 0) (hclean : s.inexact = false) :
    Integral e s.val s ∧ (e.DoubleAlone → Coarse e s.val) := by
  have hz : s.val = 0 := by
    rw [Op.val, Op.mag, hd, Nat.cast_zero, zero_mul]
    cases s.neg <;> simp
  have hr : roundInt e.mode (decide ((0 : ℚ) < 0)) |(0 : ℚ)| = 0 := by
    rw [abs_zero]
    exact_mod_cast roundInt_intCast (K := ℚ) e.mode _ 0
  rw [hz]
  refine ⟨⟨fun _ => ?_, fun _ _ => ⟨hz, hclean⟩, ?_⟩, fun _ => ⟨fun _ => ?_, fun _ _ => ⟨0, by simp⟩⟩⟩
  · rw [hz, rint, hr]
    simp
  · rw [hclean, hz]
    simp
  · rw [hr]
    exact dvd_zero _

/-- **Rounding to an integer** gives what it should for every finite operand, in every mode and
precision, unless the precision bits are the double bit alone; then just for the coarse operands. -/
theorem actint_integral_iff (e : Env) (he : e.Register) (u : Unpacked) (hu : u.WellFormed)
    (hk : u.kind = .num ∨ u.kind = .zero) (hclean : u.rh5.getLsbD 4 = false) :
    ∃ r, actint e u = some r ∧ (Integral e u.val r ↔ (e.DoubleAlone → Coarse e u.val)) := by
  rcases hk with hk | hk
  · obtain ⟨hn, hr⟩ := hu.num hk
    let o : Number := ⟨u.toOp, hn, hr⟩
    let f : Clean := ⟨u.rh5, hclean⟩
    have hact : actint e u = intno e (o.start f) := by
      rw [actint, hk]
      rfl
    rw [hact]
    by_cases hE : o.expo < (unitExp e).toNat
    · obtain ⟨r, hr, h⟩ := intno_small o f hE
      exact ⟨r, hr, h.integral_iff o.mag_pos⟩
    · obtain ⟨r, hr, h⟩ := intno_large he o f (not_lt.mp hE)
      obtain ⟨h1, h2⟩ := h.integral hn (not_lt.mp hE)
      exact ⟨r, hr, iff_of_true h1 h2⟩
  · obtain ⟨hd, -⟩ := hu.zero hk
    have hact : actint e u = some u.acc := by rw [actint, hk]
    obtain ⟨h1, h2⟩ := integral_zero e (s := u.acc) hd hclean
    exact ⟨u.acc, hact, iff_of_true h1 h2⟩

/-- The number one. -/
theorem actint_integral_iff_one :
    ∃ r, actint extNearest ⟨one.toOp, .num, 0⟩ = some r ∧
      (Integral extNearest one.val r ↔ (extNearest.DoubleAlone → Coarse extNearest one.val)) :=
  actint_integral_iff extNearest (by decide) ⟨one.toOp, .num, 0⟩
    ⟨fun _ => ⟨one.normal, one.range⟩, fun h => absurd h (by decide), fun h => absurd h (by decide)⟩
    (Or.inl rfl) (by decide)

/-- Double precision, to nearest, to a register. -/
def doubleNearest : Env := ⟨0x86, 0, 0⟩

/-- Three quarters. -/
def threeQuarters : Number := ⟨⟨0, 0, 0x3FFE, ⟨0xC000, 0, 0, 0⟩⟩, by decide, by decide⟩

/-- Three quarters are not rounded to one. -/
theorem threeQuarters_not_integral :
    ¬ ∃ r, actint doubleNearest ⟨threeQuarters.toOp, .num, 0⟩ = some r ∧
      Integral doubleNearest threeQuarters.val r := by
  rintro ⟨r, hr, hint⟩
  have hE : threeQuarters.expo < (unitExp doubleNearest).toNat := by decide
  obtain ⟨r', hr', h⟩ := intno_small (e := doubleNearest) threeQuarters noErrors hE
  obtain rfl : r = r' := Option.some.inj (hr.symm.trans hr')
  have hexpo : threeQuarters.expo - bias - 63 = -64 := by decide
  have hdig : threeQuarters.digits = 3 * 2 ^ 62 := by decide
  have hmag : threeQuarters.mag = 3 / 4 := by
    rw [Op.mag, hexpo, hdig]
    norm_num
  have hval : threeQuarters.val = 3 / 4 := hmag
  have hcoarse := (h.integral_iff threeQuarters.mag_pos).mp hint (by decide)
  rw [hval] at hcoarse
  have hround : roundInt .nearest (decide ((3 / 4 : ℚ) < 0)) |(3 / 4 : ℚ)| = 1 :=
    roundInt_nearest_of_lt _ (by norm_num) (by norm_num)
  have hsmall : |(3 / 4 : ℚ)| < 2 ^ (doubleNearest.prec - 1) := by
    have hp : doubleNearest.prec = 53 := rfl
    rw [hp]
    norm_num
  have hdvd := hcoarse.1 hsmall
  have hmode : doubleNearest.mode = .nearest := rfl
  rw [hmode, hround] at hdvd
  exact absurd hdvd (by decide)

end Cpm8000.Fpe
