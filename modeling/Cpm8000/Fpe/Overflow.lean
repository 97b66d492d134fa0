/-
# The response to overflow

After rounding, `overRange` compares the exponent with the largest of the destination's range.  A
number above it becomes the infinity of its sign or the largest number of the range, whichever
the mode and the sign call for.

`round` and `overRange` read the two precision bits of the format byte in different orders: `round`
asks for the double bit first, `hugeNum` for the single bit.  They part where the double bit is set
alone, and `hugeNum` takes that for the extended precision.

* `Coerced`: what is left of a rounded number, as the standard has it.
* `overRange_coerced_iff`: when the two routines leave that.
-/
import Cpm8000.Fpe.Load

namespace Cpm8000.Fpe

open Arith

/-! ## 1. What has to be left -/

/-- The exponent of the rounded number: one more than before when the rounding carries out. -/
def roundedExpo (e : Env) (s : Acc) : ℤ :=
  s.expo + if rounded e s = 2 ^ e.prec then 1 else 0

/-- Where an overflow goes: to infinity, or to the largest number. -/
def toInf : RoundMode → Bool → Bool
  | .nearest, _ => true
  | .chop, _ => false
  | .plusInf, neg => !neg
  | .minusInf, neg => neg

/-- A number of the destination's range, without a bit below the selected precision. -/
structure Fits (e : Env) (o : Op) : Prop where
  nonneg : 0 ≤ o.expo
  le : o.expo ≤ (overThreshold e).toNat
  whole : 2 ^ (64 - e.prec) ∣ o.digits

/-- The infinity of a sign. -/
structure IsInf (neg : Bool) (o : Op) : Prop where
  neg : o.neg = neg
  expo : o.expo = 0x7FFF
  digits : o.digits = 0

/-- The largest number of the range that has the precision, with a sign. -/
structure IsLargest (e : Env) (neg : Bool) (o : Op) : Prop where
  neg : o.neg = neg
  fits : Fits e o
  largest : ∀ x : Op, Fits e x → x.mag ≤ o.mag

/-- **What is left of a number that is rounded and checked**: itself, when it is in range, and
otherwise what the mode and the sign call for, with overflow and inexact flagged. -/
def Coerced (e : Env) (s r : Acc) : Prop :=
  if roundedExpo e s ≤ (overThreshold e).toNat then r = round e s ∧ Fits e r.toOp
  else r.rh5.getLsbD 1 = true ∧ r.inexact = true ∧
    if toInf e.mode s.neg then IsInf s.neg r.toOp else IsLargest e s.neg r.toOp

/-! ## 2. The largest number -/

/-- The threshold is a positive exponent of the extended format. -/
theorem overThreshold_le (e : Env) : (overThreshold e).toNat ≤ 0x7FFE := by
  unfold overThreshold
  split_ifs <;> decide

/-- A significand of the precision is at most all ones. -/
theorem whole_le {p d : ℕ} (hp : p ≤ 64) (hd : d < 2 ^ 64) (h : 2 ^ (64 - p) ∣ d) :
    d ≤ 2 ^ 64 - 2 ^ (64 - p) := by
  obtain ⟨m, rfl⟩ := h
  have hpow : 2 ^ 64 = 2 ^ (64 - p) * 2 ^ p := by
    rw [← Nat.pow_add]
    congr 1
    omega
  rw [hpow] at hd ⊢
  have hm : m + 1 ≤ 2 ^ p := Nat.lt_of_mul_lt_mul_left hd
  have hmul := Nat.mul_le_mul_left (2 ^ (64 - p)) hm
  rw [Nat.mul_add, Nat.mul_one] at hmul
  omega

/-- **All ones at the largest exponent is the largest number.** -/
theorem isLargest_of {e : Env} {o : Op} (hE : o.expo = (overThreshold e).toNat)
    (hd : o.digits = 2 ^ 64 - 2 ^ (64 - e.prec)) : IsLargest e o.neg o := by
  have hp : e.prec ≤ 64 := by rcases prec_cases e with h | h | h <;> rw [h] <;> norm_num
  have hdvd : 2 ^ (64 - e.prec) ∣ o.digits := by
    rw [hd]
    exact Nat.dvd_sub (Nat.pow_dvd_pow 2 (by omega)) dvd_rfl
  refine ⟨rfl, ⟨by omega, hE.le, hdvd⟩, fun x hx => ?_⟩
  have hdig : x.digits ≤ o.digits := by
    rw [hd]
    exact whole_le hp x.digits_lt hx.whole
  have hexp : x.expo - bias - 63 ≤ o.expo - bias - 63 := by
    have := hx.le
    omega
  calc x.mag = x.digits * 2 ^ (x.expo - bias - 63) := rfl
    _ ≤ o.digits * 2 ^ (o.expo - bias - 63) :=
      mul_le_mul (by exact_mod_cast hdig) (zpow_le_zpow_right₀ (by norm_num) hexp)
        (zpow_nonneg (by norm_num) _) (Nat.cast_nonneg _)

/-- The power of two at the largest exponent. -/
def topPower (e : Env) : Op := ⟨0, 0, overThreshold e, setLead Quad.zero⟩

theorem topPower_expo (e : Env) : (topPower e).expo = (overThreshold e).toNat := by
  have hthr := overThreshold_le e
  have h0 : (topPower e).expBits = (overThreshold e).toNat := by
    simp [topPower, Op.expBits]
  exact Op.expo_of_expBits h0 (by omega)

theorem topPower_digits (e : Env) : (topPower e).digits = 2 ^ 63 :=
  (setLead_toNat (by decide)).trans (by decide)

/-- A number of the range is not the largest when its leading bit is clear. -/
theorem IsLargest.normal {e : Env} {neg : Bool} {o : Op} (h : IsLargest e neg o) : o.Normal := by
  by_contra hn
  have hthr := overThreshold_le e
  have hxE := topPower_expo e
  have hxd := topPower_digits e
  have hfits : Fits e (topPower e) := by
    refine ⟨by omega, hxE.le, ?_⟩
    rw [hxd]
    refine Nat.pow_dvd_pow 2 ?_
    rcases prec_cases e with hp | hp | hp <;> omega
  have hle := h.largest _ hfits
  have hlt : o.mag < (topPower e).mag := by
    have hexp : o.expo - bias - 63 ≤ (topPower e).expo - bias - 63 := by
      have := h.fits.le
      omega
    have hdig : (o.digits : ℚ) < (topPower e).digits := by
      rw [hxd]
      exact_mod_cast not_le.mp hn
    calc o.mag = o.digits * 2 ^ (o.expo - bias - 63) := rfl
      _ < (topPower e).digits * 2 ^ (o.expo - bias - 63) :=
        mul_lt_mul_of_pos_right hdig (zpow_pos (by norm_num) _)
      _ ≤ (topPower e).digits * 2 ^ ((topPower e).expo - bias - 63) :=
        mul_le_mul_of_nonneg_left (zpow_le_zpow_right₀ (by norm_num) hexp) (Nat.cast_nonneg _)
  exact absurd hle (not_le.mpr hlt)

/-! ## 3. The check -/

/-- The mode byte and the sign byte, put together as the code compares them. -/
theorem toInf_iff (e : Env) (rh6 : BitVec 8) :
    (0x0C &&& e.modes = 0x00 ∨ 0x0C &&& e.modes ||| rh6 &&& 0x80 = 0x08 ∨
        0x0C &&& e.modes ||| rh6 &&& 0x80 = 0x8C) ↔
      toInf e.mode (rh6.getLsbD 7) = true := by
  have hmode : ∀ m : BitVec 8, 0x0C &&& m =
      (if m.getLsbD 3 then 8 else 0) ||| (if m.getLsbD 2 then 4 else 0) := by decide +kernel
  have hsign : ∀ h : BitVec 8, h &&& 0x80 = if h.getLsbD 7 then 0x80 else 0 := by decide +kernel
  rw [hmode, hsign, Env.mode]
  generalize e.modes.getLsbD 3 = m3
  generalize e.modes.getLsbD 2 = m2
  generalize rh6.getLsbD 7 = neg
  revert m3 m2 neg
  decide

/-- Above the threshold an overflow is signalled. -/
theorem overRange_eq_itsover {e : Env} {s : Acc} (h : (overThreshold e).toNat < s.r7.toNat) :
    ∃ r1, overRange e s = itsover e (overThreshold e) r1 s := by
  rw [overThreshold] at h ⊢
  simp only [overRange]
  revert h
  cases e.rh4.getLsbD 2 <;> cases e.rh4.getLsbD 1 <;>
    exact fun h => ⟨_, if_neg (not_le.mpr h)⟩

/-- What `overRange` does to a number above the threshold, the trap disabled. -/
theorem overRange_of_lt {e : Env} (ht : e.traps.getLsbD 1 = false) {s : Acc}
    (h : (overThreshold e).toNat < s.r7.toNat) :
    (overRange e s).rh5 = set (set s.rh5 1) 4 ∧ (overRange e s).neg = s.neg ∧
      (overRange e s).rl6 = s.rl6 ∧
      if toInf e.mode s.neg then (overRange e s).r7 = 0x7FFF ∧ (overRange e s).rq8 = Quad.zero
      else (overRange e s).r7 = overThreshold e ∧
        (overRange e s).rq8 = (hugeNum e (overThreshold e) s).rq8 := by
  obtain ⟨r1, hr⟩ := overRange_eq_itsover h
  have hneg : (s.rh6 &&& 0x80).getLsbD 7 = s.rh6.getLsbD 7 := by
    rw [BitVec.getLsbD_and]
    exact Bool.and_true _
  have hinf := toInf_iff e s.rh6
  simp only [hr, itsover, ht, Bool.false_eq_true, if_false]
  by_cases hc : toInf e.mode s.neg = true
  · have hc' := hinf.mpr hc
    simp only [if_pos hc', hc, if_true]
    exact ⟨trivial, hneg, trivial, trivial, trivial⟩
  · have hc' := fun h => hc (hinf.mp h)
    simp only [if_neg hc', hc]
    exact ⟨rfl, hneg, rfl, rfl, rfl⟩

/-- The precision bits that `hugeNum` misreads: the double bit without the single bit. -/
def Env.DoubleAlone (e : Env) : Prop := e.rh4.getLsbD 1 = true ∧ e.rh4.getLsbD 0 = false

instance (e : Env) : Decidable e.DoubleAlone := inferInstanceAs (Decidable (_ ∧ _))

/-- The digits of the largest number, where the precision bits are read as `round` reads them. -/
theorem hugeNum_digits {e : Env} {s : Acc} (r0 : BitVec 16) (hn : s.Normal) (he : ¬ e.DoubleAlone) :
    (hugeNum e r0 s).rq8.toNat = 2 ^ 64 - 2 ^ (64 - e.prec) := by
  have hbit : s.rq8.w0.getLsbD 15 = true := (Quad.getLsbD_w0_iff _).mpr hn
  rw [Env.DoubleAlone] at he
  simp only [hugeNum, Env.prec, hbit, if_true]
  revert he
  cases e.rh4.getLsbD 1 <;> cases e.rh4.getLsbD 0 <;> simp [Quad.toNat]

/-- With the double bit alone all 64 bits are set. -/
theorem hugeNum_doubleAlone {e : Env} {s : Acc} (r0 : BitVec 16) (hn : s.Normal) (he : e.DoubleAlone) :
    ¬ 2 ^ (64 - e.prec) ∣ (hugeNum e r0 s).rq8.toNat := by
  have hbit : s.rq8.w0.getLsbD 15 = true := (Quad.getLsbD_w0_iff _).mpr hn
  obtain ⟨h1, h0⟩ := he
  simp only [hugeNum, Env.prec, hbit, h1, h0, if_true, Bool.not_false]
  decide

/-- A significand without its leading bit is left alone. -/
theorem hugeNum_of_not_normal {e : Env} {s : Acc} (r0 : BitVec 16) (hn : ¬ s.Normal) :
    (hugeNum e r0 s).rq8 = s.rq8 := by
  have hbit : ¬ s.rq8.w0.getLsbD 15 = true := fun h => hn ((Quad.getLsbD_w0_iff _).mp h)
  simp only [hugeNum, hbit]
  rfl

/-! ## 4. Rounding and the check -/

theorem round_neg (e : Env) (s : Acc) : (round e s).neg = s.neg := by
  rw [Op.neg, (round_spec e s).1, Op.neg]

/-- The rounded significand has no bit below the precision. -/
theorem round_whole (e : Env) (s : Acc) : 2 ^ (64 - e.prec) ∣ (round e s).digits := by
  obtain ⟨-, -, ⟨-, hd, -⟩ | ⟨-, hd, -⟩⟩ := round_spec e s
  · rw [hd]
    exact Nat.dvd_mul_left _ _
  · rw [hd]
    refine Nat.pow_dvd_pow 2 ?_
    rcases prec_cases e with hp | hp | hp <;> omega

/-- The rounded significand has its leading bit just when all bits of the precision are used. -/
theorem round_normal_iff (e : Env) (s : Acc) : (round e s).Normal ↔ 2 ^ (e.prec - 1) ≤ rounded e s := by
  have hp : e.prec - 1 + (64 - e.prec) = 63 := by rcases prec_cases e with h | h | h <;> omega
  have hpow : 2 ^ 63 = 2 ^ (e.prec - 1) * 2 ^ (64 - e.prec) := by rw [← Nat.pow_add, hp]
  obtain ⟨-, -, ⟨-, hd, -⟩ | ⟨hr, hd, -⟩⟩ := round_spec e s
  · rw [Op.Normal, hd, hpow]
    exact Nat.mul_le_mul_right_iff (Nat.two_pow_pos _)
  · rw [Op.Normal, hd, hr]
    exact iff_of_true le_rfl (Nat.pow_le_pow_right (by norm_num) (Nat.sub_le _ _))

/-- The exponent of the rounded number, as the registers hold it. -/
theorem roundedExpo_eq (e : Env) (s : Acc) :
    ∃ m : ℤ, ((round e s).expBits : ℤ) = roundedExpo e s + 2 ^ 24 * m := by
  obtain ⟨m, hm⟩ := s.expBits_eq
  rw [roundedExpo]
  obtain ⟨-, -, ⟨hr, -, hE⟩ | ⟨hr, -, hE⟩⟩ := round_spec e s
  · rw [if_neg hr.ne, hE, add_zero]
    exact ⟨m, hm⟩
  · rw [if_pos hr, hE]
    refine ⟨m - (s.expBits + 1) / 2 ^ 24, ?_⟩
    push_cast
    omega

theorem roundedExpo_bounds (e : Env) (s : Acc) :
    -2 ^ 23 ≤ roundedExpo e s ∧ roundedExpo e s ≤ 2 ^ 23 := by
  have hE : -2 ^ 23 ≤ s.expo ∧ s.expo < 2 ^ 23 := by
    have := s.expBits_lt
    rw [Op.expo]
    split_ifs <;> omega
  rw [roundedExpo]
  split_ifs <;> omega

/-- The upper byte of the exponent is clear just when the exponent is one of sixteen bits, and r7
is the exponent then. -/
theorem round_rl6_iff (e : Env) (s : Acc) :
    (round e s).rl6 = 0 ↔ 0 ≤ roundedExpo e s ∧ roundedExpo e s < 2 ^ 16 := by
  obtain ⟨m, hm⟩ := roundedExpo_eq e s
  have hb := roundedExpo_bounds e s
  have h7 := (round e s).r7.isLt
  have h6 := (round e s).rl6.isLt
  rw [Op.expBits] at hm
  have h0 : (round e s).rl6 = 0 ↔ (round e s).rl6.toNat = 0 :=
    ⟨fun h => by rw [h]; rfl, eq_zero_of_toNat⟩
  rw [h0]
  omega

theorem round_r7 {e : Env} {s : Acc} (h : (round e s).rl6 = 0) :
    ((round e s).r7.toNat : ℤ) = roundedExpo e s := by
  obtain ⟨m, hm⟩ := roundedExpo_eq e s
  have hE := (round_rl6_iff e s).mp h
  rw [Op.expBits, h] at hm
  have h0 : (0 : BitVec 8).toNat = 0 := rfl
  have h7 := (round e s).r7.isLt
  rw [h0] at hm
  omega

/-- An exponent in range has its upper byte clear. -/
theorem rl6_of_expo {o : Op} (h0 : 0 ≤ o.expo) (h : o.expo < 2 ^ 16) : o.rl6 = 0 := by
  apply eq_zero_of_toNat
  have h6 := o.rl6.isLt
  have h7 := o.r7.isLt
  rw [Op.expo] at h0 h
  split_ifs at h0 h <;> rw [Op.expBits] at * <;> omega

theorem expo_of_rl6 {o : Op} (h : o.rl6 = 0) : o.expo = o.r7.toNat := by
  have h7 := o.r7.isLt
  have h0 : o.expBits = o.r7.toNat := by
    simp [Op.expBits, h]
  exact Op.expo_of_expBits h0 (by omega)

/-- The upper byte of the exponent stays. -/
theorem overRange_rl6 {e : Env} (ht : e.traps.getLsbD 1 = false) (s : Acc) :
    (overRange e s).rl6 = s.rl6 := by
  by_cases h : s.r7.toNat ≤ (overThreshold e).toNat
  · rw [overRange_of_le h]
  · exact (overRange_of_lt ht (not_le.mp h)).2.2.1

/-- Whatever is left has an exponent of sixteen bits. -/
theorem Coerced.rl6 {e : Env} {s r : Acc} (h : Coerced e s r) : r.rl6 = 0 := by
  have hthr := overThreshold_le e
  rw [Coerced] at h
  split_ifs at h with h1 h2
  · have := h.2.le
    exact rl6_of_expo h.2.nonneg (by omega)
  · have := h.2.2.expo
    exact rl6_of_expo (by omega) (by omega)
  · have := h.2.2.fits.le
    exact rl6_of_expo h.2.2.fits.nonneg (by omega)

/-- **Rounding and the check of the range**, the trap disabled, leave what the standard has for every
exponent of sixteen bits, unless the largest number is called for and the precision bits are misread
or the significand has no leading bit. -/
theorem overRange_coerced_iff (e : Env) (ht : e.traps.getLsbD 1 = false) (s : Acc) :
    Coerced e s (overRange e (round e s)) ↔
      (0 ≤ roundedExpo e s ∧ roundedExpo e s < 2 ^ 16) ∧
        ((overThreshold e).toNat < roundedExpo e s → toInf e.mode s.neg = false →
          2 ^ (e.prec - 1) ≤ rounded e s ∧ ¬ e.DoubleAlone) := by
  by_cases h6 : (round e s).rl6 = 0
  · rw [and_iff_right ((round_rl6_iff e s).mp h6), ← round_normal_iff]
    have h7 := round_r7 h6
    by_cases hle : roundedExpo e s ≤ (overThreshold e).toNat
    · have hr7 : (round e s).r7.toNat ≤ (overThreshold e).toNat := by omega
      rw [overRange_of_le hr7, Coerced, if_pos hle]
      refine iff_of_true ⟨rfl, ?_, ?_, round_whole e s⟩ fun h => absurd h (not_lt.mpr hle)
      · exact (Int.natCast_nonneg _).trans_eq (expo_of_rl6 h6).symm
      · rw [expo_of_rl6 h6, h7]
        exact hle
    · have hlt : (overThreshold e).toNat < (round e s).r7.toNat := by omega
      obtain ⟨hf, hn, hl6, hr⟩ := overRange_of_lt ht hlt
      rw [round_neg] at hn hr
      have hflag : (overRange e (round e s)).rh5.getLsbD 1 = true ∧
          (overRange e (round e s)).inexact = true := by
        rw [Acc.inexact, hf, getLsbD_set _ _ _ (by norm_num), getLsbD_set _ _ _ (by norm_num),
          getLsbD_set _ _ _ (by norm_num)]
        exact ⟨by simp, by simp⟩
      have hexpo := expo_of_rl6 (hl6.trans h6)
      rw [Coerced, if_neg hle, and_iff_right hflag.1, and_iff_right hflag.2]
      cases hinf : toInf e.mode s.neg with
      | true =>
        rw [hinf, if_pos rfl] at hr
        obtain ⟨hr7, hq⟩ := hr
        refine iff_of_true ⟨hn, ?_, ?_⟩ fun _ h => absurd h (by decide)
        · rw [hexpo, hr7]
          rfl
        · rw [Op.digits, hq]
          rfl
      | false =>
        rw [hinf, if_neg Bool.false_ne_true] at hr
        obtain ⟨hr7, hq⟩ := hr
        rw [if_neg Bool.false_ne_true]
        constructor
        · intro h _ _
          by_cases hnorm : (round e s).Normal
          · refine ⟨hnorm, fun hd => ?_⟩
            have hwhole := h.fits.whole
            rw [Op.digits, hq] at hwhole
            exact hugeNum_doubleAlone _ hnorm hd hwhole
          · have hbad := h.normal
            rw [Op.Normal, Op.digits, hq, hugeNum_of_not_normal _ hnorm] at hbad
            exact absurd hbad hnorm
        · intro h
          obtain ⟨hnorm, hd⟩ := h (not_le.mp hle) rfl
          rw [← hn]
          refine isLargest_of ?_ ?_
          · rw [hexpo, hr7]
          · rw [Op.digits, hq]
            exact hugeNum_digits _ hnorm hd
  · refine iff_of_false (fun h => h6 ?_) fun h => h6 ((round_rl6_iff e s).mpr h.1)
    exact (overRange_rl6 ht (round e s)).symm.trans h.rl6

/-- Double precision, toward zero, to a register. -/
def doubleChop : Env := ⟨0x86, 0x04, 0⟩

/-- The product of two numbers of the size `2 ^ 8192`, before rounding. -/
def overflown : Acc := ⟨⟨0, 0, 0x7FFF, ⟨0x8000, 0, 0, 0⟩⟩, 0, 0⟩

/-- The same in the extended precision. -/
theorem overRange_coerced_iff_overflown :
    Coerced extNearest overflown (overRange extNearest (round extNearest overflown)) ↔
      (0 ≤ roundedExpo extNearest overflown ∧ roundedExpo extNearest overflown < 2 ^ 16) ∧
        ((overThreshold extNearest).toNat < roundedExpo extNearest overflown →
          toInf extNearest.mode overflown.neg = false →
            2 ^ (extNearest.prec - 1) ≤ rounded extNearest overflown ∧ ¬ extNearest.DoubleAlone) :=
  overRange_coerced_iff extNearest (by decide) overflown

/-- In double precision all 64 bits are set. -/
theorem overflown_not_coerced :
    ¬ Coerced doubleChop overflown (overRange doubleChop (round doubleChop overflown)) := by
  intro h
  have hE : ¬ roundedExpo doubleChop overflown ≤ (overThreshold doubleChop).toNat := by decide
  rw [Coerced, if_neg hE] at h
  obtain ⟨-, -, h⟩ := h
  have hinf : ¬ toInf doubleChop.mode overflown.neg = true := by decide
  rw [if_neg hinf] at h
  exact absurd h.fits.whole (by decide)

end Cpm8000.Fpe
