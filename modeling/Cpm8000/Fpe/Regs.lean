/-
# The registers of an unpacked operand

Inside the emulator a number lives in the registers r6 to r11: the sign in bit 7 of rh6, the
exponent in the 24 bits of rl6 and r7, the significand in the 64 bits of rq8, its binary point
after the first bit.  The error flags of the operation are in rh5; rl5 holds what has been
shifted out below r11, the first bit of it in bit 7 and any later one folded into the rest.

`Op.val` is the number an operand denotes, as a rational.  `RoundsTo` says what a finished
result has to be: the exact number rounded once, with the inexact flag telling whether that
lost anything.
-/
import Cpm8000.Arith.RoundOdd
import Cpm8000.Arith.Quad

namespace Cpm8000.Fpe

open Arith

/-! ## 1. Operands -/

/-- An unpacked operand: sign byte, 24-bit exponent, 64-bit significand. -/
structure Op where
  rh6 : BitVec 8
  rl6 : BitVec 8
  r7 : BitVec 16
  rq8 : Quad
  deriving DecidableEq

/-- The operand being computed, with the error byte rh5 and the rounding byte rl5. -/
structure Acc extends Op where
  rh5 : BitVec 8
  rl5 : BitVec 8
  deriving DecidableEq

/-- The bias of the exponent. -/
def bias : ℤ := 0x3FFF

namespace Op

/-- The significand. -/
def digits (o : Op) : ℕ := o.rq8.toNat

/-- The 24 exponent bits. -/
def expBits (o : Op) : ℕ := o.rl6.toNat * 65536 + o.r7.toNat

/-- The biased exponent, a signed number. -/
def expo (o : Op) : ℤ := if o.expBits < 2 ^ 23 then o.expBits else (o.expBits : ℤ) - 2 ^ 24

/-- The sign. -/
def neg (o : Op) : Bool := o.rh6.getLsbD 7

/-- The magnitude denoted: the significand's point stands after its first bit. -/
def mag (o : Op) : ℚ := o.digits * 2 ^ (o.expo - bias - 63)

/-- The number denoted. -/
def val (o : Op) : ℚ := signed o.neg o.mag

/-- The leading significand bit is set. -/
def Normal (o : Op) : Prop := 2 ^ 63 ≤ o.digits

instance (o : Op) : Decidable o.Normal := inferInstanceAs (Decidable (_ ≤ _))

theorem digits_lt (o : Op) : o.digits < 2 ^ 64 := o.rq8.toNat_lt

theorem expBits_lt (o : Op) : o.expBits < 2 ^ 24 := by
  have := o.rl6.isLt
  have := o.r7.isLt
  unfold expBits
  omega

theorem expo_of_expBits {o : Op} {E : ℕ} (h : o.expBits = E) (hE : E < 2 ^ 23) :
    o.expo = E := by
  rw [expo, h, if_pos hE]

/-- The exponent bits are the exponent modulo `2^24`. -/
theorem expBits_eq (o : Op) : ∃ m : ℤ, (o.expBits : ℤ) = o.expo + 2 ^ 24 * m := by
  by_cases h : o.expBits < 2 ^ 23
  · exact ⟨0, by rw [expo, if_pos h]; omega⟩
  · exact ⟨1, by rw [expo, if_neg h]; omega⟩

end Op

/-- The exponent in the long word that holds sign and exponent. -/
theorem expWord (x : BitVec 32) :
    (lob (hiw x)).toNat * 65536 + (low x).toNat = x.toNat % 2 ^ 24 := by
  rw [toNat_lob, toNat_hiw, toNat_low]
  omega

/-- Sign and exponent as one long word, with any sign byte. -/
theorem long_expBits (rh6 : BitVec 8) (o : Op) :
    (long (word rh6 o.rl6) o.r7).toNat = rh6.toNat * 2 ^ 24 + o.expBits := by
  rw [toNat_long, toNat_word, Op.expBits]
  omega

/-- One is added to the exponent in two parts, low word first. -/
theorem expBits_inc (o : Op) :
    (adc o.rl6 0 (add o.r7 1).c).val.toNat * 65536 + (add o.r7 1).val.toNat =
      (o.expBits + 1) % 2 ^ 24 := by
  have h7 := add_spec o.r7 1
  have h6 := adc_spec o.rl6 0 (add o.r7 1).c
  have h1 : (1 : BitVec 16).toNat = 1 := rfl
  have h0 : (0 : BitVec 8).toNat = 0 := rfl
  have h7lt := (add o.r7 1).val.isLt
  have h6lt := (adc o.rl6 0 (add o.r7 1).c).val.isLt
  simp only [Op.expBits]
  omega

/-- The exponent is that of a number of the extended format, a normalised denormal, or zero. -/
def Op.InFormat (o : Op) : Prop := -63 ≤ o.expo ∧ o.expo ≤ 0x7FFE

/-- The low word alone is such an exponent, as a signed number. -/
theorem Op.InFormat.toInt_r7 {o : Op} (h : o.InFormat) : o.r7.toInt = o.expo := by
  obtain ⟨h1, h2⟩ := h
  have hl := o.rl6.isLt
  have h7 := o.r7.isLt
  rw [BitVec.toInt_eq_toNat_cond]
  rw [Op.expo, Op.expBits] at *
  split_ifs at * <;> omega

/-- A finite nonzero operand as it is unpacked: normalised, its exponent that of a number of
the extended format or one down to 63 below, when a denormal has been normalised. -/
structure Number extends Op where
  normal : toOp.Normal
  range : -63 ≤ toOp.expo ∧ toOp.expo ≤ 0x7FFE

/-- An unpacked zero of either sign. -/
structure Zero extends Op where
  digits_eq : toOp.digits = 0
  expBits_eq : toOp.expBits = 0

theorem Number.mag_pos (o : Number) : 0 < o.mag := by
  have hd : 0 < o.digits := lt_of_lt_of_le (by norm_num) o.normal
  have hq : (0 : ℚ) < o.digits := by exact_mod_cast hd
  exact mul_pos hq (zpow_pos (by norm_num) _)

@[simp] theorem Zero.val_eq (o : Zero) : o.val = 0 := by
  rw [Op.val, Op.mag, o.digits_eq]
  cases o.neg <;> simp

/-- The error byte as unpacking leaves it: nothing has been rounded yet. -/
structure Clean where
  rh5 : BitVec 8
  exact : rh5.getLsbD 4 = false

/-- An operand at the start of an operation, the rounding byte clear. -/
def Op.start (o : Op) (f : Clean) : Acc := { o with rh5 := f.rh5, rl5 := 0 }

/-! ## 2. The rounding byte -/

/-- The significand with two more bits: the guard bit, and whether anything follows it. -/
def Acc.grs (s : Acc) : ℕ :=
  4 * s.digits + 2 * (s.rl5.getLsbD 7).toNat + (decide (s.rl5.toNat % 128 ≠ 0)).toNat

/-- Bit 4 of the error byte: the result is inexact. -/
def Acc.inexact (s : Acc) : Bool := s.rh5.getLsbD 4

theorem Acc.grs_div_four (s : Acc) : s.grs / 4 = s.digits := by
  have h1 := Bool.toNat_le (s.rl5.getLsbD 7)
  have h2 := Bool.toNat_le (decide (s.rl5.toNat % 128 ≠ 0))
  unfold grs
  omega

/-! ## 3. Modes and precisions -/

/-- What an operation reads besides its operands: the format byte rh4, and from the work area
the modes byte and the trap enables. -/
structure Env where
  rh4 : BitVec 8
  modes : BitVec 8
  traps : BitVec 8

/-- The rounding mode in bits 3 and 2 of the modes byte. -/
def Env.mode (e : Env) : RoundMode :=
  if e.modes.getLsbD 3 then (if e.modes.getLsbD 2 then .minusInf else .plusInf)
  else (if e.modes.getLsbD 2 then .chop else .nearest)

/-- The rounding precision in bits 1 and 0 of the format byte, as a number of bits. -/
def Env.prec (e : Env) : ℕ :=
  if e.rh4.getLsbD 1 then 53 else if e.rh4.getLsbD 0 then 24 else 64

/-- The destination is a register of the coprocessor, so the extended range applies.  The
decoder sets this bit for every arithmetic operation. -/
def Env.Register (e : Env) : Prop := e.rh4.getLsbD 2 = true

instance (e : Env) : Decidable e.Register := inferInstanceAs (Decidable (_ = _))

/-! ## 4. What a result has to be -/

/-- **The result is `x` rounded once.**  It is normalised, it denotes `x` rounded to the
selected precision in the selected mode, and it is flagged inexact just when `x` was not
representable. -/
structure RoundsTo (e : Env) (s : Acc) (x : ℚ) : Prop where
  normal : s.Normal
  val : s.val = rnd e.prec e.mode x
  inexact : s.inexact = true ↔ rnd e.prec e.mode x ≠ x

/-- The biased exponent of a number. -/
def expOf (x : ℚ) : ℤ := Int.log 2 |x| + bias

/-- The number's exponent is one of the extended format. -/
def InRange (x : ℚ) : Prop := 0 ≤ expOf x ∧ expOf x ≤ 0x7FFE

/-- The exponent of a number given by a 64-bit significand. -/
theorem expOf_scaled (neg : Bool) {x : ℚ} (E : ℤ) (h1 : 2 ^ 63 ≤ x) (h2 : x < 2 ^ 64) :
    expOf (signed neg (x * 2 ^ (E - bias - 63))) = E := by
  have hx : 0 < x := lt_of_lt_of_le (by norm_num) h1
  have hpos : 0 < x * 2 ^ (E - bias - 63) := mul_pos hx (zpow_pos (by norm_num) _)
  rw [expOf, abs_signed neg hpos.le, log_scaled (n := 63) (by exact_mod_cast h1)
    (by norm_num at h2 ⊢; exact h2)]
  ring

/-! ## 5. A few operands -/

/-- Extended precision, rounding to nearest, to a register. -/
def extNearest : Env := ⟨0x84, 0, 0⟩

/-- No exception flag set. -/
def noErrors : Clean := ⟨0, by decide⟩

/-- The number one. -/
def one : Number := ⟨⟨0, 0, 0x3FFF, ⟨0x8000, 0, 0, 0⟩⟩, by decide, by decide⟩

/-- The number three. -/
def three : Number := ⟨⟨0, 0, 0x4000, ⟨0xC000, 0, 0, 0⟩⟩, by decide, by decide⟩

end Cpm8000.Fpe
