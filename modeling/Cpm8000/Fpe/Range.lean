/-
# The exponent range

The two checks around rounding: `under` denormalises a number whose exponent is below the
destination's range, or wraps it when the trap is enabled; `overRange` replaces one that is above
by infinity or the largest number, or wraps it.  Inside the range both leave the registers
alone (`under_of_inRange`, `overRange_of_inRange`), which is all the arithmetic needs of them.
-/
import Cpm8000.Fpe.Shift
import Cpm8000.Fpe.Round

namespace Cpm8000.Fpe

open Arith

/-- Signal underflow at the threshold r0, wrapping by r1 when the trap is enabled. -/
def itsunder (e : Env) (r0 r1 : BitVec 16) (s : Acc) : Acc :=
  let s := { s with rh5 := set s.rh5 2, rl6 := 0 }
  if e.traps.getLsbD 2 then { s with r7 := (add s.r7 r1).val }
  else { shiftdigs (sub r0 s.r7).val false s with r7 := r0 }

/-- Compare with the threshold. -/
def under1 (e : Env) (r0 r1 : BitVec 16) (s : Acc) : Acc :=
  if r0.toNat ≤ s.r7.toNat then s else itsunder e r0 r1 s

/-- Test for underflow at the threshold of the format. -/
def under (e : Env) (s : Acc) : Acc :=
  if e.rh4.getLsbD 2 then
    if s.rl6.getLsbD 0 then itsunder e 0 0x6000 s else under1 e 0 0x6000 s
  else if e.rh4.getLsbD 1 then under1 e 0x3C01 0x0600 s
  else under1 e 0x3F81 0x00C0 s

/-- The largest number of the format at the threshold r0. -/
def hugeNum (e : Env) (r0 : BitVec 16) (s : Acc) : Acc :=
  let rq8 : Quad :=
    if s.rq8.w0.getLsbD 15 then
      if !e.rh4.getLsbD 0 then ⟨0xFFFF, 0xFFFF, 0xFFFF, 0xFFFF⟩
      else if e.rh4.getLsbD 1 then ⟨0xFFFF, 0xFFFF, 0xFFFF, 0xF800⟩
      else ⟨0xFFFF, 0xFF00, 0, 0⟩
    else s.rq8
  { s with rq8 := rq8, r7 := r0 }

/-- Signal overflow at the threshold r0, wrapping by r1 when the trap is enabled. -/
def itsover (e : Env) (r0 r1 : BitVec 16) (s : Acc) : Acc :=
  let s := { s with rh5 := set s.rh5 1 }
  if e.traps.getLsbD 1 then { s with r7 := (sub s.r7 r1).val }
  else
    let s := { s with rh5 := set s.rh5 4, rh6 := s.rh6 &&& 0x80 }
    let rh1 := 0x0C &&& e.modes
    let rh1' := rh1 ||| s.rh6
    if rh1 = 0x00 ∨ rh1' = 0x08 ∨ rh1' = 0x8C then
      { s with rq8 := Quad.zero, r7 := 0x7FFF }
    else hugeNum e r0 s

/-- Test for overflow at the threshold of the format. -/
def overRange (e : Env) (s : Acc) : Acc :=
  let r : BitVec 16 × BitVec 16 :=
    if e.rh4.getLsbD 2 then (0x7FFE, 0x6000)
    else if e.rh4.getLsbD 1 then (0x43FE, 0x0600)
    else (0x407E, 0x00C0)
  if s.r7.toNat ≤ r.1.toNat then s else itsover e r.1 r.2 s

/-- No underflow in the extended range. -/
theorem under_of_inRange {e : Env} {s : Acc} (he : e.Register) (hs : s.expBits < 2 ^ 16) :
    under e s = s := by
  have h6 : s.rl6 = 0 := by
    apply BitVec.eq_of_toNat_eq
    unfold Op.expBits at hs
    have h0 : (0 : BitVec 8).toNat = 0 := rfl
    omega
  have hbit : s.rl6.getLsbD 0 = false := by rw [h6]; rfl
  have he' : e.rh4.getLsbD 2 = true := he
  rw [under, if_pos he', hbit, if_neg Bool.false_ne_true, under1]
  exact if_pos (Nat.zero_le _)

/-- No overflow in the extended range. -/
theorem overRange_of_inRange {e : Env} {s : Acc} (he : e.Register) (hs : s.expBits ≤ 0x7FFE) :
    overRange e s = s := by
  have h7 : s.r7.toNat ≤ 0x7FFE := by
    unfold Op.expBits at hs
    omega
  have he' : e.rh4.getLsbD 2 = true := he
  simp only [overRange, he', if_true]
  exact if_pos h7

/-! ## Rounding inside the range -/

/-- A normalised operand whose exact value has an exponent of the range: its exponent bits are
that exponent, and it does not underflow. -/
theorem settle {e : Env} {t : Acc} {x : ℚ} {E m : ℤ} (he : e.Register) (hn : t.Normal)
    (hodd : RoundOdd (4 * x) t.grs) (hE : (t.expBits : ℤ) = E + 2 ^ 24 * m)
    (hr : InRange (signed t.neg (x * 2 ^ (E - bias - 63)))) :
    under e t = t ∧ t.expo = E ∧ t.expBits + 1 < 2 ^ 23 := by
  obtain ⟨h1, h2⟩ := roundOdd_grs_bounds hn hodd
  rw [InRange, expOf_scaled _ _ h1 h2] at hr
  have hlt := t.expBits_lt
  have hbits : (t.expBits : ℤ) = E := by omega
  refine ⟨under_of_inRange he (by omega), ?_, by omega⟩
  rw [Op.expo, if_pos (by omega), hbits]

/-- **Underflow check and rounding.**  A normalised operand rounded to odd whose exact value has
an exponent of the range is rounded once. -/
theorem finish_roundsTo {e : Env} {t : Acc} {x : ℚ} {E m : ℤ} (he : e.Register) (hn : t.Normal)
    (hclean : t.inexact = false) (hodd : RoundOdd (4 * x) t.grs)
    (hE : (t.expBits : ℤ) = E + 2 ^ 24 * m)
    (hr : InRange (signed t.neg (x * 2 ^ (E - bias - 63)))) :
    RoundsTo e (round e (under e t)) (signed t.neg (x * 2 ^ (E - bias - 63))) := by
  obtain ⟨hu, hexpo, hlt⟩ := settle he hn hodd hE hr
  rw [hu, ← hexpo]
  exact round_roundsTo e hn hlt hclean hodd

end Cpm8000.Fpe
