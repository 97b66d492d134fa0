/-
# Rounding a result

The routine every arithmetic operation ends with.  A first part, one branch for each precision,
collects the last bit kept, the guard bit and the sticky bit at the top of rl5, clears what is
below the last bit kept, and sets up the increment; a second part decides from those three
bits, the mode and the sign whether to add it.

* `foolsround_spec`: what the routine does to the registers, for all precisions at once, in
  terms of the guard and sticky bits of the significand jammed to the precision.
* `round_roundsTo`: if the registers hold an exact number rounded to odd, the routine leaves
  that number rounded once.
-/
import Cpm8000.Fpe.Regs

namespace Cpm8000.Fpe

open Arith

/-! ## 1. The code -/

/-- Rotate the digits of `src` left through the low digit of `link`; both are returned. -/
def rldb (link src : BitVec 8) : BitVec 8 × BitVec 8 :=
  (BitVec.ofNat 8 (link.toNat / 16 * 16 + src.toNat / 16),
    BitVec.ofNat 8 (src.toNat % 16 * 16 + link.toNat % 16))

/-- What a precision branch hands to the decision: the operand with its rounding bits in rl5,
and the registers r2 and r3 of the increment. -/
structure Bump where
  s : Acc
  r2 : BitVec 16
  r3 : BitVec 16

/-- Extended precision: all 64 bits are kept. -/
def extpre (s : Acc) : Bump :=
  let r1 : BitVec 16 := 0x7FC0
  let rh1 := hib r1 &&& s.rl5
  let rl5 := if rh1 = 0 then s.rl5 else set s.rl5 6
  let rl5 := rl5 &&& lob r1
  let right := rr s.rq8.w3
  let left := rl right.val
  let rl5 := (rrc rl5 left.c).val
  ⟨{ s with rq8 := { s.rq8 with w3 := left.val }, rl5 := rl5 }, 0, set 0 0⟩

/-- Double precision: the low eleven bits of r11 go. -/
def dPre (s : Acc) : Bump :=
  let r1 := 0x03FF &&& s.rq8.w3
  let r1 := word (hib r1) (lob r1 ||| s.rl5)
  let rl5 : BitVec 8 := 0
  let rl5 := if r1 = 0 then rl5 else set rl5 5
  let r1 := 0x0C00 &&& s.rq8.w3
  let rh1 := (rldb (lob r1) (hib r1)).2
  let rl5 := rl5 ||| rh1
  ⟨{ s with rq8 := { s.rq8 with w3 := s.rq8.w3 &&& 0xF800 }, rl5 := rl5 }, 0, set 0 11⟩

/-- Single precision: the low byte of r9 goes, and rr10. -/
def sPre (s : Acc) : Bump :=
  let r1 := 0x007F &&& s.rq8.w1
  let r1 := r1 ||| s.rq8.w2
  let r1 := word (hib r1) (lob r1 ||| s.rl5)
  let rl5 : BitVec 8 := 0
  let r1 := r1 ||| s.rq8.w3
  let rl5 := if r1 = 0 then rl5 else set rl5 5
  let r1 := 0x0180 &&& s.rq8.w1
  let rl1 := lob (rr r1).val
  let rl5 := rl5 ||| rl1
  ⟨{ s with rq8 := ⟨s.rq8.w0, s.rq8.w1 &&& 0xFF00, 0, 0⟩, rl5 := rl5 }, set 0 8, 0⟩

/-- The mode tests: the rounding byte, with bit 4 set when the increment is due. -/
def direction (rh0 rh6 rl5 : BitVec 8) : BitVec 8 :=
  if rh0.getLsbD 3 then
    if rh0.getLsbD 2 then
      -- minusinf
      if rh6.getLsbD 7 then set rl5 4 else rl5
    else
      -- plusinf
      if rh6.getLsbD 7 then rl5 else set rl5 4
  else if rh0.getLsbD 2 then rl5
  else
    -- nearest
    if !rl5.getLsbD 6 then rl5
    else if rl5 = 0x40 then rl5
    else set rl5 4

/-- Add the increment when bit 4 of the rounding byte asks for it. -/
def roundup (b : Bump) : Acc :=
  if !b.s.rl5.getLsbD 4 then b.s
  else
    let r1 : BitVec 16 := 0
    let sum := adcq b.s.rq8 ⟨r1, b.r2, r1, b.r3⟩ false
    if !sum.c then { b.s with rq8 := sum.val }
    else
      let r7 := add b.s.r7 1
      let rl6 := adc b.s.rl6 (lob r1) r7.c
      { b.s with
        rq8 := { sum.val with w0 := set sum.val.w0 15 }
        r7 := r7.val
        rl6 := rl6.val }

/-- Flag an inexact result and decide on the increment. -/
def nowround (rh0 : BitVec 8) (b : Bump) : Acc :=
  let rl1 := 0x60 &&& b.s.rl5
  if rl1 = 0 then roundup b
  else
    roundup { b with s :=
      { b.s with rh5 := set b.s.rh5 4, rl5 := direction rh0 b.s.rh6 b.s.rl5 } }

/-- Round in the direction rh0 to the precision rl0. -/
def foolsround (rh0 rl0 : BitVec 8) (s : Acc) : Acc :=
  nowround rh0
    (if rl0.getLsbD 1 then dPre s else if rl0.getLsbD 0 then sPre s else extpre s)

/-- Round by the modes byte and the format byte. -/
def round (e : Env) (s : Acc) : Acc :=
  foolsround e.modes (0x0F &&& e.rh4) s

/-! ## 2. The three precision branches

All three leave the same thing, for three values of `k`, the number of bits dropped. -/

/-- The rounding byte: last bit kept, guard bit and sticky bit. -/
def roundBits (l g t : Bool) : BitVec 8 :=
  BitVec.ofNat 8 (128 * l.toNat + 64 * g.toNat + 32 * t.toNat)

/-- The rounding byte of a jammed significand, whose last two bits are guard and sticky. -/
def bitsOf (J : ℕ) : BitVec 8 :=
  roundBits (J / 4 % 2 == 1) (J / 2 % 2 == 1) (J % 2 == 1)

/-- A bump holds the operand cut off after all but `k` bits, and an increment that fits. -/
structure Cut (k : ℕ) (s : Acc) (b : Bump) : Prop where
  digits : b.s.digits = s.digits / 2 ^ k * 2 ^ k
  bump : (⟨0, b.r2, 0, b.r3⟩ : Quad).toNat = 2 ^ k
  rh6 : b.s.rh6 = s.rh6
  rl6 : b.s.rl6 = s.rl6
  r7 : b.s.r7 = s.r7

/-- What a precision branch that drops `k` bits leaves. -/
structure Kept (k : ℕ) (s : Acc) (b : Bump) : Prop extends Cut k s b where
  rl5 : b.s.rl5 = bitsOf (jam (2 ^ k) s.grs)
  rh5 : b.s.rh5 = s.rh5

/-- Extended precision only moves the rounding bits down by one. -/
theorem extpre_rl5 (x : BitVec 8) (c : Bool) :
    (rrc ((if hib 0x7FC0 &&& x = 0 then x else set x 6) &&& lob 0x7FC0) c).val =
      roundBits c (x.getLsbD 7) (decide (x.toNat % 128 ≠ 0)) := by
  revert x c
  decide +kernel

theorem extpre_kept (s : Acc) : Kept 0 s (extpre s) := by
  have hb : ∀ b : Bool, (b.toNat == 1) = b := by decide
  have h1 := Bool.toNat_le (s.rl5.getLsbD 7)
  have h2 := Bool.toNat_le (decide (s.rl5.toNat % 128 ≠ 0))
  have hJ : jam (2 ^ 0) s.grs = s.grs := by rw [Nat.pow_zero, jam_one]
  have hl : (s.grs / 4 % 2 == 1) = s.rq8.w3.getLsbD 0 := by
    rw [s.grs_div_four, ← hb (s.rq8.w3.getLsbD 0), toNat_getLsbD]
    congr 1
    simp only [Op.digits, Quad.toNat, Nat.pow_zero, Nat.div_one]
    omega
  have hg : (s.grs / 2 % 2 == 1) = s.rl5.getLsbD 7 := by
    rw [← hb (s.rl5.getLsbD 7)]
    congr 1
    unfold Acc.grs
    omega
  have ht : (s.grs % 2 == 1) = decide (s.rl5.toNat % 128 ≠ 0) := by
    rw [← hb (decide (s.rl5.toNat % 128 ≠ 0))]
    congr 1
    unfold Acc.grs
    omega
  refine ⟨⟨?_, (by decide : (⟨0, 0, 0, set 0 0⟩ : Quad).toNat = 2 ^ 0), rfl, rfl, rfl⟩, ?_, rfl⟩
  · simp [extpre, rl_rr, Op.digits]
  · rw [hJ, bitsOf, hl, hg, ht]
    simp only [extpre, rl_rr]
    exact extpre_rl5 _ _

/-- The bits that a jam by `4 * m` leaves of a significand with two more bits. -/
theorem jam_bits {m D r : ℕ} (hm : 0 < m) (hr : r < 4) :
    jam (4 * m) (4 * D + r) / 2 = D / (2 * m) ∧
      (jam (4 * m) (4 * D + r) % 2 = 1 ↔ D % (2 * m) ≠ 0 ∨ r ≠ 0) := by
  have hq : (4 * D + r) / (4 * m) = D / m := by
    rw [← Nat.div_div_eq_div_mul]
    congr 1
    omega
  have hmod : (4 * D + r) % (4 * m) = r + 4 * (D % m) := by
    rw [Nat.mod_mul]
    have e1 : (4 * D + r) % 4 = r := by omega
    have e2 : (4 * D + r) / 4 = D := by omega
    rw [e1, e2]
  have hq2 : D / (2 * m) = D / m / 2 := by
    rw [Nat.mul_comm, Nat.div_div_eq_div_mul]
  have hmod2 : D % (2 * m) = D % m + m * (D / m % 2) := by
    rw [Nat.mul_comm, Nat.mod_mul]
  have hzero : D % (2 * m) ≠ 0 ↔ D % m ≠ 0 ∨ D / m % 2 = 1 := by
    rw [hmod2]
    rcases Nat.mod_two_eq_zero_or_one (D / m) with h | h <;> rw [h] <;> omega
  rw [jam, hmod, hq, hq2, hzero]
  split_ifs with h <;> omega

/-- The same, through the rounding byte. -/
theorem bitsOf_jam {m D r : ℕ} (hm : 0 < m) (hr : r < 4) :
    bitsOf (jam (4 * m) (4 * D + r)) =
      roundBits (D / (4 * m) % 2 == 1) (D / (2 * m) % 2 == 1)
        (decide (D % (2 * m) ≠ 0 ∨ r ≠ 0)) := by
  obtain ⟨h1, h2⟩ := jam_bits (D := D) hm hr
  have h3 : jam (4 * m) (4 * D + r) / 4 = D / (4 * m) := by
    have e : D / (4 * m) = D / (2 * m) / 2 := by
      rw [Nat.div_div_eq_div_mul]
      congr 1
      ring
    omega
  have h4 : (jam (4 * m) (4 * D + r) % 2 == 1) = decide (D % (2 * m) ≠ 0 ∨ r ≠ 0) := by
    rw [← decide_eq_decide.mpr h2]
    rfl
  rw [bitsOf, h1, h3, h4]

/-- The two rounding bits below the significand are clear just when rl5 is. -/
theorem grs_low_eq_zero_iff (x : BitVec 8) :
    2 * (x.getLsbD 7).toNat + (decide (x.toNat % 128 ≠ 0)).toNat ≠ 0 ↔ x ≠ 0 := by
  revert x
  decide +kernel

theorem grs_low_lt (x : BitVec 8) :
    2 * (x.getLsbD 7).toNat + (decide (x.toNat % 128 ≠ 0)).toNat < 4 := by
  have h1 := Bool.toNat_le (x.getLsbD 7)
  have h2 := Bool.toNat_le (decide (x.toNat % 128 ≠ 0))
  omega

/-- A word or-ed together is clear just when its parts are. -/
theorem toNat_or_eq_zero_iff {w : ℕ} (x y : BitVec w) :
    x ||| y = 0 ↔ x.toNat = 0 ∧ y.toNat = 0 := by
  rw [← BitVec.toNat_inj, BitVec.toNat_or]
  simp [Nat.or_eq_zero_iff]

/-- Folding a byte into the sticky bits of a word. -/
theorem word_orb_eq_zero_iff (r1 : BitVec 16) (x : BitVec 8) :
    word (hib r1) (lob r1 ||| x) = 0 ↔ r1.toNat = 0 ∧ x = 0 := by
  have h1 := toNat_or_eq_zero_iff (lob r1) x
  have h0 : (0 : BitVec 8).toNat = 0 := rfl
  have h0' : (0 : BitVec 16).toNat = 0 := rfl
  rw [← BitVec.toNat_inj, h0] at h1
  rw [← BitVec.toNat_inj, ← BitVec.toNat_inj, toNat_word, toNat_hib, h0, h0']
  rw [toNat_lob] at h1
  omega

/-- The rounding byte from a sticky test and the field of the last bit and the guard bit. -/
theorem orb_bits (cond : Prop) [Decidable cond] (v : ℕ) (hv : v < 4) :
    (if cond then (0 : BitVec 8) else set 0 5) ||| BitVec.ofNat 8 (64 * v) =
      roundBits (v / 2 == 1) (v % 2 == 1) (decide ¬cond) := by
  by_cases h : cond <;> simp only [h, if_true, if_false, not_true, not_false_eq_true,
    decide_true, decide_false] <;> interval_cases v <;> rfl

theorem dPre_kept (s : Acc) : Kept 11 s (dPre s) := by
  have h3 := s.rq8.w3.isLt
  have hlow := toNat_and_field 0x03FF s.rq8.w3 0 10 (by decide)
  have hmid := toNat_and_field 0x0C00 s.rq8.w3 10 2 (by decide)
  have hhigh := toNat_and_field 0xF800 s.rq8.w3 11 5 (by decide)
  have hfield : (rldb (lob (0x0C00 &&& s.rq8.w3)) (hib (0x0C00 &&& s.rq8.w3))).2 =
      BitVec.ofNat 8 (64 * (s.rq8.w3.toNat / 1024 % 4)) := by
    simp only [rldb, toNat_lob, toNat_hib, hmid]
    congr 1
    omega
  have hD : s.digits % 1024 = s.rq8.w3.toNat % 1024 := by
    simp only [Op.digits, Quad.toNat]
    omega
  have hD' : s.digits / 1024 % 4 = s.rq8.w3.toNat / 1024 % 4 := by
    simp only [Op.digits, Quad.toNat]
    omega
  refine ⟨⟨?_, (by decide : (⟨0, 0, 0, set 0 11⟩ : Quad).toNat = 2 ^ 11), rfl, rfl, rfl⟩, ?_, rfl⟩
  · rw [BitVec.and_comm] at hhigh
    simp only [dPre, Op.digits, Quad.toNat, hhigh]
    omega
  · have hcond : word (hib (0x03FF &&& s.rq8.w3)) (lob (0x03FF &&& s.rq8.w3) ||| s.rl5) = 0 ↔
        ¬ (s.digits % (2 * 512) ≠ 0 ∨
          2 * (s.rl5.getLsbD 7).toNat + (decide (s.rl5.toNat % 128 ≠ 0)).toNat ≠ 0) := by
      rw [word_orb_eq_zero_iff, hlow, grs_low_eq_zero_iff, not_or, not_not, not_not]
      rw [show 2 * 512 = 1024 from rfl, hD]
      simp
    have hbits := bitsOf_jam (m := 512) (D := s.digits) (by norm_num) (grs_low_lt s.rl5)
    have hm : 4 * 512 = 2 ^ 11 := by norm_num
    rw [hm, ← Nat.add_assoc] at hbits
    rw [Acc.grs, hbits]
    simp only [dPre, hfield]
    rw [orb_bits _ _ (Nat.mod_lt _ (by norm_num))]
    congr 1
    · rw [← hD']
      congr 1
      omega
    · rw [← hD']
      congr 1
      omega
    · exact decide_eq_decide.mpr (by rw [hcond, not_not])

/-- Or-ing down four words and a byte. -/
theorem sPre_sticky (r1 w2 w3 : BitVec 16) (x : BitVec 8) :
    word (hib (r1 ||| w2)) (lob (r1 ||| w2) ||| x) ||| w3 = 0 ↔
      r1.toNat = 0 ∧ w2.toNat = 0 ∧ w3.toNat = 0 ∧ x = 0 := by
  rw [toNat_or_eq_zero_iff]
  have h := word_orb_eq_zero_iff (r1 ||| w2) x
  have h2 := toNat_or_eq_zero_iff r1 w2
  have h0 : (0 : BitVec 16).toNat = 0 := rfl
  rw [← BitVec.toNat_inj, h0] at h h2
  rw [h, h2]
  tauto

theorem sPre_kept (s : Acc) : Kept 40 s (sPre s) := by
  have h1 := s.rq8.w1.isLt
  have h2 := s.rq8.w2.isLt
  have h3 := s.rq8.w3.isLt
  have hlow := toNat_and_field 0x007F s.rq8.w1 0 7 (by decide)
  have hmid := toNat_and_field 0x0180 s.rq8.w1 7 2 (by decide)
  have hhigh := toNat_and_field 0xFF00 s.rq8.w1 8 8 (by decide)
  have hfield : lob (rr (0x0180 &&& s.rq8.w1)).val =
      BitVec.ofNat 8 (64 * (s.rq8.w1.toNat / 128 % 4)) := by
    have hrr := rr_spec (0x0180 &&& s.rq8.w1) (by norm_num)
    apply BitVec.eq_of_toNat_eq
    rw [toNat_lob, BitVec.toNat_ofNat]
    omega
  have hD : s.digits % 549755813888 = 0 ↔
      s.rq8.w1.toNat % 128 = 0 ∧ s.rq8.w2.toNat = 0 ∧ s.rq8.w3.toNat = 0 := by
    simp only [Op.digits, Quad.toNat]
    omega
  have hD' : s.digits / 549755813888 % 4 = s.rq8.w1.toNat / 128 % 4 := by
    simp only [Op.digits, Quad.toNat]
    omega
  refine ⟨⟨?_, (by decide : (⟨0, set 0 8, 0, 0⟩ : Quad).toNat = 2 ^ 40), rfl, rfl, rfl⟩, ?_, rfl⟩
  · have h0 : (0 : BitVec 16).toNat = 0 := rfl
    rw [BitVec.and_comm] at hhigh
    simp only [sPre, Op.digits, Quad.toNat, hhigh, h0]
    omega
  · have hcond : word (hib (0x007F &&& s.rq8.w1 ||| s.rq8.w2))
          (lob (0x007F &&& s.rq8.w1 ||| s.rq8.w2) ||| s.rl5) ||| s.rq8.w3 = 0 ↔
        ¬ (s.digits % (2 * 274877906944) ≠ 0 ∨
          2 * (s.rl5.getLsbD 7).toNat + (decide (s.rl5.toNat % 128 ≠ 0)).toNat ≠ 0) := by
      rw [sPre_sticky, hlow, grs_low_eq_zero_iff, not_or, not_not, not_not]
      rw [show 2 * 274877906944 = 549755813888 from rfl, hD]
      simp only [Nat.pow_zero, Nat.div_one, Nat.mul_one]
      tauto
    have hbits := bitsOf_jam (m := 274877906944) (D := s.digits) (by norm_num) (grs_low_lt s.rl5)
    have hm : 4 * 274877906944 = 2 ^ 40 := by norm_num
    rw [hm, ← Nat.add_assoc] at hbits
    rw [Acc.grs, hbits]
    simp only [sPre, hfield]
    rw [orb_bits _ _ (Nat.mod_lt _ (by norm_num))]
    congr 1
    · rw [← hD']
      congr 1
      omega
    · rw [← hD']
      congr 1
      omega
    · exact decide_eq_decide.mpr (by rw [hcond, not_not])

/-- The number of bits dropped at each precision, and that every branch drops just them. -/
theorem pre_kept (e : Env) (s : Acc) :
    Kept (64 - e.prec) s
      (if (0x0F &&& e.rh4).getLsbD 1 then dPre s
        else if (0x0F &&& e.rh4).getLsbD 0 then sPre s else extpre s) := by
  have hb : ∀ x : BitVec 8, (0x0F &&& x).getLsbD 1 = x.getLsbD 1 ∧
      (0x0F &&& x).getLsbD 0 = x.getLsbD 0 := by decide +kernel
  rw [(hb e.rh4).1, (hb e.rh4).2]
  unfold Env.prec
  split_ifs
  · exact dPre_kept s
  · exact sPre_kept s
  · exact extpre_kept s

/-! ## 3. The decision -/

/-- The rounding byte the mode tests leave: untouched when nothing was lost. -/
def decision (e : Env) (rh6 rl5 : BitVec 8) : BitVec 8 :=
  if 0x60 &&& rl5 = 0 then rl5 else direction e.modes rh6 rl5

/-- Nothing was lost when the guard and the sticky bit are clear. -/
theorem lost_iff (l g t : Bool) : 0x60 &&& roundBits l g t = 0 ↔ g = false ∧ t = false := by
  revert l g t
  decide

/-- **The mode tests decide as the three bits do.** -/
theorem decision_roundBits (e : Env) (rh6 : BitVec 8) (q : ℕ) (g t : Bool) :
    (decision e rh6 (roundBits (q % 2 == 1) g t)).getLsbD 4 =
      roundUp e.mode (rh6.getLsbD 7) q g t := by
  simp only [decision, direction, Env.mode]
  generalize e.modes.getLsbD 3 = m3
  generalize e.modes.getLsbD 2 = m2
  generalize rh6.getLsbD 7 = neg
  cases m3 <;> cases m2 <;>
    simp only [roundUp, if_true, if_false, Bool.false_eq_true] <;>
    generalize (q % 2 == 1) = l <;>
    revert neg l g t <;> decide

theorem decision_bit (e : Env) (rh6 : BitVec 8) (J : ℕ) :
    (decision e rh6 (bitsOf J)).getLsbD 4 =
      roundUp e.mode (rh6.getLsbD 7) (J / 4) (J / 2 % 2 == 1) (J % 2 == 1) :=
  decision_roundBits e rh6 (J / 4) _ _

/-- Bit 4 clear: nothing is added. -/
theorem roundup_of_clear {b : Bump} (h : b.s.rl5.getLsbD 4 = false) : roundup b = b.s := by
  rw [roundup, h]
  rfl

/-- The increment added, with no carry out. -/
theorem roundup_of_set {b : Bump} (h : b.s.rl5.getLsbD 4 = true)
    (hc : (adcq b.s.rq8 ⟨0, b.r2, 0, b.r3⟩ false).c = false) :
    roundup b = { b.s with rq8 := (adcq b.s.rq8 ⟨0, b.r2, 0, b.r3⟩ false).val } := by
  simp only [roundup, h, hc]
  rfl

/-- The increment added, carrying out: the exponent goes up by one. -/
theorem roundup_of_carry {b : Bump} (h : b.s.rl5.getLsbD 4 = true)
    (hc : (adcq b.s.rq8 ⟨0, b.r2, 0, b.r3⟩ false).c = true)
    (hz : (adcq b.s.rq8 ⟨0, b.r2, 0, b.r3⟩ false).val = Quad.zero) :
    (roundup b).rq8.toNat = 2 ^ 63 ∧ (roundup b).rh6 = b.s.rh6 ∧ (roundup b).rh5 = b.s.rh5 ∧
      (roundup b).expBits = (b.s.expBits + 1) % 2 ^ 24 := by
  have e : roundup b = { b.s with
      rq8 := { Quad.zero with w0 := set Quad.zero.w0 15 }
      r7 := (add b.s.r7 1).val
      rl6 := (adc b.s.rl6 (lob 0) (add b.s.r7 1).c).val } := by
    simp only [roundup, h, hc, hz]
    rfl
  rw [e]
  exact ⟨(by decide : ({ Quad.zero with w0 := set Quad.zero.w0 15 } : Quad).toNat = 2 ^ 63),
    rfl, rfl, expBits_inc b.s.toOp⟩

/-- Adding the increment to a cut-off significand. -/
theorem roundup_spec {k : ℕ} {s : Acc} {b : Bump} (h : Cut k s b) (hk : k ≤ 63) :
    (roundup b).rh6 = s.rh6 ∧ (roundup b).rh5 = b.s.rh5 ∧
      ((s.digits / 2 ^ k + (b.s.rl5.getLsbD 4).toNat < 2 ^ (64 - k) ∧
          (roundup b).digits = (s.digits / 2 ^ k + (b.s.rl5.getLsbD 4).toNat) * 2 ^ k ∧
          (roundup b).expBits = s.expBits) ∨
        (s.digits / 2 ^ k + (b.s.rl5.getLsbD 4).toNat = 2 ^ (64 - k) ∧
          (roundup b).digits = 2 ^ 63 ∧
          (roundup b).expBits = (s.expBits + 1) % 2 ^ 24)) := by
  have hpow : 2 ^ (64 - k) * 2 ^ k = 2 ^ 64 := by
    rw [← Nat.pow_add]
    congr 1
    omega
  have hqlt : s.digits / 2 ^ k < 2 ^ (64 - k) := by
    rw [Nat.div_lt_iff_lt_mul (Nat.two_pow_pos k), hpow]
    exact s.digits_lt
  have hexp : b.s.expBits = s.expBits := by rw [Op.expBits, Op.expBits, h.rl6, h.r7]
  have hsum := adcq_spec b.s.rq8 ⟨0, b.r2, 0, b.r3⟩ false
  have hdig : b.s.rq8.toNat = s.digits / 2 ^ k * 2 ^ k := h.digits
  rw [h.bump, hdig, Bool.toNat_false, Nat.add_zero] at hsum
  generalize hq : s.digits / 2 ^ k = q at hsum hqlt hdig ⊢
  cases hx : b.s.rl5.getLsbD 4 with
  | false =>
    rw [roundup_of_clear hx, Bool.toNat_false, Nat.add_zero]
    exact ⟨h.rh6, rfl, Or.inl ⟨hqlt, hdig, hexp⟩⟩
  | true =>
    have hmul : (q + 1) * 2 ^ k = q * 2 ^ k + 2 ^ k := Nat.succ_mul _ _
    have hle : (q + 1) * 2 ^ k ≤ 2 ^ 64 := by
      rw [← hpow]
      exact Nat.mul_le_mul_right _ hqlt
    have hlt := (adcq b.s.rq8 ⟨0, b.r2, 0, b.r3⟩ false).val.toNat_lt
    rw [Bool.toNat_true]
    cases hc : (adcq b.s.rq8 ⟨0, b.r2, 0, b.r3⟩ false).c with
    | false =>
      rw [roundup_of_set hx hc]
      rw [hc, Bool.toNat_false] at hsum
      refine ⟨h.rh6, rfl, Or.inl ⟨?_, ?_, hexp⟩⟩
      · have hlt' : (q + 1) * 2 ^ k < 2 ^ (64 - k) * 2 ^ k := by omega
        exact Nat.lt_of_mul_lt_mul_right hlt'
      · simp only [Op.digits]
        omega
    | true =>
      rw [hc, Bool.toNat_true] at hsum
      have hz : (adcq b.s.rq8 ⟨0, b.r2, 0, b.r3⟩ false).val = Quad.zero := by
        rw [← Quad.toNat_eq_zero_iff]
        omega
      obtain ⟨h1, h2, h3, h4⟩ := roundup_of_carry hx hc hz
      refine ⟨h2.trans h.rh6, h3, Or.inr ⟨?_, h1, ?_⟩⟩
      · have he : (q + 1) * 2 ^ k = 2 ^ (64 - k) * 2 ^ k := by omega
        exact Nat.eq_of_mul_eq_mul_right (Nat.two_pow_pos k) he
      · rw [h4, hexp]

/-! ## 4. The routine -/

theorem prec_cases (e : Env) : e.prec = 53 ∨ e.prec = 24 ∨ e.prec = 64 := by
  unfold Env.prec
  split_ifs <;> simp

/-- The significand jammed to the precision, with guard and sticky bit. -/
def jammed (e : Env) (s : Acc) : ℕ := jam (2 ^ (64 - e.prec)) s.grs

/-- The `prec` bits the significand is rounded to. -/
def rounded (e : Env) (s : Acc) : ℕ :=
  roundNat e.mode s.neg (jammed e s / 4) (jammed e s / 2 % 2 == 1) (jammed e s % 2 == 1)

/-- Jamming keeps the integer part. -/
theorem jammed_div_four (e : Env) (s : Acc) : jammed e s / 4 = s.digits / 2 ^ (64 - e.prec) := by
  have hr := grs_low_lt s.rl5
  have hg : s.grs = 4 * s.digits +
      (2 * (s.rl5.getLsbD 7).toNat + (decide (s.rl5.toNat % 128 ≠ 0)).toNat) := by
    unfold Acc.grs
    omega
  unfold jammed
  rcases prec_cases e with hp | hp | hp <;> rw [hp, hg]
  · have h := (jam_bits (m := 512) (D := s.digits) (by norm_num) hr).1
    rw [show 2 ^ (64 - 53) = 4 * 512 from rfl]
    omega
  · have h := (jam_bits (m := 274877906944) (D := s.digits) (by norm_num) hr).1
    rw [show 2 ^ (64 - 24) = 4 * 274877906944 from rfl]
    omega
  · simp only [jam, Nat.sub_self, Nat.pow_zero, Nat.mod_one, if_true, Nat.div_one]
    omega

/-- **What rounding does to the registers.**  The significand becomes the rounded one, or the
next power of two with the exponent one up; the sign stays, and the error byte records whether
anything was lost. -/
theorem round_spec (e : Env) (s : Acc) :
    (round e s).rh6 = s.rh6 ∧
    (round e s).inexact = (s.inexact || (jammed e s / 2 % 2 == 1) || (jammed e s % 2 == 1)) ∧
    ((rounded e s < 2 ^ e.prec ∧
        (round e s).digits = rounded e s * 2 ^ (64 - e.prec) ∧
        (round e s).expBits = s.expBits) ∨
      (rounded e s = 2 ^ e.prec ∧ (round e s).digits = 2 ^ 63 ∧
        (round e s).expBits = (s.expBits + 1) % 2 ^ 24)) := by
  have hkept := pre_kept e s
  set b := (if (0x0F &&& e.rh4).getLsbD 1 then dPre s
    else if (0x0F &&& e.rh4).getLsbD 0 then sPre s else extpre s) with hb
  have hk : 64 - (64 - e.prec) = e.prec := by
    rcases prec_cases e with hp | hp | hp <;> rw [hp]
  have hk63 : 64 - e.prec ≤ 63 := by
    rcases prec_cases e with hp | hp | hp <;> rw [hp] <;> norm_num
  -- one call of `roundup`, whichever way the test for lost bits goes
  have hround : round e s = roundup { b with s := { b.s with
      rh5 := if 0x60 &&& b.s.rl5 = 0 then b.s.rh5 else set b.s.rh5 4
      rl5 := decision e b.s.rh6 b.s.rl5 } } := by
    rw [round, foolsround, ← hb, nowround, decision]
    split_ifs <;> rfl
  have hcut : Cut (64 - e.prec) s { b with s := { b.s with
      rh5 := if 0x60 &&& b.s.rl5 = 0 then b.s.rh5 else set b.s.rh5 4
      rl5 := decision e b.s.rh6 b.s.rl5 } } :=
    ⟨hkept.digits, hkept.bump, hkept.rh6, hkept.rl6, hkept.r7⟩
  have hspec := roundup_spec hcut hk63
  simp only at hspec
  rw [← hround, hkept.rl5, hkept.rh6, hkept.rh5, decision_bit, ← jammed, ← jammed_div_four,
    hk] at hspec
  obtain ⟨h1, h2, h3⟩ := hspec
  refine ⟨h1, ?_, h3⟩
  simp only [Acc.inexact, h2, bitsOf, lost_iff]
  generalize (jammed e s / 2 % 2 == 1) = g
  generalize (jammed e s % 2 == 1) = t
  have hset : (set s.rh5 4).getLsbD 4 = true := by
    rw [getLsbD_set _ _ _ (by norm_num)]
    exact Bool.or_true _
  by_cases hlost : g = false ∧ t = false
  · rw [if_pos hlost, hlost.1, hlost.2, Bool.or_false, Bool.or_false]
  · rw [if_neg hlost, hset]
    cases g <;> cases t <;> simp at hlost ⊢

/-! ## 5. Rounding once -/

section Exact

variable {K : Type*} [Field K] [LinearOrder K] [IsStrictOrderedRing K] [FloorRing K]

/-- The three bits of a jammed number put together again. -/
theorem jam_split (J : ℕ) :
    4 * (J / 4) + 2 * (J / 2 % 2 == 1).toNat + (J % 2 == 1).toNat = J := by
  have h1 : (J / 2 % 2 == 1).toNat = J / 2 % 2 := by
    rcases Nat.mod_two_eq_zero_or_one (J / 2) with h | h <;> simp [h]
  have h2 : (J % 2 == 1).toNat = J % 2 := by
    rcases Nat.mod_two_eq_zero_or_one J with h | h <;> simp [h]
  omega

/-- **The rounding of an exact number from its jammed significand.**  `x` is the significand
scaled to 64 bits, `J` its first `prec` bits with guard and sticky bit. -/
theorem rnd_of_jammed (e : Env) {x : K} {J : ℕ} (neg : Bool) (j : ℤ)
    (h1 : 2 ^ 63 ≤ x) (h2 : x < 2 ^ 64) (hJ : RoundOdd (4 * (x / 2 ^ (64 - e.prec))) J) :
    rnd e.prec e.mode (signed neg (x * 2 ^ j)) =
        signed neg ((roundNat e.mode neg (J / 4) (J / 2 % 2 == 1) (J % 2 == 1) : K) *
          2 ^ (64 - e.prec) * 2 ^ j) ∧
      (rnd e.prec e.mode (signed neg (x * 2 ^ j)) = signed neg (x * 2 ^ j) ↔
        (J / 2 % 2 == 1) = false ∧ (J % 2 == 1) = false) := by
  have hp : e.prec ≤ 64 := by rcases prec_cases e with h | h | h <;> rw [h] <;> norm_num
  rw [← jam_split J] at hJ
  have hpow : (2 : K) ^ ((63 : ℤ) + 1 - (e.prec : ℤ)) = 2 ^ (64 - e.prec) := by
    rw [← zpow_natCast]
    congr 1
    omega
  have hrnd : rnd e.prec e.mode (signed neg (x * 2 ^ j)) =
      signed neg ((roundInt e.mode neg (x / 2 ^ (64 - e.prec)) : K) *
        2 ^ (64 - e.prec) * 2 ^ j) := by
    rw [← hpow]
    exact rnd_scaled (n := 63) (by exact_mod_cast h1) (by norm_num at h2 ⊢; exact h2)
  have hk : (0 : K) < 2 ^ (64 - e.prec) := by positivity
  have hj : (0 : K) < 2 ^ j := zpow_pos (by norm_num) j
  refine ⟨?_, ?_⟩
  · rw [hrnd, hJ.roundInt_eq]
    norm_cast
  · rw [hrnd, signed_inj, mul_left_inj' hj.ne', ← hJ.floor_eq_self_iff,
      ← roundInt_eq_self_iff e.mode neg, eq_div_iff hk.ne']

/-- Jamming a significand to the precision keeps the relation to the exact number. -/
theorem roundOdd_jam_prec (e : Env) {x : K} {G : ℕ} (h : RoundOdd (4 * x) G) :
    RoundOdd (4 * (x / 2 ^ (64 - e.prec))) (jam (2 ^ (64 - e.prec)) G) := by
  have hdiv : 4 * (x / 2 ^ (64 - e.prec)) = 4 * x / (2 ^ (64 - e.prec) : ℕ) := by
    push_cast
    ring
  rw [hdiv]
  rcases prec_cases e with hp | hp | hp <;> rw [hp]
  · exact h.jam (by norm_num) (by norm_num)
  · exact h.jam (by norm_num) (by norm_num)
  · rw [Nat.sub_self, Nat.pow_zero, jam_one]
    simpa using h

/-- A normalised significand bounds the exact number it stands for. -/
theorem roundOdd_grs_bounds {s : Acc} {x : K} (hn : s.Normal) (h : RoundOdd (4 * x) s.grs) :
    2 ^ 63 ≤ x ∧ x < 2 ^ 64 := by
  have hlow := grs_low_lt s.rl5
  have hd := s.digits_lt
  have hn' : 2 ^ 63 ≤ s.digits := hn
  have hge : 2 ^ 65 ≤ s.grs := by
    unfold Acc.grs
    omega
  have hle : s.grs + 1 ≤ 2 ^ 66 := by
    unfold Acc.grs
    omega
  have hgeK : (2 : K) ^ 65 ≤ s.grs := by exact_mod_cast hge
  have hleK : (s.grs : K) + 1 ≤ 2 ^ 66 := by exact_mod_cast hle
  have e65 : (2 : K) ^ 65 = 4 * 2 ^ 63 := by norm_num
  have e66 : (2 : K) ^ 66 = 4 * 2 ^ 64 := by norm_num
  rcases h with h | ⟨hodd, h1, h2⟩
  · constructor <;> linarith
  · have hgt : 2 ^ 65 + 1 ≤ s.grs := by omega
    have hgtK : (2 : K) ^ 65 + 1 ≤ s.grs := by exact_mod_cast hgt
    constructor <;> linarith

end Exact

/-- The number rounding leaves is the rounded significand at the old exponent. -/
theorem round_val (e : Env) (s : Acc) (hE : s.expBits + 1 < 2 ^ 23) :
    (round e s).val =
      signed s.neg ((rounded e s : ℚ) * 2 ^ (64 - e.prec) * 2 ^ (s.expo - bias - 63)) := by
  obtain ⟨h6, -, h⟩ := round_spec e s
  have hp : e.prec ≤ 64 := by rcases prec_cases e with h | h | h <;> rw [h] <;> norm_num
  have hs : s.expo = s.expBits := by rw [Op.expo, if_pos (by omega)]
  have hneg : (round e s).neg = s.neg := by rw [Op.neg, h6, Op.neg]
  rw [Op.val, hneg, Op.mag]
  congr 1
  rcases h with ⟨-, hd, he⟩ | ⟨hn, hd, he⟩
  · have hr : (round e s).expo = s.expo := by
      rw [Op.expo, if_pos (by omega), he, hs]
    rw [hd, hr]
    push_cast
    ring
  · have hr : (round e s).expo = s.expo + 1 := by
      rw [Op.expo, if_pos (by omega), he, hs]
      omega
    have hpow : (2 : ℚ) ^ e.prec * 2 ^ (64 - e.prec) = 2 ^ 64 := by
      rw [← pow_add]
      congr 1
      omega
    have hz : (2 : ℚ) ^ (s.expo + 1 - bias - 63) = 2 * 2 ^ (s.expo - bias - 63) := by
      rw [show s.expo + 1 - bias - 63 = 1 + (s.expo - bias - 63) from by ring,
        zpow_add₀ (by norm_num), zpow_one]
    rw [hd, hn, hr, hz]
    push_cast
    rw [hpow]
    ring

/-- Rounding keeps a significand normalised. -/
theorem round_normal (e : Env) {s : Acc} (hn : s.Normal) : (round e s).Normal := by
  obtain ⟨-, -, h⟩ := round_spec e s
  have hn' : 2 ^ 63 ≤ s.digits := hn
  rcases h with ⟨-, hd, -⟩ | ⟨-, hd, -⟩
  · have hle : s.digits / 2 ^ (64 - e.prec) ≤ rounded e s := by
      rw [rounded, roundNat, ← jammed_div_four]
      omega
    have hmul := Nat.mul_le_mul_right (2 ^ (64 - e.prec)) hle
    unfold Op.Normal
    rw [hd]
    refine le_trans ?_ hmul
    rcases prec_cases e with hp | hp | hp <;> rw [hp] <;> omega
  · exact hd.ge

/-- What it takes for the result of `round` to be a number rounded once: the same rounded
significand and the same loss. -/
theorem round_roundsTo_iff (e : Env) {s : Acc} (hn : s.Normal) (hE : s.expBits + 1 < 2 ^ 23)
    (hclean : s.inexact = false) {x : ℚ} {J : ℕ} (h1 : 2 ^ 63 ≤ x) (h2 : x < 2 ^ 64)
    (hJ : RoundOdd (4 * (x / 2 ^ (64 - e.prec))) J) :
    RoundsTo e (round e s) (signed s.neg (x * 2 ^ (s.expo - bias - 63))) ↔
      rounded e s = roundNat e.mode s.neg (J / 4) (J / 2 % 2 == 1) (J % 2 == 1) ∧
      ((jammed e s / 2 % 2 == 1) || (jammed e s % 2 == 1)) =
        ((J / 2 % 2 == 1) || (J % 2 == 1)) := by
  obtain ⟨hrnd, hexact⟩ := rnd_of_jammed e s.neg (s.expo - bias - 63) h1 h2 hJ
  have hk : (0 : ℚ) < 2 ^ (64 - e.prec) := by positivity
  have hj : (0 : ℚ) < 2 ^ (s.expo - bias - 63) := zpow_pos (by norm_num) _
  have hflag : (round e s).inexact =
      ((jammed e s / 2 % 2 == 1) || (jammed e s % 2 == 1)) := by
    rw [(round_spec e s).2.1, hclean, Bool.false_or]
  have hval : (round e s).val = rnd e.prec e.mode (signed s.neg (x * 2 ^ (s.expo - bias - 63))) ↔
      rounded e s = roundNat e.mode s.neg (J / 4) (J / 2 % 2 == 1) (J % 2 == 1) := by
    rw [round_val e s hE, hrnd, signed_inj, mul_left_inj' hj.ne', mul_left_inj' hk.ne']
    norm_cast
  have hbool : ((round e s).inexact = true ↔
      rnd e.prec e.mode (signed s.neg (x * 2 ^ (s.expo - bias - 63))) ≠
        signed s.neg (x * 2 ^ (s.expo - bias - 63))) ↔
      ((jammed e s / 2 % 2 == 1) || (jammed e s % 2 == 1)) =
        ((J / 2 % 2 == 1) || (J % 2 == 1)) := by
    rw [hflag, Ne, hexact]
    generalize (jammed e s / 2 % 2 == 1) = g'
    generalize (jammed e s % 2 == 1) = t'
    generalize (J / 2 % 2 == 1) = g
    generalize (J % 2 == 1) = t
    revert g' t' g t
    decide
  constructor
  · rintro ⟨-, hv, hi⟩
    exact ⟨hval.mp hv, hbool.mp hi⟩
  · rintro ⟨hv, hi⟩
    exact ⟨round_normal e hn, hval.mpr hv, hbool.mpr hi⟩

section Exact

variable {K : Type*} [Field K] [LinearOrder K] [IsStrictOrderedRing K] [FloorRing K]

/-- **`round` rounds once**, whatever kind of number the exact result is.  A normalised
significand whose rounding byte stands for the exact `x` is left as that number rounded to the
precision, with the inexact flag right. -/
theorem round_rnd (e : Env) {s : Acc} (hn : s.Normal) (hE : s.expBits + 1 < 2 ^ 23)
    (hclean : s.inexact = false) {x : K} (h : RoundOdd (4 * x) s.grs) :
    (((round e s).val : ℚ) : K) =
        rnd e.prec e.mode (signed s.neg (x * 2 ^ (s.expo - bias - 63))) ∧
      ((round e s).inexact = true ↔ rnd e.prec e.mode
        (signed s.neg (x * 2 ^ (s.expo - bias - 63))) ≠
          signed s.neg (x * 2 ^ (s.expo - bias - 63))) := by
  obtain ⟨h1, h2⟩ := roundOdd_grs_bounds hn h
  obtain ⟨hrnd, hexact⟩ :=
    rnd_of_jammed e s.neg (s.expo - bias - 63) h1 h2 (roundOdd_jam_prec e h)
  constructor
  · rw [round_val e s hE, hrnd, ratCast_signed, rounded]
    push_cast
    rfl
  · rw [(round_spec e s).2.1, hclean, Bool.false_or, Ne, hexact]
    simp only [jammed]
    generalize (jam (2 ^ (64 - e.prec)) s.grs / 2 % 2 == 1) = g
    generalize (jam (2 ^ (64 - e.prec)) s.grs % 2 == 1) = t
    revert g t
    decide

end Exact

/-- The same for a rational result. -/
theorem round_roundsTo (e : Env) {s : Acc} (hn : s.Normal) (hE : s.expBits + 1 < 2 ^ 23)
    (hclean : s.inexact = false) {x : ℚ} (h : RoundOdd (4 * x) s.grs) :
    RoundsTo e (round e s) (signed s.neg (x * 2 ^ (s.expo - bias - 63))) := by
  obtain ⟨hval, hinexact⟩ := round_rnd e hn hE hclean h
  exact ⟨round_normal e hn, by rwa [Rat.cast_id] at hval, hinexact⟩

end Cpm8000.Fpe
