/-
# Shifting and normalising a significand

The significand and the rounding byte shift together: `wide` is the 72-bit number they make,
and one right step is a sticky halving of it, one left step a doubling.

* `shifD1_wide`: the right step, with the carry that enters at the top.
* `normdigs_spec`: normalising a nonzero number returns, and multiplies `wide` by a power of
  two that it takes off the exponent.
-/
import Cpm8000.Fpe.Regs

namespace Cpm8000.Fpe

open Arith

/-! ## 1. The code -/

/-- One step of the right shift; what falls out of rl5 sticks to its last bit. -/
def shifD1 (c : Bool) (s : Acc) : Acc :=
  let q := rrcq s.rq8 c
  let l := rrc s.rl5 q.c
  { s with rq8 := q.val, rl5 := tcc l.c l.val }

/-- One step of the left shift. -/
def shifD2 (s : Acc) : Acc :=
  let l := add s.rl5 s.rl5
  { s with rq8 := (adcq s.rq8 s.rq8 l.c).val, rl5 := l.val }

/-- Shift the significand by the signed count r0, to the right when positive; the carry enters
on the first right shift. -/
def shiftdigs (r0 : BitVec 16) (c : Bool) (s : Acc) : Acc :=
  if r0.msb then shifD2^[2 ^ 16 - r0.toNat] s
  else if r0 = 0 then s
  else (shifD1 false)^[r0.toNat - 1] (shifD1 c s)

/-- One step of the normalisation: exponent down, significand left. -/
def noMoD2 (s : Acc) : Acc :=
  let r7 := sub s.r7 1
  let rl6 := sbc s.rl6 0 r7.c
  { shifD2 s with r7 := r7.val, rl6 := rl6.val }

/-- Shift left until the leading bit is set; `none` when the fuel runs out. -/
def normLoop : ℕ → Acc → Option Acc
  | 0, _ => none
  | fuel + 1, s => if s.rq8.w0.getLsbD 15 then some s else normLoop fuel (noMoD2 s)

/-- Normalise, the number being zero when r0 is: a zero gets the exponent zero. -/
def normdigs (r0 : BitVec 16) (s : Acc) : Option Acc :=
  if r0 = 0 then some { s with r7 := r0, rl6 := lob r0 } else normLoop 73 s

/-- Normalise, taking the test for zero from the digits and the rounding byte. -/
def normordigs (s : Acc) : Option Acc :=
  let r0 := word (hib s.rq8.w3) (lob s.rq8.w3 ||| s.rl5)
  normdigs (r0 ||| s.rq8.w2 ||| s.rq8.w1 ||| s.rq8.w0) s

/-! ## 2. The shifts -/

/-- The significand and the rounding byte as one number. -/
def Acc.wide (s : Acc) : ℕ := s.digits * 256 + s.rl5.toNat

theorem Acc.wide_lt (s : Acc) : s.wide < 2 ^ 72 := by
  have h1 := s.digits_lt
  have h2 := s.rl5.isLt
  unfold wide
  omega

/-- Replacing the digits and the rounding byte. -/
theorem Acc.wide_update (s : Acc) (q : Quad) (b : BitVec 8) :
    Acc.wide { s with rq8 := q, rl5 := b } = q.toNat * 256 + b.toNat := by
  rw [wide, Op.digits]

theorem Acc.expBits_update (s : Acc) (q : Quad) (b : BitVec 8) :
    Op.expBits { s with rq8 := q, rl5 := b : Acc }.toOp = s.expBits := by
  rw [Op.expBits, Op.expBits]

theorem Acc.normal_of_wide (t : Acc) (h : 2 ^ 71 ≤ t.wide) : t.Normal := by
  have := t.rl5.isLt
  unfold wide at h
  unfold Op.Normal
  omega

/-- The significand with its guard and sticky bit is the wide number jammed. -/
theorem Acc.grs_eq_jam (s : Acc) : s.grs = jam 64 s.wide := by
  have hl := s.rl5.isLt
  have h7 := toNat_getLsbD s.rl5 7
  unfold grs jam wide
  by_cases h : s.rl5.toNat % 128 = 0
  · have hd : decide (s.rl5.toNat % 128 ≠ 0) = false := by simp [h]
    rw [hd, Bool.toNat_false]
    split_ifs <;> omega
  · have hd : decide (s.rl5.toNat % 128 ≠ 0) = true := by simp [h]
    rw [hd, Bool.toNat_true]
    split_ifs <;> omega

theorem jam_64 (D : ℕ) : jam 64 (256 * D) = 4 * D := by
  rw [jam, if_pos (by omega)]
  omega

/-- **A right step is a sticky halving.** -/
theorem shifD1_wide (c : Bool) (s : Acc) :
    (shifD1 c s).wide = jam 2 (s.wide + 2 ^ 72 * c.toNat) := by
  have hq := rrcq_spec s.rq8 c
  have hl := rrc_spec s.rl5 (rrcq s.rq8 c).c (by norm_num)
  have hc := Bool.toNat_le (rrcq s.rq8 c).c
  have ht := toNat_tcc (rrc s.rl5 (rrcq s.rq8 c).c).c (rrc s.rl5 (rrcq s.rq8 c).c).val
    (by norm_num)
  have e : (shifD1 c s).wide = (rrcq s.rq8 c).val.toNat * 256 +
      (tcc (rrc s.rl5 (rrcq s.rq8 c).c).c (rrc s.rl5 (rrcq s.rq8 c).c).val).toNat := rfl
  have e' : s.wide = s.rq8.toNat * 256 + s.rl5.toNat := rfl
  rw [e, e', ht, jam]
  cases hlc : (rrc s.rl5 (rrcq s.rq8 c).c).c with
  | false =>
    rw [hlc, Bool.toNat_false] at hl
    rw [if_neg Bool.false_ne_true, if_pos (by omega)]
    omega
  | true =>
    rw [hlc, Bool.toNat_true] at hl
    rw [if_pos rfl, if_neg (by omega)]
    omega

theorem shifD1_expBits (c : Bool) (s : Acc) : (shifD1 c s).expBits = s.expBits := by
  rw [shifD1, Op.expBits, Op.expBits]

theorem shifD1_rh6 (c : Bool) (s : Acc) : (shifD1 c s).rh6 = s.rh6 := by
  rw [shifD1]

theorem shifD1_rh5 (c : Bool) (s : Acc) : (shifD1 c s).rh5 = s.rh5 := by
  rw [shifD1]

/-- **A left step is a doubling**, when the leading bit is clear. -/
theorem shifD2_wide {s : Acc} (h : ¬ s.Normal) : (shifD2 s).wide = 2 * s.wide := by
  have hl := add_spec s.rl5 s.rl5
  have hq := adcq_spec s.rq8 s.rq8 (add s.rl5 s.rl5).c
  have hlt := (adcq s.rq8 s.rq8 (add s.rl5 s.rl5).c).val.toNat_lt
  have hc := Bool.toNat_le (add s.rl5 s.rl5).c
  have hc' := Bool.toNat_le (adcq s.rq8 s.rq8 (add s.rl5 s.rl5).c).c
  have hn : s.rq8.toNat < 2 ^ 63 := not_le.mp h
  simp only [Acc.wide, Op.digits, shifD2]
  omega

/-- A count of one is one right step, with the carry the caller left. -/
theorem shiftdigs_one (c : Bool) (s : Acc) : shiftdigs 1 c s = shifD1 c s := by
  have h : (1 : BitVec 16).toNat - 1 = 0 := rfl
  rw [shiftdigs, if_neg (by decide), if_neg (by decide), h, Function.iterate_zero, id]

/-! ## 3. Normalising -/

/-- A normalising step doubles the wide number and takes one off the exponent. -/
theorem noMoD2_spec {s : Acc} (h : ¬ s.Normal) :
    (noMoD2 s).wide = 2 * s.wide ∧ ((noMoD2 s).expBits + 1) % 2 ^ 24 = s.expBits ∧
      (noMoD2 s).rh6 = s.rh6 ∧ (noMoD2 s).rh5 = s.rh5 := by
  refine ⟨?_, ?_, rfl, rfl⟩
  · exact shifD2_wide h
  · have h7 := sub_spec s.r7 1
    have h6 := sbc_spec s.rl6 0 (sub s.r7 1).c
    have h1 : (1 : BitVec 16).toNat = 1 := rfl
    have h0 : (0 : BitVec 8).toNat = 0 := rfl
    have hl6 := s.rl6.isLt
    have hl7 := s.r7.isLt
    have hv7 := (sub s.r7 1).val.isLt
    have hc := Bool.toNat_le (sub s.r7 1).c
    have hc' := Bool.toNat_le (sbc s.rl6 0 (sub s.r7 1).c).c
    simp only [Op.expBits, noMoD2]
    omega

/-- What normalising does: some number `n` of doublings, `n` off the exponent. -/
structure Normalised (n : ℕ) (s r : Acc) : Prop where
  normal : r.Normal
  wide : r.wide = 2 ^ n * s.wide
  expBits : (r.expBits + n) % 2 ^ 24 = s.expBits
  rh6 : r.rh6 = s.rh6
  rh5 : r.rh5 = s.rh5

/-- The loop returns as long as the fuel covers the leading zeros. -/
theorem normLoop_spec (fuel : ℕ) (s : Acc) (h : 2 ^ 72 ≤ s.wide * 2 ^ fuel) :
    ∃ n r, normLoop (fuel + 1) s = some r ∧ Normalised n s r := by
  induction fuel generalizing s with
  | zero =>
    have := s.wide_lt
    omega
  | succ fuel ih =>
    rw [normLoop]
    by_cases hn : s.rq8.w0.getLsbD 15 = true
    · rw [if_pos hn]
      refine ⟨0, s, rfl, ?_, by omega, ?_, rfl, rfl⟩
      · exact (Quad.getLsbD_w0_iff _).mp hn
      · have := s.expBits_lt
        omega
    · rw [if_neg hn]
      have hn' : ¬ s.Normal := fun h' => hn ((Quad.getLsbD_w0_iff _).mpr h')
      obtain ⟨hw, he, h6, h5⟩ := noMoD2_spec hn'
      have hfuel : 2 ^ 72 ≤ (noMoD2 s).wide * 2 ^ fuel := by
        rw [hw]
        calc 2 ^ 72 ≤ s.wide * 2 ^ (fuel + 1) := h
          _ = 2 * s.wide * 2 ^ fuel := by ring
      obtain ⟨n, r, hr, hN⟩ := ih (noMoD2 s) hfuel
      refine ⟨n + 1, r, hr, hN.normal, ?_, ?_, hN.rh6.trans h6, hN.rh5.trans h5⟩
      · rw [hN.wide, hw]
        ring
      · have := hN.expBits
        omega

/-- **Normalising a nonzero number returns.** -/
theorem normdigs_spec {r0 : BitVec 16} {s : Acc} (h0 : r0 ≠ 0) (hs : s.wide ≠ 0) :
    ∃ n r, normdigs r0 s = some r ∧ Normalised n s r := by
  rw [normdigs, if_neg h0]
  apply normLoop_spec
  have : 1 ≤ s.wide := Nat.one_le_iff_ne_zero.mpr hs
  omega

end Cpm8000.Fpe
