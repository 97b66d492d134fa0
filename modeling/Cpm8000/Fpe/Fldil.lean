/-
# Conversion to an integer

A floating number is converted to a two's complement integer of 32 or 64 bits: `intadjust` aligns the
significand with its point at the right end of rq8 and rounds it there, `ldino` looks whether the
magnitude fits, and negates it when the number is negative.  The most negative integer has a magnitude
with the leading bit set and all others clear, and that one is let pass; whether the number is
negative is not asked.

* `intadjust_rounds`: the magnitude is rounded to an integer in the mode of the program.
* `overflows_iff`: a magnitude above half the range is flagged.
* `Flil20_spec`: the conversion is right unless the number rounds to the first integer above the range.
* `two_pow_31_not_flagged`: there it delivers the most negative integer, and flags nothing.
-/
import Cpm8000.Fpe.Frombin
import Cpm8000.Fpe.Shifted

namespace Cpm8000.Fpe

open Arith

/-! ## 1. The code -/

/-- The destination is a 64-bit integer. -/
def Env.wide (e : Env) : Bool := e.rh4.getLsbD 1

/-- Check for overflow, watching the special case of the most negative integer. -/
def overflows (e : Env) (s : Acc) : Bool :=
  let rr0 : BitVec 32 := 0x80000000
  if e.wide then
    if s.rq8.w0.getLsbD 15 then
      if s.rq8.hi = rr0 then decide (s.rq8.lo ≠ 0) else true
    else false
  else if s.rq8.hi ≠ 0 then true
  else if s.rq8.w2.getLsbD 15 then decide (s.rq8.lo ≠ rr0)
  else false

/-- Convert a number. -/
def ldino (e : Env) (s : Acc) : Option Acc :=
  (intadjust e s).map fun s =>
    let s : Acc := if overflows e s then { s with rh5 := set s.rh5 7 } else s
    if s.rh6.getLsbD 7 then { s with rq8 := (sublq Quad.zero s.rq8).val } else s

/-- A zero. -/
def ldi0 (s : Acc) : Acc := { s with rq8 := Quad.zero }

/-- Inf or NaN: junk. -/
def ldijnk (s : Acc) : Acc := ldi0 { s with rh5 := set s.rh5 7 }

/-- An integer as it is stored. -/
inductive Binary where
  | long (rr10 : BitVec 32)
  | quad (rq8 : Quad)
  deriving DecidableEq

/-- The case EXT -> INT: convert the source, and deliver 32 or 64 bits.  The error byte is returned
with them. -/
def Flil20 (e : Env) (u : Unpacked) : Option (Binary × BitVec 8) :=
  let s : Option Acc :=
    match u.kind with
    | .num => ldino e u.acc
    | .zero => some (ldi0 u.acc)
    | .inf => some (ldijnk u.acc)
    | .qnan => some (ldijnk u.acc)
    | .snan => some { u.acc with rh5 := set u.rh5 6 }
  s.map fun s => (if e.wide then .quad s.rq8 else .long s.rq8.lo, s.rh5)

/-! ## 2. Alignment -/

/-- The environment of the unusual round: extended precision, and only the mode bits. -/
def Env.right (e : Env) : Env := ⟨0x04, 0x0C &&& e.modes, 0⟩

theorem Env.right_mode (e : Env) : e.right.mode = e.mode := by
  have h : ∀ m : BitVec 8, (0x0C &&& m).getLsbD 3 = m.getLsbD 3 ∧
      (0x0C &&& m).getLsbD 2 = m.getLsbD 2 := by decide +kernel
  simp only [Env.mode, Env.right, (h e.modes).1, (h e.modes).2]

theorem Env.right_prec (e : Env) : e.right.prec = 64 := by
  simp [Env.prec, Env.right]

theorem Env.right_round (e : Env) (s : Acc) : round e.right s = foolsround (0x0C &&& e.modes) 0x04 s := by
  have hf : (0x0F : BitVec 8) &&& 0x04 = 0x04 := by decide
  rw [round, Env.right, hf]

theorem Env.right_rh5 (e : Env) (s : Acc) : (round e.right s).rh5.getLsbD 7 = s.rh5.getLsbD 7 := by
  rw [e.right_round, foolsround_rh5]

/-- In units of the last of all 64 places a number is rounded to an integer. -/
theorem Env.right_inUnits (e : Env) (neg : Bool) (y : ℚ) :
    inUnits e.right neg y = roundInt e.mode neg y := by
  rw [inUnits, e.right_mode, e.right_prec, Nat.sub_self, pow_zero, div_one]

/-- The count of the shift, when the point is not to the right of the register. -/
theorem right_count {r7 : BitVec 16} {E : ℤ} {n : ℕ} (h7 : r7.toInt = E) (hE : E + n = 0x403E)
    (hn : n < 2 ^ 15) : (-(sub r7 0x403E).val).toNat = n := by
  have hs := sub_spec r7 0x403E
  have hlit : (0x403E : BitVec 16).toNat = 0x403E := rfl
  have hv := (sub r7 0x403E).val.isLt
  have hc := Bool.toNat_le (sub r7 0x403E).c
  have hr := r7.isLt
  rw [BitVec.toInt_eq_toNat_cond] at h7
  rw [BitVec.toNat_neg]
  split_ifs at h7 <;> omega

theorem sle_iff (r7 : BitVec 16) : r7.sle 0x403E = true ↔ r7.toInt ≤ 0x403E := by
  rw [BitVec.sle_iff_toInt_le]
  rfl

/-- A left shift leaves the error byte and the sign. -/
theorem shiftdigs_flags (r0 : BitVec 16) (c : Bool) (s : Acc) :
    (shiftdigs r0 c s).rh5 = s.rh5 ∧ (shiftdigs r0 c s).rh6 = s.rh6 := by
  have hleft : ∀ (n : ℕ) (t : Acc), (shifD2^[n] t).rh5 = t.rh5 ∧ (shifD2^[n] t).rh6 = t.rh6 := by
    intro n
    induction n with
    | zero => exact fun t => ⟨rfl, rfl⟩
    | succ n ih =>
      intro t
      rw [Function.iterate_succ_apply]
      exact ih (shifD2 t)
  rw [shiftdigs]
  split_ifs
  · exact hleft _ s
  · exact ⟨rfl, rfl⟩
  · obtain ⟨-, -, h6, h5⟩ := shifD1_iterate (r0.toNat - 1) (shifD1 c s)
    exact ⟨h5.trans (shifD1_rh5 c s), h6.trans (shifD1_rh6 c s)⟩

/-- The magnitude of an operand has been rounded to an integer in rq8. -/
structure Integer (e : Env) (o : Op) (s : Acc) : Prop where
  digits : (s.digits : ℤ) = roundInt e.mode o.neg o.mag
  rh6 : s.rh6 = o.rh6
  inexact : s.inexact = true ↔ (roundInt e.mode o.neg o.mag : ℚ) ≠ o.mag
  noOverflow : s.rh5.getLsbD 7 = false

/-- A magnitude with a point in the register is below the register's range. -/
theorem Op.mag_shifted {o : Op} {n : ℕ} (h : o.expo + n = 0x403E) :
    o.mag = (o.digits : ℚ) / 2 ^ n := by
  have he : o.expo - bias - 63 = -(n : ℤ) := by
    rw [bias]
    omega
  rw [Op.mag, he, zpow_neg, zpow_natCast, div_eq_mul_inv]

/-- What alignment makes of an operand whose point is in the register, or at its right. -/
structure AtRight (e : Env) (o : Op) (f : Clean) (n : ℕ) (r0 : BitVec 16) (s : Acc) : Prop where
  expo : o.expo + n = 0x403E
  count : r0.toNat = n
  small : n < 2 ^ 15
  rh6 : s.rh6 = o.rh6
  rh5 : s.rh5 = f.rh5
  grs : s.grs = 4 * o.digits
  run : intadjust e (o.start f) = some (round e.right (shiftdigs r0 false s))

theorem grs_realigned (o : Op) (r7 : BitVec 16) (rh5 : BitVec 8) :
    Acc.grs ⟨⟨o.rh6, o.rl6, r7, o.rq8⟩, rh5, 0⟩ = 4 * o.digits := by
  rw [Acc.grs_of_clear rfl, Op.digits, Op.digits]

theorem atRight_of_run {e : Env} {o : Op} {f : Clean} {n : ℕ} {r7 : BitVec 16}
    (hn : o.expo + n = 0x403E) (hcount : (-r7).toNat = n) (hn15 : n < 2 ^ 15)
    (hrun : intadjust e (o.start f) =
      some (round e.right (shiftdigs (-r7) false ⟨⟨o.rh6, o.rl6, r7, o.rq8⟩, f.rh5, 0⟩))) :
    AtRight e o f n (-r7) ⟨⟨o.rh6, o.rl6, r7, o.rq8⟩, f.rh5, 0⟩ :=
  ⟨hn, hcount, hn15, rfl, rfl, grs_realigned o r7 f.rh5, hrun⟩

theorem intadjust_atRight (e : Env) (o : Number) (f : Clean) (hE : o.expo ≤ 0x403E) :
    ∃ n r0 s, AtRight e o.toOp f n r0 s := by
  obtain ⟨n, hn⟩ : ∃ n : ℕ, o.expo + n = 0x403E := ⟨(0x403E - o.expo).toNat, by omega⟩
  have h7 : o.r7.toInt = o.expo := Op.InFormat.toInt_r7 o.range
  have hn15 : n < 2 ^ 15 := by
    have := o.range.1
    omega
  have hsle : o.r7.sle 0x403E = true := (sle_iff _).mpr (h7 ▸ hE)
  have hrun : intadjust e (o.start f) = some (round e.right (shiftdigs (-(sub o.r7 0x403E).val) false
      ⟨⟨o.rh6, o.rl6, (sub o.r7 0x403E).val, o.rq8⟩, f.rh5, 0⟩)) := by
    rw [intadjust, normordigs_of_normal (s := o.start f) o.normal, e.right_round]
    simp only [Option.map_some, Op.start, hsle, if_true]
  exact ⟨n, _, _, atRight_of_run hn (right_count h7 hn hn15) hn15 hrun⟩

/-- **Alignment rounds to an integer**, when the exponent is at most that of the register. -/
theorem intadjust_rounds (e : Env) (o : Number) (f : Clean) (hf : f.rh5.getLsbD 7 = false)
    (hE : o.expo ≤ 0x403E) : ∃ r, intadjust e (o.start f) = some r ∧ Integer e o.toOp r := by
  obtain ⟨n, r0, s, hA⟩ := intadjust_atRight e o f hE
  have hn := hA.expo
  have hgrs : RoundOdd (4 * (o.digits : ℚ)) s.grs := by
    rw [hA.grs]
    exact Or.inl (by push_cast; rfl)
  have hR := (round_shifted e.right hgrs).2.2 r0 false (by rw [hA.count]; exact hA.small)
  have hval : shiftedValue (o.digits : ℚ) false n = o.mag := by
    rw [Op.mag_shifted hn, shiftedValue]
    by_cases h0 : n = 0
    · rw [if_pos h0, h0, pow_zero, div_one]
    · rw [if_neg h0, Bool.toNat_false, Nat.cast_zero, mul_zero, add_zero]
  have hneg : s.neg = o.neg := by rw [Op.neg, hA.rh6, Op.neg]
  rw [hA.count, hval] at hR
  obtain ⟨h6, hres, -, hinx⟩ := hR
  rw [e.right_inUnits, e.right_prec, hneg] at hres
  rw [e.right_inUnits, e.right_prec, hneg, Nat.sub_self, pow_zero, mul_one] at hinx
  -- the integer is within the register, so nothing carries out
  have hle : o.mag ≤ o.digits := by
    rw [Op.mag_shifted hn]
    exact div_le_self (Nat.cast_nonneg _) (one_le_pow₀ (by norm_num))
  have hlt : roundInt e.mode o.neg o.mag < 2 ^ 64 := by
    have h1 := (abs_lt.mp (abs_roundInt_sub_lt e.mode o.neg o.mag)).2
    have h2 : (o.digits : ℚ) + 1 ≤ 2 ^ 64 := by exact_mod_cast o.digits_lt
    have h3 : (roundInt e.mode o.neg o.mag : ℚ) < 2 ^ 64 := by linarith
    exact_mod_cast h3
  have hexact : s.inexact = false := by
    rw [Acc.inexact, hA.rh5]
    exact f.exact
  refine ⟨_, hA.run, ?_, h6.trans hA.rh6, ?_, ?_⟩
  · rcases hres with ⟨-, hd, -⟩ | ⟨hbad, -⟩
    · rw [hd, Nat.sub_self, pow_zero, mul_one]
    · exact absurd hbad hlt.ne
  · rw [hinx, hexact]
    simp
  · rw [e.right_rh5, (shiftdigs_flags _ _ s).1, hA.rh5]
    exact hf

/-- A larger exponent is flagged at once. -/
theorem intadjust_overflows (e : Env) (o : Number) (f : Clean) (hE : 0x403E < o.expo) :
    ∃ r, intadjust e (o.start f) = some r ∧ r.rh5.getLsbD 7 = true := by
  have h7 : o.r7.toInt = o.expo := Op.InFormat.toInt_r7 o.range
  have hsle : ¬ o.r7.sle 0x403E = true := fun h => by
    have := (sle_iff _).mp h
    omega
  have hint : intadjust e (o.start f) = some (foolsround (0x0C &&& e.modes) 0x04
      (shiftdigs (-(sub o.r7 0x403E).val) false
        ⟨⟨o.rh6, o.rl6, (sub o.r7 0x403E).val, o.rq8⟩, set f.rh5 7, 0⟩)) := by
    rw [intadjust, normordigs_of_normal (s := o.start f) o.normal]
    simp only [Option.map_some, Op.start, hsle, Bool.false_eq_true, if_false]
  refine ⟨_, hint, ?_⟩
  rw [foolsround_rh5, (shiftdigs_flags _ _ _).1, getLsbD_set _ _ _ (by norm_num)]
  exact Bool.or_true _

/-! ## 3. The check for overflow -/

/-- Half the range of the destination: the first positive integer above it. -/
def Env.limit (e : Env) : ℕ := if e.wide then 2 ^ 63 else 2 ^ 31

/-- **A magnitude above half the range is flagged.** -/
theorem overflows_iff (e : Env) (s : Acc) : overflows e s = true ↔ e.limit < s.digits := by
  have hlit : (0x80000000 : BitVec 32).toNat = 2147483648 := rfl
  have hz : (0 : BitVec 32).toNat = 0 := rfl
  have hq := Quad.toNat_eq s.rq8
  have hlo := s.rq8.lo.isLt
  have hhi := s.rq8.hi.isLt
  have hd : s.digits = s.rq8.toNat := rfl
  have hbit := Quad.getLsbD_w0_iff s.rq8
  have hbit2 : s.rq8.w2.getLsbD 15 = true ↔ 2 ^ 31 ≤ s.rq8.lo.toNat := by
    have h2 := s.rq8.w2.isLt
    have h3 := s.rq8.w3.isLt
    rw [getLsbD_eq_true_iff, Quad.lo, toNat_long]
    omega
  rw [overflows, Env.limit, hd]
  cases e.wide
  · simp only [Bool.false_eq_true, if_false, ← BitVec.toNat_inj, Ne, hz, hlit, hbit2]
    split_ifs <;> simp <;> omega
  · simp only [if_true, hbit, ← BitVec.toNat_inj, Ne, hz, hlit]
    split_ifs <;> simp <;> omega

/-! ## 4. The conversion -/

theorem getLsbD_set_self (x : BitVec 8) : (set x 7).getLsbD 7 = true := by
  rw [getLsbD_set _ _ _ (by norm_num)]
  exact Bool.or_true _

/-- A number rounded to an integer in a mode. -/
def toInteger (m : RoundMode) (x : ℚ) : ℤ :=
  if x < 0 then -roundInt m true |x| else roundInt m false |x|

theorem toInteger_val (m : RoundMode) {o : Op} (h : 0 ≤ o.mag) (hz : o.mag = 0 → o.neg = false) :
    toInteger m o.val = if o.neg then -roundInt m true o.mag else roundInt m false o.mag := by
  rw [toInteger, Op.val, abs_signed _ h]
  cases hn : o.neg
  · rw [signed_false, if_neg (not_lt.mpr h), if_neg Bool.false_ne_true]
  · have hpos : 0 < o.mag := lt_of_le_of_ne h fun h0 => by
      have := hz h0.symm
      rw [hn] at this
      cases this
    rw [signed_true, if_pos (neg_lt_zero.mpr hpos), if_pos rfl]

/-- The integer that is stored. -/
def Binary.toInt : Binary → ℤ
  | .long x => x.toInt
  | .quad q => if q.toNat < 2 ^ 63 then q.toNat else q.toNat - 2 ^ 64

/-- The range of the destination. -/
def FitsInt (e : Env) (z : ℤ) : Prop := -(e.limit : ℤ) ≤ z ∧ z < e.limit

instance (e : Env) (z : ℤ) : Decidable (FitsInt e z) := inferInstanceAs (Decidable (_ ∧ _))

/-- **What a conversion has to do**: flag an integer overflow just when the rounded number is out of
range, and when it is not, store it, flagged inexact just when it is not the number itself. -/
structure Converts (e : Env) (x : ℚ) (r : Binary × BitVec 8) : Prop where
  overflow : r.2.getLsbD 7 = true ↔ ¬ FitsInt e (toInteger e.mode x)
  stored : FitsInt e (toInteger e.mode x) → r.1.toInt = toInteger e.mode x
  inexact : FitsInt e (toInteger e.mode x) →
    (r.2.getLsbD 4 = true ↔ (toInteger e.mode x : ℚ) ≠ x)

/-- The integer of the low half, or of all of rq8. -/
def delivered (e : Env) (q : Quad) : Binary := if e.wide then .quad q else .long q.lo

/-- A magnitude within half the range is stored as it is. -/
theorem delivered_pos {e : Env} {q : Quad} (h : q.toNat < e.limit) :
    (delivered e q).toInt = q.toNat := by
  rw [Env.limit] at h
  have hq := Quad.toNat_eq q
  have hlo := q.lo.isLt
  rw [delivered]
  cases hw : e.wide <;> rw [hw] at h
  · rw [if_neg Bool.false_ne_true] at h ⊢
    rw [Binary.toInt, BitVec.toInt_eq_toNat_cond, if_pos (by omega)]
    omega
  · rw [if_pos rfl] at h ⊢
    rw [Binary.toInt, if_pos h]

/-- Negated, it may be one more. -/
theorem delivered_neg {e : Env} {q : Quad} (h : q.toNat ≤ e.limit) :
    (delivered e (sublq Quad.zero q).val).toInt = -q.toNat := by
  rw [Env.limit] at h
  have hs := sublq_spec Quad.zero q
  have hlt := (sublq Quad.zero q).val.toNat_lt
  have hc := Bool.toNat_le (sublq Quad.zero q).c
  have hq := Quad.toNat_eq (sublq Quad.zero q).val
  have hlo := (sublq Quad.zero q).val.lo.isLt
  have hlt' := q.toNat_lt
  rw [Quad.toNat_zero] at hs
  rw [delivered]
  cases hw : e.wide <;> rw [hw] at h
  · rw [if_neg Bool.false_ne_true] at h ⊢
    rw [Binary.toInt, BitVec.toInt_eq_toNat_cond]
    split_ifs <;> omega
  · rw [if_pos rfl] at h ⊢
    rw [Binary.toInt]
    split_ifs <;> omega

/-- The conversion of a number. -/
theorem ldino_spec (e : Env) (o : Number) (f : Clean) (hf : f.rh5.getLsbD 7 = false) :
    ∃ r, ldino e (o.start f) = some r ∧
      (Converts e o.val (delivered e r.rq8, r.rh5) ↔ toInteger e.mode o.val ≠ e.limit) := by
  have hpos := o.mag_pos
  have hint : toInteger e.mode o.val =
      if o.neg then -roundInt e.mode true o.mag else roundInt e.mode false o.mag :=
    toInteger_val e.mode hpos.le fun h => absurd h hpos.ne'
  have hlim : 0 < e.limit ∧ e.limit < 2 ^ 64 - 1 := by
    rw [Env.limit]
    split_ifs <;> decide
  rcases le_or_gt o.expo 0x403E with hE | hE
  · obtain ⟨s, hs, hI⟩ := intadjust_rounds e o f hf hE
    have hov := overflows_iff e s
    have hneg : s.rh6.getLsbD 7 = o.neg := by rw [hI.rh6, Op.neg]
    obtain ⟨t, ht⟩ : ∃ t : Acc, t = if overflows e s then { s with rh5 := set s.rh5 7 } else s := ⟨_, rfl⟩
    have ht6 : t.rh6 = s.rh6 := by rw [ht]; split_ifs <;> rfl
    have htq : t.rq8 = s.rq8 := by rw [ht]; split_ifs <;> rfl
    have ht4 : t.rh5.getLsbD 4 = s.inexact := by
      rw [ht]
      split_ifs
      · exact (getLsbD_set s.rh5 7 4 (by norm_num)).trans (Bool.or_false _)
      · rfl
    have ht7 : t.rh5.getLsbD 7 = true ↔ e.limit < s.digits := by
      rw [ht, ← hov]
      split_ifs with h
      · exact iff_of_true (getLsbD_set_self s.rh5) h
      · rw [hI.noOverflow]
        exact iff_of_false Bool.false_ne_true h
    have hrun : ldino e (o.start f) =
        some (if t.rh6.getLsbD 7 then { t with rq8 := (sublq Quad.zero t.rq8).val } else t) := by
      rw [ldino, hs, Option.map_some, ht]
    refine ⟨_, hrun, ?_⟩
    have hd := hI.digits
    have hdq : s.digits = s.rq8.toNat := rfl
    rw [ht6, hneg, htq]
    cases hn : o.neg
    · -- a positive number: only the limit itself is let pass
      rw [hn, if_neg Bool.false_ne_true] at hint
      rw [hn] at hd
      rw [if_neg Bool.false_ne_true, htq]
      have hz : toInteger e.mode o.val = s.digits := hint.trans hd.symm
      constructor
      · intro hC heq
        have hfit : ¬ FitsInt e (toInteger e.mode o.val) := fun h => by
          have := h.2
          omega
        have := ht7.mp (hC.overflow.mpr hfit)
        omega
      · intro hne
        refine ⟨?_, fun hfit => ?_, fun hfit => ?_⟩
        · rw [ht7, FitsInt]
          omega
        · have h2 := hfit.2
          rw [hz] at h2 ⊢
          exact delivered_pos (by omega)
        · rw [ht4, hI.inexact, hn, ← hd, hz, Op.val, hn, signed_false]
    · rw [hn, if_pos rfl] at hint
      rw [hn] at hd
      rw [if_pos rfl]
      have hz : toInteger e.mode o.val = -(s.digits : ℤ) := by rw [hint, hd]
      refine iff_of_true ⟨?_, fun hfit => ?_, fun hfit => ?_⟩ (by omega)
      · change t.rh5.getLsbD 7 = true ↔ _
        rw [ht7, FitsInt]
        omega
      · have h1 := hfit.1
        rw [hz] at h1 ⊢
        exact delivered_neg (by omega)
      · change t.rh5.getLsbD 4 = true ↔ _
        rw [ht4, hI.inexact, hn, ← hd, hz, Op.val, hn, signed_true]
        push_cast
        rw [Ne, Ne, neg_inj]
  · obtain ⟨s, hs, h7⟩ := intadjust_overflows e o f hE
    -- the number is far out of range
    have hmag : (2 : ℚ) ^ 64 ≤ o.mag := by
      have hd : (2 : ℚ) ^ 63 ≤ (o.digits : ℕ) := by exact_mod_cast o.normal
      have hp : (2 : ℚ) ^ (1 : ℤ) ≤ 2 ^ (o.expo - bias - 63) :=
        zpow_le_zpow_right₀ (by norm_num) (by rw [bias]; omega)
      calc (2 : ℚ) ^ 64 = (2 : ℚ) ^ 63 * (2 : ℚ) ^ (1 : ℤ) := by norm_num
        _ ≤ (o.digits : ℚ) * 2 ^ (o.expo - bias - 63) := mul_le_mul hd hp (by positivity) (Nat.cast_nonneg _)
    have hbig : ∀ neg : Bool, (2 : ℤ) ^ 64 ≤ roundInt e.mode neg o.mag + 1 := by
      intro neg
      have h1 := (abs_lt.mp (abs_roundInt_sub_lt e.mode neg o.mag)).1
      have h2 : (2 : ℚ) ^ 64 < roundInt e.mode neg o.mag + 1 := by linarith
      exact_mod_cast h2.le
    have hfit : ¬ FitsInt e (toInteger e.mode o.val) ∧ toInteger e.mode o.val ≠ e.limit := by
      have h1 := hbig true
      have h2 := hbig false
      rw [hint, FitsInt]
      split_ifs <;> constructor <;> omega
    obtain ⟨t, ht, ht7⟩ : ∃ t, ldino e (o.start f) = some t ∧ t.rh5.getLsbD 7 = true := by
      rw [ldino, hs, Option.map_some]
      refine ⟨_, rfl, ?_⟩
      dsimp only
      split_ifs
      · exact getLsbD_set_self s.rh5
      · exact getLsbD_set_self s.rh5
      · exact h7
      · exact h7
    refine ⟨t, ht, iff_of_true ⟨iff_of_true ht7 hfit.1, fun h => absurd h hfit.1, fun h => absurd h hfit.1⟩ hfit.2⟩

/-- **Conversion to an integer** does what it has to for every finite operand, width and mode, except
for a number that rounds to the first integer above the range. -/
theorem Flil20_spec (e : Env) (u : Unpacked) (hu : u.WellFormed) (hk : u.kind = .num ∨ u.kind = .zero)
    (hclean : u.rh5.getLsbD 4 = false) (hfits : u.rh5.getLsbD 7 = false) :
    ∃ r, Flil20 e u = some r ∧ (Converts e u.val r ↔ toInteger e.mode u.val ≠ e.limit) := by
  rcases hk with hk | hk
  · obtain ⟨hn, hr⟩ := hu.num hk
    obtain ⟨r, hrun, hspec⟩ := ldino_spec e ⟨u.toOp, hn, hr⟩ ⟨u.rh5, hclean⟩ hfits
    refine ⟨_, ?_, hspec⟩
    have h1 : ldino e u.acc = some r := hrun
    rw [Flil20, hk]
    simp only [h1, Option.map_some, delivered]
  · obtain ⟨hd, -⟩ := hu.zero hk
    have hv : u.val = 0 := by
      rw [Op.val, Op.mag, hd, Nat.cast_zero, zero_mul]
      cases u.neg <;> simp
    have hz : toInteger e.mode (0 : ℚ) = 0 := by
      rw [toInteger, if_neg (lt_irrefl _), abs_zero]
      exact_mod_cast roundInt_intCast (K := ℚ) e.mode false 0
    have hlim : 0 < e.limit := by
      rw [Env.limit]
      split_ifs <;> decide
    refine ⟨(delivered e Quad.zero, u.rh5), ?_, ?_⟩
    · rw [Flil20, hk]
      rfl
    · rw [hv, hz]
      have hfit : FitsInt e (0 : ℤ) := ⟨by omega, by omega⟩
      refine iff_of_true ⟨?_, fun _ => ?_, fun _ => ?_⟩ (by omega)
      · rw [hz, hfits]
        exact iff_of_false Bool.false_ne_true (fun h => h hfit)
      · rw [hz, delivered_pos (by rw [Quad.toNat_zero]; exact hlim), Quad.toNat_zero]
        rfl
      · rw [hz, hclean]
        simp

/-- A 32-bit destination, rounding to nearest. -/
def toLong : Env := ⟨0, 0, 0⟩

theorem Flil20_spec_one :
    ∃ r, Flil20 toLong ⟨one.toOp, .num, 0⟩ = some r ∧
      (Converts toLong (Op.val one.toOp) r ↔
        toInteger toLong.mode (Op.val one.toOp) ≠ toLong.limit) :=
  Flil20_spec toLong ⟨one.toOp, .num, 0⟩
    ⟨fun _ => ⟨one.normal, one.range⟩, fun h => absurd h (by decide), fun h => absurd h (by decide)⟩
    (Or.inl rfl) rfl rfl

/-- Two to the thirty-first. -/
def twoPow31 : Number := ⟨⟨0, 0, 0x401E, ⟨0x8000, 0, 0, 0⟩⟩, by decide, by decide⟩

theorem twoPow31_val : twoPow31.val = (2147483648 : ℤ) := by
  have hd : twoPow31.digits = 2 ^ 63 := by decide
  have he : twoPow31.expo = 0x401E := by decide
  have hn : twoPow31.neg = false := by decide
  rw [Op.val, Op.mag, hd, he, hn, bias]
  norm_num

/-- Two to the thirty-first is above the range of 32 bits.  It is stored as the most negative integer,
and no integer overflow is flagged. -/
theorem two_pow_31_not_flagged :
    ¬ ∀ (e : Env) (u : Unpacked), u.WellFormed → (u.kind = .num ∨ u.kind = .zero) →
      u.rh5.getLsbD 4 = false → u.rh5.getLsbD 7 = false →
      ∃ r, Flil20 e u = some r ∧ Converts e u.val r := by
  intro h
  obtain ⟨r, hr, hC⟩ := h toLong ⟨twoPow31.toOp, .num, 0⟩
    ⟨fun _ => ⟨twoPow31.normal, twoPow31.range⟩, fun h => absurd h (by decide),
      fun h => absurd h (by decide)⟩ (Or.inl rfl) rfl rfl
  have hrun : Flil20 toLong ⟨twoPow31.toOp, .num, 0⟩ = some (.long 0x80000000, 0) := by
    decide +kernel
  rw [hrun] at hr
  obtain rfl := Option.some.inj hr
  have hz : toInteger toLong.mode (Op.val twoPow31.toOp) = 2147483648 := by
    rw [twoPow31_val, toInteger, if_neg (by norm_num), abs_of_pos (by norm_num), roundInt_intCast]
  have hflag := hC.overflow.mpr (fun hfit => by
    have h2 := hfit.2
    rw [hz] at h2
    exact absurd h2 (by decide))
  exact absurd hflag (by decide)

end Cpm8000.Fpe
