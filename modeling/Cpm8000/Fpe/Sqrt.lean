/-
# Square root

`sqrno` takes the root of a number digit by digit.  The radicand is the significand, moved one or
two places so that the exponent can be halved; its high part S is where the trial subtraction
takes place, its low part T is shifted in from the right, two bits at a time, and Q collects the
root.  The loop is cut into three phases that hold S, T and Q in different registers, the last
one with the complement of Q.

* `Rooting`: the invariant of a phase, in terms of the true root and remainder (`RootRem`).
* `Fsqr21_rooting`, `Fsqr25_rooting`, `Fsqr200_rooting`: one lemma for the step of each phase.
* `sqrno_roundsRoot`: the result is the exact real root rounded once.
-/
import Mathlib.Analysis.Real.Sqrt
import Mathlib.Algebra.Order.Archimedean.Real.Basic
import Cpm8000.Arith.Root
import Cpm8000.Fpe.Div
import Cpm8000.Fpe.Pack

namespace Cpm8000.Fpe

open Arith

/-! ## 1. The code -/

/-- Double a long word, the carry entering at the bottom. -/
def adcl (x : BitVec 32) (c : Bool) : Flagged (BitVec 32) :=
  let d1 := adc (low x) (low x) c
  let d0 := adc (hiw x) (hiw x) d1.c
  ⟨long d0.val d1.val, d0.c⟩

/-- The registers of the first phase: S in rr4, T in rr6 and rr8, Q with a `01` below it in r10
and r11. -/
structure Root1 where
  rr4 : BitVec 32
  t : Quad
  r10 : BitVec 16
  r11 : BitVec 16

/-- S|T doubled. -/
def Root1.shift (s : Root1) : Root1 :=
  let t := addlq s.t s.t
  { s with t := t.val, rr4 := (adcl s.rr4 t.c).val }

/-- One root bit of the first phase. -/
def Fsqr21 (s : Root1) : Root1 :=
  let s := s.shift.shift
  let d := (sub s.rr4 (long s.r10 s.r11)).val
  let s := if d.msb then s else { s with rr4 := d, r11 := set s.r11 1 }
  let rr10 := (add (long s.r10 s.r11) (long s.r10 s.r11)).val
  { s with r10 := hiw rr10, r11 := (sub (low rr10) 1).val }

/-- The registers of the second phase: S in r13 and rr4, the rest of T in rr6, Q with its `01` in
r9, r10 and r11. -/
structure Root2 where
  r13 : BitVec 16
  rr4 : BitVec 32
  rr6 : BitVec 32
  r9 : BitVec 16
  r10 : BitVec 16
  r11 : BitVec 16

/-- S|T doubled. -/
def Root2.shift (s : Root2) : Root2 :=
  let t := add s.rr6 s.rr6
  let d := adcl s.rr4 t.c
  { s with rr6 := t.val, rr4 := d.val, r13 := (adc s.r13 s.r13 d.c).val }

/-- One root bit of the second phase: it is taken for one, and put right when the difference is
negative. -/
def Fsqr25 (s : Root2) : Root2 :=
  let s := s.shift.shift
  let d := sub s.rr4 (long s.r10 s.r11)
  let d13 := (sbc s.r13 s.r9 d.c).val
  let rr10 := add (long s.r10 s.r11) (long s.r10 s.r11)
  let r9 := (adc s.r9 s.r9 rr10.c).val
  let r11 := (add (low rr10.val) 3).val
  if d13.msb then { s with r9 := r9, r10 := hiw rr10.val, r11 := res r11 2 }
  else { s with r13 := d13, rr4 := d.val, r9 := r9, r10 := hiw rr10.val, r11 := r11 }

/-- The registers of the third phase, T being exhausted: S in rq4, the complement of Q in rq8; `c`
is the carry flag at the end of a step. -/
structure Root3 where
  rq4 : Quad
  rq8 : Quad
  c : Bool

/-- One root bit of the third phase: the carry of `S - Q - 1` is the bit, and it is shifted into S
twice, its complement into the complement of Q. -/
def Fsqr200 (s : Root3) : Root3 :=
  let d := adcq s.rq4 s.rq8 false
  let c := d.c
  let rq4 := if c then d.val else s.rq4
  let rq8 := (adcq s.rq8 s.rq8 (!c)).val
  let once := (adcq rq4 rq4 c).val
  let twice := adcq once once c
  ⟨twice.val, rq8, twice.c⟩

/-- The complement of a quad. -/
def comq (q : Quad) : Quad := ⟨~~~q.w0, ~~~q.w1, ~~~q.w2, ~~~q.w3⟩

/-- Halve the trailing three words, a one entering at the top. -/
def rrc3 (q : Quad) : Quad :=
  let d1 := rrc q.w1 true
  let d2 := rrc q.w2 d1.c
  let d3 := rrc q.w3 d2.c
  ⟨q.w0, d1.val, d2.val, d3.val⟩

/-- The radicand, its point between r6 and r7: `odd` is the last bit of the biased exponent. -/
def radicand (rq8 : Quad) (odd : Bool) : BitVec 16 × Quad :=
  let double := fun a : BitVec 16 × Quad =>
    let d := addlq a.2 a.2
    ((adc a.1 a.1 d.c).val, d.val)
  if odd then double (0, rq8) else double (double (0, rq8))

/-- The first root bit is one. -/
def gstep2a_1 (a : BitVec 16 × Quad) : Root1 := ⟨long 0 (sub a.1 1).val, a.2, 0, 5⟩

/-- From the first phase to the second: r9 is the end of T, which is exhausted. -/
def gstep2_2 (s : Root1) : Root2 := ⟨0, s.rr4, s.t.hi, s.t.w3, s.r10, s.r11⟩

/-- From the second to the third: r8 is clear as r9 was. -/
def gstep2b (r8 : BitVec 16) (s : Root2) : Root3 :=
  ⟨⟨0, s.r13, hiw s.rr4, low s.rr4⟩, rrc3 (rrc3 (comq ⟨r8, s.r9, s.r10, s.r11⟩)), false⟩

/-- The carry flag in bit 7 of a byte, the other flags masked out. -/
def carryBit (c : Bool) : BitVec 8 := if c then 0x80 else 0

/-- The root and its rounding byte: after a carry both rounding bits are one, else a last step
gives the guard bit. -/
def gstep3 (s : Root3) : Quad × BitVec 8 :=
  let d := adcq s.rq4 s.rq8 false
  let rl0 := if s.c then set (carryBit true) 0 else carryBit d.c
  let rq4 := if s.c then s.rq4 else if d.c then d.val else s.rq4
  (comq s.rq8, tcc (decide (rq4.w0 ||| rq4.w1 ||| rq4.w2 ||| rq4.w3 ≠ 0)) rl0)

/-- The root digits of a significand. -/
def rootDigits (rq8 : Quad) (odd : Bool) : Quad × BitVec 8 :=
  let s1 := Fsqr21^[16] (gstep2a_1 (radicand rq8 odd))
  let s2 := Fsqr25^[16] (gstep2_2 s1)
  gstep3 (Fsqr200^[31] (gstep2b s1.t.w2 s2))

/-- The halved exponent, and the last bit of the old one. -/
def halveExp (rl6 : BitVec 8) (r7 : BitVec 16) : Flagged (BitVec 8 × BitVec 16) :=
  let h6 := rrc rl6 false
  let h7 := rrc r7 h6.c
  let up := add h7.val 1
  let e : BitVec 8 × BitVec 16 := if h7.c then ((adc h6.val 0 up.c).val, up.val) else (h6.val, h7.val)
  let b7 := add e.2 0x1FFF
  ⟨((adc e.1 0 b7.c).val, b7.val), h7.c⟩

/-- The operand handed to rounding. -/
def sqrPre (s : Acc) : Acc :=
  let e := halveExp s.rl6 s.r7
  let q := rootDigits s.rq8 e.c
  { s with rl6 := e.val.1, r7 := e.val.2, rq8 := q.1, rl5 := q.2 }

/-- The square root of a number. -/
def sqrno (e : Env) (s : Acc) : Acc :=
  if s.rh6.getLsbD 7 then resinv s
  else if !s.rq8.w0.getLsbD 15 then resinv s
  else round e (sqrPre s)

/-! ## 2. Doubling and trial subtraction -/

theorem adcl_spec (x : BitVec 32) (c : Bool) :
    (adcl x c).val.toNat + 2 ^ 32 * (adcl x c).c.toNat = 2 * x.toNat + c.toNat := by
  have h1 := adc_spec (low x) (low x) c
  have h0 := adc_spec (hiw x) (hiw x) (adc (low x) (low x) c).c
  simp only [adcl, toNat_long]
  simp only [toNat_low, toNat_hiw] at h0 h1
  omega

/-- The invariant of a phase: `R` is the radicand so far with the digits still to come below it,
`k` bits of them in T; S is the remainder of its high part and Q the root, a `01` below it. -/
structure Rooting (k R S T Q4 Q : ℕ) : Prop where
  rem : RootRem (R / 2 ^ k) Q S
  t : T = R % 2 ^ k
  q : Q4 = 4 * Q + 1

/-- The two digits that a step takes from T. -/
theorem quad_split {k R : ℕ} : ∃ t < 4, 4 * R / 2 ^ k = 4 * (R / 2 ^ k) + t ∧
    4 * (R % 2 ^ k) = t * 2 ^ k + 4 * R % 2 ^ k := by
  have hpos := Nat.two_pow_pos k
  have hR := Nat.div_add_mod R (2 ^ k)
  have hlt := Nat.mod_lt R hpos
  have h4 : 4 * R = 4 * (R % 2 ^ k) + 2 ^ k * (4 * (R / 2 ^ k)) := by
    calc 4 * R = 4 * (2 ^ k * (R / 2 ^ k) + R % 2 ^ k) := by rw [hR]
      _ = 4 * (R % 2 ^ k) + 2 ^ k * (4 * (R / 2 ^ k)) := by ring
  refine ⟨4 * (R % 2 ^ k) / 2 ^ k, (Nat.div_lt_iff_lt_mul hpos).mpr (by omega), ?_, ?_⟩
  · rw [h4, Nat.add_mul_div_left _ _ hpos, Nat.add_comm]
  · rw [h4, Nat.add_mul_mod_self_left, Nat.mul_comm _ (2 ^ k), Nat.div_add_mod]

/-- **One step of a phase.**  S|T has been multiplied by four; the difference is taken when it is
not negative, and the root bit says so. -/
theorem Rooting.step {k R S T Q4 Q S' T' S'' Q4' : ℕ} {b : Bool} (h : Rooting k R S T Q4 Q)
    (hshift : S' * 2 ^ k + T' = 4 * (S * 2 ^ k + T)) (hT : T' < 2 ^ k)
    (hb : b = true ∧ Q4 ≤ S' ∧ S'' = S' - Q4 ∨ b = false ∧ S' < Q4 ∧ S'' = S')
    (hq : Q4' + 1 = 2 * Q4 + 4 * b.toNat) :
    ∃ Q', Rooting k (4 * R) S'' T' Q4' Q' := by
  obtain ⟨hrem, hT0, hQ4⟩ := h
  obtain ⟨t, ht, hdiv, hmod⟩ := quad_split (k := k) (R := R)
  have hpos := Nat.two_pow_pos k
  have hsplit : S' * 2 ^ k + T' = (4 * S + t) * 2 ^ k + 4 * R % 2 ^ k := by
    rw [hshift, hT0, Nat.mul_add, hmod]
    ring
  have hS' : S' = 4 * S + t := by
    have h1 := congrArg (· / 2 ^ k) hsplit
    rwa [Nat.add_comm (S' * 2 ^ k), Nat.add_comm (_ * 2 ^ k), Nat.add_mul_div_right _ _ hpos,
      Nat.add_mul_div_right _ _ hpos, Nat.div_eq_of_lt hT,
      Nat.div_eq_of_lt (Nat.mod_lt _ hpos), Nat.zero_add, Nat.zero_add] at h1
  have hT' : T' = 4 * R % 2 ^ k := by
    rw [hS'] at hsplit
    exact Nat.add_left_cancel hsplit
  rw [hQ4] at hb hq
  rcases hb with ⟨rfl, hle, rfl⟩ | ⟨rfl, hlt, rfl⟩
  · refine ⟨2 * Q + 1, ?_, hT', by rw [Bool.toNat_true] at hq; omega⟩
    rw [hdiv, hS']
    exact hrem.one ht (hS' ▸ hle)
  · refine ⟨2 * Q, ?_, hT', by rw [Bool.toNat_false] at hq; omega⟩
    rw [hdiv, hS']
    exact hrem.zero (hS' ▸ hlt)

/-- Root and remainder are small when the radicand is. -/
theorem Rooting.bounds {k R S T Q4 Q n : ℕ} (h : Rooting k R S T Q4 Q)
    (hR : R < 2 ^ (2 * n + k)) : Q < 2 ^ n ∧ S < 2 ^ (n + 1) ∧ T < 2 ^ k := by
  have hQ : Q < 2 ^ n := by
    refine h.rem.lt_two_pow ?_
    rw [Nat.div_lt_iff_lt_mul (Nat.two_pow_pos k), ← Nat.pow_add]
    exact hR
  have hS := h.rem.le
  refine ⟨hQ, ?_, h.t ▸ Nat.mod_lt _ (Nat.two_pow_pos k)⟩
  rw [Nat.pow_succ]
  omega

/-! ## 3. The first phase -/

/-- The invariant in the registers of the first phase. -/
def Root1.Inv (s : Root1) (R Q : ℕ) : Prop :=
  Rooting 64 R s.rr4.toNat s.t.toNat (long s.r10 s.r11).toNat Q

theorem Root1.shift_r10 (s : Root1) : s.shift.r10 = s.r10 := by rw [Root1.shift]

theorem Root1.shift_r11 (s : Root1) : s.shift.r11 = s.r11 := by rw [Root1.shift]

theorem Root1.shift_spec (s : Root1) (h : s.rr4.toNat < 2 ^ 31) :
    s.shift.rr4.toNat * 2 ^ 64 + s.shift.t.toNat = 2 * (s.rr4.toNat * 2 ^ 64 + s.t.toNat) := by
  have ht := addlq_spec s.t s.t
  have h4 := adcl_spec s.rr4 (addlq s.t s.t).c
  have hc := Bool.toNat_le (addlq s.t s.t).c
  have hlt := (adcl s.rr4 (addlq s.t s.t).c).val.isLt
  simp only [Root1.shift]
  omega

/-- S|T times four. -/
theorem Root1.shift_shift (s : Root1) (h : s.rr4.toNat < 2 ^ 29) :
    s.shift.shift.rr4.toNat * 2 ^ 64 + s.shift.shift.t.toNat =
        4 * (s.rr4.toNat * 2 ^ 64 + s.t.toNat) ∧ s.shift.shift.rr4.toNat < 2 ^ 31 := by
  have h1 := s.shift_spec (by omega)
  have ht := s.t.toNat_lt
  have ht' := s.shift.t.toNat_lt
  have h2 := s.shift.shift_spec (by omega)
  omega

/-- Q shifted, a one subtracted from its `01`. -/
theorem root1_digit {r10 r11 : BitVec 16} {q v : ℕ} (hq : (long r10 r11).toNat = q) (hv : 2 * q < 2 ^ 32)
    (hlow : 2 * q % 2 ^ 16 ≠ 0) (hv' : v + 1 = 2 * q) :
    let rr10 := (add (long r10 r11) (long r10 r11)).val
    (long (hiw rr10) (sub (low rr10) 1).val).toNat = v := by
  intro rr10
  have hadd := add_spec (long r10 r11) (long r10 r11)
  have hlt := (add (long r10 r11) (long r10 r11)).val.isLt
  have hc := Bool.toNat_le (add (long r10 r11) (long r10 r11)).c
  have hrr : rr10.toNat = 2 * q := by
    have : rr10 = (add (long r10 r11) (long r10 r11)).val := rfl
    rw [this]
    omega
  have hsub := sub_spec (low rr10) 1
  have h1 : (1 : BitVec 16).toNat = 1 := rfl
  have hsc := Bool.toNat_le (sub (low rr10) 1).c
  have hslt := (sub (low rr10) 1).val.isLt
  rw [toNat_long, toNat_hiw]
  rw [toNat_low] at hsub
  omega

theorem Fsqr21_rooting {s : Root1} {R Q : ℕ} (h : s.Inv R Q) (hR : R < 2 ^ (2 * 27 + 64)) :
    ∃ Q', (Fsqr21 s).Inv (4 * R) Q' := by
  obtain ⟨hQ, hS, hT⟩ := Rooting.bounds h hR
  obtain ⟨hshift, hS'⟩ := s.shift_shift (by omega)
  have hq := h.q
  have e10 : s.shift.shift.r10 = s.r10 := by rw [Root1.shift_r10, Root1.shift_r10]
  have e11 : s.shift.shift.r11 = s.r11 := by rw [Root1.shift_r11, Root1.shift_r11]
  have hT' := s.shift.shift.t.toNat_lt
  rw [Fsqr21]
  simp only [e10, e11]
  generalize s.shift.shift = u at hshift hS' hT' e10 e11 ⊢
  have h11 : s.r11.toNat % 4 = 1 := by
    rw [toNat_long] at hq
    omega
  rcases sub_msb (x := u.rr4) (y := long s.r10 s.r11) (by norm_num) (by omega) (by omega) with
    ⟨hm, hlt⟩ | ⟨hm, hle, hd⟩
  · rw [hm, if_pos rfl, e10, e11]
    refine Rooting.step h hshift hT' (Or.inr ⟨rfl, hlt, rfl⟩) ?_
    have hdig := root1_digit (v := 2 * (4 * Q + 1) - 1) hq (by omega) (by omega) (by omega)
    simp only at hdig ⊢
    rw [hdig, hq, Bool.toNat_false]
    omega
  · have hset := toNat_set_clear s.r11 (i := 1) (by norm_num) (by omega)
    have hq' : (long s.r10 (set s.r11 1)).toNat = 4 * Q + 3 := by
      rw [toNat_long] at hq ⊢
      rw [hset, ← Nat.add_assoc, hq, Nat.pow_one]
    rw [hm, if_neg Bool.false_ne_true]
    simp only
    refine Rooting.step h hshift hT' (Or.inl ⟨rfl, hle, hd⟩) ?_
    have hdig := root1_digit (v := 2 * (4 * Q + 3) - 1) hq' (by omega) (by omega) (by omega)
    simp only at hdig ⊢
    rw [hdig, hq, Bool.toNat_true]
    omega

/-! ## 4. The second phase -/

/-- S, 48 bits of it. -/
def Root2.S (s : Root2) : ℕ := s.r13.toNat * 2 ^ 32 + s.rr4.toNat

/-- The invariant in the registers of the second phase. -/
def Root2.Inv (s : Root2) (R Q : ℕ) : Prop :=
  Rooting 32 R s.S s.rr6.toNat (s.r9.toNat * 2 ^ 32 + (long s.r10 s.r11).toNat) Q

theorem Root2.shift_r9 (s : Root2) : s.shift.r9 = s.r9 := by rw [Root2.shift]

theorem Root2.shift_r10 (s : Root2) : s.shift.r10 = s.r10 := by rw [Root2.shift]

theorem Root2.shift_r11 (s : Root2) : s.shift.r11 = s.r11 := by rw [Root2.shift]

theorem Root2.shift_spec (s : Root2) (h : s.S < 2 ^ 47) :
    s.shift.S * 2 ^ 32 + s.shift.rr6.toNat = 2 * (s.S * 2 ^ 32 + s.rr6.toNat) := by
  have h6 := add_spec s.rr6 s.rr6
  have h4 := adcl_spec s.rr4 (add s.rr6 s.rr6).c
  have h13 := adc_spec s.r13 s.r13 (adcl s.rr4 (add s.rr6 s.rr6).c).c
  have hc := Bool.toNat_le (adc s.r13 s.r13 (adcl s.rr4 (add s.rr6 s.rr6).c).c).c
  have hlt := (adc s.r13 s.r13 (adcl s.rr4 (add s.rr6 s.rr6).c).c).val.isLt
  simp only [Root2.S] at h
  simp only [Root2.shift, Root2.S]
  omega

/-- S|T times four. -/
theorem Root2.shift_shift (s : Root2) (h : s.S < 2 ^ 45) :
    s.shift.shift.S * 2 ^ 32 + s.shift.shift.rr6.toNat =
        4 * (s.S * 2 ^ 32 + s.rr6.toNat) ∧ s.shift.shift.S < 2 ^ 47 := by
  have h1 := s.shift_spec (by omega)
  have ht := s.rr6.isLt
  have ht' := s.shift.rr6.isLt
  have h2 := s.shift.shift_spec (by omega)
  omega

/-- Two borrows of a subtraction in two parts. -/
theorem sub48_chain {v13 v4 r13 r9 x4 y4 S q b4 : ℕ} (hS : r13 * 2 ^ 32 + x4 = S)
    (hq : r9 * 2 ^ 32 + y4 = q) (h4 : v4 + y4 = x4 + 2 ^ 32 * b4) (h13 : v13 + r9 + b4 = r13) :
    v13 * 2 ^ 32 + v4 + q = S := by
  rw [← hS, ← hq, ← h13]
  linarith

/-- The sign of a difference of 48 bits. -/
theorem sub48_msb (r13 r9 : BitVec 16) (rr4 rr10 : BitVec 32) {S q : ℕ}
    (hS : r13.toNat * 2 ^ 32 + rr4.toNat = S) (hq : r9.toNat * 2 ^ 32 + rr10.toNat = q)
    (hS' : S < 2 ^ 47) (hq' : q < 2 ^ 47) :
    ((sbc r13 r9 (sub rr4 rr10).c).val.msb = true ∧ S < q) ∨
      ((sbc r13 r9 (sub rr4 rr10).c).val.msb = false ∧ q ≤ S ∧
        (sbc r13 r9 (sub rr4 rr10).c).val.toNat * 2 ^ 32 + (sub rr4 rr10).val.toNat = S - q) := by
  have h4 := sub_spec rr4 rr10
  have h13 := sbc_spec r13 r9 (sub rr4 rr10).c
  have hv4 := (sub rr4 rr10).val.isLt
  have hv13 := (sbc r13 r9 (sub rr4 rr10).c).val.isLt
  have hmsb := BitVec.msb_eq_decide (sbc r13 r9 (sub rr4 rr10).c).val
  rw [hmsb]
  cases hb : (sbc r13 r9 (sub rr4 rr10).c).c <;> rw [hb] at h13 <;>
    simp only [Bool.toNat_true, Bool.toNat_false] at h13
  · have hchain := sub48_chain hS hq h4 h13
    exact Or.inr ⟨decide_eq_false (by omega), hchain ▸ Nat.le_add_left _ _,
      Nat.eq_sub_of_add_eq hchain⟩
  · exact Or.inl ⟨decide_eq_true (by omega), by omega⟩

/-- Q shifted and three added: its last bit is taken for one. -/
theorem root2_digit {r9 r10 r11 : BitVec 16} {Q : ℕ}
    (hq : r9.toNat * 2 ^ 32 + (long r10 r11).toNat = 4 * Q + 1) (hQ : Q < 2 ^ 44) :
    let rr10 := add (long r10 r11) (long r10 r11)
    (adc r9 r9 rr10.c).val.toNat * 2 ^ 32 +
        (long (hiw rr10.val) (add (low rr10.val) 3).val).toNat = 8 * Q + 5 ∧
      (add (low rr10.val) 3).val.toNat % 8 = 5 := by
  intro rr10
  have hadd := add_spec (long r10 r11) (long r10 r11)
  have h9 := adc_spec r9 r9 (add (long r10 r11) (long r10 r11)).c
  have hlt := (adc r9 r9 (add (long r10 r11) (long r10 r11)).c).val.isLt
  have hc := Bool.toNat_le (adc r9 r9 (add (long r10 r11) (long r10 r11)).c).c
  have hrr : rr10 = add (long r10 r11) (long r10 r11) := rfl
  rw [← hrr] at hadd h9 hlt hc
  have hsum := add_spec (low rr10.val) 3
  have h3 : (3 : BitVec 16).toNat = 3 := rfl
  have hsc := Bool.toNat_le (add (low rr10.val) 3).c
  have hslt := (add (low rr10.val) 3).val.isLt
  have hval := rr10.val.isLt
  clear_value rr10
  rw [toNat_long, toNat_hiw]
  rw [toNat_low] at hsum
  generalize (adc r9 r9 rr10.c).val.toNat = v9 at *
  generalize (adc r9 r9 rr10.c).c.toNat = c9 at *
  generalize (add (low rr10.val) 3).val.toNat = v11 at *
  generalize (add (low rr10.val) 3).c.toNat = c11 at *
  generalize (long r10 r11).toNat = l at *
  generalize rr10.val.toNat = v at *
  omega

theorem Fsqr25_rooting {s : Root2} {R Q : ℕ} (h : s.Inv R Q) (hR : R < 2 ^ (2 * 43 + 32)) :
    ∃ Q', (Fsqr25 s).Inv (4 * R) Q' := by
  obtain ⟨hQ, hS, hT⟩ := Rooting.bounds h hR
  obtain ⟨hshift, hS'⟩ := s.shift_shift (by omega)
  have hq := h.q
  have e9 : s.shift.shift.r9 = s.r9 := by rw [Root2.shift_r9, Root2.shift_r9]
  have e10 : s.shift.shift.r10 = s.r10 := by rw [Root2.shift_r10, Root2.shift_r10]
  have e11 : s.shift.shift.r11 = s.r11 := by rw [Root2.shift_r11, Root2.shift_r11]
  have hT' := s.shift.shift.rr6.isLt
  obtain ⟨hdig, hlow⟩ := root2_digit hq (by omega)
  rw [Fsqr25]
  simp only [e9, e10, e11]
  generalize s.shift.shift = u at hshift hS' hT' e9 e10 e11 ⊢
  rcases sub48_msb u.r13 s.r9 u.rr4 (long s.r10 s.r11) rfl hq hS' (by omega) with
    ⟨hm, hlt⟩ | ⟨hm, hle, hd⟩
  · have hres := toNat_res_set (add (low (add (long s.r10 s.r11) (long s.r10 s.r11)).val) 3).val
      (i := 2) (by norm_num) (by omega)
    rw [hm, if_pos rfl]
    refine Rooting.step h hshift hT' (Or.inr ⟨rfl, hq ▸ hlt, rfl⟩) ?_
    simp only at hdig ⊢
    rw [toNat_long] at hdig ⊢
    rw [hq, Bool.toNat_false]
    linarith
  · rw [hm, if_neg Bool.false_ne_true]
    refine Rooting.step h hshift hT' (Or.inl ⟨rfl, hq ▸ hle, hq ▸ hd⟩) ?_
    simp only at hdig ⊢
    rw [hdig, hq, Bool.toNat_true]
    ring

/-! ## 5. The third phase -/

/-- S, with the bit carried out of it. -/
def Root3.S (s : Root3) : ℕ := s.rq4.toNat + 2 ^ 64 * s.c.toNat

theorem Root3.S_mk (rq4 rq8 : Quad) (c : Bool) :
    (⟨rq4, rq8, c⟩ : Root3).S = rq4.toNat + 2 ^ 64 * c.toNat := rfl

/-- The invariant in the registers of the third phase: all digits of the radicand are taken. -/
structure Root3.Inv (s : Root3) (N Q : ℕ) : Prop where
  rem : RootRem N Q s.S
  com : s.rq8.toNat + Q + 1 = 2 ^ 64

/-- Adding the complement of Q carries when S exceeds Q. -/
theorem com_carry {x y : Quad} {Q : ℕ} (h : y.toNat + Q + 1 = 2 ^ 64) :
    ((adcq x y false).c = true ∧ Q < x.toNat ∧ (adcq x y false).val.toNat + Q + 1 = x.toNat) ∨
      ((adcq x y false).c = false ∧ x.toNat ≤ Q) := by
  have hadd := adcq_spec x y false
  have hlt := (adcq x y false).val.toNat_lt
  rw [Bool.toNat_false] at hadd
  cases hc : (adcq x y false).c <;> rw [hc] at hadd <;>
    simp only [Bool.toNat_true, Bool.toNat_false] at hadd
  · exact Or.inr ⟨rfl, by omega⟩
  · exact Or.inl ⟨rfl, by omega, by omega⟩

/-- The carry shifted in twice. -/
theorem shift_twice {x : Quad} (c : Bool) (h : x.toNat < 2 ^ 63) :
    (adcq (adcq x x c).val (adcq x x c).val c).val.toNat +
        2 ^ 64 * (adcq (adcq x x c).val (adcq x x c).val c).c.toNat =
      4 * x.toNat + 3 * c.toNat := by
  have h1 := adcq_spec x x c
  have h2 := adcq_spec (adcq x x c).val (adcq x x c).val c
  have hc := Bool.toNat_le (adcq x x c).c
  have hc' := Bool.toNat_le c
  generalize (adcq x x c).c.toNat = d at *
  generalize (adcq x x c).val = once at *
  generalize c.toNat = e at *
  omega

theorem Fsqr200_inv {s : Root3} {N Q : ℕ} (h : s.Inv N Q) (hN : N < 2 ^ (2 * 63)) :
    ∃ Q', (Fsqr200 s).Inv (4 * N) Q' := by
  obtain ⟨hrem, hcom⟩ := h
  have hQ := hrem.lt_two_pow hN
  have hS := hrem.le
  have hx : s.S = s.rq4.toNat := by
    have := s.rq4.toNat_lt
    have hb := Bool.toNat_le s.c
    simp only [Root3.S] at hS ⊢
    omega
  rw [hx] at hrem hS
  rcases com_carry (x := s.rq4) hcom with ⟨hc, hgt, hd⟩ | ⟨hc, hle⟩
  · have htw := shift_twice (x := (adcq s.rq4 s.rq8 false).val) true (by omega)
    have hshift := adcq_spec s.rq8 s.rq8 false
    have hlt := (adcq s.rq8 s.rq8 false).val.toNat_lt
    have hcle := Bool.toNat_le (adcq s.rq8 s.rq8 false).c
    rw [Bool.toNat_false] at hshift
    rw [Bool.toNat_true] at htw
    have hone := hrem.one (t := 0) (by norm_num) (by omega)
    have hval : 4 * s.rq4.toNat + 0 - (4 * Q + 1) =
        4 * (adcq s.rq4 s.rq8 false).val.toNat + 3 * 1 := by omega
    rw [hval, ← htw, Nat.add_zero] at hone
    simp only [Fsqr200, hc, if_true, Bool.not_true]
    refine ⟨2 * Q + 1, ?_, by simp only; omega⟩
    rw [Root3.S_mk]
    exact hone
  · have htw := shift_twice (x := s.rq4) false (by omega)
    have hshift := adcq_spec s.rq8 s.rq8 true
    have hlt := (adcq s.rq8 s.rq8 true).val.toNat_lt
    have hcle := Bool.toNat_le (adcq s.rq8 s.rq8 true).c
    rw [Bool.toNat_true] at hshift
    rw [Bool.toNat_false, Nat.mul_zero, Nat.add_zero] at htw
    have hzero := hrem.zero (t := 0) (by omega)
    rw [Nat.add_zero, Nat.add_zero, ← htw] at hzero
    simp only [Fsqr200, hc, if_false, Bool.false_eq_true, Bool.not_false]
    refine ⟨2 * Q, ?_, by simp only; omega⟩
    rw [Root3.S_mk]
    exact hzero

/-- A run of a phase. -/
theorem rooting_iterate {α : Type} (step : α → α) (Inv : α → ℕ → ℕ → Prop) {B : ℕ}
    (hstep : ∀ {s R Q}, Inv s R Q → R < B → ∃ Q', Inv (step s) (4 * R) Q') {s : α} {R Q : ℕ}
    (h : Inv s R Q) {n : ℕ} (hB : 4 ^ n * R < 4 * B) : ∃ Q', Inv (step^[n] s) (4 ^ n * R) Q' := by
  induction n with
  | zero => exact ⟨Q, by rwa [Nat.pow_zero, Nat.one_mul]⟩
  | succ n ih =>
    have hR : 4 ^ (n + 1) * R = 4 * (4 ^ n * R) := by ring
    rw [hR] at hB
    have hlt : 4 ^ n * R < B := Nat.lt_of_mul_lt_mul_left hB
    obtain ⟨Q', hQ'⟩ := ih (lt_of_lt_of_le hlt (Nat.le_mul_of_pos_left B (by norm_num)))
    rw [Function.iterate_succ_apply', hR]
    exact hstep hQ' hlt

/-! ## 6. From phase to phase -/

/-- The radicand: the significand moved one place when the biased exponent is odd, else two. -/
def radicandOf (D : ℕ) (odd : Bool) : ℕ := if odd then 2 * D else 4 * D

theorem radicand_spec (rq8 : Quad) (odd : Bool) :
    (radicand rq8 odd).1.toNat * 2 ^ 64 + (radicand rq8 odd).2.toNat =
      radicandOf rq8.toNat odd := by
  have h1 := addlq_spec rq8 rq8
  have hc1 := Bool.toNat_le (addlq rq8 rq8).c
  have hw1 := adc_spec (0 : BitVec 16) 0 (addlq rq8 rq8).c
  have h2 := addlq_spec (addlq rq8 rq8).val (addlq rq8 rq8).val
  have hc2 := Bool.toNat_le (addlq (addlq rq8 rq8).val (addlq rq8 rq8).val).c
  have hw2 := adc_spec (adc (0 : BitVec 16) 0 (addlq rq8 rq8).c).val
    (adc (0 : BitVec 16) 0 (addlq rq8 rq8).c).val
    (addlq (addlq rq8 rq8).val (addlq rq8 rq8).val).c
  have h0 : (0 : BitVec 16).toNat = 0 := rfl
  rw [h0] at hw1
  rw [radicand, radicandOf]
  cases odd <;> simp only [if_true, if_false, Bool.false_eq_true] <;> omega

/-- The invariant before the first step. -/
theorem gstep2a_1_inv {rq8 : Quad} (hD : 2 ^ 63 ≤ rq8.toNat) (odd : Bool) :
    (gstep2a_1 (radicand rq8 odd)).Inv (radicandOf rq8.toNat odd) 1 := by
  have hM := radicand_spec rq8 odd
  have hlt := rq8.toNat_lt
  have ht := (radicand rq8 odd).2.toNat_lt
  have hbounds : 2 ^ 64 ≤ radicandOf rq8.toNat odd ∧ radicandOf rq8.toNat odd < 2 ^ 66 := by
    rw [radicandOf]
    split_ifs <;> omega
  have hsub := sub_spec (radicand rq8 odd).1 1
  have h1 : (1 : BitVec 16).toNat = 1 := rfl
  have h0 : (0 : BitVec 16).toNat = 0 := rfl
  have hsc := Bool.toNat_le (sub (radicand rq8 odd).1 1).c
  have hslt := (sub (radicand rq8 odd).1 1).val.isLt
  generalize radicandOf rq8.toNat odd = M at *
  have h5 : (long 0 5).toNat = 5 := by decide
  refine ⟨⟨?_, ?_⟩, ?_, h5⟩
  · rw [gstep2a_1, toNat_long, h0]
    omega
  · rw [gstep2a_1, toNat_long, h0]
    omega
  · simp only [gstep2a_1]
    omega

/-- The digits taken in the first phase leave the last 32 for the second. -/
theorem gstep2_2_inv {s : Root1} {M Q : ℕ} (h : s.Inv (4 ^ 16 * M) Q) :
    (gstep2_2 s).Inv M Q ∧ s.t.w2 = 0 := by
  obtain ⟨hrem, hT, hq⟩ := h
  have hsplit := Quad.toNat_eq s.t
  have hlo := s.t.lo.isLt
  have hlong : s.t.lo.toNat = s.t.w2.toNat * 65536 + s.t.w3.toNat := toNat_long _ _
  have hw3 := s.t.w3.isLt
  have h0 : (0 : BitVec 16).toNat = 0 := rfl
  have hz : s.t.lo.toNat = 0 ∧ s.t.hi.toNat = M % 2 ^ 32 := by
    rw [hT] at hsplit
    omega
  have hdiv : 4 ^ 16 * M / 2 ^ 64 = M / 2 ^ 32 := by omega
  rw [hdiv] at hrem
  have h2 : s.t.w2.toNat = 0 := by omega
  have h3 : s.t.w3.toNat = 0 := by omega
  refine ⟨⟨?_, hz.2, ?_⟩, eq_zero_of_toNat h2⟩
  · have hS : (gstep2_2 s).S = s.rr4.toNat := by
      rw [gstep2_2, Root2.S, h0, Nat.zero_mul, Nat.zero_add]
    rwa [hS]
  · rw [gstep2_2, h3, Nat.zero_mul, Nat.zero_add]
    exact hq

theorem comq_spec (q : Quad) : (comq q).toNat + q.toNat + 1 = 2 ^ 64 := by
  have h0 := q.w0.isLt
  have h1 := q.w1.isLt
  have h2 := q.w2.isLt
  have h3 := q.w3.isLt
  simp only [comq, Quad.toNat, BitVec.toNat_not]
  omega

theorem words3_lt {a b c : ℕ} (ha : a < 2 ^ 16) (hb : b < 2 ^ 16) (hc : c < 2 ^ 16) :
    (a * 65536 + b) * 65536 + c < 2 ^ 48 := by
  omega

theorem com_half {w0 L L' c X : ℕ} (h : w0 * 2 ^ 48 + L + X + 1 = 2 ^ 64) (hX : X < 2 ^ 48)
    (hLlt : L < 2 ^ 48) (hL : 2 * L' + c = L + 2 ^ 48) (hc : c ≤ 1) :
    w0 * 2 ^ 48 + L' + X / 2 + 1 = 2 ^ 64 := by
  have hw : w0 = 65535 := by omega
  subst hw
  omega

/-- The complement of a number of 48 bits halved. -/
theorem rrc3_spec {q : Quad} {X : ℕ} (h : q.toNat + X + 1 = 2 ^ 64) (hX : X < 2 ^ 48) :
    (rrc3 q).toNat + X / 2 + 1 = 2 ^ 64 := by
  have h0 := q.w0.isLt
  have h1 := rrc_spec q.w1 true (by norm_num)
  have h2 := rrc_spec q.w2 (rrc q.w1 true).c (by norm_num)
  have h3 := rrc_spec q.w3 (rrc q.w2 (rrc q.w1 true).c).c (by norm_num)
  have hc := Bool.toNat_le (rrc q.w3 (rrc q.w2 (rrc q.w1 true).c).c).c
  have hw1 := q.w1.isLt
  have hw2 := q.w2.isLt
  have hw3 := q.w3.isLt
  rw [Bool.toNat_true] at h1
  have hL : 2 * (((rrc3 q).w1.toNat * 65536 + (rrc3 q).w2.toNat) * 65536 +
        (rrc3 q).w3.toNat) + (rrc q.w3 (rrc q.w2 (rrc q.w1 true).c).c).c.toNat =
      (q.w1.toNat * 65536 + q.w2.toNat) * 65536 + q.w3.toNat + 2 ^ 48 := by
    simp only [rrc3]
    linarith
  have hw0 : (rrc3 q).w0 = q.w0 := by simp only [rrc3]
  have hsplit := Quad.toNat_split q
  have hsplit' := Quad.toNat_split (rrc3 q)
  rw [hsplit] at h
  rw [hsplit', hw0]
  exact com_half h hX (words3_lt hw1 hw2 hw3) hL hc

/-- After the second phase the whole radicand is taken. -/
theorem gstep2b_inv {s : Root2} {M Q : ℕ} (h : s.Inv (4 ^ 16 * M) Q) (hM : M < 2 ^ 66) :
    (gstep2b 0 s).Inv M Q := by
  obtain ⟨hrem, hT, hq⟩ := h
  have hdiv : 4 ^ 16 * M / 2 ^ 32 = M := by omega
  rw [hdiv] at hrem
  have hQ : Q < 2 ^ 33 := hrem.lt_two_pow (by norm_num; omega)
  have h0 : (0 : BitVec 16).toNat = 0 := rfl
  have hX : (⟨0, s.r9, s.r10, s.r11⟩ : Quad).toNat = 4 * Q + 1 := by
    rw [← hq, toNat_long]
    simp only [Quad.toNat, h0]
    ring
  have hcom := comq_spec ⟨0, s.r9, s.r10, s.r11⟩
  rw [hX] at hcom
  have h1 := rrc3_spec hcom (by omega)
  have h2 := rrc3_spec h1 (by omega)
  have hQ' : (4 * Q + 1) / 2 / 2 = Q := by omega
  rw [hQ'] at h2
  refine ⟨?_, h2⟩
  have hS : (gstep2b 0 s).S = s.S := by
    have hdm := Nat.div_add_mod s.rr4.toNat 65536
    simp only [gstep2b, Root3.S, Root2.S, Quad.toNat, h0, toNat_hiw, toNat_low, Bool.toNat_false]
    linarith
  rwa [hS]

/-- Four words or-ed together are clear just when the quad is. -/
theorem or_words_eq_zero_iff (q : Quad) :
    q.w0 ||| q.w1 ||| q.w2 ||| q.w3 = 0 ↔ q.toNat = 0 := by
  rw [toNat_or_eq_zero_iff, BitVec.toNat_or, Nat.or_eq_zero_iff, BitVec.toNat_or,
    Nat.or_eq_zero_iff, Quad.toNat]
  omega

/-- The rounding byte of a carry bit, the sticky bit added. -/
theorem gstep3_byte (p g : Bool) :
    (tcc p (carryBit g)).getLsbD 7 = g ∧ decide ((tcc p (carryBit g)).toNat % 128 ≠ 0) = p := by
  revert p g
  decide

/-- After a carry out of S both bits are set already. -/
theorem gstep3_byte_carry (p : Bool) :
    (tcc p (set (carryBit true) 0)).getLsbD 7 = true ∧
      decide ((tcc p (set (carryBit true) 0)).toNat % 128 ≠ 0) = true := by
  revert p
  decide

/-- **The root and its rounding bits.** -/
theorem gstep3_spec {s : Root3} {N Q : ℕ} (h : s.Inv N Q) (heven : N % 2 = 0) :
    (gstep3 s).1.toNat = Q ∧ (gstep3 s).2.getLsbD 7 = decide (Q < s.S) ∧
      decide ((gstep3 s).2.toNat % 128 ≠ 0) = decide (s.S ≠ 0) := by
  obtain ⟨hrem, hcom⟩ := h
  have hc8 := comq_spec s.rq8
  have hdig : (gstep3 s).1 = comq s.rq8 := rfl
  refine ⟨by rw [hdig]; omega, ?_⟩
  rw [gstep3]
  cases hc : s.c with
  | true =>
    have hS : s.S = s.rq4.toNat + 2 ^ 64 := by rw [Root3.S, hc, Bool.toNat_true, Nat.mul_one]
    simp only [if_true]
    rw [(gstep3_byte_carry _).1, (gstep3_byte_carry _).2, hS]
    exact ⟨(decide_eq_true (by omega)).symm, (decide_eq_true (by omega)).symm⟩
  | false =>
    have hS : s.S = s.rq4.toNat := by
      rw [Root3.S, hc, Bool.toNat_false, Nat.mul_zero, Nat.add_zero]
    have hne := hrem.ne_succ heven
    rw [hS] at hne ⊢
    simp only [if_false, Bool.false_eq_true]
    rw [(gstep3_byte _ _).1, (gstep3_byte _ _).2]
    simp only [Ne, or_words_eq_zero_iff]
    rcases com_carry (x := s.rq4) hcom with ⟨hc', hgt, hd⟩ | ⟨hc', hle⟩
    · rw [hc', if_pos rfl]
      exact ⟨(decide_eq_true hgt).symm, decide_eq_decide.mpr (by omega)⟩
    · rw [hc', if_neg Bool.false_ne_true]
      exact ⟨(decide_eq_false (not_lt.mpr hle)).symm, rfl⟩

/-- Room for the radicand of a run. -/
theorem room {M n B : ℕ} (hM : M < 2 ^ 66) (hB : 4 ^ n * 2 ^ 66 ≤ B) : 4 ^ n * M < B :=
  lt_of_lt_of_le (Nat.mul_lt_mul_of_pos_left hM (Nat.pow_pos (by norm_num))) hB

/-- **The digits of the root.** -/
theorem rootDigits_spec {rq8 : Quad} (hD : 2 ^ 63 ≤ rq8.toNat) (odd : Bool) :
    ∃ S, RootRem (4 ^ 31 * radicandOf rq8.toNat odd) (rootDigits rq8 odd).1.toNat S ∧
      (rootDigits rq8 odd).2.getLsbD 7 = decide ((rootDigits rq8 odd).1.toNat < S) ∧
      decide ((rootDigits rq8 odd).2.toNat % 128 ≠ 0) = decide (S ≠ 0) := by
  have hlt := rq8.toNat_lt
  have hM : radicandOf rq8.toNat odd < 2 ^ 66 := by
    rw [radicandOf]
    split_ifs <;> omega
  have h0 := gstep2a_1_inv hD odd
  generalize radicandOf rq8.toNat odd = M at *
  obtain ⟨Q1, h1⟩ := rooting_iterate (n := 16) Fsqr21 Root1.Inv Fsqr21_rooting h0
    (room hM (by norm_num))
  obtain ⟨h1', hw2⟩ := gstep2_2_inv h1
  obtain ⟨Q2, h2⟩ := rooting_iterate (n := 16) Fsqr25 Root2.Inv Fsqr25_rooting h1'
    (room hM (by norm_num))
  obtain ⟨Q3, h3⟩ := rooting_iterate (n := 31) Fsqr200 Root3.Inv Fsqr200_inv (gstep2b_inv h2 hM)
    (room hM (by norm_num))
  obtain ⟨hdig, hg, hs⟩ := gstep3_spec h3 (by omega)
  rw [rootDigits]
  simp only [hw2]
  rw [hdig]
  exact ⟨_, h3.rem, hg, hs⟩

/-! ## 7. The root rounded -/

/-- The operand with its exponent in r7 alone, as a register stores it. -/
def Acc.stored (s : Acc) : Acc := { s with rl6 := 0 }

theorem Acc.stored_expBits (s : Acc) : s.stored.expBits = s.r7.toNat := by
  have h0 : s.stored.rl6.toNat = 0 := rfl
  rw [Op.expBits, h0, Nat.zero_mul, Nat.zero_add]
  rfl

/-- The high byte of the exponent takes no part in rounding. -/
theorem round_rl6 (e : Env) (s : Acc) (v : BitVec 8) :
    (round e { s with rl6 := v }).rh6 = (round e s).rh6 ∧
      (round e { s with rl6 := v }).digits = (round e s).digits ∧
      (round e { s with rl6 := v }).r7 = (round e s).r7 ∧
      (round e { s with rl6 := v }).inexact = (round e s).inexact := by
  obtain ⟨h6, hi, h⟩ := round_spec e s
  obtain ⟨h6', hi', h'⟩ := round_spec e { s with rl6 := v }
  have hj : jammed e { s with rl6 := v } = jammed e s := rfl
  have hr : rounded e { s with rl6 := v } = rounded e s := rfl
  have hE : Op.expBits { s.toOp with rl6 := v } = v.toNat * 65536 + s.r7.toNat := rfl
  have hE' : s.expBits = s.rl6.toNat * 65536 + s.r7.toNat := rfl
  have hr7 := (round e s).r7.isLt
  have hr7' := (round e { s with rl6 := v }).r7.isLt
  rw [hj] at hi'
  rw [hr] at h'
  refine ⟨h6'.trans h6.symm, ?_, ?_, hi'.trans hi.symm⟩
  · rcases h with ⟨hn, hd, -⟩ | ⟨hn, hd, -⟩ <;> rcases h' with ⟨hn', hd', -⟩ | ⟨hn', hd', -⟩
    · rw [hd, hd']
    · omega
    · omega
    · rw [hd, hd']
  · apply BitVec.eq_of_toNat_eq
    rcases h with ⟨hn, -, hx⟩ | ⟨hn, -, hx⟩ <;> rcases h' with ⟨hn', -, hx'⟩ | ⟨hn', -, hx'⟩
    · rw [hE, Op.expBits] at hx'
      rw [hE', Op.expBits] at hx
      omega
    · omega
    · omega
    · rw [hE, Op.expBits] at hx'
      rw [hE', Op.expBits] at hx
      omega
theorem halve_arith {a b v6 v7 c6 p : ℕ} (h6 : 2 * v6 + c6 = a + 2 ^ 8 * 0)
    (h7 : 2 * v7 + p = b + 2 ^ 16 * c6) (hp : b % 2 = p) :
    v6 * 65536 + v7 + p + 0x1FFF = (a * 65536 + b) / 2 + b % 2 + 0x1FFF := by
  omega

/-- The exponent halved. -/
theorem halveExp_spec (rl6 : BitVec 8) (r7 : BitVec 16) :
    (halveExp rl6 r7).c = r7.getLsbD 0 ∧
      (halveExp rl6 r7).val.1.toNat * 65536 + (halveExp rl6 r7).val.2.toNat =
        (rl6.toNat * 65536 + r7.toNat) / 2 + r7.toNat % 2 + 0x1FFF := by
  have h6 := rrc_spec rl6 false (by norm_num)
  have h7 := rrc_spec r7 (rrc rl6 false).c (by norm_num)
  have hc : (rrc r7 (rrc rl6 false).c).c = r7.getLsbD 0 := rfl
  have hbit : (r7.getLsbD 0).toNat = r7.toNat % 2 := by
    rw [toNat_getLsbD, Nat.pow_zero, Nat.div_one]
  have hv6 := (rrc rl6 false).val.isLt
  refine ⟨hc, ?_⟩
  rw [hc, hbit] at h7
  rw [Bool.toNat_false] at h6
  have hb := rl6.isLt
  have hz : (0 : BitVec 8).toNat = 0 := rfl
  have h1 : (1 : BitVec 16).toNat = 1 := rfl
  have hk : (0x1FFF : BitVec 16).toNat = 0x1FFF := rfl
  rw [halveExp]
  simp only [hc]
  -- the two sums, the low word first
  have hadd : ∀ (a : BitVec 8) (x k : BitVec 16), a.toNat < 0xFF →
      (adc a 0 (add x k).c).val.toNat * 65536 + (add x k).val.toNat =
        a.toNat * 65536 + x.toNat + k.toNat := by
    intro a x k ha
    have hx := add_spec x k
    have ha' := adc_spec a 0 (add x k).c
    have hcl := Bool.toNat_le (add x k).c
    have hvl := (adc a 0 (add x k).c).val.isLt
    rw [hz] at ha'
    have hov : (adc a 0 (add x k).c).c.toNat = 0 := by omega
    omega
  cases hp : r7.getLsbD 0 <;> rw [hp] at hbit <;>
    simp only [Bool.toNat_true, Bool.toNat_false] at hbit
  · simp only [Bool.false_eq_true, if_false]
    rw [hadd _ _ _ (by omega), hk]
    omega
  · simp only [if_true]
    have hup := hadd (rrc rl6 false).val (rrc r7 (rrc rl6 false).c).val 1 (by omega)
    have huplt := (add (rrc r7 (rrc rl6 false).c).val 1).val.isLt
    have hhi : (adc (rrc rl6 false).val 0 (add (rrc r7 (rrc rl6 false).c).val 1).c).val.toNat <
        0xFF := by omega
    rw [hadd _ _ _ hhi, hup, hk, h1]
    rw [← hbit] at h7
    exact halve_arith h6 h7 hbit.symm

/-- **The result is the root of `x` rounded once.**  As the instruction delivers it, the exponent
is in r7 alone; the flag tells whether `x` is the square of a number of the precision. -/
structure RoundsRoot (e : Env) (s : Acc) (x : ℚ) : Prop where
  normal : s.Normal
  val : ((s.stored.val : ℚ) : ℝ) = rnd e.prec e.mode √(x : ℝ)
  inexact : s.inexact = true ↔ ¬ ∃ y : ℚ, Representable e.prec y ∧ y ^ 2 = x
  delivers : ∀ c, ∃ r7, delivery e c s = some (.extended r7 s.rq8) ∧
    extDatum r7 s.rq8 = .finite false s.stored.val

/-- The register exponent of the root. -/
def rootExp (E : ℤ) : ℤ := (E + E % 2) / 2 + 0x1FFF

/-- The exact root through its 64 digits. -/
theorem root_scaled {x : Op} (hneg : x.neg = false) {y : ℝ} (hy : 0 ≤ y)
    (hyy : y ^ 2 = ((4 ^ 31 * radicandOf x.digits (x.expo % 2 == 1) : ℕ) : ℝ)) :
    √((x.val : ℚ) : ℝ) = y * 2 ^ (rootExp x.expo - bias - 63) := by
  have hsq : (y * 2 ^ (rootExp x.expo - bias - 63)) ^ 2 = ((x.val : ℚ) : ℝ) := by
    have hz : ((2 : ℝ) ^ (rootExp x.expo - bias - 63)) ^ 2 =
        2 ^ (x.expo - bias - 63) * 2 ^ (-(64 - x.expo % 2)) := by
      rw [← zpow_natCast, ← zpow_mul, ← zpow_add₀ (by norm_num)]
      congr 1
      simp only [rootExp, bias]
      push_cast
      omega
    rw [mul_pow, hyy, hz, Op.val, hneg, signed_false, Op.mag, radicandOf]
    rcases Int.emod_two_eq_zero_or_one x.expo with h | h <;> rw [h] <;> push_cast <;> norm_num <;>
      ring
  rw [← hsq, Real.sqrt_sq (mul_nonneg hy (zpow_pos (by norm_num) _).le)]

/-- The parity of the exponent, from the last bit of r7. -/
theorem expo_odd (o : Op) : o.r7.getLsbD 0 = (o.expo % 2 == 1) := by
  obtain ⟨m, hm⟩ := o.expBits_eq
  have hE : o.expBits = o.rl6.toNat * 65536 + o.r7.toNat := rfl
  have hpar : o.expo % 2 = (o.r7.toNat % 2 : ℕ) := by
    rw [hE] at hm
    omega
  rw [hpar, Bool.eq_iff_iff, getLsbD_eq_true_iff, beq_iff_eq, Nat.pow_zero, Nat.div_one]
  exact_mod_cast Iff.rfl

/-- The register exponent of the root is the root's exponent, in the range of the format. -/
theorem rootExp_range {E : ℤ} (h : -63 ≤ E) (h' : E ≤ 0x7FFE) :
    0x1FDF ≤ rootExp E ∧ rootExp E ≤ 0x5FFE := by
  unfold rootExp
  omega

/-- What square root hands to rounding. -/
structure RootOut (x : Op) (s t : Acc) : Prop where
  rh6 : t.rh6 = s.rh6
  rh5 : t.rh5 = s.rh5
  r7 : (t.r7.toNat : ℤ) = rootExp x.expo
  rl6 : 0 ≤ x.expo → t.rl6 = 0
  root : ∃ S, RootRem (4 ^ 31 * radicandOf x.digits (x.expo % 2 == 1)) t.digits S ∧
    t.rl5.getLsbD 7 = decide (t.digits < S) ∧ decide (t.rl5.toNat % 128 ≠ 0) = decide (S ≠ 0)

theorem sqrPre_spec (x : Number) (s : Acc) (hs : s.toOp = x.toOp) : RootOut x.toOp s (sqrPre s) := by
  obtain ⟨hlow, hhigh⟩ := x.range
  obtain ⟨hodd, hexp⟩ := halveExp_spec s.rl6 s.r7
  have hroot := @rootDigits_spec s.rq8 (hs ▸ x.normal) (halveExp s.rl6 s.r7).c
  have hpar : s.r7.getLsbD 0 = (x.expo % 2 == 1) := by rw [← expo_odd, ← hs]
  rw [hodd, hpar] at hroot
  have hE : x.expBits = s.rl6.toNat * 65536 + s.r7.toNat := by rw [← hs]; rfl
  have hrange := rootExp_range hlow hhigh
  have h7 := (sqrPre s).r7.isLt
  have hsum : (sqrPre s).rl6.toNat * 65536 + (sqrPre s).r7.toNat =
      (s.rl6.toNat * 65536 + s.r7.toNat) / 2 + s.r7.toNat % 2 + 0x1FFF := hexp
  have hexpo : x.expo = if x.expBits < 2 ^ 23 then (x.expBits : ℤ) else x.expBits - 2 ^ 24 := rfl
  have hlt := x.expBits_lt
  have hr7 : ((sqrPre s).r7.toNat : ℤ) = rootExp x.expo ∧
      (0 ≤ x.expo → (sqrPre s).rl6.toNat = 0) := by
    clear hroot hexp
    rw [rootExp] at hrange ⊢
    generalize (sqrPre s).rl6.toNat = a at *
    generalize (sqrPre s).r7.toNat = b at *
    generalize x.expBits = E at *
    split_ifs at hexpo <;> omega
  refine ⟨by rw [sqrPre], by rw [sqrPre], hr7.1, fun h0 => eq_zero_of_toNat (hr7.2 h0), ?_⟩
  have hdig : x.digits = s.rq8.toNat := by rw [← hs]; rfl
  rw [hdig]
  have hq : (sqrPre s).digits = (rootDigits s.rq8 (x.expo % 2 == 1)).1.toNat := by
    rw [← hpar, ← hodd]
    rfl
  have hl : (sqrPre s).rl5 = (rootDigits s.rq8 (x.expo % 2 == 1)).2 := by
    rw [← hpar, ← hodd]
    rfl
  rw [hq, hl]
  exact hroot

/-- Delivery of a register exponent that is no reserved one. -/
theorem delivers_of {e : Env} (he : e.Register) {s : Acc} (hn : s.Normal) (hneg : s.neg = false)
    (h7 : s.r7.toNat < 0x7FFF) (c : Bool) :
    ∃ r7, delivery e c s = some (.extended r7 s.rq8) ∧
      extDatum r7 s.rq8 = .finite false s.stored.val := by
  obtain ⟨hdel, hr7⟩ := dlvry54_spec c (s := s) (by omega) (Or.inr (Or.inr hn))
  have he' : e.rh4.getLsbD 2 = true := he
  refine ⟨_, by rw [delivery, if_pos he', hdel], ?_⟩
  rw [hneg, Bool.toNat_false, Nat.zero_mul, Nat.zero_add] at hr7
  have hbit : (slideSign c (word s.rh6 s.rl6) s.r7).getLsbD 15 = false := by
    rw [← Bool.not_eq_true, getLsbD_eq_true_iff, hr7]
    omega
  have hmod : (slideSign c (word s.rh6 s.rl6) s.r7).toNat % 2 ^ 15 = s.r7.toNat := by
    rw [hr7]
    omega
  have hexpo := Op.expo_of_expBits s.stored_expBits (by omega)
  have hneg' : s.stored.neg = false := hneg
  rw [extDatum, hmod, hbit, if_neg (by omega), Op.val, hneg', signed_false, Op.mag, hexpo]
  rfl

/-- A rational that is the root of `x` as a real is its root as a rational. -/
theorem representable_sqrt_iff {p : ℕ} {x : ℚ} (hx : 0 ≤ x) :
    Representable p √(x : ℝ) ↔ ∃ y : ℚ, Representable p y ∧ y ^ 2 = x := by
  have hxR : (0 : ℝ) ≤ (x : ℝ) := by exact_mod_cast hx
  constructor
  · rintro ⟨n, k, hn, hv⟩
    refine ⟨n * 2 ^ k, ⟨n, k, hn, rfl⟩, ?_⟩
    have hsq := Real.sq_sqrt hxR
    rw [hv] at hsq
    have hq : (((n : ℚ) * 2 ^ k) ^ 2 : ℚ) = ((x : ℚ)) := by
      have h : ((((n : ℚ) * 2 ^ k) ^ 2 : ℚ) : ℝ) = (x : ℝ) := by
        push_cast
        exact hsq
      exact_mod_cast h
    exact hq
  · rintro ⟨y, ⟨n, k, hn, rfl⟩, hy⟩
    have hcast : √(x : ℝ) = |(n : ℝ) * 2 ^ k| := by
      rw [← hy]
      push_cast
      exact Real.sqrt_sq_eq_abs _
    refine ⟨|n|, k, by rwa [abs_abs], ?_⟩
    rw [hcast, abs_mul, abs_of_pos (zpow_pos (by norm_num : (0 : ℝ) < 2) k)]
    push_cast
    rfl

/-- **Correct rounding of the square root.**  The root of a number that is not negative, its
exponent odd or even, is the exact real root rounded once; it is inexact just when the number is
not the square of a number of the selected precision. -/
theorem sqrno_roundsRoot (e : Env) (he : e.Register) (x : Number) (hx : x.neg = false)
    (f : Clean) :
    RoundsRoot e (sqrno e (x.toOp.start f)) x.val ∧
      (0 ≤ x.expo → (sqrno e (x.toOp.start f)).rl6 = 0) := by
  have hneg : (x.toOp.start f).rh6.getLsbD 7 = false := hx
  have hnorm : (x.toOp.start f).rq8.w0.getLsbD 15 = true :=
    (Quad.getLsbD_w0_iff _).mpr x.normal
  have hcode : sqrno e (x.toOp.start f) = round e (sqrPre (x.toOp.start f)) := by
    rw [sqrno, hneg, hnorm]
    rfl
  obtain ⟨h6, h5, h7, hr6, S, hroot, hg, hs⟩ := sqrPre_spec x (x.toOp.start f) rfl
  rw [hcode]
  generalize sqrPre (x.toOp.start f) = t at *
  obtain ⟨hlow, hhigh⟩ := x.range
  obtain ⟨hE0, hE1⟩ := rootExp_range hlow hhigh
  have htneg : t.neg = false := by
    rw [Op.neg, h6]
    exact hx
  have hclean : t.inexact = false := by
    rw [Acc.inexact, h5]
    exact f.exact
  -- the root has 64 digits
  have hN : 2 ^ (2 * 63) ≤ 4 ^ 31 * radicandOf x.digits (x.expo % 2 == 1) := by
    have hd : 2 ^ 63 ≤ x.digits := x.normal
    have hM : 2 ^ 64 ≤ radicandOf x.digits (x.expo % 2 == 1) := by
      rw [radicandOf]
      split_ifs <;> omega
    have hpow : 2 ^ (2 * 63) = 4 ^ 31 * 2 ^ 64 := by norm_num
    rw [hpow]
    exact Nat.mul_le_mul_left _ hM
  have htn : t.Normal := hroot.two_pow_le hN
  -- rounding, the exponent read off r7 alone
  obtain ⟨k6, kd, k7, ki⟩ := round_rl6 e t 0
  rw [← Acc.stored] at k6 kd k7 ki
  have hexpo : t.stored.expo = rootExp x.expo := by
    rw [Op.expo_of_expBits t.stored_expBits (by omega), h7]
  have hroom : t.stored.expBits + 1 < 2 ^ 23 := by
    rw [t.stored_expBits]
    omega
  set y : ℝ := √((4 ^ 31 * radicandOf x.digits (x.expo % 2 == 1) : ℕ) : ℝ)
  have hy : 0 ≤ y := Real.sqrt_nonneg _
  have hyy : y ^ 2 = ((4 ^ 31 * radicandOf x.digits (x.expo % 2 == 1) : ℕ) : ℝ) :=
    Real.sq_sqrt (Nat.cast_nonneg _)
  have hodd : RoundOdd (4 * y) t.stored.grs := by
    have h := hroot.roundOdd hy hyy
    rw [← hg, ← hs] at h
    exact h
  obtain ⟨hval, hflag⟩ := round_rnd (K := ℝ) e (s := t.stored) htn hroom hclean hodd
  have hneg0 : t.stored.neg = false := htneg
  rw [hneg0, hexpo, signed_false, ← root_scaled hx hy hyy] at hval hflag
  -- what rounding leaves
  have hr : (round e t.stored).expBits ≤ 0x5FFF := by
    obtain ⟨-, -, hr⟩ := round_spec e t.stored
    rw [t.stored_expBits] at hr
    rcases hr with ⟨-, -, hr⟩ | ⟨-, -, hr⟩ <;> rw [hr] <;> omega
  have hrE : (round e t.stored).expBits =
      (round e t.stored).rl6.toNat * 65536 + (round e t.stored).r7.toNat := rfl
  have hstored : (round e t).stored.val = (round e t.stored).val := by
    have hE : (round e t).stored.expBits = (round e t.stored).expBits := by
      rw [Acc.stored_expBits, hrE, k7]
      omega
    have hd : (round e t).stored.digits = (round e t.stored).digits := kd.symm
    have hn : (round e t).stored.neg = (round e t.stored).neg := by
      rw [Op.neg, Op.neg, k6]
      rfl
    rw [Op.val, Op.val, Op.mag, Op.mag, hn, hd, Op.expo, Op.expo, hE]
  have hx0 : 0 ≤ x.val := by
    rw [Op.val, hx, signed_false]
    exact x.mag_pos.le
  refine ⟨⟨round_normal e htn, ?_, ?_, delivers_of he (round_normal e htn) ?_ ?_⟩, ?_⟩
  · rw [hstored]
    exact hval
  · rw [← ki, hflag, Ne, rnd_eq_self_iff, representable_sqrt_iff hx0]
  · rw [Op.neg, (round_spec e t).1]
    exact htneg
  · rw [← k7]
    omega
  · intro h0
    have hst : t.stored = t := by
      rw [Acc.stored, ← hr6 h0]
    rw [hst] at hr hrE
    exact eq_zero_of_toNat (by omega)

/-- The theorem at the root of three. -/
theorem sqrno_roundsRoot_three :
    RoundsRoot extNearest (sqrno extNearest (three.toOp.start noErrors)) three.val ∧
      (0 ≤ three.expo → (sqrno extNearest (three.toOp.start noErrors)).rl6 = 0) :=
  sqrno_roundsRoot extNearest (by decide) three (by decide) noErrors

end Cpm8000.Fpe
