/-
# Addition and subtraction

`addno` brings the operand with the larger exponent into the accumulator, shifts the other one
right until the exponents agree, and adds or subtracts the significands.  The shift stops at 66
places; beyond that only a sticky bit is left of the smaller operand.

* `Sticky`: what the aligned smaller significand is to the exact one.
* `sum_odd`, `carry_odd`, `diff_odd`: the significand of the result is rounded to odd, after the
  carry's right shift and after any number of normalising left shifts.
* `Fadd_Fsub_delivers`: the sum and the difference of finite operands are the exact ones rounded
  once, and an exact zero has the sign the standard gives it.
-/
import Cpm8000.Fpe.Range

namespace Cpm8000.Fpe

open Arith

/-! ## 1. The code -/

/-- The operands aligned: the larger one, the other one's digits, the bits shifted out of
these, and what the counting left in rl0. -/
structure Alignment where
  s : Acc
  small : Quad
  rh1 : BitVec 8
  rl0 : BitVec 8

/-- One step of the prealignment. -/
def fsub14 (a : Quad × BitVec 8) : Quad × BitVec 8 :=
  let q := rrcq a.1 false
  let h := rrc a.2 q.c
  (q.val, tcc h.c h.val)

/-- The operand with the larger exponent, and the digits of the other one shifted to match. -/
def align (dst : Op) (s : Acc) : Alignment :=
  let r1 := sub dst.r7 s.r7
  if r1.val = 0 then ⟨s, dst.rq8, hib r1.val, dst.rl6⟩
  else
    let rl0 := sbc dst.rl6 s.rl6 r1.c
    let big : Acc := if rl0.val.msb then s else { s with toOp := dst }
    let small := if rl0.val.msb then dst.rq8 else s.rq8
    let r1 := if rl0.val.msb then (sub 0 r1.val).val else r1.val
    let r1 := if r1.toNat ≤ 66 then r1 else 66
    let a := fsub14^[(lob r1).toNat] (small, hib r1)
    ⟨big, a.1, a.2, 0⟩

/-- Add magnitudes. -/
def addMag (a : Alignment) : Acc :=
  let q := addlq a.s.rq8 a.small
  let s := { a.s with rq8 := q.val, rl5 := a.rh1 }
  if q.c then
    let s := shiftdigs 1 true s
    let r7 := add s.r7 1
    { s with r7 := r7.val, rl6 := (adc s.rl6 0 r7.c).val }
  else s

/-- Subtract the smaller magnitude, and normalise. -/
def fsub33 (rh0 rh1 rl0 : BitVec 8) (s : Acc) (small : Quad) : Option Acc :=
  let rl1 := sub 0 rh1
  normdigs (word rh0 rl0) { s with rq8 := (sbcq s.rq8 small rl1.c).val, rl5 := rl1.val }

/-- An exact zero: it is positive unless rounding goes towards minus infinity. -/
def fsub37 (e : Env) (s : Acc) : Acc :=
  { s with
    rq8 := Quad.zero
    rh6 := if 0x0C &&& e.modes = 0x0C then set 0 7 else 0
    rl6 := 0
    r7 := 0 }

/-- Where an operation leaves the arithmetic: before the exception checks, or after them. -/
inductive Exit where
  | fsub52 (s : Acc)
  | fsub57 (s : Acc)

/-- The operand once rounded. -/
def Exit.rounded (e : Env) : Exit → Acc
  | .fsub52 s => round e (under e s)
  | .fsub57 s => s

/-- The operand as it is delivered. -/
def Exit.finish (e : Env) : Exit → Acc
  | .fsub52 s => overRange e (round e (under e s))
  | .fsub57 s => s

/-- Add dst and src. -/
def addno (e : Env) (dst : Op) (s : Acc) : Option Exit :=
  let rh0 := dst.rh6 ^^^ s.rh6
  let a := align dst s
  if rh0.getLsbD 7 then
    match cplq a.s.rq8 a.small with
    | .gt => (fsub33 rh0 a.rh1 a.rl0 a.s a.small).map .fsub52
    | .eq => some (.fsub57 (fsub37 e a.s))
    | .lt => (fsub33 rh0 a.rh1 a.rl0
        { a.s with rq8 := a.small, rh6 := a.s.rh6 ^^^ 0x80 } a.s.rq8).map .fsub52
  else some (.fsub52 (addMag a))

/-- A finite unpacked operand. -/
inductive Finite where
  | num (o : Number)
  | zero (o : Zero)

/-- The registers of the operand. -/
def Finite.op : Finite → Op
  | .num o => o.toOp
  | .zero o => o.toOp

/-- The entries of the dispatch table for finite operands. -/
def actadd (e : Env) (dst src : Finite) (s : Acc) : Option Exit :=
  match dst, src with
  | .num _, .num _ => addno e dst.op s
  | .num _, .zero _ => some (.fsub52 { s with toOp := dst.op })
  | .zero _, .num _ => some (.fsub52 s)
  | .zero _, .zero _ => addno e dst.op s

/-- Addition. -/
def Fadd (e : Env) (dst src : Finite) (f : Clean) : Option Exit :=
  actadd e dst src (src.op.start f)

/-- Subtraction reverses the source at the outset. -/
def Fsub (e : Env) (dst src : Finite) (f : Clean) : Option Exit :=
  let s := src.op.start f
  actadd e dst src { s with rh6 := s.rh6 ^^^ 0x80 }

/-! ## 2. Significands that are aligned -/

/-- `W` stands for the significand `S` shifted right by `d` places, eight bits wider: it is
rounded to odd, and exact at a distance of at most one; or the distance was cut short and all
that is left is a sticky bit far below. -/
def Sticky (d S W : ℕ) : Prop :=
  (RoundOdd ((256 * S : ℕ) / 2 ^ d : ℚ) W ∧ (d ≤ 1 → 2 ^ d * W = 256 * S)) ∨
    (66 < d ∧ 0 < S ∧ 0 < W ∧ W < 64)

/-- The shift, cut at 66 places, leaves such a number. -/
theorem sticky_iterate {d S : ℕ} (hS : 0 < S) (hS' : S < 2 ^ 64) :
    Sticky d S ((jam 2)^[min d 66] (256 * S)) := by
  have hodd := (roundOdd_natCast (K := ℚ) (256 * S)).jam_iterate (min d 66)
  rcases le_or_gt d 66 with hd | hd
  · rw [min_eq_left hd] at hodd ⊢
    refine Or.inl ⟨hodd, fun h1 => ?_⟩
    rcases Nat.le_one_iff_eq_zero_or_eq_one.mp h1 with rfl | rfl
    · rw [Function.iterate_zero, id, Nat.pow_zero, Nat.one_mul]
    · rw [Function.iterate_one, jam, if_pos (by omega)]
      omega
  · rw [min_eq_right hd.le] at hodd ⊢
    refine Or.inr ⟨hd, hS, ?_, ?_⟩
    · have hpos : ∀ n X : ℕ, 0 < X → 0 < (jam 2)^[n] X := by
        intro n
        induction n with
        | zero => exact fun X h => h
        | succ n ih => exact fun X h => ih _ (jam_two_pos h)
      exact hpos 66 _ (by omega)
    · -- the number is odd or exact, and the exact one is below 64
      have hSQ : ((256 * S : ℕ) : ℚ) + 1 ≤ 2 ^ 72 := by exact_mod_cast (by omega)
      have hlt : ((256 * S : ℕ) : ℚ) / 2 ^ 66 < 64 := by
        rw [div_lt_iff₀ (by norm_num)]
        linarith
      generalize (jam 2)^[66] (256 * S) = W at hodd ⊢
      rcases hodd with h | ⟨h, h1, -⟩
      · rw [h] at hlt
        exact_mod_cast hlt
      · have hlt65 : (W : ℚ) < 65 := by linarith
        have : W < 65 := by exact_mod_cast hlt65
        omega

/-- The bound on a number that is shifted by two places or more. -/
theorem Sticky.le_of_two_le {d S W : ℕ} (h : Sticky d S W) (hd : 2 ≤ d) (hS : S < 2 ^ 64) :
    W ≤ 2 ^ 70 := by
  rcases h with ⟨h, -⟩ | ⟨-, -, -, h⟩
  · have hSQ : ((256 * S : ℕ) : ℚ) ≤ 2 ^ 72 := by exact_mod_cast (by omega)
    have hpow : (4 : ℚ) ≤ 2 ^ d := by
      calc (4 : ℚ) = 2 ^ 2 := by norm_num
        _ ≤ 2 ^ d := pow_le_pow_right₀ (by norm_num) hd
    have hle : ((256 * S : ℕ) : ℚ) / 2 ^ d ≤ 2 ^ 70 := by
      rw [div_le_iff₀ (by positivity)]
      nlinarith
    have hlt : (W : ℚ) < 2 ^ 70 + 1 := lt_of_lt_of_le h.lt_add_one (by linarith)
    exact Nat.lt_succ_iff.mp (by exact_mod_cast hlt)
  · omega

/-- A significand shifted at all is below a normalised one. -/
theorem Sticky.lt_of_pos {d S W : ℕ} (h : Sticky d S W) (hd : 0 < d) (hS : S < 2 ^ 64) :
    W < 2 ^ 71 := by
  rcases Nat.lt_or_ge d 2 with h2 | h2
  · rcases h with ⟨-, h⟩ | ⟨h, -⟩
    · obtain rfl : d = 1 := by omega
      have := h le_rfl
      omega
    · omega
  · have := h.le_of_two_le h2 hS
    omega

/-- A shift past 66 places leaves less than an eighth of the last place. -/
theorem tiny_bounds {d S : ℕ} (hd : 66 < d) (hS : 0 < S) (hS' : S < 2 ^ 64) :
    0 < (S : ℚ) / 2 ^ d ∧ (S : ℚ) / 2 ^ d < 1 / 8 := by
  have hSQ : (0 : ℚ) < S := by exact_mod_cast hS
  have hSQ' : (S : ℚ) < 2 ^ 64 := by exact_mod_cast hS'
  have hpow : (2 : ℚ) ^ 67 ≤ 2 ^ d := pow_le_pow_right₀ (by norm_num) hd
  refine ⟨by positivity, ?_⟩
  have e : (2 : ℚ) ^ 67 = 8 * 2 ^ 64 := by norm_num
  rw [div_lt_iff₀ (by positivity)]
  linarith

/-- **Adding.**  The sum's significand is rounded to odd. -/
theorem sum_odd {B d S W : ℕ} (h : Sticky d S W) (hS : S < 2 ^ 64) :
    RoundOdd (4 * ((B : ℚ) + S / 2 ^ d)) (jam 64 (256 * B + W)) := by
  rcases h with ⟨h, -⟩ | ⟨hd, hS0, hW, hW'⟩
  · have hsum := (h.natCast_add (k := 256 * B) (by omega)).jam (n := 64) (by norm_num) (by norm_num)
    have e : 4 * ((B : ℚ) + S / 2 ^ d) =
        ((256 * B : ℕ) + (256 * S : ℕ) / 2 ^ d) / (64 : ℕ) := by
      push_cast
      ring
    rwa [e]
  · obtain ⟨h1, h2⟩ := tiny_bounds hd hS0 hS
    have e : jam 64 (256 * B + W) = 4 * B + 1 := by
      rw [jam, if_neg (by omega)]
      omega
    rw [e]
    refine Or.inr ⟨by omega, ?_, ?_⟩ <;> push_cast <;> linarith

/-- So is the sum shifted back after a carry. -/
theorem carry_odd {B d S W : ℕ} (h : Sticky d S W) (hB : B < 2 ^ 64) (hc : 2 ^ 72 ≤ 256 * B + W) :
    RoundOdd (4 * (((B : ℚ) + S / 2 ^ d) / 2)) (jam 64 (jam 2 (256 * B + W))) := by
  rcases h with ⟨h, -⟩ | ⟨-, -, -, hW⟩
  · have hsum := ((h.natCast_add (k := 256 * B) (by omega)).jam (n := 2) (by norm_num)
      (by norm_num)).jam (n := 64) (by norm_num) (by norm_num)
    have e : 4 * (((B : ℚ) + S / 2 ^ d) / 2) =
        ((256 * B : ℕ) + (256 * S : ℕ) / 2 ^ d) / (2 : ℕ) / (64 : ℕ) := by
      push_cast
      ring
    rwa [e]
  · omega

/-- Far from a carry or a borrow, a normalised difference needs one left shift at most. -/
theorem shifts_le_one {n Z : ℕ} (hZ : 2 ^ 70 ≤ Z) (hn : 2 ^ n * Z < 2 ^ 72) : n = 0 ∨ n = 1 := by
  have h4 : n < 2 := by
    by_contra hn2
    have hpow : 2 ^ 2 ≤ 2 ^ n := Nat.pow_le_pow_right (by norm_num) (not_lt.mp hn2)
    have := Nat.mul_le_mul hpow hZ
    omega
  omega

/-- **Subtracting.**  The significand of the difference, normalised by any number of left
shifts, is rounded to odd. -/
theorem diff_odd {B d S W n : ℕ} (h : Sticky d S W) (hB : 2 ^ 63 ≤ B) (hS : S < 2 ^ 64)
    (hW : W ≤ 256 * B) (hn : 2 ^ n * (256 * B - W) < 2 ^ 72) :
    RoundOdd (4 * (2 ^ n * ((B : ℚ) - S / 2 ^ d))) (jam 64 (2 ^ n * (256 * B - W))) := by
  rcases Nat.lt_or_ge d 2 with hd | hd
  · -- nothing has been lost, so nothing is lost by shifting left
    rcases h with ⟨-, h⟩ | ⟨h, -⟩
    · have hexact := h (by omega)
      have hQ : ((256 * B - W : ℕ) : ℚ) = 256 * ((B : ℚ) - S / 2 ^ d) := by
        have hq : (2 : ℚ) ^ d * W = 256 * S := by exact_mod_cast hexact
        have hpow : (2 : ℚ) ^ d ≠ 0 := by positivity
        push_cast [hW]
        field_simp
        linarith
      have hodd := (roundOdd_natCast (K := ℚ) (2 ^ n * (256 * B - W))).jam (n := 64) (by norm_num)
        (by norm_num)
      have e : 4 * (2 ^ n * ((B : ℚ) - S / 2 ^ d)) =
          ((2 ^ n * (256 * B - W) : ℕ) : ℚ) / (64 : ℕ) := by
        rw [Nat.cast_mul, hQ]
        push_cast
        ring
      rwa [e]
    · omega
  · have hle := h.le_of_two_le hd hS
    have hZ : 2 ^ 70 ≤ 256 * B - W := by omega
    rcases h with ⟨h, -⟩ | ⟨hd66, hS0, hW0, hW64⟩
    · have hodd := h.natCast_sub (k := 256 * B) (by omega) hW
      rcases shifts_le_one hZ hn with rfl | rfl
      · have e : 4 * (2 ^ 0 * ((B : ℚ) - S / 2 ^ d)) =
            ((256 * B : ℕ) - (256 * S : ℕ) / 2 ^ d) / (64 : ℕ) := by
          push_cast
          ring
        rw [e, Nat.pow_zero, Nat.one_mul]
        exact hodd.jam (by norm_num) (by norm_num)
      · have e : 4 * (2 ^ 1 * ((B : ℚ) - S / 2 ^ d)) =
            ((256 * B : ℕ) - (256 * S : ℕ) / 2 ^ d) / (32 : ℕ) := by
          push_cast
          ring
        have e' : jam 64 (2 ^ 1 * (256 * B - W)) = jam 32 (256 * B - W) := by
          rw [Nat.pow_one]
          exact jam_mul_left (k := 2) (by norm_num) 32 _
        rw [e, e']
        exact hodd.jam (by norm_num) (by norm_num)
    · obtain ⟨h1, h2⟩ := tiny_bounds hd66 hS0 hS
      have hBQ : (((4 * B - 1 : ℕ) : ℚ)) = 4 * B - 1 := by
        rw [Nat.cast_sub (by omega)]
        push_cast
        ring
      have hBQ' : (((8 * B - 1 : ℕ) : ℚ)) = 8 * B - 1 := by
        rw [Nat.cast_sub (by omega)]
        push_cast
        ring
      rcases shifts_le_one hZ hn with rfl | rfl
      · have e : jam 64 (2 ^ 0 * (256 * B - W)) = 4 * B - 1 := by
          rw [Nat.pow_zero, Nat.one_mul, jam, if_neg (by omega)]
          omega
        rw [e]
        refine Or.inr ⟨by omega, ?_, ?_⟩ <;> rw [hBQ] <;> linarith
      · have e : jam 64 (2 ^ 1 * (256 * B - W)) = 8 * B - 1 := by
          rw [Nat.pow_one, jam]
          split_ifs <;> omega
        rw [e]
        refine Or.inr ⟨by omega, ?_, ?_⟩ <;> rw [hBQ'] <;> linarith

/-! ## 3. Aligning -/

/-- Digits and shifted-out bits as one number. -/
def wideOf (a : Quad × BitVec 8) : ℕ := a.1.toNat * 256 + a.2.toNat

/-- A step of the alignment is a sticky halving. -/
theorem fsub14_wide (a : Quad × BitVec 8) : wideOf (fsub14 a) = jam 2 (wideOf a) := by
  have h := shifD1_wide false ⟨⟨0, 0, 0, a.1⟩, 0, a.2⟩
  rw [Bool.toNat_false, Nat.mul_zero, Nat.add_zero] at h
  exact h

theorem fsub14_iterate_wide (n : ℕ) (a : Quad × BitVec 8) :
    wideOf (fsub14^[n] a) = (jam 2)^[n] (wideOf a) := by
  induction n generalizing a with
  | zero => rfl
  | succ n ih => rw [Function.iterate_succ_apply, Function.iterate_succ_apply, ih, fsub14_wide]

/-- A difference of 24-bit exponents that are less than `2^16` apart: its low word is the
distance or the distance negated, its high byte the sign. -/
theorem apart_cases {v v' b a c : ℕ} {x y m n : ℤ} (h : v + 65536 * v' + b = a + 2 ^ 24 * c)
    (hv : v < 65536) (hv' : v' < 256) (ha : (a : ℤ) = x + 2 ^ 24 * m)
    (hb : (b : ℤ) = y + 2 ^ 24 * n)
    (hx : -63 ≤ x ∧ x ≤ 0x7FFE) (hy : -63 ≤ y ∧ y ≤ 0x7FFE) :
    (v = 0 ∧ x = y) ∨ (v ≠ 0 ∧ 128 ≤ v' ∧ x < y ∧ 65536 - v = (y - x).toNat) ∨
      (v ≠ 0 ∧ v' < 128 ∧ y < x ∧ v = (x - y).toNat) := by
  obtain ⟨k, hk⟩ : ∃ k : ℤ, (v : ℤ) + 65536 * v' = x - y + 2 ^ 24 * k :=
    ⟨m - n + c, by omega⟩
  have hk' : k = 0 ∨ k = 1 := by omega
  clear h ha hb
  rcases hk' with rfl | rfl <;> omega

/-- The two subtractions as one of 24 bits. -/
theorem sub_chain {v v' x7 y7 x6 y6 b c : ℕ} (h7 : v + y7 = x7 + 65536 * b)
    (h6 : v' + y6 + b = x6 + 256 * c) :
    v + 65536 * v' + (y6 * 65536 + y7) = x6 * 65536 + x7 + 2 ^ 24 * c := by
  omega

/-- Negating a nonzero word. -/
theorem toNat_neg {r : BitVec 16} (hr : r.toNat ≠ 0) : (sub 0 r).val.toNat = 65536 - r.toNat := by
  have h := sub_spec 0 r
  have h0 : (0 : BitVec 16).toNat = 0 := rfl
  have hv := (sub 0 r).val.isLt
  rw [h0, Nat.zero_add] at h
  omega

/-- What the alignment does to operands of different exponents: the one with the larger exponent
is in the accumulator, the digits of the other are shifted by the difference. -/
structure Aligned (s : Acc) (o p : Op) (a : Alignment) : Prop where
  big : a.s = { s with toOp := o }
  expo : p.expo ≤ o.expo
  small : Sticky (o.expo - p.expo).toNat p.digits (wideOf (a.small, a.rh1))

theorem lob_min {r : BitVec 16} :
    (lob (if r.toNat ≤ 66 then r else 66)).toNat = min r.toNat 66 := by
  have h66 : (66 : BitVec 16).toNat = 66 := rfl
  rw [toNat_lob]
  split_ifs with h
  · rw [min_eq_left h]
    omega
  · rw [min_eq_right (by omega), h66]

theorem hib_min {r : BitVec 16} : hib (if r.toNat ≤ 66 then r else 66) = 0 := by
  apply BitVec.eq_of_toNat_eq
  have h0 : (0 : BitVec 8).toNat = 0 := rfl
  have h66 : (66 : BitVec 16).toNat = 66 := rfl
  rw [toNat_hib, h0]
  split_ifs with h <;> omega

/-- The shift of the smaller operand. -/
theorem sticky_shift {q : Quad} (r : BitVec 16) (hq : 0 < q.toNat) :
    Sticky r.toNat q.toNat (wideOf
      (fsub14^[(lob (if r.toNat ≤ 66 then r else 66)).toNat]
        (q, hib (if r.toNat ≤ 66 then r else 66)))) := by
  have h0 : wideOf (q, 0) = 256 * q.toNat := (Nat.add_zero _).trans (Nat.mul_comm _ _)
  rw [fsub14_iterate_wide, lob_min, hib_min, h0]
  exact sticky_iterate hq q.toNat_lt

/-- **Aligning** brings the larger exponent into the accumulator. -/
theorem align_spec {dst : Op} {s : Acc} (hd : dst.InFormat) (hs : s.toOp.InFormat)
    (hdn : 0 < dst.digits) (hsn : 0 < s.digits) :
    Aligned s s.toOp dst (align dst s) ∨ Aligned s dst s.toOp (align dst s) := by
  obtain ⟨m, hm⟩ := dst.expBits_eq
  obtain ⟨n, hn⟩ := s.expBits_eq
  have hmsb := msb_eq_true_iff (sbc dst.rl6 s.rl6 (sub dst.r7 s.r7).c).val
  have hcases := apart_cases
    (sub_chain (sub_spec dst.r7 s.r7) (sbc_spec dst.rl6 s.rl6 (sub dst.r7 s.r7).c))
    (sub dst.r7 s.r7).val.isLt (sbc dst.rl6 s.rl6 (sub dst.r7 s.r7).c).val.isLt
    hm hn hd hs
  rcases hcases with ⟨hz, heq⟩ | ⟨hz, hge, hlt, hdist⟩ | ⟨hz, hge, hlt, hdist⟩
  · have hz' : (sub dst.r7 s.r7).val = 0 := BitVec.eq_of_toNat_eq hz
    have hw : wideOf (dst.rq8, hib 0) = 256 * dst.digits :=
      (Nat.add_zero _).trans (Nat.mul_comm _ _)
    left
    simp only [align, hz', if_true]
    refine ⟨rfl, heq.le, Or.inl ?_⟩
    rw [heq, sub_self, Int.toNat_zero, hw, pow_zero, div_one]
    exact ⟨roundOdd_natCast _, fun _ => Nat.one_mul _⟩
  · have hz' : ¬ (sub dst.r7 s.r7).val = 0 := fun h => hz (congrArg BitVec.toNat h)
    left
    simp only [align, if_neg hz', hmsb.mpr hge, if_true]
    refine ⟨rfl, hlt.le, ?_⟩
    rw [← hdist, ← toNat_neg hz]
    exact sticky_shift _ hdn
  · have hz' : ¬ (sub dst.r7 s.r7).val = 0 := fun h => hz (congrArg BitVec.toNat h)
    right
    simp only [align, if_neg hz', if_neg (mt hmsb.mp (not_le.mpr hge))]
    refine ⟨rfl, hlt.le, ?_⟩
    rw [← hdist]
    exact sticky_shift _ hsn

/-! ## 4. The magnitudes added and subtracted -/

/-- The accumulator stands for the exact number `X`, ready to be checked and rounded. -/
structure Stands (t : Acc) (X : ℚ) : Prop where
  normal : t.Normal
  clean : t.inexact = false
  exact : ∃ (x : ℚ) (E m : ℤ), RoundOdd (4 * x) t.grs ∧ (t.expBits : ℤ) = E + 2 ^ 24 * m ∧
    X = signed t.neg (x * 2 ^ (E - bias - 63))

theorem Stands.roundsTo {e : Env} {t : Acc} {X : ℚ} (h : Stands t X) (he : e.Register)
    (hr : InRange X) : RoundsTo e (round e (under e t)) X := by
  obtain ⟨x, E, m, hodd, hE, rfl⟩ := h.exact
  exact finish_roundsTo he h.normal h.clean hodd hE hr

theorem Stands.ne_zero {t : Acc} {X : ℚ} (h : Stands t X) : X ≠ 0 := by
  obtain ⟨x, E, m, hodd, -, rfl⟩ := h.exact
  obtain ⟨h1, -⟩ := roundOdd_grs_bounds h.normal hodd
  have hx : x ≠ 0 := (lt_of_lt_of_le (by norm_num) h1).ne'
  have hne : x * 2 ^ (E - bias - 63) ≠ 0 := mul_ne_zero hx (zpow_ne_zero _ (by norm_num))
  cases t.neg
  · exact hne
  · exact neg_ne_zero.mpr hne

/-- An operand with nothing shifted out stands for its own value. -/
theorem stands_val {t : Acc} (hn : t.Normal) (hc : t.inexact = false) (h5 : t.rl5 = 0) :
    Stands t t.val := by
  obtain ⟨m, hm⟩ := t.expBits_eq
  have hw : t.wide = 256 * t.digits := by
    rw [Acc.wide, h5]
    exact (Nat.add_zero _).trans (Nat.mul_comm _ _)
  have hg : t.grs = 4 * t.digits := by
    rw [Acc.grs_eq_jam, hw, jam_64]
  have hodd : RoundOdd (4 * (t.digits : ℚ)) t.grs := by
    rw [hg]
    exact Or.inl (by push_cast; rfl)
  refine ⟨hn, hc, t.digits, t.expo, m, hodd, hm, ?_⟩
  rw [Op.val, Op.mag]

/-- The magnitude of the operand with the smaller exponent, at the other one's scale. -/
theorem mag_scaled {o p : Op} (h : p.expo ≤ o.expo) :
    p.mag = (p.digits : ℚ) / 2 ^ (o.expo - p.expo).toNat * 2 ^ (o.expo - bias - 63) := by
  have hd : ((o.expo - p.expo).toNat : ℤ) = o.expo - p.expo := Int.toNat_of_nonneg (by omega)
  rw [Op.mag, div_mul_eq_mul_div, mul_div_assoc, ← zpow_natCast, hd,
    ← zpow_sub₀ (by norm_num : (2 : ℚ) ≠ 0)]
  congr 2
  ring

/-- The sum of two operands of one sign. -/
theorem val_add_same {o p : Op} (h : p.expo ≤ o.expo) (hs : p.neg = o.neg) :
    o.val + p.val = signed o.neg (((o.digits : ℚ) + p.digits / 2 ^ (o.expo - p.expo).toNat) *
      2 ^ (o.expo - bias - 63)) := by
  rw [Op.val, Op.val, hs, mag_scaled h, Op.mag]
  cases o.neg <;> simp <;> ring

/-- The sum of two operands of different signs. -/
theorem val_add_opposite {o p : Op} (h : p.expo ≤ o.expo) (hs : p.neg = !o.neg) :
    o.val + p.val = signed o.neg (((o.digits : ℚ) - p.digits / 2 ^ (o.expo - p.expo).toNat) *
      2 ^ (o.expo - bias - 63)) := by
  rw [Op.val, Op.val, hs, mag_scaled h, Op.mag]
  cases o.neg <;> simp <;> ring

/-- The sum of significands as one number. -/
theorem wide_add {q c x y b : ℕ} (h : q + 2 ^ 64 * c = x + y) :
    q * 256 + b + 2 ^ 72 * c = 256 * x + (y * 256 + b) := by
  omega

/-- One added to the exponent. -/
def bumpExp (u : Acc) : Acc :=
  { u with r7 := (add u.r7 1).val, rl6 := (adc u.rl6 0 (add u.r7 1).c).val }

theorem bumpExp_rh6 (u : Acc) : (bumpExp u).rh6 = u.rh6 := rfl

theorem bumpExp_rh5 (u : Acc) : (bumpExp u).rh5 = u.rh5 := rfl

theorem bumpExp_wide (u : Acc) : (bumpExp u).wide = u.wide := by
  rw [bumpExp, Acc.wide, Acc.wide, Op.digits, Op.digits]

theorem bumpExp_expBits (u : Acc) : (bumpExp u).expBits = (u.expBits + 1) % 2 ^ 24 := by
  rw [← expBits_inc, bumpExp, Op.expBits]

/-- The two outcomes of adding, without and with a carry. -/
theorem addMag_of_clear {a : Alignment} (hc : (addlq a.s.rq8 a.small).c = false) :
    addMag a = { a.s with rq8 := (addlq a.s.rq8 a.small).val, rl5 := a.rh1 } := by
  simp only [addMag, hc, Bool.false_eq_true, if_false]

theorem addMag_of_carry {a : Alignment} (hc : (addlq a.s.rq8 a.small).c = true) :
    addMag a = bumpExp
      (shifD1 true { a.s with rq8 := (addlq a.s.rq8 a.small).val, rl5 := a.rh1 }) := by
  simp only [addMag, hc, if_true, shiftdigs_one, bumpExp]

/-- What adding leaves: the wide sum, or after a carry the sum halved with the exponent one
up. -/
theorem addMag_spec (a : Alignment) :
    (addMag a).rh6 = a.s.rh6 ∧ (addMag a).rh5 = a.s.rh5 ∧
      ((addMag a).wide = 256 * a.s.digits + wideOf (a.small, a.rh1) ∧
          (addMag a).expBits = a.s.expBits ∨
        2 ^ 72 ≤ 256 * a.s.digits + wideOf (a.small, a.rh1) ∧
          (addMag a).wide = jam 2 (256 * a.s.digits + wideOf (a.small, a.rh1)) ∧
          (addMag a).expBits = (a.s.expBits + 1) % 2 ^ 24) := by
  have hw : (addlq a.s.rq8 a.small).val.toNat * 256 + a.rh1.toNat +
      2 ^ 72 * (addlq a.s.rq8 a.small).c.toNat =
      256 * a.s.digits + wideOf (a.small, a.rh1) := by
    rw [wideOf, Op.digits]
    exact wide_add (addlq_spec a.s.rq8 a.small)
  cases hc : (addlq a.s.rq8 a.small).c with
  | false =>
    rw [hc, Bool.toNat_false, Nat.mul_zero, Nat.add_zero] at hw
    rw [addMag_of_clear hc]
    generalize (addlq a.s.rq8 a.small).val = q at hw
    exact ⟨rfl, rfl, Or.inl ⟨(Acc.wide_update a.s q a.rh1).trans hw, Acc.expBits_update a.s q a.rh1⟩⟩
  | true =>
    rw [hc, Bool.toNat_true, Nat.mul_one] at hw
    rw [addMag_of_carry hc]
    generalize (addlq a.s.rq8 a.small).val = q at hw
    have hwide : (2 : ℕ) ^ 72 ≤ 256 * a.s.digits + wideOf (a.small, a.rh1) := by
      rw [← hw]
      exact Nat.le_add_left _ _
    refine ⟨by rw [bumpExp_rh6, shifD1_rh6], by rw [bumpExp_rh5, shifD1_rh5],
      Or.inr ⟨hwide, ?_, ?_⟩⟩
    · rw [bumpExp_wide, shifD1_wide, Acc.wide_update, Bool.toNat_true, Nat.mul_one, hw]
    · rw [bumpExp_expBits, shifD1_expBits, Acc.expBits_update]

theorem jam_two_ge {X : ℕ} (h : 2 ^ 72 ≤ X) : 2 ^ 71 ≤ jam 2 X := by
  rw [jam]
  split_ifs <;> omega

theorem wide_normal {B : ℕ} (h : 2 ^ 63 ≤ B) (W : ℕ) : 2 ^ 71 ≤ 256 * B + W := by
  omega

/-- **Adding magnitudes.** -/
theorem addMag_stands {s : Acc} {o p : Op} {a : Alignment} (h : Aligned s o p a)
    (hn : o.Normal) (hs : p.neg = o.neg) (hc : s.inexact = false) :
    Stands (addMag a) (o.val + p.val) := by
  obtain ⟨hbig, hexpo, hsmall⟩ := h
  obtain ⟨h6, h5, hcases⟩ := addMag_spec a
  obtain ⟨m, hm⟩ := o.expBits_eq
  have hneg : (addMag a).neg = o.neg := by rw [Op.neg, h6, hbig, Op.neg]
  have hflag : (addMag a).inexact = false := by
    rw [Acc.inexact, h5, hbig]
    exact hc
  have hdig : a.s.digits = o.digits := by rw [hbig]
  have hexp : a.s.expBits = o.expBits := by rw [hbig]
  rw [hdig, hexp] at hcases
  rw [val_add_same hexpo hs]
  rcases hcases with ⟨hw, he⟩ | ⟨hcarry, hw, he⟩
  · refine ⟨Acc.normal_of_wide _ ?_, hflag, (o.digits : ℚ) + p.digits / 2 ^ (o.expo - p.expo).toNat,
      o.expo, m, ?_, ?_, ?_⟩
    · rw [hw]
      exact wide_normal hn _
    · rw [Acc.grs_eq_jam, hw]
      exact sum_odd hsmall p.digits_lt
    · rw [he, hm]
    · rw [hneg]
  · refine ⟨Acc.normal_of_wide _ ?_, hflag,
      ((o.digits : ℚ) + p.digits / 2 ^ (o.expo - p.expo).toNat) / 2, o.expo + 1,
      m - ((o.expBits + 1) / 2 ^ 24 : ℕ), ?_, ?_, ?_⟩
    · rw [hw]
      exact jam_two_ge hcarry
    · rw [Acc.grs_eq_jam, hw]
      exact carry_odd hsmall o.digits_lt hcarry
    · rw [he]
      generalize o.expBits = b at hm
      omega
    · have hz : (2 : ℚ) ^ (o.expo + 1 - bias - 63) = 2 ^ (o.expo - bias - 63) * 2 := by
        rw [← zpow_add_one₀ (by norm_num)]
        congr 1
        ring
      rw [hneg, hz]
      congr 1
      ring

/-- A difference of significands with its rounding byte. -/
theorem wide_sub {v y c x l b c' : ℕ} (hl : l + b = 256 * c) (hq : v + y + c = x + 2 ^ 64 * c')
    (hv : v < 2 ^ 64) (hb : l < 256) (h : y * 256 + b ≤ 256 * x) :
    v * 256 + l = 256 * x - (y * 256 + b) := by
  have hc' : c' = 0 := by omega
  subst hc'
  omega

/-- The digits of a difference of magnitudes. -/
theorem fsub33_digits {x y : Quad} {b : BitVec 8}
    (h : y.toNat * 256 + b.toNat ≤ 256 * x.toNat) :
    (sbcq x y (sub 0 b).c).val.toNat * 256 + (sub 0 b).val.toNat =
      256 * x.toNat - (y.toNat * 256 + b.toNat) := by
  have hl := sub_spec 0 b
  have h0 : (0 : BitVec 8).toNat = 0 := rfl
  rw [h0, Nat.zero_add] at hl
  exact wide_sub hl (sbcq_spec x y (sub 0 b).c) (sbcq x y (sub 0 b).c).val.toNat_lt
    (sub 0 b).val.isLt h

/-- A word with its leading bit set is not zero. -/
theorem word_ne_zero {h l : BitVec 8} (h7 : h.getLsbD 7 = true) : word h l ≠ 0 := by
  intro hz
  have h8 := congrArg BitVec.toNat hz
  have h00 : (0 : BitVec 16).toNat = 0 := rfl
  rw [getLsbD_eq_true_iff] at h7
  rw [toNat_word, h00] at h8
  omega

/-- **Subtracting magnitudes** returns, and leaves the normalised difference. -/
theorem fsub33_stands (rl0 : BitVec 8) {s : Acc} {small : Quad} {rh0 rh1 : BitVec 8} {d S : ℕ}
    {E m : ℤ} (h7 : rh0.getLsbD 7 = true) (hn : s.Normal) (hc : s.inexact = false)
    (hsmall : Sticky d S (wideOf (small, rh1))) (hS : S < 2 ^ 64)
    (hlt : wideOf (small, rh1) < 256 * s.digits) (hE : (s.expBits : ℤ) = E + 2 ^ 24 * m) :
    ∃ t, fsub33 rh0 rh1 rl0 s small = some t ∧
      Stands t (signed s.neg (((s.digits : ℚ) - S / 2 ^ d) * 2 ^ (E - bias - 63))) := by
  have hd : (sbcq s.rq8 small (sub 0 rh1).c).val.toNat * 256 + (sub 0 rh1).val.toNat =
      256 * s.digits - wideOf (small, rh1) := fsub33_digits hlt.le
  obtain ⟨u, hu⟩ : ∃ u : Acc, u =
      { s with rq8 := (sbcq s.rq8 small (sub 0 rh1).c).val, rl5 := (sub 0 rh1).val } := ⟨_, rfl⟩
  have hw : u.wide = 256 * s.digits - wideOf (small, rh1) := by
    rw [← hd, hu, Acc.wide, Op.digits]
  have hue : u.expBits = s.expBits := by rw [hu, Op.expBits, Op.expBits]
  have hu0 : u.wide ≠ 0 := by
    rw [hw]
    exact Nat.sub_ne_zero_of_lt hlt
  obtain ⟨n, t, ht, hN⟩ := normdigs_spec (word_ne_zero (l := rl0) h7) hu0
  have hwide : t.wide = 2 ^ n * (256 * s.digits - wideOf (small, rh1)) := by rw [hN.wide, hw]
  have hodd := diff_odd hsmall hn hS hlt.le (hwide ▸ t.wide_lt)
  rw [← hwide, ← Acc.grs_eq_jam] at hodd
  have h6 : t.rh6 = s.rh6 := by rw [hN.rh6, hu]
  have h5 : t.rh5 = s.rh5 := by rw [hN.rh5, hu]
  refine ⟨t, ?_, hN.normal, ?_, 2 ^ n * ((s.digits : ℚ) - S / 2 ^ d), E - n,
    m + ((t.expBits + n) / 2 ^ 24 : ℕ), hodd, ?_, ?_⟩
  · rw [fsub33, ← hu]
    exact ht
  · rw [Acc.inexact, h5]
    exact hc
  · have he := hN.expBits
    rw [hue] at he
    generalize t.expBits = b at he
    generalize s.expBits = b' at he hE
    omega
  · have hz : (2 : ℚ) ^ (E - bias - 63) = 2 ^ n * 2 ^ (E - n - bias - 63) := by
      rw [← zpow_natCast, ← zpow_add₀ (by norm_num)]
      congr 1
      ring
    rw [Op.neg, Op.neg, h6, hz]
    congr 1
    ring

/-! ## 5. Adding two numbers -/

/-- Digits that are not below a normalised significand have not been shifted. -/
theorem Sticky.unshifted {d S B y b : ℕ} (h : Sticky d S (y * 256 + b)) (hS : S < 2 ^ 64)
    (hB : 2 ^ 63 ≤ B) (hb : b < 256) (hle : B ≤ y) : d = 0 ∧ y = S ∧ b = 0 := by
  have hd : d = 0 := by
    by_contra hd
    have := h.lt_of_pos (Nat.pos_of_ne_zero hd) hS
    omega
  subst hd
  rcases h with ⟨-, h⟩ | ⟨h, -⟩
  · have := h (by omega)
    omega
  · omega

theorem swap_wide {x : Quad} {b : BitVec 8} {B : ℕ} (hx : x.toNat = B) (hb : b.toNat = 0) :
    wideOf (x, b) = 256 * B := by
  simp only [wideOf]
  omega

theorem wide_lt {x y : Quad} {b : BitVec 8} (h : y.toNat < x.toNat) (hb : b.toNat < 256) :
    wideOf (y, b) < 256 * x.toNat := by
  simp only [wideOf]
  omega

/-- **Adding** two numbers leaves the exact sum ready to be rounded, or cancels to zero. -/
theorem addno_spec (e : Env) {dst : Op} {s : Acc} (hd : dst.InFormat) (hs : s.toOp.InFormat)
    (hdn : dst.Normal) (hsn : s.Normal) (hc : s.inexact = false) :
    (∃ t, addno e dst s = some (.fsub52 t) ∧ Stands t (dst.val + s.val)) ∨
      (dst.val + s.val = 0 ∧ dst.neg ≠ s.neg ∧
        ∃ u : Acc, u.inexact = false ∧ addno e dst s = some (.fsub57 (fsub37 e u))) := by
  have hxor : (dst.rh6 ^^^ s.rh6).getLsbD 7 = (dst.neg ^^ s.neg) := BitVec.getLsbD_xor
  have hpos : ∀ x : Op, x.Normal → 0 < x.digits := fun x h => lt_of_lt_of_le (by norm_num) h
  -- one of the two orders of the operands
  obtain ⟨o, p, ha, hon, hpn, hsum, hsgn⟩ : ∃ o p : Op, Aligned s o p (align dst s) ∧ o.Normal ∧
      p.Normal ∧ dst.val + s.val = o.val + p.val ∧ (dst.neg ^^ s.neg) = (p.neg ^^ o.neg) := by
    rcases align_spec hd hs (hpos _ hdn) (hpos _ hsn) with h | h
    · exact ⟨s.toOp, dst, h, hsn, hdn, add_comm _ _, rfl⟩
    · exact ⟨dst, s.toOp, h, hdn, hsn, rfl, Bool.xor_comm _ _⟩
  rw [hsum]
  cases hx : (dst.neg ^^ s.neg) with
  | false =>
    left
    have hsame : p.neg = o.neg := by
      rw [hsgn] at hx
      simpa using hx
    refine ⟨addMag (align dst s), ?_, addMag_stands ha hon hsame hc⟩
    rw [addno, hxor, hx]
    rfl
  | true =>
    have hopp : p.neg = !o.neg := by
      rw [hsgn] at hx
      cases hp : p.neg <;> cases ho : o.neg <;> rw [hp, ho] at hx <;> simp at hx ⊢
    have hne : dst.neg ≠ s.neg := by
      intro h
      rw [h, Bool.xor_self] at hx
      exact Bool.false_ne_true hx
    have h7 : (dst.rh6 ^^^ s.rh6).getLsbD 7 = true := hxor.trans hx
    have hun : o.digits ≤ (align dst s).small.toNat → (o.expo - p.expo).toNat = 0 ∧
        (align dst s).small.toNat = p.digits ∧ (align dst s).rh1.toNat = 0 :=
      ha.small.unshifted p.digits_lt hon (align dst s).rh1.isLt
    obtain ⟨m, hm⟩ := o.expBits_eq
    rw [val_add_opposite ha.expo hopp]
    have hbn : (align dst s).s.Normal := by
      rw [ha.big]
      exact hon
    have hbc : (align dst s).s.inexact = false := by
      rw [ha.big]
      exact hc
    have hbd : (align dst s).s.digits = o.digits := by rw [ha.big]
    have hbe : (align dst s).s.expBits = o.expBits := by rw [ha.big]
    have hbs : (align dst s).s.neg = o.neg := by rw [ha.big]
    rw [addno, if_pos h7]
    generalize align dst s = a at *
    have hsd : a.s.rq8.toNat = o.digits := hbd
    rw [← hbe] at hm
    rcases cplq_cases a.s.rq8 a.small with ⟨hcmp, hlt⟩ | ⟨hcmp, heq⟩ | ⟨hcmp, hgt⟩
    · -- the other operand is the larger one after all: swap, and reverse the sign
      obtain ⟨hd0, hsmall, hb0⟩ := hun (hsd ▸ hlt.le)
      obtain ⟨s', hs'⟩ : ∃ s' : Acc, s' = { a.s with rq8 := a.small, rh6 := a.s.rh6 ^^^ 0x80 } :=
        ⟨_, rfl⟩
      have hd' : s'.digits = p.digits := by rw [hs', Op.digits, hsmall]
      have hneg' : s'.neg = !o.neg := by
        rw [hs', Op.neg, BitVec.getLsbD_xor, ← hbs, Op.neg]
        exact Bool.xor_true _
      have hn' : s'.Normal := by
        rw [Op.Normal, hd']
        exact hpn
      have hc' : s'.inexact = false := by
        rw [hs', Acc.inexact]
        exact hbc
      have he' : (s'.expBits : ℤ) = o.expo + 2 ^ 24 * m := by
        rw [← hm, hs', Op.expBits, Op.expBits]
      have hst : Sticky 0 o.digits (wideOf (a.s.rq8, a.rh1)) := by
        refine Or.inl ⟨?_, fun _ => ?_⟩
        · have hw : wideOf (a.s.rq8, a.rh1) = 256 * o.digits := swap_wide hsd hb0
          rw [hw, pow_zero, div_one]
          exact roundOdd_natCast _
        · rw [Nat.pow_zero, Nat.one_mul]
          exact swap_wide hsd hb0
      have hltw : wideOf (a.s.rq8, a.rh1) < 256 * s'.digits := by
        rw [hd']
        exact (swap_wide hsd hb0).trans_lt
          (Nat.mul_lt_mul_of_pos_left (by rw [← hsmall, ← hsd]; exact hlt) (by norm_num))
      obtain ⟨t, ht, hstands⟩ := fsub33_stands a.rl0 h7 hn' hc' hst o.digits_lt hltw he'
      left
      refine ⟨t, ?_, ?_⟩
      · simp only [hcmp]
        rw [← hs', ht]
        rfl
      · rw [hneg', hd', pow_zero, div_one] at hstands
        rw [hd0, pow_zero, div_one]
        convert hstands using 1
        cases o.neg <;> simp <;> ring
    · -- equal magnitudes cancel
      obtain ⟨hd0, hsmall, -⟩ := hun (hsd ▸ heq.le)
      have hBS : o.digits = p.digits := by rw [← hsd, heq, hsmall]
      right
      refine ⟨?_, hne, a.s, hbc, ?_⟩
      · rw [hd0, hBS, pow_zero, div_one, sub_self, zero_mul]
        cases o.neg
        · rfl
        · exact neg_zero
      · simp only [hcmp]
    · have hltw : wideOf (a.small, a.rh1) < 256 * a.s.digits := wide_lt hgt a.rh1.isLt
      obtain ⟨t, ht, hstands⟩ :=
        fsub33_stands a.rl0 h7 hbn hbc ha.small p.digits_lt hltw hm
      left
      refine ⟨t, ?_, ?_⟩
      · simp only [hcmp]
        rw [ht]
        rfl
      · rw [hbs, hbd] at hstands
        exact hstands

/-! ## 6. Zeros -/

/-- A zero of the given sign, with nothing lost. -/
structure IsZero (s : Acc) (neg : Bool) : Prop where
  digits : s.digits = 0
  expBits : s.expBits = 0
  neg : s.neg = neg
  exact : s.inexact = false

/-- The sign of an exact zero sum of operands of the given signs. -/
def zeroSign (e : Env) (a b : Bool) : Bool :=
  if a = b then a else decide (e.mode = .minusInf)

/-- Checking and rounding a zero leaves it alone. -/
theorem round_zero {e : Env} {s : Acc} {neg : Bool} (he : e.Register) (h : IsZero s neg)
    (h5 : s.rl5 = 0) : IsZero (round e (under e s)) neg := by
  have hu : under e s = s := under_of_inRange he (by rw [h.expBits]; norm_num)
  have hg : s.grs = 0 := by
    have hw : s.wide = 0 := by
      have h0 : (0 : BitVec 8).toNat = 0 := rfl
      rw [Acc.wide, h.digits, h5, h0]
    rw [Acc.grs_eq_jam, hw]
    rfl
  have hj : jammed e s = 0 := by rw [jammed, hg, jam, if_pos (Nat.zero_mod _), Nat.zero_div]
  have hr : rounded e s = 0 := by
    rw [rounded, hj, roundNat]
    cases e.mode <;> cases s.neg <;> rfl
  obtain ⟨h6, hflag, hcases⟩ := round_spec e s
  rw [hj, hr] at *
  have hpow : 0 ≠ 2 ^ e.prec := (Nat.two_pow_pos _).ne
  rw [hu]
  rcases hcases with ⟨-, hd, he⟩ | ⟨hbad, -⟩
  · refine ⟨by rw [hd, Nat.zero_mul], by rw [he, h.expBits], ?_, ?_⟩
    · rw [Op.neg, h6]
      exact h.neg
    · rw [hflag, h.exact]
      rfl
  · exact absurd hbad hpow

/-- The mode that makes an exact zero negative. -/
theorem minusInf_iff (e : Env) : 0x0C &&& e.modes = 0x0C ↔ e.mode = .minusInf := by
  have hbits : 0x0C &&& e.modes = 0x0C ↔ e.modes.getLsbD 3 = true ∧ e.modes.getLsbD 2 = true := by
    have hfield := toNat_and_field 0x0C e.modes 2 2 rfl
    rw [← BitVec.toNat_inj, hfield, getLsbD_eq_true_iff, getLsbD_eq_true_iff]
    have h12 : (0x0C : BitVec 8).toNat = 12 := rfl
    omega
  rw [hbits, Env.mode]
  cases e.modes.getLsbD 3 <;> cases e.modes.getLsbD 2 <;> simp

/-- Cancellation leaves a zero, positive unless rounding goes towards minus infinity. -/
theorem fsub37_isZero (e : Env) {s : Acc} (hc : s.inexact = false) :
    IsZero (fsub37 e s) (decide (e.mode = .minusInf)) := by
  have h0 : (fsub37 e s).digits = Quad.zero.toNat := rfl
  refine ⟨h0.trans Quad.toNat_zero, (by decide : (0 : BitVec 8).toNat * 65536 + (0 : BitVec 16).toNat = 0), ?_, hc⟩
  have h : (fsub37 e s).neg =
      (if 0x0C &&& e.modes = 0x0C then set 0 7 else (0 : BitVec 8)).getLsbD 7 := rfl
  rw [h]
  by_cases hm : 0x0C &&& e.modes = 0x0C
  · rw [if_pos hm, decide_eq_true ((minusInf_iff e).mp hm)]
    rfl
  · rw [if_neg hm, decide_eq_false (mt (minusInf_iff e).mpr hm)]
    rfl

/-- The registers of a zero. -/
theorem Zero.regs (z : Zero) : z.toOp = ⟨z.rh6, 0, 0, Quad.zero⟩ := by
  obtain ⟨⟨rh6, rl6, r7, rq8⟩, hd, he⟩ := z
  have hq : rq8 = Quad.zero := (Quad.toNat_eq_zero_iff rq8).mp hd
  simp only [Op.expBits] at he
  have h6 : rl6 = 0 := eq_zero_of_toNat (by omega)
  have h7 : r7 = 0 := eq_zero_of_toNat (by omega)
  subst hq h6 h7
  rfl

/-- **Adding** two zeros. -/
theorem addno_zero (e : Env) (he : e.Register) (x y : Zero) (f : Clean) :
    ∃ t, addno e x.toOp (y.start f) = some t ∧
      IsZero (t.rounded e) (zeroSign e x.neg y.neg) ∧ t.finish e = t.rounded e := by
  have hxor : (x.rh6 ^^^ (y.start f).rh6).getLsbD 7 = (x.neg ^^ y.neg) := BitVec.getLsbD_xor
  have hy : y.start f = ⟨⟨y.rh6, 0, 0, Quad.zero⟩, f.rh5, 0⟩ := by
    rw [Op.start, Zero.regs y]
  have hal : align x.toOp (y.start f) = ⟨y.start f, Quad.zero, 0, 0⟩ := by
    have hsub : sub (0 : BitVec 16) 0 = ⟨0, false⟩ := by decide +kernel
    have hhib : hib 0 = 0 := by decide +kernel
    rw [hy, Zero.regs x]
    simp only [align, hsub, hhib, if_true]
  rw [addno, hxor, hal]
  cases hs : (x.neg ^^ y.neg) with
  | true =>
    have hne : x.neg ≠ y.neg := by
      intro h
      rw [h, Bool.xor_self] at hs
      exact Bool.false_ne_true hs
    have hq : (y.start f).rq8 = Quad.zero := by rw [hy]
    refine ⟨.fsub57 (fsub37 e (y.start f)), ?_, ?_, rfl⟩
    · have hcmp : cplq Quad.zero Quad.zero = .eq := rfl
      simp only [hq, hcmp, if_true]
    · rw [zeroSign, if_neg hne]
      exact fsub37_isZero e f.exact
  | false =>
    have heq : x.neg = y.neg := by
      revert hs
      cases x.neg <;> cases y.neg <;> simp
    have hadd : addMag ⟨y.start f, Quad.zero, 0, 0⟩ = y.start f := by
      have hq : addlq Quad.zero Quad.zero = ⟨Quad.zero, false⟩ := by decide +kernel
      have hc : (addlq (y.start f).rq8 Quad.zero).c = false := by rw [hy, hq]
      rw [addMag_of_clear hc, hy, hq]
    have hz : IsZero (y.start f) y.neg := ⟨y.digits_eq, y.expBits_eq, rfl, f.exact⟩
    have hround := round_zero he hz rfl
    refine ⟨.fsub52 (y.start f), ?_, ?_, ?_⟩
    · rw [hadd]
      rfl
    · rw [zeroSign, if_pos heq, heq]
      exact hround
    · exact overRange_of_inRange he (by
        have := hround.expBits
        rw [this]
        norm_num)

/-! ## 7. The operations -/

/-- The value of an operand. -/
def Finite.val (x : Finite) : ℚ := x.op.val

/-- The sign of an operand. -/
def Finite.neg (x : Finite) : Bool := x.op.neg

/-- **What addition and subtraction have to deliver** for the exact result `X`, a zero having
the sign `zneg`: `X` rounded once where it is in the range, with the range check that follows
leaving that alone unless rounding carried it out of the range; and an exact zero. -/
structure Delivers (e : Env) (t : Exit) (X : ℚ) (zneg : Bool) : Prop where
  rounds : X ≠ 0 → InRange X → RoundsTo e (t.rounded e) X
  zero : X = 0 → IsZero (t.rounded e) zneg
  finish : (t.rounded e).expBits ≤ 0x7FFE → t.finish e = t.rounded e

/-- What stands for the exact result before the checks is delivered. -/
theorem Stands.delivers {e : Env} {t : Acc} {X : ℚ} (h : Stands t X) (he : e.Register)
    (zneg : Bool) : Delivers e (.fsub52 t) X zneg :=
  ⟨fun _ hr => h.roundsTo he hr, fun h0 => absurd h0 h.ne_zero,
    fun hE => overRange_of_inRange he hE⟩

/-- Every entry of the dispatch table delivers the sum. -/
theorem Fadd_delivers (e : Env) (he : e.Register) (x y : Finite) (f : Clean) :
    ∃ t, Fadd e x y f = some t ∧ Delivers e t (x.val + y.val) (zeroSign e x.neg y.neg) := by
  cases x with
  | num x =>
    cases y with
    | num y =>
      rcases addno_spec e (s := y.start f) x.range y.range x.normal y.normal f.exact with
        ⟨t, ht, hst⟩ | ⟨h0, hne, u, hflag, ht⟩
      · exact ⟨_, ht, hst.delivers he _⟩
      · refine ⟨_, ht, fun h => absurd h0 h, fun _ => ?_, fun _ => rfl⟩
        have hsgn : zeroSign e x.neg y.neg = decide (e.mode = .minusInf) := if_neg hne
        change IsZero (fsub37 e u) (zeroSign e x.neg y.neg)
        rw [hsgn]
        exact fsub37_isZero e hflag
    | zero y =>
      have hst := stands_val (t := { y.start f with toOp := x.toOp }) x.normal f.exact rfl
      have hv : (Finite.num x).val + (Finite.zero y).val = x.val := by
        change x.val + y.val = x.val
        rw [y.val_eq, add_zero]
      rw [hv]
      exact ⟨_, rfl, hst.delivers he _⟩
  | zero x =>
    cases y with
    | num y =>
      have hst := stands_val (t := y.start f) y.normal f.exact rfl
      have hv : (Finite.zero x).val + (Finite.num y).val = y.val := by
        change x.val + y.val = y.val
        rw [x.val_eq, zero_add]
      rw [hv]
      exact ⟨_, rfl, hst.delivers he _⟩
    | zero y =>
      obtain ⟨t, ht, hz, hfin⟩ := addno_zero e he x y f
      have hv : (Finite.zero x).val + (Finite.zero y).val = 0 := by
        change x.val + y.val = 0
        rw [x.val_eq, y.val_eq, add_zero]
      rw [hv]
      exact ⟨t, ht, fun h => absurd rfl h, fun _ => hz, fun _ => hfin⟩

/-- The operand with its sign reversed. -/
def Op.reverse (o : Op) : Op := { o with rh6 := o.rh6 ^^^ 0x80 }

@[simp] theorem Op.neg_reverse (o : Op) : o.reverse.neg = !o.neg := by
  rw [reverse, Op.neg, BitVec.getLsbD_xor]
  exact Bool.xor_true _

@[simp] theorem Op.val_reverse (o : Op) : o.reverse.val = -o.val := by
  have hm : o.reverse.mag = o.mag := rfl
  rw [Op.val, neg_reverse, hm, Op.val]
  cases o.neg
  · rfl
  · exact (neg_neg _).symm

/-- The same for an operand with its kind. -/
def Finite.reverse : Finite → Finite
  | .num o => .num ⟨o.toOp.reverse, o.normal, o.range⟩
  | .zero o => .zero ⟨o.toOp.reverse, o.digits_eq, o.expBits_eq⟩

/-- Subtracting is adding the source reversed. -/
theorem Fsub_eq_Fadd (e : Env) (x y : Finite) (f : Clean) :
    Fsub e x y f = Fadd e x y.reverse f := by
  cases x <;> cases y <;> rfl

@[simp] theorem Finite.val_reverse (x : Finite) : x.reverse.val = -x.val := by
  cases x <;> exact Op.val_reverse _

@[simp] theorem Finite.neg_reverse (x : Finite) : x.reverse.neg = !x.neg := by
  cases x <;> exact Op.neg_reverse _

/-- **Correct rounding of addition and subtraction.**  For finite operands of any signs and
exponents both return; a result in the extended range is the exact sum or difference rounded
once with the inexact flag right, and an exact zero is the zero of the sign that the standard
prescribes. -/
theorem Fadd_Fsub_delivers (e : Env) (he : e.Register) (dst src : Finite) (f : Clean) :
    (∃ t, Fadd e dst src f = some t ∧
        Delivers e t (dst.val + src.val) (zeroSign e dst.neg src.neg)) ∧
      (∃ t, Fsub e dst src f = some t ∧
        Delivers e t (dst.val - src.val) (zeroSign e dst.neg (!src.neg))) := by
  refine ⟨Fadd_delivers e he dst src f, ?_⟩
  rw [Fsub_eq_Fadd, sub_eq_add_neg, ← Finite.val_reverse, ← Finite.neg_reverse]
  exact Fadd_delivers e he dst src.reverse f

/-- The theorem at `1 + 3` and `1 - 3`. -/
theorem Fadd_Fsub_delivers_one_three :
    (∃ t, Fadd extNearest (.num one) (.num three) noErrors = some t ∧
        Delivers extNearest t ((Finite.num one).val + (Finite.num three).val)
          (zeroSign extNearest (Finite.num one).neg (Finite.num three).neg)) ∧
      (∃ t, Fsub extNearest (.num one) (.num three) noErrors = some t ∧
        Delivers extNearest t ((Finite.num one).val - (Finite.num three).val)
          (zeroSign extNearest (Finite.num one).neg (!(Finite.num three).neg))) :=
  Fadd_Fsub_delivers extNearest (by decide) (.num one) (.num three) noErrors

end Cpm8000.Fpe
