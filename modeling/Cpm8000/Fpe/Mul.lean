/-
# Multiplication

`umultl` makes an unsigned 32 by 32 multiplication out of the signed one the processor has;
`product` assembles the 64 by 64 product from four of them, keeping the high half in rq8 and
folding the low half into a rounding word; `mulno` adds the exponents, normalises the product
by one bit where it must, and rounds.

* `product_spec`: the high half is exact, and the rounding word's high byte is the low half
  jammed to eight bits.
* `mulPre_spec`: the operand handed to rounding.  Where the product has its leading bit set it
  is the product rounded to odd.  Where it has not, the significand is doubled with bit 7 of the
  rounding word's LOW byte shifted in, and the rounding byte itself is not shifted.
* `mulRounds_iff`: when the difference shows in the rounded result.
-/
import Cpm8000.Fpe.Range
import Cpm8000.Fpe.Round

namespace Cpm8000.Fpe

open Arith

/-! ## 1. The code -/

/-- The signed multiplication of the processor: a quad product. -/
def multl (x y : BitVec 32) : Quad := Quad.ofNat (BitVec.ofInt 64 (x.toInt * y.toInt)).toNat

/-- Add a long word to the leading half of a quad. -/
def addHi (q : Quad) (x : BitVec 32) : Quad := Quad.ofLongs (add q.hi x).val q.lo

/-- Unsigned multiplication of rr4 and rr6, corrected for each operand taken as negative. -/
def umultl (rr4 rr6 : BitVec 32) : Quad :=
  let rq0 := multl rr6 rr4
  if rq0 = Quad.zero then rq0
  else if rq0.w0.getLsbD 15 then
    -- exactly one operand is negative
    if rr4.getLsbD 31 then addHi rq0 rr6 else addHi rq0 rr4
  else if rr4.getLsbD 31 then addHi (addHi rq0 rr6) rr4
  else rq0

/-- The registers between the partial products: the source's high long word, the sum so far in
r8, r9 and rr10, and the rounding word on the stack. -/
structure Partial where
  rr4 : BitVec 32
  r8 : BitVec 16
  r9 : BitVec 16
  rr10 : BitVec 32
  stk : BitVec 16

/-- The long case: low times low, and low source times high destination. -/
def fmul21 (src dst : Quad) : Partial :=
  let rq0 := umultl src.lo dst.lo
  let r2 := tcc (rq0.w3 ≠ 0) rq0.w2
  let rr10 := rq0.hi
  let rq0 := umultl src.lo dst.hi
  let s10 := add rr10 rq0.lo
  let r9 := adc rq0.w1 0 s10.c
  let r8 := adc rq0.w0 0 r9.c
  ⟨src.hi, r8.val, r9.val, s10.val, r2⟩

/-- High source times low destination, and the rounding word. -/
def fmul24 (dst : Quad) (p : Partial) : Partial :=
  let rq0 := umultl p.rr4 dst.lo
  let rr2 := add rq0.lo p.rr10
  let r3 := low rr2.val ||| p.stk
  let r2 := tcc (r3 ≠ 0) (hiw rr2.val)
  let r2 := word (tcc (lob r2 ≠ 0) (hib r2)) (lob r2)
  let r9 := adc p.r9 rq0.w1 rr2.c
  let r8 := adc p.r8 rq0.w0 r9.c
  ⟨p.rr4, 0, (adc 0 0 r8.c).val, long r8.val r9.val, r2⟩

/-- High times high; the product's high half and the rounding word. -/
def fmul25 (dst : Quad) (p : Partial) : Quad × BitVec 16 :=
  let rq0 := umultl p.rr4 dst.hi
  let s10 := add p.rr10 rq0.lo
  let r9 := adc p.r9 rq0.w1 s10.c
  let r8 := adc p.r8 rq0.w0 r9.c
  (⟨r8.val, r9.val, hiw s10.val, low s10.val⟩, p.stk)

/-- The product of two significands, the shorter cases first. -/
def product (src dst : Quad) : Quad × BitVec 16 :=
  if src.lo ≠ 0 then fmul25 dst (fmul24 dst (fmul21 src dst))
  else if dst.lo = 0 then fmul25 dst ⟨src.hi, 0, 0, src.lo, 0⟩
  else fmul25 dst (fmul24 dst ⟨src.hi, 0, 0, src.lo, 0⟩)

/-- The operand handed to rounding: sign, summed exponent, product normalised. -/
def mulPre (dst : Op) (s : Acc) : Acc :=
  let rh6 := s.rh6 ^^^ dst.rh6
  let rr0 := (add (long (word dst.rh6 dst.rl6) dst.r7) (long (word rh6 s.rl6) s.r7)).val
  let rr0 := (sub rr0 0x3FFE).val
  let (rq8, r0) := product s.rq8 dst.rq8
  let rl6 := lob (hiw rr0)
  let r7 := low rr0
  let t : Acc :=
    if rq8.w0.getLsbD 15 then { s with rh6 := rh6, rl6 := rl6, r7 := r7, rq8 := rq8 }
    else
      let rl0 := add (lob r0) (lob r0)
      let r7 := sub r7 1
      let rl6 := sbc rl6 0 r7.c
      { s with rh6 := rh6, rl6 := rl6.val, r7 := r7.val, rq8 := (adcq rq8 rq8 rl0.c).val }
  { t with rl5 := s.rl5 ||| hib r0 }

/-- The product rounded. -/
def mulRound (e : Env) (dst : Op) (s : Acc) : Acc := round e (under e (mulPre dst s))

/-- Multiply two numbers. -/
def mulno (e : Env) (dst : Op) (s : Acc) : Acc := overRange e (mulRound e dst s)

/-! ## 2. The unsigned multiplication -/

theorem addHi_spec (q : Quad) (x : BitVec 32) :
    ∃ c ≤ 1, (addHi q x).toNat + 2 ^ 64 * c = q.toNat + 2 ^ 32 * x.toNat := by
  refine ⟨(add q.hi x).c.toNat, Bool.toNat_le _, ?_⟩
  have h := add_spec q.hi x
  rw [Quad.toNat_eq q, Quad.toNat_eq (addHi q x), addHi, Quad.hi_ofLongs, Quad.lo_ofLongs]
  omega

/-- The signed product, as a natural modulo `2^64`. -/
theorem multl_spec (x y : BitVec 32) :
    ((multl x y).toNat : ℤ) = x.toInt * y.toInt % 2 ^ 64 := by
  have hpos : 0 ≤ x.toInt * y.toInt % 2 ^ 64 := Int.emod_nonneg _ (by norm_num)
  have hlt : x.toInt * y.toInt % 2 ^ 64 < 2 ^ 64 := Int.emod_lt_of_pos _ (by norm_num)
  rw [multl, Quad.toNat_ofNat, BitVec.toNat_ofInt]
  push_cast
  omega

/-- The signed product of two operands, each short of its unsigned value by `2^32` when it is
taken as negative. -/
theorem multl_cases (a b : BitVec 32) :
    ((multl b a).toNat : ℤ) =
      (a.toNat * b.toNat - 2 ^ 32 * ((if 2 ^ 31 ≤ a.toNat then (b.toNat : ℤ) else 0) +
        (if 2 ^ 31 ≤ b.toNat then (a.toNat : ℤ) else 0))) % 2 ^ 64 := by
  have h := multl_spec b a
  rw [BitVec.toInt_eq_toNat_cond, BitVec.toInt_eq_toNat_cond] at h
  have hcond : ∀ n : ℕ, 2 * n < 2 ^ 32 ↔ ¬ 2 ^ 31 ≤ n := fun n => by omega
  simp only [hcond, ite_not] at h
  rw [h]
  split_ifs
  · rw [← Int.add_mul_emod_self_right _ (-1) (2 ^ 64)]
    congr 1
    push_cast
    ring
  · congr 1
    push_cast
    ring
  · congr 1
    push_cast
    ring
  · congr 1
    ring

/-- **The corrected product is the unsigned one.** -/
theorem umultl_spec (a b : BitVec 32) : (umultl a b).toNat = a.toNat * b.toNat := by
  have ha := a.isLt
  have hb := b.isLt
  have hm := multl_cases a b
  have hlt := (multl b a).toNat_lt
  have hz := Quad.toNat_eq_zero_iff (multl b a)
  have hs := Quad.getLsbD_w0_iff (multl b a)
  have ha31 : a.getLsbD 31 = true ↔ 2 ^ 31 ≤ a.toNat := by
    rw [getLsbD_eq_true_iff]
    omega
  -- the magnitudes of the signed product, by the signs of its operands
  have hA : (2 ^ 32 - a.toNat) * b.toNat + a.toNat * b.toNat = 2 ^ 32 * b.toNat := by
    rw [← Nat.add_mul, Nat.sub_add_cancel ha.le]
  have hB : (2 ^ 32 - b.toNat) * a.toNat + a.toNat * b.toNat = 2 ^ 32 * a.toNat := by
    rw [Nat.mul_comm a.toNat, ← Nat.add_mul, Nat.sub_add_cancel hb.le]
  have hAB : (2 ^ 32 - a.toNat) * (2 ^ 32 - b.toNat) + (2 ^ 32 - a.toNat) * b.toNat =
      2 ^ 32 * (2 ^ 32 - a.toNat) := by
    rw [← Nat.mul_add, Nat.sub_add_cancel hb.le, Nat.mul_comm]
  have h1 := (addHi (multl b a) b).toNat_lt
  have h2 := (addHi (multl b a) a).toNat_lt
  have h3 := (addHi (addHi (multl b a) b) a).toNat_lt
  obtain ⟨c1, hc1, e1⟩ := addHi_spec (multl b a) b
  obtain ⟨c2, hc2, e2⟩ := addHi_spec (multl b a) a
  obtain ⟨c3, hc3, e3⟩ := addHi_spec (addHi (multl b a) b) a
  have hprod : ((a.toNat * b.toNat : ℕ) : ℤ) = a.toNat * b.toNat := by push_cast; rfl
  rw [← hprod] at hm
  rw [umultl]
  simp only [← hz, hs, ha31]
  rcases lt_or_ge a.toNat (2 ^ 31) with han | han <;>
    rcases lt_or_ge b.toNat (2 ^ 31) with hbn | hbn
  · have hle : a.toNat * b.toNat ≤ (2 ^ 31 - 1) * (2 ^ 31 - 1) :=
      Nat.mul_le_mul (by omega) (by omega)
    rw [if_neg (by omega), if_neg (by omega)] at hm
    split_ifs <;> omega
  · have hle : (2 ^ 32 - b.toNat) * a.toNat ≤ 2 ^ 31 * (2 ^ 31 - 1) :=
      Nat.mul_le_mul (by omega) (by omega)
    rw [if_neg (by omega), if_pos hbn] at hm
    rcases Nat.eq_zero_or_pos a.toNat with h0 | h0
    · simp only [h0, Nat.zero_mul] at hm ⊢
      rw [if_pos (by omega)]
      omega
    · have hpos : 0 < (2 ^ 32 - b.toNat) * a.toNat := Nat.mul_pos (by omega) h0
      rw [if_neg (by omega), if_pos (by omega), if_neg (by omega)]
      omega
  · have hle : (2 ^ 32 - a.toNat) * b.toNat ≤ 2 ^ 31 * (2 ^ 31 - 1) :=
      Nat.mul_le_mul (by omega) (by omega)
    rw [if_pos han, if_neg (by omega)] at hm
    rcases Nat.eq_zero_or_pos b.toNat with h0 | h0
    · simp only [h0, Nat.mul_zero] at hm ⊢
      rw [if_pos (by omega)]
      omega
    · have hpos : 0 < (2 ^ 32 - a.toNat) * b.toNat := Nat.mul_pos (by omega) h0
      rw [if_neg (by omega), if_pos (by omega), if_pos han]
      omega
  · have hle : (2 ^ 32 - a.toNat) * (2 ^ 32 - b.toNat) ≤ 2 ^ 31 * 2 ^ 31 :=
      Nat.mul_le_mul (by omega) (by omega)
    have hpos : 0 < (2 ^ 32 - a.toNat) * (2 ^ 32 - b.toNat) := Nat.mul_pos (by omega) (by omega)
    have hlt' : a.toNat * b.toNat ≤ (2 ^ 32 - 1) * (2 ^ 32 - 1) :=
      Nat.mul_le_mul (by omega) (by omega)
    rw [if_pos han, if_pos hbn] at hm
    rw [if_neg (by omega), if_neg (by omega), if_pos han]
    omega

/-! ## 3. The product of two significands -/

/-- Two words and a long word as one number. -/
def wide64 (a b : BitVec 16) (l : BitVec 32) : ℕ :=
  (a.toNat * 65536 + b.toNat) * 4294967296 + l.toNat

/-- The chain that adds two such numbers. -/
theorem wide64_add (x0 x1 y0 y1 : BitVec 16) (xl yl : BitVec 32) :
    wide64 (adc x0 y0 (adc x1 y1 (add xl yl).c).c).val (adc x1 y1 (add xl yl).c).val
        (add xl yl).val +
        2 ^ 64 * (adc x0 y0 (adc x1 y1 (add xl yl).c).c).c.toNat =
      wide64 x0 x1 xl + wide64 y0 y1 yl := by
  have h10 := add_spec xl yl
  have h9 := adc_spec x1 y1 (add xl yl).c
  have h8 := adc_spec x0 y0 (adc x1 y1 (add xl yl).c).c
  unfold wide64
  omega

/-- The long words of a sum may change places. -/
theorem wide64_cross (a b c d : BitVec 16) (l m : BitVec 32) :
    wide64 a b l + wide64 c d m = wide64 a b m + wide64 c d l := by
  unfold wide64
  omega

theorem wide64_zero (l : BitVec 32) : wide64 0 0 l = l.toNat := by
  have h0 : (0 : BitVec 16).toNat = 0 := rfl
  rw [wide64, h0]
  omega

/-- The sum so far. -/
def Partial.sum (p : Partial) : ℕ := wide64 p.r8 p.r9 p.rr10

/-- The words of an unsigned product. -/
theorem umultl_words (a b : BitVec 32) :
    wide64 (umultl a b).w0 (umultl a b).w1 (umultl a b).lo = a.toNat * b.toNat := by
  have h := umultl_spec a b
  rw [Quad.toNat_eq, Quad.hi, toNat_long] at h
  exact h

/-- A product of long words leaves room for two more of them. -/
theorem long_mul_le (a b : BitVec 32) :
    a.toNat * b.toNat ≤ 18446744065119617025 := by
  have ha := a.isLt
  have hb := b.isLt
  calc a.toNat * b.toNat ≤ 4294967295 * 4294967295 := Nat.mul_le_mul (by omega) (by omega)
    _ = 18446744065119617025 := by norm_num

/-- The bits dropped before the rounding word is made up: nothing but whether they are zero
is kept. -/
def Drops (stk : BitVec 16) (Z : ℕ) : Prop := Z < 2 ^ 32 ∧ (stk.toNat = 0 ↔ Z = 0)

theorem fmul21_spec (src dst : Quad) :
    (fmul21 src dst).sum = src.lo.toNat * dst.hi.toNat + src.lo.toNat * dst.lo.toNat / 2 ^ 32 ∧
      Drops (fmul21 src dst).stk (src.lo.toNat * dst.lo.toNat % 2 ^ 32) := by
  have hlow := umultl_spec src.lo dst.lo
  rw [Quad.toNat_eq] at hlow
  have hlolt := (umultl src.lo dst.lo).lo.isLt
  have hhilt := (umultl src.lo dst.lo).hi.isLt
  constructor
  · have hle := long_mul_le src.lo dst.hi
    have hdiv : src.lo.toNat * dst.lo.toNat / 2 ^ 32 = (umultl src.lo dst.lo).hi.toNat := by
      omega
    have h := wide64_add (umultl src.lo dst.hi).w0 (umultl src.lo dst.hi).w1 0 0
      (umultl src.lo dst.lo).hi (umultl src.lo dst.hi).lo
    have hc := Bool.toNat_le (adc (umultl src.lo dst.hi).w0 0 (adc (umultl src.lo dst.hi).w1 0
      (add (umultl src.lo dst.lo).hi (umultl src.lo dst.hi).lo).c).c).c
    rw [wide64_cross, umultl_words, wide64_zero] at h
    rw [hdiv]
    simp only [Partial.sum, fmul21]
    clear hlow hlolt hdiv
    omega
  · have hlo : (umultl src.lo dst.lo).lo.toNat =
        (umultl src.lo dst.lo).w2.toNat * 65536 + (umultl src.lo dst.lo).w3.toNat := by
      rw [Quad.lo, toNat_long]
    have hw3 : (umultl src.lo dst.lo).w3 ≠ 0 ↔ (umultl src.lo dst.lo).w3.toNat ≠ 0 := by
      rw [Ne, ← BitVec.toNat_inj]
      rfl
    refine ⟨Nat.mod_lt _ (by norm_num), ?_⟩
    simp only [fmul21]
    generalize umultl src.lo dst.lo = x at hlow hlolt hhilt hlo hw3 ⊢
    rcases tcc_decide_cases (x.w3 ≠ 0) (x := x.w2) (by norm_num) rfl with ⟨hp, hv⟩ | ⟨hp, hv⟩ <;>
      rw [hw3] at hp <;> omega

/-- The rounding word: its high byte is the low half of the product jammed to eight bits, its
low byte starts with bit 55 of it. -/
structure RoundWord (r0 : BitVec 16) (L : ℕ) : Prop where
  hib : (hib r0).toNat = jam (2 ^ 56) L
  lob : (lob r0).toNat / 128 = L / 2 ^ 55 % 2

theorem fmul24_spec (dst : Quad) (p : Partial) {Z : ℕ} (hZ : Drops p.stk Z) :
    (fmul24 dst p).sum = (p.sum + p.rr4.toNat * dst.lo.toNat) / 2 ^ 32 ∧
      RoundWord (fmul24 dst p).stk
        ((p.sum + p.rr4.toNat * dst.lo.toNat) % 2 ^ 32 * 2 ^ 32 + Z) := by
  have htot := wide64_add p.r8 p.r9 (umultl p.rr4 dst.lo).w0 (umultl p.rr4 dst.lo).w1
    (umultl p.rr4 dst.lo).lo p.rr10
  rw [wide64_cross, umultl_words, ← Partial.sum] at htot
  rw [← htot]
  simp only [Partial.sum, fmul24]
  clear htot
  generalize umultl p.rr4 dst.lo = x
  generalize add x.lo p.rr10 = rr2
  generalize adc p.r9 x.w1 rr2.c = r9
  generalize adc p.r8 x.w0 r9.c = r8
  have hlt := rr2.val.isLt
  have hmod : (wide64 r8.val r9.val rr2.val + 2 ^ 64 * r8.c.toNat) % 2 ^ 32 = rr2.val.toNat := by
    unfold wide64
    omega
  constructor
  · have hc := adc_spec (0 : BitVec 16) 0 r8.c
    have hcl := Bool.toNat_le (adc (0 : BitVec 16) 0 r8.c).c
    have hc0 := Bool.toNat_le r8.c
    have hz0 : (0 : BitVec 16).toNat = 0 := rfl
    unfold wide64
    rw [toNat_long, hz0]
    rw [hz0] at hc
    omega
  · rw [hmod]
    have hZlt := hZ.1
    have hr3 : (low rr2.val ||| p.stk ≠ 0) ↔ (rr2.val.toNat % 65536 ≠ 0 ∨ Z ≠ 0) := by
      rw [Ne, toNat_or_eq_zero_iff, toNat_low, hZ.2]
      tauto
    have ht := tcc_decide_cases (low rr2.val ||| p.stk ≠ 0) (x := hiw rr2.val) (by norm_num)
      (toNat_hiw _)
    simp only [hr3] at ht
    simp only [hr3]
    generalize tcc (decide (rr2.val.toNat % 65536 ≠ 0 ∨ Z ≠ 0)) (hiw rr2.val) = r2 at ht ⊢
    have hl0 : lob r2 ≠ 0 ↔ r2.toNat % 256 ≠ 0 := by
      rw [Ne, ← BitVec.toNat_inj, toNat_lob]
      rfl
    have hh := tcc_decide_cases (lob r2 ≠ 0) (x := hib r2) (by norm_num) (toNat_hib _)
    simp only [hl0] at hh
    simp only [hl0]
    generalize tcc (decide (r2.toNat % 256 ≠ 0)) (hib r2) = rh2 at hh ⊢
    have hjam : jam (2 ^ 56) (rr2.val.toNat * 2 ^ 32 + Z) =
        if rr2.val.toNat % 16777216 = 0 ∧ Z = 0 then rr2.val.toNat / 16777216
        else rr2.val.toNat / 16777216 / 2 * 2 + 1 := by
      rw [jam]
      split_ifs <;> omega
    constructor
    · rw [toNat_hib, toNat_word, toNat_lob, hjam]
      rcases ht with ⟨h1, h3⟩ | ⟨h1, h3⟩ <;> rcases hh with ⟨h4, h5⟩ | ⟨h4, h5⟩ <;>
        split_ifs <;> omega
    · rw [toNat_lob, toNat_word, toNat_lob]
      rcases ht with ⟨h1, h3⟩ | ⟨h1, h3⟩ <;> omega

theorem fmul25_spec (dst : Quad) (p : Partial)
    (hsum : p.sum + p.rr4.toNat * dst.hi.toNat < 2 ^ 64) :
    (fmul25 dst p).1.toNat = p.sum + p.rr4.toNat * dst.hi.toNat ∧
      (fmul25 dst p).2 = p.stk := by
  refine ⟨?_, rfl⟩
  have htot := wide64_add p.r8 p.r9 (umultl p.rr4 dst.hi).w0 (umultl p.rr4 dst.hi).w1
    p.rr10 (umultl p.rr4 dst.hi).lo
  rw [umultl_words, ← Partial.sum] at htot
  rw [← htot] at hsum ⊢
  simp only [fmul25, Quad.toNat, toNat_hiw, toNat_low]
  clear htot
  generalize umultl p.rr4 dst.hi = x at hsum ⊢
  generalize add p.rr10 x.lo = r at hsum ⊢
  generalize adc p.r9 x.w1 r.c = r9 at hsum ⊢
  generalize adc p.r8 x.w0 r9.c = r8 at hsum ⊢
  have hc : r8.c.toNat = 0 := by omega
  rw [hc, wide64]
  have hr := r.val.isLt
  omega

/-- The high and the low half of a product of numbers of two digits to the base `2^32`. -/
theorem halves (hh hl lh ll : ℕ) :
    (hh * 2 ^ 64 + (hl + lh) * 2 ^ 32 + ll) / 2 ^ 64 =
        (lh + ll / 2 ^ 32 + hl) / 2 ^ 32 + hh ∧
      (hh * 2 ^ 64 + (hl + lh) * 2 ^ 32 + ll) % 2 ^ 64 =
        (lh + ll / 2 ^ 32 + hl) % 2 ^ 32 * 2 ^ 32 + ll % 2 ^ 32 := by
  omega

/-- **The product of two significands.**  The high half is exact; the low half is in the
rounding word. -/
theorem product_spec (src dst : Quad) :
    (product src dst).1.toNat = src.toNat * dst.toNat / 2 ^ 64 ∧
      RoundWord (product src dst).2 (src.toNat * dst.toNat % 2 ^ 64) := by
  have hsl := src.lo.isLt
  have hdl := dst.lo.isLt
  have hP : src.toNat * dst.toNat =
      src.hi.toNat * dst.hi.toNat * 2 ^ 64 +
        (src.hi.toNat * dst.lo.toNat + src.lo.toNat * dst.hi.toNat) * 2 ^ 32 +
        src.lo.toNat * dst.lo.toNat := by
    rw [Quad.toNat_eq, Quad.toNat_eq]
    ring
  have hlt : src.toNat * dst.toNat < 2 ^ 128 := by
    have h1 := src.toNat_lt
    have h2 := dst.toNat_lt
    calc src.toNat * dst.toNat ≤ (2 ^ 64 - 1) * (2 ^ 64 - 1) :=
          Nat.mul_le_mul (by omega) (by omega)
      _ < 2 ^ 128 := by norm_num
  have hsq : 2 ^ 128 = 2 ^ 64 * 2 ^ 64 := by norm_num
  have hll := long_mul_le src.lo dst.lo
  have hlh := long_mul_le src.lo dst.hi
  have hhl := long_mul_le src.hi dst.lo
  have hhh := long_mul_le src.hi dst.hi
  have h0 : ∀ x : BitVec 32, x = 0 ↔ x.toNat = 0 := fun x => by
    rw [← BitVec.toNat_inj]
    rfl
  -- the short cases start from an empty sum with nothing dropped
  have hempty : (⟨src.hi, 0, 0, src.lo, 0⟩ : Partial).sum = src.lo.toNat := wide64_zero _
  rw [hP] at hlt ⊢
  rw [product]
  by_cases hs : src.lo = 0
  · rw [if_neg (not_not.mpr hs)]
    have hs0 := (h0 _).mp hs
    rw [hs0] at hempty
    by_cases hd : dst.lo = 0
    · rw [if_pos hd]
      have hd0 := (h0 _).mp hd
      have hr : (⟨src.hi, 0, 0, src.lo, 0⟩ : Partial).rr4 = src.hi := rfl
      obtain ⟨h1, h2⟩ := fmul25_spec dst ⟨src.hi, 0, 0, src.lo, 0⟩ (by rw [hempty, hr]; omega)
      rw [hempty, hr] at h1
      simp only [hs0, hd0, Nat.mul_zero, Nat.zero_mul, Nat.add_zero, Nat.zero_add] at h1 ⊢
      have hm : src.hi.toNat * dst.hi.toNat * 2 ^ 64 % 2 ^ 64 = 0 := by omega
      rw [h1, h2, hm]
      refine ⟨by omega, ?_, ?_⟩
      · exact (by decide : (hib (0 : BitVec 16)).toNat = jam (2 ^ 56) 0)
      · exact (by decide : (lob (0 : BitVec 16)).toNat / 128 = 0 / 2 ^ 55 % 2)
    · rw [if_neg hd]
      have hdrops : Drops (0 : BitVec 16) 0 := ⟨by norm_num, by decide⟩
      have hr : (⟨src.hi, 0, 0, src.lo, 0⟩ : Partial).rr4 = src.hi := rfl
      have hr4 : (fmul24 dst ⟨src.hi, 0, 0, src.lo, 0⟩).rr4 = src.hi := rfl
      obtain ⟨h1, h2⟩ := fmul24_spec dst ⟨src.hi, 0, 0, src.lo, 0⟩ hdrops
      obtain ⟨hq, hm⟩ := halves (src.hi.toNat * dst.hi.toNat) (src.hi.toNat * dst.lo.toNat) 0 0
      rw [hempty, hr] at h1 h2
      rw [Nat.zero_div, show 0 + 0 = 0 from rfl] at hq hm
      rw [Nat.zero_mod] at hm
      rw [hs0, Nat.zero_mul, Nat.zero_mul] at hlt ⊢
      have hH := (Nat.div_lt_iff_lt_mul (by norm_num)).mpr (lt_of_lt_of_eq hlt hsq)
      rw [hq] at hH
      obtain ⟨h3, h4⟩ := fmul25_spec dst (fmul24 dst ⟨src.hi, 0, 0, src.lo, 0⟩)
        (by rw [h1, hr4]; exact hH)
      rw [h1, hr4] at h3
      rw [hm, hq, h3, h4]
      exact ⟨rfl, h2⟩
  · rw [if_pos hs]
    obtain ⟨h1, h2⟩ := fmul21_spec src dst
    have hr1 : (fmul21 src dst).rr4 = src.hi := rfl
    obtain ⟨h3, h4⟩ := fmul24_spec dst (fmul21 src dst) h2
    have hr2 : (fmul24 dst (fmul21 src dst)).rr4 = src.hi := rfl
    rw [h1, hr1] at h3 h4
    -- the low half of the product, and what the high half is from it
    obtain ⟨hd, hm⟩ := halves (src.hi.toNat * dst.hi.toNat) (src.hi.toNat * dst.lo.toNat)
      (src.lo.toNat * dst.hi.toNat) (src.lo.toNat * dst.lo.toNat)
    have hH := (Nat.div_lt_iff_lt_mul (by norm_num)).mpr (lt_of_lt_of_eq hlt hsq)
    rw [hd] at hH
    obtain ⟨h5, h6⟩ := fmul25_spec dst (fmul24 dst (fmul21 src dst)) (by rw [h3, hr2]; exact hH)
    rw [h3, hr2] at h5
    rw [hm, hd, h5, h6]
    exact ⟨rfl, h4⟩

/-! ## 4. The operand handed to rounding -/

/-- The leading zero of a product of normalised significands, as a number of bits. -/
def leadZero (P : ℕ) : ℕ := if 2 ^ 127 ≤ P then 0 else 1

/-- The significand and the exponent of the operand handed to rounding, from the product `P`
of the significands. -/
structure MulOut (P : ℕ) (dst : Op) (s t : Acc) : Prop where
  neg : t.neg = (s.neg ^^ dst.neg)
  rh5 : t.rh5 = s.rh5
  rl5 : t.rl5.toNat = jam (2 ^ 56) (P % 2 ^ 64)
  digits : t.digits = if 2 ^ 127 ≤ P then P / 2 ^ 64 else 2 * (P / 2 ^ 64) + P / 2 ^ 55 % 2
  expBits : ∃ m : ℤ, (t.expBits : ℤ) = dst.expo + s.expo - 0x3FFE - leadZero P + 2 ^ 24 * m

/-- The product of normalised significands has at most one leading zero. -/
theorem product_bounds {s d : ℕ} (hs : 2 ^ 63 ≤ s) (hs' : s < 2 ^ 64) (hd : 2 ^ 63 ≤ d)
    (hd' : d < 2 ^ 64) : 2 ^ 126 ≤ s * d ∧ s * d < 2 ^ 128 := by
  constructor
  · calc 2 ^ 126 = 2 ^ 63 * 2 ^ 63 := by norm_num
      _ ≤ s * d := Nat.mul_le_mul hs hd
  · calc s * d ≤ (2 ^ 64 - 1) * (2 ^ 64 - 1) := Nat.mul_le_mul (by omega) (by omega)
      _ < 2 ^ 128 := by norm_num

/-- The sum of two exponents, unbiased as if the product had no leading zero. -/
theorem mul_expo (a b : BitVec 8) (x y : Op) :
    ∃ m : ℤ, (((sub (add (long (word a x.rl6) x.r7) (long (word b y.rl6) y.r7)).val
      0x3FFE).val.toNat % 2 ^ 24 : ℕ) : ℤ) = x.expo + y.expo - 0x3FFE + 2 ^ 24 * m := by
  have hadd := add_spec (long (word a x.rl6) x.r7) (long (word b y.rl6) y.r7)
  have hsub := sub_spec (add (long (word a x.rl6) x.r7) (long (word b y.rl6) y.r7)).val 0x3FFE
  rw [long_expBits, long_expBits] at hadd
  have hc : (0x3FFE : BitVec 32).toNat = 0x3FFE := rfl
  rw [hc] at hsub
  obtain ⟨m1, h1⟩ := x.expBits_eq
  obtain ⟨m2, h2⟩ := y.expBits_eq
  generalize add (long (word a x.rl6) x.r7) (long (word b y.rl6) y.r7) = v at hadd hsub ⊢
  generalize sub v.val 0x3FFE = z at hsub ⊢
  refine ⟨a.toNat + b.toNat + m1 + m2 + 256 * (z.c.toNat - v.c.toNat) - z.val.toNat / 2 ^ 24, ?_⟩
  omega

/-- Taking one off the exponent for a leading zero. -/
theorem dec_expo (l : BitVec 8) (r7 : BitVec 16) :
    ∃ m : ℤ, (((sbc l 0 (sub r7 1).c).val.toNat * 65536 + (sub r7 1).val.toNat : ℕ) : ℤ) =
      (l.toNat * 65536 + r7.toNat : ℕ) - 1 + 2 ^ 24 * m := by
  have h7 := sub_spec r7 1
  have h6 := sbc_spec l 0 (sub r7 1).c
  have h1 : (1 : BitVec 16).toNat = 1 := rfl
  have h0 : (0 : BitVec 8).toNat = 0 := rfl
  rw [h1] at h7
  rw [h0] at h6
  refine ⟨(sbc l 0 (sub r7 1).c).c.toNat, ?_⟩
  omega

/-- **What multiplication hands to rounding.** -/
theorem mulPre_spec (dst : Op) (s : Acc) (hs : s.Normal) (hd : dst.Normal) (h5 : s.rl5 = 0) :
    MulOut (s.digits * dst.digits) dst s (mulPre dst s) := by
  obtain ⟨hlow, hhigh⟩ := product_bounds hs s.digits_lt hd dst.digits_lt
  obtain ⟨hH, hL⟩ := product_spec s.rq8 dst.rq8
  have hD : s.rq8.toNat * dst.rq8.toNat = s.digits * dst.digits := rfl
  rw [hD] at hH hL
  have hneg : (s.rh6 ^^^ dst.rh6).getLsbD 7 = (s.neg ^^ dst.neg) := BitVec.getLsbD_xor
  have hrl5 : (s.rl5 ||| hib (product s.rq8 dst.rq8).2).toNat =
      jam (2 ^ 56) (s.digits * dst.digits % 2 ^ 64) := by
    rw [← hL.hib, h5, BitVec.toNat_or]
    exact Nat.zero_or _
  obtain ⟨m, hm⟩ := mul_expo dst.rh6 (s.rh6 ^^^ dst.rh6) dst s.toOp
  rw [← expWord] at hm
  have hlead := Quad.getLsbD_w0_iff (product s.rq8 dst.rq8).1
  rw [hH] at hlead
  generalize s.digits * dst.digits = P at hlow hhigh hH hL hrl5 hlead ⊢
  by_cases hP : 2 ^ 127 ≤ P
  · have hbit : (product s.rq8 dst.rq8).1.w0.getLsbD 15 = true := hlead.mpr (by omega)
    have hz : leadZero P = 0 := if_pos hP
    refine ⟨?_, ?_, ?_, ?_, m, ?_⟩
    · simp only [mulPre, hbit, if_true]
      exact hneg
    · simp only [mulPre, hbit, if_true]
    · simp only [mulPre, hbit, if_true]
      exact hrl5
    · rw [if_pos hP]
      simp only [mulPre, hbit, if_true]
      exact hH
    · simp only [mulPre, hbit, if_true, Op.expBits, hz]
      rw [hm]
      push_cast
      ring
  · have hbit : (product s.rq8 dst.rq8).1.w0.getLsbD 15 = false := by
      rw [← Bool.not_eq_true, hlead]
      omega
    have hz : leadZero P = 1 := if_neg hP
    obtain ⟨m', hm'⟩ := dec_expo
      (lob (hiw (sub (add (long (word dst.rh6 dst.rl6) dst.r7)
        (long (word (s.rh6 ^^^ dst.rh6) s.rl6) s.r7)).val 0x3FFE).val))
      (low (sub (add (long (word dst.rh6 dst.rl6) dst.r7)
        (long (word (s.rh6 ^^^ dst.rh6) s.rl6) s.r7)).val 0x3FFE).val)
    rw [hm] at hm'
    refine ⟨?_, ?_, ?_, ?_, m + m', ?_⟩
    · simp only [mulPre, hbit, Bool.false_eq_true, if_false]
      exact hneg
    · simp only [mulPre, hbit, Bool.false_eq_true, if_false]
    · simp only [mulPre, hbit, Bool.false_eq_true, if_false]
      exact hrl5
    · have hadd := add_spec (lob (product s.rq8 dst.rq8).2) (lob (product s.rq8 dst.rq8).2)
      have hl := hL.lob
      have hc := Bool.toNat_le (add (lob (product s.rq8 dst.rq8).2)
        (lob (product s.rq8 dst.rq8).2)).c
      have hv := (add (lob (product s.rq8 dst.rq8).2) (lob (product s.rq8 dst.rq8).2)).val.isLt
      have hq := adcq_spec (product s.rq8 dst.rq8).1 (product s.rq8 dst.rq8).1
        (add (lob (product s.rq8 dst.rq8).2) (lob (product s.rq8 dst.rq8).2)).c
      have hqc := Bool.toNat_le (adcq (product s.rq8 dst.rq8).1 (product s.rq8 dst.rq8).1
        (add (lob (product s.rq8 dst.rq8).2) (lob (product s.rq8 dst.rq8).2)).c).c
      have hbit55 : (add (lob (product s.rq8 dst.rq8).2) (lob (product s.rq8 dst.rq8).2)).c.toNat =
          P / 2 ^ 55 % 2 := by
        have hmod : P % 2 ^ 64 / 2 ^ 55 % 2 = P / 2 ^ 55 % 2 := by omega
        rw [← hmod, ← hl]
        omega
      rw [if_neg hP]
      simp only [mulPre, hbit, Bool.false_eq_true, if_false, Op.digits]
      rw [hH, hbit55] at hq
      omega
    · simp only [mulPre, hbit, Bool.false_eq_true, if_false, Op.expBits, hz]
      rw [hm']
      push_cast
      ring

/-! ## 5. When the product is rounded right -/

/-- The exact product, through its 64-bit significand and its exponent. -/
theorem val_mul (x y : Op) :
    x.val * y.val = signed (x.neg ^^ y.neg)
      (((x.digits * y.digits : ℕ) : ℚ) / 2 ^ 64 * 2 ^ leadZero (x.digits * y.digits) *
        2 ^ (x.expo + y.expo - 0x3FFE - leadZero (x.digits * y.digits) - bias - 63)) := by
  have hz : ∀ k : ℕ, ((2 : ℚ) ^ k * 2 ^ (x.expo + y.expo - 0x3FFE - k - bias - 63)) =
      2 ^ (x.expo + y.expo - 0x3FFE - bias - 63) := fun k => by
    rw [← zpow_natCast, ← zpow_add₀ (by norm_num)]
    congr 1
    ring
  have hsum : (2 : ℚ) ^ (x.expo + y.expo - 0x3FFE - bias - 63) / 2 ^ 64 =
      2 ^ (x.expo - bias - 63) * 2 ^ (y.expo - bias - 63) := by
    rw [← zpow_natCast, ← zpow_sub₀ (by norm_num), ← zpow_add₀ (by norm_num)]
    congr 1
    simp only [bias]
    push_cast
    ring
  rw [Op.val, Op.val, signed_mul, Op.mag, Op.mag, mul_assoc ((_ : ℚ) / 2 ^ 64), hz,
    div_mul_eq_mul_div, mul_div_assoc, hsum]
  congr 1
  push_cast
  ring

/-- **When multiplication rounds right.**  `P` is the exact product of the significands.  In the
precisions below extended it always does; in extended precision it does when the product has its
leading bit set, and otherwise when bit 55 of the low half happens to agree with the bit it is
shifted in for: bit 63, or, when the rounding is to nearest, bit 62, whose value then decides. -/
def MulRounds (e : Env) (P : ℕ) : Prop :=
  e.prec ≠ 64 ∨ 2 ^ 127 ≤ P ∨
    if e.mode = .nearest then
      (P.testBit 55 = P.testBit 62 ∧ P % 2 ^ 64 ≠ 2 ^ 63) ∨ P % 2 ^ 64 = 2 ^ 62
    else P.testBit 55 = P.testBit 63

/-- The bits that matter, as three flags of the low half. -/
theorem mul_bits (m : RoundMode) (neg : Bool) (H : ℕ) (a b c t : Bool)
    (hct : c = true → t = true) :
    (roundNat m neg (2 * H + c.toNat) a (b || t) = roundNat m neg (2 * H + a.toNat) b t ∧
        (a || (b || t)) = (b || t)) ↔
      if m = .nearest then (c = b ∧ ¬ (a = true ∧ b = false ∧ t = false)) ∨
        (a = false ∧ b = true ∧ t = false)
      else c = a := by
  cases m <;> cases neg <;> cases a <;> cases b <;> cases c <;> cases t <;>
    simp [roundNat, roundUp] at hct ⊢

/-- The product below extended precision: bit 55 and bit 63 end up in the sticky bit alike. -/
theorem mul_jam {m H L : ℕ} (hm : 0 < m) {c a r r' : ℕ} (hc : c ≤ 1)
    (ha : a ≤ 1) (hr : r < 4) (hr' : r' < 4) (hL : c + r ≠ 0 ↔ L ≠ 0) (hL' : a + r' ≠ 0 ↔ L ≠ 0) :
    jam (4 * m) (4 * (2 * H + c) + r) = jam (4 * m) (4 * (2 * H + a) + r') := by
  obtain ⟨h1, h2⟩ := jam_bits (D := 2 * H + c) hm hr
  obtain ⟨h3, h4⟩ := jam_bits (D := 2 * H + a) hm hr'
  have hd : ∀ x ≤ 1, (2 * H + x) / (2 * m) = H / m := fun x hx => by
    rw [← Nat.div_div_eq_div_mul]
    congr 1
    omega
  have hmod : ∀ x ≤ 1, (2 * H + x) % (2 * m) = x + 2 * (H % m) := fun x hx => by
    rw [Nat.mod_mul]
    have e1 : (2 * H + x) % 2 = x := by omega
    have e2 : (2 * H + x) / 2 = H := by omega
    rw [e1, e2]
  rw [hd c hc] at h1
  rw [hd a ha] at h3
  rw [hmod c hc] at h2
  rw [hmod a ha] at h4
  omega

/-- The three parts of a significand with guard and sticky bit. -/
theorem three_parts (q : ℕ) (g t : Bool) :
    (4 * q + (2 * g.toNat + t.toNat)) / 4 = q ∧
      ((4 * q + (2 * g.toNat + t.toNat)) / 2 % 2 == 1) = g ∧
      ((4 * q + (2 * g.toNat + t.toNat)) % 2 == 1) = t := by
  have h1 : (4 * q + (2 * g.toNat + t.toNat)) / 4 = q := by
    cases g <;> cases t <;> simp only [Bool.toNat_false, Bool.toNat_true] <;> omega
  have h2 : (4 * q + (2 * g.toNat + t.toNat)) / 2 % 2 = g.toNat := by
    cases g <;> cases t <;> simp only [Bool.toNat_false, Bool.toNat_true] <;> omega
  have h3 : (4 * q + (2 * g.toNat + t.toNat)) % 2 = t.toNat := by
    cases g <;> cases t <;> simp only [Bool.toNat_false, Bool.toNat_true] <;> omega
  rw [h1, h2, h3]
  refine ⟨rfl, ?_, ?_⟩
  · cases g <;> decide
  · cases t <;> decide

/-- The significand, guard and sticky bit when the rounding byte is a jammed low half. -/
theorem grs_of_jam {s : Acc} {P : ℕ} (h : s.rl5.toNat = jam (2 ^ 56) (P % 2 ^ 64)) :
    s.grs = 4 * s.digits + (2 * (P.testBit 63).toNat + (decide (P % 2 ^ 63 ≠ 0)).toNat) := by
  have h7 := toNat_getLsbD s.rl5 7
  have hj : jam (2 ^ 56) (P % 2 ^ 64) = if P % 2 ^ 56 = 0 then P % 2 ^ 64 / 2 ^ 56
      else P % 2 ^ 64 / 2 ^ 56 / 2 * 2 + 1 := by
    have hmod : P % 2 ^ 64 % 2 ^ 56 = P % 2 ^ 56 := by omega
    rw [jam, hmod]
  rw [hj] at h
  rw [Acc.grs, h7, h, Nat.toNat_testBit]
  have ht : (decide (s.rl5.toNat % 128 ≠ 0)).toNat = (decide (P % 2 ^ 63 ≠ 0)).toNat := by
    congr 1
    apply decide_eq_decide.mpr
    rw [h]
    split_ifs <;> omega
  rw [← h, ht, h]
  split_ifs <;> omega

/-- A number jammed to three bits below bit `k + 2`. -/
theorem jam_testBits {P k : ℕ} :
    jam (2 ^ (k + 1)) P = 4 * (P / 2 ^ (k + 3)) +
      (2 * (P.testBit (k + 2)).toNat + (decide (P % 2 ^ (k + 2) ≠ 0)).toNat) := by
  have e2 : P / 2 ^ (k + 2) = P / 2 ^ (k + 1) / 2 := by
    rw [Nat.div_div_eq_div_mul, ← Nat.pow_succ]
  have e3 : P / 2 ^ (k + 3) = P / 2 ^ (k + 1) / 4 := by
    rw [Nat.div_div_eq_div_mul]
    congr 1
    ring
  have hmod : P % 2 ^ (k + 2) = P % 2 ^ (k + 1) + 2 ^ (k + 1) * (P / 2 ^ (k + 1) % 2) := by
    rw [Nat.pow_succ, Nat.mod_mul]
  have hpos : 0 < 2 ^ (k + 1) := Nat.two_pow_pos _
  rw [jam, Nat.toNat_testBit, e2, e3]
  have hz : P % 2 ^ (k + 2) ≠ 0 ↔ P % 2 ^ (k + 1) ≠ 0 ∨ P / 2 ^ (k + 1) % 2 = 1 := by
    rw [hmod]
    rcases Nat.mod_two_eq_zero_or_one (P / 2 ^ (k + 1)) with h | h <;> rw [h] <;> omega
  by_cases h : P % 2 ^ (k + 2) ≠ 0
  · rw [decide_eq_true h, Bool.toNat_true]
    split_ifs <;> omega
  · rw [decide_eq_false h, Bool.toNat_false]
    split_ifs <;> omega

/-- The 64-bit significand of a product. -/
theorem significand_bounds {P : ℕ} (hlow : 2 ^ 126 ≤ P) (hhigh : P < 2 ^ 128) :
    2 ^ 63 ≤ (P : ℚ) / 2 ^ 64 * 2 ^ leadZero P ∧ (P : ℚ) / 2 ^ 64 * 2 ^ leadZero P < 2 ^ 64 := by
  have hlowQ : (2 : ℚ) ^ 126 ≤ P := by exact_mod_cast hlow
  have hhighQ : (P : ℚ) < 2 ^ 128 := by exact_mod_cast hhigh
  by_cases hP : 2 ^ 127 ≤ P
  · have hPQ : (2 : ℚ) ^ 127 ≤ P := by exact_mod_cast hP
    rw [leadZero, if_pos hP]
    constructor <;> linarith
  · have hPQ : (P : ℚ) < 2 ^ 127 := by exact_mod_cast not_le.mp hP
    rw [leadZero, if_neg hP]
    constructor <;> linarith

/-- The rounded significand and the loss agree with those of the exact product exactly when
`MulRounds` holds, the product having a leading zero. -/
theorem mul_iff (e : Env) (neg : Bool) {P : ℕ} (hP : P < 2 ^ 127) :
    (let J := jam (2 ^ (64 - e.prec)) (4 * (2 * (P / 2 ^ 64) + (P.testBit 55).toNat) +
        (2 * (P.testBit 63).toNat + (decide (P % 2 ^ 63 ≠ 0)).toNat))
      let J' := jam (2 ^ (64 - e.prec)) (4 * (2 * (P / 2 ^ 64) + (P.testBit 63).toNat) +
        (2 * (P.testBit 62).toNat + (decide (P % 2 ^ 62 ≠ 0)).toNat))
      roundNat e.mode neg (J / 4) (J / 2 % 2 == 1) (J % 2 == 1) =
          roundNat e.mode neg (J' / 4) (J' / 2 % 2 == 1) (J' % 2 == 1) ∧
        ((J / 2 % 2 == 1) || (J % 2 == 1)) = ((J' / 2 % 2 == 1) || (J' % 2 == 1))) ↔
      MulRounds e P := by
  have ha := Nat.testBit_eq_decide_div_mod_eq (x := P) (i := 63)
  have hb := Nat.testBit_eq_decide_div_mod_eq (x := P) (i := 62)
  have hc := Nat.testBit_eq_decide_div_mod_eq (x := P) (i := 55)
  have hsticky : decide (P % 2 ^ 63 ≠ 0) = (P.testBit 62 || decide (P % 2 ^ 62 ≠ 0)) := by
    rw [hb, ← Bool.decide_or]
    apply decide_eq_decide.mpr
    omega
  have hct : P.testBit 55 = true → decide (P % 2 ^ 62 ≠ 0) = true := by
    rw [hc, decide_eq_true_eq, decide_eq_true_eq]
    omega
  have h63 : P % 2 ^ 64 = 2 ^ 63 ↔
      P.testBit 63 = true ∧ P.testBit 62 = false ∧ decide (P % 2 ^ 62 ≠ 0) = false := by
    rw [ha, hb, decide_eq_true_eq, decide_eq_false_iff_not, decide_eq_false_iff_not]
    omega
  have h62 : P % 2 ^ 64 = 2 ^ 62 ↔
      P.testBit 63 = false ∧ P.testBit 62 = true ∧ decide (P % 2 ^ 62 ≠ 0) = false := by
    rw [ha, hb, decide_eq_true_eq, decide_eq_false_iff_not, decide_eq_false_iff_not]
    omega
  have hzero : P % 2 ^ 64 = 0 ↔
      P.testBit 63 = false ∧ P.testBit 62 = false ∧ decide (P % 2 ^ 62 ≠ 0) = false := by
    rw [ha, hb, decide_eq_false_iff_not, decide_eq_false_iff_not, decide_eq_false_iff_not]
    omega
  have hp : 2 ^ 127 ≤ P ↔ False := iff_false_intro (not_le.mpr hP)
  by_cases hprec : e.prec = 64
  · simp only [MulRounds, hprec, hp, ne_eq, h63, h62, hsticky, Nat.sub_self, Nat.pow_zero, jam_one,
      not_true_eq_false, false_or]
    generalize P.testBit 63 = a at *
    generalize P.testBit 62 = b at *
    generalize P.testBit 55 = c at *
    generalize decide (P % 2 ^ 62 ≠ 0) = t at *
    obtain ⟨h1, h2, h3⟩ := three_parts (2 * (P / 2 ^ 64) + c.toNat) a (b || t)
    obtain ⟨h4, h5, h6⟩ := three_parts (2 * (P / 2 ^ 64) + a.toNat) b t
    simp only [h1, h2, h3, h4, h5, h6]
    exact mul_bits e.mode neg (P / 2 ^ 64) a b c t hct
  · -- below extended precision the two significands are jammed to the same bits
    have hjam : ∀ m : ℕ, 0 < m → jam (4 * m) (4 * (2 * (P / 2 ^ 64) + (P.testBit 55).toNat) +
          (2 * (P.testBit 63).toNat + (decide (P % 2 ^ 63 ≠ 0)).toNat)) =
        jam (4 * m) (4 * (2 * (P / 2 ^ 64) + (P.testBit 63).toNat) +
          (2 * (P.testBit 62).toNat + (decide (P % 2 ^ 62 ≠ 0)).toNat)) := by
      intro m hm
      rw [hsticky]
      generalize P.testBit 63 = a at *
      generalize P.testBit 62 = b at *
      generalize P.testBit 55 = c at *
      generalize decide (P % 2 ^ 62 ≠ 0) = t at *
      refine mul_jam (L := P % 2 ^ 64) hm (Bool.toNat_le c) (Bool.toNat_le a) ?_ ?_ ?_ ?_
      · cases a <;> cases b <;> cases t <;> decide
      · cases b <;> cases t <;> decide
      · rw [Ne, Ne, hzero]
        cases a <;> cases b <;> cases c <;> cases t <;> simp at hct ⊢
      · rw [Ne, Ne, hzero]
        cases a <;> cases b <;> cases t <;> simp
    have hgood : MulRounds e P := Or.inl hprec
    refine iff_of_true ?_ hgood
    rcases prec_cases e with h | h | h
    · simp only [h, show 2 ^ (64 - 53) = 4 * 512 from rfl, hjam 512 (by norm_num), and_self]
    · simp only [h, show 2 ^ (64 - 24) = 4 * 274877906944 from rfl,
        hjam 274877906944 (by norm_num), and_self]
    · exact absurd h hprec

/-- The exponent of an exact product. -/
theorem expOf_mul (x y : Number) :
    expOf (x.val * y.val) = x.expo + y.expo - 0x3FFE - leadZero (x.digits * y.digits) := by
  obtain ⟨hlow, hhigh⟩ := product_bounds x.normal x.digits_lt y.normal y.digits_lt
  obtain ⟨h1, h2⟩ := significand_bounds hlow hhigh
  rw [val_mul, expOf_scaled _ _ h1 h2]

/-- The product of two numbers, rounded, against their exact product. -/
theorem mulRound_iff (e : Env) (he : e.Register) (dst src : Number) (f : Clean)
    (hr : InRange (dst.val * src.val)) :
    RoundsTo e (mulRound e dst.toOp (src.start f)) (dst.val * src.val) ↔
      MulRounds e (src.digits * dst.digits) := by
  obtain ⟨hneg, h5, hrl5, hdig, m, hexp⟩ :=
    mulPre_spec dst.toOp (src.start f) src.normal dst.normal rfl
  have hstart : (src.start f).digits = src.digits := rfl
  have hstart' : (src.start f).expo = src.expo := rfl
  have hneg' : (src.start f).neg = src.neg := rfl
  obtain ⟨hlow, hhigh⟩ := product_bounds src.normal src.digits_lt dst.normal dst.digits_lt
  rw [hstart] at hrl5 hdig hexp
  rw [hstart'] at hexp
  rw [hneg'] at hneg
  rw [mul_comm] at hr ⊢
  have hE := hr
  rw [InRange, expOf_mul] at hE
  rw [val_mul]
  generalize src.digits * dst.digits = P at *
  set x : ℚ := (P : ℚ) / 2 ^ 64 * 2 ^ leadZero P with hx
  have hx1 : 2 ^ 63 ≤ x ∧ x < 2 ^ 64 := significand_bounds hlow hhigh
  have hlt := (mulPre dst.toOp (src.start f)).expBits_lt
  have hbits : ((mulPre dst.toOp (src.start f)).expBits : ℤ) =
      src.expo + dst.expo - 0x3FFE - leadZero P := by
    omega
  have hexpo : (mulPre dst.toOp (src.start f)).expo =
      src.expo + dst.expo - 0x3FFE - leadZero P := by
    rw [Op.expo, if_pos (by omega), hbits]
  have hunder := under_of_inRange (s := mulPre dst.toOp (src.start f)) he (by omega)
  have hclean : (mulPre dst.toOp (src.start f)).inexact = false := by
    rw [Acc.inexact, h5]
    exact f.exact
  have hgrs := grs_of_jam hrl5
  rw [mulRound, hunder, ← hneg, ← hexpo]
  generalize mulPre dst.toOp (src.start f) = t at hdig hbits hclean hgrs
  by_cases hP : 2 ^ 127 ≤ P
  · -- the rounding byte is in its place: the significand is the product rounded to odd
    have hz : leadZero P = 0 := if_pos hP
    have hgood : MulRounds e P := Or.inr (Or.inl hP)
    rw [if_pos hP] at hdig
    have hodd : RoundOdd (4 * x) t.grs := by
      have h := (roundOdd_natCast (K := ℚ) P).jam (n := 2 ^ 62) (by norm_num) (by norm_num)
      rw [jam_testBits (k := 61), ← hdig, ← hgrs] at h
      have e4 : (P : ℚ) / ((2 ^ 62 : ℕ) : ℚ) = 4 * x := by
        rw [hx, hz]
        push_cast
        ring
      rw [← e4]
      exact h
    have hn : t.Normal := by
      unfold Op.Normal
      omega
    exact iff_of_true (round_roundsTo e hn (by omega) hclean hodd) hgood
  · have hz : leadZero P = 1 := if_neg hP
    rw [if_neg hP] at hdig
    have hdig' : t.digits = 2 * (P / 2 ^ 64) + (P.testBit 55).toNat := by
      rw [hdig, Nat.toNat_testBit]
    have hn : t.Normal := by
      unfold Op.Normal
      omega
    have hodd : RoundOdd (4 * x) (4 * (2 * (P / 2 ^ 64) + (P.testBit 63).toNat) +
        (2 * (P.testBit 62).toNat + (decide (P % 2 ^ 62 ≠ 0)).toNat)) := by
      have h := (roundOdd_natCast (K := ℚ) P).jam (n := 2 ^ 61) (by norm_num) (by norm_num)
      rw [jam_testBits (k := 60)] at h
      have e4 : (P : ℚ) / ((2 ^ 61 : ℕ) : ℚ) = 4 * x := by
        rw [hx, hz]
        push_cast
        ring
      have e63 : P / 2 ^ 63 = 2 * (P / 2 ^ 64) + (P.testBit 63).toNat := by
        rw [Nat.toNat_testBit]
        omega
      rw [← e4, ← e63]
      exact h
    rw [round_roundsTo_iff e hn (by omega) hclean hx1.1 hx1.2 (roundOdd_jam_prec e hodd),
      rounded, jammed, hgrs, hdig']
    exact mul_iff e t.neg (by omega)

/-- **Correct rounding of multiplication.**  The product of two numbers whose exact product has
an exponent of the extended range is that product rounded once, with sign, significand, exponent
and inexact flag right, exactly when `MulRounds` holds; and the range check that follows leaves
the result alone unless rounding carried it out of the range. -/
theorem mulno_roundsTo_iff (e : Env) (he : e.Register) (dst src : Number) (f : Clean)
    (hr : InRange (dst.val * src.val)) :
    (RoundsTo e (mulRound e dst.toOp (src.start f)) (dst.val * src.val) ↔
        MulRounds e (src.digits * dst.digits)) ∧
      ((mulRound e dst.toOp (src.start f)).expBits ≤ 0x7FFE →
        mulno e dst.toOp (src.start f) = mulRound e dst.toOp (src.start f)) :=
  ⟨mulRound_iff e he dst src f hr, fun h => overRange_of_inRange he h⟩

/-- `1 + 2^-63`. -/
def justOverOne : Number := ⟨⟨0, 0, 0x3FFF, ⟨0x8000, 0, 0, 1⟩⟩, by decide, by decide⟩

/-- `3 / 2`. -/
def oneAndAHalf : Number := ⟨⟨0, 0, 0x3FFF, ⟨0xC000, 0, 0, 0⟩⟩, by decide, by decide⟩

/-- The theorem at `3/2 * (1 + 2^-63)`, whose product has a leading zero. -/
theorem mulno_roundsTo_iff_justOverOne :
    (RoundsTo extNearest (mulRound extNearest oneAndAHalf.toOp (justOverOne.start noErrors))
        (oneAndAHalf.val * justOverOne.val) ↔
      MulRounds extNearest (justOverOne.digits * oneAndAHalf.digits)) ∧
      ((mulRound extNearest oneAndAHalf.toOp (justOverOne.start noErrors)).expBits ≤ 0x7FFE →
        mulno extNearest oneAndAHalf.toOp (justOverOne.start noErrors) =
          mulRound extNearest oneAndAHalf.toOp (justOverOne.start noErrors)) :=
  mulno_roundsTo_iff extNearest (by decide) oneAndAHalf justOverOne noErrors
    (by rw [InRange, expOf_mul]; decide)

/-- **The rounding byte that is not shifted.**  `3/2 * (1 + 2^-63)` in extended precision,
rounding to nearest, is not the exact product rounded. -/
theorem mul_misrounds :
    ¬ ∀ (e : Env) (dst src : Number) (f : Clean), e.Register → InRange (dst.val * src.val) →
      RoundsTo e (mulRound e dst.toOp (src.start f)) (dst.val * src.val) := by
  intro h
  have hr : InRange (oneAndAHalf.val * justOverOne.val) := by
    rw [InRange, expOf_mul]
    decide
  have hround := h extNearest oneAndAHalf justOverOne noErrors (by decide) hr
  rw [mulRound_iff extNearest (by decide) _ _ _ hr] at hround
  revert hround
  unfold MulRounds
  decide

end Cpm8000.Fpe
