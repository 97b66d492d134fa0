/-
# Quad registers

Four words as one 64-bit number, and the chains of word operations that work on it: a carry
enters the last word and leaves the first (`adcq`, `sbcq`), or enters the first and leaves the
last (`rrcq`).  As for single words, each chain has one linear equation, and a chain is not
unfolded after this file.
-/
import Cpm8000.Arith.Word

namespace Cpm8000.Arith

/-- Four words, the leading one first. -/
structure Quad where
  w0 : BitVec 16
  w1 : BitVec 16
  w2 : BitVec 16
  w3 : BitVec 16
  deriving DecidableEq

namespace Quad

/-- The number the four words spell. -/
def toNat (q : Quad) : ℕ :=
  ((q.w0.toNat * 65536 + q.w1.toNat) * 65536 + q.w2.toNat) * 65536 + q.w3.toNat

theorem toNat_lt (q : Quad) : q.toNat < 2 ^ 64 := by
  have := q.w0.isLt
  have := q.w1.isLt
  have := q.w2.isLt
  have := q.w3.isLt
  unfold toNat
  omega

/-- The leading long word. -/
def hi (q : Quad) : BitVec 32 := long q.w0 q.w1

/-- The trailing long word. -/
def lo (q : Quad) : BitVec 32 := long q.w2 q.w3

/-- The quad of two long words. -/
def ofLongs (h l : BitVec 32) : Quad := ⟨hiw h, low h, hiw l, low l⟩

/-- The quad that spells a number, modulo `2^64`. -/
def ofNat (n : ℕ) : Quad :=
  ⟨BitVec.ofNat 16 (n / 2 ^ 48), BitVec.ofNat 16 (n / 2 ^ 32), BitVec.ofNat 16 (n / 2 ^ 16),
    BitVec.ofNat 16 n⟩

/-- The zero quad. -/
def zero : Quad := ⟨0, 0, 0, 0⟩

theorem toNat_eq (q : Quad) : q.toNat = q.hi.toNat * 4294967296 + q.lo.toNat := by
  simp only [toNat, hi, lo, toNat_long]
  omega

theorem toNat_ofNat (n : ℕ) : (ofNat n).toNat = n % 2 ^ 64 := by
  simp only [toNat, ofNat, BitVec.toNat_ofNat]
  omega

@[simp] theorem hi_ofLongs (h l : BitVec 32) : (ofLongs h l).hi = h := by
  apply BitVec.eq_of_toNat_eq
  have := h.isLt
  simp only [hi, ofLongs, toNat_long, toNat_hiw, toNat_low]
  omega

@[simp] theorem lo_ofLongs (h l : BitVec 32) : (ofLongs h l).lo = l := by
  apply BitVec.eq_of_toNat_eq
  have := l.isLt
  simp only [lo, ofLongs, toNat_long, toNat_hiw, toNat_low]
  omega

/-- The leading bit, read off the leading word. -/
theorem getLsbD_w0_iff (q : Quad) : q.w0.getLsbD 15 = true ↔ 2 ^ 63 ≤ q.toNat := by
  have h0 := q.w0.isLt
  have h1 := q.w1.isLt
  have h2 := q.w2.isLt
  have h3 := q.w3.isLt
  rw [getLsbD_eq_true_iff]
  simp only [toNat]
  omega

theorem toNat_inj {q r : Quad} (h : q.toNat = r.toNat) : q = r := by
  obtain ⟨a, b, c, d⟩ := q
  obtain ⟨a', b', c', d'⟩ := r
  have hb := b.isLt
  have hc := c.isLt
  have hd := d.isLt
  have hb' := b'.isLt
  have hc' := c'.isLt
  have hd' := d'.isLt
  simp only [toNat] at h
  simp only [mk.injEq, ← BitVec.toNat_inj]
  omega

@[simp] theorem toNat_zero : zero.toNat = 0 := by decide

/-- All four words clear. -/
theorem toNat_eq_zero_iff (q : Quad) : q.toNat = 0 ↔ q = zero := by
  obtain ⟨a, b, c, d⟩ := q
  have h0 : (0 : BitVec 16).toNat = 0 := rfl
  simp only [toNat, zero, mk.injEq, ← BitVec.toNat_inj, h0]
  omega

end Quad

/-- Add with carry, from the last word to the first. -/
def adcq (x y : Quad) (c : Bool) : Flagged Quad :=
  let d3 := adc x.w3 y.w3 c
  let d2 := adc x.w2 y.w2 d3.c
  let d1 := adc x.w1 y.w1 d2.c
  let d0 := adc x.w0 y.w0 d1.c
  ⟨⟨d0.val, d1.val, d2.val, d3.val⟩, d0.c⟩

/-- Subtract with borrow, from the last word to the first. -/
def sbcq (x y : Quad) (c : Bool) : Flagged Quad :=
  let d3 := sbc x.w3 y.w3 c
  let d2 := sbc x.w2 y.w2 d3.c
  let d1 := sbc x.w1 y.w1 d2.c
  let d0 := sbc x.w0 y.w0 d1.c
  ⟨⟨d0.val, d1.val, d2.val, d3.val⟩, d0.c⟩

/-- Add the trailing long words, then the leading words with carry. -/
def addlq (x y : Quad) : Flagged Quad :=
  let d2 := add x.lo y.lo
  let d1 := adc x.w1 y.w1 d2.c
  let d0 := adc x.w0 y.w0 d1.c
  ⟨⟨d0.val, d1.val, hiw d2.val, low d2.val⟩, d0.c⟩

/-- Subtract the trailing long words, then the leading words with borrow. -/
def sublq (x y : Quad) : Flagged Quad :=
  let d2 := sub x.lo y.lo
  let d1 := sbc x.w1 y.w1 d2.c
  let d0 := sbc x.w0 y.w0 d1.c
  ⟨⟨d0.val, d1.val, hiw d2.val, low d2.val⟩, d0.c⟩

/-- Rotate right through the carry, from the first word to the last. -/
def rrcq (x : Quad) (c : Bool) : Flagged Quad :=
  let d0 := rrc x.w0 c
  let d1 := rrc x.w1 d0.c
  let d2 := rrc x.w2 d1.c
  let d3 := rrc x.w3 d2.c
  ⟨⟨d0.val, d1.val, d2.val, d3.val⟩, d3.c⟩

theorem adcq_spec (x y : Quad) (c : Bool) :
    (adcq x y c).val.toNat + 2 ^ 64 * (adcq x y c).c.toNat = x.toNat + y.toNat + c.toNat := by
  have h3 := adc_spec x.w3 y.w3 c
  have h2 := adc_spec x.w2 y.w2 (adc x.w3 y.w3 c).c
  have h1 := adc_spec x.w1 y.w1 (adc x.w2 y.w2 (adc x.w3 y.w3 c).c).c
  have h0 := adc_spec x.w0 y.w0 (adc x.w1 y.w1 (adc x.w2 y.w2 (adc x.w3 y.w3 c).c).c).c
  simp only [adcq, Quad.toNat]
  omega

theorem sbcq_spec (x y : Quad) (c : Bool) :
    (sbcq x y c).val.toNat + y.toNat + c.toNat = x.toNat + 2 ^ 64 * (sbcq x y c).c.toNat := by
  have h3 := sbc_spec x.w3 y.w3 c
  have h2 := sbc_spec x.w2 y.w2 (sbc x.w3 y.w3 c).c
  have h1 := sbc_spec x.w1 y.w1 (sbc x.w2 y.w2 (sbc x.w3 y.w3 c).c).c
  have h0 := sbc_spec x.w0 y.w0 (sbc x.w1 y.w1 (sbc x.w2 y.w2 (sbc x.w3 y.w3 c).c).c).c
  simp only [sbcq, Quad.toNat]
  omega

theorem addlq_spec (x y : Quad) :
    (addlq x y).val.toNat + 2 ^ 64 * (addlq x y).c.toNat = x.toNat + y.toNat := by
  have h2 := add_spec x.lo y.lo
  have h1 := adc_spec x.w1 y.w1 (add x.lo y.lo).c
  have h0 := adc_spec x.w0 y.w0 (adc x.w1 y.w1 (add x.lo y.lo).c).c
  simp only [Quad.lo, toNat_long] at h2
  simp only [addlq, Quad.toNat, Quad.lo, toNat_hiw, toNat_low]
  simp only [Quad.lo] at h1 h0
  omega

theorem sublq_spec (x y : Quad) :
    (sublq x y).val.toNat + y.toNat = x.toNat + 2 ^ 64 * (sublq x y).c.toNat := by
  have h2 := sub_spec x.lo y.lo
  have h1 := sbc_spec x.w1 y.w1 (sub x.lo y.lo).c
  have h0 := sbc_spec x.w0 y.w0 (sbc x.w1 y.w1 (sub x.lo y.lo).c).c
  simp only [Quad.lo, toNat_long] at h2
  simp only [sublq, Quad.toNat, Quad.lo, toNat_hiw, toNat_low]
  simp only [Quad.lo] at h1 h0
  omega

theorem rrcq_spec (x : Quad) (c : Bool) :
    2 * (rrcq x c).val.toNat + (rrcq x c).c.toNat = x.toNat + 2 ^ 64 * c.toNat := by
  have h0 := rrc_spec x.w0 c (by norm_num)
  have h1 := rrc_spec x.w1 (rrc x.w0 c).c (by norm_num)
  have h2 := rrc_spec x.w2 (rrc x.w1 (rrc x.w0 c).c).c (by norm_num)
  have h3 := rrc_spec x.w3 (rrc x.w2 (rrc x.w1 (rrc x.w0 c).c).c).c (by norm_num)
  simp only [rrcq, Quad.toNat]
  omega

/-! ## Comparing -/

/-- The unsigned comparison of two long words, as the flags it leaves. -/
def cpl (x y : BitVec 32) : Ordering :=
  if x.toNat < y.toNat then .lt else if y.toNat < x.toNat then .gt else .eq

/-- The comparison of two quads, leading long words first. -/
def cplq (x y : Quad) : Ordering :=
  if cpl x.hi y.hi = .eq then cpl x.lo y.lo else cpl x.hi y.hi

/-- What a comparison says. -/
theorem cpl_cases (x y : BitVec 32) :
    cpl x y = .lt ∧ x.toNat < y.toNat ∨ cpl x y = .eq ∧ x.toNat = y.toNat ∨
      cpl x y = .gt ∧ y.toNat < x.toNat := by
  unfold cpl
  split_ifs with h1 h2
  · exact Or.inl ⟨rfl, h1⟩
  · exact Or.inr (Or.inr ⟨rfl, h2⟩)
  · exact Or.inr (Or.inl ⟨rfl, by omega⟩)

theorem cplq_cases (x y : Quad) :
    cplq x y = .lt ∧ x.toNat < y.toNat ∨ cplq x y = .eq ∧ x.toNat = y.toNat ∨
      cplq x y = .gt ∧ y.toNat < x.toNat := by
  have hx := x.lo.isLt
  have hy := y.lo.isLt
  rw [Quad.toNat_eq x, Quad.toNat_eq y, cplq]
  rcases cpl_cases x.hi y.hi with ⟨h, hlt⟩ | ⟨h, heq⟩ | ⟨h, hlt⟩
  · rw [h, if_neg (by decide)]
    exact Or.inl ⟨rfl, by omega⟩
  · rw [h, if_pos rfl]
    rcases cpl_cases x.lo y.lo with ⟨h', hlt⟩ | ⟨h', heq'⟩ | ⟨h', hlt⟩
    · exact Or.inl ⟨h', by omega⟩
    · exact Or.inr (Or.inl ⟨h', by omega⟩)
    · exact Or.inr (Or.inr ⟨h', by omega⟩)
  · rw [h, if_neg (by decide)]
    exact Or.inr (Or.inr ⟨rfl, by omega⟩)

theorem cplq_lt_iff (x y : Quad) : cplq x y = .lt ↔ x.toNat < y.toNat := by
  rcases cplq_cases x y with ⟨h, hlt⟩ | ⟨h, heq⟩ | ⟨h, hgt⟩ <;> rw [h]
  · exact iff_of_true rfl hlt
  · exact iff_of_false (by decide) (by omega)
  · exact iff_of_false (by decide) (by omega)

end Cpm8000.Arith
