/-
# Binary to decimal

The integer is divided by sixteen times `10 ^ 18`, which gives a binary fraction with the first decimal
digit in its leading four bits.  The quotient is chopped and one is added, so that the fraction is never
less than the number; nineteen times the digit is stripped off and the rest multiplied by ten.

* `stripDigit_spec`: a turn moves the leading four bits to the end of the decimal number.
* `bcdDigits_spec`: the digits of a fraction.
* `frombin_digits`: an integer below `10 ^ 19` gives its nineteen digits.
-/
import Cpm8000.Arith.Bcd
import Cpm8000.Fpe.Align
import Cpm8000.Fpe.Div

namespace Cpm8000.Fpe

open Arith

/-! ## 1. The code -/

/-- Align the integer with its point to the right of rq8, and round it there. -/
def intadjust (e : Env) (s : Acc) : Option Acc :=
  (normordigs s).map fun s =>
    let r7 := sub s.r7 0x403E
    let rh5 := if s.r7.sle 0x403E then s.rh5 else set s.rh5 7
    foolsround (0x0C &&& e.modes) 0x04 (shiftdigs (-r7.val) false { s with r7 := r7.val, rh5 := rh5 })

/-- Rotate the digits of `src` right through the low digit of `link`; both are returned. -/
def rrdb (link src : BitVec 8) : BitVec 8 × BitVec 8 :=
  (BitVec.ofNat 8 (link.toNat / 16 * 16 + src.toNat % 16),
    BitVec.ofNat 8 (link.toNat % 16 * 16 + src.toNat / 16))

/-- The registers of the loop: the decimal number in r7 and rq0, the quotient in rr4 and rr10. -/
structure Strip where
  r7 : BitVec 16
  rq0 : Quad
  rh6 : BitVec 8
  quo : Quad

/-- Strip the digit from the lead nibble of rh4. -/
def stripDigit (s : Strip) : Strip :=
  let a := rldb (hib s.r7) (lob s.r7)
  let b := rldb a.2 (hib s.rq0.w0)
  let c := rldb b.2 (lob s.rq0.w0)
  let d := rldb c.2 (hib s.rq0.w1)
  let e := rldb d.2 (lob s.rq0.w1)
  let f := rldb e.2 (hib s.rq0.w2)
  let g := rldb f.2 (lob s.rq0.w2)
  let h := rldb g.2 (hib s.rq0.w3)
  let i := rldb h.2 (lob s.rq0.w3)
  let j := rldb i.2 (hib s.quo.w0)
  let k := rrdb s.rh6 j.2
  { r7 := word a.1 b.1
    rq0 := ⟨word c.1 d.1, word e.1 f.1, word g.1 h.1, word i.1 j.1⟩
    rh6 := k.1
    quo := { s.quo with w0 := word k.2 (lob s.quo.w0) } }

/-- Ten times: twice, saved, eight times, and the two added. -/
def tenfold (q : Quad) : Quad :=
  let two := (addlq q q).val
  let four := (addlq two two).val
  let eight := (addlq four four).val
  (addlq eight two).val

/-- A turn of the loop. -/
def Flbcd37 (s : Strip) : Strip :=
  let t := stripDigit s
  { t with quo := tenfold t.quo }

/-- The nineteen digits, the last turn without the multiplication. -/
def bcdDigits (r7 : BitVec 16) (quo : Quad) : BitVec 16 × Quad :=
  let s := stripDigit (Flbcd37^[18] ⟨r7, Quad.zero, 0, quo⟩)
  (s.r7, s.rq0)

/-- Ten to the nineteenth. -/
def bcdLimit : Quad := ⟨0x8AC7, 0x2304, 0x89E8, 0x0000⟩

/-- Sixteen times ten to the eighteenth. -/
def bcdDivisor : Quad := ⟨0xDE0B, 0x6B3A, 0x7640, 0x0000⟩

/-- What is stored, if anything, and the error byte. -/
structure Ldd where
  stored : Option (BitVec 16 × Quad)
  rh5 : BitVec 8

/-- Inf or NaNs cannot be faithfully represented. -/
def lddjnk (s : Acc) : Ldd :=
  ⟨some (0xFFFF, ⟨0xFFFF, 0xFFFF, 0xFFFF, 0xFFFF⟩), set s.rh5 7⟩

/-- A zero. -/
def ldd0 (s : Acc) : Ldd := ⟨some (0, s.rq8), s.rh5⟩

/-- The digits of the integer in rq8. -/
def Flbcd35 (s : Acc) : Ldd :=
  let quo := (nonrestore 65 s.rq8 bcdDivisor).rq8
  let quo := (adcq quo ⟨0, 0, 0, 1⟩ false).val
  ⟨some (bcdDigits (0x8000 &&& word s.rh6 s.rl6) quo), s.rh5⟩

/-- Handle nonzero numbers. -/
def lddno (e : Env) (s : Acc) : Option Ldd :=
  (intadjust e s).map fun s =>
    if s.rh5.getLsbD 7 then lddjnk s
    else if cplq s.rq8 bcdLimit = .lt then Flbcd35 s
    else lddjnk s

/-- Binary to decimal; a trapping NaN stores nothing. -/
def frombin (e : Env) (u : Unpacked) : Option Ldd :=
  match u.kind with
  | .num => lddno e u.acc
  | .zero => some (ldd0 u.acc)
  | .inf => some (lddjnk u.acc)
  | .qnan => some (lddjnk u.acc)
  | .snan => some ⟨none, set u.rh5 6⟩

/-! ## 2. A turn of the loop -/

@[simp] theorem rldb_link (link src : BitVec 8) :
    (rldb link src).1.toNat = link.toNat / 16 * 16 + src.toNat / 16 := by
  have hl := link.isLt
  have hs := src.isLt
  simp only [rldb, BitVec.toNat_ofNat]
  omega

theorem rldb_src (link src : BitVec 8) :
    (rldb link src).2.toNat = src.toNat % 16 * 16 + link.toNat % 16 := by
  have hl := link.isLt
  have hs := src.isLt
  simp only [rldb, BitVec.toNat_ofNat]
  omega

@[simp] theorem rldb_src_div (link src : BitVec 8) : (rldb link src).2.toNat / 16 = src.toNat % 16 := by
  rw [rldb_src]
  omega

@[simp] theorem rldb_src_mod (link src : BitVec 8) : (rldb link src).2.toNat % 16 = link.toNat % 16 := by
  rw [rldb_src]
  omega

theorem rrdb_link (link src : BitVec 8) :
    (rrdb link src).1.toNat = link.toNat / 16 * 16 + src.toNat % 16 := by
  have hl := link.isLt
  have hs := src.isLt
  simp only [rrdb, BitVec.toNat_ofNat]
  omega

theorem rrdb_src (link src : BitVec 8) :
    (rrdb link src).2.toNat = link.toNat % 16 * 16 + src.toNat / 16 := by
  have hl := link.isLt
  have hs := src.isLt
  simp only [rrdb, BitVec.toNat_ofNat]
  omega

/-- The decimal number with its sign. -/
def Strip.toNat (s : Strip) : ℕ := s.r7.toNat * 2 ^ 64 + s.rq0.toNat

/-- A word of the decimal number, moved up by the digit that comes from the next one. -/
theorem strip_word (w v : ℕ) :
    (w / 256 % 16 * 16 + w % 256 / 16) * 256 + (w % 256 % 16 * 16 + v / 256 / 16) =
      w % 4096 * 16 + v / 4096 := by
  omega

/-- The leading word, the digit after the sign being zero. -/
theorem strip_first {w : ℕ} (v : ℕ) (h : w / 256 % 16 = 0) :
    (w / 256 / 16 * 16 + w % 256 / 16) * 256 + (w % 256 % 16 * 16 + v / 256 / 16) =
      w / 4096 * 4096 + w % 256 * 16 + v / 4096 := by
  omega

/-- Four words moved up by a digit. -/
theorem words_up {q0 q1 q2 q3 : ℕ} (d : ℕ) :
    (((q0 % 4096 * 16 + q1 / 4096) * 65536 + (q1 % 4096 * 16 + q2 / 4096)) * 65536 +
        (q2 % 4096 * 16 + q3 / 4096)) * 65536 + (q3 % 4096 * 16 + d) =
      (((q0 % 4096 * 65536 + q1) * 65536 + q2) * 65536 + q3) * 16 + d := by
  have e1 := Nat.div_add_mod q1 4096
  have e2 := Nat.div_add_mod q2 4096
  have e3 := Nat.div_add_mod q3 4096
  generalize q1 / 4096 = a1 at *
  generalize q2 / 4096 = a2 at *
  generalize q3 / 4096 = a3 at *
  generalize q1 % 4096 = b1 at *
  generalize q2 % 4096 = b2 at *
  generalize q3 % 4096 = b3 at *
  subst e1 e2 e3
  ring

/-- The leading word takes the digit that leaves the others. -/
theorem rest_up {S T t q0 q1 q2 q3 : ℕ} (d : ℕ)
    (hs : (S * 4096 + t) * 2 ^ 64 + (((q0 * 65536 + q1) * 65536 + q2) * 65536 + q3) = S * 2 ^ 76 + T) :
    (S * 4096 + t * 16 + q0 / 4096) * 2 ^ 64 +
        ((((q0 % 4096 * 65536 + q1) * 65536 + q2) * 65536 + q3) * 16 + d) = S * 2 ^ 76 + (T * 16 + d) := by
  have e0 := Nat.div_add_mod q0 4096
  generalize q0 / 4096 = a0 at *
  generalize q0 % 4096 = b0 at *
  subst e0
  have hT : T = t * 2 ^ 64 + ((((4096 * a0 + b0) * 65536 + q1) * 65536 + q2) * 65536 + q3) := by
    apply Nat.add_left_cancel (n := S * 2 ^ 76)
    rw [← hs]
    ring
  rw [hT]
  ring

/-- A word without its lead nibble. -/
theorem strip_lead (w : ℕ) : (0 % 16 * 16 + w / 256 % 16) * 256 + w % 256 = w % 4096 := by
  omega

theorem mod_two_pow_60 {q0 q1 q2 q3 : ℕ} (h1 : q1 < 2 ^ 16) (h2 : q2 < 2 ^ 16) (h3 : q3 < 2 ^ 16) :
    ((q0 % 4096 * 65536 + q1) * 65536 + q2) * 65536 + q3 =
      (((q0 * 65536 + q1) * 65536 + q2) * 65536 + q3) % 2 ^ 60 := by
  omega

/-- **Stripping a digit**, while there is room for it: the decimal number is moved up by it, the sign
staying in the first four bits, and the quotient loses it. -/
theorem stripDigit_spec {s : Strip} {S T : ℕ} (hs : s.toNat = S * 2 ^ 76 + T) (hT : T < 2 ^ 72)
    (h6 : s.rh6 = 0) :
    (stripDigit s).toNat = S * 2 ^ 76 + (T * 16 + s.quo.toNat / 2 ^ 60) ∧
      (stripDigit s).quo.toNat = s.quo.toNat % 2 ^ 60 ∧ (stripDigit s).rh6 = 0 := by
  have h7 := s.r7.isLt
  have hq0 := s.rq0.w0.isLt
  have hq1 := s.rq0.w1.isLt
  have hq2 := s.rq0.w2.isLt
  have hq3 := s.rq0.w3.isLt
  have hu0 := s.quo.w0.isLt
  have hu1 := s.quo.w1.isLt
  have hu2 := s.quo.w2.isLt
  have hu3 := s.quo.w3.isLt
  have h60 : s.rh6.toNat = 0 := by rw [h6]; rfl
  rw [Strip.toNat, Quad.toNat] at hs
  obtain ⟨t, ht, hr7⟩ : ∃ t < 256, s.r7.toNat = S * 4096 + t := ⟨T / 2 ^ 64, by omega, by omega⟩
  -- nothing is rotated out of the decimal number
  have hlow : s.r7.toNat / 256 % 16 = 0 := by omega
  have hd : s.quo.toNat / 2 ^ 60 = s.quo.w0.toNat / 4096 := by
    rw [Quad.toNat]
    omega
  refine ⟨?_, ?_, ?_⟩
  · have e7 : (stripDigit s).r7.toNat = s.r7.toNat / 4096 * 4096 + s.r7.toNat % 256 * 16 +
        s.rq0.w0.toNat / 4096 := by
      rw [← strip_first _ hlow]
      simp only [stripDigit, toNat_word, rldb_link, rldb_src_div, toNat_hib, toNat_lob]
    have e0 : (stripDigit s).rq0.w0.toNat = s.rq0.w0.toNat % 4096 * 16 + s.rq0.w1.toNat / 4096 := by
      rw [← strip_word]
      simp only [stripDigit, toNat_word, rldb_link, rldb_src_div, toNat_hib, toNat_lob]
    have e1 : (stripDigit s).rq0.w1.toNat = s.rq0.w1.toNat % 4096 * 16 + s.rq0.w2.toNat / 4096 := by
      rw [← strip_word]
      simp only [stripDigit, toNat_word, rldb_link, rldb_src_div, toNat_hib, toNat_lob]
    have e2 : (stripDigit s).rq0.w2.toNat = s.rq0.w2.toNat % 4096 * 16 + s.rq0.w3.toNat / 4096 := by
      rw [← strip_word]
      simp only [stripDigit, toNat_word, rldb_link, rldb_src_div, toNat_hib, toNat_lob]
    have e3 : (stripDigit s).rq0.w3.toNat = s.rq0.w3.toNat % 4096 * 16 + s.quo.w0.toNat / 4096 := by
      rw [← strip_word]
      simp only [stripDigit, toNat_word, rldb_link, rldb_src_div, toNat_hib, toNat_lob]
    have h256 : (S * 4096 + t) / 4096 = S ∧ (S * 4096 + t) % 256 = t := by
      constructor <;> omega
    rw [Strip.toNat, Quad.toNat, e7, e0, e1, e2, e3, hd, words_up, hr7, h256.1, h256.2]
    rw [hr7] at hs
    exact rest_up _ hs
  · have e0 : (stripDigit s).quo.w0.toNat = s.quo.w0.toNat % 4096 := by
      simp only [stripDigit, toNat_word, rrdb_src, rldb_src_div, toNat_hib, toNat_lob, h60]
      exact strip_lead _
    have e1 : (stripDigit s).quo.w1 = s.quo.w1 := rfl
    have e2 : (stripDigit s).quo.w2 = s.quo.w2 := rfl
    have e3 : (stripDigit s).quo.w3 = s.quo.w3 := rfl
    rw [Quad.toNat, Quad.toNat, e0, e1, e2, e3]
    exact mod_two_pow_60 hu1 hu2 hu3
  · apply eq_zero_of_toNat
    simp only [stripDigit, rrdb_link, rldb_src_mod, toNat_hib, h60, hlow]

theorem addlq_of_lt {x y : Quad} (h : x.toNat + y.toNat < 2 ^ 64) :
    (addlq x y).val.toNat = x.toNat + y.toNat := by
  have hs := addlq_spec x y
  have hc := Bool.toNat_le (addlq x y).c
  omega

theorem tenfold_spec {q : Quad} (h : 10 * q.toNat < 2 ^ 64) : (tenfold q).toNat = 10 * q.toNat := by
  have h2 : (addlq q q).val.toNat = 2 * q.toNat := by rw [addlq_of_lt (by omega)]; omega
  have h4 : (addlq (addlq q q).val (addlq q q).val).val.toNat = 4 * q.toNat := by
    rw [addlq_of_lt (by omega)]
    omega
  have h8 : (addlq (addlq (addlq q q).val (addlq q q).val).val
      (addlq (addlq q q).val (addlq q q).val).val).val.toNat = 8 * q.toNat := by
    rw [addlq_of_lt (by omega)]
    omega
  rw [tenfold, addlq_of_lt (by omega)]
  omega

/-! ## 3. The digits -/

/-- After `i` turns: `i` digits are in the decimal number, and the quotient is the fraction of the
others. -/
structure Stripped (N S δ i : ℕ) (s : Strip) : Prop where
  toNat : s.toNat = S * 2 ^ 76 + bcd i (N / 10 ^ (19 - i))
  fraction : Fraction 60 (18 - i) (N % 10 ^ (19 - i)) δ s.quo.toNat
  rh6 : s.rh6 = 0

/-- The number one digit further. -/
theorem div_succ {N i : ℕ} (hi : i < 19) :
    N / 10 ^ (18 - i) / 10 = N / 10 ^ (19 - i) ∧ N / 10 ^ (18 - i) % 10 = N % 10 ^ (19 - i) / 10 ^ (18 - i) ∧
      N % 10 ^ (18 - i) = N % 10 ^ (19 - i) % 10 ^ (18 - i) := by
  have hp : 10 ^ (19 - i) = 10 ^ (18 - i) * 10 := by
    rw [← Nat.pow_succ]
    congr 1
    omega
  refine ⟨by rw [Nat.div_div_eq_div_mul, hp], ?_, ?_⟩
  · rw [hp, Nat.mod_mul_right_div_self]
  · rw [hp, Nat.mod_mul_right_mod]

/-- The next digit is in the lead nibble, and moves to the decimal number. -/
theorem Stripped.strip {N S δ i : ℕ} {s : Strip} (h : Stripped N S δ i s) (hi : i < 19) :
    (stripDigit s).toNat = S * 2 ^ 76 + bcd (i + 1) (N / 10 ^ (18 - i)) ∧
      (stripDigit s).quo.toNat = s.quo.toNat % 2 ^ 60 ∧ (stripDigit s).rh6 = 0 := by
  obtain ⟨hdiv, hmod, -⟩ := div_succ (N := N) hi
  have hlt : bcd i (N / 10 ^ (19 - i)) < 2 ^ 72 := by
    refine lt_of_lt_of_le (bcd_lt _ _) ?_
    calc 16 ^ i ≤ 16 ^ 18 := Nat.pow_le_pow_right (by norm_num) (by omega)
      _ = 2 ^ 72 := by norm_num
  obtain ⟨h1, h2, h3⟩ := stripDigit_spec h.toNat hlt h.rh6
  refine ⟨?_, h2, h3⟩
  rw [h1, h.fraction.digit, bcd_succ, hdiv, hmod]

theorem Stripped.step {N S δ i : ℕ} {s : Strip} (h : Stripped N S δ i s) (hi : i < 18) :
    Stripped N S δ (i + 1) (Flbcd37 s) := by
  obtain ⟨h1, h2, h3⟩ := h.strip (by omega)
  obtain ⟨-, -, hmod⟩ := div_succ (N := N) (i := i) (by omega)
  have hsub : 19 - (i + 1) = 18 - i := by omega
  have h18 : 18 - i = 18 - (i + 1) + 1 := by omega
  have hlt := Nat.mod_lt s.quo.toNat (Nat.two_pow_pos 60)
  refine ⟨?_, ?_, h3⟩
  · rw [hsub]
    exact h1
  · have hquo : (Flbcd37 s).quo.toNat = 10 * (s.quo.toNat % 2 ^ 60) := by
      rw [Flbcd37, ← h2]
      exact tenfold_spec (by omega)
    have hf := h.fraction
    rw [h18] at hf
    rw [hquo, hsub, hmod, h18]
    exact hf.rest

/-- **The digits of a fraction.** -/
theorem bcdDigits_spec {N S δ : ℕ} {r7 : BitVec 16} {quo : Quad} (hN : N < 10 ^ 19)
    (hr7 : r7.toNat = S * 2 ^ 12) (hf : Fraction 60 18 N δ quo.toNat) :
    (bcdDigits r7 quo).1.toNat * 2 ^ 64 + (bcdDigits r7 quo).2.toNat = S * 2 ^ 76 + bcd 19 N := by
  have h0 : Stripped N S δ 0 ⟨r7, Quad.zero, 0, quo⟩ := by
    refine ⟨?_, ?_, rfl⟩
    · rw [Strip.toNat, hr7, Quad.toNat_zero, bcd_zero]
      ring
    · rw [Nat.sub_zero, Nat.sub_zero, Nat.mod_eq_of_lt hN]
      exact hf
  have hrun : ∀ i ≤ 18, Stripped N S δ i (Flbcd37^[i] ⟨r7, Quad.zero, 0, quo⟩) := by
    intro i hi
    induction i with
    | zero => exact h0
    | succ i ih =>
      rw [Function.iterate_succ_apply']
      exact (ih (by omega)).step (by omega)
  have hlast := ((hrun 18 le_rfl).strip (by norm_num)).1
  rw [Nat.sub_self, Nat.pow_zero, Nat.div_one] at hlast
  exact hlast

/-! ## 4. The integer and its fraction -/

/-- An integer in rq8, of a sign, without the integer overflow flag. -/
structure AtUnit (o : Op) (N : ℕ) (s : Acc) : Prop where
  digits : s.rq8.toNat = N
  rh6 : s.rh6 = o.rh6
  noOverflow : s.rh5.getLsbD 7 = false

/-- The extended precision has room for all digits. -/
theorem foolsround_unit (m : BitVec 8) {s : Acc} (h5 : s.rl5 = 0) :
    (foolsround m 0x04 s).toOp = s.toOp := by
  have hr : round ⟨0x04, m, 0⟩ s = foolsround m 0x04 s := by
    have hf : (0x0F : BitVec 8) &&& 0x04 = 0x04 := by decide
    rw [round, hf]
  have hp : (⟨0x04, m, 0⟩ : Env).prec = 64 := by simp [Env.prec]
  rw [← hr]
  refine (round_exact ⟨0x04, m, 0⟩ (s := s) (m := s.digits) h5 ?_).1
  rw [hp, Nat.sub_self, Nat.pow_zero, Nat.mul_one]

theorem foolsround_rh5 (m : BitVec 8) (s : Acc) :
    (foolsround m 0x04 s).rh5.getLsbD 7 = s.rh5.getLsbD 7 := by
  have hr : round ⟨0x04, m, 0⟩ s = foolsround m 0x04 s := by
    have hf : (0x0F : BitVec 8) &&& 0x04 = 0x04 := by decide
    rw [round, hf]
  rw [← hr]
  rcases round_rh5 ⟨0x04, m, 0⟩ s with h | h
  · rw [h]
  · rw [h, getLsbD_set _ _ _ (by norm_num)]
    exact Bool.or_false _

/-- Alignment of a number whose exponent is that of the unit, or less. -/
theorem intadjust_eq (e : Env) (o : Number) (f : Clean) {k : ℕ} (hk : k ≤ 63)
    (hE : o.r7.toNat + k = 0x403E) :
    ∃ r7, intadjust e (o.start f) = some (foolsround (0x0C &&& e.modes) 0x04
      ((shifD1 false)^[k] ⟨⟨o.rh6, o.rl6, r7, o.rq8⟩, f.rh5, 0⟩)) := by
  have hlit : (0x403E : BitVec 16).toNat = 0x403E := rfl
  have hsle : o.r7.sle 0x403E = true := by
    rw [BitVec.sle_iff_toInt_le, BitVec.toInt_eq_toNat_cond, BitVec.toInt_eq_toNat_cond, hlit,
      if_pos (by omega), if_pos (by omega)]
    omega
  have hcount : (-(sub o.r7 0x403E).val).toNat = k := by
    have hs := sub_spec o.r7 0x403E
    have hv := (sub o.r7 0x403E).val.isLt
    have hc := Bool.toNat_le (sub o.r7 0x403E).c
    rw [BitVec.toNat_neg]
    omega
  have hsmall : (-(sub o.r7 0x403E).val).toNat < 2 ^ 15 := by
    rw [hcount]
    exact lt_of_le_of_lt hk (by norm_num)
  refine ⟨(sub o.r7 0x403E).val, ?_⟩
  have hshift := shiftdigs_right hsmall ⟨⟨o.rh6, o.rl6, (sub o.r7 0x403E).val, o.rq8⟩, f.rh5, 0⟩
  rw [hcount] at hshift
  rw [intadjust, normordigs_of_normal (s := o.start f) o.normal, ← hshift]
  simp only [Option.map_some, Op.start, hsle, if_true]

/-- **An integer is aligned without a loss.** -/
theorem intadjust_spec (e : Env) (o : Number) (f : Clean) (hf : f.rh5.getLsbD 7 = false) {N : ℕ}
    (h0 : 0 < N) (hN : N < 2 ^ 64) (h : o.mag = N) :
    ∃ r, intadjust e (o.start f) = some r ∧ AtUnit o.toOp N r := by
  obtain ⟨k, hk, hE, hd⟩ := digits_of_natCast o.normal h0 hN h
  have hr6 : o.rl6 = 0 := rl6_of_expo (by omega) (by omega)
  have hr7 : (o.r7.toNat : ℤ) = o.expo := (expo_of_rl6 hr6).symm
  obtain ⟨r7, hint⟩ := intadjust_eq e o f hk (by omega)
  set s : Acc := ⟨⟨o.rh6, o.rl6, r7, o.rq8⟩, f.rh5, 0⟩ with hs
  have hwide : s.wide = 2 ^ k * (256 * N) := by
    have hw : s.wide = o.digits * 256 := Nat.add_zero _
    rw [hw, hd]
    ring
  obtain ⟨hw, -, h6, h5⟩ := shifD1_iterate_wide k hwide
  have htl := ((shifD1 false)^[k] s).rl5.isLt
  rw [Acc.wide] at hw
  have hdig : ((shifD1 false)^[k] s).digits = N := by omega
  have hrl5 : ((shifD1 false)^[k] s).rl5 = 0 := eq_zero_of_toNat (by omega)
  have hop := foolsround_unit (0x0C &&& e.modes) hrl5
  refine ⟨_, hint, ?_, ?_, ?_⟩
  · exact (congrArg Op.digits hop).trans hdig
  · exact (congrArg Op.rh6 hop).trans h6
  · rw [foolsround_rh5, h5]
    exact hf

/-- **The quotient and one is the fraction of the number**, a little more than it. -/
theorem quotient_fraction {q : Quad} (hN : q.toNat < 10 ^ 19) :
    ∃ δ, Fraction 60 18 q.toNat δ
      (adcq (nonrestore 65 q bcdDivisor).rq8 ⟨0, 0, 0, 1⟩ false).val.toNat := by
  set N := q.toNat with hq
  have hbig : 2 ^ 63 ≤ bcdDivisor.toNat := by decide
  have hq2 : q.toNat < 2 * bcdDivisor.toNat := lt_of_lt_of_le q.toNat_lt (Nat.mul_le_mul_left 2 hbig)
  have hdiv := (nonrestore_divided hq2 64).quo
  have hD : bcdDivisor.toNat = 16 * 10 ^ 18 := by decide
  have hM : 2 ^ 64 * q.toNat = 16 * (2 ^ 60 * N) := by ring
  have hpos : 0 < 10 ^ 18 := by norm_num
  have hmod := Nat.div_add_mod (2 ^ 60 * N) (10 ^ 18)
  have hlt := Nat.mod_lt (2 ^ 60 * N) hpos
  have hqlt : 2 ^ 60 * N / 10 ^ 18 + 1 < 2 ^ 64 := by omega
  have hquo : (nonrestore 65 q bcdDivisor).rq8.toNat = 2 ^ 60 * N / 10 ^ 18 := by
    have hrun : nonrestore 65 q bcdDivisor =
        (nonre1 bcdDivisor)^[64] (nonre2 bcdDivisor ⟨q, Quad.zero⟩) := rfl
    rw [hrun, hdiv, hM, hD, Nat.mul_div_mul_left _ _ (by norm_num), Nat.mod_eq_of_lt (by omega)]
  have hone : (⟨0, 0, 0, 1⟩ : Quad).toNat = 1 := by decide
  have hsum : (adcq (nonrestore 65 q bcdDivisor).rq8 ⟨0, 0, 0, 1⟩ false).val.toNat =
      2 ^ 60 * N / 10 ^ 18 + 1 := by
    have hs := adcq_spec (nonrestore 65 q bcdDivisor).rq8 ⟨0, 0, 0, 1⟩ false
    have hc := Bool.toNat_le (adcq (nonrestore 65 q bcdDivisor).rq8 ⟨0, 0, 0, 1⟩ false).c
    rw [hquo, hone, Bool.toNat_false] at hs
    omega
  refine ⟨10 ^ 18 - 2 ^ 60 * N % 10 ^ 18, ?_, ?_⟩
  · rw [hsum]
    generalize 2 ^ 60 * N / 10 ^ 18 = d at *
    omega
  · omega

/-- The decimal words of an integer: the sign, and nineteen digits. -/
structure Digits (neg : Bool) (N : ℕ) (r7 : BitVec 16) (rq8 : Quad) : Prop where
  eq : r7.toNat * 2 ^ 64 + rq8.toNat = neg.toNat * 2 ^ 79 + bcd 19 N

/-- The sign bit of a word. -/
theorem toNat_sign {h l : BitVec 8} {n : Bool} (hn : h.getLsbD 7 = n) :
    (0x8000 &&& word h l).toNat = n.toNat * 2 ^ 3 * 2 ^ 12 := by
  have hm : (0x8000 : BitVec 16).toNat = (2 ^ 1 - 1) * 2 ^ 15 := rfl
  have hbit := toNat_getLsbD h 7
  have hh := h.isLt
  have hl := l.isLt
  rw [toNat_and_field _ _ 15 1 hm, toNat_word, ← hn]
  omega

theorem frombin_num (e : Env) (u : Unpacked) (hu : u.WellFormed) (hk : u.kind = .num)
    (hclean : u.rh5.getLsbD 4 = false) (hfits : u.rh5.getLsbD 7 = false) {N : ℕ} (hN : N < 10 ^ 19)
    (h : u.mag = N) :
    ∃ r r7 rq8, frombin e u = some r ∧ r.stored = some (r7, rq8) ∧ r.rh5.getLsbD 7 = false ∧
      Digits (u.neg && decide (0 < N)) N r7 rq8 := by
  obtain ⟨hn, hr⟩ := hu.num hk
  let o : Number := ⟨u.toOp, hn, hr⟩
  let f : Clean := ⟨u.rh5, hclean⟩
  have hpos : 0 < N := by
    have hm := o.mag_pos
    rw [show o.mag = N from h] at hm
    exact_mod_cast hm
  obtain ⟨s, hs, hal⟩ := intadjust_spec e o f hfits hpos (lt_trans hN (by norm_num)) h
  have hlt : cplq s.rq8 bcdLimit = .lt := by
    rw [cplq_lt_iff, hal.digits]
    exact lt_of_lt_of_eq hN (by decide)
  have hrun : frombin e u = some (Flbcd35 s) := by
    have h1 : frombin e u = lddno e (o.start f) := by
      rw [frombin, hk]
      rfl
    rw [h1, lddno, hs]
    refine congrArg some ?_
    simp only [hal.noOverflow, hlt, Bool.false_eq_true, if_false, if_true]
  have hNq := hN
  rw [← hal.digits] at hNq
  obtain ⟨δ, hfrac⟩ := quotient_fraction hNq
  rw [hal.digits] at hfrac
  have hsign := toNat_sign (h := s.rh6) (l := s.rl6) (n := u.neg) (congrArg (fun x => x.getLsbD 7) hal.rh6)
  have hspec := bcdDigits_spec hN hsign hfrac
  refine ⟨Flbcd35 s, _, _, hrun, rfl, hal.noOverflow, ⟨?_⟩⟩
  rw [decide_eq_true hpos, Bool.and_true]
  refine hspec.trans ?_
  ring

theorem frombin_zero (e : Env) (u : Unpacked) (hu : u.WellFormed) (hk : u.kind = .zero)
    (hfits : u.rh5.getLsbD 7 = false) {N : ℕ} (h : u.mag = N) :
    ∃ r r7 rq8, frombin e u = some r ∧ r.stored = some (r7, rq8) ∧ r.rh5.getLsbD 7 = false ∧
      Digits (u.neg && decide (0 < N)) N r7 rq8 := by
  obtain ⟨hd, -⟩ := hu.zero hk
  have hN0 : N = 0 := by
    rw [Op.mag, hd, Nat.cast_zero, zero_mul] at h
    exact_mod_cast h.symm
  have hrun : frombin e u = some (ldd0 u.acc) := by rw [frombin, hk]
  refine ⟨ldd0 u.acc, 0, u.rq8, hrun, rfl, hfits, ⟨?_⟩⟩
  have hq : u.rq8.toNat = 0 := hd
  rw [hN0, hq]
  cases u.neg <;> rfl

/-- **Binary to decimal.**  An integer below `10 ^ 19` is stored as its nineteen digits, most significant
first, with its sign; a zero has none. -/
theorem frombin_digits (e : Env) (u : Unpacked) (hu : u.WellFormed)
    (hk : u.kind = .num ∨ u.kind = .zero) (hclean : u.rh5.getLsbD 4 = false)
    (hfits : u.rh5.getLsbD 7 = false) (N : ℕ) (hN : N < 10 ^ 19) (h : u.mag = N) :
    ∃ r r7 rq8, frombin e u = some r ∧ r.stored = some (r7, rq8) ∧ r.rh5.getLsbD 7 = false ∧
      Digits (u.neg && decide (0 < N)) N r7 rq8 := by
  rcases hk with hk | hk
  · exact frombin_num e u hu hk hclean hfits hN h
  · exact frombin_zero e u hu hk hfits h

theorem one_mag : one.mag = (1 : ℕ) := by
  have hd : one.digits = 2 ^ 63 := by decide
  have he : one.expo = 0x3FFF := by decide
  rw [Op.mag, hd, he, bias]
  norm_num

theorem frombin_digits_one :
    ∃ r r7 rq8, frombin extNearest ⟨one.toOp, .num, 0⟩ = some r ∧ r.stored = some (r7, rq8) ∧
      r.rh5.getLsbD 7 = false ∧ Digits (one.neg && decide (0 < 1)) 1 r7 rq8 :=
  frombin_digits extNearest ⟨one.toOp, .num, 0⟩
    ⟨fun _ => ⟨one.normal, one.range⟩, fun h => absurd h (by decide), fun h => absurd h (by decide)⟩
    (Or.inl rfl) (by decide) (by decide) 1 (by norm_num) one_mag

end Cpm8000.Fpe
