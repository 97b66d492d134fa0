/-
# Decimal to binary

The digits are taken one after the other, most significant first: the integer in rq8 is multiplied by
ten, with its carries, and the digit is added to the last word, whose carry goes nowhere.

* `Flbcd11_spec`: what a run of digits leaves, `kept`.
* `kept_eq_iff`: it is the integer just when no digit is added with a carry.
* `fldbcd_exact_iff`: and then the integer is loaded.
-/
import Cpm8000.Fpe.Frombin

namespace Cpm8000.Fpe

open Arith

/-! ## 1. The code -/

/-- The registers of the loop: the integer in rq8, the digit in r0, the digits to come in r1, and the
error byte that is on the stack. -/
structure Gather where
  rq8 : Quad
  r0 : BitVec 16
  r1 : BitVec 16
  rh5 : BitVec 8

/-- Add up to `r12` digits into the integer in rq8; a phony digit ends the group. -/
def Flbcd11 : ℕ → Gather → Gather
  | 0, s => s
  | r12 + 1, s =>
    let ten := tenfold s.rq8
    let a := rldb (lob s.r0) (hib s.r1)
    let b := rldb a.2 (lob s.r1)
    let r0 := word (hib s.r0) a.1
    let r1 := word b.1 b.2
    if (9 : BitVec 16).ult r0 then ⟨ten, r0, r1, set s.rh5 7⟩
    else Flbcd11 r12 ⟨{ ten with w3 := (add ten.w3 r0).val }, r0, r1, s.rh5⟩

/-- Add a 4 digit number into rq8 integer. -/
def Flbcd10 (s : Gather) (r1 : BitVec 16) : Gather := Flbcd11 4 { s with r1 := r1 }

/-- Transfer 5 4-digit numbers, the first without the sign. -/
def gatherDigits (rh5 : BitVec 8) (r1 : BitVec 16) (q : Quad) : Gather :=
  let s := Flbcd10 ⟨Quad.zero, 0, 0, rh5⟩ (r1 &&& 0x0FFF)
  let s := Flbcd10 s q.w0
  let s := Flbcd10 s q.w1
  let s := Flbcd10 s q.w2
  Flbcd10 s q.w3

/-- Finish off a valid number, possibly zero. -/
def Flbcd8 (e : Env) (s : Acc) : Option Acc := (normordigs s).map (round e)

/-- Decimal to binary. -/
def fldbcd (e : Env) (rh5 : BitVec 8) (r1 : BitVec 16) (q : Quad) : Option Acc :=
  let s := gatherDigits rh5 r1 q
  let r6 := r1 &&& 0x8000
  let t : Acc := ⟨⟨hib r6, lob r6, 0x403E, s.rq8⟩, s.rh5, 0⟩
  if s.rh5.getLsbD 7 then
    -- stuff a NaN; but mark invalid integer
    let n := resinv t
    some { n with rh5 := res n.rh5 0 }
  else Flbcd8 e t

/-! ## 2. What the loop keeps -/

/-- A digit behind a number, without the carry out of the last word. -/
def addDigit (V d : ℕ) : ℕ := if 10 * V % 65536 + d < 65536 then 10 * V + d else 10 * V + d - 65536

/-- What is kept of the last `k` digits. -/
def kept : ℕ → ℕ → ℕ
  | 0, _ => 0
  | k + 1, n => addDigit (kept k (n / 10)) (n % 10)

/-- No prefix of the number has a last word that is less than its last digit. -/
def Carryless (N : ℕ) : Prop := ∀ k, N / 10 ^ k % 10 ≤ N / 10 ^ k % 65536

theorem addDigit_le (V d : ℕ) : addDigit V d ≤ 10 * V + d := by
  rw [addDigit]
  split_ifs <;> omega

theorem addDigit_mod (V d : ℕ) : addDigit V d % 65536 = (10 * V + d) % 65536 := by
  rw [addDigit]
  split_ifs with h
  · rfl
  · omega

/-- No carry, no loss. -/
theorem addDigit_eq_iff {V d : ℕ} (hd : d < 10) :
    addDigit V d = 10 * V + d ↔ d ≤ (10 * V + d) % 65536 := by
  rw [addDigit]
  split_ifs with h <;> omega

theorem kept_le (k n : ℕ) : kept k n ≤ n := by
  induction k generalizing n with
  | zero => exact Nat.zero_le n
  | succ k ih =>
    have h := addDigit_le (kept k (n / 10)) (n % 10)
    have hk := ih (n / 10)
    rw [kept]
    omega

theorem kept_mod {k n : ℕ} (h : n < 10 ^ k) : kept k n % 65536 = n % 65536 := by
  induction k generalizing n with
  | zero =>
    rw [Nat.pow_zero, Nat.lt_one_iff] at h
    rw [h, kept]
  | succ k ih =>
    have hk := ih (Nat.div_lt_of_lt_mul (lt_of_lt_of_eq h Nat.pow_succ'))
    rw [kept, addDigit_mod]
    omega

theorem carryless_iff (N : ℕ) : Carryless N ↔ Carryless (N / 10) ∧ N % 10 ≤ N % 65536 := by
  have hstep (k : ℕ) : N / 10 / 10 ^ k = N / 10 ^ (k + 1) := by
    rw [Nat.div_div_eq_div_mul, Nat.pow_succ']
  constructor
  · intro h
    refine ⟨fun k => ?_, ?_⟩
    · rw [hstep]
      exact h (k + 1)
    · have h0 := h 0
      rwa [Nat.pow_zero, Nat.div_one] at h0
  · rintro ⟨hk, h0⟩ k
    cases k with
    | zero => rwa [Nat.pow_zero, Nat.div_one]
    | succ k =>
      rw [← hstep]
      exact hk k

theorem carryless_zero : Carryless 0 := fun k => by simp

/-- **The integer is kept just when no digit is added with a carry.** -/
theorem kept_eq_iff {k N : ℕ} (h : N < 10 ^ k) : kept k N = N ↔ Carryless N := by
  induction k generalizing N with
  | zero =>
    rw [Nat.pow_zero, Nat.lt_one_iff] at h
    rw [h]
    exact iff_of_true rfl carryless_zero
  | succ k ih =>
    have hlt : N / 10 < 10 ^ k := Nat.div_lt_of_lt_mul (lt_of_lt_of_eq h Nat.pow_succ')
    have hle := kept_le k (N / 10)
    have hmod := kept_mod hlt
    have hadd := addDigit_le (kept k (N / 10)) (N % 10)
    have hiff := addDigit_eq_iff (V := kept k (N / 10)) (Nat.mod_lt N (by norm_num : 0 < 10))
    have hlow : (10 * kept k (N / 10) + N % 10) % 65536 = N % 65536 := by omega
    rw [hlow] at hiff
    rw [kept, carryless_iff, ← ih hlt]
    constructor
    · intro he
      have hk : kept k (N / 10) = N / 10 := by omega
      exact ⟨hk, hiff.mp (by omega)⟩
    · rintro ⟨hk, h0⟩
      have he := hiff.mpr h0
      omega

/-! ## 3. The digits -/

/-- The integer after a digit. -/
theorem toNat_add_word {Q : Quad} {d : BitVec 16} (h : Q.toNat % 65536 + d.toNat < 131072) :
    ({ Q with w3 := (add Q.w3 d).val } : Quad).toNat =
      if Q.toNat % 65536 + d.toNat < 65536 then Q.toNat + d.toNat else Q.toNat + d.toNat - 65536 := by
  have hs := add_spec Q.w3 d
  have hc := Bool.toNat_le (add Q.w3 d).c
  have hv := (add Q.w3 d).val.isLt
  have h3 := Q.w3.isLt
  have hQ : Q.toNat = ((Q.w0.toNat * 65536 + Q.w1.toNat) * 65536 + Q.w2.toNat) * 65536 + Q.w3.toNat := rfl
  have hnew : ({ Q with w3 := (add Q.w3 d).val } : Quad).toNat =
      ((Q.w0.toNat * 65536 + Q.w1.toNat) * 65536 + Q.w2.toNat) * 65536 + (add Q.w3 d).val.toNat := rfl
  rw [hnew]
  split_ifs <;> omega

/-- What the loop knows: `k` digits of the number `P` are in the integer, and the error byte is as it
was. -/
structure Gathered (rh5 : BitVec 8) (k P : ℕ) (s : Gather) : Prop where
  rq8 : s.rq8.toNat = kept k P
  r0 : s.r0.toNat < 10
  rh5 : s.rh5 = rh5

/-- The next digit comes from the lead nibble of r1, and the one before goes to its end. -/
theorem rotate_digit (r1 : BitVec 16) {r0 : BitVec 16} (h0 : r0.toNat < 10) :
    (word (hib r0) (rldb (lob r0) (hib r1)).1).toNat = r1.toNat / 4096 ∧
      (word (rldb (rldb (lob r0) (hib r1)).2 (lob r1)).1 (rldb (rldb (lob r0) (hib r1)).2 (lob r1)).2).toNat =
        r1.toNat % 4096 * 16 + r0.toNat := by
  have h1 := r1.isLt
  constructor
  · simp only [toNat_word, rldb_link, toNat_hib, toNat_lob]
    omega
  · rw [toNat_word, rldb_src _ (lob r1), rldb_link, rldb_src_mod, rldb_src_div, toNat_hib, toNat_lob,
      toNat_lob]
    omega

/-- The lead nibble of a word that holds `n + 1` digits in front of `b`. -/
theorem lead_nibble {n d B b : ℕ} (hn : n + 1 ≤ 4) (hB : B < 16 ^ n) (hb : b < 16 ^ (4 - (n + 1))) :
    ((d * 16 ^ n + B) * 16 ^ (4 - (n + 1)) + b) / 4096 = d ∧
      ((d * 16 ^ n + B) * 16 ^ (4 - (n + 1)) + b) % 4096 = B * 16 ^ (4 - (n + 1)) + b := by
  have hp : 16 ^ n * 16 ^ (4 - (n + 1)) = 4096 := by
    rw [← Nat.pow_add]
    have h3 : n + (4 - (n + 1)) = 3 := by omega
    rw [h3]
  have hsum : (d * 16 ^ n + B) * 16 ^ (4 - (n + 1)) + b =
      4096 * d + (B * 16 ^ (4 - (n + 1)) + b) := by
    rw [← hp]
    ring
  have hlt : B * 16 ^ (4 - (n + 1)) + b < 4096 := by
    have hB1 := Nat.mul_le_mul_right (16 ^ (4 - (n + 1))) (Nat.succ_le_of_lt hB)
    rw [hp, Nat.succ_mul] at hB1
    omega
  rw [hsum]
  exact ⟨by omega, by omega⟩

/-- **A run of digits.** -/
theorem Flbcd11_spec {rh5 : BitVec 8} {n k P g b : ℕ} {s : Gather} (hs : Gathered rh5 k P s) (hn : n ≤ 4)
    (hg : g < 10 ^ n) (hb : b < 16 ^ (4 - n)) (h1 : s.r1.toNat = bcd n g * 16 ^ (4 - n) + b)
    (hP : P * 10 ^ n + g < 2 ^ 64) :
    Gathered rh5 (k + n) (P * 10 ^ n + g) (Flbcd11 n s) := by
  induction n generalizing k P g b s with
  | zero =>
    rw [Nat.pow_zero, Nat.lt_one_iff] at hg
    rw [hg, Nat.pow_zero, Nat.mul_one]
    exact hs
  | succ n ih =>
    have hpos : 0 < 10 ^ n := Nat.pow_pos (by norm_num)
    have hd : g / 10 ^ n < 10 := Nat.div_lt_of_lt_mul (lt_of_lt_of_eq hg (Nat.pow_succ _ _))
    have hsplit := Nat.div_add_mod g (10 ^ n)
    have hrest := Nat.mod_lt g hpos
    -- the digit is the lead nibble
    have hlead : s.r1.toNat / 4096 = g / 10 ^ n ∧
        s.r1.toNat % 4096 = bcd n (g % 10 ^ n) * 16 ^ (4 - (n + 1)) + b := by
      have hadd := bcd_add 1 n g
      have hone : bcd 1 (g / 10 ^ n) = g / 10 ^ n := by
        rw [bcd_succ, bcd_zero, Nat.zero_mul, Nat.zero_add, Nat.mod_eq_of_lt hd]
      have hlt := bcd_lt n (g % 10 ^ n)
      rw [Nat.add_comm, hone] at hadd
      rw [h1, hadd]
      exact lead_nibble hn hlt hb
    obtain ⟨hr0, hr1⟩ := rotate_digit s.r1 hs.r0
    rw [hlead.1] at hr0
    rw [hlead.2] at hr1
    -- so it is no phony one
    have hult : ¬ (9 : BitVec 16).ult (word (hib s.r0) (rldb (lob s.r0) (hib s.r1)).1) = true := by
      have h9 : (9 : BitVec 16).toNat = 9 := rfl
      rw [BitVec.ult_iff_lt, BitVec.lt_def, hr0, h9]
      omega
    have hsum : (P * 10 + g / 10 ^ n) * 10 ^ n + g % 10 ^ n = P * 10 ^ (n + 1) + g := by
      rw [Nat.pow_succ, Nat.add_mul, Nat.add_assoc, Nat.mul_comm (g / 10 ^ n), hsplit]
      ring
    have hP10 : 10 * P ≤ P * 10 ^ (n + 1) + g := by
      have hle := Nat.mul_le_mul_left (P * 10) hpos
      rw [Nat.pow_succ]
      linarith
    have hkept := kept_le k P
    have hten : (tenfold s.rq8).toNat = 10 * kept k P := by
      rw [tenfold_spec (by rw [hs.rq8]; omega), hs.rq8]
    rw [Flbcd11]
    simp only [if_neg hult]
    have hnext : Gathered rh5 (k + 1) (P * 10 + g / 10 ^ n)
        ⟨{ tenfold s.rq8 with w3 := (add (tenfold s.rq8).w3
            (word (hib s.r0) (rldb (lob s.r0) (hib s.r1)).1)).val },
          word (hib s.r0) (rldb (lob s.r0) (hib s.r1)).1,
          word (rldb (rldb (lob s.r0) (hib s.r1)).2 (lob s.r1)).1
            (rldb (rldb (lob s.r0) (hib s.r1)).2 (lob s.r1)).2, s.rh5⟩ := by
      refine ⟨?_, hr0.trans_lt hd, hs.rh5⟩
      have hdiv : (P * 10 + g / 10 ^ n) / 10 = P := by omega
      have hmod : (P * 10 + g / 10 ^ n) % 10 = g / 10 ^ n := by omega
      rw [kept, hdiv, hmod, addDigit, toNat_add_word (by rw [hr0]; omega), hten, hr0]
    have h16 : 16 ^ (4 - n) = 16 ^ (4 - (n + 1)) * 16 := by
      rw [← Nat.pow_succ]
      congr 1
      omega
    have hb' : b * 16 + s.r0.toNat < 16 ^ (4 - n) := by
      have h0 := hs.r0
      rw [h16]
      omega
    have hr1' : bcd n (g % 10 ^ n) * 16 ^ (4 - (n + 1)) * 16 + (b * 16 + s.r0.toNat) =
        bcd n (g % 10 ^ n) * 16 ^ (4 - n) + (b * 16 + s.r0.toNat) := by
      rw [h16, Nat.mul_assoc]
    rw [Nat.add_mul, Nat.add_assoc, hr1'] at hr1
    have hrun := ih hnext (by omega) hrest hb' hr1 (by rw [hsum]; exact hP)
    rw [hsum, Nat.add_assoc, Nat.add_comm 1 n] at hrun
    exact hrun

/-- A group of four digits. -/
theorem Flbcd10_spec {rh5 : BitVec 8} {k P g : ℕ} {s : Gather} (hs : Gathered rh5 k P s) (hg : g < 10 ^ 4)
    {w : BitVec 16} (hw : w.toNat = bcd 4 g) (hP : P * 10 ^ 4 + g < 2 ^ 64) :
    Gathered rh5 (k + 4) (P * 10 ^ 4 + g) (Flbcd10 s w) := by
  refine Flbcd11_spec (b := 0) ⟨hs.rq8, hs.r0, hs.rh5⟩ le_rfl hg (by norm_num) ?_ hP
  rw [Nat.sub_self, Nat.pow_zero, Nat.mul_one, Nat.add_zero]
  exact hw

/-- The digits of a decimal number are in the operand; three bits behind the sign are free. -/
def Operand (N : ℕ) (r1 : BitVec 16) (q : Quad) : Prop :=
  r1.toNat % 2 ^ 12 * 2 ^ 64 + q.toNat = bcd 19 N

instance (N : ℕ) (r1 : BitVec 16) (q : Quad) : Decidable (Operand N r1 q) :=
  inferInstanceAs (Decidable (_ = _))

/-- The groups of an operand. -/
theorem Operand.groups {N : ℕ} {r1 : BitVec 16} {q : Quad} (h : Operand N r1 q) (hN : N < 10 ^ 19) :
    r1.toNat % 4096 = bcd 4 (N / 10 ^ 16) ∧ q.w0.toNat = bcd 4 (N / 10 ^ 12 % 10 ^ 4) ∧
      q.w1.toNat = bcd 4 (N / 10 ^ 8 % 10 ^ 4) ∧ q.w2.toNat = bcd 4 (N / 10 ^ 4 % 10 ^ 4) ∧
      q.w3.toNat = bcd 4 (N % 10 ^ 4) := by
  have hlead : bcd 4 (N / 10 ^ 16) = bcd 3 (N / 10 ^ 16) := bcd_of_lt (by omega)
  have e0 := bcd_add 3 16 N
  have e1 := bcd_add 4 12 (N % 10 ^ 16)
  have e2 := bcd_add 4 8 (N % 10 ^ 16 % 10 ^ 12)
  have e3 := bcd_add 4 4 (N % 10 ^ 16 % 10 ^ 12 % 10 ^ 8)
  have d1 : N % 10 ^ 16 / 10 ^ 12 = N / 10 ^ 12 % 10 ^ 4 := by omega
  have d2 : N % 10 ^ 16 % 10 ^ 12 / 10 ^ 8 = N / 10 ^ 8 % 10 ^ 4 := by omega
  have d3 : N % 10 ^ 16 % 10 ^ 12 % 10 ^ 8 / 10 ^ 4 = N / 10 ^ 4 % 10 ^ 4 := by omega
  have d4 : N % 10 ^ 16 % 10 ^ 12 % 10 ^ 8 % 10 ^ 4 = N % 10 ^ 4 := by omega
  rw [d1] at e1
  rw [d2] at e2
  rw [d3, d4] at e3
  have b0 := bcd_lt 3 (N / 10 ^ 16)
  have b1 := bcd_lt 4 (N / 10 ^ 12 % 10 ^ 4)
  have b2 := bcd_lt 4 (N / 10 ^ 8 % 10 ^ 4)
  have b3 := bcd_lt 4 (N / 10 ^ 4 % 10 ^ 4)
  have b4 := bcd_lt 4 (N % 10 ^ 4)
  have h0 := q.w0.isLt
  have h1 := q.w1.isLt
  have h2 := q.w2.isLt
  have h3 := q.w3.isLt
  rw [Operand, Quad.toNat, e0, e1, e2, e3] at h
  rw [hlead]
  clear e0 e1 e2 e3 d1 d2 d3 d4 hlead
  generalize bcd 3 (N / 10 ^ 16) = x0 at *
  generalize bcd 4 (N / 10 ^ 12 % 10 ^ 4) = x1 at *
  generalize bcd 4 (N / 10 ^ 8 % 10 ^ 4) = x2 at *
  generalize bcd 4 (N / 10 ^ 4 % 10 ^ 4) = x3 at *
  generalize bcd 4 (N % 10 ^ 4) = x4 at *
  omega

/-- **The integer that is gathered.** -/
theorem gatherDigits_spec {N : ℕ} {r1 : BitVec 16} {q : Quad} (h : Operand N r1 q) (hN : N < 10 ^ 19)
    (rh5 : BitVec 8) : Gathered rh5 20 N (gatherDigits rh5 r1 q) := by
  obtain ⟨h0, h1, h2, h3, h4⟩ := h.groups hN
  have hr1 : (r1 &&& 0x0FFF).toNat = bcd 4 (N / 10 ^ 16) := by
    have hm : (0x0FFF : BitVec 16).toNat = 2 ^ 12 - 1 := rfl
    rw [BitVec.toNat_and, hm, Nat.and_two_pow_sub_one_eq_mod]
    exact h0
  have s0 : Gathered rh5 0 0 ⟨Quad.zero, 0, 0, rh5⟩ := ⟨Quad.toNat_zero, Nat.zero_lt_succ 9, rfl⟩
  have s1 := Flbcd10_spec s0 (by omega) hr1 (by omega)
  have s2 := Flbcd10_spec s1 (Nat.mod_lt _ (by norm_num)) h1 (by omega)
  have s3 := Flbcd10_spec s2 (Nat.mod_lt _ (by norm_num)) h2 (by omega)
  have s4 := Flbcd10_spec s3 (Nat.mod_lt _ (by norm_num)) h3 (by omega)
  have s5 := Flbcd10_spec s4 (Nat.mod_lt _ (by norm_num)) h4 (by omega)
  have hsum : ((((0 * 10 ^ 4 + N / 10 ^ 16) * 10 ^ 4 + N / 10 ^ 12 % 10 ^ 4) * 10 ^ 4 +
      N / 10 ^ 8 % 10 ^ 4) * 10 ^ 4 + N / 10 ^ 4 % 10 ^ 4) * 10 ^ 4 + N % 10 ^ 4 = N := by omega
  rw [hsum] at s5
  exact s5

/-! ## 4. The number -/

/-- The result is a number, rounded to the selected precision. -/
structure Loaded (e : Env) (x : ℚ) (r : Acc) : Prop where
  val : r.val = rnd e.prec e.mode x
  inexact : r.inexact = true ↔ rnd e.prec e.mode x ≠ x

/-- **An integer is normalised and rounded.** -/
theorem Flbcd8_spec (e : Env) {t : Acc} (hE : t.expBits = 0x403E) (h5 : t.rl5 = 0)
    (hclean : t.inexact = false) : ∃ r, Flbcd8 e t = some r ∧ Loaded e t.val r := by
  obtain ⟨s, hs, hn⟩ := normordigs_keeps h5 (by omega) (by omega)
  have hin : s.inexact = false := by rw [Acc.inexact, hn.rh5]; exact hclean
  refine ⟨round e s, by rw [Flbcd8, hs]; rfl, ?_⟩
  rw [← hn.val]
  rcases hn.normal with h0 | hnorm
  · -- zero is not rounded
    obtain ⟨hop, hflag⟩ := round_exact e (m := 0) hn.rl5 (by rw [h0, Nat.zero_mul])
    have hv : s.val = 0 := by
      rw [Op.val, Op.mag, h0, Nat.cast_zero, zero_mul]
      cases s.neg <;> simp
    have hrep : Representable e.prec (0 : ℚ) := ⟨0, 0, by positivity, by simp⟩
    have hrnd := (rnd_eq_self_iff e.prec e.mode (0 : ℚ)).mpr hrep
    rw [hv]
    refine ⟨?_, ?_⟩
    · rw [hop, hv, hrnd]
    · rw [hflag, hin, hrnd]
      simp
  · have hgrs : s.grs = 4 * s.digits := by
      have hw : s.wide = 256 * s.digits := by
        rw [Acc.wide, hn.rl5]
        exact (Nat.add_zero _).trans (Nat.mul_comm _ _)
      rw [Acc.grs_eq_jam, hw, jam_64]
    have hodd : RoundOdd (4 * (s.digits : ℚ)) s.grs := by
      have hcast : (4 * (s.digits : ℚ)) = ((4 * s.digits : ℕ) : ℚ) := by push_cast; ring
      rw [hgrs, hcast]
      exact roundOdd_natCast _
    have hbits : s.expBits + 1 < 2 ^ 23 := by
      have hz : (0 : BitVec 8).toNat = 0 := rfl
      have h7 := s.r7.isLt
      rw [Op.expBits, hn.rl6, hz]
      omega
    have hrt := round_roundsTo e hnorm hbits hin hodd
    exact ⟨hrt.val, hrt.inexact⟩

/-- The integer with its sign, in front of the normalisation. -/
theorem val_at_unit {t : Acc} (hE : t.expBits = 0x403E) : t.val = signed t.neg (t.digits : ℚ) := by
  have hexpo : t.expo = 0x403E := Op.expo_of_expBits hE (by norm_num)
  have hz : (0x403E : ℤ) - bias - 63 = 0 := by rw [bias]; norm_num
  rw [Op.val, Op.mag, hexpo, hz, zpow_zero, mul_one]

/-- **What is loaded** for a decimal number: what the loop keeps of it, rounded. -/
theorem fldbcd_spec (e : Env) (f : Clean) (hf : f.rh5.getLsbD 7 = false) {N : ℕ} (hN : N < 10 ^ 19)
    {r1 : BitVec 16} {q : Quad} (h : Operand N r1 q) :
    ∃ r, fldbcd e f.rh5 r1 q = some r ∧ Loaded e (signed (r1.getLsbD 15) (kept 20 N : ℚ)) r := by
  have hg := gatherDigits_spec h hN f.rh5
  set s := gatherDigits f.rh5 r1 q with hs
  have hand : (r1 &&& 0x8000).toNat = (r1.getLsbD 15).toNat * 32768 := by
    have hm : (0x8000 : BitVec 16).toNat = (2 ^ 1 - 1) * 2 ^ 15 := rfl
    rw [BitVec.and_comm, toNat_and_field _ _ 15 1 hm, toNat_getLsbD]
    omega
  have hlow : lob (r1 &&& 0x8000) = 0 := by
    apply eq_zero_of_toNat
    rw [toNat_lob, hand]
    omega
  have hneg : (hib (r1 &&& 0x8000)).getLsbD 7 = r1.getLsbD 15 := by
    have hb := toNat_getLsbD r1 15
    rw [Bool.eq_iff_iff, getLsbD_eq_true_iff, getLsbD_eq_true_iff, toNat_hib, hand]
    omega
  have hrun : fldbcd e f.rh5 r1 q =
      Flbcd8 e ⟨⟨hib (r1 &&& 0x8000), lob (r1 &&& 0x8000), 0x403E, s.rq8⟩, s.rh5, 0⟩ := by
    have h7 : ¬ s.rh5.getLsbD 7 = true := by rw [hg.rh5, hf]; exact Bool.false_ne_true
    rw [fldbcd]
    exact if_neg h7
  have h403E : (0x403E : BitVec 16).toNat = 0x403E := rfl
  rw [hrun, hlow, hg.rh5]
  generalize hib (r1 &&& 0x8000) = h6 at hneg
  generalize (0x403E : BitVec 16) = e7 at h403E
  have hE : (⟨h6, 0, e7, s.rq8⟩ : Op).expBits = 0x403E := by
    have h0 : (0 : BitVec 8).toNat = 0 := rfl
    rw [Op.expBits, h403E, h0, Nat.zero_mul, Nat.zero_add]
  generalize ht : (⟨⟨h6, 0, e7, s.rq8⟩, f.rh5, 0⟩ : Acc) = t
  have hop : t.toOp = ⟨h6, 0, e7, s.rq8⟩ := by rw [← ht]
  have h5 : t.rl5 = 0 := by rw [← ht]
  have hin : t.inexact = false := by
    rw [← ht]
    exact f.exact
  rw [← hop] at hE
  obtain ⟨r, hr, hl⟩ := Flbcd8_spec e hE h5 hin
  have hd : t.digits = kept 20 N := by
    rw [hop]
    exact hg.rq8
  have hn : t.neg = r1.getLsbD 15 := by
    rw [hop]
    exact hneg
  refine ⟨r, hr, ?_⟩
  rw [val_at_unit hE, hd, hn] at hl
  exact hl

/-- A loss of the loop is not rounded away by a precision of 53 bits. -/
theorem rnd_natCast_inj {p : ℕ} {m : RoundMode} {neg : Bool} {M N : ℕ} (hp : 53 ≤ p) (hM : M ≤ N)
    (hN : N < 2 ^ 64) (hmod : M % 65536 = N % 65536)
    (h : rnd p m (signed neg (M : ℚ)) = rnd p m (signed neg (N : ℚ))) : M = N := by
  have hclose (n : ℕ) (hn : n < 2 ^ 64) : |rnd p m (signed neg (n : ℚ)) - signed neg (n : ℚ)| < 2 ^ 11 := by
    have habs : |signed neg (n : ℚ)| < 2 ^ 64 := by
      rw [abs_signed neg (Nat.cast_nonneg n)]
      exact_mod_cast hn
    calc _ < ulp p (signed neg (n : ℚ)) := abs_rnd_sub_lt p m _
      _ ≤ 2 ^ (((64 : ℕ) : ℤ) - p) := ulp_le (by norm_num) habs
      _ ≤ (2 : ℚ) ^ (11 : ℤ) := zpow_le_zpow_right₀ (by norm_num) (by omega)
      _ = 2 ^ 11 := by norm_num
  have h1 := abs_lt.mp (hclose M (by omega))
  have h2 := abs_lt.mp (hclose N hN)
  rw [h] at h1
  have hd : |signed neg (M : ℚ) - signed neg (N : ℚ)| < 2 ^ 12 := by
    rw [abs_lt]
    constructor <;> linarith [h1.1, h1.2, h2.1, h2.2]
  rw [abs_signed_sub, abs_lt] at hd
  have hlt : N < M + 2 ^ 12 := by
    have hq : (N : ℚ) < M + 2 ^ 12 := by linarith [hd.1]
    exact_mod_cast hq
  omega

/-- A sign in front of nineteen digits. -/
theorem sign_and_digits {w q n B : ℕ} (h : w * 2 ^ 64 + q = n * 2 ^ 79 + B) (hB : B < 2 ^ 76)
    (hq : q < 2 ^ 64) (hn : n ≤ 1) : w % 2 ^ 12 * 2 ^ 64 + q = B ∧ w / 2 ^ 15 % 2 = n := by
  obtain ⟨t, m, rfl, ht, hm⟩ : ∃ t m, B = t * 2 ^ 64 + m ∧ t < 2 ^ 12 ∧ m < 2 ^ 64 :=
    ⟨B / 2 ^ 64, B % 2 ^ 64, by omega, by omega, by omega⟩
  have hw : w = n * 2 ^ 15 + t := by omega
  have hqm : q = m := by omega
  subst hw hqm
  constructor
  · have ht' : (n * 2 ^ 15 + t) % 2 ^ 12 = t := by omega
    rw [ht']
  · omega

/-- The digits that are stored are those of an operand. -/
theorem Digits.operand {neg : Bool} {N : ℕ} {r1 : BitVec 16} {q : Quad} (h : Digits neg N r1 q) :
    Operand N r1 q ∧ r1.getLsbD 15 = neg := by
  have hb : bcd 19 N < 2 ^ 76 := (bcd_lt 19 N).trans_eq (by norm_num)
  obtain ⟨hd, hs⟩ := sign_and_digits h.eq hb q.toNat_lt (Bool.toNat_le neg)
  refine ⟨hd, ?_⟩
  rw [Bool.eq_iff_iff, getLsbD_eq_true_iff, hs]
  cases neg <;> decide

/-- An integer of 64 bits is kept by the extended precision. -/
theorem Loaded.extended {e : Env} {neg : Bool} {M : ℕ} {r : Acc} (hp : e.prec = 64) (hM : M < 2 ^ 64)
    (h : Loaded e (signed neg (M : ℚ)) r) : r.val = signed neg (M : ℚ) := by
  have hpos : Representable e.prec (M : ℚ) := by
    refine ⟨M, 0, ?_, by simp⟩
    rw [hp, Nat.abs_cast]
    exact_mod_cast hM
  have hrep : Representable e.prec (signed neg (M : ℚ)) := by
    cases neg
    · exact hpos
    · exact representable_neg hpos
  rw [h.val]
  exact (rnd_eq_self_iff _ _ _).mpr hrep

/-- **Back from the digits**, in extended precision. -/
theorem fldbcd_back (e : Env) (f : Clean) (hf : f.rh5.getLsbD 7 = false) (hp : e.prec = 64) {u : Op}
    {N : ℕ} (hN : N < 10 ^ 19) (hu : u.mag = N) {r1 : BitVec 16} {q : Quad}
    (h : Digits (u.neg && decide (0 < N)) N r1 q) :
    ∃ r, fldbcd e f.rh5 r1 q = some r ∧ (r.val = u.val ↔ Carryless N) := by
  obtain ⟨hop, hneg⟩ := h.operand
  obtain ⟨r, hr, hl⟩ := fldbcd_spec e f hf hN hop
  have hle := kept_le 20 N
  have hval := hl.extended hp (by omega)
  have huval : u.val = signed (u.neg && decide (0 < N)) (N : ℚ) := by
    rw [Op.val, hu]
    rcases Nat.eq_zero_or_pos N with rfl | h0
    · cases u.neg <;> simp
    · rw [decide_eq_true h0, Bool.and_true]
  refine ⟨r, hr, ?_⟩
  rw [hval, huval, hneg, signed_inj, Nat.cast_inj, kept_eq_iff (by omega)]

/-- **Decimal to binary.**  The integer that the digits denote is gathered, and rounded to the selected
precision, just when no digit is added with a carry out of the last word; a precision of 53 bits or more
does not hide the loss.  So the digits of an integer are loaded as that integer, in extended precision,
just for these ones. -/
theorem fldbcd_exact_iff (e : Env) (f : Clean) (hf : f.rh5.getLsbD 7 = false) (N : ℕ)
    (hN : N < 10 ^ 19) :
    (∀ r1 q, Operand N r1 q → ∃ r, fldbcd e f.rh5 r1 q = some r ∧
      ((gatherDigits f.rh5 r1 q).rq8.toNat = N ∧ Loaded e (signed (r1.getLsbD 15) (N : ℚ)) r ↔
        Carryless N) ∧
      (53 ≤ e.prec → (Loaded e (signed (r1.getLsbD 15) (N : ℚ)) r ↔ Carryless N))) ∧
    ∀ (e' : Env) (u : Unpacked), u.WellFormed → u.kind = .num ∨ u.kind = .zero →
      u.rh5.getLsbD 4 = false → u.rh5.getLsbD 7 = false → u.mag = N → e.prec = 64 →
      ∃ d r1 q r, frombin e' u = some d ∧ d.stored = some (r1, q) ∧ fldbcd e f.rh5 r1 q = some r ∧
        (r.val = u.val ↔ Carryless N) := by
  have hkept : kept 20 N = N ↔ Carryless N := kept_eq_iff (by omega)
  constructor
  · intro r1 q hop
    obtain ⟨r, hr, hl⟩ := fldbcd_spec e f hf hN hop
    refine ⟨r, hr, ?_, fun hp => ?_⟩
    · rw [(gatherDigits_spec hop hN f.rh5).rq8, ← hkept]
      exact ⟨And.left, fun h => ⟨h, by rw [h] at hl; exact hl⟩⟩
    · rw [← hkept]
      constructor
      · intro h
        exact rnd_natCast_inj hp (kept_le 20 N) (by omega) (kept_mod (by omega))
          (hl.val.symm.trans h.val)
      · intro h
        rw [h] at hl
        exact hl
  · intro e' u hu hk hclean hfits hmag hp
    rcases hk with hk | hk
    · obtain ⟨d, r1, q, hd, hs, -, hdig⟩ := frombin_num e' u hu hk hclean hfits hN hmag
      obtain ⟨r, hr, hiff⟩ := fldbcd_back e f hf hp hN hmag hdig
      exact ⟨d, r1, q, r, hd, hs, hr, hiff⟩
    · obtain ⟨d, r1, q, hd, hs, -, hdig⟩ := frombin_zero e' u hu hk hfits hmag
      obtain ⟨r, hr, hiff⟩ := fldbcd_back e f hf hp hN hmag hdig
      exact ⟨d, r1, q, r, hd, hs, hr, hiff⟩

theorem fldbcd_exact_iff_one :
    (∃ r, fldbcd extNearest 0 0 ⟨0, 0, 0, 1⟩ = some r ∧
      ((gatherDigits 0 0 ⟨0, 0, 0, 1⟩).rq8.toNat = 1 ∧
        Loaded extNearest (signed ((0 : BitVec 16).getLsbD 15) ((1 : ℕ) : ℚ)) r ↔ Carryless 1) ∧
      (53 ≤ extNearest.prec →
        (Loaded extNearest (signed ((0 : BitVec 16).getLsbD 15) ((1 : ℕ) : ℚ)) r ↔ Carryless 1))) ∧
    ∃ d r1 q r, frombin extNearest ⟨one.toOp, .num, 0⟩ = some d ∧ d.stored = some (r1, q) ∧
      fldbcd extNearest 0 r1 q = some r ∧ (r.val = one.val ↔ Carryless 1) :=
  ⟨(fldbcd_exact_iff extNearest ⟨0, by decide⟩ (by decide) 1 (by norm_num)).1 0 ⟨0, 0, 0, 1⟩ (by decide),
    (fldbcd_exact_iff extNearest ⟨0, by decide⟩ (by decide) 1 (by norm_num)).2 extNearest
      ⟨one.toOp, .num, 0⟩
      ⟨fun _ => ⟨one.normal, one.range⟩, fun h => absurd h (by decide), fun h => absurd h (by decide)⟩
      (Or.inl rfl) (by decide) (by decide) one_mag (by decide)⟩

/-- 65536 is loaded as zero. -/
theorem digits_65536_lost :
    Operand 65536 0 ⟨0, 0, 0x0006, 0x5536⟩ ∧
      ∃ r, fldbcd extNearest 0 0 ⟨0, 0, 0x0006, 0x5536⟩ = some r ∧ r.val = 0 ∧
        ¬ Loaded extNearest 65536 r := by
  have hop : Operand 65536 0 ⟨0, 0, 0x0006, 0x5536⟩ := by decide
  obtain ⟨r, hr, hl⟩ := fldbcd_spec extNearest ⟨0, by decide⟩ (by decide) (by norm_num) hop
  have hkept : kept 20 65536 = 0 := by decide +kernel
  have hsign : (0 : BitVec 16).getLsbD 15 = false := rfl
  rw [hkept, hsign] at hl
  have hval := hl.extended (by decide) (by norm_num)
  have hzero : r.val = 0 := by rw [hval, signed_false, Nat.cast_zero]
  refine ⟨hop, r, hr, hzero, fun h => ?_⟩
  have h' : Loaded extNearest (signed false ((65536 : ℕ) : ℚ)) r := h
  have hback := h'.extended (by decide) (by norm_num)
  rw [hzero] at hback
  norm_num at hback

end Cpm8000.Fpe
