/-
# Division

`nonrestore` is a nonrestoring division: each step subtracts the divisor when the last quotient
bit was one and adds it when it was zero, so the remainder may be a negative number, kept modulo
`2^64` with its sign in the last quotient bit.  The bit shifted out of the remainder is kept at
the top of the quotient until the quotient is shifted.

* `Divided`: the invariant, in terms of the true quotient and remainder.
* `nonreStep_divided`, `nonrestore_divided`: a step doubles the dividend; so does each of the
  steps of a whole run.
* `divno_roundsTo`: the quotient of two numbers is the exact quotient rounded once.
-/
import Cpm8000.Fpe.Range
import Cpm8000.Fpe.Round

namespace Cpm8000.Fpe

open Arith

/-! ## 1. The code -/

/-- The dividend cum remainder and the quotient. -/
structure DivRegs where
  rq4 : Quad
  rq8 : Quad

/-- Shift a quotient bit in. -/
def nonre3 (rq8 : Quad) (c : Bool) : Quad := (adcq rq8 rq8 c).val

/-- Subtract the divisor; the quotient bit is the complement of the borrow, unless a bit was
shifted out of the dividend. -/
def nonre2 (dvr : Quad) (s : DivRegs) : DivRegs :=
  let d := sublq s.rq4 dvr
  let c := if s.rq8.w0.getLsbD 15 then d.c else !d.c
  ⟨d.val, nonre3 s.rq8 c⟩

/-- Add the divisor; the quotient bit is the carry, if a bit was shifted out of the dividend. -/
def nonreAdd (dvr : Quad) (s : DivRegs) : DivRegs :=
  let d := addlq s.rq4 dvr
  let c := if !d.c then d.c else if s.rq8.w0.getLsbD 15 then d.c else !d.c
  ⟨d.val, nonre3 s.rq8 c⟩

/-- Shift the dividend, the bit shifted out going to the top of the quotient. -/
def nonreShift (s : DivRegs) : DivRegs :=
  let d := addlq s.rq4 s.rq4
  let r8 := adc s.rq8.w0 s.rq8.w0 d.c
  ⟨d.val, { s.rq8 with w0 := (rr r8.val).val }⟩

/-- One turn of the loop. -/
def nonre1 (dvr : Quad) (s : DivRegs) : DivRegs :=
  let t := nonreShift s
  if t.rq8.w3.getLsbD 0 then nonre2 dvr t else nonreAdd dvr t

/-- Divide rq4 by the divisor, r0 quotient bits. -/
def nonrestore (r0 : BitVec 16) (rq4 dvr : Quad) : DivRegs :=
  (nonre1 dvr)^[(r0 - 1).toNat] (nonre2 dvr ⟨rq4, Quad.zero⟩)

/-- The rounding bits of twice the remainder against the divisor, and the remainder restored. -/
def remvsdiv (rq4 dvr : Quad) : BitVec 8 × Quad :=
  let rl0 : BitVec 8 := 0xC0
  if rq4.w0.getLsbD 15 then (rl0, rq4)
  else
    let rem := (addlq rq4 rq4).val
    let restored := (rrcq rem false).val
    match cplq rem dvr with
    | .gt => (rl0, restored)
    | .eq => (res rl0 6, restored)
    | .lt =>
      let rl0 := res rl0 7
      if rem.hi ≠ 0 then (rl0, restored)
      else if rem.lo ≠ 0 then (rl0, restored)
      else (res rl0 6, restored)

/-- The stock NaN of an invalid operation. -/
def resinv (s : Acc) : Acc :=
  { s with rh5 := set s.rh5 0, rq8 := ⟨0x4000, 0, 0, 0⟩, rh6 := 0, rl6 := 0, r7 := 0x7FFF }

/-- The operand handed to rounding: sign, difference of exponents, quotient. -/
def divPre (dst : Op) (s : Acc) : Acc :=
  let rh6 := s.rh6 ^^^ dst.rh6
  let rr0 := (sub (long (word dst.rh6 dst.rl6) dst.r7) (long (word rh6 s.rl6) s.r7)).val
  let rr0 := (add rr0 0x3FFF).val
  let short := cplq dst.rq8 s.rq8 = .lt
  let r7 : BitVec 16 := if short then 65 else 64
  let rr0 := if short then (sub rr0 1).val else rr0
  let q := nonrestore r7 dst.rq8 s.rq8
  let rem := if q.rq8.w3.getLsbD 0 then q.rq4 else (addlq q.rq4 s.rq8).val
  let rl0 := (remvsdiv rem s.rq8).1
  { s with rh6 := rh6, rl6 := lob (hiw rr0), r7 := low rr0, rq8 := q.rq8, rl5 := s.rl5 ||| rl0 }

/-- The quotient rounded. -/
def divRound (e : Env) (dst : Op) (s : Acc) : Acc := round e (under e (divPre dst s))

/-- Divide dst by src. -/
def divno (e : Env) (dst : Op) (s : Acc) : Acc :=
  if !s.rq8.w0.getLsbD 15 then resinv s else overRange e (divRound e dst s)

/-! ## 2. The division -/

/-- The registers hold the quotient of `M` by `D`, and its remainder, less the divisor when the
last quotient bit is zero. -/
structure Divided (D M : ℕ) (s : DivRegs) : Prop where
  quo : s.rq8.toNat = M / D % 2 ^ 64
  odd : M / D % 2 = 1 → s.rq4.toNat = M % D
  even : M / D % 2 = 0 → s.rq4.toNat + D = M % D + 2 ^ 64

theorem nonre3_spec (q : Quad) (c : Bool) : (nonre3 q c).toNat = (2 * q.toNat + c.toNat) % 2 ^ 64 := by
  have h := adcq_spec q q c
  have hlt := (adcq q q c).val.toNat_lt
  have hc := Bool.toNat_le (adcq q q c).c
  rw [nonre3]
  omega

/-- A carry added into a doubled word and rotated to its top. -/
theorem rr_adc (w : BitVec 16) (c : Bool) :
    (rr (adc w w c).val).val.toNat = w.toNat % 2 ^ 15 + 2 ^ 15 * c.toNat := by
  have h := adc_spec w w c
  have hr := rr_spec (adc w w c).val (by norm_num)
  have hc := Bool.toNat_le c
  have hv := (adc w w c).val.isLt
  have hval : (adc w w c).val.toNat = 2 * (w.toNat % 2 ^ 15) + c.toNat := by omega
  rw [hval] at hr
  have hmod : (2 * (w.toNat % 2 ^ 15) + c.toNat) % 2 = c.toNat := by omega
  rw [hmod] at hr
  omega

/-- The shift leaves the bit shifted out at the top of the quotient. -/
theorem nonreShift_spec (s : DivRegs) :
    ∃ b : Bool, (nonreShift s).rq4.toNat + 2 ^ 64 * b.toNat = 2 * s.rq4.toNat ∧
      (nonreShift s).rq8.toNat = s.rq8.toNat % 2 ^ 63 + 2 ^ 63 * b.toNat ∧
      (nonreShift s).rq8.w0.getLsbD 15 = b ∧
      (nonreShift s).rq8.w3 = s.rq8.w3 := by
  have hadd := addlq_spec s.rq4 s.rq4
  have hw0 := rr_adc s.rq8.w0 (addlq s.rq4 s.rq4).c
  simp only [nonreShift]
  generalize addlq s.rq4 s.rq4 = d at hadd hw0 ⊢
  refine ⟨d.c, by rw [hadd, Nat.two_mul], ?_, ?_, trivial⟩
  · have h1 := s.rq8.w1.isLt
    have h2 := s.rq8.w2.isLt
    have h3 := s.rq8.w3.isLt
    simp only [Quad.toNat, hw0]
    omega
  · have hbit := toNat_getLsbD (rr (adc s.rq8.w0 s.rq8.w0 d.c).val).val 15
    have hbool : ∀ a b : Bool, a.toNat = b.toNat → a = b := by decide
    have hc := Bool.toNat_le d.c
    apply hbool
    rw [hbit, hw0]
    omega

/-- Doubling a division. -/
theorem div_double {D M : ℕ} (hD : 0 < D) :
    2 * M / D = 2 * (M / D) + (if D ≤ 2 * (M % D) then 1 else 0) ∧
      2 * M % D = 2 * (M % D) - (if D ≤ 2 * (M % D) then D else 0) := by
  have h := Nat.div_add_mod M D
  have hlt := Nat.mod_lt M hD
  have hM : 2 * M = D * (2 * (M / D)) + 2 * (M % D) := by
    calc 2 * M = 2 * (D * (M / D) + M % D) := by rw [h]
      _ = D * (2 * (M / D)) + 2 * (M % D) := by ring
  by_cases hc : D ≤ 2 * (M % D)
  · rw [if_pos hc, if_pos hc]
    have hM' : 2 * M = (2 * (M % D) - D) + D * (2 * (M / D) + 1) := by
      rw [Nat.mul_add, Nat.mul_one]
      omega
    rw [hM', Nat.add_mul_div_left _ _ hD, Nat.add_mul_mod_self_left,
      Nat.div_eq_of_lt (by omega), Nat.mod_eq_of_lt (by omega)]
    exact ⟨by omega, rfl⟩
  · rw [if_neg hc, if_neg hc, hM, Nat.add_comm, Nat.add_mul_div_left _ _ hD,
      Nat.add_mul_mod_self_left, Nat.div_eq_of_lt (by omega), Nat.mod_eq_of_lt (by omega)]
    exact ⟨by omega, rfl⟩

/-- Subtracting: `x` is the dividend with the bit shifted out of it, and less than twice the
divisor. -/
theorem nonre2_spec (dvr : Quad) {s : DivRegs} {x : ℕ} {b : Bool} (hx : x < 2 * dvr.toNat)
    (hs : s.rq4.toNat + 2 ^ 64 * b.toNat = x) (hb : s.rq8.w0.getLsbD 15 = b) :
    (nonre2 dvr s).rq8 = nonre3 s.rq8 (decide (dvr.toNat ≤ x)) ∧
      (nonre2 dvr s).rq4.toNat + dvr.toNat = if dvr.toNat ≤ x then x else x + 2 ^ 64 := by
  have h := sublq_spec s.rq4 dvr
  have hlt := (sublq s.rq4 dvr).val.toNat_lt
  have hd := dvr.toNat_lt
  have hs4 := s.rq4.toNat_lt
  simp only [nonre2, hb]
  cases b with
  | false =>
    rw [Bool.toNat_false] at hs
    simp only [Bool.false_eq_true, if_false]
    cases hc : (sublq s.rq4 dvr).c <;> rw [hc] at h <;>
      simp only [Bool.toNat_false, Bool.toNat_true] at h
    · have hle : dvr.toNat ≤ x := by omega
      rw [decide_eq_true hle, if_pos hle]
      exact ⟨rfl, by omega⟩
    · have hgt : ¬ dvr.toNat ≤ x := by omega
      rw [decide_eq_false hgt, if_neg hgt]
      exact ⟨rfl, by omega⟩
  | true =>
    rw [Bool.toNat_true] at hs
    simp only [if_true]
    cases hc : (sublq s.rq4 dvr).c <;> rw [hc] at h <;>
      simp only [Bool.toNat_false, Bool.toNat_true] at h
    · omega
    · have hle : dvr.toNat ≤ x := by omega
      rw [decide_eq_true hle, if_pos hle]
      exact ⟨rfl, by omega⟩

/-- Adding: the dividend is a negative remainder doubled, `2^65` up, and `x` is what the
subtraction would have started from. -/
theorem nonreAdd_spec (dvr : Quad) {s : DivRegs} {x : ℕ} {b : Bool}
    (hs : s.rq4.toNat + 2 ^ 64 * b.toNat + 2 * dvr.toNat = x + 2 ^ 65)
    (hb : s.rq8.w0.getLsbD 15 = b) :
    (nonreAdd dvr s).rq8 = nonre3 s.rq8 (decide (dvr.toNat ≤ x)) ∧
      (nonreAdd dvr s).rq4.toNat + dvr.toNat = if dvr.toNat ≤ x then x else x + 2 ^ 64 := by
  have h := addlq_spec s.rq4 dvr
  have hlt := (addlq s.rq4 dvr).val.toNat_lt
  have hd := dvr.toNat_lt
  have hs4 := s.rq4.toNat_lt
  simp only [nonreAdd, hb]
  cases b with
  | false =>
    rw [Bool.toNat_false] at hs
    simp only [Bool.false_eq_true, if_false]
    cases hc : (addlq s.rq4 dvr).c <;> rw [hc] at h <;>
      simp only [Bool.toNat_false, Bool.toNat_true] at h
    · omega
    · have hgt : ¬ dvr.toNat ≤ x := by omega
      rw [decide_eq_false hgt, if_neg hgt]
      exact ⟨rfl, by omega⟩
  | true =>
    rw [Bool.toNat_true] at hs
    simp only [if_true]
    cases hc : (addlq s.rq4 dvr).c <;> rw [hc] at h <;>
      simp only [Bool.toNat_false, Bool.toNat_true] at h
    · have hgt : ¬ dvr.toNat ≤ x := by omega
      rw [decide_eq_false hgt, if_neg hgt]
      exact ⟨rfl, by omega⟩
    · have hle : dvr.toNat ≤ x := by omega
      rw [decide_eq_true hle, if_pos hle]
      exact ⟨rfl, by omega⟩

/-- The registers after a quotient bit, from the shifted ones. -/
theorem divided_of_bit {D M : ℕ} {t : DivRegs} (hD : 0 < D) {q : Quad}
    (hq : 2 * q.toNat % 2 ^ 64 = 2 * (M / D) % 2 ^ 64)
    (ht8 : t.rq8 = nonre3 q (decide (D ≤ 2 * (M % D))))
    (ht4 : t.rq4.toNat + D = if D ≤ 2 * (M % D) then 2 * (M % D) else 2 * (M % D) + 2 ^ 64) :
    Divided D (2 * M) t := by
  obtain ⟨h1, h2⟩ := div_double (M := M) hD
  by_cases hc : D ≤ 2 * (M % D)
  · rw [if_pos hc] at h1 h2 ht4
    rw [decide_eq_true hc] at ht8
    refine ⟨?_, fun _ => ?_, fun h => ?_⟩
    · rw [ht8, nonre3_spec, h1, Bool.toNat_true, Nat.add_mod, hq, ← Nat.add_mod]
    · rw [h2]
      exact Nat.eq_sub_of_add_eq ht4
    · rw [h1] at h
      omega
  · rw [if_neg hc] at h1 h2 ht4
    rw [Nat.add_zero] at h1
    rw [Nat.sub_zero] at h2
    rw [decide_eq_false hc] at ht8
    refine ⟨?_, fun h => ?_, fun _ => ?_⟩
    · rw [ht8, nonre3_spec, h1, Bool.toNat_false, Nat.add_zero, hq]
    · rw [h1] at h
      omega
    · rw [h2]
      exact ht4

/-- **One turn of the loop divides twice the dividend.** -/
theorem nonre1_divided {dvr : Quad} {M : ℕ} {s : DivRegs} (hD : 0 < dvr.toNat)
    (h : Divided dvr.toNat M s) : Divided dvr.toNat (2 * M) (nonre1 dvr s) := by
  obtain ⟨hquo, hodd, heven⟩ := h
  obtain ⟨b, h4, h8, hb, h3⟩ := nonreShift_spec s
  have hDlt := dvr.toNat_lt
  have hr := Nat.mod_lt M hD
  have hq : 2 * (nonreShift s).rq8.toNat % 2 ^ 64 = 2 * (M / dvr.toNat) % 2 ^ 64 := by
    rw [h8]
    have := Bool.toNat_le b
    omega
  have hbit : s.rq8.w3.getLsbD 0 = true ↔ M / dvr.toNat % 2 = 1 := by
    rw [getLsbD_eq_true_iff, ← Nat.mod_mod_of_dvd (M / dvr.toNat) (show 2 ∣ 2 ^ 64 by norm_num),
      ← hquo]
    simp only [Quad.toNat]
    omega
  rw [nonre1]
  simp only [h3]
  by_cases hlast : M / dvr.toNat % 2 = 1
  · rw [if_pos (hbit.mpr hlast)]
    rw [hodd hlast] at h4
    obtain ⟨e8, e4⟩ := nonre2_spec dvr (s := nonreShift s) (x := 2 * (M % dvr.toNat)) (by omega) h4 hb
    exact divided_of_bit (by omega) hq e8 e4
  · have hzero : M / dvr.toNat % 2 = 0 := by omega
    rw [if_neg (fun hc => hlast (hbit.mp hc))]
    have hrem := heven hzero
    obtain ⟨e8, e4⟩ := nonreAdd_spec dvr (s := nonreShift s) (x := 2 * (M % dvr.toNat)) (by omega) hb
    exact divided_of_bit (by omega) hq e8 e4

/-- The first subtraction divides the dividend itself. -/
theorem nonre2_divided {rq4 dvr : Quad} (hM : rq4.toNat < 2 * dvr.toNat) :
    Divided dvr.toNat rq4.toNat (nonre2 dvr ⟨rq4, Quad.zero⟩) := by
  have hlt := rq4.toNat_lt
  obtain ⟨e8, e4⟩ := nonre2_spec dvr (s := ⟨rq4, Quad.zero⟩) (x := rq4.toNat)
    (b := false) (by omega) (by simp) (by decide : Quad.zero.w0.getLsbD 15 = false)
  have hz : Quad.zero.toNat = 0 := rfl
  by_cases hc : dvr.toNat ≤ rq4.toNat
  · have hq : rq4.toNat / dvr.toNat = 1 := by
      rw [Nat.div_eq_iff (by omega)]
      omega
    have hm : rq4.toNat % dvr.toNat = rq4.toNat - dvr.toNat := by
      rw [Nat.mod_eq_sub_mod hc, Nat.mod_eq_of_lt (by omega)]
    rw [decide_eq_true hc] at e8
    rw [if_pos hc] at e4
    refine ⟨?_, fun _ => ?_, fun h => ?_⟩
    · rw [e8, nonre3_spec, hz, hq]
      rfl
    · rw [hm]
      exact Nat.eq_sub_of_add_eq e4
    · rw [hq] at h
      exact absurd h (by decide)
  · have hq : rq4.toNat / dvr.toNat = 0 := Nat.div_eq_of_lt (not_le.mp hc)
    have hm : rq4.toNat % dvr.toNat = rq4.toNat := Nat.mod_eq_of_lt (not_le.mp hc)
    rw [decide_eq_false hc] at e8
    rw [if_neg hc] at e4
    refine ⟨?_, fun h => ?_, fun _ => ?_⟩
    · rw [e8, nonre3_spec, hz, hq]
      rfl
    · rw [hq] at h
      exact absurd h (by decide)
    · rw [hm]
      exact e4

/-- **A whole division**: `n` more quotient bits. -/
theorem nonrestore_divided {rq4 dvr : Quad} (hM : rq4.toNat < 2 * dvr.toNat) (n : ℕ) :
    Divided dvr.toNat (2 ^ n * rq4.toNat) ((nonre1 dvr)^[n] (nonre2 dvr ⟨rq4, Quad.zero⟩)) := by
  induction n with
  | zero =>
    rw [Nat.pow_zero, Nat.one_mul]
    exact nonre2_divided hM
  | succ n ih =>
    have hstep : 2 ^ (n + 1) * rq4.toNat = 2 * (2 ^ n * rq4.toNat) := by ring
    have hD : 0 < dvr.toNat := by omega
    rw [Function.iterate_succ_apply', hstep]
    exact nonre1_divided hD ih

theorem lastBit_iff (q : Quad) : q.w3.getLsbD 0 = true ↔ q.toNat % 2 = 1 := by
  rw [getLsbD_eq_true_iff]
  simp only [Quad.toNat]
  omega

/-- Adding the divisor to a remainder less the divisor. -/
theorem add_back {v c r D : ℕ} (h : v + 2 ^ 64 * c = r + 2 ^ 64) (hv : v < 2 ^ 64) (hr : r < D)
    (hD : D < 2 ^ 64) : v = r := by
  omega

/-- The remainder, the divisor added back when the last quotient bit is zero. -/
def avenged (dvr : Quad) (s : DivRegs) : Quad :=
  if s.rq8.w3.getLsbD 0 then s.rq4 else (addlq s.rq4 dvr).val

/-- **The correction leaves the remainder.** -/
theorem Divided.avenged {dvr : Quad} {M : ℕ} {s : DivRegs} (h : Divided dvr.toNat M s) (hD : 0 < dvr.toNat) :
    (avenged dvr s).toNat = M % dvr.toNat := by
  have hlast : s.rq8.w3.getLsbD 0 = true ↔ M / dvr.toNat % 2 = 1 := by
    rw [lastBit_iff, h.quo, Nat.mod_mod_of_dvd _ (by norm_num : 2 ∣ 2 ^ 64)]
  rw [Fpe.avenged]
  by_cases hbit : M / dvr.toNat % 2 = 1
  · rw [if_pos (hlast.mpr hbit)]
    exact h.odd hbit
  · rw [if_neg (fun hc => hbit (hlast.mp hc))]
    have hadd := addlq_spec s.rq4 dvr
    rw [h.even (by omega)] at hadd
    exact add_back hadd (addlq s.rq4 dvr).val.toNat_lt (Nat.mod_lt _ hD) dvr.toNat_lt

/-! ## 3. The rounding bits -/

/-- Doubling a number of 63 bits in 64. -/
theorem double_of_lt {a v c : ℕ} (h : v + 2 ^ 64 * c = a + a) (ha : a < 2 ^ 63) : v = 2 * a := by
  omega

/-- The guard and the sticky bit of a remainder `r` against the divisor `D`. -/
def remBits (D r : ℕ) : BitVec 8 :=
  if D < 2 * r then 0xC0 else if 2 * r = D then 0x80 else if r ≠ 0 then 0x40 else 0

theorem remvsdiv_spec {rq4 dvr : Quad} : (remvsdiv rq4 dvr).1 = remBits dvr.toNat rq4.toNat := by
  have hbit := Quad.getLsbD_w0_iff rq4
  rw [remBits]
  simp only [remvsdiv]
  by_cases hbig : rq4.w0.getLsbD 15 = true
  · have hgt : dvr.toNat < 2 * rq4.toNat :=
      lt_of_lt_of_le dvr.toNat_lt (Nat.mul_le_mul_left 2 (hbit.mp hbig))
    rw [if_pos hbig, if_pos hgt]
  · have hrem := double_of_lt (addlq_spec rq4 rq4) (not_le.mp fun h => hbig (hbit.mpr h))
    have hcmp := cplq_cases (addlq rq4 rq4).val dvr
    have hparts := Quad.toNat_eq (addlq rq4 rq4).val
    have h0 : ∀ x : BitVec 32, x = 0 ↔ x.toNat = 0 := fun x => by
      rw [← BitVec.toNat_inj]
      rfl
    rw [hrem] at hcmp hparts
    rw [if_neg hbig]
    simp only [ne_eq, h0]
    generalize addlq rq4 rq4 = twice at hcmp hparts ⊢
    generalize rq4.toNat = a at hcmp hparts ⊢
    generalize dvr.toNat = d at hcmp ⊢
    rcases hcmp with ⟨h, hlt⟩ | ⟨h, heq⟩ | ⟨h, hgt⟩
    · have h1 : ¬ d < 2 * a := by omega
      have h2 : ¬ 2 * a = d := by omega
      rw [h, if_neg h1, if_neg h2]
      simp only
      generalize twice.val.hi.toNat = hi at hparts ⊢
      generalize twice.val.lo.toNat = lo at hparts ⊢
      by_cases hr : a = 0
      · have hhi : hi = 0 := by omega
        have hlo : lo = 0 := by omega
        simp only [hhi, hlo, hr, not_true_eq_false, if_false]
        decide
      · rw [if_pos hr]
        split_ifs with h3 h4
        · omega
        · rfl
        · rfl
    · have h1 : ¬ d < 2 * a := by omega
      rw [h, if_neg h1, if_pos heq]
      rfl
    · rw [h, if_pos hgt]

/-- The comparison leaves the remainder as it was. -/
theorem remvsdiv_restores (rq4 dvr : Quad) : (remvsdiv rq4 dvr).2 = rq4 := by
  have hbit := Quad.getLsbD_w0_iff rq4
  simp only [remvsdiv]
  by_cases hbig : rq4.w0.getLsbD 15 = true
  · rw [if_pos hbig]
  · have hrem := double_of_lt (addlq_spec rq4 rq4) (not_le.mp fun h => hbig (hbit.mpr h))
    have hrrc := rrcq_spec (addlq rq4 rq4).val false
    have hc := Bool.toNat_le (rrcq (addlq rq4 rq4).val false).c
    rw [hrem, Bool.toNat_false] at hrrc
    have hrestored : (rrcq (addlq rq4 rq4).val false).val = rq4 := Quad.toNat_inj (by omega)
    rw [if_neg hbig, hrestored]
    split
    · rfl
    · rfl
    · split_ifs <;> rfl

/-- **Nonrestoring division.**  For every divisor that is not zero, every dividend less than twice the
divisor, and every count, the registers hold the last 64 bits of a quotient and, after the correction, the
remainder; the comparison tells where twice the remainder is, and leaves it. -/
theorem nonrestore_divides (r0 : BitVec 16) (rq4 dvr : Quad) (hM : rq4.toNat < 2 * dvr.toNat) :
    ∃ Q : ℕ, rq4.toNat * 2 ^ (r0 - 1).toNat = Q * dvr.toNat + (avenged dvr (nonrestore r0 rq4 dvr)).toNat ∧
      (avenged dvr (nonrestore r0 rq4 dvr)).toNat < dvr.toNat ∧
      (nonrestore r0 rq4 dvr).rq8.toNat = Q % 2 ^ 64 ∧
      remvsdiv (avenged dvr (nonrestore r0 rq4 dvr)) dvr =
        (remBits dvr.toNat (avenged dvr (nonrestore r0 rq4 dvr)).toNat, avenged dvr (nonrestore r0 rq4 dvr)) := by
  have hD : 0 < dvr.toNat := by omega
  have hdivided := nonrestore_divided hM (r0 - 1).toNat
  rw [← nonrestore] at hdivided
  have hrem := hdivided.avenged hD
  refine ⟨2 ^ (r0 - 1).toNat * rq4.toNat / dvr.toNat, ?_, ?_, hdivided.quo, ?_⟩
  · rw [hrem, Nat.mul_comm rq4.toNat, Nat.div_add_mod']
  · rw [hrem]
    exact Nat.mod_lt _ hD
  · exact Prod.ext remvsdiv_spec (remvsdiv_restores _ _)

/-- One by three, four quotient bits: the quotient is 2 and the remainder 2. -/
theorem nonrestore_divides_third :
    (nonrestore 4 ⟨0, 0, 0, 1⟩ ⟨0, 0, 0, 3⟩).rq8.toNat = 2 ∧
      (avenged ⟨0, 0, 0, 3⟩ (nonrestore 4 ⟨0, 0, 0, 1⟩ ⟨0, 0, 0, 3⟩)).toNat = 2 ∧
      ∃ Q : ℕ, 1 * 2 ^ 3 = Q * 3 + 2 ∧ 2 < 3 ∧ 2 = Q % 2 ^ 64 := by
  have hq : (nonrestore 4 ⟨0, 0, 0, 1⟩ ⟨0, 0, 0, 3⟩).rq8.toNat = 2 := by decide +kernel
  have hr : (avenged ⟨0, 0, 0, 3⟩ (nonrestore 4 ⟨0, 0, 0, 1⟩ ⟨0, 0, 0, 3⟩)).toNat = 2 := by decide +kernel
  obtain ⟨Q, h1, h2, h3, -⟩ := nonrestore_divides 4 ⟨0, 0, 0, 1⟩ ⟨0, 0, 0, 3⟩ (by decide)
  rw [hr] at h1 h2
  rw [hq] at h3
  exact ⟨hq, hr, Q, h1, h2, h3⟩

/-- The quotient with the bits of the remainder is the exact quotient rounded to odd. -/
theorem roundOdd_quotient {D M : ℕ} (hD : 0 < D) {s : Acc} (hdig : s.digits = M / D)
    (hrl5 : s.rl5 = remBits D (M % D)) : RoundOdd (4 * ((M : ℚ) / D)) s.grs := by
  have hDQ : (0 : ℚ) < D := by exact_mod_cast hD
  have hM : (M : ℚ) = D * (M / D : ℕ) + (M % D : ℕ) := by exact_mod_cast (Nat.div_add_mod M D).symm
  have hr : ((M % D : ℕ) : ℚ) < D := by exact_mod_cast Nat.mod_lt M hD
  have hx : 4 * ((M : ℚ) / D) = 4 * (M / D : ℕ) + 4 * (M % D : ℕ) / D := by
    rw [hM]
    field_simp
  rw [hx, Acc.grs, hdig, hrl5, remBits]
  clear hx hM
  generalize M / D = Q
  generalize M % D = r at *
  -- the remainder against half the divisor decides the two bits
  split_ifs with h1 h2 h3
  · have h1Q : (D : ℚ) < 2 * r := by exact_mod_cast h1
    have hlow : (2 : ℚ) < 4 * r / D := by rw [lt_div_iff₀ hDQ]; linarith
    have hhigh : 4 * (r : ℚ) / D < 4 := by rw [div_lt_iff₀ hDQ]; linarith
    have hX : 4 * Q + 2 * ((0xC0 : BitVec 8).getLsbD 7).toNat +
        (decide ((0xC0 : BitVec 8).toNat % 128 ≠ 0)).toNat = 4 * Q + 3 := rfl
    rw [hX]
    refine Or.inr ⟨by omega, ?_, ?_⟩ <;> push_cast <;> linarith
  · have h2Q : 2 * (r : ℚ) = D := by exact_mod_cast h2
    have hval : 4 * (r : ℚ) / D = 2 := by rw [div_eq_iff hDQ.ne']; linarith
    have hX : 4 * Q + 2 * ((0x80 : BitVec 8).getLsbD 7).toNat +
        (decide ((0x80 : BitVec 8).toNat % 128 ≠ 0)).toNat = 4 * Q + 2 := rfl
    rw [hX, hval]
    left
    push_cast
    ring
  · have h3Q : (0 : ℚ) < r := by exact_mod_cast Nat.pos_of_ne_zero h3
    have hltQ : 2 * (r : ℚ) < D := by exact_mod_cast (show 2 * r < D by omega)
    have hlow : 0 < 4 * (r : ℚ) / D := by positivity
    have hhigh : 4 * (r : ℚ) / D < 2 := by rw [div_lt_iff₀ hDQ]; linarith
    have hX : 4 * Q + 2 * ((0x40 : BitVec 8).getLsbD 7).toNat +
        (decide ((0x40 : BitVec 8).toNat % 128 ≠ 0)).toNat = 4 * Q + 1 := rfl
    rw [hX]
    refine Or.inr ⟨by omega, ?_, ?_⟩ <;> push_cast <;> linarith
  · have hr0 : r = 0 := not_not.mp h3
    have hX : 4 * Q + 2 * ((0 : BitVec 8).getLsbD 7).toNat +
        (decide ((0 : BitVec 8).toNat % 128 ≠ 0)).toNat = 4 * Q := rfl
    rw [hX, hr0]
    left
    push_cast
    ring

/-! ## 4. The quotient -/

/-- One when the quotient has a leading zero, so that 65 bits of it are developed. -/
def shortBy (N D : ℕ) : ℕ := if N < D then 1 else 0

/-- The difference of two exponents, the bias added back, less one for a leading zero. -/
theorem div_expo (a b : BitVec 8) (x y : Op) (p : Prop) [Decidable p] :
    let d := (add (sub (long (word a x.rl6) x.r7) (long (word b y.rl6) y.r7)).val 0x3FFF).val
    ∃ m : ℤ, (((if p then (sub d 1).val else d).toNat % 2 ^ 24 : ℕ) : ℤ) =
      x.expo - y.expo + 0x3FFF - (if p then 1 else 0) + 2 ^ 24 * m := by
  intro d
  have hsub := sub_spec (long (word a x.rl6) x.r7) (long (word b y.rl6) y.r7)
  have hadd := add_spec (sub (long (word a x.rl6) x.r7) (long (word b y.rl6) y.r7)).val 0x3FFF
  have hdec := sub_spec d 1
  rw [long_expBits, long_expBits] at hsub
  have hc : (0x3FFF : BitVec 32).toNat = 0x3FFF := rfl
  have h1 : (1 : BitVec 32).toNat = 1 := rfl
  rw [hc] at hadd
  rw [h1] at hdec
  obtain ⟨m1, e1⟩ := x.expBits_eq
  obtain ⟨m2, e2⟩ := y.expBits_eq
  have hd : d.toNat + 2 ^ 32 *
      (add (sub (long (word a x.rl6) x.r7) (long (word b y.rl6) y.r7)).val 0x3FFF).c.toNat =
      (sub (long (word a x.rl6) x.r7) (long (word b y.rl6) y.r7)).val.toNat + 0x3FFF := hadd
  clear hadd
  generalize sub (long (word a x.rl6) x.r7) (long (word b y.rl6) y.r7) = v at hsub hd
  generalize (add v.val 0x3FFF).c.toNat = c at hd
  clear_value d
  generalize sub d 1 = z at hdec ⊢
  split_ifs
  · refine ⟨a.toNat - b.toNat + m1 - m2 + 256 * (v.c.toNat - c + z.c.toNat) -
      z.val.toNat / 2 ^ 24, ?_⟩
    omega
  · refine ⟨a.toNat - b.toNat + m1 - m2 + 256 * (v.c.toNat - c) - d.toNat / 2 ^ 24, ?_⟩
    omega

/-- What division hands to rounding. -/
structure DivOut (M : ℕ) (k : ℕ) (dst : Op) (s t : Acc) : Prop where
  neg : t.neg = (s.neg ^^ dst.neg)
  rh5 : t.rh5 = s.rh5
  digits : t.digits = M / s.digits
  rl5 : t.rl5 = remBits s.digits (M % s.digits)
  expBits : ∃ m : ℤ, (t.expBits : ℤ) = dst.expo - s.expo + 0x3FFF - k + 2 ^ 24 * m

/-- The quotient of normalised significands, to 64 bits. -/
theorem quotient_bounds {N D : ℕ} (hN : 2 ^ 63 ≤ N) (hN' : N < 2 ^ 64) (hD : 2 ^ 63 ≤ D)
    (hD' : D < 2 ^ 64) :
    2 ^ 63 * D ≤ 2 ^ (63 + shortBy N D) * N ∧ 2 ^ (63 + shortBy N D) * N < 2 ^ 64 * D := by
  unfold shortBy
  split_ifs with h
  · constructor <;> norm_num <;> omega
  · constructor <;> norm_num <;> omega

/-- **What division hands to rounding.** -/
theorem divPre_spec (dst : Op) (s : Acc) (hs : s.Normal) (hd : dst.Normal) (h5 : s.rl5 = 0) :
    DivOut (2 ^ (63 + shortBy dst.digits s.digits) * dst.digits) (shortBy dst.digits s.digits)
      dst s (divPre dst s) := by
  have hcmp : cplq dst.rq8 s.rq8 = .lt ↔ dst.digits < s.digits := cplq_lt_iff _ _
  have hcount : ((if cplq dst.rq8 s.rq8 = .lt then 65 else 64 : BitVec 16) - 1).toNat =
      63 + shortBy dst.digits s.digits := by
    unfold shortBy
    simp only [hcmp]
    split_ifs <;> rfl
  have hdivided := nonrestore_divided
    (show dst.rq8.toNat < 2 * s.rq8.toNat from lt_of_lt_of_le dst.rq8.toNat_lt (Nat.mul_le_mul_left 2 hs))
    (63 + shortBy dst.digits s.digits)
  have hloop : nonrestore (if cplq dst.rq8 s.rq8 = .lt then 65 else 64) dst.rq8 s.rq8 =
      (nonre1 s.rq8)^[63 + shortBy dst.digits s.digits] (nonre2 s.rq8 ⟨dst.rq8, Quad.zero⟩) := by
    rw [nonrestore, hcount]
  rw [← hloop] at hdivided
  have hquo := hdivided.quo
  have hD0 : 0 < s.rq8.toNat := lt_of_lt_of_le (by norm_num) hs
  have hDlt := s.rq8.toNat_lt
  have hlt64 : 2 ^ (63 + shortBy dst.digits s.digits) * dst.rq8.toNat / s.rq8.toNat < 2 ^ 64 := by
    rw [Nat.div_lt_iff_lt_mul hD0]
    exact (quotient_bounds hd dst.digits_lt hs s.digits_lt).2
  rw [Nat.mod_eq_of_lt hlt64] at hquo
  have hmod := Nat.mod_lt (2 ^ (63 + shortBy dst.digits s.digits) * dst.rq8.toNat) hD0
  have hexp := div_expo dst.rh6 (s.rh6 ^^^ dst.rh6) dst s.toOp (cplq dst.rq8 s.rq8 = .lt)
  have hshort : (if cplq dst.rq8 s.rq8 = .lt then (1 : ℤ) else 0) =
      shortBy dst.digits s.digits := by
    unfold shortBy
    simp only [hcmp]
    split_ifs <;> rfl
  rw [hshort] at hexp
  obtain ⟨m, hm⟩ := hexp
  rw [← expWord] at hm
  set q := nonrestore (if cplq dst.rq8 s.rq8 = .lt then 65 else 64) dst.rq8 s.rq8 with hq
  -- the remainder, the divisor added back when the last quotient bit is zero
  have hremval : (if q.rq8.w3.getLsbD 0 then q.rq4 else (addlq q.rq4 s.rq8).val).toNat =
      2 ^ (63 + shortBy dst.digits s.digits) * dst.rq8.toNat % s.rq8.toNat :=
    hdivided.avenged hD0
  refine ⟨BitVec.getLsbD_xor, rfl, hquo, ?_, m, hm⟩
  have hrl : (divPre dst s).rl5 = s.rl5 ||| (remvsdiv
    (if q.rq8.w3.getLsbD 0 then q.rq4 else (addlq q.rq4 s.rq8).val) s.rq8).1 := rfl
  rw [hrl, h5, remvsdiv_spec, hremval]
  exact BitVec.zero_or

/-- The exact quotient, through its 64-bit significand and its exponent. -/
theorem val_div {x y : Op} (hy : 0 < y.digits) (k : ℕ) :
    x.val / y.val = signed (x.neg ^^ y.neg)
      (((2 ^ (63 + k) * x.digits : ℕ) : ℚ) / y.digits *
        2 ^ (x.expo - y.expo + 0x3FFF - k - bias - 63)) := by
  have hyQ : (y.digits : ℚ) ≠ 0 := by exact_mod_cast hy.ne'
  have hz : ((2 : ℚ) ^ (63 + k) * 2 ^ (x.expo - y.expo + 0x3FFF - k - bias - 63)) =
      2 ^ (x.expo - bias - 63) / 2 ^ (y.expo - bias - 63) := by
    rw [← zpow_natCast, ← zpow_add₀ (by norm_num), ← zpow_sub₀ (by norm_num)]
    congr 1
    simp only [bias]
    push_cast
    ring
  rw [Op.val, Op.val, signed_div, Op.mag, Op.mag, mul_div_mul_comm, ← hz]
  congr 1
  push_cast
  ring

/-- The significand of an exact quotient of normalised significands. -/
theorem quotient_boundsQ {N D : ℕ} (hN : 2 ^ 63 ≤ N) (hN' : N < 2 ^ 64) (hD : 2 ^ 63 ≤ D)
    (hD' : D < 2 ^ 64) :
    (2 : ℚ) ^ 63 ≤ ((2 ^ (63 + shortBy N D) * N : ℕ) : ℚ) / D ∧
      ((2 ^ (63 + shortBy N D) * N : ℕ) : ℚ) / D < 2 ^ 64 := by
  obtain ⟨h1, h2⟩ := quotient_bounds hN hN' hD hD'
  have hD0 : (0 : ℚ) < D := by exact_mod_cast (show 0 < D by omega)
  rw [le_div_iff₀ hD0, div_lt_iff₀ hD0]
  exact ⟨by exact_mod_cast h1, by exact_mod_cast h2⟩

/-- The exponent of an exact quotient. -/
theorem expOf_div (x y : Number) :
    expOf (x.val / y.val) = x.expo - y.expo + 0x3FFF - shortBy x.digits y.digits := by
  obtain ⟨h1, h2⟩ := quotient_boundsQ x.normal x.digits_lt y.normal y.digits_lt
  rw [val_div (lt_of_lt_of_le (by norm_num) y.normal) (shortBy x.digits y.digits),
    expOf_scaled _ _ h1 h2]

/-- **Correct rounding of division.**  The quotient of two numbers whose exact quotient has an
exponent of the extended range is that quotient rounded once, with sign, significand, exponent
and inexact flag right; the range check that follows leaves the result alone unless rounding
carried it out of the range. -/
theorem divno_roundsTo (e : Env) (he : e.Register) (dst src : Number) (f : Clean)
    (hr : InRange (dst.val / src.val)) :
    RoundsTo e (divRound e dst.toOp (src.start f)) (dst.val / src.val) ∧
      ((divRound e dst.toOp (src.start f)).expBits ≤ 0x7FFE →
        divno e dst.toOp (src.start f) = divRound e dst.toOp (src.start f)) := by
  have hD : 0 < src.digits := lt_of_lt_of_le (by norm_num) src.normal
  obtain ⟨hneg, h5, hdig, hrl5, m, hexp⟩ :=
    divPre_spec dst.toOp (src.start f) src.normal dst.normal rfl
  have hstart : (src.start f).digits = src.digits := rfl
  have hstart' : (src.start f).expo = src.expo := rfl
  have hneg' : (src.start f).neg = src.neg := rfl
  rw [hstart] at hdig hrl5 hexp
  rw [hstart'] at hexp
  rw [hneg', Bool.xor_comm] at hneg
  obtain ⟨hb1, -⟩ := quotient_bounds dst.normal dst.digits_lt src.normal src.digits_lt
  have hclean : (divPre dst.toOp (src.start f)).inexact = false := by
    rw [Acc.inexact, h5]
    exact f.exact
  have hn : (divPre dst.toOp (src.start f)).Normal := by
    rw [Op.Normal, hdig, Nat.le_div_iff_mul_le hD]
    exact hb1
  constructor
  · rw [val_div hD (shortBy dst.digits src.digits), ← hneg] at hr ⊢
    exact finish_roundsTo he hn hclean (roundOdd_quotient hD hdig hrl5) hexp hr
  · intro h
    have hbit : (src.start f).rq8.w0.getLsbD 15 = true :=
      (Quad.getLsbD_w0_iff _).mpr src.normal
    rw [divno, hbit]
    exact overRange_of_inRange he h

/-- The theorem at `1 / 3`. -/
theorem divno_roundsTo_third :
    RoundsTo extNearest (divRound extNearest one.toOp (three.start noErrors))
        (one.val / three.val) ∧
      ((divRound extNearest one.toOp (three.start noErrors)).expBits ≤ 0x7FFE →
        divno extNearest one.toOp (three.start noErrors) =
          divRound extNearest one.toOp (three.start noErrors)) :=
  divno_roundsTo extNearest (by decide) one three noErrors (by rw [InRange, expOf_div]; decide)

end Cpm8000.Fpe
