/-
# Unpacking and delivery

Operands come in three formats: 32-bit single, 64-bit double and the 80-bit extended format of a
register.  Unpacking takes sign, exponent and significand apart with rotates through the carry,
puts the leading bit in and the exponent on the common bias, and normalises what is denormal;
delivery puts the fields together again.

* `Datum`: what a bit pattern stands for, from the definition of its format.
* `single_datum`, `double_datum`, `ext_datum`: unpacking yields exactly that.
* `dlvry51_fields`, `dlvry53_fields`, `dlvry54_fields`: what delivery writes.
-/
import Cpm8000.Fpe.Range

namespace Cpm8000.Fpe

open Arith

/-! ## 1. Unpacking -/

/-- The cases an unpacked operand is sorted into. -/
inductive Kind where
  | num
  | zero
  | inf
  | qnan
  | snan
  deriving DecidableEq

/-- An unpacked operand with its case and the error byte. -/
structure Unpacked extends Op where
  kind : Kind
  rh5 : BitVec 8
  deriving DecidableEq

/-- NaN or infinity. -/
def fdninf (o : Op) (rh5 : BitVec 8) : Unpacked :=
  let kind : Kind :=
    if o.rq8.hi ≠ 0 then (if o.rq8.w0.getLsbD 14 then .qnan else .snan)
    else if o.rq8.lo ≠ 0 then (if o.rq8.w0.getLsbD 14 then .qnan else .snan)
    else .inf
  { o with r7 := 0x7FFF, kind := kind, rh5 := rh5 }

/-- Normalise; `none` when the fuel runs out. -/
def setup101 : ℕ → Op → Option Op
  | 0, _ => none
  | fuel + 1, o =>
    let o := { o with r7 := (sub o.r7 1).val, rq8 := (addlq o.rq8 o.rq8).val }
    if o.rq8.w0.getLsbD 15 then some o else setup101 fuel o

/-- Unnormalised or denormalised. -/
def fdun (o : Op) (rh5 : BitVec 8) : Option Unpacked :=
  (setup101 64 o).map fun o =>
    { o with
      rl6 := if o.r7.getLsbD 15 then 0xFF else o.rl6
      kind := .num
      rh5 := set rh5 5 }

/-- Zero or unnormalised. -/
def fdzun (o : Op) (rh5 : BitVec 8) : Option Unpacked :=
  if o.rq8.hi ≠ 0 then fdun o rh5
  else if o.rq8.lo ≠ 0 then fdun o rh5
  else some { o with r7 := 0, kind := .zero, rh5 := rh5 }

/-- Set the leading bit of the significand. -/
def setLead (q : Quad) : Quad := { q with w0 := set q.w0 15 }

/-- Fix up the reserved exponents: `dr7` stands for the smallest exponent of the format on the
common bias, `er7` is its largest exponent field, `b` the difference of the biases. -/
def fixup (dr7 er7 b : BitVec 16) (o : Op) (rh5 : BitVec 8) : Option Unpacked :=
  if o.r7 = 0 then fdzun { o with r7 := dr7 } rh5
  else if o.r7 = er7 then some (fdninf o rh5)
  else some { o with r7 := (add o.r7 b).val, rq8 := setLead o.rq8, kind := .num, rh5 := rh5 }

/-- The fields of a single, the fraction below a clear leading bit.  The exchanges of bytes
leave the leading byte in rl3 and the other three at the top of r8 and r9. -/
def singleFields (rr6 : BitVec 32) : Op :=
  let r6 := hiw rr6
  let r7 := low rr6
  let r8 := word (lob r6) (hib r7)
  let r9 := word (lob r7) 0
  let d8 := rl r8
  let d3 := rlc (hib r6) d8.c
  let d2 := rrc (0 : BitVec 8) d3.c
  ⟨d2.val, 0, word 0 d3.val, ⟨(rrc d8.val d2.c).val, r9, 0, 0⟩⟩

/-- Unpack a single. -/
def single (rr6 : BitVec 32) (rh5 : BitVec 8) : Option Unpacked :=
  fixup 0x3F81 0xFF 0x3F80 (singleFields rr6) rh5

/-- Five words and the carry. -/
structure Words5 where
  r7 : BitVec 16
  rq8 : Quad
  c : Bool

/-- Rotate the five words right through the carry. -/
def rrc5 (s : Words5) : Words5 :=
  let d7 := rrc s.r7 s.c
  let q := rrcq s.rq8 d7.c
  ⟨d7.val, q.val, q.c⟩

/-- The fields of a double. -/
def doubleFields (m : Quad) : Op :=
  let s := rrc5^[5] ⟨res m.w0 15, ⟨m.w1, m.w2, m.w3, 0⟩, false⟩
  let d8 := rlc s.rq8.w0 s.c
  let d7 := rlc s.r7 d8.c
  ⟨set 0 7 &&& hib m.w0, 0, d7.val, { s.rq8 with w0 := (rrc d8.val d7.c).val }⟩

/-- Unpack a double. -/
def double (m : Quad) (rh5 : BitVec 8) : Option Unpacked :=
  fixup 0x3C01 0x7FF 0x3C00 (doubleFields m) rh5

/-- The fields of an extended. -/
def extFields (r7 : BitVec 16) (rq8 : Quad) : Op := ⟨0x80 &&& hib r7, 0, res r7 15, rq8⟩

/-- Unpack an extended: sign and exponent in r7, the significand after it. -/
def extended (r7 : BitVec 16) (rq8 : Quad) (rh5 : BitVec 8) : Option Unpacked :=
  let o := extFields r7 rq8
  if o.r7 = 0x7FFF then some (fdninf o rh5)
  else if rq8.w0.getLsbD 15 then some { o with kind := .num, rh5 := rh5 }
  else if o.r7 = 0 then fdzun o rh5
  else fdzun o (set rh5 5)

/-! ## 2. Delivery -/

/-- A result as it is stored. -/
inductive Packed where
  | single (rr6 : BitVec 32)
  | double (m : Quad)
  | extended (r7 : BitVec 16) (rq8 : Quad)
  deriving DecidableEq

/-- Rotate the five words left through the carry. -/
def rlc5 (s : Words5) : Words5 :=
  let q := adcq s.rq8 s.rq8 s.c
  let d7 := rlc s.r7 q.c
  ⟨d7.val, q.val, d7.c⟩

/-- Slide the sign in at the top of r7, `c` being the carry before. -/
def slideSign (c : Bool) (r6 r7 : BitVec 16) : BitVec 16 :=
  let d7 := rlc r7 c
  let d6 := rlc r6 d7.c
  (rrc d7.val d6.c).val

/-- The exponent field on the format's own bias: `dr7` for a zero or a denormal, `ir7` for an
infinity or a NaN. -/
def expField (dr7 ir7 bias : BitVec 16) (r7 r8 : BitVec 16) : BitVec 16 × BitVec 16 × Bool :=
  let a : BitVec 16 × BitVec 16 :=
    if r7 = 0 then (dr7, r8) else if r7 = 0x7FFF then (ir7, set r8 15) else (r7, r8)
  let d := sub a.1 bias
  (if a.2.getLsbD 15 then d.val else (sub d.val 1).val, a.2, d.c)

/-- Pack a single. -/
def dlvry51 (s : Acc) : BitVec 32 :=
  let f := expField 0x3F81 0x407F 0x3F80 s.r7 s.rq8.w0
  let d8 := rlc f.2.1 f.2.2
  let d6 := rlc (word s.rh6 s.rl6) d8.c
  let d7 := rrc (lob f.1) d6.c
  let r6 := (rrc d8.val d7.c).val
  let r7 := word (hib f.1) d7.val ||| s.rq8.w1
  -- the bytes rl7, rh6, rl6, rh7 in this order
  long (word (lob r7) (hib r6)) (word (lob r6) (hib r7))

/-- Pack a double. -/
def dlvry53 (s : Acc) : Quad :=
  let f := expField 0x3C01 0x43FF 0x3C00 s.r7 s.rq8.w0
  let d8 := rlc f.2.1 f.2.2
  let d7 := rrc f.1 d8.c
  let r8 := rrc d8.val d7.c
  let t := rlc5^[5] ⟨d7.val, { s.rq8 with w0 := r8.val }, r8.c⟩
  ⟨slideSign t.c (word s.rh6 s.rl6) t.r7, t.rq8.w0, t.rq8.w1, t.rq8.w2⟩

/-- Pack an extended, normalising it unless its exponent is one of the reserved ones; `c` is
the carry the tests have left. -/
def dlvry54 (c : Bool) (s : Acc) : Option Packed :=
  (if s.r7 = 0 then some s else if s.r7 = 0x7FFF then some s else normordigs s).map fun t =>
    .extended (slideSign c (word t.rh6 t.rl6) t.r7) t.rq8

/-- Deliver a result to the format. -/
def delivery (e : Env) (c : Bool) (s : Acc) : Option Packed :=
  if e.rh4.getLsbD 2 then dlvry54 c s
  else if e.rh4.getLsbD 1 then some (.double (dlvry53 s))
  else some (.single (dlvry51 s))

/-- Load a number: check, round and check. -/
def ldno (e : Env) (s : Acc) : Acc := overRange e (round e (under e s))

/-! ## 3. The fields -/

/-- The sign, exponent field and fraction of a pattern with `w` exponent and `f` fraction
bits. -/
structure Fields (w f P : ℕ) (o : Op) : Prop where
  neg : o.neg = (P / 2 ^ (w + f) % 2 == 1)
  rl6 : o.rl6 = 0
  r7 : o.r7.toNat = P / 2 ^ f % 2 ^ w
  digits : o.digits = P % 2 ^ f * 2 ^ (63 - f)

/-- A sign shifted into the leading bit of a byte. -/
theorem neg_of_sign {v n : ℕ} {b : BitVec 8} (h : b.toNat = 128 * v) (hv : v = n % 2) :
    b.getLsbD 7 = (n % 2 == 1) := by
  rw [Bool.eq_iff_iff, getLsbD_eq_true_iff, beq_iff_eq, h, hv]
  omega

/-- The rotates that take a single apart. -/
theorem single_arith (b3 : ℕ) {b0 b1 b2 v8 c8 v3 c3 v2 c2 w0 k : ℕ} (hb1 : b1 < 256) (hb2 : b2 < 256)
    (h8 : v8 + 2 ^ 16 * c8 = 2 * (b1 * 256 + b2) + (b1 * 256 + b2) / 2 ^ 15) (hv8 : v8 < 2 ^ 16)
    (h3 : v3 + 2 ^ 8 * c3 = 2 * b0 + c8) (hv3 : v3 < 2 ^ 8) (hc2 : c2 ≤ 1)
    (h2 : 2 * v2 + c2 = 0 + 2 ^ 8 * c3) (h0 : 2 * w0 + k = v8 + 2 ^ 16 * c2) (hk : k ≤ 1) :
    v2 = 128 * (b0 / 128) ∧ v3 = b0 % 128 * 2 + b1 / 128 ∧
      ((w0 * 65536 + b3 * 256) * 65536 + 0) * 65536 + 0 =
        ((b1 % 128 * 256 + b2) * 256 + b3) * 2 ^ 40 := by
  have hc8 : c8 = b1 / 128 := by omega
  have hc3 : c3 = b0 / 128 := by omega
  have hw0 : w0 = b1 % 128 * 256 + b2 := by omega
  refine ⟨by omega, by omega, ?_⟩
  rw [hw0]
  omega

/-- The bytes of a long word, the leading one first. -/
theorem bytes_of_long (p : BitVec 32) :
    p.toNat = (((hib (hiw p)).toNat * 256 + (lob (hiw p)).toNat) * 256 +
      (hib (low p)).toNat) * 256 + (lob (low p)).toNat := by
  rw [toNat_hib, toNat_lob, toNat_hib, toNat_lob, toNat_hiw, toNat_low]
  omega

/-- The fields of a pattern given by its bytes. -/
theorem fields_of_bytes {P b0 b1 b2 b3 : ℕ} (hP : P = ((b0 * 256 + b1) * 256 + b2) * 256 + b3)
    (hb0 : b0 < 256) (hb1 : b1 < 256) (hb2 : b2 < 256) (hb3 : b3 < 256) :
    P / 2 ^ (8 + 23) % 2 = b0 / 128 ∧ P / 2 ^ 23 % 2 ^ 8 = b0 % 128 * 2 + b1 / 128 ∧
      P % 2 ^ 23 = (b1 % 128 * 256 + b2) * 256 + b3 := by
  omega

theorem singleFields_spec (p : BitVec 32) : Fields 8 23 p.toNat (singleFields p) := by
  have hP := bytes_of_long p
  have h0 := (hib (hiw p)).isLt
  have h1 := (lob (hiw p)).isLt
  have h2 := (hib (low p)).isLt
  have h3 := (lob (low p)).isLt
  have h8 := rl_spec (word (lob (hiw p)) (hib (low p))) (by norm_num)
  have hr3 := rlc_spec (hib (hiw p)) (rl (word (lob (hiw p)) (hib (low p)))).c
  have hr2 := rrc_spec (0 : BitVec 8)
    (rlc (hib (hiw p)) (rl (word (lob (hiw p)) (hib (low p)))).c).c (by norm_num)
  have hr0 := rrc_spec (rl (word (lob (hiw p)) (hib (low p)))).val
    (rrc (0 : BitVec 8) (rlc (hib (hiw p)) (rl (word (lob (hiw p)) (hib (low p)))).c).c).c
    (by norm_num)
  have hz : (0 : BitVec 8).toNat = 0 := rfl
  rw [toNat_word] at h8
  rw [hz] at hr2
  obtain ⟨hf1, hf2, hf3⟩ := fields_of_bytes hP h0 h1 h2 h3
  obtain ⟨ha1, ha2, ha3⟩ := single_arith (lob (low p)).toNat h1 h2 h8
    (BitVec.isLt _) hr3 (BitVec.isLt _) (Bool.toNat_le _) hr2 hr0 (Bool.toNat_le _)
  refine ⟨?_, rfl, ?_, ?_⟩
  · exact neg_of_sign ha1 hf1.symm
  · rw [hf2, ← ha2]
    have hw : (singleFields p).r7.toNat = (0 : BitVec 8).toNat * 256 +
        (rlc (hib (hiw p)) (rl (word (lob (hiw p)) (hib (low p)))).c).val.toNat := toNat_word _ _
    rw [hw, hz, Nat.zero_mul, Nat.zero_add]
  · rw [hf3, ← ha3, Op.digits, Quad.toNat]
    have hw : (singleFields p).rq8.w1.toNat = (lob (low p)).toNat * 256 + (0 : BitVec 8).toNat :=
      toNat_word _ _
    rw [hw, hz, Nat.add_zero]
    rfl

/-- The five words as one number. -/
def Words5.toNat (s : Words5) : ℕ := s.r7.toNat * 2 ^ 64 + s.rq8.toNat

theorem rrc5_spec (s : Words5) :
    2 * (rrc5 s).toNat + (rrc5 s).c.toNat = s.toNat + 2 ^ 80 * s.c.toNat := by
  have h7 := rrc_spec s.r7 s.c (by norm_num)
  have hq := rrcq_spec s.rq8 (rrc s.r7 s.c).c
  simp only [Words5.toNat, rrc5]
  omega

/-- Rotating right drops the zeros at the end. -/
theorem rrc5_iterate (n : ℕ) {s : Words5} {X : ℕ} (hc : s.c = false) (h : s.toNat = 2 ^ n * X) :
    (rrc5^[n] s).toNat = X ∧ (rrc5^[n] s).c = false := by
  induction n generalizing s with
  | zero => exact ⟨by rw [Function.iterate_zero, id, h, Nat.pow_zero, Nat.one_mul], hc⟩
  | succ n ih =>
    have hs := rrc5_spec s
    rw [hc, Bool.toNat_false, Nat.mul_zero, Nat.add_zero, h, Nat.pow_succ'] at hs
    have hb := Bool.toNat_le (rrc5 s).c
    have hc' : (rrc5 s).c.toNat = 0 := by
      rw [Nat.mul_assoc] at hs
      omega
    rw [hc', Nat.add_zero, Nat.mul_assoc] at hs
    have hX : (rrc5 s).toNat = 2 ^ n * X := Nat.eq_of_mul_eq_mul_left (by norm_num) hs
    rw [Function.iterate_succ_apply]
    exact ih (by simpa using hc') hX

/-- The rotates that take a double apart, once five places have been shifted. -/
theorem double_arith {P r7 w0 rest v8 c8 v7 c7 w0' k : ℕ} (hrest : rest < 2 ^ 48)
    (hX : r7 * 2 ^ 64 + (w0 * 2 ^ 48 + rest) = P % 2 ^ 63 * 2 ^ 11)
    (hw0 : w0 < 2 ^ 16)
    (h8 : v8 + 2 ^ 16 * c8 = 2 * w0 + 0) (hv8 : v8 < 2 ^ 16)
    (h7 : v7 + 2 ^ 16 * c7 = 2 * r7 + c8) (hv7 : v7 < 2 ^ 16)
    (h0 : 2 * w0' + k = v8 + 2 ^ 16 * c7) (hk : k ≤ 1) :
    v7 = P / 2 ^ 52 % 2 ^ 11 ∧ w0' * 2 ^ 48 + rest = P % 2 ^ 52 * 2 ^ 11 := by
  have hr7 : r7 < 2 ^ 10 := by omega
  have hc7 : c7 = 0 := by omega
  subst hc7
  have hw : w0 = c8 * 2 ^ 15 + w0' := by omega
  subst hw
  omega

theorem Quad.toNat_split (q : Quad) :
    q.toNat = q.w0.toNat * 2 ^ 48 + ((q.w1.toNat * 65536 + q.w2.toNat) * 65536 + q.w3.toNat) := by
  rw [Quad.toNat]
  omega

theorem doubleFields_spec (m : Quad) : Fields 11 52 m.toNat (doubleFields m) := by
  have h0 := m.w0.isLt
  have hsplit := Quad.toNat_split m
  have h1 := m.w1.isLt
  have h2 := m.w2.isLt
  have h3 := m.w3.isLt
  have hstart : (⟨res m.w0 15, ⟨m.w1, m.w2, m.w3, 0⟩, false⟩ : Words5).toNat =
      2 ^ 5 * (m.toNat % 2 ^ 63 * 2 ^ 11) := by
    have hz : (0 : BitVec 16).toNat = 0 := rfl
    have hres := toNat_res_top m.w0
    rw [hsplit]
    simp only [Words5.toNat, Quad.toNat, hres, hz]
    omega
  obtain ⟨hX, hc⟩ := rrc5_iterate 5 rfl hstart
  obtain ⟨s, hs⟩ : ∃ s, s = rrc5^[5] ⟨res m.w0 15, ⟨m.w1, m.w2, m.w3, 0⟩, false⟩ := ⟨_, rfl⟩
  rw [← hs] at hX hc
  have hd : doubleFields m = ⟨set 0 7 &&& hib m.w0, 0, (rlc s.r7 (rlc s.rq8.w0 false).c).val,
      { s.rq8 with w0 := (rrc (rlc s.rq8.w0 false).val
        (rlc s.r7 (rlc s.rq8.w0 false).c).c).val }⟩ := by
    rw [doubleFields, ← hs, hc]
  have hs1 := s.rq8.w1.isLt
  have hs2 := s.rq8.w2.isLt
  have hs3 := s.rq8.w3.isLt
  have h8 := rlc_spec s.rq8.w0 false
  have h7 := rlc_spec s.r7 (rlc s.rq8.w0 false).c
  have hr := rrc_spec (rlc s.rq8.w0 false).val (rlc s.r7 (rlc s.rq8.w0 false).c).c (by norm_num)
  rw [Words5.toNat, Quad.toNat_split] at hX
  rw [Bool.toNat_false] at h8
  obtain ⟨ha1, ha2⟩ := double_arith (by omega) hX (BitVec.isLt _) h8 (BitVec.isLt _) h7
    (BitVec.isLt _) hr (Bool.toNat_le _)
  rw [hd]
  refine ⟨?_, rfl, ha1, ?_⟩
  · have hmask : (set (0 : BitVec 8) 7).toNat = (2 ^ 1 - 1) * 2 ^ 7 := rfl
    have hfield := toNat_and_field (set 0 7) (hib m.w0) 7 1 hmask
    rw [toNat_hib] at hfield
    refine neg_of_sign (v := m.w0.toNat / 256 / 2 ^ 7 % 2 ^ 1) ?_ ?_
    · rw [hfield, Nat.mul_comm]
      rfl
    · rw [hsplit]
      omega
  · rw [← ha2, Op.digits, Quad.toNat_split]

theorem extFields_neg (r7 : BitVec 16) (rq8 : Quad) :
    (extFields r7 rq8).neg = r7.getLsbD 15 := by
  have hfield := toNat_and_field 0x80 (hib r7) 7 1 rfl
  have h := r7.isLt
  rw [toNat_hib] at hfield
  rw [Op.neg, extFields, Bool.eq_iff_iff, getLsbD_eq_true_iff, getLsbD_eq_true_iff, hfield]
  omega

/-! ## 4. What a pattern denotes -/

/-- A signed number, an infinity, or no number at all. -/
inductive Datum where
  | finite (neg : Bool) (mag : ℚ)
  | inf (neg : Bool)
  | nan

/-- The datum of an interchange pattern with `w` exponent and `f` fraction bits. -/
def interchange (w f P : ℕ) : Datum :=
  let neg := P / 2 ^ (w + f) % 2 == 1
  let E : ℕ := P / 2 ^ f % 2 ^ w
  let F : ℕ := P % 2 ^ f
  let b : ℤ := 2 ^ (w - 1) - 1
  if E = 2 ^ w - 1 then (if F = 0 then .inf neg else .nan)
  else if E = 0 then .finite neg (F * 2 ^ (1 - b - f))
  else .finite neg (((2 ^ f + F : ℕ) : ℚ) * 2 ^ ((E : ℤ) - b - f))

/-- The datum of an extended pattern: the leading bit is explicit, and the exponent zero is no
special case. -/
def extDatum (r7 : BitVec 16) (rq8 : Quad) : Datum :=
  let neg := r7.getLsbD 15
  let E : ℕ := r7.toNat % 2 ^ 15
  if E = 0x7FFF then (if rq8.toNat = 0 then .inf neg else .nan)
  else .finite neg (rq8.toNat * 2 ^ ((E : ℤ) - bias - 63))

/-- The datum of an unpacked operand. -/
def Unpacked.datum (u : Unpacked) : Datum :=
  match u.kind with
  | .num => .finite u.neg u.mag
  | .zero => .finite u.neg u.mag
  | .inf => .inf u.neg
  | .qnan => .nan
  | .snan => .nan

/-- An unpacked operand is one of its case: a number is normalised and in the range of the
extended format, a zero has the exponent zero, an infinity the largest exponent and no
digits. -/
structure Unpacked.WellFormed (u : Unpacked) : Prop where
  num : u.kind = .num → u.Normal ∧ u.InFormat
  zero : u.kind = .zero → u.digits = 0 ∧ u.expBits = 0
  inf : u.kind = .inf → u.digits = 0 ∧ u.expBits = 0x7FFF

/-! ## 5. Unpacking, case by case -/

theorem hi_ne_zero_or {q : Quad} : (q.hi ≠ 0 ∨ q.lo ≠ 0) ↔ q.toNat ≠ 0 := by
  have h := Quad.toNat_eq q
  have hz : (0 : BitVec 32).toNat = 0 := rfl
  rw [Ne, Ne, ← BitVec.toNat_inj, ← BitVec.toNat_inj, hz]
  omega

/-- The normalising loop shifts by some number of places and takes it off the exponent. -/
theorem setup101_spec (fuel : ℕ) (o : Op) (h0 : o.digits < 2 ^ 63)
    (h : 2 ^ 63 ≤ o.digits * 2 ^ fuel) :
    ∃ n o', setup101 fuel o = some o' ∧ 1 ≤ n ∧ o'.digits = o.digits * 2 ^ n ∧ o'.Normal ∧
      o'.rh6 = o.rh6 ∧ o'.rl6 = o.rl6 ∧ (o'.r7.toNat + n) % 2 ^ 16 = o.r7.toNat := by
  induction fuel generalizing o with
  | zero => omega
  | succ fuel ih =>
    obtain ⟨o1, ho1⟩ : ∃ o1 : Op, o1 =
      { o with r7 := (sub o.r7 1).val, rq8 := (addlq o.rq8 o.rq8).val } := ⟨_, rfl⟩
    have hd : o1.digits = o.digits * 2 := by
      have hadd := addlq_spec o.rq8 o.rq8
      have hlt := (addlq o.rq8 o.rq8).val.toNat_lt
      have hc := Bool.toNat_le (addlq o.rq8 o.rq8).c
      rw [ho1]
      simp only [Op.digits] at h0 ⊢
      omega
    have h7 : (o1.r7.toNat + 1) % 2 ^ 16 = o.r7.toNat := by
      have hsub := sub_spec o.r7 1
      have h1 : (1 : BitVec 16).toNat = 1 := rfl
      have hlt := (sub o.r7 1).val.isLt
      have hlt' := o.r7.isLt
      rw [ho1]
      simp only
      omega
    have h6 : o1.rh6 = o.rh6 := by rw [ho1]
    have hl6 : o1.rl6 = o.rl6 := by rw [ho1]
    rw [setup101, ← ho1]
    by_cases hn : o1.rq8.w0.getLsbD 15 = true
    · have hnorm : o1.Normal := (Quad.getLsbD_w0_iff _).mp hn
      exact ⟨1, o1, if_pos hn, le_rfl, by rw [hd, Nat.pow_one], hnorm, h6, hl6, h7⟩
    · have hlt : o1.digits < 2 ^ 63 := not_le.mp fun h' => hn ((Quad.getLsbD_w0_iff _).mpr h')
      have hfuel : 2 ^ 63 ≤ o1.digits * 2 ^ fuel := by
        rw [hd, Nat.mul_assoc, ← Nat.pow_succ']
        exact h
      obtain ⟨n, o', ho', hn1, hd', hn', h6', hl6', h7'⟩ := ih o1 hlt hfuel
      refine ⟨n + 1, o', ?_, by omega, ?_, hn', h6'.trans h6, hl6'.trans hl6, ?_⟩
      · rw [if_neg hn]
        exact ho'
      · rw [hd', hd, Nat.pow_succ']
        ring
      · rw [← h7, ← h7']
        omega

/-- What normalising a denormal leaves. -/
structure Normalises (o : Op) (rh5 : BitVec 8) (n : ℕ) (u : Unpacked) : Prop where
  kind : u.kind = .num
  pos : 1 ≤ n
  digits : u.digits = o.digits * 2 ^ n
  normal : u.Normal
  rh6 : u.rh6 = o.rh6
  r7 : (u.r7.toNat + n) % 2 ^ 16 = o.r7.toNat
  rl6 : u.rl6 = if 2 ^ 15 ≤ u.r7.toNat then 0xFF else o.rl6
  rh5 : u.rh5 = set rh5 5

theorem Normalises.le {o : Op} {rh5 : BitVec 8} {n : ℕ} {u : Unpacked} (h : Normalises o rh5 n u)
    (h0 : 0 < o.digits) : n ≤ 63 := by
  by_contra hn
  have hlt := u.digits_lt
  have hpow : 2 ^ 64 ≤ 2 ^ n := Nat.pow_le_pow_right (by norm_num) (by omega)
  have hmul := Nat.mul_le_mul h0 hpow
  rw [h.digits] at hlt
  omega

/-- Zero or not, an unnormalised operand is sorted. -/
theorem fdzun_spec (o : Op) (rh5 : BitVec 8) (h0 : o.digits < 2 ^ 63) :
    (o.digits = 0 ∧ fdzun o rh5 = some { o with r7 := 0, kind := .zero, rh5 := rh5 }) ∨
      (0 < o.digits ∧ ∃ n u, fdzun o rh5 = some u ∧ Normalises o rh5 n u) := by
  by_cases hz : o.digits = 0
  · have hq : ¬ (o.rq8.hi ≠ 0 ∨ o.rq8.lo ≠ 0) := fun h => hi_ne_zero_or.mp h hz
    rw [not_or] at hq
    left
    exact ⟨hz, by rw [fdzun, if_neg hq.1, if_neg hq.2]⟩
  · have hq : o.rq8.hi ≠ 0 ∨ o.rq8.lo ≠ 0 := hi_ne_zero_or.mpr hz
    have hun : fdzun o rh5 = fdun o rh5 := by
      rw [fdzun]
      rcases hq with h | h
      · rw [if_pos h]
      · rw [if_pos h, ite_self]
    have hpos : 0 < o.digits := Nat.pos_of_ne_zero hz
    obtain ⟨n, o', ho', hn1, hd', hn', h6', hl6', h7'⟩ :=
      setup101_spec 64 o h0 (by omega)
    right
    refine ⟨hpos, n, { o' with
      rl6 := if o'.r7.getLsbD 15 then 0xFF else o'.rl6, kind := .num, rh5 := set rh5 5 }, ?_, ?_⟩
    · rw [hun, fdun, ho']
      rfl
    · refine ⟨rfl, hn1, hd', hn', h6', h7', ?_, rfl⟩
      have hbit : o'.r7.getLsbD 15 = true ↔ 2 ^ 15 ≤ o'.r7.toNat := by
        have := o'.r7.isLt
        rw [getLsbD_eq_true_iff]
        omega
      simp only [hbit, hl6']

/-- NaN or infinity. -/
theorem fdninf_spec (o : Op) (rh5 : BitVec 8) :
    (o.digits = 0 ∧ (fdninf o rh5).kind = .inf) ∨
      (o.digits ≠ 0 ∧ ((fdninf o rh5).kind = .qnan ∨ (fdninf o rh5).kind = .snan)) := by
  by_cases hz : o.digits = 0
  · have hq : ¬ (o.rq8.hi ≠ 0 ∨ o.rq8.lo ≠ 0) := fun h => hi_ne_zero_or.mp h hz
    rw [not_or] at hq
    left
    exact ⟨hz, by rw [fdninf, if_neg hq.1, if_neg hq.2]⟩
  · have hq : o.rq8.hi ≠ 0 ∨ o.rq8.lo ≠ 0 := hi_ne_zero_or.mpr hz
    right
    refine ⟨hz, ?_⟩
    rw [fdninf]
    rcases hq with h | h
    · rw [if_pos h]
      cases o.rq8.w0.getLsbD 14
      · exact Or.inr rfl
      · exact Or.inl rfl
    · rw [if_pos h, ite_self]
      cases o.rq8.w0.getLsbD 14
      · exact Or.inr rfl
      · exact Or.inl rfl

/-- The interchange formats: `w` exponent and `f` fraction bits, the bias `b` below the common
one. -/
structure IsFormat (w f : ℕ) (b : BitVec 16) : Prop where
  w_pos : 2 ≤ w
  w_le : w ≤ 11
  f_pos : 0 < f
  f_le : f ≤ 52
  bias : b.toNat + 2 ^ (w - 1) = 2 ^ 14

theorem isFormat_single : IsFormat 8 23 0x3F80 := by constructor <;> decide

theorem isFormat_double : IsFormat 11 52 0x3C00 := by constructor <;> decide

/-- How the exponent field `E` and the fraction `F` of an interchange pattern are unpacked. -/
inductive Spread (w f : ℕ) (b : BitVec 16) (E F : ℕ) (u : Unpacked) : Prop where
  | normal (hE : 1 ≤ E) (hE' : E < 2 ^ w - 1) (kind : u.kind = .num) (rl6 : u.rl6 = 0)
      (r7 : u.r7.toNat = E + b.toNat) (digits : u.digits = 2 ^ 63 + F * 2 ^ (63 - f))
  | denormal (n : ℕ) (hE : E = 0) (hF : F ≠ 0) (hn : 1 ≤ n) (hn' : n ≤ 63) (kind : u.kind = .num)
      (rl6 : u.rl6 = 0) (r7 : u.r7.toNat + n = b.toNat + 1)
      (digits : u.digits = F * 2 ^ (63 - f) * 2 ^ n) (nrm : u.Normal)
  | zero (hE : E = 0) (hF : F = 0) (kind : u.kind = .zero) (rl6 : u.rl6 = 0)
      (r7 : u.r7.toNat = 0) (digits : u.digits = 0)
  | inf (hE : E = 2 ^ w - 1) (hF : F = 0) (kind : u.kind = .inf) (rl6 : u.rl6 = 0)
      (r7 : u.r7.toNat = 0x7FFF) (digits : u.digits = 0)
  | nan (hE : E = 2 ^ w - 1) (hF : F ≠ 0) (kind : u.kind = .qnan ∨ u.kind = .snan)

theorem IsFormat.width {w f : ℕ} {b : BitVec 16} (h : IsFormat w f b) :
    4 ≤ 2 ^ w ∧ 2 ^ w ≤ 2 ^ 11 ∧ 2 ^ w = 2 * 2 ^ (w - 1) := by
  refine ⟨?_, Nat.pow_le_pow_right (by norm_num) h.w_le, ?_⟩
  · exact Nat.pow_le_pow_right (n := 2) (by norm_num) h.w_pos
  · have := h.w_pos
    rw [← Nat.pow_succ']
    congr 1
    omega

theorem IsFormat.bias_bounds {w f : ℕ} {b : BitVec 16} (h : IsFormat w f b) :
    b.toNat < 2 ^ 14 ∧ 2 ^ 13 ≤ b.toNat := by
  have hb := h.bias
  have hw := h.w_le
  have hpos := Nat.two_pow_pos (w - 1)
  have hle : 2 ^ (w - 1) ≤ 2 ^ 10 := Nat.pow_le_pow_right (by norm_num) (by omega)
  omega

/-- A fraction at the top of the significand stays below the leading bit. -/
theorem fraction_lt {f F : ℕ} (hf : f ≤ 52) (hF : F < 2 ^ f) : F * 2 ^ (63 - f) < 2 ^ 63 := by
  calc F * 2 ^ (63 - f) < 2 ^ f * 2 ^ (63 - f) :=
        Nat.mul_lt_mul_of_pos_right hF (Nat.two_pow_pos _)
    _ = 2 ^ 63 := by rw [← Nat.pow_add]; congr 1; omega

theorem setLead_toNat {q : Quad} (h : q.toNat < 2 ^ 63) : (setLead q).toNat = 2 ^ 63 + q.toNat := by
  have hw := toNat_set_top q.w0
  have h1 := q.w1.isLt
  have h2 := q.w2.isLt
  have h3 := q.w3.isLt
  simp only [setLead, Quad.toNat, hw] at h ⊢
  omega

/-- **Unpacking an interchange pattern** from its fields. -/
theorem fixup_spec {w f : ℕ} {b : BitVec 16} (hfmt : IsFormat w f b) (dr7 er7 : BitVec 16)
    (hd : dr7.toNat = b.toNat + 1) (he : er7.toNat = 2 ^ w - 1) {P : ℕ} {o : Op}
    (h : Fields w f P o) (rh5 : BitVec 8) :
    ∃ u, fixup dr7 er7 b o rh5 = some u ∧ u.neg = (P / 2 ^ (w + f) % 2 == 1) ∧
      u.rh5.getLsbD 4 = rh5.getLsbD 4 ∧ Spread w f b (P / 2 ^ f % 2 ^ w) (P % 2 ^ f) u := by
  obtain ⟨hw4, hw11, -⟩ := hfmt.width
  obtain ⟨hb, hb'⟩ := hfmt.bias_bounds
  have hElt := Nat.mod_lt (P / 2 ^ f) (Nat.two_pow_pos w)
  have hFlt := Nat.mod_lt P (Nat.two_pow_pos f)
  have hdig := fraction_lt hfmt.f_le hFlt
  have hneg := h.neg
  have h7 := h.r7
  have hdg := h.digits
  generalize P / 2 ^ f % 2 ^ w = E at *
  generalize P % 2 ^ f = F at *
  have hpow : 0 < 2 ^ (63 - f) := Nat.two_pow_pos _
  rw [← hdg] at hdig
  by_cases hE : E = 0
  · have hz : o.r7 = 0 := eq_zero_of_toNat (h7.trans hE)
    rw [fixup, if_pos hz]
    rcases fdzun_spec { o with r7 := dr7 } rh5 hdig with ⟨h0, hu⟩ | ⟨h0, n, u, hu, hN⟩
    · have hF : F = 0 := by
        have h0' : F * 2 ^ (63 - f) = 0 := hdg.symm.trans h0
        exact (Nat.mul_eq_zero.mp h0').resolve_right hpow.ne'
      exact ⟨_, hu, hneg, rfl, .zero hE hF rfl h.rl6 rfl h0⟩
    · have hF : F ≠ 0 := by
        rintro rfl
        rw [Nat.zero_mul] at hdg
        exact h0.ne' hdg
      have hn63 := hN.le h0
      have hn1 := hN.pos
      have hr7 : u.r7.toNat + n = b.toNat + 1 := by
        have := hN.r7
        have hlt := u.r7.isLt
        have hd' : ({ o with r7 := dr7 } : Op).r7.toNat = b.toNat + 1 := hd
        rw [hd'] at this
        omega
      refine ⟨u, hu, ?_, ?_, .denormal n hE hF hn1 hn63 hN.kind ?_ hr7 ?_ hN.normal⟩
      · rw [← hneg, Op.neg, Op.neg, hN.rh6]
      · rw [hN.rh5, getLsbD_set _ _ _ (by norm_num)]
        exact Bool.or_false _
      · rw [hN.rl6, if_neg (by omega)]
        exact h.rl6
      · rw [hN.digits, ← hdg]
        rfl
  · have hz : ¬ o.r7 = 0 := fun h' => hE (h7.symm.trans (congrArg BitVec.toNat h'))
    rw [fixup, if_neg hz]
    by_cases hm : E = 2 ^ w - 1
    · have he' : o.r7 = er7 := BitVec.eq_of_toNat_eq (by rw [h7, he, hm])
      rw [if_pos he']
      refine ⟨_, rfl, hneg, rfl, ?_⟩
      rcases fdninf_spec o rh5 with ⟨h0, hk⟩ | ⟨h0, hk⟩
      · have h0' : F * 2 ^ (63 - f) = 0 := hdg.symm.trans h0
        exact .inf hm ((Nat.mul_eq_zero.mp h0').resolve_right hpow.ne') hk h.rl6 rfl h0
      · refine .nan hm ?_ hk
        rintro rfl
        rw [Nat.zero_mul] at hdg
        exact h0 hdg
    · have he' : ¬ o.r7 = er7 := fun h' => hm (by rw [← h7, h', he])
      rw [if_neg he']
      refine ⟨_, rfl, hneg, rfl, .normal (by omega) (by omega) rfl h.rl6 ?_ ?_⟩
      · have hadd := add_spec o.r7 b
        have hlt := (add o.r7 b).val.isLt
        have hc := Bool.toNat_le (add o.r7 b).c
        rw [h7] at hadd
        change (add o.r7 b).val.toNat = E + b.toNat
        omega
      · change (setLead o.rq8).toNat = _
        rw [setLead_toNat hdig, ← hdg]
        rfl

/-- The magnitude of a significand given as a fraction at its top. -/
theorem fraction_mag {f n : ℕ} (hf : f ≤ 52) (G : ℕ) {E e : ℤ} (he : E + n = e) :
    ((G * 2 ^ (63 - f) * 2 ^ n : ℕ) : ℚ) * 2 ^ (E - bias - 63) = G * 2 ^ (e - bias - f) := by
  have hz : (2 : ℚ) ^ (e - bias - f) =
      2 ^ ((63 - f : ℕ) : ℤ) * 2 ^ (n : ℤ) * 2 ^ (E - bias - 63) := by
    rw [← zpow_add₀ (by norm_num), ← zpow_add₀ (by norm_num)]
    congr 1
    have : ((63 - f : ℕ) : ℤ) = 63 - f := by omega
    rw [this]
    linarith
  rw [hz, zpow_natCast, zpow_natCast]
  push_cast
  ring

/-- **Unpacking yields exactly what the pattern denotes**, and an operand of its case. -/
theorem Spread.datum {w f : ℕ} {b : BitVec 16} {P : ℕ} {u : Unpacked} (hfmt : IsFormat w f b)
    (hneg : u.neg = (P / 2 ^ (w + f) % 2 == 1))
    (h : Spread w f b (P / 2 ^ f % 2 ^ w) (P % 2 ^ f) u) :
    u.datum = interchange w f P ∧ u.WellFormed := by
  obtain ⟨hb, hb'⟩ := hfmt.bias_bounds
  obtain ⟨hw4, hw11, -⟩ := hfmt.width
  have hbias : (b.toNat : ℤ) - bias = -(2 ^ (w - 1) - 1) := by
    have := hfmt.bias
    rw [bias]
    have hz : (b.toNat : ℤ) + 2 ^ (w - 1) = 2 ^ 14 := by exact_mod_cast this
    norm_num at hz ⊢
    linarith
  have hexp : u.rl6 = 0 → u.r7.toNat < 2 ^ 15 → u.expo = u.r7.toNat := by
    intro h6 h7
    have hbits : u.expBits = u.r7.toNat := by
      rw [Op.expBits, h6]
      exact Nat.zero_add _
    rw [← hbits]
    exact Op.expo_of_expBits rfl (by omega)
  rw [interchange]
  generalize P / 2 ^ f % 2 ^ w = E at *
  generalize P % 2 ^ f = F at *
  generalize (P / 2 ^ (w + f) % 2 == 1) = neg at *
  cases h with
  | normal hE hE' kind rl6 r7 digits =>
    have he := hexp rl6 (by omega)
    have hnum : u.datum = .finite u.neg u.mag := by rw [Unpacked.datum, kind]
    constructor
    · rw [hnum, if_neg (by omega), if_neg (by omega), hneg, Op.mag, he, digits]
      congr 1
      have hG : 2 ^ 63 + F * 2 ^ (63 - f) = (2 ^ f + F) * 2 ^ (63 - f) * 2 ^ 0 := by
        have hp : 2 ^ f * 2 ^ (63 - f) = 2 ^ 63 := by
          have := hfmt.f_le
          rw [← Nat.pow_add]
          congr 1
          omega
        rw [Nat.pow_zero, Nat.mul_one, Nat.add_mul, hp]
      rw [hG, fraction_mag hfmt.f_le (2 ^ f + F) (e := u.r7.toNat) (by simp)]
      congr 2
      rw [r7]
      push_cast
      linarith
    · refine ⟨fun _ => ⟨?_, ?_⟩, fun hk => ?_, fun hk => ?_⟩
      · rw [Op.Normal, digits]
        exact Nat.le_add_right _ _
      · rw [Op.InFormat, he, r7]
        constructor <;> push_cast <;> omega
      · rw [kind] at hk
        cases hk
      · rw [kind] at hk
        cases hk
  | denormal n hE hF hn hn' kind rl6 r7 digits nrm =>
    have he := hexp rl6 (by omega)
    have hnum : u.datum = .finite u.neg u.mag := by rw [Unpacked.datum, kind]
    constructor
    · rw [hnum, if_neg (by omega), if_pos hE, hneg, Op.mag, he, digits,
        fraction_mag hfmt.f_le F (e := b.toNat + 1) (by exact_mod_cast r7)]
      congr 3
      linarith
    · refine ⟨fun _ => ⟨nrm, ?_⟩, fun hk => ?_, fun hk => ?_⟩
      · rw [Op.InFormat, he]
        constructor <;> omega
      · rw [kind] at hk
        cases hk
      · rw [kind] at hk
        cases hk
  | zero hE hF kind rl6 r7 digits =>
    have he := hexp rl6 (by omega)
    have hnum : u.datum = .finite u.neg u.mag := by rw [Unpacked.datum, kind]
    constructor
    · rw [hnum, if_neg (by omega), if_pos hE, hneg, Op.mag, digits, hF]
      simp
    · refine ⟨fun hk => ?_, fun _ => ⟨digits, ?_⟩, fun hk => ?_⟩
      · rw [kind] at hk
        cases hk
      · rw [Op.expBits, rl6, r7]
        rfl
      · rw [kind] at hk
        cases hk
  | inf hE hF kind rl6 r7 digits =>
    have hnum : u.datum = .inf u.neg := by rw [Unpacked.datum, kind]
    constructor
    · rw [hnum, if_pos hE, if_pos hF, hneg]
    · refine ⟨fun hk => ?_, fun hk => ?_, fun _ => ⟨digits, ?_⟩⟩
      · rw [kind] at hk
        cases hk
      · rw [kind] at hk
        cases hk
      · rw [Op.expBits, rl6, r7]
        rfl
  | nan hE hF kind =>
    constructor
    · rw [if_pos hE, if_neg hF, Unpacked.datum]
      rcases kind with hk | hk <;> rw [hk]
    · refine ⟨fun hk => ?_, fun hk => ?_, fun hk => ?_⟩ <;>
        rcases kind with hk' | hk' <;> rw [hk'] at hk <;> cases hk

/-! ## 6. Delivering the fields -/

/-- An operand that is delivered as the exponent field `E` and the fraction `F`. -/
structure Stored (w f : ℕ) (b : BitVec 16) (E F : ℕ) (s : Acc) : Prop where
  fraction : s.digits % 2 ^ 63 = F * 2 ^ (63 - f)
  field : 1 ≤ E ∧ E < 2 ^ w - 1 ∧ s.r7.toNat = E + b.toNat ∧ 2 ^ 63 ≤ s.digits ∨
    E = 0 ∧ s.digits < 2 ^ 63 ∧ (s.r7.toNat = b.toNat + 1 ∨ s.r7.toNat = 0) ∨
    E = 2 ^ w - 1 ∧ s.r7.toNat = 0x7FFF

/-- The field that delivery computes; the word it hands on has the same fraction bits. -/
theorem expField_spec {w f : ℕ} {b : BitVec 16} (hfmt : IsFormat w f b) (dr7 ir7 : BitVec 16)
    (hd : dr7.toNat = b.toNat + 1) (hi : ir7.toNat = 2 ^ w - 1 + b.toNat) {E F : ℕ} {s : Acc}
    (h : Stored w f b E F s) :
    (expField dr7 ir7 b s.r7 s.rq8.w0).1.toNat = E ∧
      (expField dr7 ir7 b s.r7 s.rq8.w0).2.1.toNat % 2 ^ 15 = s.rq8.w0.toNat % 2 ^ 15 := by
  obtain ⟨hb, hb'⟩ := hfmt.bias_bounds
  obtain ⟨hw4, hw11, -⟩ := hfmt.width
  have hlead : s.rq8.w0.getLsbD 15 = true ↔ 2 ^ 63 ≤ s.digits := Quad.getLsbD_w0_iff _
  have h1 : (1 : BitVec 16).toNat = 1 := rfl
  -- the subtractions below do not wrap
  have hsub : ∀ {x y : BitVec 16}, y.toNat ≤ x.toNat →
      (sub x y).val.toNat = x.toNat - y.toNat := by
    intro x y hle
    have hs := sub_spec x y
    have hv := (sub x y).val.isLt
    have hx := x.isLt
    have hc := Bool.toNat_le (sub x y).c
    omega
  rcases h.field with ⟨hE, hE', h7, hn⟩ | ⟨rfl, hn, h7⟩ | ⟨rfl, h7⟩
  · have hz : ¬ s.r7 = 0 := fun h' => by
      have : s.r7.toNat = 0 := congrArg BitVec.toNat h'
      omega
    have hm : ¬ s.r7 = 0x7FFF := fun h' => by
      have : s.r7.toNat = 0x7FFF := congrArg BitVec.toNat h'
      omega
    simp only [expField, if_neg hz, if_neg hm, hlead.mpr hn, if_true]
    exact ⟨by rw [hsub (by omega)]; omega, trivial⟩
  · have hcl : ¬ s.rq8.w0.getLsbD 15 = true := fun h' => by
      have := hlead.mp h'
      omega
    have hm : ¬ s.r7 = 0x7FFF := fun h' => by
      have : s.r7.toNat = 0x7FFF := congrArg BitVec.toNat h'
      omega
    obtain ⟨x, hx, hxv⟩ : ∃ x : BitVec 16, (if s.r7 = 0 then (dr7, s.rq8.w0)
        else if s.r7 = 0x7FFF then (ir7, set s.rq8.w0 15) else (s.r7, s.rq8.w0)) =
        (x, s.rq8.w0) ∧ x.toNat = b.toNat + 1 := by
      by_cases hz : s.r7 = 0
      · exact ⟨dr7, if_pos hz, hd⟩
      · refine ⟨s.r7, by rw [if_neg hz, if_neg hm], h7.resolve_right fun h' => ?_⟩
        exact hz (eq_zero_of_toNat h')
    simp only [expField, hx, if_neg hcl]
    have hone : (sub x b).val.toNat = 1 := by
      rw [hsub (by omega), hxv]
      omega
    exact ⟨by rw [hsub (by omega), hone, h1], trivial⟩
  · have hz : ¬ s.r7 = 0 := fun h' => by
      have : s.r7.toNat = 0 := congrArg BitVec.toNat h'
      omega
    have hm : s.r7 = 0x7FFF := BitVec.eq_of_toNat_eq h7
    have hset : (set s.rq8.w0 15).getLsbD 15 = true := by
      rw [getLsbD_set _ _ _ (by norm_num)]
      exact Bool.or_true _
    simp only [expField, if_neg hz, if_pos hm, hset, if_true]
    refine ⟨by rw [hsub (by omega), hi]; omega, ?_⟩
    rw [toNat_set_top, Nat.add_mod_right, Nat.mod_mod]

/-- The sign bit of a word that is rotated left. -/
theorem sign_out (rh6 rl6 : BitVec 8) (c : Bool) :
    (rlc (word rh6 rl6) c).c = rh6.getLsbD 7 := by
  have h := rlc_spec (word rh6 rl6) c
  have hv := (rlc (word rh6 rl6) c).val.isLt
  have hc := Bool.toNat_le c
  have hb := toNat_getLsbD rh6 7
  have h6 := rh6.isLt
  have hl := rl6.isLt
  have ho := Bool.toNat_le (rlc (word rh6 rl6) c).c
  rw [toNat_word] at h
  have he : (rlc (word rh6 rl6) c).c.toNat = (rh6.getLsbD 7).toNat := by omega
  revert he
  cases (rlc (word rh6 rl6) c).c <;> cases rh6.getLsbD 7 <;> simp

theorem add_div_low {x y : ℕ} (hx : x % 256 = 0) (hy : y < 256) : (x + y) / 256 = x / 256 := by
  omega

/-- The rotates that put a single together. -/
theorem dlvry51_arith {fld w0 r8 v8 c8 sg v7 c7 r6 k c b3 E F : ℕ} (hE : E < 2 ^ 8)
    (hfld : fld = E) (hF : w0 % 2 ^ 15 * 256 + b3 = F) (hr8 : r8 % 2 ^ 15 = w0 % 2 ^ 15)
    (h8 : v8 + 2 ^ 16 * c8 = 2 * r8 + c) (hv8 : v8 < 2 ^ 16) (hc : c ≤ 1)
    (h7 : 2 * v7 + c7 = fld % 256 + 2 ^ 8 * sg)
    (h6 : 2 * r6 + k = v8 + 2 ^ 16 * c7) (hk : k ≤ 1) :
    ((v7 * 256 + r6 / 256) * 256 + r6 % 256) * 256 + b3 = sg * 2 ^ 31 + E * 2 ^ 23 + F := by
  have hr6 : r6 = w0 % 2 ^ 15 + 2 ^ 15 * c7 := by omega
  have hv7 : 2 * v7 + c7 = E + 2 ^ 8 * sg := by omega
  have hjoin : (v7 * 256 + r6 / 256) * 256 + r6 % 256 = v7 * 65536 + r6 := by
    have := Nat.div_add_mod r6 256
    linarith
  rw [hjoin, hr6, ← hF]
  linarith

/-- Where the bytes of a single lie in the significand. -/
theorem single_bytes {w0 w1 w2 w3 F : ℕ} (h1 : w1 < 2 ^ 16) (h2 : w2 < 2 ^ 16)
    (h3 : w3 < 2 ^ 16)
    (h : (((w0 * 65536 + w1) * 65536 + w2) * 65536 + w3) % 2 ^ 63 = F * 2 ^ 40) :
    w1 % 256 = 0 ∧ w0 % 2 ^ 15 * 256 + w1 / 256 = F := by
  omega

/-- **Packing a single.** -/
theorem dlvry51_spec {E F : ℕ} {s : Acc} (h : Stored 8 23 0x3F80 E F s) (hE : E < 2 ^ 8) :
    (dlvry51 s).toNat = s.neg.toNat * 2 ^ 31 + E * 2 ^ 23 + F := by
  obtain ⟨hf, h8⟩ := expField_spec isFormat_single 0x3F81 0x407F rfl rfl h
  obtain ⟨hb3, hF⟩ := single_bytes s.rq8.w1.isLt s.rq8.w2.isLt s.rq8.w3.isLt
    h.fraction
  rw [dlvry51]
  generalize expField 0x3F81 0x407F 0x3F80 s.r7 s.rq8.w0 = fd at hf h8 ⊢
  obtain ⟨fld, r8, c⟩ := fd
  simp only at hf h8 ⊢
  have hs := sign_out s.rh6 s.rl6 (rlc r8 c).c
  have hr8 := rlc_spec r8 c
  have hr7 := rrc_spec (lob fld) (rlc (word s.rh6 s.rl6) (rlc r8 c).c).c (by norm_num)
  have hr6 := rrc_spec (rlc r8 c).val
    (rrc (lob fld) (rlc (word s.rh6 s.rl6) (rlc r8 c).c).c).c (by norm_num)
  have hv8 := (rlc r8 c).val.isLt
  rw [toNat_lob, hs] at hr7
  rw [hs] at hr6 ⊢
  have hv7 := (rrc (lob fld) (s.rh6.getLsbD 7)).val.isLt
  have hk := Bool.toNat_le (rrc (rlc r8 c).val (rrc (lob fld) (s.rh6.getLsbD 7)).c).c
  generalize (rrc (lob fld) (s.rh6.getLsbD 7)).val = v7 at *
  generalize (rrc (lob fld) (s.rh6.getLsbD 7)).c = c7 at *
  generalize (rrc (rlc r8 c).val c7).val = r6 at *
  -- the fraction byte is or-ed into an empty one
  have hor : (word (hib fld) v7 ||| s.rq8.w1).toNat = s.rq8.w1.toNat + v7.toNat := by
    have hh : (word (hib fld) v7).toNat = v7.toNat := by
      rw [toNat_word, toNat_hib, hf, Nat.div_eq_of_lt (show E < 256 from hE), Nat.zero_mul, Nat.zero_add]
    rw [BitVec.or_comm, toNat_or_low (i := 8) hb3 (by rw [hh]; exact hv7), hh]
  have harith := dlvry51_arith hE hf hF h8 hr8 hv8 (Bool.toNat_le _) hr7 hr6 hk
  have hlow : (s.rq8.w1.toNat + v7.toNat) % 256 = v7.toNat := by
    rw [Nat.add_mod, hb3, Nat.zero_add, Nat.mod_mod, Nat.mod_eq_of_lt hv7]
  have hhigh : (s.rq8.w1.toNat + v7.toNat) / 256 = s.rq8.w1.toNat / 256 :=
    add_div_low hb3 hv7
  rw [Op.neg, ← harith, toNat_long, toNat_word, toNat_word, toNat_lob, toNat_lob, toNat_hib,
    toNat_hib, hor, hlow, hhigh]
  ring

theorem rlc5_spec (s : Words5) :
    (rlc5 s).toNat + 2 ^ 80 * (rlc5 s).c.toNat = 2 * s.toNat + s.c.toNat := by
  have hq := adcq_spec s.rq8 s.rq8 s.c
  have h7 := rlc_spec s.r7 (adcq s.rq8 s.rq8 s.c).c
  simp only [Words5.toNat, rlc5]
  omega

theorem Words5.toNat_lt (s : Words5) : s.toNat < 2 ^ 80 := by
  have h7 := s.r7.isLt
  have hq := s.rq8.toNat_lt
  rw [toNat]
  omega

/-- Rotating left shifts up to the carries that come round at the end. -/
theorem rlc5_iterate (n : ℕ) (s : Words5) :
    ∃ g k, g < 2 ^ n ∧ (rlc5^[n] s).toNat + 2 ^ 80 * k = 2 ^ n * s.toNat + g := by
  induction n with
  | zero => exact ⟨0, 0, Nat.one_pos, by simp⟩
  | succ n ih =>
    obtain ⟨g, k, hg, hk⟩ := ih
    have hs := rlc5_spec (rlc5^[n] s)
    have hc := Bool.toNat_le (rlc5^[n] s).c
    rw [Function.iterate_succ_apply']
    refine ⟨2 * g + (rlc5^[n] s).c.toNat, 2 * k + (rlc5 (rlc5^[n] s)).c.toNat, ?_, ?_⟩
    · rw [Nat.pow_succ]
      omega
    · have hp : 2 ^ (n + 1) * s.toNat = 2 * (2 ^ n * s.toNat) := by ring
      omega

/-- The sign slid in at the top of a word whose leading bit is clear. -/
theorem slideSign_toNat (c : Bool) (rh6 rl6 : BitVec 8) {r7 : BitVec 16} (h : r7.toNat < 2 ^ 15) :
    (slideSign c (word rh6 rl6) r7).toNat = (rh6.getLsbD 7).toNat * 2 ^ 15 + r7.toNat := by
  have hs := sign_out rh6 rl6 (rlc r7 c).c
  have h7 := rlc_spec r7 c
  have hr := rrc_spec (rlc r7 c).val (rh6.getLsbD 7) (by norm_num)
  have hc := Bool.toNat_le c
  have hk := Bool.toNat_le (rrc (rlc r7 c).val (rh6.getLsbD 7)).c
  have hv := (rlc r7 c).val.isLt
  simp only [slideSign, hs]
  omega

/-- The rotates that bring exponent and fraction of a double together. -/
theorem dlvry53_arith {fld w0 rest r8 v8 c8 v7 c7 r8' k c E F : ℕ} (hfld : fld = E)
    (hE : E < 2 ^ 11) (hF : w0 % 2 ^ 15 * 2 ^ 48 + rest = F * 2 ^ 11)
    (hr8 : r8 % 2 ^ 15 = w0 % 2 ^ 15) (h8 : v8 + 2 ^ 16 * c8 = 2 * r8 + c) (hv8 : v8 < 2 ^ 16)
    (hc : c ≤ 1) (h7 : 2 * v7 + c7 = fld + 2 ^ 16 * c8)
    (h8' : 2 * r8' + k = v8 + 2 ^ 16 * c7) (hk : k ≤ 1) :
    v7 * 2 ^ 64 + (r8' * 2 ^ 48 + rest) = c8 * 2 ^ 79 + E * 2 ^ 63 + F * 2 ^ 11 := by
  have hr : r8' = w0 % 2 ^ 15 + 2 ^ 15 * c7 := by omega
  rw [hr, ← hF]
  subst hfld
  clear hr h8 h8' hr8 hF
  omega

/-- What five places to the left leave. -/
theorem dlvry53_shift {V k g c8 E F : ℕ} (hE : E < 2 ^ 11) (hF : F < 2 ^ 52) (hg : g < 2 ^ 5)
    (hV : V < 2 ^ 80) (h : V + 2 ^ 80 * k = 2 ^ 5 * (c8 * 2 ^ 79 + E * 2 ^ 63 + F * 2 ^ 11) + g) :
    V = (E * 2 ^ 4 + F / 2 ^ 48) * 2 ^ 64 + (F % 2 ^ 48 * 2 ^ 16 + g) := by
  omega

theorem cancel_low {q w r g : ℕ} (h : q * 65536 + w = r * 2 ^ 16 + g) (hw : w < 65536)
    (hg : g < 2 ^ 5) : q = r := by
  omega

theorem dlvry53_join (sg : ℕ) {r7 w0 w1 w2 w3 E F g : ℕ} (hg : g < 2 ^ 5)
    (h0 : w0 < 65536) (h1 : w1 < 65536) (h2 : w2 < 65536) (h3 : w3 < 65536)
    (h : r7 * 2 ^ 64 + (((w0 * 65536 + w1) * 65536 + w2) * 65536 + w3) =
      (E * 2 ^ 4 + F / 2 ^ 48) * 2 ^ 64 + (F % 2 ^ 48 * 2 ^ 16 + g)) :
    r7 = E * 2 ^ 4 + F / 2 ^ 48 ∧
      (((sg * 2 ^ 15 + r7) * 65536 + w0) * 65536 + w1) * 65536 + w2 =
        sg * 2 ^ 63 + E * 2 ^ 52 + F := by
  have h7 : r7 = E * 2 ^ 4 + F / 2 ^ 48 := by omega
  refine ⟨h7, ?_⟩
  rw [h7] at h
  have hcancel := Nat.add_left_cancel h
  have hdm := Nat.div_add_mod F (2 ^ 48)
  have hq : (w0 * 65536 + w1) * 65536 + w2 = F % 2 ^ 48 := cancel_low hcancel h3 hg
  rw [← hq] at hdm
  rw [h7]
  linarith

theorem Words5.toNat_split (s : Words5) : s.toNat = s.r7.toNat * 2 ^ 64 +
    (((s.rq8.w0.toNat * 65536 + s.rq8.w1.toNat) * 65536 + s.rq8.w2.toNat) * 65536 +
      s.rq8.w3.toNat) := by
  rw [Words5.toNat, Quad.toNat]

theorem fraction_split {w0 w1 w2 w3 G : ℕ} (h1 : w1 < 2 ^ 16) (h2 : w2 < 2 ^ 16)
    (h3 : w3 < 2 ^ 16)
    (h : (w0 * 2 ^ 48 + ((w1 * 65536 + w2) * 65536 + w3)) % 2 ^ 63 = G) :
    w0 % 2 ^ 15 * 2 ^ 48 + ((w1 * 65536 + w2) * 65536 + w3) = G := by
  omega

/-- **Packing a double.** -/
theorem dlvry53_spec {E F : ℕ} {s : Acc} (h : Stored 11 52 0x3C00 E F s) (hE : E < 2 ^ 11)
    (hF : F < 2 ^ 52) : (dlvry53 s).toNat = s.neg.toNat * 2 ^ 63 + E * 2 ^ 52 + F := by
  obtain ⟨hf, h8⟩ := expField_spec isFormat_double 0x3C01 0x43FF rfl rfl h
  have hfrac := h.fraction
  rw [Op.digits, Quad.toNat_split] at hfrac
  have h1 := s.rq8.w1.isLt
  have h2 := s.rq8.w2.isLt
  have h3 := s.rq8.w3.isLt
  rw [dlvry53]
  generalize expField 0x3C01 0x43FF 0x3C00 s.r7 s.rq8.w0 = fd at hf h8 ⊢
  obtain ⟨fld, r8, c⟩ := fd
  simp only at hf h8 ⊢
  have hr8 := rlc_spec r8 c
  have hr7 := rrc_spec fld (rlc r8 c).c (by norm_num)
  have hr8' := rrc_spec (rlc r8 c).val (rrc fld (rlc r8 c).c).c (by norm_num)
  have hv8 := (rlc r8 c).val.isLt
  generalize (rlc r8 c).val = v8 at *
  generalize (rlc r8 c).c = c8 at *
  generalize (rrc fld c8).val = v7 at *
  generalize (rrc fld c8).c = c7 at *
  have hk := Bool.toNat_le (rrc v8 c7).c
  generalize (rrc v8 c7).val = x at *
  generalize (rrc v8 c7).c = k at *
  have hstart := dlvry53_arith hf hE (fraction_split h1 h2 h3 hfrac) h8 hr8 hv8
    (Bool.toNat_le _) hr7 hr8' hk
  obtain ⟨g, j, hg, hj⟩ := rlc5_iterate 5 ⟨v7, { s.rq8 with w0 := x }, k⟩
  have hV : (⟨v7, { s.rq8 with w0 := x }, k⟩ : Words5).toNat =
      c8.toNat * 2 ^ 79 + E * 2 ^ 63 + F * 2 ^ 11 := by
    rw [← hstart, Words5.toNat, Quad.toNat_split]
  rw [hV] at hj
  generalize rlc5^[5] ⟨v7, { s.rq8 with w0 := x }, k⟩ = t at *
  have hshift := dlvry53_shift hE hF hg t.toNat_lt hj
  rw [Words5.toNat_split] at hshift
  obtain ⟨ht7, htq⟩ := dlvry53_join s.neg.toNat hg t.rq8.w0.isLt t.rq8.w1.isLt
    t.rq8.w2.isLt t.rq8.w3.isLt hshift
  have ht15 : t.r7.toNat < 2 ^ 15 := by
    rw [ht7]
    omega
  have hslide := slideSign_toNat t.c s.rh6 s.rl6 ht15
  rw [← htq, Quad.toNat, hslide, Op.neg]

/-- **Packing an extended** that is normalised or has a reserved exponent. -/
theorem dlvry54_spec (c : Bool) {s : Acc} (h7 : s.r7.toNat < 2 ^ 15)
    (hn : s.r7 = 0 ∨ s.r7 = 0x7FFF ∨ s.Normal) :
    dlvry54 c s = some (.extended (slideSign c (word s.rh6 s.rl6) s.r7) s.rq8) ∧
      (slideSign c (word s.rh6 s.rl6) s.r7).toNat = s.neg.toNat * 2 ^ 15 + s.r7.toNat := by
  refine ⟨?_, slideSign_toNat c s.rh6 s.rl6 h7⟩
  rw [dlvry54]
  by_cases h0 : s.r7 = 0
  · rw [if_pos h0]
    rfl
  · rw [if_neg h0]
    by_cases hm : s.r7 = 0x7FFF
    · rw [if_pos hm]
      rfl
    · have hnorm : s.Normal := (hn.resolve_left h0).resolve_left hm
      have hbit : s.rq8.w0.getLsbD 15 = true := (Quad.getLsbD_w0_iff _).mpr hnorm
      have hr0 : word (hib s.rq8.w3) (lob s.rq8.w3 ||| s.rl5) ||| s.rq8.w2 ||| s.rq8.w1 |||
          s.rq8.w0 ≠ 0 := by
        intro hz
        have hb := congrArg (fun x : BitVec 16 => x.getLsbD 15) hz
        simp only [BitVec.getLsbD_or, hbit, Bool.or_true] at hb
        exact absurd hb (by decide)
      have hnorm' : normordigs s = some s := by
        rw [normordigs, normdigs, if_neg hr0, normLoop, if_pos hbit]
      rw [if_neg hm, hnorm']
      rfl

/-! ## 7. The extended format -/

/-- How an extended pattern of exponent field `E` and significand `D` is unpacked. -/
inductive ExtSpread (E D : ℕ) (u : Unpacked) : Prop where
  | normal (hE : E < 0x7FFF) (hD : 2 ^ 63 ≤ D) (kind : u.kind = .num) (rl6 : u.rl6 = 0)
      (r7 : u.r7.toNat = E) (digits : u.digits = D)
  | denormal (n : ℕ) (hE : E = 0) (hD : 0 < D) (hD' : D < 2 ^ 63) (hn : 1 ≤ n) (hn' : n ≤ 63)
      (kind : u.kind = .num) (rl6 : u.rl6 = 0xFF) (r7 : u.r7.toNat + n = 2 ^ 16)
      (digits : u.digits = D * 2 ^ n) (nrm : u.Normal)
  | zero (hE : E = 0) (hD : D = 0) (kind : u.kind = .zero) (rl6 : u.rl6 = 0)
      (r7 : u.r7.toNat = 0) (digits : u.digits = 0)
  | inf (hE : E = 0x7FFF) (hD : D = 0) (kind : u.kind = .inf) (rl6 : u.rl6 = 0)
      (r7 : u.r7.toNat = 0x7FFF) (digits : u.digits = 0)

/-- The extended patterns that are a zero, a denormal, a normalised number or an infinity. -/
def IsExt (E D : ℕ) : Prop := E < 0x7FFF ∧ 2 ^ 63 ≤ D ∨ E = 0 ∧ D < 2 ^ 63 ∨ E = 0x7FFF ∧ D = 0

/-- **Unpacking an extended pattern.** -/
theorem extended_spec (r7 : BitVec 16) (rq8 : Quad) (rh5 : BitVec 8)
    (hext : IsExt (r7.toNat % 2 ^ 15) rq8.toNat) :
    ∃ u, extended r7 rq8 rh5 = some u ∧ u.neg = r7.getLsbD 15 ∧
      u.rh5.getLsbD 4 = rh5.getLsbD 4 ∧ ExtSpread (r7.toNat % 2 ^ 15) rq8.toNat u := by
  have hneg := extFields_neg r7 rq8
  have h7 : (extFields r7 rq8).r7.toNat = r7.toNat % 2 ^ 15 := toNat_res_top r7
  have hbit := Quad.getLsbD_w0_iff rq8
  have hset : (set rh5 5).getLsbD 4 = rh5.getLsbD 4 := by
    rw [getLsbD_set _ _ _ (by norm_num)]
    exact Bool.or_false _
  generalize r7.toNat % 2 ^ 15 = E at *
  rw [extended]
  rcases hext with ⟨hE, hD⟩ | ⟨rfl, hD⟩ | ⟨rfl, hD⟩
  · have hm : ¬ (extFields r7 rq8).r7 = 0x7FFF := fun h' => by
      have : (extFields r7 rq8).r7.toNat = 0x7FFF := congrArg BitVec.toNat h'
      omega
    simp only [if_neg hm, if_pos (hbit.mpr hD)]
    exact ⟨_, rfl, hneg, rfl, .normal hE hD rfl rfl h7 rfl⟩
  · have hz : (extFields r7 rq8).r7 = 0 := eq_zero_of_toNat h7
    have hm : ¬ (extFields r7 rq8).r7 = 0x7FFF := by
      rw [hz]
      decide
    have hb : ¬ rq8.w0.getLsbD 15 = true := fun h' => by
      have := hbit.mp h'
      omega
    simp only [if_neg hm, if_neg hb, if_pos hz]
    rcases fdzun_spec (extFields r7 rq8) rh5 hD with ⟨h0, hu⟩ | ⟨h0, n, u, hu, hN⟩
    · exact ⟨_, hu, hneg, rfl, .zero rfl h0 rfl rfl rfl h0⟩
    · have hn63 := hN.le h0
      have hn1 := hN.pos
      have hr7 : u.r7.toNat + n = 2 ^ 16 := by
        have := hN.r7
        have hlt := u.r7.isLt
        rw [h7] at this
        omega
      refine ⟨u, hu, ?_, ?_, .denormal n rfl h0 hD hn1 hn63 hN.kind ?_ hr7 hN.digits hN.normal⟩
      · rw [← hneg, Op.neg, Op.neg, hN.rh6]
      · rw [hN.rh5, hset]
      · rw [hN.rl6, if_pos (by omega)]
  · have hm : (extFields r7 rq8).r7 = 0x7FFF := BitVec.eq_of_toNat_eq h7
    simp only [if_pos hm]
    refine ⟨_, rfl, hneg, rfl, ?_⟩
    rcases fdninf_spec (extFields r7 rq8) rh5 with ⟨h0, hk⟩ | ⟨h0, hk⟩
    · exact .inf rfl hD hk rfl rfl h0
    · exact absurd hD h0

/-- **Unpacking yields exactly what an extended pattern denotes.** -/
theorem ExtSpread.datum {r7 : BitVec 16} {rq8 : Quad} {u : Unpacked}
    (hneg : u.neg = r7.getLsbD 15) (h : ExtSpread (r7.toNat % 2 ^ 15) rq8.toNat u) :
    u.datum = extDatum r7 rq8 ∧ u.WellFormed := by
  have hlt := Nat.mod_lt r7.toNat (Nat.two_pow_pos 15)
  rw [extDatum]
  generalize r7.toNat % 2 ^ 15 = E at *
  generalize rq8.toNat = D at *
  generalize r7.getLsbD 15 = neg at *
  cases h with
  | normal hE hD kind rl6 h7 digits =>
    have hbits : u.expBits = E := by
      rw [Op.expBits, rl6, h7]
      exact Nat.zero_add _
    have he : u.expo = E := Op.expo_of_expBits hbits (by omega)
    constructor
    · rw [Unpacked.datum, kind, if_neg (by omega), hneg, Op.mag, digits, he]
    · refine ⟨fun _ => ⟨?_, ?_⟩, fun hk => ?_, fun hk => ?_⟩
      · rw [Op.Normal, digits]
        exact hD
      · rw [Op.InFormat, he]
        constructor <;> omega
      · rw [kind] at hk
        cases hk
      · rw [kind] at hk
        cases hk
  | denormal n hE hD hD' hn hn' kind rl6 h7 digits nrm =>
    have he : u.expo = -n := by
      have hbits : u.expBits = 0xFF * 65536 + u.r7.toNat := by
        rw [Op.expBits, rl6]
        rfl
      rw [Op.expo, if_neg (by omega), hbits]
      push_cast
      omega
    constructor
    · have hz : (2 : ℚ) ^ (((0 : ℕ) : ℤ) - bias - 63) = 2 ^ n * 2 ^ (-(n : ℤ) - bias - 63) := by
        rw [← zpow_natCast, ← zpow_add₀ (by norm_num)]
        congr 1
        push_cast
        ring
      have hmag : ((D * 2 ^ n : ℕ) : ℚ) * 2 ^ (-(n : ℤ) - bias - 63) =
          D * 2 ^ (((0 : ℕ) : ℤ) - bias - 63) := by
        rw [hz]
        push_cast
        ring
      rw [Unpacked.datum, kind, if_neg (by omega), hneg, Op.mag, digits, he, hE, ← hmag]
    · refine ⟨fun _ => ⟨nrm, ?_⟩, fun hk => ?_, fun hk => ?_⟩
      · rw [Op.InFormat, he]
        constructor <;> omega
      · rw [kind] at hk
        cases hk
      · rw [kind] at hk
        cases hk
  | zero hE hD kind rl6 h7 digits =>
    constructor
    · rw [Unpacked.datum, kind, if_neg (by omega), hneg, Op.mag, digits, hD]
      simp
    · refine ⟨fun hk => ?_, fun _ => ⟨digits, ?_⟩, fun hk => ?_⟩
      · rw [kind] at hk
        cases hk
      · rw [Op.expBits, rl6, h7]
        rfl
      · rw [kind] at hk
        cases hk
  | inf hE hD kind rl6 h7 digits =>
    constructor
    · rw [Unpacked.datum, kind, if_pos hE, if_pos hD, hneg]
    · refine ⟨fun hk => ?_, fun hk => ?_, fun _ => ⟨digits, ?_⟩⟩
      · rw [kind] at hk
        cases hk
      · rw [kind] at hk
        cases hk
      · rw [Op.expBits, rl6, h7]
        rfl

end Cpm8000.Fpe
