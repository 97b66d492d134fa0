/-
# Comparison

`Fcp` unpacks its two operands, sorts the pair by what they are (number, zero, infinity, NaN) and
leaves the condition code in rl5.  Zeros are told from numbers by the table, so `cmpno` sees only
normalised operands: it compares the signs, then the exponents as signed words, then the
significands as unsigned long words.

* `extended_datum`: an extended of any finite pattern, unnormalised ones included, is unpacked to
  the number it denotes.
* `Op.mag_lt_of_expo`, `Op.mag_lt_of_digits`: magnitudes are ordered by the exponent first.
* `cmpno_spec`, `Fcp_spec`: the code is that of the order of the numbers.
* `Fcp_orders`: so it is one order for all formats, antisymmetric and transitive.
-/
import Cpm8000.Fpe.Pack

namespace Cpm8000.Fpe

open Arith

/-! ## 1. The operation -/

/-- Unpack an operand of any format. -/
def unpack (p : Packed) (rh5 : BitVec 8) : Option Unpacked :=
  match p with
  | .single rr6 => single rr6 rh5
  | .double m => double m rh5
  | .extended r7 rq8 => extended r7 rq8 rh5

/-- What unpacking sets in the descriptor. -/
def Kind.descr : Kind → BitVec 16
  | .num => 0
  | .zero => 1
  | .inf => 2
  | .qnan => 3
  | .snan => 0x103

/-- Both operands, the destination first, and the index into the table of the operation. -/
structure Operands where
  dst : Unpacked
  src : Unpacked
  r1 : BitVec 16
  rh5 : BitVec 8

/-- Unpack two operands. -/
def setup (dst src : Packed) (rh5 : BitVec 8) : Option Operands :=
  (unpack dst rh5).bind fun d =>
    (unpack src d.rh5).map fun s =>
      let r1 := (rl (rl d.kind.descr).val).val ||| s.kind.descr
      if hib r1 = 0 then ⟨d, s, r1, s.rh5⟩ else ⟨d, s, 16, set s.rh5 6⟩

/-- The routines of the comparison. -/
inductive Case where
  | cmpno
  | cmps0
  | cmpsinf
  | cmpunor
  | cmpd0
  | cmpeq
  | cmpdinf
  | cmp2inf

/-- The routine for a pair of operands. -/
def cmpcase : List Case :=
  [.cmpno, .cmps0, .cmpsinf, .cmpunor,
    .cmpd0, .cmpeq, .cmpsinf, .cmpunor,
    .cmpdinf, .cmpdinf, .cmp2inf, .cmpunor,
    .cmpunor, .cmpunor, .cmpunor, .cmpunor,
    .cmpunor]

/-- The condition code by the source's sign. -/
def Fcp31 (r6 : BitVec 16) : BitVec 8 := if r6.getLsbD 15 then 0x08 else 0xA8

/-- The condition code by the destination's sign. -/
def Fcp33 (r0 : BitVec 16) : BitVec 8 := if r0.getLsbD 15 then 0xA8 else 0x08

/-- The destination's magnitude is the greater. -/
def cpgt (rh6 : BitVec 8) : BitVec 8 := if rh6.getLsbD 7 then 0xA8 else 0x08

/-- The destination's magnitude is the less. -/
def cplt (rh6 : BitVec 8) : BitVec 8 := if rh6.getLsbD 7 then 0x08 else 0xA8

/-- The signed comparison of two words, as the flags it leaves. -/
def cp (x y : BitVec 16) : Ordering :=
  if x.toInt < y.toInt then .lt else if y.toInt < x.toInt then .gt else .eq

/-- Sign and exponent of an operand as the word r6. -/
def Op.r6 (o : Op) : BitVec 16 := word o.rh6 o.rl6

/-- Two numbers, none of them zero. -/
def cmpno (dst src : Op) : BitVec 8 :=
  if (dst.rh6 ^^^ src.rh6).getLsbD 7 then Fcp31 src.r6
  else match cp dst.r7 src.r7 with
    | .gt => cpgt src.rh6
    | .lt => cplt src.rh6
    | .eq =>
      match cpl dst.rq8.hi src.rq8.hi with
      | .gt => cpgt src.rh6
      | .lt => cplt src.rh6
      | .eq =>
        match cpl dst.rq8.lo src.rq8.lo with
        | .gt => cpgt src.rh6
        | .lt => cplt src.rh6
        | .eq => 0x40

/-- The mode bit for affine infinities. -/
def affine (modes : BitVec 8) : Bool := modes.getLsbD 0

/-- The routine of a case. -/
def runCase (modes : BitVec 8) (dst src : Op) : Case → BitVec 8
  | .cmpno => cmpno dst src
  | .cmps0 => Fcp33 dst.r6
  | .cmpd0 => Fcp31 src.r6
  | .cmpeq => 0x40
  | .cmpunor => 0x10
  | .cmpsinf => if affine modes then Fcp31 src.r6 else 0x10
  | .cmpdinf => if affine modes then Fcp33 dst.r6 else 0x10
  | .cmp2inf =>
    if (dst.r6 ^^^ src.r6).msb then (if affine modes then Fcp31 src.r6 else 0x40) else 0x40

/-- **Compare.**  The condition code and the errors; `op` is the instruction word. -/
def Fcp (modes : BitVec 8) (op : BitVec 16) (dst src : Packed) (rh5 : BitVec 8) :
    Option (BitVec 8 × BitVec 8) :=
  (setup dst src rh5).map fun o =>
    let rl5 := runCase modes o.dst.toOp o.src.toOp ((cmpcase[o.r1.toNat]?).getD .cmpunor)
    (rl5, if rl5 = 0x10 then (if op.getLsbD 5 then set o.rh5 0 else o.rh5) else o.rh5)

/-! ## 2. Operands as unpacking delivers them -/

/-- What a stored operand denotes. -/
def Packed.datum : Packed → Datum
  | .single rr6 => interchange 8 23 rr6.toNat
  | .double m => interchange 11 52 m.toNat
  | .extended r7 rq8 => extDatum r7 rq8

/-- The number of a finite datum. -/
def Datum.value : Datum → Option ℚ
  | .finite neg mag => some (signed neg mag)
  | .inf _ => none
  | .nan => none

/-- The number a stored operand denotes, when it is finite. -/
def Packed.value (p : Packed) : Option ℚ := p.datum.value

theorem Unpacked.datum_zero {u : Unpacked} (hk : u.kind = .zero) (h0 : u.digits = 0) :
    u.datum = .finite u.neg 0 := by
  rw [Unpacked.datum, hk, Op.mag, h0, Nat.cast_zero, zero_mul]

/-- An extended with a clear leading bit and an exponent above the least one. -/
theorem unnormal_datum {r7 : BitVec 16} {rq8 : Quad} (rh5 : BitVec 8)
    (hE : 0 < r7.toNat % 2 ^ 15) (hE' : r7.toNat % 2 ^ 15 ≠ 0x7FFF) (hD : rq8.toNat < 2 ^ 63) :
    ∃ u, extended r7 rq8 rh5 = some u ∧ u.datum = extDatum r7 rq8 ∧ u.WellFormed := by
  have hlt := Nat.mod_lt r7.toNat (Nat.two_pow_pos 15)
  have hneg := extFields_neg r7 rq8
  have h7 : (extFields r7 rq8).r7.toNat = r7.toNat % 2 ^ 15 := toNat_res_top r7
  have hx6 : (extFields r7 rq8).rl6 = 0 := rfl
  have hm : ¬ (extFields r7 rq8).r7 = 0x7FFF := fun h => hE' (h7.symm.trans (congrArg _ h))
  have hz : ¬ (extFields r7 rq8).r7 = 0 := fun h => by
    have h0 : (extFields r7 rq8).r7.toNat = 0 := congrArg BitVec.toNat h
    omega
  have hb : ¬ rq8.w0.getLsbD 15 = true := fun h => by
    have := (Quad.getLsbD_w0_iff rq8).mp h
    omega
  have hext : extended r7 rq8 rh5 = fdzun (extFields r7 rq8) (set rh5 5) := by
    simp only [extended, if_neg hm, if_neg hb, if_neg hz]
  rw [hext, extDatum, if_neg hE']
  rcases fdzun_spec (extFields r7 rq8) (set rh5 5) hD with ⟨h0, hu⟩ | ⟨h0, n, u, hu, hN⟩
  · have hq : rq8.toNat = 0 := h0
    obtain ⟨u, hu', hk, hdig, hbits, hsgn⟩ : ∃ u, fdzun (extFields r7 rq8) (set rh5 5) = some u ∧
        u.kind = .zero ∧ u.digits = 0 ∧ u.expBits = 0 ∧ u.neg = (extFields r7 rq8).neg :=
      ⟨_, hu, rfl, h0, by rw [Op.expBits, hx6]; rfl, rfl⟩
    refine ⟨u, hu', ?_, fun h => ?_, fun _ => ⟨hdig, hbits⟩, fun h => ?_⟩
    · rw [Unpacked.datum_zero hk hdig, hsgn, hneg, hq, Nat.cast_zero, zero_mul]
    · rw [hk] at h
      cases h
    · rw [hk] at h
      cases h
  · have hn := hN.le h0
    have hr7 := hN.r7
    have hu7 := u.r7.isLt
    have hl6 := hN.rl6
    rw [h7] at hr7
    -- the exponent is taken down by the places shifted, through zero when it was small
    have he : u.expo = (r7.toNat % 2 ^ 15 : ℕ) - n := by
      by_cases hs : 2 ^ 15 ≤ u.r7.toNat
      · rw [if_pos hs] at hl6
        have hbits : u.expBits = 0xFF * 65536 + u.r7.toNat := by
          rw [Op.expBits, hl6]
          rfl
        rw [Op.expo, if_neg (by omega), hbits]
        push_cast
        omega
      · rw [if_neg hs] at hl6
        have hbits : u.expBits = u.r7.toNat := by
          rw [Op.expBits, hl6, hx6]
          exact Nat.zero_add _
        rw [Op.expo, if_pos (by omega), hbits]
        omega
    have hsgn : u.neg = r7.getLsbD 15 := by rw [← hneg, Op.neg, Op.neg, hN.rh6]
    have hdig : u.digits = rq8.toNat * 2 ^ n := hN.digits
    refine ⟨u, hu, ?_, fun _ => ⟨hN.normal, ?_⟩, fun hk => ?_, fun hk => ?_⟩
    · have hpow : (2 : ℚ) ^ (((r7.toNat % 2 ^ 15 : ℕ) : ℤ) - bias - 63) =
          2 ^ n * 2 ^ (((r7.toNat % 2 ^ 15 : ℕ) : ℤ) - n - bias - 63) := by
        rw [← zpow_natCast, ← zpow_add₀ (by norm_num)]
        congr 1
        ring
      have hmag : u.mag = rq8.toNat * 2 ^ (((r7.toNat % 2 ^ 15 : ℕ) : ℤ) - bias - 63) := by
        rw [Op.mag, hdig, he, hpow]
        push_cast
        ring
      rw [Unpacked.datum, hN.kind, hsgn, hmag]
    · rw [Op.InFormat, he]
      constructor <;> omega
    · rw [hN.kind] at hk
      cases hk
    · rw [hN.kind] at hk
      cases hk

/-- **Every finite extended pattern is unpacked to the number it denotes.** -/
theorem extended_datum {r7 : BitVec 16} (rq8 : Quad) (rh5 : BitVec 8)
    (hE : r7.toNat % 2 ^ 15 ≠ 0x7FFF) :
    ∃ u, extended r7 rq8 rh5 = some u ∧ u.datum = extDatum r7 rq8 ∧ u.WellFormed := by
  have hlt := Nat.mod_lt r7.toNat (Nat.two_pow_pos 15)
  have hE' : r7.toNat % 2 ^ 15 < 0x7FFF := by omega
  have hin : ∀ h : IsExt (r7.toNat % 2 ^ 15) rq8.toNat,
      ∃ u, extended r7 rq8 rh5 = some u ∧ u.datum = extDatum r7 rq8 ∧ u.WellFormed := by
    intro h
    obtain ⟨u, hu, hneg, -, hS⟩ := extended_spec r7 rq8 rh5 h
    exact ⟨u, hu, hS.datum hneg⟩
  rcases Nat.lt_or_ge rq8.toNat (2 ^ 63) with hD | hD
  · rcases Nat.eq_zero_or_pos (r7.toNat % 2 ^ 15) with h0 | h0
    · exact hin (Or.inr (Or.inl ⟨h0, hD⟩))
    · exact unnormal_datum rh5 h0 hE hD
  · exact hin (Or.inl ⟨hE', hD⟩)

/-- **Every finite operand is unpacked to the number it denotes**, well formed. -/
theorem unpack_datum {p : Packed} {x : ℚ} (hp : p.value = some x) (rh5 : BitVec 8) :
    ∃ u, unpack p rh5 = some u ∧ u.datum = p.datum ∧ u.WellFormed := by
  cases p with
  | single rr6 =>
    obtain ⟨u, hu, hneg, -, hS⟩ := fixup_spec isFormat_single 0x3F81 0xFF rfl rfl
      (singleFields_spec rr6) rh5
    exact ⟨u, hu, hS.datum isFormat_single hneg⟩
  | double m =>
    obtain ⟨u, hu, hneg, -, hS⟩ := fixup_spec isFormat_double 0x3C01 0x7FF rfl rfl
      (doubleFields_spec m) rh5
    exact ⟨u, hu, hS.datum isFormat_double hneg⟩
  | extended r7 rq8 =>
    refine extended_datum rq8 rh5 fun hE => ?_
    rw [Packed.value, Packed.datum, extDatum, if_pos hE] at hp
    split at hp <;> cases hp

/-! ## 3. The order of magnitudes -/

/-- The greater exponent, the greater magnitude. -/
theorem Op.mag_lt_of_expo {a b : Op} (hb : b.Normal) (h : a.expo < b.expo) : a.mag < b.mag := by
  have ha : ((a.digits : ℕ) : ℚ) < 2 ^ 64 := by exact_mod_cast a.digits_lt
  have hb' : (2 : ℚ) ^ 63 ≤ (b.digits : ℕ) := by exact_mod_cast hb
  have hpos : (0 : ℚ) < 2 ^ (a.expo - bias - 63) := zpow_pos (by norm_num) _
  calc a.mag = (a.digits : ℚ) * 2 ^ (a.expo - bias - 63) := rfl
    _ < 2 ^ 64 * 2 ^ (a.expo - bias - 63) := mul_lt_mul_of_pos_right ha hpos
    _ = 2 ^ 63 * 2 ^ (a.expo + 1 - bias - 63) := by
      rw [← zpow_natCast, ← zpow_natCast, ← zpow_add₀ (by norm_num), ← zpow_add₀ (by norm_num)]
      congr 1
      push_cast
      ring
    _ ≤ 2 ^ 63 * 2 ^ (b.expo - bias - 63) := by
      apply mul_le_mul_of_nonneg_left _ (by positivity)
      exact zpow_le_zpow_right₀ (by norm_num) (by omega)
    _ ≤ b.digits * 2 ^ (b.expo - bias - 63) :=
      mul_le_mul_of_nonneg_right hb' (zpow_pos (by norm_num) _).le

/-- With the exponent the same, the significands decide. -/
theorem Op.mag_lt_of_digits {a b : Op} (he : a.expo = b.expo) (h : a.digits < b.digits) :
    a.mag < b.mag := by
  rw [Op.mag, Op.mag, he]
  exact mul_lt_mul_of_pos_right (by exact_mod_cast h) (zpow_pos (by norm_num) _)

/-- A normalised operand is not zero. -/
theorem Op.Normal.mag_pos {o : Op} (h : o.Normal) : 0 < o.mag := by
  have hd : 0 < o.digits := lt_of_lt_of_le (by norm_num) h
  exact mul_pos (by exact_mod_cast hd) (zpow_pos (by norm_num) _)

/-! ## 4. The condition code -/

/-- The condition code of an order. -/
def code : Ordering → BitVec 8
  | .lt => 0xA8
  | .eq => 0x40
  | .gt => 0x08

theorem code_injective : Function.Injective code := by
  intro a b h
  cases a <;> cases b <;> first | rfl | exact absurd h (by decide)

theorem Op.r6_sign (o : Op) : o.r6.getLsbD 15 = o.neg := by
  have h6 := o.rh6.isLt
  have hl := o.rl6.isLt
  rw [Op.r6, Op.neg, Bool.eq_iff_iff, getLsbD_eq_true_iff, getLsbD_eq_true_iff, toNat_word]
  omega

theorem Fcp31_eq (o : Op) : Fcp31 o.r6 = if o.neg then code .gt else code .lt := by
  rw [Fcp31, Op.r6_sign]
  rfl

theorem Fcp33_eq (o : Op) : Fcp33 o.r6 = if o.neg then code .lt else code .gt := by
  rw [Fcp33, Op.r6_sign]
  rfl

/-- The order of two signed numbers whose magnitudes are ordered. -/
theorem compare_signed {a b : ℚ} (neg : Bool) (h : a < b) :
    code (compare (signed neg a) (signed neg b)) = if neg then 0x08 else 0xA8 := by
  cases neg
  · rw [signed_false, signed_false, compare_lt_iff_lt.mpr h]
    rfl
  · rw [signed_true, signed_true, compare_gt_iff_gt.mpr (neg_lt_neg h)]
    rfl

theorem compare_signed_gt {a b : ℚ} (neg : Bool) (h : b < a) :
    code (compare (signed neg a) (signed neg b)) = if neg then 0xA8 else 0x08 := by
  cases neg
  · rw [signed_false, signed_false, compare_gt_iff_gt.mpr h]
    rfl
  · rw [signed_true, signed_true, compare_lt_iff_lt.mpr (neg_lt_neg h)]
    rfl

/-- With different signs the signs decide, also when one of the numbers is zero. -/
theorem compare_of_signs {s t : Bool} {a b : ℚ} (hst : s ≠ t) (hab : 0 < a + b) :
    compare (signed s a) (signed t b) = if t then .gt else .lt := by
  cases s <;> cases t
  · exact absurd rfl hst
  · rw [signed_false, signed_true, compare_gt_iff_gt.mpr (show -b < a by linarith)]
    rfl
  · rw [signed_false, signed_true, compare_lt_iff_lt.mpr (show -a < b by linarith)]
    rfl
  · exact absurd rfl hst

theorem cp_cases (x y : BitVec 16) :
    cp x y = .lt ∧ x.toInt < y.toInt ∨ cp x y = .eq ∧ x.toInt = y.toInt ∨
      cp x y = .gt ∧ y.toInt < x.toInt := by
  unfold cp
  split_ifs with h1 h2
  · exact Or.inl ⟨rfl, h1⟩
  · exact Or.inr (Or.inr ⟨rfl, h2⟩)
  · exact Or.inr (Or.inl ⟨rfl, by omega⟩)

/-- **Two numbers compare as what they denote.** -/
theorem cmpno_spec {d s : Op} (hd : d.Normal) (hs : s.Normal) (hd' : d.InFormat)
    (hs' : s.InFormat) : cmpno d s = code (compare d.val s.val) := by
  rw [cmpno, BitVec.getLsbD_xor, Op.val, Op.val]
  change (if (d.neg ^^ s.neg) = true then _ else _) = _
  by_cases hsgn : d.neg = s.neg
  · rw [hsgn, Bool.xor_self, if_neg Bool.false_ne_true]
    have hgt : s.mag < d.mag →
        cpgt s.rh6 = code (compare (signed s.neg d.mag) (signed s.neg s.mag)) :=
      fun h => (compare_signed_gt s.neg h).symm
    have hlt : d.mag < s.mag →
        cplt s.rh6 = code (compare (signed s.neg d.mag) (signed s.neg s.mag)) :=
      fun h => (compare_signed s.neg h).symm
    have hed := hd'.toInt_r7
    have hes := hs'.toInt_r7
    have hq := Quad.toNat_eq d.rq8
    have hq' := Quad.toNat_eq s.rq8
    have hlo := d.rq8.lo.isLt
    have hlo' := s.rq8.lo.isLt
    rcases cp_cases d.r7 s.r7 with ⟨h, hc⟩ | ⟨h, hc⟩ | ⟨h, hc⟩
    · rw [h]
      exact hlt (Op.mag_lt_of_expo hs (by omega))
    · have he : d.expo = s.expo := by omega
      rw [h]
      rcases cpl_cases d.rq8.hi s.rq8.hi with ⟨h1, hc1⟩ | ⟨h1, hc1⟩ | ⟨h1, hc1⟩
      · rw [h1]
        exact hlt (Op.mag_lt_of_digits he (by simp only [Op.digits]; omega))
      · rw [h1]
        rcases cpl_cases d.rq8.lo s.rq8.lo with ⟨h2, hc2⟩ | ⟨h2, hc2⟩ | ⟨h2, hc2⟩
        · rw [h2]
          exact hlt (Op.mag_lt_of_digits he (by simp only [Op.digits]; omega))
        · have hm : d.mag = s.mag := by
            have hdig : d.digits = s.digits := by
              simp only [Op.digits]
              omega
            rw [Op.mag, Op.mag, hdig, he]
          rw [h2, hm, compare_eq_iff_eq.mpr rfl]
          rfl
        · rw [h2]
          exact hgt (Op.mag_lt_of_digits he.symm (by simp only [Op.digits]; omega))
      · rw [h1]
        exact hgt (Op.mag_lt_of_digits he.symm (by simp only [Op.digits]; omega))
    · rw [h]
      exact hgt (Op.mag_lt_of_expo hd (by omega))
  · have hx : (d.neg ^^ s.neg) = true := by
      cases hd0 : d.neg <;> cases hs0 : s.neg <;> rw [hd0, hs0] at hsgn <;> simp at hsgn ⊢
    rw [if_pos hx, Fcp31_eq, compare_of_signs hsgn (add_pos hd.mag_pos hs.mag_pos)]
    cases s.neg <;> rfl

/-! ## 5. The table -/

/-- A finite operand is a number or a zero. -/
theorem Unpacked.kind_of_value {u : Unpacked} {x : ℚ} (h : u.datum.value = some x) :
    (u.kind = .num ∨ u.kind = .zero) ∧ x = u.val := by
  rw [Unpacked.datum] at h
  cases hk : u.kind <;> rw [hk] at h <;> simp only [Datum.value] at h
  · exact ⟨Or.inl rfl, (Option.some.inj h).symm⟩
  · exact ⟨Or.inr rfl, (Option.some.inj h).symm⟩
  · cases h
  · cases h
  · cases h

/-- **The condition code is that of the order of the numbers.** -/
theorem Fcp_spec (modes : BitVec 8) (op : BitVec 16) (rh5 : BitVec 8) {p q : Packed} {x y : ℚ}
    (hp : p.value = some x) (hq : q.value = some y) :
    ∃ f, Fcp modes op p q rh5 = some (code (compare x y), f) := by
  obtain ⟨d, hd, hdp, hdw⟩ := unpack_datum hp rh5
  obtain ⟨s, hs, hsq, hsw⟩ := unpack_datum hq d.rh5
  rw [Packed.value, ← hdp] at hp
  rw [Packed.value, ← hsq] at hq
  obtain ⟨hdk, rfl⟩ := d.kind_of_value hp
  obtain ⟨hsk, rfl⟩ := s.kind_of_value hq
  have hzero : ∀ {u : Unpacked}, u.WellFormed → u.kind = .zero → u.mag = 0 := by
    intro u hw hk
    rw [Op.mag, (hw.zero hk).1, Nat.cast_zero, zero_mul]
  -- with a zero operand the sign of the other one decides
  have hd0 : ∀ t : Unpacked, t.WellFormed → t.kind = .num →
      ∀ u : Unpacked, u.WellFormed → u.kind = .zero →
        Fcp31 t.toOp.r6 = code (compare u.val t.val) ∧
          Fcp33 t.toOp.r6 = code (compare t.val u.val) := by
    intro t ht htk u hu huk
    have hm : 0 < t.mag := (ht.num htk).1.mag_pos
    have hz : u.val = 0 := by
      rw [Op.val, hzero hu huk]
      cases u.neg <;> simp
    rw [Fcp31_eq, Fcp33_eq, hz, Op.val]
    cases t.neg
    · rw [signed_false, compare_lt_iff_lt.mpr hm, compare_gt_iff_gt.mpr hm]
      exact ⟨rfl, rfl⟩
    · have hm' : -t.mag < 0 := neg_lt_zero.mpr hm
      rw [signed_true, compare_lt_iff_lt.mpr hm', compare_gt_iff_gt.mpr hm']
      exact ⟨rfl, rfl⟩
  have hrun : ∃ c : Case, (setup p q rh5) = some ⟨d, s, (rl (rl d.kind.descr).val).val ||| s.kind.descr, s.rh5⟩ ∧
      cmpcase[((rl (rl d.kind.descr).val).val ||| s.kind.descr).toNat]? = some c ∧
      runCase modes d.toOp s.toOp c = code (compare d.val s.val) := by
    rw [setup, hd, Option.bind_some, hs, Option.map_some]
    rcases hdk with hk | hk <;> rcases hsk with hk' | hk' <;> rw [hk, hk']
    · exact ⟨.cmpno, rfl, rfl, cmpno_spec (hdw.num hk).1 (hsw.num hk').1 (hdw.num hk).2
        (hsw.num hk').2⟩
    · exact ⟨.cmps0, rfl, rfl, (hd0 d hdw hk s hsw hk').2⟩
    · exact ⟨.cmpd0, rfl, rfl, (hd0 s hsw hk' d hdw hk).1⟩
    · refine ⟨.cmpeq, rfl, rfl, ?_⟩
      rw [Op.val, Op.val, hzero hdw hk, hzero hsw hk']
      have h0 : ∀ b : Bool, signed b (0 : ℚ) = 0 := by
        intro b
        cases b <;> simp
      rw [h0, h0, compare_eq_iff_eq.mpr rfl]
      rfl
  obtain ⟨c, hset, hc, hval⟩ := hrun
  rw [Fcp, hset, Option.map_some]
  simp only [hc, Option.getD_some, hval]
  exact ⟨_, rfl⟩

/-- The comparison leaves the code of an order. -/
def Reports (modes : BitVec 8) (op : BitVec 16) (rh5 : BitVec 8) (p q : Packed) (o : Ordering) :
    Prop := ∃ f, Fcp modes op p q rh5 = some (code o, f)

theorem reports_iff (modes : BitVec 8) (op : BitVec 16) (rh5 : BitVec 8) {p q : Packed} {x y : ℚ}
    (hp : p.value = some x) (hq : q.value = some y) (o : Ordering) :
    Reports modes op rh5 p q o ↔ compare x y = o := by
  obtain ⟨f, hf⟩ := Fcp_spec modes op rh5 hp hq
  constructor
  · rintro ⟨g, hg⟩
    rw [hf] at hg
    exact code_injective (congrArg Prod.fst (Option.some.inj hg))
  · rintro rfl
    exact ⟨f, hf⟩

/-- **Comparison is the order of the numbers.**  Finite operands of any formats, zeros of either
sign, denormals and unnormalised extendeds among them, are reported less, equal or greater exactly
as the numbers they denote are; the reports are antisymmetric and transitive. -/
theorem Fcp_orders (modes : BitVec 8) (op : BitVec 16) (rh5 : BitVec 8) {p q r : Packed}
    {x y z : ℚ} (hp : p.value = some x) (hq : q.value = some y) (hr : r.value = some z) :
    ((Reports modes op rh5 p q .lt ↔ x < y) ∧ (Reports modes op rh5 p q .eq ↔ x = y) ∧
        (Reports modes op rh5 p q .gt ↔ y < x)) ∧
      (∃ o, Reports modes op rh5 p q o ∧ Reports modes op rh5 q p o.swap) ∧
      (Reports modes op rh5 p q .lt → Reports modes op rh5 q r .lt →
        Reports modes op rh5 p r .lt) ∧
      (∀ o, Reports modes op rh5 p q .eq → Reports modes op rh5 q r o →
        Reports modes op rh5 p r o) ∧
      ∀ o, Reports modes op rh5 p q o → Reports modes op rh5 q r .eq →
        Reports modes op rh5 p r o := by
  have hpq := reports_iff modes op rh5 hp hq
  have hqp := reports_iff modes op rh5 hq hp
  have hqr := reports_iff modes op rh5 hq hr
  have hpr := reports_iff modes op rh5 hp hr
  refine ⟨⟨?_, ?_, ?_⟩, ⟨compare x y, ?_, ?_⟩, ?_, ?_, ?_⟩
  · rw [hpq, compare_lt_iff_lt]
  · rw [hpq, compare_eq_iff_eq]
  · rw [hpq, compare_gt_iff_gt]
  · exact (hpq _).mpr rfl
  · rw [hqp]
    rcases lt_trichotomy x y with h | h | h
    · rw [compare_lt_iff_lt.mpr h, compare_gt_iff_gt.mpr h]
      rfl
    · rw [compare_eq_iff_eq.mpr h, compare_eq_iff_eq.mpr h.symm]
      rfl
    · rw [compare_gt_iff_gt.mpr h, compare_lt_iff_lt.mpr h]
      rfl
  · rw [hpq, hqr, hpr, compare_lt_iff_lt, compare_lt_iff_lt, compare_lt_iff_lt]
    exact lt_trans
  · intro o
    rw [hpq, hqr, hpr, compare_eq_iff_eq]
    rintro rfl h
    exact h
  · intro o
    rw [hpq, hqr, hpr, compare_eq_iff_eq]
    rintro h rfl
    exact h

theorem value_one : (Packed.single 0x3F800000).value = some 1 := by
  have h : (0x3F800000 : BitVec 32).toNat = 0x3F800000 := rfl
  rw [Packed.value, Packed.datum, interchange, h]
  norm_num [Datum.value]
  rfl

theorem value_minus_zero : (Packed.double ⟨0x8000, 0, 0, 0⟩).value = some 0 := by
  have h : (⟨0x8000, 0, 0, 0⟩ : Quad).toNat = 0x8000000000000000 := rfl
  rw [Packed.value, Packed.datum, interchange, h]
  norm_num [Datum.value]

theorem value_unnormal : (Packed.extended 0x4000 ⟨0x4000, 0, 0, 0⟩).value = some 1 := by
  have h : (⟨0x4000, 0, 0, 0⟩ : Quad).toNat = 2 ^ 62 := rfl
  have h7 : (0x4000 : BitVec 16).toNat = 0x4000 := rfl
  have hs : (0x4000 : BitVec 16).getLsbD 15 = false := rfl
  rw [Packed.value, Packed.datum, extDatum, h, h7, hs]
  norm_num [Datum.value, bias]

/-- The theorem at minus zero, one, and one as an unnormalised extended. -/
theorem Fcp_orders_one :
    ((Reports 0 0 0 (.double ⟨0x8000, 0, 0, 0⟩) (.single 0x3F800000) .lt ↔ (0 : ℚ) < 1) ∧
        (Reports 0 0 0 (.double ⟨0x8000, 0, 0, 0⟩) (.single 0x3F800000) .eq ↔ (0 : ℚ) = 1) ∧
        (Reports 0 0 0 (.double ⟨0x8000, 0, 0, 0⟩) (.single 0x3F800000) .gt ↔ (1 : ℚ) < 0)) ∧
      Reports 0 0 0 (.double ⟨0x8000, 0, 0, 0⟩) (.extended 0x4000 ⟨0x4000, 0, 0, 0⟩) .lt := by
  obtain ⟨h, -, -, -, hr⟩ := Fcp_orders 0 0 0 value_minus_zero value_one value_unnormal
  refine ⟨h, hr .lt (h.1.mpr (by norm_num)) ?_⟩
  exact (reports_iff 0 0 0 value_one value_unnormal .eq).mpr (compare_eq_iff_eq.mpr rfl)

end Cpm8000.Fpe
