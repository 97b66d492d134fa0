/-
# The instructions' codes

An instruction begins with one or two words that `instr` puts together from a line's skeleton and its
operands, a nibble at a time. For each of their nibbles `Format.head` computes a set of values it may get,
without looking at the operands (`Holds.pack`); it follows the actions of the line.

Where the sets of two lines meet in every nibble, the lines say the same: they belong to one instruction, or
to a left and a right shift, and take the same room (`alike_of_meets`).
-/
import Cpm8000.Asm.Opcodes
import Cpm8000.Sys.Bitset

namespace Cpm8000.Asm

open Cpm8000.Sys Cpm8000.Sys.Bitset

/-! ## 1. The values of operands -/

/-- Sets of nibbles. -/
def every : ℕ := 0xffff
def nonzero : ℕ := 0xfffe

/-- The values that an operand of a class has. -/
def vals (c : ℕ) : ℕ :=
  if c = OCIR ∨ c = OCIRIO ∨ c = OCBX then nonzero
  else if c = OCCCODE then 0xfefe
  else if c = OCCFLAG then 0xf0
  else if c = OCINT then 0x6000
  else if c = OCCTL then 0xfc
  else every

/-- The registers that an operand of a class is based or indexed by. -/
def bases (c : ℕ) : ℕ := if c = OCBA ∨ c = OCBX then nonzero else every

/-- An operand has a value of its class, when the class restricts it. -/
structure OfClass (c : ℕ) (d : Operand) : Prop where
  val : vals c ≠ every → d.op_val.toNat < 16 ∧ (vals c).testBit d.op_val.toNat = true
  base : (bases c).testBit (d.op_flg.setWidth 4).toNat = true

theorem testBit_every {v : ℕ} (h : v < 16) : every.testBit v = true := by
  have hevery : every = 2 ^ 16 - 1 := rfl
  rw [hevery, Nat.testBit_two_pow_sub_one]
  exact decide_eq_true h

theorem testBit_eight {v : ℕ} (h : v < 8) : Nat.testBit 0xff v = true := by
  have height : 0xff = 2 ^ 8 - 1 := rfl
  rw [height, Nat.testBit_two_pow_sub_one]
  exact decide_eq_true h

@[simp] theorem testBit_every_nibble (x : BitVec 4) : every.testBit x.toNat = true := testBit_every x.isLt

/-- The lowest nibble of an operand's value. -/
theorem OfClass.nibble {c : ℕ} {d : Operand} (h : OfClass c d) :
    (vals c).testBit (d.op_val.setWidth 4).toNat = true := by
  by_cases hc : vals c = every
  · rw [hc, testBit_every_nibble]
  · obtain ⟨hlt, hval⟩ := h.val hc
    rwa [BitVec.toNat_setWidth, Nat.mod_eq_of_lt hlt]

/-! ## 2. Nibbles -/

def hi (b : Byte) : BitVec 4 := b.extractLsb' 4 4
def lo (b : Byte) : BitVec 4 := b.extractLsb' 0 4

@[simp] theorem hi_or (a b : Byte) : hi (a ||| b) = hi a ||| hi b := BitVec.extractLsb'_or
@[simp] theorem lo_or (a b : Byte) : lo (a ||| b) = lo a ||| lo b := BitVec.extractLsb'_or
@[simp] theorem hi_and (a b : Byte) : hi (a &&& b) = hi a &&& hi b := BitVec.extractLsb'_and
@[simp] theorem lo_and (a b : Byte) : lo (a &&& b) = lo a &&& lo b := BitVec.extractLsb'_and

/-- The low bits of a value. -/
theorem low_eq (v m : BitVec 32) {n : ℕ} (hm : m.toNat = 2 ^ n - 1) :
    low v m = (v.setWidth n).setWidth 16 := by
  refine BitVec.eq_of_toNat_eq ?_
  rw [low, BitVec.toNat_setWidth, BitVec.toNat_and, hm, Nat.and_two_pow_sub_one_eq_mod,
    BitVec.toNat_setWidth, BitVec.toNat_setWidth]

theorem ofxmsk_eq (f : BitVec 16) : f &&& OFXMSK = (f.setWidth 4).setWidth 16 := by
  have hmask : OFXMSK.toNat = 2 ^ 4 - 1 := rfl
  refine BitVec.eq_of_toNat_eq ?_
  rw [BitVec.toNat_and, hmask, Nat.and_two_pow_sub_one_eq_mod, BitVec.toNat_setWidth, BitVec.toNat_setWidth]
  omega

/-- The byte has only an upper nibble, or only a lower one. -/
structure Upper (b : BitVec 16) (x : BitVec 4) : Prop where
  hi : hi (b.setWidth 8) = x
  lo : lo (b.setWidth 8) = 0#4

structure Lower (b : BitVec 16) (x : BitVec 4) : Prop where
  hi : hi (b.setWidth 8) = 0#4
  lo : lo (b.setWidth 8) = x

theorem Upper.of_nibble (x : BitVec 4) : Upper (x.setWidth 16 <<< 4) x :=
  ⟨by revert x; decide, by revert x; decide⟩

theorem Lower.of_nibble (x : BitVec 4) : Lower (x.setWidth 16) x :=
  ⟨by revert x; decide, by revert x; decide⟩

theorem Upper.low (v : BitVec 32) : Upper (low v 0xf <<< 4) (v.setWidth 4) := by
  rw [low_eq (n := 4) v 0xf rfl]
  exact .of_nibble _

theorem Lower.low (v : BitVec 32) : Lower (low v 0xf) (v.setWidth 4) := by
  rw [low_eq (n := 4) v 0xf rfl]
  exact .of_nibble _

theorem Upper.index (f : BitVec 16) : Upper ((f &&& OFXMSK) <<< 4) (f.setWidth 4) := by
  rw [ofxmsk_eq]
  exact .of_nibble _

theorem Lower.index (f : BitVec 16) : Lower (f &&& OFXMSK) (f.setWidth 4) := by
  rw [ofxmsk_eq]
  exact .of_nibble _

/-- Three bits. -/
theorem Lower.three (v : BitVec 32) : Lower (Asm.low v 7) ((v.setWidth 3).setWidth 4) := by
  rw [low_eq (n := 3) v 7 rfl]
  generalize v.setWidth 3 = x
  exact ⟨by revert x; decide, by revert x; decide⟩

/-! ## 3. What the nibbles of a line may be -/

/-- The first nibble, and a set for each of the others of the first two words. -/
structure Nibbles where
  n0 : ℕ
  n1 : ℕ
  n2 : ℕ
  n3 : ℕ
  n4 : ℕ
  n5 : ℕ
  n6 : ℕ
  n7 : ℕ

/-- What values of one set make of values of another. -/
def ors (s t : ℕ) : ℕ := if s = 1 then t else image 16 (· ||| ·) s t

theorem testBit_ors {s t : ℕ} {x y : BitVec 4} (hs : s.testBit x.toNat = true) (ht : t.testBit y.toNat = true) :
    (ors s t).testBit (x ||| y).toNat = true := by
  rw [BitVec.toNat_or, ors]
  split_ifs with hone
  · -- the skeleton has a zero there
    rw [hone, ← Nat.pow_zero 2, Nat.testBit_two_pow, decide_eq_true_eq] at hs
    rwa [← hs, Nat.zero_or]
  · exact testBit_image x.isLt hs y.isLt ht

theorem testBit_ands {s t : ℕ} {x y : BitVec 4} (hs : s.testBit x.toNat = true) (ht : t.testBit y.toNat = true) :
    (image 16 (· &&& ·) s t).testBit (x &&& y).toNat = true := by
  rw [BitVec.toNat_and]
  exact testBit_image x.isLt hs y.isLt ht

namespace Lower

variable {s t : ℕ} {a b : BitVec 16} {x : BitVec 4}

theorem hi_or (h : Lower b x) (a : BitVec 16) : Asm.hi ((a ||| b).setWidth 8) = Asm.hi (a.setWidth 8) := by
  rw [BitVec.setWidth_or, Asm.hi_or, h.hi, BitVec.or_zero]

theorem mem_hi (h : Lower b x) (ha : s.testBit (Asm.hi (a.setWidth 8)).toNat = true) :
    s.testBit (Asm.hi ((a ||| b).setWidth 8)).toNat = true := by
  rw [h.hi_or]
  exact ha

theorem mem_lo (h : Lower b x) (hx : t.testBit x.toNat = true)
    (ha : s.testBit (Asm.lo (a.setWidth 8)).toNat = true) :
    (ors s t).testBit (Asm.lo ((a ||| b).setWidth 8)).toNat = true := by
  rw [BitVec.setWidth_or, Asm.lo_or, h.lo]
  exact testBit_ors ha hx

end Lower

namespace Upper

variable {s t : ℕ} {a b : BitVec 16} {x : BitVec 4}

theorem mem_hi (h : Upper b x) (hx : t.testBit x.toNat = true)
    (ha : s.testBit (Asm.hi (a.setWidth 8)).toNat = true) :
    (ors s t).testBit (Asm.hi ((a ||| b).setWidth 8)).toNat = true := by
  rw [BitVec.setWidth_or, Asm.hi_or, h.hi]
  exact testBit_ors ha hx

theorem mem_lo (h : Upper b x) (ha : s.testBit (Asm.lo (a.setWidth 8)).toNat = true) :
    s.testBit (Asm.lo ((a ||| b).setWidth 8)).toNat = true := by
  rw [BitVec.setWidth_or, Asm.lo_or, h.lo, BitVec.or_zero]
  exact ha

end Upper

/-- What `pack` makes of the sets. -/
def Action.spread (c : ℕ) (s : Nibbles) : Action → Nibbles
  | .OANIB1 => { s with n1 := ors s.n1 (vals c) }
  | .OANIB2 => { s with n2 := ors s.n2 (vals c) }
  | .OANIB3 => { s with n3 := ors s.n3 (vals c) }
  | .OANIB5 => { s with n5 := ors s.n5 (vals c) }
  | .OANIB6 => { s with n6 := ors s.n6 (vals c) }
  | .OANIB7 => { s with n7 := ors s.n7 (vals c) }
  | .OABYT1 => { s with n2 := every, n3 := every }
  | .OAX2 => { s with n2 := ors s.n2 every }
  | .OAX3 => { s with n3 := ors s.n3 every }
  | .OABA2 => { s with n2 := ors s.n2 (bases c) }
  | .OABA3 => { s with n3 := ors s.n3 (bases c) }
  | .OABX2 =>
    if c = OCBX then { s with n2 := ors s.n2 nonzero, n5 := ors s.n5 nonzero }
    else { s with n2 := every, n4 := every, n5 := every }
  | .OABX3 =>
    if c = OCBX then { s with n3 := ors s.n3 nonzero, n5 := ors s.n5 nonzero }
    else { s with n3 := every, n4 := every, n5 := every }
  | .OACFLAG =>
    if c = OCCFLAG then { s with n2 := ors s.n2 0x116 } else { s with n2 := every, n3 := every }
  | .OANIB3S => { s with n3 := ors s.n3 0xff }
  | .OANIB3A =>
    if c = OCINT then { s with n3 := image 16 (· &&& ·) s.n3 (vals c) } else { s with n2 := every, n3 := every }
  | .OANIB3D => { s with n3 := ors s.n3 every }
  | .OANIB7D => { s with n7 := ors s.n7 every }
  | .OARA7 => { s with n2 := ors s.n2 0xff, n3 := ors s.n3 every }
  | .OARA8 => { s with n2 := every, n3 := every }
  | .OARA12 => { s with n1 := every, n2 := every, n3 := every }
  | .OASHFT => { s with n3 := ors s.n3 5 }
  | _ => s

/-- The nibbles of the fields are in the sets. -/
structure Nibbles.Admits (s : Nibbles) (w : Fields) : Prop where
  n0 : (hi (w.skel0.setWidth 8)).toNat = s.n0
  n1 : s.n1.testBit (lo (w.skel0.setWidth 8)).toNat = true
  n2 : s.n2.testBit (hi (w.skel1.setWidth 8)).toNat = true
  n3 : s.n3.testBit (lo (w.skel1.setWidth 8)).toNat = true
  n4 : s.n4.testBit (hi (w.skel2.setWidth 8)).toNat = true
  n5 : s.n5.testBit (lo (w.skel2.setWidth 8)).toNat = true
  n6 : s.n6.testBit (hi (w.skel3.setWidth 8)).toNat = true
  n7 : s.n7.testBit (lo (w.skel3.setWidth 8)).toNat = true

namespace Nibbles.Admits

variable {s : Nibbles} {w : Fields} {b : BitVec 16} {x : BitVec 4} {t : ℕ}

/-- Something goes into the third nibble, or into the fourth. -/
theorem or_hi (h : s.Admits w) (hb : Upper b x) (hx : t.testBit x.toNat = true) :
    ({ s with n2 := ors s.n2 t } : Nibbles).Admits (w.or1 b) :=
  { h with n2 := hb.mem_hi hx h.n2, n3 := hb.mem_lo h.n3 }

theorem or_lo (h : s.Admits w) (hb : Lower b x) (hx : t.testBit x.toNat = true) :
    ({ s with n3 := ors s.n3 t } : Nibbles).Admits (w.or1 b) :=
  { h with n2 := hb.mem_hi h.n2, n3 := hb.mem_lo hx h.n3 }

/-- Something goes into both. -/
theorem or_both (h : s.Admits w) {t' : ℕ} (hhi : t.testBit (hi (b.setWidth 8)).toNat = true)
    (hlo : t'.testBit (lo (b.setWidth 8)).toNat = true) :
    ({ s with n2 := ors s.n2 t, n3 := ors s.n3 t' } : Nibbles).Admits (w.or1 b) := by
  have hn2 := testBit_ors h.n2 hhi
  have hn3 := testBit_ors h.n3 hlo
  rw [← hi_or, ← BitVec.setWidth_or] at hn2
  rw [← lo_or, ← BitVec.setWidth_or] at hn3
  exact { h with n2 := hn2, n3 := hn3 }

/-- The second byte is anything. -/
theorem any (h : s.Admits w) (b : BitVec 16) :
    ({ s with n2 := every, n3 := every } : Nibbles).Admits { w with skel1 := b } :=
  { h with n2 := testBit_every_nibble _, n3 := testBit_every_nibble _ }

/-- A half of a distance that takes seven bits. -/
theorem hi_distance {v : BitVec 32} (hlo : 0 ≤ v.toInt) (hhi : v.toInt < 256) :
    (hi (((v.sshiftRight 1).setWidth 16).setWidth 8)).toNat < 8 := by
  have hsmall : v.toNat < 256 := by
    rw [BitVec.toInt_eq_toNat_cond] at hlo hhi
    split_ifs at hlo hhi <;> omega
  have hmsb : v.msb = false := by
    rw [BitVec.msb_eq_decide]
    exact decide_eq_false (by omega)
  rw [hi, BitVec.extractLsb'_toNat, BitVec.toNat_setWidth, BitVec.toNat_setWidth,
    BitVec.sshiftRight_eq_of_msb_false hmsb, BitVec.toNat_ushiftRight]
  omega

/-- The index of a based address. -/
theorem index (h : s.Admits w) {c : ℕ} {d : Operand} (hd : OfClass c d) (hc : c = OCBX) :
    ({ s with n5 := ors s.n5 nonzero } : Nibbles).Admits
      { w with skel2 := w.skel2 ||| d.op_val.setWidth 16 } := by
  obtain ⟨hlt, hval⟩ := hd.val (by rw [hc]; decide)
  have hv : d.op_val.setWidth 16 = (d.op_val.setWidth 4).setWidth 16 := by
    refine BitVec.eq_of_toNat_eq ?_
    rw [BitVec.toNat_setWidth, BitVec.toNat_setWidth, BitVec.toNat_setWidth, Nat.mod_eq_of_lt hlt]
  have hset : vals c = nonzero := by
    rw [hc]
    rfl
  have hnib := hd.nibble
  rw [hset] at hnib
  have hlow : Lower (d.op_val.setWidth 16) (d.op_val.setWidth 4) := by
    rw [hv]
    exact .of_nibble _
  exact { h with n4 := hlow.mem_hi h.n4, n5 := hlow.mem_lo hnib h.n5 }

/-- A flag goes into the third nibble. -/
theorem flag (h : s.Admits w) {c : ℕ} {d : Operand} (hd : OfClass c d) (hc : c = OCCFLAG) :
    ({ s with n2 := ors s.n2 0x116 } : Nibbles).Admits (w.or1 (1 <<< d.op_val.toNat)) := by
  obtain ⟨hlt, hval⟩ := hd.val (by rw [hc]; decide)
  have hset : vals c = 0xf0 := by
    rw [hc]
    rfl
  rw [hset] at hval
  have hbit : ∀ n < 16, Nat.testBit 0xf0 n = true →
      Upper (1 <<< n) (hi ((1#16 <<< n).setWidth 8)) ∧
      Nat.testBit 0x116 (hi ((1#16 <<< n).setWidth 8)).toNat = true := by
    intro n hn hset
    have hlow : ∀ n < 16, Nat.testBit 0xf0 n = true → lo ((1#16 <<< n).setWidth 8) = 0#4 ∧
        Nat.testBit 0x116 (hi ((1#16 <<< n).setWidth 8)).toNat = true := by decide
    exact ⟨⟨rfl, (hlow n hn hset).1⟩, (hlow n hn hset).2⟩
  obtain ⟨hup, hmem⟩ := hbit _ hlt hval
  exact h.or_hi hup hmem

/-- `vi` and `nvi` take bits away. -/
theorem mask (h : s.Admits w) {c : ℕ} {d : Operand} (hd : OfClass c d) (hc : c = OCINT) :
    ({ s with n3 := image 16 (· &&& ·) s.n3 (vals c) } : Nibbles).Admits
      { w with skel1 := w.skel1 &&& (0xf0 ||| d.op_val.setWidth 16) } := by
  obtain ⟨hlt, hval⟩ := hd.val (by rw [hc]; decide)
  have hv : d.op_val.setWidth 16 = (d.op_val.setWidth 4).setWidth 16 := by
    refine BitVec.eq_of_toNat_eq ?_
    rw [BitVec.toNat_setWidth, BitVec.toNat_setWidth, BitVec.toNat_setWidth, Nat.mod_eq_of_lt hlt]
  have hnib := hd.nibble
  rw [hv]
  generalize d.op_val.setWidth 4 = x at hnib
  have hbyte : hi ((0xf0 ||| x.setWidth 16 : BitVec 16).setWidth 8) = 0xf#4 ∧
      lo ((0xf0 ||| x.setWidth 16 : BitVec 16).setWidth 8) = x := by
    clear hnib
    revert x
    decide
  have hall (y : BitVec 4) : y &&& 0xf#4 = y := by
    revert y
    decide
  have hn2 : s.n2.testBit (hi ((w.skel1 &&& (0xf0 ||| x.setWidth 16)).setWidth 8)).toNat = true := by
    rw [BitVec.setWidth_and, hi_and, hbyte.1, hall]
    exact h.n2
  have hn3 : (image 16 (· &&& ·) s.n3 (vals c)).testBit
      (lo ((w.skel1 &&& (0xf0 ||| x.setWidth 16)).setWidth 8)).toNat = true := by
    rw [BitVec.setWidth_and, lo_and, hbyte.2]
    exact testBit_ands h.n3 hnib
  exact { h with n2 := hn2, n3 := hn3 }

/-- **An operand that fits** takes the nibbles into the sets of its action. -/
theorem pack (h : s.Admits w) {segflg : Bool} {em : Emitter} {c : ℕ} {d : Operand} (hd : OfClass c d)
    {a : Action} (hfit : (w.pack segflg em d a).2 = true) :
    (a.spread c s).Admits (w.pack segflg em d a).1 := by
  cases a with
  | OANULL => exact h
  | OANIB1 =>
    have hlow := Lower.low d.op_val
    exact { h with n0 := (congrArg BitVec.toNat (hlow.hi_or _)).trans h.n0, n1 := hlow.mem_lo hd.nibble h.n1 }
  | OANIB2 => exact h.or_hi (.low _) hd.nibble
  | OANIB3 => exact h.or_lo (.low _) hd.nibble
  | OANIB5 =>
    have hlow := Lower.low d.op_val
    exact { h with n4 := hlow.mem_hi h.n4, n5 := hlow.mem_lo hd.nibble h.n5 }
  | OANIB6 =>
    have hup := Upper.low d.op_val
    exact { h with n6 := hup.mem_hi hd.nibble h.n6, n7 := hup.mem_lo h.n7 }
  | OANIB7 =>
    have hlow := Lower.low d.op_val
    exact { h with n6 := hlow.mem_hi h.n6, n7 := hlow.mem_lo hd.nibble h.n7 }
  | OABYT1 => exact { h.any (d.op_val.setWidth 16) with }
  | OAX2 => exact { h.or_hi (.index d.op_flg) (testBit_every_nibble _) with }
  | OAX3 => exact { h.or_lo (.index d.op_flg) (testBit_every_nibble _) with }
  | OABA2 => exact { h.or_hi (.index d.op_flg) hd.base with }
  | OABA3 => exact { h.or_lo (.index d.op_flg) hd.base with }
  | OABX2 =>
    rw [Action.spread]
    split_ifs with hc
    · have hbase := hd.base
      rw [bases, if_pos (.inr hc)] at hbase
      exact (h.or_hi (.index d.op_flg) hbase).index hd hc
    · exact { h with
        n2 := testBit_every_nibble _
        n3 := (Upper.index d.op_flg).mem_lo h.n3
        n4 := testBit_every_nibble _
        n5 := testBit_every_nibble _ }
  | OABX3 =>
    rw [Action.spread]
    split_ifs with hc
    · have hbase := hd.base
      rw [bases, if_pos (.inr hc)] at hbase
      exact (h.or_lo (.index d.op_flg) hbase).index hd hc
    · exact { h with
        n2 := (Lower.index d.op_flg).mem_hi h.n2
        n3 := testBit_every_nibble _
        n4 := testBit_every_nibble _
        n5 := testBit_every_nibble _ }
  | OACFLAG =>
    rw [Action.spread]
    split_ifs with hc
    · exact h.flag hd hc
    · exact h.any _
  | OANIB3S =>
    have hthree : ((d.op_val.setWidth 3).setWidth 4).toNat < 8 := by
      rw [BitVec.toNat_setWidth, BitVec.toNat_setWidth]
      omega
    exact h.or_lo (.three _) (testBit_eight hthree)
  | OANIB3A =>
    rw [Action.spread]
    split_ifs with hc
    · exact h.mask hd hc
    · exact h.any _
  | OANIB3D => exact h.or_lo (.low _) (testBit_every_nibble _)
  | OANIB7D =>
    have hlow := Lower.low (d.op_val - 1)
    exact { h with n6 := hlow.mem_hi h.n6, n7 := hlow.mem_lo (testBit_every_nibble _) h.n7 }
  | OARA7 =>
    have hreach : 0 ≤ (em.curloc + 2 - d.op_val).toInt ∧ (em.curloc + 2 - d.op_val).toInt < 256 := by
      simp only [Fields.pack, reaches, decide_eq_true_eq] at hfit
      exact hfit.2.2
    exact h.or_both (testBit_eight (hi_distance hreach.1 hreach.2)) (testBit_every_nibble _)
  | OARA8 => exact h.any _
  | OARA12 =>
    exact { h.any _ with
      n0 := (congrArg BitVec.toNat ((Lower.low _).hi_or _)).trans h.n0
      n1 := testBit_every_nibble _ }
  | OARA16 => exact { h with }
  | OAIMM8 => exact { h with }
  | OAIMM16 => exact { h with }
  | OAIMM32 => exact { h with }
  | OASHFT =>
    rw [Fields.pack]
    split_ifs
    · exact h.or_lo (x := 2) (.of_nibble 2) (by decide)
    · have hn3 := testBit_ors (y := 0#4) (t := 5) h.n3 (by decide)
      rw [BitVec.or_zero] at hn3
      exact { h with n3 := hn3 }

end Nibbles.Admits

/-! ## 4. The first words of a line -/

namespace Format

variable (fmp : Format)

def two : Bool := fmp.fm_flg &&& FMSKEL2 ≠ 0
def negi : Bool := fmp.fm_flg &&& FMNEGI ≠ 0

/-- The skeleton by itself. -/
def bare : Nibbles where
  n0 := (hi ((Fields.init fmp).skel0.setWidth 8)).toNat
  n1 := 1 <<< (lo ((Fields.init fmp).skel0.setWidth 8)).toNat
  n2 := 1 <<< (hi ((Fields.init fmp).skel1.setWidth 8)).toNat
  n3 := 1 <<< (lo ((Fields.init fmp).skel1.setWidth 8)).toNat
  n4 := 1 <<< (hi ((Fields.init fmp).skel2.setWidth 8)).toNat
  n5 := 1 <<< (lo ((Fields.init fmp).skel2.setWidth 8)).toNat
  n6 := 1 <<< (hi ((Fields.init fmp).skel3.setWidth 8)).toNat
  n7 := 1 <<< (lo ((Fields.init fmp).skel3.setWidth 8)).toNat

/-- The sets with the operands. -/
def packed : Nibbles := fmp.fm_op.foldl (fun s p => p.2.spread p.1 s) fmp.bare

/-- What the first four bytes may be, those of a second word or of what follows the first. -/
def head : Nibbles :=
  if fmp.two then
    if fmp.negi then { fmp.packed with n4 := 0x8000, n5 := 0x8000, n6 := 0x8000, n7 := 0x8000 } else fmp.packed
  else { fmp.packed with n4 := every, n5 := every, n6 := every, n7 := every }

end Format

namespace Fields

/-- The operands are packed one after the other; none if one of them does not fit. -/
def packs (segflg : Bool) (em : Emitter) : List (Action × Operand) → Fields → Option Fields
  | [], w => some w
  | p :: l, w =>
    let r := w.pack segflg em p.2 p.1
    if r.2 then packs segflg em l r.1 else none

variable (fmp : Format) (w : Fields)

/-- The words of the skeleton. -/
def skel : List Call :=
  [.emitb w.skel0 0, .emitb w.skel1 (RAA8 ||| w.srel1)] ++
    if fmp.two then [.emitb (if fmp.negi then 0xff else w.skel2) 0, .emitb (if fmp.negi then 0xff else w.skel3) 0]
    else []

/-- The address. -/
def address (segflg : Bool) : List Call :=
  (if w.displen = 2 then
    [if segflg then .emitss (w.dispval.setWidth 16) w.disprel
      else .emitwm (w.dispval.setWidth 16) (RAA16M ||| w.disprel)] else []) ++
  if w.displen = 4 then [.emitls w.dispval w.disprel] else []

/-- The immediate value. -/
def immediate (segflg : Bool) : List Call :=
  (if w.immlen = 1 then
    [.emitb (w.immval.setWidth 16) (RAA8 ||| w.immrel), .emitb (w.immval.setWidth 16) (RAA8 ||| w.immrel)]
    else []) ++
  (if w.immlen = 2 then
    [.emitwm ((if fmp.negi then -w.immval else w.immval).setWidth 16)
      ((if segflg then RAZOF else RAA16M) ||| w.immrel)] else []) ++
  if w.immlen = 4 then
    [if segflg ∧ w.immrel ≠ 0 then .emitls w.immval w.immrel else .emitlm w.immval (RAA32M ||| w.immrel)]
  else []

/-- What `instr` emits. -/
def calls (segflg : Bool) : List Call := w.skel fmp ++ w.address segflg ++ w.immediate fmp segflg

end Fields

/-- The bytes that go to the object file. -/
def text (cs : List Call) : List Byte := (cs.flatMap Call.bytes).map fun b => b.1.setWidth 8

@[simp] theorem text_append (cs cs' : List Call) : text (cs ++ cs') = text cs ++ text cs' := by
  simp [text]

/-- The sets say what the first four bytes of a text may be. -/
structure Nibbles.Begin (s : Nibbles) (b : List Byte) : Prop where
  n0 : (hi (b.getD 0 0)).toNat = s.n0
  n1 : s.n1.testBit (lo (b.getD 0 0)).toNat = true
  n2 : s.n2.testBit (hi (b.getD 1 0)).toNat = true
  n3 : s.n3.testBit (lo (b.getD 1 0)).toNat = true
  n4 : s.n4.testBit (hi (b.getD 2 0)).toNat = true
  n5 : s.n5.testBit (lo (b.getD 2 0)).toNat = true
  n6 : s.n6.testBit (hi (b.getD 3 0)).toNat = true
  n7 : s.n7.testBit (lo (b.getD 3 0)).toNat = true

variable {fmp : Format} {w : Fields}

theorem bare_admits (fmp : Format) : fmp.bare.Admits (Fields.init fmp) := by
  have hone (n : ℕ) : (1 <<< n).testBit n = true := by
    rw [Nat.one_shiftLeft, Nat.testBit_two_pow_self]
  exact ⟨rfl, hone _, hone _, hone _, hone _, hone _, hone _, hone _⟩

/-- **The operands of a line**, when they fit. -/
theorem packed_admits {segflg : Bool} {em : Emitter} {l : List (ℕ × Action)} {optab : List Operand}
    {s : Nibbles} {v : Fields} (h : s.Admits w)
    (hd : List.Forall₂ (fun p d => OfClass p.1 d) l optab)
    (hp : Fields.packs segflg em ((l.map Prod.snd).zip optab) w = some v) :
    (l.foldl (fun s p => p.2.spread p.1 s) s).Admits v := by
  induction hd generalizing s w with
  | nil =>
    obtain rfl := Option.some.inj hp
    exact h
  | @cons p d l optab hpd _ ih =>
    rw [List.map_cons, List.zip_cons_cons, Fields.packs] at hp
    split_ifs at hp with hfit
    exact ih (h.pack hpd hfit) hp

/-- The bytes of the skeleton. -/
theorem text_skel (fmp : Format) (w : Fields) : text (w.skel fmp) =
    [w.skel0.setWidth 8, w.skel1.setWidth 8] ++
      if fmp.two then
        [if fmp.negi then 0xff else w.skel2.setWidth 8, if fmp.negi then 0xff else w.skel3.setWidth 8]
      else [] := by
  rw [Fields.skel, text_append]
  cases fmp.two <;> cases fmp.negi <;> rfl

/-- The text of a line begins with nibbles of its sets. -/
theorem head_begin (h : fmp.packed.Admits w) (x : List Byte) : fmp.head.Begin (text (w.skel fmp) ++ x) := by
  rw [text_skel, Format.head]
  cases fmp.two with
  | false => exact ⟨h.n0, h.n1, h.n2, h.n3, testBit_every_nibble _, testBit_every_nibble _,
      testBit_every_nibble _, testBit_every_nibble _⟩
  | true =>
    cases fmp.negi with
    | false => exact ⟨h.n0, h.n1, h.n2, h.n3, h.n4, h.n5, h.n6, h.n7⟩
    | true =>
      have hhi : Nat.testBit 0x8000 (hi 0xff).toNat = true := by decide
      have hlo : Nat.testBit 0x8000 (lo 0xff).toNat = true := by decide
      exact ⟨h.n0, h.n1, h.n2, h.n3, hhi, hlo, hhi, hlo⟩

/-- The sets of two lines whose texts begin alike. -/
def Nibbles.clash (s t : Nibbles) : Bool :=
  meets s.n1 t.n1 && meets s.n2 t.n2 && meets s.n3 t.n3 && meets s.n4 t.n4 && meets s.n5 t.n5 &&
    meets s.n6 t.n6 && meets s.n7 t.n7

theorem Nibbles.Begin.clash {s t : Nibbles} {b : List Byte} (hs : s.Begin b) (ht : t.Begin b) :
    s.clash t = true := by
  simp only [Nibbles.clash, Bool.and_eq_true]
  exact ⟨⟨⟨⟨⟨⟨meets_of_testBit hs.n1 ht.n1, meets_of_testBit hs.n2 ht.n2⟩, meets_of_testBit hs.n3 ht.n3⟩,
    meets_of_testBit hs.n4 ht.n4⟩, meets_of_testBit hs.n5 ht.n5⟩, meets_of_testBit hs.n6 ht.n6⟩,
    meets_of_testBit hs.n7 ht.n7⟩

/-! ## 5. The room a line takes -/

/-- The bytes of the skeleton, whether an address follows it and whether this may be a long one, and the
bytes of the immediate value. -/
structure Room where
  lead : ℕ
  disp : Option Bool
  imm : ℕ
  deriving DecidableEq

def Action.room (r : Room) : Action → Room
  | .OAX2 => { r with disp := some true }
  | .OAX3 => { r with disp := some true }
  | .OABA2 => { r with disp := some false }
  | .OABA3 => { r with disp := some false }
  | .OARA16 => { r with imm := 2 }
  | .OAIMM8 => { r with imm := 2 }
  | .OAIMM16 => { r with imm := 2 }
  | .OAIMM32 => { r with imm := 4 }
  | _ => r

def Format.room (fmp : Format) : Room :=
  fmp.fm_op.foldl (fun r p => p.2.room r) ⟨if fmp.two then 4 else 2, none, 0⟩

/-- The length of the address. -/
def Displen (segflg : Bool) : Option Bool → ℕ → Prop
  | none, n => n = 0
  | some false, n => n = 2
  | some true, n => n = 2 ∨ segflg = true ∧ n = 4

/-- The fields take this room. -/
structure Room.Takes (segflg : Bool) (r : Room) (w : Fields) : Prop where
  disp : Displen segflg r.disp w.displen
  imm : ∀ fmp, (text (w.immediate fmp segflg)).length = r.imm

theorem Room.Takes.pack {segflg : Bool} {r : Room} (h : r.Takes segflg w) (em : Emitter) (d : Operand)
    (a : Action) : (a.room r).Takes segflg (w.pack segflg em d a).1 := by
  have hindex (v : Fields) (himm : ∀ fmp, (text (v.immediate fmp segflg)).length = r.imm) :
      ({ r with disp := some true } : Room).Takes segflg (v.disp d (segflg ∧ d.op_flg &&& OFSHORT = 0)) := by
    refine ⟨?_, himm⟩
    change _ = 2 ∨ _
    cases segflg with
    | false => exact .inl rfl
    | true =>
      rw [Fields.disp]
      split
      · exact .inr ⟨rfl, rfl⟩
      · exact .inl rfl
  cases a with
  | OANULL => exact h
  | OAX2 => exact hindex _ h.imm
  | OAX3 => exact hindex _ h.imm
  | OABA2 => exact ⟨rfl, h.imm⟩
  | OABA3 => exact ⟨rfl, h.imm⟩
  | OASHFT =>
    rw [Fields.pack]
    split
    · exact ⟨h.disp, h.imm⟩
    · exact h
  | OARA16 => exact ⟨h.disp, fun fmp => rfl⟩
  | OAIMM8 => exact ⟨h.disp, fun fmp => rfl⟩
  | OAIMM16 => exact ⟨h.disp, fun fmp => rfl⟩
  | OAIMM32 =>
    refine ⟨h.disp, fun fmp => ?_⟩
    change (text [if segflg ∧ d.op_rel ≠ 0 then Call.emitls d.op_val d.op_rel
      else .emitlm d.op_val (RAA32M ||| d.op_rel)]).length = 4
    split <;> rfl
  | _ => exact ⟨h.disp, h.imm⟩

theorem takes_room {segflg : Bool} {em : Emitter} {l : List (ℕ × Action)} {optab : List Operand} {r : Room}
    {v : Fields} (hlen : l.length = optab.length) (h : r.Takes segflg w)
    (hp : Fields.packs segflg em ((l.map Prod.snd).zip optab) w = some v) :
    (l.foldl (fun r p => p.2.room r) r).Takes segflg v := by
  induction l generalizing r w optab with
  | nil =>
    obtain rfl := Option.some.inj hp
    exact h
  | cons p l ih =>
    obtain ⟨d, optab, rfl⟩ := List.exists_cons_of_length_pos (by rw [← hlen]; exact Nat.succ_pos _)
    rw [List.map_cons, List.zip_cons_cons, Fields.packs] at hp
    split_ifs at hp with hfit
    exact ih (Nat.succ.inj hlen) (h.pack em d p.2) hp

theorem init_takes (segflg : Bool) (fmp : Format) (lead : ℕ) :
    (⟨lead, none, 0⟩ : Room).Takes segflg (Fields.init fmp) := ⟨rfl, fun _ => rfl⟩

theorem Displen.cases {segflg : Bool} {k : Option Bool} {n : ℕ} (h : Displen segflg k n) :
    n = 0 ∨ n = 2 ∨ n = 4 := by
  rcases k with _ | _ | _
  · exact .inl h
  · exact .inr (.inl h)
  · exact .inr (h.imp id And.right)

theorem length_address (segflg : Bool) (h : w.displen = 0 ∨ w.displen = 2 ∨ w.displen = 4) :
    (text (w.address segflg)).length = w.displen := by
  rw [Fields.address]
  rcases h with h | h | h <;> rw [h]
  · rfl
  · cases segflg <;> rfl
  · rfl

theorem length_skel (fmp : Format) (w : Fields) : (text (w.skel fmp)).length = if fmp.two then 4 else 2 := by
  rw [text_skel]
  cases fmp.two <;> rfl

/-- The length of an instruction. -/
theorem length_calls {segflg : Bool} {r : Room} (h : r.Takes segflg w) (hr : r.lead = if fmp.two then 4 else 2) :
    (text (w.calls fmp segflg)).length = r.lead + w.displen + r.imm := by
  rw [Fields.calls, text_append, text_append, List.length_append, List.length_append, length_skel,
    length_address segflg h.disp.cases, h.imm, hr]

/-- A short address and a long one begin differently. -/
theorem emitss_begin (value reloc : BitVec 16) : ((text [.emitss value reloc]).getD 0 0).msb = false := by
  have hseg : (Emitter.segment (reloc &&& RBMSK)).toNat ≤ 0x7f := by
    rw [Emitter.segment]
    split_ifs with hle
    · exact hle
    · exact Nat.le_refl _
  change (((Emitter.segment (reloc &&& RBMSK) <<< 8 ||| value &&& 0xff) >>> 8).setWidth 8).msb = false
  generalize Emitter.segment (reloc &&& RBMSK) = seg at hseg
  have hbit : seg[7] = false := by
    rw [← BitVec.getLsbD_eq_getElem, BitVec.getLsbD, Nat.testBit_lt_two_pow (by omega)]
  simp [BitVec.msb_eq_getLsbD_last, hbit]

theorem emitls_begin (value : BitVec 32) (reloc : BitVec 16) :
    ((text [.emitls value reloc]).getD 0 0).msb = true := by
  change ((((((0x80 ||| Emitter.segment (reloc &&& RBMSK)).setWidth 32 <<< 24 ||| value &&& 0xffff) >>> 16
    ).setWidth 16 : BitVec 16) >>> 8).setWidth 8).msb = true
  simp [BitVec.msb_eq_getLsbD_last]

/-- The top bit of an address says whether it is a long one. -/
theorem address_begin (h : w.displen = 2 ∨ w.displen = 4) :
    ((text (w.address true)).getD 0 0).msb = decide (w.displen = 4) := by
  rw [Fields.address]
  rcases h with h | h <;> rw [h]
  · exact emitss_begin _ _
  · exact emitls_begin _ _

/-- Of two instructions with the same text, whose lines take the same room, both have a short address or
both a long one. -/
theorem displen_eq {segflg : Bool} {f f' : Format} {v : Fields} (hw : f.room.Takes segflg w)
    (hv : f'.room.Takes segflg v) (hdisp : f.room.disp = f'.room.disp) (htwo : f.room.disp = none ∨ f.two = f'.two)
    {x y : List Byte} (h : text (w.calls f segflg) ++ x = text (v.calls f' segflg) ++ y) :
    w.displen = v.displen := by
  have hword := hw.disp
  have hvord := hv.disp
  rw [← hdisp] at hvord
  match hk : f.room.disp with
  | none =>
    rw [hk] at hword hvord
    exact hword.trans hvord.symm
  | some false =>
    rw [hk] at hword hvord
    exact hword.trans hvord.symm
  | some true =>
    rw [hk] at hword hvord htwo
    have htwo := htwo.resolve_left (by simp)
    -- the first byte of the address
    have hbyte (g : Format) (u : Fields) (z : List Byte) (hu : u.displen = 2 ∨ u.displen = 4) :
        (text (u.calls g segflg) ++ z).getD (if g.two then 4 else 2) 0 = (text (u.address segflg)).getD 0 0 := by
      have hlen := length_address segflg (.inr hu)
      rw [Fields.calls, text_append, text_append, List.append_assoc, List.append_assoc,
        List.getD_append_right _ _ _ _ (by rw [length_skel]), length_skel, Nat.sub_self,
        List.getD_append _ _ _ _ (by omega)]
    have hfirst : (text (w.address segflg)).getD 0 0 = (text (v.address segflg)).getD 0 0 := by
      rw [← hbyte f w x (hword.imp id And.right), ← hbyte f' v y (hvord.imp id And.right), h, htwo]
    cases segflg with
    | false =>
      rw [hword.resolve_right (by simp), hvord.resolve_right (by simp)]
    | true =>
      have hmsb := address_begin (hword.imp id And.right)
      rw [hfirst, address_begin (hvord.imp id And.right), decide_eq_decide] at hmsb
      rcases hword with hw | ⟨-, hw⟩ <;> rcases hvord with hv | ⟨-, hv⟩ <;> rw [hw, hv] <;> omega

/-! ## 6. Which lines may begin alike -/

/-- The lines, with the numbers of their instructions. -/
def table : List (ℕ × Format) := opcodes.zipIdx.flatMap fun o => o.1.lines.map fun f => (o.2, f)

/-- Lines of one instruction, or of a left and a right shift, with one skeleton and the same room. -/
structure Alike (p q : ℕ × Format) : Prop where
  skel : p.2.fm_skel = q.2.fm_skel
  opcode : p.1 = q.1 ∨ p.2.negi ≠ q.2.negi
  disp : p.2.room.disp = q.2.room.disp
  two : p.2.room.disp = none ∨ p.2.two = q.2.two
  room : p.2.room.lead + p.2.room.imm = q.2.room.lead + q.2.room.imm

theorem alike_iff (p q : ℕ × Format) : Alike p q ↔
    p.2.fm_skel = q.2.fm_skel ∧ (p.1 = q.1 ∨ p.2.negi ≠ q.2.negi) ∧ p.2.room.disp = q.2.room.disp ∧
    (p.2.room.disp = none ∨ p.2.two = q.2.two) ∧
    p.2.room.lead + p.2.room.imm = q.2.room.lead + q.2.room.imm :=
  ⟨fun h => ⟨h.skel, h.opcode, h.disp, h.two, h.room⟩, fun ⟨h₁, h₂, h₃, h₄, h₅⟩ => ⟨h₁, h₂, h₃, h₄, h₅⟩⟩

instance (p q : ℕ × Format) : Decidable (Alike p q) := decidable_of_iff' _ (alike_iff p q)

theorem Alike.refl (p : ℕ × Format) : Alike p p := ⟨rfl, .inl rfl, rfl, .inr rfl, rfl⟩

theorem Alike.symm {p q : ℕ × Format} (h : Alike p q) : Alike q p := by
  refine ⟨h.skel.symm, h.opcode.imp Eq.symm Ne.symm, h.disp.symm, ?_, h.room.symm⟩
  rw [← h.disp]
  exact h.two.imp id Eq.symm

/-- Two lines are alike, if a text can begin as both say. -/
def apart (p q : ℕ × Format) : Bool := !p.2.head.clash q.2.head || Alike p q

def allApart : List (ℕ × Format) → Bool
  | [] => true
  | p :: l => l.all (apart p) && allApart l

theorem apart_symm {p q : ℕ × Format} (h : apart p q = true) : apart q p = true := by
  have hmeets (s t : ℕ) : meets s t = meets t s := by
    rw [meets, meets, Nat.and_comm]
  have hclash (s t : Nibbles) : s.clash t = t.clash s := by
    simp only [Nibbles.clash, hmeets]
  simp only [apart, Bool.or_eq_true, decide_eq_true_eq] at h ⊢
  rw [hclash]
  exact h.imp id Alike.symm

theorem apart_of_mem {l : List (ℕ × Format)} (h : allApart l = true) {p q : ℕ × Format} (hp : p ∈ l)
    (hq : q ∈ l) : apart p q = true := by
  induction l with
  | nil => cases hp
  | cons r l ih =>
    rw [allApart, Bool.and_eq_true, List.all_eq_true] at h
    rcases List.mem_cons.mp hp with rfl | hp' <;> rcases List.mem_cons.mp hq with rfl | hq'
    · simp [apart, Alike.refl]
    · exact h.1 q hq'
    · exact apart_symm (h.1 p hp')
    · exact ih h.2 hp' hq'

/-- The lines of the table, one first nibble after the other. -/
theorem table_apart :
    ((List.range 16).all fun n => allApart (table.filter fun p => p.2.head.n0 = n)) = true := by
  decide +kernel

/-- **Two lines with which one text can begin are alike.** -/
theorem alike_of_begin {p q : ℕ × Format} (hp : p ∈ table) (hq : q ∈ table) {b : List Byte}
    (hb : p.2.head.Begin b) (hb' : q.2.head.Begin b) : Alike p q := by
  have hn := List.all_eq_true.mp table_apart (hi (b.getD 0 0)).toNat (List.mem_range.mpr (hi _).isLt)
  have happart := apart_of_mem hn (List.mem_filter.mpr ⟨hp, decide_eq_true hb.n0.symm⟩)
    (List.mem_filter.mpr ⟨hq, decide_eq_true hb'.n0.symm⟩)
  rw [apart, hb.clash hb', Bool.not_true, Bool.false_or] at happart
  exact of_decide_eq_true happart

/-! ## 7. Instructions -/

/-- The fields of an instruction, packed by a line of the table. -/
structure Packed (segflg : Bool) (p : ℕ × Format) (w : Fields) : Prop where
  mem : p ∈ table
  admits : p.2.packed.Admits w
  takes : p.2.room.Takes segflg w

/-- Operands of the classes of a line, which fit. -/
theorem Packed.of_packs {segflg : Bool} {em : Emitter} {p : ℕ × Format} {optab : List Operand}
    (hp : p ∈ table) (hd : List.Forall₂ (fun o d => OfClass o.1 d) p.2.fm_op optab)
    (hw : Fields.packs segflg em ((p.2.fm_op.map Prod.snd).zip optab) (Fields.init p.2) = some w) :
    Packed segflg p w where
  mem := hp
  admits := packed_admits (bare_admits p.2) hd hw
  takes := takes_room hd.length_eq (init_takes segflg p.2 _) hw

theorem room_lead (fmp : Format) : fmp.room.lead = if fmp.two then 4 else 2 := by
  have hkeep (l : List (ℕ × Action)) (r : Room) : (l.foldl (fun r p => p.2.room r) r).lead = r.lead := by
    induction l generalizing r with
    | nil => rfl
    | cons p l ih =>
      obtain ⟨c, a⟩ := p
      refine (ih _).trans ?_
      cases a <;> rfl
  exact hkeep _ _

/-- **Two instructions that begin one text** are of alike lines, and of one length. -/
theorem Packed.alike {segflg : Bool} {p q : ℕ × Format} {v : Fields} (hw : Packed segflg p w)
    (hv : Packed segflg q v) {x y : List Byte}
    (h : text (w.calls p.2 segflg) ++ x = text (v.calls q.2 segflg) ++ y) :
    Alike p q ∧ (text (w.calls p.2 segflg)).length = (text (v.calls q.2 segflg)).length := by
  have hbegin {r : ℕ × Format} {u : Fields} (hu : Packed segflg r u) (z : List Byte) :
      r.2.head.Begin (text (u.calls r.2 segflg) ++ z) := by
    rw [Fields.calls, text_append, text_append, List.append_assoc, List.append_assoc]
    exact head_begin hu.admits _
  have halike := alike_of_begin hw.mem hv.mem (hbegin hw x) (h ▸ hbegin hv y)
  refine ⟨halike, ?_⟩
  have hdisp := displen_eq hw.takes hv.takes halike.disp halike.two h
  have hroom := halike.room
  rw [length_calls hw.takes (room_lead p.2), length_calls hv.takes (room_lead q.2), hdisp]
  omega

end Cpm8000.Asm
