/-
# The remainder, step by step

`Fremstep` divides until the quotient is the integer next to the exact one, at most 127 bits of it, and
sets the carry; when there would be more, it takes 64 steps, clears the carry and leaves a dividend
that is to be divided again.

* `FRemS70_spec`: quotient and remainder of any number of steps.
* `FRemS36_exact`: a remainder goes through normalising, rounding and the checks as it is.
* `remno_small`, `remno_done`: up to 127 steps leave the remainder of the integer next to the quotient, the
  even one of two.
-/
import Cpm8000.Fpe.Align
import Cpm8000.Fpe.Compare
import Cpm8000.Fpe.Div
import Cpm8000.Fpe.Fint

namespace Cpm8000.Fpe

open Arith

/-! ## 1. The code -/

/-- Extend the sign of a word. -/
def exts (x : BitVec 16) : BitVec 32 := x.signExtend 32

/-- Normalise the dividend; `none` when the fuel runs out. -/
def FRemS1 : ℕ → BitVec 16 → Quad → Option (BitVec 16 × Quad)
  | 0, _, _ => none
  | fuel + 1, r1, rq2 =>
    let r1 := (sub r1 1).val
    let rq2 := (addlq rq2 rq2).val
    if rq2.w0.getLsbD 15 then some (r1, rq2) else FRemS1 fuel r1 rq2

/-- Divide, r0 quotient bits, and add the divisor back when the last step borrowed. -/
def FRemS70 (r0 : BitVec 16) (dvd dvr : Quad) : Quad × Quad :=
  let q := nonrestore r0 dvd dvr
  (avenged dvr q, q.rq8)

/-- Normalise, round and check. -/
def FRemS36 (e : Env) (s : Acc) : Option Acc :=
  (normordigs s).map fun s => overRange e (round e (under e s))

/-- Finish: the digits `rq4` and the exponent `rr6` of the remainder, whose sign is that of the dividend,
rh2, or the other by r0; three bits of the quotient r11 go to the flags. -/
def FRemS30 (e : Env) (quo rh2 : BitVec 8) (rr6 : BitVec 32) (r0 r11 : BitVec 16) (rq4 : Quad) (s : Acc) :
    Option (BitVec 8 × Acc) :=
  let rl1 := lob (0x0E &&& r11)
  let rl1 := (rl (rl rl1).val).val
  (FRemS36 e { s with rh6 := hib r0 ^^^ rh2, rl6 := lob (hiw rr6), r7 := low rr6, rq8 := rq4 }).map
    fun s => (quo ||| rl1, s)

/-- Two nonzero, finite numbers. -/
def remno (e : Env) (quo : BitVec 8) (dst : Op) (s : Acc) : Option (BitVec 8 × Acc) :=
  if !s.rq8.w0.getLsbD 15 then some (quo, resinv s)
  else
    (if dst.rq8.w0.getLsbD 15 then some (dst.r7, dst.rq8) else FRemS1 64 dst.r7 dst.rq8).bind fun dvd =>
      let r7 := (sub s.r7 2).val
      let rr0 := sub (exts dvd.1) (exts r7)
      if ¬ (exts r7).slt (exts dvd.1) then FRemS30 e quo dst.rh6 (exts dvd.1) 0 0 dvd.2 s
      else if (low rr0.val).toNat ≤ 127 then
        let rr6 := exts (add r7 1).val
        let q := FRemS70 (low rr0.val) dvd.2 s.rq8
        let r11 := q.2.w3
        if !r11.getLsbD 0 then FRemS30 e quo dst.rh6 rr6 0 r11 q.1 s
        else
          let rem := (sublq s.rq8 q.1).val
          if q.1.hi = 0 ∧ q.1.lo = 0 ∧ !r11.getLsbD 1 then FRemS30 e quo dst.rh6 rr6 0 r11 rem s
          else FRemS30 e quo dst.rh6 rr6 0x8000 (add r11 2).val rem s
      else
        let rr6 := (sub (exts dvd.1) 64).val
        let q := FRemS70 64 dvd.2 s.rq8
        some (res quo 7, { s with rh6 := dst.rh6, rl6 := lob (hiw rr6), r7 := low rr6, rq8 := q.1 })

/-- Stuff positive 0. -/
def reszero (s : Acc) : Acc := { s with rh6 := 0, rl6 := 0, r7 := 0, rq8 := Quad.zero }

/-- The zero has the sign of the dividend. -/
def remnz (dst : Op) (s : Acc) : Acc :=
  { reszero s with rh6 := (reszero s).rh6 ||| (dst.rh6 &&& 0x80) }

/-- The routines of the remainder. -/
inductive RemCase where
  | remno
  | reminv
  | remnod
  | resnsrc
  | remnz
  | resndst
  | dotrap

/-- The routine for a pair of operands; `resprec` goes to `resnsrc`. -/
def actrem : List RemCase :=
  [.remno, .reminv, .remnod, .resnsrc,
    .remnz, .reminv, .remnz, .resnsrc,
    .reminv, .reminv, .reminv, .resnsrc,
    .resndst, .resndst, .resndst, .resnsrc,
    .dotrap]

/-- The operand dst in the place of the result. -/
def resdst (dst : Op) (s : Acc) : Acc := { s with toOp := dst }

/-- The routine of a case. -/
def runRem (e : Env) (quo : BitVec 8) (dst : Op) (s : Acc) : RemCase → Option (BitVec 8 × Acc)
  | .remno => remno e quo dst s
  | .reminv => some (quo, resinv s)
  | .remnod => (FRemS36 e (resdst dst s)).map fun s => (quo, s)
  | .resnsrc => some (quo, resnsrc e s)
  | .remnz => some (quo, remnz dst s)
  | .resndst => some (quo, resnsrc e (resdst dst s))
  | .dotrap => some (quo, Cpm8000.Fpe.dotrap e s)

/-- The flags to begin with: the carry, and below it the sign of the quotient. -/
def quoFlags (dst src : Op) : BitVec 8 := set (rr ((dst.rh6 ^^^ src.rh6) &&& 0x80)).val 7

/-- **Remainder step.**  The flags, the errors and the result; `c` is the carry the tests of delivery
leave. -/
def Fremstep (e : Env) (c : Bool) (rh5 : BitVec 8) (dst src : Packed) :
    Option (BitVec 8 × BitVec 8 × Packed) :=
  (setup dst src rh5).bind fun o =>
    let s : Acc := { o.src.toOp with rh5 := o.rh5, rl5 := 0 }
    (runRem e (quoFlags o.dst.toOp o.src.toOp) o.dst.toOp s ((actrem[o.r1.toNat]?).getD .dotrap)).bind fun t =>
      (delivery e c t.2).map fun p => (t.1, t.2.rh5, p)

/-- The operation repeated on its own result until it sets the carry: the results before, the flags and
the result at last. -/
def repeated (e : Env) (c : Bool) (rh5 : BitVec 8) (src : Packed) :
    ℕ → Packed → Option (List Packed × BitVec 8 × Packed)
  | 0, _ => none
  | fuel + 1, dst =>
    (Fremstep e c rh5 dst src).bind fun t =>
      if t.1.getLsbD 7 then some ([], t.1, t.2.2)
      else (repeated e c rh5 src fuel t.2.2).map fun r => (t.2.2 :: r.1, r.2)

/-! ## 2. Exponents -/

theorem exts_toInt (x : BitVec 16) : (exts x).toInt = x.toInt := BitVec.toInt_signExtend_of_le (by decide)

/-- A word as a signed number and as an unsigned one. -/
theorem toNat_of_toInt {w : ℕ} (x : BitVec w) : ∃ m : ℤ, (x.toNat : ℤ) = x.toInt + 2 ^ w * m := by
  rw [BitVec.toInt_eq_toNat_cond]
  split_ifs
  · exact ⟨0, by ring⟩
  · refine ⟨1, ?_⟩
    push_cast
    ring

/-- Subtracting signed numbers. -/
theorem sub_toInt {w : ℕ} (x y : BitVec w) :
    ∃ m : ℤ, ((sub x y).val.toNat : ℤ) = x.toInt - y.toInt + 2 ^ w * m := by
  have h := sub_spec x y
  obtain ⟨a, ha⟩ := toNat_of_toInt x
  obtain ⟨b, hb⟩ := toNat_of_toInt y
  refine ⟨a - b + (sub x y).c.toNat, ?_⟩
  have hz : ((sub x y).val.toNat : ℤ) + y.toNat = x.toNat + 2 ^ w * (sub x y).c.toNat := by
    exact_mod_cast h
  rw [ha, hb] at hz
  linear_combination hz

/-- The signed number a word stands for, from its unsigned one. -/
theorem toInt_of_mod {x : BitVec 16} {E m : ℤ} (h : (x.toNat : ℤ) = E + 2 ^ 16 * m) (h1 : -2 ^ 15 ≤ E)
    (h2 : E < 2 ^ 15) : x.toInt = E := by
  have hlt := x.isLt
  rw [BitVec.toInt_eq_toNat_cond]
  split_ifs <;> omega

/-- **The difference of the exponents**, and the exponents of the results. -/
theorem rem_exponents {d s : Op} (hd : d.InFormat) (hs : s.InFormat) :
    (exts d.r7).toInt = d.expo ∧
      ((exts (sub s.r7 2).val).slt (exts d.r7) = true ↔ s.expo - 2 < d.expo) ∧
      (s.expo - 2 < d.expo →
        ((low (sub (exts d.r7) (exts (sub s.r7 2).val)).val).toNat : ℤ) = d.expo - s.expo + 2) ∧
      (exts (add (sub s.r7 2).val 1).val).toInt = s.expo - 1 ∧
      (64 ≤ d.expo → (sub (exts d.r7) 64).val.toInt = d.expo - 64) := by
  have hd7 := hd.toInt_r7
  have hs7 := hs.toInt_r7
  obtain ⟨hd1, hd2⟩ := hd
  obtain ⟨hs1, hs2⟩ := hs
  have h2 : (2 : BitVec 16).toInt = 2 := rfl
  have hless : (sub s.r7 2).val.toInt = s.expo - 2 := by
    obtain ⟨m, hm⟩ := sub_toInt s.r7 2
    rw [hs7, h2] at hm
    exact toInt_of_mod hm (by omega) (by omega)
  have hx := exts_toInt d.r7
  have hy := exts_toInt (sub s.r7 2).val
  rw [hd7] at hx
  rw [hless] at hy
  refine ⟨hx, ?_, fun hlt => ?_, ?_, fun hle => ?_⟩
  · rw [BitVec.slt_eq_decide, hx, hy, decide_eq_true_eq]
  · obtain ⟨m, hm⟩ := sub_toInt (exts d.r7) (exts (sub s.r7 2).val)
    rw [hx, hy] at hm
    rw [toNat_low]
    omega
  · have hadd := add_spec (sub s.r7 2).val 1
    have h1 : (1 : BitVec 16).toNat = 1 := rfl
    obtain ⟨m, hm⟩ := toNat_of_toInt (sub s.r7 2).val
    rw [exts_toInt]
    rw [h1] at hadd
    generalize add (sub s.r7 2).val 1 = t at hadd ⊢
    have hz : (t.val.toNat : ℤ) + 2 ^ 16 * t.c.toNat = (sub s.r7 2).val.toNat + 1 := by exact_mod_cast hadd
    rw [hm, hless] at hz
    have hmod : (t.val.toNat : ℤ) = s.expo - 1 + 2 ^ 16 * (m - t.c.toNat) := by linear_combination hz
    exact toInt_of_mod hmod (by omega) (by omega)
  · obtain ⟨m, hm⟩ := sub_toInt (exts d.r7) 64
    have h64 : (64 : BitVec 32).toInt = 64 := rfl
    rw [hx, h64] at hm
    have hlt := (sub (exts d.r7) 64).val.isLt
    rw [BitVec.toInt_eq_toNat_cond]
    split_ifs <;> omega

/-- An exponent put into an operand. -/
theorem expBits_of_toInt (x : BitVec 32) {E : ℤ} (h : x.toInt = E) (b : BitVec 8) (q : Quad) :
    ∃ m : ℤ, (Op.expBits ⟨b, lob (hiw x), low x, q⟩ : ℤ) = E + 2 ^ 24 * m := by
  obtain ⟨k, hk⟩ := toNat_of_toInt x
  have hw := expWord x
  refine ⟨2 ^ 8 * k - x.toNat / 2 ^ 24, ?_⟩
  rw [Op.expBits, hw]
  push_cast
  omega

/-! ## 3. An exact result -/

/-- A significand of 64 bits is not rounded, nor is a zero. -/
theorem round_full {e : Env} (hp : e.prec = 64) {s : Acc} (h5 : s.rl5 = 0) : (round e s).toOp = s.toOp := by
  have hd : s.digits = s.digits * 2 ^ (64 - e.prec) := by
    rw [hp]
    exact (Nat.mul_one _).symm
  exact (round_exact e h5 hd).1

/-- Normalising always returns. -/
theorem normordigs_isSome (s : Acc) : ∃ r, normordigs s = some r := by
  by_cases h : s.wide = 0
  · exact ⟨_, normordigs_of_zero h⟩
  · obtain ⟨-, r, hr, -⟩ := normordigs_spec h
    exact ⟨r, hr⟩

theorem FRemS36_isSome (e : Env) (s : Acc) : ∃ t, FRemS36 e s = some t := by
  obtain ⟨r, hr⟩ := normordigs_isSome s
  exact ⟨_, by rw [FRemS36, hr]; rfl⟩

theorem delivery_isSome (e : Env) (c : Bool) (s : Acc) : ∃ p, delivery e c s = some p := by
  obtain ⟨r, hr⟩ := normordigs_isSome s
  unfold delivery dlvry54
  split_ifs
  · exact ⟨_, rfl⟩
  · exact ⟨_, rfl⟩
  · exact ⟨_, by rw [hr]; rfl⟩
  · exact ⟨_, rfl⟩
  · exact ⟨_, rfl⟩

/-- A zero stays one. -/
theorem FRemS36_zero {e : Env} (he : e.Register) (hp : e.prec = 64) {s : Acc} (h5 : s.rl5 = 0)
    (h0 : s.digits = 0) :
    ∃ t, FRemS36 e s = some t ∧ t.digits = 0 ∧ t.r7.toNat = 0 ∧ t.rh6 = s.rh6 := by
  have hwide : s.wide = 0 := by
    rw [Acc.wide, h0, h5]
    rfl
  obtain ⟨z, hz⟩ : ∃ z : Acc, z = { s with r7 := 0, rl6 := 0 } := ⟨_, rfl⟩
  have hz5 : z.rl5 = 0 := by
    rw [hz]
    exact h5
  have hz7 : z.r7 = 0 ∧ z.rl6 = 0 ∧ z.digits = s.digits ∧ z.rh6 = s.rh6 := by
    rw [hz]
    exact ⟨rfl, rfl, rfl, rfl⟩
  obtain ⟨h7, h6, hdig, hrh6⟩ := hz7
  have hzbits : z.expBits = 0 := by
    rw [Op.expBits, h7, h6]
    rfl
  have hsame := round_full hp hz5
  have hbits : (round e z).expBits = 0 := by rw [hsame, hzbits]
  refine ⟨round e z, ?_, ?_, ?_, ?_⟩
  · rw [FRemS36, normordigs_of_zero hwide, ← hz, Option.map_some,
      under_of_inRange he (by omega), overRange_of_inRange he (by omega)]
  · rw [hsame, hdig, h0]
  · rw [hsame, h7]
    rfl
  · rw [hsame, hrh6]

/-- **A number of the range stays as it is**, normalised. -/
theorem FRemS36_exact {e : Env} (he : e.Register) (hp : e.prec = 64) {s : Acc} (h5 : s.rl5 = 0)
    (h0 : 0 < s.digits) {E m : ℤ} (hE : (s.expBits : ℤ) = E + 2 ^ 24 * m)
    (hr : InRange ((s.digits : ℚ) * 2 ^ (E - bias - 63))) :
    ∃ t, FRemS36 e s = some t ∧ t.Normal ∧ t.expBits ≤ 0x7FFE ∧ t.rh6 = s.rh6 ∧
      t.mag = s.digits * 2 ^ (E - bias - 63) := by
  obtain ⟨n, r, hnorm, hN, hlow, hdig, -⟩ := normordigs_exact h5 h0
  have hmag : (s.digits : ℚ) * 2 ^ (E - bias - 63) = r.digits * 2 ^ (E - n - bias - 63) := by
    have hz : (2 : ℚ) ^ (E - bias - 63) = 2 ^ n * 2 ^ (E - n - bias - 63) := by
      rw [← zpow_natCast, ← zpow_add₀ (by norm_num)]
      congr 1
      ring
    rw [hz, hdig]
    push_cast
    ring
  have hexp := hN.expBits
  have hlt := r.expBits_lt
  -- the exponent of the number is one of the range, so nothing is wrapped
  have hbits : (r.expBits : ℤ) = E - n ∧ r.expBits ≤ 0x7FFE := by
    have hn : (2 : ℚ) ^ 63 ≤ r.digits := by exact_mod_cast hN.normal
    have hd : (r.digits : ℚ) < 2 ^ 64 := by exact_mod_cast r.digits_lt
    have hexpOf := expOf_scaled false (E - n) hn hd
    rw [signed_false, ← hmag] at hexpOf
    rw [InRange, hexpOf] at hr
    omega
  have hsame := round_full hp hlow
  have hsame' : (round e r).expBits = r.expBits := by rw [hsame]
  refine ⟨round e r, ?_, ?_, by omega, ?_, ?_⟩
  · rw [FRemS36, hnorm, Option.map_some, under_of_inRange he (by omega), overRange_of_inRange he (by omega)]
  · rw [hsame]
    exact hN.normal
  · rw [hsame, hN.rh6]
  · have hexpo : r.expo = E - n := by
      rw [Op.expo, if_pos (by omega)]
      exact hbits.1
    rw [hsame, Op.mag, hexpo, hmag]

/-! ## 4. Flags -/

/-- Bit 6 is the sign of the quotient. -/
theorem quoFlags_eq (dst src : Op) : quoFlags dst src = if dst.neg ^^ src.neg then 0xC0 else 0x80 := by
  have hall : ∀ x : BitVec 8, set (rr (x &&& 0x80)).val 7 = if x.getLsbD 7 then 0xC0 else 0x80 := by
    decide +kernel
  rw [quoFlags, hall, BitVec.getLsbD_xor]
  rfl

/-- **The flags**: the carry, the sign and three bits of the quotient. -/
theorem flags_toNat (b : Bool) (r11 : BitVec 16) :
    ((if b then 0xC0 else 0x80 : BitVec 8) ||| (rl (rl (lob (0x0E &&& r11))).val).val).toNat =
      128 + 64 * b.toNat + 8 * (r11.toNat / 2 % 8) := by
  have hall : ∀ (b : Bool) (x : BitVec 8),
      ((if b then 0xC0 else 0x80 : BitVec 8) ||| (rl (rl (0x0E &&& x)).val).val).toNat =
        128 + 64 * b.toNat + 8 * (x.toNat / 2 % 8) := by
    decide +kernel
  have hlob : lob (0x0E &&& r11) = 0x0E &&& lob r11 := by
    apply BitVec.eq_of_toNat_eq
    rw [toNat_lob, BitVec.toNat_and, BitVec.toNat_and, toNat_lob]
    exact (Nat.and_mod_two_pow (n := 8)).trans rfl
  rw [hlob, hall, toNat_lob]
  omega

/-! ## 5. The integer next to a quotient -/

/-- **The remainder** of `x` by `y`: `n` is the integer next to the quotient, the even one of two. -/
structure IsRemainder (x y : ℚ) (n : ℤ) (ρ : ℚ) : Prop where
  eq : ρ = x - n * y
  near : |x / y - n| ≤ 1 / 2
  even : |x / y - n| = 1 / 2 → Even n

/-- The remainder in terms of half the divisor. -/
theorem isRemainder_of {M D u t : ℚ} {m : ℤ} (hD : 0 < D) (hu : 0 < u) (ht : t = M - 2 * D * m)
    (hle : |t| ≤ D) (heven : |t| = D → Even m) : IsRemainder (M * u) (2 * D * u) m (t * u) := by
  have hquot : M * u / (2 * D * u) - m = t / (2 * D) := by
    rw [ht, mul_div_mul_right _ _ hu.ne']
    field_simp
  have habs : |M * u / (2 * D * u) - m| = |t| / (2 * D) := by
    rw [hquot, abs_div, abs_of_pos (by positivity : (0 : ℚ) < 2 * D)]
  refine ⟨?_, ?_, fun hhalf => heven ?_⟩
  · rw [ht]
    ring
  · rw [habs, div_le_div_iff₀ (by positivity) (by norm_num)]
    linarith
  · rw [habs, div_eq_div_iff (by positivity) (by norm_num)] at hhalf
    linarith

/-- The remainder of signed numbers. -/
theorem IsRemainder.of_signs {x y ρ : ℚ} {n : ℤ} (h : IsRemainder x y n ρ) (a b : Bool) :
    IsRemainder (signed a x) (signed b y) (if a ^^ b then -n else n) (signed a ρ) := by
  have hcast : ((if a ^^ b then -n else n : ℤ) : ℚ) = signed (a ^^ b) (n : ℚ) := by
    cases a ^^ b <;> simp
  have hdiv : |signed a x / signed b y - ((if a ^^ b then -n else n : ℤ) : ℚ)| = |x / y - n| := by
    rw [hcast, signed_div, abs_signed_sub]
  refine ⟨?_, hdiv ▸ h.near, fun hhalf => ?_⟩
  · rw [h.eq, hcast]
    cases a <;> cases b <;> simp <;> ring
  · have heven := h.even (hdiv ▸ hhalf)
    split_ifs
    · exact heven.neg
    · exact heven

/-! ## 6. Division steps -/

/-- **Any number of division steps.** -/
theorem FRemS70_spec {r0 : BitVec 16} {k : ℕ} (hr0 : r0.toNat = k + 1) {dvd dvr : Quad}
    (hM : dvd.toNat < 2 * dvr.toNat) :
    (FRemS70 r0 dvd dvr).1.toNat = 2 ^ k * dvd.toNat % dvr.toNat ∧
      (FRemS70 r0 dvd dvr).2.toNat = 2 ^ k * dvd.toNat / dvr.toNat % 2 ^ 64 := by
  have hlt := r0.isLt
  have hk : (r0 - 1).toNat = k := by
    have h1 : (1 : BitVec 16).toNat = 1 := rfl
    rw [BitVec.toNat_sub, h1]
    omega
  have hdivided := nonrestore_divided hM k
  rw [← hk, ← nonrestore, hk] at hdivided
  exact ⟨hdivided.avenged (by omega), hdivided.quo⟩

/-- The last words of a quotient. -/
theorem toNat_w3 (q : Quad) : q.w3.toNat = q.toNat % 2 ^ 16 := by
  have h := q.w3.isLt
  rw [Quad.toNat]
  omega

/-- What a finished remainder is put together from. -/
structure Done (e : Env) (d : Op) (s : Acc) (m : ℕ) (ρ : ℚ) (t : Option (BitVec 8 × Acc)) : Prop where
  rem : ∃ (rr6 : BitVec 32) (r11 : BitVec 16) (rem : Quad) (flip : Bool) (E : ℤ),
    t = FRemS30 e (quoFlags d s.toOp) d.rh6 rr6 (if flip then 0x8000 else 0) r11 rem s ∧ rr6.toInt = E ∧
      r11.toNat / 2 % 8 = m % 8 ∧ (flip = true → 0 < rem.toNat) ∧
        ρ = signed flip ((rem.toNat : ℚ) * 2 ^ (E - bias - 63))
  isRem : IsRemainder d.mag s.mag m ρ

/-- The dividend is less than half the divisor. -/
theorem remno_small (e : Env) {d : Op} {s : Acc} (hd : d.Normal) (hs : s.Normal) (hd' : d.InFormat)
    (hs' : s.InFormat) (h : d.expo ≤ s.expo - 2) : Done e d s 0 d.mag (remno e (quoFlags d s.toOp) d s) := by
  obtain ⟨hx, hslt, -⟩ := rem_exponents hd' hs'
  have hs15 : s.rq8.w0.getLsbD 15 = true := (Quad.getLsbD_w0_iff _).mpr hs
  have hd15 : d.rq8.w0.getLsbD 15 = true := (Quad.getLsbD_w0_iff _).mpr hd
  have hnot : ¬ (exts (sub s.r7 2).val).slt (exts d.r7) = true := fun hc => by
    have := hslt.mp hc
    omega
  constructor
  · refine ⟨exts d.r7, 0, d.rq8, false, d.expo, ?_, hx, rfl, fun hc => absurd hc Bool.false_ne_true, rfl⟩
    simp only [remno, hs15, hd15, if_true, Option.bind_some, Bool.not_true, Bool.false_eq_true, if_false]
    rw [if_pos hnot]
  · have hhalf : 2 * d.mag < s.mag := by
      have hdig : (d.digits : ℚ) < 2 ^ 64 := by exact_mod_cast d.digits_lt
      have hsig : (2 : ℚ) ^ 63 ≤ s.digits := by exact_mod_cast hs
      have hpow : (2 : ℚ) ^ (d.expo - bias - 63) ≤ 2 ^ (s.expo - bias - 63) / 4 := by
        have hle : (2 : ℚ) ^ (d.expo - bias - 63) ≤ 2 ^ (s.expo - bias - 63 - 2) :=
          zpow_le_zpow_right₀ (by norm_num) (by omega)
        generalize s.expo - bias - 63 = x at hle ⊢
        calc (2 : ℚ) ^ (d.expo - bias - 63) ≤ 2 ^ (x - 2) := hle
          _ = 2 ^ x / 4 := by
            rw [zpow_sub₀ (by norm_num)]
            norm_num
      have hpos : (0 : ℚ) < 2 ^ (s.expo - bias - 63) := zpow_pos (by norm_num) _
      have hdpos : (0 : ℚ) < 2 ^ (d.expo - bias - 63) := zpow_pos (by norm_num) _
      rw [Op.mag, Op.mag]
      generalize (2 : ℚ) ^ (s.expo - bias - 63) = b at hpow hpos ⊢
      generalize (2 : ℚ) ^ (d.expo - bias - 63) = a at hpow hdpos ⊢
      calc 2 * (d.digits * a) < 2 * (2 ^ 64 * a) := by
            have hmul := mul_lt_mul_of_pos_right hdig hdpos
            linarith
        _ ≤ 2 ^ 63 * b := by linarith
        _ ≤ s.digits * b := mul_le_mul_of_nonneg_right hsig hpos.le
    have hsm : 0 < s.mag := hs.mag_pos
    have hquot : |d.mag / s.mag - ((0 : ℕ) : ℤ)| < 1 / 2 := by
      rw [Nat.cast_zero, Int.cast_zero, sub_zero, abs_of_pos (div_pos hd.mag_pos hsm),
        div_lt_div_iff₀ hsm (by norm_num)]
      linarith
    refine ⟨by simp, hquot.le, fun heq => absurd heq hquot.ne⟩

/-! ## 7. Up to 127 steps -/

/-- The last bit of the quotient is clear: the remainder is the one left. -/
theorem isRemainder_below {M D R n : ℕ} {u : ℚ} (hM : M = 2 * n * D + R) (hR : R < D) (hu : 0 < u) :
    IsRemainder (M * u) (2 * D * u) n (R * u) := by
  have hD : (0 : ℚ) < D := by exact_mod_cast Nat.zero_lt_of_lt hR
  have hlt : (R : ℚ) < D := by exact_mod_cast hR
  refine isRemainder_of hD hu ?_ ?_ fun heq => ?_
  · rw [hM]
    push_cast
    ring
  · rw [Nat.abs_cast]
    exact hlt.le
  · rw [Nat.abs_cast] at heq
    exact absurd heq hlt.ne

/-- The quotient lies half way above an even integer: half the divisor is left. -/
theorem isRemainder_half {M D n : ℕ} {u : ℚ} (hM : M = (2 * n + 1) * D) (hD : 0 < D) (hu : 0 < u)
    (hn : Even n) : IsRemainder (M * u) (2 * D * u) n (D * u) := by
  have hD' : (0 : ℚ) < D := by exact_mod_cast hD
  refine isRemainder_of hD' hu ?_ (le_of_eq (Nat.abs_cast D)) fun _ => (Int.even_coe_nat n).mpr hn
  rw [hM]
  push_cast
  ring

/-- The quotient lies above half way, or half way below an even integer: what lacks is the remainder. -/
theorem isRemainder_above {M D R n : ℕ} {u : ℚ} (hM : M = (2 * n + 1) * D + R) (hR : R < D) (hu : 0 < u)
    (hn : R = 0 → Odd n) :
    IsRemainder (M * u) (2 * D * u) (n + 1 : ℕ) (-((D - R : ℕ) : ℚ) * u) := by
  have hD : (0 : ℚ) < D := by exact_mod_cast Nat.zero_lt_of_lt hR
  have hsub : ((D - R : ℕ) : ℚ) = D - R := Nat.cast_sub hR.le
  have habs : |(-((D - R : ℕ) : ℚ))| = D - R := by rw [abs_neg, Nat.abs_cast, hsub]
  refine isRemainder_of hD hu ?_ ?_ fun heq => ?_
  · rw [hM, hsub]
    push_cast
    ring
  · rw [habs, sub_le_self_iff]
    exact Nat.cast_nonneg R
  · rw [habs, sub_eq_self, Nat.cast_eq_zero] at heq
    exact (Int.even_coe_nat _).mpr (hn heq).add_one

/-- Three bits of the integer next below half a quotient. -/
theorem three_bits {w Q n b : ℕ} (hw : w = Q % 2 ^ 16) (hQ : Q = 2 * n + b) (hb : b < 2) :
    w / 2 % 8 = n % 8 := by
  omega

/-- **Up to 127 steps** leave the remainder of the integer next to the quotient. -/
theorem remno_done (e : Env) {d : Op} {s : Acc} (hd : d.Normal) (hs : s.Normal) (hd' : d.InFormat)
    (hs' : s.InFormat) {k : ℕ} (hk : d.expo = s.expo - 1 + k) (hk' : k ≤ 126) :
    ∃ m ρ, Done e d s m ρ (remno e (quoFlags d s.toOp) d s) := by
  obtain ⟨-, hslt, hsteps, hexp, -⟩ := rem_exponents hd' hs'
  have hs15 : s.rq8.w0.getLsbD 15 = true := (Quad.getLsbD_w0_iff _).mpr hs
  have hd15 : d.rq8.w0.getLsbD 15 = true := (Quad.getLsbD_w0_iff _).mpr hd
  have hr0 := hsteps (by omega)
  simp only [remno, hs15, hd15, if_true, Option.bind_some, Bool.not_true, Bool.false_eq_true, if_false]
  rw [if_neg (not_not.mpr (hslt.mpr (by omega))), if_pos (by omega)]
  have hr0' : (low (sub (exts d.r7) (exts (sub s.r7 2).val)).val).toNat = k + 1 := by omega
  generalize low (sub (exts d.r7) (exts (sub s.r7 2).val)).val = r0 at hr0'
  generalize exts (add (sub s.r7 2).val 1).val = rr6 at hexp
  have hND : d.rq8.toNat < 2 * s.rq8.toNat := by
    have hN := d.digits_lt
    rw [Op.digits] at hN
    rw [Op.Normal, Op.digits] at hs
    omega
  obtain ⟨hrem, hquo⟩ := FRemS70_spec hr0' hND
  generalize FRemS70 r0 d.rq8 s.rq8 = q at hrem hquo
  have hDpos : 0 < s.rq8.toNat := lt_of_lt_of_le (Nat.two_pow_pos 63) hs
  obtain ⟨Q, hQ⟩ : ∃ Q, Q = 2 ^ k * d.rq8.toNat / s.rq8.toNat := ⟨_, rfl⟩
  have hM : 2 ^ k * d.rq8.toNat = Q * s.rq8.toNat + q.1.toNat := by
    rw [hrem, hQ]
    exact (Nat.div_add_mod' _ _).symm
  have hR : q.1.toNat < s.rq8.toNat := by
    rw [hrem]
    exact Nat.mod_lt _ hDpos
  have hw : q.2.w3.toNat = Q % 2 ^ 16 := by
    rw [toNat_w3, hquo, ← hQ]
    omega
  -- both numbers in units of half the divisor's last place
  obtain ⟨u, hu⟩ : ∃ u : ℚ, u = 2 ^ (s.expo - 1 - bias - 63) := ⟨_, rfl⟩
  have hupos : 0 < u := hu ▸ zpow_pos (by norm_num) _
  have hdmag : d.mag = (2 ^ k * d.rq8.toNat : ℕ) * u := by
    have hz : (2 : ℚ) ^ (d.expo - bias - 63) = 2 ^ k * u := by
      rw [hu, ← zpow_natCast, ← zpow_add₀ (by norm_num)]
      congr 1
      omega
    rw [Op.mag, hz, Op.digits]
    push_cast
    ring
  have hsmag : s.mag = 2 * s.rq8.toNat * u := by
    have hz : (2 : ℚ) ^ (s.expo - bias - 63) = 2 * u := by
      rw [hu, ← zpow_one_add₀ (by norm_num)]
      congr 1
      ring
    rw [Op.mag, hz, Op.digits]
    ring
  rw [hM] at hdmag
  have hbit0 := getLsbD_eq_true_iff q.2.w3 0
  have hbit1 := getLsbD_eq_true_iff q.2.w3 1
  have hsub := sublq_spec s.rq8 q.1
  have hsublt := (sublq s.rq8 q.1).val.toNat_lt
  have hc := Bool.toNat_le (sublq s.rq8 q.1).c
  have hrem' : (sublq s.rq8 q.1).val.toNat = s.rq8.toNat - q.1.toNat := by omega
  by_cases hodd : q.2.w3.getLsbD 0 = true
  · obtain ⟨n, hn⟩ : ∃ n, Q = 2 * n + 1 := by
      have h := hbit0.mp hodd
      exact ⟨Q / 2, by omega⟩
    rw [hn] at hdmag
    simp only [hodd, Bool.not_true, Bool.false_eq_true, if_false]
    split_ifs with hhalf
    · obtain ⟨hhi, hlo, h1⟩ := hhalf
      have hR0 : q.1.toNat = 0 := by
        by_contra h
        exact (hi_ne_zero_or.mpr h).elim (fun h => h hhi) fun h => h hlo
      have hn2 : Even n := by
        rw [Bool.not_eq_true', ← Bool.not_eq_true, hbit1] at h1
        rw [Nat.even_iff]
        omega
      refine ⟨n, _, ⟨rr6, q.2.w3, (sublq s.rq8 q.1).val, false, s.expo - 1, rfl, hexp,
        three_bits hw hn (by norm_num),
        fun hc => absurd hc Bool.false_ne_true, rfl⟩, ?_⟩
      rw [signed_false, hdmag, hsmag, ← hu, hrem', hR0, Nat.sub_zero]
      exact isRemainder_half rfl hDpos hupos hn2
    · have hn2 : q.1.toNat = 0 → Odd n := fun hR0 => by
        have hz : q.1.hi = 0 ∧ q.1.lo = 0 := by
          by_contra h
          exact hi_ne_zero_or.mp (not_and_or.mp h) hR0
        have h1 : q.2.w3.getLsbD 1 = true := by
          by_contra h
          exact hhalf ⟨hz.1, hz.2, Bool.not_eq_true' _ ▸ Bool.eq_false_iff.mpr h⟩
        rw [hbit1] at h1
        rw [Nat.odd_iff]
        omega
      refine ⟨n + 1, _, ⟨rr6, (add q.2.w3 2).val, (sublq s.rq8 q.1).val, true, s.expo - 1, rfl, hexp, ?_,
        fun _ => by omega, rfl⟩, ?_⟩
      · have hadd := add_spec q.2.w3 2
        have h2 : (2 : BitVec 16).toNat = 2 := rfl
        have hlt := (add q.2.w3 2).val.isLt
        omega
      · rw [signed_true, hdmag, hsmag, ← hu, hrem', ← neg_mul]
        exact isRemainder_above rfl hR hupos hn2
  · obtain ⟨n, hn⟩ : ∃ n, Q = 2 * n := by
      have h := mt hbit0.mpr hodd
      exact ⟨Q / 2, by omega⟩
    rw [hn] at hdmag
    refine ⟨n, _, ⟨rr6, q.2.w3, q.1, false, s.expo - 1, ?_, hexp,
      three_bits hw (hn.trans (Nat.add_zero _).symm) (by norm_num),
      fun hc => absurd hc Bool.false_ne_true, rfl⟩, ?_⟩
    · simp only [hodd, Bool.not_false, if_true]
      rfl
    · rw [signed_false, hdmag, hsmag, ← hu]
      exact isRemainder_below rfl hR hupos

end Cpm8000.Fpe
