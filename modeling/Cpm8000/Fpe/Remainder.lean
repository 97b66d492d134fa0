/-
# The remainder

The remainder step repeated on its own result.

* `Done.finished`: a finished remainder is delivered as it is.
* `reduces_near`: exponents at most 125 apart are done in one step.
* `part_spec`, `reduces_far`: any other step leaves half of what is left of the dividend, its exponent being
  lessened by 64 where it has been shifted by 63 places.
* `reduces_iff`: repeating the operation leads to the remainder just when no such step is needed or the
  dividend is a multiple of the divisor.
-/
import Cpm8000.Fpe.Remstep

namespace Cpm8000.Fpe

open Arith

/-! ## 1. Delivery -/

/-- The exponent field as it is stored. -/
def Packed.field : Packed → ℕ
  | .single rr6 => rr6.toNat / 2 ^ 23 % 2 ^ 8
  | .double m => m.toNat / 2 ^ 52 % 2 ^ 11
  | .extended r7 _ => r7.toNat % 2 ^ 15

/-- The sign slid in at the top takes the place of the leading bit. -/
theorem slideSign_field (c : Bool) (rh6 rl6 : BitVec 8) (r7 : BitVec 16) :
    (slideSign c (word rh6 rl6) r7).toNat = (rh6.getLsbD 7).toNat * 2 ^ 15 + r7.toNat % 2 ^ 15 := by
  have hs := sign_out rh6 rl6 (rlc r7 c).c
  have h7 := rlc_spec r7 c
  have hr := rrc_spec (rlc r7 c).val (rh6.getLsbD 7) (by norm_num)
  have hc := Bool.toNat_le c
  have hc7 := Bool.toNat_le (rlc r7 c).c
  have hk := Bool.toNat_le (rrc (rlc r7 c).val (rh6.getLsbD 7)).c
  have hv := (rlc r7 c).val.isLt
  simp only [slideSign, hs]
  omega

/-- An extended put together from sign, exponent and significand. -/
theorem slid_datum (c : Bool) (rh6 rl6 : BitVec 8) {r7 : BitVec 16} (q : Quad) (h : r7.toNat < 0x7FFF) :
    (Packed.extended (slideSign c (word rh6 rl6) r7) q).datum =
        .finite (rh6.getLsbD 7) (q.toNat * 2 ^ ((r7.toNat : ℤ) - bias - 63)) ∧
      (Packed.extended (slideSign c (word rh6 rl6) r7) q).field = r7.toNat := by
  have hs := slideSign_field c rh6 rl6 r7
  generalize slideSign c (word rh6 rl6) r7 = w at hs
  have hb := Bool.toNat_le (rh6.getLsbD 7)
  have hfield : w.toNat % 2 ^ 15 = r7.toNat := by omega
  have hneg : w.getLsbD 15 = rh6.getLsbD 7 := by
    rw [Bool.eq_iff_iff, getLsbD_eq_true_iff, ← Bool.toNat_eq_one]
    omega
  constructor
  · rw [Packed.datum, extDatum, hfield, hneg, if_neg h.ne]
  · exact hfield

/-- An exponent that is neither of the reserved ones. -/
theorem not_reserved {r7 : BitVec 16} (h : 62 ≤ r7.toNat) (h' : r7.toNat < 0x7FFF) :
    r7 ≠ 0 ∧ r7 ≠ 0x7FFF := by
  constructor
  · rintro rfl
    exact absurd h (by decide)
  · rintro rfl
    exact absurd h' (by decide)

/-- Delivery of a zero. -/
theorem delivery_of_zero {e : Env} (he : e.Register) (c : Bool) {t : Acc} (h7 : t.r7.toNat = 0)
    (h0 : t.digits = 0) : ∃ p, delivery e c t = some p ∧ p.datum = .finite t.neg 0 ∧ p.field = 0 := by
  obtain ⟨hdatum, hfield⟩ := slid_datum c t.rh6 t.rl6 t.rq8 (show t.r7.toNat < 0x7FFF by omega)
  have hq : t.rq8.toNat = 0 := h0
  rw [hq, Nat.cast_zero, zero_mul] at hdatum
  refine ⟨_, ?_, hdatum, hfield.trans h7⟩
  rw [delivery, if_pos (show e.rh4.getLsbD 2 = true from he), dlvry54, if_pos (eq_zero_of_toNat h7),
    Option.map_some]

/-- Delivery of a partial result of which nothing is left. -/
theorem delivery_part_zero {e : Env} (he : e.Register) (c : Bool) {t : Acc} (h5 : t.rl5 = 0)
    (h7 : 62 ≤ t.r7.toNat) (h7' : t.r7.toNat < 0x7FFF) (h0 : t.digits = 0) :
    ∃ p, delivery e c t = some p ∧ p.datum = .finite t.neg 0 ∧ p.field = 0 := by
  obtain ⟨hr0, hrm⟩ := not_reserved h7 h7'
  have hwide : t.wide = 0 := by
    rw [Acc.wide, h0, h5]
    rfl
  have hz : (0 : BitVec 16).toNat = 0 := rfl
  obtain ⟨hdatum, hfield⟩ := slid_datum c t.rh6 0 t.rq8 (show (0 : BitVec 16).toNat < 0x7FFF by decide)
  have hq : t.rq8.toNat = 0 := h0
  rw [hq, Nat.cast_zero, zero_mul] at hdatum
  refine ⟨_, ?_, hdatum, hfield.trans hz⟩
  rw [delivery, if_pos (show e.rh4.getLsbD 2 = true from he), dlvry54, if_neg hr0, if_neg hrm,
    normordigs_of_zero hwide, Option.map_some]

/-- Delivery of a normalised number of the range. -/
theorem delivery_of_normal {e : Env} (he : e.Register) (c : Bool) {t : Acc} (hn : t.Normal)
    (hE : t.expBits ≤ 0x7FFE) :
    ∃ p, delivery e c t = some p ∧ p.datum = .finite t.neg t.mag ∧ p.field = t.expBits := by
  have hbits : t.r7.toNat = t.expBits := by
    rw [Op.expBits] at hE ⊢
    omega
  obtain ⟨hdatum, hfield⟩ := slid_datum c t.rh6 t.rl6 t.rq8 (show t.r7.toNat < 0x7FFF by omega)
  have hexpo : t.expo = t.r7.toNat := by
    rw [hbits]
    exact Op.expo_of_expBits rfl (by omega)
  refine ⟨_, ?_, hdatum.trans ?_, hfield.trans hbits⟩
  · rw [delivery, if_pos (show e.rh4.getLsbD 2 = true from he), dlvry54, normordigs_of_normal hn,
      ite_self, ite_self, Option.map_some]
  · rw [Op.mag, hexpo]
    rfl

/-- Delivery of a partial result: its significand, normalised. -/
theorem delivery_part {e : Env} (he : e.Register) (c : Bool) {t : Acc} (h5 : t.rl5 = 0) (h6 : t.rl6 = 0)
    (h7 : 62 ≤ t.r7.toNat) (h7' : t.r7.toNat < 0x7FFF) (hpos : 0 < t.digits) :
    ∃ p, delivery e c t = some p ∧
      ∀ x, p.value = some x → x = signed t.neg ((t.digits : ℚ) * 2 ^ ((t.r7.toNat : ℤ) - bias - 63)) := by
  obtain ⟨hr0, hrm⟩ := not_reserved h7 h7'
  obtain ⟨n, r, hr, hN, -, hdig, hn⟩ := normordigs_exact h5 hpos
  refine ⟨.extended (slideSign c (word r.rh6 r.rl6) r.r7) r.rq8, ?_, fun x hx => ?_⟩
  · rw [delivery, if_pos (show e.rh4.getLsbD 2 = true from he), dlvry54, if_neg hr0, if_neg hrm, hr,
      Option.map_some]
  have hbits := hN.expBits
  have hlt := r.expBits_lt
  have hr7 := r.r7.isLt
  rw [Op.expBits] at hbits hlt
  rw [Op.expBits, h6] at hbits
  have h60 : (0 : BitVec 8).toNat = 0 := rfl
  have hless : r.r7.toNat + n = t.r7.toNat ∨ r.r7.toNat % 2 ^ 15 = 0x7FFF := by omega
  rcases hless with hless | hmax
  · obtain ⟨hdatum, -⟩ := slid_datum c r.rh6 r.rl6 r.rq8 (show r.r7.toNat < 0x7FFF by omega)
    rw [Packed.value, hdatum, Datum.value, Option.some_inj] at hx
    have hz : (2 : ℚ) ^ ((t.r7.toNat : ℤ) - bias - 63) = 2 ^ n * 2 ^ ((r.r7.toNat : ℤ) - bias - 63) := by
      rw [← zpow_natCast, ← zpow_add₀ (by norm_num)]
      congr 1
      omega
    have hq : r.rq8.toNat = 2 ^ n * t.digits := hdig
    rw [← hx, hz, hN.rh6, hq]
    push_cast
    rw [mul_left_comm, ← mul_assoc]
    rfl
  · -- the exponent has become negative, which is stored as the one reserved for infinity and NaN
    have hs := slideSign_field c r.rh6 r.rl6 r.r7
    have hfield : (slideSign c (word r.rh6 r.rl6) r.r7).toNat % 2 ^ 15 = 0x7FFF := by omega
    rw [Packed.value, Packed.datum, extDatum, if_pos hfield] at hx
    split at hx <;> cases hx

/-! ## 2. A finished remainder -/

/-- The sign of a remainder: that of the dividend, or the other. -/
theorem flipped_neg (flip : Bool) (rh6 : BitVec 8) :
    (hib (if flip then 0x8000 else 0) ^^^ rh6).getLsbD 7 = (rh6.getLsbD 7 ^^ flip) := by
  have h1 : (hib 0x8000).getLsbD 7 = true := rfl
  have h0 : (hib 0).getLsbD 7 = false := rfl
  cases flip
  · rw [if_neg Bool.false_ne_true, BitVec.getLsbD_xor, h0, Bool.false_xor, Bool.xor_false]
  · rw [if_pos rfl, BitVec.getLsbD_xor, h1, Bool.xor_comm]

theorem inRange_signed (b : Bool) {x : ℚ} : InRange (signed b x) ↔ InRange x := by
  have habs : |signed b x| = |x| := by cases b <;> simp
  rw [InRange, InRange, expOf, expOf, habs]

/-- **A finished remainder** is delivered as it is when it is zero or of the range. -/
theorem Done.finished {e : Env} (he : e.Register) (hp : e.prec = 64) (c : Bool) {d : Op} {s : Acc}
    (h5 : s.rl5 = 0) {m : ℕ} {ρ : ℚ} {o : Option (BitVec 8 × Acc)} (h : Done e d s m ρ o) :
    ∃ quo t p, o = some (quo, t) ∧ delivery e c t = some p ∧
      quo.toNat = 128 + 64 * (d.neg ^^ s.neg).toNat + 8 * (m % 8) ∧
        (ρ = 0 ∨ InRange ρ → p.datum = .finite (d.neg ^^ decide (ρ < 0)) |ρ|) := by
  obtain ⟨rr6, r11, rem, flip, E, ho, hE, hm, hflip, hρ⟩ := h.rem
  have hflags := flags_toNat (d.neg ^^ s.neg) r11
  rw [hm, ← quoFlags_eq] at hflags
  obtain ⟨a, ha⟩ : ∃ a : Acc, a = { s with
      rh6 := hib (if flip then 0x8000 else 0) ^^^ d.rh6, rl6 := lob (hiw rr6), r7 := low rr6, rq8 := rem } :=
    ⟨_, rfl⟩
  rw [FRemS30, ← ha] at ho
  have ha5 : a.rl5 = 0 := by
    rw [ha]
    exact h5
  have hadig : a.digits = rem.toNat := by
    rw [ha]
    rfl
  have haneg : a.neg = (d.neg ^^ flip) := by
    rw [ha]
    exact flipped_neg flip d.rh6
  obtain ⟨k, hk⟩ := expBits_of_toInt rr6 hE a.rh6 rem
  have habits : (a.expBits : ℤ) = E + 2 ^ 24 * k := by
    rw [← hk, ha]
  by_cases h0 : rem.toNat = 0
  · have hfalse : flip = false := by
      cases flip
      · rfl
      · exact absurd h0 (hflip rfl).ne'
    rw [h0, Nat.cast_zero, zero_mul, hfalse, signed_false] at hρ
    rw [hfalse, Bool.xor_false] at haneg
    obtain ⟨t, ht, ht0, ht7, ht6⟩ := FRemS36_zero he hp ha5 (hadig.trans h0)
    obtain ⟨p, hpd, hdatum, -⟩ := delivery_of_zero he c ht7 ht0
    refine ⟨_, t, p, ?_, hpd, hflags, fun _ => ?_⟩
    · rw [ho, ht]
      rfl
    · have htneg : t.neg = d.neg := by rw [Op.neg, ht6, ← Op.neg, haneg]
      rw [hdatum, hρ, htneg]
      simp
  · have hpos : (0 : ℚ) < rem.toNat * 2 ^ (E - bias - 63) :=
      mul_pos (by exact_mod_cast Nat.pos_of_ne_zero h0) (zpow_pos (by norm_num) _)
    have hne : ρ ≠ 0 := by
      rw [hρ]
      cases flip
      · simpa using hpos.ne'
      · simpa using hpos.ne'
    by_cases hr : InRange ρ
    · have hr' : InRange ((a.digits : ℚ) * 2 ^ (E - bias - 63)) := by
        rwa [hadig, ← inRange_signed flip, ← hρ]
      obtain ⟨t, ht, htn, htE, ht6, htmag⟩ := FRemS36_exact he hp ha5 (by omega) habits hr'
      obtain ⟨p, hpd, hdatum, -⟩ := delivery_of_normal he c htn htE
      refine ⟨_, t, p, ?_, hpd, hflags, fun _ => ?_⟩
      · rw [ho, ht]
        rfl
      · have htneg : t.neg = (d.neg ^^ flip) := by rw [Op.neg, ht6, ← Op.neg, haneg]
        rw [hdatum, htneg, htmag, hadig, hρ]
        cases flip
        · simp only [signed_false, not_lt.mpr hpos.le, decide_false, abs_of_pos hpos]
        · simp only [signed_true, neg_lt_zero.mpr hpos, decide_true, abs_neg, abs_of_pos hpos]
    · obtain ⟨t, ht⟩ := FRemS36_isSome e a
      obtain ⟨p, hpd⟩ := delivery_isSome e c t
      refine ⟨_, t, p, ?_, hpd, hflags, fun h => absurd h (not_or.mpr ⟨hne, hr⟩)⟩
      rw [ho, ht]
      rfl

/-! ## 3. A partial step -/

/-- **A step that does not finish**: 64 quotient bits, the carry cleared, and the dividend that is left with
the exponent lessened by 64. -/
theorem remno_part (e : Env) (quo : BitVec 8) {d : Op} {s : Acc} (hd : d.Normal) (hs : s.Normal)
    (hd' : d.InFormat) (hs' : s.InFormat) (h0 : 0 ≤ s.expo) (h : s.expo + 126 ≤ d.expo) :
    ∃ t, remno e quo d s = some (res quo 7, t) ∧ t.rh6 = d.rh6 ∧ t.rl6 = 0 ∧ t.rl5 = s.rl5 ∧
      (t.r7.toNat : ℤ) = d.expo - 64 ∧ t.digits = 2 ^ 63 * d.digits % s.digits := by
  obtain ⟨-, hslt, hsteps, -, hexp⟩ := rem_exponents hd' hs'
  have hs15 : s.rq8.w0.getLsbD 15 = true := (Quad.getLsbD_w0_iff _).mpr hs
  have hd15 : d.rq8.w0.getLsbD 15 = true := (Quad.getLsbD_w0_iff _).mpr hd
  have hr0 := hsteps (by omega)
  have hlarge := hexp (by omega)
  obtain ⟨w, hw⟩ : ∃ w, w = (sub (exts d.r7) 64).val := ⟨_, rfl⟩
  obtain ⟨q, hq⟩ : ∃ q, q = FRemS70 64 d.rq8 s.rq8 := ⟨_, rfl⟩
  rw [← hw] at hlarge
  have hrun : remno e quo d s = some (res quo 7, { s with
      rh6 := d.rh6, rl6 := lob (hiw w), r7 := low w, rq8 := q.1 }) := by
    simp only [remno, hs15, hd15, if_true, Option.bind_some, Bool.not_true, Bool.false_eq_true, if_false]
    rw [if_neg (not_not.mpr (hslt.mpr (by omega))), if_neg (by omega), hw, hq]
  obtain ⟨hl, hu⟩ := hd'
  have hwlt := w.isLt
  have hword : (w.toNat : ℤ) = d.expo - 64 := by
    rw [BitVec.toInt_eq_toNat_cond] at hlarge
    split_ifs at hlarge <;> omega
  have hND : d.rq8.toNat < 2 * s.rq8.toNat := by
    have hN := d.digits_lt
    rw [Op.digits] at hN
    rw [Op.Normal, Op.digits] at hs
    omega
  have h64 : (64 : BitVec 16).toNat = 63 + 1 := rfl
  have hrem := (FRemS70_spec h64 hND).1
  rw [← hq] at hrem
  refine ⟨_, hrun, rfl, ?_, rfl, ?_, hrem⟩
  · apply eq_zero_of_toNat
    rw [toNat_lob, toNat_hiw]
    omega
  · rw [toNat_low]
    omega

/-! ## 4. Multiples -/

/-- A signed number that is `k` times another, in units of one size. -/
theorem natAbs_of_multiple {T D k : ℤ} {v : ℚ} (hv : v ≠ 0) {a b : Bool}
    (h : signed a ((T : ℚ) * v) = k * signed b ((D : ℚ) * v)) : T.natAbs = k.natAbs * D.natAbs := by
  have habs : |(T : ℚ)| * |v| = |(k : ℚ)| * |(D : ℚ)| * |v| := by
    have hs : ∀ (c : Bool) (x : ℚ), |signed c x| = |x| := fun c x => by cases c <;> simp
    have hboth := congrArg abs h
    rw [abs_mul, hs, hs, abs_mul, abs_mul, ← mul_assoc] at hboth
    exact hboth
  have hint := mul_right_cancel₀ (abs_ne_zero.mpr hv) habs
  rw [← Int.natAbs_mul, ← Int.natCast_inj, Int.natCast_natAbs, Int.natCast_natAbs]
  rw [← abs_mul] at hint
  exact_mod_cast hint

/-- **A multiple of a number**, in units of one size: the integers divide. -/
theorem multiple_iff {T D : ℤ} {v : ℚ} (hv : v ≠ 0) (a b : Bool) :
    (∃ k : ℤ, signed a ((T : ℚ) * v) = k * signed b ((D : ℚ) * v)) ↔ D ∣ T := by
  constructor
  · rintro ⟨k, hk⟩
    rw [← Int.natAbs_dvd_natAbs, natAbs_of_multiple hv hk]
    exact Dvd.intro_left _ rfl
  · rintro ⟨k, rfl⟩
    refine ⟨if a ^^ b then -k else k, ?_⟩
    cases a <;> cases b <;> simp <;> ring

/-- A significand divides the multiples by powers of two of a number when it divides one by the 63rd. -/
theorem dvd_of_dvd_two_pow {D N j : ℕ} (hD : 0 < D) (hD' : D < 2 ^ 64) (h : D ∣ 2 ^ j * N) :
    D ∣ 2 ^ 63 * N := by
  obtain ⟨a, m, hm, rfl⟩ := Nat.exists_eq_two_pow_mul_odd hD.ne'
  have ha : a ≤ 63 := by
    by_contra hlt
    have hpow : 2 ^ 64 ≤ 2 ^ a := Nat.pow_le_pow_right (by norm_num) (by omega)
    have hle := Nat.mul_le_mul hpow hm.pos
    omega
  have hmN : m ∣ N :=
    (Nat.Coprime.pow_right j (Nat.coprime_two_right.mpr hm)).dvd_of_dvd_mul_left (dvd_of_mul_left_dvd h)
  exact Nat.mul_dvd_mul (Nat.pow_dvd_pow 2 ha) hmN

/-- What 63 shifts leave is nothing just when the dividend is a multiple. -/
theorem left_eq_zero_iff {D N j : ℕ} (hD : 0 < D) (hD' : D < 2 ^ 64) (hj : 63 ≤ j) :
    2 ^ 63 * N % D = 0 ↔ D ∣ 2 ^ j * N := by
  rw [← Nat.dvd_iff_mod_eq_zero]
  refine ⟨fun h => h.trans ?_, dvd_of_dvd_two_pow hD hD'⟩
  exact Nat.mul_dvd_mul_right (Nat.pow_dvd_pow 2 hj) N

/-- **The dividend less half of what is left** is no multiple of the divisor. -/
theorem not_dvd_less {D N j : ℕ} (hD : 0 < D) (hD' : D < 2 ^ 64) (hj : 64 ≤ j) (h0 : 2 ^ 63 * N % D ≠ 0) :
    ¬ (D : ℤ) ∣ 2 ^ j * N - 2 ^ (j - 64) * (2 ^ 63 * N % D : ℕ) := by
  intro h
  have hleft : 2 ^ 63 * N = D * (2 ^ 63 * N / D) + 2 ^ 63 * N % D := (Nat.div_add_mod _ _).symm
  generalize 2 ^ 63 * N / D = Q at hleft
  generalize hV : 2 ^ 63 * N % D = V at h h0 hleft
  have hz : (2 : ℤ) ^ 63 * N = D * Q + V := by exact_mod_cast hleft
  obtain ⟨i, rfl⟩ := Nat.exists_eq_add_of_le' hj
  rw [Nat.add_sub_cancel] at h
  have hrest : (D : ℤ) ∣ ((2 ^ (i + 63) * N : ℕ) : ℤ) := by
    have heq : ((2 ^ (i + 63) * N : ℕ) : ℤ) = 2 ^ (i + 64) * N - 2 ^ i * V - D * (2 ^ i * Q) := by
      push_cast
      rw [pow_add, pow_add]
      linear_combination (-2 ^ i : ℤ) * hz
    rw [heq]
    exact dvd_sub h (Dvd.intro _ rfl)
  rw [Int.natCast_dvd_natCast] at hrest
  exact h0 (hV ▸ Nat.mod_eq_zero_of_dvd (dvd_of_dvd_two_pow hD hD' hrest))

/-- The quotient of a multiple by a divisor far below is a multiple of eight. -/
theorem eight_dvd_quotient {D N j k : ℕ} (hD : 0 < D) (hD' : D < 2 ^ 64) (hj : 66 ≤ j)
    (h : 2 ^ j * N = k * D) : 8 ∣ k := by
  obtain ⟨q, hq⟩ := dvd_of_dvd_two_pow hD hD' (h ▸ Dvd.intro_left k rfl)
  obtain ⟨i, rfl⟩ := Nat.exists_eq_add_of_le hj
  have hk : k * D = 8 * (2 ^ i * q) * D := by
    rw [← h]
    calc 2 ^ (66 + i) * N = 8 * 2 ^ i * (2 ^ 63 * N) := by ring
      _ = 8 * (2 ^ i * q) * D := by
        rw [hq]
        ring
  exact ⟨_, Nat.eq_of_mul_eq_mul_right hD hk⟩

/-! ## 5. The operation on two numbers -/

/-- A finite extended by its fields. -/
theorem value_extended {r7 : BitVec 16} {rq8 : Quad} {x : ℚ} (h : (Packed.extended r7 rq8).value = some x) :
    r7.toNat % 2 ^ 15 ≠ 0x7FFF ∧
      x = signed (r7.getLsbD 15) ((rq8.toNat : ℚ) * 2 ^ (((r7.toNat % 2 ^ 15 : ℕ) : ℤ) - bias - 63)) := by
  rw [Packed.value, Packed.datum, extDatum] at h
  by_cases hE : r7.toNat % 2 ^ 15 = 0x7FFF
  · rw [if_pos hE] at h
    split at h <;> cases h
  · rw [if_neg hE, Datum.value, Option.some_inj] at h
    exact ⟨hE, h.symm⟩

/-- The dividend as it is unpacked; its exponent is at most the one stored. -/
theorem dividend_spec {r7 : BitVec 16} {rq8 : Quad} {x : ℚ} (hx : (Packed.extended r7 rq8).value = some x)
    (hx0 : x ≠ 0) (rh5 : BitVec 8) :
    ∃ d, unpack (.extended r7 rq8) rh5 = some d ∧ d.kind = .num ∧ d.Normal ∧ d.InFormat ∧ d.val = x ∧
      d.expo ≤ (Packed.extended r7 rq8).field := by
  obtain ⟨d, hd, hdatum, hw⟩ := unpack_datum hx rh5
  obtain ⟨hk, hval⟩ := d.kind_of_value ((congrArg Datum.value hdatum).trans hx)
  have hnum : d.kind = .num := by
    refine hk.resolve_right fun hz => hx0 ?_
    rw [hval, Op.val, Op.mag, (hw.zero hz).1, Nat.cast_zero, zero_mul]
    cases d.neg <;> simp
  obtain ⟨hn, hf⟩ := hw.num hnum
  refine ⟨d, hd, hnum, hn, hf, hval.symm, ?_⟩
  obtain ⟨-, hstored⟩ := value_extended hx
  have hmag : d.mag = rq8.toNat * 2 ^ (((r7.toNat % 2 ^ 15 : ℕ) : ℤ) - bias - 63) := by
    have habs := congrArg abs (hval.symm.trans hstored)
    rwa [Op.val, abs_signed _ hn.mag_pos.le,
      abs_signed _ (mul_nonneg (Nat.cast_nonneg _) (zpow_nonneg (by norm_num) _))] at habs
  have hlt : d.mag < 2 ^ 64 * 2 ^ (((r7.toNat % 2 ^ 15 : ℕ) : ℤ) - bias - 63) := by
    rw [hmag]
    exact mul_lt_mul_of_pos_right (by exact_mod_cast rq8.toNat_lt) (zpow_pos (by norm_num) _)
  have hle : (2 : ℚ) ^ 63 * 2 ^ (d.expo - bias - 63) ≤ d.mag :=
    mul_le_mul_of_nonneg_right (by exact_mod_cast hn) (zpow_pos (by norm_num) _).le
  have hpow := hle.trans_lt hlt
  rw [← zpow_natCast, ← zpow_natCast, ← zpow_add₀ (by norm_num), ← zpow_add₀ (by norm_num),
    zpow_lt_zpow_iff_right₀ (by norm_num)] at hpow
  rw [Packed.field]
  push_cast at hpow ⊢
  omega

/-- The divisor, which is stored normalised. -/
theorem divisor_spec {w7 : BitVec 16} {wq8 : Quad} {y : ℚ} (hy : (Packed.extended w7 wq8).value = some y)
    (hn : 2 ^ 63 ≤ wq8.toNat) (rh5 : BitVec 8) :
    ∃ s, unpack (.extended w7 wq8) rh5 = some s ∧ s.kind = .num ∧ s.Normal ∧ s.InFormat ∧ 0 ≤ s.expo ∧
      s.val = y := by
  obtain ⟨hE, -⟩ := value_extended hy
  have hlt := Nat.mod_lt w7.toNat (Nat.two_pow_pos 15)
  have hext : IsExt (w7.toNat % 2 ^ 15) wq8.toNat := Or.inl ⟨by omega, hn⟩
  obtain ⟨s, hs, hneg, -, hS⟩ := extended_spec w7 wq8 rh5 hext
  obtain ⟨hdatum, hw⟩ := hS.datum hneg
  obtain ⟨-, hval⟩ := s.kind_of_value ((congrArg Datum.value hdatum).trans hy)
  have hnum : s.kind = .num ∧ 0 ≤ s.expo := by
    cases hS with
    | normal _ _ kind rl6 r7 digits =>
      refine ⟨kind, ?_⟩
      rw [expo_of_rl6 rl6]
      omega
    | denormal n _ _ hD' => omega
    | zero _ hD => omega
    | inf _ hD => omega
  obtain ⟨hsn, hsf⟩ := hw.num hnum.1
  exact ⟨s, hs, hnum.1, hsn, hsf, hnum.2, hval.symm⟩

/-- The operation on two numbers. -/
theorem Fremstep_numbers (e : Env) (c : Bool) (rh5 : BitVec 8) {p q : Packed} {d s : Unpacked}
    (hd : unpack p rh5 = some d) (hs : unpack q d.rh5 = some s) (hdk : d.kind = .num) (hsk : s.kind = .num) :
    Fremstep e c rh5 p q =
      (remno e (quoFlags d.toOp s.toOp) d.toOp { s.toOp with rh5 := s.rh5, rl5 := 0 }).bind fun t =>
        (delivery e c t.2).map fun p => (t.1, t.2.rh5, p) := by
  rw [Fremstep, setup, hd, Option.bind_some, hs, Option.map_some, hdk, hsk]
  rfl

/-- The operation on a zero. -/
theorem Fremstep_zero (e : Env) (c : Bool) (rh5 : BitVec 8) {p q : Packed} {d s : Unpacked}
    (hd : unpack p rh5 = some d) (hs : unpack q d.rh5 = some s) (hdk : d.kind = .zero) (hsk : s.kind = .num) :
    Fremstep e c rh5 p q =
      (delivery e c (remnz d.toOp { s.toOp with rh5 := s.rh5, rl5 := 0 })).map fun p =>
        (quoFlags d.toOp s.toOp, s.rh5, p) := by
  rw [Fremstep, setup, hd, Option.bind_some, hs, Option.map_some, hdk, hsk]
  rfl

/-- The operation on a zero, which is a remainder already. -/
theorem Fremstep_of_zero {e : Env} (he : e.Register) (c : Bool) (rh5 : BitVec 8) {p : Packed} {b : Bool}
    (hp : p.datum = .finite b 0) {w7 : BitVec 16} {wq8 : Quad} {y : ℚ}
    (hy : (Packed.extended w7 wq8).value = some y) (hn : 2 ^ 63 ≤ wq8.toNat) :
    ∃ quo f r, Fremstep e c rh5 p (.extended w7 wq8) = some (quo, f, r) ∧
      quo.toNat = 128 + 64 * (b ^^ decide (y < 0)).toNat ∧ r.datum = .finite b 0 := by
  have hvalue : p.value = some (signed b 0) := by rw [Packed.value, hp, Datum.value]
  obtain ⟨d, hd, hdatum, hw⟩ := unpack_datum hvalue rh5
  rw [hp] at hdatum
  obtain ⟨s, hs, hsk, hsn, -, -, hsval⟩ := divisor_spec hy hn d.rh5
  have hfin : d.kind = .zero ∧ d.neg = b := by
    rw [Unpacked.datum] at hdatum
    cases hk : d.kind <;> rw [hk] at hdatum <;> simp only [Datum.finite.injEq, reduceCtorEq] at hdatum
    · exact absurd hdatum.2 (hw.num hk).1.mag_pos.ne'
    · exact ⟨rfl, hdatum.1⟩
  have hsneg : decide (y < 0) = s.neg := by
    rw [← hsval, Op.val]
    exact signed_lt_zero _ hsn.mag_pos
  obtain ⟨a, ha⟩ : ∃ a : Acc, a = { s.toOp with rh5 := s.rh5, rl5 := 0 } := ⟨_, rfl⟩
  have hdig : (remnz d.toOp a).digits = 0 := Quad.toNat_zero
  obtain ⟨r, hr, hrdatum, -⟩ := delivery_of_zero he c (t := remnz d.toOp a) rfl hdig
  have hneg : (remnz d.toOp a).neg = b := by
    have hall : ∀ x : BitVec 8, (0 ||| (x &&& 0x80)).getLsbD 7 = x.getLsbD 7 := by decide +kernel
    exact (hall d.rh6).trans hfin.2
  rw [hneg] at hrdatum
  refine ⟨quoFlags d.toOp s.toOp, s.rh5, r, ?_, ?_, hrdatum⟩
  · rw [Fremstep_zero e c rh5 hd hs hfin.1 hsk, ← ha, hr, Option.map_some]
  · rw [quoFlags_eq, hsneg, hfin.2]
    cases b ^^ s.neg <;> rfl

theorem Op.Normal.expOf_val {o : Op} (h : o.Normal) : expOf o.val = o.expo :=
  expOf_scaled _ _ (by exact_mod_cast h) (by exact_mod_cast o.digits_lt)

/-! ## 6. Runs -/

/-- What a partial step has to leave: the dividend lessened by a multiple of `y`, and its exponent with it. -/
structure Lessens (y : ℚ) (p p' : Packed) : Prop where
  multiple : ∃ x x' : ℚ, p.value = some x ∧ p'.value = some x' ∧ ∃ k : ℤ, x - x' = k * y
  exponent : p'.field < p.field

/-- What the last step has to leave: the remainder, unless its exponent is out of range, a zero with the sign
of the dividend; and in the flags the carry, the sign of the quotient and three bits of it. -/
def Remaindered (x y : ℚ) (quo : BitVec 8) (r : Packed) : Prop :=
  ∃ n ρ, IsRemainder x y n ρ ∧
    (ρ = 0 ∨ InRange ρ → r.datum = .finite (if ρ = 0 then decide (x < 0) else decide (ρ < 0)) |ρ|) ∧
      quo.toNat = 128 + 64 * (decide (x < 0) ^^ decide (y < 0)).toNat + 8 * (n.natAbs % 8)

/-- The operation repeated on its own result comes to the remainder, every step before lessening the
dividend. -/
def Reduces (e : Env) (c : Bool) (rh5 : BitVec 8) (p q : Packed) (x y : ℚ) : Prop :=
  ∃ fuel l quo r, repeated e c rh5 q fuel p = some (l, quo, r) ∧ (p :: l).IsChain (Lessens y) ∧
    Remaindered x y quo r

theorem repeated_of_done {e : Env} {c : Bool} {rh5 quo f : BitVec 8} {p q r : Packed}
    (h : Fremstep e c rh5 p q = some (quo, f, r)) (h7 : quo.getLsbD 7 = true) (fuel : ℕ) :
    repeated e c rh5 q (fuel + 1) p = some ([], quo, r) := by
  rw [repeated, h, Option.bind_some, if_pos h7]

theorem repeated_of_part {e : Env} {c : Bool} {rh5 quo f : BitVec 8} {p q p' : Packed}
    (h : Fremstep e c rh5 p q = some (quo, f, p')) (h7 : quo.getLsbD 7 = false) (fuel : ℕ) :
    repeated e c rh5 q (fuel + 1) p = (repeated e c rh5 q fuel p').map fun r => (p' :: r.1, r.2) := by
  rw [repeated, h, Option.bind_some, if_neg (by rw [h7]; exact Bool.false_ne_true)]

/-- The carry among the flags. -/
theorem carry_of_flags {quo : BitVec 8} {b : Bool} {m : ℕ} (h : quo.toNat = 128 + 64 * b.toNat + 8 * (m % 8)) :
    quo.getLsbD 7 = true := by
  have hb := Bool.toNat_le b
  rw [getLsbD_eq_true_iff]
  omega

/-- The remainder of a multiple is zero. -/
theorem isRemainder_of_multiple {x y : ℚ} {k : ℤ} (hx : x ≠ 0) (h : x = k * y) : IsRemainder x y k 0 := by
  have hy : y ≠ 0 := by
    rintro rfl
    exact hx (h.trans (mul_zero _))
  have hquot : |x / y - k| = 0 := by rw [h, mul_div_cancel_right₀ _ hy, sub_self, abs_zero]
  refine ⟨?_, ?_, fun hhalf => ?_⟩
  · rw [h, sub_self]
  · rw [hquot]
    norm_num
  · rw [hquot] at hhalf
    norm_num at hhalf

/-- The remainder of signed numbers, its sign that of the dividend or the other. -/
theorem remaindered_of_signs {X Y ρ : ℚ} {a b : Bool} {m : ℕ} {quo : BitVec 8} {r : Packed} (hX : 0 < X)
    (hY : 0 < Y) (h : IsRemainder X Y m ρ) (hquo : quo.toNat = 128 + 64 * (a ^^ b).toNat + 8 * (m % 8))
    (hdatum : ρ = 0 ∨ InRange ρ → r.datum = .finite (a ^^ decide (ρ < 0)) |ρ|) :
    Remaindered (signed a X) (signed b Y) quo r := by
  have hzero : signed a ρ = 0 ↔ ρ = 0 := by cases a <;> simp
  refine ⟨if a ^^ b then -m else m, signed a ρ, h.of_signs a b, fun hin => ?_, ?_⟩
  · rw [hdatum (hin.imp hzero.mp (inRange_signed a).mp), signed_lt_zero a hX]
    have habs : |signed a ρ| = |ρ| := by cases a <;> simp
    rw [habs]
    congr 1
    by_cases h0 : ρ = 0
    · rw [if_pos (hzero.mpr h0), h0]
      simp
    · rw [if_neg (mt hzero.mp h0)]
      rcases lt_or_gt_of_ne h0 with hlt | hgt
      · cases a <;> simp [hlt, hlt.le]
      · cases a <;> simp [hgt, not_lt.mpr hgt.le]
  · have hnat : (if a ^^ b then -(m : ℤ) else m).natAbs = m := by
      split_ifs
      · rw [Int.natAbs_neg, Int.natAbs_natCast]
      · rw [Int.natAbs_natCast]
    rw [hnat, signed_lt_zero a hX, signed_lt_zero b hY, hquo]

section Run

variable {e : Env} (he : e.Register) (hp : e.prec = 64) (c : Bool) (rh5 : BitVec 8) {r7 w7 : BitVec 16}
  {rq8 wq8 : Quad} {x y : ℚ} (hx : (Packed.extended r7 rq8).value = some x) (hx0 : x ≠ 0)
  (hy : (Packed.extended w7 wq8).value = some y) (hn : 2 ^ 63 ≤ wq8.toNat)

include he hp hx hx0 hy hn

/-- **Exponents at most 125 apart**: one step leaves the remainder. -/
theorem reduces_near (h : expOf x - expOf y ≤ 125) :
    Reduces e c rh5 (.extended r7 rq8) (.extended w7 wq8) x y := by
  obtain ⟨d, hd, hdk, hdn, hdf, hdval, -⟩ := dividend_spec hx hx0 rh5
  obtain ⟨s, hs, hsk, hsn, hsf, -, hsval⟩ := divisor_spec hy hn d.rh5
  have hdneg : decide (x < 0) = d.neg := by
    rw [← hdval, Op.val]
    exact signed_lt_zero _ hdn.mag_pos
  have hsneg : decide (y < 0) = s.neg := by
    rw [← hsval, Op.val]
    exact signed_lt_zero _ hsn.mag_pos
  rw [← hdval, ← hsval, hdn.expOf_val, hsn.expOf_val] at h
  have hstep := Fremstep_numbers e c rh5 hd hs hdk hsk
  obtain ⟨a, ha, ha5⟩ : ∃ a : Acc, a = { s.toOp with rh5 := s.rh5, rl5 := 0 } ∧ a.rl5 = 0 := ⟨_, rfl, rfl⟩
  have haop : a.toOp = s.toOp := by rw [ha]
  rw [← ha, ← haop] at hstep
  rw [← haop] at hsn hsf h hsneg
  obtain ⟨m, ρ, hdone⟩ : ∃ m ρ, Done e d.toOp a m ρ (remno e (quoFlags d.toOp a.toOp) d.toOp a) := by
    rcases le_or_gt d.expo (a.expo - 2) with hle | hlt
    · exact ⟨0, d.mag, remno_small e hdn hsn hdf hsf hle⟩
    · obtain ⟨k, hk⟩ := Int.eq_ofNat_of_zero_le (show 0 ≤ d.expo - a.expo + 1 by omega)
      exact remno_done e hdn hsn hdf hsf (k := k) (by omega) (by omega)
  obtain ⟨quo, t, r, ht, hr, hquo, hdatum⟩ := hdone.finished he hp c ha5
  rw [ht, Option.bind_some, hr, Option.map_some] at hstep
  refine ⟨1, [], quo, r, repeated_of_done hstep (carry_of_flags hquo) 0, List.isChain_singleton _, ?_⟩
  have hsval' : a.val = y := by rw [haop, hsval]
  rw [← hdval, ← hsval', Op.val, Op.val]
  exact remaindered_of_signs hdn.mag_pos hsn.mag_pos hdone.isRem hquo hdatum

omit hp in
/-- **A partial step**: nothing is left of a multiple of the divisor; of any other dividend half of what
should be left, which is not the dividend less a multiple. -/
theorem part_spec (h : 126 ≤ expOf x - expOf y) :
    ∃ quo f p, Fremstep e c rh5 (.extended r7 rq8) (.extended w7 wq8) = some (quo, f, p) ∧
      quo.getLsbD 7 = false ∧
        ((∃ k : ℤ, x = k * y) → p.datum = .finite (decide (x < 0)) 0 ∧ p.field = 0 ∧
          0 < (Packed.extended r7 rq8).field) ∧
          (∀ k : ℤ, x = k * y → 8 ∣ k.natAbs) ∧
            ((¬ ∃ k : ℤ, x = k * y) → ¬ Lessens y (.extended r7 rq8) p) := by
  obtain ⟨d, hd, hdk, hdn, hdf, hdval, hdfield⟩ := dividend_spec hx hx0 rh5
  obtain ⟨s, hs, hsk, hsn, hsf, hs0, hsval⟩ := divisor_spec hy hn d.rh5
  have hdneg : decide (x < 0) = d.neg := by
    rw [← hdval, Op.val]
    exact signed_lt_zero _ hdn.mag_pos
  rw [← hdval, ← hsval, hdn.expOf_val, hsn.expOf_val] at h
  have hstep := Fremstep_numbers e c rh5 hd hs hdk hsk
  obtain ⟨a, ha, ha5⟩ : ∃ a : Acc, a = { s.toOp with rh5 := s.rh5, rl5 := 0 } ∧ a.rl5 = 0 := ⟨_, rfl, rfl⟩
  have haop : a.toOp = s.toOp := by rw [ha]
  rw [← ha, ← haop] at hstep
  rw [← haop] at hsn hsf h hs0
  have haval : a.val = y := by rw [haop, hsval]
  obtain ⟨t, ht, ht6, htl6, ht5, ht7, htdig⟩ :=
    remno_part e (quoFlags d.toOp a.toOp) hdn hsn hdf hsf hs0 (by omega)
  rw [ht, Option.bind_some] at hstep
  -- both numbers in units of the divisor's last place
  obtain ⟨j, hj⟩ := Int.eq_ofNat_of_zero_le (show 0 ≤ d.expo - a.expo by omega)
  obtain ⟨v, hv⟩ : ∃ v : ℚ, v = 2 ^ (a.expo - bias - 63) := ⟨_, rfl⟩
  have hv0 : v ≠ 0 := hv ▸ (zpow_pos (by norm_num) _).ne'
  have hxv : x = signed d.neg (((2 ^ j * d.digits : ℕ) : ℤ) * v) := by
    have hz : (2 : ℚ) ^ (d.expo - bias - 63) = 2 ^ j * v := by
      rw [hv, ← zpow_natCast, ← zpow_add₀ (by norm_num)]
      congr 1
      omega
    rw [← hdval, Op.val, Op.mag, hz]
    congr 1
    push_cast
    ring
  have hyv : y = signed a.neg ((a.digits : ℤ) * v) := by
    rw [← haval, Op.val, Op.mag, hv, Int.cast_natCast]
  have hD : 0 < a.digits := lt_of_lt_of_le (Nat.two_pow_pos 63) hsn
  have hmul : (∃ k : ℤ, x = k * y) ↔ t.digits = 0 := by
    rw [hxv, hyv, multiple_iff hv0, Int.natCast_dvd_natCast, htdig,
      left_eq_zero_iff hD a.digits_lt (show 63 ≤ j by omega)]
  have height : ∀ k : ℤ, x = k * y → 8 ∣ k.natAbs := fun k hk => by
    rw [hxv, hyv] at hk
    exact eight_dvd_quotient hD a.digits_lt (show 66 ≤ j by omega) (natAbs_of_multiple hv0 hk)
  have hcarry : (res (quoFlags d.toOp a.toOp) 7).getLsbD 7 = false := by
    have hall : ∀ q : BitVec 8, (res q 7).getLsbD 7 = false := by decide +kernel
    exact hall _
  have htneg : t.neg = d.neg := by rw [Op.neg, ht6, Op.neg]
  have hrange := hdf.2
  have hlow : 62 ≤ t.r7.toNat ∧ t.r7.toNat < 0x7FFF := by omega
  by_cases h0 : t.digits = 0
  · obtain ⟨p, hpd, hdatum, hfield⟩ := delivery_part_zero he c (ht5.trans ha5) hlow.1 hlow.2 h0
    rw [hpd, Option.map_some] at hstep
    refine ⟨_, _, p, hstep, hcarry, fun _ => ⟨?_, hfield, by omega⟩, height,
      fun hnot => absurd (hmul.mpr h0) hnot⟩
    rw [hdatum, htneg, hdneg]
  · obtain ⟨p, hpd, hvalue⟩ := delivery_part he c (ht5.trans ha5) htl6 hlow.1 hlow.2 (Nat.pos_of_ne_zero h0)
    rw [hpd, Option.map_some] at hstep
    refine ⟨_, _, p, hstep, hcarry, fun hm => absurd (hmul.mp hm) h0, height, fun _ hless => ?_⟩
    obtain ⟨x₁, x', hx₁, hx', hk⟩ := hless.multiple
    obtain rfl : x = x₁ := Option.some.inj (hx.symm.trans hx₁)
    have hx'v : x' = signed d.neg (((2 ^ (j - 64) * t.digits : ℕ) : ℤ) * v) := by
      have hz : (2 : ℚ) ^ ((t.r7.toNat : ℤ) - bias - 63) = 2 ^ (j - 64) * v := by
        rw [hv, ← zpow_natCast, ← zpow_add₀ (by norm_num)]
        congr 1
        omega
      rw [hvalue x' hx', htneg, hz]
      congr 1
      push_cast
      ring
    have hdiff : x - x' = signed d.neg (((2 ^ j * d.digits - 2 ^ (j - 64) * (t.digits : ℕ) : ℤ) : ℚ) * v) := by
      rw [hxv, hx'v]
      cases d.neg <;> push_cast <;> simp <;> ring
    rw [hdiff, hyv, multiple_iff hv0, htdig] at hk
    exact not_dvd_less hD a.digits_lt (show 64 ≤ j by omega) (htdig ▸ h0) hk

omit hp in
/-- **Exponents more than 125 apart**: the remainder is come to only when it is zero. -/
theorem reduces_far (h : 126 ≤ expOf x - expOf y) :
    Reduces e c rh5 (.extended r7 rq8) (.extended w7 wq8) x y ↔ ∃ k : ℤ, x = k * y := by
  obtain ⟨quo, f, p, hstep, hcarry, hzero, height, hnot⟩ := part_spec he c rh5 hx hx0 hy hn h
  constructor
  · rintro ⟨fuel, l, quo', r, hrun, hchain, -⟩
    by_contra hk
    cases fuel with
    | zero => cases hrun
    | succ fuel =>
      rw [repeated_of_part hstep hcarry, Option.map_eq_some_iff] at hrun
      obtain ⟨t, -, ht⟩ := hrun
      obtain rfl : p :: t.1 = l := congrArg Prod.fst ht
      exact hnot hk hchain.rel
  · rintro ⟨k, hk⟩
    obtain ⟨hdatum, hfield, hpos⟩ := hzero ⟨k, hk⟩
    obtain ⟨quo', f', r, hlast, hquo, hr⟩ := Fremstep_of_zero he c rh5 hdatum hy hn
    have hflags : quo'.toNat = 128 + 64 * (decide (x < 0) ^^ decide (y < 0)).toNat + 8 * (k.natAbs % 8) := by
      rw [Nat.mod_eq_zero_of_dvd (height k hk), hquo, Nat.mul_zero, Nat.add_zero]
    have hsigned : signed (decide (x < 0)) (0 : ℚ) = 0 := by cases decide (x < 0) <;> simp
    have hless : Lessens y (.extended r7 rq8) p := by
      refine ⟨⟨x, 0, hx, ?_, k, by rw [hk, sub_zero]⟩, by omega⟩
      rw [Packed.value, hdatum, Datum.value, hsigned]
    refine ⟨2, [p], quo', r, ?_, List.isChain_pair.mpr hless, k, 0, isRemainder_of_multiple hx0 hk,
      fun _ => ?_, hflags⟩
    · rw [repeated_of_part hstep hcarry, repeated_of_done hlast (carry_of_flags hflags), Option.map_some]
    · rw [hr, if_pos rfl, abs_zero]

end Run

/-! ## 7. A power of two by one and by three -/

/-- The exponent of a number that is stored normalised. -/
theorem expOf_stored {r7 : BitVec 16} {rq8 : Quad} {x : ℚ} (hx : (Packed.extended r7 rq8).value = some x)
    (hn : 2 ^ 63 ≤ rq8.toNat) : expOf x = (r7.toNat % 2 ^ 15 : ℕ) := by
  rw [(value_extended hx).2]
  exact expOf_scaled _ _ (by exact_mod_cast hn) (by exact_mod_cast rq8.toNat_lt)

/-- A power of two as it is stored. -/
theorem value_two_pow (n : ℕ) (hn : n ≤ 0x3FFF) :
    (Packed.extended (BitVec.ofNat 16 (0x3FFF + n)) ⟨0x8000, 0, 0, 0⟩).value = some (2 ^ n) := by
  have h : (⟨0x8000, 0, 0, 0⟩ : Quad).toNat = 2 ^ 63 := rfl
  have h7 : (BitVec.ofNat 16 (0x3FFF + n)).toNat = 0x3FFF + n := by
    rw [BitVec.toNat_ofNat]
    omega
  have hs : (BitVec.ofNat 16 (0x3FFF + n)).getLsbD 15 = false := by
    rw [← Bool.not_eq_true, getLsbD_eq_true_iff, h7]
    omega
  have hE : (0x3FFF + n) % 2 ^ 15 = 0x3FFF + n := by omega
  have hz : ((0x3FFF + n : ℕ) : ℤ) - bias - 63 = (n : ℤ) - 63 := by
    rw [bias]
    omega
  have hscaled : (((2 ^ 63 : ℕ) : ℚ)) * 2 ^ ((n : ℤ) - 63) = 2 ^ n := by
    rw [zpow_sub₀ (by norm_num), zpow_natCast]
    norm_num
    ring
  rw [Packed.value, Packed.datum, extDatum, h, h7, hs, hE, if_neg (by omega), Datum.value, hz, signed_false,
    hscaled]

theorem value_three : (Packed.extended 0x4000 ⟨0xC000, 0, 0, 0⟩).value = some 3 := by
  have h : (⟨0xC000, 0, 0, 0⟩ : Quad).toNat = 3 * 2 ^ 62 := rfl
  have h7 : (0x4000 : BitVec 16).toNat = 0x4000 := rfl
  have hs : (0x4000 : BitVec 16).getLsbD 15 = false := rfl
  rw [Packed.value, Packed.datum, extDatum, h, h7, hs]
  norm_num [Datum.value, bias]

end Cpm8000.Fpe
