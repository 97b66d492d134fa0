/-
# Loads: a pattern unpacked and packed again

A load of a finite number checks, rounds and checks again before it is delivered; a zero, an
infinity and a NaN are just delivered.  Into the format it came from nothing of that changes a
number: it has no bits below the precision, and a denormal that was normalised on the way in is
shifted back by `under`.

* `Acc.Fits`: the accumulator as it is handed to delivery, exact.
* `single_roundTrips`, `double_roundTrips`, `extended_roundTrips`: the same bits come back, and
  nothing is flagged inexact.
* `pack_unpack`: all formats together, and the widening to extended, which loses nothing.
-/
import Cpm8000.Fpe.Pack

namespace Cpm8000.Fpe

open Arith

/-! ## 1. The three steps on an exact operand -/

/-- The accumulator after unpacking. -/
def Unpacked.acc (u : Unpacked) : Acc := { u with rl5 := 0 }

/-- An exact multiple is jammed without loss. -/
theorem jam_of_dvd {n X : ℕ} (hn : 0 < n) : jam n (X * n) = X := by
  rw [jam, if_pos (Nat.mul_mod_left X n), Nat.mul_div_cancel X hn]

theorem toOp_eq_of {s t : Op} (h6 : s.rh6 = t.rh6) (he : s.expBits = t.expBits)
    (hd : s.digits = t.digits) : s = t := by
  obtain ⟨a, b, c, q⟩ := s
  obtain ⟨a', b', c', q'⟩ := t
  have hb := b.isLt
  have hb' := b'.isLt
  have hc := c.isLt
  have hc' := c'.isLt
  have h0 := q.w0.isLt
  simp only [Op.expBits] at he
  have h1 : b = b' := BitVec.eq_of_toNat_eq (by omega)
  have h2 : c = c' := BitVec.eq_of_toNat_eq (by omega)
  have h3 : q = q' := Quad.toNat_inj hd
  have h4 : a = a' := h6
  rw [h1, h2, h3, h4]

/-- **Rounding an exact operand** leaves it alone. -/
theorem round_exact (e : Env) {s : Acc} {m : ℕ} (h5 : s.rl5 = 0)
    (hd : s.digits = m * 2 ^ (64 - e.prec)) :
    (round e s).toOp = s.toOp ∧ (round e s).inexact = s.inexact := by
  have hp : e.prec ≤ 64 := by rcases prec_cases e with h | h | h <;> rw [h] <;> norm_num
  have hpos := Nat.two_pow_pos (64 - e.prec)
  have hg : s.grs = 4 * m * 2 ^ (64 - e.prec) := by
    have hw : s.wide = 256 * s.digits := by
      rw [Acc.wide, h5]
      exact (Nat.add_zero _).trans (Nat.mul_comm _ _)
    rw [Acc.grs_eq_jam, hw, jam_64, hd, Nat.mul_assoc]
  have hj : jammed e s = 4 * m := by rw [jammed, hg, jam_of_dvd hpos]
  have hr : rounded e s = m := by
    have h4 : 4 * m / 4 = m := Nat.mul_div_cancel_left m (by norm_num)
    have hg0 : (4 * m / 2 % 2 == 1) = false := by
      rw [beq_eq_false_iff_ne]
      omega
    have ht0 : (4 * m % 2 == 1) = false := by
      rw [beq_eq_false_iff_ne]
      omega
    rw [rounded, hj, h4, hg0, ht0, roundNat]
    cases e.mode <;> cases s.neg <;> rfl
  obtain ⟨h6, hflag, hcases⟩ := round_spec e s
  rw [hj, hr] at *
  have hlt : m < 2 ^ e.prec := by
    have hs := s.digits_lt
    have hpow : 2 ^ 64 = 2 ^ e.prec * 2 ^ (64 - e.prec) := by
      rw [← Nat.pow_add]
      congr 1
      omega
    rw [hd, hpow] at hs
    exact Nat.lt_of_mul_lt_mul_right hs
  rcases hcases with ⟨-, hd', he'⟩ | ⟨hbad, -⟩
  · refine ⟨toOp_eq_of h6 he' (hd'.trans hd.symm), ?_⟩
    have hg0 : (4 * m / 2 % 2 == 1) = false := by
      rw [beq_eq_false_iff_ne]
      omega
    have ht0 : (4 * m % 2 == 1) = false := by
      rw [beq_eq_false_iff_ne]
      omega
    rw [hflag, hg0, ht0, Bool.or_false, Bool.or_false]
  · exact absurd hbad hlt.ne

/-- Shifting right by places that hold only zeros. -/
theorem shifD1_iterate_wide (n : ℕ) {s : Acc} {X : ℕ} (h : s.wide = 2 ^ n * X) :
    ((shifD1 false)^[n] s).wide = X ∧ ((shifD1 false)^[n] s).expBits = s.expBits ∧
      ((shifD1 false)^[n] s).rh6 = s.rh6 ∧ ((shifD1 false)^[n] s).rh5 = s.rh5 := by
  induction n generalizing s with
  | zero => exact ⟨by rw [Function.iterate_zero, id, h, Nat.pow_zero, Nat.one_mul], rfl, rfl, rfl⟩
  | succ n ih =>
    have hs : (shifD1 false s).wide = 2 ^ n * X := by
      have he : s.wide + 2 ^ 72 * false.toNat = 2 ^ n * X * 2 := by
        rw [h, Bool.toNat_false]
        ring
      rw [shifD1_wide, he, jam_of_dvd (by norm_num)]
    obtain ⟨h1, h2, h3, h4⟩ := ih hs
    rw [Function.iterate_succ_apply]
    exact ⟨h1, h2.trans (shifD1_expBits _ _), h3.trans (shifD1_rh6 _ _), h4.trans (shifD1_rh5 _ _)⟩

theorem shiftdigs_right {r0 : BitVec 16} (h : r0.toNat < 2 ^ 15) (s : Acc) :
    shiftdigs r0 false s = (shifD1 false)^[r0.toNat] s := by
  have hm : ¬ r0.msb = true := fun h' => by
    have := (msb_eq_true_iff r0).mp h'
    omega
  rw [shiftdigs, if_neg hm]
  by_cases h0 : r0 = 0
  · rw [if_pos h0, h0]
    rfl
  · have hpos : r0.toNat ≠ 0 := fun h' => h0 (eq_zero_of_toNat h')
    have hs : r0.toNat = r0.toNat - 1 + 1 := by omega
    rw [if_neg h0, hs, Function.iterate_succ_apply]
    rfl

/-- What is left of an operand that is denormalised exactly. -/
structure Denormalised (r0 : BitVec 16) (X : ℕ) (s t : Acc) : Prop where
  digits : t.digits = X
  rl5 : t.rl5 = 0
  rl6 : t.rl6 = 0
  r7 : t.r7 = r0
  rh6 : t.rh6 = s.rh6
  inexact : t.inexact = s.inexact

/-- **Denormalising** an operand with enough zeros at its end. -/
theorem itsunder_spec (e : Env) (ht : e.traps.getLsbD 2 = false) {r0 : BitVec 16}
    (r1 : BitVec 16) {s : Acc} {n X : ℕ} (hn : (sub r0 s.r7).val.toNat = n) (hlt : n < 2 ^ 15)
    (h5 : s.rl5 = 0) (hd : s.digits = X * 2 ^ n) :
    Denormalised r0 X s (itsunder e r0 r1 s) := by
  have hw : Acc.wide { s with rh5 := set s.rh5 2, rl6 := 0 } = 2 ^ n * (256 * X) := by
    have h : Acc.wide { s with rh5 := set s.rh5 2, rl6 := 0 } = s.digits * 256 + s.rl5.toNat := rfl
    have h0 : (0 : BitVec 8).toNat = 0 := rfl
    rw [h, h5, hd, h0]
    ring
  obtain ⟨h1, -, h6, hf⟩ := shifD1_iterate_wide n hw
  have he : itsunder e r0 r1 s = { (shifD1 false)^[n] { s with rh5 := set s.rh5 2, rl6 := 0 } with
      r7 := r0 } := by
    rw [itsunder, ht]
    simp only [Bool.false_eq_true, if_false]
    rw [shiftdigs_right (by omega), hn]
  have hl6 : ∀ k (v : Acc), ((shifD1 false)^[k] v).rl6 = v.rl6 := by
    intro k
    induction k with
    | zero => exact fun v => rfl
    | succ k ih =>
      intro v
      rw [Function.iterate_succ_apply, ih, shifD1]
  have hrl6 := hl6 n { s with rh5 := set s.rh5 2, rl6 := 0 }
  rw [he]
  generalize (shifD1 false)^[n] { s with rh5 := set s.rh5 2, rl6 := 0 } = v at *
  have hv := v.rl5.isLt
  rw [Acc.wide] at h1
  refine ⟨?_, eq_zero_of_toNat ?_, hrl6, rfl, h6, ?_⟩
  · change v.digits = X
    omega
  · change v.rl5.toNat = 0
    omega
  · change v.rh5.getLsbD 4 = s.rh5.getLsbD 4
    rw [hf, getLsbD_set _ _ _ (by norm_num)]
    exact Bool.or_false _

/-- The threshold of overflow. -/
def overThreshold (e : Env) : BitVec 16 :=
  if e.rh4.getLsbD 2 then 0x7FFE else if e.rh4.getLsbD 1 then 0x43FE else 0x407E

theorem overRange_of_le {e : Env} {s : Acc} (h : s.r7.toNat ≤ (overThreshold e).toNat) :
    overRange e s = s := by
  rw [overThreshold] at h
  simp only [overRange]
  revert h
  cases e.rh4.getLsbD 2 <;> cases e.rh4.getLsbD 1 <;> exact fun h => if_pos h

/-- A load of an operand that is exact after `under` leaves it as `under` does. -/
theorem ldno_exact {e : Env} {s : Acc} {m : ℕ} (h5 : (under e s).rl5 = 0)
    (hd : (under e s).digits = m * 2 ^ (64 - e.prec))
    (h7 : (under e s).r7.toNat ≤ (overThreshold e).toNat) :
    (ldno e s).toOp = (under e s).toOp ∧ (ldno e s).inexact = (under e s).inexact := by
  obtain ⟨h, hf⟩ := round_exact e h5 hd
  have hov : ldno e s = round e (under e s) := by
    rw [ldno]
    apply overRange_of_le
    rw [h]
    exact h7
  rw [hov]
  exact ⟨h, hf⟩

/-! ## 2. The interchange formats -/

/-- An environment that packs the interchange format of `w` and `f` bits, no trap enabled. -/
structure Packs (e : Env) (w f : ℕ) (b thr wrap : BitVec 16) : Prop where
  format : IsFormat w f b
  prec : e.prec = f + 1
  least : thr.toNat = b.toNat + 1
  most : (overThreshold e).toNat = b.toNat + 2 ^ w - 2
  check : ∀ s : Acc, under e s = under1 e thr wrap s
  noTrap : e.traps.getLsbD 2 = false

/-- **A load leaves the fields of a finite number as they were unpacked.** -/
theorem Packs.stored {e : Env} {w f : ℕ} {b thr wrap : BitVec 16} (hp : Packs e w f b thr wrap)
    {E F : ℕ} (hF : F < 2 ^ f) {u : Unpacked} (h : Spread w f b E F u)
    (hk : u.kind = .num ∨ u.kind = .zero) :
    Stored w f b E F (ldno e u.acc) ∧ (ldno e u.acc).neg = u.neg ∧
      (ldno e u.acc).inexact = u.acc.inexact := by
  obtain ⟨hb, hb'⟩ := hp.format.bias_bounds
  obtain ⟨hw4, hw11, -⟩ := hp.format.width
  have hfrac := fraction_lt hp.format.f_le hF
  have hshift : 64 - e.prec = 63 - f := by
    rw [hp.prec]
    omega
  have hthr := hp.least
  have hover := hp.most
  -- the number below the threshold is shifted back to its fraction
  have hdenorm : ∀ n, (sub thr u.acc.r7).val.toNat = n → n < 2 ^ 15 → E = 0 →
      u.digits = F * 2 ^ (63 - f) * 2 ^ n → ¬ thr.toNat ≤ u.acc.r7.toNat →
      Stored w f b E F (ldno e u.acc) ∧ (ldno e u.acc).neg = u.neg ∧
        (ldno e u.acc).inexact = u.acc.inexact := by
    intro n hn hlt hE hd hle
    have hD := itsunder_spec e hp.noTrap wrap hn hlt (s := u.acc) rfl hd
    have hund : under e u.acc = itsunder e thr wrap u.acc := by
      rw [hp.check, under1, if_neg hle]
    rw [← hund] at hD
    obtain ⟨ho, hf⟩ := ldno_exact hD.rl5 (by rw [hD.digits, hshift])
      (by rw [hD.r7, hthr, hover]; omega)
    refine ⟨⟨?_, Or.inr (Or.inl ⟨hE, ?_, Or.inl ?_⟩)⟩, ?_, hf.trans hD.inexact⟩
    · rw [ho, hD.digits]
      exact Nat.mod_eq_of_lt hfrac
    · rw [ho, hD.digits]
      exact hfrac
    · rw [ho, hD.r7, hthr]
    · rw [ho, Op.neg, hD.rh6]
      rfl
  cases h with
  | normal hE hE' kind rl6 r7 digits =>
    have hund : under e u.acc = u.acc := by
      rw [hp.check, under1]
      apply if_pos
      change thr.toNat ≤ u.r7.toNat
      omega
    have hacc : u.acc.digits = u.digits := rfl
    have hmul : u.digits = (2 ^ f + F) * 2 ^ (63 - f) := by
      have hpow : 2 ^ f * 2 ^ (63 - f) = 2 ^ 63 := by
        have := hp.format.f_le
        rw [← Nat.pow_add]
        congr 1
        omega
      rw [digits, Nat.add_mul, hpow]
    obtain ⟨ho, hf⟩ := ldno_exact (e := e) (s := u.acc) (m := 2 ^ f + F) (by rw [hund]; rfl)
      (by rw [hund, hshift, hacc, hmul]) (by
        rw [hund, hover]
        change u.r7.toNat ≤ _
        omega)
    rw [hund] at ho hf
    have hd : (ldno e u.acc).digits = 2 ^ 63 + F * 2 ^ (63 - f) := by
      rw [ho, ← digits]
      rfl
    refine ⟨⟨?_, Or.inl ⟨hE, hE', ?_, ?_⟩⟩, ?_, hf⟩
    · rw [hd, Nat.add_mod_left]
      exact Nat.mod_eq_of_lt hfrac
    · rw [ho]
      exact r7
    · rw [hd]
      exact Nat.le_add_right _ _
    · rw [ho]
      rfl
  | denormal n hE hF hn hn' kind rl6 r7 digits nrm =>
    have h7 : u.acc.r7.toNat = u.r7.toNat := rfl
    have hsub := sub_spec thr u.acc.r7
    have hv := (sub thr u.acc.r7).val.isLt
    have hc := Bool.toNat_le (sub thr u.acc.r7).c
    exact hdenorm n (by omega) (by omega) hE digits (by omega)
  | zero hE hF' kind rl6 r7 digits =>
    have h7 : u.acc.r7.toNat = 0 := r7
    have hsub := sub_spec thr u.acc.r7
    have hv := (sub thr u.acc.r7).val.isLt
    have hc := Bool.toNat_le (sub thr u.acc.r7).c
    refine hdenorm (b.toNat + 1) (by omega) (by omega) hE ?_ (by omega)
    rw [digits, hF', Nat.zero_mul, Nat.zero_mul]
  | inf hE hF kind rl6 r7 digits =>
    rw [kind] at hk
    rcases hk with h | h <;> cases h
  | nan hE hF kind =>
    rcases kind with h' | h' <;> rw [h'] at hk <;> rcases hk with h | h <;> cases h

/-- An infinity is handed to delivery as it was unpacked. -/
theorem stored_inf {w f : ℕ} {b : BitVec 16} {E F : ℕ} {u : Unpacked} (h : Spread w f b E F u)
    (hk : u.kind = .inf) : Stored w f b E F u.acc := by
  cases h with
  | inf hE hF kind rl6 r7 digits =>
    refine ⟨?_, Or.inr (Or.inr ⟨hE, r7⟩)⟩
    have hd : u.acc.digits = 0 := digits
    rw [hd, hF, Nat.zero_mul, Nat.zero_mod]
  | normal hE hE' kind =>
    rw [kind] at hk
    cases hk
  | denormal n hE hF hn hn' kind =>
    rw [kind] at hk
    cases hk
  | zero hE hF kind =>
    rw [kind] at hk
    cases hk
  | nan hE hF kind =>
    rcases kind with h' | h' <;> rw [h'] at hk <;> cases hk

/-! ## 3. The environments -/

/-- Underflow and overflow traps are disabled. -/
def Env.NoTraps (e : Env) : Prop := e.traps.getLsbD 2 = false ∧ e.traps.getLsbD 1 = false

/-- The destination is a single. -/
structure Env.Single (e : Env) : Prop where
  ext : e.rh4.getLsbD 2 = false
  double : e.rh4.getLsbD 1 = false
  single : e.rh4.getLsbD 0 = true
  noTraps : e.NoTraps

/-- The destination is a double. -/
structure Env.Double (e : Env) : Prop where
  ext : e.rh4.getLsbD 2 = false
  double : e.rh4.getLsbD 1 = true
  noTraps : e.NoTraps

/-- The destination is an extended, rounded to extended precision. -/
structure Env.Extended (e : Env) : Prop where
  ext : e.rh4.getLsbD 2 = true
  double : e.rh4.getLsbD 1 = false
  single : e.rh4.getLsbD 0 = false
  noTraps : e.NoTraps

theorem Env.Single.packs {e : Env} (h : e.Single) : Packs e 8 23 0x3F80 0x3F81 0x00C0 where
  format := isFormat_single
  prec := by
    rw [Env.prec, h.double, h.single]
    rfl
  least := rfl
  most := by
    rw [overThreshold, h.ext, h.double]
    rfl
  check := fun s => by
    rw [under, h.ext, h.double]
    rfl
  noTrap := h.noTraps.1

theorem Env.Double.packs {e : Env} (h : e.Double) : Packs e 11 52 0x3C00 0x3C01 0x0600 where
  format := isFormat_double
  prec := by
    rw [Env.prec, h.double]
    rfl
  least := rfl
  most := by
    rw [overThreshold, h.ext, h.double]
    rfl
  check := fun s => by
    rw [under, h.ext, h.double]
    rfl
  noTrap := h.noTraps.1

theorem Env.Extended.prec_eq {e : Env} (h : e.Extended) : e.prec = 64 := by
  rw [Env.prec, h.double, h.single]
  rfl

/-- A load to an extended leaves an operand with a small exponent alone. -/
theorem Env.Extended.ldno_of_small {e : Env} (h : e.Extended) {s : Acc} (h5 : s.rl5 = 0)
    (h6 : s.rl6 = 0) (h7 : s.r7.toNat ≤ 0x7FFE) :
    (ldno e s).toOp = s.toOp ∧ (ldno e s).inexact = s.inexact := by
  have hund : under e s = s := by
    have hbit : s.rl6.getLsbD 0 = false := by
      rw [h6]
      rfl
    rw [under, h.ext, if_pos rfl, hbit, if_neg Bool.false_ne_true, under1]
    exact if_pos (Nat.zero_le _)
  have hthr : (overThreshold e).toNat = 0x7FFE := by
    rw [overThreshold, h.ext]
    rfl
  have hd : (under e s).digits = s.digits * 2 ^ (64 - e.prec) := by
    rw [hund, h.prec_eq, Nat.sub_self, Nat.pow_zero, Nat.mul_one]
  have hload := ldno_exact (e := e) (s := s) (by rw [hund, h5]) hd (by rw [hund, hthr]; exact h7)
  rw [hund] at hload
  exact hload

/-- Delivery of an extended. -/
theorem Env.Extended.delivery_eq {e : Env} (h : e.Extended) (c : Bool) {s : Acc}
    (h7 : s.r7.toNat < 2 ^ 15) (hn : s.r7 = 0 ∨ s.r7 = 0x7FFF ∨ s.Normal) :
    ∃ r7, delivery e c s = some (.extended r7 s.rq8) ∧
      r7.toNat = s.neg.toNat * 2 ^ 15 + s.r7.toNat := by
  obtain ⟨h1, h2⟩ := dlvry54_spec c h7 hn
  refine ⟨_, ?_, h2⟩
  rw [delivery, h.ext, if_pos rfl]
  exact h1

/-! ## 4. The round trips -/

/-- The operand comes back as the pattern `p`: a finite one through the checks and rounding,
without being flagged inexact, an infinity by delivery alone. -/
structure RoundTrips (e : Env) (rh5 : BitVec 8) (u : Unpacked) (p : Packed) : Prop where
  finite : u.kind = .num ∨ u.kind = .zero → ∀ c, delivery e c (ldno e u.acc) = some p ∧
    (ldno e u.acc).inexact = rh5.getLsbD 4
  inf : u.kind = .inf → ∀ c, delivery e c u.acc = some p

/-- The sign bit as a number. -/
theorem sign_toNat {b : Bool} {n : ℕ} (h : b = (n % 2 == 1)) : b.toNat = n % 2 := by
  rw [h]
  rcases Nat.mod_two_eq_zero_or_one n with hn | hn <;> rw [hn] <;> rfl

/-- A pattern is put together from its sign, exponent field and fraction. -/
theorem join_fields (w f P : ℕ) (hP : P < 2 ^ (w + f + 1)) :
    P / 2 ^ (w + f) % 2 * 2 ^ (w + f) + P / 2 ^ f % 2 ^ w * 2 ^ f + P % 2 ^ f = P := by
  have h1 := Nat.div_add_mod P (2 ^ f)
  have h2 := Nat.div_add_mod (P / 2 ^ f) (2 ^ w)
  have h3 : P / 2 ^ f / 2 ^ w = P / 2 ^ (w + f) := by
    rw [Nat.div_div_eq_div_mul, ← Nat.pow_add, Nat.add_comm f w]
  have h4 : P / 2 ^ (w + f) % 2 = P / 2 ^ (w + f) := by
    apply Nat.mod_eq_of_lt
    rw [Nat.div_lt_iff_lt_mul (Nat.two_pow_pos _)]
    calc P < 2 ^ (w + f + 1) := hP
      _ = 2 * 2 ^ (w + f) := by ring
  rw [h3] at h2
  rw [h4]
  calc P / 2 ^ (w + f) * 2 ^ (w + f) + P / 2 ^ f % 2 ^ w * 2 ^ f + P % 2 ^ f
      = 2 ^ f * (2 ^ w * (P / 2 ^ (w + f)) + P / 2 ^ f % 2 ^ w) + P % 2 ^ f := by ring
    _ = P := by rw [h2, h1]

/-- **Singles come back.** -/
theorem single_roundTrips {e : Env} (he : e.Single) (p : BitVec 32) (rh5 : BitVec 8) :
    ∃ u, single p rh5 = some u ∧ u.datum = interchange 8 23 p.toNat ∧ u.WellFormed ∧
      RoundTrips e rh5 u (.single p) := by
  obtain ⟨u, hu, hneg, hf, hS⟩ := fixup_spec isFormat_single 0x3F81 0xFF rfl rfl
    (singleFields_spec p) rh5
  obtain ⟨hd, hw⟩ := hS.datum isFormat_single hneg
  have hE := Nat.mod_lt (p.toNat / 2 ^ 23) (Nat.two_pow_pos 8)
  have hF := Nat.mod_lt p.toNat (Nat.two_pow_pos 23)
  have hdel : ∀ (c : Bool) (s : Acc), delivery e c s = some (.single (dlvry51 s)) := by
    intro c s
    rw [delivery, he.ext, he.double]
    rfl
  have hback : ∀ s : Acc, s.neg = u.neg →
      Stored 8 23 0x3F80 (p.toNat / 2 ^ 23 % 2 ^ 8) (p.toNat % 2 ^ 23) s → dlvry51 s = p := by
    intro s hs hst
    apply BitVec.eq_of_toNat_eq
    rw [dlvry51_spec hst hE, hs, sign_toNat hneg]
    exact join_fields 8 23 p.toNat p.isLt
  refine ⟨u, hu, hd, hw, fun hk c => ?_, fun hk c => ?_⟩
  · obtain ⟨hst, hn, hi⟩ := he.packs.stored hF hS hk
    exact ⟨by rw [hdel, hback _ hn hst], hi.trans hf⟩
  · rw [hdel, hback u.acc rfl (stored_inf hS hk)]

/-- **Doubles come back.** -/
theorem double_roundTrips {e : Env} (he : e.Double) (m : Quad) (rh5 : BitVec 8) :
    ∃ u, double m rh5 = some u ∧ u.datum = interchange 11 52 m.toNat ∧ u.WellFormed ∧
      RoundTrips e rh5 u (.double m) := by
  obtain ⟨u, hu, hneg, hf, hS⟩ := fixup_spec isFormat_double 0x3C01 0x7FF rfl rfl
    (doubleFields_spec m) rh5
  obtain ⟨hd, hw⟩ := hS.datum isFormat_double hneg
  have hE := Nat.mod_lt (m.toNat / 2 ^ 52) (Nat.two_pow_pos 11)
  have hF := Nat.mod_lt m.toNat (Nat.two_pow_pos 52)
  have hdel : ∀ (c : Bool) (s : Acc), delivery e c s = some (.double (dlvry53 s)) := by
    intro c s
    rw [delivery, he.ext, he.double]
    rfl
  have hback : ∀ s : Acc, s.neg = u.neg →
      Stored 11 52 0x3C00 (m.toNat / 2 ^ 52 % 2 ^ 11) (m.toNat % 2 ^ 52) s → dlvry53 s = m := by
    intro s hs hst
    apply Quad.toNat_inj
    rw [dlvry53_spec hst hE hF, hs, sign_toNat hneg]
    exact join_fields 11 52 m.toNat m.toNat_lt
  refine ⟨u, hu, hd, hw, fun hk c => ?_, fun hk c => ?_⟩
  · obtain ⟨hst, hn, hi⟩ := he.packs.stored hF hS hk
    exact ⟨by rw [hdel, hback _ hn hst], hi.trans hf⟩
  · rw [hdel, hback u.acc rfl (stored_inf hS hk)]

/-- A load of an extended operand gives back exponent field, significand and sign. -/
theorem ExtSpread.load {e : Env} (he : e.Extended) {E D : ℕ} {u : Unpacked}
    (h : ExtSpread E D u) (hk : u.kind = .num ∨ u.kind = .zero) :
    (ldno e u.acc).r7.toNat = E ∧ (ldno e u.acc).digits = D ∧ (ldno e u.acc).neg = u.neg ∧
      (ldno e u.acc).inexact = u.acc.inexact := by
  cases h with
  | normal hE hD kind rl6 r7 digits =>
    have h7 : u.acc.r7.toNat = E := r7
    obtain ⟨ho, hf⟩ := he.ldno_of_small (s := u.acc) rfl rl6 (by omega)
    rw [ho, hf]
    exact ⟨r7, digits, rfl, rfl⟩
  | denormal n hE hD hD' hn hn' kind rl6 r7 digits nrm =>
    have hbit : u.acc.rl6.getLsbD 0 = true := by
      have h6 : u.acc.rl6 = 0xFF := rl6
      rw [h6]
      rfl
    have hund : under e u.acc = itsunder e 0 0x6000 u.acc := by
      rw [under, he.ext, if_pos rfl, if_pos hbit]
    have h7 : u.acc.r7.toNat = u.r7.toNat := rfl
    have hsub : (sub 0 u.acc.r7).val.toNat = n := by
      have hs := sub_spec 0 u.acc.r7
      have h0 : (0 : BitVec 16).toNat = 0 := rfl
      have hv := (sub 0 u.acc.r7).val.isLt
      rw [h0, Nat.zero_add] at hs
      omega
    have hD := itsunder_spec e he.noTraps.1 0x6000 hsub (by omega) (s := u.acc) rfl digits
    rw [← hund] at hD
    have hpow : D * 2 ^ (64 - e.prec) = D := by
      rw [he.prec_eq, Nat.sub_self, Nat.pow_zero, Nat.mul_one]
    obtain ⟨ho, hf⟩ := ldno_exact hD.rl5 (by rw [hD.digits, hpow]) (by
      rw [hD.r7]
      exact Nat.zero_le _)
    rw [ho, hf, hD.r7, hE]
    refine ⟨rfl, hD.digits, ?_, hD.inexact⟩
    rw [Op.neg, hD.rh6]
    rfl
  | zero hE hD kind rl6 r7 digits =>
    have h7 : u.acc.r7.toNat = 0 := r7
    obtain ⟨ho, hf⟩ := he.ldno_of_small (s := u.acc) rfl rl6 (by omega)
    rw [ho, hf, hE, hD]
    exact ⟨r7, digits, rfl, rfl⟩
  | inf hE hD kind =>
    rw [kind] at hk
    rcases hk with h | h <;> cases h

/-- **Extendeds come back.** -/
theorem extended_roundTrips {e : Env} (he : e.Extended) (r7 : BitVec 16) (rq8 : Quad)
    (rh5 : BitVec 8) (hext : IsExt (r7.toNat % 2 ^ 15) rq8.toNat) :
    ∃ u, extended r7 rq8 rh5 = some u ∧ u.datum = extDatum r7 rq8 ∧ u.WellFormed ∧
      RoundTrips e rh5 u (.extended r7 rq8) := by
  obtain ⟨u, hu, hneg, hf, hS⟩ := extended_spec r7 rq8 rh5 hext
  obtain ⟨hd, hw⟩ := hS.datum hneg
  have hlt := Nat.mod_lt r7.toNat (Nat.two_pow_pos 15)
  have hback : ∀ (c : Bool) (s : Acc), s.neg = u.neg → s.r7.toNat = r7.toNat % 2 ^ 15 →
      s.digits = rq8.toNat → delivery e c s = some (.extended r7 rq8) := by
    intro c s hs h7 hdig
    have hn : s.r7 = 0 ∨ s.r7 = 0x7FFF ∨ s.Normal := by
      rcases hext with ⟨-, hD⟩ | ⟨hE, -⟩ | ⟨hE, -⟩
      · refine Or.inr (Or.inr ?_)
        rw [Op.Normal, hdig]
        exact hD
      · exact Or.inl (eq_zero_of_toNat (h7.trans hE))
      · exact Or.inr (Or.inl (BitVec.eq_of_toNat_eq (h7.trans hE)))
    obtain ⟨x, hx, hxv⟩ := he.delivery_eq c (h7 ▸ hlt) hn
    have hq : s.rq8 = rq8 := Quad.toNat_inj hdig
    have hr : x = r7 := by
      apply BitVec.eq_of_toNat_eq
      have hb := toNat_getLsbD r7 15
      have h16 := r7.isLt
      rw [hxv, h7, hs, hneg, hb]
      omega
    rw [hx, hq, hr]
  refine ⟨u, hu, hd, hw, fun hk c => ?_, fun hk c => ?_⟩
  · obtain ⟨h7, hdig, hn, hi⟩ := hS.load he hk
    exact ⟨hback c _ hn h7 hdig, hi.trans hf⟩
  · cases hS with
    | inf hE hD kind rl6 r7' digits =>
      exact hback c u.acc rfl (r7'.trans hE.symm) (digits.trans hD.symm)
    | normal hE hD kind =>
      rw [kind] at hk
      cases hk
    | denormal n hE hD hD' hn hn' kind =>
      rw [kind] at hk
      cases hk
    | zero hE hD kind =>
      rw [kind] at hk
      cases hk

/-! ## 5. Widening -/

/-- What a load hands to delivery: numbers are checked and rounded, zeros and infinities are
just delivered. -/
def actld (e : Env) (u : Unpacked) : Acc :=
  match u.kind with
  | .num => ldno e u.acc
  | _ => u.acc

/-- The operand is delivered as an extended that unpacks to the same operand, and nothing is
flagged inexact. -/
def Widens (e : Env) (u : Unpacked) : Prop :=
  ∀ c, (actld e u).inexact = u.acc.inexact ∧
    ∃ r7 rq8, delivery e c (actld e u) = some (.extended r7 rq8) ∧
      ∀ rh5, ∃ v, extended r7 rq8 rh5 = some v ∧ v.kind = u.kind ∧ v.neg = u.neg ∧
        v.expBits = u.expBits ∧ v.digits = u.digits ∧ v.datum = u.datum

/-- The datum of an operand that is no NaN is determined by its fields. -/
theorem datum_congr {u v : Unpacked} (hk : v.kind = u.kind) (hn : v.neg = u.neg)
    (he : v.expBits = u.expBits) (hd : v.digits = u.digits) : v.datum = u.datum := by
  have hexpo : v.expo = u.expo := by rw [Op.expo, Op.expo, he]
  have hmag : v.mag = u.mag := by rw [Op.mag, Op.mag, hd, hexpo]
  rw [Unpacked.datum, Unpacked.datum, hk, hn, hmag]

/-- **Widening loses nothing.** -/
theorem Spread.widens {w f : ℕ} {b : BitVec 16} (hfmt : IsFormat w f b) {E F : ℕ} {u : Unpacked}
    (h : Spread w f b E F u) (hk : u.kind = .num ∨ u.kind = .zero ∨ u.kind = .inf) {e : Env}
    (he : e.Extended) : Widens e u := by
  obtain ⟨hb, hb'⟩ := hfmt.bias_bounds
  obtain ⟨hw4, hw11, -⟩ := hfmt.width
  -- the exponent is in the low word, and the operand is of its case
  obtain ⟨h6, h7, hcase⟩ : u.rl6 = 0 ∧ u.r7.toNat < 2 ^ 15 ∧
      ((u.kind = .num ∧ u.r7.toNat < 0x7FFF ∧ 2 ^ 63 ≤ u.digits) ∨
        (u.kind = .zero ∧ u.r7.toNat = 0 ∧ u.digits = 0) ∨
        (u.kind = .inf ∧ u.r7.toNat = 0x7FFF ∧ u.digits = 0)) := by
    cases h with
    | normal hE hE' kind rl6 r7 digits =>
      exact ⟨rl6, by omega, Or.inl ⟨kind, by omega, by omega⟩⟩
    | denormal n hE hF hn hn' kind rl6 r7 digits nrm =>
      exact ⟨rl6, by omega, Or.inl ⟨kind, by omega, nrm⟩⟩
    | zero hE hF kind rl6 r7 digits => exact ⟨rl6, by omega, Or.inr (Or.inl ⟨kind, r7, digits⟩)⟩
    | inf hE hF kind rl6 r7 digits => exact ⟨rl6, by omega, Or.inr (Or.inr ⟨kind, r7, digits⟩)⟩
    | nan hE hF kind =>
      rcases kind with h' | h' <;> rw [h'] at hk <;> rcases hk with h | h | h <;> cases h
  have hexp : u.expBits = u.r7.toNat := by
    rw [Op.expBits, h6]
    exact Nat.zero_add _
  have hext : IsExt u.r7.toNat u.digits := by
    rcases hcase with ⟨-, h1, h2⟩ | ⟨-, h1, h2⟩ | ⟨-, h1, h2⟩
    · exact Or.inl ⟨h1, h2⟩
    · exact Or.inr (Or.inl ⟨h1, by omega⟩)
    · exact Or.inr (Or.inr ⟨h1, h2⟩)
  have hact : (actld e u).toOp = u.toOp ∧ (actld e u).inexact = u.acc.inexact := by
    rcases hcase with ⟨hk', h1, -⟩ | ⟨hk', -⟩ | ⟨hk', -⟩
    · rw [actld, hk']
      exact he.ldno_of_small (s := u.acc) rfl h6 (Nat.lt_succ_iff.mp h1)
    · rw [actld, hk']
      exact ⟨rfl, rfl⟩
    · rw [actld, hk']
      exact ⟨rfl, rfl⟩
  intro c
  have hn : (actld e u).r7 = 0 ∨ (actld e u).r7 = 0x7FFF ∨ (actld e u).Normal := by
    rw [hact.1]
    rcases hcase with ⟨-, -, h2⟩ | ⟨-, h1, -⟩ | ⟨-, h1, -⟩
    · exact Or.inr (Or.inr h2)
    · exact Or.inl (eq_zero_of_toNat h1)
    · exact Or.inr (Or.inl (BitVec.eq_of_toNat_eq h1))
  obtain ⟨r7, hdel, hr7⟩ := he.delivery_eq c (by rw [hact.1]; exact h7) hn
  rw [hact.1] at hdel hr7
  have hE : r7.toNat % 2 ^ 15 = u.r7.toNat := by
    rw [hr7]
    omega
  have hsgn : r7.getLsbD 15 = u.neg := by
    have hb := toNat_getLsbD r7 15
    rw [hr7] at hb
    have hc := Bool.toNat_le u.neg
    have hval : (r7.getLsbD 15).toNat = u.neg.toNat := by omega
    revert hval
    cases r7.getLsbD 15 <;> cases u.neg <;> simp
  refine ⟨hact.2, r7, u.rq8, hdel, fun rh5 => ?_⟩
  obtain ⟨v, hv, hneg, -, hS⟩ := extended_spec r7 u.rq8 rh5 (by rw [hE]; exact hext)
  have hD : u.rq8.toNat = u.digits := rfl
  rw [hE, hD] at hS
  have hfields : v.kind = u.kind ∧ v.expBits = u.expBits ∧ v.digits = u.digits := by
    rw [hexp, Op.expBits]
    cases hS with
    | normal hE' hD' kind rl6 r7' digits =>
      rcases hcase with ⟨hk', -, -⟩ | ⟨-, -, h2⟩ | ⟨-, -, h2⟩
      · exact ⟨kind.trans hk'.symm, by rw [rl6, r7']; exact Nat.zero_add _, digits⟩
      · omega
      · omega
    | denormal n hE' hD' hD'' hn hn' kind rl6 r7' digits nrm =>
      rcases hcase with ⟨-, -, h2⟩ | ⟨-, -, h2⟩ | ⟨-, -, h2⟩ <;> omega
    | zero hE' hD' kind rl6 r7' digits =>
      rcases hcase with ⟨-, -, h2⟩ | ⟨hk', -, -⟩ | ⟨-, h1, -⟩
      · omega
      · exact ⟨kind.trans hk'.symm, by rw [rl6, r7', hE']; rfl, digits.trans hD'.symm⟩
      · omega
    | inf hE' hD' kind rl6 r7' digits =>
      rcases hcase with ⟨-, -, h2⟩ | ⟨-, h1, -⟩ | ⟨hk', -, -⟩
      · omega
      · omega
      · exact ⟨kind.trans hk'.symm, by rw [rl6, r7', hE']; rfl, digits.trans hD'.symm⟩
  obtain ⟨h1, h2, h3⟩ := hfields
  exact ⟨v, hv, h1, hneg.trans hsgn, h2, h3, datum_congr h1 (hneg.trans hsgn) h2 h3⟩

/-! ## 6. All formats -/

/-- A pattern that is no NaN is unpacked as a number, a zero or an infinity. -/
theorem kind_of_datum {u : Unpacked} (h : u.datum ≠ .nan) :
    u.kind = .num ∨ u.kind = .zero ∨ u.kind = .inf := by
  rw [Unpacked.datum] at h
  cases hk : u.kind with
  | num => exact Or.inl rfl
  | zero => exact Or.inr (Or.inl rfl)
  | inf => exact Or.inr (Or.inr rfl)
  | qnan =>
    rw [hk] at h
    exact absurd rfl h
  | snan =>
    rw [hk] at h
    exact absurd rfl h

/-- **Unpacking and packing are inverse.**  Every pattern that is a zero, a denormal, a normal
number or an infinity is unpacked to the datum it denotes and comes back from the same format;
widened to an extended, a single or a double loses nothing. -/
theorem pack_unpack :
    (∀ e : Env, e.Single → ∀ (p : BitVec 32) (rh5 : BitVec 8),
      ∃ u, single p rh5 = some u ∧ u.datum = interchange 8 23 p.toNat ∧ u.WellFormed ∧
        RoundTrips e rh5 u (.single p)) ∧
    (∀ e : Env, e.Double → ∀ (m : Quad) (rh5 : BitVec 8),
      ∃ u, double m rh5 = some u ∧ u.datum = interchange 11 52 m.toNat ∧ u.WellFormed ∧
        RoundTrips e rh5 u (.double m)) ∧
    (∀ e : Env, e.Extended → ∀ (r7 : BitVec 16) (rq8 : Quad) (rh5 : BitVec 8),
      IsExt (r7.toNat % 2 ^ 15) rq8.toNat →
      ∃ u, extended r7 rq8 rh5 = some u ∧ u.datum = extDatum r7 rq8 ∧ u.WellFormed ∧
        RoundTrips e rh5 u (.extended r7 rq8)) ∧
    (∀ e : Env, e.Extended → ∀ (p : BitVec 32) (rh5 : BitVec 8),
      interchange 8 23 p.toNat ≠ .nan → ∃ u, single p rh5 = some u ∧ Widens e u) ∧
    (∀ e : Env, e.Extended → ∀ (m : Quad) (rh5 : BitVec 8),
      interchange 11 52 m.toNat ≠ .nan → ∃ u, double m rh5 = some u ∧ Widens e u) := by
  refine ⟨fun e he p rh5 => single_roundTrips he p rh5,
    fun e he m rh5 => double_roundTrips he m rh5,
    fun e he r7 rq8 rh5 h => extended_roundTrips he r7 rq8 rh5 h, ?_, ?_⟩
  · intro e he p rh5 hnan
    obtain ⟨u, hu, hneg, -, hS⟩ := fixup_spec isFormat_single 0x3F81 0xFF rfl rfl
      (singleFields_spec p) rh5
    have hd := (hS.datum isFormat_single hneg).1
    exact ⟨u, hu, hS.widens isFormat_single (kind_of_datum (hd ▸ hnan)) he⟩
  · intro e he m rh5 hnan
    obtain ⟨u, hu, hneg, -, hS⟩ := fixup_spec isFormat_double 0x3C01 0x7FF rfl rfl
      (doubleFields_spec m) rh5
    have hd := (hS.datum isFormat_double hneg).1
    exact ⟨u, hu, hS.widens isFormat_double (kind_of_datum (hd ▸ hnan)) he⟩

/-- The three formats, rounding to nearest, and the single rounding towards zero. -/
def toSingle : Env := ⟨0x01, 0, 0⟩

def toDouble : Env := ⟨0x03, 0, 0⟩

def toExtended : Env := ⟨0x04, 0, 0⟩

def toSingleChop : Env := ⟨0x01, 0x04, 0⟩

theorem toSingle_single : toSingle.Single := ⟨rfl, rfl, rfl, rfl, rfl⟩

theorem toDouble_double : toDouble.Double := ⟨rfl, rfl, rfl, rfl⟩

theorem toExtended_extended : toExtended.Extended := ⟨rfl, rfl, rfl, rfl, rfl⟩

theorem toSingleChop_single : toSingleChop.Single := ⟨rfl, rfl, rfl, rfl, rfl⟩

/-- The number one is no NaN. -/
theorem interchange_one : interchange 8 23 (0x3F800000 : BitVec 32).toNat ≠ .nan := by
  have h : (0x3F800000 : BitVec 32).toNat = 0x3F800000 := rfl
  rw [h, interchange]
  norm_num
  intro h
  cases h

theorem interchange_one_double :
    interchange 11 52 (⟨0x3FF0, 0, 0, 0⟩ : Quad).toNat ≠ .nan := by
  have h : (⟨0x3FF0, 0, 0, 0⟩ : Quad).toNat = 0x3FF0000000000000 := rfl
  rw [h, interchange]
  norm_num
  intro h
  cases h

/-- The theorem at the number one. -/
theorem pack_unpack_one :
    (∃ u, single 0x3F800000 0 = some u ∧
        u.datum = interchange 8 23 (0x3F800000 : BitVec 32).toNat ∧ u.WellFormed ∧
        RoundTrips toSingle 0 u (.single 0x3F800000)) ∧
      (∃ u, double ⟨0x3FF0, 0, 0, 0⟩ 0 = some u ∧
        u.datum = interchange 11 52 (⟨0x3FF0, 0, 0, 0⟩ : Quad).toNat ∧ u.WellFormed ∧
        RoundTrips toDouble 0 u (.double ⟨0x3FF0, 0, 0, 0⟩)) ∧
      (∃ u, extended 0x3FFF ⟨0x8000, 0, 0, 0⟩ 0 = some u ∧
        u.datum = extDatum 0x3FFF ⟨0x8000, 0, 0, 0⟩ ∧ u.WellFormed ∧
        RoundTrips toExtended 0 u (.extended 0x3FFF ⟨0x8000, 0, 0, 0⟩)) ∧
      (∃ u, single 0x3F800000 0 = some u ∧ Widens toExtended u) ∧
      ∃ u, double ⟨0x3FF0, 0, 0, 0⟩ 0 = some u ∧ Widens toExtended u :=
  ⟨pack_unpack.1 toSingle toSingle_single 0x3F800000 0,
    pack_unpack.2.1 toDouble toDouble_double ⟨0x3FF0, 0, 0, 0⟩ 0,
    pack_unpack.2.2.1 toExtended toExtended_extended 0x3FFF ⟨0x8000, 0, 0, 0⟩ 0
      (Or.inl ⟨by decide, by decide⟩),
    pack_unpack.2.2.2.1 toExtended toExtended_extended 0x3F800000 0 interchange_one,
    pack_unpack.2.2.2.2 toExtended toExtended_extended ⟨0x3FF0, 0, 0, 0⟩ 0 interchange_one_double⟩

/-- The check for overflow takes an infinity for a number that is too large: rounding towards
zero it becomes a finite number, and it is flagged inexact.  So infinities must not go through
it. -/
theorem infinity_overflows :
    ¬ ∀ e : Env, e.Single → ∀ p : BitVec 32, interchange 8 23 p.toNat ≠ .nan →
      ∃ u, single p 0 = some u ∧ ∀ c, delivery e c (ldno e u.acc) = some (.single p) ∧
        (ldno e u.acc).inexact = false := by
  intro h
  have hnan : interchange 8 23 (0x7F800000 : BitVec 32).toNat ≠ .nan := by
    have h : (0x7F800000 : BitVec 32).toNat = 0x7F800000 := rfl
    rw [h, interchange]
    norm_num
    intro h
    cases h
  obtain ⟨u, hu, hback⟩ := h toSingleChop toSingleChop_single 0x7F800000 hnan
  have hv : single 0x7F800000 0 = some ⟨⟨0, 0, 0x7FFF, Quad.zero⟩, .inf, 0⟩ := by decide +kernel
  rw [hv] at hu
  obtain rfl := Option.some.inj hu
  exact absurd (hback false).2 (by decide +kernel)

end Cpm8000.Fpe
