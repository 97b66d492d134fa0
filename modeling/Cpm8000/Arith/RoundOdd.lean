/-
# Sticky bits: rounding to odd loses nothing a later rounding needs

A datapath that has to round keeps, below the bits it will return, one guard bit and one
sticky bit.  The sticky bit turns a truncated number into the number ROUNDED TO ODD: either it
is the exact value, or it is odd and within one unit of it (`RoundOdd`).

* `RoundOdd.jam`: shifting right and folding what falls off into the last bit keeps the
  relation, at any distance.
* `RoundOdd.roundInt_eq` and `RoundOdd.floor_eq_self_iff`: with at least two such bits below
  the result, the rounding of the exact number in every mode, and whether it was exact, are
  functions of the integer part and the two bits (`roundNat`).
-/
import Cpm8000.Arith.Rounding

namespace Cpm8000.Arith

variable {K : Type*} [Field K] [LinearOrder K]

/-- `X` stands for the exact `x`: it is `x` itself, or odd and less than one unit away. -/
def RoundOdd (x : K) (X : ℕ) : Prop :=
  x = X ∨ (X % 2 = 1 ∧ (X : K) - 1 < x ∧ x < X + 1)

/-- Divide by `n` and fold a nonzero remainder into the last bit. -/
def jam (n X : ℕ) : ℕ := if X % n = 0 then X / n else X / n / 2 * 2 + 1

theorem jam_one (X : ℕ) : jam 1 X = X := by
  rw [jam, if_pos (Nat.mod_one X), Nat.div_one]

/-- A common factor of the number and the divisor can be left out. -/
theorem jam_mul_left {k : ℕ} (hk : 0 < k) (n X : ℕ) : jam (k * n) (k * X) = jam n X := by
  have hmod : k * X % (k * n) = 0 ↔ X % n = 0 := by
    rw [Nat.mul_mod_mul_left]
    simp [hk.ne']
  rw [jam, jam, Nat.mul_div_mul_left _ _ hk]
  simp only [hmod]

/-- Sticky halving never makes a number zero. -/
theorem jam_two_pos {X : ℕ} (h : 0 < X) : 0 < jam 2 X := by
  rw [jam]
  split_ifs <;> omega

theorem roundOdd_natCast (X : ℕ) : RoundOdd (X : K) X := Or.inl rfl

variable [IsStrictOrderedRing K]

/-- A number strictly between two neighbours is rounded to odd by whichever of them is odd. -/
theorem roundOdd_of_between {x : K} {q : ℕ} (h1 : (q : K) < x) (h2 : x < q + 1) :
    RoundOdd x (q / 2 * 2 + 1) := by
  refine Or.inr ⟨by omega, ?_⟩
  rcases Nat.mod_two_eq_zero_or_one q with hq | hq
  · have e : q / 2 * 2 + 1 = q + 1 := by omega
    rw [e]
    push_cast
    exact ⟨by linarith, by linarith⟩
  · have e : q / 2 * 2 + 1 = q := by omega
    rw [e]
    exact ⟨by linarith, h2⟩

/-- **The sticky shift.**  Dividing by an even `n` with the remainder folded in keeps the
relation to the exact quotient. -/
theorem RoundOdd.jam {x : K} {X n : ℕ} (h : RoundOdd x X) (hn : 0 < n) (heven : n % 2 = 0) :
    RoundOdd (x / n) (jam n X) := by
  have hnK : (0 : K) < n := by exact_mod_cast hn
  have hX : n * (X / n) + X % n = X := Nat.div_add_mod X n
  have hXK : (n : K) * (X / n : ℕ) + (X % n : ℕ) = X := by exact_mod_cast hX
  have hrlt : X % n < n := Nat.mod_lt X hn
  rw [Arith.jam]
  by_cases hr : X % n = 0
  · rw [if_pos hr]
    have hodd : X % 2 = 0 := by
      obtain ⟨k, hk⟩ := Nat.dvd_of_mod_eq_zero heven
      obtain ⟨l, hl⟩ := Nat.dvd_of_mod_eq_zero hr
      rw [hl, hk, Nat.mul_assoc]
      exact Nat.mul_mod_right 2 _
    rcases h with rfl | ⟨h1, -⟩
    · left
      rw [div_eq_iff hnK.ne', ← hXK, hr]
      push_cast
      ring
    · omega
  · rw [if_neg hr]
    -- in both cases `x` lies strictly inside the block of `n` that holds `X`
    have hin : (n : K) * (X / n : ℕ) < x ∧ x < n * (X / n : ℕ) + n := by
      rcases h with rfl | ⟨hodd, h1, h2⟩
      · rw [← hXK]
        have hpos : (0 : K) < (X % n : ℕ) := by exact_mod_cast Nat.pos_of_ne_zero hr
        have hlt : ((X % n : ℕ) : K) < n := by exact_mod_cast hrlt
        exact ⟨by linarith, by linarith⟩
      · have hne : X % n + 1 ≤ n := hrlt
        have hge : (1 : K) ≤ (X % n : ℕ) := by exact_mod_cast Nat.pos_of_ne_zero hr
        have hle : ((X % n : ℕ) : K) + 1 ≤ n := by exact_mod_cast hne
        exact ⟨by linarith, by linarith⟩
    refine roundOdd_of_between ?_ ?_
    · rw [lt_div_iff₀ hnK]
      linarith [hin.1]
    · rw [div_lt_iff₀ hnK]
      linarith [hin.2]

/-- Halving, the lost bit folded in, any number of times. -/
theorem RoundOdd.jam_iterate {x : K} {X : ℕ} (h : RoundOdd x X) (d : ℕ) :
    RoundOdd (x / 2 ^ d) ((Arith.jam 2)^[d] X) := by
  induction d with
  | zero => simpa using h
  | succ d ih =>
    rw [Function.iterate_succ_apply', pow_succ, ← div_div]
    exact_mod_cast ih.jam (n := 2) (by norm_num) (by norm_num)

/-- Adding an even number keeps the relation. -/
theorem RoundOdd.natCast_add {x : K} {X k : ℕ} (h : RoundOdd x X) (hk : k % 2 = 0) :
    RoundOdd (k + x) (k + X) := by
  rcases h with rfl | ⟨hodd, h1, h2⟩
  · exact Or.inl (by push_cast; rfl)
  · refine Or.inr ⟨by omega, ?_, ?_⟩ <;> push_cast <;> linarith

/-- So does subtracting from one. -/
theorem RoundOdd.natCast_sub {x : K} {X k : ℕ} (h : RoundOdd x X) (hk : k % 2 = 0)
    (hX : X ≤ k) : RoundOdd (k - x) (k - X) := by
  rcases h with rfl | ⟨hodd, h1, h2⟩
  · exact Or.inl (by push_cast [hX]; rfl)
  · refine Or.inr ⟨by omega, ?_, ?_⟩ <;> push_cast [hX] <;> linarith

/-- What is rounded to odd is less than one unit above the exact number. -/
theorem RoundOdd.lt_add_one {x : K} {X : ℕ} (h : RoundOdd x X) : (X : K) < x + 1 := by
  rcases h with rfl | ⟨-, h1, -⟩ <;> linarith

/-! ## The rounding that a guard and a sticky bit decide -/

/-- Whether a magnitude with integer part `q`, guard bit `g` and sticky bit `s` is rounded
up. -/
def roundUp (m : RoundMode) (neg : Bool) (q : ℕ) (g s : Bool) : Bool :=
  match m with
  | .nearest => g && (s || q % 2 == 1)
  | .chop => false
  | .plusInf => !neg && (g || s)
  | .minusInf => neg && (g || s)

/-- The integer such a magnitude rounds to. -/
def roundNat (m : RoundMode) (neg : Bool) (q : ℕ) (g s : Bool) : ℕ :=
  q + (roundUp m neg q g s).toNat

variable [FloorRing K]

/-- What the two bits say about the exact number. -/
theorem RoundOdd.bounds {y : K} {q : ℕ} {g s : Bool}
    (h : RoundOdd (4 * y) (4 * q + 2 * g.toNat + s.toNat)) :
    match g, s with
    | false, false => y = q
    | false, true => (q : K) < y ∧ y < q + 1 / 2
    | true, false => y = q + 1 / 2
    | true, true => (q : K) + 1 / 2 < y ∧ y < q + 1 := by
  cases g <;> cases s <;>
    simp only [RoundOdd, Bool.toNat_false, Bool.toNat_true] at h ⊢ <;>
    push_cast at h <;>
    rcases h with h | ⟨hodd, h1, h2⟩ <;>
    first
      | omega
      | linarith
      | exact ⟨by linarith, by linarith⟩

/-- **Two bits decide every rounding.** -/
theorem RoundOdd.roundInt_eq {y : K} {q : ℕ} {g s : Bool}
    (h : RoundOdd (4 * y) (4 * q + 2 * g.toNat + s.toNat)) (m : RoundMode) (neg : Bool) :
    roundInt m neg y = roundNat m neg q g s := by
  have hb := h.bounds
  have hfl : ⌊y⌋ = (q : ℤ) := by
    rw [Int.floor_eq_iff]
    push_cast
    cases g <;> cases s <;> simp only at hb <;>
      exact ⟨by linarith, by linarith⟩
  have hfr : Int.fract y = y - q := by
    rw [Int.fract, hfl]
    push_cast
    rfl
  have hdvd : (2 ∣ (q : ℤ)) ↔ q % 2 = 0 := by omega
  have hceil : g = true ∨ s = true → ⌈y⌉ = (q : ℤ) + 1 := by
    intro hgs
    rw [Int.ceil_eq_iff]
    push_cast
    cases g <;> cases s <;> simp only at hb
    · simp at hgs
    · exact ⟨by linarith [hb.1], by linarith [hb.2]⟩
    · exact ⟨by linarith, by linarith⟩
    · exact ⟨by linarith [hb.1], by linarith [hb.2]⟩
  have hceil0 : g = false → s = false → ⌈y⌉ = (q : ℤ) := by
    rintro rfl rfl
    simp only at hb
    rw [hb, Int.ceil_natCast]
  cases m with
  | nearest =>
    simp only [roundInt, roundNat, roundUp, hfl, hfr, hdvd]
    cases g <;> cases s <;> simp only at hb
    · rw [if_pos (by linarith)]
      simp
    · rw [if_pos (by linarith [hb.2])]
      simp
    · rw [if_neg (by linarith), if_neg (by linarith)]
      rcases Nat.mod_two_eq_zero_or_one q with hq | hq <;> simp [hq]
    · rw [if_neg (by linarith [hb.1]), if_pos (by linarith [hb.1])]
      simp
  | chop => simp [roundInt, roundNat, roundUp, hfl]
  | plusInf =>
    cases neg <;> cases g <;> cases s <;>
      simp [roundInt, roundNat, roundUp, hfl, hceil, hceil0]
  | minusInf =>
    cases neg <;> cases g <;> cases s <;>
      simp [roundInt, roundNat, roundUp, hfl, hceil, hceil0]

/-- **... and whether anything was lost.** -/
theorem RoundOdd.floor_eq_self_iff {y : K} {q : ℕ} {g s : Bool}
    (h : RoundOdd (4 * y) (4 * q + 2 * g.toNat + s.toNat)) :
    (⌊y⌋ : K) = y ↔ g = false ∧ s = false := by
  have hb := h.bounds
  constructor
  · intro hy
    have hlt : y < q + 1 := by
      cases g <;> cases s <;> simp only at hb <;> linarith
    have hle : (q : K) ≤ y := by
      cases g <;> cases s <;> simp only at hb <;> linarith
    have hfl : ⌊y⌋ = (q : ℤ) := by
      rw [Int.floor_eq_iff]
      push_cast
      exact ⟨hle, hlt⟩
    rw [hfl] at hy
    push_cast at hy
    cases g <;> cases s <;> simp only at hb <;>
      first
        | exact ⟨rfl, rfl⟩
        | (exfalso; linarith)
  · rintro ⟨rfl, rfl⟩
    simp only at hb
    rw [hb, Int.floor_natCast, Int.cast_natCast]

end Cpm8000.Arith
