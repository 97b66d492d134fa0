/-
# Symbol names

The scanner cuts a symbol to eight characters. It is compared and copied up to its terminator, or up to
the eighth character where there is none. `symcpy` is what is copied of a string; `symcmp` tells two
strings by it, in the order of `nameKey`: `symcmp_eq_zero`, `symcmp_neg`, `symcmp_pos`.

Whether a `char` has a sign is not said in C; it is a parameter.
-/
import Cpm8000.Sys.Bytes
import Mathlib.Data.List.Lex

namespace Cpm8000.Asm

open Cpm8000.Sys

def SYMSIZ : ℕ := 8
def SHSHLOG : ℕ := 9

/-! ## 1. The code -/

/-- The value of a `char`. -/
def charval (signed : Bool) (b : Byte) : ℤ := if signed then b.toInt else b.toNat

/-- The loop of `symcmp`, which begins at `SYMSIZ`. -/
def symcmp (signed : Bool) : ℕ → List Byte → List Byte → ℤ
  | i + 1, x :: a, y :: b =>
    if x = y then
      if x = 0 then 0 else symcmp signed i a b
    else charval signed x - charval signed y
  | _, _, _ => 0

/-- The bytes that `symcpy` stores, for `SYMSIZ` at the most. -/
def symcpy : ℕ → List Byte → List Byte
  | i + 1, x :: s => if x = 0 then [0] else x :: symcpy i s
  | _, _ => []

/-- `hash`, up to the terminator. -/
def hash (signed : Bool) (s : List Byte) : BitVec 16 :=
  (s.takeWhile (· ≠ 0)).foldl (fun (h : BitVec 16) c => (h <<< 1) + BitVec.ofInt 16 (charval signed c)) 0 * 40143

/-- The place of a symbol in `syhtab`. -/
def hashed (signed : Bool) (s : List Byte) : ℕ := (hash signed s >>> (16 - SHSHLOG) &&& 511).toNat

/-- A symbol of a source, as `token` leaves it in `tokstr`. -/
def tokstr (text : List Byte) : List Byte := text.take SYMSIZ ++ [0]

/-! ## 2. The order of names -/

theorem charval_eq_iff (signed : Bool) (x y : Byte) :
    charval signed x - charval signed y = 0 ↔ x = y := by
  rw [sub_eq_zero]
  refine ⟨fun h => ?_, congrArg _⟩
  cases signed with
  | false =>
    have hnat : (x.toNat : ℤ) = y.toNat := h
    exact BitVec.eq_of_toNat_eq (by exact_mod_cast hnat)
  | true => exact BitVec.eq_of_toInt_eq h

/-- The string has a terminator among its first characters, or goes on for so many. -/
def Ended : ℕ → List Byte → Prop
  | 0, _ => True
  | _ + 1, [] => False
  | i + 1, x :: s => x = 0 ∨ Ended i s

/-- The characters of a name, with its terminator where it is short. -/
def nameKey (signed : Bool) (s : List Byte) : List ℤ := (symcpy SYMSIZ s).map (charval signed)

variable {signed : Bool}

theorem charval_inj {x y : Byte} (h : charval signed x = charval signed y) : x = y :=
  (charval_eq_iff signed x y).mp (sub_eq_zero.mpr h)

theorem nameKey_inj {a b : List Byte} : nameKey signed a = nameKey signed b ↔
    symcpy SYMSIZ a = symcpy SYMSIZ b :=
  (List.map_injective_iff.mpr fun _ _ => charval_inj).eq_iff

theorem symcpy_zero (i : ℕ) (s : List Byte) : symcpy (i + 1) (0#8 :: s) = [0#8] := rfl

theorem symcpy_cons {x : Byte} (hx : x ≠ 0) (i : ℕ) (s : List Byte) :
    symcpy (i + 1) (x :: s) = x :: symcpy i s := if_neg hx

theorem symcmp_zero (i : ℕ) (a b : List Byte) : symcmp signed (i + 1) (0#8 :: a) (0#8 :: b) = 0 := rfl

theorem symcmp_self {x : Byte} (hx : x ≠ 0) (i : ℕ) (a b : List Byte) :
    symcmp signed (i + 1) (x :: a) (x :: b) = symcmp signed i a b := by
  rw [symcmp, if_pos rfl, if_neg hx]

theorem symcmp_ne {x y : Byte} (h : x ≠ y) (i : ℕ) (a b : List Byte) :
    symcmp signed (i + 1) (x :: a) (y :: b) = charval signed x - charval signed y := if_neg h

theorem symcpy_head (i : ℕ) (x : Byte) (s : List Byte) : ∃ l, symcpy (i + 1) (x :: s) = x :: l := by
  by_cases hx : x = 0
  · subst hx
    exact ⟨[], symcpy_zero i s⟩
  · exact ⟨symcpy i s, symcpy_cons hx i s⟩

/-- **What `symcmp` says**: the strings are the same up to their ends, or in which order they are. -/
theorem symcmp_cases {i : ℕ} {a b : List Byte} (ha : Ended i a) (hb : Ended i b) :
    (symcmp signed i a b = 0 ↔ symcpy i a = symcpy i b) ∧
      (symcmp signed i a b < 0 ↔
        (symcpy i a).map (charval signed) < (symcpy i b).map (charval signed)) := by
  induction i generalizing a b with
  | zero => simp [symcmp, symcpy]
  | succ i ih =>
    cases a with
    | nil => exact ha.elim
    | cons x a =>
      cases b with
      | nil => exact hb.elim
      | cons y b =>
        by_cases hxy : x = y
        · subst hxy
          by_cases h0 : x = 0
          · subst h0
            simp [symcmp_zero, symcpy_zero]
          · obtain ⟨heq, hlt⟩ := ih (ha.resolve_left h0) (hb.resolve_left h0)
            rw [symcmp_self h0, symcpy_cons h0, symcpy_cons h0]
            simp [heq, hlt]
        · have hne : charval signed x - charval signed y ≠ 0 := fun h =>
            hxy ((charval_eq_iff signed x y).mp h)
          have hval : charval signed x ≠ charval signed y := fun h => hxy (charval_inj h)
          obtain ⟨l, hl⟩ := symcpy_head i x a
          obtain ⟨m, hm⟩ := symcpy_head i y b
          rw [hl, hm, symcmp_ne hxy]
          simp [hne, hxy, hval, List.cons_lt_cons_iff, sub_neg]

/-- In the order the other way. -/
theorem symcmp_swap {i : ℕ} (a b : List Byte) : symcmp signed i a b = -symcmp signed i b a := by
  induction i generalizing a b with
  | zero => simp [symcmp]
  | succ i ih =>
    cases a with
    | nil => simp [symcmp]
    | cons x a =>
      cases b with
      | nil => simp [symcmp]
      | cons y b =>
        by_cases hxy : x = y
        · subst hxy
          by_cases h0 : x = 0
          · subst h0
            simp [symcmp_zero]
          · rw [symcmp_self h0, symcmp_self h0, ih a b]
        · rw [symcmp_ne hxy, symcmp_ne (Ne.symm hxy), neg_sub]

section

variable {a b : List Byte} (ha : Ended SYMSIZ a) (hb : Ended SYMSIZ b)

include ha hb

theorem symcmp_eq_zero : symcmp signed SYMSIZ a b = 0 ↔ nameKey signed a = nameKey signed b :=
  (symcmp_cases ha hb).1.trans nameKey_inj.symm

theorem symcmp_neg : symcmp signed SYMSIZ a b < 0 ↔ nameKey signed a < nameKey signed b :=
  (symcmp_cases ha hb).2

theorem symcmp_pos : 0 < symcmp signed SYMSIZ a b ↔ nameKey signed b < nameKey signed a := by
  rw [symcmp_swap, neg_pos]
  exact symcmp_neg hb ha

end

/-! ## 3. Copies -/

/-- What stands behind the end is not looked at. -/
theorem ended_append {i : ℕ} {s : List Byte} (h : Ended i s) (t : List Byte) :
    Ended i (s ++ t) ∧ symcpy i (s ++ t) = symcpy i s := by
  induction i generalizing s with
  | zero => exact ⟨trivial, by simp [symcpy]⟩
  | succ i ih =>
    cases s with
    | nil => exact h.elim
    | cons x s =>
      by_cases h0 : x = 0
      · subst h0
        exact ⟨.inl rfl, rfl⟩
      · obtain ⟨hend, hcpy⟩ := ih (h.resolve_left h0)
        rw [List.cons_append, symcpy_cons h0, symcpy_cons h0, hcpy]
        exact ⟨.inr hend, rfl⟩

/-- A copy is ended where the string is, and is its own copy. -/
theorem symcpy_symcpy {i : ℕ} {s : List Byte} (h : Ended i s) :
    Ended i (symcpy i s) ∧ symcpy i (symcpy i s) = symcpy i s := by
  induction i generalizing s with
  | zero => exact ⟨trivial, rfl⟩
  | succ i ih =>
    cases s with
    | nil => exact h.elim
    | cons x s =>
      by_cases h0 : x = 0
      · subst h0
        exact ⟨.inl rfl, rfl⟩
      · obtain ⟨hend, hcpy⟩ := ih (h.resolve_left h0)
        rw [symcpy_cons h0, symcpy_cons h0, hcpy]
        exact ⟨.inr hend, rfl⟩

theorem length_symcpy_le (i : ℕ) (s : List Byte) : (symcpy i s).length ≤ i := by
  induction i generalizing s with
  | zero => simp [symcpy]
  | succ i ih =>
    cases s with
    | nil => simp [symcpy]
    | cons x s =>
      by_cases h0 : x = 0
      · subst h0
        simp [symcpy_zero]
      · rw [symcpy_cons h0, List.length_cons]
        exact Nat.succ_le_succ (ih s)

/-- The text of a symbol has characters, none of them a terminator. -/
def Symbolic (text : List Byte) : Prop := text ≠ [] ∧ 0 ∉ text

theorem ended_tokstr (text : List Byte) : Ended SYMSIZ (tokstr text) := by
  have hended (i : ℕ) (s : List Byte) : Ended i (s.take i ++ [0]) := by
    induction i generalizing s with
    | zero => trivial
    | succ i ih =>
      cases s with
      | nil => exact .inl rfl
      | cons x s => exact .inr (ih s)
  exact hended SYMSIZ text

/-- The characters of a copy. -/
theorem symcpy_takeWhile {i : ℕ} {s : List Byte} (h : 0 ∉ s) :
    (symcpy i (s.take i ++ [0])).takeWhile (· ≠ 0) = s.take i := by
  induction i generalizing s with
  | zero => simp [symcpy]
  | succ i ih =>
    cases s with
    | nil => simp [symcpy]
    | cons x s =>
      rw [List.mem_cons, not_or] at h
      have hx : x ≠ 0 := Ne.symm h.1
      rw [List.take_succ_cons, List.cons_append, symcpy_cons hx, List.takeWhile_cons, ih h.2,
        if_pos (decide_eq_true hx)]

/-- **Symbols are told by their first eight characters.** -/
theorem symcpy_tokstr_inj {t u : List Byte} (ht : Symbolic t) (hu : Symbolic u) :
    symcpy SYMSIZ (tokstr t) = symcpy SYMSIZ (tokstr u) ↔ t.take SYMSIZ = u.take SYMSIZ := by
  refine ⟨fun h => ?_, fun h => by rw [tokstr, tokstr, h]⟩
  unfold tokstr at h
  rw [← symcpy_takeWhile ht.2, h, symcpy_takeWhile hu.2]

/-- Its place in the table can be told from the copy. -/
theorem hashed_symcpy {t : List Byte} (ht : Symbolic t) :
    hashed signed (symcpy SYMSIZ (tokstr t)) = hashed signed (tokstr t) := by
  have hall : ∀ x ∈ t.take SYMSIZ, decide (x ≠ 0) = true := by
    intro x hx
    refine decide_eq_true ?_
    rintro rfl
    exact ht.2 (List.mem_of_mem_take hx)
  have hchars : (tokstr t).takeWhile (· ≠ 0) = t.take SYMSIZ := by
    unfold tokstr
    rw [List.takeWhile_append_of_pos hall]
    simp
  unfold hashed hash
  rw [hchars, tokstr, symcpy_takeWhile ht.2]

theorem hashed_lt (signed : Bool) (s : List Byte) : hashed signed s < 512 := by
  have hle : hashed signed s ≤ 511 := by
    unfold hashed
    rw [BitVec.toNat_and]
    exact Nat.and_le_right
  omega

end Cpm8000.Asm
