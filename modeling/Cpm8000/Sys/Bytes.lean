/-
# Byte strings

Parts of a list by position and length, big-endian numbers, and tables of records of one size.

* `slice_append_right`, `slice_append_left`: a part of a concatenation.
* `slice_flatMap`: records of one size, picked out by position.
* `ofBe16_be16`, `ofBe32_be32`: what is written is read back.
-/
import Mathlib.Tactic

namespace Cpm8000.Sys

variable {α β : Type*}

/-! ## 1. Parts of a list -/

/-- The `n` elements from position `p` on, fewer when the list ends before. -/
def slice (l : List α) (p n : ℕ) : List α := (l.drop p).take n

theorem length_slice_le (l : List α) (p n : ℕ) : (slice l p n).length ≤ n := by
  rw [slice, List.length_take]
  exact min_le_left _ _

@[simp] theorem slice_zero (l : List α) (p : ℕ) : slice l p 0 = [] := List.take_zero

@[simp] theorem slice_all (l : List α) : slice l 0 l.length = l := by
  rw [slice, List.drop_zero, List.take_length]

theorem slice_append_left {a b : List α} {p n : ℕ} (h : p + n ≤ a.length) :
    slice (a ++ b) p n = slice a p n := by
  rw [slice, slice, List.drop_append_of_le_length (by omega), List.take_append_of_le_length]
  rw [List.length_drop]
  omega

theorem slice_append_right (a b : List α) (p n : ℕ) :
    slice (a ++ b) (a.length + p) n = slice b p n := by
  rw [slice, slice, List.drop_length_add_append]

/-- A part of a part. -/
theorem slice_slice {l : List α} {p n q k : ℕ} (h : q + k ≤ n) :
    slice (slice l p n) q k = slice l (p + q) k := by
  rw [slice, slice, slice, List.drop_take, List.take_take, List.drop_drop]
  congr 1
  omega

/-! ## 2. Tables -/

section table

variable {enc : α → List β} {k : ℕ} (henc : ∀ x, (enc x).length = k)

include henc in
theorem length_flatMap_const (l : List α) : (l.flatMap enc).length = k * l.length := by
  induction l with
  | nil => simp
  | cons x l ih =>
    rw [List.flatMap_cons, List.length_append, henc, ih, List.length_cons, Nat.mul_succ,
      Nat.add_comm]

include henc in
theorem drop_flatMap (l : List α) (i : ℕ) : (l.flatMap enc).drop (k * i) = (l.drop i).flatMap enc := by
  induction i generalizing l with
  | zero => simp
  | succ i ih =>
    cases l with
    | nil => simp
    | cons x l =>
      rw [List.flatMap_cons, Nat.mul_succ, Nat.add_comm, ← List.drop_drop, ← henc x,
        List.drop_left, henc, ih, List.drop_succ_cons]

include henc in
theorem take_flatMap (l : List α) (i : ℕ) : (l.flatMap enc).take (k * i) = (l.take i).flatMap enc := by
  induction i generalizing l with
  | zero => simp
  | succ i ih =>
    cases l with
    | nil => simp
    | cons x l =>
      rw [List.flatMap_cons, Nat.mul_succ, Nat.add_comm, ← henc x, List.take_length_add_append,
        henc, ih, List.take_succ_cons, List.flatMap_cons]

include henc in
/-- **Records by position.** -/
theorem slice_flatMap (l : List α) (i j : ℕ) :
    slice (l.flatMap enc) (k * i) (k * j) = (slice l i j).flatMap enc := by
  rw [slice, slice, drop_flatMap henc, take_flatMap henc]

end table

theorem length_flatMap_range (f : ℕ → List β) (n : ℕ) :
    ((List.range n).flatMap f).length = ∑ j ∈ Finset.range n, (f j).length := by
  induction n with
  | zero => rfl
  | succ n ih =>
    rw [List.range_succ, List.flatMap_append, List.length_append, ih, Finset.sum_range_succ,
      List.flatMap_singleton]

/-- **Pieces by position**: each begins where those before it end. -/
theorem slice_flatMap_range (f : ℕ → List β) {n i : ℕ} (h : i < n) :
    slice ((List.range n).flatMap f) (∑ j ∈ Finset.range i, (f j).length) (f i).length = f i := by
  induction n with
  | zero => exact absurd h (Nat.not_lt_zero i)
  | succ n ih =>
    rw [List.range_succ, List.flatMap_append, List.flatMap_singleton]
    rcases Nat.lt_succ_iff_lt_or_eq.mp h with hlt | rfl
    · rw [slice_append_left, ih hlt]
      rw [length_flatMap_range, ← Finset.sum_range_succ]
      exact Finset.sum_le_sum_of_subset (Finset.range_mono hlt)
    · rw [← length_flatMap_range, ← Nat.add_zero (List.length _), slice_append_right, slice_all]

/-- Elements sorted into disjoint classes are no more than all of them. -/
theorem sum_countP_le {g : ℕ → α → Bool} (hg : ∀ a i j, g i a → g j a → i = j) (l : List α) (n : ℕ) :
    ∑ i ∈ Finset.range n, l.countP (g i) ≤ l.length := by
  induction l with
  | nil => simp
  | cons a l ih =>
    have hone : ∑ i ∈ Finset.range n, (if g i a then 1 else 0) ≤ 1 := by
      rw [← Finset.sum_filter, Finset.sum_const, smul_eq_mul, Nat.mul_one, Finset.card_le_one]
      intro i hi j hj
      exact hg a i j (Finset.mem_filter.mp hi).2 (Finset.mem_filter.mp hj).2
    simp only [List.countP_cons, Finset.sum_add_distrib, List.length_cons]
    exact Nat.add_le_add ih hone

/-! ## 3. Big-endian numbers -/

abbrev Byte := BitVec 8

def be16 (v : BitVec 16) : List Byte := [v.extractLsb' 8 8, v.extractLsb' 0 8]

def be32 (v : BitVec 32) : List Byte :=
  [v.extractLsb' 24 8, v.extractLsb' 16 8, v.extractLsb' 8 8, v.extractLsb' 0 8]

/-- The number in the first two bytes. -/
def ofBe16 (l : List Byte) : BitVec 16 := l.getD 0 0 ++ l.getD 1 0

/-- The number in the first four bytes. -/
def ofBe32 (l : List Byte) : BitVec 32 := l.getD 0 0 ++ l.getD 1 0 ++ l.getD 2 0 ++ l.getD 3 0

@[simp] theorem length_be16 (v : BitVec 16) : (be16 v).length = 2 := rfl

@[simp] theorem length_be32 (v : BitVec 32) : (be32 v).length = 4 := rfl

@[simp] theorem ofBe16_be16 (v : BitVec 16) : ofBe16 (be16 v) = v := by
  apply BitVec.eq_of_getLsbD_eq
  intro i hi
  simp only [ofBe16, be16, List.getD_cons_zero, List.getD_cons_succ, BitVec.getLsbD_append,
    BitVec.getLsbD_extractLsb']
  grind

@[simp] theorem ofBe32_be32 (v : BitVec 32) : ofBe32 (be32 v) = v := by
  apply BitVec.eq_of_getLsbD_eq
  intro i hi
  simp only [ofBe32, be32, List.getD_cons_zero, List.getD_cons_succ, BitVec.getLsbD_append,
    BitVec.getLsbD_extractLsb']
  grind

/-- The 16-bit number at a position. -/
def field16 (l : List Byte) (p : ℕ) : BitVec 16 := ofBe16 (slice l p 2)

/-- The 32-bit number at a position. -/
def field32 (l : List Byte) (p : ℕ) : BitVec 32 := ofBe32 (slice l p 4)

theorem field16_of_slice {l r : List Byte} {p n q : ℕ} (h : slice l p n = r) (hq : q + 2 ≤ n) :
    field16 l (p + q) = field16 r q := by
  rw [field16, field16, ← h, slice_slice hq]

theorem field32_of_slice {l r : List Byte} {p n q : ℕ} (h : slice l p n = r) (hq : q + 4 ≤ n) :
    field32 l (p + q) = field32 r q := by
  rw [field32, field32, ← h, slice_slice hq]

theorem field16_be16 {a b : List Byte} {v : BitVec 16} {p : ℕ} (h : p = a.length) :
    field16 (a ++ (be16 v ++ b)) p = v := by
  have hslice : slice (a ++ (be16 v ++ b)) (a.length + 0) 2 = be16 v := by
    rw [slice_append_right, slice_append_left (by simp)]
    exact slice_all (be16 v)
  rw [field16, h, ← Nat.add_zero a.length, hslice, ofBe16_be16]

theorem field32_be32 {a b : List Byte} {v : BitVec 32} {p : ℕ} (h : p = a.length) :
    field32 (a ++ (be32 v ++ b)) p = v := by
  have hslice : slice (a ++ (be32 v ++ b)) (a.length + 0) 4 = be32 v := by
    rw [slice_append_right, slice_append_left (by simp)]
    exact slice_all (be32 v)
  rw [field32, h, ← Nat.add_zero a.length, hslice, ofBe32_be32]

end Cpm8000.Sys
