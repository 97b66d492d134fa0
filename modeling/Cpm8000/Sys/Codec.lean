/-
# Records in a file

A `Codec` writes a record as a number of bytes that is always the same, and reads it back. A table of
records is read back record by record: `decode_encode`. Words of different lengths are told apart when the
beginning of a text says how long its first word is: `forall₂_of_flatMap_eq`.
-/
import Cpm8000.Sys.Bytes

namespace Cpm8000.Sys

variable {α : Type*} {b x y : List Byte} {n p : ℕ}

/-! ## 1. Parts of a file -/

/-- The next `n` bytes, and those behind them; none if the file ends before. -/
def part (n : ℕ) (b : List Byte) : Option (List Byte × List Byte) :=
  if b.length < n then none else some (b.take n, b.drop n)

theorem part_append (x y : List Byte) : part x.length (x ++ y) = some (x, y) := by
  have hlong : ¬ (x ++ y).length < x.length := by
    rw [List.length_append]
    omega
  rw [part, if_neg hlong, List.take_left, List.drop_left]

theorem of_part (h : part n b = some (x, y)) : b = x ++ y ∧ x.length = n := by
  unfold part at h
  split_ifs at h with hlong
  obtain ⟨rfl, rfl⟩ := Prod.mk.inj (Option.some.inj h)
  refine ⟨(List.take_append_drop n b).symm, ?_⟩
  rw [List.length_take]
  omega

/-- A part of a file is what its bytes are. -/
theorem slice_eq (hlen : x.length = n) (hroom : p + n ≤ b.length)
    (h : ∀ a < n, b.getD (p + a) 0 = x.getD a 0) : slice b p n = x := by
  refine List.ext_getElem ?_ fun a ha ha' => ?_
  · rw [slice, List.length_take, List.length_drop, hlen]
    omega
  · have hbyte := h a (hlen ▸ ha')
    have hin : p + a < b.length := by omega
    rw [List.getD_eq_getElem?_getD, List.getD_eq_getElem?_getD, List.getElem?_eq_getElem hin,
      List.getElem?_eq_getElem ha', Option.getD_some, Option.getD_some] at hbyte
    rw [← hbyte]
    simp [slice]

theorem take_add_eq (b : List Byte) (p n : ℕ) : b.take (p + n) = b.take p ++ slice b p n := by
  rw [slice, List.take_add]

/-! ## 2. Records -/

/-- A way to write records of one size, and to read back those that are `Valid`. -/
structure Codec (α : Type*) where
  size : ℕ
  Valid : α → Prop
  enc : α → List Byte
  dec : List Byte → α
  length_enc : ∀ r, (enc r).length = size
  dec_enc : ∀ r, Valid r → dec (enc r) = r

namespace Codec

variable (c : Codec α) {l : List α}

def encode (l : List α) : List Byte := l.flatMap c.enc

/-- The `n` records at the beginning of some bytes. -/
def decode : ℕ → List Byte → List α
  | 0, _ => []
  | n + 1, b => c.dec (b.take c.size) :: decode n (b.drop c.size)

@[simp] theorem length_encode (l : List α) : (c.encode l).length = l.length * c.size := by
  rw [encode, length_flatMap_const c.length_enc, Nat.mul_comm]

@[simp] theorem length_decode (n : ℕ) (b : List Byte) : (c.decode n b).length = n := by
  induction n generalizing b with
  | zero => rfl
  | succ n ih => rw [decode, List.length_cons, ih]

/-- **A table is read back.** -/
theorem decode_encode (h : ∀ r ∈ l, c.Valid r) : c.decode l.length (c.encode l) = l := by
  induction l with
  | nil => rfl
  | cons r l ih =>
    obtain ⟨hr, hl⟩ := List.forall_mem_cons.mp h
    have hsplit : c.encode (r :: l) = c.enc r ++ c.encode l := List.flatMap_cons ..
    rw [hsplit, List.length_cons, decode, ← c.length_enc r, List.take_left, List.drop_left, c.dec_enc r hr,
      ih hl]

/-- A byte of a table is one of a record. -/
theorem getD_encode {k a : ℕ} (hk : k < l.length) (ha : a < c.size) :
    (c.encode l).getD (k * c.size + a) 0 = (c.enc l[k]).getD a 0 := by
  have hat : slice (c.encode l) (c.size * k) (c.size * 1) = c.enc l[k] := by
    rw [encode, slice_flatMap c.length_enc, slice, List.drop_eq_getElem_cons hk, List.take_succ_cons,
      List.take_zero, List.flatMap_singleton]
  rw [← hat, slice, Nat.mul_one, List.getD_eq_getElem?_getD, List.getD_eq_getElem?_getD,
    List.getElem?_take_of_lt ha, List.getElem?_drop, Nat.mul_comm]

end Codec

/-! ## 3. Words -/

/-- **Words written one after the other are told apart**, if those that begin the same text are in `R` and
of one length. -/
theorem forall₂_of_flatMap_eq {ι γ : Type*} {word : ι → List γ} {R : ι → ι → Prop} {l m : List ι}
    (hne : ∀ i, word i ≠ [])
    (h : ∀ i ∈ l, ∀ j ∈ m, ∀ x y, word i ++ x = word j ++ y → R i j ∧ (word i).length = (word j).length)
    (heq : l.flatMap word = m.flatMap word) : List.Forall₂ (fun i j => R i j ∧ word i = word j) l m := by
  induction l generalizing m with
  | nil =>
    cases m with
    | nil => exact .nil
    | cons j m =>
      rw [List.flatMap_nil, List.flatMap_cons] at heq
      exact absurd (List.append_eq_nil_iff.mp heq.symm).1 (hne j)
  | cons i l ih =>
    cases m with
    | nil =>
      rw [List.flatMap_nil, List.flatMap_cons] at heq
      exact absurd (List.append_eq_nil_iff.mp heq).1 (hne i)
    | cons j m =>
      rw [List.flatMap_cons, List.flatMap_cons] at heq
      obtain ⟨hR, hlen⟩ := h i (List.mem_cons_self ..) j (List.mem_cons_self ..) _ _ heq
      obtain ⟨hword, hrest⟩ := List.append_inj heq hlen
      refine .cons ⟨hR, hword⟩ (ih (fun i' hi j' hj => ?_) hrest)
      exact h i' (List.mem_cons_of_mem _ hi) j' (List.mem_cons_of_mem _ hj)

end Cpm8000.Sys
