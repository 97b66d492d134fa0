/-
# Object blocks

An object file is a sequence of blocks: a type, a length, and that many bytes. A text block holds the
address of its first byte, its section and the number of its bytes, the bytes, and after them a record
for every relocatable item: the place in the block of the item's first byte, and its relocation.

`textBlocks` reads the text blocks of a file. `decodeText_encode` says that it reads from a block what
`header`, the bytes and `recs` put there; `textBlocks_append` that blocks are read one after the other.
-/
import Cpm8000.Sys.Bytes

namespace Cpm8000.Asm

open Cpm8000.Sys

def OBJSIZ : ℕ := 255
def OBTXT : Byte := 6

/-! ## 1. Reading -/

/-- A byte of text: where it belongs, and the relocation of the item that begins with it, if it is one. -/
structure Text where
  sec : Byte
  addr : BitVec 32
  value : Byte
  reloc : BitVec 16
  deriving DecidableEq

/-- The blocks of a file. -/
def blocks : List Byte → Option (List (Byte × List Byte))
  | [] => some []
  | [_] => none
  | typ :: len :: rest =>
    if len.toNat ≤ rest.length then
      (blocks (rest.drop len.toNat)).map ((typ, rest.take len.toNat) :: ·)
    else none
termination_by l => l.length
decreasing_by
  simp only [List.length_drop, List.length_cons]
  omega

/-- Relocation records: a place, and a word, low byte first. -/
def records : List Byte → Option (List (ℕ × BitVec 16))
  | [] => some []
  | p :: lo :: hi :: rest => (records rest).map ((p.toNat, hi ++ lo) :: ·)
  | _ => none

/-- The bytes of a text block, from place `p` and address `addr` on. -/
def readText (sec : Byte) (recs : List (ℕ × BitVec 16)) : ℕ → BitVec 32 → List Byte → List Text
  | _, _, [] => []
  | p, addr, v :: l =>
    ⟨sec, addr, v, (recs.lookup p).getD 0⟩ :: readText sec recs (p + 1) (addr + 1) l

def decodeText : List Byte → Option (List Text)
  | a₀ :: a₁ :: a₂ :: a₃ :: sec :: count :: rest =>
    if count.toNat ≤ rest.length then
      (records (rest.drop count.toNat)).map fun recs =>
        readText sec recs 6 (a₃ ++ a₂ ++ a₁ ++ a₀) (rest.take count.toNat)
    else none
  | _ => none

/-- The text blocks of a file. -/
def textBlocks (file : List Byte) : Option (List (List Text)) :=
  (blocks file).bind fun bs => (bs.filter fun b => b.1 = OBTXT).mapM fun b => decodeText b.2

/-! ## 2. Blocks one after the other -/

theorem blocks_append {xs : List Byte} {l : List (Byte × List Byte)} (h : blocks xs = some l)
    (ys : List Byte) : blocks (xs ++ ys) = (blocks ys).map (l ++ ·) := by
  induction xs using blocks.induct generalizing l with
  | case1 =>
    rw [blocks] at h
    obtain rfl := Option.some.inj h
    simp
  | case2 _ =>
    rw [blocks] at h
    cases h
  | case3 typ len rest hle ih =>
    rw [blocks, if_pos hle, Option.map_eq_some_iff] at h
    obtain ⟨l', hl', rfl⟩ := h
    rw [List.cons_append, List.cons_append, blocks,
      if_pos (by rw [List.length_append]; exact Nat.le_add_right_of_le hle),
      List.drop_append_of_le_length hle, List.take_append_of_le_length hle, ih hl']
    cases blocks ys <;> rfl
  | case4 typ len rest hgt =>
    rw [blocks, if_neg hgt] at h
    cases h

/-- A block whose length is the number of its bytes. -/
theorem blocks_single (typ : Byte) (body : List Byte) (h : body.length < 256) :
    blocks (typ :: BitVec.ofNat 8 body.length :: body) = some [(typ, body)] := by
  have hlen : (BitVec.ofNat 8 body.length).toNat = body.length := by
    rw [BitVec.toNat_ofNat]
    exact Nat.mod_eq_of_lt h
  rw [blocks, hlen, if_pos (Nat.le_refl _), List.drop_length, List.take_length, blocks]
  rfl

/-- **One more block of a file.** -/
theorem textBlocks_append {file : List Byte} {l : List (List Text)} (h : textBlocks file = some l)
    (typ : Byte) {body : List Byte} (hbody : body.length < 256) :
    textBlocks (file ++ typ :: BitVec.ofNat 8 body.length :: body) =
      if typ = OBTXT then (decodeText body).map fun t => l ++ [t] else some l := by
  unfold textBlocks at h ⊢
  obtain ⟨bs, hbs, hl⟩ := Option.bind_eq_some_iff.mp h
  rw [blocks_append hbs, blocks_single typ body hbody, Option.map_some, Option.bind_some,
    List.filter_append, List.mapM_append, hl]
  split_ifs with ht
  · rw [List.filter_cons_of_pos (by simpa using ht), List.filter_nil, List.mapM_cons]
    cases decodeText body <;> rfl
  · rw [List.filter_cons_of_neg (by simpa using ht)]
    simp

/-! ## 3. What a text block is made of -/

def header (addr : BitVec 32) (sec count : Byte) : List Byte :=
  [addr.setWidth 8, (addr >>> 8).setWidth 8, (addr >>> 16).setWidth 8, (addr >>> 24).setWidth 8, sec,
    count]

/-- The record of an item at place `p`. -/
def record (p : ℕ) (reloc : BitVec 16) : List Byte :=
  if reloc ≠ 0 then [BitVec.ofNat 8 p, reloc.setWidth 8, (reloc >>> 8).setWidth 8] else []

/-- The records of a block's bytes, the last first. -/
def recs (p : ℕ) : List (Byte × BitVec 16) → List Byte
  | [] => []
  | i :: l => recs (p + 1) l ++ record p i.2

/-- The text that bytes and relocations make up from an address on. -/
def expand (sec : Byte) (addr : BitVec 32) : List (Byte × BitVec 16) → List Text
  | [] => []
  | i :: l => ⟨sec, addr, i.1, i.2⟩ :: expand sec (addr + 1) l

theorem expand_append (sec : Byte) (addr : BitVec 32) (l m : List (Byte × BitVec 16)) :
    expand sec addr (l ++ m) = expand sec addr l ++ expand sec (addr + BitVec.ofNat 32 l.length) m := by
  induction l generalizing addr with
  | nil => simp [expand]
  | cons i l ih =>
    have haddr : addr + 1 + BitVec.ofNat 32 l.length = addr + BitVec.ofNat 32 (i :: l).length := by
      rw [List.length_cons, Nat.add_comm, BitVec.ofNat_add, BitVec.add_assoc]
      rfl
    rw [List.cons_append, expand, ih, haddr, expand, List.cons_append]

theorem recs_append (p : ℕ) (l : List (Byte × BitVec 16)) (i : Byte × BitVec 16) :
    recs p (l ++ [i]) = record (p + l.length) i.2 ++ recs p l := by
  induction l generalizing p with
  | nil => simp [recs]
  | cons j l ih =>
    rw [List.cons_append, recs, ih, recs, List.append_assoc, List.length_cons]
    congr 2
    omega

/-- The records as they are read. -/
def recList (p : ℕ) : List (Byte × BitVec 16) → List (ℕ × BitVec 16)
  | [] => []
  | i :: l => recList (p + 1) l ++ if i.2 ≠ 0 then [(p, i.2)] else []

theorem records_append {xs : List Byte} {l : List (ℕ × BitVec 16)} (h : records xs = some l)
    (ys : List Byte) : records (xs ++ ys) = (records ys).map (l ++ ·) := by
  induction xs using records.induct generalizing l with
  | case1 =>
    rw [records] at h
    obtain rfl := Option.some.inj h
    simp
  | case2 p lo hi rest ih =>
    rw [records, Option.map_eq_some_iff] at h
    obtain ⟨l', hl', rfl⟩ := h
    rw [List.cons_append, List.cons_append, List.cons_append, records, ih hl']
    cases records ys <;> rfl
  | case3 xs h₁ h₂ =>
    rw [records] at h
    · cases h
    · exact h₁
    · exact h₂

theorem word_bytes (w : BitVec 16) : (w >>> 8).setWidth 8 ++ w.setWidth 8 = w := by
  apply BitVec.eq_of_getLsbD_eq
  intro i hi
  simp only [BitVec.getLsbD_append, BitVec.getLsbD_setWidth, BitVec.getLsbD_ushiftRight]
  grind

theorem long_bytes (a : BitVec 32) :
    (a >>> 24).setWidth 8 ++ (a >>> 16).setWidth 8 ++ (a >>> 8).setWidth 8 ++ a.setWidth 8 = a := by
  apply BitVec.eq_of_getLsbD_eq
  intro i hi
  simp only [BitVec.getLsbD_append, BitVec.getLsbD_setWidth, BitVec.getLsbD_ushiftRight]
  grind

theorem records_recs {p : ℕ} {l : List (Byte × BitVec 16)} (h : p + l.length ≤ 256) :
    records (recs p l) = some (recList p l) := by
  induction l generalizing p with
  | nil => rw [recs, recList, records]
  | cons i l ih =>
    rw [List.length_cons] at h
    rw [recs, records_append (ih (by omega)), recList]
    unfold record
    split_ifs with hr
    · have hp : (BitVec.ofNat 8 p).toNat = p := by
        rw [BitVec.toNat_ofNat]
        omega
      rw [records, records, word_bytes, hp]
      rfl
    · rw [records]
      rfl

/-- A place before the records has none. -/
theorem lookup_recList_of_lt {p q : ℕ} (l : List (Byte × BitVec 16)) (h : q < p) :
    (recList p l).lookup q = none := by
  induction l generalizing p with
  | nil => rfl
  | cons i l ih =>
    rw [recList, List.lookup_append, ih (by omega)]
    split_ifs with hr
    · have hne : (q == p) = false := by simpa using Nat.ne_of_lt h
      simp [List.lookup_cons, hne]
    · rfl

/-- **The bytes of a block are read with their relocations.** -/
theorem readText_recList (sec : Byte) (p : ℕ) (addr : BitVec 32) (l : List (Byte × BitVec 16))
    (rs : List (ℕ × BitVec 16))
    (hrs : ∀ q, p ≤ q → rs.lookup q = (recList p l).lookup q) :
    readText sec rs p addr (l.map Prod.fst) = expand sec addr l := by
  induction l generalizing p addr with
  | nil => rfl
  | cons i l ih =>
    rw [List.map_cons, readText, expand]
    congr 1
    · congr 1
      rw [hrs p (Nat.le_refl p), recList, List.lookup_append, lookup_recList_of_lt l (Nat.lt_succ_self p)]
      split_ifs with hr
      · simp
      · rw [not_not.mp hr]
        rfl
    · refine ih _ _ fun q hq => ?_
      rw [hrs q (by omega), recList, List.lookup_append]
      cases (recList (p + 1) l).lookup q with
      | some r => rfl
      | none =>
        split_ifs with hr
        · have hne : (q == p) = false := by simpa using Nat.ne_of_gt hq
          simp [List.lookup_cons, hne]
        · rfl

/-- **A text block is read as it was made.** -/
theorem decodeText_encode (addr : BitVec 32) (sec : Byte) (l : List (Byte × BitVec 16))
    (h : 6 + l.length ≤ 256) :
    decodeText (header addr sec (BitVec.ofNat 8 l.length) ++ l.map Prod.fst ++ recs 6 l) =
      some (expand sec addr l) := by
  have hcount : (BitVec.ofNat 8 l.length).toNat = (l.map Prod.fst).length := by
    rw [BitVec.toNat_ofNat, List.length_map]
    omega
  unfold header
  simp only [List.cons_append, List.nil_append, decodeText]
  rw [hcount, if_pos (by rw [List.length_append]; exact Nat.le_add_right _ _), List.drop_left,
    List.take_left, records_recs h, Option.map_some, long_bytes,
    readText_recList sec 6 addr l _ fun _ _ => rfl]

end Cpm8000.Asm
