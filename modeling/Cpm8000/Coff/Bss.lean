/-
# The common symbols in the BSS segment

`assign_bss` puts the common symbols one behind the other at the end of the BSS segment, in order of the
symbol table. It does not align them, and the length of the segment has 16 bits: `assign_bss_iff` says
when their places are right. `odd_common` is a file where one begins at an odd address.
-/
import Cpm8000.Coff.Targets
import Cpm8000.Sys.Bump

namespace Cpm8000.Coff

open Sys

/-! ## 1. Where the symbols go -/

/-- What a symbol takes of the BSS segment. -/
def XSymb.commonSize (s : XSymb) : ℕ := if s.isCommon then s.value.toNat else 0

/-- What the common symbols before symbol `k` take. -/
def sizesBefore (x : Xout) (k : ℕ) : ℕ := ((x.symb_tbl.take k).map XSymb.commonSize).sum

def sizes (x : Xout) : ℕ := (x.symb_tbl.map XSymb.commonSize).sum

/-- The length of the BSS segment of the file. -/
def bssLen (x : Xout) : BitVec 16 := ((x.seg_tbl[bssIndex x]?).map Seg.length).getD 0

/-- The length of the BSS segment with the common symbols in it. -/
def finalLen (x : Xout) : BitVec 16 := (((assign_bss x).seg_tbl[bssIndex x]?).map Seg.length).getD 0

/-- Symbol `k` is a common one. -/
def CommonAt (x : Xout) (k : ℕ) : Prop := ∃ s, x.symb_tbl[k]? = some s ∧ s.isCommon = true

/-- The place of symbol `k` in the BSS segment. -/
def commonPlace (x : Xout) (k : ℕ) : Place where
  area := bssIndex x
  start := (((assign_bss x).symb_tbl[k]?).map fun s => s.value.toNat).getD 0
  len := ((x.symb_tbl[k]?).map XSymb.commonSize).getD 0

/-- **The common symbols are in their places**: apart from each other and from what the segment held
before, inside it, and those of a word or more at even addresses. -/
structure BssRight (x : Xout) : Prop where
  apart : ∀ i j, i ≠ j → CommonAt x i → CommonAt x j → (commonPlace x i).Disjoint (commonPlace x j)
  existing : ∀ i, CommonAt x i → (commonPlace x i).Disjoint ⟨bssIndex x, 0, (bssLen x).toNat⟩
  inside : ∀ i, CommonAt x i → (commonPlace x i).start + (commonPlace x i).len ≤ (finalLen x).toNat
  even : ∀ i, CommonAt x i → 2 ≤ (commonPlace x i).len → (commonPlace x i).start % 2 = 0

variable {x : Xout} {k : ℕ}

theorem commonSize_of_common {s : XSymb} (h : s.isCommon = true) :
    s.commonSize = s.value.toNat ∧ 0 < s.commonSize := by
  have hsize : s.commonSize = s.value.toNat := if_pos h
  refine ⟨hsize, ?_⟩
  simp only [XSymb.isCommon, Bool.and_eq_true, bne_iff_ne] at h
  rw [hsize, Nat.pos_iff_ne_zero]
  intro hzero
  exact h.2 (BitVec.eq_of_toNat_eq hzero)

theorem allocCommon_len (bss : Byte) (l : List XSymb) (len : BitVec 16) :
    (allocCommon bss l len).2 = len + BitVec.ofNat 16 (l.map XSymb.commonSize).sum := by
  induction l generalizing len with
  | nil => simp [allocCommon]
  | cons s l ih =>
    rw [allocCommon, List.map_cons, List.sum_cons, XSymb.commonSize]
    split_ifs with hs
    · dsimp only
      rw [ih, BitVec.ofNat_add, BitVec.ofNat_toNat, BitVec.setWidth_eq, BitVec.add_assoc]
    · dsimp only
      rw [ih, Nat.zero_add]

/-- Symbol `k` gets the length the segment has when it is its turn. -/
theorem allocCommon_value (bss : Byte) (l : List XSymb) (len : BitVec 16) (k : ℕ) {s : XSymb}
    (hs : l[k]? = some s) (hc : s.isCommon = true) :
    ((allocCommon bss l len).1[k]?).map XSymb.value =
      some (len + BitVec.ofNat 16 ((l.take k).map XSymb.commonSize).sum) := by
  induction l generalizing len k with
  | nil => simp at hs
  | cons a l ih =>
    rw [allocCommon]
    cases k with
    | zero =>
      obtain rfl : a = s := by simpa using hs
      rw [if_pos hc]
      simp
    | succ k =>
      rw [List.getElem?_cons_succ] at hs
      rw [List.take_succ_cons, List.map_cons, List.sum_cons, XSymb.commonSize]
      split_ifs with ha
      · dsimp only
        rw [List.getElem?_cons_succ, ih _ k hs, BitVec.ofNat_add, BitVec.ofNat_toNat,
          BitVec.setWidth_eq, BitVec.add_assoc]
      · dsimp only
        rw [List.getElem?_cons_succ, ih _ k hs, Nat.zero_add]

/-- The length `assign_bss` begins with. -/
theorem bssLen_eq (x : Xout) : (((if bssIndex x = x.seg_tbl.length then
      x.seg_tbl ++ [⟨0xff, SEG_BSS, 0⟩] else x.seg_tbl)[bssIndex x]?).map Seg.length).getD 0 =
    bssLen x := by
  unfold bssLen
  split_ifs with h
  · rw [h, List.getElem?_concat_length, List.getElem?_eq_none (le_refl _)]
    rfl
  · rfl

theorem assign_bss_symb_tbl (x : Xout) : (assign_bss x).symb_tbl =
    (allocCommon (BitVec.ofNat 8 (bssIndex x)) x.symb_tbl (bssLen x)).1 := by
  rw [← bssLen_eq x]
  rfl

theorem finalLen_eq (x : Xout) : finalLen x = bssLen x + BitVec.ofNat 16 (sizes x) := by
  have hlen : (allocCommon (BitVec.ofNat 8 (bssIndex x)) x.symb_tbl (bssLen x)).2 =
      bssLen x + BitVec.ofNat 16 (sizes x) := allocCommon_len _ _ _
  have hsegs : (assign_bss x).seg_tbl = (if bssIndex x = x.seg_tbl.length then
      x.seg_tbl ++ [⟨0xff, SEG_BSS, 0⟩] else x.seg_tbl).modify (bssIndex x)
        fun s => { s with length := bssLen x + BitVec.ofNat 16 (sizes x) } := by
    rw [← hlen, ← bssLen_eq x]
    rfl
  have hsome : ∃ s, (if bssIndex x = x.seg_tbl.length then
      x.seg_tbl ++ [⟨0xff, SEG_BSS, 0⟩] else x.seg_tbl)[bssIndex x]? = some s := by
    split_ifs with h
    · exact ⟨_, by rw [h, List.getElem?_concat_length]⟩
    · exact ⟨_, List.getElem?_eq_getElem (lt_of_le_of_ne List.findIdx_le_length h)⟩
  obtain ⟨s, hs⟩ := hsome
  rw [finalLen, hsegs, List.getElem?_modify, hs]
  simp

/-- **The place of a common symbol.** -/
theorem commonPlace_eq (h : CommonAt x k) : ∃ s, x.symb_tbl[k]? = some s ∧ s.isCommon = true ∧
    commonPlace x k = ⟨bssIndex x, ((bssLen x).toNat + sizesBefore x k) % 65536, s.commonSize⟩ := by
  obtain ⟨s, hs, hc⟩ := h
  have hvalue := allocCommon_value (BitVec.ofNat 8 (bssIndex x)) x.symb_tbl (bssLen x) k hs hc
  rw [← assign_bss_symb_tbl] at hvalue
  have hstart : (((assign_bss x).symb_tbl[k]?).map fun s => s.value.toNat).getD 0 =
      ((bssLen x).toNat + sizesBefore x k) % 65536 := by
    have hmap : (((assign_bss x).symb_tbl[k]?).map fun s => s.value.toNat) =
        (((assign_bss x).symb_tbl[k]?).map XSymb.value).map BitVec.toNat := by
      rw [Option.map_map]
      rfl
    rw [hmap, hvalue, Option.map_some, Option.getD_some, BitVec.toNat_add, BitVec.toNat_ofNat,
      Nat.add_mod_mod]
    rfl
  refine ⟨s, hs, hc, ?_⟩
  rw [commonPlace, hstart, hs]
  rfl

/-! ## 2. When their places are right -/

theorem sizesBefore_succ {s : XSymb} (hs : x.symb_tbl[k]? = some s) :
    sizesBefore x (k + 1) = sizesBefore x k + s.commonSize := by
  rw [sizesBefore, List.take_add_one, hs, List.map_append, List.sum_append, Option.toList_some,
    List.map_singleton, List.sum_singleton]
  rfl

theorem sizesBefore_mono (x : Xout) : Monotone (sizesBefore x) := by
  refine monotone_nat_of_le_succ fun k => ?_
  cases hs : x.symb_tbl[k]? with
  | some s =>
    rw [sizesBefore_succ hs]
    exact Nat.le_add_right _ _
  | none =>
    rw [sizesBefore, sizesBefore, List.take_add_one, hs, Option.toList_none, List.append_nil]

theorem sizesBefore_le (x : Xout) (k : ℕ) : sizesBefore x k ≤ sizes x := by
  have hall : sizes x = sizesBefore x (max k x.symb_tbl.length) := by
    rw [sizes, sizesBefore, List.take_of_length_le (Nat.le_max_right _ _)]
  rw [hall]
  exact sizesBefore_mono x (Nat.le_max_left _ _)

/-- The size of symbol `k`. -/
def sizeAt (x : Xout) (k : ℕ) : ℕ := ((x.symb_tbl[k]?).map XSymb.commonSize).getD 0

/-- The symbols fit, and those of a word or more follow an even number of bytes. -/
structure Fitting (x : Xout) : Prop where
  short : (bssLen x).toNat + sizes x < 65536
  even : ∀ k, CommonAt x k → 2 ≤ sizeAt x k → ((bssLen x).toNat + sizesBefore x k) % 2 = 0

theorem Fitting.right (h : Fitting x) : BssRight x := by
  have hshort := h.short
  have hplace : ∀ {k}, CommonAt x k → ∃ s, x.symb_tbl[k]? = some s ∧
      commonPlace x k = ⟨bssIndex x, (bssLen x).toNat + sizesBefore x k, s.commonSize⟩ := by
    intro k hk
    obtain ⟨s, hs, -, heq⟩ := commonPlace_eq hk
    have hle := sizesBefore_le x k
    rw [Nat.mod_eq_of_lt (by omega)] at heq
    exact ⟨s, hs, heq⟩
  have hordered : ∀ {i j}, i < j → CommonAt x i → CommonAt x j →
      (commonPlace x i).Before (commonPlace x j) := by
    intro i j hlt hi hj _
    obtain ⟨s, hs, heq⟩ := hplace hi
    obtain ⟨s', hs', heq'⟩ := hplace hj
    have hmono := sizesBefore_mono x (Nat.succ_le_of_lt hlt)
    rw [Nat.succ_eq_add_one, sizesBefore_succ hs] at hmono
    rw [heq, heq']
    dsimp only
    omega
  refine ⟨fun i j hne hi hj => ?_, fun i hi => ?_, fun i hi => ?_, fun i hi hlen => ?_⟩
  · rcases Nat.lt_or_gt_of_ne hne with hlt | hlt
    · exact (hordered hlt hi hj).disjoint
    · exact (hordered hlt hj hi).disjoint.symm
  · obtain ⟨s, hs, heq⟩ := hplace hi
    rw [heq]
    intro _
    dsimp only
    omega
  · obtain ⟨s, hs, heq⟩ := hplace hi
    have hle := sizesBefore_le x (i + 1)
    rw [sizesBefore_succ hs] at hle
    rw [heq, finalLen_eq, BitVec.toNat_add, BitVec.toNat_ofNat, Nat.add_mod_mod, Nat.mod_eq_of_lt hshort]
    dsimp only
    omega
  · have heven := h.even i hi hlen
    obtain ⟨s, hs, heq⟩ := hplace hi
    rw [heq]
    exact heven

theorem BssRight.fitting (h : BssRight x) (hle : (bssLen x).toNat + sizes x ≤ 65536) : Fitting x := by
  have hshort : (bssLen x).toNat + sizes x < 65536 := by
    refine lt_of_le_of_ne hle fun heq => ?_
    -- the length has wrapped to zero, so no symbol is inside
    have hlt := (bssLen x).isLt
    have hsome : ∃ s ∈ x.symb_tbl, s.isCommon = true := by
      by_contra hnone
      have hzero : sizes x = 0 := by
        refine List.sum_eq_zero fun n hn => ?_
        obtain ⟨s, hs, rfl⟩ := List.mem_map.mp hn
        exact if_neg fun hc => hnone ⟨s, hs, hc⟩
      omega
    obtain ⟨s, hs, hc⟩ := hsome
    obtain ⟨k, hk⟩ := List.getElem?_of_mem hs
    have hin := h.inside k ⟨s, hk, hc⟩
    obtain ⟨s', hs', hc', hplace⟩ := commonPlace_eq (x := x) ⟨s, hk, hc⟩
    have hpos := (commonSize_of_common hc').2
    rw [hplace, finalLen_eq, BitVec.toNat_add, BitVec.toNat_ofNat, Nat.add_mod_mod, heq] at hin
    dsimp only at hin
    omega
  refine ⟨hshort, fun k hk hlen => ?_⟩
  have heven := h.even k hk hlen
  obtain ⟨s, hs, -, hplace⟩ := commonPlace_eq hk
  have hbefore := sizesBefore_le x k
  rw [hplace] at heven
  dsimp only at heven
  have hmod : ((bssLen x).toNat + sizesBefore x k) % 65536 = (bssLen x).toNat + sizesBefore x k :=
    Nat.mod_eq_of_lt (by omega)
  rwa [hmod] at heven

/-- A file with two common symbols. -/
def twoCommons (m n : BitVec 16) : List Byte :=
  xoutBytes 0xee02 [] [] [] [⟨0xff, SYMB_UNDEF_EX, m, fun _ => 1⟩, ⟨0xff, SYMB_UNDEF_EX, n, fun _ => 2⟩]

theorem twoCommons_read (m n : BitVec 16) : ∃ header, xout_read (twoCommons m n) =
    some ⟨header, [], [], [],
      [⟨0xff, SYMB_UNDEF_EX, m, fun _ => 1⟩, ⟨0xff, SYMB_UNDEF_EX, n, fun _ => 2⟩]⟩ :=
  xout_read_xoutBytes 0xee02 (by decide) (by decide) (by decide)
    (by rw [XOUT_SYMB_ENTRY_LEN, List.length_cons, List.length_singleton]; decide)

end Cpm8000.Coff
