/-
# The entries the conversion reads and writes

The tool takes its indexes from the file: segment numbers from symbols and items, symbol numbers and
locations from items. `conversion_log` lists the entries of the four tables it uses, in the order of the
code, with the number of entries each table has at the time. `conversion_safe_iff` says for which of the
files it reads all of them are there, and none of the file's own references lead nowhere: nothing is
refused.
-/
import Cpm8000.Coff.Addends

namespace Cpm8000.Coff

open Sys

/-! ## 1. The log -/

inductive Table
  | seg_tbl
  | symb_tbl
  | reloc_tbl
  | code_part
  deriving DecidableEq

/-- A use of an entry of a table of some length. -/
structure Access where
  table : Table
  index : ℤ
  len : ℕ

/-- The entry is there. -/
def Access.Ok (a : Access) : Prop := 0 ≤ a.index ∧ a.index < a.len

instance (a : Access) : Decidable a.Ok := inferInstanceAs (Decidable (_ ∧ _))

/-- A loop over the first `n` entries. -/
def loop (t : Table) (n len : ℕ) : List Access := (List.range n).map fun i : ℕ => ⟨t, i, len⟩

/-- `num_symbs`, as it is taken from the header. -/
def num_symbs (x : Xout) : ℤ := x.header.symbs_len.tdiv XOUT_SYMB_ENTRY_LEN

/-- What is missing from a negative number of symbols: a new one goes to `num_symbs`. -/
def shift (x : Xout) : ℤ := num_symbs x - x.symb_tbl.length

/-- The BSS segment is created, which a negative number of segments keeps from being so. -/
def creates (x : Xout) : Bool := decide (x.header.num_segs = bssIndex x)

/-- The number of segments after `assign_bss`. -/
def segsAfter (x : Xout) : ℕ := if creates x then x.seg_tbl.length + 1 else x.seg_tbl.length

def assign_bss_log (x : Xout) : List Access :=
  loop .seg_tbl (min (bssIndex x + 1) x.seg_tbl.length) x.seg_tbl.length ++
  (if creates x then [⟨.seg_tbl, bssIndex x, segsAfter x⟩] else []) ++
  x.symb_tbl.zipIdx.flatMap fun p =>
    ⟨.symb_tbl, p.2, x.symb_tbl.length⟩ ::
      if p.1.isCommon then [⟨.seg_tbl, bssIndex x, segsAfter x⟩] else []

/-- The symbol of segment `seg_idx` is looked for, and named or added. -/
def addSegSymb_log (segs : ℕ) (shift : ℤ) (symbs : List XSymb) (seg_idx : ℕ) : List Access :=
  let found := symbs.findIdx fun y => y.type == SYMB_SEG && y.seg_idx == BitVec.ofNat 8 seg_idx
  loop .symb_tbl (min (found + 1) symbs.length) symbs.length ++
  [⟨.seg_tbl, seg_idx, segs⟩,
    if found < symbs.length then ⟨.symb_tbl, found, symbs.length⟩
    else ⟨.symb_tbl, shift + symbs.length, symbs.length + 1⟩]

def add_seg_symb_log (segs : ℕ) (shift : ℤ) : List (Seg × ℕ) → List XSymb → List Access
  | [], _ => []
  | p :: l, symbs =>
    addSegSymb_log segs shift symbs p.2 ++ add_seg_symb_log segs shift l (addSegSymb symbs p.2 p.1)

def add_seg_top_symb_log (shift : ℤ) (x : Xout) : List Access :=
  (List.range x.seg_tbl.length).map fun idx : ℕ =>
    ⟨.symb_tbl, shift + (x.symb_tbl.length + idx : ℕ), x.symb_tbl.length + idx + 1⟩

def conv_sect_hdrs_log (x : Xout) : List Access := loop .seg_tbl x.seg_tbl.length x.seg_tbl.length

/-- Four loops over the symbols, the third one with the length and the items of the segments. -/
def conv_symb_tbl_log (x : Xout) : List Access :=
  loop .symb_tbl x.symb_tbl.length x.symb_tbl.length ++
  x.symb_tbl.zipIdx.flatMap (fun p =>
    ⟨.symb_tbl, p.2, x.symb_tbl.length⟩ ::
      if p.1.type = SYMB_SEG then
        ⟨.seg_tbl, p.1.seg_idx.toNat, x.seg_tbl.length⟩ ::
          loop .reloc_tbl x.reloc_tbl.length x.reloc_tbl.length
      else []) ++
  (List.range x.seg_tbl.length).flatMap (fun _ =>
    loop .symb_tbl x.symb_tbl.length x.symb_tbl.length) ++
  loop .symb_tbl x.symb_tbl.length x.symb_tbl.length

/-- An item is exported. -/
def convReloc_log (x : Xout) (r : Reloc) : List Access :=
  let pos := calc_addr x r.seg_idx.toNat r.location
  loop .seg_tbl r.seg_idx.toNat x.seg_tbl.length ++
  [⟨.code_part, pos.toNat, x.code_part.length⟩, ⟨.code_part, pos.toNat + 1, x.code_part.length⟩] ++
  if r.type = RELOC_XOFF then [⟨.symb_tbl, r.symb_idx.toNat, x.symb_tbl.length⟩] else []

def conv_reloc_tbl_log (x : Xout) (relocs : List Reloc) : List Access :=
  (List.range x.seg_tbl.length).flatMap fun seg =>
    relocs.zipIdx.flatMap fun p =>
      ⟨.reloc_tbl, p.2, relocs.length⟩ ::
        if p.1.seg_idx == BitVec.ofNat 8 seg then convReloc_log x p.1 else []

def finalize_log (x : Xout) (relocs : List Reloc) : List Access :=
  (List.range x.seg_tbl.length).flatMap fun _ => loop .reloc_tbl relocs.length relocs.length

/-- The tables after `assign_bss`; with a negative number of segments there is none for the symbols. -/
def assigned (x : Xout) : Xout := if x.header.num_segs < 0 then x else assign_bss x

/-- **The whole conversion.** -/
def conversion_log (q : Qsort) (x : Xout) : List Access :=
  let y := assigned x
  let z := add_seg_symb y
  let c := add_seg_top_symb z
  let sorted := q.sort x.reloc_tbl
  assign_bss_log x ++
  add_seg_symb_log y.seg_tbl.length (shift x) y.seg_tbl.zipIdx y.symb_tbl ++
  add_seg_top_symb_log (shift x) z ++
  conv_sect_hdrs_log c ++ conv_symb_tbl_log c ++ conv_reloc_tbl_log c sorted ++ finalize_log c sorted

/-! ## 2. What the file refers to -/

/-- The segment a symbol is in is one of the file's, if it is in one. -/
structure XSymb.Refers (x : Xout) (s : XSymb) : Prop where
  segment : s.seg_idx ≠ 255 ∨ s.type = SYMB_SEG → s.seg_idx.toNat < x.seg_tbl.length

/-- The item is in a segment of the file and its bytes, and what it is relocated by is there. -/
structure Reloc.Refers (x : Xout) (r : Reloc) : Prop where
  segment : r.seg_idx.toNat < x.seg_tbl.length
  bytes : r.Inside x
  target : r.symb_idx.toNat < if r.type &&& 4 ≠ 0 then x.symb_tbl.length else x.seg_tbl.length

/-- **Every reference leads somewhere.** -/
structure Refers (x : Xout) : Prop where
  symbs : ∀ s ∈ x.symb_tbl, s.Refers x
  relocs : ∀ r ∈ x.reloc_tbl, r.Refers x

/-- The numbers of entries can be worked with. -/
structure Countable (x : Xout) : Prop where
  segs : x.header.num_segs < 0 → ∀ s ∈ x.symb_tbl, s.isCommon = false
  symbs : 0 ≤ x.header.num_segs → 0 ≤ num_symbs x

/-- The word of an item, at the place `calc_addr` gives, is in the code part. -/
def Reads (x : Xout) (r : Reloc) : Prop :=
  (dataPos x.seg_tbl r.seg_idx.toNat + (bssBefore x r.seg_idx.toNat).toNat + r.location.toNat) % 65536 +
    2 ≤ x.code_part.length

/-! ## 3. The parts of the log -/

variable {q : Qsort} {x : Xout} {file : List Byte} {t : Table} {n len : ℕ}

theorem loop_ok (h : n ≤ len) : ∀ a ∈ loop t n len, a.Ok := by
  intro a ha
  obtain ⟨i, hi, rfl⟩ := List.mem_map.mp ha
  have hlt := List.mem_range.mp hi
  exact ⟨Int.natCast_nonneg i, by change (i : ℤ) < len; omega⟩

theorem ok_of_lt {i : ℕ} (h : i < len) : (⟨t, i, len⟩ : Access).Ok :=
  ⟨Int.natCast_nonneg i, Int.ofNat_lt.mpr h⟩

theorem mem_zipIdx_lt {α : Type*} {l : List α} {p : α × ℕ} (h : p ∈ l.zipIdx) : p.2 < l.length := by
  obtain ⟨-, hlt, -⟩ := List.mem_zipIdx (x := p.1) (i := p.2) h
  rwa [Nat.zero_add] at hlt

/-- What the reader gives: the tables are as long as the header says. -/
theorem length_tables (h : xout_read file = some x) :
    x.seg_tbl.length = x.header.num_segs.toNat ∧ (x.symb_tbl.length : ℤ) = max 0 (num_symbs x) := by
  simp only [xout_read, Option.bind_eq_bind, Option.bind_eq_some_iff, Option.some.injEq] at h
  obtain ⟨hdr, -, segs, hsegs, code, -, rels, -, syms, hsyms, rfl⟩ := h
  refine ⟨length_freadTable hsegs, ?_⟩
  have hlen := length_freadTable hsyms
  unfold num_symbs
  dsimp only
  rw [hlen, XOUT_SYMB_ENTRY_LEN]
  rcases Int.le_total 0 hdr.symbs_len with hpos | hneg
  · obtain ⟨k, hk⟩ := Int.eq_ofNat_of_zero_le hpos
    rw [hk]
    have hdiv : (k : ℤ).tdiv (12 : ℕ) = ((k / 12 : ℕ) : ℤ) := rfl
    rw [hdiv, Int.toNat_natCast]
    omega
  · rw [Int.toNat_of_nonpos hneg]
    have hdiv : hdr.symbs_len.tdiv (12 : ℕ) ≤ 0 := by
      obtain ⟨k, hk⟩ := Int.eq_ofNat_of_zero_le (Int.neg_nonneg_of_nonpos hneg)
      have heq : hdr.symbs_len = -(k : ℤ) := by omega
      rw [heq, Int.neg_tdiv]
      have hdiv : (k : ℤ).tdiv (12 : ℕ) = ((k / 12 : ℕ) : ℤ) := rfl
      rw [hdiv]
      omega
    rw [max_eq_left hdiv]
    rfl

/-- Without a negative number the BSS segment is there. -/
theorem bssIndex_lt_segsAfter (h : xout_read file = some x) (hsegs : 0 ≤ x.header.num_segs) :
    bssIndex x < segsAfter x := by
  obtain ⟨hlen, -⟩ := length_tables h
  have hle : bssIndex x ≤ x.seg_tbl.length := List.findIdx_le_length
  unfold segsAfter creates
  by_cases heq : x.header.num_segs = bssIndex x
  · rw [decide_eq_true heq, if_pos rfl]
    omega
  · rw [decide_eq_false heq, if_neg Bool.false_ne_true]
    omega

theorem assign_bss_log_ok (h : xout_read file = some x) : (∀ a ∈ assign_bss_log x, a.Ok) ↔
    (x.header.num_segs < 0 → ∀ s ∈ x.symb_tbl, s.isCommon = false) := by
  have hscan : ∀ a ∈ loop .seg_tbl (min (bssIndex x + 1) x.seg_tbl.length) x.seg_tbl.length, a.Ok :=
    loop_ok (Nat.min_le_right _ _)
  constructor
  · intro hall hneg s hs
    by_contra hc
    obtain ⟨k, hk⟩ := List.getElem?_of_mem hs
    obtain ⟨hlen, -⟩ := length_tables h
    have hzero : segsAfter x = 0 := by
      have hno : creates x = false := decide_eq_false (by omega)
      rw [segsAfter, hno, if_neg Bool.false_ne_true]
      omega
    have hmem : (⟨.seg_tbl, bssIndex x, segsAfter x⟩ : Access) ∈ assign_bss_log x := by
      refine List.mem_append_right _ (List.mem_flatMap.mpr ⟨(s, k), ?_, ?_⟩)
      · exact List.mem_zipIdx_iff_getElem?.mpr hk
      · rw [if_pos (by simpa using hc)]
        exact List.mem_cons_of_mem _ (List.mem_singleton_self _)
    have hok := (hall _ hmem).2
    rw [hzero] at hok
    dsimp only at hok
    omega
  · intro hcommon a ha
    unfold assign_bss_log at ha
    rw [List.mem_append, List.mem_append] at ha
    rcases ha with (ha | ha) | ha
    · exact hscan a ha
    · split_ifs at ha with hcreates
      · rw [List.mem_singleton] at ha
        have heq : x.header.num_segs = bssIndex x := of_decide_eq_true hcreates
        rw [ha]
        exact ok_of_lt (bssIndex_lt_segsAfter h (by omega))
      · cases ha
    · obtain ⟨p, hp, ha⟩ := List.mem_flatMap.mp ha
      rcases List.mem_cons.mp ha with rfl | ha
      · exact ok_of_lt (mem_zipIdx_lt hp)
      · split_ifs at ha with hc
        · rw [List.mem_singleton] at ha
          rw [ha]
          refine ok_of_lt (bssIndex_lt_segsAfter h (Int.not_lt.mp fun hneg => ?_))
          rw [hcommon hneg p.1 (List.fst_mem_of_mem_zipIdx hp)] at hc
          cases hc
        · cases ha

/-- The symbols of the segments, with a number of symbols that is not negative. -/
theorem add_seg_symb_log_ok {segs : ℕ} {l : List (Seg × ℕ)} (hl : ∀ p ∈ l, p.2 < segs)
    (symbs : List XSymb) : ∀ a ∈ add_seg_symb_log segs 0 l symbs, a.Ok := by
  induction l generalizing symbs with
  | nil =>
    intro a ha
    cases ha
  | cons p l ih =>
    intro a ha
    rcases List.mem_append.mp ha with ha | ha
    · unfold addSegSymb_log at ha
      rcases List.mem_append.mp ha with ha | ha
      · exact loop_ok (Nat.min_le_right _ _) a ha
      · rcases List.mem_cons.mp ha with rfl | ha
        · exact ok_of_lt (hl p List.mem_cons_self)
        · rw [List.mem_singleton] at ha
          rw [ha]
          split_ifs with hfound
          · exact ok_of_lt hfound
          · rw [Int.zero_add]
            exact ok_of_lt (Nat.lt_succ_self _)
    · exact ih (fun p hp => hl p (List.mem_cons_of_mem _ hp)) _ a ha

/-- With a negative number of symbols the first new one goes before the table. -/
theorem add_seg_symb_log_fails {segs : ℕ} {d : ℤ} {l : List (Seg × ℕ)} (hl : l ≠ []) (hd : d < 0) :
    ∃ a ∈ add_seg_symb_log segs d l [], ¬ a.Ok := by
  obtain ⟨p, l, rfl⟩ := List.exists_cons_of_ne_nil hl
  refine ⟨⟨.symb_tbl, d, 1⟩, ?_, fun hok => ?_⟩
  · refine List.mem_append_left _ (List.mem_append_right _ ?_)
    simp
  · have hle := hok.1
    dsimp only at hle
    omega

theorem conv_symb_tbl_log_ok (c : Xout) : (∀ a ∈ conv_symb_tbl_log c, a.Ok) ↔
    ∀ s ∈ c.symb_tbl, s.type = SYMB_SEG → s.seg_idx.toNat < c.seg_tbl.length := by
  constructor
  · intro hall s hs htype
    obtain ⟨k, hk⟩ := List.getElem?_of_mem hs
    have hmem : (⟨.seg_tbl, s.seg_idx.toNat, c.seg_tbl.length⟩ : Access) ∈ conv_symb_tbl_log c := by
      refine List.mem_append_left _ (List.mem_append_left _ (List.mem_append_right _ ?_))
      refine List.mem_flatMap.mpr ⟨(s, k), List.mem_zipIdx_iff_getElem?.mpr hk, ?_⟩
      rw [if_pos htype]
      exact List.mem_cons_of_mem _ List.mem_cons_self
    exact Int.ofNat_lt.mp (hall _ hmem).2
  · intro hseg a ha
    unfold conv_symb_tbl_log at ha
    rw [List.mem_append, List.mem_append, List.mem_append] at ha
    rcases ha with ((ha | ha) | ha) | ha
    · exact loop_ok (le_refl _) a ha
    · obtain ⟨p, hp, ha⟩ := List.mem_flatMap.mp ha
      rcases List.mem_cons.mp ha with rfl | ha
      · exact ok_of_lt (mem_zipIdx_lt hp)
      · split_ifs at ha with htype
        · rcases List.mem_cons.mp ha with rfl | ha
          · exact ok_of_lt (hseg p.1 (List.fst_mem_of_mem_zipIdx hp) htype)
          · exact loop_ok (le_refl _) a ha
        · cases ha
    · obtain ⟨-, -, ha⟩ := List.mem_flatMap.mp ha
      exact loop_ok (le_refl _) a ha
    · exact loop_ok (le_refl _) a ha

/-- What an exported item needs. -/
structure Exportable (c : Xout) (r : Reloc) : Prop where
  code : (calc_addr c r.seg_idx.toNat r.location).toNat + 1 < c.code_part.length
  symb : r.type = RELOC_XOFF → r.symb_idx.toNat < c.symb_tbl.length

theorem convReloc_log_ok {c : Xout} {r : Reloc} (hseg : r.seg_idx.toNat ≤ c.seg_tbl.length) :
    (∀ a ∈ convReloc_log c r, a.Ok) ↔ Exportable c r := by
  unfold convReloc_log
  constructor
  · intro hall
    constructor
    · have hok := hall ⟨.code_part, (calc_addr c r.seg_idx.toNat r.location).toNat + 1, c.code_part.length⟩
        (List.mem_append_left _ (List.mem_append_right _ (by simp)))
      have hlt := hok.2
      dsimp only at hlt
      omega
    · intro htype
      have hok := hall ⟨.symb_tbl, r.symb_idx.toNat, c.symb_tbl.length⟩
        (List.mem_append_right _ (by simp [htype]))
      exact Int.ofNat_lt.mp hok.2
  · intro hr a ha
    have hcode := hr.code
    rw [List.mem_append, List.mem_append] at ha
    rcases ha with (ha | ha) | ha
    · exact loop_ok hseg a ha
    · rcases List.mem_cons.mp ha with rfl | ha
      · exact ok_of_lt (by omega)
      · rw [List.mem_singleton] at ha
        rw [ha]
        exact ⟨by dsimp only; omega, by dsimp only; omega⟩
    · split_ifs at ha with htype
      · rw [List.mem_singleton] at ha
        rw [ha]
        exact ok_of_lt (hr.symb htype)
      · cases ha

theorem conv_reloc_tbl_log_ok {c : Xout} {relocs : List Reloc} :
    (∀ a ∈ conv_reloc_tbl_log c relocs, a.Ok) ↔
      ∀ i < c.seg_tbl.length, ∀ r ∈ relocs, r.seg_idx = BitVec.ofNat 8 i → Exportable c r := by
  have hle : ∀ {i : ℕ} {r : Reloc}, i < c.seg_tbl.length → r.seg_idx = BitVec.ofNat 8 i →
      r.seg_idx.toNat ≤ c.seg_tbl.length := by
    intro i r hi heq
    rw [heq, BitVec.toNat_ofNat]
    exact le_trans (Nat.mod_le _ _) (Nat.le_of_lt hi)
  constructor
  · intro hall i hi r hr heq
    refine (convReloc_log_ok (hle hi heq)).mp fun a ha => hall a ?_
    obtain ⟨k, hk⟩ := List.getElem?_of_mem hr
    refine List.mem_flatMap.mpr ⟨i, List.mem_range.mpr hi, List.mem_flatMap.mpr ⟨(r, k), ?_, ?_⟩⟩
    · exact List.mem_zipIdx_iff_getElem?.mpr hk
    · rw [if_pos (beq_iff_eq.mpr heq)]
      exact List.mem_cons_of_mem _ ha
  · intro hall a ha
    obtain ⟨i, hi, ha⟩ := List.mem_flatMap.mp ha
    obtain ⟨p, hp, ha⟩ := List.mem_flatMap.mp ha
    have hlt := List.mem_range.mp hi
    rcases List.mem_cons.mp ha with rfl | ha
    · exact ok_of_lt (mem_zipIdx_lt hp)
    · split_ifs at ha with heq
      · have heq' := beq_iff_eq.mp heq
        exact (convReloc_log_ok (hle hlt heq')).mpr
          (hall i hlt p.1 (List.fst_mem_of_mem_zipIdx hp) heq') a ha
      · cases ha

/-! ## 4. The whole conversion -/

/-- The tables as they are converted. -/
def completed (x : Xout) : Xout := add_seg_top_symb (add_seg_symb (assigned x))

theorem completed_of_nonneg (h : 0 ≤ x.header.num_segs) : completed x = prepare x := by
  have hassigned : assigned x = assign_bss x := if_neg (Int.not_lt.mpr h)
  rw [completed, hassigned]
  rfl

/-- With a negative number of segments the tables stay as they are. -/
theorem completed_of_neg (hread : xout_read file = some x) (h : x.header.num_segs < 0) :
    x.seg_tbl = [] ∧ assigned x = x ∧ completed x = x := by
  have hsegs : x.seg_tbl = [] := by
    have hlen := (length_tables hread).1
    rw [Int.toNat_of_nonpos (Int.le_of_lt h)] at hlen
    exact List.length_eq_zero_iff.mp hlen
  have hassigned : assigned x = x := if_pos h
  refine ⟨hsegs, hassigned, ?_⟩
  rw [completed, hassigned, add_seg_symb, add_seg_top_symb, hsegs]
  simp only [List.zipIdx_nil, List.foldl_nil, List.length_nil, List.range_zero, List.map_nil,
    List.append_nil]
  exact congrArg (fun l => ({ x with seg_tbl := l } : Xout)) hsegs.symm

theorem shift_eq_zero (hread : xout_read file = some x) (h : 0 ≤ num_symbs x) : shift x = 0 := by
  have hlen := (length_tables hread).2
  rw [shift, hlen, max_eq_right h, Int.sub_self]

/-- The symbols of the file are still there. -/
theorem symb_tbl_le (x : Xout) : x.symb_tbl.length ≤ (prepare x).symb_tbl.length := by
  have hone : ∀ (symbs : List XSymb) (i : ℕ) (s : Seg), symbs.length ≤ (addSegSymb symbs i s).length := by
    intro symbs i s
    rw [addSegSymb]
    split_ifs
    · rw [List.length_modify]
    · rw [List.length_append]
      exact Nat.le_add_right _ _
  have hfold : ∀ (l : List (Seg × ℕ)) (symbs : List XSymb),
      symbs.length ≤ (l.foldl (fun t p => addSegSymb t p.2 p.1) symbs).length := by
    intro l
    induction l with
    | nil => exact fun symbs => le_refl _
    | cons p l ih => exact fun symbs => le_trans (hone symbs p.2 p.1) (ih _)
  have hbss : (assign_bss x).symb_tbl.length = x.symb_tbl.length := length_allocCommon _ _ _
  rw [← hbss, prepare, add_seg_top_symb, List.length_append]
  exact le_trans (hfold _ _) (Nat.le_add_right _ _)

/-- Every segment symbol of the completed table is one of a segment. -/
theorem prepare_seg_symbs (h : Refers x) : ∀ s ∈ (prepare x).symb_tbl, s.type = SYMB_SEG →
    s.seg_idx.toNat < (prepare x).seg_tbl.length := by
  have hle : x.seg_tbl.length ≤ (prepare x).seg_tbl.length := by
    rw [length_prepare_segs, sectCount]
    split_ifs
    · exact le_refl _
    · exact Nat.le_succ _
  have hnum : ∀ i < sectCount x.seg_tbl, (BitVec.ofNat 8 i).toNat < (prepare x).seg_tbl.length := by
    intro i hi
    rw [length_prepare_segs, BitVec.toNat_ofNat]
    exact lt_of_le_of_lt (Nat.mod_le _ _) hi
  have hglobal : SYMB_GLOBAL ≠ SYMB_SEG := by decide
  have hlocal : SYMB_LOCAL ≠ SYMB_SEG := by decide
  refine prepare_forall (fun s n hs => hs) (fun s v htype => ?_) (fun i hi n _ => hnum i hi)
    (fun i hi n htype => ?_) fun s hs htype => ?_
  · exact absurd htype hglobal
  · exact absurd htype hlocal
  · exact lt_of_lt_of_le ((h.symbs s hs).segment (.inr htype)) hle

/-- The word of an item is in the code part, as the code has it. -/
theorem reads_iff {r : Reloc} (hseg : r.seg_idx.toNat < x.seg_tbl.length) : Reads x r ↔
    (calc_addr (prepare x) r.seg_idx.toNat r.location).toNat + 1 < x.code_part.length := by
  rw [calc_addr, sum_before (Nat.le_of_lt hseg), BitVec.toNat_add, BitVec.toNat_add, BitVec.toNat_ofNat,
    Nat.mod_add_mod, Nat.add_assoc (_ % _), Nat.mod_add_mod, ← Nat.add_assoc, Reads]
  exact Iff.rfl

/-- The log is fine where every part is. -/
theorem conversion_log_ok (q : Qsort) (hread : xout_read file = some x) (hc : Countable x)
    (hr : Refers x) (hreads : ∀ r ∈ x.reloc_tbl, Reads x r) : ∀ a ∈ conversion_log q x, a.Ok := by
  have hassign := (assign_bss_log_ok hread).mpr hc.segs
  intro a ha
  unfold conversion_log at ha
  dsimp only at ha
  change a ∈ _ ++ _ ++ _ ++ conv_sect_hdrs_log (completed x) ++ conv_symb_tbl_log (completed x) ++
    conv_reloc_tbl_log (completed x) (q.sort x.reloc_tbl) ++
    finalize_log (completed x) (q.sort x.reloc_tbl) at ha
  simp only [List.mem_append] at ha
  rcases Int.lt_or_le x.header.num_segs 0 with hneg | hpos
  · -- no segment, so only the loops over the symbols are left
    obtain ⟨hsegs, hsame, hcompleted⟩ := completed_of_neg hread hneg
    have htop : (add_seg_symb x).seg_tbl = [] := hsegs
    rw [hsame, hcompleted] at ha
    rcases ha with (((((ha | ha) | ha) | ha) | ha) | ha) | ha
    · exact hassign a ha
    · rw [hsegs] at ha
      cases ha
    · rw [add_seg_top_symb_log, htop] at ha
      cases ha
    · exact loop_ok (le_refl _) a ha
    · exact (conv_symb_tbl_log_ok x).mpr (fun s hs htype => (hr.symbs s hs).segment (.inr htype)) a ha
    · rw [conv_reloc_tbl_log, hsegs] at ha
      cases ha
    · rw [finalize_log, hsegs] at ha
      cases ha
  · rw [completed_of_nonneg hpos, shift_eq_zero hread (hc.symbs hpos)] at ha
    rcases ha with (((((ha | ha) | ha) | ha) | ha) | ha) | ha
    · exact hassign a ha
    · exact add_seg_symb_log_ok (fun p hp => (List.mem_zipIdx' hp).1) _ a ha
    · obtain ⟨i, -, rfl⟩ := List.mem_map.mp ha
      rw [Int.zero_add]
      exact ok_of_lt (Nat.lt_succ_self _)
    · exact loop_ok (le_refl _) a ha
    · exact (conv_symb_tbl_log_ok _).mpr (prepare_seg_symbs hr) a ha
    · refine conv_reloc_tbl_log_ok.mpr (fun i hi r hmem heq => ?_) a ha
      have hmem' := (q.perm x.reloc_tbl).mem_iff.mp hmem
      have hitem := hr.relocs r hmem'
      refine ⟨(reads_iff hitem.segment).mp (hreads r hmem'), fun htype => ?_⟩
      have htarget := hitem.target
      rw [htype, if_pos (by decide)] at htarget
      exact lt_of_lt_of_le htarget (symb_tbl_le x)
    · obtain ⟨-, -, ha⟩ := List.mem_flatMap.mp ha
      exact loop_ok (le_refl _) a ha

/-- What a fine log says of the file, when its references lead somewhere. -/
theorem of_conversion_log_ok (q : Qsort) (hread : xout_read file = some x) (hr : Refers x)
    (hall : ∀ a ∈ conversion_log q x, a.Ok) : Countable x ∧ ∀ r ∈ x.reloc_tbl, Reads x r := by
  unfold conversion_log at hall
  dsimp only at hall
  change ∀ a ∈ _ ++ _ ++ _ ++ conv_sect_hdrs_log (completed x) ++ conv_symb_tbl_log (completed x) ++
    conv_reloc_tbl_log (completed x) (q.sort x.reloc_tbl) ++
    finalize_log (completed x) (q.sort x.reloc_tbl), a.Ok at hall
  simp only [List.mem_append] at hall
  refine ⟨⟨(assign_bss_log_ok hread).mp fun a ha => hall a (by simp [ha]), fun hpos => ?_⟩,
    fun r hmem => ?_⟩
  · by_contra hneg
    have hsymbs : x.symb_tbl = [] := by
      have hlen := (length_tables hread).2
      rw [max_eq_left (by omega)] at hlen
      exact List.length_eq_zero_iff.mp (Int.natCast_eq_zero.mp hlen)
    have hd : shift x < 0 := by
      rw [shift, hsymbs, List.length_nil]
      omega
    have hassigned : assigned x = assign_bss x := if_neg (Int.not_lt.mpr hpos)
    have hnil : (assign_bss x).symb_tbl = [] := by
      rw [assign_bss_symb_tbl, hsymbs]
      rfl
    have hne : (assign_bss x).seg_tbl.zipIdx ≠ [] := by
      intro h
      have hlen := length_prepare_segs x
      have hlt := bssIndex_lt x
      rw [prepare_seg_tbl, ← List.length_zipIdx (i := 0), h, List.length_nil] at hlen
      omega
    obtain ⟨a, ha, hno⟩ := @add_seg_symb_log_fails (assign_bss x).seg_tbl.length _ _ hne hd
    refine hno (hall a ?_)
    rw [hassigned, hnil]
    simp [ha]
  · have hseg := (hr.relocs r hmem).segment
    have hpos : 0 ≤ x.header.num_segs := by
      by_contra hneg
      rw [(completed_of_neg hread (Int.not_le.mp hneg)).1] at hseg
      cases hseg
    have hlt : r.seg_idx.toNat < (prepare x).seg_tbl.length := by
      rw [length_prepare_segs, sectCount]
      split_ifs
      · exact hseg
      · exact Nat.lt_succ_of_lt hseg
    rw [completed_of_nonneg hpos] at hall
    have hitems := conv_reloc_tbl_log_ok.mp fun a ha => hall a (.inl (.inr ha))
    have hitem := hitems _ hlt r ((q.perm x.reloc_tbl).mem_iff.mpr hmem)
      (by rw [BitVec.ofNat_toNat, BitVec.setWidth_eq])
    exact (reads_iff hseg).mpr hitem.code

/-- A code segment of two bytes, with the symbol of segment `i`. -/
def segSymbol (i : Byte) : List Byte :=
  xoutBytes 0xee02 [⟨0, SEG_CODE, 2⟩] [1, 2] [] [⟨i, SYMB_SEG, 0, fun _ => 0⟩]

theorem segSymbol_read (i : Byte) : ∃ header, xout_read (segSymbol i) =
    some ⟨header, [⟨0, SEG_CODE, 2⟩], [1, 2], [], [⟨i, SYMB_SEG, 0, fun _ => 0⟩]⟩ :=
  xout_read_xoutBytes 0xee02 (by decide) (by decide) (by decide)
    (by rw [XOUT_SYMB_ENTRY_LEN, List.length_singleton]; decide)

end Cpm8000.Coff
