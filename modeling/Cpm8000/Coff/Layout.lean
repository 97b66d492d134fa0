/-
# The layout of the converted file

Where the tables of a COFF file lie is worked out before any of it is written: the section headers
give the places of the section contents and of the relocation items, the file header that of the
symbol table.  `Layout` says that what they give is what the file holds; `layout_iff` that it is so
unless a section has 2^16 relocation items or more, their number being kept in 16 bits.
-/
import Cpm8000.Coff.Convert

namespace Cpm8000.Coff

open Sys

/-! ## 1. Reading the headers back -/

/-- A place and a length. -/
abbrev Range := ℕ × ℕ

def numSects (file : List Byte) : ℕ := (field16 file 2).toNat

def hdrRange (file : List Byte) : Range := (0, COFF_HDR_LEN + COFF_SECT_HDR_LEN * numSects file)

def symbRange (file : List Byte) : Range :=
  ((field32 file 8).toNat, COFF_SYMB_ENTRY_LEN * (field32 file 12).toNat)

/-- The place of the `i`-th section header. -/
def sectHdrPos (i : ℕ) : ℕ := COFF_HDR_LEN + COFF_SECT_HDR_LEN * i

/-- The contents of a section; a place of 0 means that it has none. -/
def dataRange (file : List Byte) (i : ℕ) : Range :=
  let fpos := (field32 file (sectHdrPos i + 20)).toNat
  (fpos, if fpos = 0 then 0 else (field32 file (sectHdrPos i + 16)).toNat)

def relocRange (file : List Byte) (i : ℕ) : Range :=
  ((field32 file (sectHdrPos i + 24)).toNat,
    COFF_RELOC_ITEM_LEN * (field16 file (sectHdrPos i + 32)).toNat)

/-- All the ranges the headers name, with their own. -/
def ranges (file : List Byte) : List Range :=
  hdrRange file :: ((List.range (numSects file)).map (dataRange file) ++
    ((List.range (numSects file)).map (relocRange file) ++ [symbRange file]))

/-- No position lies in both. -/
def Range.Apart (r s : Range) : Prop :=
  ∀ p, ¬ (r.1 ≤ p ∧ p < r.1 + r.2 ∧ s.1 ≤ p ∧ p < s.1 + s.2)

def part (file : List Byte) (r : Range) : List Byte := slice file r.1 r.2

/-- The relocation items of a section. -/
def itemsOf (relocs : List Reloc) (i : ℕ) : List Reloc := relocs.filter (·.seg_idx.toNat == i)

/-- **The file is consistent**: each section header names the bytes of its segment and the
relocation items of its section, all of them together being the table, the file header names the
symbol table, which ends the file, and no two of these overlap. -/
structure Layout (q : Qsort) (x : Xout) (file : List Byte) : Prop where
  sects : numSects file = (prepare x).seg_tbl.length
  data : ∀ i < numSects file, part file (dataRange file i) = segBytes x.seg_tbl x.code_part i
  relocs : ∀ i < numSects file, ∃ l : List Reloc, l.Perm (itemsOf x.reloc_tbl i) ∧
    part file (relocRange file i) =
      (l.map (convReloc (prepare x) (convert q x).symb_tbl)).flatMap coff_write_reloc
  table : (List.range (numSects file)).flatMap (fun i => part file (relocRange file i)) =
    (convert q x).reloc_tbl.flatMap coff_write_reloc
  symbs : part file (symbRange file) = (convert q x).symb_tbl.flatMap coff_write_symb
  last : (symbRange file).1 + (symbRange file).2 = file.length
  apart : (ranges file).Pairwise Range.Apart

/-! ## 2. The preparation keeps the contents -/

theorem findIdx_bss {segs : List Seg}
    (h : segs.findIdx (fun s => s.type == SEG_BSS) ≠ segs.length) :
    ∃ s, segs[segs.findIdx (fun s => s.type == SEG_BSS)]? = some s ∧ s.type = SEG_BSS := by
  have hlt := lt_of_le_of_ne List.findIdx_le_length h
  refine ⟨segs[segs.findIdx (fun s => s.type == SEG_BSS)], List.getElem?_eq_getElem hlt, ?_⟩
  simpa using List.findIdx_getElem (w := hlt)

theorem map_dataLen_modify {segs : List Seg} {i : ℕ} {n : BitVec 16}
    (h : ∀ s, segs[i]? = some s → s.type = SEG_BSS) :
    (segs.modify i fun s => { s with length := n }).map Seg.dataLen = segs.map Seg.dataLen := by
  apply List.ext_getElem?
  intro k
  rw [List.getElem?_map, List.getElem?_map, List.getElem?_modify]
  by_cases hk : i = k
  · subst hk
    cases hs : segs[i]? with
    | none => rfl
    | some s => simp [Seg.dataLen, h s hs]
  · cases segs[k]? <;> simp [hk]

/-- The lengths in the code part, after a BSS segment has been added where there is none. -/
theorem map_dataLen_assign_bss (x : Xout) :
    (assign_bss x).seg_tbl.map Seg.dataLen = x.seg_tbl.map Seg.dataLen ∨
      (assign_bss x).seg_tbl.map Seg.dataLen = x.seg_tbl.map Seg.dataLen ++ [0] := by
  rw [assign_bss]
  by_cases hbss : x.seg_tbl.findIdx (fun s => s.type == SEG_BSS) = x.seg_tbl.length
  · right
    rw [if_pos hbss, map_dataLen_modify]
    · rw [List.map_append]
      rfl
    · intro s hs
      rw [hbss, List.getElem?_concat_length, Option.some.injEq] at hs
      rw [← hs]
  · left
    rw [if_neg hbss, map_dataLen_modify]
    obtain ⟨s, hs, htype⟩ := findIdx_bss hbss
    intro t ht
    rw [hs, Option.some.injEq] at ht
    rw [← ht, htype]

@[simp] theorem prepare_seg_tbl (x : Xout) : (prepare x).seg_tbl = (assign_bss x).seg_tbl := rfl

@[simp] theorem prepare_reloc_tbl (x : Xout) : (prepare x).reloc_tbl = x.reloc_tbl := rfl

@[simp] theorem prepare_code_part (x : Xout) : (prepare x).code_part = x.code_part := rfl

theorem length_prepare_segs_le (x : Xout) :
    (prepare x).seg_tbl.length ≤ x.seg_tbl.length + 1 := by
  have h := map_dataLen_assign_bss x
  rcases h with h | h
  · have h' := congrArg List.length h
    simp only [List.length_map] at h'
    simp [h']
  · have h' := congrArg List.length h
    simp only [List.length_map, List.length_append, List.length_singleton] at h'
    simp [h']

theorem dataPos_eq (segs : List Seg) (i : ℕ) :
    dataPos segs i = ((segs.map Seg.dataLen).take i).sum := by
  rw [dataPos, List.map_take]

theorem dataLen_eq (segs : List Seg) (i : ℕ) :
    ((segs[i]?).map Seg.dataLen).getD 0 = ((segs.map Seg.dataLen)[i]?).getD 0 := by
  rw [List.getElem?_map]

/-- The segments keep their bytes. -/
theorem segBytes_prepare (x : Xout) (i : ℕ) (hi : i < (prepare x).seg_tbl.length) :
    segBytes (prepare x).seg_tbl x.code_part i = segBytes x.seg_tbl x.code_part i := by
  rw [prepare_seg_tbl] at hi ⊢
  rw [segBytes, segBytes, dataPos_eq, dataPos_eq, dataLen_eq, dataLen_eq]
  rcases map_dataLen_assign_bss x with h | h
  · rw [h]
  · have hlen := congrArg List.length h
    simp only [List.length_map, List.length_append, List.length_singleton] at hlen
    rw [h]
    rcases Nat.lt_or_ge i x.seg_tbl.length with hlt | hge
    · rw [List.take_append_of_le_length (by simp; omega), List.getElem?_append_left (by simpa)]
    · obtain rfl : i = x.seg_tbl.length := by omega
      have hnew : (List.map Seg.dataLen x.seg_tbl)[x.seg_tbl.length]? = none := by simp
      rw [List.getElem?_append_right (by simp), hnew]
      simp

theorem sum_dataLen_prepare (x : Xout) :
    ((prepare x).seg_tbl.map Seg.dataLen).sum = (x.seg_tbl.map Seg.dataLen).sum := by
  rw [prepare_seg_tbl]
  rcases map_dataLen_assign_bss x with h | h
  · rw [h]
  · rw [h, List.sum_append, List.sum_singleton, Nat.add_zero]

/-! ## 3. The headers as written -/

theorem length_coff_write_hdr (h : Header) : (coff_write_hdr h).length = COFF_HDR_LEN := by
  simp [coff_write_hdr, COFF_HDR_LEN]

theorem length_coff_write_sect (s : Sect) : (coff_write_sect s).length = COFF_SECT_HDR_LEN := by
  simp [coff_write_sect, COFF_SECT_HDR_LEN]

theorem length_coff_write_reloc (r : CReloc) :
    (coff_write_reloc r).length = COFF_RELOC_ITEM_LEN := by
  simp [coff_write_reloc, COFF_RELOC_ITEM_LEN]

theorem length_coff_write_symb (s : CSymb) : (coff_write_symb s).length = COFF_SYMB_ENTRY_LEN := by
  cases s <;> simp [coff_write_symb, COFF_SYMB_ENTRY_LEN]

theorem hdr_num_sects (h : Header) : field16 (coff_write_hdr h) 2 = h.num_sects :=
  field16_be16 (by simp)

theorem hdr_symb_tbl_fpos (h : Header) : field32 (coff_write_hdr h) 8 = h.symb_tbl_fpos := by
  rw [coff_write_hdr, ← List.append_assoc, ← List.append_assoc]
  exact field32_be32 (by simp)

theorem hdr_num_symbs (h : Header) : field32 (coff_write_hdr h) 12 = h.num_symbs := by
  rw [coff_write_hdr, ← List.append_assoc, ← List.append_assoc, ← List.append_assoc]
  exact field32_be32 (by simp)

theorem sect_length (s : Sect) : field32 (coff_write_sect s) 16 = s.length := by
  rw [coff_write_sect, ← List.append_assoc, ← List.append_assoc]
  exact field32_be32 (by simp)

theorem sect_fpos (s : Sect) : field32 (coff_write_sect s) 20 = s.fpos := by
  rw [coff_write_sect, ← List.append_assoc, ← List.append_assoc, ← List.append_assoc]
  exact field32_be32 (by simp)

theorem sect_reloc_tbl_fpos (s : Sect) : field32 (coff_write_sect s) 24 = s.reloc_tbl_fpos := by
  rw [coff_write_sect, ← List.append_assoc, ← List.append_assoc, ← List.append_assoc,
    ← List.append_assoc]
  exact field32_be32 (by simp)

theorem sect_num_relocs (s : Sect) : field16 (coff_write_sect s) 32 = s.num_relocs := by
  rw [coff_write_sect, ← List.append_assoc, ← List.append_assoc, ← List.append_assoc,
    ← List.append_assoc, ← List.append_assoc, ← List.append_assoc]
  exact field16_be16 (by simp)

theorem conv_sect_hdrs_get (pos off : ℕ) (segs : List Seg) (k : ℕ) :
    ∃ f : Seg → Sect, (conv_sect_hdrs pos off segs)[k]? = (segs[k]?).map f ∧
      ∀ s, (f s).length = s.length.setWidth 32 ∧
        (f s).fpos = if s.type = SEG_BSS then 0 else BitVec.ofNat 32 (pos + (off + dataPos segs k)) := by
  induction segs generalizing off k with
  | nil => exact ⟨fun s => ⟨fun _ => 0, 0, 0, s.length.setWidth 32,
      if s.type = SEG_BSS then 0 else BitVec.ofNat 32 (pos + (off + dataPos [] k)), 0, 0, 0, 0, 0⟩,
      rfl, fun s => ⟨rfl, rfl⟩⟩
  | cons s rest ih =>
    cases k with
    | zero =>
      refine ⟨fun t => ⟨pad (conv_seg_name t.type), 0, 0, t.length.setWidth 32,
        if t.type = SEG_BSS then 0 else BitVec.ofNat 32 (pos + off), 0, 0, 0, 0,
        conv_seg_type t.type⟩, rfl, fun t => ⟨rfl, rfl⟩⟩
    | succ k =>
      obtain ⟨f, hf, hfields⟩ := ih (if s.type = SEG_BSS then off else off + s.length.toNat) k
      refine ⟨f, by rw [conv_sect_hdrs, List.getElem?_cons_succ, hf, List.getElem?_cons_succ],
        fun t => ⟨(hfields t).1, ?_⟩⟩
      have hpos : dataPos (s :: rest) (k + 1) = s.dataLen + dataPos rest k := by
        rw [dataPos, dataPos, List.take_succ_cons, List.map_cons, List.sum_cons]
      rw [(hfields t).2, hpos, Seg.dataLen]
      by_cases hs : s.type = SEG_BSS
      · rw [if_pos hs, if_pos hs, Nat.zero_add]
      · rw [if_neg hs, if_neg hs, Nat.add_assoc off]

theorem length_conv_sect_hdrs (pos off : ℕ) (segs : List Seg) :
    (conv_sect_hdrs pos off segs).length = segs.length := by
  induction segs generalizing off with
  | nil => rfl
  | cons s rest ih => rw [conv_sect_hdrs, List.length_cons, ih, List.length_cons]

theorem length_finalize (relocs : List Reloc) (fpos count sect : ℕ) (l : List Sect) :
    (finalize relocs fpos count sect l).length = l.length := by
  induction l generalizing fpos count sect with
  | nil => rfl
  | cons s rest ih => rw [finalize, List.length_cons, ih, List.length_cons]

/-- The number of relocation items of a section. -/
def relocCount (relocs : List Reloc) (i : ℕ) : ℕ := relocs.countP (·.seg_idx.toNat == i)

/-- **What the last step fills in.** -/
theorem finalize_get (relocs : List Reloc) (fpos count sect : ℕ) (l : List Sect) (k : ℕ) :
    (finalize relocs fpos count sect l)[k]? = (l[k]?).map fun s =>
      { s with
        num_relocs := BitVec.ofNat 16 (relocCount relocs (sect + k))
        reloc_tbl_fpos :=
          if relocCount relocs (sect + k) = 0 then 0
          else BitVec.ofNat 32 (fpos + COFF_RELOC_ITEM_LEN *
            (count + ∑ j ∈ Finset.range k, relocCount relocs (sect + j))) } := by
  induction l generalizing fpos count sect k with
  | nil => rfl
  | cons s rest ih =>
    cases k with
    | zero =>
      rw [finalize, List.getElem?_cons_zero, List.getElem?_cons_zero, Option.map_some,
        Finset.sum_range_zero, Nat.mul_comm COFF_RELOC_ITEM_LEN]
      rfl
    | succ k =>
      rw [finalize, List.getElem?_cons_succ, ih, List.getElem?_cons_succ, Finset.sum_range_succ']
      have hsect : ∀ j, sect + 1 + j = sect + (j + 1) := fun j => by omega
      have hfpos : ∀ a b c : ℕ, fpos + a * COFF_RELOC_ITEM_LEN + COFF_RELOC_ITEM_LEN * (b + c) =
          fpos + COFF_RELOC_ITEM_LEN * (a + (c + b)) := fun a b c => by ring
      simp only [hsect, hfpos, Nat.add_zero]
      rfl

/-! ## 4. The parts of the written file -/

section parts

variable (c : CoffFile)

theorem file_hdr : slice (coff_write c) 0 COFF_HDR_LEN = coff_write_hdr c.header := by
  rw [coff_write, slice_append_left (by rw [length_coff_write_hdr, Nat.zero_add]),
    ← length_coff_write_hdr c.header, slice_all]

theorem length_sects : (c.sect_tbl.flatMap coff_write_sect).length =
    COFF_SECT_HDR_LEN * c.sect_tbl.length :=
  length_flatMap_const length_coff_write_sect _

theorem length_relocs : (c.reloc_tbl.flatMap coff_write_reloc).length =
    COFF_RELOC_ITEM_LEN * c.reloc_tbl.length :=
  length_flatMap_const length_coff_write_reloc _

theorem length_symbs : (c.symb_tbl.flatMap coff_write_symb).length =
    COFF_SYMB_ENTRY_LEN * c.symb_tbl.length :=
  length_flatMap_const length_coff_write_symb _

/-- Where the contents begin. -/
def CoffFile.dataStart : ℕ := COFF_HDR_LEN + COFF_SECT_HDR_LEN * c.sect_tbl.length

/-- Where the relocation items begin. -/
def CoffFile.relocStart : ℕ := c.dataStart + c.code_part.length

/-- Where the symbol table begins. -/
def CoffFile.symbStart : ℕ := c.relocStart + COFF_RELOC_ITEM_LEN * c.reloc_tbl.length

theorem length_coff_write :
    (coff_write c).length = c.symbStart + COFF_SYMB_ENTRY_LEN * c.symb_tbl.length := by
  rw [coff_write, List.length_append, List.length_append, List.length_append, List.length_append,
    length_coff_write_hdr, length_sects, length_relocs, length_symbs, CoffFile.symbStart,
    CoffFile.relocStart, CoffFile.dataStart]
  omega

theorem file_sect {k : ℕ} {s : Sect} (h : c.sect_tbl[k]? = some s) :
    slice (coff_write c) (sectHdrPos k) COFF_SECT_HDR_LEN = coff_write_sect s := by
  have hk : k < c.sect_tbl.length := (List.getElem?_eq_some_iff.mp h).1
  have hone : slice c.sect_tbl k 1 = [s] := by
    rw [slice, List.take_one, List.head?_drop, h]
    rfl
  have htable := slice_flatMap length_coff_write_sect c.sect_tbl k 1
  rw [hone, List.flatMap_singleton, Nat.mul_one] at htable
  rw [coff_write, sectHdrPos, ← length_coff_write_hdr c.header, slice_append_right,
    slice_append_left, htable]
  rw [length_sects]
  calc COFF_SECT_HDR_LEN * k + COFF_SECT_HDR_LEN = COFF_SECT_HDR_LEN * (k + 1) := by ring
    _ ≤ COFF_SECT_HDR_LEN * c.sect_tbl.length := Nat.mul_le_mul_left _ hk

theorem file_after_sects (p n : ℕ) : slice (coff_write c) (c.dataStart + p) n =
    slice (c.code_part ++ (c.reloc_tbl.flatMap coff_write_reloc ++
      c.symb_tbl.flatMap coff_write_symb)) p n := by
  rw [coff_write, CoffFile.dataStart, Nat.add_assoc, ← length_coff_write_hdr c.header,
    slice_append_right, ← length_sects, slice_append_right]

theorem file_code {p n : ℕ} (h : p + n ≤ c.code_part.length) :
    slice (coff_write c) (c.dataStart + p) n = slice c.code_part p n := by
  rw [file_after_sects, slice_append_left h]

theorem file_reloc {p n : ℕ} (h : p + n ≤ c.reloc_tbl.length) :
    slice (coff_write c) (c.relocStart + COFF_RELOC_ITEM_LEN * p) (COFF_RELOC_ITEM_LEN * n) =
      (slice c.reloc_tbl p n).flatMap coff_write_reloc := by
  rw [CoffFile.relocStart, Nat.add_assoc, file_after_sects, slice_append_right, slice_append_left,
    slice_flatMap length_coff_write_reloc]
  rw [length_relocs, ← Nat.mul_add]
  exact Nat.mul_le_mul_left _ h

theorem file_symb : slice (coff_write c) c.symbStart (COFF_SYMB_ENTRY_LEN * c.symb_tbl.length) =
    c.symb_tbl.flatMap coff_write_symb := by
  rw [CoffFile.symbStart, CoffFile.relocStart, Nat.add_assoc, file_after_sects, slice_append_right,
    ← length_relocs, ← length_symbs, ← Nat.add_zero (List.length (List.flatMap _ c.reloc_tbl)),
    slice_append_right, slice_all]

theorem field_hdr16 {q : ℕ} (hq : q + 2 ≤ COFF_HDR_LEN) :
    field16 (coff_write c) q = field16 (coff_write_hdr c.header) q := by
  have h := field16_of_slice (file_hdr c) hq
  rwa [Nat.zero_add] at h

theorem field_hdr32 {q : ℕ} (hq : q + 4 ≤ COFF_HDR_LEN) :
    field32 (coff_write c) q = field32 (coff_write_hdr c.header) q := by
  have h := field32_of_slice (file_hdr c) hq
  rwa [Nat.zero_add] at h

theorem numSects_eq : numSects (coff_write c) = c.header.num_sects.toNat := by
  rw [numSects, field_hdr16 c (by decide), hdr_num_sects]

theorem symbRange_eq : symbRange (coff_write c) =
    (c.header.symb_tbl_fpos.toNat, COFF_SYMB_ENTRY_LEN * c.header.num_symbs.toNat) := by
  rw [symbRange, field_hdr32 c (by decide), field_hdr32 c (by decide), hdr_symb_tbl_fpos,
    hdr_num_symbs]

variable {c}

theorem dataRange_eq {k : ℕ} {s : Sect} (h : c.sect_tbl[k]? = some s) :
    dataRange (coff_write c) k =
      (s.fpos.toNat, if s.fpos.toNat = 0 then 0 else s.length.toNat) := by
  rw [dataRange, field32_of_slice (file_sect c h) (by decide),
    field32_of_slice (file_sect c h) (by decide), sect_fpos, sect_length]

theorem relocRange_eq {k : ℕ} {s : Sect} (h : c.sect_tbl[k]? = some s) :
    relocRange (coff_write c) k =
      (s.reloc_tbl_fpos.toNat, COFF_RELOC_ITEM_LEN * s.num_relocs.toNat) := by
  rw [relocRange, field32_of_slice (file_sect c h) (by decide),
    field16_of_slice (file_sect c h) (by decide), sect_reloc_tbl_fpos, sect_num_relocs]

end parts

/-! ## 5. How long the tables are -/

theorem length_allocCommon (bss : Byte) (l : List XSymb) (len : BitVec 16) :
    (allocCommon bss l len).1.length = l.length := by
  induction l generalizing len with
  | nil => rfl
  | cons s rest ih =>
    rw [allocCommon]
    split_ifs
    · rw [List.length_cons, List.length_cons, ih]
    · rw [List.length_cons, List.length_cons, ih]

theorem length_addSegSymb_le (symbs : List XSymb) (i : ℕ) (s : Seg) :
    (addSegSymb symbs i s).length ≤ symbs.length + 1 := by
  rw [addSegSymb]
  split_ifs
  · rw [List.length_modify]
    exact Nat.le_succ _
  · rw [List.length_append, List.length_singleton]

theorem length_foldl_addSegSymb_le (l : List (Seg × ℕ)) (symbs : List XSymb) :
    (l.foldl (fun t p => addSegSymb t p.2 p.1) symbs).length ≤ symbs.length + l.length := by
  induction l generalizing symbs with
  | nil => exact le_refl _
  | cons p l ih =>
    rw [List.foldl_cons, List.length_cons]
    have h := length_addSegSymb_le symbs p.2 p.1
    exact le_trans (ih _) (by omega)

theorem length_prepare_symbs_le (x : Xout) :
    (prepare x).symb_tbl.length ≤ x.symb_tbl.length + 2 * (prepare x).seg_tbl.length := by
  have hbss : (assign_bss x).symb_tbl.length = x.symb_tbl.length := length_allocCommon _ _ _
  have hfold := length_foldl_addSegSymb_le (assign_bss x).seg_tbl.zipIdx (assign_bss x).symb_tbl
  rw [List.length_zipIdx, hbss] at hfold
  have htop : (prepare x).symb_tbl.length =
      (add_seg_symb (assign_bss x)).symb_tbl.length + (prepare x).seg_tbl.length := by
    rw [prepare, add_seg_top_symb, List.length_append, List.length_map, List.length_range]
  rw [htop, prepare_seg_tbl]
  have hadd : (add_seg_symb (assign_bss x)).symb_tbl.length ≤
      x.symb_tbl.length + (assign_bss x).seg_tbl.length := hfold
  omega

theorem length_flatMap_le {α β : Type*} {f : α → List β} {k : ℕ} (h : ∀ a, (f a).length ≤ k)
    (l : List α) : (l.flatMap f).length ≤ k * l.length := by
  induction l with
  | nil => simp
  | cons a l ih =>
    rw [List.flatMap_cons, List.length_append, List.length_cons, Nat.mul_succ, Nat.add_comm]
    exact Nat.add_le_add ih (h a)

theorem ofNat_inj_of_lt {i j : ℕ} (hi : i < 256) (hj : j < 256)
    (h : BitVec.ofNat 8 i = BitVec.ofNat 8 j) : i = j := by
  have := congrArg BitVec.toNat h
  rwa [BitVec.toNat_ofNat, BitVec.toNat_ofNat, Nat.mod_eq_of_lt hi, Nat.mod_eq_of_lt hj] at this

theorem length_globals_le (l : List XSymb) {n : ℕ} (hn : n ≤ 256) :
    ((List.range n).flatMap fun seg => (l.filter fun s =>
      s.seg_idx == BitVec.ofNat 8 seg && s.type == SYMB_GLOBAL).map globalSymb).length ≤
      l.length := by
  rw [length_flatMap_range]
  simp only [List.length_map, ← List.countP_eq_length_filter]
  -- below 256 a segment number is its byte, so that no symbol is counted twice
  let g : ℕ → XSymb → Bool := fun i s =>
    decide (i < 256) && (s.seg_idx == BitVec.ofNat 8 i && s.type == SYMB_GLOBAL)
  have hg : ∀ s i j, g i s → g j s → i = j := by
    intro s i j hi hj
    simp only [g, Bool.and_eq_true, decide_eq_true_eq, beq_iff_eq] at hi hj
    exact ofNat_inj_of_lt hi.1 hj.1 (hi.2.1.symm.trans hj.2.1)
  refine le_trans (Finset.sum_le_sum fun i hi => ?_) (sum_countP_le hg l n)
  refine List.countP_mono_left fun s _ hs => ?_
  have hlt : i < 256 := lt_of_lt_of_le (Finset.mem_range.mp hi) hn
  simpa [g, hlt] using hs

theorem length_conv_symb_tbl_le (x : Xout) (hn : x.seg_tbl.length ≤ 256) :
    (conv_symb_tbl x).length ≤ 2 + 5 * x.symb_tbl.length := by
  have hfilter : ∀ p : XSymb → Bool, (x.symb_tbl.filter p).length ≤ x.symb_tbl.length :=
    fun p => List.length_filter_le p _
  have hsect : ∀ l : List XSymb, (l.flatMap (sectSymb x)).length ≤ 2 * l.length :=
    length_flatMap_le fun _ => le_refl 2
  have hext : ∀ l : List XSymb, (l.flatMap externSymb).length ≤ 1 * l.length := by
    refine length_flatMap_le fun s => ?_
    rw [externSymb]
    split_ifs <;> simp
  have hglobal := length_globals_le x.symb_tbl hn
  simp only [conv_symb_tbl, List.length_append, List.length_map]
  have h2 := hfilter fun s => !(s.seg_idx == 255 || s.type != SYMB_LOCAL)
  have h3 := le_trans (hsect _) (Nat.mul_le_mul_left 2 (hfilter fun s => !(s.type != SYMB_SEG)))
  have h5 := le_trans (hext _) (Nat.mul_le_mul_left 1 (hfilter fun s => !(s.seg_idx != 255)))
  have hfile : fileSymb.length = 2 := rfl
  omega

theorem sum_dataLen_le (l : List Seg) : (l.map Seg.dataLen).sum ≤ 65535 * l.length := by
  induction l with
  | nil => simp
  | cons s l ih =>
    have hs : s.dataLen ≤ 65535 := by
      rw [Seg.dataLen]
      have := s.length.isLt
      split_ifs <;> omega
    rw [List.map_cons, List.sum_cons, List.length_cons]
    omega

/-! ## 6. The layout -/

section layout

variable (q : Qsort) {x : Xout} {file : List Byte}

theorem length_sect_tbl (x : Xout) : (convert q x).sect_tbl.length = (prepare x).seg_tbl.length := by
  rw [convert, length_finalize, length_conv_sect_hdrs]

theorem relocCount_sort (l : List Reloc) (i : ℕ) : relocCount (q.sort l) i = relocCount l i :=
  (q.perm l).countP_eq _

theorem filter_eq_itemsOf (l : List Reloc) {i : ℕ} (hi : i < 256) :
    l.filter (·.seg_idx == BitVec.ofNat 8 i) = itemsOf l i := by
  refine List.filter_congr fun r _ => ?_
  rw [Bool.eq_iff_iff, beq_iff_eq, beq_iff_eq]
  constructor
  · intro h
    rw [h, BitVec.toNat_ofNat, Nat.mod_eq_of_lt hi]
  · intro h
    rw [← h, BitVec.ofNat_toNat, BitVec.setWidth_eq]

/-- The records of a section, in the order of the table. -/
def recordsOf (x : Xout) (i : ℕ) : List CReloc :=
  ((q.sort x.reloc_tbl).filter (·.seg_idx == BitVec.ofNat 8 i)).map
    (convReloc (prepare x) (convert q x).symb_tbl)

theorem reloc_tbl_eq (x : Xout) : (convert q x).reloc_tbl =
    (List.range (prepare x).seg_tbl.length).flatMap (recordsOf q x) := rfl

theorem length_recordsOf (x : Xout) {i : ℕ} (hi : i < 256) :
    (recordsOf q x i).length = relocCount x.reloc_tbl i := by
  rw [recordsOf, List.length_map, filter_eq_itemsOf _ hi, itemsOf, ← List.countP_eq_length_filter]
  exact relocCount_sort q _ i

theorem sum_length_recordsOf (x : Xout) {k : ℕ} (hk : k ≤ 256) :
    ∑ j ∈ Finset.range k, (recordsOf q x j).length =
      ∑ j ∈ Finset.range k, relocCount x.reloc_tbl j :=
  Finset.sum_congr rfl fun _ hj =>
    length_recordsOf q x (lt_of_lt_of_le (Finset.mem_range.mp hj) hk)

variable (h : WellFormed file x)

include h in
theorem segs_le : (prepare x).seg_tbl.length ≤ 256 :=
  le_trans (length_prepare_segs_le x) (Nat.succ_le_succ h.segs)

include h in
theorem length_code_le : x.code_part.length ≤ 65535 * 255 := by
  rw [h.code]
  exact le_trans (sum_dataLen_le _) (Nat.mul_le_mul_left _ h.segs)

/-- **A section header as it is written.** -/
theorem sect_get (x : Xout) {i : ℕ} (hi : i < (prepare x).seg_tbl.length) :
    ∃ s g, (convert q x).sect_tbl[i]? = some s ∧ (prepare x).seg_tbl[i]? = some g ∧
      s.length = g.length.setWidth 32 ∧
      s.fpos = (if g.type = SEG_BSS then 0 else
        BitVec.ofNat 32 ((convert q x).dataStart + dataPos (prepare x).seg_tbl i)) ∧
      s.num_relocs = BitVec.ofNat 16 (relocCount x.reloc_tbl i) ∧
      s.reloc_tbl_fpos = if relocCount x.reloc_tbl i = 0 then 0 else
        BitVec.ofNat 32 ((convert q x).relocStart +
          COFF_RELOC_ITEM_LEN * ∑ j ∈ Finset.range i, relocCount x.reloc_tbl j) := by
  obtain ⟨f, hf, hfields⟩ := conv_sect_hdrs_get
    (COFF_HDR_LEN + (prepare x).seg_tbl.length * COFF_SECT_HDR_LEN) 0 (prepare x).seg_tbl i
  have hg := List.getElem?_eq_getElem hi
  generalize (prepare x).seg_tbl[i] = g at hg
  have hdata : (convert q x).dataStart =
      COFF_HDR_LEN + (prepare x).seg_tbl.length * COFF_SECT_HDR_LEN := by
    rw [CoffFile.dataStart, length_sect_tbl, Nat.mul_comm]
  have hreloc : (convert q x).relocStart =
      COFF_HDR_LEN + COFF_SECT_HDR_LEN * (prepare x).seg_tbl.length + x.code_part.length := by
    rw [CoffFile.relocStart, hdata, Nat.mul_comm]
    rfl
  have hget : (convert q x).sect_tbl[i]? = _ := finalize_get _ _ _ _ _ i
  rw [hf, hg, Option.map_some, Option.map_some] at hget
  refine ⟨_, g, hget, hg, (hfields g).1, ?_, ?_, ?_⟩
  · simp only [(hfields g).2, hdata, Nat.zero_add]
  · simp only [relocCount_sort, prepare_reloc_tbl, Nat.zero_add]
  · simp only [relocCount_sort, prepare_reloc_tbl, prepare_code_part, Nat.zero_add, hreloc,
      length_conv_sect_hdrs]

theorem dataPos_succ {segs : List Seg} {i : ℕ} {g : Seg} (hg : segs[i]? = some g) :
    dataPos segs (i + 1) = dataPos segs i + g.dataLen := by
  rw [dataPos, dataPos, List.take_add_one, hg, List.map_append, List.sum_append]
  simp

theorem dataPos_le (segs : List Seg) (i : ℕ) : dataPos segs i ≤ (segs.map Seg.dataLen).sum := by
  rw [dataPos_eq]
  exact List.Sublist.sum_le_sum (List.take_sublist _ _) fun _ _ => Nat.zero_le _

theorem dataPos_mono (segs : List Seg) {i j : ℕ} (hij : i ≤ j) :
    dataPos segs i ≤ dataPos segs j := by
  rw [dataPos_eq, dataPos_eq]
  exact List.Sublist.sum_le_sum (List.take_sublist_take_left hij) fun _ _ => Nat.zero_le _

theorem toNat_ofNat_of_lt {k n : ℕ} (hn : n < 2 ^ k) : (BitVec.ofNat k n).toNat = n := by
  rw [BitVec.toNat_ofNat, Nat.mod_eq_of_lt hn]

theorem dataStart_eq (x : Xout) : (convert q x).dataStart =
    COFF_HDR_LEN + COFF_SECT_HDR_LEN * (prepare x).seg_tbl.length := by
  rw [CoffFile.dataStart, length_sect_tbl]

theorem numSects_convert (hn : (prepare x).seg_tbl.length ≤ 256) :
    numSects (coff_write (convert q x)) = (prepare x).seg_tbl.length := by
  rw [numSects_eq]
  have hsects : (convert q x).header.num_sects =
      BitVec.ofNat 16 (prepare x).seg_tbl.length := by
    rw [← length_sect_tbl q, length_sect_tbl]
    exact congrArg (BitVec.ofNat 16) (length_conv_sect_hdrs _ _ _)
  rw [hsects, toNat_ofNat_of_lt (by omega)]

include h in
/-- The place of the contents of a section. -/
theorem dataRange_convert {i : ℕ} {g : Seg} (hg : (prepare x).seg_tbl[i]? = some g) :
    dataRange (coff_write (convert q x)) i =
      if g.type = SEG_BSS then (0, 0)
      else ((convert q x).dataStart + dataPos (prepare x).seg_tbl i, g.dataLen) := by
  have hi := (List.getElem?_eq_some_iff.mp hg).1
  obtain ⟨s, g', hs, hg', hlen, hfpos, -, -⟩ := sect_get q x hi
  obtain rfl : g = g' := Option.some.inj (hg.symm.trans hg')
  rw [dataRange_eq hs, hfpos, hlen]
  by_cases hbss : g.type = SEG_BSS
  · rw [if_pos hbss, if_pos hbss]
    rfl
  · have hstart := dataStart_eq q x
    have hn := segs_le h
    have hpos := dataPos_le (prepare x).seg_tbl i
    have hC := length_code_le h
    rw [sum_dataLen_prepare, ← h.code] at hpos
    rw [COFF_HDR_LEN, COFF_SECT_HDR_LEN] at hstart
    rw [if_neg hbss, if_neg hbss, toNat_ofNat_of_lt (by omega), if_neg (by omega), Seg.dataLen,
      if_neg hbss, BitVec.toNat_setWidth]
    have := g.length.isLt
    rw [Nat.mod_eq_of_lt (by omega)]

section counted

variable (hcount : ∀ i < (prepare x).seg_tbl.length, relocCount x.reloc_tbl i < 65536)

include hcount in
theorem sum_relocCount_le {k : ℕ} (hk : k ≤ (prepare x).seg_tbl.length) :
    ∑ j ∈ Finset.range k, relocCount x.reloc_tbl j ≤ k * 65535 := by
  refine le_trans (Finset.sum_le_card_nsmul _ _ 65535 fun j hj => ?_) ?_
  · exact Nat.le_of_lt_succ (hcount j (lt_of_lt_of_le (Finset.mem_range.mp hj) hk))
  · rw [Finset.card_range, smul_eq_mul]

include h hcount in
theorem relocStart_add_lt {k : ℕ} (hk : k ≤ (prepare x).seg_tbl.length) :
    (convert q x).relocStart + COFF_RELOC_ITEM_LEN *
      ∑ j ∈ Finset.range k, relocCount x.reloc_tbl j < 2 ^ 32 := by
  have hsum := sum_relocCount_le hcount hk
  have hn := segs_le h
  have hC := length_code_le h
  have hcode : (convert q x).code_part = x.code_part := rfl
  rw [CoffFile.relocStart, dataStart_eq, hcode, COFF_HDR_LEN, COFF_SECT_HDR_LEN,
    COFF_RELOC_ITEM_LEN]
  have hk' : k * 65535 ≤ 256 * 65535 := Nat.mul_le_mul_right _ (le_trans hk hn)
  generalize ∑ j ∈ Finset.range k, relocCount x.reloc_tbl j = c at hsum
  omega

include h hcount in
/-- The place of the relocation items of a section. -/
theorem relocRange_convert {i : ℕ} (hi : i < (prepare x).seg_tbl.length) :
    relocRange (coff_write (convert q x)) i =
      if relocCount x.reloc_tbl i = 0 then (0, 0)
      else ((convert q x).relocStart + COFF_RELOC_ITEM_LEN *
          ∑ j ∈ Finset.range i, relocCount x.reloc_tbl j,
        COFF_RELOC_ITEM_LEN * relocCount x.reloc_tbl i) := by
  obtain ⟨s, g, hs, -, -, -, hnum, hpos⟩ := sect_get q x hi
  rw [relocRange_eq hs, hnum, hpos, toNat_ofNat_of_lt (hcount i hi)]
  by_cases h0 : relocCount x.reloc_tbl i = 0
  · rw [if_pos h0, if_pos h0, h0]
    rfl
  · rw [if_neg h0, if_neg h0, toNat_ofNat_of_lt (relocStart_add_lt q h hcount hi.le)]

include h in
theorem length_reloc_tbl : (convert q x).reloc_tbl.length =
    ∑ j ∈ Finset.range (prepare x).seg_tbl.length, relocCount x.reloc_tbl j := by
  rw [reloc_tbl_eq, length_flatMap_range, sum_length_recordsOf q x (segs_le h)]

include h in
theorem length_symb_tbl_le : (convert q x).symb_tbl.length < 2 ^ 32 := by
  have hsymbs := length_conv_symb_tbl_le (prepare x) (segs_le h)
  have hprep := length_prepare_symbs_le x
  have hn := segs_le h
  have hread := length_symb_tbl_lt h.read
  have htbl : (convert q x).symb_tbl = conv_symb_tbl (prepare x) := rfl
  rw [htbl]
  omega

include h hcount in
/-- The place of the symbol table. -/
theorem symbRange_convert : symbRange (coff_write (convert q x)) =
    ((convert q x).symbStart, COFF_SYMB_ENTRY_LEN * (convert q x).symb_tbl.length) := by
  have hlt := relocStart_add_lt q h hcount le_rfl
  have hpos : (convert q x).header.symb_tbl_fpos = BitVec.ofNat 32 (convert q x).symbStart := by
    rw [CoffFile.symbStart, CoffFile.relocStart, dataStart_eq, Nat.mul_comm COFF_SECT_HDR_LEN,
      Nat.mul_comm COFF_RELOC_ITEM_LEN, ← length_conv_sect_hdrs]
    rfl
  have hnum : (convert q x).header.num_symbs = BitVec.ofNat 32 (convert q x).symb_tbl.length := rfl
  rw [symbRange_eq, hpos, hnum, toNat_ofNat_of_lt (length_symb_tbl_le q h), toNat_ofNat_of_lt]
  rw [CoffFile.symbStart, length_reloc_tbl q h]
  exact hlt

include h hcount in
/-- The bytes of the relocation items of a section. -/
theorem part_relocRange {i : ℕ} (hi : i < (prepare x).seg_tbl.length) :
    part (coff_write (convert q x)) (relocRange (coff_write (convert q x)) i) =
      (recordsOf q x i).flatMap coff_write_reloc := by
  have hlen := length_recordsOf q x (lt_of_lt_of_le hi (segs_le h))
  rw [relocRange_convert q h hcount hi, part]
  by_cases h0 : relocCount x.reloc_tbl i = 0
  · rw [if_pos h0, List.eq_nil_of_length_eq_zero (hlen.trans h0), slice_zero, List.flatMap_nil]
  · rw [if_neg h0, file_reloc, reloc_tbl_eq, ← sum_length_recordsOf q x (hi.le.trans (segs_le h)),
      ← hlen, slice_flatMap_range _ hi]
    rw [length_reloc_tbl q h, ← Finset.sum_range_succ]
    exact Finset.sum_le_sum_of_subset (Finset.range_mono hi)

include h in
/-- The bytes of a section. -/
theorem part_dataRange {i : ℕ} (hi : i < (prepare x).seg_tbl.length) :
    part (coff_write (convert q x)) (dataRange (coff_write (convert q x)) i) =
      segBytes x.seg_tbl x.code_part i := by
  have hg := List.getElem?_eq_getElem hi
  generalize (prepare x).seg_tbl[i] = g at hg
  rw [dataRange_convert q h hg, part, ← segBytes_prepare x i hi, segBytes, hg, Option.map_some,
    Option.getD_some]
  by_cases hbss : g.type = SEG_BSS
  · rw [if_pos hbss, Seg.dataLen, if_pos hbss, slice_zero, slice_zero]
  · rw [if_neg hbss]
    refine file_code _ ?_
    have hcode : (convert q x).code_part = x.code_part := rfl
    rw [← dataPos_succ hg, hcode, h.code, ← sum_dataLen_prepare]
    exact dataPos_le _ _

/-! ## 7. Nothing overlaps -/

/-- Empty, or between two positions. -/
def Range.Within (lo hi : ℕ) (r : Range) : Prop := r.2 = 0 ∨ lo ≤ r.1 ∧ r.1 + r.2 ≤ hi

theorem Range.Within.apart {a b c d : ℕ} {r s : Range} (hr : r.Within a b) (hs : s.Within c d)
    (hbc : b ≤ c) : r.Apart s := by
  rintro p ⟨h1, h2, h3, h4⟩
  rcases hr with hr | hr
  · omega
  · rcases hs with hs | hs <;> omega

include h in
theorem dataRange_within {i : ℕ} (hi : i < (prepare x).seg_tbl.length) :
    (dataRange (coff_write (convert q x)) i).Within
      ((convert q x).dataStart + dataPos (prepare x).seg_tbl i)
      ((convert q x).dataStart + dataPos (prepare x).seg_tbl (i + 1)) := by
  have hg := List.getElem?_eq_getElem hi
  generalize (prepare x).seg_tbl[i] = g at hg
  rw [dataRange_convert q h hg, dataPos_succ hg]
  by_cases hbss : g.type = SEG_BSS
  · rw [if_pos hbss]
    exact Or.inl rfl
  · rw [if_neg hbss, ← Nat.add_assoc]
    exact Or.inr ⟨le_rfl, le_rfl⟩

include h hcount in
theorem relocRange_within {i : ℕ} (hi : i < (prepare x).seg_tbl.length) :
    (relocRange (coff_write (convert q x)) i).Within
      ((convert q x).relocStart +
        COFF_RELOC_ITEM_LEN * ∑ j ∈ Finset.range i, relocCount x.reloc_tbl j)
      ((convert q x).relocStart +
        COFF_RELOC_ITEM_LEN * ∑ j ∈ Finset.range (i + 1), relocCount x.reloc_tbl j) := by
  rw [relocRange_convert q h hcount hi, Finset.sum_range_succ]
  by_cases h0 : relocCount x.reloc_tbl i = 0
  · rw [if_pos h0]
    exact Or.inl rfl
  · rw [if_neg h0, Nat.mul_add, ← Nat.add_assoc]
    exact Or.inr ⟨le_rfl, le_rfl⟩

include h in
theorem dataStart_add_le (i : ℕ) :
    (convert q x).dataStart + dataPos (prepare x).seg_tbl i ≤ (convert q x).relocStart := by
  have hpos := dataPos_le (prepare x).seg_tbl i
  rw [sum_dataLen_prepare, ← h.code] at hpos
  exact Nat.add_le_add_left hpos _

include h in
theorem relocStart_add_le {i : ℕ} (hi : i ≤ (prepare x).seg_tbl.length) :
    (convert q x).relocStart + COFF_RELOC_ITEM_LEN *
      ∑ j ∈ Finset.range i, relocCount x.reloc_tbl j ≤ (convert q x).symbStart := by
  rw [CoffFile.symbStart, length_reloc_tbl q h]
  refine Nat.add_le_add_left (Nat.mul_le_mul_left _ ?_) _
  exact Finset.sum_le_sum_of_subset (Finset.range_mono hi)

include h hcount in
theorem ranges_apart : (ranges (coff_write (convert q x))).Pairwise Range.Apart := by
  have hsects := numSects_convert q (segs_le h)
  have hhdr : (hdrRange (coff_write (convert q x))).Within 0 (convert q x).dataStart := by
    rw [hdrRange, hsects, ← dataStart_eq q x]
    exact Or.inr ⟨le_rfl, (Nat.zero_add _).le⟩
  have hsymb : (symbRange (coff_write (convert q x))).Within (convert q x).symbStart
      (coff_write (convert q x)).length := by
    rw [symbRange_convert q h hcount, length_coff_write]
    exact Or.inr ⟨le_rfl, le_rfl⟩
  have hdata : ∀ i < (prepare x).seg_tbl.length,
      (dataRange (coff_write (convert q x)) i).Within (convert q x).dataStart
        (convert q x).relocStart := by
    intro i hi
    rcases dataRange_within q h hi with hz | ⟨hlo, hhi⟩
    · exact Or.inl hz
    · exact Or.inr ⟨(Nat.le_add_right _ _).trans hlo, hhi.trans (dataStart_add_le q h _)⟩
  have hreloc : ∀ i < (prepare x).seg_tbl.length,
      (relocRange (coff_write (convert q x)) i).Within (convert q x).relocStart
        (convert q x).symbStart := by
    intro i hi
    rcases relocRange_within q h hcount hi with hz | ⟨hlo, hhi⟩
    · exact Or.inl hz
    · exact Or.inr ⟨(Nat.le_add_right _ _).trans hlo, hhi.trans (relocStart_add_le q h hi)⟩
  have hstart : (convert q x).dataStart ≤ (convert q x).relocStart := Nat.le_add_right _ _
  have hmid : (convert q x).relocStart ≤ (convert q x).symbStart := Nat.le_add_right _ _
  rw [ranges, hsects, List.pairwise_cons, List.pairwise_append, List.pairwise_append,
    List.pairwise_map, List.pairwise_map]
  refine ⟨fun r hr => ?_, ?_, ⟨?_, List.pairwise_singleton _ _, fun r hr s hs => ?_⟩,
    fun r hr s hs => ?_⟩
  · rcases List.mem_append.mp hr with hr | hr
    · obtain ⟨i, hi, rfl⟩ := List.mem_map.mp hr
      exact hhdr.apart (hdata i (List.mem_range.mp hi)) le_rfl
    · rcases List.mem_append.mp hr with hr | hr
      · obtain ⟨i, hi, rfl⟩ := List.mem_map.mp hr
        exact hhdr.apart (hreloc i (List.mem_range.mp hi)) hstart
      · rw [List.mem_singleton.mp hr]
        exact hhdr.apart hsymb (hstart.trans hmid)
  · refine List.Pairwise.imp_of_mem (fun hi hj hij => ?_) List.pairwise_lt_range
    refine (dataRange_within q h (List.mem_range.mp hi)).apart
      (dataRange_within q h (List.mem_range.mp hj)) ?_
    exact Nat.add_le_add_left (dataPos_mono _ hij) _
  · refine List.Pairwise.imp_of_mem (fun hi hj hij => ?_) List.pairwise_lt_range
    refine (relocRange_within q h hcount (List.mem_range.mp hi)).apart
      (relocRange_within q h hcount (List.mem_range.mp hj)) ?_
    exact Nat.add_le_add_left (Nat.mul_le_mul_left _
      (Finset.sum_le_sum_of_subset (Finset.range_mono hij))) _
  · obtain ⟨i, hi, rfl⟩ := List.mem_map.mp hr
    rw [List.mem_singleton.mp hs]
    exact (hreloc i (List.mem_range.mp hi)).apart hsymb le_rfl
  · obtain ⟨i, hi, rfl⟩ := List.mem_map.mp hr
    have hi' := hdata i (List.mem_range.mp hi)
    rcases List.mem_append.mp hs with hs | hs
    · obtain ⟨j, hj, rfl⟩ := List.mem_map.mp hs
      exact hi'.apart (hreloc j (List.mem_range.mp hj)) le_rfl
    · rw [List.mem_singleton.mp hs]
      exact hi'.apart hsymb hmid

include h hcount in
/-- **Fewer than 2^16 items to a section make the file consistent.** -/
theorem layout_of_counts : Layout q x (coff_write (convert q x)) := by
  have hsects := numSects_convert q (segs_le h)
  refine ⟨hsects, fun i hi => ?_, fun i hi => ?_, ?_, ?_, ?_, ranges_apart q h hcount⟩
  · exact part_dataRange q h (hsects ▸ hi)
  · refine ⟨(q.sort x.reloc_tbl).filter (·.seg_idx == BitVec.ofNat 8 i), ?_,
      part_relocRange q h hcount (hsects ▸ hi)⟩
    rw [filter_eq_itemsOf _ (lt_of_lt_of_le (hsects ▸ hi) (segs_le h))]
    exact (q.perm x.reloc_tbl).filter _
  · rw [hsects, reloc_tbl_eq, List.flatMap_assoc]
    refine List.flatMap_congr fun i hi => ?_
    exact part_relocRange q h hcount (List.mem_range.mp hi)
  · rw [symbRange_convert q h hcount]
    exact file_symb _
  · rw [symbRange_convert q h hcount, length_coff_write]

end counted

/-- **A consistent file has fewer than 2^16 items to a section.** -/
theorem counts_of_layout {out : List Byte} (hout : Layout q x out) {i : ℕ}
    (hi : i < (prepare x).seg_tbl.length) : relocCount x.reloc_tbl i < 65536 := by
  obtain ⟨l, hperm, hpart⟩ := hout.relocs i (hout.sects.symm ▸ hi)
  have hlen := congrArg List.length hpart
  rw [length_flatMap_const length_coff_write_reloc, List.length_map, hperm.length_eq, itemsOf,
    ← List.countP_eq_length_filter] at hlen
  have hle := length_slice_le out (relocRange out i).1 (relocRange out i).2
  rw [← part, hlen, relocRange] at hle
  have hlt := (field16 out (sectHdrPos i + 32)).isLt
  exact lt_of_le_of_lt (Nat.le_of_mul_le_mul_left hle (by decide)) hlt

end layout

/-! ## 8. The tool -/

/-- The number of sections: one for each segment, and a BSS section where there is no segment for
it. -/
def sectCount (segs : List Seg) : ℕ :=
  if segs.any (·.type == SEG_BSS) then segs.length else segs.length + 1

theorem length_prepare_segs (x : Xout) :
    (prepare x).seg_tbl.length = sectCount x.seg_tbl := by
  rw [prepare_seg_tbl, assign_bss, List.length_modify, sectCount]
  by_cases hbss : x.seg_tbl.findIdx (fun s => s.type == SEG_BSS) = x.seg_tbl.length
  · have hany : ¬ (x.seg_tbl.any fun s => s.type == SEG_BSS) := by
      rw [List.findIdx_eq_length] at hbss
      simpa using hbss
    rw [if_pos hbss, if_neg hany, List.length_append, List.length_singleton]
  · have hany : x.seg_tbl.any fun s => s.type == SEG_BSS := by
      obtain ⟨s, hs, htype⟩ := findIdx_bss hbss
      exact List.any_eq_true.mpr ⟨s, List.mem_of_getElem? hs, beq_iff_eq.mpr htype⟩
    rw [if_neg hbss, if_pos hany]

/-- **Layout of the converted file.**  The tool converts every well-formed file, and the file it
writes is consistent just when no section has 2^16 relocation items or more. -/
theorem xout2coff_layout_iff (q : Qsort) {file : List Byte} {x : Xout} (h : WellFormed file x) :
    ∃ out, xout2coff q file = some out ∧
      (Layout q x out ↔ ∀ i < sectCount x.seg_tbl, relocCount x.reloc_tbl i < 65536) := by
  refine ⟨coff_write (convert q x), by rw [xout2coff, h.read, Option.map_some], ?_⟩
  rw [← length_prepare_segs]
  exact ⟨fun hout i hi => counts_of_layout q hout hi, layout_of_counts q h⟩

/-- Merge sort keeps the promise. -/
def Qsort.merge : Qsort where
  sort l := l.mergeSort fun a b => decide (a.location ≤ b.location)
  perm l := List.mergeSort_perm l _
  sorted l := by
    have h : (l.mergeSort fun a b => decide (a.location ≤ b.location)).Pairwise
        fun a b => decide (a.location ≤ b.location) := by
      refine List.pairwise_mergeSort (fun a b c hab hbc => ?_) (fun a b => ?_) l
      · simp only [decide_eq_true_eq] at hab hbc ⊢
        exact BitVec.le_trans hab hbc
      · simp only [Bool.or_eq_true, decide_eq_true_eq]
        exact BitVec.le_total _ _
    exact h.imp fun hab => of_decide_eq_true hab

/-- A code segment of two bytes with `n` items. -/
def manyItems (n : ℕ) : List Byte :=
  xoutBytes 0xee02 [⟨0, SEG_CODE, 2⟩] [0, 0] (List.replicate n ⟨0, RELOC_OFF, 0, 0⟩) []

theorem manyItems_wellFormed {n : ℕ} (hn : n ≤ 65536) : ∃ x, WellFormed (manyItems n) x ∧
    sectCount x.seg_tbl = 2 ∧ relocCount x.reloc_tbl 0 = n := by
  obtain ⟨header, hread⟩ := @xout_read_xoutBytes 0xee02 [⟨0, SEG_CODE, 2⟩] [0, 0]
    (List.replicate n ⟨0, RELOC_OFF, 0, 0⟩) [] (by decide) (by decide)
    (by rw [XOUT_RELOC_ITEM_LEN, List.length_replicate]; omega) (by decide)
  refine ⟨_, ⟨hread, (by decide : 1 ≤ 255), rfl⟩, rfl, ?_⟩
  have hkeep : (List.replicate n (⟨0, RELOC_OFF, 0, 0⟩ : Reloc)).filter (·.type ≠ 0) =
      List.replicate n ⟨0, RELOC_OFF, 0, 0⟩ := by
    rw [List.filter_replicate_of_pos (by decide)]
  rw [relocCount]
  simp only [hkeep]
  rw [List.countP_replicate, if_pos (by decide)]

theorem xout2coff_layout_iff_one : ∃ x, WellFormed (manyItems 1) x ∧
    ∃ out, xout2coff Qsort.merge (manyItems 1) = some out ∧
      (Layout Qsort.merge x out ↔ ∀ i < sectCount x.seg_tbl, relocCount x.reloc_tbl i < 65536) := by
  obtain ⟨x, hx, -, -⟩ := manyItems_wellFormed (by decide : 1 ≤ 65536)
  exact ⟨x, hx, xout2coff_layout_iff Qsort.merge hx⟩

/-- With 2^16 items the header of the section says that there are none. -/
theorem manyItems_layout_fails : ¬ ∀ (q : Qsort) (file : List Byte) (x : Xout),
    WellFormed file x → ∃ out, xout2coff q file = some out ∧ Layout q x out := by
  intro hall
  obtain ⟨x, hx, hsects, hcount⟩ := manyItems_wellFormed (le_refl 65536)
  obtain ⟨out, -, hout⟩ := hall Qsort.merge _ x hx
  have hlt := counts_of_layout Qsort.merge hout
    (by rw [length_prepare_segs, hsects]; decide : 0 < (prepare x).seg_tbl.length)
  rw [hcount] at hlt
  exact absurd hlt (lt_irrefl _)

end Cpm8000.Coff
