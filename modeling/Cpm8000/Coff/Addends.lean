/-
# The offsets of the relocation items

A relocation item is written with the word of the code part it applies to. `calc_addr` finds the word by
the lengths of the segments before, those of BSS segments included, in 16 bits; the section headers give
the places of the segments without them, in 32. `addends_iff` says when the two agree.
-/
import Cpm8000.Coff.Bss

namespace Cpm8000.Coff

open Sys

/-! ## 1. The items as they are exported -/

/-- The items of the file, segment by segment. -/
def exported (q : Qsort) (x : Xout) : List Reloc :=
  (List.range (prepare x).seg_tbl.length).flatMap fun i => itemsOf (q.sort x.reloc_tbl) i

/-- The word of the item is in the bytes of its segment. -/
def Reloc.Inside (x : Xout) (r : Reloc) : Prop :=
  r.location.toNat + 2 ≤ (segBytes x.seg_tbl x.code_part r.seg_idx.toNat).length

/-- The item has the word it applies to, and `calc_addr` the place of its segment in the file. -/
structure AddendOk (q : Qsort) (x : Xout) (r : Reloc) : Prop where
  place : ∃ s, (convert q x).sect_tbl[r.seg_idx.toNat]? = some s ∧
    (convert q x).dataStart + (calc_addr (prepare x) r.seg_idx.toNat r.location).toNat =
      s.fpos.toNat + r.location.toNat
  word : (convReloc (prepare x) (convert q x).symb_tbl r).offset =
    (field16 (segBytes x.seg_tbl x.code_part r.seg_idx.toNat) r.location.toNat).setWidth 32

/-- **Every record has the word it applies to.** -/
structure Addends (q : Qsort) (x : Xout) : Prop where
  table : (convert q x).reloc_tbl =
    (exported q x).map (convReloc (prepare x) (convert q x).symb_tbl)
  items : ∀ r ∈ exported q x, AddendOk q x r

/-- What the common symbols add to the length of the BSS segment. -/
def commons (x : Xout) : BitVec 16 := BitVec.ofNat 16 (sizes x)

/-- What the BSS segments before segment `i` come to, the common symbols in the first of them. -/
def bssBefore (x : Xout) (i : ℕ) : BitVec 16 :=
  (((x.seg_tbl.take i).filter fun s => s.type == SEG_BSS).map Seg.length).sum +
    if bssIndex x < i then commons x else 0

variable {q : Qsort} {x : Xout} {i : ℕ} {r : Reloc} {file : List Byte}

theorem exported_table (h : (prepare x).seg_tbl.length ≤ 256) : (convert q x).reloc_tbl =
    (exported q x).map (convReloc (prepare x) (convert q x).symb_tbl) := by
  rw [reloc_tbl_eq, exported, List.map_flatMap]
  refine List.flatMap_congr fun i hi => ?_
  rw [recordsOf, filter_eq_itemsOf]
  exact lt_of_lt_of_le (List.mem_range.mp hi) h

theorem mem_exported : r ∈ exported q x ↔
    r ∈ x.reloc_tbl ∧ r.seg_idx.toNat < (prepare x).seg_tbl.length := by
  simp only [exported, itemsOf, List.mem_flatMap, List.mem_range, List.mem_filter, beq_iff_eq,
    (q.perm x.reloc_tbl).mem_iff]
  constructor
  · rintro ⟨i, hi, hr, rfl⟩
    exact ⟨hr, hi⟩
  · rintro ⟨hr, hlt⟩
    exact ⟨_, hlt, hr, rfl⟩

/-! ## 2. The two addresses -/

/-- The lengths of some segments: those with bytes, and those without. -/
theorem sum_length (l : List Seg) : (l.map Seg.length).sum =
    BitVec.ofNat 16 (l.map Seg.dataLen).sum +
      ((l.filter fun s => s.type == SEG_BSS).map Seg.length).sum := by
  induction l with
  | nil => rfl
  | cons s l ih =>
    rw [List.map_cons, List.map_cons, List.sum_cons, List.sum_cons, ih, BitVec.ofNat_add, Seg.dataLen,
      List.filter_cons]
    split_ifs with htype hbeq hbeq
    · rw [List.map_cons, List.sum_cons, BitVec.zero_add]
      ac_rfl
    · exact absurd (beq_iff_eq.mpr htype) hbeq
    · exact absurd (beq_iff_eq.mp hbeq) htype
    · rw [BitVec.ofNat_toNat, BitVec.setWidth_eq]
      ac_rfl

/-- One of the lengths grows. -/
theorem sum_modify {l : List Seg} {b : ℕ} {len c : BitVec 16}
    (h : ∀ s, l[b]? = some s → len = s.length + c) :
    ((l.modify b fun s => { s with length := len }).map Seg.length).sum =
      (l.map Seg.length).sum + if b < l.length then c else 0 := by
  induction l generalizing b with
  | nil => simp
  | cons s l ih =>
    cases b with
    | zero =>
      have hlen := h s rfl
      rw [List.modify_zero_cons, List.map_cons, List.sum_cons, List.map_cons, List.sum_cons,
        List.length_cons, if_pos (Nat.zero_lt_succ l.length)]
      change len + (l.map Seg.length).sum = _
      rw [hlen]
      ac_rfl
    | succ b =>
      have hrest := ih fun t ht => h t ht
      rw [List.modify_succ_cons, List.map_cons, List.sum_cons, hrest, List.map_cons, List.sum_cons,
        List.length_cons, BitVec.add_assoc]
      simp only [Nat.succ_lt_succ_iff]

theorem assign_bss_seg_tbl (x : Xout) : (assign_bss x).seg_tbl =
    (if bssIndex x = x.seg_tbl.length then x.seg_tbl ++ [⟨0xff, SEG_BSS, 0⟩] else x.seg_tbl).modify
      (bssIndex x) fun s => { s with length := bssLen x + commons x } := by
  have hlen : (allocCommon (BitVec.ofNat 8 (bssIndex x)) x.symb_tbl (bssLen x)).2 =
      bssLen x + commons x := allocCommon_len _ _ _
  rw [← hlen, ← bssLen_eq x]
  rfl

/-- The lengths before a segment of the file, in the completed table. -/
theorem sum_before (hi : i ≤ x.seg_tbl.length) :
    (((prepare x).seg_tbl.take i).map Seg.length).sum =
      BitVec.ofNat 16 (dataPos x.seg_tbl i) + bssBefore x i := by
  have htake : (prepare x).seg_tbl.take i = (x.seg_tbl.take i).modify (bssIndex x)
      fun s => { s with length := bssLen x + commons x } := by
    rw [prepare_seg_tbl, assign_bss_seg_tbl, List.take_modify]
    split_ifs with hnone
    · rw [List.take_append_of_le_length hi]
    · rfl
  rw [htake, sum_modify (c := commons x), sum_length, bssBefore, dataPos, BitVec.add_assoc,
    List.length_take, Nat.min_eq_left hi]
  intro s hs
  have hget : x.seg_tbl[bssIndex x]? = some s := by
    rw [List.getElem?_take] at hs
    split_ifs at hs with hlt
    exact hs
  rw [bssLen, hget]
  rfl

/-- **The two addresses agree** just when the BSS segments before come to a multiple of 64 KB and the
place is one of the first 64 KB of the code part. -/
theorem calc_addr_iff (hi : i ≤ x.seg_tbl.length) (offset : BitVec 16) :
    (calc_addr (prepare x) i offset).toNat = dataPos x.seg_tbl i + offset.toNat ↔
      bssBefore x i = 0 ∧ dataPos x.seg_tbl i + offset.toNat < 65536 := by
  have hsum : calc_addr (prepare x) i offset =
      BitVec.ofNat 16 (dataPos x.seg_tbl i + offset.toNat) + bssBefore x i := by
    rw [calc_addr, sum_before hi, BitVec.ofNat_add, BitVec.ofNat_toNat, BitVec.setWidth_eq]
    ac_rfl
  rw [hsum]
  constructor
  · intro heq
    have hlt : dataPos x.seg_tbl i + offset.toNat < 65536 := heq ▸ BitVec.isLt _
    refine ⟨?_, hlt⟩
    apply BitVec.eq_of_toNat_eq
    have hb := (bssBefore x i).isLt
    rw [BitVec.toNat_add, BitVec.toNat_ofNat, Nat.mod_eq_of_lt hlt] at heq
    change (bssBefore x i).toNat = 0
    omega
  · rintro ⟨hzero, hlt⟩
    rw [hzero]
    change (BitVec.ofNat 16 (dataPos x.seg_tbl i + offset.toNat) + 0#16).toNat = _
    rw [BitVec.add_zero, BitVec.toNat_ofNat, Nat.mod_eq_of_lt hlt]

/-- The word at a place of the code part, and in the bytes of a segment. -/
theorem codeWord_eq {pos : BitVec 16} {off : ℕ} (hpos : pos.toNat = dataPos x.seg_tbl i + off)
    (hin : off + 2 ≤ (segBytes x.seg_tbl x.code_part i).length) :
    codeWord (prepare x) pos = (field16 (segBytes x.seg_tbl x.code_part i) off).setWidth 32 := by
  have hbytes : ∀ (l : List Byte) (p : ℕ), ofBe16 (slice l p 2) = l.getD p 0 ++ l.getD (p + 1) 0 := by
    intro l p
    rw [ofBe16, slice]
    simp [List.getD_eq_getElem?_getD]
  have hget : ∀ k, k < (segBytes x.seg_tbl x.code_part i).length →
      (segBytes x.seg_tbl x.code_part i).getD k 0 = x.code_part.getD (dataPos x.seg_tbl i + k) 0 := by
    intro k hk
    have hlen := length_slice_le x.code_part (dataPos x.seg_tbl i)
      (((x.seg_tbl[i]?).map Seg.dataLen).getD 0)
    rw [segBytes] at hk ⊢
    rw [slice] at hk hlen ⊢
    rw [List.getD_eq_getElem?_getD, List.getElem?_take_of_lt (by omega), List.getElem?_drop,
      List.getD_eq_getElem?_getD]
  have hword : ∀ a b : Byte, (a ++ b).setWidth 32 = a.setWidth 32 * 256 + b.setWidth 32 := by
    intro a b
    apply BitVec.eq_of_toNat_eq
    have ha := a.isLt
    have hb := b.isLt
    rw [BitVec.toNat_setWidth, BitVec.toNat_append, BitVec.toNat_add, BitVec.toNat_mul,
      BitVec.toNat_setWidth, BitVec.toNat_setWidth, ← Nat.shiftLeft_add_eq_or_of_lt hb, Nat.shiftLeft_eq]
    change (a.toNat * 2 ^ 8 + b.toNat) % 2 ^ 32 = (a.toNat % 2 ^ 32 * 256 % 2 ^ 32 + b.toNat % 2 ^ 32) % 2 ^ 32
    omega
  rw [field16, hbytes, hword, hget off (by omega), hget (off + 1) (by omega), codeWord,
    prepare_code_part, hpos, Nat.add_assoc]

/-! ## 3. The items -/

/-- The segments of the file lie in the code part as the completed table says. -/
theorem dataPos_prepare (hi : i ≤ x.seg_tbl.length) :
    dataPos (prepare x).seg_tbl i = dataPos x.seg_tbl i := by
  rw [prepare_seg_tbl, dataPos_eq, dataPos_eq]
  rcases map_dataLen_assign_bss x with h | h
  · rw [h]
  · rw [h, List.take_append_of_le_length (by rwa [List.length_map])]

theorem dataLen_prepare {g : Seg} (hg : x.seg_tbl[i]? = some g) :
    ∃ g', (prepare x).seg_tbl[i]? = some g' ∧ g'.dataLen = g.dataLen := by
  have hi := (List.getElem?_eq_some_iff.mp hg).1
  have hmap : ((prepare x).seg_tbl.map Seg.dataLen)[i]? = some g.dataLen := by
    rw [prepare_seg_tbl]
    rcases map_dataLen_assign_bss x with h | h
    · rw [h, List.getElem?_map, hg, Option.map_some]
    · rw [h, List.getElem?_append_left (by rwa [List.length_map]), List.getElem?_map, hg,
        Option.map_some]
  rw [List.getElem?_map] at hmap
  exact Option.map_eq_some_iff.mp hmap

/-- A segment with bytes has a place in the file. -/
theorem fpos_eq (h : WellFormed file x) {g : Seg} (hg : x.seg_tbl[i]? = some g) (hlen : 0 < g.dataLen) :
    ∃ s, (convert q x).sect_tbl[i]? = some s ∧
      s.fpos.toNat = (convert q x).dataStart + dataPos x.seg_tbl i := by
  obtain ⟨g', hg', hsame⟩ := dataLen_prepare hg
  have hi := (List.getElem?_eq_some_iff.mp hg').1
  obtain ⟨s, g'', hs, hg'', -, hfpos, -⟩ := sect_get q x hi
  obtain rfl : g' = g'' := Option.some.inj (hg'.symm.trans hg'')
  have hbss : g'.type ≠ SEG_BSS := by
    intro htype
    rw [← hsame, Seg.dataLen, if_pos htype] at hlen
    exact lt_irrefl 0 hlen
  have hstart := dataStart_eq q x
  have hn := segs_le h
  have hpos := dataPos_le x.seg_tbl i
  have hC := length_code_le h
  rw [← h.code] at hpos
  rw [COFF_HDR_LEN, COFF_SECT_HDR_LEN] at hstart
  refine ⟨s, hs, ?_⟩
  rw [hfpos, if_neg hbss, dataPos_prepare (Nat.le_of_lt (List.getElem?_eq_some_iff.mp hg).1),
    toNat_ofNat_of_lt (by omega)]

/-- **One item**, in the bytes of its segment. -/
theorem addendOk_iff (h : WellFormed file x) (hin : r.Inside x) : AddendOk q x r ↔
    bssBefore x r.seg_idx.toNat = 0 ∧ dataPos x.seg_tbl r.seg_idx.toNat + r.location.toNat < 65536 := by
  have hlen : 0 < (((x.seg_tbl[r.seg_idx.toNat]?).map Seg.dataLen).getD 0) := by
    have hle := length_slice_le x.code_part (dataPos x.seg_tbl r.seg_idx.toNat)
      (((x.seg_tbl[r.seg_idx.toNat]?).map Seg.dataLen).getD 0)
    unfold Reloc.Inside segBytes at hin
    omega
  obtain ⟨g, hg⟩ : ∃ g, x.seg_tbl[r.seg_idx.toNat]? = some g := by
    cases hg : x.seg_tbl[r.seg_idx.toNat]? with
    | none =>
      rw [hg] at hlen
      exact absurd hlen (lt_irrefl 0)
    | some g => exact ⟨g, rfl⟩
  rw [hg] at hlen
  obtain ⟨s, hs, hfpos⟩ := fpos_eq (q := q) h hg hlen
  rw [← calc_addr_iff (Nat.le_of_lt (List.getElem?_eq_some_iff.mp hg).1)]
  constructor
  · intro hok
    obtain ⟨s', hs', hplace⟩ := hok.place
    obtain rfl : s = s' := Option.some.inj (hs.symm.trans hs')
    rw [hfpos, Nat.add_assoc] at hplace
    exact Nat.add_left_cancel hplace
  · intro hplace
    refine ⟨⟨s, hs, ?_⟩, codeWord_eq hplace hin⟩
    rw [hfpos, hplace, Nat.add_assoc]

/-- **The offsets of the exported items**, each in the bytes of its segment, are right exactly when for
each of them the BSS segments before its own come to a multiple of 64 KB and its place is one of the first
64 KB of the code part. -/
theorem addends_iff (q : Qsort) {file : List Byte} {x : Xout} (h : WellFormed file x)
    (hin : ∀ r ∈ x.reloc_tbl, r.Inside x) :
    ∃ out, xout2coff q file = some out ∧ (Addends q x ↔ ∀ r ∈ x.reloc_tbl,
      bssBefore x r.seg_idx.toNat = 0 ∧
        dataPos x.seg_tbl r.seg_idx.toNat + r.location.toNat < 65536) := by
  refine ⟨coff_write (convert q x), by rw [xout2coff, h.read, Option.map_some], ?_⟩
  have hmem : ∀ r ∈ x.reloc_tbl, r ∈ exported q x := by
    intro r hr
    refine mem_exported.mpr ⟨hr, ?_⟩
    have hin := hin r hr
    by_contra hge
    have hnone : x.seg_tbl[r.seg_idx.toNat]? = none := by
      have hlen := length_prepare_segs x
      rw [List.getElem?_eq_none_iff]
      rw [sectCount] at hlen
      split_ifs at hlen with hany
      · omega
      · omega
    have hle := length_slice_le x.code_part (dataPos x.seg_tbl r.seg_idx.toNat)
      (((x.seg_tbl[r.seg_idx.toNat]?).map Seg.dataLen).getD 0)
    unfold Reloc.Inside segBytes at hin
    rw [hnone, Option.map_none, Option.getD_none] at hin hle
    omega
  constructor
  · intro hok r hr
    exact (addendOk_iff h (hin r hr)).mp (hok.items r (hmem r hr))
  · intro hall
    refine ⟨exported_table (segs_le h), fun r hr => ?_⟩
    have hr' := (mem_exported.mp hr).1
    exact (addendOk_iff h (hin r hr')).mpr (hall r hr')

/-- A BSS segment and a code segment, in either order, with an item at the beginning of the code. -/
def bssAndCode (segs : List Seg) (i : Byte) : List Byte :=
  xoutBytes 0xee02 segs [1, 2, 3, 4] [⟨i, RELOC_OFF, 0, 0⟩] []

theorem bssAndCode_wellFormed {segs : List Seg} {i : Byte}
    (h : segs = [⟨0, SEG_CODE, 4⟩, ⟨1, SEG_BSS, 2⟩] ∧ i = 0 ∨
      segs = [⟨1, SEG_BSS, 2⟩, ⟨0, SEG_CODE, 4⟩] ∧ i = 1) :
    ∃ x, WellFormed (bssAndCode segs i) x ∧ x.seg_tbl = segs ∧ x.symb_tbl = [] ∧
      x.reloc_tbl = [⟨i, RELOC_OFF, 0, 0⟩] ∧ ∀ r ∈ x.reloc_tbl, r.Inside x := by
  have hlen : segs.length = 2 := by
    rcases h with ⟨rfl, -⟩ | ⟨rfl, -⟩
    · rfl
    · rfl
  obtain ⟨header, hread⟩ := @xout_read_xoutBytes 0xee02 segs [1, 2, 3, 4] [⟨i, RELOC_OFF, 0, 0⟩] []
    (by rw [hlen]; decide) (by decide)
    (by rw [XOUT_RELOC_ITEM_LEN, List.length_singleton]; decide) (by decide)
  have hkeep : [(⟨i, RELOC_OFF, 0, 0⟩ : Reloc)].filter (·.type ≠ 0) = [⟨i, RELOC_OFF, 0, 0⟩] := rfl
  rw [hkeep] at hread
  refine ⟨_, ⟨hread, ?_, ?_⟩, rfl, rfl, rfl, ?_⟩
  · rw [hlen]
    decide
  · rcases h with ⟨rfl, -⟩ | ⟨rfl, -⟩
    · rfl
    · rfl
  · intro r hr
    rw [List.mem_singleton] at hr
    rw [hr, Reloc.Inside]
    dsimp only
    rcases h with ⟨rfl, rfl⟩ | ⟨rfl, rfl⟩
    · decide
    · decide

/-- The code before the BSS segment. -/
theorem addends_iff_code_first : ∃ x, WellFormed (bssAndCode [⟨0, SEG_CODE, 4⟩, ⟨1, SEG_BSS, 2⟩] 0) x ∧
    Addends Qsort.merge x := by
  obtain ⟨x, hx, hsegs, hsymbs, hrel, hin⟩ := bssAndCode_wellFormed (i := 0) (.inl ⟨rfl, rfl⟩)
  obtain ⟨out, -, hiff⟩ := addends_iff Qsort.merge hx hin
  refine ⟨x, hx, hiff.mpr fun r hr => ?_⟩
  rw [hrel, List.mem_singleton] at hr
  rw [hr, bssBefore, commons, sizes, bssIndex, hsegs, hsymbs]
  decide

/-- With the BSS segment first, the offset is the word two bytes further on. -/
theorem bss_first_fails : ∃ x, WellFormed (bssAndCode [⟨1, SEG_BSS, 2⟩, ⟨0, SEG_CODE, 4⟩] 1) x ∧
    (∀ r ∈ x.reloc_tbl, r.Inside x) ∧ ¬ Addends Qsort.merge x := by
  obtain ⟨x, hx, hsegs, hsymbs, hrel, hin⟩ := bssAndCode_wellFormed (i := 1) (.inr ⟨rfl, rfl⟩)
  refine ⟨x, hx, hin, fun h => ?_⟩
  have hmem : (⟨1, RELOC_OFF, 0, 0⟩ : Reloc) ∈ exported Qsort.merge x := by
    rw [mem_exported, hrel, length_prepare_segs, hsegs]
    decide
  have hok := h.items _ hmem
  have hitem := (addendOk_iff hx (hin _ (by rw [hrel]; exact List.mem_singleton_self _))).mp hok
  rw [bssBefore, commons, sizes, bssIndex, hsegs, hsymbs] at hitem
  exact absurd hitem (by decide)

end Cpm8000.Coff
