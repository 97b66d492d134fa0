/-
# What the converted relocation items refer to

A COFF relocation item names its target by an index into the symbol table.  The tool finds the
index by name, for an external item the name of the symbol, for an internal one the name of the
anchor of the segment; for the long segmented kinds it does not look at all.

`Targets` says that every symbol has its entry and every item names the entry of what it referred
to; `targets_iff` says when that is so.
-/
import Cpm8000.Coff.Layout

namespace Cpm8000.Coff

open Sys

/-! ## 1. The entry of a symbol -/

/-- The entry a symbol stands for: its section, or none for an undefined or an absolute one, and
its value. -/
def coffEntry (s : XSymb) : Entry :=
  if s.type = SYMB_UNDEF_EX then ⟨s.name, 0, SCN_EXT, 0, CLASS_GLOBAL, 0⟩
  else if s.type = SYMB_SEG then ⟨s.name, 0, sectNo s.seg_idx, 0, CLASS_STATIC, 1⟩
  else if s.seg_idx = 255 then ⟨s.name, s.value.setWidth 32, SCN_ABS, 0, CLASS_GLOBAL, 0⟩
  else ⟨s.name, s.value.setWidth 32, sectNo s.seg_idx, 0,
    if s.type = SYMB_LOCAL then CLASS_STATIC else CLASS_GLOBAL, 0⟩

/-- The entries among the records of a symbol table. -/
def entries (symbs : List CSymb) : List Entry :=
  symbs.filterMap fun c => match c with
    | .entry e => some e
    | _ => none

/-- The dummy entry for the file. -/
def fileEntry : Entry := ⟨pad (chars ['.', 'f', 'i', 'l', 'e']), 0, -2, 0, CLASS_FILE, 1⟩

/-- The symbols in the order in which they are written: local ones, segment names, globals segment
by segment, undefined and absolute ones. -/
def exportOrder (x : Xout) : List XSymb :=
  (x.symb_tbl.filter fun s => !(s.seg_idx == 255 || s.type != SYMB_LOCAL)) ++
  (x.symb_tbl.filter fun s => !(s.type != SYMB_SEG)) ++
  (List.range x.seg_tbl.length).flatMap (fun seg =>
    x.symb_tbl.filter fun s => s.seg_idx == BitVec.ofNat 8 seg && s.type == SYMB_GLOBAL) ++
  x.symb_tbl.filter fun s =>
    s.seg_idx == 255 && (s.type == SYMB_UNDEF_EX || s.type == SYMB_LOCAL)

theorem entries_append (a b : List CSymb) : entries (a ++ b) = entries a ++ entries b :=
  List.filterMap_append

theorem entries_map {f : XSymb → CSymb} {l : List XSymb}
    (h : ∀ s ∈ l, f s = .entry (coffEntry s)) : entries (l.map f) = l.map coffEntry := by
  induction l with
  | nil => rfl
  | cons s l ih =>
    have hl := ih fun t ht => h t (List.mem_cons_of_mem _ ht)
    rw [List.map_cons, List.map_cons, h s List.mem_cons_self, ← hl]
    rfl

theorem entries_flatMap {α : Type*} {f : α → List CSymb} {l : List α} {g : α → List Entry}
    (h : ∀ s ∈ l, entries (f s) = g s) : entries (l.flatMap f) = l.flatMap g := by
  induction l with
  | nil => rfl
  | cons s l ih =>
    rw [List.flatMap_cons, entries_append, h s List.mem_cons_self,
      ih fun t ht => h t (List.mem_cons_of_mem _ ht), List.flatMap_cons]

theorem localSymb_eq {s : XSymb} (hseg : s.seg_idx ≠ 255) (htype : s.type = SYMB_LOCAL) :
    localSymb s = .entry (coffEntry s) := by
  rw [coffEntry, htype, if_neg (by decide), if_neg (by decide), if_neg hseg, if_pos rfl, localSymb]

theorem globalSymb_eq {s : XSymb} (hseg : s.seg_idx ≠ 255) (htype : s.type = SYMB_GLOBAL) :
    globalSymb s = .entry (coffEntry s) := by
  rw [coffEntry, htype, if_neg (by decide), if_neg (by decide), if_neg hseg, if_neg (by decide),
    globalSymb]

theorem entries_sectSymb (x : Xout) {s : XSymb} (htype : s.type = SYMB_SEG) :
    entries (sectSymb x s) = [coffEntry s] := by
  rw [coffEntry, htype, if_neg (by decide), if_pos rfl]
  rfl

/-- **The symbol table as written.** -/
theorem entries_conv_symb_tbl {x : Xout} (hn : x.seg_tbl.length ≤ 255) :
    entries (conv_symb_tbl x) = fileEntry :: (exportOrder x).map coffEntry := by
  have hlocal : entries ((x.symb_tbl.filter fun s =>
      !(s.seg_idx == 255 || s.type != SYMB_LOCAL)).map localSymb) =
      (x.symb_tbl.filter fun s => !(s.seg_idx == 255 || s.type != SYMB_LOCAL)).map coffEntry := by
    refine entries_map fun s hs => ?_
    have hp := (List.mem_filter.mp hs).2
    simp only [Bool.not_eq_true', Bool.or_eq_false_iff, beq_eq_false_iff_ne, bne_eq_false_iff_eq]
      at hp
    exact localSymb_eq hp.1 hp.2
  have hsect : entries ((x.symb_tbl.filter fun s => !(s.type != SYMB_SEG)).flatMap (sectSymb x)) =
      (x.symb_tbl.filter fun s => !(s.type != SYMB_SEG)).map coffEntry := by
    rw [List.map_eq_flatMap]
    refine entries_flatMap fun s hs => ?_
    have hp := (List.mem_filter.mp hs).2
    simp only [Bool.not_eq_true', bne_eq_false_iff_eq] at hp
    exact entries_sectSymb x hp
  have hglobal : entries ((List.range x.seg_tbl.length).flatMap fun seg => (x.symb_tbl.filter
        fun s => s.seg_idx == BitVec.ofNat 8 seg && s.type == SYMB_GLOBAL).map globalSymb) =
      ((List.range x.seg_tbl.length).flatMap fun seg => x.symb_tbl.filter
        fun s => s.seg_idx == BitVec.ofNat 8 seg && s.type == SYMB_GLOBAL).map coffEntry := by
    rw [List.map_flatMap]
    refine entries_flatMap fun i hi => entries_map fun s hs => ?_
    have hp := (List.mem_filter.mp hs).2
    simp only [Bool.and_eq_true, beq_iff_eq] at hp
    refine globalSymb_eq (fun h255 => ?_) hp.2
    have hlt := lt_of_lt_of_le (List.mem_range.mp hi) hn
    have hinj := ofNat_inj_of_lt (lt_trans hlt (by decide)) (by decide : 255 < 256)
      (hp.1.symm.trans h255)
    omega
  have hext : entries ((x.symb_tbl.filter fun s => !(s.seg_idx != 255)).flatMap externSymb) =
      (x.symb_tbl.filter fun s =>
        s.seg_idx == 255 && (s.type == SYMB_UNDEF_EX || s.type == SYMB_LOCAL)).map coffEntry := by
    induction x.symb_tbl with
    | nil => rfl
    | cons s l ih =>
      by_cases h255 : s.seg_idx = 255
      · rw [List.filter_cons_of_pos (by simp [h255]), List.flatMap_cons, entries_append, ih,
          externSymb]
        by_cases hu : s.type = SYMB_UNDEF_EX
        · rw [if_pos hu, List.filter_cons_of_pos (by simp [h255, hu]), List.map_cons, coffEntry,
            if_pos hu]
          rfl
        · by_cases hl : s.type = SYMB_LOCAL
          · rw [if_neg hu, if_pos hl, List.filter_cons_of_pos (by simp [h255, hl]), List.map_cons,
              coffEntry, if_neg hu, if_neg (by rw [hl]; decide), if_pos h255]
            rfl
          · rw [if_neg hu, if_neg hl, List.filter_cons_of_neg (by simp [hu, hl])]
            rfl
      · rw [List.filter_cons_of_neg (by simpa using h255),
          List.filter_cons_of_neg (by simpa using fun h => absurd h h255), ih]
  rw [conv_symb_tbl, entries_append, entries_append, entries_append, entries_append, hlocal, hsect,
    hglobal, hext, exportOrder, List.map_append, List.map_append, List.map_append]
  rfl

/-! ## 2. Looking an entry up -/

theorem getElem?_indexOrNone {symbs : List CSymb} {p : CSymb → Bool}
    (hlen : symbs.length < 2 ^ 32 - 1) :
    symbs[(indexOrNone p symbs).toNat]? = symbs.find? p := by
  rw [List.find?_eq_getElem?_findIdx, indexOrNone]
  by_cases hfound : symbs.findIdx p < symbs.length
  · rw [if_pos hfound, toNat_ofNat_of_lt (by omega)]
  · have hnone : symbs.findIdx p = symbs.length :=
      le_antisymm List.findIdx_le_length (not_lt.mp hfound)
    have hmark : (0xffffffff : BitVec 32).toNat = 2 ^ 32 - 1 := rfl
    rw [if_neg hfound, hnone, hmark, List.getElem?_eq_none le_rfl, List.getElem?_eq_none hlen.le]

/-- A search that sees the entries only. -/
theorem find?_entries {p : CSymb → Bool} {pe : Entry → Bool} (hentry : ∀ e, p (.entry e) = pe e)
    (hsect : ∀ a b c, p (.aux_sect a b c) = false) (hfile : ∀ n, p (.aux_file n) = false)
    (symbs : List CSymb) : symbs.find? p = ((entries symbs).find? pe).map .entry := by
  induction symbs with
  | nil => rfl
  | cons c l ih =>
    cases c with
    | entry e =>
      have hcons : entries (.entry e :: l) = e :: entries l := rfl
      rw [hcons, List.find?_cons, List.find?_cons, hentry]
      cases pe e with
      | true => rfl
      | false => exact ih
    | aux_sect a b n =>
      rw [List.find?_cons, hsect]
      exact ih
    | aux_file n =>
      rw [List.find?_cons, hfile]
      exact ih

/-- The first symbol, in the order of writing, whose name satisfies a condition. -/
def firstNamed (x : Xout) (p : Name → Bool) : Option XSymb :=
  (exportOrder x).find? fun s => p s.name

theorem coffEntry_name (s : XSymb) : (coffEntry s).name = s.name := by
  rw [coffEntry]
  split_ifs <;> rfl

theorem find?_conv_symb_tbl {x : Xout} (hn : x.seg_tbl.length ≤ 255) {p : Name → Bool}
    (hfile : p fileEntry.name = false) :
    (entries (conv_symb_tbl x)).find? (fun e => p e.name) = (firstNamed x p).map coffEntry := by
  have hname : (fun e : Entry => p e.name) ∘ coffEntry = fun s => p s.name := by
    funext s
    rw [Function.comp_apply, coffEntry_name]
  rw [entries_conv_symb_tbl hn, List.find?_cons, hfile, List.find?_map, firstNamed, hname]

/-- The anchor of a segment is not named like the file. -/
theorem segTopName_ne_file (idx : ℕ) :
    (xout_convert_name fileEntry.name == xout_convert_name (segTopName idx)) = false := by
  rw [beq_eq_false_iff_ne]
  intro h
  have hfile : (xout_convert_name fileEntry.name).head? = some 0x2e := by decide
  have hfirst : segTopName idx 0 = 0x53 := rfl
  have hseg : (xout_convert_name (segTopName idx)).head? = some 0x53 := by
    rw [xout_convert_name, List.ofFn_succ, hfirst, List.takeWhile_cons_of_pos (by decide)]
    rfl
  rw [h, hseg] at hfile
  exact absurd hfile (by decide)

/-! ## 3. The completed symbol table -/

/-- A symbol of a well-formed file with `n` segments: a local or a global in a segment or absolute,
an undefined or common one, or the name of a segment. -/
def SymbOk (n : ℕ) (s : XSymb) : Prop :=
  (s.type = SYMB_LOCAL ∨ s.type = SYMB_GLOBAL) ∧ (s.seg_idx.toNat < n ∨ s.seg_idx = 255) ∨
    s.type = SYMB_UNDEF_EX ∧ s.seg_idx = 255 ∨ s.type = SYMB_SEG ∧ s.seg_idx.toNat < n

theorem SymbOk.mono {n k : ℕ} (hnk : n ≤ k) {s : XSymb} (h : SymbOk n s) : SymbOk k s := by
  rcases h with ⟨ht, hs⟩ | h | ⟨ht, hs⟩
  · exact Or.inl ⟨ht, hs.imp_left fun hlt => hlt.trans_le hnk⟩
  · exact Or.inr (Or.inl h)
  · exact Or.inr (Or.inr ⟨ht, hs.trans_le hnk⟩)

/-- The segment that the common symbols go to. -/
def bssIndex (x : Xout) : ℕ := x.seg_tbl.findIdx (·.type == SEG_BSS)

theorem bssIndex_lt (x : Xout) : bssIndex x < sectCount x.seg_tbl := by
  rw [← length_prepare_segs, prepare_seg_tbl, assign_bss, List.length_modify, bssIndex]
  by_cases hbss : x.seg_tbl.findIdx (fun s => s.type == SEG_BSS) = x.seg_tbl.length
  · rw [if_pos hbss, hbss, List.length_append, List.length_singleton]
    exact Nat.lt_succ_self _
  · rw [if_neg hbss]
    exact lt_of_le_of_ne List.findIdx_le_length hbss

/-- What becomes of a symbol: a common one gets a place in the BSS segment, any other stays. -/
def Completed (bss : Byte) (s t : XSymb) : Prop :=
  if s.isCommon then t.name = s.name ∧ t.type = SYMB_GLOBAL ∧ t.seg_idx = bss else t = s

theorem allocCommon_get (bss : Byte) (l : List XSymb) (len : BitVec 16) (k : ℕ) {s : XSymb}
    (hs : l[k]? = some s) :
    ∃ t, (allocCommon bss l len).1[k]? = some t ∧ Completed bss s t := by
  induction l generalizing len k with
  | nil => simp at hs
  | cons a rest ih =>
    rw [allocCommon]
    cases k with
    | zero =>
      obtain rfl : a = s := by simpa using hs
      by_cases hc : a.isCommon
      · rw [if_pos hc]
        exact ⟨_, rfl, by rw [Completed, if_pos hc]; exact ⟨rfl, rfl, rfl⟩⟩
      · rw [if_neg hc]
        exact ⟨a, rfl, by rw [Completed, if_neg hc]⟩
    | succ k =>
      rw [List.getElem?_cons_succ] at hs
      split_ifs
      · exact ih _ k hs
      · exact ih _ k hs

theorem addSegSymb_get {symbs : List XSymb} {i k : ℕ} {g : Seg} {s : XSymb}
    (hs : symbs[k]? = some s) (htype : s.type ≠ SYMB_SEG) :
    (addSegSymb symbs i g)[k]? = some s := by
  rw [addSegSymb]
  split_ifs with hfound
  · rw [List.getElem?_modify, hs, Option.map_eq_map, Option.map_some]
    by_cases hk : symbs.findIdx (fun y => y.type == SYMB_SEG && y.seg_idx == BitVec.ofNat 8 i) = k
    · have hp := List.findIdx_getElem (w := hfound)
      simp only [hk, (List.getElem?_eq_some_iff.mp hs).2, Bool.and_eq_true, beq_iff_eq] at hp
      exact absurd hp.1 htype
    · rw [if_neg hk]
  · rw [List.getElem?_append_left (List.getElem?_eq_some_iff.mp hs).1, hs]

theorem foldl_addSegSymb_get (l : List (Seg × ℕ)) {symbs : List XSymb} {k : ℕ} {s : XSymb}
    (hs : symbs[k]? = some s) (htype : s.type ≠ SYMB_SEG) :
    (l.foldl (fun t p => addSegSymb t p.2 p.1) symbs)[k]? = some s := by
  induction l generalizing symbs with
  | nil => exact hs
  | cons p l ih => exact ih (addSegSymb_get hs htype)

/-- **The symbols of the file keep their places in the completed table.** -/
theorem prepare_symb_get {x : Xout} {k : ℕ} {s : XSymb} (hs : x.symb_tbl[k]? = some s)
    (htype : s.type ≠ SYMB_SEG) :
    ∃ t, (prepare x).symb_tbl[k]? = some t ∧ Completed (BitVec.ofNat 8 (bssIndex x)) s t := by
  obtain ⟨t, ht, hc⟩ := allocCommon_get (BitVec.ofNat 8 (bssIndex x)) x.symb_tbl
    (((if bssIndex x = x.seg_tbl.length then x.seg_tbl ++ [⟨0xff, SEG_BSS, 0⟩]
      else x.seg_tbl)[bssIndex x]?.map Seg.length).getD 0) k hs
  have htt : t.type ≠ SYMB_SEG := by
    rw [Completed] at hc
    split_ifs at hc
    · rw [hc.2.1]
      decide
    · rwa [hc]
  have hadd := foldl_addSegSymb_get (assign_bss x).seg_tbl.zipIdx ht htt
  refine ⟨t, ?_, hc⟩
  rw [prepare, add_seg_top_symb]
  exact (List.getElem?_append_left (List.getElem?_eq_some_iff.mp hadd).1).trans hadd

section completion

variable {P : XSymb → Prop}

theorem allocCommon_forall {bss : Byte}
    (hcommon : ∀ (s : XSymb) v, P { s with type := SYMB_GLOBAL, seg_idx := bss, value := v })
    (l : List XSymb) (len : BitVec 16) (hl : ∀ s ∈ l, P s) :
    ∀ s ∈ (allocCommon bss l len).1, P s := by
  induction l generalizing len with
  | nil => exact hl
  | cons a rest ih =>
    have hrest := fun len => ih len fun s hs => hl s (List.mem_cons_of_mem _ hs)
    rw [allocCommon]
    split_ifs
    · intro s hs
      rcases List.mem_cons.mp hs with rfl | hs
      · exact hcommon a len
      · exact hrest _ s hs
    · intro s hs
      rcases List.mem_cons.mp hs with rfl | hs
      · exact hl s List.mem_cons_self
      · exact hrest _ s hs

variable (hname : ∀ (s : XSymb) n, P s → P { s with name := n })

include hname in
theorem addSegSymb_forall {i : ℕ} (hseg : ∀ n, P ⟨BitVec.ofNat 8 i, SYMB_SEG, 0, n⟩)
    {symbs : List XSymb} (g : Seg) (hsymbs : ∀ s ∈ symbs, P s) :
    ∀ s ∈ addSegSymb symbs i g, P s := by
  rw [addSegSymb]
  split_ifs
  · intro s hs
    obtain ⟨k, hk⟩ := List.mem_iff_getElem?.mp hs
    rw [List.getElem?_modify] at hk
    obtain ⟨t, ht, hts⟩ := Option.map_eq_some_iff.mp hk
    have ht' := hsymbs t (List.mem_of_getElem? ht)
    rw [← hts]
    split_ifs
    · exact hname t _ ht'
    · exact ht'
  · intro s hs
    rcases List.mem_append.mp hs with hs | hs
    · exact hsymbs s hs
    · rw [List.mem_singleton.mp hs]
      exact hseg _

include hname in
theorem foldl_addSegSymb_forall (l : List (Seg × ℕ))
    (hseg : ∀ p ∈ l, ∀ n, P ⟨BitVec.ofNat 8 p.2, SYMB_SEG, 0, n⟩) {symbs : List XSymb}
    (hsymbs : ∀ s ∈ symbs, P s) :
    ∀ s ∈ l.foldl (fun t p => addSegSymb t p.2 p.1) symbs, P s := by
  induction l generalizing symbs with
  | nil => exact hsymbs
  | cons p l ih =>
    exact ih (fun q hq => hseg q (List.mem_cons_of_mem _ hq))
      (addSegSymb_forall hname (hseg p List.mem_cons_self) p.1 hsymbs)

include hname in
/-- **What holds of every symbol** still does after the completion. -/
theorem prepare_forall {x : Xout}
    (hcommon : ∀ (s : XSymb) v,
      P { s with type := SYMB_GLOBAL, seg_idx := BitVec.ofNat 8 (bssIndex x), value := v })
    (hseg : ∀ i < sectCount x.seg_tbl, ∀ n, P ⟨BitVec.ofNat 8 i, SYMB_SEG, 0, n⟩)
    (htop : ∀ i < sectCount x.seg_tbl, ∀ n, P ⟨BitVec.ofNat 8 i, SYMB_LOCAL, 0, n⟩)
    (hsymbs : ∀ s ∈ x.symb_tbl, P s) : ∀ s ∈ (prepare x).symb_tbl, P s := by
  have hlen : (assign_bss x).seg_tbl.length = sectCount x.seg_tbl := length_prepare_segs x
  have hassign : ∀ s ∈ (assign_bss x).symb_tbl, P s := allocCommon_forall hcommon _ _ hsymbs
  have hadd : ∀ s ∈ (add_seg_symb (assign_bss x)).symb_tbl, P s := by
    refine foldl_addSegSymb_forall hname _ (fun p hp => hseg p.2 ?_) hassign
    rw [← hlen]
    exact (List.mem_zipIdx' hp).1
  intro s hs
  rw [prepare, add_seg_top_symb] at hs
  rcases List.mem_append.mp hs with hs | hs
  · exact hadd s hs
  · obtain ⟨i, hi, rfl⟩ := List.mem_map.mp hs
    exact htop i (hlen ▸ List.mem_range.mp hi) _

end completion

/-- The completed table is well formed. -/
theorem prepare_ok {x : Xout} (hn : sectCount x.seg_tbl ≤ 256)
    (hsymbs : ∀ s ∈ x.symb_tbl, SymbOk (sectCount x.seg_tbl) s) :
    ∀ s ∈ (prepare x).symb_tbl, SymbOk (sectCount x.seg_tbl) s := by
  have hnum : ∀ i < sectCount x.seg_tbl, (BitVec.ofNat 8 i).toNat < sectCount x.seg_tbl := by
    intro i hi
    rwa [toNat_ofNat_of_lt (lt_of_lt_of_le hi hn)]
  refine prepare_forall (fun _ _ hs => hs) (fun _ _ => ?_) (fun i hi _ => ?_) (fun i hi _ => ?_) hsymbs
  · exact Or.inl ⟨Or.inr rfl, Or.inl (hnum _ (bssIndex_lt x))⟩
  · exact Or.inr (Or.inr ⟨rfl, hnum i hi⟩)
  · exact Or.inl ⟨Or.inl rfl, Or.inl (hnum i hi)⟩

/-! ## 4. Every symbol is written once -/

/-- An absolute global. -/
def XSymb.isAbsGlobal (s : XSymb) : Bool := s.type == SYMB_GLOBAL && s.seg_idx == 255

theorem count_filter_ite (l : List XSymb) (p : XSymb → Bool) (a : XSymb) :
    (l.filter p).count a = if p a then l.count a else 0 := by
  by_cases hp : p a
  · rw [if_pos hp, List.count_filter hp]
  · rw [if_neg hp]
    exact List.count_eq_zero_of_not_mem fun ha => hp (List.mem_filter.mp ha).2

theorem count_flatMap_range (f : ℕ → List XSymb) (a : XSymb) (n : ℕ) :
    ((List.range n).flatMap f).count a = ∑ i ∈ Finset.range n, (f i).count a := by
  induction n with
  | zero => rfl
  | succ n ih =>
    rw [List.range_succ, List.flatMap_append, List.count_append, ih, Finset.sum_range_succ,
      List.flatMap_singleton]

/-- The globals of all the segments. -/
theorem count_globals (l : List XSymb) {n : ℕ} (hn : n ≤ 256) (a : XSymb) :
    ((List.range n).flatMap fun seg => l.filter fun s =>
      s.seg_idx == BitVec.ofNat 8 seg && s.type == SYMB_GLOBAL).count a =
      if a.seg_idx.toNat < n ∧ a.type = SYMB_GLOBAL then l.count a else 0 := by
  rw [count_flatMap_range]
  have hterm : ∀ i ∈ Finset.range n, (l.filter fun s =>
      s.seg_idx == BitVec.ofNat 8 i && s.type == SYMB_GLOBAL).count a =
      if i = a.seg_idx.toNat then (if a.type = SYMB_GLOBAL then l.count a else 0) else 0 := by
    intro i hi
    have hlt : i < 256 := lt_of_lt_of_le (Finset.mem_range.mp hi) hn
    have hseg : a.seg_idx = BitVec.ofNat 8 i ↔ i = a.seg_idx.toNat := by
      constructor
      · intro h
        rw [h, toNat_ofNat_of_lt hlt]
      · intro h
        rw [h, BitVec.ofNat_toNat, BitVec.setWidth_eq]
    rw [count_filter_ite]
    simp only [Bool.and_eq_true, beq_iff_eq, hseg]
    by_cases h1 : i = a.seg_idx.toNat
    · simp [h1]
    · simp [h1]
  rw [Finset.sum_congr rfl hterm, Finset.sum_ite_eq']
  simp only [Finset.mem_range]
  by_cases h1 : a.seg_idx.toNat < n
  · simp [h1]
  · simp [h1]

/-- **The order of writing** has every symbol once, but for the absolute globals. -/
theorem exportOrder_perm {x : Xout} (hn : x.seg_tbl.length ≤ 255)
    (hok : ∀ s ∈ x.symb_tbl, SymbOk x.seg_tbl.length s) :
    (exportOrder x).Perm (x.symb_tbl.filter fun s => !s.isAbsGlobal) := by
  rw [List.perm_iff_count]
  intro a
  rw [exportOrder, List.count_append, List.count_append, List.count_append, count_filter_ite,
    count_filter_ite, count_filter_ite, count_filter_ite, count_globals _ (hn.trans (by decide))]
  by_cases ha : a ∈ x.symb_tbl
  · generalize x.symb_tbl.count a = c
    have hne : a.seg_idx.toNat < x.seg_tbl.length → a.seg_idx ≠ 255 := by
      intro hlt h255
      rw [h255] at hlt
      exact absurd (hlt.trans_le hn) (by decide)
    rcases hok a ha with ⟨ht | ht, hs | hs⟩ | ⟨ht, hs⟩ | ⟨ht, hs⟩
    · have hseg : a.seg_idx ≠ 255#8 := hne hs
      simp [ht, hseg, XSymb.isAbsGlobal, SYMB_LOCAL, SYMB_SEG, SYMB_GLOBAL]
    · simp [ht, hs, XSymb.isAbsGlobal, SYMB_LOCAL, SYMB_SEG, SYMB_GLOBAL]
    · have hseg : a.seg_idx ≠ 255#8 := hne hs
      simp [ht, hseg, hs, XSymb.isAbsGlobal, SYMB_LOCAL, SYMB_SEG, SYMB_GLOBAL]
    · simp [ht, hs, XSymb.isAbsGlobal, SYMB_LOCAL, SYMB_SEG, SYMB_GLOBAL, SYMB_UNDEF_EX]
      intro hlt
      exact absurd (hlt.trans_le hn) (lt_irrefl _)
    · simp [ht, hs, XSymb.isAbsGlobal, SYMB_LOCAL, SYMB_SEG, SYMB_GLOBAL, SYMB_UNDEF_EX]
    · simp [ht, XSymb.isAbsGlobal, SYMB_LOCAL, SYMB_SEG, SYMB_GLOBAL, SYMB_UNDEF_EX]
  · rw [List.count_eq_zero_of_not_mem ha]
    simp

/-! ## 5. The targets -/

/-- The segment a symbol of this number starts: the entry is at its offset 0. -/
def StartsSegment (e : Entry) (seg : BitVec 16) : Prop := e.sect_no = seg + 1 ∧ e.value = 0

/-- The item names what it referred to: the entry of its symbol if it is external, an entry for the
start of its segment if it is internal. -/
structure ItemOk (x : Xout) (symbs : List CSymb) (r : Reloc) : Prop where
  external : r.type = RELOC_XOFF ∨ r.type = RELOC_XLSG →
    ∃ s, x.symb_tbl[r.symb_idx.toNat]? = some s ∧
      symbs[(convReloc x symbs r).symb_idx.toNat]? = some (.entry (coffEntry s))
  internal : r.type = RELOC_OFF ∨ r.type = RELOC_LSG →
    ∃ e, symbs[(convReloc x symbs r).symb_idx.toNat]? = some (.entry e) ∧
      StartsSegment e r.symb_idx

/-- **The symbols and the targets are kept**: every symbol of the file is in the completed table,
which the COFF table repeats entry by entry, and every item of a section names what it referred
to. -/
structure Targets (q : Qsort) (x : Xout) : Prop where
  kept : ∀ (k : ℕ) (s : XSymb), x.symb_tbl[k]? = some s → s.type ≠ SYMB_SEG →
    ∃ t, (prepare x).symb_tbl[k]? = some t ∧ Completed (BitVec.ofNat 8 (bssIndex x)) s t
  symbols : (entries (convert q x).symb_tbl).Perm (fileEntry :: (prepare x).symb_tbl.map coffEntry)
  items : ∀ r ∈ x.reloc_tbl, r.seg_idx.toNat < sectCount x.seg_tbl →
    ItemOk (prepare x) (convert q x).symb_tbl r

/-- The names are cut off, so that of two anchors only the first is ever found. -/
example : segTopName 10 = segTopName 1 := by decide

/-- When an item finds its target by name: its symbol, or its segment's anchor, is the first of its
name in the order of writing, or the first does as well; nothing looks for those of the long
segmented kinds. -/
structure Resolves (x : Xout) (r : Reloc) : Prop where
  notLong : r.type ≠ RELOC_LSG ∧ r.type ≠ RELOC_XLSG
  external : r.type = RELOC_XOFF → ∃ s t, x.symb_tbl[r.symb_idx.toNat]? = some s ∧
    s.name ≠ fileEntry.name ∧ firstNamed x (· == s.name) = some t ∧ coffEntry t = coffEntry s
  internal : r.type = RELOC_OFF → ∃ t,
    firstNamed x (fun n => xout_convert_name n == xout_convert_name (segTopName r.symb_idx.toNat)) =
      some t ∧ StartsSegment (coffEntry t) r.symb_idx

/-- A file whose symbols and items name what is there, in sections that a byte can number. -/
structure WellReferenced (x : Xout) : Prop where
  sects : sectCount x.seg_tbl ≤ 255
  symbs : ∀ s ∈ x.symb_tbl, SymbOk x.seg_tbl.length s
  external : ∀ r ∈ x.reloc_tbl, r.type = RELOC_XOFF ∨ r.type = RELOC_XLSG →
    r.symb_idx.toNat < x.symb_tbl.length
  internal : ∀ r ∈ x.reloc_tbl, r.type = RELOC_OFF ∨ r.type = RELOC_LSG →
    r.symb_idx.toNat < x.seg_tbl.length

section items

variable {x : Xout} (hn : x.seg_tbl.length ≤ 255)
  (hlen : (conv_symb_tbl x).length < 2 ^ 32 - 1)

include hn hlen in
theorem lookup_symb {name : Name} {e : Entry} :
    (conv_symb_tbl x)[(indexOrNone (entryNamed name) (conv_symb_tbl x)).toNat]? =
        some (.entry e) ↔
      (if fileEntry.name = name then some fileEntry
        else (firstNamed x (· == name)).map coffEntry) = some e := by
  rw [getElem?_indexOrNone hlen, @find?_entries (entryNamed name) (fun e => e.name == name)
    (fun _ => rfl) (fun _ _ _ => rfl) (fun _ => rfl)]
  have hinj : ∀ o : Option Entry, o.map CSymb.entry = some (.entry e) ↔ o = some e := by
    intro o
    cases o with
    | none => simp
    | some a => simp
  rw [hinj]
  by_cases hfile : fileEntry.name = name
  · rw [if_pos hfile, entries_conv_symb_tbl hn, List.find?_cons, beq_iff_eq.mpr hfile]
  · rw [if_neg hfile, @find?_conv_symb_tbl x hn (fun n => n == name)
      (beq_eq_false_iff_ne.mpr hfile)]

include hn hlen in
theorem lookup_anchor {idx : ℕ} {e : Entry} :
    (conv_symb_tbl x)[(indexOrNone (entryReads (segTopName idx)) (conv_symb_tbl x)).toNat]? =
        some (.entry e) ↔
      (firstNamed x fun n => xout_convert_name n == xout_convert_name (segTopName idx)).map
        coffEntry = some e := by
  rw [getElem?_indexOrNone hlen, @find?_entries (entryReads (segTopName idx))
    (fun e => xout_convert_name e.name == xout_convert_name (segTopName idx))
    (fun _ => rfl) (fun _ _ _ => rfl) (fun _ => rfl), find?_conv_symb_tbl hn
    (p := fun n => xout_convert_name n == xout_convert_name (segTopName idx))
    (segTopName_ne_file idx)]
  generalize (firstNamed x _).map coffEntry = o
  cases o with
  | none => simp
  | some a => simp

theorem coffEntry_ne_file (s : XSymb) : coffEntry s ≠ fileEntry := by
  intro h
  have hclass := congrArg Entry.strg_class h
  rw [coffEntry] at hclass
  split_ifs at hclass <;> simp [fileEntry, CLASS_GLOBAL, CLASS_STATIC, CLASS_FILE] at hclass

theorem first_record (x : Xout) : (conv_symb_tbl x)[0]? = some (.entry fileEntry) := rfl

/-- An index of 0 names the file. -/
theorem not_itemOk_of_long {r : Reloc} (hr : r.type = RELOC_LSG ∨ r.type = RELOC_XLSG)
    (hseg : r.type = RELOC_LSG → r.symb_idx.toNat < 255) :
    ¬ ItemOk x (conv_symb_tbl x) r := by
  intro h
  have hidx : (convReloc x (conv_symb_tbl x) r).symb_idx.toNat = 0 := by
    have hx : r.type ≠ RELOC_XOFF := by rcases hr with h | h <;> rw [h] <;> decide
    have ho : r.type ≠ RELOC_OFF := by rcases hr with h | h <;> rw [h] <;> decide
    simp only [convReloc, if_neg hx, if_neg ho]
    rfl
  rcases hr with hr | hr
  · obtain ⟨e, he, hsect, -⟩ := h.internal (Or.inr hr)
    rw [hidx, first_record, Option.some.injEq, CSymb.entry.injEq] at he
    have hlt := hseg hr
    have hnat := congrArg BitVec.toNat (he ▸ hsect : fileEntry.sect_no = r.symb_idx + 1)
    have hfile : fileEntry.sect_no.toNat = 65534 := rfl
    have hone : (1 : BitVec 16).toNat = 1 := rfl
    rw [hfile, BitVec.toNat_add, hone] at hnat
    omega
  · obtain ⟨s, -, hs⟩ := h.external (Or.inr hr)
    rw [hidx, first_record, Option.some.injEq, CSymb.entry.injEq] at hs
    exact coffEntry_ne_file s hs.symm

include hn hlen in
/-- **An item is right just when its target is found by name.** -/
theorem itemOk_iff {r : Reloc}
    (hkind : r.type = RELOC_LSG → r.symb_idx.toNat < 255) :
    ItemOk x (conv_symb_tbl x) r ↔ Resolves x r := by
  constructor
  · intro h
    have hlong : ¬ (r.type = RELOC_LSG ∨ r.type = RELOC_XLSG) := fun hr =>
      not_itemOk_of_long hr hkind h
    refine ⟨not_or.mp hlong, fun hr => ?_, fun hr => ?_⟩
    · obtain ⟨s, hs, hidx⟩ := h.external (Or.inl hr)
      have hconv : (convReloc x (conv_symb_tbl x) r).symb_idx =
          indexOrNone (entryNamed s.name) (conv_symb_tbl x) := by
        simp only [convReloc, if_pos hr, conv_symb_idx, hs, Option.map_some, Option.getD_some]
      rw [hconv, lookup_symb hn hlen] at hidx
      by_cases hfile : fileEntry.name = s.name
      · rw [if_pos hfile, Option.some.injEq] at hidx
        exact absurd hidx.symm (coffEntry_ne_file s)
      · rw [if_neg hfile] at hidx
        obtain ⟨t, ht, hts⟩ := Option.map_eq_some_iff.mp hidx
        exact ⟨s, t, hs, Ne.symm hfile, ht, hts⟩
    · obtain ⟨e, hidx, hstart⟩ := h.internal (Or.inl hr)
      have hconv : (convReloc x (conv_symb_tbl x) r).symb_idx = indexOrNone
          (entryReads (segTopName r.symb_idx.toNat)) (conv_symb_tbl x) := by
        simp only [convReloc, hr, if_neg (by decide : ¬ RELOC_OFF = RELOC_XOFF), if_true,
          conv_seg_top_symb_idx]
      rw [hconv, lookup_anchor hn hlen] at hidx
      obtain ⟨t, ht, hte⟩ := Option.map_eq_some_iff.mp hidx
      exact ⟨t, ht, hte.symm ▸ hstart⟩
  · intro h
    refine ⟨fun hr => ?_, fun hr => ?_⟩
    · have hx : r.type = RELOC_XOFF := hr.resolve_right h.notLong.2
      obtain ⟨s, t, hs, hfile, ht, hts⟩ := h.external hx
      have hconv : (convReloc x (conv_symb_tbl x) r).symb_idx =
          indexOrNone (entryNamed s.name) (conv_symb_tbl x) := by
        simp only [convReloc, if_pos hx, conv_symb_idx, hs, Option.map_some, Option.getD_some]
      refine ⟨s, hs, ?_⟩
      rw [hconv, lookup_symb hn hlen, if_neg (Ne.symm hfile), ht, Option.map_some, hts]
    · have ho : r.type = RELOC_OFF := hr.resolve_right h.notLong.1
      obtain ⟨t, ht, hstart⟩ := h.internal ho
      have hconv : (convReloc x (conv_symb_tbl x) r).symb_idx = indexOrNone
          (entryReads (segTopName r.symb_idx.toNat)) (conv_symb_tbl x) := by
        simp only [convReloc, ho, if_neg (by decide : ¬ RELOC_OFF = RELOC_XOFF), if_true,
          conv_seg_top_symb_idx]
      refine ⟨coffEntry t, ?_, hstart⟩
      rw [hconv, lookup_anchor hn hlen, ht, Option.map_some]

end items

/-! ## 6. The tool -/

/-- The table repeats the completed one just when there is no absolute global. -/
theorem entries_perm_iff {x : Xout} (hn : x.seg_tbl.length ≤ 255)
    (hok : ∀ s ∈ x.symb_tbl, SymbOk x.seg_tbl.length s) :
    (entries (conv_symb_tbl x)).Perm (fileEntry :: x.symb_tbl.map coffEntry) ↔
      ∀ s ∈ x.symb_tbl, ¬ s.isAbsGlobal := by
  rw [entries_conv_symb_tbl hn, List.perm_cons]
  have hperm := exportOrder_perm hn hok
  constructor
  · intro h s hs habs
    have hlen := h.length_eq
    rw [List.length_map, List.length_map, hperm.length_eq] at hlen
    have hall := List.length_filter_eq_length_iff.mp hlen s hs
    rw [habs] at hall
    exact absurd hall (by decide)
  · intro h
    have hall : (x.symb_tbl.filter fun s => !s.isAbsGlobal) = x.symb_tbl :=
      List.filter_eq_self.mpr fun s hs => by rw [Bool.not_eq_true']; exact Bool.eq_false_of_not_eq_true (h s hs)
    rw [hall] at hperm
    exact hperm.map coffEntry

/-- Neither completion makes or removes an absolute global. -/
theorem absGlobal_prepare {x : Xout} (hsects : sectCount x.seg_tbl ≤ 255) :
    (∀ s ∈ (prepare x).symb_tbl, ¬ s.isAbsGlobal) ↔ ∀ s ∈ x.symb_tbl, ¬ s.isAbsGlobal := by
  constructor
  · intro h s hs habs
    obtain ⟨k, hk⟩ := List.mem_iff_getElem?.mp hs
    have htype : s.type = SYMB_GLOBAL := by
      simp only [XSymb.isAbsGlobal, Bool.and_eq_true, beq_iff_eq] at habs
      exact habs.1
    obtain ⟨t, ht, hc⟩ := prepare_symb_get hk (by rw [htype]; decide)
    have hcommon : ¬ s.isCommon := by simp [XSymb.isCommon, htype, SYMB_GLOBAL, SYMB_UNDEF_EX]
    rw [Completed, if_neg hcommon] at hc
    exact h t (List.mem_of_getElem? ht) (hc ▸ habs)
  · refine prepare_forall (fun _ _ hs => hs) (fun _ _ habs => ?_) (fun _ _ _ => ?_)
      (fun _ _ _ => ?_)
    · simp only [XSymb.isAbsGlobal, Bool.and_eq_true, beq_iff_eq] at habs
      have hlt := (bssIndex_lt x).trans_le hsects
      have hinj := ofNat_inj_of_lt (hlt.trans (by decide)) (by decide : 255 < 256) habs.2
      exact absurd hinj hlt.ne
    · simp [XSymb.isAbsGlobal, SYMB_SEG, SYMB_GLOBAL]
    · simp [XSymb.isAbsGlobal, SYMB_LOCAL, SYMB_GLOBAL]

/-- **Targets of the converted relocation items.**  The tool converts every well-formed file.  The
symbols are all kept and the items all name what they referred to just when there is no absolute
global among the symbols and every item finds its target by name. -/
theorem xout2coff_targets_iff (q : Qsort) {file : List Byte} {x : Xout} (h : WellFormed file x)
    (href : WellReferenced x) :
    xout2coff q file = some (coff_write (convert q x)) ∧
      (Targets q x ↔ (∀ s ∈ x.symb_tbl, ¬ s.isAbsGlobal) ∧
        ∀ r ∈ x.reloc_tbl, r.seg_idx.toNat < sectCount x.seg_tbl → Resolves (prepare x) r) := by
  refine ⟨by rw [xout2coff, h.read, Option.map_some], ?_⟩
  have hn : (prepare x).seg_tbl.length ≤ 255 := (length_prepare_segs x).trans_le href.sects
  have hle : x.seg_tbl.length ≤ sectCount x.seg_tbl := by
    rw [sectCount]
    split_ifs
    · exact le_rfl
    · exact Nat.le_succ _
  have hok : ∀ s ∈ (prepare x).symb_tbl, SymbOk (prepare x).seg_tbl.length s := by
    rw [length_prepare_segs]
    exact prepare_ok (href.sects.trans (by decide)) fun s hs => (href.symbs s hs).mono hle
  have hlen : (conv_symb_tbl (prepare x)).length < 2 ^ 32 - 1 := by
    have hconv := length_conv_symb_tbl_le (prepare x) (hn.trans (by decide))
    have hprep := length_prepare_symbs_le x
    have hread := length_symb_tbl_lt h.read
    omega
  have hitem : ∀ r ∈ x.reloc_tbl,
      (ItemOk (prepare x) (convert q x).symb_tbl r ↔ Resolves (prepare x) r) := fun r hr =>
    itemOk_iff hn hlen fun hl =>
      (href.internal r hr (Or.inr hl)).trans_le (hle.trans href.sects)
  constructor
  · intro ht
    exact ⟨(absGlobal_prepare href.sects).mp ((entries_perm_iff hn hok).mp ht.symbols),
      fun r hr hseg => (hitem r hr).mp (ht.items r hr hseg)⟩
  · rintro ⟨habs, hres⟩
    exact ⟨fun _ _ hs htype => prepare_symb_get hs htype,
      (entries_perm_iff hn hok).mpr ((absGlobal_prepare href.sects).mpr habs),
      fun r hr hseg => (hitem r hr).mpr (hres r hr hseg)⟩

/-- A code segment of four bytes with an item of a kind, which refers to the segment itself. -/
def oneItem (kind : Byte) : List Byte :=
  xoutBytes 0xee00 [⟨0, SEG_CODE, 4⟩] [0, 0, 0, 0] [⟨0, kind, 0, 0⟩] []

theorem oneItem_wellFormed {kind : Byte} (hkind : kind = RELOC_OFF ∨ kind = RELOC_LSG) :
    ∃ x, WellFormed (oneItem kind) x ∧ WellReferenced x ∧ x.seg_tbl = [⟨0, SEG_CODE, 4⟩] ∧
      x.reloc_tbl = [⟨0, kind, 0, 0⟩] := by
  obtain ⟨header, hread⟩ := @xout_read_xoutBytes 0xee00 [⟨0, SEG_CODE, 4⟩] [0, 0, 0, 0]
    [⟨0, kind, 0, 0⟩] [] (by decide) (by decide)
    (by rw [XOUT_RELOC_ITEM_LEN, List.length_singleton]; decide) (by decide)
  have hne : kind ≠ 0 := by rcases hkind with h | h <;> rw [h] <;> decide
  have hkeep : [(⟨0, kind, 0, 0⟩ : Reloc)].filter (·.type ≠ 0) = [⟨0, kind, 0, 0⟩] := by
    rw [List.filter_cons_of_pos (by simpa using hne), List.filter_nil]
  rw [hkeep] at hread
  refine ⟨_, ⟨hread, (by decide : 1 ≤ 255), rfl⟩, ⟨(by decide : 2 ≤ 255), ?_, ?_, ?_⟩, rfl, rfl⟩
  · intro s hs
    exact absurd hs List.not_mem_nil
  · intro r hr hr'
    rw [List.mem_singleton.mp hr] at hr'
    rcases hkind with h | h <;> rw [h] at hr' <;> exact absurd hr' (by decide)
  · intro r hr _
    rw [List.mem_singleton.mp hr]
    exact Nat.one_pos

theorem xout2coff_targets_iff_off : ∃ x, WellFormed (oneItem RELOC_OFF) x ∧ WellReferenced x ∧
    xout2coff Qsort.merge (oneItem RELOC_OFF) = some (coff_write (convert Qsort.merge x)) ∧
      (Targets Qsort.merge x ↔ (∀ s ∈ x.symb_tbl, ¬ s.isAbsGlobal) ∧
        ∀ r ∈ x.reloc_tbl, r.seg_idx.toNat < sectCount x.seg_tbl → Resolves (prepare x) r) := by
  obtain ⟨x, hx, href, -, -⟩ := oneItem_wellFormed (Or.inl rfl)
  exact ⟨x, hx, href, xout2coff_targets_iff Qsort.merge hx href⟩

/-- The item of a long segmented reference names the file. -/
theorem oneItem_long_fails : ¬ ∀ (q : Qsort) (file : List Byte) (x : Xout),
    WellFormed file x → WellReferenced x → Targets q x := by
  intro hall
  obtain ⟨x, hx, href, hsegs, hrelocs⟩ := oneItem_wellFormed (Or.inr rfl)
  have hitem := (hall Qsort.merge _ x hx href).items ⟨0, RELOC_LSG, 0, 0⟩
    (by rw [hrelocs]; exact List.mem_singleton_self _) (by rw [hsegs]; decide)
  exact not_itemOk_of_long (Or.inl rfl) (fun _ => by decide) hitem

end Cpm8000.Coff
