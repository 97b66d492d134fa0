/-
# The headers of a linked program

A final link that reports no error leaves a header for each output segment that has a size: its number,
its type and its length, in the order the segments are placed in. The file's own header says how many
there are and how long the contents, without segment 128.
-/
import Cpm8000.Linker.Finale
import Cpm8000.Linker.Preassign
import Cpm8000.Linker.SegReloc

namespace Cpm8000.Linker

open Sys

/-! ## 1. What the second pass keeps -/

/-- The same kind of link, with segments of the same types. -/
structure Alike (s t : Ld) : Prop where
  nonseg : t.nonseg = s.nonseg
  saverel : t.saverel = s.saverel
  splitid : t.splitid = s.splitid
  segtyp : ∀ j, (t.segtab j).segtyp = (s.segtab j).segtyp

namespace Alike

variable {cc : Compiler} {s t u : Ld} {i : ℕ}

theorem refl (s : Ld) : Alike s s := ⟨rfl, rfl, rfl, fun _ => rfl⟩

theorem trans (h : Alike s t) (h' : Alike t u) : Alike s u :=
  ⟨h'.nonseg.trans h.nonseg, h'.saverel.trans h.saverel, h'.splitid.trans h.splitid,
    fun j => (h'.segtyp j).trans (h.segtyp j)⟩

theorem update (s : Ld) (i : ℕ) (rels : ℤ → BitVec 16) {x : SegTab} (hx : x.segtyp = (s.segtab i).segtyp) :
    Alike s { s with segrel := rels, segtab := Function.update s.segtab i x } := by
  refine ⟨rfl, rfl, rfl, fun j => ?_⟩
  dsimp only
  by_cases hj : j = i
  · rw [hj, Function.update_self, hx]
  · rw [Function.update_of_ne hj]

theorem fix (s : Ld) : Alike s s.fix := by
  unfold Ld.fix
  split_ifs
  · exact ⟨rfl, rfl, rfl, fun _ => rfl⟩
  · exact refl s

theorem err (s : Ld) : Alike s s.err := ⟨rfl, rfl, rfl, fun _ => rfl⟩

end Alike

namespace P2

variable {cc : Compiler} {s t : P2}

theorem p2seg_alike {rest rest' : List Byte} {i : ℕ} {xp : XSg}
    (h : s.p2seg rest i xp = some (t, rest')) : Alike s.ld t.ld := by
  unfold p2seg at h
  dsimp only at h
  split_ifs at h
  · obtain ⟨rfl, -⟩ := Prod.mk.inj (Option.some.inj h)
    refine ⟨rfl, rfl, rfl, fun j => ?_⟩
    dsimp only [write]
    by_cases hj : j = (s.ld.map (s.ld.maps + i)).toNat
    · rw [hj, Function.update_self]
    · rw [Function.update_of_ne hj, Function.update_of_ne hj]
  · obtain ⟨rfl, -⟩ := Prod.mk.inj (Option.some.inj h)
    exact .update _ _ _ rfl

/-- The second pass keeps the kind of the link and the types. -/
theorem Second.alike {l : List Event} (h : Second cc s l t) : Alike s.ld t.ld := by
  induction h with
  | nil => exact .refl _
  | start _ ih => exact ih.trans ⟨rfl, rfl, rfl, fun _ => rfl⟩
  | flush _ ih =>
    rw [flshbuf_ld]
    exact ih
  | @event l t e _ hstep ih =>
    cases e with
    | rel u rl =>
      obtain rfl := hstep
      rcases reloc_ld cc u rl with hld | hld
      · rw [hld]
        exact ih
      · rw [hld]
        exact ih.trans (.err _)
    | seg u rest i xp =>
      obtain ⟨-, rest', hseg⟩ := hstep
      exact ih.trans (p2seg_alike hseg)

end P2

/-! ## 2. A finished link -/

namespace Ld

/-- Segment 128, which is behind the table, gets a header. -/
def Beyond (v : Ld) : Prop :=
  SEGNO ∈ v.prelist ∧ ((v.segtab SEGNO).segsiz ≠ 0 ∨ (v.segtab SEGNO).hiwat ≠ 0)

variable {v : Ld} {p : P2} {i : ℕ} {pre post : List ℕ}

theorem interlude_ld_segtab (v : Ld) : v.interlude.ld.segtab = v.placed.ld.segtab := by
  unfold interlude
  generalize v.placed = r
  dsimp only
  rw [fix_segtab]
  split_ifs
  · rfl
  · rfl
  · rfl
  · rfl

theorem interlude_ld_prelist (v : Ld) : v.interlude.ld.prelist = v.placed.ld.prelist := by
  have hfix : ∀ s : Ld, s.fix.prelist = s.prelist := by
    intro s
    unfold fix
    split_ifs
    · rfl
    · rfl
  unfold interlude
  generalize v.placed = r
  dsimp only
  rw [hfix]
  split_ifs
  · rfl
  · rfl
  · rfl
  · rfl

theorem interlude_counts (v : Ld) : v.interlude.relpos = v.placed.relpos ∧
    v.interlude.objnseg = v.placed.objnseg := by
  unfold interlude
  generalize v.placed = r
  exact ⟨rfl, rfl⟩

/-- `interlude` keeps the kind of a final link and the types. -/
theorem Final.alike (hv : v.Final) : Alike v v.interlude.ld := by
  have hlaid := hv.laid
  have hplaced : Alike v v.placed.ld := by
    refine ⟨hlaid.final.nonseg.trans hv.nonseg.symm, hlaid.final.saverel.trans hv.saverel.symm,
      hlaid.splitid, fun j => ?_⟩
    by_cases hj : j ∈ v.placing
    · obtain ⟨pre, post, hsplit⟩ := List.append_of_mem hj
      rw [hlaid.places _ _ _ hsplit]
      rfl
    · rw [hlaid.others j hj]
  refine hplaced.trans ?_
  unfold interlude
  generalize v.placed = r
  dsimp only
  refine Alike.trans ?_ (.fix _)
  split_ifs
  · exact (Alike.err _).trans (.err _)
  · exact .err _
  · exact .err _
  · exact .refl _

/-- What is known of a link without errors; `p` is the state at the end of the second pass. -/
structure Finished (v : Ld) (p : P2) : Prop where
  final : v.Final
  prealloc : v.Prealloc
  unmarked : ∀ j < SEGNO, (v.segtab j).hiwat = 0
  spanned : ∀ sp, (sp = true → v.splitid = true) → v.spanned sp v.placing < 65536
  marks : Marks v.interlude.ld p.ld
  alike : Alike v p.ld
  prelist : p.ld.prelist = v.prelist

namespace Finished

/-- The sizes in a space before a segment are below 64 KB. -/
theorem spanned_lt (h : Finished v p) (hsplit : v.placing = pre ++ i :: post) :
    v.spanned (v.space i) pre + (v.segtab i).segsiz < 65536 := by
  have hspan := h.spanned (v.space i) splitid_of_space
  rw [hsplit, spanned_append, spanned_cons, if_pos rfl] at hspan
  omega

theorem segsiz_lt (h : Finished v p) (hi : i ∈ v.placing) : (v.segtab i).segsiz < 65536 := by
  obtain ⟨pre, post, hsplit⟩ := List.append_of_mem hi
  exact (Nat.le_add_left _ _).trans_lt (h.spanned_lt hsplit)

theorem segtab_of_mem (h : Finished v p) (hsplit : v.placing = pre ++ i :: post) :
    v.interlude.ld.segtab i = v.addressed_at pre i := by
  rw [interlude_ld_segtab]
  exact h.final.laid.places _ _ _ hsplit

/-- **The address** of an output segment. -/
theorem address (h : Finished v p) (hsplit : v.placing = pre ++ i :: post) :
    (v.interlude.ld.segtab i).segrel.toNat = v.spanned (v.space i) pre := by
  have hlt := h.spanned_lt hsplit
  rw [h.segtab_of_mem hsplit, addressed_at]
  dsimp only
  rw [BitVec.toNat_ofNat, Nat.mod_eq_of_lt (by omega)]

/-- A segment that is placed has a mark. -/
theorem hiwat_of_mem (h : Finished v p) (hi : i ∈ v.placing) : (p.ld.segtab i).hiwat ≠ 0 := by
  have hsiz := h.segsiz_lt hi
  have hne := (mem_placing.mp hi).2
  obtain ⟨pre, post, hsplit⟩ := List.append_of_mem hi
  rw [h.marks i, h.segtab_of_mem hsplit, addressed_at]
  dsimp only
  intro hzero
  have hnat := congrArg BitVec.toNat hzero
  rw [BitVec.toNat_ofNat, Nat.mod_eq_of_lt hsiz] at hnat
  exact hne hnat

theorem hiwat_of_not_mem (h : Finished v p) (hi : i ∉ v.placing) :
    (p.ld.segtab i).hiwat = (v.segtab i).hiwat := by
  rw [h.marks i, interlude_ld_segtab, h.final.laid.others i hi]

/-- A segment of the table has a mark just when it has a size. -/
theorem marked_iff (h : Finished v p) (hi : i < SEGNO) :
    (p.ld.segtab i).hiwat.toNat ≠ 0 ↔ (v.segtab i).segsiz ≠ 0 := by
  have hzero : (p.ld.segtab i).hiwat.toNat ≠ 0 ↔ (p.ld.segtab i).hiwat ≠ 0 := by
    rw [Ne, Ne, ← BitVec.toNat_inj]
    rfl
  rw [hzero]
  by_cases hsiz : (v.segtab i).segsiz = 0
  · have hnot : i ∉ v.placing := fun hmem => (mem_placing.mp hmem).2 hsiz
    refine iff_of_false (not_not.mpr ?_) (not_not.mpr hsiz)
    rw [h.hiwat_of_not_mem hnot]
    exact h.unmarked i hi
  · exact iff_of_true (h.hiwat_of_mem (mem_placing.mpr ⟨.inr hi, hsiz⟩)) hsiz

/-- Segment 128 has a mark just when it gets a header. -/
theorem beyond_iff (h : Finished v p) (hmem : SEGNO ∈ v.prelist) :
    (p.ld.segtab SEGNO).hiwat ≠ 0 ↔ v.Beyond := by
  by_cases hsiz : (v.segtab SEGNO).segsiz = 0
  · have hnot : SEGNO ∉ v.placing := fun hmem => (mem_placing.mp hmem).2 hsiz
    rw [h.hiwat_of_not_mem hnot]
    constructor
    · intro hne
      exact ⟨hmem, .inr hne⟩
    · rintro ⟨-, hne | hne⟩
      · exact absurd hsiz hne
      · exact hne
  · exact iff_of_true (h.hiwat_of_mem (mem_placing.mpr ⟨.inl hmem, hsiz⟩)) ⟨hmem, .inl hsiz⟩

theorem objnseg_eq (h : Finished v p) : (List.range SEGNO).countP
    (fun j => (p.ld.segtab j).hiwat.toNat ≠ 0) = v.unplaced.objnseg := by
  have hcount : v.unplaced.objnseg =
      (List.range SEGNO).countP fun i => (v.unplaced.ld.segtab i).segsiz ≠ 0 := rfl
  rw [hcount, h.final.unplaced_ld]
  refine List.countP_congr fun j hj => ?_
  rw [decide_eq_true_eq, decide_eq_true_eq]
  exact h.marked_iff (List.mem_range.mp hj)

/-- **As many headers as are counted**, without segment 128. -/
theorem headed_eq (h : Finished v p) (hb : ¬ v.Beyond) : p.headed = v.unplaced.objnseg := by
  rw [← h.objnseg_eq, P2.headed, P2.marked]
  refine length_order List.nodup_range fun j hj => ?_
  rw [h.prelist, List.mem_append]
  refine ⟨fun hmem => ?_, .inr⟩
  rcases hmem with hmem | hmem
  · have hle := h.prealloc j hmem
    rcases Nat.lt_or_eq_of_le hle with hlt | rfl
    · exact List.mem_range.mpr hlt
    · exact absurd ((h.beyond_iff hmem).mp fun hz => hj (congrArg BitVec.toNat hz)) hb
  · exact hmem

/-- **One more** with it. -/
theorem headed_beyond (h : Finished v p) (hb : v.Beyond) : p.headed = v.unplaced.objnseg + 1 := by
  have hmark := (h.beyond_iff hb.1).mpr hb
  have hne : (p.ld.segtab SEGNO).hiwat.toNat ≠ 0 := fun hz => hmark (BitVec.eq_of_toNat_eq hz)
  have hcount : (List.range (SEGNO + 1)).countP (fun j => (p.ld.segtab j).hiwat.toNat ≠ 0) =
      v.unplaced.objnseg + 1 := by
    rw [List.range_succ, List.countP_append, h.objnseg_eq, List.countP_singleton,
      if_pos (decide_eq_true hne)]
  rw [← hcount, P2.headed, P2.marked]
  refine length_order List.nodup_range fun j _ => ?_
  rw [h.prelist, List.mem_append, List.mem_range, List.mem_range]
  constructor
  · rintro (hmem | hlt)
    · exact Nat.lt_succ_of_le (h.prealloc j hmem)
    · omega
  · intro hlt
    rcases Nat.lt_or_eq_of_le (Nat.le_of_lt_succ hlt) with hlt | rfl
    · exact .inr hlt
    · exact .inl hb.1

theorem relpos_eq (h : Finished v p) : v.interlude.relpos = v.body_pos + v.filed v.placing :=
  (interlude_counts v).1.trans h.final.laid.relpos

theorem interlude_objnseg (h : Finished v p) : v.interlude.objnseg = v.unplaced.objnseg :=
  (interlude_counts v).2.trans h.final.laid.objnseg

end Finished

theorem objnseg_le (v : Ld) : v.unplaced.objnseg ≤ SEGNO := by
  have hle : v.unplaced.objnseg ≤ (List.range SEGNO).length := List.countP_le_length
  rwa [List.length_range] at hle

/-- The length of the file, and its first bytes. -/
theorem file_header (p : P2) (r : Layout) : slice (p.finale r).file 0 XHSIZ = (p.header r).bytes := by
  have hlen : XHSIZ ≤ (p.finale r).objlen := by
    unfold P2.finale
    dsimp only
    rw [P2.write_objlen, if_neg, P2.length_hdr_bytes]
    · exact (Nat.zero_add XHSIZ).symm ▸ le_max_right _ _
    · exact List.cons_ne_nil _ _
  refine List.ext_getElem? fun a => ?_
  by_cases ha : a < XHSIZ
  · rw [slice, List.drop_zero, List.getElem?_take_of_lt ha, P2.getElem?_file _ (by omega),
      P2.finale_header ha, List.getD_eq_getElem?_getD,
      List.getElem?_eq_getElem (by rw [P2.length_hdr_bytes]; exact ha)]
    rfl
  · rw [List.getElem?_eq_none, List.getElem?_eq_none]
    · rw [P2.length_hdr_bytes]
      omega
    · exact (length_slice_le _ _ _).trans (Nat.le_of_not_lt ha)

/-- The preassigned segments after the whole first pass. -/
theorem pass1_prelist {cc : Compiler} {s : Ld} {files : List Input} (hp : s.Prealloc) (h : s.pass1 cc files = some v) :
    v.Prealloc := by
  obtain ⟨t, u, ht, hu, hv⟩ := pass1_parts h
  obtain ⟨l, hl⟩ := p1files_loads ht
  have ht' := hl.prealloc hp
  have hu' : u.Prealloc := by
    unfold p1commons at hu
    split_ifs at hu
    · refine foldlM_invariant (I := Prealloc) hu ht' ?_
      intro i _ w w' hw hi
      by_cases hc : IsCommon (w.symtab i)
      · obtain ⟨j, -, rfl⟩ := p1common_eq hi hc
        exact hw
      · rw [p1common_of_not hi hc]
        exact hw
    · obtain rfl := Option.some.inj hu
      exact ht'
  unfold p1stack at hv
  split_ifs at hv
  · rcases hf : u.p1round.findseg X_SG_STK (BitVec.ofNat 16 u.p1round.stacksiz) with _ | j <;> rw [hf] at hv
    · cases hv
    · obtain rfl := Option.some.inj hv
      exact hu'
  · obtain rfl := Option.some.inj hv
    exact hu'

/-- The second pass begins with the marks, the preassigned list and the errors there are. -/
theorem pass2_begins (r : Layout) (buf : ℕ → Byte) : Marks r.ld (r.pass2 buf).ld ∧
    Alike r.ld (r.pass2 buf).ld ∧ (r.pass2 buf).ld.prelist = r.ld.prelist ∧
      (r.pass2 buf).ld.errcnt = r.ld.errcnt :=
  ⟨.refl _, ⟨rfl, rfl, rfl, fun _ => rfl⟩, rfl, rfl⟩

/-- A final, non-segmented link without errors. -/
theorem finished {cc : Compiler} {s : Ld} {stray : Stray} {flags : List Flag} {files : List Input}
    {buf : ℕ → Byte} {fs : List XFile} (h0 : pass0 cc stray flags = some s) (h1 : s.pass1 cc files = some v)
    (hfinal : v.Final) (h2 : (v.interlude.pass2 buf).p2loads cc fs = some p) (herr : p.ld.errcnt = 0) :
    Finished v p := by
  have hbegin := P2.pass2_buffered v.interlude buf
  obtain ⟨-, l, hl, -⟩ := P2.p2loads_second hbegin rfl h2
  obtain ⟨-, hkept, -⟩ := hl.run hbegin
  obtain ⟨hmarks, hpre⟩ := hl.marks
  obtain ⟨hmarks', halike, hpre', herr'⟩ := pass2_begins v.interlude buf
  have hnone : v.interlude.ld.errcnt = 0 := by
    have hle := hkept.errcnt
    omega
  refine ⟨hfinal, pass1_prelist (pass0_ready h0).prealloc h1, Marks.pass1 h0 h1, hfinal.spanned_lt hnone,
    hmarks'.trans hmarks, (hfinal.alike.trans halike).trans hl.alike, (hpre.trans hpre').trans ?_⟩
  exact (interlude_ld_prelist v).trans hfinal.laid.prelist

end Ld

/-! ## 3. The segment headers -/

namespace P2

variable {s : P2} {r : Layout} {i pos a : ℕ} {l pre post : List ℕ}

theorem sg_described {u : Ld} {j : ℕ} (hj : j ≠ i) : (u.described i).sg j = u.sg j := by
  unfold Ld.sg Ld.described
  dsimp only
  rw [Function.update_of_ne hj]

/-- **The header of a segment** stands behind those of the segments before it. -/
theorem foldl_finout_at (h : marked s.ld l = pre ++ i :: post) (ha : a < SGSIZ) :
    (l.foldl finout (s, pos)).1.objfile (pos + pre.length * SGSIZ + a) = (s.ld.sg i).bytes.getD a 0 := by
  induction l generalizing s pos pre with
  | nil =>
    have hnil : marked s.ld [] = [] := rfl
    rw [hnil] at h
    simp at h
  | cons k l ih =>
    rw [List.foldl_cons]
    by_cases hk : (s.ld.segtab k).hiwat = 0
    · rw [marked_cons_of_zero hk] at h
      rw [finout_of_zero hk]
      exact ih h
    · rw [marked_cons_of_ne hk] at h
      rw [finout_of_ne hk]
      rcases pre with _ | ⟨m, pre⟩
      · obtain rfl := (List.cons.inj h).1
        rw [foldl_finout_other, List.length_nil, Nat.zero_mul, Nat.add_zero]
        · have hat : pos ≤ pos + a ∧ a + pos < pos + (s.ld.sg k).bytes.length := by
            change _ ∧ _ < pos + SGSIZ
            omega
          rw [Nat.add_comm a] at hat
          exact (write_at hat).trans (by rw [Nat.add_sub_cancel_left])
        · rw [List.length_nil]
          omega
      · rw [List.cons_append] at h
        obtain ⟨rfl, htail⟩ := List.cons.inj h
        have hik : i ≠ k := by
          rintro rfl
          have hmem : i ∈ marked (s.ld.described i) l := by
            rw [htail]
            exact List.mem_append_right _ List.mem_cons_self
          refine (mem_order.mp hmem).2 ?_
          unfold Ld.described
          dsimp only
          rw [Function.update_self]
          rfl
        have hrest := @ih { s.write pos (s.ld.sg k).bytes with ld := s.ld.described k } (pos + SGSIZ) pre
          htail
        rw [sg_described hik] at hrest
        rw [← hrest, List.length_cons, Nat.succ_mul]
        congr 1
        omega

theorem foldl_finout_objlen (l : List ℕ) (s : P2) (pos : ℕ) :
    s.objlen ≤ (l.foldl finout (s, pos)).1.objlen ∧ (marked s.ld l ≠ [] →
      pos + (marked s.ld l).length * SGSIZ ≤ (l.foldl finout (s, pos)).1.objlen) := by
  induction l generalizing s pos with
  | nil => exact ⟨le_refl _, fun h => absurd rfl h⟩
  | cons i l ih =>
    rw [List.foldl_cons]
    by_cases hi : (s.ld.segtab i).hiwat = 0
    · rw [finout_of_zero hi, marked_cons_of_zero hi]
      exact ih s pos
    · have hwrite : (s.write pos (s.ld.sg i).bytes).objlen = max s.objlen (pos + SGSIZ) := by
        rw [write_objlen, if_neg]
        · rfl
        · exact List.cons_ne_nil _ _
      obtain ⟨u, hu⟩ : ∃ u, u = { s.write pos (s.ld.sg i).bytes with ld := s.ld.described i } := ⟨_, rfl⟩
      have hlen : u.objlen = max s.objlen (pos + SGSIZ) := by rw [hu, hwrite]
      have hld : u.ld = s.ld.described i := by rw [hu]
      obtain ⟨hle, hrest⟩ := ih u (pos + SGSIZ)
      rw [hlen] at hle
      rw [hld] at hrest
      rw [finout_of_ne hi, marked_cons_of_ne hi, List.length_cons, Nat.succ_mul, ← hu]
      refine ⟨(le_max_left _ _).trans hle, fun _ => ?_⟩
      by_cases hnil : marked (s.ld.described i) l = []
      · rw [hnil, List.length_nil, Nat.zero_mul, Nat.zero_add]
        exact (le_max_right _ _).trans hle
      · have hlast := hrest hnil
        omega

/-- **A byte of a segment header** in the file. -/
theorem finale_sg (h : marked s.ld (s.ld.prelist ++ List.range SEGNO) = pre ++ i :: post) (ha : a < SGSIZ)
    (hroom : XHSIZ + (pre.length + 1) * SGSIZ ≤ r.relpos) :
    (s.finale r).file.getD (XHSIZ + pre.length * SGSIZ + a) 0 = (s.ld.sg i).bytes.getD a 0 := by
  have hne : marked s.ld (s.ld.prelist ++ List.range SEGNO) ≠ [] := by
    rw [h]
    exact fun hnil => List.cons_ne_nil _ _ (List.append_eq_nil_iff.mp hnil).2
  have hlen := (foldl_finout_objlen (s.ld.prelist ++ List.range SEGNO) s XHSIZ).2 hne
  rw [h, List.length_append, List.length_cons, Nat.add_mul, Nat.succ_mul] at hlen
  rw [Nat.succ_mul] at hroom
  have hat : XHSIZ + pre.length * SGSIZ + a < (s.finale r).objlen := by
    have hwrite : ∀ (u : P2) (pos : ℕ) (b : List Byte), u.objlen ≤ (u.write pos b).objlen := by
      intro u pos b
      rw [write_objlen]
      split_ifs
      · exact le_refl _
      · exact le_max_left _ _
    refine Nat.lt_of_lt_of_le ?_ (((hwrite _ _ _).trans (hwrite _ _ _)).trans (hwrite _ _ _))
    exact Nat.lt_of_lt_of_le (by omega) hlen
  rw [List.getD_eq_getElem?_getD, getElem?_file _ hat, Option.getD_some, finale]
  rw [write_other, write_other, write_other]
  · exact foldl_finout_at h ha
  · omega
  · omega
  · rw [length_hdr_bytes]
    omega

end P2

namespace Ld

variable {v : Ld} {p : P2} {i : ℕ}

/-- The length in a segment's header: one that has no size can have been left there. -/
def room (v : Ld) (i : ℕ) : ℕ :=
  if (v.segtab i).segsiz ≠ 0 then (v.segtab i).segsiz else (v.segtab i).hiwat.toNat

/-- The segments that get a header, in their order. -/
def heading (v : Ld) : List ℕ := order v.room (v.prelist ++ List.range SEGNO)

theorem placing_eq (v : Ld) : v.placing = v.heading.filter fun i => (v.segtab i).segsiz ≠ 0 := by
  refine order_eq_filter (fun j hj => ?_) _
  rw [room, if_pos hj]
  exact hj

namespace Finished

theorem hiwat_toNat (h : Finished v p) (hi : i ∈ v.prelist ∨ i < SEGNO) :
    (p.ld.segtab i).hiwat.toNat = v.room i := by
  unfold room
  by_cases hsiz : (v.segtab i).segsiz ≠ 0
  · have hmem := mem_placing.mpr ⟨hi, hsiz⟩
    obtain ⟨pre, post, hsplit⟩ := List.append_of_mem hmem
    have hlt := h.segsiz_lt hmem
    rw [if_pos hsiz, h.marks i, h.segtab_of_mem hsplit, addressed_at]
    dsimp only
    rw [BitVec.toNat_ofNat, Nat.mod_eq_of_lt hlt]
  · rw [if_neg hsiz, h.hiwat_of_not_mem fun hmem => hsiz (mem_placing.mp hmem).2]

theorem marked_eq (h : Finished v p) :
    P2.marked p.ld (p.ld.prelist ++ List.range SEGNO) = v.heading := by
  rw [h.prelist]
  refine order_congr fun j hj => h.hiwat_toNat ?_
  rwa [List.mem_append, List.mem_range] at hj

end Finished

end Ld

end Cpm8000.Linker
