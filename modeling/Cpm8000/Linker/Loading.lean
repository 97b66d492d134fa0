/-
# Loading a linked program

The linker gives the output segments their addresses from its own counters. `bdos_pgmld` does not read
the addresses: it puts the segments of the headers one behind the other, by its own rule for the two
spaces, and it does not load all of them. `loading_iff` says when both come to the same places, and
`stack_before_data` is a link where they do not.
-/
import Cpm8000.Host.LoadBounds
import Cpm8000.Linker.FlatImage

namespace Cpm8000.Host

open Sys

/-! ## 1. The loader -/

/-- The space a segment of a type is loaded into, none where it is not loaded. -/
def loaded_space (split : Bool) (type : Byte) : Option Bool := (Part.of type).map (Part.space split)

/-- Where the next round of the loop puts a segment: the space, and the offset there. -/
def LoadState.place (t : Target) (s : LoadState) (seg : XSeg) : Option (Bool × ℕ) :=
  (loaded_space t.split seg.type).map fun sp => (sp, s.off sp)

/-- The bytes of the segments that are loaded into a space. -/
def loaded_into (split sp : Bool) (segs : List XSeg) : ℕ :=
  (segs.map fun seg => if loaded_space split seg.type = some sp then seg.length.toNat else 0).sum

variable {t : Target} {code : ℕ → Byte} {s : LoadState} {seg : XSeg} {sp : Bool} {off : ℕ}

/-- **The bytes of the segment** are stored there. -/
theorem load_seg_place (h : s.place t seg = some (sp, off)) : ∃ part byte, (load_seg t code s seg).stores =
    s.stores ++ seg_stores part (t.tag sp) t.tpa_base off byte seg.length.toNat := by
  unfold LoadState.place loaded_space at h
  rw [Option.map_map] at h
  obtain ⟨part, hpart, heq⟩ := Option.map_eq_some_iff.mp h
  obtain ⟨rfl, rfl⟩ := Prod.mk.inj heq
  exact ⟨part, _, (load_seg_loaded t code s seg hpart).stores⟩

theorem load_seg_off (t : Target) (code : ℕ → Byte) (s : LoadState) (seg : XSeg) (sp : Bool) :
    (load_seg t code s seg).off sp =
      s.off sp + if loaded_space t.split seg.type = some sp then seg.length.toNat else 0 := by
  rcases hpart : Part.of seg.type with _ | part
  · have hspace : loaded_space t.split seg.type ≠ some sp := by
      simp [loaded_space, hpart]
    rw [load_seg_of_none t code s seg hpart, if_neg hspace, Nat.add_zero]
    split_ifs
    · rfl
    · rfl
  · have hspace : loaded_space t.split seg.type = some (part.space t.split) := by
      rw [loaded_space, hpart, Option.map_some]
    rw [(load_seg_loaded t code s seg hpart).off, hspace]
    by_cases hsp : part.space t.split = sp
    · rw [← hsp, Function.update_self, if_pos rfl]
    · rw [Function.update_of_ne (Ne.symm hsp), if_neg fun heq => hsp (Option.some.inj heq), Nat.add_zero]

theorem load_segs_off (t : Target) (code : ℕ → Byte) (segs : List XSeg) (sp : Bool) :
    (load_segs t code segs).off sp = loaded_into t.split sp segs := by
  induction segs using List.reverseRecOn with
  | nil =>
    cases sp
    · rfl
    · rfl
  | append_singleton segs seg ih =>
    have hstep : load_segs t code (segs ++ [seg]) = load_seg t code (load_segs t code segs) seg :=
      List.foldl_concat ..
    rw [hstep, load_seg_off, ih, loaded_into, loaded_into, List.map_append, List.sum_append,
      List.map_singleton, List.sum_singleton]

end Cpm8000.Host

namespace Cpm8000.Linker

open Sys

namespace Ld

/-! ## 2. What the loader reads -/

variable (v : Ld)

/-- The loader's entry for an output segment. -/
def xseg (i : ℕ) : Host.XSeg := ⟨BitVec.ofNat 8 i, (v.segtab i).segtyp, BitVec.ofNat 16 (v.room i)⟩

/-- The segments whose headers it takes: those the file's header counts, and sixteen at most. -/
def taken : List ℕ := v.heading.take (min v.unplaced.objnseg 16)

variable {v} {p : P2} {i : ℕ} {pre post : List ℕ}

namespace Finished

theorem heading_length (h : Finished v p) : p.headed = v.heading.length := by
  rw [P2.headed, h.marked_eq]

theorem le_heading (h : Finished v p) : v.unplaced.objnseg ≤ v.heading.length := by
  rw [← h.heading_length]
  by_cases hb : v.Beyond
  · rw [h.headed_beyond hb]
    exact Nat.le_succ _
  · rw [h.headed_eq hb]

theorem length_taken (h : Finished v p) : v.taken.length = min v.unplaced.objnseg 16 := by
  have hle := h.le_heading
  rw [taken, List.length_take]
  omega

theorem sg_eq (h : Finished v p) (hi : i ∈ v.heading) :
    p.ld.sg i = ⟨BitVec.ofNat 8 i, (v.segtab i).segtyp, BitVec.ofNat 16 (v.room i)⟩ := by
  have hmem := (mem_order.mp hi).1
  rw [List.mem_append, List.mem_range] at hmem
  rw [← h.hiwat_toNat hmem, BitVec.ofNat_toNat, BitVec.setWidth_eq, sg, h.alike.saverel, h.final.saverel,
    h.alike.segtyp]
  rfl

/-- **The bytes of a header** in the file. -/
theorem file_sg (h : Finished v p) {k a : ℕ} (hk : k < v.taken.length) (ha : a < SGSIZ) :
    (p.finale v.interlude).file.getD (XHSIZ + k * SGSIZ + a) 0 =
      (⟨BitVec.ofNat 8 v.taken[k], (v.segtab v.taken[k]).segtyp,
        BitVec.ofNat 16 (v.room v.taken[k])⟩ : XSg).bytes.getD a 0 := by
  have hlen := h.length_taken
  have hk' : k < v.heading.length := Nat.lt_of_lt_of_le hk (List.length_take_le' _ _)
  have hget : v.taken[k] = v.heading[k] := List.getElem_take ..
  have hsplit : v.heading = v.heading.take k ++ v.heading[k] :: v.heading.drop (k + 1) := by
    rw [List.getElem_cons_drop, List.take_append_drop]
  have hroom : XHSIZ + ((v.heading.take k).length + 1) * SGSIZ ≤ v.interlude.relpos := by
    rw [h.relpos_eq, body_pos, List.length_take]
    unfold SGSIZ
    omega
  have hat := P2.finale_sg (r := v.interlude) (h.marked_eq.trans hsplit) ha hroom
  rw [List.length_take_of_le (Nat.le_of_lt hk')] at hat
  rw [hat, h.sg_eq (List.getElem_mem hk'), hget]

/-- The file's own header says which kind of program it is, and how many segments there are. -/
theorem file_kind (h : Finished v p) : 16 ≤ (p.finale v.interlude).file.length ∧
    (if v.splitid then Host.is_split (Host.magic (p.finale v.interlude).file)
      else Host.is_combined (Host.magic (p.finale v.interlude).file)) ∧
    Host.num_segs (p.finale v.interlude).file = v.unplaced.objnseg := by
  have hheader := file_header p v.interlude
  have hmagic : Host.magic (p.finale v.interlude).file = (p.header v.interlude).x_magic :=
    (@field16_of_slice _ _ 0 _ 0 hheader (by decide)).trans (@field16_be16 [] _ _ 0 rfl)
  have hnseg : field16 (p.finale v.interlude).file 2 = (p.header v.interlude).x_nseg :=
    (@field16_of_slice _ _ 0 _ 2 hheader (by decide)).trans (@field16_be16 (be16 _) _ _ 2 rfl)
  refine ⟨?_, ?_, ?_⟩
  · have hslice := congrArg List.length hheader
    rw [P2.length_hdr_bytes, slice, List.length_take, List.length_drop] at hslice
    unfold XHSIZ at hslice
    omega
  · rw [hmagic, P2.header, h.alike.nonseg, h.final.nonseg, h.alike.splitid]
    by_cases hdef : p.ld.udefcnt = 0 <;> cases v.splitid <;> simp only [hdef] <;> decide
  · have hle := objnseg_le v
    unfold SEGNO at hle
    have hnat : (field16 (p.finale v.interlude).file 2).toNat = v.unplaced.objnseg := by
      rw [hnseg, P2.header]
      dsimp only
      rw [h.interlude_objnseg, BitVec.toNat_ofNat, Nat.mod_eq_of_lt (by omega)]
    rw [Host.num_segs, BitVec.toInt_eq_toNat_of_lt, hnat]
    omega

/-- **The header the loader reads.** -/
theorem parse_header_finale (h : Finished v p) (acc : Bool) :
    Host.parse_header acc (p.finale v.interlude).file =
      .ok ⟨v.splitid, false, v.taken.map v.xseg, 16 + 4 * v.taken.length⟩ := by
  obtain ⟨hlen, hkind, hnum⟩ := h.file_kind
  obtain ⟨hcs, hcg, hsg⟩ := Host.kinds_apart (Host.magic (p.finale v.interlude).file)
  have hclamped : Host.clamped (p.finale v.interlude).file = v.taken.length := by
    rw [Host.clamped, hnum, Int.toNat_natCast, h.length_taken]
  have hsegs : (List.range v.taken.length).map (Host.seg_at (p.finale v.interlude).file) =
      v.taken.map v.xseg := by
    refine List.ext_getElem (by simp) fun k hk hk' => ?_
    rw [List.length_map] at hk'
    have hbyte := fun a (ha : a < SGSIZ) => h.file_sg hk' ha
    have hpos : XHSIZ + k * SGSIZ = 16 + 4 * k := by
      unfold XHSIZ SGSIZ
      omega
    rw [hpos] at hbyte
    rw [List.getElem_map, List.getElem_map, List.getElem_range]
    unfold Host.seg_at xseg
    congr 1
    · exact hbyte 0 (by decide)
    · exact hbyte 1 (by decide)
    · rw [Host.field16_eq]
      exact (congrArg₂ (· ++ ·) (hbyte 2 (by decide)) (hbyte 3 (by decide))).trans (ofBe16_be16 _)
  have hheader : Host.header_of (p.finale v.interlude).file =
      ⟨v.splitid, false, v.taken.map v.xseg, 16 + 4 * v.taken.length⟩ := by
    unfold Host.header_of
    rw [hclamped, hsegs]
    cases hsplit : v.splitid <;> rw [hsplit] at hkind
    · congr 1
      · exact decide_eq_false fun h => hcs ⟨hkind, h⟩
      · exact decide_eq_false fun h => hcg ⟨hkind, h⟩
    · congr 1
      · exact decide_eq_true hkind
      · exact decide_eq_false fun h => hsg ⟨hkind, h⟩
  have haccepted : Host.Accepted acc (p.finale v.interlude).file := by
    refine ⟨hlen, ?_⟩
    cases hsplit : v.splitid <;> rw [hsplit] at hkind
    · exact .inl hkind
    · exact .inr (.inl hkind)
  rw [Host.parse_header_eq, if_pos haccepted, hheader]

end Finished

/-! ## 3. Two layouts -/

variable (v)

/-- The space the loader puts an output segment into, none where it does not load it. -/
def loads (i : ℕ) : Option Bool := Host.loaded_space v.splitid (v.segtab i).segtyp

/-- What the loader counts in a space for some segments. -/
def loaded (sp : Bool) (l : List ℕ) : ℕ := (l.map fun i => if v.loads i = some sp then v.room i else 0).sum

/-- The sizes of those that only the linker counts there: they are not loaded. -/
def bypassed (sp : Bool) (l : List ℕ) : ℕ :=
  (l.map fun i => if v.loads i = none ∧ v.space i = sp then (v.segtab i).segsiz else 0).sum

/-- The lengths of those that only the loader counts there: they have no size. -/
def leftover (sp : Bool) (l : List ℕ) : ℕ :=
  (l.map fun i => if (v.segtab i).segsiz = 0 ∧ v.loads i = some sp then v.room i else 0).sum

/-- The loader puts every output segment it loads, of the file that is left, into the space and at the
offset that `interpos` has given it. -/
def Agreed (p : P2) : Prop :=
  ∀ (a : Host.LoaderAddressing) (pgldaddr : BitVec 32), ∃ h,
    Host.parse_header a.accepts_segmented_programs (p.finale v.interlude).file = .ok h ∧
      let t := Host.load_target a pgldaddr h.split
      let code := fun k => (p.finale v.interlude).file.getD (h.code_data + k) 0
      ∀ i ∈ v.placing, v.loads i ≠ none → ∃ before seg after, h.segs = before ++ seg :: after ∧
        seg.number = BitVec.ofNat 8 i ∧ (Host.load_segs t code before).place t seg =
          some (v.space i, (v.interlude.ld.segtab i).segrel.toNat)

/-- **When both layouts are the same.** -/
structure Loadable : Prop where
  spaces : ∀ i ∈ v.placing, v.splitid = true → (v.segtab i).segtyp ≠ X_SG_MXU ∧ (v.segtab i).segtyp ≠ X_SG_MXP
  headers : ∀ i ∈ v.placing, v.loads i ≠ none → i ∈ v.taken
  sizes : ∀ pre i post, v.taken = pre ++ i :: post → i ∈ v.placing → v.loads i ≠ none →
    v.bypassed (v.space i) pre = v.leftover (v.space i) pre

variable {v}

/-- Code is loaded as code; what is both is not, in two spaces. -/
theorem loads_eq_space (h : v.loads i ≠ none) : v.loads i = some (v.space i) ↔
    (v.splitid = true → (v.segtab i).segtyp ≠ X_SG_MXU ∧ (v.segtab i).segtyp ≠ X_SG_MXP) := by
  unfold loads Host.loaded_space space at *
  generalize (v.segtab i).segtyp = typ at *
  revert typ
  cases v.splitid <;> decide

/-- The linker counts what the loader counts, but for these. -/
theorem spanned_add_leftover {l : List ℕ} (sp : Bool) (h : ∀ i ∈ l, (v.segtab i).segsiz ≠ 0 →
    v.loads i ≠ none → v.loads i = some (v.space i)) :
    v.spanned sp l + v.leftover sp l = v.loaded sp l + v.bypassed sp l := by
  induction l with
  | nil => rfl
  | cons i l ih =>
    obtain ⟨hi, hl⟩ := List.forall_mem_cons.mp h
    have hrest := ih hl
    have hone : (if v.space i = sp then (v.segtab i).segsiz else 0) +
        (if (v.segtab i).segsiz = 0 ∧ v.loads i = some sp then v.room i else 0) =
          (if v.loads i = some sp then v.room i else 0) +
            if v.loads i = none ∧ v.space i = sp then (v.segtab i).segsiz else 0 := by
      by_cases hsiz : (v.segtab i).segsiz = 0
      · simp [hsiz]
      · have hroom : v.room i = (v.segtab i).segsiz := if_pos hsiz
        rcases hloads : v.loads i with _ | sp'
        · simp [hsiz]
        · have hspace := hi hsiz (by simp [hloads])
          rw [hloads, Option.some.injEq] at hspace
          simp [hsiz, hroom, hspace]
    rw [spanned_cons, leftover, loaded, bypassed, List.map_cons, List.map_cons, List.map_cons,
      List.sum_cons, List.sum_cons, List.sum_cons]
    rw [leftover, loaded, bypassed] at hrest
    omega

/-- What is not loaded is neither code nor data. -/
theorem types_of_loads (h : v.loads i = none) :
    (v.segtab i).segtyp ≠ X_SG_MXU ∧ (v.segtab i).segtyp ≠ X_SG_MXP := by
  unfold loads Host.loaded_space at h
  generalize (v.segtab i).segtyp = typ at *
  revert typ
  cases v.splitid <;> decide

namespace Finished

theorem room_lt (h : Finished v p) (hi : i ∈ v.heading) : v.room i < 65536 := by
  have hmem := (mem_order.mp hi).1
  rw [List.mem_append, List.mem_range] at hmem
  rw [← h.hiwat_toNat hmem]
  exact BitVec.isLt _

theorem mem_heading (hi : i ∈ v.taken) : i ∈ v.heading := List.mem_of_mem_take hi

theorem le_segno (h : Finished v p) (hi : i ∈ v.heading) : i ≤ SEGNO := by
  have hmem := (mem_order.mp hi).1
  rw [List.mem_append, List.mem_range] at hmem
  rcases hmem with hmem | hlt
  · exact h.prealloc i hmem
  · exact Nat.le_of_lt hlt

/-- The number in a header is that of its segment. -/
theorem number_inj (h : Finished v p) {j : ℕ} (hi : i ∈ v.heading) (hj : j ∈ v.heading)
    (heq : BitVec.ofNat 8 i = BitVec.ofNat 8 j) : i = j := by
  have hile := h.le_segno hi
  have hjle := h.le_segno hj
  have hnat := congrArg BitVec.toNat heq
  unfold SEGNO at hile hjle
  rw [BitVec.toNat_ofNat, BitVec.toNat_ofNat] at hnat
  omega

/-- **Where the loader puts a segment.** -/
theorem taken_place (h : Finished v p) (hsplit : v.taken = pre ++ i :: post) {t : Host.Target}
    (ht : t.split = v.splitid) (code : ℕ → Byte) :
    (Host.load_segs t code (pre.map v.xseg)).place t (v.xseg i) =
      (v.loads i).map fun sp => (sp, v.loaded sp pre) := by
  unfold Host.LoadState.place loads
  rw [ht]
  congr 1
  funext sp
  rw [Host.load_segs_off, Host.loaded_into, loaded, List.map_map, ht]
  congr 2
  refine List.map_congr_left fun j hj => ?_
  have hmem := mem_heading (i := j) (v := v) (by rw [hsplit]; exact List.mem_append_left _ hj)
  have hlength : (v.xseg j).length.toNat = v.room j := by
    unfold xseg
    dsimp only
    rw [BitVec.toNat_ofNat, Nat.mod_eq_of_lt (h.room_lt hmem)]
  rw [Function.comp_apply, hlength]
  rfl

/-- **Where the linker puts it.** -/
theorem taken_address (h : Finished v p) (hsplit : v.taken = pre ++ i :: post) (hi : i ∈ v.placing) :
    (v.interlude.ld.segtab i).segrel.toNat = v.spanned (v.space i) pre := by
  have hsiz := (mem_placing.mp hi).2
  obtain ⟨rest, hheading⟩ : ∃ rest, v.heading = pre ++ i :: rest := by
    refine ⟨post ++ v.heading.drop (min v.unplaced.objnseg 16), ?_⟩
    rw [← List.cons_append, ← List.append_assoc, ← hsplit, taken, List.take_append_drop]
  have hplacing : v.placing = pre.filter (fun j => (v.segtab j).segsiz ≠ 0) ++
      i :: rest.filter fun j => (v.segtab j).segsiz ≠ 0 := by
    rw [placing_eq, hheading, List.filter_append, List.filter_cons, if_pos (decide_eq_true hsiz)]
  have hzero : ∀ l : List ℕ, v.spanned (v.space i) (l.filter fun j => (v.segtab j).segsiz ≠ 0) =
      v.spanned (v.space i) l := by
    intro l
    induction l with
    | nil => rfl
    | cons j l ih =>
      rw [List.filter_cons, spanned_cons]
      by_cases hj : (v.segtab j).segsiz ≠ 0
      · rw [if_pos (decide_eq_true hj), spanned_cons, ih]
      · rw [decide_eq_false hj, if_neg Bool.false_ne_true, ih, not_not.mp hj, ite_self, Nat.zero_add]
  rw [h.address hplacing, hzero]

theorem mem_placing_iff : i ∈ v.placing ↔ i ∈ v.heading ∧ (v.segtab i).segsiz ≠ 0 := by
  rw [placing_eq, List.mem_filter, decide_eq_true_eq]

theorem nodup_taken (v : Ld) : v.taken.Nodup := (nodup_order _ _).sublist (List.take_sublist _ _)

/-- **One segment**: its header is read, its space is right, and as much is before it there. -/
theorem agreed_at (h : Finished v p) {t : Host.Target} (ht : t.split = v.splitid) (code : ℕ → Byte)
    (hi : i ∈ v.placing) (hl : v.loads i ≠ none) :
    (∃ before seg after, v.taken.map v.xseg = before ++ seg :: after ∧ seg.number = BitVec.ofNat 8 i ∧
      (Host.load_segs t code before).place t seg =
        some (v.space i, (v.interlude.ld.segtab i).segrel.toNat)) ↔
    v.loads i = some (v.space i) ∧ ∃ pre post, v.taken = pre ++ i :: post ∧
      v.loaded (v.space i) pre = v.spanned (v.space i) pre := by
  have hmem := (mem_placing_iff.mp hi).1
  constructor
  · rintro ⟨before, seg, after, hsegs, hnum, hplace⟩
    obtain ⟨pre, rest, htaken, rfl, hrest⟩ := List.map_eq_append_iff.mp hsegs
    obtain ⟨j, post, rfl, rfl, rfl⟩ := List.map_eq_cons_iff.mp hrest
    have hj : j ∈ v.heading := mem_heading (by rw [htaken]; simp)
    obtain rfl := h.number_inj hj hmem hnum
    rw [h.taken_place htaken ht] at hplace
    obtain ⟨sp, hsp, heq⟩ := Option.map_eq_some_iff.mp hplace
    obtain ⟨rfl, hloaded⟩ := Prod.mk.inj heq
    exact ⟨hsp, pre, post, htaken, hloaded.trans (h.taken_address htaken hi)⟩
  · rintro ⟨hsp, pre, post, htaken, hloaded⟩
    refine ⟨pre.map v.xseg, v.xseg i, post.map v.xseg, ?_, rfl, ?_⟩
    · rw [htaken, List.map_append, List.map_cons]
    · rw [h.taken_place htaken ht, hsp, Option.map_some, hloaded, h.taken_address htaken hi]

/-- **Both layouts are the same** just under that condition. -/
theorem agreed_iff (h : Finished v p) : v.Agreed p ↔ v.Loadable := by
  have hheader := h.parse_header_finale
  constructor
  · intro hall
    obtain ⟨hdr, hhdr, hat⟩ := hall Host.Z8002LoaderAddressing 0
    rw [hheader] at hhdr
    obtain rfl := Except.ok.inj hhdr
    have hone := fun i hi hl => (h.agreed_at rfl _ hi hl).mp (hat i hi hl)
    refine ⟨fun i hi hs => ?_, fun i hi hl => ?_, fun pre i post htaken hi hl => ?_⟩
    · by_cases hl : v.loads i = none
      · exact types_of_loads hl
      · exact (loads_eq_space hl).mp (hone i hi hl).1 hs
    · obtain ⟨-, pre, post, htaken, -⟩ := hone i hi hl
      rw [htaken]
      simp
    · obtain ⟨-, pre', post', htaken', hloaded⟩ := hone i hi hl
      have hnodup := nodup_taken v
      rw [htaken, List.nodup_middle, List.nodup_cons, List.mem_append, not_or] at hnodup
      obtain ⟨rfl, -, rfl⟩ := (List.append_cons_inj_of_notMem hnodup.1.1 hnodup.1.2).mp
        (htaken.symm.trans htaken')
      have hsum := @spanned_add_leftover v pre (v.space i) fun j hj hsiz hlj => by
        have hjmem : j ∈ v.taken := htaken ▸ List.mem_append_left _ hj
        exact (hone j (mem_placing_iff.mpr ⟨mem_heading hjmem, hsiz⟩) hlj).1
      omega
  · intro hload a pgldaddr
    have hspace := fun i hi hl => (loads_eq_space (v := v) (i := i) hl).mpr (hload.spaces i hi)
    refine ⟨_, hheader _, fun i hi hl => (h.agreed_at rfl _ hi hl).mpr ⟨hspace i hi hl, ?_⟩⟩
    obtain ⟨pre, post, htaken⟩ := List.append_of_mem (hload.headers i hi hl)
    refine ⟨pre, post, htaken, ?_⟩
    have hsizes := hload.sizes pre i post htaken hi hl
    have hsum := @spanned_add_leftover v pre (v.space i) fun j hj hsiz hlj => by
      have hjmem : j ∈ v.taken := htaken ▸ List.mem_append_left _ hj
      exact hspace j (mem_placing_iff.mpr ⟨mem_heading hjmem, hsiz⟩) hlj
    omega

/-! ## 4. Without segment 128 -/

/-- The headers are those of the segments that have a size. -/
theorem heading_eq (h : Finished v p) (hb : SEGNO ∉ v.prelist) : v.heading = v.placing := by
  rw [placing_eq, List.filter_eq_self.mpr]
  intro i hi
  obtain ⟨hmem, hroom⟩ := mem_order.mp hi
  rw [List.mem_append, List.mem_range] at hmem
  have hlt : i < SEGNO := by
    rcases hmem with hmem | hlt
    · exact Nat.lt_of_le_of_ne (h.prealloc i hmem) fun heq => hb (heq ▸ hmem)
    · exact hlt
  rw [decide_eq_true_eq]
  intro hsiz
  refine hroom ?_
  rw [room, if_neg (not_not.mpr hsiz), h.unmarked i hlt]
  rfl

theorem taken_eq (h : Finished v p) (hb : SEGNO ∉ v.prelist) : v.taken = v.placing.take 16 := by
  have hcount : v.unplaced.objnseg = v.placing.length := by
    rw [← h.heading_eq hb, ← h.heading_length, h.headed_eq fun hbeyond => hb hbeyond.1]
  rw [taken, h.heading_eq hb, hcount, ← List.take_take,
    List.take_of_length_le (List.length_take_le' _ _)]

/-- **The condition** where no segment 128 is listed: the loader takes the header of every segment it is
to load, and loads all that is before it in its space. -/
theorem loadable_iff (h : Finished v p) (hb : SEGNO ∉ v.prelist) : v.Loadable ↔
    (∀ i ∈ v.placing, v.splitid = true → (v.segtab i).segtyp ≠ X_SG_MXU ∧ (v.segtab i).segtyp ≠ X_SG_MXP) ∧
      ∀ pre i post, v.placing = pre ++ i :: post → v.loads i ≠ none →
        pre.length < 16 ∧ ∀ k ∈ pre, v.space k = v.space i → v.loads k ≠ none := by
  have hleft : ∀ sp l, (∀ k ∈ l, k ∈ v.placing) → v.leftover sp l = 0 := by
    intro sp l hl
    refine List.sum_eq_zero fun x hx => ?_
    obtain ⟨k, hk, rfl⟩ := List.mem_map.mp hx
    exact if_neg fun hboth => (mem_placing.mp (hl k hk)).2 hboth.1
  have hbypass : ∀ sp l, (∀ k ∈ l, k ∈ v.placing) →
      (v.bypassed sp l = 0 ↔ ∀ k ∈ l, v.space k = sp → v.loads k ≠ none) := by
    intro sp l hl
    rw [bypassed, List.sum_eq_zero_iff, List.forall_mem_map]
    refine forall₂_congr fun k hk => ?_
    have hsiz := (mem_placing.mp (hl k hk)).2
    rw [ite_eq_right_iff]
    constructor
    · intro himp hspace hnone
      exact hsiz (himp ⟨hnone, hspace⟩)
    · rintro himp ⟨hnone, hspace⟩
      exact absurd hnone (himp hspace)
  have htaken := h.taken_eq hb
  constructor
  · intro hload
    refine ⟨hload.spaces, fun pre i post hsplit hl => ?_⟩
    have hi : i ∈ v.placing := hsplit ▸ List.mem_append_right _ List.mem_cons_self
    have hmem := hload.headers i hi hl
    have hlen : pre.length < 16 := by
      by_contra hge
      have hnodup : (pre ++ i :: post).Nodup := hsplit ▸ nodup_order _ _
      rw [htaken, hsplit, List.take_append_of_le_length (not_lt.mp hge)] at hmem
      exact (List.nodup_append.mp hnodup).2.2 i (List.mem_of_mem_take hmem) i List.mem_cons_self rfl
    have hpre : v.taken = pre ++ i :: post.take (15 - pre.length) := by
      obtain ⟨n, hn⟩ : ∃ n, 16 - pre.length = n + 1 := ⟨15 - pre.length, by omega⟩
      rw [htaken, hsplit, List.take_append, List.take_of_length_le (Nat.le_of_lt hlen), hn, List.take_succ_cons]
      congr 3
      omega
    have hall : ∀ k ∈ pre, k ∈ v.placing := fun k hk => hsplit ▸ List.mem_append_left _ hk
    have hsizes := hload.sizes pre i _ hpre hi hl
    rw [hleft _ _ hall] at hsizes
    exact ⟨hlen, (hbypass _ _ hall).mp hsizes⟩
  · rintro ⟨hspaces, hpre⟩
    refine ⟨hspaces, fun i hi hl => ?_, fun pre i post hsplit hi hl => ?_⟩
    · obtain ⟨pre, post, hsplit⟩ := List.append_of_mem hi
      have hlen := (hpre pre i post hsplit hl).1
      rw [htaken, hsplit]
      refine List.mem_take_iff_getElem.mpr ⟨pre.length, ?_, ?_⟩
      · rw [List.length_append, List.length_cons]
        omega
      · simp
    · have hplacing : v.placing = pre ++ i :: (post ++ v.placing.drop 16) := by
        rw [← List.cons_append, ← List.append_assoc, ← hsplit, htaken, List.take_append_drop]
      have hall : ∀ k ∈ pre, k ∈ v.placing := fun k hk => hplacing ▸ List.mem_append_left _ hk
      rw [hleft _ _ hall]
      exact (hbypass _ _ hall).mpr (hpre pre i _ hplacing hl).2

end Finished

/-! ## 5. Links -/

variable {cc : Compiler} {s : Ld}

/-- What is seen of a link of one module: the flags, the preassigned list, the errors, the segments in
the order they are placed in, and the space each is loaded into. -/
structure LoadOutcome where
  nonseg : Bool
  saverel : Bool
  splitid : Bool
  prelist : List ℕ
  errcnt : ℕ
  placing : List ℕ
  loads : List (Option Bool)
  deriving DecidableEq

def load_outcome (v : Ld) (p : P2) : LoadOutcome where
  nonseg := v.nonseg
  saverel := v.saverel
  splitid := v.splitid
  prelist := v.prelist
  errcnt := p.ld.errcnt
  placing := v.placing
  loads := v.placing.map v.loads

def load_after (types : List Byte) : Option LoadOutcome := do
  let s ← pass0 .unsigned .zero []
  let v ← s.pass1 .unsigned [.object (with_types types)]
  let p ← (v.interlude.pass2 fun _ => 0).p2loads .unsigned [with_types types]
  return load_outcome v p

theorem of_load_after {types : List Byte} {r : LoadOutcome} (h : load_after types = some r) :
    ∃ s v p, pass0 .unsigned .zero [] = some s ∧
      s.pass1 .unsigned [.object (with_types types)] = some v ∧
        (v.interlude.pass2 fun _ => 0).p2loads .unsigned [with_types types] = some p ∧
          load_outcome v p = r := by
  unfold load_after at h
  obtain ⟨s, hs, h⟩ := Option.bind_eq_some_iff.mp h
  obtain ⟨v, hv, h⟩ := Option.bind_eq_some_iff.mp h
  obtain ⟨p, hp, h⟩ := Option.bind_eq_some_iff.mp h
  exact ⟨s, v, p, hs, hv, hp, Option.some.inj h⟩

end Ld

end Cpm8000.Linker
