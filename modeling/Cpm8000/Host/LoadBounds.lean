/-
# What the loader reads of a program file

`bdos_pgmld` takes the number of segments, their types and their lengths from the file and adds them
up to the positions it reads at. `pgmld_reads` lists those positions in the order of the code, and
`pgmld_load_congr` shows that nothing else of the file has a part in the load.

The loader compares no position with the size of the file, and it clamps the number of segments
without moving the place where the contents begin: `pgmld_bounds` says for which files it stays
inside the file all the same.
-/
import Cpm8000.Host.Placement

namespace Cpm8000.Host

open Cpm8000.Sys

/-! ## 1. The header, field by field -/

def magic (fbuf : List Byte) : BitVec 16 := field16 fbuf 0

/-- The number of segments, as the header has it. -/
def num_segs (fbuf : List Byte) : ℤ := (field16 fbuf 2).toInt

/-- The kinds of program: combined, split and segmented. -/
def is_combined (magic : BitVec 16) : Prop := magic = 0xee02 ∨ magic = 0xee03

def is_split (magic : BitVec 16) : Prop := magic = 0xee0a ∨ magic = 0xee0b

def is_segmented (magic : BitVec 16) : Prop := magic = 0xee00 ∨ magic = 0xee01

instance (v : BitVec 16) : Decidable (is_combined v) := inferInstanceAs (Decidable (_ ∨ _))
instance (v : BitVec 16) : Decidable (is_split v) := inferInstanceAs (Decidable (_ ∨ _))
instance (v : BitVec 16) : Decidable (is_segmented v) := inferInstanceAs (Decidable (_ ∨ _))

/-- A header of a kind of program the machine takes. -/
def Accepted (accepts_segmented_programs : Bool) (fbuf : List Byte) : Prop :=
  16 ≤ fbuf.length ∧ (is_combined (magic fbuf) ∨ is_split (magic fbuf) ∨
    is_segmented (magic fbuf) ∧ accepts_segmented_programs)

instance (acc : Bool) (fbuf : List Byte) : Decidable (Accepted acc fbuf) :=
  inferInstanceAs (Decidable (_ ∧ _))

/-- The `i`-th segment header. -/
def seg_at (fbuf : List Byte) (i : ℕ) : XSeg where
  number := fbuf.getD (16 + 4 * i) 0
  type := fbuf.getD (16 + 4 * i + 1) 0
  length := field16 fbuf (16 + 4 * i + 2)

/-- The headers the loader takes: sixteen at the most. -/
def clamped (fbuf : List Byte) : ℕ := min (num_segs fbuf).toNat 16

theorem clamped_eq (fbuf : List Byte) :
    (if num_segs fbuf > 16 then (16 : ℤ) else num_segs fbuf).toNat = clamped fbuf := by
  rw [clamped]
  split_ifs <;> omega

/-- The header of an accepted file. -/
def header_of (fbuf : List Byte) : XHdr where
  split := is_split (magic fbuf)
  segmented := is_segmented (magic fbuf)
  segs := (List.range (clamped fbuf)).map (seg_at fbuf)
  code_data := 16 + 4 * clamped fbuf

/-- The header of a file of one kind. -/
theorem header_of_eq {fbuf : List Byte} {split segmented : Bool}
    (hsplit : split = decide (is_split (magic fbuf)))
    (hsegmented : segmented = decide (is_segmented (magic fbuf))) :
    (⟨split, segmented,
      (List.range (if num_segs fbuf > 16 then (16 : ℤ) else num_segs fbuf).toNat).map (seg_at fbuf),
      16 + 4 * (if num_segs fbuf > 16 then (16 : ℤ) else num_segs fbuf).toNat⟩ : XHdr) =
        header_of fbuf := by
  rw [clamped_eq, hsplit, hsegmented, header_of]

/-- No magic number is of two kinds. -/
theorem kinds_apart (v : BitVec 16) : ¬ (is_combined v ∧ is_split v) ∧
    ¬ (is_combined v ∧ is_segmented v) ∧ ¬ (is_split v ∧ is_segmented v) := by
  refine ⟨?_, ?_, ?_⟩ <;> rintro ⟨h | h, h' | h'⟩ <;> exact absurd (h.symm.trans h') (by decide)

/-- **What the header parse does**, the file taken field by field. -/
theorem parse_header_eq (acc : Bool) (fbuf : List Byte) :
    parse_header acc fbuf = if Accepted acc fbuf then .ok (header_of fbuf) else .error 1 := by
  obtain ⟨hcs, hcg, hsg⟩ := kinds_apart (magic fbuf)
  unfold parse_header
  by_cases hlen : fbuf.length < 16
  · rw [if_pos hlen, if_neg fun h => absurd h.1 (not_le.mpr hlen)]
  rw [if_neg hlen]
  dsimp only
  have hle := not_lt.mp hlen
  by_cases hc : field16 fbuf 0 = 0xee02 ∨ field16 fbuf 0 = 0xee03
  · have hacc : Accepted acc fbuf := ⟨hle, .inl hc⟩
    rw [if_pos hc, if_pos hacc]
    dsimp only
    rw [if_neg fun h => absurd h.1 (by decide)]
    refine congrArg Except.ok (header_of_eq ?_ ?_)
    · exact (decide_eq_false fun h => hcs ⟨hc, h⟩).symm
    · exact (decide_eq_false fun h => hcg ⟨hc, h⟩).symm
  rw [if_neg hc]
  by_cases hs : field16 fbuf 0 = 0xee0a ∨ field16 fbuf 0 = 0xee0b
  · have hacc : Accepted acc fbuf := ⟨hle, .inr (.inl hs)⟩
    rw [if_pos hs, if_pos hacc]
    dsimp only
    rw [if_neg fun h => absurd h.1 (by decide)]
    refine congrArg Except.ok (header_of_eq ?_ ?_)
    · exact (decide_eq_true hs).symm
    · exact (decide_eq_false fun h => hsg ⟨hs, h⟩).symm
  rw [if_neg hs]
  by_cases hg : field16 fbuf 0 = 0xee00 ∨ field16 fbuf 0 = 0xee01
  · rw [if_pos hg]
    dsimp only
    cases acc with
    | false =>
      have hacc : ¬ Accepted false fbuf := by
        rintro ⟨-, h | h | h⟩
        · exact hc h
        · exact hs h
        · exact absurd h.2 (by decide)
      rw [if_neg hacc, if_pos (by decide)]
    | true =>
      have hacc : Accepted true fbuf := ⟨hle, .inr (.inr ⟨hg, rfl⟩)⟩
      rw [if_pos hacc, if_neg fun h => absurd h.2 (by decide)]
      refine congrArg Except.ok (header_of_eq ?_ ?_)
      · exact (decide_eq_false hs).symm
      · exact (decide_eq_true hg).symm
  · have hacc : ¬ Accepted acc fbuf := by
      rintro ⟨-, h | h | h⟩
      · exact hc h
      · exact hs h
      · exact hg h.1
    rw [if_neg hg, if_neg hacc]

/-! ## 2. The positions read -/

/-- The bytes a segment has in the file. -/
def XSeg.contents (seg : XSeg) : ℕ :=
  match Part.of seg.type with
  | some .text => seg.length.toNat
  | some .data => seg.length.toNat
  | some .bss => 0
  | none => 0

def contents (segs : List XSeg) : ℕ := (segs.map XSeg.contents).sum

/-- The bytes of `n` segment headers: `p[0]` to `p[3]`, and `p += 4`. -/
def header_reads (n : ℕ) : List ℕ :=
  (List.range n).flatMap fun i => [16 + 4 * i, 16 + 4 * i + 1, 16 + 4 * i + 2, 16 + 4 * i + 3]

/-- The bytes one round of the loop reads: `code_data[code_offset + j]`. -/
def seg_reads (code_data : ℕ) (s : LoadState) (seg : XSeg) : List ℕ :=
  (List.range seg.contents).map fun j => code_data + (s.code_offset + j)

/-- The bytes the loop reads. -/
def load_reads (t : Target) (fbuf : List Byte) (code_data : ℕ) : LoadState → List XSeg → List ℕ
  | _, [] => []
  | s, seg :: segs => seg_reads code_data s seg ++
      load_reads t fbuf code_data (load_seg t (fun i => fbuf.getD (code_data + i) 0) s seg) segs

/-- The contents a load reads. -/
def code_reads (a : LoaderAddressing) (pgldaddr : BitVec 32) (fbuf : List Byte) : List ℕ :=
  match parse_header a.accepts_segmented_programs fbuf with
  | .error _ => []
  | .ok h => load_reads (load_target a pgldaddr h.split) fbuf h.code_data {} h.segs

/-- The entries of `segs` a load uses. -/
def table_indices (a : LoaderAddressing) (fbuf : List Byte) : List ℕ :=
  match parse_header a.accepts_segmented_programs fbuf with
  | .error _ => []
  | .ok h => List.range h.segs.length

/-- Every position `bdos_pgmld` reads in the file, in the order of the code. -/
def pgmld_reads (a : LoaderAddressing) (pgldaddr : BitVec 32) (fbuf : List Byte) : List ℕ :=
  if fbuf.length < 16 then []
  else [0, 1, 2, 3] ++ header_reads (table_indices a fbuf).length ++ code_reads a pgldaddr fbuf

theorem contents_cons (seg : XSeg) (segs : List XSeg) :
    contents (seg :: segs) = seg.contents + contents segs := List.sum_cons

theorem mem_header_reads {n p : ℕ} : p ∈ header_reads n ↔ 16 ≤ p ∧ p < 16 + 4 * n := by
  rw [header_reads, List.mem_flatMap]
  constructor
  · rintro ⟨i, hi, hp⟩
    rw [List.mem_range] at hi
    simp only [List.mem_cons, List.not_mem_nil, or_false] at hp
    omega
  · rintro ⟨hle, hlt⟩
    refine ⟨(p - 16) / 4, ?_, ?_⟩
    · rw [List.mem_range]
      omega
    · simp only [List.mem_cons, List.not_mem_nil, or_false]
      omega

/-- A round moves past the bytes it has read. -/
theorem load_seg_code_offset (t : Target) (code : ℕ → Byte) (s : LoadState) (seg : XSeg) :
    (load_seg t code s seg).code_offset = s.code_offset + seg.contents := by
  unfold XSeg.contents
  cases h : Part.of seg.type with
  | none =>
    rw [load_seg_of_none t code s seg h]
    split_ifs <;> rfl
  | some p =>
    rw [(load_seg_loaded t code s seg h).code_offset]
    cases p <;> rfl

/-- **The loop reads the contents one behind the other.** -/
theorem load_reads_eq (t : Target) (fbuf : List Byte) (code_data : ℕ) (s : LoadState)
    (segs : List XSeg) : load_reads t fbuf code_data s segs =
      List.range' (code_data + s.code_offset) (contents segs) := by
  induction segs generalizing s with
  | nil => rfl
  | cons seg segs ih =>
    have hseg : seg_reads code_data s seg =
        List.range' (code_data + s.code_offset) seg.contents := by
      rw [seg_reads, List.range'_eq_map_range]
      exact List.map_congr_left fun j _ => (Nat.add_assoc _ _ _).symm
    rw [load_reads, ih, hseg, load_seg_code_offset, contents_cons, ← Nat.add_assoc]
    exact List.range'_append_1

/-! ## 3. Nothing else is read -/

theorem field16_eq (l : List Byte) (p : ℕ) : field16 l p = l.getD p 0 ++ l.getD (p + 1) 0 := by
  have hget : ∀ i < 2, (slice l p 2).getD i 0 = l.getD (p + i) 0 := by
    intro i hi
    rw [List.getD_eq_getElem?_getD, List.getD_eq_getElem?_getD, slice, List.getElem?_take_of_lt hi,
      List.getElem?_drop]
  rw [field16, ofBe16, hget 0 (by decide), hget 1 (by decide)]
  rfl

/-- A round takes nothing from the file but what it reads. -/
theorem load_seg_congr (t : Target) {f g : ℕ → Byte} {code_data : ℕ} {s : LoadState} {seg : XSeg}
    (h : ∀ p ∈ seg_reads code_data s seg, f p = g p) :
    load_seg t (fun i => f (code_data + i)) s seg = load_seg t (fun i => g (code_data + i)) s seg := by
  have hstores : ∀ part tag off, seg.contents = seg.length.toNat →
      seg_stores part tag t.tpa_base off (fun j => f (code_data + (s.code_offset + j)))
          seg.length.toNat =
        seg_stores part tag t.tpa_base off (fun j => g (code_data + (s.code_offset + j)))
          seg.length.toNat := by
    intro part tag off hlen
    refine List.map_congr_left fun j hj => ?_
    dsimp only
    rw [h _ (List.mem_map_of_mem (hlen ▸ hj))]
  unfold load_seg
  dsimp only
  by_cases h3 : seg.type = 3 ∨ seg.type = 6 ∨ seg.type = 7
  · have hlen : seg.contents = seg.length.toNat := by
      rw [XSeg.contents, Part.of, if_pos h3]
    rw [if_pos h3, if_pos h3, hstores _ _ _ hlen]
  rw [if_neg h3, if_neg h3]
  by_cases h4 : seg.type = 4 ∨ seg.type = 5
  · have hlen : seg.contents = seg.length.toNat := by
      rw [XSeg.contents, Part.of, if_neg h3, if_pos h4]
    rw [if_pos h4, if_pos h4, hstores _ _ _ hlen]
  rw [if_neg h4, if_neg h4]

theorem load_segs_congr {t : Target} {fbuf gbuf : List Byte} {code_data : ℕ} (segs : List XSeg)
    (s : LoadState) (h : ∀ p ∈ load_reads t fbuf code_data s segs, fbuf.getD p 0 = gbuf.getD p 0) :
    segs.foldl (load_seg t fun i => fbuf.getD (code_data + i) 0) s =
      segs.foldl (load_seg t fun i => gbuf.getD (code_data + i) 0) s := by
  induction segs generalizing s with
  | nil => rfl
  | cons seg segs ih =>
    rw [load_reads, List.forall_mem_append] at h
    have hseg := load_seg_congr t (f := fun p => fbuf.getD p 0) (g := fun p => gbuf.getD p 0) h.1
    rw [List.foldl_cons, List.foldl_cons, ih _ h.2, hseg]

theorem seg_at_congr {fbuf gbuf : List Byte} {n : ℕ}
    (h : ∀ p ∈ header_reads n, fbuf.getD p 0 = gbuf.getD p 0) :
    (List.range n).map (seg_at fbuf) = (List.range n).map (seg_at gbuf) := by
  refine List.map_congr_left fun i hi => ?_
  have hget : ∀ k < 4, fbuf.getD (16 + 4 * i + k) 0 = gbuf.getD (16 + 4 * i + k) 0 := by
    intro k hk
    rw [List.mem_range] at hi
    exact h _ (mem_header_reads.mpr ⟨by omega, by omega⟩)
  rw [seg_at, seg_at, field16_eq, field16_eq]
  congr 1
  · exact hget 0 (by decide)
  · exact hget 1 (by decide)
  · rw [hget 2 (by decide), hget 3 (by decide)]

/-- **Nothing else of the file has a part in the load**: two files of one size that agree where the
loader reads are loaded alike. -/
theorem pgmld_load_congr {a : LoaderAddressing} {pgldaddr : BitVec 32} {fbuf gbuf : List Byte}
    (lpb_addr : BitVec 32) (m : HostedMemory) (hlen : fbuf.length = gbuf.length)
    (h : ∀ p ∈ pgmld_reads a pgldaddr fbuf, fbuf.getD p 0 = gbuf.getD p 0) :
    pgmld_load a pgldaddr lpb_addr fbuf m = pgmld_load a pgldaddr lpb_addr gbuf m := by
  by_cases hshort : fbuf.length < 16
  · have hf : parse_header a.accepts_segmented_programs fbuf = .error 1 := if_pos hshort
    have hg : parse_header a.accepts_segmented_programs gbuf = .error 1 := if_pos (hlen ▸ hshort)
    rw [pgmld_load, hf, pgmld_load, hg]
  rw [pgmld_reads, if_neg hshort, List.forall_mem_append, List.forall_mem_append] at h
  obtain ⟨⟨hfirst, hheaders⟩, hcode⟩ := h
  have hmagic : magic fbuf = magic gbuf := by
    rw [magic, magic, field16_eq, field16_eq, hfirst 0 (by simp), hfirst 1 (by simp)]
  have hsegs : num_segs fbuf = num_segs gbuf := by
    rw [num_segs, num_segs, field16_eq, field16_eq, hfirst 2 (by simp), hfirst 3 (by simp)]
  have hacc : Accepted a.accepts_segmented_programs fbuf ↔
      Accepted a.accepts_segmented_programs gbuf := by
    rw [Accepted, Accepted, hlen, hmagic]
  by_cases hf : Accepted a.accepts_segmented_programs fbuf
  · have hpf := (parse_header_eq a.accepts_segmented_programs fbuf).trans (if_pos hf)
    have hpg := (parse_header_eq a.accepts_segmented_programs gbuf).trans (if_pos (hacc.mp hf))
    have hclamped : clamped fbuf = clamped gbuf := by rw [clamped, clamped, hsegs]
    have hheader : header_of fbuf = header_of gbuf := by
      rw [table_indices, hpf] at hheaders
      simp only [header_of, List.length_range, List.length_map] at hheaders
      rw [header_of, header_of, hmagic, ← hclamped, seg_at_congr hheaders]
    rw [code_reads, hpf] at hcode
    rw [pgmld_load, hpf, pgmld_load, hpg, ← hheader]
    dsimp only
    rw [load_segs, load_segs, load_segs_congr _ _ hcode]
  · have hpf := (parse_header_eq a.accepts_segmented_programs fbuf).trans (if_neg hf)
    have hpg := (parse_header_eq a.accepts_segmented_programs gbuf).trans (if_neg (mt hacc.mpr hf))
    rw [pgmld_load, hpf, pgmld_load, hpg]

/-! ## 4. The code a load returns -/

/-- A program whose data segment does not leave room for its stack and the basepage, by the
comparison of the loader, which wraps. -/
def TooLarge (split : Bool) (segs : List XSeg) : Prop :=
  (2 ^ 32 + (SEGLEN - BPLEN) - (DEFSTACK + (plan split segs).stack)) % 2 ^ 32 <
    (plan split segs).off split

instance (split : Bool) (segs : List XSeg) : Decidable (TooLarge split segs) :=
  inferInstanceAs (Decidable (_ < _))

/-- The loop's size check is that of the headers. -/
theorem tooLarge_iff (a : LoaderAddressing) (pgldaddr : BitVec 32) (split : Bool) (code : ℕ → Byte)
    (segs : List XSeg) :
    let s := load_segs (load_target a pgldaddr split) code segs
    s.data_seg_used split > s.data_seg_limit ↔ TooLarge split segs := by
  have hT := load_segs_tracks (load_target a pgldaddr split) code segs
  have hused : (load_segs (load_target a pgldaddr split) code segs).data_seg_used split =
      (plan split segs).off split := congrFun hT.off split
  have hstack : (load_segs (load_target a pgldaddr split) code segs).stk_size =
      DEFSTACK + (plan split segs).stack := hT.stk_size
  intro s
  rw [hused, LoadState.data_seg_limit, hstack, TooLarge, gt_iff_lt]

/-- Where the load of an accepted file puts the program, and what the loop leaves. -/
def target_of (a : LoaderAddressing) (pgldaddr : BitVec 32) (fbuf : List Byte) : Target :=
  load_target a pgldaddr (header_of fbuf).split

def loop_of (a : LoaderAddressing) (pgldaddr : BitVec 32) (fbuf : List Byte) : LoadState :=
  load_segs (target_of a pgldaddr fbuf) (fun i => fbuf.getD ((header_of fbuf).code_data + i) 0)
    (header_of fbuf).segs

def results_of (a : LoaderAddressing) (pgldaddr : BitVec 32) (fbuf : List Byte) : Results :=
  load_results (target_of a pgldaddr fbuf) (header_of fbuf).segmented
    (load_exec_tag a pgldaddr (header_of fbuf).split) (loop_of a pgldaddr fbuf)

/-- The memory after the bank is set and the loop has stored the program. -/
def stored_of (a : LoaderAddressing) (pgldaddr : BitVec 32) (fbuf : List Byte) (m : HostedMemory) :
    HostedMemory :=
  (loop_of a pgldaddr fbuf).stores.foldl (fun m st => m.write_byte st.addr st.val)
    (m.configure_program (target_of a pgldaddr fbuf).code_load_tag
      (target_of a pgldaddr fbuf).data_load_tag)

/-- **The load, by what the headers say**: refused, found too large after the stores, or done. -/
theorem pgmld_load_eq (a : LoaderAddressing) (pgldaddr lpb_addr : BitVec 32) (fbuf : List Byte)
    (m : HostedMemory) : pgmld_load a pgldaddr lpb_addr fbuf m =
      if Accepted a.accepts_segmented_programs fbuf then
        if TooLarge (header_of fbuf).split (header_of fbuf).segs then
          (stored_of a pgldaddr fbuf m, 2)
        else
          (write_lpb lpb_addr (results_of a pgldaddr fbuf)
            (write_basepage (results_of a pgldaddr fbuf) (stored_of a pgldaddr fbuf m)), 0)
      else (m, 1) := by
  rw [pgmld_load, parse_header_eq]
  by_cases hacc : Accepted a.accepts_segmented_programs fbuf
  · have hiff := tooLarge_iff a pgldaddr (header_of fbuf).split
      (fun i => fbuf.getD ((header_of fbuf).code_data + i) 0) (header_of fbuf).segs
    rw [if_pos hacc, if_pos hacc]
    exact ite_congr (propext hiff) (fun _ => rfl) fun _ => rfl
  · rw [if_neg hacc, if_neg hacc]

/-- **The code a load returns** is a matter of the headers alone. -/
theorem pgmld_load_code (a : LoaderAddressing) (pgldaddr lpb_addr : BitVec 32) (fbuf : List Byte)
    (m : HostedMemory) : (pgmld_load a pgldaddr lpb_addr fbuf m).2 =
      if Accepted a.accepts_segmented_programs fbuf then
        if TooLarge (header_of fbuf).split (header_of fbuf).segs then 2 else 0
      else 1 := by
  rw [pgmld_load_eq]
  split_ifs <;> rfl

/-! ## 5. Reads in the file -/

/-- The headers and the contents of all the segments a file says it has are in it. -/
def FileFits (fbuf : List Byte) : Prop :=
  16 + 4 * (num_segs fbuf).toNat +
    contents ((List.range (num_segs fbuf).toNat).map (seg_at fbuf)) ≤ fbuf.length

/-- **What the loader should keep to**: it reads in the file, stays in its table, fails on a file
that is too short for its segments, and takes no segment header for code. -/
structure LoadBounds (a : LoaderAddressing) (pgldaddr : BitVec 32) (fbuf : List Byte) (code : ℕ) :
    Prop where
  reads : ∀ p ∈ pgmld_reads a pgldaddr fbuf, p < fbuf.length
  table : ∀ i ∈ table_indices a fbuf, i < 16
  fits : ¬ FileFits fbuf → code ≠ 0
  headers : 16 < num_segs fbuf → ∀ p ∈ code_reads a pgldaddr fbuf, 16 + 4 * num_segs fbuf ≤ p

/-- What a file must be like for the load to keep to its bounds. -/
def Bounded (fbuf : List Byte) : Prop :=
  if num_segs fbuf ≤ 16 then FileFits fbuf
  else
    contents (header_of fbuf).segs = 0 ∧ 80 ≤ fbuf.length ∧
      (FileFits fbuf ∨ TooLarge (header_of fbuf).split (header_of fbuf).segs)

section bounds

variable {a : LoaderAddressing} {pgldaddr lpb_addr : BitVec 32} {fbuf : List Byte}
  {m : HostedMemory}

theorem table_indices_lt : ∀ i ∈ table_indices a fbuf, i < 16 := by
  intro i hi
  unfold table_indices at hi
  split at hi
  · cases hi
  · rename_i h hh
    exact (List.mem_range.mp hi).trans_le (parse_header_ok hh)

/-- A file that is refused is read no further than the first four bytes. -/
theorem loadBounds_of_refused (hacc : ¬ Accepted a.accepts_segmented_programs fbuf) :
    LoadBounds a pgldaddr fbuf (pgmld_load a pgldaddr lpb_addr fbuf m).2 := by
  have hparse := (parse_header_eq a.accepts_segmented_programs fbuf).trans (if_neg hacc)
  have hcode : code_reads a pgldaddr fbuf = [] := by rw [code_reads, hparse]
  have htable : table_indices a fbuf = [] := by rw [table_indices, hparse]
  refine ⟨?_, table_indices_lt, ?_, ?_⟩
  · intro p hp
    rw [pgmld_reads, hcode, htable] at hp
    split_ifs at hp with hshort
    · cases hp
    · simp only [header_reads, List.length_nil, List.range_zero, List.flatMap_nil, List.append_nil,
        List.mem_cons, List.not_mem_nil, or_false] at hp
      omega
  · intro _
    rw [pgmld_load_code, if_neg hacc]
    decide
  · intro _ p hp
    rw [hcode] at hp
    cases hp

variable (hacc : Accepted a.accepts_segmented_programs fbuf)

include hacc in
theorem code_reads_eq : code_reads a pgldaddr fbuf =
    List.range' (16 + 4 * clamped fbuf) (contents (header_of fbuf).segs) := by
  rw [code_reads, (parse_header_eq _ fbuf).trans (if_pos hacc)]
  exact load_reads_eq _ _ _ _ _

include hacc in
theorem table_indices_eq : table_indices a fbuf = List.range (clamped fbuf) := by
  rw [table_indices, (parse_header_eq _ fbuf).trans (if_pos hacc)]
  dsimp only
  rw [header_of, List.length_map, List.length_range]

include hacc in
/-- **The reads stay in the file** exactly when the headers and the contents the loader takes do. -/
theorem reads_iff : (∀ p ∈ pgmld_reads a pgldaddr fbuf, p < fbuf.length) ↔
    16 + 4 * clamped fbuf + contents (header_of fbuf).segs ≤ fbuf.length := by
  have hlen := hacc.1
  have hmem : ∀ p, p ∈ pgmld_reads a pgldaddr fbuf ↔ p < 4 ∨
      (16 ≤ p ∧ p < 16 + 4 * clamped fbuf + contents (header_of fbuf).segs) := by
    intro p
    rw [pgmld_reads, if_neg (not_lt.mpr hlen), code_reads_eq hacc, table_indices_eq hacc,
      List.length_range, List.mem_append, List.mem_append, mem_header_reads, List.mem_range'_1]
    simp only [List.mem_cons, List.not_mem_nil, or_false]
    omega
  constructor
  · intro h
    by_contra hlt
    have hlast := h (16 + 4 * clamped fbuf + contents (header_of fbuf).segs - 1)
      ((hmem _).mpr (.inr ⟨by omega, by omega⟩))
    omega
  · intro h p hp
    rcases (hmem p).mp hp with hp | hp <;> omega

include hacc in
theorem loadBounds_iff :
    LoadBounds a pgldaddr fbuf (pgmld_load a pgldaddr lpb_addr fbuf m).2 ↔ Bounded fbuf := by
  have hreads := @reads_iff a pgldaddr fbuf hacc
  have hcode := pgmld_load_code a pgldaddr lpb_addr fbuf m
  rw [if_pos hacc] at hcode
  unfold Bounded
  by_cases hn : num_segs fbuf ≤ 16
  · have hclamped : clamped fbuf = (num_segs fbuf).toNat := min_eq_left (by omega)
    have hfits : FileFits fbuf ↔
        16 + 4 * clamped fbuf + contents (header_of fbuf).segs ≤ fbuf.length := by
      rw [FileFits, ← hclamped]
      rfl
    rw [if_pos hn, hfits]
    constructor
    · exact fun h => hreads.mp h.reads
    · exact fun h => ⟨hreads.mpr h, table_indices_lt, fun hf => absurd (hfits.mpr h) hf,
        fun hlt => absurd hlt (not_lt.mpr hn)⟩
  · have hclamped : clamped fbuf = 16 := min_eq_right (by omega)
    rw [if_neg hn]
    rw [hclamped] at hreads
    constructor
    · intro h
      have hempty : contents (header_of fbuf).segs = 0 := by
        by_contra hne
        have hmem : 16 + 4 * 16 ∈ code_reads a pgldaddr fbuf := by
          rw [code_reads_eq hacc, hclamped, List.mem_range'_1]
          omega
        have hle := h.headers (not_le.mp hn) _ hmem
        omega
      refine ⟨hempty, le_trans (Nat.le_add_right _ _) (hreads.mp h.reads), ?_⟩
      by_contra hnot
      rw [not_or] at hnot
      rw [if_neg hnot.2] at hcode
      exact h.fits hnot.1 hcode
    · rintro ⟨hempty, hlen, hor⟩
      refine ⟨hreads.mpr (by omega), table_indices_lt, ?_, ?_⟩
      · intro hf
        rw [hcode, if_pos (hor.resolve_left hf)]
        decide
      · intro _ p hp
        rw [code_reads_eq hacc, hempty] at hp
        cases hp

end bounds

/-- **The loader keeps to its bounds exactly on files it refuses and on files that hold what their
headers say**, with a count of at most sixteen; on a larger count only where the sixteen segments it
takes have no contents. -/
theorem pgmld_bounds (a : LoaderAddressing) (pgldaddr lpb_addr : BitVec 32) (fbuf : List Byte)
    (m : HostedMemory) :
    LoadBounds a pgldaddr fbuf (pgmld_load a pgldaddr lpb_addr fbuf m).2 ↔
      (Accepted a.accepts_segmented_programs fbuf → Bounded fbuf) := by
  by_cases hacc : Accepted a.accepts_segmented_programs fbuf
  · rw [loadBounds_iff hacc, forall_prop_of_true hacc]
  · exact iff_of_true (loadBounds_of_refused hacc) fun h => absurd h hacc

/-- A combined program whose one text segment has four bytes that are not in the file. -/
def truncatedProgram : List Byte :=
  [0xee, 0x02, 0, 1, 0, 0, 0, 4, 0, 0, 0, 0, 0, 0, 0, 0, 0, 3, 0, 4]

/-- A file without its text is loaded, with whatever lies behind it in memory, and accepted. -/
theorem truncatedProgram_read : ¬ LoadBounds Z8002LoaderAddressing 0x01000000 truncatedProgram
    (pgmld_load Z8002LoaderAddressing 0x01000000 0x100 truncatedProgram
      ⟨.z8002 Z8002Memory.initial, fun _ => 0⟩).2 := by
  intro h
  exact absurd (h.reads 20 (by decide +kernel)) (by decide)

end Cpm8000.Host
