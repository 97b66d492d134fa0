/-
# What a loaded program reads of itself

The basepage gives the running program three ranges: its text, its data and its BSS.  The loader
puts the segments into their space in the order of the file and reports for each part where the
first of its segments begins and how long all of them are.

`Faithful` says that the program finds in every byte of the ranges what the file has there, through
the banks that are set for it.  `space_image` is what the loader really puts into a space;
`bdos_pgmld_faithful_iff` compares the two: a program is loaded faithfully exactly when each part
stands in its space in one piece.
-/
import Cpm8000.Host.LoadFailure

namespace Cpm8000.Host

open Cpm8000.Sys

/-! ## 1. The contents of a file -/

/-- The contents of a list of segments with what each is loaded as.  The contents that are in the
file stand there one behind the other; `bytes pos len` is what the file has from `pos` on. -/
def seg_pieces (bytes : ℕ → ℕ → List Byte) : ℕ → List XSeg → List (Part × List Byte)
  | _, [] => []
  | pos, seg :: segs =>
    match Part.of seg.type with
    | some p =>
      (p, if p = .bss then List.replicate seg.length.toNat 0 else bytes pos seg.length.toNat) ::
        seg_pieces bytes (if p = .bss then pos else pos + seg.length.toNat) segs
    | none => seg_pieces bytes pos segs

/-- The contents a file says it has. -/
def file_pieces (fbuf : List Byte) : List (Part × List Byte) :=
  seg_pieces (slice fbuf) (16 + 4 * (num_segs fbuf).toNat)
    ((List.range (num_segs fbuf).toNat).map (seg_at fbuf))

/-- The contents the loader takes: those of sixteen segments at the most, from behind the last
header it has taken, and zeros past the end of the file. -/
def loaded_pieces (fbuf : List Byte) : List (Part × List Byte) :=
  seg_pieces (fun pos len => (List.range len).map fun j => fbuf.getD (pos + j) 0)
    (header_of fbuf).code_data (header_of fbuf).segs

/-- The bytes of one part, all its segments together. -/
def part_bytes (p : Part) (pieces : List (Part × List Byte)) : List Byte :=
  (pieces.filter fun x => x.1 = p).flatMap Prod.snd

/-- The bytes of one space, in the order of the segments. -/
def space_bytes (split sp : Bool) (pieces : List (Part × List Byte)) : List Byte :=
  (pieces.filter fun x => x.1.space split = sp).flatMap Prod.snd

/-- The `k`-th byte of a part: what the file has, or the zero of the BSS. -/
def part_byte (fbuf : List Byte) : Part → ℕ → Option Byte
  | .text, k => (part_bytes .text (file_pieces fbuf))[k]?
  | .data, k => (part_bytes .data (file_pieces fbuf))[k]?
  | .bss, _ => some 0

/-- What the loader puts into a space. -/
def space_image (fbuf : List Byte) (sp : Bool) : List Byte :=
  space_bytes (header_of fbuf).split sp (loaded_pieces fbuf)

/-! ## 2. The ranges of the basepage -/

namespace Results

def start (r : Results) : Part → BitVec 32
  | .text => r.code_addr
  | .data => r.data_addr
  | .bss => r.bss_addr

def size (r : Results) : Part → ℕ
  | .text => r.text_size
  | .data => r.data_size
  | .bss => r.bss_size

/-- The byte the running program reads as the `k`-th of a part: the text is fetched, the rest is
read as data, in normal mode. -/
def cell (map : MemoryMap) (r : Results) (p : Part) (k : ℕ) : Phys :=
  map.cpu_physical (r.start p + BitVec.ofNat 32 k) (p = .text) false

end Results

/-- **A faithful load**: the program finds its contents in the ranges of its basepage. -/
def Faithful (fbuf : List Byte) (r : Results) (m : HostedMemory) : Prop :=
  ∀ p, ∀ k < r.size p, part_byte fbuf p k = some (m.m_data (r.cell m.map p k))

/-! ## 3. The image of a plan -/

/-- The bytes of the spaces are those of the plan. -/
structure Plan.Images (split : Bool) (code : ℕ → Byte) (P : Plan) (img : Bool → List Byte) :
    Prop where
  length : ∀ sp, (img sp).length = P.off sp
  byte : ∀ p k, k < P.size p → (img (p.space split))[P.loc p k]? = some (P.byte code p k)

/-- The loader's bytes of a range of the file. -/
def range_bytes (code : ℕ → Byte) (pos len : ℕ) : List Byte :=
  (List.range len).map fun j => code (pos + j)

section image

variable {split : Bool} {code : ℕ → Byte} {P : Plan} {img : Bool → List Byte}

/-- The contents of one more segment. -/
def piece (code : ℕ → Byte) (P : Plan) (p : Part) (slen : ℕ) : List Byte :=
  if p = .bss then List.replicate slen 0 else range_bytes code P.file slen

theorem length_piece (p : Part) (slen : ℕ) : (piece code P p slen).length = slen := by
  rw [piece]
  split
  · exact List.length_replicate
  · rw [range_bytes, List.length_map, List.length_range]

theorem piece_getElem {p : Part} {slen j : ℕ} (hj : j < slen) :
    (piece code P p slen)[j]? =
      some ((P.addPart split p slen).byte code p (P.size p + j)) := by
  rw [piece, Plan.byte, Plan.addPart_src_new]
  split
  · exact List.getElem?_replicate_of_lt hj
  · rw [range_bytes, List.getElem?_map, List.getElem?_range hj]
    rfl

/-- **One more segment**: its contents come behind those of its space. -/
theorem Plan.Images.addPart (hP : P.Ok split) (h : P.Images split code img) (p : Part)
    (slen : ℕ) : (P.addPart split p slen).Images split code
      fun sp => img sp ++ if p.space split = sp then piece code P p slen else [] where
  length sp := by
    rw [List.length_append, h.length]
    by_cases hsp : p.space split = sp
    · rw [if_pos hsp, length_piece, ← hsp, addPart_off_self]
    · rw [if_neg hsp, addPart_off_of_ne (Ne.symm hsp)]
      rfl
  byte q k hk := by
    rcases addPart_cases hk with hold | ⟨rfl, j, hj, rfl⟩
    · have hlt := hP.lt q k hold
      rw [← h.length] at hlt
      rw [addPart_loc_old hold, List.getElem?_append_left hlt, h.byte q k hold, Plan.byte,
        Plan.byte, addPart_src_old hold]
    · rw [addPart_loc_new, if_pos rfl, ← h.length, List.getElem?_append_right (Nat.le_add_right _ _),
        Nat.add_sub_cancel_left]
      exact piece_getElem hj

theorem space_bytes_cons (sp : Bool) (x : Part × List Byte) (pieces : List (Part × List Byte)) :
    space_bytes split sp (x :: pieces) =
      (if x.1.space split = sp then x.2 else []) ++ space_bytes split sp pieces := by
  rw [space_bytes, space_bytes, List.filter_cons]
  by_cases h : x.1.space split = sp
  · rw [if_pos (decide_eq_true h), if_pos h, List.flatMap_cons]
  · rw [if_neg (by simpa using h), if_neg h, List.nil_append]

/-- **The run over the segments** puts their contents one behind the other. -/
theorem Plan.Images.foldl (base : ℕ) (segs : List XSeg) (hP : P.Ok split)
    (h : P.Images split (fun i => code (base + i)) img) :
    (segs.foldl (Plan.add split) P).Images split (fun i => code (base + i)) fun sp =>
      img sp ++ space_bytes split sp (seg_pieces (range_bytes code) (base + P.file) segs) := by
  induction segs generalizing P img with
  | nil => simpa [seg_pieces, space_bytes] using h
  | cons seg segs ih =>
    rw [List.foldl_cons, seg_pieces]
    cases hp : Part.of seg.type with
    | some p =>
      have hadd : P.add split seg = P.addPart split p seg.length.toNat := by rw [Plan.add, hp]
      have hfile : base + (P.addPart split p seg.length.toNat).file =
          if p = .bss then base + P.file else base + P.file + seg.length.toNat := by
        rw [Plan.addPart]
        split
        · rfl
        · exact (Nat.add_assoc _ _ _).symm
      have hpiece : piece (fun i => code (base + i)) P p seg.length.toNat =
          if p = .bss then List.replicate seg.length.toNat 0
            else range_bytes code (base + P.file) seg.length.toNat := by
        rw [piece, range_bytes, range_bytes]
        simp only [Nat.add_assoc]
      have hrest := ih (hP.addPart p seg.length.toNat) (h.addPart hP p seg.length.toNat)
      simp only [hfile, hpiece, List.append_assoc] at hrest
      simp only [hadd, space_bytes_cons]
      exact hrest
    | none =>
      by_cases hstack : seg.type = 2
      · have hadd : P.add split seg = { P with stack := P.stack + seg.length.toNat } := by
          rw [Plan.add, hp]
          exact if_pos hstack
        rw [hadd]
        exact @ih { P with stack := P.stack + seg.length.toNat } img ⟨hP.lt, hP.inj, hP.surj⟩
          ⟨h.length, h.byte⟩
      · have hadd : P.add split seg = P := by
          rw [Plan.add, hp]
          exact if_neg hstack
        rw [hadd]
        exact ih hP h

end image

/-- **What the loader puts into a space is the plan.** -/
theorem space_image_images (fbuf : List Byte) :
    (plan (header_of fbuf).split (header_of fbuf).segs).Images (header_of fbuf).split
      (fun i => fbuf.getD ((header_of fbuf).code_data + i) 0) (space_image fbuf) := by
  have hempty : Plan.empty.Images (header_of fbuf).split
      (fun i => fbuf.getD ((header_of fbuf).code_data + i) 0) fun _ => [] :=
    ⟨fun _ => rfl, fun _ _ h => absurd h (Nat.not_lt_zero _)⟩
  exact @Plan.Images.foldl _ (fun i => fbuf.getD i 0) _ _ (header_of fbuf).code_data
    (header_of fbuf).segs Plan.ok_empty hempty

/-! ## 4. Where a part is looked for -/

/-- A later byte of a part is placed behind an earlier one. -/
def Plan.Increasing (P : Plan) : Prop := ∀ p k l, k < l → l < P.size p → P.loc p k < P.loc p l

theorem Plan.Increasing.addPart {split : Bool} {P : Plan} (hP : P.Ok split) (h : P.Increasing)
    (p : Part) (slen : ℕ) : (P.addPart split p slen).Increasing := by
  intro q k l hkl hl
  rcases addPart_cases hl with hold | ⟨rfl, j, hj, rfl⟩
  · rw [addPart_loc_old hold, addPart_loc_old (hkl.trans hold)]
    exact h q k l hkl hold
  · rcases addPart_cases (hkl.trans hl) with hold | ⟨-, i, -, rfl⟩
    · rw [addPart_loc_old hold, addPart_loc_new]
      exact (hP.lt q k hold).trans_le (Nat.le_add_right _ _)
    · rw [addPart_loc_new, addPart_loc_new]
      omega

theorem plan_increasing (split : Bool) (segs : List XSeg) : (plan split segs).Increasing := by
  have hrun : ∀ P : Plan, P.Ok split → P.Increasing →
      (segs.foldl (Plan.add split) P).Increasing := by
    induction segs with
    | nil => exact fun P _ h => h
    | cons seg segs ih =>
      intro P hP h
      refine ih _ (hP.add seg) ?_
      unfold Plan.add
      split
      · exact h.addPart hP _ _
      · split_ifs
        · exact h
        · exact h
  exact hrun _ Plan.ok_empty fun _ _ _ _ h => absurd h (Nat.not_lt_zero _)

/-- The byte a contiguous part would have at `k` is not behind the part's own. -/
theorem Plan.Increasing.add_le {P : Plan} (h : P.Increasing) {p : Part} {k : ℕ}
    (hk : k < P.size p) : P.loc p 0 + k ≤ P.loc p k := by
  induction k with
  | zero => exact Nat.le_refl _
  | succ k ih =>
    have hprev := ih (Nat.lt_of_succ_lt hk)
    have hstep := h p k (k + 1) (Nat.lt_succ_self k) hk
    omega

/-- The page the running program reads at a tag, its banks set for the given tags. -/
def MemoryMap.cpu_page (map : MemoryMap) (code_tag data_tag : BitVec 16) (space : Bool)
    (tag : BitVec 16) : ℕ :=
  match map with
  | .segmented _ => map.page space tag
  | .z8002 _ => map.page false (if space then code_tag else data_tag)

theorem MemoryMap.Reachable.toNat_cpu {map : MemoryMap} (h : map.Reachable)
    (code_tag data_tag : BitVec 16) (space : Bool) (tag offset : BitVec 16) :
    ((map.configure_program code_tag data_tag).cpu_physical (tagged tag offset) space false).toNat =
      65536 * map.cpu_page code_tag data_tag space tag + offset.toNat := by
  cases map with
  | segmented s => exact h.toNat_tagged space tag offset
  | z8002 s =>
    have hphysical : ((MemoryMap.z8002 s).configure_program code_tag data_tag).cpu_physical
        (tagged tag offset) space false =
        (MemoryMap.z8002 s).tagged_physical
          (tagged (if space then code_tag else data_tag) offset) false := by
      simp only [MemoryMap.configure_program, MemoryMap.cpu_physical, Z8002Memory.cpu_physical,
        Z8002Memory.configure_program, MemoryMap.tagged_physical, Z8002Memory.tagged_physical,
        tagOf_tagged, offsetOf_tagged, Bool.false_eq_true, if_false]
      cases space <;> rfl
    rw [hphysical]
    exact h.toNat_tagged false _ offset

/-- **Code is fetched from where it is stored.** -/
def Fetched (map : MemoryMap) (t : Target) (exec_tag : BitVec 16) : Prop :=
  map.cpu_page t.code_load_tag t.data_load_tag true exec_tag = map.page false t.code_load_tag

/-- Data is read from where it is stored. -/
theorem MemoryMap.cpu_page_data (map : MemoryMap) (code_tag data_tag : BitVec 16) :
    map.cpu_page code_tag data_tag false data_tag = map.page false data_tag := by
  cases map <;> rfl

/-- The tag of a part's address in the basepage. -/
def start_tag (t : Target) (exec_tag : BitVec 16) (p : Part) : BitVec 16 :=
  if p = .text then exec_tag else t.data_load_tag

section ranges

variable {map : MemoryMap} {t : Target} {s : LoadState} {P : Plan} {code : ℕ → Byte}
  {segmented : Bool} {exec : BitVec 16} (hT : Tracks t code s P)

include hT

theorem results_size (p : Part) : (load_results t segmented exec s).size p = P.size p := by
  rw [← hT.size]
  cases p <;> rfl

/-- The basepage has the place of a part's first byte. -/
theorem results_start (hb : t.tpa_base = 0) {p : Part} (hp : 0 < P.size p) :
    (load_results t segmented exec s).start p =
      load_addr (start_tag t exec p) 0 (P.loc p 0) := by
  have hloc := hT.loc p hp
  rw [← hb, ← hloc]
  cases p with
  | text => rfl
  | data => rfl
  | bss =>
    have hsize : s.bss_size = P.size .bss := congrFun hT.size .bss
    exact if_pos (hsize.symm ▸ hp)

/-- The address at which the program looks for a byte of a part. -/
theorem results_start_add (hb : t.tpa_base = 0) {p : Part} (hp : 0 < P.size p) {k : ℕ}
    (hk : P.loc p 0 + k < 65536) :
    (load_results t segmented exec s).start p + BitVec.ofNat 32 k =
      tagged (start_tag t exec p) (BitVec.ofNat 16 (P.loc p 0 + k)) := by
  have htag := (start_tag t exec p).isLt
  rw [results_start hT hb hp, load_addr_of_lt (by omega)]
  apply BitVec.eq_of_toNat_eq
  rw [BitVec.toNat_add, toNat_tagged, toNat_tagged, BitVec.toNat_ofNat, BitVec.toNat_ofNat,
    BitVec.toNat_ofNat]
  omega

/-- **The byte the program reads.** -/
theorem toNat_cell (hmap : map.Reachable) (hb : t.tpa_base = 0) {p : Part} (hp : 0 < P.size p)
    {k : ℕ} (hk : P.loc p 0 + k < 65536) :
    ((load_results t segmented exec s).cell
        (map.configure_program t.code_load_tag t.data_load_tag) p k).toNat =
      65536 * map.cpu_page t.code_load_tag t.data_load_tag (p = .text) (start_tag t exec p) +
        (P.loc p 0 + k) := by
  have hk16 : P.loc p 0 + k < 2 ^ 16 := hk
  rw [Results.cell, results_start_add hT hb hp hk, hmap.toNat_cpu, BitVec.toNat_ofNat,
    Nat.mod_eq_of_lt hk16]

/-- A part that is fetched or read from its page is read at the plan's offsets. -/
theorem cell_eq (hmap : map.Reachable) (hS : t.Sound map) {p : Part}
    (hf : p = .text → Fetched map t exec) (hp : 0 < P.size p) {k : ℕ}
    (hk : P.loc p 0 + k < 65536) :
    (load_results t segmented exec s).cell
        (map.configure_program t.code_load_tag t.data_load_tag) p k =
      map.tagged_physical (load_addr (t.tag (p.space t.split)) 0 (P.loc p 0 + k)) false := by
  have hk16 : P.loc p 0 + k < 2 ^ 16 := hk
  have hpage : map.cpu_page t.code_load_tag t.data_load_tag (p = .text) (start_tag t exec p) =
      map.page false (t.tag (p.space t.split)) := by
    cases p with
    | text => exact hf rfl
    | data => exact (map.cpu_page_data _ _).trans (congrArg (map.page false) hS.tag_split.symm)
    | bss => exact (map.cpu_page_data _ _).trans (congrArg (map.page false) hS.tag_split.symm)
  apply BitVec.eq_of_toNat_eq
  rw [toNat_cell hT hmap hS.base hp hk, load_addr_of_lt hk, hmap.toNat_tagged, BitVec.toNat_ofNat,
    Nat.mod_eq_of_lt hk16, hpage]

end ranges

/-! ## 5. The memory after the load -/

/-- The memory a load leaves when it returns 0. -/
def loaded_of (a : LoaderAddressing) (pgldaddr lpb_addr : BitVec 32) (fbuf : List Byte)
    (m : HostedMemory) : HostedMemory :=
  write_lpb lpb_addr (results_of a pgldaddr fbuf)
    (write_basepage (results_of a pgldaddr fbuf) (stored_of a pgldaddr fbuf m))

/-- The bytes the loader writes into the parameter block. -/
def lpb_cells (map : MemoryMap) (lpb_addr : BitVec 32) (r : Results) : List Phys :=
  (lpb_stores map lpb_addr r).map Prod.fst

theorem basepage_stores_configure (map : MemoryMap) (code_tag data_tag : BitVec 16) (r : Results) :
    basepage_stores (map.configure_program code_tag data_tag) r = basepage_stores map r := by
  simp only [basepage_stores, long_stores, word_stores, MemoryMap.configure_program_physical]

theorem lpb_stores_configure (map : MemoryMap) (code_tag data_tag : BitVec 16)
    (lpb_addr : BitVec 32) (r : Results) :
    lpb_stores (map.configure_program code_tag data_tag) lpb_addr r = lpb_stores map lpb_addr r := by
  simp only [lpb_stores, long_stores, word_stores, MemoryMap.configure_program_physical]

/-- **A load is three runs of stores**: the program, the basepage and the parameter block. -/
theorem loaded_of_eq (a : LoaderAddressing) (pgldaddr lpb_addr : BitVec 32) (fbuf : List Byte)
    (m : HostedMemory) : loaded_of a pgldaddr lpb_addr fbuf m =
      ⟨m.map.configure_program (target_of a pgldaddr fbuf).code_load_tag
          (target_of a pgldaddr fbuf).data_load_tag,
        storeAll (lpb_stores m.map lpb_addr (results_of a pgldaddr fbuf))
          (storeAll (basepage_stores m.map (results_of a pgldaddr fbuf))
            (storeAll (program_stores m.map a pgldaddr fbuf) m.m_data))⟩ := by
  rw [loaded_of, stored_of_eq, write_basepage_eq, write_lpb_eq]
  dsimp only
  rw [basepage_stores_configure, lpb_stores_configure]

/-- No byte the program reads of itself is one the loader writes into the parameter block. -/
def LpbApart (map : MemoryMap) (a : LoaderAddressing) (pgldaddr lpb_addr : BitVec 32)
    (fbuf : List Byte) : Prop :=
  let t := target_of a pgldaddr fbuf
  let r := results_of a pgldaddr fbuf
  ∀ p, ∀ k < r.size p, r.cell (map.configure_program t.code_load_tag t.data_load_tag) p k ∉
    lpb_cells map lpb_addr r

/-- The plan of a file. -/
def plan_of (fbuf : List Byte) : Plan := plan (header_of fbuf).split (header_of fbuf).segs

/-- **One piece**: from its first byte on, the image of a part's space is the part. -/
def OnePiece (fbuf : List Byte) (p : Part) : Prop :=
  ∀ k < (plan_of fbuf).size p, part_byte fbuf p k =
    (space_image fbuf (p.space (header_of fbuf).split))[(plan_of fbuf).loc p 0 + k]?

/-- **What the load of a file needs**: its parts in one piece.  Text that is not fetched from where
it is stored has to be in the memory already. -/
structure Readable (a : LoaderAddressing) (pgldaddr : BitVec 32) (fbuf : List Byte)
    (m : HostedMemory) : Prop where
  pieces : ∀ p, (p = .text → Fetched m.map (target_of a pgldaddr fbuf)
    (load_exec_tag a pgldaddr (header_of fbuf).split)) → OnePiece fbuf p
  unfetched : ¬ Fetched m.map (target_of a pgldaddr fbuf)
      (load_exec_tag a pgldaddr (header_of fbuf).split) →
    ∀ k < (plan_of fbuf).size .text, part_byte fbuf .text k =
      some (m.m_data (m.map.tagged_physical
        (tagged (load_exec_tag a pgldaddr (header_of fbuf).split)
          (BitVec.ofNat 16 ((plan_of fbuf).loc .text 0 + k))) true))

/-- **The code of a split program is fetched from where it is stored.** -/
theorem HostedLoader.fetched_of_split {a : LoaderAddressing} {map : MemoryMap}
    {mrt : List (BitVec 32)} (h : HostedLoader a map mrt) (hmap : map.Reachable)
    (pgldaddr : BitVec 32) :
    Fetched map (load_target a pgldaddr true) (load_exec_tag a pgldaddr true) := by
  cases h with
  | z8001 s =>
    obtain ⟨seg0, hs⟩ : ∃ seg0, s.Live seg0 := by
      rcases hmap.cases_live with ⟨s', seg0, hs', hl⟩ | ⟨s', hs'⟩
      · cases hs'
        exact ⟨seg0, hl⟩
      · cases hs'
    have hcode := hs.page true 0x08
    have hdata := hs.page false 0x0a
    exact hcode.trans (Eq.trans (by cases seg0 <;> decide) hdata.symm)
  | z8002 s => exact rfl

theorem fetched_z8002 (s : Z8002Memory) (t : Target) (exec : BitVec 16) :
    Fetched (.z8002 s) t exec := rfl

theorem page_eq_of_nat {p q o o' : ℕ} (ho : o < 65536) (ho' : o' < 65536)
    (h : 65536 * p + o = 65536 * q + o') : p = q := by
  omega

theorem div_page {c : Phys} {p o : ℕ} (ho : o < 65536) (h : c.toNat = 65536 * p + o) :
    c.toNat / SEGLEN = p := by
  rw [SEGLEN]
  omega

section loaded

variable {a : LoaderAddressing} {pgldaddr lpb_addr : BitVec 32} {fbuf : List Byte}
  {m : HostedMemory} (hmap : m.map.Reachable) (hS : (target_of a pgldaddr fbuf).Sound m.map)
  (hfits : Fits (target_of a pgldaddr fbuf) (header_of fbuf).segs)

include hfits in
/-- The byte a contiguous part would have at `k` is a byte of the part's space. -/
theorem loc_add_lt {p : Part} {k : ℕ} (hk : k < (plan_of fbuf).size p) :
    (plan_of fbuf).loc p 0 + k < (plan_of fbuf).off (p.space (header_of fbuf).split) ∧
      (plan_of fbuf).loc p 0 + k < 65536 := by
  have hP := plan_ok (header_of fbuf).split (header_of fbuf).segs
  have hle := (plan_increasing (header_of fbuf).split (header_of fbuf).segs).add_le hk
  have hlt := hP.lt p k hk
  obtain ⟨-, htop, hsplit⟩ := hfits
  have hseg := (loc_lt_of_top hP htop (fun h => (hsplit h).1) hk).1
  exact ⟨lt_of_le_of_lt hle hlt, lt_of_le_of_lt hle hseg⟩

include hmap hS hfits in
/-- **The bytes of the program** are where the plan has them, once the basepage is written too. -/
theorem loaded_program {q : Part} {l : ℕ} (hl : l < (plan_of fbuf).size q) :
    storeAll (basepage_stores m.map (results_of a pgldaddr fbuf))
        (storeAll (program_stores m.map a pgldaddr fbuf) m.m_data)
        (m.map.tagged_physical ((plan_of fbuf).addr (target_of a pgldaddr fbuf) q l) false) =
      (plan_of fbuf).byte (fun i => fbuf.getD ((header_of fbuf).code_data + i) 0) q l := by
  have hP := plan_ok (header_of fbuf).split (header_of fbuf).segs
  have hT := load_segs_tracks (target_of a pgldaddr fbuf)
    (fun i => fbuf.getD ((header_of fbuf).code_data + i) 0) (header_of fbuf).segs
  obtain ⟨hroom, htop, hsplit⟩ := hfits
  have hplaced := @placed_of_fits _ _ _ _ _ hmap hS hP hT (header_of fbuf).segmented
    (load_exec_tag a pgldaddr (header_of fbuf).split) hroom htop hsplit
  have hmem : (plan_of fbuf).store (target_of a pgldaddr fbuf)
      (fun i => fbuf.getD ((header_of fbuf).code_data + i) 0) q l ∈
      (loop_of a pgldaddr fbuf).stores := (hT.mem_stores _).mpr ⟨q, l, hl, rfl⟩
  have hbase := hplaced.bp_disjoint _ hmem
  refine (storeAll_of_notMem hbase).trans (storeAll_of_agree ?_ ?_)
  · rw [program_stores, List.map_map]
    exact List.mem_map.mpr ⟨_, hmem, rfl⟩
  · rintro s hs heq
    rw [program_stores] at hs
    obtain ⟨st, hst, rfl⟩ := List.mem_map.mp hs
    obtain ⟨q', l', hl', rfl⟩ := (hT.mem_stores st).mp hst
    obtain ⟨rfl, rfl⟩ := addr_inj hS hP hmap htop hsplit hl' hl heq
    rfl

include hmap hS hfits in
/-- **What the program reads of a part** that is read where it is stored: the image of its space. -/
theorem loaded_cell (happart : LpbApart m.map a pgldaddr lpb_addr fbuf) {p : Part} {k : ℕ}
    (hf : p = .text → Fetched m.map (target_of a pgldaddr fbuf)
      (load_exec_tag a pgldaddr (header_of fbuf).split)) (hk : k < (plan_of fbuf).size p) :
    (space_image fbuf (p.space (header_of fbuf).split))[(plan_of fbuf).loc p 0 + k]? =
      some ((loaded_of a pgldaddr lpb_addr fbuf m).m_data
        ((results_of a pgldaddr fbuf).cell (loaded_of a pgldaddr lpb_addr fbuf m).map p k)) := by
  have hP := plan_ok (header_of fbuf).split (header_of fbuf).segs
  have hT := load_segs_tracks (target_of a pgldaddr fbuf)
    (fun i => fbuf.getD ((header_of fbuf).code_data + i) 0) (header_of fbuf).segs
  obtain ⟨hoff, hseg⟩ := loc_add_lt hfits hk
  have hnot := happart p k ((results_size hT p).symm ▸ hk)
  have hcell := @cell_eq m.map _ _ _ _ (header_of fbuf).segmented _ hT hmap hS p hf
    (Nat.zero_lt_of_lt hk) k hseg
  -- the byte of the program that is there
  obtain ⟨q, l, hl, hsp, hloc⟩ := hP.surj _ _ hoff
  have himage := (space_image_images fbuf).byte q l hl
  rw [hsp] at himage
  rw [loaded_of_eq]
  dsimp only at hnot ⊢
  rw [storeAll_of_notMem hnot]
  have haddr : m.map.tagged_physical ((plan_of fbuf).addr (target_of a pgldaddr fbuf) q l) false =
      (results_of a pgldaddr fbuf).cell (m.map.configure_program
        (target_of a pgldaddr fbuf).code_load_tag (target_of a pgldaddr fbuf).data_load_tag) p k := by
    refine Eq.trans ?_ hcell.symm
    rw [Plan.addr, hS.base]
    exact congrArg₂ (fun sp o => m.map.tagged_physical
      (load_addr ((target_of a pgldaddr fbuf).tag sp) 0 o) false) hsp hloc
  rw [← haddr, loaded_program hmap hS hfits hl]
  exact (congrArg _ hloc.symm).trans himage

include hmap hS hfits in
/-- **Text that is fetched from elsewhere**: what is there was there before the load. -/
theorem loaded_unfetched (happart : LpbApart m.map a pgldaddr lpb_addr fbuf)
    (hsplit : (header_of fbuf).split = false)
    (hf : ¬ Fetched m.map (target_of a pgldaddr fbuf)
      (load_exec_tag a pgldaddr (header_of fbuf).split)) {k : ℕ}
    (hk : k < (plan_of fbuf).size .text) :
    (loaded_of a pgldaddr lpb_addr fbuf m).m_data ((results_of a pgldaddr fbuf).cell
        (loaded_of a pgldaddr lpb_addr fbuf m).map .text k) =
      m.m_data (m.map.tagged_physical (tagged (load_exec_tag a pgldaddr (header_of fbuf).split)
        (BitVec.ofNat 16 ((plan_of fbuf).loc .text 0 + k))) true) := by
  have hP := plan_ok (header_of fbuf).split (header_of fbuf).segs
  have hT := load_segs_tracks (target_of a pgldaddr fbuf)
    (fun i => fbuf.getD ((header_of fbuf).code_data + i) 0) (header_of fbuf).segs
  have hpos := Nat.zero_lt_of_lt hk
  obtain ⟨-, hseg⟩ := loc_add_lt hfits hk
  have hcell := @toNat_cell m.map _ _ _ _ (header_of fbuf).segmented
    (load_exec_tag a pgldaddr (header_of fbuf).split) hT hmap hS.base .text hpos k hseg
  have hnot := happart .text k ((results_size hT .text).symm ▸ hk)
  have hmerged := hS.merged hsplit
  obtain ⟨hroom, htop, hcode⟩ := hfits
  have hstk : (loop_of a pgldaddr fbuf).stk_size + BPLEN ≤ SEGLEN := by
    have hstack : (loop_of a pgldaddr fbuf).stk_size = DEFSTACK +
      (plan (target_of a pgldaddr fbuf).split (header_of fbuf).segs).stack := hT.stk_size
    omega
  rw [loaded_of_eq]
  dsimp only at hnot ⊢
  rw [storeAll_of_notMem hnot, storeAll_of_notMem, storeAll_of_notMem]
  · -- the address is the same one for the program and for the emulator
    have haddr := @results_start_add _ _ _ _ (header_of fbuf).segmented
      (load_exec_tag a pgldaddr (header_of fbuf).split) hT hS.base .text hpos k hseg
    obtain ⟨map, data⟩ := m
    cases map with
    | segmented s => exact congrArg (fun addr =>
        data ((MemoryMap.segmented s).tagged_physical addr true)) haddr
    | z8002 s => exact absurd (fetched_z8002 s _ _) hf
  · -- the program is on another page
    intro hmem
    rw [program_stores, List.map_map] at hmem
    obtain ⟨st, hst, heq⟩ := List.mem_map.mp hmem
    obtain ⟨q, l, hl, rfl⟩ := (hT.mem_stores st).mp hst
    have hql := (loc_lt_of_top hP htop (fun h => (hcode h).1) hl).1
    have hql16 : (plan_of fbuf).loc q l < 2 ^ 16 := hql
    have htag : (target_of a pgldaddr fbuf).tag (q.space (target_of a pgldaddr fbuf).split) =
        (target_of a pgldaddr fbuf).code_load_tag := by
      cases q
      · rfl
      · exact congrArg (target_of a pgldaddr fbuf).tag hsplit
      · exact congrArg (target_of a pgldaddr fbuf).tag hsplit
    have hstore : (m.map.tagged_physical ((plan_of fbuf).addr (target_of a pgldaddr fbuf) q l)
        false).toNat = 65536 * m.map.page false (target_of a pgldaddr fbuf).code_load_tag +
          (plan_of fbuf).loc q l := by
      have haddr : (plan_of fbuf).addr (target_of a pgldaddr fbuf) q l =
          tagged ((target_of a pgldaddr fbuf).tag (q.space (target_of a pgldaddr fbuf).split))
            (BitVec.ofNat 16 ((plan_of fbuf).loc q l)) := Plan.addr_of_lt hS hql
      rw [haddr, hmap.toNat_tagged, BitVec.toNat_ofNat, Nat.mod_eq_of_lt hql16, htag]
    exact hf (page_eq_of_nat hseg hql (hcell.symm.trans ((congrArg BitVec.toNat heq).symm.trans
      hstore)))
  · -- and so is the basepage
    intro hmem
    obtain ⟨hpage, -⟩ := mem_basepage_cells hmap hS hT hstk hmem
    exact hf ((div_page hseg hcell).symm.trans
      (hpage.trans (congrArg (m.map.page false) hmerged.symm)))

include hmap hS hfits in
/-- **A load is faithful exactly when the parts stand in one piece.** -/
theorem faithful_iff (hsplit : (header_of fbuf).split = true →
      Fetched m.map (target_of a pgldaddr fbuf) (load_exec_tag a pgldaddr (header_of fbuf).split))
    (happart : LpbApart m.map a pgldaddr lpb_addr fbuf) :
    Faithful fbuf (results_of a pgldaddr fbuf) (loaded_of a pgldaddr lpb_addr fbuf m) ↔
      Readable a pgldaddr fbuf m := by
  have hT := load_segs_tracks (target_of a pgldaddr fbuf)
    (fun i => fbuf.getD ((header_of fbuf).code_data + i) 0) (header_of fbuf).segs
  have hsize : ∀ p, (results_of a pgldaddr fbuf).size p = (plan_of fbuf).size p :=
    fun p => results_size hT p
  have hunsplit : ¬ Fetched m.map (target_of a pgldaddr fbuf)
      (load_exec_tag a pgldaddr (header_of fbuf).split) → (header_of fbuf).split = false :=
    fun hf => Bool.eq_false_iff.mpr fun h => hf (hsplit h)
  constructor
  · intro h
    refine ⟨fun p hp k hk => ?_, fun hf k hk => ?_⟩
    · rw [loaded_cell hmap hS hfits happart hp hk]
      exact h p k ((hsize p).symm ▸ hk)
    · rw [← loaded_unfetched hmap hS hfits happart (hunsplit hf) hf hk]
      exact h .text k ((hsize .text).symm ▸ hk)
  · intro h p k hk
    rw [hsize] at hk
    by_cases hp : p = .text → Fetched m.map (target_of a pgldaddr fbuf)
      (load_exec_tag a pgldaddr (header_of fbuf).split)
    · rw [← loaded_cell hmap hS hfits happart hp hk]
      exact h.pieces p hp k hk
    · obtain ⟨rfl, hf⟩ := Classical.not_imp.mp hp
      rw [loaded_unfetched hmap hS hfits happart (hunsplit hf) hf hk]
      exact h.unfetched hf k hk

end loaded

/-! ## 6. `bdos_pgmld` -/

/-- **The contents of an accepted program**: `bdos_pgmld` on a region of the BIOS, when it returns
0 for a program that fits and does not hold its own parameter block, has loaded it faithfully if
and only if its parts stand in one piece. -/
theorem bdos_pgmld_faithful_iff {fs : CpmFileSystem} {a : LoaderAddressing}
    {mrt : List (BitVec 32)} (hl : HostedLoader a fs.m_mem.map mrt)
    (hmap : fs.m_mem.map.Reachable) (caller_tag lpb_offset : BitVec 16)
    (hmrt : read_long fs.m_mem (tagged caller_tag lpb_offset + 4) ∈ mrt)
    (hret : (bdos_pgmld fs caller_tag lpb_offset a).2 = 0) :
    ∃ fs' fbuf,
      read_program fs (offsetOf (read_long fs.m_mem (tagged caller_tag lpb_offset))) =
        (fs', .ok fbuf) ∧
      let pgldaddr := read_long fs.m_mem (tagged caller_tag lpb_offset + 4)
      (Fits (target_of a pgldaddr fbuf) (header_of fbuf).segs →
        LpbApart fs'.m_mem.map a pgldaddr (tagged caller_tag lpb_offset) fbuf →
        (Faithful fbuf (results_of a pgldaddr fbuf)
            (bdos_pgmld fs caller_tag lpb_offset a).1.m_mem ↔
          Readable a pgldaddr fbuf fs'.m_mem)) := by
  obtain ⟨fs', fbuf, hread, hload⟩ := bdos_pgmld_zero hret
  refine ⟨fs', fbuf, hread, ?_⟩
  intro pgldaddr hfits happart
  have hmap' : fs'.m_mem.map = fs.m_mem.map := by
    rcases read_program_cases hmap
      (offsetOf (read_long fs.m_mem (tagged caller_tag lpb_offset))) with ⟨-, herr, -⟩ | ⟨_, -, -, hm⟩
    · rw [hread] at herr
      cases herr
    · rw [hread] at hm
      dsimp only at hm
      rw [hm]
  have hmem : (bdos_pgmld fs caller_tag lpb_offset a).1.m_mem =
      loaded_of a pgldaddr (tagged caller_tag lpb_offset) fbuf fs'.m_mem := by
    rw [bdos_pgmld]
    simp only [hread]
    rw [pgmld_load_eq] at hload ⊢
    split_ifs at hload ⊢
    rfl
  rw [hmem]
  have hS : (target_of a pgldaddr fbuf).Sound fs'.m_mem.map := by
    rw [hmap']
    exact hl.sound hmap hmrt (header_of fbuf).split
  refine faithful_iff (hmap' ▸ hmap) hS hfits (fun hsplit => ?_) happart
  rw [hmap', hsplit, target_of, hsplit]
  exact hl.fetched_of_split hmap pgldaddr

/-- A combined program of three bytes: one of text, one of data and one more of text. -/
def mixedProgram : List Byte :=
  [0xee, 0x02, 0, 3, 0, 0, 0, 3, 0, 0, 0, 0, 0, 0, 0, 0, 0, 3, 0, 1, 1, 5, 0, 1, 2, 3, 0, 1,
    0xaa, 0xbb, 0xcc]

theorem bdos_pgmld_faithful_iff_mixed :
    ∃ fs' fbuf, read_program (pgmld_fs mixedProgram)
        (offsetOf (read_long (pgmld_fs mixedProgram).m_mem (tagged 0 0x100))) = (fs', .ok fbuf) ∧
      let pgldaddr := read_long (pgmld_fs mixedProgram).m_mem (tagged 0 0x100 + 4)
      (Fits (target_of Z8002LoaderAddressing pgldaddr fbuf) (header_of fbuf).segs →
        LpbApart fs'.m_mem.map Z8002LoaderAddressing pgldaddr (tagged 0 0x100) fbuf →
        (Faithful fbuf (results_of Z8002LoaderAddressing pgldaddr fbuf)
            (bdos_pgmld (pgmld_fs mixedProgram) 0 0x100 Z8002LoaderAddressing).1.m_mem ↔
          Readable Z8002LoaderAddressing pgldaddr fbuf fs'.m_mem)) :=
  @bdos_pgmld_faithful_iff (pgmld_fs mixedProgram) _ _ (.z8002 _) .z8002 0 0x100
    (by decide +kernel) (by decide +kernel)

/-- **Text around data**: the program is accepted, and its second byte of text is its data. -/
theorem mixedProgram_not_faithful :
    (bdos_pgmld (pgmld_fs mixedProgram) 0 0x100 Z8002LoaderAddressing).2 = 0 ∧
      ¬ Faithful mixedProgram (results_of Z8002LoaderAddressing 0x01000000 mixedProgram)
        (bdos_pgmld (pgmld_fs mixedProgram) 0 0x100 Z8002LoaderAddressing).1.m_mem := by
  refine ⟨by decide +kernel, fun h => ?_⟩
  have hbyte := h .text 1 (by decide +kernel)
  revert hbyte
  decide +kernel

end Cpm8000.Host
