/-
# The room below a program's stack pointer

The loader asks for a stack of `stk_size` bytes and a basepage on top of the program, and the size
check leaves that much room at the end of the data segment. The basepage is put at the start of that
room and the stack pointer just below it, so that what a program pushes goes down into what the check
left between the program and the basepage, not into the stack it asked for.

`bdos_pgmld_stack_iff`: the stack of an accepted program is apart from the program exactly when the
data segment has room for the stack a second time.
-/
import Cpm8000.Host.LoadBounds

namespace Cpm8000.Host

open Cpm8000.Sys

/-! ## 1. Addresses past a segment -/

/-- An offset past the end of a segment sets bits of the tag. -/
theorem load_addr_eq (tag : BitVec 16) (off : ℕ) :
    load_addr tag 0 off = tagged (tag ||| BitVec.ofNat 16 (off / 65536)) (BitVec.ofNat 16 off) := by
  have hz : ((0 : BitVec 16)).toNat = 0 := rfl
  rw [load_addr, hz, Nat.zero_add]
  apply BitVec.eq_of_getLsbD_eq
  intro i hi
  have hdiv : off / 65536 = off >>> 16 := (Nat.shiftRight_eq_div_pow off 16).symm
  rw [BitVec.getLsbD_or, tagged, tagged, BitVec.getLsbD_append, BitVec.getLsbD_append,
    BitVec.getLsbD_or, BitVec.getLsbD_ofNat, BitVec.getLsbD_ofNat, BitVec.getLsbD_ofNat, hdiv,
    Nat.testBit_shiftRight]
  by_cases hlt : i < 16
  · simp [hlt, hi]
  · have hge : 16 + (i - 16) = i := by omega
    have hhigh : i - 16 < 16 := by omega
    simp [hlt, hi, hge, hhigh]

/-- What the stack needs of a target besides: no offset past the code segment leads to the page of
another data segment. -/
def Target.Carries (map : MemoryMap) (t : Target) : Prop :=
  t.code_load_tag ≠ t.data_load_tag → ∀ k < 16,
    map.page false (t.code_load_tag ||| BitVec.ofNat 16 k) ≠ map.page false t.data_load_tag

/-- **The regions' targets keep their carries apart.** -/
theorem HostedLoader.carries {a : LoaderAddressing} {map : MemoryMap} {mrt : List (BitVec 32)}
    (h : HostedLoader a map mrt) (hmap : map.Reachable) {pgldaddr : BitVec 32} (hp : pgldaddr ∈ mrt)
    (split : Bool) : (load_target a pgldaddr split).Carries map := by
  cases h with
  | z8001 s =>
    obtain ⟨seg0, hs⟩ : ∃ seg0, s.Live seg0 := by
      rcases hmap.cases_live with ⟨s', seg0, hs', hl⟩ | ⟨s', hs'⟩
      · cases hs'
        exact ⟨seg0, hl⟩
      · cases hs'
    have hpage : ∀ tag, (MemoryMap.segmented s).page false tag = dpage seg0 (tag.setWidth 7) :=
      fun tag => hs.page false tag
    have hpg : pgldaddr = 0x000a0000 ∨ pgldaddr = 0x00080000 := by
      simp only [z8001_mrt, List.mem_cons, List.not_mem_nil, or_false] at hp
      tauto
    intro hne k hk
    rw [hpage, hpage]
    revert hne k
    rcases hpg with rfl | rfl <;> cases split <;> cases seg0 <;> decide
  | z8002 s =>
    have hpg : pgldaddr = 0x01000000 ∨ pgldaddr = 0x02000000 := by
      simp only [z8002_mrt, List.mem_cons, List.not_mem_nil, or_false] at hp
      tauto
    intro hne k hk
    rw [page_z8002, page_z8002]
    revert hne k
    rcases hpg with rfl | rfl <;> cases split <;> decide

/-! ## 2. The bytes below the stack pointer -/

/-- The address of the `i`-th byte below the stack pointer. -/
def Results.stack_addr (r : Results) (i : ℕ) : BitVec 32 := r.sp_addr - BitVec.ofNat 32 (i + 1)

/-- **A reserved stack**: the `stk_size` bytes below the stack pointer are in the data segment, and
none of them is a byte of the program or of its basepage. -/
structure StackReserved (map : MemoryMap) (t : Target) (s : LoadState) (r : Results) : Prop where
  segment : ∀ i < s.stk_size, tagOf (r.stack_addr i) = t.data_load_tag
  program : ∀ i < s.stk_size, ∀ st ∈ s.stores,
    map.tagged_physical st.addr false ≠ map.tagged_physical (r.stack_addr i) false
  basepage : ∀ i < s.stk_size,
    map.tagged_physical (r.stack_addr i) false ∉ basepage_cells map r

/-- What the loader leaves between the basepage and the stack pointer. -/
def sp_gap (segmented : Bool) : ℕ := if segmented then 8 else 4

/-- The bytes of a data segment that a stack of this size takes: as much again as its size below
the stack pointer, and the basepage between the two. -/
def stack_need (P : Plan) (segmented : Bool) : ℕ :=
  2 * (DEFSTACK + P.stack) + BPLEN + sp_gap segmented

/-- The program leaves room for its stack twice. -/
def StackRoom (t : Target) (segmented : Bool) (segs : List XSeg) : Prop :=
  let P := plan t.split segs
  P.off t.split + stack_need P segmented ≤ SEGLEN ∧
    (t.code_load_tag = t.data_load_tag → P.off false + stack_need P segmented ≤ SEGLEN)

section stack

variable {map : MemoryMap} {t : Target} {s : LoadState} {P : Plan} {code : ℕ → Byte}
  {segmented : Bool} {exec : BitVec 16}

theorem toNat_stack_addr (hb : t.tpa_base = 0) (hle : s.stk_size ≤ 0x200000) {i : ℕ}
    (hi : i < s.stk_size) : ((load_results t segmented exec s).stack_addr i).toNat =
      (0x100000000 + 65536 * t.data_load_tag.toNat + 0xff00 - s.stk_size - sp_gap segmented -
        (i + 1)) % 0x100000000 := by
  have htag := t.data_load_tag.isLt
  have hsp : (load_results t segmented exec s).sp_addr =
      (load_results t segmented exec s).bp_addr - BitVec.ofNat 32 (sp_gap segmented) := by
    cases segmented <;> rfl
  have hgap : sp_gap segmented ≤ 8 := by cases segmented <;> decide
  rw [Results.stack_addr, hsp, BitVec.toNat_sub, BitVec.toNat_sub, toNat_bp_addr hb hle,
    BitVec.toNat_ofNat, BitVec.toNat_ofNat]
  omega

/-- A byte of a stack that is in the data segment. -/
theorem stack_addr_eq (hb : t.tpa_base = 0) (hle : s.stk_size ≤ 0x200000) {i : ℕ}
    (hi : i < s.stk_size) (hroom : s.stk_size + sp_gap segmented + (i + 1) ≤ 0xff00) :
    (load_results t segmented exec s).stack_addr i = tagged t.data_load_tag
      (BitVec.ofNat 16 (0xff00 - s.stk_size - sp_gap segmented - (i + 1))) := by
  have htag := t.data_load_tag.isLt
  apply BitVec.eq_of_toNat_eq
  rw [toNat_stack_addr hb hle hi, toNat_tagged, BitVec.toNat_ofNat]
  omega

/-- **The stack is in the data segment** exactly when the segment has room for twice the stack. -/
theorem stack_segment_iff (hb : t.tpa_base = 0) (hpos : 0 < s.stk_size)
    (hle : s.stk_size ≤ 0x200000) :
    (∀ i < s.stk_size, tagOf ((load_results t segmented exec s).stack_addr i) = t.data_load_tag) ↔
      2 * s.stk_size + sp_gap segmented ≤ 0xff00 := by
  have htag := t.data_load_tag.isLt
  constructor
  · intro h
    have hlast := h (s.stk_size - 1) (Nat.sub_lt hpos Nat.one_pos)
    have hnat := congrArg BitVec.toNat hlast
    have hgap : sp_gap segmented ≤ 8 := by cases segmented <;> decide
    rw [toNat_tagOf, toNat_stack_addr hb hle (Nat.sub_lt hpos Nat.one_pos)] at hnat
    omega
  · intro h i hi
    rw [stack_addr_eq hb hle hi (by omega), tagOf_tagged]

variable (hmap : map.Reachable) (hS : t.Sound map) (hP : P.Ok t.split) (hT : Tracks t code s P)
  (hle : s.stk_size ≤ 0x200000)

include hT in
theorem stk_size_pos : 0 < s.stk_size := by
  rw [hT.stk_size]
  exact Nat.lt_of_lt_of_le (by decide) (Nat.le_add_right DEFSTACK _)

include hT in
theorem stack_need_eq : stack_need P segmented = 2 * s.stk_size + BPLEN + sp_gap segmented := by
  rw [hT.stk_size, stack_need]

include hS hP hT hle in
/-- A space of the data segment ends below a reserved stack. -/
theorem off_le_of_reserved (h : StackReserved map t s (load_results t segmented exec s)) (sp : Bool)
    (htag : t.tag sp = t.data_load_tag) : P.off sp + stack_need P segmented ≤ SEGLEN := by
  have hpos := stk_size_pos hT
  have hseg := (stack_segment_iff hS.base hpos hle).mp h.segment
  have hlast : s.stk_size - 1 < s.stk_size := Nat.sub_lt hpos Nat.one_pos
  by_contra hlt
  rw [stack_need_eq hT, SEGLEN, BPLEN] at hlt
  -- the byte of the program at the offset of the last byte of the stack
  obtain ⟨p, k, hk, hsp, hloc⟩ :=
    hP.surj sp (0xff00 - s.stk_size - sp_gap segmented - s.stk_size) (by omega)
  have hmem : P.store t code p k ∈ s.stores := (hT.mem_stores _).mpr ⟨p, k, hk, rfl⟩
  refine h.program _ hlast _ hmem ?_
  have hone : s.stk_size - 1 + 1 = s.stk_size := Nat.sub_add_cancel hpos
  rw [stack_addr_eq hS.base hle hlast (by omega), hone, Plan.store, Plan.addr_of_lt hS (by omega),
    hsp, htag, hloc]

include hmap hS hP hT hle in
/-- **The stack is reserved exactly when the program leaves room for it twice.** -/
theorem stackReserved_iff (hC : t.Carries map) (hoff : P.off false < 0x100000) :
    StackReserved map t s (load_results t segmented exec s) ↔
      P.off t.split + stack_need P segmented ≤ SEGLEN ∧
        (t.code_load_tag = t.data_load_tag → P.off false + stack_need P segmented ≤ SEGLEN) := by
  have hpos := stk_size_pos hT
  constructor
  · intro h
    exact ⟨off_le_of_reserved hS hP hT hle h _ hS.tag_split,
      fun htags => off_le_of_reserved hS hP hT hle h false htags⟩
  · rintro ⟨hdata, hcode⟩
    rw [stack_need_eq hT, SEGLEN, BPLEN] at hdata hcode
    have haddr : ∀ i < s.stk_size, (load_results t segmented exec s).stack_addr i =
        tagged t.data_load_tag
          (BitVec.ofNat 16 (0xff00 - s.stk_size - sp_gap segmented - (i + 1))) :=
      fun i hi => stack_addr_eq hS.base hle hi (by omega)
    refine ⟨(stack_segment_iff hS.base hpos hle).mpr (by omega), ?_, ?_⟩
    · intro i hi st hst heq
      obtain ⟨p, k, hk, rfl⟩ := (hT.mem_stores st).mp hst
      have hlt := hP.lt p k hk
      rw [haddr i hi, Plan.store, Plan.addr, hS.base] at heq
      dsimp only at heq
      by_cases htag : t.tag (p.space t.split) = t.data_load_tag
      · -- a byte of the data segment is below the stack
        have hloc : P.loc p k + (2 * s.stk_size + 256 + sp_gap segmented) < 65536 := by
          by_cases hsp : p.space t.split = t.split
          · rw [hsp] at hlt
            omega
          · obtain ⟨-, hspace⟩ := space_of_ne hsp
            rw [hspace] at hlt htag
            have hfalse := hcode htag
            omega
        rw [htag, load_addr_of_lt (by omega)] at heq
        obtain ⟨-, ho⟩ := hmap.tagged_ofNat_inj (by omega) (by omega) heq
        omega
      · -- a byte of another code segment is on another page
        have hsp : p.space t.split ≠ t.split := fun h => htag ((congrArg t.tag h).trans hS.tag_split)
        obtain ⟨-, hspace⟩ := space_of_ne hsp
        rw [hspace] at hlt heq htag
        rw [load_addr_eq] at heq
        exact hC htag _ (by omega) (hmap.tagged_inj.mp heq).1
    · intro i hi hc
      have hstk : s.stk_size + BPLEN ≤ SEGLEN := by
        rw [BPLEN, SEGLEN]
        omega
      obtain ⟨-, htop⟩ := mem_basepage_cells hmap hS hT hstk hc
      have hgap : 4 ≤ sp_gap segmented := by cases segmented <;> decide
      have hy : 0xff00 - s.stk_size - sp_gap segmented - (i + 1) < 2 ^ 16 := by omega
      rw [haddr i hi, hmap.toNat_tagged, BitVec.toNat_ofNat, Nat.mod_eq_of_lt hy, top_eq hT, SEGLEN,
        BPLEN] at htop
      omega

end stack

/-! ## 3. `bdos_pgmld` -/

theorem Plan.add_off_le (split sp : Bool) (P : Plan) (seg : XSeg) :
    (P.add split seg).off sp ≤ P.off sp + 65535 := by
  have hlt := seg.length.isLt
  unfold Plan.add
  split
  · rename_i p hp
    by_cases hsp : sp = p.space split
    · rw [hsp, Plan.addPart_off_self]
      exact Nat.add_le_add_left (Nat.le_of_lt_succ hlt) _
    · rw [Plan.addPart_off_of_ne hsp]
      exact Nat.le_add_right _ _
  · split_ifs <;> exact Nat.le_add_right _ _

theorem plan_off_le (split sp : Bool) (segs : List XSeg) :
    (plan split segs).off sp ≤ 65535 * segs.length := by
  have hrun : ∀ P : Plan,
      (segs.foldl (Plan.add split) P).off sp ≤ P.off sp + 65535 * segs.length := by
    induction segs with
    | nil => exact fun P => Nat.le_refl _
    | cons seg segs ih =>
      intro P
      have hadd := Plan.add_off_le split sp P seg
      have hrest := ih (P.add split seg)
      rw [List.foldl_cons, List.length_cons]
      omega
  exact (hrun Plan.empty).trans (Nat.le_of_eq (Nat.zero_add _))

theorem header_of_segs_le (fbuf : List Byte) : (header_of fbuf).segs.length ≤ 16 := by
  rw [header_of, List.length_map, List.length_range]
  exact min_le_right _ _

/-- **The stack of an accepted program**: `bdos_pgmld` on a region of the BIOS, when it returns 0,
has returned a stack pointer with the stack below it apart from the program if and only if the
program leaves room for its stack twice. -/
theorem bdos_pgmld_stack_iff {fs : CpmFileSystem} {a : LoaderAddressing} {mrt : List (BitVec 32)}
    (hl : HostedLoader a fs.m_mem.map mrt) (hmap : fs.m_mem.map.Reachable)
    (caller_tag lpb_offset : BitVec 16)
    (hmrt : read_long fs.m_mem (tagged caller_tag lpb_offset + 4) ∈ mrt)
    (hret : (bdos_pgmld fs caller_tag lpb_offset a).2 = 0) :
    ∃ fs' fbuf,
      read_program fs (offsetOf (read_long fs.m_mem (tagged caller_tag lpb_offset))) =
        (fs', .ok fbuf) ∧
      let pgldaddr := read_long fs.m_mem (tagged caller_tag lpb_offset + 4)
      let h := header_of fbuf
      (StackReserved fs.m_mem.map (target_of a pgldaddr fbuf) (loop_of a pgldaddr fbuf)
          (results_of a pgldaddr fbuf) ↔
        StackRoom (target_of a pgldaddr fbuf) h.segmented h.segs) := by
  obtain ⟨fs', fbuf, hread, -⟩ := bdos_pgmld_zero hret
  refine ⟨fs', fbuf, hread, ?_⟩
  intro pgldaddr h
  have hlen : h.segs.length ≤ 16 := header_of_segs_le fbuf
  have hT : Tracks (target_of a pgldaddr fbuf) _ (loop_of a pgldaddr fbuf) _ :=
    load_segs_tracks _ _ h.segs
  have hstk : (loop_of a pgldaddr fbuf).stk_size ≤ 0x200000 := by
    have hstack := plan_stack_le (target_of a pgldaddr fbuf).split h.segs
    rw [hT.stk_size, DEFSTACK]
    omega
  have hoff := plan_off_le (target_of a pgldaddr fbuf).split false h.segs
  exact stackReserved_iff hmap (hl.sound hmap hmrt h.split) (plan_ok _ h.segs) hT hstk
    (hl.carries hmap hmrt h.split) (by omega)

/-- A combined program of one byte with the default stack. -/
def smallProgram : List Byte :=
  [0xee, 0x02, 0, 1, 0, 0, 0, 0, 0, 0, 0, 0, 0, 0, 0, 0, 0, 3, 0, 1, 0xaa]

theorem bdos_pgmld_stack_iff_small :
    ∃ fs' fbuf,
      read_program (pgmld_fs smallProgram)
          (offsetOf (read_long (pgmld_fs smallProgram).m_mem (tagged 0 0x100))) = (fs', .ok fbuf) ∧
      let pgldaddr := read_long (pgmld_fs smallProgram).m_mem (tagged 0 0x100 + 4)
      let h := header_of fbuf
      (StackReserved (.z8002 Z8002Memory.initial) (target_of Z8002LoaderAddressing pgldaddr fbuf)
          (loop_of Z8002LoaderAddressing pgldaddr fbuf)
          (results_of Z8002LoaderAddressing pgldaddr fbuf) ↔
        StackRoom (target_of Z8002LoaderAddressing pgldaddr fbuf) h.segmented h.segs) :=
  @bdos_pgmld_stack_iff (pgmld_fs smallProgram) _ _ (.z8002 _) .z8002 0 0x100
    (by decide +kernel) (by decide +kernel)

/-- A combined program of FE00 bytes of BSS. -/
def bssProgram : List Byte :=
  [0xee, 0x02, 0, 1, 0, 0, 0, 0, 0, 0, 0, 0, 0, 0, 0, 0, 0, 1, 0xfe, 0x00]

/-- **The largest program** is accepted with its stack pointer in its own BSS. -/
theorem bssProgram_not_reserved :
    (bdos_pgmld (pgmld_fs bssProgram) 0 0x100 Z8002LoaderAddressing).2 = 0 ∧
      ¬ StackReserved (.z8002 Z8002Memory.initial)
        (target_of Z8002LoaderAddressing 0x01000000 bssProgram)
        (loop_of Z8002LoaderAddressing 0x01000000 bssProgram)
        (results_of Z8002LoaderAddressing 0x01000000 bssProgram) := by
  refine ⟨by decide +kernel, fun h => ?_⟩
  have hS := (HostedLoader.z8002 Z8002Memory.initial).sound .z8002
    (by decide : (0x01000000 : BitVec 32) ∈ z8002_mrt) (header_of bssProgram).split
  have hT : Tracks (target_of Z8002LoaderAddressing 0x01000000 bssProgram) _
      (loop_of Z8002LoaderAddressing 0x01000000 bssProgram) _ := load_segs_tracks _ _ _
  have hle : (loop_of Z8002LoaderAddressing 0x01000000 bssProgram).stk_size ≤ 0x200000 := by
    decide +kernel
  have hoff := off_le_of_reserved hS (plan_ok _ _) hT hle h false rfl
  revert hoff
  decide +kernel

end Cpm8000.Host
