/-
# The system loader

`load_coff` reads the system file, a COFF file, copies its sections into the system segment and
looks four symbols up in its symbol table.  Offsets and sizes are 32-bit numbers from the file.

The model logs every range of the file that is read and every section that is copied.
`load_coff_robust_iff` says for which files the reads stay inside the file, the search of the symbol
table ends, and a load that reports success has copied every section.
-/
import Cpm8000.Host.Disks

namespace Cpm8000.Host

open Cpm8000.Sys

/-! ## 1. The file -/

/-- The fields of a header that are used. -/
structure CoffHeader where
  magic : BitVec 16
  num_sections : BitVec 16
  symtab_offset : BitVec 32
  num_symbols : BitVec 32
  opt_hdr_size : BitVec 16

/-- The fields of a section header that are used. -/
structure CoffSection where
  virt_addr : BitVec 32
  size : BitVec 32
  data_offset : BitVec 32

def coff_header (buf : List Byte) : CoffHeader where
  magic := field16 buf 0
  num_sections := field16 buf 2
  symtab_offset := field32 buf 8
  num_symbols := field32 buf 12
  opt_hdr_size := field16 buf 16

/-- Where the `i`-th section header is: `p`, in the round of the loop. -/
def section_pos (hdr : CoffHeader) (i : ℕ) : ℕ := 20 + hdr.opt_hdr_size.toNat + 40 * i

def coff_section (buf : List Byte) (p : ℕ) : CoffSection where
  virt_addr := field32 buf (p + 12)
  size := field32 buf (p + 16)
  data_offset := field32 buf (p + 20)

/-- `(uint32_t)file_size`. -/
def file_size32 (buf : List Byte) : BitVec 32 := BitVec.ofNat 32 buf.length

/-- A range of the file that is read: where it begins, and how many bytes. -/
abbrev FileRange := ℕ × ℕ

/-! ## 2. `find_coff_symbol` -/

/-- Whether the entry at `off` has the name, and what is read to see it. -/
def symbol_match (buf : List Byte) (hdr : CoffHeader) (name : List Byte) (off : ℕ) :
    Bool × List FileRange :=
  let strtab_off := hdr.symtab_offset + hdr.num_symbols * 18
  if field32 buf off = 0 then
    let abs_off := strtab_off + field32 buf (off + 4)
    if abs_off.toNat + name.length < (file_size32 buf).toNat then
      (slice buf abs_off.toNat name.length = name ∧ buf.getD (abs_off.toNat + name.length) 0 = 0,
        [(off, 4), (off + 4, 4), (abs_off.toNat, name.length + 1)])
    else (false, [(off, 4), (off + 4, 4)])
  else if name.length ≤ 8 then
    (slice buf off name.length = name ∧ (name.length = 8 ∨ buf.getD (off + name.length) 0 = 0),
      [(off, 4), (off, if name.length = 8 then 8 else name.length + 1)])
  else (false, [(off, 4)])

/-- `off`, in the round for the entry `i`. -/
def symbol_off (hdr : CoffHeader) (i : BitVec 32) : BitVec 32 := hdr.symtab_offset + i * 18

/-- The entry after `i`: it and its auxiliary entries are passed over. -/
def next_symbol (buf : List Byte) (hdr : CoffHeader) (i : BitVec 32) : BitVec 32 :=
  let naux := buf.getD ((symbol_off hdr i).toNat + 17) 0
  i + (1 + naux.setWidth 32)

/-- The loop of `find_coff_symbol`: the value it returns and what it reads; `none` where the rounds
do not suffice. -/
def symbol_loop (buf : List Byte) (hdr : CoffHeader) (name : List Byte) :
    ℕ → BitVec 32 → Option (BitVec 32 × List FileRange)
  | 0, _ => none
  | fuel + 1, i =>
    if i < hdr.num_symbols then
      let off := symbol_off hdr i
      if off + 18 > file_size32 buf then some (0, [])
      else
        let m := symbol_match buf hdr name off.toNat
        if m.1 then some (field32 buf (off.toNat + 8), m.2 ++ [(off.toNat + 8, 4)])
        else
          (symbol_loop buf hdr name fuel (next_symbol buf hdr i)).map fun r =>
            (r.1, m.2 ++ (off.toNat + 17, 1) :: r.2)
    else some (0, [])

def find_coff_symbol (buf : List Byte) (hdr : CoffHeader) (name : List Byte) (fuel : ℕ) :
    Option (BitVec 32 × List FileRange) :=
  if hdr.symtab_offset = 0 ∨ hdr.num_symbols = 0 then some (0, [])
  else symbol_loop buf hdr name fuel 0

/-! ## 3. `load_coff` -/

/-- What the loop over the sections changes, and its logs: the ranges read, and the sections copied,
by where they go and the range they come from. -/
structure SectionState where
  mem : HostedMemory
  highest_addr : BitVec 32
  reads : List FileRange
  copied : List (BitVec 32 × FileRange)

def load_section (buf : List Byte) (load_base : BitVec 32) (hdr : CoffHeader) (s : SectionState)
    (i : ℕ) : SectionState :=
  let p := section_pos hdr i
  let sec := coff_section buf p
  let offset : BitVec 16 := sec.virt_addr.setWidth 16
  let dest := load_base + offset.setWidth 32
  let s := { s with reads := s.reads ++ [(p, 40)] }
  let s :=
    if sec.size > 0 ∧ sec.data_offset > 0 ∧ sec.data_offset + sec.size ≤ file_size32 buf then
      if offset.setWidth 32 + sec.size ≤ 0x10000 then
        { s with
          mem := write_block dest
            ((List.range sec.size.toNat).map fun j => buf.getD (sec.data_offset.toNat + j) 0) s.mem
          reads := s.reads ++ [(sec.data_offset.toNat, sec.size.toNat)]
          copied := s.copied ++ [(dest, sec.data_offset.toNat, sec.size.toNat)] }
      else s
    else if sec.size > 0 ∧ sec.data_offset = 0 then
      if offset.setWidth 32 + sec.size ≤ 0x10000 then
        { s with mem := clear_block dest sec.size.toNat s.mem }
      else s
    else s
  let last := offset.setWidth 32 + sec.size
  { s with highest_addr := if last > s.highest_addr then last else s.highest_addr }

/-- The globals `load_coff` sets. -/
structure SystemGlobals where
  g_entry_point : BitVec 16
  g_warm_entry : BitVec 16
  g_ccp_size : BitVec 16
  g_bdos_dma_offset : BitVec 16
  g_bdos_curdisk_offset : BitVec 16
  g_gbls_offset : BitVec 16

/-- What a load leaves: the entry point it returns, none for -1, and the logs. -/
structure SystemLoad where
  mem : HostedMemory
  globals : SystemGlobals
  entry : Option (BitVec 16)
  reads : List FileRange
  copied : List (BitVec 32 × FileRange)

/-- The names looked up: `ccp`, `_dma`, `_cur_dis` and `_gbls`. -/
def CCP : List Byte := [0x63, 0x63, 0x70]
def DMA : List Byte := [0x5f, 0x64, 0x6d, 0x61]
def CUR_DIS : List Byte := [0x5f, 0x63, 0x75, 0x72, 0x5f, 0x64, 0x69, 0x73]
def GBLS : List Byte := [0x5f, 0x67, 0x62, 0x6c, 0x73]

/-- `if (sym) global = sym & 0xFFFF`. -/
def set_global (sym : BitVec 32) (global : BitVec 16) : BitVec 16 :=
  if sym ≠ 0 then sym.setWidth 16 else global

/-- `load_coff` with the file's bytes read; `fuel` is for the search of the symbol table. -/
def load_coff (buf : List Byte) (load_base : BitVec 32) (g : SystemGlobals) (mem : HostedMemory)
    (fuel : ℕ) : Option SystemLoad :=
  if buf.length < 20 then some ⟨mem, g, none, [], []⟩
  else
    let hdr := coff_header buf
    if hdr.magic ≠ 0x8000 then some ⟨mem, g, none, [(0, 20)], []⟩
    else
      let opt : List FileRange := if hdr.opt_hdr_size ≥ 28 then [(20, 28)] else []
      let entry_point : BitVec 32 := if hdr.opt_hdr_size ≥ 28 then field32 buf (20 + 16) else 0
      let s := (List.range hdr.num_sections.toNat).foldl (load_section buf load_base hdr)
        ⟨mem, 0, (0, 20) :: opt, []⟩
      match find_coff_symbol buf hdr CCP fuel, find_coff_symbol buf hdr DMA fuel,
        find_coff_symbol buf hdr CUR_DIS fuel, find_coff_symbol buf hdr GBLS fuel with
      | some ccp_sym, some dma_sym, some curdis_sym, some gbls_sym =>
        let entry : BitVec 16 := entry_point.setWidth 16
        let warm := set_global ccp_sym.1 g.g_warm_entry
        some ⟨s.mem,
          ⟨entry, if warm = 0 then entry else warm, s.highest_addr.setWidth 16,
            set_global dma_sym.1 g.g_bdos_dma_offset,
            set_global curdis_sym.1 g.g_bdos_curdisk_offset, set_global gbls_sym.1 g.g_gbls_offset⟩,
          some entry,
          s.reads ++ ccp_sym.2 ++ dma_sym.2 ++ curdis_sym.2 ++ gbls_sym.2, s.copied⟩
      | _, _, _, _ => none

/-! ## 4. Reads inside the file -/

def ReadsInside (buf : List Byte) (reads : List FileRange) : Prop :=
  ∀ r ∈ reads, r.1 + r.2 ≤ buf.length

theorem readsInside_append {buf : List Byte} {a b : List FileRange} :
    ReadsInside buf (a ++ b) ↔ ReadsInside buf a ∧ ReadsInside buf b :=
  List.forall_mem_append

theorem readsInside_cons {buf : List Byte} {r : FileRange} {a : List FileRange} :
    ReadsInside buf (r :: a) ↔ r.1 + r.2 ≤ buf.length ∧ ReadsInside buf a :=
  List.forall_mem_cons

theorem readsInside_nil (buf : List Byte) : ReadsInside buf [] := List.forall_mem_nil _

theorem file_size32_le (buf : List Byte) : (file_size32 buf).toNat ≤ buf.length := by
  rw [file_size32, BitVec.toNat_ofNat]
  exact Nat.mod_le _ _

section symbols

variable {buf : List Byte} {hdr : CoffHeader} {name : List Byte}

/-- What the comparison of an entry reads is in the entry, or in the file. -/
theorem symbol_match_inside {off : ℕ} (hoff : off + 18 ≤ buf.length) :
    ReadsInside buf (symbol_match buf hdr name off).2 := by
  have hsize := file_size32_le buf
  unfold symbol_match
  dsimp only
  split_ifs with hz habs hlen h8
  · simp only [readsInside_cons]
    exact ⟨by omega, by omega, by omega, readsInside_nil buf⟩
  · simp only [readsInside_cons]
    exact ⟨by omega, by omega, readsInside_nil buf⟩
  · simp only [readsInside_cons]
    exact ⟨by omega, by omega, readsInside_nil buf⟩
  · simp only [readsInside_cons]
    exact ⟨by omega, by omega, readsInside_nil buf⟩
  · simp only [readsInside_cons]
    exact ⟨by omega, readsInside_nil buf⟩

/-- The first word of an entry is read in every case. -/
theorem symbol_match_reads (off : ℕ) : (off, 4) ∈ (symbol_match buf hdr name off).2 := by
  unfold symbol_match
  dsimp only
  split_ifs <;> exact List.mem_cons_self

variable (buf hdr name) in
/-- A walk of the symbol table from the entry `i` that ends and stays inside the file. -/
inductive SymbolWalk : BitVec 32 → Prop
  | done {i : BitVec 32} (hi : ¬ i < hdr.num_symbols) : SymbolWalk i
  | past {i : BitVec 32} (hi : i < hdr.num_symbols)
      (hpast : symbol_off hdr i + 18 > file_size32 buf) : SymbolWalk i
  | found {i : BitVec 32} (hi : i < hdr.num_symbols)
      (hpast : ¬ symbol_off hdr i + 18 > file_size32 buf)
      (hname : (symbol_match buf hdr name (symbol_off hdr i).toNat).1)
      (hreads : ReadsInside buf (symbol_match buf hdr name (symbol_off hdr i).toNat).2)
      (hvalue : (symbol_off hdr i).toNat + 12 ≤ buf.length) : SymbolWalk i
  | next {i : BitVec 32} (hi : i < hdr.num_symbols)
      (hpast : ¬ symbol_off hdr i + 18 > file_size32 buf)
      (hname : ¬ (symbol_match buf hdr name (symbol_off hdr i).toNat).1)
      (hreads : ReadsInside buf (symbol_match buf hdr name (symbol_off hdr i).toNat).2)
      (haux : (symbol_off hdr i).toNat + 18 ≤ buf.length)
      (hrest : SymbolWalk (next_symbol buf hdr i)) : SymbolWalk i

theorem symbol_loop_found {i : BitVec 32} (hi : i < hdr.num_symbols)
    (hpast : ¬ symbol_off hdr i + 18 > file_size32 buf)
    (hname : (symbol_match buf hdr name (symbol_off hdr i).toNat).1) (fuel : ℕ) :
    symbol_loop buf hdr name (fuel + 1) i =
      some (field32 buf ((symbol_off hdr i).toNat + 8),
        (symbol_match buf hdr name (symbol_off hdr i).toNat).2 ++
          [((symbol_off hdr i).toNat + 8, 4)]) := by
  rw [symbol_loop, if_pos hi]
  dsimp only
  rw [if_neg hpast, if_pos hname]

theorem symbol_loop_next {i : BitVec 32} (hi : i < hdr.num_symbols)
    (hpast : ¬ symbol_off hdr i + 18 > file_size32 buf)
    (hname : ¬ (symbol_match buf hdr name (symbol_off hdr i).toNat).1) (fuel : ℕ) :
    symbol_loop buf hdr name (fuel + 1) i =
      (symbol_loop buf hdr name fuel (next_symbol buf hdr i)).map fun r =>
        (r.1, (symbol_match buf hdr name (symbol_off hdr i).toNat).2 ++
          ((symbol_off hdr i).toNat + 17, 1) :: r.2) := by
  rw [symbol_loop, if_pos hi]
  dsimp only
  rw [if_neg hpast, if_neg hname]

/-- **The search is such a walk.** -/
theorem symbol_loop_iff (i : BitVec 32) :
    (∃ fuel r, symbol_loop buf hdr name fuel i = some r ∧ ReadsInside buf r.2) ↔
      SymbolWalk buf hdr name i := by
  constructor
  · rintro ⟨fuel, r, hr, hinside⟩
    induction fuel generalizing i r with
    | zero => cases hr
    | succ fuel ih =>
      rw [symbol_loop] at hr
      by_cases hi : i < hdr.num_symbols
      · rw [if_pos hi] at hr
        dsimp only at hr
        split_ifs at hr with hpast hname
        · exact .past hi hpast
        · obtain rfl := Option.some.inj hr
          obtain ⟨hreads, hvalue⟩ := readsInside_append.mp hinside
          exact .found hi hpast hname hreads (readsInside_cons.mp hvalue).1
        · obtain ⟨r', hr', rfl⟩ := Option.map_eq_some_iff.mp hr
          obtain ⟨hreads, hrest⟩ := readsInside_append.mp hinside
          obtain ⟨haux, hrest⟩ := readsInside_cons.mp hrest
          exact .next hi hpast hname hreads haux (ih _ _ hr' hrest)
      · exact .done hi
  · intro h
    induction h with
    | done hi => exact ⟨1, (0, []), if_neg hi, readsInside_nil buf⟩
    | past hi hpast =>
      refine ⟨1, (0, []), ?_, readsInside_nil buf⟩
      rw [symbol_loop, if_pos hi]
      exact if_pos hpast
    | found hi hpast hname hreads hvalue =>
      exact ⟨1, _, symbol_loop_found hi hpast hname 0,
        readsInside_append.mpr ⟨hreads, readsInside_cons.mpr ⟨hvalue, readsInside_nil buf⟩⟩⟩
    | next hi hpast hname hreads haux _ ih =>
      obtain ⟨fuel, r, hr, hinside⟩ := ih
      refine ⟨fuel + 1, _, (symbol_loop_next hi hpast hname fuel).trans (congrArg _ hr), ?_⟩
      exact readsInside_append.mpr ⟨hreads, readsInside_cons.mpr ⟨haux, hinside⟩⟩

/-- More rounds do not change the result. -/
theorem symbol_loop_mono {fuel : ℕ} {i : BitVec 32} {r : BitVec 32 × List FileRange}
    (h : symbol_loop buf hdr name fuel i = some r) (k : ℕ) :
    symbol_loop buf hdr name (fuel + k) i = some r := by
  induction fuel generalizing i r with
  | zero => cases h
  | succ fuel ih =>
    rw [Nat.add_right_comm, symbol_loop]
    rw [symbol_loop] at h
    dsimp only at h ⊢
    split_ifs at h ⊢
    · exact h
    · exact h
    · obtain ⟨r', hr', hrr⟩ := Option.map_eq_some_iff.mp h
      rw [ih hr', Option.map_some, hrr]
    · exact h

/-- In a file that is not within 64 KB of 4 GB, a walk from an entry whose offset does not wrap stays
so: an entry inside the file is too far from the end of the offsets. -/
theorem symbolWalk_of_lt (hF : buf.length + 0x10000 ≤ 2 ^ 32) {i : BitVec 32}
    (hi : hdr.symtab_offset.toNat + 18 * i.toNat + 18 < 2 ^ 32) : SymbolWalk buf hdr name i := by
  have h18 : ((18 : BitVec 32)).toNat = 18 := rfl
  have hle := file_size32_le buf
  -- the rounds that are left, by how far the entry is from the end of the file
  obtain ⟨n, hn⟩ : ∃ n, (file_size32 buf).toNat < hdr.symtab_offset.toNat + 18 * i.toNat + n :=
    ⟨(file_size32 buf).toNat + 1, by omega⟩
  induction n using Nat.strong_induction_on generalizing i with
  | _ n ih =>
    have hoff : (symbol_off hdr i).toNat = hdr.symtab_offset.toNat + 18 * i.toNat := by
      rw [symbol_off, BitVec.toNat_add, BitVec.toNat_mul, h18]
      omega
    by_cases hlt : i < hdr.num_symbols
    · by_cases hpast : symbol_off hdr i + 18 > file_size32 buf
      · exact .past hlt hpast
      · have hentry : (symbol_off hdr i).toNat + 18 ≤ (file_size32 buf).toNat := by
          have hp := hpast
          rw [gt_iff_lt, BitVec.lt_def, BitVec.toNat_add, hoff, h18] at hp
          omega
        have hreads := @symbol_match_inside buf hdr name _ (hentry.trans hle)
        by_cases hname : (symbol_match buf hdr name (symbol_off hdr i).toNat).1
        · exact .found hlt hpast hname hreads (by omega)
        · have hnaux := (buf.getD ((symbol_off hdr i).toNat + 17) 0).isLt
          have hnext : (next_symbol buf hdr i).toNat =
              i.toNat + (1 + (buf.getD ((symbol_off hdr i).toNat + 17) 0).toNat) := by
            have hone : ((1 : BitVec 32)).toNat = 1 := rfl
            rw [next_symbol, BitVec.toNat_add, BitVec.toNat_add, BitVec.toNat_setWidth, hone]
            omega
          refine .next hlt hpast hname hreads (hentry.trans hle) ?_
          exact ih (n - 18) (by omega) (by omega) (by omega)
    · exact .done hlt

variable (buf hdr) in
/-- The symbol table can be searched: it is absent or empty, or its first entry does not wrap.  In a
file of nearly 4 GB or more the offset of a later entry may wrap. -/
def SymbolsInRange : Prop :=
  hdr.symtab_offset = 0 ∨ hdr.num_symbols = 0 ∨
    if buf.length + 0x10000 ≤ 2 ^ 32 then hdr.symtab_offset.toNat + 18 < 2 ^ 32
    else ∀ name ∈ [CCP, DMA, CUR_DIS, GBLS], SymbolWalk buf hdr name 0

/-- A table whose first entry wraps is read past the end. -/
theorem lt_of_symbolWalk (hF : buf.length + 0x10000 ≤ 2 ^ 32) (hlen : 20 ≤ buf.length)
    (hnum : hdr.num_symbols ≠ 0) (h : SymbolWalk buf hdr name 0) :
    hdr.symtab_offset.toNat + 18 < 2 ^ 32 := by
  by_contra hwrap
  have hsize : (file_size32 buf).toNat = buf.length := by
    rw [file_size32, BitVec.toNat_ofNat, Nat.mod_eq_of_lt (by omega)]
  have hoff : symbol_off hdr 0 = hdr.symtab_offset := by simp [symbol_off]
  have hlt32 := hdr.symtab_offset.isLt
  have hfirst := @symbol_match_reads buf hdr name (symbol_off hdr 0).toNat
  rw [hoff] at hfirst
  cases h with
  | done hi =>
    rw [BitVec.lt_def] at hi
    exact hnum (BitVec.eq_of_toNat_eq (Nat.eq_zero_of_not_pos hi))
  | past _ hpast =>
    rw [hoff, gt_iff_lt, BitVec.lt_def, hsize, BitVec.toNat_add] at hpast
    have h18 : ((18 : BitVec 32)).toNat = 18 := rfl
    omega
  | found _ _ _ hreads _ =>
    rw [hoff] at hreads
    have hle := hreads _ hfirst
    dsimp only at hle
    omega
  | next _ _ _ hreads _ _ =>
    rw [hoff] at hreads
    have hle := hreads _ hfirst
    dsimp only at hle
    omega

/-- With a table that has entries, the searches end and read inside the file exactly when they are
walks that do. -/
theorem find_all_iff (htab : ¬ (hdr.symtab_offset = 0 ∨ hdr.num_symbols = 0))
    (names : List (List Byte)) :
    (∃ fuel, ∀ name ∈ names,
      ∃ r, find_coff_symbol buf hdr name fuel = some r ∧ ReadsInside buf r.2) ↔
      ∀ name ∈ names, SymbolWalk buf hdr name 0 := by
  simp only [find_coff_symbol, if_neg htab]
  constructor
  · rintro ⟨fuel, h⟩ name hname
    exact (symbol_loop_iff 0).mp ⟨fuel, h name hname⟩
  · intro h
    induction names with
    | nil => exact ⟨0, List.forall_mem_nil _⟩
    | cons name names ih =>
      obtain ⟨hname, hnames⟩ := List.forall_mem_cons.mp h
      obtain ⟨fuel, r, hr, hinside⟩ := (symbol_loop_iff 0).mpr hname
      obtain ⟨fuel', hall⟩ := ih hnames
      refine ⟨fuel + fuel', List.forall_mem_cons.mpr ⟨⟨r, symbol_loop_mono hr _, hinside⟩, ?_⟩⟩
      intro name' hname'
      obtain ⟨r', hr', hinside'⟩ := hall name' hname'
      rw [Nat.add_comm]
      exact ⟨r', symbol_loop_mono hr' _, hinside'⟩

/-- **The four searches** end and read inside the file. -/
theorem symbolsInRange_iff (hlen : 20 ≤ buf.length) :
    (∃ fuel, ∀ name ∈ [CCP, DMA, CUR_DIS, GBLS],
      ∃ r, find_coff_symbol buf hdr name fuel = some r ∧ ReadsInside buf r.2) ↔
      SymbolsInRange buf hdr := by
  by_cases htab : hdr.symtab_offset = 0 ∨ hdr.num_symbols = 0
  · refine iff_of_true ⟨0, fun name _ => ⟨(0, []), if_pos htab, readsInside_nil buf⟩⟩ ?_
    exact htab.imp_right .inl
  · rw [find_all_iff htab, SymbolsInRange]
    obtain ⟨hoff, hnum⟩ := not_or.mp htab
    rw [or_iff_right hoff, or_iff_right hnum]
    by_cases hF : buf.length + 0x10000 ≤ 2 ^ 32
    · rw [if_pos hF]
      constructor
      · intro h
        exact lt_of_symbolWalk hF hlen hnum (h CCP List.mem_cons_self)
      · intro h name _
        exact symbolWalk_of_lt hF h
    · rw [if_neg hF]

end symbols

/-! ## 5. The sections -/

section sections

variable {buf : List Byte} {load_base : BitVec 32} {hdr : CoffHeader}

namespace CoffSection

def offset (sec : CoffSection) : BitVec 16 := sec.virt_addr.setWidth 16

/-- A section with contents in the file. -/
def hasContents (sec : CoffSection) : Prop := sec.size ≠ 0 ∧ sec.data_offset ≠ 0

/-- The tests a section passes before it is copied. -/
def loads (sec : CoffSection) (buf : List Byte) : Prop :=
  (sec.size > 0 ∧ sec.data_offset > 0 ∧ sec.data_offset + sec.size ≤ file_size32 buf) ∧
    sec.offset.setWidth 32 + sec.size ≤ 0x10000

instance (sec : CoffSection) (buf : List Byte) : Decidable (sec.loads buf) :=
  inferInstanceAs (Decidable (_ ∧ _))

/-- A section that passes the tests and whose contents are in the file. -/
def fits (sec : CoffSection) (buf : List Byte) : Prop :=
  sec.loads buf ∧ sec.data_offset.toNat + sec.size.toNat ≤ buf.length

/-- What the log has of a copied section. -/
def copy (sec : CoffSection) (load_base : BitVec 32) : BitVec 32 × FileRange :=
  (load_base + sec.offset.setWidth 32, sec.data_offset.toNat, sec.size.toNat)

theorem pos_iff {v : BitVec 32} : v > 0 ↔ v ≠ 0 := by
  rw [gt_iff_lt, BitVec.lt_def]
  exact ⟨fun h h0 => by rw [h0] at h; exact absurd h (lt_irrefl _),
    fun h => Nat.pos_of_ne_zero fun h0 => h (BitVec.eq_of_toNat_eq h0)⟩

/-- **What the tests are worth**, in a file that is not within 64 KB of 4 GB: the contents of a section
that fits are in the file and its place is in the segment, and nothing else is asked. -/
theorem fits_iff {sec : CoffSection} (hF : buf.length + 0x10000 ≤ 2 ^ 32) (hc : sec.hasContents) :
    sec.fits buf ↔ sec.data_offset.toNat + sec.size.toNat ≤ buf.length ∧
      sec.offset.toNat + sec.size.toNat ≤ 0x10000 := by
  have hsize : (file_size32 buf).toNat = buf.length := by
    rw [file_size32, BitVec.toNat_ofNat, Nat.mod_eq_of_lt (by omega)]
  have hoff := sec.offset.isLt
  have hsum : (sec.data_offset + sec.size).toNat =
      (sec.data_offset.toNat + sec.size.toNat) % 2 ^ 32 := BitVec.toNat_add ..
  have hend : (sec.offset.setWidth 32 + sec.size).toNat =
      (sec.offset.toNat + sec.size.toNat) % 2 ^ 32 := by
    rw [BitVec.toNat_add, BitVec.toNat_setWidth, Nat.mod_eq_of_lt (a := sec.offset.toNat) (by omega)]
  have hseg : ((0x10000 : BitVec 32)).toNat = 0x10000 := rfl
  rw [fits, loads, pos_iff, pos_iff, BitVec.le_def, BitVec.le_def, hsum, hend, hsize, hseg]
  constructor
  · rintro ⟨⟨-, hlast⟩, hin⟩
    exact ⟨hin, by omega⟩
  · rintro ⟨hin, hlast⟩
    exact ⟨⟨⟨hc.1, hc.2, by omega⟩, by omega⟩, hin⟩

end CoffSection

/-- The logs of one round. -/
def section_reads (buf : List Byte) (hdr : CoffHeader) (i : ℕ) : List FileRange :=
  let sec := coff_section buf (section_pos hdr i)
  (section_pos hdr i, 40) ::
    if sec.loads buf then [(sec.data_offset.toNat, sec.size.toNat)] else []

def section_copied (buf : List Byte) (load_base : BitVec 32) (hdr : CoffHeader) (i : ℕ) :
    List (BitVec 32 × FileRange) :=
  let sec := coff_section buf (section_pos hdr i)
  if sec.loads buf then [sec.copy load_base] else []

theorem load_section_log (s : SectionState) (i : ℕ) :
    (load_section buf load_base hdr s i).reads = s.reads ++ section_reads buf hdr i ∧
      (load_section buf load_base hdr s i).copied =
        s.copied ++ section_copied buf load_base hdr i := by
  unfold load_section section_reads section_copied
  dsimp only
  generalize coff_section buf (section_pos hdr i) = sec
  by_cases hfile : sec.size > 0 ∧ sec.data_offset > 0 ∧
      sec.data_offset + sec.size ≤ file_size32 buf
  · by_cases hseg : (sec.virt_addr.setWidth 16).setWidth 32 + sec.size ≤ 0x10000
    · have hloads : sec.loads buf := ⟨hfile, hseg⟩
      rw [if_pos hfile, if_pos hseg, if_pos hloads, if_pos hloads]
      exact ⟨List.append_assoc _ _ _, rfl⟩
    · have hloads : ¬ sec.loads buf := fun h => hseg h.2
      rw [if_pos hfile, if_neg hseg, if_neg hloads, if_neg hloads]
      exact ⟨rfl, (List.append_nil _).symm⟩
  · have hloads : ¬ sec.loads buf := fun h => hfile h.1
    rw [if_neg hfile, if_neg hloads, if_neg hloads]
    split_ifs
    · exact ⟨rfl, (List.append_nil _).symm⟩
    · exact ⟨rfl, (List.append_nil _).symm⟩
    · exact ⟨rfl, (List.append_nil _).symm⟩

/-- The logs of all rounds. -/
theorem load_sections_log (is : List ℕ) (s : SectionState) :
    (is.foldl (load_section buf load_base hdr) s).reads =
        s.reads ++ is.flatMap (section_reads buf hdr) ∧
      (is.foldl (load_section buf load_base hdr) s).copied =
        s.copied ++ is.flatMap (section_copied buf load_base hdr) := by
  induction is generalizing s with
  | nil => exact ⟨(List.append_nil _).symm, (List.append_nil _).symm⟩
  | cons i is ih =>
    obtain ⟨hreads, hcopied⟩ := @load_section_log buf load_base hdr s i
    obtain ⟨hreads', hcopied'⟩ := ih (load_section buf load_base hdr s i)
    rw [List.foldl_cons, hreads', hcopied', hreads, hcopied, List.flatMap_cons, List.flatMap_cons,
      List.append_assoc, List.append_assoc]
    exact ⟨rfl, rfl⟩

/-- The section headers are in the file, and so are the contents of the sections that have some. -/
structure SectionsInFile (buf : List Byte) (hdr : CoffHeader) : Prop where
  headers : 0 < hdr.num_sections.toNat → section_pos hdr hdr.num_sections.toNat ≤ buf.length
  contents : ∀ i < hdr.num_sections.toNat,
    (coff_section buf (section_pos hdr i)).hasContents →
      (coff_section buf (section_pos hdr i)).fits buf

theorem section_pos_succ (i : ℕ) : section_pos hdr (i + 1) = section_pos hdr i + 40 := by
  rw [section_pos, section_pos]
  omega

/-- **The loop reads inside the file and copies every section** exactly when the sections are in
the file. -/
theorem sectionsInFile_iff :
    (ReadsInside buf ((List.range hdr.num_sections.toNat).flatMap (section_reads buf hdr)) ∧
      ∀ i < hdr.num_sections.toNat, (coff_section buf (section_pos hdr i)).hasContents →
        (coff_section buf (section_pos hdr i)).copy load_base ∈
          (List.range hdr.num_sections.toNat).flatMap (section_copied buf load_base hdr)) ↔
      SectionsInFile buf hdr := by
  constructor
  · rintro ⟨hreads, hcopied⟩
    refine ⟨fun hpos => ?_, fun i hi hc => ?_⟩
    · have hlast := hreads (section_pos hdr (hdr.num_sections.toNat - 1), 40)
        (List.mem_flatMap.mpr ⟨hdr.num_sections.toNat - 1, List.mem_range.mpr (by omega),
          List.mem_cons_self⟩)
      have hsucc := @section_pos_succ hdr (hdr.num_sections.toNat - 1)
      rw [Nat.sub_add_cancel hpos] at hsucc
      rw [hsucc]
      exact hlast
    · -- a section that is in the log has the place and the size of one that was copied
      obtain ⟨k, hk, hmem⟩ := List.mem_flatMap.mp (hcopied i hi hc)
      have hinside := hreads ((coff_section buf (section_pos hdr k)).data_offset.toNat,
        (coff_section buf (section_pos hdr k)).size.toNat)
      rw [section_copied] at hmem
      split_ifs at hmem with hloads
      · rw [List.mem_singleton, CoffSection.copy, CoffSection.copy, Prod.mk.injEq,
          Prod.mk.injEq] at hmem
        obtain ⟨hdest, hdata, hsize⟩ := hmem
        have hdata' := BitVec.eq_of_toNat_eq hdata
        have hoff : (coff_section buf (section_pos hdr i)).offset =
            (coff_section buf (section_pos hdr k)).offset := by
          have hoff32 := congrArg BitVec.toNat ((BitVec.add_right_inj load_base).mp hdest)
          have hi16 := (coff_section buf (section_pos hdr i)).offset.isLt
          have hk16 := (coff_section buf (section_pos hdr k)).offset.isLt
          rw [BitVec.toNat_setWidth, BitVec.toNat_setWidth] at hoff32
          exact BitVec.eq_of_toNat_eq (by omega)
        have hin := hinside (List.mem_flatMap.mpr ⟨k, hk, by
          rw [section_reads]
          rw [if_pos hloads]
          exact List.mem_cons_of_mem _ List.mem_cons_self⟩)
        rw [CoffSection.fits, CoffSection.loads, hoff, hdata', BitVec.eq_of_toNat_eq hsize]
        exact ⟨hloads, hin⟩
      · cases hmem
  · rintro ⟨hheaders, hcontents⟩
    have hloads : ∀ i < hdr.num_sections.toNat,
        (coff_section buf (section_pos hdr i)).hasContents →
        (coff_section buf (section_pos hdr i)).loads buf := fun i hi hc => (hcontents i hi hc).1
    constructor
    · intro r hr
      obtain ⟨i, hi, hmem⟩ := List.mem_flatMap.mp hr
      rw [List.mem_range] at hi
      rw [section_reads] at hmem
      rcases List.mem_cons.mp hmem with rfl | hmem
      · have hall := hheaders (by omega)
        rw [section_pos] at hall ⊢
        dsimp only
        omega
      · split_ifs at hmem with hl
        · rw [List.mem_singleton] at hmem
          rw [hmem]
          have hc : (coff_section buf (section_pos hdr i)).hasContents :=
            ⟨CoffSection.pos_iff.mp hl.1.1, CoffSection.pos_iff.mp hl.1.2.1⟩
          exact (hcontents i hi hc).2
        · cases hmem
    · intro i hi hc
      refine List.mem_flatMap.mpr ⟨i, List.mem_range.mpr hi, ?_⟩
      rw [section_copied]
      rw [if_pos (hloads i hi hc)]
      exact List.mem_singleton_self _

end sections

/-! ## 6. `load_coff` -/

/-- **A robust load**: it ends, it reads inside the file, and when it reports success every section
with contents has been copied in full to its address. -/
def Robust (buf : List Byte) (load_base : BitVec 32) (g : SystemGlobals) (mem : HostedMemory) :
    Prop :=
  ∃ fuel r, load_coff buf load_base g mem fuel = some r ∧ ReadsInside buf r.reads ∧
    (r.entry.isSome → ∀ i < (coff_header buf).num_sections.toNat,
      (coff_section buf (section_pos (coff_header buf) i)).hasContents →
        (coff_section buf (section_pos (coff_header buf) i)).copy load_base ∈ r.copied)

/-- A file that is refused by its first twenty bytes. -/
def Refused (buf : List Byte) : Prop := buf.length < 20 ∨ (coff_header buf).magic ≠ 0x8000

/-- What a system file must be like: its headers and sections are in it, and its symbol table does
not begin at the very end of the offsets. -/
structure SystemFile (buf : List Byte) : Prop where
  opt : 28 ≤ (coff_header buf).opt_hdr_size → 48 ≤ buf.length
  sections : SectionsInFile buf (coff_header buf)
  symbols : SymbolsInRange buf (coff_header buf)

/-- **The system loader is robust exactly on files it refuses and on files that hold what their
headers say.** -/
theorem load_coff_robust_iff (buf : List Byte) (load_base : BitVec 32) (g : SystemGlobals)
    (mem : HostedMemory) :
    Robust buf load_base g mem ↔ Refused buf ∨ SystemFile buf := by
  unfold Robust
  by_cases hshort : buf.length < 20
  · refine iff_of_true ⟨0, _, if_pos hshort, readsInside_nil buf, fun h => ?_⟩ (.inl (.inl hshort))
    exact absurd h Bool.false_ne_true
  by_cases hmagic : (coff_header buf).magic ≠ 0x8000
  · refine iff_of_true ⟨0, ⟨mem, g, none, [(0, 20)], []⟩, ?_, ?_, fun h => ?_⟩
      (.inl (.inr hmagic))
    · rw [load_coff, if_neg hshort]
      exact if_pos hmagic
    · exact readsInside_cons.mpr ⟨not_lt.mp hshort, readsInside_nil buf⟩
    · exact absurd h Bool.false_ne_true
  have hrefused : ¬ Refused buf := not_or.mpr ⟨hshort, hmagic⟩
  rw [or_iff_right hrefused]
  have hsections := @sectionsInFile_iff buf load_base (coff_header buf)
  have hsymbols := @symbolsInRange_iff buf (coff_header buf) (not_lt.mp hshort)
  obtain ⟨hreads, hcopied⟩ := @load_sections_log buf load_base (coff_header buf)
    (List.range (coff_header buf).num_sections.toNat)
    ⟨mem, 0, (0, 20) :: if (coff_header buf).opt_hdr_size ≥ 28 then [(20, 28)] else [], []⟩
  have hopt : ReadsInside buf ((0, 20) :: if (coff_header buf).opt_hdr_size ≥ 28 then [(20, 28)]
      else []) ↔ (28 ≤ (coff_header buf).opt_hdr_size → 48 ≤ buf.length) := by
    rw [readsInside_cons]
    by_cases h28 : (coff_header buf).opt_hdr_size ≥ 28
    · rw [if_pos h28, readsInside_cons]
      exact ⟨fun h _ => h.2.1, fun h => ⟨not_lt.mp hshort, h h28, readsInside_nil buf⟩⟩
    · rw [if_neg h28]
      exact ⟨fun _ h => absurd h h28, fun _ => ⟨not_lt.mp hshort, readsInside_nil buf⟩⟩
  constructor
  · rintro ⟨fuel, r, hr, hinside, hall⟩
    rw [load_coff, if_neg hshort] at hr
    dsimp only at hr
    rw [if_neg hmagic] at hr
    split at hr
    · rename_i ccp_sym dma_sym curdis_sym gbls_sym hccp hdma hcur hgbls
      obtain rfl := Option.some.inj hr
      dsimp only at hinside hall
      rw [hreads] at hinside
      simp only [readsInside_append] at hinside
      obtain ⟨⟨⟨⟨⟨hin, hsecs⟩, hccpin⟩, hdmain⟩, hcurin⟩, hgblsin⟩ := hinside
      refine ⟨hopt.mp hin, hsections.mp ⟨hsecs, fun i hi hc => ?_⟩, ?_⟩
      · have hmem := hall rfl i hi hc
        rw [hcopied, List.nil_append] at hmem
        exact hmem
      · refine hsymbols.mp ⟨fuel, ?_⟩
        simp only [List.forall_mem_cons]
        exact ⟨⟨_, hccp, hccpin⟩, ⟨_, hdma, hdmain⟩, ⟨_, hcur, hcurin⟩, ⟨_, hgbls, hgblsin⟩,
          List.forall_mem_nil _⟩
    · cases hr
  · rintro ⟨ho, hs, hsym⟩
    obtain ⟨hsecs, hall⟩ := hsections.mpr hs
    obtain ⟨fuel, hfind⟩ := hsymbols.mpr hsym
    simp only [List.forall_mem_cons] at hfind
    obtain ⟨⟨ccp, hccp, hccpin⟩, ⟨dma, hdma, hdmain⟩, ⟨cur, hcur, hcurin⟩, ⟨gbls, hgbls, hgblsin⟩,
      -⟩ := hfind
    refine ⟨fuel, ?_⟩
    rw [load_coff, if_neg hshort]
    dsimp only
    rw [if_neg hmagic, hccp, hdma, hcur, hgbls]
    refine ⟨_, rfl, ?_, ?_⟩
    · dsimp only
      rw [hreads]
      simp only [readsInside_append]
      exact ⟨⟨⟨⟨⟨hopt.mpr ho, hsecs⟩, hccpin⟩, hdmain⟩, hcurin⟩, hgblsin⟩
    · intro _ i hi hc
      dsimp only
      rw [hcopied, List.nil_append]
      exact hall i hi hc

/-- A header that announces one section, and no section header after it. -/
def headerOnly : List Byte := [0x80, 0x00, 0x00, 0x01] ++ List.replicate 16 0

/-- **The section header of such a file is read past its end.** -/
theorem headerOnly_not_robust :
    ¬ Robust headerOnly 0 ⟨0, 0, 0, 0, 0, 0⟩
      ⟨.segmented SegmentedTarget.configure, fun _ => 0⟩ := by
  rintro ⟨fuel, r, hr, hinside, -⟩
  have hmagic : ¬ (coff_header headerOnly).magic ≠ 0x8000 := by decide
  have hone : (coff_header headerOnly).num_sections.toNat = 1 := by decide
  rw [load_coff, if_neg (by decide)] at hr
  dsimp only at hr
  rw [if_neg hmagic] at hr
  split at hr
  · obtain rfl := Option.some.inj hr
    dsimp only at hinside
    rw [(load_sections_log _ _).1, hone] at hinside
    simp only [readsInside_append] at hinside
    have hle := hinside.1.1.1.1.2 (20, 40) (by decide)
    exact absurd hle (by decide)
  · cases hr

end Cpm8000.Host
