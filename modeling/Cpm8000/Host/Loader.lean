/-
# The program loader

`bdos_pgmld` loads an x.out program at the region its parameter block (LPB) names. It sums the
segments' lengths into one running offset for code and one for data, stores every byte at the tag of
its space with the offset ORed in, and checks the size afterwards.

The loop over the segments is modelled by the byte stores it makes, in order, each with what it is
for; the memory after is the memory before with those stores made. Sums of at most sixteen 16-bit
lengths stay below `2 ^ 32` and are natural numbers; where the source subtracts, it wraps.
-/
import Cpm8000.Host.File

namespace Cpm8000.Host

open Cpm8000.Sys

/-! ## 1. Addressing -/

structure LoaderAddressing where
  tpa_tag : BitVec 16 → BitVec 16
  code_tag : BitVec 16 → Bool → BitVec 16
  data_tag : BitVec 16 → Bool → BitVec 16
  execution_tag : BitVec 16 → Bool → BitVec 16
  accepts_segmented_programs : Bool

def Z8001LoaderAddressing : LoaderAddressing where
  tpa_tag raw := raw &&& 0x7f
  code_tag tag split := if split then 0x0a else tag
  data_tag tag split := if split then 0x08 else tag
  execution_tag tag split := if split then 0x08 else tag
  accepts_segmented_programs := true

def Z8002LoaderAddressing : LoaderAddressing where
  tpa_tag raw := raw
  code_tag tag _ := tag
  data_tag tag split := if split then 0x0200 else tag
  execution_tag tag _ := tag
  accepts_segmented_programs := false

/-- The bases of the regions in the table of `build_mrt`. -/
def z8001_mrt : List (BitVec 32) := [0x000a0000, 0x00080000, 0x00080000, 0x000a0000]

/-- The bases of the regions in the table of `build_z8002_mrt`. -/
def z8002_mrt : List (BitVec 32) := [0x01000000, 0x01000000, 0x02000000, 0x01000000]

/-! ## 2. The header -/

structure XSeg where
  number : Byte
  type : Byte
  length : BitVec 16

structure XHdr where
  split : Bool
  segmented : Bool
  segs : List XSeg
  /-- Where the code part begins in the file. -/
  code_data : ℕ

/-- The header of a file, or the code `bdos_pgmld` returns. -/
def parse_header (accepts_segmented_programs : Bool) (fbuf : List Byte) : Except ℕ XHdr :=
  if fbuf.length < 16 then .error 1
  else
    let magic := field16 fbuf 0
    let num_segs := (field16 fbuf 2).toInt
    let kind : Option (Bool × Bool) :=
      if magic = 0xee02 ∨ magic = 0xee03 then some (false, false)
      else if magic = 0xee0a ∨ magic = 0xee0b then some (true, false)
      else if magic = 0xee00 ∨ magic = 0xee01 then some (false, true)
      else none
    match kind with
    | none => .error 1
    | some (split, segmented) =>
      if segmented ∧ !accepts_segmented_programs then .error 1
      else
        let num_segs := if num_segs > 16 then 16 else num_segs
        let segs := (List.range num_segs.toNat).map fun i =>
          { number := fbuf.getD (16 + 4 * i) 0
            type := fbuf.getD (16 + 4 * i + 1) 0
            length := field16 fbuf (16 + 4 * i + 2) }
        .ok ⟨split, segmented, segs, 16 + 4 * num_segs.toNat⟩

/-! ## 3. The segment loop -/

inductive Part
  | text
  | data
  | bss
  deriving DecidableEq

/-- A byte store of the loop: what it is for, the tag it is meant for, and where it goes. -/
structure LoadStore where
  part : Part
  target_tag : BitVec 16
  addr : BitVec 32
  val : Byte

def BPLEN : ℕ := 256
def DEFSTACK : ℕ := 256
def SEGLEN : ℕ := 0x10000

/-- The variables of the loop, and the stores so far. -/
structure LoadState where
  code_offset : ℕ := 0
  code_load_offset : ℕ := 0
  data_load_offset : ℕ := 0
  text_loc : ℕ := 0
  text_size : ℕ := 0
  data_loc : ℕ := 0
  data_size : ℕ := 0
  bss_loc : ℕ := 0
  bss_size : ℕ := 0
  stk_size : ℕ := DEFSTACK
  stores : List LoadStore := []

/-- Where a load goes. -/
structure Target where
  split : Bool
  code_load_tag : BitVec 16
  data_load_tag : BitVec 16
  tpa_base : BitVec 16

/-- `(uint32_t(target_tag) << 16) | (tpa_base + load_off + j)`. -/
def load_addr (target_tag tpa_base : BitVec 16) (off : ℕ) : BitVec 32 :=
  tagged target_tag 0 ||| BitVec.ofNat 32 (tpa_base.toNat + off)

/-- The stores of one segment. -/
def seg_stores (part : Part) (target_tag tpa_base : BitVec 16) (load_off : ℕ) (byte : ℕ → Byte)
    (slen : ℕ) : List LoadStore :=
  (List.range slen).map fun j => ⟨part, target_tag, load_addr target_tag tpa_base (load_off + j), byte j⟩

/-- One round of the loop. -/
def load_seg (t : Target) (code : ℕ → Byte) (s : LoadState) (seg : XSeg) : LoadState :=
  let slen := seg.length.toNat
  let stype := seg.type
  let to_data := t.split ∧ (stype = 4 ∨ stype = 5 ∨ stype = 1 ∨ stype = 2)
  let target_tag := if to_data then t.data_load_tag else t.code_load_tag
  let load_off := if to_data then s.data_load_offset else s.code_load_offset
  let advance (s : LoadState) : LoadState :=
    if to_data then { s with data_load_offset := load_off + slen }
    else { s with code_load_offset := load_off + slen }
  if stype = 3 ∨ stype = 6 ∨ stype = 7 then
    advance { s with
      text_loc := if s.text_size = 0 then load_off else s.text_loc
      text_size := s.text_size + slen
      stores := s.stores ++ seg_stores .text target_tag t.tpa_base load_off
        (fun j => code (s.code_offset + j)) slen
      code_offset := s.code_offset + slen }
  else if stype = 4 ∨ stype = 5 then
    advance { s with
      data_loc := if s.data_size = 0 then load_off else s.data_loc
      data_size := s.data_size + slen
      stores := s.stores ++ seg_stores .data target_tag t.tpa_base load_off
        (fun j => code (s.code_offset + j)) slen
      code_offset := s.code_offset + slen }
  else if stype = 1 then
    advance { s with
      bss_loc := if s.bss_size = 0 then load_off else s.bss_loc
      bss_size := s.bss_size + slen
      stores := s.stores ++ seg_stores .bss target_tag t.tpa_base load_off (fun _ => 0) slen }
  else if stype = 2 then { s with stk_size := s.stk_size + slen }
  else s

def load_segs (t : Target) (code : ℕ → Byte) (segs : List XSeg) : LoadState :=
  segs.foldl (load_seg t code) {}

/-- The bytes of the data segment in use. -/
def LoadState.data_seg_used (s : LoadState) (split : Bool) : ℕ :=
  if split then s.data_load_offset else s.code_load_offset

/-- `SEGLEN - BPLEN - stk_size`, as a 32-bit number without sign. -/
def LoadState.data_seg_limit (s : LoadState) : ℕ :=
  (2 ^ 32 + (SEGLEN - BPLEN) - s.stk_size) % 2 ^ 32

/-! ## 4. The basepage and the results -/

/-- What a load computes once the size is accepted. -/
structure Results where
  bp_addr : BitVec 32
  sp_addr : BitVec 32
  code_addr : BitVec 32
  text_size : ℕ
  data_addr : BitVec 32
  data_size : ℕ
  bss_addr : BitVec 32
  bss_size : ℕ
  free_len : ℕ
  flags : BitVec 16

def load_results (t : Target) (segmented : Bool) (exec_tag : BitVec 16) (s : LoadState) : Results :=
  let data_segment_base := tagged t.data_load_tag t.tpa_base
  let stkloc := data_segment_base + BitVec.ofNat 32 (SEGLEN - BPLEN) - BitVec.ofNat 32 s.stk_size
  let data_addr := load_addr t.data_load_tag t.tpa_base s.data_loc
  let used := s.data_seg_used t.split
  { bp_addr := stkloc
    sp_addr := stkloc - (if segmented then 8 else 4)
    code_addr := load_addr exec_tag t.tpa_base s.text_loc
    text_size := s.text_size
    data_addr := data_addr
    data_size := s.data_size
    bss_addr := if s.bss_size > 0 then load_addr t.data_load_tag t.tpa_base s.bss_loc
      else data_addr + BitVec.ofNat 32 s.data_size
    bss_size := s.bss_size
    free_len := if used < s.data_seg_limit then s.data_seg_limit - used else 0
    flags := (if t.split then 0x4000 else 0) ||| (if segmented then 0x2000 else 0) }

/-- `mem.write_word(addr + 0, val >> 16); mem.write_word(addr + 2, val & 0xffff)`. -/
def write_long (addr : BitVec 32) (val : BitVec 32) (m : HostedMemory) : HostedMemory :=
  (m.write_word addr (tagOf val)).write_word (addr + 2) (offsetOf val)

def write_basepage (r : Results) (m : HostedMemory) : HostedMemory :=
  let m := (List.range BPLEN).foldl (fun m i => m.write_byte (r.bp_addr + BitVec.ofNat 32 i) 0) m
  let m := write_long (r.bp_addr + 0) r.code_addr m
  let m := write_long (r.bp_addr + 4) r.sp_addr m
  let m := write_long (r.bp_addr + 8) r.code_addr m
  let m := write_long (r.bp_addr + 12) (BitVec.ofNat 32 r.text_size) m
  let m := write_long (r.bp_addr + 16) r.data_addr m
  let m := write_long (r.bp_addr + 20) (BitVec.ofNat 32 r.data_size) m
  let m := write_long (r.bp_addr + 24) r.bss_addr m
  let m := write_long (r.bp_addr + 28) (BitVec.ofNat 32 r.bss_size) m
  write_long (r.bp_addr + 32) (BitVec.ofNat 32 r.free_len) m

def write_lpb (lpb_addr : BitVec 32) (r : Results) (m : HostedMemory) : HostedMemory :=
  let m := write_long (lpb_addr + 4) r.code_addr m
  let m := write_long (lpb_addr + 12) r.bp_addr m
  let m := write_long (lpb_addr + 16) r.sp_addr m
  m.write_word (lpb_addr + 20) r.flags

/-! ## 5. The same writes as stores -/

/-- The two byte stores of `write_word`. -/
def word_stores (map : MemoryMap) (addr : BitVec 32) (val : BitVec 16) : List (Phys × Byte) :=
  let p := map.tagged_physical addr false &&& ~~~1
  [(p, val.extractLsb' 8 8), (p + 1, val.extractLsb' 0 8)]

def long_stores (map : MemoryMap) (addr : BitVec 32) (val : BitVec 32) : List (Phys × Byte) :=
  word_stores map addr (tagOf val) ++ word_stores map (addr + 2) (offsetOf val)

def basepage_stores (map : MemoryMap) (r : Results) : List (Phys × Byte) :=
  (List.range BPLEN).map
      (fun i => (map.tagged_physical (r.bp_addr + BitVec.ofNat 32 i) false, (0 : Byte))) ++
    long_stores map (r.bp_addr + 0) r.code_addr ++
    long_stores map (r.bp_addr + 4) r.sp_addr ++
    long_stores map (r.bp_addr + 8) r.code_addr ++
    long_stores map (r.bp_addr + 12) (BitVec.ofNat 32 r.text_size) ++
    long_stores map (r.bp_addr + 16) r.data_addr ++
    long_stores map (r.bp_addr + 20) (BitVec.ofNat 32 r.data_size) ++
    long_stores map (r.bp_addr + 24) r.bss_addr ++
    long_stores map (r.bp_addr + 28) (BitVec.ofNat 32 r.bss_size) ++
    long_stores map (r.bp_addr + 32) (BitVec.ofNat 32 r.free_len)

def lpb_stores (map : MemoryMap) (lpb_addr : BitVec 32) (r : Results) : List (Phys × Byte) :=
  long_stores map (lpb_addr + 4) r.code_addr ++
    long_stores map (lpb_addr + 12) r.bp_addr ++
    long_stores map (lpb_addr + 16) r.sp_addr ++
    word_stores map (lpb_addr + 20) r.flags

theorem write_word_eq (m : HostedMemory) (addr : BitVec 32) (val : BitVec 16) :
    m.write_word addr val = ⟨m.map, storeAll (word_stores m.map addr val) m.m_data⟩ := rfl

theorem write_long_eq (m : HostedMemory) (addr : BitVec 32) (val : BitVec 32) :
    write_long addr val m = ⟨m.map, storeAll (long_stores m.map addr val) m.m_data⟩ := rfl

theorem write_basepage_eq (m : HostedMemory) (r : Results) :
    write_basepage r m = ⟨m.map, storeAll (basepage_stores m.map r) m.m_data⟩ := by
  simp only [write_basepage, foldl_write_byte, write_long_eq, basepage_stores, storeAll_append]

theorem write_lpb_eq (m : HostedMemory) (lpb_addr : BitVec 32) (r : Results) :
    write_lpb lpb_addr r m = ⟨m.map, storeAll (lpb_stores m.map lpb_addr r) m.m_data⟩ := by
  simp only [write_lpb, write_long_eq, write_word_eq, lpb_stores, storeAll_append]

/-! ## 6. The load -/

def load_target (addressing : LoaderAddressing) (pgldaddr : BitVec 32) (split : Bool) : Target :=
  let tpa_tag := addressing.tpa_tag (tagOf pgldaddr)
  ⟨split, addressing.code_tag tpa_tag split, addressing.data_tag tpa_tag split, offsetOf pgldaddr⟩

def load_exec_tag (addressing : LoaderAddressing) (pgldaddr : BitVec 32) (split : Bool) :
    BitVec 16 :=
  addressing.execution_tag (addressing.tpa_tag (tagOf pgldaddr)) split

/-- `bdos_pgmld` from the header on, with the file's bytes read. -/
def pgmld_load (addressing : LoaderAddressing) (pgldaddr lpb_addr : BitVec 32) (fbuf : List Byte)
    (m : HostedMemory) : HostedMemory × ℕ :=
  match parse_header addressing.accepts_segmented_programs fbuf with
  | .error code => (m, code)
  | .ok h =>
    let t := load_target addressing pgldaddr h.split
    let m := m.configure_program t.code_load_tag t.data_load_tag
    let s := load_segs t (fun i => fbuf.getD (h.code_data + i) 0) h.segs
    let m := s.stores.foldl (fun m st => m.write_byte st.addr st.val) m
    if s.data_seg_used h.split > s.data_seg_limit then (m, 2)
    else
      let r := load_results t h.segmented (load_exec_tag addressing pgldaddr h.split) s
      (write_lpb lpb_addr r (write_basepage r m), 0)

/-- `(uint32_t(mem.read_word(addr + 0)) << 16) | mem.read_word(addr + 2)`. -/
def read_long (m : HostedMemory) (addr : BitVec 32) : BitVec 32 :=
  tagged (m.read_word addr) (m.read_word (addr + 2))

/-- The part of `bdos_pgmld` that finds the open file and reads all of it. -/
def read_program (fs : CpmFileSystem) (fcb_offset : BitVec 16) :
    CpmFileSystem × Except ℕ (List Byte) :=
  match fs.ensure_open fcb_offset with
  | (fs, none) => (fs, .error 1)
  | (fs, some slot) =>
    let e := fs.host.fseek_end (fs.m_files slot).fp
    let file_size := e.2.pos
    let b := e.1.fseek e.2 0
    let fbuf := b.1.fread b.2 file_size
    let fs : CpmFileSystem := { fs with
      m_files := Function.update fs.m_files slot
        { fs.m_files slot with fp := { b.2 with pos := fbuf.length } }
      host := b.1 }
    if fbuf.length ≠ file_size then (fs, .error 3) else (fs, .ok fbuf)

def bdos_pgmld (fs : CpmFileSystem) (caller_tag lpb_offset : BitVec 16)
    (addressing : LoaderAddressing) : CpmFileSystem × ℕ :=
  let lpb_addr := tagged caller_tag lpb_offset
  let fcbaddr := read_long fs.m_mem lpb_addr
  let pgldaddr := read_long fs.m_mem (lpb_addr + 4)
  match read_program fs (offsetOf fcbaddr) with
  | (fs, .error code) => (fs, code)
  | (fs, .ok fbuf) =>
    let l := pgmld_load addressing pgldaddr lpb_addr fbuf fs.m_mem
    ({ fs with m_mem := l.1 }, l.2)

end Cpm8000.Host
