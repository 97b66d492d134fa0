/-
# The host file system at the BDOS level

`CpmFileSystem` serves the FCB functions of a drive that is a host directory: it finds the host path
an FCB names, keeps up to sixteen host files open in slots, and stores the slot it uses for a file in
the FCB's allocation map, so that the handle travels with a copied FCB.

The functions stand in the order of the source. Where a C function returns through several exits,
its model returns the state and the code; a slot's stream is only looked at while the slot is
active, when the C pointer is not null.
-/
import Cpm8000.Host.Dma
import Cpm8000.Host.HostFs
import Mathlib.Data.List.DropRight

namespace Cpm8000.Host

open Cpm8000.Sys

/-! ## 1. FCBs and slots -/

def FCB_DR : BitVec 16 := 0
def FCB_F1 : BitVec 16 := 1
def FCB_EX : BitVec 16 := 12
def FCB_S1 : BitVec 16 := 13
def FCB_S2 : BitVec 16 := 14
def FCB_RC : BitVec 16 := 15
def FCB_AL : BitVec 16 := 16
def FCB_CR : BitVec 16 := 32
def FCB_R0 : BitVec 16 := 33
def FCB_R1 : BitVec 16 := 34
def FCB_R2 : BitVec 16 := 35

def MAX_DRIVES : ℕ := 16

structure OpenFile where
  fp : Stream
  fcb_addr : BitVec 16
  fcb_seg : BitVec 16
  active : Bool
  host_path : Str

structure SearchState where
  /-- The names `readdir` has still to return. -/
  dirp : Option (List Str)
  dir_path : Str
  search_drive : ℕ
  search_name : List Byte
  active : Bool
  entry_index : ℕ

structure CpmFileSystem where
  m_mem : HostedMemory
  m_drive_paths : ℕ → Str
  m_current_drive : ℕ
  m_user : Byte
  m_dma_addr : BitVec 32
  m_caller_tag : BitVec 16
  m_files : Fin 16 → OpenFile
  m_search : SearchState
  host : HostFs

namespace CpmFileSystem

variable (fs : CpmFileSystem)

def mem_read (addr : BitVec 16) : Byte := Host.mem_read fs.m_caller_tag addr fs.m_mem

def mem_write (addr : BitVec 16) (val : Byte) : CpmFileSystem :=
  { fs with m_mem := Host.mem_write fs.m_caller_tag addr val fs.m_mem }

/-! ## 2. Names -/

def resolve_drive (fcb_drive : Byte) : ℕ :=
  if fcb_drive = 0 then fs.m_current_drive else fcb_drive.toNat - 1

def read_fcb_name (fcb_addr : BitVec 16) : List Byte :=
  (List.range 11).map fun i => fs.mem_read (fcb_addr + FCB_F1 + BitVec.ofNat 16 i) &&& 0x7f

end CpmFileSystem

/-- The comparison of a search name with a file's. -/
def match_pattern (pattern name : List Byte) : Bool :=
  let ext_wildcard := pattern.getD 8 0 = 0x20 ∧ pattern.getD 9 0 = 0x20 ∧ pattern.getD 10 0 = 0x20
  (List.range 11).all fun i =>
    pattern.getD i 0 = 0x3f ∨ (ext_wildcard ∧ i ≥ 8) ∨
      toupper (pattern.getD i 0) = toupper (name.getD i 0)

/-- A field without its trailing blanks. -/
def trim (field : List Byte) : List Byte := field.rdropWhile fun c => c = 0x20

/-- What a C string that was filled with `l` holds. -/
def cstr (l : List Byte) : Str := l.takeWhile fun c => c ≠ 0

/-- The host's name for the eleven bytes of an FCB name: `fname`, and `ext` after a dot. -/
def host_name (name : List Byte) : Str :=
  let fname := trim (name.take 8)
  let ext := trim (slice name 8 3)
  cstr (fname.map toupper) ++ if ext.length > 0 then 0x2e :: cstr (ext.map toupper) else []

/-- A part of a host name, at most `n` bytes and blank filled. -/
def fcb_field (l : List Byte) (n : ℕ) : List Byte :=
  let l := (l.take n).map toupper
  l ++ List.replicate (n - l.length) 0x20

/-- The eleven bytes of a host name. -/
def filename_to_fcb (host_name : Str) : List Byte :=
  if host_name.head? = some 0x2e then List.replicate 11 0x20
  else
    let base := (host_name.take 8).takeWhile fun c => c ≠ 0x2e
    let p := host_name.drop base.length
    let p := if p.head? = some 0x2e then p.drop 1 else p
    fcb_field base 8 ++ fcb_field p 3

namespace CpmFileSystem

variable (fs : CpmFileSystem)

def fcb_to_host_path (fcb_addr : BitVec 16) : Str :=
  let drive := fs.resolve_drive (fs.mem_read (fcb_addr + FCB_DR))
  let drive := if drive ≥ MAX_DRIVES then 0 else drive
  fs.m_drive_paths drive ++ 0x2f :: host_name (fs.read_fcb_name fcb_addr)

/-! ## 3. Slots -/

def find_open_slot : Option (Fin 16) := (List.finRange 16).find? fun i => !(fs.m_files i).active

/-- The slot whose number the FCB carries. -/
def find_file_by_fcb (fcb_addr : BitVec 16) : Option (Fin 16) :=
  let handle := (fs.mem_read (fcb_addr + FCB_AL + 1)).toNat
  if h : 1 ≤ handle ∧ handle ≤ 16 then
    let slot : Fin 16 := ⟨handle - 1, by omega⟩
    if (fs.m_files slot).active then some slot else none
  else none

/-- `fclose(of->fp); of->active = false`. -/
def close_slot (slot : Fin 16) : CpmFileSystem :=
  { fs with
    m_files := Function.update fs.m_files slot { fs.m_files slot with active := false }
    host := fs.host.fclose (fs.m_files slot).fp }

def close_stale (fcb_addr : BitVec 16) : CpmFileSystem :=
  (List.finRange 16).foldl (fun fs i =>
    if (fs.m_files i).active ∧ (fs.m_files i).fcb_addr = fcb_addr ∧
        (fs.m_files i).fcb_seg = fs.m_caller_tag then fs.close_slot i else fs) fs

/-- The five assignments that take a slot into use. -/
def use_slot (slot : Fin 16) (fp : Stream) (fcb_addr : BitVec 16) (path : Str) : CpmFileSystem :=
  { fs with
    m_files := Function.update fs.m_files slot ⟨fp, fcb_addr, fs.m_caller_tag, true, path⟩ }

/-- `fopen` for update, and for reading where that fails. -/
def fopen_update (path : Str) : Option Stream :=
  match fs.host.fopen_rp path with
  | some fp => some fp
  | none => fs.host.fopen_r path

/-- The second half of `ensure_open`. -/
def reopen (fcb_addr : BitVec 16) : CpmFileSystem × Option (Fin 16) :=
  let path := fs.fcb_to_host_path fcb_addr
  match fs.host.stat path with
  | none => (fs, none)
  | some _ =>
    match fs.find_open_slot with
    | none => (fs, none)
    | some slot =>
      match fs.fopen_update path with
      | none => (fs, none)
      | some fp =>
        ((fs.use_slot slot fp fcb_addr path).mem_write (fcb_addr + FCB_AL + 1)
          (BitVec.ofNat 8 (slot.val + 1)), some slot)

def ensure_open (fcb_addr : BitVec 16) : CpmFileSystem × Option (Fin 16) :=
  match fs.find_file_by_fcb fcb_addr with
  | some slot =>
    if (fs.m_files slot).host_path = fs.fcb_to_host_path fcb_addr then (fs, some slot)
    else (fs.close_slot slot).reopen fcb_addr
  | none => fs.reopen fcb_addr

def close_search : CpmFileSystem :=
  { fs with m_search := { fs.m_search with dirp := none, active := false } }

/-! ## 4. Positions -/

def compute_file_offset (fcb_addr : BitVec 16) : ℕ :=
  let ex := fs.mem_read (fcb_addr + FCB_EX)
  let s2 := fs.mem_read (fcb_addr + FCB_S2) &&& 0x3f
  let cr := fs.mem_read (fcb_addr + FCB_CR)
  let extent := s2.toNat <<< 5 ||| (ex &&& 0x1f).toNat
  (extent * 128 + cr.toNat) * 128

def compute_random_offset (fcb_addr : BitVec 16) : ℕ :=
  let r0 := fs.mem_read (fcb_addr + FCB_R0)
  let r1 := fs.mem_read (fcb_addr + FCB_R1)
  let r2 := fs.mem_read (fcb_addr + FCB_R2)
  let record := r0.toNat <<< 16 ||| r1.toNat <<< 8 ||| r2.toNat
  record * 128

def update_fcb_after_read (fcb_addr : BitVec 16) (offset : ℕ) : CpmFileSystem :=
  let record := offset / 128
  let extent := record / 128
  let cr := record % 128
  ((fs.mem_write (fcb_addr + FCB_EX) (BitVec.ofNat 8 (extent &&& 0x1f))).mem_write
    (fcb_addr + FCB_S2) (BitVec.ofNat 8 ((extent >>> 5) &&& 0x3f))).mem_write
    (fcb_addr + FCB_CR) (BitVec.ofNat 8 cr)

/-- The three bytes of a record number, as `file_size` and `file_set_random` store them. -/
def put_random (fcb_addr : BitVec 16) (record : ℕ) : CpmFileSystem :=
  ((fs.mem_write (fcb_addr + FCB_R0) (BitVec.ofNat 8 (record >>> 16 &&& 0xff))).mem_write
    (fcb_addr + FCB_R1) (BitVec.ofNat 8 (record >>> 8 &&& 0xff))).mem_write
    (fcb_addr + FCB_R2) (BitVec.ofNat 8 (record &&& 0xff))

/-! ## 5. The file operations -/

/-- The FCB fields that `file_open` and `file_make` set; `s2` and `rc` differ, and `file_make` sets
`rc` before `cr`. -/
def init_fcb (fcb_addr : BitVec 16) (s2 rc : Byte) (slot : Fin 16) : CpmFileSystem :=
  let fs := fs.mem_write (fcb_addr + FCB_EX) 0
  let fs := fs.mem_write (fcb_addr + FCB_S1) 0
  let fs := fs.mem_write (fcb_addr + FCB_S2) s2
  let fs := fs.mem_write (fcb_addr + FCB_CR) 0
  let fs := fs.mem_write (fcb_addr + FCB_RC) rc
  let fs := (List.range 16).foldl
    (fun fs i => fs.mem_write (fcb_addr + FCB_AL + BitVec.ofNat 16 i) 0) fs
  let fs := fs.mem_write (fcb_addr + FCB_AL) 1
  fs.mem_write (fcb_addr + FCB_AL + 1) (BitVec.ofNat 8 (slot.val + 1))

def file_open (fcb_addr : BitVec 16) : CpmFileSystem × ℕ :=
  let path := fs.fcb_to_host_path fcb_addr
  match fs.host.stat path with
  | none => (fs, 0xff)
  | some st =>
    let st_size := fs.host.st_size st
    let fs := fs.close_stale fcb_addr
    match fs.find_open_slot with
    | none => (fs, 0xff)
    | some slot =>
      match fs.fopen_update path with
      | none => (fs, 0xff)
      | some fp =>
        ((fs.use_slot slot fp fcb_addr path).init_fcb fcb_addr 0x80 (entry_rc st_size) slot, 0)

def file_close (fcb_addr : BitVec 16) : CpmFileSystem × ℕ :=
  match fs.find_file_by_fcb fcb_addr with
  | none => (fs, 0xff)
  | some slot => ((fs.close_slot slot).mem_write (fcb_addr + FCB_AL + 1) 0, 0)

def file_delete (fcb_addr : BitVec 16) : CpmFileSystem × ℕ :=
  let path := fs.fcb_to_host_path fcb_addr
  let fs := match fs.find_file_by_fcb fcb_addr with
    | some slot => fs.close_slot slot
    | none => fs
  match fs.host.unlink path with
  | (host, true) => ({ fs with host := host }, 0)
  | (host, false) => ({ fs with host := host }, 0xff)

def file_make (fcb_addr : BitVec 16) : CpmFileSystem × ℕ :=
  let path := fs.fcb_to_host_path fcb_addr
  let fs := fs.close_stale fcb_addr
  match fs.find_open_slot with
  | none => (fs, 0xff)
  | some slot =>
    match fs.host.fopen_wp path with
    | (host, none) => ({ fs with host := host }, 0xff)
    | (host, some fp) =>
      (({ fs with host := host }.use_slot slot fp fcb_addr path).init_fcb fcb_addr 0 0 slot, 0)

/-- The path `file_rename` gives the file: the name at the second half of the FCB, on the drive of
the first. -/
def rename_path (fcb_addr : BitVec 16) : Str :=
  let new_name := (List.range 11).map fun i =>
    fs.mem_read (fcb_addr + 16 + 1 + BitVec.ofNat 16 i) &&& 0x7f
  let drive := fs.resolve_drive (fs.mem_read (fcb_addr + FCB_DR))
  let drive := if drive ≥ MAX_DRIVES then 0 else drive
  fs.m_drive_paths drive ++ 0x2f :: host_name new_name

def file_rename (fcb_addr : BitVec 16) : CpmFileSystem × ℕ :=
  match fs.host.rename (fs.fcb_to_host_path fcb_addr) (fs.rename_path fcb_addr) with
  | (host, true) => ({ fs with host := host }, 0)
  | (host, false) => ({ fs with host := host }, 0xff)

/-- The stream of a slot, moved. -/
def seek (slot : Fin 16) (offset : ℕ) : CpmFileSystem :=
  let s := fs.host.fseek (fs.m_files slot).fp offset
  { fs with
    m_files := Function.update fs.m_files slot { fs.m_files slot with fp := s.2 }
    host := s.1 }

/-- The stream of a slot, written to, and the bytes it took. -/
def write (slot : Fin 16) (buf : List Byte) : CpmFileSystem × ℕ :=
  let s := fs.host.fwrite (fs.m_files slot).fp buf
  ({ fs with
    m_files := Function.update fs.m_files slot { fs.m_files slot with fp := s.2.1 }
    host := s.1 }, s.2.2)

/-- A record of the stream of a slot, read into the DMA buffer: what `file_read_seq` and
`file_read_rand` do once they have a slot and an offset. -/
def read_record (fcb_addr : BitVec 16) (slot : Fin 16) (offset : ℕ) : CpmFileSystem × ℕ :=
  let fs := fs.seek slot offset
  let got := fs.host.fread (fs.m_files slot).fp 128
  if got.length = 0 then (fs, 1)
  else
    let buf := got ++ List.replicate (128 - got.length) 0x1a
    let fs := { fs with m_mem := dma_write_block fs.m_dma_addr 0 buf fs.m_mem }
    (fs.update_fcb_after_read fcb_addr (offset + 128), 0)

/-- A record taken from the DMA buffer and written: `file_write_seq` and `file_write_rand`. -/
def write_record (fcb_addr : BitVec 16) (slot : Fin 16) (offset : ℕ) : CpmFileSystem × ℕ :=
  let fs := fs.seek slot offset
  let buf := dma_read_block fs.m_dma_addr 0 128 fs.m_mem
  match fs.write slot buf with
  | (fs, n) => if n ≠ 128 then (fs, 1) else (fs.update_fcb_after_read fcb_addr (offset + 128), 0)

def file_read_seq (fcb_addr : BitVec 16) : CpmFileSystem × ℕ :=
  match fs.ensure_open fcb_addr with
  | (fs, none) => (fs, 0xff)
  | (fs, some slot) => fs.read_record fcb_addr slot (fs.compute_file_offset fcb_addr)

def file_write_seq (fcb_addr : BitVec 16) : CpmFileSystem × ℕ :=
  match fs.ensure_open fcb_addr with
  | (fs, none) => (fs, 0xff)
  | (fs, some slot) => fs.write_record fcb_addr slot (fs.compute_file_offset fcb_addr)

def file_read_rand (fcb_addr : BitVec 16) : CpmFileSystem × ℕ :=
  match fs.ensure_open fcb_addr with
  | (fs, none) => (fs, 0xff)
  | (fs, some slot) => fs.read_record fcb_addr slot (fs.compute_random_offset fcb_addr)

def file_write_rand (fcb_addr : BitVec 16) : CpmFileSystem × ℕ :=
  match fs.ensure_open fcb_addr with
  | (fs, none) => (fs, 0xff)
  | (fs, some slot) => fs.write_record fcb_addr slot (fs.compute_random_offset fcb_addr)

def file_size (fcb_addr : BitVec 16) : CpmFileSystem × ℕ :=
  match fs.host.stat (fs.fcb_to_host_path fcb_addr) with
  | none => (fs, 0xff)
  | some st => (fs.put_random fcb_addr ((fs.host.st_size st + 127) / 128), 0)

def file_set_random (fcb_addr : BitVec 16) : CpmFileSystem × ℕ :=
  (fs.put_random fcb_addr (fs.compute_file_offset fcb_addr / 128), 0)

/-- The loop of `file_write_rand_zf`: zeros from `cur_size` up to `offset`, a record at a time. -/
def zero_fill (slot : Fin 16) (offset : ℕ) (fs : CpmFileSystem) (cur_size : ℕ) : CpmFileSystem :=
  if cur_size < offset then
    let chunk := if offset - cur_size > 128 then 128 else offset - cur_size
    zero_fill slot offset (fs.write slot (List.replicate chunk 0)).1 (cur_size + chunk)
  else fs
termination_by offset - cur_size
decreasing_by
  split_ifs <;> omega

def file_write_rand_zf (fcb_addr : BitVec 16) : CpmFileSystem × ℕ :=
  match fs.ensure_open fcb_addr with
  | (fs, none) => (fs, 0xff)
  | (fs, some slot) =>
    let offset := fs.compute_random_offset fcb_addr
    let s := fs.host.fseek_end (fs.m_files slot).fp
    let fs : CpmFileSystem := { fs with
      m_files := Function.update fs.m_files slot { fs.m_files slot with fp := s.2 }
      host := s.1 }
    let cur_size := s.2.pos
    let fs :=
      if offset > cur_size then zero_fill slot offset (fs.seek slot cur_size) cur_size else fs
    let fs := fs.seek slot offset
    let buf := dma_read_block fs.m_dma_addr 0 128 fs.m_mem
    let fs := (fs.write slot buf).1
    (fs.update_fcb_after_read fcb_addr (offset + 128), 0)

/-- Warm boot: every slot a program opened. -/
def close_user_files (system_tag : BitVec 16) : CpmFileSystem :=
  ((List.finRange 16).foldl (fun fs i =>
    if (fs.m_files i).active ∧ (fs.m_files i).fcb_seg ≠ system_tag then fs.close_slot i
    else fs) fs).close_search

end CpmFileSystem

end Cpm8000.Host
