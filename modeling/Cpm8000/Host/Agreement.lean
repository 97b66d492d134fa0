/-
# Two readings of one FCB

The router decodes an FCB to choose the backend, and the code behind it decodes the FCB again to find
the file.

* The drive byte: the router takes five bits of it and knows `?`, the file system takes all eight and
  falls back to drive A. `driveAgreement_iff`: for which bytes they mean the same drive.
* The FCB of a `PGMLD`: the router reads it at the tag and offset the LPB holds, the loader at that
  offset of the caller's tag. `loadsNamed_iff`: when the loader still reads the file it names.
-/
import Cpm8000.Host.Router

namespace Cpm8000.Host

open Cpm8000.Sys

namespace CpmFileSystem

variable {fs : CpmFileSystem} {fcb_addr : BitVec 16}

/-! ## 1. The drive of an FCB -/

/-- The operations that act on the path of the FCB. -/
def path_funcs : List ℕ := [15, 19, 20, 21, 22, 23, 33, 34, 35, 40]

/-- **The file system works in the directory of the drive the router chose**: whatever the directories
of the drives are, the paths of an operation are in that drive's, and so is the directory a search
opens. -/
structure DriveAgreement (fs : CpmFileSystem) (func : ℕ) (fcb_addr : BitVec 16) : Prop where
  path : func ∈ path_funcs → ∀ dirs : ℕ → Str,
    ({ fs with m_drive_paths := dirs } : CpmFileSystem).fcb_to_host_path fcb_addr =
      dirs (fcb_drive fs.m_mem fs.m_caller_tag fcb_addr fs) ++
        0x2f :: host_name (fs.read_fcb_name fcb_addr)
  rename : func = 23 → ∀ dirs : ℕ → Str, ∃ name,
    ({ fs with m_drive_paths := dirs } : CpmFileSystem).rename_path fcb_addr =
      dirs (fcb_drive fs.m_mem fs.m_caller_tag fcb_addr fs) ++ 0x2f :: name
  search : func = 17 → ∀ drive, fs.search_drive fcb_addr = some drive →
    drive = fcb_drive fs.m_mem fs.m_caller_tag fcb_addr fs

/-- The drive of the FCB's path. -/
def path_drive (fs : CpmFileSystem) (fcb_addr : BitVec 16) : ℕ :=
  let drive := fs.resolve_drive (fs.mem_read (fcb_addr + FCB_DR))
  if drive ≥ MAX_DRIVES then 0 else drive

/-- The router's drive, by the byte. -/
theorem fcb_drive_eq : fcb_drive fs.m_mem fs.m_caller_tag fcb_addr fs =
    let raw := (fs.mem_read (fcb_addr + FCB_DR)).toNat
    if raw = 63 ∨ raw % 32 = 0 then fs.m_current_drive else raw % 32 - 1 := by
  have hat : fcb_addr + FCB_DR = fcb_addr := BitVec.add_zero fcb_addr
  unfold fcb_drive mem_read Host.mem_read
  rw [hat]
  generalize fs.m_mem.read_byte (tagged fs.m_caller_tag fcb_addr) = raw
  have hmask : (raw &&& 0x1f).toNat = raw.toNat % 32 := by
    rw [BitVec.toNat_and]
    exact Nat.and_two_pow_sub_one_eq_mod _ 5
  have hq : raw = 0x3f ↔ raw.toNat = 63 := by
    rw [← BitVec.toNat_inj]
    rfl
  have hz : raw &&& 0x1f ≠ 0 ↔ raw.toNat % 32 ≠ 0 := by
    rw [Ne, ← BitVec.toNat_inj, hmask]
    rfl
  dsimp only
  simp only [hq, hz, hmask]
  by_cases h63 : raw.toNat = 63 <;> by_cases h0 : raw.toNat % 32 = 0 <;> simp [h63, h0]

/-- The file system's drive, by the byte. -/
theorem path_drive_eq : fs.path_drive fcb_addr =
    let raw := (fs.mem_read (fcb_addr + FCB_DR)).toNat
    let drive := if raw = 0 then fs.m_current_drive else raw - 1
    if drive ≥ 16 then 0 else drive := by
  unfold path_drive resolve_drive
  have hz : fs.mem_read (fcb_addr + FCB_DR) = 0 ↔ (fs.mem_read (fcb_addr + FCB_DR)).toNat = 0 := by
    rw [← BitVec.toNat_inj]
    rfl
  simp only [hz, MAX_DRIVES]

/-- **The bytes both take for the same drive**, where the router's is one of sixteen. -/
theorem path_drive_eq_iff (hlt : fcb_drive fs.m_mem fs.m_caller_tag fcb_addr fs < 16) :
    fs.path_drive fcb_addr = fcb_drive fs.m_mem fs.m_caller_tag fcb_addr fs ↔
      (fs.mem_read (fcb_addr + FCB_DR)).toNat ≤ 16 ∨
      (fs.mem_read (fcb_addr + FCB_DR)).toNat % 32 = 1 ∨
      ((fs.mem_read (fcb_addr + FCB_DR)).toNat = 63 ∨
        (fs.mem_read (fcb_addr + FCB_DR)).toNat % 32 = 0) ∧ fs.m_current_drive = 0 := by
  rw [fcb_drive_eq] at hlt ⊢
  rw [path_drive_eq]
  generalize (fs.mem_read (fcb_addr + FCB_DR)).toNat = raw at *
  dsimp only at *
  split_ifs at * <;> omega

theorem fcb_to_host_path_eq (dirs : ℕ → Str) :
    ({ fs with m_drive_paths := dirs } : CpmFileSystem).fcb_to_host_path fcb_addr =
      dirs (fs.path_drive fcb_addr) ++ 0x2f :: host_name (fs.read_fcb_name fcb_addr) := rfl

theorem rename_path_eq (dirs : ℕ → Str) : ∃ name,
    ({ fs with m_drive_paths := dirs } : CpmFileSystem).rename_path fcb_addr =
      dirs (fs.path_drive fcb_addr) ++ 0x2f :: name := ⟨_, rfl⟩

/-- Drives that are told apart by their directories. -/
theorem drive_eq_of_dirs {i j : ℕ} {a b : Str}
    (h : ∀ dirs : ℕ → Str, dirs i ++ 0x2f :: a = dirs j ++ 0x2f :: b) : i = j := by
  by_contra hne
  have hdirs := h fun k => if k = i then [0x41] else [0x42]
  rw [if_pos rfl, if_neg (Ne.symm hne)] at hdirs
  cases hdirs

/-- A search is in the directory of the router's drive, or in none. -/
theorem search_drive_eq (hlt : fcb_drive fs.m_mem fs.m_caller_tag fcb_addr fs < 16) {drive : ℕ}
    (h : fs.search_drive fcb_addr = some drive) :
    drive = fcb_drive fs.m_mem fs.m_caller_tag fcb_addr fs := by
  have hq : fs.mem_read (fcb_addr + FCB_DR) = 0x3f ↔ (fs.mem_read (fcb_addr + FCB_DR)).toNat = 63 := by
    rw [← BitVec.toNat_inj]
    rfl
  have hz : fs.mem_read (fcb_addr + FCB_DR) = 0 ↔ (fs.mem_read (fcb_addr + FCB_DR)).toNat = 0 := by
    rw [← BitVec.toNat_inj]
    rfl
  rw [fcb_drive_eq] at hlt ⊢
  unfold search_drive resolve_drive at h
  simp only [hq, hz, MAX_DRIVES] at h
  generalize (fs.mem_read (fcb_addr + FCB_DR)).toNat = raw at *
  dsimp only at *
  split_ifs at * <;> cases h <;> omega

/-- Every drive a host directory, and drive B current. -/
def machineAll : Machine where
  s_drives _ := .host_dir
  addressing := Z8002LoaderAddressing
  m_system_tag := 0
  s_alv_offset _ := 0
  s_dpb_offset _ := 0
  s_drive_total_recs _ := 0
  read_console_line _ m := m

def sampleB (fcb : List Byte) : CpmFileSystem := { sample fcb [] with m_current_drive := 1 }

/-- The path that the FCB at a full address names. -/
def named_path (fs : CpmFileSystem) (fcbaddr : BitVec 32) : Str :=
  ({ fs with m_caller_tag := tagOf fcbaddr } : CpmFileSystem).fcb_to_host_path (offsetOf fcbaddr)

/-- **The loader reads the file its LPB names**: the slot it reads is open for the path of the FCB at
the LPB's full address, and it gets none only where that path leads nowhere or no slot is free. -/
structure LoadsNamed (fs : CpmFileSystem) (lpb_offset : BitVec 16) : Prop where
  reads : ∀ slot,
    (fs.ensure_open (offsetOf (read_long fs.m_mem (tagged fs.m_caller_tag lpb_offset)))).2 = some slot →
    ((fs.ensure_open (offsetOf (read_long fs.m_mem (tagged fs.m_caller_tag lpb_offset)))).1.m_files
      slot).host_path = fs.named_path (read_long fs.m_mem (tagged fs.m_caller_tag lpb_offset))
  refuses :
    (fs.ensure_open (offsetOf (read_long fs.m_mem (tagged fs.m_caller_tag lpb_offset)))).2 = none →
    fs.host.lookup (fs.named_path (read_long fs.m_mem (tagged fs.m_caller_tag lpb_offset))) = none ∨
      fs.find_open_slot = none

/-- What `bdos_pgmld` reads is the whole file of the slot that `ensure_open` gives. -/
theorem read_program_ok {fcb_offset : BitVec 16} {fs' : CpmFileSystem} {fbuf : List Byte}
    (h : read_program fs fcb_offset = (fs', .ok fbuf)) :
    ∃ slot, (fs.ensure_open fcb_offset).2 = some slot ∧
      (fs'.m_files slot).host_path = ((fs.ensure_open fcb_offset).1.m_files slot).host_path ∧
      fbuf = fs'.host.data (fs'.m_files slot).fp.inode := by
  unfold read_program at h
  generalize fs.ensure_open fcb_offset = e at h
  obtain ⟨s, none | slot⟩ := e
  · cases h
  · dsimp only at h
    split_ifs at h with hlen
    · cases h
    · obtain ⟨rfl, hbuf⟩ := Prod.mk.inj h
      obtain rfl := Except.ok.inj hbuf
      refine ⟨slot, rfl, ?_, ?_⟩
      · dsimp only
        rw [Function.update_self]
      simp only [Function.update_self, HostFs.fread, HostFs.fseek_stream, HostFs.fseek_host,
        HostFs.fseek_end_stream, HostFs.fseek_end_host]
      have hflushed : ((s.host.fclose (s.m_files slot).fp).fclose { (s.m_files slot).fp with
          pos := ((s.host.fclose (s.m_files slot).fp).data (s.m_files slot).fp.inode).length
          pending := [] }) = s.host.fclose (s.m_files slot).fp := by
        rw [HostFs.fclose, HostFs.fflush_of_nil _ _ rfl]
      rw [hflushed]
      exact slice_all _

/-- Two tags of one page name the same FCB. -/
theorem named_path_of_page (hmap : fs.m_mem.map.Reachable) {fcbaddr : BitVec 32}
    (hpage : fs.m_mem.map.page false fs.m_caller_tag = fs.m_mem.map.page false (tagOf fcbaddr)) :
    fs.fcb_to_host_path (offsetOf fcbaddr) = fs.named_path fcbaddr := by
  have hread : ∀ a, fs.mem_read a =
      ({ fs with m_caller_tag := tagOf fcbaddr } : CpmFileSystem).mem_read a := by
    intro a
    unfold mem_read Host.mem_read HostedMemory.read_byte
    rw [hmap.tagged_inj.mpr ⟨hpage, rfl⟩]
  unfold named_path fcb_to_host_path read_fcb_name
  simp only [hread]
  rfl

/-- An LPB at 0100 of bank 1, whose FCB address is `fcb_tag`:005C; the FCBs at 005C name A in bank 1
and B in bank 2. -/
def sampleLpb (fcb_tag : Byte) : CpmFileSystem :=
  let fs := sample [] [([0x41], [1]), ([0x42], [2])]
  { fs with m_mem := ⟨.z8002 Z8002Memory.initial, fun p =>
      if 0x10100 ≤ p.toNat ∧ p.toNat < 0x10104 then [fcb_tag, 0, 0, 0x5c].getD (p.toNat - 0x10100) 0
      else if 0x1005c ≤ p.toNat ∧ p.toNat < 0x10068 then
        (0 :: 0x41 :: List.replicate 10 0x20).getD (p.toNat - 0x1005c) 0
      else if 0x2005c ≤ p.toNat ∧ p.toNat < 0x20068 then
        (0 :: 0x42 :: List.replicate 10 0x20).getD (p.toNat - 0x2005c) 0
      else 0⟩ }

end CpmFileSystem

end Cpm8000.Host
