/-
# What a failed load leaves behind

`bdos_pgmld` has its exits with a nonzero code before it touches the machine, but for one: whether
the program fits is asked after the bank is set and every byte of the program is stored. Before all
of them an FCB whose slot is gone is opened anew, which stores a handle in it.

`Untouched` says, of the state before and the file, when nothing of that changes anything;
`pgmld_atomic_iff` that only then a failed load leaves the machine as it was.
-/
import Cpm8000.Host.LoadBounds
import Cpm8000.Host.Open

namespace Cpm8000.Host

open Cpm8000.Sys

/-! ## 1. The bank -/

/-- The banks of a program are the ones in use; on the Z8001 there is nothing to set. -/
def MemoryMap.Configured : MemoryMap → BitVec 16 → BitVec 16 → Prop
  | .segmented _, _, _ => True
  | .z8002 s, code_tag, data_tag =>
    s.m_user_code_bank = Z8002Memory.bank code_tag ∧ s.m_user_data_bank = Z8002Memory.bank data_tag

theorem MemoryMap.configure_program_eq_iff (map : MemoryMap) (code_tag data_tag : BitVec 16) :
    map.configure_program code_tag data_tag = map ↔ map.Configured code_tag data_tag := by
  cases map with
  | segmented s => exact iff_of_true rfl trivial
  | z8002 s =>
    obtain ⟨code, data⟩ := s
    constructor
    · intro h
      injection h with h
      injection h with hcode hdata
      exact ⟨hcode.symm, hdata.symm⟩
    · rintro ⟨hcode, hdata⟩
      rw [MemoryMap.configure_program, Z8002Memory.configure_program, ← hcode, ← hdata]

/-- The emulator's own accesses do not go by the program's banks. -/
@[simp] theorem MemoryMap.configure_program_physical (map : MemoryMap)
    (code_tag data_tag : BitVec 16) (addr : BitVec 32) (space : Bool) :
    (map.configure_program code_tag data_tag).tagged_physical addr space =
      map.tagged_physical addr space := by
  cases map <;> rfl

/-! ## 2. The stores of a load -/

/-- What the loop over the segments stores, and where. -/
def program_stores (map : MemoryMap) (a : LoaderAddressing) (pgldaddr : BitVec 32)
    (fbuf : List Byte) : List (Phys × Byte) :=
  (loop_of a pgldaddr fbuf).stores.map fun st => (map.tagged_physical st.addr false, st.val)

theorem stored_of_eq (a : LoaderAddressing) (pgldaddr : BitVec 32) (fbuf : List Byte)
    (m : HostedMemory) : stored_of a pgldaddr fbuf m =
      ⟨m.map.configure_program (target_of a pgldaddr fbuf).code_load_tag
          (target_of a pgldaddr fbuf).data_load_tag,
        storeAll (program_stores m.map a pgldaddr fbuf) m.m_data⟩ := by
  rw [stored_of, foldl_write_byte]
  simp only [HostedMemory.configure_program, MemoryMap.configure_program_physical]
  rfl

namespace CpmFileSystem

variable {fs : CpmFileSystem}

/-- The slot a reopened FCB gets. -/
def new_slot (fs : CpmFileSystem) (fcb_addr : BitVec 16) : Option (Fin 16) :=
  match fs.find_file_by_fcb fcb_addr with
  | some slot => (fs.close_slot slot).find_open_slot
  | none => fs.find_open_slot

/-- The store of the handle, when the FCB holds no slot of its own. -/
def handle_stores (fs : CpmFileSystem) (fcb_addr : BitVec 16) : List (Phys × Byte) :=
  match fs.held_slot fcb_addr, fs.new_slot fcb_addr with
  | none, some slot =>
    [(fs.m_mem.map.tagged_physical (tagged fs.m_caller_tag (fcb_addr + FCB_AL + 1)) false,
      BitVec.ofNat 8 (slot.val + 1))]
  | _, _ => []

/-- The content of the file an operation on the FCB reads, once what is held back is written. -/
def fcb_file (fs : CpmFileSystem) (fcb_addr : BitVec 16) : Option (List Byte) :=
  if fs.Opens fcb_addr then
    (fs.fcb_stream fcb_addr).map fun fp => (fs.flushed fcb_addr).data fp.inode
  else none

theorem reopen_mem (fcb_addr : BitVec 16) :
    (fs.reopen fcb_addr).2 = none ∧ (fs.reopen fcb_addr).1.m_mem = fs.m_mem ∨
    ∃ slot, fs.find_open_slot = some slot ∧ (fs.reopen fcb_addr).2 = some slot ∧
      (fs.reopen fcb_addr).1.m_mem = Host.mem_write fs.m_caller_tag (fcb_addr + FCB_AL + 1)
        (BitVec.ofNat 8 (slot.val + 1)) fs.m_mem := by
  unfold reopen
  dsimp only
  cases fs.host.stat (fs.fcb_to_host_path fcb_addr) with
  | none => exact .inl ⟨rfl, rfl⟩
  | some n =>
    cases hslot : fs.find_open_slot with
    | none => exact .inl ⟨rfl, rfl⟩
    | some slot =>
      cases fs.fopen_update (fs.fcb_to_host_path fcb_addr) with
      | none => exact .inl ⟨rfl, rfl⟩
      | some fp => exact .inr ⟨slot, rfl, rfl, rfl⟩

/-- **The memory after an FCB is opened**: the handle is stored where the FCB held no slot. -/
theorem ensure_open_mem (fcb_addr : BitVec 16) :
    (fs.ensure_open fcb_addr).2 = none ∧ (fs.ensure_open fcb_addr).1.m_mem = fs.m_mem ∨
    ∃ slot, (fs.ensure_open fcb_addr).2 = some slot ∧ (fs.ensure_open fcb_addr).1.m_mem =
      ⟨fs.m_mem.map, storeAll (fs.handle_stores fcb_addr) fs.m_mem.m_data⟩ := by
  have hreopen : ∀ s : CpmFileSystem, s.m_mem = fs.m_mem → s.m_caller_tag = fs.m_caller_tag →
      fs.held_slot fcb_addr = none → fs.new_slot fcb_addr = s.find_open_slot →
      ((s.reopen fcb_addr).2 = none ∧ (s.reopen fcb_addr).1.m_mem = fs.m_mem ∨
        ∃ slot, (s.reopen fcb_addr).2 = some slot ∧ (s.reopen fcb_addr).1.m_mem =
          ⟨fs.m_mem.map, storeAll (fs.handle_stores fcb_addr) fs.m_mem.m_data⟩) := by
    intro s hmem htag hheld hnew
    rcases @reopen_mem s fcb_addr with ⟨hnone, hm⟩ | ⟨slot, hslot, hsome, hm⟩
    · exact .inl ⟨hnone, hm.trans hmem⟩
    · refine .inr ⟨slot, hsome, ?_⟩
      rw [hm, hmem, htag, handle_stores, hheld, hnew, hslot]
      rfl
  unfold ensure_open
  cases hf : fs.find_file_by_fcb fcb_addr with
  | none =>
    refine hreopen fs rfl rfl ?_ ?_
    · rw [held_slot, hf]
      rfl
    · rw [new_slot, hf]
  | some slot =>
    by_cases hp : (fs.m_files slot).host_path = fs.fcb_to_host_path fcb_addr
    · have hheld : fs.held_slot fcb_addr = some slot := by
        rw [held_slot, hf, Option.filter_some, if_pos (by simpa using hp)]
      simp only [hp, if_true]
      refine .inr ⟨slot, rfl, ?_⟩
      rw [handle_stores, hheld]
      rfl
    · simp only [hp, if_false]
      refine hreopen (fs.close_slot slot) rfl rfl ?_ ?_
      · rw [held_slot, hf, Option.filter_some, if_neg (by simpa using hp)]
      · rw [new_slot, hf]

end CpmFileSystem

/-! ## 3. The file -/

/-- A stream taken to its end and back, and read as far as the end was: the whole file. -/
theorem HostFs.fread_whole (h : HostFs) (fp : Stream) :
    ((h.fseek_end fp).1.fseek (h.fseek_end fp).2 0).1.fread
        ((h.fseek_end fp).1.fseek (h.fseek_end fp).2 0).2 (h.fseek_end fp).2.pos =
      (h.fclose fp).data fp.inode := by
  rw [HostFs.fseek_stream, HostFs.fseek_host, HostFs.fseek_end_stream, HostFs.fseek_end_host,
    HostFs.fclose, HostFs.fflush_of_nil _ _ rfl, HostFs.fread]
  exact slice_all _

section file

variable {fs : CpmFileSystem} (hmap : fs.m_mem.map.Reachable) (fcb_addr : BitVec 16)

include hmap

/-- **What the loader reads is the file the FCB leads to**, and reading it changes no byte but the
handle. -/
theorem read_program_cases :
    (fs.fcb_file fcb_addr = none ∧ (read_program fs fcb_addr).2 = .error 1 ∧
      (read_program fs fcb_addr).1.m_mem = fs.m_mem) ∨
    ∃ fbuf, fs.fcb_file fcb_addr = some fbuf ∧ (read_program fs fcb_addr).2 = .ok fbuf ∧
      (read_program fs fcb_addr).1.m_mem =
        ⟨fs.m_mem.map, storeAll (fs.handle_stores fcb_addr) fs.m_mem.m_data⟩ := by
  have hmem := @CpmFileSystem.ensure_open_mem fs fcb_addr
  have hopens := CpmFileSystem.ensure_open_cases hmap fcb_addr
  unfold read_program CpmFileSystem.fcb_file
  cases he : fs.ensure_open fcb_addr with
  | mk fs' r =>
    rw [he] at hmem hopens
    cases r with
    | none =>
      rcases hopens with ⟨hno, -⟩ | ⟨-, slot, hslot, -⟩
      · rcases hmem with ⟨-, hm⟩ | ⟨slot, hslot, -⟩
        · exact .inl ⟨if_neg hno, rfl, hm⟩
        · cases hslot
      · cases hslot
    | some slot =>
      rcases hopens with ⟨-, hnone⟩ | ⟨hyes, slot', hslot, hop⟩
      · cases hnone
      obtain rfl := Option.some.inj hslot
      rcases hmem with ⟨hnone, -⟩ | ⟨slot', -, hm⟩
      · cases hnone
      refine .inr ⟨(fs.flushed fcb_addr).data (fs'.m_files slot).fp.inode, ?_, ?_⟩
      · rw [if_pos hyes, hop.stream]
        rfl
      · have hwhole := fs'.host.fread_whole (fs'.m_files slot).fp
        have hpos : (fs'.host.fseek_end (fs'.m_files slot).fp).2.pos =
            ((fs'.host.fclose (fs'.m_files slot).fp).data (fs'.m_files slot).fp.inode).length := by
          rw [HostFs.fseek_end_stream]
        dsimp only
        rw [hwhole, hpos, if_neg (not_not.mpr rfl), hop.flushed]
        exact ⟨rfl, hm⟩

end file

/-! ## 4. Failures -/

/-- **A failed load leaves the machine as it was**: the memory of every bank, with the parameter
block in it, and the banks of the program. -/
def LoadAtomic (fs : CpmFileSystem) (caller_tag lpb_offset : BitVec 16) (a : LoaderAddressing) :
    Prop :=
  (bdos_pgmld fs caller_tag lpb_offset a).2 ≠ 0 →
    (bdos_pgmld fs caller_tag lpb_offset a).1.m_mem = fs.m_mem

/-- The memory holds already what a list of stores leaves there. -/
def Holds (m : HostedMemory) (stores : List (Phys × Byte)) : Prop :=
  ∀ c v, lastStore c stores = some v → m.m_data c = v

/-- What a load that fails has nothing to change: a file that is refused, with a handle to store
that is stored already; or a file too large, whose banks are in use and whose bytes are in memory. -/
def Untouched (fs : CpmFileSystem) (fcb_addr : BitVec 16) (pgldaddr : BitVec 32)
    (a : LoaderAddressing) (fbuf : List Byte) : Prop :=
  if Accepted a.accepts_segmented_programs fbuf then
    TooLarge (header_of fbuf).split (header_of fbuf).segs →
      fs.m_mem.map.Configured (target_of a pgldaddr fbuf).code_load_tag
          (target_of a pgldaddr fbuf).data_load_tag ∧
        Holds fs.m_mem (fs.handle_stores fcb_addr ++
          program_stores fs.m_mem.map a pgldaddr fbuf)
  else Holds fs.m_mem (fs.handle_stores fcb_addr)

theorem holds_iff (m : HostedMemory) (stores : List (Phys × Byte)) :
    (⟨m.map, storeAll stores m.m_data⟩ : HostedMemory) = m ↔ Holds m stores := by
  obtain ⟨map, data⟩ := m
  rw [HostedMemory.mk.injEq, eq_self, true_and]
  exact storeAll_eq_self_iff

theorem configured_holds_iff (m : HostedMemory) (code_tag data_tag : BitVec 16)
    (stores : List (Phys × Byte)) :
    (⟨m.map.configure_program code_tag data_tag, storeAll stores m.m_data⟩ : HostedMemory) = m ↔
      m.map.Configured code_tag data_tag ∧ Holds m stores := by
  rw [← MemoryMap.configure_program_eq_iff, ← holds_iff]
  obtain ⟨map, data⟩ := m
  simp only [HostedMemory.mk.injEq, true_and]

/-- **When a failed load leaves the machine as it was**: it finds no file, or one that leaves
nothing to change. -/
theorem pgmld_atomic_iff {fs : CpmFileSystem} (hmap : fs.m_mem.map.Reachable)
    (caller_tag lpb_offset : BitVec 16) (a : LoaderAddressing) :
    LoadAtomic fs caller_tag lpb_offset a ↔
      ∀ fbuf, fs.fcb_file (offsetOf (read_long fs.m_mem (tagged caller_tag lpb_offset))) =
          some fbuf →
        Untouched fs (offsetOf (read_long fs.m_mem (tagged caller_tag lpb_offset)))
          (read_long fs.m_mem (tagged caller_tag lpb_offset + 4)) a fbuf := by
  have hread := read_program_cases hmap
    (offsetOf (read_long fs.m_mem (tagged caller_tag lpb_offset)))
  unfold LoadAtomic bdos_pgmld
  dsimp only
  generalize offsetOf (read_long fs.m_mem (tagged caller_tag lpb_offset)) = fcb_addr at hread ⊢
  generalize read_long fs.m_mem (tagged caller_tag lpb_offset + 4) = pgldaddr
  cases hr : read_program fs fcb_addr with
  | mk fs' r =>
    rw [hr] at hread
    rcases hread with ⟨hfile, rfl, hm⟩ | ⟨fbuf, hfile, rfl, hm⟩
    · refine iff_of_true (fun _ => hm) fun fbuf h => ?_
      rw [hfile] at h
      cases h
    · dsimp only at hm ⊢
      have hall : ∀ P : List Byte → Prop, (∀ g, fs.fcb_file fcb_addr = some g → P g) ↔ P fbuf := by
        intro P
        constructor
        · exact fun h => h fbuf hfile
        · intro h g hg
          rw [hfile] at hg
          exact Option.some.inj hg ▸ h
      rw [hall, pgmld_load_eq, Untouched]
      by_cases hacc : Accepted a.accepts_segmented_programs fbuf
      · rw [if_pos hacc, if_pos hacc]
        by_cases hlarge : TooLarge (header_of fbuf).split (header_of fbuf).segs
        · rw [if_pos hlarge, forall_prop_of_true hlarge, stored_of_eq, hm]
          dsimp only
          rw [← storeAll_append, configured_holds_iff]
          exact ⟨fun h => h (by decide), fun h _ => h⟩
        · rw [if_neg hlarge]
          exact iff_of_true (fun h => absurd rfl h) fun h => absurd h hlarge
      · rw [if_neg hacc, if_neg hacc]
        dsimp only
        rw [hm, holds_iff]
        exact ⟨fun h => h (by decide), fun h _ => h⟩

/-- A combined program of one byte of text that asks for all of the segment as its stack. -/
def tooLargeProgram : List Byte :=
  [0xee, 0x02, 0, 2, 0, 0, 0, 0, 0, 0, 0, 0, 0, 0, 0, 0, 0, 3, 0, 1, 0, 2, 0xfe, 0x00, 0xaa]

theorem pgmld_atomic_iff_tooLarge :
    LoadAtomic (pgmld_fs tooLargeProgram) 0 0x100 Z8002LoaderAddressing ↔
      ∀ fbuf, (pgmld_fs tooLargeProgram).fcb_file
          (offsetOf (read_long (pgmld_fs tooLargeProgram).m_mem (tagged 0 0x100))) = some fbuf →
        Untouched (pgmld_fs tooLargeProgram)
          (offsetOf (read_long (pgmld_fs tooLargeProgram).m_mem (tagged 0 0x100)))
          (read_long (pgmld_fs tooLargeProgram).m_mem (tagged 0 0x100 + 4))
          Z8002LoaderAddressing fbuf :=
  pgmld_atomic_iff .z8002 0 0x100 Z8002LoaderAddressing

/-- The load fails with the program's byte in the TPA. -/
theorem tooLargeProgram_stored :
    ¬ LoadAtomic (pgmld_fs tooLargeProgram) 0 0x100 Z8002LoaderAddressing := by
  intro h
  have hcode : (bdos_pgmld (pgmld_fs tooLargeProgram) 0 0x100 Z8002LoaderAddressing).2 = 2 := by
    decide +kernel
  have hmem := h (by rw [hcode]; decide)
  have hbyte := congrArg (fun m => m.m_data 0x10000) hmem
  revert hbyte
  decide +kernel

end Cpm8000.Host
