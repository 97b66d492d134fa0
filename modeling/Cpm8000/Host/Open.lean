/-
# What an operation finds when it opens its file

`ensure_open` looks a slot up by the handle in the FCB, checks its path, and opens the path anew
where that fails. Everything the operations on records need of it is stated here about the state
before: whether it succeeds (`Opens`), the stream it gives (`fcb_stream`), and what the host holds
once the slot of the handle is flushed (`flushed`). `ensure_open_cases` is the one place that follows
its branches.

An FCB's bytes are 36 consecutive offsets of the caller's tag; on a reachable map a store to one of
them leaves the others alone (`mem_read_mem_write`).
-/
import Cpm8000.Host.File

namespace Cpm8000.Host

open Cpm8000.Sys

/-! ## 1. Streams -/

namespace HostFs

variable (h : HostFs) (fp : Stream)

/-- A flush changes contents only. -/
theorem fclose_eq : ∃ data, h.fclose fp = { h with data := data } := by
  unfold fclose fflush
  split
  · exact ⟨h.data, rfl⟩
  · exact ⟨_, rfl⟩

@[simp] theorem fflush_lookup (path : Str) : (h.fflush fp).1.lookup path = h.lookup path := by
  unfold fflush
  split <;> rfl

@[simp] theorem fclose_lookup (path : Str) : (h.fclose fp).lookup path = h.lookup path :=
  h.fflush_lookup fp path

/-- A flush empties the buffer and keeps the rest of the stream. -/
@[simp] theorem fflush_stream : (h.fflush fp).2 = { fp with pending := [] } := by
  unfold fflush
  split
  · rename_i hp
    rw [← hp]
  · rfl

theorem fflush_of_nil (hp : fp.pending = []) : h.fflush fp = (h, fp) := by
  unfold fflush
  rw [hp]

@[simp] theorem fseek_stream (offset : ℕ) :
    (h.fseek fp offset).2 = { fp with pos := offset, pending := [] } := by
  rw [fseek, fflush_stream]

@[simp] theorem fseek_host (offset : ℕ) : (h.fseek fp offset).1 = h.fclose fp := rfl

@[simp] theorem fseek_end_stream : (h.fseek_end fp).2 =
    { fp with pos := ((h.fclose fp).data fp.inode).length, pending := [] } := by
  rw [fseek_end, fflush_stream]
  rfl

@[simp] theorem fseek_end_host : (h.fseek_end fp).1 = h.fclose fp := rfl

/-- A stream takes all of a write or, when it is open for reading, nothing. -/
theorem fwrite_count (buf : List Byte) :
    (h.fwrite fp buf).2.2 = if fp.writable then buf.length else 0 := by
  unfold fwrite
  split_ifs <;> rfl

end HostFs

namespace CpmFileSystem

variable {fs : CpmFileSystem}

/-! ## 2. The bytes of an FCB -/

/-- **A byte written through the caller's tag is read back, and no other byte is changed.** -/
theorem mem_read_mem_write (hmap : fs.m_mem.map.Reachable) (a b : BitVec 16) (v : Byte) :
    (fs.mem_write a v).mem_read b = if b = a then v else fs.mem_read b := by
  unfold mem_read mem_write Host.mem_read Host.mem_write HostedMemory.read_byte
    HostedMemory.write_byte
  by_cases hab : b = a
  · rw [if_pos hab, hab]
    exact Function.update_self _ _ _
  · rw [if_neg hab]
    refine Function.update_of_ne ?_ _ _
    intro hp
    exact hab (hmap.tagged_inj.mp hp).2

@[simp] theorem mem_write_map (a : BitVec 16) (v : Byte) :
    (fs.mem_write a v).m_mem.map = fs.m_mem.map :=
  HostedMemory.write_byte_map _ _ _

/-- Two bytes of one FCB. -/
theorem fcb_add_inj {fcb_addr i j : BitVec 16} : fcb_addr + i = fcb_addr + j ↔ i = j :=
  BitVec.add_right_inj fcb_addr

/-- The name of an FCB is in its first twelve bytes. -/
theorem read_fcb_name_congr {fs' : CpmFileSystem} {fcb_addr : BitVec 16}
    (h : ∀ i : BitVec 16, i.toNat < 12 →
      fs'.mem_read (fcb_addr + i) = fs.mem_read (fcb_addr + i)) :
    fs'.read_fcb_name fcb_addr = fs.read_fcb_name fcb_addr := by
  have hone : FCB_F1.toNat = 1 := rfl
  refine List.map_congr_left fun i hi => ?_
  have hlt := List.mem_range.mp hi
  rw [BitVec.add_assoc, h]
  rw [BitVec.toNat_add, BitVec.toNat_ofNat, hone]
  omega

/-- The path of an FCB is in its first twelve bytes. -/
theorem path_congr {fs' : CpmFileSystem} {fcb_addr : BitVec 16}
    (hdrives : fs'.m_drive_paths = fs.m_drive_paths)
    (hcurrent : fs'.m_current_drive = fs.m_current_drive)
    (h : ∀ i : BitVec 16, i.toNat < 12 →
      fs'.mem_read (fcb_addr + i) = fs.mem_read (fcb_addr + i)) :
    fs'.fcb_to_host_path fcb_addr = fs.fcb_to_host_path fcb_addr := by
  unfold fcb_to_host_path resolve_drive
  rw [read_fcb_name_congr h, hdrives, hcurrent, h FCB_DR (by decide)]

/-! ## 3. The operations that leave memory alone -/

@[simp] theorem close_slot_path (slot : Fin 16) (fcb_addr : BitVec 16) :
    (fs.close_slot slot).fcb_to_host_path fcb_addr = fs.fcb_to_host_path fcb_addr := rfl

@[simp] theorem seek_mem_read (slot : Fin 16) (offset : ℕ) (a : BitVec 16) :
    (fs.seek slot offset).mem_read a = fs.mem_read a := rfl

@[simp] theorem seek_mem (slot : Fin 16) (offset : ℕ) : (fs.seek slot offset).m_mem = fs.m_mem := rfl

@[simp] theorem write_mem (slot : Fin 16) (buf : List Byte) :
    (fs.write slot buf).1.m_mem = fs.m_mem := rfl

/-! ## 4. The slot an FCB gets -/

/-- The slot the FCB's handle leads to, when it is open for the FCB's own path. -/
def held_slot (fs : CpmFileSystem) (fcb_addr : BitVec 16) : Option (Fin 16) :=
  (fs.find_file_by_fcb fcb_addr).filter fun slot =>
    (fs.m_files slot).host_path = fs.fcb_to_host_path fcb_addr

/-- An operation on the FCB gets a stream: it holds a slot, or its path leads to a file and there is
a slot for it. -/
def Opens (fs : CpmFileSystem) (fcb_addr : BitVec 16) : Prop :=
  (fs.held_slot fcb_addr).isSome ∨
    (fs.host.lookup (fs.fcb_to_host_path fcb_addr)).isSome ∧
      ((fs.find_file_by_fcb fcb_addr).isSome ∨ fs.find_open_slot.isSome)

/-- The stream an operation on the FCB gets. -/
def fcb_stream (fs : CpmFileSystem) (fcb_addr : BitVec 16) : Option Stream :=
  match fs.held_slot fcb_addr with
  | some slot => some (fs.m_files slot).fp
  | none => fs.fopen_update (fs.fcb_to_host_path fcb_addr)

/-- The host once the stream of the FCB's handle is flushed. -/
def flushed (fs : CpmFileSystem) (fcb_addr : BitVec 16) : HostFs :=
  match fs.find_file_by_fcb fcb_addr with
  | some slot => fs.host.fclose (fs.m_files slot).fp
  | none => fs.host

instance (fs : CpmFileSystem) (fcb_addr : BitVec 16) : Decidable (fs.Opens fcb_addr) := by
  unfold Opens
  infer_instance

theorem find_open_slot_inactive {slot : Fin 16} (h : fs.find_open_slot = some slot) :
    (fs.m_files slot).active = false := by
  have hp := List.find?_some h
  simpa using hp

theorem find_open_slot_isSome (slot : Fin 16) (h : (fs.m_files slot).active = false) :
    fs.find_open_slot.isSome := by
  unfold find_open_slot
  rw [List.find?_isSome]
  exact ⟨slot, List.mem_finRange slot, by simp [h]⟩

theorem find_file_by_fcb_active {fcb_addr : BitVec 16} {slot : Fin 16}
    (h : fs.find_file_by_fcb fcb_addr = some slot) : (fs.m_files slot).active = true := by
  unfold find_file_by_fcb at h
  dsimp only at h
  split at h
  · split at h
    · obtain rfl := Option.some.inj h
      assumption
    · cases h
  · cases h

/-- A path that leads to a node can be opened, for update or for reading, and the stream starts at
the node's file. -/
theorem fopen_update_of_lookup {path : Str} {n : Node} (h : fs.host.lookup path = some n) :
    fs.fopen_update path = some ⟨n.inode, !(n.isdir || n.readonly), 0, []⟩ := by
  unfold fopen_update HostFs.fopen_rp HostFs.fopen_r
  rw [h]
  cases hd : n.isdir <;> cases hr : n.readonly <;> simp [hd, hr]

theorem fopen_update_congr {fs' : CpmFileSystem} {path : Str}
    (h : fs'.host.lookup path = fs.host.lookup path) : fs'.fopen_update path = fs.fopen_update path := by
  unfold fopen_update HostFs.fopen_rp HostFs.fopen_r
  rw [h]

/-- **What `ensure_open` leaves when it succeeds.** -/
structure Opened (fs : CpmFileSystem) (fcb_addr : BitVec 16) (fs' : CpmFileSystem)
    (slot : Fin 16) : Prop where
  active : (fs'.m_files slot).active = true
  path : (fs'.m_files slot).host_path = fs.fcb_to_host_path fcb_addr
  stream : fs.fcb_stream fcb_addr = some (fs'.m_files slot).fp
  flushed : fs'.host.fclose (fs'.m_files slot).fp = fs.flushed fcb_addr
  mem : ∀ a, a ≠ fcb_addr + FCB_AL + 1 → fs'.mem_read a = fs.mem_read a
  map : fs'.m_mem.map = fs.m_mem.map
  dma : fs'.m_dma_addr = fs.m_dma_addr
  tag : fs'.m_caller_tag = fs.m_caller_tag

/-- The second half of `ensure_open`, in a state whose FCB path is the one looked up. -/
theorem reopen_cases (hmap : fs.m_mem.map.Reachable) (fcb_addr : BitVec 16) :
    (¬ ((fs.host.lookup (fs.fcb_to_host_path fcb_addr)).isSome ∧ fs.find_open_slot.isSome) ∧
      fs.reopen fcb_addr = (fs, none)) ∨
    ∃ slot fp, (fs.host.lookup (fs.fcb_to_host_path fcb_addr)).isSome ∧
      fs.find_open_slot = some slot ∧ fs.fopen_update (fs.fcb_to_host_path fcb_addr) = some fp ∧
      fp.pending = [] ∧ (fs.reopen fcb_addr).2 = some slot ∧
      ((fs.reopen fcb_addr).1.m_files slot) =
        ⟨fp, fcb_addr, fs.m_caller_tag, true, fs.fcb_to_host_path fcb_addr⟩ ∧
      (fs.reopen fcb_addr).1.host = fs.host ∧
      (∀ a, a ≠ fcb_addr + FCB_AL + 1 → (fs.reopen fcb_addr).1.mem_read a = fs.mem_read a) ∧
      (fs.reopen fcb_addr).1.m_mem.map = fs.m_mem.map ∧
      (fs.reopen fcb_addr).1.m_dma_addr = fs.m_dma_addr ∧
      (fs.reopen fcb_addr).1.m_caller_tag = fs.m_caller_tag := by
  unfold reopen HostFs.stat
  dsimp only
  cases hl : fs.host.lookup (fs.fcb_to_host_path fcb_addr) with
  | none => exact .inl ⟨by simp, rfl⟩
  | some n =>
    cases hs : fs.find_open_slot with
    | none => exact .inl ⟨by simp, rfl⟩
    | some slot =>
      have hfp := fopen_update_of_lookup hl
      refine .inr ⟨slot, _, rfl, rfl, hfp, rfl, ?_⟩
      simp only [hfp]
      refine ⟨trivial, Function.update_self _ _ _, rfl, ?_, rfl, rfl, rfl⟩
      intro a ha
      refine (mem_read_mem_write ?_ _ _ _).trans (if_neg ha)
      exact hmap

/-- **`ensure_open`, from the state before.** -/
theorem ensure_open_cases (hmap : fs.m_mem.map.Reachable) (fcb_addr : BitVec 16) :
    (¬ fs.Opens fcb_addr ∧ (fs.ensure_open fcb_addr).2 = none) ∨
    fs.Opens fcb_addr ∧ ∃ slot, (fs.ensure_open fcb_addr).2 = some slot ∧
      Opened fs fcb_addr (fs.ensure_open fcb_addr).1 slot := by
  unfold ensure_open
  cases hf : fs.find_file_by_fcb fcb_addr with
  | some slot =>
    by_cases hp : (fs.m_files slot).host_path = fs.fcb_to_host_path fcb_addr
    · have hheld : fs.held_slot fcb_addr = some slot := by
        unfold held_slot
        rw [hf, Option.filter_some, if_pos (by simpa using hp)]
      simp only [hp, if_true]
      refine .inr ⟨.inl (by rw [hheld]; rfl), slot, rfl, ?_⟩
      exact {
        active := find_file_by_fcb_active hf
        path := hp
        stream := by rw [fcb_stream, hheld]
        flushed := by rw [CpmFileSystem.flushed, hf]
        mem := fun _ _ => rfl
        map := rfl
        dma := rfl
        tag := rfl }
    · have hheld : fs.held_slot fcb_addr = none := by
        unfold held_slot
        rw [hf, Option.filter_some, if_neg (by simpa using hp)]
      simp only [hp, if_false]
      have hfree : (fs.close_slot slot).find_open_slot.isSome := by
        apply find_open_slot_isSome slot
        simp [close_slot]
      have hlook : (fs.close_slot slot).host.lookup (fs.fcb_to_host_path fcb_addr) =
          fs.host.lookup (fs.fcb_to_host_path fcb_addr) := HostFs.fclose_lookup _ _ _
      rcases @reopen_cases (fs.close_slot slot) hmap fcb_addr with
        ⟨hno, he⟩ | ⟨s, fp, hl, -, hfp, hpend, hs, hfile, hhost, hmem, hm, hd, ht⟩
      · rw [close_slot_path, hlook] at hno
        refine .inl ⟨?_, by rw [he]⟩
        rintro (hh | ⟨hl, -⟩)
        · rw [hheld] at hh
          cases hh
        · exact hno ⟨hl, hfree⟩
      · rw [close_slot_path, hlook] at hl
        rw [close_slot_path, fopen_update_congr hlook] at hfp
        refine .inr ⟨.inr ⟨hl, .inl (by rw [hf]; rfl)⟩, s, hs, ?_⟩
        exact {
          active := by rw [hfile]
          path := by rw [hfile]; rfl
          stream := by rw [fcb_stream, hheld, hfile]; exact hfp
          flushed := by
            rw [hfile, hhost, CpmFileSystem.flushed, hf, HostFs.fclose, HostFs.fflush_of_nil _ _ hpend]
            rfl
          mem := hmem
          map := hm
          dma := hd
          tag := ht }
  | none =>
    have hheld : fs.held_slot fcb_addr = none := by
      unfold held_slot
      rw [hf]
      rfl
    rcases reopen_cases hmap fcb_addr with
      ⟨hno, he⟩ | ⟨s, fp, hl, hslot, hfp, hpend, hs, hfile, hhost, hmem, hm, hd, ht⟩
    · refine .inl ⟨?_, by rw [he]⟩
      rintro (hh | ⟨hl, hh | hfree⟩)
      · rw [hheld] at hh
        cases hh
      · rw [hf] at hh
        cases hh
      · exact hno ⟨hl, hfree⟩
    · refine .inr ⟨.inr ⟨hl, .inr (by rw [hslot]; rfl)⟩, s, hs, ?_⟩
      exact {
        active := by rw [hfile]
        path := by rw [hfile]
        stream := by rw [fcb_stream, hheld, hfile]; exact hfp
        flushed := by
          rw [hfile, hhost, CpmFileSystem.flushed, hf, HostFs.fclose, HostFs.fflush_of_nil _ _ hpend]
        mem := hmem
        map := hm
        dma := hd
        tag := ht }

/-- What closing a slot and taking a free one for a path keep, `ensure_open` keeps. -/
theorem ensure_open_induct {P : CpmFileSystem → Prop}
    (hclose : ∀ (fs : CpmFileSystem) (slot : Fin 16), (fs.m_files slot).active = true → P fs →
      P (fs.close_slot slot))
    (huse : ∀ (fs : CpmFileSystem) (slot : Fin 16) (fp : Stream) (path : Str) (fcb_addr a : BitVec 16)
      (v : Byte), fs.find_open_slot = some slot → fs.fopen_update path = some fp → P fs →
      P ((fs.use_slot slot fp fcb_addr path).mem_write a v))
    (fcb_addr : BitVec 16) (h : P fs) : P (fs.ensure_open fcb_addr).1 := by
  have hreopen : ∀ s : CpmFileSystem, P s → P (s.reopen fcb_addr).1 := by
    intro s hs
    unfold reopen
    dsimp only
    cases s.host.stat (s.fcb_to_host_path fcb_addr) with
    | none => exact hs
    | some n =>
      cases hslot : s.find_open_slot with
      | none => exact hs
      | some slot =>
        cases hfp : s.fopen_update (s.fcb_to_host_path fcb_addr) with
        | none => exact hs
        | some fp => exact huse s slot fp _ _ _ _ hslot hfp hs
  unfold ensure_open
  cases hf : fs.find_file_by_fcb fcb_addr with
  | none => exact hreopen fs h
  | some slot =>
    dsimp only
    split_ifs
    · exact h
    · exact hreopen _ (hclose fs slot (find_file_by_fcb_active hf) h)

/-! ## 5. Opening a file -/

/-- What closing one open slot keeps, closing some of the open slots keeps. -/
theorem close_slots_induct {P : CpmFileSystem → Prop}
    (hclose : ∀ (fs : CpmFileSystem) (slot : Fin 16), (fs.m_files slot).active = true → P fs →
      P (fs.close_slot slot)) (c : CpmFileSystem → Fin 16 → Prop) [∀ s i, Decidable (c s i)]
    (hc : ∀ s i, c s i → (s.m_files i).active = true) (l : List (Fin 16)) (h : P fs) :
    P (l.foldl (fun fs i => if c fs i then fs.close_slot i else fs) fs) := by
  induction l generalizing fs with
  | nil => exact h
  | cons slot l ih =>
    rw [List.foldl_cons]
    split_ifs with hslot
    · exact ih (hclose fs slot (hc fs slot hslot) h)
    · exact ih h

/-- What closing one open slot keeps, closing the stale ones keeps. -/
theorem close_stale_induct {P : CpmFileSystem → Prop}
    (hclose : ∀ (fs : CpmFileSystem) (slot : Fin 16), (fs.m_files slot).active = true → P fs →
      P (fs.close_slot slot)) (fcb_addr : BitVec 16) (h : P fs) : P (fs.close_stale fcb_addr) :=
  close_slots_induct hclose _ (fun _ _ hc => hc.1) _ h

/-- ... and a warm boot, what the end of a search keeps as well. -/
theorem close_user_files_induct {P : CpmFileSystem → Prop}
    (hclose : ∀ (fs : CpmFileSystem) (slot : Fin 16), (fs.m_files slot).active = true → P fs →
      P (fs.close_slot slot)) (hsearch : ∀ fs, P fs → P fs.close_search) (system_tag : BitVec 16)
    (h : P fs) : P (fs.close_user_files system_tag) :=
  hsearch _ (close_slots_induct hclose _ (fun _ _ hc => hc.1) _ h)

theorem close_stale_tag (fcb_addr : BitVec 16) :
    (fs.close_stale fcb_addr).m_caller_tag = fs.m_caller_tag :=
  close_stale_induct (P := fun s => s.m_caller_tag = fs.m_caller_tag) (fun _ _ _ h => h) fcb_addr rfl

theorem close_stale_lookup (fcb_addr : BitVec 16) (path : Str) :
    (fs.close_stale fcb_addr).host.lookup path = fs.host.lookup path :=
  close_stale_induct (P := fun s => s.host.lookup path = fs.host.lookup path)
    (fun s slot _ h => (s.host.fclose_lookup (s.m_files slot).fp path).trans h) fcb_addr rfl

/-- A slot that is free stays free. -/
theorem close_stale_isSome (fcb_addr : BitVec 16) (h : fs.find_open_slot.isSome) :
    (fs.close_stale fcb_addr).find_open_slot.isSome := by
  obtain ⟨slot, hslot⟩ := Option.isSome_iff_exists.mp h
  refine find_open_slot_isSome slot ?_
  refine close_stale_induct (P := fun s => (s.m_files slot).active = false) ?_ fcb_addr
    (find_open_slot_inactive hslot)
  intro s i _ hs
  by_cases hi : slot = i
  · simp [close_slot, hi]
  · simpa [close_slot, hi] using hs

/-- `init_fcb` is a run of byte writes, the last of which stores the handle. -/
theorem init_fcb_eq (fcb_addr : BitVec 16) (s2 rc : Byte) (slot : Fin 16) :
    ∃ m : HostedMemory, m.map = fs.m_mem.map ∧ fs.init_fcb fcb_addr s2 rc slot =
      ({ fs with m_mem := m }).mem_write (fcb_addr + FCB_AL + 1) (BitVec.ofNat 8 (slot.val + 1)) := by
  have hfold : ∀ (l : List ℕ) (s : CpmFileSystem), ∃ m : HostedMemory, m.map = s.m_mem.map ∧
      l.foldl (fun fs i => fs.mem_write (fcb_addr + FCB_AL + BitVec.ofNat 16 i) 0) s =
        { s with m_mem := m } := by
    intro l
    induction l with
    | nil => exact fun s => ⟨s.m_mem, rfl, rfl⟩
    | cons i l ih =>
      intro s
      obtain ⟨m, hm, hs⟩ := ih (s.mem_write (fcb_addr + FCB_AL + BitVec.ofNat 16 i) 0)
      exact ⟨m, hm, by rw [List.foldl_cons, hs]; rfl⟩
  unfold init_fcb
  dsimp only
  obtain ⟨m, hm, hs⟩ := hfold (List.range 16) (((((fs.mem_write (fcb_addr + FCB_EX) 0).mem_write
    (fcb_addr + FCB_S1) 0).mem_write (fcb_addr + FCB_S2) s2).mem_write (fcb_addr + FCB_CR) 0).mem_write
      (fcb_addr + FCB_RC) rc)
  rw [hs]
  exact ⟨Host.mem_write fs.m_caller_tag (fcb_addr + FCB_AL) 1 m, hm, rfl⟩

/-- The handle that was stored leads to its slot. -/
theorem find_file_by_fcb_handle (fcb_addr : BitVec 16) (slot : Fin 16)
    (h : (fs.m_files slot).active = true) :
    (fs.mem_write (fcb_addr + FCB_AL + 1) (BitVec.ofNat 8 (slot.val + 1))).find_file_by_fcb fcb_addr =
      some slot := by
  have hlt := slot.isLt
  have hnat : ((fs.mem_write (fcb_addr + FCB_AL + 1) (BitVec.ofNat 8 (slot.val + 1))).mem_read
      (fcb_addr + FCB_AL + 1)).toNat = slot.val + 1 := by
    have hread : (fs.mem_write (fcb_addr + FCB_AL + 1) (BitVec.ofNat 8 (slot.val + 1))).mem_read
        (fcb_addr + FCB_AL + 1) = BitVec.ofNat 8 (slot.val + 1) := Function.update_self _ _ _
    rw [hread, BitVec.toNat_ofNat]
    omega
  unfold find_file_by_fcb
  dsimp only
  rw [dif_pos (by omega)]
  have hslot : (⟨((fs.mem_write (fcb_addr + FCB_AL + 1) (BitVec.ofNat 8 (slot.val + 1))).mem_read
      (fcb_addr + FCB_AL + 1)).toNat - 1, by omega⟩ : Fin 16) = slot := by
    apply Fin.ext
    dsimp only
    omega
  rw [hslot]
  exact if_pos h

/-- **`file_open` by what the FCB's path leads to.** -/
theorem file_open_cases (fcb_addr : BitVec 16) :
    ((fs.host.lookup (fs.fcb_to_host_path fcb_addr) = none ∨
        (fs.close_stale fcb_addr).find_open_slot = none) ∧ (fs.file_open fcb_addr).2 = 0xff) ∨
    ∃ n slot, fs.host.lookup (fs.fcb_to_host_path fcb_addr) = some n ∧
      (fs.close_stale fcb_addr).find_open_slot = some slot ∧ (fs.file_open fcb_addr).2 = 0 ∧
      (fs.file_open fcb_addr).1.find_file_by_fcb fcb_addr = some slot ∧
      (fs.file_open fcb_addr).1.m_files slot = ⟨⟨n.inode, !(n.isdir || n.readonly), 0, []⟩, fcb_addr,
        fs.m_caller_tag, true, fs.fcb_to_host_path fcb_addr⟩ := by
  unfold file_open HostFs.stat
  dsimp only
  cases hl : fs.host.lookup (fs.fcb_to_host_path fcb_addr) with
  | none => exact .inl ⟨.inl rfl, rfl⟩
  | some n =>
    cases hs : (fs.close_stale fcb_addr).find_open_slot with
    | none => exact .inl ⟨.inr rfl, rfl⟩
    | some slot =>
      have hfp := fopen_update_of_lookup ((close_stale_lookup fcb_addr _).trans hl)
      refine .inr ⟨n, slot, rfl, rfl, ?_⟩
      simp only [hfp]
      generalize entry_rc (fs.host.st_size n) = rc
      obtain ⟨m, -, hinit⟩ := @init_fcb_eq
        ((fs.close_stale fcb_addr).use_slot slot ⟨n.inode, !(n.isdir || n.readonly), 0, []⟩
          fcb_addr (fs.fcb_to_host_path fcb_addr)) fcb_addr 0x80 rc slot
      rw [hinit]
      have hfile : ((fs.close_stale fcb_addr).use_slot slot ⟨n.inode, !(n.isdir || n.readonly), 0, []⟩
          fcb_addr (fs.fcb_to_host_path fcb_addr)).m_files slot =
            ⟨⟨n.inode, !(n.isdir || n.readonly), 0, []⟩, fcb_addr, fs.m_caller_tag, true,
              fs.fcb_to_host_path fcb_addr⟩ := by
        rw [← @close_stale_tag fs fcb_addr]
        exact Function.update_self _ _ _
      refine ⟨trivial, find_file_by_fcb_handle fcb_addr slot ?_, hfile⟩
      exact congrArg OpenFile.active hfile

/-! ## 6. A machine to run -/

/-- The path of a name on drive A. -/
def onA (name : Str) : Str := 0x41 :: 0x2f :: name

/-- A Z8002 machine with an FCB at offset 5c of bank 1, and files in the directory of drive A. -/
def sample (fcb : List Byte) (files : List (Str × List Byte)) : CpmFileSystem where
  m_mem := ⟨.z8002 Z8002Memory.initial, fun p =>
    if 0x1005c ≤ p.toNat then fcb.getD (p.toNat - 0x1005c) 0 else 0⟩
  m_drive_paths i := if i = 0 then [0x41] else [0x42]
  m_current_drive := 0
  m_user := 0
  m_dma_addr := 0x01000080
  m_caller_tag := 0x0100
  m_files _ := ⟨⟨0, false, 0, []⟩, 0, 0, false, []⟩
  m_search := ⟨none, [], 0, [], false, 0⟩
  host :=
    { nodes := ⟨[0x41], files.length, true, false⟩ ::
        files.zipIdx.map fun f => ⟨onA f.1.1, f.2, false, false⟩
      data := fun i => (files.map Prod.snd).getD i []
      fresh := files.length + 1
      nocase := false
      buffered := true
      can_create := fun _ => true }

end CpmFileSystem

end Cpm8000.Host
