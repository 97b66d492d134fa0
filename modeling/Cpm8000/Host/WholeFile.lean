/-
# A file read from its first record to its last

`F_OPEN` sets the position to record 0, and every `F_READ` delivers the record of the position and
moves it on. `ReadsAt` says where a program is in this: the slot the FCB holds is open on the file,
and the position is the record that comes next. A read that finds its record keeps it with the next
record (`ReadsAt.delivered`), and one behind the end of the file keeps it as it is (`ReadsAt.ended`).

The position has 18 bits. The file that uses them all has no record after its last one, and the
position after it is record 0 again: `whole_file_iff`.
-/
import Cpm8000.Host.Randrec
import Cpm8000.Host.Size

namespace Cpm8000.Host

open Cpm8000.Sys

namespace CpmFileSystem

variable {fs fs' : CpmFileSystem} {fcb_addr : BitVec 16}

/-! ## 1. What is to be delivered -/

/-- A record of a file, the last one filled up with 1A. -/
def padded (l : List Byte) (n : ℕ) : List Byte :=
  slice l (128 * n) 128 ++ List.replicate (128 - (slice l (128 * n) 128).length) 0x1a

/-- The state after `n` calls of `F_READ`. -/
def after_reads (fs : CpmFileSystem) (fcb_addr : BitVec 16) (n : ℕ) : CpmFileSystem :=
  (fun s : CpmFileSystem => (s.file_read_seq fcb_addr).1)^[n] fs

/-- **The calls of `F_READ` deliver the records of `l` in order**, and then report its end. -/
structure WholeFile (fs : CpmFileSystem) (fcb_addr : BitVec 16) (l : List Byte) : Prop where
  delivered : ∀ n < recordsOf l.length,
    ((fs.after_reads fcb_addr n).file_read_seq fcb_addr).2 = 0 ∧
      ((fs.after_reads fcb_addr n).file_read_seq fcb_addr).1.dma_record = padded l n
  ended : ∀ n, recordsOf l.length ≤ n → ((fs.after_reads fcb_addr n).file_read_seq fcb_addr).2 = 1

theorem length_padded (l : List Byte) (n : ℕ) : (padded l n).length = 128 := by
  rw [padded, List.length_append, List.length_replicate, Nat.add_sub_cancel' (length_slice_le _ _ _)]

theorem lt_recordsOf_iff {k n : ℕ} : k < recordsOf n ↔ 128 * k < n := by
  unfold recordsOf
  omega

/-! ## 2. The FCB and the DMA buffer -/

/-- The bytes of an FCB in which its position is. -/
def position_field (fs : CpmFileSystem) (fcb_addr : BitVec 16) : Set Phys :=
  { p | ∃ i ∈ [FCB_EX, FCB_S2, FCB_CR], p = fs.phys (fcb_addr + i) }

/-- **The DMA buffer is apart from the FCB**: from its drive, its name, its handle and its
position. -/
structure Apart (fs : CpmFileSystem) (fcb_addr : BitVec 16) : Prop where
  fcb : ∀ p ∈ fs.fcb_bytes fcb_addr, p ∉ fs.dma_buffer
  position : ∀ p ∈ fs.position_field fcb_addr, p ∉ fs.dma_buffer

theorem Apart.congr (h : Apart fs fcb_addr) (hc : fs'.context = fs.context) :
    Apart fs' fcb_addr := by
  have hphys : ∀ a, fs'.phys a = fs.phys a := phys_congr hc
  constructor
  · rintro p ⟨i, hi, rfl⟩
    rw [hphys, dma_buffer_congr hc]
    exact h.fcb _ ⟨i, hi, rfl⟩
  · rintro p ⟨i, hi, rfl⟩
    rw [hphys, dma_buffer_congr hc]
    exact h.position _ ⟨i, hi, rfl⟩

theorem fcb_bytes_notMem_position (hmap : fs.m_mem.map.Reachable) (fcb_addr : BitVec 16) :
    ∀ p ∈ fs.fcb_bytes fcb_addr, p ∉ fs.position_field fcb_addr := by
  rintro p ⟨i, hi, rfl⟩ ⟨j, hj, heq⟩
  have hij : i = j := fcb_add_inj.mp (hmap.tagged_inj.mp heq).2
  rcases hi with hi | rfl
  · have hge : 12 ≤ i.toNat := by
      rw [hij]
      fin_cases hj <;> decide
    exact absurd hi (Nat.not_lt_of_le hge)
  · revert hj
    rw [← hij]
    decide

/-- Storing a position changes the position alone. -/
theorem update_alikeOff (fs : CpmFileSystem) (fcb_addr : BitVec 16) (offset : ℕ) :
    AlikeOff (fs.position_field fcb_addr) fs (fs.update_fcb_after_read fcb_addr offset) := by
  have hfield : ∀ i ∈ [FCB_EX, FCB_S2, FCB_CR],
      fs.phys (fcb_addr + i) ∈ fs.position_field fcb_addr := fun i hi => ⟨i, hi, rfl⟩
  exact (((AlikeOff.refl _ fs).mem_write_right (hfield FCB_EX (by decide)) _).mem_write_right
    (hfield FCB_S2 (by decide)) _).mem_write_right (hfield FCB_CR (by decide)) _

/-- A record stored in the DMA buffer. -/
def deliver (fs : CpmFileSystem) (buf : List Byte) : CpmFileSystem :=
  { fs with m_mem := dma_write_block fs.m_dma_addr 0 buf fs.m_mem }

theorem deliver_alikeOff {buf : List Byte} (h : buf.length = 128) :
    AlikeOff fs.dma_buffer fs (fs.deliver buf) := by
  rw [deliver, dma_write_block_eq h]
  refine (AlikeOff.refl _ fs).storeAll_right fun p hp => ?_
  rw [map_fst_storesAt, Transfer.stored, Transfer.map_snd_zipIdx, h] at hp
  obtain ⟨i, hi, rfl⟩ := List.mem_map.mp hp
  exact ⟨i, List.mem_range.mp hi, rfl⟩

theorem deliver_context (fs : CpmFileSystem) (buf : List Byte) :
    (fs.deliver buf).context = fs.context :=
  congrArg (fun m => (m, fs.m_dma_addr, fs.m_caller_tag)) (dma_write_block_map _ _ _ _)

/-- A record that is stored is the record that is taken. -/
theorem dma_read_block_write_block {m : HostedMemory} (hmap : m.map.Reachable) (dma : BitVec 32)
    {buf : List Byte} (h : buf.length = 128) :
    dma_read_block dma 0 128 (dma_write_block dma 0 buf m) = buf := by
  rw [dma_write_block_eq h, dma_read_block_eq]
  dsimp only
  generalize hf : dmaAt m.map dma = f
  have hinj : ∀ i ∈ List.range 128, ∀ j ∈ List.range 128, f i = f j → i = j := by
    intro i hi j hj hij
    have hi' := List.mem_range.mp hi
    have hj' := List.mem_range.mp hj
    rw [← hf] at hij
    exact dmaAt_inj hmap (by omega) (by omega) hij
  have hpos : ((storesAt f (Transfer.file_read buf h).stored).map Prod.fst).Nodup := by
    rw [map_fst_storesAt, Transfer.stored, Transfer.map_snd_zipIdx, h]
    exact List.nodup_range.map_on hinj
  refine List.ext_getElem (by rw [List.length_map, List.length_range, h]) fun i hi hi' => ?_
  rw [List.getElem_map, List.getElem_range]
  refine storeAll_of_nodup hpos ?_
  have hmem : (buf[i], i) ∈ buf.zipIdx :=
    List.mk_mem_zipIdx_iff_getElem?.mpr (List.getElem?_eq_getElem hi')
  have hstored : (i, buf[i]) ∈ (Transfer.file_read buf h).stored :=
    List.mem_map.mpr ⟨(buf[i], i), hmem, rfl⟩
  exact List.mem_map.mpr ⟨(i, buf[i]), hstored, rfl⟩

theorem deliver_dma_record (hmap : fs.m_mem.map.Reachable) {buf : List Byte} (h : buf.length = 128) :
    (fs.deliver buf).dma_record = buf :=
  dma_read_block_write_block hmap fs.m_dma_addr h

/-! ## 3. One read -/

/-- **Where a program is in a file**: the slot that its FCB holds is open on it, and record `k` comes
next. -/
structure ReadsAt (fs : CpmFileSystem) (fcb_addr : BitVec 16) (l : List Byte) (k : ℕ) : Prop where
  map : fs.m_mem.map.Reachable
  apart : Apart fs fcb_addr
  held : ∃ slot, fs.held_slot fcb_addr = some slot ∧ (fs.m_files slot).fp.pending = [] ∧
    fs.host.data (fs.m_files slot).fp.inode = l
  position : fs.file_record fcb_addr = k

theorem AlikeOff.held_slot {S : Set Phys} (h : AlikeOff S fs fs')
    (hS : ∀ p ∈ fs.fcb_bytes fcb_addr, p ∉ S) :
    fs'.held_slot fcb_addr = fs.held_slot fcb_addr := by
  unfold CpmFileSystem.held_slot
  rw [h.find_file_by_fcb hS, h.files, h.path hS]

theorem seek_files (slot i : Fin 16) (offset : ℕ) :
    ((fs.seek slot offset).m_files i).active = (fs.m_files i).active ∧
      ((fs.seek slot offset).m_files i).host_path = (fs.m_files i).host_path := by
  by_cases hi : i = slot
  · rw [hi, seek_file]
    exact ⟨rfl, rfl⟩
  · have hother : (fs.seek slot offset).m_files i = fs.m_files i := Function.update_of_ne hi _ _
    rw [hother]
    exact ⟨rfl, rfl⟩

theorem seek_held_slot (slot : Fin 16) (offset : ℕ) :
    (fs.seek slot offset).held_slot fcb_addr = fs.held_slot fcb_addr := by
  have hfind : (fs.seek slot offset).find_file_by_fcb fcb_addr = fs.find_file_by_fcb fcb_addr := by
    unfold find_file_by_fcb
    simp only [seek_mem_read, seek_files]
  have hpath : (fs.seek slot offset).fcb_to_host_path fcb_addr = fs.fcb_to_host_path fcb_addr := rfl
  unfold held_slot
  simp only [hfind, hpath, seek_files]

theorem ensure_open_of_held {slot : Fin 16} (h : fs.held_slot fcb_addr = some slot) :
    fs.ensure_open fcb_addr = (fs, some slot) := by
  obtain ⟨hf, hp⟩ := Option.filter_eq_some_iff.mp h
  unfold ensure_open
  rw [hf]
  exact if_pos (by simpa using hp)

/-- Reading the record of the position. -/
theorem ReadsAt.read_eq {l : List Byte} {k : ℕ} (h : ReadsAt fs fcb_addr l k) :
    ∃ slot, fs.held_slot fcb_addr = some slot ∧
      (fs.seek slot (128 * k)).host = fs.host ∧
      fs.host.data (fs.m_files slot).fp.inode = l ∧
      fs.file_read_seq fcb_addr = if (slice l (128 * k) 128).length = 0 then (fs.seek slot (128 * k), 1)
        else (((fs.seek slot (128 * k)).deliver (padded l k)).update_fcb_after_read fcb_addr
          (128 * (k + 1)), 0) := by
  obtain ⟨slot, hheld, hpending, hdata⟩ := h.held
  have hopen := ensure_open_of_held hheld
  have hoffset : fs.compute_file_offset fcb_addr = 128 * k := by
    rw [← h.position, file_record, compute_file_offset_eq, Nat.mul_div_cancel _ (by decide),
      Nat.mul_comm]
  have hhost : (fs.seek slot (128 * k)).host = fs.host := by
    unfold seek
    dsimp only
    rw [HostFs.fseek_host, HostFs.fclose, HostFs.fflush_of_nil _ _ hpending]
  have hgot : (fs.seek slot (128 * k)).host.fread ((fs.seek slot (128 * k)).m_files slot).fp 128 =
      slice l (128 * k) 128 := by
    rw [hhost, seek_file, ← hdata]
    rfl
  refine ⟨slot, hheld, hhost, hdata, ?_⟩
  rw [file_read_seq_eq, with_open_some (congrArg Prod.snd hopen), hopen, hoffset]
  unfold read_record
  dsimp only
  rw [hgot]
  rfl

/-- **A record that is there is delivered**, and the next one comes next. -/
theorem ReadsAt.delivered {l : List Byte} {k : ℕ} (h : ReadsAt fs fcb_addr l k)
    (hk : k < recordsOf l.length) :
    (fs.file_read_seq fcb_addr).2 = 0 ∧ (fs.file_read_seq fcb_addr).1.dma_record = padded l k ∧
      ReadsAt (fs.file_read_seq fcb_addr).1 fcb_addr l ((k + 1) % 2 ^ 18) := by
  obtain ⟨slot, hheld, hhost, hdata, hread⟩ := h.read_eq
  have hlt := lt_recordsOf_iff.mp hk
  have hgot : (slice l (128 * k) 128).length ≠ 0 := by
    rw [slice, List.length_take, List.length_drop]
    omega
  have hcontext : ((fs.seek slot (128 * k)).deliver (padded l k)).context = fs.context :=
    deliver_context _ _
  have hmap : ((fs.seek slot (128 * k)).deliver (padded l k)).m_mem.map.Reachable := by
    have hsame := (Prod.mk.inj hcontext).1
    rw [hsame]
    exact h.map
  have hapart := h.apart.congr hcontext
  have hdeliver := @deliver_alikeOff (fs.seek slot (128 * k)) _ (length_padded l k)
  have hupdate := update_alikeOff ((fs.seek slot (128 * k)).deliver (padded l k)) fcb_addr
    (128 * (k + 1))
  rw [hread, if_neg hgot]
  refine ⟨rfl, ?_, hmap, hapart.congr rfl, ⟨slot, ?_, ?_, ?_⟩, file_record_update hmap fcb_addr _⟩
  · refine (hupdate.dma_read_block fun p hp hp' => hapart.position p hp' hp).trans ?_
    exact deliver_dma_record h.map (length_padded l k)
  · rw [hupdate.held_slot (fcb_bytes_notMem_position hmap fcb_addr), hdeliver.held_slot h.apart.fcb,
      seek_held_slot, hheld]
  · rw [hupdate.files, hdeliver.files, seek_file]
  · rw [hupdate.files, hupdate.host, hdeliver.files, hdeliver.host, seek_file, hhost, hdata]

/-- **Behind the last record the end is reported**, and nothing moves. -/
theorem ReadsAt.ended {l : List Byte} {k : ℕ} (h : ReadsAt fs fcb_addr l k)
    (hk : recordsOf l.length ≤ k) :
    (fs.file_read_seq fcb_addr).2 = 1 ∧ ReadsAt (fs.file_read_seq fcb_addr).1 fcb_addr l k := by
  obtain ⟨slot, hheld, hhost, hdata, hread⟩ := h.read_eq
  have hge : ¬ 128 * k < l.length := fun hlt => Nat.not_lt_of_le hk (lt_recordsOf_iff.mpr hlt)
  have hgot : (slice l (128 * k) 128).length = 0 := by
    rw [slice, List.length_take, List.length_drop]
    omega
  rw [hread, if_pos hgot]
  refine ⟨rfl, h.map, h.apart.congr rfl, ⟨slot, ?_, ?_, ?_⟩, h.position⟩
  · rw [seek_held_slot, hheld]
  · rw [seek_file]
  · rw [seek_file, hhost, hdata]

/-! ## 4. Opening -/

/-- The allocation map cleared. -/
def clear_al (fs : CpmFileSystem) (fcb_addr : BitVec 16) : CpmFileSystem :=
  (List.range 16).foldl (fun fs j => fs.mem_write (fcb_addr + FCB_AL + BitVec.ofNat 16 j) 0) fs

/-- Clearing the allocation map leaves the rest of the FCB alone. -/
theorem clear_al_read (hmap : fs.m_mem.map.Reachable) (fcb_addr : BitVec 16) :
    (fs.clear_al fcb_addr).m_mem.map = fs.m_mem.map ∧
      ∀ i : BitVec 16, i.toNat < 16 ∨ 32 ≤ i.toNat →
        (fs.clear_al fcb_addr).mem_read (fcb_addr + i) = fs.mem_read (fcb_addr + i) := by
  have hrun : ∀ (l : List ℕ) (s : CpmFileSystem), s.m_mem.map = fs.m_mem.map → (∀ j ∈ l, j < 16) →
      let s' := l.foldl (fun fs j => fs.mem_write (fcb_addr + FCB_AL + BitVec.ofNat 16 j) 0) s
      s'.m_mem.map = fs.m_mem.map ∧ ∀ i : BitVec 16, i.toNat < 16 ∨ 32 ≤ i.toNat →
        s'.mem_read (fcb_addr + i) = s.mem_read (fcb_addr + i) := by
    intro l
    induction l with
    | nil => exact fun s hs _ => ⟨hs, fun i _ => rfl⟩
    | cons j l ih =>
      intro s hs hl
      have hj := hl j (List.mem_cons_self ..)
      obtain ⟨hmap', hread⟩ := ih (s.mem_write (fcb_addr + FCB_AL + BitVec.ofNat 16 j) 0) hs
        fun j hj => hl j (List.mem_cons_of_mem _ hj)
      refine ⟨hmap', fun i hi => (hread i hi).trans ?_⟩
      rw [mem_read_mem_write (hs ▸ hmap), if_neg]
      rw [BitVec.add_assoc, fcb_add_inj]
      intro heq
      have hal : FCB_AL.toNat = 16 := rfl
      have hnat := congrArg BitVec.toNat heq
      rw [BitVec.toNat_add, BitVec.toNat_ofNat, hal] at hnat
      omega
  exact hrun (List.range 16) fs rfl fun j hj => List.mem_range.mp hj

/-- The five fields that `init_fcb` sets first. -/
def init_fields (fs : CpmFileSystem) (fcb_addr : BitVec 16) (s2 rc : Byte) : CpmFileSystem :=
  ((((fs.mem_write (fcb_addr + FCB_EX) 0).mem_write (fcb_addr + FCB_S1) 0).mem_write
    (fcb_addr + FCB_S2) s2).mem_write (fcb_addr + FCB_CR) 0).mem_write (fcb_addr + FCB_RC) rc

theorem init_fcb_fields (fs : CpmFileSystem) (fcb_addr : BitVec 16) (s2 rc : Byte) (slot : Fin 16) :
    fs.init_fcb fcb_addr s2 rc slot =
      (((fs.init_fields fcb_addr s2 rc).clear_al fcb_addr).mem_write (fcb_addr + FCB_AL) 1).mem_write
        (fcb_addr + FCB_AL + 1) (BitVec.ofNat 8 (slot.val + 1)) := rfl

@[simp] theorem init_fields_map (fcb_addr : BitVec 16) (s2 rc : Byte) :
    (fs.init_fields fcb_addr s2 rc).m_mem.map = fs.m_mem.map := by
  simp only [init_fields, mem_write_map]

/-- The bytes of an FCB beside its allocation map, after it is opened or made. -/
theorem init_fcb_read (hmap : fs.m_mem.map.Reachable) (s2 rc : Byte) (slot : Fin 16) {i : BitVec 16}
    (hi : i.toNat < 16 ∨ 32 ≤ i.toNat) :
    (fs.init_fcb fcb_addr s2 rc slot).mem_read (fcb_addr + i) =
      (fs.init_fields fcb_addr s2 rc).mem_read (fcb_addr + i) := by
  have hal : FCB_AL.toNat = 16 := rfl
  have hal1 : (FCB_AL + 1).toNat = 17 := rfl
  have hne : fcb_addr + i ≠ fcb_addr + FCB_AL := by
    rw [Ne, fcb_add_inj]
    rintro rfl
    omega
  have hne1 : fcb_addr + i ≠ fcb_addr + FCB_AL + 1 := by
    rw [BitVec.add_assoc, Ne, fcb_add_inj]
    rintro rfl
    omega
  have hsmap : (fs.init_fields fcb_addr s2 rc).m_mem.map.Reachable := by
    rw [init_fields_map]
    exact hmap
  obtain ⟨hcmap, hcread⟩ := clear_al_read hsmap fcb_addr
  have hcmap' : ((fs.init_fields fcb_addr s2 rc).clear_al fcb_addr).m_mem.map.Reachable := by
    rw [hcmap]
    exact hsmap
  have hmap' : (((fs.init_fields fcb_addr s2 rc).clear_al fcb_addr).mem_write (fcb_addr + FCB_AL)
      1).m_mem.map.Reachable := by
    rw [mem_write_map]
    exact hcmap'
  rw [init_fcb_fields, mem_read_mem_write hmap', if_neg hne1, mem_read_mem_write hcmap', if_neg hne,
    hcread i hi]

/-- The fields, and what they leave alone. -/
theorem init_fields_read (hmap : fs.m_mem.map.Reachable) (s2 rc : Byte) (i : BitVec 16) :
    (fs.init_fields fcb_addr s2 rc).mem_read (fcb_addr + i) =
      if i = FCB_RC then rc else if i = FCB_CR then 0 else if i = FCB_S2 then s2
      else if i = FCB_S1 then 0 else if i = FCB_EX then 0 else fs.mem_read (fcb_addr + i) := by
  simp only [init_fields, mem_read_mem_write, mem_write_map, hmap, fcb_add_inj]

/-- `init_fcb` writes to memory alone. -/
theorem init_fcb_frame (fcb_addr : BitVec 16) (s2 rc : Byte) (slot : Fin 16) :
    (fs.init_fcb fcb_addr s2 rc slot).context = fs.context ∧
      (fs.init_fcb fcb_addr s2 rc slot).m_drive_paths = fs.m_drive_paths ∧
      (fs.init_fcb fcb_addr s2 rc slot).m_current_drive = fs.m_current_drive := by
  obtain ⟨m, hm, hinit⟩ := @init_fcb_eq fs fcb_addr s2 rc slot
  rw [hinit]
  exact ⟨congrArg (fun map => (map, fs.m_dma_addr, fs.m_caller_tag)) hm, rfl, rfl⟩

/-- The state a successful `file_open` leaves. -/
theorem file_open_state (h : (fs.file_open fcb_addr).2 = 0) : ∃ slot fp rc,
    (fs.file_open fcb_addr).1 = ((fs.close_stale fcb_addr).use_slot slot fp fcb_addr
      (fs.fcb_to_host_path fcb_addr)).init_fcb fcb_addr 0x80 rc slot := by
  unfold file_open at h ⊢
  dsimp only at h ⊢
  cases hs : fs.host.stat (fs.fcb_to_host_path fcb_addr) with
  | none =>
    rw [hs] at h
    cases h
  | some n =>
    cases hslot : (fs.close_stale fcb_addr).find_open_slot with
    | none =>
      rw [hs, hslot] at h
      cases h
    | some slot =>
      cases hfp : (fs.close_stale fcb_addr).fopen_update (fs.fcb_to_host_path fcb_addr) with
      | none =>
        rw [hs, hslot, hfp] at h
        cases h
      | some fp => exact ⟨slot, fp, _, rfl⟩

/-- Closing slots and taking one into use leaves everything the FCB is read through. -/
theorem close_stale_use_frame (slot : Fin 16) (fp : Stream) (path : Str) :
    ((fs.close_stale fcb_addr).use_slot slot fp fcb_addr path).context = fs.context ∧
      ((fs.close_stale fcb_addr).use_slot slot fp fcb_addr path).m_drive_paths = fs.m_drive_paths ∧
      ((fs.close_stale fcb_addr).use_slot slot fp fcb_addr path).m_current_drive =
        fs.m_current_drive ∧
      ((fs.close_stale fcb_addr).use_slot slot fp fcb_addr path).mem_read = fs.mem_read := by
  refine close_stale_induct (P := fun s => (s.use_slot slot fp fcb_addr path).context = fs.context ∧
    (s.use_slot slot fp fcb_addr path).m_drive_paths = fs.m_drive_paths ∧
    (s.use_slot slot fp fcb_addr path).m_current_drive = fs.m_current_drive ∧
    (s.use_slot slot fp fcb_addr path).mem_read = fs.mem_read) ?_ fcb_addr ⟨rfl, rfl, rfl, rfl⟩
  intro s i _ hs
  exact hs

/-- **After a file is opened its first record comes next.** -/
theorem file_open_readsAt (hmap : fs.m_mem.map.Reachable) (hapart : Apart fs fcb_addr)
    (hopen : (fs.file_open fcb_addr).2 = 0) {n : Node}
    (hn : fs.host.lookup (fs.fcb_to_host_path fcb_addr) = some n) :
    ReadsAt (fs.file_open fcb_addr).1 fcb_addr ((fs.file_open fcb_addr).1.host.data n.inode) 0 := by
  rcases @file_open_cases fs fcb_addr with ⟨-, hfail⟩ | ⟨n', slot, hn', -, -, hfind, hfile⟩
  · rw [hopen] at hfail
    cases hfail
  · obtain rfl : n' = n := Option.some.inj (hn'.symm.trans hn)
    obtain ⟨slot', fp, rc, hstate⟩ := file_open_state hopen
    obtain ⟨hcontext, hdrives, hcurrent, hmem⟩ :=
      @close_stale_use_frame fs fcb_addr slot' fp (fs.fcb_to_host_path fcb_addr)
    generalize (fs.close_stale fcb_addr).use_slot slot' fp fcb_addr (fs.fcb_to_host_path fcb_addr) = s
      at hstate hcontext hdrives hcurrent hmem
    have hsmap : s.m_mem.map.Reachable := by
      rw [(Prod.mk.inj hcontext).1]
      exact hmap
    obtain ⟨hcontext', hdrives', hcurrent'⟩ := @init_fcb_frame s fcb_addr 0x80 rc slot'
    have hread : ∀ i : BitVec 16, i.toNat < 16 ∨ 32 ≤ i.toNat →
        (fs.file_open fcb_addr).1.mem_read (fcb_addr + i) =
          (s.init_fields fcb_addr 0x80 rc).mem_read (fcb_addr + i) := by
      intro i hi
      rw [hstate, init_fcb_read hsmap 0x80 rc slot' hi]
    simp only [init_fields_read hsmap] at hread
    rw [← hstate] at hcontext' hdrives' hcurrent'
    have hpath : (fs.file_open fcb_addr).1.fcb_to_host_path fcb_addr = fs.fcb_to_host_path fcb_addr := by
      refine path_congr (hdrives'.trans hdrives) (hcurrent'.trans hcurrent) fun i hi => ?_
      have hne : ∀ j ∈ [FCB_RC, FCB_CR, FCB_S2, FCB_S1, FCB_EX], i ≠ j := by
        rintro j hj rfl
        revert hi
        fin_cases hj <;> decide
      rw [hread i (.inl (by omega)), if_neg (hne _ (by decide)), if_neg (hne _ (by decide)),
        if_neg (hne _ (by decide)), if_neg (hne _ (by decide)), if_neg (hne _ (by decide)), hmem]
    refine ⟨?_, hapart.congr (hcontext'.trans hcontext), ⟨slot, ?_, ?_, ?_⟩, ?_⟩
    · rw [(Prod.mk.inj (hcontext'.trans hcontext)).1]
      exact hmap
    · rw [held_slot, hfind, Option.filter_some, if_pos]
      rw [hfile, hpath]
      exact decide_eq_true rfl
    · rw [hfile]
    · rw [hfile]
    · have hs2 : (fs.file_open fcb_addr).1.mem_read (fcb_addr + FCB_S2) = 0x80 :=
        (hread FCB_S2 (by decide)).trans rfl
      have hex : (fs.file_open fcb_addr).1.mem_read (fcb_addr + FCB_EX) = 0 :=
        (hread FCB_EX (by decide)).trans rfl
      have hcr : (fs.file_open fcb_addr).1.mem_read (fcb_addr + FCB_CR) = 0 :=
        (hread FCB_CR (by decide)).trans rfl
      rw [file_record, compute_file_offset_eq, hs2, hex, hcr]
      rfl

/-! ## 5. The whole file -/

/-- Where the program is after `n` reads: at record `n`, or at the end. -/
theorem ReadsAt.after {l : List Byte} (h : ReadsAt fs fcb_addr l 0)
    (hl : recordsOf l.length < 2 ^ 18) (n : ℕ) :
    ReadsAt (fs.after_reads fcb_addr n) fcb_addr l (min n (recordsOf l.length)) := by
  induction n with
  | zero =>
    rw [Nat.zero_min]
    exact h
  | succ n ih =>
    have hstep : fs.after_reads fcb_addr (n + 1) =
        ((fs.after_reads fcb_addr n).file_read_seq fcb_addr).1 := Function.iterate_succ_apply' _ _ _
    rw [hstep]
    rcases Nat.lt_or_ge n (recordsOf l.length) with hlt | hge
    · rw [Nat.min_eq_left hlt.le] at ih
      obtain ⟨-, -, hnext⟩ := ih.delivered hlt
      rw [Nat.mod_eq_of_lt (by omega)] at hnext
      rwa [Nat.min_eq_left hlt]
    · rw [Nat.min_eq_right hge] at ih
      obtain ⟨-, hsame⟩ := ih.ended (Nat.le_refl _)
      rwa [Nat.min_eq_right (Nat.le_succ_of_le hge)]

/-- In a file that uses every position, each read is served, for the position goes round. -/
theorem ReadsAt.round {l : List Byte} (h : ReadsAt fs fcb_addr l 0)
    (hl : 2 ^ 18 ≤ recordsOf l.length) (n : ℕ) :
    ReadsAt (fs.after_reads fcb_addr n) fcb_addr l (n % 2 ^ 18) := by
  induction n with
  | zero => exact h
  | succ n ih =>
    have hstep : fs.after_reads fcb_addr (n + 1) =
        ((fs.after_reads fcb_addr n).file_read_seq fcb_addr).1 := Function.iterate_succ_apply' _ _ _
    have hlt : n % 2 ^ 18 < 2 ^ 18 := Nat.mod_lt n (by decide)
    obtain ⟨-, -, hnext⟩ := ih.delivered (hlt.trans_le hl)
    rw [hstep]
    rwa [Nat.mod_add_mod] at hnext

theorem ReadsAt.whole_file {l : List Byte} (h : ReadsAt fs fcb_addr l 0)
    (hl : recordsOf l.length < 2 ^ 18) : WholeFile fs fcb_addr l := by
  constructor
  · intro n hn
    have hat := h.after hl n
    rw [Nat.min_eq_left hn.le] at hat
    obtain ⟨hcode, hrecord, -⟩ := hat.delivered hn
    exact ⟨hcode, hrecord⟩
  · intro n hn
    have hat := h.after hl n
    rw [Nat.min_eq_right hn] at hat
    exact (hat.ended (Nat.le_refl _)).1

/-- Where the position goes round, the end of the file is never reported. -/
theorem ReadsAt.not_whole_file {l : List Byte} (h : ReadsAt fs fcb_addr l 0)
    (hl : 2 ^ 18 ≤ recordsOf l.length) : ¬ WholeFile fs fcb_addr l := by
  intro hwhole
  have hlast := hwhole.ended _ (Nat.le_refl _)
  have hlt : recordsOf l.length % 2 ^ 18 < 2 ^ 18 := Nat.mod_lt _ (by decide)
  obtain ⟨hcode, -, -⟩ := (h.round hl (recordsOf l.length)).delivered (hlt.trans_le hl)
  rw [hlast] at hcode
  cases hcode

/-- **A file that is opened is read from its first record to its last exactly where the position has
room for the record behind the last one.** -/
theorem whole_file_iff (hmap : fs.m_mem.map.Reachable) (hapart : Apart fs fcb_addr)
    (hopen : (fs.file_open fcb_addr).2 = 0) {i : ℕ}
    (hi : (fs.host.lookup (fs.fcb_to_host_path fcb_addr)).map Node.inode = some i) :
    WholeFile (fs.file_open fcb_addr).1 fcb_addr ((fs.file_open fcb_addr).1.host.data i) ↔
      recordsOf ((fs.file_open fcb_addr).1.host.data i).length < 2 ^ 18 := by
  obtain ⟨n, hn, rfl⟩ := Option.map_eq_some_iff.mp hi
  have hat := file_open_readsAt hmap hapart hopen hn
  constructor
  · intro hwhole
    by_contra hnot
    exact hat.not_whole_file (Nat.le_of_not_lt hnot) hwhole
  · exact hat.whole_file

/-- The buffer is apart from the FCB where no offset of the one is an offset of the other. -/
theorem apart_of_offsets (hmap : fs.m_mem.map.Reachable) (h : ∀ i : BitVec 16, i.toNat < 33 →
    ∀ j < 128, fcb_addr + i ≠ offsetOf fs.m_dma_addr + BitVec.ofNat 16 j) : Apart fs fcb_addr := by
  have hout : ∀ i : BitVec 16, i.toNat < 33 → fs.phys (fcb_addr + i) ∉ fs.dma_buffer := by
    rintro i hi ⟨j, hj, heq⟩
    rw [dmaAt, dma_add _ (by omega)] at heq
    exact h i hi j hj (hmap.tagged_inj.mp heq).2
  constructor
  · rintro p ⟨i, hi, rfl⟩
    refine hout i ?_
    rcases hi with hi | rfl
    · exact hi.trans (by decide)
    · decide
  · rintro p ⟨i, hi, rfl⟩
    refine hout i ?_
    fin_cases hi <;> decide

/-- A file of `n` zeros. -/
def zerosA (n : ℕ) : CpmFileSystem := sample fcb_a [([0x41], List.replicate n 0)]

theorem zerosA_apart (n : ℕ) : Apart (zerosA n) 0x5c := by
  refine apart_of_offsets .z8002 fun i hi j hj heq => ?_
  have hnat := congrArg BitVec.toNat heq
  have hdma : (zerosA n).m_dma_addr = 0x01000080 := rfl
  have hoffset : (offsetOf 0x01000080).toNat = 0x80 := by decide
  have hfcb : (0x5c : BitVec 16).toNat = 0x5c := rfl
  rw [hdma, BitVec.toNat_add, BitVec.toNat_add, BitVec.toNat_ofNat, hoffset, hfcb] at hnat
  omega

/-- A file of 300 bytes. -/
theorem whole_file_iff_300 :
    WholeFile ((zerosA 300).file_open 0x5c).1 0x5c (((zerosA 300).file_open 0x5c).1.host.data 0) ↔
      recordsOf (((zerosA 300).file_open 0x5c).1.host.data 0).length < 2 ^ 18 :=
  whole_file_iff .z8002 (zerosA_apart 300) (by decide +kernel) (by decide +kernel)

theorem close_stale_of_inactive (h : ∀ i, (fs.m_files i).active = false) (fcb_addr : BitVec 16) :
    fs.close_stale fcb_addr = fs := by
  unfold close_stale
  generalize List.finRange 16 = l
  induction l with
  | nil => rfl
  | cons i l ih =>
    have hfree : ¬ ((fs.m_files i).active = true ∧ (fs.m_files i).fcb_addr = fcb_addr ∧
        (fs.m_files i).fcb_seg = fs.m_caller_tag) := by
      rw [h i]
      exact fun hactive => Bool.false_ne_true hactive.1
    rw [List.foldl_cons, if_neg hfree, ih]

theorem file_open_host (h : (fs.file_open fcb_addr).2 = 0) :
    (fs.file_open fcb_addr).1.host = (fs.close_stale fcb_addr).host := by
  obtain ⟨slot, fp, rc, hstate⟩ := file_open_state h
  obtain ⟨m, -, hinit⟩ := @init_fcb_eq ((fs.close_stale fcb_addr).use_slot slot fp fcb_addr
    (fs.fcb_to_host_path fcb_addr)) fcb_addr 0x80 rc slot
  rw [hstate, hinit]
  rfl

theorem zerosA_data (n : ℕ) : (zerosA n).host.data 0 = List.replicate n 0 := rfl

/-- **A file of 2^18 records**: the read after the last one delivers the first one again. -/
theorem zerosA_not_whole_file :
    ¬ WholeFile ((zerosA (2 ^ 25)).file_open 0x5c).1 0x5c (List.replicate (2 ^ 25) 0) := by
  have hopen : ((zerosA (2 ^ 25)).file_open 0x5c).2 = 0 := by decide +kernel
  have hlookup : ((zerosA (2 ^ 25)).host.lookup
      ((zerosA (2 ^ 25)).fcb_to_host_path 0x5c)).map Node.inode = some 0 := by decide +kernel
  obtain ⟨n, hn, hinode⟩ := Option.map_eq_some_iff.mp hlookup
  have hat := file_open_readsAt .z8002 (zerosA_apart _) hopen hn
  rw [hinode, file_open_host hopen, close_stale_of_inactive (fun _ => rfl), zerosA_data] at hat
  exact hat.not_whole_file (by rw [List.length_replicate]; decide)

end CpmFileSystem

end Cpm8000.Host
