/-
# Sequential and random access

`F_RANDREC` turns the sequential position into a random record number, and a random operation then
works at the record a sequential one would have worked at. The two states it is done in differ in
the three bytes of the record number (`random_field`), and no operation looks at those before it has
its record, except through the DMA address: `AlikeOff` follows two states that differ at some bytes
of memory through the operations.

`random_agrees` compares the two ways of access. The codes and the positions are the same in every
state; the record is where it is delivered, and what is written is where the DMA buffer has none of
the three bytes.
-/
import Cpm8000.Host.Position

namespace Cpm8000.Host

open Cpm8000.Sys

namespace CpmFileSystem

variable {fs fs' : CpmFileSystem}

/-! ## 1. States that differ in memory -/

/-- The byte behind an offset of the caller. -/
def phys (fs : CpmFileSystem) (a : BitVec 16) : Phys :=
  fs.m_mem.map.tagged_physical (tagged fs.m_caller_tag a) false

/-- A state with other bytes in its memory. -/
def withData (fs : CpmFileSystem) (data : Phys → Byte) : CpmFileSystem :=
  { fs with m_mem := ⟨fs.m_mem.map, data⟩ }

/-- **Two states alike but for the bytes of `S`.** -/
def AlikeOff (S : Set Phys) (fs fs' : CpmFileSystem) : Prop :=
  ∃ data, fs' = fs.withData data ∧ Set.EqOn data fs.m_mem.m_data Sᶜ

variable {S : Set Phys}

/-- The bytes of the DMA buffer. -/
def dma_buffer (fs : CpmFileSystem) : Set Phys :=
  { p | ∃ i < 128, p = dmaAt fs.m_mem.map fs.m_dma_addr i }

theorem dma_write_block_eq {dma : BitVec 32} {buf : List Byte} {m : HostedMemory}
    (h : buf.length = 128) : dma_write_block dma 0 buf m =
      ⟨m.map, storeAll (storesAt (dmaAt m.map dma) (Transfer.file_read buf h).stored) m.m_data⟩ :=
  congrArg Prod.fst (Transfer.run_eq (.file_read buf h) dma m)

theorem dma_read_block_eq {dma : BitVec 32} {m : HostedMemory} :
    dma_read_block dma 0 128 m = (List.range 128).map fun i => m.m_data (dmaAt m.map dma i) :=
  congrArg Prod.snd (Transfer.run_eq .file_write dma m)

namespace AlikeOff

theorem mem_read (h : AlikeOff S fs fs') {a : BitVec 16} (ha : fs.phys a ∉ S) :
    fs'.mem_read a = fs.mem_read a := by
  obtain ⟨data, rfl, hdata⟩ := h
  exact hdata ha

theorem files (h : AlikeOff S fs fs') : fs'.m_files = fs.m_files := by
  obtain ⟨data, rfl, -⟩ := h
  rfl

theorem host (h : AlikeOff S fs fs') : fs'.host = fs.host := by
  obtain ⟨data, rfl, -⟩ := h
  rfl

/-- One run of stores. -/
theorem storeAll (h : AlikeOff S fs fs') (l : List (Phys × Byte)) :
    AlikeOff (S \ { p | p ∈ l.map Prod.fst }) (fs.withData (Sys.storeAll l fs.m_mem.m_data))
      (fs'.withData (Sys.storeAll l fs'.m_mem.m_data)) := by
  obtain ⟨data, rfl, hdata⟩ := h
  exact ⟨Sys.storeAll l data, rfl, storeAll_eqOn hdata⟩

theorem mono {T : Set Phys} (h : AlikeOff S fs fs') (hST : S ⊆ T) : AlikeOff T fs fs' := by
  obtain ⟨data, rfl, hdata⟩ := h
  exact ⟨data, rfl, hdata.mono (Set.compl_subset_compl.mpr hST)⟩

theorem mem_write (h : AlikeOff S fs fs') (a : BitVec 16) (v : Byte) :
    AlikeOff S (fs.mem_write a v) (fs'.mem_write a v) := by
  have hwrite := h.storeAll [(fs.phys a, v)]
  obtain ⟨data, rfl, hdata⟩ := h
  exact hwrite.mono Set.sdiff_subset

theorem update_fcb_after_read (h : AlikeOff S fs fs') (fcb_addr : BitVec 16) (offset : ℕ) :
    AlikeOff S (fs.update_fcb_after_read fcb_addr offset)
      (fs'.update_fcb_after_read fcb_addr offset) :=
  ((h.mem_write _ _).mem_write _ _).mem_write _ _

/-- A record stored in the DMA buffer is the same there in both. -/
theorem dma_write_block (h : AlikeOff S fs fs') {buf : List Byte} (hbuf : buf.length = 128) :
    AlikeOff (S \ fs.dma_buffer)
      { fs with m_mem := Host.dma_write_block fs.m_dma_addr 0 buf fs.m_mem }
      { fs' with m_mem := Host.dma_write_block fs'.m_dma_addr 0 buf fs'.m_mem } := by
  have hstores := h.storeAll
    (storesAt (dmaAt fs.m_mem.map fs.m_dma_addr) (Transfer.file_read buf hbuf).stored)
  obtain ⟨data, rfl, hdata⟩ := h
  rw [dma_write_block_eq hbuf, dma_write_block_eq hbuf]
  refine hstores.mono fun p hp => ⟨hp.1, fun hp' => hp.2 ?_⟩
  obtain ⟨i, hi, rfl⟩ := hp'
  rw [Set.mem_ofPred_eq, map_fst_storesAt, Transfer.stored, Transfer.map_snd_zipIdx, hbuf]
  exact List.mem_map_of_mem (List.mem_range.mpr hi)

/-- What is taken from the DMA buffer is the same, where the buffer has none of the bytes. -/
theorem dma_read_block (h : AlikeOff S fs fs') (hS : ∀ p ∈ fs.dma_buffer, p ∉ S) :
    Host.dma_read_block fs'.m_dma_addr 0 128 fs'.m_mem =
      Host.dma_read_block fs.m_dma_addr 0 128 fs.m_mem := by
  obtain ⟨data, rfl, hdata⟩ := h
  rw [dma_read_block_eq, dma_read_block_eq]
  refine List.map_congr_left fun i hi => ?_
  exact hdata (hS _ ⟨i, List.mem_range.mp hi, rfl⟩)

theorem seek (h : AlikeOff S fs fs') (slot : Fin 16) (offset : ℕ) :
    AlikeOff S (fs.seek slot offset) (fs'.seek slot offset) := by
  obtain ⟨data, rfl, hdata⟩ := h
  exact ⟨data, rfl, hdata⟩

theorem write (h : AlikeOff S fs fs') (slot : Fin 16) (buf : List Byte) :
    AlikeOff S (fs.write slot buf).1 (fs'.write slot buf).1 ∧
      (fs'.write slot buf).2 = (fs.write slot buf).2 := by
  obtain ⟨data, rfl, hdata⟩ := h
  exact ⟨⟨data, rfl, hdata⟩, rfl⟩

/-- **Reading a record**: where it is delivered, the buffer is the same in both afterwards. -/
theorem read_record (h : AlikeOff S fs fs') (fcb_addr : BitVec 16) (slot : Fin 16) (offset : ℕ) :
    (fs'.read_record fcb_addr slot offset).2 = (fs.read_record fcb_addr slot offset).2 ∧
      AlikeOff (if (fs.read_record fcb_addr slot offset).2 = 0 then S \ fs.dma_buffer else S)
        (fs.read_record fcb_addr slot offset).1 (fs'.read_record fcb_addr slot offset).1 := by
  have hseek := h.seek slot offset
  have hgot : (fs'.seek slot offset).host.fread ((fs'.seek slot offset).m_files slot).fp 128 =
      (fs.seek slot offset).host.fread ((fs.seek slot offset).m_files slot).fp 128 := by
    obtain ⟨data, rfl, hdata⟩ := h
    rfl
  have hbuffer : (fs.seek slot offset).dma_buffer = fs.dma_buffer := rfl
  have hlen : ((fs.seek slot offset).host.fread ((fs.seek slot offset).m_files slot).fp 128).length ≤
      128 := length_slice_le _ _ _
  unfold CpmFileSystem.read_record
  dsimp only
  rw [hgot]
  by_cases hnil : ((fs.seek slot offset).host.fread
      ((fs.seek slot offset).m_files slot).fp 128).length = 0
  · rw [if_pos hnil, if_pos hnil]
    exact ⟨rfl, hseek⟩
  · rw [if_neg hnil, if_neg hnil]
    refine ⟨rfl, ?_⟩
    rw [if_pos rfl, ← hbuffer]
    refine (hseek.dma_write_block ?_).update_fcb_after_read fcb_addr _
    rw [List.length_append, List.length_replicate, Nat.add_sub_cancel' hlen]

end AlikeOff

/-! ## 2. Writing a record -/

theorem write_record_code (fcb_addr : BitVec 16) (slot : Fin 16) (offset : ℕ) :
    (fs.write_record fcb_addr slot offset).2 = if (fs.m_files slot).fp.writable then 0 else 1 := by
  cases hw : (fs.m_files slot).fp.writable with
  | true =>
    obtain ⟨s, -, hs⟩ := write_record_of_writable offset fcb_addr hw
    rw [hs]
    rfl
  | false => exact write_record_of_not_writable fcb_addr hw

theorem write_record_mem_read (fcb_addr : BitVec 16) (slot : Fin 16) (offset : ℕ) (a : BitVec 16) :
    (fs.write_record fcb_addr slot offset).1.mem_read a =
      if (fs.write_record fcb_addr slot offset).2 = 0 then
        (fs.update_fcb_after_read fcb_addr (offset + 128)).mem_read a
      else fs.mem_read a := by
  unfold write_record
  dsimp only
  split_ifs <;> first | rfl | contradiction

/-- **Writing a record**: what is written is the same where the buffer has none of the bytes. -/
theorem AlikeOff.write_record (h : AlikeOff S fs fs') (fcb_addr : BitVec 16) (slot : Fin 16)
    (offset : ℕ) :
    (fs'.write_record fcb_addr slot offset).2 = (fs.write_record fcb_addr slot offset).2 ∧
      (∀ a, fs.phys a ∉ S → (fs'.write_record fcb_addr slot offset).1.mem_read a =
        (fs.write_record fcb_addr slot offset).1.mem_read a) ∧
      ((∀ p ∈ fs.dma_buffer, p ∉ S) → AlikeOff S (fs.write_record fcb_addr slot offset).1
        (fs'.write_record fcb_addr slot offset).1) := by
  have hcode : (fs'.write_record fcb_addr slot offset).2 =
      (fs.write_record fcb_addr slot offset).2 := by
    rw [write_record_code, write_record_code, h.files]
  refine ⟨hcode, fun a ha => ?_, fun hS => ?_⟩
  · rw [write_record_mem_read, write_record_mem_read, hcode, h.mem_read ha,
      (h.update_fcb_after_read fcb_addr (offset + 128)).mem_read ha]
  · have hbuf := (h.seek slot offset).dma_read_block hS
    obtain ⟨hwrite, hcount⟩ := (h.seek slot offset).write slot
      (Host.dma_read_block (fs.seek slot offset).m_dma_addr 0 128 (fs.seek slot offset).m_mem)
    unfold CpmFileSystem.write_record
    dsimp only
    rw [hbuf, hcount]
    split_ifs
    · exact hwrite
    · exact hwrite.update_fcb_after_read fcb_addr _

/-! ## 3. Opening -/

/-- The bytes of an FCB that are looked at to open it: drive, name and handle. -/
def fcb_bytes (fs : CpmFileSystem) (fcb_addr : BitVec 16) : Set Phys :=
  { p | ∃ i : BitVec 16, (i.toNat < 12 ∨ i = FCB_AL + 1) ∧ p = fs.phys (fcb_addr + i) }

namespace AlikeOff

variable {fcb_addr : BitVec 16}

theorem path (h : AlikeOff S fs fs') (hS : ∀ p ∈ fs.fcb_bytes fcb_addr, p ∉ S) :
    fs'.fcb_to_host_path fcb_addr = fs.fcb_to_host_path fcb_addr := by
  refine path_congr ?_ ?_ fun i hi => h.mem_read (hS _ ⟨i, .inl hi, rfl⟩)
  · obtain ⟨data, rfl, -⟩ := h
    rfl
  · obtain ⟨data, rfl, -⟩ := h
    rfl

theorem find_file_by_fcb (h : AlikeOff S fs fs') (hS : ∀ p ∈ fs.fcb_bytes fcb_addr, p ∉ S) :
    fs'.find_file_by_fcb fcb_addr = fs.find_file_by_fcb fcb_addr := by
  have hhandle := h.mem_read (hS _ ⟨FCB_AL + 1, .inr rfl, rfl⟩)
  rw [← BitVec.add_assoc] at hhandle
  have hfiles : fs'.m_files = fs.m_files := h.files
  unfold CpmFileSystem.find_file_by_fcb
  simp only [hhandle, hfiles]

theorem reopen (h : AlikeOff S fs fs') (hS : ∀ p ∈ fs.fcb_bytes fcb_addr, p ∉ S) :
    (fs'.reopen fcb_addr).2 = (fs.reopen fcb_addr).2 ∧
      AlikeOff S (fs.reopen fcb_addr).1 (fs'.reopen fcb_addr).1 := by
  have hpath := h.path hS
  have hopen : ∀ slot fp path, AlikeOff S
      ((fs.use_slot slot fp fcb_addr path).mem_write (fcb_addr + FCB_AL + 1)
        (BitVec.ofNat 8 (slot.val + 1)))
      ((fs'.use_slot slot fp fcb_addr path).mem_write (fcb_addr + FCB_AL + 1)
        (BitVec.ofNat 8 (slot.val + 1))) := by
    intro slot fp path
    refine AlikeOff.mem_write ?_ _ _
    obtain ⟨data, rfl, hdata⟩ := h
    exact ⟨data, rfl, hdata⟩
  unfold CpmFileSystem.reopen
  rw [hpath]
  have hhost : fs'.host = fs.host := h.host
  have hslot : fs'.find_open_slot = fs.find_open_slot := by
    unfold CpmFileSystem.find_open_slot
    rw [h.files]
  have hfopen : fs'.fopen_update (fs.fcb_to_host_path fcb_addr) =
      fs.fopen_update (fs.fcb_to_host_path fcb_addr) := by
    unfold CpmFileSystem.fopen_update
    rw [hhost]
  dsimp only
  rw [hhost, hslot, hfopen]
  cases fs.host.stat (fs.fcb_to_host_path fcb_addr) with
  | none => exact ⟨rfl, h⟩
  | some n =>
    cases fs.find_open_slot with
    | none => exact ⟨rfl, h⟩
    | some slot =>
      cases fs.fopen_update (fs.fcb_to_host_path fcb_addr) with
      | none => exact ⟨rfl, h⟩
      | some fp => exact ⟨rfl, hopen slot fp _⟩

/-- **Opening looks at no byte behind the FCB's record number.** -/
theorem ensure_open (h : AlikeOff S fs fs') (hS : ∀ p ∈ fs.fcb_bytes fcb_addr, p ∉ S) :
    (fs'.ensure_open fcb_addr).2 = (fs.ensure_open fcb_addr).2 ∧
      AlikeOff S (fs.ensure_open fcb_addr).1 (fs'.ensure_open fcb_addr).1 := by
  unfold CpmFileSystem.ensure_open
  rw [h.find_file_by_fcb hS, h.files, h.path hS]
  cases fs.find_file_by_fcb fcb_addr with
  | none => exact h.reopen hS
  | some slot =>
    dsimp only
    by_cases hp : (fs.m_files slot).host_path = fs.fcb_to_host_path fcb_addr
    · rw [if_pos hp, if_pos hp]
      exact ⟨rfl, h⟩
    · rw [if_neg hp, if_neg hp]
      refine AlikeOff.reopen ?_ hS
      obtain ⟨data, rfl, hdata⟩ := h
      exact ⟨data, rfl, hdata⟩

end AlikeOff

/-! ## 4. What the operations keep -/

/-- What the addresses of a state depend on. -/
def context (fs : CpmFileSystem) : MemoryMap × BitVec 32 × BitVec 16 :=
  (fs.m_mem.map, fs.m_dma_addr, fs.m_caller_tag)

theorem phys_congr (h : fs'.context = fs.context) (a : BitVec 16) : fs'.phys a = fs.phys a := by
  obtain ⟨hmap, hrest⟩ := Prod.mk.inj h
  unfold phys
  rw [hmap, (Prod.mk.inj hrest).2]

theorem dma_buffer_congr (h : fs'.context = fs.context) : fs'.dma_buffer = fs.dma_buffer := by
  obtain ⟨hmap, hrest⟩ := Prod.mk.inj h
  unfold dma_buffer
  rw [hmap, (Prod.mk.inj hrest).1]

theorem ensure_open_context (fcb_addr : BitVec 16) :
    (fs.ensure_open fcb_addr).1.context = fs.context := by
  refine ensure_open_induct (P := fun s => s.context = fs.context) ?_ ?_ fcb_addr rfl
  · intro s slot _ hs
    exact hs
  · intro s slot fp path fcb_addr a v _ _ hs
    exact hs

theorem read_record_context (fcb_addr : BitVec 16) (slot : Fin 16) (offset : ℕ) :
    (fs.read_record fcb_addr slot offset).1.context = fs.context := by
  unfold read_record
  dsimp only
  split_ifs
  · rfl
  · exact congrArg (fun m => (m, fs.m_dma_addr, fs.m_caller_tag)) (dma_write_block_map _ _ _ _)

/-! ## 5. The random record number -/

/-- The bytes of an FCB's random record number. -/
def random_field (fs : CpmFileSystem) (fcb_addr : BitVec 16) : Set Phys :=
  { p | ∃ i ∈ [FCB_R0, FCB_R1, FCB_R2], p = fs.phys (fcb_addr + i) }

theorem AlikeOff.refl (S : Set Phys) (fs : CpmFileSystem) : AlikeOff S fs fs :=
  ⟨fs.m_mem.m_data, rfl, Set.eqOn_refl _ _⟩

/-- Stores into the bytes in which the states differ. -/
theorem AlikeOff.storeAll_right (h : AlikeOff S fs fs') {l : List (Phys × Byte)}
    (hl : ∀ p ∈ l.map Prod.fst, p ∈ S) :
    AlikeOff S fs (fs'.withData (Sys.storeAll l fs'.m_mem.m_data)) := by
  obtain ⟨data, rfl, hdata⟩ := h
  refine ⟨Sys.storeAll l data, rfl, fun p hp => ?_⟩
  exact (storeAll_of_notMem fun hmem => hp (hl p hmem)).trans (hdata hp)

theorem AlikeOff.mem_write_right (h : AlikeOff S fs fs') {a : BitVec 16} (ha : fs.phys a ∈ S)
    (v : Byte) : AlikeOff S fs (fs'.mem_write a v) := by
  have hstore := h.storeAll_right (l := [(fs.phys a, v)]) (by simpa using ha)
  obtain ⟨data, rfl, hdata⟩ := h
  exact hstore

/-- `F_RANDREC` changes the random record number alone. -/
theorem set_random_alikeOff (fs : CpmFileSystem) (fcb_addr : BitVec 16) :
    AlikeOff (fs.random_field fcb_addr) fs (fs.file_set_random fcb_addr).1 := by
  have hself := AlikeOff.refl (fs.random_field fcb_addr) fs
  have hfield : ∀ i ∈ [FCB_R0, FCB_R1, FCB_R2],
      fs.phys (fcb_addr + i) ∈ fs.random_field fcb_addr := fun i hi => ⟨i, hi, rfl⟩
  exact ((hself.mem_write_right (hfield FCB_R0 (by decide)) _).mem_write_right
    (hfield FCB_R1 (by decide)) _).mem_write_right (hfield FCB_R2 (by decide)) _

/-- No byte before the random record number is one of its bytes. -/
theorem phys_notMem_random_field (hmap : fs.m_mem.map.Reachable) (fcb_addr : BitVec 16)
    {i : BitVec 16} (hi : i.toNat < 33) : fs.phys (fcb_addr + i) ∉ fs.random_field fcb_addr := by
  rintro ⟨j, hj, heq⟩
  have hij : i = j := fcb_add_inj.mp (hmap.tagged_inj.mp heq).2
  have hge : 33 ≤ i.toNat := by
    rw [hij]
    fin_cases hj <;> decide
  exact absurd hi (Nat.not_lt_of_le hge)

theorem fcb_bytes_notMem (hmap : fs.m_mem.map.Reachable) (fcb_addr : BitVec 16) :
    ∀ p ∈ fs.fcb_bytes fcb_addr, p ∉ fs.random_field fcb_addr := by
  rintro p ⟨i, hi, rfl⟩
  refine phys_notMem_random_field hmap fcb_addr ?_
  rcases hi with hi | rfl
  · exact hi.trans (by decide)
  · decide

theorem position_notMem (hmap : fs.m_mem.map.Reachable) (fcb_addr : BitVec 16) {i : BitVec 16}
    (hi : i ∈ [FCB_EX, FCB_S2, FCB_CR]) : fs.phys (fcb_addr + i) ∉ fs.random_field fcb_addr := by
  refine phys_notMem_random_field hmap fcb_addr ?_
  fin_cases hi <;> decide

/-! ## 6. Both ways of access -/

/-- An operation on records: the file is opened, and a record moved. -/
def with_open (fs : CpmFileSystem) (fcb_addr : BitVec 16)
    (move : CpmFileSystem → Fin 16 → CpmFileSystem × ℕ) : CpmFileSystem × ℕ :=
  match fs.ensure_open fcb_addr with
  | (fs, none) => (fs, 0xff)
  | (fs, some slot) => move fs slot

section with_open

variable {fcb_addr : BitVec 16} {move : CpmFileSystem → Fin 16 → CpmFileSystem × ℕ}

theorem with_open_none (h : (fs.ensure_open fcb_addr).2 = none) :
    fs.with_open fcb_addr move = ((fs.ensure_open fcb_addr).1, 0xff) := by
  unfold with_open
  generalize fs.ensure_open fcb_addr = e at h
  obtain ⟨s, slot⟩ := e
  obtain rfl : slot = none := h
  rfl

theorem with_open_some {slot : Fin 16} (h : (fs.ensure_open fcb_addr).2 = some slot) :
    fs.with_open fcb_addr move = move (fs.ensure_open fcb_addr).1 slot := by
  unfold with_open
  generalize fs.ensure_open fcb_addr = e at h
  obtain ⟨s, slot'⟩ := e
  obtain rfl : slot' = some slot := h
  rfl

theorem file_read_seq_eq (fcb_addr : BitVec 16) : fs.file_read_seq fcb_addr =
    fs.with_open fcb_addr fun s slot => s.read_record fcb_addr slot (s.compute_file_offset fcb_addr) :=
  rfl

theorem file_write_seq_eq (fcb_addr : BitVec 16) : fs.file_write_seq fcb_addr =
    fs.with_open fcb_addr fun s slot => s.write_record fcb_addr slot (s.compute_file_offset fcb_addr) :=
  rfl

theorem file_read_rand_eq (fcb_addr : BitVec 16) : fs.file_read_rand fcb_addr =
    fs.with_open fcb_addr fun s slot =>
      s.read_record fcb_addr slot (s.compute_random_offset fcb_addr) := rfl

theorem file_write_rand_eq (fcb_addr : BitVec 16) : fs.file_write_rand fcb_addr =
    fs.with_open fcb_addr fun s slot =>
      s.write_record fcb_addr slot (s.compute_random_offset fcb_addr) := rfl

end with_open

/-- The record in the DMA buffer. -/
def dma_record (fs : CpmFileSystem) : List Byte := dma_read_block fs.m_dma_addr 0 128 fs.m_mem

/-- Two results of operations on an FCB with one code and one position. -/
structure SameStep (fcb_addr : BitVec 16) (r r' : CpmFileSystem × ℕ) : Prop where
  code : r'.2 = r.2
  position : ∀ i ∈ [FCB_EX, FCB_S2, FCB_CR],
    r'.1.mem_read (fcb_addr + i) = r.1.mem_read (fcb_addr + i)

/-- **`F_RANDREC` and a random operation are the sequential operation**: the codes and the positions
are the same, under `read` the record in the DMA buffer, and under `write` the host's files. -/
structure RandomAgrees (read write : Prop) (fs : CpmFileSystem) (fcb_addr : BitVec 16) : Prop where
  read_step : SameStep fcb_addr (fs.file_read_seq fcb_addr)
    ((fs.file_set_random fcb_addr).1.file_read_rand fcb_addr)
  read_record : read → ((fs.file_set_random fcb_addr).1.file_read_rand fcb_addr).1.dma_record =
    (fs.file_read_seq fcb_addr).1.dma_record
  write_step : SameStep fcb_addr (fs.file_write_seq fcb_addr)
    ((fs.file_set_random fcb_addr).1.file_write_rand fcb_addr)
  write_file : write →
    ((fs.file_set_random fcb_addr).1.file_write_rand fcb_addr).1.host =
        (fs.file_write_seq fcb_addr).1.host ∧
      ((fs.file_set_random fcb_addr).1.file_write_rand fcb_addr).1.m_files =
        (fs.file_write_seq fcb_addr).1.m_files

/-- The position is one step's in both ways where the states are alike. -/
theorem AlikeOff.sameStep {r r' : CpmFileSystem × ℕ} {fcb_addr : BitVec 16}
    (h : AlikeOff S r.1 r'.1) (hcode : r'.2 = r.2)
    (hS : ∀ i ∈ [FCB_EX, FCB_S2, FCB_CR], r.1.phys (fcb_addr + i) ∉ S) : SameStep fcb_addr r r' :=
  ⟨hcode, fun i hi => h.mem_read (hS i hi)⟩

/-- **Sequential and random access agree**: in code and position in every state, in the record where
it is delivered or the DMA buffer is apart from the random record number, and in the files where the
buffer is apart from it. -/
theorem random_agrees (hmap : fs.m_mem.map.Reachable) (fcb_addr : BitVec 16) :
    RandomAgrees
      ((fs.file_read_seq fcb_addr).2 = 0 ∨ ∀ p ∈ fs.dma_buffer, p ∉ fs.random_field fcb_addr)
      (∀ p ∈ fs.dma_buffer, p ∉ fs.random_field fcb_addr) fs fcb_addr := by
  have hset := set_random_alikeOff fs fcb_addr
  obtain ⟨hslot, halike⟩ := hset.ensure_open (fcb_bytes_notMem hmap fcb_addr)
  have hcontext := @ensure_open_context fs fcb_addr
  have hposition : ∀ {s : CpmFileSystem}, s.context = fs.context →
      ∀ i ∈ [FCB_EX, FCB_S2, FCB_CR], s.phys (fcb_addr + i) ∉ fs.random_field fcb_addr := by
    intro s hs i hi
    rw [phys_congr hs]
    exact position_notMem hmap fcb_addr hi
  rcases ensure_open_cases hmap fcb_addr with ⟨-, hnone⟩ | ⟨-, slot, hsome, hopened⟩
  · have hnone' := hslot.trans hnone
    have hstep : SameStep fcb_addr ((fs.ensure_open fcb_addr).1, 0xff)
        (((fs.file_set_random fcb_addr).1.ensure_open fcb_addr).1, 0xff) :=
      halike.sameStep rfl (hposition hcontext)
    constructor
    · rwa [file_read_seq_eq, file_read_rand_eq, with_open_none hnone, with_open_none hnone']
    · rw [file_read_seq_eq, file_read_rand_eq, with_open_none hnone, with_open_none hnone']
      rintro (hzero | hapart)
      · cases hzero
      · exact halike.dma_read_block fun p hp => hapart p (dma_buffer_congr hcontext ▸ hp)
    · rwa [file_write_seq_eq, file_write_rand_eq, with_open_none hnone, with_open_none hnone']
    · rw [file_write_seq_eq, file_write_rand_eq, with_open_none hnone, with_open_none hnone']
      exact fun _ => ⟨halike.host, halike.files⟩
  · have hsome' := hslot.trans hsome
    have hoff := hopened.file_offset
    have hoff' : ((fs.file_set_random fcb_addr).1.ensure_open fcb_addr).1.compute_random_offset
        fcb_addr = 128 * fs.file_record fcb_addr := by
      rcases @ensure_open_cases (fs.file_set_random fcb_addr).1 hmap fcb_addr with
        ⟨-, hno⟩ | ⟨-, slot', -, hopened'⟩
      · rw [hsome'] at hno
        cases hno
      · rw [hopened'.random_offset, random_record_set_random hmap]
    obtain ⟨hrcode, hread⟩ := halike.read_record fcb_addr slot (128 * fs.file_record fcb_addr)
    obtain ⟨hwcode, hwmem, hwrite⟩ :=
      halike.write_record fcb_addr slot (128 * fs.file_record fcb_addr)
    constructor
    · rw [file_read_seq_eq, file_read_rand_eq, with_open_some hsome, with_open_some hsome', hoff,
        hoff']
      refine (hread.mono ?_).sameStep hrcode (hposition ((read_record_context _ _ _).trans hcontext))
      split_ifs
      · exact Set.sdiff_subset
      · exact subset_rfl
    · rw [file_read_seq_eq, file_read_rand_eq, with_open_some hsome, with_open_some hsome', hoff,
        hoff']
      intro hdelivered
      refine hread.dma_read_block fun p hp => ?_
      rw [dma_buffer_congr (read_record_context _ _ _)] at hp
      rcases hdelivered with hzero | hapart
      · rw [if_pos hzero]
        exact fun hp' => hp'.2 hp
      · have hout := hapart p (dma_buffer_congr hcontext ▸ hp)
        split_ifs
        · exact fun hp' => hout hp'.1
        · exact hout
    · rw [file_write_seq_eq, file_write_rand_eq, with_open_some hsome, with_open_some hsome', hoff,
        hoff']
      refine ⟨hwcode, fun i hi => hwmem _ (hposition hcontext i hi)⟩
    · rw [file_write_seq_eq, file_write_rand_eq, with_open_some hsome, with_open_some hsome', hoff,
        hoff']
      intro hapart
      have hlast := hwrite fun p hp => hapart p (dma_buffer_congr hcontext ▸ hp)
      exact ⟨hlast.host, hlast.files⟩

/-- A with an empty file, the DMA buffer at its FCB's random record number, which is 55. -/
def bufferAtRandom : CpmFileSystem :=
  let fs := sample (fcb_a ++ List.replicate 23 0 ++ [0x55]) [([0x41], [])]
  { fs with
    m_dma_addr := 0x0100007d
    host := { fs.host with buffered := false } }

/-- A record is written to A. -/
theorem random_agrees_bufferAtRandom : SameStep 0x5c (bufferAtRandom.file_write_seq 0x5c)
    ((bufferAtRandom.file_set_random 0x5c).1.file_write_rand 0x5c) :=
  (random_agrees .z8002 0x5c).write_step

/-- **The DMA buffer holds the random record number**: the record that is written has the number
`F_RANDREC` stored in it. -/
theorem bufferAtRandom_not_random_agrees : ¬ RandomAgrees True True bufferAtRandom 0x5c := by
  intro h
  have hdata := congrArg (fun host => host.data 0) (h.write_file trivial).1
  revert hdata
  decide +kernel

end CpmFileSystem

end Cpm8000.Host
