/-
# Host record transfers

What the host file system moves between a file and the program's memory goes by one of two sets of
helpers. `mem_read` and `mem_write` form their address from a tag and a 16-bit offset; the `dma_`
helpers add the index to the packed 32-bit address, so that the index can carry into the tag.

`Transfer` lists what is moved by the `dma_` helpers, `Transfer.run` moves it as the code does and
`Transfer.framed` as the 16-bit helpers would. The two are the same transfer exactly when nothing
carries, or when the next tag names the page of the first: `transfer_framed_iff`.
-/
import Cpm8000.Host.Memory

namespace Cpm8000.Host

open Cpm8000.Sys

/-! ## 1. The helpers -/

def mem_read (tag addr : BitVec 16) (m : HostedMemory) : Byte := m.read_byte (tagged tag addr)

def mem_write (tag addr : BitVec 16) (val : Byte) (m : HostedMemory) : HostedMemory :=
  m.write_byte (tagged tag addr) val

def mem_read_block (tag addr : BitVec 16) (len : ℕ) (m : HostedMemory) : List Byte :=
  (List.range len).map fun i => mem_read tag (addr + BitVec.ofNat 16 i) m

def mem_write_block (tag addr : BitVec 16) (buf : List Byte) (m : HostedMemory) : HostedMemory :=
  buf.zipIdx.foldl (fun m x => mem_write tag (addr + BitVec.ofNat 16 x.2) x.1 m) m

def dma_write (dma : BitVec 32) (offset : BitVec 16) (val : Byte) (m : HostedMemory) :
    HostedMemory :=
  m.write_byte (dma + offset.setWidth 32) val

def dma_read_block (dma : BitVec 32) (offset : BitVec 16) (len : ℕ) (m : HostedMemory) :
    List Byte :=
  (List.range len).map fun i => m.read_byte (dma + offset.setWidth 32 + BitVec.ofNat 32 i)

def dma_write_block (dma : BitVec 32) (offset : BitVec 16) (buf : List Byte) (m : HostedMemory) :
    HostedMemory :=
  buf.zipIdx.foldl (fun m x => m.write_byte (dma + offset.setWidth 32 + BitVec.ofNat 32 x.2) x.1) m

def DIR_ENTRY_SIZE : ℕ := 32

/-- The records of a file, as a directory entry has room for them. -/
def entry_rc (st_size : ℕ) : Byte :=
  let records : BitVec 32 := BitVec.ofNat 32 ((st_size + 127) / 128)
  if BitVec.slt 128 records then 128 else records.setWidth 8

/-- The entry `file_search_next` builds: `put` is `dma_write` there. -/
def put_entry (put : BitVec 16 → Byte → HostedMemory → HostedMemory) (entry_index : ℕ)
    (m_user : Byte) (fcb_name : ℕ → Byte) (st_size : ℕ) (m : HostedMemory) : HostedMemory :=
  let dir_index := entry_index % 4
  let entry_off := BitVec.ofNat 16 (dir_index * DIR_ENTRY_SIZE)
  let m := (List.range DIR_ENTRY_SIZE).foldl (fun m i => put (entry_off + BitVec.ofNat 16 i) 0 m) m
  let m := put entry_off m_user m
  let m := (List.range 11).foldl
    (fun m i => put (entry_off + 1 + BitVec.ofNat 16 i) (fcb_name i) m) m
  put (entry_off + 15) (entry_rc st_size) m

/-- The four bytes of `DRV_FREESPACE`. -/
def put_freespace (dma : BitVec 32) (recs : BitVec 32) (m : HostedMemory) : HostedMemory :=
  (List.range 4).foldl
    (fun m i => m.write_byte (dma + BitVec.ofNat 32 i) ((recs >>> (24 - 8 * i)).setWidth 8)) m

/-! ## 2. The transfers -/

inductive Transfer
  /-- `file_read_seq`, `file_read_rand` -/
  | file_read (buf : List Byte) (h : buf.length = 128)
  /-- `file_write_seq`, `file_write_rand`, `file_write_rand_zf` -/
  | file_write
  /-- `file_search_first`, `file_search_next` -/
  | file_search (entry_index : ℕ) (m_user : Byte) (fcb_name : ℕ → Byte) (st_size : ℕ)
  /-- `BdosRouter::route`, case 46 -/
  | drv_freespace (recs : BitVec 32)

namespace Transfer

/-- The transfer as the code makes it: the memory after, and the bytes taken from memory. -/
def run (dma : BitVec 32) : Transfer → HostedMemory → HostedMemory × List Byte
  | file_read buf _, m => (dma_write_block dma 0 buf m, [])
  | file_write, m => (m, dma_read_block dma 0 128 m)
  | file_search entry_index m_user fcb_name st_size, m =>
    (put_entry (dma_write dma) entry_index m_user fcb_name st_size m, [])
  | drv_freespace recs, m => (put_freespace dma recs m, [])

/-- The transfer as the 16-bit helpers would make it, at the tag and offset of the address. -/
def framed (dma : BitVec 32) : Transfer → HostedMemory → HostedMemory × List Byte
  | file_read buf _, m => (mem_write_block (tagOf dma) (offsetOf dma) buf m, [])
  | file_write, m => (m, mem_read_block (tagOf dma) (offsetOf dma) 128 m)
  | file_search entry_index m_user fcb_name st_size, m =>
    (put_entry (fun offset => mem_write (tagOf dma) (offsetOf dma + offset)) entry_index m_user
      fcb_name st_size m, [])
  | drv_freespace recs, m =>
    (mem_write_block (tagOf dma) (offsetOf dma) (be32 recs) m, [])

/-- Where the transfer begins and ends, from the address on. -/
def start : Transfer → ℕ
  | file_search entry_index .. => entry_index % 4 * DIR_ENTRY_SIZE
  | _ => 0

def stop : Transfer → ℕ
  | file_read .. => 128
  | file_write => 128
  | file_search entry_index .. => entry_index % 4 * DIR_ENTRY_SIZE + DIR_ENTRY_SIZE
  | drv_freespace _ => 4

/-- The positions and bytes a transfer stores, in order. -/
def stored : Transfer → List (ℕ × Byte)
  | file_read buf _ => buf.zipIdx.map fun x => (x.2, x.1)
  | file_write => []
  | file_search entry_index m_user fcb_name st_size =>
    let entry_off := entry_index % 4 * DIR_ENTRY_SIZE
    (List.range DIR_ENTRY_SIZE).map (fun i => (entry_off + i, 0)) ++ (entry_off, m_user) ::
      ((List.range 11).map (fun i => (entry_off + 1 + i, fcb_name i)) ++
        [(entry_off + 15, entry_rc st_size)])
  | drv_freespace recs => (be32 recs).zipIdx.map fun x => (x.2, x.1)

/-- The positions a transfer fetches, in order. -/
def fetched : Transfer → List ℕ
  | file_write => List.range 128
  | _ => []

end Transfer

/-! ## 3. Both as stores and fetches through a translation -/

instance : Nontrivial Byte := ⟨0, 1, by decide⟩

/-- The byte of a position, by the addition of the `dma_` helpers. -/
def dmaAt (map : MemoryMap) (dma : BitVec 32) (i : ℕ) : Phys :=
  map.tagged_physical (dma + BitVec.ofNat 32 i) false

/-- The byte of a position, by the addition of the 16-bit helpers. -/
def wrapAt (map : MemoryMap) (dma : BitVec 32) (i : ℕ) : Phys :=
  map.tagged_physical (tagged (tagOf dma) (offsetOf dma + BitVec.ofNat 16 i)) false

/-- A loop of byte writes is a run of stores. -/
theorem foldl_write_byte {ι : Type*} (l : List ι) (addr : ι → BitVec 32) (val : ι → Byte)
    (m : HostedMemory) :
    l.foldl (fun m x => m.write_byte (addr x) (val x)) m =
      ⟨m.map, storeAll (l.map fun x => (m.map.tagged_physical (addr x) false, val x)) m.m_data⟩ := by
  induction l generalizing m with
  | nil => rfl
  | cons x l ih => rw [List.foldl_cons, ih, List.map_cons]; rfl

theorem write_byte_eq (m : HostedMemory) (addr : BitVec 32) (val : Byte) :
    m.write_byte addr val =
      ⟨m.map, storeAll [(m.map.tagged_physical addr false, val)] m.m_data⟩ := rfl

theorem put_entry_eq (addr : BitVec 16 → BitVec 32) (entry_index : ℕ) (m_user : Byte)
    (fcb_name : ℕ → Byte) (st_size : ℕ) (m : HostedMemory) :
    put_entry (fun offset val m => m.write_byte (addr offset) val) entry_index m_user fcb_name
        st_size m =
      ⟨m.map, storeAll (storesAt (fun i => m.map.tagged_physical (addr (BitVec.ofNat 16 i)) false)
        (Transfer.file_search entry_index m_user fcb_name st_size).stored) m.m_data⟩ := by
  have hone : (1 : BitVec 16) = BitVec.ofNat 16 1 := rfl
  have hrc : (15 : BitVec 16) = BitVec.ofNat 16 15 := rfl
  simp only [put_entry, foldl_write_byte]
  simp only [write_byte_eq, Transfer.stored, storesAt, List.map_append, List.map_cons, List.map_map,
    List.map_nil, storeAll_append, storeAll_cons, storeAll_nil, Function.comp_def, hone, hrc,
    ← BitVec.ofNat_add]

theorem dmaAt_ofNat (map : MemoryMap) (dma : BitVec 32) {i : ℕ} (h : i < 65536) :
    map.tagged_physical (dma + (BitVec.ofNat 16 i).setWidth 32) false = dmaAt map dma i := by
  rw [dmaAt, BitVec.setWidth_ofNat_of_le_of_lt (by decide) h]

namespace Transfer

theorem map_snd_zipIdx (buf : List Byte) :
    (buf.zipIdx.map fun x => (x.2, x.1)).map Prod.fst = List.range buf.length := by
  rw [List.map_map, List.range_eq_range']
  exact List.zipIdx_map_snd 0 buf

/-- The positions of a transfer. -/
theorem mem_positions (t : Transfer) {i : ℕ} :
    i ∈ t.stored.map Prod.fst ∨ i ∈ t.fetched ↔ t.start ≤ i ∧ i < t.stop := by
  cases t with
  | file_read buf h =>
    rw [stored, map_snd_zipIdx, h]
    simp [fetched, start, stop]
  | file_write => simp [stored, fetched, start, stop]
  | file_search entry_index m_user fcb_name st_size =>
    simp only [stored, fetched, start, stop, DIR_ENTRY_SIZE, List.map_append, List.map_cons,
      List.map_map, List.map_nil, List.mem_append, List.mem_cons, List.mem_map, List.mem_range,
      Function.comp_def, List.not_mem_nil, or_false]
    generalize entry_index % 4 * 32 = off
    constructor
    · rintro (⟨j, hj, rfl⟩ | rfl | ⟨j, hj, rfl⟩ | rfl) <;> omega
    · rintro ⟨hlo, hhi⟩
      exact .inl ⟨i - off, by omega, by omega⟩
  | drv_freespace recs =>
    rw [stored, map_snd_zipIdx, length_be32]
    simp [fetched, start, stop]

/-- What the transfers pass over is a short part of a segment. -/
theorem stop_le (t : Transfer) : t.stop ≤ 128 := by
  cases t with
  | file_search entry_index m_user fcb_name st_size =>
    rw [stop, DIR_ENTRY_SIZE]
    omega
  | _ => simp [stop]

/-- **The code's transfer**, as stores and fetches. -/
theorem run_eq (t : Transfer) (dma : BitVec 32) (m : HostedMemory) :
    t.run dma m = (⟨m.map, storeAll (storesAt (dmaAt m.map dma) t.stored) m.m_data⟩,
      t.fetched.map fun i => m.m_data (dmaAt m.map dma i)) := by
  have hzero : dma + (0 : BitVec 16).setWidth 32 = dma := by
    rw [BitVec.ofNat_eq_ofNat, BitVec.setWidth_ofNat_of_le_of_lt (by decide) (by decide)]
    exact BitVec.add_zero dma
  cases t with
  | file_read buf h =>
    rw [run, dma_write_block, hzero, foldl_write_byte]
    simp only [stored, storesAt, List.map_map, Function.comp_def, dmaAt, fetched, List.map_nil]
  | file_write =>
    rw [run, dma_read_block, hzero]
    rfl
  | file_search entry_index m_user fcb_name st_size =>
    have hput := put_entry_eq (fun offset => dma + offset.setWidth 32) entry_index m_user fcb_name
      st_size m
    rw [run]
    refine Prod.ext (hput.trans ?_) rfl
    congr 2
    refine storesAt_congr fun i hi => dmaAt_ofNat m.map dma ?_
    have hlt := (mem_positions _).mp (.inl hi)
    have hstop := stop_le (file_search entry_index m_user fcb_name st_size)
    omega
  | drv_freespace recs =>
    rw [run, put_freespace, foldl_write_byte]
    rfl

/-- **The framed transfer**, as stores and fetches. -/
theorem framed_eq (t : Transfer) (dma : BitVec 32) (m : HostedMemory) :
    t.framed dma m = (⟨m.map, storeAll (storesAt (wrapAt m.map dma) t.stored) m.m_data⟩,
      t.fetched.map fun i => m.m_data (wrapAt m.map dma i)) := by
  cases t with
  | file_read buf h =>
    simp only [framed, mem_write_block, mem_write, foldl_write_byte, stored, storesAt, List.map_map,
      Function.comp_def, wrapAt, fetched, List.map_nil]
  | file_write => rfl
  | file_search entry_index m_user fcb_name st_size =>
    exact Prod.ext (put_entry_eq (fun offset => tagged (tagOf dma) (offsetOf dma + offset))
      entry_index m_user fcb_name st_size m) rfl
  | drv_freespace recs =>
    simp only [framed, mem_write_block, mem_write, foldl_write_byte, stored, storesAt, List.map_map,
      Function.comp_def, wrapAt, fetched, List.map_nil]

end Transfer

/-! ## 4. The carry -/

/-- The next tag names the page of this one: the emulator's segments that share segment 0x0b's
page, and the Z8002's tags of one bank. -/
def MemoryMap.NextAlike : MemoryMap → BitVec 16 → Prop
  | segmented _, tag => let seg := (tag.setWidth 7 : BitVec 7).toNat
    3 ≤ seg ∧ seg ≤ 6 ∨ 0x0b ≤ seg ∧ seg ≤ 0x7e
  | z8002 _, tag => (tag.setWidth 8 : BitVec 8) ≠ 0xff

theorem dpage_next (split : Bool) (seg : BitVec 7) : dpage split (seg + 1) = dpage split seg ↔
    3 ≤ seg.toNat ∧ seg.toNat ≤ 6 ∨ 0x0b ≤ seg.toNat ∧ seg.toNat ≤ 0x7e := by
  revert split seg
  decide

theorem bank_next (tag : BitVec 16) :
    (Z8002Memory.bank (tag + 1)).toNat = (Z8002Memory.bank tag).toNat ↔
      (tag.setWidth 8 : BitVec 8) ≠ 0xff := by
  have hbank : ∀ t : BitVec 16, (Z8002Memory.bank t).toNat = t.toNat / 256 % 8 := by
    intro t
    have hmask : ((7 : BitVec 8)).toNat = 2 ^ 3 - 1 := rfl
    rw [Z8002Memory.bank, BitVec.toNat_and, hmask, Nat.and_two_pow_sub_one_eq_mod,
      BitVec.toNat_setWidth, BitVec.toNat_ushiftRight, Nat.shiftRight_eq_div_pow]
    omega
  have hone : ((1 : BitVec 16)).toNat = 1 := rfl
  have hff : ((0xff : BitVec 8)).toNat = 255 := rfl
  have hlt := tag.isLt
  rw [Ne, ← BitVec.toNat_inj, hbank, hbank, BitVec.toNat_add, BitVec.toNat_setWidth, hone, hff]
  omega

theorem MemoryMap.Reachable.page_next {map : MemoryMap} (h : map.Reachable) (tag : BitVec 16) :
    map.page false (tag + 1) = map.page false tag ↔ map.NextAlike tag := by
  rcases h.cases_live with ⟨s, split, rfl, hs⟩ | ⟨s, rfl⟩
  · have hseg : (tag + 1).setWidth 7 = tag.setWidth 7 + (1 : BitVec 7) := by
      rw [BitVec.setWidth_add _ _ (by decide)]
      rfl
    rw [hs.page, hs.page, hseg]
    exact dpage_next split _
  · rw [page_z8002, page_z8002]
    exact bank_next tag

/-- The address of a position, its carry taken into the tag. -/
theorem dma_add (dma : BitVec 32) {i : ℕ} (hi : i < 65536) :
    dma + BitVec.ofNat 32 i =
      tagged (if (offsetOf dma).toNat + i < 65536 then tagOf dma else tagOf dma + 1)
        (offsetOf dma + BitVec.ofNat 16 i) := by
  have hone : ((1 : BitVec 16)).toNat = 1 := rfl
  have hd := dma.isLt
  apply BitVec.eq_of_toNat_eq
  rw [toNat_tagged]
  split_ifs with hc
  · simp only [BitVec.toNat_add, BitVec.toNat_ofNat, toNat_tagOf, toNat_offsetOf] at hc ⊢
    omega
  · simp only [BitVec.toNat_add, BitVec.toNat_ofNat, toNat_tagOf, toNat_offsetOf, hone] at hc ⊢
    omega

/-- Two positions of the DMA buffer are two bytes. -/
theorem dmaAt_inj {map : MemoryMap} (hmap : map.Reachable) {dma : BitVec 32} {i j : ℕ}
    (hi : i < 65536) (hj : j < 65536) (h : dmaAt map dma i = dmaAt map dma j) : i = j := by
  unfold dmaAt at h
  rw [dma_add dma hi, dma_add dma hj] at h
  have hoff := congrArg BitVec.toNat (BitVec.add_right_inj (offsetOf dma) |>.mp (hmap.tagged_inj.mp h).2)
  rw [BitVec.toNat_ofNat, BitVec.toNat_ofNat] at hoff
  omega

/-- The two translations of a position agree, or the code's leaves the page. -/
theorem dmaAt_eq_or {map : MemoryMap} (h : map.Reachable) (dma : BitVec 32) {i : ℕ}
    (hi : i < 65536) :
    (dmaAt map dma i = wrapAt map dma i ↔
      (offsetOf dma).toNat + i < 65536 ∨ map.NextAlike (tagOf dma)) ∧
    (dmaAt map dma i = wrapAt map dma i ∨ ∀ j, dmaAt map dma i ≠ wrapAt map dma j) := by
  simp only [dmaAt, wrapAt, dma_add dma hi, ne_eq, h.tagged_inj, ← h.page_next]
  split_ifs with hc
  · simp [hc]
  · simp only [hc, false_or, and_true, true_and]
    exact or_iff_not_imp_left.mpr fun hne j hp => hne hp.1

/-! ## 5. The frame of a transfer -/

/-- **The frame of a transfer**: it moves exactly the bytes the 16-bit helpers would, and changes
no byte of another page. -/
structure Transfer.Framed (map : MemoryMap) (dma : BitVec 32) (t : Transfer) : Prop where
  same : ∀ data, t.run dma ⟨map, data⟩ = t.framed dma ⟨map, data⟩
  frame : ∀ data p, p.toNat / 65536 ≠ map.page false (tagOf dma) →
    (t.run dma ⟨map, data⟩).1.m_data p = data p

namespace Transfer

/-- The 16-bit helpers leave every other page alone. -/
theorem framed_frame {map : MemoryMap} (h : map.Reachable) (dma : BitVec 32) (t : Transfer)
    (data : Phys → Byte) {p : Phys} (hp : p.toNat / 65536 ≠ map.page false (tagOf dma)) :
    (t.framed dma ⟨map, data⟩).1.m_data p = data p := by
  rw [framed_eq]
  refine storeAll_of_notMem fun hmem => ?_
  rw [map_fst_storesAt] at hmem
  obtain ⟨i, -, rfl⟩ := List.mem_map.mp hmem
  have hlt := (offsetOf dma + BitVec.ofNat 16 i).isLt
  rw [wrapAt, h.toNat_tagged] at hp
  omega

/-- The two transfers agree in every memory only if every position is at the same byte. -/
theorem same_iff {map : MemoryMap} (h : map.Reachable) (dma : BitVec 32) (t : Transfer) :
    (∀ data, t.run dma ⟨map, data⟩ = t.framed dma ⟨map, data⟩) ↔
      ∀ i, t.start ≤ i ∧ i < t.stop → dmaAt map dma i = wrapAt map dma i := by
  have hpos : ∀ i, i ∈ t.stored.map Prod.fst ∨ i ∈ t.fetched → i < 65536 := by
    intro i hi
    have hlt := (t.mem_positions.mp hi).2
    have hstop := t.stop_le
    omega
  have hstores := storeAll_storesAt_eq_iff (f := dmaAt map dma) (g := wrapAt map dma)
    (s := t.stored) fun i hi =>
      (dmaAt_eq_or h dma (hpos i (.inl hi))).2.imp_right fun hne j _ => hne j
  have hfetch := fetch_map_eq_iff (B := Byte) (f := dmaAt map dma) (g := wrapAt map dma)
    (p := t.fetched)
  simp only [run_eq, framed_eq, Prod.mk.injEq, HostedMemory.mk.injEq, true_and, forall_and, hstores,
    hfetch, ← t.mem_positions, or_imp]

end Transfer

/-- **The frame of a host record transfer**: on every map a machine can have and at every DMA
address, a transfer keeps to the address's own page, wrapping at its end, exactly when it does not
reach that end or the next tag names the same page. -/
theorem transfer_framed_iff {map : MemoryMap} (h : map.Reachable) (dma : BitVec 32)
    (t : Transfer) :
    t.Framed map dma ↔
      (offsetOf dma).toNat + t.stop ≤ 65536 ∨ map.NextAlike (tagOf dma) := by
  have hstop := t.stop_le
  have hstart : t.start < t.stop := by
    cases t <;> simp [Transfer.start, Transfer.stop, DIR_ENTRY_SIZE]
  constructor
  · intro hf
    have hlast := (t.same_iff h dma).mp hf.same (t.stop - 1) (by omega)
    rcases (dmaAt_eq_or h dma (by omega)).1.mp hlast with hc | hn
    · exact .inl (by omega)
    · exact .inr hn
  · intro hc
    have hsame : ∀ data, t.run dma ⟨map, data⟩ = t.framed dma ⟨map, data⟩ := by
      rw [t.same_iff h dma]
      rintro i ⟨-, hi⟩
      exact (dmaAt_eq_or h dma (by omega)).1.mpr (hc.imp_left fun _ => by omega)
    refine ⟨hsame, fun data p hp => ?_⟩
    rw [hsame]
    exact t.framed_frame h dma data hp

/-- The last record of bank 1. -/
theorem transfer_framed_iff_last :
    Transfer.file_write.Framed (.z8002 Z8002Memory.initial) 0x0100ff80 :=
  (transfer_framed_iff .z8002 0x0100ff80 .file_write).mpr (.inl (by decide))

/-- A record read to offset FFC0 of segment 0A is stored in the system's segment. -/
theorem file_read_leaves_segment :
    ¬ (Transfer.file_read (List.replicate 128 0x1a) List.length_replicate).Framed
      (.segmented SegmentedTarget.configure) 0x000affc0 := by
  intro hf
  have hlast := (Transfer.same_iff .z8001 0x000affc0 _).mp hf.same 127
    ⟨Nat.zero_le _, Nat.lt_succ_self 127⟩
  revert hlast
  decide

end Cpm8000.Host
