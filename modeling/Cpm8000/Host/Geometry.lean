/-
# The records of an image drive

A disk parameter block says how the native BDOS counts the records of a drive, and the BIOS calls
turn a track and a sector into a position of the image file.  `WellFormed` says that the two fit
together: a parameter block that is consistent in itself, a directory in its place, and every record
at a position of its own inside the image, which READ and WRITE go to.

`derive_dpb_wellFormed_iff`: the geometry derived from the size of an image is well formed exactly
when the tracks can be counted in 16 bits.
-/
import Cpm8000.Host.Disks

namespace Cpm8000.Host

open Cpm8000.Sys

/-! ## 1. The sector calls of the BIOS -/

/-- The state of the disk calls, with the bytes of the open image files. -/
structure SectorState where
  s_disk_fp : Fin NUM_DRIVES → Option (List Byte)
  s_dph_offset : Fin NUM_DRIVES → BitVec 16
  s_drive : ℕ
  s_track : BitVec 16
  s_sector : BitVec 16
  s_dma_addr : BitVec 32
  mem : HostedMemory

namespace SectorState

/-- With what the call returns in `rr6`. -/
def bios_seldsk (s : SectorState) (p1_lo : BitVec 16) : SectorState × BitVec 32 :=
  let drive := (p1_lo &&& 0xff).toNat
  if h : drive < NUM_DRIVES then
    if s.s_dph_offset ⟨drive, h⟩ ≠ 0 then
      ({ s with s_drive := drive }, (s.s_dph_offset ⟨drive, h⟩).setWidth 32)
    else (s, 0)
  else (s, 0)

def bios_settrk (s : SectorState) (p1_lo : BitVec 16) : SectorState := { s with s_track := p1_lo }

def bios_setsec (s : SectorState) (p1_lo : BitVec 16) : SectorState := { s with s_sector := p1_lo }

def bios_setdma (s : SectorState) (p1_hi p1_lo : BitVec 16) : SectorState :=
  { s with s_dma_addr := tagged p1_hi p1_lo }

/-- The image of the drive in use. -/
def image (s : SectorState) : Option (List Byte) :=
  if h : s.s_drive < NUM_DRIVES then s.s_disk_fp ⟨s.s_drive, h⟩ else none

/-- `(long)s_track * 4096 + (long)s_sector * 128`. -/
def offset (s : SectorState) : ℕ := s.s_track.toNat * 4096 + s.s_sector.toNat * 128

def bios_read (s : SectorState) : SectorState × ℕ :=
  match s.image with
  | none => (s, 1)
  | some file =>
    let buf := slice file s.offset 128
    if buf.length ≠ 128 then (s, 1)
    else ({ s with mem := write_block s.s_dma_addr buf s.mem }, 0)

/-- `mem.read_block`. -/
def read_block (addr : BitVec 32) (len : ℕ) (m : HostedMemory) : List Byte :=
  (List.range len).map fun i => m.read_byte (addr + BitVec.ofNat 32 i)

def bios_write (s : SectorState) : SectorState × ℕ :=
  if h : s.s_drive < NUM_DRIVES then
    match s.s_disk_fp ⟨s.s_drive, h⟩ with
    | none => (s, 1)
    | some file =>
      let buf := read_block s.s_dma_addr 128 s.mem
      ({ s with
          s_disk_fp := Function.update s.s_disk_fp ⟨s.s_drive, h⟩
            (some (overwrite file s.offset buf)) }, 0)
  else (s, 1)

end SectorState

/-! ## 2. The records of a drive -/

namespace DpbParams

/-- The bytes of a block. -/
def block (d : DpbParams) : ℕ := 2 ^ (d.bsh.toNat + 7)

/-- The records of blocks 0 to `dsm`. -/
def records (d : DpbParams) : ℕ := (d.dsm.toNat + 1) * 2 ^ d.bsh.toNat

/-- The track and the sector of a record, counted behind the reserved tracks. -/
def record_track (d : DpbParams) (r : ℕ) : ℕ := d.off.toNat + r / d.spt.toNat

def record_sector (d : DpbParams) (r : ℕ) : ℕ := r % d.spt.toNat

/-- Where a record of the drive stands in its image. -/
def record_pos (d : DpbParams) (r : ℕ) : ℕ := (d.off.toNat * d.spt.toNat + r) * 128

/-- Block `i` is taken by the directory. -/
def allocated (d : DpbParams) (i : ℕ) : Bool := (d.al0 ++ d.al1).getLsbD (15 - i)

end DpbParams

/-- The calls that go to a record. -/
def SectorState.address (s : SectorState) (d : DpbParams) (r : ℕ) : SectorState :=
  (s.bios_settrk (BitVec.ofNat 16 (d.record_track r))).bios_setsec
    (BitVec.ofNat 16 (d.record_sector r))

/-- **A well-formed drive** of `image_size` bytes. -/
structure WellFormed (image_size : ℕ) (d : DpbParams) : Prop where
  bsh : 4 ≤ d.bsh.toNat ∧ d.bsh.toNat ≤ 7
  blm : d.blm.toNat = 2 ^ d.bsh.toNat - 1
  /-- An entry holds 16 block numbers of a byte or 8 of a word, in extents of 16 KB. -/
  exm : (d.exm.toNat + 1) * 16384 = (if d.dsm.toNat < 256 then 16 else 8) * d.block
  alloc : ∀ i < 16, d.allocated i = true ↔ i * d.block < (d.drm.toNat + 1) * 32
  alloc_all : (d.drm.toNat + 1) * 32 ≤ 16 * d.block
  directory : (d.drm.toNat + 1) * 32 ≤ (d.dsm.toNat + 1) * d.block
  inside : ∀ r < d.records, d.record_pos r + 128 ≤ image_size
  track : ∀ r < d.records, d.record_track r < 0x10000
  read : ∀ (s : SectorState) (file : List Byte), s.image = some file → file.length = image_size →
    ∀ r < d.records, (s.address d r).bios_read =
      ({ s.address d r with
          mem := write_block s.s_dma_addr (slice file (d.record_pos r) 128) s.mem }, 0)
  write : ∀ (s : SectorState) (file : List Byte), s.image = some file → file.length = image_size →
    ∀ r < d.records, (s.address d r).bios_write.2 = 0 ∧
      (s.address d r).bios_write.1.image = some (overwrite file (d.record_pos r)
        (SectorState.read_block s.s_dma_addr 128 s.mem))
  apart : ∀ (s : SectorState), ∀ r < d.records, ∀ r' < d.records, r ≠ r' →
    (s.address d r).offset ≠ (s.address d r').offset

/-! ## 3. The calls reach a record -/

section records

variable {d : DpbParams} {r : ℕ}

/-- **The position the calls compute** is the record's, as long as its track is a word. -/
theorem offset_address (s : SectorState) (hspt : d.spt = 32) (htrack : d.record_track r < 0x10000) :
    (s.address d r).offset = d.record_pos r := by
  have hspt32 : d.spt.toNat = 32 := by rw [hspt]; rfl
  have hsector : d.record_sector r < 0x10000 := by
    rw [DpbParams.record_sector, hspt32]
    omega
  have ht : d.record_track r < 2 ^ 16 := htrack
  have hs : d.record_sector r < 2 ^ 16 := hsector
  rw [SectorState.offset, SectorState.address, SectorState.bios_settrk, SectorState.bios_setsec]
  dsimp only
  rw [BitVec.toNat_ofNat, BitVec.toNat_ofNat, Nat.mod_eq_of_lt ht, Nat.mod_eq_of_lt hs,
    DpbParams.record_track, DpbParams.record_sector, DpbParams.record_pos, hspt32]
  omega

theorem bios_read_address {s : SectorState} {file : List Byte} (himage : s.image = some file)
    (hspt : d.spt = 32) (htrack : d.record_track r < 0x10000)
    (hinside : d.record_pos r + 128 ≤ file.length) :
    (s.address d r).bios_read =
      ({ s.address d r with
          mem := write_block s.s_dma_addr (slice file (d.record_pos r) 128) s.mem }, 0) := by
  have hlen : (slice file (d.record_pos r) 128).length = 128 := by
    rw [slice, List.length_take, List.length_drop]
    omega
  have himage' : (s.address d r).image = some file := himage
  rw [SectorState.bios_read, himage']
  dsimp only
  rw [offset_address s hspt htrack, hlen, if_neg (not_not.mpr rfl)]
  rfl

theorem bios_write_address {s : SectorState} {file : List Byte} (himage : s.image = some file)
    (hspt : d.spt = 32) (htrack : d.record_track r < 0x10000) :
    (s.address d r).bios_write.2 = 0 ∧
      (s.address d r).bios_write.1.image = some (overwrite file (d.record_pos r)
        (SectorState.read_block s.s_dma_addr 128 s.mem)) := by
  have hdrive : s.s_drive < NUM_DRIVES := by
    by_contra h
    rw [SectorState.image, dif_neg h] at himage
    cases himage
  have hfile : s.s_disk_fp ⟨s.s_drive, hdrive⟩ = some file := by
    rwa [SectorState.image, dif_pos hdrive] at himage
  have hwrite : (s.address d r).bios_write =
      ({ s.address d r with
          s_disk_fp := Function.update s.s_disk_fp ⟨s.s_drive, hdrive⟩
            (some (overwrite file (d.record_pos r)
              (SectorState.read_block s.s_dma_addr 128 s.mem))) }, 0) := by
    have hdrive' : (s.address d r).s_drive < NUM_DRIVES := hdrive
    have hfile' : (s.address d r).s_disk_fp ⟨s.s_drive, hdrive⟩ = some file := hfile
    rw [SectorState.bios_write, dif_pos hdrive']
    change (match (s.address d r).s_disk_fp ⟨s.s_drive, hdrive⟩ with
      | none => _
      | some file => _) = _
    rw [hfile']
    dsimp only
    rw [offset_address s hspt htrack]
    rfl
  rw [hwrite]
  refine ⟨rfl, ?_⟩
  have hdrive' : (s.address d r).s_drive < NUM_DRIVES := hdrive
  rw [SectorState.image, dif_pos hdrive']
  exact Function.update_self ..

end records

/-! ## 4. The geometry of an image -/

/-- The bits of the directory's blocks: the top ones. -/
theorem albits_getLsbD : ∀ n ≤ 16, ∀ i < 16,
    ((List.range n).foldl (fun (b : BitVec 16) i => b ||| 0x8000 >>> i) 0).getLsbD (15 - i) =
      decide (i < n) := by
  decide

/-- **The parameter block of an image beyond a floppy's size**: the blocks there are, and a
directory of a few of them. -/
structure Derived (image_size k dir_blocks : ℕ) (d : DpbParams) : Prop where
  spt : d.spt = 32
  off : d.off = 3
  ge : 4 ≤ k
  le : k ≤ 7
  bsh : d.bsh.toNat = k
  blm : d.blm.toNat = 2 ^ k - 1
  exm : d.exm.toNat + 1 = if d.dsm.toNat < 256 then 2 ^ (k - 3) else 2 ^ (k - 4)
  dsm : d.dsm.toNat + 1 = blocks (image_size - 12288)
  blocks_le : blocks (image_size - 12288) * 2 ^ (k + 7) ≤ image_size - 12288
  /-- Only the largest blocks can be too many for the tracks behind the reserved ones. -/
  tracks : blocks (image_size - 12288) * 2 ^ k ≤ 0xfffd * 32 ↔ image_size - 12288 < 2 ^ 28
  dir_pos : 0 < dir_blocks
  dir_le : dir_blocks ≤ 16
  fits : dir_blocks ≤ blocks (image_size - 12288)
  drm : d.drm.toNat + 1 = dir_blocks * 2 ^ (k + 2)
  albits : d.al0 ++ d.al1 =
    (List.range dir_blocks).foldl (fun (b : BitVec 16) i => b ||| 0x8000 >>> i) 0

/-- The two halves of a word. -/
theorem halves_append (v : BitVec 16) : (v >>> 8).setWidth 8 ++ v.setWidth 8 = v := by
  apply BitVec.eq_of_toNat_eq
  have hlt := v.isLt
  rw [BitVec.toNat_append, ← Nat.shiftLeft_add_eq_or_of_lt (BitVec.isLt _), Nat.shiftLeft_eq,
    BitVec.toNat_setWidth, BitVec.toNat_setWidth, BitVec.toNat_ushiftRight,
    Nat.shiftRight_eq_div_pow]
  omega

/-- What is derived from a block size and the data area. -/
theorem derived_of_shift {image_size k : ℕ} (h : 512 * 1024 < image_size)
    (hgrow : grow_bsh (image_size - 12288) 4 = k) (hge : 4 ≤ k) (hle : k ≤ 7)
    (hblocks : 16 ≤ blocks (image_size - 12288) ∧ blocks (image_size - 12288) ≤ 65536)
    (hdata : blocks (image_size - 12288) * 2 ^ (k + 7) ≤ image_size - 12288)
    (htracks : blocks (image_size - 12288) * 2 ^ k ≤ 0xfffd * 32 ↔ image_size - 12288 < 2 ^ 28) :
    ∃ dir_blocks, Derived image_size k dir_blocks (derive_dpb image_size) := by
  have hlarge : ¬ image_size ≤ 512 * 1024 := not_le.mpr h
  have htrack : ¬ image_size - 3 * (32 * 128) < 32 * 128 := by omega
  have hdsm := derive_dpb_dsm hlarge
  have hmin := min_div_block (image_size - 12288)
  have hthree : 3 * (32 * 128) = 12288 := rfl
  unfold derive_dpb at hdsm ⊢
  rw [if_neg hlarge] at hdsm ⊢
  dsimp only at hdsm ⊢
  rw [if_neg htrack, hthree, hmin] at hdsm ⊢
  rw [hgrow]
  have hentries : 128 ≤ if (image_size - 12288) / 4096 < 128 then 128
      else (image_size - 12288) / 4096 := by
    split_ifs <;> omega
  generalize (if (image_size - 12288) / 4096 < 128 then 128 else (image_size - 12288) / 4096) =
    entries at hentries ⊢
  have hblock : 1 <<< (k + 7) = 2 ^ (k + 7) := Nat.one_shiftLeft _
  rw [hblock]
  have hdir : 0 < (if (entries * 32 + 2 ^ (k + 7) - 1) / 2 ^ (k + 7) > 16 then 16
        else (entries * 32 + 2 ^ (k + 7) - 1) / 2 ^ (k + 7)) ∧
      (if (entries * 32 + 2 ^ (k + 7) - 1) / 2 ^ (k + 7) > 16 then 16
        else (entries * 32 + 2 ^ (k + 7) - 1) / 2 ^ (k + 7)) ≤ 16 := by
    have hpos : 0 < (entries * 32 + 2 ^ (k + 7) - 1) / 2 ^ (k + 7) := by
      refine Nat.div_pos ?_ (by positivity)
      omega
    split_ifs <;> omega
  generalize (if (entries * 32 + 2 ^ (k + 7) - 1) / 2 ^ (k + 7) > 16 then 16
    else (entries * 32 + 2 ^ (k + 7) - 1) / 2 ^ (k + 7)) = dir at hdir ⊢
  have hdrm : dir * 2 ^ (k + 7) / 32 = dir * 2 ^ (k + 2) := by
    have hpow : 2 ^ (k + 7) = 2 ^ (k + 2) * 32 := by ring
    rw [hpow, ← Nat.mul_assoc, Nat.mul_div_cancel _ (by decide)]
  have hpow : 64 ≤ 2 ^ (k + 2) ∧ 2 ^ (k + 2) ≤ 512 := by
    interval_cases k <;> decide
  have hdrm_pos : 0 < dir * 2 ^ (k + 2) := Nat.mul_pos hdir.1 (by omega)
  have hdrm_le : dir * 2 ^ (k + 2) ≤ 16 * 512 := Nat.mul_le_mul hdir.2 hpow.2
  refine ⟨dir, rfl, rfl, hge, hle, ?_, ?_, ?_, ?_, hdata, htracks, hdir.1, hdir.2,
    hdir.2.trans hblocks.1, ?_, ?_⟩
  · rw [BitVec.toNat_ofNat]
    exact Nat.mod_eq_of_lt (by omega)
  · have hk : 2 ^ k - 1 < 2 ^ 8 := by
      interval_cases k <;> decide
    dsimp only
    rw [BitVec.toNat_ofNat, Nat.one_shiftLeft, Nat.mod_eq_of_lt hk]
  · dsimp only
    rw [BitVec.toNat_ofNat, Nat.one_shiftLeft, Nat.one_shiftLeft]
    interval_cases k <;> split_ifs <;> decide
  · rw [hdsm]
    omega
  · dsimp only
    rw [BitVec.toNat_ofNat, hdrm]
    omega
  · exact halves_append _

theorem derived {image_size : ℕ} (h : 512 * 1024 < image_size) :
    ∃ k dir_blocks, Derived image_size k dir_blocks (derive_dpb image_size) := by
  have hgrow := grow_bsh_eq (image_size - 12288)
  have hblocks : blocks (image_size - 12288) = blocks (image_size - 12288) := rfl
  have hdata : 512001 ≤ image_size - 12288 := by omega
  conv at hblocks => rhs; unfold blocks
  by_cases h4 : image_size - 12288 < 2048 * 8193
  · rw [if_pos h4] at hgrow hblocks
    exact ⟨4, derived_of_shift h hgrow (by decide) (by decide) (by omega) (by omega) (by omega)⟩
  rw [if_neg h4] at hgrow hblocks
  by_cases h5 : image_size - 12288 < 4096 * 8193
  · rw [if_pos h5] at hgrow hblocks
    exact ⟨5, derived_of_shift h hgrow (by decide) (by decide) (by omega) (by omega) (by omega)⟩
  rw [if_neg h5] at hgrow hblocks
  by_cases h6 : image_size - 12288 < 8192 * 8193
  · rw [if_pos h6] at hgrow hblocks
    exact ⟨6, derived_of_shift h hgrow (by decide) (by decide) (by omega) (by omega) (by omega)⟩
  · rw [if_neg h6] at hgrow hblocks
    exact ⟨7, derived_of_shift h hgrow (by decide) (by decide) (by omega) (by omega) (by omega)⟩

/-! ## 5. Well-formed drives -/

section derived

variable {image_size k dir_blocks : ℕ} {d : DpbParams} (h : Derived image_size k dir_blocks d)

include h

theorem Derived.records : d.records = blocks (image_size - 12288) * 2 ^ k := by
  rw [DpbParams.records, h.bsh, h.dsm]

theorem Derived.block : d.block = 2 ^ (k + 7) := by rw [DpbParams.block, h.bsh]

theorem Derived.record_track (r : ℕ) : d.record_track r = 3 + r / 32 := by
  rw [DpbParams.record_track, h.off, h.spt]
  rfl

theorem Derived.record_pos (r : ℕ) : d.record_pos r = (96 + r) * 128 := by
  rw [DpbParams.record_pos, h.off, h.spt]
  rfl

/-- The tracks of all records are words when the records are not too many. -/
theorem Derived.track_iff : (∀ r < d.records, d.record_track r < 0x10000) ↔
    image_size - 12288 < 2 ^ 28 := by
  rw [← h.tracks, ← h.records]
  have hpos : 0 < d.records := Nat.mul_pos (Nat.succ_pos _) (by positivity)
  constructor
  · intro hall
    have hlast := hall (d.records - 1) (Nat.sub_lt hpos Nat.one_pos)
    rw [h.record_track] at hlast
    omega
  · intro hle r hr
    rw [h.record_track]
    omega

theorem Derived.inside : ∀ r < d.records, d.record_pos r + 128 ≤ image_size := by
  intro r hr
  have hbytes : d.records * 128 ≤ image_size - 12288 := by
    have hpow : 2 ^ k * 128 = 2 ^ (k + 7) := (pow_add 2 k 7).symm
    rw [h.records, Nat.mul_assoc, hpow]
    exact h.blocks_le
  rw [h.record_pos]
  omega

theorem Derived.dir_bytes : (d.drm.toNat + 1) * 32 = dir_blocks * d.block := by
  have hpow : 2 ^ (k + 2) * 32 = 2 ^ (k + 7) := (pow_add 2 (k + 2) 5).symm
  rw [h.drm, h.block, Nat.mul_assoc, hpow]

/-- **The drive is well formed** when its tracks are words. -/
theorem Derived.wellFormed (hsize : image_size - 12288 < 2 ^ 28) : WellFormed image_size d := by
  have hblock : 0 < d.block := by
    rw [h.block]
    positivity
  have htrack := h.track_iff.mpr hsize
  refine ⟨?_, ?_, ?_, ?_, ?_, ?_, h.inside, htrack, ?_, ?_, ?_⟩
  · rw [h.bsh]
    exact ⟨h.ge, h.le⟩
  · rw [h.blm, h.bsh]
  · have hge := h.ge
    have hle := h.le
    rw [h.exm, h.block]
    interval_cases k <;> split_ifs <;> decide
  · intro i hi
    rw [h.dir_bytes, DpbParams.allocated, h.albits, albits_getLsbD _ h.dir_le i hi,
      decide_eq_true_eq]
    exact (Nat.mul_lt_mul_right hblock).symm
  · rw [h.dir_bytes]
    exact Nat.mul_le_mul_right _ h.dir_le
  · rw [h.dir_bytes, h.dsm]
    exact Nat.mul_le_mul_right _ h.fits
  · intro s file himage hlen r hr
    exact bios_read_address himage h.spt (htrack r hr) (hlen ▸ h.inside r hr)
  · intro s file himage _ r hr
    exact bios_write_address himage h.spt (htrack r hr)
  · intro s r hr r' hr' hne heq
    rw [offset_address s h.spt (htrack r hr), offset_address s h.spt (htrack r' hr'),
      h.record_pos, h.record_pos] at heq
    omega

end derived

/-- **The geometry of an image is well formed exactly when its records lie on at most 2 ^ 16
tracks.** -/
theorem derive_dpb_wellFormed_iff {image_size : ℕ} (h : 512 * 1024 < image_size) :
    WellFormed image_size (derive_dpb image_size) ↔ image_size < 2 ^ 28 + 12288 := by
  obtain ⟨k, dir_blocks, hd⟩ := derived h
  have hiff : image_size < 2 ^ 28 + 12288 ↔ image_size - 12288 < 2 ^ 28 := by omega
  rw [hiff]
  exact ⟨fun hw => hd.track_iff.mp hw.track, hd.wellFormed⟩

theorem derive_dpb_wellFormed_iff_small :
    WellFormed 1000000 (derive_dpb 1000000) ↔ 1000000 < 2 ^ 28 + 12288 :=
  derive_dpb_wellFormed_iff (by decide)

/-- **An image of 256 MB and its reserved tracks**: its last record is on track 2 ^ 16 + 2. -/
theorem largeImage_not_wellFormed : ¬ WellFormed 268447744 (derive_dpb 268447744) := by
  obtain ⟨k, dir_blocks, hd⟩ := @derived 268447744 (by decide)
  intro hw
  have htrack := hd.track_iff.mp hw.track
  omega

end Cpm8000.Host
