/-
# The disk structures the emulator builds

`bios_init_disks` puts, for every drive that is there, a parameter block, a parameter header and two
vectors into the system segment, one behind the other from a 16-bit offset that is tested nowhere.
`derive_dpb` chooses the geometry of an image, and with it the length of its allocation vector, from
the size of the file.

`bios_init_disks_laid`: the structures are apart, large enough and below the stack exactly when what
the drives need, a number of the table's sizes alone, fits between the offset and the stack.
-/
import Cpm8000.Sys.Carve
import Cpm8000.Host.Router

namespace Cpm8000.Host

open Cpm8000.Sys

/-! ## 1. The geometry of a drive -/

structure DpbParams where
  spt : BitVec 16
  bsh : BitVec 8
  blm : BitVec 8
  exm : BitVec 8
  dsm : BitVec 16
  drm : BitVec 16
  al0 : BitVec 8
  al1 : BitVec 8
  cks : BitVec 16
  off : BitVec 16

def M20_FLOPPY : DpbParams := ⟨32, 4, 15, 1, 134, 63, 0xc0, 0, 16, 3⟩

/-- `while ((data >> (bsh + 7)) > 8192 && bsh < 7) bsh++`. -/
def grow_bsh (data bsh : ℕ) : ℕ :=
  if data >>> (bsh + 7) > 8192 ∧ bsh < 7 then grow_bsh data (bsh + 1) else bsh
termination_by 7 - bsh

def derive_dpb (image_size : ℕ) : DpbParams :=
  if image_size ≤ 512 * 1024 then M20_FLOPPY
  else
    let track := 32 * 128
    let data := if image_size - 3 * track < track then track else image_size - 3 * track
    let bsh := grow_bsh data 4
    let block := 1 <<< (bsh + 7)
    let nblocks := if data / block > 0x10000 then 0x10000 else data / block
    let dsm := BitVec.ofNat 16 (nblocks - 1)
    let entries := if data / 4096 < 128 then 128 else data / 4096
    let dir_blocks := (entries * 32 + block - 1) / block
    let dir_blocks := if dir_blocks > 16 then 16 else dir_blocks
    let entries := dir_blocks * block / 32
    let albits : BitVec 16 := (List.range dir_blocks).foldl (fun b i => b ||| 0x8000 >>> i) 0
    { spt := 32
      bsh := BitVec.ofNat 8 bsh
      blm := BitVec.ofNat 8 ((1 <<< bsh) - 1)
      exm := BitVec.ofNat 8
        (if dsm.toNat < 256 then (1 <<< (bsh - 3)) - 1 else (1 <<< (bsh - 4)) - 1)
      dsm := dsm
      drm := BitVec.ofNat 16 (entries - 1)
      al0 := (albits >>> 8).setWidth 8
      al1 := albits.setWidth 8
      cks := 0
      off := 3 }

/-- The 18 bytes of a parameter block. -/
def write_dpb (d : DpbParams) : List Byte :=
  be16 d.spt ++ [d.bsh, d.blm, d.exm, 0] ++ be16 d.dsm ++ be16 d.drm ++ [d.al0, d.al1] ++
    be16 d.cks ++ be16 d.off ++ [0, 0]

/-- The 16 bytes of a parameter header, with the offsets it is given. -/
def write_dph (dirbuf_off dpb_off csv_off alv_off : BitVec 16) : List Byte :=
  be16 0 ++ [0, 0, 0, 0, 0, 0] ++ be16 dirbuf_off ++ be16 dpb_off ++ be16 csv_off ++ be16 alv_off

/-! ## 2. Building the structures -/

def NUM_DRIVES : ℕ := 16

/-- The drive table: the backend of each drive, and the size of its image file; `none` is a file
that `fopen` does not open. -/
structure DriveTable where
  s_drives : Fin NUM_DRIVES → DriveBackend
  image_size : Fin NUM_DRIVES → Option ℕ

def write_block (addr : BitVec 32) (src : List Byte) (m : HostedMemory) : HostedMemory :=
  src.zipIdx.foldl (fun m x => m.write_byte (addr + BitVec.ofNat 32 x.2) x.1) m

def clear_block (addr : BitVec 32) (len : ℕ) (m : HostedMemory) : HostedMemory :=
  write_block addr (List.replicate len 0) m

/-- What is laid out for one drive: the offsets and lengths `bios_init_disks` holds in its locals. -/
structure DriveRegions where
  geo : DpbParams
  dpb_off : BitVec 16
  dph_off : BitVec 16
  csv_off : BitVec 16
  csv_len : BitVec 16
  alv_off : BitVec 16
  alv_len : BitVec 16

/-- The tables of the disk subsystem, the memory, and `off`. Besides, `laid` keeps what was laid
out for each drive so far. -/
structure BiosDisks where
  mem : HostedMemory
  s_disk_fp : Fin NUM_DRIVES → Bool
  s_dph_offset : Fin NUM_DRIVES → BitVec 16
  s_alv_offset : Fin NUM_DRIVES → BitVec 16
  s_dpb_offset : Fin NUM_DRIVES → BitVec 16
  s_drive_total_recs : Fin NUM_DRIVES → BitVec 32
  s_num_image_drives : ℕ
  s_max_drive : ℕ
  off : BitVec 16
  laid : List DriveRegions

/-- The offsets and lengths of a drive's structures, from `off` on. -/
def lay_out (geo : DpbParams) (off : BitVec 16) : DriveRegions × BitVec 16 :=
  let csv_len := (geo.cks + 1) &&& ~~~1
  let alv_len := ((BitVec.ofNat 16 (geo.dsm.toNat / 8) + 1) + 1) &&& ~~~1
  let dpb_off := off
  let off := off + 18
  let dph_off := off
  let off := off + 16
  let csv_off := off
  let off := off + csv_len
  let alv_off := off
  let off := off + alv_len
  (⟨geo, dpb_off, dph_off, csv_off, csv_len, alv_off, alv_len⟩, off)

/-- A drive that is there and, as an image, opens: `fp` says whether it has an open file. -/
def init_drive (sysbase : BitVec 32) (dirbuf_off : BitVec 16) (d : Fin NUM_DRIVES) (fp : Bool)
    (geo : DpbParams) (s : BiosDisks) : BiosDisks :=
  let block := 1 <<< (geo.bsh.toNat + 7)
  let (r, off) := lay_out geo s.off
  let mem := write_block (sysbase + r.dpb_off.setWidth 32) (write_dpb geo) s.mem
  let mem := clear_block (sysbase + r.dph_off.setWidth 32) 16 mem
  let mem := clear_block (sysbase + r.csv_off.setWidth 32) r.csv_len.toNat mem
  let mem := clear_block (sysbase + r.alv_off.setWidth 32) r.alv_len.toNat mem
  let mem := write_block (sysbase + r.dph_off.setWidth 32)
    (write_dph dirbuf_off r.dpb_off r.csv_off r.alv_off) mem
  { mem := mem
    s_disk_fp := Function.update s.s_disk_fp d fp
    s_dph_offset := Function.update s.s_dph_offset d r.dph_off
    s_alv_offset := Function.update s.s_alv_offset d r.alv_off
    s_dpb_offset := Function.update s.s_dpb_offset d r.dpb_off
    s_drive_total_recs := Function.update s.s_drive_total_recs d
      (BitVec.ofNat 32 (geo.dsm.toNat + 1) * BitVec.ofNat 32 (block / 128))
    s_num_image_drives := if fp then s.s_num_image_drives + 1 else s.s_num_image_drives
    s_max_drive := if d.val + 1 > s.s_max_drive then d.val + 1 else s.s_max_drive
    off := off
    laid := s.laid ++ [r] }

/-- One round of the loop over the drives. -/
def init_round (t : DriveTable) (sysbase : BitVec 32) (dirbuf_off : BitVec 16) (s : BiosDisks)
    (d : Fin NUM_DRIVES) : BiosDisks :=
  let s := { s with
    s_disk_fp := Function.update s.s_disk_fp d false
    s_dph_offset := Function.update s.s_dph_offset d 0 }
  match t.s_drives d with
  | .none => s
  | .host_dir => init_drive sysbase dirbuf_off d false M20_FLOPPY s
  | .image =>
    match t.image_size d with
    | none => s
    | some sz => init_drive sysbase dirbuf_off d true (derive_dpb sz) s

/-- `(base_offset + 1) & ~1`. -/
def dirbuf_offset (base_offset : BitVec 16) : BitVec 16 := (base_offset + 1) &&& ~~~1

def bios_init_disks (t : DriveTable) (system_tag base_offset : BitVec 16) (s : BiosDisks) :
    BiosDisks :=
  let sysbase := tagged system_tag 0
  let dirbuf_off := dirbuf_offset base_offset
  let s := { s with
    mem := clear_block (sysbase + dirbuf_off.setWidth 32) 128 s.mem
    off := dirbuf_off + 128
    laid := [] }
  (List.finRange NUM_DRIVES).foldl (init_round t sysbase dirbuf_off) s

/-! ## 3. What is laid out -/

/-- The structures of one drive, in the order of their offsets. -/
def DriveRegions.regions (r : DriveRegions) : List (Region 16) :=
  [⟨r.dpb_off, 18⟩, ⟨r.dph_off, 16⟩, ⟨r.csv_off, r.csv_len.toNat⟩, ⟨r.alv_off, r.alv_len.toNat⟩]

/-- The directory buffer and the structures of every drive. -/
def BiosDisks.regions (s : BiosDisks) (base_offset : BitVec 16) : List (Region 16) :=
  ⟨dirbuf_offset base_offset, 128⟩ :: s.laid.flatMap DriveRegions.regions

/-- The system stack's first address. -/
def SYS_STACK_TOP : ℕ := 0xbffe

/-- The vectors of a drive are as large as its parameter block says: a bit for every block, and
`cks` bytes. -/
structure DriveRegions.Ample (r : DriveRegions) : Prop where
  alv : r.geo.dsm.toNat + 1 ≤ 8 * r.alv_len.toNat
  csv : r.geo.cks.toNat ≤ r.csv_len.toNat

/-- **What the disk structures should be**: apart, large enough, in the system segment and below
the stack. -/
structure BiosDisks.Laid (s : BiosDisks) (base_offset : BitVec 16) : Prop where
  apart : (s.regions base_offset).Pairwise Region.Disjoint
  ample : ∀ r ∈ s.laid, r.Ample
  segment : ∀ r ∈ s.regions base_offset, r.stop ≤ 0x10000
  stack : ∀ r ∈ s.regions base_offset, r.stop ≤ SYS_STACK_TOP

/-- The blocks of an image beyond a floppy's size: 2 KB each, or 4, 8 or 16 KB where there would be
more than 8192 of them, and no more than 65536. -/
def blocks (data : ℕ) : ℕ :=
  if data < 2048 * 8193 then data / 2048
  else if data < 4096 * 8193 then data / 4096
  else if data < 8192 * 8193 then data / 8192
  else min (data / 16384) 65536

/-- The bytes the structures of a drive take: two for every 16 blocks, besides the parameter block
and header and, on a floppy, 16 checksum bytes. -/
def floppy_need : ℕ := 18 + 16 + 16 + 18

def image_need (image_size : ℕ) : ℕ :=
  if image_size ≤ 512 * 1024 then floppy_need
  else 18 + 16 + 2 * ((blocks (image_size - 12288) + 15) / 16)

/-- The bytes a drive of the table takes. -/
def DriveTable.need (t : DriveTable) (d : Fin NUM_DRIVES) : ℕ :=
  match t.s_drives d with
  | .none => 0
  | .host_dir => floppy_need
  | .image => (t.image_size d).elim 0 image_need

/-! ## 4. The lengths -/

section grow

variable {data bsh block : ℕ} (hblock : 2 ^ (bsh + 7) = block)

include hblock in
theorem grow_bsh_of_lt (h : data < block * 8193) : grow_bsh data bsh = bsh := by
  rw [grow_bsh, if_neg]
  rintro ⟨hlarge, -⟩
  rw [Nat.shiftRight_eq_div_pow, gt_iff_lt, Nat.lt_div_iff_mul_lt (by positivity)] at hlarge
  omega

include hblock in
theorem grow_bsh_of_le (h : ¬ data < block * 8193) (hbsh : bsh < 7) :
    grow_bsh data bsh = grow_bsh data (bsh + 1) := by
  rw [grow_bsh, if_pos]
  refine ⟨?_, hbsh⟩
  rw [Nat.shiftRight_eq_div_pow, gt_iff_lt, ← Nat.add_one_le_iff,
    Nat.le_div_iff_mul_le (by positivity), Nat.mul_comm, hblock]
  exact not_lt.mp h

end grow

/-- The block size grows with the image. -/
theorem grow_bsh_eq (data : ℕ) : grow_bsh data 4 =
    if data < 2048 * 8193 then 4
    else if data < 4096 * 8193 then 5
    else if data < 8192 * 8193 then 6 else 7 := by
  by_cases h4 : data < 2048 * 8193
  · rw [if_pos h4, grow_bsh_of_lt (by norm_num) h4]
  rw [if_neg h4, grow_bsh_of_le (by norm_num) h4 (by decide)]
  by_cases h5 : data < 4096 * 8193
  · rw [if_pos h5, grow_bsh_of_lt (by norm_num) h5]
  rw [if_neg h5, grow_bsh_of_le (by norm_num) h5 (by decide)]
  by_cases h6 : data < 8192 * 8193
  · rw [if_pos h6, grow_bsh_of_lt (by norm_num) h6]
  rw [if_neg h6, grow_bsh_of_le (by norm_num) h6 (by decide), grow_bsh, if_neg]
  exact fun h => absurd h.2 (lt_irrefl 7)

/-- The block count of an image. -/
theorem min_div_block (data : ℕ) :
    (if data / 1 <<< (grow_bsh data 4 + 7) > 0x10000 then 0x10000
      else data / 1 <<< (grow_bsh data 4 + 7)) = blocks data := by
  rw [grow_bsh_eq, blocks]
  split_ifs <;> norm_num [Nat.shiftLeft_eq] at * <;> omega

theorem blocks_pos {data : ℕ} (h : 2048 ≤ data) : 0 < blocks data := by
  rw [blocks]
  split_ifs <;> omega

theorem blocks_le (data : ℕ) : blocks data ≤ 65536 := by
  rw [blocks]
  split_ifs <;> omega

theorem derive_dpb_floppy {image_size : ℕ} (h : image_size ≤ 512 * 1024) :
    derive_dpb image_size = M20_FLOPPY := if_pos h

/-- The parameter block of an image beyond a floppy's size. -/
theorem derive_dpb_dsm {image_size : ℕ} (h : ¬ image_size ≤ 512 * 1024) :
    (derive_dpb image_size).dsm.toNat = blocks (image_size - 12288) - 1 := by
  have hdata : ¬ image_size - 3 * (32 * 128) < 32 * 128 := by omega
  have hle := blocks_le (image_size - 3 * (32 * 128))
  rw [derive_dpb, if_neg h]
  dsimp only
  rw [if_neg hdata, min_div_block, BitVec.toNat_ofNat]
  exact Nat.mod_eq_of_lt (Nat.lt_of_le_of_lt (Nat.sub_le_sub_right hle 1) (by decide))

theorem derive_dpb_cks {image_size : ℕ} (h : ¬ image_size ≤ 512 * 1024) :
    (derive_dpb image_size).cks = 0 := by
  rw [derive_dpb, if_neg h]

/-! ## 5. The structures, carved -/

/-- The lengths of a drive's structures. -/
def lengths (geo : DpbParams) : List ℕ :=
  [18, 16, (lay_out geo 0).1.csv_len.toNat, (lay_out geo 0).1.alv_len.toNat]

theorem lay_out_regions (geo : DpbParams) (off : BitVec 16) :
    (lay_out geo off).1.regions = carve off (lengths geo) := by
  simp only [DriveRegions.regions, lay_out, lengths, carve, BitVec.ofNat_toNat, BitVec.setWidth_eq]
  rfl

theorem lay_out_off (geo : DpbParams) (off : BitVec 16) :
    (lay_out geo off).2 = carved off (lengths geo) := by
  simp only [lay_out, lengths, carved_cons, carved_nil, BitVec.ofNat_toNat, BitVec.setWidth_eq]
  rfl

/-- A byte of the checksum vector for every unit of `cks`, and one more to make them even. -/
theorem toNat_csv_len {geo : DpbParams} (hcks : geo.cks.toNat < 65535) (off : BitVec 16) :
    (lay_out geo off).1.csv_len.toNat = 2 * ((geo.cks.toNat + 1) / 2) := by
  have hsum : (geo.cks + 1).toNat = geo.cks.toNat + 1 := by
    rw [BitVec.toNat_add]
    exact Nat.mod_eq_of_lt (Nat.succ_lt_succ hcks)
  calc
    (lay_out geo off).1.csv_len.toNat = (geo.cks + 1).toNat - (geo.cks + 1).toNat % 2 := toNat_even _
    _ = 2 * ((geo.cks.toNat + 1) / 2) := by rw [hsum]; omega

/-- Two bytes of the allocation vector for every sixteen blocks. -/
theorem toNat_alv_len (geo : DpbParams) (off : BitVec 16) :
    (lay_out geo off).1.alv_len.toNat = 2 * (geo.dsm.toNat / 16 + 1) := by
  have hdsm := geo.dsm.isLt
  have hone : (1 : BitVec 16).toNat = 1 := rfl
  have hsum : (BitVec.ofNat 16 (geo.dsm.toNat / 8) + 1 + 1).toNat = geo.dsm.toNat / 8 + 2 := by
    rw [BitVec.toNat_add, BitVec.toNat_add, BitVec.toNat_ofNat, hone]
    omega
  calc
    (lay_out geo off).1.alv_len.toNat =
        (BitVec.ofNat 16 (geo.dsm.toNat / 8) + 1 + 1).toNat -
          (BitVec.ofNat 16 (geo.dsm.toNat / 8) + 1 + 1).toNat % 2 := toNat_even _
    _ = 2 * (geo.dsm.toNat / 16 + 1) := by rw [hsum]; omega

theorem lay_out_ample {geo : DpbParams} (hcks : geo.cks.toNat < 65535) (off : BitVec 16) :
    (lay_out geo off).1.Ample where
  alv := by
    rw [toNat_alv_len]
    simp only [lay_out]
    omega
  csv := by
    rw [toNat_csv_len hcks]
    simp only [lay_out]
    omega

/-- The geometry of a drive that gets structures. -/
def DriveTable.geo (t : DriveTable) (d : Fin NUM_DRIVES) : Option DpbParams :=
  match t.s_drives d with
  | .none => none
  | .host_dir => some M20_FLOPPY
  | .image => (t.image_size d).map derive_dpb

/-- The lengths of what a drive gets. -/
def DriveTable.lengths (t : DriveTable) (d : Fin NUM_DRIVES) : List ℕ :=
  (t.geo d).elim [] Host.lengths

theorem sum_lengths_floppy : (lengths M20_FLOPPY).sum = floppy_need := by decide

theorem sum_lengths_large {image_size : ℕ} (h : ¬ image_size ≤ 512 * 1024) :
    (lengths (derive_dpb image_size)).sum =
      18 + 16 + 2 * ((blocks (image_size - 12288) + 15) / 16) := by
  have hpos : 0 < blocks (image_size - 12288) := blocks_pos (by omega)
  have hcks : (derive_dpb image_size).cks.toNat = 0 := congrArg BitVec.toNat (derive_dpb_cks h)
  have hcsv := toNat_csv_len (hcks.trans_lt (by decide : 0 < 65535)) 0
  have halv := toNat_alv_len (derive_dpb image_size) 0
  rw [hcks] at hcsv
  rw [derive_dpb_dsm h] at halv
  rw [lengths, hcsv, halv, List.sum_cons, List.sum_cons, List.sum_cons, List.sum_cons, List.sum_nil]
  omega

theorem sum_lengths_image (image_size : ℕ) :
    (lengths (derive_dpb image_size)).sum = image_need image_size := by
  by_cases h : image_size ≤ 512 * 1024
  · rw [derive_dpb_floppy h, sum_lengths_floppy]
    exact (if_pos h).symm
  · rw [sum_lengths_large h]
    exact (if_neg h).symm

theorem DriveTable.sum_lengths (t : DriveTable) (d : Fin NUM_DRIVES) :
    (t.lengths d).sum = t.need d := by
  unfold DriveTable.lengths DriveTable.geo DriveTable.need
  cases t.s_drives d with
  | none => rfl
  | host_dir => exact sum_lengths_floppy
  | image =>
    cases t.image_size d with
    | none => rfl
    | some sz => exact sum_lengths_image sz

theorem DriveTable.cks_lt {t : DriveTable} {d : Fin NUM_DRIVES} {geo : DpbParams}
    (h : t.geo d = some geo) : geo.cks.toNat < 65535 := by
  have himage : ∀ sz, (derive_dpb sz).cks.toNat < 65535 := by
    intro sz
    by_cases hsz : sz ≤ 512 * 1024
    · rw [derive_dpb_floppy hsz]
      decide
    · rw [derive_dpb_cks hsz]
      decide
  unfold DriveTable.geo at h
  split at h
  · cases h
  · cases h
    decide
  · obtain ⟨sz, -, rfl⟩ := Option.map_eq_some_iff.mp h
    exact himage sz

/-! ## 6. The loop over the drives -/

variable {t : DriveTable} {sysbase : BitVec 32} {dirbuf_off : BitVec 16}

/-- **What one round does**: a drive that gets structures gets them at the offset, which moves past
them. -/
theorem init_round_laid (s : BiosDisks) (d : Fin NUM_DRIVES) :
    (init_round t sysbase dirbuf_off s d).laid =
      s.laid ++ ((t.geo d).map fun geo => (lay_out geo s.off).1).toList := by
  unfold init_round DriveTable.geo
  cases t.s_drives d with
  | none => exact (List.append_nil _).symm
  | host_dir => rfl
  | image =>
    cases t.image_size d with
    | none => exact (List.append_nil _).symm
    | some sz => rfl

theorem init_round_off (s : BiosDisks) (d : Fin NUM_DRIVES) :
    (init_round t sysbase dirbuf_off s d).off = carved s.off (t.lengths d) := by
  unfold init_round DriveTable.lengths DriveTable.geo
  cases t.s_drives d with
  | none => rfl
  | host_dir => exact lay_out_off M20_FLOPPY s.off
  | image =>
    cases t.image_size d with
    | none => rfl
    | some sz => exact lay_out_off (derive_dpb sz) s.off

theorem init_round_regions (s : BiosDisks) (d : Fin NUM_DRIVES) :
    (init_round t sysbase dirbuf_off s d).laid.flatMap DriveRegions.regions =
      s.laid.flatMap DriveRegions.regions ++ carve s.off (t.lengths d) := by
  rw [init_round_laid, List.flatMap_append, DriveTable.lengths]
  cases t.geo d with
  | none => rfl
  | some geo =>
    rw [Option.map_some, Option.toList_some, List.flatMap_singleton, lay_out_regions]
    rfl

/-- **The whole loop carves the drives' structures** one behind the other. -/
theorem init_rounds_regions (ds : List (Fin NUM_DRIVES)) (s : BiosDisks) :
    (ds.foldl (init_round t sysbase dirbuf_off) s).laid.flatMap DriveRegions.regions =
      s.laid.flatMap DriveRegions.regions ++ carve s.off (ds.flatMap t.lengths) := by
  induction ds generalizing s with
  | nil => exact (List.append_nil _).symm
  | cons d ds ih =>
    rw [List.foldl_cons, ih, init_round_regions, init_round_off, List.flatMap_cons, carve_append,
      List.append_assoc]

theorem init_rounds_ample (ds : List (Fin NUM_DRIVES)) {s : BiosDisks} (h : ∀ r ∈ s.laid, r.Ample) :
    ∀ r ∈ (ds.foldl (init_round t sysbase dirbuf_off) s).laid, r.Ample := by
  induction ds generalizing s with
  | nil => exact h
  | cons d ds ih =>
    refine ih fun r hr => ?_
    rw [init_round_laid, List.mem_append, Option.mem_toList, Option.map_eq_some_iff] at hr
    rcases hr with hr | ⟨geo, hgeo, rfl⟩
    · exact h r hr
    · exact lay_out_ample (DriveTable.cks_lt hgeo) s.off

theorem sum_flatMap_lengths (t : DriveTable) :
    ((List.finRange NUM_DRIVES).flatMap t.lengths).sum = ∑ d, t.need d := by
  rw [List.flatMap, List.sum_flatten, List.map_map, Fin.sum_univ_def]
  exact congrArg List.sum (List.map_congr_left fun d _ => t.sum_lengths d)

/-- Every structure, carved from the first offset on. -/
theorem bios_init_disks_regions (t : DriveTable) (system_tag base_offset : BitVec 16)
    (s : BiosDisks) : (bios_init_disks t system_tag base_offset s).regions base_offset =
      carve (dirbuf_offset base_offset) (128 :: (List.finRange NUM_DRIVES).flatMap t.lengths) := by
  rw [BiosDisks.regions, bios_init_disks, init_rounds_regions]
  rfl

/-! ## 7. When there is room -/

section room

variable {system_tag base_offset : BitVec 16} {s : BiosDisks}

/-- Structures below the stack: an offset that came round had a structure before it that was not. -/
theorem BiosDisks.Laid.room (h : (bios_init_disks t system_tag base_offset s).Laid base_offset) :
    (dirbuf_offset base_offset).toNat + (128 + ∑ d, t.need d) ≤ SYS_STACK_TOP := by
  have hstack := h.stack
  rw [bios_init_disks_regions] at hstack
  have hfirst := hstack _ List.mem_cons_self
  have hoff : (dirbuf_offset base_offset).toNat ≤ SYS_STACK_TOP :=
    le_trans (Nat.le_add_right _ _) hfirst
  rw [carve_below_iff (by decide) hoff, List.sum_cons, sum_flatMap_lengths] at hstack
  exact hstack

theorem laid_of_room
    (h : (dirbuf_offset base_offset).toNat + (128 + ∑ d, t.need d) ≤ SYS_STACK_TOP) :
    (bios_init_disks t system_tag base_offset s).Laid base_offset := by
  have hoff : (dirbuf_offset base_offset).toNat ≤ SYS_STACK_TOP :=
    le_trans (Nat.le_add_right _ _) h
  have hstack : ∀ r ∈ (bios_init_disks t system_tag base_offset s).regions base_offset,
      r.stop ≤ SYS_STACK_TOP := by
    rw [bios_init_disks_regions, carve_below_iff (by decide) hoff, List.sum_cons,
      sum_flatMap_lengths]
    exact h
  refine ⟨?_, ?_, fun r hr => le_trans (hstack r hr) (by decide), hstack⟩
  · rw [bios_init_disks_regions]
    refine carve_pairwise (lt_of_le_of_lt (?_ : _ ≤ SYS_STACK_TOP) (by decide))
    rw [List.sum_cons, sum_flatMap_lengths]
    exact h
  · exact init_rounds_ample _ fun r hr => absurd hr List.not_mem_nil

end room

/-- **The disk structures are laid out as they should be exactly when the drives leave room**: the
directory buffer and what the drives need must fit between the first offset and the stack. -/
theorem bios_init_disks_laid (t : DriveTable) (system_tag base_offset : BitVec 16) (s : BiosDisks) :
    (bios_init_disks t system_tag base_offset s).Laid base_offset ↔
      (dirbuf_offset base_offset).toNat + (128 + ∑ d, t.need d) ≤ SYS_STACK_TOP :=
  ⟨BiosDisks.Laid.room, laid_of_room⟩

/-- Six hard disk images of 1 GB each. -/
def sixLargeImages : DriveTable where
  s_drives d := if d.val < 6 then .image else .none
  image_size _ := some (2 ^ 30 + 12288)

/-- The disk tables before, on a memory map of the Z8001. -/
def blankDisks : BiosDisks where
  mem := ⟨.segmented SegmentedTarget.configure, fun _ => 0⟩
  s_disk_fp _ := false
  s_dph_offset _ := 0
  s_alv_offset _ := 0
  s_dpb_offset _ := 0
  s_drive_total_recs _ := 0
  s_num_image_drives := 0
  s_max_drive := 0
  off := 0
  laid := []

/-- Each of the six has an allocation vector of 8 KB, and the sixth reaches beyond the stack. -/
theorem six_large_images : ¬ (bios_init_disks sixLargeImages 0x0b 0x100 blankDisks).Laid 0x100 := by
  intro h
  have hneed : ∑ d, sixLargeImages.need d = 6 * 8226 := by decide +kernel
  have hroom := h.room
  rw [hneed] at hroom
  exact absurd hroom (by decide)

end Cpm8000.Host
