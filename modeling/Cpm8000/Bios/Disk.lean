/-
# The disk side of the native BIOS

The BIOS transfers whole tracks of 4 KiB between the disk and one track buffer, and the 128-byte
sectors of CP/M between the buffer and the caller's memory.  The buffer belongs to a disk and a
track (`tbdsk`, `tbtrk`), and two flags say whether it holds them (`tbvalid`) and whether it has
been written to since (`tbdirty`).

The disk is an oracle-driven device: `ok n` says whether the `n`-th transfer of a physical sector
succeeds.  The unit number is handed down but not used, there being one unit; the exchange of the
bytes of each word, done on reading and on writing alike, is left out.
-/
import Cpm8000.Arith.Word

namespace Cpm8000.Bios

open Arith

abbrev Byte := BitVec 8

/-! ## 1. Memory -/

/-- Memory by bank and offset, as the caller sees it; the BIOS's own variables are not in it. -/
abbrev Mem := BitVec 16 → BitVec 16 → Byte

/-- A sector of CP/M. -/
abbrev Sector := Fin 128 → Byte

/-- The sector at a DMA address, the bank in the high word and the offset in the low one. -/
def Mem.load (m : Mem) (a : BitVec 32) : Sector :=
  fun i => m (hiw a) (low a + BitVec.ofNat 16 i)

/-- Copy a sector to a DMA address. -/
def Mem.store (m : Mem) (a : BitVec 32) (b : Sector) : Mem := fun bank off =>
  if h : bank = hiw a ∧ (off - low a).toNat < 128 then b ⟨(off - low a).toNat, h.2⟩ else m bank off

/-! ## 2. The device -/

inductive Cmd where
  | DSKREAD
  | DSKWRITE
  deriving DecidableEq

/-- The disk, byte by byte, the track buffer, and the number of sector transfers so far. -/
structure Dev where
  disk : ℕ → Byte
  buf : ℕ → Byte
  io : ℕ

/-- The bytes `b` up to `b + 512` of `f` replaced by those from `a` of `g`. -/
def splice (f g : ℕ → Byte) (b a : ℕ) : ℕ → Byte :=
  fun x => if b ≤ x ∧ x < b + 512 then g (a + (x - b)) else f x

/-- Transfer one physical sector: `blk` is its number, `addr` the place in the buffer. -/
def Dev.sector (cmd : Cmd) (blk : BitVec 16) (addr : ℕ) (d : Dev) : Dev :=
  match cmd with
  | .DSKREAD => { d with buf := splice d.buf d.disk addr (512 * blk.toNat) }
  | .DSKWRITE => { d with disk := splice d.disk d.buf (512 * blk.toNat) addr }

/-- Transfer `count` sectors; the flag is set when one of them fails. -/
def dio_loop (ok : ℕ → Bool) (cmd : Cmd) : ℕ → BitVec 16 → ℕ → Dev → Dev × Bool
  | 0, _, _, d => (d, false)
  | count + 1, blk, addr, d =>
    if ok d.io then
      dio_loop ok cmd count (blk + 1) (addr + 512) { d.sector cmd blk addr with io := d.io + 1 }
    else ({ d with io := d.io + 1 }, true)

/-- The drive is ignored: there is a single unit. -/
def disk_io (ok : ℕ → Bool) (_drv : BitVec 16) (cmd : Cmd) (count : ℕ) (blk : BitVec 16)
    (addr : ℕ) (d : Dev) : Dev × Bool :=
  dio_loop ok cmd count blk addr d

/-! ## 3. The BIOS -/

/-- Physical sectors to a track. -/
def PTRKSZ : ℕ := 8

/-- Bytes to a sector of CP/M. -/
def SECSZ : BitVec 16 := 128

/-- The largest disk number `seldisk` lets through. -/
def MAXDSK : ℕ := 1

/-- The number of disk parameter headers. -/
def ndph : ℕ := 1

/-- A transfer that has been asked of the disk, and whether it failed. -/
structure Xfer where
  cmd : Cmd
  dsk : BitVec 16
  trk : BitVec 16
  err : Bool
  deriving DecidableEq

/-- The disk variables of the BIOS, with the disk, the caller's memory and a log of the transfers,
the last first. -/
structure State where
  settrk : BitVec 16
  setsec : BitVec 16
  setdsk : BitVec 16
  setdma : BitVec 32
  trkbuf : ℕ → Byte
  tbvalid : Bool
  tbdirty : Bool
  tbtrk : BitVec 16
  tbdsk : BitVec 16
  dskerr : Bool
  disk : ℕ → Byte
  io : ℕ
  mem : Mem
  log : List Xfer

/-- Transfer a disk track. -/
def dskxfer (ok : ℕ → Bool) (dsk trk : BitVec 16) (cmd : Cmd) (s : State) : State :=
  let dsk' := if dsk = 2 then 10 else dsk
  let r := disk_io ok dsk' cmd PTRKSZ (trk * BitVec.ofNat 16 PTRKSZ) 0 ⟨s.disk, s.trkbuf, s.io⟩
  { s with
    disk := r.1.disk
    trkbuf := r.1.buf
    io := r.1.io
    dskerr := r.2
    log := ⟨cmd, dsk, trk, r.2⟩ :: s.log }

/-- The buffer does not hold the selected track. -/
def wrongtk (s : State) : Bool := !s.tbvalid || s.tbtrk != s.settrk || s.tbdsk != s.setdsk

def flush (ok : ℕ → Bool) (s : State) : State :=
  let s := if s.tbdirty && s.tbvalid then dskxfer ok s.tbdsk s.tbtrk .DSKWRITE s else s
  { s with tbdirty := false }

def filltb (ok : ℕ → Bool) (s : State) : State :=
  let s := if s.tbvalid && s.tbdirty then flush ok s else s
  let s := dskxfer ok s.setdsk s.settrk .DSKREAD s
  { s with tbvalid := true, tbdirty := false, tbtrk := s.settrk, tbdsk := s.setdsk }

def gettrk (ok : ℕ → Bool) (s : State) : State := if wrongtk s then filltb ok s else s

/-- The place of the selected sector in the buffer. -/
def sectorAt (setsec : BitVec 16) : ℕ := (SECSZ * (setsec - 1)).toNat

/-- The sector of the buffer at a place. -/
def bufSector (buf : ℕ → Byte) (p : ℕ) : Sector := fun i => buf (p + i)

/-- A sector copied into the buffer. -/
def setBufSector (buf : ℕ → Byte) (p : ℕ) (b : Sector) : ℕ → Byte := fun x =>
  if h : p ≤ x ∧ x - p < 128 then b ⟨x - p, h.2⟩ else buf x

/-- The read call: the sector goes to the DMA address, the error flag is returned. -/
def dskread (ok : ℕ → Bool) (s : State) : State × Bool :=
  let s := gettrk ok s
  ({ s with mem := s.mem.store s.setdma (bufSector s.trkbuf (sectorAt s.setsec)) }, s.dskerr)

/-- The write call: mode 1 is written through. -/
def dskwrite (ok : ℕ → Bool) (mode : Byte) (s : State) : State × Bool :=
  let s := gettrk ok s
  let s := { s with
    trkbuf := setBufSector s.trkbuf (sectorAt s.setsec) (s.mem.load s.setdma), tbdirty := true }
  let s := if mode = 1 then flush ok s else s
  (s, s.dskerr)

/-- Select a disk: the new `setdsk`, and the number of its parameter header, `none` when there is
no such disk. -/
def seldisk (dsk : Byte) (setdsk : BitVec 16) : BitVec 16 × Option ℕ :=
  if MAXDSK < dsk.toNat then (setdsk, none)
  else (dsk.setWidth 16, if ndph ≤ dsk.toNat then none else some dsk.toNat)

/-! ## 4. The calls -/

/-- The disk calls of the BIOS with their long argument; `program` is whatever the caller does to
its memory between two of them. -/
inductive Call where
  | HOME
  | SELDSK (d1 : BitVec 32)
  | SETTRK (d1 : BitVec 32)
  | SETSEC (d1 : BitVec 32)
  | SETDMA (d1 : BitVec 32)
  | READ
  | WRITE (d1 : BitVec 32)
  | FLUSH
  | program (f : Mem → Mem)

/-- What a call gives back: nothing, a parameter header, or the error flag; a READ also the data
it has delivered. -/
inductive Reply where
  | zero
  | dph (n : Option ℕ)
  | data (b : Sector) (dskerr : Bool)
  | status (dskerr : Bool)

/-- The byte of a long argument. -/
def argByte (d1 : BitVec 32) : Byte := lob (low d1)

def bios (ok : ℕ → Bool) (s : State) : Call → State × Reply
  | .HOME => ({ s with settrk := 0 }, .zero)
  | .SELDSK d1 => let r := seldisk (argByte d1) s.setdsk; ({ s with setdsk := r.1 }, .dph r.2)
  | .SETTRK d1 => ({ s with settrk := low d1 }, .zero)
  | .SETSEC d1 => ({ s with setsec := low d1 }, .zero)
  | .SETDMA d1 => ({ s with setdma := d1 }, .zero)
  | .READ => let r := dskread ok s; (r.1, .data (r.1.mem.load r.1.setdma) r.2)
  | .WRITE d1 => let r := dskwrite ok (argByte d1) s; (r.1, .status r.2)
  | .FLUSH => let s := flush ok s; (s, .status s.dskerr)
  | .program f => ({ s with mem := f s.mem }, .zero)

/-- The state after a cold start, with some disk and memory. -/
def boot (disk : ℕ → Byte) (mem : Mem) : State where
  settrk := 0
  setsec := 0
  setdsk := 0
  setdma := 0
  trkbuf := fun _ => 0
  tbvalid := false
  tbdirty := false
  tbtrk := 0
  tbdsk := 0
  dskerr := false
  disk := disk
  io := 0
  mem := mem
  log := []

/-- The parameters of the disk that matter here: sectors to a track, number of the last block (a
block is a track), and tracks reserved for the system. -/
structure Dpb where
  spt : ℕ
  dsm : ℕ
  off : ℕ

def dpb3 : Dpb := ⟨32, 2031, 16⟩

/-- A sector of the disk. -/
structure LegalSector (trk sec : BitVec 16) : Prop where
  trk_lt : trk.toNat < dpb3.off + dpb3.dsm + 1
  sec_pos : 1 ≤ sec.toNat
  sec_le : sec.toNat ≤ dpb3.spt

/-- A read or a write is legal on disk 0 and a sector of it; other calls always are. -/
def Legal (s : State) : Call → Prop
  | .READ | .WRITE _ => s.setdsk = 0 ∧ LegalSector s.settrk s.setsec
  | _ => True

end Cpm8000.Bios
