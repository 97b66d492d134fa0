/-
# The position of an FCB

The sequential position lives in `ex`, `s2` and `cr`, the random record number in `r0`, `r1` and
`r2`. `file_record_update` and `random_record_put` say what is decoded after an encoding, so that the
operations below are followed through record numbers only.

The programmer's guide leaves the position at the record a random operation accessed, and has a code
for record numbers above 3FFFF (`PositionLaw`). The host file system stores the position of the
record after it, modulo 2^18 (`file_record_run`), and has no such code; the law therefore holds
exactly where the record number is in range and the operation does not succeed:
`positionLaw_iff`.
-/
import Cpm8000.Host.Open

namespace Cpm8000.Host

open Cpm8000.Sys

namespace CpmFileSystem

variable {fs : CpmFileSystem}

/-! ## 1. Decoding and encoding -/

/-- The record in the FCB's random record field. -/
def random_record (fs : CpmFileSystem) (fcb_addr : BitVec 16) : ℕ :=
  fs.compute_random_offset fcb_addr / 128

/-- The record of the FCB's sequential position. -/
def file_record (fs : CpmFileSystem) (fcb_addr : BitVec 16) : ℕ :=
  fs.compute_file_offset fcb_addr / 128

theorem compute_random_offset_eq (fcb_addr : BitVec 16) : fs.compute_random_offset fcb_addr =
    (65536 * (fs.mem_read (fcb_addr + FCB_R0)).toNat + 256 * (fs.mem_read (fcb_addr + FCB_R1)).toNat
      + (fs.mem_read (fcb_addr + FCB_R2)).toNat) * 128 := by
  have h1 := (fs.mem_read (fcb_addr + FCB_R1)).isLt
  have h2 := (fs.mem_read (fcb_addr + FCB_R2)).isLt
  have hlow : (fs.mem_read (fcb_addr + FCB_R1)).toNat <<< 8 ||| (fs.mem_read (fcb_addr + FCB_R2)).toNat
      = 256 * (fs.mem_read (fcb_addr + FCB_R1)).toNat + (fs.mem_read (fcb_addr + FCB_R2)).toNat := by
    rw [← Nat.shiftLeft_add_eq_or_of_lt h2, Nat.shiftLeft_eq, Nat.mul_comm]
  unfold compute_random_offset
  dsimp only
  rw [Nat.or_assoc, hlow, ← Nat.shiftLeft_add_eq_or_of_lt (by omega), Nat.shiftLeft_eq]
  omega

theorem compute_file_offset_eq (fcb_addr : BitVec 16) : fs.compute_file_offset fcb_addr =
    (128 * (32 * ((fs.mem_read (fcb_addr + FCB_S2)).toNat % 64)
      + (fs.mem_read (fcb_addr + FCB_EX)).toNat % 32) + (fs.mem_read (fcb_addr + FCB_CR)).toNat)
      * 128 := by
  have hs2 : (fs.mem_read (fcb_addr + FCB_S2) &&& 0x3f).toNat =
      (fs.mem_read (fcb_addr + FCB_S2)).toNat % 64 := by
    rw [BitVec.toNat_and]
    exact Nat.and_two_pow_sub_one_eq_mod _ 6
  have hex : (fs.mem_read (fcb_addr + FCB_EX) &&& 0x1f).toNat =
      (fs.mem_read (fcb_addr + FCB_EX)).toNat % 32 := by
    rw [BitVec.toNat_and]
    exact Nat.and_two_pow_sub_one_eq_mod _ 5
  unfold compute_file_offset
  dsimp only
  rw [hs2, hex, ← Nat.shiftLeft_add_eq_or_of_lt (by omega), Nat.shiftLeft_eq]
  omega

theorem compute_random_offset_record (fcb_addr : BitVec 16) :
    fs.compute_random_offset fcb_addr = 128 * fs.random_record fcb_addr := by
  rw [random_record, compute_random_offset_eq]
  omega

/-- **The position that is stored is the position that is decoded**, in the 18 bits it has. -/
theorem file_record_update (hmap : fs.m_mem.map.Reachable) (fcb_addr : BitVec 16) (record : ℕ) :
    (fs.update_fcb_after_read fcb_addr (128 * record)).file_record fcb_addr = record % 2 ^ 18 := by
  have hdiv : 128 * record / 128 = record := Nat.mul_div_cancel_left record (by decide)
  have h5 : (record / 128) &&& 0x1f = record / 128 % 32 := Nat.and_two_pow_sub_one_eq_mod _ 5
  have h6 : (record / 128) >>> 5 &&& 0x3f = record / 128 / 32 % 64 := by
    rw [Nat.shiftRight_eq_div_pow]
    exact Nat.and_two_pow_sub_one_eq_mod _ 6
  unfold update_fcb_after_read
  dsimp only
  rw [hdiv, h5, h6, file_record, compute_file_offset_eq]
  simp only [mem_read_mem_write, mem_write_map, hmap, fcb_add_inj,
    (by decide : FCB_S2 ≠ FCB_CR), (by decide : FCB_EX ≠ FCB_CR), (by decide : FCB_EX ≠ FCB_S2),
    if_true, if_false, BitVec.toNat_ofNat]
  omega

/-- **The record number that is stored is the one that is decoded**, in the 24 bits it has. -/
theorem random_record_put (hmap : fs.m_mem.map.Reachable) (fcb_addr : BitVec 16) (record : ℕ) :
    (fs.put_random fcb_addr record).random_record fcb_addr = record % 2 ^ 24 := by
  have h8 (n : ℕ) : n &&& 0xff = n % 256 := Nat.and_two_pow_sub_one_eq_mod n 8
  unfold put_random
  rw [h8, h8, h8, Nat.shiftRight_eq_div_pow, Nat.shiftRight_eq_div_pow, random_record,
    compute_random_offset_eq]
  simp only [mem_read_mem_write, mem_write_map, hmap, fcb_add_inj,
    (by decide : FCB_R0 ≠ FCB_R1), (by decide : FCB_R0 ≠ FCB_R2), (by decide : FCB_R1 ≠ FCB_R2),
    if_true, if_false, BitVec.toNat_ofNat]
  omega

/-- `F_RANDREC` stores the record of the sequential position. -/
theorem random_record_set_random (hmap : fs.m_mem.map.Reachable) (fcb_addr : BitVec 16) :
    (fs.file_set_random fcb_addr).1.random_record fcb_addr = fs.file_record fcb_addr := by
  have hcr := (fs.mem_read (fcb_addr + FCB_CR)).isLt
  unfold file_set_random
  dsimp only
  rw [random_record_put hmap, ← file_record, Nat.mod_eq_of_lt]
  rw [file_record, compute_file_offset_eq]
  omega

/-! ## 2. One record -/

theorem dma_write_block_map (dma : BitVec 32) (offset : BitVec 16) (buf : List Byte)
    (m : HostedMemory) : (dma_write_block dma offset buf m).map = m.map := by
  unfold dma_write_block
  rw [foldl_write_byte]

/-- A record that begins before the end of the file is read, and the position is the next one. -/
theorem read_record_of_lt {slot : Fin 16} {offset : ℕ} (fcb_addr : BitVec 16)
    (h : offset < ((fs.host.fclose (fs.m_files slot).fp).data (fs.m_files slot).fp.inode).length) :
    ∃ fs' : CpmFileSystem, fs'.m_mem.map = fs.m_mem.map ∧
      fs.read_record fcb_addr slot offset = (fs'.update_fcb_after_read fcb_addr (offset + 128), 0) := by
  have hgot : ((fs.seek slot offset).host.fread ((fs.seek slot offset).m_files slot).fp 128).length
      ≠ 0 := by
    simp only [seek, HostFs.fread, HostFs.fseek_stream, HostFs.fseek_host, Function.update_self, slice,
      List.length_take, List.length_drop]
    omega
  unfold read_record
  dsimp only
  rw [if_neg hgot]
  exact ⟨_, dma_write_block_map _ _ _ _, rfl⟩

theorem read_record_of_le {slot : Fin 16} {offset : ℕ} (fcb_addr : BitVec 16)
    (h : ((fs.host.fclose (fs.m_files slot).fp).data (fs.m_files slot).fp.inode).length ≤ offset) :
    (fs.read_record fcb_addr slot offset).2 = 1 := by
  have hgot : ((fs.seek slot offset).host.fread ((fs.seek slot offset).m_files slot).fp 128).length
      = 0 := by
    simp only [seek, HostFs.fread, HostFs.fseek_stream, HostFs.fseek_host, Function.update_self, slice,
      List.length_take, List.length_drop]
    omega
  unfold read_record
  dsimp only
  rw [if_pos hgot]

theorem length_dma_read_block (dma : BitVec 32) (offset : BitVec 16) (len : ℕ) (m : HostedMemory) :
    (dma_read_block dma offset len m).length = len := by
  simp [dma_read_block]

/-- A record is written through a stream that is open for writing, and through no other. -/
theorem write_record_of_writable {slot : Fin 16} (offset : ℕ) (fcb_addr : BitVec 16)
    (h : (fs.m_files slot).fp.writable = true) :
    ∃ fs' : CpmFileSystem, fs'.m_mem.map = fs.m_mem.map ∧
      fs.write_record fcb_addr slot offset = (fs'.update_fcb_after_read fcb_addr (offset + 128), 0) := by
  have hn : ((fs.seek slot offset).write slot (dma_read_block (fs.seek slot offset).m_dma_addr 0 128
      (fs.seek slot offset).m_mem)).2 = 128 := by
    simp only [write, HostFs.fwrite_count, length_dma_read_block, seek, HostFs.fseek_stream,
      Function.update_self, h, if_true]
  unfold write_record
  dsimp only
  rw [if_neg (not_not.mpr hn)]
  exact ⟨(fs.seek slot offset |>.write slot _).1, rfl, rfl⟩

theorem write_record_of_not_writable {slot : Fin 16} {offset : ℕ} (fcb_addr : BitVec 16)
    (h : (fs.m_files slot).fp.writable = false) :
    (fs.write_record fcb_addr slot offset).2 = 1 := by
  have hn : ((fs.seek slot offset).write slot (dma_read_block (fs.seek slot offset).m_dma_addr 0 128
      (fs.seek slot offset).m_mem)).2 = 0 := by
    simp only [write, HostFs.fwrite_count, seek, HostFs.fseek_stream, Function.update_self, h,
      Bool.false_eq_true, if_false]
  unfold write_record
  dsimp only
  rw [hn]
  rfl

theorem zero_fill_mem (slot : Fin 16) (offset : ℕ) (fs : CpmFileSystem) (cur_size : ℕ) :
    (zero_fill slot offset fs cur_size).m_mem = fs.m_mem := by
  induction fs, cur_size using zero_fill.induct slot offset with
  | case1 fs cur_size hlt chunk ih =>
    unfold zero_fill
    rw [if_pos hlt]
    exact ih
  | case2 fs cur_size hge =>
    unfold zero_fill
    rw [if_neg hge]

end CpmFileSystem

/-! ## 3. The random operations -/

/-- `F_READRAND`, `F_WRITERAND` and `F_WRITEZF`. -/
inductive RandomOp
  | read_rand
  | write_rand
  | write_rand_zf

namespace RandomOp

open CpmFileSystem

def run : RandomOp → CpmFileSystem → BitVec 16 → CpmFileSystem × ℕ
  | read_rand => file_read_rand
  | write_rand => file_write_rand
  | write_rand_zf => file_write_rand_zf

/-- The operation finds its file and can move the record: a read wants it to begin before the end of
the file, a write a stream that is open for writing; `F_WRITEZF` does not look whether it wrote. -/
def Served (op : RandomOp) (fs : CpmFileSystem) (fcb_addr : BitVec 16) : Prop :=
  fs.Opens fcb_addr ∧ ∀ fp, fs.fcb_stream fcb_addr = some fp →
    match op with
    | read_rand =>
      128 * fs.random_record fcb_addr < ((fs.flushed fcb_addr).data fp.inode).length
    | write_rand => fp.writable = true
    | write_rand_zf => True

end RandomOp

namespace CpmFileSystem

variable {fs : CpmFileSystem}

/-- Opening a file stores the handle and no other byte of the FCB. -/
theorem Opened.fcb {fcb_addr : BitVec 16} {fs' : CpmFileSystem} {slot : Fin 16}
    (h : Opened fs fcb_addr fs' slot) {i : BitVec 16} (hi : i ≠ FCB_AL + 1) :
    fs'.mem_read (fcb_addr + i) = fs.mem_read (fcb_addr + i) := by
  refine h.mem _ ?_
  rw [BitVec.add_assoc, Ne, fcb_add_inj]
  exact hi

theorem Opened.random_offset {fcb_addr : BitVec 16} {fs' : CpmFileSystem} {slot : Fin 16}
    (h : Opened fs fcb_addr fs' slot) :
    fs'.compute_random_offset fcb_addr = 128 * fs.random_record fcb_addr := by
  rw [← compute_random_offset_record, compute_random_offset_eq, compute_random_offset_eq,
    h.fcb (by decide), h.fcb (by decide), h.fcb (by decide)]

theorem Opened.file_offset {fcb_addr : BitVec 16} {fs' : CpmFileSystem} {slot : Fin 16}
    (h : Opened fs fcb_addr fs' slot) :
    fs'.compute_file_offset fcb_addr = 128 * fs.file_record fcb_addr := by
  rw [file_record, compute_file_offset_eq, compute_file_offset_eq, h.fcb (by decide),
    h.fcb (by decide), h.fcb (by decide), Nat.mul_div_cancel _ (by decide), Nat.mul_comm]

/-- **What a random operation does**, by what `Served` says of the state before. -/
theorem random_cases (hmap : fs.m_mem.map.Reachable) (op : RandomOp) (fcb_addr : BitVec 16) :
    (op.Served fs fcb_addr ∧ ∃ fs' : CpmFileSystem, fs'.m_mem.map = fs.m_mem.map ∧
      op.run fs fcb_addr =
        (fs'.update_fcb_after_read fcb_addr (128 * (fs.random_record fcb_addr + 1)), 0)) ∨
    ¬ op.Served fs fcb_addr ∧ ((op.run fs fcb_addr).2 = 1 ∨ (op.run fs fcb_addr).2 = 0xff) := by
  rcases ensure_open_cases hmap fcb_addr with ⟨hno, hnone⟩ | ⟨hopens, slot, hsome, ho⟩
  · refine .inr ⟨fun hs => hno hs.1, .inr ?_⟩
    cases op <;>
      simp only [RandomOp.run, file_read_rand, file_write_rand, file_write_rand_zf] <;>
      generalize fs.ensure_open fcb_addr = e at hnone ⊢ <;>
      obtain ⟨_, _⟩ := e <;>
      obtain rfl : _ = none := hnone <;>
      rfl
  · have hoff := ho.random_offset
    have hserved (P : Stream → Prop) :
        (∀ fp, fs.fcb_stream fcb_addr = some fp → P fp) ↔
          P ((fs.ensure_open fcb_addr).1.m_files slot).fp := by
      rw [ho.stream]
      exact ⟨fun h => h _ rfl, fun h fp hfp => Option.some.inj hfp ▸ h⟩
    have hflushed := ho.flushed
    have hm := ho.map
    generalize he : fs.ensure_open fcb_addr = e at hsome hoff hserved hflushed hm
    obtain ⟨fs', s⟩ := e
    obtain rfl : s = some slot := hsome
    cases op with
    | read_rand =>
      simp only [RandomOp.Served, RandomOp.run, file_read_rand, he, hserved, hoff, hopens, true_and,
        ← hflushed]
      by_cases hlt : 128 * fs.random_record fcb_addr <
          ((fs'.host.fclose (fs'.m_files slot).fp).data (fs'.m_files slot).fp.inode).length
      · obtain ⟨fs'', hm'', hr⟩ := read_record_of_lt fcb_addr hlt
        exact .inl ⟨hlt, fs'', hm''.trans hm, hr⟩
      · exact .inr ⟨hlt, .inl (read_record_of_le fcb_addr (Nat.le_of_not_lt hlt))⟩
    | write_rand =>
      simp only [RandomOp.Served, RandomOp.run, file_write_rand, he, hserved, hoff, hopens, true_and]
      cases hw : (fs'.m_files slot).fp.writable with
      | true =>
        obtain ⟨fs'', hm'', hr⟩ :=
          write_record_of_writable (128 * fs.random_record fcb_addr) fcb_addr hw
        exact .inl ⟨rfl, fs'', hm''.trans hm, hr⟩
      | false => exact .inr ⟨by simp, .inl (write_record_of_not_writable fcb_addr hw)⟩
    | write_rand_zf =>
      refine .inl ⟨⟨hopens, fun _ _ => trivial⟩, ?_⟩
      simp only [RandomOp.run, file_write_rand_zf, he, hoff]
      refine ⟨_, ?_, rfl⟩
      split_ifs
      · simp only [write_mem, seek_mem, zero_fill_mem]
        exact hm
      · simp only [write_mem, seek_mem]
        exact hm

/-- After a random operation the position is the record after the one accessed. -/
theorem file_record_run (hmap : fs.m_mem.map.Reachable) {op : RandomOp} {fcb_addr : BitVec 16}
    (h : (op.run fs fcb_addr).2 = 0) :
    (op.run fs fcb_addr).1.file_record fcb_addr = (fs.random_record fcb_addr + 1) % 2 ^ 18 ∧
      (op.run fs fcb_addr).1.m_mem.map = fs.m_mem.map := by
  rcases random_cases hmap op fcb_addr with ⟨-, fs', hm, hr⟩ | ⟨-, hr | hr⟩
  · rw [hr]
    exact ⟨file_record_update (hm ▸ hmap) fcb_addr _, hm⟩
  · rw [hr] at h
    cases h
  · rw [hr] at h
    cases h

/-! ## 4. The law of the guide -/

/-- The sequential operations, at a record given to them. -/
def read_at (fs : CpmFileSystem) (fcb_addr : BitVec 16) (record : ℕ) : CpmFileSystem × ℕ :=
  match fs.ensure_open fcb_addr with
  | (fs, none) => (fs, 0xff)
  | (fs, some slot) => fs.read_record fcb_addr slot (128 * record)

def write_at (fs : CpmFileSystem) (fcb_addr : BitVec 16) (record : ℕ) : CpmFileSystem × ℕ :=
  match fs.ensure_open fcb_addr with
  | (fs, none) => (fs, 0xff)
  | (fs, some slot) => fs.write_record fcb_addr slot (128 * record)

/-- **The position law of the programmer's guide**, for one operation in one state: a record in
range stays the position, for `F_RANDREC` and for the next sequential read or write; a record out of
range is refused, and neither the position nor a file changes. -/
structure PositionLaw (op : RandomOp) (fs : CpmFileSystem) (fcb_addr : BitVec 16) : Prop where
  randrec : fs.random_record fcb_addr ≤ 0x3ffff → (op.run fs fcb_addr).2 = 0 →
    ((op.run fs fcb_addr).1.file_set_random fcb_addr).1.random_record fcb_addr =
      fs.random_record fcb_addr
  read_seq : fs.random_record fcb_addr ≤ 0x3ffff → (op.run fs fcb_addr).2 = 0 →
    (op.run fs fcb_addr).1.file_read_seq fcb_addr =
      (op.run fs fcb_addr).1.read_at fcb_addr (fs.random_record fcb_addr)
  write_seq : fs.random_record fcb_addr ≤ 0x3ffff → (op.run fs fcb_addr).2 = 0 →
    (op.run fs fcb_addr).1.file_write_seq fcb_addr =
      (op.run fs fcb_addr).1.write_at fcb_addr (fs.random_record fcb_addr)
  refused : 0x3ffff < fs.random_record fcb_addr → (op.run fs fcb_addr).2 = 6
  unchanged : 0x3ffff < fs.random_record fcb_addr →
    (op.run fs fcb_addr).1.file_record fcb_addr = fs.file_record fcb_addr ∧
      (op.run fs fcb_addr).1.host.data = fs.host.data

/-- **The position law holds exactly where the record number is in range and the operation does not
succeed.** -/
theorem positionLaw_iff (hmap : fs.m_mem.map.Reachable) (op : RandomOp) (fcb_addr : BitVec 16) :
    PositionLaw op fs fcb_addr ↔
      fs.random_record fcb_addr ≤ 0x3ffff ∧ ¬ op.Served fs fcb_addr := by
  rcases random_cases hmap op fcb_addr with ⟨hserved, fs', hm, hr⟩ | ⟨hno, hcode⟩
  · have hzero : (op.run fs fcb_addr).2 = 0 := by rw [hr]
    constructor
    · intro hlaw
      exfalso
      rcases Nat.lt_or_ge 0x3ffff (fs.random_record fcb_addr) with hbig | hle
      · have hsix := hlaw.refused hbig
        rw [hzero] at hsix
        cases hsix
      · obtain ⟨hpos, hmap'⟩ := file_record_run hmap hzero
        have hrec := hlaw.randrec hle hzero
        rw [random_record_set_random (hmap' ▸ hmap), hpos] at hrec
        omega
    · rintro ⟨-, hno⟩
      exact absurd hserved hno
  · have hzero : (op.run fs fcb_addr).2 ≠ 0 := by
      rcases hcode with hc | hc <;> rw [hc] <;> decide
    constructor
    · intro hlaw
      refine ⟨?_, hno⟩
      by_contra hbig
      have hsix := hlaw.refused (Nat.lt_of_not_le hbig)
      rcases hcode with hc | hc <;> rw [hc] at hsix <;> cases hsix
    · rintro ⟨hle, -⟩
      exact {
        randrec := fun _ h => absurd h hzero
        read_seq := fun _ h => absurd h hzero
        write_seq := fun _ h => absurd h hzero
        refused := fun h => absurd hle (Nat.not_le_of_lt h)
        unchanged := fun h => absurd hle (Nat.not_le_of_lt h) }

/-- The name A, and zeros. -/
def fcb_a : List Byte := 0 :: 0x41 :: List.replicate 10 0x20

/-- A record of a file that is not there. -/
theorem positionLaw_iff_missing : PositionLaw .read_rand (sample fcb_a []) 0x5c ↔
    (sample fcb_a []).random_record 0x5c ≤ 0x3ffff ∧
      ¬ RandomOp.read_rand.Served (sample fcb_a []) 0x5c :=
  positionLaw_iff .z8002 .read_rand 0x5c

/-- **Record 0 of a file of two records**: `F_RANDREC` stores 1 after it is read. -/
theorem read_rand_not_positionLaw :
    ¬ PositionLaw .read_rand (sample fcb_a [([0x41], List.replicate 256 0x55)]) 0x5c := by
  intro hlaw
  have hrec := hlaw.randrec (by decide +kernel) (by decide +kernel)
  revert hrec
  decide +kernel

end CpmFileSystem

end Cpm8000.Host
