/-
# Copying between the banks of the Z8002 demonstration board

The memory management unit translates 16-bit addresses to 19-bit ones.  Normal-mode code sees one
whole bank of 64 KiB.  System-mode code sees four chunks of 16 KiB, each either the chunk of its
home bank (A) or an aperture onto any physical chunk (B).  `mem_bcp` reaches the banks of the
programs by making chunk 3 an aperture, and copies between two of them by way of a small buffer.

`mem_bcp_copied` compares the three: the arithmetic of the copying loops, the registers that
`map_wdw` and `unwdw` set, and the translation of the hardware.
-/
import Cpm8000.Sys.Copy
import Cpm8000.Bios.Disk

namespace Cpm8000.Bios.Z8002Demo

open Arith Sys

/-! ## 1. The memory management unit -/

/-- The register file. -/
structure Mmu where
  nbank_i : BitVec 3
  nbank_d : BitVec 3
  shome : BitVec 3
  ssel : BitVec 4
  sap0 : BitVec 5
  sap1 : BitVec 5

/-- A write to a register; only system mode may write. -/
def Mmu.write (u : Mmu) (sys_mode : Bool) (reg_sel : BitVec 3) (reg_data : BitVec 8) : Mmu :=
  if sys_mode then
    if reg_sel = 0 then { u with nbank_i := reg_data.setWidth 3 }
    else if reg_sel = 1 then { u with nbank_d := reg_data.setWidth 3 }
    else if reg_sel = 2 then { u with shome := reg_data.setWidth 3 }
    else if reg_sel = 3 then { u with ssel := reg_data.setWidth 4 }
    else if reg_sel = 4 then { u with sap0 := reg_data.setWidth 5 }
    else if reg_sel = 5 then { u with sap1 := reg_data.setWidth 5 }
    else u
  else u

/-- Is there a B chunk below this one? -/
def Mmu.b_before (u : Mmu) (lchunk : BitVec 2) : Bool :=
  if lchunk = 0 then false
  else if lchunk = 1 then u.ssel.getLsbD 0
  else if lchunk = 2 then u.ssel.getLsbD 0 || u.ssel.getLsbD 1
  else u.ssel.getLsbD 0 || u.ssel.getLsbD 1 || u.ssel.getLsbD 2

/-- Address translation. -/
def Mmu.paddr (u : Mmu) (sys_mode id_instr : Bool) (laddr : BitVec 16) : BitVec 19 :=
  let lchunk := laddr.extractLsb' 14 2
  let off := laddr.extractLsb' 0 14
  let nchunk : BitVec 5 := (if id_instr then u.nbank_i else u.nbank_d) ++ lchunk
  let aperture := if u.b_before lchunk then u.sap1 else u.sap0
  let schunk : BitVec 5 := if u.ssel.getLsbD lchunk.toNat then aperture else u.shome ++ lchunk
  let pchunk := if sys_mode then schunk else nchunk
  pchunk ++ off

/-! ## 2. The routines -/

/-- The physical memory and the unit. -/
structure Machine where
  mem : BitVec 19 → Byte
  mmu : Mmu

/-- Special output: the registers of the unit are at the ports from FFE0 hex on. -/
def soutb (port : BitVec 16) (v : BitVec 8) (m : Machine) : Machine :=
  { m with mmu := m.mmu.write true (port.setWidth 3) v }

/-- Window a physical chunk into C3. -/
def map_wdw (physchunk : BitVec 16) (m : Machine) : Machine :=
  soutb 0xFFE3 0x08 (soutb 0xFFE4 (physchunk.setWidth 8) m)

/-- Close the aperture. -/
def unwdw (m : Machine) : Machine :=
  soutb 0xFFE3 0 m

/-- `ldirb @r4,@r5,r2` in system mode: a count of 0 stands for 65536. -/
def ldirb (r4 r5 r2 : BitVec 16) (m : Machine) : Machine :=
  { m with
    mem := copyUp (m.mmu.paddr true false) (if r2 = 0 then 65536 else r2.toNat) r5 r4 m.mem }

/-- Flat byte copy. -/
def blkmov (source dest length : BitVec 16) (m : Machine) : Machine :=
  ldirb dest source length m

/-- The aperture window. -/
def AWIN : BitVec 16 := 0xC000

/-- The size of a chunk. -/
def ACHUNK : BitVec 16 := 0x4000

/-- The number of bytes up to the end of the chunk, or to the end of the copy. -/
def chunkSize (a length : BitVec 16) : BitVec 16 :=
  let off := a &&& (ACHUNK - 1)
  let avail := ACHUNK - off
  if length < avail then length else avail

/-- OS to TPA: window the destination. -/
def os_to_tpa (dbank : BitVec 16) :
    ℕ → BitVec 16 → BitVec 16 → BitVec 16 → Machine → Option Machine :=
  copyLoop (fun _ dest length => chunkSize dest length) fun source dest n m =>
    let off := dest &&& (ACHUNK - 1)
    some (blkmov source (AWIN + off) n (map_wdw ((dbank <<< 2) + (dest >>> 14)) m))

/-- TPA to OS: window the source. -/
def tpa_to_os (sbank : BitVec 16) :
    ℕ → BitVec 16 → BitVec 16 → BitVec 16 → Machine → Option Machine :=
  copyLoop (fun source _ length => chunkSize source length) fun source dest n m =>
    let off := source &&& (ACHUNK - 1)
    some (blkmov (AWIN + off) dest n (map_wdw ((sbank <<< 2) + (source >>> 14)) m))

/-- Both in TPA banks: bounce, the two halves of each round by `bcp`. -/
def tpa_to_tpa
    (bcp : BitVec 16 → BitVec 16 → BitVec 16 → BitVec 16 → BitVec 16 → Machine → Option Machine)
    (bounce sseg dseg : BitVec 16) :
    ℕ → BitVec 16 → BitVec 16 → BitVec 16 → Machine → Option Machine :=
  copyLoop (fun _ _ length => if 128 < length then 128 else length) fun source dest n m => do
    let m₁ ← bcp sseg source 0 bounce n m
    bcp 0 bounce dseg dest n m₁

/-- Cross-bank block copy; `none` when the fuel runs out. -/
def mem_bcp (bounce : BitVec 16) :
    ℕ → BitVec 16 → BitVec 16 → BitVec 16 → BitVec 16 → BitVec 16 → Machine → Option Machine
  | 0, _, _, _, _, _, _ => none
  | fuel + 1, sseg, source, dseg, dest, length, m =>
    let sbank := sseg >>> 8
    let dbank := dseg >>> 8
    if sbank = 0 ∧ dbank = 0 then some (blkmov source dest length m)
    else if sbank ≠ 0 ∧ dbank ≠ 0 then
      tpa_to_tpa (mem_bcp bounce fuel) bounce sseg dseg fuel source dest length m
    else if dbank ≠ 0 then (os_to_tpa dbank fuel source dest length m).map unwdw
    else (tpa_to_os sbank fuel source dest length m).map unwdw

/-! ## 3. What an address shows -/

/-- What normal-mode code sees once its banks are set to that of a pseudo-segment. -/
def normalView (u : Mmu) (seg : BitVec 16) (id_instr : Bool) (a : BitVec 16) : BitVec 19 :=
  let bank := (seg >>> 8).setWidth 8
  ((u.write true 0 bank).write true 1 bank).paddr false id_instr a

/-- The byte at an offset in the bank of a pseudo-segment. -/
def physical (seg a : BitVec 16) : BitVec 19 :=
  ((seg >>> 8).setWidth 3 ++ a.extractLsb' 14 2) ++ a.extractLsb' 0 14

/-- The system sees its own bank, address for address. -/
structure Mmu.Flat (u : Mmu) : Prop where
  ssel : u.ssel = 0
  shome : u.shome = 0

theorem normalView_eq (u : Mmu) (seg : BitVec 16) (id_instr : Bool) (a : BitVec 16) :
    normalView u seg id_instr a = physical seg a := by
  have hbank : ((seg >>> 8).setWidth 8).setWidth 3 = (seg >>> 8).setWidth 3 := by
    rw [BitVec.setWidth_setWidth_of_le _ (by decide)]
  cases id_instr <;> simp [normalView, physical, Mmu.write, Mmu.paddr, hbank]

theorem toNat_append {v w : ℕ} (x : BitVec v) (y : BitVec w) :
    (x ++ y).toNat = x.toNat * 2 ^ w + y.toNat := by
  rw [BitVec.toNat_append, Nat.shiftLeft_eq, ← Nat.shiftLeft_eq,
    ← Nat.shiftLeft_add_eq_or_of_lt y.isLt, Nat.shiftLeft_eq]

theorem toNat_physical (seg a : BitVec 16) :
    (physical seg a).toNat = seg.toNat / 256 % 8 * 65536 + a.toNat := by
  have ha := a.isLt
  have hseg : (seg >>> 8).toNat = seg.toNat / 256 := by
    rw [BitVec.toNat_ushiftRight, Nat.shiftRight_eq_div_pow]
  rw [physical, toNat_append, toNat_append, BitVec.toNat_setWidth, hseg,
    BitVec.extractLsb'_toNat, BitVec.extractLsb'_toNat, Nat.shiftRight_eq_div_pow,
    Nat.shiftRight_eq_div_pow]
  omega

theorem toNat_chunk (a : BitVec 16) : (a.extractLsb' 14 2).toNat = a.toNat / 16384 := by
  have ha := a.isLt
  rw [BitVec.extractLsb'_toNat, Nat.shiftRight_eq_div_pow]
  omega

/-- Below the window the system sees its own bank, the window open or not. -/
theorem paddr_low {u : Mmu} {seg a : BitVec 16} {id_instr : Bool} (hhome : u.shome = 0)
    (hsel : u.ssel = 0 ∨ u.ssel = 8 ∧ a.toNat < 0xC000) (hseg : seg >>> 8 = 0) :
    u.paddr true id_instr a = physical seg a := by
  have hbit : u.ssel.getLsbD (a.extractLsb' 14 2).toNat = false := by
    rcases hsel with h0 | ⟨h8, ha⟩
    · rw [h0, BitVec.ofNat_eq_ofNat, BitVec.getLsbD_zero]
    · rw [h8, toNat_chunk]
      rcases (by omega : a.toNat / 16384 = 0 ∨ a.toNat / 16384 = 1 ∨ a.toNat / 16384 = 2)
        with h | h | h <;> rw [h] <;> rfl
  simp only [Mmu.paddr, hbit, hhome, physical, hseg, if_true, Bool.false_eq_true, if_false]
  rfl

/-- The window shows the chunk that `SAP0` names. -/
theorem paddr_window {u : Mmu} {a : BitVec 16} {id_instr : Bool} (hsel : u.ssel = 8)
    (ha : 0xC000 ≤ a.toNat) :
    (u.paddr true id_instr a).toNat = u.sap0.toNat * 16384 + a.toNat % 16384 := by
  have hchunk : a.extractLsb' 14 2 = 3 := by
    apply BitVec.eq_of_toNat_eq
    have hlt := a.isLt
    rw [toNat_chunk]
    exact (by omega : a.toNat / 16384 = 3)
  have hbefore : u.b_before 3 = false := by rw [Mmu.b_before, hsel]; decide
  have hbit : u.ssel.getLsbD (3 : BitVec 2).toNat = true := by rw [hsel]; decide
  simp only [Mmu.paddr, hchunk, hbefore, hbit, if_true, Bool.false_eq_true, if_false]
  rw [toNat_append, BitVec.extractLsb'_toNat, Nat.shiftRight_eq_div_pow, Nat.pow_zero, Nat.div_one]
  norm_num

/-- The window is open on a chunk. -/
structure Mmu.Open (u : Mmu) (physchunk : BitVec 16) : Prop where
  ssel : u.ssel = 8
  shome : u.shome = 0
  sap0 : u.sap0 = physchunk.setWidth 5

theorem map_wdw_open (physchunk : BitVec 16) {m : Machine} (h : m.mmu.shome = 0) :
    (map_wdw physchunk m).mmu.Open physchunk where
  ssel := by simp [map_wdw, soutb, Mmu.write]
  shome := by simp [map_wdw, soutb, Mmu.write, h]
  sap0 := by simp [map_wdw, soutb, Mmu.write, BitVec.setWidth_setWidth_of_le]

theorem unwdw_flat {m : Machine} (h : m.mmu.shome = 0) : (unwdw m).mmu.Flat where
  ssel := by simp [unwdw, soutb, Mmu.write]
  shome := by simp [unwdw, soutb, Mmu.write, h]

theorem toNat_offset (a : BitVec 16) : (a &&& (ACHUNK - 1)).toNat = a.toNat % 0x4000 := by
  rw [BitVec.toNat_and]
  exact Nat.and_two_pow_sub_one_eq_mod a.toNat 14

/-- **The window shows the bank.** -/
theorem paddr_open {u : Mmu} {seg a : BitVec 16} {id_instr : Bool} {i : ℕ}
    (h : u.Open (((seg >>> 8) <<< 2) + (a >>> 14))) (hi : a.toNat % 0x4000 + i < 0x4000) :
    u.paddr true id_instr (AWIN + (a &&& (ACHUNK - 1)) + BitVec.ofNat 16 i) =
      physical seg (a + BitVec.ofNat 16 i) := by
  have ha := a.isLt
  have hseg := seg.isLt
  have hoff := toNat_offset a
  have hwin : (AWIN + (a &&& (ACHUNK - 1)) + BitVec.ofNat 16 i).toNat =
      0xC000 + a.toNat % 0x4000 + i := by
    generalize a &&& (ACHUNK - 1) = off at hoff ⊢
    simp only [AWIN, BitVec.ofNat_eq_ofNat, BitVec.toNat_add, BitVec.toNat_ofNat]
    omega
  have hsap : u.sap0.toNat = seg.toNat / 256 % 8 * 4 + a.toNat / 16384 := by
    rw [h.sap0, BitVec.toNat_setWidth, BitVec.toNat_add, BitVec.toNat_shiftLeft,
      BitVec.toNat_ushiftRight, BitVec.toNat_ushiftRight, Nat.shiftLeft_eq,
      Nat.shiftRight_eq_div_pow, Nat.shiftRight_eq_div_pow]
    omega
  apply BitVec.eq_of_toNat_eq
  rw [paddr_window h.ssel (by omega), hwin, hsap, toNat_physical, BitVec.toNat_add,
    BitVec.toNat_ofNat]
  omega

/-! ## 4. One round -/

/-- The bytes of a bank from an offset on, wrapping round at its end. -/
def bytes (seg a : BitVec 16) : ℕ → BitVec 19 := fun i => physical seg (a + BitVec.ofNat 16 i)

/-- The registers no copy touches. -/
structure Mmu.Kept (u v : Mmu) : Prop where
  nbank_i : v.nbank_i = u.nbank_i
  nbank_d : v.nbank_d = u.nbank_d
  shome : v.shome = u.shome
  sap1 : v.sap1 = u.sap1

theorem Mmu.Kept.rfl {u : Mmu} : u.Kept u := ⟨Eq.refl _, Eq.refl _, Eq.refl _, Eq.refl _⟩

theorem Mmu.Kept.trans {u v t : Mmu} (h : u.Kept v) (h' : v.Kept t) : u.Kept t :=
  ⟨h'.nbank_i.trans h.nbank_i, h'.nbank_d.trans h.nbank_d, h'.shome.trans h.shome,
    h'.sap1.trans h.sap1⟩

theorem map_wdw_kept (physchunk : BitVec 16) (m : Machine) :
    m.mmu.Kept (map_wdw physchunk m).mmu := by
  constructor <;> simp [map_wdw, soutb, Mmu.write]

theorem unwdw_kept (m : Machine) : m.mmu.Kept (unwdw m).mmu := by
  constructor <;> simp [unwdw, soutb, Mmu.write]

theorem bytes_add {seg : BitVec 16} (a n : BitVec 16) (i : ℕ) :
    bytes seg a (n.toNat + i) = bytes seg (a + n) i := by
  rw [bytes, bytes, BitVec.ofNat_add, BitVec.ofNat_toNat, BitVec.setWidth_eq, BitVec.add_assoc]

theorem bytes_inj {seg a : BitVec 16} {n : ℕ} (hn : n ≤ 65536) :
    ∀ i < n, ∀ j < n, bytes seg a i = bytes seg a j → i = j := by
  intro i hi j hj hij
  have hnat := congrArg BitVec.toNat hij
  rw [bytes, bytes, toNat_physical, toNat_physical, BitVec.toNat_add, BitVec.toNat_add,
    BitVec.toNat_ofNat, BitVec.toNat_ofNat] at hnat
  omega

theorem blkmov_copied {source dest n : BitVec 16} {m : Machine} {src dst : ℕ → BitVec 19}
    (hn : 0 < n.toNat) (h : Apart ∅ src dst n.toNat)
    (hsrc : ∀ i < n.toNat, m.mmu.paddr true false (source + BitVec.ofNat 16 i) = src i)
    (hdst : ∀ i < n.toNat, m.mmu.paddr true false (dest + BitVec.ofNat 16 i) = dst i) :
    Copied ∅ src dst n.toNat m.mem (blkmov source dest n m).mem := by
  have hne : n ≠ 0 := fun h0 => by simp [h0] at hn
  rw [blkmov, ldirb, if_neg hne]
  exact copyUp_copied_of_eq h hsrc hdst

/-- **The size of a chunk**: not zero, no more than is left or the physical chunk holds. -/
theorem chunkSize_spec (a : BitVec 16) {length : BitVec 16} (hlen : 0 < length) :
    0 < (chunkSize a length).toNat ∧ (chunkSize a length).toNat ≤ length.toNat ∧
      a.toNat % 0x4000 + (chunkSize a length).toNat ≤ 0x4000 := by
  have hoff := toNat_offset a
  rw [BitVec.lt_def] at hlen
  rw [chunkSize]
  generalize a &&& (ACHUNK - 1) = off at hoff ⊢
  have havail : (ACHUNK - off).toNat = 0x4000 - off.toNat := by rw [ACHUNK]; bv_omega
  generalize ACHUNK - off = avail at havail ⊢
  simp only [BitVec.lt_def, BitVec.ofNat_eq_ofNat, BitVec.toNat_ofNat] at hlen ⊢
  split_ifs <;> omega

/-- The system's side of a round, the window open. -/
theorem paddr_os {u : Mmu} {seg a n physchunk : BitVec 16} {i : ℕ} (hopen : u.Open physchunk)
    (hseg : seg >>> 8 = 0) (ha : a.toNat + n.toNat ≤ 0xC000) (hi : i < n.toNat) :
    u.paddr true false (a + BitVec.ofNat 16 i) = bytes seg a i := by
  refine paddr_low hopen.shome (Or.inr ⟨hopen.ssel, ?_⟩) hseg
  rw [BitVec.toNat_add, BitVec.toNat_ofNat]
  omega

theorem toNat_add_of_le {a n l : BitVec 16} (hn : n.toNat ≤ l.toNat)
    (h : a.toNat + l.toNat ≤ 0xC000) : (a + n).toNat + (l - n).toNat ≤ 0xC000 := by
  rw [BitVec.toNat_sub_of_le (BitVec.le_def.mpr hn), BitVec.toNat_add]
  omega

section windowed

variable {sseg dseg source dest length : BitVec 16} {m : Machine} {fuel : ℕ}
  (hfuel : length.toNat < fuel) (hhome : m.mmu.shome = 0)
  (h : Apart ∅ (bytes sseg source) (bytes dseg dest) length.toNat)

include hfuel hhome h in
theorem os_to_tpa_copied (hseg : sseg >>> 8 = 0) (hlow : source.toNat + length.toNat ≤ 0xC000) :
    ∃ m', os_to_tpa (dseg >>> 8) fuel source dest length m = some m' ∧
      Copied ∅ (bytes sseg source) (bytes dseg dest) length.toNat m.mem m'.mem ∧
      m.mmu.Kept m'.mmu := by
  let I : BitVec 16 → BitVec 16 → BitVec 16 → Machine → Prop := fun p _ l t =>
    p.toNat + l.toNat ≤ 0xC000 ∧ m.mmu.Kept t.mmu
  have hloop : ∃ m', os_to_tpa (dseg >>> 8) fuel source dest length m = some m' ∧
      Copied ∅ (bytes sseg source) (bytes dseg dest) length.toNat m.mem m'.mem ∧
      ∃ p q, I p q 0 m' := by
    refine copyLoop_copied Machine.mem I bytes_add bytes_add (fun p q l hl => ?_)
      (fun p q l s hs hl hap => ?_) hfuel ⟨hlow, .rfl⟩ h
    · obtain ⟨hn, hle, -⟩ := chunkSize_spec q hl
      exact ⟨hn, hle⟩
    · obtain ⟨hn, hle, hchunk⟩ := chunkSize_spec q hl
      obtain ⟨hpl, hkept⟩ := hs
      have hopen := map_wdw_open (((dseg >>> 8) <<< 2) + (q >>> 14)) (hkept.shome.trans hhome)
      have hp : p.toNat + (chunkSize q l).toNat ≤ 0xC000 := le_trans (by omega) hpl
      generalize chunkSize q l = n at hn hle hchunk hp hap ⊢
      refine ⟨_, rfl, ?_, toNat_add_of_le hle hpl, hkept.trans (map_wdw_kept _ s)⟩
      exact blkmov_copied (m := map_wdw _ s) hn hap (fun i hi => paddr_os hopen hseg hp hi)
        (fun i hi => paddr_open hopen (by omega))
  obtain ⟨m', hm', hcopied, -, -, -, hkept⟩ := hloop
  exact ⟨m', hm', hcopied, hkept⟩

include hfuel hhome h in
theorem tpa_to_os_copied (hseg : dseg >>> 8 = 0) (hlow : dest.toNat + length.toNat ≤ 0xC000) :
    ∃ m', tpa_to_os (sseg >>> 8) fuel source dest length m = some m' ∧
      Copied ∅ (bytes sseg source) (bytes dseg dest) length.toNat m.mem m'.mem ∧
      m.mmu.Kept m'.mmu := by
  let I : BitVec 16 → BitVec 16 → BitVec 16 → Machine → Prop := fun _ q l t =>
    q.toNat + l.toNat ≤ 0xC000 ∧ m.mmu.Kept t.mmu
  have hloop : ∃ m', tpa_to_os (sseg >>> 8) fuel source dest length m = some m' ∧
      Copied ∅ (bytes sseg source) (bytes dseg dest) length.toNat m.mem m'.mem ∧
      ∃ p q, I p q 0 m' := by
    refine copyLoop_copied Machine.mem I bytes_add bytes_add (fun p q l hl => ?_)
      (fun p q l s hs hl hap => ?_) hfuel ⟨hlow, .rfl⟩ h
    · obtain ⟨hn, hle, -⟩ := chunkSize_spec p hl
      exact ⟨hn, hle⟩
    · obtain ⟨hn, hle, hchunk⟩ := chunkSize_spec p hl
      obtain ⟨hql, hkept⟩ := hs
      have hopen := map_wdw_open (((sseg >>> 8) <<< 2) + (p >>> 14)) (hkept.shome.trans hhome)
      have hq : q.toNat + (chunkSize p l).toNat ≤ 0xC000 := le_trans (by omega) hql
      generalize chunkSize p l = n at hn hle hchunk hq hap ⊢
      refine ⟨_, rfl, ?_, toNat_add_of_le hle hql, hkept.trans (map_wdw_kept _ s)⟩
      exact blkmov_copied (m := map_wdw _ s) hn hap (fun i hi => paddr_open hopen (by omega))
        (fun i hi => paddr_os hopen hseg hq hi)
  obtain ⟨m', hm', hcopied, -, -, -, hkept⟩ := hloop
  exact ⟨m', hm', hcopied, hkept⟩

end windowed

/-! ## 5. The copy -/

/-- The bounce buffer of `mem_bcp`. -/
def bounceBuf (bounce : BitVec 16) : Set (BitVec 19) := {a | ∃ k < 128, a = bytes 0 bounce k}

/-- What a copy leaves behind: the bytes copied, the window closed, the other registers kept. -/
structure Moved (S : Set (BitVec 19)) (src dst : ℕ → BitVec 19) (n : ℕ) (m m' : Machine) : Prop
    where
  copied : Copied S src dst n m.mem m'.mem
  flat : m'.mmu.Flat
  kept : m.mmu.Kept m'.mmu

theorem moved_of_unwdw {src dst : ℕ → BitVec 19} {n : ℕ} {m t : Machine} (hflat : m.mmu.Flat)
    (hcopied : Copied ∅ src dst n m.mem t.mem) (hkept : m.mmu.Kept t.mmu) :
    Moved ∅ src dst n m (unwdw t) :=
  ⟨hcopied, unwdw_flat (hkept.shome.trans hflat.shome), hkept.trans (unwdw_kept t)⟩

section copy

variable {bounce sseg dseg source dest length : BitVec 16} {m : Machine} {fuel : ℕ}
  (hflat : m.mmu.Flat) (hlen : 0 < length.toNat)

variable (bounce) in
include hflat hlen in
/-- **A copy with the OS at one end.** -/
theorem mem_bcp_os_moved (hos : sseg >>> 8 = 0 ∨ dseg >>> 8 = 0)
    (hsrc : sseg >>> 8 = 0 → source.toNat + length.toNat ≤ 0xC000)
    (hdst : dseg >>> 8 = 0 → dest.toNat + length.toNat ≤ 0xC000)
    (h : Apart ∅ (bytes sseg source) (bytes dseg dest) length.toNat)
    (hfuel : length.toNat + 2 ≤ fuel) :
    ∃ m', mem_bcp bounce fuel sseg source dseg dest length m = some m' ∧
      Moved ∅ (bytes sseg source) (bytes dseg dest) length.toNat m m' := by
  obtain ⟨fuel, rfl⟩ := Nat.exists_eq_add_of_le' (by omega : 1 ≤ fuel)
  have hfuel' : length.toNat < fuel := by omega
  rw [mem_bcp]
  by_cases hs : sseg >>> 8 = 0
  · by_cases hd : dseg >>> 8 = 0
    · rw [if_pos ⟨hs, hd⟩]
      refine ⟨_, rfl, ?_, hflat, .rfl⟩
      exact blkmov_copied hlen h (fun i _ => paddr_low hflat.shome (Or.inl hflat.ssel) hs)
        fun i _ => paddr_low hflat.shome (Or.inl hflat.ssel) hd
    · obtain ⟨t, ht, hcopied, hkept⟩ := os_to_tpa_copied hfuel' hflat.shome h hs (hsrc hs)
      rw [if_neg (fun hz => hd hz.2), if_neg (fun hz => hz.1 hs), if_pos hd, ht]
      exact ⟨unwdw t, rfl, moved_of_unwdw hflat hcopied hkept⟩
  · have hd : dseg >>> 8 = 0 := hos.resolve_left hs
    obtain ⟨t, ht, hcopied, hkept⟩ := tpa_to_os_copied hfuel' hflat.shome h hd (hdst hd)
    rw [if_neg (fun hz => hs hz.1), if_neg (fun hz => hz.2 hd), if_neg (fun hz => hz hd), ht]
    exact ⟨unwdw t, rfl, moved_of_unwdw hflat hcopied hkept⟩

theorem bounce_size {l : BitVec 16} (hl : 0 < l) :
    0 < (if 128 < l then 128 else l).toNat ∧ (if 128 < l then 128 else l).toNat ≤ l.toNat ∧
      (if 128 < l then 128 else l).toNat ≤ 128 := by
  simp only [BitVec.lt_def, BitVec.ofNat_eq_ofNat, BitVec.toNat_ofNat] at hl ⊢
  split_ifs
  · exact ⟨by decide, by rw [BitVec.toNat_ofNat]; omega, le_refl _⟩
  · omega

/-- **A round of the copy between two TPA banks**: two copies with the OS at one end. -/
theorem bounce_moved {p q n : BitVec 16} {s : Machine} (hb : bounce.toNat + 128 ≤ 0xC000)
    (hs : sseg >>> 8 ≠ 0) (hd : dseg >>> 8 ≠ 0) (hflat : s.mmu.Flat) (hn : 0 < n.toNat)
    (h128 : n.toNat ≤ 128) (hfuel : n.toNat + 2 ≤ fuel)
    (h : Apart (bounceBuf bounce) (bytes sseg p) (bytes dseg q) n.toNat) :
    ∃ m₁ m₂, mem_bcp bounce fuel sseg p 0 bounce n s = some m₁ ∧
      mem_bcp bounce fuel 0 bounce dseg q n m₁ = some m₂ ∧
      Moved (bounceBuf bounce) (bytes sseg p) (bytes dseg q) n.toNat s m₂ := by
  have hin : Apart ∅ (bytes sseg p) (bytes 0 bounce) n.toNat :=
    ⟨fun _ _ => Set.notMem_empty _, fun _ _ => Set.notMem_empty _,
      fun i hi j hj hij => h.src_notMem i hi ⟨j, by omega, hij⟩, bytes_inj (by omega)⟩
  have hout : Apart ∅ (bytes 0 bounce) (bytes dseg q) n.toNat :=
    ⟨fun _ _ => Set.notMem_empty _, fun _ _ => Set.notMem_empty _,
      fun i hi j hj hij => h.dst_notMem j hj ⟨i, by omega, hij.symm⟩, h.inj⟩
  obtain ⟨m₁, hm₁, hmoved₁⟩ := mem_bcp_os_moved bounce hflat hn (Or.inr (by decide))
    (fun hz => absurd hz hs) (fun _ => by omega) hin hfuel
  obtain ⟨m₂, hm₂, hmoved₂⟩ := mem_bcp_os_moved bounce hmoved₁.flat hn
    (Or.inl (by decide)) (fun _ => by omega) (fun hz => absurd hz hd) hout hfuel
  exact ⟨m₁, m₂, hm₁, hm₂, hmoved₁.copied.bounce hmoved₂.copied fun i hi => ⟨i, by omega, rfl⟩,
    hmoved₂.flat, hmoved₁.kept.trans hmoved₂.kept⟩

include hflat in
theorem tpa_to_tpa_moved (hb : bounce.toNat + 128 ≤ 0xC000) (hs : sseg >>> 8 ≠ 0)
    (hd : dseg >>> 8 ≠ 0) (hfuel : length.toNat + 2 ≤ fuel)
    (h : Apart (bounceBuf bounce) (bytes sseg source) (bytes dseg dest) length.toNat) :
    ∃ m', tpa_to_tpa (mem_bcp bounce fuel) bounce sseg dseg fuel source dest length m = some m' ∧
      Moved (bounceBuf bounce) (bytes sseg source) (bytes dseg dest) length.toNat m m' := by
  let I : BitVec 16 → BitVec 16 → BitVec 16 → Machine → Prop := fun _ _ l t =>
    l.toNat + 2 ≤ fuel ∧ t.mmu.Flat ∧ m.mmu.Kept t.mmu
  have hloop : ∃ m', tpa_to_tpa (mem_bcp bounce fuel) bounce sseg dseg fuel source dest length m =
        some m' ∧
      Copied (bounceBuf bounce) (bytes sseg source) (bytes dseg dest) length.toNat m.mem m'.mem ∧
      ∃ p q, I p q 0 m' := by
    refine copyLoop_copied Machine.mem I bytes_add bytes_add (fun p q l hl => ?_)
      (fun p q l s hI hl hap => ?_) (by omega) ⟨hfuel, hflat, .rfl⟩ h
    · obtain ⟨hn, hle, -⟩ := bounce_size hl
      exact ⟨hn, hle⟩
    · obtain ⟨hn, hle, h128⟩ := bounce_size hl
      obtain ⟨hfl, hflat', hkept⟩ := hI
      generalize (if 128 < l then 128 else l) = n at hn hle h128 hap ⊢
      obtain ⟨m₁, m₂, hm₁, hm₂, hmoved⟩ :=
        bounce_moved hb hs hd hflat' hn h128 (by omega : n.toNat + 2 ≤ fuel) hap
      refine ⟨m₂, by rw [hm₁, Option.bind_eq_bind, Option.bind_some, hm₂], hmoved.copied, ?_,
        hmoved.flat, hkept.trans hmoved.kept⟩
      rw [BitVec.toNat_sub_of_le (BitVec.le_def.mpr hle)]
      omega
  obtain ⟨m', hm', hcopied, -, -, -, hflat', hkept⟩ := hloop
  exact ⟨m', hm', hcopied, hflat', hkept⟩

end copy

/-- A TPA bank is not the bank of the OS. -/
theorem notMem_bounceBuf {bounce seg a : BitVec 16} (i : ℕ)
    (h : seg.toNat / 256 % 8 ≠ 0) : bytes seg a i ∉ bounceBuf bounce := by
  rintro ⟨k, hk, hik⟩
  have hnat := congrArg BitVec.toNat hik
  have hlow := (bounce + BitVec.ofNat 16 k).isLt
  have hos : (0 : BitVec 16).toNat = 0 := rfl
  rw [bytes, bytes, toNat_physical, toNat_physical, hos] at hnat
  omega

/-- **The copy between banks.**  The bytes copied are those that normal-mode code sees at the two
ranges.  Given that these do not meet, that a range of the OS lies below the window and that the
window is closed, the call comes to an end, copies every byte, changes no other physical byte but
the bounce buffer, and leaves the system with the flat view it had.  The unit has eight banks; a
higher bank number stands for its residue, which for a TPA bank must not be that of the OS. -/
theorem mem_bcp_copied {bounce : BitVec 16} (hb : bounce.toNat + 128 ≤ 0xC000)
    {sseg source dseg dest length : BitVec 16} {m : Machine} (hflat : m.mmu.Flat)
    (hlen : 0 < length.toNat)
    (hsbank : sseg >>> 8 ≠ 0 → sseg.toNat / 256 % 8 ≠ 0)
    (hdbank : dseg >>> 8 ≠ 0 → dseg.toNat / 256 % 8 ≠ 0)
    (hsrc : sseg >>> 8 = 0 → source.toNat + length.toNat ≤ 0xC000)
    (hdst : dseg >>> 8 = 0 → dest.toNat + length.toNat ≤ 0xC000) (id_instr : Bool)
    (hne : ∀ i < length.toNat, ∀ j < length.toNat,
      normalView m.mmu sseg id_instr (source + BitVec.ofNat 16 i) ≠
        normalView m.mmu dseg id_instr (dest + BitVec.ofNat 16 j))
    {fuel : ℕ} (hfuel : length.toNat + 3 ≤ fuel) :
    ∃ m', mem_bcp bounce fuel sseg source dseg dest length m = some m' ∧
      Copied (bounceBuf bounce)
        (fun i => normalView m.mmu sseg id_instr (source + BitVec.ofNat 16 i))
        (fun i => normalView m.mmu dseg id_instr (dest + BitVec.ofNat 16 i)) length.toNat
        m.mem m'.mem ∧
      m'.mmu.ssel = 0 ∧ ∀ instr a, m'.mmu.paddr true instr a = m.mmu.paddr true instr a := by
  simp only [normalView_eq] at hne ⊢
  have hflatView : ∀ {u : Mmu}, u.Flat → ∀ instr a, u.paddr true instr a = physical 0 a :=
    fun hu instr a => paddr_low hu.shome (Or.inl hu.ssel) (by decide)
  have hmoved : ∃ m', mem_bcp bounce fuel sseg source dseg dest length m = some m' ∧
      Moved (bounceBuf bounce) (bytes sseg source) (bytes dseg dest) length.toNat m m' := by
    by_cases hos : sseg >>> 8 = 0 ∨ dseg >>> 8 = 0
    · have hap : Apart ∅ (bytes sseg source) (bytes dseg dest) length.toNat :=
        ⟨fun _ _ => Set.notMem_empty _, fun _ _ => Set.notMem_empty _, hne,
          bytes_inj (by have := length.isLt; omega)⟩
      obtain ⟨m', hm', h⟩ := mem_bcp_os_moved bounce hflat hlen hos hsrc hdst hap
        (le_trans (by omega) hfuel)
      exact ⟨m', hm', h.copied.mono (Set.empty_subset _), h.flat, h.kept⟩
    · rw [not_or] at hos
      obtain ⟨fuel, rfl⟩ := Nat.exists_eq_add_of_le' (by omega : 1 ≤ fuel)
      have hap : Apart (bounceBuf bounce) (bytes sseg source) (bytes dseg dest) length.toNat :=
        ⟨fun i _ => notMem_bounceBuf i (hsbank hos.1),
          fun i _ => notMem_bounceBuf i (hdbank hos.2), hne,
          bytes_inj (by have := length.isLt; omega)⟩
      rw [mem_bcp, if_neg (fun hz => hos.1 hz.1), if_pos hos]
      exact tpa_to_tpa_moved hflat hb hos.1 hos.2 (by omega) hap
  obtain ⟨m', hm', h⟩ := hmoved
  exact ⟨m', hm', h.copied, h.flat.ssel, fun instr a => by
    rw [hflatView h.flat, hflatView hflat]⟩

theorem mem_bcp_copied_between : ∃ m',
    mem_bcp 0x9000 35 0x0100 0xfff0 0x0200 0x7ff0 32 ⟨fun a => a.setWidth 8, 1, 1, 0, 0, 0, 0⟩ =
        some m' ∧
      Copied (bounceBuf 0x9000)
        (fun i => normalView ⟨1, 1, 0, 0, 0, 0⟩ 0x0100 false (0xfff0 + BitVec.ofNat 16 i))
        (fun i => normalView ⟨1, 1, 0, 0, 0, 0⟩ 0x0200 false (0x7ff0 + BitVec.ofNat 16 i)) 32
        (fun a => a.setWidth 8) m'.mem ∧
      m'.mmu.ssel = 0 ∧
      ∀ instr a, m'.mmu.paddr true instr a = Mmu.paddr ⟨1, 1, 0, 0, 0, 0⟩ true instr a := by
  refine @mem_bcp_copied 0x9000 (by decide) 0x0100 0xfff0 0x0200 0x7ff0 32
    ⟨fun a => a.setWidth 8, 1, 1, 0, 0, 0, 0⟩ ⟨rfl, rfl⟩ (by decide) (fun _ => by decide)
    (fun _ => by decide) (fun h => absurd h (by decide)) (fun h => absurd h (by decide)) false ?_
    35 (by decide)
  intro i _ j _ hij
  rw [normalView_eq, normalView_eq] at hij
  have hnat := congrArg BitVec.toNat hij
  rw [toNat_physical, toNat_physical] at hnat
  have hi := (0xfff0 + BitVec.ofNat 16 i).isLt
  have hj := (0x7ff0 + BitVec.ofNat 16 j).isLt
  have hbanks : (0x0100 : BitVec 16).toNat = 256 ∧ (0x0200 : BitVec 16).toNat = 512 :=
    ⟨rfl, rfl⟩
  rw [hbanks.1, hbanks.2] at hnat
  omega

end Cpm8000.Bios.Z8002Demo
