/-
# The hosted memory

The emulator's two targets share one physical memory of 512 KB and differ in how a tagged address,
a 16-bit tag over a 16-bit offset, is taken to a physical one: `SegmentedMemory` looks the segment
up in a map, `Z8002Memory` takes a bank number out of the tag.

On the maps a running machine can have, a tag names a page of 64 KB and the offset a byte of it:
`tagged_physical_tagged`. The theorems of this directory see the translation only through `page`.
-/
import Cpm8000.Sys.Store
import Cpm8000.Sys.Bytes

namespace Cpm8000.Host

open Cpm8000.Sys

/-! ## 1. Tagged addresses -/

/-- `(uint32_t(tag) << 16) | offset`. -/
def tagged (tag offset : BitVec 16) : BitVec 32 := tag ++ offset

/-- `addr >> 16`, as the 16 bits it has. -/
def tagOf (addr : BitVec 32) : BitVec 16 := addr.extractLsb' 16 16

/-- `addr & 0xffff`. -/
def offsetOf (addr : BitVec 32) : BitVec 16 := addr.extractLsb' 0 16

theorem toNat_tagged (tag offset : BitVec 16) :
    (tagged tag offset).toNat = 65536 * tag.toNat + offset.toNat := by
  rw [tagged, BitVec.toNat_append, ← Nat.shiftLeft_add_eq_or_of_lt offset.isLt, Nat.shiftLeft_eq,
    Nat.mul_comm]

theorem toNat_tagOf (addr : BitVec 32) : (tagOf addr).toNat = addr.toNat / 65536 := by
  have hlt := addr.isLt
  rw [tagOf, BitVec.extractLsb'_toNat, Nat.shiftRight_eq_div_pow]
  omega

theorem toNat_offsetOf (addr : BitVec 32) : (offsetOf addr).toNat = addr.toNat % 65536 := by
  rw [offsetOf, BitVec.extractLsb'_toNat, Nat.shiftRight_zero]

@[simp] theorem tagOf_tagged (tag offset : BitVec 16) : tagOf (tagged tag offset) = tag := by
  apply BitVec.eq_of_toNat_eq
  have hlt := offset.isLt
  rw [toNat_tagOf, toNat_tagged]
  omega

@[simp] theorem offsetOf_tagged (tag offset : BitVec 16) : offsetOf (tagged tag offset) = offset := by
  apply BitVec.eq_of_toNat_eq
  have hlt := offset.isLt
  rw [toNat_offsetOf, toNat_tagged]
  omega

/-! ## 2. The Z8001's segment map -/

/-- A byte address of the physical memory: `MEM_SIZE` is 512 KB. -/
abbrev Phys := BitVec 19

def UNMAPPED : BitVec 32 := 0xffffffff

structure SegmentedMemory where
  m_imap : BitVec 7 → BitVec 32
  m_dmap : BitVec 7 → BitVec 32
  m_sys_imap : BitVec 7 → BitVec 32
  m_sys_dmap : BitVec 7 → BitVec 32

namespace SegmentedMemory

/-- The map a `SegmentedMemory` is built with. -/
def unmapped : SegmentedMemory where
  m_imap _ := UNMAPPED
  m_dmap _ := UNMAPPED
  m_sys_imap _ := UNMAPPED
  m_sys_dmap _ := UNMAPPED

def set_segment (s : SegmentedMemory) (seg : BitVec 7) (i_phys d_phys : BitVec 32) :
    SegmentedMemory :=
  { s with
    m_imap := Function.update s.m_imap seg i_phys
    m_dmap := Function.update s.m_dmap seg d_phys }

def set_segment_unified (s : SegmentedMemory) (seg : BitVec 7) (phys : BitVec 32) :
    SegmentedMemory :=
  s.set_segment seg phys phys

def set_sys_segment (s : SegmentedMemory) (seg : BitVec 7) (i_phys d_phys : BitVec 32) :
    SegmentedMemory :=
  { s with
    m_sys_imap := Function.update s.m_sys_imap seg i_phys
    m_sys_dmap := Function.update s.m_sys_dmap seg d_phys }

def set_sys_segment_unified (s : SegmentedMemory) (seg : BitVec 7) (phys : BitVec 32) :
    SegmentedMemory :=
  s.set_sys_segment seg phys phys

/-- `space` is set for an instruction fetch, `system` in system mode. -/
def translate (s : SegmentedMemory) (addr : BitVec 32) (space system : Bool) : BitVec 32 :=
  let seg : BitVec 7 := addr.extractLsb' 16 7
  let base := if system then (if space then s.m_sys_imap seg else s.m_sys_dmap seg) else UNMAPPED
  let base :=
    if base = UNMAPPED then (if space then s.m_imap seg else s.m_dmap seg) else base
  let base :=
    if base = UNMAPPED then (if space then s.m_imap 0x0b else s.m_dmap 0x0b) else base
  if base = UNMAPPED then 0 else (base + (offsetOf addr).setWidth 32) &&& 0x7ffff

def cpu_physical (s : SegmentedMemory) (addr : BitVec 32) (space system : Bool) : BitVec 32 :=
  s.translate addr space system

def tagged_physical (s : SegmentedMemory) (addr : BitVec 32) (space : Bool) : BitVec 32 :=
  s.translate addr space false

end SegmentedMemory

/-- The even number at or below a number. -/
theorem toNat_even {w : ℕ} (p : BitVec w) :
    (p &&& ~~~(1 : BitVec w)).toNat = p.toNat - p.toNat % 2 := by
  have hshift : p &&& ~~~(1 : BitVec w) = (p >>> 1) <<< 1 := by
    apply BitVec.eq_of_getLsbD_eq
    intro i hi
    rw [BitVec.getLsbD_and, BitVec.getLsbD_not, BitVec.ofNat_eq_ofNat, BitVec.getLsbD_one,
      BitVec.getLsbD_shiftLeft, BitVec.getLsbD_ushiftRight]
    cases i with
    | zero => simp
    | succ i => simp [hi, Nat.add_comm 1 i]
  have hlt := p.isLt
  rw [hshift, BitVec.toNat_shiftLeft, BitVec.toNat_ushiftRight, Nat.shiftLeft_eq,
    Nat.shiftRight_eq_div_pow, Nat.mod_eq_of_lt (by omega)]
  omega

/-! ## 3. The Z8002's banks -/

structure Z8002Memory where
  m_user_code_bank : BitVec 8
  m_user_data_bank : BitVec 8

namespace Z8002Memory

def bank (tag : BitVec 16) : BitVec 8 := (tag >>> 8).setWidth 8 &&& 7

/-- The banks a `Z8002Memory` is built with. -/
def initial : Z8002Memory := ⟨1, 1⟩

def configure_program (_ : Z8002Memory) (code_tag data_tag : BitVec 16) : Z8002Memory where
  m_user_code_bank := bank code_tag
  m_user_data_bank := bank data_tag

def cpu_physical (s : Z8002Memory) (addr : BitVec 32) (space system : Bool) : BitVec 32 :=
  let b := if system then 0 else if space then s.m_user_code_bank else s.m_user_data_bank
  tagged (b.setWidth 16) (offsetOf addr)

def tagged_physical (addr : BitVec 32) : BitVec 32 :=
  tagged ((bank (tagOf addr)).setWidth 16) (offsetOf addr)

end Z8002Memory

/-! ## 4. The memory both targets share -/

/-- The translation a `HostedMemory` was made with. -/
inductive MemoryMap
  | segmented (s : SegmentedMemory)
  | z8002 (s : Z8002Memory)

namespace MemoryMap

/-- The physical byte behind a tagged address, for the emulator's own accesses. -/
def tagged_physical (map : MemoryMap) (addr : BitVec 32) (space : Bool) : Phys :=
  match map with
  | segmented s => (s.tagged_physical addr space).setWidth 19
  | z8002 _ => (Z8002Memory.tagged_physical addr).setWidth 19

/-- The physical byte behind an address of the running program. -/
def cpu_physical (map : MemoryMap) (addr : BitVec 32) (space system : Bool) : Phys :=
  match map with
  | segmented s => (s.cpu_physical addr space system).setWidth 19
  | z8002 s => (s.cpu_physical addr space system).setWidth 19

/-- Only `Z8002Memory` does something here. -/
def configure_program (map : MemoryMap) (code_tag data_tag : BitVec 16) : MemoryMap :=
  match map with
  | segmented s => segmented s
  | z8002 s => z8002 (s.configure_program code_tag data_tag)

end MemoryMap

structure HostedMemory where
  map : MemoryMap
  m_data : Phys → Byte

namespace HostedMemory

def read_byte (m : HostedMemory) (addr : BitVec 32) : Byte :=
  m.m_data (m.map.tagged_physical addr false)

def write_byte (m : HostedMemory) (addr : BitVec 32) (val : Byte) : HostedMemory :=
  { m with m_data := Function.update m.m_data (m.map.tagged_physical addr false) val }

/-- The word at the even byte address at or below the one given. -/
def read_word (m : HostedMemory) (addr : BitVec 32) : BitVec 16 :=
  let p := m.map.tagged_physical addr false &&& ~~~1
  m.m_data p ++ m.m_data (p + 1)

def write_word (m : HostedMemory) (addr : BitVec 32) (val : BitVec 16) : HostedMemory :=
  let p := m.map.tagged_physical addr false &&& ~~~1
  { m with
    m_data := Function.update (Function.update m.m_data p (val.extractLsb' 8 8)) (p + 1)
      (val.extractLsb' 0 8) }

def configure_program (m : HostedMemory) (code_tag data_tag : BitVec 16) : HostedMemory :=
  { m with map := m.map.configure_program code_tag data_tag }

@[simp] theorem write_byte_map (m : HostedMemory) (addr : BitVec 32) (val : Byte) :
    (m.write_byte addr val).map = m.map := rfl

end HostedMemory

/-! ## 5. The maps a machine can have -/

namespace SegmentedTarget

def SEG_PSA : BitVec 7 := 0x02
def SEG_TPA_SPLIT : BitVec 7 := 0x08
def SEG_TPA : BitVec 7 := 0x0a
def SEG_SYS : BitVec 7 := 0x0b

def configure : SegmentedMemory :=
  ((((((SegmentedMemory.unmapped.set_segment_unified 0x00 0x10000)
    |>.set_sys_segment_unified 0x00 0x30000)
    |>.set_segment_unified SEG_PSA 0x00000)
    |>.set_segment SEG_TPA_SPLIT 0x10000 0x20000)
    |>.set_segment_unified SEG_TPA 0x10000)
    |>.set_sys_segment_unified SEG_TPA 0x30000)
    |>.set_segment_unified SEG_SYS 0x30000

end SegmentedTarget

/-- The maps of the two targets: as they are set up, after the remaps of segment 0 that
`map_address` and `prepare_boot` make on the Z8001, and after `configure_program`. -/
inductive MemoryMap.Reachable : MemoryMap → Prop
  | z8001 : Reachable (.segmented SegmentedTarget.configure)
  | split {s : SegmentedMemory} : Reachable (.segmented s) →
      Reachable (.segmented (s.set_segment 0 0x10000 0x20000))
  | merged {s : SegmentedMemory} : Reachable (.segmented s) →
      Reachable (.segmented (s.set_segment_unified 0 0x10000))
  | z8002 : Reachable (.z8002 Z8002Memory.initial)
  | configure_program {map : MemoryMap} (code_tag data_tag : BitVec 16) : Reachable map →
      Reachable (map.configure_program code_tag data_tag)

/-- The page behind a segment of the Z8001, for instructions. -/
def ipage (seg : BitVec 7) : ℕ :=
  if seg = 0x00 then 1 else if seg = 0x02 then 0 else if seg = 0x08 then 1
  else if seg = 0x0a then 1 else 3

/-- The page behind a segment of the Z8001, for data; `split` is how segment 0 is mapped. -/
def dpage (split : Bool) (seg : BitVec 7) : ℕ :=
  if seg = 0x00 then (if split then 2 else 1) else if seg = 0x02 then 0 else if seg = 0x08 then 2
  else if seg = 0x0a then 1 else 3

/-- **What a reachable segment map holds**: nothing but segment 0 ever changes. -/
structure SegmentedMemory.Live (s : SegmentedMemory) (split : Bool) : Prop where
  imap_zero : s.m_imap 0 = 0x10000
  dmap_zero : s.m_dmap 0 = if split then 0x20000 else 0x10000
  imap : ∀ seg, seg ≠ 0 → s.m_imap seg = SegmentedTarget.configure.m_imap seg
  dmap : ∀ seg, seg ≠ 0 → s.m_dmap seg = SegmentedTarget.configure.m_dmap seg

theorem live_configure : SegmentedTarget.configure.Live false :=
  ⟨by decide, by decide, fun _ _ => rfl, fun _ _ => rfl⟩

theorem SegmentedMemory.Live.set_segment {s : SegmentedMemory} {split : Bool} (h : s.Live split)
    (split' : Bool) (d : BitVec 32) (hd : d = if split' then 0x20000 else 0x10000) :
    (s.set_segment 0 0x10000 d).Live split' where
  imap_zero := Function.update_self 0 _ s.m_imap
  dmap_zero := by
    rw [← hd]
    exact Function.update_self 0 d s.m_dmap
  imap seg hseg := by
    rw [← h.imap seg hseg]
    exact Function.update_of_ne hseg _ s.m_imap
  dmap seg hseg := by
    rw [← h.dmap seg hseg]
    exact Function.update_of_ne hseg _ s.m_dmap

/-- Every reachable map is one of the Z8001's, with segment 0 mapped either way, or the Z8002's. -/
theorem MemoryMap.Reachable.cases_live {map : MemoryMap} (h : map.Reachable) :
    (∃ s split, map = .segmented s ∧ s.Live split) ∨ ∃ s, map = .z8002 s := by
  have hlive : ∀ {m : MemoryMap}, ((∃ s split, m = .segmented s ∧ s.Live split) ∨
      ∃ s, m = .z8002 s) → ∀ s, m = .segmented s → ∃ split, s.Live split := by
    rintro m (⟨s, split, rfl, hs⟩ | ⟨s, rfl⟩) s' hs'
    · cases hs'
      exact ⟨split, hs⟩
    · cases hs'
  induction h with
  | z8001 => exact .inl ⟨_, false, rfl, live_configure⟩
  | split _ ih =>
    obtain ⟨_, hs⟩ := hlive ih _ rfl
    exact .inl ⟨_, true, rfl, hs.set_segment true _ rfl⟩
  | merged _ ih =>
    obtain ⟨_, hs⟩ := hlive ih _ rfl
    exact .inl ⟨_, false, rfl, hs.set_segment false _ rfl⟩
  | z8002 => exact .inr ⟨_, rfl⟩
  | @configure_program map code data _ ih =>
    cases map with
    | segmented s => exact ih
    | z8002 s => exact .inr ⟨_, rfl⟩

/-! ## 6. Pages -/

/-- The 64 KB page behind a tag. -/
def MemoryMap.page (map : MemoryMap) (space : Bool) (tag : BitVec 16) : ℕ :=
  (map.tagged_physical (tagged tag 0#16) space).toNat / 65536

/-- The base a segment table gives, with segment 0x0b's where it gives none. -/
def lookup (table : BitVec 7 → BitVec 32) (seg : BitVec 7) : BitVec 32 :=
  if table seg = UNMAPPED then table 0x0b else table seg

theorem lookup_congr {t t' : BitVec 7 → BitVec 32} (h : ∀ seg, seg ≠ 0 → t seg = t' seg)
    {seg : BitVec 7} (hseg : seg ≠ 0) : lookup t seg = lookup t' seg := by
  rw [lookup, lookup, h seg hseg, h 0x0b (by decide)]

theorem lookup_configure_imap (seg : BitVec 7) (h : seg ≠ 0) :
    lookup SegmentedTarget.configure.m_imap seg = BitVec.ofNat 32 (65536 * ipage seg) := by
  revert seg
  decide

theorem lookup_configure_dmap (split : Bool) (seg : BitVec 7) (h : seg ≠ 0) :
    lookup SegmentedTarget.configure.m_dmap seg = BitVec.ofNat 32 (65536 * dpage split seg) := by
  revert split seg
  decide

theorem SegmentedMemory.Live.lookup_imap {s : SegmentedMemory} {split : Bool} (h : s.Live split)
    (seg : BitVec 7) : lookup s.m_imap seg = BitVec.ofNat 32 (65536 * ipage seg) := by
  by_cases hseg : seg = 0
  · rw [hseg, lookup, h.imap_zero]
    rfl
  · rw [lookup_congr h.imap hseg, lookup_configure_imap seg hseg]

theorem SegmentedMemory.Live.lookup_dmap {s : SegmentedMemory} {split : Bool} (h : s.Live split)
    (seg : BitVec 7) : lookup s.m_dmap seg = BitVec.ofNat 32 (65536 * dpage split seg) := by
  by_cases hseg : seg = 0
  · rw [hseg, lookup, h.dmap_zero]
    cases split <;> rfl
  · rw [lookup_congr h.dmap hseg, lookup_configure_dmap split seg hseg]

theorem ipage_lt (seg : BitVec 7) : ipage seg < 8 := by
  unfold ipage
  split_ifs <;> decide

theorem dpage_lt (split : Bool) (seg : BitVec 7) : dpage split seg < 8 := by
  unfold dpage
  split_ifs <;> decide

/-- A translation that finds a page. -/
theorem page_add {base : BitVec 32} {k : ℕ} (hk : k < 8) (hb : base = BitVec.ofNat 32 (65536 * k))
    (offset : BitVec 16) :
    (if base = UNMAPPED then 0 else (base + offset.setWidth 32) &&& 0x7ffff : BitVec 32).toNat =
      65536 * k + offset.toNat := by
  have hlt := offset.isLt
  have hmask : ((0x7ffff : BitVec 32)).toNat = 2 ^ 19 - 1 := rfl
  have hbase : base.toNat = 65536 * k := by
    rw [hb, BitVec.toNat_ofNat, Nat.mod_eq_of_lt (by omega)]
  have hmapped : base ≠ UNMAPPED := by
    intro h
    have hunmapped : base.toNat = 0xffffffff := by rw [h]; rfl
    omega
  rw [if_neg hmapped, BitVec.toNat_and, hmask, Nat.and_two_pow_sub_one_eq_mod, BitVec.toNat_add,
    BitVec.toNat_setWidth, hbase]
  omega

/-- The page a reachable segment map finds, for the emulator and in normal mode. -/
theorem SegmentedMemory.Live.translate {s : SegmentedMemory} {split : Bool} (h : s.Live split)
    (addr : BitVec 32) (space : Bool) :
    (s.translate addr space false).toNat =
      65536 * (if space then ipage (addr.extractLsb' 16 7) else dpage split (addr.extractLsb' 16 7))
        + (offsetOf addr).toNat := by
  cases space with
  | true =>
    exact page_add (ipage_lt _) (h.lookup_imap _) _
  | false =>
    exact page_add (dpage_lt split _) (h.lookup_dmap _) _

theorem SegmentedMemory.Live.toNat_physical {s : SegmentedMemory} {split : Bool} (h : s.Live split)
    (addr : BitVec 32) (space : Bool) :
    ((MemoryMap.segmented s).tagged_physical addr space).toNat =
      65536 * (if space then ipage (addr.extractLsb' 16 7) else dpage split (addr.extractLsb' 16 7))
        + (offsetOf addr).toNat := by
  have hlt := (offsetOf addr).isLt
  have hi := ipage_lt (addr.extractLsb' 16 7)
  have hd := dpage_lt split (addr.extractLsb' 16 7)
  rw [MemoryMap.tagged_physical, SegmentedMemory.tagged_physical, BitVec.toNat_setWidth,
    h.translate]
  cases space <;> simp only [if_true, Bool.false_eq_true, if_false] <;> omega

theorem bank_lt (tag : BitVec 16) : (Z8002Memory.bank tag).toNat < 8 := by
  rw [Z8002Memory.bank, BitVec.toNat_and]
  exact Nat.lt_of_le_of_lt Nat.and_le_right (by decide)

theorem toNat_physical_z8002 (s : Z8002Memory) (addr : BitVec 32) (space : Bool) :
    ((MemoryMap.z8002 s).tagged_physical addr space).toNat =
      65536 * (Z8002Memory.bank (tagOf addr)).toNat + (offsetOf addr).toNat := by
  have hlt := (offsetOf addr).isLt
  have hb := bank_lt (tagOf addr)
  rw [MemoryMap.tagged_physical, Z8002Memory.tagged_physical, BitVec.toNat_setWidth, toNat_tagged,
    BitVec.toNat_setWidth]
  omega

theorem extract_tagged (tag offset : BitVec 16) :
    (tagged tag offset).extractLsb' 16 7 = tag.setWidth 7 := by
  apply BitVec.eq_of_toNat_eq
  have hlt := offset.isLt
  rw [BitVec.extractLsb'_toNat, BitVec.toNat_setWidth, toNat_tagged, Nat.shiftRight_eq_div_pow]
  omega

theorem SegmentedMemory.Live.page {s : SegmentedMemory} {split : Bool} (h : s.Live split)
    (space : Bool) (tag : BitVec 16) : (MemoryMap.segmented s).page space tag =
      if space then ipage (tag.setWidth 7) else dpage split (tag.setWidth 7) := by
  rw [MemoryMap.page, h.toNat_physical, extract_tagged, offsetOf_tagged, BitVec.toNat_zero,
    Nat.add_zero, Nat.mul_div_cancel_left _ (by decide)]

@[simp] theorem page_z8002 (s : Z8002Memory) (space : Bool) (tag : BitVec 16) :
    (MemoryMap.z8002 s).page space tag = (Z8002Memory.bank tag).toNat := by
  rw [MemoryMap.page, toNat_physical_z8002, tagOf_tagged, offsetOf_tagged, BitVec.toNat_zero,
    Nat.add_zero, Nat.mul_div_cancel_left _ (by decide)]

/-- **A tag names a page and the offset a byte of it.** -/
theorem MemoryMap.Reachable.toNat_tagged {map : MemoryMap} (h : map.Reachable) (space : Bool)
    (tag offset : BitVec 16) : (map.tagged_physical (tagged tag offset) space).toNat =
      65536 * map.page space tag + offset.toNat := by
  rcases h.cases_live with ⟨s, split, rfl, hs⟩ | ⟨s, rfl⟩
  · rw [hs.toNat_physical, hs.page, extract_tagged, offsetOf_tagged]
  · rw [toNat_physical_z8002, page_z8002, tagOf_tagged, offsetOf_tagged]

/-- Two tagged addresses name one byte when their pages and their offsets agree. -/
theorem MemoryMap.Reachable.tagged_inj {map : MemoryMap} (h : map.Reachable) {space : Bool}
    {t u o q : BitVec 16} :
    map.tagged_physical (tagged t o) space = map.tagged_physical (tagged u q) space ↔
      map.page space t = map.page space u ∧ o = q := by
  have ho := o.isLt
  have hq := q.isLt
  rw [← BitVec.toNat_inj, h.toNat_tagged, h.toNat_tagged, ← BitVec.toNat_inj]
  omega

theorem MemoryMap.Reachable.tagged_ofNat_inj {map : MemoryMap} (h : map.Reachable) {space : Bool}
    {t u : BitVec 16} {o q : ℕ} (ho : o < 65536) (hq : q < 65536)
    (heq : map.tagged_physical (tagged t (BitVec.ofNat 16 o)) space =
      map.tagged_physical (tagged u (BitVec.ofNat 16 q)) space) :
    map.page space t = map.page space u ∧ o = q := by
  obtain ⟨hpage, hoff⟩ := h.tagged_inj.mp heq
  have hnat := congrArg BitVec.toNat hoff
  have ho' : o < 2 ^ 16 := ho
  have hq' : q < 2 ^ 16 := hq
  rw [BitVec.toNat_ofNat, BitVec.toNat_ofNat, Nat.mod_eq_of_lt ho', Nat.mod_eq_of_lt hq'] at hnat
  exact ⟨hpage, hnat⟩

end Cpm8000.Host
