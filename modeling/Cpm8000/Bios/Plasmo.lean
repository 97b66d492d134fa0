/-
# Copying between the banks of the Plasmo board

The board has 128 KiB in four quarters of 32 KiB: two of the system and two of the one TPA.  A
system-mode access below 8000 hex always reaches the system; from there up port 85 hex says which
quarter it reaches, the value 1 being the system's own.  `mem_bcp` copies between the banks
through that window and a bounce buffer, a chunk at a time, and `mem_copy` is its register-level
entry.

`mem_copy_copied` is what the pair does.  The length is carried in 16 bits, so of the documented
range the end is lost: at 64 KiB the count is 0 (`mem_copy_whole_bank`).  No ranges that lie apart
are that long.
-/
import Cpm8000.Sys.Copy
import Cpm8000.Bios.Disk

namespace Cpm8000.Bios.Plasmo

open Arith Sys

/-! ## 1. The memory -/

inductive Space where
  | sys
  | tpa
  deriving DecidableEq

/-- A byte of memory: a space and an address in it. -/
abbrev Addr := Space × BitVec 16

/-- A use of the window: the TPA half, the offset in it and the number of bytes. -/
structure Window where
  half : BitVec 16
  off : BitVec 16
  n : BitVec 16

/-- The memory, the latch of port 85 hex, and the uses of the window so far. -/
structure Machine where
  mem : Addr → Byte
  port85 : BitVec 8
  windows : List Window

/-- The byte a system-mode access reaches. -/
def translate (port85 : BitVec 8) (a : BitVec 16) : Addr :=
  if a < 0x8000 then (.sys, a)
  else if port85 &&& 3 = 0 then (.sys, a - 0x8000)
  else if port85 &&& 3 = 1 then (.sys, a)
  else if port85 &&& 3 = 2 then (.tpa, a - 0x8000)
  else (.tpa, a)

/-- The space of a pseudo-segment: its high byte is the bank. -/
def spaceOf (seg : BitVec 16) : Space :=
  if seg >>> 8 = 0 then .sys else .tpa

/-! ## 2. The routines -/

/-- `ldirb @r4,@r5,r2`: a count of 0 stands for 65536. -/
def ldirb (r4 r5 r2 : BitVec 16) (m : Machine) : Machine :=
  { m with
    mem := copyUp (translate m.port85) (if r2 = 0 then 65536 else r2.toNat) r5 r4 m.mem }

/-- Flat byte copy. -/
def blkmov (source dest length : BitVec 16) (m : Machine) : Machine :=
  ldirb dest source length m

def outb (v : BitVec 8) (m : Machine) : Machine := { m with port85 := v }

/-- Open the window on a TPA half. -/
def openWindow (half off n : BitVec 16) (m : Machine) : Machine :=
  outb (half.setWidth 8 + 2) { m with windows := m.windows ++ [⟨half, off, n⟩] }

/-- TPA half to buffer. -/
def win_rd (half off buf n : BitVec 16) (m : Machine) : Machine :=
  outb 1 (ldirb buf (off + 0x8000) n (openWindow half off n m))

/-- Buffer to TPA half. -/
def win_wr (half off buf n : BitVec 16) (m : Machine) : Machine :=
  outb 1 (ldirb (off + 0x8000) buf n (openWindow half off n m))

/-- The size of the bounce buffer. -/
def WBSZ : BitVec 16 := 256

/-- The number of bytes the next chunk holds. -/
def chunkSize (sseg source dseg dest length : BitVec 16) : BitVec 16 :=
  let n := if WBSZ < length then WBSZ else length
  let n :=
    if sseg >>> 8 ≠ 0 then
      let avail := 0x8000 - (source &&& 0x7fff)
      if avail < n then avail else n
    else n
  if dseg >>> 8 ≠ 0 then
    let avail := 0x8000 - (dest &&& 0x7fff)
    if avail < n then avail else n
  else n

/-- The source side of a chunk. -/
def chunkIn (wbounce sseg source n : BitVec 16) (m : Machine) : Machine :=
  if sseg >>> 8 ≠ 0 then win_rd (source >>> 15) (source &&& 0x7fff) wbounce n m
  else blkmov source wbounce n m

/-- The destination side of a chunk. -/
def chunkOut (wbounce dseg dest n : BitVec 16) (m : Machine) : Machine :=
  if dseg >>> 8 ≠ 0 then win_wr (dest >>> 15) (dest &&& 0x7fff) wbounce n m
  else blkmov wbounce dest n m

/-- The loop over the chunks; `none` when the fuel runs out. -/
def mem_bcp_loop (wbounce sseg dseg : BitVec 16) :
    ℕ → BitVec 16 → BitVec 16 → BitVec 16 → Machine → Option Machine :=
  copyLoop (fun source dest length => chunkSize sseg source dseg dest length)
    fun source dest n m => some (chunkOut wbounce dseg dest n (chunkIn wbounce sseg source n m))

/-- Cross-bank block copy. -/
def mem_bcp (wbounce : BitVec 16) (fuel : ℕ) (sseg source dseg dest length : BitVec 16)
    (m : Machine) : Option Machine :=
  if sseg >>> 8 = 0 ∧ dseg >>> 8 = 0 then some (blkmov source dest length m)
  else mem_bcp_loop wbounce sseg dseg fuel source dest length m

/-- The system call: source in `rr6`, destination in `rr4`, length in `rr2`.  It returns the
destination plus the length in `rr6`. -/
def mem_copy (wbounce : BitVec 16) (fuel : ℕ) (rr6 rr4 rr2 : BitVec 32) (m : Machine) :
    Option (BitVec 32 × Machine) :=
  (mem_bcp wbounce fuel (hiw rr6) (low rr6) (hiw rr4) (low rr4) (low rr2) m).map
    fun m' => (long (hiw rr4) (low rr4 + low rr2), m')

/-! ## 3. What a window shows -/

theorem toNat_offset (a : BitVec 16) : (a &&& 0x7fff).toNat = a.toNat % 0x8000 := by
  rw [BitVec.toNat_and]
  exact Nat.and_two_pow_sub_one_eq_mod a.toNat 15

theorem toNat_half (a : BitVec 16) : (a >>> 15).toNat = a.toNat / 0x8000 := by
  rw [BitVec.toNat_ushiftRight, Nat.shiftRight_eq_div_pow]

@[simp] theorem translate_closed (a : BitVec 16) : translate 1 a = (.sys, a) := by
  rw [translate]
  split_ifs <;> first | rfl | contradiction

theorem translate_low {port85 : BitVec 8} {a : BitVec 16} (h : a < 0x8000) :
    translate port85 a = (.sys, a) :=
  if_pos h

/-- **The window shows the TPA.** -/
theorem translate_window {a : BitVec 16} {i : ℕ} (h : a.toNat % 0x8000 + i < 0x8000) :
    translate ((a >>> 15).setWidth 8 + 2) ((a &&& 0x7fff) + 0x8000 + BitVec.ofNat 16 i) =
      (.tpa, a + BitVec.ofNat 16 i) := by
  have hoff := toNat_offset a
  generalize a &&& 0x7fff = off at hoff ⊢
  have hhalf := toNat_half a
  have ha := a.isLt
  have hview : ¬ off + 0x8000 + BitVec.ofNat 16 i < 0x8000 := by
    rw [BitVec.lt_def]
    simp only [BitVec.ofNat_eq_ofNat, BitVec.toNat_add, BitVec.toNat_ofNat, hoff]
    omega
  rw [translate, if_neg hview]
  rcases (by omega : a.toNat / 0x8000 = 0 ∨ a.toNat / 0x8000 = 1) with h0 | h1
  · have hport : a >>> 15 = 0 := BitVec.eq_of_toNat_eq (hhalf.trans h0)
    rw [hport, if_neg (by decide), if_neg (by decide), if_pos (by decide)]
    have haddr : off + 0x8000 + BitVec.ofNat 16 i - 0x8000 = a + BitVec.ofNat 16 i := by
      apply BitVec.eq_of_toNat_eq
      simp only [BitVec.ofNat_eq_ofNat, BitVec.toNat_add, BitVec.toNat_sub, BitVec.toNat_ofNat, hoff]
      omega
    rw [haddr]
  · have hport : a >>> 15 = 1 := BitVec.eq_of_toNat_eq (hhalf.trans h1)
    rw [hport, if_neg (by decide), if_neg (by decide), if_neg (by decide)]
    have haddr : off + 0x8000 + BitVec.ofNat 16 i = a + BitVec.ofNat 16 i := by
      apply BitVec.eq_of_toNat_eq
      simp only [BitVec.ofNat_eq_ofNat, BitVec.toNat_add, BitVec.toNat_ofNat, hoff]
      omega
    rw [haddr]

/-! ## 4. A chunk -/

/-- The bytes of a space from an address on, wrapping round at its end. -/
def bytes (sp : Space) (a : BitVec 16) : ℕ → Addr := fun i => (sp, a + BitVec.ofNat 16 i)

/-- The bounce buffer. -/
def bounceBuf (wbounce : BitVec 16) : Set Addr := {a | ∃ k < 256, a = bytes .sys wbounce k}

/-- The window is used within one half. -/
def Window.InHalf (v : Window) : Prop :=
  v.half.toNat < 2 ∧ 0 < v.n.toNat ∧ v.off.toNat + v.n.toNat ≤ 0x8000

/-- What a part of the copy does to the machine, which it finds and leaves with the window closed:
the bytes are copied, and every use of the window stays within a half. -/
structure Moved (S : Set Addr) (src dst : ℕ → Addr) (n : ℕ) (m m' : Machine) : Prop where
  copied : Copied S src dst n m.mem m'.mem
  closed : m'.port85 = 1
  windows : ∃ ws, m'.windows = m.windows ++ ws ∧ ∀ v ∈ ws, v.InHalf

theorem windows_trans {m m₁ m₂ : Machine}
    (h₁ : ∃ ws, m₁.windows = m.windows ++ ws ∧ ∀ v ∈ ws, v.InHalf)
    (h₂ : ∃ ws, m₂.windows = m₁.windows ++ ws ∧ ∀ v ∈ ws, v.InHalf) :
    ∃ ws, m₂.windows = m.windows ++ ws ∧ ∀ v ∈ ws, v.InHalf := by
  obtain ⟨ws₁, e₁, h₁⟩ := h₁
  obtain ⟨ws₂, e₂, h₂⟩ := h₂
  refine ⟨ws₁ ++ ws₂, by rw [e₂, e₁, List.append_assoc], fun v hv => ?_⟩
  rcases List.mem_append.mp hv with hv | hv
  · exact h₁ v hv
  · exact h₂ v hv

theorem bytes_inj {sp : Space} {a : BitVec 16} {n : ℕ} (hn : n ≤ 65536) :
    ∀ i < n, ∀ j < n, bytes sp a i = bytes sp a j → i = j := by
  intro i hi j hj hij
  have hoff := (BitVec.add_right_inj a).mp (congrArg Prod.snd hij)
  have hnat := congrArg BitVec.toNat hoff
  simpa [Nat.mod_eq_of_lt (hi.trans_le hn), Nat.mod_eq_of_lt (hj.trans_le hn)] using hnat

theorem apart_of_ne {S : Set Addr} {src : ℕ → Addr} {sp : Space} {a : BitVec 16} {n : ℕ}
    (hn : n ≤ 65536) (hS : ∀ i < n, src i ∉ S) (hD : ∀ i < n, bytes sp a i ∉ S)
    (h : ∀ i < n, ∀ j < n, src i ≠ bytes sp a j) : Apart S src (bytes sp a) n :=
  ⟨hS, hD, h, bytes_inj hn⟩

theorem bytes_add {sp : Space} {a n : BitVec 16} (i : ℕ) :
    bytes sp a (n.toNat + i) = bytes sp (a + n) i := by
  rw [bytes, bytes, BitVec.ofNat_add, BitVec.ofNat_toNat, BitVec.setWidth_eq, BitVec.add_assoc]

theorem blkmov_moved {source dest n : BitVec 16} {m : Machine} (hport : m.port85 = 1)
    (hn : 0 < n.toNat) (h : Apart ∅ (bytes .sys source) (bytes .sys dest) n.toNat) :
    Moved ∅ (bytes .sys source) (bytes .sys dest) n.toNat m (blkmov source dest n m) where
  copied := by
    have hne : n ≠ 0 := fun h0 => by simp [h0] at hn
    rw [blkmov, ldirb, if_neg hne, hport]
    exact copyUp_copied_of_eq h (fun i _ => translate_closed _) fun i _ => translate_closed _
  closed := hport
  windows := ⟨[], (List.append_nil _).symm, fun v hv => absurd hv (List.not_mem_nil)⟩

section window

variable {wbounce a n : BitVec 16} {m : Machine} (hw : wbounce.toNat + 256 ≤ 0x8000)
  (hn : 0 < n.toNat) (h256 : n.toNat ≤ 256) (hhalf : a.toNat % 0x8000 + n.toNat ≤ 0x8000)

include hw h256 in
/-- The bounce buffer lies below the window. -/
theorem translate_bounce {port85 : BitVec 8} {i : ℕ} (hi : i < n.toNat) :
    translate port85 (wbounce + BitVec.ofNat 16 i) = bytes .sys wbounce i := by
  refine translate_low (BitVec.lt_def.mpr ?_)
  simp only [BitVec.ofNat_eq_ofNat, BitVec.toNat_add, BitVec.toNat_ofNat]
  omega

include hn hhalf in
theorem openWindow_inHalf (half : BitVec 16) (hh : half = a >>> 15) :
    Window.InHalf ⟨half, a &&& 0x7fff, n⟩ := by
  refine ⟨?_, hn, ?_⟩
  · rw [hh, toNat_half]
    have := a.isLt
    omega
  · rw [toNat_offset]
    exact hhalf

include hw hn h256 hhalf in
/-- **Reading through the window.** -/
theorem win_rd_moved (h : Apart ∅ (bytes .tpa a) (bytes .sys wbounce) n.toNat) :
    Moved ∅ (bytes .tpa a) (bytes .sys wbounce) n.toNat m
      (win_rd (a >>> 15) (a &&& 0x7fff) wbounce n m) where
  copied := by
    have hne : n ≠ 0 := fun h0 => by simp [h0] at hn
    rw [win_rd, ldirb, if_neg hne]
    exact copyUp_copied_of_eq h (fun i hi => translate_window (by omega))
      fun i hi => translate_bounce hw h256 hi
  closed := rfl
  windows := ⟨[⟨a >>> 15, a &&& 0x7fff, n⟩], rfl, fun v hv => by
    rw [List.mem_singleton.mp hv]
    exact openWindow_inHalf hn hhalf _ rfl⟩

include hw hn h256 hhalf in
/-- **Writing through the window.** -/
theorem win_wr_moved (h : Apart ∅ (bytes .sys wbounce) (bytes .tpa a) n.toNat) :
    Moved ∅ (bytes .sys wbounce) (bytes .tpa a) n.toNat m
      (win_wr (a >>> 15) (a &&& 0x7fff) wbounce n m) where
  copied := by
    have hne : n ≠ 0 := fun h0 => by simp [h0] at hn
    rw [win_wr, ldirb, if_neg hne]
    exact copyUp_copied_of_eq h (fun i hi => translate_bounce hw h256 hi)
      fun i hi => translate_window (by omega)
  closed := rfl
  windows := ⟨[⟨a >>> 15, a &&& 0x7fff, n⟩], rfl, fun v hv => by
    rw [List.mem_singleton.mp hv]
    exact openWindow_inHalf hn hhalf _ rfl⟩

end window

/-! ## 5. The loop -/

/-- **The size of a chunk**: not zero, no more than is left, the bounce buffer or the half on
either side holds. -/
theorem chunkSize_spec (sseg source dseg dest : BitVec 16) {length : BitVec 16}
    (hlen : 0 < length) :
    0 < (chunkSize sseg source dseg dest length).toNat ∧
      (chunkSize sseg source dseg dest length).toNat ≤ length.toNat ∧
      (chunkSize sseg source dseg dest length).toNat ≤ 256 ∧
      (sseg >>> 8 ≠ 0 →
        source.toNat % 0x8000 + (chunkSize sseg source dseg dest length).toNat ≤ 0x8000) ∧
      (dseg >>> 8 ≠ 0 →
        dest.toNat % 0x8000 + (chunkSize sseg source dseg dest length).toNat ≤ 0x8000) := by
  have hs := toNat_offset source
  have hd := toNat_offset dest
  have hW : WBSZ.toNat = 256 := rfl
  rw [BitVec.lt_def] at hlen
  rw [chunkSize]
  generalize source &&& 0x7fff = soff at hs ⊢
  generalize dest &&& 0x7fff = doff at hd ⊢
  have hsa : (0x8000 - soff).toNat = 0x8000 - soff.toNat := by bv_omega
  have hda : (0x8000 - doff).toNat = 0x8000 - doff.toNat := by bv_omega
  generalize 0x8000 - soff = savail at hsa ⊢
  generalize 0x8000 - doff = davail at hda ⊢
  simp only [BitVec.lt_def] at hlen ⊢
  split_ifs <;> simp_all <;> omega

theorem spaceOf_sys {seg : BitVec 16} (h : seg >>> 8 = 0) : spaceOf seg = .sys := if_pos h

theorem spaceOf_tpa {seg : BitVec 16} (h : seg >>> 8 ≠ 0) : spaceOf seg = .tpa := if_neg h

section chunk

variable {wbounce sseg source dseg dest n : BitVec 16} {m : Machine}
  (hw : wbounce.toNat + 256 ≤ 0x8000) (hport : m.port85 = 1) (hn : 0 < n.toNat)
  (h256 : n.toNat ≤ 256)

include hw hport hn h256 in
theorem chunkIn_moved (hhalf : sseg >>> 8 ≠ 0 → source.toNat % 0x8000 + n.toNat ≤ 0x8000)
    (hsrc : ∀ i < n.toNat, bytes (spaceOf sseg) source i ∉ bounceBuf wbounce) :
    Moved ∅ (bytes (spaceOf sseg) source) (bytes .sys wbounce) n.toNat m
      (chunkIn wbounce sseg source n m) := by
  have hap : Apart ∅ (bytes (spaceOf sseg) source) (bytes .sys wbounce) n.toNat :=
    apart_of_ne (by omega) (fun _ _ => Set.notMem_empty _) (fun _ _ => Set.notMem_empty _)
      fun i hi j hj hij => hsrc i hi ⟨j, by omega, hij⟩
  rw [chunkIn]
  by_cases hbank : sseg >>> 8 = 0
  · rw [spaceOf_sys hbank] at hap ⊢
    rw [if_neg (not_not.mpr hbank)]
    exact blkmov_moved hport hn hap
  · rw [spaceOf_tpa hbank] at hap ⊢
    rw [if_pos hbank]
    exact win_rd_moved hw hn h256 (hhalf hbank) hap

include hw hport hn h256 in
theorem chunkOut_moved (hhalf : dseg >>> 8 ≠ 0 → dest.toNat % 0x8000 + n.toNat ≤ 0x8000)
    (hdst : ∀ i < n.toNat, bytes (spaceOf dseg) dest i ∉ bounceBuf wbounce) :
    Moved ∅ (bytes .sys wbounce) (bytes (spaceOf dseg) dest) n.toNat m
      (chunkOut wbounce dseg dest n m) := by
  have hap : Apart ∅ (bytes .sys wbounce) (bytes (spaceOf dseg) dest) n.toNat :=
    apart_of_ne (by omega) (fun _ _ => Set.notMem_empty _) (fun _ _ => Set.notMem_empty _)
      fun i hi j hj hij => hdst j hj ⟨i, by omega, hij.symm⟩
  rw [chunkOut]
  by_cases hbank : dseg >>> 8 = 0
  · rw [spaceOf_sys hbank] at hap ⊢
    rw [if_neg (not_not.mpr hbank)]
    exact blkmov_moved hport hn hap
  · rw [spaceOf_tpa hbank] at hap ⊢
    rw [if_pos hbank]
    exact win_wr_moved hw hn h256 (hhalf hbank) hap

end chunk

/-- **One round of the loop.** -/
theorem chunk_moved {wbounce sseg source dseg dest length : BitVec 16} {m : Machine}
    (hw : wbounce.toNat + 256 ≤ 0x8000) (hport : m.port85 = 1) (hlen : 0 < length)
    (h : Apart (bounceBuf wbounce) (bytes (spaceOf sseg) source) (bytes (spaceOf dseg) dest)
      (chunkSize sseg source dseg dest length).toNat) :
    Moved (bounceBuf wbounce) (bytes (spaceOf sseg) source) (bytes (spaceOf dseg) dest)
      (chunkSize sseg source dseg dest length).toNat m
      (chunkOut wbounce dseg dest (chunkSize sseg source dseg dest length)
        (chunkIn wbounce sseg source (chunkSize sseg source dseg dest length) m)) := by
  obtain ⟨hn, -, h256, hs, hd⟩ := chunkSize_spec sseg source dseg dest hlen
  have hin := chunkIn_moved hw hport hn h256 hs h.src_notMem
  have hout := chunkOut_moved hw hin.closed hn h256 hd h.dst_notMem
  exact ⟨hin.copied.bounce hout.copied fun i hi => ⟨i, by omega, rfl⟩, hout.closed,
    windows_trans hin.windows hout.windows⟩

/-- **The loop copies and comes to an end.** -/
theorem mem_bcp_loop_moved {wbounce : BitVec 16} (hw : wbounce.toNat + 256 ≤ 0x8000)
    (sseg dseg : BitVec 16) {fuel : ℕ} {source dest length : BitVec 16} {m : Machine}
    (hfuel : length.toNat < fuel) (hport : m.port85 = 1)
    (h : Apart (bounceBuf wbounce) (bytes (spaceOf sseg) source) (bytes (spaceOf dseg) dest)
      length.toNat) :
    ∃ m', mem_bcp_loop wbounce sseg dseg fuel source dest length m = some m' ∧
      Moved (bounceBuf wbounce) (bytes (spaceOf sseg) source) (bytes (spaceOf dseg) dest)
        length.toNat m m' := by
  -- the window is closed between two rounds, and has stayed within halves so far
  let I : BitVec 16 → BitVec 16 → BitVec 16 → Machine → Prop := fun _ _ _ t =>
    t.port85 = 1 ∧ ∃ ws, t.windows = m.windows ++ ws ∧ ∀ v ∈ ws, v.InHalf
  have hI : I source dest length m :=
    ⟨hport, [], (List.append_nil _).symm, fun v hv => absurd hv List.not_mem_nil⟩
  have hloop : ∃ m', mem_bcp_loop wbounce sseg dseg fuel source dest length m = some m' ∧
      Copied (bounceBuf wbounce) (bytes (spaceOf sseg) source) (bytes (spaceOf dseg) dest)
        length.toNat m.mem m'.mem ∧ ∃ p q, I p q 0 m' := by
    refine copyLoop_copied Machine.mem I (fun _ _ => bytes_add) (fun _ _ => bytes_add)
      (fun p q l hl => ?_) (fun p q l s hs hl hap => ?_) hfuel hI h
    · obtain ⟨hn, hle, -⟩ := chunkSize_spec sseg p dseg q hl
      exact ⟨hn, hle⟩
    · have hchunk := chunk_moved hw hs.1 hl hap
      exact ⟨_, rfl, hchunk.copied, hchunk.closed, windows_trans hs.2 hchunk.windows⟩
  obtain ⟨m', hm', hcopied, -, -, hclosed, hwindows⟩ := hloop
  exact ⟨m', hm', hcopied, hclosed, hwindows⟩

/-! ## 6. The system call -/

/-- A range of 64 KiB is the whole space. -/
theorem exists_bytes_eq (sp : Space) (a x : BitVec 16) : ∃ i < 65536, bytes sp a i = (sp, x) :=
  ⟨(x - a).toNat, (x - a).isLt, by
    rw [bytes, BitVec.ofNat_toNat, BitVec.setWidth_eq, BitVec.add_comm, BitVec.sub_add_cancel]⟩

theorem space_eq_sys_or {sp dp : Space} (h : sp ≠ dp) : sp = .sys ∨ dp = .sys := by
  cases sp <;> cases dp <;> simp_all

/-- Ranges of 64 KiB meet one another or the bounce buffer. -/
theorem length_ne_whole {wbounce source dest : BitVec 16} {sp dp : Space} {n : ℕ}
    (hne : ∀ i < n, ∀ j < n, bytes sp source i ≠ bytes dp dest j)
    (hsrc : sp = .sys → ∀ i < n, bytes sp source i ∉ bounceBuf wbounce)
    (hdst : dp = .sys → ∀ i < n, bytes dp dest i ∉ bounceBuf wbounce) : n ≠ 65536 := by
  rintro rfl
  by_cases hsp : sp = dp
  · subst hsp
    obtain ⟨i, hi, hi'⟩ := exists_bytes_eq sp source 0
    obtain ⟨j, hj, hj'⟩ := exists_bytes_eq sp dest 0
    exact hne i hi j hj (hi'.trans hj'.symm)
  · rcases space_eq_sys_or hsp with rfl | rfl
    · obtain ⟨i, hi, hi'⟩ := exists_bytes_eq .sys source wbounce
      exact hsrc rfl i hi ⟨0, by omega, by simpa [bytes] using hi'⟩
    · obtain ⟨i, hi, hi'⟩ := exists_bytes_eq .sys dest wbounce
      exact hdst rfl i hi ⟨0, by omega, by simpa [bytes] using hi'⟩

theorem notMem_bounceBuf {wbounce a : BitVec 16} {sp : Space} {n : ℕ}
    (h : sp = .sys → ∀ i < n, bytes sp a i ∉ bounceBuf wbounce) :
    ∀ i < n, bytes sp a i ∉ bounceBuf wbounce := by
  intro i hi
  by_cases hsp : sp = .sys
  · exact h hsp i hi
  · rintro ⟨k, -, hk⟩
    exact hsp (congrArg Prod.fst hk)

theorem mem_bcp_moved {wbounce sseg source dseg dest length : BitVec 16} {fuel : ℕ} {m : Machine}
    (hw : wbounce.toNat + 256 ≤ 0x8000) (hport : m.port85 = 1) (hlen : 0 < length.toNat)
    (hfuel : length.toNat < fuel)
    (h : Apart (bounceBuf wbounce) (bytes (spaceOf sseg) source) (bytes (spaceOf dseg) dest)
      length.toNat) :
    ∃ m', mem_bcp wbounce fuel sseg source dseg dest length m = some m' ∧
      Moved (bounceBuf wbounce) (bytes (spaceOf sseg) source) (bytes (spaceOf dseg) dest)
        length.toNat m m' := by
  rw [mem_bcp]
  split_ifs with hbanks
  · rw [spaceOf_sys hbanks.1, spaceOf_sys hbanks.2] at h ⊢
    have hflat := blkmov_moved hport hlen (h.mono (Set.empty_subset _))
    exact ⟨_, rfl, hflat.copied.mono (Set.empty_subset _), hflat.closed, hflat.windows⟩
  · exact mem_bcp_loop_moved hw sseg dseg hfuel hport h

/-- **The copy between banks.**  Given ranges that lie apart, an OS range clear of the bounce
buffer, and the window closed, the call comes to an end and copies every byte, the offsets
wrapping round at 64 KiB; it changes nothing else but the bounce buffer, uses the window only
within a half, and leaves it closed. -/
theorem mem_copy_copied {wbounce : BitVec 16} (hw : wbounce.toNat + 256 ≤ 0x8000)
    {rr6 rr4 rr2 : BitVec 32} {m : Machine} (hport : m.port85 = 1)
    (hpos : 0 < rr2.toNat) (hmax : rr2.toNat ≤ 65536)
    (hne : ∀ i < rr2.toNat, ∀ j < rr2.toNat,
      bytes (spaceOf (hiw rr6)) (low rr6) i ≠ bytes (spaceOf (hiw rr4)) (low rr4) j)
    (hsrc : spaceOf (hiw rr6) = .sys →
      ∀ i < rr2.toNat, bytes (spaceOf (hiw rr6)) (low rr6) i ∉ bounceBuf wbounce)
    (hdst : spaceOf (hiw rr4) = .sys →
      ∀ i < rr2.toNat, bytes (spaceOf (hiw rr4)) (low rr4) i ∉ bounceBuf wbounce)
    {fuel : ℕ} (hfuel : rr2.toNat < fuel) :
    ∃ m', mem_copy wbounce fuel rr6 rr4 rr2 m =
        some (long (hiw rr4) (low rr4 + low rr2), m') ∧
      Moved (bounceBuf wbounce) (bytes (spaceOf (hiw rr6)) (low rr6))
        (bytes (spaceOf (hiw rr4)) (low rr4)) rr2.toNat m m' := by
  have hlt : rr2.toNat < 65536 := lt_of_le_of_ne hmax (length_ne_whole hne hsrc hdst)
  have hlow : (low rr2).toNat = rr2.toNat := by rw [toNat_low, Nat.mod_eq_of_lt hlt]
  have hap := apart_of_ne hmax (notMem_bounceBuf hsrc) (notMem_bounceBuf hdst) hne
  rw [← hlow] at hpos hfuel hap ⊢
  obtain ⟨m', hm', hmoved⟩ := mem_bcp_moved hw hport hpos hfuel hap
  exact ⟨m', by rw [mem_copy, hm', Option.map_some], hmoved⟩

theorem mem_copy_copied_across : ∃ m',
    mem_copy 0x72cc 33 0x00000100 0x01007ff0 32 ⟨fun a => a.2.setWidth 8, 1, []⟩ =
        some (0x01008010, m') ∧
      Moved (bounceBuf 0x72cc) (bytes .sys 0x100) (bytes .tpa 0x7ff0) 32
        ⟨fun a => a.2.setWidth 8, 1, []⟩ m' := by
  have hsys : spaceOf (hiw 0x00000100) = .sys := by decide
  have htpa : spaceOf (hiw 0x01007ff0) = .tpa := by decide
  refine @mem_copy_copied 0x72cc (by decide) 0x00000100 0x01007ff0 32
    ⟨fun a => a.2.setWidth 8, 1, []⟩ rfl (by decide) (by decide) ?_ ?_ ?_ 33 (by decide)
  · rw [hsys, htpa]
    rintro i - j - hij
    exact absurd (congrArg Prod.fst hij) (by simp [bytes])
  · rintro - i hi ⟨k, hk, hik⟩
    have hoff := congrArg (fun p => p.2.toNat) hik
    have hlow : (low 256#32).toNat = 256 := by decide
    have hi' : i < 32 := hi
    simp only [bytes, hlow, BitVec.ofNat_eq_ofNat, BitVec.toNat_add, BitVec.toNat_ofNat] at hoff
    omega
  · rw [htpa]
    rintro ⟨⟩

/-- **The end of the documented range.**  A length of 64 KiB is carried as 0: between the OS and
the TPA nothing at all is copied. -/
theorem mem_copy_whole_bank {wbounce : BitVec 16} {rr6 rr4 : BitVec 32} (m : Machine) (fuel : ℕ)
    (hbank : ¬ (hiw rr6 >>> 8 = 0 ∧ hiw rr4 >>> 8 = 0)) :
    mem_copy wbounce (fuel + 1) rr6 rr4 0x10000 m = some (long (hiw rr4) (low rr4 + 0), m) := by
  have hlow : low 0x10000 = 0 := by decide
  rw [mem_copy, mem_bcp, if_neg hbank, hlow, mem_bcp_loop, copyLoop,
    if_neg (by decide), Option.map_some]

end Cpm8000.Bios.Plasmo
