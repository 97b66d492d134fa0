/-
# Records in the virtual memory

A record lies in one block. Its fields are read and stored through a pointer to where its block is
resident; `At` says that a pointer still addresses that copy of an address.

`HoldsAt s a l` says that the bytes of `l` were the last ones stored from `a` on. What is held is what a
pointer reads (`Paged.byte`), and a store leaves alone what it does not meet (`HoldsAt.frame`).
-/
import Cpm8000.Asm.Alloc

namespace Cpm8000.Asm

open Cpm8000.Sys

/-! ## 1. Pointers -/

namespace Vm

variable {n : ℕ} (vm : Vm n)

def byte (p : Ptr n) (off : ℕ) : Byte := (vm.vmpool p.1).vm_mem (p.2 + BitVec.ofNat 9 off)

def word (p : Ptr n) (off : ℕ) : BitVec 16 := vm.byte p off ++ vm.byte p (off + 1)

/-- The bytes of a field are stored. -/
def set (p : Ptr n) (off : ℕ) (buf : List Byte) : Vm n := vm.put (p.1, p.2 + BitVec.ofNat 9 off) buf

/-- Some fields are stored, one after the other. -/
def setAll (p : Ptr n) (fields : List (ℕ × List Byte)) : Vm n :=
  fields.foldl (fun vm f => vm.set p f.1 f.2) vm

end Vm

/-- The pointer addresses the resident copy of `a`. -/
def At {n : ℕ} (vm : Vm n) (p : Vm.Ptr n) (a : BitVec 16) : Prop :=
  (vm.vmpool p.1).vm_blk = a >>> 9 ∧ p.2 = a.setWidth 9

/-- Its buffer is to be written out. -/
def Dirty {n : ℕ} (vm : Vm n) (p : Vm.Ptr n) : Prop := (vm.vmpool p.1).vm_flg &&& VMDIR ≠ 0

/-! ## 2. What is stored -/

/-- `buf` is stored from `a` on. -/
def Stored.write (s : Stored) (a : BitVec 16) (buf : List Byte) : Stored := fun b =>
  if a ≤ b ∧ b.toNat - a.toNat < buf.length then some (buf.getD (b.toNat - a.toNat) 0) else s b

/-- The fields of the record at `a`. -/
def Stored.writeAll (s : Stored) (a : BitVec 16) (fields : List (ℕ × List Byte)) : Stored :=
  fields.foldl (fun s f => s.write (a + BitVec.ofNat 16 f.1) f.2) s

/-- What was stored last from `a` on are the bytes of `l`. -/
def HoldsAt (s : Stored) (a : ℕ) (l : List Byte) : Prop :=
  ∀ k (hk : k < l.length), s (BitVec.ofNat 16 (a + k)) = some (l.get ⟨k, hk⟩)

namespace HoldsAt

variable {s : Stored} {l buf : List Byte} {a : ℕ}

theorem write (s : Stored) {a : BitVec 16} (h : a.toNat + buf.length ≤ 65536) :
    HoldsAt (s.write a buf) a.toNat buf := by
  intro k hk
  have hnat : (BitVec.ofNat 16 (a.toNat + k)).toNat = a.toNat + k := by
    rw [BitVec.toNat_ofNat, Nat.mod_eq_of_lt (by omega)]
  unfold Stored.write
  simp only [BitVec.le_def, hnat, Nat.add_sub_cancel_left]
  rw [if_pos ⟨Nat.le_add_right _ _, hk⟩]
  simp [hk]

/-- Other bytes are stored. -/
theorem frame (h : HoldsAt s a l) {b : BitVec 16} (hl : a + l.length ≤ 65536)
    (hd : a + l.length ≤ b.toNat ∨ b.toNat + buf.length ≤ a) : HoldsAt (s.write b buf) a l := by
  intro k hk
  have hnat : (BitVec.ofNat 16 (a + k)).toNat = a + k := by
    rw [BitVec.toNat_ofNat, Nat.mod_eq_of_lt (by omega)]
  unfold Stored.write
  simp only [BitVec.le_def, hnat]
  rw [if_neg (by omega)]
  exact h k hk

theorem nil (s : Stored) (a : ℕ) : HoldsAt s a [] := fun _ hk => absurd hk (Nat.not_lt_zero _)

end HoldsAt

/-! ## 3. Accesses -/

namespace Paged

variable {n : ℕ} {vm : Vm n} {s : Stored}

theorem or_dir_of {w : BitVec 16} (h : w &&& VMDIR ≠ 0) : w ||| VMDIR = w := by
  have hbit : w[0] = true := by
    by_contra hno
    rw [Bool.not_eq_true] at hno
    refine h (BitVec.eq_of_getElem_eq fun i hi => ?_)
    cases i with
    | zero => simp [VMDIR, hno]
    | succ i => simp [VMDIR]
  refine BitVec.eq_of_getElem_eq fun i hi => ?_
  cases i with
  | zero => simp [VMDIR, hbit]
  | succ i => simp [VMDIR]

theorem put_nil (p : Vm.Ptr n) : vm.put p [] = vm := by
  have hmem : (fun k => if p.2 ≤ k ∧ k.toNat - p.2.toNat < ([] : List Byte).length then
      ([] : List Byte).getD (k.toNat - p.2.toNat) 0 else (vm.vmpool p.1).vm_mem k) =
      (vm.vmpool p.1).vm_mem := by
    funext k
    rw [if_neg fun h => absurd h.2 (Nat.not_lt_zero _)]
  unfold Vm.put Vm.set_buf
  rw [hmem, Function.update_eq_self]

/-- Marking a buffer as changed. -/
theorem dirty (h : Paged vm s) {cb : Fin n} {a : BitVec 16} (hblk : (vm.vmpool cb).vm_blk = a >>> 9) :
    Paged (vm.set_buf cb { vm.vmpool cb with vm_flg := (vm.vmpool cb).vm_flg ||| VMDIR }) s := by
  have hfits : a.toNat % 512 + ([] : List Byte).length ≤ 512 := (Nat.mod_lt _ (by decide)).le
  have hput := h.put hblk hfits
  rw [put_nil] at hput
  have hstore : (Access.wfetch a [] hfits).store s = s := by
    funext b
    unfold Access.store
    exact if_neg fun hb => absurd hb.2 (Nat.not_lt_zero _)
  rwa [hstore] at hput

/-- **A fetch for reading** addresses the copy of its address. -/
theorem rfetch (h : Paged vm s) (a : BitVec 16) : ∃ vm' p, vm.rfetch a = some (vm', p) ∧ Paged vm' s ∧
    At vm' p a ∧ vm'.virtop = vm.virtop := by
  obtain ⟨vm', cb, hget, hp, hblk⟩ := h.getbuf a
  exact ⟨vm', (cb, a.setWidth 9), by rw [Vm.rfetch, hget]; rfl, hp, ⟨hblk, rfl⟩, Vm.getbuf_virtop hget⟩

/-- **A fetch for writing** also marks its buffer. -/
theorem wfetch (h : Paged vm s) (a : BitVec 16) : ∃ vm' p, vm.wfetch a = some (vm', p) ∧ Paged vm' s ∧
    At vm' p a ∧ Dirty vm' p ∧ vm'.virtop = vm.virtop := by
  obtain ⟨vm', cb, hget, hp, hblk⟩ := h.getbuf a
  refine ⟨_, _, by rw [Vm.wfetch, hget]; rfl, hp.dirty hblk, ⟨?_, rfl⟩, ?_,
    (Vm.getbuf_virtop hget : vm'.virtop = vm.virtop)⟩
  · rw [Vm.set_buf_self]
    exact hblk
  · unfold Dirty
    rw [Vm.set_buf_self, or_dir]
    decide

/-- An address further on in the block. -/
theorem offset {a : BitVec 16} {off : ℕ} (hin : a.toNat % 512 + off < 512) :
    (a + BitVec.ofNat 16 off).toNat = a.toNat + off ∧ (a + BitVec.ofNat 16 off) >>> 9 = a >>> 9 ∧
      (a + BitVec.ofNat 16 off).setWidth 9 = a.setWidth 9 + BitVec.ofNat 9 off := by
  have hlt := a.isLt
  have hnat : (a + BitVec.ofNat 16 off).toNat = a.toNat + off := by
    rw [BitVec.toNat_add, BitVec.toNat_ofNat]
    omega
  refine ⟨hnat, ?_, ?_⟩
  · rw [← BitVec.toNat_inj, toNat_block, toNat_block, hnat]
    omega
  · rw [← BitVec.toNat_inj, toNat_place, hnat, BitVec.toNat_add, toNat_place, BitVec.toNat_ofNat]
    omega

/-- **A store through a pointer** is one at its address. -/
theorem set (h : Paged vm s) {p : Vm.Ptr n} {a : BitVec 16} (hat : At vm p a) (hdirty : Dirty vm p)
    (off : ℕ) (buf : List Byte) (hin : a.toNat % 512 + off < 512)
    (hfits : a.toNat % 512 + off + buf.length ≤ 512) :
    Paged (vm.set p off buf) (s.write (a + BitVec.ofNat 16 off) buf) ∧ At (vm.set p off buf) p a ∧
      Dirty (vm.set p off buf) p ∧ (vm.set p off buf).virtop = vm.virtop := by
  obtain ⟨hnat, hblk, hplace⟩ := offset hin
  obtain ⟨hres, hptr⟩ := hat
  obtain ⟨cb, pl⟩ := p
  dsimp only at hres hptr
  have hsame : vm.set_buf cb { vm.vmpool cb with vm_flg := (vm.vmpool cb).vm_flg ||| VMDIR } = vm := by
    rw [or_dir_of hdirty]
    unfold Vm.set_buf
    rw [Function.update_eq_self]
  have hmod : (a + BitVec.ofNat 16 off).toNat % 512 + buf.length ≤ 512 := by
    rw [hnat]
    omega
  have hput := h.put (hres.trans hblk.symm) hmod
  rw [hsame, hplace, ← hptr] at hput
  refine ⟨hput, ⟨?_, hptr⟩, ?_, rfl⟩
  · unfold Vm.set Vm.put
    rw [Vm.set_buf_self]
    exact hres
  · unfold Dirty Vm.set Vm.put
    rw [Vm.set_buf_self]
    exact hdirty

/-- **What is held is read.** -/
theorem byte (h : Paged vm s) {p : Vm.Ptr n} {a : BitVec 16} (hat : At vm p a) {off k : ℕ} {l : List Byte}
    (hl : HoldsAt s (a.toNat + off) l) (hk : k < l.length) (hfits : a.toNat % 512 + off + l.length ≤ 512) :
    vm.byte p (off + k) = l.get ⟨k, hk⟩ := by
  have hin : a.toNat % 512 + (off + k) < 512 := by omega
  obtain ⟨hnat, hblk, hplace⟩ := offset hin
  have hheld := hl k hk
  have haddr : BitVec.ofNat 16 (a.toNat + off + k) = a + BitVec.ofNat 16 (off + k) := by
    rw [← BitVec.toNat_inj, hnat, BitVec.toNat_ofNat]
    have := a.isLt
    omega
  rw [haddr] at hheld
  unfold Vm.byte
  rw [hat.2, ← hplace]
  exact h.resident p.1 _ _ hheld (hat.1.trans hblk.symm)

/-- A word that is held. -/
theorem word (h : Paged vm s) {p : Vm.Ptr n} {a : BitVec 16} (hat : At vm p a) {off : ℕ} {w : BitVec 16}
    (hw : HoldsAt s (a.toNat + off) (be16 w)) (hfits : a.toNat % 512 + off + 2 ≤ 512) :
    vm.word p off = w := by
  have h0 := h.byte hat hw (k := 0) Nat.zero_lt_two hfits
  have h1 := h.byte hat hw (k := 1) Nat.one_lt_two hfits
  rw [Nat.add_zero] at h0
  unfold Vm.word
  rw [h0, h1]
  exact ofBe16_be16 w

/-- The fields of a record are stored. -/
theorem setAll (h : Paged vm s) {p : Vm.Ptr n} {a : BitVec 16} (hat : At vm p a) (hdirty : Dirty vm p)
    {len : ℕ} (hblock : a.toNat % 512 + len ≤ 512) {fields : List (ℕ × List Byte)}
    (hfields : ∀ f ∈ fields, f.1 < len ∧ f.1 + f.2.length ≤ len) :
    Paged (vm.setAll p fields) (s.writeAll a fields) ∧ (vm.setAll p fields).virtop = vm.virtop := by
  induction fields generalizing vm s with
  | nil => exact ⟨h, rfl⟩
  | cons f fields ih =>
    obtain ⟨hf, hrest⟩ := List.forall_mem_cons.mp hfields
    obtain ⟨hp, hat', hdirty', htop⟩ := h.set hat hdirty f.1 f.2 (by omega) (by omega)
    obtain ⟨hall, htop'⟩ := ih hp hat' hdirty' hrest
    exact ⟨hall, htop'.trans htop⟩

end Paged

/-! ## 4. Records -/

namespace HoldsAt

variable {s : Stored} {l : List Byte} {b : ℕ} {a : BitVec 16} {len : ℕ} {fields : List (ℕ × List Byte)}

/-- The record is somewhere else. -/
theorem frameAll (h : HoldsAt s b l) (hl : b + l.length ≤ 65536) (hblock : a.toNat % 512 + len ≤ 512)
    (hfields : ∀ f ∈ fields, f.1 < len ∧ f.1 + f.2.length ≤ len)
    (hd : ∀ f ∈ fields, b + l.length ≤ a.toNat + f.1 ∨ a.toNat + f.1 + f.2.length ≤ b) :
    HoldsAt (s.writeAll a fields) b l := by
  induction fields generalizing s with
  | nil => exact h
  | cons f fields ih =>
    obtain ⟨hf, hrest⟩ := List.forall_mem_cons.mp hfields
    obtain ⟨hdf, hdrest⟩ := List.forall_mem_cons.mp hd
    refine ih (h.frame hl ?_) hrest hdrest
    rw [(Paged.offset (by omega : a.toNat % 512 + f.1 < 512)).1]
    exact hdf

/-- **Every field is there afterwards**, if no later one meets it. -/
theorem writeAll (s : Stored) (hblock : a.toNat % 512 + len ≤ 512)
    (hfields : ∀ f ∈ fields, f.1 < len ∧ f.1 + f.2.length ≤ len)
    (hd : fields.Pairwise fun f g => f.1 + f.2.length ≤ g.1 ∨ g.1 + g.2.length ≤ f.1) :
    ∀ f ∈ fields, HoldsAt (s.writeAll a fields) (a.toNat + f.1) f.2 := by
  induction fields generalizing s with
  | nil => exact List.forall_mem_nil _
  | cons f fields ih =>
    obtain ⟨hf, hrest⟩ := List.forall_mem_cons.mp hfields
    obtain ⟨hdf, hdrest⟩ := List.pairwise_cons.mp hd
    have hlt := a.isLt
    have hoff := (Paged.offset (by omega : a.toNat % 512 + f.1 < 512)).1
    intro g hg
    rcases List.mem_cons.mp hg with rfl | hg
    · have hself : HoldsAt (s.write (a + BitVec.ofNat 16 g.1) g.2) (a + BitVec.ofNat 16 g.1).toNat g.2 :=
        HoldsAt.write s (by omega)
      rw [hoff] at hself
      refine hself.frameAll (by omega) hblock hrest fun f' hf' => ?_
      have hmeet := hdf f' hf'
      omega
    · exact ih _ hrest hdrest g hg

end HoldsAt

end Cpm8000.Asm
