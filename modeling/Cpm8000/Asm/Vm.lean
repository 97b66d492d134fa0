/-
# The assembler's virtual memory

The assembler keeps its symbols and macros in 64K bytes of virtual memory, of which some blocks of 512
bytes are resident, twelve in `aglocom.c` and `n` here. `getbuf` finds the block of an address, or pages it in over the block that was
used longest ago; the buffers hang on a list, the latest first.

`Paged` says what the buffers and the file hold of what was stored so far, and that the list has every
buffer once and no block twice. Every access keeps it (`Paged.step`), from the pool as it is
initialised on; so a fetch always shows what was stored last: `run_transparent`.

`int`, `short` and `unsigned` have sixteen bits. The file is the one thing assumed here: what `read`
gets at an offset is what `write` put there last.
-/
import Cpm8000.Sys.Bytes
import Cpm8000.Sys.Links

namespace Cpm8000.Asm

open Cpm8000.Sys

/-! ## 1. The pool -/

/-- The bytes of a block. -/
abbrev Block := BitVec 9 → Byte

def VMDIR : BitVec 16 := 1

/-- `struct vmbuf`; links lead to places in the pool. -/
structure Vmbuf (n : ℕ) where
  vm_lnk : Option (Fin n)
  vm_blk : BitVec 16
  vm_flg : BitVec 16
  vm_mem : Block

/-- `vmfd` is the content of the file. -/
structure Vm (n : ℕ) where
  vmhead : Option (Fin n)
  vmpool : Fin n → Vmbuf n
  virtop : BitVec 16
  limblk : BitVec 16
  vmfd : ℕ → Byte

def lwrite (file : ℕ → Byte) (pos : ℕ) (mem : Block) : ℕ → Byte := fun p =>
  if pos ≤ p ∧ p < pos + 512 then mem (BitVec.ofNat 9 (p - pos)) else file p

def lread (file : ℕ → Byte) (pos : ℕ) : Block := fun k => file (pos + k.toNat)

namespace Vm

variable {n : ℕ} (vm : Vm n)

/-- A pool of `n` buffers, and a file with anything in it. -/
def pool (n : ℕ) (hn : 0 < n) (file : ℕ → Byte) : Vm n where
  vmhead := some ⟨0, hn⟩
  vmpool i := ⟨if h : i.val + 1 < n then some ⟨i.val + 1, h⟩ else none, -1, 0, fun _ => 0⟩
  virtop := 2
  limblk := 0
  vmfd := file

/-- The pool as `aglocom.c` has it. -/
def initial (file : ℕ → Byte) : Vm 12 := pool 12 (by decide) file

def set_buf (cb : Fin n) (b : Vmbuf n) : Vm n := { vm with vmpool := Function.update vm.vmpool cb b }

/-- "Write out old contents." -/
def write_out (cb : Fin n) : Vm n :=
  let b := vm.vmpool cb
  if b.vm_flg &&& VMDIR ≠ 0 then
    { vm.set_buf cb { b with vm_flg := b.vm_flg &&& ~~~VMDIR } with
      vmfd := lwrite vm.vmfd (b.vm_blk.toInt.toNat <<< 9) b.vm_mem
      limblk := if vm.limblk.sle b.vm_blk then b.vm_blk + 1 else vm.limblk }
  else vm

/-- "Read from disk", where the file goes that far, and the new block number. -/
def read_in (cb : Fin n) (vbn : BitVec 16) : Vm n :=
  vm.set_buf cb { vm.vmpool cb with
    vm_mem := if vbn < vm.limblk then lread vm.vmfd (vbn.toNat <<< 9) else (vm.vmpool cb).vm_mem
    vm_blk := vbn }

/-- `pb->vm_lnk = x`; the head is where the first link of the pool would be. -/
def set_lnk (pb : Option (Fin n)) (x : Option (Fin n)) : Vm n :=
  match pb with
  | none => { vm with vmhead := x }
  | some b => vm.set_buf b { vm.vmpool b with vm_lnk := x }

/-- `getbuf`: nothing where it follows a null pointer or does not come to an end. -/
def getbuf (adr : BitVec 16) : Option (Vm n × Fin n) :=
  let vbn := adr >>> 9
  match vm.vmhead with
  | none => none
  | some cb =>
    match scan (fun i => (vm.vmpool i).vm_lnk) (fun i => (vm.vmpool i).vm_blk = vbn) n none cb with
    | none => none
    | some (pb, cb) =>
      let vm := if (vm.vmpool cb).vm_blk ≠ vbn then (vm.write_out cb).read_in cb vbn else vm
      let vm := vm.set_lnk pb (vm.vmpool cb).vm_lnk
      let vm := vm.set_lnk (some cb) vm.vmhead
      some ({ vm with vmhead := some cb }, cb)

/-- A pointer into a buffer. -/
abbrev Ptr (n : ℕ) := Fin n × BitVec 9

def rfetch (adr : BitVec 16) : Option (Vm n × Ptr n) :=
  (vm.getbuf adr).map fun r => (r.1, r.2, adr.setWidth 9)

def wfetch (adr : BitVec 16) : Option (Vm n × Ptr n) :=
  (vm.getbuf adr).map fun r =>
    (r.1.set_buf r.2 { r.1.vmpool r.2 with vm_flg := (r.1.vmpool r.2).vm_flg ||| VMDIR }, r.2,
      adr.setWidth 9)

def valloc (size : BitVec 16) : Vm n × BitVec 16 :=
  let blklim := (vm.virtop ||| 511) + 1
  let vm := if vm.virtop + size > blklim then { vm with virtop := blklim } else vm
  ({ vm with virtop := vm.virtop + size }, vm.virtop)

/-- The bytes that are stored from a pointer on, as long as they stay in its buffer. -/
def put (p : Ptr n) (buf : List Byte) : Vm n :=
  vm.set_buf p.1 { vm.vmpool p.1 with
    vm_mem := fun k =>
      if p.2 ≤ k ∧ k.toNat - p.2.toNat < buf.length then buf.getD (k.toNat - p.2.toNat) 0
      else (vm.vmpool p.1).vm_mem k }

end Vm

/-- An access: what is stored through a pointer stays in the block that was fetched. -/
inductive Access
  | valloc (size : BitVec 16)
  | rfetch (adr : BitVec 16)
  | wfetch (adr : BitVec 16) (buf : List Byte) (fits : adr.toNat % 512 + buf.length ≤ 512)

namespace Access

def run {n : ℕ} : Access → Vm n → Option (Vm n)
  | valloc size, vm => some (vm.valloc size).1
  | rfetch adr, vm => (vm.rfetch adr).map Prod.fst
  | wfetch adr buf _, vm => (vm.wfetch adr).map fun r => r.1.put r.2 buf

end Access

/-- The last byte stored at each address. -/
abbrev Stored := BitVec 16 → Option Byte

def Access.store : Access → Stored → Stored
  | wfetch adr buf _, s => fun a =>
    if adr ≤ a ∧ a.toNat - adr.toNat < buf.length then some (buf.getD (a.toNat - adr.toNat) 0) else s a
  | _, s => s

/-! ## 2. The invariant -/

/-- **The list has every buffer once, no block is in two buffers, and what was stored is in the buffer of
its block, or in the file where that buffer is clean or there is none.** -/
structure Paged {n : ℕ} (vm : Vm n) (s : Stored) : Prop where
  pos : 0 < n
  chain : ∃ l : List (Fin n), Links (fun i => (vm.vmpool i).vm_lnk) vm.vmhead l ∧ l.Nodup ∧
    l.length = n
  unique : ∀ i j, (vm.vmpool i).vm_blk = (vm.vmpool j).vm_blk → (vm.vmpool i).vm_blk ≠ -1 → i = j
  block : ∀ i, (vm.vmpool i).vm_blk.toNat < 128 ∨
    (vm.vmpool i).vm_blk = -1 ∧ (vm.vmpool i).vm_flg &&& VMDIR = 0
  limit : vm.limblk.toNat ≤ 128
  resident : ∀ i a v, s a = some v → (vm.vmpool i).vm_blk = a >>> 9 →
    (vm.vmpool i).vm_mem (a.setWidth 9) = v
  backed : ∀ a v, s a = some v →
    (∀ i, (vm.vmpool i).vm_blk = a >>> 9 → (vm.vmpool i).vm_flg &&& VMDIR = 0) →
      (a >>> 9).toNat < vm.limblk.toNat ∧ vm.vmfd a.toNat = v

/-- At first each buffer leads to the next. -/
theorem Vm.pool_links {n : ℕ} (hn : 0 < n) (file : ℕ → Byte) (k : ℕ) :
    Links (fun i => ((pool n hn file).vmpool i).vm_lnk) (if h : k < n then some ⟨k, h⟩ else none)
      ((List.finRange n).drop k) := by
  by_cases hk : k < n
  · rw [dif_pos hk, List.drop_eq_getElem_cons (by rwa [List.length_finRange]), List.getElem_finRange]
    exact ⟨rfl, pool_links hn file (k + 1)⟩
  · rw [dif_neg hk, List.drop_of_length_le (by rw [List.length_finRange]; exact Nat.le_of_not_lt hk)]
    rfl
termination_by n - k

theorem Paged.pool {n : ℕ} (hn : 0 < n) (file : ℕ → Byte) : Paged (Vm.pool n hn file) fun _ => none where
  pos := hn
  chain := by
    refine ⟨List.finRange n, ?_, List.nodup_finRange n, List.length_finRange⟩
    have hlinks := Vm.pool_links hn file 0
    rw [dif_pos hn, List.drop_zero] at hlinks
    exact hlinks
  unique i j _ h := absurd rfl h
  block i := .inr ⟨rfl, BitVec.zero_and⟩
  limit := Nat.zero_le _
  resident _ _ _ h := by cases h
  backed _ _ h := by cases h

theorem Paged.initial (file : ℕ → Byte) : Paged (Vm.initial file) fun _ => none := .pool _ file

/-! ## 3. Blocks and places -/

theorem toNat_block (a : BitVec 16) : (a >>> 9).toNat = a.toNat / 512 := by
  rw [BitVec.toNat_ushiftRight, Nat.shiftRight_eq_div_pow]

theorem toNat_place (a : BitVec 16) : (a.setWidth 9).toNat = a.toNat % 512 :=
  BitVec.toNat_setWidth 9 a

theorem block_lt (a : BitVec 16) : (a >>> 9).toNat < 128 := by
  rw [toNat_block]
  have := a.isLt
  omega

theorem block_ne (a : BitVec 16) : a >>> 9 ≠ -1 := by
  intro h
  have hlt := block_lt a
  rw [h] at hlt
  exact absurd hlt (by decide)

/-- The byte of an address in the block that was written. -/
theorem lwrite_block (file : ℕ → Byte) (mem : Block) (blk a : BitVec 16) (hblk : blk.toNat < 128) :
    lwrite file (blk.toInt.toNat <<< 9) mem a.toNat =
      if blk = a >>> 9 then mem (a.setWidth 9) else file a.toNat := by
  have hint : blk.toInt.toNat = blk.toNat := by
    rw [BitVec.toInt_eq_toNat_of_lt (by omega)]
    rfl
  have hiff : blk = a >>> 9 ↔ 512 * blk.toNat ≤ a.toNat ∧ a.toNat < 512 * blk.toNat + 512 := by
    rw [← BitVec.toNat_inj, toNat_block]
    omega
  unfold lwrite
  rw [hint, Nat.shiftLeft_eq, Nat.mul_comm blk.toNat]
  by_cases h : blk = a >>> 9
  · rw [if_pos h, if_pos (hiff.mp h)]
    congr 1
    apply BitVec.eq_of_toNat_eq
    rw [BitVec.toNat_ofNat, toNat_place]
    have hin := hiff.mp h
    omega
  · rw [if_neg h, if_neg (mt hiff.mpr h)]

theorem lread_block (file : ℕ → Byte) (a : BitVec 16) :
    lread file ((a >>> 9).toNat <<< 9) (a.setWidth 9) = file a.toNat := by
  unfold lread
  rw [toNat_block, toNat_place, Nat.shiftLeft_eq]
  congr 1
  omega

/-- The last address of a block. -/
theorem toNat_or_511 (a : BitVec 16) : (a ||| 511).toNat = 512 * (a.toNat / 512) + 511 := by
  rw [BitVec.toNat_or]
  apply Nat.eq_of_testBit_eq
  intro i
  rw [Nat.testBit_or, (by decide : (511 : BitVec 16).toNat = 2 ^ 9 - 1), Nat.testBit_two_pow_sub_one]
  have hsplit := Nat.testBit_two_pow_mul_add (a.toNat / 2 ^ 9) (by decide : 2 ^ 9 - 1 < 2 ^ 9) i
  rw [Nat.testBit_two_pow_sub_one, Nat.testBit_div_two_pow] at hsplit
  refine Eq.trans ?_ hsplit.symm
  by_cases hi : i < 9
  · simp [hi]
  · rw [if_neg hi, decide_eq_false hi, Bool.or_false, Nat.sub_add_cancel (Nat.le_of_not_lt hi)]

namespace Vm

variable {n : ℕ} {vm : Vm n}

@[simp] theorem set_buf_self (cb : Fin n) (b : Vmbuf n) : (vm.set_buf cb b).vmpool cb = b :=
  Function.update_self _ _ _

theorem set_buf_of_ne {cb i : Fin n} (b : Vmbuf n) (h : i ≠ cb) :
    (vm.set_buf cb b).vmpool i = vm.vmpool i := Function.update_of_ne h _ _

/-- What a changed buffer keeps, the pool keeps. -/
theorem set_buf_field {β : Type*} (f : Vmbuf n → β) {cb : Fin n} {b : Vmbuf n}
    (hf : f b = f (vm.vmpool cb)) (i : Fin n) :
    f ((vm.set_buf cb b).vmpool i) = f (vm.vmpool i) := by
  by_cases hi : i = cb
  · rw [hi, set_buf_self, hf]
  · rw [set_buf_of_ne b hi]

/-- Links are written as `setLink` has it. -/
theorem set_lnk_links (pb x : Option (Fin n)) :
    ((vm.set_lnk pb x).vmhead, fun i => ((vm.set_lnk pb x).vmpool i).vm_lnk) =
      setLink pb x (vm.vmhead, fun i => (vm.vmpool i).vm_lnk) := by
  cases pb with
  | none => rfl
  | some b =>
    refine Prod.ext rfl (funext fun i => ?_)
    dsimp only [set_lnk, setLink]
    rw [Function.update_apply]
    split_ifs with hi
    · rw [hi, set_buf_self]
    · rw [set_buf_of_ne _ hi]

theorem set_lnk_field {β : Type*} (f : Vmbuf n → β) (hf : ∀ b l, f { b with vm_lnk := l } = f b)
    (pb x : Option (Fin n)) (i : Fin n) : f ((vm.set_lnk pb x).vmpool i) = f (vm.vmpool i) := by
  cases pb with
  | none => rfl
  | some b => exact set_buf_field f (hf _ _) i

theorem write_out_field {β : Type*} (f : Vmbuf n → β) (hf : ∀ b w, f { b with vm_flg := w } = f b)
    (cb i : Fin n) : f ((vm.write_out cb).vmpool i) = f (vm.vmpool i) := by
  unfold write_out
  dsimp only
  by_cases hd : (vm.vmpool cb).vm_flg &&& VMDIR ≠ 0
  · rw [if_pos hd]
    exact set_buf_field f (hf _ _) i
  · rw [if_neg hd]

/-- Paging leaves the list alone. -/
theorem page_links (cb : Fin n) (vbn : BitVec 16) :
    ((vm.write_out cb).read_in cb vbn).vmhead = vm.vmhead ∧
      ∀ i, (((vm.write_out cb).read_in cb vbn).vmpool i).vm_lnk = (vm.vmpool i).vm_lnk := by
  refine ⟨?_, fun i => ?_⟩
  · unfold read_in write_out
    dsimp only
    split_ifs <;> rfl
  · refine Eq.trans ?_ (write_out_field Vmbuf.vm_lnk (fun _ _ => rfl) cb i)
    unfold read_in
    by_cases hi : i = cb
    · rw [hi, set_buf_self]
    · rw [set_buf_of_ne _ hi]

theorem set_lnk_file (pb x : Option (Fin n)) :
    (vm.set_lnk pb x).limblk = vm.limblk ∧ (vm.set_lnk pb x).vmfd = vm.vmfd := by
  cases pb <;> exact ⟨rfl, rfl⟩

/-- **A region is in one block**, if it is no larger; at the end of the 64K the regions start over. -/
theorem valloc_fits {size : BitVec 16} (hsize : size.toNat ≤ 512) :
    (vm.valloc size).2.toNat % 512 + size.toNat ≤ 512 := by
  have hlt := vm.virtop.isLt
  have hlim : ((vm.virtop ||| 511) + 1).toNat = 512 * (vm.virtop.toNat / 512 + 1) % 65536 := by
    rw [BitVec.toNat_add, toNat_or_511]
    rfl
  have hadd : (vm.virtop + size).toNat = (vm.virtop.toNat + size.toNat) % 65536 := BitVec.toNat_add ..
  unfold valloc
  dsimp only
  split_ifs with hc
  · dsimp only
    rw [hlim]
    omega
  · rw [GT.gt, BitVec.lt_def, hlim, hadd] at hc
    omega

end Vm

namespace Paged

variable {n : ℕ} {vm : Vm n} {s : Stored}

/-- The mark of the file goes up to the block that was written. -/
theorem toNat_limblk {lim blk : BitVec 16} (hlim : lim.toNat ≤ 128) (hblk : blk.toNat < 128) :
    (if lim.sle blk then blk + 1 else lim).toNat = max lim.toNat (blk.toNat + 1) := by
  have hsle : lim.sle blk = decide (lim.toNat ≤ blk.toNat) := by
    rw [BitVec.sle_eq_decide, BitVec.toInt_eq_toNat_of_lt (by omega),
      BitVec.toInt_eq_toNat_of_lt (by omega)]
    exact decide_eq_decide.mpr Int.ofNat_le
  rw [hsle]
  by_cases h : lim.toNat ≤ blk.toNat
  · rw [decide_eq_true h, if_pos rfl, BitVec.toNat_add, (by decide : (1 : BitVec 16).toNat = 1)]
    omega
  · rw [decide_eq_false h, if_neg Bool.false_ne_true]
    omega

/-- Writing a buffer out. -/
theorem write_out (h : Paged vm s) (cb : Fin n) :
    Paged (vm.write_out cb) s ∧ ((vm.write_out cb).vmpool cb).vm_flg &&& VMDIR = 0 := by
  by_cases hdirty : (vm.vmpool cb).vm_flg &&& VMDIR ≠ 0
  · have hblk : (vm.vmpool cb).vm_blk.toNat < 128 := (h.block cb).resolve_right fun hc => hdirty hc.2
    have hclean : (vm.vmpool cb).vm_flg &&& ~~~VMDIR &&& VMDIR = 0 := by
      rw [BitVec.and_assoc, (by decide : ~~~VMDIR &&& VMDIR = 0#16), BitVec.and_zero]
      rfl
    have hlim := toNat_limblk h.limit hblk
    unfold Vm.write_out
    dsimp only
    rw [if_pos hdirty]
    have hkeep {β : Type} (f : Vmbuf n → β) (hf : f { vm.vmpool cb with
        vm_flg := (vm.vmpool cb).vm_flg &&& ~~~VMDIR } = f (vm.vmpool cb)) :=
      Vm.set_buf_field f hf
    have hlnk := hkeep Vmbuf.vm_lnk rfl
    have hblks := hkeep Vmbuf.vm_blk rfl
    have hmem := hkeep Vmbuf.vm_mem rfl
    have hself := @Vm.set_buf_self _ vm cb { vm.vmpool cb with
      vm_flg := (vm.vmpool cb).vm_flg &&& ~~~VMDIR }
    have hflg (i : Fin n) (hi : i ≠ cb) := congrArg Vmbuf.vm_flg
      (@Vm.set_buf_of_ne _ vm cb i { vm.vmpool cb with
        vm_flg := (vm.vmpool cb).vm_flg &&& ~~~VMDIR } hi)
    have hhead : (Vm.set_buf vm cb { vm.vmpool cb with
      vm_flg := (vm.vmpool cb).vm_flg &&& ~~~VMDIR }).vmhead = vm.vmhead := rfl
    generalize Vm.set_buf vm cb { vm.vmpool cb with
      vm_flg := (vm.vmpool cb).vm_flg &&& ~~~VMDIR } = vm' at *
    refine ⟨⟨h.pos, ?_, fun i j => ?_, fun i => ?_, ?_, fun i a v ha => ?_, fun a v ha hc => ?_⟩, ?_⟩
    · obtain ⟨l, hl, hnodup, hlen⟩ := h.chain
      refine ⟨l, ?_, hnodup, hlen⟩
      dsimp only
      rw [hhead]
      exact hl.congr fun i _ => hlnk i
    · dsimp only
      rw [hblks, hblks]
      exact h.unique i j
    · dsimp only
      rw [hblks]
      by_cases hi : i = cb
      · rw [hi]
        exact .inl hblk
      · rw [hflg i hi]
        exact h.block i
    · dsimp only
      rw [hlim]
      exact Nat.max_le.mpr ⟨h.limit, hblk⟩
    · dsimp only
      rw [hblks, hmem]
      exact h.resident i a v ha
    · dsimp only at hc ⊢
      rw [hlim, lwrite_block _ _ _ _ hblk]
      split_ifs with heq
      · -- the block that was written is what its buffer had
        refine ⟨?_, h.resident cb a v ha heq⟩
        rw [← heq]
        exact Nat.le_max_right _ _
      · obtain ⟨hlt, hfile⟩ := h.backed a v ha fun i hi => by
          have hne : i ≠ cb := by
            rintro rfl
            exact heq hi
          rw [← hflg i hne]
          exact hc i ((hblks i).trans hi)
        exact ⟨Nat.lt_of_lt_of_le hlt (Nat.le_max_left _ _), hfile⟩
    · rw [hself]
      exact hclean
  · unfold Vm.write_out
    dsimp only
    rw [if_neg hdirty]
    exact ⟨h, not_not.mp hdirty⟩

/-- Paging a block in over a clean buffer. -/
theorem read_in (h : Paged vm s) {cb : Fin n} (hclean : (vm.vmpool cb).vm_flg &&& VMDIR = 0)
    {adr : BitVec 16} (hmiss : ∀ i, (vm.vmpool i).vm_blk ≠ adr >>> 9) :
    Paged (vm.read_in cb (adr >>> 9)) s := by
  unfold Vm.read_in
  generalize hb : ({ vm.vmpool cb with
    vm_mem := if adr >>> 9 < vm.limblk then lread vm.vmfd ((adr >>> 9).toNat <<< 9)
      else (vm.vmpool cb).vm_mem
    vm_blk := adr >>> 9 } : Vmbuf n) = b
  have hlnk := @Vm.set_buf_field _ vm _ Vmbuf.vm_lnk cb b (by rw [← hb])
  have hflg := @Vm.set_buf_field _ vm _ Vmbuf.vm_flg cb b (by rw [← hb])
  have hblk : b.vm_blk = adr >>> 9 := by rw [← hb]
  refine ⟨h.pos, ?_, fun i j hij hne => ?_, fun i => ?_, h.limit, fun i a v ha hi => ?_, fun a v ha hc => ?_⟩
  · obtain ⟨l, hl, hnodup, hlen⟩ := h.chain
    exact ⟨l, hl.congr fun i _ => hlnk i, hnodup, hlen⟩
  · by_cases hi : i = cb <;> by_cases hj : j = cb
    · rw [hi, hj]
    · rw [hi, Vm.set_buf_self, Vm.set_buf_of_ne b hj, hblk] at hij
      exact absurd hij.symm (hmiss j)
    · rw [hj, Vm.set_buf_self, Vm.set_buf_of_ne b hi, hblk] at hij
      exact absurd hij (hmiss i)
    · rw [Vm.set_buf_of_ne b hi] at hij hne
      rw [Vm.set_buf_of_ne b hj] at hij
      exact h.unique i j hij hne
  · by_cases hi : i = cb
    · rw [hi, Vm.set_buf_self, hblk]
      exact .inl (block_lt adr)
    · rw [Vm.set_buf_of_ne b hi]
      exact h.block i
  · by_cases hcb : i = cb
    · rw [hcb, Vm.set_buf_self] at hi ⊢
      rw [hblk] at hi
      -- the block was in no buffer, so the file has it
      obtain ⟨hlt, hfile⟩ := h.backed a v ha fun j hj => absurd (hj.trans hi.symm) (hmiss j)
      rw [← hb]
      dsimp only
      rw [hi, if_pos (BitVec.lt_def.mpr hlt), lread_block]
      exact hfile
    · rw [Vm.set_buf_of_ne b hcb] at hi ⊢
      exact h.resident i a v ha hi
  · refine h.backed a v ha fun i hi => ?_
    have hcl := hc i
    rw [hflg] at hcl
    by_cases hcb : i = cb
    · rw [hcb]
      exact hclean
    · rw [Vm.set_buf_of_ne b hcb] at hcl
      exact hcl hi

/-- The buffer `getbuf` gives back is put in front. -/
theorem to_front (h : Paged vm s) {p q : List (Fin n)} {cb : Fin n}
    (hl : Links (fun i => (vm.vmpool i).vm_lnk) vm.vmhead (p ++ cb :: q)) (hnodup : (p ++ cb :: q).Nodup)
    (hlen : (p ++ cb :: q).length = n) :
    let vm₁ := vm.set_lnk p.getLast? (vm.vmpool cb).vm_lnk
    Paged { vm₁.set_lnk (some cb) vm₁.vmhead with vmhead := some cb } s := by
  intro vm₁
  have hkeep {β : Type} (f : Vmbuf n → β) (hf : ∀ b l, f { b with vm_lnk := l } = f b) (i : Fin n) :
      f ((vm₁.set_lnk (some cb) vm₁.vmhead).vmpool i) = f (vm.vmpool i) :=
    (Vm.set_lnk_field f hf _ _ i).trans (Vm.set_lnk_field f hf _ _ i)
  have hblk := hkeep Vmbuf.vm_blk fun _ _ => rfl
  have hflg := hkeep Vmbuf.vm_flg fun _ _ => rfl
  have hmem := hkeep Vmbuf.vm_mem fun _ _ => rfl
  obtain ⟨hlim, hfd⟩ := @Vm.set_lnk_file _ vm p.getLast? (vm.vmpool cb).vm_lnk
  have hnot : cb ∉ p ++ q := (List.nodup_middle.mp hnodup).notMem
  refine ⟨h.pos, ⟨cb :: (p ++ q), ?_, List.nodup_middle.mp hnodup, ?_⟩, fun i j => ?_, fun i => ?_, ?_,
    fun i a v ha => ?_, fun a v ha hc => ?_⟩
  · have hout := hl.unlink hnodup
    rw [← Vm.set_lnk_links] at hout
    have hin := hout.push hnot
    have hlinks := congrArg Prod.snd (@Vm.set_lnk_links _ vm₁ (some cb) vm₁.vmhead)
    dsimp only [setLink] at hlinks hin ⊢
    rw [hlinks]
    exact hin
  · exact List.perm_middle.length_eq.symm.trans hlen
  · dsimp only
    rw [hblk, hblk]
    exact h.unique i j
  · dsimp only
    rw [hblk, hflg]
    exact h.block i
  · exact hlim.symm ▸ h.limit
  · dsimp only
    rw [hblk, hmem]
    exact h.resident i a v ha
  · dsimp only at hc ⊢
    rw [(Vm.set_lnk_file _ _).1, (Vm.set_lnk_file _ _).2, hlim, hfd]
    refine h.backed a v ha fun i hi => ?_
    rw [← hflg]
    exact hc i ((hblk i).trans hi)

/-- **`getbuf` finds the block of an address**, from any state with the invariant, and keeps it. -/
theorem getbuf (h : Paged vm s) (adr : BitVec 16) : ∃ vm' cb, vm.getbuf adr = some (vm', cb) ∧
    Paged vm' s ∧ (vm'.vmpool cb).vm_blk = adr >>> 9 := by
  obtain ⟨l, hl, hnodup, hlen⟩ := h.chain
  have hall : ∀ i, i ∈ l := by
    intro i
    have hcard : l.toFinset = Finset.univ := by
      rw [← Finset.card_eq_iff_eq_univ, List.toFinset_card_of_nodup hnodup, hlen, Fintype.card_fin]
    rw [← List.mem_toFinset, hcard]
    exact Finset.mem_univ i
  unfold Vm.getbuf
  dsimp only
  cases hhead : vm.vmhead with
  | none =>
    rw [hhead] at hl
    cases l with
    | nil => exact absurd hlen h.pos.ne
    | cons a l => cases hl.1
  | some c =>
    rw [hhead] at hl
    obtain ⟨p, x, q, rfl, hscan, hp, hx⟩ := @scan_eq _ _ _
      (fun i => decide ((vm.vmpool i).vm_blk = adr >>> 9)) none c hl
    rw [hlen] at hscan
    dsimp only
    rw [hscan, Option.or_none]
    rw [← hhead] at hl
    by_cases hblk : (vm.vmpool x).vm_blk = adr >>> 9
    · dsimp only
      rw [if_neg (not_not.mpr hblk)]
      refine ⟨_, x, rfl, h.to_front hl hnodup hlen, ?_⟩
      dsimp only
      rw [Vm.set_lnk_field Vmbuf.vm_blk (fun _ _ => rfl), Vm.set_lnk_field Vmbuf.vm_blk (fun _ _ => rfl)]
      exact hblk
    · -- the loop ended at the last buffer, so no buffer has the block
      obtain rfl : q = [] := hx.resolve_left (by simpa using hblk)
      have hmiss : ∀ i, (vm.vmpool i).vm_blk ≠ adr >>> 9 := by
        intro i
        rcases List.mem_append.mp (hall i) with hi | hi
        · simpa using hp i hi
        · rw [List.mem_singleton.mp hi]
          exact hblk
      obtain ⟨hout, hclean⟩ := h.write_out x
      have hmiss' : ∀ i, ((vm.write_out x).vmpool i).vm_blk ≠ adr >>> 9 := by
        intro i
        rw [Vm.write_out_field Vmbuf.vm_blk fun _ _ => rfl]
        exact hmiss i
      have hin := hout.read_in hclean hmiss'
      obtain ⟨hh, hlnk⟩ := @Vm.page_links _ vm x (adr >>> 9)
      have hl' : Links (fun i => (((vm.write_out x).read_in x (adr >>> 9)).vmpool i).vm_lnk)
          ((vm.write_out x).read_in x (adr >>> 9)).vmhead (p ++ [x]) := by
        rw [hh]
        exact hl.congr fun i _ => hlnk i
      dsimp only
      rw [if_pos hblk]
      refine ⟨_, x, rfl, hin.to_front hl' hnodup hlen, ?_⟩
      dsimp only
      rw [Vm.set_lnk_field Vmbuf.vm_blk (fun _ _ => rfl), Vm.set_lnk_field Vmbuf.vm_blk (fun _ _ => rfl)]
      unfold Vm.read_in
      rw [Vm.set_buf_self]

theorem or_dir (w : BitVec 16) : (w ||| VMDIR) &&& VMDIR = VMDIR := by
  ext i
  simp only [BitVec.getElem_and, BitVec.getElem_or]
  cases w[i] <;> simp

/-- A buffer marked as changed, and stored to where its block has `a`. -/
theorem put (h : Paged vm s) {cb : Fin n} {adr : BitVec 16} (hblk : (vm.vmpool cb).vm_blk = adr >>> 9)
    {buf : List Byte} (fits : adr.toNat % 512 + buf.length ≤ 512) :
    Paged ((vm.set_buf cb { vm.vmpool cb with vm_flg := (vm.vmpool cb).vm_flg ||| VMDIR }).put
      (cb, adr.setWidth 9) buf) ((Access.wfetch adr buf fits).store s) := by
  have hdirty : ((vm.vmpool cb).vm_flg ||| VMDIR) &&& VMDIR ≠ 0 := by
    rw [or_dir]
    decide
  have hsame (i : Fin n) (a : BitVec 16) (hi : i ≠ cb) (ha : (vm.vmpool i).vm_blk = a >>> 9) :
      a >>> 9 ≠ adr >>> 9 := by
    intro heq
    refine hi (h.unique i cb (ha.trans (heq.trans hblk.symm)) ?_)
    rw [ha]
    exact block_ne a
  have hstore (a : BitVec 16) (ha : a >>> 9 ≠ adr >>> 9) : (Access.wfetch adr buf fits).store s a = s a := by
    unfold Access.store
    dsimp only
    rw [if_neg]
    rintro ⟨hle, hlt⟩
    apply ha
    rw [← BitVec.toNat_inj, toNat_block, toNat_block]
    rw [BitVec.le_def] at hle
    omega
  unfold Vm.put
  dsimp only
  rw [Vm.set_buf_self]
  generalize hb : ({ vm.vmpool cb with
    vm_flg := (vm.vmpool cb).vm_flg ||| VMDIR
    vm_mem := fun k =>
      if adr.setWidth 9 ≤ k ∧ k.toNat - (adr.setWidth 9).toNat < buf.length then
        buf.getD (k.toNat - (adr.setWidth 9).toNat) 0
      else (vm.vmpool cb).vm_mem k } : Vmbuf n) = b
  have hset : (vm.set_buf cb { vm.vmpool cb with vm_flg := (vm.vmpool cb).vm_flg ||| VMDIR }).set_buf cb b
      = vm.set_buf cb b := by
    unfold Vm.set_buf
    dsimp only
    rw [Function.update_idem]
  rw [hset]
  have hlnk := @Vm.set_buf_field _ vm _ Vmbuf.vm_lnk cb b (by rw [← hb])
  have hblks := @Vm.set_buf_field _ vm _ Vmbuf.vm_blk cb b (by rw [← hb])
  have hflg : b.vm_flg &&& VMDIR ≠ 0 := by rw [← hb]; exact hdirty
  refine ⟨h.pos, ?_, fun i j => ?_, fun i => ?_, h.limit, fun i a v ha hi => ?_, fun a v ha hc => ?_⟩
  · obtain ⟨l, hl, hnodup, hlen⟩ := h.chain
    exact ⟨l, hl.congr fun i _ => hlnk i, hnodup, hlen⟩
  · rw [hblks, hblks]
    exact h.unique i j
  · by_cases hi : i = cb
    · rw [hblks, hi, hblk]
      exact .inl (block_lt adr)
    · rw [Vm.set_buf_of_ne b hi]
      exact h.block i
  · rw [hblks] at hi
    by_cases hcb : i = cb
    · rw [hcb, Vm.set_buf_self, ← hb]
      dsimp only
      rw [hcb, hblk] at hi
      have hin : adr.toNat / 512 = a.toNat / 512 := by
        rw [← toNat_block, ← toNat_block, hi]
      have hoff : a.toNat - adr.toNat = (a.setWidth 9).toNat - (adr.setWidth 9).toNat := by
        rw [toNat_place, toNat_place]
        omega
      have hle : adr ≤ a ↔ adr.setWidth 9 ≤ a.setWidth 9 := by
        rw [BitVec.le_def, BitVec.le_def, toNat_place, toNat_place]
        omega
      unfold Access.store at ha
      dsimp only at ha
      simp only [hle, hoff] at ha
      split_ifs at ha ⊢ with hc
      · exact Option.some.inj ha
      · refine h.resident cb a v ha ?_
        rw [hblk, hi]
    · rw [Vm.set_buf_of_ne b hcb]
      rw [hstore a (hsame i a hcb hi)] at ha
      exact h.resident i a v ha hi
  · have hne : a >>> 9 ≠ adr >>> 9 := by
      intro heq
      have hcl := hc cb (by rw [hblks, hblk, heq])
      rw [Vm.set_buf_self] at hcl
      exact hflg hcl
    rw [hstore a hne] at ha
    refine h.backed a v ha fun i hi => ?_
    have hcb : i ≠ cb := by
      rintro rfl
      exact hne (hi.symm.trans hblk)
    have hcl := hc i ((hblks i).trans hi)
    rw [Vm.set_buf_of_ne b hcb] at hcl
    exact hcl

end Paged

/-! ## 4. Runs -/

/-- The accesses of a run, in order. -/
def runAll {n : ℕ} (accs : List Access) (vm : Vm n) : Option (Vm n) := accs.foldlM (fun vm acc => acc.run vm) vm

/-- What is stored after them. -/
def storedAll (accs : List Access) : Stored := accs.foldl (fun s acc => acc.store s) fun _ => none

/-- **What every access keeps.** -/
theorem Paged.step {n : ℕ} {vm : Vm n} {s : Stored} (h : Paged vm s) (acc : Access) :
    ∃ vm', acc.run vm = some vm' ∧ Paged vm' (acc.store s) := by
  cases acc with
  | valloc size =>
    refine ⟨_, rfl, ?_⟩
    unfold Vm.valloc
    dsimp only
    split_ifs
    · exact ⟨h.pos, h.chain, h.unique, h.block, h.limit, h.resident, h.backed⟩
    · exact ⟨h.pos, h.chain, h.unique, h.block, h.limit, h.resident, h.backed⟩
  | rfetch adr =>
    obtain ⟨vm', cb, hget, hp, -⟩ := h.getbuf adr
    exact ⟨vm', by rw [Access.run, Vm.rfetch, hget]; rfl, hp⟩
  | wfetch adr buf fits =>
    obtain ⟨vm', cb, hget, hp, hblk⟩ := h.getbuf adr
    exact ⟨_, by rw [Access.run, Vm.wfetch, hget]; rfl, hp.put hblk fits⟩

theorem Paged.run {n : ℕ} {vm : Vm n} {s : Stored} (h : Paged vm s) (accs : List Access) :
    ∃ vm', runAll accs vm = some vm' ∧ Paged vm' (accs.foldl (fun s acc => acc.store s) s) := by
  induction accs generalizing vm s with
  | nil => exact ⟨vm, rfl, h⟩
  | cons acc accs ih =>
    obtain ⟨vm₁, hrun, h₁⟩ := h.step acc
    obtain ⟨vm', hall, h'⟩ := ih h₁
    refine ⟨vm', ?_, h'⟩
    unfold runAll at hall ⊢
    rw [List.foldlM_cons, hrun]
    exact hall

/-- The buffers on the list, the latest first, are all the buffers, each once. -/
def LruList {n : ℕ} (vm : Vm n) : Prop := ∃ l : List (Fin n),
  Links (fun i => (vm.vmpool i).vm_lnk) vm.vmhead l ∧ l.Perm (List.finRange n)

/-- **Paging is transparent**: after any accesses the list has every buffer once, no block is in two
buffers, and a fetch shows, up to the end of the block, what was stored last. -/
theorem run_transparent (file : ℕ → Byte) (accs : List Access) :
    ∃ vm, runAll accs (Vm.initial file) = some vm ∧ LruList vm ∧
      (∀ i j, (vm.vmpool i).vm_blk = (vm.vmpool j).vm_blk → (vm.vmpool i).vm_blk ≠ -1 → i = j) ∧
      ∀ adr, ∃ vm' p, vm.rfetch adr = some (vm', p) ∧
        ∀ k : ℕ, adr.toNat % 512 + k < 512 → ∀ v, storedAll accs (adr + BitVec.ofNat 16 k) = some v →
          (vm'.vmpool p.1).vm_mem (p.2 + BitVec.ofNat 9 k) = v := by
  obtain ⟨vm, hrun, hp⟩ := (Paged.initial file).run accs
  obtain ⟨l, hl, hnodup, hlen⟩ := hp.chain
  refine ⟨vm, hrun, ⟨l, hl, ?_⟩, hp.unique, fun adr => ?_⟩
  · refine (List.subperm_of_subset hnodup fun i _ => List.mem_finRange i).perm_of_length_le ?_
    rw [List.length_finRange, hlen]
  · obtain ⟨vm', cb, hget, hp', hblk⟩ := hp.getbuf adr
    refine ⟨vm', (cb, adr.setWidth 9), by rw [Vm.rfetch, hget]; rfl, fun k hk v hv => ?_⟩
    have hadd : (adr + BitVec.ofNat 16 k).toNat = adr.toNat + k := by
      have hlt := adr.isLt
      rw [BitVec.toNat_add, BitVec.toNat_ofNat]
      omega
    have hplace : (adr + BitVec.ofNat 16 k).setWidth 9 = adr.setWidth 9 + BitVec.ofNat 9 k := by
      rw [← BitVec.toNat_inj, toNat_place, hadd, BitVec.toNat_add, toNat_place, BitVec.toNat_ofNat]
      omega
    rw [← hplace]
    refine hp'.resident cb _ v hv ?_
    rw [hblk, ← BitVec.toNat_inj, toNat_block, toNat_block, hadd]
    omega

end Cpm8000.Asm
