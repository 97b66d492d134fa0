/-
# The handle in an FCB

`file_close` and `file_delete` close the slot whose number the FCB carries. The number was stored
when some file was opened through the FCB, or came with the bytes of another FCB; `ensure_open`
compares the slot's path with the FCB's before it uses the slot, and these two do not.

`ActsOnNamed` says of one state and one FCB that both functions act on the file the FCB names and on
no other. `acts_on_named_iff` says when they do: where the handle leads to no slot, or to one of the
FCB's own path which is the only one left of that path and that FCB.
-/
import Cpm8000.Host.Slots

namespace Cpm8000.Host

open Cpm8000.Sys

/-! ## 1. What may be released -/

/-- **Of the slots, none is touched but those of a path.** -/
structure OnlyNamed (path : Str) (files files' : Fin 16 → OpenFile) : Prop where
  released : ∀ i, (files i).active = true → (files' i).active = false → (files i).host_path = path
  others : ∀ i, (files i).host_path ≠ path → files' i = files i

theorem OnlyNamed.refl (path : Str) (files : Fin 16 → OpenFile) : OnlyNamed path files files where
  released i hactive hfree := by
    rw [hactive] at hfree
    cases hfree
  others _ _ := rfl

namespace CpmFileSystem

variable {fs : CpmFileSystem}

theorem close_slot_self (fs : CpmFileSystem) (slot : Fin 16) :
    (fs.close_slot slot).m_files slot = { fs.m_files slot with active := false } :=
  Function.update_self _ _ _

theorem close_slot_other {i slot : Fin 16} (h : i ≠ slot) :
    (fs.close_slot slot).m_files i = fs.m_files i :=
  Function.update_of_ne h _ _

/-- Closing an open slot. -/
theorem onlyNamed_close_slot {slot : Fin 16} {path : Str} (h : (fs.m_files slot).active = true) :
    OnlyNamed path fs.m_files (fs.close_slot slot).m_files ↔ (fs.m_files slot).host_path = path := by
  constructor
  · intro hnamed
    exact hnamed.released slot h (by rw [close_slot_self])
  · intro hpath
    constructor
    · intro i hactive hfree
      by_cases hi : i = slot
      · rw [hi, hpath]
      · rw [close_slot_other hi, hactive] at hfree
        cases hfree
    · intro i hne
      refine close_slot_other ?_
      rintro rfl
      exact hne hpath

/-! ## 2. Closing and deleting -/

theorem file_close_of_none {fcb_addr : BitVec 16} (h : fs.find_file_by_fcb fcb_addr = none) :
    fs.file_close fcb_addr = (fs, 0xff) := by
  rw [file_close, h]

theorem file_close_of_some {fcb_addr : BitVec 16} {slot : Fin 16}
    (h : fs.find_file_by_fcb fcb_addr = some slot) :
    fs.file_close fcb_addr = ((fs.close_slot slot).mem_write (fcb_addr + FCB_AL + 1) 0, 0) := by
  rw [file_close, h]

theorem file_delete_files_of_none {fcb_addr : BitVec 16}
    (h : fs.find_file_by_fcb fcb_addr = none) :
    (fs.file_delete fcb_addr).1.m_files = fs.m_files := by
  rw [file_delete, h]
  dsimp only
  rcases fs.host.unlink (fs.fcb_to_host_path fcb_addr) with ⟨host, _ | _⟩
  · rfl
  · rfl

theorem file_delete_files_of_some {fcb_addr : BitVec 16} {slot : Fin 16}
    (h : fs.find_file_by_fcb fcb_addr = some slot) :
    (fs.file_delete fcb_addr).1.m_files = (fs.close_slot slot).m_files := by
  rw [file_delete, h]
  dsimp only
  rcases (fs.close_slot slot).host.unlink (fs.fcb_to_host_path fcb_addr) with ⟨host, _ | _⟩
  · rfl
  · rfl

/-- A slot is open through an FCB of the caller, for the path the FCB names. -/
def OpenThrough (fs : CpmFileSystem) (fcb_addr : BitVec 16) (f : OpenFile) : Prop :=
  f.key = some (fs.key_of fcb_addr) ∧ f.host_path = fs.fcb_to_host_path fcb_addr

/-- **Closing and deleting act on the file that the FCB names**: no slot of another path is touched,
and once the FCB is closed no slot is open through it for that path. -/
structure ActsOnNamed (fs : CpmFileSystem) (fcb_addr : BitVec 16) : Prop where
  close : OnlyNamed (fs.fcb_to_host_path fcb_addr) fs.m_files (fs.file_close fcb_addr).1.m_files
  delete : OnlyNamed (fs.fcb_to_host_path fcb_addr) fs.m_files (fs.file_delete fcb_addr).1.m_files
  closed : (fs.file_close fcb_addr).2 = 0 →
    ∀ i, ¬ fs.OpenThrough fcb_addr ((fs.file_close fcb_addr).1.m_files i)

/-- The handle leads to no slot, or to one of the FCB's own path, beside which no slot is open
through the FCB for that path. -/
def OwnHandle (fs : CpmFileSystem) (fcb_addr : BitVec 16) : Prop :=
  ∀ slot, fs.find_file_by_fcb fcb_addr = some slot →
    (fs.m_files slot).host_path = fs.fcb_to_host_path fcb_addr ∧
      ∀ i, i ≠ slot → ¬ fs.OpenThrough fcb_addr (fs.m_files i)

/-- **Closing and deleting act on the file that the FCB names exactly where its handle is its own**,
whatever the slots and the FCB hold. -/
theorem acts_on_named_iff (fs : CpmFileSystem) (fcb_addr : BitVec 16) :
    ActsOnNamed fs fcb_addr ↔ OwnHandle fs fcb_addr := by
  cases hf : fs.find_file_by_fcb fcb_addr with
  | none =>
    have hclose := file_close_of_none hf
    constructor
    · intro _ slot hslot
      rw [hf] at hslot
      cases hslot
    · intro _
      constructor
      · rw [hclose]
        exact OnlyNamed.refl _ _
      · rw [file_delete_files_of_none hf]
        exact OnlyNamed.refl _ _
      · intro hzero
        rw [hclose] at hzero
        cases hzero
  | some slot =>
    have hactive := find_file_by_fcb_active hf
    have hclose := file_close_of_some hf
    have hfiles : (fs.file_close fcb_addr).1.m_files = (fs.close_slot slot).m_files := by
      rw [hclose]
      rfl
    have hself : ((fs.close_slot slot).m_files slot).key = none := by
      rw [close_slot_self]
      rfl
    constructor
    · rintro ⟨hnamed, -, hclosed⟩ slot' hslot'
      obtain rfl : slot = slot' := Option.some.inj (hf.symm.trans hslot')
      rw [hfiles] at hnamed hclosed
      refine ⟨(onlyNamed_close_slot hactive).mp hnamed, fun i hi => ?_⟩
      rw [← close_slot_other hi]
      exact hclosed (by rw [hclose]) i
    · intro hown
      obtain ⟨hpath, halone⟩ := hown slot hf
      constructor
      · rw [hfiles]
        exact (onlyNamed_close_slot hactive).mpr hpath
      · rw [file_delete_files_of_some hf]
        exact (onlyNamed_close_slot hactive).mpr hpath
      · intro _ i
        rw [hfiles]
        by_cases hi : i = slot
        · rintro ⟨hkey, -⟩
          rw [hi, hself] at hkey
          cases hkey
        · rw [close_slot_other hi]
          exact halone i hi

/-- The FCB of A, open in the first slot, with the name B in it. -/
def renamedB : LayerStep :=
  .program ⟨(sample (0 :: 0x42 :: List.replicate 10 0x20 ++ [0, 0, 0x80, 0, 1, 1]) []).m_mem, .z8002⟩
    0x01000080 0x0100 0 0

/-- **A is opened, and the FCB's name made B**: closing the FCB, or deleting B through it, closes
A. -/
theorem renamedB_not_acts_on_named : ¬ ∀ (tr : List (LayerStep × ℕ)) (fs : CpmFileSystem),
    Run LayerStep.step (fun _ _ => True) emptyA tr fs → ActsOnNamed fs 0x5c := by
  intro h
  have hacts := h _ _ ((Run.nil.snoc (i := .call 15 0x5c) trivial).snoc (i := renamedB) trivial)
  have hpath := hacts.close.released 0 (by decide +kernel) (by decide +kernel)
  revert hpath
  decide +kernel

end CpmFileSystem

end Cpm8000.Host
