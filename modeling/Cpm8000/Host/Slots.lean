/-
# The slots of the open files

Every open file has one of sixteen slots, and a slot carries the address and the tag of the FCB it was
opened through. Opening and making a file first close what was open through the same FCB; the
implicit reopening, which serves the FCBs that have lost their slot, does not.

A step of the file layer is any of its functions, a warm boot, or anything a program does to its
memory. As long as no step reopens an FCB that another slot still carries, each FCB has one slot in
every state of a run, and as long as the FCBs at work are no more than sixteen, none lacks a slot:
`one_slot_run`.
-/
import Cpm8000.Sys.SlotTable
import Cpm8000.Sys.Run
import Cpm8000.Host.Router
import Cpm8000.Host.LoadFailure
import Cpm8000.Host.Randrec
import Cpm8000.Host.Size

namespace Cpm8000.Host

open Cpm8000.Sys SlotTable

/-! ## 1. The table -/

/-- What a slot carries of its FCB: the address and the tag. -/
abbrev SlotKey := BitVec 16 × BitVec 16

def OpenFile.key (f : OpenFile) : Option SlotKey :=
  if f.active then some (f.fcb_addr, f.fcb_seg) else none

theorem OpenFile.key_eq_some {f : OpenFile} {k : SlotKey} : f.key = some k ↔
    f.active = true ∧ f.fcb_addr = k.1 ∧ f.fcb_seg = k.2 := by
  obtain ⟨addr, seg⟩ := k
  unfold OpenFile.key
  by_cases h : f.active = true
  · rw [if_pos h, Option.some.injEq, Prod.mk.injEq, h, eq_self, true_and]
  · rw [if_neg h]
    exact ⟨fun hn => absurd hn (by simp), fun hf => absurd hf.1 h⟩

theorem OpenFile.key_eq_none {f : OpenFile} : f.key = none ↔ f.active = false := by
  unfold OpenFile.key
  cases f.active <;> simp

namespace CpmFileSystem

variable {fs : CpmFileSystem}

/-- The slots as a table: the active ones, by the FCB they carry. -/
def keys (fs : CpmFileSystem) : SlotTable 16 SlotKey := OpenFile.key ∘ fs.m_files

/-- The key of an FCB of the caller. -/
def key_of (fs : CpmFileSystem) (fcb_addr : BitVec 16) : SlotKey := (fcb_addr, fs.m_caller_tag)

@[simp] theorem close_slot_keys (slot : Fin 16) :
    (fs.close_slot slot).keys = Function.update fs.keys slot none :=
  Function.comp_update _ _ _ _

@[simp] theorem use_slot_keys (slot : Fin 16) (fp : Stream) (fcb_addr : BitVec 16) (path : Str) :
    (fs.use_slot slot fp fcb_addr path).keys =
      Function.update fs.keys slot (some (fs.key_of fcb_addr)) :=
  Function.comp_update _ _ _ _

/-- A slot whose stream alone is changed. -/
theorem fp_keys (slot : Fin 16) (fp : Stream) (host : HostFs) :
    ({ fs with
        m_files := Function.update fs.m_files slot { fs.m_files slot with fp := fp }
        host := host } : CpmFileSystem).keys = fs.keys := by
  refine (Function.comp_update _ _ _ _).trans ?_
  exact Function.update_eq_self slot fs.keys

@[simp] theorem seek_keys (slot : Fin 16) (offset : ℕ) : (fs.seek slot offset).keys = fs.keys :=
  fp_keys slot _ _

@[simp] theorem write_keys (slot : Fin 16) (buf : List Byte) : (fs.write slot buf).1.keys = fs.keys :=
  fp_keys slot _ _

@[simp] theorem mem_write_keys (a : BitVec 16) (v : Byte) : (fs.mem_write a v).keys = fs.keys := rfl

theorem init_fcb_keys (fcb_addr : BitVec 16) (s2 rc : Byte) (slot : Fin 16) :
    (fs.init_fcb fcb_addr s2 rc slot).keys = fs.keys := by
  obtain ⟨m, -, hinit⟩ := @init_fcb_eq fs fcb_addr s2 rc slot
  rw [hinit]
  rfl

theorem find_open_slot_eq_none : fs.find_open_slot = none ↔ ∀ i, fs.keys i ≠ none := by
  rw [← Option.not_isSome_iff_eq_none]
  constructor
  · intro h i hi
    exact h (find_open_slot_isSome i (OpenFile.key_eq_none.mp hi))
  · intro h hsome
    obtain ⟨slot, hslot⟩ := Option.isSome_iff_exists.mp hsome
    exact h slot (OpenFile.key_eq_none.mpr (find_open_slot_inactive hslot))

/-! ## 2. The operations on the table -/

/-- **`close_stale` releases the slots of its FCB**, and takes none. -/
theorem close_stale_keys (fcb_addr : BitVec 16) :
    Released fs.keys (fs.close_stale fcb_addr).keys ∧
      ∀ i, (fs.close_stale fcb_addr).keys i ≠ some (fs.key_of fcb_addr) := by
  have hrun : ∀ (l : List (Fin 16)) (s : CpmFileSystem), s.m_caller_tag = fs.m_caller_tag →
      let s' := l.foldl (fun fs i =>
        if (fs.m_files i).active ∧ (fs.m_files i).fcb_addr = fcb_addr ∧
            (fs.m_files i).fcb_seg = fs.m_caller_tag then fs.close_slot i else fs) s
      Released s.keys s'.keys ∧ ∀ i ∈ l, s'.keys i ≠ some (fs.key_of fcb_addr) := by
    intro l
    induction l with
    | nil => exact fun s _ => ⟨Released.refl _, fun i hi => absurd hi List.not_mem_nil⟩
    | cons i l ih =>
      intro s htag
      rw [List.foldl_cons]
      by_cases hc : (s.m_files i).active ∧ (s.m_files i).fcb_addr = fcb_addr ∧
          (s.m_files i).fcb_seg = s.m_caller_tag
      · rw [if_pos hc]
        obtain ⟨hrest, hl⟩ := ih (s.close_slot i) htag
        rw [close_slot_keys] at hrest
        refine ⟨(released_update _ i).trans hrest, fun j hj => ?_⟩
        rcases List.mem_cons.mp hj with rfl | hj
        · intro hj
          have hself := hrest _ _ hj
          rw [Function.update_self] at hself
          cases hself
        · exact hl j hj
      · rw [if_neg hc]
        obtain ⟨hrest, hl⟩ := ih s htag
        refine ⟨hrest, fun j hj => ?_⟩
        rcases List.mem_cons.mp hj with rfl | hj
        · intro hj
          obtain ⟨hactive, haddr, hseg⟩ := OpenFile.key_eq_some.mp (hrest _ _ hj)
          exact hc ⟨hactive, haddr, hseg.trans htag.symm⟩
        · exact hl j hj
  obtain ⟨hreleased, hall⟩ := hrun (List.finRange 16) fs rfl
  exact ⟨hreleased, fun i => hall i (List.mem_finRange i)⟩

theorem close_user_files_keys (system_tag : BitVec 16) :
    Released fs.keys (fs.close_user_files system_tag).keys := by
  refine close_user_files_induct (P := fun s => Released fs.keys s.keys) ?_ (fun _ h => h) system_tag
    (Released.refl _)
  intro s slot _ hs
  rw [close_slot_keys]
  exact hs.trans (released_update _ slot)

/-- The reopening of an FCB that no slot carries. -/
theorem reopen_works {fcb_addr : BitVec 16} (h : ∀ i, fs.keys i ≠ some (fs.key_of fcb_addr)) :
    Works (fs.key_of fcb_addr) fs.keys (fs.reopen fcb_addr).1.keys := by
  unfold reopen
  dsimp only
  cases fs.host.stat (fs.fcb_to_host_path fcb_addr) with
  | none => exact .inl (Released.refl _)
  | some n =>
    cases fs.find_open_slot with
    | none => exact .inl (Released.refl _)
    | some slot =>
      cases fs.fopen_update (fs.fcb_to_host_path fcb_addr) with
      | none => exact .inl (Released.refl _)
      | some fp => exact .inr ⟨fs.keys, slot, Released.refl _, h, use_slot_keys slot fp _ _⟩

theorem reopen_of_not {fcb_addr : BitVec 16}
    (h : ¬ ((fs.host.lookup (fs.fcb_to_host_path fcb_addr)).isSome ∧ fs.find_open_slot.isSome)) :
    fs.reopen fcb_addr = (fs, none) := by
  unfold reopen HostFs.stat
  dsimp only
  cases hl : fs.host.lookup (fs.fcb_to_host_path fcb_addr) with
  | none => rfl
  | some n =>
    cases hs : fs.find_open_slot with
    | none => rfl
    | some slot => exact absurd ⟨by rw [hl]; rfl, by rw [hs]; rfl⟩ h

/-- An FCB that holds no slot, and leads to a file, is opened anew only while no slot carries it but
the one its handle leads to, which is closed first. -/
def CarefulOpen (fs : CpmFileSystem) (fcb_addr : BitVec 16) : Prop :=
  fs.held_slot fcb_addr = none → (fs.host.lookup (fs.fcb_to_host_path fcb_addr)).isSome →
    ∀ i, fs.keys i = some (fs.key_of fcb_addr) → fs.find_file_by_fcb fcb_addr = some i

/-- **An operation that opens its FCB with care** works for the FCB's key. -/
theorem ensure_open_works {fcb_addr : BitVec 16} (h : fs.CarefulOpen fcb_addr) :
    Works (fs.key_of fcb_addr) fs.keys (fs.ensure_open fcb_addr).1.keys := by
  unfold CarefulOpen at h
  unfold ensure_open
  cases hf : fs.find_file_by_fcb fcb_addr with
  | none =>
    rw [held_slot, hf] at h
    by_cases hopens : (fs.host.lookup (fs.fcb_to_host_path fcb_addr)).isSome ∧
        fs.find_open_slot.isSome
    · refine reopen_works fun i hi => ?_
      have hfound := h rfl hopens.1 i hi
      cases hfound
    · dsimp only
      rw [reopen_of_not hopens]
      exact .inl (Released.refl _)
  | some slot =>
    dsimp only
    by_cases hp : (fs.m_files slot).host_path = fs.fcb_to_host_path fcb_addr
    · rw [if_pos hp]
      exact .inl (Released.refl _)
    · rw [if_neg hp]
      have hheld : fs.held_slot fcb_addr = none := by
        rw [held_slot, hf, Option.filter_some, if_neg (by simpa using hp)]
      have hclosed : Released fs.keys (fs.close_slot slot).keys := by
        rw [close_slot_keys]
        exact released_update _ slot
      by_cases hl : (fs.host.lookup (fs.fcb_to_host_path fcb_addr)).isSome
      · have hworks : Works ((fs.close_slot slot).key_of fcb_addr) (fs.close_slot slot).keys
            ((fs.close_slot slot).reopen fcb_addr).1.keys := by
          refine reopen_works fun i hi => ?_
          have hold := hclosed i _ hi
          have hfound := h hheld hl i hold
          rw [hf] at hfound
          obtain rfl := Option.some.inj hfound
          rw [close_slot_keys, Function.update_self] at hi
          cases hi
        rcases hworks with hr | ⟨u, i, hr, hk, ht⟩
        · exact .inl (hclosed.trans hr)
        · exact .inr ⟨u, i, hclosed.trans hr, hk, ht⟩
      · have hno : ¬ (((fs.close_slot slot).host.lookup
            ((fs.close_slot slot).fcb_to_host_path fcb_addr)).isSome ∧
            (fs.close_slot slot).find_open_slot.isSome) := by
          rintro ⟨hl', -⟩
          have hsame : (fs.close_slot slot).host.lookup (fs.fcb_to_host_path fcb_addr) =
              fs.host.lookup (fs.fcb_to_host_path fcb_addr) := HostFs.fclose_lookup _ _ _
          rw [close_slot_path, hsame] at hl'
          exact hl hl'
        rw [reopen_of_not hno]
        exact .inl hclosed

/-! ## 3. The functions -/

theorem read_record_keys (fcb_addr : BitVec 16) (slot : Fin 16) (offset : ℕ) :
    (fs.read_record fcb_addr slot offset).1.keys = fs.keys := by
  unfold read_record
  dsimp only
  split_ifs
  · exact seek_keys slot offset
  · exact seek_keys slot offset

theorem write_record_keys (fcb_addr : BitVec 16) (slot : Fin 16) (offset : ℕ) :
    (fs.write_record fcb_addr slot offset).1.keys = fs.keys := by
  have hwrite : ∀ buf, ((fs.seek slot offset).write slot buf).1.keys = fs.keys :=
    fun buf => (write_keys slot buf).trans (seek_keys slot offset)
  unfold write_record
  dsimp only
  split_ifs
  · exact hwrite _
  · exact hwrite _

theorem zero_fill_keys (slot : Fin 16) (offset : ℕ) (fs : CpmFileSystem) (cur_size : ℕ) :
    (zero_fill slot offset fs cur_size).keys = fs.keys := by
  fun_induction zero_fill slot offset fs cur_size with
  | case1 fs cur_size h chunk ih => rw [ih, write_keys]
  | case2 fs cur_size h => rfl

section opening

variable (fcb_addr : BitVec 16)

/-- An operation on an open file takes no slot of its own. -/
theorem with_open_keys {op : CpmFileSystem → Fin 16 → CpmFileSystem × ℕ}
    (h : ∀ s slot, (op s slot).1.keys = s.keys) :
    (fs.with_open fcb_addr op).1.keys = (fs.ensure_open fcb_addr).1.keys := by
  unfold with_open
  rcases fs.ensure_open fcb_addr with ⟨s, _ | slot⟩
  · rfl
  · exact h s slot

theorem file_read_seq_keys :
    (fs.file_read_seq fcb_addr).1.keys = (fs.ensure_open fcb_addr).1.keys :=
  with_open_keys fcb_addr fun _ slot => read_record_keys fcb_addr slot _

theorem file_write_seq_keys :
    (fs.file_write_seq fcb_addr).1.keys = (fs.ensure_open fcb_addr).1.keys :=
  with_open_keys fcb_addr fun _ slot => write_record_keys fcb_addr slot _

theorem file_read_rand_keys :
    (fs.file_read_rand fcb_addr).1.keys = (fs.ensure_open fcb_addr).1.keys :=
  with_open_keys fcb_addr fun _ slot => read_record_keys fcb_addr slot _

theorem file_write_rand_keys :
    (fs.file_write_rand fcb_addr).1.keys = (fs.ensure_open fcb_addr).1.keys :=
  with_open_keys fcb_addr fun _ slot => write_record_keys fcb_addr slot _

theorem file_write_rand_zf_keys :
    (fs.file_write_rand_zf fcb_addr).1.keys = (fs.ensure_open fcb_addr).1.keys := by
  unfold file_write_rand_zf
  rcases fs.ensure_open fcb_addr with ⟨s, _ | slot⟩
  · rfl
  · dsimp only
    refine (write_keys slot _).trans ((seek_keys slot _).trans ?_)
    split_ifs
    · rw [zero_fill_keys, seek_keys]
      exact fp_keys slot _ _
    · exact fp_keys slot _ _

theorem bdos_pgmld_keys (caller_tag lpb_offset : BitVec 16) (a : LoaderAddressing) :
    (bdos_pgmld fs caller_tag lpb_offset a).1.keys =
      (fs.ensure_open (offsetOf (read_long fs.m_mem (tagged caller_tag lpb_offset)))).1.keys := by
  have hread : ∀ fcb_addr, (read_program fs fcb_addr).1.keys = (fs.ensure_open fcb_addr).1.keys := by
    intro fcb_addr
    unfold read_program
    rcases fs.ensure_open fcb_addr with ⟨s, _ | slot⟩
    · rfl
    · dsimp only
      split_ifs
      · exact fp_keys slot _ _
      · exact fp_keys slot _ _
  rw [← hread]
  unfold bdos_pgmld
  dsimp only
  rcases read_program fs (offsetOf (read_long fs.m_mem (tagged caller_tag lpb_offset))) with
    ⟨s, code | fbuf⟩
  · rfl
  · rfl

theorem file_search_next_keys : fs.file_search_next.1.keys = fs.keys := by
  unfold file_search_next
  cases fs.m_search.active with
  | false => rfl
  | true =>
    cases fs.m_search.dirp with
    | none => rfl
    | some dirp =>
      dsimp only
      rcases fs.next_entry dirp with _ | ⟨d_name, rest⟩
      · rfl
      · dsimp only [keys]

theorem file_search_first_keys : (fs.file_search_first fcb_addr).1.keys = fs.keys := by
  have hclosed : fs.close_search.keys = fs.keys := rfl
  unfold file_search_first
  generalize fs.close_search = s at hclosed ⊢
  dsimp only
  cases s.search_drive fcb_addr with
  | none => exact hclosed
  | some drive =>
    dsimp only
    cases s.host.opendir (s.m_drive_paths drive) with
    | none => exact hclosed
    | some dirp =>
      dsimp only
      rw [file_search_next_keys]
      exact hclosed

theorem file_size_keys : (fs.file_size fcb_addr).1.keys = fs.keys := by
  unfold file_size
  split <;> rfl

theorem file_rename_keys : (fs.file_rename fcb_addr).1.keys = fs.keys := by
  unfold file_rename
  split <;> rfl

end opening

/-- Opening and making a file, after what was open through the FCB is closed. -/
theorem take_works {s : CpmFileSystem} (fcb_addr : BitVec 16) (slot : Fin 16)
    (hs : s.keys = Function.update (fs.close_stale fcb_addr).keys slot
      (some (fs.key_of fcb_addr))) : Works (fs.key_of fcb_addr) fs.keys s.keys :=
  .inr ⟨_, slot, (close_stale_keys fcb_addr).1, (close_stale_keys fcb_addr).2, hs⟩

theorem close_stale_key_of (fcb_addr : BitVec 16) :
    (fs.close_stale fcb_addr).key_of fcb_addr = fs.key_of fcb_addr := by
  rw [key_of, close_stale_tag, key_of]

theorem file_open_works (fcb_addr : BitVec 16) :
    Works (fs.key_of fcb_addr) fs.keys (fs.file_open fcb_addr).1.keys := by
  have hstale := (@close_stale_keys fs fcb_addr).1
  unfold file_open
  dsimp only
  split
  · exact .inl (Released.refl _)
  · split
    · exact .inl hstale
    · rename_i slot _
      split
      · exact .inl hstale
      · refine take_works fcb_addr slot ?_
        rw [init_fcb_keys, use_slot_keys, close_stale_key_of]

theorem file_make_works (fcb_addr : BitVec 16) :
    Works (fs.key_of fcb_addr) fs.keys (fs.file_make fcb_addr).1.keys := by
  have hstale := (@close_stale_keys fs fcb_addr).1
  unfold file_make
  dsimp only
  split
  · exact .inl hstale
  · rename_i slot _
    split
    · exact .inl hstale
    · refine take_works fcb_addr slot ?_
      rw [init_fcb_keys, use_slot_keys]
      exact congrArg _ (congrArg _ (close_stale_key_of fcb_addr))

theorem file_close_released (fcb_addr : BitVec 16) :
    Released fs.keys (fs.file_close fcb_addr).1.keys := by
  unfold file_close
  split
  · exact Released.refl _
  · rename_i slot _
    rw [mem_write_keys, close_slot_keys]
    exact released_update _ slot

theorem file_delete_released (fcb_addr : BitVec 16) :
    Released fs.keys (fs.file_delete fcb_addr).1.keys := by
  unfold file_delete
  dsimp only
  cases fs.find_file_by_fcb fcb_addr with
  | none =>
    dsimp only
    rcases fs.host.unlink (fs.fcb_to_host_path fcb_addr) with ⟨host, _ | _⟩
    · exact Released.refl _
    · exact Released.refl _
  | some slot =>
    have hclosed : Released fs.keys (fs.close_slot slot).keys := by
      rw [close_slot_keys]
      exact released_update _ slot
    dsimp only
    rcases (fs.close_slot slot).host.unlink (fs.fcb_to_host_path fcb_addr) with ⟨host, _ | _⟩
    · exact hclosed
    · exact hclosed

end CpmFileSystem

/-! ## 4. Runs of the file layer -/

/-- A step of a run: an FCB function, by its number; `F_SNEXT`; `PGMLD`; a warm boot; or anything a
program does by itself. -/
inductive LayerStep
  | call (func : ℕ) (fcb_addr : BitVec 16)
  | search_next
  | pgmld (addressing : LoaderAddressing) (caller_tag lpb_offset : BitVec 16)
  | warm_boot (system_tag : BitVec 16)
  | program (mem : CpmFileSystem.Mapped) (dma_addr : BitVec 32) (caller_tag : BitVec 16)
      (current_drive : ℕ) (user : Byte)

namespace LayerStep

/-- The state after a step, and the code it returns. -/
def step (fs : CpmFileSystem) : LayerStep → CpmFileSystem × ℕ
  | call func fcb_addr => fcb_op func fs fcb_addr
  | search_next => fs.file_search_next
  | pgmld addressing caller_tag lpb_offset => bdos_pgmld fs caller_tag lpb_offset addressing
  | warm_boot system_tag => (fs.close_user_files system_tag, 0)
  | program mem dma_addr caller_tag current_drive user =>
    ({ fs with
        m_mem := mem.1
        m_dma_addr := dma_addr
        m_caller_tag := caller_tag
        m_current_drive := current_drive
        m_user := user }, 0)

/-- The FCB whose file a step opens where the FCB holds no slot: `ensure_open`. -/
def reopens (fs : CpmFileSystem) : LayerStep → Option (BitVec 16)
  | call func fcb_addr => if func ∈ [20, 21, 33, 34, 40] then some fcb_addr else none
  | pgmld _ caller_tag lpb_offset =>
    some (offsetOf (read_long fs.m_mem (tagged caller_tag lpb_offset)))
  | _ => none

/-- The FCB a step needs a slot for. -/
def serves (fs : CpmFileSystem) : LayerStep → Option (BitVec 16)
  | call func fcb_addr => if func ∈ [15, 20, 21, 22, 33, 34, 40] then some fcb_addr else none
  | st => reopens fs st

/-- **Care**: a step that opens an FCB anew does so while no other slot carries it. -/
def Careful (fs : CpmFileSystem) (st : LayerStep) : Prop :=
  ∀ fcb_addr, st.reopens fs = some fcb_addr → fs.CarefulOpen fcb_addr

/-- A step fails for want of a slot: its file is there, or is to be made, and no slot is free where
the function looks for one. -/
def Starved (fs : CpmFileSystem) : LayerStep → Prop
  | call 15 fcb_addr => (fs.host.lookup (fs.fcb_to_host_path fcb_addr)).isSome ∧
      (fs.close_stale fcb_addr).find_open_slot = none
  | call 22 fcb_addr => (fs.close_stale fcb_addr).find_open_slot = none
  | st => ∃ fcb_addr, st.reopens fs = some fcb_addr ∧ fs.held_slot fcb_addr = none ∧
      (fs.host.lookup (fs.fcb_to_host_path fcb_addr)).isSome ∧ fs.new_slot fcb_addr = none

theorem serves_of_reopens {fs : CpmFileSystem} {st : LayerStep} {fcb_addr : BitVec 16}
    (h : st.reopens fs = some fcb_addr) : st.serves fs = some fcb_addr := by
  cases st with
  | call func addr =>
    have hmem : func ∈ [20, 21, 33, 34, 40] := by
      by_contra hnot
      rw [reopens, if_neg hnot] at h
      cases h
    have hmem' : func ∈ [15, 20, 21, 22, 33, 34, 40] := by
      fin_cases hmem <;> decide
    rw [reopens, if_pos hmem] at h
    rw [serves, if_pos hmem', h]
  | search_next => cases h
  | pgmld addressing caller_tag lpb_offset => exact h
  | warm_boot system_tag => cases h
  | program mem dma_addr caller_tag current_drive user => cases h

theorem careful_of_reopens {fs : CpmFileSystem} {st : LayerStep} (h : st.reopens fs = none) :
    st.Careful fs := by
  intro fcb_addr hr
  rw [h] at hr
  cases hr

/-- The FCBs at work at a step: those that have a slot, and the one the step is for. -/
def atWork (fs : CpmFileSystem) (st : LayerStep) : Finset SlotKey :=
  match st.serves fs with
  | some fcb_addr => insert (fs.key_of fcb_addr) (held fs.keys)
  | none => held fs.keys

end LayerStep

namespace CpmFileSystem

variable {fs : CpmFileSystem}

theorem works_of_eq {k : SlotKey} {t t' : SlotTable 16 SlotKey} (h : t' = t) : Works k t t' :=
  .inl (h ▸ Released.refl t)

/-- **What a function does to the table**: slots are released, and one is taken for its FCB. -/
theorem fcb_op_works (func : ℕ) (fcb_addr : BitVec 16)
    (hc : func ∈ [20, 21, 33, 34, 40] → fs.CarefulOpen fcb_addr) :
    Works (fs.key_of fcb_addr) fs.keys (fcb_op func fs fcb_addr).1.keys := by
  have hopen : func ∈ [20, 21, 33, 34, 40] →
      Works (fs.key_of fcb_addr) fs.keys (fs.ensure_open fcb_addr).1.keys :=
    fun h => ensure_open_works (hc h)
  unfold fcb_op
  split
  · exact file_open_works fcb_addr
  · exact .inl (file_close_released fcb_addr)
  · exact works_of_eq (file_search_first_keys fcb_addr)
  · exact .inl (file_delete_released fcb_addr)
  · rw [file_read_seq_keys]
    exact hopen (by decide)
  · rw [file_write_seq_keys]
    exact hopen (by decide)
  · exact file_make_works fcb_addr
  · exact works_of_eq (file_rename_keys fcb_addr)
  · exact works_of_eq rfl
  · rw [file_read_rand_keys]
    exact hopen (by decide)
  · rw [file_write_rand_keys]
    exact hopen (by decide)
  · exact works_of_eq (file_size_keys fcb_addr)
  · exact works_of_eq rfl
  · rw [file_write_rand_zf_keys]
    exact hopen (by decide)
  · exact works_of_eq rfl

/-- **What a step does to the table.** -/
theorem step_works (st : LayerStep) (hc : st.Careful fs) :
    ∃ k, Works k fs.keys (st.step fs).1.keys := by
  cases st with
  | call func fcb_addr =>
    refine ⟨_, fcb_op_works func fcb_addr fun h => hc fcb_addr ?_⟩
    exact if_pos h
  | search_next => exact ⟨fs.key_of 0, works_of_eq file_search_next_keys⟩
  | pgmld addressing caller_tag lpb_offset =>
    refine ⟨fs.key_of (offsetOf (read_long fs.m_mem (tagged caller_tag lpb_offset))), ?_⟩
    rw [LayerStep.step, bdos_pgmld_keys]
    exact ensure_open_works (hc _ rfl)
  | warm_boot system_tag => exact ⟨fs.key_of 0, .inl (close_user_files_keys system_tag)⟩
  | program mem dma_addr caller_tag current_drive user => exact ⟨fs.key_of 0, works_of_eq rfl⟩

/-! ## 5. One slot for each FCB -/

/-- Every open slot is one that opening a file through the FCB it carries closes. -/
def Releasable (fs : CpmFileSystem) : Prop :=
  ∀ i, (fs.m_files i).active = true →
    ((({ fs with m_caller_tag := (fs.m_files i).fcb_seg }).close_stale
      (fs.m_files i).fcb_addr).m_files i).active = false

theorem releasable (fs : CpmFileSystem) : Releasable fs := by
  intro i hi
  obtain ⟨hreleased, hno⟩ := @close_stale_keys
    { fs with m_caller_tag := (fs.m_files i).fcb_seg } (fs.m_files i).fcb_addr
  have hkey : fs.keys i = some ((fs.m_files i).fcb_addr, (fs.m_files i).fcb_seg) := if_pos hi
  rw [← OpenFile.key_eq_none]
  by_contra hne
  obtain ⟨k, hk⟩ := Option.ne_none_iff_exists'.mp hne
  have hold : fs.keys i = some k := hreleased i k hk
  exact hno i (hk.trans (hold.symm.trans hkey))

/-- A table with no free slot has a slot for every FCB, when the FCBs at work are sixteen at most. -/
theorem key_of_mem {s : CpmFileSystem} {k : SlotKey} (hu : Unique s.keys)
    (hfull : s.find_open_slot = none) (hcard : (insert k (held s.keys)).card ≤ 16) :
    ∃ i, s.keys i = some k := by
  by_contra hno
  rw [not_exists] at hno
  obtain ⟨i, hi⟩ := hu.exists_free hno hcard
  exact find_open_slot_eq_none.mp hfull i hi

/-- After the stale slots of an FCB are closed there is a slot for it. -/
theorem close_stale_free {fcb_addr : BitVec 16} (hu : Unique fs.keys)
    (hcard : (insert (fs.key_of fcb_addr) (held fs.keys)).card ≤ 16) :
    (fs.close_stale fcb_addr).find_open_slot ≠ none := by
  obtain ⟨hreleased, hno⟩ := @close_stale_keys fs fcb_addr
  intro hfull
  have hle := Finset.card_le_card (Finset.insert_subset_insert (fs.key_of fcb_addr)
    hreleased.held_subset)
  obtain ⟨i, hi⟩ := key_of_mem (hu.released hreleased) hfull (hle.trans hcard)
  exact hno i hi

/-- An FCB that is opened anew with care has a slot. -/
theorem new_slot_ne_none {fcb_addr : BitVec 16} (hu : Unique fs.keys)
    (hcard : (insert (fs.key_of fcb_addr) (held fs.keys)).card ≤ 16)
    (hc : fs.CarefulOpen fcb_addr) (hheld : fs.held_slot fcb_addr = none)
    (hl : (fs.host.lookup (fs.fcb_to_host_path fcb_addr)).isSome) :
    fs.new_slot fcb_addr ≠ none := by
  intro hnone
  unfold new_slot at hnone
  cases hf : fs.find_file_by_fcb fcb_addr with
  | some slot =>
    rw [hf] at hnone
    have hfree : (fs.close_slot slot).find_open_slot.isSome := by
      apply find_open_slot_isSome slot
      simp [close_slot]
    dsimp only at hnone
    rw [hnone] at hfree
    cases hfree
  | none =>
    rw [hf] at hnone
    obtain ⟨i, hi⟩ := key_of_mem hu hnone hcard
    have hfound := hc hheld hl i hi
    rw [hf] at hfound
    cases hfound

/-- **No step lacks a slot** while each FCB has one slot and sixteen FCBs are at work at most. -/
theorem not_starved (hu : Unique fs.keys) {st : LayerStep} (hc : st.Careful fs)
    (hcard : (st.atWork fs).card ≤ 16) : ¬ st.Starved fs := by
  intro hstarved
  have hreopens : ∀ fcb_addr, st.reopens fs = some fcb_addr → fs.held_slot fcb_addr = none →
      (fs.host.lookup (fs.fcb_to_host_path fcb_addr)).isSome → fs.new_slot fcb_addr ≠ none := by
    intro fcb_addr hr hheld hl
    refine new_slot_ne_none hu ?_ (hc fcb_addr hr) hheld hl
    have hserves : st.serves fs = some fcb_addr := LayerStep.serves_of_reopens hr
    rw [LayerStep.atWork, hserves] at hcard
    exact hcard
  unfold LayerStep.Starved at hstarved
  split at hstarved
  · exact close_stale_free hu hcard hstarved.2
  · exact close_stale_free hu hcard hstarved
  · obtain ⟨fcb_addr, hr, hheld, hl, hnone⟩ := hstarved
    exact hreopens fcb_addr hr hheld hl hnone

/-- **One slot for each FCB, in every run**: where every step that opens an FCB anew does so while no
other slot carries the FCB, no FCB has two slots, every slot can be closed, and no step fails for
want of a slot with sixteen FCBs at work. -/
theorem one_slot_run {fs₀ fs : CpmFileSystem} {tr : List (LayerStep × ℕ)}
    (h₀ : ∀ i, (fs₀.m_files i).active = false)
    (h : Run LayerStep.step (fun s st => st.Careful s) fs₀ tr fs) :
    Unique fs.keys ∧ Releasable fs ∧
      ∀ st : LayerStep, st.Careful fs → (st.atWork fs).card ≤ 16 → ¬ st.Starved fs := by
  have hu : Unique fs.keys := by
    refine h.invariant (I := fun s => Unique s.keys) ?_ ?_
    · intro i j k hi _
      have hnone : fs₀.keys i = none := OpenFile.key_eq_none.mpr (h₀ i)
      rw [hnone] at hi
      cases hi
    · intro s st hs hc
      obtain ⟨k, hk⟩ := step_works st hc
      exact hs.works hk
  exact ⟨hu, releasable fs, fun st hc hcard => not_starved hu hc hcard⟩

/-- The program sets up its FCB again, as it was before the file was opened. -/
def anewA : LayerStep := .program ⟨emptyA.m_mem, .z8002⟩ 0x01000080 0x0100 0 0

/-- A is opened and closed, and its FCB set up again. -/
def closedA : CpmFileSystem :=
  (anewA.step ((LayerStep.call 16 0x5c).step ((LayerStep.call 15 0x5c).step emptyA).1).1).1

/-- A record is then read. -/
theorem one_slot_run_closed : Unique ((LayerStep.call 20 0x5c).step closedA).1.keys := by
  have hno : ∀ i, closedA.keys i ≠ some (closedA.key_of 0x5c) := by decide +kernel
  have hcareful : LayerStep.Careful closedA (.call 20 0x5c) := by
    intro fcb_addr h
    obtain rfl : 0x5c = fcb_addr := Option.some.inj h
    exact fun _ _ i hi => absurd hi (hno i)
  have hclosed : Run LayerStep.step (fun s st => LayerStep.Careful s st) emptyA _ closedA :=
    ((Run.nil.snoc (LayerStep.careful_of_reopens rfl)).snoc (LayerStep.careful_of_reopens rfl)).snoc
      (LayerStep.careful_of_reopens rfl)
  exact (one_slot_run (fun _ => rfl) (hclosed.snoc hcareful)).1

/-- **A is opened, its FCB set up again, and a record read**: two slots carry the FCB. -/
theorem anewA_not_unique : ¬ ∀ (tr : List (LayerStep × ℕ)) (fs : CpmFileSystem),
    Run LayerStep.step (fun _ _ => True) emptyA tr fs → Unique fs.keys := by
  intro h
  have hu := h _ _ (((Run.nil.snoc (i := .call 15 0x5c) trivial).snoc (i := anewA) trivial).snoc
    (i := .call 20 0x5c) trivial)
  have htwo : (0 : Fin 16) = 1 := hu 0 1 (0x5c, 0x0100) (by decide +kernel) (by decide +kernel)
  revert htwo
  decide

end CpmFileSystem

end Cpm8000.Host
