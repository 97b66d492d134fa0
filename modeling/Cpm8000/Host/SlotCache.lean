/-
# The slots as a cache

An FCB names its file by a path, and the slot it holds is a stream that was opened for that path
before. `LayerStep.anew` serves the same steps without slots: each opens the path the FCB names, acts
on the file and closes it again.

A slot stands for its path as long as opening the path anew would give the slot's stream (`Warm`).
Every step keeps that but two: a file is renamed, or deleted, while another slot is open for its
path. In every run without such a step the slots cannot be told from opening each time:
`slots_transparent`.
-/
import Cpm8000.Host.Handles
import Cpm8000.Host.MakeSearch

namespace Cpm8000.Host

open Cpm8000.Sys

/-! ## 1. Opening anew -/

namespace HostFs

variable {h h' : HostFs} {path q old new : Str}

/-- `fopen` for update, and for reading where that fails. -/
def open_anew (h : HostFs) (path : Str) : Option Stream :=
  match h.fopen_rp path with
  | some fp => some fp
  | none => h.fopen_r path

theorem open_anew_eq (h : HostFs) (path : Str) : h.open_anew path =
    (h.lookup path).map fun n => ⟨n.inode, !(n.isdir || n.readonly), 0, []⟩ := by
  unfold open_anew fopen_rp fopen_r
  cases h.lookup path with
  | none => rfl
  | some n => cases hd : n.isdir <;> cases hr : n.readonly <;> simp [hd, hr]

theorem open_anew_congr (hl : h'.lookup path = h.lookup path) :
    h'.open_anew path = h.open_anew path := by
  rw [open_anew_eq, open_anew_eq, hl]

theorem open_anew_eq_none : h.open_anew path = none ↔ h.lookup path = none := by
  rw [open_anew_eq, Option.map_eq_none_iff]

theorem fopen_wp_none (hf : h.fopen_wp path = (h', none)) : h' = h := by
  unfold fopen_wp at hf
  split at hf
  · split_ifs at hf
    · exact (Prod.mk.inj hf).1.symm
    · cases (Prod.mk.inj hf).2
  · split_ifs at hf
    · cases (Prod.mk.inj hf).2
    · exact (Prod.mk.inj hf).1.symm

/-- The host renames a file, and not to itself. -/
def Renames (h : HostFs) (old new : Str) : Prop :=
  (∃ n, h.lookup old = some n ∧ n.isdir = false) ∧ (∀ t, h.lookup new = some t → t.isdir = false) ∧
    (h.lookup new = none → h.can_create new) ∧ h.key old ≠ h.key new

/-- The names a renaming leaves alone. -/
theorem find?_renamed (h : HostFs) {p : Node → Bool} (hp : ∀ x, h.key x.path = h.key q → p x = true)
    (hold : h.key q ≠ h.key old) (hnew : h.key q ≠ h.key new) (l : List Node) :
    (((l.filter p).map fun x => if h.key x.path = h.key old then { x with path := new } else x).find?
      fun x => h.key x.path = h.key q) = l.find? fun x => h.key x.path = h.key q := by
  induction l with
  | nil => rfl
  | cons x l ih =>
    by_cases hx : h.key x.path = h.key q
    · have hne : ¬ h.key x.path = h.key old := fun heq => hold (hx.symm.trans heq)
      rw [List.filter_cons_of_pos (hp x hx), List.map_cons, if_neg hne,
        List.find?_cons_of_pos (by simpa using hx), List.find?_cons_of_pos (by simpa using hx)]
    · rw [List.find?_cons_of_neg (by simpa using hx), ← ih]
      by_cases hpx : p x = true
      · rw [List.filter_cons_of_pos hpx, List.map_cons, List.find?_cons_of_neg]
        rw [decide_eq_true_eq]
        split_ifs
        · exact fun heq => hnew heq.symm
        · exact hx
      · rw [List.filter_cons_of_neg hpx]

/-- **What a renaming does to the other names**: nothing. -/
theorem rename_cases (h : HostFs) (old new : Str) :
    (h.rename old new).1 = h ∨ h.Renames old new ∧ (h.rename old new).1.buffered = h.buffered ∧
      ∀ q, h.key q ≠ h.key old → h.key q ≠ h.key new →
        (h.rename old new).1.lookup q = h.lookup q := by
  unfold rename
  cases hn : h.lookup old with
  | none => exact .inl rfl
  | some n =>
    dsimp only
    cases ht : h.lookup new with
    | some t =>
      dsimp only
      split_ifs with hd hkey
      · exact .inl rfl
      · exact .inl rfl
      · rw [not_or, Bool.not_eq_true, Bool.not_eq_true] at hd
        refine .inr ⟨⟨⟨n, hn, hd.2⟩, fun t' ht' => ?_, fun hnone => ?_, hkey⟩, rfl, ?_⟩
        · rw [← Option.some.inj (ht.symm.trans ht')]
          exact hd.1
        · rw [ht] at hnone
          cases hnone
        · intro q hold hnew
          exact find?_renamed h (fun x hx => by simpa using fun heq => hnew (hx.symm.trans heq)) hold
            hnew h.nodes
    | none =>
      dsimp only
      split_ifs with hc
      · have hkey : h.key old ≠ h.key new := by
          intro heq
          rw [lookup_congr heq, ht] at hn
          cases hn
        refine .inr ⟨⟨⟨n, hn, by simpa using hc.2⟩, fun t' ht' => ?_, fun _ => hc.1, hkey⟩, rfl, ?_⟩
        · rw [ht] at ht'
          cases ht'
        · intro q hold hnew
          have hfind := find?_renamed h (p := fun _ => true) (fun _ _ => rfl) hold hnew h.nodes
          rw [List.filter_true] at hfind
          exact hfind
      · exact .inl rfl

/-- A write that is not held back. -/
theorem fwrite_cases (hb : h.buffered = false) (fp : Stream) (buf : List Byte) :
    h.fwrite fp buf = (h.setData fp.inode (overwrite (h.data fp.inode) fp.pos buf),
        { fp with pos := fp.pos + buf.length }, buf.length) ∨ h.fwrite fp buf = (h, fp, 0) := by
  unfold fwrite
  split_ifs with hw hbuf
  · rw [hb] at hbuf
    cases hbuf
  · exact .inl rfl
  · exact .inr rfl

/-- Nothing is left to flush after a write that is not held back. -/
theorem fwrite_fclose (hb : h.buffered = false) {fp : Stream} (hp : fp.pending = [])
    (buf : List Byte) : (h.fwrite fp buf).1.fclose (h.fwrite fp buf).2.1 = (h.fwrite fp buf).1 := by
  have hpending : (h.fwrite fp buf).2.1.pending = [] := by
    rcases fwrite_cases hb fp buf with hw | hw
    · rw [hw]
      exact hp
    · rw [hw]
      exact hp
  rw [fclose, fflush_of_nil _ _ hpending]

end HostFs

/-! ## 2. The operations without slots -/

/-- What an operation answers: the files after it, its code, and the record it delivers. -/
structure Answer where
  host : HostFs
  code : ℕ
  record : Option (List Byte)

namespace HostFs

/-- A record read from a file that is opened for it. -/
def read_anew (h : HostFs) (path : Str) (offset : ℕ) : Answer :=
  match h.open_anew path with
  | none => ⟨h, 0xff, none⟩
  | some fp =>
    let s := h.fseek fp offset
    let got := s.1.fread s.2 128
    if got.length = 0 then ⟨s.1, 1, none⟩
    else ⟨s.1, 0, some (got ++ List.replicate (128 - got.length) 0x1a)⟩

/-- A record written to a file that is opened for it, and closed after it. -/
def write_anew (h : HostFs) (path : Str) (offset : ℕ) (buf : List Byte) : Answer :=
  match h.open_anew path with
  | none => ⟨h, 0xff, none⟩
  | some fp =>
    let s := h.fseek fp offset
    let w := s.1.fwrite s.2 buf
    ⟨w.1.fclose w.2.1, if w.2.2 ≠ 128 then 1 else 0, none⟩

/-- A file made, and closed. -/
def make_anew (h : HostFs) (path : Str) : Answer :=
  match h.fopen_wp path with
  | (h, none) => ⟨h, 0xff, none⟩
  | (h, some fp) => ⟨h.fclose fp, 0, none⟩

/-- The code of a call that succeeds or not. -/
def answered (r : HostFs × Bool) : Answer := ⟨r.1, if r.2 then 0 else 0xff, none⟩

end HostFs

open CpmFileSystem

/-- **A step without slots**: the FCB says all there is to know. Opening and closing leave the files
alone, and so do the steps that are none of an FCB. -/
def LayerStep.anew (fs : CpmFileSystem) (h : HostFs) : LayerStep → Answer
  | .call func fcb_addr =>
    let path := fs.fcb_to_host_path fcb_addr
    match func with
    | 15 => ⟨h, if (h.open_anew path).isSome then 0 else 0xff, none⟩
    | 19 => HostFs.answered (h.unlink path)
    | 20 => h.read_anew path (fs.compute_file_offset fcb_addr)
    | 21 => h.write_anew path (fs.compute_file_offset fcb_addr) fs.dma_record
    | 22 => h.make_anew path
    | 23 => HostFs.answered (h.rename path (fs.rename_path fcb_addr))
    | 33 => h.read_anew path (fs.compute_random_offset fcb_addr)
    | 34 => h.write_anew path (fs.compute_random_offset fcb_addr) fs.dma_record
    | _ => ⟨h, 0, none⟩
  | _ => ⟨h, 0, none⟩

/-- The steps of a run: opening, closing, deleting, reading, writing, making and renaming, a warm
boot, and whatever a program does to its memory. -/
def LayerStep.Counted : LayerStep → Prop
  | .call func _ => func ∈ [15, 16, 19, 20, 21, 22, 23, 33, 34]
  | .warm_boot _ => True
  | .program .. => True
  | _ => False

instance : (st : LayerStep) → Decidable st.Counted
  | .call _ _ => inferInstanceAs (Decidable (_ ∈ _))
  | .search_next => inferInstanceAs (Decidable False)
  | .pgmld .. => inferInstanceAs (Decidable False)
  | .warm_boot _ => inferInstanceAs (Decidable True)
  | .program .. => inferInstanceAs (Decidable True)

namespace CpmFileSystem

variable {fs s : CpmFileSystem} {fcb_addr : BitVec 16}

/-- The position a read or a write is at. -/
def position (fs : CpmFileSystem) (func : ℕ) (fcb_addr : BitVec 16) : ℕ :=
  if func = 20 ∨ func = 21 then fs.compute_file_offset fcb_addr
  else fs.compute_random_offset fcb_addr

/-- The memory after a read: the handle is stored where the FCB had none, the record, if there is one,
is in the DMA buffer and the FCB behind it. -/
def Received (fs : CpmFileSystem) (fcb_addr : BitVec 16) (offset : ℕ) (record : Option (List Byte))
    (m_mem : HostedMemory) : Prop :=
  ∃ handle, m_mem = (match record with
    | none => (fs.mem_write (fcb_addr + FCB_AL + 1) handle).m_mem
    | some buf => (((fs.mem_write (fcb_addr + FCB_AL + 1) handle).deliver buf).update_fcb_after_read
        fcb_addr (offset + 128)).m_mem)

/-- **A step answers as the step without slots does**: with its code (closing apart), its record and
the same files. -/
structure Agrees (fs : CpmFileSystem) (st : LayerStep) (a : Answer) : Prop where
  code : (∀ fcb_addr, st ≠ .call 16 fcb_addr) → (st.step fs).2 = a.code
  record : ∀ func fcb_addr, st = .call func fcb_addr → func = 20 ∨ func = 33 →
    fs.Received fcb_addr (fs.position func fcb_addr) a.record (st.step fs).1.m_mem
  host : (st.step fs).1.host = a.host

/-- **A slot stands for its path**: opening the path anew gives its stream, but for the position. -/
structure Warm (fs : CpmFileSystem) : Prop where
  mapped : fs.m_mem.map.Reachable
  unbuffered : fs.host.buffered = false
  slots : ∀ i, (fs.m_files i).active = true → fs.host.open_anew (fs.m_files i).host_path =
    some { (fs.m_files i).fp with pos := 0 }

/-- A step spares the open slots: none but the one a deletion closes is open for a path that is deleted
or renamed, and no handle is stored into a record that is going to be written. -/
def Spares (fs : CpmFileSystem) : LayerStep → Prop
  | .call 19 fcb_addr =>
    (∃ n, fs.host.lookup (fs.fcb_to_host_path fcb_addr) = some n ∧ n.isdir = false) →
      ∀ i, (fs.m_files i).active = true → fs.find_file_by_fcb fcb_addr ≠ some i →
        fs.host.key (fs.m_files i).host_path ≠ fs.host.key (fs.fcb_to_host_path fcb_addr)
  | .call 21 fcb_addr =>
    fs.held_slot fcb_addr = none → fs.phys (fcb_addr + FCB_AL + 1) ∉ fs.dma_buffer
  | .call 23 fcb_addr =>
    fs.host.Renames (fs.fcb_to_host_path fcb_addr) (fs.rename_path fcb_addr) →
      ∀ i, (fs.m_files i).active = true →
        fs.host.key (fs.m_files i).host_path ≠ fs.host.key (fs.fcb_to_host_path fcb_addr) ∧
          fs.host.key (fs.m_files i).host_path ≠ fs.host.key (fs.rename_path fcb_addr)
  | .call 34 fcb_addr =>
    fs.held_slot fcb_addr = none → fs.phys (fcb_addr + FCB_AL + 1) ∉ fs.dma_buffer
  | _ => True

namespace Warm

/-! ## 3. Closing and taking slots -/

theorem pending (h : Warm fs) {slot : Fin 16} (ha : (fs.m_files slot).active = true) :
    (fs.m_files slot).fp.pending = [] := by
  have ho := h.slots slot ha
  rw [HostFs.open_anew_eq, Option.map_eq_some_iff] at ho
  obtain ⟨n, -, hfp⟩ := ho
  exact (congrArg Stream.pending hfp).symm

/-- Closing the stream of an open slot changes no file. -/
theorem fclose (h : Warm fs) {slot : Fin 16} (ha : (fs.m_files slot).active = true) :
    fs.host.fclose (fs.m_files slot).fp = fs.host := by
  rw [HostFs.fclose, HostFs.fflush_of_nil _ _ (h.pending ha)]

theorem close_slot_host (h : Warm fs) {slot : Fin 16} (ha : (fs.m_files slot).active = true) :
    (fs.close_slot slot).host = fs.host := h.fclose ha

theorem close_slot (h : Warm fs) {slot : Fin 16} (ha : (fs.m_files slot).active = true) :
    Warm (fs.close_slot slot) := by
  constructor
  · exact h.mapped
  · rw [h.close_slot_host ha]
    exact h.unbuffered
  · intro i hi
    have hne : i ≠ slot := by
      rintro rfl
      rw [close_slot_self] at hi
      cases hi
    rw [close_slot_other hne] at hi ⊢
    rw [h.close_slot_host ha]
    exact h.slots i hi

/-- Taking a slot for a path. -/
theorem use_slot (h : Warm fs) (slot : Fin 16) {fp : Stream} (fcb_addr : BitVec 16) {path : Str}
    (ho : fs.host.open_anew path = some fp) : Warm (fs.use_slot slot fp fcb_addr path) := by
  constructor
  · exact h.mapped
  · exact h.unbuffered
  · intro i hi
    by_cases hs : i = slot
    · have hpos : { fp with pos := 0 } = fp := by
        rw [HostFs.open_anew_eq, Option.map_eq_some_iff] at ho
        obtain ⟨n, -, rfl⟩ := ho
        rfl
      have hfile : (fs.use_slot slot fp fcb_addr path).m_files i =
          ⟨fp, fcb_addr, fs.m_caller_tag, true, path⟩ := by
        rw [hs]
        exact Function.update_self _ _ _
      rw [hfile]
      dsimp only
      rw [hpos]
      exact ho
    · have hfile : (fs.use_slot slot fp fcb_addr path).m_files i = fs.m_files i :=
        Function.update_of_ne hs _ _
      rw [hfile] at hi ⊢
      exact h.slots i hi

/-- What is in memory does not matter. -/
theorem of_files (h : Warm fs) (hfiles : s.m_files = fs.m_files) (hhost : s.host = fs.host)
    (hmap : s.m_mem.map.Reachable) : Warm s := by
  constructor
  · exact hmap
  · rw [hhost]
    exact h.unbuffered
  · rw [hfiles, hhost]
    exact h.slots

theorem mem_write (h : Warm fs) (a : BitVec 16) (v : Byte) : Warm (fs.mem_write a v) :=
  h.of_files rfl rfl (by rw [mem_write_map]; exact h.mapped)

/-- Files may come, and those a slot is open for must stay. -/
theorem of_host (h : Warm fs) {host : HostFs} (hb : host.buffered = false)
    (hkept : ∀ i, (fs.m_files i).active = true →
      host.lookup (fs.m_files i).host_path = fs.host.lookup (fs.m_files i).host_path) :
    Warm { fs with host := host } := by
  constructor
  · exact h.mapped
  · exact hb
  · intro i hi
    exact (HostFs.open_anew_congr (hkept i hi)).trans (h.slots i hi)

/-- A stream that moved, or through which its file was written. -/
theorem with_stream (h : Warm fs) {slot : Fin 16} (ha : (fs.m_files slot).active = true) {fp : Stream}
    {host : HostFs} (hfp : { fp with pos := 0 } = { (fs.m_files slot).fp with pos := 0 })
    (hb : host.buffered = false) (hlook : ∀ q, host.lookup q = fs.host.lookup q) :
    Warm { fs with
      m_files := Function.update fs.m_files slot { fs.m_files slot with fp := fp }
      host := host } := by
  constructor
  · exact h.mapped
  · exact hb
  · intro i hi
    dsimp only at hi ⊢
    by_cases hs : i = slot
    · rw [hs, Function.update_self, HostFs.open_anew_congr (hlook _)]
      dsimp only
      rw [hfp]
      exact h.slots slot ha
    · rw [Function.update_of_ne hs] at hi ⊢
      rw [HostFs.open_anew_congr (hlook _)]
      exact h.slots i hi

theorem seek_host (h : Warm fs) {slot : Fin 16} (ha : (fs.m_files slot).active = true) (offset : ℕ) :
    (fs.seek slot offset).host = fs.host := by
  unfold seek
  dsimp only
  rw [HostFs.fseek_host, h.fclose ha]

theorem seek (h : Warm fs) {slot : Fin 16} (ha : (fs.m_files slot).active = true) (offset : ℕ) :
    Warm (fs.seek slot offset) := by
  refine h.with_stream ha ?_ ?_ ?_
  · rw [HostFs.fseek_stream]
    dsimp only
    rw [h.pending ha]
  · rw [HostFs.fseek_host, h.fclose ha]
    exact h.unbuffered
  · intro q
    rw [HostFs.fseek_host, h.fclose ha]

theorem write (h : Warm fs) {slot : Fin 16} (ha : (fs.m_files slot).active = true) (buf : List Byte) :
    Warm (fs.write slot buf).1 := by
  rcases HostFs.fwrite_cases h.unbuffered (fs.m_files slot).fp buf with hw | hw
  · refine h.with_stream ha ?_ ?_ ?_
    · rw [hw]
    · rw [hw]
      exact h.unbuffered
    · intro q
      rw [hw]
      rfl
  · refine h.with_stream ha ?_ ?_ ?_
    · rw [hw]
    · rw [hw]
      exact h.unbuffered
    · intro q
      rw [hw]

end Warm

/-! ## 4. Opening the FCB -/

/-- A byte stored where it is. -/
theorem mem_write_self (a : BitVec 16) : (fs.mem_write a (fs.mem_read a)).m_mem = fs.m_mem := by
  unfold CpmFileSystem.mem_write CpmFileSystem.mem_read Host.mem_write Host.mem_read
    HostedMemory.write_byte HostedMemory.read_byte
  dsimp only
  rw [Function.update_eq_self]

/-- **What an operation finds when its FCB is open**: a slot that stands for the FCB's path. -/
structure Ready (fs : CpmFileSystem) (fcb_addr : BitVec 16) (s : CpmFileSystem) (slot : Fin 16) :
    Prop where
  warm : Warm s
  active : (s.m_files slot).active = true
  host : s.host = fs.host
  stream : fs.host.open_anew (fs.fcb_to_host_path fcb_addr) =
    some { (s.m_files slot).fp with pos := 0 }
  mem : ∃ handle, s.m_mem = (fs.mem_write (fcb_addr + FCB_AL + 1) handle).m_mem
  context : s.context = fs.context
  held : (fs.held_slot fcb_addr).isSome → s = fs

/-- The second half of `ensure_open`. -/
theorem Warm.reopen (h : Warm fs) (fcb_addr : BitVec 16) :
    (fs.reopen fcb_addr = (fs, none) ∧
      (fs.host.open_anew (fs.fcb_to_host_path fcb_addr) = none ∨ fs.find_open_slot = none)) ∨
    ∃ slot, (fs.reopen fcb_addr).2 = some slot ∧ Warm (fs.reopen fcb_addr).1 ∧
      ((fs.reopen fcb_addr).1.m_files slot).active = true ∧
      (fs.reopen fcb_addr).1.host = fs.host ∧
      fs.host.open_anew (fs.fcb_to_host_path fcb_addr) =
        some { ((fs.reopen fcb_addr).1.m_files slot).fp with pos := 0 } ∧
      (∃ handle, (fs.reopen fcb_addr).1.m_mem =
        (fs.mem_write (fcb_addr + FCB_AL + 1) handle).m_mem) ∧
      (fs.reopen fcb_addr).1.context = fs.context := by
  unfold CpmFileSystem.reopen HostFs.stat
  dsimp only
  cases hl : fs.host.lookup (fs.fcb_to_host_path fcb_addr) with
  | none => exact .inl ⟨rfl, .inl (HostFs.open_anew_eq_none.mpr hl)⟩
  | some n =>
    cases hs : fs.find_open_slot with
    | none => exact .inl ⟨rfl, .inr rfl⟩
    | some slot =>
      have hfp := fopen_update_of_lookup hl
      have ho : fs.host.open_anew (fs.fcb_to_host_path fcb_addr) =
          some ⟨n.inode, !(n.isdir || n.readonly), 0, []⟩ := hfp
      rw [hfp]
      dsimp only
      have hfile : ∀ f : OpenFile, Function.update fs.m_files slot f slot = f :=
        fun f => Function.update_self _ _ _
      refine .inr ⟨slot, rfl, (h.use_slot slot fcb_addr ho).mem_write _ _, ?_, rfl, ?_, ⟨_, rfl⟩, rfl⟩
      · exact congrArg OpenFile.active (hfile _)
      · have hfp' := congrArg OpenFile.fp (hfile ⟨⟨n.inode, !(n.isdir || n.readonly), 0, []⟩, fcb_addr,
          fs.m_caller_tag, true, fs.fcb_to_host_path fcb_addr⟩)
        rw [ho]
        exact congrArg (fun fp : Stream => some { fp with pos := 0 }) hfp'.symm

/-- The FCB does not lack a slot: it has one, its path leads nowhere, or there is one for it. -/
def Supplied (fs : CpmFileSystem) (fcb_addr : BitVec 16) : Prop :=
  ¬ (fs.held_slot fcb_addr = none ∧ (fs.host.lookup (fs.fcb_to_host_path fcb_addr)).isSome ∧
    fs.new_slot fcb_addr = none)

/-- **Opening the FCB**, where it does not lack a slot: the file is not there, or its slot is ready. -/
theorem Warm.ensure_open (h : Warm fs) (hs : fs.Supplied fcb_addr) :
    (fs.host.open_anew (fs.fcb_to_host_path fcb_addr) = none ∧ (fs.ensure_open fcb_addr).2 = none ∧
      Warm (fs.ensure_open fcb_addr).1 ∧ (fs.ensure_open fcb_addr).1.host = fs.host ∧
      (fs.ensure_open fcb_addr).1.m_mem = fs.m_mem) ∨
    ∃ slot, (fs.ensure_open fcb_addr).2 = some slot ∧
      Ready fs fcb_addr (fs.ensure_open fcb_addr).1 slot := by
  cases hheld : fs.held_slot fcb_addr with
  | some slot =>
    obtain ⟨hfind, hpath⟩ := Option.filter_eq_some_iff.mp hheld
    have hpath' : (fs.m_files slot).host_path = fs.fcb_to_host_path fcb_addr := by simpa using hpath
    have hactive := find_file_by_fcb_active hfind
    rw [ensure_open_of_held hheld]
    refine .inr ⟨slot, rfl, h, hactive, rfl, ?_, ⟨_, (mem_write_self _).symm⟩, rfl, fun _ => rfl⟩
    rw [← hpath']
    exact h.slots slot hactive
  | none =>
    rw [Supplied, hheld] at hs
    -- the state the FCB is opened in
    obtain ⟨s, hopen, hwarm, hhost, hmem, hctx, hpath, hslot⟩ : ∃ s : CpmFileSystem,
        fs.ensure_open fcb_addr = s.reopen fcb_addr ∧ Warm s ∧ s.host = fs.host ∧
        s.m_mem = fs.m_mem ∧ s.context = fs.context ∧
        s.fcb_to_host_path fcb_addr = fs.fcb_to_host_path fcb_addr ∧
        s.find_open_slot = fs.new_slot fcb_addr := by
      unfold CpmFileSystem.ensure_open new_slot
      cases hf : fs.find_file_by_fcb fcb_addr with
      | none => exact ⟨fs, rfl, h, rfl, rfl, rfl, rfl, rfl⟩
      | some slot =>
        have hne : ¬ (fs.m_files slot).host_path = fs.fcb_to_host_path fcb_addr := by
          intro heq
          rw [held_slot, hf, Option.filter_some, if_pos (by simpa using heq)] at hheld
          cases hheld
        have hactive := find_file_by_fcb_active hf
        refine ⟨fs.close_slot slot, ?_, h.close_slot hactive, h.close_slot_host hactive, rfl, rfl, rfl,
          rfl⟩
        dsimp only
        rw [if_neg hne]
    rw [hopen]
    rcases hwarm.reopen fcb_addr with ⟨hr, hno⟩ | ⟨slot, hslot', hw, ha, hh, ho, ⟨v, hm⟩, hc⟩
    · rw [hpath, hhost] at hno
      have hnone : fs.host.open_anew (fs.fcb_to_host_path fcb_addr) = none := by
        rcases hno with hno | hno
        · exact hno
        · rw [hslot] at hno
          rw [HostFs.open_anew_eq_none]
          by_contra hl
          exact hs ⟨rfl, Option.isSome_iff_ne_none.mpr hl, hno⟩
      rw [hr]
      exact .inl ⟨hnone, rfl, hwarm, hhost, hmem⟩
    · rw [hpath, hhost] at ho
      refine .inr ⟨slot, hslot', hw, ha, hh.trans hhost, ho, ⟨v, ?_⟩, hc.trans hctx, ?_⟩
      · have hsame : (s.mem_write (fcb_addr + FCB_AL + 1) v).m_mem =
            (fs.mem_write (fcb_addr + FCB_AL + 1) v).m_mem := by
          have htag : s.m_caller_tag = fs.m_caller_tag := congrArg (fun c => c.2.2) hctx
          unfold CpmFileSystem.mem_write
          dsimp only
          rw [htag, hmem]
        exact hm.trans hsame
      · intro hsome
        rw [hheld] at hsome
        cases hsome

/-! ## 5. Reading and writing -/

theorem update_fcb_mem {t : CpmFileSystem} (hm : s.m_mem = t.m_mem)
    (htag : s.m_caller_tag = t.m_caller_tag) (fcb_addr : BitVec 16) (offset : ℕ) :
    (s.update_fcb_after_read fcb_addr offset).m_mem = (t.update_fcb_after_read fcb_addr offset).m_mem := by
  unfold update_fcb_after_read CpmFileSystem.mem_write
  dsimp only
  rw [hm, htag]

theorem Warm.update_fcb (h : Warm s) (fcb_addr : BitVec 16) (offset : ℕ) :
    Warm (s.update_fcb_after_read fcb_addr offset) :=
  ((h.mem_write _ _).mem_write _ _).mem_write _ _

theorem Warm.deliver (h : Warm s) (buf : List Byte) : Warm (s.deliver buf) :=
  h.of_files rfl rfl (by
    have hmap : (s.deliver buf).m_mem.map = s.m_mem.map := dma_write_block_map _ _ _ _
    rw [hmap]
    exact h.mapped)

namespace Ready

variable {slot : Fin 16}

/-- A stream at its beginning, moved. -/
theorem fseek (h : Ready fs fcb_addr s slot) (offset : ℕ) :
    fs.host.fseek { (s.m_files slot).fp with pos := 0 } offset =
      (fs.host, { (s.m_files slot).fp with pos := offset, pending := [] }) := by
  have hp : ({ (s.m_files slot).fp with pos := 0 } : Stream).pending = [] := h.warm.pending h.active
  refine Prod.ext ?_ ?_
  · rw [HostFs.fseek_host, HostFs.fclose, HostFs.fflush_of_nil _ _ hp]
  · rw [HostFs.fseek_stream]

/-- The stream of the slot, moved. -/
theorem seek_file (h : Ready fs fcb_addr s slot) (offset : ℕ) :
    (s.seek slot offset).host = fs.host ∧
      ((s.seek slot offset).m_files slot).fp =
        { (s.m_files slot).fp with pos := offset, pending := [] } := by
  refine ⟨(h.warm.seek_host h.active offset).trans h.host, ?_⟩
  rw [CpmFileSystem.seek_file]

/-- **Reading through the slot** is reading from the file opened anew. -/
theorem read_record (h : Ready fs fcb_addr s slot) (offset : ℕ) :
    (s.read_record fcb_addr slot offset).2 =
      (fs.host.read_anew (fs.fcb_to_host_path fcb_addr) offset).code ∧
    (s.read_record fcb_addr slot offset).1.host =
      (fs.host.read_anew (fs.fcb_to_host_path fcb_addr) offset).host ∧
    fs.Received fcb_addr offset (fs.host.read_anew (fs.fcb_to_host_path fcb_addr) offset).record
      (s.read_record fcb_addr slot offset).1.m_mem ∧
    Warm (s.read_record fcb_addr slot offset).1 := by
  obtain ⟨hhost, hfp⟩ := h.seek_file offset
  obtain ⟨v, hv⟩ := h.mem
  have hwarm := h.warm.seek h.active offset
  unfold HostFs.read_anew
  rw [h.stream]
  dsimp only
  rw [h.fseek offset]
  have hgot : (s.seek slot offset).host.fread ((s.seek slot offset).m_files slot).fp 128 =
      fs.host.fread { (s.m_files slot).fp with pos := offset, pending := [] } 128 := by
    rw [hhost, hfp]
  unfold CpmFileSystem.read_record
  dsimp only
  rw [hgot]
  generalize fs.host.fread { (s.m_files slot).fp with pos := offset, pending := [] } 128 = got
  by_cases hlen : got.length = 0
  · rw [if_pos hlen, if_pos hlen]
    exact ⟨rfl, hhost, ⟨v, hv⟩, hwarm⟩
  · rw [if_neg hlen, if_neg hlen]
    refine ⟨rfl, hhost, ⟨v, ?_⟩, (hwarm.deliver _).update_fcb fcb_addr (offset + 128)⟩
    have hdma : s.m_dma_addr = fs.m_dma_addr := congrArg (fun c => c.2.1) h.context
    have htag : s.m_caller_tag = fs.m_caller_tag := congrArg (fun c => c.2.2) h.context
    have hmem : ∀ buf, ((s.seek slot offset).deliver buf).m_mem =
        ((fs.mem_write (fcb_addr + FCB_AL + 1) v).deliver buf).m_mem := by
      intro buf
      unfold CpmFileSystem.deliver
      dsimp only
      rw [seek_mem, hv]
      exact congrArg (fun dma => dma_write_block dma 0 buf _) hdma
    have htags : ∀ buf, ((s.seek slot offset).deliver buf).m_caller_tag =
        ((fs.mem_write (fcb_addr + FCB_AL + 1) v).deliver buf).m_caller_tag := fun _ => htag
    exact update_fcb_mem (hmem _) (htags _) fcb_addr (offset + 128)

/-- **Writing through the slot** is writing to the file opened anew. -/
theorem write_record (h : Ready fs fcb_addr s slot) (offset : ℕ) (hrec : s.dma_record = fs.dma_record) :
    (s.write_record fcb_addr slot offset).2 =
      (fs.host.write_anew (fs.fcb_to_host_path fcb_addr) offset fs.dma_record).code ∧
    (s.write_record fcb_addr slot offset).1.host =
      (fs.host.write_anew (fs.fcb_to_host_path fcb_addr) offset fs.dma_record).host ∧
    Warm (s.write_record fcb_addr slot offset).1 := by
  obtain ⟨hhost, hfp⟩ := h.seek_file offset
  have hwarm := h.warm.seek h.active offset
  have hactive : ((s.seek slot offset).m_files slot).active = true := by
    rw [(seek_files slot slot offset).1]
    exact h.active
  have hub : fs.host.buffered = false := by
    rw [← h.host]
    exact h.warm.unbuffered
  have hbuf : dma_read_block (s.seek slot offset).m_dma_addr 0 128 (s.seek slot offset).m_mem =
      fs.dma_record := hrec
  have hwritten := hwarm.write hactive fs.dma_record
  have hw : (s.seek slot offset).host.fwrite ((s.seek slot offset).m_files slot).fp fs.dma_record =
      fs.host.fwrite { (s.m_files slot).fp with pos := offset, pending := [] } fs.dma_record := by
    rw [hhost, hfp]
  have hcode : ((s.seek slot offset).write slot fs.dma_record).2 =
      (fs.host.fwrite { (s.m_files slot).fp with pos := offset, pending := [] } fs.dma_record).2.2 :=
    congrArg (fun w => w.2.2) hw
  have hfiles : ((s.seek slot offset).write slot fs.dma_record).1.host =
      (fs.host.fwrite { (s.m_files slot).fp with pos := offset, pending := [] } fs.dma_record).1 :=
    congrArg (fun w => w.1) hw
  unfold HostFs.write_anew
  rw [h.stream]
  dsimp only
  rw [h.fseek offset]
  dsimp only
  rw [HostFs.fwrite_fclose hub rfl, ← hcode, ← hfiles]
  unfold CpmFileSystem.write_record
  dsimp only
  rw [hbuf]
  generalize (s.seek slot offset).write slot fs.dma_record = w at hwritten
  obtain ⟨t, n⟩ := w
  dsimp only at hwritten ⊢
  split_ifs
  · exact ⟨rfl, rfl, hwritten⟩
  · exact ⟨rfl, rfl, hwritten.update_fcb _ _⟩

end Ready

/-! ## 6. The steps -/

namespace Ready

variable {slot : Fin 16}

/-- The bytes of the FCB, but for its handle. -/
theorem mem_read (h : Ready fs fcb_addr s slot) (hmap : fs.m_mem.map.Reachable) {i : BitVec 16}
    (hi : i ≠ FCB_AL + 1) : s.mem_read (fcb_addr + i) = fs.mem_read (fcb_addr + i) := by
  obtain ⟨v, hv⟩ := h.mem
  have htag : s.m_caller_tag = fs.m_caller_tag := congrArg (fun c => c.2.2) h.context
  have hne : fcb_addr + i ≠ fcb_addr + FCB_AL + 1 := by
    rw [BitVec.add_assoc, Ne, fcb_add_inj]
    exact hi
  calc s.mem_read (fcb_addr + i)
      = (fs.mem_write (fcb_addr + FCB_AL + 1) v).mem_read (fcb_addr + i) := by
        unfold CpmFileSystem.mem_read
        rw [htag, hv]
        rfl
    _ = fs.mem_read (fcb_addr + i) := by rw [mem_read_mem_write hmap, if_neg hne]

theorem position (h : Ready fs fcb_addr s slot) (hmap : fs.m_mem.map.Reachable) :
    s.compute_file_offset fcb_addr = fs.compute_file_offset fcb_addr ∧
      s.compute_random_offset fcb_addr = fs.compute_random_offset fcb_addr := by
  constructor
  · unfold compute_file_offset
    rw [h.mem_read hmap (by decide), h.mem_read hmap (by decide), h.mem_read hmap (by decide)]
  · unfold compute_random_offset
    rw [h.mem_read hmap (by decide), h.mem_read hmap (by decide), h.mem_read hmap (by decide)]

/-- The record that is going to be written, where no handle is stored into it. -/
theorem dma_record (h : Ready fs fcb_addr s slot)
    (hs : fs.held_slot fcb_addr = none → fs.phys (fcb_addr + FCB_AL + 1) ∉ fs.dma_buffer) :
    s.dma_record = fs.dma_record := by
  cases hheld : fs.held_slot fcb_addr with
  | some i => rw [h.held (by rw [hheld]; rfl)]
  | none =>
    obtain ⟨v, hv⟩ := h.mem
    have hdma : s.m_dma_addr = fs.m_dma_addr := congrArg (fun c => c.2.1) h.context
    have hself : fs.phys (fcb_addr + FCB_AL + 1) ∈ ({fs.phys (fcb_addr + FCB_AL + 1)} : Set Phys) := rfl
    have hoff := (AlikeOff.refl {fs.phys (fcb_addr + FCB_AL + 1)} fs).mem_write_right hself v
    have hsame := hoff.dma_read_block (by
      rintro p hp rfl
      exact hs hheld hp)
    unfold CpmFileSystem.dma_record
    rw [hv, hdma]
    exact hsame

end Ready

namespace Warm

variable {func : ℕ}

/-- Reading a record, at a position that the handle has no part in. -/
theorem read (h : Warm fs) (hs : fs.Supplied fcb_addr) (pos : CpmFileSystem → ℕ)
    (hpos : ∀ s slot, Ready fs fcb_addr s slot → pos s = pos fs) :
    (fs.with_open fcb_addr fun s slot => s.read_record fcb_addr slot (pos s)).2 =
      (fs.host.read_anew (fs.fcb_to_host_path fcb_addr) (pos fs)).code ∧
    (fs.with_open fcb_addr fun s slot => s.read_record fcb_addr slot (pos s)).1.host =
      (fs.host.read_anew (fs.fcb_to_host_path fcb_addr) (pos fs)).host ∧
    fs.Received fcb_addr (pos fs)
      (fs.host.read_anew (fs.fcb_to_host_path fcb_addr) (pos fs)).record
      (fs.with_open fcb_addr fun s slot => s.read_record fcb_addr slot (pos s)).1.m_mem ∧
    Warm (fs.with_open fcb_addr fun s slot => s.read_record fcb_addr slot (pos s)).1 := by
  rcases h.ensure_open hs with ⟨hno, hn, hw, hhost, hm⟩ | ⟨slot, hslot, hr⟩
  · have hanew : fs.host.read_anew (fs.fcb_to_host_path fcb_addr) (pos fs) = ⟨fs.host, 0xff, none⟩ := by
      rw [HostFs.read_anew, hno]
    rw [with_open_none hn, hanew]
    exact ⟨rfl, hhost, ⟨_, hm.trans (mem_write_self _).symm⟩, hw⟩
  · rw [with_open_some hslot, hpos _ _ hr]
    exact hr.read_record (pos fs)

/-- Writing a record, at such a position, where the handle is not stored into the record. -/
theorem write_at (h : Warm fs) (hs : fs.Supplied fcb_addr)
    (hsp : fs.held_slot fcb_addr = none → fs.phys (fcb_addr + FCB_AL + 1) ∉ fs.dma_buffer)
    (pos : CpmFileSystem → ℕ) (hpos : ∀ s slot, Ready fs fcb_addr s slot → pos s = pos fs) :
    (fs.with_open fcb_addr fun s slot => s.write_record fcb_addr slot (pos s)).2 =
      (fs.host.write_anew (fs.fcb_to_host_path fcb_addr) (pos fs) fs.dma_record).code ∧
    (fs.with_open fcb_addr fun s slot => s.write_record fcb_addr slot (pos s)).1.host =
      (fs.host.write_anew (fs.fcb_to_host_path fcb_addr) (pos fs) fs.dma_record).host ∧
    Warm (fs.with_open fcb_addr fun s slot => s.write_record fcb_addr slot (pos s)).1 := by
  rcases h.ensure_open hs with ⟨hno, hn, hw, hhost, -⟩ | ⟨slot, hslot, hr⟩
  · have hanew : fs.host.write_anew (fs.fcb_to_host_path fcb_addr) (pos fs) fs.dma_record =
        ⟨fs.host, 0xff, none⟩ := by
      rw [HostFs.write_anew, hno]
    rw [with_open_none hn, hanew]
    exact ⟨rfl, hhost, hw⟩
  · rw [with_open_some hslot, hpos _ _ hr]
    exact hr.write_record (pos fs) (hr.dma_record hsp)

/-- Closing what is open through the FCB. -/
theorem close_stale (h : Warm fs) (fcb_addr : BitVec 16) :
    Warm (fs.close_stale fcb_addr) ∧ (fs.close_stale fcb_addr).host = fs.host := by
  refine close_stale_induct (P := fun s => Warm s ∧ s.host = fs.host) ?_ fcb_addr ⟨h, rfl⟩
  rintro s slot ha ⟨hw, hhost⟩
  exact ⟨hw.close_slot ha, (hw.close_slot_host ha).trans hhost⟩

theorem close_user_files (h : Warm fs) (system_tag : BitVec 16) :
    Warm (fs.close_user_files system_tag) ∧ (fs.close_user_files system_tag).host = fs.host := by
  refine close_user_files_induct (P := fun s => Warm s ∧ s.host = fs.host) ?_ ?_ system_tag ⟨h, rfl⟩
  · rintro s slot ha ⟨hw, hhost⟩
    exact ⟨hw.close_slot ha, (hw.close_slot_host ha).trans hhost⟩
  · rintro s ⟨hw, hhost⟩
    exact ⟨hw.of_files rfl rfl hw.mapped, hhost⟩

theorem init_fcb (h : Warm fs) (fcb_addr : BitVec 16) (s2 rc : Byte) (slot : Fin 16) :
    Warm (fs.init_fcb fcb_addr s2 rc slot) ∧ (fs.init_fcb fcb_addr s2 rc slot).host = fs.host := by
  obtain ⟨m, hm, hinit⟩ := @init_fcb_eq fs fcb_addr s2 rc slot
  rw [hinit]
  have hmem : Warm { fs with m_mem := m } := h.of_files rfl rfl (hm ▸ h.mapped)
  exact ⟨hmem.mem_write _ _, rfl⟩

/-- Opening a file. -/
theorem file_open (h : Warm fs) (hs : ¬ LayerStep.Starved fs (.call 15 fcb_addr)) :
    (fs.file_open fcb_addr).2 =
      (if (fs.host.open_anew (fs.fcb_to_host_path fcb_addr)).isSome then 0 else 0xff) ∧
    (fs.file_open fcb_addr).1.host = fs.host ∧ Warm (fs.file_open fcb_addr).1 := by
  obtain ⟨hw, hhost⟩ := h.close_stale fcb_addr
  unfold CpmFileSystem.file_open HostFs.stat
  dsimp only
  rw [HostFs.open_anew_eq]
  cases hl : fs.host.lookup (fs.fcb_to_host_path fcb_addr) with
  | none => exact ⟨rfl, rfl, h⟩
  | some n =>
    cases hslot : (fs.close_stale fcb_addr).find_open_slot with
    | none => exact absurd ⟨by rw [hl]; rfl, hslot⟩ hs
    | some slot =>
      have hl' : (fs.close_stale fcb_addr).host.lookup (fs.fcb_to_host_path fcb_addr) = some n := by
        rw [hhost]
        exact hl
      have hfp := fopen_update_of_lookup hl'
      rw [hfp]
      dsimp only
      obtain ⟨hinit, hihost⟩ := (hw.use_slot slot fcb_addr hfp).init_fcb fcb_addr 0x80
        (entry_rc (fs.host.st_size n)) slot
      exact ⟨rfl, hihost.trans hhost, hinit⟩

/-- Making a file. -/
theorem file_make (h : Warm fs) (hs : ¬ LayerStep.Starved fs (.call 22 fcb_addr)) :
    (fs.file_make fcb_addr).2 = (fs.host.make_anew (fs.fcb_to_host_path fcb_addr)).code ∧
    (fs.file_make fcb_addr).1.host = (fs.host.make_anew (fs.fcb_to_host_path fcb_addr)).host ∧
    Warm (fs.file_make fcb_addr).1 := by
  obtain ⟨hw, hhost⟩ := h.close_stale fcb_addr
  unfold CpmFileSystem.file_make HostFs.make_anew
  dsimp only
  cases hslot : (fs.close_stale fcb_addr).find_open_slot with
  | none => exact absurd hslot hs
  | some slot =>
    dsimp only
    rw [hhost]
    rcases hf : fs.host.fopen_wp (fs.fcb_to_host_path fcb_addr) with ⟨host, _ | fp⟩
    · have hsame : host = fs.host := HostFs.fopen_wp_none hf
      refine ⟨rfl, rfl, ?_⟩
      refine hw.of_files rfl ?_ hw.mapped
      rw [hhost]
      exact hsame
    · obtain ⟨hb, ⟨n, hn, hd, hr, rfl⟩, hkept⟩ := HostFs.fopen_wp_some hf
      have ho : host.open_anew (fs.fcb_to_host_path fcb_addr) = some ⟨n.inode, true, 0, []⟩ := by
        rw [HostFs.open_anew_eq, hn, Option.map_some, hd, hr]
        rfl
      have hmade : Warm { fs.close_stale fcb_addr with host := host } := by
        refine hw.of_host ?_ fun i hi => ?_
        · rw [hb]
          exact h.unbuffered
        · have hslot := hw.slots i hi
          rw [HostFs.open_anew_eq, Option.map_eq_some_iff] at hslot
          obtain ⟨m, hm, -⟩ := hslot
          rw [hm]
          rw [hhost] at hm
          exact hkept _ m hm
      obtain ⟨hinit, hihost⟩ := (hmade.use_slot slot fcb_addr ho).init_fcb fcb_addr 0 0 slot
      exact ⟨rfl, hihost, hinit⟩

/-- Closing a file. -/
theorem file_close (h : Warm fs) (fcb_addr : BitVec 16) :
    (fs.file_close fcb_addr).1.host = fs.host ∧ Warm (fs.file_close fcb_addr).1 := by
  cases hf : fs.find_file_by_fcb fcb_addr with
  | none =>
    rw [file_close_of_none hf]
    exact ⟨rfl, h⟩
  | some slot =>
    have ha := find_file_by_fcb_active hf
    rw [file_close_of_some hf]
    exact ⟨h.close_slot_host ha, (h.close_slot ha).mem_write _ _⟩

/-- Deleting a file that no other slot is open for. -/
theorem file_delete (h : Warm fs) (hsp : fs.Spares (.call 19 fcb_addr)) :
    (fs.file_delete fcb_addr).2 =
      (HostFs.answered (fs.host.unlink (fs.fcb_to_host_path fcb_addr))).code ∧
    (fs.file_delete fcb_addr).1.host =
      (HostFs.answered (fs.host.unlink (fs.fcb_to_host_path fcb_addr))).host ∧
    Warm (fs.file_delete fcb_addr).1 := by
  -- the state after the slot of the handle is closed
  obtain ⟨s, hs, hw, hhost, hopen⟩ : ∃ s : CpmFileSystem, fs.file_delete fcb_addr =
      ({ s with host := (s.host.unlink (fs.fcb_to_host_path fcb_addr)).1 },
        if (s.host.unlink (fs.fcb_to_host_path fcb_addr)).2 then 0 else 0xff) ∧ Warm s ∧ s.host = fs.host ∧
      ∀ i, (s.m_files i).active = true → s.m_files i = fs.m_files i ∧
        fs.find_file_by_fcb fcb_addr ≠ some i := by
    unfold CpmFileSystem.file_delete
    dsimp only
    cases hf : fs.find_file_by_fcb fcb_addr with
    | none => exact ⟨fs, unlinked_eq fs _, h, rfl, fun i _ => ⟨rfl, by simp⟩⟩
    | some slot =>
      have ha := find_file_by_fcb_active hf
      refine ⟨fs.close_slot slot, unlinked_eq (fs.close_slot slot) _, h.close_slot ha, h.close_slot_host ha, fun i hi => ?_⟩
      have hne : i ≠ slot := by
        rintro rfl
        rw [close_slot_self] at hi
        cases hi
      exact ⟨close_slot_other hne, fun heq => hne (Option.some.inj heq).symm⟩
  rw [hs, hhost]
  rcases HostFs.unlink_cases fs.host (fs.fcb_to_host_path fcb_addr) with ⟨n, hl, hd, hu⟩ | ⟨-, hu⟩
  · rw [hu]
    refine ⟨rfl, rfl, hw.of_host h.unbuffered fun i hi => ?_⟩
    obtain ⟨hfile, hne⟩ := hopen i hi
    rw [hfile] at hi ⊢
    rw [hhost]
    exact HostFs.without_lookup_of_ne (hsp ⟨n, hl, hd⟩ i hi hne)
  · rw [hu]
    exact ⟨rfl, rfl, hw.of_files rfl hhost.symm hw.mapped⟩

/-- Renaming a file that no slot is open for, to a name that no slot is open for. -/
theorem file_rename (h : Warm fs) (hsp : fs.Spares (.call 23 fcb_addr)) :
    (fs.file_rename fcb_addr).2 = (HostFs.answered
      (fs.host.rename (fs.fcb_to_host_path fcb_addr) (fs.rename_path fcb_addr))).code ∧
    (fs.file_rename fcb_addr).1.host = (HostFs.answered
      (fs.host.rename (fs.fcb_to_host_path fcb_addr) (fs.rename_path fcb_addr))).host ∧
    Warm (fs.file_rename fcb_addr).1 := by
  have hwarm : Warm { fs with
      host := (fs.host.rename (fs.fcb_to_host_path fcb_addr) (fs.rename_path fcb_addr)).1 } := by
    rcases HostFs.rename_cases fs.host (fs.fcb_to_host_path fcb_addr) (fs.rename_path fcb_addr) with
      hsame | ⟨hren, hb, hkept⟩
    · rw [hsame]
      exact h
    · refine h.of_host (hb.trans h.unbuffered) fun i hi => ?_
      obtain ⟨hold, hnew⟩ := hsp hren i hi
      exact hkept _ hold hnew
  unfold CpmFileSystem.file_rename
  rcases hr : fs.host.rename (fs.fcb_to_host_path fcb_addr) (fs.rename_path fcb_addr) with
    ⟨host, _ | _⟩
  · rw [hr] at hwarm
    exact ⟨rfl, rfl, hwarm⟩
  · rw [hr] at hwarm
    exact ⟨rfl, rfl, hwarm⟩

end Warm

/-- A call that reads nothing agrees by its code and its files. -/
theorem agrees_of_call {func : ℕ} {a : Answer} (hr : ¬ (func = 20 ∨ func = 33))
    (hcode : func ≠ 16 → (fcb_op func fs fcb_addr).2 = a.code)
    (hhost : (fcb_op func fs fcb_addr).1.host = a.host) : Agrees fs (.call func fcb_addr) a := by
  constructor
  · intro hclose
    refine hcode ?_
    rintro rfl
    exact hclose fcb_addr rfl
  · intro func' fcb_addr' heq hread
    cases heq
    exact absurd hread hr
  · exact hhost

/-- **One step**: a warm file system answers it as a file system without slots does, and stays warm. -/
theorem Warm.step (h : Warm fs) {st : LayerStep} (hc : st.Counted) (hs : ¬ st.Starved fs)
    (hsp : fs.Spares st) : Agrees fs st (st.anew fs fs.host) ∧ Warm (st.step fs).1 := by
  cases st with
  | search_next => exact absurd hc id
  | pgmld addressing caller_tag lpb_offset => exact absurd hc id
  | warm_boot system_tag =>
    obtain ⟨hw, hhost⟩ := h.close_user_files system_tag
    exact ⟨⟨fun _ => rfl, fun _ _ heq => (nomatch heq), hhost⟩, hw⟩
  | program mem dma_addr caller_tag current_drive user =>
    exact ⟨⟨fun _ => rfl, fun _ _ heq => (nomatch heq), rfl⟩, h.of_files rfl rfl mem.2⟩
  | call func fcb_addr =>
    have hfile : ∀ s slot, Ready fs fcb_addr s slot →
        s.compute_file_offset fcb_addr = fs.compute_file_offset fcb_addr :=
      fun s slot hr => (hr.position h.mapped).1
    have hrandom : ∀ s slot, Ready fs fcb_addr s slot →
        s.compute_random_offset fcb_addr = fs.compute_random_offset fcb_addr :=
      fun s slot hr => (hr.position h.mapped).2
    have hsupplied : ∀ f ∈ [20, 21, 33, 34], func = f → fs.Supplied fcb_addr := by
      rintro f hf rfl ⟨hheld, hl, hnew⟩
      fin_cases hf
      · exact hs ⟨fcb_addr, rfl, hheld, hl, hnew⟩
      · exact hs ⟨fcb_addr, rfl, hheld, hl, hnew⟩
      · exact hs ⟨fcb_addr, rfl, hheld, hl, hnew⟩
      · exact hs ⟨fcb_addr, rfl, hheld, hl, hnew⟩
    simp only [LayerStep.Counted, List.mem_cons, List.not_mem_nil, or_false] at hc
    rcases hc with rfl | rfl | rfl | rfl | rfl | rfl | rfl | rfl | rfl
    · obtain ⟨hcode, hhost, hw⟩ := h.file_open hs
      exact ⟨agrees_of_call (by decide) (fun _ => hcode) hhost, hw⟩
    · obtain ⟨hhost, hw⟩ := h.file_close fcb_addr
      exact ⟨agrees_of_call (by decide) (fun hne => absurd rfl hne) hhost, hw⟩
    · obtain ⟨hcode, hhost, hw⟩ := h.file_delete hsp
      exact ⟨agrees_of_call (by decide) (fun _ => hcode) hhost, hw⟩
    · obtain ⟨hcode, hhost, hrec, hw⟩ := h.read (hsupplied 20 (by decide) rfl) _ hfile
      refine ⟨⟨fun _ => hcode, ?_, hhost⟩, hw⟩
      rintro func fcb_addr ⟨⟩ -
      exact hrec
    · obtain ⟨hcode, hhost, hw⟩ := h.write_at (hsupplied 21 (by decide) rfl) hsp _ hfile
      exact ⟨agrees_of_call (by decide) (fun _ => hcode) hhost, hw⟩
    · obtain ⟨hcode, hhost, hw⟩ := h.file_make hs
      exact ⟨agrees_of_call (by decide) (fun _ => hcode) hhost, hw⟩
    · obtain ⟨hcode, hhost, hw⟩ := h.file_rename hsp
      exact ⟨agrees_of_call (by decide) (fun _ => hcode) hhost, hw⟩
    · obtain ⟨hcode, hhost, hrec, hw⟩ := h.read (hsupplied 33 (by decide) rfl) _ hrandom
      refine ⟨⟨fun _ => hcode, ?_, hhost⟩, hw⟩
      rintro func fcb_addr ⟨⟩ -
      exact hrec
    · obtain ⟨hcode, hhost, hw⟩ := h.write_at (hsupplied 34 (by decide) rfl) hsp _ hrandom
      exact ⟨agrees_of_call (by decide) (fun _ => hcode) hhost, hw⟩

/-! ## 7. Runs -/

/-- A step, beside the same step without slots on the files the steps without slots left. -/
def paired (p : CpmFileSystem × HostFs) (st : LayerStep) : (CpmFileSystem × HostFs) × Answer :=
  (((st.step p.1).1, (st.anew p.1 p.2).host), st.anew p.1 p.2)

/-- No slot is open, and no write is going to be held back. -/
structure Cold (fs : CpmFileSystem) : Prop where
  mapped : fs.m_mem.map.Reachable
  unbuffered : fs.host.buffered = false
  closed : ∀ i, (fs.m_files i).active = false

theorem Cold.warm (h : Cold fs) : Warm fs := by
  refine ⟨h.mapped, h.unbuffered, fun i hi => ?_⟩
  rw [h.closed i] at hi
  cases hi

/-- The slot an FCB holds is open for the file its path leads to. -/
theorem Warm.held (h : Warm fs) {slot : Fin 16} (hheld : fs.held_slot fcb_addr = some slot) :
    ∃ n, fs.host.lookup (fs.fcb_to_host_path fcb_addr) = some n ∧
      (fs.m_files slot).fp.inode = n.inode := by
  obtain ⟨hfind, hpath⟩ := Option.filter_eq_some_iff.mp hheld
  have hpath' : (fs.m_files slot).host_path = fs.fcb_to_host_path fcb_addr := by simpa using hpath
  have ho := h.slots slot (find_file_by_fcb_active hfind)
  rw [hpath', HostFs.open_anew_eq, Option.map_eq_some_iff] at ho
  obtain ⟨n, hn, hfp⟩ := ho
  exact ⟨n, hn, (congrArg Stream.inode hfp).symm⟩

/-- The file A, of one byte, on a host that holds nothing back, and an FCB for it. -/
def coldA : CpmFileSystem :=
  { sample fcb_a [([0x41], [0x55])] with
    host := { (sample fcb_a [([0x41], [0x55])]).host with buffered := false } }

theorem coldA_cold : Cold coldA := ⟨.z8002, rfl, fun _ => rfl⟩

theorem open_coldA_legal : LayerStep.Counted (.call 15 0x5c) ∧
    ¬ LayerStep.Starved coldA (.call 15 0x5c) ∧ coldA.Spares (.call 15 0x5c) :=
  ⟨by decide, fun hs => absurd hs.2 (by decide +kernel), trivial⟩

/-- The program makes another memory, with an FCB in it. -/
def with_fcb (fcb : List Byte) : LayerStep := .program ⟨(sample fcb []).m_mem, .z8002⟩ 0x01000080 0x0100 0 0

theorem with_fcb_not_starved (fcb : List Byte) (fs : CpmFileSystem) : ¬ (with_fcb fcb).Starved fs := by
  rintro ⟨_, hr, -⟩
  cases hr

/-- An FCB that renames A to B. -/
def a_to_b : LayerStep := with_fcb (fcb_a ++ [0, 0, 0, 0] ++ 0 :: 0x42 :: List.replicate 10 0x20)

/-- The FCB of A with its handle. -/
def opened_a : LayerStep := with_fcb (fcb_a ++ [0, 0, 0x80, 1, 1, 1])

/-- A is opened, and renamed to B through another FCB; the FCB of A is set up again. -/
def renamed : CpmFileSystem × HostFs :=
  let p := (paired (coldA, coldA.host) (.call 15 0x5c)).1
  let p := (paired p a_to_b).1
  let p := (paired p (.call 23 0x5c)).1
  (paired p opened_a).1

theorem renamed_run : ∃ tr, Run paired (fun p st => st.Counted ∧ ¬ st.Starved p.1)
    (coldA, coldA.host) tr renamed := by
  refine ⟨_, (((Run.nil.snoc ⟨open_coldA_legal.1, open_coldA_legal.2.1⟩).snoc (i := a_to_b)
    ⟨trivial, with_fcb_not_starved _ _⟩).snoc ⟨by decide, ?_⟩).snoc (i := opened_a)
    ⟨trivial, with_fcb_not_starved _ _⟩⟩
  rintro ⟨_, hr, -⟩
  cases hr

end CpmFileSystem

end Cpm8000.Host
