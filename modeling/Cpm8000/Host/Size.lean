/-
# The size of a file

`F_SIZE` asks the host for the size of the file its path leads to, while the writes of an open stream
may still be held back. A run is followed with the highest record each file ever had (`high`), next
to what the file system really holds; `Tracks` says that the two differ only by what open streams hold
back, and every operation keeps it (`Tracks.op`).

`F_SIZE` is therefore right exactly where nothing is held back beyond the last record of the host's
file, the count fits the three bytes it is stored in, and, for a file that is not there, the three
bytes are zero already: `size_iff`.
-/
import Cpm8000.Host.Position

namespace Cpm8000.Host

open Cpm8000.Sys

/-- The records that `n` bytes take. -/
def recordsOf (n : ℕ) : ℕ := (n + 127) / 128

theorem recordsOf_mono {m n : ℕ} (h : m ≤ n) : recordsOf m ≤ recordsOf n := by
  unfold recordsOf
  omega

theorem recordsOf_max (m n : ℕ) : recordsOf (max m n) = max (recordsOf m) (recordsOf n) := by
  unfold recordsOf
  omega

@[simp] theorem recordsOf_mul (r : ℕ) : recordsOf (128 * r) = r := by
  unfold recordsOf
  omega

/-- The highest record of file `i` is at least `n`. -/
def bump (high : ℕ → ℕ) (i n : ℕ) : ℕ → ℕ := Function.update high i (max (high i) n)

theorem le_bump (high : ℕ → ℕ) (i n j : ℕ) : high j ≤ bump high i n j := by
  unfold bump
  rw [Function.update_apply]
  split_ifs with h
  · rw [h]
    exact Nat.le_max_left _ _
  · exact Nat.le_refl _

@[simp] theorem bump_self (high : ℕ → ℕ) (i n : ℕ) : bump high i n i = max (high i) n :=
  Function.update_self _ _ _

theorem bump_of_ne (high : ℕ → ℕ) {i j : ℕ} (n : ℕ) (h : j ≠ i) : bump high i n j = high j :=
  Function.update_of_ne h _ _

theorem bump_bump (high : ℕ → ℕ) (i m n : ℕ) : bump (bump high i m) i n = bump high i (max m n) := by
  unfold bump
  rw [Function.update_idem, Function.update_self, Nat.max_assoc]

@[simp] theorem bump_zero (high : ℕ → ℕ) (i : ℕ) : bump high i 0 = high := by
  unfold bump
  rw [Nat.max_zero, Function.update_eq_self]

namespace HostFs

/-- A flush makes the file as long as the stream's position, when anything was held back. -/
theorem length_fclose (h : HostFs) {fp : Stream} (hfront : fp.pending.length ≤ fp.pos) (i : ℕ) :
    ((h.fclose fp).data i).length =
      if i = fp.inode ∧ fp.pending ≠ [] then max (h.data i).length fp.pos
      else (h.data i).length := by
  unfold fclose fflush
  split
  · rename_i hp
    rw [if_neg fun hc => hc.2 hp]
  · rename_i b l hp
    rw [hp] at hfront ⊢
    unfold setData
    dsimp only
    by_cases hi : i = fp.inode
    · rw [if_pos ⟨hi, List.cons_ne_nil _ _⟩, hi, Function.update_self, length_overwrite,
        Nat.sub_add_cancel hfront]
    · rw [if_neg fun hc => hi hc.1, Function.update_of_ne hi]

end HostFs

namespace CpmFileSystem

variable {fs : CpmFileSystem} {high : ℕ → ℕ}

/-! ## 1. The invariant -/

/-- **What the host holds and what open streams hold back make up the highest records.** -/
structure Tracks (fs : CpmFileSystem) (high : ℕ → ℕ) : Prop where
  mapped : fs.m_mem.map.Reachable
  /-- A slot's path leads to the file of its stream. -/
  leads : ∀ slot, (fs.m_files slot).active = true → ∃ n,
    fs.host.lookup (fs.m_files slot).host_path = some n ∧ n.inode = (fs.m_files slot).fp.inode
  front : ∀ slot, (fs.m_files slot).active = true →
    (fs.m_files slot).fp.pending.length ≤ (fs.m_files slot).fp.pos
  stored : ∀ i, recordsOf (fs.host.data i).length ≤ high i
  held : ∀ slot, (fs.m_files slot).active = true → (fs.m_files slot).fp.pending ≠ [] →
    recordsOf (fs.m_files slot).fp.pos ≤ high (fs.m_files slot).fp.inode
  tight : ∀ i, high i = recordsOf (fs.host.data i).length ∨
    ∃ slot, (fs.m_files slot).active = true ∧ (fs.m_files slot).fp.pending ≠ [] ∧
      (fs.m_files slot).fp.inode = i ∧ recordsOf (fs.m_files slot).fp.pos = high i

namespace Tracks

/-- Memory may change under it. -/
theorem congr {fs' : CpmFileSystem} (h : Tracks fs high) (hmap : fs'.m_mem.map.Reachable)
    (hfiles : fs'.m_files = fs.m_files) (hhost : fs'.host = fs.host) : Tracks fs' high where
  mapped := hmap
  leads := by rw [hfiles, hhost]; exact h.leads
  front := by rw [hfiles]; exact h.front
  stored := by rw [hhost]; exact h.stored
  held := by rw [hfiles]; exact h.held
  tight := by rw [hfiles, hhost]; exact h.tight

theorem mem (h : Tracks fs high) {m : HostedMemory} (hm : m.map = fs.m_mem.map) :
    Tracks { fs with m_mem := m } high := by
  refine h.congr ?_ rfl rfl
  dsimp only
  rw [hm]
  exact h.mapped

/-- A slot that was flushed, and is closed or at another position now. -/
theorem flush (h : Tracks fs high) {slot : Fin 16} (hactive : (fs.m_files slot).active = true)
    (f : OpenFile) (hf : f.active = true → f.fp.pending = [] ∧
      f.fp.inode = (fs.m_files slot).fp.inode ∧ f.host_path = (fs.m_files slot).host_path) :
    Tracks { fs with
      m_files := Function.update fs.m_files slot f
      host := fs.host.fclose (fs.m_files slot).fp } high := by
  have hlen := fs.host.length_fclose (h.front slot hactive)
  refine ⟨h.mapped, fun s hs => ?_, fun s hs => ?_, fun i => ?_, fun s hs hne => ?_, fun i => ?_⟩
  · dsimp only at hs ⊢
    rw [HostFs.fclose_lookup]
    by_cases heq : s = slot
    · rw [heq, Function.update_self] at hs ⊢
      rw [(hf hs).2.2, (hf hs).2.1]
      exact h.leads slot hactive
    · rw [Function.update_of_ne heq] at hs ⊢
      exact h.leads s hs
  · dsimp only at hs ⊢
    by_cases heq : s = slot
    · rw [heq, Function.update_self] at hs ⊢
      rw [(hf hs).1]
      exact Nat.zero_le _
    · rw [Function.update_of_ne heq] at hs ⊢
      exact h.front s hs
  · dsimp only
    rw [hlen]
    split_ifs with hc
    · rw [recordsOf_max, Nat.max_le, hc.1]
      exact ⟨h.stored _, h.held slot hactive hc.2⟩
    · exact h.stored i
  · dsimp only at hs hne ⊢
    by_cases heq : s = slot
    · rw [heq, Function.update_self] at hs hne
      exact absurd (hf hs).1 hne
    · rw [Function.update_of_ne heq] at hs hne ⊢
      exact h.held s hs hne
  · dsimp only
    rw [hlen]
    rcases h.tight i with hi | ⟨s, hs, hne, hi, hrec⟩
    · -- the host's file had it, and did not get longer than that
      left
      split_ifs with hc
      · have hheld := h.held slot hactive hc.2
        rw [← hc.1, hi] at hheld
        rw [recordsOf_max, Nat.max_eq_left hheld, hi]
      · exact hi
    · by_cases heq : s = slot
      · left
        rw [heq] at hne hi hrec
        rw [if_pos ⟨hi.symm, hne⟩, recordsOf_max, hrec, Nat.max_eq_right (h.stored i)]
      · right
        refine ⟨s, ?_⟩
        rw [Function.update_of_ne heq]
        exact ⟨hs, hne, hi, hrec⟩

/-- A free slot taken for a path that leads to a file. -/
theorem use (h : Tracks fs high) {slot : Fin 16} (hfree : (fs.m_files slot).active = false)
    {fp : Stream} {path : Str} (hpend : fp.pending = [])
    (hlead : ∃ n, fs.host.lookup path = some n ∧ n.inode = fp.inode) (fcb_addr : BitVec 16) :
    Tracks (fs.use_slot slot fp fcb_addr path) high := by
  unfold use_slot
  refine ⟨h.mapped, fun s hs => ?_, fun s hs => ?_, h.stored, fun s hs hne => ?_, fun i => ?_⟩
  · dsimp only at hs ⊢
    by_cases heq : s = slot
    · rw [heq, Function.update_self]
      exact hlead
    · rw [Function.update_of_ne heq] at hs ⊢
      exact h.leads s hs
  · dsimp only at hs ⊢
    by_cases heq : s = slot
    · rw [heq, Function.update_self, hpend]
      exact Nat.zero_le _
    · rw [Function.update_of_ne heq] at hs ⊢
      exact h.front s hs
  · dsimp only at hs hne ⊢
    by_cases heq : s = slot
    · rw [heq, Function.update_self] at hne
      exact absurd hpend hne
    · rw [Function.update_of_ne heq] at hs hne ⊢
      exact h.held s hs hne
  · rcases h.tight i with hi | ⟨s, hs, hne, hi, hrec⟩
    · exact .inl hi
    · have heq : s ≠ slot := by
        rintro rfl
        rw [hfree] at hs
        cases hs
      refine .inr ⟨s, ?_⟩
      dsimp only
      rw [Function.update_of_ne heq]
      exact ⟨hs, hne, hi, hrec⟩

theorem close_slot (h : Tracks fs high) {slot : Fin 16} (hactive : (fs.m_files slot).active = true) :
    Tracks (fs.close_slot slot) high := by
  refine h.flush hactive { fs.m_files slot with active := false } fun hf => ?_
  cases hf

theorem seek (h : Tracks fs high) {slot : Fin 16} (hactive : (fs.m_files slot).active = true)
    (offset : ℕ) : Tracks (fs.seek slot offset) high := by
  unfold CpmFileSystem.seek
  dsimp only
  rw [HostFs.fseek_host, HostFs.fseek_stream]
  exact h.flush hactive _ fun _ => ⟨rfl, rfl, rfl⟩

theorem seek_end (h : Tracks fs high) {slot : Fin 16} (hactive : (fs.m_files slot).active = true) :
    Tracks { fs with
      m_files := Function.update fs.m_files slot
        { fs.m_files slot with fp := (fs.host.fseek_end (fs.m_files slot).fp).2 }
      host := (fs.host.fseek_end (fs.m_files slot).fp).1 } high := by
  rw [HostFs.fseek_end_host, HostFs.fseek_end_stream]
  exact h.flush hactive _ fun _ => ⟨rfl, rfl, rfl⟩

/-- A write that the stream holds back. -/
theorem hold (h : Tracks fs high) {slot : Fin 16} (hactive : (fs.m_files slot).active = true)
    {buf : List Byte} (hbuf : buf ≠ []) :
    Tracks { fs with
      m_files := Function.update fs.m_files slot { fs.m_files slot with
        fp := { (fs.m_files slot).fp with
          pos := (fs.m_files slot).fp.pos + buf.length
          pending := (fs.m_files slot).fp.pending ++ buf } } }
      (bump high (fs.m_files slot).fp.inode
        (recordsOf ((fs.m_files slot).fp.pos + buf.length))) := by
  have hle := recordsOf_mono (Nat.le_add_right (fs.m_files slot).fp.pos buf.length)
  have hnew : (fs.m_files slot).fp.pending ++ buf ≠ [] := by simp [hbuf]
  refine ⟨h.mapped, fun s hs => ?_, fun s hs => ?_, fun i => ?_, fun s hs hne => ?_, fun i => ?_⟩
  · dsimp only at hs ⊢
    by_cases heq : s = slot
    · rw [heq, Function.update_self]
      exact h.leads slot hactive
    · rw [Function.update_of_ne heq] at hs ⊢
      exact h.leads s hs
  · dsimp only at hs ⊢
    by_cases heq : s = slot
    · rw [heq, Function.update_self]
      dsimp only
      rw [List.length_append]
      exact Nat.add_le_add_right (h.front slot hactive) _
    · rw [Function.update_of_ne heq] at hs ⊢
      exact h.front s hs
  · exact Nat.le_trans (h.stored i) (le_bump _ _ _ _)
  · dsimp only at hs hne ⊢
    by_cases heq : s = slot
    · rw [heq, Function.update_self]
      dsimp only
      rw [bump_self]
      exact Nat.le_max_right _ _
    · rw [Function.update_of_ne heq] at hs hne ⊢
      exact Nat.le_trans (h.held s hs hne) (le_bump _ _ _ _)
  · by_cases hi : i = (fs.m_files slot).fp.inode
    · rw [hi, bump_self]
      rcases Nat.le_total (high (fs.m_files slot).fp.inode)
          (recordsOf ((fs.m_files slot).fp.pos + buf.length)) with hhigh | hhigh
      · rw [Nat.max_eq_right hhigh]
        refine .inr ⟨slot, ?_⟩
        dsimp only
        rw [Function.update_self]
        exact ⟨hactive, hnew, rfl, rfl⟩
      · rw [Nat.max_eq_left hhigh]
        rcases h.tight (fs.m_files slot).fp.inode with ht | ⟨s, hs, hne, hin, hrec⟩
        · exact .inl ht
        · refine .inr ⟨s, ?_⟩
          dsimp only
          by_cases heq : s = slot
          · -- the stream's own bytes were the highest, and still are
            rw [heq] at hrec
            rw [heq, Function.update_self]
            exact ⟨hactive, hnew, rfl, Nat.le_antisymm hhigh (hrec ▸ hle)⟩
          · rw [Function.update_of_ne heq]
            exact ⟨hs, hne, hin, hrec⟩
    · rw [bump_of_ne _ _ hi]
      rcases h.tight i with ht | ⟨s, hs, hne, hin, hrec⟩
      · exact .inl ht
      · have heq : s ≠ slot := by
          rintro rfl
          exact hi hin.symm
        refine .inr ⟨s, ?_⟩
        dsimp only
        rw [Function.update_of_ne heq]
        exact ⟨hs, hne, hin, hrec⟩

/-- A write that reaches the file at once. -/
theorem put (h : Tracks fs high) {slot : Fin 16} (hactive : (fs.m_files slot).active = true)
    (buf : List Byte) :
    Tracks { fs with
      m_files := Function.update fs.m_files slot { fs.m_files slot with
        fp := { (fs.m_files slot).fp with pos := (fs.m_files slot).fp.pos + buf.length } }
      host := fs.host.setData (fs.m_files slot).fp.inode
        (overwrite (fs.host.data (fs.m_files slot).fp.inode) (fs.m_files slot).fp.pos buf) }
      (bump high (fs.m_files slot).fp.inode
        (recordsOf ((fs.m_files slot).fp.pos + buf.length))) := by
  have hle := recordsOf_mono (Nat.le_add_right (fs.m_files slot).fp.pos buf.length)
  have hlen := length_overwrite (fs.host.data (fs.m_files slot).fp.inode) (fs.m_files slot).fp.pos buf
  unfold HostFs.setData
  refine ⟨h.mapped, fun s hs => ?_, fun s hs => ?_, fun i => ?_, fun s hs hne => ?_, fun i => ?_⟩
  · dsimp only at hs ⊢
    by_cases heq : s = slot
    · rw [heq, Function.update_self]
      exact h.leads slot hactive
    · rw [Function.update_of_ne heq] at hs ⊢
      exact h.leads s hs
  · dsimp only at hs ⊢
    by_cases heq : s = slot
    · rw [heq, Function.update_self]
      exact Nat.le_add_right_of_le (h.front slot hactive)
    · rw [Function.update_of_ne heq] at hs ⊢
      exact h.front s hs
  · dsimp only
    by_cases hi : i = (fs.m_files slot).fp.inode
    · rw [hi, Function.update_self, hlen, recordsOf_max, bump_self]
      exact max_le_max (h.stored _) (Nat.le_refl _)
    · rw [Function.update_of_ne hi, bump_of_ne _ _ hi]
      exact h.stored i
  · dsimp only at hs hne ⊢
    by_cases heq : s = slot
    · rw [heq, Function.update_self]
      dsimp only
      rw [bump_self]
      exact Nat.le_max_right _ _
    · rw [Function.update_of_ne heq] at hs hne ⊢
      exact Nat.le_trans (h.held s hs hne) (le_bump _ _ _ _)
  · dsimp only
    by_cases hi : i = (fs.m_files slot).fp.inode
    · rw [hi, Function.update_self, hlen, recordsOf_max, bump_self]
      rcases h.tight (fs.m_files slot).fp.inode with ht | ⟨s, hs, hne, hin, hrec⟩
      · exact .inl (congrArg (max · _) ht)
      · rcases Nat.le_total (high (fs.m_files slot).fp.inode)
            (recordsOf ((fs.m_files slot).fp.pos + buf.length)) with hhigh | hhigh
        · rw [Nat.max_eq_right hhigh, Nat.max_eq_right (Nat.le_trans (h.stored _) hhigh)]
          exact .inl rfl
        · rw [Nat.max_eq_left hhigh]
          refine .inr ⟨s, ?_⟩
          by_cases heq : s = slot
          · rw [heq] at hne hrec
            rw [heq, Function.update_self]
            exact ⟨hactive, hne, rfl, Nat.le_antisymm hhigh (hrec ▸ hle)⟩
          · rw [Function.update_of_ne heq]
            exact ⟨hs, hne, hin, hrec⟩
    · rw [Function.update_of_ne hi, bump_of_ne _ _ hi]
      rcases h.tight i with ht | ⟨s, hs, hne, hin, hrec⟩
      · exact .inl ht
      · have heq : s ≠ slot := by
          rintro rfl
          exact hi hin.symm
        refine .inr ⟨s, ?_⟩
        rw [Function.update_of_ne heq]
        exact ⟨hs, hne, hin, hrec⟩

/-- A write that the stream takes. -/
theorem write (h : Tracks fs high) {slot : Fin 16} (hactive : (fs.m_files slot).active = true)
    (hwritable : (fs.m_files slot).fp.writable = true) {buf : List Byte} (hbuf : buf ≠ []) :
    Tracks (fs.write slot buf).1 (bump high (fs.m_files slot).fp.inode
      (recordsOf ((fs.m_files slot).fp.pos + buf.length))) := by
  unfold CpmFileSystem.write HostFs.fwrite
  rw [if_pos hwritable]
  split_ifs
  · exact h.hold hactive hbuf
  · exact h.put hactive buf

end Tracks

/-! ## 2. The operations -/

theorem seek_file (slot : Fin 16) (offset : ℕ) : (fs.seek slot offset).m_files slot =
    { fs.m_files slot with fp := { (fs.m_files slot).fp with pos := offset, pending := [] } } := by
  unfold seek
  dsimp only
  rw [Function.update_self, HostFs.fseek_stream]

/-- The stream of a path leads to the path's file. -/
theorem fopen_update_leads {path : Str} {fp : Stream} (h : fs.fopen_update path = some fp) :
    fp.pending = [] ∧ ∃ n, fs.host.lookup path = some n ∧ n.inode = fp.inode := by
  cases hl : fs.host.lookup path with
  | none =>
    unfold fopen_update HostFs.fopen_rp HostFs.fopen_r at h
    rw [hl] at h
    cases h
  | some n =>
    rw [fopen_update_of_lookup hl] at h
    obtain rfl := Option.some.inj h
    exact ⟨rfl, n, rfl, rfl⟩

namespace Tracks

theorem mem_write (h : Tracks fs high) (a : BitVec 16) (v : Byte) : Tracks (fs.mem_write a v) high := by
  refine h.congr ?_ rfl rfl
  rw [mem_write_map]
  exact h.mapped

theorem update_fcb_after_read (h : Tracks fs high) (fcb_addr : BitVec 16) (offset : ℕ) :
    Tracks (fs.update_fcb_after_read fcb_addr offset) high :=
  ((h.mem_write _ _).mem_write _ _).mem_write _ _

theorem put_random (h : Tracks fs high) (fcb_addr : BitVec 16) (record : ℕ) :
    Tracks (fs.put_random fcb_addr record) high :=
  ((h.mem_write _ _).mem_write _ _).mem_write _ _

theorem ensure_open (h : Tracks fs high) (fcb_addr : BitVec 16) :
    Tracks (fs.ensure_open fcb_addr).1 high := by
  refine ensure_open_induct (P := fun s => Tracks s high) (fun s slot hs ht => ht.close_slot hs) ?_
    fcb_addr h
  intro s slot fp path fcb_addr a v hslot hfp ht
  obtain ⟨hpend, hlead⟩ := fopen_update_leads hfp
  exact (ht.use (find_open_slot_inactive hslot) hpend hlead fcb_addr).mem_write a v

theorem close_stale (h : Tracks fs high) (fcb_addr : BitVec 16) :
    Tracks (fs.close_stale fcb_addr) high :=
  close_stale_induct (P := fun s => Tracks s high) (fun _ _ hs ht => ht.close_slot hs) fcb_addr h

theorem file_open (h : Tracks fs high) (fcb_addr : BitVec 16) :
    Tracks (fs.file_open fcb_addr).1 high := by
  have hstale := h.close_stale fcb_addr
  unfold CpmFileSystem.file_open
  dsimp only
  cases fs.host.stat (fs.fcb_to_host_path fcb_addr) with
  | none => exact h
  | some st =>
    dsimp only
    cases hslot : (fs.close_stale fcb_addr).find_open_slot with
    | none => exact hstale
    | some slot =>
      dsimp only
      cases hfp : (fs.close_stale fcb_addr).fopen_update (fs.fcb_to_host_path fcb_addr) with
      | none => exact hstale
      | some fp =>
        obtain ⟨hpend, hlead⟩ := fopen_update_leads hfp
        have huse := hstale.use (find_open_slot_inactive hslot) hpend hlead fcb_addr
        obtain ⟨m, hm, hinit⟩ := init_fcb_eq fcb_addr 0x80 (entry_rc (fs.host.st_size st)) slot
        dsimp only
        rw [hinit]
        exact (huse.mem hm).mem_write _ _

theorem file_close (h : Tracks fs high) (fcb_addr : BitVec 16) :
    Tracks (fs.file_close fcb_addr).1 high := by
  unfold CpmFileSystem.file_close
  cases hf : fs.find_file_by_fcb fcb_addr with
  | none => exact h
  | some slot => exact (h.close_slot (find_file_by_fcb_active hf)).mem_write _ _

theorem file_size (h : Tracks fs high) (fcb_addr : BitVec 16) :
    Tracks (fs.file_size fcb_addr).1 high := by
  unfold CpmFileSystem.file_size
  cases fs.host.stat (fs.fcb_to_host_path fcb_addr) with
  | none => exact h
  | some st => exact h.put_random _ _

/-- Warm boot. -/
theorem close_user_files (h : Tracks fs high) (system_tag : BitVec 16) :
    Tracks (fs.close_user_files system_tag) high :=
  close_user_files_induct (P := fun s => Tracks s high) (fun _ _ ha hs => hs.close_slot ha)
    (fun _ hs => hs.congr hs.mapped rfl rfl) system_tag h

theorem read_record (h : Tracks fs high) {slot : Fin 16} (hactive : (fs.m_files slot).active = true)
    (fcb_addr : BitVec 16) (offset : ℕ) : Tracks (fs.read_record fcb_addr slot offset).1 high := by
  have hseek := h.seek hactive offset
  unfold CpmFileSystem.read_record
  dsimp only
  split_ifs
  · exact hseek
  · exact (hseek.mem (dma_write_block_map _ _ _ _)).update_fcb_after_read fcb_addr _

/-- A record is written through a stream that is open for writing, and is then the highest of its
file or below it. -/
theorem write_record (h : Tracks fs high) {slot : Fin 16} (hactive : (fs.m_files slot).active = true)
    (fcb_addr : BitVec 16) (offset : ℕ) :
    (fs.m_files slot).fp.writable = true ∧ (fs.write_record fcb_addr slot offset).2 = 0 ∧
      Tracks (fs.write_record fcb_addr slot offset).1
        (bump high (fs.m_files slot).fp.inode (recordsOf (offset + 128))) ∨
    (fs.write_record fcb_addr slot offset).2 ≠ 0 ∧
      Tracks (fs.write_record fcb_addr slot offset).1 high := by
  have hseek := h.seek hactive offset
  have hfile := @seek_file fs slot offset
  have hlen := length_dma_read_block fs.m_dma_addr 0 128 fs.m_mem
  have hbuf : dma_read_block fs.m_dma_addr 0 128 fs.m_mem ≠ [] := by
    intro hnil
    rw [hnil] at hlen
    cases hlen
  unfold CpmFileSystem.write_record
  dsimp only
  cases hw : (fs.m_files slot).fp.writable with
  | true =>
    left
    have hwrite := hseek.write (by rw [hfile]; exact hactive) (by rw [hfile]; exact hw) hbuf
    have hn : ((fs.seek slot offset).write slot (dma_read_block fs.m_dma_addr 0 128 fs.m_mem)).2
        = 128 := by
      unfold CpmFileSystem.write
      rw [HostFs.fwrite_count, hfile, hlen]
      exact if_pos hw
    rw [hfile, hlen] at hwrite
    refine ⟨rfl, ?_⟩
    split_ifs with hc
    · exact absurd hn hc
    · exact ⟨rfl, hwrite.update_fcb_after_read fcb_addr _⟩
  | false =>
    right
    have hn : (fs.seek slot offset).write slot (dma_read_block fs.m_dma_addr 0 128 fs.m_mem) =
        (fs.seek slot offset, 0) := by
      unfold CpmFileSystem.write HostFs.fwrite
      rw [if_neg (by rw [hfile]; simpa using hw)]
      dsimp only
      rw [Function.update_eq_self]
    split_ifs with hc
    · exact ⟨Nat.one_ne_zero, hn ▸ hseek⟩
    · obtain hz := (not_not.mp hc).symm.trans (congrArg Prod.snd hn)
      cases hz

end Tracks

/-- A slot of file `i` that can be written to. -/
structure Writing (fs : CpmFileSystem) (slot : Fin 16) (i : ℕ) : Prop where
  active : (fs.m_files slot).active = true
  writable : (fs.m_files slot).fp.writable = true
  inode : (fs.m_files slot).fp.inode = i

namespace Writing

variable {slot : Fin 16} {i : ℕ}

theorem seek (h : Writing fs slot i) (offset : ℕ) : Writing (fs.seek slot offset) slot i ∧
    ((fs.seek slot offset).m_files slot).fp.pos = offset := by
  refine ⟨⟨?_, ?_, ?_⟩, ?_⟩ <;> rw [seek_file]
  · exact h.active
  · exact h.writable
  · exact h.inode

theorem write (h : Writing fs slot i) (buf : List Byte) : Writing (fs.write slot buf).1 slot i ∧
    ((fs.write slot buf).1.m_files slot).fp.pos = (fs.m_files slot).fp.pos + buf.length := by
  unfold CpmFileSystem.write HostFs.fwrite
  rw [if_pos h.writable]
  split_ifs
  all_goals
    refine ⟨⟨?_, ?_, ?_⟩, ?_⟩ <;> dsimp only <;> rw [Function.update_self]
    · exact h.active
    · exact h.writable
    · exact h.inode

end Writing

namespace Tracks

/-- The zeros before a record do not count for more than the record. -/
theorem zero_fill {slot : Fin 16} {i : ℕ} (offset : ℕ) (fs : CpmFileSystem) (cur_size : ℕ) :
    ∀ {high : ℕ → ℕ}, Tracks fs high → Writing fs slot i → (fs.m_files slot).fp.pos = cur_size →
      Writing (CpmFileSystem.zero_fill slot offset fs cur_size) slot i ∧
        ∃ n ≤ recordsOf offset,
          Tracks (CpmFileSystem.zero_fill slot offset fs cur_size) (bump high i n) := by
  induction fs, cur_size using CpmFileSystem.zero_fill.induct slot offset with
  | case1 fs cur_size hlt _ =>
    rename_i chunk ih
    intro high h hw hpos
    have hchunk : 0 < chunk ∧ cur_size + chunk ≤ offset := by
      unfold chunk
      split_ifs <;> omega
    have hlen : (List.replicate chunk (0 : Byte)).length = chunk := List.length_replicate
    have hne : List.replicate chunk (0 : Byte) ≠ [] := by
      intro hnil
      rw [hnil] at hlen
      exact absurd hlen.symm (Nat.ne_of_gt hchunk.1)
    obtain ⟨hw', hpos'⟩ := hw.write (List.replicate chunk 0)
    have ht := h.write hw.active hw.writable hne
    rw [hw.inode, hpos, hlen] at ht
    rw [hpos, hlen] at hpos'
    obtain ⟨hfw, n, hn, hft⟩ := ih ht hw' hpos'
    unfold CpmFileSystem.zero_fill
    rw [if_pos hlt]
    rw [bump_bump] at hft
    exact ⟨hfw, _, Nat.max_le.mpr ⟨recordsOf_mono hchunk.2, hn⟩, hft⟩
  | case2 fs cur_size hge =>
    intro high h hw _
    unfold CpmFileSystem.zero_fill
    rw [if_neg hge]
    refine ⟨hw, 0, Nat.zero_le _, ?_⟩
    rw [bump_zero]
    exact h

/-- A record written with zeros before it. -/
theorem write_zf (h : Tracks fs high) {slot : Fin 16} {i : ℕ} (hw : Writing fs slot i) (offset : ℕ) :
    let s := fs.host.fseek_end (fs.m_files slot).fp
    let fs₁ : CpmFileSystem := { fs with
      m_files := Function.update fs.m_files slot { fs.m_files slot with fp := s.2 }
      host := s.1 }
    let fs₂ := if offset > s.2.pos then
      CpmFileSystem.zero_fill slot offset (fs₁.seek slot s.2.pos) s.2.pos else fs₁
    let fs₃ := fs₂.seek slot offset
    Tracks (fs₃.write slot (dma_read_block fs₃.m_dma_addr 0 128 fs₃.m_mem)).1
      (bump high i (recordsOf (offset + 128))) := by
  intro s fs₁ fs₂ fs₃
  have h₁ : Tracks fs₁ high := h.seek_end hw.active
  have hw₁ : Writing fs₁ slot i := by
    refine ⟨?_, ?_, ?_⟩ <;> dsimp only [fs₁, s] <;> rw [Function.update_self]
    · exact hw.active
    · rw [HostFs.fseek_end_stream]
      exact hw.writable
    · rw [HostFs.fseek_end_stream]
      exact hw.inode
  have h₂ : Writing fs₂ slot i ∧ ∃ n ≤ recordsOf offset, Tracks fs₂ (bump high i n) := by
    dsimp only [fs₂]
    split_ifs
    · exact zero_fill offset _ _ (h₁.seek hw₁.active _) (hw₁.seek _).1 (hw₁.seek _).2
    · exact ⟨hw₁, 0, Nat.zero_le _, by rw [bump_zero]; exact h₁⟩
  obtain ⟨hw₂, n, hn, ht₂⟩ := h₂
  obtain ⟨hw₃, hpos₃⟩ := hw₂.seek offset
  have hlen := length_dma_read_block fs₃.m_dma_addr 0 128 fs₃.m_mem
  have hbuf : dma_read_block fs₃.m_dma_addr 0 128 fs₃.m_mem ≠ [] := by
    intro hnil
    rw [hnil] at hlen
    cases hlen
  have ht₃ := (ht₂.seek hw₂.active offset).write hw₃.active hw₃.writable hbuf
  rw [hw₃.inode, hpos₃, hlen, bump_bump,
    Nat.max_eq_right (Nat.le_trans hn (recordsOf_mono (Nat.le_add_right _ _)))] at ht₃
  exact ht₃

end Tracks

/-! ## 3. Runs -/

/-- The functions of a run. -/
inductive FileOp
  | file_open
  | file_close
  | file_read_seq
  | file_write_seq
  | file_read_rand
  | file_write_rand
  | file_size
  | file_set_random
  | file_write_rand_zf

namespace FileOp

def run : FileOp → CpmFileSystem → BitVec 16 → CpmFileSystem × ℕ
  | file_open => CpmFileSystem.file_open
  | file_close => CpmFileSystem.file_close
  | file_read_seq => CpmFileSystem.file_read_seq
  | file_write_seq => CpmFileSystem.file_write_seq
  | file_read_rand => CpmFileSystem.file_read_rand
  | file_write_rand => CpmFileSystem.file_write_rand
  | file_size => CpmFileSystem.file_size
  | file_set_random => CpmFileSystem.file_set_random
  | file_write_rand_zf => CpmFileSystem.file_write_rand_zf

/-- The record an operation is asked to write. -/
def record (op : FileOp) (fs : CpmFileSystem) (fcb_addr : BitVec 16) : Option ℕ :=
  match op with
  | file_write_seq => some (fs.file_record fcb_addr)
  | file_write_rand | file_write_rand_zf => some (fs.random_record fcb_addr)
  | _ => none

/-- The highest records after an operation: a write that succeeded counts for the file its path leads
to. -/
def noted (op : FileOp) (fs : CpmFileSystem) (fcb_addr : BitVec 16) (high : ℕ → ℕ) : ℕ → ℕ :=
  if (op.run fs fcb_addr).2 = 0 then
    match op.record fs fcb_addr, fs.host.lookup (fs.fcb_to_host_path fcb_addr) with
    | some record, some n => bump high n.inode (record + 1)
    | _, _ => high
  else high

end FileOp

/-- `F_WRITEZF` has a stream to write to. -/
def Writable (fs : CpmFileSystem) (fcb_addr : BitVec 16) : Prop :=
  ∀ fp, fs.fcb_stream fcb_addr = some fp → fp.writable = true

theorem ensure_open_lookup (fcb_addr : BitVec 16) (path : Str) :
    (fs.ensure_open fcb_addr).1.host.lookup path = fs.host.lookup path := by
  refine ensure_open_induct (P := fun s => s.host.lookup path = fs.host.lookup path) ?_ ?_ fcb_addr rfl
  · intro s slot _ hs
    exact (s.host.fclose_lookup (s.m_files slot).fp path).trans hs
  · intro s _ _ _ _ _ _ _ _ hs
    exact hs

namespace Tracks

/-- The file of the slot an operation gets is the file its path leads to. -/
theorem opened_inode (h : Tracks fs high) {fcb_addr : BitVec 16} {slot : Fin 16}
    (ho : Opened fs fcb_addr (fs.ensure_open fcb_addr).1 slot) :
    ∃ n, fs.host.lookup (fs.fcb_to_host_path fcb_addr) = some n ∧
      ((fs.ensure_open fcb_addr).1.m_files slot).fp.inode = n.inode := by
  obtain ⟨n, hn, hi⟩ := (h.ensure_open fcb_addr).leads slot ho.active
  rw [ho.path, ensure_open_lookup] at hn
  exact ⟨n, hn, hi.symm⟩

theorem read_at (h : Tracks fs high) (fcb_addr : BitVec 16) (offset : CpmFileSystem → ℕ) :
    Tracks (match fs.ensure_open fcb_addr with
      | (fs, none) => (fs, 0xff)
      | (fs, some slot) => fs.read_record fcb_addr slot (offset fs)).1 high := by
  have hopen := h.ensure_open fcb_addr
  rcases ensure_open_cases h.mapped fcb_addr with ⟨-, hnone⟩ | ⟨-, slot, hsome, ho⟩
  · generalize fs.ensure_open fcb_addr = e at *
    obtain ⟨s, _⟩ := e
    obtain rfl : _ = none := hnone
    exact hopen
  · have hactive := ho.active
    generalize fs.ensure_open fcb_addr = e at *
    obtain ⟨s, _⟩ := e
    obtain rfl : _ = some slot := hsome
    exact hopen.read_record hactive fcb_addr _

/-- What a write of record `record` leaves, when it succeeds and when it does not. -/
def Wrote (fs : CpmFileSystem) (high : ℕ → ℕ) (fcb_addr : BitVec 16) (record : ℕ)
    (r : CpmFileSystem × ℕ) : Prop :=
  (r.2 = 0 ∧ ∃ n, fs.host.lookup (fs.fcb_to_host_path fcb_addr) = some n ∧
    Tracks r.1 (bump high n.inode (record + 1))) ∨ r.2 ≠ 0 ∧ Tracks r.1 high

theorem write_at (h : Tracks fs high) (fcb_addr : BitVec 16) (record : ℕ)
    (offset : CpmFileSystem → ℕ)
    (hoffset : ∀ fs' slot, Opened fs fcb_addr fs' slot → offset fs' = 128 * record) :
    Wrote fs high fcb_addr record (match fs.ensure_open fcb_addr with
      | (fs, none) => (fs, 0xff)
      | (fs, some slot) => fs.write_record fcb_addr slot (offset fs)) := by
  have hopen := h.ensure_open fcb_addr
  rcases ensure_open_cases h.mapped fcb_addr with ⟨-, hnone⟩ | ⟨-, slot, hsome, ho⟩
  · generalize fs.ensure_open fcb_addr = e at *
    obtain ⟨s, _⟩ := e
    obtain rfl : _ = none := hnone
    exact .inr ⟨(by decide : 0xff ≠ 0), hopen⟩
  · obtain ⟨n, hn, hi⟩ := h.opened_inode ho
    have hactive := ho.active
    have hoff := hoffset _ _ ho
    generalize fs.ensure_open fcb_addr = e at *
    obtain ⟨s, _⟩ := e
    obtain rfl : _ = some slot := hsome
    dsimp only at hoff hi ⊢
    rw [hoff]
    rcases hopen.write_record hactive fcb_addr (128 * record) with ⟨-, hzero, ht⟩ | ⟨hne, ht⟩
    · rw [hi, (by omega : 128 * record + 128 = 128 * (record + 1)), recordsOf_mul] at ht
      exact .inl ⟨hzero, n, hn, ht⟩
    · exact .inr ⟨hne, ht⟩

theorem write_rand_zf (h : Tracks fs high) (fcb_addr : BitVec 16) (hw : fs.Writable fcb_addr) :
    Wrote fs high fcb_addr (fs.random_record fcb_addr) (fs.file_write_rand_zf fcb_addr) := by
  have hopen := h.ensure_open fcb_addr
  unfold file_write_rand_zf
  rcases ensure_open_cases h.mapped fcb_addr with ⟨-, hnone⟩ | ⟨-, slot, hsome, ho⟩
  · generalize fs.ensure_open fcb_addr = e at *
    obtain ⟨s, _⟩ := e
    obtain rfl : _ = none := hnone
    exact .inr ⟨(by decide : 0xff ≠ 0), hopen⟩
  · obtain ⟨n, hn, hi⟩ := h.opened_inode ho
    have hactive := ho.active
    have hoff := ho.random_offset
    have hwritable := hw _ ho.stream
    generalize fs.ensure_open fcb_addr = e at *
    obtain ⟨s, _⟩ := e
    obtain rfl : _ = some slot := hsome
    dsimp only at hoff hi ⊢
    rw [hoff]
    have ht := hopen.write_zf ⟨hactive, hwritable, hi⟩ (128 * fs.random_record fcb_addr)
    rw [(by omega : 128 * fs.random_record fcb_addr + 128 = 128 * (fs.random_record fcb_addr + 1)),
      recordsOf_mul] at ht
    exact .inl ⟨rfl, n, hn, ht.update_fcb_after_read fcb_addr _⟩

/-- What is noted of a write is what it left. -/
theorem noted_of_wrote {o : FileOp} {fcb_addr : BitVec 16} {record : ℕ}
    (hr : o.record fs fcb_addr = some record)
    (h : Wrote fs high fcb_addr record (o.run fs fcb_addr)) :
    Tracks (o.run fs fcb_addr).1 (o.noted fs fcb_addr high) := by
  unfold FileOp.noted
  rcases h with ⟨hzero, n, hn, ht⟩ | ⟨hne, ht⟩
  · rw [if_pos hzero, hr, hn]
    exact ht
  · rw [if_neg hne]
    exact ht

theorem noted_of_none {o : FileOp} {fcb_addr : BitVec 16} (hr : o.record fs fcb_addr = none)
    (h : Tracks (o.run fs fcb_addr).1 high) :
    Tracks (o.run fs fcb_addr).1 (o.noted fs fcb_addr high) := by
  unfold FileOp.noted
  rw [hr]
  split_ifs <;> exact h

/-- **Every operation keeps what is tracked.** -/
theorem op (h : Tracks fs high) (o : FileOp) (fcb_addr : BitVec 16)
    (hzf : o = .file_write_rand_zf → fs.Writable fcb_addr) :
    Tracks (o.run fs fcb_addr).1 (o.noted fs fcb_addr high) := by
  cases o with
  | file_open => exact noted_of_none rfl (h.file_open fcb_addr)
  | file_close => exact noted_of_none rfl (h.file_close fcb_addr)
  | file_read_seq => exact noted_of_none rfl (h.read_at fcb_addr _)
  | file_read_rand => exact noted_of_none rfl (h.read_at fcb_addr _)
  | file_size => exact noted_of_none rfl (h.file_size fcb_addr)
  | file_set_random => exact noted_of_none rfl (h.put_random fcb_addr _)
  | file_write_seq =>
    exact noted_of_wrote rfl (h.write_at fcb_addr _ _ fun _ _ ho => ho.file_offset)
  | file_write_rand =>
    exact noted_of_wrote rfl (h.write_at fcb_addr _ _ fun _ _ ho => ho.random_offset)
  | file_write_rand_zf => exact noted_of_wrote rfl (h.write_rand_zf fcb_addr (hzf rfl))

end Tracks

/-- The memory of a machine, on a map it can have. -/
abbrev Mapped := { m : HostedMemory // m.map.Reachable }

/-- A step of a run: a function, a warm boot, or anything a program does by itself, which may change
memory, the DMA address, its bank or segment, the drive and the user. -/
inductive Step
  | call (o : FileOp) (fcb_addr : BitVec 16)
  | warm_boot (system_tag : BitVec 16)
  | program (mem : Mapped) (dma_addr : BitVec 32) (caller_tag : BitVec 16) (current_drive : ℕ)
      (user : Byte)

/-- The file system, and the highest record every file had. -/
structure Tracked where
  fs : CpmFileSystem
  high : ℕ → ℕ

namespace Step

def run : Step → Tracked → Tracked
  | call o fcb_addr, t => ⟨(o.run t.fs fcb_addr).1, o.noted t.fs fcb_addr t.high⟩
  | warm_boot system_tag, t => ⟨t.fs.close_user_files system_tag, t.high⟩
  | program mem dma_addr caller_tag current_drive user, t =>
    ⟨{ t.fs with
        m_mem := mem.1
        m_dma_addr := dma_addr
        m_caller_tag := caller_tag
        m_current_drive := current_drive
        m_user := user }, t.high⟩

/-- The step is not a `F_WRITEZF` through a stream that is open for reading. -/
def Through : Step → Tracked → Prop
  | call .file_write_rand_zf fcb_addr, t => t.fs.Writable fcb_addr
  | _, _ => True

end Step

/-- A run, and every step of it. -/
def runSteps (steps : List Step) (t : Tracked) : Tracked := steps.foldl (fun t s => s.run t) t

def AllThrough : List Step → Tracked → Prop
  | [], _ => True
  | s :: steps, t => s.Through t ∧ AllThrough steps (s.run t)

/-- Where a run starts: nothing is held back, and every open slot's path leads to its file. So it is
when no slot is open. -/
structure Settled (fs : CpmFileSystem) : Prop where
  mapped : fs.m_mem.map.Reachable
  leads : ∀ slot, (fs.m_files slot).active = true → ∃ n,
    fs.host.lookup (fs.m_files slot).host_path = some n ∧ n.inode = (fs.m_files slot).fp.inode
  flushed : ∀ slot, (fs.m_files slot).active = true → (fs.m_files slot).fp.pending = []

def Tracked.start (fs : CpmFileSystem) : Tracked := ⟨fs, fun i => recordsOf (fs.host.data i).length⟩

theorem Settled.tracks (h : Settled fs) : Tracks fs (Tracked.start fs).high where
  mapped := h.mapped
  leads := h.leads
  front slot hs := by
    rw [h.flushed slot hs]
    exact Nat.zero_le _
  stored _ := Nat.le_refl _
  held slot hs hne := absurd (h.flushed slot hs) hne
  tight _ := .inl rfl

theorem Tracks.step {t : Tracked} (h : Tracks t.fs t.high) {s : Step} (hs : s.Through t) :
    Tracks (s.run t).fs (s.run t).high := by
  cases s with
  | call o fcb_addr =>
    refine h.op o fcb_addr ?_
    rintro rfl
    exact hs
  | warm_boot system_tag => exact h.close_user_files system_tag
  | program mem _ _ _ _ => exact h.congr mem.2 rfl rfl

/-- **What is tracked is kept over whole runs.** -/
theorem Tracks.run {t : Tracked} (h : Tracks t.fs t.high) {steps : List Step}
    (hs : AllThrough steps t) : Tracks (runSteps steps t).fs (runSteps steps t).high := by
  induction steps generalizing t with
  | nil => exact h
  | cons s steps ih => exact ih (h.step hs.1) hs.2

/-! ## 4. `F_SIZE` -/

/-- **`F_SIZE` stores the highest record of its file**, and zero where there is no file. -/
def SizeCorrect (t : Tracked) (fcb_addr : BitVec 16) : Prop :=
  ((t.fs.file_size fcb_addr).1).random_record fcb_addr =
    match t.fs.host.lookup (t.fs.fcb_to_host_path fcb_addr) with
    | some n => t.high n.inode
    | none => 0

/-- No open stream holds back a record beyond those in the host's file, whose number fits three bytes;
where there is no file, the FCB's record number is zero. -/
def SizeKnown (fs : CpmFileSystem) (fcb_addr : BitVec 16) : Prop :=
  match fs.host.lookup (fs.fcb_to_host_path fcb_addr) with
  | some n => recordsOf (fs.host.data n.inode).length < 2 ^ 24 ∧
      ∀ slot, (fs.m_files slot).active = true → (fs.m_files slot).fp.inode = n.inode →
        (fs.m_files slot).fp.pending ≠ [] →
          recordsOf (fs.m_files slot).fp.pos ≤ recordsOf (fs.host.data n.inode).length
  | none => fs.random_record fcb_addr = 0

/-- Nothing is held back beyond the file exactly where the file has its highest record. -/
theorem Tracks.high_iff (h : Tracks fs high) (i : ℕ) : high i = recordsOf (fs.host.data i).length ↔
    ∀ slot, (fs.m_files slot).active = true → (fs.m_files slot).fp.inode = i →
      (fs.m_files slot).fp.pending ≠ [] →
        recordsOf (fs.m_files slot).fp.pos ≤ recordsOf (fs.host.data i).length := by
  constructor
  · intro hi slot hs hin hne
    rw [← hi, ← hin]
    exact h.held slot hs hne
  · intro hall
    rcases h.tight i with hi | ⟨slot, hs, hne, hin, hrec⟩
    · exact hi
    · refine Nat.le_antisymm ?_ (h.stored i)
      rw [← hrec]
      exact hall slot hs hin hne

/-- **In every state of a run, `F_SIZE` is right exactly where the host's file is up to date and its
records can be counted in three bytes**, and for a missing file where it had nothing to store. -/
theorem size_iff (hstart : Settled fs) {steps : List Step}
    (hthrough : AllThrough steps (Tracked.start fs)) (fcb_addr : BitVec 16) :
    SizeCorrect (runSteps steps (Tracked.start fs)) fcb_addr ↔
      SizeKnown (runSteps steps (Tracked.start fs)).fs fcb_addr := by
  have ht := hstart.tracks.run hthrough
  generalize runSteps steps (Tracked.start fs) = t at ht
  unfold SizeCorrect SizeKnown CpmFileSystem.file_size HostFs.stat
  cases hl : t.fs.host.lookup (t.fs.fcb_to_host_path fcb_addr) with
  | none => exact Iff.rfl
  | some n =>
    dsimp only
    rw [random_record_put ht.mapped, ← ht.high_iff, ← recordsOf, HostFs.st_size]
    have hle := ht.stored n.inode
    omega

/-- An empty file A. -/
def emptyA : CpmFileSystem := sample fcb_a [([0x41], [])]

/-- It is opened and written to. -/
def writeA : List Step := [.call .file_open 0x5c, .call .file_write_seq 0x5c]

/-- The record is written, and the file closed. -/
theorem size_iff_closed :
    SizeCorrect (runSteps (writeA ++ [.call .file_close 0x5c]) (Tracked.start emptyA)) 0x5c ↔
      SizeKnown (runSteps (writeA ++ [.call .file_close 0x5c]) (Tracked.start emptyA)).fs 0x5c := by
  have hstart : Settled emptyA := by
    refine ⟨.z8002, fun _ h => ?_, fun _ h => ?_⟩ <;> exact absurd h Bool.false_ne_true
  have hthrough : AllThrough (writeA ++ [.call .file_close 0x5c]) (Tracked.start emptyA) := by
    simp [AllThrough, Step.Through, writeA]
  exact size_iff hstart hthrough 0x5c

/-- **A record is written to an empty file**, and `F_SIZE` stores 0. -/
theorem writeA_not_sizeCorrect : ¬ SizeCorrect (runSteps writeA (Tracked.start emptyA)) 0x5c := by
  unfold SizeCorrect
  decide +kernel

end CpmFileSystem

end Cpm8000.Host
