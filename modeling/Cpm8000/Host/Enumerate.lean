/-
# A search among other operations

A search keeps what `readdir` has still to return, and the pattern, in `m_search`. No other operation
touches that, and none turns a name into the name of a directory or back. So the calls of one search
show the files of the directory that match, whatever is opened, read, written, made or deleted between
them (`enumeration`), and each of them stores into its own entry of the DMA buffer only.
-/
import Cpm8000.Host.LoadFailure
import Cpm8000.Host.SlotCache

namespace Cpm8000.Host

open Cpm8000.Sys

/-! ## 1. Names of directories -/

namespace HostFs

variable {h : HostFs}

/-- The name is a directory's. -/
def is_dir (h : HostFs) (path : Str) : Bool := (h.stat path).any Node.isdir

theorem is_dir_congr {h h' : HostFs} {path : Str} (hl : h'.lookup path = h.lookup path) :
    h'.is_dir path = h.is_dir path := by
  rw [is_dir, is_dir, stat, stat, hl]

theorem is_dir_fclose (fp : Stream) (path : Str) : (h.fclose fp).is_dir path = h.is_dir path :=
  is_dir_congr (h.fclose_lookup fp path)

theorem is_dir_fwrite (fp : Stream) (buf : List Byte) (path : Str) :
    (h.fwrite fp buf).1.is_dir path = h.is_dir path := by
  unfold fwrite
  split_ifs
  · rfl
  · rfl
  · rfl

/-- A name that loses its file was no directory's. -/
theorem is_dir_unlink (path q : Str) : (h.unlink path).1.is_dir q = h.is_dir q := by
  rcases h.unlink_cases path with ⟨n, hn, hdir, hu⟩ | ⟨-, hu⟩
  · rw [hu]
    by_cases hq : h.key q = h.key path
    · have hnone : (h.without path).lookup q = none := by
        rw [lookup, List.find?_eq_none]
        intro x hx
        rw [decide_eq_true_eq]
        exact fun heq => (mem_without.mp hx).2 (heq.trans hq)
      rw [is_dir, is_dir, stat, stat, hnone, lookup_congr hq, hn, Option.any_some, hdir]
      rfl
    · exact is_dir_congr (without_lookup_of_ne hq)
  · rw [hu]

/-- A name that gets a file does not become a directory's. -/
theorem is_dir_fopen_wp (path q : Str) : (h.fopen_wp path).1.is_dir q = h.is_dir q := by
  unfold fopen_wp
  cases h.lookup path with
  | some n =>
    dsimp only
    split_ifs <;> rfl
  | none =>
    dsimp only
    split_ifs
    · rw [is_dir, is_dir, stat, stat, lookup_made]
      cases h.lookup q with
      | some n => rfl
      | none =>
        rw [Option.none_or]
        split_ifs <;> rfl
    · rfl

/-- What a renaming gives a name to was no directory. -/
theorem find?_renamed_new {old new : Str} {p : Node → Bool}
    (hp : ∀ x, p x = true → h.key x.path ≠ h.key new) (hold : ∀ x, h.key x.path = h.key old → p x = true)
    {l : List Node} (hdir : (l.find? fun x => h.key x.path = h.key old).any Node.isdir = false) :
    (((l.filter p).map fun x => if h.key x.path = h.key old then { x with path := new } else x).find?
      fun x => h.key x.path = h.key new).any Node.isdir = false := by
  induction l with
  | nil => rfl
  | cons x l ih =>
    by_cases hx : h.key x.path = h.key old
    · rw [List.find?_cons_of_pos (by simpa using hx)] at hdir
      rw [List.filter_cons_of_pos (hold x hx), List.map_cons, if_pos hx,
        List.find?_cons_of_pos (by simp)]
      exact hdir
    · rw [List.find?_cons_of_neg (by simpa using hx)] at hdir
      by_cases hpx : p x = true
      · rw [List.filter_cons_of_pos hpx, List.map_cons, if_neg hx,
          List.find?_cons_of_neg (by simpa using hp x hpx)]
        exact ih hdir
      · rw [List.filter_cons_of_neg hpx]
        exact ih hdir

/-- The old name of what is renamed is nobody's. -/
theorem find?_renamed_old {old new : Str} (hne : h.key new ≠ h.key old) (l : List Node) :
    ((l.map fun x => if h.key x.path = h.key old then { x with path := new } else x).find?
      fun x => h.key x.path = h.key old) = none := by
  rw [List.find?_eq_none]
  intro x hx
  obtain ⟨y, -, rfl⟩ := List.mem_map.mp hx
  rw [decide_eq_true_eq]
  split_ifs with hy
  · exact hne
  · exact hy

theorem is_dir_nodes {q r : Str} (hq : h.key q = h.key r) (l : List Node) :
    ({ h with nodes := l } : HostFs).is_dir q =
      (l.find? fun x => h.key x.path = h.key r).any Node.isdir := by
  rw [← hq]
  rfl

/-- **A renaming makes no directory and takes none away.** -/
theorem is_dir_rename (old new q : Str) : (h.rename old new).1.is_dir q = h.is_dir q := by
  rcases h.rename_cases old new with hsame | ⟨⟨⟨n, hn, hdir⟩, hnew, hcreate, hkey⟩, -, hkept⟩
  · rw [hsame]
  by_cases hq : h.key q = h.key old ∨ h.key q = h.key new
  · -- neither name is a directory's, before or after
    have hbefore : h.is_dir q = false := by
      rw [is_dir, stat]
      rcases hq with hq | hq
      · rw [lookup_congr hq, hn, Option.any_some, hdir]
      · rw [lookup_congr hq]
        cases ht : h.lookup new with
        | none => rfl
        | some t => exact hnew t ht
    have hfind := @find?_renamed_new h old new (fun x => decide (h.key x.path ≠ h.key new))
      (fun x hx => by simpa using hx) (fun x hx => by simpa [hx] using hkey) h.nodes
      (by rw [← lookup, hn, Option.any_some, hdir])
    rw [hbefore, rename, hn]
    dsimp only
    cases ht : h.lookup new with
    | some t =>
      have hd : ¬ (t.isdir = true ∨ n.isdir = true) := by
        rw [hnew t ht, hdir]
        decide
      dsimp only
      rw [if_neg hd, if_neg hkey]
      rcases hq with hq | hq
      · have hnone := @find?_renamed_old h old new hkey.symm
          (h.nodes.filter fun x => h.key x.path ≠ h.key new)
        exact (is_dir_nodes hq _).trans (congrArg (Option.any Node.isdir) hnone)
      · exact (is_dir_nodes hq _).trans hfind
    | none =>
      have hfilter : h.nodes.filter (fun x => decide (h.key x.path ≠ h.key new)) = h.nodes := by
        rw [List.filter_eq_self]
        intro x hx
        have hx' := List.find?_eq_none.mp ht x hx
        simpa using hx'
      rw [hfilter] at hfind
      have hd : h.can_create new = true ∧ ¬ n.isdir = true := ⟨hcreate ht, by rw [hdir]; decide⟩
      dsimp only
      rw [if_pos hd]
      rcases hq with hq | hq
      · have hnone := @find?_renamed_old h old new hkey.symm h.nodes
        exact (is_dir_nodes hq _).trans (congrArg (Option.any Node.isdir) hnone)
      · exact (is_dir_nodes hq _).trans hfind
  · rw [not_or] at hq
    exact is_dir_congr (hkept q hq.1 hq.2)

end HostFs

/-- The map after a load is one a machine can have. -/
theorem pgmld_load_reachable {m : HostedMemory} (hm : m.map.Reachable) (a : LoaderAddressing)
    (pgldaddr lpb_addr : BitVec 32) (fbuf : List Byte) :
    (pgmld_load a pgldaddr lpb_addr fbuf m).1.map.Reachable := by
  rw [pgmld_load_eq]
  split_ifs
  · rw [stored_of_eq]
    exact .configure_program _ _ hm
  · dsimp only
    rw [write_lpb_eq, write_basepage_eq, stored_of_eq]
    exact .configure_program _ _ hm
  · exact hm

namespace CpmFileSystem

variable {fs s : CpmFileSystem} {fcb_addr : BitVec 16}

/-! ## 2. What an operation leaves to a search -/

/-- **The state of a search is not disturbed**: it is as it was, its entries can still be stored, and
no name became a directory's or ceased to be one. -/
structure Undisturbed (fs s : CpmFileSystem) : Prop where
  search : s.m_search = fs.m_search
  mapped : fs.m_mem.map.Reachable → s.m_mem.map.Reachable
  kinds : ∀ path, s.host.is_dir path = fs.host.is_dir path

namespace Undisturbed

theorem refl (fs : CpmFileSystem) : Undisturbed fs fs := ⟨rfl, id, fun _ => rfl⟩

/-- A change of memory. -/
theorem mem (h : Undisturbed fs s) {m : HostedMemory} (hm : m.map = s.m_mem.map) :
    Undisturbed fs { s with m_mem := m } := by
  refine ⟨h.search, fun hmap => ?_, h.kinds⟩
  rw [hm]
  exact h.mapped hmap

theorem mem_write (h : Undisturbed fs s) (a : BitVec 16) (v : Byte) :
    Undisturbed fs (s.mem_write a v) :=
  h.mem (mem_write_map a v)

/-- A change of the files. -/
theorem files (h : Undisturbed fs s) {m_files : Fin 16 → OpenFile} {host : HostFs}
    (hkinds : ∀ path, host.is_dir path = s.host.is_dir path) :
    Undisturbed fs { s with m_files := m_files, host := host } :=
  ⟨h.search, h.mapped, fun path => (hkinds path).trans (h.kinds path)⟩

theorem close_slot (h : Undisturbed fs s) (slot : Fin 16) : Undisturbed fs (s.close_slot slot) :=
  h.files (HostFs.is_dir_fclose _)

theorem close_stale (h : Undisturbed fs s) (fcb_addr : BitVec 16) :
    Undisturbed fs (s.close_stale fcb_addr) :=
  close_stale_induct (fun _ slot _ ht => ht.close_slot slot) fcb_addr h

theorem ensure_open (fs : CpmFileSystem) (fcb_addr : BitVec 16) :
    Undisturbed fs (fs.ensure_open fcb_addr).1 :=
  ensure_open_induct (fun _ slot _ ht => ht.close_slot slot)
    (fun _ _ _ _ _ a v _ _ ht => mem_write (s := CpmFileSystem.use_slot ..) (ht.files fun _ => rfl) a v)
    fcb_addr (refl fs)

theorem seek (h : Undisturbed fs s) (slot : Fin 16) (offset : ℕ) :
    Undisturbed fs (s.seek slot offset) :=
  h.files (HostFs.is_dir_fclose _)

theorem write (h : Undisturbed fs s) (slot : Fin 16) (buf : List Byte) :
    Undisturbed fs (s.write slot buf).1 :=
  h.files (HostFs.is_dir_fwrite _ _)

theorem init_fcb (h : Undisturbed fs s) (fcb_addr : BitVec 16) (s2 rc : Byte) (slot : Fin 16) :
    Undisturbed fs (s.init_fcb fcb_addr s2 rc slot) := by
  obtain ⟨m, hm, hinit⟩ := @init_fcb_eq s fcb_addr s2 rc slot
  rw [hinit]
  exact (h.mem hm).mem_write _ _

theorem update_fcb_after_read (h : Undisturbed fs s) (fcb_addr : BitVec 16) (offset : ℕ) :
    Undisturbed fs (s.update_fcb_after_read fcb_addr offset) :=
  ((h.mem_write _ _).mem_write _ _).mem_write _ _

theorem put_random (h : Undisturbed fs s) (fcb_addr : BitVec 16) (record : ℕ) :
    Undisturbed fs (s.put_random fcb_addr record) :=
  ((h.mem_write _ _).mem_write _ _).mem_write _ _

theorem read_record (h : Undisturbed fs s) (fcb_addr : BitVec 16) (slot : Fin 16) (offset : ℕ) :
    Undisturbed fs (s.read_record fcb_addr slot offset).1 := by
  have hseek := h.seek slot offset
  unfold CpmFileSystem.read_record
  dsimp only
  split_ifs
  · exact hseek
  · exact (hseek.mem (dma_write_block_map _ _ _ _)).update_fcb_after_read _ _

theorem write_record (h : Undisturbed fs s) (fcb_addr : BitVec 16) (slot : Fin 16) (offset : ℕ) :
    Undisturbed fs (s.write_record fcb_addr slot offset).1 := by
  have hwrite := (h.seek slot offset).write slot
    (dma_read_block (s.seek slot offset).m_dma_addr 0 128 (s.seek slot offset).m_mem)
  unfold CpmFileSystem.write_record
  dsimp only
  split_ifs
  · exact hwrite
  · exact hwrite.update_fcb_after_read _ _

theorem zero_fill (h : Undisturbed fs s) (slot : Fin 16) (offset cur_size : ℕ) :
    Undisturbed fs (CpmFileSystem.zero_fill slot offset s cur_size) := by
  fun_induction CpmFileSystem.zero_fill slot offset s cur_size with
  | case1 s cur_size hlt chunk ih => exact ih (h.write slot _)
  | case2 s cur_size hlt => exact h

/-- An operation on an open file. -/
theorem with_open {op : CpmFileSystem → Fin 16 → CpmFileSystem × ℕ}
    (h : ∀ s slot, Undisturbed fs s → Undisturbed fs (op s slot).1) (fcb_addr : BitVec 16) :
    Undisturbed fs (fs.with_open fcb_addr op).1 := by
  have ho := ensure_open fs fcb_addr
  unfold CpmFileSystem.with_open
  rcases he : fs.ensure_open fcb_addr with ⟨s, _ | slot⟩ <;> rw [he] at ho
  · exact ho
  · exact h s slot ho

theorem file_open (fs : CpmFileSystem) (fcb_addr : BitVec 16) :
    Undisturbed fs (fs.file_open fcb_addr).1 := by
  have hstale := (refl fs).close_stale fcb_addr
  unfold CpmFileSystem.file_open
  dsimp only
  split
  · exact refl fs
  · split
    · exact hstale
    · split
      · exact hstale
      · exact init_fcb (hstale.files fun _ => rfl) _ _ _ _

theorem file_close (fs : CpmFileSystem) (fcb_addr : BitVec 16) :
    Undisturbed fs (fs.file_close fcb_addr).1 := by
  unfold CpmFileSystem.file_close
  split
  · exact refl fs
  · exact ((refl fs).close_slot _).mem_write _ _

theorem file_delete (fs : CpmFileSystem) (fcb_addr : BitVec 16) :
    Undisturbed fs (fs.file_delete fcb_addr).1 := by
  have hunlink : ∀ s, Undisturbed fs s → ∀ path,
      Undisturbed fs { s with host := (s.host.unlink path).1 } :=
    fun s hs path => hs.files (HostFs.is_dir_unlink path)
  unfold CpmFileSystem.file_delete
  dsimp only
  generalize fs.fcb_to_host_path fcb_addr = path
  cases fs.find_file_by_fcb fcb_addr with
  | none =>
    have hs := hunlink fs (refl fs) path
    rcases hu : fs.host.unlink path with ⟨host, _ | _⟩ <;> rw [hu] at hs <;> exact hs
  | some slot =>
    have hs := hunlink _ ((refl fs).close_slot slot) path
    dsimp only
    rcases hu : (fs.close_slot slot).host.unlink path with ⟨host, _ | _⟩ <;> rw [hu] at hs <;> exact hs

theorem file_make (fs : CpmFileSystem) (fcb_addr : BitVec 16) :
    Undisturbed fs (fs.file_make fcb_addr).1 := by
  have hstale := (refl fs).close_stale fcb_addr
  unfold CpmFileSystem.file_make
  dsimp only
  generalize fs.fcb_to_host_path fcb_addr = path
  have hmade : ∀ m_files, Undisturbed fs { fs.close_stale fcb_addr with
      m_files := m_files, host := ((fs.close_stale fcb_addr).host.fopen_wp path).1 } :=
    fun _ => hstale.files (HostFs.is_dir_fopen_wp path)
  split
  · exact hstale
  · rcases hf : (fs.close_stale fcb_addr).host.fopen_wp path with ⟨host, _ | fp⟩
    · rw [hf] at hmade
      exact hmade _
    · rw [hf] at hmade
      exact init_fcb (hmade _) _ _ _ _

theorem file_rename (fs : CpmFileSystem) (fcb_addr : BitVec 16) :
    Undisturbed fs (fs.file_rename fcb_addr).1 := by
  have hs : Undisturbed fs { fs with
      host := (fs.host.rename (fs.fcb_to_host_path fcb_addr) (fs.rename_path fcb_addr)).1 } :=
    (refl fs).files (HostFs.is_dir_rename _ _)
  unfold CpmFileSystem.file_rename
  rcases hr : fs.host.rename (fs.fcb_to_host_path fcb_addr) (fs.rename_path fcb_addr) with
    ⟨host, _ | _⟩ <;> rw [hr] at hs <;> exact hs

theorem file_size (fs : CpmFileSystem) (fcb_addr : BitVec 16) :
    Undisturbed fs (fs.file_size fcb_addr).1 := by
  unfold CpmFileSystem.file_size
  split
  · exact refl fs
  · exact (refl fs).put_random _ _

theorem file_write_rand_zf (fs : CpmFileSystem) (fcb_addr : BitVec 16) :
    Undisturbed fs (fs.file_write_rand_zf fcb_addr).1 := by
  have ho := ensure_open fs fcb_addr
  unfold CpmFileSystem.file_write_rand_zf
  rcases he : fs.ensure_open fcb_addr with ⟨s, _ | slot⟩ <;> rw [he] at ho
  · exact ho
  · dsimp only
    refine (((seek ?_ slot _).write slot _)).update_fcb_after_read _ _
    split_ifs
    · exact ((ho.files (HostFs.is_dir_fclose _)).seek slot _).zero_fill slot _ _
    · exact ho.files (HostFs.is_dir_fclose _)

/-- **Every FCB function but the search.** -/
theorem fcb_op {func : ℕ} (hfunc : func ≠ 17) (fs : CpmFileSystem) (fcb_addr : BitVec 16) :
    Undisturbed fs (Host.fcb_op func fs fcb_addr).1 := by
  unfold Host.fcb_op
  split
  · exact file_open fs fcb_addr
  · exact file_close fs fcb_addr
  · exact absurd rfl hfunc
  · exact file_delete fs fcb_addr
  · exact with_open (fun _ _ h => h.read_record _ _ _) fcb_addr
  · exact with_open (fun _ _ h => h.write_record _ _ _) fcb_addr
  · exact file_make fs fcb_addr
  · exact file_rename fs fcb_addr
  · exact refl fs
  · exact with_open (fun _ _ h => h.read_record _ _ _) fcb_addr
  · exact with_open (fun _ _ h => h.write_record _ _ _) fcb_addr
  · exact file_size fs fcb_addr
  · exact (refl fs).put_random _ _
  · exact file_write_rand_zf fs fcb_addr
  · exact refl fs

theorem bdos_pgmld (fs : CpmFileSystem) (caller_tag lpb_offset : BitVec 16)
    (addressing : LoaderAddressing) :
    Undisturbed fs (Host.bdos_pgmld fs caller_tag lpb_offset addressing).1 := by
  have hread : ∀ fcb_addr, Undisturbed fs (read_program fs fcb_addr).1 := by
    intro fcb_addr
    have ho := ensure_open fs fcb_addr
    unfold read_program
    rcases he : fs.ensure_open fcb_addr with ⟨s, _ | slot⟩ <;> rw [he] at ho
    · exact ho
    · have hkinds : ∀ path, (((s.host.fseek_end (s.m_files slot).fp).1.fseek
          (s.host.fseek_end (s.m_files slot).fp).2 0).1).is_dir path = s.host.is_dir path :=
        fun path => (HostFs.is_dir_fclose _ path).trans (HostFs.is_dir_fclose _ path)
      dsimp only
      split_ifs
      · exact ho.files hkinds
      · exact ho.files hkinds
  unfold Host.bdos_pgmld
  dsimp only
  have hs := hread (offsetOf (read_long fs.m_mem (tagged caller_tag lpb_offset)))
  rcases hr : read_program fs (offsetOf (read_long fs.m_mem (tagged caller_tag lpb_offset))) with
    ⟨s, code | fbuf⟩ <;> rw [hr] at hs
  · exact hs
  · exact ⟨hs.search, fun hmap => pgmld_load_reachable (hs.mapped hmap) .., hs.kinds⟩

end Undisturbed

end CpmFileSystem

namespace LayerStep

/-- A step that may come between the calls of a search: no new search, and no warm boot. -/
def DuringSearch : LayerStep → Prop
  | call func _ => func ≠ 17
  | warm_boot _ => False
  | _ => True

/-- The step is a call of `F_SNEXT`. -/
def is_next : LayerStep → Bool
  | search_next => true
  | _ => false

/-- **Any other operation leaves the search alone.** -/
theorem undisturbed {st : LayerStep} (hst : st.DuringSearch) (hnext : st.is_next = false)
    (fs : CpmFileSystem) : CpmFileSystem.Undisturbed fs (st.step fs).1 := by
  cases st with
  | search_next => cases hnext
  | warm_boot system_tag => exact hst.elim
  | pgmld addressing caller_tag lpb_offset => exact .bdos_pgmld fs caller_tag lpb_offset addressing
  | program mem dma_addr caller_tag current_drive user => exact ⟨rfl, fun _ => mem.2, fun _ => rfl⟩
  | call func fcb_addr => exact .fcb_op hst fs fcb_addr

end LayerStep

namespace CpmFileSystem

variable {fs s : CpmFileSystem} {found : List Str} {n : ℕ}

/-! ## 3. One call of a search -/

/-- Where an entry of the DMA buffer is. -/
def entry_places (fs : CpmFileSystem) (dir_index : ℕ) : List Phys :=
  (List.range DIR_ENTRY_SIZE).map fun i =>
    dmaAt fs.m_mem.map fs.m_dma_addr (dir_index * DIR_ENTRY_SIZE + i)

/-- The call `n` of a search that has `d_name` to show. -/
structure Entered (fs : CpmFileSystem) (n : ℕ) (d_name : Str) (r : CpmFileSystem × ℕ) : Prop where
  code : r.2 = n % 4
  entry : r.1.entry_fcb_name (n % 4) = filename_to_fcb d_name
  frame : ∀ p ∉ fs.entry_places (n % 4), r.1.m_mem.m_data p = fs.m_mem.m_data p

/-- **The call `n` of a search**, of those that show `found`, from `fs`. -/
def Shown (found : List Str) (n : ℕ) (fs : CpmFileSystem) (r : CpmFileSystem × ℕ) : Prop :=
  match found[n]? with
  | some d_name => Entered fs n d_name r
  | none => r.2 = 0xff ∧ r.1.m_mem = fs.m_mem

/-- **A search, before its call `n`**: what it is going to show is what is left of `found`. -/
structure Enumerating (found : List Str) (n : ℕ) (fs : CpmFileSystem) : Prop where
  mapped : fs.m_mem.map.Reachable
  search : fs.m_search.active = false ∧ found.length ≤ n ∨
    ∃ dirp dir_path drive pattern, fs.m_search = ⟨some dirp, dir_path, drive, pattern, true, n⟩ ∧
      dirp.filter (shows fs.host dir_path pattern) = found.drop n

/-- What a search shows depends on the directory it has open and on the kinds of the names in it. -/
theorem shows_congr {h h' : HostFs} (hkinds : ∀ path, h'.is_dir path = h.is_dir path)
    (dir_path : Str) (pattern : List Byte) : shows h' dir_path pattern = shows h dir_path pattern := by
  funext d_name
  have hdir := hkinds (dir_path ++ 0x2f :: d_name)
  rw [HostFs.is_dir, HostFs.is_dir] at hdir
  rw [shows, shows, hdir]

theorem Enumerating.undisturbed (h : Enumerating found n fs) (hs : Undisturbed fs s) :
    Enumerating found n s := by
  refine ⟨hs.mapped h.mapped, ?_⟩
  rw [hs.search]
  refine h.search.imp_right ?_
  rintro ⟨dirp, dir_path, drive, pattern, hsearch, hfilter⟩
  refine ⟨dirp, dir_path, drive, pattern, hsearch, ?_⟩
  rw [shows_congr hs.kinds]
  exact hfilter

/-- An entry's stores are in its place. -/
theorem put_entry_frame (fs : CpmFileSystem) (entry_index : ℕ) (fcb_name : ℕ → Byte) (st_size : ℕ)
    {p : Phys} (hp : p ∉ fs.entry_places (entry_index % 4)) :
    (put_entry (dma_write fs.m_dma_addr) entry_index fs.m_user fcb_name st_size fs.m_mem).m_data p =
      fs.m_mem.m_data p := by
  have hrun := (Transfer.file_search entry_index fs.m_user fcb_name st_size).run_eq fs.m_dma_addr
    fs.m_mem
  rw [Transfer.run] at hrun
  rw [(Prod.mk.inj hrun).1]
  refine storeAll_of_notMem fun hmem => hp ?_
  rw [storesAt, List.map_map] at hmem
  obtain ⟨⟨i, v⟩, hi, rfl⟩ := List.mem_map.mp hmem
  have hpos := (Transfer.mem_positions _).mp (.inl (List.mem_map_of_mem (f := Prod.fst) hi))
  rw [Transfer.start, Transfer.stop] at hpos
  refine List.mem_map.mpr ⟨i - entry_index % 4 * DIR_ENTRY_SIZE, List.mem_range.mpr (by omega), ?_⟩
  rw [Nat.add_sub_cancel' hpos.1]
  rfl

/-- **One call**: the next file is shown, or FF is returned. -/
theorem Enumerating.next (h : Enumerating found n fs) :
    Shown found n fs fs.file_search_next ∧ Enumerating found (n + 1) fs.file_search_next.1 := by
  rcases h.search with ⟨hover, hlen⟩ | ⟨dirp, dir_path, drive, pattern, hsearch, hfilter⟩
  · rw [file_search_next_inactive hover, Shown, List.getElem?_eq_none_iff.mpr hlen]
    exact ⟨⟨rfl, rfl⟩, h.mapped, .inl ⟨hover, by omega⟩⟩
  · have hnext := next_entry_eq fs dirp
    rw [hsearch] at hnext
    dsimp only at hnext
    rw [hfilter] at hnext
    have hhead := List.head?_drop (l := found) (i := n)
    unfold file_search_next
    rw [hsearch]
    dsimp only
    rcases hnext with ⟨hnone, hnil⟩ | ⟨d_name, rest, hsome, hcons⟩
    · rw [hnil] at hhead
      rw [hnone, Shown, ← hhead]
      exact ⟨⟨rfl, rfl⟩, h.mapped, .inl ⟨rfl, by
        have := List.drop_eq_nil_iff.mp hnil
        omega⟩⟩
    · rw [hcons] at hhead
      rw [hsome, Shown, ← hhead]
      dsimp only
      refine ⟨⟨rfl, ?_, ?_⟩, ?_, .inr ⟨rest, dir_path, drive, pattern, rfl, ?_⟩⟩
      · exact put_entry_name h.mapped fs.m_dma_addr n fs.m_user _ (length_filename_to_fcb d_name)
      · exact fun p hp => put_entry_frame fs n _ _ hp
      · dsimp only
        rw [put_entry_map]
        exact h.mapped
      · have htail := congrArg List.tail hcons
        rw [List.tail_drop, List.tail_cons] at htail
        exact htail.symm

/-! ## 4. A whole search -/

/-- The first call. -/
theorem file_search_first_shown (hmap : fs.m_mem.map.Reachable) (fcb_addr : BitVec 16) :
    Shown (fs.hits fcb_addr) 0 fs (fs.file_search_first fcb_addr) ∧
      Enumerating (fs.hits fcb_addr) 1 (fs.file_search_first fcb_addr).1 := by
  rcases file_search_first_cases fs fcb_addr with
    ⟨hnil, s, hover, hmem, hfirst⟩ | ⟨drive, dirp, -, -, hhits, hfirst⟩
  · rw [hnil, hfirst]
    refine ⟨⟨rfl, hmem⟩, ?_, .inl ⟨hover, Nat.zero_le _⟩⟩
    dsimp only
    rw [hmem]
    exact hmap
  · have hstart : Enumerating (fs.hits fcb_addr) 0 { fs with
        m_search := ⟨some dirp, fs.m_drive_paths drive, drive, fs.search_pattern fcb_addr, true, 0⟩
        } := ⟨hmap, .inr ⟨dirp, _, drive, _, rfl, hhits.symm⟩⟩
    obtain ⟨hshown, hnext⟩ := hstart.next
    rw [hfirst]
    refine ⟨?_, hnext⟩
    unfold Shown at hshown ⊢
    cases hat : (fs.hits fcb_addr)[0]? with
    | none =>
      rw [hat] at hshown
      exact hshown
    | some d_name =>
      rw [hat] at hshown
      exact ⟨hshown.code, hshown.entry, hshown.frame⟩

/-- The calls of `F_SNEXT` in a run. -/
def searches (tr : List (LayerStep × ℕ)) : ℕ := tr.countP fun x => x.1.is_next

/-- The search after a run: its own calls are counted, and nothing else matters. -/
theorem Enumerating.run {n : ℕ} (h : Enumerating found n fs) {tr : List (LayerStep × ℕ)}
    (hrun : Run LayerStep.step (fun _ st => st.DuringSearch) fs tr s) :
    Enumerating found (n + searches tr) s := by
  induction hrun with
  | nil => exact h
  | @snoc tr t st _ hst ih =>
    rw [searches, List.countP_append, List.countP_singleton, ← searches, ← Nat.add_assoc]
    cases hnext : st.is_next with
    | true =>
      cases st with
      | search_next => exact ih.next.2
      | _ => cases hnext
    | false => exact ih.undisturbed (LayerStep.undisturbed hst hnext t)

/-- **A whole search, among other operations.**  The calls show the files of `hits`, one each and in
order, and then return FF, whatever comes between them; and `hits` has a name of the directory as many
times as `readdir` returns it, if it is not hidden, no directory, and matches, and no other name. -/
theorem enumeration (hmap : fs.m_mem.map.Reachable) (fcb_addr : BitVec 16) :
    Shown (fs.hits fcb_addr) 0 fs (fs.file_search_first fcb_addr) ∧
    (∀ tr s, Run LayerStep.step (fun _ st => st.DuringSearch) (fs.file_search_first fcb_addr).1 tr s →
      Shown (fs.hits fcb_addr) (searches tr + 1) s s.file_search_next) ∧
    ∀ drive dirp, fs.search_drive fcb_addr = some drive →
      fs.host.opendir (fs.m_drive_paths drive) = some dirp → ∀ d_name,
        (fs.hits fcb_addr).count d_name =
          if d_name.head? ≠ some 0x2e ∧ fs.host.is_dir (fs.m_drive_paths drive ++ 0x2f :: d_name) = false ∧
            match_pattern (fs.search_pattern fcb_addr) (filename_to_fcb d_name) = true
          then dirp.count d_name else 0 := by
  obtain ⟨hfirst, hone⟩ := file_search_first_shown hmap fcb_addr
  refine ⟨hfirst, fun tr s hrun => ?_, fun drive dirp hd ho d_name => ?_⟩
  · have hat := hone.run hrun
    rw [Nat.add_comm] at hat
    exact hat.next.1
  · rw [hits, hd]
    dsimp only
    rw [ho, Option.getD_some]
    have hshows : shows fs.host (fs.m_drive_paths drive) (fs.search_pattern fcb_addr) d_name = true ↔
        d_name.head? ≠ some 0x2e ∧ fs.host.is_dir (fs.m_drive_paths drive ++ 0x2f :: d_name) = false ∧
          match_pattern (fs.search_pattern fcb_addr) (filename_to_fcb d_name) = true := by
      rw [shows, Bool.and_eq_true, Bool.and_eq_true, decide_eq_true_eq, Bool.not_eq_true', and_assoc]
      rfl
    split_ifs with h
    · exact List.count_filter (hshows.mpr h)
    · rw [List.count_eq_zero, List.mem_filter]
      exact fun hmem => h (hshows.mp hmem.2)

/-- Two files, and a search for all. -/
def allFiles : CpmFileSystem := sample (0 :: List.replicate 11 0x3f) [([0x41], []), ([0x42], [])]

/-- **The second call, after a file is deleted.** -/
theorem enumeration_deleted :
    Shown (allFiles.hits 0x5c) 0 allFiles (allFiles.file_search_first 0x5c) ∧
      Shown (allFiles.hits 0x5c) 1 ((LayerStep.call 19 0x5c).step (allFiles.file_search_first 0x5c).1).1
        ((LayerStep.call 19 0x5c).step (allFiles.file_search_first 0x5c).1).1.file_search_next := by
  obtain ⟨hfirst, hrun, -⟩ := @enumeration allFiles .z8002 0x5c
  exact ⟨hfirst, hrun _ _ (Run.nil.snoc (i := LayerStep.call 19 0x5c)
    (by decide : (19 : ℕ) ≠ 17))⟩

end CpmFileSystem

end Cpm8000.Host
