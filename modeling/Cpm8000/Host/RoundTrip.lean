/-
# From an entry back to its file

A program that lists a directory opens what it finds by copying an entry's name into an FCB
(`BuiltFrom`). `search_roundTrip_iff` says for which directories this leads every entry back to the
file it came from: those in which every file the search shows has a name an FCB can spell. Where one
has not, opening its entry finds another file, or none.
-/
import Cpm8000.Host.Search

namespace Cpm8000.Host

open Cpm8000.Sys

/-! ## 1. Names in a directory -/

namespace HostFs

variable {h : HostFs} {dir d_name : Str} {names : List Str}

theorem opendir_eq (ho : h.opendir dir = some names) :
    names = h.nodes.filterMap fun x => h.entry_name dir x.path := by
  unfold opendir at ho
  split at ho
  · cases ho
  · split_ifs at ho
    exact (Option.some.inj ho).symm

/-- A name `readdir` returns leads to its node. -/
theorem WellFormed.opendir_lookup (hw : h.WellFormed) (ho : h.opendir dir = some names)
    (hmem : d_name ∈ names) : d_name ≠ [] ∧ 0 ∉ d_name ∧
      ∃ n, h.lookup (dir ++ 0x2f :: d_name) = some n := by
  rw [opendir_eq ho] at hmem
  obtain ⟨n, hn, he⟩ := List.mem_filterMap.mp hmem
  obtain ⟨hkey, hne, -, hsub⟩ := entry_name_some he
  exact ⟨hne, fun h0 => hw.ended n hn (hsub 0 h0), n, hw.lookup_eq hn hkey⟩

/-- No name is returned twice. -/
theorem WellFormed.opendir_pairwise (hw : h.WellFormed) (ho : h.opendir dir = some names) :
    names.Pairwise fun a b => h.key a ≠ h.key b := by
  rw [opendir_eq ho]
  refine List.Pairwise.filterMap _ ?_ hw.unique
  intro x y hxy a ha b hb hab
  refine hxy ?_
  have hkey (d : Str) : h.key (dir ++ 0x2f :: d) = h.key (dir ++ [0x2f]) ++ h.key d := by
    rw [List.append_cons, key_append]
  rw [(entry_name_some ha).1, (entry_name_some hb).1, hkey a, hkey b, hab]

end HostFs

namespace CpmFileSystem

variable {fs : CpmFileSystem} {fcb_addr : BitVec 16}

/-! ## 2. Opening an entry's file -/

/-- **The FCB opens a file**: `file_open` succeeds, and the slot the FCB then holds is a stream of
the file, open for a path that leads to it. -/
structure OpensFile (fs : CpmFileSystem) (fcb_addr : BitVec 16) (n : Node) : Prop where
  code : (fs.file_open fcb_addr).2 = 0
  slot : ∃ slot, (fs.file_open fcb_addr).1.find_file_by_fcb fcb_addr = some slot ∧
    ((fs.file_open fcb_addr).1.m_files slot).fp.inode = n.inode ∧
    fs.host.lookup ((fs.file_open fcb_addr).1.m_files slot).host_path = some n

/-- With a slot free, the file the FCB opens is the one its path leads to. -/
theorem opensFile_iff (hfree : fs.find_open_slot.isSome) (n : Node) :
    fs.OpensFile fcb_addr n ↔ fs.host.lookup (fs.fcb_to_host_path fcb_addr) = some n := by
  rcases @file_open_cases fs fcb_addr with ⟨hnone, hff⟩ | ⟨m, slot, hl, -, hzero, hfind, hfile⟩
  · constructor
    · intro h
      have hcode := h.code
      rw [hff] at hcode
      cases hcode
    · intro hl
      rcases hnone with hnone | hnone
      · rw [hl] at hnone
        cases hnone
      · have hsome := close_stale_isSome fcb_addr hfree
        rw [hnone] at hsome
        cases hsome
  · constructor
    · rintro ⟨-, slot', hfind', -, hpath⟩
      obtain rfl := Option.some.inj (hfind.symm.trans hfind')
      rw [hfile] at hpath
      exact hpath
    · intro hl'
      obtain rfl := Option.some.inj (hl.symm.trans hl')
      exact ⟨hzero, slot, hfind, by rw [hfile], by rw [hfile]; exact hl⟩

/-- **An FCB built from an entry**: it holds the eleven bytes and names the drive, in a machine with
the same directory and a slot to open a file in. -/
structure BuiltFrom (fs : CpmFileSystem) (drive : ℕ) (fcb_name : List Byte) (fs' : CpmFileSystem)
    (fcb_addr : BitVec 16) : Prop where
  nodes : fs'.host.nodes = fs.host.nodes
  nocase : fs'.host.nocase = fs.host.nocase
  paths : fs'.m_drive_paths = fs.m_drive_paths
  drive : fs'.resolve_drive (fs'.mem_read (fcb_addr + FCB_DR)) = drive
  name : ∀ i < 11, fs'.mem_read (fcb_addr + FCB_F1 + BitVec.ofNat 16 i) = fcb_name.getD i 0
  slot : fs'.find_open_slot.isSome

theorem BuiltFrom.lookup {drive : ℕ} {fcb_name : List Byte} {fs' : CpmFileSystem}
    (h : BuiltFrom fs drive fcb_name fs' fcb_addr) (path : Str) :
    fs'.host.lookup path = fs.host.lookup path := by
  unfold HostFs.lookup HostFs.key
  rw [h.nodes, h.nocase]

/-- The path an FCB built from an entry names. -/
theorem BuiltFrom.path {drive : ℕ} {fcb_name : List Byte} {fs' : CpmFileSystem}
    (h : BuiltFrom fs drive fcb_name fs' fcb_addr) (hdrive : drive < MAX_DRIVES)
    (hlen : fcb_name.length = 11) : fs'.fcb_to_host_path fcb_addr =
      fs.m_drive_paths drive ++ 0x2f :: host_name (fcb_name.map (· &&& 0x7f)) := by
  have hname : fs'.read_fcb_name fcb_addr = fcb_name.map (· &&& 0x7f) := by
    refine List.ext_getElem (by simp [read_fcb_name, hlen]) fun i hi hi' => ?_
    rw [List.length_map, hlen] at hi'
    simp only [read_fcb_name, List.getElem_map, List.getElem_range]
    rw [h.name i hi', List.getD_eq_getElem?_getD, List.getElem?_eq_getElem (by omega),
      Option.getD_some]
  unfold fcb_to_host_path
  dsimp only
  rw [h.drive, if_neg (Nat.not_le_of_lt hdrive), h.paths, hname]

/-- Any eleven bytes can be put into an FCB. -/
theorem exists_builtFrom (fs : CpmFileSystem) {drive : ℕ} (hdrive : drive < MAX_DRIVES)
    (fcb_name : List Byte) : ∃ fs' fcb_addr, BuiltFrom fs drive fcb_name fs' fcb_addr := by
  refine ⟨{ fs with
    m_mem := ⟨.z8002 Z8002Memory.initial,
      fun p => if p = 0 then BitVec.ofNat 8 (drive + 1) else fcb_name.getD (p.toNat - 1) 0⟩
    m_caller_tag := 0
    m_files := fun _ => ⟨⟨0, false, 0, []⟩, 0, 0, false, []⟩ }, 0, ?_⟩
  have hphys : ∀ k, k < 12 → ((MemoryMap.z8002 Z8002Memory.initial).tagged_physical
      (tagged 0 (BitVec.ofNat 16 k)) false).toNat = k := by
    intro k hk
    have hbank : (Z8002Memory.bank 0).toNat = 0 := rfl
    rw [MemoryMap.Reachable.z8002.toNat_tagged, BitVec.toNat_ofNat, page_z8002, hbank]
    omega
  have hzero : (MemoryMap.z8002 Z8002Memory.initial).tagged_physical (tagged 0 0#16) false = 0 :=
    BitVec.eq_of_toNat_eq (hphys 0 (by decide))
  refine ⟨rfl, rfl, rfl, ?_, ?_, rfl⟩
  · have hat : (0 : BitVec 16) + FCB_DR = 0#16 := rfl
    have hnat : (BitVec.ofNat 8 (drive + 1)).toNat = drive + 1 := by
      rw [MAX_DRIVES] at hdrive
      rw [BitVec.toNat_ofNat]
      omega
    unfold resolve_drive mem_read Host.mem_read HostedMemory.read_byte
    dsimp only
    simp only [hat, hzero, if_true]
    rw [if_neg, hnat, Nat.add_sub_cancel]
    intro h0
    rw [h0] at hnat
    exact Nat.succ_ne_zero drive hnat.symm
  · intro i hi
    unfold mem_read Host.mem_read HostedMemory.read_byte
    have hat : (0 : BitVec 16) + FCB_F1 + BitVec.ofNat 16 i = BitVec.ofNat 16 (1 + i) := by
      rw [BitVec.ofNat_add]
      rfl
    dsimp only
    rw [hat, hphys (1 + i) (by omega), if_neg, Nat.add_sub_cancel_left]
    intro h0
    have hnat := congrArg BitVec.toNat h0
    rw [hphys (1 + i) (by omega)] at hnat
    have hz : (0 : Phys).toNat = 0 := rfl
    omega

/-! ## 3. The round trip -/

/-- The name a search returned leads to its file, or to nothing else. -/
theorem canonical_iff_lookup (hw : fs.host.WellFormed) (hcase : fs.host.nocase = true) {dir d_name : Str}
    {n : Node} (h0 : 0 ∉ d_name) (hdot : d_name.head? ≠ some 0x2e)
    (hn : fs.host.lookup (dir ++ 0x2f :: d_name) = some n) :
    fs.host.lookup (dir ++ 0x2f :: host_name ((filename_to_fcb d_name).map (· &&& 0x7f))) = some n ↔
      Canonical d_name := by
  rw [← host_name_filename_to_fcb_iff h0 hdot]
  have hkey (d : Str) : fs.host.key (dir ++ 0x2f :: d) =
      fs.host.key (dir ++ [0x2f]) ++ d.map toupper := by
    rw [List.append_cons, HostFs.key_append, HostFs.key, HostFs.key, if_pos hcase, if_pos hcase]
  obtain ⟨hmem, hnkey⟩ := HostFs.lookup_some hn
  constructor
  · intro hl
    have heq := (HostFs.lookup_some hl).2.symm.trans hnkey
    rw [hkey d_name, hkey (host_name _)] at heq
    exact List.append_cancel_left heq
  · intro heq
    refine hw.lookup_eq hmem ?_
    rw [hnkey, hkey d_name, hkey (host_name _), heq]

/-- **The round trip of a search**: every entry it returns opens, from any FCB built from it, the
file it came from, and no two of them have the same name bytes. -/
structure RoundTrip (fs : CpmFileSystem) (fcb_addr : BitVec 16) : Prop where
  opens : ∀ n d_name drive node, (fs.hits fcb_addr)[n]? = some d_name →
    fs.search_drive fcb_addr = some drive →
    fs.host.lookup (fs.m_drive_paths drive ++ 0x2f :: d_name) = some node →
    ∀ fs' fcb_addr', BuiltFrom fs drive
      ((fs.search_call fcb_addr n).1.entry_fcb_name (fs.search_call fcb_addr n).2) fs' fcb_addr' →
    fs'.OpensFile fcb_addr' node
  distinct : ∀ i j, i < (fs.hits fcb_addr).length → j < (fs.hits fcb_addr).length → i ≠ j →
    (fs.search_call fcb_addr i).1.entry_fcb_name (fs.search_call fcb_addr i).2 ≠
      (fs.search_call fcb_addr j).1.entry_fcb_name (fs.search_call fcb_addr j).2

/-- A file a search shows, and where it is. -/
theorem mem_hits {d_name : Str} (h : d_name ∈ fs.hits fcb_addr) :
    ∃ drive names, fs.search_drive fcb_addr = some drive ∧ drive < MAX_DRIVES ∧
      fs.host.opendir (fs.m_drive_paths drive) = some names ∧ d_name ∈ names ∧
      d_name.head? ≠ some 0x2e := by
  unfold hits at h
  cases hd : fs.search_drive fcb_addr with
  | none =>
    rw [hd] at h
    cases h
  | some drive =>
    rw [hd] at h
    obtain ⟨hmem, hshow⟩ := List.mem_filter.mp h
    cases ho : fs.host.opendir (fs.m_drive_paths drive) with
    | none =>
      rw [ho] at hmem
      cases hmem
    | some names =>
      rw [ho] at hmem
      simp only [shows, Bool.and_eq_true, decide_eq_true_eq] at hshow
      refine ⟨drive, names, rfl, ?_, ho, hmem, hshow.1.1⟩
      unfold search_drive at hd
      dsimp only at hd
      split_ifs at hd with h1 h2 <;> cases hd <;> omega

theorem hits_pairwise (hw : fs.host.WellFormed) (fcb_addr : BitVec 16) :
    (fs.hits fcb_addr).Pairwise fun a b => fs.host.key a ≠ fs.host.key b := by
  unfold hits
  cases fs.search_drive fcb_addr with
  | none => exact List.Pairwise.nil
  | some drive =>
    dsimp only
    cases ho : fs.host.opendir (fs.m_drive_paths drive) with
    | none => exact List.Pairwise.nil
    | some names => exact (hw.opendir_pairwise ho).filter _

theorem entry_of_hit (hmap : fs.m_mem.map.Reachable) {n : ℕ} {d_name : Str}
    (h : (fs.hits fcb_addr)[n]? = some d_name) :
    (fs.search_call fcb_addr n).1.entry_fcb_name (fs.search_call fcb_addr n).2 =
      filename_to_fcb d_name := by
  rcases search_call_spec hmap fcb_addr n with ⟨d, hd, hidx, hentry⟩ | ⟨hnone, -⟩
  · obtain rfl := Option.some.inj (hd.symm.trans h)
    rw [hidx, hentry]
  · rw [hnone] at h
    cases h

/-- A name an FCB cannot spell breaks the round trip of its entry. -/
theorem RoundTrip.canonical (hmap : fs.m_mem.map.Reachable) (hw : fs.host.WellFormed)
    (hcase : fs.host.nocase = true) (h : RoundTrip fs fcb_addr) {d_name : Str}
    (hmem : d_name ∈ fs.hits fcb_addr) : Canonical d_name := by
  obtain ⟨drive, names, hd, hlt, ho, hin, hdot⟩ := mem_hits hmem
  obtain ⟨-, h0, node, hnode⟩ := hw.opendir_lookup ho hin
  obtain ⟨n, hn⟩ := List.mem_iff_getElem?.mp hmem
  obtain ⟨fs', fcb_addr', hb⟩ := exists_builtFrom fs hlt (filename_to_fcb d_name)
  have hopens := h.opens n d_name drive node hn hd hnode fs' fcb_addr'
    (by rw [entry_of_hit hmap hn]; exact hb)
  rw [opensFile_iff hb.slot, hb.lookup, hb.path hlt (length_filename_to_fcb d_name)] at hopens
  exact (canonical_iff_lookup hw hcase h0 hdot hnode).mp hopens

/-- **The round trip holds exactly where every file the search shows has a name an FCB can spell.** -/
theorem search_roundTrip_iff (hmap : fs.m_mem.map.Reachable) (hw : fs.host.WellFormed)
    (hcase : fs.host.nocase = true) (fcb_addr : BitVec 16) :
    RoundTrip fs fcb_addr ↔ ∀ d_name ∈ fs.hits fcb_addr, Canonical d_name := by
  constructor
  · intro h d_name hmem
    exact h.canonical hmap hw hcase hmem
  · intro h
    constructor
    · intro n d_name drive node hn hd hnode fs' fcb_addr' hb
      have hmem := List.mem_of_getElem? hn
      obtain ⟨drive', names, hd', hlt, ho, hin, hdot⟩ := mem_hits hmem
      obtain rfl := Option.some.inj (hd.symm.trans hd')
      rw [entry_of_hit hmap hn] at hb
      rw [opensFile_iff hb.slot, hb.lookup, hb.path hlt (length_filename_to_fcb d_name)]
      exact (canonical_iff_lookup hw hcase (hw.opendir_lookup ho hin).2.1 hdot hnode).mpr (h d_name hmem)
    · intro i j hi hj hij heq
      rw [entry_of_hit hmap (List.getElem?_eq_getElem hi),
        entry_of_hit hmap (List.getElem?_eq_getElem hj)] at heq
      have hpair := hits_pairwise hw fcb_addr
      have hne : fs.host.key (fs.hits fcb_addr)[i] ≠ fs.host.key (fs.hits fcb_addr)[j] := by
        rcases Nat.lt_or_gt_of_ne hij with hlt | hgt
        · exact List.pairwise_iff_getElem.mp hpair i j hi hj hlt
        · exact (List.pairwise_iff_getElem.mp hpair j i hj hi hgt).symm
      refine hne ?_
      have hback (k : ℕ) (hk : k < (fs.hits fcb_addr).length) :
          fs.host.key (fs.hits fcb_addr)[k] =
            (host_name ((filename_to_fcb (fs.hits fcb_addr)[k]).map (· &&& 0x7f))).map toupper := by
        have hmem := List.getElem_mem hk
        obtain ⟨drive, names, -, -, ho, hin, hdot⟩ := mem_hits hmem
        rw [(host_name_filename_to_fcb_iff (hw.opendir_lookup ho hin).2.1 hdot).mpr (h _ hmem),
          HostFs.key, if_pos hcase]
      rw [hback i hi, hback j hj, heq]

/-- An FCB that matches every file of drive A, on a host that does not tell cases apart. -/
def every_file (files : List (Str × List Byte)) : CpmFileSystem :=
  let fs := sample (0 :: List.replicate 11 0x3f) files
  { fs with host := { fs.host with nocase := true } }

theorem every_file_wellFormed (name : Str) (h0 : 0 ∉ name) :
    (every_file [(name, [])]).host.WellFormed := by
  refine ⟨?_, ?_⟩
  · simp [every_file, sample, onA, HostFs.key]
  · simpa [every_file, sample, onA] using h0

/-- The file `a.b`. -/
theorem search_roundTrip_iff_short : RoundTrip (every_file [([0x61, 0x2e, 0x62], [])]) 0x5c ↔
    ∀ d_name ∈ (every_file [([0x61, 0x2e, 0x62], [])]).hits 0x5c, Canonical d_name :=
  search_roundTrip_iff .z8002 (every_file_wellFormed _ (by decide)) rfl 0x5c

/-- `A.HTML` -/
def a_html : Str := [0x41, 0x2e, 0x48, 0x54, 0x4d, 0x4c]

/-- **A type of four characters**: the entry of `A.HTML` names `A.HTM`. -/
theorem long_type_not_roundTrip : ¬ RoundTrip (every_file [(a_html, [])]) 0x5c := by
  intro h
  have hmem : a_html ∈ (every_file [(a_html, [])]).hits 0x5c := by
    decide +kernel
  have hcan := h.canonical .z8002 (every_file_wellFormed _ (by decide)) rfl hmem
  have hback := (host_name_filename_to_fcb_iff (by decide) (by decide)).mpr hcan
  revert hback
  decide +kernel

end CpmFileSystem

end Cpm8000.Host
