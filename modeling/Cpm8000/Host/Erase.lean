/-
# Deleting by pattern

`F_DELETE` takes a pattern: the programmer's guide lets it hold wildcards, and the search functions
compare it with every name of the directory. `file_delete` unlinks one path, the one spelled by the
pattern's own characters.

`WildcardDelete` is the guide's function, in one state. `wildcardDelete_iff` says when the code is
that function: when the file at the pattern's own path is the only one that matches it and the only
one a search with it shows.
-/
import Cpm8000.Host.RoundTrip

namespace Cpm8000.Host

open Cpm8000.Sys

/-! ## 1. Unlinking -/

namespace HostFs

variable {h : HostFs} {path q : Str}

/-- The host after the nodes at a path are gone. -/
def without (h : HostFs) (path : Str) : HostFs :=
  { h with nodes := h.nodes.filter fun x => h.key x.path ≠ h.key path }

theorem without_lookup_of_ne (hq : h.key q ≠ h.key path) :
    (h.without path).lookup q = h.lookup q := by
  unfold lookup without
  dsimp only
  rw [List.find?_filter]
  refine congrArg (fun p => h.nodes.find? p) (funext fun x => ?_)
  rw [decide_eq_decide, decide_eq_true_eq, decide_eq_true_eq]
  constructor
  · intro hx
    exact hx.2
  · intro hx
    have hxq : h.key x.path = h.key q := hx
    exact ⟨hxq ▸ hq, hx⟩

theorem lookup_congr (hq : h.key q = h.key path) : h.lookup q = h.lookup path := by
  unfold lookup
  rw [hq]

theorem mem_without {n : Node} :
    n ∈ (h.without path).nodes ↔ n ∈ h.nodes ∧ h.key n.path ≠ h.key path := by
  rw [without, List.mem_filter, decide_eq_true_eq]

theorem unlink_cases (h : HostFs) (path : Str) :
    (∃ n, h.lookup path = some n ∧ n.isdir = false ∧ h.unlink path = (h.without path, true)) ∨
    (∀ n, h.lookup path = some n → n.isdir = true) ∧ h.unlink path = (h, false) := by
  unfold unlink
  cases hl : h.lookup path with
  | none => exact .inr ⟨by simp, rfl⟩
  | some n =>
    cases hd : n.isdir with
    | false => exact .inl ⟨n, rfl, hd, by simp [hd, without]⟩
    | true =>
      refine .inr ⟨?_, by simp [hd]⟩
      intro m hm
      rw [← Option.some.inj hm, hd]

end HostFs

/-! ## 2. The function of the guide -/

/-- A name matches a pattern in every position. -/
def MatchesPos (pattern name : List Byte) : Prop :=
  ∀ i < 11, pattern.getD i 0 = 0x3f ∨ toupper (pattern.getD i 0) = toupper (name.getD i 0)

instance (pattern name : List Byte) : Decidable (MatchesPos pattern name) := by
  unfold MatchesPos
  infer_instance

namespace CpmFileSystem

variable {fs : CpmFileSystem} {fcb_addr : BitVec 16}

/-- The directory an FCB's path is in. -/
def path_dir (fs : CpmFileSystem) (fcb_addr : BitVec 16) : Str :=
  let drive := fs.resolve_drive (fs.mem_read (fcb_addr + FCB_DR))
  fs.m_drive_paths (if drive ≥ MAX_DRIVES then 0 else drive)

/-- A file of the drive, neither hidden nor a directory, whose CP/M name matches the FCB's pattern
in every position. -/
def Matched (fs : CpmFileSystem) (fcb_addr : BitVec 16) (n : Node) : Prop :=
  n.isdir = false ∧ ∃ d_name, fs.host.entry_name (fs.path_dir fcb_addr) n.path = some d_name ∧
    d_name.head? ≠ some 0x2e ∧ MatchesPos (fs.read_fcb_name fcb_addr) (filename_to_fcb d_name)

/-- **Deletion by pattern, as the guide has it**: the files that match are gone and no others, no
content changes but for what the FCB's own stream held back, the code tells whether a file matched,
and a search with the pattern finds nothing afterwards. -/
structure WildcardDelete (fs : CpmFileSystem) (fcb_addr : BitVec 16) : Prop where
  removed : ∀ n, n ∈ (fs.file_delete fcb_addr).1.host.nodes ↔
    n ∈ fs.host.nodes ∧ ¬ fs.Matched fcb_addr n
  data : (fs.file_delete fcb_addr).1.host.data = (fs.flushed fcb_addr).data
  code : (fs.file_delete fcb_addr).2 = 0 ∨ (fs.file_delete fcb_addr).2 = 0xff
  found : (fs.file_delete fcb_addr).2 = 0 ↔ ∃ n ∈ fs.host.nodes, fs.Matched fcb_addr n
  search : ((fs.file_delete fcb_addr).1.file_search_first fcb_addr).2 = 0xff

/-- **The pattern's own path is all there is to it**: it leads to every file that matches or that a
search shows, and to no file that does not match. -/
structure OwnPath (fs : CpmFileSystem) (fcb_addr : BitVec 16) : Prop where
  matched : ∀ n ∈ fs.host.nodes, fs.Matched fcb_addr n →
    fs.host.key n.path = fs.host.key (fs.fcb_to_host_path fcb_addr)
  named : ∀ n ∈ fs.host.nodes, n.isdir = false →
    fs.host.key n.path = fs.host.key (fs.fcb_to_host_path fcb_addr) → fs.Matched fcb_addr n
  shown : ∀ drive d_name, fs.search_drive fcb_addr = some drive → d_name ∈ fs.hits fcb_addr →
    fs.host.key (fs.m_drive_paths drive ++ 0x2f :: d_name) =
      fs.host.key (fs.fcb_to_host_path fcb_addr)

/-! ## 3. What `file_delete` does -/

theorem flushed_eq (fs : CpmFileSystem) (fcb_addr : BitVec 16) :
    ∃ data, fs.flushed fcb_addr = { fs.host with data := data } := by
  unfold flushed
  split
  · exact HostFs.fclose_eq _ _
  · exact ⟨fs.host.data, rfl⟩

theorem flushed_lookup (path : Str) : (fs.flushed fcb_addr).lookup path = fs.host.lookup path := by
  obtain ⟨data, hdata⟩ := flushed_eq fs fcb_addr
  rw [hdata]
  rfl

theorem unlinked_eq (fs : CpmFileSystem) (path : Str) :
    (match fs.host.unlink path with
      | (host, true) => ({ fs with host := host }, 0)
      | (host, false) => ({ fs with host := host }, 0xff)) =
        (({ fs with host := (fs.host.unlink path).1 }, if (fs.host.unlink path).2 then 0 else 0xff) :
          CpmFileSystem × ℕ) := by
  rcases fs.host.unlink path with ⟨host, _ | _⟩ <;> rfl

/-- **`file_delete`, by what the FCB's path leads to.** -/
theorem file_delete_cases (fs : CpmFileSystem) (fcb_addr : BitVec 16) :
    ∃ s : CpmFileSystem, s.m_mem = fs.m_mem ∧ s.m_drive_paths = fs.m_drive_paths ∧
      s.m_current_drive = fs.m_current_drive ∧ s.m_caller_tag = fs.m_caller_tag ∧
      ((∃ n, fs.host.lookup (fs.fcb_to_host_path fcb_addr) = some n ∧ n.isdir = false ∧
        s.host = (fs.flushed fcb_addr).without (fs.fcb_to_host_path fcb_addr) ∧
        fs.file_delete fcb_addr = (s, 0)) ∨
      (∀ n, fs.host.lookup (fs.fcb_to_host_path fcb_addr) = some n → n.isdir = true) ∧
        s.host = fs.flushed fcb_addr ∧ fs.file_delete fcb_addr = (s, 0xff)) := by
  -- the state after the slot of the handle is closed
  have hclosed : ∃ s : CpmFileSystem, s.m_mem = fs.m_mem ∧ s.m_drive_paths = fs.m_drive_paths ∧
      s.m_current_drive = fs.m_current_drive ∧ s.m_caller_tag = fs.m_caller_tag ∧
      s.host = fs.flushed fcb_addr ∧
      fs.file_delete fcb_addr = ({ s with host := (s.host.unlink (fs.fcb_to_host_path fcb_addr)).1 },
        if (s.host.unlink (fs.fcb_to_host_path fcb_addr)).2 then 0 else 0xff) := by
    unfold file_delete flushed
    dsimp only
    cases fs.find_file_by_fcb fcb_addr with
    | none => exact ⟨fs, rfl, rfl, rfl, rfl, rfl, unlinked_eq fs _⟩
    | some slot => exact ⟨fs.close_slot slot, rfl, rfl, rfl, rfl, rfl, unlinked_eq (fs.close_slot slot) _⟩
  obtain ⟨s, h1, h2, h3, h4, hhost, hdelete⟩ := hclosed
  rw [hhost] at hdelete
  rcases HostFs.unlink_cases (fs.flushed fcb_addr) (fs.fcb_to_host_path fcb_addr) with
    ⟨n, hl, hd, hu⟩ | ⟨hl, hu⟩
  · rw [flushed_lookup] at hl
    rw [hu] at hdelete
    exact ⟨{ s with host := (fs.flushed fcb_addr).without (fs.fcb_to_host_path fcb_addr) }, h1, h2, h3,
      h4, .inl ⟨n, hl, hd, rfl, hdelete⟩⟩
  · simp only [flushed_lookup] at hl
    rw [hu] at hdelete
    exact ⟨{ s with host := fs.flushed fcb_addr }, h1, h2, h3, h4, .inr ⟨hl, rfl, hdelete⟩⟩

/-! ## 4. The search afterwards -/

theorem opendir_some_iff {h : HostFs} {dir d_name : Str} :
    (∃ names, h.opendir dir = some names ∧ d_name ∈ names) ↔
      (∃ m, h.lookup dir = some m ∧ m.isdir = true) ∧
        ∃ x ∈ h.nodes, h.entry_name dir x.path = some d_name := by
  unfold HostFs.opendir
  cases h.lookup dir with
  | none => simp
  | some m => cases hd : m.isdir <;> simp [hd]

theorem mem_hits_iff {d_name : Str} : d_name ∈ fs.hits fcb_addr ↔
    ∃ drive, fs.search_drive fcb_addr = some drive ∧
      (∃ m, fs.host.lookup (fs.m_drive_paths drive) = some m ∧ m.isdir = true) ∧
      (∃ x ∈ fs.host.nodes, fs.host.entry_name (fs.m_drive_paths drive) x.path = some d_name) ∧
      shows fs.host (fs.m_drive_paths drive) (fs.search_pattern fcb_addr) d_name := by
  have hiff : d_name ∈ fs.hits fcb_addr ↔ ∃ drive, fs.search_drive fcb_addr = some drive ∧
      (∃ names, fs.host.opendir (fs.m_drive_paths drive) = some names ∧ d_name ∈ names) ∧
      shows fs.host (fs.m_drive_paths drive) (fs.search_pattern fcb_addr) d_name := by
    unfold hits
    cases hd : fs.search_drive fcb_addr with
    | none => simp
    | some drive => cases ho : fs.host.opendir (fs.m_drive_paths drive) <;> simp [ho]
  rw [hiff]
  simp only [opendir_some_iff, and_assoc]

/-- A search finds nothing when it shows no file. -/
theorem file_search_first_iff (hmap : fs.m_mem.map.Reachable) :
    (fs.file_search_first fcb_addr).2 = 0xff ↔ fs.hits fcb_addr = [] := by
  rcases search_call_spec hmap fcb_addr 0 with ⟨d_name, hat, hidx, -⟩ | ⟨hnone, hff⟩
  · constructor
    · intro h
      rw [search_call, h] at hidx
      cases hidx
    · intro h
      rw [h] at hat
      cases hat
  · refine ⟨fun _ => ?_, fun _ => hff⟩
    rw [List.getElem?_eq_none_iff] at hnone
    exact List.eq_nil_of_length_eq_zero (Nat.le_zero.mp hnone)

/-- What a search shows depends on the host and the FCB's bytes. -/
theorem hits_congr {s : CpmFileSystem} (fcb_addr : BitVec 16) (hm : s.m_mem = fs.m_mem)
    (hc : s.m_current_drive = fs.m_current_drive) (ht : s.m_caller_tag = fs.m_caller_tag) :
    s.search_drive fcb_addr = fs.search_drive fcb_addr ∧
      s.search_pattern fcb_addr = fs.search_pattern fcb_addr := by
  unfold search_drive search_pattern read_fcb_name resolve_drive mem_read
  rw [hm, hc, ht]
  exact ⟨rfl, rfl⟩

/-- **What a search shows once a file is gone**: what it showed before, but for that file. -/
theorem mem_hits_without (fcb_addr : BitVec 16) (d_name : Str) (hw : fs.host.WellFormed)
    {s : CpmFileSystem} {path : Str} {n : Node} {data : ℕ → List Byte} (hl : fs.host.lookup path = some n) (hdir : n.isdir = false)
    (hhost : s.host = ({ fs.host with data := data } : HostFs).without path)
    (hm : s.m_mem = fs.m_mem) (hp : s.m_drive_paths = fs.m_drive_paths)
    (hc : s.m_current_drive = fs.m_current_drive) (ht : s.m_caller_tag = fs.m_caller_tag) :
    d_name ∈ s.hits fcb_addr ↔ d_name ∈ fs.hits fcb_addr ∧
      ∀ drive, fs.search_drive fcb_addr = some drive →
        fs.host.key (fs.m_drive_paths drive ++ 0x2f :: d_name) ≠ fs.host.key path := by
  obtain ⟨hsd, hsp⟩ := hits_congr fcb_addr hm hc ht
  have hstat : ∀ q, fs.host.key q ≠ fs.host.key path → s.host.lookup q = fs.host.lookup q := by
    intro q hq
    rw [hhost]
    exact HostFs.without_lookup_of_ne hq
  have hshows : ∀ dir : Str, fs.host.key (dir ++ 0x2f :: d_name) ≠ fs.host.key path →
      (shows s.host dir (s.search_pattern fcb_addr) d_name ↔
        shows fs.host dir (fs.search_pattern fcb_addr) d_name) := by
    intro dir hq
    unfold shows HostFs.stat
    rw [hstat _ hq, hsp]
  have hnode : ∀ m, m ∈ s.host.nodes ↔ m ∈ fs.host.nodes ∧ fs.host.key m.path ≠ fs.host.key path := by
    intro m
    rw [hhost]
    exact HostFs.mem_without
  have hentry : ∀ dir q, s.host.entry_name dir q = fs.host.entry_name dir q := by
    intro dir q
    rw [hhost]
    rfl
  rw [mem_hits_iff, mem_hits_iff, hsd, hp]
  constructor
  · rintro ⟨drive, hd, ⟨m, hm', hmdir⟩, ⟨x, hx, hxe⟩, hshow⟩
    rw [hentry] at hxe
    obtain ⟨hxn, hxne⟩ := (hnode x).mp hx
    have hne : fs.host.key (fs.m_drive_paths drive ++ 0x2f :: d_name) ≠ fs.host.key path := by
      rw [← (HostFs.entry_name_some hxe).1]
      exact hxne
    have hmkey : s.host.key m.path = s.host.key (fs.m_drive_paths drive) := (HostFs.lookup_some hm').2
    rw [hhost] at hmkey
    refine ⟨⟨drive, hd, ⟨m, ?_, hmdir⟩, ⟨x, hxn, hxe⟩, (hshows _ hne).mp hshow⟩, ?_⟩
    · exact hw.lookup_eq ((hnode m).mp (HostFs.lookup_some hm').1).1 hmkey
    · intro drive' hd'
      obtain rfl := Option.some.inj (hd.symm.trans hd')
      exact hne
  · rintro ⟨⟨drive, hd, ⟨m, hm', hmdir⟩, ⟨x, hx, hxe⟩, hshow⟩, hne⟩
    have hne := hne drive hd
    refine ⟨drive, hd, ⟨m, ?_, hmdir⟩, ⟨x, ?_, ?_⟩, (hshows _ hne).mpr hshow⟩
    · rw [hstat, hm']
      intro hkey
      -- the directory would be the file that goes
      rw [HostFs.lookup_congr hkey, hl, Option.some.injEq] at hm'
      rw [← hm', hdir] at hmdir
      cases hmdir
    · rw [hnode, (HostFs.entry_name_some hxe).1]
      exact ⟨hx, hne⟩
    · rw [hentry]
      exact hxe

/-- A flush changes nothing a search shows. -/
theorem mem_hits_flushed {s : CpmFileSystem} (hhost : s.host = fs.flushed fcb_addr)
    (hm : s.m_mem = fs.m_mem) (hp : s.m_drive_paths = fs.m_drive_paths)
    (hc : s.m_current_drive = fs.m_current_drive) (ht : s.m_caller_tag = fs.m_caller_tag)
    {d_name : Str} : d_name ∈ s.hits fcb_addr ↔ d_name ∈ fs.hits fcb_addr := by
  obtain ⟨hsd, hsp⟩ := hits_congr fcb_addr hm hc ht
  obtain ⟨data, hdata⟩ := flushed_eq fs fcb_addr
  rw [mem_hits_iff, mem_hits_iff, hsd, hp, hsp, hhost, hdata]
  rfl

/-! ## 5. When the code is that function -/

/-- **Deletion by pattern is the guide's exactly where the pattern's own path leads to every file
that matches or is shown, and to no other.** -/
theorem wildcardDelete_iff (hmap : fs.m_mem.map.Reachable) (hw : fs.host.WellFormed)
    (fcb_addr : BitVec 16) : WildcardDelete fs fcb_addr ↔ OwnPath fs fcb_addr := by
  obtain ⟨s, hm, hp, hc, ht, ⟨n, hl, hdir, hhost, hdelete⟩ | ⟨hl, hhost, hdelete⟩⟩ :=
    file_delete_cases fs fcb_addr
  · obtain ⟨data, hdata⟩ := flushed_eq fs fcb_addr
    have hnode : ∀ m, m ∈ s.host.nodes ↔ m ∈ fs.host.nodes ∧
        fs.host.key m.path ≠ fs.host.key (fs.fcb_to_host_path fcb_addr) := by
      intro m
      rw [hhost, hdata]
      exact HostFs.mem_without
    have hhits (d_name : Str) := mem_hits_without fcb_addr d_name hw hl hdir
      (hhost.trans (congrArg (fun h => HostFs.without h _) hdata)) hm hp hc ht
    have hsearch : (s.file_search_first fcb_addr).2 = 0xff ↔ s.hits fcb_addr = [] :=
      file_search_first_iff (hm ▸ hmap)
    constructor
    · rintro ⟨hremoved, -, -, -, hff⟩
      rw [hdelete] at hremoved hff
      have hnil := hsearch.mp hff
      constructor
      · intro m hmem hmatch
        by_contra hne
        exact ((hremoved m).mp ((hnode m).mpr ⟨hmem, hne⟩)).2 hmatch
      · intro m hmem _ hkey
        by_contra hno
        exact ((hnode m).mp ((hremoved m).mpr ⟨hmem, hno⟩)).2 hkey
      · intro drive d_name hd hmem
        by_contra hne
        have hin : d_name ∈ s.hits fcb_addr := by
          rw [hhits]
          refine ⟨hmem, fun drive' hd' => ?_⟩
          obtain rfl := Option.some.inj (hd.symm.trans hd')
          exact hne
        rw [hnil] at hin
        cases hin
    · rintro ⟨hmatched, hnamed, hshown⟩
      obtain ⟨hnmem, hnkey⟩ := HostFs.lookup_some hl
      refine ⟨?_, ?_, ?_, ?_, ?_⟩ <;> rw [hdelete]
      · intro m
        rw [hnode]
        refine and_congr_right fun hmem => not_congr ⟨fun hkey => ?_, hmatched m hmem⟩
        have hmn := hw.lookup_eq hmem hkey
        rw [hl, Option.some.injEq] at hmn
        exact hnamed m hmem (hmn ▸ hdir) hkey
      · rw [hhost]
        rfl
      · exact .inl rfl
      · exact ⟨fun _ => ⟨n, hnmem, hnamed n hnmem hdir hnkey⟩, fun _ => rfl⟩
      · rw [hsearch, List.eq_nil_iff_forall_not_mem]
        intro d_name hmem
        obtain ⟨hold, hne⟩ := (hhits d_name).mp hmem
        obtain ⟨drive, hd, -⟩ := mem_hits_iff.mp hold
        exact hne drive hd (hshown drive d_name hd hold)
  · have hsearch : (s.file_search_first fcb_addr).2 = 0xff ↔ s.hits fcb_addr = [] :=
      file_search_first_iff (hm ▸ hmap)
    have hnodes : s.host.nodes = fs.host.nodes := by
      obtain ⟨data, hdata⟩ := flushed_eq fs fcb_addr
      rw [hhost, hdata]
    constructor
    · rintro ⟨hremoved, -, -, -, hff⟩
      rw [hdelete] at hremoved hff
      have hnil := hsearch.mp hff
      simp only [hnodes] at hremoved
      constructor
      · intro m hmem hmatch
        exact absurd hmatch ((hremoved m).mp hmem).2
      · intro m hmem hmdir hkey
        have htrue := hl m (hw.lookup_eq hmem hkey)
        rw [hmdir] at htrue
        cases htrue
      · intro drive d_name _ hmem
        rw [← mem_hits_flushed hhost hm hp hc ht, hnil] at hmem
        cases hmem
    · rintro ⟨hmatched, hnamed, hshown⟩
      have hnone : ∀ m ∈ fs.host.nodes, ¬ fs.Matched fcb_addr m := by
        intro m hmem hmatch
        have htrue := hl m (hw.lookup_eq hmem (hmatched m hmem hmatch))
        rw [hmatch.1] at htrue
        cases htrue
      refine ⟨?_, ?_, ?_, ?_, ?_⟩ <;> rw [hdelete]
      · intro m
        rw [hnodes]
        exact ⟨fun hmem => ⟨hmem, hnone m hmem⟩, fun h => h.1⟩
      · rw [hhost]
      · exact .inr rfl
      · refine ⟨fun h => (by cases h), ?_⟩
        rintro ⟨m, hmem, hmatch⟩
        exact absurd hmatch (hnone m hmem)
      · rw [hsearch, List.eq_nil_iff_forall_not_mem]
        intro d_name hmem
        rw [mem_hits_flushed hhost hm hp hc ht] at hmem
        obtain ⟨drive, hd, -, ⟨x, hx, hxe⟩, hshow⟩ := mem_hits_iff.mp hmem
        have hkey := hshown drive d_name hd hmem
        have hxkey := (HostFs.entry_name_some hxe).1
        have htrue := hl x (hw.lookup_eq hx (hxkey.trans hkey))
        simp only [shows, HostFs.stat, hw.lookup_eq hx hxkey, Option.any_some, htrue, Bool.not_true,
          Bool.and_false, Bool.false_and, Bool.false_eq_true] at hshow

/-- A pattern of wildcards, and one file. -/
theorem wildcardDelete_iff_plain : WildcardDelete (every_file [([0x41], [])]) 0x5c ↔
    OwnPath (every_file [([0x41], [])]) 0x5c :=
  wildcardDelete_iff .z8002 (every_file_wellFormed _ (by decide)) 0x5c

/-- **Deleting `???????????`** in a directory of one file: nothing is deleted. -/
theorem every_file_not_wildcardDelete : ¬ WildcardDelete (every_file [([0x41], [])]) 0x5c := by
  intro h
  have hff := h.search
  revert hff
  decide +kernel

end CpmFileSystem

end Cpm8000.Host
