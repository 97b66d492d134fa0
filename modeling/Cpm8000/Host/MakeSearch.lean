/-
# From a made file to its entry

A program that makes a file and then lists the directory looks for the name it made. For the names
CP/M allows (`ValidName`), `fcb_to_host_path` and `filename_to_fcb` are inverse to each other up to
the case of letters, whatever blanks the name has inside or at the end of its two fields, so the file
is in the directory under its upper-cased name and no other valid name leads to it.

A pattern with a blank type matches every type. A search for such a name may show other files of
the same base first, and shows the file in a later call: `make_search`.
-/
import Cpm8000.Host.Erase
import Cpm8000.Host.WholeFile

namespace Cpm8000.Host

open Cpm8000.Sys

/-! ## 1. Valid names -/

/-- A character of a name: printable, and none of the separators and wildcards. -/
def NameChar (c : Byte) : Prop :=
  0x20 ≤ c ∧ c < 0x7f ∧ c ≠ 0x2e ∧ c ≠ 0x2f ∧ c ≠ 0x3f ∧ c ≠ 0x2a

instance (c : Byte) : Decidable (NameChar c) := by
  unfold NameChar
  infer_instance

/-- **A valid CP/M name**: eleven bytes, of which the first is not blank. -/
structure ValidName (name : List Byte) : Prop where
  length : name.length = 11
  head : name.head? ≠ some 0x20
  chars : ∀ c ∈ name, NameChar c

/-- What is upper-cased is no end mark, dot, slash or wildcard either. -/
theorem NameChar.toupper {c : Byte} (h : NameChar c) :
    toupper c ≠ 0 ∧ toupper c ≠ 0x2e ∧ toupper c ≠ 0x2f ∧ c ≠ 0x3f := by
  revert c
  decide

theorem toupper_slash_iff (c : Byte) : toupper c = 0x2f ↔ c = 0x2f := by
  revert c
  decide

/-- The blanks that are cut from a field, put back. -/
theorem trim_append_replicate (l : List Byte) :
    trim l ++ List.replicate (l.length - (trim l).length) 0x20 = l := by
  induction l using List.reverseRecOn with
  | nil => rfl
  | append_singleton l c ih =>
    by_cases hc : c = 0x20
    · have htrim : trim (l ++ [c]) = trim l := by
        rw [hc]
        exact trim_append_blanks l 1
      have hle := length_trim_le l
      rw [htrim, List.length_append, List.length_singleton, Nat.sub_add_comm hle,
        List.replicate_succ', ← List.append_assoc, ih, hc]
    · have htrim : trim (l ++ [c]) = l ++ [c] := by
        rw [trim_eq_self_iff, List.getLast?_concat]
        exact fun h => hc (Option.some.inj h)
      rw [htrim, Nat.sub_self, List.replicate_zero, List.append_nil]

/-- A field that was cut, upper-cased and filled again is the field upper-cased. -/
theorem fcb_field_trim (l : List Byte) :
    fcb_field ((trim l).map toupper) l.length = l.map toupper := by
  unfold fcb_field
  dsimp only
  rw [List.take_of_length_le (by rw [List.length_map]; exact length_trim_le l), map_toupper_toupper,
    List.length_map]
  have hblank : toupper 0x20 = 0x20 := rfl
  calc (trim l).map toupper ++ List.replicate (l.length - (trim l).length) 0x20
      = (trim l ++ List.replicate (l.length - (trim l).length) 0x20).map toupper := by
        rw [List.map_append, List.map_replicate, hblank]
    _ = l.map toupper := by rw [trim_append_replicate]

/-- The encoder does not see the case of letters. -/
theorem filename_to_fcb_map (name : Str) :
    filename_to_fcb (name.map toupper) = filename_to_fcb name := by
  have hfield (l : List Byte) (n : ℕ) : fcb_field (l.map toupper) n = fcb_field l n := by
    unfold fcb_field
    rw [← List.map_take, map_toupper_toupper]
  have hhead (l : List Byte) : (l.map toupper).head? = some 0x2e ↔ l.head? = some 0x2e := by
    rw [List.head?_map]
    cases l.head? with
    | none => simp
    | some c =>
      rw [Option.map_some, Option.some.injEq, Option.some.injEq]
      exact (toupper_eq_iff c).2.1
  have hbase : ((name.map toupper).take 8).takeWhile (fun c => decide (c ≠ 0x2e)) =
      ((name.take 8).takeWhile fun c => decide (c ≠ 0x2e)).map toupper := by
    rw [← List.map_take, List.takeWhile_map]
    congr 2
    funext c
    exact decide_eq_decide.mpr (not_congr (toupper_eq_iff c).2.1)
  unfold filename_to_fcb
  dsimp only
  rw [hbase, List.length_map, ← List.map_drop, hfield]
  simp only [hhead]
  split_ifs
  · rfl
  · rw [← List.map_drop, hfield]
  · rw [hfield]

theorem filename_to_fcb_congr {a b : Str} (h : a.map toupper = b.map toupper) :
    filename_to_fcb a = filename_to_fcb b := by
  rw [← filename_to_fcb_map a, h, filename_to_fcb_map]

/-- Upper-casing is all that the encoder does to characters. -/
theorem toupper_filename_to_fcb (d_name : Str) :
    (filename_to_fcb d_name).map toupper = filename_to_fcb d_name := by
  have hfield : ∀ l n, (fcb_field l n).map toupper = fcb_field l n := by
    intro l n
    have hblank : toupper 0x20 = 0x20 := rfl
    unfold fcb_field
    dsimp only
    rw [List.map_append, map_toupper_toupper, List.map_replicate, hblank]
  unfold filename_to_fcb
  split_ifs
  · rfl
  · rw [List.map_append, hfield, hfield]

theorem match_pattern_iff (pattern name : List Byte) : match_pattern pattern name = true ↔
    ∀ i < 11, pattern.getD i 0 = 0x3f ∨ (slice pattern 8 3 = [0x20, 0x20, 0x20] ∧ i ≥ 8) ∨
      toupper (pattern.getD i 0) = toupper (name.getD i 0) := by
  have hblank : (pattern.getD 8 0 = 0x20 ∧ pattern.getD 9 0 = 0x20 ∧ pattern.getD 10 0 = 0x20) ↔
      slice pattern 8 3 = [0x20, 0x20, 0x20] := by
    have hat (i : ℕ) : pattern.getD (8 + i) 0 = (pattern.drop 8).getD i 0 := by
      rw [List.getD_eq_getElem?_getD, List.getD_eq_getElem?_getD, List.getElem?_drop]
    rw [hat 0, hat 1, hat 2, slice]
    rcases pattern.drop 8 with _ | ⟨a, _ | ⟨b, _ | ⟨c, l⟩⟩⟩ <;> simp
  unfold match_pattern
  dsimp only
  simp only [List.all_eq_true, List.mem_range, decide_eq_true_eq, hblank]

namespace ValidName

variable {name : List Byte}

/-- The path of a valid name loses no character. -/
theorem host_name_eq (h : ValidName name) : host_name name =
    (trim (name.take 8)).map toupper ++
      if (trim (slice name 8 3)).map toupper = [] then []
      else 0x2e :: (trim (slice name 8 3)).map toupper := by
  have hcstr : ∀ l : List Byte, (∀ c ∈ l, c ∈ name) → cstr ((trim l).map toupper) =
      (trim l).map toupper := by
    intro l hl
    refine cstr_of_notMem fun h0 => ?_
    obtain ⟨c, hc, hzero⟩ := List.mem_map.mp h0
    exact (h.chars c (hl c (mem_of_mem_trim hc))).toupper.1 hzero
  have hext : ∀ c ∈ slice name 8 3, c ∈ name := fun c hc =>
    List.mem_of_mem_drop (List.mem_of_mem_take hc)
  unfold host_name
  dsimp only
  rw [hcstr _ fun c hc => List.mem_of_mem_take hc, hcstr _ hext]
  simp only [gt_iff_lt, List.length_pos_iff, ne_eq, ite_not, List.map_eq_nil_iff]

/-- The base begins where the name does. -/
theorem head_host_name (h : ValidName name) : ∃ c, c ∈ name ∧ (host_name name).head? = some (toupper c) := by
  obtain ⟨c, l, hname⟩ : ∃ c l, name = c :: l := by
    cases name with
    | nil => exact absurd h.length (by decide)
    | cons c l => exact ⟨c, l, rfl⟩
  have hback := trim_append_replicate (name.take 8)
  rw [hname, List.take_succ_cons] at hback
  have hhead := h.head
  rw [hname, List.head?_cons, Ne, Option.some.injEq] at hhead
  refine ⟨c, by rw [hname]; exact List.mem_cons_self, ?_⟩
  rw [h.host_name_eq, hname, List.take_succ_cons]
  cases ht : trim (c :: l.take 7) with
  | nil =>
    rw [ht, List.nil_append, List.length_cons, List.length_nil, Nat.sub_zero,
      List.replicate_succ] at hback
    exact absurd (List.cons.inj hback).1.symm hhead
  | cons d k =>
    rw [ht, List.cons_append] at hback
    rw [List.map_cons, List.cons_append, List.head?_cons, (List.cons.inj hback).1]

/-- **There and back**: the encoder takes the path of a valid name to the name upper-cased. -/
theorem filename_to_fcb_host_name (h : ValidName name) :
    filename_to_fcb (host_name name) = name.map toupper := by
  have hdot : (host_name name).head? ≠ some 0x2e := by
    obtain ⟨c, hc, hhead⟩ := h.head_host_name
    rw [hhead, Ne, Option.some.injEq]
    exact (h.chars c hc).toupper.2.1
  have hlen8 : (name.take 8).length = 8 := by
    rw [List.length_take, h.length]
    rfl
  have hlen3 : (slice name 8 3).length = 3 := by
    rw [slice, List.length_take, List.length_drop, h.length]
    rfl
  have hb : ((trim (name.take 8)).map toupper).length ≤ 8 := by
    rw [List.length_map]
    exact (length_trim_le _).trans_eq hlen8
  have hbdot : 0x2e ∉ (trim (name.take 8)).map toupper := by
    intro hmem
    obtain ⟨c, hc, heq⟩ := List.mem_map.mp hmem
    exact (h.chars c (List.mem_of_mem_take (mem_of_mem_trim hc))).toupper.2.1 heq
  obtain ⟨hbase, hext⟩ := fcb_parts_of_canonical ((trim (slice name 8 3)).map toupper) hb hbdot
  have hfields : filename_to_fcb (host_name name) =
      fcb_field (fcb_base (host_name name)) 8 ++ fcb_field (fcb_ext (host_name name)) 3 := by
    unfold filename_to_fcb
    rw [if_neg hdot]
    rfl
  have h8 := fcb_field_trim (name.take 8)
  have h3 := fcb_field_trim (slice name 8 3)
  rw [hlen8] at h8
  rw [hlen3] at h3
  rw [hfields, h.host_name_eq, hbase, hext, h8, h3, ← List.map_append]
  have hdrop : slice name 8 3 = name.drop 8 :=
    List.take_of_length_le (by rw [List.length_drop, h.length])
  rw [hdrop, List.take_append_drop]

/-- A valid name is one component of a path. -/
theorem slash_notMem (h : ValidName name) : 0x2f ∉ host_name name := by
  rw [h.host_name_eq]
  intro hmem
  have hfield : ∀ l : List Byte, (∀ c ∈ l, c ∈ name) → 0x2f ∉ (trim l).map toupper := by
    intro l hl hslash
    obtain ⟨c, hc, heq⟩ := List.mem_map.mp hslash
    exact (h.chars c (hl c (mem_of_mem_trim hc))).toupper.2.2.1 heq
  rcases List.mem_append.mp hmem with hmem | hmem
  · exact hfield _ (fun c hc => List.mem_of_mem_take hc) hmem
  · split_ifs at hmem
    · cases hmem
    · rcases List.mem_cons.mp hmem with heq | hmem
      · cases heq
      · exact hfield _ (fun c hc => List.mem_of_mem_drop (List.mem_of_mem_take hc)) hmem

/-- A valid name matches itself in whatever case it is written. -/
theorem match_self (h : ValidName name) :
    match_pattern name (name.map toupper) = true := by
  rw [match_pattern_iff]
  intro i hi
  refine .inr (.inr ?_)
  rw [List.getD_eq_getElem?_getD, List.getD_eq_getElem?_getD, List.getElem?_map,
    List.getElem?_eq_getElem (by rw [h.length]; exact hi), Option.map_some, Option.getD_some,
    Option.getD_some, toupper_toupper]

/-- What matches a valid name that has a type is the name upper-cased. -/
theorem eq_of_match (h : ValidName name)
    (htype : slice name 8 3 ≠ [0x20, 0x20, 0x20]) {d_name : Str}
    (hm : match_pattern name (filename_to_fcb d_name) = true) :
    filename_to_fcb d_name = name.map toupper := by
  rw [match_pattern_iff] at hm
  refine List.ext_getElem (by rw [length_filename_to_fcb, List.length_map, h.length]) fun i hi hi' => ?_
  have hi11 : i < 11 := by
    rw [← length_filename_to_fcb d_name]
    exact hi
  have hin : i < name.length := by
    rw [h.length]
    exact hi11
  have hat := hm i hi11
  rw [List.getD_eq_getElem?_getD, List.getD_eq_getElem?_getD, List.getElem?_eq_getElem hin,
    List.getElem?_eq_getElem hi, Option.getD_some, Option.getD_some] at hat
  have hup : toupper (filename_to_fcb d_name)[i] = (filename_to_fcb d_name)[i] := by
    have hall := congrArg (fun l => l[i]?) (toupper_filename_to_fcb d_name)
    rw [List.getElem?_map, List.getElem?_eq_getElem hi, Option.map_some] at hall
    exact Option.some.inj hall
  rcases hat with hq | ⟨hblank, -⟩ | heq
  · exact absurd hq (h.chars _ (List.getElem_mem hin)).toupper.2.2.2
  · exact absurd hblank htype
  · rw [List.getElem_map, heq, hup]

end ValidName

/-! ## 2. The made file's name in its directory -/

namespace HostFs

variable {h : HostFs} {path dir : Str}

theorem key_eq_map {a b : Str} (hk : h.key a = h.key b) : a.map toupper = b.map toupper := by
  unfold key at hk
  split_ifs at hk
  · exact hk
  · rw [hk]

@[simp] theorem length_key (l : Str) : (h.key l).length = l.length := by
  unfold key
  split_ifs
  · exact List.length_map _
  · rfl

theorem key_take (l : Str) (n : ℕ) : h.key (l.take n) = (h.key l).take n := by
  unfold key
  split_ifs
  · exact List.map_take
  · rfl

theorem key_drop (l : Str) (n : ℕ) : h.key (l.drop n) = (h.key l).drop n := by
  unfold key
  split_ifs
  · exact List.map_drop
  · rfl

theorem slash_mem_key_iff (l : Str) : 0x2f ∈ h.key l ↔ 0x2f ∈ l := by
  unfold key
  split_ifs
  · rw [List.mem_map]
    constructor
    · rintro ⟨c, hc, heq⟩
      rwa [(toupper_slash_iff c).mp heq] at hc
    · intro hmem
      exact ⟨0x2f, hmem, rfl⟩
  · rfl

/-- A path that leads to where `dir/d_name` leads has an entry in the directory. -/
theorem entry_name_of_key {d_name : Str} (hk : h.key path = h.key (dir ++ 0x2f :: d_name))
    (hne : d_name ≠ []) (hslash : 0x2f ∉ d_name) :
    ∃ d, h.entry_name dir path = some d ∧ h.key d = h.key d_name := by
  have hdir : h.key (dir ++ 0x2f :: d_name) = h.key (dir ++ [0x2f]) ++ h.key d_name := by
    rw [List.append_cons, key_append]
  have hlen : (h.key (dir ++ [0x2f])).length = dir.length + 1 := by
    rw [length_key, List.length_append, List.length_singleton]
  have hdrop : h.key (path.drop (dir.length + 1)) = h.key d_name := by
    rw [key_drop, hk, hdir, List.drop_left' hlen]
  have htake : h.key (path.take (dir.length + 1)) = h.key (dir ++ [0x2f]) := by
    rw [key_take, hk, hdir, List.take_left' hlen]
  refine ⟨path.drop (dir.length + 1), ?_, hdrop⟩
  unfold entry_name
  dsimp only
  rw [if_pos]
  refine ⟨htake, ?_, ?_⟩
  · intro hnil
    rw [hnil] at hdrop
    have := congrArg List.length hdrop
    rw [length_key, length_key, List.length_nil] at this
    exact hne (List.eq_nil_of_length_eq_zero this.symm)
  · rw [← slash_mem_key_iff (h := h), hdrop, slash_mem_key_iff]
    exact hslash

/-- The last component of a path, up to what names are compared by. -/
theorem key_last {dir' a b : Str} (ha : 0x2f ∉ a) (hb : 0x2f ∉ b)
    (hk : h.key (dir ++ 0x2f :: a) = h.key (dir' ++ 0x2f :: b)) : h.key a = h.key b := by
  have hlast : ∀ d l : Str, 0x2f ∉ l →
      ((h.key (d ++ 0x2f :: l)).rtakeWhile fun c => c ≠ 0x2f) = h.key l := by
    intro d l hl
    have hslash : h.key [0x2f] = [0x2f] := by
      unfold key
      split_ifs <;> rfl
    rw [← List.singleton_append, key_append, key_append, hslash, List.rtakeWhile, List.reverse_append,
      List.reverse_append, List.reverse_singleton, List.append_assoc, List.takeWhile_append_of_pos,
      List.singleton_append, List.takeWhile_cons_of_neg, List.append_nil, List.reverse_reverse]
    · decide
    · intro c hc
      rw [decide_eq_true_eq]
      rintro rfl
      exact hl (slash_mem_key_iff l |>.mp (List.mem_reverse.mp hc))
  rw [← hlast dir a ha, hk, hlast dir' b hb]

/-- The names after a file is made. -/
theorem lookup_made (h : HostFs) (path q : Str) :
    HostFs.lookup { h.setData h.fresh [] with
        nodes := h.nodes ++ [⟨path, h.fresh, false, false⟩], fresh := h.fresh + 1 } q =
      (h.lookup q).or
        (if h.key path = h.key q then some ⟨path, h.fresh, false, false⟩ else none) := by
  unfold lookup
  rw [List.find?_append, List.find?_singleton]
  congr 1
  exact if_congr decide_eq_true_iff rfl rfl

/-- **A file opened for writing from nothing** is there, and so is everything that was. -/
theorem fopen_wp_some {h' : HostFs} {fp : Stream} (hf : h.fopen_wp path = (h', some fp)) :
    h'.buffered = h.buffered ∧ (∃ n, h'.lookup path = some n ∧ n.isdir = false ∧ n.readonly = false ∧
      fp = ⟨n.inode, true, 0, []⟩) ∧ ∀ q m, h.lookup q = some m → h'.lookup q = some m := by
  unfold fopen_wp at hf
  cases hl : h.lookup path with
  | some n =>
    rw [hl] at hf
    dsimp only at hf
    split_ifs at hf with hd
    · cases hf
    · obtain ⟨rfl, hfp⟩ := Prod.mk.inj hf
      rw [not_or, Bool.not_eq_true, Bool.not_eq_true] at hd
      exact ⟨rfl, ⟨n, hl, hd.1, hd.2, (Option.some.inj hfp).symm⟩, fun q m hq => hq⟩
  | none =>
    rw [hl] at hf
    dsimp only at hf
    split_ifs at hf with hc
    · obtain ⟨rfl, hfp⟩ := Prod.mk.inj hf
      refine ⟨rfl, ⟨⟨path, h.fresh, false, false⟩, ?_, rfl, rfl, (Option.some.inj hfp).symm⟩, ?_⟩
      · rw [lookup_made, hl, if_pos rfl]
        rfl
      · intro q m hq
        rw [lookup_made, hq]
        rfl
    · cases hf

end HostFs

namespace CpmFileSystem

variable {fs fs' : CpmFileSystem} {fcb_addr fcb_addr' : BitVec 16} {drive : ℕ}

/-! ## 3. Making a file -/

/-- The state a successful `file_make` leaves. -/
theorem file_make_state (h : (fs.file_make fcb_addr).2 = 0) : ∃ slot host fp,
    (fs.close_stale fcb_addr).host.fopen_wp (fs.fcb_to_host_path fcb_addr) = (host, some fp) ∧
      (fs.file_make fcb_addr).1 = (({ fs.close_stale fcb_addr with host := host }.use_slot slot fp
        fcb_addr (fs.fcb_to_host_path fcb_addr)).init_fcb fcb_addr 0 0 slot) := by
  unfold file_make at h ⊢
  dsimp only at h ⊢
  cases hslot : (fs.close_stale fcb_addr).find_open_slot with
  | none =>
    rw [hslot] at h
    cases h
  | some slot =>
    rcases hfp : (fs.close_stale fcb_addr).host.fopen_wp (fs.fcb_to_host_path fcb_addr) with
      ⟨host, _ | fp⟩
    · rw [hslot] at h
      dsimp only at h
      rw [hfp] at h
      cases h
    · exact ⟨slot, host, fp, rfl, by dsimp only⟩

/-- **A made file is there**, and so is every file that was. -/
theorem file_make_host (h : (fs.file_make fcb_addr).2 = 0) :
    (∃ n, (fs.file_make fcb_addr).1.host.lookup (fs.fcb_to_host_path fcb_addr) = some n ∧
      n.isdir = false) ∧
    ∀ q m, fs.host.lookup q = some m → (fs.file_make fcb_addr).1.host.lookup q = some m := by
  obtain ⟨slot, host, fp, hfp, hstate⟩ := file_make_state h
  obtain ⟨m, -, hinit⟩ := @init_fcb_eq ({ fs.close_stale fcb_addr with host := host }.use_slot slot fp
    fcb_addr (fs.fcb_to_host_path fcb_addr)) fcb_addr 0 0 slot
  have hhost : (fs.file_make fcb_addr).1.host = host := by
    rw [hstate, hinit]
    rfl
  obtain ⟨-, ⟨n, hn, hfile, -⟩, hkept⟩ := HostFs.fopen_wp_some hfp
  rw [hhost]
  refine ⟨⟨n, hn, hfile⟩, fun q m hq => hkept q m ?_⟩
  rw [close_stale_lookup]
  exact hq

/-- What a successful `file_make` leaves alone: the first twelve bytes of the FCB, and what they are
read through. -/
theorem file_make_frame (hmap : fs.m_mem.map.Reachable) (h : (fs.file_make fcb_addr).2 = 0) :
    (fs.file_make fcb_addr).1.context = fs.context ∧
      (fs.file_make fcb_addr).1.m_drive_paths = fs.m_drive_paths ∧
      (fs.file_make fcb_addr).1.m_current_drive = fs.m_current_drive ∧
      ∀ i : BitVec 16, i.toNat < 12 →
        (fs.file_make fcb_addr).1.mem_read (fcb_addr + i) = fs.mem_read (fcb_addr + i) := by
  obtain ⟨slot, host, fp, -, hstate⟩ := file_make_state h
  -- what is there before the FCB's fields are set
  have hbefore : ∀ s : CpmFileSystem, s = ({ fs.close_stale fcb_addr with host := host }.use_slot slot
      fp fcb_addr (fs.fcb_to_host_path fcb_addr)) → s.context = fs.context ∧
        s.m_drive_paths = fs.m_drive_paths ∧ s.m_current_drive = fs.m_current_drive ∧
        s.mem_read = fs.mem_read := by
    rintro s rfl
    exact close_stale_use_frame slot fp (fs.fcb_to_host_path fcb_addr)
  generalize hs : ({ fs.close_stale fcb_addr with host := host }.use_slot slot fp fcb_addr
    (fs.fcb_to_host_path fcb_addr)) = s at hstate
  obtain ⟨hctx, hpaths, hcurrent, hread⟩ := hbefore s hs.symm
  obtain ⟨hctx', hpaths', hcurrent'⟩ := @init_fcb_frame s fcb_addr 0 0 slot
  rw [hstate]
  refine ⟨hctx'.trans hctx, hpaths'.trans hpaths, hcurrent'.trans hcurrent, ?_⟩
  intro i hi
  have hsmap : s.m_mem.map.Reachable := by
    have hsame : s.m_mem.map = fs.m_mem.map := congrArg Prod.fst hctx
    rw [hsame]
    exact hmap
  have hfield : i ≠ FCB_RC ∧ i ≠ FCB_CR ∧ i ≠ FCB_S2 ∧ i ≠ FCB_S1 ∧ i ≠ FCB_EX := by
    refine ⟨?_, ?_, ?_, ?_, ?_⟩ <;>
      · rintro rfl
        revert hi
        decide
  obtain ⟨h1, h2, h3, h4, h5⟩ := hfield
  rw [init_fcb_read hsmap 0 0 slot (.inl (by omega)), init_fields_read hsmap, if_neg h1, if_neg h2,
    if_neg h3, if_neg h4, if_neg h5, hread]

theorem file_make_map (hmap : fs.m_mem.map.Reachable) (h : (fs.file_make fcb_addr).2 = 0) :
    (fs.file_make fcb_addr).1.m_mem.map.Reachable := by
  have hsame : (fs.file_make fcb_addr).1.m_mem.map = fs.m_mem.map :=
    congrArg Prod.fst (file_make_frame hmap h).1
  rw [hsame]
  exact hmap

/-- **The FCB of a made file**: `file_make` succeeded on a drive that is a host directory, and an FCB
holds the name afterwards, the same or another one. -/
structure Made (fs : CpmFileSystem) (fcb_addr : BitVec 16) (drive : ℕ) (fs' : CpmFileSystem)
    (fcb_addr' : BitVec 16) : Prop where
  code : (fs.file_make fcb_addr).2 = 0
  on_drive : fs.resolve_drive (fs.mem_read (fcb_addr + FCB_DR)) = drive
  lt : drive < MAX_DRIVES
  dir : (fs.host.opendir (fs.m_drive_paths drive)).isSome
  host : fs'.host = (fs.file_make fcb_addr).1.host
  paths : fs'.m_drive_paths = fs.m_drive_paths
  on_drive' : fs'.resolve_drive (fs'.mem_read (fcb_addr' + FCB_DR)) = drive
  name : fs'.read_fcb_name fcb_addr' = fs.read_fcb_name fcb_addr

/-- The FCB the file was made with is one. -/
theorem made_self (hmap : fs.m_mem.map.Reachable) (h : (fs.file_make fcb_addr).2 = 0)
    (hdrive : fs.resolve_drive (fs.mem_read (fcb_addr + FCB_DR)) = drive) (hlt : drive < MAX_DRIVES)
    (hdir : (fs.host.opendir (fs.m_drive_paths drive)).isSome) :
    Made fs fcb_addr drive (fs.file_make fcb_addr).1 fcb_addr := by
  obtain ⟨-, hpaths, hcurrent, hbytes⟩ := file_make_frame hmap h
  refine ⟨h, hdrive, hlt, hdir, rfl, hpaths, ?_, read_fcb_name_congr hbytes⟩
  unfold resolve_drive
  rw [hbytes FCB_DR (by decide), hcurrent]
  exact hdrive

/-! ## 4. Finding it -/

/-- **A search finds a name**: one of its calls returns an entry with these bytes, and the first call
does where the name has a type. -/
def SearchFinds (fs : CpmFileSystem) (fcb_addr : BitVec 16) (name : List Byte) : Prop :=
  ∃ n, (fs.search_call fcb_addr n).2 ≠ 0xff ∧
    (fs.search_call fcb_addr n).1.entry_fcb_name (fs.search_call fcb_addr n).2 = name ∧
    (slice name 8 3 ≠ [0x20, 0x20, 0x20] → n = 0)

namespace Made

variable (h : Made fs fcb_addr drive fs' fcb_addr')

include h

theorem path : fs.fcb_to_host_path fcb_addr =
    fs.m_drive_paths drive ++ 0x2f :: host_name (fs.read_fcb_name fcb_addr) := by
  unfold fcb_to_host_path
  dsimp only
  rw [h.on_drive, if_neg (Nat.not_le_of_lt h.lt)]

/-- The search is on the drive of the file, with its name for a pattern. -/
theorem search : fs'.search_drive fcb_addr' = some drive ∧
    fs'.search_pattern fcb_addr' = fs.read_fcb_name fcb_addr := by
  have hnot : fs'.mem_read (fcb_addr' + FCB_DR) ≠ 0x3f := by
    intro hany
    have hon := h.on_drive'
    have hlt := h.lt
    have h62 : fs'.resolve_drive 0x3f = 62 := rfl
    rw [hany, h62] at hon
    rw [← hon, MAX_DRIVES] at hlt
    omega
  constructor
  · unfold search_drive
    dsimp only
    rw [if_neg hnot, h.on_drive', if_neg (Nat.not_le_of_lt h.lt)]
  · unfold search_pattern
    rw [if_neg hnot, h.name]

/-- **The made file is among those the search shows.** -/
theorem mem_hits (hv : ValidName (fs.read_fcb_name fcb_addr)) : ∃ d_name ∈ fs'.hits fcb_addr',
    filename_to_fcb d_name = (fs.read_fcb_name fcb_addr).map toupper := by
  obtain ⟨⟨n, hn, hfile⟩, hkept⟩ := file_make_host h.code
  rw [← h.host, h.path] at hn
  obtain ⟨hmem, hkey⟩ := HostFs.lookup_some hn
  obtain ⟨c, hc, hhead⟩ := hv.head_host_name
  have hne : host_name (fs.read_fcb_name fcb_addr) ≠ [] := by
    intro hnil
    rw [hnil] at hhead
    cases hhead
  obtain ⟨d_name, hentry, hdkey⟩ := HostFs.entry_name_of_key hkey hne hv.slash_notMem
  have hmap := HostFs.key_eq_map hdkey
  have hfcb : filename_to_fcb d_name = (fs.read_fcb_name fcb_addr).map toupper := by
    rw [filename_to_fcb_congr hmap, hv.filename_to_fcb_host_name]
  obtain ⟨hsd, hsp⟩ := h.search
  refine ⟨d_name, ?_, hfcb⟩
  rw [mem_hits_iff]
  refine ⟨drive, hsd, ?_, ?_, ?_⟩
  · obtain ⟨names, hnames⟩ := Option.isSome_iff_exists.mp h.dir
    rw [HostFs.opendir] at hnames
    rw [h.paths, h.host]
    cases hl : fs.host.lookup (fs.m_drive_paths drive) with
    | none =>
      rw [hl] at hnames
      cases hnames
    | some m =>
      rw [hl] at hnames
      dsimp only at hnames
      split_ifs at hnames with hd
      exact ⟨m, hkept _ m hl, hd⟩
  · rw [h.paths]
    exact ⟨n, hmem, hentry⟩
  · have hdot : d_name.head? ≠ some 0x2e := by
      intro hd
      have hup := congrArg List.head? hmap
      rw [List.head?_map, List.head?_map, hhead, hd, Option.map_some, Option.map_some,
        Option.some.injEq, toupper_toupper] at hup
      exact (hv.chars c hc).toupper.2.1 hup.symm
    have hstat : fs'.host.stat (fs'.m_drive_paths drive ++ 0x2f :: d_name) = some n := by
      have hsame : fs'.host.key (fs.m_drive_paths drive ++ 0x2f :: d_name) =
          fs'.host.key (fs.m_drive_paths drive ++ 0x2f :: host_name (fs.read_fcb_name fcb_addr)) := by
        rw [List.append_cons, HostFs.key_append, hdkey, ← HostFs.key_append, ← List.append_cons]
      rw [h.paths, HostFs.stat, HostFs.lookup_congr hsame, hn]
    simp only [shows, Bool.and_eq_true, decide_eq_true_eq, Bool.not_eq_true']
    rw [hstat, hsp, hfcb]
    exact ⟨⟨hdot, hfile⟩, hv.match_self⟩

end Made

/-- **From a made file to its entry**: the search finds the upper-cased name, and no FCB with another
valid name leads to the file. -/
theorem make_search (hmap : fs'.m_mem.map.Reachable) (h : Made fs fcb_addr drive fs' fcb_addr')
    (hv : ValidName (fs.read_fcb_name fcb_addr)) :
    fs'.SearchFinds fcb_addr' ((fs.read_fcb_name fcb_addr).map toupper) ∧
      ∀ (s : CpmFileSystem) (b : BitVec 16) (host : HostFs) (n : Node), ValidName (s.read_fcb_name b) →
        host.lookup (fs.fcb_to_host_path fcb_addr) = some n →
        host.lookup (s.fcb_to_host_path b) = some n →
        (s.read_fcb_name b).map toupper = (fs.read_fcb_name fcb_addr).map toupper := by
  constructor
  · obtain ⟨d_name, hmem, hfcb⟩ := h.mem_hits hv
    obtain ⟨-, hsp⟩ := h.search
    -- a file the search shows is returned by the call of its number
    have hcall : ∀ n d, (fs'.hits fcb_addr')[n]? = some d →
        filename_to_fcb d = (fs.read_fcb_name fcb_addr).map toupper →
        (fs'.search_call fcb_addr' n).2 ≠ 0xff ∧
          (fs'.search_call fcb_addr' n).1.entry_fcb_name (fs'.search_call fcb_addr' n).2 =
            (fs.read_fcb_name fcb_addr).map toupper := by
      intro n d hd hname
      rcases search_call_spec hmap fcb_addr' n with ⟨d', -, hidx, -⟩ | ⟨hnone, -⟩
      · refine ⟨?_, (entry_of_hit hmap hd).trans hname⟩
        rw [hidx]
        omega
      · rw [hnone] at hd
        cases hd
    by_cases htype : slice (fs.read_fcb_name fcb_addr) 8 3 = [0x20, 0x20, 0x20]
    · obtain ⟨n, hn⟩ := List.mem_iff_getElem?.mp hmem
      obtain ⟨hcode, hentry⟩ := hcall n d_name hn hfcb
      refine ⟨n, hcode, hentry, fun hnot => absurd ?_ hnot⟩
      have hblank : ([0x20, 0x20, 0x20] : List Byte).map toupper = [0x20, 0x20, 0x20] := rfl
      rw [slice, ← List.map_drop, ← List.map_take, ← slice, htype, hblank]
    · -- every file shown has the name, so the first one has
      obtain ⟨d, hd⟩ : ∃ d, (fs'.hits fcb_addr')[0]? = some d := by
        cases hhits : fs'.hits fcb_addr' with
        | nil =>
          rw [hhits] at hmem
          cases hmem
        | cons d l => exact ⟨d, rfl⟩
      obtain ⟨_, _, _, _, hshow⟩ := mem_hits_iff.mp (List.mem_of_getElem? hd)
      simp only [shows, Bool.and_eq_true] at hshow
      rw [hsp] at hshow
      obtain ⟨hcode, hentry⟩ := hcall 0 d hd (hv.eq_of_match htype hshow.2)
      exact ⟨0, hcode, hentry, fun _ => rfl⟩
  · intro s b host n hb hn hbn
    have hkey := (HostFs.lookup_some hn).2.symm.trans (HostFs.lookup_some hbn).2
    rw [h.path, fcb_to_host_path] at hkey
    have hlast := HostFs.key_last hv.slash_notMem hb.slash_notMem hkey
    rw [← hb.filename_to_fcb_host_name, ← hv.filename_to_fcb_host_name]
    exact (filename_to_fcb_congr (HostFs.key_eq_map hlast)).symm

/-- Drive A with the file `A.TXT`, and an FCB for the file `A`. -/
def txtA : CpmFileSystem := sample fcb_a [([0x41, 0x2e, 0x54, 0x58, 0x54], [])]

theorem txtA_valid : ValidName (txtA.read_fcb_name 0x5c) :=
  ⟨by decide +kernel, by decide +kernel, by decide +kernel⟩

theorem txtA_made : Made txtA 0x5c 0 (txtA.file_make 0x5c).1 0x5c :=
  made_self .z8002 (by decide +kernel) (by decide +kernel) (by decide) (by decide +kernel)

/-- The search finds `A` as well, behind `A.TXT`. -/
theorem make_search_A :
    (txtA.file_make 0x5c).1.SearchFinds 0x5c ((txtA.read_fcb_name 0x5c).map toupper) :=
  (make_search (file_make_map .z8002 txtA_made.code) txtA_made txtA_valid).1

/-- **The first call after `A` is made finds `A.TXT`.** -/
theorem txtA_not_first : ¬ ∀ (fs : CpmFileSystem) (fcb_addr : BitVec 16) (drive : ℕ)
    (fs' : CpmFileSystem) (fcb_addr' : BitVec 16), fs'.m_mem.map.Reachable →
    Made fs fcb_addr drive fs' fcb_addr' → ValidName (fs.read_fcb_name fcb_addr) →
    (fs'.file_search_first fcb_addr').2 ≠ 0xff ∧
      (fs'.file_search_first fcb_addr').1.entry_fcb_name (fs'.file_search_first fcb_addr').2 =
        (fs.read_fcb_name fcb_addr).map toupper := by
  intro hall
  have hfirst := (hall txtA 0x5c 0 _ 0x5c (file_make_map .z8002 txtA_made.code) txtA_made txtA_valid).2
  revert hfirst
  decide +kernel

end CpmFileSystem

end Cpm8000.Host
