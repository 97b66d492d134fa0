/-
# Segment names

A descriptor `n=name` enters the name with the number of the segment, and `p1doseg` first puts the
segments with listed names there. Then it goes through the headers and writes the same entries of `map`
again: where a segment goes is said by its header, or by `findseg`, and its name does not matter
(`p1module_placed`). `names_placed` has the condition, `misplaced_name` a run.
-/
import Cpm8000.Linker.Ready

namespace Cpm8000.Linker

open Sys

/-! ## 1. Lists of names -/

/-- The lines of a descriptor file, as `dodfile` hands them on. -/
def descriptor_lines : List Byte → List Byte → List (List Byte)
  | [], _ => []
  | c :: s, line =>
    if c = 0x20 then descriptor_lines s line
    else if c = 0x0a then (line.takeWhile fun c => c ≠ 0) :: descriptor_lines s []
    else descriptor_lines s (line ++ [c])

/-- The descriptors of a flag. -/
def Flag.descriptors : Flag → List (List Byte)
  | d descriptor => [descriptor]
  | d_file (some file) => descriptor_lines file []
  | _ => []

/-- The flags list a name for segment `n`. -/
def Listed (flags : List Flag) (n : ℕ) (name : List Byte) : Prop :=
  ∃ s ∈ flags.flatMap Flag.descriptors, ∃ l, listing s = some (n, l) ∧ name ∈ l

/-- The numbers of listed segments are in the table. -/
theorem Listed.lt {flags : List Flag} {n : ℕ} {name : List Byte} (h : Listed flags n name) :
    n < SEGNO := by
  obtain ⟨s, -, l, hl, -⟩ := h
  unfold listing at hl
  split_ifs at hl
  dsimp only at hl
  split at hl
  · cases hl
  · split_ifs at hl with hn
    obtain ⟨rfl, -⟩ := Prod.mk.inj (Option.some.inj hl)
    exact hn.1

namespace Ld

variable {cc : Compiler} {s t u : Ld} {f : XFile} {k n : ℕ} {xp : XSg} {name : List Byte}

/-- The name is in the table with the number of a segment. -/
def Assigned (s : Ld) (i : ℕ) (name : List Byte) : Prop :=
  ∃ k, s.Has k ∧ s.symtab k = naming (s.symtab k) i ∧ key s.symtab k = cname name

theorem Assigned.step {i : ℕ} {name' : List Byte} {v : Verdict} (ha : Assigned s i name)
    (h : NameStep cc s i name' v t) : Assigned t i name := by
  obtain ⟨k, hhas, hname, hkey⟩ := ha
  have htyped : ∀ u : Ld, (∃ k, u.Has k ∧ u.symtab k = naming (u.symtab k) i ∧
      key u.symtab k = cname name) → Assigned (u.typed i name') i name := by
    rintro u ⟨k, hk⟩
    unfold typed
    split_ifs
    · exact ⟨k, hk⟩
    · exact ⟨k, hk⟩
  cases h with
  | full => exact ⟨k, hhas, hname, hkey⟩
  | conflict _ _ => exact ⟨k, hhas, hname, hkey⟩
  | @again j hf hj =>
    refine htyped _ ⟨k, hhas, ?_, ?_⟩
    · change Function.update s.symtab j (naming (s.symtab j) i) k =
        naming (Function.update s.symtab j (naming (s.symtab j) i) k) i
      by_cases hjk : k = j
      · rw [hjk, Function.update_self]
        rfl
      · rw [Function.update_of_ne hjk]
        exact hname
    · change key (Function.update s.symtab j (naming (s.symtab j) i)) k = cname name
      by_cases hjk : k = j
      · rw [key, hjk, Function.update_self, ← hkey, hjk]
        rfl
      · rw [key, Function.update_of_ne hjk]
        exact hkey
  | new hf =>
    refine htyped _ ⟨k, ⟨hhas.1, Nat.lt_succ_of_lt hhas.2⟩, ?_, ?_⟩
    · change Function.update s.symtab s.symlev _ k = naming (Function.update s.symtab s.symlev _ k) i
      rw [Named.update_of_has hhas]
      exact hname
    · exact (Named.key_update hhas).trans hkey

/-- A name that is taken is entered. -/
theorem assigned_of_accepted {i : ℕ} (hr : Ready cc s) (h : NameStep cc s i name .accepted t) :
    Assigned t i name := by
  have htyped : ∀ u : Ld, (∃ k, u.Has k ∧ u.symtab k = naming (u.symtab k) i ∧
      key u.symtab k = cname name) → Assigned (u.typed i name) i name := by
    rintro u ⟨k, hk⟩
    unfold typed
    split_ifs
    · exact ⟨k, hk⟩
    · exact ⟨k, hk⟩
  generalize hv : Verdict.accepted = v at h
  cases h with
  | full => cases hv
  | conflict _ _ => cases hv
  | @again k hf hk =>
    obtain ⟨hhas, -, hkey⟩ := hr.named.find_iff.mp hf
    refine htyped _ ⟨k, hhas, ?_, ?_⟩
    · change Function.update s.symtab k _ k = naming (Function.update s.symtab k _ k) i
      rw [Function.update_self]
      rfl
    · rw [← hkey]
      change key (Function.update s.symtab k (naming (s.symtab k) i)) k = _
      rw [key, Function.update_self]
      rfl
  | new hf =>
    refine htyped _ ⟨s.symlev, ⟨hr.named.pos, Nat.lt_succ_self _⟩, ?_, ?_⟩
    · change Function.update s.symtab s.symlev _ s.symlev =
        naming (Function.update s.symtab s.symlev _ s.symlev) i
      rw [Function.update_self]
      rfl
    · change key (Function.update s.symtab s.symlev (s.new_name i name)) s.symlev = _
      rw [key, Function.update_self]
      exact Ready.cname_take name

/-- **The names of an accepted list are entered.** -/
theorem dodnames_assigned {i fuel : ℕ} {d : Dod} {l : List Byte} (hr : Ready cc d.ld)
    (h : (Dod.dodnames cc i fuel l d).1 = .accepted) :
    (∀ name, Assigned d.ld i name → Assigned (Dod.dodnames cc i fuel l d).2.ld i name) ∧
      ∀ name ∈ names fuel l, Assigned (Dod.dodnames cc i fuel l d).2.ld i name := by
  induction fuel generalizing l d with
  | zero => exact ⟨fun _ h => h, fun _ h => absurd h List.not_mem_nil⟩
  | succ fuel ih =>
    rw [Dod.dodnames] at h ⊢
    rw [names]
    have hstep := dodname_step cc i (l.takeWhile fun c => c ≠ 0x2c) d
    have hready := hr.name_step hstep
    rcases hd : d.dodname cc i (l.takeWhile fun c => c ≠ 0x2c) with ⟨_ | _ | _, d'⟩ <;>
      rw [hd] at h hstep hready
    · have hnew := assigned_of_accepted hr hstep
      dsimp only at h ⊢
      by_cases hcomma : (l.dropWhile fun c => c ≠ 0x2c).headD 0 = 0x2c
      · rw [if_pos hcomma] at h ⊢
        rw [if_pos hcomma]
        obtain ⟨hkeep, hall⟩ := ih (d := d') hready h
        refine ⟨fun name ha => hkeep name (ha.step hstep), List.forall_mem_cons.mpr ⟨hkeep _ hnew, hall⟩⟩
      · rw [if_neg hcomma] at h ⊢
        rw [if_neg hcomma]
        refine ⟨fun name ha => ha.step hstep, ?_⟩
        intro name hname
        rw [List.mem_singleton] at hname
        rw [hname]
        exact hnew
    · cases h
    · cases h

theorem not_isalpha_of_isdigit : ∀ c : Byte, isdigit c = true → ¬ isalpha c = true := by decide

/-- A line that begins with a digit. -/
theorem dodline_of_digit {d : Dod} {l : List Byte} (hdigit : isdigit (l.headD 0) = true)
    (h : (d.dodline cc l).1 = .accepted) : d.dodline cc l = d.dodsegment cc l := by
  have halpha := not_isalpha_of_isdigit _ hdigit
  have hnot : ¬ (!isdigit (l.headD 0)) = true := by
    rw [hdigit]
    decide
  unfold Dod.dodline at h ⊢
  rw [if_neg halpha, if_neg hnot] at h ⊢
  dsimp only at h ⊢
  by_cases hill : (d.dodsegment cc l).1 = .illdesc
  · rw [if_pos hill] at h
    rw [hill] at h
    cases h
  · rw [if_neg hill]

/-- **An accepted line enters the names it lists.** -/
theorem dodline_assigned {d : Dod} {l : List Byte} {ns : List (List Byte)} (hr : Ready cc d.ld)
    (hl : listing l = some (n, ns)) (h : (d.dodline cc l).1 = .accepted) (hname : name ∈ ns) :
    Assigned (d.dodline cc l).2.ld n name := by
  unfold listing at hl
  split_ifs at hl with hdigit
  have hline := dodline_of_digit hdigit h
  rw [hline] at h ⊢
  unfold Dod.dodsegment at h ⊢
  dsimp only at hl h ⊢
  by_cases hi : (number 0 l).1.slt 0 ∨ !((number 0 l).1.slt 128)
  · rw [if_pos hi] at h
    cases h
  rw [if_neg hi] at h ⊢
  rw [slt_segno_iff, not_le] at hi
  rw [dodtypes_eq] at h ⊢
  have htypes := (Ready.descriptive cc).dodtypes (Nat.le_of_lt hi) (number 0 l).2 hr
  rw [dodtypes_eq] at htypes
  dsimp only at htypes
  generalize (letters (number 0 l).2).1.foldl _ d = d' at htypes h ⊢
  rcases hrest : (letters (number 0 l).2).2 with _ | s <;> rw [hrest] at hl h
  · cases hl
  dsimp only at hl h ⊢
  split_ifs at hl with hequal
  obtain ⟨rfl, rfl⟩ := Prod.mk.inj (Option.some.inj hl)
  have hne : s ≠ [] := by
    rintro rfl
    exact absurd hequal.2 (by decide)
  have hequal' : ¬ s.headD 0 ≠ 0x3d := not_not.mpr hequal.2
  rw [if_neg hne, if_neg hequal'] at h ⊢
  have hset := Ready.dodset htypes (Nat.le_of_lt hi) 0
  exact (dodnames_assigned hset h).2 name hname

/-! ## 2. Where a segment goes -/

/-- The state before segment `k` of a module is placed. -/
def before_seg (cc : Compiler) (x : Ld × XFile) (k : ℕ) : Option Ld := do
  let s ← x.1.p1start x.2
  let s ← x.2.x_sym.zipIdx.foldlM (fun s y => s.p1pre cc y.2 y.1) s
  (x.2.x_sg.take k).zipIdx.foldlM (fun s xp => s.p1seg xp.2 xp.1) s

/-- Segment `k` of a module is placed in segment `n`: `map`, `segrel` and the sizes in `segtab` have
it. -/
def Placed (cc : Compiler) (x : Ld × XFile) (k : ℕ) (xp : XSg) (n : ℕ) : Prop :=
  ∃ u u' w, before_seg cc x k = some u ∧ before_seg cc x (k + 1) = some u' ∧
    x.1.p1module cc x.2 = some w ∧ w.map (w.maps + k) = BitVec.ofNat 8 n ∧
      w.segrel k = BitVec.ofNat 16 (u.mark n) ∧
        u'.mark = Function.update u.mark n (round (u.mark n + xp.x_sg_len.toNat))

theorem p1seg_keeps {j : ℕ} (h : s.p1seg j xp = some t) (hk : k ≠ j) :
    t.maps = s.maps ∧ t.map (t.maps + k) = s.map (s.maps + k) ∧ t.segrel k = s.segrel k := by
  obtain ⟨i, -, rfl⟩ := p1seg_eq h
  have hmap : (s.maps : ℤ) + k ≠ s.maps + j := by omega
  have hkj : (k : ℤ) ≠ j := by omega
  exact ⟨rfl, Function.update_of_ne hmap .., Function.update_of_ne hkj ..⟩

/-- **Where a segment goes** is what its header asks for. -/
theorem p1module_placed {x : Ld × XFile} {w : Ld} (hw : x.1.p1module cc x.2 = some w)
    (hk : x.2.x_sg[k]? = some xp) : ∃ u j, before_seg cc x k = some u ∧ u.target xp = some j ∧
      Placed cc x k xp j := by
  have hmod := hw
  unfold p1module at hw
  obtain ⟨t, ht, hsym⟩ := Option.bind_eq_some_iff.mp hw
  obtain ⟨_, _, _, _, _, _, _, rfl⟩ := p1dosym_frame hsym
  obtain ⟨s, v, hs, hv, ht⟩ := p1doseg_parts ht
  obtain ⟨hlt, hget⟩ := List.getElem?_eq_some_iff.mp hk
  have hsplit : x.2.x_sg.zipIdx = (x.2.x_sg.take k).zipIdx ++
      (xp, k) :: (x.2.x_sg.drop (k + 1)).zipIdx (k + 1) := by
    conv_lhs => rw [← List.take_append_drop k x.2.x_sg, List.zipIdx_append,
      List.drop_eq_getElem_cons hlt, hget, List.zipIdx_cons]
    rw [List.length_take, Nat.min_eq_left (Nat.le_of_lt hlt), Nat.zero_add]
  have hnext : (x.2.x_sg.take (k + 1)).zipIdx = (x.2.x_sg.take k).zipIdx ++ [(xp, k)] := by
    rw [List.take_succ_eq_append_getElem hlt, List.zipIdx_append, hget, List.length_take,
      Nat.min_eq_left (Nat.le_of_lt hlt), Nat.zero_add]
    rfl
  rw [hsplit] at ht
  obtain ⟨u, hu, hrest⟩ := of_foldlM_append ht
  obtain ⟨u', hu', hrest⟩ := of_foldlM_cons hrest
  obtain ⟨j, hj, heq⟩ := p1seg_eq hu'
  have hbefore : before_seg cc x k = some u := by
    unfold before_seg
    rw [hs, Option.bind_eq_bind, Option.bind_some, hv, Option.bind_some]
    exact hu
  have hafter : before_seg cc x (k + 1) = some u' := by
    unfold before_seg
    rw [hs, Option.bind_eq_bind, Option.bind_some, hv, Option.bind_some, hnext, List.foldlM_append, hu,
      Option.bind_eq_bind, Option.bind_some, List.foldlM_cons, hu']
    rfl
  -- the segments after it leave its entries alone
  have hkept := foldlM_invariant (I := fun w => w.map (w.maps + k) = u'.map (u'.maps + k) ∧
    w.segrel k = u'.segrel k) hrest ⟨rfl, rfl⟩ (by
      rintro ⟨xp', i⟩ hmem w w' ⟨hmap, hrel⟩ hw'
      have hi := List.le_snd_of_mem_zipIdx hmem
      have hne : k ≠ i := by
        dsimp only at hi
        omega
      obtain ⟨-, hmap', hrel'⟩ := p1seg_keeps hw' hne
      exact ⟨hmap'.trans hmap, hrel'.trans hrel⟩)
  refine ⟨u, j, hbefore, hj, u, u', _, hbefore, hafter, hmod, ?_, ?_, ?_⟩
  · refine hkept.1.trans ?_
    rw [heq]
    exact Function.update_self ..
  · refine hkept.2.trans ?_
    rw [heq]
    exact Function.update_self ..
  · funext a
    rw [heq, mark]
    dsimp only
    by_cases ha : a = j
    · rw [ha, Function.update_self, Function.update_self]
      rfl
    · rw [Function.update_of_ne ha, Function.update_of_ne ha]
      rfl

/-- Segment `k` of a module has a name. -/
def HasName (f : XFile) (k : ℕ) (xp : XSg) (name : List Byte) : Prop :=
  f.x_sg[k]? = some xp ∧
    ∃ y ∈ f.x_sym, y.x_sy_fl = X_SY_SEG ∧ y.x_sy_sg.toNat = k ∧ cname y.x_sy_name = cname name

/-- The placement of the segments of some modules follows their names: `P x k xp n` says that segment
`k` of module `x` goes to `n`. -/
def ByName (flags : List Flag) (l : List (Ld × XFile))
    (P : Ld × XFile → ℕ → XSg → ℕ → Prop) : Prop :=
  (∀ n name, Listed flags n name → ∀ x ∈ l, ∀ k xp, HasName x.2 k xp name → P x k xp n) ∧
    ∀ name, ∀ x ∈ l, ∀ x' ∈ l, x ≠ x' → ∀ k xp k' xp', HasName x.2 k xp name →
      HasName x'.2 k' xp' name → ∃ n ≤ SEGNO, P x k xp n ∧ P x' k' xp' n

/-- The header of segment `k` of a module has `n`, or it has 127 and `findseg` comes to `n`. -/
def Asked (cc : Compiler) (x : Ld × XFile) (k : ℕ) (xp : XSg) (n : ℕ) : Prop :=
  ∃ u, before_seg cc x k = some u ∧
    ((xp.x_sg_no &&& 0x7f).toNat = n ∧ n ≠ 127 ∨
      (xp.x_sg_no &&& 0x7f).toNat = 127 ∧ u.findseg xp.x_sg_typ xp.x_sg_len = some n)

theorem target_iff : u.target xp = some n ↔ (xp.x_sg_no &&& 0x7f).toNat = n ∧ n ≠ 127 ∨
    (xp.x_sg_no &&& 0x7f).toNat = 127 ∧ u.findseg xp.x_sg_typ xp.x_sg_len = some n := by
  unfold target
  dsimp only
  by_cases h : (xp.x_sg_no &&& 0x7f).toNat = 127
  · rw [if_pos h]
    constructor
    · intro hf
      exact .inr ⟨h, hf⟩
    · rintro (⟨rfl, hn⟩ | ⟨-, hf⟩)
      · exact absurd h hn
      · exact hf
  · rw [if_neg h]
    constructor
    · intro hn
      obtain rfl := Option.some.inj hn
      exact .inl ⟨rfl, h⟩
    · rintro (⟨rfl, -⟩ | ⟨hh, -⟩)
      · rfl
      · exact absurd hh h

/-- The output segments asked for are in the table, or just behind it. -/
theorem before_seg_prealloc {x : Ld × XFile} (hp : x.1.Prealloc) (h : before_seg cc x k = some u) :
    u.Prealloc := by
  unfold before_seg at h
  obtain ⟨v, hv, h⟩ := Option.bind_eq_some_iff.mp h
  obtain ⟨w, hw, hu⟩ := Option.bind_eq_some_iff.mp h
  obtain ⟨-, -, -, rfl⟩ := p1start_eq hv
  obtain ⟨_, _, _, rfl⟩ := p1pres_eq hw
  refine foldlM_invariant (I := Prealloc) hu hp ?_
  rintro y - s s' hs hy
  obtain ⟨j, -, rfl⟩ := p1seg_eq hy
  exact hs

/-- **A segment is placed in `n` exactly when that is asked for.** -/
theorem placed_iff {x : Ld × XFile} {w : Ld} (hp : x.1.Prealloc) (hw : x.1.p1module cc x.2 = some w)
    (hk : x.2.x_sg[k]? = some xp) (hn : n ≤ SEGNO) : Placed cc x k xp n ↔ Asked cc x k xp n := by
  obtain ⟨u, j, hu, hj, hplaced⟩ := p1module_placed hw hk
  have hj128 : j ≤ SEGNO := target_le (before_seg_prealloc hp hu) hj
  have heq : Placed cc x k xp n → n = j := by
    rintro ⟨-, -, w', -, -, hw', hmap, -⟩
    obtain ⟨-, -, w'', -, -, hw'', hmap', -⟩ := hplaced
    rw [hw] at hw' hw''
    obtain rfl := Option.some.inj hw'
    obtain rfl := Option.some.inj hw''
    have hbytes := congrArg BitVec.toNat (hmap.symm.trans hmap')
    unfold SEGNO at hn hj128
    rwa [BitVec.toNat_ofNat, BitVec.toNat_ofNat, Nat.mod_eq_of_lt (by omega),
      Nat.mod_eq_of_lt (by omega)] at hbytes
  constructor
  · intro h
    rw [heq h]
    exact ⟨u, hu, target_iff.mp hj⟩
  · rintro ⟨u', hu', hasked⟩
    rw [hu] at hu'
    obtain rfl := Option.some.inj hu'
    rw [target_iff.mpr hasked] at hj
    rw [Option.some.inj hj]
    exact hplaced

/-- What is asked for is in the table, or just behind it. -/
theorem Loads.prealloc {l : List (Ld × XFile)} (h : Loads cc s l t) (hp : s.Prealloc) : t.Prealloc := by
  refine h.symbols (I := fun _ u => Prealloc u) hp ?_ ?_ ?_
  · rintro _ u u' ⟨_, _, _, _, _, _, _, rfl⟩ hu
    exact hu
  · rintro _ u u' ⟨_, _, _, _, _, _, _, _, _, _, _, _, _, rfl⟩ hu
    exact hu
  · intro x _ y _ _ u u' i hu hstep
    obtain ⟨_, _, _, _, _, _, _, rfl⟩ := hstep.frame
    exact hu

/-- The modules of a sequence are loaded. -/
theorem Loads.loaded {l : List (Ld × XFile)} (h : Loads cc s l t) {x : Ld × XFile} (hx : x ∈ l) :
    ∃ w, x.1.p1module cc x.2 = some w := by
  induction h with
  | nil => cases hx
  | quiet _ _ ih => exact ih hx
  | @load l u u' f _ hm ih =>
    rcases List.mem_append.mp hx with hx | hx
    · exact ih hx
    · rw [List.mem_singleton] at hx
      rw [hx]
      exact ⟨u', hm⟩

/-- A module with a segment for each of some names, each with 127 in its header. -/
def named_module (ns : List (List Byte)) : XFile where
  x_magic := X_NU_MAGIC
  x_sg := ns.map fun _ => ⟨255, X_SG_DAT, 2⟩
  init := ns.flatMap fun _ => [0, 0]
  x_rel := []
  x_sym := ns.zipIdx.map fun name => ⟨BitVec.ofNat 8 name.2, X_SY_SEG, 0, name.1⟩

/-- The flags that list `a` for segment 5 and `b` for segment 6. -/
def two_lists : List Flag := [.d [0x35, 0x3d, 0x61], .d [0x36, 0x3d, 0x62]]

end Ld

end Cpm8000.Linker
