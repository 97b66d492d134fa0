/-
# How a descriptor is read

What `dodline` does depends on the string in a simple way: the numbers after a type are read as ranges
(`ranges`), and the letters after a number as types (`letters`), whatever the state is.
-/
import Cpm8000.Linker.Descr
import Cpm8000.Linker.Symbols

namespace Cpm8000.Linker

open Sys

/-! ## 1. Numbers in range -/

/-- The numbers that get through the check of a list. -/
theorem inTable_iff (i : BitVec 16) : Dod.inTable i = true ↔ i.toNat ≤ SEGNO := by
  unfold Dod.inTable SEGNO
  rw [Bool.and_eq_true, Bool.not_eq_true', Bool.not_eq_true', BitVec.slt_eq_decide,
    BitVec.slt_eq_decide, decide_eq_false_iff_not, decide_eq_false_iff_not,
    BitVec.toInt_eq_toNat_cond]
  have hlt := i.isLt
  have hzero : (0 : BitVec 16).toInt = 0 := rfl
  have hmax : (128 : BitVec 16).toInt = 128 := rfl
  rw [hzero, hmax]
  split_ifs <;> omega

/-- The check of a single number. -/
theorem slt_segno_iff (i : BitVec 16) : (i.slt 0 ∨ !(i.slt 128)) ↔ SEGNO ≤ i.toNat := by
  unfold SEGNO
  rw [BitVec.slt_eq_decide, BitVec.slt_eq_decide, Bool.not_eq_true', decide_eq_true_eq,
    decide_eq_false_iff_not, BitVec.toInt_eq_toNat_cond]
  have hlt := i.isLt
  have hzero : (0 : BitVec 16).toInt = 0 := rfl
  have hmax : (128 : BitVec 16).toInt = 128 := rfl
  rw [hzero, hmax]
  split_ifs <;> omega

/-- A range goes through the numbers between its ends. -/
theorem mem_span {a b i : ℕ} : i ∈ Dod.span a b ↔ min a b ≤ i ∧ i ≤ max a b := by
  unfold Dod.span
  split_ifs with h
  · rw [List.mem_range'_1]
    omega
  · rw [List.mem_reverse, List.mem_range'_1]
    omega

/-! ## 2. Ranges -/

/-- The range a list begins with, and the rest of the list; none where it is refused. -/
def range (s : List Byte) : Option ((ℕ × ℕ) × List Byte) :=
  if !isdigit (s.headD 0) then none
  else
    let i := (number 0 s).1
    let s := (number 0 s).2
    if s.headD 0 = 0x2d ∧ !isdigit (s.tail.headD 0) then none
    else
      let k := if s.headD 0 = 0x2d then (number 0 s.tail).1 else i
      let s := if s.headD 0 = 0x2d then (number 0 s.tail).2 else s
      if !Dod.inTable i ∨ !Dod.inTable k then none else some ((i.toNat, k.toNat), s)

/-- The ranges of a list, up to its end or to what is not read as one, and whether it comes to its
end. -/
def ranges : ℕ → List Byte → List (ℕ × ℕ) × Bool
  | 0, _ => ([], false)
  | fuel + 1, s =>
    match range s with
    | none => ([], false)
    | some (r, s) =>
      if s.headD 0 = 0x2c then (r :: (ranges fuel s.tail).1, (ranges fuel s.tail).2)
      else ([r], decide (s.headD 0 = 0))

/-- The ends of a range are in the table or just behind it. -/
theorem of_range {s s' : List Byte} {r : ℕ × ℕ} (h : range s = some (r, s')) :
    r.1 ≤ SEGNO ∧ r.2 ≤ SEGNO := by
  have hchecked : ∀ i k : BitVec 16, ¬ ((!Dod.inTable i) = true ∨ (!Dod.inTable k) = true) →
      i.toNat ≤ SEGNO ∧ k.toNat ≤ SEGNO := by
    intro i k hik
    rw [not_or, Bool.not_eq_true', Bool.not_eq_false, Bool.not_eq_true', Bool.not_eq_false,
      inTable_iff, inTable_iff] at hik
    exact hik
  unfold range at h
  dsimp only at h
  split_ifs at h with _ _ _ hik hik
  · obtain ⟨rfl, -⟩ := Prod.mk.inj (Option.some.inj h)
    exact hchecked _ _ hik
  · obtain ⟨rfl, -⟩ := Prod.mk.inj (Option.some.inj h)
    exact hchecked _ _ hik

/-- The verdict on a list. -/
def Verdict.of_end (ok : Bool) : Verdict := if ok then accepted else illdesc

/-- The segments of some ranges. -/
def spans (rs : List (ℕ × ℕ)) : List ℕ := rs.flatMap fun r => Dod.span r.1 r.2

/-- Some segments get a type, each after the other. -/
def dodsets (typ : Byte) (is : List ℕ) (d : Dod) : Dod := is.foldl (fun d i => d.dodset i typ) d

theorem spans_cons (r : ℕ × ℕ) (rs : List (ℕ × ℕ)) : spans (r :: rs) = Dod.span r.1 r.2 ++ spans rs :=
  List.flatMap_cons ..

theorem spans_singleton (r : ℕ × ℕ) : spans [r] = Dod.span r.1 r.2 := List.flatMap_singleton ..

theorem dodsets_append (typ : Byte) (is js : List ℕ) (d : Dod) :
    dodsets typ (is ++ js) d = dodsets typ js (dodsets typ is d) := List.foldl_append ..

theorem dodlist_succ (typ : Byte) (fuel : ℕ) (s : List Byte) (d : Dod) :
    Dod.dodlist typ (fuel + 1) s d =
      match range s with
      | none => (.illdesc, d)
      | some (r, s) =>
        let d := dodsets typ (Dod.span r.1 r.2) d
        if s.headD 0 = 0x2c then Dod.dodlist typ fuel s.tail d
        else if s.headD 0 ≠ 0 then (.illdesc, d)
        else (.accepted, d) := by
  rw [Dod.dodlist, range]
  dsimp only
  by_cases hdigit : (!isdigit (s.headD 0)) = true
  · rw [if_pos hdigit, if_pos hdigit]
  rw [if_neg hdigit, if_neg hdigit]
  by_cases hminus : (number 0 s).2.headD 0 = 0x2d ∧ (!isdigit ((number 0 s).2.tail.headD 0)) = true
  · rw [if_pos hminus, if_pos hminus]
  rw [if_neg hminus, if_neg hminus]
  by_cases hm : (number 0 s).2.headD 0 = 0x2d
  · simp only [if_pos hm]
    by_cases htable : (!Dod.inTable (number 0 s).1) = true ∨
        (!Dod.inTable (number 0 (number 0 s).2.tail).1) = true
    · rw [if_pos htable, if_pos htable]
    · rw [if_neg htable, if_neg htable]
      rfl
  · simp only [if_neg hm]
    by_cases htable : (!Dod.inTable (number 0 s).1) = true ∨ (!Dod.inTable (number 0 s).1) = true
    · rw [if_pos htable, if_pos htable]
    · rw [if_neg htable, if_neg htable]
      rfl

/-- **A list is read as ranges**, and their segments get the type. -/
theorem dodlist_eq (typ : Byte) (fuel : ℕ) (s : List Byte) (d : Dod) : Dod.dodlist typ fuel s d =
    (.of_end (ranges fuel s).2, dodsets typ (spans (ranges fuel s).1) d) := by
  induction fuel generalizing s d with
  | zero => rfl
  | succ fuel ih =>
    rw [dodlist_succ, ranges]
    rcases range s with _ | ⟨r, s'⟩
    · rfl
    dsimp only
    by_cases hcomma : s'.headD 0 = 0x2c
    · rw [if_pos hcomma, if_pos hcomma, ih, spans_cons, dodsets_append]
    rw [if_neg hcomma, if_neg hcomma, spans_singleton]
    by_cases hend : s'.headD 0 = 0
    · rw [if_neg (not_not.mpr hend), decide_eq_true hend]
      rfl
    · rw [if_pos hend, decide_eq_false hend]
      rfl

theorem of_mem_ranges {fuel : ℕ} {s : List Byte} {r : ℕ × ℕ} (h : r ∈ (ranges fuel s).1) :
    r.1 ≤ SEGNO ∧ r.2 ≤ SEGNO := by
  induction fuel generalizing s with
  | zero => cases h
  | succ fuel ih =>
    rw [ranges] at h
    rcases hr : range s with _ | ⟨r', s'⟩ <;> rw [hr] at h
    · cases h
    dsimp only at h
    by_cases hcomma : s'.headD 0 = 0x2c
    · rw [if_pos hcomma, List.mem_cons] at h
      rcases h with rfl | h
      · exact of_range hr
      · exact ih h
    · rw [if_neg hcomma, List.mem_singleton] at h
      rw [h]
      exact of_range hr

theorem of_mem_spans {fuel i : ℕ} {s : List Byte} (h : i ∈ spans (ranges fuel s).1) : i ≤ SEGNO := by
  obtain ⟨r, hr, hi⟩ := List.mem_flatMap.mp h
  obtain ⟨hfirst, hlast⟩ := of_mem_ranges hr
  rw [mem_span] at hi
  omega

/-! ## 3. Letters -/

/-- The types of the letters after a number, up to what is not read as one, and the rest of the
string, none where the descriptor is refused. -/
def letters : List Byte → List Byte × Option (List Byte)
  | 0x2c :: c :: s =>
    if Dod.type_letter c = 0 then ([], none)
    else (Dod.type_letter c :: (letters s).1, (letters s).2)
  | s => ([], if s.headD 0 = 0x2c then none else some s)

theorem dodtypes_eq (i : ℕ) (s : List Byte) (d : Dod) : d.dodtypes i s =
    ((letters s).1.foldl (fun d typ => d.dodset i typ) d, (letters s).2) := by
  induction d, s using Dod.dodtypes.induct i with
  | case1 d c s hc =>
    rw [Dod.dodtypes, if_pos hc, letters, if_pos hc]
    rfl
  | case2 d c s hc ih =>
    rw [Dod.dodtypes, if_neg hc, letters, if_neg hc, ih]
    rfl
  | case3 d s hs hc =>
    rw [Dod.dodtypes.eq_2 _ _ _ hs, if_pos hc, letters.eq_2 _ hs, if_pos hc]
    rfl
  | case4 d s hs hc =>
    rw [Dod.dodtypes.eq_2 _ _ _ hs, if_neg hc, letters.eq_2 _ hs, if_neg hc]
    rfl

/-! ## 4. Names -/

/-- The names of a list, the first at least. -/
def names : ℕ → List Byte → List (List Byte)
  | 0, _ => []
  | fuel + 1, s =>
    let rest := s.dropWhile fun c => c ≠ 0x2c
    (s.takeWhile fun c => c ≠ 0x2c) :: if rest.headD 0 = 0x2c then names fuel rest.tail else []

/-- The names that are listed for a segment, none where the string is no such list. -/
def listing (s : List Byte) : Option (ℕ × List (List Byte)) :=
  if isdigit (s.headD 0) then
    let i := (number 0 s).1.toNat
    match (letters (number 0 s).2).2 with
    | none => none
    | some s => if i < SEGNO ∧ s.headD 0 = 0x3d then some (i, names s.length s.tail) else none
  else none

namespace Ld

/-- The segment gets the type of its name, if there is one. -/
def typed (s : Ld) (i : ℕ) (name : List Byte) : Ld :=
  if Dod.segment_type name ≠ 0 then
    { s with
      segtab := Function.update s.segtab i
        { s.segtab i with segtyp := newtyp (s.segtab i).segtyp (Dod.segment_type name) } }
  else s

/-- A symbol that becomes the name of segment `i`. -/
def naming (y : XSym) (i : ℕ) : XSym := { y with x_sy_sg := BitVec.ofNat 8 i, x_sy_fl := X_SY_SEG }

/-- The name of segment `i`, as it is entered. -/
def new_name (s : Ld) (i : ℕ) (name : List Byte) : XSym :=
  naming { s.symtab s.symlev with x_sy_name := name.take XNAMELN } i

/-- The symbol is for another segment. -/
def Taken (y : XSym) (i : ℕ) : Prop := y.x_sy_sg &&& 0x7f ≠ 127 ∧ (y.x_sy_sg &&& 0x7f).toNat ≠ i

end Ld

open Ld

/-- **What one name of a descriptor does**, by what is found under it. -/
inductive NameStep (cc : Compiler) (s : Ld) (i : ℕ) (name : List Byte) : Verdict → Ld → Prop
  | full : NameStep cc s i name .errex s
  | conflict {k : ℕ} (hf : s.find cc .seghash name = .found k) (hk : Taken (s.symtab k) i) :
      NameStep cc s i name .illdesc s.err
  | again {k : ℕ} (hf : s.find cc .seghash name = .found k) (hk : ¬ Taken (s.symtab k) i) :
      NameStep cc s i name .accepted ((s.set_sym k (naming (s.symtab k) i)).typed i name)
  | new {slot : ℕ} (hf : s.find cc .seghash name = .vacant slot) :
      NameStep cc s i name .accepted
        ((s.enter_at .seghash slot (s.new_name i name)).typed i name)

theorem assign_taken {d : Dod} {i j : ℕ} {name : List Byte} (h : Taken (d.ld.symtab j) i) :
    d.assign i name j = (.illdesc, { d with ld := d.ld.err }) := if_pos h

theorem assign_ld {d : Dod} {i j : ℕ} {name : List Byte} (h : ¬ Taken (d.ld.symtab j) i) :
    (d.assign i name j).1 = .accepted ∧
      (d.assign i name j).2.ld = (d.ld.set_sym j (naming (d.ld.symtab j) i)).typed i name := by
  have heq : d.assign i name j = _ := if_neg h
  rw [heq, typed]
  refine ⟨rfl, ?_⟩
  dsimp only
  split_ifs
  · rfl
  · rfl

theorem dodname_step (cc : Compiler) (i : ℕ) (name : List Byte) (d : Dod) :
    NameStep cc d.ld i name (d.dodname cc i name).1 (d.dodname cc i name).2.ld := by
  unfold Dod.dodname Ld.segname
  dsimp only
  have hld : ∀ l, (d.touch l).ld = d.ld := fun _ => rfl
  rw [hld]
  rcases hl : d.ld.look cc .seghash name with _ | ⟨s, _ | k⟩
  · exact .full
  · obtain ⟨slot, rfl, hf⟩ := look_none hl
    dsimp only
    rcases hi : ({ d.ld with hpos := some (.seghash, slot) } : Ld).install name with _ | ⟨u, n⟩
    · exact .full
    · -- a new symbol is for no segment
      have hnew : ¬ Taken ((u.set_hpos n).symtab n) i ∧
          (u.set_hpos n).set_sym n (naming ((u.set_hpos n).symtab n) i) =
            d.ld.enter_at .seghash slot (d.ld.new_name i name) := by
        unfold Ld.install at hi
        dsimp only at hi
        split_ifs at hi
        obtain ⟨rfl, rfl⟩ := Prod.mk.inj (Option.some.inj hi)
        dsimp only [set_hpos]
        rw [Function.update_self, set_sym]
        dsimp only
        rw [Function.update_idem]
        have hfree : (255 : Byte) &&& 0x7f = 127 := by decide
        exact ⟨fun h => h.1 hfree, rfl⟩
      obtain ⟨hok, hnext⟩ := @assign_ld { d.touch ((List.range (max name.length XNAMELN)).map .idbuf) with
        ld := u.set_hpos n } i n name hnew.1
      dsimp only [Option.map_some]
      rw [hok, hnext]
      dsimp only
      rw [hnew.2]
      exact .new hf
  · obtain ⟨rfl, hf⟩ := look_some hl
    dsimp only
    by_cases hk : Taken (d.ld.symtab k) i
    · rw [assign_taken (d := { d.touch _ with ld := d.ld }) hk]
      exact .conflict hf hk
    · obtain ⟨hok, hnext⟩ := @assign_ld { d.touch ((List.range (max name.length XNAMELN)).map .idbuf) with
        ld := d.ld } i k name hk
      rw [hok, hnext]
      exact .again hf hk

/-! ## 5. What descriptors keep -/

/-- What is kept by the steps a descriptor is made of. -/
structure Descriptive (cc : Compiler) (I : Ld → Prop) : Prop where
  err : ∀ s, I s → I s.err
  set : ∀ (d : Dod) (i : ℕ) (typ : Byte), i ≤ SEGNO → I d.ld → I (d.dodset i typ).ld
  name : ∀ s i name v t, NameStep cc s i name v t → I s → I t

namespace Descriptive

variable {cc : Compiler} {I : Ld → Prop} {d : Dod} {i : ℕ}

theorem dodsets (h : Descriptive cc I) {is : List ℕ} (his : ∀ i ∈ is, i ≤ SEGNO) (typ : Byte)
    (hd : I d.ld) : I (Linker.dodsets typ is d).ld := by
  induction is generalizing d with
  | nil => exact hd
  | cons i is ih =>
    have hhead := h.set d i typ (his i List.mem_cons_self) hd
    exact ih (fun j hj => his j (List.mem_cons_of_mem i hj)) hhead

theorem dodtype (h : Descriptive cc I) (s : List Byte) (hd : I d.ld) : I (d.dodtype s).2.ld := by
  unfold Dod.dodtype
  dsimp only
  split_ifs
  · exact hd
  · exact hd
  · rw [dodlist_eq]
    exact h.dodsets (d := d.touch _) (fun i hi => of_mem_spans hi) _ hd

theorem dodtypes (h : Descriptive cc I) (hi : i ≤ SEGNO) (s : List Byte) (hd : I d.ld) :
    I (d.dodtypes i s).1.ld := by
  rw [dodtypes_eq]
  generalize (letters s).1 = typs
  induction typs generalizing d with
  | nil => exact hd
  | cons typ typs ih => exact ih (h.set d i typ hi hd)

theorem dodnames (h : Descriptive cc I) (i fuel : ℕ) (s : List Byte) (hd : I d.ld) :
    I (Dod.dodnames cc i fuel s d).2.ld := by
  induction fuel generalizing s d with
  | zero => exact hd
  | succ fuel ih =>
    rw [Dod.dodnames]
    have hname := h.name _ _ _ _ _ (dodname_step cc i (s.takeWhile fun c => c ≠ 0x2c) d) hd
    rcases hn : d.dodname cc i (s.takeWhile fun c => c ≠ 0x2c) with ⟨_ | _ | _, d'⟩ <;>
      rw [hn] at hname
    · dsimp only
      split_ifs
      · exact ih (d := d') _ hname
      · exact hname
    · exact hname
    · exact hname

theorem dodsegment (h : Descriptive cc I) (s : List Byte) (hd : I d.ld) :
    I (d.dodsegment cc s).2.ld := by
  unfold Dod.dodsegment
  dsimp only
  split_ifs with hi
  · exact hd
  rw [slt_segno_iff, not_le] at hi
  have htypes := h.dodtypes (Nat.le_of_lt hi) (number 0 s).2 hd
  rcases hn : d.dodtypes (number 0 s).1.toNat (number 0 s).2 with ⟨d', _ | s'⟩ <;> rw [hn] at htypes
  · exact htypes
  · dsimp only
    have hset := h.set d' _ 0 (Nat.le_of_lt hi) htypes
    split_ifs
    · exact hset
    · exact hset
    · exact h.dodnames _ _ _ hset

theorem dodline (h : Descriptive cc I) (s : List Byte) (hd : I d.ld) : I (d.dodline cc s).2.ld := by
  have hline : I (if isalpha (s.headD 0) = true then d.dodtype s
      else if (!isdigit (s.headD 0)) = true then (.illdesc, d)
      else d.dodsegment cc s).2.ld := by
    split_ifs
    · exact h.dodtype s hd
    · exact hd
    · exact h.dodsegment s hd
  unfold Dod.dodline
  dsimp only
  split_ifs at hline ⊢
  · exact h.err _ hline
  · exact hline
  · exact h.err _ hline
  · exact hline
  · exact h.err _ hline
  · exact hline

theorem dodfile (h : Descriptive cc I) (file : List Byte) (hd : I d.ld) :
    I (d.dodfile cc file).2.ld := by
  unfold Dod.dodfile
  generalize ([] : List Byte) = line
  induction file generalizing d line with
  | nil => exact hd
  | cons c file ih =>
    rw [Dod.dodfile_loop]
    split_ifs
    · exact ih hd line
    · dsimp only
      have hline := h.dodline (d := d.touch [.line line.length]) (line.takeWhile fun c => c ≠ 0) hd
      split_ifs
      · exact hline
      · exact ih hline []
    · exact ih (d := d.touch [.line line.length]) hd _

end Descriptive

end Cpm8000.Linker
