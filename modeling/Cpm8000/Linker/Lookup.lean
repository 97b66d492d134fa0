/-
# The hash tables, call by call

A name is looked up, and if it is not there it is entered through `hpos`, where the search for it ended;
`hpos` is one variable for both tables, and stays as it is until a search ends at another empty slot. `Tally`
keeps the list of what has been entered beside the linker's variables.

* `Tally.run_right`: as long as a symbol is entered only where a search for its name would end, each table
  leads to what has been entered in it, under its name, and to nothing else.
* `lookup_correct`: so for every sequence of such calls, and for every run of the first pass over modules
  whose symbols are of the four kinds.
* `stale_hpos`: a symbol of another kind takes the slot of the last one that was entered.
-/
import Cpm8000.Linker.Ready

namespace Cpm8000.Linker

open Sys Ld

/-! ## 1. Calls -/

/-- What is done with the tables. A symbol that is entered may be written beyond its end, as `install` does
with a long name: the symbols behind it become `rest`. -/
inductive Call
  | lookup (h : Htab) (name : List Byte)
  | enter (y : XSym) (rest : ℕ → XSym)
  | discard

/-- The symbols from `symlev` on are others. -/
def Ld.behind (s : Ld) (rest : ℕ → XSym) : Ld :=
  { s with symtab := fun j => if j < s.symlev then s.symtab j else rest j }

/-- The linker's variables, and what has been entered: table, name and index. -/
structure Tally where
  ld : Ld
  entered : List (Htab × List Byte × ℕ)

namespace Tally

variable (cc : Compiler) (r : Tally)

/-- What is entered through `hpos`. -/
def entry (y : XSym) : List (Htab × List Byte × ℕ) :=
  match r.ld.hpos with
  | none => []
  | some (h, _) => [(h, cname y.x_sy_name, r.ld.symlev)]

def call : Call → Option Tally
  | .lookup h name => (r.ld.look cc h name).map fun x => ⟨x.1, r.entered⟩
  | .enter y rest => some ⟨(r.ld.enter y).behind rest, r.entered ++ r.entry y⟩
  | .discard => some ⟨r.ld.discard, r.entered⟩

def run (l : List Call) : Option Tally := l.foldlM (fun r c => r.call cc c) r

/-- **A symbol is entered where a search for its name ends**, or in no table. -/
def Apt : Call → Prop
  | .enter y _ => ∀ h slot, r.ld.hpos = some (h, slot) → r.ld.find cc h y.x_sy_name = .vacant slot
  | _ => True

/-- Every call of a sequence is apt. -/
def RunApt : List Call → Tally → Prop
  | [], _ => True
  | c :: l, r => r.Apt cc c ∧ ∀ t, r.call cc c = some t → RunApt l t

/-- **The tables lead to what has been entered.** -/
structure Right : Prop where
  pos : 1 ≤ r.ld.symlev
  table : ∀ h, OpenTable h.size (hash cc h.size) (key r.ld.symtab) (r.ld.htab h)
  below : ∀ h slot j, r.ld.htab h slot = some j → j < r.ld.symlev
  entries : ∀ h name j, (h, name, j) ∈ r.entered ↔
    (∃ slot, r.ld.htab h slot = some j) ∧ key r.ld.symtab j = name

variable {cc r} {t : Tally} {h : Htab} {name : List Byte} {j : ℕ}

/-! ## 2. Searches -/

/-- **A search finds exactly what has been entered** under the name. -/
theorem Right.find_iff (hr : r.Right cc) :
    r.ld.find cc h name = .found j ↔ (h, cname name, j) ∈ r.entered := by
  rw [find, lookup_eq, (hr.table h).probe_found_iff, hr.entries]
  exact and_comm

/-- A search for a name that has not been entered ends at an empty slot, if there is one. -/
theorem find_vacant (cc : Compiler) {s : Ld} (name : List Byte) (hfree : ∃ slot < h.size, s.htab h slot = none)
    (hno : ∀ j, s.find cc h name ≠ .found j) :
    ∃ slot < h.size, s.find cc h name = .vacant slot ∧ s.htab h slot = none := by
  obtain ⟨slot, hlt, hslot⟩ := hfree
  cases hf : s.find cc h name with
  | found j => exact absurd hf (hno j)
  | full =>
    rw [find, lookup_eq] at hf
    exact absurd hf (probe_ne_full (mem_probeOrder _ hlt) hslot)
  | vacant i =>
    rw [find, lookup_eq] at hf
    obtain ⟨hi, pre, post, horder, -⟩ := of_probe_vacant hf
    have hmem : i ∈ probeOrder h.size (hash cc h.size (cname name)) := by
      rw [horder]
      exact List.mem_append_right _ List.mem_cons_self
    exact ⟨i, lt_of_mem_probeOrder hmem, rfl, hi⟩

/-! ## 3. Calls keep the tables right -/

theorem Right.of_same (hr : r.Right cc) (hpos : Option (Htab × ℕ)) :
    Right cc ⟨{ r.ld with hpos := hpos }, r.entered⟩ := ⟨hr.pos, hr.table, hr.below, hr.entries⟩

/-- A new symbol does not change the keys of the old ones, whatever is behind it. -/
theorem key_enter (s : Ld) (y : XSym) (rest : ℕ → XSym) {j : ℕ} (hj : j < s.symlev) :
    key ((s.enter y).behind rest).symtab j = key s.symtab j := by
  have hlt : j < (s.enter y).symlev := by
    rw [enter_symlev]
    omega
  rw [key, key, behind]
  dsimp only
  rw [if_pos hlt, enter_symtab, Function.update_of_ne (Nat.ne_of_lt hj)]

theorem key_entered (s : Ld) (y : XSym) (rest : ℕ → XSym) :
    key ((s.enter y).behind rest).symtab s.symlev = cname y.x_sy_name := by
  have hlt : s.symlev < (s.enter y).symlev := by
    rw [enter_symlev]
    omega
  rw [key, behind]
  dsimp only
  rw [if_pos hlt, enter_symtab, Function.update_self]

/-- A symbol that is entered in no table. -/
theorem Right.enter_none (hr : r.Right cc) (hp : r.ld.hpos = none) (y : XSym) (rest : ℕ → XSym) :
    Right cc ⟨(r.ld.enter y).behind rest, r.entered⟩ := by
  have hhtab : ((r.ld.enter y).behind rest).htab = r.ld.htab := by
    unfold behind Ld.enter set_hpos
    rw [hp]
  have hlev : ((r.ld.enter y).behind rest).symlev = r.ld.symlev + 1 := enter_symlev r.ld y
  refine ⟨?_, fun h => ?_, fun h slot j hj => ?_, fun h name j => ?_⟩
  · dsimp only
    omega
  · rw [hhtab]
    exact (hr.table h).congr fun slot j hj => key_enter r.ld y rest (hr.below h slot j hj)
  · rw [hhtab] at hj
    have hlt := hr.below h slot j hj
    dsimp only
    omega
  · rw [hr.entries, hhtab]
    refine and_congr_right fun ⟨slot, hslot⟩ => ?_
    rw [key_enter r.ld y rest (hr.below h slot j hslot)]

/-- **A symbol that is entered where a search for its name ends.** -/
theorem Right.enter_at (hr : r.Right cc) {slot : ℕ} (hp : r.ld.hpos = some (h, slot)) {y : XSym}
    (hf : r.ld.find cc h y.x_sy_name = .vacant slot) (rest : ℕ → XSym) :
    Right cc ⟨(r.ld.enter y).behind rest, r.entered ++ [(h, cname y.x_sy_name, r.ld.symlev)]⟩ := by
  have hhtab : ((r.ld.enter y).behind rest).htab =
      Function.update r.ld.htab h (Function.update (r.ld.htab h) slot (some r.ld.symlev)) := by
    unfold behind Ld.enter set_hpos
    rw [hp]
  have hlev : ((r.ld.enter y).behind rest).symlev = r.ld.symlev + 1 := enter_symlev r.ld y
  have hnew := key_entered r.ld y rest
  have hkey : ∀ h slot j, r.ld.htab h slot = some j →
      key ((r.ld.enter y).behind rest).symtab j = key r.ld.symtab j := fun h slot j hj =>
    key_enter r.ld y rest (hr.below h slot j hj)
  rw [find, lookup_eq] at hf
  have hempty := (of_probe_vacant hf).1
  generalize (r.ld.enter y).behind rest = s at hhtab hlev hnew hkey ⊢
  have hold : ∀ h', OpenTable h'.size (hash cc h'.size) (key s.symtab) (r.ld.htab h') := fun h' =>
    (hr.table h').congr (hkey h')
  -- what is in a table afterwards
  have hin : ∀ h' j, (∃ i, s.htab h' i = some j) ↔
      (∃ i, r.ld.htab h' i = some j) ∨ h' = h ∧ j = r.ld.symlev := by
    intro h' j
    rw [hhtab]
    by_cases hh : h' = h
    · rw [hh, Function.update_self]
      constructor
      · rintro ⟨i, hi⟩
        by_cases his : i = slot
        · rw [his, Function.update_self] at hi
          exact .inr ⟨rfl, (Option.some.inj hi).symm⟩
        · rw [Function.update_of_ne his] at hi
          exact .inl ⟨i, hi⟩
      · rintro (⟨i, hi⟩ | ⟨-, rfl⟩)
        · have his : i ≠ slot := by
            rintro rfl
            rw [hempty] at hi
            cases hi
          exact ⟨i, by rw [Function.update_of_ne his, hi]⟩
        · exact ⟨slot, by rw [Function.update_self]⟩
    · rw [Function.update_of_ne hh]
      exact ⟨.inl, fun hor => hor.resolve_right fun hand => hh hand.1⟩
  refine ⟨?_, fun h' => ?_, fun h' i j hj => ?_, fun h' name j => ?_⟩
  · dsimp only
    omega
  · dsimp only
    rw [hhtab]
    by_cases hh : h' = h
    · rw [hh, Function.update_self]
      refine (hold h).insert ?_
      rw [hnew, ← hf]
      exact probe_congr (fun i j hj => by rw [hkey h i j hj]) _
    · rw [Function.update_of_ne hh]
      exact hold h'
  · dsimp only at hj ⊢
    rcases (hin h' j).mp ⟨i, hj⟩ with ⟨i', hi'⟩ | ⟨-, rfl⟩
    · have hlt := hr.below h' i' j hi'
      omega
    · omega
  · dsimp only
    rw [List.mem_append, List.mem_singleton, hr.entries, hin]
    constructor
    · rintro (⟨⟨i, hi⟩, hname⟩ | heq)
      · exact ⟨.inl ⟨i, hi⟩, (hkey h' i j hi).trans hname⟩
      · obtain ⟨rfl, hrest⟩ := Prod.mk.inj heq
        obtain ⟨rfl, rfl⟩ := Prod.mk.inj hrest
        exact ⟨.inr ⟨rfl, rfl⟩, hnew⟩
    · rintro ⟨⟨i, hi⟩ | ⟨rfl, rfl⟩, hname⟩
      · exact .inl ⟨⟨i, hi⟩, (hkey h' i j hi).symm.trans hname⟩
      · exact .inr (by rw [← hname, hnew])

/-- **One call.** -/
theorem Right.call {c : Call} (hr : r.Right cc) (ha : r.Apt cc c) (hc : r.call cc c = some t) :
    t.Right cc ∧ ∀ e ∈ r.entered, e ∈ t.entered := by
  cases c with
  | lookup h name =>
    obtain ⟨⟨u, o⟩, hu, rfl⟩ := Option.map_eq_some_iff.mp hc
    cases o with
    | none =>
      obtain ⟨slot, rfl, -⟩ := look_none hu
      exact ⟨hr.of_same _, fun e he => he⟩
    | some j =>
      obtain ⟨rfl, -⟩ := look_some hu
      exact ⟨hr, fun e he => he⟩
  | enter y rest =>
    obtain rfl := Option.some.inj hc
    refine ⟨?_, fun e he => List.mem_append_left _ he⟩
    rcases hp : r.ld.hpos with _ | ⟨h, slot⟩
    · have hnone : r.entry y = [] := by rw [entry, hp]
      rw [hnone, List.append_nil]
      exact hr.enter_none hp y rest
    · have hone : r.entry y = [(h, cname y.x_sy_name, r.ld.symlev)] := by rw [entry, hp]
      rw [hone]
      exact hr.enter_at hp (ha h slot hp) rest
  | discard =>
    obtain rfl := Option.some.inj hc
    exact ⟨hr.of_same _, fun e he => he⟩

/-- **A sequence of calls.** -/
theorem Right.run {l : List Call} (hr : r.Right cc) (ha : RunApt cc l r) (hl : r.run cc l = some t) :
    t.Right cc ∧ ∀ e ∈ r.entered, e ∈ t.entered := by
  induction l generalizing r with
  | nil =>
    obtain rfl := Option.some.inj hl
    exact ⟨hr, fun e he => he⟩
  | cons c l ih =>
    unfold Tally.run at hl
    rw [List.foldlM_cons] at hl
    obtain ⟨u, hu, hl⟩ := Option.bind_eq_some_iff.mp hl
    obtain ⟨hright, hgrows⟩ := hr.call ha.1 hu
    obtain ⟨hend, hmore⟩ := ih hright (ha.2 u hu) hl
    exact ⟨hend, fun e he => hmore e (hgrows e he)⟩

theorem initial_right (cc : Compiler) (stray : Stray) : Right cc ⟨initial stray, []⟩ := by
  refine ⟨le_refl _, fun h => .empty, fun h slot j hj => ?_, fun h name j => ?_⟩
  · cases hj
  · refine iff_of_false List.not_mem_nil ?_
    rintro ⟨⟨slot, hslot⟩, -⟩
    cases hslot

/-! ## 4. Every sequence -/

variable (cc r h name) in
/-- **A name in a table**: a search finds the index that was entered for it; if there is none, the search
leaves a place in `hpos` where the name may be entered, and then every later search finds it. -/
structure Correct : Prop where
  found : ∀ j, r.ld.find cc h name = .found j ↔ (h, cname name, j) ∈ r.entered
  missing : (∀ j, (h, cname name, j) ∉ r.entered) → ∃ slot < h.size, r.ld.htab h slot = none ∧
    ∃ t, r.call cc (.lookup h name) = some t ∧ t.ld.hpos = some (h, slot) ∧
      ∀ y rest, cname y.x_sy_name = cname name → t.Apt cc (.enter y rest) ∧
        ∀ l u, RunApt cc l ⟨(t.ld.enter y).behind rest, t.entered ++ t.entry y⟩ →
          run cc ⟨(t.ld.enter y).behind rest, t.entered ++ t.entry y⟩ l = some u →
            u.ld.find cc h name = .found r.ld.symlev

theorem Right.correct (hr : r.Right cc) (hfree : ∃ slot < h.size, r.ld.htab h slot = none) :
    r.Correct cc h name := by
  refine ⟨fun j => hr.find_iff, fun hno => ?_⟩
  obtain ⟨slot, hlt, hf, hempty⟩ := find_vacant cc name hfree fun j hj =>
    hno j (hr.find_iff.mp hj)
  have hlook : r.call cc (.lookup h name) = some ⟨{ r.ld with hpos := some (h, slot) }, r.entered⟩ := by
    rw [find] at hf
    rw [Tally.call, look, hf]
    rfl
  refine ⟨slot, hlt, hempty, _, hlook, rfl, fun y rest hy => ?_⟩
  have hfy : r.ld.find cc h y.x_sy_name = .vacant slot := by
    rw [← hf, find, find, lookup_eq, lookup_eq, hy]
  have hapt : Apt cc ⟨{ r.ld with hpos := some (h, slot) }, r.entered⟩ (.enter y rest) := by
    intro h' slot' hp
    obtain ⟨rfl, rfl⟩ := Prod.mk.inj (Option.some.inj hp)
    exact hfy
  refine ⟨hapt, fun l u hl hu => ?_⟩
  obtain ⟨hnext, -⟩ := Right.call (hr.of_same (some (h, slot))) hapt rfl
  obtain ⟨hend, hgrows⟩ := hnext.run hl hu
  refine hend.find_iff.mpr (hgrows _ (List.mem_append_right _ ?_))
  rw [← hy]
  exact List.mem_singleton_self _

end Tally

/-- A name in a table, in the linker's own words: the symbols of the table's kinds are what has been
entered. -/
structure Ld.Correct (cc : Compiler) (s : Ld) (h : Htab) (name : List Byte) : Prop where
  found : ∀ j, s.find cc h name = .found j ↔
    s.Has j ∧ h.Holds (s.symtab j).x_sy_fl ∧ key s.symtab j = cname name
  missing : (∀ j, s.Has j → h.Holds (s.symtab j).x_sy_fl → key s.symtab j ≠ cname name) →
    ∃ slot < h.size, s.htab h slot = none ∧
      s.look cc h name = some ({ s with hpos := some (h, slot) }, none) ∧
        ∀ y : XSym, cname y.x_sy_name = cname name → h.Holds y.x_sy_fl →
          (s.enter_at h slot y).find cc h name = .found s.symlev

theorem Ld.Named.correct {cc : Compiler} {s : Ld} {h : Htab} {name : List Byte} (hn : Named cc s)
    (hfree : ∃ slot < h.size, s.htab h slot = none) : s.Correct cc h name := by
  refine ⟨fun j => hn.find_iff, fun hno => ?_⟩
  obtain ⟨slot, hlt, hf, hempty⟩ := Tally.find_vacant cc name hfree fun j hj =>
    let hfound := hn.find_iff.mp hj
    hno j hfound.1 hfound.2.1 hfound.2.2
  refine ⟨slot, hlt, hempty, ?_, fun y hy hkind => ?_⟩
  · rw [find] at hf
    rw [look, hf]
  · have hafter := hn.enter_vacant hf hy hkind
    refine hafter.find_iff.mpr ⟨⟨hn.pos, Nat.lt_succ_self _⟩, ?_⟩
    have hat : (s.enter_at h slot y).symtab s.symlev = y := Function.update_self ..
    constructor
    · rw [hat]
      exact hkind
    · rw [key, hat, hy]

/-- **The tables are right.**  After every sequence of searches and apt entries, and after the first pass
over modules whose symbols are of the four kinds, a search in a table with an empty slot finds exactly what
has been entered under the name. -/
theorem lookup_correct (cc : Compiler) (stray : Stray) :
    (∀ l r, Tally.RunApt cc l ⟨initial stray, []⟩ → Tally.run cc ⟨initial stray, []⟩ l = some r →
      ∀ h name, (∃ slot < h.size, r.ld.htab h slot = none) → r.Correct cc h name) ∧
    ∀ flags files s t l, pass0 cc stray flags = some s → s.p1files cc files = some t → Loads cc s l t →
      (∀ x ∈ l, ∀ y ∈ x.2.x_sym, y.Known) →
        ∀ h name, (∃ slot < h.size, t.htab h slot = none) → t.Correct cc h name := by
  constructor
  · intro l r ha hl h name hfree
    exact ((Tally.initial_right cc stray).run ha hl).1.correct hfree
  · intro flags files s t l h0 _ hl hknown h name hfree
    exact ((pass0_ready h0).named.loads hl hknown).correct hfree

/-- A module with some symbols. -/
def with_symbols (ys : List XSym) : XFile := ⟨X_NU_MAGIC, [], [], [], ys⟩

/-- Two names, looked up and entered, and a module that has them. -/
theorem lookup_correct_two : (∃ r, Tally.run .unsigned ⟨initial .zero, []⟩
      [.lookup .symhash [0x61], .enter ⟨0, X_SY_UNX, 0, [0x61]⟩ (initial .zero).symtab,
        .lookup .symhash [0x62]] = some r ∧ r.ld.find .unsigned .symhash [0x61] = .found 1 ∧
        r.Correct .unsigned .symhash [0x62]) ∧
    ∃ t, (initial .zero).p1files .unsigned [.object (with_symbols [⟨0, X_SY_GLB, 0, [0x61]⟩])] = some t ∧
      t.Correct .unsigned .symhash [0x61] := by
  obtain ⟨hcalls, hfiles⟩ := lookup_correct .unsigned .zero
  constructor
  · have hall := hcalls [.lookup .symhash [0x61], .enter ⟨0, X_SY_UNX, 0, [0x61]⟩ (initial .zero).symtab,
      .lookup .symhash [0x62]] _ ⟨trivial, fun t ht => ?_⟩ rfl .symhash
    · have hlt : 0 < Htab.symhash.size := by decide
      refine ⟨_, rfl, ?_, hall [0x62] ⟨0, hlt, rfl⟩⟩
      exact ((hall [0x61] ⟨0, hlt, rfl⟩).found 1).mpr (by decide)
    · obtain rfl := Option.some.inj ht
      refine ⟨fun h slot hp => ?_, fun t ht => ?_⟩
      · obtain ⟨rfl, rfl⟩ := Prod.mk.inj (Option.some.inj hp)
        rfl
      · obtain rfl := Option.some.inj ht
        exact ⟨trivial, fun _ _ => trivial⟩
  · have hone : ∃ t, (initial .zero).opened.p1module .unsigned (with_symbols [⟨0, X_SY_GLB, 0, [0x61]⟩]) =
        some t ∧ t.htab .symhash 0 = none := ⟨_, rfl, rfl⟩
    obtain ⟨t, ht, hempty⟩ := hone
    have hrun := (p1files_single rfl rfl rfl).trans ht
    refine ⟨t, hrun, hfiles [] _ _ t _ rfl hrun (loads_single ht) ?_ .symhash [0x61] ⟨0, by decide, hempty⟩⟩
    intro x hx y hy
    obtain rfl := List.mem_singleton.mp hx
    obtain rfl := List.mem_singleton.mp hy
    exact .inr (.inr (.inl rfl))

/-- **A symbol of a fifth kind** is entered over the one before it, which no search finds any more. -/
theorem stale_hpos : ¬ ∀ (cc : Compiler) (stray : Stray) (flags : List Flag) (files : List Input)
    (s t : Ld), pass0 cc stray flags = some s → s.p1files cc files = some t →
      ∀ h name, (∃ slot < h.size, t.htab h slot = none) → t.Correct cc h name := by
  intro hall
  have hcorrect := hall .unsigned .zero []
    [.object (with_symbols [⟨0, X_SY_GLB, 0, [0x61]⟩, ⟨0, 5, 0, [0x62]⟩])] _ _ rfl rfl .symhash [0x61]
    ⟨0, by decide, rfl⟩
  have hfound := (hcorrect.found 1).mpr ⟨⟨by decide, by decide⟩, .inr rfl, rfl⟩
  cases hfound

end Cpm8000.Linker
