/-
# What the flags leave

After the flags the tables are right, no symbol has a value, and the preassigned segments are in the
table or just behind it: `pass0_ready`. The number 128 gets through the check of a descriptor that
begins with a type.
-/
import Cpm8000.Linker.Flags
import Cpm8000.Linker.Names
import Cpm8000.Linker.Reading

namespace Cpm8000.Linker

open Sys Ld

/-- **A state the first pass can begin with.** -/
structure Ready (cc : Compiler) (s : Ld) : Prop where
  counted : Counted s
  named : Named cc s
  unsized : ∀ j, (s.symtab j).x_sy_val = 0
  prealloc : s.Prealloc

variable {cc : Compiler} {s t : Ld} {d : Dod} {i k : ℕ} {name : List Byte}

namespace Ready

theorem initial (stray : Stray) : Ready cc (Ld.initial stray) := by
  refine ⟨⟨le_refl _, ?_, rfl⟩, ⟨le_refl _, ?_, ?_, ?_⟩, fun _ => rfl, List.forall_mem_nil _⟩
  · intro h slot j hj
    cases hj
  · intro h
    exact .empty
  · intro h slot j hj
    cases hj
  · intro h j hhas _
    exact absurd hhas.2 (Nat.not_lt.mpr hhas.1)

/-- What leaves the symbols and the preassigned segments alone. -/
theorem of_same (hr : Ready cc s) (hsymtab : t.symtab = s.symtab) (hsymlev : t.symlev = s.symlev)
    (hhtab : t.htab = s.htab) (hudefcnt : t.udefcnt = s.udefcnt) (hprealloc : t.Prealloc) :
    Ready cc t := by
  refine ⟨⟨?_, ?_, ?_⟩, hr.named.of_same hsymtab hsymlev hhtab, ?_, hprealloc⟩
  · rw [hsymlev]
    exact hr.counted.pos
  · rw [hsymlev, hhtab]
    exact hr.counted.range
  · rw [hudefcnt, hr.counted.count, unx, unx, hsymlev, hsymtab]
  · rw [hsymtab]
    exact hr.unsized

theorem err (hr : Ready cc s) : Ready cc s.err := hr.of_same rfl rfl rfl rfl hr.prealloc

/-! ## 1. Descriptors -/

theorem merge (hr : Ready cc d.ld) (i : ℕ) (typ : Byte) : Ready cc (d.merge i typ).ld :=
  hr.of_same rfl rfl rfl rfl hr.prealloc

theorem dodset (hr : Ready cc d.ld) (hi : i ≤ SEGNO) (typ : Byte) : Ready cc (d.dodset i typ).ld := by
  have hset : ∀ b : Bool, Ready cc (if b = true then d.touch [.segtab i] else
      { ld := { d.ld with
          prelist := d.ld.prelist ++ [i]
          segtab := Function.update d.ld.segtab i { d.ld.segtab i with segalloc := true } }
        log := d.log ++ [Access.segtab i] ++ [.prelist d.ld.prelist.length] } : Dod).ld := by
    intro b
    split_ifs
    · exact hr
    · refine hr.of_same rfl rfl rfl rfl ?_
      intro j hj
      rcases List.mem_append.mp hj with hj | hj
      · exact hr.prealloc j hj
      · rw [List.mem_singleton] at hj
        rw [hj]
        exact hi
  unfold Dod.dodset
  dsimp only
  by_cases htyp : typ ≠ 0
  · rw [if_pos htyp]
    exact (hset _).merge i typ
  · rw [if_neg htyp]
    exact hset _

theorem typed (hr : Ready cc s) (i : ℕ) (name : List Byte) : Ready cc (s.typed i name) := by
  unfold Ld.typed
  split_ifs
  · exact hr.of_same rfl rfl rfl rfl hr.prealloc
  · exact hr

/-- A symbol that is entered where the search for its name ended. -/
theorem enter (hr : Ready cc s) {h : Htab} {slot : ℕ} {y : XSym} {n : ℤ}
    (hf : s.find cc h name = .vacant slot) (hname : cname y.x_sy_name = cname name)
    (hval : y.x_sy_val = 0) (hy : h.Holds y.x_sy_fl)
    (hn : n = s.udefcnt + if y.x_sy_fl = X_SY_UNX then 1 else 0) :
    Ready cc ((s.set_udefcnt n).enter_at h slot y) := by
  refine ⟨hr.counted.enter (some (h, slot)) hn, ?_, ?_, hr.prealloc⟩
  · have hsame : Named cc (s.set_udefcnt n) := hr.named.of_same rfl rfl rfl
    exact hsame.enter_vacant hf hname hy
  · intro j
    change (Function.update s.symtab s.symlev y j).x_sy_val = 0
    by_cases hj : j = s.symlev
    · rw [hj, Function.update_self]
      exact hval
    · rw [Function.update_of_ne hj]
      exact hr.unsized j

/-- What is left of a name that is too long is its beginning. -/
theorem cname_take (name : List Byte) : cname (name.take XNAMELN) = cname name := by
  rw [cname, List.take_take, Nat.min_self]
  rfl

/-- The name of a segment is no undefined symbol. -/
theorem name_step {v : Verdict} (hr : Ready cc s) (h : NameStep cc s i name v t) : Ready cc t := by
  have hseg : X_SY_SEG ≠ X_SY_UNX := by decide
  cases h with
  | full => exact hr
  | conflict _ _ => exact hr.err
  | @again k hf hk =>
    refine Ready.typed ?_ i name
    obtain ⟨hhas, hholds, hkey⟩ := hr.named.find_iff.mp hf
    have hkind : (s.symtab k).x_sy_fl = X_SY_SEG := hholds
    refine ⟨?_, ?_, ?_, hr.prealloc⟩
    · refine hr.counted.set_sym (n := s.udefcnt) hhas ?_
      have hafter : ¬ (naming (s.symtab k) i).x_sy_fl = X_SY_UNX := hseg
      rw [hkind, if_neg hseg, if_neg hafter]
    · refine hr.named.set_sym rfl fun h => ?_
      rw [hkind]
      rfl
    · intro j
      change (Function.update s.symtab k (naming (s.symtab k) i) j).x_sy_val = 0
      by_cases hj : j = k
      · rw [hj, Function.update_self]
        exact hr.unsized k
      · rw [Function.update_of_ne hj]
        exact hr.unsized j
  | new hf =>
    refine Ready.typed ?_ i name
    have hafter : ¬ (s.new_name i name).x_sy_fl = X_SY_UNX := hseg
    refine hr.enter (n := s.udefcnt) hf (cname_take name) (hr.unsized _) rfl ?_
    rw [if_neg hafter, add_zero]

theorem descriptive (cc : Compiler) : Descriptive cc (Ready cc) where
  err _ hr := hr.err
  set _ _ typ hi hr := hr.dodset hi typ
  name _ _ _ _ _ hs hr := hr.name_step hs

/-! ## 2. Flags -/

theorem flag (hr : Ready cc s) {f : Flag} (h : s.flag cc f = some t) : Ready cc t := by
  have hseg : ∀ u : Ld, u.symtab = s.symtab → u.symlev = s.symlev → u.htab = s.htab →
      u.udefcnt = s.udefcnt → u.prelist = s.prelist → Ready cc u := by
    intro u hsymtab hsymlev hhtab hudefcnt hprelist
    refine hr.of_same hsymtab hsymlev hhtab hudefcnt ?_
    rw [Prealloc, hprelist]
    exact hr.prealloc
  cases f with
  | d descriptor =>
    rw [Ld.flag] at h
    split_ifs at h
    obtain rfl := Option.some.inj h
    exact (descriptive cc).dodline (d := ⟨s, []⟩) descriptor hr
  | d_file file =>
    cases file with
    | none =>
      obtain rfl := Option.some.inj h
      exact hr.err
    | some file =>
      rw [Ld.flag] at h
      split_ifs at h
      obtain rfl := Option.some.inj h
      exact (descriptive cc).dodfile (d := ⟨s, []⟩) file hr
  | i =>
    obtain rfl := Option.some.inj h
    exact hseg _ rfl rfl rfl rfl rfl
  | r =>
    obtain rfl := Option.some.inj h
    exact hseg _ rfl rfl rfl rfl rfl
  | t l =>
    obtain rfl := Option.some.inj h
    unfold setstack
    dsimp only
    split_ifs
    · exact hr.err
    · exact hseg _ rfl rfl rfl rfl rfl
    · exact hr.err
    · exact hseg _ rfl rfl rfl rfl rfl
  | s =>
    obtain rfl := Option.some.inj h
    exact hseg _ rfl rfl rfl rfl rfl
  | u name =>
    rw [Ld.flag] at h
    rcases hl : s.look cc .symhash name with _ | ⟨u, _ | k⟩ <;> rw [hl] at h
    · cases h
    · obtain ⟨slot, rfl, hf⟩ := look_none hl
      dsimp only at h
      obtain ⟨⟨v, n⟩, hi, hv⟩ := Option.bind_eq_some_iff.mp h
      obtain rfl := Option.some.inj hv
      unfold Ld.install at hi
      dsimp only at hi
      split_ifs at hi
      obtain ⟨rfl, rfl⟩ := Prod.mk.inj (Option.some.inj hi)
      exact hr.enter (n := s.udefcnt + 1) hf (cname_take name) (hr.unsized _) (.inl rfl) rfl
    · obtain ⟨rfl, -⟩ := look_some hl
      obtain rfl := Option.some.inj h
      exact hr
  | w =>
    obtain rfl := Option.some.inj h
    exact hseg _ rfl rfl rfl rfl rfl
  | x =>
    obtain rfl := Option.some.inj h
    exact hseg _ rfl rfl rfl rfl rfl
  | bad =>
    obtain rfl := Option.some.inj h
    exact hr.err

end Ready

/-- **The flags leave a state the first pass can begin with.** -/
theorem pass0_ready {stray : Stray} {flags : List Flag} (h : pass0 cc stray flags = some s) :
    Ready cc s := by
  refine foldlM_invariant (I := Ready cc) h (.initial stray) ?_
  intro f _ u u' hu hf
  exact hu.flag hf

end Cpm8000.Linker
