/-
# The symbols under their names

As long as the symbols of the modules are of the four kinds there are, each hash table leads to exactly
the symbols of its kinds, and to one for each name (`Named`): what a search finds is `Named.find_iff`.
A symbol of another kind is entered wherever the last search ended.
-/
import Cpm8000.Linker.Symbols

namespace Cpm8000.Linker

open Sys

/-- The kinds of symbols a table is for. -/
def Htab.Holds : Htab → Byte → Prop
  | seghash, fl => fl = X_SY_SEG
  | symhash, fl => fl = X_SY_UNX ∨ fl = X_SY_GLB

theorem Htab.Holds.eq {h h' : Htab} {fl : Byte} (hh : h.Holds fl) (hh' : h'.Holds fl) : h = h' := by
  have hkinds : X_SY_SEG ≠ X_SY_UNX ∧ X_SY_SEG ≠ X_SY_GLB := by decide
  have hapart : ¬ (seghash.Holds fl ∧ symhash.Holds fl) := by
    rintro ⟨hseg, hsym⟩
    have hfl : fl = X_SY_SEG := hseg
    rw [hfl] at hsym
    exact not_or.mpr hkinds hsym
  cases h with
  | seghash =>
    cases h' with
    | seghash => rfl
    | symhash => exact absurd ⟨hh, hh'⟩ hapart
  | symhash =>
    cases h' with
    | seghash => exact absurd ⟨hh', hh⟩ hapart
    | symhash => rfl

/-- A symbol of one of the four kinds. -/
def XSym.Known (y : XSym) : Prop :=
  y.x_sy_fl = X_SY_LOC ∨ y.x_sy_fl = X_SY_UNX ∨ y.x_sy_fl = X_SY_GLB ∨ y.x_sy_fl = X_SY_SEG

instance (y : XSym) : Decidable y.Known := inferInstanceAs (Decidable (_ ∨ _))

namespace Ld

variable {cc : Compiler} {s s' t : Ld} {h : Htab} {name : List Byte} {i j k slot : ℕ} {y z : XSym}

/-- A symbol of the table. -/
def Has (s : Ld) (j : ℕ) : Prop := 1 ≤ j ∧ j < s.symlev

instance (s : Ld) (j : ℕ) : Decidable (s.Has j) := inferInstanceAs (Decidable (_ ∧ _))

/-- **The tables are right.** -/
structure Named (cc : Compiler) (s : Ld) : Prop where
  pos : 1 ≤ s.symlev
  table : ∀ h, OpenTable h.size (hash cc h.size) (key s.symtab) (s.htab h)
  held : ∀ h slot j, s.htab h slot = some j → s.Has j ∧ h.Holds (s.symtab j).x_sy_fl
  entered : ∀ h j, s.Has j → h.Holds (s.symtab j).x_sy_fl → ∃ slot, s.htab h slot = some j

namespace Named

/-! ## 1. Searches -/

/-- **What a search finds.** -/
theorem find_iff (hn : Named cc s) : s.find cc h name = .found k ↔
    s.Has k ∧ h.Holds (s.symtab k).x_sy_fl ∧ key s.symtab k = cname name := by
  rw [find, lookup_eq, (hn.table h).probe_found_iff]
  constructor
  · rintro ⟨hkey, slot, hslot⟩
    obtain ⟨hhas, hholds⟩ := hn.held h slot k hslot
    exact ⟨hhas, hholds, hkey⟩
  · rintro ⟨hhas, hholds, hkey⟩
    exact ⟨hkey, hn.entered h k hhas hholds⟩

/-- What no search finds. -/
theorem ne_of_vacant (hn : Named cc s) (hf : s.find cc h name = .vacant slot) (hhas : s.Has j)
    (hholds : h.Holds (s.symtab j).x_sy_fl) : key s.symtab j ≠ cname name := by
  intro hkey
  rw [hn.find_iff.mpr ⟨hhas, hholds, hkey⟩] at hf
  cases hf

/-- A name has one symbol. -/
theorem unique (hn : Named cc s) (hj : s.Has j) (hk : s.Has k) (hjh : h.Holds (s.symtab j).x_sy_fl)
    (hkh : h.Holds (s.symtab k).x_sy_fl) (hkey : key s.symtab j = key s.symtab k) : j = k := by
  obtain ⟨slot, hslot⟩ := hn.entered h j hj hjh
  obtain ⟨slot', hslot'⟩ := hn.entered h k hk hkh
  exact (hn.table h).unique slot slot' j k hslot hslot' hkey

/-! ## 2. Steps -/

/-- What leaves the tables alone. -/
theorem of_same (hn : Named cc s) (hsymtab : t.symtab = s.symtab) (hsymlev : t.symlev = s.symlev)
    (hhtab : t.htab = s.htab) : Named cc t := by
  constructor
  · rw [hsymlev]
    exact hn.pos
  · rw [hsymtab, hhtab]
    exact hn.table
  · rw [hsymtab, hhtab]
    simp only [Has, hsymlev]
    exact hn.held
  · rw [hsymtab, hhtab]
    simp only [Has, hsymlev]
    exact hn.entered

theorem quiet (hn : Named cc s) (hq : Quiet s t) : Named cc t := by
  obtain ⟨_, _, _, _, _, _, _, rfl⟩ := hq
  exact hn.of_same rfl rfl rfl

/-- A new symbol does not change the old ones. -/
theorem update_of_has (hj : s.Has j) : Function.update s.symtab s.symlev z j = s.symtab j :=
  Function.update_of_ne (Nat.ne_of_lt hj.2) z s.symtab

theorem key_update (hj : s.Has j) : key (Function.update s.symtab s.symlev z) j = key s.symtab j := by
  rw [key, update_of_has hj]
  rfl

/-- A symbol of a kind there is no table for. -/
theorem enter_untabled (hn : Named cc s) (hz : ∀ h : Htab, ¬ h.Holds z.x_sy_fl) :
    Named cc (s.discard.enter z) := by
  constructor
  · exact Nat.le_add_left 1 _
  · intro h
    exact (hn.table h).congr fun slot j hslot => key_update (hn.held h slot j hslot).1
  · intro h slot j hslot
    obtain ⟨hhas, hholds⟩ := hn.held h slot j hslot
    refine ⟨⟨hhas.1, Nat.lt_succ_of_lt hhas.2⟩, ?_⟩
    change h.Holds (Function.update s.symtab s.symlev z j).x_sy_fl
    rw [update_of_has hhas]
    exact hholds
  · intro h j hhas hholds
    change h.Holds (Function.update s.symtab s.symlev z j).x_sy_fl at hholds
    by_cases hj : j = s.symlev
    · rw [hj, Function.update_self] at hholds
      exact absurd hholds (hz h)
    · have hhas' : s.Has j := ⟨hhas.1, lt_of_le_of_ne (Nat.le_of_lt_succ hhas.2) hj⟩
      rw [update_of_has hhas'] at hholds
      exact hn.entered h j hhas' hholds

/-- **A symbol that is entered where the search for its name ended.** -/
theorem enter_vacant (hn : Named cc s) (hf : s.find cc h name = .vacant slot)
    (hname : cname z.x_sy_name = cname name) (hz : h.Holds z.x_sy_fl) :
    Named cc (s.enter_at h slot z) := by
  have hkey : key (Function.update s.symtab s.symlev z) s.symlev = cname name := by
    rw [key, Function.update_self]
    exact hname
  have hcongr : ∀ h', OpenTable h'.size (hash cc h'.size) (key (Function.update s.symtab s.symlev z))
      (s.htab h') := by
    intro h'
    exact (hn.table h').congr fun slot j hslot => key_update (hn.held h' slot j hslot).1
  -- the search goes through the old symbols, whose keys are the same
  have hvacant : probe (s.htab h)
      (fun j => decide (key (Function.update s.symtab s.symlev z) j =
        key (Function.update s.symtab s.symlev z) s.symlev))
      (probeOrder h.size (hash cc h.size (key (Function.update s.symtab s.symlev z) s.symlev))) =
        .vacant slot := by
    rw [hkey, ← hf, find, lookup_eq]
    refine probe_congr (fun i j hj => ?_) _
    rw [key_update (hn.held h i j hj).1]
  have htab : (s.enter_at h slot z).htab =
      Function.update s.htab h (Function.update (s.htab h) slot (some s.symlev)) := rfl
  refine ⟨Nat.le_add_left 1 _, fun h' => ?_, fun h' slot' j hj => ?_, fun h' j hhas hholds => ?_⟩
  · rw [htab]
    by_cases hh : h' = h
    · rw [hh, Function.update_self]
      exact (hcongr h).insert hvacant
    · rw [Function.update_of_ne hh]
      exact hcongr h'
  · have hold : s.htab h' slot' = some j →
        (s.enter_at h slot z).Has j ∧ h'.Holds ((s.enter_at h slot z).symtab j).x_sy_fl := by
      intro hj
      obtain ⟨hhas, hholds⟩ := hn.held h' slot' j hj
      refine ⟨⟨hhas.1, Nat.lt_succ_of_lt hhas.2⟩, ?_⟩
      change h'.Holds (Function.update s.symtab s.symlev z j).x_sy_fl
      rw [update_of_has hhas]
      exact hholds
    rw [htab] at hj
    by_cases hh : h' = h
    · rw [hh, Function.update_self] at hj
      by_cases hs : slot' = slot
      · rw [hs, Function.update_self] at hj
        obtain rfl := Option.some.inj hj
        refine ⟨⟨hn.pos, Nat.lt_succ_self _⟩, ?_⟩
        change h'.Holds (Function.update s.symtab s.symlev z s.symlev).x_sy_fl
        rw [hh, Function.update_self]
        exact hz
      · rw [Function.update_of_ne hs] at hj
        exact hold (hh ▸ hj)
    · rw [Function.update_of_ne hh] at hj
      exact hold hj
  · change h'.Holds (Function.update s.symtab s.symlev z j).x_sy_fl at hholds
    rw [htab]
    by_cases hj : j = s.symlev
    · rw [hj, Function.update_self] at hholds
      refine ⟨slot, ?_⟩
      rw [hholds.eq hz, Function.update_self, Function.update_self, hj]
    · have hhas' : s.Has j := ⟨hhas.1, lt_of_le_of_ne (Nat.le_of_lt_succ hhas.2) hj⟩
      rw [update_of_has hhas'] at hholds
      obtain ⟨at_j, hat⟩ := hn.entered h' j hhas' hholds
      refine ⟨at_j, ?_⟩
      by_cases hh : h' = h
      · have hne : at_j ≠ slot := by
          rintro rfl
          rw [hh, (of_probe_vacant hf).1] at hat
          cases hat
        rw [hh, Function.update_self, Function.update_of_ne hne, ← hh]
        exact hat
      · rw [Function.update_of_ne hh]
        exact hat

/-- A symbol that takes the place of one with its name and of the same table. -/
theorem set_sym (hn : Named cc s) (hname : cname z.x_sy_name = key s.symtab k)
    (hkind : ∀ h : Htab, h.Holds z.x_sy_fl ↔ h.Holds (s.symtab k).x_sy_fl) :
    Named cc (s.set_sym k z) := by
  have hkey : ∀ j, key (Function.update s.symtab k z) j = key s.symtab j := by
    intro j
    by_cases hj : j = k
    · rw [key, hj, Function.update_self]
      exact hname
    · rw [key, Function.update_of_ne hj]
      rfl
  have hholds : ∀ (h : Htab) (j : ℕ), h.Holds ((s.set_sym k z).symtab j).x_sy_fl ↔
      h.Holds (s.symtab j).x_sy_fl := by
    intro h j
    change h.Holds (Function.update s.symtab k z j).x_sy_fl ↔ _
    by_cases hj : j = k
    · rw [hj, Function.update_self]
      exact hkind h
    · rw [Function.update_of_ne hj]
  refine ⟨hn.pos, fun h => (hn.table h).congr fun slot j _ => hkey j, fun h slot j hslot => ?_,
    fun h j hhas hj => hn.entered h j hhas ((hholds h j).mp hj)⟩
  obtain ⟨hhas, hj⟩ := hn.held h slot j hslot
  exact ⟨hhas, (hholds h j).mpr hj⟩

/-- A symbol no table is for. -/
theorem not_holds_loc (h : Htab) : ¬ h.Holds X_SY_LOC := by
  cases h with
  | seghash =>
    change ¬ X_SY_LOC = X_SY_SEG
    decide
  | symhash =>
    change ¬ (X_SY_LOC = X_SY_UNX ∨ X_SY_LOC = X_SY_GLB)
    decide

theorem holds_glb_iff (h : Htab) : h.Holds X_SY_GLB ↔ h.Holds X_SY_UNX := by
  cases h with
  | seghash =>
    change X_SY_GLB = X_SY_SEG ↔ X_SY_UNX = X_SY_SEG
    decide
  | symhash => exact iff_of_true (.inr rfl) (.inl rfl)

/-- **One symbol of the four kinds.** -/
theorem step (hn : Named cc s) (hy : y.Known) (hs : SymStep cc s i y s') : Named cc s' := by
  cases hs with
  | seg_known _ _ => exact hn.of_same rfl rfl rfl
  | seg_new hfl hf =>
    have hn' : Named cc (s.set_symap i s.symlev) := hn.of_same rfl rfl rfl
    exact hn'.enter_vacant hf rfl hfl
  | local_passed _ _ => exact hn.of_same rfl rfl rfl
  | local_new hfl _ =>
    have hn' : Named cc (s.set_symap i s.symlev) := hn.of_same rfl rfl rfl
    refine hn'.enter_untabled fun h => ?_
    have hsame : (s.local_sym y).x_sy_fl = y.x_sy_fl := by
      unfold local_sym
      dsimp only
      split_ifs <;> rfl
    rw [hsame, hfl]
    exact not_holds_loc h
  | @unx_known k _ hf =>
    obtain ⟨-, -, hkey⟩ := hn.find_iff.mp hf
    have hraised : ∀ z : XSym, (raised z y).x_sy_fl = z.x_sy_fl ∧ (raised z y).x_sy_name = z.x_sy_name := by
      intro z
      unfold raised
      split_ifs
      · exact ⟨rfl, rfl⟩
      · exact ⟨rfl, rfl⟩
    have hn' : Named cc (s.set_sym k (raised (s.symtab k) y)) := by
      refine hn.set_sym ?_ fun h => ?_
      · rw [(hraised _).2]
        rfl
      · rw [(hraised _).1]
    exact hn'.of_same rfl rfl rfl
  | unx_new hfl hf =>
    have hn' : Named cc ((s.set_symap i s.symlev).set_udefcnt (s.udefcnt + 1)) := hn.of_same rfl rfl rfl
    exact hn'.enter_vacant hf rfl (.inl hfl)
  | @glb_defines k hfl hf hk =>
    obtain ⟨-, -, hkey⟩ := hn.find_iff.mp hf
    have hn' : Named cc ((s.set_symap i k).set_udefcnt (s.udefcnt - 1)) := hn.of_same rfl rfl rfl
    refine hn'.set_sym hkey.symm fun h => ?_
    change h.Holds y.x_sy_fl ↔ h.Holds (s.symtab k).x_sy_fl
    rw [hfl, hk]
    exact holds_glb_iff h
  | glb_again _ _ _ => exact hn.of_same rfl rfl rfl
  | glb_new hfl hf =>
    have hn' : Named cc (s.set_symap i s.symlev) := hn.of_same rfl rfl rfl
    exact hn'.enter_vacant hf rfl (.inr hfl)
  | other hseg hloc hunx hglb =>
    rcases hy with hy | hy | hy | hy
    · exact absurd hy hloc
    · exact absurd hy hunx
    · exact absurd hy hglb
    · exact absurd hy hseg

theorem seg_frame (hn : Named cc s) (hf : SegFrame s t) : Named cc t := by
  obtain ⟨_, _, _, _, _, _, _, _, _, _, _, _, _, rfl⟩ := hf
  exact hn.of_same rfl rfl rfl

/-- **The tables are right after every module**, when the symbols are of the four kinds. -/
theorem loads {l : List (Ld × XFile)} (hn : Named cc s) (h : Loads cc s l t)
    (hknown : ∀ x ∈ l, ∀ y ∈ x.2.x_sym, y.Known) : Named cc t := by
  refine h.symbols (I := fun _ u => Named cc u) hn ?_ ?_ ?_
  · intro _ u u' hq hu
    exact hu.quiet hq
  · intro _ u u' hf hu
    exact hu.seg_frame hf
  · intro x hx y hy _ u u' i hu hstep
    exact hu.step (hknown x hx y hy) hstep

end Named

end Ld

end Cpm8000.Linker
