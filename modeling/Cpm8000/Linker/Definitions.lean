/-
# Definitions

A symbol that is entered as global, with its value and its segment, should stay what it is, and every
reference to its name should lead to it.

Two things go wrong. A later reference of a size beyond the value of the symbol puts the size in the place
of the value, for `p1dosym` asks only whether the name is there; and a global symbol of segment 255 is
relocated like the others, where a local one is not.

* `IsStep`: the steps of the first pass, with the state before and after.
* `SymStep.keeps`: what one symbol keeps, where it is harmless.
* `Settling.loads`: what all modules keep.
* `definitions_settled`: where every symbol is harmless the definitions stay as they are to the end of the link,
  but for the one relocation between the passes, and the references lead to them.
-/
import Cpm8000.Linker.Commons
import Cpm8000.Linker.Interlude
import Cpm8000.Linker.SegReloc

namespace Cpm8000.Linker

open Sys

namespace Ld

variable {cc : Compiler} {s t t' u v w w' : Ld} {f : XFile} {i j k : ℕ} {y z : XSym}

/-! ## 1. Steps -/

/-- A step of `p1dosym`: `w` and `w'` are the states before and after symbol `i` of a module of which `pre` is
done from state `u`. -/
def ModuleStep (cc : Compiler) (u : Ld) (pre : List (XSym × ℕ)) (w : Ld) (i : ℕ) (y : XSym) (w' : Ld) :
    Prop :=
  ∃ done post, pre = done ++ (y, i) :: post ∧ done.foldlM (fun s y => s.p1sym cc y.2 y.1) u = some w ∧
    w.p1sym cc i y = some w'

/-- A step for a symbol of one of the modules that are loaded. -/
def IsStep (cc : Compiler) (l : List (Ld × XFile)) (w : Ld) (i : ℕ) (y : XSym) (w' : Ld) : Prop :=
  ∃ x ∈ l, ∃ u, x.1.p1doseg cc x.2 = some u ∧ ModuleStep cc u x.2.x_sym.zipIdx w i y w'

/-- A symbol that harms no definition: it is of one of the four kinds, not global and absolute, and when it
refers to a name that is defined it has no size beyond the value. -/
structure Harmless (w : Ld) (y : XSym) : Prop where
  known : y.Known
  relative : y.x_sy_fl = X_SY_GLB → y.x_sy_sg ≠ 255
  small : y.x_sy_fl = X_SY_UNX → ∀ k, w.Has k → (w.symtab k).x_sy_fl = X_SY_GLB →
    key w.symtab k = cname y.x_sy_name → y.x_sy_val ≤ (w.symtab k).x_sy_val

/-- The symbol of the table that stands for symbol `i` of the module that is being loaded in state `w`. -/
def stands (t w : Ld) (i : ℕ) : ℕ := t.symap (w.syms + i)

/-- A symbol of the table is that of a name, and no other is. -/
structure OnlyOne (t : Ld) (name : List Byte) (k : ℕ) : Prop where
  has : t.Has k
  holds : Htab.symhash.Holds (t.symtab k).x_sy_fl
  same : key t.symtab k = cname name
  only : ∀ j, t.Has j → Htab.symhash.Holds (t.symtab j).x_sy_fl → key t.symtab j = cname name → j = k

/-- A name has a definition. -/
def Defined (w : Ld) (name : List Byte) : Prop :=
  ∃ k, w.Has k ∧ (w.symtab k).x_sy_fl = X_SY_GLB ∧ key w.symtab k = cname name

/-! ## 2. What one symbol keeps -/

/-- What is kept of the symbols. -/
structure Keeps (s t : Ld) : Prop where
  symlev : s.symlev ≤ t.symlev
  settled : ∀ j, s.Has j → (s.symtab j).x_sy_fl ≠ X_SY_UNX → t.symtab j = s.symtab j
  holds : ∀ j, s.Has j → Htab.symhash.Holds (s.symtab j).x_sy_fl → Htab.symhash.Holds (t.symtab j).x_sy_fl
  name : ∀ j, s.Has j → key t.symtab j = key s.symtab j

namespace Keeps

theorem has (h : Keeps s t) (hj : s.Has j) : t.Has j := ⟨hj.1, Nat.lt_of_lt_of_le hj.2 h.symlev⟩

theorem of_same (hsymtab : t.symtab = s.symtab) (hsymlev : t.symlev = s.symlev) : Keeps s t := by
  refine ⟨hsymlev.ge, fun j _ _ => congrFun hsymtab j, fun j _ hj => ?_, fun j _ => ?_⟩
  · rw [hsymtab]
    exact hj
  · rw [hsymtab]

theorem trans (h : Keeps s t) (h' : Keeps t u) : Keeps s u := by
  refine ⟨h.symlev.trans h'.symlev, fun j hj hfl => ?_,
    fun j hj hh => h'.holds j (h.has hj) (h.holds j hj hh),
    fun j hj => (h'.name j (h.has hj)).trans (h.name j hj)⟩
  have hsame := h.settled j hj hfl
  rw [h'.settled j (h.has hj) (hsame ▸ hfl), hsame]

/-- A symbol that is entered. -/
theorem enter (h : Keeps s t) (y : XSym) : Keeps s (t.enter y) := by
  have hsymlev := enter_symlev t y
  have hsymtab := enter_symtab t y
  have hold : ∀ j, t.Has j → (t.enter y).symtab j = t.symtab j := fun j hj => by
    rw [hsymtab, Named.update_of_has hj]
  refine h.trans ⟨by omega, fun j hj _ => hold j hj, fun j hj hh => ?_, fun j hj => ?_⟩
  · rw [hold j hj]
    exact hh
  · rw [key, hold j hj]
    rfl

theorem enter_at (h : Keeps s t) (h' : Htab) (slot : ℕ) (y : XSym) : Keeps s (t.enter_at h' slot y) := by
  have hhpos : Keeps s { t with hpos := some (h', slot) } := h.trans (.of_same rfl rfl)
  exact hhpos.enter y

/-- An undefined symbol that becomes another of its name. -/
theorem set_sym (hk : (s.symtab k).x_sy_fl = X_SY_UNX) (hz : Htab.symhash.Holds z.x_sy_fl)
    (hname : cname z.x_sy_name = key s.symtab k) : Keeps s (s.set_sym k z) := by
  refine ⟨le_refl _, fun j _ hfl => ?_, fun j _ hh => ?_, fun j _ => ?_⟩
  · refine Function.update_of_ne (fun h => hfl ?_) _ _
    rw [h, hk]
  · change Htab.symhash.Holds (Function.update s.symtab k z j).x_sy_fl
    by_cases hj : j = k
    · rw [hj, Function.update_self]
      exact hz
    · rw [Function.update_of_ne hj]
      exact hh
  · change key (Function.update s.symtab k z) j = key s.symtab j
    by_cases hj : j = k
    · rw [hj, key, Function.update_self]
      exact hname
    · rw [key, Function.update_of_ne hj]
      rfl

end Keeps

/-- **What a harmless symbol keeps**: every symbol but the undefined ones, and these are kept under their
names. -/
theorem SymStep.keeps (hn : Named cc s) (hy : Harmless s y) (h : SymStep cc s i y t) : Keeps s t := by
  have hsymap : Keeps s (s.set_symap i s.symlev) := .of_same rfl rfl
  cases h with
  | seg_known _ _ => exact .of_same rfl rfl
  | seg_new _ _ => exact hsymap.enter_at _ _ y
  | local_passed _ _ => exact .of_same rfl rfl
  | local_new _ _ =>
    have hdiscard : Keeps s (s.set_symap i s.symlev).discard := .of_same rfl rfl
    exact hdiscard.enter _
  | @unx_known k hfl hf =>
    obtain ⟨hhas, hholds, hkey⟩ := hn.find_iff.mp hf
    have hraised := Sized.raised_spec (s.symtab k) y
    have hset : Keeps s (s.set_sym k (raised (s.symtab k) y)) := by
      rcases hholds with hunx | hglb
      · refine .set_sym hunx ?_ ?_
        · rw [hraised.1]
          exact Or.inl hunx
        · rw [hraised.2.1]
          rfl
      · -- the value is not below the size, so the symbol stays what it is
        have hle := hy.small hfl k hhas hglb hkey
        have hsame : raised (s.symtab k) y = s.symtab k := if_neg (BitVec.not_lt.mpr hle)
        rw [hsame]
        exact .of_same (Function.update_eq_self k s.symtab) rfl
    exact hset.trans (.of_same rfl rfl)
  | unx_new _ _ =>
    have hcount : Keeps s ((s.set_symap i s.symlev).set_udefcnt (s.udefcnt + 1)) := .of_same rfl rfl
    exact hcount.enter_at _ _ y
  | @glb_defines k hfl hf hk =>
    obtain ⟨-, -, hkey⟩ := hn.find_iff.mp hf
    have hfirst : Keeps s ((s.set_symap i k).set_udefcnt (s.udefcnt - 1)) := .of_same rfl rfl
    exact hfirst.trans (.set_sym hk (Or.inr hfl) hkey.symm)
  | glb_again _ _ _ => exact .of_same rfl rfl
  | glb_new _ _ => exact hsymap.enter_at _ _ _
  | other _ _ _ _ => exact hsymap.enter y

theorem enter_symap (s : Ld) (y : XSym) : (s.enter y).symap = s.symap := by
  unfold enter set_hpos
  cases s.hpos <;> rfl

/-- What stands for symbol `i` of the module, and that `symap` is the same elsewhere. -/
structure Stands (s : Ld) (i k : ℕ) (t : Ld) : Prop where
  at_i : t.stands s i = k
  elsewhere : ∀ p, p ≠ s.syms + i → t.symap p = s.symap p

theorem Stands.of_update (hsymap : t.symap = Function.update s.symap (s.syms + i) k) : Stands s i k t := by
  refine ⟨?_, fun p hp => ?_⟩
  · rw [stands, hsymap, Function.update_self]
  · rw [hsymap, Function.update_of_ne hp]

/-- A symbol that is entered stands for itself. -/
theorem stands_enter (hpos : 1 ≤ s.symlev) (hsymap : t.symap = Function.update s.symap (s.syms + i) s.symlev)
    (hsymlev : t.symlev = s.symlev) (z : XSym) :
    Stands s i s.symlev (t.enter z) ∧ (t.enter z).Has s.symlev ∧ (t.enter z).symtab s.symlev = z := by
  refine ⟨.of_update ((enter_symap t z).trans hsymap), ⟨hpos, ?_⟩, ?_⟩
  · rw [enter_symlev, hsymlev]
    exact Nat.lt_succ_self _
  · rw [enter_symtab, hsymlev, Function.update_self]

theorem stands_enter_at (hpos : 1 ≤ s.symlev)
    (hsymap : t.symap = Function.update s.symap (s.syms + i) s.symlev) (hsymlev : t.symlev = s.symlev)
    (h : Htab) (slot : ℕ) (z : XSym) :
    Stands s i s.symlev (t.enter_at h slot z) ∧ (t.enter_at h slot z).Has s.symlev ∧
      (t.enter_at h slot z).symtab s.symlev = z :=
  stands_enter (t := { t with hpos := some (h, slot) }) hpos hsymap hsymlev z

/-- The symbol that stands for a reference or a definition is that of the name; for a local symbol that is
absolute it is the symbol itself. -/
structure Meant (s : Ld) (y : XSym) (k : ℕ) (t : Ld) : Prop where
  name : y.x_sy_fl = X_SY_UNX ∨ y.x_sy_fl = X_SY_GLB →
    t.Has k ∧ Htab.symhash.Holds (t.symtab k).x_sy_fl ∧ key t.symtab k = cname y.x_sy_name
  itself : y.x_sy_fl = X_SY_LOC → y.x_sy_sg = 255 → s.nolocal = false → t.Has k ∧ t.symtab k = y

theorem Meant.of_name (hfl : y.x_sy_fl ≠ X_SY_LOC) (hhas : t.Has k)
    (hholds : Htab.symhash.Holds (t.symtab k).x_sy_fl)
    (hname : cname (t.symtab k).x_sy_name = cname y.x_sy_name) : Meant s y k t :=
  ⟨fun _ => ⟨hhas, hholds, hname⟩, fun h => absurd h hfl⟩

theorem Meant.of_seg (hfl : y.x_sy_fl = X_SY_SEG) : Meant s y k t := by
  have hkinds : X_SY_SEG ≠ X_SY_UNX ∧ X_SY_SEG ≠ X_SY_GLB ∧ X_SY_SEG ≠ X_SY_LOC := by decide
  rw [← hfl] at hkinds
  exact ⟨fun h => absurd h (not_or.mpr ⟨hkinds.1, hkinds.2.1⟩), fun h => absurd h hkinds.2.2⟩

/-- **What one symbol leaves in `symap`.** -/
theorem SymStep.stands (hn : Named cc s) (hy : y.Known) (h : SymStep cc s i y t) :
    ∃ k, Stands s i k t ∧ Meant s y k t := by
  have hunx : X_SY_UNX ≠ X_SY_LOC := by decide
  have hglb : X_SY_GLB ≠ X_SY_LOC := by decide
  cases h with
  | seg_known hfl _ => exact ⟨_, .of_update rfl, .of_seg hfl⟩
  | seg_new hfl _ => exact ⟨_, .of_update rfl, .of_seg hfl⟩
  | local_passed hfl hno =>
    refine ⟨_, .of_update rfl, fun h => ?_, fun _ _ h => ?_⟩
    · rw [hfl] at h
      exact absurd h (not_or.mpr ⟨hunx.symm, hglb.symm⟩)
    · rw [h] at hno
      cases hno
  | local_new hfl _ =>
    obtain ⟨hstands, hhas, hsame⟩ := stands_enter (t := (s.set_symap i s.symlev).discard) hn.pos rfl rfl
      (s.local_sym y)
    refine ⟨_, hstands, fun h => ?_, fun _ hsg _ => ⟨hhas, ?_⟩⟩
    · rw [hfl] at h
      exact absurd h (not_or.mpr ⟨hunx.symm, hglb.symm⟩)
    · rw [hsame, local_sym, hsg]
      exact if_neg fun h => h.2 rfl
  | @unx_known k hfl hf =>
    obtain ⟨hhas, hholds, hkey⟩ := hn.find_iff.mp hf
    obtain ⟨hsame, hname, -⟩ := Sized.raised_spec (s.symtab k) y
    refine ⟨k, .of_update rfl, .of_name (hfl ▸ hunx) hhas ?_ ?_⟩
    · change Htab.symhash.Holds (Function.update s.symtab k (raised (s.symtab k) y) k).x_sy_fl
      rw [Function.update_self, hsame]
      exact hholds
    · change cname (Function.update s.symtab k (raised (s.symtab k) y) k).x_sy_name = _
      rw [Function.update_self, hname]
      exact hkey
  | @unx_new slot hfl _ =>
    obtain ⟨hstands, hhas, hsame⟩ := stands_enter_at (i := i)
      (t := (s.set_symap i s.symlev).set_udefcnt (s.udefcnt + 1)) hn.pos rfl rfl .symhash slot y
    refine ⟨_, hstands, .of_name (hfl ▸ hunx) hhas ?_ ?_⟩
    · rw [hsame]
      exact Or.inl hfl
    · rw [hsame]
  | @glb_defines k hfl hf _ =>
    obtain ⟨hhas, -, hkey⟩ := hn.find_iff.mp hf
    refine ⟨k, .of_update rfl, .of_name (hfl ▸ hglb) hhas ?_ ?_⟩
    · change Htab.symhash.Holds (Function.update s.symtab k (s.global_sym cc y) k).x_sy_fl
      rw [Function.update_self]
      exact Or.inr hfl
    · change cname (Function.update s.symtab k (s.global_sym cc y) k).x_sy_name = _
      rw [Function.update_self]
      rfl
  | @glb_again k hfl hf _ =>
    obtain ⟨hhas, hholds, hkey⟩ := hn.find_iff.mp hf
    exact ⟨k, .of_update rfl, .of_name (hfl ▸ hglb) hhas hholds hkey⟩
  | @glb_new slot hfl _ =>
    obtain ⟨hstands, hhas, hsame⟩ := stands_enter_at (i := i) (t := s.set_symap i s.symlev) hn.pos rfl rfl
      .symhash slot (s.global_sym cc y)
    refine ⟨_, hstands, .of_name (hfl ▸ hglb) hhas ?_ ?_⟩
    · rw [hsame]
      exact Or.inr hfl
    · rw [hsame]
      rfl
  | other hseg hloc hunx hglb =>
    rcases hy with hy | hy | hy | hy
    · exact absurd hy hloc
    · exact absurd hy hunx
    · exact absurd hy hglb
    · exact absurd hy hseg

/-! ## 3. Runs -/

/-- What is kept of the steps `S`, whose symbols have their places in `symap` below `b`. -/
structure Settling (cc : Compiler) (S : Ld → ℕ → XSym → Ld → Prop) (b : ℕ) (t : Ld) : Prop where
  named : Named cc t
  steps : ∀ w i y w', S w i y w' → Named cc w ∧ Harmless w y ∧ SymStep cc w i y w'
  below : ∀ w i y w', S w i y w' → w.syms + i < b
  keeps : ∀ w i y w', S w i y w' → Keeps w' t
  symap : ∀ w i y w', S w i y w' → t.symap (w.syms + i) = w'.symap (w.syms + i)

namespace Settling

variable {S S' : Ld → ℕ → XSym → Ld → Prop} {b : ℕ}

/-- A change of other things. -/
theorem of_frame {b' : ℕ} (h : Settling cc S b t) (hn : Named cc t') (hk : Keeps t t') (hb : b ≤ b')
    (hsymap : ∀ p < b, t'.symap p = t.symap p) : Settling cc S b' t' := by
  refine ⟨hn, h.steps, fun w i y w' hs => (h.below w i y w' hs).trans_le hb,
    fun w i y w' hs => (h.keeps w i y w' hs).trans hk, fun w i y w' hs => ?_⟩
  rw [hsymap _ (h.below w i y w' hs)]
  exact h.symap w i y w' hs

theorem of_iff (h : Settling cc S b t) (hS : ∀ w i y w', S' w i y w' → S w i y w') : Settling cc S' b t :=
  ⟨h.named, fun w i y w' hs => h.steps w i y w' (hS w i y w' hs),
    fun w i y w' hs => h.below w i y w' (hS w i y w' hs), fun w i y w' hs => h.keeps w i y w' (hS w i y w' hs),
    fun w i y w' hs => h.symap w i y w' (hS w i y w' hs)⟩

/-- **One more symbol.** -/
theorem step (h : Settling cc S b t) (hb : t.syms + i = b) (hy : Harmless t y) (hs : t.p1sym cc i y = some t') :
    Settling cc (fun w j z w' => S w j z w' ∨ w = t ∧ j = i ∧ z = y ∧ w' = t') (b + 1) t' := by
  have hstep := p1sym_step hs
  have hkeeps := hstep.keeps h.named hy
  obtain ⟨k, hk, -⟩ := hstep.stands h.named hy.known
  refine ⟨h.named.step hy.known hstep, ?_, ?_, ?_, ?_⟩
  · rintro w j z w' (hold | ⟨rfl, rfl, rfl, rfl⟩)
    · exact h.steps w j z w' hold
    · exact ⟨h.named, hy, hstep⟩
  · rintro w j z w' (hold | ⟨rfl, rfl, -, -⟩)
    · exact Nat.lt_succ_of_lt (h.below w j z w' hold)
    · omega
  · rintro w j z w' (hold | ⟨-, -, -, rfl⟩)
    · exact (h.keeps w j z w' hold).trans hkeeps
    · exact .of_same rfl rfl
  · rintro w j z w' (hold | ⟨-, -, -, rfl⟩)
    · have hlt := h.below w j z w' hold
      rw [hk.elsewhere _ (by omega)]
      exact h.symap w j z w' hold
    · rfl

end Settling

/-- The placement of segments has its own part of `symap`. -/
theorem p1doseg_symap (h : s.p1doseg cc f = some t) :
    t.syms = s.symx ∧ t.symx = s.symx + f.x_sym.length ∧ ∀ p < s.symx, t.symap p = s.symap p := by
  obtain ⟨u, v, hu, hv, ht⟩ := p1doseg_parts h
  obtain ⟨-, -, -, rfl⟩ := p1start_eq hu
  have hpre := foldlM_invariant (I := fun w : Ld => w.syms = s.symx ∧ w.symx = s.symx + f.x_sym.length ∧
    ∀ p < s.symx, w.symap p = s.symap p) hv ⟨rfl, rfl, fun _ _ => rfl⟩ ?_
  · refine foldlM_invariant (I := fun w : Ld => w.syms = s.symx ∧ w.symx = s.symx + f.x_sym.length ∧
      ∀ p < s.symx, w.symap p = s.symap p) ht hpre ?_
    rintro x - w w' hw hx
    obtain ⟨j, -, rfl⟩ := p1seg_eq hx
    exact hw
  · rintro x - w w' ⟨hsyms, hsymx, hw⟩ hx
    unfold p1pre at hx
    split_ifs at hx with hseg
    · rcases hl : w.look cc .seghash x.1.x_sy_name with _ | ⟨t₁, _ | k⟩ <;> rw [hl] at hx
      · cases hx
      · obtain ⟨slot, rfl, -⟩ := look_none hl
        obtain rfl := Option.some.inj hx
        exact ⟨hsyms, hsymx, hw⟩
      · obtain ⟨rfl, -⟩ := look_some hl
        obtain rfl := Option.some.inj hx
        refine ⟨hsyms, hsymx, fun p hp => ?_⟩
        change Function.update t₁.symap (t₁.syms + x.2) k p = s.symap p
        rw [Function.update_of_ne (by omega), hw p hp]
    · obtain rfl := Option.some.inj hx
      exact ⟨hsyms, hsymx, hw⟩

/-- The steps of a module as far as it is done. -/
theorem moduleStep_snoc {pre : List (XSym × ℕ)} {x : XSym × ℕ}
    (h : ModuleStep cc u (pre ++ [x]) w i y w') : ModuleStep cc u pre w i y w' ∨
      x = (y, i) ∧ pre.foldlM (fun s y => s.p1sym cc y.2 y.1) u = some w ∧ w.p1sym cc i y = some w' := by
  obtain ⟨done, post, hsplit, hw, hstep⟩ := h
  rcases List.eq_nil_or_concat post with rfl | ⟨post, z, rfl⟩
  · obtain ⟨rfl, hlast⟩ := List.append_inj' hsplit rfl
    exact Or.inr ⟨(List.cons.inj hlast).1, hw, hstep⟩
  · rw [List.concat_eq_append, ← List.cons_append, ← List.append_assoc] at hsplit
    obtain ⟨rfl, -⟩ := List.append_inj' hsplit rfl
    exact Or.inl ⟨done, post, rfl, hw, hstep⟩

namespace Settling

variable {S : Ld → ℕ → XSym → Ld → Prop}

/-- **One more module.** -/
theorem module (h : Settling cc S t.symx t) (hm : t.p1module cc f = some t')
    (hy : ∀ u w i y w', t.p1doseg cc f = some u → ModuleStep cc u f.x_sym.zipIdx w i y w' →
      Harmless w y) :
    Settling cc (fun w i y w' => S w i y w' ∨ ∃ u, t.p1doseg cc f = some u ∧
      ModuleStep cc u f.x_sym.zipIdx w i y w') t'.symx t' := by
  unfold p1module at hm
  obtain ⟨u, hu, hsym⟩ := Option.bind_eq_some_iff.mp hm
  obtain ⟨hsyms, hsymx, hsymap⟩ := p1doseg_symap hu
  have hframe := p1doseg_frame hu
  have hbegin : Settling cc S u.syms u := by
    refine h.of_frame (h.named.seg_frame hframe) ?_ hsyms.ge hsymap
    obtain ⟨_, _, _, _, _, _, _, _, _, _, _, _, _, rfl⟩ := hframe
    exact .of_same rfl rfl
  have hrun := foldlM_induction (I := fun pre v => SymFrame u v ∧ Settling cc
    (fun w i y w' => S w i y w' ∨ ModuleStep cc u pre w i y w') (u.syms + pre.length) v) hsym ?_ ?_
  · obtain ⟨hsame, hsettling⟩ := hrun
    have hend : t'.symx = u.syms + f.x_sym.zipIdx.length := by
      obtain ⟨_, _, _, _, _, _, _, rfl⟩ := hsame
      rw [List.length_zipIdx, hsyms]
      exact hsymx
    rw [hend]
    refine hsettling.of_iff ?_
    rintro w i y w' (hold | ⟨u', hu', hstep⟩)
    · exact Or.inl hold
    · obtain rfl := Option.some.inj (hu.symm.trans hu')
      exact Or.inr hstep
  · refine ⟨.refl u, hbegin.of_iff ?_⟩
    rintro w i y w' (hold | ⟨done, post, hsplit, -⟩)
    · exact hold
    · simp at hsplit
  · rintro pre ⟨y, i⟩ post v v' hsplit hv ⟨hsame, hsettling⟩ hstep
    have hnumber := (zipIdx_split hsplit).1
    have hvsyms : v.syms + i = u.syms + pre.length := by
      obtain ⟨_, _, _, _, _, _, _, rfl⟩ := hsame
      exact congrArg (u.syms + ·) hnumber
    have hharmless := hy u v i y v' hu ⟨pre, post, hsplit, hv, hstep⟩
    refine ⟨hsame.trans (p1sym_step hstep).frame, ?_⟩
    rw [List.length_append, List.length_singleton, ← Nat.add_assoc]
    refine (hsettling.step hvsyms hharmless hstep).of_iff ?_
    rintro w j z w' (hold | hnew)
    · exact Or.inl (Or.inl hold)
    · rcases moduleStep_snoc hnew with hold | ⟨hx, hw, hw'⟩
      · exact Or.inl (Or.inr hold)
      · obtain ⟨rfl, rfl⟩ := Prod.mk.inj hx
        obtain rfl := Option.some.inj (hv.symm.trans hw)
        obtain rfl := Option.some.inj (hstep.symm.trans hw')
        exact Or.inr ⟨rfl, rfl, rfl, rfl⟩

/-- **All modules.** -/
theorem loads {l : List (Ld × XFile)} (hn : Named cc s) (h : Loads cc s l t)
    (hy : ∀ w i y w', IsStep cc l w i y w' → Harmless w y) : Settling cc (IsStep cc l) t.symx t := by
  induction h with
  | nil =>
    refine ⟨hn, ?_, ?_, ?_, ?_⟩
    all_goals
      rintro w i y w' ⟨x, hx, -⟩
      cases hx
  | quiet _ hq ih =>
    have hold := ih hy
    have hnamed := hold.named.quiet hq
    obtain ⟨_, _, _, _, _, _, _, rfl⟩ := hq
    exact hold.of_frame hnamed (.of_same rfl rfl) (le_refl _) fun _ _ => rfl
  | @load l t t' f _ hm ih =>
    have hold := ih fun w i y w' ⟨x, hx, hstep⟩ => hy w i y w' ⟨x, List.mem_append_left _ hx, hstep⟩
    refine (hold.module hm fun u w i y w' hu hstep => hy w i y w' ⟨(t, f), by simp, u, hu, hstep⟩).of_iff ?_
    rintro w i y w' ⟨x, hx, u, hu, hstep⟩
    rcases List.mem_append.mp hx with hx | hx
    · exact Or.inl ⟨x, hx, u, hu, hstep⟩
    · obtain rfl := List.mem_singleton.mp hx
      exact Or.inr ⟨u, hu, hstep⟩

end Settling

/-! ## 4. The end of the pass -/

/-- A common symbol that is given its place keeps its name, and the others are kept. -/
theorem p1common_keeps (hn : Named cc s) (h : s.p1common i = some t) :
    Named cc t ∧ Keeps s t ∧ t.symap = s.symap := by
  by_cases hi : IsCommon (s.symtab i)
  · obtain ⟨j, -, rfl⟩ := p1common_eq h hi
    have hfl : (s.symtab i).x_sy_fl = X_SY_UNX := hi.1
    obtain ⟨z, hz⟩ : ∃ z : XSym, z = { s.symtab i with
        x_sy_val := BitVec.ofNat 16 (s.common_start j (s.symtab i).x_sy_val)
        x_sy_fl := X_SY_GLB
        x_sy_sg := BitVec.ofNat 8 j } := ⟨_, rfl⟩
    have hname : cname z.x_sy_name = key s.symtab i := by
      rw [hz]
      rfl
    have hglb : z.x_sy_fl = X_SY_GLB := by rw [hz]
    have hnamed : Named cc (s.set_sym i z) := by
      refine hn.set_sym hname fun h => ?_
      rw [hglb, hfl]
      exact Named.holds_glb_iff h
    have hkeeps : Keeps s (s.set_sym i z) := .set_sym hfl (Or.inr hglb) hname
    rw [← hz]
    exact ⟨hnamed.of_same rfl rfl rfl, hkeeps.trans (.of_same rfl rfl), rfl⟩
  · obtain rfl := p1common_of_not h hi
    exact ⟨hn, .of_same rfl rfl, rfl⟩

/-- **What the rest of the first pass keeps.** -/
theorem commons_keeps (hn : Named cc t) (hu : t.p1commons = some u) (hv : u.p1round.p1stack = some v) :
    Named cc v ∧ Keeps t v ∧ v.symap = t.symap := by
  have hcommons : Named cc u ∧ Keeps t u ∧ u.symap = t.symap := by
    unfold p1commons at hu
    split_ifs at hu
    · refine foldlM_invariant (I := fun w : Ld => Named cc w ∧ Keeps t w ∧ w.symap = t.symap) hu
        ⟨hn, .of_same rfl rfl, rfl⟩ ?_
      rintro x - w w' ⟨hnw, hkw, hsw⟩ hx
      obtain ⟨hn', hk', hs'⟩ := p1common_keeps hnw hx
      exact ⟨hn', hkw.trans hk', hs'.trans hsw⟩
    · obtain rfl := Option.some.inj hu
      exact ⟨hn, .of_same rfl rfl, rfl⟩
  have hstack : v.symtab = u.symtab ∧ v.symlev = u.symlev ∧ v.htab = u.htab ∧ v.symap = u.symap := by
    unfold p1stack at hv
    split_ifs at hv
    · split at hv
      · cases hv
      · obtain rfl := Option.some.inj hv
        exact ⟨rfl, rfl, rfl, rfl⟩
    · obtain rfl := Option.some.inj hv
      exact ⟨rfl, rfl, rfl, rfl⟩
  obtain ⟨hsymtab, hsymlev, hhtab, hsymap⟩ := hstack
  obtain ⟨hnu, hku, hsu⟩ := hcommons
  exact ⟨hnu.of_same hsymtab hsymlev hhtab, hku.trans (.of_same hsymtab hsymlev), hsymap.trans hsu⟩

/-! ## 5. Between the passes -/

/-- A symbol as the additional fix leaves it, in the addresses of the output segments. -/
def moved (v : Ld) (y : XSym) : XSym :=
  if v.nonseg ∧ v.saverel = false ∧ y.x_sy_sg ≠ 255 then
    { y with x_sy_val := y.x_sy_val + (v.placed.ld.segtab y.x_sy_sg.toNat).segrel }
  else y

/-- What placing the segments does not change. -/
structure SameSymbols (s t : Ld) : Prop where
  symtab : t.symtab = s.symtab
  symlev : t.symlev = s.symlev
  nonseg : t.nonseg = s.nonseg
  saverel : t.saverel = s.saverel

theorem SameSymbols.trans (h : SameSymbols s t) (h' : SameSymbols t u) : SameSymbols s u :=
  ⟨h'.symtab.trans h.symtab, h'.symlev.trans h.symlev, h'.nonseg.trans h.nonseg, h'.saverel.trans h.saverel⟩

theorem place_same (r : Layout) (i : ℕ) : SameSymbols r.ld (r.place i).ld := by
  unfold Layout.place
  split_ifs
  · exact ⟨rfl, rfl, rfl, rfl⟩
  · exact ⟨rfl, rfl, rfl, rfl⟩

theorem places_same (l : List ℕ) (r : Layout) : SameSymbols r.ld (l.foldl (fun r i => r.place i) r).ld := by
  induction l generalizing r with
  | nil => exact ⟨rfl, rfl, rfl, rfl⟩
  | cons i l ih => exact (place_same r i).trans (ih (r.place i))

theorem placed_same (v : Ld) : SameSymbols v v.placed.ld := by
  have hbegin : SameSymbols v v.unplaced.ld := by
    unfold unplaced
    dsimp only
    split_ifs
    · exact ⟨rfl, rfl, rfl, rfl⟩
    · exact ⟨rfl, rfl, rfl, rfl⟩
  rw [placed]
  exact (hbegin.trans (places_same _ _)).trans (places_same _ _)

/-- **The one relocation between the passes.** -/
theorem interlude_symtab (hj : v.Has j)
    (hfl : (v.symtab j).x_sy_fl = X_SY_GLB ∨ (v.symtab j).x_sy_fl = X_SY_LOC) :
    v.interlude.ld.symtab j = v.moved (v.symtab j) := by
  have hbits : (v.symtab j).x_sy_fl &&& (X_SY_GLB &&& X_SY_LOC) ≠ 0 := by
    rcases hfl with h | h
    · rw [h]
      decide
    · rw [h]
      decide
  have hfix : ∀ r : Ld, SameSymbols v r → r.segtab = v.placed.ld.segtab →
      r.fix.symtab j = v.moved (v.symtab j) := by
    intro r hsame hsegtab
    rw [fix, moved, hsame.nonseg, hsame.saverel]
    by_cases hfinal : v.nonseg = true ∧ v.saverel = false
    · have hcond : v.nonseg = true ∧ (!v.saverel) = true := ⟨hfinal.1, by rw [hfinal.2]; rfl⟩
      have hhas : 1 ≤ j ∧ j < r.symlev := by
        rw [hsame.symlev]
        exact hj
      rw [if_pos hcond]
      dsimp only
      rw [if_pos hhas, fixed, hsame.symtab, hsegtab]
      by_cases hsg : (v.symtab j).x_sy_sg = 255
      · rw [if_neg (not_and.mpr fun _ => not_not.mpr hsg), if_neg fun h => h.2.2 hsg]
      · rw [if_pos ⟨hbits, hsg⟩, if_pos ⟨hfinal.1, hfinal.2, hsg⟩]
    · have hcond : ¬ (v.nonseg = true ∧ (!v.saverel) = true) := fun h =>
        hfinal ⟨h.1, (Bool.not_eq_true' _).mp h.2⟩
      rw [if_neg hcond, hsame.symtab, if_neg fun h => hfinal ⟨h.1, h.2.1⟩]
  have hsame := placed_same v
  rw [interlude]
  generalize v.placed = r at hsame hfix
  dsimp only
  split_ifs
  · exact hfix _ (hsame.trans ⟨rfl, rfl, rfl, rfl⟩) rfl
  · exact hfix _ (hsame.trans ⟨rfl, rfl, rfl, rfl⟩) rfl
  · exact hfix _ (hsame.trans ⟨rfl, rfl, rfl, rfl⟩) rfl
  · exact hfix _ hsame rfl

/-! ## 6. The whole link -/

/-- A symbol has the name, the value and the segment of another. -/
structure Unmoved (y z : XSym) : Prop where
  name : cname z.x_sy_name = cname y.x_sy_name
  value : z.x_sy_val = y.x_sy_val
  segment : z.x_sy_sg = y.x_sy_sg

/-- **The definitions of a link are stable**: `l` has the modules that were loaded, and `v` is the state after
the first pass.  What was entered as global is the same at the end of the pass, and moved once between the
passes; what stands for a reference or a definition is the one symbol of its name; and an absolute symbol has
its value and its segment to the end. -/
structure Settled (cc : Compiler) (l : List (Ld × XFile)) (v : Ld) : Prop where
  definitions : ∀ w i y w', IsStep cc l w i y w' → ∀ j, w'.Has j → (w'.symtab j).x_sy_fl = X_SY_GLB →
    v.symtab j = w'.symtab j ∧ v.interlude.ld.symtab j = v.moved (w'.symtab j)
  references : ∀ w i y w', IsStep cc l w i y w' → y.x_sy_fl = X_SY_UNX ∨ y.x_sy_fl = X_SY_GLB →
    OnlyOne v y.x_sy_name (v.stands w i)
  absolutes : ∀ w i y w', IsStep cc l w i y w' → y.x_sy_sg = 255 →
    y.x_sy_fl = X_SY_LOC ∧ w.nolocal = false ∨ y.x_sy_fl = X_SY_GLB ∧ ¬ Defined w y.x_sy_name →
      Unmoved y (v.symtab (v.stands w i)) ∧ Unmoved y (v.interlude.ld.symtab (v.stands w i))
  second : ∀ buf fs p, (v.interlude.pass2 buf).p2loads cc fs = some p → p.ld.symtab = v.interlude.ld.symtab

/-- **Definitions are stable** in a link whose symbols are all harmless. -/
theorem definitions_settled {stray : Stray} {flags : List Flag} {files : List Input}
    (h0 : pass0 cc stray flags = some s) (h1 : s.pass1 cc files = some v) :
    ∃ t, s.p1files cc files = some t ∧ (∃ l, Loads cc s l t) ∧ ∀ l, Loads cc s l t →
      (∀ w i y w', IsStep cc l w i y w' → Harmless w y) → Settled cc l v := by
  obtain ⟨t, u, ht, hu, hv⟩ := pass1_parts h1
  refine ⟨t, ht, p1files_loads ht, fun l hl hy => ?_⟩
  have hset := Settling.loads (pass0_ready h0).named hl hy
  obtain ⟨hnv, hkv, hsv⟩ := commons_keeps hset.named hu hv
  have hglb : X_SY_GLB ≠ X_SY_UNX := by decide
  have hloc : X_SY_LOC ≠ X_SY_UNX := by decide
  -- what stands for a symbol at the end is what its step left
  have hmeant : ∀ w i y w', IsStep cc l w i y w' → Meant w y (v.stands w i) w' := by
    intro w i y w' hs
    obtain ⟨hnw, hyw, hstep⟩ := hset.steps w i y w' hs
    obtain ⟨k, hk, hm⟩ := hstep.stands hnw hyw.known
    have hsame : v.stands w i = k := by
      rw [Ld.stands, hsv, hset.symap w i y w' hs]
      exact hk.at_i
    rw [hsame]
    exact hm
  constructor
  · intro w i y w' hs j hj hfl
    have hkeeps := (hset.keeps w i y w' hs).trans hkv
    have hsame := hkeeps.settled j hj (hfl ▸ hglb)
    refine ⟨hsame, ?_⟩
    rw [interlude_symtab (hkeeps.has hj) (Or.inl (hsame ▸ hfl)), hsame]
  · intro w i y w' hs hfl
    have hkeeps := (hset.keeps w i y w' hs).trans hkv
    obtain ⟨hhas, hholds, hname⟩ := (hmeant w i y w' hs).name hfl
    have hname' := (hkeeps.name _ hhas).trans hname
    refine ⟨hkeeps.has hhas, hkeeps.holds _ hhas hholds, hname', fun j hj hjh hjn => ?_⟩
    exact hnv.unique hj (hkeeps.has hhas) hjh (hkeeps.holds _ hhas hholds) (hjn.trans hname'.symm)
  · rintro w i y w' hs hsg (⟨hfl, hno⟩ | ⟨hfl, -⟩)
    · have hkeeps := (hset.keeps w i y w' hs).trans hkv
      obtain ⟨hhas, hsame⟩ := (hmeant w i y w' hs).itself hfl hsg hno
      have hv' : v.symtab (v.stands w i) = y := by
        rw [hkeeps.settled _ hhas (by rw [hsame, hfl]; exact hloc), hsame]
      have hmoved : v.moved y = y := if_neg fun h => h.2.2 hsg
      refine ⟨?_, ?_⟩
      · rw [hv']
        exact ⟨rfl, rfl, rfl⟩
      · rw [interlude_symtab (hkeeps.has hhas) (Or.inr (by rw [hv', hfl])), hv', hmoved]
        exact ⟨rfl, rfl, rfl⟩
    · exact absurd hsg ((hset.steps w i y w' hs).2.1.relative hfl)
  · intro buf fs p hp
    generalize v.interlude = r at hp ⊢
    have hbegin := P2.pass2_buffered r buf
    obtain ⟨-, m, hm, -⟩ := P2.p2loads_second hbegin rfl hp
    exact (hm.run hbegin).2.1.symtab

/-- A module of four bytes of code, with its symbols. -/
def code_module (ys : List XSym) : XFile where
  x_magic := X_NU_MAGIC
  x_sg := [⟨255, X_SG_COD, 4⟩]
  init := [0, 0, 0, 0]
  x_rel := []
  x_sym := ys

/-- A definition, a reference and an absolute local symbol. -/
def three_symbols : List XSym :=
  [⟨0, X_SY_GLB, 2, [0x61]⟩, ⟨0, X_SY_UNX, 0, [0x62]⟩, ⟨255, X_SY_LOC, 5, [0x63]⟩]

theorem definitions_settled_three : ∃ s v t l, pass0 .unsigned .zero [] = some s ∧
    s.pass1 .unsigned [.object (code_module three_symbols)] = some v ∧
      s.p1files .unsigned [.object (code_module three_symbols)] = some t ∧ Loads .unsigned s l t ∧
        Settled .unsigned l v := by
  have h0 : pass0 .unsigned .zero [] = some (initial .zero) := rfl
  obtain ⟨v, h1⟩ : ∃ v, (initial .zero).pass1 .unsigned [.object (code_module three_symbols)] = some v :=
    ⟨_, rfl⟩
  obtain ⟨t, ht, -, hall⟩ := definitions_settled h0 h1
  have hm : (initial .zero).opened.p1module .unsigned (code_module three_symbols) = some t := by
    rw [← ht]
    exact (p1files_single rfl rfl rfl).symm
  refine ⟨_, v, t, _, h0, h1, ht, loads_single hm, hall _ (loads_single hm) ?_⟩
  rintro w i y w' ⟨x, hx, u, -, done, post, hsplit, -⟩
  obtain rfl := List.mem_singleton.mp hx
  have hmem : (y, i) ∈ (code_module three_symbols).x_sym.zipIdx := by
    change (code_module three_symbols).x_sym.zipIdx = _ at hsplit
    simp [hsplit]
  have hy : y ∈ three_symbols := List.fst_mem_of_mem_zipIdx hmem
  have hsmall : ∀ y ∈ three_symbols, y.Known ∧ (y.x_sy_fl = X_SY_GLB → y.x_sy_sg ≠ 255) ∧
      (y.x_sy_fl = X_SY_UNX → y.x_sy_val = 0) := by decide
  obtain ⟨hknown, hrelative, hzero⟩ := hsmall y hy
  refine ⟨hknown, hrelative, fun hfl k _ _ _ => ?_⟩
  rw [hzero hfl]
  exact BitVec.le_def.mpr (Nat.zero_le _)

/-- A symbol of the code is defined. -/
def one_defined : XFile := code_module [⟨0, X_SY_GLB, 0, [0x61]⟩]

/-- It is referred to with a size, and an absolute symbol is defined. -/
def sized_reference : XFile := code_module [⟨0, X_SY_UNX, 10, [0x61]⟩, ⟨255, X_SY_GLB, 5, [0x62]⟩]

/-- The first symbol gets the size for its value, and the other one a segment. -/
theorem unsettled : ∃ s v t l, pass0 .signed .zero [] = some s ∧
    s.pass1 .signed [.object one_defined, .object sized_reference] = some v ∧
      s.p1files .signed [.object one_defined, .object sized_reference] = some t ∧
        Loads .signed s l t ∧ ¬ Settled .signed l v ∧ (v.symtab 1).x_sy_val = 10 ∧
          (v.symtab 2).x_sy_sg = 0 := by
  obtain ⟨v, t, t₁, hv, ht, h₁, h₂, hvalue, hsegment⟩ : ∃ v t t₁,
      (initial .zero).pass1 .signed [.object one_defined, .object sized_reference] = some v ∧
        (initial .zero).p1files .signed [.object one_defined, .object sized_reference] = some t ∧
          (initial .zero).opened.p1module .signed one_defined = some t₁ ∧
            ({ t₁ with posndx := Function.update t₁.posndx 1 (-1), nonseg := true } : Ld).p1module .signed
              sized_reference = some t ∧ (v.symtab 1).x_sy_val = 10 ∧ (v.symtab 2).x_sy_sg = 0 :=
    ⟨_, _, _, rfl, rfl, rfl, rfl, by decide +kernel, by decide +kernel⟩
  have hquiet : Quiet t₁ { t₁ with posndx := Function.update t₁.posndx 1 (-1), nonseg := true } :=
    ⟨_, _, _, _, _, _, _, rfl⟩
  have hl := (loads_single h₁).quiet hquiet
  refine ⟨_, v, t, _, rfl, hv, ht, hl.load h₂, fun hset => ?_, hvalue, hsegment⟩
  obtain ⟨u, w', hu, hw', hhas, hfl, hzero⟩ : ∃ u w',
      (initial .zero).opened.p1doseg .signed one_defined = some u ∧
        u.p1sym .signed 0 ⟨0, X_SY_GLB, 0, [0x61]⟩ = some w' ∧ w'.Has 1 ∧
          (w'.symtab 1).x_sy_fl = X_SY_GLB ∧ (w'.symtab 1).x_sy_val = 0 :=
    ⟨_, _, rfl, rfl, by decide, rfl, rfl⟩
  obtain ⟨hsame, -⟩ := hset.definitions u 0 ⟨0, X_SY_GLB, 0, [0x61]⟩ w'
    ⟨_, List.mem_append_left _ (List.mem_singleton_self _), u, hu, [], _, rfl, rfl, hw'⟩ 1 hhas hfl
  rw [hsame, hzero] at hvalue
  exact absurd hvalue (by decide)

end Ld

end Cpm8000.Linker
