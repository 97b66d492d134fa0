/-
# What a symbol does to the tables

`SymStep` says once what `p1dosym` does for one symbol of a module: it is passed over, entered, or meets
a symbol that is there.  The count of undefined symbols follows: in every state of the first pass it is
the number of symbols of kind `UNX` (`Counted`).
-/
import Cpm8000.Linker.Segments

namespace Cpm8000.Linker

open Sys

namespace Ld

variable {cc : Compiler} {s s' t : Ld} {h : Htab} {name : List Byte} {i k : ℕ} {y : XSym}

/-! ## 1. One symbol -/

/-- What `lookup` finds in a table. -/
def find (cc : Compiler) (s : Ld) (h : Htab) (name : List Byte) : Probe ℕ :=
  lookup cc h.size (s.htab h) s.symtab name

theorem look_some {j : ℕ} (hl : s.look cc h name = some (t, some j)) : t = s ∧ s.find cc h name = .found j := by
  unfold look at hl
  rw [find]
  split at hl
  · rename_i j' hf
    obtain ⟨rfl, hj⟩ := Prod.mk.inj (Option.some.inj hl)
    rw [hf, Option.some.inj hj]
    exact ⟨rfl, rfl⟩
  · cases (Prod.mk.inj (Option.some.inj hl)).2
  · cases hl

theorem look_none (hl : s.look cc h name = some (t, none)) :
    ∃ slot, t = { s with hpos := some (h, slot) } ∧ s.find cc h name = .vacant slot := by
  unfold look at hl
  rw [find]
  split at hl
  · cases (Prod.mk.inj (Option.some.inj hl)).2
  · rename_i slot hf
    exact ⟨slot, (Prod.mk.inj (Option.some.inj hl)).1.symm, hf⟩
  · cases hl

/-- A symbol that is entered in a place of a table. -/
def enter_at (s : Ld) (h : Htab) (slot : ℕ) (y : XSym) : Ld := { s with hpos := some (h, slot) }.enter y

variable (cc s i y) in
/-- **What one symbol does**, by its kind and by what is found under its name. -/
inductive SymStep : Ld → Prop
  | seg_known {k : ℕ} (hfl : y.x_sy_fl = X_SY_SEG) (hf : s.find cc .seghash y.x_sy_name = .found k) :
      SymStep (s.set_symap i k)
  | seg_new {slot : ℕ} (hfl : y.x_sy_fl = X_SY_SEG)
      (hf : s.find cc .seghash y.x_sy_name = .vacant slot) :
      SymStep ((s.set_symap i s.symlev).enter_at .seghash slot y)
  | local_passed (hfl : y.x_sy_fl = X_SY_LOC) (hno : s.nolocal = true) :
      SymStep (s.set_symap i s.symlev).discard
  | local_new (hfl : y.x_sy_fl = X_SY_LOC) (hno : s.nolocal = false) :
      SymStep ((s.set_symap i s.symlev).discard.enter (s.local_sym y))
  | unx_known {k : ℕ} (hfl : y.x_sy_fl = X_SY_UNX) (hf : s.find cc .symhash y.x_sy_name = .found k) :
      SymStep ((s.set_sym k (raised (s.symtab k) y)).set_symap i k)
  | unx_new {slot : ℕ} (hfl : y.x_sy_fl = X_SY_UNX)
      (hf : s.find cc .symhash y.x_sy_name = .vacant slot) :
      SymStep (((s.set_symap i s.symlev).set_udefcnt (s.udefcnt + 1)).enter_at .symhash slot y)
  | glb_defines {k : ℕ} (hfl : y.x_sy_fl = X_SY_GLB) (hf : s.find cc .symhash y.x_sy_name = .found k)
      (hk : (s.symtab k).x_sy_fl = X_SY_UNX) :
      SymStep (((s.set_symap i k).set_udefcnt (s.udefcnt - 1)).set_sym k (s.global_sym cc y))
  | glb_again {k : ℕ} (hfl : y.x_sy_fl = X_SY_GLB) (hf : s.find cc .symhash y.x_sy_name = .found k)
      (hk : (s.symtab k).x_sy_fl ≠ X_SY_UNX) : SymStep (s.set_symap i k).err
  | glb_new {slot : ℕ} (hfl : y.x_sy_fl = X_SY_GLB)
      (hf : s.find cc .symhash y.x_sy_name = .vacant slot) :
      SymStep ((s.set_symap i s.symlev).enter_at .symhash slot (s.global_sym cc y))
  | other (hseg : y.x_sy_fl ≠ X_SY_SEG) (hloc : y.x_sy_fl ≠ X_SY_LOC) (hunx : y.x_sy_fl ≠ X_SY_UNX)
      (hglb : y.x_sy_fl ≠ X_SY_GLB) : SymStep ((s.set_symap i s.symlev).enter y)

theorem set_symap_set_symap (s : Ld) (i j k : ℕ) : (s.set_symap i j).set_symap i k = s.set_symap i k := by
  rw [set_symap, set_symap, set_symap, Function.update_idem]

theorem p1sym_step (hs : s.p1sym cc i y = some s') : SymStep cc s i y s' := by
  unfold p1sym at hs
  dsimp only at hs
  by_cases hseg : y.x_sy_fl = X_SY_SEG
  · rw [if_pos hseg] at hs
    rcases hl : (s.set_symap i s.symlev).look cc .seghash y.x_sy_name with _ | ⟨t, _ | k⟩ <;>
      rw [hl] at hs
    · cases hs
    · obtain ⟨slot, rfl, hf⟩ := look_none hl
      obtain rfl := Option.some.inj hs
      exact .seg_new hseg hf
    · obtain ⟨rfl, hf⟩ := look_some hl
      obtain rfl := Option.some.inj hs
      rw [set_symap_set_symap]
      exact .seg_known hseg hf
  rw [if_neg hseg] at hs
  by_cases hloc : y.x_sy_fl = X_SY_LOC
  · rw [if_pos hloc] at hs
    cases hno : s.nolocal with
    | true =>
      have hno' : (s.set_symap i s.symlev).nolocal = true := hno
      rw [if_pos hno'] at hs
      obtain rfl := Option.some.inj hs
      exact .local_passed hloc hno
    | false =>
      have hno' : ¬ (s.set_symap i s.symlev).nolocal = true := ne_true_of_eq_false hno
      rw [if_neg hno'] at hs
      obtain rfl := Option.some.inj hs
      exact .local_new hloc hno
  rw [if_neg hloc] at hs
  by_cases hunx : y.x_sy_fl = X_SY_UNX
  · rw [if_pos hunx] at hs
    rcases hl : (s.set_symap i s.symlev).look cc .symhash y.x_sy_name with _ | ⟨t, _ | k⟩ <;>
      rw [hl] at hs
    · cases hs
    · obtain ⟨slot, rfl, hf⟩ := look_none hl
      obtain rfl := Option.some.inj hs
      exact .unx_new hunx hf
    · obtain ⟨rfl, hf⟩ := look_some hl
      obtain rfl := Option.some.inj hs
      have hsame : ((s.set_symap i s.symlev).set_sym k (raised (s.symtab k) y)).set_symap i k =
          (s.set_sym k (raised (s.symtab k) y)).set_symap i k :=
        set_symap_set_symap (s.set_sym k (raised (s.symtab k) y)) i s.symlev k
      change SymStep cc s i y (((s.set_symap i s.symlev).set_sym k (raised (s.symtab k) y)).set_symap i k)
      rw [hsame]
      exact .unx_known hunx hf
  rw [if_neg hunx] at hs
  by_cases hglb : y.x_sy_fl = X_SY_GLB
  · rw [if_pos hglb] at hs
    rcases hl : (s.set_symap i s.symlev).look cc .symhash y.x_sy_name with _ | ⟨t, _ | k⟩ <;>
      rw [hl] at hs
    · cases hs
    · obtain ⟨slot, rfl, hf⟩ := look_none hl
      obtain rfl := Option.some.inj hs
      exact .glb_new hglb hf
    · obtain ⟨rfl, hf⟩ := look_some hl
      dsimp only at hs
      rw [set_symap_set_symap] at hs
      by_cases hk : (s.symtab k).x_sy_fl = X_SY_UNX
      · have hk' : ((s.set_symap i k).symtab k).x_sy_fl = X_SY_UNX := hk
        rw [if_pos hk'] at hs
        obtain rfl := Option.some.inj hs
        exact .glb_defines hglb hf hk
      · have hk' : ¬ ((s.set_symap i k).symtab k).x_sy_fl = X_SY_UNX := hk
        rw [if_neg hk'] at hs
        obtain rfl := Option.some.inj hs
        exact .glb_again hglb hf hk
  · rw [if_neg hglb] at hs
    obtain rfl := Option.some.inj hs
    exact .other hseg hloc hunx hglb

/-- The state but for what the symbols are kept in. -/
def SymFrame (s t : Ld) : Prop :=
  ∃ symap htab hpos symtab symlev udefcnt errcnt, t =
    { s with
      symap := symap
      htab := htab
      hpos := hpos
      symtab := symtab
      symlev := symlev
      udefcnt := udefcnt
      errcnt := errcnt }

namespace SymFrame

theorem refl (s : Ld) : SymFrame s s := ⟨_, _, _, _, _, _, _, rfl⟩

theorem trans (h : SymFrame s s') (h' : SymFrame s' t) : SymFrame s t := by
  obtain ⟨_, _, _, _, _, _, _, rfl⟩ := h
  obtain ⟨_, _, _, _, _, _, _, rfl⟩ := h'
  exact ⟨_, _, _, _, _, _, _, rfl⟩

theorem enter (s : Ld) (y : XSym) : SymFrame s (s.enter y) := by
  unfold Ld.enter set_hpos
  cases s.hpos with
  | none => exact ⟨_, _, _, _, _, _, _, rfl⟩
  | some p => exact ⟨_, _, _, _, _, _, _, rfl⟩

end SymFrame

theorem SymStep.frame (hs : SymStep cc s i y s') : SymFrame s s' := by
  cases hs with
  | seg_known _ _ => exact ⟨_, _, _, _, _, _, _, rfl⟩
  | seg_new _ _ => exact ⟨_, _, _, _, _, _, _, rfl⟩
  | local_passed _ _ => exact ⟨_, _, _, _, _, _, _, rfl⟩
  | local_new _ _ => exact ⟨_, _, _, _, _, _, _, rfl⟩
  | unx_known _ _ => exact ⟨_, _, _, _, _, _, _, rfl⟩
  | unx_new _ _ => exact ⟨_, _, _, _, _, _, _, rfl⟩
  | glb_defines _ _ _ => exact ⟨_, _, _, _, _, _, _, rfl⟩
  | glb_again _ _ _ => exact ⟨_, _, _, _, _, _, _, rfl⟩
  | glb_new _ _ => exact ⟨_, _, _, _, _, _, _, rfl⟩
  | other _ _ _ _ =>
    have hsymap : SymFrame s (s.set_symap i s.symlev) := ⟨_, _, _, _, _, _, _, rfl⟩
    exact hsymap.trans (.enter _ y)

/-- What one symbol keeps, of the symbols so far and the state, the symbols of a module keep. -/
theorem p1dosym_induction {I : List XSym → Ld → Prop} {f : XFile} {ys : List XSym}
    (h : s.p1dosym cc f = some t) (hs : I ys s)
    (hstep : ∀ y ∈ f.x_sym, ∀ (ys : List XSym) (u u' : Ld) (i : ℕ), I ys u → SymStep cc u i y u' →
      I (ys ++ [y]) u') : I (ys ++ f.x_sym) t := by
  have hrun := foldlM_induction (I := fun pre u => I (ys ++ pre.map Prod.fst) u) h ?_ ?_
  · rw [List.zipIdx_map_fst] at hrun
    exact hrun
  · rw [List.map_nil, List.append_nil]
    exact hs
  · rintro pre ⟨y, i⟩ post u u' hsplit - hu hy
    have hmem : (y, i) ∈ f.x_sym.zipIdx := by simp [hsplit]
    rw [List.map_append, ← List.append_assoc]
    exact hstep y (List.fst_mem_of_mem_zipIdx hmem) _ u u' i hu (p1sym_step hy)

theorem p1dosym_frame {f : XFile} (h : s.p1dosym cc f = some t) : SymFrame s t := by
  refine @p1dosym_induction cc s t (fun _ u => SymFrame s u) f [] h (.refl s) ?_
  intro y _ ys u u' i hu hstep
  exact hu.trans hstep.frame

/-- **What the first pass keeps**, of the symbols so far and the state: the placement of segments, each
symbol, and what is not a load. -/
theorem Loads.symbols {I : List XSym → Ld → Prop} {l : List (Ld × XFile)} (h : Loads cc s l t)
    (hs : I [] s) (hquiet : ∀ ys u u', Quiet u u' → I ys u → I ys u')
    (hseg : ∀ ys u u', SegFrame u u' → I ys u → I ys u')
    (hstep : ∀ x ∈ l, ∀ y ∈ x.2.x_sym, ∀ (ys : List XSym) (u u' : Ld) (i : ℕ), I ys u →
      SymStep cc u i y u' → I (ys ++ [y]) u') : I (l.flatMap fun x => x.2.x_sym) t := by
  induction h with
  | nil => exact hs
  | quiet _ hq ih => exact hquiet _ _ _ hq (ih hstep)
  | @load l u t f _ hm ih =>
    have hu := ih fun x hx => hstep x (List.mem_append_left _ hx)
    unfold p1module at hm
    obtain ⟨v, hv, hsym⟩ := Option.bind_eq_some_iff.mp hm
    rw [List.flatMap_append, List.flatMap_singleton]
    exact p1dosym_induction hsym (hseg _ _ _ (p1doseg_frame hv) hu) (hstep (u, f) (by simp))

/-! ## 2. The count of undefined symbols -/

/-- One element of a list of numbers gets another value. -/
theorem countP_update {α : Type*} (p : α → Bool) (f : ℕ → α) (z : α) {k : ℕ} {l : List ℕ}
    (hl : l.Nodup) (hk : k ∈ l) :
    l.countP (fun j => p (Function.update f k z j)) + (if p (f k) then 1 else 0) =
      l.countP (fun j => p (f j)) + if p z then 1 else 0 := by
  induction l with
  | nil => cases hk
  | cons j l ih =>
    rw [List.nodup_cons] at hl
    rw [List.countP_cons, List.countP_cons]
    by_cases hj : k = j
    · rw [← hj, Function.update_self]
      have hrest : l.countP (fun j => p (Function.update f k z j)) = l.countP fun j => p (f j) := by
        refine List.countP_congr fun i hi => ?_
        have hne : i ≠ k := fun heq => hl.1 (hj ▸ heq ▸ hi)
        rw [Function.update_of_ne hne]
      rw [hrest]
      omega
    · have hmem : k ∈ l := (List.mem_cons.mp hk).resolve_left hj
      rw [Function.update_of_ne (Ne.symm hj)]
      have := ih hl.2 hmem
      omega

/-- The number of symbols of kind `UNX`. -/
def unx (s : Ld) : ℕ :=
  (List.range' 1 (s.symlev - 1)).countP fun j => decide ((s.symtab j).x_sy_fl = X_SY_UNX)

/-- **The count is right**, and the hash tables lead to symbols. -/
structure Counted (s : Ld) : Prop where
  pos : 1 ≤ s.symlev
  range : ∀ h slot j, s.htab h slot = some j → 1 ≤ j ∧ j < s.symlev
  count : s.udefcnt = s.unx

theorem enter_symlev (s : Ld) (y : XSym) : (s.enter y).symlev = s.symlev + 1 := by
  unfold enter set_hpos
  cases s.hpos <;> rfl

theorem enter_symtab (s : Ld) (y : XSym) :
    (s.enter y).symtab = Function.update s.symtab s.symlev y := by
  unfold enter set_hpos
  cases s.hpos <;> rfl

theorem enter_udefcnt (s : Ld) (y : XSym) : (s.enter y).udefcnt = s.udefcnt := by
  unfold enter set_hpos
  cases s.hpos <;> rfl

theorem unx_enter (s : Ld) (y : XSym) (hpos : 1 ≤ s.symlev) :
    (s.enter y).unx = s.unx + if y.x_sy_fl = X_SY_UNX then 1 else 0 := by
  have hrange : List.range' 1 (s.symlev + 1 - 1) = List.range' 1 (s.symlev - 1) ++ [s.symlev] := by
    have hconcat := @List.range'_concat 1 1 (s.symlev - 1)
    rw [Nat.one_mul, Nat.add_sub_cancel' hpos, Nat.sub_add_cancel hpos] at hconcat
    exact hconcat
  unfold unx
  rw [enter_symlev, enter_symtab, hrange, List.countP_append, List.countP_singleton]
  simp only [Function.update_self, decide_eq_true_eq]
  congr 1
  refine List.countP_congr fun j hj => ?_
  have hlt := List.mem_range'_1.mp hj
  have hne : j ≠ s.symlev := by omega
  rw [Function.update_of_ne hne]

theorem unx_set_sym (s : Ld) {k : ℕ} (z : XSym) (hk : 1 ≤ k ∧ k < s.symlev) :
    (s.set_sym k z).unx + (if (s.symtab k).x_sy_fl = X_SY_UNX then 1 else 0) =
      s.unx + if z.x_sy_fl = X_SY_UNX then 1 else 0 := by
  have hmem : k ∈ List.range' 1 (s.symlev - 1) := List.mem_range'_1.mpr (by omega)
  have h := countP_update (fun y : XSym => decide (y.x_sy_fl = X_SY_UNX)) s.symtab z List.nodup_range'
    hmem
  simp only [decide_eq_true_eq] at h
  exact h

/-- What `*hpos = n` puts into the tables. -/
theorem of_set_hpos {n j slot : ℕ} (hj : (s.set_hpos n).htab h slot = some j) :
    j = n ∨ s.htab h slot = some j := by
  unfold set_hpos at hj
  cases hp : s.hpos with
  | none =>
    rw [hp] at hj
    exact .inr hj
  | some p =>
    obtain ⟨h', slot'⟩ := p
    rw [hp] at hj
    dsimp only at hj
    by_cases hh : h = h'
    · rw [hh, Function.update_self] at hj
      by_cases hs : slot = slot'
      · rw [hs, Function.update_self] at hj
        exact .inl (Option.some.inj hj).symm
      · rw [Function.update_of_ne hs] at hj
        exact .inr (hh ▸ hj)
    · rw [Function.update_of_ne hh] at hj
      exact .inr hj

namespace Counted

/-- Entering a symbol, when the count is for it already. -/
theorem enter (hc : Counted s) {n : ℤ} (hp : Option (Htab × ℕ))
    (hn : n = s.udefcnt + if y.x_sy_fl = X_SY_UNX then 1 else 0) :
    Counted ({ s with hpos := hp, udefcnt := n }.enter y) := by
  have hsymlev := enter_symlev { s with hpos := hp, udefcnt := n } y
  have hudefcnt := enter_udefcnt { s with hpos := hp, udefcnt := n } y
  have hunx := unx_enter { s with hpos := hp, udefcnt := n } y hc.pos
  refine ⟨?_, ?_, ?_⟩
  · rw [hsymlev]
    exact Nat.le_add_left 1 _
  · intro h slot j hj
    rw [hsymlev]
    rcases of_set_hpos hj with rfl | hj
    · exact ⟨hc.pos, Nat.lt_succ_self _⟩
    · obtain ⟨hone, hlt⟩ := hc.range h slot j hj
      exact ⟨hone, Nat.lt_succ_of_lt hlt⟩
  · have hsame : ({ s with hpos := hp, udefcnt := n } : Ld).unx = s.unx := rfl
    rw [hudefcnt, hunx, hsame, hn, hc.count]
    split_ifs
    · rfl
    · rfl

theorem quiet (hc : Counted s) (hq : Quiet s t) : Counted t := by
  obtain ⟨_, _, _, _, _, _, _, rfl⟩ := hq
  exact ⟨hc.pos, hc.range, hc.count⟩

theorem set_symap (hc : Counted s) (i k : ℕ) : Counted (s.set_symap i k) := ⟨hc.pos, hc.range, hc.count⟩

/-- A change of a symbol, of which the count knows. -/
theorem set_sym (hc : Counted s) {n : ℤ} {z : XSym} (hk : 1 ≤ k ∧ k < s.symlev)
    (hn : n + (if (s.symtab k).x_sy_fl = X_SY_UNX then 1 else 0) =
      s.udefcnt + if z.x_sy_fl = X_SY_UNX then 1 else 0) :
    Counted ((s.set_udefcnt n).set_sym k z) := by
  refine ⟨hc.pos, hc.range, ?_⟩
  have hunx := unx_set_sym s z hk
  change n = ((s.set_sym k z).unx : ℤ)
  rw [hc.count] at hn
  split_ifs at hn hunx
  · omega
  · omega
  · omega
  · omega

/-- What a search finds is a symbol of the table. -/
theorem found (hc : Counted s) (hf : s.find cc h name = .found k) : 1 ≤ k ∧ k < s.symlev := by
  obtain ⟨-, slot, -, hslot⟩ := of_probe_found hf
  exact hc.range h slot k hslot

/-- **One symbol.** -/
theorem step (hc : Counted s) (hs : SymStep cc s i y s') : Counted s' := by
  have henter : ∀ (z : XSym) (hp : Option (Htab × ℕ)), z.x_sy_fl ≠ X_SY_UNX →
      Counted ({ s.set_symap i s.symlev with hpos := hp }.enter z) := by
    intro z hp hz
    refine (hc.set_symap i s.symlev).enter hp ?_
    rw [if_neg hz, add_zero]
  have hkinds : X_SY_SEG ≠ X_SY_UNX ∧ X_SY_LOC ≠ X_SY_UNX ∧ X_SY_GLB ≠ X_SY_UNX := by decide
  cases hs with
  | seg_known _ _ => exact hc.set_symap i _
  | seg_new hfl _ => exact henter y _ (hfl ▸ hkinds.1)
  | local_passed _ _ => exact ⟨hc.pos, hc.range, hc.count⟩
  | local_new hfl _ =>
    refine henter _ none ?_
    have hsame : (s.local_sym y).x_sy_fl = y.x_sy_fl := by
      unfold local_sym
      dsimp only
      split_ifs <;> rfl
    rw [hsame, hfl]
    exact hkinds.2.1
  | @unx_known k _ hf =>
    refine Counted.set_symap ?_ i _
    refine hc.set_sym (hc.found hf) ?_
    have hsame : (raised (s.symtab k) y).x_sy_fl = (s.symtab k).x_sy_fl := by
      unfold raised
      split_ifs <;> rfl
    rw [hsame]
  | unx_new hfl _ =>
    refine (hc.set_symap i s.symlev).enter _ ?_
    rw [if_pos hfl]
    rfl
  | @glb_defines k hfl hf hk =>
    refine (hc.set_symap i _).set_sym (hc.found hf) ?_
    have hglb : ¬ (s.global_sym cc y).x_sy_fl = X_SY_UNX := by
      change ¬ y.x_sy_fl = X_SY_UNX
      rw [hfl]
      exact hkinds.2.2
    have hk' : ((s.set_symap i k).symtab k).x_sy_fl = X_SY_UNX := hk
    rw [if_pos hk', if_neg hglb]
    change s.udefcnt - 1 + 1 = s.udefcnt + 0
    omega
  | glb_again _ _ _ => exact (hc.set_symap i _).quiet (.err _)
  | glb_new hfl _ =>
    refine henter _ _ ?_
    change ¬ y.x_sy_fl = X_SY_UNX
    rw [hfl]
    exact hkinds.2.2
  | other _ _ hunx _ => exact henter y s.hpos hunx

theorem seg_frame (hc : Counted s) (hf : SegFrame s t) : Counted t := by
  obtain ⟨_, _, _, _, _, _, _, _, _, _, _, _, _, rfl⟩ := hf
  exact ⟨hc.pos, hc.range, hc.count⟩

/-- **The count is right after every module.** -/
theorem loads {l : List (Ld × XFile)} (hc : Counted s) (h : Loads cc s l t) : Counted t := by
  refine h.symbols (I := fun _ u => Counted u) hc ?_ ?_ ?_
  · intro _ u u' hq hu
    exact hu.quiet hq
  · intro _ u u' hf hu
    exact hu.seg_frame hf
  · intro x _ y _ _ u u' i hu hstep
    exact hu.step hstep

end Counted

end Ld

end Cpm8000.Linker
