/-
# Common symbols

A name that is never defined and has a size gets a place when all modules are loaded. Its size is the
greatest any module declares for it (`Sized`), and the places are behind those of the modules' segments
and one behind the other (`p1commons_filled`). Rounding up the beginning of a place comes after the test
of its end, and the stack is tested with 16 bits of its size, so a segment may come out as 64 KB:
`commons_placed` has the condition, `sixtyFourK_common` a run.
-/
import Cpm8000.Linker.Ready

namespace Cpm8000.Linker

open Sys

/-! ## 1. Sizes -/

/-- The greatest size some symbols declare for a name. -/
def declared (ys : List XSym) (name : List Byte) : ℕ :=
  (ys.filter fun y => y.x_sy_fl = X_SY_UNX ∧ cname y.x_sy_name = name).foldl
    (fun m y => max m y.x_sy_val.toNat) 0

theorem declared_snoc (ys : List XSym) (y : XSym) (name : List Byte) : declared (ys ++ [y]) name =
    if y.x_sy_fl = X_SY_UNX ∧ cname y.x_sy_name = name then max (declared ys name) y.x_sy_val.toNat
    else declared ys name := by
  unfold declared
  rw [List.filter_append, List.foldl_append]
  split_ifs with h
  · rw [List.filter_singleton, decide_eq_true h]
    rfl
  · rw [List.filter_singleton, decide_eq_false h]
    rfl

theorem declared_eq_zero {ys : List XSym} {name : List Byte}
    (h : ∀ y ∈ ys, y.x_sy_fl = X_SY_UNX → cname y.x_sy_name ≠ name) : declared ys name = 0 := by
  have hnone : (ys.filter fun y => y.x_sy_fl = X_SY_UNX ∧ cname y.x_sy_name = name) = [] := by
    rw [List.filter_eq_nil_iff]
    intro y hy hboth
    have := of_decide_eq_true hboth
    exact h y hy this.1 this.2
  rw [declared, hnone]
  rfl

namespace Ld

variable {cc : Compiler} {s s' t u : Ld} {ys : List XSym} {y z : XSym} {i j k : ℕ}

/-- **The size of an undefined symbol** is the greatest that is declared, and what is declared is in the
table. -/
structure Sized (ys : List XSym) (s : Ld) : Prop where
  size : ∀ j, s.Has j → (s.symtab j).x_sy_fl = X_SY_UNX →
    (s.symtab j).x_sy_val.toNat = declared ys (key s.symtab j)
  seen : ∀ y ∈ ys, y.x_sy_fl = X_SY_UNX → ∃ j, s.Has j ∧ Htab.symhash.Holds (s.symtab j).x_sy_fl ∧
    key s.symtab j = cname y.x_sy_name

namespace Sized

/-- Symbols that stay what they are. -/
theorem of_kept (hz : Sized ys s)
    (hold : ∀ j, t.Has j → (t.symtab j).x_sy_fl = X_SY_UNX → s.Has j ∧ t.symtab j = s.symtab j)
    (hnew : ∀ j, s.Has j → Htab.symhash.Holds (s.symtab j).x_sy_fl → t.Has j ∧
      Htab.symhash.Holds (t.symtab j).x_sy_fl ∧ key t.symtab j = key s.symtab j) : Sized ys t := by
  constructor
  · intro j hhas hfl
    obtain ⟨hhas', hsame⟩ := hold j hhas hfl
    rw [hsame] at hfl ⊢
    rw [key, hsame]
    exact hz.size j hhas' hfl
  · intro y hy hfl
    obtain ⟨j, hhas, hholds, hkey⟩ := hz.seen y hy hfl
    obtain ⟨hhas', hholds', hkey'⟩ := hnew j hhas hholds
    exact ⟨j, hhas', hholds', hkey'.trans hkey⟩

theorem of_same (hz : Sized ys s) (hsymtab : t.symtab = s.symtab) (hsymlev : t.symlev = s.symlev) :
    Sized ys t := by
  refine hz.of_kept ?_ ?_
  · intro j hhas _
    rw [Has, hsymlev] at hhas
    exact ⟨hhas, congrFun hsymtab j⟩
  · intro j hhas hholds
    rw [Has, hsymlev, hsymtab]
    exact ⟨hhas, hholds, rfl⟩

/-- A symbol that declares no size. -/
theorem snoc (hz : Sized ys s) (hy : y.x_sy_fl ≠ X_SY_UNX) : Sized (ys ++ [y]) s := by
  constructor
  · intro j hhas hfl
    rw [declared_snoc, if_neg fun h => hy h.1]
    exact hz.size j hhas hfl
  · intro w hw hfl
    rcases List.mem_append.mp hw with hw | hw
    · exact hz.seen w hw hfl
    · rw [List.mem_singleton] at hw
      rw [hw] at hfl
      exact absurd hfl hy

/-- A symbol is entered that is not undefined. -/
theorem enter (hz : Sized ys s) (hp : Option (Htab × ℕ)) (hzfl : z.x_sy_fl ≠ X_SY_UNX) :
    Sized ys ({ s with hpos := hp }.enter z) := by
  have hsymlev := enter_symlev { s with hpos := hp } z
  have hsymtab := enter_symtab { s with hpos := hp } z
  refine hz.of_kept ?_ ?_
  · intro j hhas hfl
    rw [Has, hsymlev] at hhas
    rw [hsymtab] at hfl ⊢
    by_cases hj : j = s.symlev
    · rw [hj, Function.update_self] at hfl
      exact absurd hfl hzfl
    · have hhas' : s.Has j := ⟨hhas.1, lt_of_le_of_ne (Nat.le_of_lt_succ hhas.2) hj⟩
      exact ⟨hhas', Named.update_of_has hhas'⟩
  · intro j hhas hholds
    rw [Has, hsymlev, hsymtab]
    refine ⟨⟨hhas.1, Nat.lt_succ_of_lt hhas.2⟩, ?_, Named.key_update hhas⟩
    rw [Named.update_of_has hhas]
    exact hholds

/-- What a reference does to the symbol of its name. -/
theorem raised_spec (z y : XSym) : (raised z y).x_sy_fl = z.x_sy_fl ∧
    (raised z y).x_sy_name = z.x_sy_name ∧
      (raised z y).x_sy_val.toNat = max z.x_sy_val.toNat y.x_sy_val.toNat := by
  unfold raised
  by_cases h : z.x_sy_val < y.x_sy_val
  · rw [if_pos h]
    refine ⟨rfl, rfl, ?_⟩
    rw [BitVec.lt_def] at h
    exact (Nat.max_eq_right (Nat.le_of_lt h)).symm
  · rw [if_neg h]
    refine ⟨rfl, rfl, ?_⟩
    rw [BitVec.lt_def, not_lt] at h
    exact (Nat.max_eq_left h).symm

/-- A reference to a name that is there. -/
theorem refer (hz : Sized ys s) (hn : Named cc s) (hy : y.x_sy_fl = X_SY_UNX)
    (hf : s.find cc .symhash y.x_sy_name = .found k) :
    Sized (ys ++ [y]) (s.set_sym k (raised (s.symtab k) y)) := by
  obtain ⟨hhas, hholds, hkey⟩ := hn.find_iff.mp hf
  obtain ⟨hfl, hname, hval⟩ := raised_spec (s.symtab k) y
  have hat : (s.set_sym k (raised (s.symtab k) y)).symtab k = raised (s.symtab k) y :=
    Function.update_self ..
  have hothers : ∀ j, j ≠ k → (s.set_sym k (raised (s.symtab k) y)).symtab j = s.symtab j :=
    fun j hj => Function.update_of_ne hj ..
  have hkeys : ∀ j, key (s.set_sym k (raised (s.symtab k) y)).symtab j = key s.symtab j := by
    intro j
    by_cases hj : j = k
    · rw [key, hj, hat, hname]
      rfl
    · rw [key, hothers j hj]
      rfl
  constructor
  · intro j hjhas hjfl
    rw [hkeys, declared_snoc]
    by_cases hj : j = k
    · rw [hj] at hjfl ⊢
      rw [hat] at hjfl ⊢
      rw [hfl] at hjfl
      rw [if_pos ⟨hy, hkey.symm⟩, hval, hz.size k hhas hjfl]
    · rw [hothers j hj] at hjfl ⊢
      have hne : cname y.x_sy_name ≠ key s.symtab j := by
        intro heq
        exact hj (hn.unique (h := .symhash) hjhas hhas (.inl hjfl) hholds (heq.symm.trans hkey.symm))
      rw [if_neg fun h => hne h.2]
      exact hz.size j hjhas hjfl
  · intro w hw hwfl
    rw [List.mem_append, List.mem_singleton] at hw
    have hseen : ∃ j, s.Has j ∧ Htab.symhash.Holds (s.symtab j).x_sy_fl ∧
        key s.symtab j = cname w.x_sy_name := by
      rcases hw with hw | rfl
      · exact hz.seen w hw hwfl
      · exact ⟨k, hhas, hholds, hkey⟩
    obtain ⟨j, hjhas, hjholds, hjkey⟩ := hseen
    refine ⟨j, hjhas, ?_, (hkeys j).trans hjkey⟩
    by_cases hj : j = k
    · rw [hj] at hjholds ⊢
      rw [hat, hfl]
      exact hjholds
    · rw [hothers j hj]
      exact hjholds

/-- A reference to a new name. -/
theorem refer_new (hz : Sized ys s) (hn : Named cc s) (hy : y.x_sy_fl = X_SY_UNX) {slot : ℕ}
    (hf : s.find cc .symhash y.x_sy_name = .vacant slot) :
    Sized (ys ++ [y]) (s.enter_at .symhash slot y) := by
  have hnone : declared ys (cname y.x_sy_name) = 0 := by
    refine declared_eq_zero fun w hw hwfl heq => ?_
    obtain ⟨j, hjhas, hjholds, hjkey⟩ := hz.seen w hw hwfl
    exact hn.ne_of_vacant hf hjhas hjholds (hjkey.trans heq)
  constructor
  · intro j hhas hfl
    change (Function.update s.symtab s.symlev y j).x_sy_fl = X_SY_UNX at hfl
    change (Function.update s.symtab s.symlev y j).x_sy_val.toNat =
      declared (ys ++ [y]) (key (Function.update s.symtab s.symlev y) j)
    rw [declared_snoc]
    by_cases hj : j = s.symlev
    · rw [hj, key, Function.update_self, if_pos ⟨hy, rfl⟩, hnone, Nat.zero_max]
    · have hhas' : s.Has j := ⟨hhas.1, lt_of_le_of_ne (Nat.le_of_lt_succ hhas.2) hj⟩
      rw [Named.update_of_has hhas'] at hfl ⊢
      rw [Named.key_update hhas']
      have hne : ¬ (y.x_sy_fl = X_SY_UNX ∧ cname y.x_sy_name = key s.symtab j) := by
        rintro ⟨-, heq⟩
        exact hn.ne_of_vacant hf hhas' (.inl hfl) heq.symm
      rw [if_neg hne]
      exact hz.size j hhas' hfl
  · intro w hw hwfl
    rw [List.mem_append, List.mem_singleton] at hw
    change ∃ j, (s.enter_at .symhash slot y).Has j ∧
      Htab.symhash.Holds (Function.update s.symtab s.symlev y j).x_sy_fl ∧
        key (Function.update s.symtab s.symlev y) j = cname w.x_sy_name
    rcases hw with hw | rfl
    · obtain ⟨j, hjhas, hjholds, hjkey⟩ := hz.seen w hw hwfl
      refine ⟨j, ⟨hjhas.1, Nat.lt_succ_of_lt hjhas.2⟩, ?_, ?_⟩
      · rw [Named.update_of_has hjhas]
        exact hjholds
      · rw [Named.key_update hjhas]
        exact hjkey
    · refine ⟨s.symlev, ⟨hn.pos, Nat.lt_succ_self _⟩, ?_, ?_⟩
      · rw [Function.update_self]
        exact .inl hwfl
      · rw [key, Function.update_self]

/-- **One symbol of the four kinds.** -/
theorem step (hz : Sized ys s) (hn : Named cc s) (hy : y.Known) (hs : SymStep cc s i y s') :
    Sized (ys ++ [y]) s' := by
  have hkinds : X_SY_SEG ≠ X_SY_UNX ∧ X_SY_LOC ≠ X_SY_UNX ∧ X_SY_GLB ≠ X_SY_UNX := by decide
  have hsymap : ∀ k, Sized ys (s.set_symap i k) := fun _ => hz.of_same rfl rfl
  cases hs with
  | seg_known hfl _ => exact (hsymap _).snoc (hfl ▸ hkinds.1)
  | seg_new hfl _ => exact ((hsymap _).enter _ (hfl ▸ hkinds.1)).snoc (hfl ▸ hkinds.1)
  | local_passed hfl _ => exact (hz.snoc (hfl ▸ hkinds.2.1)).of_same rfl rfl
  | local_new hfl _ =>
    have hloc : (s.local_sym y).x_sy_fl ≠ X_SY_UNX := by
      have hsame : (s.local_sym y).x_sy_fl = y.x_sy_fl := by
        unfold local_sym
        dsimp only
        split_ifs <;> rfl
      rw [hsame, hfl]
      exact hkinds.2.1
    exact ((hsymap _).enter _ hloc).snoc (hfl ▸ hkinds.2.1)
  | unx_known hfl hf => exact (hz.refer hn hfl hf).of_same rfl rfl
  | unx_new hfl hf =>
    have hsame : Sized ys ((s.set_symap i s.symlev).set_udefcnt (s.udefcnt + 1)) := hz.of_same rfl rfl
    have hnsame : Named cc ((s.set_symap i s.symlev).set_udefcnt (s.udefcnt + 1)) :=
      hn.of_same rfl rfl rfl
    exact hsame.refer_new hnsame hfl hf
  | @glb_defines k hfl hf hk =>
    have hglb : (s.global_sym cc y).x_sy_fl ≠ X_SY_UNX := by
      change y.x_sy_fl ≠ X_SY_UNX
      rw [hfl]
      exact hkinds.2.2
    obtain ⟨hhas, hholds, hkey⟩ := hn.find_iff.mp hf
    refine Sized.snoc ?_ (hfl ▸ hkinds.2.2)
    refine hz.of_kept ?_ ?_
    · intro j hjhas hjfl
      change (Function.update s.symtab k (s.global_sym cc y) j).x_sy_fl = X_SY_UNX at hjfl
      by_cases hj : j = k
      · rw [hj, Function.update_self] at hjfl
        exact absurd hjfl hglb
      · exact ⟨hjhas, Function.update_of_ne hj ..⟩
    · intro j hjhas hjholds
      change _ ∧ Htab.symhash.Holds (Function.update s.symtab k (s.global_sym cc y) j).x_sy_fl ∧
        key (Function.update s.symtab k (s.global_sym cc y)) j = key s.symtab j
      refine ⟨hjhas, ?_⟩
      by_cases hj : j = k
      · rw [hj, key, Function.update_self]
        exact ⟨.inr hfl, hkey.symm⟩
      · rw [key, Function.update_of_ne hj]
        exact ⟨hjholds, rfl⟩
  | glb_again hfl _ _ => exact (hz.snoc (hfl ▸ hkinds.2.2)).of_same rfl rfl
  | glb_new hfl _ =>
    have hglb : (s.global_sym cc y).x_sy_fl ≠ X_SY_UNX := by
      change y.x_sy_fl ≠ X_SY_UNX
      rw [hfl]
      exact hkinds.2.2
    exact ((hsymap _).enter _ hglb).snoc (hfl ▸ hkinds.2.2)
  | other hseg hloc hunx hglb =>
    rcases hy with hy | hy | hy | hy
    · exact absurd hy hloc
    · exact absurd hy hunx
    · exact absurd hy hglb
    · exact absurd hy hseg

/-- **The sizes after every module.** -/
theorem loads {l : List (Ld × XFile)} (hr : Ready cc s) (h : Loads cc s l t)
    (hknown : ∀ x ∈ l, ∀ y ∈ x.2.x_sym, y.Known) : Sized (l.flatMap fun x => x.2.x_sym) t := by
  have hrun := h.symbols (I := fun ys u => Named cc u ∧ Sized ys u) ⟨hr.named, ?_, ?_⟩ ?_ ?_ ?_
  · exact hrun.2
  · intro j _ _
    rw [hr.unsized]
    rfl
  · exact List.forall_mem_nil _
  · rintro ys u u' hq ⟨hn, hz⟩
    refine ⟨hn.quiet hq, ?_⟩
    obtain ⟨_, _, _, _, _, _, _, rfl⟩ := hq
    exact hz.of_same rfl rfl
  · rintro ys u u' hf ⟨hn, hz⟩
    refine ⟨hn.seg_frame hf, ?_⟩
    obtain ⟨_, _, _, _, _, _, _, _, _, _, _, _, _, rfl⟩ := hf
    exact hz.of_same rfl rfl
  · rintro x hx y hy ys u u' i ⟨hn, hz⟩ hstep
    exact ⟨hn.step (hknown x hx y hy) hstep, hz.step hn (hknown x hx y hy) hstep⟩

end Sized

/-! ## 2. Places -/

/-- The places of the modules' segments. -/
def module_places (cc : Compiler) (l : List (Ld × XFile)) : List Place :=
  l.flatMap fun x => ((x.1.p1module cc x.2).map fun u => u.seg_places x.2).getD []

/-- **The segments of all modules** fill the output segments. -/
theorem Loads.filled {l : List (Ld × XFile)} (h : Loads cc s l t) (hp : s.Prealloc) :
    t.prelist = s.prelist ∧ ∃ ps : List Place, (∀ p ∈ ps, p.area ≤ SEGNO) ∧ Filled t.mark ps ∧
      module_places cc l = ps.map kept := by
  induction h with
  | nil => exact ⟨rfl, [], List.forall_mem_nil _, .nil _, rfl⟩
  | quiet _ hq ih =>
    obtain ⟨_, _, _, _, _, _, _, rfl⟩ := hq
    exact ih
  | @load l t t' f _ hm ih =>
    obtain ⟨hpre, ps, hareas, hfilled, hplaces⟩ := ih
    have hmod := hm
    unfold p1module at hm
    obtain ⟨v, hv, hsym⟩ := Option.bind_eq_some_iff.mp hm
    have hpt : t.Prealloc := by
      rw [Prealloc, hpre]
      exact hp
    obtain ⟨qs, hqareas, hqfilled, hqplaces⟩ := p1doseg_filled hpt hfilled hv
    have hprelist : v.prelist = t.prelist := by
      obtain ⟨_, _, _, _, _, _, _, _, _, _, _, _, _, rfl⟩ := p1doseg_frame hv
      rfl
    obtain ⟨_, _, _, _, _, _, _, rfl⟩ := p1dosym_frame hsym
    refine ⟨hprelist.trans hpre, ps ++ qs, ?_, hqfilled, ?_⟩
    · intro p hmem
      rcases List.mem_append.mp hmem with hmem | hmem
      · exact hareas p hmem
      · exact hqareas p hmem
    · rw [List.map_append, ← hplaces, ← hqplaces, module_places, List.flatMap_append,
        List.flatMap_singleton, hmod]
      rfl

/-- A symbol that is given a place when all modules are loaded. -/
def IsCommon (y : XSym) : Prop := y.x_sy_fl = X_SY_UNX ∧ y.x_sy_val ≠ 0

instance (y : XSym) : Decidable (IsCommon y) := inferInstanceAs (Decidable (_ ∧ _))

/-- Where symbol `i` is after the allocation, with its size from before. -/
def common_place (t u : Ld) (i : ℕ) : Place :=
  ⟨(u.symtab i).x_sy_sg.toNat, (u.symtab i).x_sy_val.toNat, (t.symtab i).x_sy_val.toNat⟩

/-- Where a common symbol of size `k` begins in segment `j`. -/
def common_start (s : Ld) (j : ℕ) (k : BitVec 16) : ℕ := if k.toNat > 1 then round (s.mark j) else s.mark j

theorem p1common_of_not (h : s.p1common i = some t) (hi : ¬ IsCommon (s.symtab i)) : t = s := by
  unfold p1common at h
  rw [IsCommon] at hi
  dsimp only at h
  rw [if_neg hi] at h
  exact (Option.some.inj h).symm

theorem p1common_eq (h : s.p1common i = some t) (hi : IsCommon (s.symtab i)) :
    ∃ j, s.findseg X_SG_BSS (s.symtab i).x_sy_val = some j ∧ t =
      { s with
        segtab := Function.update s.segtab j
          { s.segtab j with
            segtyp := newtyp (s.segtab j).segtyp X_SG_BSS
            segsiz := s.common_start j (s.symtab i).x_sy_val + (s.symtab i).x_sy_val.toNat }
        symtab := Function.update s.symtab i
          { s.symtab i with
            x_sy_val := BitVec.ofNat 16 (s.common_start j (s.symtab i).x_sy_val)
            x_sy_fl := X_SY_GLB
            x_sy_sg := BitVec.ofNat 8 j }
        udefcnt := s.udefcnt - 1 } := by
  unfold p1common at h
  rw [IsCommon] at hi
  dsimp only at h
  rw [if_pos hi] at h
  rcases hf : s.findseg X_SG_BSS (s.symtab i).x_sy_val with _ | j <;> rw [hf] at h
  · cases h
  · exact ⟨j, rfl, (Option.some.inj h).symm⟩

/-- The place fits, but for the last byte or two of a segment. -/
theorem common_start_spec {k : BitVec 16} (hk : k ≠ 0) (hfits : s.mark j + k.toNat < 65536) :
    s.mark j ≤ s.common_start j k ∧ s.common_start j k < 65536 ∧
      (1 < k.toNat → s.common_start j k % 2 = 0) := by
  have hpos : 0 < k.toNat := by
    rw [Nat.pos_iff_ne_zero]
    intro h
    exact hk (BitVec.eq_of_toNat_eq h)
  unfold common_start
  by_cases h : k.toNat > 1
  · rw [if_pos h]
    have hle := le_round (s.mark j)
    have heq := round_eq (s.mark j)
    refine ⟨hle, ?_, fun _ => round_mod_two _⟩
    omega
  · rw [if_neg h]
    refine ⟨le_refl _, ?_, fun h' => absurd h' h⟩
    omega

/-- The symbols `is` of a table have their places. -/
structure Allotted (t : Ld) (ps : List Place) (is : List ℕ) (w : Ld) : Prop where
  prelist : w.prelist = t.prelist
  stacksiz : w.stacksiz = t.stacksiz
  symlev : w.symlev = t.symlev
  rest : ∀ i, i ∉ is → w.symtab i = t.symtab i
  counted : Counted w
  filled : Filled w.mark
    (ps ++ (is.filter fun i => IsCommon (t.symtab i)).map (common_place t w))
  area : ∀ i ∈ is, IsCommon (t.symtab i) → (common_place t w i).area ≤ SEGNO
  aligned : ∀ i ∈ is, IsCommon (t.symtab i) → 1 < (common_place t w i).len →
    (common_place t w i).start % 2 = 0

namespace Allotted

variable {ps : List Place} {is : List ℕ}

/-- What the allocation of one symbol does to the places and the marks. -/
theorem place (ha : Allotted t ps is s) (hp : t.Prealloc) (hi : i ∉ is) (hc : IsCommon (t.symtab i))
    (h : s.p1common i = some s') : ∃ j start, s.findseg X_SG_BSS (t.symtab i).x_sy_val = some j ∧
      start = s.common_start j (t.symtab i).x_sy_val ∧ j ≤ SEGNO ∧ s.mark j ≤ start ∧
        (1 < (t.symtab i).x_sy_val.toNat → start % 2 = 0) ∧
          common_place t s' i = ⟨j, start, (t.symtab i).x_sy_val.toNat⟩ ∧
            (∀ k ∈ is, common_place t s' k = common_place t s k) ∧
              s'.mark = Function.update s.mark j (start + (t.symtab i).x_sy_val.toNat) := by
  have hsame := ha.rest i hi
  have hcs : IsCommon (s.symtab i) := hsame ▸ hc
  obtain ⟨j, hj, hs'⟩ := p1common_eq h hcs
  have hps : s.Prealloc := by
    rw [Prealloc, ha.prelist]
    exact hp
  have hj128 := findseg_le hps hj
  obtain ⟨-, hfits⟩ := findseg_fits hj
  obtain ⟨hle, hlt, heven⟩ := common_start_spec hcs.2 hfits
  rw [hsame] at hj hle hlt heven hs'
  refine ⟨j, s.common_start j (t.symtab i).x_sy_val, hj, rfl, hj128, hle, heven, ?_, ?_, ?_⟩
  · rw [hs', common_place]
    dsimp only
    rw [Function.update_self, BitVec.toNat_ofNat, BitVec.toNat_ofNat,
      Nat.mod_eq_of_lt (lt_of_le_of_lt hj128 (by decide)), Nat.mod_eq_of_lt hlt]
  · intro k hk
    have hne : k ≠ i := fun heq => hi (heq ▸ hk)
    rw [hs', common_place]
    dsimp only
    rw [Function.update_of_ne hne]
    rfl
  · funext a
    rw [hs', mark]
    dsimp only
    by_cases ha : a = j
    · rw [ha, Function.update_self, Function.update_self]
    · rw [Function.update_of_ne ha, Function.update_of_ne ha]
      rfl

/-- **One symbol** is given its place. -/
theorem step (ha : Allotted t ps is s) (hp : t.Prealloc) (hi : i ∉ is) (hhas : t.Has i)
    (h : s.p1common i = some s') : Allotted t ps (is ++ [i]) s' := by
  have hsame := ha.rest i hi
  by_cases hc : IsCommon (t.symtab i)
  · obtain ⟨j, start, -, -, hj128, hle, heven, hplace, hbefore, hmark⟩ := ha.place hp hi hc h
    obtain ⟨j', -, hs'⟩ := p1common_eq h (hsame ▸ hc)
    constructor
    · rw [hs']
      exact ha.prelist
    · rw [hs']
      exact ha.stacksiz
    · rw [hs']
      exact ha.symlev
    · intro k hk
      rw [List.mem_append, List.mem_singleton, not_or] at hk
      rw [hs']
      dsimp only
      rw [Function.update_of_ne hk.2]
      exact ha.rest k hk.1
    · have hhas' : s.Has i := by
        rw [Has, ha.symlev]
        exact hhas
      have hglb : ¬ X_SY_GLB = X_SY_UNX := by decide
      have hcounted := ha.counted.set_sym (n := s.udefcnt - 1) (z := { s.symtab i with
        x_sy_val := BitVec.ofNat 16 (s.common_start j' (s.symtab i).x_sy_val)
        x_sy_fl := X_SY_GLB
        x_sy_sg := BitVec.ofNat 8 j' }) hhas' (by
          rw [hsame, if_pos hc.1, if_neg hglb]
          omega)
      rw [hs']
      exact ⟨hcounted.pos, hcounted.range, hcounted.count⟩
    · have hlist : ((is ++ [i]).filter fun i => IsCommon (t.symtab i)).map (common_place t s') =
          (is.filter fun i => IsCommon (t.symtab i)).map (common_place t s) ++
            [⟨j, start, (t.symtab i).x_sy_val.toNat⟩] := by
        rw [List.filter_append, List.filter_singleton, decide_eq_true hc, List.map_append]
        congr 1
        · refine List.map_congr_left fun k hk => hbefore k (List.mem_of_mem_filter hk)
        · exact congrArg (fun p => [p]) hplace
      rw [hlist, ← List.append_assoc]
      refine ha.filled.alloc hle ?_ fun a => ?_
      · rw [hmark, Function.update_self]
      · rw [hmark]
        by_cases haj : a = j
        · rw [haj, Function.update_self]
          exact Nat.le_trans hle (Nat.le_add_right _ _)
        · rw [Function.update_of_ne haj]
    · intro k hk hck
      rw [List.mem_append, List.mem_singleton] at hk
      rcases hk with hk | rfl
      · rw [hbefore k hk]
        exact ha.area k hk hck
      · rw [hplace]
        exact hj128
    · intro k hk hck hlen
      rw [List.mem_append, List.mem_singleton] at hk
      rcases hk with hk | rfl
      · rw [hbefore k hk] at hlen ⊢
        exact ha.aligned k hk hck hlen
      · rw [hplace] at hlen ⊢
        exact heven hlen
  · rw [p1common_of_not h (hsame ▸ hc)]
    refine ⟨ha.prelist, ha.stacksiz, ha.symlev, ?_, ha.counted, ?_, ?_, ?_⟩
    · intro k hk
      rw [List.mem_append, not_or] at hk
      exact ha.rest k hk.1
    · rw [List.filter_append, List.filter_singleton, decide_eq_false hc, cond_false, List.append_nil]
      exact ha.filled
    · intro k hk hck
      rw [List.mem_append, List.mem_singleton] at hk
      rcases hk with hk | rfl
      · exact ha.area k hk hck
      · exact absurd hck hc
    · intro k hk hck
      rw [List.mem_append, List.mem_singleton] at hk
      rcases hk with hk | rfl
      · exact ha.aligned k hk hck
      · exact absurd hck hc

/-- Two of the symbols. -/
theorem disjoint (ha : Allotted t ps is s) {k : ℕ} (hi : i ∈ is) (hk : k ∈ is)
    (hci : IsCommon (t.symtab i)) (hck : IsCommon (t.symtab k)) (hne : i ≠ k) :
    (common_place t s i).Disjoint (common_place t s k) := by
  have hpairs := (List.pairwise_append.mp ha.filled.ordered).2.1
  have hdisjoint : (is.filter fun i => IsCommon (t.symtab i)).Pairwise fun i k =>
      (common_place t s i).Disjoint (common_place t s k) :=
    (List.pairwise_map.mp hpairs).imp fun hb => hb.disjoint
  have hsymm : Std.Symm fun i k => (common_place t s i).Disjoint (common_place t s k) :=
    ⟨fun _ _ h => h.symm⟩
  refine hdisjoint.forall ?_ ?_ hne
  · exact List.mem_filter.mpr ⟨hi, decide_eq_true hci⟩
  · exact List.mem_filter.mpr ⟨hk, decide_eq_true hck⟩

/-- A symbol and a segment of a module, as far as the segment's place is kept. -/
theorem disjoint_kept (ha : Allotted t ps is s) (hareas : ∀ p ∈ ps, p.area ≤ SEGNO) (hi : i ∈ is)
    (hci : IsCommon (t.symtab i)) (hstart : (common_place t s i).start < 65536) {p : Place}
    (hp : p ∈ ps) : (common_place t s i).Disjoint (kept p) := by
  have hmem : common_place t s i ∈ (is.filter fun i => IsCommon (t.symtab i)).map (common_place t s) :=
    List.mem_map_of_mem (List.mem_filter.mpr ⟨hi, decide_eq_true hci⟩)
  have hbefore := (List.pairwise_append.mp ha.filled.ordered).2.2 p hp _ hmem
  have harea := hareas p hp
  unfold SEGNO at harea
  intro heq
  have hsame : (kept p).area = p.area := Nat.mod_eq_of_lt (by omega)
  have hend := hbefore (hsame.symm.trans heq.symm)
  have hkept : (kept p).start = p.start := Nat.mod_eq_of_lt (by omega)
  refine .inr ?_
  rw [hkept]
  exact hend

/-- A symbol is below the mark of its segment. -/
theorem below (ha : Allotted t ps is s) (hi : i ∈ is) (hci : IsCommon (t.symtab i)) :
    (common_place t s i).start + (common_place t s i).len ≤ s.mark (common_place t s i).area := by
  refine ha.filled.below _ (List.mem_append_right ps ?_)
  exact List.mem_map_of_mem (List.mem_filter.mpr ⟨hi, decide_eq_true hci⟩)

end Allotted

/-- The numbers of the symbols, as the loop goes through them. -/
theorem range'_split {n i : ℕ} {pre post : List ℕ} (h : List.range' 1 n = pre ++ i :: post) :
    pre = List.range' 1 pre.length ∧ i = pre.length + 1 ∧ pre.length < n := by
  obtain ⟨k, hk, hpre, hpost⟩ := List.range'_eq_append_iff.mp h
  have hlength : pre.length = k := by rw [hpre, List.length_range']
  have hrest : (i :: post).length = n - k := by rw [hpost, List.length_range']
  rw [List.length_cons] at hrest
  have hhead : (List.range' (1 + k * 1) (n - k)).head? = some i := by rw [← hpost, List.head?_cons]
  rw [List.head?_range', if_neg (by omega)] at hhead
  have := Option.some.inj hhead
  refine ⟨?_, by omega, by omega⟩
  rw [hlength]
  exact hpre

/-- **All common symbols** are given their places. -/
theorem p1commons_allotted {ps : List Place} (hc : Counted t) (hp : t.Prealloc)
    (hf : Filled t.mark ps)
    (h : (List.range' 1 (t.symlev - 1)).foldlM (fun s i => s.p1common i) t = some u) :
    Allotted t ps (List.range' 1 (t.symlev - 1)) u := by
  refine foldlM_induction (I := fun is w => Allotted t ps is w) h ?_ ?_
  · refine ⟨rfl, rfl, rfl, fun _ _ => rfl, hc, ?_, ?_, ?_⟩
    · rw [List.filter_nil, List.map_nil, List.append_nil]
      exact hf
    · intro i hi
      cases hi
    · intro i hi
      cases hi
  · intro pre i post w w' hsplit _ hw hi
    obtain ⟨hpre, heq, hlt⟩ := range'_split hsplit
    refine hw.step hp ?_ ⟨by omega, by omega⟩ hi
    rw [hpre, List.mem_range'_1]
    omega

/-- There is room for symbol `i`, with its place rounded up and up to a word before the end. -/
def Fits (s : Ld) (i : ℕ) : Prop :=
  ∀ j, s.findseg X_SG_BSS (s.symtab i).x_sy_val = some j →
    s.common_start j (s.symtab i).x_sy_val + (s.symtab i).x_sy_val.toNat < 65535

/-- Every common symbol fits, in the state it is given its place in. -/
def AllFit (t : Ld) : Prop :=
  ∀ n w, n + 1 < t.symlev → (List.range' 1 n).foldlM (fun s i => s.p1common i) t = some w →
    IsCommon (w.symtab (n + 1)) → w.Fits (n + 1)

/-- **Where every symbol fits**, the segments are short enough to be rounded up. -/
theorem p1commons_small {ps : List Place} (hc : Counted t) (hp : t.Prealloc)
    (hf : Filled t.mark ps)
    (h : (List.range' 1 (t.symlev - 1)).foldlM (fun s i => s.p1common i) t = some u)
    (hfits : AllFit t) :
    ∀ i, t.Has i → IsCommon (t.symtab i) → u.mark (common_place t u i).area < 65535 := by
  have hrun := foldlM_induction (I := fun is w => Allotted t ps is w ∧
    ∀ i ∈ is, IsCommon (t.symtab i) → w.mark (common_place t w i).area < 65535) h ?_ ?_
  · intro i hhas hi
    refine hrun.2 i (List.mem_range'_1.mpr ?_) hi
    have := hhas.1
    have := hhas.2
    omega
  · refine ⟨⟨rfl, rfl, rfl, fun _ _ => rfl, hc, ?_, ?_, ?_⟩, ?_⟩
    · rw [List.filter_nil, List.map_nil, List.append_nil]
      exact hf
    · intro i hi
      cases hi
    · intro i hi
      cases hi
    · intro i hi
      cases hi
  · rintro pre i post w w' hsplit hw ⟨ha, hsmall⟩ hi
    obtain ⟨hpre, heq, hlt⟩ := range'_split hsplit
    have hnew : i ∉ pre := by
      rw [hpre, List.mem_range'_1]
      omega
    refine ⟨ha.step hp hnew ⟨by omega, by omega⟩ hi, ?_⟩
    by_cases hci : IsCommon (t.symtab i)
    · obtain ⟨j, start, hj, hstart, -, -, -, hplace, hbefore, hmark⟩ := ha.place hp hnew hci hi
      have hsame := ha.rest i hnew
      rw [hpre] at hw
      have hroom := hfits _ w (by omega) hw (by rw [← heq, hsame]; exact hci)
      rw [← heq, Fits, hsame] at hroom
      have hend := hroom j hj
      rw [← hstart] at hend
      intro k hk hck
      rw [hmark]
      rw [List.mem_append, List.mem_singleton] at hk
      rcases hk with hk | rfl
      · rw [hbefore k hk]
        by_cases haj : (common_place t w k).area = j
        · rw [haj, Function.update_self]
          exact hend
        · rw [Function.update_of_ne haj]
          exact hsmall k hk hck
      · rw [hplace, Function.update_self]
        exact hend
    · have hsame := p1common_of_not hi (by rw [ha.rest i hnew]; exact hci)
      rw [hsame]
      intro k hk hck
      rw [List.mem_append, List.mem_singleton] at hk
      rcases hk with hk | rfl
      · exact hsmall k hk hck
      · exact absurd hck hci

/-! ## 3. The whole pass -/

/-- Symbol `i` gets a place: it is undefined after the last module, and this is a final link. -/
def Common (t : Ld) (i : ℕ) : Prop := t.saverel = false ∧ t.Has i ∧ IsCommon (t.symtab i)

/-- The loop runs where there is a common symbol. -/
theorem p1commons_of_common (hc : Counted t) (hi : Common t i) (h : t.p1commons = some u) :
    (List.range' 1 (t.symlev - 1)).foldlM (fun s i => s.p1common i) t = some u := by
  obtain ⟨hsaverel, hhas, hcommon⟩ := hi
  have hudef : t.udefcnt ≠ 0 := by
    rw [hc.count]
    intro hzero
    rw [Int.natCast_eq_zero, unx, List.countP_eq_zero] at hzero
    have hmem : i ∈ List.range' 1 (t.symlev - 1) := by
      rw [List.mem_range'_1]
      have := hhas.1
      have := hhas.2
      omega
    exact hzero i hmem (decide_eq_true hcommon.1)
  unfold p1commons at h
  rw [hsaverel, if_pos ⟨rfl, hudef⟩] at h
  exact h

/-- The count after the allocation. -/
theorem p1commons_counted (hc : Counted t) (hp : t.Prealloc) (h : t.p1commons = some u) :
    Counted u := by
  unfold p1commons at h
  split_ifs at h
  · exact (p1commons_allotted hc hp (.nil _) h).counted
  · obtain rfl := Option.some.inj h
    exact hc

/-- The last rounding and the stack. -/
theorem p1stack_mark {v : Ld} (h : u.p1round.p1stack = some v) {j : ℕ} :
    u.mark j ≤ v.mark j ∧ (u.mark j < 65535 → u.stacksiz < 65536 → v.mark j < 65536) := by
  have hround : u.mark j ≤ u.p1round.mark j ∧ (u.mark j < 65535 → u.p1round.mark j < 65536) := by
    have hle := le_round (u.mark j)
    have heq := round_eq (u.mark j)
    unfold p1round mark at *
    dsimp only
    by_cases hj : j < SEGNO
    · rw [if_pos hj]
      refine ⟨hle, fun h => ?_⟩
      dsimp only
      omega
    · rw [if_neg hj]
      exact ⟨le_refl _, fun h => by omega⟩
  unfold p1stack at h
  by_cases hs : u.p1round.stacksiz ≠ 0
  · rw [if_pos hs] at h
    rcases hf : u.p1round.findseg X_SG_STK (BitVec.ofNat 16 u.p1round.stacksiz) with _ | k <;>
      rw [hf] at h
    · cases h
    obtain rfl := Option.some.inj h
    obtain ⟨-, hfits⟩ := findseg_fits hf
    have hstack : u.p1round.stacksiz = u.stacksiz := rfl
    rw [BitVec.toNat_ofNat, hstack] at hfits
    unfold mark at hround ⊢
    dsimp only
    rw [hstack]
    by_cases hj : j = k
    · rw [hj, Function.update_self]
      rw [hj] at hround
      refine ⟨Nat.le_trans hround.1 (Nat.le_add_right _ _), fun _ hsmall => ?_⟩
      rw [Nat.mod_eq_of_lt hsmall] at hfits
      exact hfits
    · rw [Function.update_of_ne hj]
      exact ⟨hround.1, fun h _ => hround.2 h⟩
  · rw [if_neg hs] at h
    obtain rfl := Option.some.inj h
    exact ⟨hround.1, fun h _ => hround.2 h⟩

/-- What is right about the places of the common symbols: `t` is the state after the last module, `u`
with the symbols allocated, and `v` at the end of the pass. -/
structure CommonsApart (cc : Compiler) (l : List (Ld × XFile)) (t u v : Ld) : Prop where
  aligned : ∀ i, Common t i → 1 < (common_place t u i).len → (common_place t u i).start % 2 = 0
  segments : ∀ i, Common t i → ∀ p ∈ module_places cc l, (common_place t u i).Disjoint p
  commons : ∀ i k, Common t i → Common t k → i ≠ k → (common_place t u i).Disjoint (common_place t u k)
  inside : ∀ i, Common t i → (common_place t u i).start + (common_place t u i).len ≤
    v.mark (common_place t u i).area

theorem commons_apart {v : Ld} {l : List (Ld × XFile)} (hr : Ready cc s) (hl : Loads cc s l t)
    (hu : t.p1commons = some u) (hv : u.p1round.p1stack = some v) : CommonsApart cc l t u v := by
  obtain ⟨hpre, ps, hareas, hfilled, hplaces⟩ := hl.filled hr.prealloc
  have hc := hr.counted.loads hl
  have hp : t.Prealloc := by
    rw [Prealloc, hpre]
    exact hr.prealloc
  have hallotted : ∀ i, Common t i → Allotted t ps (List.range' 1 (t.symlev - 1)) u ∧
      i ∈ List.range' 1 (t.symlev - 1) := by
    intro i hi
    refine ⟨p1commons_allotted hc hp hfilled (p1commons_of_common hc hi hu), ?_⟩
    rw [List.mem_range'_1]
    have := hi.2.1.1
    have := hi.2.1.2
    omega
  constructor
  · intro i hi
    obtain ⟨ha, hmem⟩ := hallotted i hi
    exact ha.aligned i hmem hi.2.2
  · intro i hi p hmem
    obtain ⟨ha, hmem'⟩ := hallotted i hi
    rw [hplaces] at hmem
    obtain ⟨q, hq, rfl⟩ := List.mem_map.mp hmem
    exact ha.disjoint_kept hareas hmem' hi.2.2 (BitVec.isLt _) hq
  · intro i k hi hk hne
    obtain ⟨ha, hmem⟩ := hallotted i hi
    exact ha.disjoint hmem (hallotted k hk).2 hi.2.2 hk.2.2 hne
  · intro i hi
    obtain ⟨ha, hmem⟩ := hallotted i hi
    exact Nat.le_trans (ha.below hmem hi.2.2) (p1stack_mark hv).1

/-- The size of the stack does not change. -/
theorem Loads.stacksiz_eq {l : List (Ld × XFile)} (h : Loads cc s l t) : t.stacksiz = s.stacksiz := by
  refine h.symbols (I := fun _ u => u.stacksiz = s.stacksiz) rfl ?_ ?_ ?_
  · rintro _ u u' ⟨_, _, _, _, _, _, _, rfl⟩ hu
    exact hu
  · rintro _ u u' ⟨_, _, _, _, _, _, _, _, _, _, _, _, _, rfl⟩ hu
    exact hu
  · intro x _ y _ _ u u' i hu hstep
    obtain ⟨_, _, _, _, _, _, _, rfl⟩ := hstep.frame
    exact hu

theorem pass1_parts {files : List Input} {v : Ld} (h : s.pass1 cc files = some v) : ∃ t u,
    s.p1files cc files = some t ∧ t.p1commons = some u ∧ u.p1round.p1stack = some v := by
  unfold pass1 at h
  obtain ⟨t, ht, h⟩ := Option.bind_eq_some_iff.mp h
  obtain ⟨u, hu, hv⟩ := Option.bind_eq_some_iff.mp h
  exact ⟨t, u, ht, hu, hv⟩

/-- **Common symbols and the count.**  After the flags the first pass goes through the files (to state
`t`), allocates the common symbols (`u`) and then the stack (`v`). -/
theorem commons_placed {stray : Stray} {flags : List Flag} {files : List Input} {v : Ld}
    (h0 : pass0 cc stray flags = some s) (h1 : s.pass1 cc files = some v) :
    ∃ t u, s.p1files cc files = some t ∧ t.p1commons = some u ∧ (∃ l, Loads cc s l t) ∧
      ∀ l, Loads cc s l t →
        (∀ x ∈ l, ∀ w, x.1.p1module cc x.2 = some w → w.udefcnt = w.unx) ∧
        t.udefcnt = t.unx ∧ u.udefcnt = u.unx ∧ CommonsApart cc l t u v ∧
        ((∀ x ∈ l, ∀ y ∈ x.2.x_sym, y.Known) → AllFit t → s.stacksiz < 65536 → ∀ i, Common t i →
          (common_place t u i).len = declared (l.flatMap fun x => x.2.x_sym) (key t.symtab i) ∧
            v.mark (common_place t u i).area < 65536) := by
  have hr := pass0_ready h0
  obtain ⟨t, u, ht, hu, hv⟩ := pass1_parts h1
  refine ⟨t, u, ht, hu, p1files_loads ht, fun l hl => ⟨?_, ?_, ?_, commons_apart hr hl hu hv, ?_⟩⟩
  · intro x hx w hw
    obtain ⟨l', hl'⟩ := hl.before hx
    exact (hr.counted.loads (hl'.load hw)).count
  · exact (hr.counted.loads hl).count
  · obtain ⟨hpre, -⟩ := hl.filled hr.prealloc
    refine (p1commons_counted (hr.counted.loads hl) ?_ hu).count
    rw [Prealloc, hpre]
    exact hr.prealloc
  · intro hknown hfit hstack i hi
    obtain ⟨hpre, ps, -, hfilled, -⟩ := hl.filled hr.prealloc
    have hc := hr.counted.loads hl
    have hp : t.Prealloc := by
      rw [Prealloc, hpre]
      exact hr.prealloc
    have hrun := p1commons_of_common hc hi hu
    refine ⟨(Sized.loads hr hl hknown).size i hi.2.1 hi.2.2.1, ?_⟩
    refine (p1stack_mark hv).2 (p1commons_small hc hp hfilled hrun hfit i hi.2.1 hi.2.2) ?_
    rw [(p1commons_allotted hc hp hfilled hrun).stacksiz, hl.stacksiz_eq]
    exact hstack

/-- A module with two common symbols. -/
def two_commons (a b : BitVec 16) : XFile where
  x_magic := X_NU_MAGIC
  x_sg := []
  init := []
  x_rel := []
  x_sym := [⟨0, X_SY_UNX, a, [0x61]⟩, ⟨0, X_SY_UNX, b, [0x62]⟩]

/-- Two symbols of four and of six bytes. -/
theorem commons_placed_two : ∃ s t u v, pass0 .unsigned .zero [] = some s ∧
    s.pass1 .unsigned [.object (two_commons 4 6)] = some v ∧
      s.p1files .unsigned [.object (two_commons 4 6)] = some t ∧ t.p1commons = some u ∧
        t.udefcnt = t.unx ∧ (common_place t u 1).Disjoint (common_place t u 2) ∧
          (common_place t u 2).len = declared (two_commons 4 6).x_sym [0x62] ∧
            v.mark (common_place t u 2).area < 65536 := by
  have h0 : pass0 .unsigned .zero [] = some (initial .zero) := rfl
  obtain ⟨v, h1⟩ : ∃ v, (initial .zero).pass1 .unsigned [.object (two_commons 4 6)] = some v := ⟨_, rfl⟩
  obtain ⟨t, u, ht, hu, -, hall⟩ := commons_placed h0 h1
  obtain ⟨s₁, hs₁⟩ : ∃ s₁ : Ld, s₁ = { initial .zero with 
    posndx := Function.update (initial .zero).posndx 0 (-1), nonseg := true } := ⟨_, rfl⟩
  have hm : s₁.p1module .unsigned (two_commons 4 6) = some t := by
    rw [hs₁, ← ht]
    rfl
  have hl : Loads .unsigned (initial .zero) [(s₁, two_commons 4 6)] t := by
    refine .load (.quiet .nil ?_) hm
    rw [hs₁]
    exact ⟨_, _, _, _, _, _, _, rfl⟩
  have hfacts : ((initial .zero).p1files .unsigned [.object (two_commons 4 6)]).map (fun t =>
      (t.saverel, t.symlev, decide (IsCommon (t.symtab 1)), decide (IsCommon (t.symtab 2)),
        key t.symtab 2)) = some (false, 3, true, true, [0x62]) := by decide +kernel
  have hfits : ∀ n < 2, ((initial .zero).p1files .unsigned [.object (two_commons 4 6)]).all (fun t =>
      ((List.range' 1 n).foldlM (fun (s : Ld) i => s.p1common i) t).all fun w =>
        (w.findseg X_SG_BSS (w.symtab (n + 1)).x_sy_val).all fun j =>
          w.common_start j (w.symtab (n + 1)).x_sy_val + (w.symtab (n + 1)).x_sy_val.toNat < 65535) := by
    decide +kernel
  rw [ht] at hfacts
  simp only [Option.map_some, Option.some.injEq, Prod.mk.injEq, decide_eq_true_eq] at hfacts
  obtain ⟨hsaverel, hsymlev, hone, htwo, hkey⟩ := hfacts
  have hfit : AllFit t := by
    intro n w hn hw _ j hj
    have hlt : n < 2 := by omega
    have hcheck := hfits n hlt
    rw [ht, Option.all_some, hw, Option.all_some, hj, Option.all_some] at hcheck
    exact of_decide_eq_true hcheck
  have hcommon : Common t 1 ∧ Common t 2 := by
    refine ⟨⟨hsaverel, ⟨le_refl _, ?_⟩, hone⟩, ⟨hsaverel, ⟨by decide, ?_⟩, htwo⟩⟩
    · rw [hsymlev]
      decide
    · rw [hsymlev]
      decide
  obtain ⟨-, hcount, -, hapart, hright⟩ := hall _ hl
  obtain ⟨hlen, hsmall⟩ := hright (by simp [two_commons, XSym.Known]) hfit (by decide) 2 hcommon.2
  rw [hkey] at hlen
  exact ⟨_, t, u, _, h0, h1, ht, hu, hcount, hapart.commons 1 2 hcommon.1 hcommon.2 (by decide), hlen,
    hsmall⟩

/-- One byte and 65534 are 65535, but the second symbol begins at 2: the segment has 64 KB. -/
theorem sixtyFourK_common : ∃ s t u v, pass0 .unsigned .zero [] = some s ∧
    s.p1files .unsigned [.object (two_commons 1 65534)] = some t ∧ t.p1commons = some u ∧
      s.pass1 .unsigned [.object (two_commons 1 65534)] = some v ∧ Common t 2 ∧
        v.mark (common_place t u 2).area = 65536 := by
  refine ⟨_, _, _, _, rfl, rfl, rfl, rfl, ⟨rfl, by decide, by decide⟩, by decide⟩

end Ld

end Cpm8000.Linker
