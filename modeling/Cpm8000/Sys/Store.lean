/-
# Runs of stores

A memory is a function from addresses to units, and a program part that only stores is the list of
its stores. `storeAll l m` is the memory `m` after the stores of `l`, the first one first.

* `storeAll_of_notMem`: what no store names is left alone.
* `storeAll_of_nodup`: addresses named once hold what was stored there.
* `storeAll_eqOn`: one run in two memories.
* `storeAll_eq_self_iff`: a run leaves the memory as it was.
* `storeAll_storesAt_eq_iff`, `fetch_map_eq_iff`: two address translations that serve a run of stores, or
  of fetches, alike in every memory.
-/
import Mathlib.Tactic

namespace Cpm8000.Sys

variable {A B I : Type*} [DecidableEq A]

/-- The memory after the stores of a list, the first one first. -/
def storeAll (l : List (A × B)) (m : A → B) : A → B :=
  l.foldl (fun m s => Function.update m s.1 s.2) m

variable {l l' : List (A × B)} {m m' : A → B} {a : A} {v : B}

@[simp] theorem storeAll_nil : storeAll [] m = m := rfl

@[simp] theorem storeAll_cons (s : A × B) :
    storeAll (s :: l) m = storeAll l (Function.update m s.1 s.2) := rfl

theorem storeAll_append : storeAll (l ++ l') m = storeAll l' (storeAll l m) := List.foldl_append

/-! ## 1. What a run of stores does -/

/-- **What no store names is left alone.** -/
theorem storeAll_of_notMem (h : a ∉ l.map Prod.fst) : storeAll l m a = m a := by
  induction l generalizing m with
  | nil => rfl
  | cons s l ih =>
    rw [List.map_cons, List.mem_cons, not_or] at h
    rw [storeAll_cons, ih h.2, Function.update_of_ne h.1]

/-- What a store names holds nothing of the memory before. -/
theorem storeAll_of_mem (h : a ∈ l.map Prod.fst) : storeAll l m a = storeAll l m' a := by
  induction l generalizing m m' with
  | nil => exact absurd h List.not_mem_nil
  | cons s l ih =>
    rw [storeAll_cons, storeAll_cons]
    by_cases hl : a ∈ l.map Prod.fst
    · exact ih hl
    · have hs : a = s.1 := (List.mem_cons.mp h).resolve_right hl
      rw [storeAll_of_notMem hl, storeAll_of_notMem hl, hs, Function.update_self,
        Function.update_self]

/-- **The last store wins**: later stores that do not name the address change nothing there. -/
theorem storeAll_of_last (h : a ∉ l'.map Prod.fst) : storeAll (l ++ (a, v) :: l') m a = v := by
  rw [storeAll_append, storeAll_cons, storeAll_of_notMem h, Function.update_self]

/-- Stores to one address that agree leave their value there. -/
theorem storeAll_of_agree (h : a ∈ l.map Prod.fst) (hv : ∀ s ∈ l, s.1 = a → s.2 = v) :
    storeAll l m a = v := by
  induction l generalizing m with
  | nil => exact absurd h List.not_mem_nil
  | cons s l ih =>
    rw [storeAll_cons]
    by_cases hl : a ∈ l.map Prod.fst
    · exact ih hl fun s' hs' => hv s' (List.mem_cons_of_mem _ hs')
    · have hs : a = s.1 := (List.mem_cons.mp h).resolve_right hl
      rw [storeAll_of_notMem hl, hs, Function.update_self]
      exact hv s List.mem_cons_self hs.symm

/-- **Addresses named once** hold what was stored there. -/
theorem storeAll_of_nodup (hl : (l.map Prod.fst).Nodup) (h : (a, v) ∈ l) : storeAll l m a = v := by
  obtain ⟨l₁, l₂, rfl⟩ := List.append_of_mem h
  refine storeAll_of_last fun ha => ?_
  rw [List.map_append, List.map_cons, List.nodup_append] at hl
  exact (List.nodup_cons.mp hl.2.1).1 ha

/-- What the last store to an address stores there. -/
def lastStore (a : A) : List (A × B) → Option B
  | [] => none
  | s :: l => (lastStore a l).or (if s.1 = a then some s.2 else none)

theorem storeAll_apply : storeAll l m a = (lastStore a l).getD (m a) := by
  induction l generalizing m with
  | nil => rfl
  | cons s l ih =>
    rw [storeAll_cons, ih, lastStore]
    cases lastStore a l with
    | some v => rfl
    | none =>
      by_cases hs : s.1 = a
      · rw [Option.none_or, if_pos hs, ← hs]
        exact Function.update_self _ _ _
      · rw [Option.none_or, if_neg hs]
        exact Function.update_of_ne (Ne.symm hs) _ _

/-- **One run in two memories**: they agree after it where they did before, and where it stores. -/
theorem storeAll_eqOn {S : Set A} (h : Set.EqOn m m' Sᶜ) :
    Set.EqOn (storeAll l m) (storeAll l m') (S \ { a | a ∈ l.map Prod.fst })ᶜ := by
  intro a ha
  by_cases hl : a ∈ l.map Prod.fst
  · exact storeAll_of_mem hl
  · rw [storeAll_of_notMem hl, storeAll_of_notMem hl]
    exact h fun haS => ha ⟨haS, hl⟩

/-- **A run leaves the memory as it was** when every address holds already what is stored there
last. -/
theorem storeAll_eq_self_iff : storeAll l m = m ↔ ∀ a v, lastStore a l = some v → m a = v := by
  constructor
  · intro h a v hv
    have ha := congrFun h a
    rw [storeAll_apply, hv] at ha
    exact ha.symm
  · intro h
    funext a
    rw [storeAll_apply]
    cases hv : lastStore a l with
    | none => rfl
    | some v => exact (h a v hv).symm

/-! ## 2. One run through two translations -/

/-- The stores of a list of positions and units, through an address translation. -/
def storesAt (f : I → A) (s : List (I × B)) : List (A × B) := s.map fun x => (f x.1, x.2)

variable {f g : I → A} {s : List (I × B)}

omit [DecidableEq A] in
theorem map_fst_storesAt (f : I → A) (s : List (I × B)) :
    (storesAt f s).map Prod.fst = (s.map Prod.fst).map f := by
  rw [storesAt, List.map_map, List.map_map]
  rfl

omit [DecidableEq A] in
theorem storesAt_congr (h : ∀ i ∈ s.map Prod.fst, f i = g i) : storesAt f s = storesAt g s := by
  refine List.map_congr_left fun x hx => ?_
  rw [h x.1 (List.mem_map_of_mem hx)]

/-- **Stores through two translations**: when an address that differs is none of the other
translation's, the two runs agree in every memory only if the translations agree. -/
theorem storeAll_storesAt_eq_iff [Nontrivial B]
    (hfg : ∀ i ∈ s.map Prod.fst, f i = g i ∨ ∀ j ∈ s.map Prod.fst, f i ≠ g j) :
    (∀ m, storeAll (storesAt f s) m = storeAll (storesAt g s) m) ↔
      ∀ i ∈ s.map Prod.fst, f i = g i := by
  constructor
  · intro h i hi
    refine (hfg i hi).resolve_right fun hne => ?_
    have hf : f i ∈ (storesAt f s).map Prod.fst := by
      rw [map_fst_storesAt]
      exact List.mem_map_of_mem hi
    have hg : f i ∉ (storesAt g s).map Prod.fst := by
      rw [map_fst_storesAt]
      intro hmem
      obtain ⟨j, hj, hij⟩ := List.mem_map.mp hmem
      exact hne j hj hij.symm
    -- a memory whose unit at the address is another one than the run leaves there
    obtain ⟨w, hw⟩ := exists_ne (storeAll (storesAt f s) (fun _ => Classical.arbitrary B) (f i))
    have hrun := congrFun (h fun _ => w) (f i)
    rw [storeAll_of_notMem hg, storeAll_of_mem hf] at hrun
    exact hw hrun.symm
  · intro h m
    rw [storesAt_congr h]

/-- **Fetches through two translations** agree in every memory only if the translations agree. -/
theorem fetch_map_eq_iff [Nontrivial B] {f g : I → A} {p : List I} :
    (∀ m : A → B, p.map (fun i => m (f i)) = p.map fun i => m (g i)) ↔ ∀ i ∈ p, f i = g i := by
  constructor
  · intro h i hi
    obtain ⟨u, v, huv⟩ := exists_pair_ne B
    have hm := h (Function.update (fun _ => u) (f i) v)
    rw [List.map_inj_left] at hm
    by_contra hne
    have hi' := hm i hi
    rw [Function.update_self, Function.update_of_ne (Ne.symm hne)] at hi'
    exact huv hi'.symm
  · intro h m
    exact List.map_congr_left fun i hi => by rw [h i hi]

end Cpm8000.Sys
