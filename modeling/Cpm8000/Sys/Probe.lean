/-
# Tables that are searched slot by slot

An item of a hash table is looked for from the slot its key hashes to, slot by slot, to the end of the
table and then from its beginning, until it or an empty slot is found; it is entered at the empty
slot, and nothing is taken out again.

* `OpenTable`: the slots before an item, in the order it is looked for, are taken; a key has one item.
* `OpenTable.probe_found_iff`: a search finds exactly what is in the table.
* `OpenTable.insert`: an item may be entered at the slot a search for its key ends at.
-/
import Mathlib.Data.List.Basic
import Mathlib.Logic.Function.Basic

namespace Cpm8000.Sys

variable {ι κ : Type*}

/-- What a search ends at. -/
inductive Probe (ι : Type*)
  | found (x : ι)
  | vacant (slot : ℕ)
  | full

/-- The slots in the order a search from slot `h` goes through them. -/
def probeOrder (size h : ℕ) : List ℕ := List.range' h (size - h) ++ List.range size

def probe (tab : ℕ → Option ι) (hit : ι → Bool) : List ℕ → Probe ι
  | [] => .full
  | i :: l =>
    match tab i with
    | none => .vacant i
    | some x => if hit x then .found x else probe tab hit l

variable {tab : ℕ → Option ι} {hit : ι → Bool}

/-- What a search finds is a hit. -/
theorem of_probe_found {l : List ℕ} {x : ι} (h : probe tab hit l = .found x) :
    hit x ∧ ∃ i ∈ l, tab i = some x := by
  induction l with
  | nil => cases h
  | cons i l ih =>
    rw [probe] at h
    cases hi : tab i with
    | none =>
      rw [hi] at h
      cases h
    | some y =>
      rw [hi] at h
      dsimp only at h
      split_ifs at h with hy
      · obtain rfl : y = x := Probe.found.inj h
        exact ⟨hy, i, List.mem_cons_self, hi⟩
      · obtain ⟨hx, j, hj, htab⟩ := ih h
        exact ⟨hx, j, List.mem_cons_of_mem _ hj, htab⟩

/-- The empty slot a search ends at is the first of those it goes through. -/
theorem of_probe_vacant {l : List ℕ} {i : ℕ} (h : probe tab hit l = .vacant i) :
    tab i = none ∧ ∃ pre post, l = pre ++ i :: post ∧ ∀ k ∈ pre, (tab k).isSome := by
  induction l with
  | nil => cases h
  | cons j l ih =>
    rw [probe] at h
    cases hj : tab j with
    | none =>
      rw [hj] at h
      obtain rfl : j = i := Probe.vacant.inj h
      exact ⟨hj, [], l, rfl, List.forall_mem_nil _⟩
    | some y =>
      rw [hj] at h
      dsimp only at h
      split_ifs at h
      obtain ⟨htab, pre, post, rfl, hpre⟩ := ih h
      refine ⟨htab, j :: pre, post, rfl, List.forall_mem_cons.mpr ⟨?_, hpre⟩⟩
      rw [hj]
      rfl

/-- A search that comes to a hit finds one. -/
theorem probe_found_of_hit {pre post : List ℕ} {i : ℕ} {x : ι} (hpre : ∀ k ∈ pre, (tab k).isSome)
    (hi : tab i = some x) (hx : hit x) : ∃ y, probe tab hit (pre ++ i :: post) = .found y := by
  induction pre with
  | nil =>
    refine ⟨x, ?_⟩
    rw [List.nil_append, probe, hi]
    exact if_pos hx
  | cons k pre ih =>
    obtain ⟨hk, hpre⟩ := List.forall_mem_cons.mp hpre
    obtain ⟨z, hz⟩ := Option.isSome_iff_exists.mp hk
    rw [List.cons_append, probe, hz]
    dsimp only
    split_ifs
    · exact ⟨z, rfl⟩
    · exact ih hpre

/-- A search depends on what is in the table only. -/
theorem probe_congr {hit' : ι → Bool} (h : ∀ i x, tab i = some x → hit x = hit' x) (l : List ℕ) :
    probe tab hit l = probe tab hit' l := by
  induction l with
  | nil => rfl
  | cons i l ih =>
    rw [probe, probe, ih]
    cases hi : tab i with
    | none => rfl
    | some x =>
      dsimp only
      rw [h i x hi]

/-- A search that comes to an empty slot does not go through the whole table. -/
theorem probe_ne_full {l : List ℕ} {i : ℕ} (hi : i ∈ l) (h : tab i = none) : probe tab hit l ≠ .full := by
  induction l with
  | nil => cases hi
  | cons j l ih =>
    rw [probe]
    cases hj : tab j with
    | none =>
      intro hfull
      cases hfull
    | some x =>
      dsimp only
      split_ifs
      · intro hfull
        cases hfull
      · rcases List.mem_cons.mp hi with rfl | hi
        · rw [h] at hj
          cases hj
        · exact ih hi

theorem mem_probeOrder {size : ℕ} (n : ℕ) {i : ℕ} (h : i < size) : i ∈ probeOrder size n :=
  List.mem_append_right _ (List.mem_range.mpr h)

theorem lt_of_mem_probeOrder {size n i : ℕ} (h : i ∈ probeOrder size n) : i < size := by
  rcases List.mem_append.mp h with h | h
  · have hrange := List.mem_range'_1.mp h
    omega
  · exact List.mem_range.mp h

/-! ## Tables by key -/

/-- The state of a table of `size` slots whose items have keys. -/
structure OpenTable (size : ℕ) (hash : κ → ℕ) (key : ι → κ) (tab : ℕ → Option ι) : Prop where
  reach : ∀ i x, tab i = some x → ∃ pre post,
    probeOrder size (hash (key x)) = pre ++ i :: post ∧ ∀ k ∈ pre, (tab k).isSome
  unique : ∀ i j x y, tab i = some x → tab j = some y → key x = key y → x = y

namespace OpenTable

variable {size : ℕ} {hash : κ → ℕ} {key : ι → κ}

theorem empty : OpenTable size hash key fun _ => (none : Option ι) := by
  constructor
  · intro i x h
    cases h
  · intro i j x y h
    cases h

/-- Keys matter for what is in the table only. -/
theorem congr {key' : ι → κ} (h : OpenTable size hash key tab)
    (hkey : ∀ i x, tab i = some x → key' x = key x) : OpenTable size hash key' tab := by
  constructor
  · intro i x hi
    rw [hkey i x hi]
    exact h.reach i x hi
  · intro i j x y hi hj hxy
    rw [hkey i x hi, hkey j y hj] at hxy
    exact h.unique i j x y hi hj hxy

variable [DecidableEq κ] {k : κ}

/-- **A search finds exactly what is in the table.** -/
theorem probe_found_iff (h : OpenTable size hash key tab) {x : ι} :
    probe tab (fun y => decide (key y = k)) (probeOrder size (hash k)) = .found x ↔
      key x = k ∧ ∃ i, tab i = some x := by
  constructor
  · intro hp
    obtain ⟨hx, i, -, hi⟩ := of_probe_found hp
    exact ⟨of_decide_eq_true hx, i, hi⟩
  · rintro ⟨rfl, i, hi⟩
    obtain ⟨pre, post, horder, hpre⟩ := h.reach i x hi
    obtain ⟨y, hy⟩ := @probe_found_of_hit _ tab (fun y => decide (key y = key x)) pre post i x hpre hi
      (decide_eq_true rfl)
    rw [horder, hy]
    obtain ⟨hkey, j, -, hj⟩ := of_probe_found hy
    rw [h.unique j i y x hj hi (of_decide_eq_true hkey)]

/-- A search that ends at an empty slot is for a key that is not in the table. -/
theorem ne_of_probe_vacant (h : OpenTable size hash key tab) {i : ℕ}
    (hp : probe tab (fun y => decide (key y = k)) (probeOrder size (hash k)) = .vacant i) {j : ℕ}
    {x : ι} (hj : tab j = some x) : key x ≠ k := by
  intro hk
  rw [h.probe_found_iff.mpr ⟨hk, j, hj⟩] at hp
  cases hp

/-- **Entering an item** at the slot a search for its key ended at. -/
theorem insert (h : OpenTable size hash key tab) {i : ℕ} {x : ι}
    (hp : probe tab (fun y => decide (key y = key x)) (probeOrder size (hash (key x))) = .vacant i) :
    OpenTable size hash key (Function.update tab i (some x)) := by
  obtain ⟨hi, pre, post, horder, hpre⟩ := of_probe_vacant hp
  have hkept : ∀ l : List ℕ, (∀ k ∈ l, (tab k).isSome) →
      ∀ k ∈ l, (Function.update tab i (some x) k).isSome := by
    intro l hl k hk
    by_cases hki : k = i
    · rw [hki, Function.update_self]
      rfl
    · rw [Function.update_of_ne hki]
      exact hl k hk
  constructor
  · intro j y hj
    by_cases hji : j = i
    · rw [hji, Function.update_self] at hj
      obtain rfl := Option.some.inj hj
      rw [hji]
      exact ⟨pre, post, horder, hkept pre hpre⟩
    · rw [Function.update_of_ne hji] at hj
      obtain ⟨pre', post', horder', hpre'⟩ := h.reach j y hj
      exact ⟨pre', post', horder', hkept pre' hpre'⟩
  · intro j j' y y' hj hj' hyy
    by_cases hji : j = i
    · rw [hji, Function.update_self] at hj
      obtain rfl := Option.some.inj hj
      by_cases hji' : j' = i
      · rw [hji', Function.update_self] at hj'
        exact Option.some.inj hj'
      · rw [Function.update_of_ne hji'] at hj'
        exact absurd hyy.symm (h.ne_of_probe_vacant hp hj')
    · rw [Function.update_of_ne hji] at hj
      by_cases hji' : j' = i
      · rw [hji', Function.update_self] at hj'
        obtain rfl := Option.some.inj hj'
        exact absurd hyy (h.ne_of_probe_vacant hp hj)
      · rw [Function.update_of_ne hji'] at hj'
        exact h.unique j j' y y' hj hj' hyy

end OpenTable

end Cpm8000.Sys
