/-
# Lists by links

A singly linked list as C has it: a head and, for every node, the link to the next one. `Links lnk h l`
says that the nodes met from `h` on are those of `l`.

A list is changed through the pointer that leads to a node, which is the link of the node before it or
the head itself; `setLink` writes through such a pointer. `Links.unlink`, `Links.push`, `Links.insert`
and `Links.toFront` are the edits, and `scan_eq` says where the loop with a trailing pointer stops.
-/
import Mathlib.Data.List.Nodup
import Mathlib.Logic.Function.Basic

namespace Cpm8000.Sys

variable {α : Type*}

/-- The nodes from `h` on. -/
def Links (lnk : α → Option α) : Option α → List α → Prop
  | h, [] => h = none
  | h, a :: l => h = some a ∧ Links lnk (lnk a) l

variable {lnk : α → Option α} {h : Option α} {l : List α}

/-- Only the links of the nodes matter. -/
theorem Links.congr {lnk' : α → Option α} (hl : Links lnk h l) (heq : ∀ a ∈ l, lnk' a = lnk a) :
    Links lnk' h l := by
  induction l generalizing h with
  | nil => exact hl
  | cons a l ih =>
    refine ⟨hl.1, ?_⟩
    rw [heq a (List.mem_cons_self ..)]
    exact ih hl.2 fun b hb => heq b (List.mem_cons_of_mem _ hb)

/-- The loop `while (!found(cb) && cb->lnk) { pb = cb; cb = cb->lnk; }`, for at most `fuel` nodes. -/
def scan (lnk : α → Option α) (found : α → Bool) : ℕ → Option α → α → Option (Option α × α)
  | 0, _, _ => none
  | fuel + 1, pb, cb =>
    if found cb then some (pb, cb)
    else
      match lnk cb with
      | none => some (pb, cb)
      | some next => scan lnk found fuel (some cb) next

/-- **Where the loop stops**: at the first node that is found, or at the last one, with the node before
it. -/
theorem scan_eq {found : α → Bool} {pb : Option α} {c : α} (hl : Links lnk (some c) l) :
    ∃ p x q, l = p ++ x :: q ∧ scan lnk found l.length pb c = some (p.getLast?.or pb, x) ∧
      (∀ y ∈ p, found y = false) ∧ (found x = true ∨ q = []) := by
  induction l generalizing c pb with
  | nil => cases hl
  | cons a l ih =>
    obtain ⟨hc, htail⟩ := hl
    obtain rfl := Option.some.inj hc
    rw [List.length_cons, scan]
    by_cases hf : found c = true
    · rw [if_pos hf]
      exact ⟨[], c, l, rfl, rfl, by simp, .inl hf⟩
    · rw [if_neg hf]
      cases hn : lnk c with
      | none =>
        rw [hn] at htail
        cases l with
        | nil => exact ⟨[], c, [], rfl, rfl, by simp, .inr rfl⟩
        | cons b l => cases htail.1
      | some next =>
        rw [hn] at htail
        obtain ⟨p, x, q, hpq, hscan, hp, hx⟩ := @ih (some c) next htail
        refine ⟨c :: p, x, q, by rw [hpq, List.cons_append], ?_, ?_, hx⟩
        · dsimp only
          rw [hscan]
          cases p with
          | nil => rfl
          | cons y p =>
            rw [List.getLast?_cons_cons, List.getLast?_eq_some_getLast (List.cons_ne_nil y p)]
            rfl
        · intro y hy
          rcases List.mem_cons.mp hy with rfl | hy
          · exact Bool.eq_false_iff.mpr hf
          · exact hp y hy

/-- The nodes behind one of the list are taken from another list. -/
theorem Links.splice {lnk' : α → Option α} {p q m : List α} {x : α} (hl : Links lnk h (p ++ x :: q))
    (hp : ∀ a ∈ p, lnk' a = lnk a) (hm : Links lnk' (lnk' x) m) : Links lnk' h (p ++ x :: m) := by
  induction p generalizing h with
  | nil => exact ⟨hl.1, hm⟩
  | cons a p ih =>
    obtain ⟨ha, hp⟩ := List.forall_mem_cons.mp hp
    refine ⟨hl.1, ?_⟩
    rw [ha]
    exact ih hl.2 hp

/-- The list from one of its nodes on. -/
theorem Links.drop {p q : List α} (hl : Links lnk h (p ++ q)) : Links lnk q.head? q := by
  induction p generalizing h with
  | nil =>
    cases q with
    | nil => rfl
    | cons b q => exact ⟨rfl, hl.2⟩
  | cons a p ih => exact ih hl.2

theorem Links.head (hl : Links lnk h l) : h = l.head? := by
  cases l with
  | nil => exact hl
  | cons a l => exact hl.1

variable [DecidableEq α]

instance decidableLinks (lnk : α → Option α) : ∀ h l, Decidable (Links lnk h l)
  | h, [] => inferInstanceAs (Decidable (h = none))
  | h, a :: l => @instDecidableAnd (h = some a) _ _ (decidableLinks lnk (lnk a) l)

/-- `*pb = x`, where `pb` is the link of a node, or the head when there is none. -/
def setLink (pb : Option α) (x : Option α) (s : Option α × (α → Option α)) :
    Option α × (α → Option α) :=
  match pb with
  | none => (x, s.2)
  | some b => (s.1, Function.update s.2 b x)

/-- **A node is taken out** through the pointer that leads to it. -/
theorem Links.unlink {p q : List α} {x : α} (hl : Links lnk h (p ++ x :: q))
    (hn : (p ++ x :: q).Nodup) :
    Links (setLink p.getLast? (lnk x) (h, lnk)).2 (setLink p.getLast? (lnk x) (h, lnk)).1 (p ++ q) := by
  induction p generalizing h with
  | nil => exact hl.2
  | cons a p ih =>
    obtain ⟨rfl, htail⟩ := hl
    rw [List.cons_append, List.nodup_cons] at hn
    cases p with
    | nil =>
      -- the node before it is the first
      refine ⟨rfl, ?_⟩
      dsimp only [List.getLast?_singleton, setLink]
      rw [Function.update_self]
      refine Links.congr htail.2 fun b hb => Function.update_of_ne ?_ _ _
      rintro rfl
      exact hn.1 (List.mem_cons_of_mem _ hb)
    | cons b p =>
      have hrest := ih htail hn.2
      rw [List.getLast?_cons_cons]
      obtain ⟨y, hy⟩ : ∃ y, (b :: p).getLast? = some y := ⟨_, List.getLast?_eq_some_getLast (by simp)⟩
      rw [hy] at hrest ⊢
      refine ⟨rfl, ?_⟩
      have hne : a ≠ y := by
        rintro rfl
        exact hn.1 (List.mem_append_left _ (List.mem_of_getLast? hy))
      dsimp only [setLink] at hrest ⊢
      rw [Function.update_of_ne hne]
      exact hrest

/-- **A node is put in front.** -/
theorem Links.push {x : α} (hl : Links lnk h l) (hx : x ∉ l) :
    Links (Function.update lnk x h) (some x) (x :: l) := by
  refine ⟨rfl, ?_⟩
  rw [Function.update_self]
  refine hl.congr fun b hb => Function.update_of_ne ?_ _ _
  rintro rfl
  exact hx hb

/-- **A node is put in** where a pointer leads to the rest. -/
theorem Links.insert {p q : List α} {x : α} (hl : Links lnk h (p ++ q)) (hn : (p ++ q).Nodup)
    (hx : x ∉ p ++ q) :
    Links (setLink p.getLast? (some x) (h, Function.update lnk x q.head?)).2
      (setLink p.getLast? (some x) (h, Function.update lnk x q.head?)).1 (p ++ x :: q) := by
  induction p generalizing h with
  | nil =>
    have hpush := hl.push hx
    rw [hl.head] at hpush
    exact hpush
  | cons a p ih =>
    obtain ⟨rfl, htail⟩ := hl
    rw [List.cons_append, List.nodup_cons] at hn
    rw [List.cons_append, List.mem_cons, not_or] at hx
    have hrest := ih htail hn.2 hx.2
    cases p with
    | nil =>
      -- the node before it is the first
      refine ⟨rfl, ?_⟩
      dsimp only [List.getLast?_singleton, List.getLast?_nil, setLink] at hrest ⊢
      rw [Function.update_self]
      refine Links.congr hrest fun b hb => Function.update_of_ne ?_ _ _
      rintro rfl
      rcases List.mem_cons.mp hb with hb | hb
      · exact hx.1 hb.symm
      · exact hn.1 hb
    | cons b p =>
      rw [List.getLast?_cons_cons]
      obtain ⟨y, hy⟩ : ∃ y, (b :: p).getLast? = some y := ⟨_, List.getLast?_eq_some_getLast (by simp)⟩
      rw [hy] at hrest ⊢
      refine ⟨rfl, ?_⟩
      have hne : a ≠ y := by
        rintro rfl
        exact hn.1 (List.mem_append_left _ (List.mem_of_getLast? hy))
      dsimp only [setLink] at hrest ⊢
      rw [Function.update_of_ne hne, Function.update_of_ne (Ne.symm hx.1)]
      exact hrest

/-- `*pb = cb->lnk; cb->lnk = head; head = cb`, where `pb` leads to `cb`. -/
def toFront (pb : Option α) (cb : α) (s : Option α × (α → Option α)) : Option α × (α → Option α) :=
  let s := setLink pb (s.2 cb) s
  (some cb, Function.update s.2 cb s.1)

/-- **A node is moved to the front.** -/
theorem Links.toFront {p q : List α} {x : α} (hl : Links lnk h (p ++ x :: q)) (hn : (p ++ x :: q).Nodup) :
    Links (Sys.toFront p.getLast? x (h, lnk)).2 (Sys.toFront p.getLast? x (h, lnk)).1 (x :: (p ++ q)) :=
  (hl.unlink hn).push (List.nodup_middle.mp hn).notMem

end Cpm8000.Sys
