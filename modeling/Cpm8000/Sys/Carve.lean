/-
# Regions carved from a running offset

An allocator that never gives anything back keeps one offset: it hands out the region that starts
there and moves the offset past it. With an offset of `w` bits it can run past the end of the memory
and start again at 0.

`carve_below_iff`: every region ends at or below `top` exactly when the lengths, added up as numbers,
fit between the first offset and `top`. Regions that do so stand one behind the other, apart:
`carve_pairwise`.
-/
import Mathlib.Data.BitVec
import Mathlib.Tactic

namespace Cpm8000.Sys

variable {w : ℕ}

/-- A part of a memory of `2 ^ w` bytes: where it starts, and how many bytes it has. -/
structure Region (w : ℕ) where
  start : BitVec w
  len : ℕ

/-- Where a region ends, as a number. -/
def Region.stop (r : Region w) : ℕ := r.start.toNat + r.len

/-- No byte of the one is a byte of the other. -/
def Region.Disjoint (r r' : Region w) : Prop := r.stop ≤ r'.start.toNat ∨ r'.stop ≤ r.start.toNat

theorem Region.Disjoint.symm {r r' : Region w} (h : r.Disjoint r') : r'.Disjoint r := Or.symm h

/-- The offset past regions of the lengths given. -/
def carved (off : BitVec w) (lens : List ℕ) : BitVec w :=
  lens.foldl (fun off n => off + BitVec.ofNat w n) off

/-- The regions of the lengths given, from an offset on. -/
def carve (off : BitVec w) : List ℕ → List (Region w)
  | [] => []
  | n :: lens => ⟨off, n⟩ :: carve (off + BitVec.ofNat w n) lens

variable {off : BitVec w} {lens lens' : List ℕ} {top n : ℕ}

@[simp] theorem carved_nil : carved off [] = off := rfl

@[simp] theorem carved_cons :
    carved off (n :: lens) = carved (off + BitVec.ofNat w n) lens := rfl

theorem carve_append : carve off (lens ++ lens') = carve off lens ++ carve (carved off lens) lens' := by
  induction lens generalizing off with
  | nil => rfl
  | cons n lens ih => rw [List.cons_append, carve, ih, carve, List.cons_append, carved_cons]

/-- An offset that does not run past the end of the memory. -/
theorem toNat_add_ofNat (h : off.toNat + n < 2 ^ w) :
    (off + BitVec.ofNat w n).toNat = off.toNat + n := by
  rw [BitVec.toNat_add, BitVec.toNat_ofNat, Nat.add_mod_mod, Nat.mod_eq_of_lt h]

/-- **Every region ends below the top** exactly when the lengths fit there all together: an offset
that came round had a region before it that reached past the end. -/
theorem carve_below_iff (htop : top < 2 ^ w) (hoff : off.toNat ≤ top) :
    (∀ r ∈ carve off lens, r.stop ≤ top) ↔ off.toNat + lens.sum ≤ top := by
  induction lens generalizing off with
  | nil => simpa [carve] using hoff
  | cons n lens ih =>
    rw [carve, List.forall_mem_cons, List.sum_cons, ← Nat.add_assoc]
    constructor
    · rintro ⟨hfirst, hrest⟩
      have hnext : (off + BitVec.ofNat w n).toNat = off.toNat + n :=
        toNat_add_ofNat (lt_of_le_of_lt hfirst htop)
      rw [ih (hnext ▸ hfirst), hnext] at hrest
      exact hrest
    · intro hsum
      have hfirst : off.toNat + n ≤ top := le_trans (Nat.le_add_right _ _) hsum
      have hnext : (off + BitVec.ofNat w n).toNat = off.toNat + n :=
        toNat_add_ofNat (lt_of_le_of_lt hfirst htop)
      refine ⟨hfirst, ?_⟩
      rw [ih (hnext ▸ hfirst), hnext]
      exact hsum

/-- What is carved later starts later. -/
theorem le_start_of_mem_carve (h : off.toNat + lens.sum < 2 ^ w) :
    ∀ r ∈ carve off lens, off.toNat ≤ r.start.toNat := by
  induction lens generalizing off with
  | nil =>
    intro r hr
    cases hr
  | cons n lens ih =>
    rw [List.sum_cons, ← Nat.add_assoc] at h
    have hnext : (off + BitVec.ofNat w n).toNat = off.toNat + n :=
      toNat_add_ofNat (lt_of_le_of_lt (Nat.le_add_right _ _) h)
    intro r hr
    rcases List.mem_cons.mp hr with rfl | hr
    · exact le_refl _
    · exact le_trans (hnext ▸ Nat.le_add_right _ _) (ih (hnext ▸ h) r hr)

/-- **Regions that do not run past the end of the memory are apart.** -/
theorem carve_pairwise (h : off.toNat + lens.sum < 2 ^ w) :
    (carve off lens).Pairwise Region.Disjoint := by
  induction lens generalizing off with
  | nil => exact List.Pairwise.nil
  | cons n lens ih =>
    rw [List.sum_cons, ← Nat.add_assoc] at h
    have hnext : (off + BitVec.ofNat w n).toNat = off.toNat + n :=
      toNat_add_ofNat (lt_of_le_of_lt (Nat.le_add_right _ _) h)
    refine List.Pairwise.cons (fun r hr => .inl ?_) (ih (hnext ▸ h))
    exact hnext.symm.trans_le (le_start_of_mem_carve (hnext ▸ h) r hr)

end Cpm8000.Sys
