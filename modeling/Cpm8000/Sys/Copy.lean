/-
# Block copies

A block copy takes the units at the addresses `src 0, …, src (n - 1)` to `dst 0, …, dst (n - 1)`.
`Copied S src dst n m m'` says that `m'` is the memory `m` after it, up to the scratch addresses
`S`; `Apart S src dst n` says that the two ranges and the scratch addresses do not meet, so that
the copy may be made a piece at a time and in any order.

* `Copied.append`: two pieces, one after the other, are one copy.
* `Copied.bounce`: a copy by way of a buffer.
* `copyUp_copied`: the loop that copies a unit at a time, seen through an address translation.
* `copyLoop_copied`: a loop that copies a chunk at a time copies, and comes to an end.
-/
import Mathlib.Tactic

namespace Cpm8000.Sys

variable {A B : Type*} {S T : Set A} {src dst buf : ℕ → A} {n k : ℕ} {m m₁ m₂ : A → B}

/-! ## 1. Ranges -/

/-- The source, the destination and the scratch addresses do not meet, and the destination names
no address twice. -/
structure Apart (S : Set A) (src dst : ℕ → A) (n : ℕ) : Prop where
  src_notMem : ∀ i < n, src i ∉ S
  dst_notMem : ∀ i < n, dst i ∉ S
  ne : ∀ i < n, ∀ j < n, src i ≠ dst j
  inj : ∀ i < n, ∀ j < n, dst i = dst j → i = j

theorem Apart.take (h : Apart S src dst n) (hk : k ≤ n) : Apart S src dst k where
  src_notMem i hi := h.src_notMem i (hi.trans_le hk)
  dst_notMem i hi := h.dst_notMem i (hi.trans_le hk)
  ne i hi j hj := h.ne i (hi.trans_le hk) j (hj.trans_le hk)
  inj i hi j hj := h.inj i (hi.trans_le hk) j (hj.trans_le hk)

theorem Apart.drop (h : Apart S src dst (k + n)) :
    Apart S (fun i => src (k + i)) (fun i => dst (k + i)) n where
  src_notMem _ hi := h.src_notMem _ (Nat.add_lt_add_left hi k)
  dst_notMem _ hi := h.dst_notMem _ (Nat.add_lt_add_left hi k)
  ne _ hi _ hj := h.ne _ (Nat.add_lt_add_left hi k) _ (Nat.add_lt_add_left hj k)
  inj _ hi _ hj hij :=
    Nat.add_left_cancel (h.inj _ (Nat.add_lt_add_left hi k) _ (Nat.add_lt_add_left hj k) hij)

theorem Apart.mono (h : Apart T src dst n) (hST : S ⊆ T) : Apart S src dst n where
  src_notMem i hi hS := h.src_notMem i hi (hST hS)
  dst_notMem i hi hS := h.dst_notMem i hi (hST hS)
  ne := h.ne
  inj := h.inj

/-! ## 2. What a copy does -/

/-- `m'` is `m` with the source copied to the destination and anything at the scratch addresses. -/
structure Copied (S : Set A) (src dst : ℕ → A) (n : ℕ) (m m' : A → B) : Prop where
  data : ∀ i < n, m' (dst i) = m (src i)
  frame : ∀ a, a ∉ S → (∀ i < n, a ≠ dst i) → m' a = m a

theorem Copied.nil : Copied S src dst 0 m m where
  data i hi := absurd hi (Nat.not_lt_zero i)
  frame _ _ _ := rfl

theorem Copied.mono (h : Copied S src dst n m m₁) (hST : S ⊆ T) : Copied T src dst n m m₁ where
  data := h.data
  frame a ha := h.frame a fun hS => ha (hST hS)

/-- **A copy in two pieces.** -/
theorem Copied.append (h₁ : Copied S src dst k m m₁)
    (h₂ : Copied S (fun i => src (k + i)) (fun i => dst (k + i)) n m₁ m₂)
    (h : Apart S src dst (k + n)) : Copied S src dst (k + n) m m₂ where
  data i hi := by
    rcases lt_or_ge i k with hik | hki
    · rw [← h₁.data i hik]
      refine h₂.frame _ (h.dst_notMem i hi) fun j hj hij => ?_
      exact absurd (h.inj i hi _ (Nat.add_lt_add_left hj k) hij) (by omega)
    · obtain ⟨j, rfl⟩ := Nat.exists_eq_add_of_le hki
      rw [h₂.data j (Nat.lt_of_add_lt_add_left hi)]
      exact h₁.frame _ (h.src_notMem _ hi) fun l hl => h.ne _ hi l (hl.trans_le (Nat.le_add_right k n))
  frame a ha hne := by
    have hlast : m₂ a = m₁ a := h₂.frame a ha fun i hi => hne _ (Nat.add_lt_add_left hi k)
    rw [hlast]
    exact h₁.frame a ha fun i hi => hne i (hi.trans_le (Nat.le_add_right k n))

/-- **A copy by way of a buffer** lying among the scratch addresses. -/
theorem Copied.bounce (h₁ : Copied ∅ src buf n m m₁) (h₂ : Copied ∅ buf dst n m₁ m₂)
    (hbuf : ∀ i < n, buf i ∈ S) : Copied S src dst n m m₂ where
  data i hi := by rw [h₂.data i hi, h₁.data i hi]
  frame a ha hne := by
    rw [h₂.frame a (Set.notMem_empty a) hne]
    exact h₁.frame a (Set.notMem_empty a) fun i hi hai => ha (hai ▸ hbuf i hi)

/-! ## 3. Copying a unit at a time -/

variable {w : ℕ} [DecidableEq A]

/-- Copy `n` units upwards from `p` to `q`, the pointers wrapping round, through a translation of
the addresses. -/
def copyUp (t : BitVec w → A) : ℕ → BitVec w → BitVec w → (A → B) → A → B
  | 0, _, _, m => m
  | n + 1, p, q, m => copyUp t n (p + 1) (q + 1) (Function.update m (t q) (m (t p)))

theorem copied_update (p q : A) : Copied S (fun _ => p) (fun _ => q) 1 m
    (Function.update m q (m p)) where
  data _ _ := Function.update_self q (m p) m
  frame _ _ hne := Function.update_of_ne (hne 0 Nat.one_pos) (m p) m

theorem add_ofNat_succ (p : BitVec w) (i : ℕ) :
    p + BitVec.ofNat w (1 + i) = p + 1 + BitVec.ofNat w i := by
  rw [BitVec.ofNat_add, ← BitVec.add_assoc]
  rfl

/-- **The copying loop copies.** -/
theorem copyUp_copied {t : BitVec w → A} {p q : BitVec w}
    (h : Apart S (fun i => t (p + BitVec.ofNat w i)) (fun i => t (q + BitVec.ofNat w i)) n) :
    Copied S (fun i => t (p + BitVec.ofNat w i)) (fun i => t (q + BitVec.ofNat w i)) n m
      (copyUp t n p q m) := by
  induction n generalizing p q m with
  | zero => exact .nil
  | succ n ih =>
    rw [Nat.add_comm] at h ⊢
    have hrest := h.drop
    simp only [add_ofNat_succ] at hrest
    have hupdate := copied_update (S := S) (m := m) (t p) (t q)
    have hfirst : Copied S (fun i => t (p + BitVec.ofNat w i)) (fun i => t (q + BitVec.ofNat w i)) 1
        m (Function.update m (t q) (m (t p))) := by
      refine ⟨fun i hi => ?_, fun a ha hne => hupdate.frame a ha fun i hi => ?_⟩
      · obtain rfl : i = 0 := by omega
        simp
      · simpa using hne 0 Nat.one_pos
    refine hfirst.append ?_ h
    simp only [add_ofNat_succ]
    rw [Nat.add_comm, copyUp]
    exact ih hrest

/-- The same, the two ranges under other names. -/
theorem copyUp_copied_of_eq {t : BitVec w → A} {p q : BitVec w} (h : Apart S src dst n)
    (hp : ∀ i < n, t (p + BitVec.ofNat w i) = src i)
    (hq : ∀ i < n, t (q + BitVec.ofNat w i) = dst i) :
    Copied S src dst n m (copyUp t n p q m) := by
  have hview : Apart S (fun i => t (p + BitVec.ofNat w i)) (fun i => t (q + BitVec.ofNat w i)) n :=
    ⟨fun i hi => hp i hi ▸ h.src_notMem i hi, fun i hi => hq i hi ▸ h.dst_notMem i hi,
      fun i hi j hj => hp i hi ▸ hq j hj ▸ h.ne i hi j hj,
      fun i hi j hj hij => h.inj i hi j hj (hq i hi ▸ hq j hj ▸ hij)⟩
  have hcopy := copyUp_copied (m := m) hview
  exact ⟨fun i hi => hq i hi ▸ hp i hi ▸ hcopy.data i hi,
    fun a ha hne => hcopy.frame a ha fun i hi => hq i hi ▸ hne i hi⟩

/-! ## 4. Copying a chunk at a time -/

variable {M : Type*}

/-- Copy `length` units by rounds: `size` says how many the next round takes, `round` makes it.
`none` when the fuel runs out or a round fails. -/
def copyLoop (size : BitVec w → BitVec w → BitVec w → BitVec w)
    (round : BitVec w → BitVec w → BitVec w → M → Option M) :
    ℕ → BitVec w → BitVec w → BitVec w → M → Option M
  | 0, _, _, _, _ => none
  | fuel + 1, source, dest, length, s =>
    if 0 < length then
      let n := size source dest length
      (round source dest n s).bind
        (copyLoop size round fuel (source + n) (dest + n) (length - n))
    else some s

omit [DecidableEq A] in
/-- **The loop rule.**  `I` is the invariant of the loop; each round takes at least one unit, and no
more than are left, copies them and keeps the invariant. -/
theorem copyLoop_copied (mem : M → A → B) (I : BitVec w → BitVec w → BitVec w → M → Prop)
    {srcAt dstAt : BitVec w → ℕ → A} {size : BitVec w → BitVec w → BitVec w → BitVec w}
    {round : BitVec w → BitVec w → BitVec w → M → Option M}
    (hsrc : ∀ a n i, srcAt a (n.toNat + i) = srcAt (a + n) i)
    (hdst : ∀ a n i, dstAt a (n.toNat + i) = dstAt (a + n) i)
    (hsize : ∀ p q l, 0 < l → 0 < (size p q l).toNat ∧ (size p q l).toNat ≤ l.toNat)
    (hround : ∀ p q l s, I p q l s → 0 < l →
      Apart S (srcAt p) (dstAt q) (size p q l).toNat →
      ∃ t, round p q (size p q l) s = some t ∧
        Copied S (srcAt p) (dstAt q) (size p q l).toNat (mem s) (mem t) ∧
        I (p + size p q l) (q + size p q l) (l - size p q l) t)
    {fuel : ℕ} {p q l : BitVec w} {s : M} (hfuel : l.toNat < fuel) (hI : I p q l s)
    (h : Apart S (srcAt p) (dstAt q) l.toNat) :
    ∃ t, copyLoop size round fuel p q l s = some t ∧
      Copied S (srcAt p) (dstAt q) l.toNat (mem s) (mem t) ∧ ∃ p' q', I p' q' 0 t := by
  induction fuel generalizing p q l s with
  | zero => exact absurd hfuel (Nat.not_lt_zero _)
  | succ fuel ih =>
    rw [copyLoop]
    by_cases hl : 0 < l
    · obtain ⟨hn, hle⟩ := hsize p q l hl
      obtain ⟨t₁, ht₁, hcopy₁, hI₁⟩ := hround p q l s hI hl (h.take hle)
      rw [if_pos hl]
      generalize size p q l = n at hn hle ht₁ hcopy₁ hI₁ ⊢
      have hsub : (l - n).toNat = l.toNat - n.toNat :=
        BitVec.toNat_sub_of_le (BitVec.le_def.mpr hle)
      have hsplit : l.toNat = n.toNat + (l - n).toNat := by omega
      rw [hsplit] at h ⊢
      have hrest := h.drop
      simp only [hsrc, hdst] at hrest
      obtain ⟨t, ht, hcopy, hend⟩ := ih (by omega) hI₁ hrest
      refine ⟨t, by simp only [ht₁, Option.bind_some, ht], hcopy₁.append ?_ h, hend⟩
      simpa only [hsrc, hdst] using hcopy
    · have hl0 : l = 0 := by
        apply BitVec.eq_of_toNat_eq
        rw [BitVec.lt_def] at hl
        simpa using hl
      rw [if_neg hl]
      rw [hl0] at hI ⊢
      exact ⟨s, rfl, .nil, p, q, hI⟩

end Cpm8000.Sys
