/-
# The order of the output segments

`interlude` places the output segments that have a size, each once: those of the preassigned list first,
then the others by number. In a final, non-segmented link a segment begins where the sizes of those before it that
are addressed in the same space end, but its part of the file begins where the sizes of those with
contents end.
-/
import Cpm8000.Linker.Positions
import Cpm8000.Linker.Ready

namespace Cpm8000.Linker

open Sys

/-! ## 1. The order -/

/-- The numbers of a list that have a size, each where it comes first. -/
def order (siz : ℕ → ℕ) : List ℕ → List ℕ
  | [] => []
  | i :: l => if siz i ≠ 0 then i :: order (Function.update siz i 0) l else order siz l

theorem mem_order {siz : ℕ → ℕ} {l : List ℕ} {j : ℕ} : j ∈ order siz l ↔ j ∈ l ∧ siz j ≠ 0 := by
  induction l generalizing siz with
  | nil => simp [order]
  | cons i l ih =>
    rw [order]
    by_cases hi : siz i ≠ 0
    · rw [if_pos hi, List.mem_cons, List.mem_cons, ih]
      by_cases hji : j = i
      · simp [hji, hi]
      · simp [hji]
    · rw [if_neg hi, ih, List.mem_cons]
      constructor
      · rintro ⟨hj, hsiz⟩
        exact ⟨.inr hj, hsiz⟩
      · rintro ⟨rfl | hj, hsiz⟩
        · exact absurd hsiz hi
        · exact ⟨hj, hsiz⟩

theorem nodup_order (siz : ℕ → ℕ) (l : List ℕ) : (order siz l).Nodup := by
  induction l generalizing siz with
  | nil => exact List.nodup_nil
  | cons i l ih =>
    rw [order]
    split_ifs
    · refine List.nodup_cons.mpr ⟨fun hi => ?_, ih _⟩
      exact (mem_order.mp hi).2 (Function.update_self ..)
    · exact ih siz

/-- As many as there are among the numbers of a list without repetitions that has them all. -/
theorem length_order {siz : ℕ → ℕ} {l l' : List ℕ} (hd : l'.Nodup)
    (h : ∀ j, siz j ≠ 0 → (j ∈ l ↔ j ∈ l')) : (order siz l).length = l'.countP fun j => siz j ≠ 0 := by
  rw [List.countP_eq_length_filter]
  refine List.Perm.length_eq ?_
  refine (List.perm_ext_iff_of_nodup (nodup_order siz l) (hd.filter _)).mpr fun j => ?_
  rw [mem_order, List.mem_filter, decide_eq_true_eq]
  exact and_congr_left (h j)

/-- Only the sizes of the list count. -/
theorem order_congr {siz siz' : ℕ → ℕ} {l : List ℕ} (h : ∀ j ∈ l, siz j = siz' j) :
    order siz l = order siz' l := by
  induction l generalizing siz siz' with
  | nil => rfl
  | cons i l ih =>
    obtain ⟨hi, hl⟩ := List.forall_mem_cons.mp h
    have hupdate : ∀ j ∈ l, Function.update siz i 0 j = Function.update siz' i 0 j := by
      intro j hj
      by_cases hji : j = i
      · rw [hji, Function.update_self, Function.update_self]
      · rw [Function.update_of_ne hji, Function.update_of_ne hji]
        exact hl j hj
    rw [order, order, hi, ih hupdate, ih hl]

/-- What has a size among more that has one comes in the same order. -/
theorem order_eq_filter {siz siz' : ℕ → ℕ} (h : ∀ j, siz j ≠ 0 → siz' j ≠ 0) (l : List ℕ) :
    order siz l = (order siz' l).filter fun j => siz j ≠ 0 := by
  induction l generalizing siz siz' with
  | nil => rfl
  | cons i l ih =>
    have hupdate : ∀ j, Function.update siz i 0 j ≠ 0 → Function.update siz' i 0 j ≠ 0 := by
      intro j hj
      by_cases hji : j = i
      · rw [hji, Function.update_self] at hj
        exact absurd rfl hj
      · rw [Function.update_of_ne hji] at hj ⊢
        exact h j hj
    have hsame : ∀ j ∈ order (Function.update siz' i 0) l,
        decide (Function.update siz i 0 j ≠ 0) = decide (siz j ≠ 0) := by
      intro j hj
      have hji : j ≠ i := by
        rintro rfl
        exact (mem_order.mp hj).2 (Function.update_self ..)
      rw [Function.update_of_ne hji]
    rw [order, order]
    by_cases hi : siz i ≠ 0
    · rw [if_pos hi, if_pos (h i hi), List.filter_cons, if_pos (decide_eq_true hi), ih hupdate,
        List.filter_congr hsame]
    · have hzero : Function.update siz i 0 = siz :=
        Function.update_eq_self_iff.mpr (not_not.mp hi).symm
      rw [if_neg hi]
      by_cases hi' : siz' i ≠ 0
      · rw [if_pos hi', List.filter_cons, decide_eq_false hi, if_neg Bool.false_ne_true,
          ← List.filter_congr hsame, ← ih hupdate, hzero]
      · rw [if_neg hi']
        exact ih h

namespace Layout

theorem interpos_segsiz (r : Layout) (i : ℕ) : (fun j => ((r.interpos i).ld.segtab j).segsiz) =
    Function.update (fun j => (r.ld.segtab j).segsiz) i 0 := by
  funext j
  unfold interpos
  dsimp only
  by_cases hj : j = i
  · rw [hj, Function.update_self, Function.update_self]
  · rw [Function.update_of_ne hj, Function.update_of_ne hj]

/-- **What is placed** is what has a size, once. -/
theorem foldl_place (r : Layout) (l : List ℕ) : l.foldl (fun r i => r.place i) r =
    (order (fun i => (r.ld.segtab i).segsiz) l).foldl (fun r i => r.interpos i) r := by
  induction l generalizing r with
  | nil => rfl
  | cons i l ih =>
    rw [List.foldl_cons, ih, order, place]
    split_ifs
    · rw [List.foldl_cons, interpos_segsiz]
    · rfl

/-- The counter of a space. -/
def counter (r : Layout) (sp : Bool) : ℕ := if r.ld.splitid && !sp then r.relvalc else r.relval

end Layout

/-! ## 2. Sizes -/

namespace Ld

/-- A final, non-segmented link with code and data in one space. -/
structure Flat (v : Ld) : Prop where
  nonseg : v.nonseg = true
  saverel : v.saverel = false
  splitid : v.splitid = false

variable (v : Ld)

/-- The sizes of some output segments. -/
def extent (l : List ℕ) : ℕ := (l.map fun i => (v.segtab i).segsiz).sum

/-- An output segment with contents in the file. -/
def HasData (i : ℕ) : Prop := idata (v.segtab i).segtyp = true

instance (i : ℕ) : Decidable (v.HasData i) := inferInstanceAs (Decidable (_ = true))

/-- The sizes of those with contents. -/
def filed (l : List ℕ) : ℕ := v.extent (l.filter fun i => v.HasData i)

@[simp] theorem extent_nil : v.extent [] = 0 := rfl

@[simp] theorem extent_cons (i : ℕ) (l : List ℕ) :
    v.extent (i :: l) = (v.segtab i).segsiz + v.extent l := List.sum_cons

@[simp] theorem extent_append (l l' : List ℕ) : v.extent (l ++ l') = v.extent l + v.extent l' := by
  rw [extent, List.map_append, List.sum_append]
  rfl

@[simp] theorem filed_nil : v.filed [] = 0 := rfl

theorem filed_cons (i : ℕ) (l : List ℕ) : v.filed (i :: l) =
    (if v.HasData i then (v.segtab i).segsiz else 0) + v.filed l := by
  rw [filed, List.filter_cons]
  by_cases hi : v.HasData i
  · rw [if_pos hi, if_pos (decide_eq_true hi), extent_cons]
    rfl
  · rw [if_neg hi, decide_eq_false hi, if_neg Bool.false_ne_true, Nat.zero_add]
    rfl

@[simp] theorem filed_append (l l' : List ℕ) : v.filed (l ++ l') = v.filed l + v.filed l' := by
  rw [filed, List.filter_append, extent_append]
  rfl

theorem filed_le (l : List ℕ) : v.filed l ≤ v.extent l := by
  induction l with
  | nil => exact le_refl _
  | cons i l ih =>
    rw [filed_cons, extent_cons]
    split_ifs
    · exact Nat.add_le_add_left ih _
    · omega

/-- The two are the same just when all that has a size has contents. -/
theorem filed_eq_iff {l : List ℕ} (hsiz : ∀ i ∈ l, (v.segtab i).segsiz ≠ 0) :
    v.filed l = v.extent l ↔ ∀ i ∈ l, v.HasData i := by
  induction l with
  | nil => simp
  | cons i l ih =>
    have htail := ih fun j hj => hsiz j (List.mem_cons_of_mem i hj)
    have hi := hsiz i List.mem_cons_self
    have hle := v.filed_le l
    rw [filed_cons, extent_cons, List.forall_mem_cons, ← htail]
    split_ifs with hdata
    · simp [hdata]
    · refine iff_of_false ?_ fun h => hdata h.1
      omega

/-- The order the output segments are placed in. -/
def placing : List ℕ := order (fun i => (v.segtab i).segsiz) (v.prelist ++ List.range SEGNO)

/-- Where the contents begin in the file. -/
def body_pos : ℕ := XHSIZ + v.unplaced.objnseg * SGSIZ

variable {v}

theorem mem_placing {j : ℕ} :
    j ∈ v.placing ↔ (j ∈ v.prelist ∨ j < SEGNO) ∧ (v.segtab j).segsiz ≠ 0 := by
  rw [placing, mem_order, List.mem_append, List.mem_range]

/-! ## 3. Spaces -/

/-- A final, non-segmented link. -/
structure Final (v : Ld) : Prop where
  nonseg : v.nonseg = true
  saverel : v.saverel = false

theorem Flat.final (h : v.Flat) : v.Final := ⟨h.nonseg, h.saverel⟩

/-- The space an output segment is addressed in: that of the data, in a link with split I/D. -/
def space (v : Ld) (i : ℕ) : Bool := v.splitid && decide ((v.segtab i).segtyp ≠ X_SG_COD)

theorem splitid_of_space {i : ℕ} (h : v.space i = true) : v.splitid = true :=
  (Bool.and_eq_true_iff.mp h).1

/-- The sizes of those that are addressed in a space. -/
def spanned (v : Ld) (sp : Bool) (l : List ℕ) : ℕ := v.extent (l.filter fun i => v.space i = sp)

@[simp] theorem spanned_nil (sp : Bool) : v.spanned sp [] = 0 := rfl

@[simp] theorem spanned_append (sp : Bool) (l l' : List ℕ) :
    v.spanned sp (l ++ l') = v.spanned sp l + v.spanned sp l' := by
  rw [spanned, List.filter_append, extent_append]
  rfl

theorem spanned_cons (sp : Bool) (i : ℕ) (l : List ℕ) : v.spanned sp (i :: l) =
    (if v.space i = sp then (v.segtab i).segsiz else 0) + v.spanned sp l := by
  rw [spanned, List.filter_cons]
  by_cases hi : v.space i = sp
  · rw [if_pos hi, if_pos (decide_eq_true hi), extent_cons]
    rfl
  · rw [if_neg hi, decide_eq_false hi, if_neg Bool.false_ne_true, Nat.zero_add]
    rfl

/-- There is one space. -/
theorem Flat.spanned (hv : v.Flat) (l : List ℕ) : v.spanned false l = v.extent l := by
  have hspace : ∀ i ∈ l, decide (v.space i = false) = true := by
    intro i _
    rw [space, hv.splitid]
    rfl
  rw [Ld.spanned, List.filter_eq_self.mpr hspace]

theorem interpos_counter {r : Layout} (hr : r.ld.Final) {sp : Bool} (hsp : sp = true → r.ld.splitid = true)
    (i : ℕ) : (r.interpos i).counter sp =
      r.counter sp + if r.ld.space i = sp then (r.ld.segtab i).segsiz else 0 := by
  unfold Layout.interpos Layout.counter space
  dsimp only
  rw [hr.nonseg, hr.saverel]
  cases hsplit : r.ld.splitid
  · rw [hsplit] at hsp
    have hfalse : sp = false := by simpa using hsp
    rw [hfalse]
    rfl
  · by_cases hcod : (r.ld.segtab i).segtyp = X_SG_COD <;> cases sp
    all_goals simp [hcod]

theorem interpos_segrel {r : Layout} (i : ℕ) :
    ((r.interpos i).ld.segtab i).segrel = BitVec.ofNat 16 (r.counter (r.ld.space i)) := by
  unfold Layout.interpos Layout.counter space
  dsimp only
  rw [Function.update_self]
  cases r.ld.splitid
  · rfl
  · by_cases hcod : (r.ld.segtab i).segtyp = X_SG_COD
    · simp [hcod]
    · simp [hcod]

/-! ## 4. Places -/

/-- An output segment with the place it gets behind some others. -/
def addressed_at (v : Ld) (pre : List ℕ) (i : ℕ) : SegTab :=
  { v.segtab i with
    segpos := if v.HasData i then v.body_pos + v.filed pre else (v.segtab i).segpos
    segrel := BitVec.ofNat 16 (v.spanned (v.space i) pre)
    hiwat := BitVec.ofNat 16 (v.segtab i).segsiz
    segsiz := 0 }

/-- The same with one space. -/
def placed_at (v : Ld) (pre : List ℕ) (i : ℕ) : SegTab :=
  { v.segtab i with
    segpos := if v.HasData i then v.body_pos + v.filed pre else (v.segtab i).segpos
    segrel := BitVec.ofNat 16 (v.extent pre)
    hiwat := BitVec.ofNat 16 (v.segtab i).segsiz
    segsiz := 0 }

theorem Flat.addressed_at (hv : v.Flat) (pre : List ℕ) (i : ℕ) :
    v.addressed_at pre i = v.placed_at pre i := by
  have hspace : v.space i = false := by
    rw [space, hv.splitid]
    rfl
  unfold Ld.addressed_at placed_at
  rw [hspace, hv.spanned]

/-- What there is when the segments `pre` are placed. -/
structure Laid (v : Ld) (pre : List ℕ) (r : Layout) : Prop where
  final : r.ld.Final
  splitid : r.ld.splitid = v.splitid
  objnseg : r.objnseg = v.unplaced.objnseg
  relpos : r.relpos = v.body_pos + v.filed pre
  counter : ∀ sp, (sp = true → v.splitid = true) → r.counter sp = v.spanned sp pre
  prelist : r.ld.prelist = v.prelist
  others : ∀ j, j ∉ pre → r.ld.segtab j = v.segtab j
  places : ∀ l i l', pre = l ++ i :: l' → r.ld.segtab i = v.addressed_at l i

theorem Laid.interpos {pre : List ℕ} {r : Layout} {i : ℕ} (h : Laid v pre r) (hi : i ∉ pre) :
    Laid v (pre ++ [i]) (r.interpos i) := by
  have hat := h.others i hi
  have hspace : r.ld.space i = v.space i := by
    rw [space, h.splitid, hat]
    rfl
  refine ⟨⟨h.final.nonseg, h.final.saverel⟩, h.splitid, h.objnseg, ?_, fun sp hsp => ?_, h.prelist, ?_, ?_⟩
  · unfold Layout.interpos
    dsimp only
    rw [hat, h.relpos, filed_append, filed_cons, filed_nil, Nat.add_zero]
    by_cases hdata : v.HasData i
    · have hinit : idata (v.segtab i).segtyp = true := hdata
      rw [if_pos hdata, if_pos hinit, Nat.add_assoc]
    · have hinit : ¬ idata (v.segtab i).segtyp = true := hdata
      rw [if_neg hdata, if_neg hinit, Nat.add_zero]
  · rw [interpos_counter h.final (h.splitid ▸ hsp), h.counter sp hsp, hspace, hat, spanned_append,
      spanned_cons, spanned_nil, Nat.add_zero]
  · intro j hj
    rw [List.mem_append, List.mem_singleton, not_or] at hj
    unfold Layout.interpos
    dsimp only
    rw [Function.update_of_ne hj.2]
    exact h.others j hj.1
  · intro l j l' hsplit
    rcases List.eq_nil_or_concat l' with rfl | ⟨l', k, rfl⟩
    · obtain ⟨rfl, hlast⟩ := List.append_inj' hsplit rfl
      obtain rfl := (List.cons.inj hlast).1
      have hrel := @interpos_segrel r i
      rw [hspace, h.counter _ splitid_of_space] at hrel
      unfold Layout.interpos at hrel ⊢
      dsimp only at hrel ⊢
      rw [Function.update_self] at hrel ⊢
      dsimp only at hrel
      rw [hrel, hat, h.relpos]
      rfl
    · rw [List.concat_eq_append, ← List.cons_append, ← List.append_assoc] at hsplit
      obtain ⟨rfl, -⟩ := List.append_inj' hsplit rfl
      have hji : j ≠ i := by
        rintro rfl
        exact hi (by simp)
      unfold Layout.interpos
      dsimp only
      rw [Function.update_of_ne hji]
      exact h.places l j l' rfl

theorem Laid.foldl {pre o : List ℕ} {r : Layout} (h : Laid v pre r) (hd : (pre ++ o).Nodup) :
    Laid v (pre ++ o) (o.foldl (fun r i => r.interpos i) r) := by
  induction o generalizing pre r with
  | nil =>
    rw [List.append_nil]
    exact h
  | cons i o ih =>
    have hi : i ∉ pre := fun hpre =>
      (List.nodup_append.mp hd).2.2 i hpre i List.mem_cons_self rfl
    have hassoc : pre ++ i :: o = pre ++ [i] ++ o := by simp
    rw [hassoc] at hd ⊢
    exact ih (h.interpos hi) hd

theorem Final.unplaced_ld (hv : v.Final) : v.unplaced.ld = v := by
  unfold unplaced
  dsimp only
  rw [if_neg]
  simp [hv.nonseg, hv.saverel]

/-- **The placed segments.** -/
theorem Final.laid (hv : v.Final) : Laid v v.placing v.placed := by
  have hplaced : v.placed =
      v.placing.foldl (fun r i => r.interpos i) v.unplaced := by
    rw [placed, ← List.foldl_append, Layout.foldl_place, hv.unplaced_ld]
    rfl
  have hbegin : Laid v [] v.unplaced := by
    refine ⟨?_, ?_, rfl, ?_, fun sp _ => ?_, ?_, ?_, ?_⟩
    · rw [hv.unplaced_ld]
      exact hv
    · rw [hv.unplaced_ld]
    · unfold unplaced body_pos
      rfl
    · unfold Layout.counter unplaced
      dsimp only
      split_ifs
      · rfl
      · rfl
      · rfl
      · rfl
    · rw [hv.unplaced_ld]
    · intro j _
      rw [hv.unplaced_ld]
    · intro l i l' h
      simp at h
  rw [hplaced]
  exact hbegin.foldl (nodup_order _ _)

/-- **The addresses are below 64 KB** where no error is reported. -/
theorem Final.spanned_lt (hv : v.Final) (herr : v.interlude.ld.errcnt = 0) (sp : Bool)
    (hsp : sp = true → v.splitid = true) : v.spanned sp v.placing < 65536 := by
  have hcounter := hv.laid.counter sp hsp
  have hfix : ∀ s : Ld, s.fix.errcnt = s.errcnt := by
    intro s
    unfold fix
    split_ifs
    · rfl
    · rfl
  unfold interlude at herr
  rw [← hcounter]
  generalize v.placed = r at herr
  dsimp only at herr
  rw [hfix] at herr
  split_ifs at herr with hc hd hd
  · exact absurd herr (Nat.succ_ne_zero _)
  · exact absurd herr (Nat.succ_ne_zero _)
  · exact absurd herr (Nat.succ_ne_zero _)
  · unfold Layout.counter
    split_ifs
    · exact not_le.mp hd
    · exact not_le.mp hc

end Ld

end Cpm8000.Linker
