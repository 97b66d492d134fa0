/-
# Where the segments go

`p1doseg` gives each segment of a module a place in an output segment. `map` and `segrel` have it, but
for the width of their entries: `SegFrame` says what else may change, and `p1doseg_filled` that the
places of all modules fill the output segments one after the other.
-/
import Cpm8000.Linker.Modules
import Cpm8000.Sys.Bump
import Cpm8000.Sys.Run

namespace Cpm8000.Linker

open Sys

/-- The elements before one of a list have the smaller numbers. -/
theorem zipIdx_split {α : Type*} {l : List α} {pre post : List (α × ℕ)} {x : α × ℕ}
    (h : l.zipIdx = pre ++ x :: post) : x.2 = pre.length ∧ ∀ y ∈ pre, y.2 < pre.length := by
  have hnumber : ∀ (k : ℕ) (z : α × ℕ), (pre ++ x :: post)[k]? = some z → z.2 = k := by
    intro k z hz
    rw [← h, List.getElem?_zipIdx] at hz
    obtain ⟨a, -, rfl⟩ := Option.map_eq_some_iff.mp hz
    exact Nat.zero_add k
  constructor
  · refine hnumber pre.length x ?_
    rw [List.getElem?_append_right (le_refl _), Nat.sub_self]
    rfl
  · intro y hy
    obtain ⟨k, hk, rfl⟩ := List.mem_iff_getElem.mp hy
    have hnum := hnumber k pre[k] (by rw [List.getElem?_append_left hk, List.getElem?_eq_getElem hk])
    rw [hnum]
    exact hk

namespace Ld

variable {cc : Compiler} {s t u : Ld} {f : XFile} {i k : ℕ} {xp : XSg} {y : XSym}

/-! ## 1. What else changes -/

/-- The state but for what the placement of segments is kept in. -/
def SegFrame (s t : Ld) : Prop :=
  ∃ segtab modmap modsym modno map mapx maps symap symx syms hpos segrel errcnt, t =
    { s with
      segtab := segtab
      modmap := modmap
      modsym := modsym
      modno := modno
      map := map
      mapx := mapx
      maps := maps
      symap := symap
      symx := symx
      syms := syms
      hpos := hpos
      segrel := segrel
      errcnt := errcnt }

namespace SegFrame

theorem refl (s : Ld) : SegFrame s s := ⟨_, _, _, _, _, _, _, _, _, _, _, _, _, rfl⟩

theorem trans (h : SegFrame s t) (h' : SegFrame t u) : SegFrame s u := by
  obtain ⟨_, _, _, _, _, _, _, _, _, _, _, _, _, rfl⟩ := h
  obtain ⟨_, _, _, _, _, _, _, _, _, _, _, _, _, rfl⟩ := h'
  exact ⟨_, _, _, _, _, _, _, _, _, _, _, _, _, rfl⟩

end SegFrame

theorem p1start_eq (h : s.p1start f = some t) : s.modno < MODNO ∧
    s.mapx + f.x_sg.length ≤ MAPNO ∧ s.symx + f.x_sym.length ≤ SYMPNO ∧ t =
      { s with
        maps := s.mapx
        syms := s.symx
        modmap := Function.update s.modmap s.modno s.mapx
        modsym := Function.update s.modsym s.modno s.symx
        modno := s.modno + 1
        mapx := s.mapx + f.x_sg.length
        symx := s.symx + f.x_sym.length } := by
  unfold p1start at h
  dsimp only at h
  by_cases hmod : s.modno ≥ MODNO
  · rw [if_pos hmod] at h
    cases h
  · rw [if_neg hmod] at h
    by_cases hroom : s.mapx + f.x_sg.length > MAPNO ∨ s.symx + f.x_sym.length > SYMPNO
    · rw [if_pos hroom] at h
      cases h
    · rw [if_neg hroom] at h
      rw [not_or, not_lt, not_lt] at hroom
      exact ⟨not_le.mp hmod, hroom.1, hroom.2, (Option.some.inj h).symm⟩

/-- The first loop leaves the output segments alone. -/
theorem p1pre_eq (h : s.p1pre cc i y = some t) :
    ∃ map symap hpos, t = { s with map := map, symap := symap, hpos := hpos } := by
  unfold p1pre at h
  by_cases hseg : y.x_sy_fl = X_SY_SEG
  · rw [if_pos hseg] at h
    rcases hl : s.look cc .seghash y.x_sy_name with _ | ⟨u, _ | k⟩ <;> rw [hl] at h
    · cases h
    · obtain rfl := Option.some.inj h
      unfold look at hl
      split at hl
      · cases (Prod.mk.inj (Option.some.inj hl)).2
      · exact ⟨_, _, _, (Prod.mk.inj (Option.some.inj hl)).1.symm⟩
      · cases hl
    · obtain rfl := Option.some.inj h
      unfold look at hl
      split at hl
      · obtain ⟨rfl, -⟩ := Prod.mk.inj (Option.some.inj hl)
        exact ⟨_, _, _, rfl⟩
      · cases (Prod.mk.inj (Option.some.inj hl)).2
      · cases hl
  · rw [if_neg hseg] at h
    obtain rfl := Option.some.inj h
    exact ⟨_, _, _, rfl⟩

theorem p1seg_eq (h : s.p1seg k xp = some t) : ∃ j, s.target xp = some j ∧ t =
    { s with
      segtab := Function.update s.segtab j
        { s.segtab j with
          segtyp := newtyp (s.segtab j).segtyp xp.x_sg_typ
          segsiz := round ((s.segtab j).segsiz + xp.x_sg_len.toNat) }
      map := Function.update s.map (s.maps + k) (BitVec.ofNat 8 j)
      segrel := Function.update s.segrel k (BitVec.ofNat 16 (s.segtab j).segsiz)
      errcnt := if (s.segtab j).segsiz + xp.x_sg_len.toNat ≥ 65536 then s.errcnt + 1
        else s.errcnt } := by
  unfold p1seg at h
  rcases ht : s.target xp with _ | j <;> rw [ht] at h
  · cases h
  · exact ⟨j, rfl, (Option.some.inj h).symm⟩

/-- The parts of `p1doseg`. -/
theorem p1doseg_parts (h : s.p1doseg cc f = some t) : ∃ u v, s.p1start f = some u ∧
    f.x_sym.zipIdx.foldlM (fun s y => s.p1pre cc y.2 y.1) u = some v ∧
      f.x_sg.zipIdx.foldlM (fun s xp => s.p1seg xp.2 xp.1) v = some t := by
  unfold p1doseg at h
  obtain ⟨u, hu, h⟩ := Option.bind_eq_some_iff.mp h
  obtain ⟨v, hv, ht⟩ := Option.bind_eq_some_iff.mp h
  exact ⟨u, v, hu, hv, ht⟩

theorem p1pres_eq {ys : List (XSym × ℕ)}
    (h : ys.foldlM (fun s y => s.p1pre cc y.2 y.1) s = some t) :
    ∃ map symap hpos, t = { s with map := map, symap := symap, hpos := hpos } := by
  refine foldlM_invariant (I := fun w => ∃ map symap hpos,
    w = { s with map := map, symap := symap, hpos := hpos }) h ⟨_, _, _, rfl⟩ ?_
  rintro x - u u' ⟨_, _, _, rfl⟩ hx
  obtain ⟨_, _, _, rfl⟩ := p1pre_eq hx
  exact ⟨_, _, _, rfl⟩

theorem p1doseg_frame (h : s.p1doseg cc f = some t) : SegFrame s t := by
  obtain ⟨u, v, hu, hv, ht⟩ := p1doseg_parts h
  obtain ⟨-, -, -, rfl⟩ := p1start_eq hu
  obtain ⟨_, _, _, rfl⟩ := p1pres_eq hv
  refine foldlM_invariant (I := SegFrame s) ht ⟨_, _, _, _, _, _, _, _, _, _, _, _, _, rfl⟩ ?_
  rintro x - u u' hframe hx
  obtain ⟨j, -, rfl⟩ := p1seg_eq hx
  exact hframe.trans ⟨_, _, _, _, _, _, _, _, _, _, _, _, _, rfl⟩

/-! ## 2. Places -/

/-- How much of an output segment is given out. -/
def mark (s : Ld) (j : ℕ) : ℕ := (s.segtab j).segsiz

/-- What is kept of a place: a character for the segment, 16 bits for where it begins. -/
def kept (p : Place) : Place := ⟨p.area % 256, p.start % 65536, p.len⟩

/-- The place of segment `k` of the last module. -/
def seg_place (s : Ld) (k : ℕ) (xp : XSg) : Place :=
  ⟨(s.map (s.maps + k)).toNat, (s.segrel k).toNat, xp.x_sg_len.toNat⟩

/-- The places of the segments of the last module. -/
def seg_places (s : Ld) (f : XFile) : List Place := f.x_sg.zipIdx.map fun x => s.seg_place x.2 x.1

/-- The segments of the preassigned list are in the table, or just behind it. -/
def Prealloc (s : Ld) : Prop := ∀ i ∈ s.prelist, i ≤ SEGNO

/-- A segment that is found is of a type that fits, and there is room. -/
theorem findseg_fits {typ : Byte} {siz : BitVec 16} (h : s.findseg typ siz = some i) :
    oktyp (s.segtab i).segtyp typ = true ∧ s.mark i + siz.toNat < 65536 := by
  unfold findseg at h
  dsimp only at h
  split at h
  · rename_i j hj
    obtain rfl := Option.some.inj h
    have hfits := List.find?_some hj
    rw [Bool.and_eq_true, decide_eq_true_eq] at hfits
    exact hfits
  · have hfits := List.find?_some h
    rw [Bool.and_eq_true, Bool.and_eq_true, decide_eq_true_eq] at hfits
    exact hfits.1

theorem findseg_le {typ : Byte} {siz : BitVec 16} (hp : s.Prealloc) (h : s.findseg typ siz = some i) :
    i ≤ SEGNO := by
  unfold findseg at h
  dsimp only at h
  split at h
  · rename_i j hj
    obtain rfl := Option.some.inj h
    exact hp j (List.mem_of_find?_eq_some hj)
  · exact Nat.le_of_lt (List.mem_range.mp (List.mem_of_find?_eq_some h))

theorem target_le (hp : s.Prealloc) {j : ℕ} (h : s.target xp = some j) : j ≤ SEGNO := by
  unfold target at h
  dsimp only at h
  split_ifs at h
  · exact findseg_le hp h
  · obtain rfl := Option.some.inj h
    rw [BitVec.toNat_and]
    exact Nat.le_of_lt (Nat.lt_succ_of_le Nat.and_le_right)

/-- **One segment** is placed behind what is there. -/
theorem p1seg_filled {l : List Place} (hp : s.Prealloc) (hl : Filled s.mark l)
    (h : s.p1seg k xp = some t) : ∃ p : Place, p.area ≤ SEGNO ∧ Filled t.mark (l ++ [p]) ∧
      t.seg_place k xp = kept p ∧ t.maps = s.maps ∧ t.prelist = s.prelist ∧
        ∀ i xp', i ≠ k → t.seg_place i xp' = s.seg_place i xp' := by
  obtain ⟨j, hj, rfl⟩ := p1seg_eq h
  refine ⟨⟨j, s.mark j, xp.x_sg_len.toNat⟩, target_le hp hj, ?_, ?_, rfl, rfl, ?_⟩
  · refine hl.alloc (le_refl _) ?_ fun a => ?_
    · change _ ≤ (Function.update s.segtab j _ j).segsiz
      rw [Function.update_self]
      exact le_round _
    · change _ ≤ (Function.update s.segtab j _ a).segsiz
      by_cases ha : a = j
      · rw [ha, Function.update_self]
        exact Nat.le_trans (Nat.le_add_right _ _) (le_round _)
      · rw [Function.update_of_ne ha]
        exact le_refl _
  · rw [seg_place]
    dsimp only
    rw [Function.update_self, Function.update_self, BitVec.toNat_ofNat, BitVec.toNat_ofNat]
    rfl
  · intro i xp' hi
    rw [seg_place, seg_place]
    dsimp only
    have hmap : (s.maps : ℤ) + i ≠ s.maps + k := by omega
    have hk : (i : ℤ) ≠ k := by omega
    rw [Function.update_of_ne hmap, Function.update_of_ne hk]

/-- **The segments of a module** are placed one after the other, behind what is there. -/
theorem p1doseg_filled {l : List Place} (hp : s.Prealloc) (hl : Filled s.mark l)
    (h : s.p1doseg cc f = some t) : ∃ ps : List Place, (∀ p ∈ ps, p.area ≤ SEGNO) ∧
      Filled t.mark (l ++ ps) ∧ t.seg_places f = ps.map kept := by
  obtain ⟨u, v, hu, hv, ht⟩ := p1doseg_parts h
  obtain ⟨-, -, -, rfl⟩ := p1start_eq hu
  obtain ⟨map, symap, hpos, rfl⟩ := p1pres_eq hv
  have hrun := foldlM_induction (I := fun pre w => w.prelist = s.prelist ∧
    ∃ ps : List Place, (∀ p ∈ ps, p.area ≤ SEGNO) ∧ Filled w.mark (l ++ ps) ∧
      pre.map (fun x => w.seg_place x.2 x.1) = ps.map kept) ht ?_ ?_
  · exact hrun.2
  · refine ⟨rfl, [], List.forall_mem_nil _, ?_, rfl⟩
    rw [List.append_nil]
    exact hl
  · rintro pre x post w w' hsplit - ⟨hpre, ps, hareas, hfilled, hplaces⟩ hx
    obtain ⟨hnumber, hbefore⟩ := zipIdx_split hsplit
    have hpw : w.Prealloc := by
      rw [Prealloc, hpre]
      exact hp
    obtain ⟨p, harea, hfilled', hplace, -, hprelist, hothers⟩ := p1seg_filled hpw hfilled hx
    refine ⟨hprelist.trans hpre, ps ++ [p], ?_, ?_, ?_⟩
    · intro q hq
      rcases List.mem_append.mp hq with hq | hq
      · exact hareas q hq
      · rw [List.mem_singleton] at hq
        rw [hq]
        exact harea
    · rw [← List.append_assoc]
      exact hfilled'
    · rw [List.map_append, List.map_append, ← hplaces, List.map_singleton, List.map_singleton, hplace]
      congr 1
      refine List.map_congr_left fun q hq => hothers q.2 q.1 ?_
      have := hbefore q hq
      omega

end Ld

end Cpm8000.Linker
