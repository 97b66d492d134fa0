/-
# The same places in both passes

The addresses of a link are made twice. The first pass relocates the symbols of a module by the place
each of its segments gets in the output; the second pass, which has no such list, adds the sizes of all
segments up once more, and finds the output segment in the part of `map` the first pass has left.

* `Later`: what the modules behind one leave of its part of the tables.
* `InStep`: the two passes after the same modules.
* `segments_replayed`: every segment of every module is copied and relocated at the place its symbols have.
-/
import Cpm8000.Linker.Headers
import Cpm8000.Linker.Definitions
import Cpm8000.Linker.Postab

namespace Cpm8000.Linker

open Sys

/-- No segment name of the module has a number that leads in front of its part of `map`. -/
def XFile.Inward (cc : Compiler) (f : XFile) : Prop :=
  ∀ y ∈ f.x_sym, y.x_sy_fl = X_SY_SEG → 0 ≤ cc.int_of_char y.x_sy_sg

/-- The elements behind one of a list have the greater numbers. -/
theorem zipIdx_behind {α : Type*} {l : List α} {pre post : List (α × ℕ)} {x : α × ℕ}
    (h : l.zipIdx = pre ++ x :: post) : ∀ y ∈ post, pre.length < y.2 := by
  intro y hy
  obtain ⟨before, behind, rfl⟩ := List.append_of_mem hy
  have hsplit : l.zipIdx = (pre ++ x :: before) ++ y :: behind := by simp [h]
  have hnumber := (zipIdx_split hsplit).1
  rw [List.length_append, List.length_cons] at hnumber
  omega

namespace Ld

variable {cc : Compiler} {s t t' u v w : Ld} {f : XFile} {i j k : ℕ} {xp : XSg}

/-! ## 1. What later modules leave -/

/-- The entries of the modules so far stay. -/
structure Later (s t : Ld) : Prop where
  modno : s.modno ≤ t.modno
  mapx : s.mapx ≤ t.mapx
  symx : s.symx ≤ t.symx
  modmap : ∀ m < s.modno, t.modmap m = s.modmap m
  modsym : ∀ m < s.modno, t.modsym m = s.modsym m
  map : ∀ k : ℤ, 0 ≤ k → k < s.mapx → t.map k = s.map k

namespace Later

theorem refl (s : Ld) : Later s s :=
  ⟨le_refl _, le_refl _, le_refl _, fun _ _ => rfl, fun _ _ => rfl, fun _ _ _ => rfl⟩

theorem trans (h : Later s t) (h' : Later t u) : Later s u := by
  refine ⟨h.modno.trans h'.modno, h.mapx.trans h'.mapx, h.symx.trans h'.symx, fun m hm => ?_,
    fun m hm => ?_, fun k hk hlt => ?_⟩
  · rw [h'.modmap m (hm.trans_le h.modno), h.modmap m hm]
  · rw [h'.modsym m (hm.trans_le h.modno), h.modsym m hm]
  · rw [h'.map k hk (hlt.trans_le (Int.ofNat_le.mpr h.mapx)), h.map k hk hlt]

theorem of_same (hmodno : t.modno = s.modno) (hmapx : t.mapx = s.mapx) (hsymx : t.symx = s.symx)
    (hmodmap : t.modmap = s.modmap) (hmodsym : t.modsym = s.modsym) (hmap : t.map = s.map) :
    Later s t := by
  refine ⟨hmodno.ge, hmapx.ge, hsymx.ge, fun m _ => ?_, fun m _ => ?_, fun k _ _ => ?_⟩
  · rw [hmodmap]
  · rw [hmodsym]
  · rw [hmap]

end Later

/-- What the module has of the tables. -/
structure Opened (s : Ld) (f : XFile) (t : Ld) : Prop where
  maps : t.maps = s.mapx
  syms : t.syms = s.symx
  modno : t.modno = s.modno + 1
  mapx : t.mapx = s.mapx + f.x_sg.length
  symx : t.symx = s.symx + f.x_sym.length
  modmap : t.modmap = Function.update s.modmap s.modno s.mapx
  modsym : t.modsym = Function.update s.modsym s.modno s.symx
  map : ∀ k : ℤ, 0 ≤ k → k < s.mapx → t.map k = s.map k

theorem Opened.later (h : Opened s f t) : Later s t := by
  refine ⟨?_, ?_, ?_, fun m hm => ?_, fun m hm => ?_, h.map⟩
  · rw [h.modno]
    exact Nat.le_succ _
  · rw [h.mapx]
    exact Nat.le_add_right _ _
  · rw [h.symx]
    exact Nat.le_add_right _ _
  · rw [h.modmap, Function.update_of_ne (Nat.ne_of_lt hm)]
  · rw [h.modsym, Function.update_of_ne (Nat.ne_of_lt hm)]

/-- The number of a segment name is written behind the parts of the other modules. -/
theorem p1pre_opened {y : XSym} (hy : y.x_sy_fl = X_SY_SEG → 0 ≤ cc.int_of_char y.x_sy_sg)
    (h : Opened s f t) (hp : t.p1pre cc i y = some u) : Opened s f u ∧ u.segtab = t.segtab := by
  unfold p1pre at hp
  split_ifs at hp with hseg
  · rcases hl : t.look cc .seghash y.x_sy_name with _ | ⟨t₁, _ | k⟩ <;> rw [hl] at hp
    · cases hp
    · obtain ⟨slot, rfl, -⟩ := look_none hl
      obtain rfl := Option.some.inj hp
      exact ⟨⟨h.maps, h.syms, h.modno, h.mapx, h.symx, h.modmap, h.modsym, h.map⟩, rfl⟩
    · obtain ⟨rfl, -⟩ := look_some hl
      obtain rfl := Option.some.inj hp
      refine ⟨⟨h.maps, h.syms, h.modno, h.mapx, h.symx, h.modmap, h.modsym, fun k' hk hlt => ?_⟩, rfl⟩
      have hpos := hy hseg
      have hmaps := h.maps
      rw [← h.map k' hk hlt]
      exact Function.update_of_ne (by omega) _ _
  · obtain rfl := Option.some.inj hp
    exact ⟨h, rfl⟩

/-- The module is placed as far as its first `n` segments. -/
structure Placing (s : Ld) (f : XFile) (t : Ld) : Prop extends Opened s f t where
  prealloc : t.Prealloc

theorem p1start_placing (hp : s.Prealloc) (hf : f.Inward cc) (hu : s.p1start f = some u)
    (hv : f.x_sym.zipIdx.foldlM (fun s y => s.p1pre cc y.2 y.1) u = some v) :
    Placing s f v ∧ v.segtab = s.segtab := by
  obtain ⟨-, -, -, rfl⟩ := p1start_eq hu
  have hpre := foldlM_invariant (I := fun w : Ld => Opened s f w ∧ w.segtab = s.segtab) hv
    ⟨⟨rfl, rfl, rfl, rfl, rfl, rfl, rfl, fun _ _ _ => rfl⟩, rfl⟩ ?_
  · obtain ⟨_, _, _, rfl⟩ := p1pres_eq hv
    exact ⟨⟨hpre.1, hp⟩, hpre.2⟩
  · rintro ⟨y, i⟩ hmem w w' ⟨hw, hsegtab⟩ hstep
    obtain ⟨hw', hsame⟩ := p1pre_opened (hf y (List.fst_mem_of_mem_zipIdx hmem)) hw hstep
    exact ⟨hw', hsame.trans hsegtab⟩

theorem p1seg_placing (h : Placing s f t) (hk : t.p1seg k xp = some u) : Placing s f u := by
  obtain ⟨j, -, rfl⟩ := p1seg_eq hk
  refine ⟨⟨h.maps, h.syms, h.modno, h.mapx, h.symx, h.modmap, h.modsym, fun k' hk' hlt => ?_⟩, h.prealloc⟩
  have hmaps := h.maps
  rw [← h.map k' hk' hlt]
  exact Function.update_of_ne (by omega) _ _

/-- The symbols of a module touch none of this. -/
theorem p1dosym_same (h : t.p1dosym cc f = some u) : u.segtab = t.segtab ∧ u.map = t.map ∧ u.maps = t.maps ∧
    u.segrel = t.segrel ∧ u.prelist = t.prelist ∧ (Opened s f t → Opened s f u) := by
  obtain ⟨_, _, _, _, _, _, _, rfl⟩ := p1dosym_frame h
  exact ⟨rfl, rfl, rfl, rfl, rfl, fun h => ⟨h.maps, h.syms, h.modno, h.mapx, h.symx, h.modmap, h.modsym, h.map⟩⟩

theorem p1module_opened (hp : s.Prealloc) (hf : f.Inward cc) (h : s.p1module cc f = some t) :
    Opened s f t := by
  unfold p1module at h
  obtain ⟨u, hu, ht⟩ := Option.bind_eq_some_iff.mp h
  obtain ⟨v, w, hv, hw, hsegs⟩ := p1doseg_parts hu
  obtain ⟨hbegin, -⟩ := p1start_placing hp hf hv hw
  have hplaced : Placing s f u := by
    refine foldlM_invariant (I := Placing s f) hsegs hbegin ?_
    intro x _ w w' hw hx
    exact p1seg_placing hw hx
  obtain ⟨-, -, -, -, -, hopened⟩ := @p1dosym_same cc s u t f ht
  exact hopened hplaced.toOpened

/-- What the other segments of a module leave of segment `k`. -/
theorem p1segs_at {l : List (XSg × ℕ)} (h : l.foldlM (fun s xp => s.p1seg xp.2 xp.1) s = some t)
    (hk : ∀ x ∈ l, x.2 ≠ k) :
    t.maps = s.maps ∧ t.map (s.maps + k) = s.map (s.maps + k) ∧ t.segrel k = s.segrel k := by
  refine foldlM_invariant (I := fun w : Ld => w.maps = s.maps ∧ w.map (s.maps + k) = s.map (s.maps + k) ∧
    w.segrel k = s.segrel k) h ⟨rfl, rfl, rfl⟩ ?_
  rintro x hx w w' ⟨hmaps, hmap, hrel⟩ hstep
  obtain ⟨j, -, rfl⟩ := p1seg_eq hstep
  have hne := hk x hx
  refine ⟨hmaps, ?_, ?_⟩
  · rw [← hmap, hmaps]
    exact Function.update_of_ne (by omega) _ _
  · rw [← hrel]
    exact Function.update_of_ne (by omega) _ _

end Ld

/-! ## 2. The second pass -/

namespace P2

variable {cc : Compiler} {s t p q : P2} {rest rest' : List Byte} {i j : ℕ} {xp : XSg}

/-- **What one segment does** to the rest of the variables. -/
theorem p2seg_fields (hj : j = (s.ld.map (s.ld.maps + i)).toNat) (h : s.p2seg rest i xp = some (t, rest')) :
    (∃ segtab, t.ld =
      { s.ld with
        segrel := Function.update s.ld.segrel i
          ((s.ld.segtab j).segrel + BitVec.ofNat 16 (s.ld.segtab j).segsiz)
        segtab := segtab }) ∧
      t.segsiz = Function.update s.segsiz i (BitVec.ofNat 16 (s.ld.segtab j).segsiz) ∧
        t.segpos = Function.update s.segpos i (s.ld.segtab j).segpos := by
  unfold p2seg at h
  dsimp only at h
  rw [← hj] at h
  split_ifs at h
  · obtain ⟨rfl, -⟩ := Prod.mk.inj (Option.some.inj h)
    exact ⟨⟨_, rfl⟩, rfl, rfl⟩
  · obtain ⟨rfl, -⟩ := Prod.mk.inj (Option.some.inj h)
    exact ⟨⟨_, rfl⟩, rfl, rfl⟩

/-- The items of a module may count errors. -/
theorem p2rels_ld {n : ℕ} (h : p2rels cc n rest s = some t) : ∃ e, t.ld = { s.ld with errcnt := e } := by
  induction n generalizing s rest with
  | zero =>
    obtain rfl := Option.some.inj h
    exact ⟨_, rfl⟩
  | succ n ih =>
    rw [p2rels] at h
    split_ifs at h
    obtain ⟨e, he⟩ := ih h
    refine ⟨e, ?_⟩
    rcases reloc_ld cc s (rel_of rest) with hld | hld
    · rw [he, hld]
    · rw [he, hld]
      rfl

theorem p2dorel_ld {n : ℕ} (h : s.p2dorel cc n rest = some t) : ∃ e, t.ld = { s.ld with errcnt := e } := by
  unfold p2dorel at h
  obtain ⟨u, hu, rfl⟩ := Option.map_eq_some_iff.mp h
  rw [flshbuf_ld]
  exact p2rels_ld hu

end P2

/-! ## 3. Both passes -/

namespace Ld

variable {cc : Compiler} {s t t' u v w : Ld} {f : XFile} {i j k : ℕ} {xp : XSg} {p p' q : P2}
  {rest : List Byte}

/-- **The two passes after the same modules**: `v` is the state the first pass ends in. -/
structure InStep (v t : Ld) (p : P2) : Prop where
  modno : p.ld.modno = t.modno
  modmap : p.ld.modmap = v.modmap
  modsym : p.ld.modsym = v.modsym
  map : p.ld.map = v.map
  symap : p.ld.symap = v.symap
  segrel : ∀ j, (p.ld.segtab j).segrel = (v.interlude.ld.segtab j).segrel
  segsiz : ∀ j < SEGNO, (p.ld.segtab j).segsiz = (t.segtab j).segsiz

/-- Segment `i` of a module goes to the output segment it was placed in, and, if that is in the table, to
the same place there: its base is the address of that segment and what its symbols were relocated by. -/
structure Replayed (v t : Ld) (q : P2) (i : ℕ) : Prop where
  map : q.ld.map (q.ld.maps + i) = t.map (t.maps + i)
  segsiz : (t.map (t.maps + i)).toNat < SEGNO → q.segsiz i = t.segrel i
  segrel : (t.map (t.maps + i)).toNat < SEGNO →
    q.ld.segrel i = (v.interlude.ld.segtab (t.map (t.maps + i)).toNat).segrel + t.segrel i

/-- The two passes in the middle of a module. -/
structure Abreast (v s : Ld) (f : XFile) (n : ℕ) (t : Ld) (q : P2) : Prop where
  placing : Placing s f t
  step : InStep v t q
  maps : q.ld.maps = t.maps
  syms : q.ld.syms = t.syms
  replayed : ∀ i < n, Replayed v t q i

/-- **One more segment.** -/
theorem Abreast.seg {n : ℕ} {q' : P2} {rest' : List Byte} (h : Abreast v s f n t q)
    (h1 : t.p1seg n xp = some t') (h2 : q.p2seg rest n xp = some (q', rest'))
    (hmap : v.map (t.maps + n) = t'.map (t.maps + n)) : Abreast v s f (n + 1) t' q' := by
  have hplacing := p1seg_placing h.placing h1
  obtain ⟨j, htarget, rfl⟩ := p1seg_eq h1
  have hle := target_le h.placing.prealloc htarget
  have hat : q.ld.map (q.ld.maps + n) = BitVec.ofNat 8 j := by
    rw [h.step.map, h.maps, hmap]
    exact Function.update_self ..
  have hj : j = (q.ld.map (q.ld.maps + n)).toNat := by
    have hseg : SEGNO = 128 := rfl
    rw [hat, BitVec.toNat_ofNat, Nat.mod_eq_of_lt (by omega)]
  obtain ⟨hsegtab, -, -⟩ := P2.p2seg_spec hj h2
  obtain ⟨⟨segtab, hld⟩, hsegsiz, -⟩ := P2.p2seg_fields hj h2
  have hsizes : ∀ j' < SEGNO, (q'.ld.segtab j').segsiz = (Function.update t.segtab j
      { t.segtab j with
        segtyp := newtyp (t.segtab j).segtyp xp.x_sg_typ
        segsiz := round ((t.segtab j).segsiz + xp.x_sg_len.toNat) } j').segsiz := by
    intro j' hj'
    rw [hsegtab]
    by_cases hjj : j' = j
    · rw [hjj, Function.update_self, Function.update_self, h.step.segsiz j (hjj ▸ hj')]
    · rw [Function.update_of_ne hjj, Function.update_of_ne hjj, h.step.segsiz j' hj']
  have hrels : ∀ j', (q'.ld.segtab j').segrel = (v.interlude.ld.segtab j').segrel := by
    intro j'
    rw [hsegtab, ← h.step.segrel j']
    by_cases hjj : j' = j
    · rw [hjj, Function.update_self]
    · rw [Function.update_of_ne hjj]
  have hmaps' : q'.ld.maps = t.maps := by
    rw [hld]
    exact h.maps
  have hmap' : q'.ld.map = v.map := by
    rw [hld]
    exact h.step.map
  refine ⟨hplacing, ⟨?_, ?_, ?_, hmap', ?_, hrels, hsizes⟩, hmaps', ?_, fun i hi => ?_⟩
  · rw [hld]
    exact h.step.modno
  · rw [hld]
    exact h.step.modmap
  · rw [hld]
    exact h.step.modsym
  · rw [hld]
    exact h.step.symap
  · rw [hld]
    exact h.syms
  · by_cases hin : i = n
    · have hnew : Function.update t.map (↑t.maps + ↑n) (BitVec.ofNat 8 j) (↑t.maps + ↑i) = BitVec.ofNat 8 j := by
        rw [hin, Function.update_self]
      have hnumber : (BitVec.ofNat 8 j).toNat = j := by rw [← hat, ← hj]
      refine ⟨?_, fun hlt => ?_, fun hlt => ?_⟩
      · rw [hmap', hmaps', hin, hmap]
      · dsimp only at hlt ⊢
        rw [hnew, hnumber] at hlt
        rw [hsegsiz, hin, Function.update_self, Function.update_self, h.step.segsiz j hlt]
      · dsimp only at hlt ⊢
        rw [hnew, hnumber] at hlt ⊢
        have hrel : q'.ld.segrel i = (q.ld.segtab j).segrel + BitVec.ofNat 16 (q.ld.segtab j).segsiz := by
          rw [hld, hin]
          exact Function.update_self ..
        rw [hrel, hin, Function.update_self, h.step.segrel j, h.step.segsiz j hlt]
    · have hold := h.replayed i (by omega)
      have hkeepmap : Function.update t.map (↑t.maps + ↑n) (BitVec.ofNat 8 j) (↑t.maps + ↑i) =
          t.map (↑t.maps + ↑i) := Function.update_of_ne (by omega) _ _
      have hkeeprel : Function.update t.segrel ↑n (BitVec.ofNat 16 (t.segtab j).segsiz) ↑i = t.segrel ↑i :=
        Function.update_of_ne (by omega) _ _
      refine ⟨?_, fun hlt => ?_, fun hlt => ?_⟩
      · dsimp only
        rw [hkeepmap, ← hold.map, hmap', hmaps', h.step.map, h.maps]
      · dsimp only at hlt ⊢
        rw [hkeepmap] at hlt
        rw [hkeeprel, ← hold.segsiz hlt, hsegsiz]
        exact Function.update_of_ne (by omega) _ _
      · dsimp only at hlt ⊢
        rw [hkeepmap] at hlt ⊢
        rw [hkeeprel, ← hold.segrel hlt, hld]
        exact Function.update_of_ne (by omega) _ _

/-- **One more module.** -/
theorem InStep.load (h : InStep v t p) (hp : t.Prealloc) (hf : f.Inward cc) (h1 : t.p1module cc f = some t')
    (hv : Later t' v) (h2 : p.p2load cc f = some p') : InStep v t' p' ∧ ∃ q rest,
      p.p2segs f = some (q, rest) ∧ q.p2dorel cc f.x_rel.length rest = some p' ∧
        q.ld.syms = t'.syms ∧ ∀ i < f.x_sg.length, Replayed v t' q i := by
  have hopened := p1module_opened hp hf h1
  unfold p1module at h1
  obtain ⟨u, hu, ht'⟩ := Option.bind_eq_some_iff.mp h1
  obtain ⟨a, b, ha, hb, hsegs⟩ := p1doseg_parts hu
  obtain ⟨hsegtab, hmap, hmaps, hsegrel, -, -⟩ := @p1dosym_same cc t u t' f ht'
  obtain ⟨hplacing, hbegin⟩ := p1start_placing hp hf ha hb
  unfold P2.p2load at h2
  obtain ⟨⟨q, rest⟩, hq, hrel⟩ := Option.bind_eq_some_iff.mp h2
  have habreast : Abreast v t f 0 b p.p2start := by
    refine ⟨hplacing, ⟨?_, h.modmap, h.modsym, h.map, h.symap, h.segrel, fun j hj => ?_⟩, ?_, ?_,
      fun i hi => absurd hi (Nat.not_lt_zero i)⟩
    · rw [hplacing.modno, ← h.modno]
      rfl
    · rw [hbegin]
      exact h.segsiz j hj
    · have hthis := hv.modmap t.modno (by rw [hopened.modno]; exact Nat.lt_succ_self _)
      rw [hopened.modmap, Function.update_self] at hthis
      rw [hplacing.maps, ← hthis, ← h.modmap, ← h.modno]
      rfl
    · have hthis := hv.modsym t.modno (by rw [hopened.modno]; exact Nat.lt_succ_self _)
      rw [hopened.modsym, Function.update_self] at hthis
      rw [hplacing.syms, ← hthis, ← h.modsym, ← h.modno]
      rfl
  have hrun := foldlM_induction (I := fun done (r : P2 × List Byte) => ∃ w,
    done.foldlM (fun s xp => s.p1seg xp.2 xp.1) b = some w ∧ Abreast v t f done.length w r.1) hq
    ⟨b, rfl, habreast⟩ ?_
  · obtain ⟨w, hw, hall⟩ := hrun
    obtain rfl := Option.some.inj (hsegs.symm.trans hw)
    rw [List.length_zipIdx] at hall
    obtain ⟨e, he⟩ := P2.p2dorel_ld hrel
    have hmodno := (p1dosym_same ht').2.2.2.2.2 hall.placing.toOpened
    refine ⟨⟨?_, ?_, ?_, ?_, ?_, ?_, ?_⟩, q, rest, hq, hrel, ?_, fun i hi => ?_⟩
    · rw [he, hmodno.modno, ← hall.placing.modno]
      exact hall.step.modno
    · rw [he]
      exact hall.step.modmap
    · rw [he]
      exact hall.step.modsym
    · rw [he]
      exact hall.step.map
    · rw [he]
      exact hall.step.symap
    · rw [he]
      exact hall.step.segrel
    · rw [he, hsegtab]
      exact hall.step.segsiz
    · rw [hmodno.syms, ← hall.placing.syms]
      exact hall.syms
    · obtain ⟨hm, hs, hr⟩ := hall.replayed i hi
      refine ⟨?_, ?_, ?_⟩
      · rw [hmap, hmaps]
        exact hm
      · rw [hmap, hmaps, hsegrel]
        exact hs
      · rw [hmap, hmaps, hsegrel]
        exact hr
  · rintro pre ⟨xp, n⟩ post ⟨r, rest⟩ ⟨r', rest'⟩ hsplit - ⟨w, hw, hthis⟩ hseg
    obtain ⟨hn, -⟩ := zipIdx_split hsplit
    have hpost := zipIdx_behind hsplit
    rw [hsplit] at hsegs
    obtain ⟨w₁, hw₁, htail⟩ := of_foldlM_append hsegs
    obtain rfl := Option.some.inj (hw.symm.trans hw₁)
    obtain ⟨w', hw', hrest⟩ := of_foldlM_cons htail
    dsimp only at hw' hseg hn
    subst hn
    have hend := p1segs_at hrest fun x hx => (hpost x hx).ne'
    have hw'maps : w'.maps = w.maps := by
      obtain ⟨j, -, rfl⟩ := p1seg_eq hw'
      rfl
    have hlater : v.map (w.maps + pre.length) = w'.map (w.maps + pre.length) := by
      have hlen : pre.length < f.x_sg.length := by
        have hlength := congrArg List.length hsplit
        rw [List.length_zipIdx, List.length_append, List.length_cons] at hlength
        omega
      have hplaced := hthis.placing.maps
      have hroom := hopened.mapx
      rw [hv.map _ (by omega) (by omega), hmap, ← hw'maps]
      exact hend.2.1
    refine ⟨w', ?_, ?_⟩
    · rw [List.foldlM_append, hw]
      change (some w).bind (fun s => [(xp, pre.length)].foldlM _ s) = _
      rw [Option.bind_some, List.foldlM_cons, hw']
      rfl
    · rw [List.length_append, List.length_singleton]
      exact hthis.seg hw' hseg hlater

/-! ## 4. A link -/

/-- The rest of the first pass keeps the tables. -/
theorem p1commons_later (h : s.p1commons = some t) : Later s t := by
  unfold p1commons at h
  split_ifs at h
  · refine foldlM_invariant (I := Later s) h (.refl s) ?_
    intro i _ u u' hu hi
    by_cases hc : IsCommon (u.symtab i)
    · obtain ⟨j, -, rfl⟩ := p1common_eq hi hc
      exact hu.trans (.of_same rfl rfl rfl rfl rfl rfl)
    · rw [p1common_of_not hi hc]
      exact hu
  · obtain rfl := Option.some.inj h
    exact .refl s

theorem p1stack_later (h : s.p1round.p1stack = some t) : Later s t := by
  unfold p1stack at h
  split_ifs at h
  · rcases hf : s.p1round.findseg X_SG_STK (BitVec.ofNat 16 s.p1round.stacksiz) with _ | j <;> rw [hf] at h
    · cases h
    · obtain rfl := Option.some.inj h
      exact .of_same rfl rfl rfl rfl rfl rfl
  · obtain rfl := Option.some.inj h
    exact .of_same rfl rfl rfl rfl rfl rfl

/-- What `interlude` keeps for the second pass. -/
theorem interlude_tables (v : Ld) : v.interlude.ld.modmap = v.modmap ∧ v.interlude.ld.modsym = v.modsym ∧
    v.interlude.ld.map = v.map ∧ v.interlude.ld.symap = v.symap := by
  have hplace : ∀ (l : List ℕ) (r : Layout), (l.foldl (fun r i => r.place i) r).ld.modmap = r.ld.modmap ∧
      (l.foldl (fun r i => r.place i) r).ld.modsym = r.ld.modsym ∧
        (l.foldl (fun r i => r.place i) r).ld.map = r.ld.map ∧
          (l.foldl (fun r i => r.place i) r).ld.symap = r.ld.symap := by
    intro l
    induction l with
    | nil => exact fun r => ⟨rfl, rfl, rfl, rfl⟩
    | cons i l ih =>
      intro r
      have hone : (r.place i).ld.modmap = r.ld.modmap ∧ (r.place i).ld.modsym = r.ld.modsym ∧
          (r.place i).ld.map = r.ld.map ∧ (r.place i).ld.symap = r.ld.symap := by
        unfold Layout.place
        split_ifs <;> exact ⟨rfl, rfl, rfl, rfl⟩
      obtain ⟨h₁, h₂, h₃, h₄⟩ := ih (r.place i)
      exact ⟨h₁.trans hone.1, h₂.trans hone.2.1, h₃.trans hone.2.2.1, h₄.trans hone.2.2.2⟩
  have hunplaced : v.unplaced.ld.modmap = v.modmap ∧ v.unplaced.ld.modsym = v.modsym ∧
      v.unplaced.ld.map = v.map ∧ v.unplaced.ld.symap = v.symap := by
    unfold unplaced
    dsimp only
    split_ifs <;> exact ⟨rfl, rfl, rfl, rfl⟩
  have hfix : ∀ s : Ld, s.fix.modmap = s.modmap ∧ s.fix.modsym = s.modsym ∧ s.fix.map = s.map ∧
      s.fix.symap = s.symap := by
    intro s
    unfold fix
    split_ifs <;> exact ⟨rfl, rfl, rfl, rfl⟩
  have hplaced : v.placed.ld.modmap = v.modmap ∧ v.placed.ld.modsym = v.modsym ∧
      v.placed.ld.map = v.map ∧ v.placed.ld.symap = v.symap := by
    unfold placed
    dsimp only
    obtain ⟨h₁, h₂, h₃, h₄⟩ := hplace (List.range SEGNO) (v.prelist.foldl (fun r i => r.place i) v.unplaced)
    obtain ⟨k₁, k₂, k₃, k₄⟩ := hplace v.prelist v.unplaced
    exact ⟨(h₁.trans k₁).trans hunplaced.1, (h₂.trans k₂).trans hunplaced.2.1,
      (h₃.trans k₃).trans hunplaced.2.2.1, (h₄.trans k₄).trans hunplaced.2.2.2⟩
  unfold interlude
  generalize v.placed = r at hplaced ⊢
  dsimp only
  rw [(hfix _).1, (hfix _).2.1, (hfix _).2.2.1, (hfix _).2.2.2]
  split_ifs <;> exact hplaced

/-- The second pass begins where the first one has begun. -/
theorem inStep_begin (hmodno : s.modno = 0) (hsizes : ∀ j < SEGNO, (s.segtab j).segsiz = 0) (v : Ld)
    (buf : ℕ → Byte) : InStep v s (v.interlude.pass2 buf) := by
  obtain ⟨hmodmap, hmodsym, hmap, hsymap⟩ := interlude_tables v
  have hempty : ∀ j < SEGNO, (v.interlude.ld.segtab j).segsiz = (s.segtab j).segsiz := by
    intro j hj
    rw [v.interlude_segsiz hj, hsizes j hj]
  have hbegin : ∀ r : Layout, (r.pass2 buf).ld = { r.ld with modno := 0 } := fun _ => rfl
  generalize hr : v.interlude = r at hmodmap hmodsym hmap hsymap hempty ⊢
  refine ⟨?_, ?_, ?_, ?_, ?_, fun j => ?_, fun j hj => ?_⟩
  · rw [hbegin]
    exact hmodno.symm
  · rw [hbegin]
    exact hmodmap
  · rw [hbegin]
    exact hmodsym
  · rw [hbegin]
    exact hmap
  · rw [hbegin]
    exact hsymap
  · rw [hbegin, hr]
  · rw [hbegin]
    exact hempty j hj

/-- A module of the second pass: `u` is the state before it, and `w'` that of the first pass after it. -/
structure Again (cc : Compiler) (v w : Ld) (f : XFile) (w' : Ld) (u q : P2) (rest : List Byte) : Prop where
  first : w.p1module cc f = some w'
  second : u.p2segs f = some (q, rest)
  syms : q.ld.syms = w'.syms
  replayed : ∀ i < f.x_sg.length, Replayed v w' q i

/-- **The second pass over the modules of the first one.** -/
theorem Loads.again {l : List (Ld × XFile)} {p₀ : P2} (h : Loads cc s l t) (hp : s.Prealloc)
    (hin : ∀ x ∈ l, x.2.Inward cc) (h₀ : InStep v s p₀) (hv : Later t v)
    (h2 : p₀.p2loads cc (l.map Prod.snd) = some p) : InStep v t p ∧
      ∀ l₁ x l₂, l = l₁ ++ x :: l₂ → ∃ w' u q rest, p₀.p2loads cc (l₁.map Prod.snd) = some u ∧
        Again cc v x.1 x.2 w' u q rest := by
  induction h generalizing p with
  | nil =>
    obtain rfl := Option.some.inj h2
    exact ⟨h₀, fun l₁ x l₂ hsplit => by simp at hsplit⟩
  | @quiet l t t' _ hq ih =>
    have hsame : Later t t' := by
      obtain ⟨_, _, _, _, _, _, _, rfl⟩ := hq
      exact .of_same rfl rfl rfl rfl rfl rfl
    obtain ⟨hstep, hall⟩ := ih hin (hsame.trans hv) h2
    obtain ⟨_, _, _, _, _, _, _, rfl⟩ := hq
    exact ⟨⟨hstep.modno, hstep.modmap, hstep.modsym, hstep.map, hstep.symap, hstep.segrel, hstep.segsiz⟩, hall⟩
  | @load l t t' f hl hm ih =>
    have hprealloc := hl.prealloc hp
    have hf := hin (t, f) (by simp)
    have hlater := (p1module_opened hprealloc hf hm).later.trans hv
    rw [List.map_append, List.map_singleton] at h2
    obtain ⟨u, hu, hlast⟩ := of_foldlM_append h2
    obtain ⟨p', hp', hnil⟩ := of_foldlM_cons hlast
    obtain rfl := Option.some.inj hnil
    obtain ⟨hstep, hall⟩ := ih (fun x hx => hin x (List.mem_append_left _ hx)) hlater hu
    obtain ⟨hnext, q, rest, hq, -, hsyms, hreplayed⟩ := hstep.load hprealloc hf hm hv hp'
    refine ⟨hnext, fun l₁ x l₂ hsplit => ?_⟩
    rcases List.eq_nil_or_concat l₂ with rfl | ⟨l₂, z, rfl⟩
    · obtain ⟨rfl, hx⟩ := List.append_inj' hsplit rfl
      obtain rfl := (List.cons.inj hx).1
      exact ⟨t', u, q, rest, hu, hm, hq, hsyms, hreplayed⟩
    · rw [List.concat_eq_append, ← List.cons_append, ← List.append_assoc] at hsplit
      obtain ⟨rfl, -⟩ := List.append_inj' hsplit rfl
      exact hall l₁ x l₂ rfl

/-- A module with code and data: a word of the code has the address of the data, and one of the data that
of a symbol. -/
def code_and_data : XFile where
  x_magic := X_NU_MAGIC
  x_sg := [⟨255, X_SG_COD, 6⟩, ⟨255, X_SG_DAT, 4⟩]
  init := [1, 2, 3, 4, 5, 6, 7, 8, 9, 10]
  x_rel := [⟨0, X_RL_OFF, 2, 1⟩, ⟨1, 4 ||| X_RL_OFF, 0, 0⟩]
  x_sym := [⟨1, X_SY_GLB, 2, [0x61]⟩]

end Ld

end Cpm8000.Linker
