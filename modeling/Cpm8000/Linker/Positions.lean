/-
# Where the output is written

The second pass keeps for each output segment how much of it there is (`segsiz`) and where in the file
its next byte goes (`segpos`). `p2load` advances the first for every segment it reads, and the second for
the initialised ones, by a length of 16 bits: they stay together exactly when every segment that goes to
an initialised one is initialised itself, and shorter than 65535 (`positions_iff`). `lost_position` is a
link where they do not.
-/
import Cpm8000.Linker.Pass2
import Cpm8000.Linker.Commons

namespace Cpm8000.Linker

open Sys

namespace P2

variable {cc : Compiler} {s t u : P2} {f : XFile} {rest rest' : List Byte} {i j : ℕ} {xp : XSg}

/-! ## 1. What relocation leaves alone -/

@[simp]
theorem write_ld (s : P2) (pos : ℕ) (b : List Byte) : (s.write pos b).ld = s.ld := rfl

@[simp]
theorem flshbuf_ld (s : P2) : s.flshbuf.ld = s.ld := by
  unfold flshbuf
  split_ifs
  · rfl
  · rfl

@[simp]
theorem getbuf_ld (s : P2) (p : ℕ) : (s.getbuf p).ld = s.ld := by
  unfold getbuf
  dsimp only
  split_ifs
  · exact flshbuf_ld s
  · rfl

@[simp]
theorem set_word_ld (s : P2) (j : ℕ) (w : BitVec 16) : (s.set_word j w).ld = s.ld := rfl

@[simp]
theorem putrel_ld (cc : Compiler) (s : P2) (rl : XRel) (bas : BitVec 16) :
    (s.putrel cc rl bas).ld = s.ld := by
  unfold putrel
  dsimp only
  split_ifs
  · rfl
  · rfl

/-- An item may count an error. -/
theorem reloc_ld (cc : Compiler) (s : P2) (rl : XRel) :
    (s.reloc cc rl).ld = s.ld ∨ (s.reloc cc rl).ld = s.ld.err := by
  unfold reloc
  dsimp only
  split_ifs
  · exact .inl (by simp)
  · exact .inr (by simp)
  · exact .inl (by simp)
  · exact .inl (by simp)
  · exact .inl (by simp)

theorem reloc_segtab (cc : Compiler) (s : P2) (rl : XRel) :
    (s.reloc cc rl).ld.segtab = s.ld.segtab := by
  rcases reloc_ld cc s rl with h | h
  · rw [h]
  · rw [h]
    rfl

theorem p2rels_segtab {n : ℕ} (h : p2rels cc n rest s = some t) : t.ld.segtab = s.ld.segtab := by
  induction n generalizing s rest with
  | zero =>
    obtain rfl := Option.some.inj h
    rfl
  | succ n ih =>
    rw [p2rels] at h
    split_ifs at h
    exact (ih h).trans (reloc_segtab cc s _)

theorem p2dorel_segtab {n : ℕ} (h : s.p2dorel cc n rest = some t) : t.ld.segtab = s.ld.segtab := by
  unfold p2dorel at h
  obtain ⟨u, hu, rfl⟩ := Option.map_eq_some_iff.mp h
  rw [flshbuf_ld]
  exact p2rels_segtab hu

/-! ## 2. The segments that are read -/

/-- A segment of a module as it is read: the states before and after, the rest of the file, and its
number and header. -/
structure Copy where
  before : P2
  rest : List Byte
  index : ℕ
  seg : XSg
  after : P2

/-- The output segment a segment goes to. -/
def Copy.target (x : Copy) : ℕ := (x.before.ld.map (x.before.ld.maps + x.index)).toNat

/-- **A second pass**, the last segment outermost: the segments that are read. Between them only what is
not in `segtab` changes. -/
inductive Reads (s : P2) : List Copy → P2 → Prop
  | nil : Reads s [] s
  | other {l : List Copy} {t t' : P2} : Reads s l t → t'.ld.segtab = t.ld.segtab → Reads s l t'
  | seg {l : List Copy} {t t' : P2} {rest rest' : List Byte} {i : ℕ} {xp : XSg} : Reads s l t →
      t.p2seg rest i xp = some (t', rest') → Reads s (l ++ [⟨t, rest, i, xp, t'⟩]) t'

theorem p2segs_reads {l : List Copy} (hl : Reads s l t) (h : t.p2segs f = some (u, rest)) :
    ∃ l', Reads s (l ++ l') u ∧ ∀ x ∈ l', x.seg ∈ f.x_sg := by
  refine foldlM_invariant (I := fun r : P2 × List Byte =>
    ∃ l', Reads s (l ++ l') r.1 ∧ ∀ x ∈ l', x.seg ∈ f.x_sg) h ⟨[], ?_, List.forall_mem_nil _⟩ ?_
  · rw [List.append_nil]
    exact hl.other rfl
  · rintro ⟨xp, i⟩ hmem ⟨v, rest⟩ ⟨v', rest'⟩ ⟨l', hl', hsegs⟩ hseg
    refine ⟨l' ++ [⟨v, rest, i, xp, v'⟩], ?_, ?_⟩
    · rw [← List.append_assoc]
      exact hl'.seg hseg
    · intro x hx
      rcases List.mem_append.mp hx with hx | hx
      · exact hsegs x hx
      · rw [List.mem_singleton] at hx
        rw [hx]
        exact List.fst_mem_of_mem_zipIdx hmem

/-- **The second pass over some modules** is such a pass, of their segments. -/
theorem p2loads_reads {fs : List XFile} (h : s.p2loads cc fs = some t) :
    ∃ l, Reads s l t ∧ ∀ x ∈ l, ∃ f ∈ fs, x.seg ∈ f.x_sg := by
  refine foldlM_invariant (I := fun u => ∃ l, Reads s l u ∧ ∀ x ∈ l, ∃ f ∈ fs, x.seg ∈ f.x_sg) h
    ⟨[], .nil, List.forall_mem_nil _⟩ ?_
  rintro f hf u u' ⟨l, hl, hfiles⟩ hload
  unfold p2load at hload
  obtain ⟨⟨v, rest⟩, hv, hrel⟩ := Option.bind_eq_some_iff.mp hload
  obtain ⟨l', hl', hsegs⟩ := p2segs_reads hl hv
  refine ⟨l ++ l', hl'.other (p2dorel_segtab hrel), fun x hx => ?_⟩
  rcases List.mem_append.mp hx with hx | hx
  · exact hfiles x hx
  · exact ⟨f, hf, hsegs x hx⟩

/-! ## 3. Sizes and positions -/

/-- What is copied of a segment. -/
def copied (xp : XSg) : ℕ := if idata xp.x_sg_typ then round xp.x_sg_len.toNat % 65536 else 0

/-- A segment whose room in the output is what is copied. -/
def Fits (xp : XSg) : Prop :=
  if idata xp.x_sg_typ then xp.x_sg_len ≠ 65535 else xp.x_sg_len = 0

theorem fits_iff (xp : XSg) : Fits xp ↔ copied xp = round xp.x_sg_len.toNat := by
  have hlt := xp.x_sg_len.isLt
  have hround := round_eq xp.x_sg_len.toNat
  unfold Fits copied
  split_ifs
  · rw [Ne, ← BitVec.toNat_inj, hround]
    have hmax : (65535 : BitVec 16).toNat = 65535 := rfl
    rw [hmax]
    omega
  · rw [← BitVec.toNat_inj, hround]
    have hzero : (0 : BitVec 16).toNat = 0 := rfl
    rw [hzero]
    omega

theorem copied_le (xp : XSg) : copied xp ≤ round xp.x_sg_len.toNat := by
  unfold copied
  split_ifs
  · exact Nat.mod_le _ _
  · exact Nat.zero_le _

/-- **What one segment does** to `segtab` and to the file. -/
theorem p2seg_spec {j : ℕ} (hj : j = (s.ld.map (s.ld.maps + i)).toNat)
    (h : s.p2seg rest i xp = some (t, rest')) :
    t.ld.segtab = Function.update s.ld.segtab j
        { s.ld.segtab j with
          segsiz := round ((s.ld.segtab j).segsiz + xp.x_sg_len.toNat)
          segpos := (s.ld.segtab j).segpos + copied xp } ∧
      copied xp ≤ rest.length ∧
        ∀ b < copied xp, t.objfile ((s.ld.segtab j).segpos + b) = rest.getD b 0 := by
  unfold p2seg at h
  dsimp only at h
  rw [← hj] at h
  by_cases hinit : idata xp.x_sg_typ = true
  · rw [if_pos hinit] at h
    split_ifs at h with hshort
    obtain ⟨rfl, -⟩ := Prod.mk.inj (Option.some.inj h)
    have hcopied : copied xp = round xp.x_sg_len.toNat % 65536 := if_pos hinit
    rw [← hcopied, not_lt] at hshort
    refine ⟨?_, hshort, ?_⟩
    · rw [hcopied]
      exact Function.update_idem ..
    · intro b hb
      rw [← hcopied]
      have hlength : (rest.take (copied xp)).length = copied xp := by
        rw [List.length_take, Nat.min_eq_left hshort]
      change (if (s.ld.segtab j).segpos ≤ (s.ld.segtab j).segpos + b ∧ (s.ld.segtab j).segpos + b <
        (s.ld.segtab j).segpos + (rest.take (copied xp)).length then _ else _) = _
      rw [hlength, if_pos ⟨Nat.le_add_right _ _, Nat.add_lt_add_left hb _⟩, Nat.add_sub_cancel_left,
        List.getD_eq_getElem?_getD, List.getD_eq_getElem?_getD, List.getElem?_take_of_lt hb]
  · rw [if_neg hinit] at h
    obtain ⟨rfl, -⟩ := Prod.mk.inj (Option.some.inj h)
    have hcopied : copied xp = 0 := if_neg hinit
    rw [hcopied]
    exact ⟨rfl, Nat.zero_le _, fun b hb => absurd hb (Nat.not_lt_zero b)⟩

/-- **The position of every initialised output segment is where its next byte goes.** -/
def Positioned (start : ℕ → ℕ) (s : P2) : Prop :=
  ∀ j < SEGNO, idata (s.ld.segtab j).segtyp = true →
    (s.ld.segtab j).segpos = start j + (s.ld.segtab j).segsiz

/-- The segment goes to an initialised one. -/
def Copy.Initialised (x : Copy) : Prop :=
  x.target < SEGNO ∧ idata (x.before.ld.segtab x.target).segtyp = true

/-- What never changes, and that positions are never ahead. -/
structure Behind (start : ℕ → ℕ) (s : P2) (l : List Copy) (t : P2) : Prop where
  segtyp : ∀ j, (t.ld.segtab j).segtyp = (s.ld.segtab j).segtyp
  even : ∀ j < SEGNO, (t.ld.segtab j).segsiz % 2 = 0
  le : ∀ j < SEGNO, idata (t.ld.segtab j).segtyp = true →
    (t.ld.segtab j).segpos ≤ start j + (t.ld.segtab j).segsiz
  iff : Positioned start t ↔ ∀ x ∈ l, x.Initialised → Fits x.seg

namespace Behind

variable {start : ℕ → ℕ} {l : List Copy}

/-- **One segment.** -/
theorem seg (hb : Behind start s l t) (h : t.p2seg rest i xp = some (u, rest')) :
    Behind start s (l ++ [⟨t, rest, i, xp, u⟩]) u := by
  obtain ⟨j, hj⟩ : ∃ j, j = (t.ld.map (t.ld.maps + i)).toNat := ⟨_, rfl⟩
  obtain ⟨hsegtab, -, -⟩ := p2seg_spec hj h
  have hat : u.ld.segtab j = { t.ld.segtab j with
      segsiz := round ((t.ld.segtab j).segsiz + xp.x_sg_len.toNat)
      segpos := (t.ld.segtab j).segpos + copied xp } := by
    rw [hsegtab, Function.update_self]
  have hothers : ∀ k, k ≠ j → u.ld.segtab k = t.ld.segtab k := by
    intro k hk
    rw [hsegtab, Function.update_of_ne hk]
  have hround := round_eq ((t.ld.segtab j).segsiz + xp.x_sg_len.toNat)
  have hlen := round_eq xp.x_sg_len.toNat
  have hcopied := copied_le xp
  have htarget : (⟨t, rest, i, xp, u⟩ : Copy).target = j := hj.symm
  refine ⟨?_, ?_, ?_, ?_⟩
  · intro k
    rw [← hb.segtyp k]
    by_cases hk : k = j
    · rw [hk, hat]
    · rw [hothers k hk]
  · intro k hk
    by_cases hkj : k = j
    · rw [hkj, hat]
      exact round_mod_two _
    · rw [hothers k hkj]
      exact hb.even k hk
  · intro k hk
    by_cases hkj : k = j
    · rw [hkj, hat]
      intro htyp
      have heven := hb.even j (hkj ▸ hk)
      have hle := hb.le j (hkj ▸ hk) htyp
      dsimp only
      omega
    · rw [hothers k hkj]
      exact hb.le k hk
  · have hone : Positioned start u ↔ Positioned start t ∧
        ((⟨t, rest, i, xp, u⟩ : Copy).Initialised → Fits xp) := by
      rw [Copy.Initialised, htarget, fits_iff]
      dsimp only
      constructor
      · intro hp
        have hjcase : j < SEGNO → idata (t.ld.segtab j).segtyp = true →
            (t.ld.segtab j).segpos = start j + (t.ld.segtab j).segsiz ∧
              copied xp = round xp.x_sg_len.toNat := by
          intro hjlt htyp
          have heven := hb.even j hjlt
          have hle := hb.le j hjlt htyp
          have hnow := hp j hjlt (by rw [hat]; exact htyp)
          rw [hat] at hnow
          dsimp only at hnow
          omega
        refine ⟨fun k hk htyp => ?_, fun hinit => (hjcase hinit.1 hinit.2).2⟩
        by_cases hkj : k = j
        · rw [hkj] at hk htyp ⊢
          exact (hjcase hk htyp).1
        · have hnow := hp k hk (by rw [hothers k hkj]; exact htyp)
          rw [hothers k hkj] at hnow
          exact hnow
      · rintro ⟨hp, hfits⟩ k hk htyp
        by_cases hkj : k = j
        · rw [hkj] at hk htyp ⊢
          rw [hat] at htyp ⊢
          have heven := hb.even j hk
          have hnow := hp j hk htyp
          have hcopy := hfits ⟨hk, htyp⟩
          dsimp only
          omega
        · rw [hothers k hkj] at htyp ⊢
          exact hp k hk htyp
    rw [hone, hb.iff]
    constructor
    · rintro ⟨hl, hx⟩ x hmem
      rcases List.mem_append.mp hmem with hmem | hmem
      · exact hl x hmem
      · rw [List.mem_singleton] at hmem
        rw [hmem]
        exact hx
    · intro hall
      exact ⟨fun x hmem => hall x (List.mem_append_left _ hmem), hall _ (by simp)⟩

end Behind

/-- **A second pass** keeps positions and sizes together exactly when every segment fits. -/
theorem Reads.behind {start : ℕ → ℕ} {l : List Copy} (h : Reads s l t)
    (hs : ∀ j < SEGNO, (s.ld.segtab j).segsiz = 0 ∧ (s.ld.segtab j).segpos = start j) :
    Behind start s l t := by
  induction h with
  | nil =>
    refine ⟨fun _ => rfl, ?_, ?_, iff_of_true ?_ (List.forall_mem_nil _)⟩
    · intro j hj
      rw [(hs j hj).1]
    · intro j hj _
      rw [(hs j hj).1, (hs j hj).2]
      exact le_refl _
    · intro j hj _
      rw [(hs j hj).1, (hs j hj).2]
      rfl
  | other _ hsame ih =>
    refine ⟨?_, ?_, ?_, ?_⟩
    · rw [hsame]
      exact ih.segtyp
    · rw [hsame]
      exact ih.even
    · rw [hsame]
      exact ih.le
    · rw [Positioned, hsame]
      exact ih.iff
  | seg _ hseg ih => exact ih.seg hseg

/-- The states of a pass are reached by shorter ones. -/
theorem Reads.before {l : List Copy} (h : Reads s l t) {x : Copy} (hx : x ∈ l) :
    (∃ l', Reads s l' x.before ∧ ∀ y ∈ l', y ∈ l) ∧
      ∃ rest', x.before.p2seg x.rest x.index x.seg = some (x.after, rest') := by
  induction h with
  | nil => cases hx
  | other _ _ ih => exact ih hx
  | @seg l u u' rest rest' i xp hl hseg ih =>
    rcases List.mem_append.mp hx with hx | hx
    · obtain ⟨⟨l', hl', hsub⟩, hstep⟩ := ih hx
      exact ⟨⟨l', hl', fun y hy => List.mem_append_left _ (hsub y hy)⟩, hstep⟩
    · rw [List.mem_singleton] at hx
      rw [hx]
      exact ⟨⟨l, hl, fun y hy => List.mem_append_left _ hy⟩, rest', hseg⟩

end P2

/-! ## 4. A link -/

namespace Ld

/-- Where output segment `j` begins in the file. -/
def start (v : Ld) (j : ℕ) : ℕ := (v.interlude.ld.segtab j).segpos

theorem fix_segtab (s : Ld) : s.fix.segtab = s.segtab := by
  unfold fix
  split_ifs
  · rfl
  · rfl

/-- A segment that is placed has no size left, and one that has none keeps it so. -/
theorem place_segsiz (r : Layout) (i j : ℕ) : ((r.place i).ld.segtab i).segsiz = 0 ∧
    ((r.ld.segtab j).segsiz = 0 → ((r.place i).ld.segtab j).segsiz = 0) := by
  unfold Layout.place
  split_ifs with hi
  · have hat : ((r.interpos i).ld.segtab i).segsiz = 0 := by
      unfold Layout.interpos
      dsimp only
      rw [Function.update_self]
    refine ⟨hat, fun hj => ?_⟩
    by_cases hji : j = i
    · rw [hji]
      exact hat
    · unfold Layout.interpos
      dsimp only
      rw [Function.update_of_ne hji]
      exact hj
  · exact ⟨not_not.mp hi, id⟩

theorem foldl_place_segsiz {l : List ℕ} {r : Layout} {j : ℕ} (h : j ∈ l ∨ (r.ld.segtab j).segsiz = 0) :
    ((l.foldl (fun r i => r.place i) r).ld.segtab j).segsiz = 0 := by
  induction l generalizing r with
  | nil => exact h.resolve_left List.not_mem_nil
  | cons i l ih =>
    refine ih ?_
    rcases h with h | h
    · rcases List.mem_cons.mp h with rfl | h
      · exact .inr (place_segsiz r j j).1
      · exact .inl h
    · exact .inr ((place_segsiz r i j).2 h)

theorem pass2_segtab (r : Layout) (buf : ℕ → Byte) : (r.pass2 buf).ld.segtab = r.ld.segtab := rfl

/-- Every output segment begins the second pass empty. -/
theorem interlude_segsiz (v : Ld) {j : ℕ} (hj : j < SEGNO) : (v.interlude.ld.segtab j).segsiz = 0 := by
  have hplaced : (v.placed.ld.segtab j).segsiz = 0 := by
    have hmem := List.mem_range.mpr hj
    unfold placed
    generalize v.prelist.foldl (fun r i => r.place i) v.unplaced = r
    generalize List.range SEGNO = l at hmem ⊢
    exact foldl_place_segsiz (.inl hmem)
  unfold interlude
  generalize v.placed = r at hplaced ⊢
  dsimp only
  rw [fix_segtab]
  split_ifs
  · exact hplaced
  · exact hplaced
  · exact hplaced
  · exact hplaced

end Ld

namespace P2

/-- **Positions and sizes** stay together throughout the second pass exactly when every segment that goes
to an initialised one fits, and then each byte is where its offset says. -/
theorem positions_iff {cc : Compiler} {v : Ld} {buf : ℕ → Byte} {fs : List XFile} {p : P2}
    (h : (v.interlude.pass2 buf).p2loads cc fs = some p) :
    (∃ l, Reads (v.interlude.pass2 buf) l p ∧ ∀ x ∈ l, ∃ f ∈ fs, x.seg ∈ f.x_sg) ∧
      ∀ l, Reads (v.interlude.pass2 buf) l p →
        ((∀ x ∈ l, Positioned v.start x.before) ∧ Positioned v.start p ↔
          ∀ x ∈ l, x.Initialised → Fits x.seg) ∧
        ((∀ x ∈ l, x.Initialised → Fits x.seg) → ∀ x ∈ l, x.Initialised → ∀ b < copied x.seg,
          x.after.objfile (v.start x.target + ((x.before.ld.segtab x.target).segsiz + b)) =
            x.rest.getD b 0) := by
  have hbegin : ∀ j < SEGNO, ((v.interlude.pass2 buf).ld.segtab j).segsiz = 0 ∧
      ((v.interlude.pass2 buf).ld.segtab j).segpos = v.start j := by
    intro j hj
    rw [Ld.pass2_segtab]
    exact ⟨v.interlude_segsiz hj, rfl⟩
  refine ⟨p2loads_reads h, fun l hl => ?_⟩
  have hiff := (hl.behind hbegin).iff
  have hbefore : (∀ x ∈ l, x.Initialised → Fits x.seg) → ∀ x ∈ l, Positioned v.start x.before := by
    intro hall x hx
    obtain ⟨⟨l', hl', hsub⟩, -⟩ := hl.before hx
    exact (hl'.behind hbegin).iff.mpr fun y hy => hall y (hsub y hy)
  constructor
  · constructor
    · rintro ⟨-, hp⟩
      exact hiff.mp hp
    · intro hall
      exact ⟨hbefore hall, hiff.mpr hall⟩
  · intro hall x hx hinit b hb
    obtain ⟨-, rest', hstep⟩ := hl.before hx
    obtain ⟨-, -, hwritten⟩ := p2seg_spec (j := x.target) rfl hstep
    rw [← Nat.add_assoc, ← hbefore hall x hx x.target hinit.1 hinit.2]
    exact hwritten b hb

/-- A module with segments in output segment 0, of some types. -/
def in_zero (types : List Byte) : XFile where
  x_magic := X_NU_MAGIC
  x_sg := types.map fun typ => ⟨0, typ, 2⟩
  init := [1, 2, 3, 4]
  x_rel := []
  x_sym := []

/-- The position, size and type of output segment 0 after a link of one such module, with the position it
begins at and the number of errors before. -/
def zero_after (types : List Byte) : Option (ℕ × ℕ × Byte × ℕ × ℕ) := do
  let s ← Ld.pass0 .unsigned .zero []
  let v ← s.pass1 .unsigned [.object (in_zero types)]
  let p ← (v.interlude.pass2 fun _ => 0).p2loads .unsigned [in_zero types]
  let t := p.ld.segtab 0
  return (t.segpos, t.segsiz, t.segtyp, v.start 0, v.interlude.ld.errcnt)

theorem of_zero_after {types : List Byte} {r : ℕ × ℕ × Byte × ℕ × ℕ} (h : zero_after types = some r) :
    ∃ s v p, Ld.pass0 .unsigned .zero [] = some s ∧
      s.pass1 .unsigned [.object (in_zero types)] = some v ∧
        (v.interlude.pass2 fun _ => 0).p2loads .unsigned [in_zero types] = some p ∧
          ((p.ld.segtab 0).segpos, (p.ld.segtab 0).segsiz, (p.ld.segtab 0).segtyp, v.start 0,
            v.interlude.ld.errcnt) = r := by
  unfold zero_after at h
  obtain ⟨s, hs, h⟩ := Option.bind_eq_some_iff.mp h
  obtain ⟨v, hv, h⟩ := Option.bind_eq_some_iff.mp h
  obtain ⟨p, hp, h⟩ := Option.bind_eq_some_iff.mp h
  exact ⟨s, v, p, hs, hv, hp, Option.some.inj h⟩

/-- Two segments of data. -/
theorem positions_iff_data : ∃ s v p, Ld.pass0 .unsigned .zero [] = some s ∧
    s.pass1 .unsigned [.object (in_zero [X_SG_DAT, X_SG_DAT])] = some v ∧
      (v.interlude.pass2 fun _ => 0).p2loads .unsigned [in_zero [X_SG_DAT, X_SG_DAT]] = some p ∧
        Positioned v.start p := by
  have hrun : zero_after [X_SG_DAT, X_SG_DAT] = some (24, 4, X_SG_DAT, 20, 0) := by decide +kernel
  obtain ⟨s, v, p, hs, hv, hp, -⟩ := of_zero_after hrun
  obtain ⟨⟨l, hl, hfiles⟩, hall⟩ := positions_iff hp
  refine ⟨s, v, p, hs, hv, hp, ((hall l hl).1.mpr fun x hx _ => ?_).2⟩
  obtain ⟨f, hf, hseg⟩ := hfiles x hx
  rw [List.mem_singleton] at hf
  rw [hf] at hseg
  have hdata : x.seg = ⟨0, X_SG_DAT, 2⟩ := by simpa [in_zero] using hseg
  rw [hdata]
  unfold Fits
  decide

/-- Data, two bytes without contents, and data again: what comes last is written where the bytes without
contents belong. -/
theorem lost_position : ∃ s v p, Ld.pass0 .unsigned .zero [] = some s ∧
    s.pass1 .unsigned [.object (in_zero [X_SG_DAT, X_SG_BSS, X_SG_DAT])] = some v ∧
      v.interlude.ld.errcnt = 0 ∧
        (v.interlude.pass2 fun _ => 0).p2loads .unsigned [in_zero [X_SG_DAT, X_SG_BSS, X_SG_DAT]] =
          some p ∧ ¬ Positioned v.start p := by
  have hrun : zero_after [X_SG_DAT, X_SG_BSS, X_SG_DAT] = some (24, 6, X_SG_DAT, 20, 0) := by
    decide +kernel
  obtain ⟨s, v, p, hs, hv, hp, hr⟩ := of_zero_after hrun
  simp only [Prod.mk.injEq] at hr
  obtain ⟨hpos, hsiz, htyp, hstart, herr⟩ := hr
  refine ⟨s, v, p, hs, hv, herr, hp, fun h => ?_⟩
  have hzero := h 0 (by decide) (by rw [htyp]; decide)
  rw [hpos, hsiz, hstart] at hzero
  exact absurd hzero (by decide)

end P2

end Cpm8000.Linker
