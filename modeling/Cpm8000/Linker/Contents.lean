/-
# What is in the output

The second pass copies the initialised segments of each module behind those of the modules before, and
relocates their words there. `Filling` is the state in between: the file is what its buffer says, and of
each output segment with contents there is as much in it as the segment has so far.

* `Filling.seg`: a segment is copied behind what is owned already, and leaves that alone.
* `Filling.segs`, `Filling.load`: the segments of a module, and its items.
-/
import Cpm8000.Linker.Replay
import Cpm8000.Linker.FlatImage

namespace Cpm8000.Linker

open Sys

namespace Ld

variable {v : Ld} {p : P2} {i j k a : ℕ} {pre post : List ℕ}

/-! ## 1. Regions -/

theorem Finished.start_eq (h : Finished v p) (hsplit : v.placing = pre ++ i :: post) (hdata : v.HasData i) :
    v.start i = v.body_pos + v.filed pre := by
  rw [start, h.segtab_of_mem hsplit, addressed_at]
  exact if_pos hdata

/-- **The regions of two output segments** in the file are apart. -/
theorem Finished.apart (h : Finished v p) (hj : j ∈ v.placing) (hk : k ∈ v.placing) (hjdata : v.HasData j)
    (hkdata : v.HasData k) (hne : j ≠ k) : v.start j + (v.segtab j).segsiz ≤ v.start k ∨
      v.start k + (v.segtab k).segsiz ≤ v.start j := by
  have hbefore : ∀ x y pre post, v.placing = pre ++ x :: post → y ∈ post → v.HasData x → v.HasData y →
      v.start x + (v.segtab x).segsiz ≤ v.start y := by
    intro x y pre post hsplit hy hx hydata
    obtain ⟨mid, behind, rfl⟩ := List.append_of_mem hy
    have hsplit' : v.placing = (pre ++ x :: mid) ++ y :: behind := by simp [hsplit]
    rw [h.start_eq hsplit hx, h.start_eq hsplit' hydata, filed_append, filed_cons, if_pos hx]
    omega
  obtain ⟨pre, post, hsplit⟩ := List.append_of_mem hj
  rw [hsplit, List.mem_append, List.mem_cons] at hk
  rcases hk with hk | rfl | hk
  · obtain ⟨before, behind, rfl⟩ := List.append_of_mem hk
    refine .inr (hbefore k j before (behind ++ j :: post) ?_ (by simp) hkdata hjdata)
    simp [hsplit]
  · exact absurd rfl hne
  · exact .inl (hbefore j k pre post hsplit hk hjdata hkdata)

/-- A region is between the headers and the tables. -/
theorem Finished.start_bounds (h : Finished v p) (hj : j ∈ v.placing) (hdata : v.HasData j) :
    v.body_pos ≤ v.start j ∧ v.start j + (v.segtab j).segsiz ≤ v.interlude.relpos := by
  obtain ⟨pre, post, hsplit⟩ := List.append_of_mem hj
  have hend : v.filed v.placing = v.filed pre + ((v.segtab j).segsiz + v.filed post) := by
    rw [hsplit, filed_append, filed_cons, if_pos hdata]
  rw [h.start_eq hsplit hdata, h.relpos_eq, hend]
  omega

end Ld

namespace P2

variable {cc : Compiler} {v : Ld} {s t u q p : P2} {rest rest' : List Byte} {i j k a : ℕ} {xp : XSg}

/-! ## 2. Segments -/

/-- Byte `a` of the file is in what there is of an output segment. -/
def Owned (v : Ld) (u : P2) (a : ℕ) : Prop :=
  ∃ j < SEGNO, v.HasData j ∧ v.start j ≤ a ∧ a < v.start j + (u.ld.segtab j).segsiz

/-- **The state between two segments.** -/
structure Filling (v : Ld) (u : P2) : Prop where
  buffered : u.Buffered
  clean : u.dirty = false
  positioned : ∀ j < SEGNO, v.HasData j → (u.ld.segtab j).segpos = v.start j + (u.ld.segtab j).segsiz
  even : ∀ j < SEGNO, (u.ld.segtab j).segsiz % 2 = 0

/-- The segment is put among those that have contents just when it has contents itself. -/
def Matched (v : Ld) (j : ℕ) (xp : XSg) : Prop :=
  j < SEGNO ∧ (v.HasData j ↔ idata xp.x_sg_typ = true)

/-- The output segments are no longer than in the end. -/
def Within (v : Ld) (u : P2) : Prop := ∀ j < SEGNO, (u.ld.segtab j).segsiz ≤ (v.segtab j).segsiz

/-- Byte `a` of the file is one of segment `i` of the module. -/
def Holds (t : P2) (i : ℕ) (xp : XSg) (a : ℕ) : Prop := t.segpos i ≤ a ∧ a < t.segpos i + copied xp

/-- **Where segment `i` of a module is**, with the bytes it had in the rest of the module; `u` is a state
before it was copied. -/
structure Copied (v : Ld) (u t : P2) (rest : List Byte) (i j : ℕ) (xp : XSg) : Prop where
  segpos : t.segpos i = v.start j + (t.segsiz i).toNat
  even : (t.segsiz i).toNat % 2 = 0
  length : copied xp = round xp.x_sg_len.toNat
  room : (t.segsiz i).toNat + copied xp ≤ (t.ld.segtab j).segsiz
  objlen : 0 < copied xp → t.segpos i + copied xp ≤ t.objlen
  content : ∀ b < copied xp, t.content (t.segpos i + b) = rest.getD b 0
  owned : ∀ a, t.Holds i xp a → Owned v t a ∧ ¬ Owned v u a

/-- What a copy leaves of the module, and adds to the file. -/
structure CopyFrame (u t : P2) : Prop where
  map : t.ld.map = u.ld.map
  maps : t.ld.maps = u.ld.maps
  segsiz : ∀ j, (u.ld.segtab j).segsiz ≤ (t.ld.segtab j).segsiz
  objlen : u.objlen ≤ t.objlen

theorem CopyFrame.refl (u : P2) : CopyFrame u u := ⟨rfl, rfl, fun _ => le_refl _, le_refl _⟩

theorem CopyFrame.trans (h : CopyFrame s t) (h' : CopyFrame t u) : CopyFrame s u :=
  ⟨h'.map.trans h.map, h'.maps.trans h.maps, fun j => (h.segsiz j).trans (h'.segsiz j),
    h.objlen.trans h'.objlen⟩

theorem Owned.mono (h : Owned v u a) (hf : CopyFrame u t) : Owned v t a := by
  obtain ⟨j, hj, hd, hlo, hhi⟩ := h
  exact ⟨j, hj, hd, hlo, hhi.trans_le (Nat.add_le_add_left (hf.segsiz j) _)⟩

theorem p2seg_copyFrame (h : s.p2seg rest i xp = some (t, rest')) : CopyFrame s t := by
  obtain ⟨hsegtab, -, -⟩ := p2seg_spec rfl h
  obtain ⟨⟨segtab, hld⟩, -, -⟩ := p2seg_fields rfl h
  refine ⟨?_, ?_, fun j => ?_, ?_⟩
  · rw [hld]
  · rw [hld]
  · rw [hsegtab]
    by_cases hj : j = (s.ld.map (s.ld.maps + i)).toNat
    · rw [hj, Function.update_self]
      exact (Nat.le_add_right _ _).trans (le_round _)
    · rw [Function.update_of_ne hj]
  · unfold p2seg at h
    dsimp only at h
    split_ifs at h
    · obtain ⟨rfl, -⟩ := Prod.mk.inj (Option.some.inj h)
      dsimp only
      rw [write_objlen]
      split_ifs
      · exact le_refl _
      · exact le_max_left _ _
    · obtain ⟨rfl, -⟩ := Prod.mk.inj (Option.some.inj h)
      exact le_refl _

theorem round_add {x y : ℕ} (h : x % 2 = 0) : round (x + y) = x + round y := by
  rw [round_eq, round_eq]
  omega

/-- **One segment** is copied behind what is owned. -/
theorem Filling.seg (hfin : v.Finished p) (hu : Filling v u) (hj : j = (u.ld.map (u.ld.maps + i)).toNat)
    (hm : Matched v j xp) (h : u.p2seg rest i xp = some (t, rest')) (hw : Within v t) :
    Filling v t ∧ (∀ a, Owned v u a → t.content a = u.content a) ∧
      (idata xp.x_sg_typ = true → Copied v u t rest i j xp) := by
  obtain ⟨hjlt, hdata⟩ := hm
  obtain ⟨hsegtab, hlen, hbytes⟩ := p2seg_spec hj h
  obtain ⟨-, hsegsiz, hsegpos⟩ := p2seg_fields hj h
  obtain ⟨hbuf, hclean, hcontent⟩ := p2seg_frame hu.buffered hu.clean h
  have hat : t.ld.segtab j = { u.ld.segtab j with
      segsiz := round ((u.ld.segtab j).segsiz + xp.x_sg_len.toNat)
      segpos := (u.ld.segtab j).segpos + copied xp } := by
    rw [hsegtab, Function.update_self]
  have hothers : ∀ k, k ≠ j → t.ld.segtab k = u.ld.segtab k := by
    intro k hk
    rw [hsegtab, Function.update_of_ne hk]
  have hsize : (t.ld.segtab j).segsiz = (u.ld.segtab j).segsiz + round xp.x_sg_len.toNat := by
    rw [hat]
    exact round_add (hu.even j hjlt)
  -- an output segment of 64 KB would not be placed
  have hsmall : ∀ j < SEGNO, (v.segtab j).segsiz < 65536 := by
    intro j hjlt
    by_cases hzero : (v.segtab j).segsiz = 0
    · omega
    · exact hfin.segsiz_lt (Ld.mem_placing.mpr ⟨.inr hjlt, hzero⟩)
  have hcopied : v.HasData j → copied xp = round xp.x_sg_len.toNat := by
    intro hd
    have hlt := hsmall j hjlt
    have hle := hw j hjlt
    rw [copied, if_pos (hdata.mp hd), Nat.mod_eq_of_lt (by omega)]
  have hcopypos : u.copy_pos i = (u.ld.segtab j).segpos := by
    rw [copy_pos, ← hj]
  have hbehind : v.HasData j → ∀ a, (u.ld.segtab j).segpos ≤ a →
      a < (u.ld.segtab j).segpos + copied xp → ¬ Owned v u a := by
    rintro hjd a hlo hhi ⟨k, hk, hkd, hklo, hkhi⟩
    have hpos := hu.positioned j hjlt hjd
    have hlength := hcopied hjd
    have hjle := hw j hjlt
    have hkle := hw k hk
    by_cases hkj : k = j
    · rw [hkj] at hkhi
      omega
    · rw [hothers k hkj] at hkle
      have hjmem : j ∈ v.placing := Ld.mem_placing.mpr ⟨.inr hjlt, by omega⟩
      have hkmem : k ∈ v.placing := Ld.mem_placing.mpr ⟨.inr hk, by omega⟩
      rcases hfin.apart hjmem hkmem hjd hkd (Ne.symm hkj) with hapart | hapart
      · omega
      · omega
  refine ⟨⟨hbuf, hclean, fun k hk hkd => ?_, fun k hk => ?_⟩, fun a ha => ?_, fun hinit => ?_⟩
  · by_cases hkj : k = j
    · rw [hkj] at hkd ⊢
      rw [hsize, hat]
      have hpos := hu.positioned j hjlt hkd
      have hlength := hcopied hkd
      dsimp only
      omega
    · rw [hothers k hkj]
      exact hu.positioned k hk hkd
  · by_cases hkj : k = j
    · have hround := round_mod_two xp.x_sg_len.toNat
      have heven := hu.even j hjlt
      rw [hkj, hsize]
      omega
    · rw [hothers k hkj]
      exact hu.even k hk
  · refine hcontent a fun hin => ?_
    rw [hcopypos] at hin
    by_cases hinit : idata xp.x_sg_typ = true
    · exact hbehind (hdata.mpr hinit) a hin.1 hin.2 ha
    · have hnone : copied xp = 0 := if_neg hinit
      omega
  · have hjd := hdata.mpr hinit
    have hjpos := hu.positioned j hjlt hjd
    have hstart : t.segpos i = (u.ld.segtab j).segpos := by
      rw [hsegpos, Function.update_self]
    have hnat : (t.segsiz i).toNat = (u.ld.segtab j).segsiz := by
      have hle := hw j hjlt
      have hlt := hsmall j hjlt
      rw [hsegsiz, Function.update_self, BitVec.toNat_ofNat, Nat.mod_eq_of_lt (by omega)]
    refine ⟨?_, ?_, hcopied hjd, ?_, fun hsome => ?_, fun b hb => ?_, fun a ha => ⟨?_, ?_⟩⟩
    · rw [hstart, hjpos, hnat]
    · rw [hnat]
      exact hu.even j hjlt
    · rw [hnat, hsize, hcopied hjd]
    · have hobjlen : t.objlen = (u.write (u.ld.segtab j).segpos (rest.take (copied xp))).objlen := by
        have hcopy : copied xp = round xp.x_sg_len.toNat % 65536 := if_pos hinit
        unfold p2seg at h
        dsimp only at h
        rw [if_pos hinit, ← hj, ← hcopy] at h
        split_ifs at h
        obtain ⟨rfl, -⟩ := Prod.mk.inj (Option.some.inj h)
        rfl
      have htake : (rest.take (copied xp)).length = copied xp := by
        rw [List.length_take, Nat.min_eq_left hlen]
      have hne : rest.take (copied xp) ≠ [] := by
        intro hnil
        rw [hnil] at htake
        exact absurd htake (Nat.ne_of_lt hsome)
      rw [hobjlen, write_objlen, hstart, if_neg hne, htake]
      exact le_max_right _ _
    · rw [content_of_not_dirty hbuf hclean, hstart]
      exact hbytes b hb
    · obtain ⟨hlo, hhi⟩ := ha
      have hlength := hcopied hjd
      refine ⟨j, hjlt, hjd, ?_, ?_⟩
      · omega
      · omega
    · obtain ⟨hlo, hhi⟩ := ha
      exact hbehind hjd a (hstart ▸ hlo) (hstart ▸ hhi)

/-- The state after more segments of the module. -/
theorem Copied.mono (h : Copied v u t rest i j xp) (hf : CopyFrame t q) (hsegpos : q.segpos i = t.segpos i)
    (hsegsiz : q.segsiz i = t.segsiz i) (hcontent : ∀ a, Owned v t a → q.content a = t.content a) :
    Copied v u q rest i j xp := by
  have hholds : ∀ a, q.Holds i xp a → t.Holds i xp a := by
    intro a ha
    rw [Holds, hsegpos] at ha
    exact ha
  refine ⟨?_, ?_, h.length, ?_, fun hsome => ?_, fun b hb => ?_, fun a ha => ?_⟩
  · rw [hsegpos, hsegsiz]
    exact h.segpos
  · rw [hsegsiz]
    exact h.even
  · rw [hsegsiz]
    exact h.room.trans (hf.segsiz j)
  · rw [hsegpos]
    exact (h.objlen hsome).trans hf.objlen
  · rw [hsegpos, hcontent _ (h.owned _ ⟨Nat.le_add_right _ _, Nat.add_lt_add_left hb _⟩).1]
    exact h.content b hb
  · obtain ⟨howned, hnot⟩ := h.owned a (hholds a ha)
    exact ⟨howned.mono hf, hnot⟩

/-- The same as seen from a state before. -/
theorem Copied.anti (h : Copied v t q rest i j xp) (hf : CopyFrame u t) : Copied v u q rest i j xp :=
  ⟨h.segpos, h.even, h.length, h.room, h.objlen, h.content, fun a ha => ⟨(h.owned a ha).1, fun hu => (h.owned a ha).2 (hu.mono hf)⟩⟩

/-- The output segment that segment `i` of the module goes to. -/
def out (u : P2) (i : ℕ) : ℕ := (u.ld.map (u.ld.maps + i)).toNat

theorem CopyFrame.out (h : CopyFrame u t) (i : ℕ) : t.out i = u.out i := by
  rw [P2.out, h.map, h.maps]
  rfl

/-- **The segments of a module.** -/
structure Filled (v : Ld) (u q : P2) (rest : List Byte) (l : List (XSg × ℕ)) : Prop where
  filling : Filling v q
  frame : CopyFrame u q
  kept : ∀ a, Owned v u a → q.content a = u.content a
  copied : ∀ pre x post, l = pre ++ x :: post → idata x.1.x_sg_typ = true →
    Copied v u q (rest.drop ((pre.map fun y => P2.copied y.1).sum)) x.2 (u.out x.2) x.1
  apart : l.Pairwise fun x y => ∀ a, ¬ (q.Holds x.2 x.1 a ∧ q.Holds y.2 y.1 a)
  others : ∀ i, i ∉ l.map Prod.snd → q.segpos i = u.segpos i ∧ q.segsiz i = u.segsiz i

theorem p2segs_copyFrame {l : List (XSg × ℕ)}
    (h : l.foldlM (fun (s : P2 × List Byte) xp => s.1.p2seg s.2 xp.2 xp.1) (u, rest) = some (q, rest')) :
    CopyFrame u q := by
  refine foldlM_invariant (I := fun r : P2 × List Byte => CopyFrame u r.1) h (.refl u) ?_
  intro x _ r r' hr hx
  exact hr.trans (p2seg_copyFrame hx)

theorem Filling.segs (hfin : v.Finished p) {l : List (XSg × ℕ)} (hu : Filling v u)
    (hm : ∀ x ∈ l, Matched v (u.out x.2) x.1) (hd : (l.map Prod.snd).Nodup)
    (h : l.foldlM (fun (s : P2 × List Byte) xp => s.1.p2seg s.2 xp.2 xp.1) (u, rest) = some (q, rest'))
    (hw : Within v q) : Filled v u q rest l := by
  induction l generalizing u rest with
  | nil =>
    obtain ⟨rfl, -⟩ := Prod.mk.inj (Option.some.inj h)
    exact ⟨hu, .refl u, fun _ _ => rfl, fun pre x post hsplit => by simp at hsplit, .nil,
      fun _ _ => ⟨rfl, rfl⟩⟩
  | cons x l ih =>
    obtain ⟨xp, i⟩ := x
    obtain ⟨⟨t, rest₁⟩, hx, hrest⟩ := of_foldlM_cons h
    dsimp only at hx
    have hframe := p2seg_copyFrame hx
    have htail := p2segs_copyFrame hrest
    have hwt : Within v t := fun j hj => (htail.segsiz j).trans (hw j hj)
    obtain ⟨hmx, hml⟩ := List.forall_mem_cons.mp hm
    obtain ⟨hi, hd⟩ := List.nodup_cons.mp hd
    obtain ⟨hfill, hkept, hcopied⟩ := hu.seg hfin rfl hmx hx hwt
    have hall := ih hfill (fun y hy => by rw [hframe.out]; exact hml y hy) hd hrest
    obtain ⟨hthispos, hthissiz⟩ := hall.others i hi
    have hhead : idata xp.x_sg_typ = true → Copied v u q rest i (u.out i) xp := fun hinit =>
      (hcopied hinit).mono htail hthispos hthissiz hall.kept
    refine ⟨hall.filling, hframe.trans htail, fun a ha => ?_, ?_, ?_, ?_⟩
    · rw [hall.kept a (ha.mono hframe), hkept a ha]
    · intro pre y post hsplit hinit
      rcases List.cons_eq_append_iff.mp hsplit with ⟨rfl, heq⟩ | ⟨pre, rfl, rfl⟩
      · obtain ⟨rfl, rfl⟩ := List.cons.inj heq
        exact hhead hinit
      · have hthis := (hall.copied pre y post rfl hinit).anti hframe
        rw [hframe.out, p2seg_rest hx, List.drop_drop] at hthis
        rw [List.map_cons, List.sum_cons]
        exact hthis
    · refine List.Pairwise.cons (fun y hy a hboth => ?_) hall.apart
      have hinit : ∀ z : XSg × ℕ, q.Holds z.2 z.1 a → idata z.1.x_sg_typ = true := by
        rintro z ⟨hlo, hhi⟩
        by_contra hnot
        have hnone : P2.copied z.1 = 0 := if_neg hnot
        omega
      obtain ⟨before, behind, rfl⟩ := List.append_of_mem hy
      have hthis := hall.copied before y behind rfl (hinit y hboth.2)
      refine (hthis.owned a hboth.2).2 ?_
      have hxinit := hinit (xp, i) hboth.1
      refine ((hcopied hxinit).owned a ?_).1
      rw [Holds, ← hthispos]
      exact hboth.1
    · intro k hk
      rw [List.map_cons, List.mem_cons, not_or] at hk
      obtain ⟨hpos, hsiz⟩ := hall.others k hk.2
      obtain ⟨-, hsegsiz, hsegpos⟩ := p2seg_fields rfl hx
      rw [hpos, hsiz, hsegsiz, hsegpos]
      have hne : (k : ℤ) ≠ i := by
        have hki : k ≠ i := hk.1
        omega
      rw [Function.update_of_ne hne, Function.update_of_ne hne]
      exact ⟨rfl, rfl⟩

/-! ## 3. Items -/

variable {rl : XRel} {f : XFile}

/-- What items leave of the module. -/
structure ItemFrame (u t : P2) : Prop where
  ld : ∃ e, t.ld = { u.ld with errcnt := e }
  segpos : t.segpos = u.segpos
  objlen : t.objlen = u.objlen

theorem ItemFrame.refl (u : P2) : ItemFrame u u := ⟨⟨_, rfl⟩, rfl, rfl⟩

theorem ItemFrame.trans (h : ItemFrame s t) (h' : ItemFrame t u) : ItemFrame s u := by
  obtain ⟨⟨e, he⟩, hpos, hlen⟩ := h
  obtain ⟨⟨e', he'⟩, hpos', hlen'⟩ := h'
  refine ⟨⟨e', ?_⟩, hpos'.trans hpos, hlen'.trans hlen⟩
  rw [he', he]

@[simp]
theorem getbuf_segpos (s : P2) (n : ℕ) : (s.getbuf n).segpos = s.segpos := by
  have hflush : s.flshbuf.segpos = s.segpos := by
    unfold flshbuf
    split_ifs <;> rfl
  unfold getbuf
  dsimp only
  split_ifs
  · exact hflush
  · rfl

@[simp]
theorem putrel_segpos (cc : Compiler) (s : P2) (rl : XRel) (bas : BitVec 16) :
    (s.putrel cc rl bas).segpos = s.segpos := by
  unfold putrel
  dsimp only
  split_ifs <;> rfl

theorem reloc_segpos (cc : Compiler) (s : P2) (rl : XRel) : (s.reloc cc rl).segpos = s.segpos := by
  have hset : ∀ (t : P2) (j : ℕ) (w : BitVec 16), (t.set_word j w).segpos = t.segpos := fun _ _ _ => rfl
  unfold reloc
  dsimp only
  split_ifs <;> simp [hset]

theorem reloc_itemFrame (cc : Compiler) (hs : s.Buffered) (rl : XRel) : ItemFrame s (s.reloc cc rl) := by
  refine ⟨?_, reloc_segpos cc s rl, (reloc_frame cc hs rl).objlen⟩
  rcases reloc_ld cc s rl with h | h
  · exact ⟨_, h⟩
  · exact ⟨_, h⟩

theorem ItemFrame.item_pos (h : ItemFrame u t) (rl : XRel) : t.item_pos cc rl = u.item_pos cc rl := by
  rw [P2.item_pos, h.segpos]
  rfl

theorem ItemFrame.base (h : ItemFrame u t) (rl : XRel) : t.base cc rl = u.base cc rl := by
  obtain ⟨⟨e, he⟩, -, -⟩ := h
  unfold P2.base external internal
  rw [he]

theorem ItemFrame.whole (h : ItemFrame u t) {n : ℕ} (hn : u.Whole n) : t.Whole n := by
  rw [Whole, h.objlen]
  exact hn

/-- **An item with an offset** adds its base to the word. -/
theorem reloc_word (hs : s.Buffered) (h : rl.x_rl_flg &&& 3 = X_RL_OFF)
    (hwhole : s.Whole (s.item_pos cc rl)) : word_in (s.reloc cc rl).content (s.item_pos cc rl) =
      word_in s.content (s.item_pos cc rl) + (s.base cc rl).val := by
  obtain ⟨hfetched, hcontent, hlen, hbpos, -⟩ := fetched_spec cc hs rl
  have hin : (s.fetched cc rl).Whole (s.item_pos cc rl) := by
    rw [Whole, hlen]
    exact hwhole
  rw [reloc_off h, set_word_at hfetched hbpos hin, word_eq hfetched hbpos hin, hcontent]

/-- **The items of a module**, whose words are apart. -/
structure Relocated (cc : Compiler) (u q : P2) (rs : List XRel) : Prop where
  buffered : q.Buffered
  frame : ItemFrame u q
  kept : ∀ a, (∀ rl ∈ rs, ¬ (u.item_pos cc rl ≤ a ∧ a < u.item_pos cc rl + 2)) → q.content a = u.content a
  words : ∀ rl ∈ rs, word_in q.content (u.item_pos cc rl) =
    word_in u.content (u.item_pos cc rl) + (u.base cc rl).val

theorem relocs (hu : u.Buffered) {rs : List XRel} (hoff : ∀ rl ∈ rs, rl.x_rl_flg &&& 3 = X_RL_OFF)
    (hwhole : ∀ rl ∈ rs, u.Whole (u.item_pos cc rl))
    (hapart : rs.Pairwise fun x y => u.item_pos cc x + 2 ≤ u.item_pos cc y ∨
      u.item_pos cc y + 2 ≤ u.item_pos cc x) :
    Relocated cc u (rs.foldl (fun s rl => s.reloc cc rl) u) rs := by
  induction rs generalizing u with
  | nil => exact ⟨hu, .refl u, fun _ _ => rfl, List.forall_mem_nil _⟩
  | cons rl rs ih =>
    obtain ⟨hoffrl, hoff⟩ := List.forall_mem_cons.mp hoff
    obtain ⟨hwholerl, hwhole⟩ := List.forall_mem_cons.mp hwhole
    obtain ⟨hfirst, hapart⟩ := List.pairwise_cons.mp hapart
    have hwidth : rl.width = 2 := if_pos (.inl hoffrl)
    have hitem := reloc_frame cc hu rl
    have hword := reloc_word hu hoffrl hwholerl
    rw [hwidth] at hitem
    have hframe := reloc_itemFrame cc hu rl
    have hpos : ∀ x, (u.reloc cc rl).item_pos cc x = u.item_pos cc x := fun x => hframe.item_pos x
    have hrest : Relocated cc (u.reloc cc rl) (rs.foldl (fun s rl => s.reloc cc rl) (u.reloc cc rl)) rs := by
      refine ih hitem.buffered hoff (fun x hx => ?_) ?_
      · rw [hpos]
        exact hframe.whole (hwhole x hx)
      · simpa only [hpos] using hapart
    rw [List.foldl_cons]
    have hother : ∀ x ∈ rs, word_in (u.reloc cc rl).content (u.item_pos cc x) =
        word_in u.content (u.item_pos cc x) := by
      intro x hx
      have hdiffer := hfirst x hx
      rw [word_in, word_in, hitem.content _ (by omega), hitem.content _ (by omega)]
    refine ⟨hrest.buffered, hframe.trans hrest.frame, fun a ha => ?_, fun x hx => ?_⟩
    · obtain ⟨harl, ha⟩ := List.forall_mem_cons.mp ha
      rw [hrest.kept a fun x hx => by rw [hpos]; exact ha x hx, hitem.content a harl]
    · rcases List.mem_cons.mp hx with rfl | hx
      · rw [← hword, word_in, word_in, hrest.kept, hrest.kept]
        · intro y hy
          have hdiffer := hfirst y hy
          rw [hpos]
          omega
        · intro y hy
          have hdiffer := hfirst y hy
          rw [hpos]
          omega
      · have hthis := hrest.words x hx
        rw [hpos, hframe.base, hother x hx] at hthis
        exact hthis

/-- What `p2dorel` reads are the items of the module. -/
theorem p2rels_eq (rs : List XRel) (last : List Byte) (u : P2) :
    p2rels cc rs.length (rs.flatMap XRel.bytes ++ last) u = some (rs.foldl (fun s rl => s.reloc cc rl) u) := by
  induction rs generalizing u with
  | nil => rfl
  | cons rl rs ih =>
    have hbytes : (rl :: rs).flatMap XRel.bytes ++ last = rl.bytes ++ (rs.flatMap XRel.bytes ++ last) := by
      rw [List.flatMap_cons, List.append_assoc]
    have hlen : rl.bytes.length = RELSIZ := rfl
    have hlong : ¬ (rl.bytes ++ (rs.flatMap XRel.bytes ++ last)).length < RELSIZ := by
      rw [List.length_append, hlen]
      omega
    rw [hbytes, List.length_cons, p2rels, if_neg hlong, rel_of_bytes, ← hlen, List.drop_left, ih]
    rfl

end P2

/-! ## 4. Modules -/

/-- The places of two segments of a module are apart. -/
theorem P2.Filled.disjoint {v : Ld} {u q : P2} {rest : List Byte} {l : List XSg} {i i' : ℕ} {xp xp' : XSg}
    (h : P2.Filled v u q rest l.zipIdx) (hi : l[i]? = some xp) (hi' : l[i']? = some xp') (hlt : i < i')
    (a : ℕ) : ¬ (q.Holds i xp a ∧ q.Holds i' xp' a) := by
  obtain ⟨hn, rfl⟩ := List.getElem?_eq_some_iff.mp hi
  obtain ⟨hn', rfl⟩ := List.getElem?_eq_some_iff.mp hi'
  have hpair := List.pairwise_iff_getElem.mp h.apart i i' (by rw [List.length_zipIdx]; exact hn)
    (by rw [List.length_zipIdx]; exact hn') hlt a
  simpa using hpair

namespace XFile

/-- Where the contents of segment `i` begin in those of the module. -/
def offset (f : XFile) (i : ℕ) : ℕ := ((f.x_sg.take i).map P2.copied).sum

/-- An item for a word of an initialised segment. -/
structure Proper (f : XFile) (rl : XRel) : Prop where
  kind : rl.x_rl_flg &&& 3 = X_RL_OFF
  sgn : rl.x_rl_sgn.toNat < 128
  even : rl.x_rl_loc.toNat % 2 = 0
  inside : ∃ xp, f.x_sg[rl.x_rl_sgn.toNat]? = some xp ∧ idata xp.x_sg_typ = true ∧
    rl.x_rl_loc.toNat + 2 ≤ xp.x_sg_len.toNat
  base : rl.x_rl_flg &&& 4 = 0 → rl.x_rl_bas.toNat < f.x_sg.length

/-- **A module to be linked**: as long as its headers say, with at most one item for each word. -/
structure Formed (cc : Compiler) (f : XFile) : Prop where
  inward : f.Inward cc
  filled : f.Filled
  proper : ∀ rl ∈ f.x_rel, f.Proper rl
  apart : f.x_rel.Pairwise fun x y => x.x_rl_sgn = y.x_rl_sgn → x.x_rl_loc ≠ y.x_rl_loc

variable {f : XFile} {i : ℕ} {xp : XSg}

/-- A segment among the numbered ones. -/
theorem zipIdx_at (h : f.x_sg[i]? = some xp) : ∃ pre post, f.x_sg.zipIdx = pre ++ (xp, i) :: post ∧
    (pre.map fun y => P2.copied y.1).sum = f.offset i := by
  obtain ⟨pre, post, hsplit⟩ := List.append_of_mem (List.mk_mem_zipIdx_iff_getElem?.mpr h)
  refine ⟨pre, post, hsplit, ?_⟩
  have hnumber : i = pre.length := (zipIdx_split hsplit).1
  have hmap := congrArg (List.map Prod.fst) hsplit
  rw [List.zipIdx_map_fst, List.map_append] at hmap
  have htake : f.x_sg.take i = pre.map Prod.fst := by
    rw [hmap, hnumber]
    exact List.take_left' (List.length_map ..)
  rw [offset, htake, List.map_map]
  rfl

/-- What is copied of a segment is in the module. -/
theorem offset_add_le (hf : f.Filled) (h : f.x_sg[i]? = some xp) :
    f.offset i + P2.copied xp ≤ f.init.length := by
  obtain ⟨hi, rfl⟩ := List.getElem?_eq_some_iff.mp h
  have hsplit : f.x_sg = f.x_sg.take i ++ f.x_sg[i] :: f.x_sg.drop (i + 1) := by
    rw [List.getElem_cons_drop, List.take_append_drop]
  have hsum := congrArg (fun l => (l.map P2.copied).sum) hsplit
  rw [List.map_append, List.sum_append, List.map_cons, List.sum_cons] at hsum
  rw [hf, hsum, offset]
  omega

/-- The bytes of a segment are those of the module. -/
theorem body_at (hf : f.Filled) (h : f.x_sg[i]? = some xp) {b : ℕ} (hb : b < P2.copied xp) :
    (f.body.drop (f.offset i)).getD b 0 = f.init.getD (f.offset i + b) 0 := by
  have hle := offset_add_le hf h
  rw [List.getD_eq_getElem?_getD, List.getElem?_drop, body, List.append_assoc,
    List.getElem?_append_left (by omega), ← List.getD_eq_getElem?_getD]

end XFile

namespace P2

variable {cc : Compiler} {v : Ld} {u t q p : P2} {f : XFile} {i j a : ℕ} {xp : XSg}

/-- **A module in the output**: its segments are at the places they have, with their bytes as they were,
but that each item has added its base to the word it is for. -/
structure Present (cc : Compiler) (v : Ld) (q t : P2) (f : XFile) : Prop where
  places : ∀ (i : ℕ) xp, f.x_sg[i]? = some xp → idata xp.x_sg_typ = true →
    q.segpos i = v.start (q.out i) + (q.segsiz i).toNat ∧ copied xp = round xp.x_sg_len.toNat ∧
      ∀ a, q.Holds i xp a → Owned v t a
  bytes : ∀ (i : ℕ) xp, f.x_sg[i]? = some xp → idata xp.x_sg_typ = true → ∀ b < copied xp,
    (∀ rl ∈ f.x_rel, rl.x_rl_sgn.toNat = i → ¬ (rl.x_rl_loc.toNat ≤ b ∧ b < rl.x_rl_loc.toNat + 2)) →
      t.content (q.segpos i + b) = f.init.getD (f.offset i + b) 0
  words : ∀ rl ∈ f.x_rel, word_in t.content (q.segpos rl.x_rl_sgn.toNat + rl.x_rl_loc.toNat) =
    word_in (fun a => f.init.getD a 0) (f.offset rl.x_rl_sgn.toNat + rl.x_rl_loc.toNat) + (q.base cc rl).val

/-- An item is in its segment. -/
theorem item_holds {rl : XRel} (hrl : f.Proper rl) (hcopied : ∀ xp, f.x_sg[rl.x_rl_sgn.toNat]? = some xp →
    idata xp.x_sg_typ = true → copied xp = round xp.x_sg_len.toNat) :
    q.item_pos cc rl = q.segpos rl.x_rl_sgn.toNat + rl.x_rl_loc.toNat ∧
      ∃ xp, f.x_sg[rl.x_rl_sgn.toNat]? = some xp ∧ idata xp.x_sg_typ = true ∧
        rl.x_rl_loc.toNat + 2 ≤ copied xp ∧
          ∀ a, q.item_pos cc rl ≤ a → a < q.item_pos cc rl + 2 → q.Holds rl.x_rl_sgn.toNat xp a := by
  obtain ⟨xp, hxp, hinit, hle⟩ := hrl.inside
  have hpos : q.item_pos cc rl = q.segpos rl.x_rl_sgn.toNat + rl.x_rl_loc.toNat := by
    rw [item_pos, cc.low _ hrl.sgn]
  have hround := le_round xp.x_sg_len.toNat
  have hlength := hcopied xp hxp hinit
  refine ⟨hpos, xp, hxp, hinit, by omega, fun a hlo hhi => ⟨?_, ?_⟩⟩
  · omega
  · omega

/-- **One module.** -/
theorem Filling.load (hfin : v.Finished p)
    (heven : ∀ j, v.HasData j → j ∈ v.placing → v.start j % 2 = 0) (hu : Filling v u)
    (hf : f.Formed cc) (hm : ∀ i xp, f.x_sg[i]? = some xp → Matched v (u.p2start.out i) xp)
    (h : u.p2load cc f = some t) (hw : Within v t) : ∃ q rest, u.p2segs f = some (q, rest) ∧
      q.p2dorel cc f.x_rel.length rest = some t ∧ Filling v t ∧ CopyFrame u.p2start t ∧
        (∀ a, Owned v u a → t.content a = u.content a) ∧ Present cc v q t f := by
  unfold p2load at h
  obtain ⟨⟨q, rest⟩, hq, hrel⟩ := Option.bind_eq_some_iff.mp h
  have hsegtab := p2dorel_segtab hrel
  have hwq : Within v q := by
    intro j hj
    have hle := hw j hj
    rw [hsegtab] at hle
    exact hle
  have hbegin : Filling v u.p2start :=
    ⟨⟨hu.buffered.none, hu.buffered.block, hu.buffered.clean⟩, hu.clean, hu.positioned, hu.even⟩
  have hmatched : ∀ x ∈ f.x_sg.zipIdx, Matched v (u.p2start.out x.2) x.1 := fun x hx =>
    hm x.2 x.1 (List.mk_mem_zipIdx_iff_getElem?.mp hx)
  have hnodup : (f.x_sg.zipIdx.map Prod.snd).Nodup := by
    rw [List.zipIdx_map_snd]
    exact List.nodup_range'
  have hall := hbegin.segs hfin hmatched hnodup hq hwq
  have hseg : ∀ i xp, f.x_sg[i]? = some xp → idata xp.x_sg_typ = true →
      Copied v u.p2start q (f.body.drop (f.offset i)) i (u.p2start.out i) xp := by
    intro i xp hxp hinit
    obtain ⟨pre, post, hsplit, hsum⟩ := XFile.zipIdx_at hxp
    rw [← hsum]
    exact hall.copied pre (xp, i) post hsplit hinit
  have hdisjoint : ∀ (i : ℕ) xp (i' : ℕ) xp', f.x_sg[i]? = some xp → f.x_sg[i']? = some xp' → i ≠ i' →
      ∀ a, ¬ (q.Holds i xp a ∧ q.Holds i' xp' a) := by
    intro i xp i' xp' hxp hxp' hne a hboth
    rcases Nat.lt_or_gt_of_ne hne with hlt | hlt
    · exact hall.disjoint hxp hxp' hlt a hboth
    · exact hall.disjoint hxp' hxp hlt a hboth.symm
  have hitem : ∀ rl ∈ f.x_rel, q.item_pos cc rl = q.segpos rl.x_rl_sgn.toNat + rl.x_rl_loc.toNat ∧
      ∃ xp, f.x_sg[rl.x_rl_sgn.toNat]? = some xp ∧ idata xp.x_sg_typ = true ∧
        rl.x_rl_loc.toNat + 2 ≤ copied xp ∧
          ∀ a, q.item_pos cc rl ≤ a → a < q.item_pos cc rl + 2 → q.Holds rl.x_rl_sgn.toNat xp a :=
    fun rl hrl => item_holds (hf.proper rl hrl) fun xp hxp hinit => (hseg _ xp hxp hinit).length
  have hrest : rest = f.x_rel.flatMap XRel.bytes ++ f.x_sym.flatMap XSym.bytes := by
    have hnone : Second cc u [] u := .nil
    obtain ⟨-, hdrop⟩ := p2segs_second hu.buffered hnone hu.clean hq
    rw [hdrop, ← hf.filled, XFile.body, List.append_assoc]
    exact List.drop_left
  have hwhole : ∀ rl ∈ f.x_rel, q.Whole (q.item_pos cc rl) := by
    intro rl hrl
    obtain ⟨hpos, xp, hxp, hinit, hle, -⟩ := hitem rl hrl
    have hcopy := hseg _ xp hxp hinit
    obtain ⟨hjlt, hjdata⟩ := hm _ xp hxp
    have hstart : v.start (u.p2start.out rl.x_rl_sgn.toNat) % 2 = 0 := by
      refine heven _ (hjdata.mpr hinit) (Ld.mem_placing.mpr ⟨.inr hjlt, ?_⟩)
      have hroom := hcopy.room
      have hle' := hwq _ hjlt
      omega
    have heven' := (hf.proper rl hrl).even
    have hsize := hcopy.even
    have hat := hcopy.segpos
    have hlen := hcopy.objlen (by omega)
    rw [hpos]
    refine ⟨?_, by omega⟩
    omega
  have hapart : f.x_rel.Pairwise fun x y => q.item_pos cc x + 2 ≤ q.item_pos cc y ∨
      q.item_pos cc y + 2 ≤ q.item_pos cc x := by
    refine hf.apart.imp_of_mem fun {x y} hx hy hxy => ?_
    obtain ⟨hxpos, xp, hxp, -, -, hxholds⟩ := hitem x hx
    obtain ⟨hypos, yp, hyp, -, -, hyholds⟩ := hitem y hy
    by_cases hsgn : x.x_rl_sgn = y.x_rl_sgn
    · have hloc : x.x_rl_loc.toNat ≠ y.x_rl_loc.toNat := fun h => hxy hsgn (BitVec.eq_of_toNat_eq h)
      have hxeven := (hf.proper x hx).even
      have heven' := (hf.proper y hy).even
      rw [hxpos, hypos, hsgn]
      omega
    · have hne : x.x_rl_sgn.toNat ≠ y.x_rl_sgn.toNat := fun h => hsgn (BitVec.eq_of_toNat_eq h)
      by_contra hover
      rw [not_or, not_le, not_le] at hover
      rcases le_total (q.item_pos cc x) (q.item_pos cc y) with hle | hle
      · exact hdisjoint _ xp _ yp hxp hyp hne _
          ⟨hxholds (q.item_pos cc y) hle hover.1, hyholds (q.item_pos cc y) (le_refl _) (by omega)⟩
      · exact hdisjoint _ xp _ yp hxp hyp hne _
          ⟨hxholds (q.item_pos cc x) (le_refl _) (by omega), hyholds (q.item_pos cc x) hle hover.2⟩
  have hitems := relocs hall.filling.buffered (fun rl hrl => (hf.proper rl hrl).kind) hwhole hapart
  have ht : t = (f.x_rel.foldl (fun s rl => s.reloc cc rl) q).flshbuf := by
    unfold p2dorel at hrel
    rw [hrest, p2rels_eq] at hrel
    exact (Option.some.inj hrel).symm
  generalize f.x_rel.foldl (fun s rl => s.reloc cc rl) q = r at hitems ht
  have hcontent : t.content = r.content := by
    rw [ht, content_flshbuf hitems.buffered]
  have htframe : CopyFrame q t := by
    refine ⟨?_, ?_, fun j => ?_, ?_⟩
    · rw [ht, flshbuf_ld]
      obtain ⟨e, he⟩ := hitems.frame.ld
      rw [he]
    · rw [ht, flshbuf_ld]
      obtain ⟨e, he⟩ := hitems.frame.ld
      rw [he]
    · rw [hsegtab]
    · rw [ht, flshbuf_objlen hitems.buffered, hitems.frame.objlen]
  refine ⟨q, rest, hq, hrel, ⟨?_, ?_, fun j hj hjd => ?_, fun j hj => ?_⟩, hall.frame.trans htframe,
    fun a ha => ?_, fun i xp hxp hinit => ⟨?_, (hseg i xp hxp hinit).length, fun a ha => ?_⟩, fun i xp hxp hinit b hb hfree => ?_,
    fun rl hrl => ?_⟩
  · rw [ht]
    exact hitems.buffered.flshbuf
  · rw [ht]
    exact flshbuf_dirty r
  · rw [hsegtab]
    exact hall.filling.positioned j hj hjd
  · rw [hsegtab]
    exact hall.filling.even j hj
  · rw [hcontent, hitems.kept a fun rl hrl hin => ?_, hall.kept a ha]
    · rfl
    · obtain ⟨-, xp, hxp, hinit, -, hholds⟩ := hitem rl hrl
      exact ((hseg _ xp hxp hinit).owned a (hholds a hin.1 hin.2)).2 ha
  · rw [hall.frame.out]
    exact (hseg i xp hxp hinit).segpos
  · exact ((hseg i xp hxp hinit).owned a ha).1.mono htframe
  · have hcopy := hseg i xp hxp hinit
    rw [hcontent, hitems.kept, hcopy.content b hb, XFile.body_at hf.filled hxp hb]
    intro rl hrl hin
    obtain ⟨hpos, yp, hyp, -, -, hholds⟩ := hitem rl hrl
    by_cases hsame : rl.x_rl_sgn.toNat = i
    · rw [hpos, hsame] at hin
      exact hfree rl hrl hsame ⟨by omega, by omega⟩
    · exact hdisjoint _ yp i xp hyp hxp hsame _
        ⟨hholds _ hin.1 hin.2, Nat.le_add_right _ _, Nat.add_lt_add_left hb _⟩
  · obtain ⟨hpos, xp, hxp, hinit, hle, -⟩ := hitem rl hrl
    have hcopy := hseg _ xp hxp hinit
    rw [← hpos, hcontent, hitems.words rl hrl, hpos, word_in, word_in, Nat.add_assoc, Nat.add_assoc,
      hcopy.content _ (by omega), hcopy.content _ (by omega), XFile.body_at hf.filled hxp (by omega),
      XFile.body_at hf.filled hxp (by omega)]

end P2

end Cpm8000.Linker
