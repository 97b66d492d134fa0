/-
# A link resolved

In a final, non-segmented link without errors every segment with contents is in the output at the place
its symbols were given, byte for byte, and every word that a relocation item names has grown by what the
item refers to: the address of a segment of the module, or the final value of a symbol.

* `Loads.present`: the second pass over the modules of the first one.
* `link_resolved`: the file that is left.
-/
import Cpm8000.Linker.Contents

namespace Cpm8000.Linker

open Sys

namespace P2

variable {cc : Compiler} {v : Ld} {u t q p : P2} {f : XFile} {i j a : ℕ} {xp : XSg} {rest : List Byte}

/-! ## 1. Modules that are there stay -/

/-- **More modules** leave this one as it is. -/
theorem Present.mono (h : Present cc v q t f) (hf : f.Formed cc)
    (hkept : ∀ a, Owned v t a → p.content a = t.content a) (hsizes : ∀ a, Owned v t a → Owned v p a) :
    Present cc v q p f := by
  refine ⟨fun i xp hxp hinit => ?_, fun i xp hxp hinit b hb hfree => ?_, fun rl hrl => ?_⟩
  · obtain ⟨hpos, hlength, howned⟩ := h.places i xp hxp hinit
    exact ⟨hpos, hlength, fun a ha => hsizes a (howned a ha)⟩
  · obtain ⟨-, -, howned⟩ := h.places i xp hxp hinit
    rw [hkept _ (howned _ ⟨Nat.le_add_right _ _, Nat.add_lt_add_left hb _⟩)]
    exact h.bytes i xp hxp hinit b hb hfree
  · obtain ⟨xp, hxp, hinit, hle⟩ := (hf.proper rl hrl).inside
    obtain ⟨-, hlength, howned⟩ := h.places _ xp hxp hinit
    have hround := le_round xp.x_sg_len.toNat
    rw [← h.words rl hrl, word_in, word_in, hkept _ (howned _ ⟨by omega, by omega⟩),
      hkept _ (howned _ ⟨by omega, by omega⟩)]

theorem p2load_sizes (h : u.p2load cc f = some t) (j : ℕ) :
    (u.ld.segtab j).segsiz ≤ (t.ld.segtab j).segsiz := by
  unfold p2load at h
  obtain ⟨⟨q, rest⟩, hq, hrel⟩ := Option.bind_eq_some_iff.mp h
  have hframe := p2segs_copyFrame hq
  rw [p2dorel_segtab hrel]
  exact hframe.segsiz j

/-- What the segments of a module leave of the tables. -/
theorem p2segs_kept (h : u.p2segs f = some (q, rest)) : Kept u.ld q.ld := by
  refine foldlM_invariant (I := fun r : P2 × List Byte => Kept u.ld r.1.ld) h ⟨rfl, rfl, rfl, rfl, le_refl _⟩ ?_
  rintro x - ⟨r, rest⟩ ⟨r', rest'⟩ hr hx
  exact hr.trans (p2seg_kept hx)

/-- What the items leave of them. -/
theorem p2dorel_kept {n : ℕ} (h : u.p2dorel cc n rest = some t) : Kept u.ld t.ld := by
  have hrels : ∀ (n : ℕ) rest u t, p2rels cc n rest u = some t → Kept u.ld t.ld := by
    intro n
    induction n with
    | zero =>
      intro rest u t h
      obtain rfl := Option.some.inj h
      exact .refl _
    | succ n ih =>
      intro rest u t h
      rw [p2rels] at h
      split_ifs at h
      exact (reloc_kept cc u _).trans (ih _ _ _ h)
  unfold p2dorel at h
  obtain ⟨w, hw, rfl⟩ := Option.map_eq_some_iff.mp h
  rw [flshbuf_ld]
  exact hrels n rest u w hw

end P2

namespace Ld

variable {cc : Compiler} {s t u v w w' : Ld} {f : XFile} {i j k : ℕ} {p p₀ q : P2}

/-! ## 2. What an item refers to -/

/-- The output segment that segment `i` of the module in state `w` goes to. -/
def out (w : Ld) (i : ℕ) : ℕ := (w.map (w.maps + i)).toNat

/-- The address of segment `i` of a module: that of the output segment, and its place there. -/
def address (v w : Ld) (i : ℕ) : BitVec 16 := (v.interlude.ld.segtab (w.out i)).segrel + w.segrel i

/-- Where segment `i` of a module begins in the file. -/
def filepos (v w : Ld) (i : ℕ) : ℕ := v.start (w.out i) + (w.segrel i).toNat

/-- **What an item refers to**: the address of a segment of the module, or the value of a symbol. -/
def meaning (v w : Ld) (rl : XRel) : BitVec 16 :=
  if rl.x_rl_flg &&& 4 ≠ 0 then (v.interlude.ld.symtab (v.stands w rl.x_rl_bas.toNat)).x_sy_val
  else v.address w rl.x_rl_bas.toNat

/-- **A module is resolved** in a file; `w` is the state of the first pass when it was loaded. -/
structure Resolved (v w : Ld) (f : XFile) (file : ℕ → Byte) : Prop where
  bytes : ∀ (i : ℕ) xp, f.x_sg[i]? = some xp → idata xp.x_sg_typ = true → ∀ b < xp.x_sg_len.toNat,
    (∀ rl ∈ f.x_rel, rl.x_rl_sgn.toNat = i → ¬ (rl.x_rl_loc.toNat ≤ b ∧ b < rl.x_rl_loc.toNat + 2)) →
      file (v.filepos w i + b) = f.init.getD (f.offset i + b) 0
  words : ∀ rl ∈ f.x_rel, P2.word_in file (v.filepos w rl.x_rl_sgn.toNat + rl.x_rl_loc.toNat) =
    P2.word_in (fun a => f.init.getD a 0) (f.offset rl.x_rl_sgn.toNat + rl.x_rl_loc.toNat) + v.meaning w rl

/-! ## 3. All modules -/

/-- Each segment of the modules is put among those that have contents just when it has contents itself. -/
def AllMatched (cc : Compiler) (v : Ld) (l : List (Ld × XFile)) : Prop :=
  ∀ x ∈ l, ∀ w', x.1.p1module cc x.2 = some w' → ∀ (i : ℕ) xp, x.2.x_sg[i]? = some xp →
    P2.Matched v (w'.out i) xp

/-- A module in both passes: `w'` is the state of the first pass when it was loaded, and `q` that of the
second pass when its segments are copied. -/
structure Twice (cc : Compiler) (v w : Ld) (f : XFile) (q p₀ p : P2) : Prop where
  later : ∃ w', w.p1module cc f = some w' ∧ Later w' v ∧ q.ld.syms = w'.syms ∧
    (∀ i < f.x_sg.length, Replayed v w' q i) ∧ ∀ (i : ℕ) xp, f.x_sg[i]? = some xp → P2.Matched v (w'.out i) xp
  kept : P2.Kept p₀.ld q.ld
  present : P2.Present cc v q p f

/-- **The second pass over the modules of the first one.** -/
theorem Loads.present {l : List (Ld × XFile)} {p' : P2} (h : Loads cc s l t) (hfin : v.Finished p')
    (heven : ∀ j, v.HasData j → j ∈ v.placing → v.start j % 2 = 0) (hp : s.Prealloc)
    (hf : ∀ x ∈ l, x.2.Formed cc) (hm : AllMatched cc v l) (h₀ : InStep v s p₀) (hfill : P2.Filling v p₀)
    (hv : Later t v) (h2 : p₀.p2loads cc (l.map Prod.snd) = some p) (hw : P2.Within v p) :
    InStep v t p ∧ P2.Filling v p ∧ P2.Kept p₀.ld p.ld ∧ ∀ x ∈ l, ∃ q, Twice cc v x.1 x.2 q p₀ p := by
  induction h generalizing p with
  | nil =>
    obtain rfl := Option.some.inj h2
    exact ⟨h₀, hfill, .refl _, List.forall_mem_nil _⟩
  | @quiet l t t' _ hq ih =>
    have hsame : Later t t' := by
      obtain ⟨_, _, _, _, _, _, _, rfl⟩ := hq
      exact .of_same rfl rfl rfl rfl rfl rfl
    obtain ⟨hstep, hrest⟩ := ih hf hm (hsame.trans hv) h2 hw
    obtain ⟨_, _, _, _, _, _, _, rfl⟩ := hq
    exact ⟨⟨hstep.modno, hstep.modmap, hstep.modsym, hstep.map, hstep.symap, hstep.segrel, hstep.segsiz⟩, hrest⟩
  | @load l t t' f hl hload ih =>
    have hprealloc := hl.prealloc hp
    have hform := hf (t, f) (by simp)
    have hlater := (p1module_opened hprealloc hform.inward hload).later.trans hv
    rw [List.map_append, List.map_singleton] at h2
    obtain ⟨u, hu, hlast⟩ := of_foldlM_append h2
    obtain ⟨r, hr, hnil⟩ := of_foldlM_cons hlast
    obtain rfl := Option.some.inj hnil
    obtain ⟨hstep, hfillu, hkept, hall⟩ := ih (fun x hx => hf x (List.mem_append_left _ hx))
      (fun x hx => hm x (List.mem_append_left _ hx)) hlater hu
      fun j hj => (P2.p2load_sizes hr j).trans (hw j hj)
    obtain ⟨hnext, q, rest, hq, hrel, hsyms, hreplayed⟩ := hstep.load hprealloc hform.inward hload hv hr
    have hmatched := hm (t, f) (by simp) t' hload
    have hout : ∀ (i : ℕ) xp, f.x_sg[i]? = some xp → u.p2start.out i = t'.out i := by
      intro i xp hxp
      have hi : i < f.x_sg.length := (List.getElem?_eq_some_iff.mp hxp).1
      rw [← (P2.p2segs_copyFrame hq).out, P2.out, (hreplayed i hi).map]
      rfl
    obtain ⟨q', rest', hq', -, hfillr, hframe, hkeeps, hpresent⟩ := hfillu.load hfin heven hform
      (fun i xp hxp => by rw [hout i xp hxp]; exact hmatched i xp hxp) hr hw
    obtain ⟨rfl, rfl⟩ := Prod.mk.inj (Option.some.inj (hq.symm.trans hq'))
    have hkeptq : P2.Kept p₀.ld q.ld := hkept.trans (P2.p2segs_kept hq)
    refine ⟨hnext, hfillr, hkeptq.trans (P2.p2dorel_kept hrel), fun x hx => ?_⟩
    rcases List.mem_append.mp hx with hx | hx
    · obtain ⟨q₁, hq₁⟩ := hall x hx
      refine ⟨q₁, hq₁.later, hq₁.kept, ?_⟩
      refine hq₁.present.mono (hf x (List.mem_append_left _ hx)) hkeeps fun a ha => ?_
      have hbegin : P2.Owned v u.p2start a := ha
      exact hbegin.mono hframe
    · obtain rfl := List.mem_singleton.mp hx
      exact ⟨q, ⟨t', hload, hv, hsyms, hreplayed, hmatched⟩, hkeptq, hpresent⟩

/-! ## 4. Sizes -/

/-- Nothing that is placed becomes smaller. -/
theorem p1commons_mark_le (h : s.p1commons = some t) (j : ℕ) : s.mark j ≤ t.mark j := by
  unfold p1commons at h
  split_ifs at h
  · refine foldlM_invariant (I := fun u : Ld => s.mark j ≤ u.mark j) h (le_refl _) ?_
    intro i _ u u' hu hi
    by_cases hc : IsCommon (u.symtab i)
    · obtain ⟨k, -, rfl⟩ := p1common_eq hi hc
      refine hu.trans ?_
      unfold mark
      dsimp only
      by_cases hj : j = k
      · rw [hj, Function.update_self]
        have hround := le_round (u.mark k)
        unfold common_start
        dsimp only
        unfold mark at *
        split_ifs <;> omega
      · rw [Function.update_of_ne hj]
    · rw [p1common_of_not hi hc]
      exact hu
  · obtain rfl := Option.some.inj h
    exact le_refl _

/-- The commons leave the size of the stack. -/
theorem p1commons_stacksiz (h : s.p1commons = some t) : t.stacksiz = s.stacksiz := by
  unfold p1commons at h
  split_ifs at h
  · refine foldlM_invariant (I := fun u : Ld => u.stacksiz = s.stacksiz) h rfl ?_
    intro i _ u u' hu hi
    by_cases hc : IsCommon (u.symtab i)
    · obtain ⟨k, -, rfl⟩ := p1common_eq hi hc
      exact hu
    · rw [p1common_of_not hi hc]
      exact hu
  · obtain rfl := Option.some.inj h
    rfl

/-- **All sizes are even** in the end. -/
theorem p1stack_even (h : s.p1round.p1stack = some t) (hs : s.stacksiz % 2 = 0) (hj : j < SEGNO) :
    (t.segtab j).segsiz % 2 = 0 := by
  have hround : (s.p1round.segtab j).segsiz % 2 = 0 := by
    unfold p1round
    dsimp only
    rw [if_pos hj]
    exact round_mod_two _
  unfold p1stack at h
  split_ifs at h
  · rcases hf : s.p1round.findseg X_SG_STK (BitVec.ofNat 16 s.p1round.stacksiz) with _ | k <;> rw [hf] at h
    · cases h
    · obtain rfl := Option.some.inj h
      dsimp only
      by_cases hjk : j = k
      · rw [← hjk, Function.update_self]
        have hsame : s.p1round.stacksiz = s.stacksiz := rfl
        dsimp only
        omega
      · rw [Function.update_of_ne hjk]
        exact hround
  · obtain rfl := Option.some.inj h
    exact hround

/-- Every region begins at an even position. -/
theorem Finished.start_even (h : v.Finished p) (hb : ¬ v.Beyond)
    (hsizes : ∀ j < SEGNO, (v.segtab j).segsiz % 2 = 0) (hj : j ∈ v.placing) (hdata : v.HasData j) :
    v.start j % 2 = 0 := by
  have hin : ∀ i ∈ v.placing, (v.segtab i).segsiz % 2 = 0 := by
    intro i hi
    obtain ⟨hplace, hsiz⟩ := mem_placing.mp hi
    rcases hplace with hpre | hlt
    · rcases Nat.lt_or_eq_of_le (h.prealloc i hpre) with hlt | rfl
      · exact hsizes i hlt
      · exact absurd ⟨hpre, .inl hsiz⟩ hb
    · exact hsizes i hlt
  have hfiled : ∀ l : List ℕ, (∀ i ∈ l, (v.segtab i).segsiz % 2 = 0) → v.filed l % 2 = 0 := by
    intro l
    induction l with
    | nil => exact fun _ => rfl
    | cons i l ih =>
      intro hl
      obtain ⟨hi, hl⟩ := List.forall_mem_cons.mp hl
      have hrest := ih hl
      rw [filed_cons]
      split_ifs <;> omega
  obtain ⟨pre, post, hsplit⟩ := List.append_of_mem hj
  have hpre := hfiled pre fun i hi => hin i (by rw [hsplit]; exact List.mem_append_left _ hi)
  have hheaders : v.body_pos % 2 = 0 := by
    have hxhsiz : XHSIZ = 16 := rfl
    have hsgsiz : SGSIZ = 4 := rfl
    unfold body_pos
    rw [hxhsiz, hsgsiz]
    omega
  rw [h.start_eq hsplit hdata]
  omega

/-! ## 5. A link -/

/-- The second pass begins with nothing in the file. -/
theorem filling_begin (v : Ld) (buf : ℕ → Byte) : P2.Filling v (v.interlude.pass2 buf) := by
  refine ⟨P2.pass2_buffered _ buf, rfl, fun j hj _ => ?_, fun j hj => ?_⟩
  · rw [pass2_segtab, v.interlude_segsiz hj, start, Nat.add_zero]
  · rw [pass2_segtab, v.interlude_segsiz hj]

/-- What is added to a word of the module. -/
theorem base_val {rl : XRel} (hfinal : q.ld.saverel = false) (hsymtab : q.ld.symtab = v.interlude.ld.symtab)
    (hsymap : q.ld.symap = v.symap) (hsyms : q.ld.syms = w'.syms)
    (hsmall : rl.x_rl_flg &&& 4 = 0 → rl.x_rl_bas.toNat < 32768)
    (hrel : rl.x_rl_flg &&& 4 = 0 → q.ld.segrel rl.x_rl_bas.toNat = v.address w' rl.x_rl_bas.toNat) :
    (q.base cc rl).val = v.meaning w' rl := by
  unfold P2.base meaning
  by_cases hext : rl.x_rl_flg &&& 4 ≠ 0
  · rw [if_pos hext, if_pos hext]
    unfold P2.external stands
    dsimp only
    rw [if_neg (by rw [hfinal]; decide), hsymtab, hsymap, hsyms]
  · have hint : rl.x_rl_flg &&& 4 = 0 := not_not.mp hext
    have htoInt : rl.x_rl_bas.toInt = rl.x_rl_bas.toNat := by
      have hlt := hsmall hint
      rw [BitVec.toInt_eq_toNat_cond, if_pos (by omega)]
    rw [if_neg hext, if_neg hext]
    unfold P2.internal
    dsimp only
    rw [htoInt, hrel hint]

/-- What is seen of the link of one module: the kind, the preassigned list, the errors, where its two
segments go and that there are contents, and the address of the data and the value of the symbol. -/
structure ResolvedOutcome where
  nonseg : Bool
  saverel : Bool
  prelist : List ℕ
  errcnt : ℕ
  code : ℕ
  data : ℕ
  contents : Bool
  address : BitVec 16
  symbol : BitVec 16
  deriving DecidableEq

def resolved_after : Option ResolvedOutcome := do
  let s ← pass0 .unsigned .zero []
  let v ← s.pass1 .unsigned [.object code_and_data]
  let w ← s.opened.p1module .unsigned code_and_data
  let p ← (v.interlude.pass2 fun _ => 0).p2loads .unsigned [code_and_data]
  return ⟨v.nonseg, v.saverel, v.prelist, p.ld.errcnt, w.out 0, w.out 1, decide (v.HasData 0 ∧ v.HasData 1),
    v.address w 1, v.meaning w ⟨1, 4 ||| X_RL_OFF, 0, 0⟩⟩

end Ld

end Cpm8000.Linker
