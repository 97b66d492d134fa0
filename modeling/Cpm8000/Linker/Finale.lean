/-
# The end of a link

`finale` completes the object file: a header for each output segment that has been placed, behind the
file's own header, and the relocation items and the symbols behind the contents. What is between is left
as it is, unless there are more headers than `interlude` has counted.
-/
import Cpm8000.Linker.Order
import Cpm8000.Linker.Relocate

namespace Cpm8000.Linker

open Sys

def X_NUI_MAGIC : BitVec 16 := 0xEE0A

structure XHdr where
  x_magic : BitVec 16
  x_nseg : BitVec 16
  x_init : BitVec 32
  x_reloc : BitVec 32
  x_symb : BitVec 32

def XHdr.bytes (h : XHdr) : List Byte :=
  be16 h.x_magic ++ (be16 h.x_nseg ++ (be32 h.x_init ++ (be32 h.x_reloc ++ be32 h.x_symb)))

def XSg.bytes (xp : XSg) : List Byte := [xp.x_sg_no, xp.x_sg_typ] ++ be16 xp.x_sg_len

/-- `sizeof( struct x_sym )` -/
def SYMSIZ : ℕ := 12

namespace Ld

/-- The header of an output segment. -/
def sg (s : Ld) (i : ℕ) : XSg :=
  ⟨if s.saverel then 255 else BitVec.ofNat 8 i, (s.segtab i).segtyp, (s.segtab i).hiwat⟩

/-- `segtab[i].hiwat = 0` -/
def described (s : Ld) (i : ℕ) : Ld :=
  { s with segtab := Function.update s.segtab i { s.segtab i with hiwat := 0 } }

end Ld

namespace P2

/-- write an x.out segment descriptor, at a position -/
def finout (s : P2 × ℕ) (i : ℕ) : P2 × ℕ :=
  if (s.1.ld.segtab i).hiwat ≠ 0 then
    ({ s.1.write s.2 (s.1.ld.sg i).bytes with ld := s.1.ld.described i }, s.2 + SGSIZ)
  else s

def header (s : P2) (r : Layout) : XHdr where
  x_magic := (if s.ld.udefcnt = 0 then 1 else 0) |||
    if s.ld.nonseg then if s.ld.splitid then X_NUI_MAGIC else X_NU_MAGIC else X_SU_MAGIC
  x_nseg := BitVec.ofNat 16 r.objnseg
  x_init := BitVec.ofNat 32 (r.relpos - XHSIZ - r.objnseg * SGSIZ)
  x_reloc := BitVec.ofNat 32 (if s.ld.saverel then s.relfile.length * RELSIZ else 0)
  x_symb := BitVec.ofNat 32 (if s.ld.strip ∧ !s.ld.saverel then 0 else (s.ld.symlev - 1) * SYMSIZ)

/-- The relocation items of the output. -/
def items (s : P2) : List Byte := if s.ld.saverel then s.relfile.flatMap XRel.bytes else []

/-- The symbols of the output. -/
def symbols (s : P2) : List Byte :=
  if s.ld.strip ∧ !s.ld.saverel then []
  else (List.range' 1 (s.ld.symlev - 1)).flatMap fun i => (s.ld.symtab i).bytes

/-- The segment headers. -/
def headers (s : P2) : P2 × ℕ := (s.ld.prelist ++ List.range SEGNO).foldl finout (s, XHSIZ)

/-- do the final clean up -/
def finale (s : P2) (r : Layout) : P2 :=
  let u := s.headers.1.write r.relpos s.items
  let u := u.write (r.relpos + s.items.length) s.symbols
  u.write 0 (s.header r).bytes

/-- The file that is left. -/
def file (s : P2) : List Byte := (List.range s.objlen).map s.objfile

/-- The state with other bytes in the file. -/
def with_bytes (s : P2) (body : ℕ → Byte) : P2 := { s with objfile := body }

variable {s s' t : P2} {a pos : ℕ} {b : List Byte} {l : List ℕ} {r : Layout}

@[simp] theorem with_bytes_objfile (s : P2) (body : ℕ → Byte) : (s.with_bytes body).objfile = body := rfl

/-! ## 1. Writing -/

theorem write_at (h : pos ≤ a ∧ a < pos + b.length) : (s.write pos b).objfile a = b.getD (a - pos) 0 :=
  if_pos h

theorem write_other (h : ¬ (pos ≤ a ∧ a < pos + b.length)) : (s.write pos b).objfile a = s.objfile a :=
  if_neg h

theorem write_objlen (s : P2) (pos : ℕ) (b : List Byte) :
    (s.write pos b).objlen = if b = [] then s.objlen else max s.objlen (pos + b.length) := rfl

/-- Two states that write the same, and have the same at some places. -/
structure Same (A : ℕ → Prop) (s s' : P2) : Prop where
  ld : s'.ld = s.ld
  relfile : s'.relfile = s.relfile
  objlen : s'.objlen = s.objlen
  byte : ∀ a, A a → s'.objfile a = s.objfile a

theorem Same.write {A : ℕ → Prop} (h : Same A s s') (pos : ℕ) (b : List Byte) :
    Same A (s.write pos b) (s'.write pos b) := by
  refine ⟨h.ld, h.relfile, ?_, fun a hA => ?_⟩
  · rw [write_objlen, write_objlen, h.objlen]
  · by_cases ha : pos ≤ a ∧ a < pos + b.length
    · rw [write_at ha, write_at ha]
    · rw [write_other ha, write_other ha]
      exact h.byte a hA

/-! ## 2. The segment headers -/

theorem finout_of_zero {i : ℕ} (hi : (s.ld.segtab i).hiwat = 0) : finout (s, pos) i = (s, pos) :=
  if_neg (not_not.mpr hi)

theorem finout_of_ne {i : ℕ} (hi : (s.ld.segtab i).hiwat ≠ 0) : finout (s, pos) i =
    ({ s.write pos (s.ld.sg i).bytes with ld := s.ld.described i }, pos + SGSIZ) :=
  if_pos hi

/-- The segments that have a mark, each where it comes first. -/
def marked (s : Ld) (l : List ℕ) : List ℕ := order (fun i => (s.segtab i).hiwat.toNat) l

theorem marked_cons_of_zero {u : Ld} {i : ℕ} (hi : (u.segtab i).hiwat = 0) :
    marked u (i :: l) = marked u l := by
  refine if_neg ?_
  dsimp only
  rw [hi]
  exact not_not.mpr rfl

theorem marked_cons_of_ne {u : Ld} {i : ℕ} (hi : (u.segtab i).hiwat ≠ 0) :
    marked u (i :: l) = i :: marked (u.described i) l := by
  have hne : (u.segtab i).hiwat.toNat ≠ 0 := fun h => hi (BitVec.eq_of_toNat_eq h)
  have hmarks : (fun j => ((u.described i).segtab j).hiwat.toNat) =
      Function.update (fun j => (u.segtab j).hiwat.toNat) i 0 := by
    funext j
    unfold Ld.described
    dsimp only
    by_cases hj : j = i
    · rw [hj, Function.update_self, Function.update_self]
      rfl
    · rw [Function.update_of_ne hj, Function.update_of_ne hj]
  rw [marked, marked, hmarks]
  exact if_pos hne

/-- A header is written for each segment with a mark, once. -/
theorem foldl_finout_pos (l : List ℕ) (s : P2) (pos : ℕ) :
    (l.foldl finout (s, pos)).2 = pos + (marked s.ld l).length * SGSIZ := by
  induction l generalizing s pos with
  | nil => rfl
  | cons i l ih =>
    rw [List.foldl_cons]
    by_cases hi : (s.ld.segtab i).hiwat = 0
    · rw [finout_of_zero hi, marked_cons_of_zero hi, ih]
    · rw [finout_of_ne hi, marked_cons_of_ne hi, ih, List.length_cons, Nat.succ_mul]
      dsimp only
      omega

/-- Outside the headers nothing changes. -/
theorem foldl_finout_other (h : a < pos ∨ pos + (marked s.ld l).length * SGSIZ ≤ a) :
    (l.foldl finout (s, pos)).1.objfile a = s.objfile a := by
  induction l generalizing s pos with
  | nil => rfl
  | cons i l ih =>
    rw [List.foldl_cons]
    by_cases hi : (s.ld.segtab i).hiwat = 0
    · rw [marked_cons_of_zero hi] at h
      rw [finout_of_zero hi]
      exact ih h
    · rw [marked_cons_of_ne hi, List.length_cons, Nat.succ_mul] at h
      rw [finout_of_ne hi, ih ?_]
      · refine write_other ?_
        change ¬ (pos ≤ a ∧ a < pos + SGSIZ)
        omega
      · dsimp only
        omega

/-- **In the headers** nothing is left of the bytes before. -/
theorem Same.headers {A : ℕ → Prop} (hld : s'.ld = s.ld) (hrel : s'.relfile = s.relfile)
    (hlen : s'.objlen = s.objlen) (h : ∀ a, A a → s'.objfile a = s.objfile a ∨
      pos ≤ a ∧ a < pos + (marked s.ld l).length * SGSIZ) :
    Same A (l.foldl finout (s, pos)).1 (l.foldl finout (s', pos)).1 := by
  induction l generalizing s s' pos with
  | nil =>
    refine ⟨hld, hrel, hlen, fun a hA => (h a hA).resolve_right ?_⟩
    rw [marked, order, List.length_nil, Nat.zero_mul]
    omega
  | cons i l ih =>
    rw [List.foldl_cons, List.foldl_cons]
    by_cases hi : (s.ld.segtab i).hiwat = 0
    · rw [marked_cons_of_zero hi] at h
      rw [finout_of_zero hi, finout_of_zero (hld ▸ hi)]
      exact ih hld hrel hlen h
    · rw [marked_cons_of_ne hi, List.length_cons, Nat.succ_mul] at h
      rw [finout_of_ne hi, finout_of_ne (hld ▸ hi), hld]
      refine ih rfl hrel ?_ fun a hA => ?_
      · change (s'.write pos (s.ld.sg i).bytes).objlen = (s.write pos (s.ld.sg i).bytes).objlen
        rw [write_objlen, write_objlen, hlen]
      · by_cases ha : pos ≤ a ∧ a < pos + (s.ld.sg i).bytes.length
        · exact .inl ((write_at ha).trans (write_at ha).symm)
        · rcases h a hA with h | h
          · refine .inl ?_
            change (s'.write pos (s.ld.sg i).bytes).objfile a = (s.write pos (s.ld.sg i).bytes).objfile a
            rw [write_other ha, write_other ha]
            exact h
          · change ¬ (pos ≤ a ∧ a < pos + SGSIZ) at ha
            refine .inr ⟨?_, ?_⟩
            · omega
            · dsimp only
              omega

/-! ## 3. The file -/

/-- How many segment headers there are. -/
def headed (s : P2) : ℕ := (marked s.ld (s.ld.prelist ++ List.range SEGNO)).length

theorem length_hdr_bytes (h : XHdr) : h.bytes.length = XHSIZ := rfl

/-- **The contents** are left as they are. -/
theorem finale_body (hlo : XHSIZ + s.headed * SGSIZ ≤ a) (hhi : a < r.relpos) :
    (s.finale r).objfile a = s.objfile a := by
  unfold finale
  dsimp only
  rw [write_other, write_other, write_other]
  · exact foldl_finout_other (.inr hlo)
  · omega
  · omega
  · rw [length_hdr_bytes]
    omega

/-- **The file's header.** -/
theorem finale_header (h : a < XHSIZ) : (s.finale r).objfile a = (s.header r).bytes.getD a 0 :=
  write_at ⟨Nat.zero_le a, (Nat.zero_add _).symm ▸ h⟩

/-- **Other bytes** show in the file where they are, and not in the segment headers. -/
theorem finale_same (body : ℕ → Byte) : Same
    (fun a => body a = s.objfile a ∨ XHSIZ ≤ a ∧ a < XHSIZ + s.headed * SGSIZ)
      (s.finale r) ((s.with_bytes body).finale r) := by
  have hheaders : Same (fun a => body a = s.objfile a ∨ XHSIZ ≤ a ∧ a < XHSIZ + s.headed * SGSIZ)
      s.headers.1 (s.with_bytes body).headers.1 := .headers rfl rfl rfl fun _ h => h
  exact ((hheaders.write _ _).write _ _).write _ _

@[simp] theorem length_file (s : P2) : s.file.length = s.objlen := by
  rw [file, List.length_map, List.length_range]

theorem getElem?_file (s : P2) {a : ℕ} (ha : a < s.objlen) : s.file[a]? = some (s.objfile a) := by
  rw [file, List.getElem?_map, List.getElem?_range ha]
  rfl

end P2

/-! ## 4. Marks -/

/-- Every segment has the mark it had. -/
def Marks (s t : Ld) : Prop := ∀ j, (t.segtab j).hiwat = (s.segtab j).hiwat

namespace Marks

variable {cc : Compiler} {s t u : Ld} {i : ℕ}

theorem refl (s : Ld) : Marks s s := fun _ => rfl

theorem trans (h : Marks s t) (h' : Marks t u) : Marks s u := fun j => (h' j).trans (h j)

theorem update {x : SegTab} (h : t.segtab = Function.update s.segtab i x)
    (hx : x.hiwat = (s.segtab i).hiwat) : Marks s t := by
  intro j
  rw [h]
  by_cases hj : j = i
  · rw [hj, Function.update_self, hx]
  · rw [Function.update_of_ne hj]

theorem sized (s : Ld) (i n : ℕ) : Marks s
    { s with segtab := Function.update s.segtab i { s.segtab i with segsiz := n } } := .update rfl rfl

theorem dodset (d : Dod) (i : ℕ) (typ : Byte) : Marks d.ld (d.dodset i typ).ld := by
  unfold Dod.dodset
  dsimp only
  split_ifs
  · exact .update rfl rfl
  · exact Marks.trans (t := { d.ld with
      prelist := d.ld.prelist ++ [i]
      segtab := Function.update d.ld.segtab i { d.ld.segtab i with segalloc := true } })
      (.update rfl rfl) (.update rfl rfl)
  · exact .refl _
  · exact .update rfl rfl

theorem name_step {name : List Byte} {v : Verdict} (h : NameStep cc s i name v t) : Marks s t := by
  have htyped : ∀ u : Ld, u.segtab = s.segtab → Marks s (u.typed i name) := by
    intro u hu
    unfold Ld.typed
    split_ifs
    · refine .update (i := i) (x := ?_) ?_ ?_
      · exact { u.segtab i with segtyp := newtyp (u.segtab i).segtyp (Dod.segment_type name) }
      · rw [← hu]
      · rw [← hu]
    · intro j
      rw [hu]
  cases h with
  | full => exact .refl s
  | conflict _ _ => exact .refl s
  | again _ _ => exact htyped _ rfl
  | new _ => exact htyped _ rfl

theorem descriptive (cc : Compiler) (s : Ld) : Descriptive cc (Marks s) where
  err _ h := h
  set d i typ _ h := h.trans (dodset d i typ)
  name _ _ _ _ _ hs h := h.trans (name_step hs)

theorem flag {f : Flag} (h : s.flag cc f = some t) : Marks s t := by
  cases f with
  | d descriptor =>
    rw [Ld.flag] at h
    split_ifs at h
    obtain rfl := Option.some.inj h
    exact (descriptive cc s).dodline (d := ⟨s, []⟩) descriptor (.refl s)
  | d_file file =>
    cases file with
    | none =>
      obtain rfl := Option.some.inj h
      exact .refl s
    | some file =>
      rw [Ld.flag] at h
      split_ifs at h
      obtain rfl := Option.some.inj h
      exact (descriptive cc s).dodfile (d := ⟨s, []⟩) file (.refl s)
  | i | r | s | x | bad =>
    obtain rfl := Option.some.inj h
    exact .refl _
  | t l =>
    obtain rfl := Option.some.inj h
    unfold Ld.setstack
    dsimp only
    split_ifs
    · exact .refl s
    · exact .refl s
    · exact .refl s
    · exact .refl s
  | u name =>
    rw [Ld.flag] at h
    rcases hl : s.look cc .symhash name with _ | ⟨u, _ | k⟩ <;> rw [hl] at h
    · cases h
    · obtain ⟨slot, rfl, -⟩ := Ld.look_none hl
      dsimp only at h
      obtain ⟨⟨v, n⟩, hi, hv⟩ := Option.bind_eq_some_iff.mp h
      obtain rfl := Option.some.inj hv
      unfold Ld.install at hi
      dsimp only at hi
      split_ifs at hi
      obtain ⟨rfl, rfl⟩ := Prod.mk.inj (Option.some.inj hi)
      exact .refl s
    · obtain ⟨rfl, -⟩ := Ld.look_some hl
      obtain rfl := Option.some.inj h
      exact .refl _
  | w =>
    obtain rfl := Option.some.inj h
    have hset : ∀ (u : Ld) (i : ℕ) (typ : Byte), Marks u (u.set_segtyp i typ) := fun u i typ =>
      .update rfl rfl
    exact (((hset s _ _).trans (hset _ _ _)).trans (hset _ _ _)).trans (hset _ _ _)

theorem pass0 {stray : Stray} {flags : List Flag} (h : Ld.pass0 cc stray flags = some s) :
    Marks (Ld.initial stray) s := by
  refine foldlM_invariant (I := Marks (Ld.initial stray)) h (.refl _) ?_
  intro f _ u u' hu hf
  exact hu.trans (flag hf)

theorem p1module {f : XFile} (h : s.p1module cc f = some t) : Marks s t := by
  unfold Ld.p1module at h
  obtain ⟨u, hu, ht⟩ := Option.bind_eq_some_iff.mp h
  obtain ⟨_, _, _, _, _, _, _, rfl⟩ := Ld.p1dosym_frame ht
  obtain ⟨v, w, hv, hw, hu⟩ := Ld.p1doseg_parts hu
  obtain ⟨-, -, -, rfl⟩ := Ld.p1start_eq hv
  obtain ⟨_, _, _, rfl⟩ := Ld.p1pres_eq hw
  have hsegs : Marks s u := by
    refine foldlM_invariant (I := Marks s) hu (.refl s) ?_
    intro x _ u u' hu hx
    obtain ⟨j, -, rfl⟩ := Ld.p1seg_eq hx
    exact hu.trans (.update rfl rfl)
  exact hsegs

theorem loads {l : List (Ld × XFile)} (h : Ld.Loads cc s l t) : Marks s t := by
  refine h.invariant (.refl s) ?_ ?_
  · rintro u u' ⟨_, _, _, _, _, _, _, rfl⟩ hu
    exact hu
  · intro u f u' _ hu hm
    exact hu.trans (p1module hm)

theorem p1commons (h : s.p1commons = some t) : Marks s t := by
  unfold Ld.p1commons at h
  split_ifs at h
  · refine foldlM_invariant (I := Marks s) h (.refl s) ?_
    intro i _ u u' hu hi
    by_cases hc : Ld.IsCommon (u.symtab i)
    · obtain ⟨j, -, rfl⟩ := Ld.p1common_eq hi hc
      exact hu.trans (.update rfl rfl)
    · rw [Ld.p1common_of_not hi hc]
      exact hu
  · obtain rfl := Option.some.inj h
    exact .refl s

theorem p1stack (h : s.p1round.p1stack = some t) : Marks s t := by
  have hround : Marks s s.p1round := by
    intro j
    unfold Ld.p1round
    dsimp only
    split_ifs
    · rfl
    · rfl
  unfold Ld.p1stack at h
  split_ifs at h
  · rcases hf : s.p1round.findseg X_SG_STK (BitVec.ofNat 16 s.p1round.stacksiz) with _ | j <;> rw [hf] at h
    · cases h
    · obtain rfl := Option.some.inj h
      exact hround.trans (.update rfl rfl)
  · obtain rfl := Option.some.inj h
    exact hround

/-- **No segment of the table has a mark** when the first pass is done. -/
theorem pass1 {stray : Stray} {flags : List Flag} {files : List Ld.Input} {v : Ld}
    (h0 : Ld.pass0 cc stray flags = some s) (h1 : s.pass1 cc files = some v) :
    ∀ j < SEGNO, (v.segtab j).hiwat = 0 := by
  obtain ⟨t, u, ht, hu, hv⟩ := Ld.pass1_parts h1
  obtain ⟨l, hl⟩ := Ld.p1files_loads ht
  intro j hj
  rw [(((pass0 h0).trans (loads hl)).trans ((p1commons hu).trans (p1stack hv))) j, Ld.initial]
  dsimp only
  rw [if_pos hj]

end Marks

namespace P2

variable {cc : Compiler} {s t : P2}

theorem reloc_marks (cc : Compiler) (s : P2) (rl : XRel) :
    Marks s.ld (s.reloc cc rl).ld ∧ (s.reloc cc rl).ld.prelist = s.ld.prelist := by
  rcases reloc_ld cc s rl with h | h
  · rw [h]
    exact ⟨.refl _, rfl⟩
  · rw [h]
    exact ⟨.refl _, rfl⟩

theorem p2seg_marks {rest rest' : List Byte} {i : ℕ} {xp : XSg}
    (h : s.p2seg rest i xp = some (t, rest')) : Marks s.ld t.ld ∧ t.ld.prelist = s.ld.prelist := by
  unfold p2seg at h
  dsimp only at h
  have hsize := Marks.sized s.ld (s.ld.map (s.ld.maps + i)).toNat
    (round ((s.ld.segtab (s.ld.map (s.ld.maps + i)).toNat).segsiz + xp.x_sg_len.toNat))
  split_ifs at h
  · obtain ⟨rfl, -⟩ := Prod.mk.inj (Option.some.inj h)
    refine ⟨hsize.trans (.update rfl ?_), rfl⟩
    exact (hsize _).symm
  · obtain ⟨rfl, -⟩ := Prod.mk.inj (Option.some.inj h)
    exact ⟨hsize, rfl⟩

/-- The second pass keeps the marks and the preassigned list. -/
theorem Second.marks {l : List Event} (h : Second cc s l t) :
    Marks s.ld t.ld ∧ t.ld.prelist = s.ld.prelist := by
  induction h with
  | nil => exact ⟨.refl _, rfl⟩
  | start _ ih => exact ih
  | flush _ ih =>
    rw [flshbuf_ld]
    exact ih
  | @event l t e _ hstep ih =>
    obtain ⟨hmarks, hpre⟩ := ih
    cases e with
    | rel u rl =>
      obtain rfl := hstep
      obtain ⟨hmarks', hpre'⟩ := reloc_marks cc u rl
      exact ⟨hmarks.trans hmarks', hpre'.trans hpre⟩
    | seg u rest i xp =>
      obtain ⟨-, rest', hseg⟩ := hstep
      obtain ⟨hmarks', hpre'⟩ := p2seg_marks hseg
      exact ⟨hmarks.trans hmarks', hpre'.trans hpre⟩

end P2

end Cpm8000.Linker
