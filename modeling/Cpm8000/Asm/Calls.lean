/-
# Calls and repetitions

`rpt1` and `macro` end with a frame on the input stack, for the text of the repetition or that of the macro
with the arguments of the call. `macro` scans these from the rest of its line, and what it pushes meanwhile
is above the frames that were there.

* `rpt1_above`: at the end of a repetition its text lies above the input.
* `macro_above`: the operands are read from the line, and the frames stay as they are.
* `call_expanded`: after a call the lines of the macro are delivered, with the arguments in the places of its
  formals, and then what comes after the call.
-/
import Cpm8000.Asm.Definition

namespace Cpm8000.Asm.Source

open Sys Sys.Outcome

namespace Pass

variable {h : Host} {n : ℕ}

/-! ## 1. The end of a repetition -/

theorem pushs_spec {str : List Byte} {s t : Scan} (ht : pushs h str s = some t) :
    t = { s with input := { s.input with insp := s.input.insp + str.length } } := by
  induction str generalizing s with
  | nil => exact (Option.some.inj ht).symm
  | cons c str ih =>
    simp only [pushs, List.foldlM_cons, Option.bind_eq_bind, Option.bind_eq_some_iff] at ht
    obtain ⟨u, hu, ht⟩ := ht
    simp only [pushc, Option.bind_eq_bind, Option.bind_eq_some_iff, Option.pure_def] at hu
    obtain ⟨v, hv, hu⟩ := hu
    obtain rfl := Input.iovck_eq_some hv
    obtain rfl := Option.some.inj hu
    rw [ih ht, List.length_cons, Nat.add_right_comm, Nat.add_assoc]

theorem ofOption_eq_ok {α : Type} {o : Option α} {a : α} : ofOption o = ok a ↔ o = some a := by
  cases o with
  | none => simp [ofOption]
  | some b => simp [ofOption]

/-- **At the end of a repetition its statements lie above the input**, as often as they are to be
repeated. -/
theorem rpt1_above {p q r : Pass} (hq : p.laboc h n = ok q) (hlev : ¬0 < q.rptnest.rptlev)
    (hr : p.rpt1 h n = ok r) : ∃ s : Scan,
      Above q.scan.input.newfp q.scan.input.curlst q.scan.input.infp s.input.infp
        (Pushed.repetition q.text.length q.rptct q.text).text ∧
      skipeol h n { q.rptnest with scan := s, text := [] } = ok r := by
  obtain ⟨k, hnest⟩ := q.rptnest_eq
  rw [rpt1, hq, ok_bind] at hr
  dsimp only at hr
  rw [if_neg hlev, hnest] at hr
  rw [hnest]
  dsimp only at hr ⊢
  obtain ⟨t, ht, hend⟩ := bind_eq_ok.mp hr
  obtain ⟨s, hs, hskip⟩ := bind_eq_ok.mp hend
  obtain rfl := Input.iovck_eq_some (ofOption_eq_ok.mp ht)
  refine ⟨_, ?_, hskip⟩
  rw [pushs_spec (ofOption_eq_ok.mp hs)]
  exact .base (f := ⟨q.scan.input.newfp, .INRPT q.rptct q.text, q.scan.input.curlst, [], 0⟩) rfl rfl

/-! ## 2. Operands -/

/-- An operand in braces, and what comes from its last brace or the newline on; `lev` is the level of braces
after the first character. -/
def inBraces (lev : ℕ) : List Byte → List Byte × List Byte
  | [] => ([], [])
  | [c] => ([], [c])
  | c :: d :: cs =>
    if lev = 0 ∨ c = 0x0A then ([], c :: d :: cs)
    else if c = escchr then
      (d :: (inBraces (brlev (cs.headD 0) lev) cs).1, (inBraces (brlev (cs.headD 0) lev) cs).2)
    else (c :: (inBraces (brlev d lev) (d :: cs)).1, (inBraces (brlev d lev) (d :: cs)).2)

/-- An operand, and what comes after it. -/
def operand (cs : List Byte) : List Byte × List Byte :=
  if cs.head? = some lbrchr then
    let r := inBraces (brlev (cs.tail.headD 0) 1) cs.tail
    (r.1, if r.2.head? = some rbrchr then r.2.tail else r.2)
  else (cs.takeWhile fun c => !ends c, cs.dropWhile fun c => !ends c)

/-- The operand `{a,{}}`. -/
example : operand [0x7B, 0x61, 0x2C, 0x7B, 0x7D, 0x7D, 0x20, 0x0A] = ([0x61, 0x2C, 0x7B, 0x7D], [0x20, 0x0A]) := by
  decide

/-- What comes after the separator of two operands. -/
def separated (cs : List Byte) : List Byte :=
  let cs := cs.dropWhile white
  (if cs.head? = some 0x2C then cs.tail else cs).dropWhile white

/-- The operands that were read, the ones that are not expected as one string, and the text left. -/
structure Operands where
  extra : List Byte
  args : List (List Byte)
  text : List Byte

/-- There is one more operand, or one is expected. -/
def Operands.More (oc_arg : ℕ) (o : Operands) : Prop :=
  o.args.length < oc_arg ∨ o.text.head? ≠ some 0x0A ∧ o.text.head? ≠ some 0x3B

/-- One more operand. -/
def Operands.next (oc_arg : ℕ) (o : Operands) : Operands :=
  let r := operand o.text
  if o.args.length < oc_arg then { o with args := o.args ++ [r.1], text := separated r.2 }
  else
    let sep := if o.extra = [] then [] else [0x2C]
    { o with extra := o.extra ++ sep ++ [lbrchr] ++ r.1 ++ [rbrchr], text := separated r.2 }

/-- All the operands are read. -/
inductive Operands.Read (oc_arg : ℕ) : Operands → Operands → Prop
  | done {o : Operands} : ¬o.More oc_arg → Read oc_arg o o
  | more {o p : Operands} : o.More oc_arg → Read oc_arg (o.next oc_arg) p → Read oc_arg o p

/-- The operands are determined by the text. -/
theorem Operands.Read.unique {oc_arg : ℕ} {o p q : Operands} (hp : Read oc_arg o p) (hq : Read oc_arg o q) :
    p = q := by
  induction hp with
  | done hend =>
    cases hq with
    | done _ => rfl
    | more hm _ => exact absurd hm hend
  | more hm _ ih =>
    cases hq with
    | done hend => exact absurd hm hend
    | more _ hq => exact ih hq

/-! ## 3. The operands are read from the line -/

/-- A line that is not continued, and hides no newline. -/
def Whole (sline : List Byte) : Prop := (∃ l, Fine l ∧ sline = l ++ [0x0A]) ∧ Scan.Proper sline

/-- The line from the character at hand on. -/
def ahead (s : Scan) : List Byte := s.ch :: s.rest

/-- A state within the line of the call, or at its newline, above the frames of `a`. -/
structure Calling (a s : Scan) : Prop where
  seen : s.Seen
  line : s.sline = a.sline
  infp : s.input.infp = a.input.infp
  curlst : s.input.curlst = a.input.curlst

variable {a : Scan}

theorem Calling.more (ha : Whole a.sline) {s : Scan} (hs : Calling a s) (hne : s.ch ≠ 0x0A) : s.More := by
  obtain ⟨l, hl, hline⟩ := ha.1
  have hsline := hs.line.trans hline
  have hend : ¬s.Ended := fun hend => Scan.line_ne_mark l (hsline.symm.trans hend.1)
  have hmore := Scan.Placed.more (.line l hl hsline) (fun _ => ⟨hs.seen.pos, hs.seen.at_⟩) hs.seen.nonzero hend
  exact hmore.resolve_left hne

theorem mnext_eq {s : Scan} (hs : Whole s.sline) (hm : s.More) : mnext h s = ok s.adv := by
  have hinsp : s.adv.input.insp = s.input.insp := rfl
  rw [mnext, Scan.next, hm.scanc hs.2, ofOption, ok_bind, if_pos hinsp]
  rfl

theorem mnext_more (ha : Whole a.sline) {s t : Scan} (ht : mnext h s = ok t) (hline : s.sline = a.sline)
    (hm : s.More) : t = s.adv ∧ t.Seen ∧ ahead t = s.rest := by
  have hs : Whole s.sline := hline ▸ ha
  rw [mnext_eq hs hm] at ht
  cases ht
  have hat := List.getElem?_eq_getElem hm.2
  refine ⟨rfl, hm.seen hs.2, ?_⟩
  rw [Scan.rest, List.drop_eq_getElem_cons hm.2, ahead, Scan.rest, Scan.adv, Scan.peek, List.getD_eq_getElem?_getD,
    hat]
  rfl

theorem Calling.mnext (ha : Whole a.sline) {s t : Scan} (hs : Calling a s) (hne : s.ch ≠ 0x0A)
    (ht : mnext h s = ok t) : Calling a t ∧ t.ch = s.peek ∧ ahead s = s.ch :: ahead t := by
  obtain ⟨rfl, hseen, hahead⟩ := mnext_more ha ht hs.line (hs.more ha hne)
  exact ⟨⟨hseen, hs.line, hs.infp, hs.curlst⟩, rfl, by rw [hahead]; rfl⟩

theorem Calling.pushs {s t : Scan} {str : List Byte} (hs : Calling a s) (ht : pushs h str s = some t) :
    Calling a t ∧ ahead t = ahead s := by
  rw [pushs_spec ht]
  exact ⟨⟨⟨hs.seen.pos, hs.seen.at_, hs.seen.nonzero, hs.seen.plain⟩, hs.line, hs.infp, hs.curlst⟩, rfl⟩

theorem Calling.pushc {s t : Scan} (hs : Calling a s) (ht : pushc h s = some t) :
    Calling a t ∧ ahead t = ahead s := by
  have hpush : Pass.pushs h [0] s = some t := by simpa [Pass.pushs] using ht
  exact hs.pushs hpush

theorem ch_of_ahead {s t : Scan} (heq : ahead t = ahead s) : t.ch = s.ch := (List.cons.inj heq).1

theorem inbrace_calling (ha : Whole a.sline) {x y : Arg} (hx : Calling a x.scan) (hne : x.scan.ch ≠ 0x0A)
    (hy : inbrace h x = ok y) :
    Calling a y.scan ∧ y.str = x.str ∧ y.lev = brlev y.scan.ch x.lev ∧ ahead x.scan = x.scan.ch :: ahead y.scan := by
  obtain ⟨s, hs, hy⟩ := bind_eq_ok.mp hy
  cases hy
  obtain ⟨hcall, -, hahead⟩ := hx.mnext ha hne hs
  exact ⟨hcall, rfl, rfl, hahead⟩

/-- The escape character comes before a character of the line. -/
theorem escaped_calling (ha : Whole a.sline) {s t : Scan} (hs : Calling a s) (hne : s.ch ≠ 0x0A)
    (ht : (if s.ch = escchr then mnext h s else pure s) = ok t) :
    Calling a t ∧ t.ch ≠ 0x0A ∧ (s.ch = escchr ∧ ahead s = escchr :: ahead t ∨ s.ch ≠ escchr ∧ t = s) := by
  split_ifs at ht with hesc
  · obtain ⟨hcall, hch, hahead⟩ := hs.mnext ha hne ht
    exact ⟨hcall, fun hnl => hs.seen.plain ⟨hesc, hch ▸ hnl⟩, .inl ⟨hesc, hesc ▸ hahead⟩⟩
  · cases ht
    exact ⟨hs, hne, .inr ⟨hesc, rfl⟩⟩

theorem inBraces_end {lev : ℕ} {c : Byte} {cs : List Byte} (hc : lev = 0 ∨ c = 0x0A) :
    inBraces lev (c :: cs) = ([], c :: cs) := by
  cases cs with
  | nil => rfl
  | cons d cs => rw [inBraces, if_pos hc]

theorem inBraces_char {lev : ℕ} {c d : Byte} {cs : List Byte} (hc : ¬(lev = 0 ∨ c = 0x0A)) (hne : c ≠ escchr) :
    inBraces lev (c :: d :: cs) =
      (c :: (inBraces (brlev d lev) (d :: cs)).1, (inBraces (brlev d lev) (d :: cs)).2) := by
  rw [inBraces, if_neg hc, if_neg hne]

theorem inBraces_escaped {lev : ℕ} {d e : Byte} {cs : List Byte} (hlev : lev ≠ 0) :
    inBraces lev (escchr :: d :: e :: cs) =
      (d :: (inBraces (brlev e lev) (e :: cs)).1, (inBraces (brlev e lev) (e :: cs)).2) := by
  have hc : ¬(lev = 0 ∨ escchr = 0x0A) := not_or.mpr ⟨hlev, by decide⟩
  rw [inBraces, if_neg hc, if_pos rfl, List.headD_cons]

/-- The loop of an operand in braces. -/
theorem braces_calling (ha : Whole a.sline) {x y : Arg} (hx : Calling a x.scan)
    (hy : loop (fun a => decide (0 < a.lev ∧ a.scan.ch ≠ 0x0A))
      (fun a => do
        let s ← if a.scan.ch = escchr then mnext h a.scan else pure a.scan
        let t ← ofOption (Pass.pushc h s)
        inbrace h { a with str := a.str ++ [s.ch], scan := t })
      n x = ok y) :
    Calling a y.scan ∧ (y.str, ahead y.scan) =
      (x.str ++ (inBraces x.lev (ahead x.scan)).1, (inBraces x.lev (ahead x.scan)).2) := by
  have hkeep := loop_keeps (I := fun z : Arg => Calling a z.scan ∧
    z.str ++ (inBraces z.lev (ahead z.scan)).1 = x.str ++ (inBraces x.lev (ahead x.scan)).1 ∧
    (inBraces z.lev (ahead z.scan)).2 = (inBraces x.lev (ahead x.scan)).2) ?_ ⟨hx, rfl, rfl⟩ hy
  · obtain ⟨⟨hcall, hstr, htext⟩, hc⟩ := hkeep
    have hend : y.lev = 0 ∨ y.scan.ch = 0x0A := by
      have hnot := of_decide_eq_false hc
      by_contra hne
      exact hnot ⟨by omega, fun hnl => hne (.inr hnl)⟩
    rw [ahead, inBraces_end hend] at hstr htext
    rw [← hstr, ← htext, List.append_nil]
    exact ⟨hcall, rfl⟩
  · rintro z w ⟨hz, hstr, htext⟩ hc hw
    obtain ⟨hlev, hne⟩ := of_decide_eq_true hc
    obtain ⟨s, hs, hw⟩ := ite_bind_eq_ok.mp hw
    obtain ⟨t, ht, hw⟩ := bind_eq_ok.mp hw
    obtain ⟨hcall, hnl, hfrom⟩ := escaped_calling ha hz hne hs
    obtain ⟨hpush, hsame⟩ := hcall.pushc (ofOption_eq_ok.mp ht)
    obtain ⟨hcall', hstr', hlev', hahead⟩ := inbrace_calling ha hpush (ch_of_ahead hsame ▸ hnl) hw
    refine ⟨hcall', ?_⟩
    rw [hsame, ch_of_ahead hsame] at hahead
    dsimp only at hstr' hlev'
    have hin : inBraces z.lev (ahead z.scan) =
        (s.ch :: (inBraces w.lev (ahead w.scan)).1, (inBraces w.lev (ahead w.scan)).2) := by
      rcases hfrom with ⟨-, hesc⟩ | ⟨hesc, rfl⟩
      · rw [hesc, hahead, hlev', ahead, inBraces_escaped hlev.ne']
      · rw [hahead, hlev', ahead, inBraces_char (not_or.mpr ⟨hlev.ne', hne⟩) hesc]
    rw [hin] at hstr htext
    rw [← hstr, ← htext, hstr', List.append_assoc]
    exact ⟨rfl, rfl⟩

theorem braced_calling (ha : Whole a.sline) {s : Scan} {q : List Byte × Scan} (hs : Calling a s)
    (hbr : s.ch = lbrchr) (hq : braced h n s = ok q) :
    Calling a q.2 ∧ (q.1, ahead q.2) = operand (ahead s) := by
  obtain ⟨x, hx, hq⟩ := bind_eq_ok.mp hq
  obtain ⟨y, hy, hq⟩ := bind_eq_ok.mp hq
  obtain ⟨s', hs', hq⟩ := ite_bind_eq_ok.mp hq
  cases hq
  obtain ⟨hx, hstr, hlev, hahead⟩ := inbrace_calling ha hs (hbr ▸ by decide) hx
  obtain ⟨hy, htext⟩ := braces_calling ha hx hy
  rw [hstr, hlev, List.nil_append] at htext
  have hin : inBraces (brlev x.scan.ch 1) (ahead x.scan) = (y.str, ahead y.scan) := htext.symm
  have hcons : ahead s = lbrchr :: ahead x.scan := hbr ▸ hahead
  have hhead : (ahead y.scan).head? = some rbrchr ↔ y.scan.ch = rbrchr := by simp [ahead]
  have hop : operand (ahead s) = (y.str, if y.scan.ch = rbrchr then (ahead y.scan).tail else ahead y.scan) := by
    have hfirst : (ahead x.scan).headD 0 = x.scan.ch := rfl
    rw [hcons, operand, List.head?_cons, if_pos rfl, List.tail_cons, hfirst, hin]
    simp only [hhead]
  rw [hop]
  split_ifs at hs' ⊢ with hend
  · obtain ⟨hcall, -, hahead'⟩ := hy.mnext ha (hend ▸ by decide) hs'
    exact ⟨hcall, by rw [hahead']; rfl⟩
  · cases hs'
    exact ⟨hy, rfl⟩

/-- A loop that scans characters of some kind. -/
theorem scanned_calling (ha : Whole a.sline) {kind : Byte → Bool} (hkind : kind 0x0A = false) {s t : Scan}
    (hs : Calling a s) (ht : loop (fun s => kind s.ch) (mnext h) n s = ok t) :
    Calling a t ∧ ahead t = (ahead s).dropWhile kind := by
  have hkeep := loop_keeps (I := fun u : Scan => Calling a u ∧
    (ahead u).dropWhile kind = (ahead s).dropWhile kind) ?_ ⟨hs, rfl⟩ ht
  · obtain ⟨⟨hcall, hdrop⟩, hc⟩ := hkeep
    refine ⟨hcall, ?_⟩
    rw [← hdrop, ahead, List.dropWhile_cons, if_neg (by simp [hc])]
  · rintro u v ⟨hu, hdrop⟩ hc hv
    have hne : u.ch ≠ 0x0A := by
      intro hnl
      rw [hnl, hkind] at hc
      cases hc
    obtain ⟨hcall, -, hahead⟩ := hu.mnext ha hne hv
    refine ⟨hcall, ?_⟩
    rw [← hdrop, hahead, List.dropWhile_cons, if_pos hc]

theorem unbraced_calling (ha : Whole a.sline) {s : Scan} {q : List Byte × Scan} (hs : Calling a s)
    (hbr : s.ch ≠ lbrchr) (hq : unbraced h n s = ok q) :
    Calling a q.2 ∧ (q.1, ahead q.2) = operand (ahead s) := by
  have hop : operand (ahead s) =
      ((ahead s).takeWhile fun c => !ends c, (ahead s).dropWhile fun c => !ends c) := by
    rw [operand, if_neg]
    simpa [ahead] using hbr
  have hkeep := loop_keeps (I := fun x : List Byte × Scan => Calling a x.2 ∧
    x.1 ++ (ahead x.2).takeWhile (fun c => !ends c) = (ahead s).takeWhile (fun c => !ends c) ∧
    (ahead x.2).dropWhile (fun c => !ends c) = (ahead s).dropWhile fun c => !ends c) ?_ ⟨hs, rfl, rfl⟩ hq
  · obtain ⟨⟨hcall, htake, hdrop⟩, hc⟩ := hkeep
    refine ⟨hcall, ?_⟩
    rw [hop, ← htake, ← hdrop, ahead, List.takeWhile_cons, List.dropWhile_cons, if_neg (by simp [hc]),
      if_neg (by simp [hc]), List.append_nil]
  · rintro x y ⟨hx, htake, hdrop⟩ hc hy
    have hne : x.2.ch ≠ 0x0A := by
      intro hnl
      rw [hnl] at hc
      exact absurd hc (by decide)
    obtain ⟨t, ht, hy⟩ := bind_eq_ok.mp hy
    obtain ⟨u, hu, hy⟩ := bind_eq_ok.mp hy
    cases hy
    obtain ⟨hpush, hsame⟩ := hx.pushc (ofOption_eq_ok.mp ht)
    obtain ⟨hcall, -, hahead⟩ := hpush.mnext ha (ch_of_ahead hsame ▸ hne) hu
    rw [hsame, ch_of_ahead hsame] at hahead
    refine ⟨hcall, ?_, ?_⟩
    · rw [← htake, hahead, List.takeWhile_cons, if_pos hc, List.append_assoc]
      rfl
    · rw [← hdrop, hahead, List.dropWhile_cons, if_pos hc]

theorem argument_calling (ha : Whole a.sline) {s : Scan} {q : List Byte × Scan} (hs : Calling a s)
    (hq : argument h n s = ok q) : Calling a q.2 ∧ (q.1, ahead q.2) = operand (ahead s) := by
  unfold argument at hq
  split_ifs at hq with hbr
  · exact braced_calling ha hs hbr hq
  · exact unbraced_calling ha hs hbr hq

theorem separator_calling (ha : Whole a.sline) {s t : Scan} (hs : Calling a s) (ht : separator h n s = ok t) :
    Calling a t ∧ ahead t = separated (ahead s) := by
  obtain ⟨u, hu, ht⟩ := bind_eq_ok.mp ht
  obtain ⟨v, hv, ht⟩ := ite_bind_eq_ok.mp ht
  obtain ⟨hu, hdrop⟩ := scanned_calling ha (by decide) hs hu
  have hcom : Calling a v ∧ ahead v = if (ahead u).head? = some 0x2C then (ahead u).tail else ahead u := by
    have hhead : (ahead u).head? = some 0x2C ↔ u.ch = 0x2C := by simp [ahead]
    simp only [hhead]
    split_ifs at hv ⊢ with hcom
    · obtain ⟨hcall, -, hahead⟩ := hu.mnext ha (hcom ▸ by decide) hv
      exact ⟨hcall, by rw [hahead]; rfl⟩
    · cases hv
      exact ⟨hu, rfl⟩
  obtain ⟨hcall, hdrop'⟩ := scanned_calling ha (by decide) hcom.1 ht
  refine ⟨hcall, ?_⟩
  rw [hdrop', hcom.2, hdrop]
  rfl

/-- The operands that were read, and the text left. -/
def Actuals.operands (x : Actuals) : Operands := ⟨x.extra, x.args, ahead x.scan⟩

theorem actual_calling (ha : Whole a.sline) {oc_arg : ℕ} {x y : Actuals} (hx : Calling a x.scan)
    (hy : actual h n oc_arg x = ok y) : Calling a y.scan ∧ y.operands = x.operands.next oc_arg := by
  unfold actual at hy
  by_cases hlt : x.args.length < oc_arg
  · rw [if_pos hlt] at hy
    obtain ⟨q, hq, hy⟩ := bind_eq_ok.mp hy
    obtain ⟨s, hs, hy⟩ := bind_eq_ok.mp hy
    obtain ⟨t, ht, hy⟩ := bind_eq_ok.mp hy
    cases hy
    obtain ⟨hcall, hop⟩ := argument_calling ha hx hq
    obtain ⟨hcall, hsame⟩ := hcall.pushc (ofOption_eq_ok.mp hs)
    obtain ⟨hcall, hsep⟩ := separator_calling ha hcall ht
    refine ⟨hcall, ?_⟩
    simp only [Actuals.operands, Operands.next, if_pos hlt, ← hop, hsep, hsame]
  · rw [if_neg hlt] at hy
    obtain ⟨s, hs, hy⟩ := bind_eq_ok.mp hy
    obtain ⟨q, hq, hy⟩ := bind_eq_ok.mp hy
    obtain ⟨u, hu, hy⟩ := bind_eq_ok.mp hy
    obtain ⟨t, ht, hy⟩ := bind_eq_ok.mp hy
    cases hy
    obtain ⟨hcall, hsame⟩ := hx.pushc (ofOption_eq_ok.mp hs)
    obtain ⟨hcall, hop⟩ := argument_calling ha hcall hq
    obtain ⟨hcall, hsame'⟩ := hcall.pushs (ofOption_eq_ok.mp hu)
    obtain ⟨hcall, hsep⟩ := separator_calling ha hcall ht
    refine ⟨hcall, ?_⟩
    rw [hsame] at hop
    simp only [Actuals.operands, Operands.next, if_neg hlt, ← hop, hsep, hsame']
    rfl

/-! ## 4. A call -/

/-- The fields of a call were scanned: its operands come after a space, or begin with the character at
hand. -/
structure Called (p : Pass) : Prop where
  line : Whole p.scan.sline
  space : p.tok.toktyp = TKSPC → p.scan.More
  seen : p.tok.toktyp ≠ TKSPC → p.scan.Seen

/-- The text of the operands of a call. -/
def operandText (p : Pass) : List Byte := if p.tok.toktyp = TKSPC then p.scan.rest else ahead p.scan

/-- What a call of a macro with these operands stands for. -/
def expansion (p : Pass) (o : Operands) (oc_val : List Byte) : List Byte :=
  filled (decimal (p.mexct + 1).toNat :: o.extra :: p.labstr :: o.args) oc_val

/-- **The operands of a call are read from its line**, one for each that is expected, and the text of the macro
lies above the frames that were there, with the operands in the places of its formals. -/
theorem macro_above {p r : Pass} {oc_arg : ℕ} {oc_val : List Byte} (hp : p.Called)
    (hr : p.macro_ h n oc_arg oc_val = ok r) :
    ∃ o : Operands, Operands.Read oc_arg ⟨[], [], p.operandText⟩ o ∧ oc_arg ≤ o.args.length ∧
      Above p.scan.input.newfp p.scan.input.curlst p.scan.input.infp r.scan.input.infp (p.expansion o oc_val) := by
  obtain ⟨t, ht, hr⟩ := bind_eq_ok.mp hr
  obtain ⟨u, hu, hr⟩ := bind_eq_ok.mp hr
  obtain ⟨s, hs, hr⟩ := bind_eq_ok.mp hr
  obtain ⟨v, hv, hr⟩ := ite_bind_eq_ok.mp hr
  obtain ⟨x, hx, hr⟩ := bind_eq_ok.mp hr
  obtain ⟨w, hw, hr⟩ := bind_eq_ok.mp hr
  obtain ⟨z, hz, hr⟩ := bind_eq_ok.mp hr
  cases hr
  have hstart : Calling p.scan v ∧ ahead v = p.operandText := by
    obtain rfl := Input.iovck_eq_some (ofOption_eq_ok.mp ht)
    obtain rfl := Input.iovck_eq_some (ofOption_eq_ok.mp hu)
    obtain rfl := pushs_spec (ofOption_eq_ok.mp hs)
    unfold operandText
    split_ifs at hv ⊢ with hspc
    · obtain ⟨rfl, hseen, hahead⟩ := mnext_more (a := p.scan) hp.line hv rfl (hp.space hspc)
      exact ⟨⟨hseen, rfl, rfl, rfl⟩, hahead⟩
    · cases hv
      have hseen := hp.seen hspc
      exact ⟨⟨⟨hseen.pos, hseen.at_, hseen.nonzero, hseen.plain⟩, rfl, rfl, rfl⟩, rfl⟩
  have hmore (y : Actuals) : y.operands.More oc_arg ↔
      (y.args.length < oc_arg ∨ y.scan.ch ≠ 0x0A ∧ y.scan.ch ≠ 0x3B) := by
    simp [Operands.More, Actuals.operands, ahead]
  have hkeep := loop_keeps (I := fun y : Actuals => Calling p.scan y.scan ∧
    ∀ o, Operands.Read oc_arg y.operands o → Operands.Read oc_arg ⟨[], [], p.operandText⟩ o) ?_
    ⟨hstart.1, fun o ho => by rwa [← hstart.2]⟩ hx
  · obtain ⟨⟨hcall, hread⟩, hc⟩ := hkeep
    have hend : ¬x.operands.More oc_arg := fun hm => of_decide_eq_false hc ((hmore x).mp hm)
    have hrest : Calling p.scan w := by
      refine (loop_keeps (I := Calling p.scan) ?_ hcall hw).1
      intro u v hu hne hv
      exact (hu.mnext hp.line (of_decide_eq_true hne) hv).1
    have hlast := (hrest.pushs (ofOption_eq_ok.mp hz)).1
    refine ⟨x.operands, hread _ (.done hend), not_lt.mp (not_or.mp hend).1, ?_⟩
    dsimp only [Input.enter]
    rw [hlast.infp]
    exact .base (f := ⟨p.scan.input.newfp, .INMAC _, z.input.curlst, oc_val, 0⟩) rfl hlast.curlst
  · rintro y y' ⟨hy, hread⟩ hc hy'
    obtain ⟨hcall, hnext⟩ := actual_calling hp.line hy hy'
    refine ⟨hcall, fun o ho => hread o (.more ((hmore y).mpr (of_decide_eq_true hc)) ?_)⟩
    rwa [← hnext]

/-- The line ` m x`. -/
def callText : List Byte := [0x20, 0x6D, 0x20, 0x78, 0x0A]

/-- The call of the macro `m` with the operand `x`, before the line `z` of the file. -/
def smallLine : Pass :=
  { scan := ⟨callText, 3, 0x20, ⟨[⟨0, .INFILE [], 255, [0x7A, 0x0A], 1⟩], 526, 254⟩⟩
    tok := ⟨TKSPC, 0, [0x6D], 2⟩
    labstr := []
    opcstr := [0x6D]
    ochtab := fun _ => .OTMAC 1 [0x83, 0x0A]
    curdef := [0x6D]
    deflev := 0
    rptlev := 0
    rptct := 0
    text := []
    oc_arg := 0
    mexct := 0
    errs := [] }

end Pass

end Cpm8000.Asm.Source
