/-
# Definitions

While a macro or a repetition is being defined, `def1` or `rpt1` takes one statement after the other. Its
label and opcode fields tell whether a nested definition begins or one ends, and then the line is copied from
its beginning, a formal of a macro as a code of its own.

* `filled_stored`: the text of a macro with its arguments is what was copied, with the arguments in the
  places of the formals.
* `repetition_copied`, `definition_expanded`: a line of a repetition is copied as it is, and one of a
  definition comes back in every expansion.
* `def1_returns_iff`, `rpt1_returns_iff`: a statement is taken unless the input is at its end.
-/
import Cpm8000.Asm.Delivery
import Cpm8000.Asm.Expand

namespace Cpm8000.Asm.Source

open Sys Sys.Outcome

/-! ## 1. What is copied -/

/-- A part of a definition: a character, or what is put in at a call. -/
inductive Piece
  | char (c : Byte)
  | count
  | extra
  | formal (argno : ℕ)
  | bad

namespace Piece

/-- What stands for it in the text of a macro. -/
def stored : Piece → List Byte
  | char c => [c]
  | count => [0x80]
  | extra => [0x81]
  | formal argno => [BitVec.ofNat 8 argno + 0x82]
  | bad => []

def argno : Piece → ℕ
  | formal argno => argno
  | _ => 0

def errs : Piece → List Char
  | bad => ['A']
  | _ => []

/-- What stands for it in the expansion of a call. -/
def expanded (args : List (List Byte)) : Piece → List Byte
  | char c => [c]
  | count => chars (args.getD 0 [])
  | extra => chars (args.getD 1 [])
  | formal argno => chars (args.getD (argno + 2) [])
  | bad => []

/-- What the character after a `?` stands for. -/
def named (c : Byte) : Piece :=
  if c = mctchr then count else if c = argchr then extra
  else if digit c then formal (Scan.digitval c) else bad

end Piece

open Piece

/-- The parts of a line of a definition. -/
def pieces : List Byte → List Piece
  | [] => []
  | [c] => [char c]
  | c :: d :: cs =>
    if c = escchr then char d :: pieces cs
    else if c = argchr then named d :: pieces cs
    else char c :: pieces (d :: cs)

theorem filled_append (args : List (List Byte)) (l m : List Byte) :
    filled args (l ++ m) = filled args l ++ filled args m := List.flatMap_append

theorem filled_char (args : List (List Byte)) {c : Byte} (hc : c < 0x80) :
    filled args (char c).stored = (char c).expanded args := by
  have hand : ∀ c : Byte, c < 0x80 → ¬0x80 ≤ c ∧ c &&& 0x7f = c := by decide
  obtain ⟨hnot, heq⟩ := hand c hc
  rw [stored, filled_cons, if_neg hnot, heq]
  rfl

theorem filled_named (args : List (List Byte)) (c : Byte) :
    filled args (named c).stored = (named c).expanded args := by
  have hformal : ∀ c : Byte, digit c = true → 0x80 ≤ BitVec.ofNat 8 (Scan.digitval c) + 0x82 ∧
      ((BitVec.ofNat 8 (Scan.digitval c) + 0x82) &&& 0x7f).toNat = Scan.digitval c + 2 := by decide
  unfold named
  split_ifs with hcount hextra hdigit
  · exact List.append_nil _
  · exact List.append_nil _
  · obtain ⟨hle, heq⟩ := hformal c hdigit
    rw [stored, filled_cons, if_pos hle, heq]
    exact List.append_nil _
  · rfl

/-- **The arguments come where the formals were**, in the order of the line. -/
theorem filled_stored (args : List (List Byte)) (cs : List Byte) (hcs : ∀ c ∈ cs, c < 0x80) :
    filled args ((pieces cs).flatMap stored) = (pieces cs).flatMap (expanded args) := by
  induction cs using pieces.induct with
  | case1 => rfl
  | case2 c =>
    rw [pieces, List.flatMap_singleton, List.flatMap_singleton]
    exact filled_char args (hcs c (by simp))
  | case3 d cs ih =>
    rw [pieces, if_pos rfl, List.flatMap_cons, filled_append, ih fun c hc => hcs c (by simp [hc]),
      filled_char args (hcs d (by simp))]
    rfl
  | case4 d cs hesc ih =>
    rw [pieces, if_neg hesc, if_pos rfl, List.flatMap_cons, filled_append, ih fun c hc => hcs c (by simp [hc]),
      filled_named]
    rfl
  | case5 c d cs hesc harg ih =>
    rw [pieces, if_neg hesc, if_neg harg, List.flatMap_cons, filled_append,
      ih fun e he => hcs e (List.mem_cons_of_mem _ he), filled_char args (hcs c (by simp))]
    rfl

/-! ## 2. A line is copied -/

namespace Scan

/-- What is left of the line. -/
def rest (s : Scan) : List Byte := s.sline.drop s.scanpt

/-- The end of the line, where its newline was scanned. -/
def toEnd (s : Scan) : Scan := ⟨s.sline, s.sline.length, 0x0A, s.input⟩

/-- A state within a line that is not continued, or at its end. -/
structure Along (s : Scan) : Prop where
  line : ∃ l, Fine l ∧ s.sline = l ++ [0x0A]
  proper : Proper s.sline
  le : s.scanpt ≤ s.sline.length

variable {h : Host} {s : Scan} {c : Byte} {cs : List Byte}

theorem lt_of_rest (hrest : s.rest = c :: cs) : s.scanpt < s.sline.length := by
  by_contra hge
  rw [rest, List.drop_eq_nil_of_le (not_lt.mp hge)] at hrest
  cases hrest

/-- The next character of the line is scanned. -/
theorem Along.next (hs : s.Along) (hrest : s.rest = c :: cs) :
    s.next h = ok s.adv ∧ s.adv.ch = c ∧ s.adv.rest = cs ∧ s.adv.Along ∧ (c = 0x0A ↔ cs = []) := by
  have hlt := lt_of_rest hrest
  have hmore : s.More := ⟨hs.line, hlt⟩
  rw [rest, List.drop_eq_getElem_cons hlt] at hrest
  obtain ⟨hc, hcs⟩ := List.cons.inj hrest
  refine ⟨by rw [Scan.next, hmore.scanc hs.proper]; rfl, ?_, hcs, ⟨hs.line, hs.proper, hlt⟩, ?_⟩
  · rw [Scan.adv, Scan.peek, List.getD_eq_getElem?_getD, List.getElem?_eq_getElem hlt, ← hc]
    rfl
  · obtain ⟨l, hl, hline⟩ := hs.line
    have hlen : s.sline.length = l.length + 1 := by rw [hline, List.length_append, List.length_singleton]
    have hcs' : cs = [] ↔ s.sline.length ≤ s.scanpt + 1 := by rw [← hcs, List.drop_eq_nil_iff]
    rw [hcs', ← hc]
    constructor
    · intro hnl
      by_contra hgt
      have hget : s.sline[s.scanpt]? = some 0x0A := hnl ▸ List.getElem?_eq_getElem hlt
      rw [hline, List.getElem?_append_left (by omega)] at hget
      exact hl.newline (List.mem_of_getElem? hget)
    · intro hle
      have hpt : s.scanpt = l.length := by omega
      have hget : s.sline[s.scanpt]? = some 0x0A := by rw [hline, hpt, List.getElem?_concat_length]
      exact Option.some.inj ((List.getElem?_eq_getElem hlt).symm.trans hget)

theorem Along.eq_toEnd (hs : s.Along) (hrest : s.rest = []) (hnl : s.ch = 0x0A) : s = s.toEnd := by
  have hle := hs.le
  have hge := List.drop_eq_nil_iff.mp hrest
  obtain ⟨sline, scanpt, ch, input⟩ := s
  dsimp only at hle hge hnl
  rw [toEnd, hnl, le_antisymm hle hge]

/-- What is left of the line gets shorter, and the newline is its end. -/
structure Further (s t : Scan) : Prop where
  along : t.Along
  line : t.sline = s.sline
  input : t.input = s.input
  shorter : t.rest.length < s.rest.length
  newline : t.ch = 0x0A ↔ t.rest = []

theorem Along.further (hs : s.Along) (hrest : s.rest = c :: cs) : s.Further s.adv := by
  obtain ⟨-, hch, hcs, halong, hnl⟩ := hs.next (h := ⟨0, 0, 0, rfl⟩) hrest
  refine ⟨halong, rfl, rfl, ?_, by rw [hch, hcs, hnl]⟩
  rw [hcs, hrest]
  exact Nat.lt_succ_self _

theorem Along.seen_toEnd (hs : s.Along) : s.toEnd.Seen := by
  obtain ⟨l, -, hline⟩ := hs.line
  have hlen : s.sline.length = l.length + 1 := by rw [hline, List.length_append, List.length_singleton]
  refine ⟨by rw [toEnd, hlen]; exact Nat.succ_pos _, ?_, by simp [toEnd], fun hc => absurd hc.1 ?_⟩
  · rw [toEnd, hlen, hline, Nat.add_sub_cancel, List.getElem?_concat_length]
  · simp [toEnd, escchr]

theorem Further.trans {t u : Scan} (h : s.Further t) (h' : t.Further u) : s.Further u :=
  ⟨h'.along, h'.line.trans h.line, h'.input.trans h.input, h'.shorter.trans h.shorter, h'.newline⟩

theorem Further.toEnd {t : Scan} (h : s.Further t) : t.toEnd = s.toEnd := by
  rw [Scan.toEnd, Scan.toEnd, h.line, h.input]

end Scan

namespace Pass

variable {h : Host} {n : ℕ}

/-- A step of copying takes a part of the line; `copy` is what comes of all the parts. -/
def Takes (char : Copy × Scan → Outcome (Copy × Scan)) (copy : Copy → List Byte → Copy) : Prop :=
  (∀ d, copy d [] = d) ∧ ∀ (d : Copy) (s : Scan), s.Along → s.rest ≠ [] →
    ∃ e t, char (d, s) = ok (e, t) ∧ copy d s.rest = copy e t.rest ∧ s.Further t

/-- What is copied into the definition of a repetition: every character. -/
def rptcopy (d : Copy) (cs : List Byte) : Copy := { d with text := d.text ++ cs }

/-- What is copied into the definition of a macro. -/
def defcopy (d : Copy) (cs : List Byte) : Copy :=
  { text := d.text ++ (pieces cs).flatMap stored
    oc_arg := (pieces cs).foldl (fun k p => max k p.argno) d.oc_arg
    errs := d.errs ++ (pieces cs).flatMap Piece.errs }

theorem takes_rptchar : Takes (rptchar h) rptcopy := by
  refine ⟨fun d => by rw [rptcopy, List.append_nil], fun d s hs hrest => ?_⟩
  obtain ⟨c, cs, hrest⟩ := List.exists_cons_of_ne_nil hrest
  obtain ⟨hnext, hch, hcs, -, -⟩ := hs.next (h := h) hrest
  refine ⟨_, s.adv, by rw [rptchar, hnext]; rfl, ?_, hs.further hrest⟩
  rw [hrest, hcs, hch]
  simp [rptcopy]

/-- A piece more. -/
def Copy.add (d : Copy) (p : Piece) : Copy :=
  { text := d.text ++ p.stored, oc_arg := max d.oc_arg p.argno, errs := d.errs ++ p.errs }

theorem defcopy_add (d : Copy) {cs ds : List Byte} {p : Piece} (hp : pieces cs = p :: pieces ds) :
    defcopy d cs = defcopy (d.add p) ds := by
  unfold defcopy Copy.add
  simp only [hp, List.flatMap_cons, List.foldl_cons, List.append_assoc]

theorem takes_defchar : Takes (defchar h) defcopy := by
  refine ⟨fun d => by simp [defcopy, pieces], fun d s hs hrest => ?_⟩
  obtain ⟨c, cs, hrest⟩ := List.exists_cons_of_ne_nil hrest
  obtain ⟨hnext, hch, hcs, halong, hnl⟩ := hs.next (h := h) hrest
  have hfurther := hs.further hrest
  suffices hstep : ∃ p t, defchar h (d, s) = ok (d.add p, t) ∧ pieces s.rest = p :: pieces t.rest ∧ s.Further t by
    obtain ⟨p, t, heq, hp, ht⟩ := hstep
    exact ⟨d.add p, t, heq, defcopy_add d hp, ht⟩
  unfold defchar
  simp only [hnext, ok_bind, hch]
  by_cases hesc : c = escchr ∨ c = argchr
  · -- the next character is taken too
    have hne : cs ≠ [] := by
      intro hnil
      rw [hnl.mpr hnil] at hesc
      exact absurd hesc (by decide)
    obtain ⟨e, es, hcs'⟩ := List.exists_cons_of_ne_nil hne
    obtain ⟨hnext', hch', hes, -, -⟩ := halong.next (h := h) (hcs.trans hcs')
    have hfurther' := hfurther.trans (halong.further (hcs.trans hcs'))
    rw [hrest, hcs']
    by_cases hc : c = escchr
    · refine ⟨.char e, s.adv.adv, ?_, ?_, hfurther'⟩
      · simp [hc, hnext', hch', Copy.add, stored, argno, Piece.errs]
      · rw [pieces, if_pos hc, hes]
    · have harg := hesc.resolve_left hc
      refine ⟨named e, s.adv.adv, ?_, ?_, hfurther'⟩
      · rw [if_neg hc, if_pos harg, hnext', ok_bind, hch']
        unfold named
        split_ifs <;> simp [Copy.add, stored, argno, Piece.errs]
      · rw [pieces, if_neg hc, if_pos harg, hes]
  · obtain ⟨hc, harg⟩ := not_or.mp hesc
    refine ⟨.char c, s.adv, ?_, ?_, hfurther⟩
    · simp [hc, harg, Copy.add, stored, argno, Piece.errs]
    · rw [hrest, hcs]
      cases cs with
      | nil => rfl
      | cons e es => rw [pieces, if_neg hc, if_neg harg]

/-- The loop of copying takes what is left of the line. -/
theorem Takes.loop {char : Copy × Scan → Outcome (Copy × Scan)} {copy : Copy → List Byte → Copy}
    (hchar : Takes char copy) {s : Scan} (hs : s.Along) (hnl : s.ch = 0x0A ↔ s.rest = []) (d : Copy)
    (hn : s.rest.length < n) :
    loop (fun d : Copy × Scan => decide (d.2.ch ≠ 0x0A)) char n (d, s) = ok (copy d s.rest, s.toEnd) := by
  induction n generalizing s d with
  | zero => exact absurd hn (Nat.not_lt_zero _)
  | succ n ih =>
    rw [Sys.loop]
    split_ifs with hc
    · have hrest : s.rest ≠ [] := fun hrest => of_decide_eq_true hc (hnl.mpr hrest)
      obtain ⟨e, t, heq, hcopy, ht⟩ := hchar.2 d s hs hrest
      rw [heq, ok_bind, ih ht.along ht.newline e (by have := ht.shorter; omega), hcopy, ht.toEnd]
    · have hch : s.ch = 0x0A := by simpa using hc
      rw [hnl.mp hch, hchar.1, ← hs.eq_toEnd (hnl.mp hch) hch]

/-- **A line is copied**, and its newline scanned as a token. -/
theorem copyline_line {char : Copy × Scan → Outcome (Copy × Scan)} {copy : Copy → List Byte → Copy}
    (hchar : Takes char copy) {p : Pass} (hs : (rescan p.scan).Along) (hn : SLINSIZ + 1 < n) {e : Copy}
    (he : copy ⟨p.text, p.oc_arg, p.errs⟩ p.scan.sline = e) :
    p.copyline h n char = ok { p with
      text := e.text, oc_arg := e.oc_arg, errs := e.errs, scan := p.scan.toEnd
      tok := { p.tok with tokval := 0, toktyp := TKEOL } } := by
  obtain ⟨l, hl, hline⟩ := hs.line
  have hlen : (rescan p.scan).rest.length ≤ SLINSIZ + 1 := by
    have hfine := hl.length
    rw [Scan.rest, hline, rescan, List.drop_zero, List.length_append, List.length_singleton]
    omega
  have hne : (rescan p.scan).rest ≠ [] := by
    rw [Scan.rest, hline, rescan, List.drop_zero]
    simp
  obtain ⟨d, s, heq, hcopy, hfurther⟩ := hchar.2 ⟨p.text, p.oc_arg, p.errs⟩ _ hs hne
  have hend : s.toEnd = p.scan.toEnd := hfurther.toEnd
  have hseen : p.scan.toEnd.Seen := hs.seen_toEnd
  have hloop := hchar.loop (n := n) hfurther.along hfurther.newline d (by have := hfurther.shorter; omega)
  have he' : copy d s.rest = e := hcopy.symm.trans he
  unfold copyline token
  simp only [heq, ok_bind, hloop, he', hend]
  rw [Scan.token_newline hseen rfl]
  rfl

/-- **A line of a repetition is copied as it is.** -/
theorem repetition_copied {p : Pass} (hs : (rescan p.scan).Along) (hn : SLINSIZ + 1 < n) :
    ∃ q, p.copyline h n (rptchar h) = ok q ∧ q.scan = p.scan.toEnd ∧ q.text = p.text ++ p.scan.sline :=
  ⟨_, copyline_line takes_rptchar hs hn rfl, rfl, rfl⟩

/-- The definition of the macro `m` is at its line `ld ?1,?`, with a second `?` for the arguments that are not
expected. -/
def loadLine : Pass :=
  { scan := ⟨[0x6C, 0x64, 0x20, 0x3F, 0x31, 0x2C, 0x3F, 0x3F, 0x0A], 2, 0x64, .start 255⟩
    tok := ⟨TKSYM, 0, [0x6C, 0x64], 2⟩
    labstr := []
    opcstr := [0x6C, 0x64]
    ochtab := fun _ => .OTUND
    curdef := [0x6D]
    deflev := 1
    rptlev := 0
    rptct := 0
    text := []
    oc_arg := 0
    mexct := 0
    errs := [] }

end Pass

/-! ## 3. A statement of a definition -/

namespace Pass

variable {h : Host} {n : ℕ} {a s₀ : Scan}

/-- The rest of the statement is scanned: the line or the input is at its end. -/
structure Over (h : Host) (p : Pass) : Prop where
  good : p.scan.Good h
  what : p.tok.toktyp = TKEOL ∧ p.scan.ch = 0x0A ∧ ¬p.scan.Ended ∨ p.tok.toktyp = TKEOF ∧ p.scan.Ended

/-- At the end of the input a step of copying takes the mark. -/
def Spins (char : Copy × Scan → Outcome (Copy × Scan)) : Prop :=
  ∀ (d : Copy) (s : Scan), s.Ended → ∃ e t, char (d, s) = ok (e, t) ∧ t.Ended ∧ t.ch = EOFCHR

theorem spins_rptchar : Spins (rptchar h) := by
  intro d s hs
  obtain ⟨t, ht, hend, hch⟩ := hs.scanc h
  exact ⟨_, t, by rw [rptchar, Scan.next, ht]; rfl, hend, hch⟩

theorem spins_defchar : Spins (defchar h) := by
  intro d s hs
  obtain ⟨t, ht, hend, hch⟩ := hs.scanc h
  have hesc : EOFCHR ≠ escchr := by decide
  have harg : EOFCHR ≠ argchr := by decide
  refine ⟨{ d with text := d.text ++ [EOFCHR] }, t, ?_, hend, hch⟩
  simp [defchar, Scan.next, ht, ofOption, hch, hesc, harg]

/-- **At the end of the input a line is copied for ever**: it has no newline. -/
theorem copyline_still {char : Copy × Scan → Outcome (Copy × Scan)} (hchar : Spins char) {p : Pass}
    (hs : p.scan.Ended) : p.copyline h n char = still := by
  obtain ⟨d, s, heq, hend, hch⟩ := hchar ⟨p.text, p.oc_arg, p.errs⟩ (rescan p.scan) hs
  have hbody : ∀ e : Copy × Scan, (e.2.Ended ∧ e.2.ch = EOFCHR) → decide (e.2.ch ≠ 0x0A) = true ∧
      ∃ f, char e = ok f ∧ f.2.Ended ∧ f.2.ch = EOFCHR := by
    rintro ⟨e, t⟩ ⟨ht, htch⟩
    obtain ⟨f, u, hf, hu, huch⟩ := hchar e t ht
    refine ⟨decide_eq_true ?_, (f, u), hf, hu, huch⟩
    dsimp only at htch
    rw [htch]
    decide
  unfold copyline
  rw [heq, ok_bind, loop_still (I := fun e => e.2.Ended ∧ e.2.ch = EOFCHR) hbody n ⟨hend, hch⟩]
  rfl

/-- After a token that is not the mark there is a line. -/
theorem After.line {p : Pass} (hp : p.After h a s₀) (hend : ¬p.scan.Ended) :
    p.scan.left < s₀.left ∧ p.scan.sline ≠ [] := by
  rcases hp.what with ⟨-, hend', -⟩ | ⟨hlt, -, ⟨-, -, hseen⟩ | ⟨-, -, ⟨l, -, hline⟩, -⟩⟩
  · exact absurd hend' hend
  · refine ⟨hlt, fun hnil => ?_⟩
    have hat := hseen.at_
    rw [hnil] at hat
    cases hat
  · refine ⟨hlt, ?_⟩
    rw [hline]
    simp

theorem skipeol_over {p : Pass} (hp : p.After h a s₀) (hn : s₀.left + 1 < n) :
    (p.skipeol h n).Ends fun q => q.Over h := by
  refine (skipeol_spec hp hn).mono fun q hq => ⟨hq.1.clean.good, ?_⟩
  rcases hq.1.what with ⟨heof, hend, -⟩ | ⟨-, hend, ⟨heol, hnl, -⟩ | ⟨hne, hne', -⟩⟩
  · exact .inr ⟨heof, hend⟩
  · exact .inl ⟨heol, hnl, hend⟩
  · exact absurd hq.2 (not_or.mpr ⟨hne, hne'⟩)

/-- A statement is copied that begins before the end of the input. -/
theorem copied_over {char : Copy × Scan → Outcome (Copy × Scan)} (hchar : Copies h char) {p : Pass}
    (hp : p.After h a s₀) (hend : ¬p.scan.Ended) (hn : s₀.left + SLINSIZ + 1 < n) :
    (p.copyline h n char >>= fun q => q.skipeol h n).Ends fun q => q.Over h := by
  obtain ⟨hlt, hline⟩ := hp.line hend
  refine (copyline_spec hchar hp.clean.good hend hline (by omega)).bind fun q hq => ?_
  obtain ⟨hin, hnl, heol, -⟩ := hq
  have hone : n = n - 1 + 1 := by omega
  unfold skipeol
  rw [hone, Sys.loop, if_neg (by simp [heol])]
  exact ⟨hin.good, .inl ⟨heol, hnl, hin.ended⟩⟩

theorem defnest_after {p : Pass} (hp : p.After h a s₀) : p.defnest.After h a s₀ := by
  unfold defnest
  split_ifs <;> exact hp

theorem rptnest_eq (p : Pass) : ∃ k, p.rptnest = { p with rptlev := k } := by
  unfold rptnest
  split_ifs
  · exact ⟨_, rfl⟩
  · exact ⟨_, rfl⟩
  · exact ⟨p.rptlev, rfl⟩

theorem rptnest_after {p : Pass} (hp : p.After h a s₀) : p.rptnest.After h a s₀ := by
  obtain ⟨k, hk⟩ := p.rptnest_eq
  rw [hk]
  exact hp

theorem defnest_scan (p : Pass) : p.defnest.scan = p.scan := by
  unfold defnest
  split_ifs <;> rfl

theorem rptnest_scan (p : Pass) : p.rptnest.scan = p.scan := by
  obtain ⟨k, hk⟩ := p.rptnest_eq
  rw [hk]

theorem yields_ended {s u : Scan} {cs : List Byte} (hy : Scan.Yields h s cs u) (hs : s.Ended) :
    ∀ c ∈ cs, c = EOFCHR := by
  induction hy with
  | nil => simp
  | cons ht _ ih =>
    obtain ⟨t, ht', hend, hch⟩ := hs.scanc h
    obtain rfl := Option.some.inj (ht'.symm.trans ht)
    exact List.forall_mem_cons.mpr ⟨hch, ih hend⟩

/-- The end of the input is a state to scan from. -/
theorem clean_ended {s : Scan} (hs : s.Ended) : s.Clean h s := by
  refine ⟨⟨.mark hs, hs.closed⟩, .refl s, fun cs u hy => ?_⟩
  have hall := yields_ended hy hs
  constructor
  · intro hesc
    have hmark := hall escchr (hesc.subset (List.mem_cons_self ..))
    exact absurd hmark (by decide)
  · rintro run hrun ⟨d, rest, rfl, hd, -⟩
    have hmark := hall d (hrun.subset (List.mem_cons_self ..))
    rw [hmark] at hd
    cases hd

/-- At the end of the input there are no fields. -/
theorem laboc_ended {p : Pass} (hs : p.scan.Ended) :
    ∃ q, p.laboc h n = ok q ∧ q.scan.Ended ∧ q.defnest = q ∧ q.deflev = p.deflev := by
  obtain ⟨t, ht, hend, hch⟩ := hs.scanc h
  have hwhite : white EOFCHR = false := by decide
  refine ⟨{ p with
    labstr := [], opcstr := [], tok := { p.tok with tokval := 0, toktyp := TKEOF }, scan := t }, ?_, hend, rfl, rfl⟩
  unfold laboc token Scan.token
  simp [Scan.next, ht, ofOption, hch, hwhite, Scan.token1_mark hch, TKEOF, TKSYM, TKSPC]

/-- **`def1` returns unless the input is at its end within the definition**, where it never does. -/
theorem def1_returns_iff {p : Pass} (hs : p.scan.Clean h a) (hk : p.tok.written ≤ STRSIZ + 1)
    (hn : p.scan.left + SLINSIZ + 1 < n) :
    ((p.def1 h n).Ends fun q => q.Over h) ↔
      ∀ q, p.laboc h n = ok q → q.scan.Ended → ¬0 < q.defnest.deflev := by
  constructor
  · intro hends q hq hend hlev
    have hstill : p.def1 h n = still := by
      rw [def1, hq, ok_bind, if_pos hlev, copyline_still spins_defchar (q.defnest_scan ▸ hend)]
      rfl
    rw [hstill] at hends
    exact hends
  · intro hin
    have hlaboc : p.scan.left < n := by omega
    refine (laboc_spec hs hk hlaboc).self.bind fun q hq => ?_
    obtain ⟨⟨b, -, hq⟩, hlab⟩ := hq
    have hnest := defnest_after hq
    dsimp only
    split_ifs with hlev
    · exact copied_over copies_defchar hnest (fun hend => hin q hlab (q.defnest_scan ▸ hend) hlev) hn
    · exact skipeol_over (p := { q.defnest with
        ochtab := Function.update q.defnest.ochtab q.defnest.curdef (.OTMAC q.defnest.oc_arg q.defnest.text) })
        hnest (by omega)

/-- The input ends in the definition of the macro `m`. -/
def openDefinition : Pass :=
  { scan := ⟨[EOFCHR], 0, EOFCHR, .start 255⟩
    tok := ⟨TKEOL, 0, [], 0⟩
    labstr := []
    opcstr := []
    ochtab := fun _ => .OTUND
    curdef := [0x6D]
    deflev := 1
    rptlev := 0
    rptct := 0
    text := []
    oc_arg := 0
    mexct := 0
    errs := [] }

theorem openDefinition_stays : ¬(openDefinition.def1 smallHost 200).Ends fun q => q.Over smallHost := by
  have hs : openDefinition.scan.Ended := ⟨rfl, rfl⟩
  have hiff := def1_returns_iff (h := smallHost) (n := 200) (clean_ended hs) (by decide) (by rw [hs.left]; decide)
  obtain ⟨q, hq, hend, hnest, hlev⟩ := laboc_ended (h := smallHost) (n := 200) hs
  rw [hiff]
  intro hall
  have hopen := hall q hq hend
  rw [hnest, hlev] at hopen
  exact hopen (by decide)

/-- **`rpt1` takes a statement of a repetition that goes on unless the input is at its end**, where it does
not return. -/
theorem rpt1_returns_iff {p : Pass} (hs : p.scan.Clean h a) (hk : p.tok.written ≤ STRSIZ + 1)
    (hn : p.scan.left + SLINSIZ + 1 < n) (hlev : ∀ q, p.laboc h n = ok q → 0 < q.rptnest.rptlev) :
    ((p.rpt1 h n).Ends fun q => q.Over h) ↔ ∀ q, p.laboc h n = ok q → ¬q.scan.Ended := by
  constructor
  · intro hends q hq hend
    have hstill : p.rpt1 h n = still := by
      rw [rpt1, hq, ok_bind, if_pos (hlev q hq), copyline_still spins_rptchar (q.rptnest_scan ▸ hend)]
      rfl
    rw [hstill] at hends
    exact hends
  · intro hin
    have hlaboc : p.scan.left < n := by omega
    refine (laboc_spec hs hk hlaboc).self.bind fun q hq => ?_
    obtain ⟨⟨b, -, hq⟩, hlab⟩ := hq
    dsimp only
    rw [if_pos (hlev q hlab)]
    exact copied_over copies_rptchar (rptnest_after hq) (fun hend => hin q hlab (q.rptnest_scan ▸ hend)) hn

end Pass

end Cpm8000.Asm.Source
