/-
# Definitions, calls and repetitions

`def1` and `rpt1` copy a statement into the definition of a macro or of a repetition; `macro` builds the
frame of a call on the input stack while it scans the operands of the call.

* `laboc_spec`, `skipeol_spec`: the fields of a statement are scanned, and the rest of it is skipped.
* `copyline_spec`: a line is copied, whatever continues it.
-/
import Cpm8000.Asm.Token

namespace Cpm8000.Asm.Source

open Sys Sys.Outcome

/-! ## 1. The code -/

/-- What an entry of the operation table is: `oc_typ` with what goes with it.  The text of a macro has its
formals as characters from `0x80` on. -/
inductive Opcode
  | OTUND
  | OTINS (oc_val : ℕ)
  | OTDIR (oc_val : ℕ)
  | OTMAC (oc_arg : ℕ) (oc_val : List Byte)

def ADMAC : ℕ := 22
def ADENDM : ℕ := 23
def ADENDR : ℕ := 28
def ADREPT : ℕ := 29

/-- What statements are read with.  `text` is what has been allocated for the definition at hand, of the macro
`curdef` or of a repetition, `oc_arg` the highest formal number seen in it; `errs` are the errors that were
reported. -/
structure Pass where
  scan : Scan
  tok : Tok
  labstr : List Byte
  opcstr : List Byte
  ochtab : List Byte → Opcode
  curdef : List Byte
  deflev : ℕ
  rptlev : ℕ
  rptct : BitVec 8
  text : List Byte
  oc_arg : ℕ
  mexct : BitVec 16
  errs : List Char

namespace Pass

variable (h : Host) (n : ℕ)

/-- Scan the next token. -/
def token (p : Pass) : Outcome Pass := do
  let (k, s) ← p.scan.token h n p.tok
  return { p with tok := k, scan := s }

/-- Skip to the next end of line or end of file. -/
def skipeol (p : Pass) : Outcome Pass :=
  loop (fun p => p.tok.toktyp ≠ TKEOL ∧ p.tok.toktyp ≠ TKEOF) (token h n) n p

/-- The opcode, if the token is one, and the token after it. -/
def opcode (p : Pass) : Outcome Pass :=
  if p.tok.toktyp = TKSYM then { p with opcstr := p.tok.tokstr }.token h n else return p

/-- Scan a token if the one at hand has this type. -/
def skipTok (toktyp : ℕ) (p : Pass) : Outcome Pass := if p.tok.toktyp = toktyp then p.token h n else return p

/-- Scan the label and opcode fields. -/
def laboc (p : Pass) : Outcome Pass := do
  let p ← { p with labstr := [], opcstr := [] }.token h n
  if p.tok.toktyp = TKSYM then
    -- a label in column 1, possibly with a colon
    let p ← { p with labstr := p.tok.tokstr }.token h n
    let p ← p.skipTok h n TKCOLON
    let p ← p.skipTok h n TKSPC
    p.opcode h n
  else if p.tok.toktyp = TKSPC then
    let p ← p.token h n
    if p.tok.toktyp = TKSYM then
      let p ← { p with labstr := p.tok.tokstr }.token h n
      if p.tok.toktyp = TKCOLON then
        let p ← p.token h n
        let p ← p.skipTok h n TKSPC
        p.opcode h n
      else
        -- it was the opcode
        return { p with opcstr := p.labstr, labstr := [] }
    else return p
  else return p

/-- Back to the beginning of the line. -/
def rescan (s : Scan) : Scan := { s with scanpt := 0 }

/-- What is copied of a statement: the text, the highest formal number, and the errors. -/
structure Copy where
  text : List Byte
  oc_arg : ℕ
  errs : List Char

/-- Copy a character into the definition of a macro. -/
def defchar (p : Copy × Scan) : Outcome (Copy × Scan) := do
  let s ← p.2.next h
  let d := p.1
  if s.ch = escchr then
    let s ← s.next h
    return ({ d with text := d.text ++ [s.ch] }, s)
  else if s.ch = argchr then
    let s ← s.next h
    if s.ch = mctchr then return ({ d with text := d.text ++ [0x80] }, s)
    else if s.ch = argchr then return ({ d with text := d.text ++ [0x81] }, s)
    else if digit s.ch then
      let argno := Scan.digitval s.ch
      return ({ d with oc_arg := max d.oc_arg argno, text := d.text ++ [BitVec.ofNat 8 argno + 0x82] }, s)
    else return ({ d with errs := d.errs ++ ['A'] }, s)
  else return ({ d with text := d.text ++ [s.ch] }, s)

/-- Copy a character into the definition of a repetition. -/
def rptchar (p : Copy × Scan) : Outcome (Copy × Scan) := do
  let s ← p.2.next h
  return ({ p.1 with text := p.1.text ++ [s.ch] }, s)

/-- Copy the line, from its beginning, and scan the newline again as a token. -/
def copyline (char : Copy × Scan → Outcome (Copy × Scan)) (p : Pass) : Outcome Pass := do
  let d ← char (⟨p.text, p.oc_arg, p.errs⟩, rescan p.scan)
  let (d, s) ← loop (fun d => d.2.ch ≠ 0x0A) char n d
  token h n { p with text := d.text, oc_arg := d.oc_arg, errs := d.errs, scan := s.unscanc }

/-- The directive in the opcode field, if it is one. -/
def directive (p : Pass) : Option ℕ :=
  if p.opcstr = [] then none
  else match p.ochtab p.opcstr with
    | .OTDIR oc_val => some oc_val
    | _ => none

/-- A nested definition, or the end of one. -/
def defnest (p : Pass) : Pass :=
  if p.directive = some ADMAC then { p with deflev := p.deflev + 1 }
  else if p.directive = some ADENDM then { p with deflev := p.deflev - 1 }
  else p

/-- A nested repetition, or the end of one. -/
def rptnest (p : Pass) : Pass :=
  if p.directive = some ADREPT then { p with rptlev := p.rptlev + 1 }
  else if p.directive = some ADENDR then { p with rptlev := p.rptlev - 1 }
  else p

/-- Copy one statement into a macro definition, or finish it off. -/
def def1 (p : Pass) : Outcome Pass := do
  let p ← p.laboc h n
  let p := p.defnest
  if 0 < p.deflev then
    let p ← p.copyline h n (defchar h)
    p.skipeol h n
  else
    let ochtab := Function.update p.ochtab p.curdef (.OTMAC p.oc_arg p.text)
    skipeol h n { p with ochtab := ochtab }

/-- Push a character onto the input stack. -/
def pushc (s : Scan) : Option Scan := do
  let t ← Input.iovck h { s.input with insp := s.input.insp + 1 }
  return { s with input := t }

/-- Push the characters of a string. -/
def pushs (str : List Byte) (s : Scan) : Option Scan := str.foldlM (fun s _ => pushc h s) s

/-- Copy one statement into a repeat definition, or start the repetition. -/
def rpt1 (p : Pass) : Outcome Pass := do
  let p ← p.laboc h n
  let p := p.rptnest
  if 0 < p.rptlev then
    let p ← p.copyline h n (rptchar h)
    p.skipeol h n
  else
    let newfp := p.scan.input.newfp
    let t ← ofOption (p.scan.input.pushin h)
    let s ← ofOption (pushs h p.text { p.scan with input := t })
    -- as though at the end of the frame
    let s := { s with input := s.input.enter newfp (.INRPT p.rptct p.text) [] }
    skipeol h n { p with scan := s, text := [] }

/-! ### Calls -/

/-- A character of the call.  When `getline` moves the end of the input stack, what `macro` has built there is
lost. -/
def mnext (s : Scan) : Outcome Scan := do
  let t ← s.next h
  if t.input.insp = s.input.insp then return t else wild

/-- The level of braces after a character. -/
def brlev (c : Byte) (lev : ℕ) : ℕ := if c = lbrchr then lev + 1 else if c = rbrchr then lev - 1 else lev

/-- An argument and the scanner. -/
structure Arg where
  lev : ℕ
  str : List Byte
  scan : Scan

/-- The next character in braces. -/
def inbrace (a : Arg) : Outcome Arg := do
  let s ← mnext h a.scan
  return { a with lev := brlev s.ch a.lev, scan := s }

/-- An argument enclosed in braces, without them. -/
def braced (s : Scan) : Outcome (List Byte × Scan) := do
  let a ← inbrace h ⟨1, [], s⟩
  let a ← loop (fun a => 0 < a.lev ∧ a.scan.ch ≠ 0x0A)
    (fun a => do
      let s ← if a.scan.ch = escchr then mnext h a.scan else pure a.scan
      let t ← ofOption (pushc h s)
      inbrace h { a with str := a.str ++ [s.ch], scan := t })
    n a
  let s ← if a.scan.ch = rbrchr then mnext h a.scan else pure a.scan
  return (a.str, s)

/-- What ends an argument that is not in braces. -/
def ends (c : Byte) : Bool := c = 0x2C ∨ white c ∨ c = 0x0A ∨ c = 0x3B

/-- An argument not in braces. -/
def unbraced (s : Scan) : Outcome (List Byte × Scan) :=
  loop (fun a => !ends a.2.ch)
    (fun a => do
      let t ← ofOption (pushc h a.2)
      let s ← mnext h t
      return (a.1 ++ [a.2.ch], s))
    n ([], s)

def argument (s : Scan) : Outcome (List Byte × Scan) := if s.ch = lbrchr then braced h n s else unbraced h n s

/-- `while(white(ch)) scanc()`. -/
def whites (s : Scan) : Outcome Scan := loop (fun s => white s.ch) (mnext h) n s

/-- The separator after an argument. -/
def separator (s : Scan) : Outcome Scan := do
  let s ← whites h n s
  let s ← if s.ch = 0x2C then mnext h s else pure s
  whites h n s

/-- The arguments of a call: the extra ones as one string, and those that are expected. -/
structure Actuals where
  extra : List Byte
  args : List (List Byte)
  scan : Scan

/-- One more argument; the extra ones are put in braces again, with commas between them. -/
def actual (oc_arg : ℕ) (a : Actuals) : Outcome Actuals :=
  if a.args.length < oc_arg then do
    let (str, s) ← argument h n a.scan
    let s ← ofOption (pushc h s)
    let s ← separator h n s
    return { a with args := a.args ++ [str], scan := s }
  else do
    let t ← ofOption (pushc h a.scan)
    let (str, s) ← argument h n t
    let s ← ofOption (pushs h [rbrchr, 0] s)
    let s ← separator h n s
    let sep := if a.extra = [] then [] else [0x2C]
    return { a with extra := a.extra ++ sep ++ [lbrchr] ++ str ++ [rbrchr], scan := s }

/-- The number as decimal digits. -/
def decimal (m : ℕ) : List Byte := (Nat.toDigits 10 m).map fun c => BitVec.ofNat 8 c.toNat

/-- Process a macro call. -/
def macro_ (oc_arg : ℕ) (oc_val : List Byte) (p : Pass) : Outcome Pass := do
  let newfp := p.scan.input.newfp
  let t ← ofOption (p.scan.input.pushin h)
  let t ← ofOption (Input.iovck h { t with insp := t.insp + (oc_arg + 3) * h.ptr })
  let mexct := p.mexct + 1
  let count := decimal mexct.toNat
  let s ← ofOption (pushs h (count ++ [0] ++ p.labstr ++ [0]) { p.scan with input := t })
  let s ← if p.tok.toktyp = TKSPC then mnext h s else pure s
  let a ← loop (fun a => a.args.length < oc_arg ∨ a.scan.ch ≠ 0x0A ∧ a.scan.ch ≠ 0x3B) (actual h n oc_arg) n
    ⟨[], [], s⟩
  let s ← loop (fun s => s.ch ≠ 0x0A) (mnext h) n a.scan
  let s ← ofOption (pushs h oc_val s)
  let input := s.input.enter newfp (.INMAC (count :: a.extra :: p.labstr :: a.args)) oc_val
  return { p with mexct := mexct, tok := { p.tok with toktyp := TKEOL }, scan := { s with input := input } }

end Pass

/-! ## 2. Fields and the rest of a statement -/

namespace Pass

variable {h : Host} {n : ℕ} {a s₀ : Scan}

/-- The token at hand was scanned after `s₀`, on the line of `a`. -/
def After (h : Host) (a s₀ : Scan) (p : Pass) : Prop := Scan.After h a s₀ p.tok p.scan

theorem token_ends {p : Pass} (hs : p.scan.Clean h a) (hk : p.tok.written ≤ STRSIZ + 1)
    (hn : p.scan.left < n) :
    (p.token h n).Ends fun q => ∃ b, Scan.Begins h a p.scan b ∧ q.After h b p.scan := by
  unfold token
  refine (Scan.token_spec hs hk hn).bind ?_
  rintro ⟨k, s⟩ hks
  exact hks

/-- After a token that is not the last one of its line there is more of the line. -/
theorem After.more {p : Pass} (hp : p.After h a s₀) (hne : p.tok.toktyp ≠ TKEOL ∧ p.tok.toktyp ≠ TKEOF) :
    p.scan.left < s₀.left ∧ p.scan.More := by
  rcases hp.what with ⟨heof, -⟩ | ⟨hlt, -, ⟨heol, -⟩ | ⟨-, -, hmore⟩⟩
  · exact absurd heof hne.2
  · exact absurd heol hne.1
  · exact ⟨hlt, hmore⟩

/-- After a token that is not the last one of its line comes another one, of the same line. -/
theorem After.token {p : Pass} (hp : p.After h a s₀) (hne : p.tok.toktyp ≠ TKEOL ∧ p.tok.toktyp ≠ TKEOF)
    (hn : s₀.left < n) : (p.token h n).Ends fun q => q.After h a s₀ := by
  obtain ⟨hlt, hmore⟩ := hp.more hne
  refine (token_ends hp.clean hp.written (hlt.trans hn)).mono fun q hq => ?_
  obtain ⟨b, hb, hq⟩ := hq
  obtain rfl := hb.1 hmore
  refine ⟨hq.clean, hq.written, hq.string, ?_⟩
  rcases hq.what with ⟨-, -, hnot⟩ | ⟨hlt', hrest⟩
  · exact absurd hmore hnot
  · exact .inr ⟨hlt'.trans hlt, hrest⟩

theorem After.token_of_eq {p : Pass} (hp : p.After h a s₀) {toktyp : ℕ} (heq : p.tok.toktyp = toktyp)
    (hne : toktyp ≠ TKEOL ∧ toktyp ≠ TKEOF) (hn : s₀.left < n) : (p.token h n).Ends fun q => q.After h a s₀ :=
  hp.token (heq ▸ hne) hn

theorem After.skipTok {p : Pass} (hp : p.After h a s₀) {toktyp : ℕ} (hne : toktyp ≠ TKEOL ∧ toktyp ≠ TKEOF)
    (hn : s₀.left < n) : (p.skipTok h n toktyp).Ends fun q => q.After h a s₀ := by
  unfold Pass.skipTok
  split_ifs with heq
  · exact hp.token_of_eq heq hne hn
  · exact hp

theorem After.opcode {p : Pass} (hp : p.After h a s₀) (hn : s₀.left < n) :
    (p.opcode h n).Ends fun q => q.After h a s₀ := by
  unfold Pass.opcode
  split_ifs with heq
  · exact After.token_of_eq (p := { p with opcstr := p.tok.tokstr }) hp heq (by decide) hn
  · exact hp

/-- **The label and opcode fields are scanned**, from one line unless that is continued. -/
theorem laboc_spec {p : Pass} (hs : p.scan.Clean h a) (hk : p.tok.written ≤ STRSIZ + 1)
    (hn : p.scan.left < n) :
    (p.laboc h n).Ends fun q => ∃ b, Scan.Begins h a p.scan b ∧ q.After h b p.scan := by
  unfold laboc
  refine (token_ends (p := { p with labstr := [], opcstr := [] }) hs hk hn).bind fun q hq => ?_
  obtain ⟨b, hb, hq⟩ := hq
  refine Ends.mono (Q := fun q => q.After h b p.scan) ?_ fun q hq => ⟨b, hb, hq⟩
  split_ifs with hsym hspc
  · refine (After.token_of_eq (p := { q with labstr := q.tok.tokstr }) hq hsym (by decide) hn).bind fun r hr => ?_
    refine (hr.skipTok (by decide) hn).bind fun r hr => ?_
    refine (hr.skipTok (by decide) hn).bind fun r hr => ?_
    exact hr.opcode hn
  · refine (hq.token_of_eq hspc (by decide) hn).bind fun r hr => ?_
    split_ifs with hsym'
    · refine (After.token_of_eq (p := { r with labstr := r.tok.tokstr }) hr hsym' (by decide) hn).bind fun u hu => ?_
      split_ifs with hcolon
      · refine (hu.token_of_eq hcolon (by decide) hn).bind fun v hv => ?_
        refine (hv.skipTok (by decide) hn).bind fun v hv => ?_
        exact hv.opcode hn
      · exact hu
    · exact hr
  · exact hq

/-- **The rest of a statement is skipped.** -/
theorem skipeol_spec {p : Pass} (hp : p.After h a s₀) (hn : s₀.left + 1 < n) :
    (p.skipeol h n).Ends fun q => q.After h a s₀ ∧ (q.tok.toktyp = TKEOL ∨ q.tok.toktyp = TKEOF) := by
  let m (q : Pass) : ℕ := if q.tok.toktyp = TKEOL ∨ q.tok.toktyp = TKEOF then 0 else q.scan.left + 1
  have hbody : ∀ q : Pass, q.After h a s₀ → decide (q.tok.toktyp ≠ TKEOL ∧ q.tok.toktyp ≠ TKEOF) = true →
      (q.token h n).Ends fun r => r.After h a s₀ ∧ m r < m q := by
    intro q hq hc
    have hne := of_decide_eq_true hc
    have hmq : m q = q.scan.left + 1 := if_neg (not_or.mpr hne)
    obtain ⟨hlt, hmore⟩ := hq.more hne
    refine ((hq.token hne (by omega)).and (token_ends hq.clean hq.written (by omega))).mono fun r hr => ?_
    obtain ⟨hr, b, -, hrb⟩ := hr
    refine ⟨hr, ?_⟩
    rcases hrb.what with ⟨-, -, hnot⟩ | ⟨hlt', -⟩
    · exact absurd hmore hnot
    · dsimp only [m]
      split_ifs <;> omega
  have hm : m p < n := by
    dsimp only [m]
    split_ifs with hc
    · omega
    · have hlt := (hp.more (not_or.mp hc)).1
      omega
  refine (Ends.loop hbody hp hm).mono fun q hq => ⟨hq.1, ?_⟩
  have hc := of_decide_eq_false hq.2.1
  by_contra hne
  exact hc (not_or.mp hne)

end Pass

/-! ## 3. Copying a line -/

namespace Scan

variable {h : Host} {n : ℕ}

/-- A state within a line, or at its newline, whatever comes. -/
structure Inline (h : Host) (s : Scan) : Prop where
  good : s.Good h
  seen : s.Seen
  ended : ¬s.Ended
  more : s.ch = 0x0A ∨ s.More

theorem Good.next_more {s : Scan} (hs : s.Good h) (hm : s.More) :
    (s.next h).Ends fun t => t.Inline h ∧ t.left < s.left := by
  refine ends_ofOption.mpr fun t ht => ?_
  obtain ⟨hcomes, hended, hleft⟩ := scanc_good hs ht
  have hend : ¬t.Ended := fun hend => hended hend hm
  exact ⟨⟨hcomes.good, hcomes.seen, hend, hcomes.more hend⟩, hleft hend⟩

theorem Inline.next {s : Scan} (hs : s.Inline h) (hne : s.ch ≠ 0x0A) :
    (s.next h).Ends fun t => t.Inline h ∧ t.left < s.left := hs.good.next_more (hs.more.resolve_left hne)

/-- The line at hand. -/
theorem Good.line {s : Scan} (hs : s.Good h) (hend : ¬s.Ended) (hne : s.sline ≠ []) :
    ∃ l, Fine l ∧ s.sline = l ++ [0x0A] := by
  cases hs.placed with
  | mark hend' => exact absurd hend' hend
  | none hnil => exact absurd hnil hne
  | line l hl hline => exact ⟨l, hl, hline⟩

/-- A newline that was put back is a token. -/
theorem token_newline {s : Scan} (hs : s.Seen) (hnl : s.ch = 0x0A) (k : Tok) :
    s.unscanc.token h n k = ok ({ k with tokval := 0, toktyp := TKEOL }, s) := by
  have hnext : s.unscanc.next h = ok s := by rw [Scan.next, hs.scanc_unscanc]; rfl
  have hwhite : white 0x0A = false := by decide
  have hsym : symstart 0x0A = false := by decide
  have hdig : digit 0x0A = false := by decide
  have htab : chtab.lookup 0x0A = some (TKEOL, 0) := by decide
  unfold token token1
  simp only [hnext, ok_bind, hnl, hwhite, hsym, hdig, htab]
  rfl

end Scan

namespace Pass

variable {h : Host} {n : ℕ}

/-- What a step of copying does to the scanner. -/
def Copies (h : Host) (char : Copy × Scan → Outcome (Copy × Scan)) : Prop :=
  ∀ d : Copy × Scan, d.2.Good h → d.2.More → (char d).Ends fun e => e.2.Inline h ∧ e.2.left < d.2.left

theorem copies_rptchar : Copies h (rptchar h) := by
  intro d hd hm
  exact (hd.next_more hm).bind fun s hs => hs

theorem copies_defchar : Copies h (defchar h) := by
  intro d hd hm
  refine (hd.next_more hm).bind fun s hs => ?_
  obtain ⟨hs, hlt⟩ := hs
  dsimp only
  split_ifs with hesc harg
  · refine (hs.next (hesc ▸ by decide)).bind fun t ht => ?_
    exact ⟨ht.1, ht.2.trans hlt⟩
  · refine (hs.next (harg ▸ by decide)).bind fun t ht => ?_
    have hpost : t.Inline h ∧ t.left < d.2.left := ⟨ht.1, ht.2.trans hlt⟩
    split_ifs <;> exact hpost
  · exact ⟨hs, hlt⟩

/-- **A line is copied, from its beginning to its newline.** -/
theorem copyline_spec {char : Copy × Scan → Outcome (Copy × Scan)} (hchar : Copies h char) {p : Pass}
    (hs : p.scan.Good h) (hend : ¬p.scan.Ended) (hline : p.scan.sline ≠ [])
    (hn : p.scan.left + SLINSIZ + 1 < n) :
    (p.copyline h n char).Ends fun q => q.scan.Inline h ∧ q.scan.ch = 0x0A ∧ q.tok.toktyp = TKEOL ∧
      q.tok.written = p.tok.written := by
  obtain ⟨l, hl, hl'⟩ := hs.line hend hline
  have hlen : p.scan.sline.length = l.length + 1 := by rw [hl', List.length_append, List.length_singleton]
  have hfine := hl.length
  have hgood : (rescan p.scan).Good h := ⟨.line l hl hl', hs.closed⟩
  have hmore : (rescan p.scan).More := ⟨⟨l, hl, hl'⟩, by rw [rescan, hlen]; exact Nat.succ_pos _⟩
  have hmark : p.scan.sline ≠ [EOFCHR] := hl' ▸ Scan.line_ne_mark l
  have hleft : (rescan p.scan).left ≤ p.scan.left + SLINSIZ + 1 := by
    have hre : (rescan p.scan).left = p.scan.sline.length - 0 + p.scan.input.weight := Scan.left_line hmark
    have hw := Scan.weight_le_left p.scan
    omega
  unfold copyline
  refine (hchar (_, rescan p.scan) hgood hmore).bind fun d hd => ?_
  obtain ⟨hd, hlt⟩ := hd
  dsimp only at hlt
  have hloop : (loop (fun d : Copy × Scan => decide (d.2.ch ≠ 0x0A)) char n d).Ends fun e =>
      e.2.Inline h ∧ decide (e.2.ch ≠ 0x0A) = false ∧ e.2.left ≤ d.2.left :=
    Ends.loop (I := fun e => e.2.Inline h) (m := fun e => e.2.left)
      (fun e he hc => hchar e he.good (he.more.resolve_left (of_decide_eq_true hc))) hd (by omega)
  refine hloop.bind ?_
  rintro ⟨c, t⟩ ⟨ht, hc, -⟩
  have hnl : t.ch = 0x0A := not_not.mp (of_decide_eq_false hc)
  dsimp only at ht ⊢
  unfold token
  dsimp only
  rw [Scan.token_newline ht.seen hnl]
  exact ⟨ht, hnl, rfl, rfl⟩

end Pass

end Cpm8000.Asm.Source
