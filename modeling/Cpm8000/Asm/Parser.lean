/-
# The parser of operands

`iiparse` runs the tables that its generator made of the grammar: a state is a place in `ptab`, behind
which its actions on terminals stand, in the order in which `scntab` has the symbols, and before which
those on nonterminals. The semantic routines of the string comparisons (14 and 16) are modelled as they
are, on `savstr` and the scanner's `tokstr`; what the others leave in the frame of a left part is a
parameter, as they change nothing else that the parser or the two routines read. A production has at
least one symbol.

The tables are what the proofs rest on: `terminal_ok` and `nonterminal_ok` say, of every action in them
that the parser comes to, all that is needed of it. A reduction pops to a state from which the path to the
top leads, whatever the stack (`Path.drop`), and that state has a transition on the left part.
-/
import Cpm8000.Asm.Symbols
import Cpm8000.Asm.Names

namespace Cpm8000.Asm

open Cpm8000.Sys

def IISIZ : ℕ := 30
def STRSIZ : ℕ := 128
def IIDSYM : ℕ := 0o377
def IIESYM : ℕ := 0o376
def IILMSK : ℕ := 0o7
def IIRFLG : ℕ := 0o40000
def IIXFLG : ℕ := 0o100000
def TKEOF : ℕ := 0
def TKSTR : ℕ := 4
def TKRELOP : ℕ := 8

/-! ## 1. The tables -/

def ptab : List ℕ :=
  [0o2, 0o0, 0o1, 0o40400, 0o40401, 0o40402, 0o40403, 0o100030, 0o100042,
    0o100054, 0o100066, 0o100100, 0o100110, 0o40404, 0o100113, 0o100116, 0o40405,
    0o40406, 0o40407, 0o40410, 0o40411, 0o41012, 0o41012, 0o24, 0o26, 0o40400,
    0o40401, 0o40402, 0o100030, 0o100042, 0o100066, 0o41013, 0o41013, 0o24,
    0o26, 0o40400, 0o40401, 0o40402, 0o100030, 0o100042, 0o100066, 0o41014,
    0o100150, 0o35, 0o40, 0o40400, 0o40401, 0o40402, 0o40403, 0o100030, 0o100042,
    0o100066, 0o100153, 0o50, 0o40, 0o40400, 0o40401, 0o40402, 0o40403, 0o100030,
    0o100042, 0o100066, 0o41015, 0o52, 0o40, 0o40400, 0o40401, 0o40402, 0o40403,
    0o100030, 0o100042, 0o100066, 0o54, 0o41016, 0o41017, 0o57, 0o420, 0o421,
    0o57, 0o422, 0o423, 0o52, 0o100160, 0o424, 0o62, 0o100173, 0o425, 0o64, 0o100205,
    0o426, 0o66, 0o100221, 0o100232, 0o427, 0o71, 0o100241, 0o73, 0o100246, 0o430,
    0o57, 0o431, 0o100255, 0o33, 0o100257, 0o57, 0o1032, 0o100255, 0o75, 0o100160,
    0o41433, 0o100262, 0o100, 0o40, 0o40400, 0o40401, 0o40402, 0o40403, 0o100030,
    0o100042, 0o100066, 0o100265, 0o100265, 0o102, 0o40, 0o40400, 0o40401, 0o40402,
    0o40403, 0o100030, 0o100042, 0o100066, 0o41434, 0o103, 0o40, 0o40400, 0o40401,
    0o40402, 0o40403, 0o100030, 0o100042, 0o100066, 0o100270, 0o100270, 0o100270,
    0o105, 0o26, 0o40400, 0o40401, 0o40402, 0o100030, 0o100042, 0o100066, 0o100273,
    0o73, 0o26, 0o40400, 0o40401, 0o40402, 0o100030, 0o100042, 0o100066, 0o110,
    0o41435, 0o41436, 0o41436, 0o24, 0o26, 0o40400, 0o40401, 0o40402, 0o100030,
    0o100042, 0o100066, 0o112, 0o100276, 0o114, 0o100302, 0o100312, 0o62, 0o100173,
    0o1437, 0o64, 0o100205, 0o1440, 0o73, 0o100246, 0o1441, 0o117, 0o100221, 0o1442,
    0o76, 0o42043, 0o100314, 0o52, 0o40, 0o40400, 0o40401, 0o40402, 0o40403, 0o100030,
    0o100042, 0o100066, 0o76, 0o42044, 0o76, 0o42445]

def ntdflt : List ℕ :=
  [0o100002, 0o40446, 0o100121, 0o100124, 0o100127, 0o100127, 0o100132,
    0o100136, 0o100140, 0o100140, 0o100140, 0o100143, 0o40447, 0o100146]

def semtab : List ℕ :=
  [0o5015, 0o5014, 0o5013, 0o3416, 0o463, 0o466, 0o475, 0o476, 0o477, 0o500,
    0o4403, 0o4402, 0o505, 0o467, 0o471, 0o472, 0o464, 0o6501, 0o465, 0o6502, 0o5400,
    0o1000, 0o1400, 0o2400, 0o3000, 0o417, 0o504, 0o5012, 0o2007, 0o2420, 0o4005,
    0o1010, 0o1404, 0o3006, 0o2411, 0o6103, 0o474, 0o473, 0o1, 0o470]

def scntab : List ℕ :=
  [0o377, 0o1, 0o2, 0o3, 0o4, 0o5, 0o7, 0o13, 0o14, 0o16, 0o17, 0o20, 0o21, 0o22, 0o23,
    0o24, 0o25, 0o26, 0o27, 0o376, 0o11, 0o12, 0o1, 0o2, 0o3, 0o5, 0o7, 0o14, 0o376, 0o13, 0o14,
    0o377, 0o1, 0o2, 0o3, 0o4, 0o5, 0o7, 0o14, 0o376, 0o2, 0o377, 0o13, 0o377, 0o21, 0o22, 0o376,
    0o0, 0o14, 0o376, 0o12, 0o377, 0o11, 0o377, 0o7, 0o10, 0o377, 0o10, 0o376, 0o6, 0o377, 0o13,
    0o15, 0o376, 0o3, 0o377, 0o4, 0o5, 0o377, 0o10, 0o11, 0o12, 0o4, 0o376, 0o21, 0o376, 0o16,
    0o21, 0o376, 0o7, 0o377]

/-- A symbol on the parse stack; `IINFLG` marks a nonterminal. -/
inductive Sym
  | terminal (n : ℕ)
  | nonterminal (n : ℕ)
  deriving DecidableEq

/-- The search for a terminal. -/
def scanTerminal (sym : ℕ) : List ℕ → List ℕ → Option ℕ
  | act :: pp, c :: scp =>
    if c = sym ∨ c = IIDSYM then some act
    else if c = IIESYM then none
    else scanTerminal sym pp scp
  | _, _ => none

/-- The search for a nonterminal, through `ptab` downwards. -/
def scanNonterminal (sym : ℕ) : List ℕ → List ℕ → Option ℕ
  | act :: pp, c :: scp =>
    if c = sym then some act
    else if c = IIDSYM then ntdflt[sym]?
    else scanNonterminal sym pp scp
  | _, _ => none

/-- The next action; there is none at a syntax error. -/
def iiaction (state : ℕ) : Sym → Option ℕ
  | .terminal sym => scanTerminal sym (ptab.drop (state + 1)) (scntab.drop (ptab.getD state 0))
  | .nonterminal sym =>
    scanNonterminal sym (ptab.take (state - 1)).reverse (scntab.drop (ptab.getD (state - 1) 0))

/-- `act & ~IIXFLG`. -/
def target (act : ℕ) : ℕ := act % IIXFLG

/-- The length of a production, its left part, and its semantic routine. -/
def plen (act : ℕ) : ℕ := act / 256 &&& IILMSK
def plhs (act : ℕ) : ℕ := semtab.getD (act % 256) 0 / 256
def psem (act : ℕ) : ℕ := semtab.getD (act % 256) 0 % 256

/-! ## 2. The scanner -/

/-- Operators and brackets, and what ends an operand. They leave `tokstr` alone. -/
inductive Mark
  | TKEOF
  | TKUNOP
  | TKMULOP
  | TKADDOP
  | TKANDOP
  | TKXOROP
  | TKOROP
  | TKLPAR
  | TKRPAR
  | TKPOUND
  | TKAT
  | TKCOLON

def Mark.code : Mark → ℕ
  | TKEOF => 0
  | TKUNOP => 5
  | TKMULOP => 6
  | TKADDOP => 7
  | TKANDOP => 9
  | TKXOROP => 10
  | TKOROP => 11
  | TKLPAR => 12
  | TKRPAR => 13
  | TKPOUND => 14
  | TKAT => 15
  | TKCOLON => 101

/-- Symbols, keywords, constants and what is no token. Most of them are gathered in `tokstr`. -/
inductive Word
  | TKDOL
  | TKSYM
  | TKCON
  | TKREG8
  | TKREG16
  | TKREG32
  | TKREG64
  | TKCCODE
  | TKINT
  | TKCTL
  | TKFLAGS
  | TKERR

def Word.code : Word → ℕ
  | TKDOL => 1
  | TKSYM => 2
  | TKCON => 3
  | TKREG8 => 16
  | TKREG16 => 17
  | TKREG32 => 18
  | TKREG64 => 19
  | TKCCODE => 20
  | TKINT => 21
  | TKCTL => 22
  | TKFLAGS => 23
  | TKERR => 127

/-- A string comes with all the characters between the quotes, a word with what `tokstr` has then. -/
inductive Token
  | string (s : List Byte)
  | relop (op : RelOp)
  | mark (m : Mark) (val : BitVec 32)
  | word (w : Word) (val : BitVec 32) (text : Option (List Byte))

def RelOp.code : RelOp → BitVec 16
  | TVEQ => 1
  | TVNE => 2
  | TVLT => 3
  | TVGT => 4
  | TVLE => 5
  | TVGE => 6

namespace Token

def ps_sym : Token → ℕ
  | string _ => TKSTR
  | relop _ => TKRELOP
  | mark m _ => m.code
  | word w _ _ => w.code

/-- `tokval`; a string is cut to what `tokstr` holds. -/
def ps_val0 : Token → BitVec 32
  | string s => (s.take STRSIZ).length
  | relop op => op.code.setWidth 32
  | mark _ val => val
  | word _ val _ => val

/-- What the token leaves in `tokstr`. -/
def scanned (tokstr : List Byte) : Token → List Byte
  | string s => s.take STRSIZ
  | relop _ => tokstr
  | mark _ _ => tokstr
  | word _ _ text => text.getD tokstr

end Token

/-! ## 3. The parser -/

/-- A frame of the parse stack. -/
structure PsFrame where
  ps_state : ℕ
  ps_sym : Sym
  frame : Frame

/-- What case 16 finds: the strings it compares, and `ps_val1` of the operator. -/
structure Compared where
  left : List Byte
  right : List Byte
  op : BitVec 16

/-- The loop of case 16, and the line behind it; `c` is what the variable holds. -/
def outcome (signed : Bool) (c : ℤ) : List Byte → List Byte → ℤ
  | s :: sp, d :: dp =>
    if charval signed s - charval signed d = 0 then outcome signed 0 sp dp
    else charval signed s - charval signed d
  | sp, dp => if c = 0 then (sp.length : ℤ) - dp.length else c

/-- The `switch` on the operator, which changes nothing if it is none. -/
def relation (op : BitVec 16) (c : ℤ) (old : BitVec 32) : BitVec 32 :=
  if op = 1 then truth (c = 0)
  else if op = 2 then truth (c ≠ 0)
  else if op = 3 then truth (c < 0)
  else if op = 4 then truth (0 < c)
  else if op = 5 then truth (c ≤ 0)
  else if op = 6 then truth (0 ≤ c)
  else if old = 0 then 0 else -1

/-- How the program was compiled and runs: whether a `char` has a sign, what the variable of case 16 holds
before it is set, and the other semantic routines on the frames from the top. -/
structure Env where
  signed : Bool
  junk : ℤ
  routine : ℕ → List Frame → Frame

/-- The state of the parser. `input` is what the scanner has not come to, `text` what the parser has read,
and `compared` what case 16 has found. -/
structure Parser where
  iips : List PsFrame
  iilexeme : Token
  input : List Token
  text : List Token
  tokstr : List Byte
  savstr : List Byte
  savlen : ℕ
  parsing : Bool
  compared : List Compared

namespace Parser

/-- `iilex`; behind the end there is nothing more. -/
def iilex (q : Parser) : Parser :=
  let t := q.input.headD (.mark .TKEOF 0)
  { q with
    iilexeme := t
    input := q.input.tail
    text := q.text ++ [q.iilexeme]
    tokstr := t.scanned q.tokstr }

/-- Before an operand the scanner has come to its first token. -/
def start (tokstr : List Byte) (ts : List Token) : Parser where
  iips := []
  iilexeme := ts.headD (.mark .TKEOF 0)
  input := ts.tail
  text := []
  tokstr := (ts.headD (.mark .TKEOF 0)).scanned tokstr
  savstr := []
  savlen := 0
  parsing := true
  compared := []

/-- The frame that is pushed. -/
def pushed (q : Parser) (act : ℕ) : PsFrame where
  ps_state := target act
  ps_sym := .terminal q.iilexeme.ps_sym
  frame := ⟨q.iilexeme.ps_val0, q.iilexeme.ps_val0.setWidth 16, 0⟩

/-- The strings in `savstr` and `tokstr`, as case 16 takes them. -/
def operands (q : Parser) (p p1 : Frame) : Compared where
  left := q.savstr.take q.savlen
  right := q.tokstr.take p.ps_val0.toNat
  op := p1.ps_val1

variable (v : Env)

/-- The semantic routines: what they leave in the frame of the left part, and what else they change. -/
def sem01 (q : Parser) (sem : ℕ) (pl : Frame) : Parser × Frame :=
  let frames := q.iips.map PsFrame.frame
  let p := frames.getD 0 ⟨0, 0, 0⟩
  let p1 := frames.getD 1 ⟨0, 0, 0⟩
  match sem with
  | 0 => (q, pl)
  | 1 => ({ q with parsing := false }, pl)
  | 14 => ({ q with savlen := p.ps_val0.toNat, savstr := q.tokstr.take p.ps_val0.toNat }, pl)
  | 16 =>
    let e := q.operands p p1
    ({ q with compared := q.compared ++ [e] },
      ⟨relation e.op (outcome v.signed v.junk e.left e.right) pl.ps_val0, 0, 0⟩)
  | sem => (q, v.routine sem frames)

end Parser

/-- Where the parser is: at the top of its loop, in the loop of the reductions, or done. -/
inductive Config
  | push (q : Parser) (act : ℕ)
  | reduce (q : Parser) (act : ℕ)
  | done (q : Parser) (ret : ℤ)

variable (v : Env)

/-- One round of a loop of `iiparse`. -/
def iistep : Config → Config
  | .push q act =>
    if IISIZ ≤ q.iips.length then .done q (-2)
    else
      let f := q.pushed act
      match iiaction f.ps_state f.ps_sym with
      | none => .done { q with iips := f :: q.iips } (-1)
      | some act =>
        if act &&& IIXFLG ≠ 0 then .push (Parser.iilex { q with iips := f :: q.iips }) act
        else if act &&& IIRFLG ≠ 0 then .reduce (Parser.iilex { q with iips := f :: q.iips }) act
        else .reduce q act
  | .reduce q act =>
    match q.iips.drop (plen act - 1) with
    | [] => .done q (-1)
    | pl :: iips =>
      let r := q.sem01 v (psem act) pl.frame
      let f : PsFrame := ⟨pl.ps_state, .nonterminal (plhs act), r.2⟩
      let q := { r.1 with iips := f :: iips }
      match iiaction f.ps_state f.ps_sym with
      | none => .done q (-1)
      | some act =>
        if act &&& IIXFLG = 0 then .reduce q act
        else if q.parsing then .push q act
        else .done q (if q.iilexeme.ps_sym = TKEOF then 0 else -1)
  | .done q ret => .done q ret

/-- `iiparse`, for `n` rounds. -/
def iirun (n : ℕ) (tokstr : List Byte) (ts : List Token) : Config :=
  (iistep v)^[n] (.push (.start tokstr ts) (ptab.getD 0 0))

/-! ## 4. What the tables say -/

/-- The states that the parser comes to, each with those from which a transition leads to it. -/
def sources : List (ℕ × List ℕ) :=
  [(0o2, []),
    (0o30, [0o2, 0o30, 0o42, 0o54, 0o66, 0o100, 0o160, 0o173, 0o205, 0o221, 0o232, 0o246, 0o302]),
    (0o42, [0o2, 0o30, 0o42, 0o54, 0o66, 0o100, 0o160, 0o173, 0o205, 0o221, 0o232, 0o246, 0o302]),
    (0o54, [0o2]),
    (0o66, [0o2, 0o30, 0o42, 0o54, 0o66, 0o100, 0o160, 0o173, 0o205, 0o221, 0o232, 0o246, 0o302]),
    (0o100, [0o2]),
    (0o110, [0o2]),
    (0o113, [0o2]),
    (0o116, [0o2]),
    (0o121, [0o2, 0o54, 0o100, 0o302]),
    (0o124, [0o2, 0o54, 0o66, 0o100, 0o302]),
    (0o127, [0o2, 0o54, 0o66, 0o100, 0o160, 0o302]),
    (0o132, [0o2, 0o54, 0o66, 0o100, 0o160, 0o173, 0o205, 0o302]),
    (0o136, [0o2, 0o54, 0o66, 0o100, 0o160, 0o173, 0o205, 0o302]),
    (0o140, [0o2, 0o54, 0o66, 0o100, 0o160, 0o173, 0o205, 0o232, 0o302]),
    (0o143, [0o2]),
    (0o146, [0o2]),
    (0o150, [0o54]),
    (0o153, [0o66]),
    (0o160, [0o121, 0o153]),
    (0o173, [0o124, 0o262]),
    (0o205, [0o127, 0o265]),
    (0o221, [0o132, 0o273]),
    (0o232, [0o132]),
    (0o241, [0o136]),
    (0o246, [0o140, 0o270]),
    (0o255, [0o143, 0o150]),
    (0o257, [0o146]),
    (0o262, [0o160]),
    (0o265, [0o173]),
    (0o270, [0o221]),
    (0o273, [0o232]),
    (0o276, [0o255]),
    (0o302, [0o257]),
    (0o312, [0o257]),
    (0o314, [0o302])]

/-- The nonterminals that a state may be left by. -/
def awaited : List (ℕ × List ℕ) :=
  [(0o2, [0, 1, 2, 3, 4, 5, 6, 7, 8, 9, 10, 11, 12, 13]),
    (0o30, [9, 10]),
    (0o42, [9, 10]),
    (0o54, [2, 3, 4, 5, 6, 7, 8, 9, 10, 11, 12]),
    (0o66, [2, 3, 4, 5, 6, 7, 8, 9, 10]),
    (0o100, [2, 3, 4, 5, 6, 7, 8, 9, 10, 11]),
    (0o160, [3, 4, 5, 6, 7, 8, 9, 10]),
    (0o173, [4, 5, 6, 7, 8, 9, 10]),
    (0o205, [5, 6, 7, 8, 9, 10]),
    (0o221, [8, 9, 10]),
    (0o232, [6, 8, 9, 10]),
    (0o246, [9, 10]),
    (0o302, [2, 3, 4, 5, 6, 7, 8, 9, 10, 11])]

/-- The states behind a nonterminal, but for the last. -/
def behind : List ℕ :=
  [0o121, 0o124, 0o127, 0o132, 0o136, 0o140, 0o143, 0o146, 0o150, 0o153, 0o262, 0o265, 0o270, 0o273,
    0o314]

/-- The terminals that the scanner delivers; the latter are the strings and words. -/
def terminals : List ℕ :=
  [0, 1, 2, 3, 4, 5, 6, 7, 8, 9, 10, 11, 12, 13, 14, 15, 16, 17, 18, 19, 20, 21, 22, 23, 101, 127]

def loud : List ℕ := [1, 2, 3, 4, 16, 17, 18, 19, 20, 21, 22, 23, 127]

/-- The state behind the first string of a comparison, and that behind the operator. -/
def AFTERSTR : ℕ := 0o136
def AFTEROP : ℕ := 0o241

def from_ (state : ℕ) : List ℕ := (sources.lookup state).getD []

def awaits (state : ℕ) : List ℕ := (awaited.lookup state).getD []

/-- The states from which `n` transitions lead to a state. -/
def back : ℕ → ℕ → List ℕ
  | 0, state => [state]
  | n + 1, state => (from_ state).flatMap (back n)

/-- A reduction with `n` transitions to pop from a state: it is by a production, whose left part is awaited
where it ends. -/
def Pops (n state act : ℕ) : Prop := act % 256 < semtab.length ∧ ∀ s ∈ back n state, plhs act ∈ awaits s

instance (n state act : ℕ) : Decidable (Pops n state act) :=
  inferInstanceAs (Decidable (_ ∧ ∀ _ ∈ _, _))

/-- A reduction is that of a comparison, of its first string, or of something else. -/
inductive Kind
  | string
  | compare
  | other
  deriving DecidableEq

def kind (act : ℕ) : Kind := if psem act = 14 then .string else if psem act = 16 then .compare else .other

/-- An action on a terminal: a transition, a reduction that reads it, or another reduction. -/
def TerminalOk (s t act : ℕ) : Prop :=
  if act &&& IIXFLG ≠ 0 then
    s ∈ from_ (target act) ∧ target act ∉ behind ∧ (target act = AFTEROP → s = AFTERSTR) ∧ t ≠ TKSTR ∧
      (s = AFTERSTR → t = TKRELOP ∧ target act = AFTEROP) ∧ s ≠ AFTEROP ∧ (s ∈ behind → t ∉ loud)
  else if act &&& IIRFLG ≠ 0 then
    Pops (plen act - 1) s act ∧ (s ∈ behind → t ∉ loud) ∧ s ≠ AFTERSTR ∧
      (if t = TKSTR then if s = AFTEROP then kind act = .compare ∧ plen act = 3
        else kind act = .string ∧ plen act = 1
      else kind act = .other ∧ s ≠ AFTEROP)
  else Pops (plen act) s act ∧ 0 < plen act ∧ kind act = .other ∧ s ≠ AFTERSTR ∧ s ≠ AFTEROP

instance (s t act : ℕ) : Decidable (TerminalOk s t act) := by
  unfold TerminalOk
  infer_instance

/-- An action on a nonterminal: a transition, or a reduction. Number 0 ends the parse. -/
def NonterminalOk (s n act : ℕ) : Prop :=
  if act &&& IIXFLG ≠ 0 then
    n = 0 ∨ s ∈ from_ (target act) ∧ target act ∈ behind ∧ (target act = AFTERSTR ↔ n = 7)
  else Pops (plen act - 1) s act ∧ kind act = .other ∧ n ≠ 7 ∧ n ≠ 0

instance (s n act : ℕ) : Decidable (NonterminalOk s n act) := by
  unfold NonterminalOk
  infer_instance

theorem terminal_ok : ∀ s ∈ sources.map Prod.fst, ∀ t ∈ terminals, ∀ act ∈ iiaction s (.terminal t),
    TerminalOk s t act := by
  decide +kernel

theorem nonterminal_ok : ∀ p ∈ awaited, ∀ n ∈ p.2, ∀ act ∈ iiaction p.1 (.nonterminal n),
    NonterminalOk p.1 n act := by
  decide +kernel

theorem semtab_ok : ∀ k < semtab.length, (semtab.getD k 0 / 256 = 7 ↔ semtab.getD k 0 % 256 = 14) ∧
    (semtab.getD k 0 / 256 = 0 ↔ semtab.getD k 0 % 256 = 1) := by
  decide +kernel

/-- The left part of the first string of a comparison is number 7, and that of routine 1 is 0. -/
theorem Pops.plhs_iff {n state act : ℕ} (h : Pops n state act) :
    (plhs act = 7 ↔ kind act = .string) ∧ (plhs act = 0 ↔ psem act = 1) := by
  obtain ⟨hseven, hzero⟩ := semtab_ok _ h.1
  refine ⟨hseven.trans ?_, hzero⟩
  change psem act = 14 ↔ kind act = .string
  unfold kind
  by_cases hsem : psem act = 14
  · rw [if_pos hsem]
    exact iff_of_true hsem rfl
  · rw [if_neg hsem]
    refine iff_of_false hsem ?_
    split <;> exact Kind.noConfusion

theorem Mark.code_mem (m : Mark) : m.code ∈ terminals ∧ m.code ∉ loud ∧ m.code ≠ TKRELOP := by
  cases m <;> decide

theorem Word.code_mem (w : Word) : w.code ∈ terminals ∧ w.code ∈ loud ∧ w.code ≠ TKSTR ∧ w.code ≠ TKRELOP := by
  cases w <;> decide

theorem Token.mem_terminals (t : Token) : t.ps_sym ∈ terminals := by
  cases t with
  | string s => exact (by decide : TKSTR ∈ terminals)
  | relop op => exact (by decide : TKRELOP ∈ terminals)
  | mark m val => exact m.code_mem.1
  | word w val text => exact w.code_mem.1

theorem mem_keys {l : List (ℕ × List ℕ)} {s n : ℕ} (h : n ∈ (l.lookup s).getD []) :
    ∃ p ∈ l, p.1 = s ∧ n ∈ p.2 := by
  induction l with
  | nil => cases h
  | cons p l ih =>
    rw [List.lookup_cons] at h
    by_cases hs : s = p.1
    · rw [beq_iff_eq.mpr hs] at h
      exact ⟨p, List.mem_cons_self .., hs.symm, h⟩
    · rw [beq_eq_false_iff_ne.mpr hs] at h
      obtain ⟨p', hp', hrest⟩ := ih h
      exact ⟨p', List.mem_cons_of_mem _ hp', hrest⟩

/-! ## 5. The stack -/

/-- The stack leads to a state. -/
def Path : List PsFrame → ℕ → Prop
  | [], s => s = 2
  | f :: iips, s => f.ps_state ∈ from_ s ∧ Path iips f.ps_state

theorem Path.mem {iips : List PsFrame} {s : ℕ} (h : Path iips s) : s ∈ sources.map Prod.fst := by
  cases iips with
  | nil =>
    rw [show s = 2 from h]
    decide
  | cons f iips =>
    obtain ⟨p, hp, rfl, -⟩ := mem_keys h.1
    exact List.mem_map_of_mem hp

/-- What is left of the stack when a production is popped. -/
theorem Path.drop {f pl : PsFrame} {iips rest : List PsFrame} {n : ℕ} (h : Path iips f.ps_state)
    (hdrop : (f :: iips).drop n = pl :: rest) :
    Path rest pl.ps_state ∧ pl.ps_state ∈ back n f.ps_state := by
  induction n generalizing f iips with
  | zero =>
    obtain ⟨rfl, rfl⟩ := List.cons.inj hdrop
    exact ⟨h, List.mem_singleton_self _⟩
  | succ n ih =>
    cases iips with
    | nil =>
      rw [List.drop_succ_cons, List.drop_nil] at hdrop
      cases hdrop
    | cons g iips =>
      obtain ⟨hpath, hback⟩ := ih h.2 hdrop
      exact ⟨hpath, List.mem_flatMap.mpr ⟨g.ps_state, h.1, hback⟩⟩

/-- A reduction that can be carried out on the stack. -/
def Top (iips : List PsFrame) (act : ℕ) : Prop :=
  act % 256 < semtab.length ∧ ∀ f rest, iips = f :: rest →
    Path rest f.ps_state ∧ Pops (plen act - 1) f.ps_state act

/-- A reduction that has not read its last symbol. -/
theorem Path.top {iips : List PsFrame} {s act : ℕ} (h : Path iips s) (hpops : Pops (plen act) s act)
    (hlen : 0 < plen act) : Top iips act := by
  refine ⟨hpops.1, ?_⟩
  rintro f rest rfl
  refine ⟨h.2, hpops.1, fun s' hs' => hpops.2 s' ?_⟩
  obtain ⟨n, hn⟩ := Nat.exists_eq_add_of_lt hlen
  rw [hn, Nat.zero_add] at hs' ⊢
  exact List.mem_flatMap.mpr ⟨f.ps_state, h.1, hs'⟩

end Cpm8000.Asm
