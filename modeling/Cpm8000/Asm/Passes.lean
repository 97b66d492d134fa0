/-
# The assembler's two passes

A statement is what the parser makes of a source line, an operand that is missing is `none`. Macros,
repetitions and included files have been expanded: a pass gets the lines in the order in which it comes
to them, the second pass not necessarily the same as the first. The lines of a definition are lines
without a statement. What goes to the listing is left out, as are the symbol blocks of the object file.

`step` is what `dopass` does with a line. It is a sequence of `Move`s of the table (`step_moves`), so
that the invariants of the passes hold of the whole assembly (`assemble_second`).
-/
import Cpm8000.Asm.Symbols
import Cpm8000.Sys.Keeps

namespace Cpm8000.Asm

open Cpm8000.Sys

def RAA16M : BitVec 16 := 0x2000
def RAA32M : BitVec 16 := 0xa000
def RAZOF : BitVec 16 := 0x3000
def SECOM : BitVec 16 := 0x0008
def OPMAX : ℕ := 4
def OBOND : Byte := 11
def OBTRA : Byte := 8

/-! ## 1. Operands -/

def OCNULL : ℕ := 0x00
def OCNEX : ℕ := 0x01
def OCPEX : ℕ := 0x02
def OCEXP : ℕ := 0x03
def OCREG8 : ℕ := 0x04
def OCREG16 : ℕ := 0x05
def OCREG32 : ℕ := 0x06
def OCREG64 : ℕ := 0x07
def OCIMM : ℕ := 0x08
def OCIR : ℕ := 0x09
def OCX : ℕ := 0x0a
def OCBA : ℕ := 0x0b
def OCBX : ℕ := 0x0c
def OCCCODE : ℕ := 0x0d
def OCCFLAG : ℕ := 0x0e
def OCINT : ℕ := 0x0f
def OCCTL : ℕ := 0x10
def OCFLAGS : ℕ := 0x11
def OCIRIO : ℕ := 0x12
def OCREGA : ℕ := 0x13

def OFXMSK : BitVec 16 := 0x0f
def OFSHORT : BitVec 16 := 0x80

/-- `1L << c`. -/
def mask (c : ℕ) : BitVec 32 := 1 <<< c

structure Operand where
  op_cls : BitVec 32
  op_val : BitVec 32
  op_rel : BitVec 16
  op_flg : BitVec 16

/-- What may stand as an operand; registers and keywords come with the value of the symbol. `wide` says
that the base register is a long one. -/
inductive Arg (σ : Type)
  | expr (e : Expr σ)
  | reg8 (r : BitVec 16)
  | reg16 (r : BitVec 16)
  | reg32 (r : BitVec 16)
  | reg64 (r : BitVec 16)
  | imm (e : Expr σ)
  | indexed (e : Expr σ) (r : BitVec 16)
  | ind16 (r : BitVec 16)
  | ind32 (r : BitVec 16)
  | based (wide : Bool) (base : BitVec 16) (e : Expr σ)
  | baseIndexed (wide : Bool) (base : BitVec 16) (r : BitVec 16)
  | ccode (v : BitVec 16)
  | int (v : BitVec 16)
  | ctl (v : BitVec 16)
  | flags (v : BitVec 16)
  | short (e : Expr σ)
  | shortIndexed (e : Expr σ) (r : BitVec 16)
  | bad

variable {σ : Type}

/-- An operand with the value of an expression. -/
def described (cls : BitVec 32) (r : Parse σ) (flg errflg : BitVec 16) : Operand :=
  if r.eflg then ⟨cls, 0, 0, errflg⟩
  else ⟨cls, r.frame.ps_val0, r.frame.ps_val1, r.frame.ps_flg ||| flg⟩

/-- `err('E')`, when the condition holds. -/
def Parse.check (r : Parse σ) (c : Prop) [Decidable c] : Parse σ :=
  if c then { r with flags := r.flags ++ ['E'] } else r

/-- The parser came back without having read a symbol. -/
def Parse.quiet : Parse σ := .value ⟨0, 0, 0⟩

/-- Cases 65 and 66: the base register has the length of an address, and is not register 0. -/
def badBase (segflg wide : Bool) (base : BitVec 16) : Prop := segflg ≠ wide ∨ base = 0

instance (segflg wide : Bool) (base : BitVec 16) : Decidable (badBase segflg wide base) :=
  inferInstanceAs (Decidable (_ ∨ _))

/-- Case 15 and cases 51 to 69. -/
def Arg.sem (segflg : Bool) (eval : Expr σ → Parse σ) : Arg σ → Parse σ × Operand
  | expr e =>
    (eval e, described (mask OCEXP ||| mask (if e.isParen then OCPEX else OCNEX)) (eval e) 0 0)
  | reg8 r => (.quiet, ⟨mask OCREG8, r.setWidth 32, 0, 0⟩)
  | reg16 r =>
    (.quiet,
      ⟨if r &&& 0xff00 ≥ 0x1800 then mask (((r >>> 8) &&& 0xff).toNat - 4)
        else if segflg then mask OCREG16 else mask OCREG16 ||| mask OCREGA,
        (r &&& 0xff).setWidth 32, 0, 0⟩)
  | reg32 r =>
    (.quiet, ⟨if segflg then mask OCREG32 ||| mask OCREGA else mask OCREG32, r.setWidth 32, 0, 0⟩)
  | reg64 r => (.quiet, ⟨mask OCREG64, r.setWidth 32, 0, 0⟩)
  | imm e => (eval e, described (mask OCIMM) (eval e) 0 0)
  | indexed e r => ((eval e).check (r = 0), described (mask OCX) (eval e) r 0)
  | ind16 r =>
    (.quiet, ⟨if segflg then mask OCIRIO else mask OCIRIO ||| mask OCIR, r.setWidth 32, 0, 0⟩)
  | ind32 r => (.quiet, ⟨if segflg then mask OCIR else 0, r.setWidth 32, 0, 0⟩)
  | based wide base e => ((eval e).check (badBase segflg wide base), described (mask OCBA) (eval e) base 0)
  | baseIndexed wide base r =>
    ((Parse.quiet.check (badBase segflg wide base)).check (r = 0), ⟨mask OCBX, r.setWidth 32, 0, base⟩)
  | ccode v =>
    (.quiet, ⟨if 4 ≤ v ∧ v < 8 then mask OCCCODE ||| mask OCCFLAG else mask OCCCODE, v.setWidth 32, 0, 0⟩)
  | int v => (.quiet, ⟨mask OCINT, v.setWidth 32, 0, 0⟩)
  | ctl v => (.quiet, ⟨mask OCCTL, v.setWidth 32, 0, 0⟩)
  | flags v => (.quiet, ⟨mask OCFLAGS, v.setWidth 32, 0, 0⟩)
  | short e => (eval e, described (mask OCX) (eval e) OFSHORT OFSHORT)
  | shortIndexed e r => ((eval e).check (r = 0), described (mask OCX) (eval e) (r ||| OFSHORT) OFSHORT)
  | bad => (.none, ⟨0, 0, 0, 0⟩)

/-! ## 2. Instructions -/

/-- What becomes of an operand. -/
inductive Action
  | OANULL
  | OANIB1
  | OANIB2
  | OANIB3
  | OANIB5
  | OANIB6
  | OANIB7
  | OABYT1
  | OAX2
  | OAX3
  | OABA2
  | OABA3
  | OABX2
  | OABX3
  | OACFLAG
  | OANIB3S
  | OANIB3A
  | OANIB3D
  | OANIB7D
  | OARA7
  | OARA8
  | OARA12
  | OARA16
  | OAIMM8
  | OAIMM16
  | OAIMM32
  | OASHFT

/-- A line of an instruction's table: for each operand the class wanted and the action, two words of
the instruction, and what `FMSKEL2` and `FMNEGI` say. -/
structure Format where
  fm_op : List (ℕ × Action)
  fm_skel : BitVec 16
  fm_flg : BitVec 32

def FMSKEL2 : BitVec 32 := 0x0100
def FMNEGI : BitVec 32 := 0x0200

/-- Every operand is of the class wanted; there are `OPMAX` of both. -/
def opmatch (optab : List Operand) (fmp : Format) : Bool :=
  (fmp.fm_op.zip optab).all fun p => mask p.1.1 &&& p.2.op_cls ≠ 0

/-- The fields of an instruction. -/
structure Fields where
  skel0 : BitVec 16
  skel1 : BitVec 16
  skel2 : BitVec 16
  skel3 : BitVec 16
  srel1 : BitVec 16
  displen : ℕ
  dispval : BitVec 32
  disprel : BitVec 16
  immlen : ℕ
  immval : BitVec 32
  immrel : BitVec 16

def Fields.init (fmp : Format) : Fields where
  skel0 := fmp.fm_skel >>> 8 &&& 0xff
  skel1 := fmp.fm_skel &&& 0xff
  skel2 := (fmp.fm_flg >>> 8 &&& 0xf8).setWidth 16
  skel3 := (fmp.fm_flg &&& 0xff).setWidth 16
  srel1 := 0
  displen := 0
  dispval := 0
  disprel := 0
  immlen := 0
  immval := 0
  immrel := 0

/-- An absolute value from `lo` to `hi`. -/
def within (d : Operand) (v : BitVec 32) (lo hi : ℤ) : Bool :=
  d.op_rel = 0 ∧ lo ≤ v.toInt ∧ v.toInt ≤ hi

/-- An even distance from `lo` to `hi` in the current section. -/
def reaches (em : Emitter) (d : Operand) (v : BitVec 32) (lo hi : ℤ) : Bool :=
  d.op_rel = em.cursec ∧ v &&& 1 = 0 ∧ lo ≤ v.toInt ∧ v.toInt < hi

/-- The low bits of a value, as a word. -/
def low (v m : BitVec 32) : BitVec 16 := (v &&& m).setWidth 16

namespace Fields

variable (w : Fields)

/-- An address, to be put where `long` says whether it takes four bytes. -/
def disp (d : Operand) (long : Bool) : Fields :=
  { w with dispval := d.op_val, disprel := d.op_rel, displen := if long then 4 else 2 }

def imm (len : ℕ) (val : BitVec 32) (rel : BitVec 16) : Fields :=
  { w with immlen := len, immval := val, immrel := rel }

def or1 (b : BitVec 16) : Fields := { w with skel1 := w.skel1 ||| b }

/-- An operand is packed into the instruction; the second part says that it fits. -/
def pack (segflg : Bool) (em : Emitter) (d : Operand) : Action → Fields × Bool
  | .OANULL => (w, true)
  | .OANIB1 => ({ w with skel0 := w.skel0 ||| low d.op_val 0xf }, within d d.op_val 0 15)
  | .OANIB2 => (w.or1 (low d.op_val 0xf <<< 4), within d d.op_val 0 15)
  | .OANIB3 => (w.or1 (low d.op_val 0xf), within d d.op_val 0 15)
  | .OANIB5 => ({ w with skel2 := w.skel2 ||| low d.op_val 0xf }, within d d.op_val 0 15)
  | .OANIB6 => ({ w with skel3 := w.skel3 ||| low d.op_val 0xf <<< 4 }, within d d.op_val 0 15)
  | .OANIB7 => ({ w with skel3 := w.skel3 ||| low d.op_val 0xf }, within d d.op_val 0 15)
  | .OABYT1 => ({ w with skel1 := d.op_val.setWidth 16, srel1 := d.op_rel }, true)
  | .OAX2 =>
    ((w.or1 ((d.op_flg &&& OFXMSK) <<< 4)).disp d (segflg ∧ d.op_flg &&& OFSHORT = 0), true)
  | .OAX3 => ((w.or1 (d.op_flg &&& OFXMSK)).disp d (segflg ∧ d.op_flg &&& OFSHORT = 0), true)
  | .OABA2 => ((w.or1 ((d.op_flg &&& OFXMSK) <<< 4)).disp d false, true)
  | .OABA3 => ((w.or1 (d.op_flg &&& OFXMSK)).disp d false, true)
  | .OABX2 =>
    let w := w.or1 ((d.op_flg &&& OFXMSK) <<< 4)
    ({ w with skel2 := w.skel2 ||| d.op_val.setWidth 16 }, true)
  | .OABX3 =>
    let w := w.or1 (d.op_flg &&& OFXMSK)
    ({ w with skel2 := w.skel2 ||| d.op_val.setWidth 16 }, true)
  | .OACFLAG => (w.or1 (1 <<< d.op_val.toNat), true)
  | .OANIB3S => (w.or1 (low d.op_val 7), within d d.op_val 0 7)
  | .OANIB3A => ({ w with skel1 := w.skel1 &&& (0xf0 ||| d.op_val.setWidth 16) }, true)
  | .OANIB3D => (w.or1 (low (d.op_val - 1) 0xf), within d (d.op_val - 1) 0 15)
  | .OANIB7D =>
    ({ w with skel3 := w.skel3 ||| low (d.op_val - 1) 0xf }, within d (d.op_val - 1) 0 15)
  | .OARA7 =>
    let v := em.curloc + 2 - d.op_val
    (w.or1 ((v.sshiftRight 1).setWidth 16), reaches em d v 0 256)
  | .OARA8 =>
    let v := d.op_val - (em.curloc + 2)
    (w.or1 ((v.sshiftRight 1).setWidth 16), reaches em d v (-256) 256)
  | .OARA12 =>
    let v := em.curloc + 2 - d.op_val
    ({ w with skel0 := w.skel0 ||| low (v.sshiftRight 9) 0xf, skel1 := low (v.sshiftRight 1) 0xff },
      reaches em d v (-4096) 4096)
  | .OARA16 =>
    let v := d.op_val - (em.curloc + 4)
    (w.imm 2 (v &&& 0xffff) 0, d.op_rel = em.cursec ∧ v &&& 1 = 0)
  | .OAIMM8 => (w.imm 1 (d.op_val &&& 0xff) d.op_rel, true)
  | .OAIMM16 => (w.imm 2 (d.op_val &&& 0xffff) d.op_rel, true)
  | .OAIMM32 => (w.imm 4 d.op_val d.op_rel, true)
  | .OASHFT => (if d.op_val = 2 then w.or1 2 else w, within d d.op_val 1 2)

end Fields

/-! ## 3. Statements -/

/-- What `.byte` takes. -/
inductive Item (σ : Type)
  | str (s : List Byte)
  | expr (e : Expr σ)

/-- The statements, the directives by their numbers. `label` is a label without a mnemonic, `undefined`
an unknown mnemonic, `instr` comes with the table of its instruction, and `other` is what changes nothing
here but may report an error. -/
inductive Stmt (σ : Type)
  | label
  | undefined
  | instr (fmp : List Format) (ops : List (Arg σ))
  | ADABS
  | ADALIGN (e : Option (Expr σ))
  | ADBLOCK (e : Option (Expr σ))
  | ADBYTE (l : Option (List (Item σ)))
  | ADCLIST (e : Option (Expr σ))
  | ADCOM
  | ADELSE
  | ADEND (e : Option (Expr σ))
  | ADENDIF
  | ADEQU (e : Option (Expr σ))
  | ADERROR (s : Option (List Char))
  | ADGLOB (l : Option (List σ))
  | ADIF (e : Option (Expr σ))
  | ADLIST (e : Option (Expr σ))
  | ADLONG (l : Option (List (Expr σ)))
  | ADORG (e : Option (Expr σ))
  | ADREPT (e : Option (Expr σ))
  | ADSECT
  | ADSET (e : Option (Expr σ))
  | ADSPACE (e : Option (Expr σ))
  | ADWARN (s : Option (List Char))
  | ADWITHN (e : Option (Expr σ))
  | ADWORD (l : Option (List (Expr σ)))
  | other (flag : Option Char)

/-- A line; `junk` says that the statement does not end it. -/
structure Line (σ : Type) where
  label : Option σ
  stmt : Stmt σ
  junk : Bool

/-- The options, `minaln`, the symbol `__text`, and the symbols in the order of the hash table. -/
structure Setup (σ : Type) where
  segflg : Bool
  uext : Bool
  minaln : BitVec 16
  text : σ
  syhtab : List σ

structure Assembler (σ : Type) where
  tab : Tab σ
  em : Emitter
  condlev : BitVec 16
  truelev : BitVec 16
  secct : BitVec 16
  reading : Bool

abbrev M (σ : Type) := StateT (Assembler σ) Option

/-- `exit(1)`. -/
def exit : M σ Unit := fun _ => none

def only (c : Prop) [Decidable c] (m : M σ Unit) : M σ Unit := if c then m else pure ()

/-- A change of the object output. -/
def emit (f : Emitter → Option Emitter) : M σ Unit :=
  fun s => (f s.em).map fun em => ((), { s with em := em })

/-- `if(pass2) setorg()`. -/
def setorg : M σ Unit := emit fun em => if em.pass2 then em.setorg else some em

def change (f : Assembler σ → Assembler σ) : M σ Unit := modify f

def setloc (curloc : BitVec 32) : M σ Unit := emit fun em => some { em with curloc := curloc }

def err (c : Char) : M σ Unit := modify fun s => { s with tab := s.tab.err s.em.pass2 c }

/-- The symbols an expression read, and the errors met. -/
def Tab.log (t : Tab σ) (pass2 emits : Bool) (r : Parse σ) : Tab σ :=
  (r.flags.foldl (fun t c => t.err pass2 c) t).use pass2 emits r.refs

section Statements

variable (g : Setup σ) [DecidableEq σ]

def assign (label : Option σ) (typ : Typ) (val : BitVec 32) (rel : BitVec 16) : M σ Unit :=
  modify fun s => { s with tab := s.tab.assign s.em.pass2 label typ val rel }

/-- `assign(STLAB,curloc,cursec)`. -/
def place (label : Option σ) : M σ Unit := do
  let s ← get
  assign label .STLAB s.em.curloc s.em.cursec

/-- `if(curloc & 01) curloc++`. -/
def even : M σ Unit := do
  let s ← get
  only (s.em.curloc &&& 1 ≠ 0) (setloc (s.em.curloc + 1))

/-- The parser; `emits` says that the operand goes into emitted code. -/
def iiparse (emits : Bool) (a : Arg σ) : M σ (Parse σ × Operand) :=
  modifyGet fun s =>
    let r := a.sem g.segflg fun e => e.eval s.tab s.em
    (r, { s with tab := s.tab.log s.em.pass2 emits r.1 })

def expression (emits : Bool) (e : Expr σ) : M σ Operand := do
  let r ← iiparse g emits (.expr e)
  if r.1.bad then do
    err 'S'
    pure ⟨0, 0, RBUND, 0⟩
  else pure r.2

/-- The operand of a directive. -/
def operand (emits : Bool) (e : Option (Expr σ)) (f : Operand → M σ Unit) : M σ Unit :=
  match e with
  | none => err 'S'
  | some e => do
    let op ← expression g emits e
    f op

/-- The operands of a directive, one after the other. -/
def operands {ι : Type} (l : Option (List ι)) (f : ι → M σ Unit) : M σ Unit :=
  match l with
  | none => err 'S'
  | some l => l.forM f

/-- After a syntax error the operands that follow are missing. -/
def inops : ℕ → List (Arg σ) → M σ (List Operand)
  | 0, _ => pure []
  | n + 1, [] => do
    let optab ← inops n []
    pure (⟨mask OCNULL, 0, 0, 0⟩ :: optab)
  | n + 1, a :: ops => do
    let r ← iiparse g true a
    if r.1.bad then do
      err 'S'
      let optab ← inops n []
      pure (⟨mask OCNULL, 0, 0, 0⟩ :: optab)
    else do
      let cls := if r.2.op_cls &&& mask OCEXP ≠ 0 then r.2.op_cls ||| mask OCX else r.2.op_cls
      let optab ← inops n ops
      pure ({ r.2 with op_cls := cls } :: optab)

def pack : List (Action × Operand) → Fields → M σ Fields
  | [], w => pure w
  | p :: l, w => do
    let s ← get
    let r := w.pack g.segflg s.em p.2 p.1
    only (r.2 = false) (err 'E')
    pack l r.1

/-- The instruction goes out. -/
def putinstr (fmp : Format) (w : Fields) : M σ Unit := do
  let negi := fmp.fm_flg &&& FMNEGI ≠ 0
  emit fun em => em.emitb w.skel0 0
  emit fun em => em.emitb w.skel1 (RAA8 ||| w.srel1)
  only (fmp.fm_flg &&& FMSKEL2 ≠ 0) do
    emit fun em => em.emitb (if negi then 0xff else w.skel2) 0
    emit fun em => em.emitb (if negi then 0xff else w.skel3) 0
  only (w.displen = 2)
    (emit fun em =>
      if g.segflg then em.emitss (w.dispval.setWidth 16) w.disprel
      else em.emitwm (w.dispval.setWidth 16) (RAA16M ||| w.disprel))
  only (w.displen = 4) (emit fun em => em.emitls w.dispval w.disprel)
  only (w.immlen = 1) do
    emit fun em => em.emitb (w.immval.setWidth 16) (RAA8 ||| w.immrel)
    emit fun em => em.emitb (w.immval.setWidth 16) (RAA8 ||| w.immrel)
  only (w.immlen = 2) do
    only (negi ∧ w.immrel ≠ 0) (err 'E')
    emit fun em => em.emitwm ((if negi then -w.immval else w.immval).setWidth 16)
      ((if g.segflg then RAZOF else RAA16M) ||| w.immrel)
  only (w.immlen = 4)
    (emit fun em =>
      if g.segflg ∧ w.immrel ≠ 0 then em.emitls w.immval w.immrel
      else em.emitlm w.immval (RAA32M ||| w.immrel))

def instr (label : Option σ) (fmp : List Format) (ops : List (Arg σ)) : M σ Unit := do
  even
  place label
  let optab ← inops g OPMAX ops
  match fmp.find? (opmatch optab) with
  | none => err 'O'
  | some fmp => do
    let w ← pack g ((fmp.fm_op.map Prod.snd).zip optab) (Fields.init fmp)
    putinstr g fmp w

def setsec (sec : BitVec 16) : M σ Unit := emit fun em => some (em.setsec sec)

def newsec (label : Option σ) : M σ Unit := do
  let s ← get
  if SECSIZ ≤ s.secct.toNat then exit
  else do
    assign label .STSEC 0 s.secct
    setsec s.secct
    change fun s => { s with secct := s.secct + 1 }
    emit fun em => some { em with curatr := 0, curloc := 0, curaln := g.minaln, curext := 32 }

/-- `.sect` and `.common`: a section met before in this pass, or a new one. -/
def section_ (label : Option σ) (atr : BitVec 16) : M σ Unit :=
  match label with
  | none => err 'L'
  | some sym => do
    let s ← get
    let syp := s.tab.sytab sym
    if syp.sy_typ = .STSEC ∧ (s.em.pass2 = false ∨ syp.SADP2) then setsec syp.sy_rel
    else newsec g (some sym)
    emit fun em => some { em with curatr := em.curatr ||| atr }

def equ (label : Option σ) (symtype : Typ) (e : Option (Expr σ)) : M σ Unit := do
  only (label = none) (err 'L')
  match e with
  | none => err 'S'
  | some e => do
    let r ← iiparse g false (.expr e)
    let s ← get
    if r.1.bad then err 'S'
    else
      only (¬(r.1.eflg || r.1.uflg) ∨ s.em.pass2 = true) (assign label symtype r.2.op_val r.2.op_rel)

/-- `.clist`, `.list`, `.repeat` and `.space`, of which only the errors are here. -/
def control (e : Option (Expr σ)) (bad : Operand → Bool) : M σ Unit :=
  operand g false e fun op => only (bad op) (err 'E')

/-- A power of two, for `.align` and `.within`. -/
def power (op : Operand) : Bool := op.op_rel = RBABS ∧ 0 ≤ op.op_val.toInt ∧ op.op_val.toInt ≤ 32

/-- The next multiple of a power of two. -/
def aligned (curloc : BitVec 32) (i : ℕ) : BitVec 32 :=
  let l : BitVec 32 := -1 <<< i
  (curloc - l - 1) &&& l

/-- The transfer address. -/
def transfer (op : Operand) (em : Emitter) : Option Emitter :=
  if em.pass2 then
    (({ em.oflush with objtyp := OBTRA }).oputl op.op_val).bind fun em => em.oputw op.op_rel
  else some em

/-- `assem1`, once the line is read. -/
def assem1 (label : Option σ) : Stmt σ → M σ Unit
  | .label => place label
  | .undefined => err 'O'
  | .instr fmp ops => instr g label fmp ops
  | .ADABS => do
    setsec 0
    place label
  | .ADALIGN e => operand g false e fun op => do
    if power op then do
      let i := op.op_val.setWidth 16
      emit fun em => some
        { em with
          curaln := if em.curaln < i then i else em.curaln
          curloc := aligned em.curloc i.toNat }
      setorg
    else err 'E'
    place label
  | .ADBLOCK e => do
    place label
    operand g false e fun op =>
      if op.op_rel = RBABS then do
        emit fun em => some { em with curloc := em.curloc + op.op_val }
        setorg
      else err 'E'
  | .ADBYTE l => do
    place label
    operands l fun item =>
      match item with
      | .str s => s.forM fun c => emit fun em => em.emitb (c.setWidth 16) 0
      | .expr e => do
        let op ← expression g true e
        emit fun em => em.emitb (op.op_val.setWidth 16) (RAA8 ||| op.op_rel)
  | .ADCLIST e => control g e fun op => op.op_rel ≠ 0
  | .ADCOM => section_ g label SECOM
  | .ADELSE => do
    let s ← get
    if s.truelev ≠ 0 then change fun s => { s with truelev := s.truelev - 1 }
    else err 'C'
  | .ADEND e => do
    match e with
    | none => pure ()
    | some e => do
      let op ← expression g true e
      emit (transfer op)
    change fun s => { s with reading := false }
  | .ADENDIF => do
    let s ← get
    if s.condlev ≠ 0 then
      change fun s => { s with condlev := s.condlev - 1, truelev := s.truelev - 1 }
    else err 'C'
  | .ADEQU e => equ g label .STLAB e
  | .ADERROR s => operands s err
  | .ADGLOB l => operands l fun sym => change fun s => { s with tab := s.tab.global sym }
  | .ADIF e => do
    change fun s => { s with condlev := s.condlev + 1 }
    operand g false e fun op =>
      if op.op_rel ≠ 0 then err 'E'
      else only (op.op_val ≠ 0) (change fun s => { s with truelev := s.truelev + 1 })
  | .ADLIST e => control g e fun op => op.op_rel ≠ 0
  | .ADLONG l => do
    even
    place label
    operands l fun e => do
      let op ← expression g true e
      emit fun em =>
        if g.segflg ∧ op.op_rel ≠ 0 then em.emitls op.op_val op.op_rel
        else em.emitlm op.op_val (RAA32M ||| op.op_rel)
  | .ADORG e => operand g false e fun op => do
    let s ← get
    if op.op_rel = s.em.cursec then do
      setloc op.op_val
      assign label .STLAB op.op_val op.op_rel
      setorg
    else err 'E'
  | .ADREPT e => control g e fun op => op.op_rel ≠ RBABS ∨ 255 < op.op_val.toInt
  | .ADSECT => section_ g label 0
  | .ADSET e => equ g label .STVAR e
  | .ADSPACE e => only e.isSome (control g e fun op => op.op_rel ≠ RBABS)
  | .ADWARN s => operands s fun c => change fun s => { s with tab := s.tab.warn s.em.pass2 c }
  | .ADWITHN e => operand g false e fun op => do
    if power op then
      emit fun em => some
        { em with
          curext := if op.op_val.setWidth 16 < em.curext then op.op_val.setWidth 16 else em.curext }
    else err 'E'
    place label
  | .ADWORD l => do
    even
    place label
    operands l fun e => do
      let op ← expression g true e
      emit fun em => em.emitwm (op.op_val.setWidth 16)
        ((if g.segflg then RAZOF else RAA16M) ||| op.op_rel)
  | .other flag => operands (some flag.toList) err

omit [DecidableEq σ] in
/-- `skip1`, of a line under a condition that does not hold. -/
def skip1 : Stmt σ → M σ Unit
  | .ADIF _ => change fun s => { s with condlev := s.condlev + 1 }
  | .ADELSE =>
    change fun s => if s.truelev = s.condlev - 1 then { s with truelev := s.truelev + 1 } else s
  | .ADENDIF => change fun s => { s with condlev := s.condlev - 1 }
  | _ => pure ()

/-- A line of a pass, skipped or assembled. -/
def line (l : Line σ) : M σ Unit := do
  let s ← get
  if s.condlev > s.truelev then skip1 l.stmt
  else do
    assem1 g l.label l.stmt
    only (l.junk = true) (err 'S')

def step (l : Line σ) : M σ Unit := do
  line g l
  change fun s => { s with tab := s.tab.putline }

def statements : List (Line σ) → M σ Unit
  | [] => pure ()
  | l :: ls => do
    step g l
    let s ← get
    only (s.reading = true) (statements ls)

def dopass (ls : List (Line σ)) : M σ Unit := do
  change fun s =>
    { s with
      condlev := 0
      truelev := 0
      reading := true
      secct := 1
      em :=
        { s.em with
          curatr := 0
          curloc := 0
          cursec := 0
          curaln := g.minaln
          curext := 32
          sectab := Function.update s.em.sectab 0 { s.em.sectab 0 with se_loc := 0 } } }
  newsec g (some g.text)
  statements g ls
  setsec 0

/-- Undefined symbols become externals, numbered from `rel` on. -/
def interlude : List σ → BitVec 16 → M σ Unit
  | [], _ => pure ()
  | sym :: l, rel => do
    let s ← get
    let syp := s.tab.sytab sym
    if syp.sy_typ = .STUND ∧ (syp.SAGLO ∨ g.uext) then
      if RBMSK ≤ rel then exit
      else do
        let ext := { syp with sy_typ := .STLAB, SAGLO := true, sy_val := 0, sy_rel := rel }
        change fun s => { s with tab := s.tab.set sym ext }
        interlude l (rel + 1)
    else interlude l rel

/-- `main`, up to the end of the object file; `first` and `second` are what the passes come to. -/
def assemble (first second : List (Line σ)) : M σ Unit := do
  dopass g first
  interlude g g.syhtab RBEXT
  emit fun em => some { em with pass2 := true }
  dopass g second
  emit fun em => some (Emitter.oflush { em.oflush with objtyp := OBOND })

end Statements

end Cpm8000.Asm
