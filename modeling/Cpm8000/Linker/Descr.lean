/-
# Segment descriptors

The flag `-d` has a descriptor, or the name of a file of them. `dodline` reads one: a type and the
numbers of the segments that have it, or a number with types and with the names of the segments that
go there. What it reads and writes by index is logged.
-/
import Cpm8000.Linker.Pass1

namespace Cpm8000.Linker

open Sys

/-! ## 1. The state -/

/-- An access to one of the arrays, by its index. -/
inductive Access
  | segtab (i : ℕ)
  | prelist (i : ℕ)
  | idbuf (i : ℕ)
  | line (i : ℕ)
  deriving DecidableEq

structure Dod where
  ld : Ld
  log : List Access

/-- How a descriptor ends: at a `return`, at `illdesc`, or with the program. -/
inductive Verdict
  | accepted
  | illdesc
  | errex
  deriving DecidableEq

namespace Ld

/-- `install`: a new symbol, undefined so far. -/
def install (s : Ld) (name : List Byte) : Option (Ld × ℕ) :=
  if s.symlev ≥ SYMNO then none
  else
    let y := { s.symtab s.symlev with
      x_sy_sg := 255
      x_sy_fl := X_SY_UNX
      x_sy_name := name.take XNAMELN }
    some ({ s with symtab := Function.update s.symtab s.symlev y, symlev := s.symlev + 1 }, s.symlev)

/-- The symbol of a segment name, installed where there is none. -/
def segname (cc : Compiler) (s : Ld) (name : List Byte) : Option (Ld × ℕ) :=
  match s.look cc .seghash name with
  | none => none
  | some (s, some j) => some (s, j)
  | some (s, none) => (s.install name).map fun r => (r.1.set_hpos r.2, r.2)

end Ld

/-- The string constants, as characters. -/
def chars (s : List Char) : List Byte := s.map fun c => BitVec.ofNat 8 c.toNat

def islower (c : Byte) : Bool := 0x61 ≤ c ∧ c ≤ 0x7a
def isupper (c : Byte) : Bool := 0x41 ≤ c ∧ c ≤ 0x5a
def isalpha (c : Byte) : Bool := islower c || isupper c
def isdigit (c : Byte) : Bool := 0x30 ≤ c ∧ c ≤ 0x39

/-- `while( isdigit( *s ) ) i = i*10 + *s++ - '0'` -/
def number (i : BitVec 16) : List Byte → BitVec 16 × List Byte
  | [] => (i, [])
  | c :: s => if isdigit c then number (i * 10 + c.setWidth 16 - 0x30) s else (i, c :: s)

namespace Dod

variable (d : Dod)

def touch (l : List Access) : Dod := { d with log := d.log ++ l }

/-- `segtab[i].segtyp = newtyp(segtab[i].segtyp, typ)` -/
def merge (i : ℕ) (typ : Byte) : Dod :=
  let t := d.ld.segtab i
  { d with ld := { d.ld with
    segtab := Function.update d.ld.segtab i { t with segtyp := newtyp t.segtyp typ } } }

def dodset (i : ℕ) (typ : Byte) : Dod :=
  let d := d.touch [.segtab i]
  let d : Dod :=
    if (d.ld.segtab i).segalloc then d
    else
      let t := d.ld.segtab i
      { ld := { d.ld with
          prelist := d.ld.prelist ++ [i]
          segtab := Function.update d.ld.segtab i { t with segalloc := true } }
        log := d.log ++ [.prelist d.ld.prelist.length] }
  if typ ≠ 0 then d.merge i typ else d

/-! ## 2. A type and its segments -/

/-- The numbers `i` takes on its way to `k`. -/
def span (i k : ℕ) : List ℕ :=
  if i ≤ k then List.range' i (k + 1 - i) else (List.range' k (i + 1 - k)).reverse

/-- The test of a number of this format. -/
def inTable (i : BitVec 16) : Bool := !(i.slt 0) && !((128 : BitVec 16).slt i)

/-- The loop over the numbers, from the character after `=` or a comma on. -/
def dodlist (typ : Byte) : ℕ → List Byte → Dod → Verdict × Dod
  | 0, _, d => (.illdesc, d)
  | fuel + 1, s, d =>
    if !isdigit (s.headD 0) then (.illdesc, d)
    else
      let i := (number 0 s).1
      let s := (number 0 s).2
      if s.headD 0 = 0x2d ∧ !isdigit (s.tail.headD 0) then (.illdesc, d)
      else
        let k := if s.headD 0 = 0x2d then (number 0 s.tail).1 else i
        let s := if s.headD 0 = 0x2d then (number 0 s.tail).2 else s
        if !inTable i ∨ !inTable k then (.illdesc, d)
        else
          let d := (span i.toNat k.toNat).foldl (fun d i => d.dodset i typ) d
          if s.headD 0 = 0x2c then dodlist typ fuel s.tail d
          else if s.headD 0 ≠ 0 then (.illdesc, d)
          else (.accepted, d)

/-- The type a name of this format is for; 0 for none. -/
def type_name (idbuf : List Byte) : Byte :=
  if idmatch idbuf (chars ['t', 'e', 'x', 't']) then X_SG_COD
  else if idmatch idbuf (chars ['d', 'a', 't', 'a']) then X_SG_DAT
  else if idmatch idbuf (chars ['b', 's', 's']) then X_SG_BSS
  else if idmatch idbuf (chars ['c', 'o', 'n', 's']) then X_SG_CON
  else 0

/-- A descriptor that begins with a letter. -/
def dodtype (s : List Byte) : Verdict × Dod :=
  let idbuf := (s.takeWhile isalpha).take XNAMELN
  let d := d.touch ((List.range XNAMELN).map .idbuf)
  let typ := type_name idbuf
  let s := s.dropWhile isalpha
  if typ = 0 then (.illdesc, d)
  else if s.headD 0 ≠ 0x3d then (.illdesc, d)
  else dodlist typ s.length s.tail d

/-! ## 3. A segment and its names -/

/-- The type a letter stands for; 0 for none. -/
def type_letter (c : Byte) : Byte :=
  if c = 0x54 ∨ c = 0x74 then X_SG_COD
  else if c = 0x44 ∨ c = 0x64 then X_SG_DAT
  else if c = 0x43 ∨ c = 0x63 then X_SG_CON
  else if c = 0x42 ∨ c = 0x62 then X_SG_BSS
  else 0

/-- The loop over the types; the rest of the string, none where the descriptor is refused. -/
def dodtypes (i : ℕ) : Dod → List Byte → Dod × Option (List Byte)
  | d, 0x2c :: c :: s => if type_letter c = 0 then (d, none) else dodtypes i (d.dodset i (type_letter c)) s
  | d, s => if s.headD 0 = 0x2c then (d, none) else (d, some s)

/-- The type the name of a segment gives it; 0 for none. -/
def segment_type (idbuf : List Byte) : Byte :=
  if idmatch idbuf (chars ['_', 't', 'e', 'x', 't']) then X_SG_COD
  else if idmatch idbuf (chars ['_', 'd', 'a', 't', 'a']) then X_SG_DAT
  else if idmatch idbuf (chars ['_', 'b', 's', 's']) then X_SG_BSS
  else if idmatch idbuf (chars ['_', 'c', 'o', 'n', 's']) then X_SG_CON
  else 0

/-- The symbol `j` of a name is for segment `i`, unless it is for another. -/
def assign (i : ℕ) (name : List Byte) (j : ℕ) : Verdict × Dod :=
  let y := d.ld.symtab j
  let sg := y.x_sy_sg &&& 0x7f
  if sg ≠ 127 ∧ sg.toNat ≠ i then (.illdesc, { d with ld := d.ld.err })
  else
    let y := { y with x_sy_sg := BitVec.ofNat 8 i, x_sy_fl := X_SY_SEG }
    let d := { d with ld := { d.ld with symtab := Function.update d.ld.symtab j y } }
    let typ := segment_type name
    (.accepted, if typ ≠ 0 then (d.touch [.segtab i]).merge i typ else d)

/-- One name. -/
def dodname (cc : Compiler) (i : ℕ) (name : List Byte) : Verdict × Dod :=
  let d := d.touch ((List.range (max name.length XNAMELN)).map .idbuf)
  match d.ld.segname cc name with
  | none => (.errex, d)
  | some (s, j) => assign { d with ld := s } i name j

/-- The loop over the names, of which there is one at least. -/
def dodnames (cc : Compiler) (i : ℕ) : ℕ → List Byte → Dod → Verdict × Dod
  | 0, _, d => (.accepted, d)
  | fuel + 1, s, d =>
    let name := s.takeWhile fun c => c ≠ 0x2c
    let s := s.dropWhile fun c => c ≠ 0x2c
    match d.dodname cc i name with
    | (.accepted, d) => if s.headD 0 = 0x2c then dodnames cc i fuel s.tail d else (.accepted, d)
    | r => r

/-- A descriptor that begins with a digit. -/
def dodsegment (cc : Compiler) (s : List Byte) : Verdict × Dod :=
  let i := (number 0 s).1
  let s := (number 0 s).2
  if i.slt 0 ∨ !(i.slt 128) then (.illdesc, d)
  else
    match d.dodtypes i.toNat s with
    | (d, none) => (.illdesc, d)
    | (d, some s) =>
      let d := d.dodset i.toNat 0
      if s = [] then (.accepted, d)
      else if s.headD 0 ≠ 0x3d then (.illdesc, d)
      else d.dodnames cc i.toNat s.length s.tail

/-- One descriptor, a string without zeros; `illdesc` reports it. -/
def dodline (cc : Compiler) (s : List Byte) : Verdict × Dod :=
  let r :=
    if isalpha (s.headD 0) then d.dodtype s
    else if !isdigit (s.headD 0) then (.illdesc, d)
    else d.dodsegment cc s
  if r.1 = .illdesc then (r.1, { r.2 with ld := r.2.ld.err }) else r

/-! ## 4. A file of descriptors -/

/-- The loop of `dodfile`, with what is in `line` so far; the verdicts of the lines. -/
def dodfile_loop (cc : Compiler) : List Byte → List Byte → Dod → List Verdict × Dod
  | [], _, d => ([], d)
  | c :: s, line, d =>
    if c = 0x20 then dodfile_loop cc s line d
    else
      let d := d.touch [.line line.length]
      if c = 0x0a then
        let r := d.dodline cc (line.takeWhile fun c => c ≠ 0)
        if r.1 = .errex then ([.errex], r.2)
        else
          let rest := dodfile_loop cc s [] r.2
          (r.1 :: rest.1, rest.2)
      else dodfile_loop cc s (line ++ [c]) d

def dodfile (cc : Compiler) (file : List Byte) : List Verdict × Dod := dodfile_loop cc file [] d

end Dod

end Cpm8000.Linker
