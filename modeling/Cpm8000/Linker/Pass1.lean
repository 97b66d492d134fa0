/-
# The first pass of the linker

`pass1` goes through the files. Of each module it places the segments (`p1doseg`) and enters the
symbols (`p1dosym`); a member of a library is loaded when it defines a symbol that is missing. Then it
allocates the common symbols and the stack.

A function that may end the program through `errex` returns `none` there; `err` counts the others.
-/
import Cpm8000.Linker.Tables

namespace Cpm8000.Linker

open Sys

/-! ## 1. The state -/

/-- The two hash tables of symbol numbers: segment names, and external names. -/
inductive Htab
  | seghash
  | symhash
  deriving DecidableEq

def Htab.size : Htab → ℕ
  | seghash => SEGHASH
  | symhash => SYMHASH

structure SegTab where
  segsiz : ℕ
  segpos : ℕ
  hiwat : BitVec 16
  segrel : BitVec 16
  segtyp : Byte
  segalloc : Bool

/-- The linker's variables. `map` and `segrel` are indexed by characters, which may lead outside
them, and `symtab` is what is below `symlev`. -/
structure Ld where
  saverel : Bool
  nolocal : Bool
  splitid : Bool
  strip : Bool
  stacksiz : ℕ
  segtab : ℕ → SegTab
  /-- The first `prex` entries. -/
  prelist : List ℕ
  modmap : ℕ → ℕ
  modsym : ℕ → ℕ
  modno : ℕ
  map : ℤ → Byte
  mapx : ℕ
  maps : ℕ
  symap : ℕ → ℕ
  symx : ℕ
  syms : ℕ
  htab : Htab → ℕ → Option ℕ
  /-- Where in the hash table sym is to go; none for a place outside. -/
  hpos : Option (Htab × ℕ)
  symtab : ℕ → XSym
  symlev : ℕ
  segrel : ℤ → BitVec 16
  seg : Bool
  nonseg : Bool
  udefcnt : ℤ
  errcnt : ℕ
  posndx : ℕ → ℤ
  postab : ℕ → ℕ
  posmax : ℕ

/-- A symbol whose value becomes that of another, if that is greater. -/
def raised (z y : XSym) : XSym := if z.x_sy_val < y.x_sy_val then { z with x_sy_val := y.x_sy_val } else z

namespace Ld

variable (cc : Compiler) (s : Ld)

def err : Ld := { s with errcnt := s.errcnt + 1 }

/-- `lookup`, with the place it leaves in `hpos` where the name is not there. -/
def look (t : Htab) (name : List Byte) : Option (Ld × Option ℕ) :=
  match lookup cc t.size (s.htab t) s.symtab name with
  | .found j => some (s, some j)
  | .vacant i => some ({ s with hpos := some (t, i) }, none)
  | .full => none

/-- `*hpos = j` -/
def set_hpos (j : ℕ) : Ld :=
  match s.hpos with
  | none => s
  | some (t, i) => { s with htab := Function.update s.htab t (Function.update (s.htab t) i (some j)) }

/-- `*hpos = symlev; symtab[ symlev++ ] = y` -/
def enter (y : XSym) : Ld :=
  let s := s.set_hpos s.symlev
  { s with symtab := Function.update s.symtab s.symlev y, symlev := s.symlev + 1 }

/-! ## 2. Segments -/

/-- find a segment to fit this in -/
def findseg (typ : Byte) (siz : BitVec 16) : Option ℕ :=
  let fits (i : ℕ) : Bool :=
    oktyp (s.segtab i).segtyp typ && decide ((s.segtab i).segsiz + siz.toNat < 65536)
  match s.prelist.find? fits with
  | some i => some i
  | none => (List.range SEGNO).find? fun i => fits i && !(s.segtab i).segalloc

/-- The first loop of `p1doseg`, for symbol `i` of the module: the preallocated segments. -/
def p1pre (i : ℕ) (y : XSym) : Option Ld :=
  if y.x_sy_fl = X_SY_SEG then
    match s.look cc .seghash y.x_sy_name with
    | none => none
    | some (s, none) => some s
    | some (s, some j) => some
      { s with
        map := Function.update s.map (s.maps + cc.int_of_char y.x_sy_sg) (s.symtab j).x_sy_sg
        symap := Function.update s.symap (s.syms + i) j }
  else some s

/-- The segment a header asks for: its number, or one that is found for it. -/
def target (xp : XSg) : Option ℕ :=
  let j := (xp.x_sg_no &&& 0x7f).toNat
  if j = 127 then s.findseg xp.x_sg_typ xp.x_sg_len else some j

/-- The second loop of `p1doseg`, for segment `k` of the module. -/
def p1seg (k : ℕ) (xp : XSg) : Option Ld :=
  match s.target xp with
  | none => none
  | some j =>
    let t := s.segtab j
    let segsiz := t.segsiz + xp.x_sg_len.toNat
    some { s with
      segtab := Function.update s.segtab j
        { t with segtyp := newtyp t.segtyp xp.x_sg_typ, segsiz := round segsiz }
      map := Function.update s.map (s.maps + k) (BitVec.ofNat 8 j)
      segrel := Function.update s.segrel k (BitVec.ofNat 16 t.segsiz)
      errcnt := if segsiz ≥ 65536 then s.errcnt + 1 else s.errcnt }

/-- The head of `p1doseg`: the module gets its part of `map` and of `symap`. -/
def p1start (f : XFile) : Option Ld :=
  if s.modno ≥ MODNO then none
  else
    let mapx := s.mapx + f.x_sg.length
    let symx := s.symx + f.x_sym.length
    if mapx > MAPNO ∨ symx > SYMPNO then none
    else some { s with
      maps := s.mapx
      syms := s.symx
      modmap := Function.update s.modmap s.modno s.mapx
      modsym := Function.update s.modsym s.modno s.symx
      modno := s.modno + 1
      mapx := mapx
      symx := symx }

def p1doseg (f : XFile) : Option Ld := do
  let s ← s.p1start f
  let s ← f.x_sym.zipIdx.foldlM (fun s y => s.p1pre cc y.2 y.1) s
  f.x_sg.zipIdx.foldlM (fun s xp => s.p1seg xp.2 xp.1) s

/-! ## 3. Symbols -/

/-- A symbol of the module, relocated by entry `k` of the module's tables. -/
def relocated (k : ℤ) (y : XSym) : XSym :=
  { y with x_sy_val := y.x_sy_val + s.segrel k, x_sy_sg := s.map (s.maps + k) }

/-- A local symbol, as it is entered: relocated in a final link, but not if it is absolute. -/
def local_sym (y : XSym) : XSym :=
  let k := y.x_sy_sg.toNat
  if !s.saverel ∧ k ≠ 255 then s.relocated k y else y

/-- A global symbol, as it is entered. -/
def global_sym (y : XSym) : XSym := s.relocated (cc.int_of_char y.x_sy_sg) y

/-- `*syp = k` -/
def set_symap (i k : ℕ) : Ld := { s with symap := Function.update s.symap (s.syms + i) k }

/-- `symtab[ k ] = z` -/
def set_sym (k : ℕ) (z : XSym) : Ld := { s with symtab := Function.update s.symtab k z }

def set_udefcnt (n : ℤ) : Ld := { s with udefcnt := n }

/-- `hpos = &discard` -/
def discard : Ld := { s with hpos := none }

/-- The loop of `p1dosym`, for symbol `i` of the module. -/
def p1sym (i : ℕ) (y : XSym) : Option Ld :=
  let s := s.set_symap i s.symlev
  if y.x_sy_fl = X_SY_SEG then
    match s.look cc .seghash y.x_sy_name with
    | none => none
    | some (s, none) => some (s.enter y)
    | some (s, some k) => some (s.set_symap i k)
  else if y.x_sy_fl = X_SY_LOC then
    if s.nolocal then some s.discard else some (s.discard.enter (s.local_sym y))
  else if y.x_sy_fl = X_SY_UNX then
    match s.look cc .symhash y.x_sy_name with
    | none => none
    | some (s, none) => some ((s.set_udefcnt (s.udefcnt + 1)).enter y)
    | some (s, some k) => some ((s.set_sym k (raised (s.symtab k) y)).set_symap i k)
  else if y.x_sy_fl = X_SY_GLB then
    match s.look cc .symhash y.x_sy_name with
    | none => none
    | some (t, none) => some (t.enter (s.global_sym cc y))
    | some (t, some k) =>
      let t := t.set_symap i k
      if (t.symtab k).x_sy_fl = X_SY_UNX then
        some ((t.set_udefcnt (t.udefcnt - 1)).set_sym k (s.global_sym cc y))
      else some t.err
  -- another kind is entered where the last search ended
  else some (s.enter y)

def p1dosym (f : XFile) : Option Ld := f.x_sym.zipIdx.foldlM (fun s y => s.p1sym cc y.2 y.1) s

/-- The segments and the symbols of a module. -/
def p1module (f : XFile) : Option Ld := do
  let s ← s.p1doseg cc f
  s.p1dosym cc f

def p1load (f : XFile) : Option Ld :=
  if f.x_magic &&& 0xfff0 ≠ X_SU_MAGIC then some s.err
  else if f.x_magic &&& 0xf < X_NU_MAGIC &&& 0xf then
    if s.nonseg then some s.err else { s with seg := true }.p1module cc f
  else if s.seg then some s.err
  else { s with nonseg := true }.p1module cc f

/-! ## 4. Files -/

/-- A file of a library, and the size its header gives. -/
structure Member where
  file : XFile
  ar8k_size : ℕ

/-- A file of the command line. -/
inductive Input
  /-- It cannot be opened, or ends too soon. -/
  | unreadable
  | object (f : XFile)
  | archive (l : List Member)

/-- `sizeof( ar8k_hd )` -/
def AR8SIZ : ℕ := 26

/-- The test of `symread`: the symbols of a file fit into the table. -/
def symread (f : XFile) : Bool := decide (s.symlev + f.x_sym.length ≤ SYMNO)

/-- The loop of `trysim`. -/
def trysim_loop : Ld → List XSym → Option (Ld × Bool)
  | s, [] => some (s, false)
  | s, y :: l =>
    if y.x_sy_fl = X_SY_GLB then
      match s.look cc .symhash y.x_sy_name with
      | none => none
      | some (s, some k) =>
        if (s.symtab k).x_sy_fl = X_SY_UNX then some (s, true) else trysim_loop s l
      | some (s, none) => trysim_loop s l
    else trysim_loop s l

/-- check a file to see if it should be loaded -/
def trysim (f : XFile) : Option (Ld × Bool) :=
  if s.seg ∧ f.x_magic ≠ X_SU_MAGIC ∧ f.x_magic ≠ X_SX_MAGIC then some (s, false)
  else if s.nonseg ∧ (f.x_magic = X_SU_MAGIC ∨ f.x_magic = X_SX_MAGIC) then some (s, false)
  else if s.symread f then s.trysim_loop cc f.x_sym
  else none

/-- The loop of `p1entry` over the members of library `n`, of which the next begins at `fpos`. -/
def p1archive (n : ℕ) : Ld → ℕ → List Member → Option Ld
  | s, _, [] => some (if s.posndx n > 0 then { s with posmax := s.posmax + 1 } else s)
  | s, fpos, m :: l =>
    match s.trysim cc m.file with
    | none => none
    | some (s, true) =>
      let posndx := if s.posndx n ≤ 0 then Function.update s.posndx n (s.posmax + 1) else s.posndx
      let s := { s with
        posndx := posndx
        posmax := s.posmax + 1
        postab := Function.update s.postab (s.posmax + 1) (fpos + AR8SIZ) }
      match s.p1load cc m.file with
      | none => none
      | some s =>
        if s.udefcnt = 0 then some s
        else p1archive n s (round (fpos + (AR8SIZ + m.ar8k_size))) l
    | some (s, false) => p1archive n s (round (fpos + (AR8SIZ + m.ar8k_size))) l

/-- process file # n -/
def p1entry (n : ℕ) : Input → Option Ld
  | .unreadable => some s.err
  | .archive l => if s.udefcnt = 0 then some s else p1archive cc n s 2 l
  | .object f =>
    if s.symread f then { s with posndx := Function.update s.posndx n (-1) }.p1load cc f else none

def p1files (files : List Input) : Option Ld :=
  files.zipIdx.foldlM (fun s f => s.p1entry cc f.2 f.1) s

/-! ## 5. Common symbols and the stack -/

/-- A common symbol gets its place in a BSS segment. -/
def p1common (i : ℕ) : Option Ld :=
  let y := s.symtab i
  let k := y.x_sy_val
  if y.x_sy_fl = X_SY_UNX ∧ k ≠ 0 then
    match s.findseg X_SG_BSS k with
    | none => none
    | some j =>
      let t := s.segtab j
      let segsiz := if k.toNat > 1 then round t.segsiz else t.segsiz
      some { s with
        segtab := Function.update s.segtab j
          { t with segtyp := newtyp t.segtyp X_SG_BSS, segsiz := segsiz + k.toNat }
        symtab := Function.update s.symtab i
          { y with
            x_sy_val := BitVec.ofNat 16 segsiz
            x_sy_fl := X_SY_GLB
            x_sy_sg := BitVec.ofNat 8 j }
        udefcnt := s.udefcnt - 1 }
  else some s

def p1commons : Option Ld :=
  if !s.saverel ∧ s.udefcnt ≠ 0 then (List.range' 1 (s.symlev - 1)).foldlM (fun s i => s.p1common i) s
  else some s

def p1round : Ld :=
  { s with
    segtab := fun i =>
      if i < SEGNO then { s.segtab i with segsiz := round (s.segtab i).segsiz } else s.segtab i }

/-- allocate a stack segment -/
def p1stack : Option Ld :=
  if s.stacksiz ≠ 0 then
    match s.findseg X_SG_STK (BitVec.ofNat 16 s.stacksiz) with
    | none => none
    | some j =>
      let t := s.segtab j
      some { s with
        segtab := Function.update s.segtab j
          { t with segtyp := newtyp t.segtyp X_SG_STK, segsiz := t.segsiz + s.stacksiz } }
  else some s

def pass1 (files : List Input) : Option Ld := do
  let s ← s.p1files cc files
  let s ← s.p1commons
  s.p1round.p1stack

end Ld

end Cpm8000.Linker
