/-
# The second pass of the linker

`p2load` reads a module again: its initialised segments are copied to the object file, and the words
its relocation items name are changed there, through a buffer. With relocation kept, the items are
written out too.
-/
import Cpm8000.Linker.Interlude

namespace Cpm8000.Linker

open Sys

/-- The bytes of a relocation item in a file. -/
def XRel.bytes (r : XRel) : List Byte := [r.x_rl_sgn, r.x_rl_flg] ++ be16 r.x_rl_loc ++ be16 r.x_rl_bas

/-- The bytes of a symbol in a file. -/
def XSym.bytes (y : XSym) : List Byte :=
  [y.x_sy_sg, y.x_sy_fl] ++ be16 y.x_sy_val ++ (y.x_sy_name ++ List.replicate XNAMELN 0).take XNAMELN

/-- What is in the file behind the headers. -/
def XFile.body (f : XFile) : List Byte :=
  f.init ++ f.x_rel.flatMap XRel.bytes ++ f.x_sym.flatMap XSym.bytes

/-- `sizeof( struct x_rel )` -/
def RELSIZ : ℕ := 6

/-- The item at the beginning of some bytes. -/
def rel_of (b : List Byte) : XRel :=
  ⟨b.getD 0 0, b.getD 1 0, b.getD 2 0 ++ b.getD 3 0, b.getD 4 0 ++ b.getD 5 0⟩

/-- The linker's variables in the second pass. `segsiz` and `segpos` are those of the module, indexed by
characters as `segrel` is; a block of the buffer begins at `bpos`, and 1 is no block. -/
structure P2 where
  ld : Ld
  segsiz : ℤ → BitVec 16
  segpos : ℤ → ℕ
  objfile : ℕ → Byte
  objlen : ℕ
  buf : ℕ → Byte
  bpos : ℕ
  blen : ℕ
  dirty : Bool
  relfile : List XRel

/-- `RL_OFF`: a 16 bit offset -/
def X_RL_OFF : Byte := 1

/-- a short form segment plus offset -/
def X_RL_SSG : Byte := 2

/-- a long form segment plus offset -/
def X_RL_LSG : Byte := 3

namespace P2

variable (cc : Compiler) (s : P2)

/-! ## 1. The object file -/

/-- `write( objfile, .. )` at a position -/
def write (pos : ℕ) (b : List Byte) : P2 :=
  { s with
    objfile := fun a => if pos ≤ a ∧ a < pos + b.length then b.getD (a - pos) 0 else s.objfile a
    objlen := if b = [] then s.objlen else max s.objlen (pos + b.length) }

/-- `flshbuf` -/
def flshbuf : P2 :=
  if s.dirty then { s.write s.bpos ((List.range s.blen).map s.buf) with dirty := false, bpos := 1 } else s

/-- `getbuf`: the block `p` is in -/
def getbuf (p : ℕ) : P2 :=
  let p := p / 512 * 512
  if s.bpos ≠ p then
    let s := s.flshbuf
    let blen := min 512 (s.objlen - p)
    { s with
      bpos := p
      blen := blen
      buf := fun a => if a < blen then s.objfile (p + a) else s.buf a }
  else s

/-- The word at a place of the buffer. -/
def word (j : ℕ) : BitVec 16 := s.buf j ++ s.buf (j + 1)

def set_word (j : ℕ) (w : BitVec 16) : P2 :=
  { s with
    buf := Function.update (Function.update s.buf j (w.extractLsb' 8 8)) (j + 1) (w.extractLsb' 0 8)
    dirty := true }

/-! ## 2. Relocation -/

/-- What an item is relocated by: a segment number, an offset, and the base it has afterwards. -/
structure Base where
  seg : Byte
  val : BitVec 16
  bas : BitVec 16

/-- The base of an external item. -/
def external (bas : BitVec 16) : Base :=
  let j := s.ld.symap (s.ld.syms + bas.toNat)
  if s.ld.saverel then ⟨127, 0, BitVec.ofInt 16 ((j : ℤ) - 1)⟩
  else
    let y := s.ld.symtab j
    let k := y.x_sy_sg &&& 0x7f
    ⟨if k ≠ 127 then s.ld.map (s.ld.maps + k.toNat) else 127, y.x_sy_val, bas⟩

/-- The base of an item that refers to a segment of its module. -/
def internal (bas : BitVec 16) : Base :=
  let seg := s.ld.map (s.ld.maps + bas.toInt)
  ⟨seg, s.ld.segrel bas.toInt, if s.ld.saverel then BitVec.ofInt 16 (cc.int_of_char seg) else bas⟩

def base (rl : XRel) : Base :=
  if rl.x_rl_flg &&& 4 ≠ 0 then s.external rl.x_rl_bas else s.internal cc rl.x_rl_bas

/-- `putrel`, with the item as it is in the output. -/
def putrel (rl : XRel) (bas : BitVec 16) : P2 :=
  let k := cc.int_of_char rl.x_rl_sgn
  if s.ld.saverel then
    { s with relfile := s.relfile ++ [⟨s.ld.map (s.ld.maps + k), rl.x_rl_flg,
      rl.x_rl_loc + s.segsiz k, bas⟩] }
  else s

/-- The word of a short segment and an offset. -/
def short_word (seg : Byte) (val : BitVec 16) : BitVec 16 := seg.setWidth 16 <<< 8 ||| val

/-- The first word of a long segment and an offset. -/
def long_word (seg : Byte) : BitVec 16 := 0x8000 ||| seg.setWidth 16 <<< 8

/-- relocate a single item -/
def reloc (rl : XRel) : P2 :=
  let b := s.base cc rl
  let pos := s.segpos (cc.int_of_char rl.x_rl_sgn) + rl.x_rl_loc.toNat
  let s := s.putrel cc rl b.bas
  let s := { s.getbuf pos with dirty := true }
  let j := pos % 512
  if rl.x_rl_flg &&& 3 = X_RL_OFF then s.set_word j (s.word j + b.val)
  else if rl.x_rl_flg &&& 3 = X_RL_SSG then
    let val := b.val + (s.word j &&& 0xff)
    let s := if 255 < val.toNat then { s with ld := s.ld.err } else s
    s.set_word j (short_word b.seg val)
  else if rl.x_rl_flg &&& 3 = X_RL_LSG then
    let s := s.set_word j (long_word b.seg)
    let s := s.getbuf (pos + 2)
    let j := (pos + 2) % 512
    s.set_word j (s.word j + b.val)
  else s

/-- The loop of `p2dorel`, over `n` items. -/
def p2rels : ℕ → List Byte → P2 → Option P2
  | 0, _, s => some s
  | n + 1, rest, s =>
    if rest.length < RELSIZ then none else p2rels n (rest.drop RELSIZ) (s.reloc cc (rel_of rest))

/-- do the entire relocation section of file -/
def p2dorel (n : ℕ) (rest : List Byte) : Option P2 := (p2rels cc n rest s).map flshbuf

/-! ## 3. Modules -/

/-- `p2load` for segment `i` of the module, with the rest of the file. -/
def p2seg (rest : List Byte) (i : ℕ) (xp : XSg) : Option (P2 × List Byte) :=
  let j := (s.ld.map (s.ld.maps + i)).toNat
  let t := s.ld.segtab j
  let t' := { t with segsiz := round (t.segsiz + xp.x_sg_len.toNat) }
  let s := { s with
    segsiz := Function.update s.segsiz i (BitVec.ofNat 16 t.segsiz)
    segpos := Function.update s.segpos i t.segpos
    ld := { s.ld with
      segrel := Function.update s.ld.segrel i (t.segrel + BitVec.ofNat 16 t.segsiz)
      segtab := Function.update s.ld.segtab j t' } }
  if idata xp.x_sg_typ then
    let l := round xp.x_sg_len.toNat % 65536
    if rest.length < l then none
    else
      let s := s.write t.segpos (rest.take l)
      some ({ s with
        bpos := 1
        ld := { s.ld with
          segtab := Function.update s.ld.segtab j { t' with segpos := t.segpos + l } } }, rest.drop l)
  else some (s, rest)

/-- `p2load` goes on to the next module. -/
def p2start : P2 :=
  { s with ld := { s.ld with
      maps := s.ld.modmap s.ld.modno
      syms := s.ld.modsym s.ld.modno
      modno := s.ld.modno + 1 } }

/-- The segments of a module. -/
def p2segs (f : XFile) : Option (P2 × List Byte) :=
  f.x_sg.zipIdx.foldlM (fun s xp => s.1.p2seg s.2 xp.2 xp.1) (s.p2start, f.body)

/-- load one file -/
def p2load (f : XFile) : Option P2 := do
  let r ← s.p2segs f
  r.1.p2dorel cc f.x_rel.length r.2

/-- The second pass over some modules. -/
def p2loads (fs : List XFile) : Option P2 := fs.foldlM (fun s f => s.p2load cc f) s

end P2

/-- The state the second pass begins with. -/
def Layout.pass2 (r : Layout) (buf : ℕ → Byte) : P2 where
  ld := { r.ld with modno := 0 }
  segsiz _ := 0
  segpos _ := 0
  objfile _ := 0
  objlen := 0
  buf := buf
  bpos := 1
  blen := 0
  dirty := false
  relfile := []

end Cpm8000.Linker
