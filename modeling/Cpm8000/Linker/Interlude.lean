/-
# Between the passes

`interlude` gives each output segment its place in the file and its address (`interpos`), and relocates
the symbols of a final, non-segmented link by the addresses.
-/
import Cpm8000.Linker.Pass1

namespace Cpm8000.Linker

open Sys

/-- `XHSIZ` -/
def XHSIZ : ℕ := 16

/-- `sizeof( struct x_sg )` -/
def SGSIZ : ℕ := 4

/-- The state between the passes, with what is given out so far of the file and of the addresses. -/
structure Layout where
  ld : Ld
  objnseg : ℕ
  relpos : ℕ
  relvalc : ℕ
  relval : ℕ

namespace Layout

variable (r : Layout)

def interpos (i : ℕ) : Layout :=
  let t := r.ld.segtab i
  let init := idata t.segtyp
  let code := r.ld.splitid && decide (t.segtyp = X_SG_COD)
  { r with
    ld := { r.ld with
      segtab := Function.update r.ld.segtab i
        { t with
          segpos := if init then r.relpos else t.segpos
          segrel := BitVec.ofNat 16 (if code then r.relvalc else r.relval)
          hiwat := BitVec.ofNat 16 t.segsiz
          segsiz := 0 } }
    relpos := if init then r.relpos + t.segsiz else r.relpos
    relvalc := if code then r.relvalc + t.segsiz else r.relvalc
    relval := if !code && (r.ld.nonseg && !r.ld.saverel) then r.relval + t.segsiz else r.relval }

/-- `if( segtab[i].segsiz ) interpos( i )` -/
def place (i : ℕ) : Layout := if (r.ld.segtab i).segsiz ≠ 0 then r.interpos i else r

end Layout

namespace Ld

/-- A symbol after the additional fix. -/
def fixed (s : Ld) (y : XSym) : XSym :=
  if y.x_sy_fl &&& (X_SY_GLB &&& X_SY_LOC) ≠ 0 ∧ y.x_sy_sg ≠ 255 then
    { y with x_sy_val := y.x_sy_val + (s.segtab y.x_sy_sg.toNat).segrel }
  else y

/-- The additional symbol table fix. -/
def fix (s : Ld) : Ld :=
  if s.nonseg ∧ !s.saverel then
    { s with symtab := fun i => if 1 ≤ i ∧ i < s.symlev then s.fixed (s.symtab i) else s.symtab i }
  else s

/-- Before the segments are placed. -/
def unplaced (s : Ld) : Layout :=
  let s := if !s.nonseg ∨ s.saverel then { s with splitid := false } else s
  let objnseg := (List.range SEGNO).countP fun i => (s.segtab i).segsiz ≠ 0
  ⟨s, objnseg, XHSIZ + objnseg * SGSIZ, 0, 0⟩

/-- The preassigned segments first, then the others. -/
def placed (s : Ld) : Layout :=
  let r := s.prelist.foldl (fun r i => r.place i) s.unplaced
  (List.range SEGNO).foldl (fun r i => r.place i) r

/-- this does the segment allocation in the object file -/
def interlude (s : Ld) : Layout :=
  let r := s.placed
  let ld := if r.relvalc ≥ 65536 then r.ld.err else r.ld
  let ld := if r.relval ≥ 65536 then ld.err else ld
  { r with ld := ld.fix }

end Ld

end Cpm8000.Linker
