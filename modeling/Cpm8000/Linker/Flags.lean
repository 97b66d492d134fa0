/-
# The command line

`pass0` goes through the flags. What is in the linker's memory outside `map`, `segrel` and `segtab` is
whatever it happens to be.
-/
import Cpm8000.Linker.Descr

namespace Cpm8000.Linker

open Sys

/-- A flag that says how to link. `l` of flag `t` is what `setstack` reads, and `d_file` has no file
where that cannot be opened. -/
inductive Flag
  | d (descriptor : List Byte)
  | d_file (file : Option (List Byte))
  | i
  | r
  | t (l : ℤ)
  | s
  | u (name : List Byte)
  | w
  | x
  | bad

/-- What is beside the tables that a character may lead out of. -/
structure Stray where
  map : ℤ → Byte
  segrel : ℤ → BitVec 16
  segtab : ℕ → SegTab

/-- Zeros everywhere. -/
def Stray.zero : Stray := ⟨fun _ => 0, fun _ => 0, fun _ => ⟨0, 0, 0, 0, 0, false⟩⟩

namespace Ld

def initial (stray : Stray) : Ld where
  saverel := false
  nolocal := false
  splitid := false
  strip := false
  stacksiz := 0
  segtab i := if i < SEGNO then ⟨0, 0, 0, 0, 0, false⟩ else stray.segtab i
  prelist := []
  modmap _ := 0
  modsym _ := 0
  modno := 0
  map k := if 0 ≤ k ∧ k < MAPNO then 255 else stray.map k
  mapx := 0
  maps := 0
  symap _ := 0
  symx := 0
  syms := 0
  htab _ _ := none
  hpos := none
  symtab _ := ⟨0, 0, 0, []⟩
  symlev := 1
  segrel k := if 0 ≤ k ∧ k < SEGNO then 0 else stray.segrel k
  seg := false
  nonseg := false
  udefcnt := 0
  errcnt := 0
  posndx _ := 0
  postab _ := 0
  posmax := 0

variable (cc : Compiler) (s : Ld)

def setstack (l : ℤ) : Ld :=
  let l := if l % 2 = 1 then l + 1 else l
  if l < 0 ∨ l > 65536 then s.err else { s with stacksiz := l.toNat }

def set_segtyp (i : ℕ) (typ : Byte) : Ld :=
  { s with segtab := Function.update s.segtab i { s.segtab i with segtyp := typ } }

/-- The case of one flag in `pass0`. -/
def flag : Flag → Option Ld
  | .d descriptor =>
    let r := (Dod.mk s []).dodline cc descriptor
    if r.1 = .errex then none else some r.2.ld
  | .d_file none => some s.err
  | .d_file (some file) =>
    let r := (Dod.mk s []).dodfile cc file
    if .errex ∈ r.1 then none else some r.2.ld
  | .i => some { s with splitid := true }
  | .r => some { s with saverel := true }
  | .t l => some (s.setstack l)
  | .s => some { s with strip := true }
  | .u name =>
    match s.look cc .symhash name with
    | none => none
    | some (s, some _) => some s
    | some (s, none) => do
      let r ← s.install name
      some ((r.1.set_hpos r.2).set_udefcnt (s.udefcnt + 1))
  | .w =>
    some ((((s.set_segtyp 0 X_SG_COD).set_segtyp 1 X_SG_CON).set_segtyp 2 X_SG_DAT).set_segtyp 3 X_SG_BSS)
  | .x => some { s with nolocal := true }
  | .bad => some s.err

def pass0 (stray : Stray) (flags : List Flag) : Option Ld :=
  flags.foldlM (fun s f => s.flag cc f) (initial stray)

end Ld

end Cpm8000.Linker
