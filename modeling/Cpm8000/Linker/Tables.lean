/-
# The linker's tables

Object modules in x.out format, as `ld8k` reads them, and its tables of segment types and of names.
A file that ends too soon is not one of these; the linker reports it as it does one that cannot be
opened.
-/
import Cpm8000.Sys.Bytes
import Cpm8000.Sys.Probe

namespace Cpm8000.Linker

open Sys

/-- max allowable modules per load -/
def MODNO : ℕ := 256

/-- max map entries per load -/
def MAPNO : ℕ := 512

/-- total number of symbols in all modules -/
def SYMPNO : ℕ := 4096

/-- max number of segments per module -/
def SEGNO : ℕ := 128

/-- max number of symbols (total!) -/
def SYMNO : ℕ := 2048

/-- max number of segment names -/
def SEGHASH : ℕ := 128

/-- max number of external symbols -/
def SYMHASH : ℕ := 1024

/-- length of a symbol -/
def XNAMELN : ℕ := 8

/-! ## 1. The x.out format -/

structure XSg where
  x_sg_no : Byte
  x_sg_typ : Byte
  x_sg_len : BitVec 16
  deriving DecidableEq

structure XSym where
  x_sy_sg : Byte
  x_sy_fl : Byte
  x_sy_val : BitVec 16
  x_sy_name : List Byte
  deriving DecidableEq

structure XRel where
  x_rl_sgn : Byte
  x_rl_flg : Byte
  x_rl_loc : BitVec 16
  x_rl_bas : BitVec 16
  deriving DecidableEq

/-- A module; `init` is the part of the file with the contents of its segments. -/
structure XFile where
  x_magic : BitVec 16
  x_sg : List XSg
  init : List Byte
  x_rel : List XRel
  x_sym : List XSym

def X_SU_MAGIC : BitVec 16 := 0xEE00
def X_SX_MAGIC : BitVec 16 := 0xEE01
def X_NU_MAGIC : BitVec 16 := 0xEE02

/-- local symbol -/
def X_SY_LOC : Byte := 1

/-- undefined external entry -/
def X_SY_UNX : Byte := 2

/-- global definition -/
def X_SY_GLB : Byte := 3

/-- segment name -/
def X_SY_SEG : Byte := 4

/-! ## 2. Segment types -/

def X_SG_BSS : Byte := 1
def X_SG_STK : Byte := 2
def X_SG_COD : Byte := 3
def X_SG_CON : Byte := 4
def X_SG_DAT : Byte := 5
def X_SG_MXU : Byte := 6
def X_SG_MXP : Byte := 7

/-- The type clash and mixing table: a row for each old type, and `OK` is the bit 0x80. -/
def ty : List Byte :=
  [0x80, 0x81, 0x82, 0x83, 0x84, 0x85, 0x86, 0x87,
   0x81, 0x81, 0x01, 0x06, 0x05, 0x05, 0x86, 0x06,
   0x82, 0x01, 0x82, 0x06, 0x06, 0x05, 0x86, 0x06,
   0x83, 0x06, 0x06, 0x83, 0x07, 0x06, 0x06, 0x87,
   0x84, 0x05, 0x05, 0x07, 0x84, 0x05, 0x86, 0x87,
   0x85, 0x05, 0x05, 0x06, 0x05, 0x85, 0x86, 0x06,
   0x86, 0x86, 0x86, 0x86, 0x86, 0x86, 0x86, 0x86,
   0x87, 0x06, 0x06, 0x87, 0x87, 0x06, 0x06, 0x87]

def oktyp (old new : Byte) : Bool := ty.getD (old.toNat <<< 3 + new.toNat) 0 &&& 0x80 ≠ 0

def newtyp (old new : Byte) : Byte := ty.getD (old.toNat <<< 3 + new.toNat) 0 &&& 0x07

/-- The types with initialized data. -/
def idata (typ : Byte) : Bool := [false, false, false, true, true, true, true, true].getD typ.toNat false

/-- `round(x)` -/
def round (x : ℕ) : ℕ := if x % 2 = 1 then x + 1 else x

theorem round_eq (x : ℕ) : round x = x + x % 2 := by
  unfold round
  split_ifs <;> omega

theorem le_round (x : ℕ) : x ≤ round x := by
  rw [round_eq]
  omega

theorem round_mod_two (x : ℕ) : round x % 2 = 0 := by
  rw [round_eq]
  omega

theorem round_of_even {x : ℕ} (h : x % 2 = 0) : round x = x := by
  rw [round_eq, h]
  rfl

/-! ## 3. Names -/

/-- What a name is compared by: its characters up to a zero, and eight at most. -/
def cname (s : List Byte) : List Byte := (s.take XNAMELN).takeWhile fun c => c ≠ 0

/-- The loop of `idmatch`, with `n` characters to go. -/
def idmatch_loop : ℕ → List Byte → List Byte → Bool
  | 0, _, _ => true
  | n + 1, a, b =>
    if a.headD 0 = 0 then b.headD 0 = 0
    else if a.headD 0 ≠ b.headD 0 then false
    else idmatch_loop n a.tail b.tail

def idmatch (a b : List Byte) : Bool := idmatch_loop XNAMELN a b

theorem takeWhile_take_succ (n : ℕ) (a : List Byte) :
    (a.take (n + 1)).takeWhile (fun c => c ≠ 0) =
      if a.headD 0 = 0 then []
      else a.headD 0 :: (a.tail.take n).takeWhile fun c => c ≠ 0 := by
  cases a with
  | nil => rfl
  | cons c a =>
    rw [List.take_succ_cons, List.takeWhile_cons, List.headD_cons, List.tail_cons]
    by_cases hc : c = 0
    · rw [if_pos hc, if_neg (by simpa using hc)]
    · rw [if_neg hc, if_pos (by simpa using hc)]

theorem idmatch_loop_iff (n : ℕ) (a b : List Byte) : idmatch_loop n a b = true ↔
    (a.take n).takeWhile (fun c => c ≠ 0) = (b.take n).takeWhile fun c => c ≠ 0 := by
  induction n generalizing a b with
  | zero => simp [idmatch_loop]
  | succ n ih =>
    have ih' := ih a.tail b.tail
    rw [idmatch_loop, takeWhile_take_succ, takeWhile_take_succ]
    generalize a.headD 0 = c
    generalize b.headD 0 = d
    by_cases hc : c = 0
    · rw [if_pos hc, if_pos hc, decide_eq_true_eq]
      by_cases hd : d = 0
      · rw [if_pos hd]
        exact iff_of_true hd rfl
      · rw [if_neg hd]
        exact iff_of_false hd (List.cons_ne_nil _ _).symm
    · rw [if_neg hc, if_neg hc]
      by_cases hcd : c = d
      · rw [if_neg (not_not.mpr hcd), if_neg (hcd ▸ hc), ih', hcd, List.cons.injEq, eq_self, true_and]
      · rw [if_pos hcd]
        refine iff_of_false Bool.false_ne_true fun h => ?_
        split_ifs at h
        exact hcd (List.cons.inj h).1

/-- **`idmatch` compares names.** -/
theorem idmatch_iff (a b : List Byte) : idmatch a b = true ↔ cname b = cname a := by
  rw [idmatch, idmatch_loop_iff, eq_comm]
  rfl

/-- How the compiler makes an `int` of a `char`: there are two ways, and they differ above 127. -/
structure Compiler where
  int_of_char : Byte → ℤ
  low : ∀ c : Byte, c.toNat < 128 → int_of_char c = c.toNat

/-- Characters without a sign. -/
def Compiler.unsigned : Compiler := ⟨fun c => c.toNat, fun _ _ => rfl⟩

/-- Characters with a sign. -/
def Compiler.signed : Compiler where
  int_of_char c := c.toInt
  low c hc := by
    rw [BitVec.toInt_eq_toNat_cond, if_pos (by omega)]

/-- The slot a search for a name begins at. -/
def hash (cc : Compiler) (HTAB : ℕ) (name : List Byte) : ℕ :=
  (name.foldl (fun i c => i * 5 + cc.int_of_char c) 0 % (HTAB : ℤ)).toNat

/-- `lookup` in a table of symbol numbers. -/
def lookup (cc : Compiler) (HTAB : ℕ) (htab : ℕ → Option ℕ) (symtab : ℕ → XSym) (sym : List Byte) :
    Probe ℕ :=
  probe htab (fun j => idmatch sym (symtab j).x_sy_name) (probeOrder HTAB (hash cc HTAB (cname sym)))

/-- The name a symbol is entered under. -/
def key (symtab : ℕ → XSym) (j : ℕ) : List Byte := cname (symtab j).x_sy_name

theorem lookup_eq (cc : Compiler) (HTAB : ℕ) (htab : ℕ → Option ℕ) (symtab : ℕ → XSym)
    (sym : List Byte) : lookup cc HTAB htab symtab sym =
      probe htab (fun j => decide (key symtab j = cname sym))
        (probeOrder HTAB (hash cc HTAB (cname sym))) := by
  rw [lookup]
  congr 1
  funext j
  rw [Bool.eq_iff_iff, idmatch_iff, decide_eq_true_eq]
  rfl

end Cpm8000.Linker
