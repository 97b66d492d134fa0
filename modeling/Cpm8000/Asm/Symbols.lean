/-
# The assembler's symbols and expressions

The first pass gives labels their values, the second checks them again where it meets their definitions.
Both go through `assign`; `sem12` reads a symbol in an expression.

Two logs go with the table. `used` is what the second pass read, and whether for emitted code; `reached`
is what the definitions gave that it came to. Within `Move`s, which are all that an assembler statement
does to the table, they fit together (`Second.move`): in a table without a reported error, what was read
was given by a definition, unless the symbol is a label that no definition of the second pass was reached
for.

Symbols are any type with equality; keywords have the type `STKEY`. The cross reference, and what the
parser does with text that is no expression, are left out: such text is `bad`.
-/
import Cpm8000.Asm.Object
import Mathlib.Logic.Relation

namespace Cpm8000.Asm

open Cpm8000.Sys

def LLERR : ℕ := 3
def RBSEC : BitVec 16 := 1
def RBUND : BitVec 16 := 255
def RBEXT : BitVec 16 := 256
def OFFOR : BitVec 16 := 0x8000

/-! ## 1. The code -/

inductive Typ
  | STUND
  | STKEY
  | STSEC
  | STLAB
  | STVAR
  deriving DecidableEq

/-- An entry of the symbol table; the bits of `sy_atr` are fields of their own. -/
structure Sytab where
  sy_val : BitVec 32
  sy_rel : BitVec 16
  sy_typ : Typ
  SADP2 : Bool
  SAMUD : Bool
  SAGLO : Bool

/-- A symbol with a value and a relocation. -/
structure Place (σ : Type) where
  sym : σ
  val : BitVec 32
  rel : BitVec 16
  deriving DecidableEq

/-- The symbol table, the error field of the line, and the two logs. -/
structure Tab (σ : Type) where
  sytab : σ → Sytab
  llerr : List Char
  errct : ℕ
  used : List (Place σ × Bool)
  reached : List (Place σ)

variable {σ : Type}

namespace Tab

variable (t : Tab σ)

/-- A flag in the error field: a letter, or `?`. -/
def flag (c : Char) : List Char :=
  t.llerr ++ [if c.toNat ≤ 32 ∨ 127 ≤ c.toNat then '?' else c]

def err (pass2 : Bool) (c : Char) : Tab σ :=
  if pass2 = false ∨ LLERR ≤ t.llerr.length then t
  else { t with llerr := t.flag c, errct := t.errct + 1 }

/-- A warning takes up place in the field too. -/
def warn (pass2 : Bool) (c : Char) : Tab σ :=
  if pass2 = false ∨ LLERR ≤ t.llerr.length then t else { t with llerr := t.flag c }

def putline : Tab σ := { t with llerr := [] }

variable [DecidableEq σ]

def set (sym : σ) (syp : Sytab) : Tab σ := { t with sytab := Function.update t.sytab sym syp }

/-- What `assign` does with the entry of a label. -/
def assignTo (pass2 : Bool) (label : σ) (typ : Typ) (val : BitVec 32) (rel : BitVec 16) : Tab σ :=
  let syp := t.sytab label
  if syp.sy_typ ≠ .STVAR ∧ (if pass2 then syp.SADP2 = true else syp.sy_typ ≠ .STUND) then
    (t.err pass2 'M').set label { syp with SAMUD := true }
  else if syp.sy_typ ≠ .STUND ∧ syp.sy_typ ≠ typ then t.err pass2 'P'
  else
    let syp := if syp.sy_typ = .STUND then { syp with sy_typ := typ, sy_rel := RBUND } else syp
    if syp.sy_rel = RBUND ∨ syp.sy_typ = .STVAR then
      t.set label { syp with sy_val := val, sy_rel := rel, SADP2 := syp.SADP2 || pass2 }
    else if syp.sy_val ≠ val ∨ syp.sy_rel ≠ rel then t.err pass2 'P'
    else t.set label { syp with SADP2 := syp.SADP2 || pass2 }

/-- A definition that the second pass comes to. -/
def reach (pass2 : Bool) (p : Place σ) : Tab σ :=
  if pass2 then { t with reached := t.reached ++ [p] } else t

def assign (pass2 : Bool) (label : Option σ) (typ : Typ) (val : BitVec 32) (rel : BitVec 16) : Tab σ :=
  match label with
  | none => t
  | some label => (t.reach pass2 ⟨label, val, rel⟩).assignTo pass2 label typ val rel

/-- `syp->sy_atr |= SAGLO`. -/
def global (sym : σ) : Tab σ := t.set sym { t.sytab sym with SAGLO := true }

/-- The symbols that the second pass read. -/
def use (pass2 : Bool) (emits : Bool) (refs : List (Place σ)) : Tab σ :=
  if pass2 then { t with used := t.used ++ refs.map fun p => (p, emits) } else t

end Tab

inductive RelOp
  | TVEQ
  | TVNE
  | TVLT
  | TVGT
  | TVLE
  | TVGE

/-- What a comparison says of an order. -/
def RelOp.holds (eq lt : Bool) : RelOp → Bool
  | TVEQ => eq
  | TVNE => !eq
  | TVLT => lt
  | TVGT => !lt && !eq
  | TVLE => lt || eq
  | TVGE => !lt

inductive MulOp
  | TVMUL
  | TVDIV
  | TVMOD
  | TVSHL
  | TVSHR

/-- Division by zero, and a count of 32 or more, have no result in C. -/
def MulOp.eval (a b : BitVec 32) : MulOp → BitVec 32
  | TVMUL => a * b
  | TVDIV => a.sdiv b
  | TVMOD => a.srem b
  | TVSHL => a <<< b.toNat
  | TVSHR => a.sshiftRight b.toNat

inductive Expr (σ : Type)
  | constant (val : BitVec 32)
  | symbol (sym : σ)
  | dollar
  | paren (e : Expr σ)
  | plus (e : Expr σ)
  | minus (e : Expr σ)
  | compl (e : Expr σ)
  | mulop (op : MulOp) (a b : Expr σ)
  | add (a b : Expr σ)
  | sub (a b : Expr σ)
  | relop (op : RelOp) (a b : Expr σ)
  | strings (op : RelOp) (a b : List Byte)
  | and (a b : Expr σ)
  | xor (a b : Expr σ)
  | or (a b : Expr σ)
  | bad

/-- A frame of the parse stack, as far as its value goes. -/
structure Frame where
  ps_val0 : BitVec 32
  ps_val1 : BitVec 16
  ps_flg : BitVec 16

/-- What the parser comes back with: the value, `eflg` and `uflg`, whether it came back at all, the flags
it reported and the symbols it read. -/
structure Parse (σ : Type) where
  frame : Frame
  eflg : Bool
  uflg : Bool
  bad : Bool
  flags : List Char
  refs : List (Place σ)

namespace Parse

/-- A value. -/
def value (f : Frame) : Parse σ := ⟨f, false, false, false, [], []⟩

/-- `experr`. -/
def experr : Parse σ := ⟨⟨0, 0, 0⟩, true, false, false, ['E'], []⟩

/-- No expression. -/
def none : Parse σ := ⟨⟨0, 0, 0⟩, false, false, true, [], []⟩

/-- A semantic routine on the frames, which may end at `experr`. -/
def bind (r : Parse σ) (f : Frame → Parse σ) : Parse σ :=
  let q := f r.frame
  ⟨q.frame, r.eflg || q.eflg, r.uflg || q.uflg, r.bad || q.bad, r.flags ++ q.flags, r.refs ++ q.refs⟩

end Parse

/-- Both operands absolute. -/
def absolute (a b : Frame) (val : BitVec 32) : Parse σ :=
  if a.ps_val1 ≠ 0 ∨ b.ps_val1 ≠ 0 then .experr
  else .value ⟨val, 0, a.ps_flg ||| b.ps_flg &&& OFFOR⟩

/-- Case 2. -/
def negated (p : Frame) : Parse σ :=
  if p.ps_val1 ≠ 0 then .experr else .value ⟨-p.ps_val0, 0, p.ps_flg &&& OFFOR⟩

/-- Case 3. -/
def complemented (p : Frame) : Parse σ :=
  if p.ps_val1 ≠ 0 then .experr else .value ⟨~~~p.ps_val0, 0, p.ps_flg &&& OFFOR⟩

/-- Case 6, addition. -/
def added (pl p : Frame) : Parse σ :=
  if pl.ps_val1 ≠ 0 ∧ p.ps_val1 ≠ 0 then .experr
  else
    .value ⟨pl.ps_val0 + p.ps_val0, if pl.ps_val1 ≠ 0 then pl.ps_val1 else p.ps_val1,
      pl.ps_flg ||| p.ps_flg &&& OFFOR⟩

/-- Case 6, subtraction. -/
def subtracted (pl p : Frame) : Parse σ :=
  let val := pl.ps_val0 - p.ps_val0
  let flg := pl.ps_flg ||| p.ps_flg &&& OFFOR
  if pl.ps_val1 = p.ps_val1 then .value ⟨val, 0, flg⟩
  else if p.ps_val1 ≠ 0 then .experr
  else .value ⟨val, pl.ps_val1, flg⟩

def truth (b : Bool) : BitVec 32 := if b then -1 else 0

/-- Case 9: places in different sections are unequal, and have no order. -/
def compared (op : RelOp) (pl p : Frame) : Parse σ :=
  let flg := pl.ps_flg ||| p.ps_flg &&& OFFOR
  let same := pl.ps_val1 = p.ps_val1
  let res := truth (op.holds (same ∧ pl.ps_val0 = p.ps_val0) (pl.ps_val0.slt p.ps_val0))
  match op with
  | .TVEQ => .value ⟨res, 0, flg⟩
  | .TVNE => .value ⟨res, 0, flg⟩
  | _ => if same then .value ⟨res, 0, flg⟩ else .experr

/-- The loop of case 16: the difference of the first characters that differ, or of the lengths. -/
def strcmp : List Byte → List Byte → ℤ
  | c :: sp, d :: dp => if c = d then strcmp sp dp else (c.toNat : ℤ) - d.toNat
  | sp, dp => (sp.length : ℤ) - dp.length

/-- Case 12, of the lexical scanner also that a keyword is no symbol. -/
def sem12 (t : Tab σ) (pass2 : Bool) (sym : σ) : Parse σ :=
  let syp := t.sytab sym
  if syp.sy_typ = .STKEY then .none
  else if syp.sy_typ = .STSEC then .experr
  else if syp.sy_typ = .STUND ∨ syp.sy_rel = RBUND ∨ syp.sy_typ = .STVAR ∧ pass2 ∧ ¬syp.SADP2 then
    ⟨⟨0, 0, OFFOR⟩, false, true, false, ['U'], []⟩
  else
    ⟨⟨syp.sy_val, syp.sy_rel, if pass2 ∧ ¬syp.SADP2 then OFFOR else 0⟩, false, false, false, [],
      [⟨sym, syp.sy_val, syp.sy_rel⟩]⟩

namespace Expr

variable (t : Tab σ) (em : Emitter)

/-- The parser's value of an expression, one semantic routine for each operator. -/
def eval : Expr σ → Parse σ
  | constant val => .value ⟨val, 0, 0⟩
  | symbol sym => sem12 t em.pass2 sym
  | dollar => .value ⟨em.curloc, em.cursec, 0⟩
  | paren e => e.eval
  | plus e => e.eval.bind fun p => .value ⟨p.ps_val0, p.ps_val1, p.ps_flg &&& OFFOR⟩
  | minus e => e.eval.bind negated
  | compl e => e.eval.bind complemented
  | mulop op a b =>
    a.eval.bind fun pl => b.eval.bind fun p => absolute pl p (op.eval pl.ps_val0 p.ps_val0)
  | add a b => a.eval.bind fun pl => b.eval.bind (added pl)
  | sub a b => a.eval.bind fun pl => b.eval.bind (subtracted pl)
  | relop op a b => a.eval.bind fun pl => b.eval.bind (compared op pl)
  | strings op a b => .value ⟨truth (op.holds (strcmp a b = 0) (strcmp a b < 0)), 0, 0⟩
  | and a b => a.eval.bind fun pl => b.eval.bind fun p => absolute pl p (pl.ps_val0 &&& p.ps_val0)
  | xor a b => a.eval.bind fun pl => b.eval.bind fun p => absolute pl p (pl.ps_val0 ^^^ p.ps_val0)
  | or a b => a.eval.bind fun pl => b.eval.bind fun p => absolute pl p (pl.ps_val0 ||| p.ps_val0)
  | bad => .none

/-- `prevsem == 10`: the last routine was that of the parentheses. -/
def isParen : Expr σ → Bool
  | paren _ => true
  | _ => false

end Expr

/-! ## 2. What an expression reads -/

/-- The symbol has this value, and an expression may use it. -/
def Resolved (pass2 : Bool) (t : Tab σ) (p : Place σ) : Prop :=
  (t.sytab p.sym).sy_val = p.val ∧ (t.sytab p.sym).sy_rel = p.rel ∧ p.rel ≠ RBUND ∧
    ((t.sytab p.sym).sy_typ = .STLAB ∨
      (t.sytab p.sym).sy_typ = .STVAR ∧ (pass2 = true → (t.sytab p.sym).SADP2 = true))

theorem sem12_resolved (t : Tab σ) (pass2 : Bool) (sym : σ) :
    ∀ p ∈ (sem12 t pass2 sym).refs, Resolved pass2 t p := by
  intro p hp
  unfold sem12 at hp
  dsimp only at hp
  by_cases hkey : (t.sytab sym).sy_typ = .STKEY
  · rw [if_pos hkey] at hp
    cases hp
  rw [if_neg hkey] at hp
  by_cases hsec : (t.sytab sym).sy_typ = .STSEC
  · rw [if_pos hsec] at hp
    cases hp
  rw [if_neg hsec] at hp
  split at hp
  · cases hp
  · rename_i hund
    obtain rfl := List.mem_singleton.mp hp
    rw [not_or, not_or] at hund
    refine ⟨rfl, rfl, hund.2.1, ?_⟩
    dsimp only
    cases htyp : (t.sytab sym).sy_typ with
    | STUND => exact absurd htyp hund.1
    | STKEY => exact absurd htyp hkey
    | STSEC => exact absurd htyp hsec
    | STLAB => exact .inl rfl
    | STVAR =>
      refine .inr ⟨rfl, fun hpass => ?_⟩
      by_contra hno
      exact hund.2.2 ⟨htyp, hpass, hno⟩

@[simp] theorem absolute_refs (a b : Frame) (v : BitVec 32) : (absolute a b v : Parse σ).refs = [] := by
  unfold absolute
  split <;> rfl

@[simp] theorem negated_refs (p : Frame) : (negated p : Parse σ).refs = [] := by
  unfold negated
  split <;> rfl

@[simp] theorem complemented_refs (p : Frame) : (complemented p : Parse σ).refs = [] := by
  unfold complemented
  split <;> rfl

@[simp] theorem added_refs (a b : Frame) : (added a b : Parse σ).refs = [] := by
  unfold added
  split <;> rfl

@[simp] theorem subtracted_refs (a b : Frame) : (subtracted a b : Parse σ).refs = [] := by
  unfold subtracted
  dsimp only
  split_ifs <;> rfl

@[simp] theorem compared_refs (op : RelOp) (a b : Frame) : (compared op a b : Parse σ).refs = [] := by
  unfold compared
  dsimp only
  cases op <;> dsimp only <;> try split_ifs
  all_goals rfl

/-- A routine reads no symbol: those read are those of the operands. -/
theorem Parse.refs_bind (r : Parse σ) (f : Frame → Parse σ) :
    (r.bind f).refs = r.refs ++ (f r.frame).refs := rfl

theorem Expr.eval_resolved (t : Tab σ) (em : Emitter) (e : Expr σ) :
    ∀ p ∈ (e.eval t em).refs, Resolved em.pass2 t p := by
  have binary {a b : Expr σ} {f : Frame → Frame → Parse σ} (hf : ∀ x y, (f x y).refs = [])
      (ha : ∀ p ∈ (a.eval t em).refs, Resolved em.pass2 t p)
      (hb : ∀ p ∈ (b.eval t em).refs, Resolved em.pass2 t p) :
      ∀ p ∈ ((a.eval t em).bind fun x => (b.eval t em).bind (f x)).refs, Resolved em.pass2 t p := by
    intro p hp
    rw [Parse.refs_bind, Parse.refs_bind, hf, List.append_nil] at hp
    rcases List.mem_append.mp hp with hp | hp
    · exact ha p hp
    · exact hb p hp
  induction e with
  | constant val => intro p hp; cases hp
  | symbol sym => exact sem12_resolved t em.pass2 sym
  | dollar => intro p hp; cases hp
  | paren e ih => exact ih
  | plus e ih =>
    intro p hp
    rw [Expr.eval, Parse.refs_bind] at hp
    exact ih p (by simpa [Parse.value] using hp)
  | minus e ih =>
    intro p hp
    rw [Expr.eval, Parse.refs_bind] at hp
    exact ih p (by simpa using hp)
  | compl e ih =>
    intro p hp
    rw [Expr.eval, Parse.refs_bind] at hp
    exact ih p (by simpa using hp)
  | mulop op a b iha ihb => exact binary (fun _ _ => absolute_refs ..) iha ihb
  | add a b iha ihb => exact binary added_refs iha ihb
  | sub a b iha ihb => exact binary subtracted_refs iha ihb
  | relop op a b iha ihb => exact binary (compared_refs op) iha ihb
  | strings op a b => intro p hp; cases hp
  | and a b iha ihb => exact binary (fun _ _ => absolute_refs ..) iha ihb
  | xor a b iha ihb => exact binary (fun _ _ => absolute_refs ..) iha ihb
  | or a b iha ihb => exact binary (fun _ _ => absolute_refs ..) iha ihb
  | bad => intro p hp; cases hp

/-! ## 3. What a statement does to the table -/

namespace Tab

variable {t : Tab σ}

@[simp] theorem err_sytab (pass2 : Bool) (c : Char) : (t.err pass2 c).sytab = t.sytab := by
  unfold err
  split <;> rfl

/-- The first pass reports nothing. -/
@[simp] theorem err_false (c : Char) : t.err false c = t := if_pos (.inl rfl)

/-- The error field shows every error: it is not full of warnings. -/
def Clean (t : Tab σ) : Prop := t.errct = 0 → t.llerr = []

/-- **An error is reported**, now or before. -/
theorem Clean.err (h : Clean t) (c : Char) : (t.err true c).errct ≠ 0 := by
  unfold Tab.err
  split
  · rename_i hfull
    intro herr
    have hroom := hfull.resolve_left Bool.noConfusion
    rw [h herr] at hroom
    exact absurd hroom (by decide)
  · exact Nat.succ_ne_zero _

end Tab

open Tab

variable [DecidableEq σ]

/-- What the statements of a pass do to the table; the last is the end of a line, which may have added
errors of its own. -/
inductive Move (pass2 : Bool) : Tab σ → Tab σ → Prop
  | err (t : Tab σ) (c : Char) : Move pass2 t (t.err pass2 c)
  | assign (t : Tab σ) (label : Option σ) (typ : Typ) (val : BitVec 32) (rel : BitVec 16) :
      Move pass2 t (t.assign pass2 label typ val rel)
  | global (t : Tab σ) (sym : σ) : Move pass2 t (t.global sym)
  | use (t : Tab σ) (emits : Bool) (refs : List (Place σ)) (h : ∀ p ∈ refs, Resolved pass2 t p) :
      Move pass2 t (t.use pass2 emits refs)
  | line (t : Tab σ) (n : ℕ) (h : pass2 = false → n = 0) :
      Move pass2 t { t with llerr := [], errct := t.errct + n }

abbrev Moves (pass2 : Bool) : Tab σ → Tab σ → Prop := Relation.ReflTransGen (Move pass2)

/-- **The first pass**: nothing is reported or defined for the second one. -/
structure First (t : Tab σ) : Prop where
  llerr : t.llerr = []
  errct : t.errct = 0
  used : t.used = []
  reached : t.reached = []
  keys : ∀ sym, (t.sytab sym).SADP2 = true → (t.sytab sym).sy_typ = .STKEY

/-- In the first pass `assign` changes one entry, of no keyword, and leaves `SADP2` alone. -/
theorem assignTo_false (t : Tab σ) (label : σ) (typ : Typ) (val : BitVec 32) (rel : BitVec 16) : ∃ syp,
    t.assignTo false label typ val rel = t.set label syp ∧ syp.SADP2 = (t.sytab label).SADP2 ∧
    ((t.sytab label).sy_typ = .STKEY → syp.sy_typ = .STKEY) := by
  have hsame : t = t.set label (t.sytab label) := by
    rw [Tab.set, Function.update_eq_self]
  unfold Tab.assignTo
  dsimp only
  rw [err_false, err_false]
  by_cases hm : (t.sytab label).sy_typ ≠ .STVAR ∧ (t.sytab label).sy_typ ≠ .STUND
  · rw [if_pos (by simpa using hm)]
    exact ⟨_, rfl, rfl, id⟩
  rw [if_neg (by simpa using hm)]
  have hkey : (t.sytab label).sy_typ ≠ .STKEY := by
    intro hkey
    rw [hkey] at hm
    exact hm ⟨Typ.noConfusion, Typ.noConfusion⟩
  by_cases hp : (t.sytab label).sy_typ ≠ .STUND ∧ (t.sytab label).sy_typ ≠ typ
  · rw [if_pos hp]
    exact ⟨_, hsame, rfl, id⟩
  rw [if_neg hp]
  have hadp : (if (t.sytab label).sy_typ = .STUND then
      { t.sytab label with sy_typ := typ, sy_rel := RBUND } else t.sytab label).SADP2 =
      (t.sytab label).SADP2 := by
    split <;> rfl
  generalize (if (t.sytab label).sy_typ = .STUND then
    { t.sytab label with sy_typ := typ, sy_rel := RBUND } else t.sytab label) = syp at hadp
  split
  · exact ⟨_, rfl, (Bool.or_false _).trans hadp, fun h => absurd h hkey⟩
  · split
    · exact ⟨_, hsame, rfl, id⟩
    · exact ⟨_, rfl, (Bool.or_false _).trans hadp, fun h => absurd h hkey⟩

theorem First.move {t t' : Tab σ} (h : First t) (hm : Move false t t') : First t' := by
  cases hm with
  | err c =>
    rw [err_false]
    exact h
  | assign label typ val rel =>
    cases label with
    | none => exact h
    | some label =>
      obtain ⟨syp, heq, hadp, hkey⟩ := assignTo_false t label typ val rel
      have hset : t.assign false (some label) typ val rel = t.set label syp := heq
      rw [hset]
      refine ⟨h.llerr, h.errct, h.used, h.reached, fun sym hs => ?_⟩
      dsimp only [Tab.set] at hs ⊢
      by_cases hsym : sym = label
      · rw [hsym, Function.update_self] at hs ⊢
        rw [hadp] at hs
        exact hkey (h.keys label hs)
      · rw [Function.update_of_ne hsym] at hs ⊢
        exact h.keys sym hs
  | global sym =>
    refine ⟨h.llerr, h.errct, h.used, h.reached, fun s hs => ?_⟩
    dsimp only [Tab.global, Tab.set] at hs ⊢
    by_cases hsym : s = sym
    · rw [hsym, Function.update_self] at hs ⊢
      exact h.keys sym hs
    · rw [Function.update_of_ne hsym] at hs ⊢
      exact h.keys s hs
  | use emits refs _ => exact h
  | line n hn =>
    refine ⟨rfl, ?_, h.used, h.reached, h.keys⟩
    dsimp only
    rw [h.errct, hn rfl]

/-- A label with the first pass's value, which no definition of the second pass was reached for. -/
structure Stale (t : Tab σ) (p : Place σ) : Prop where
  typ : (t.sytab p.sym).sy_typ = .STLAB
  adp : (t.sytab p.sym).SADP2 = false
  val : (t.sytab p.sym).sy_val = p.val
  rel : (t.sytab p.sym).sy_rel = p.rel
  known : p.rel ≠ RBUND

omit [DecidableEq σ] in
/-- Only the entry of the label matters. -/
theorem Stale.congr {t t' : Tab σ} {p : Place σ} (h : Stale t p)
    (hsym : t'.sytab p.sym = t.sytab p.sym) : Stale t' p := by
  refine ⟨?_, ?_, ?_, ?_, h.known⟩ <;> rw [hsym]
  · exact h.typ
  · exact h.adp
  · exact h.val
  · exact h.rel

/-- **The logs and the table fit together**. -/
structure Fits (t : Tab σ) : Prop where
  defined : ∀ sym, (t.sytab sym).SADP2 = true →
    (t.sytab sym).sy_typ = .STLAB ∨ (t.sytab sym).sy_typ = .STVAR →
    ⟨sym, (t.sytab sym).sy_val, (t.sytab sym).sy_rel⟩ ∈ t.reached
  used : ∀ u ∈ t.used, u.1 ∈ t.reached ∨ Stale t u.1
  reached : ∀ p ∈ t.reached, (t.sytab p.sym).SADP2 = true

/-- **The second pass**: as long as there is no error they do. -/
structure Second (t : Tab σ) : Prop where
  clean : t.Clean
  fits : t.errct = 0 → Fits t

omit [DecidableEq σ] in
theorem First.second {t : Tab σ} (h : First t) : Second t := by
  refine ⟨fun _ => h.llerr, fun _ => ⟨fun sym hs htyp => ?_, fun u hu => ?_, fun p hp => ?_⟩⟩
  · rw [h.keys sym hs] at htyp
    rcases htyp with htyp | htyp <;> cases htyp
  · rw [h.used] at hu
    cases hu
  · rw [h.reached] at hp
    cases hp

omit [DecidableEq σ] in
/-- With an error nothing is said any more. -/
theorem Second.of_error {t : Tab σ} (h : t.errct ≠ 0) : Second t :=
  ⟨fun h0 => absurd h0 h, fun h0 => absurd h0 h⟩

omit [DecidableEq σ] in
theorem Second.err {t : Tab σ} (h : Second t) (c : Char) : Second (t.err true c) :=
  .of_error (h.clean.err c)

/-- **What `assign` does in the second pass**: it reports an error, or the label now has the value given,
which is the one the first pass gave it, if that gave it one. -/
theorem assignTo_true {t : Tab σ} (h : t.Clean) (label : σ) (typ : Typ) (val : BitVec 32)
    (rel : BitVec 16) : (t.assignTo true label typ val rel).errct ≠ 0 ∨ ∃ syp,
    t.assignTo true label typ val rel = t.set label syp ∧ syp.SADP2 = true ∧ syp.sy_val = val ∧
    syp.sy_rel = rel ∧ ((t.sytab label).sy_typ = .STLAB → (t.sytab label).sy_rel ≠ RBUND →
      (t.sytab label).sy_val = val ∧ (t.sytab label).sy_rel = rel) := by
  unfold Tab.assignTo
  dsimp only
  by_cases hm : (t.sytab label).sy_typ ≠ .STVAR ∧ (t.sytab label).SADP2 = true
  · rw [if_pos (by simpa using hm)]
    exact .inl (h.err 'M')
  rw [if_neg (by simpa using hm)]
  by_cases hp : (t.sytab label).sy_typ ≠ .STUND ∧ (t.sytab label).sy_typ ≠ typ
  · rw [if_pos hp]
    exact .inl (h.err 'P')
  rw [if_neg hp]
  by_cases hund : (t.sytab label).sy_typ = .STUND
  · -- the second pass comes to a symbol that the first one did not define
    rw [if_pos hund, if_pos (.inl rfl)]
    refine .inr ⟨_, rfl, Bool.or_true _, rfl, rfl, fun hlab => ?_⟩
    rw [hlab] at hund
    cases hund
  · rw [if_neg hund]
    split
    · rename_i hstore
      refine .inr ⟨_, rfl, Bool.or_true _, rfl, rfl, fun hlab hrel => ?_⟩
      rcases hstore with hno | hvar
      · exact absurd hno hrel
      · rw [hlab] at hvar
        cases hvar
    · split
      · exact .inl (h.err 'P')
      · rename_i hsame
        rw [not_or, not_not, not_not] at hsame
        exact .inr ⟨_, rfl, Bool.or_true _, hsame.1, hsame.2, fun _ _ => hsame⟩

theorem Second.assign {t : Tab σ} (h : Second t) (label : σ) (typ : Typ) (val : BitVec 32)
    (rel : BitVec 16) : Second (t.assign true (some label) typ val rel) := by
  have hclean : (t.reach true ⟨label, val, rel⟩).Clean := h.clean
  rcases assignTo_true hclean label typ val rel with herr | ⟨syp, heq, hadp, hval, hrel, hold⟩
  · exact .of_error herr
  have hset : t.assign true (some label) typ val rel = (t.reach true ⟨label, val, rel⟩).set label syp := heq
  rw [hset]
  refine ⟨h.clean, fun h0 => ?_⟩
  obtain ⟨hdef, hused, hreach⟩ := h.fits h0
  have hnew : (⟨label, val, rel⟩ : Place σ) ∈ (t.reach true ⟨label, val, rel⟩).reached :=
    List.mem_append_right _ (List.mem_singleton_self _)
  have hmono {p : Place σ} (hp : p ∈ t.reached) : p ∈ (t.reach true ⟨label, val, rel⟩).reached :=
    List.mem_append_left _ hp
  have hself : ((t.reach true ⟨label, val, rel⟩).set label syp).sytab label = syp :=
    Function.update_self ..
  have hother {sym : σ} (hne : sym ≠ label) :
      ((t.reach true ⟨label, val, rel⟩).set label syp).sytab sym = t.sytab sym :=
    Function.update_of_ne hne _ _
  refine ⟨fun sym hs htyp => ?_, fun u hu => ?_, fun p hp => ?_⟩
  · by_cases hsym : sym = label
    · rw [hsym, hself, hval, hrel]
      exact hnew
    · rw [hother hsym] at hs htyp ⊢
      exact hmono (hdef sym hs htyp)
  · rcases hused u hu with hu | hu
    · exact .inl (hmono hu)
    · by_cases hsym : u.1.sym = label
      · -- the stale label is reached after all, and with the value that was read
        have hsame : (t.sytab label).sy_val = val ∧ (t.sytab label).sy_rel = rel := by
          refine hold ?_ ?_
          · rw [← hsym]
            exact hu.typ
          · intro hno
            refine hu.known ?_
            rw [← hu.rel, hsym]
            exact hno
        have hplace : u.1 = ⟨label, val, rel⟩ := by
          rw [← hsame.1, ← hsame.2, ← hsym, hu.val, hu.rel]
        rw [hplace]
        exact .inl hnew
      · exact .inr (hu.congr (hother hsym))
  · by_cases hsym : p.sym = label
    · rw [hsym, hself]
      exact hadp
    · rw [hother hsym]
      rcases List.mem_append.mp hp with hp | hp
      · exact hreach p hp
      · rw [List.mem_singleton.mp hp] at hsym
        exact absurd rfl hsym

omit [DecidableEq σ] in
/-- What the second pass reads was given by a definition, or is stale. -/
theorem Second.use {t : Tab σ} (h : Second t) (emits : Bool) {refs : List (Place σ)}
    (hrefs : ∀ p ∈ refs, Resolved true t p) : Second (t.use true emits refs) := by
  refine ⟨h.clean, fun h0 => ?_⟩
  obtain ⟨hdef, hused, hreach⟩ := h.fits h0
  refine ⟨hdef, fun u hu => ?_, hreach⟩
  rcases List.mem_append.mp hu with hu | hu
  · exact (hused u hu).imp_right fun hs => hs.congr rfl
  · obtain ⟨p, hp, rfl⟩ := List.mem_map.mp hu
    obtain ⟨hval, hrel, hknown, htyp⟩ := hrefs p hp
    cases hadp : (t.sytab p.sym).SADP2 with
    | true =>
      left
      have hplace := hdef p.sym hadp (htyp.imp_right And.left)
      rw [hval, hrel] at hplace
      exact hplace
    | false =>
      right
      rcases htyp with hlab | ⟨-, hvar⟩
      · exact ⟨hlab, hadp, hval, hrel, hknown⟩
      · rw [hvar rfl] at hadp
        cases hadp

theorem Second.global {t : Tab σ} (h : Second t) (sym : σ) : Second (t.global sym) := by
  have hsame (s : σ) : ((t.global sym).sytab s).sy_val = (t.sytab s).sy_val ∧
      ((t.global sym).sytab s).sy_rel = (t.sytab s).sy_rel ∧
      ((t.global sym).sytab s).sy_typ = (t.sytab s).sy_typ ∧
      ((t.global sym).sytab s).SADP2 = (t.sytab s).SADP2 := by
    dsimp only [Tab.global, Tab.set]
    rw [Function.update_apply]
    split
    · rename_i hs
      rw [hs]
      exact ⟨rfl, rfl, rfl, rfl⟩
    · exact ⟨rfl, rfl, rfl, rfl⟩
  refine ⟨h.clean, fun h0 => ?_⟩
  obtain ⟨hdef, hused, hreach⟩ := h.fits h0
  refine ⟨fun s hs htyp => ?_, fun u hu => ?_, fun p hp => ?_⟩
  · obtain ⟨hval, hrel, htypes, hadp⟩ := hsame s
    rw [hadp] at hs
    rw [htypes] at htyp
    rw [hval, hrel]
    exact hdef s hs htyp
  · obtain ⟨hval, hrel, htypes, hadp⟩ := hsame u.1.sym
    refine (hused u hu).imp_right fun hu => ⟨?_, ?_, ?_, ?_, hu.known⟩
    · rw [htypes, hu.typ]
    · rw [hadp, hu.adp]
    · rw [hval, hu.val]
    · rw [hrel, hu.rel]
  · rw [(hsame p.sym).2.2.2]
    exact hreach p hp

/-- **A statement keeps it.** -/
theorem Second.move {t t' : Tab σ} (h : Second t) (hm : Move true t t') : Second t' := by
  cases hm with
  | err c => exact h.err c
  | assign label typ val rel =>
    cases label with
    | none => exact h
    | some label => exact h.assign label typ val rel
  | global sym => exact h.global sym
  | use emits refs hrefs => exact h.use emits hrefs
  | line n _ =>
    refine ⟨fun _ => rfl, fun h0 => ?_⟩
    have hfits := h.fits (Nat.eq_zero_of_add_eq_zero_right h0)
    exact ⟨hfits.defined, fun u hu => (hfits.used u hu).imp_right fun hs => hs.congr rfl,
      hfits.reached⟩

theorem First.moves {t t' : Tab σ} (h : First t) (hm : Moves false t t') : First t' := by
  induction hm with
  | refl => exact h
  | tail _ hstep ih => exact ih.move hstep

theorem Second.moves {t t' : Tab σ} (h : Second t) (hm : Moves true t t') : Second t' := by
  induction hm with
  | refl => exact h
  | tail _ hstep ih => exact ih.move hstep

end Cpm8000.Asm
