/-
# Division in expressions

`divs` is what the parser divides by while it reads an expression, up to where the text is no expression
any more. Nothing looks at the divisor: a division of a number by a number that is 0 is carried out, and
an undefined symbol is the number 0 (`divides_iff`).

What an operand stands for is said apart from the parser, as a `Meaning`, of which the frames on the
parse stack are the representation (`Expr.eval_meaning`).
-/
import Cpm8000.Asm.Conditions

namespace Cpm8000.Asm

variable {σ : Type}

/-! ## 1. What the parser divides by -/

def MulOp.divides : MulOp → Bool
  | TVDIV => true
  | TVMOD => true
  | _ => false

/-- The division of case 5. -/
def divisor (op : MulOp) (pl p : Frame) : List (BitVec 32) :=
  if pl.ps_val1 ≠ 0 ∨ p.ps_val1 ≠ 0 then [] else if op.divides then [p.ps_val0] else []

namespace Expr

variable (t : Tab σ) (em : Emitter)

/-- The divisors of the divisions carried out, in their order. After a syntax error nothing is read. -/
def divs : Expr σ → List (BitVec 32)
  | constant _ => []
  | symbol _ => []
  | dollar => []
  | strings _ _ _ => []
  | bad => []
  | paren e => e.divs
  | plus e => e.divs
  | minus e => e.divs
  | compl e => e.divs
  | mulop op a b =>
    a.divs ++ if (a.eval t em).bad then [] else
      b.divs ++ if (b.eval t em).bad then [] else divisor op (a.eval t em).frame (b.eval t em).frame
  | add a b => a.divs ++ if (a.eval t em).bad then [] else b.divs
  | sub a b => a.divs ++ if (a.eval t em).bad then [] else b.divs
  | relop _ a b => a.divs ++ if (a.eval t em).bad then [] else b.divs
  | and a b => a.divs ++ if (a.eval t em).bad then [] else b.divs
  | xor a b => a.divs ++ if (a.eval t em).bad then [] else b.divs
  | or a b => a.divs ++ if (a.eval t em).bad then [] else b.divs

end Expr

/-! ## 2. What an expression stands for -/

/-- A number, or a place in a section. What is undefined or in error is the number 0. -/
inductive Meaning
  | number (val : BitVec 32)
  | place (val : BitVec 32) (sec : BitVec 16) (h : sec ≠ 0)
  deriving DecidableEq

namespace Meaning

/-- A value and a section, of which number 0 is none. -/
def at_ (val : BitVec 32) (sec : BitVec 16) : Meaning :=
  if h : sec = 0 then number val else place val sec h

def val : Meaning → BitVec 32
  | number v => v
  | place v _ _ => v

def sec : Meaning → BitVec 16
  | number _ => 0
  | place _ s _ => s

@[simp] theorem at_val (v : BitVec 32) (s : BitVec 16) : (at_ v s).val = v := by
  unfold at_
  split <;> rfl

@[simp] theorem at_sec (v : BitVec 32) (s : BitVec 16) : (at_ v s).sec = s := by
  unfold at_
  split
  · rename_i h
    exact h.symm
  · rfl

theorem at_self (m : Meaning) : at_ m.val m.sec = m := by
  cases m with
  | number v => rfl
  | place v s h => exact dif_neg h

/-- An operation on numbers. -/
def onNumber (f : BitVec 32 → BitVec 32) : Meaning → Meaning
  | number v => number (f v)
  | place _ _ _ => number 0

def onNumbers (f : BitVec 32 → BitVec 32 → BitVec 32) : Meaning → Meaning → Meaning
  | number v, number w => number (f v w)
  | _, _ => number 0

/-- A number and a place have a sum, two places have none. -/
def add : Meaning → Meaning → Meaning
  | number v, number w => number (v + w)
  | number v, place w s h => place (v + w) s h
  | place v s h, number w => place (v + w) s h
  | place _ _ _, place _ _ _ => number 0

/-- The distance of two places in one section is a number. -/
def sub : Meaning → Meaning → Meaning
  | number v, number w => number (v - w)
  | number _, place _ _ _ => number 0
  | place v s h, number w => place (v - w) s h
  | place v s _, place w s' _ => if s = s' then number (v - w) else number 0

/-- Things in different sections are unequal, and have no order. -/
def compare (op : RelOp) (a b : Meaning) : Meaning :=
  match op with
  | .TVEQ => number (truth (a = b))
  | .TVNE => number (truth (a ≠ b))
  | op => if a.sec = b.sec then number (truth (op.holds (a.val = b.val) (a.val.slt b.val))) else number 0

end Meaning

/-- A symbol that an expression may use: defined, and a variable by a definition that this pass came to. -/
def Defined (t : Tab σ) (pass2 : Bool) (sym : σ) : Prop :=
  ((t.sytab sym).sy_typ = .STLAB ∨
    (t.sytab sym).sy_typ = .STVAR ∧ (pass2 = true → (t.sytab sym).SADP2 = true)) ∧
  (t.sytab sym).sy_rel ≠ RBUND

instance (t : Tab σ) (pass2 : Bool) (sym : σ) : Decidable (Defined t pass2 sym) :=
  inferInstanceAs (Decidable ((_ ∨ _ ∧ (_ → _)) ∧ _))

namespace Expr

variable (t : Tab σ) (em : Emitter)

def meaning : Expr σ → Meaning
  | constant v => .number v
  | symbol sym =>
    if Defined t em.pass2 sym then .at_ (t.sytab sym).sy_val (t.sytab sym).sy_rel else .number 0
  | dollar => .at_ em.curloc em.cursec
  | paren e => e.meaning
  | plus e => e.meaning
  | minus e => e.meaning.onNumber fun v => -v
  | compl e => e.meaning.onNumber fun v => ~~~v
  | mulop op a b => a.meaning.onNumbers (fun v w => op.eval v w) b.meaning
  | add a b => a.meaning.add b.meaning
  | sub a b => a.meaning.sub b.meaning
  | relop op a b => .compare op a.meaning b.meaning
  | strings op a b => .number (truth (op.holds (strcmp a b = 0) (strcmp a b < 0)))
  | and a b => a.meaning.onNumbers (· &&& ·) b.meaning
  | xor a b => a.meaning.onNumbers (· ^^^ ·) b.meaning
  | or a b => a.meaning.onNumbers (· ||| ·) b.meaning
  | bad => .number 0

/-- The text is an expression: no part of it is something else, or a keyword. -/
def Proper : Expr σ → Prop
  | constant _ => True
  | symbol sym => (t.sytab sym).sy_typ ≠ .STKEY
  | dollar => True
  | paren e => e.Proper
  | plus e => e.Proper
  | minus e => e.Proper
  | compl e => e.Proper
  | mulop _ a b => a.Proper ∧ b.Proper
  | add a b => a.Proper ∧ b.Proper
  | sub a b => a.Proper ∧ b.Proper
  | relop _ a b => a.Proper ∧ b.Proper
  | strings _ _ _ => True
  | and a b => a.Proper ∧ b.Proper
  | xor a b => a.Proper ∧ b.Proper
  | or a b => a.Proper ∧ b.Proper
  | bad => False

section Comes

variable (x y : Expr σ)

/-- The parser comes to the division of `x` by `y`. -/
def Comes : Expr σ → Prop
  | constant _ => False
  | symbol _ => False
  | dollar => False
  | strings _ _ _ => False
  | bad => False
  | paren e => e.Comes
  | plus e => e.Comes
  | minus e => e.Comes
  | compl e => e.Comes
  | mulop op a b =>
    a.Comes ∨ a.Proper t ∧ (b.Comes ∨ b.Proper t ∧ op.divides = true ∧ x = a ∧ y = b)
  | add a b => a.Comes ∨ a.Proper t ∧ b.Comes
  | sub a b => a.Comes ∨ a.Proper t ∧ b.Comes
  | relop _ a b => a.Comes ∨ a.Proper t ∧ b.Comes
  | and a b => a.Comes ∨ a.Proper t ∧ b.Comes
  | xor a b => a.Comes ∨ a.Proper t ∧ b.Comes
  | or a b => a.Comes ∨ a.Proper t ∧ b.Comes

end Comes

end Expr

/-- A parse that met an error and goes on. -/
def Parse.Erred (r : Parse σ) : Prop := 'E' ∈ r.flags ∧ r.eflg = true

theorem Parse.Erred.bind {r : Parse σ} (h : r.Erred) (f : Frame → Parse σ) : (r.bind f).Erred :=
  ⟨List.mem_append_left _ h.1, by rw [Parse.bind, h.2, Bool.true_or]⟩

theorem Parse.Erred.of_bind {r : Parse σ} {f : Frame → Parse σ} (h : (f r.frame).Erred) : (r.bind f).Erred :=
  ⟨List.mem_append_right _ h.1, by rw [Parse.bind, h.2, Bool.or_true]⟩

/-! ## 3. Frames and meanings -/

/-- The frame has the value and the section. -/
structure Stands (p : Frame) (m : Meaning) : Prop where
  val : p.ps_val0 = m.val
  sec : p.ps_val1 = m.sec

namespace Stands

variable {p q : Frame} {m n : Meaning}

theorem of_number (v : BitVec 32) (flg : BitVec 16) : Stands ⟨v, 0, flg⟩ (.number v) := ⟨rfl, rfl⟩

theorem experr : Stands (Parse.experr : Parse σ).frame (.number 0) := of_number 0 0

theorem negated (h : Stands p m) : Stands (negated p : Parse σ).frame (m.onNumber fun v => -v) := by
  obtain ⟨hval, hsec⟩ := h
  unfold Asm.negated
  rw [hval, hsec]
  cases m with
  | number v => exact of_number ..
  | place v s hs =>
    rw [Meaning.sec, if_pos hs]
    exact experr

theorem complemented (h : Stands p m) :
    Stands (complemented p : Parse σ).frame (m.onNumber fun v => ~~~v) := by
  obtain ⟨hval, hsec⟩ := h
  unfold Asm.complemented
  rw [hval, hsec]
  cases m with
  | number v => exact of_number ..
  | place v s hs =>
    rw [Meaning.sec, if_pos hs]
    exact experr

theorem absolute (f : BitVec 32 → BitVec 32 → BitVec 32) (h : Stands p m) (h' : Stands q n) :
    Stands (absolute p q (f p.ps_val0 q.ps_val0) : Parse σ).frame (m.onNumbers f n) := by
  obtain ⟨hval, hsec⟩ := h
  obtain ⟨hval', hsec'⟩ := h'
  unfold Asm.absolute
  rw [hval, hsec, hval', hsec']
  cases m with
  | number v =>
    cases n with
    | number w => exact of_number ..
    | place w s hs =>
      rw [Meaning.sec, Meaning.sec, if_pos (.inr hs)]
      exact experr
  | place v s hs =>
    rw [Meaning.sec, if_pos (.inl hs)]
    exact experr

theorem added (h : Stands p m) (h' : Stands q n) : Stands (added p q : Parse σ).frame (m.add n) := by
  obtain ⟨pv, ps, pf⟩ := p
  obtain ⟨qv, qs, qf⟩ := q
  unfold Asm.added
  cases m with
  | number v =>
    obtain ⟨rfl, rfl⟩ : pv = v ∧ ps = 0 := ⟨h.val, h.sec⟩
    cases n with
    | number w => exact ⟨congrArg (pv + ·) h'.val, h'.sec⟩
    | place w s hs => exact ⟨congrArg (pv + ·) h'.val, h'.sec⟩
  | place v s hs =>
    obtain ⟨rfl, rfl⟩ : pv = v ∧ ps = s := ⟨h.val, h.sec⟩
    cases n with
    | number w =>
      obtain ⟨rfl, rfl⟩ : qv = w ∧ qs = 0 := ⟨h'.val, h'.sec⟩
      rw [if_neg fun h => h.2 rfl, if_pos hs]
      exact ⟨rfl, rfl⟩
    | place w s' hs' =>
      obtain ⟨rfl, rfl⟩ : qv = w ∧ qs = s' := ⟨h'.val, h'.sec⟩
      rw [if_pos ⟨hs, hs'⟩]
      exact experr

theorem subtracted (h : Stands p m) (h' : Stands q n) :
    Stands (subtracted p q : Parse σ).frame (m.sub n) := by
  obtain ⟨pv, ps, pf⟩ := p
  obtain ⟨qv, qs, qf⟩ := q
  unfold Asm.subtracted
  dsimp only
  cases m with
  | number v =>
    obtain ⟨rfl, rfl⟩ : pv = v ∧ ps = 0 := ⟨h.val, h.sec⟩
    cases n with
    | number w =>
      obtain ⟨rfl, rfl⟩ : qv = w ∧ qs = 0 := ⟨h'.val, h'.sec⟩
      exact of_number ..
    | place w s hs =>
      obtain ⟨rfl, rfl⟩ : qv = w ∧ qs = s := ⟨h'.val, h'.sec⟩
      rw [if_neg (Ne.symm hs), if_pos hs]
      exact experr
  | place v s hs =>
    obtain ⟨rfl, rfl⟩ : pv = v ∧ ps = s := ⟨h.val, h.sec⟩
    cases n with
    | number w =>
      obtain ⟨rfl, rfl⟩ : qv = w ∧ qs = 0 := ⟨h'.val, h'.sec⟩
      rw [if_neg hs, if_neg (not_not.mpr rfl)]
      exact ⟨rfl, rfl⟩
    | place w s' hs' =>
      obtain ⟨rfl, rfl⟩ : qv = w ∧ qs = s' := ⟨h'.val, h'.sec⟩
      rw [Meaning.sub]
      by_cases hsame : ps = qs
      · rw [if_pos hsame, if_pos hsame]
        exact of_number ..
      · rw [if_neg hsame, if_neg hsame, if_pos hs']
        exact experr

theorem eq_iff (h : Stands p m) (h' : Stands q n) :
    p.ps_val1 = q.ps_val1 ∧ p.ps_val0 = q.ps_val0 ↔ m = n := by
  rw [h.val, h.sec, h'.val, h'.sec]
  constructor
  · rintro ⟨hsec, hval⟩
    rw [← m.at_self, ← n.at_self, hsec, hval]
  · rintro rfl
    exact ⟨rfl, rfl⟩

theorem compared (op : RelOp) (h : Stands p m) (h' : Stands q n) :
    Stands (compared op p q : Parse σ).frame (.compare op m n) := by
  have heq := eq_iff h h'
  have hordered (op : RelOp) : Stands
      (if p.ps_val1 = q.ps_val1 then
        .value ⟨truth (op.holds (p.ps_val1 = q.ps_val1 ∧ p.ps_val0 = q.ps_val0)
          (p.ps_val0.slt q.ps_val0)), 0, p.ps_flg ||| q.ps_flg &&& OFFOR⟩
        else .experr : Parse σ).frame
      (if m.sec = n.sec then .number (truth (op.holds (m.val = n.val) (m.val.slt n.val))) else .number 0) := by
    rw [h.val, h.sec, h'.val, h'.sec]
    by_cases hsame : m.sec = n.sec
    · simp only [hsame, if_true, true_and]
      exact of_number ..
    · rw [if_neg hsame, if_neg hsame]
      exact experr
  cases op with
  | TVEQ =>
    have hval : truth (RelOp.TVEQ.holds (p.ps_val1 = q.ps_val1 ∧ p.ps_val0 = q.ps_val0)
        (p.ps_val0.slt q.ps_val0)) = truth (m = n) := by
      simp only [RelOp.holds, heq]
    exact ⟨hval, rfl⟩
  | TVNE =>
    have hval : truth (RelOp.TVNE.holds (p.ps_val1 = q.ps_val1 ∧ p.ps_val0 = q.ps_val0)
        (p.ps_val0.slt q.ps_val0)) = truth (m ≠ n) := by
      simp only [RelOp.holds, heq, decide_not, ne_eq]
    exact ⟨hval, rfl⟩
  | TVLT => exact hordered .TVLT
  | TVGT => exact hordered .TVGT
  | TVLE => exact hordered .TVLE
  | TVGE => exact hordered .TVGE

end Stands

namespace Expr

variable (t : Tab σ) (em : Emitter)

theorem symbol_meaning (sym : σ) : Stands (sem12 t em.pass2 sym).frame ((symbol sym).meaning t em) := by
  unfold sem12 meaning
  dsimp only
  by_cases hdef : Defined t em.pass2 sym
  · rw [if_pos hdef]
    obtain ⟨htyp, hrel⟩ := hdef
    have hno : ¬((t.sytab sym).sy_typ = .STUND ∨ (t.sytab sym).sy_rel = RBUND ∨
        (t.sytab sym).sy_typ = .STVAR ∧ em.pass2 = true ∧ ¬(t.sytab sym).SADP2 = true) := by
      rintro (hund | hund | ⟨hvar, hpass, hadp⟩)
      · rw [hund] at htyp
        rcases htyp with htyp | ⟨htyp, -⟩ <;> cases htyp
      · exact hrel hund
      · rcases htyp with hlab | ⟨-, hset⟩
        · rw [hlab] at hvar
          cases hvar
        · exact hadp (hset hpass)
    have hkind : (t.sytab sym).sy_typ ≠ .STKEY ∧ (t.sytab sym).sy_typ ≠ .STSEC := by
      rcases htyp with htyp | ⟨htyp, -⟩ <;> rw [htyp] <;> exact ⟨Typ.noConfusion, Typ.noConfusion⟩
    rw [if_neg hkind.1, if_neg hkind.2, if_neg hno]
    exact ⟨(Meaning.at_val ..).symm, (Meaning.at_sec ..).symm⟩
  · rw [if_neg hdef]
    split
    · exact .of_number ..
    split
    · exact .experr
    split
    · exact .of_number ..
    · rename_i hkey hsec hund
      rw [not_or, not_or] at hund
      refine absurd ⟨?_, hund.2.1⟩ hdef
      cases htyp : (t.sytab sym).sy_typ with
      | STUND => exact absurd htyp hund.1
      | STKEY => exact absurd htyp hkey
      | STSEC => exact absurd htyp hsec
      | STLAB => exact .inl rfl
      | STVAR => exact .inr ⟨rfl, fun hpass => by_contra fun hadp => hund.2.2 ⟨htyp, hpass, hadp⟩⟩

/-- **The parse stack has what the operands stand for**. -/
theorem eval_meaning (e : Expr σ) : Stands (e.eval t em).frame (e.meaning t em) := by
  induction e with
  | constant v => exact .of_number ..
  | symbol sym => exact symbol_meaning t em sym
  | dollar => exact ⟨(Meaning.at_val ..).symm, (Meaning.at_sec ..).symm⟩
  | paren e ih => exact ih
  | plus e ih => exact ⟨ih.val, ih.sec⟩
  | minus e ih => exact ih.negated
  | compl e ih => exact ih.complemented
  | mulop op a b iha ihb => exact iha.absolute (fun v w => op.eval v w) ihb
  | add a b iha ihb => exact iha.added ihb
  | sub a b iha ihb => exact iha.subtracted ihb
  | relop op a b iha ihb => exact iha.compared op ihb
  | strings op a b => exact .of_number ..
  | and a b iha ihb => exact iha.absolute (· &&& ·) ihb
  | xor a b iha ihb => exact iha.absolute (· ^^^ ·) ihb
  | or a b iha ihb => exact iha.absolute (· ||| ·) ihb
  | bad => exact .of_number ..

omit t em in
theorem absolute_bad (p q : Frame) (v : BitVec 32) : (absolute p q v : Parse σ).bad = false := by
  unfold absolute
  split <;> rfl

omit t em in
theorem added_bad (p q : Frame) : (added p q : Parse σ).bad = false := by
  unfold added
  split <;> rfl

omit t em in
theorem subtracted_bad (p q : Frame) : (subtracted p q : Parse σ).bad = false := by
  unfold subtracted
  dsimp only
  repeat' split
  all_goals rfl

omit t em in
theorem compared_bad (op : RelOp) (p q : Frame) : (compared op p q : Parse σ).bad = false := by
  unfold compared
  cases op <;> dsimp only <;> first | rfl | (split <;> rfl)

/-- A syntax error is text that is no expression. -/
theorem bad_iff (e : Expr σ) : (e.eval t em).bad = false ↔ e.Proper t := by
  have unary {a : Expr σ} {f : Frame → Parse σ} (hf : ∀ p, (f p).bad = false)
      (ih : (a.eval t em).bad = false ↔ a.Proper t) :
      ((a.eval t em).bind f).bad = false ↔ a.Proper t := by
    rw [← ih, Parse.bind, hf, Bool.or_false]
  have binary {a b : Expr σ} {f : Frame → Frame → Parse σ} (hf : ∀ p q, (f p q).bad = false)
      (iha : (a.eval t em).bad = false ↔ a.Proper t) (ihb : (b.eval t em).bad = false ↔ b.Proper t) :
      ((a.eval t em).bind fun p => (b.eval t em).bind (f p)).bad = false ↔ a.Proper t ∧ b.Proper t := by
    rw [← iha, ← ihb, Parse.bind, Parse.bind, hf, Bool.or_false, Bool.or_eq_false_iff]
  induction e with
  | constant v => exact iff_of_true rfl trivial
  | symbol sym =>
    change (sem12 t em.pass2 sym).bad = false ↔ (t.sytab sym).sy_typ ≠ .STKEY
    unfold sem12
    dsimp only
    by_cases hkey : (t.sytab sym).sy_typ = .STKEY
    · rw [if_pos hkey]
      exact iff_of_false Bool.noConfusion fun h => h hkey
    · rw [if_neg hkey]
      refine iff_of_true ?_ hkey
      repeat' split
      all_goals rfl
  | dollar => exact iff_of_true rfl trivial
  | paren e ih => exact ih
  | plus e ih => exact unary (fun _ => rfl) ih
  | minus e ih =>
    refine unary (fun p => ?_) ih
    unfold negated
    split <;> rfl
  | compl e ih =>
    refine unary (fun p => ?_) ih
    unfold complemented
    split <;> rfl
  | mulop op a b iha ihb => exact binary (fun _ _ => absolute_bad ..) iha ihb
  | add a b iha ihb => exact binary added_bad iha ihb
  | sub a b iha ihb => exact binary subtracted_bad iha ihb
  | relop op a b iha ihb => exact binary (compared_bad op) iha ihb
  | strings op a b => exact iff_of_true rfl trivial
  | and a b iha ihb => exact binary (fun _ _ => absolute_bad ..) iha ihb
  | xor a b iha ihb => exact binary (fun _ _ => absolute_bad ..) iha ihb
  | or a b iha ihb => exact binary (fun _ _ => absolute_bad ..) iha ihb
  | bad => exact iff_of_false Bool.noConfusion id

variable {t em}

omit t em in
theorem divisor_iff (op : MulOp) {p q : Frame} {m n : Meaning} (h : Stands p m) (h' : Stands q n)
    (d : BitVec 32) : d ∈ divisor op p q ↔ op.divides = true ∧ m.sec = 0 ∧ n = .number d := by
  have hnumber : n = .number d ↔ n.sec = 0 ∧ d = n.val := by
    constructor
    · rintro rfl
      exact ⟨rfl, rfl⟩
    · rintro ⟨hsec, rfl⟩
      rw [← n.at_self, hsec]
      rfl
  unfold divisor
  rw [h.sec, h'.sec, h'.val, hnumber]
  by_cases hplace : m.sec ≠ 0 ∨ n.sec ≠ 0
  · rw [if_pos hplace]
    refine iff_of_false List.not_mem_nil fun hall => ?_
    exact hplace.elim (· hall.2.1) (· hall.2.2.1)
  · rw [if_neg hplace]
    rw [not_or, not_not, not_not] at hplace
    cases op.divides <;> simp [hplace.1, hplace.2]

/-- **What the parser divides by**: the divisor of every division of numbers that it comes to. -/
theorem mem_divs (e : Expr σ) (d : BitVec 32) : d ∈ e.divs t em ↔
    ∃ x y, Comes t x y e ∧ (x.meaning t em).sec = 0 ∧ y.meaning t em = .number d := by
  -- a part of the expression, of which the parser comes to `b` if `a` is an expression
  have part {a : Expr σ} {l : List (BitVec 32)} {P : Expr σ → Expr σ → Prop}
      (iha : d ∈ a.divs t em ↔ ∃ x y, Comes t x y a ∧ (x.meaning t em).sec = 0 ∧ y.meaning t em = .number d)
      (ihb : d ∈ l ↔ ∃ x y, P x y ∧ (x.meaning t em).sec = 0 ∧ y.meaning t em = .number d) :
      d ∈ a.divs t em ++ (if (a.eval t em).bad then [] else l) ↔
      ∃ x y, (Comes t x y a ∨ a.Proper t ∧ P x y) ∧ (x.meaning t em).sec = 0 ∧
        y.meaning t em = .number d := by
    rw [List.mem_append, iha]
    cases hbad : (a.eval t em).bad with
    | true =>
      have hno : ¬a.Proper t := fun h => by
        rw [(bad_iff t em a).mpr h] at hbad
        cases hbad
      simp [hno]
    | false =>
      have hyes : a.Proper t := (bad_iff t em a).mp hbad
      simp only [Bool.false_eq_true, if_false, ihb, hyes, true_and]
      constructor
      · rintro (⟨x, y, hc, hm⟩ | ⟨x, y, hc, hm⟩)
        · exact ⟨x, y, .inl hc, hm⟩
        · exact ⟨x, y, .inr hc, hm⟩
      · rintro ⟨x, y, hc | hc, hm⟩
        · exact .inl ⟨x, y, hc, hm⟩
        · exact .inr ⟨x, y, hc, hm⟩
  have none {e : Expr σ} (h : ∀ x y, ¬Comes t x y e) : d ∈ ([] : List (BitVec 32)) ↔
      ∃ x y, Comes t x y e ∧ (x.meaning t em).sec = 0 ∧ y.meaning t em = .number d :=
    iff_of_false List.not_mem_nil fun ⟨x, y, hc, _⟩ => h x y hc
  induction e with
  | constant v => exact none fun _ _ => id
  | symbol sym => exact none fun _ _ => id
  | dollar => exact none fun _ _ => id
  | paren e ih => exact ih
  | plus e ih => exact ih
  | minus e ih => exact ih
  | compl e ih => exact ih
  | mulop op a b iha ihb =>
    refine part iha (part ihb ?_)
    rw [divisor_iff op (eval_meaning t em a) (eval_meaning t em b)]
    constructor
    · rintro ⟨hop, hx, hy⟩
      exact ⟨a, b, ⟨hop, rfl, rfl⟩, hx, hy⟩
    · rintro ⟨x, y, ⟨hop, rfl, rfl⟩, hx, hy⟩
      exact ⟨hop, hx, hy⟩
  | add a b iha ihb => exact part iha ihb
  | sub a b iha ihb => exact part iha ihb
  | relop op a b iha ihb => exact part iha ihb
  | strings op a b => exact none fun _ _ => id
  | and a b iha ihb => exact part iha ihb
  | xor a b iha ihb => exact part iha ihb
  | or a b iha ihb => exact part iha ihb
  | bad => exact none fun _ _ => id

/-- A division of places is an error of the statement. -/
theorem comes_error {x y e : Expr σ} (h : Comes t x y e)
    (hplace : (x.meaning t em).sec ≠ 0 ∨ (y.meaning t em).sec ≠ 0) : (e.eval t em).Erred := by
  have binary {a b : Expr σ} {f : Frame → Frame → Parse σ} (iha : Comes t x y a → (a.eval t em).Erred)
      (ihb : Comes t x y b → (b.eval t em).Erred) (h : Comes t x y a ∨ a.Proper t ∧ Comes t x y b) :
      ((a.eval t em).bind fun p => (b.eval t em).bind (f p)).Erred := by
    rcases h with h | ⟨-, h⟩
    · exact (iha h).bind _
    · exact .of_bind ((ihb h).bind _)
  induction e with
  | paren e ih => exact ih h
  | plus e ih => exact (ih h).bind _
  | minus e ih => exact (ih h).bind _
  | compl e ih => exact (ih h).bind _
  | mulop op a b iha ihb =>
    rcases h with h | ⟨-, h | ⟨-, -, rfl, rfl⟩⟩
    · exact (iha h).bind _
    · exact .of_bind ((ihb h).bind _)
    · refine .of_bind (.of_bind ?_)
      rw [← (eval_meaning t em x).sec, ← (eval_meaning t em y).sec] at hplace
      rw [absolute, if_pos hplace]
      exact ⟨List.mem_singleton_self _, rfl⟩
  | add a b iha ihb => exact binary iha ihb h
  | sub a b iha ihb => exact binary iha ihb h
  | relop op a b iha ihb => exact binary iha ihb h
  | and a b iha ihb => exact binary iha ihb h
  | xor a b iha ihb => exact binary iha ihb h
  | or a b iha ihb => exact binary iha ihb h
  | _ => exact h.elim

end Expr

/-- No division by 0 is carried out, and a division by 0 that the parser comes to is reported. -/
structure Guarded (t : Tab σ) (em : Emitter) (e : Expr σ) : Prop where
  carried : ∀ d ∈ e.divs t em, d ≠ 0
  reported : ∀ x y, Expr.Comes t x y e → (y.meaning t em).val = 0 → (e.eval t em).Erred

/-- **No division by 0**: in either pass, and whatever the symbols are, exactly when no number is divided
by the number 0. -/
theorem divides_iff (t : Tab σ) (em : Emitter) (e : Expr σ) : Guarded t em e ↔
    ∀ x y, Expr.Comes t x y e → (x.meaning t em).sec = 0 → y.meaning t em ≠ .number 0 := by
  constructor
  · intro h x y hcomes hx hy
    exact h.carried 0 ((e.mem_divs 0).mpr ⟨x, y, hcomes, hx, hy⟩) rfl
  · intro h
    refine ⟨fun d hd hzero => ?_, fun x y hcomes hval => ?_⟩
    · obtain ⟨x, y, hcomes, hx, hy⟩ := (e.mem_divs d).mp hd
      rw [hzero] at hy
      exact h x y hcomes hx hy
    · refine Expr.comes_error hcomes ?_
      by_contra hno
      rw [not_or, not_not, not_not] at hno
      refine h x y hcomes hno.1 ?_
      rw [← (y.meaning t em).at_self, hval, hno.2]
      rfl

/-- `1/0`. -/
def oneByZero : Expr Name := .mulop .TVDIV (.constant 1) (.constant 0)

/-- `.word 1/0` is divided in both passes, and nothing is reported. -/
theorem divides_by_zero : ∃ s s', startpass plainSetup plainStart = some ((), s) ∧
    ¬Guarded s.tab s.em oneByZero ∧
    assemble plainSetup [⟨none, .ADWORD (some [oneByZero]), false⟩]
      [⟨none, .ADWORD (some [oneByZero]), false⟩] plainStart = some ((), s') ∧ s'.tab.errct = 0 := by
  obtain ⟨s, hs, -, -⟩ := startpass_plain
  have hrun : ((assemble plainSetup [⟨none, .ADWORD (some [oneByZero]), false⟩]
      [⟨none, .ADWORD (some [oneByZero]), false⟩] plainStart).map fun r => r.2.tab.errct) = some 0 := by
    decide +kernel
  obtain ⟨⟨⟨⟩, s'⟩, hend, herrct⟩ := Option.map_eq_some_iff.mp hrun
  refine ⟨s, s', hs, fun hguard => ?_, hend, herrct⟩
  exact hguard.carried 0 (List.mem_singleton_self _) rfl

end Cpm8000.Asm
