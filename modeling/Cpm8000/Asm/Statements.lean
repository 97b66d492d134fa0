/-
# What the statements of a pass change

A statement reports errors, moves the symbol table, emits, counts sections and ends the reading. A
relation that is `Closed` under these is kept by every statement (`assem1_keeps`), but for the three that
change the levels of the conditions, and for a warning, which takes up place in the error field.
-/
import Cpm8000.Asm.Passes

namespace Cpm8000.Asm

open Cpm8000.Sys

/-! ## 1. Emitting leaves the pass alone -/

/-- The output function does not change the pass. -/
def Steady (f : Emitter → Option Emitter) : Prop := ∀ em em', f em = some em' → em'.pass2 = em.pass2

namespace Steady

theorem pure {f : Emitter → Emitter} (h : ∀ em, (f em).pass2 = em.pass2) : Steady fun em => some (f em) := by
  intro em em' hem
  obtain rfl := Option.some.inj hem
  exact h em

theorem bind {f g : Emitter → Option Emitter} (hf : Steady f) (hg : Steady g) :
    Steady fun em => (f em).bind g := by
  intro em em' hem
  obtain ⟨t, ht, ht'⟩ := Option.bind_eq_some_iff.mp hem
  exact (hg t em' ht').trans (hf em t ht)

theorem map {f : Emitter → Option Emitter} {g : Emitter → Emitter} (hf : Steady f)
    (hg : ∀ em, (g em).pass2 = em.pass2) : Steady fun em => (f em).map g := by
  intro em em' hem
  obtain ⟨t, ht, rfl⟩ := Option.map_eq_some_iff.mp hem
  exact (hg t).trans (hf em t ht)

theorem ite {c : Emitter → Prop} [DecidablePred c] {f g : Emitter → Option Emitter} (hf : Steady f)
    (hg : Steady g) : Steady fun em => if c em then f em else g em := by
  intro em em' hem
  dsimp only at hem
  split at hem
  · exact hf em em' hem
  · exact hg em em' hem

theorem oputb (c : Byte) : Steady fun em => em.oputb c := by
  intro em em' hem
  unfold Emitter.oputb at hem
  dsimp only at hem
  split at hem
  · cases hem
  · obtain rfl := Option.some.inj hem
    rfl

theorem oputw (w : BitVec 16) : Steady fun em => em.oputw w := (oputb _).bind (oputb _)

theorem oputl (l : BitVec 32) : Steady fun em => em.oputl l := (oputw _).bind (oputw _)

theorem setorg : Steady Emitter.setorg := by
  intro em em' hem
  unfold Emitter.setorg at hem
  split at hem
  · obtain ⟨t, ht, rfl⟩ := Option.map_eq_some_iff.mp hem
    have hput : Steady fun em => (em.oputl t.curloc).bind fun t => t.oputb 0 := (oputl _).bind (oputb _)
    obtain ⟨u, hu, ht⟩ := Option.bind_eq_some_iff.mp ht
    obtain ⟨v, hv, ht⟩ := Option.bind_eq_some_iff.mp ht
    have h₁ := oputl _ _ _ hu
    have h₂ := oputb _ _ _ hv
    have h₃ := oputb _ _ _ ht
    exact h₃.trans (h₂.trans h₁)
  · obtain rfl := Option.some.inj hem
    rfl

theorem emitb (value reloc : BitVec 16) : Steady fun em => em.emitb value reloc := by
  refine map ?_ fun _ => rfl
  intro em em' hem
  dsimp only at hem
  split at hem
  · unfold Emitter.emitObject at hem
    obtain ⟨t, ht, hem⟩ := Option.bind_eq_some_iff.mp hem
    obtain ⟨u, hu, rfl⟩ := Option.map_eq_some_iff.mp hem
    have hput := oputb _ _ _ hu
    have hset := setorg _ _ ht
    have hrec (t : Emitter) : (t.putrec (Emitter.needed reloc)).pass2 = t.pass2 := by
      unfold Emitter.putrec
      split <;> rfl
    have hflush (c : Prop) [Decidable c] : (if c then em.oflush else em).pass2 = em.pass2 := by
      split <;> rfl
    exact hput.trans ((hrec t).trans (hset.trans (hflush _)))
  · obtain rfl := Option.some.inj hem
    rfl

theorem emitwm (value reloc : BitVec 16) : Steady fun em => em.emitwm value reloc :=
  (emitb _ _).bind (emitb _ _)

theorem emitlm (value : BitVec 32) (reloc : BitVec 16) : Steady fun em => em.emitlm value reloc :=
  (emitwm _ _).bind (emitwm _ _)

theorem emitls (value : BitVec 32) (reloc : BitVec 16) : Steady fun em => em.emitls value reloc :=
  emitlm _ _

theorem emitss (value reloc : BitVec 16) : Steady fun em => em.emitss value reloc := emitwm _ _

theorem transfer (op : Operand) : Steady (transfer op) := by
  intro em em' hem
  unfold Asm.transfer at hem
  split at hem
  · obtain ⟨t, ht, hem⟩ := Option.bind_eq_some_iff.mp hem
    have hput := oputl op.op_val { em.oflush with objtyp := OBTRA } t ht
    exact (oputw _ _ _ hem).trans hput
  · obtain rfl := Option.some.inj hem
    rfl

end Steady

/-! ## 2. Statements -/

variable {σ : Type} [DecidableEq σ]

/-- A relation that says nothing against what a statement does. -/
class Closed (R : Assembler σ → Assembler σ → Prop) : Prop
    extends Std.Refl R, IsTrans (Assembler σ) R where
  tab : ∀ s t, Moves s.em.pass2 s.tab t → R s { s with tab := t }
  em : ∀ s em, em.pass2 = s.em.pass2 → R s { s with em := em }
  secct : ∀ s n, R s { s with secct := n }
  reading : ∀ s b, R s { s with reading := b }

namespace Closed

variable {R : Assembler σ → Assembler σ → Prop} [Closed R]

theorem of_move {f : Tab σ → Bool → Tab σ} (h : ∀ t p, Move p t (f t p)) :
    Keeps R (modify fun s : Assembler σ => { s with tab := f s.tab s.em.pass2 } : M σ Unit) :=
  .modify fun s => tab s _ (.single (h s.tab s.em.pass2))

theorem err (c : Char) : Keeps R (Asm.err c : M σ Unit) := of_move fun t _ => .err t c

theorem assign (label : Option σ) (typ : Typ) (val : BitVec 32) (rel : BitVec 16) :
    Keeps R (Asm.assign label typ val rel) := of_move fun t _ => .assign t label typ val rel

theorem global (sym : σ) :
    Keeps R (change fun s : Assembler σ => { s with tab := s.tab.global sym }) :=
  of_move fun t _ => .global t sym

theorem emit {f : Emitter → Option Emitter} (h : Steady f) : Keeps R (Asm.emit f : M σ Unit) := by
  intro s a s' hs
  obtain ⟨t, ht, heq⟩ := Option.map_eq_some_iff.mp hs
  obtain rfl : { s with em := t } = s' := congrArg Prod.snd heq
  exact em s t (h _ _ ht)

theorem only {c : Prop} [Decidable c] {m : M σ Unit} (h : Keeps R m) : Keeps R (Asm.only c m) :=
  .ite h (.pure _)

theorem setloc (loc : BitVec 32) : Keeps R (Asm.setloc loc : M σ Unit) := emit (.pure fun _ => rfl)

theorem setorg : Keeps R (Asm.setorg : M σ Unit) := emit (.ite .setorg (.pure fun _ => rfl))

theorem setsec (sec : BitVec 16) : Keeps R (Asm.setsec sec : M σ Unit) := emit (.pure fun _ => rfl)

theorem place (label : Option σ) : Keeps R (Asm.place label) := .bind .get fun _ => assign _ _ _ _

theorem even : Keeps R (Asm.even : M σ Unit) := .bind .get fun _ => only (setloc _)

/-- What the parser reports and reads is moves of the table. -/
theorem log {pass2 : Bool} (t : Tab σ) (emits : Bool) (r : Parse σ)
    (h : ∀ p ∈ r.refs, Resolved pass2 t p) : Moves pass2 t (t.log pass2 emits r) := by
  have herrs (l : List Char) : Moves pass2 t (l.foldl (fun t c => t.err pass2 c) t) ∧
      (l.foldl (fun t c => t.err pass2 c) t).sytab = t.sytab := by
    induction l using List.reverseRecOn with
    | nil => exact ⟨.refl, rfl⟩
    | append_singleton l c ih =>
      rw [List.foldl_append]
      exact ⟨ih.1.tail (.err _ c), (Tab.err_sytab _ c).trans ih.2⟩
  refine (herrs r.flags).1.tail (.use _ emits r.refs fun p hp => ?_)
  unfold Resolved
  rw [(herrs r.flags).2]
  exact h p hp

theorem iiparse (g : Setup σ) (emits : Bool) (a : Arg σ) : Keeps R (Asm.iiparse g emits a) := by
  refine .modifyGet fun s => tab s _ (log s.tab emits _ fun p hp => ?_)
  have heval (e : Expr σ) := e.eval_resolved s.tab s.em
  have hcheck (r : Parse σ) (c : Prop) [Decidable c] : (r.check c).refs = r.refs := by
    unfold Parse.check
    split <;> rfl
  cases a with
  | expr e => exact heval e p hp
  | imm e => exact heval e p hp
  | indexed e r =>
    dsimp only [Arg.sem] at hp
    rw [hcheck] at hp
    exact heval e p hp
  | based wide base e =>
    dsimp only [Arg.sem] at hp
    rw [hcheck] at hp
    exact heval e p hp
  | baseIndexed wide base r =>
    dsimp only [Arg.sem] at hp
    rw [hcheck, hcheck] at hp
    cases hp
  | short e => exact heval e p hp
  | shortIndexed e r =>
    dsimp only [Arg.sem] at hp
    rw [hcheck] at hp
    exact heval e p hp
  | _ => cases hp

theorem expression (g : Setup σ) (emits : Bool) (e : Expr σ) : Keeps R (Asm.expression g emits e) :=
  .bind (iiparse g emits _) fun _ => .ite (.bind (err _) fun _ => .pure _) (.pure _)

theorem operand (g : Setup σ) (emits : Bool) (e : Option (Expr σ)) {f : Operand → M σ Unit}
    (h : ∀ op, Keeps R (f op)) : Keeps R (Asm.operand g emits e f) := by
  cases e with
  | none => exact err _
  | some e => exact .bind (expression g emits e) h

theorem operands {ι : Type} (l : Option (List ι)) {f : ι → M σ Unit} (h : ∀ i, Keeps R (f i)) :
    Keeps R (Asm.operands l f) := by
  cases l with
  | none => exact err _
  | some l => exact .forM l fun i _ => h i

theorem inops (g : Setup σ) (n : ℕ) (ops : List (Arg σ)) : Keeps R (Asm.inops g n ops) := by
  induction n generalizing ops with
  | zero => exact .pure _
  | succ n ih =>
    cases ops with
    | nil => exact .bind (ih []) fun _ => .pure _
    | cons a ops =>
      refine .bind (iiparse g true a) fun _ => .ite ?_ ?_
      · exact .bind (err _) fun _ => .bind (ih []) fun _ => .pure _
      · exact .bind (ih ops) fun _ => .pure _

theorem pack (g : Setup σ) (l : List (Action × Operand)) (w : Fields) :
    Keeps R (Asm.pack g l w : M σ Fields) := by
  induction l generalizing w with
  | nil => exact .pure _
  | cons p l ih => exact .bind .get fun _ => .bind (only (err _)) fun _ => ih _

theorem emitb (value reloc : BitVec 16) : Keeps R (Asm.emit fun em => em.emitb value reloc : M σ Unit) :=
  emit (.emitb _ _)

theorem putinstr (g : Setup σ) (fmp : Format) (w : Fields) :
    Keeps R (Asm.putinstr g fmp w : M σ Unit) := by
  refine .bind (emitb _ _) fun _ => .bind (emitb _ _) fun _ => ?_
  refine .bind (only (.bind (emitb _ _) fun _ => emitb _ _)) fun _ => ?_
  refine .bind (only (emit (.ite (.emitss _ _) (.emitwm _ _)))) fun _ => ?_
  refine .bind (only (emit (.emitls _ _))) fun _ => ?_
  refine .bind (only (.bind (emitb _ _) fun _ => emitb _ _)) fun _ => ?_
  refine .bind (only (.bind (only (err _)) fun _ => emit (.emitwm _ _))) fun _ => ?_
  exact only (emit (.ite (.emitls _ _) (.emitlm _ _)))

theorem instr (g : Setup σ) (label : Option σ) (fmp : List Format) (ops : List (Arg σ)) :
    Keeps R (Asm.instr g label fmp ops) := by
  refine .bind even fun _ => .bind (place label) fun _ => .bind (inops g _ ops) fun optab => ?_
  cases fmp.find? (opmatch optab) with
  | none => exact err _
  | some fmp => exact .bind (pack g _ _) fun _ => putinstr g fmp _

theorem newsec (g : Setup σ) (label : Option σ) : Keeps R (Asm.newsec g label) := by
  refine .bind .get fun s => .ite .none ?_
  refine .bind (assign _ _ _ _) fun _ => .bind (setsec _) fun _ => ?_
  exact .bind (.modify fun s => secct s _) fun _ => emit (.pure fun _ => rfl)

theorem section_ (g : Setup σ) (label : Option σ) (atr : BitVec 16) :
    Keeps R (Asm.section_ g label atr) := by
  cases label with
  | none => exact err _
  | some sym =>
    refine .bind .get fun s => ?_
    have hatr : Keeps R (Asm.emit fun em => some { em with curatr := em.curatr ||| atr } : M σ Unit) :=
      emit (.pure fun _ => rfl)
    exact .ite (.bind (setsec _) fun _ => hatr) (.bind (newsec g _) fun _ => hatr)

theorem equ (g : Setup σ) (label : Option σ) (symtype : Typ) (e : Option (Expr σ)) :
    Keeps R (Asm.equ g label symtype e) := by
  refine .bind (only (err _)) fun _ => ?_
  cases e with
  | none => exact err _
  | some e =>
    exact .bind (iiparse g false _) fun _ => .bind .get fun _ => .ite (err _) (only (assign _ _ _ _))

theorem control (g : Setup σ) (e : Option (Expr σ)) (bad : Operand → Bool) :
    Keeps R (Asm.control g e bad) := operand g false e fun _ => only (err _)

end Closed

/-- The statements that do what every `Closed` relation allows. -/
def Plain : Stmt σ → Prop
  | .ADELSE => False
  | .ADENDIF => False
  | .ADIF _ => False
  | .ADWARN _ => False
  | _ => True

/-- **What a statement keeps**. -/
theorem assem1_keeps {R : Assembler σ → Assembler σ → Prop} [Closed R] (g : Setup σ) (label : Option σ)
    (stmt : Stmt σ) (h : Plain stmt) : Keeps R (assem1 g label stmt) := by
  have hsteady {f : Emitter → Emitter} (hf : ∀ em, (f em).pass2 = em.pass2) :
      Keeps R (Asm.emit fun em => some (f em) : M σ Unit) := Closed.emit (.pure hf)
  cases stmt with
  | label => exact Closed.place label
  | undefined => exact Closed.err _
  | instr fmp ops => exact Closed.instr g label fmp ops
  | ADABS => exact .bind (Closed.setsec 0) fun _ => Closed.place label
  | ADALIGN e =>
    refine Closed.operand g false e fun op => .ite ?_ ?_
    · exact .bind (hsteady fun _ => rfl) fun _ => .bind Closed.setorg fun _ => Closed.place label
    · exact .bind (Closed.err _) fun _ => Closed.place label
  | ADBLOCK e =>
    refine .bind (Closed.place label) fun _ => Closed.operand g false e fun op => .ite ?_ (Closed.err _)
    exact .bind (hsteady fun _ => rfl) fun _ => Closed.setorg
  | ADBYTE l =>
    refine .bind (Closed.place label) fun _ => Closed.operands l fun item => ?_
    cases item with
    | str s => exact .forM s fun _ _ => Closed.emitb _ _
    | expr e => exact .bind (Closed.expression g true e) fun _ => Closed.emitb _ _
  | ADCLIST e => exact Closed.control g e _
  | ADCOM => exact Closed.section_ g label _
  | ADELSE => exact h.elim
  | ADEND e =>
    have hend : Keeps R (change fun s : Assembler σ => { s with reading := false }) :=
      .modify fun s => Closed.reading s _
    cases e with
    | none => exact hend
    | some e =>
      exact .bind (Closed.expression g true e) fun op => .bind (Closed.emit (.transfer op)) fun _ => hend
  | ADENDIF => exact h.elim
  | ADEQU e => exact Closed.equ g label _ e
  | ADERROR s => exact Closed.operands s Closed.err
  | ADGLOB l => exact Closed.operands l Closed.global
  | ADIF e => exact h.elim
  | ADLIST e => exact Closed.control g e _
  | ADLONG l =>
    refine .bind Closed.even fun _ => .bind (Closed.place label) fun _ => Closed.operands l fun e => ?_
    exact .bind (Closed.expression g true e) fun _ => Closed.emit (.ite (.emitls _ _) (.emitlm _ _))
  | ADORG e =>
    refine Closed.operand g false e fun op => .bind .get fun s => .ite ?_ (Closed.err _)
    exact .bind (Closed.setloc _) fun _ => .bind (Closed.assign _ _ _ _) fun _ => Closed.setorg
  | ADREPT e => exact Closed.control g e _
  | ADSECT => exact Closed.section_ g label _
  | ADSET e => exact Closed.equ g label _ e
  | ADSPACE e => exact Closed.only (Closed.control g e _)
  | ADWARN l => exact h.elim
  | ADWITHN e =>
    refine Closed.operand g false e fun op => .ite ?_ ?_
    · exact .bind (hsteady fun _ => rfl) fun _ => Closed.place label
    · exact .bind (Closed.err _) fun _ => Closed.place label
  | ADWORD l =>
    refine .bind Closed.even fun _ => .bind (Closed.place label) fun _ => Closed.operands l fun e => ?_
    exact .bind (Closed.expression g true e) fun _ => Closed.emit (.emitwm _ _)
  | other flag => exact Closed.operands (some flag.toList) Closed.err

end Cpm8000.Asm
