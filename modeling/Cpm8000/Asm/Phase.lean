/-
# Phase agreement

Every statement moves the symbol table (`assem1_moves`), so the invariants of the two passes hold of a
whole assembly (`assemble_second`). What the second pass reads is then what a definition of the second
pass gave, wherever it came to one: `phase_agreement`.

That it comes to one is not checked. A label that only the first pass defines keeps its address, and the
second pass uses it without an error: `phase_flip`.
-/
import Cpm8000.Asm.Statements

namespace Cpm8000.Asm

open Cpm8000.Sys

/-! ## 1. Statements move the table -/

variable {σ : Type} [DecidableEq σ]

/-- Moves of the table, in one pass. -/
structure Goes (s s' : Assembler σ) : Prop where
  pass2 : s'.em.pass2 = s.em.pass2
  moves : Moves s.em.pass2 s.tab s'.tab

instance : Std.Refl (Goes (σ := σ)) := ⟨fun _ => ⟨rfl, .refl⟩⟩

instance : IsTrans (Assembler σ) Goes where
  trans _ _ _ h h' := by
    refine ⟨h'.pass2.trans h.pass2, h.moves.trans ?_⟩
    rw [← h.pass2]
    exact h'.moves

instance : Closed (Goes (σ := σ)) where
  tab _ _ h := ⟨rfl, h⟩
  em _ _ h := ⟨h, .refl⟩
  secct _ _ := ⟨rfl, .refl⟩
  reading _ _ := ⟨rfl, .refl⟩

/-- What does not touch the table. -/
theorem Goes.change {f : Assembler σ → Assembler σ} (h : ∀ s, (f s).em = s.em ∧ (f s).tab = s.tab) :
    Keeps Goes (Asm.change f) := by
  refine .modify fun s => ⟨by rw [(h s).1], ?_⟩
  rw [(h s).2]

/-- **What a statement does to the table**; a warning takes up place in the error field. -/
theorem assem1_moves (g : Setup σ) (label : Option σ) (stmt : Stmt σ)
    (h : ∀ l, stmt ≠ .ADWARN l) : Keeps Goes (assem1 g label stmt) := by
  by_cases hplain : Plain stmt
  · exact assem1_keeps g label stmt hplain
  cases stmt with
  | ADELSE => exact .bind .get fun _ => .ite (Goes.change fun _ => ⟨rfl, rfl⟩) (Closed.err _)
  | ADENDIF => exact .bind .get fun _ => .ite (Goes.change fun _ => ⟨rfl, rfl⟩) (Closed.err _)
  | ADIF e =>
    refine .bind (Goes.change fun _ => ⟨rfl, rfl⟩) fun _ => Closed.operand g false e fun op => ?_
    exact .ite (Closed.err _) (Closed.only (Goes.change fun _ => ⟨rfl, rfl⟩))
  | ADWARN l => exact absurd rfl (h l)
  | _ => exact absurd trivial hplain

theorem skip1_moves (stmt : Stmt σ) : Keeps Goes (skip1 stmt) := by
  cases stmt with
  | ADIF e => exact Goes.change fun _ => ⟨rfl, rfl⟩
  | ADELSE =>
    refine Goes.change fun s => ?_
    split <;> exact ⟨rfl, rfl⟩
  | ADENDIF => exact Goes.change fun _ => ⟨rfl, rfl⟩
  | _ => exact .pure _

/-- Flags in the error field, of which some are errors. -/
structure Flags (s s' : Assembler σ) : Prop where
  pass2 : s'.em.pass2 = s.em.pass2
  flags : ∃ n, (s.em.pass2 = false → n = 0) ∧ s'.tab = { s.tab with llerr := s'.tab.llerr, errct := s.tab.errct + n }

instance : Std.Refl (Flags (σ := σ)) := ⟨fun _ => ⟨rfl, 0, fun _ => rfl, rfl⟩⟩

instance : IsTrans (Assembler σ) Flags where
  trans s t u h h' := by
    obtain ⟨hp, n, hn, ht⟩ := h
    obtain ⟨hp', n', hn', hu⟩ := h'
    refine ⟨hp'.trans hp, n + n', fun h0 => ?_, ?_⟩
    · rw [hn h0, hn' (hp.trans h0)]
    · rw [hu, ht, Nat.add_assoc]

omit [DecidableEq σ] in
theorem Flags.err (c : Char) : Keeps Flags (Asm.err c : M σ Unit) := by
  refine .modify fun s => ⟨rfl, ?_⟩
  dsimp only [Tab.err]
  split
  · exact ⟨0, fun _ => rfl, rfl⟩
  · rename_i hpass
    exact ⟨1, fun h0 => absurd (.inl h0) hpass, rfl⟩

omit [DecidableEq σ] in
theorem Flags.warn (c : Char) : Keeps Flags
    (change fun s => { s with tab := s.tab.warn s.em.pass2 c } : M σ Unit) := by
  refine .modify fun s => ⟨rfl, 0, fun _ => rfl, ?_⟩
  dsimp only [Tab.warn]
  split <;> rfl

/-- The end of a line. -/
theorem putline_moves : Keeps Goes (change fun s => { s with tab := s.tab.putline } : M σ Unit) :=
  Closed.of_move fun t _ => .line t 0 fun _ => rfl

/-- **A line moves the table**. -/
theorem step_moves (g : Setup σ) (l : Line σ) : Keeps Goes (step g l) := by
  by_cases hwarn : ∃ s, l.stmt = .ADWARN s
  · -- warnings may keep an error out of the field, but nothing else happens on such a line
    obtain ⟨msg, hmsg⟩ := hwarn
    have hline : Keeps Flags (line g l) := by
      unfold line
      rw [hmsg]
      refine .bind .get fun s => .ite (.pure _) (.bind ?_ fun _ => .ite (Flags.err _) (.pure _))
      cases msg with
      | none => exact Flags.err _
      | some msg => exact .forM msg fun c _ => Flags.warn c
    refine .comp (S := fun s s' => s' = { s with tab := s.tab.putline }) ?_ hline fun _ => ?_
    · rintro s t u ⟨hp, n, hn, ht⟩ rfl
      refine ⟨hp, .single ?_⟩
      dsimp only [Tab.putline]
      rw [ht]
      exact .line s.tab n hn
    · exact .modify fun _ => rfl
  · refine .bind (.bind .get fun s => .ite (skip1_moves _) (.bind ?_ fun _ => Closed.only (Closed.err _)))
      fun _ => putline_moves
    exact assem1_moves g l.label l.stmt fun msg hmsg => hwarn ⟨msg, hmsg⟩

theorem statements_moves (g : Setup σ) (ls : List (Line σ)) : Keeps Goes (statements g ls) := by
  induction ls with
  | nil => exact .pure _
  | cons l ls ih => exact .bind (step_moves g l) fun _ => .bind .get fun _ => Closed.only ih

theorem dopass_moves (g : Setup σ) (ls : List (Line σ)) : Keeps Goes (dopass g ls) := by
  refine .bind (.modify fun s => ⟨rfl, .refl⟩) fun _ => .bind (Closed.newsec g _) fun _ => ?_
  exact .bind (statements_moves g ls) fun _ => Closed.setsec 0

/-! ## 2. The whole assembly -/

/-- `interlude` makes labels of symbols that were not defined, so it does not define any for the second
pass. -/
theorem interlude_first (g : Setup σ) (l : List σ) (rel : BitVec 16) {s s' : Assembler σ}
    (h : interlude g l rel s = some ((), s')) (hfirst : First s.tab) :
    s'.em = s.em ∧ First s'.tab := by
  induction l generalizing s rel with
  | nil =>
    obtain rfl : s = s' := congrArg Prod.snd (Option.some.inj h)
    exact ⟨rfl, hfirst⟩
  | cons sym l ih =>
    let ext : Sytab := { s.tab.sytab sym with sy_typ := .STLAB, SAGLO := true, sy_val := 0, sy_rel := rel }
    have hbody : (if (s.tab.sytab sym).sy_typ = .STUND ∧ ((s.tab.sytab sym).SAGLO ∨ g.uext) then
        if RBMSK ≤ rel then exit
        else change (fun u => { u with tab := u.tab.set sym ext }) >>= fun _ => interlude g l (rel + 1)
        else interlude g l rel) s = some ((), s') := h
    by_cases hund : (s.tab.sytab sym).sy_typ = .STUND ∧ ((s.tab.sytab sym).SAGLO ∨ g.uext)
    · rw [if_pos hund] at hbody
      by_cases hmany : RBMSK ≤ rel
      · rw [if_pos hmany] at hbody
        cases hbody
      rw [if_neg hmany] at hbody
      obtain ⟨⟨⟩, s₁, h₁, hrest⟩ := of_bind hbody
      obtain rfl : { s with tab := s.tab.set sym ext } = s₁ := congrArg Prod.snd (Option.some.inj h₁)
      have hext : First (s.tab.set sym ext) := by
        refine ⟨hfirst.llerr, hfirst.errct, hfirst.used, hfirst.reached, fun x hx => ?_⟩
        dsimp only [Tab.set] at hx ⊢
        by_cases hsym : x = sym
        · rw [hsym, Function.update_self] at hx
          have hkey := hfirst.keys sym hx
          rw [hund.1] at hkey
          cases hkey
        · rw [Function.update_of_ne hsym] at hx ⊢
          exact hfirst.keys x hx
      have hend := ih (rel + 1) hrest hext
      exact hend
    · rw [if_neg hund] at hbody
      exact ih rel hbody hfirst

/-- The start: only keywords are defined. -/
structure Begin (s : Assembler σ) : Prop where
  first : First s.tab
  pass2 : s.em.pass2 = false

/-- **The two passes of an assembly.** -/
theorem assemble_passes (g : Setup σ) (first second : List (Line σ)) {s s' : Assembler σ} (hs : Begin s)
    (h : assemble g first second s = some ((), s')) : ∃ s₁ s₃ s₄, dopass g first s = some ((), s₁) ∧
    First s₃.tab ∧ s₃.em.pass2 = true ∧ dopass g second s₃ = some ((), s₄) ∧ s'.tab = s₄.tab := by
  obtain ⟨⟨⟩, s₁, h₁, hrest₁⟩ := of_bind h
  obtain ⟨⟨⟩, s₂, h₂, hrest₂⟩ := of_bind hrest₁
  obtain ⟨⟨⟩, s₃, h₃, hrest₃⟩ := of_bind hrest₂
  obtain ⟨⟨⟩, s₄, h₄, hrest₄⟩ := of_bind hrest₃
  have hpass₁ := (dopass_moves g first s _ s₁ h₁).moves
  rw [hs.pass2] at hpass₁
  obtain ⟨-, hfirst⟩ := interlude_first g _ _ h₂ (hs.first.moves hpass₁)
  obtain rfl : { s₂ with em := { s₂.em with pass2 := true } } = s₃ := congrArg Prod.snd (Option.some.inj h₃)
  obtain rfl : { s₄ with em := Emitter.oflush { s₄.em.oflush with objtyp := OBOND } } = s' :=
    congrArg Prod.snd (Option.some.inj hrest₄)
  exact ⟨s₁, { s₂ with em := { s₂.em with pass2 := true } }, s₄, h₁, hfirst, rfl, h₄, rfl⟩

/-- **The invariant of the second pass holds at the end.** -/
theorem assemble_second (g : Setup σ) (first second : List (Line σ)) {s s' : Assembler σ} (hs : Begin s)
    (h : assemble g first second s = some ((), s')) : Second s'.tab := by
  obtain ⟨s₁, s₃, s₄, -, hfirst, hpass, h₄, htab⟩ := assemble_passes g first second hs h
  have hmoves := (dopass_moves g second s₃ _ s₄ h₄).moves
  rw [hpass] at hmoves
  rw [htab]
  exact hfirst.second.moves hmoves

/-- No error, and what the references of a kind read is what a definition gave that the second pass came
to. -/
def PhaseAgrees (refs : Place σ × Bool → Prop) (t : Tab σ) : Prop :=
  t.errct = 0 → ∀ u ∈ t.used, refs u → u.1 ∈ t.reached

/-- No error, and the second pass comes to a definition of every symbol that the references of a kind
read. -/
def PhaseReaches (refs : Place σ × Bool → Prop) (t : Tab σ) : Prop :=
  t.errct = 0 → ∀ u ∈ t.used, refs u → ∃ p ∈ t.reached, p.sym = u.1.sym

/-- **Phase agreement**: whatever the passes come to, and for whatever kind of references (those in
emitted code, or all; with or without external symbols), they have the section and offset of the
definitions that the second pass reaches, or an error is reported, exactly when it reaches a definition of
each or an error is reported. -/
theorem phase_agreement (g : Setup σ) (first second : List (Line σ)) {s s' : Assembler σ} (hs : Begin s)
    (h : assemble g first second s = some ((), s')) (refs : Place σ × Bool → Prop) :
    PhaseAgrees refs s'.tab ↔ PhaseReaches refs s'.tab := by
  have hsecond := assemble_second g first second hs h
  constructor
  · intro hagree h0 u hu hrefs
    exact ⟨u.1, hagree h0 u hu hrefs, rfl⟩
  · intro hreach h0 u hu hrefs
    obtain ⟨-, hused, hadp⟩ := hsecond.fits h0
    rcases hused u hu with hin | hstale
    · exact hin
    · obtain ⟨p, hp, hsym⟩ := hreach h0 u hu hrefs
      have hdefined := hadp p hp
      rw [hsym, hstale.adp] at hdefined
      cases hdefined

/-- The symbols of the two programs below. -/
inductive Name
  | __text
  | fwd
  | lab
  deriving DecidableEq

def plainSetup : Setup Name := ⟨false, false, 0, .__text, [.__text, .fwd, .lab]⟩

/-- No symbol is known, and nothing was put out. -/
def plainStart : Assembler Name where
  tab := ⟨fun _ => ⟨0, RBUND, .STUND, false, false, false⟩, [], 0, [], []⟩
  em := { secondPass with pass2 := false }
  condlev := 0
  truelev := 0
  secct := 0
  reading := false

theorem plainStart_begin : Begin plainStart :=
  ⟨⟨rfl, rfl, rfl, rfl, fun _ h => nomatch h⟩, rfl⟩

/-- `.word lab`, `lab: .word fwd` and `fwd .equ 1`. -/
def forward : List (Line Name) :=
  [⟨none, .ADWORD (some [.symbol .lab]), false⟩,
    ⟨some .lab, .ADWORD (some [.symbol .fwd]), false⟩,
    ⟨some .fwd, .ADEQU (some (.constant 1)), false⟩]

theorem phase_agreement_forward : ∃ s', assemble plainSetup forward forward plainStart = some ((), s') ∧
    (PhaseAgrees (fun u => u.2 = true) s'.tab ↔ PhaseReaches (fun u => u.2 = true) s'.tab) := by
  have hsome : (assemble plainSetup forward forward plainStart).isSome := by decide +kernel
  obtain ⟨⟨⟨⟩, s'⟩, h⟩ := Option.isSome_iff_exists.mp hsome
  exact ⟨s', h, phase_agreement plainSetup forward forward plainStart_begin h _⟩

/-- `.if fwd == 0`, `lab: .word 0`, `.endif`, `.word lab` and `fwd .equ 1`. -/
def flip : List (Line Name) :=
  [⟨none, .ADIF (some (.relop .TVEQ (.symbol .fwd) (.constant 0))), false⟩,
    ⟨some .lab, .ADWORD (some [.constant 0]), false⟩,
    ⟨none, .ADENDIF, false⟩,
    ⟨none, .ADWORD (some [.symbol .lab]), false⟩,
    ⟨some .fwd, .ADEQU (some (.constant 1)), false⟩]

/-- The first pass does not know `fwd` and takes it for 0; the second one skips `lab`, and puts its address
out all the same. -/
theorem phase_flip : ∃ s', assemble plainSetup flip flip plainStart = some ((), s') ∧
    ¬PhaseAgrees (fun u => u.2 = true) s'.tab := by
  have hrun : ((assemble plainSetup flip flip plainStart).map fun s =>
      (s.2.tab.errct, s.2.tab.used, s.2.tab.reached)) =
      some (0, [(⟨.fwd, 1, 0⟩, false), (⟨.lab, 0, 1⟩, true)], [⟨.__text, 0, 1⟩, ⟨.fwd, 1, 0⟩]) := by
    decide +kernel
  obtain ⟨⟨⟨⟩, s'⟩, h, hs'⟩ := Option.map_eq_some_iff.mp hrun
  obtain ⟨herr, hrest⟩ := Prod.mk.inj hs'
  obtain ⟨hused, hreached⟩ := Prod.mk.inj hrest
  refine ⟨s', h, fun hagree => ?_⟩
  have hlab : (⟨.lab, 0, 1⟩ : Place Name) ∈ s'.tab.reached :=
    hagree herr (⟨.lab, 0, 1⟩, true) (by rw [hused]; simp) rfl
  rw [hreached] at hlab
  revert hlab
  decide

end Cpm8000.Asm
