/-
# Conditional assembly

The conditions that are open on a line are two numbers here: `condlev` counts them, and `truelev` those
from the outside on that select the line. `Level` says so of the list of open conditions, and `.else` and
`.endif` recover from the difference what they need to know (`step_level`).

The numbers have 16 bits. `conditional_reads` is the whole statement, for lines that have fewer than 65536
conditions open anywhere; with the last of 65536 the count is 0 again, and what they all exclude is
assembled (`conditional_wraps`).
-/
import Cpm8000.Asm.Phase

namespace Cpm8000.Asm

open Cpm8000.Sys

variable {σ : Type} [DecidableEq σ]

/-! ## 1. Open conditions -/

/-- A condition that is open: what its `.if` found, and whether the lines are those after its `.else`. -/
structure Cond where
  holds : Bool
  alt : Bool

/-- It selects the line. -/
def Cond.selects (c : Cond) : Bool := c.holds != c.alt

/-- All of them select the line. -/
def Selected (cs : List Cond) : Prop := ∀ c ∈ cs, c.selects = true

/-- What an `.if` finds: an absolute value other than 0. -/
def condition (s : Assembler σ) : Option (Expr σ) → Bool
  | none => false
  | some e =>
    let r := e.eval s.tab s.em
    !r.bad && !r.eflg && r.frame.ps_val1 == 0 && r.frame.ps_val0 != 0

/-- The conditions that are open after a line, the innermost first. -/
def opened (s : Assembler σ) (cs : List Cond) : Stmt σ → List Cond
  | .ADIF e => ⟨condition s e, false⟩ :: cs
  | .ADELSE =>
    match cs with
    | [] => []
    | c :: cs => { c with alt := !c.alt } :: cs
  | .ADENDIF => cs.tail
  | _ => cs

/-- How many are open, from the text alone. -/
def nest (n : ℕ) : Stmt σ → ℕ
  | .ADIF _ => n + 1
  | .ADENDIF => n - 1
  | _ => n

def depth (ls : List (Line σ)) : ℕ := ls.foldl (fun n l => nest n l.stmt) 0

omit [DecidableEq σ] in
theorem depth_append (ls : List (Line σ)) (l : Line σ) : depth (ls ++ [l]) = nest (depth ls) l.stmt := by
  rw [depth, List.foldl_append]
  rfl

omit [DecidableEq σ] in
theorem depth_le (ls : List (Line σ)) : depth ls ≤ ls.length := by
  induction ls using List.reverseRecOn with
  | nil => exact le_rfl
  | append_singleton ls l ih =>
    have hnest : nest (depth ls) l.stmt ≤ depth ls + 1 := by
      unfold nest
      split <;> omega
    rw [depth_append, List.length_append]
    exact hnest.trans (Nat.succ_le_succ ih)

omit [DecidableEq σ] in
theorem opened_length (s : Assembler σ) (cs : List Cond) (stmt : Stmt σ) :
    (opened s cs stmt).length = nest cs.length stmt := by
  cases stmt with
  | ADELSE => cases cs <;> rfl
  | ADENDIF => simp [opened, nest]
  | _ => rfl

/-- Those from the outside on that select the line. -/
def held : List Cond → ℕ
  | [] => 0
  | c :: cs => if held cs = cs.length ∧ c.selects = true then cs.length + 1 else held cs

theorem held_le (cs : List Cond) : held cs ≤ cs.length := by
  induction cs with
  | nil => exact le_rfl
  | cons c cs ih =>
    rw [held, List.length_cons]
    split
    · exact le_rfl
    · exact Nat.le_succ_of_le ih

theorem held_eq_iff (cs : List Cond) : held cs = cs.length ↔ Selected cs := by
  induction cs with
  | nil => simp [held, Selected]
  | cons c cs ih =>
    rw [held, List.length_cons, Selected, List.forall_mem_cons]
    by_cases h : held cs = cs.length ∧ c.selects = true
    · rw [if_pos h]
      exact iff_of_true rfl ⟨h.2, ih.mp h.1⟩
    · rw [if_neg h]
      have hle := held_le cs
      refine iff_of_false (by omega) fun hall => h ⟨ih.mpr hall.2, hall.1⟩

theorem level_succ {w : BitVec 16} {n : ℕ} (h : w.toNat = n) (hn : n + 1 < 2 ^ 16) :
    (w + 1).toNat = n + 1 := by
  rw [BitVec.toNat_add, h]
  exact Nat.mod_eq_of_lt hn

theorem level_pred {w : BitVec 16} {n : ℕ} (h : w.toNat = n + 1) : (w - 1).toNat = n := by
  have hlt := w.isLt
  have hone : (1 : BitVec 16).toNat = 1 := rfl
  rw [BitVec.toNat_sub, h, hone]
  omega

/-- The levels say how many conditions are open, and how many hold. -/
structure Level (cs : List Cond) (s : Assembler σ) : Prop where
  condlev : s.condlev.toNat = cs.length
  truelev : s.truelev.toNat = held cs

omit [DecidableEq σ] in
/-- **The test of `dopass`**. -/
theorem Level.selected_iff {cs : List Cond} {s : Assembler σ} (h : Level cs s) :
    ¬s.condlev > s.truelev ↔ Selected cs := by
  have hle := held_le cs
  rw [← held_eq_iff, gt_iff_lt, BitVec.lt_def, h.condlev, h.truelev]
  omega

/-! ## 2. What a line does to the levels -/

/-- The levels stay. -/
structure Same (s s' : Assembler σ) : Prop where
  condlev : s'.condlev = s.condlev
  truelev : s'.truelev = s.truelev

omit [DecidableEq σ] in
theorem Level.same {cs : List Cond} {s s' : Assembler σ} (h : Level cs s) (hs : Same s s') :
    Level cs s' := ⟨by rw [hs.condlev, h.condlev], by rw [hs.truelev, h.truelev]⟩

instance : Closed (Same (σ := σ)) where
  refl _ := ⟨rfl, rfl⟩
  trans _ _ _ h h' := ⟨h'.condlev.trans h.condlev, h'.truelev.trans h.truelev⟩
  tab _ _ _ := ⟨rfl, rfl⟩
  em _ _ _ := ⟨rfl, rfl⟩
  secct _ _ := ⟨rfl, rfl⟩
  reading _ _ := ⟨rfl, rfl⟩

/-- What does not change the levels of itself. -/
theorem assem1_same (g : Setup σ) (label : Option σ) (stmt : Stmt σ) (hif : ∀ e, stmt ≠ .ADIF e)
    (helse : stmt ≠ .ADELSE) (hendif : stmt ≠ .ADENDIF) : Keeps Same (assem1 g label stmt) := by
  cases stmt with
  | ADIF e => exact absurd rfl (hif e)
  | ADELSE => exact absurd rfl helse
  | ADENDIF => exact absurd rfl hendif
  | ADWARN s =>
    cases s with
    | none => exact Closed.err _
    | some s => exact .forM s fun c _ => .modify fun _ => ⟨rfl, rfl⟩
  | _ => exact assem1_keeps g label _ trivial

omit [DecidableEq σ] in
/-- The expression of an `.if`, as the statement reads it. -/
theorem expression_condition (g : Setup σ) (e : Expr σ) {s s' : Assembler σ} {op : Operand}
    (h : expression g false e s = some (op, s')) :
    op.op_rel = 0 ∧ op.op_val ≠ 0 ↔ condition s (some e) = true := by
  let r := e.eval s.tab s.em
  have hcond : condition s (some e) = (!r.bad && !r.eflg && r.frame.ps_val1 == 0 && r.frame.ps_val0 != 0) :=
    rfl
  obtain ⟨p, u, hp, hrest⟩ := of_bind h
  obtain rfl : (r, described (mask OCEXP ||| mask (if e.isParen then OCPEX else OCNEX)) r 0 0) = p :=
    congrArg Prod.fst (Option.some.inj hp)
  dsimp only at hrest
  rw [hcond]
  cases hbad : r.bad with
  | true =>
    rw [hbad, if_pos rfl] at hrest
    obtain ⟨⟨⟩, v, -, hv⟩ := of_bind hrest
    obtain rfl : (⟨0, 0, RBUND, 0⟩ : Operand) = op := congrArg Prod.fst (Option.some.inj hv)
    simp [RBUND]
  | false =>
    rw [hbad, if_neg Bool.false_ne_true] at hrest
    obtain rfl : described (mask OCEXP ||| mask (if e.isParen then OCPEX else OCNEX)) r 0 0 = op :=
      congrArg Prod.fst (Option.some.inj hrest)
    unfold described
    cases r.eflg <;> simp

/-- `.if` counts one more condition, and one that holds if it does. -/
theorem assem1_if (g : Setup σ) (label : Option σ) (e : Option (Expr σ)) {s s' : Assembler σ}
    (h : assem1 g label (.ADIF e) s = some ((), s')) :
    s'.condlev = s.condlev + 1 ∧
    s'.truelev = if condition s e = true then s.truelev + 1 else s.truelev := by
  obtain ⟨⟨⟩, t, ht, hrest⟩ := of_bind h
  obtain rfl : { s with condlev := s.condlev + 1 } = t := congrArg Prod.snd (Option.some.inj ht)
  cases e with
  | none =>
    have hsame : Same { s with condlev := s.condlev + 1 } s' := Closed.err 'S' _ _ _ hrest
    exact ⟨hsame.condlev, hsame.truelev⟩
  | some e =>
    obtain ⟨op, u, hu, hop⟩ := of_bind hrest
    have hsame : Same { s with condlev := s.condlev + 1 } u := Closed.expression g false e _ _ _ hu
    have hiff : op.op_rel = 0 ∧ op.op_val ≠ 0 ↔ condition s (some e) = true := by
      have hread := expression_condition g e hu
      exact hread
    dsimp only at hop
    by_cases hrel : op.op_rel ≠ 0
    · rw [if_pos hrel] at hop
      have hend : Same u s' := Closed.err 'E' _ _ _ hop
      rw [if_neg fun hc => hrel (hiff.mpr hc).1]
      exact ⟨hend.condlev.trans hsame.condlev, hend.truelev.trans hsame.truelev⟩
    rw [if_neg hrel] at hop
    by_cases hval : op.op_val ≠ 0
    · rw [only, if_pos hval] at hop
      obtain rfl : { u with truelev := u.truelev + 1 } = s' := congrArg Prod.snd (Option.some.inj hop)
      rw [if_pos (hiff.mp ⟨not_not.mp hrel, hval⟩)]
      exact ⟨hsame.condlev, congrArg (· + 1) hsame.truelev⟩
    · rw [only, if_neg hval] at hop
      obtain rfl : u = s' := congrArg Prod.snd (Option.some.inj hop)
      rw [if_neg fun hc => hval (hiff.mpr hc).2]
      exact ⟨hsame.condlev, hsame.truelev⟩

/-- **A line that is assembled**. -/
theorem assem1_level (g : Setup σ) (label : Option σ) (stmt : Stmt σ) {cs : List Cond} {s s' : Assembler σ}
    (hl : Level cs s) (hsel : Selected cs) (hroom : nest cs.length stmt < 2 ^ 16)
    (h : assem1 g label stmt s = some ((), s')) : Level (opened s cs stmt) s' := by
  have hheld := (held_eq_iff cs).mpr hsel
  have hcond := hl.condlev
  have htrue := hl.truelev
  rw [hheld] at htrue
  cases stmt with
  | ADIF e =>
    obtain ⟨hc, ht⟩ := assem1_if g label e h
    change cs.length + 1 < 2 ^ 16 at hroom
    refine ⟨?_, ?_⟩
    · rw [hc, opened, List.length_cons]
      exact level_succ hcond hroom
    · rw [ht, opened, held, hheld]
      cases condition s e with
      | false => simpa [Cond.selects] using htrue
      | true =>
        rw [if_pos rfl, if_pos ⟨rfl, rfl⟩]
        exact level_succ htrue hroom
  | ADELSE =>
    cases cs with
    | nil =>
      have hzero : s.truelev = 0 := BitVec.eq_of_toNat_eq htrue
      have hbody : (if s.truelev ≠ 0 then change fun s => { s with truelev := s.truelev - 1 }
        else err 'C' : M σ Unit) s = some ((), s') := h
      rw [if_neg (not_not.mpr hzero)] at hbody
      exact hl.same (Closed.err 'C' _ _ _ hbody)
    | cons c cs =>
      have hpos : s.truelev ≠ 0 := by
        intro hzero
        rw [hzero, List.length_cons] at htrue
        cases htrue
      have hbody : (if s.truelev ≠ 0 then change fun s => { s with truelev := s.truelev - 1 }
        else err 'C' : M σ Unit) s = some ((), s') := h
      rw [if_pos hpos] at hbody
      obtain rfl : { s with truelev := s.truelev - 1 } = s' := congrArg Prod.snd (Option.some.inj hbody)
      have hc : c.selects = true := hsel c (List.mem_cons_self ..)
      have hcs : held cs = cs.length := (held_eq_iff cs).mpr fun d hd => hsel d (List.mem_cons_of_mem _ hd)
      refine ⟨hcond, ?_⟩
      have halt : ({ c with alt := !c.alt } : Cond).selects = false := by
        revert hc
        rcases c with ⟨_ | _, _ | _⟩ <;> decide
      rw [opened, held, halt, if_neg fun hno => Bool.false_ne_true hno.2, hcs]
      exact level_pred htrue
  | ADENDIF =>
    have hbody : (if s.condlev ≠ 0 then
      change fun s => { s with condlev := s.condlev - 1, truelev := s.truelev - 1 }
      else err 'C' : M σ Unit) s = some ((), s') := h
    cases cs with
    | nil =>
      have hzero : s.condlev = 0 := BitVec.eq_of_toNat_eq hcond
      rw [if_neg (not_not.mpr hzero)] at hbody
      exact hl.same (Closed.err 'C' _ _ _ hbody)
    | cons c cs =>
      have hpos : s.condlev ≠ 0 := by
        intro hzero
        rw [hzero, List.length_cons] at hcond
        cases hcond
      rw [if_pos hpos] at hbody
      obtain rfl : { s with condlev := s.condlev - 1, truelev := s.truelev - 1 } = s' :=
        congrArg Prod.snd (Option.some.inj hbody)
      have hcs : held cs = cs.length := (held_eq_iff cs).mpr fun d hd => hsel d (List.mem_cons_of_mem _ hd)
      refine ⟨level_pred hcond, ?_⟩
      exact (level_pred htrue).trans hcs.symm
  | _ =>
    have hsame : Same s s' := assem1_same g label _ (by simp) (by simp) (by simp) _ _ _ h
    exact hl.same hsame

omit [DecidableEq σ] in
/-- **A line that is skipped** changes the levels alone. -/
theorem skip1_level (stmt : Stmt σ) {cs : List Cond} {s : Assembler σ} (hl : Level cs s)
    (hsel : ¬Selected cs) (hroom : nest cs.length stmt < 2 ^ 16) : ∃ c t,
    skip1 stmt s = some ((), { s with condlev := c, truelev := t }) ∧
    Level (opened s cs stmt) { s with condlev := c, truelev := t } := by
  have hheld : held cs ≠ cs.length := fun h => hsel ((held_eq_iff cs).mp h)
  have hle := held_le cs
  have hcond := hl.condlev
  have htrue := hl.truelev
  cases stmt with
  | ADIF e =>
    refine ⟨s.condlev + 1, s.truelev, rfl, ?_, ?_⟩
    · rw [opened, List.length_cons]
      exact level_succ hcond hroom
    · rw [opened, held, if_neg fun h => hheld h.1]
      exact htrue
  | ADELSE =>
    cases cs with
    | nil => exact absurd rfl hheld
    | cons c cs =>
      rw [List.length_cons] at hcond hle hheld
      have hone : s.truelev = s.condlev - 1 ↔ held (c :: cs) = cs.length := by
        rw [← BitVec.toNat_inj, level_pred hcond, htrue]
      have hskip : skip1 .ADELSE s = some ((),
          if s.truelev = s.condlev - 1 then { s with truelev := s.truelev + 1 } else s) := rfl
      by_cases hlast : held (c :: cs) = cs.length
      · -- the innermost condition is the only one that does not select the line
        have hcs : held cs = cs.length ∧ c.selects = false := by
          rw [held] at hlast
          by_cases hc : held cs = cs.length ∧ c.selects = true
          · rw [if_pos hc] at hlast
            omega
          · rw [if_neg hc] at hlast
            exact ⟨hlast, Bool.eq_false_iff.mpr fun h => hc ⟨hlast, h⟩⟩
        rw [if_pos (hone.mpr hlast)] at hskip
        refine ⟨s.condlev, s.truelev + 1, hskip, hcond, ?_⟩
        have halt : ({ c with alt := !c.alt } : Cond).selects = true := by
          have hc := hcs.2
          revert hc
          rcases c with ⟨_ | _, _ | _⟩ <;> decide
        rw [opened, held, if_pos ⟨hcs.1, halt⟩]
        have hlt := s.condlev.isLt
        rw [hcond] at hlt
        exact level_succ (htrue.trans hlast) hlt
      · rw [if_neg fun h => hlast (hone.mp h)] at hskip
        refine ⟨s.condlev, s.truelev, hskip, hcond, ?_⟩
        have hcs : held cs ≠ cs.length := by
          intro hcs
          rw [held] at hlast hheld
          split at hlast <;> simp_all
        have hold : held (c :: cs) = held cs := if_neg fun h => hcs h.1
        rw [opened, held, if_neg fun h => hcs h.1]
        exact htrue.trans hold
  | ADENDIF =>
    cases cs with
    | nil => exact absurd rfl hheld
    | cons c cs =>
      rw [List.length_cons] at hcond hle hheld
      have hold : held (c :: cs) = held cs := by
        rw [held]
        refine if_neg fun h => hheld ?_
        rw [held, if_pos h]
      exact ⟨s.condlev - 1, s.truelev, rfl, level_pred hcond, htrue.trans hold⟩
  | _ => exact ⟨s.condlev, s.truelev, rfl, hl⟩

/-! ## 3. The lines of a pass -/

/-- How a pass begins, before its first line. -/
def startpass (g : Setup σ) : M σ Unit := do
  change fun s =>
    { s with
      condlev := 0
      truelev := 0
      reading := true
      secct := 1
      em :=
        { s.em with
          curatr := 0
          curloc := 0
          cursec := 0
          curaln := g.minaln
          curext := 32
          sectab := Function.update s.em.sectab 0 { s.em.sectab 0 with se_loc := 0 } } }
  newsec g (some g.text)

/-- The lines that a pass has read, the conditions that are open then, and its state. -/
inductive Reads (g : Setup σ) (s₀ : Assembler σ) : List (Line σ) → List Cond → Assembler σ → Prop
  | start {s : Assembler σ} : startpass g s₀ = some ((), s) → Reads g s₀ [] [] s
  | next {ls : List (Line σ)} {cs : List Cond} {s t : Assembler σ} {l : Line σ} : Reads g s₀ ls cs s →
      s.reading = true → step g l s = some ((), t) → Reads g s₀ (ls ++ [l]) (opened s cs l.stmt) t

theorem statements_reads (g : Setup σ) {s₀ s s' : Assembler σ} {p ls : List (Line σ)} {cs : List Cond}
    (h : Reads g s₀ p cs s) (hread : s.reading = true) (hs : statements g ls s = some ((), s')) :
    ∃ q cs', q <+: ls ∧ Reads g s₀ (p ++ q) cs' s' ∧ (s'.reading = true → q = ls) := by
  induction ls generalizing p cs s with
  | nil =>
    obtain rfl : s = s' := congrArg Prod.snd (Option.some.inj hs)
    exact ⟨[], cs, List.prefix_rfl, by rwa [List.append_nil], fun _ => rfl⟩
  | cons l ls ih =>
    obtain ⟨⟨⟩, t, ht, hrest⟩ := of_bind hs
    have hline : Reads g s₀ (p ++ [l]) (opened s cs l.stmt) t := h.next hread ht
    have hbody : only (t.reading = true) (statements g ls) t = some ((), s') := hrest
    by_cases hgo : t.reading = true
    · rw [only, if_pos hgo] at hbody
      obtain ⟨q, cs', hq, hreads, hend⟩ := ih hline hgo hbody
      rw [List.append_assoc] at hreads
      exact ⟨l :: q, cs', (List.cons_prefix_cons.mpr ⟨rfl, hq⟩), hreads, fun h => by rw [hend h]⟩
    · rw [only, if_neg hgo] at hbody
      obtain rfl : t = s' := congrArg Prod.snd (Option.some.inj hbody)
      exact ⟨[l], _, ⟨ls, rfl⟩, hline, fun h => absurd h hgo⟩

/-- A section is opened; its symbol may be reported. -/
theorem newsec_spec (g : Setup σ) (label : Option σ) {s s' : Assembler σ}
    (h : newsec g label s = some ((), s')) :
    Same s s' ∧ s'.reading = s.reading ∧
    s'.tab = s.tab.assign s.em.pass2 label .STSEC 0 s.secct := by
  have hsame : Same s s' := Closed.newsec g label _ _ _ h
  have hbody : (if SECSIZ ≤ s.secct.toNat then exit else do
      assign label .STSEC 0 s.secct
      setsec s.secct
      change fun s => { s with secct := s.secct + 1 }
      emit fun em => some { em with curatr := 0, curloc := 0, curaln := g.minaln, curext := 32 } : M σ Unit) s =
      some ((), s') := h
  by_cases hmany : SECSIZ ≤ s.secct.toNat
  · rw [if_pos hmany] at hbody
    cases hbody
  · rw [if_neg hmany] at hbody
    obtain rfl := congrArg Prod.snd (Option.some.inj hbody)
    exact ⟨hsame, rfl, rfl⟩

/-- The levels, and room for an error in the field of the line. -/
structure Ready (cs : List Cond) (s : Assembler σ) : Prop where
  level : Level cs s
  room : s.tab.llerr.length < LLERR

omit [DecidableEq σ] in
theorem err_length_le (t : Tab σ) (pass2 : Bool) (c : Char) :
    (t.err pass2 c).llerr.length ≤ t.llerr.length + 1 := by
  unfold Tab.err
  split
  · exact Nat.le_succ _
  · rw [Tab.flag, List.length_append, List.length_singleton]

theorem assign_length_le (t : Tab σ) (pass2 : Bool) (label : Option σ) (typ : Typ) (val : BitVec 32)
    (rel : BitVec 16) : (t.assign pass2 label typ val rel).llerr.length ≤ t.llerr.length + 1 := by
  cases label with
  | none => exact Nat.le_succ _
  | some label =>
    have hreach : (t.reach pass2 ⟨label, val, rel⟩).llerr = t.llerr := by
      unfold Tab.reach
      split <;> rfl
    rw [Tab.assign, ← hreach]
    generalize t.reach pass2 ⟨label, val, rel⟩ = t
    have herr (c : Char) := err_length_le t pass2 c
    have hset (syp : Sytab) : (t.set label syp).llerr.length ≤ t.llerr.length + 1 := Nat.le_succ _
    unfold Tab.assignTo
    dsimp only
    repeat' split
    all_goals first | exact herr _ | exact hset _

/-- A pass begins with no condition open. -/
theorem startpass_ready (g : Setup σ) {s s' : Assembler σ} (hempty : s.tab.llerr = [])
    (h : startpass g s = some ((), s')) : Ready [] s' := by
  obtain ⟨⟨⟩, t, ht, hsec⟩ := of_bind h
  obtain ⟨hsame, -, htab⟩ := newsec_spec g _ hsec
  have hzero : t.condlev = 0 ∧ t.truelev = 0 ∧ t.tab = s.tab := by
    obtain rfl := congrArg Prod.snd (Option.some.inj ht)
    exact ⟨rfl, rfl, rfl⟩
  refine ⟨⟨?_, ?_⟩, ?_⟩
  · rw [hsame.condlev, hzero.1]
    rfl
  · rw [hsame.truelev, hzero.2.1]
    rfl
  · have hle := assign_length_le t.tab t.em.pass2 (some g.text) .STSEC 0 t.secct
    rw [hzero.2.2, hempty] at hle
    rw [htab, hzero.2.2]
    exact Nat.lt_of_le_of_lt hle (by decide)

theorem startpass_reading (g : Setup σ) {s s' : Assembler σ} (h : startpass g s = some ((), s')) :
    s'.reading = true := by
  obtain ⟨⟨⟩, t, ht, hsec⟩ := of_bind h
  obtain ⟨-, hread, -⟩ := newsec_spec g _ hsec
  obtain rfl := congrArg Prod.snd (Option.some.inj ht)
  exact hread

/-- **A line keeps count**. -/
theorem step_ready (g : Setup σ) (l : Line σ) {cs : List Cond} {s s' : Assembler σ} (hr : Ready cs s)
    (hroom : nest cs.length l.stmt < 2 ^ 16) (h : step g l s = some ((), s')) :
    Ready (opened s cs l.stmt) s' := by
  obtain ⟨⟨⟩, t, ht, hput⟩ := of_bind h
  obtain rfl : { t with tab := t.tab.putline } = s' := congrArg Prod.snd (Option.some.inj hput)
  refine ⟨?_, Nat.zero_lt_succ _⟩
  have hbody : (if s.condlev > s.truelev then skip1 l.stmt else do
      assem1 g l.label l.stmt
      only (l.junk = true) (err 'S') : M σ Unit) s = some ((), t) := ht
  have hlevel : Level (opened s cs l.stmt) t := by
    by_cases hsel : Selected cs
    · rw [if_neg (hr.level.selected_iff.mpr hsel)] at hbody
      obtain ⟨⟨⟩, u, hu, hjunk⟩ := of_bind hbody
      have hsame : Same u t := Closed.only (Closed.err 'S') _ _ _ hjunk
      exact (assem1_level g l.label l.stmt hr.level hsel hroom hu).same hsame
    · rw [if_pos (not_not.mp fun hno => hsel (hr.level.selected_iff.mp hno))] at hbody
      obtain ⟨c, n, hskip, hlevel⟩ := skip1_level l.stmt hr.level hsel hroom
      rw [hskip] at hbody
      obtain rfl := congrArg Prod.snd (Option.some.inj hbody)
      exact hlevel
  exact ⟨hlevel.condlev, hlevel.truelev⟩

/-- Whatever a pass has read, the number of open conditions is in the text. -/
theorem Reads.length_eq {g : Setup σ} {s₀ s : Assembler σ} {ls : List (Line σ)} {cs : List Cond}
    (h : Reads g s₀ ls cs s) : cs.length = depth ls := by
  induction h with
  | start _ => rfl
  | next _ _ _ ih => rw [opened_length, depth_append, ih]

/-- **A pass keeps count**, as long as the depth fits into 16 bits. -/
theorem Reads.ready {g : Setup σ} {s₀ s : Assembler σ} {ls : List (Line σ)} {cs : List Cond}
    (hempty : s₀.tab.llerr = []) (h : Reads g s₀ ls cs s) (hdepth : ∀ p, p <+: ls → depth p < 2 ^ 16) :
    Ready cs s := by
  induction h with
  | start hs => exact startpass_ready g hempty hs
  | @next ls cs s t l hreads _ hstep ih =>
    refine step_ready g l (ih fun p hp => hdepth p (hp.trans (List.prefix_append _ _))) ?_ hstep
    rw [hreads.length_eq, ← depth_append]
    exact hdepth _ List.prefix_rfl

/-- **A pass reads its lines**, up to `.end`. -/
theorem dopass_reads (g : Setup σ) {s s' : Assembler σ} {ls : List (Line σ)}
    (h : dopass g ls s = some ((), s')) : ∃ q cs t, q <+: ls ∧ Reads g s q cs t ∧
    (t.reading = true → q = ls) ∧ setsec 0 t = some ((), s') := by
  have hbody : (startpass g >>= fun _ => statements g ls >>= fun _ => setsec 0) s = some ((), s') := h
  obtain ⟨⟨⟩, u, hu, hrest⟩ := of_bind hbody
  obtain ⟨⟨⟩, t, ht, hsec⟩ := of_bind hrest
  have hstart : Reads g s [] [] u := .start hu
  obtain ⟨q, cs, hq, hreads, hend⟩ := statements_reads g hstart (startpass_reading g hu) ht
  exact ⟨q, cs, t, hq, hreads, hend, hsec⟩

/-- The passes of an assembly begin with an empty error field. -/
theorem assemble_dopass (g : Setup σ) (first second : List (Line σ)) {s s' : Assembler σ} (hs : Begin s)
    (h : assemble g first second s = some ((), s')) : s.tab.llerr = [] ∧ ∃ s₁ s₃ s₄,
    dopass g first s = some ((), s₁) ∧ s₃.tab.llerr = [] ∧ dopass g second s₃ = some ((), s₄) := by
  obtain ⟨s₁, s₃, s₄, h₁, hfirst, -, h₄, -⟩ := assemble_passes g first second hs h
  exact ⟨hs.first.llerr, s₁, s₃, s₄, h₁, hfirst.llerr, h₄⟩

/-! ## 4. Which lines are assembled -/

/-- An error that the second pass reports. -/
def Reported (c : Char) (s s' : Assembler σ) : Prop :=
  s.em.pass2 = true → c ∈ s'.tab.llerr ∧ s.tab.errct < s'.tab.errct

/-- What is to be said of the next line: it is assembled exactly if all open conditions select it, a line
that is skipped changes nothing but the levels, and `.else` and `.endif` without an `.if` are reported and
leave the levels alone. -/
structure Conditional (g : Setup σ) (cs : List Cond) (s : Assembler σ) : Prop where
  levels : s.truelev ≤ s.condlev
  assembled : Selected cs → ∀ l, line g l s =
    (assem1 g l.label l.stmt >>= fun _ => only (l.junk = true) (err 'S')) s
  skipped : ¬Selected cs → ∀ l, ∃ c t, line g l s = some ((), { s with condlev := c, truelev := t })
  unmatched : cs = [] → ∀ l, l.stmt = .ADELSE ∨ l.stmt = .ADENDIF → ∃ s', line g l s = some ((), s') ∧
    Same s s' ∧ Reported 'C' s s'

omit [DecidableEq σ] in
/-- An error only adds to the field and to the count. -/
theorem err_mono (t : Tab σ) (pass2 : Bool) (c : Char) :
    t.llerr ⊆ (t.err pass2 c).llerr ∧ t.errct ≤ (t.err pass2 c).errct := by
  unfold Tab.err
  split
  · exact ⟨List.Subset.refl _, le_rfl⟩
  · exact ⟨List.subset_append_left _ _, Nat.le_succ _⟩

omit [DecidableEq σ] in
/-- An error for which there is room is reported, also with junk behind it. -/
theorem err_reported {s : Assembler σ} (hroom : s.tab.llerr.length < LLERR) (junk : Bool) : ∃ s',
    ((err 'C' : M σ Unit) >>= fun _ => only (junk = true) (err 'S')) s = some ((), s') ∧
    Same s s' ∧ Reported 'C' s s' := by
  have hreport : s.em.pass2 = true →
      'C' ∈ (s.tab.err s.em.pass2 'C').llerr ∧ s.tab.errct < (s.tab.err s.em.pass2 'C').errct := by
    intro hpass
    have hshow : ¬(s.em.pass2 = false ∨ LLERR ≤ s.tab.llerr.length) := by
      rw [hpass]
      exact fun h => h.elim Bool.noConfusion hroom.not_ge
    rw [Tab.err, if_neg hshow]
    exact ⟨List.mem_append_right _ (List.mem_singleton_self _), Nat.lt_succ_self _⟩
  cases junk with
  | false => exact ⟨{ s with tab := s.tab.err s.em.pass2 'C' }, rfl, ⟨rfl, rfl⟩, hreport⟩
  | true =>
    refine ⟨{ s with tab := (s.tab.err s.em.pass2 'C').err s.em.pass2 'S' }, rfl, ⟨rfl, rfl⟩, fun hpass => ?_⟩
    obtain ⟨hin, hlt⟩ := hreport hpass
    obtain ⟨hsub, hle⟩ := err_mono (s.tab.err s.em.pass2 'C') s.em.pass2 'S'
    exact ⟨hsub hin, hlt.trans_le hle⟩

/-- **Conditional assembly**, for lines in which fewer than 65536 conditions are open at once. -/
theorem conditional_reads (g : Setup σ) {s₀ s : Assembler σ} {ls : List (Line σ)} {cs : List Cond}
    (hempty : s₀.tab.llerr = []) (h : Reads g s₀ ls cs s) (hdepth : ∀ p, p <+: ls → depth p < 65536) :
    Conditional g cs s := by
  have hready := h.ready hempty hdepth
  have hlevel := hready.level
  have hline (l : Line σ) : line g l s = (if s.condlev > s.truelev then skip1 l.stmt else do
      assem1 g l.label l.stmt
      only (l.junk = true) (err 'S') : M σ Unit) s := rfl
  have hassem (hsel : Selected cs) (l : Line σ) : line g l s =
      (assem1 g l.label l.stmt >>= fun _ => only (l.junk = true) (err 'S')) s := by
    rw [hline, if_neg (hlevel.selected_iff.mpr hsel)]
  refine ⟨?_, hassem, fun hsel l => ?_, ?_⟩
  · rw [BitVec.le_def, hlevel.condlev, hlevel.truelev]
    exact held_le cs
  · rw [hline, if_pos (not_not.mp fun hno => hsel (hlevel.selected_iff.mp hno))]
    cases l.stmt with
    | ADIF e => exact ⟨s.condlev + 1, s.truelev, rfl⟩
    | ADELSE =>
      have hskip : skip1 .ADELSE s = some ((),
          if s.truelev = s.condlev - 1 then { s with truelev := s.truelev + 1 } else s) := rfl
      rw [hskip]
      split
      · exact ⟨s.condlev, s.truelev + 1, rfl⟩
      · exact ⟨s.condlev, s.truelev, rfl⟩
    | ADENDIF => exact ⟨s.condlev - 1, s.truelev, rfl⟩
    | _ => exact ⟨s.condlev, s.truelev, rfl⟩
  · rintro rfl l hl
    have hcond : s.condlev = 0 := BitVec.eq_of_toNat_eq hlevel.condlev
    have htrue : s.truelev = 0 := BitVec.eq_of_toNat_eq hlevel.truelev
    obtain ⟨s', hs', hkeeps⟩ := err_reported hready.room l.junk
    refine ⟨s', (hassem (fun c hc => nomatch hc) l).trans (.trans ?_ hs'), hkeeps⟩
    have herr : assem1 g l.label l.stmt s = (err 'C' : M σ Unit) s := by
      rcases hl with hl | hl <;> rw [hl]
      · exact congrFun (if_neg (not_not.mpr htrue) : (if s.truelev ≠ 0 then
          change fun s => { s with truelev := s.truelev - 1 } else err 'C' : M σ Unit) = _) s
      · exact congrFun (if_neg (not_not.mpr hcond) : (if s.condlev ≠ 0 then
          change fun s => { s with condlev := s.condlev - 1, truelev := s.truelev - 1 }
          else err 'C' : M σ Unit) = _) s
    exact congrArg (fun r => r.bind fun p => only (l.junk = true) (err 'S') p.2) herr

/-- `.if 0`. -/
def ifZero : Line Name := ⟨none, .ADIF (some (.constant 0)), false⟩

/-- It is one more condition that does not hold, read or skipped. -/
theorem step_ifZero {s : Assembler Name} (htrue : s.truelev = 0) (hpass : s.em.pass2 = false)
    (hempty : s.tab.llerr = []) :
    step plainSetup ifZero s = some ((), { s with condlev := s.condlev + 1 }) := by
  have hline : line plainSetup ifZero s = some ((), { s with condlev := s.condlev + 1 }) := by
    have hbody : line plainSetup ifZero s = (if s.condlev > s.truelev then skip1 ifZero.stmt else do
        assem1 plainSetup ifZero.label ifZero.stmt
        only (ifZero.junk = true) (err 'S') : M Name Unit) s := rfl
    rw [hbody]
    split
    · rfl
    · obtain ⟨tab, em, condlev, truelev, secct, reading⟩ := s
      obtain ⟨objbuf⟩ := em
      obtain rfl := hpass
      rfl
  have hput : s.tab.putline = s.tab := by
    rw [Tab.putline, ← hempty]
  have hstep : step plainSetup ifZero s = (line plainSetup ifZero s).bind fun p =>
      some ((), { p.2 with tab := p.2.tab.putline }) := rfl
  rw [hstep, hline, Option.bind_some, hput]

/-- The start of the first pass. -/
theorem startpass_plain : ∃ s, startpass plainSetup plainStart = some ((), s) ∧ s.em.pass2 = false ∧
    s.tab.llerr = [] := by
  have hstart : ((startpass plainSetup plainStart).map fun p => (p.2.em.pass2, p.2.tab.llerr)) =
      some (false, []) := by decide +kernel
  obtain ⟨⟨⟨⟩, s⟩, hs, heq⟩ := Option.map_eq_some_iff.mp hstart
  obtain ⟨hpass, hempty⟩ := Prod.mk.inj heq
  exact ⟨s, hs, hpass, hempty⟩

/-- Any number of `.if 0`. -/
theorem reads_ifZero {s : Assembler Name} (hs : startpass plainSetup plainStart = some ((), s))
    (hpass : s.em.pass2 = false) (hempty : s.tab.llerr = []) (n : ℕ) :
    Reads plainSetup plainStart (List.replicate n ifZero) (List.replicate n ⟨false, false⟩)
      { s with condlev := BitVec.ofNat 16 n } := by
  have hlevel := (startpass_ready plainSetup (s := plainStart) rfl hs).level
  have hcond : s.condlev = 0#16 := BitVec.eq_of_toNat_eq hlevel.condlev
  have htrue : s.truelev = 0 := BitVec.eq_of_toNat_eq hlevel.truelev
  have hread := startpass_reading plainSetup hs
  induction n with
  | zero =>
    have hsame : s = { s with condlev := BitVec.ofNat 16 0 } := by
      rw [← hcond]
    rw [← hsame]
    exact .start hs
  | succ n ih =>
    have hstep := step_ifZero (s := { s with condlev := BitVec.ofNat 16 n }) htrue hpass hempty
    have hnext := ih.next hread hstep
    rw [List.replicate_succ', BitVec.ofNat_add n 1]
    exact hnext

/-- After one `.if 0` a pass goes on. -/
theorem conditional_if_zero : ∃ s, Reads plainSetup plainStart [ifZero] [⟨false, false⟩] s ∧
    Conditional plainSetup [⟨false, false⟩] s := by
  obtain ⟨s, hs, hpass, hempty⟩ := startpass_plain
  have hreads := reads_ifZero hs hpass hempty 1
  refine ⟨_, hreads, conditional_reads plainSetup rfl hreads fun p hp => ?_⟩
  have hle := depth_le p
  have hlen := hp.length_le
  rw [List.length_replicate] at hlen
  omega

/-- `.block 1`. -/
def blockOne : Line Name := ⟨none, .ADBLOCK (some (.constant 1)), false⟩

theorem line_blockOne {s : Assembler Name} (hcond : s.condlev = 0) (hpass : s.em.pass2 = false) :
    line plainSetup blockOne s = some ((), { s with em := { s.em with curloc := s.em.curloc + 1 } }) := by
  have hbody : line plainSetup blockOne s = (if s.condlev > s.truelev then skip1 blockOne.stmt else do
      assem1 plainSetup blockOne.label blockOne.stmt
      only (blockOne.junk = true) (err 'S') : M Name Unit) s := rfl
  have hno : ¬s.condlev > s.truelev := by
    rw [hcond]
    exact BitVec.not_lt_zero
  rw [hbody, if_neg hno]
  obtain ⟨tab, em, condlev, truelev, secct, reading⟩ := s
  obtain ⟨objbuf⟩ := em
  obtain rfl := hpass
  rfl

/-- After 65536 of them the next line is assembled, though every one of them excludes it. -/
theorem conditional_wraps : ∃ (ls : List (Line Name)) (cs : List Cond) (s : Assembler Name),
    Reads plainSetup plainStart ls cs s ∧ ¬Conditional plainSetup cs s := by
  obtain ⟨s, hs, hpass, hempty⟩ := startpass_plain
  refine ⟨_, _, _, reads_ifZero hs hpass hempty 65536, fun hall => ?_⟩
  have hexclude : ¬Selected (List.replicate 65536 ⟨false, false⟩) := by
    intro hsel
    have hone := hsel ⟨false, false⟩ (List.mem_replicate.mpr ⟨by decide, rfl⟩)
    cases hone
  obtain ⟨c, t, hskip⟩ := hall.skipped hexclude blockOne
  have hzero : BitVec.ofNat 16 65536 = 0 := rfl
  have hblock := (line_blockOne (s := { s with condlev := BitVec.ofNat 16 65536 }) hzero hpass).symm.trans hskip
  have hloc : s.em.curloc + 1 = s.em.curloc := congrArg (fun p => p.2.em.curloc) (Option.some.inj hblock)
  exact absurd hloc (by simp)

end Cpm8000.Asm
