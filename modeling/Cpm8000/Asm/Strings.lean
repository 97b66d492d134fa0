/-
# String comparisons

A comparison takes its strings from two places, `savstr` for the first and the scanner's `tokstr` for the
second, which the parser fills as it goes. `Parsed` follows both through the parse: behind a string stands
an operator or the parse fails, and a token that would take the place of the second string cannot follow it
(`iistep_parsed`). So a text that the parser accepts has its comparisons told with their own strings.

What case 16 makes of two strings is another matter: the variable that decides is set in the loop only, and
the loop is not entered with an empty string. `yields_iff` is when the answers are those of the order of
the strings.
-/
import Cpm8000.Asm.Parser
import Mathlib.Data.List.Lex

namespace Cpm8000.Asm

open Cpm8000.Sys

/-! ## 1. The comparisons of a text -/

/-- A comparison as it is written. -/
structure Comparison where
  left : List Byte
  op : RelOp
  right : List Byte

/-- The comparisons in their order, unless a string stands elsewhere. -/
def comparisons : List Token → Option (List Comparison)
  | [] => some []
  | .string a :: .relop op :: .string b :: ts => (comparisons ts).map (⟨a, op, b⟩ :: ·)
  | .string _ :: _ => none
  | .relop _ :: ts => comparisons ts
  | .mark _ _ :: ts => comparisons ts
  | .word _ _ _ :: ts => comparisons ts

/-- What case 16 is to find. -/
def Comparison.told (c : Comparison) : Compared where
  left := c.left.take STRSIZ
  right := c.right.take STRSIZ
  op := c.op.code

theorem comparisons_append {ts us : List Token} {cs : List Comparison} (h : comparisons ts = some cs) :
    comparisons (ts ++ us) = (comparisons us).map (cs ++ ·) := by
  induction ts using comparisons.induct generalizing cs with
  | case1 =>
    obtain rfl := Option.some.inj h
    simp
  | case2 a op b ts ih =>
    obtain ⟨ds, hds, rfl⟩ := Option.map_eq_some_iff.mp h
    have hrest := ih hds
    simp only [List.cons_append, comparisons, hrest, Option.map_map]
    rfl
  | case3 a ts hno =>
    rw [comparisons] at h
    · cases h
    · exact hno
  | case4 op ts ih => exact ih h
  | case5 m val ts ih => exact ih h
  | case6 w val text ts ih => exact ih h

/-- What case 16 found are the comparisons of the text. -/
def Told (text : List Token) (compared : List Compared) : Prop :=
  ∃ cs, comparisons text = some cs ∧ compared = cs.map Comparison.told

namespace Told

variable {text : List Token} {compared : List Compared}

theorem nil : Told [] [] := ⟨[], rfl, rfl⟩

/-- A token that is no string. -/
theorem token (h : Told text compared) {t : Token} (ht : t.ps_sym ≠ TKSTR) : Told (text ++ [t]) compared := by
  obtain ⟨cs, hcs, rfl⟩ := h
  have hone : comparisons [t] = some [] := by
    cases t with
    | string s => exact absurd rfl ht
    | _ => rfl
  refine ⟨cs, ?_, rfl⟩
  rw [comparisons_append hcs, hone, Option.map_some, List.append_nil]

theorem comparison (h : Told text compared) (a : List Byte) (op : RelOp) (b : List Byte) :
    Told (text ++ [.string a, .relop op, .string b]) (compared ++ [Comparison.told ⟨a, op, b⟩]) := by
  obtain ⟨cs, hcs, rfl⟩ := h
  refine ⟨cs ++ [⟨a, op, b⟩], ?_, ?_⟩
  · rw [comparisons_append hcs]
    rfl
  · rw [List.map_append]
    rfl

end Told

/-! ## 2. The two places -/

/-- A token that may take the place of the second string. -/
def Token.Loud (t : Token) : Prop := t.ps_sym ∈ loud

theorem Token.scanned_of_quiet {t : Token} (h : ¬t.Loud) (tokstr : List Byte) : t.scanned tokstr = tokstr := by
  cases t with
  | string s => exact absurd (by decide : TKSTR ∈ loud) h
  | relop op => rfl
  | mark m val => rfl
  | word w val text => exact absurd w.code_mem.2.1 h

theorem Token.string_of_sym {t : Token} (h : t.ps_sym = TKSTR) : ∃ b, t = .string b := by
  cases t with
  | string s => exact ⟨s, rfl⟩
  | relop op => cases h
  | mark m val => cases m <;> cases h
  | word w val text => exact absurd h w.code_mem.2.2.1

theorem Token.relop_of_sym {t : Token} (h : t.ps_sym = TKRELOP) : ∃ op, t = .relop op := by
  cases t with
  | string s => cases h
  | relop op => exact ⟨op, rfl⟩
  | mark m val => exact absurd h m.code_mem.2.2
  | word w val text => exact absurd h w.code_mem.2.2.2

namespace Parser

/-- The first string is saved. -/
structure Saved (q : Parser) (a : List Byte) : Prop where
  savstr : q.savstr = a.take STRSIZ
  savlen : q.savlen = (a.take STRSIZ).length

/-- A string that the scanner has come to is in `tokstr`. -/
def Scanned (q : Parser) : Prop := ∀ b, q.iilexeme = .string b → q.tokstr = b.take STRSIZ

/-- Before a state is pushed. -/
def Before (q : Parser) (state : ℕ) : Prop :=
  if state = AFTERSTR then ∃ ts a, q.text = ts ++ [.string a] ∧ Told ts q.compared ∧ q.Saved a
  else if state = AFTEROP then ∃ ts a op f rest, q.text = ts ++ [.string a, .relop op] ∧
    Told ts q.compared ∧ q.Saved a ∧ q.iips = f :: rest ∧ f.frame.ps_val1 = op.code
  else Told q.text q.compared

/-- Before a reduction. -/
def Reducing (q : Parser) (act : ℕ) : Prop :=
  match kind act with
  | .string => ∃ ts a f rest, q.text = ts ++ [.string a] ∧ Told ts q.compared ∧
    q.tokstr = a.take STRSIZ ∧ q.iips = f :: rest ∧ f.frame.ps_val0 = (Token.string a).ps_val0
  | .compare => ∃ ts a op b f g rest, q.text = ts ++ [.string a, .relop op, .string b] ∧
    Told ts q.compared ∧ q.Saved a ∧ q.tokstr = b.take STRSIZ ∧ q.iips = f :: g :: rest ∧
    f.frame.ps_val0 = (Token.string b).ps_val0 ∧ g.frame.ps_val1 = op.code
  | .other => Told q.text q.compared

end Parser

/-- **The invariant**. With a token that may take the place of a string ahead, the parser is about to push
a state behind a nonterminal, from which it comes to an error, or all is as it should be. -/
def Parsed : Config → Prop
  | .push q act => Path q.iips (target act) ∧ q.Scanned ∧ q.parsing = true ∧
    (q.iilexeme.Loud ∧ target act ∈ behind ∨ q.Before (target act))
  | .reduce q act => Top q.iips act ∧ q.Scanned ∧ q.parsing = true ∧ (q.iilexeme.Loud ∨ q.Reducing act)
  | .done q ret => ret = 0 → Told q.text q.compared

theorem length_toNat (a : List Byte) : (Token.string a).ps_val0.toNat = (a.take STRSIZ).length := by
  have hle : (a.take STRSIZ).length ≤ STRSIZ := List.length_take_le ..
  rw [Token.ps_val0, BitVec.natCast_eq_ofNat, BitVec.toNat_ofNat]
  exact Nat.mod_eq_of_lt (Nat.lt_of_le_of_lt hle (by decide))

theorem code_setWidth (op : RelOp) : (op.code.setWidth 32).setWidth 16 = op.code := by
  cases op <;> rfl

theorem Parser.iilex_scanned (q : Parser) : q.iilex.Scanned := by
  intro b hb
  have hlex : q.input.headD (.mark .TKEOF 0) = .string b := hb
  have hstr : q.iilex.tokstr = (q.input.headD (.mark .TKEOF 0)).scanned q.tokstr := rfl
  rw [hstr, hlex]
  rfl

theorem start_parsed (tokstr : List Byte) (ts : List Token) :
    Parsed (.push (.start tokstr ts) (ptab.getD 0 0)) := by
  refine ⟨rfl, fun b hb => ?_, rfl, .inr Told.nil⟩
  have hlex : ts.headD (.mark .TKEOF 0) = .string b := hb
  have hstr : (Parser.start tokstr ts).tokstr = (ts.headD (.mark .TKEOF 0)).scanned tokstr := rfl
  rw [hstr, hlex]
  rfl

theorem push_parsed (v : Env) (q : Parser) (act : ℕ) (h : Parsed (.push q act)) :
    Parsed (iistep v (.push q act)) := by
  obtain ⟨hpath, hscan, hparsing, hdata⟩ := h
  rw [iistep]
  split
  · exact fun hret => absurd hret (by decide)
  dsimp only
  cases haction : iiaction (q.pushed act).ps_state (q.pushed act).ps_sym with
  | none => exact fun hret => absurd hret (by decide)
  | some act' =>
    have hok : TerminalOk (target act) q.iilexeme.ps_sym act' :=
      terminal_ok _ hpath.mem _ q.iilexeme.mem_terminals _ haction
    unfold TerminalOk at hok
    dsimp only
    by_cases hx : act' &&& IIXFLG ≠ 0
    · -- the token is read, and it is no string
      rw [if_pos hx] at hok ⊢
      obtain ⟨hfrom, hbehind, hop, hstr, hafter, hnot, hloud⟩ := hok
      refine ⟨⟨hfrom, hpath⟩, Parser.iilex_scanned _, hparsing, .inr ?_⟩
      have hdata := hdata.resolve_left fun hl => hloud hl.2 hl.1
      unfold Parser.Before at hdata ⊢
      have hne : target act' ≠ AFTERSTR := fun heq => hbehind (by rw [heq]; decide)
      rw [if_neg hne]
      by_cases hs : target act = AFTERSTR
      · obtain ⟨hrel, htarget⟩ := hafter hs
        rw [if_pos hs] at hdata
        rw [if_pos htarget]
        obtain ⟨ts, a, htext, htold, hsaved⟩ := hdata
        obtain ⟨op, hlex⟩ := Token.relop_of_sym hrel
        refine ⟨ts, a, op, q.pushed act, q.iips, ?_, htold, ⟨hsaved.savstr, hsaved.savlen⟩, rfl, ?_⟩
        · change q.text ++ [q.iilexeme] = _
          rw [htext, hlex, List.append_assoc]
          rfl
        · change q.iilexeme.ps_val0.setWidth 16 = _
          rw [hlex]
          exact code_setWidth op
      · rw [if_neg hs, if_neg hnot] at hdata
        rw [if_neg fun heq => hs (hop heq)]
        exact hdata.token hstr
    · rw [if_neg hx] at hok ⊢
      by_cases hr : act' &&& IIRFLG ≠ 0
      · -- the token is read and its production reduced
        rw [if_pos hr] at hok ⊢
        obtain ⟨hpops, hloud, hs, hkind⟩ := hok
        have htop : Top (q.pushed act :: q.iips) act' := by
          refine ⟨hpops.1, ?_⟩
          rintro f rest heq
          obtain ⟨rfl, rfl⟩ := List.cons.inj heq
          exact ⟨hpath, hpops⟩
        refine ⟨htop, Parser.iilex_scanned _, hparsing, ?_⟩
        by_cases hnext : (Parser.iilex { q with iips := q.pushed act :: q.iips }).iilexeme.Loud
        · exact .inl hnext
        right
        have hsame : (Parser.iilex { q with iips := q.pushed act :: q.iips }).tokstr = q.tokstr :=
          Token.scanned_of_quiet hnext q.tokstr
        have hdata := hdata.resolve_left fun hl => hloud hl.2 hl.1
        unfold Parser.Before at hdata
        rw [if_neg hs] at hdata
        unfold Parser.Reducing
        by_cases hstr : q.iilexeme.ps_sym = TKSTR
        · rw [if_pos hstr] at hkind
          obtain ⟨b, hlex⟩ := Token.string_of_sym hstr
          have hval : (q.pushed act).frame.ps_val0 = (Token.string b).ps_val0 := congrArg Token.ps_val0 hlex
          by_cases hop : target act = AFTEROP
          · rw [if_pos hop] at hkind hdata
            rw [hkind.1]
            obtain ⟨ts, a, op, g, rest, htext, htold, hsaved, hiips, hcode⟩ := hdata
            refine ⟨ts, a, op, b, q.pushed act, g, rest, ?_, htold, ⟨hsaved.savstr, hsaved.savlen⟩,
              hsame.trans (hscan b hlex), ?_, hval, hcode⟩
            · change q.text ++ [q.iilexeme] = _
              rw [htext, hlex, List.append_assoc]
              rfl
            · change q.pushed act :: q.iips = _
              rw [hiips]
          · rw [if_neg hop] at hkind hdata
            rw [hkind.1]
            refine ⟨q.text, b, q.pushed act, q.iips, ?_, hdata, hsame.trans (hscan b hlex), rfl, hval⟩
            change q.text ++ [q.iilexeme] = _
            rw [hlex]
        · rw [if_neg hstr] at hkind
          rw [if_neg hkind.2] at hdata
          rw [hkind.1]
          exact hdata.token hstr
      · -- the token stays ahead
        rw [if_neg hr] at hok ⊢
        obtain ⟨hpops, hlen, hkind, hs, hop⟩ := hok
        refine ⟨hpath.top hpops hlen, hscan, hparsing, hdata.imp And.left fun hdata => ?_⟩
        unfold Parser.Before at hdata
        rw [if_neg hs, if_neg hop] at hdata
        unfold Parser.Reducing
        rw [hkind]
        exact hdata

/-- What a semantic routine leaves alone. -/
theorem sem01_keeps (v : Env) (q : Parser) (sem : ℕ) (pl : Frame) :
    (q.sem01 v sem pl).1.iilexeme = q.iilexeme ∧ (q.sem01 v sem pl).1.text = q.text ∧
    (q.sem01 v sem pl).1.tokstr = q.tokstr ∧
    (q.sem01 v sem pl).1.parsing = (if sem = 1 then false else q.parsing) ∧
    (sem ≠ 16 → (q.sem01 v sem pl).1.compared = q.compared) := by
  unfold Parser.sem01
  dsimp only
  split
  · exact ⟨rfl, rfl, rfl, rfl, fun _ => rfl⟩
  · exact ⟨rfl, rfl, rfl, rfl, fun _ => rfl⟩
  · exact ⟨rfl, rfl, rfl, rfl, fun _ => rfl⟩
  · exact ⟨rfl, rfl, rfl, rfl, fun h => absurd rfl h⟩
  · rename_i h1 _ _
    exact ⟨rfl, rfl, rfl, (if_neg h1).symm, fun _ => rfl⟩

/-- **A reduction**: the first string is saved, or a comparison is told, or neither. -/
theorem sem01_parsed (v : Env) {q : Parser} {act : ℕ} {pl : Frame} (h : q.Reducing act) :
    if kind act = .string then ∃ ts a, (q.sem01 v (psem act) pl).1.text = ts ++ [.string a] ∧
        Told ts (q.sem01 v (psem act) pl).1.compared ∧ (q.sem01 v (psem act) pl).1.Saved a
      else Told (q.sem01 v (psem act) pl).1.text (q.sem01 v (psem act) pl).1.compared := by
  obtain ⟨-, htext, -, -, hcompared⟩ := sem01_keeps v q (psem act) pl
  unfold Parser.Reducing at h
  unfold kind at h ⊢
  by_cases hstring : psem act = 14
  · rw [if_pos hstring] at h ⊢
    rw [if_pos rfl, hstring]
    obtain ⟨ts, a, f, rest, htext, htold, htok, hiips, hval⟩ := h
    have hframe : (q.iips.map PsFrame.frame).getD 0 ⟨0, 0, 0⟩ = f.frame := by
      rw [hiips]
      rfl
    have hlen : f.frame.ps_val0.toNat = (a.take STRSIZ).length := by
      rw [hval, length_toNat]
    refine ⟨ts, a, htext, htold, ?_, ?_⟩
    · change q.tokstr.take ((q.iips.map PsFrame.frame).getD 0 ⟨0, 0, 0⟩).ps_val0.toNat = _
      rw [hframe, hlen, htok, List.take_length]
    · change ((q.iips.map PsFrame.frame).getD 0 ⟨0, 0, 0⟩).ps_val0.toNat = _
      rw [hframe, hlen]
  rw [if_neg hstring] at h ⊢
  by_cases hcompare : psem act = 16
  · rw [if_pos hcompare] at h ⊢
    rw [if_neg Kind.noConfusion, hcompare]
    obtain ⟨ts, a, op, b, f, g, rest, htext, htold, hsaved, htok, hiips, hval, hcode⟩ := h
    have hnew : q.operands ((q.iips.map PsFrame.frame).getD 0 ⟨0, 0, 0⟩)
        ((q.iips.map PsFrame.frame).getD 1 ⟨0, 0, 0⟩) = Comparison.told ⟨a, op, b⟩ := by
      rw [hiips]
      change Compared.mk (q.savstr.take q.savlen) (q.tokstr.take f.frame.ps_val0.toNat) g.frame.ps_val1 = _
      rw [hsaved.savstr, hsaved.savlen, htok, hval, length_toNat, hcode, List.take_length, List.take_length]
      rfl
    change Told q.text (q.compared ++ [q.operands ((q.iips.map PsFrame.frame).getD 0 ⟨0, 0, 0⟩)
      ((q.iips.map PsFrame.frame).getD 1 ⟨0, 0, 0⟩)])
    rw [htext, hnew]
    exact htold.comparison a op b
  · rw [if_neg hcompare] at h ⊢
    rw [if_neg Kind.noConfusion, htext, hcompared hcompare]
    exact h

theorem reduce_parsed (v : Env) (q : Parser) (act : ℕ) (h : Parsed (.reduce q act)) :
    Parsed (iistep v (.reduce q act)) := by
  obtain ⟨htop, hscan, hparsing, hdata⟩ := h
  rw [iistep]
  cases hdrop : q.iips.drop (plen act - 1) with
  | nil => exact fun hret => absurd hret (by decide)
  | cons pl rest =>
    dsimp only
    obtain ⟨f, iips, hiips⟩ : ∃ f iips, q.iips = f :: iips := by
      cases hq : q.iips with
      | nil =>
        rw [hq, List.drop_nil] at hdrop
        cases hdrop
      | cons f iips => exact ⟨f, iips, rfl⟩
    obtain ⟨hpath, hpops⟩ := htop.2 f iips hiips
    rw [hiips] at hdrop
    obtain ⟨hrest, hback⟩ := hpath.drop hdrop
    obtain ⟨hseven, hzero⟩ := hpops.plhs_iff
    obtain ⟨p, hp, hstate, hawaited⟩ := mem_keys (hpops.2 _ hback)
    obtain ⟨hlex, htext, htok, hkeep, -⟩ := sem01_keeps v q (psem act) pl.frame
    have hmove (hd : q.Reducing act) := @sem01_parsed v q act pl.frame hd
    generalize q.sem01 v (psem act) pl.frame = r at hlex htext htok hkeep hmove
    cases haction : iiaction pl.ps_state (.nonterminal (plhs act)) with
    | none => exact fun hret => absurd hret (by decide)
    | some act' =>
      have hok : NonterminalOk pl.ps_state (plhs act) act' := by
        have hact := nonterminal_ok p hp (plhs act) hawaited act'
        rw [hstate] at hact
        exact hact haction
      unfold NonterminalOk at hok
      dsimp only
      have hscan' : ∀ b, r.1.iilexeme = .string b → r.1.tokstr = b.take STRSIZ := by
        rw [hlex, htok]
        exact hscan
      by_cases hx : act' &&& IIXFLG = 0
      · rw [if_neg (not_not.mpr hx)] at hok
        rw [if_pos hx]
        obtain ⟨hpops', hkind', hne7, hne0⟩ := hok
        have hsem : psem act ≠ 1 := fun h => hne0 (hzero.mpr h)
        rw [if_neg hsem] at hkeep
        refine ⟨⟨hpops'.1, ?_⟩, hscan', hkeep.trans hparsing, ?_⟩
        · rintro f' rest' heq
          obtain ⟨rfl, rfl⟩ := List.cons.inj heq
          exact ⟨hrest, hpops'⟩
        · rcases hdata with hloud | hdata
          · exact .inl (by rwa [hlex])
          · right
            have htold := hmove hdata
            rw [if_neg fun h => hne7 (hseven.mpr h)] at htold
            unfold Parser.Reducing
            rw [hkind']
            exact htold
      · rw [if_pos hx] at hok
        rw [if_neg hx]
        by_cases hgo : r.1.parsing = true
        · rw [if_pos hgo]
          have hsem : psem act ≠ 1 := by
            intro hsem
            rw [if_pos hsem, hgo] at hkeep
            cases hkeep
          obtain ⟨hfrom, hbehind, hafter⟩ := hok.resolve_left fun h => hsem (hzero.mp h)
          refine ⟨⟨hfrom, hrest⟩, hscan', hgo, ?_⟩
          rcases hdata with hloud | hdata
          · exact .inl ⟨by rwa [hlex], hbehind⟩
          right
          have htold := hmove hdata
          unfold Parser.Before
          by_cases hstring : kind act = .string
          · rw [if_pos hstring] at htold
            rw [if_pos (hafter.mpr (hseven.mpr hstring))]
            obtain ⟨ts, a, hts, hcs, hsaved⟩ := htold
            exact ⟨ts, a, hts, hcs, hsaved.savstr, hsaved.savlen⟩
          · rw [if_neg hstring] at htold
            have hne : target act' ≠ AFTEROP := fun heq => by
              rw [heq] at hbehind
              exact absurd hbehind (by decide)
            rw [if_neg fun h => hstring (hseven.mp (hafter.mp h)), if_neg hne]
            exact htold
        · rw [if_neg hgo]
          intro hret
          have heof : r.1.iilexeme.ps_sym = TKEOF := by
            by_contra hno
            rw [if_neg hno] at hret
            cases hret
          have hquiet : ¬q.iilexeme.Loud := by
            intro hloud
            rw [Token.Loud, ← hlex, heof] at hloud
            exact absurd hloud (by decide)
          have hsem : psem act = 1 := by
            by_contra hno
            rw [if_neg hno] at hkeep
            exact hgo (hkeep.trans hparsing)
          have hother : kind act ≠ .string := by
            intro hstring
            have hnum := hseven.mpr hstring
            rw [hzero.mpr hsem] at hnum
            cases hnum
          have htold := hmove (hdata.resolve_left hquiet)
          rw [if_neg hother] at htold
          exact htold

/-- **A round of the parser keeps it**. -/
theorem iistep_parsed (v : Env) (c : Config) (h : Parsed c) : Parsed (iistep v c) := by
  cases c with
  | push q act => exact push_parsed v q act h
  | reduce q act => exact reduce_parsed v q act h
  | done q ret => exact h

/-- **The comparisons of a text that the parser accepts** are made with their own strings. -/
theorem iirun_told (v : Env) {n : ℕ} {tokstr : List Byte} {ts : List Token} {q : Parser}
    (h : iirun v n tokstr ts = .done q 0) : Told q.text q.compared := by
  have hall (n : ℕ) : Parsed (iirun v n tokstr ts) := by
    induction n with
    | zero => exact start_parsed tokstr ts
    | succ n ih =>
      rw [iirun, Function.iterate_succ_apply']
      exact iistep_parsed v _ ih
  have hend := hall n
  rw [h] at hend
  exact hend rfl

/-- What the scanner delivers: the tokens, and ends behind them. -/
def Delivered (ts : List Token) (q : Parser) : Prop :=
  ∃ k, q.text ++ q.iilexeme :: q.input = ts ++ List.replicate k (.mark .TKEOF 0)

def Config.parser : Config → Parser
  | push q _ => q
  | reduce q _ => q
  | done q _ => q

theorem Delivered.iilex {ts : List Token} {q : Parser} (h : Delivered ts q) (iips : List PsFrame) :
    Delivered ts (Parser.iilex { q with iips := iips }) := by
  obtain ⟨k, hk⟩ := h
  cases hin : q.input with
  | nil =>
    refine ⟨k + 1, ?_⟩
    rw [List.replicate_succ', ← List.append_assoc, ← hk, hin]
    simp [Parser.iilex]
  | cons t input =>
    refine ⟨k, ?_⟩
    rw [← hk, hin]
    simp [Parser.iilex]

theorem sem01_delivered (v : Env) {ts : List Token} {q : Parser} (h : Delivered ts q) (sem : ℕ) (pl : Frame) :
    Delivered ts (q.sem01 v sem pl).1 := by
  unfold Parser.sem01
  dsimp only
  split <;> exact h

theorem iistep_delivered (v : Env) {ts : List Token} {c : Config} (h : Delivered ts c.parser) :
    Delivered ts (iistep v c).parser := by
  cases c with
  | push q act =>
    rw [iistep]
    split
    · exact h
    dsimp only
    cases iiaction (q.pushed act).ps_state (q.pushed act).ps_sym with
    | none => exact h
    | some act' =>
      dsimp only
      by_cases hx : act' &&& IIXFLG ≠ 0
      · rw [if_pos hx]
        exact Delivered.iilex h _
      · rw [if_neg hx]
        by_cases hr : act' &&& IIRFLG ≠ 0
        · rw [if_pos hr]
          exact Delivered.iilex h _
        · rw [if_neg hr]
          exact h
  | reduce q act =>
    rw [iistep]
    cases q.iips.drop (plen act - 1) with
    | nil => exact h
    | cons pl rest =>
      dsimp only
      have hsem : Delivered ts (q.sem01 v (psem act) pl.frame).1 := sem01_delivered v h _ _
      generalize q.sem01 v (psem act) pl.frame = r at hsem
      cases iiaction pl.ps_state (.nonterminal (plhs act)) with
      | none => exact hsem
      | some act' =>
        dsimp only
        by_cases hx : act' &&& IIXFLG = 0
        · rw [if_pos hx]
          exact hsem
        · rw [if_neg hx]
          by_cases hgo : r.1.parsing = true
          · rw [if_pos hgo]
            exact hsem
          · rw [if_neg hgo]
            exact hsem
  | done q ret => exact h

/-- The text of the parser is what it has read of the tokens. -/
theorem iirun_delivered (v : Env) (n : ℕ) (tokstr : List Byte) (ts : List Token) :
    Delivered ts (iirun v n tokstr ts).parser := by
  induction n with
  | zero =>
    cases ts with
    | nil => exact ⟨1, rfl⟩
    | cons t ts => exact ⟨0, (List.append_nil _).symm⟩
  | succ n ih =>
    rw [iirun, Function.iterate_succ_apply']
    exact iistep_delivered v ih

/-! ## 3. The answers -/

/-- With a sign, bytes with different top bits are the wrong way round. -/
theorem charval_lt_iff (signed : Bool) (x y : Byte) :
    (charval signed x - charval signed y < 0 ↔ x < y) ↔ (signed = true → x.msb = y.msb) := by
  have hx := x.isLt
  have hy := y.isLt
  rw [sub_neg, BitVec.lt_def]
  cases signed with
  | false =>
    refine iff_of_true ?_ (fun h => nomatch h)
    change (x.toNat : ℤ) < y.toNat ↔ x.toNat < y.toNat
    exact Nat.cast_lt
  | true =>
    have hval (b : Byte) : charval true b = if b.msb then (b.toNat : ℤ) - 256 else b.toNat :=
      BitVec.toInt_eq_msb_cond b
    have htop (b : Byte) : b.msb = decide (128 ≤ b.toNat) := BitVec.msb_eq_decide b
    rw [hval, hval, htop, htop]
    by_cases hx' : 128 ≤ x.toNat <;> by_cases hy' : 128 ≤ y.toNat <;> simp [hx', hy'] <;> omega

/-- The first bytes that differ have the same top bit, if it is a sign. -/
def SameSign (signed : Bool) (a b : List Byte) : Prop :=
  ∀ p x y s t, a = p ++ x :: s → b = p ++ y :: t → x ≠ y → signed = true → x.msb = y.msb

/-- What the loop decides is the order of the strings, up to the sign. -/
theorem outcome_iff {signed : Bool} {a b : List Byte} : (outcome signed 0 a b = 0 ↔ a = b) ∧
    ((outcome signed 0 a b < 0 ↔ a < b) ↔ SameSign signed a b) := by
  induction a generalizing b with
  | nil =>
    have hsign : SameSign signed [] b := fun p x y s t h => by simp at h
    cases b with
    | nil => simp [outcome, hsign]
    | cons y b =>
      have hout : outcome signed 0 [] (y :: b) = 0 - ((b.length : ℤ) + 1) := by simp [outcome]
      rw [hout]
      refine ⟨iff_of_false (by omega) (by simp), iff_of_true (iff_of_true (by omega) (by simp)) hsign⟩
  | cons x a ih =>
    cases b with
    | nil =>
      have hsign : SameSign signed (x :: a) [] := fun p x y s t _ h => by simp at h
      have hout : outcome signed 0 (x :: a) [] = (a.length : ℤ) + 1 := by simp [outcome]
      rw [hout]
      refine ⟨iff_of_false (by omega) (by simp), iff_of_true (iff_of_false (by omega) (by simp)) hsign⟩
    | cons y b =>
      rw [outcome]
      by_cases hxy : x = y
      · obtain rfl := hxy
        rw [if_pos ((charval_eq_iff signed x x).mpr rfl)]
        obtain ⟨heq, hlt⟩ := ih (b := b)
        have hsign : SameSign signed (x :: a) (x :: b) ↔ SameSign signed a b := by
          constructor
          · rintro h p x' y' s t rfl rfl
            exact h (x :: p) x' y' s t rfl rfl
          · intro h p x' y' s t hx hy hne
            cases p with
            | nil => exact absurd ((List.cons.inj hx).1.symm.trans (List.cons.inj hy).1) hne
            | cons z p => exact h p x' y' s t (List.cons.inj hx).2 (List.cons.inj hy).2 hne
        refine ⟨heq.trans (by simp), ?_⟩
        rw [hsign, ← hlt, List.cons_lt_cons_iff]
        simp
      · have hne : charval signed x - charval signed y ≠ 0 := fun h => hxy ((charval_eq_iff signed x y).mp h)
        rw [if_neg hne]
        refine ⟨iff_of_false hne (by simp [hxy]), ?_⟩
        have horder : x :: a < y :: b ↔ x < y := by
          rw [List.cons_lt_cons_iff]
          simp [hxy]
        rw [horder, charval_lt_iff signed x y]
        constructor
        · intro hsign p x' y' s t hx hy hne
          cases p with
          | nil =>
            obtain ⟨rfl, -⟩ := List.cons.inj hx
            obtain ⟨rfl, -⟩ := List.cons.inj hy
            exact hsign
          | cons z p =>
            have hx' := (List.cons.inj hx).1
            have hy' := (List.cons.inj hy).1
            exact absurd (hx'.trans hy'.symm) hxy
        · intro hsign
          exact hsign [] x y a b rfl rfl hxy

theorem relation_eq (op : RelOp) (c : ℤ) (old : BitVec 32) :
    relation op.code c old = truth (op.holds (c = 0) (c < 0)) := by
  cases op with
  | TVEQ => rfl
  | TVNE =>
    have hnot : decide (c ≠ 0) = !decide (c = 0) := by simp
    exact congrArg truth hnot
  | TVLT => rfl
  | TVGT =>
    have hpos : decide (0 < c) = (!decide (c < 0) && !decide (c = 0)) := by
      rw [← decide_not, ← decide_not, ← Bool.decide_and]
      exact decide_eq_decide.mpr (by omega)
    exact congrArg truth hpos
  | TVLE =>
    have hle : decide (c ≤ 0) = (decide (c < 0) || decide (c = 0)) := by
      rw [← Bool.decide_or]
      exact decide_eq_decide.mpr (by omega)
    exact congrArg truth hle
  | TVGE =>
    have hge : decide (0 ≤ c) = !decide (c < 0) := by
      rw [← decide_not]
      exact decide_eq_decide.mpr (by omega)
    exact congrArg truth hge

theorem truth_inj {b b' : Bool} (h : truth b = truth b') : b = b' := by
  cases b <;> cases b' <;> first | rfl | exact absurd h (by decide)

/-- What an operator yields, whatever the variable of case 16 holds, is what it asks of the strings. -/
structure Right (signed : Bool) (c : Comparison) (e : Compared) : Prop where
  op : e.op = c.op.code
  answers : ∀ op junk old, relation (RelOp.code op) (outcome signed junk e.left e.right) old =
    truth (op.holds (c.left = c.right) (c.left < c.right))

/-- The comparisons of a text have been made, with the answers for their own strings; for each pair just
one of `<`, `=` and `>` holds. -/
def Yields (signed : Bool) (text : List Token) (compared : List Compared) : Prop :=
  ∃ cs, comparisons text = some cs ∧ List.Forall₂ (Right signed) cs compared

/-- Strings that are compared rightly: neither is empty, what is cut off does not matter, and neither
does the sign of a `char`. -/
structure Comparable (signed : Bool) (a b : List Byte) : Prop where
  left : a ≠ []
  right : b ≠ []
  cut : a.take STRSIZ = b.take STRSIZ → a = b
  sign : SameSign signed (a.take STRSIZ) (b.take STRSIZ)

/-- A variable that is not set decides on an empty string. -/
theorem outcome_nil (signed : Bool) {junk : ℤ} (h : junk ≠ 0) (a : List Byte) :
    outcome signed junk a [] = junk ∧ outcome signed junk [] a = junk := by
  cases a <;> simp [outcome, h]

theorem outcome_junk (signed : Bool) (junk : ℤ) {a b : List Byte} (ha : a ≠ []) (hb : b ≠ []) :
    outcome signed junk a b = outcome signed 0 a b := by
  cases a with
  | nil => exact absurd rfl ha
  | cons x a =>
    cases b with
    | nil => exact absurd rfl hb
    | cons y b => rfl

/-- The strings that are left have the order of the whole ones. -/
theorem take_lt_iff (n : ℕ) {a b : List Byte} (hne : a.take n ≠ b.take n) :
    a.take n < b.take n ↔ a < b := by
  induction n generalizing a b with
  | zero => exact absurd rfl hne
  | succ n ih =>
    cases a with
    | nil => cases b <;> simp
    | cons x a =>
      cases b with
      | nil => simp
      | cons y b =>
        rw [List.take_succ_cons, List.take_succ_cons, List.cons_lt_cons_iff, List.cons_lt_cons_iff]
        by_cases hxy : x = y
        · obtain rfl := hxy
          rw [ih fun h => hne (by rw [List.take_succ_cons, List.take_succ_cons, h])]
        · simp [hxy]

theorem right_iff (signed : Bool) (c : Comparison) :
    Right signed c c.told ↔ Comparable signed c.left c.right := by
  obtain ⟨a, op, b⟩ := c
  have hanswer : Right signed ⟨a, op, b⟩ (Comparison.told ⟨a, op, b⟩) ↔
      ∀ junk, (outcome signed junk (a.take STRSIZ) (b.take STRSIZ) = 0 ↔ a = b) ∧
        (outcome signed junk (a.take STRSIZ) (b.take STRSIZ) < 0 ↔ a < b) := by
    constructor
    · intro h junk
      have heq := h.answers .TVEQ junk 0
      have hlt := h.answers .TVLT junk 0
      rw [relation_eq] at heq hlt
      exact ⟨decide_eq_decide.mp (truth_inj heq), decide_eq_decide.mp (truth_inj hlt)⟩
    · intro h
      refine ⟨rfl, fun op junk old => ?_⟩
      obtain ⟨heq, hlt⟩ := h junk
      rw [relation_eq]
      change truth (op.holds (decide (outcome signed junk (a.take STRSIZ) (b.take STRSIZ) = 0))
        (decide (outcome signed junk (a.take STRSIZ) (b.take STRSIZ) < 0))) = _
      rw [decide_eq_decide.mpr heq, decide_eq_decide.mpr hlt]
  rw [hanswer]
  constructor
  · intro h
    have hright : b ≠ [] := by
      rintro rfl
      -- a negative value says that nothing is above the empty string
      have hneg := (h (-1)).2
      rw [List.take_nil, (outcome_nil signed (by decide : (-1 : ℤ) ≠ 0) _).1] at hneg
      exact absurd (hneg.mp (by decide)) (List.not_lt_nil _)
    have hleft : a ≠ [] := by
      rintro rfl
      have hpos := h 1
      rw [List.take_nil, (outcome_nil signed (by decide : (1 : ℤ) ≠ 0) _).2] at hpos
      have hno : ¬([] : List Byte) < b := fun hlt => absurd (hpos.2.mpr hlt) (by decide)
      cases b with
      | nil => exact hright rfl
      | cons y b => exact hno (List.nil_lt_cons y b)
    obtain ⟨hzero, hneg⟩ := h 0
    have hcut : a.take STRSIZ = b.take STRSIZ → a = b := fun heq => hzero.mp (outcome_iff.1.mpr heq)
    refine ⟨hleft, hright, hcut, ?_⟩
    by_cases heq : a.take STRSIZ = b.take STRSIZ
    · intro p x y s t hx hy hne
      rw [heq, hy] at hx
      exact absurd (List.cons.inj (List.append_cancel_left hx)).1.symm hne
    · rw [← outcome_iff.2, hneg, take_lt_iff STRSIZ heq]
  · intro h junk
    have hleft : a.take STRSIZ ≠ [] := fun hno => h.left (by simpa [STRSIZ] using hno)
    have hright : b.take STRSIZ ≠ [] := fun hno => h.right (by simpa [STRSIZ] using hno)
    obtain ⟨hzero, hneg⟩ := @outcome_iff signed (a.take STRSIZ) (b.take STRSIZ)
    rw [outcome_junk signed junk hleft hright, hzero, hneg.mpr h.sign]
    by_cases heq : a.take STRSIZ = b.take STRSIZ
    · have hab : a = b := h.cut heq
      rw [hab]
      exact ⟨iff_of_true rfl rfl, iff_of_false (List.lt_irrefl _) (List.lt_irrefl _)⟩
    · refine ⟨iff_of_false heq fun hab => heq (by rw [hab]), take_lt_iff STRSIZ heq⟩

/-- **String comparisons**: in a text that the parser accepts they are answered rightly exactly when all of
them are of comparable strings. -/
theorem yields_iff (v : Env) {n : ℕ} {tokstr : List Byte} {ts : List Token} {q : Parser}
    (h : iirun v n tokstr ts = .done q 0) : Yields v.signed q.text q.compared ↔
    ∀ cs, comparisons q.text = some cs → ∀ c ∈ cs, Comparable v.signed c.left c.right := by
  obtain ⟨cs, hcs, htold⟩ := iirun_told v h
  have hall : List.Forall₂ (Right v.signed) cs q.compared ↔
      ∀ c ∈ cs, Comparable v.signed c.left c.right := by
    rw [htold, List.forall₂_map_right_iff, List.forall₂_same]
    exact forall₂_congr fun c _ => right_iff v.signed c
  constructor
  · rintro ⟨ds, hds, hright⟩ cs' hcs' c hc
    rw [hcs] at hds hcs'
    obtain rfl := Option.some.inj hds
    obtain rfl := Option.some.inj hcs'
    exact hall.mp hright c hc
  · intro hcomp
    exact ⟨cs, hcs, hall.mpr (hcomp cs hcs)⟩

/-- The strings of `("a"<"b")&"ab">="b"`. -/
def nested : List Token :=
  [.mark .TKLPAR 0, .string [97], .relop .TVLT, .string [98], .mark .TKRPAR 0, .mark .TKANDOP 0,
    .string [97, 98], .relop .TVGE, .string [98], .mark .TKEOF 0]

/-- A parser that accepts. -/
def accepted : Config → Option Parser
  | .done q 0 => some q
  | _ => none

theorem accepted_eq {c : Config} {q : Parser} (h : accepted c = some q) : c = .done q 0 := by
  unfold accepted at h
  split at h
  · rw [Option.some.inj h]
  · cases h

/-- Compiled without a sign; the routines that are left out copy the top frame. -/
def plainEnv (junk : ℤ) : Env := ⟨false, junk, fun _ frames => frames.headD ⟨0, 0, 0⟩⟩

theorem yields_nested : ∃ q, iirun (plainEnv 0) 40 [] nested = .done q 0 ∧
    (Yields (plainEnv 0).signed q.text q.compared ↔ ∀ cs, comparisons q.text = some cs → ∀ c ∈ cs,
      Comparable (plainEnv 0).signed c.left c.right) := by
  have hsome : (accepted (iirun (plainEnv 0) 40 [] nested)).isSome := by decide +kernel
  obtain ⟨q, hq⟩ := Option.isSome_iff_exists.mp hsome
  have hdone := accepted_eq hq
  exact ⟨q, hdone, yields_iff (plainEnv 0) hdone⟩

/-- `""=""`. -/
def emptyStrings : List Token := [.string [], .relop .TVEQ, .string [], .mark .TKEOF 0]

/-- The empty string is not equal to itself when the variable holds 1. -/
theorem yields_empty : ∃ q f, iirun (plainEnv 1) 20 [] emptyStrings = .done q 0 ∧
    q.iips = [f] ∧ f.frame.ps_val0 = 0 ∧ ¬Yields false q.text q.compared := by
  have hrun : ((accepted (iirun (plainEnv 1) 20 [] emptyStrings)).map fun q =>
      (q.iips.map fun f => f.frame.ps_val0.toNat, (comparisons q.text).map (List.map Comparison.left))) =
      some ([0], some [[]]) := by
    decide +kernel
  obtain ⟨q, hq, heq⟩ := Option.map_eq_some_iff.mp hrun
  obtain ⟨hiips, htext⟩ := Prod.mk.inj heq
  obtain ⟨f, hf, hval⟩ := List.map_eq_singleton_iff.mp hiips
  obtain ⟨cs, hcs, hleft⟩ := Option.map_eq_some_iff.mp htext
  obtain ⟨c, hc, hempty⟩ := List.map_eq_singleton_iff.mp hleft
  have hdone := accepted_eq hq
  have hzero : f.frame.ps_val0 = 0 := BitVec.eq_of_toNat_eq hval
  refine ⟨q, f, hdone, hf, hzero, fun hyields => ?_⟩
  obtain ⟨ds, hds, hright⟩ := hyields
  rw [hcs, hc] at hds
  obtain rfl := Option.some.inj hds
  obtain ⟨es, hes, htold⟩ := iirun_told (plainEnv 1) hdone
  rw [hcs, hc] at hes
  obtain rfl := Option.some.inj hes
  rw [htold] at hright
  have hone : Right false c c.told := (List.forall₂_cons.mp hright).1
  exact ((right_iff false c).mp hone).left hempty

end Cpm8000.Asm
