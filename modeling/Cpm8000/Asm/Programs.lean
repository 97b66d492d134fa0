/-
# What a program's text says

In a second pass that reports nothing, every instruction is packed by a line of its table that its operands
match, and goes out (`instr_packed`); operands made of keywords have values of their classes
(`Arg.Legal.ofClass`). The text of the object file is then words that are told apart one after the other:
it says which instructions the program consists of (`text_says`).
-/
import Cpm8000.Asm.Encoding
import Cpm8000.Asm.Phase
import Cpm8000.Asm.Conditions
import Cpm8000.Sys.Codec

namespace Cpm8000.Asm

open Cpm8000.Sys

variable {σ : Type}

/-! ## 1. Operands made of keywords -/

/-- Where the code of an operand depends on it, it is a keyword of the kind the grammar asks for. Register 0
is none for an address. -/
def Arg.Legal : Arg σ → Prop
  | .ind16 r => r ∈ keyvals TKREG16 ∧ r ≠ 0
  | .ind32 r => r ∈ keyvals TKREG32 ∧ r ≠ 0
  | .based wide base _ => base ∈ keyvals (if wide then TKREG32 else TKREG16)
  | .baseIndexed wide base r => base ∈ keyvals (if wide then TKREG32 else TKREG16) ∧ r ∈ keyvals TKREG16
  | .ccode v => v ∈ keyvals TKCCODE
  | .int v => v ∈ keyvals TKINT
  | .ctl v => v ∈ keyvals TKCTL
  | _ => True

theorem OfClass.of_every {c : ℕ} (hv : vals c = every) (hb : bases c = every) (d : Operand) : OfClass c d := by
  refine ⟨fun h => absurd hv h, ?_⟩
  rw [hb]
  exact testBit_every_nibble _

theorem OfClass.of_val {c : ℕ} (hb : bases c = every) {d : Operand} (hlt : d.op_val.toNat < 16)
    (hval : (vals c).testBit d.op_val.toNat = true) : OfClass c d := by
  refine ⟨fun _ => ⟨hlt, hval⟩, ?_⟩
  rw [hb]
  exact testBit_every_nibble _

/-- The classes of an operand, one by one. -/
theorem getLsbD_mask (c : ℕ) {i : ℕ} (hi : i < 32) : (mask c).getLsbD i = decide (c = i) := by
  have hpow : mask c = BitVec.ofNat 32 (2 ^ c) := by
    rw [← Nat.one_shiftLeft]
    rfl
  rw [hpow, BitVec.getLsbD_ofNat, Nat.testBit_two_pow]
  simp [hi]

theorem class_eq {c k : ℕ} (h : mask c &&& mask k ≠ 0) : c = k := by
  by_contra hne
  refine h (BitVec.eq_of_getLsbD_eq fun i hi => ?_)
  rw [BitVec.getLsbD_and, getLsbD_mask c hi, getLsbD_mask k hi]
  by_cases hc : c = i
  · have hk : k ≠ i := fun hk => hne (hc.trans hk.symm)
    simp [hk]
  · simp [hc]

theorem class_or {c : ℕ} {x y : BitVec 32} (h : mask c &&& (x ||| y) ≠ 0) :
    mask c &&& x ≠ 0 ∨ mask c &&& y ≠ 0 := by
  by_contra hno
  rw [not_or, not_not, not_not] at hno
  refine h ?_
  have hand : mask c &&& (x ||| y) = mask c &&& x ||| mask c &&& y := by
    ext i
    simp [Bool.and_or_distrib_left]
  rw [hand, hno.1, hno.2]
  rfl

/-- The classes of the floating point registers. -/
theorem OfClass.of_ge {c : ℕ} (hc : 20 ≤ c) (d : Operand) : OfClass c d := by
  have hne (k : ℕ) (hk : k < 20) : c ≠ k := by omega
  refine .of_every ?_ ?_ d
  · rw [vals, if_neg (by simp [hne, OCIR, OCIRIO, OCBX]), if_neg (hne _ (by decide)), if_neg (hne _ (by decide)),
      if_neg (hne _ (by decide)), if_neg (hne _ (by decide))]
  · rw [bases, if_neg (by simp [hne, OCBA, OCBX])]

/-- The values of the keywords of a kind, as numbers. -/
theorem toNat_mem {tok : BitVec 16} {l : List ℕ} (hl : keyvals tok = l.map (BitVec.ofNat 16))
    (h16 : ∀ n ∈ l, n < 16) {v : BitVec 16} (hv : v ∈ keyvals tok) : v.toNat ∈ l ∧ v.toNat < 16 := by
  rw [hl] at hv
  obtain ⟨n, hn, rfl⟩ := List.mem_map.mp hv
  have hlt := h16 n hn
  rw [BitVec.toNat_ofNat, Nat.mod_eq_of_lt (by omega)]
  exact ⟨hn, hlt⟩

theorem keyvals_reg16 : keyvals TKREG16 = (List.range 16).map (BitVec.ofNat 16) := by decide +kernel

theorem keyvals_reg32 : keyvals TKREG32 = [0, 2, 4, 6, 8, 10, 12, 14].map (BitVec.ofNat 16) := by
  decide +kernel

theorem keyvals_ccode :
    keyvals TKCCODE = [1, 2, 3, 4, 5, 6, 7, 9, 10, 11, 12, 13, 14, 15].map (BitVec.ofNat 16) := by
  decide +kernel

theorem keyvals_int : keyvals TKINT = [14, 13].map (BitVec.ofNat 16) := by decide +kernel

theorem keyvals_ctl : keyvals TKCTL = [2, 3, 4, 5, 6, 7].map (BitVec.ofNat 16) := by decide +kernel

/-- An address is in a register, word or long, that is not register 0. -/
theorem address_register (wide : Bool) {r : BitVec 16} (h : r ∈ keyvals (if wide then TKREG32 else TKREG16))
    (h0 : r ≠ 0) : r.toNat < 16 ∧ nonzero.testBit r.toNat = true := by
  have hlt : r.toNat < 16 := by
    cases wide with
    | false => exact (toNat_mem keyvals_reg16 (by decide) h).2
    | true => exact (toNat_mem keyvals_reg32 (by decide) h).2
  have hpos : r.toNat ≠ 0 := fun hzero => h0 (BitVec.eq_of_toNat_eq hzero)
  have hall : ∀ n < 16, n ≠ 0 → nonzero.testBit n = true := by decide
  exact ⟨hlt, hall _ hlt hpos⟩

/-- An error of an expression is reported. -/
def Parse.Told (r : Parse σ) : Prop := r.flags = [] → r.eflg = false

namespace Parse.Told

theorem value (f : Frame) : (.value f : Parse σ).Told := fun _ => rfl

theorem experr : (.experr : Parse σ).Told := fun h => nomatch h

theorem none : (.none : Parse σ).Told := fun _ => rfl

theorem bind {r : Parse σ} (h : r.Told) {f : Frame → Parse σ} (hf : ∀ p, (f p).Told) : (r.bind f).Told := by
  intro hflags
  obtain ⟨hr, hq⟩ := List.append_eq_nil_iff.mp hflags
  rw [Parse.bind, h hr, hf _ hq, Bool.or_false]

theorem ite {c : Prop} [Decidable c] {r q : Parse σ} (h : r.Told) (hq : q.Told) : (if c then r else q).Told := by
  split
  · exact h
  · exact hq

theorem absolute (a b : Frame) (v : BitVec 32) : (absolute a b v : Parse σ).Told := ite experr (value _)

theorem compared (op : RelOp) (a b : Frame) : (compared op a b : Parse σ).Told := by
  cases op with
  | TVEQ => exact value _
  | TVNE => exact value _
  | _ => exact ite (value _) experr

theorem sem12 (t : Tab σ) (pass2 : Bool) (sym : σ) : (sem12 t pass2 sym).Told :=
  ite none (ite experr (ite (fun _ => rfl) fun _ => rfl))

theorem eval (t : Tab σ) (em : Emitter) (e : Expr σ) : (e.eval t em).Told := by
  induction e with
  | constant v => exact value _
  | symbol sym => exact sem12 t _ sym
  | dollar => exact value _
  | paren e ih => exact ih
  | plus e ih => exact ih.bind fun _ => value _
  | minus e ih => exact ih.bind fun _ => ite experr (value _)
  | compl e ih => exact ih.bind fun _ => ite experr (value _)
  | mulop op a b iha ihb => exact iha.bind fun _ => ihb.bind fun _ => absolute _ _ _
  | add a b iha ihb => exact iha.bind fun _ => ihb.bind fun _ => ite experr (value _)
  | sub a b iha ihb => exact iha.bind fun _ => ihb.bind fun _ => ite (value _) (ite experr (value _))
  | relop op a b iha ihb => exact iha.bind fun _ => ihb.bind fun _ => compared _ _ _
  | strings op a b => exact value _
  | and a b iha ihb => exact iha.bind fun _ => ihb.bind fun _ => absolute _ _ _
  | xor a b iha ihb => exact iha.bind fun _ => ihb.bind fun _ => absolute _ _ _
  | or a b iha ihb => exact iha.bind fun _ => ihb.bind fun _ => absolute _ _ _
  | bad => exact none

end Parse.Told

theorem check_flags {r : Parse σ} {c : Prop} [Decidable c] (h : (r.check c).flags = []) : r.flags = [] ∧ ¬c := by
  rw [Parse.check] at h
  split at h
  · exact absurd (List.append_eq_nil_iff.mp h).2 (List.cons_ne_nil _ _)
  · exact ⟨h, ‹_›⟩

/-- A class with no restriction. -/
theorem OfClass.plain {c : ℕ} (k : ℕ) (hc : c = k) (hv : vals k = every) (hb : bases k = every) (d : Operand) :
    OfClass c d := by
  rw [hc]
  exact .of_every hv hb d

/-- **An operand made of keywords, with nothing to report**, is of its classes. -/
theorem Arg.Legal.ofClass {a : Arg σ} (h : a.Legal) {segflg : Bool} {eval : Expr σ → Parse σ}
    (htold : ∀ e, (eval e).Told) (hq : (a.sem segflg eval).1.flags = []) {c : ℕ}
    (hc : mask c &&& (a.sem segflg eval).2.op_cls ≠ 0) : OfClass c (a.sem segflg eval).2 := by
  have hdesc (cls : BitVec 32) (r : Parse σ) (flg errflg : BitVec 16) : (described cls r flg errflg).op_cls = cls := by
    unfold described
    split <;> rfl
  have hnat (v : BitVec 16) : (v.setWidth 32 : BitVec 32).toNat = v.toNat := by
    rw [BitVec.toNat_setWidth]
    omega
  have hval (k : ℕ) (v : BitVec 16) (hk : c = k) (hb : bases k = every) (hlt : v.toNat < 16)
      (hv : (vals k).testBit v.toNat = true) : OfClass c ⟨(a.sem segflg eval).2.op_cls, v.setWidth 32, 0, 0⟩ := by
    rw [hk]
    exact .of_val hb (by rw [hnat]; exact hlt) (by rw [hnat]; exact hv)
  -- the base register shows in the lowest nibble of the flags
  have hlow {base : BitVec 16} (flg : BitVec 16) (hbase : base.toNat < 16 ∧ nonzero.testBit base.toNat = true) :
      nonzero.testBit ((flg ||| base).setWidth 4).toNat = true := by
    have hall : ∀ x y : BitVec 4, nonzero.testBit y.toNat = true → nonzero.testBit (x ||| y).toNat = true := by
      decide
    rw [BitVec.setWidth_or]
    refine hall _ _ ?_
    rw [BitVec.toNat_setWidth, Nat.mod_eq_of_lt hbase.1]
    exact hbase.2
  cases a with
  | expr e =>
    rw [Arg.sem, hdesc] at hc
    rcases class_or hc with hc | hc
    · exact .plain OCEXP (class_eq hc) rfl rfl _
    · cases he : e.isParen <;> rw [he] at hc
      · exact .plain OCNEX (class_eq hc) rfl rfl _
      · exact .plain OCPEX (class_eq hc) rfl rfl _
  | reg8 r => exact .plain OCREG8 (class_eq hc) rfl rfl _
  | reg16 r =>
    rw [Arg.sem] at hc
    dsimp only at hc
    split at hc
    · rename_i hfloat
      refine .of_ge ?_ _
      rw [class_eq hc, BitVec.toNat_and, BitVec.toNat_ushiftRight]
      have hle : (r &&& 0xff00).toNat ≤ r.toNat := by
        rw [BitVec.toNat_and]
        exact Nat.and_le_left
      have hfloat : 0x1800 ≤ (r &&& 0xff00).toNat := hfloat
      have hbyte : (0xff : BitVec 16).toNat = 2 ^ 8 - 1 := rfl
      rw [hbyte, Nat.and_two_pow_sub_one_eq_mod, Nat.shiftRight_eq_div_pow]
      omega
    · cases segflg with
      | true => exact .plain OCREG16 (class_eq hc) rfl rfl _
      | false =>
        rcases class_or hc with hc | hc
        · exact .plain OCREG16 (class_eq hc) rfl rfl _
        · exact .plain OCREGA (class_eq hc) rfl rfl _
  | reg32 r =>
    rw [Arg.sem] at hc
    cases segflg with
    | false => exact .plain OCREG32 (class_eq hc) rfl rfl _
    | true =>
      rcases class_or hc with hc | hc
      · exact .plain OCREG32 (class_eq hc) rfl rfl _
      · exact .plain OCREGA (class_eq hc) rfl rfl _
  | reg64 r => exact .plain OCREG64 (class_eq hc) rfl rfl _
  | imm e =>
    rw [Arg.sem, hdesc] at hc
    exact .plain OCIMM (class_eq hc) rfl rfl _
  | indexed e r =>
    rw [Arg.sem, hdesc] at hc
    exact .plain OCX (class_eq hc) rfl rfl _
  | ind16 r =>
    obtain ⟨hlt, hreg⟩ := address_register false h.1 h.2
    rw [Arg.sem] at hc
    cases segflg with
    | true => exact hval OCIRIO r (class_eq hc) rfl hlt hreg
    | false =>
      rcases class_or hc with hc | hc
      · exact hval OCIRIO r (class_eq hc) rfl hlt hreg
      · exact hval OCIR r (class_eq hc) rfl hlt hreg
  | ind32 r =>
    obtain ⟨hlt, hreg⟩ := address_register true h.1 h.2
    rw [Arg.sem] at hc
    cases segflg with
    | true => exact hval OCIR r (class_eq hc) rfl hlt hreg
    | false => exact absurd BitVec.and_zero hc
  | based wide base e =>
    obtain ⟨hflags, hbase⟩ := check_flags hq
    have hne : base ≠ 0 := fun hzero => hbase (.inr hzero)
    rw [Arg.sem, hdesc] at hc
    rw [class_eq hc, Arg.sem]
    dsimp only
    rw [described, htold e hflags]
    exact ⟨fun hno => absurd rfl hno, hlow (eval e).frame.ps_flg (address_register wide h hne)⟩
  | baseIndexed wide base r =>
    obtain ⟨hflags, hr⟩ := check_flags hq
    obtain ⟨-, hbase⟩ := check_flags hflags
    have hne : base ≠ 0 := fun hzero => hbase (.inr hzero)
    obtain ⟨hlt, hreg⟩ := address_register false h.2 hr
    rw [class_eq hc, Arg.sem]
    have hclass := hlow 0#16 (address_register wide h.1 hne)
    rw [BitVec.zero_or] at hclass
    refine ⟨fun _ => ?_, hclass⟩
    dsimp only
    rw [hnat]
    exact ⟨hlt, hreg⟩
  | ccode v =>
    obtain ⟨hin, hlt⟩ := toNat_mem keyvals_ccode (by decide) h
    have hall : ∀ n ∈ [1, 2, 3, 4, 5, 6, 7, 9, 10, 11, 12, 13, 14, 15],
        (vals OCCCODE).testBit n = true ∧ (4 ≤ n → n < 8 → (vals OCCFLAG).testBit n = true) := by decide
    rw [Arg.sem] at hc
    dsimp only at hc
    split at hc
    · rename_i hflag
      rcases class_or hc with hc | hc
      · exact hval OCCCODE v (class_eq hc) rfl hlt (hall _ hin).1
      · exact hval OCCFLAG v (class_eq hc) rfl hlt ((hall _ hin).2 hflag.1 hflag.2)
    · exact hval OCCCODE v (class_eq hc) rfl hlt (hall _ hin).1
  | int v =>
    obtain ⟨hin, hlt⟩ := toNat_mem keyvals_int (by decide) h
    have hall : ∀ n ∈ [14, 13], (vals OCINT).testBit n = true := by decide
    exact hval OCINT v (class_eq hc) rfl hlt (hall _ hin)
  | ctl v =>
    obtain ⟨hin, hlt⟩ := toNat_mem keyvals_ctl (by decide) h
    have hall : ∀ n ∈ [2, 3, 4, 5, 6, 7], (vals OCCTL).testBit n = true := by decide
    exact hval OCCTL v (class_eq hc) rfl hlt (hall _ hin)
  | flags v => exact .plain OCFLAGS (class_eq hc) rfl rfl _
  | short e =>
    rw [Arg.sem, hdesc] at hc
    exact .plain OCX (class_eq hc) rfl rfl _
  | shortIndexed e r =>
    rw [Arg.sem, hdesc] at hc
    exact .plain OCX (class_eq hc) rfl rfl _
  | bad => exact absurd (BitVec.and_zero) hc

/-! ## 2. A pass that reports nothing -/

section Runs

variable [DecidableEq σ]

/-- In the second pass no error is lost, and none taken back. -/
structure Counts (s s' : Assembler σ) : Prop where
  pass2 : s'.em.pass2 = s.em.pass2
  errors : s.em.pass2 = true → s.tab.Clean → s'.tab.Clean ∧ s.tab.errct ≤ s'.tab.errct

theorem move_counts {t t' : Tab σ} (h : t.Clean) (hm : Move true t t') : t'.Clean ∧ t.errct ≤ t'.errct := by
  have herr (t : Tab σ) (h : t.Clean) (c : Char) : (t.err true c).Clean ∧ t.errct ≤ (t.err true c).errct :=
    ⟨fun hzero => absurd hzero (h.err c), (err_mono t true c).2⟩
  have hassign (t : Tab σ) (h : t.Clean) (label : σ) (typ : Typ) (val : BitVec 32) (rel : BitVec 16) :
      (t.assignTo true label typ val rel).Clean ∧ t.errct ≤ (t.assignTo true label typ val rel).errct := by
    have hif (c : Prop) [Decidable c] {x y : Tab σ} (hx : x.Clean ∧ t.errct ≤ x.errct)
        (hy : y.Clean ∧ t.errct ≤ y.errct) : (if c then x else y).Clean ∧ t.errct ≤ (if c then x else y).errct := by
      split
      · exact hx
      · exact hy
    unfold Tab.assignTo
    dsimp only
    refine hif _ (herr t h 'M') (hif _ (herr t h 'P') (hif _ ⟨h, le_rfl⟩ (hif _ (herr t h 'P') ⟨h, le_rfl⟩)))
  cases hm with
  | err c => exact herr t h c
  | assign label typ val rel =>
    cases label with
    | none => exact ⟨h, le_rfl⟩
    | some label => exact hassign (t.reach true ⟨label, val, rel⟩) h label typ val rel
  | global sym => exact ⟨h, le_rfl⟩
  | use emits refs _ => exact ⟨h, le_rfl⟩
  | line n hn => exact ⟨fun _ => rfl, Nat.le_add_right _ _⟩

theorem moves_counts {t t' : Tab σ} (h : t.Clean) (hm : Moves true t t') : t'.Clean ∧ t.errct ≤ t'.errct := by
  induction hm with
  | refl => exact ⟨h, le_rfl⟩
  | tail _ hmove ih =>
    obtain ⟨hclean, hle⟩ := move_counts ih.1 hmove
    exact ⟨hclean, ih.2.trans hle⟩

instance : Std.Refl (Counts (σ := σ)) := ⟨fun _ => ⟨rfl, fun _ h => ⟨h, le_rfl⟩⟩⟩

instance : IsTrans (Assembler σ) Counts where
  trans _ _ _ h h' := by
    refine ⟨h'.pass2.trans h.pass2, fun hpass hclean => ?_⟩
    obtain ⟨hmid, hle⟩ := h.errors hpass hclean
    obtain ⟨hend, hle'⟩ := h'.errors (h.pass2.trans hpass) hmid
    exact ⟨hend, hle.trans hle'⟩

instance : Closed (Counts (σ := σ)) where
  tab _ _ h := ⟨rfl, fun hpass hclean => moves_counts hclean (hpass ▸ h)⟩
  em _ _ h := ⟨h, fun _ hclean => ⟨hclean, le_rfl⟩⟩
  secct _ _ := ⟨rfl, fun _ hclean => ⟨hclean, le_rfl⟩⟩
  reading _ _ := ⟨rfl, fun _ hclean => ⟨hclean, le_rfl⟩⟩

/-- A state of the second pass in which an error would be seen. -/
structure Live (s : Assembler σ) : Prop where
  pass2 : s.em.pass2 = true
  clean : s.tab.Clean

omit [DecidableEq σ] in
theorem Live.step {α : Type} {m : M σ α} {s s' : Assembler σ} {a : α} (hs : Live s) (hm : Keeps Counts m)
    (h : m s = some (a, s')) : Live s' ∧ s.tab.errct ≤ s'.tab.errct := by
  have hc := hm s a s' h
  obtain ⟨hclean, hle⟩ := hc.errors hs.pass2 hs.clean
  exact ⟨⟨hc.pass2.trans hs.pass2, hclean⟩, hle⟩

omit [DecidableEq σ] in
/-- A run without an error is one run without an error after the other. -/
theorem Live.of_bind {α β : Type} {m : M σ α} {f : α → M σ β} {s s' : Assembler σ} {b : β} (hs : Live s)
    (hm : Keeps Counts m) (hf : ∀ a, Keeps Counts (f a)) (h : (m >>= f) s = some (b, s'))
    (hz : s'.tab.errct = 0) :
    ∃ a t, m s = some (a, t) ∧ f a t = some (b, s') ∧ Live t ∧ t.tab.errct = 0 := by
  obtain ⟨a, t, hmt, hft⟩ := Sys.of_bind h
  obtain ⟨ht, -⟩ := hs.step hm hmt
  obtain ⟨-, hle⟩ := ht.step (hf a) hft
  exact ⟨a, t, hmt, hft, ht, by omega⟩

omit [DecidableEq σ] in
/-- No error was reported. -/
theorem Live.no_err {s s' : Assembler σ} (hs : Live s) {c : Char} (h : (err c : M σ Unit) s = some ((), s'))
    (hz : s'.tab.errct = 0) : False := by
  obtain rfl := congrArg Prod.snd (Option.some.inj h)
  refine hs.clean.err c ?_
  rw [← hs.pass2]
  exact hz

omit [DecidableEq σ] in
theorem Live.of_only {s s' : Assembler σ} (hs : Live s) {p : Prop} [Decidable p] {c : Char}
    (h : (only p (err c) : M σ Unit) s = some ((), s')) (hz : s'.tab.errct = 0) : ¬p ∧ s' = s := by
  unfold only at h
  split at h
  · exact (hs.no_err h hz).elim
  · exact ⟨‹_›, (congrArg Prod.snd (Option.some.inj h)).symm⟩

/-- The calls that `m` makes of the emitter, and it does nothing else. -/
structure Emits (cs : List Call) (m : M σ Unit) : Prop where
  keeps : Keeps Counts m
  run : ∀ s s', Live s → m s = some ((), s') → s'.tab.errct = 0 →
    runCalls cs s.em = some s'.em ∧ s' = { s with em := s'.em }

omit [DecidableEq σ] in
theorem runCalls_append {cs cs' : List Call} {em t em' : Emitter} (h : runCalls cs em = some t)
    (h' : runCalls cs' t = some em') : runCalls (cs ++ cs') em = some em' := by
  rw [runCalls, List.foldlM_append]
  exact Option.bind_eq_some_iff.mpr ⟨t, h, h'⟩

namespace Emits

variable {cs cs' : List Call} {m m' : M σ Unit}

omit [DecidableEq σ] in
theorem pure : Emits [] (pure () : M σ Unit) := by
  refine ⟨.pure _, fun s s' _ h _ => ?_⟩
  obtain rfl := congrArg Prod.snd (Option.some.inj h)
  exact ⟨rfl, rfl⟩

theorem call (c : Call) (h : Steady c.run) : Emits [c] (emit c.run : M σ Unit) := by
  refine ⟨Closed.emit h, fun s s' _ hrun _ => ?_⟩
  obtain ⟨t, ht, heq⟩ := Option.map_eq_some_iff.mp hrun
  obtain rfl := congrArg Prod.snd heq
  refine ⟨?_, rfl⟩
  rw [runCalls, List.foldlM_cons, ht]
  rfl

omit [DecidableEq σ] in
theorem seq (h : Emits cs m) (h' : Emits cs' m') : Emits (cs ++ cs') (m >>= fun _ => m') := by
  refine ⟨.bind h.keeps fun _ => h'.keeps, fun s s' hs hrun hz => ?_⟩
  obtain ⟨⟨⟩, t, hmt, hft, ht, htz⟩ := hs.of_bind h.keeps (fun _ => h'.keeps) hrun hz
  obtain ⟨hem, heq⟩ := h.run s t hs hmt htz
  obtain ⟨hem', heq'⟩ := h'.run t s' ht hft hz
  exact ⟨runCalls_append hem hem', by rw [heq', heq]⟩

omit [DecidableEq σ] in
theorem only {c d : Prop} [Decidable c] [Decidable d] (hcd : c ↔ d) (h : Emits cs m) :
    Emits (if d then cs else []) (only c m) := by
  unfold Asm.only
  by_cases hd : d
  · rw [if_pos hd, if_pos (hcd.mpr hd)]
    exact h
  · rw [if_neg hd, if_neg (fun hc => hd (hcd.mp hc))]
    exact pure

/-- What reports an error emits nothing. -/
theorem guard {c : Prop} [Decidable c] (e : Char) : Emits [] (Asm.only c (err e) : M σ Unit) := by
  refine ⟨Closed.only (Closed.err e), fun s s' hs hrun hz => ?_⟩
  obtain ⟨-, rfl⟩ := hs.of_only hrun hz
  exact ⟨rfl, rfl⟩

end Emits

variable (g : Setup σ)

/-- **What `putinstr` emits**. -/
theorem putinstr_emits (fmp : Format) (w : Fields) :
    Emits (w.calls fmp g.segflg) (putinstr g fmp w : M σ Unit) := by
  have htwo : fmp.fm_flg &&& FMSKEL2 ≠ 0 ↔ fmp.two = true := by simp [Format.two]
  have hnegi {α : Type} (a b : α) :
      (if fmp.fm_flg &&& FMNEGI ≠ 0 then a else b) = if fmp.negi then a else b := by simp [Format.negi]
  have hb (v r : BitVec 16) : Emits [.emitb v r] (emit fun em => em.emitb v r : M σ Unit) :=
    .call (.emitb v r) (.emitb v r)
  -- a choice of two calls
  have hcall {c : Prop} [Decidable c] (x y : Call) (hx : Steady x.run) (hy : Steady y.run) :
      Emits [if c then x else y] (emit fun em => if c then x.run em else y.run em : M σ Unit) := by
    split
    · exact .call x hx
    · exact .call y hy
  have hshort := hcall (c := g.segflg = true) (.emitss (w.dispval.setWidth 16) w.disprel)
    (.emitwm (w.dispval.setWidth 16) (RAA16M ||| w.disprel)) (.emitss _ _) (.emitwm _ _)
  have hlong : Emits [.emitls w.dispval w.disprel] (emit fun em => em.emitls w.dispval w.disprel : M σ Unit) :=
    .call (.emitls w.dispval w.disprel) (.emitls _ _)
  have himm := hb (w.immval.setWidth 16) (RAA8 ||| w.immrel)
  have himm2 : Emits [.emitwm ((if fmp.negi then -w.immval else w.immval).setWidth 16)
      ((if g.segflg then RAZOF else RAA16M) ||| w.immrel)] (do
        only (fmp.fm_flg &&& FMNEGI ≠ 0 ∧ w.immrel ≠ 0) (err 'E')
        emit fun em => em.emitwm ((if fmp.negi then -w.immval else w.immval).setWidth 16)
          ((if g.segflg then RAZOF else RAA16M) ||| w.immrel) : M σ Unit) :=
    (Emits.guard 'E').seq (.call (.emitwm _ _) (.emitwm _ _))
  have himm4 := hcall (c := g.segflg = true ∧ w.immrel ≠ 0) (.emitls w.immval w.immrel)
    (.emitlm w.immval (RAA32M ||| w.immrel)) (.emitls _ _) (.emitlm _ _)
  have hskel := Emits.only htwo ((hb (if fmp.negi then 0xff else w.skel2) 0).seq
    (hb (if fmp.negi then 0xff else w.skel3) 0))
  have hrest := (Emits.only (Iff.refl (w.immlen = 1)) (himm.seq himm)).seq
    ((Emits.only (Iff.refl (w.immlen = 2)) himm2).seq (Emits.only (Iff.refl (w.immlen = 4)) himm4))
  have hall := (hb w.skel0 0).seq ((hb w.skel1 (RAA8 ||| w.srel1)).seq (hskel.seq
    ((Emits.only (Iff.refl (w.displen = 2)) hshort).seq ((Emits.only (Iff.refl (w.displen = 4)) hlong).seq hrest))))
  unfold putinstr
  simp only [hnegi, Fields.calls, Fields.skel, Fields.address, Fields.immediate, List.append_assoc,
    List.cons_append, List.nil_append]
  exact hall

/-! ## 3. Instructions -/

omit [DecidableEq σ] in
/-- What the parser reported is in the count. -/
theorem log_errct {t : Tab σ} (h : t.Clean) (emits : Bool) (r : Parse σ)
    (hz : (t.log true emits r).errct = 0) : r.flags = [] := by
  have hmono (l : List Char) (t : Tab σ) : t.errct ≤ (l.foldl (fun t c => t.err true c) t).errct := by
    induction l generalizing t with
    | nil => exact le_rfl
    | cons c l ih => exact (err_mono t true c).2.trans (ih _)
  cases hf : r.flags with
  | nil => rfl
  | cons c l =>
    have hle := hmono l (t.err true c)
    have herr := h.err c
    have hlog : (l.foldl (fun t c => t.err true c) (t.err true c)).errct = 0 := by
      rw [Tab.log, hf] at hz
      exact hz
    omega

/-- An operand is of its classes. -/
def Classed (d : Operand) : Prop := ∀ c, mask c &&& d.op_cls ≠ 0 → OfClass c d

theorem Classed.null : Classed ⟨mask OCNULL, 0, 0, 0⟩ := fun _ h => .plain OCNULL (class_eq h) rfl rfl _

/-- The operands of an instruction that reports nothing. -/
theorem inops_classed (n : ℕ) {ops : List (Arg σ)} (hl : ∀ a ∈ ops, a.Legal) {s s' : Assembler σ}
    {optab : List Operand} (hs : Live s) (h : inops g n ops s = some (optab, s')) (hz : s'.tab.errct = 0) :
    optab.length = n ∧ (∀ d ∈ optab, Classed d) ∧ s' = { s with tab := s'.tab } := by
  induction n generalizing ops s s' optab with
  | zero =>
    obtain ⟨rfl, rfl⟩ := Prod.mk.inj (Option.some.inj h)
    exact ⟨rfl, by simp, rfl⟩
  | succ n ih =>
    cases ops with
    | nil =>
      obtain ⟨optab, t, hmt, hft, ht, htz⟩ := hs.of_bind (Closed.inops g n []) (fun _ => .pure _) h hz
      obtain ⟨rfl, rfl⟩ := Prod.mk.inj (Option.some.inj hft)
      obtain ⟨hlen, hall, heq⟩ := ih hl hs hmt htz
      refine ⟨by rw [List.length_cons, hlen], fun d hd => ?_, heq⟩
      rcases List.mem_cons.mp hd with rfl | hd
      · exact .null
      · exact hall d hd
    | cons a ops =>
      obtain ⟨ha, hl⟩ := List.forall_mem_cons.mp hl
      obtain ⟨r, t, hmt, hft, ht, htz⟩ := hs.of_bind (Closed.iiparse g true a) (fun r => .ite
        (.bind (Closed.err _) fun _ => .bind (Closed.inops g n []) fun _ => .pure _)
        (.bind (Closed.inops g n ops) fun _ => .pure _)) h hz
      obtain ⟨rfl, rfl⟩ := Prod.mk.inj (Option.some.inj hmt)
      have hquiet := log_errct hs.clean true _ (hs.pass2 ▸ htz)
      split at hft
      · -- a syntax error
        obtain ⟨_, u, herr, hrest, hu, huz⟩ := ht.of_bind (Closed.err _)
          (fun _ => .bind (Closed.inops g n []) fun _ => .pure _) hft hz
        exact (ht.no_err herr huz).elim
      · obtain ⟨optab, u, hmu, hfu, hu, huz⟩ := ht.of_bind (Closed.inops g n ops) (fun _ => .pure _) hft hz
        obtain ⟨rfl, rfl⟩ := Prod.mk.inj (Option.some.inj hfu)
        obtain ⟨hlen, hall, heq⟩ := ih hl ht hmu huz
        refine ⟨by rw [List.length_cons, hlen], fun d hd => ?_, heq⟩
        rcases List.mem_cons.mp hd with rfl | hd
        · intro c hc
          have hclass : mask c &&& (a.sem g.segflg fun e => e.eval s.tab s.em).2.op_cls ≠ 0 ∨ c = OCX := by
            dsimp only at hc
            split at hc
            · exact (class_or hc).imp id class_eq
            · exact .inl hc
          rcases hclass with hc | hc
          · obtain ⟨hval, hbase⟩ := ha.ofClass (fun e => .eval s.tab s.em e) hquiet hc
            exact ⟨hval, hbase⟩
          · exact .plain OCX hc rfl rfl _
        · exact hall d hd

/-- The fields of an instruction that reports nothing. -/
theorem pack_run (l : List (Action × Operand)) {w v : Fields} {s s' : Assembler σ} (hs : Live s)
    (h : pack g l w s = some (v, s')) (hz : s'.tab.errct = 0) :
    Fields.packs g.segflg s.em l w = some v ∧ s' = s := by
  induction l generalizing w s with
  | nil =>
    obtain ⟨rfl, rfl⟩ := Prod.mk.inj (Option.some.inj h)
    exact ⟨rfl, rfl⟩
  | cons p l ih =>
    obtain ⟨_, t, hget, hft, -, -⟩ := hs.of_bind .get (fun _ => .bind (Closed.only (Closed.err _)) fun _ =>
      Closed.pack g l _) h hz
    obtain ⟨rfl, rfl⟩ := Prod.mk.inj (Option.some.inj hget)
    obtain ⟨_, u, honly, hrest, hu, huz⟩ := hs.of_bind (Closed.only (Closed.err _)) (fun _ => Closed.pack g l _) hft hz
    obtain ⟨hfit, rfl⟩ := hs.of_only honly huz
    obtain ⟨hpacks, rfl⟩ := ih hs hrest
    rw [Bool.not_eq_false] at hfit
    rw [Fields.packs, if_pos hfit]
    exact ⟨hpacks, rfl⟩

omit [DecidableEq σ] in
/-- Every line has `OPMAX` operands. -/
theorem table_opmax : (table.all fun p => p.2.fm_op.length == OPMAX) = true := by decide +kernel

omit [DecidableEq σ] in
theorem mem_table {n : Fin opcodes.length} {f : Format} (h : f ∈ (opcodes.get n).lines) :
    ((n : ℕ), f) ∈ table := by
  refine List.mem_flatMap.mpr ⟨(opcodes.get n, n), ?_, List.mem_map.mpr ⟨f, h, rfl⟩⟩
  rw [List.mem_zipIdx_iff_getElem?]
  exact List.getElem?_eq_getElem n.isLt

omit [DecidableEq σ] in
/-- The operands that match a line are of its classes. -/
theorem ofClass_of_opmatch {p : ℕ × Format} (hp : p ∈ table) {optab : List Operand} (hlen : optab.length = OPMAX)
    (hall : ∀ d ∈ optab, Classed d) (hm : opmatch optab p.2 = true) :
    List.Forall₂ (fun o d => OfClass o.1 d) p.2.fm_op optab := by
  have hop := eq_of_beq (List.all_eq_true.mp table_opmax p hp)
  rw [List.forall₂_iff_zip]
  refine ⟨hop.trans hlen.symm, fun hab => ?_⟩
  exact hall _ (List.of_mem_zip hab).2 _ (of_decide_eq_true (List.all_eq_true.mp hm _ hab))

omit [DecidableEq σ] in
/-- An odd address is passed over. -/
theorem even_run {s s' : Assembler σ} (h : (even : M σ Unit) s = some ((), s')) :
    ∃ cs, text cs = [] ∧ runCalls cs s.em = some s'.em ∧ s' = { s with em := s'.em } := by
  obtain ⟨_, t, hget, hft⟩ := of_bind h
  obtain ⟨rfl, rfl⟩ := Prod.mk.inj (Option.some.inj hget)
  unfold only at hft
  split at hft
  · obtain rfl := congrArg Prod.snd (Option.some.inj hft)
    exact ⟨[.skip (s.em.curloc + 1)], rfl, rfl, rfl⟩
  · obtain rfl := congrArg Prod.snd (Option.some.inj hft)
    exact ⟨[], rfl, rfl, rfl⟩

/-- What an instruction does after its operands counts errors and no more. -/
theorem encoded_counts (lines : List Format) (optab : List Operand) : Keeps Counts
    (match lines.find? (opmatch optab) with
      | none => err 'O'
      | some fmp => do
        let w ← pack g ((fmp.fm_op.map Prod.snd).zip optab) (Fields.init fmp)
        putinstr g fmp w : M σ Unit) := by
  cases lines.find? (opmatch optab) with
  | none => exact Closed.err _
  | some fmp => exact .bind (Closed.pack g _ _) fun _ => Closed.putinstr g fmp _

/-- **An instruction that reports nothing** is packed by a line of its table, and goes out. -/
theorem instr_packed (n : Fin opcodes.length) (label : Option σ) {ops : List (Arg σ)} (hl : ∀ a ∈ ops, a.Legal)
    {s s' : Assembler σ} (hs : Live s) (h : instr g label (opcodes.get n).lines ops s = some ((), s'))
    (hz : s'.tab.errct = 0) :
    ∃ f w cs, f ∈ (opcodes.get n).lines ∧ Packed g.segflg (n, f) w ∧ text cs = text (w.calls f g.segflg) ∧
    runCalls cs s.em = some s'.em ∧ s' = { s with tab := s'.tab, em := s'.em } := by
  have hrest := encoded_counts (σ := σ) g (opcodes.get n).lines
  obtain ⟨_, t, heven, hft, ht, htz⟩ := hs.of_bind Closed.even (fun _ => .bind (Closed.place label) fun _ =>
    .bind (Closed.inops g _ ops) hrest) h hz
  obtain ⟨cs, hcs, hruncs, hteq⟩ := even_run heven
  obtain ⟨_, u, hplace, hfu, hu, huz⟩ := ht.of_bind (Closed.place label) (fun _ =>
    .bind (Closed.inops g _ ops) hrest) hft hz
  have hueq : u = { t with tab := u.tab } := by
    obtain rfl := congrArg Prod.snd (Option.some.inj hplace)
    rfl
  obtain ⟨optab, v, hops, hfv, hv, hvz⟩ := hu.of_bind (Closed.inops g _ ops) hrest hfu hz
  obtain ⟨hlen, hall, hveq⟩ := inops_classed g OPMAX hl hu hops hvz
  cases hfind : (opcodes.get n).lines.find? (opmatch optab) with
  | none =>
    rw [hfind] at hfv
    exact (hv.no_err hfv hz).elim
  | some f =>
    rw [hfind] at hfv
    obtain ⟨w, x, hpack, hput, hx, hxz⟩ := hv.of_bind (Closed.pack g _ _) (fun _ => Closed.putinstr g f _) hfv hz
    obtain ⟨hpacks, rfl⟩ := pack_run g _ hv hpack hxz
    obtain ⟨hcalls, hend⟩ := (putinstr_emits g f w).run x s' hx hput hz
    have hmem := List.mem_of_find?_eq_some hfind
    have htab := mem_table hmem
    have hof := ofClass_of_opmatch htab hlen hall (List.find?_some hfind)
    refine ⟨f, w, cs ++ w.calls f g.segflg, hmem, .of_packs htab hof hpacks, ?_, ?_, ?_⟩
    · rw [text_append, hcs, List.nil_append]
    · refine runCalls_append hruncs ?_
      have hem : t.em = x.em := by
        rw [hveq, hueq]
      rw [hem]
      exact hcalls
    · rw [hend, hveq, hueq, hteq]

/-! ## 4. Programs -/

/-- An instruction of a source text. -/
structure Source (σ : Type) where
  label : Option σ
  num : Fin opcodes.length
  ops : List (Arg σ)
  legal : ∀ a ∈ ops, a.Legal

namespace Source

def opcode (i : Source σ) : Opcode := opcodes.get i.num

def line (i : Source σ) : Line σ := ⟨i.label, .instr i.opcode.lines i.ops, false⟩

end Source

/-- A line packs an instruction into fields. -/
structure PackedAs (segflg : Bool) (i : Source σ) (w : (ℕ × Format) × Fields) : Prop where
  num : w.1.1 = i.num
  mem : w.1.2 ∈ i.opcode.lines
  packed : Packed segflg w.1 w.2

/-- The text of an instruction. -/
def word (segflg : Bool) (w : (ℕ × Format) × Fields) : List Byte := text (w.2.calls w.1.2 segflg)

/-- The pass assembles what it reads. -/
structure Reading (s : Assembler σ) : Prop extends Live s where
  cond : ¬s.condlev > s.truelev
  reading : s.reading = true

theorem step_counts (l : Line σ) : Keeps Counts (step g l) := by
  intro s a s' h
  have hgoes := step_moves g l s a s' h
  exact ⟨hgoes.pass2, fun hpass hclean => moves_counts hclean (hpass ▸ hgoes.moves)⟩

theorem statements_counts (ls : List (Line σ)) : Keeps Counts (statements g ls) := by
  induction ls with
  | nil => exact .pure _
  | cons l ls ih => exact .bind (step_counts g l) fun _ => .bind .get fun _ => .ite ih (.pure _)

/-- **An instruction of a source** that reports nothing. -/
theorem step_packed (i : Source σ) {s s' : Assembler σ} (hs : Reading s)
    (h : step g i.line s = some ((), s')) (hz : s'.tab.errct = 0) : Reading s' ∧ ∃ w cs,
    PackedAs g.segflg i w ∧ text cs = word g.segflg w ∧ runCalls cs s.em = some s'.em := by
  obtain ⟨hlive, -⟩ := hs.toLive.step (step_counts g i.line) h
  obtain ⟨_, t, hline, hput⟩ := of_bind h
  obtain rfl := congrArg Prod.snd (Option.some.inj hput)
  have hbody : line g i.line s = (if s.condlev > s.truelev then skip1 i.line.stmt else do
      instr g i.label i.opcode.lines i.ops
      only (false = true) (err 'S') : M σ Unit) s := rfl
  rw [hbody, if_neg hs.cond] at hline
  obtain ⟨_, u, hinstr, honly, -, huz⟩ := hs.toLive.of_bind (Closed.instr g _ _ _)
    (fun _ => Closed.only (Closed.err _)) hline hz
  obtain rfl := congrArg Prod.snd (Option.some.inj honly)
  obtain ⟨f, w, cs, hmem, hpacked, htext, hrun, heq⟩ := instr_packed g i.num i.label i.legal hs.toLive hinstr huz
  refine ⟨⟨hlive, ?_, ?_⟩, ((i.num, f), w), cs, ⟨rfl, hmem, hpacked⟩, htext, hrun⟩
  · rw [heq]
    exact hs.cond
  · rw [heq]
    exact hs.reading

/-- **The instructions of a source**, one after the other. -/
theorem statements_packed (l : List (Source σ)) {s s' : Assembler σ} (hs : Reading s)
    (h : statements g (l.map Source.line) s = some ((), s')) (hz : s'.tab.errct = 0) : ∃ ws cs,
    List.Forall₂ (PackedAs g.segflg) l ws ∧ text cs = ws.flatMap (word g.segflg) ∧
    runCalls cs s.em = some s'.em := by
  induction l generalizing s with
  | nil =>
    obtain rfl := congrArg Prod.snd (Option.some.inj h)
    exact ⟨[], [], .nil, rfl, rfl⟩
  | cons i l ih =>
    have hrest (t : Assembler σ) : Keeps Counts (only (t.reading = true) (statements g (l.map Source.line))) :=
      .ite (statements_counts g _) (.pure _)
    obtain ⟨_, t, hstep, hft, ht, htz⟩ := hs.toLive.of_bind (step_counts g i.line)
      (fun _ => .bind .get hrest) h hz
    obtain ⟨hread, w, cs, hw, htext, hrun⟩ := step_packed g i hs hstep htz
    have hgo : only (t.reading = true) (statements g (l.map Source.line)) t = some ((), s') := hft
    rw [only, if_pos hread.reading] at hgo
    obtain ⟨ws, cs', hws, htext', hrun'⟩ := ih hread hgo
    refine ⟨w :: ws, cs ++ cs', .cons hw hws, ?_, runCalls_append hrun hrun'⟩
    rw [text_append, htext, htext', List.flatMap_cons]

omit [DecidableEq σ] in
/-- The text that calls leave, whatever else goes to the file. -/
theorem emitted_value (cs : List Call) {s s' : Emitter} (h : runCalls cs s = some s') :
    (emitted cs s).map Text.value = text cs := by
  have hexpand (sec : Byte) (addr : BitVec 32) (l : List (Byte × BitVec 16)) :
      (expand sec addr l).map Text.value = l.map Prod.fst := by
    induction l generalizing addr with
    | nil => rfl
    | cons b l ih => rw [expand, List.map_cons, List.map_cons, ih]
  induction cs generalizing s with
  | nil => rfl
  | cons c cs ih =>
    rw [runCalls, List.foldlM_cons] at h
    obtain ⟨t, ht, hrest⟩ := Option.bind_eq_some_iff.mp h
    have hcons : text (c :: cs) = text [c] ++ text cs := text_append [c] cs
    rw [emitted, ht, Option.elim_some, List.map_append, ih hrest, hcons, Call.items, hexpand]
    simp [text]

/-- The text in an object file. -/
def contents (file : List Byte) : Option (List Byte) :=
  (textBlocks file).map fun L => L.flatten.map Text.value

/-- What a pass begins with does not touch the object file. -/
theorem startpass_start {s t : Assembler σ} (hs : Live s) (hstart : Start s.em)
    (h : startpass g s = some ((), t)) (hz : t.tab.errct = 0) : Reading t ∧ Start t.em := by
  obtain ⟨_, u, hchange, hnew⟩ := of_bind h
  have hbegin : Keeps Counts (startpass g) :=
    .bind (.modify fun _ => ⟨rfl, fun _ hclean => ⟨hclean, le_rfl⟩⟩) fun _ => Closed.newsec g _
  obtain ⟨hlive, hle⟩ := hs.step hbegin h
  have hempty : s.tab.llerr = [] := hs.clean (by omega)
  have hlevel := (startpass_ready g hempty h).level
  refine ⟨⟨hlive, hlevel.selected_iff.mpr (fun c hc => nomatch hc), startpass_reading g h⟩, ?_⟩
  obtain rfl := congrArg Prod.snd (Option.some.inj hchange)
  have hbody : (if SECSIZ ≤ (1 : BitVec 16).toNat then exit else do
      assign (some g.text) .STSEC 0 1
      setsec 1
      change fun s => { s with secct := s.secct + 1 }
      emit fun em => some { em with curatr := 0, curloc := 0, curaln := g.minaln, curext := 32 } : M σ Unit) _ =
      some ((), t) := hnew
  rw [if_neg (by decide)] at hbody
  obtain rfl := congrArg Prod.snd (Option.some.inj hbody)
  exact ⟨hstart.pass2, hstart.typ, hstart.le, hstart.top, hstart.file⟩

/-- **The second pass over a source** without an error: the text of the object file is that of its
instructions, each packed by a line of its table. -/
theorem dopass_contents (l : List (Source σ)) {s s' : Assembler σ} (hs : Live s) (hstart : Start s.em)
    (h : dopass g (l.map Source.line) s = some ((), s')) (hz : s'.tab.errct = 0) : ∃ ws,
    List.Forall₂ (PackedAs g.segflg) l ws ∧
    contents s'.em.oflush.OBJECT = some (ws.flatMap (word g.segflg)) := by
  have hbody : (startpass g >>= fun _ => statements g (l.map Source.line) >>= fun _ => setsec 0) s =
      some ((), s') := h
  have hbegin : Keeps Counts (startpass g) :=
    .bind (.modify fun _ => ⟨rfl, fun _ hclean => ⟨hclean, le_rfl⟩⟩) fun _ => Closed.newsec g _
  obtain ⟨_, t, hpass, hrest, ht, htz⟩ := hs.of_bind hbegin
    (fun _ => .bind (statements_counts g _) fun _ => Closed.setsec 0) hbody hz
  obtain ⟨hread, hready⟩ := startpass_start g hs hstart hpass htz
  obtain ⟨_, u, hstmts, hend, -, huz⟩ := ht.of_bind (statements_counts g _) (fun _ => Closed.setsec 0) hrest hz
  obtain ⟨ws, cs, hws, htext, hrun⟩ := statements_packed g l hread hstmts huz
  obtain rfl := congrArg Prod.snd (Option.some.inj hend)
  refine ⟨ws, hws, ?_⟩
  obtain ⟨em, bs, L, hem, -, -, hfile, hL, -⟩ := output_faithful hready cs
  obtain rfl := Option.some.inj (hrun.symm.trans hem)
  have hsame : (u.em.setsec 0).oflush.OBJECT = u.em.oflush.OBJECT := rfl
  rw [contents, hsame, hfile, Option.map_some, hL, emitted_value cs hrun, htext]

omit [DecidableEq σ] in
/-- The words of two sources with one text are alike. -/
theorem words_alike {segflg : Bool} {l m : List (Source σ)} {ws vs : List ((ℕ × Format) × Fields)}
    (hl : List.Forall₂ (PackedAs segflg) l ws) (hm : List.Forall₂ (PackedAs segflg) m vs)
    (h : ws.flatMap (word segflg) = vs.flatMap (word segflg)) :
    List.Forall₂ (fun w v => Alike w.1 v.1 ∧ word segflg w = word segflg v) ws vs := by
  have hall {k : List (Source σ)} {us : List ((ℕ × Format) × Fields)}
      (hk : List.Forall₂ (PackedAs segflg) k us) : ∀ u ∈ us, Packed segflg u.1 u.2 := by
    induction hk with
    | nil => exact fun u hu => nomatch hu
    | cons hu _ ih => exact List.forall_mem_cons.mpr ⟨hu.packed, ih⟩
  refine forall₂_of_flatMap_eq (fun u hno => ?_) (fun w hw v hv x y hxy => ?_) h
  · have hlen : (text (u.2.skel u.1.2)).length = 0 := by
      rw [word, Fields.calls, text_append, text_append] at hno
      rw [(List.append_eq_nil_iff.mp (List.append_eq_nil_iff.mp hno).1).1]
      rfl
    rw [length_skel] at hlen
    split at hlen <;> omega
  · exact (hall hl w hw).alike (hall hm v hv) hxy

/-- A left and a right shift: the one packs a count as it is, the other negated. -/
def Mirrored (o o' : Opcode) : Prop :=
  ∃ f ∈ o.lines, ∃ f' ∈ o'.lines, f.fm_skel = f'.fm_skel ∧ f.negi ≠ f'.negi

/-- **The text says which instructions there are**: two sources that are assembled without an error, and
leave the same text, have the same instructions in the same order, but for shifts, where a left one may
stand for a right one. -/
theorem contents_unique {g g' : Setup σ} (hseg : g.segflg = g'.segflg) {l m : List (Source σ)}
    {s s' t t' : Assembler σ} (hs : Live s) (ht : Live t) (hstart : Start s.em) (hstart' : Start t.em)
    (hpass : dopass g (l.map Source.line) s = some ((), s'))
    (hpass' : dopass g' (m.map Source.line) t = some ((), t')) (hz : s'.tab.errct = 0) (hz' : t'.tab.errct = 0)
    (h : contents s'.em.oflush.OBJECT = contents t'.em.oflush.OBJECT) :
    List.Forall₂ (fun i j => i.opcode = j.opcode ∨ Mirrored i.opcode j.opcode) l m := by
  obtain ⟨ws, hws, hfile⟩ := dopass_contents g l hs hstart hpass hz
  obtain ⟨vs, hvs, hfile'⟩ := dopass_contents g' m ht hstart' hpass' hz'
  rw [← hseg] at hvs hfile'
  have hwords := words_alike hws hvs (Option.some.inj ((hfile.symm.trans h).trans hfile'))
  clear hpass hpass' hfile hfile'
  induction hwords generalizing l m with
  | nil =>
    cases hws
    cases hvs
    exact .nil
  | @cons w v _ _ hwv _ ih =>
    cases hws with
    | @cons i _ _ _ hi hl =>
      cases hvs with
      | @cons j _ _ _ hj hm =>
        refine .cons ?_ (ih hl hm)
        rcases hwv.1.opcode with hnum | hnegi
        · rw [hi.num, hj.num] at hnum
          exact .inl (congrArg (opcodes.get ·) (Fin.ext hnum))
        · exact .inr ⟨w.1.2, hi.mem, v.1.2, hj.mem, hwv.1.skel, hnegi⟩

end Runs

/-- `sla r1,#-1` and `sra r1,#1`. -/
def slaOne : Source Name := ⟨none, ⟨211, by decide +kernel⟩, [.reg16 1, .imm (.constant (-1))], by simp [Arg.Legal]⟩

def sraOne : Source Name := ⟨none, ⟨227, by decide +kernel⟩, [.reg16 1, .imm (.constant 1)], by simp [Arg.Legal]⟩

/-- The second pass, before anything is put out. -/
def plainSecond : Assembler Name := { plainStart with em := secondPass }

/-- They leave one text. -/
theorem contents_unique_shift : slaOne.opcode.names ≠ sraOne.opcode.names ∧
    List.Forall₂ (fun i j => i.opcode = j.opcode ∨ Mirrored i.opcode j.opcode) [slaOne] [sraOne] := by
  have hleft : (dopass plainSetup ([slaOne].map Source.line) plainSecond).map
      (fun r => (r.2.tab.errct, r.2.em.oflush.OBJECT)) =
      some (0, [1, 0, 6, 10, 0, 0, 0, 0, 1, 4, 0xb3, 0x19, 0xff, 0xff]) := by decide +kernel
  have hright : (dopass plainSetup ([sraOne].map Source.line) plainSecond).map
      (fun r => (r.2.tab.errct, r.2.em.oflush.OBJECT)) =
      some (0, [1, 0, 6, 10, 0, 0, 0, 0, 1, 4, 0xb3, 0x19, 0xff, 0xff]) := by decide +kernel
  obtain ⟨⟨⟨⟩, s'⟩, hpass, hs'⟩ := Option.map_eq_some_iff.mp hleft
  obtain ⟨⟨⟨⟩, t'⟩, hpass', ht'⟩ := Option.map_eq_some_iff.mp hright
  obtain ⟨hz, hfile⟩ := Prod.mk.inj hs'
  obtain ⟨hz', hfile'⟩ := Prod.mk.inj ht'
  have hlive : Live plainSecond := ⟨rfl, fun _ => rfl⟩
  have hstart : Start plainSecond.em :=
    ⟨rfl, by decide, by decide, Nat.le_refl _, by simp [textBlocks, plainSecond, secondPass, blocks, OBTXT]⟩
  refine ⟨by decide +kernel, contents_unique rfl hlive hlive hstart hstart hpass hpass' hz hz' ?_⟩
  rw [hfile, hfile']

end Cpm8000.Asm
