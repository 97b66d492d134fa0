/-
# Tokens of assembler source

`token` scans a token.  What it puts into `tokstr` is bounded for symbols and for strings, but not for
constants; and a comment, or a string, is scanned until a newline is seen.

* `token_spec`: a call of `token` that starts where the newline of the last line can be reached returns.
-/
import Cpm8000.Asm.Scan

namespace Cpm8000.Asm.Source

open Sys Sys.Outcome

/-! ## 1. The code -/

def STRSIZ : ℕ := 128
def SYMSIZ : ℕ := 8

def TKEOF : ℕ := 0
def TKSYM : ℕ := 2
def TKCON : ℕ := 3
def TKSTR : ℕ := 4
def TKUNOP : ℕ := 5
def TKMULOP : ℕ := 6
def TKADDOP : ℕ := 7
def TKRELOP : ℕ := 8
def TKANDOP : ℕ := 9
def TKXOROP : ℕ := 10
def TKOROP : ℕ := 11
def TKLPAR : ℕ := 12
def TKRPAR : ℕ := 13
def TKPOUND : ℕ := 14
def TKAT : ℕ := 15
def TKCOM : ℕ := 100
def TKCOLON : ℕ := 101
def TKEOL : ℕ := 102
def TKSPC : ℕ := 103
def TKERR : ℕ := 127

def white (c : Byte) : Bool := c = 0x20 ∨ c = 0x09
def digit (c : Byte) : Bool := 0x30 ≤ c ∧ c ≤ 0x39
def octal (c : Byte) : Bool := 0x30 ≤ c ∧ c ≤ 0x37
def upper (c : Byte) : Bool := 0x41 ≤ c ∧ c ≤ 0x5A
def lower (c : Byte) : Bool := 0x61 ≤ c ∧ c ≤ 0x7A

/-- What a symbol starts with. -/
def symstart (c : Byte) : Bool := lower c ∨ upper c ∨ c = 0x24 ∨ c = 0x5F ∨ c = 0x2E

/-- What a symbol goes on with. -/
def symchar (c : Byte) : Bool := symstart c ∨ digit c

/-- `if('A'<=ch && ch<='Z') ch += 'a'-'A'`. -/
def small (c : Byte) : Byte := if upper c then c + 0x20 else c

/-- The single-character tokens: type and value. -/
def chtab : List (Byte × ℕ × BitVec 32) :=
  [(0x7E, TKUNOP, 0), (0x2A, TKMULOP, 1), (0x2F, TKMULOP, 2), (0x25, TKMULOP, 3), (0x2B, TKADDOP, 1),
   (0x2D, TKADDOP, 2), (0x3D, TKRELOP, 1), (0x26, TKANDOP, 0), (0x5E, TKXOROP, 0), (0x7C, TKOROP, 0),
   (0x28, TKLPAR, 0), (0x29, TKRPAR, 0), (0x23, TKPOUND, 0), (0x40, TKAT, 0), (0x2C, TKCOM, 0),
   (0x3A, TKCOLON, 0), (0x0A, TKEOL, 0), (EOFCHR, TKEOF, 0)]

/-- What `token` leaves; `tokstr` is without its NUL, and `written` is how many bytes of it the last call
has written that wrote any. -/
structure Tok where
  toktyp : ℕ
  tokval : BitVec 32
  tokstr : List Byte
  written : ℕ

namespace Scan

variable (h : Host) (n : ℕ)

/-- A character more, as a step of a program. -/
def next (s : Scan) : Outcome Scan := ofOption (s.scanc h)

/-- `while(cond(ch)) scanc()`. -/
def skipWhile (cond : Byte → Bool) (s : Scan) : Outcome Scan := loop (fun s => cond s.ch) (next h) n s

/-- The digits of an octal escape, `ct` at most. -/
def octals : ℕ → BitVec 32 × Scan → Outcome (BitVec 32 × Scan)
  | 0, (val, s) => return (val, s)
  | ct + 1, (val, s) =>
    if octal s.ch then do
      let t ← s.next h
      octals ct ((val <<< 3) + s.ch.setWidth 32 - 0x30, t)
    else return (val, s)

/-- A single-character escape. -/
def single (c : Byte) : BitVec 32 :=
  if c = 0x62 ∨ c = 0x42 then 0x08
  else if c = 0x66 ∨ c = 0x46 then 0x0C
  else if c = 0x6E ∨ c = 0x4E then 0x0A
  else if c = 0x72 ∨ c = 0x52 then 0x0D
  else if c = 0x74 ∨ c = 0x54 then 0x09
  else c.signExtend 32

/-- Process a string escape, after the escape character. -/
def stresc (s : Scan) : Outcome (BitVec 32 × Scan) := do
  let s ← s.next h
  if octal s.ch then
    let (val, s) ← octals h 3 (0, s)
    return (val, s.unscanc)
  else return (single s.ch, s)

/-- `(ch==escchr)?stresc():ch`. -/
def strchr (s : Scan) : Outcome (BitVec 32 × Scan) :=
  if s.ch = escchr then stresc h s else return (s.ch.signExtend 32, s)

/-- The value of a digit. -/
def digitval (c : Byte) : ℕ := if digit c then (c - 0x30).toNat else (c + 10 - 0x61).toNat

/-- The type and the value of a constant with these digits. -/
def accumulate (radix : ℕ) : List Byte → BitVec 32 → ℕ × BitVec 32
  | [], val => (TKCON, val)
  | c :: cs, val =>
    if radix ≤ digitval c then (TKERR, val)
    else accumulate radix cs (val * BitVec.ofNat 32 radix + BitVec.ofNat 32 (digitval c))

/-- The radix by the last character of a constant, if that is no digit. -/
def radix (c : Byte) : Option ℕ :=
  if c = 0x62 then some 2 else if c = 0x64 then some 10 else if c = 0x68 then some 16
  else if c = 0x6F ∨ c = 0x71 then some 8 else none

/-- The constant with these characters. -/
def evaluate (k : Tok) (str : List Byte) : Tok :=
  let c := str.getLast?.getD 0
  if digit c then
    let (typ, val) := accumulate 10 str 0
    { k with tokstr := str, written := str.length + 1, toktyp := typ, tokval := val }
  else match radix c with
    | none => { k with tokstr := str, written := str.length + 1, toktyp := TKERR }
    | some r =>
      let (typ, val) := accumulate r str.dropLast 0
      { k with tokstr := str.dropLast, written := str.length + 1, toktyp := typ, tokval := val }

/-- `do` something with the character at hand and go on to the next, `while(cond(ch))`. -/
def gather (cond : Byte → Bool) (f : List Byte → Byte → List Byte) (s : Scan) : Outcome (List Byte × Scan) :=
  loop (fun p => cond p.2.ch)
    (fun p => do
      let t ← p.2.next h
      return (f p.1 p.2.ch, t))
    n ([], s)

/-- The characters of a constant, every one of them; capitals are made small. -/
def constant (s : Scan) : Outcome (List Byte × Scan) :=
  gather h n (fun c => digit (small c) || lower (small c)) (fun str c => str ++ [small c]) s

/-- The characters of a symbol: `SYMSIZ` of them are kept. -/
def symbol (s : Scan) : Outcome (List Byte × Scan) :=
  gather h n symchar (fun str c => if str.length < SYMSIZ then str ++ [c] else str) s

/-- A character of a string, as long as there is room for it. -/
def keep (p : List Byte × Scan) : Outcome (List Byte × Scan) :=
  if p.1.length < STRSIZ then do
    let (c, s) ← strchr h p.2
    return (p.1 ++ [c.setWidth 8], s)
  else return p

/-- The characters of a string: `STRSIZ` of them are kept. -/
def string (s : Scan) : Outcome (List Byte × Scan) :=
  loop (fun p => p.2.ch ≠ 0x22 ∧ p.2.ch ≠ 0x0A)
    (fun p => do
      let (str, s) ← keep h p
      let t ← s.next h
      return (str, t))
    n ([], s)

/-- The operators of two characters: what the second one may be, and what becomes of them. -/
def operator (k : Tok) (s : Scan) (seconds : List (Byte × ℕ × BitVec 32)) (typ : ℕ) (val : BitVec 32) :
    Outcome (Tok × Scan) := do
  let s ← s.next h
  match seconds.lookup s.ch with
  | some (typ, val) => return ({ k with tokval := val, toktyp := typ }, s)
  | none => return ({ k with tokval := val, toktyp := typ }, s.unscanc)

/-- The token that starts with the character at hand, which is no white space. -/
def token1 (k : Tok) (s : Scan) : Outcome (Tok × Scan) := do
  if s.ch = 0x3B then
    let s ← skipWhile h n (· ≠ 0x0A) s
    return ({ k with toktyp := TKEOL }, s)
  else if symstart s.ch then
    let (str, s) ← symbol h n s
    return ({ k with tokstr := str, written := str.length + 1, toktyp := TKSYM }, s.unscanc)
  else if digit s.ch then
    let (str, s) ← constant h n s
    return (evaluate k str, s.unscanc)
  else if s.ch = 0x27 then
    let s ← s.next h
    if s.ch = 0x0A then return ({ k with toktyp := TKERR }, s.unscanc)
    else
      let (val, s) ← strchr h s
      let s ← s.next h
      if s.ch ≠ 0x27 then return ({ k with tokval := val, toktyp := TKERR }, s.unscanc)
      else return ({ k with tokval := val, toktyp := TKCON }, s)
  else if s.ch = 0x22 then
    let s ← s.next h
    let (str, s) ← string h n s
    if s.ch = 0x0A then
      return ({ k with tokstr := str, written := str.length, toktyp := TKERR }, s.unscanc)
    else
      return (⟨TKSTR, BitVec.ofNat 32 str.length, str, str.length + 1⟩, s)
  else if s.ch = 0x3C then operator h k s [(0x3C, TKMULOP, 4), (0x3D, TKRELOP, 5)] TKRELOP 3
  else if s.ch = 0x3E then operator h k s [(0x3E, TKMULOP, 5), (0x3D, TKRELOP, 6)] TKRELOP 4
  else if s.ch = 0x21 then operator h k s [(0x3D, TKRELOP, 2)] TKERR k.tokval
  else
    let (typ, val) := (chtab.lookup s.ch).getD (TKERR, 0)
    return ({ k with tokval := val, toktyp := typ }, s)

/-- Scan the next token. -/
def token (k : Tok) (s : Scan) : Outcome (Tok × Scan) := do
  let s ← s.next h
  if white s.ch then
    let s ← skipWhile h n white s
    if s.ch ≠ 0x3B ∧ s.ch ≠ 0x0A then return ({ k with toktyp := TKSPC }, s.unscanc)
    else token1 h n k s
  else token1 h n k s

end Scan

/-! ## 2. What a scanner meets -/

/-- A constant as it is written, or the beginning of one. -/
def Constant (run : List Byte) : Prop :=
  ∃ d rest, run = d :: rest ∧ digit d = true ∧ ∀ c ∈ rest, (digit (small c) || lower (small c)) = true

/-- No escape takes a newline, and no constant is longer than `tokstr`. -/
structure Plain (cs : List Byte) : Prop where
  escape : ¬[escchr, 0x0A] <:+: cs
  constant : ∀ run, run <:+: cs → Constant run → run.length ≤ STRSIZ

theorem Plain.of_part {cs ds : List Byte} (hd : Plain ds) (hc : cs <:+: ds) : Plain cs :=
  ⟨fun he => hd.escape (he.trans hc), fun run hr => hd.constant run (hr.trans hc)⟩

theorem plain_nil : Plain [] := by
  constructor
  · simp
  · rintro run hr ⟨d, rest, rfl, -⟩
    simp at hr

namespace Scan

/-- A state to scan from, on the line of `a`: the newline of the last line is reached, and what comes is
plain. -/
structure Clean (h : Host) (s a : Scan) : Prop where
  good : s.Good h
  on : s.On a
  plain : ∀ cs u, Yields h s cs u → Plain cs

/-- A state within the line of `a`, or at its newline. -/
structure Mid (h : Host) (s a : Scan) : Prop where
  good : s.Good h
  on : s.On a
  seen : s.Seen
  ended : ¬s.Ended
  more : s.ch = 0x0A ∨ s.More
  plain : ∀ cs u, Yields h s cs u → Plain (s.ch :: cs)

variable {h : Host} {n : ℕ} {a : Scan}

theorem Mid.clean {s : Scan} (hs : s.Mid h a) : s.Clean h a :=
  ⟨hs.good, hs.on, fun cs u hu => (hs.plain cs u hu).of_part (List.infix_cons (List.infix_refl cs))⟩

/-- Where the next token begins: on the line at hand if there is more of it, else on the next one. -/
def Begins (h : Host) (a s b : Scan) : Prop := (s.More → b = a) ∧ (¬s.More → s.scanc h = some b)

/-- A character is scanned. -/
theorem Clean.scanc {s t : Scan} (hs : s.Clean h a) (ht : s.scanc h = some t) :
    ∃ b, Begins h a s b ∧ ((t.Ended ∧ t.ch = EOFCHR ∧ t.Clean h b ∧ ¬s.More) ∨ (t.Mid h b ∧ t.left < s.left)) := by
  obtain ⟨hcomes, hended, hleft⟩ := scanc_good hs.good ht
  have hplain : ∀ cs u, Yields h t cs u → Plain (t.ch :: cs) := fun cs u hu => hs.plain _ u (.cons ht hu)
  obtain ⟨b, hb, hon⟩ : ∃ b, Begins h a s b ∧ t.On b := by
    by_cases hm : s.More
    · exact ⟨a, ⟨fun _ => rfl, fun hnot => absurd hm hnot⟩, hs.on.scanc hm ht⟩
    · exact ⟨t, ⟨fun hm' => absurd hm' hm, fun _ => ht⟩, .refl t⟩
  refine ⟨b, hb, ?_⟩
  by_cases hend : t.Ended
  · refine .inl ⟨hend, hcomes.mark hend, ⟨hcomes.good, hon, fun cs u hu => ?_⟩, hended hend⟩
    exact (hplain cs u hu).of_part (List.infix_cons (List.infix_refl cs))
  · exact .inr ⟨⟨hcomes.good, hon, hcomes.seen, hend, hcomes.more hend, hplain⟩, hleft hend⟩

/-- In a line the next character is one of the line. -/
theorem Clean.next_more {s : Scan} (hs : s.Clean h a) (hm : s.More) :
    (s.next h).Ends fun t => t.Mid h a ∧ t.left < s.left := by
  refine ends_ofOption.mpr fun t ht => ?_
  obtain ⟨b, hb, ⟨-, -, -, hnot⟩ | hmid⟩ := hs.scanc ht
  · exact absurd hm hnot
  · exact hb.1 hm ▸ hmid

theorem Mid.more_of_ne {s : Scan} (hs : s.Mid h a) (hne : s.ch ≠ 0x0A) : s.More := hs.more.resolve_left hne

theorem Mid.next {s : Scan} (hs : s.Mid h a) (hne : s.ch ≠ 0x0A) :
    (s.next h).Ends fun t => t.Mid h a ∧ t.left < s.left := hs.clean.next_more (hs.more_of_ne hne)

/-- The escape character is not followed by a newline. -/
theorem Mid.next_escape {s : Scan} (hs : s.Mid h a) (hc : s.ch = escchr) :
    (s.next h).Ends fun t => (t.Mid h a ∧ t.left < s.left) ∧ t.ch ≠ 0x0A := by
  have hne : s.ch ≠ 0x0A := hc ▸ by decide
  refine (hs.next hne).and (ends_ofOption.mpr fun t ht hnl => ?_)
  have hplain := hs.plain _ t (.cons ht (.nil t))
  rw [hc, hnl] at hplain
  exact hplain.escape (List.infix_refl _)

theorem Seen.unscanc_adv {t : Scan} (ht : t.Seen) : t.unscanc.adv = t := by
  have hpos := ht.pos
  have hch : t.sline.getD (t.scanpt - 1) 0 = t.ch := by
    rw [List.getD_eq_getElem?_getD, ht.at_]
    rfl
  obtain ⟨sline, scanpt, ch, input⟩ := t
  dsimp only at hpos hch
  simp only [unscanc, adv, peek, hch, Nat.sub_add_cancel hpos]

theorem Seen.scanc_unscanc {t : Scan} (ht : t.Seen) : t.unscanc.scanc h = some t := by
  rw [scanc_eq, ht.unscanc_adv, xscanc_plain ht.nonzero ht.plain]

/-- A character is put back. -/
theorem Mid.unscanc {t : Scan} (ht : t.Mid h a) :
    t.unscanc.Clean h a ∧ t.unscanc.More ∧ t.unscanc.left = t.left + 1 := by
  have hpos := ht.seen.pos
  obtain ⟨hlt, -⟩ := List.getElem?_eq_some_iff.mp ht.seen.at_
  have hline : ∃ l, Fine l ∧ t.sline = l ++ [0x0A] := by
    cases ht.good.placed with
    | mark hend => exact absurd hend ht.ended
    | none hnil =>
      rw [hnil] at hlt
      exact absurd hlt (Nat.not_lt_zero _)
    | line l hl hline => exact ⟨l, hl, hline⟩
  have hmark : t.sline ≠ [EOFCHR] := by
    obtain ⟨l, -, hl⟩ := hline
    exact hl ▸ line_ne_mark l
  refine ⟨⟨⟨?_, ht.good.closed⟩, ht.on, fun cs u hu => ?_⟩, ⟨hline, hlt⟩, ?_⟩
  · obtain ⟨l, hl, hl'⟩ := hline
    exact .line l hl hl'
  · cases hu with
    | nil => exact plain_nil
    | cons hv hu =>
      rw [ht.seen.scanc_unscanc] at hv
      obtain rfl := Option.some.inj hv
      exact ht.plain _ u hu
  · have hleft : t.unscanc.left = t.sline.length - (t.scanpt - 1) + t.input.weight := left_line hmark
    rw [hleft, left_line hmark]
    omega

/-- **A loop over characters that stops at a newline.** -/
theorem Mid.skipWhile {cond : Byte → Bool} (hcond : cond 0x0A = false) {s : Scan} (hs : s.Mid h a) (hn : s.left < n) :
    (skipWhile h n cond s).Ends fun t =>
      t.Mid h a ∧ cond t.ch = false ∧ t.left ≤ s.left ∧ (cond s.ch = true → t.left < s.left) := by
  have hbody : ∀ u : Scan, (u.Mid h a ∧ (u = s ∨ u.left < s.left)) → cond u.ch = true →
      (u.next h).Ends fun v => (v.Mid h a ∧ (v = s ∨ v.left < s.left)) ∧ v.left < u.left := by
    rintro u ⟨hu, hus⟩ hc
    have hne : u.ch ≠ 0x0A := by
      intro hnl
      rw [hnl, hcond] at hc
      cases hc
    refine (hu.next hne).mono fun v hv => ⟨⟨hv.1, .inr ?_⟩, hv.2⟩
    rcases hus with rfl | hlt
    · exact hv.2
    · exact hv.2.trans hlt
  refine (Ends.loop (m := left) hbody ⟨hs, .inl rfl⟩ hn).mono ?_
  rintro t ⟨⟨ht, hts⟩, hc, hle⟩
  refine ⟨ht, hc, hle, fun hcs => hts.resolve_left ?_⟩
  rintro rfl
  rw [hc] at hcs
  cases hcs

/-- A loop that gathers characters, of which there is one at least. -/
theorem Mid.gather {q : Byte → Bool} {f : List Byte → Byte → List Byte} {J : List Byte → Scan → Prop}
    (hcond : q 0x0A = false)
    (hJ : ∀ str t u, J str t → q t.ch = true → t.scanc h = some u → J (f str t.ch) u)
    {s : Scan} (hs : s.Mid h a) (hc : q s.ch = true) (hJs : J [] s) (hn : s.left < n) :
    (gather h n q f s).Ends fun p => p.2.Mid h a ∧ p.2.left < s.left ∧ J p.1 p.2 := by
  have hbody : ∀ p : List Byte × Scan, (p.2.Mid h a ∧ (p.2 = s ∨ p.2.left < s.left) ∧ J p.1 p.2) →
      q p.2.ch = true →
      (do let t ← p.2.next h; return (f p.1 p.2.ch, t) : Outcome (List Byte × Scan)).Ends fun v =>
        (v.2.Mid h a ∧ (v.2 = s ∨ v.2.left < s.left) ∧ J v.1 v.2) ∧ v.2.left < p.2.left := by
    rintro ⟨str, t⟩ ⟨ht, hlt, hJt⟩ hct
    have hne : t.ch ≠ 0x0A := by
      intro hnl
      rw [hnl, hcond] at hct
      cases hct
    have hnext : (t.next h).Ends fun u => (u.Mid h a ∧ u.left < t.left) ∧ J (f str t.ch) u :=
      (ht.next hne).and (ends_ofOption.mpr fun u hu => hJ str t u hJt hct hu)
    refine hnext.bind fun u hu => ?_
    obtain ⟨⟨hmid, hleft⟩, hJu⟩ := hu
    refine ⟨⟨hmid, .inr ?_, hJu⟩, hleft⟩
    rcases hlt with heq | hlt
    · exact heq ▸ hleft
    · exact hleft.trans hlt
  refine (Ends.loop (m := fun p => p.2.left) hbody (s := ([], s)) ⟨hs, .inl rfl, hJs⟩ hn).mono ?_
  rintro ⟨str, t⟩ ⟨⟨ht, hlt, hJt⟩, hcf, -⟩
  refine ⟨ht, hlt.resolve_left ?_, hJt⟩
  rintro rfl
  rw [hc] at hcf
  cases hcf

theorem Mid.symbol {s : Scan} (hs : s.Mid h a) (hc : symstart s.ch = true) (hn : s.left < n) :
    (symbol h n s).Ends fun p => p.2.Mid h a ∧ p.2.left < s.left ∧ p.1.length ≤ SYMSIZ := by
  refine hs.gather (J := fun str _ => str.length ≤ SYMSIZ) (by decide) ?_ (by simp [symchar, hc])
    (Nat.zero_le _) hn
  intro str t u hlen hct hu
  split_ifs with hlt
  · simpa using hlt
  · exact hlen

/-- A constant has as many characters as there is room for. -/
theorem Mid.constant {s : Scan} (hs : s.Mid h a) (hc : digit s.ch = true) (hn : s.left < n) :
    (constant h n s).Ends fun p => p.2.Mid h a ∧ p.2.left < s.left ∧ p.1.length ≤ STRSIZ := by
  have hsmall : ∀ c : Byte, digit c = true → digit (small c) = true := by decide
  -- `raw` is what was scanned of the constant
  let J (str : List Byte) (t : Scan) : Prop := ∃ raw : List Byte, raw.length = str.length ∧
    (∀ cs u, Yields h t cs u → Plain (raw ++ t.ch :: cs)) ∧ (raw = [] ∧ digit t.ch = true ∨ Constant raw)
  have hgather := hs.gather (n := n) (J := J) (q := fun c => digit (small c) || lower (small c))
    (f := fun str c => str ++ [small c]) (by decide) ?_ (by simp [hsmall _ hc])
    ⟨[], rfl, hs.plain, .inl ⟨rfl, hc⟩⟩ hn
  · refine hgather.mono ?_
    rintro ⟨str, t⟩ ⟨ht, hlt, raw, hlen, hplain, hraw⟩
    refine ⟨ht, hlt, ?_⟩
    rw [← hlen]
    rcases hraw with ⟨rfl, -⟩ | hraw
    · exact Nat.zero_le _
    · exact (hplain [] t (.nil t)).constant raw (List.prefix_append raw _).isInfix hraw
  · rintro str t u ⟨raw, hlen, hplain, hraw⟩ hct hu
    refine ⟨raw ++ [t.ch], by simp [hlen], fun cs v hv => ?_, .inr ?_⟩
    · have happ := hplain _ v (.cons hu hv)
      rwa [List.append_assoc]
    · rcases hraw with ⟨rfl, hd⟩ | ⟨d, rest, rfl, hd, hrest⟩
      · exact ⟨t.ch, [], rfl, hd, by simp⟩
      · refine ⟨d, rest ++ [t.ch], rfl, hd, fun c hmem => ?_⟩
        rcases List.mem_append.mp hmem with hmem | hmem
        · exact hrest c hmem
        · exact List.mem_singleton.mp hmem ▸ hct

/-- The digits of an octal escape. -/
theorem Mid.octals (ct : ℕ) (val : BitVec 32) {s : Scan} (hs : s.Mid h a) :
    (octals h ct (val, s)).Ends fun p => p.2.Mid h a ∧ p.2.left ≤ s.left := by
  induction ct generalizing val s with
  | zero => exact ⟨hs, le_refl _⟩
  | succ ct ih =>
    rw [Scan.octals]
    split_ifs with ho
    · have hne : s.ch ≠ 0x0A := by
        intro hnl
        rw [hnl] at ho
        exact absurd ho (by decide)
      refine (hs.next hne).bind fun t ht => (ih _ ht.1).mono fun p hp => ?_
      exact ⟨hp.1, hp.2.trans ht.2.le⟩
    · exact ⟨hs, le_refl _⟩

/-- An escape stays within the line. -/
theorem Mid.stresc {s : Scan} (hs : s.Mid h a) (hc : s.ch = escchr) :
    (stresc h s).Ends fun p => p.2.Clean h a ∧ p.2.More ∧ p.2.left < s.left := by
  refine (hs.next_escape hc).bind fun t ht => ?_
  obtain ⟨⟨ht, hlt⟩, hnl⟩ := ht
  split_ifs with ho
  · -- the first digit is one of those that are scanned
    have hoct : (Scan.octals h 3 (0, t)).Ends fun p => p.2.Mid h a ∧ p.2.left < t.left := by
      rw [Scan.octals, if_pos ho]
      refine (ht.next hnl).bind fun u hu => (hu.1.octals 2 _).mono fun p hp => ?_
      exact ⟨hp.1, lt_of_le_of_lt hp.2 hu.2⟩
    refine hoct.bind ?_
    rintro ⟨val, u⟩ ⟨hu, hleft⟩
    dsimp only at hu hleft
    obtain ⟨hclean, hmore, hun⟩ := hu.unscanc
    exact ⟨hclean, hmore, by dsimp only; omega⟩
  · exact ⟨ht.clean, ht.more_of_ne hnl, hlt⟩

theorem Mid.strchr {s : Scan} (hs : s.Mid h a) (hnl : s.ch ≠ 0x0A) :
    (strchr h s).Ends fun p => p.2.Clean h a ∧ p.2.More ∧ p.2.left ≤ s.left := by
  unfold Scan.strchr
  split_ifs with hc
  · exact (hs.stresc hc).mono fun p hp => ⟨hp.1, hp.2.1, hp.2.2.le⟩
  · exact ⟨hs.clean, hs.more_of_ne hnl, le_refl _⟩

/-- A string has as many characters as there is room for, and it ends at its line's end at last. -/
theorem Mid.string {s : Scan} (hs : s.Mid h a) (hn : s.left < n) :
    (string h n s).Ends fun p =>
      p.2.Mid h a ∧ p.2.left ≤ s.left ∧ p.1.length ≤ STRSIZ ∧ (p.2.ch = 0x22 ∨ p.2.ch = 0x0A) := by
  have hkeep : ∀ p : List Byte × Scan, p.2.Mid h a → p.1.length ≤ STRSIZ → p.2.ch ≠ 0x0A →
      (keep h p).Ends fun q => (q.2.Clean h a ∧ q.2.More ∧ q.2.left ≤ p.2.left) ∧ q.1.length ≤ STRSIZ := by
    intro p hp hlen hnl
    unfold Scan.keep
    split_ifs with hlt
    · refine (hp.strchr hnl).bind fun q hq => ⟨hq, ?_⟩
      simpa using hlt
    · exact ⟨⟨hp.clean, hp.more_of_ne hnl, le_refl _⟩, hlen⟩
  refine (Ends.loop (I := fun p => p.2.Mid h a ∧ p.1.length ≤ STRSIZ) (m := fun p => p.2.left) ?_
    (s := ([], s)) ⟨hs, Nat.zero_le _⟩ hn).mono ?_
  · rintro p ⟨hp, hlen⟩ hc
    have hnl : p.2.ch ≠ 0x0A := (of_decide_eq_true hc).2
    refine (hkeep p hp hlen hnl).bind fun q hq => ?_
    obtain ⟨⟨hclean, hmore, hle⟩, hlen'⟩ := hq
    refine (hclean.next_more hmore).bind fun t ht => ⟨⟨ht.1, hlen'⟩, lt_of_lt_of_le ht.2 hle⟩
  · rintro p ⟨⟨hp, hlen⟩, hc, hle⟩
    refine ⟨hp, hle, hlen, ?_⟩
    have hc' := of_decide_eq_false hc
    by_contra hne
    exact hc' (not_or.mp hne)

theorem Mid.ne_mark {s : Scan} (hs : s.Mid h a) : s.ch ≠ EOFCHR := by
  intro hmark
  have hmem := List.mem_of_getElem? hs.seen.at_
  rw [hmark] at hmem
  cases hs.good.placed with
  | mark hend => exact hs.ended hend
  | none hnil =>
    rw [hnil] at hmem
    cases hmem
  | line l hl hline =>
    rw [hline] at hmem
    rcases List.mem_append.mp hmem with hmem | hmem
    · exact hl.seven hmem
    · exact absurd (List.mem_singleton.mp hmem) (by decide)

/-- What a call of `token` leaves: the end of the input, or a token; the line is read to its end just when
the token says so. -/
structure After (h : Host) (a s : Scan) (k : Tok) (t : Scan) : Prop where
  clean : t.Clean h a
  written : k.written ≤ STRSIZ + 1
  string : k.toktyp = TKSTR → k.tokstr.length ≤ STRSIZ
  what : (k.toktyp = TKEOF ∧ t.Ended ∧ ¬s.More) ∨
    (t.left < s.left ∧ ¬t.Ended ∧
      (k.toktyp = TKEOL ∧ t.ch = 0x0A ∧ t.Seen ∨ k.toktyp ≠ TKEOL ∧ k.toktyp ≠ TKEOF ∧ t.More))

/-- A token that ends where the next one begins. -/
theorem After.of_more {s t : Scan} {k : Tok} (ht : t.Clean h a) (hm : t.More) (hlt : t.left < s.left)
    (hk : k.written ≤ STRSIZ + 1) (hstr : k.toktyp = TKSTR → k.tokstr.length ≤ STRSIZ)
    (hne : k.toktyp ≠ TKEOL ∧ k.toktyp ≠ TKEOF) : After h a s k t :=
  ⟨ht, hk, hstr, .inr ⟨hlt, hm.not_ended, .inr ⟨hne.1, hne.2, hm⟩⟩⟩

theorem Mid.operator {s₀ s : Scan} (hs : s.Mid h a) (hs₀ : s.left < s₀.left) (hnl : s.ch ≠ 0x0A) {k : Tok}
    (hk : k.written ≤ STRSIZ + 1) {seconds : List (Byte × ℕ × BitVec 32)} {typ : ℕ} {val : BitVec 32}
    (htyp : ∀ p ∈ (0, typ, val) :: seconds, p.2.1 ≠ TKEOL ∧ p.2.1 ≠ TKEOF ∧ p.2.1 ≠ TKSTR)
    (hsec : seconds.lookup 0x0A = none) :
    (operator h k s seconds typ val).Ends fun p => After h a s₀ p.1 p.2 := by
  refine (hs.next hnl).bind fun t ht => ?_
  obtain ⟨ht, hlt⟩ := ht
  split
  · next typ' val' hlook =>
    have hnl' : t.ch ≠ 0x0A := by
      intro hnl'
      rw [hnl', hsec] at hlook
      cases hlook
    have hmem : (t.ch, typ', val') ∈ seconds := by
      obtain ⟨l₁, l₂, rfl, -⟩ := List.lookup_eq_some_iff.mp hlook
      simp
    have hty := htyp _ (List.mem_cons_of_mem _ hmem)
    exact .of_more ht.clean (ht.more_of_ne hnl') (hlt.trans hs₀) hk (fun h => absurd h hty.2.2) ⟨hty.1, hty.2.1⟩
  · obtain ⟨hclean, hmore, hun⟩ := ht.unscanc
    have hlt' : t.unscanc.left < s₀.left := by omega
    have hty := htyp _ (List.mem_cons_self ..)
    exact .of_more hclean hmore hlt' hk (fun h => absurd h hty.2.2) ⟨hty.1, hty.2.1⟩

theorem evaluate_spec (k : Tok) (str : List Byte) (hlen : str.length ≤ STRSIZ) :
    (evaluate k str).written ≤ STRSIZ + 1 ∧ (evaluate k str).toktyp ∈ [TKCON, TKERR] := by
  have hacc : ∀ (r : ℕ) (str : List Byte) (val : BitVec 32), (accumulate r str val).1 ∈ [TKCON, TKERR] := by
    intro r str val
    fun_induction accumulate r str val with
    | case1 => simp
    | case2 => simp
    | case3 val c cs hd ih => exact ih
  unfold evaluate
  dsimp only
  split_ifs
  · exact ⟨by simpa using hlen, hacc ..⟩
  · split
    · exact ⟨by simpa using hlen, by simp⟩
    · exact ⟨by simpa using hlen, hacc ..⟩

theorem Mid.token1 {s₀ s : Scan} (hs : s.Mid h a) (hs₀ : s.left < s₀.left) {k : Tok}
    (hk : k.written ≤ STRSIZ + 1) (hn : s.left < n) : (token1 h n k s).Ends fun p => After h a s₀ p.1 p.2 := by
  unfold Scan.token1
  split_ifs with hsemi hsym hdig hquote hdouble hlt hgt hnot
  · -- a comment
    refine (hs.skipWhile (by decide) hn).bind fun t ht => ?_
    obtain ⟨ht, hnl, hle, -⟩ := ht
    have hnl' : t.ch = 0x0A := by simpa using hnl
    exact ⟨ht.clean, hk, by simp [TKEOL, TKSTR], .inr ⟨lt_of_le_of_lt hle hs₀, ht.ended, .inl ⟨rfl, hnl', ht.seen⟩⟩⟩
  · refine (hs.symbol hsym hn).bind ?_
    rintro ⟨str, t⟩ ⟨ht, hlt, hlen⟩
    dsimp only at ht hlt hlen
    obtain ⟨hclean, hmore, hun⟩ := ht.unscanc
    have hlt' : t.unscanc.left < s₀.left := by omega
    have hw : str.length + 1 ≤ STRSIZ + 1 := by
      simp only [SYMSIZ, STRSIZ] at hlen ⊢
      omega
    exact .of_more hclean hmore hlt' hw (by simp [TKSYM, TKSTR]) (by simp [TKSYM, TKEOL, TKEOF])
  · refine (hs.constant hdig hn).bind ?_
    rintro ⟨str, t⟩ ⟨ht, hlt, hlen⟩
    dsimp only at ht hlt hlen
    obtain ⟨hclean, hmore, hun⟩ := ht.unscanc
    have hlt' : t.unscanc.left < s₀.left := by omega
    obtain ⟨hw, htyp⟩ := evaluate_spec k str hlen
    have hne : (evaluate k str).toktyp ≠ TKSTR ∧ (evaluate k str).toktyp ≠ TKEOL ∧
        (evaluate k str).toktyp ≠ TKEOF := by
      rcases List.mem_pair.mp htyp with heq | heq <;> rw [heq] <;> decide
    exact .of_more hclean hmore hlt' hw (fun h => absurd h hne.1) hne.2
  · -- a character constant
    have hnl : s.ch ≠ 0x0A := hquote ▸ by decide
    refine (hs.next hnl).bind fun t ht => ?_
    obtain ⟨ht, hlt⟩ := ht
    split_ifs with htnl
    · obtain ⟨hclean, hmore, hun⟩ := ht.unscanc
      have hlt' : t.unscanc.left < s₀.left := by omega
      exact .of_more hclean hmore hlt' hk (by simp [TKERR, TKSTR]) (by simp [TKERR, TKEOL, TKEOF])
    · refine (ht.strchr htnl).bind ?_
      rintro ⟨val, u⟩ ⟨hu, hmore, hle⟩
      dsimp only at hu hmore hle
      refine (hu.next_more hmore).bind fun v hv => ?_
      obtain ⟨hv, hlt'⟩ := hv
      split_ifs with hvq
      · obtain ⟨hclean, hmore, hun⟩ := hv.unscanc
        have hlt' : v.unscanc.left < s₀.left := by omega
        exact .of_more hclean hmore hlt' hk (by simp [TKERR, TKSTR]) (by simp [TKERR, TKEOL, TKEOF])
      · have hvnl : v.ch ≠ 0x0A := by
          rw [not_not.mp hvq]
          decide
        have hlt'' : v.left < s₀.left := by omega
        exact .of_more hv.clean (hv.more_of_ne hvnl) hlt'' hk (by simp [TKCON, TKSTR])
          (by simp [TKCON, TKEOL, TKEOF])
  · -- a string
    have hnl : s.ch ≠ 0x0A := hdouble ▸ by decide
    refine (hs.next hnl).bind fun t ht => ?_
    obtain ⟨ht, hlt⟩ := ht
    refine (ht.string (hlt.trans hn)).bind ?_
    rintro ⟨str, u⟩ ⟨hu, hle, hlen, hch⟩
    dsimp only at hu hle hlen hch ⊢
    split_ifs with hunl
    · obtain ⟨hclean, hmore, hun⟩ := hu.unscanc
      have hlt' : u.unscanc.left < s₀.left := by omega
      have hw : str.length ≤ STRSIZ + 1 := by omega
      exact .of_more hclean hmore hlt' hw (by simp [TKERR, TKSTR]) (by simp [TKERR, TKEOL, TKEOF])
    · have hlt' : u.left < s₀.left := by omega
      have hw : str.length + 1 ≤ STRSIZ + 1 := by omega
      exact .of_more hu.clean (hu.more_of_ne hunl) hlt' hw (fun _ => hlen) (by simp [TKSTR, TKEOL, TKEOF])
  · exact hs.operator hs₀ (hlt ▸ by decide) hk (by decide) rfl
  · exact hs.operator hs₀ (hgt ▸ by decide) hk (by decide) rfl
  · exact hs.operator hs₀ (hnot ▸ by decide) hk (by simp [TKERR, TKRELOP, TKEOL, TKEOF, TKSTR]) rfl
  · -- a single character
    have htab : ∀ c : Byte, ((chtab.lookup c).getD (TKERR, 0)).1 ≠ TKSTR ∧
        (((chtab.lookup c).getD (TKERR, 0)).1 = TKEOL ↔ c = 0x0A) ∧
        (((chtab.lookup c).getD (TKERR, 0)).1 = TKEOF ↔ c = EOFCHR) := by decide +kernel
    obtain ⟨hstr, heol, heof⟩ := htab s.ch
    refine ⟨hs.clean, hk, fun htyp => absurd htyp hstr, .inr ⟨hs₀, hs.ended, ?_⟩⟩
    by_cases hnl : s.ch = 0x0A
    · exact .inl ⟨heol.mpr hnl, hnl, hs.seen⟩
    · exact .inr ⟨fun htyp => hnl (heol.mp htyp), fun htyp => hs.ne_mark (heof.mp htyp), hs.more_of_ne hnl⟩

/-- The mark is a token. -/
theorem token1_mark {s : Scan} (hs : s.ch = EOFCHR) (k : Tok) :
    token1 h n k s = ok ({ k with tokval := 0, toktyp := TKEOF }, s) := by
  have hsym : symstart EOFCHR = false := by decide
  have hdig : digit EOFCHR = false := by decide
  have htab : chtab.lookup EOFCHR = some (TKEOF, 0) := by decide
  unfold token1
  simp only [hs, hsym, hdig, htab]
  rfl

/-- **A call of `token` returns: at the end of the input, or with some of the input used up.** -/
theorem token_spec {s : Scan} (hs : s.Clean h a) {k : Tok} (hk : k.written ≤ STRSIZ + 1) (hn : s.left < n) :
    (token h n k s).Ends fun p => ∃ b, Begins h a s b ∧ After h b s p.1 p.2 := by
  unfold token
  have hfirst : (s.next h).Ends fun t => ∃ b, Begins h a s b ∧
      ((t.Ended ∧ t.ch = EOFCHR ∧ t.Clean h b ∧ ¬s.More) ∨ (t.Mid h b ∧ t.left < s.left)) :=
    ends_ofOption.mpr fun t ht => hs.scanc ht
  refine hfirst.bind fun t ht => ?_
  obtain ⟨b, hb, ht⟩ := ht
  suffices hafter : (if white t.ch then do
      let u ← skipWhile h n white t
      if u.ch ≠ 0x3B ∧ u.ch ≠ 0x0A then return ({ k with toktyp := TKSPC }, u.unscanc)
      else token1 h n k u
    else token1 h n k t : Outcome (Tok × Scan)).Ends fun p => After h b s p.1 p.2 from
    hafter.mono fun p hp => ⟨b, hb, hp⟩
  rcases ht with ⟨hend, hmark, hclean, hnot⟩ | ⟨ht, hlt⟩
  · -- the mark is a token
    have hwhite : white t.ch = false := hmark ▸ by decide
    rw [if_neg (by simp [hwhite]), token1_mark hmark]
    exact ⟨hclean, hk, by simp [TKEOF, TKSTR], .inl ⟨rfl, hend, hnot⟩⟩
  · split_ifs with hw
    · refine (ht.skipWhile (by decide) (hlt.trans hn)).bind fun u hu => ?_
      obtain ⟨hu, -, hle, hlt'⟩ := hu
      split_ifs with hc
      · obtain ⟨hclean, hmore, hun⟩ := hu.unscanc
        have hltu := hlt' hw
        have hltun : u.unscanc.left < s.left := by omega
        exact .of_more hclean hmore hltun hk (by simp [TKSPC, TKSTR]) (by simp [TKSPC, TKEOL, TKEOF])
      · exact hu.token1 (lt_of_le_of_lt hle hlt) hk (by omega)
    · exact ht.token1 hlt hk (hlt.trans hn)

end Scan

end Cpm8000.Asm.Source
