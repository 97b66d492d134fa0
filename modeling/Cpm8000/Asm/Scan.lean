/-
# The scanner of the assembler

`scanc` takes the next character: of `sline` up to its NUL, and then of the next line that `getline`
delivers.  A line that ends with the escape character is continued by the next one.  At the end of the
input `getline` puts a mark in the line, again and again.

* `scanc_good`: a call of `scanc` takes some of what is left, or finds the mark.
* `More.scanc`: in a line that is not continued it takes the line's next character.
-/
import Cpm8000.Asm.Input
import Cpm8000.Sys.Loop

namespace Cpm8000.Asm.Source

open Sys Sys.Outcome

/-! ## 1. The code -/

def escchr : Byte := 0x5C
def argchr : Byte := 0x3F
def mctchr : Byte := 0x23
def lbrchr : Byte := 0x7B
def rbrchr : Byte := 0x7D

/-- The mark at the end of the input, `-1` as a character. -/
def EOFCHR : Byte := 0xFF

/-- The scanner's part of the global data; `sline` is without its NUL. -/
structure Scan where
  sline : List Byte
  scanpt : ℕ
  ch : Byte
  input : Input

namespace Scan

variable (h : Host)

/-- The character at `scanpt`; the line ends with a NUL. -/
def peek (s : Scan) : Byte := s.sline.getD s.scanpt 0

/-- `ch = *scanpt++`. -/
def adv (s : Scan) : Scan := { s with ch := s.peek, scanpt := s.scanpt + 1 }

/-- `ch = *--scanpt`. -/
def unscanc (s : Scan) : Scan := { s with ch := s.sline.getD (s.scanpt - 1) 0, scanpt := s.scanpt - 1 }

/-- Read the next line of source into `sline`; the mark at the end of the input. -/
def getline (s : Scan) : Option Scan := do
  let (l, t) ← s.input.getline h
  return { s with sline := (l.map (· ++ [0x0A])).getD [EOFCHR], scanpt := 0, input := t }

end Scan

/-! ## 2. What a line takes -/

theorem Input.weight_nil {t : Input} (ht : t.infp = []) : t.weight = 0 := by
  rw [Input.weight, ht]
  rfl

theorem Input.count_weight (t : Input) : t.count.weight = t.weight := by
  unfold Input.count
  split
  · rfl
  · next f fs hf => simp only [Input.weight, hf, List.map_cons, Frame.weight]

/-- A line takes its characters and its newline of what is left. -/
theorem Input.collect_weight {h : Host} (sline : List Byte) (s : Input) {o : Option (List Byte)} {t : Input}
    (ho : s.collect h sline = some (o, t)) :
    match o with
    | none => t.infp = []
    | some l => t.weight + l.length + 1 ≤ s.weight + sline.length := by
  induction sline, s using Input.collect.induct h with
  | case1 sline s hs =>
    rw [Input.collect_nil sline hs] at ho
    obtain ⟨rfl, rfl⟩ := Prod.mk.inj (Option.some.inj ho)
    exact hs
  | case2 sline s f fs hs hp =>
    rw [Input.collect_cons sline hs, hp] at ho
    cases ho
  | case3 sline s f fs hs u hp ih =>
    have hlt := Input.poll_weight hs hp
    rw [Input.collect_cons sline hs, hp] at ho
    have hu := ih ho
    cases o with
    | none => exact hu
    | some l =>
      dsimp only at hu ⊢
      omega
  | case4 sline s f fs hs u hp =>
    have hlt := Input.poll_weight hs hp
    rw [Input.collect_cons sline hs, hp] at ho
    obtain ⟨rfl, rfl⟩ := Prod.mk.inj (Option.some.inj ho)
    rw [Input.count_weight]
    omega
  | case5 sline s f fs hs u hp hne ih =>
    have hlt := Input.poll_weight hs hp
    rw [Input.collect_cons sline hs, hp] at ho
    have hu := ih ho
    cases o with
    | none => exact hu
    | some l =>
      dsimp only at hu ⊢
      omega
  | case6 sline s f fs hs ch u hp hnl hff ih =>
    have hlt := Input.poll_weight hs hp
    rw [Input.collect_cons sline hs, hp] at ho
    dsimp only at ho
    rw [if_neg hnl, if_neg hff] at ho
    have hu := ih ho
    cases o with
    | none => exact hu
    | some l =>
      dsimp only at hu ⊢
      split_ifs at hu with hlen
      · rw [List.length_append, List.length_singleton] at hu
        omega
      · omega

/-- What a line holds: no newline, characters of seven bits, as many as there is room for. -/
structure Fine (l : List Byte) : Prop where
  length : l.length ≤ SLINSIZ
  newline : 0x0A ∉ l
  seven : EOFCHR ∉ l

theorem Fine.put {sline : List Byte} (hl : Fine sline) {c : Byte} (hnl : c ≠ 0x0A) (hmark : c ≠ EOFCHR) :
    Fine (if sline.length < SLINSIZ then sline ++ [c] else sline) := by
  split_ifs with hlen
  · refine ⟨by simpa using hlen, ?_, ?_⟩
    · intro hm
      exact (List.mem_append.mp hm).elim hl.newline fun hc => hnl (List.mem_singleton.mp hc).symm
    · intro hm
      exact (List.mem_append.mp hm).elim hl.seven fun hc => hmark (List.mem_singleton.mp hc).symm
  · exact hl

theorem Input.poll_ne_mark {h : Host} {s t : Input} {f : Frame} {fs : List Frame} {c : Byte}
    (hp : s.poll h f fs = some (some c, t)) : c ≠ EOFCHR := by
  have hseven : ∀ c : Byte, c &&& 0x7f ≠ EOFCHR := by decide
  unfold Input.poll at hp
  split at hp
  · cases hp
  · next ch chars hc =>
    dsimp only at hp
    split at hp
    · split_ifs at hp with h80
      · obtain ⟨u, -, hut⟩ := Option.map_eq_some_iff.mp hp
        cases (Prod.mk.inj hut).1
      · obtain ⟨hc, -⟩ := Prod.mk.inj (Option.some.inj hp)
        exact Option.some.inj hc ▸ hseven ch
    · obtain ⟨hc, -⟩ := Prod.mk.inj (Option.some.inj hp)
      exact Option.some.inj hc ▸ hseven ch

theorem Input.collect_fine {h : Host} (sline : List Byte) (s : Input) {l : List Byte} {t : Input}
    (ho : s.collect h sline = some (some l, t)) (hl : Fine sline) : Fine l := by
  induction sline, s using Input.collect.induct h with
  | case1 sline s hs =>
    rw [Input.collect_nil sline hs] at ho
    cases ho
  | case2 sline s f fs hs hp =>
    rw [Input.collect_cons sline hs, hp] at ho
    cases ho
  | case3 sline s f fs hs u hp ih =>
    rw [Input.collect_cons sline hs, hp] at ho
    exact ih ho hl
  | case4 sline s f fs hs u hp =>
    rw [Input.collect_cons sline hs, hp] at ho
    obtain ⟨hl', -⟩ := Prod.mk.inj (Option.some.inj ho)
    exact Option.some.inj hl' ▸ hl
  | case5 sline s f fs hs u hp hne ih =>
    rw [Input.collect_cons sline hs, hp] at ho
    exact ih ho hl
  | case6 sline s f fs hs ch u hp hnl hff ih =>
    rw [Input.collect_cons sline hs, hp] at ho
    dsimp only at ho
    rw [if_neg hnl, if_neg hff] at ho
    exact ih ho (hl.put hnl (Input.poll_ne_mark hp))

namespace Scan

variable {h : Host}

/-- At the end of the input. -/
def Ended (s : Scan) : Prop := s.sline = [EOFCHR] ∧ s.input.infp = []

/-- What is left to be scanned, at most. -/
def left (s : Scan) : ℕ :=
  if s.sline = [EOFCHR] then s.input.weight else s.sline.length - s.scanpt + s.input.weight

theorem Ended.left {s : Scan} (hs : s.Ended) : s.left = 0 := by
  rw [Scan.left, if_pos hs.1, Input.weight_nil hs.2]

theorem left_line {s : Scan} (hs : s.sline ≠ [EOFCHR]) : s.left = s.sline.length - s.scanpt + s.input.weight :=
  if_neg hs

theorem weight_le_left (s : Scan) : s.input.weight ≤ s.left := by
  unfold left
  split_ifs
  · exact le_refl _
  · exact Nat.le_add_left _ _

theorem line_ne_mark (l : List Byte) : l ++ [0x0A] ≠ [EOFCHR] := by
  intro heq
  have hlast := congrArg List.getLast? heq
  rw [List.getLast?_concat] at hlast
  exact absurd hlast (by decide)

/-- **Reading a line uses up what it takes; the mark comes at the end of the input.** -/
theorem getline_spec {s t : Scan} (ht : s.getline h = some t) :
    t.scanpt = 0 ∧ (t.Ended ∨ (∃ l, Fine l ∧ t.sline = l ++ [0x0A] ∧ s.input.getline h = some (some l, t.input)) ∧
      t.sline.length + t.input.weight ≤ s.input.weight) := by
  simp only [Scan.getline, Option.bind_eq_bind, Option.bind_eq_some_iff, Option.pure_def,
    Option.some.injEq] at ht
  obtain ⟨⟨o, u⟩, ho, rfl⟩ := ht
  have hw := Input.collect_weight [] s.input ho
  cases o with
  | none => exact ⟨rfl, .inl ⟨rfl, hw⟩⟩
  | some l =>
    have hl : Fine l := Input.collect_fine [] s.input ho ⟨Nat.zero_le _, by simp, by simp⟩
    refine ⟨rfl, .inr ⟨⟨l, hl, rfl, ho⟩, ?_⟩⟩
    simp only [List.length_nil] at hw
    simp only [Option.map_some, Option.getD_some, List.length_append, List.length_singleton]
    omega

/-- `sline` is a line or the mark, or nothing was read yet. -/
inductive Placed (s : Scan) : Prop
  | mark : s.Ended → Placed s
  | none : s.sline = [] → Placed s
  | line (l : List Byte) : Fine l → s.sline = l ++ [0x0A] → Placed s

/-- Some of the line is left. -/
def More (s : Scan) : Prop := (∃ l, Fine l ∧ s.sline = l ++ [0x0A]) ∧ s.scanpt < s.sline.length

theorem More.not_ended {s : Scan} (hs : s.More) : ¬s.Ended := by
  rintro ⟨hmark, -⟩
  obtain ⟨⟨l, -, hl⟩, -⟩ := hs
  exact line_ne_mark l (hl.symm.trans hmark)

/-- The newline of a line is reached: no NUL hides it, and the line is not continued. -/
def Proper (sline : List Byte) : Prop := (0 : Byte) ∉ sline ∧ ¬[escchr, 0x0A] <:+ sline

instance (sline : List Byte) : Decidable (Proper sline) :=
  inferInstanceAs (Decidable (_ ∧ _))

end Scan

/-- The newline of the last line is reached: of the last line there is to come, or else of the line at
hand. -/
inductive Closes (h : Host) : Prop → Input → Prop
  | exit {p : Prop} {s : Input} : s.getline h = none → Closes h p s
  | done {p : Prop} {s t : Input} : p → s.getline h = some (none, t) → Closes h p s
  | line {p : Prop} {s t : Input} {l : List Byte} : s.getline h = some (some l, t) →
      Closes h (Scan.Proper (l ++ [0x0A])) t → Closes h p s

namespace Scan

/-- The newline of the last line from here on is reached. -/
def Closed (h : Host) (s : Scan) : Prop := Closes h (Proper s.sline) s.input

variable {h : Host}

theorem getElem_of_peek {s : Scan} (hs : s.peek ≠ 0) : s.sline[s.scanpt]? = some s.peek := by
  rw [peek, List.getD_eq_getElem?_getD] at hs ⊢
  cases hc : s.sline[s.scanpt]? with
  | none =>
    rw [hc] at hs
    exact absurd rfl hs
  | some c => rfl

theorem peek_lt {s : Scan} (hs : s.peek ≠ 0) : s.scanpt < s.sline.length :=
  (List.getElem?_eq_some_iff.mp (getElem_of_peek hs)).1

theorem adv_left {s : Scan} (hs : s.peek ≠ 0) (hmark : s.sline ≠ [EOFCHR]) : s.adv.left + 1 = s.left := by
  have hlt := peek_lt hs
  have hadv : s.adv.left = s.sline.length - (s.scanpt + 1) + s.input.weight := left_line hmark
  rw [hadv, left_line hmark]
  omega

theorem Ended.adv {s : Scan} (hs : s.Ended) : s.adv.Ended := hs

/-- The end of a line that is continued, passed. -/
def skip (s : Scan) : Scan := { s with scanpt := s.scanpt + 1 }

theorem skip_adv_left {s : Scan} (hs : s.peek = 0x0A) : s.skip.adv.left < s.left := by
  have hlt := peek_lt (s := s) (by rw [hs]; decide)
  have hmark : s.sline ≠ [EOFCHR] := by
    intro hmark
    have hget := getElem_of_peek (s := s) (by rw [hs]; decide)
    rw [hs, hmark] at hget
    cases hp : s.scanpt <;> rw [hp] at hget <;> simp [EOFCHR] at hget
  have hskip : s.skip.adv.left = s.sline.length - (s.scanpt + 2) + s.input.weight := left_line hmark
  rw [hskip, left_line hmark]
  omega

/-- What `xscanc` does uses up what is left; a NUL takes one step more. -/
def turns (s : Scan) : ℕ := 2 * s.left + if s.ch = 0 then 1 else 0

theorem getline_turns {s t : Scan} (ht : s.getline h = some t) (hs : s.ch = 0) : t.adv.turns < s.turns := by
  obtain ⟨hpt, hend | ⟨⟨l, hl, hline, -⟩, hw⟩⟩ := getline_spec ht
  · have hleft : t.adv.left = 0 := hend.adv.left
    have hch : t.adv.ch ≠ 0 := by
      simp only [adv, peek, hend.1, hpt]
      decide
    simp only [turns, hleft, if_neg hch, if_pos hs]
    omega
  · have hmark : t.sline ≠ [EOFCHR] := hline ▸ line_ne_mark l
    have hlen : t.sline.length = l.length + 1 := by rw [hline, List.length_append, List.length_singleton]
    have hadv : t.adv.left = t.sline.length - (t.scanpt + 1) + t.input.weight := left_line hmark
    have hle := weight_le_left s
    rw [hpt] at hadv
    simp only [turns, if_pos hs]
    split_ifs <;> omega

theorem skip_turns {s : Scan} (hs : s.peek = 0x0A) (hch : s.ch ≠ 0) : s.skip.adv.turns < s.turns := by
  have hlt := skip_adv_left hs
  simp only [turns, if_neg hch]
  split_ifs <;> omega

/-- The cases of character scanning that are difficult: the end of a line and continuation. -/
def xscanc (h : Host) (s : Scan) : Option Scan :=
  if _hch : s.ch = 0 then
    match _ht : s.getline h with
    | none => none
    | some t => t.adv.xscanc h
  else if _hc : s.ch = escchr ∧ s.peek = 0x0A then s.skip.adv.xscanc h
  else some s
termination_by s.turns
decreasing_by
  · exact getline_turns _ht _hch
  · exact skip_turns _hc.2 _hch

/-- Scan the next character. -/
def scanc (h : Host) (s : Scan) : Option Scan :=
  if s.adv.ch ≠ 0 ∧ s.adv.ch ≠ escchr then some s.adv else s.adv.xscanc h

theorem scanc_eq (s : Scan) : s.scanc h = s.adv.xscanc h := by
  unfold scanc
  split_ifs with hc
  · rw [xscanc, dif_neg hc.1, dif_neg (fun hesc => hc.2 hesc.1)]
  · rfl

/-- The character at hand is the one before `scanpt`, and it is what it seems to be. -/
structure Seen (t : Scan) : Prop where
  pos : 0 < t.scanpt
  at_ : t.sline[t.scanpt - 1]? = some t.ch
  nonzero : t.ch ≠ 0
  plain : ¬(t.ch = escchr ∧ t.peek = 0x0A)

/-- A state the scanner can be in, where the newline of the last line is still to be reached. -/
structure Good (h : Host) (s : Scan) : Prop where
  placed : s.Placed
  closed : s.Closed h

theorem Ended.closed {s : Scan} (hs : s.Ended) : s.Closed h := by
  refine Closes.done ?_ (Input.collect_nil [] hs.2)
  rw [hs.1]
  decide

/-- A line is read: there is one to come if the newline of the line at hand is out of reach. -/
theorem Good.getline {s t : Scan} (hgood : s.Good h) (ht : s.getline h = some t) :
    t.Good h ∧ (t.Ended ∧ Proper s.sline ∨ ¬t.Ended ∧ ∃ l, Fine l ∧ t.sline = l ++ [0x0A]) := by
  have hs := hgood.closed
  obtain ⟨-, hend | ⟨⟨l, hl, hline, hget⟩, -⟩⟩ := getline_spec ht
  · refine ⟨⟨.mark hend, hend.closed⟩, .inl ⟨hend, ?_⟩⟩
    simp only [Scan.getline, Option.bind_eq_bind, Option.bind_eq_some_iff, Option.pure_def,
      Option.some.injEq] at ht
    obtain ⟨⟨o, u⟩, ho, rfl⟩ := ht
    cases hs with
    | exit hn => rw [hn] at ho; cases ho
    | done hp _ => exact hp
    | line hn _ =>
      rw [hn] at ho
      obtain ⟨rfl, -⟩ := Prod.mk.inj (Option.some.inj ho)
      exact absurd hend.1 (line_ne_mark _)
  · refine ⟨⟨.line l hl hline, ?_⟩, .inr ⟨fun hend => line_ne_mark l (hline ▸ hend.1), l, hl, hline⟩⟩
    unfold Closed at hs ⊢
    rw [hline]
    cases hs with
    | exit hn => rw [hn] at hget; cases hget
    | done _ hn => rw [hn] at hget; cases hget
    | line hn hc =>
      rw [hn] at hget
      obtain ⟨hl', rfl⟩ := Prod.mk.inj (Option.some.inj hget)
      rwa [Option.some.inj hl'] at hc

theorem not_proper_of_nul {s : Scan} (hs : s.peek = 0) (hm : s.More) : ¬Proper s.sline := by
  obtain ⟨-, hlt⟩ := hm
  rw [peek, List.getD_eq_getElem?_getD, List.getElem?_eq_getElem hlt] at hs
  exact fun hp => hp.1 (hs ▸ List.getElem_mem hlt)

/-- A line that ends with the escape character is continued. -/
theorem not_proper_of_escape {s : Scan} {l : List Byte} (hl : Fine l) (hline : s.sline = l ++ [0x0A])
    (hpt : 0 < s.scanpt) (hat : s.sline[s.scanpt - 1]? = some escchr) (hpeek : s.peek = 0x0A) :
    ¬Proper s.sline ∧ s.skip.adv.ch = 0 := by
  have hget := getElem_of_peek (s := s) (by rw [hpeek]; decide)
  rw [hpeek, hline] at hget
  have hend : s.scanpt = l.length := by
    rcases lt_trichotomy s.scanpt l.length with hlt | heq | hgt
    · rw [List.getElem?_append_left hlt] at hget
      exact absurd (List.mem_of_getElem? hget) hl.newline
    · exact heq
    · rw [List.getElem?_eq_none (by rw [List.length_append, List.length_singleton]; omega)] at hget
      cases hget
  constructor
  · rw [hline, List.getElem?_append_left (by omega)] at hat
    refine fun hp => hp.2 ?_
    have hne : l ≠ [] := by
      rintro rfl
      simp at hat
    have hlast : l.getLast hne = escchr := by
      rw [List.getLast_eq_getElem]
      have hi := List.getElem?_eq_some_iff.mp hat
      obtain ⟨hlt, heq⟩ := hi
      rw [← heq]
      congr 1
      omega
    rw [hline, ← List.dropLast_append_getLast hne, hlast, List.append_assoc]
    exact List.suffix_append _ _
  · have hlen : s.sline.length = l.length + 1 := by rw [hline, List.length_append, List.length_singleton]
    simp only [adv, skip, peek]
    rw [List.getD_eq_getElem?_getD, List.getElem?_eq_none (by omega)]
    rfl

/-- The character at hand is a NUL, or the one before `scanpt`. -/
def Read (s : Scan) : Prop := s.ch ≠ 0 → 0 < s.scanpt ∧ s.sline[s.scanpt - 1]? = some s.ch

theorem read_adv (s : Scan) : s.adv.Read := fun hs => ⟨Nat.succ_pos _, getElem_of_peek hs⟩

theorem adv_left_le (s : Scan) : s.adv.left ≤ s.left := by
  by_cases hmark : s.sline = [EOFCHR]
  · have hadv : s.adv.left = s.input.weight := if_pos hmark
    exact hadv ▸ weight_le_left s
  · have hadv : s.adv.left = s.sline.length - (s.scanpt + 1) + s.input.weight := left_line hmark
    rw [hadv, left_line hmark]
    omega

theorem getline_adv_left {s t : Scan} (ht : s.getline h = some t) (hend : ¬t.Ended) :
    t.adv.left < s.input.weight := by
  obtain ⟨hpt, hend' | ⟨⟨l, hl, hline, -⟩, hw⟩⟩ := getline_spec ht
  · exact absurd hend' hend
  · have hmark : t.sline ≠ [EOFCHR] := hline ▸ line_ne_mark l
    have hadv : t.adv.left = t.sline.length - (t.scanpt + 1) + t.input.weight := left_line hmark
    have hlen : t.sline.length = l.length + 1 := by rw [hline, List.length_append, List.length_singleton]
    omega

theorem Ended.read_ch {s : Scan} (hs : s.Ended) (hr : s.Read) (hch : s.ch ≠ 0) : s.ch = EOFCHR := by
  obtain ⟨-, hat⟩ := hr hch
  rw [hs.1] at hat
  exact List.mem_singleton.mp (List.mem_of_getElem? hat)

/-- After a character of a line there is more of the line, until the newline. -/
theorem Placed.more {s : Scan} (hs : s.Placed) (hr : s.Read) (hch : s.ch ≠ 0) (hend : ¬s.Ended) :
    s.ch = 0x0A ∨ s.More := by
  obtain ⟨hpt, hat⟩ := hr hch
  cases hs with
  | mark hend' => exact absurd hend' hend
  | none hnil =>
    rw [hnil] at hat
    cases hat
  | line l hl hline =>
    have hlen : s.sline.length = l.length + 1 := by rw [hline, List.length_append, List.length_singleton]
    obtain ⟨hlt, hget⟩ := List.getElem?_eq_some_iff.mp hat
    by_cases heq : s.scanpt - 1 = l.length
    · rw [hline, heq, List.getElem?_concat_length] at hat
      exact .inl (Option.some.inj hat).symm
    · exact .inr ⟨⟨l, hl, hline⟩, by omega⟩

/-- What `xscanc` and `scanc` come to: the end of the input, or a character of a line. -/
structure Comes (h : Host) (t : Scan) : Prop where
  good : t.Good h
  seen : t.Seen
  mark : t.Ended → t.ch = EOFCHR
  more : ¬t.Ended → t.ch = 0x0A ∨ t.More

theorem Placed.ended {s : Scan} (hs : s.Placed) (hmark : s.sline = [EOFCHR]) : s.Ended := by
  cases hs with
  | mark hend => exact hend
  | none hnil =>
    rw [hnil] at hmark
    cases hmark
  | line l hl hline => exact absurd (hline.symm.trans hmark) (line_ne_mark l)

theorem Placed.adv {s : Scan} (hs : s.Placed) : s.adv.Placed := by
  cases hs with
  | mark hend => exact .mark hend
  | none hnil => exact .none hnil
  | line l hl hline => exact .line l hl hline

theorem Placed.skip_adv {s : Scan} (hs : s.Placed) : s.skip.adv.Placed := by
  cases hs with
  | mark hend => exact .mark hend
  | none hnil => exact .none hnil
  | line l hl hline => exact .line l hl hline

theorem Ended.adv_ch {s : Scan} (hs : s.Ended) (hpt : s.scanpt = 0) : s.adv.ch = EOFCHR := by
  rw [Scan.adv, Scan.peek, hs.1, hpt]
  rfl

theorem xscanc_plain {s : Scan} (hz : s.ch ≠ 0) (hc : ¬(s.ch = escchr ∧ s.peek = 0x0A)) :
    s.xscanc h = some s := by
  rw [xscanc, dif_neg hz, dif_neg hc]

theorem xscanc_mark {s : Scan} (hs : s.ch = EOFCHR) : s.xscanc h = some s := by
  refine xscanc_plain ?_ fun hc => ?_
  · rw [hs]
    decide
  · rw [hs] at hc
    exact absurd hc.1 (by decide)

theorem xscanc_nul {s t : Scan} (hs : s.ch = 0) (ht : s.getline h = some t) : s.xscanc h = t.adv.xscanc h := by
  rw [xscanc, dif_pos hs]
  split
  · next hn => rw [ht] at hn; cases hn
  · next u hu =>
    rw [ht] at hu
    rw [Option.some.inj hu]

theorem xscanc_good (s : Scan) {t : Scan} (hs : s.Good h) (hr : s.Read) (ht : s.xscanc h = some t) :
    t.Comes h ∧ (t.Ended → s.Ended ∨ s.ch = 0 ∧ Proper s.sline) ∧
      (¬t.Ended → t.left ≤ s.left ∧ (s.ch = 0 → t.left < s.left)) := by
  induction s using xscanc.induct h with
  | case1 s hch hn =>
    rw [xscanc, dif_pos hch] at ht
    split at ht
    · cases ht
    · next u hu => rw [hn] at hu; cases hu
  | case2 s hch u hu ih =>
    rw [xscanc_nul hch hu] at ht
    obtain ⟨hgood, hcase⟩ := hs.getline hu
    have hgood' : u.adv.Good h := by
      refine ⟨?_, hgood.closed⟩
      rcases hcase with ⟨hend, -⟩ | ⟨-, l, hl, hline⟩
      · exact .mark hend
      · exact .line l hl hline
    obtain ⟨hcomes, hended, hleft⟩ := ih hgood' (read_adv u) ht
    refine ⟨hcomes, fun hend => .inr ⟨hch, ?_⟩, fun hend => ?_⟩
    · rcases hcase with ⟨-, hp⟩ | ⟨hne, l, hl, hline⟩
      · exact hp
      · -- a line without a character to deliver does not end the input
        rcases hended hend with hend' | ⟨hz, hp⟩
        · exact absurd hend' hne
        · refine absurd hp (not_proper_of_nul (s := u) hz ⟨⟨l, hl, hline⟩, ?_⟩)
          rw [(getline_spec hu).1, hline, List.length_append, List.length_singleton]
          omega
    · have hw := weight_le_left s
      rcases hcase with ⟨hend', -⟩ | ⟨hne, -⟩
      · rw [xscanc_mark (hend'.adv_ch (getline_spec hu).1)] at ht
        obtain rfl := Option.some.inj ht
        exact absurd hend' hend
      · have hlt := getline_adv_left hu hne
        have hle := (hleft hend).1
        exact ⟨by omega, fun _ => by omega⟩
  | case3 s hch hc ih =>
    rw [xscanc, dif_neg hch, dif_pos hc] at ht
    have hlt := skip_adv_left hc.2
    obtain ⟨hpt, hat⟩ := hr hch
    rw [hc.1] at hat
    have hesc : ¬Proper s.sline ∧ s.skip.adv.ch = 0 := by
      cases hs.placed with
      | mark hend =>
        have hmark := hend.read_ch hr hch
        rw [hc.1] at hmark
        exact absurd hmark (by decide)
      | none hnil =>
        rw [hnil] at hat
        cases hat
      | line l hl hline => exact not_proper_of_escape hl hline hpt hat hc.2
    obtain ⟨hcomes, hended, hleft⟩ := ih ⟨hs.placed.skip_adv, hs.closed⟩ (read_adv s.skip) ht
    refine ⟨hcomes, fun hend => .inl ?_, fun hend => ?_⟩
    · exact (hended hend).resolve_right fun hp => hesc.1 hp.2
    · have hle := (hleft hend).1
      exact ⟨by omega, fun hz => absurd hz hch⟩
  | case4 s hch hc =>
    rw [xscanc_plain hch hc] at ht
    obtain rfl := Option.some.inj ht
    obtain ⟨hpt, hat⟩ := hr hch
    exact ⟨⟨hs, ⟨hpt, hat, hch, hc⟩, fun hend => hend.read_ch hr hch, hs.placed.more hr hch⟩,
      fun hend => .inl hend, fun _ => ⟨le_refl _, fun hz => absurd hz hch⟩⟩

/-- **A character is scanned: some of what is left is used up, or the input ends, but never in the middle of
a line.** -/
theorem scanc_good {s t : Scan} (hs : s.Good h) (ht : s.scanc h = some t) :
    t.Comes h ∧ (t.Ended → ¬s.More) ∧ (¬t.Ended → t.left < s.left) := by
  rw [scanc_eq] at ht
  obtain ⟨hcomes, hended, hleft⟩ := xscanc_good s.adv ⟨hs.placed.adv, hs.closed⟩ (read_adv s) ht
  refine ⟨hcomes, fun hend hm => ?_, fun hend => ?_⟩
  · rcases hended hend with hend' | ⟨hz, hp⟩
    · exact hm.not_ended hend'
    · exact not_proper_of_nul hz hm hp
  · obtain ⟨hle, hlt⟩ := hleft hend
    by_cases hz : s.peek = 0
    · have hadv := adv_left_le s
      have hlt' := hlt hz
      omega
    · have hmark : s.sline ≠ [EOFCHR] := by
        intro hmark
        have hend' : s.Ended := hs.placed.ended hmark
        rw [xscanc_mark (Ended.read_ch (s := s.adv) hend' (read_adv s) hz)] at ht
        obtain rfl := Option.some.inj ht
        exact hend hend'
      have hadv := adv_left hz hmark
      omega

/-- In a line that is not continued the next character is the one at `scanpt`. -/
theorem More.seen {s : Scan} (hm : s.More) (hp : Proper s.sline) : s.adv.Seen := by
  obtain ⟨⟨l, hl, hline⟩, -⟩ := id hm
  have hz : s.adv.ch ≠ 0 := fun hz => not_proper_of_nul hz hm hp
  obtain ⟨hpos, hat⟩ := read_adv s hz
  refine ⟨hpos, hat, hz, ?_⟩
  rintro ⟨hc, hpeek⟩
  rw [hc] at hat
  exact (not_proper_of_escape hl (s := s.adv) hline hpos hat hpeek).1 hp

theorem More.scanc {s : Scan} (hm : s.More) (hp : Proper s.sline) : s.scanc h = some s.adv := by
  have hseen := hm.seen hp
  rw [scanc_eq, xscanc_plain hseen.nonzero hseen.plain]

/-- The line at hand is still the one of `a`, unless that is continued, and so is what comes after it. -/
def On (s a : Scan) : Prop := Proper a.sline → s.sline = a.sline ∧ s.input = a.input

theorem On.refl (s : Scan) : s.On s := fun _ => ⟨rfl, rfl⟩

theorem On.scanc {a s t : Scan} (hs : s.On a) (hm : s.More) (ht : s.scanc h = some t) : t.On a := by
  intro hp
  obtain ⟨hline, hinput⟩ := hs hp
  rw [hm.scanc (hline ▸ hp)] at ht
  rw [← Option.some.inj ht]
  exact ⟨hline, hinput⟩

/-- What comes next from a state, and the state then. -/
inductive Yields (h : Host) : Scan → List Byte → Scan → Prop
  | nil (s : Scan) : Yields h s [] s
  | cons {s t u : Scan} {cs : List Byte} : s.scanc h = some t → Yields h t cs u → Yields h s (t.ch :: cs) u

theorem Ended.scanc {s : Scan} (hs : s.Ended) (h : Host) : ∃ t, s.scanc h = some t ∧ t.Ended ∧ t.ch = EOFCHR := by
  rw [scanc_eq]
  by_cases hz : s.adv.ch = 0
  · have hu : s.adv.getline h = some ⟨[EOFCHR], 0, s.adv.ch, s.adv.input⟩ := by
      have hget : s.adv.input.getline h = some (none, s.adv.input) := Input.collect_nil [] hs.2
      rw [Scan.getline, hget]
      rfl
    rw [xscanc_nul hz hu, xscanc_mark rfl]
    exact ⟨_, rfl, ⟨rfl, hs.2⟩, rfl⟩
  · have hmark : s.adv.ch = EOFCHR := Ended.read_ch (s := s.adv) hs (read_adv s) hz
    exact ⟨_, xscanc_mark hmark, hs, hmark⟩

end Scan

end Cpm8000.Asm.Source
