/-
# The input stack of the assembler

Source comes from a stack of frames: files, macro expansions with their arguments, and repetitions.  A
frame is a place in its text; `fillin` goes on when the place is its end.  `getline` takes characters from
whatever frame is on top until it has a newline.  The frames lie one after the other in `instk`, and the
assembler ends when there is no room for one more.

* `poll_weight`: every step towards a line uses up some of the input.
* `lines_delivered_iff`: the files that are included are read line by line just when each ends with a
  newline and no more of them are open than there is room for.
-/
import Cpm8000.Sys.Bytes

namespace Cpm8000.Asm.Source

open Sys

/-! ## 1. The code -/

def BLKLOG : ℕ := 9

/-- Maximum source line length. -/
def SLINSIZ : ℕ := 128

/-- What depends on the machine the assembler runs on, in bytes: where `in_buf` is in a frame, right after
an unsigned integer, and the sizes of a pointer and of `instk`. -/
structure Host where
  in_buf : ℕ
  ptr : ℕ
  instk : ℕ
  even : in_buf % 2 = 0

/-- The types of frames, with what is special to them: the file behind the buffer, the argument strings,
the count and the body of a repetition. -/
inductive InType
  | INFILE (file : List Byte)
  | INMAC (args : List (List Byte))
  | INRPT (in_rpt : BitVec 8) (in_buf : List Byte)
  | INARG

/-- A frame; `at_` is its place in `instk`, `chars` are the `in_cnt` characters at `in_ptr`. -/
structure Frame where
  at_ : ℕ
  in_typ : InType
  in_lst : ℕ
  chars : List Byte
  in_seq : ℕ

/-- The frames, the top one first, the end of what is used of `instk`, and the listing level. -/
structure Input where
  infp : List Frame
  insp : ℕ
  curlst : ℕ

def Input.start (curlst : ℕ) : Input := ⟨[], 0, curlst⟩

/-- The input stack pointer is not beyond the end of the input stack area; else the assembler exits. -/
def Input.iovck (h : Host) (s : Input) : Option Input := if s.insp ≤ h.instk then some s else none

/-- Pop the top frame off the input stack. -/
def Input.popin (s : Input) : Input :=
  match s.infp with
  | [] => s
  | f :: fs => ⟨fs, f.at_, f.in_lst⟩

/-- The place of a new frame: integers are aligned. -/
def Input.newfp (s : Input) : ℕ := if s.insp % 2 = 1 then s.insp + 1 else s.insp

/-- Make room for a new frame, its variable part apart. -/
def Input.pushin (h : Host) (s : Input) : Option Input := Input.iovck h { s with insp := s.newfp + h.in_buf }

/-- Make the frame at `newfp` the top frame; its listing level is the one before. -/
def Input.enter (s : Input) (newfp : ℕ) (typ : InType) (chars : List Byte) : Input :=
  { s with infp := ⟨newfp, typ, s.curlst, chars, 0⟩ :: s.infp, curlst := s.curlst - 1 }

/-- The end of a frame. -/
def Input.fillin (s : Input) : Input :=
  match s.infp with
  | [] => s
  | f :: fs =>
    match f.in_typ with
    | .INFILE file =>
      let buf := file.take (2 ^ BLKLOG)
      if buf = [] then s.popin
      else { s with infp := { f with in_typ := .INFILE (file.drop (2 ^ BLKLOG)), chars := buf } :: fs }
    | .INARG => s.popin
    | .INMAC _ => s.popin
    | .INRPT in_rpt in_buf =>
      if in_rpt ≠ 0 then
        { s with infp := { f with in_typ := .INRPT (in_rpt - 1) in_buf, chars := in_buf, in_seq := 0 } :: fs }
      else s.popin

/-- Push a macro argument. -/
def Input.macarg (h : Host) (s : Input) (args : List (List Byte)) (argno : Byte) : Option Input := do
  let t ← s.pushin h
  return t.enter s.newfp .INARG (args.getD (argno &&& 0x7f).toNat [])

/-- Push the contents of a file. -/
def Input.include (h : Host) (s : Input) (file : List Byte) : Option Input := do
  let t ← s.pushin h
  let t ← Input.iovck h { t with insp := t.insp + 2 ^ BLKLOG }
  return t.enter s.newfp (.INFILE file) []

/-- A turn of the loop of `getline`: the end of the top frame, an argument, or a character. -/
def Input.poll (h : Host) (s : Input) (f : Frame) (fs : List Frame) : Option (Option Byte × Input) :=
  match f.chars with
  | [] => some (none, s.fillin)
  | ch :: chars =>
    let t : Input := { s with infp := { f with chars := chars } :: fs }
    match f.in_typ with
    | .INMAC args =>
      if 0x80 ≤ ch then (t.macarg h args ch).map (Prod.mk none) else some (some (ch &&& 0x7f), t)
    | _ => some (some (ch &&& 0x7f), t)

/-- A line more of the top frame. -/
def Input.count (s : Input) : Input :=
  match s.infp with
  | [] => s
  | f :: fs => { s with infp := { f with in_seq := f.in_seq + 1 } :: fs }

/-! ## 2. Every turn uses up input -/

/-- What a character is worth: itself, or the argument it stands for. -/
def charWeight (args : List (List Byte)) (ch : Byte) : ℕ :=
  if 0x80 ≤ ch then (args.getD (ch &&& 0x7f).toNat []).length + 2 else 1

/-- How many turns a frame can still take, at most. -/
def Frame.weight (f : Frame) : ℕ :=
  match f.in_typ with
  | .INFILE file => f.chars.length + 2 * file.length + 1
  | .INMAC args => (f.chars.map (charWeight args)).sum + 1
  | .INRPT in_rpt in_buf => f.chars.length + in_rpt.toNat * (in_buf.length + 1) + 1
  | .INARG => f.chars.length + 1

def Input.weight (s : Input) : ℕ := (s.infp.map Frame.weight).sum

theorem Frame.weight_pos (f : Frame) : 0 < f.weight := by
  unfold Frame.weight
  split <;> omega

theorem Input.weight_cons (f : Frame) (fs : List Frame) (k n : ℕ) :
    Input.weight ⟨f :: fs, k, n⟩ = f.weight + Input.weight ⟨fs, k, n⟩ := by
  simp [Input.weight]

theorem Input.popin_weight {s : Input} {f : Frame} {fs : List Frame} (h : s.infp = f :: fs) :
    s.popin.weight < s.weight := by
  obtain ⟨infp, k, n⟩ := s
  subst h
  have hpos := f.weight_pos
  rw [Input.weight_cons]
  simp only [Input.popin, Input.weight]
  omega

/-- The end of a frame is passed, or its next part is shorter than what is left. -/
theorem Input.fillin_weight {s : Input} {f : Frame} {fs : List Frame} (h : s.infp = f :: fs)
    (hc : f.chars = []) : s.fillin.weight < s.weight := by
  have hpop := s.popin_weight h
  obtain ⟨infp, k, n⟩ := s
  subst h
  obtain ⟨place, typ, lst, chars, seq⟩ := f
  dsimp only at hc
  subst hc
  cases typ with
  | INFILE file =>
    simp only [Input.fillin]
    split_ifs with hb
    · exact hpop
    · have hlen : 0 < (file.take (2 ^ BLKLOG)).length := List.length_pos_iff.mpr hb
      rw [Input.weight_cons, Input.weight_cons]
      simp only [Frame.weight, List.length_nil, List.length_drop]
      rw [List.length_take] at hlen ⊢
      omega
  | INMAC args => exact hpop
  | INARG => exact hpop
  | INRPT in_rpt in_buf =>
    simp only [Input.fillin]
    split_ifs with hr
    · have hr0 : in_rpt.toNat ≠ 0 := fun h0 => hr (BitVec.eq_of_toNat_eq h0)
      have h1 : (in_rpt - 1).toNat + 1 = in_rpt.toNat := by
        have hone : (1 : BitVec 8).toNat = 1 := rfl
        have hlt := in_rpt.isLt
        rw [BitVec.toNat_sub, hone]
        omega
      rw [Input.weight_cons, Input.weight_cons]
      simp only [Frame.weight, List.length_nil]
      rw [← h1, Nat.succ_mul]
      omega
    · exact hpop

theorem Input.iovck_eq_some {h : Host} {s t : Input} (ht : s.iovck h = some t) : t = s := by
  unfold Input.iovck at ht
  split_ifs at ht
  exact (Option.some.inj ht).symm

theorem Input.macarg_spec {h : Host} {s t : Input} {args : List (List Byte)} {argno : Byte}
    (ht : s.macarg h args argno = some t) :
    ∃ k, t = ⟨⟨s.newfp, .INARG, s.curlst, args.getD (argno &&& 0x7f).toNat [], 0⟩ :: s.infp, k,
      s.curlst - 1⟩ := by
  simp only [Input.macarg, Option.bind_eq_bind, Option.bind_eq_some_iff, Option.pure_def] at ht
  obtain ⟨u, hu, heq⟩ := ht
  obtain rfl := Input.iovck_eq_some hu
  exact ⟨_, (Option.some.inj heq).symm⟩

/-- **A turn of the loop uses up input.** -/
theorem Input.poll_weight {h : Host} {s t : Input} {f : Frame} {fs : List Frame} {r : Option Byte}
    (hs : s.infp = f :: fs) (hp : s.poll h f fs = some (r, t)) : t.weight < s.weight := by
  obtain ⟨infp, k, n⟩ := s
  dsimp only at hs
  subst hs
  unfold Input.poll at hp
  rcases hc : f.chars with _ | ⟨ch, chars⟩
  · rw [hc] at hp
    obtain ⟨-, rfl⟩ := Prod.mk.inj (Option.some.inj hp)
    exact Input.fillin_weight rfl hc
  · rw [hc] at hp
    obtain ⟨place, typ, lst, fchars, seq⟩ := f
    dsimp only at hc hp
    subst hc
    cases typ with
    | INFILE file =>
      obtain ⟨-, rfl⟩ := Prod.mk.inj (Option.some.inj hp)
      rw [Input.weight_cons, Input.weight_cons]
      simp only [Frame.weight, List.length_cons]
      omega
    | INARG =>
      obtain ⟨-, rfl⟩ := Prod.mk.inj (Option.some.inj hp)
      rw [Input.weight_cons, Input.weight_cons]
      simp only [Frame.weight, List.length_cons]
      omega
    | INRPT in_rpt in_buf =>
      obtain ⟨-, rfl⟩ := Prod.mk.inj (Option.some.inj hp)
      rw [Input.weight_cons, Input.weight_cons]
      simp only [Frame.weight, List.length_cons]
      omega
    | INMAC args =>
      dsimp only at hp
      split_ifs at hp with h80
      · obtain ⟨u, hu, hut⟩ := Option.map_eq_some_iff.mp hp
        obtain ⟨-, rfl⟩ := Prod.mk.inj hut
        obtain ⟨k', rfl⟩ := Input.macarg_spec hu
        simp only [Input.weight, Frame.weight, List.map_cons, List.sum_cons, charWeight, if_pos h80]
        omega
      · obtain ⟨-, rfl⟩ := Prod.mk.inj (Option.some.inj hp)
        simp only [Input.weight_cons, Frame.weight, List.map_cons, List.sum_cons, charWeight,
          if_neg h80]
        omega

/-- The loop of `getline`, with the characters that are in the line already: the line, or none at the end
of the input. -/
def Input.collect (h : Host) (sline : List Byte) (s : Input) : Option (Option (List Byte) × Input) :=
  match _hs : s.infp with
  | [] => some (none, s)
  | f :: fs =>
    match _hp : s.poll h f fs with
    | none => none
    | some (none, t) => t.collect h sline
    | some (some ch, t) =>
      if ch = 0x0A then some (some sline, t.count)
      else if ch = 0x0C then t.collect h sline
      else t.collect h (if sline.length < SLINSIZ then sline ++ [ch] else sline)
termination_by s.weight
decreasing_by all_goals exact Input.poll_weight _hs _hp

/-- The next line of source. -/
def Input.getline (h : Host) (s : Input) : Option (Option (List Byte) × Input) := s.collect h []

theorem Input.collect_nil {h : Host} {s : Input} (sline : List Byte) (hs : s.infp = []) :
    s.collect h sline = some (none, s) := by
  rw [Input.collect]
  split
  · rfl
  · next f fs hf => rw [hs] at hf; cases hf

theorem Input.collect_cons {h : Host} {s : Input} {f : Frame} {fs : List Frame} (sline : List Byte)
    (hs : s.infp = f :: fs) :
    s.collect h sline =
      match s.poll h f fs with
      | none => none
      | some (none, t) => t.collect h sline
      | some (some ch, t) =>
        if ch = 0x0A then some (some sline, t.count)
        else if ch = 0x0C then t.collect h sline
        else t.collect h (if sline.length < SLINSIZ then sline ++ [ch] else sline) := by
  rw [Input.collect]
  split
  · next hn => rw [hs] at hn; cases hn
  · next g gs hg =>
    obtain ⟨rfl, rfl⟩ := List.cons.inj (hg.symm.trans hs)
    split <;> simp_all

/-! ## 3. Files -/

/-- What `getline` does with a character that is no newline. -/
def put (sline : List Byte) (ch : Byte) : List Byte :=
  if ch = 0x0C then sline else if sline.length < SLINSIZ then sline ++ [ch] else sline

/-- The frame of a file that has `text` left. -/
def Frame.Holds (f : Frame) (text : List Byte) : Prop := ∃ file, f.in_typ = .INFILE file ∧ f.chars ++ file = text

/-- At the end of a file `getline` goes on with the frame below, in the same line. -/
theorem Input.collect_end {h : Host} {f : Frame} {fs : List Frame} {k n : ℕ} (sline : List Byte)
    (hf : f.Holds []) :
    Input.collect h sline ⟨f :: fs, k, n⟩ = Input.collect h sline ⟨fs, f.at_, f.in_lst⟩ := by
  obtain ⟨file, htyp, htext⟩ := hf
  obtain ⟨hchars, rfl⟩ := List.append_eq_nil_iff.mp htext
  rw [Input.collect_cons sline rfl]
  simp [Input.poll, hchars, Input.fillin, htyp, Input.popin]

/-- A character of a file, whether it is in the buffer or not. -/
theorem Input.collect_char {h : Host} {f : Frame} (fs : List Frame) (k n : ℕ) {c : Byte} {text : List Byte}
    (sline : List Byte) (hf : f.Holds (c :: text)) :
    ∃ g : Frame, g.Holds text ∧ g.at_ = f.at_ ∧
      Input.collect h sline ⟨f :: fs, k, n⟩ =
        if c &&& 0x7f = 0x0A then some (some sline, ⟨{ g with in_seq := g.in_seq + 1 } :: fs, k, n⟩)
        else Input.collect h (put sline (c &&& 0x7f)) ⟨g :: fs, k, n⟩ := by
  have hbuf : ∀ (f : Frame) (chars file : List Byte), f.in_typ = .INFILE file → f.chars = c :: chars →
      chars ++ file = text → ∃ g : Frame, g.Holds text ∧ g.at_ = f.at_ ∧
        Input.collect h sline ⟨f :: fs, k, n⟩ =
          if c &&& 0x7f = 0x0A then some (some sline, ⟨{ g with in_seq := g.in_seq + 1 } :: fs, k, n⟩)
          else Input.collect h (put sline (c &&& 0x7f)) ⟨g :: fs, k, n⟩ := by
    intro f chars file htyp hchars htext
    refine ⟨{ f with chars := chars }, ⟨file, htyp, htext⟩, rfl, ?_⟩
    rw [Input.collect_cons sline rfl]
    simp only [Input.poll, hchars, htyp, Input.count, put]
    split_ifs <;> rfl
  obtain ⟨file, htyp, htext⟩ := hf
  rcases hchars : f.chars with _ | ⟨c', chars⟩
  · -- the buffer is read anew
    rw [hchars, List.nil_append] at htext
    subst htext
    obtain ⟨g, hg, hat, heq⟩ := hbuf
      { f with in_typ := .INFILE ((c :: text).drop (2 ^ BLKLOG)), chars := (c :: text).take (2 ^ BLKLOG) }
      (text.take (2 ^ BLKLOG - 1)) _ rfl rfl (List.take_append_drop _ text)
    refine ⟨g, hg, hat, ?_⟩
    rw [← heq, Input.collect_cons sline rfl]
    have hne : (c :: text).take (2 ^ BLKLOG) ≠ [] := by simp [BLKLOG]
    simp only [Input.poll, hchars, Input.fillin, htyp, if_neg hne]
  · rw [hchars, List.cons_append] at htext
    obtain ⟨rfl, htail⟩ := List.cons.inj htext
    exact hbuf f chars file htyp hchars htail

/-! ## 4. What is to be read -/

/-- The characters of a text have seven bits. -/
def chars (text : List Byte) : List Byte := text.map (· &&& 0x7f)

/-- The lines of a text; what follows the last newline is one too, if there is anything. -/
def lines : List Byte → List (List Byte)
  | [] => []
  | c :: text =>
    if c = 0x0A then [] :: lines text
    else match lines text with
      | [] => [[c]]
      | l :: ls => (c :: l) :: ls

/-- The last line has its newline. -/
def Terminated (text : List Byte) : Prop := ∀ c ∈ text.getLast?, c = 0x0A

instance (text : List Byte) : Decidable (Terminated text) :=
  inferInstanceAs (Decidable (∀ c ∈ text.getLast?, c = 0x0A))

/-- A line without its form feeds, as much of it as there is room for. -/
def cut (l : List Byte) : List Byte := (l.filter (· ≠ 0x0C)).take SLINSIZ

/-- What is left to be read of the files that are open, the innermost first. -/
abbrev Reader := List (List (List Byte))

/-- The next line: of the innermost file that has one. -/
def next : Reader → Option (List Byte) × Reader
  | [] => (none, [])
  | [] :: r => next r
  | (l :: ls) :: r => (some l, ls :: r)

theorem put_length {sline : List Byte} (c : Byte) (hs : sline.length ≤ SLINSIZ) :
    (put sline c).length ≤ SLINSIZ := by
  unfold put
  split_ifs with hc hlen
  · exact hs
  · simpa using hlen
  · exact hs

theorem foldl_put (l sline : List Byte) (hs : sline.length ≤ SLINSIZ) :
    l.foldl put sline = (sline ++ l.filter (· ≠ 0x0C)).take SLINSIZ := by
  induction l generalizing sline with
  | nil => simp [List.take_of_length_le hs]
  | cons c l ih =>
    rw [List.foldl_cons, ih _ (put_length c hs)]
    unfold put
    split_ifs with hc hlen
    · rw [List.filter_cons_of_neg (by simpa using hc)]
    · rw [List.filter_cons_of_pos (by simpa using hc), List.append_assoc, List.singleton_append]
    · have hfull : sline.length = SLINSIZ := by omega
      rw [List.take_append_of_le_length hfull.ge, List.take_append_of_le_length hfull.ge]

theorem foldl_put_nil (l : List Byte) : l.foldl put [] = cut l := foldl_put l [] (Nat.zero_le _)

theorem Terminated.tail {c : Byte} {text : List Byte} (h : Terminated (c :: text)) : Terminated text := by
  cases text with
  | nil => simp [Terminated]
  | cons d text => simpa [Terminated] using h

theorem terminated_cons_cons (c d : Byte) (text : List Byte) :
    Terminated (c :: d :: text) ↔ Terminated (d :: text) := by
  simp [Terminated]

theorem lines_ne_nil (c : Byte) (text : List Byte) : lines (c :: text) ≠ [] := by
  unfold lines
  split_ifs
  · simp
  · split <;> simp

/-- A text that ends with a newline has as many lines as newlines; else there is one line more. -/
theorem length_lines (text : List Byte) :
    (lines text).length = text.count 0x0A + if Terminated text then 0 else 1 := by
  induction text with
  | nil => simp [lines, Terminated]
  | cons c text ih =>
    cases text with
    | nil =>
      have hterm : Terminated [c] ↔ c = 0x0A := by simp [Terminated]
      simp only [lines, hterm, List.count_singleton, beq_iff_eq]
      split_ifs <;> rfl
    | cons d text =>
      simp only [terminated_cons_cons]
      obtain ⟨l, ls, hl⟩ := List.exists_cons_of_ne_nil (lines_ne_nil d text)
      rw [lines, hl]
      rw [hl] at ih
      split_ifs at ih ⊢ with hterm hc hc <;> simp_all

/-! ## 5. Runs -/

/-- What a pass over files does to the input. -/
inductive Op
  | getline
  | input (file : List Byte)

/-- The lines `getline` delivers; none, when the assembler exits. -/
def delivered (h : Host) : List Op → Input → Option (List (Option (List Byte)))
  | [], _ => some []
  | .getline :: ops, s => do
    let (l, t) ← s.getline h
    let out ← delivered h ops t
    return l :: out
  | .input file :: ops, s => do
    let t ← s.include h file
    delivered h ops t

/-- The lines of the files, in the order they are included in. -/
def read : List Op → Reader → List (Option (List Byte))
  | [], _ => []
  | .getline :: ops, r => (next r).1.map cut :: read ops (next r).2
  | .input file :: ops, r => read ops (lines (chars file) :: r)

/-- What the frame of a file takes. -/
def Host.room (h : Host) : ℕ := h.in_buf + 2 ^ BLKLOG

/-- There is room for every file that is included. -/
def Shallow (h : Host) : List Op → Reader → Prop
  | [], _ => True
  | .getline :: ops, r => Shallow h ops (next r).2
  | .input file :: ops, r =>
    (r.length + 1) * h.room ≤ h.instk ∧ Shallow h ops (lines (chars file) :: r)

/-- The frames hold what is left to be read. -/
inductive Reads (h : Host) : List Frame → Reader → Prop
  | nil : Reads h [] []
  | cons {f : Frame} {fs : List Frame} {text : List Byte} {r : Reader} :
      f.at_ = r.length * h.room → f.Holds text → Terminated (chars text) → Reads h fs r →
      Reads h (f :: fs) (lines (chars text) :: r)

/-- A line of a file that ends with a newline. -/
theorem Input.collect_line {h : Host} (fs : List Frame) (k n : ℕ) (text : List Byte) {f : Frame}
    (hf : f.Holds text) (hterm : Terminated (chars text)) (hne : text ≠ []) (sline : List Byte) :
    ∃ (g : Frame) (l : List Byte) (rest : List Byte), g.Holds rest ∧ g.at_ = f.at_ ∧
      Terminated (chars rest) ∧ lines (chars text) = l :: lines (chars rest) ∧
      Input.collect h sline ⟨f :: fs, k, n⟩ = some (some (l.foldl put sline), ⟨g :: fs, k, n⟩) := by
  induction text generalizing f sline with
  | nil => exact absurd rfl hne
  | cons c text ih =>
    obtain ⟨g, hg, hat, heq⟩ := Input.collect_char (h := h) fs k n sline hf
    have htail : Terminated (chars text) := hterm.tail
    have hcons : chars (c :: text) = (c &&& 0x7f) :: chars text := rfl
    by_cases hc : c &&& 0x7f = 0x0A
    · refine ⟨{ g with in_seq := g.in_seq + 1 }, [], text, hg, hat, htail, ?_, ?_⟩
      · rw [hcons, lines, if_pos hc]
      · rw [heq, if_pos hc]
        rfl
    · have hne' : text ≠ [] := by
        rintro rfl
        exact hc (hterm _ (by simp [chars]))
      obtain ⟨g', l, rest, hg', hat', hrest, hl, heq'⟩ := ih hg htail hne' (put sline (c &&& 0x7f))
      refine ⟨g', (c &&& 0x7f) :: l, rest, hg', hat'.trans hat, hrest, ?_, ?_⟩
      · rw [hcons, lines, if_neg hc, hl]
      · rw [heq, if_neg hc, heq']
        rfl

/-- **A step: `getline` delivers the next line.** -/
theorem Reads.getline {h : Host} {fs : List Frame} {r : Reader} (hr : Reads h fs r) (n : ℕ) :
    ∃ t : Input, Input.getline h ⟨fs, r.length * h.room, n⟩ = some ((next r).1.map cut, t) ∧
      Reads h t.infp (next r).2 ∧ t.insp = (next r).2.length * h.room := by
  induction hr generalizing n with
  | nil => exact ⟨_, Input.collect_nil [] rfl, .nil, rfl⟩
  | @cons f fs text r hat hf hterm hr ih =>
    by_cases hne : text = []
    · subst hne
      obtain ⟨t, heq, ht⟩ := ih f.in_lst
      refine ⟨t, ?_, ht⟩
      rw [Input.getline, Input.collect_end [] hf, hat]
      exact heq
    · obtain ⟨g, l, rest, hg, hat', hrest, hl, heq⟩ :=
        Input.collect_line (h := h) fs ((r.length + 1) * h.room) n text hf hterm hne []
      refine ⟨⟨g :: fs, (r.length + 1) * h.room, n⟩, ?_, ?_, ?_⟩
      · rw [hl, next, Option.map_some, ← foldl_put_nil]
        exact heq
      · rw [hl]
        exact .cons (hat'.trans hat) hg hrest hr
      · rw [hl]
        rfl

theorem Input.include_spec {h : Host} {s t : Input} {file : List Byte} (ht : s.include h file = some t) :
    ∃ k, t = ⟨⟨s.newfp, .INFILE file, s.curlst, [], 0⟩ :: s.infp, k, s.curlst - 1⟩ := by
  simp only [Input.include, Option.bind_eq_bind, Option.bind_eq_some_iff, Option.pure_def] at ht
  obtain ⟨u, hu, v, hv, heq⟩ := ht
  obtain rfl := Input.iovck_eq_some hu
  obtain rfl := Input.iovck_eq_some hv
  exact ⟨_, (Option.some.inj heq).symm⟩

theorem Host.room_even (h : Host) : h.room % 2 = 0 := by
  have heven := h.even
  simp only [Host.room, BLKLOG]
  omega

theorem Input.include_eq {h : Host} {fs : List Frame} {k : ℕ} (n : ℕ) (hk : k % 2 = 0) (file : List Byte) :
    Input.include h ⟨fs, k, n⟩ file =
      if k + h.room ≤ h.instk then some ⟨⟨k, .INFILE file, n, [], 0⟩ :: fs, k + h.room, n - 1⟩
      else none := by
  have hnew : (Input.mk fs k n).newfp = k := if_neg (by dsimp only; omega)
  have hroom : k + h.in_buf + 2 ^ BLKLOG = k + h.room := Nat.add_assoc _ _ _
  simp only [Input.include, Input.pushin, hnew]
  by_cases hle : k + h.room ≤ h.instk
  · have hle' : k + h.in_buf ≤ h.instk := Nat.le_trans (Nat.add_le_add_left (Nat.le_add_right _ _) k) hle
    simp only [Input.iovck, if_pos hle', Option.bind_eq_bind, Option.bind_some, hroom, if_pos hle]
    rfl
  · rw [if_neg hle]
    by_cases hle' : k + h.in_buf ≤ h.instk
    · simp only [Input.iovck, if_pos hle', Option.bind_eq_bind, Option.bind_some, hroom, if_neg hle,
        Option.bind_none]
    · simp only [Input.iovck, if_neg hle', Option.bind_eq_bind, Option.bind_none]

/-- **A run delivers what is to be read if the files end with newlines, as long as there is room.** -/
theorem Reads.delivered_iff {h : Host} (ops : List Op) (hterm : ∀ file, .input file ∈ ops → Terminated (chars file))
    {fs : List Frame} {r : Reader} (hr : Reads h fs r) (n : ℕ) (out : List (Option (List Byte))) :
    delivered h ops ⟨fs, r.length * h.room, n⟩ = some out ↔ Shallow h ops r ∧ out = read ops r := by
  induction ops generalizing fs r n out with
  | nil => simp [delivered, Shallow, read, eq_comm]
  | cons op ops ih =>
    have hterm' : ∀ file, .input file ∈ ops → Terminated (chars file) :=
      fun file hf => hterm file (List.mem_cons_of_mem _ hf)
    cases op with
    | getline =>
      obtain ⟨⟨fs', k', n'⟩, hline, hr', hat⟩ := hr.getline n
      dsimp only at hr' hat
      subst hat
      have hrun := ih hterm' hr' n'
      simp only [delivered, hline, Option.bind_eq_bind, Option.bind_some, Option.pure_def, Shallow, read,
        Option.bind_eq_some_iff, Option.some.injEq, hrun]
      constructor
      · rintro ⟨out', ⟨hs, rfl⟩, rfl⟩
        exact ⟨hs, rfl⟩
      · rintro ⟨hs, rfl⟩
        exact ⟨_, ⟨hs, rfl⟩, rfl⟩
    | input file =>
      have heven : r.length * h.room % 2 = 0 := by
        rw [Nat.mul_mod, h.room_even, Nat.mul_zero, Nat.zero_mod]
      have hsucc : r.length * h.room + h.room = (r.length + 1) * h.room := (Nat.succ_mul _ _).symm
      rw [delivered, Input.include_eq n heven, hsucc, Shallow, read]
      by_cases hle : (r.length + 1) * h.room ≤ h.instk
      · have hf : Frame.Holds ⟨r.length * h.room, .INFILE file, n, [], 0⟩ file := ⟨file, rfl, rfl⟩
        have hr' := Reads.cons rfl hf (hterm file (List.mem_cons_self ..)) hr
        rw [if_pos hle, and_iff_right hle]
        exact ih hterm' hr' (n - 1) out
      · rw [if_neg hle]
        simp [hle]

/-! ## 6. Counting newlines -/

/-- The frames are of files that have `n` newlines left. -/
inductive Files : List Frame → ℕ → Prop
  | nil : Files [] 0
  | cons {f : Frame} {fs : List Frame} {text : List Byte} {n : ℕ} :
      f.Holds text → Files fs n → Files (f :: fs) ((chars text).count 0x0A + n)

/-- Each line that is delivered takes a newline. -/
theorem Files.collect {h : Host} {fs : List Frame} {m : ℕ} (hfs : Files fs m) (k n : ℕ) (sline : List Byte)
    {o : Option (List Byte)} {t : Input} (ho : Input.collect h sline ⟨fs, k, n⟩ = some (o, t)) :
    ∃ m', Files t.infp m' ∧ m' + o.toList.length ≤ m := by
  induction hfs generalizing k n sline with
  | nil =>
    rw [Input.collect_nil sline rfl] at ho
    obtain ⟨rfl, rfl⟩ := Prod.mk.inj (Option.some.inj ho)
    exact ⟨0, .nil, Nat.zero_le _⟩
  | @cons f fs text m hf hfs ih =>
    induction text generalizing f sline with
    | nil =>
      rw [Input.collect_end sline hf] at ho
      obtain ⟨m', hm', hle⟩ := ih _ _ _ ho
      exact ⟨m', hm', by simpa [chars] using hle⟩
    | cons c text ih' =>
      obtain ⟨g, hg, -, heq⟩ := Input.collect_char (h := h) fs k n sline hf
      have hcons : chars (c :: text) = (c &&& 0x7f) :: chars text := rfl
      rw [heq] at ho
      split_ifs at ho with hc
      · obtain ⟨rfl, rfl⟩ := Prod.mk.inj (Option.some.inj ho)
        refine ⟨(chars text).count 0x0A + m, .cons hg hfs, ?_⟩
        rw [hcons, hc, List.count_cons_self, Option.toList_some, List.length_singleton]
        omega
      · obtain ⟨m', hm', hle⟩ := ih' hg _ ho
        refine ⟨m', hm', ?_⟩
        rw [hcons, List.count_cons_of_ne hc]
        exact hle

/-- The files that are included. -/
def included : List Op → List (List Byte)
  | [] => []
  | .getline :: ops => included ops
  | .input file :: ops => file :: included ops

/-- How many lines there are among what was delivered. -/
def count (out : List (Option (List Byte))) : ℕ := (out.map (·.toList.length)).sum

theorem Files.delivered {h : Host} (ops : List Op) {fs : List Frame} {m : ℕ} (hfs : Files fs m) (k n : ℕ)
    {out : List (Option (List Byte))} (ho : delivered h ops ⟨fs, k, n⟩ = some out) :
    count out ≤ m + ((included ops).map fun file => (chars file).count 0x0A).sum := by
  induction ops generalizing fs m k n out with
  | nil =>
    simp only [Source.delivered, Option.some.injEq] at ho
    subst ho
    exact Nat.zero_le _
  | cons op ops ih =>
    cases op with
    | getline =>
      simp only [Source.delivered, Option.bind_eq_bind, Option.pure_def, Option.bind_eq_some_iff] at ho
      obtain ⟨⟨o, t⟩, hl, out', ho', heq⟩ := ho
      obtain rfl := Option.some.inj heq
      obtain ⟨m', hm', hle⟩ := hfs.collect k n [] hl
      have hrest := ih hm' t.insp t.curlst ho'
      simp only [count, List.map_cons, List.sum_cons, included] at hrest ⊢
      omega
    | input file =>
      simp only [Source.delivered, Option.bind_eq_bind, Option.bind_eq_some_iff] at ho
      obtain ⟨t, ht, ho'⟩ := ho
      obtain ⟨k', rfl⟩ := Input.include_spec ht
      have hf : Frame.Holds ⟨(Input.mk fs k n).newfp, .INFILE file, n, [], 0⟩ file := ⟨file, rfl, rfl⟩
      have hrest := ih (Files.cons hf hfs) _ _ ho'
      simp only [included, List.map_cons, List.sum_cons]
      omega

/-- How many lines are left to be read. -/
def total (r : Reader) : ℕ := (r.map List.length).sum

theorem total_next (r : Reader) : total (next r).2 + (next r).1.toList.length = total r := by
  fun_induction next r with
  | case1 => rfl
  | case2 r ih => simpa [total] using ih
  | case3 l ls r => simp [total]; omega

theorem next_none {r : Reader} (h : (next r).1 = none) : (next r).2 = [] := by
  fun_induction next r with
  | case1 => rfl
  | case2 r ih => exact ih h
  | case3 l ls r => cases h

theorem count_cons (o : Option (List Byte)) (out : List (Option (List Byte))) :
    count (o.map cut :: out) = o.toList.length + count out := by
  cases o <;> simp [count]

/-- As many calls as there are lines read them all. -/
theorem count_read_rest (n : ℕ) (r : Reader) (hn : total r ≤ n) :
    count (read (List.replicate n .getline) r) = total r := by
  induction n generalizing r with
  | zero =>
    rw [Nat.le_zero.mp hn]
    rfl
  | succ n ih =>
    have hnext := total_next r
    rw [List.replicate_succ, read, count_cons]
    rcases ho : (next r).1 with _ | l
    · rw [ho, next_none ho] at hnext
      rw [next_none ho, ih [] (Nat.zero_le _), Option.toList_none, List.length_nil, ← hnext]
      rfl
    · rw [ho, Option.toList_some, List.length_singleton] at hnext
      rw [ih _ (by omega), Option.toList_some, List.length_singleton]
      omega

theorem count_read (ops : List Op) (n : ℕ) (r : Reader)
    (hn : total r + ((included ops).map fun file => (lines (chars file)).length).sum ≤ n) :
    count (read (ops ++ List.replicate n .getline) r) =
      total r + ((included ops).map fun file => (lines (chars file)).length).sum := by
  induction ops generalizing r with
  | nil =>
    simp only [included, List.map_nil, List.sum_nil, Nat.add_zero] at hn ⊢
    exact count_read_rest n r hn
  | cons op ops ih =>
    cases op with
    | getline =>
      have hnext := total_next r
      simp only [included] at hn ⊢
      rw [List.cons_append, read, count_cons, ih _ (by omega)]
      omega
    | input file =>
      have htotal : total (lines (chars file) :: r) = (lines (chars file)).length + total r := by
        simp [total]
      simp only [included, List.map_cons, List.sum_cons] at hn ⊢
      rw [List.cons_append, read, ih _ (by omega), htotal]
      omega

theorem included_append_rest (ops : List Op) (n : ℕ) :
    included (ops ++ List.replicate n .getline) = included ops := by
  induction ops with
  | nil =>
    induction n with
    | zero => rfl
    | succ n ih => rwa [List.nil_append, List.replicate_succ, included]
  | cons op ops ih => cases op <;> simp [included, ih]

theorem shallow_append_rest {h : Host} (ops : List Op) (n : ℕ) (r : Reader) :
    Shallow h (ops ++ List.replicate n .getline) r ↔ Shallow h ops r := by
  induction ops generalizing r with
  | nil =>
    induction n generalizing r with
    | zero => rfl
    | succ n ih => exact ih (next r).2
  | cons op ops ih => cases op <;> simp [Shallow, ih]

theorem mem_included {ops : List Op} {file : List Byte} : .input file ∈ ops ↔ file ∈ included ops := by
  induction ops with
  | nil => simp [included]
  | cons op ops ih => cases op <;> simp [included, ih]

/-- If there are no more lines than newlines, every file ends with a newline. -/
theorem terminated_of_sum_le (files : List (List Byte))
    (hle : (files.map fun file => (lines (chars file)).length).sum ≤
      (files.map fun file => (chars file).count 0x0A).sum) : ∀ file ∈ files, Terminated (chars file) := by
  have hterm : ∀ files : List (List Byte), (files.map fun file => (chars file).count 0x0A).sum ≤
      (files.map fun file => (lines (chars file)).length).sum := by
    intro files
    refine List.sum_le_sum fun file _ => ?_
    rw [length_lines]
    exact Nat.le_add_right _ _
  induction files with
  | nil => simp
  | cons file files ih =>
    have hone := length_lines (chars file)
    have hrest := hterm files
    simp only [List.map_cons, List.sum_cons] at hle
    split_ifs at hone with hf
    · intro file' hmem
      rcases List.mem_cons.mp hmem with rfl | hmem
      · exact hf
      · exact ih (by omega) file' hmem
    · omega

/-- **Files are delivered line by line, however a pass that reads them to the end includes them, just
when each of them ends with a newline and there is room for those that are open together.** -/
theorem lines_delivered_iff (h : Host) (lst : ℕ) (ops : List Op) :
    (∀ n, delivered h (ops ++ List.replicate n .getline) (.start lst) =
        some (read (ops ++ List.replicate n .getline) [])) ↔
      (∀ file, .input file ∈ ops → Terminated (chars file)) ∧ Shallow h ops [] := by
  have hiff : (∀ file, .input file ∈ ops → Terminated (chars file)) → ∀ n out,
      delivered h (ops ++ List.replicate n .getline) (.start lst) = some out ↔
        Shallow h ops [] ∧ out = read (ops ++ List.replicate n .getline) [] := by
    intro hterm n out
    have hterm' : ∀ file, .input file ∈ ops ++ List.replicate n .getline → Terminated (chars file) := by
      intro file hf
      refine hterm file (mem_included.mpr ?_)
      rw [← included_append_rest ops n]
      exact mem_included.mp hf
    have hrun := Reads.delivered_iff (h := h) _ hterm' .nil lst out
    rw [shallow_append_rest] at hrun
    rwa [List.length_nil, Nat.zero_mul] at hrun
  constructor
  · intro hall
    have hterm : ∀ file, .input file ∈ ops → Terminated (chars file) := by
      have hcount := (Files.nil.delivered _ 0 lst
        (hall ((included ops).map fun file => (lines (chars file)).length).sum))
      rw [included_append_rest, count_read _ _ _ (by simp [total])] at hcount
      have hsum : total [] = 0 := rfl
      intro file hf
      exact terminated_of_sum_le (included ops) (by omega) file (mem_included.mp hf)
    exact ⟨hterm, ((hiff hterm 0 _).mp (hall 0)).1⟩
  · rintro ⟨hterm, hshallow⟩ n
    exact (hiff hterm n _).mpr ⟨hshallow, rfl⟩

/-- A host with pointers and integers of two bytes. -/
def smallHost : Host := ⟨14, 2, 8192, rfl⟩

/-- A file with the lines `a` and `b` that includes a file with the line `x`, whose newline is missing,
after the first: `x` and `b` become one line. -/
theorem unterminated_joins :
    delivered smallHost [.input [0x61, 0x0A, 0x62, 0x0A], .getline, .input [0x78], .getline, .getline]
        (.start 255) = some [some [0x61], some [0x78, 0x62], none] ∧
      read [.input [0x61, 0x0A, 0x62, 0x0A], .getline, .input [0x78], .getline, .getline] [] =
        [some [0x61], some [0x78], some [0x62]] := by
  have hcons (sline : List Byte) (f : Frame) (fs : List Frame) (k n : ℕ) :=
    Input.collect_cons (h := smallHost) (s := ⟨f :: fs, k, n⟩) sline rfl
  have hnil (sline : List Byte) (k n : ℕ) := Input.collect_nil (h := smallHost) (s := ⟨[], k, n⟩) sline rfl
  have hroom : smallHost.room = 526 := rfl
  have hinstk : smallHost.instk = 8192 := rfl
  refine ⟨?_, by decide⟩
  simp [delivered, Input.start, Input.include_eq, Input.getline, hroom, hinstk, hcons, hnil, Input.poll,
    Input.fillin, Input.popin, Input.count, SLINSIZ, BLKLOG]

end Cpm8000.Asm.Source
