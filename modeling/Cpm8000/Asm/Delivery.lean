/-
# What the input stack delivers

The frames of the input stack hold one text, the top frame's part before the others': what is left of a
file, of the body of a macro with the arguments in the places of its formals, of a repetition as often as it
is still to come. `getline` takes this text line by line, whatever is pushed between its calls.

* `Above.collect`: a line of what lies above some frames leaves these alone; when there is none any more,
  `getline` reads on as though it had never been there.
* `Above.delivered`: a run that reads no more than what lies above some frames takes its lines, and then
  theirs.
* `expansion_delivered`: what is pushed is delivered, and then what was there before.
-/
import Cpm8000.Asm.Input

namespace Cpm8000.Asm.Source

open Sys

/-! ## 1. The text of the frames -/

/-- The body of a macro, with the arguments in the places of its formals. -/
def filled (args : List (List Byte)) (body : List Byte) : List Byte :=
  body.flatMap fun c => if 0x80 ≤ c then chars (args.getD (c &&& 0x7f).toNat []) else [c &&& 0x7f]

/-- What a frame still holds. -/
def Frame.text (f : Frame) : List Byte :=
  match f.in_typ with
  | .INFILE file => Source.chars (f.chars ++ file)
  | .INMAC args => filled args f.chars
  | .INRPT in_rpt in_buf => Source.chars (f.chars ++ (List.replicate in_rpt.toNat in_buf).flatten)
  | .INARG => Source.chars f.chars

/-- What the frames still hold, the top frame first. -/
def Input.text (s : Input) : List Byte := s.infp.flatMap Frame.text

@[simp] theorem chars_nil : chars [] = [] := rfl

@[simp] theorem chars_cons (c : Byte) (l : List Byte) : chars (c :: l) = (c &&& 0x7f) :: chars l := rfl

@[simp] theorem chars_append (l m : List Byte) : chars (l ++ m) = chars l ++ chars m := List.map_append

@[simp] theorem filled_nil (args : List (List Byte)) : filled args [] = [] := rfl

@[simp] theorem filled_cons (args : List (List Byte)) (c : Byte) (l : List Byte) : filled args (c :: l) =
    (if 0x80 ≤ c then chars (args.getD (c &&& 0x7f).toNat []) else [c &&& 0x7f]) ++ filled args l := rfl

/-- What the end of a frame does: the frame goes on, or it is popped. -/
theorem Input.fillin_cases {s : Input} {f : Frame} {fs : List Frame} (hs : s.infp = f :: fs) (hc : f.chars = []) :
    (∃ g : Frame, g.at_ = f.at_ ∧ g.in_lst = f.in_lst ∧ s.fillin.infp = g :: fs ∧ f.text = g.text) ∨
      f.text = [] ∧ s.fillin = ⟨fs, f.at_, f.in_lst⟩ := by
  obtain ⟨infp, k, n⟩ := s
  subst hs
  obtain ⟨place, typ, lst, fchars, seq⟩ := f
  obtain rfl : fchars = [] := hc
  cases typ with
  | INFILE file =>
    simp only [Input.fillin]
    split_ifs with hb
    · refine .inr ⟨?_, rfl⟩
      have hfile : file = [] := by simpa [BLKLOG] using hb
      rw [hfile]
      rfl
    · refine .inl ⟨_, rfl, rfl, rfl, ?_⟩
      simp only [Frame.text, List.nil_append, List.take_append_drop]
  | INMAC args => exact .inr ⟨rfl, rfl⟩
  | INARG => exact .inr ⟨rfl, rfl⟩
  | INRPT in_rpt in_buf =>
    simp only [Input.fillin]
    split_ifs with hr
    · refine .inl ⟨_, rfl, rfl, rfl, ?_⟩
      have hone : (1 : BitVec 8).toNat = 1 := rfl
      have hpos : in_rpt.toNat ≠ 0 := fun h0 => hr (BitVec.eq_of_toNat_eq h0)
      have hsucc : in_rpt.toNat = (in_rpt - 1).toNat + 1 := by
        have hlt := in_rpt.isLt
        rw [BitVec.toNat_sub, hone]
        omega
      simp only [Frame.text, List.nil_append]
      rw [hsucc, List.replicate_succ, List.flatten_cons]
    · refine .inr ⟨?_, rfl⟩
      rw [not_not.mp hr]
      rfl

/-- **What a turn of the loop of `getline` does** to the frames: it takes a character of the top frame, if
any, or goes to an argument; or the top frame is popped. -/
theorem Input.poll_cases {h : Host} {s t : Input} {f : Frame} {fs : List Frame} {r : Option Byte}
    (hs : s.infp = f :: fs) (hp : s.poll h f fs = some (r, t)) :
    (∃ g : Frame, g.at_ = f.at_ ∧ g.in_lst = f.in_lst ∧ t.infp = g :: fs ∧ f.text = r.toList ++ g.text) ∨
      (∃ e g : Frame, g.at_ = f.at_ ∧ g.in_lst = f.in_lst ∧ t.infp = e :: g :: fs ∧ r = none ∧
        f.text = e.text ++ g.text) ∨
      r = none ∧ f.text = [] ∧ t = ⟨fs, f.at_, f.in_lst⟩ := by
  unfold Input.poll at hp
  cases hc : f.chars with
  | nil =>
    rw [hc] at hp
    obtain ⟨rfl, rfl⟩ := Prod.mk.inj (Option.some.inj hp)
    rcases Input.fillin_cases hs hc with ⟨g, hat, hlst, hinfp, htext⟩ | ⟨htext, hfill⟩
    · exact .inl ⟨g, hat, hlst, hinfp, htext⟩
    · exact .inr (.inr ⟨rfl, htext, hfill⟩)
  | cons ch cs =>
    rw [hc] at hp
    obtain ⟨place, typ, lst, fchars, seq⟩ := f
    obtain rfl : fchars = ch :: cs := hc
    cases typ with
    | INFILE file =>
      obtain ⟨rfl, rfl⟩ := Prod.mk.inj (Option.some.inj hp)
      exact .inl ⟨⟨place, .INFILE file, lst, cs, seq⟩, rfl, rfl, rfl, rfl⟩
    | INARG =>
      obtain ⟨rfl, rfl⟩ := Prod.mk.inj (Option.some.inj hp)
      exact .inl ⟨⟨place, .INARG, lst, cs, seq⟩, rfl, rfl, rfl, rfl⟩
    | INRPT in_rpt in_buf =>
      obtain ⟨rfl, rfl⟩ := Prod.mk.inj (Option.some.inj hp)
      exact .inl ⟨⟨place, .INRPT in_rpt in_buf, lst, cs, seq⟩, rfl, rfl, rfl, rfl⟩
    | INMAC args =>
      dsimp only at hp
      split_ifs at hp with h80
      · obtain ⟨u, hu, hut⟩ := Option.map_eq_some_iff.mp hp
        obtain ⟨rfl, rfl⟩ := Prod.mk.inj hut
        obtain ⟨k, rfl⟩ := Input.macarg_spec hu
        refine .inr (.inl ⟨_, ⟨place, .INMAC args, lst, cs, seq⟩, rfl, rfl, rfl, rfl, ?_⟩)
        have hcons := filled_cons args ch cs
        rwa [if_pos h80] at hcons
      · obtain ⟨rfl, rfl⟩ := Prod.mk.inj (Option.some.inj hp)
        refine .inl ⟨⟨place, .INMAC args, lst, cs, seq⟩, rfl, rfl, rfl, ?_⟩
        have hcons := filled_cons args ch cs
        rwa [if_neg h80] at hcons

/-! ## 2. Lines above other frames -/

/-- The stack is what was pushed on `fs`, which still holds the text; the lowest of it was put at `k` when
the listing level was `n`. -/
inductive Above (k n : ℕ) (fs : List Frame) : List Frame → List Byte → Prop
  | base {f : Frame} : f.at_ = k → f.in_lst = n → Above k n fs (f :: fs) f.text
  | cons {f : Frame} {gs : List Frame} {text : List Byte} : Above k n fs gs text →
      Above k n fs (f :: gs) (f.text ++ text)

variable {h : Host} {k n : ℕ} {fs : List Frame}

/-- A frame for the top frame, in the same place. -/
theorem Above.top {f g : Frame} {gs : List Frame} {text : List Byte} (ha : Above k n fs (f :: gs) text)
    (hat : g.at_ = f.at_) (hlst : g.in_lst = f.in_lst) :
    ∃ rest, text = f.text ++ rest ∧ Above k n fs (g :: gs) (g.text ++ rest) := by
  cases ha with
  | base hk hn =>
    refine ⟨[], (List.append_nil _).symm, ?_⟩
    rw [List.append_nil]
    exact .base (hat.trans hk) (hlst.trans hn)
  | cons ha => exact ⟨_, rfl, .cons ha⟩

/-- The top frame is popped. -/
theorem Above.pop {f : Frame} {gs : List Frame} {text : List Byte} (ha : Above k n fs (f :: gs) text)
    (hf : f.text = []) :
    Above k n fs gs text ∨ text = [] ∧ (⟨gs, f.at_, f.in_lst⟩ : Input) = ⟨fs, k, n⟩ := by
  cases ha with
  | base hk hn => exact .inr ⟨hf, by rw [hk, hn]⟩
  | cons ha =>
    refine .inl ?_
    rwa [hf, List.nil_append]

theorem Above.poll {s t : Input} {f : Frame} {gs : List Frame} {text : List Byte} {r : Option Byte}
    (ha : Above k n fs (f :: gs) text) (hs : s.infp = f :: gs) (hp : s.poll h f gs = some (r, t)) :
    (∃ rest, text = r.toList ++ rest ∧ Above k n fs t.infp rest) ∨ r = none ∧ text = [] ∧ t = ⟨fs, k, n⟩ := by
  rcases Input.poll_cases hs hp with ⟨g, hat, hlst, hinfp, htext⟩ | ⟨e, g, hat, hlst, hinfp, rfl, htext⟩ |
    ⟨rfl, htext, rfl⟩
  · obtain ⟨rest, rfl, hg⟩ := ha.top hat hlst
    refine .inl ⟨g.text ++ rest, ?_, hinfp ▸ hg⟩
    rw [htext, List.append_assoc]
  · obtain ⟨rest, rfl, hg⟩ := ha.top hat hlst
    refine .inl ⟨e.text ++ (g.text ++ rest), ?_, hinfp ▸ .cons hg⟩
    rw [htext, List.append_assoc]
    rfl
  · rcases ha.pop htext with hg | ⟨rfl, heq⟩
    · exact .inl ⟨text, rfl, hg⟩
    · exact .inr ⟨rfl, rfl, heq⟩

theorem Above.count {t : Input} {text : List Byte} (ha : Above k n fs t.infp text) :
    Above k n fs t.count.infp text := by
  obtain ⟨infp, place, lst⟩ := t
  cases infp with
  | nil => exact ha
  | cons f gs =>
    have htop := ha.top (g := { f with in_seq := f.in_seq + 1 }) rfl rfl
    obtain ⟨rest, rfl, hg⟩ := htop
    exact hg

/-- A turn of the loop of `getline` that takes no character. -/
theorem Input.collect_none {s t : Input} {f : Frame} {gs : List Frame} (hs : s.infp = f :: gs)
    (hp : s.poll h f gs = some (none, t)) (sline : List Byte) : s.collect h sline = t.collect h sline := by
  rw [Input.collect_cons sline hs, hp]

/-- A turn of the loop of `getline` that takes a character. -/
theorem Input.collect_some {s t : Input} {f : Frame} {gs : List Frame} {c : Byte} (hs : s.infp = f :: gs)
    (hp : s.poll h f gs = some (some c, t)) (sline : List Byte) :
    s.collect h sline = if c = 0x0A then some (some sline, t.count) else t.collect h (put sline c) := by
  rw [Input.collect_cons sline hs, hp]
  unfold put
  dsimp only
  split_ifs <;> rfl

/-- **A line of what lies above**, or what is left of it at the beginning of a line from below. -/
theorem Above.collect {s t : Input} {text : List Byte} (ha : Above k n fs s.infp text) (sline : List Byte)
    {o : Option (List Byte)} (ho : s.collect h sline = some (o, t)) :
    (∃ raw rest, 0x0A ∉ raw ∧ text = raw ++ 0x0A :: rest ∧ Above k n fs t.infp rest ∧
      o = some (raw.foldl put sline)) ∨
      0x0A ∉ text ∧ Input.collect h (text.foldl put sline) ⟨fs, k, n⟩ = some (o, t) := by
  induction hw : s.weight using Nat.strong_induction_on generalizing s text sline with
  | _ w ih =>
    obtain ⟨f, gs, hs⟩ : ∃ f gs, s.infp = f :: gs := by
      cases hi : s.infp with
      | nil =>
        rw [hi] at ha
        cases ha
      | cons f gs => exact ⟨f, gs, rfl⟩
    rw [hs] at ha
    cases hp : s.poll h f gs with
    | none =>
      rw [Input.collect_cons sline hs, hp] at ho
      cases ho
    | some rt =>
      obtain ⟨r, u⟩ := rt
      have hlt := hw ▸ Input.poll_weight hs hp
      rcases ha.poll hs hp with ⟨rest, rfl, hu⟩ | ⟨rfl, rfl, rfl⟩
      · cases r with
        | none =>
          rw [Input.collect_none hs hp] at ho
          exact ih _ hlt hu sline ho rfl
        | some c =>
          rw [Input.collect_some hs hp] at ho
          split_ifs at ho with hc
          · obtain ⟨rfl, rfl⟩ := Prod.mk.inj (Option.some.inj ho)
            exact .inl ⟨[], rest, by simp, by rw [hc]; rfl, hu.count, rfl⟩
          · rcases ih _ hlt hu _ ho rfl with ⟨raw, rest', hraw, rfl, ht, rfl⟩ | ⟨hnl, ho'⟩
            · exact .inl ⟨c :: raw, rest', List.not_mem_cons_of_ne_of_not_mem (Ne.symm hc) hraw, rfl, ht, rfl⟩
            · exact .inr ⟨List.not_mem_cons_of_ne_of_not_mem (Ne.symm hc) hnl, ho'⟩
      · rw [Input.collect_none hs hp] at ho
        exact .inr ⟨by simp, ho⟩

/-! ## 3. Runs -/

/-- What is pushed on the input stack: a file, a call of a macro, or a repetition. The variable part of the
frame takes `room` bytes. -/
inductive Pushed
  | file (text : List Byte)
  | call (room : ℕ) (args : List (List Byte)) (body : List Byte)
  | repetition (room : ℕ) (ct : BitVec 8) (body : List Byte)

/-- What it stands for. -/
def Pushed.text : Pushed → List Byte
  | .file text => chars text
  | .call _ args body => filled args body
  | .repetition _ ct body => chars (List.replicate ct.toNat body).flatten

/-- Push a frame with a variable part of `room` bytes. -/
def Input.frame (h : Host) (s : Input) (room : ℕ) (typ : InType) (chars : List Byte) : Option Input := do
  let t ← s.pushin h
  let t ← Input.iovck h { t with insp := t.insp + room }
  return t.enter s.newfp typ chars

def Input.push (h : Host) (s : Input) : Pushed → Option Input
  | .file text => s.include h text
  | .call room args body => s.frame h room (.INMAC args) body
  | .repetition room ct body => s.frame h room (.INRPT ct body) []

theorem Input.frame_spec {s t : Input} {room : ℕ} {typ : InType} {chars : List Byte}
    (ht : s.frame h room typ chars = some t) :
    t.infp = ⟨s.newfp, typ, s.curlst, chars, 0⟩ :: s.infp := by
  simp only [Input.frame, Input.pushin, Option.bind_eq_bind, Option.bind_eq_some_iff, Option.pure_def] at ht
  obtain ⟨u, hu, v, hv, heq⟩ := ht
  obtain rfl := Input.iovck_eq_some hu
  obtain rfl := Input.iovck_eq_some hv
  rw [← Option.some.inj heq]
  rfl

/-- The new frame holds the text, above the frames that were there. -/
theorem Input.push_above {s t : Input} {x : Pushed} (ht : s.push h x = some t) :
    Above s.newfp s.curlst s.infp t.infp x.text := by
  cases x with
  | file text =>
    obtain ⟨k, rfl⟩ := Input.include_spec ht
    exact .base (f := ⟨s.newfp, .INFILE text, s.curlst, [], 0⟩) rfl rfl
  | call room args body =>
    rw [Input.frame_spec ht]
    exact .base (f := ⟨s.newfp, .INMAC args, s.curlst, body, 0⟩) rfl rfl
  | repetition room ct body =>
    rw [Input.frame_spec ht]
    exact .base (f := ⟨s.newfp, .INRPT ct body, s.curlst, [], 0⟩) rfl rfl

/-- What happens to the input: a line is read, or something is pushed. -/
inductive Step
  | getline
  | push (x : Pushed)

/-- The lines a run delivers, and the input after it; none, when the assembler exits. -/
def run (h : Host) : List Step → Input → Option (List (Option (List Byte)) × Input)
  | [], s => some ([], s)
  | .getline :: steps, s => do
    let (l, t) ← s.getline h
    let (out, u) ← run h steps t
    return (l :: out, u)
  | .push x :: steps, s => do
    let t ← s.push h x
    run h steps t

/-- The first line of a text, if it has a newline, and what comes after it. -/
def firstLine : List Byte → Option (List Byte) × List Byte
  | [] => (none, [])
  | c :: text => if c = 0x0A then (some [], text) else ((firstLine text).1.map (c :: ·), (firstLine text).2)

theorem firstLine_append {raw : List Byte} (hraw : 0x0A ∉ raw) (rest : List Byte) :
    firstLine (raw ++ 0x0A :: rest) = (some raw, rest) := by
  induction raw with
  | nil => rfl
  | cons c raw ih =>
    have hc : c ≠ 0x0A := fun hc => hraw (hc ▸ List.mem_cons_self ..)
    rw [List.cons_append, firstLine, if_neg hc, ih fun hmem => hraw (List.mem_cons_of_mem _ hmem)]
    rfl

/-- The lines of a text, where what is pushed comes before the rest of it, and what is left. -/
def readText : List Step → List Byte → List (Option (List Byte)) × List Byte
  | [], text => ([], text)
  | .getline :: steps, text =>
    let (out, rest) := readText steps (firstLine text).2
    ((firstLine text).1.map cut :: out, rest)
  | .push x :: steps, text => readText steps (x.text ++ text)

/-- A run that reads lines of the text only. -/
def Within : List Step → List Byte → Prop
  | [], _ => True
  | .getline :: steps, text => 0x0A ∈ text ∧ Within steps (firstLine text).2
  | .push x :: steps, text => Within steps (x.text ++ text)

theorem Above.append {gs hs : List Frame} {j m : ℕ} {text rest : List Byte} (hg : Above j m gs hs rest)
    (ha : Above k n fs gs text) : Above k n fs hs (rest ++ text) := by
  induction hg with
  | base _ _ => exact .cons ha
  | cons hg ih =>
    rw [List.append_assoc]
    exact .cons ih

theorem Above.text {gs : List Frame} {text : List Byte} (ha : Above k n fs gs text) :
    gs.flatMap Frame.text = text ++ fs.flatMap Frame.text := by
  induction ha with
  | base _ _ => rfl
  | cons ha ih => rw [List.flatMap_cons, ih, List.append_assoc]

/-- **A run takes its lines from what lies above the frames**, as long as there are any. -/
theorem Above.run {steps : List Step} {s t : Input} {text : List Byte} (ha : Above k n fs s.infp text)
    {out : List (Option (List Byte))} (hrun : run h steps s = some (out, t)) (hw : Within steps text) :
    out = (readText steps text).1 ∧ Above k n fs t.infp (readText steps text).2 := by
  induction steps generalizing s text out with
  | nil =>
    obtain ⟨rfl, rfl⟩ := Prod.mk.inj (Option.some.inj hrun)
    exact ⟨rfl, ha⟩
  | cons step steps ih =>
    cases step with
    | getline =>
      obtain ⟨hnl, hw⟩ := hw
      simp only [Source.run, Option.bind_eq_bind, Option.bind_eq_some_iff, Option.pure_def] at hrun
      obtain ⟨⟨l, u⟩, hl, ⟨out', v⟩, hout, heq⟩ := hrun
      obtain ⟨rfl, rfl⟩ := Prod.mk.inj (Option.some.inj heq)
      rcases ha.collect [] hl with ⟨raw, rest, hraw, rfl, hu, rfl⟩ | ⟨hnot, -⟩
      · have hfirst := firstLine_append hraw rest
        rw [hfirst] at hw
        obtain ⟨rfl, hv⟩ := ih hu hout hw
        simp only [readText, hfirst, foldl_put_nil, Option.map_some]
        exact ⟨trivial, hv⟩
      · exact absurd hnl hnot
    | push x =>
      simp only [Source.run, Option.bind_eq_bind, Option.bind_eq_some_iff] at hrun
      obtain ⟨u, hu, hout⟩ := hrun
      exact ih ((Input.push_above hu).append ha) hout hw

/-- **What lies above the frames is delivered line by line, and then they are**, whatever is pushed and read
meanwhile: when no newline of it is left, `getline` goes on with the frames, where they were and with the
listing level from before, in the line that it has begun. -/
theorem Above.delivered {s t : Input} {text : List Byte} (ha : Above k n fs s.infp text) {steps : List Step}
    {out : List (Option (List Byte))} (hrun : Source.run h steps s = some (out, t)) (hw : Within steps text) :
    out = (readText steps text).1 ∧ t.text = (readText steps text).2 ++ fs.flatMap Frame.text ∧
      (0x0A ∉ (readText steps text).2 → ∀ r, t.getline h = some r →
        Input.collect h (cut (readText steps text).2) ⟨fs, k, n⟩ = some r) := by
  obtain ⟨hout, ht⟩ := ha.run hrun hw
  refine ⟨hout, ht.text, fun hnl r hr => ?_⟩
  rcases ht.collect [] hr with ⟨raw, rest, -, heq, -, -⟩ | ⟨-, hbelow⟩
  · rw [heq] at hnl
    exact absurd (by simp) hnl
  · rwa [foldl_put_nil] at hbelow

/-- **What is pushed is delivered line by line, and then what was there before**, whatever else is pushed
and read meanwhile. -/
theorem expansion_delivered {s t u : Input} {x : Pushed} {steps : List Step} {out : List (Option (List Byte))}
    (hpush : s.push h x = some t) (hrun : run h steps t = some (out, u)) (hw : Within steps x.text) :
    out = (readText steps x.text).1 ∧ u.text = (readText steps x.text).2 ++ s.text ∧
      (0x0A ∉ (readText steps x.text).2 → ∀ r, u.getline h = some r →
        Input.collect h (cut (readText steps x.text).2) ⟨s.infp, s.newfp, s.curlst⟩ = some r) :=
  (Input.push_above hpush).delivered hrun hw

/-- The line `z` of a file is left. -/
def leftLine : Input := ⟨[⟨0, .INFILE [], 255, [0x7A, 0x0A], 0⟩], 526, 254⟩

/-- A call with the argument `x` of a macro with the lines `?1` and `y`. -/
def smallCall : Pushed := .call 32 [[0x31], [], [], [0x78]] [0x83, 0x0A, 0x79, 0x0A]

/-- The first line of the call is `x`; then come `y`, of the macro, and `z`, of the file. -/
theorem call_delivered : ∃ t u : Input, leftLine.push smallHost smallCall = some t ∧
    run smallHost [.getline] t = some ([some [0x78]], u) ∧ u.text = [0x79, 0x0A] ++ [0x7A, 0x0A] := by
  have hcons (sline : List Byte) (f : Frame) (fs : List Frame) (k n : ℕ) :=
    Input.collect_cons (h := smallHost) (s := ⟨f :: fs, k, n⟩) sline rfl
  have hpush : leftLine.push smallHost smallCall = some ⟨⟨526, .INMAC [[0x31], [], [], [0x78]], 254,
      [0x83, 0x0A, 0x79, 0x0A], 0⟩ :: leftLine.infp, 572, 253⟩ := rfl
  obtain ⟨u, hrun⟩ : ∃ u, run smallHost [.getline] ⟨⟨526, .INMAC [[0x31], [], [], [0x78]], 254,
      [0x83, 0x0A, 0x79, 0x0A], 0⟩ :: leftLine.infp, 572, 253⟩ = some ([some [0x78]], u) := by
    have hroom : smallHost.in_buf = 14 := rfl
    have hinstk : smallHost.instk = 8192 := rfl
    simp [run, Input.getline, hcons, Input.poll, Input.fillin, Input.popin, Input.count, Input.macarg,
      Input.pushin, Input.iovck, Input.enter, Input.newfp, hroom, hinstk, SLINSIZ]
  have hdelivered := expansion_delivered hpush hrun ⟨by decide, trivial⟩
  exact ⟨_, u, hpush, hrun, hdelivered.2.1⟩

end Cpm8000.Asm.Source
