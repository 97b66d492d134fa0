/-
# The console line

`bdos_read_console_line` reads the console up to the end of a line and edits what it reads in the
buffer of its caller: `buf[0]` is the length asked for, `buf[1]` the length of the line, and the
line begins at `buf[2]`.  Then it reads the line back to see whether it is EXIT or QUIT.

`line_of` is the line of an input as a fold over its bytes; `bdos_read_console_line_spec` says that
the buffer holds this line, that no byte behind the buffer is written, and when the machine halts.
-/
import Cpm8000.Host.Dma
import Mathlib.Data.List.DropRight
import Mathlib.Data.List.GetD

namespace Cpm8000.Host

open Cpm8000.Sys

/-! ## 1. The console -/

/-- What the host's standard input has still to give.  Where a `read` has found the end already,
there is nothing more. -/
structure Console where
  input : List Byte
  eof_flag : Bool
  ended : eof_flag = true → input = []

/-- The variables of the function: what is left of the input, what it has echoed, and whether it
has asked for a halt. -/
structure LineState where
  input : List Byte
  eof_flag : Bool
  output : List Byte
  mem : HostedMemory
  n : Byte
  halt : Bool

namespace LineState

def console_out (s : LineState) (ch : Byte) : LineState := { s with output := s.output ++ [ch] }

end LineState

/-! ## 2. The editor -/

/-- What the loop does with a byte that is read, and whether it breaks. -/
def line_round (base : BitVec 32) (maxlen c : Byte) (s : LineState) : LineState × Bool :=
  if c = 0x0d ∨ c = 0x0a then
    ((s.console_out 0x0d).console_out 0x0a, true)
  else if c = 0x08 ∨ c = 0x7f then
    if s.n > 0 then
      ((({ s with n := s.n - 1 }.console_out 0x08).console_out 0x20).console_out 0x08, false)
    else (s, false)
  else if c = 0x03 then
    ({ ((((s.console_out 0x5e).console_out 0x43).console_out 0x0d).console_out 0x0a) with n := 0 },
      true)
  else if s.n ≥ maxlen then (s, false)
  else
    ({ ({ s with mem := s.mem.write_byte (base + 2 + s.n.setWidth 32) c }.console_out c) with
      n := s.n + 1 }, false)

/-- The loop over the console's bytes: `console_in` gives the next one, or sets `eof_flag`. -/
def line_loop (base : BitVec 32) (maxlen : Byte) : List Byte → LineState → LineState
  | [], s => { s with input := [], eof_flag := true, halt := true }
  | c :: input, s =>
    if s.eof_flag then { s with input := input, halt := true }
    else
      match line_round base maxlen c s with
      | (s, true) => { s with input := input }
      | (s, false) => line_loop base maxlen input s

/-- A space or a tab. -/
def blank (c : Byte) : Bool := c = 0x20 ∨ c = 0x09

/-- The first loop of `console_line_is`, with `end - start` rounds left. -/
def skip_blanks (read : ℕ → Byte) (start : ℕ) : ℕ → ℕ
  | 0 => start
  | k + 1 => if blank (read start) then skip_blanks read (start + 1) k else start

/-- The second loop, which takes `end` down to `start`. -/
def drop_blanks (read : ℕ → Byte) (start : ℕ) : ℕ → ℕ
  | 0 => 0
  | last + 1 =>
    if start < last + 1 ∧ blank (read last) then drop_blanks read start last else last + 1

def upper (c : Byte) : Byte := if 0x61 ≤ c ∧ c ≤ 0x7a then c - 32 else c

/-- The indexes are bytes in the source; they stay at or below `n`. -/
def console_line_is (mem : HostedMemory) (addr : BitVec 32) (n : Byte) (word : List Byte) : Bool :=
  let read := fun i => mem.read_byte (addr + BitVec.ofNat 32 i)
  let start := skip_blanks read 0 n.toNat
  let last := drop_blanks read start n.toNat
  if last - start ≠ word.length then false
  else (List.range word.length).all fun i => upper (read (start + i)) = word.getD i 0

def EXIT : List Byte := [0x45, 0x58, 0x49, 0x54]

def QUIT : List Byte := [0x51, 0x55, 0x49, 0x54]

def bdos_read_console_line (con : Console) (mem : HostedMemory) (tag buf_off : BitVec 16) :
    LineState :=
  let base := tagged tag buf_off
  let maxlen := mem.read_byte (base + 0)
  let maxlen := if maxlen = 0 then 1 else maxlen
  let s := line_loop base maxlen con.input ⟨con.input, con.eof_flag, [], mem, 0, false⟩
  let s := { s with mem := s.mem.write_byte (base + 1) s.n }
  if console_line_is s.mem (base + 2) s.n EXIT || console_line_is s.mem (base + 2) s.n QUIT then
    { s with halt := true }
  else s

/-! ## 3. The line of an input -/

/-- A byte that ends a line. -/
def ends_line (c : Byte) : Bool := c = 0x0d ∨ c = 0x0a ∨ c = 0x03

/-- What one byte does to a line of at most `cap` bytes. -/
def keep (cap : ℕ) (line : List Byte) (c : Byte) : List Byte :=
  if c = 0x08 ∨ c = 0x7f then line.dropLast
  else if line.length < cap then line ++ [c]
  else line

/-- The bytes up to the end of the line, and the byte that ends it. -/
def typed (input : List Byte) : List Byte := input.takeWhile fun c => !ends_line c

def line_end (input : List Byte) : Option Byte := (input.dropWhile fun c => !ends_line c).head?

/-- **The line of an input**: its bytes folded, and nothing where it is abandoned. -/
def line_of (cap : ℕ) (input : List Byte) : List Byte :=
  if line_end input = some 0x03 then [] else (typed input).foldl (keep cap) []

/-- The line without the blanks around it, in upper case. -/
def command_of (line : List Byte) : List Byte :=
  ((line.dropWhile blank).rdropWhile blank).map upper

/-! ## 4. The editor keeps the line -/

section editor

variable {base : BitVec 32} {m₀ : HostedMemory} {cap : ℕ} {line : List Byte} {maxlen : Byte}
  {s : LineState}

/-- **The buffer holds the line** read so far, and nothing but its bytes has been written. -/
structure Edited (base : BitVec 32) (m₀ : HostedMemory) (cap : ℕ) (line : List Byte)
    (s : LineState) : Prop where
  count : s.n.toNat = line.length
  le : line.length ≤ cap
  map : s.mem.map = m₀.map
  bytes : ∀ k b, (line)[k]? = some b → s.mem.m_data (dmaAt m₀.map base (2 + k)) = b
  frame : ∀ c, (∀ k < cap, c ≠ dmaAt m₀.map base (2 + k)) → s.mem.m_data c = m₀.m_data c

/-- The address of the byte the editor stores next. -/
theorem line_addr (map : MemoryMap) (base : BitVec 32) (n : Byte) :
    map.tagged_physical (base + 2 + n.setWidth 32) false = dmaAt map base (2 + n.toNat) := by
  have hn : n.setWidth 32 = BitVec.ofNat 32 n.toNat := by
    apply BitVec.eq_of_toNat_eq
    have hlt := n.isLt
    rw [BitVec.toNat_setWidth, BitVec.toNat_ofNat]
  have htwo : (2 : BitVec 32) = BitVec.ofNat 32 2 := rfl
  rw [dmaAt, hn, htwo, BitVec.add_assoc, ← BitVec.ofNat_add]

theorem Edited.dropLast (h : Edited base m₀ cap line s) (hpos : 0 < line.length) {s' : LineState}
    (hn : s'.n = s.n - 1) (hmem : s'.mem = s.mem) : Edited base m₀ cap line.dropLast s' where
  count := by
    have hone : ((1 : Byte)).toNat = 1 := rfl
    have hlt := s.n.isLt
    rw [hn, List.length_dropLast, BitVec.toNat_sub, hone, h.count]
    have hcount := h.count
    omega
  le := by
    rw [List.length_dropLast]
    exact (Nat.sub_le _ _).trans h.le
  map := by rw [hmem, h.map]
  bytes k b hk := by
    rw [hmem]
    rw [List.getElem?_dropLast] at hk
    split_ifs at hk
    exact h.bytes k b hk
  frame c hc := by
    rw [hmem]
    exact h.frame c hc

theorem Edited.append (hmap : m₀.map.Reachable) (hcap : cap ≤ 255) (h : Edited base m₀ cap line s)
    (hlt : line.length < cap) {c : Byte} {s' : LineState} (hn : s'.n = s.n + 1)
    (hmem : s'.mem = s.mem.write_byte (base + 2 + s.n.setWidth 32) c) :
    Edited base m₀ cap (line ++ [c]) s' := by
  have hdata : s'.mem.m_data =
      Function.update s.mem.m_data (dmaAt m₀.map base (2 + line.length)) c := by
    rw [hmem, HostedMemory.write_byte, line_addr, h.map, h.count]
  refine ⟨?_, ?_, ?_, ?_, ?_⟩
  · have hone : ((1 : Byte)).toNat = 1 := rfl
    rw [hn, List.length_append, List.length_singleton, BitVec.toNat_add, hone, h.count]
    omega
  · rw [List.length_append, List.length_singleton]
    exact hlt
  · rw [hmem]
    exact h.map
  · intro k b hk
    rw [hdata]
    rcases Nat.lt_or_ge k line.length with hold | hnew
    · rw [List.getElem?_append_left hold] at hk
      rw [Function.update_of_ne, h.bytes k b hk]
      intro heq
      have hpos := dmaAt_inj hmap (by omega) (by omega) heq
      omega
    · rw [List.getElem?_append_right hnew] at hk
      obtain ⟨hz, hb⟩ := List.getElem?_eq_some_iff.mp hk
      rw [List.length_singleton] at hz
      have hkl : k = line.length := by omega
      have hcb : c = b := by
        subst hkl
        simpa using hk
      rw [hkl, Function.update_self, hcb]
  · intro cell hcell
    rw [hdata, Function.update_of_ne (hcell _ hlt)]
    exact h.frame cell hcell

/-- **A byte of the line**: one step of the fold. -/
theorem line_round_keep (hmap : m₀.map.Reachable) (hcap : maxlen.toNat = cap) {c : Byte}
    (hc : ends_line c = false) (h : Edited base m₀ cap line s) :
    (line_round base maxlen c s).2 = false ∧
      Edited base m₀ cap (keep cap line c) (line_round base maxlen c s).1 ∧
      (line_round base maxlen c s).1.eof_flag = s.eof_flag ∧
      (line_round base maxlen c s).1.halt = s.halt := by
  have hlt := maxlen.isLt
  have hcount := h.count
  simp only [ends_line, decide_eq_false_iff_not, not_or] at hc
  obtain ⟨hcr, hlf, hctrl⟩ := hc
  unfold line_round keep
  rw [if_neg (by tauto)]
  by_cases hbs : c = 0x08 ∨ c = 0x7f
  · rw [if_pos hbs, if_pos hbs]
    by_cases hn : s.n > 0
    · rw [if_pos hn]
      have hpos : 0 < line.length := by
        rw [← hcount]
        exact hn
      exact ⟨rfl, h.dropLast hpos rfl rfl, rfl, rfl⟩
    · have hz : line = [] := by
        rw [← List.length_eq_zero_iff, ← hcount]
        exact Nat.eq_zero_of_not_pos hn
      rw [if_neg hn]
      subst hz
      exact ⟨rfl, h, rfl, rfl⟩
  · rw [if_neg hbs, if_neg hbs, if_neg hctrl]
    by_cases hfull : s.n ≥ maxlen
    · have hle : ¬ line.length < cap := by
        rw [← hcount, ← hcap]
        exact not_lt.mpr hfull
      rw [if_pos hfull, if_neg hle]
      exact ⟨rfl, h, rfl, rfl⟩
    · have hroom : line.length < cap := by
        rw [← hcount, ← hcap]
        exact not_le.mp hfull
      rw [if_neg hfull, if_pos hroom]
      exact ⟨rfl, h.append hmap (by omega) hroom rfl rfl, rfl, rfl⟩

/-- **A byte that ends the line.** -/
theorem line_round_end {c : Byte} (hc : ends_line c = true) (h : Edited base m₀ cap line s) :
    (line_round base maxlen c s).2 = true ∧
      Edited base m₀ cap (if c = 0x03 then [] else line) (line_round base maxlen c s).1 ∧
      (line_round base maxlen c s).1.halt = s.halt := by
  simp only [ends_line, decide_eq_true_eq] at hc
  unfold line_round
  by_cases hcr : c = 0x0d ∨ c = 0x0a
  · have hctrl : c ≠ 0x03 := by
      rcases hcr with rfl | rfl <;> decide
    rw [if_pos hcr, if_neg hctrl]
    exact ⟨rfl, ⟨h.count, h.le, h.map, h.bytes, h.frame⟩, rfl⟩
  · obtain rfl : c = 0x03 := by tauto
    rw [if_neg hcr, if_neg (by decide), if_pos rfl, if_pos rfl]
    refine ⟨rfl, ⟨rfl, Nat.zero_le _, h.map, ?_, h.frame⟩, rfl⟩
    intro k b hk
    cases hk

/-- **The loop folds the line.** -/
theorem line_loop_edited (hmap : m₀.map.Reachable) (hcap : maxlen.toNat = cap) (input : List Byte)
    (heof : s.eof_flag = true → input = []) (h : Edited base m₀ cap line s) :
    Edited base m₀ cap
        (if line_end input = some 0x03 then [] else (typed input).foldl (keep cap) line)
        (line_loop base maxlen input s) ∧
      (line_loop base maxlen input s).halt = (s.halt || line_end input = none) := by
  induction input generalizing s line with
  | nil =>
    refine ⟨⟨h.count, h.le, h.map, h.bytes, h.frame⟩, ?_⟩
    simp [line_loop, line_end]
  | cons c input ih =>
    have hnot : s.eof_flag = false := Bool.eq_false_iff.mpr fun ht => List.cons_ne_nil _ _ (heof ht)
    rw [line_loop, hnot]
    cases hc : ends_line c with
    | true =>
      have hend : line_end (c :: input) = some c := by
        simp [line_end, hc]
      have htyped : typed (c :: input) = [] := by
        simp [typed, hc]
      obtain ⟨hover, hedit, hhalt⟩ := @line_round_end _ _ _ _ maxlen _ _ hc h
      rw [hend, htyped]
      generalize line_round base maxlen c s = r at hover hedit hhalt
      obtain ⟨s', broken⟩ := r
      obtain rfl : broken = true := hover
      refine ⟨?_, ?_⟩
      · simpa using ⟨hedit.count, hedit.le, hedit.map, hedit.bytes, hedit.frame⟩
      · simpa using hhalt
    | false =>
      have hend : line_end (c :: input) = line_end input := by
        simp [line_end, hc]
      have htyped : typed (c :: input) = c :: typed input := by
        simp [typed, hc]
      obtain ⟨hover, hedit, heof', hhalt⟩ := line_round_keep hmap hcap hc h
      rw [hend, htyped, List.foldl_cons]
      generalize line_round base maxlen c s = r at hover hedit heof' hhalt
      obtain ⟨s', broken⟩ := r
      obtain rfl : broken = false := hover
      have heof'' : s'.eof_flag = true → input = [] := fun ht =>
        absurd (heof'.symm.trans ht) (hnot ▸ Bool.false_ne_true)
      have hrest := ih heof'' hedit
      rw [hhalt] at hrest
      exact hrest

end editor

/-! ## 5. The line is read back -/

section command

variable {read : ℕ → Byte} {front rest : List Byte}

theorem skip_blanks_eq (h : ∀ k b, (front ++ rest)[k]? = some b → read k = b) :
    skip_blanks read front.length rest.length =
      front.length + (rest.takeWhile blank).length := by
  induction rest generalizing front with
  | nil => rfl
  | cons c rest ih =>
    have hc : read front.length = c := h _ _ (by simp)
    rw [List.length_cons, skip_blanks, hc, List.takeWhile_cons]
    cases hb : blank c with
    | true =>
      have hmove : ∀ k b, ((front ++ [c]) ++ rest)[k]? = some b → read k = b := by
        intro k b hk
        exact h k b (by simpa using hk)
      have hrest := ih hmove
      rw [List.length_append, List.length_singleton] at hrest
      rw [if_pos rfl, if_pos rfl, hrest, List.length_cons]
      omega
    | false => simp

theorem getElem?_of_prefix {l l' : List Byte} (hl : l <+: l') {i : ℕ} {b : Byte}
    (hi : l[i]? = some b) : l'[i]? = some b := by
  obtain ⟨t, rfl⟩ := hl
  exact (List.getElem?_append_left (List.getElem?_eq_some_iff.mp hi).1).trans hi

theorem drop_blanks_self (start : ℕ) : drop_blanks read start start = start := by
  cases start with
  | zero => rfl
  | succ start =>
    rw [drop_blanks, if_neg]
    exact fun h => absurd h.1 (lt_irrefl _)

theorem drop_blanks_eq (h : ∀ k b, (front ++ rest)[k]? = some b → read k = b) :
    drop_blanks read front.length (front.length + rest.length) =
      front.length + (rest.rdropWhile blank).length := by
  induction rest using List.reverseRecOn with
  | nil => exact drop_blanks_self _
  | append_singleton rest c ih =>
    have hc : read (front.length + rest.length) = c := h _ _ (by simp)
    rw [List.length_append, List.length_singleton, ← Nat.add_assoc, drop_blanks, hc,
      List.rdropWhile_concat]
    cases hb : blank c with
    | true =>
      rw [if_pos ⟨by omega, rfl⟩, if_pos rfl]
      refine ih fun k b hk => h k b ?_
      rw [← List.append_assoc]
      exact getElem?_of_prefix (List.prefix_append _ _) hk
    | false =>
      rw [if_neg (fun h => Bool.false_ne_true h.2), if_neg (by decide), List.length_append,
        List.length_singleton]
      omega

/-- **The line is the word** when what is left of it without its blanks is, in upper case. -/
theorem console_line_is_iff {mem : HostedMemory} {addr : BitVec 32} {n : Byte} {line : List Byte}
    (hn : n.toNat = line.length)
    (h : ∀ k b, (line)[k]? = some b → mem.read_byte (addr + BitVec.ofNat 32 k) = b)
    (word : List Byte) : console_line_is mem addr n word = true ↔ command_of line = word := by
  have hsplit := List.takeWhile_append_dropWhile (p := blank) (l := line)
  have hstart := @skip_blanks_eq (fun i => mem.read_byte (addr + BitVec.ofNat 32 i)) [] line
    (by simpa using h)
  rw [List.length_nil, Nat.zero_add] at hstart
  have hlast := @drop_blanks_eq (fun i => mem.read_byte (addr + BitVec.ofNat 32 i))
    (line.takeWhile blank) (line.dropWhile blank) (by rw [hsplit]; exact h)
  rw [← List.length_append, hsplit] at hlast
  unfold console_line_is command_of
  dsimp only
  rw [hn, hstart, hlast, Nat.add_sub_cancel_left]
  -- a byte of the trimmed line, where the loop reads it
  have hbyte : ∀ i b, ((line.dropWhile blank).rdropWhile blank)[i]? = some b →
      mem.read_byte (addr + BitVec.ofNat 32 ((line.takeWhile blank).length + i)) = b := by
    intro i b hi
    refine h _ b ?_
    have hprefix := getElem?_of_prefix (List.rdropWhile_prefix blank _) hi
    have happ := @List.getElem?_append_right _ (line.takeWhile blank) (line.dropWhile blank) _
      (Nat.le_add_right _ i)
    rw [hsplit, Nat.add_sub_cancel_left] at happ
    exact happ.trans hprefix
  generalize (line.dropWhile blank).rdropWhile blank = cmd at hbyte ⊢
  by_cases hlen : cmd.length = word.length
  · rw [if_neg (not_not.mpr hlen), List.all_eq_true]
    constructor
    · intro hall
      refine List.ext_getElem (by rw [List.length_map, hlen]) fun i hi hi' => ?_
      have hci : i < cmd.length := by
        rw [hlen]
        exact hi'
      have hget := hbyte i _ (List.getElem?_eq_getElem hci)
      have hword := of_decide_eq_true (hall i (List.mem_range.mpr hi'))
      rw [hget, List.getD_eq_getElem _ _ hi'] at hword
      rw [List.getElem_map]
      exact hword
    · rintro rfl i hi
      have hci : i < cmd.length := by
        rw [hlen]
        exact List.mem_range.mp hi
      have hget := hbyte i _ (List.getElem?_eq_getElem hci)
      refine decide_eq_true ?_
      rw [hget, List.getD_eq_getElem _ _ (List.mem_range.mp hi), List.getElem_map]
  · rw [if_pos hlen]
    refine iff_of_false Bool.false_ne_true fun heq => hlen ?_
    rw [← heq, List.length_map]

end command

/-! ## 6. `bdos_read_console_line` -/

/-- **A line as it is read**: the buffer holds it and its length, no other byte is changed, and the
machine halts where it should. -/
structure LineRead (base : BitVec 32) (m₀ : HostedMemory) (cap : ℕ) (con : Console)
    (r : LineState) : Prop where
  count : (r.mem.read_byte (base + 1)).toNat = (line_of cap con.input).length
  bytes : ∀ k b, (line_of cap con.input)[k]? = some b →
    r.mem.read_byte (base + BitVec.ofNat 32 (2 + k)) = b
  frame : ∀ c, (∀ i, 1 ≤ i → i < 2 + cap → c ≠ dmaAt m₀.map base i) → r.mem.m_data c = m₀.m_data c
  beyond : ∀ i, 2 + cap ≤ i → i < 65536 →
    r.mem.read_byte (base + BitVec.ofNat 32 i) = m₀.read_byte (base + BitVec.ofNat 32 i)
  halt : r.halt = true ↔ line_end con.input = none ∨
    command_of (line_of cap con.input) = EXIT ∨ command_of (line_of cap con.input) = QUIT

/-- **The console line**: for every console and every buffer, the function reads the line of its
input. -/
theorem bdos_read_console_line_spec (con : Console) {mem : HostedMemory}
    (hmap : mem.map.Reachable) (tag buf_off : BitVec 16) :
    LineRead (tagged tag buf_off) mem (max (mem.read_byte (tagged tag buf_off)).toNat 1) con
      (bdos_read_console_line con mem tag buf_off) := by
  unfold bdos_read_console_line
  dsimp only
  have hzero : tagged tag buf_off + 0 = tagged tag buf_off := BitVec.add_zero _
  rw [hzero]
  generalize tagged tag buf_off = base
  have hcap : (if mem.read_byte base = 0 then 1 else mem.read_byte base).toNat =
      max (mem.read_byte base).toNat 1 := by
    by_cases hz : mem.read_byte base = 0
    · rw [if_pos hz, hz]
      rfl
    · have hpos : (mem.read_byte base).toNat ≠ 0 := fun h => hz (BitVec.eq_of_toNat_eq h)
      rw [if_neg hz]
      omega
  generalize (if mem.read_byte base = 0 then 1 else mem.read_byte base) = maxlen at hcap
  generalize max (mem.read_byte base).toNat 1 = cap at hcap
  have hlt := maxlen.isLt
  have hinit : Edited base mem cap [] ⟨con.input, con.eof_flag, [], mem, 0, false⟩ :=
    ⟨rfl, Nat.zero_le _, rfl, fun k b hk => absurd hk (Option.some_ne_none b).symm, fun _ _ => rfl⟩
  obtain ⟨hedit, hhalt⟩ := line_loop_edited hmap hcap con.input con.ended hinit
  rw [Bool.false_or] at hhalt
  generalize line_loop base maxlen con.input ⟨con.input, con.eof_flag, [], mem, 0, false⟩ = s
    at hedit hhalt
  change Edited base mem cap (line_of cap con.input) s at hedit
  -- the buffer once the length is stored
  have hone : (1 : BitVec 32) = BitVec.ofNat 32 1 := rfl
  have htwo : (2 : BitVec 32) = BitVec.ofNat 32 2 := rfl
  have hdata : (s.mem.write_byte (base + 1) s.n).m_data =
      Function.update s.mem.m_data (dmaAt mem.map base 1) s.n := by
    rw [HostedMemory.write_byte, hedit.map, hone]
    rfl
  have hread : ∀ i, (s.mem.write_byte (base + 1) s.n).read_byte (base + BitVec.ofNat 32 i) =
      (s.mem.write_byte (base + 1) s.n).m_data (dmaAt mem.map base i) := by
    intro i
    rw [HostedMemory.read_byte, HostedMemory.write_byte_map, hedit.map]
    rfl
  have hbytes : ∀ k b, (line_of cap con.input)[k]? = some b →
      (s.mem.write_byte (base + 1) s.n).read_byte (base + BitVec.ofNat 32 (2 + k)) = b := by
    intro k b hk
    have hkl := (List.getElem?_eq_some_iff.mp hk).1
    have hle := hedit.le
    rw [hread, hdata, Function.update_of_ne, hedit.bytes k b hk]
    intro heq
    have hpos := dmaAt_inj hmap (by omega) (by omega) heq
    omega
  have hword : ∀ word, console_line_is (s.mem.write_byte (base + 1) s.n) (base + 2) s.n word =
      true ↔ command_of (line_of cap con.input) = word := by
    refine console_line_is_iff hedit.count fun k b hk => ?_
    rw [htwo, BitVec.add_assoc, ← BitVec.ofNat_add]
    exact hbytes k b hk
  have hframe : ∀ c, (∀ i, 1 ≤ i → i < 2 + cap → c ≠ dmaAt mem.map base i) →
      (s.mem.write_byte (base + 1) s.n).m_data c = mem.m_data c := by
    intro c hc
    rw [hdata, Function.update_of_ne (hc 1 le_rfl (by omega))]
    exact hedit.frame c fun k hk => hc (2 + k) (by omega) (by omega)
  have hbuffer : ∀ halt : Bool, (halt = true ↔ line_end con.input = none ∨
      command_of (line_of cap con.input) = EXIT ∨ command_of (line_of cap con.input) = QUIT) →
      LineRead base mem cap con
        { s with mem := s.mem.write_byte (base + 1) s.n, halt := halt } := by
    intro halt hh
    refine ⟨?_, hbytes, hframe, fun i hi hi' => ?_, hh⟩
    · have hn := hread 1
      rw [hdata, Function.update_self] at hn
      rw [← hedit.count]
      exact congrArg BitVec.toNat hn
    · rw [hread]
      refine hframe _ fun j hj hj' heq => ?_
      have hij := dmaAt_inj hmap hi' (by omega) heq
      omega
  split_ifs with hexit
  · refine hbuffer true (iff_of_true rfl (.inr ?_))
    rw [Bool.or_eq_true, hword, hword] at hexit
    exact hexit
  · refine hbuffer s.halt ?_
    rw [Bool.or_eq_true, hword, hword] at hexit
    rw [hhalt, decide_eq_true_eq]
    exact ⟨Or.inl, fun h => h.resolve_right hexit⟩

/-- A line that is typed with a slip and ends the session. -/
theorem bdos_read_console_line_exit :
    LineRead (tagged 0 0x100) ⟨.z8002 Z8002Memory.initial, fun _ => 8⟩ (max (8 : Byte).toNat 1)
      ⟨[0x65, 0x78, 0x69, 0x73, 0x08, 0x74, 0x0d], false, by decide⟩
      (bdos_read_console_line ⟨[0x65, 0x78, 0x69, 0x73, 0x08, 0x74, 0x0d], false, by decide⟩
        ⟨.z8002 Z8002Memory.initial, fun _ => 8⟩ 0 0x100) :=
  bdos_read_console_line_spec _ .z8002 0 0x100

example : (bdos_read_console_line ⟨[0x65, 0x78, 0x69, 0x73, 0x08, 0x74, 0x0d], false, by decide⟩
    ⟨.z8002 Z8002Memory.initial, fun _ => 8⟩ 0 0x100).halt = true := by decide +kernel

end Cpm8000.Host
