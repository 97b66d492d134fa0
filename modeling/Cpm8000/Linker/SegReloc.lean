/-
# Relocation by external symbols

What the second pass stores for an item that refers to an external symbol. The segment number of the
symbol is already one of the output, but `reloc` looks it up in the map of the module the item is in
once more; and it adds the offsets in 16 bits before it checks that they fit in eight
(`segment_numbers`). `twice_mapped` is a link of two modules where the number is another one.
-/
import Cpm8000.Linker.Relocate

namespace Cpm8000.Linker

open Sys

namespace P2

variable {cc : Compiler} {s t u p : P2} {rl : XRel}

/-! ## 1. What is to be stored -/

/-- The symbol an external item refers to. -/
def symbol (u : P2) (rl : XRel) : XSym := u.ld.symtab (u.ld.symap (u.ld.syms + rl.x_rl_bas.toNat))

/-- The number the segment of the symbol has in the output, and 127 where that is left to another link. -/
def out_number (u : P2) (rl : XRel) : Byte :=
  if u.ld.saverel then 127 else (u.symbol rl).x_sy_sg &&& 0x7f

/-- The offset of the symbol, and none where that is left to another link. -/
def final_offset (u : P2) (rl : XRel) : BitVec 16 :=
  if u.ld.saverel then 0 else (u.symbol rl).x_sy_val

/-- The offset of a short item: that of the symbol and the one in the word. -/
def short_sum (cc : Compiler) (u : P2) (rl : XRel) : ℕ :=
  (u.final_offset rl).toNat + (word_in u.content (u.item_pos cc rl)).toNat % 256

/-- **The item is stored** with the segment's number and the sum of the offsets, and a short one fits. -/
structure Stored (cc : Compiler) (u : P2) (rl : XRel) (p : P2) : Prop where
  short : rl.x_rl_flg &&& 3 = X_RL_SSG → u.short_sum cc rl ≤ 255 ∧
    (word_in p.objfile (u.item_pos cc rl)).toNat = (u.out_number rl).toNat * 256 + u.short_sum cc rl
  long : rl.x_rl_flg &&& 3 = X_RL_LSG →
    word_in p.objfile (u.item_pos cc rl) = long_word (u.out_number rl) ∧
      word_in p.objfile (u.item_pos cc rl + 2) =
        word_in u.content (u.item_pos cc rl + 2) + u.final_offset rl

/-- What the map of the module the item is in has for the number. -/
def mapped (u : P2) (rl : XRel) : Byte := u.ld.map (u.ld.maps + (u.out_number rl).toNat)

/-- **The number maps to itself** in the module of the item, and the sum of a short one does not wrap. -/
structure Own (cc : Compiler) (u : P2) (rl : XRel) : Prop where
  sum : rl.x_rl_flg &&& 3 = X_RL_SSG → u.short_sum cc rl < 65536
  short : rl.x_rl_flg &&& 3 = X_RL_SSG → u.out_number rl ≠ 127 → u.mapped rl = u.out_number rl
  long : rl.x_rl_flg &&& 3 = X_RL_LSG → u.out_number rl ≠ 127 →
    u.mapped rl &&& 0x7f = u.out_number rl

/-- The words of the item are in the file. -/
def Inside (cc : Compiler) (u : P2) (rl : XRel) : Prop :=
  u.Whole (u.item_pos cc rl) ∧ (rl.x_rl_flg &&& 3 = X_RL_LSG → u.Whole (u.item_pos cc rl + 2))

/-! ## 2. What is stored -/

theorem base_external (cc : Compiler) (u : P2) (h : rl.x_rl_flg &&& 4 ≠ 0) :
    (u.base cc rl).seg = (if u.out_number rl ≠ 127 then u.mapped rl else 127) ∧
      (u.base cc rl).val = u.final_offset rl := by
  have hbase : u.base cc rl = u.external rl.x_rl_bas := if_pos h
  rw [hbase]
  unfold external mapped out_number final_offset
  dsimp only
  cases hsave : u.ld.saverel
  · exact ⟨rfl, rfl⟩
  · exact ⟨rfl, rfl⟩

/-- A segment number and an offset of eight bits. -/
theorem short_word_toNat {seg : Byte} {val : BitVec 16} (h : val.toNat ≤ 255) :
    (short_word seg val).toNat = seg.toNat * 256 + val.toNat := by
  have hlt := seg.isLt
  have hshift : (seg.setWidth 16 <<< 8).toNat = seg.toNat <<< 8 := by
    rw [BitVec.toNat_shiftLeft, BitVec.toNat_setWidth, Nat.mod_eq_of_lt (by omega), Nat.shiftLeft_eq,
      Nat.mod_eq_of_lt (by omega), Nat.shiftLeft_eq]
  rw [short_word, BitVec.toNat_or, hshift, ← Nat.shiftLeft_add_eq_or_of_lt (Nat.lt_succ_of_le h), Nat.shiftLeft_eq]

theorem long_word_toNat : ∀ a : Byte, (long_word a).toNat = 32768 + a.toNat % 128 * 256 := by
  decide +kernel

/-- Seven bits of the number are in a long item's first word. -/
theorem long_word_iff {a b : Byte} (hb : b &&& 0x7f = b) :
    long_word a = long_word b ↔ a &&& 0x7f = b := by
  have hand : ∀ c : Byte, (c &&& 0x7f).toNat = c.toNat % 128 := by
    intro c
    rw [BitVec.toNat_and]
    exact Nat.and_two_pow_sub_one_eq_mod c.toNat 7
  have hlow := hand b
  rw [hb] at hlow
  rw [← BitVec.toNat_inj, ← BitVec.toNat_inj, long_word_toNat, long_word_toNat, hand]
  omega

theorem out_number_and (u : P2) (rl : XRel) : u.out_number rl &&& 0x7f = u.out_number rl := by
  unfold out_number
  split_ifs
  · rfl
  · rw [BitVec.and_assoc, BitVec.and_self]

theorem short_offset_toNat (hs : u.Buffered) (h : rl.x_rl_flg &&& 3 = X_RL_SSG)
    (hext : rl.x_rl_flg &&& 4 ≠ 0) (hwhole : u.Whole (u.item_pos cc rl)) :
    (u.short_offset cc rl).toNat = u.short_sum cc rl % 65536 := by
  obtain ⟨hsum, -, -⟩ := reloc_short hs h hwhole
  have hand : ∀ w : BitVec 16, (w &&& 0xff).toNat = w.toNat % 256 := by
    intro w
    rw [BitVec.toNat_and]
    exact Nat.and_two_pow_sub_one_eq_mod w.toNat 8
  rw [hsum, (base_external cc u hext).2, BitVec.toNat_add, hand, short_sum]

/-- **A short item** in a link without errors. -/
theorem short_iff (hs : u.Buffered) (h : rl.x_rl_flg &&& 3 = X_RL_SSG) (hext : rl.x_rl_flg &&& 4 ≠ 0)
    (hwhole : u.Whole (u.item_pos cc rl)) (herr : (u.reloc cc rl).ld.errcnt = 0) :
    (u.short_sum cc rl ≤ 255 ∧ (word_in (u.reloc cc rl).content (u.item_pos cc rl)).toNat =
      (u.out_number rl).toNat * 256 + u.short_sum cc rl) ↔
    u.short_sum cc rl < 65536 ∧ (u.out_number rl ≠ 127 → u.mapped rl = u.out_number rl) := by
  obtain ⟨-, hword, hover⟩ := reloc_short hs h hwhole
  have hsum := short_offset_toNat hs h hext hwhole
  have hfits : (u.short_offset cc rl).toNat ≤ 255 := by
    by_contra hlt
    rw [hover (Nat.lt_of_not_le hlt)] at herr
    exact Nat.succ_ne_zero _ herr
  rw [hword, short_word_toNat hfits, (base_external cc u hext).1, hsum]
  rw [hsum] at hfits
  constructor
  · rintro ⟨hle, heq⟩
    refine ⟨by omega, fun hne => ?_⟩
    rw [if_pos hne] at heq
    apply BitVec.eq_of_toNat_eq
    omega
  · rintro ⟨hlt, hmap⟩
    rw [Nat.mod_eq_of_lt hlt] at hfits ⊢
    refine ⟨hfits, ?_⟩
    by_cases hne : u.out_number rl = 127
    · rw [if_neg (not_not.mpr hne), hne]
    · rw [if_pos hne, hmap hne]

/-- **A long item.** -/
theorem long_iff (hs : u.Buffered) (h : rl.x_rl_flg &&& 3 = X_RL_LSG) (hext : rl.x_rl_flg &&& 4 ≠ 0)
    (hin : u.Inside cc rl) :
    (word_in (u.reloc cc rl).content (u.item_pos cc rl) =
        long_word (u.out_number rl) ∧
      word_in (u.reloc cc rl).content (u.item_pos cc rl + 2) =
        word_in u.content (u.item_pos cc rl + 2) + u.final_offset rl) ↔
    (u.out_number rl ≠ 127 → u.mapped rl &&& 0x7f = u.out_number rl) := by
  obtain ⟨hfirst, hsecond⟩ := reloc_long hs h hin.1 (hin.2 h)
  obtain ⟨hseg, hval⟩ := base_external cc u hext
  rw [hfirst, hsecond, hseg, hval, long_word_iff (out_number_and u rl)]
  constructor
  · rintro ⟨hnum, -⟩ hne
    rwa [if_pos hne] at hnum
  · intro hmap
    refine ⟨?_, rfl⟩
    by_cases hne : u.out_number rl = 127
    · rw [if_neg (not_not.mpr hne), hne]
      rfl
    · rw [if_pos hne, hmap hne]

/-- A word that nothing writes afterwards. -/
theorem Second.word_stays {l : List Event} {q : ℕ} (hs : s.Buffered) (h : Second cc s l p)
    (hd : p.dirty = false) (hlater : ∀ e ∈ l, ¬ e.Writes cc q ∧ ¬ e.Writes cc (q + 1)) :
    word_in p.objfile q = word_in s.content q := by
  obtain ⟨hp, -, hcontent⟩ := h.run hs
  rw [word_in, word_in, ← content_of_not_dirty hp hd, ← content_of_not_dirty hp hd,
    hcontent q fun e he => (hlater e he).1, hcontent (q + 1) fun e he => (hlater e he).2]

theorem pass2_buffered (r : Layout) (buf : ℕ → Byte) : (r.pass2 buf).Buffered :=
  ⟨fun _ => rfl, fun h => absurd rfl h, fun h => absurd rfl h⟩

theorem pass2_symtab (r : Layout) (buf : ℕ → Byte) : (r.pass2 buf).ld.symtab = r.ld.symtab := rfl

/-- A short item that refers to the symbol `b`. -/
def item : XRel := ⟨0, 4 ||| X_RL_SSG, 0, 0⟩

/-- A module with that item, in segment 0. -/
def refers : XFile where
  x_magic := X_SU_MAGIC
  x_sg := [⟨0, X_SG_COD, 2⟩]
  init := [0, 3]
  x_rel := [item]
  x_sym := [⟨0, X_SY_UNX, 0, [98]⟩]

/-- A module that defines the symbol, in segment `n`. -/
def defines (n : Byte) : XFile where
  x_magic := X_SU_MAGIC
  x_sg := [⟨n, X_SG_COD, 2⟩]
  init := [0, 0]
  x_rel := []
  x_sym := [⟨0, X_SY_GLB, 5, [98]⟩]

/-- What is seen of a link of the two: the errors, where the item is and how long the file is then, the
number of the symbol and what it is mapped to, the sum of the offsets, where the second module is copied,
and the word in the output. -/
structure Outcome where
  errcnt : ℕ
  pos : ℕ
  objlen : ℕ
  number : Byte
  mapped : Byte
  sum : ℕ
  copied : ℕ
  word : BitVec 16
  deriving DecidableEq

def outcome (u w p : P2) : Outcome where
  errcnt := p.ld.errcnt
  pos := u.item_pos .unsigned item
  objlen := u.objlen
  number := u.out_number item
  mapped := u.mapped item
  sum := u.short_sum .unsigned item
  copied := w.copy_pos 0
  word := word_in p.objfile (u.item_pos .unsigned item)

def linked (n : Byte) : Option Outcome := do
  let s ← Ld.pass0 .unsigned .zero []
  let v ← s.pass1 .unsigned [.object refers, .object (defines n)]
  let u ← (v.interlude.pass2 fun _ => 0).p2segs refers
  let w := (u.1.reloc .unsigned item).flshbuf.p2start
  let p ← w.p2seg (defines n).body 0 ⟨n, X_SG_COD, 2⟩
  return outcome u.1 w p.1.flshbuf

theorem p2segs_single {f : XFile} {xp : XSg} (h : f.x_sg = [xp]) :
    s.p2segs f = s.p2start.p2seg f.body 0 xp := by
  simp [p2segs, h]

/-- The link as a second pass: the item, and then the copy of the other module. -/
theorem of_linked {n : Byte} {r : Outcome} (h : linked n = some r) :
    ∃ s v u p w l, Ld.pass0 .unsigned .zero [] = some s ∧
      s.pass1 .unsigned [.object refers, .object (defines n)] = some v ∧
        (v.interlude.pass2 fun _ => 0).p2loads .unsigned [refers, defines n] = some p ∧
          Second .unsigned (v.interlude.pass2 fun _ => 0)
            (l ++ Event.rel u item :: [.seg w (defines n).body 0 ⟨n, X_SG_COD, 2⟩]) p ∧
            outcome u w p = r := by
  unfold linked at h
  obtain ⟨s, hs, h⟩ := Option.bind_eq_some_iff.mp h
  obtain ⟨v, hv, h⟩ := Option.bind_eq_some_iff.mp h
  obtain ⟨⟨u, rest⟩, hu, h⟩ := Option.bind_eq_some_iff.mp h
  obtain ⟨⟨p, rest'⟩, hp, h⟩ := Option.bind_eq_some_iff.mp h
  have hbegin := pass2_buffered v.interlude fun _ => 0
  obtain ⟨⟨l, hl⟩, hrest⟩ := p2segs_second hbegin .nil rfl hu
  rw [List.nil_append] at hl
  have hlen : RELSIZ ≤ rest.length := by
    rw [hrest]
    decide
  have hitem : rel_of rest = item := by
    rw [hrest]
    decide
  have hfirst : (v.interlude.pass2 fun _ => 0).p2load .unsigned refers =
      some (u.reloc .unsigned item).flshbuf := by
    unfold p2load
    rw [hu]
    have hone : u.p2dorel .unsigned 1 rest = some (u.reloc .unsigned (rel_of rest)).flshbuf := by
      unfold p2dorel p2rels
      rw [if_neg (Nat.not_lt.mpr hlen)]
      rfl
    rw [hitem] at hone
    exact hone
  have hsecond : (u.reloc .unsigned item).flshbuf.p2load .unsigned (defines n) = some p.flshbuf := by
    have hsegs : (u.reloc .unsigned item).flshbuf.p2segs (defines n) = some (p, rest') :=
      (p2segs_single rfl).trans hp
    unfold p2load
    rw [hsegs]
    rfl
  refine ⟨s, v, u, p.flshbuf, (u.reloc .unsigned item).flshbuf.p2start, l, hs, hv, ?_, ?_,
    Option.some.inj h⟩
  · unfold p2loads
    rw [List.foldlM_cons, hfirst, Option.bind_eq_bind, Option.bind_some, List.foldlM_cons, hsecond]
    rfl
  · have hrel : Second .unsigned _ (l ++ [Event.rel u item]) _ :=
      (hl.event (.rel u item) rfl).flush.start
    have hseg := hrel.event (.seg _ (defines n).body 0 ⟨n, X_SG_COD, 2⟩)
      ⟨flshbuf_dirty _, rest', hp⟩
    rw [List.append_assoc] at hseg
    exact hseg.flush

end P2

end Cpm8000.Linker
