/-
# The object file and its buffer

The words of the object file are changed in a buffer of one block. `content` is what the file would
hold if the buffer were written: changing blocks and writing them keep it, and a word that is changed in
the buffer is changed there and nowhere else.
-/
import Cpm8000.Linker.Pass2

namespace Cpm8000.Linker

open Sys

namespace P2

variable {s : P2} {p a : ℕ}

/-! ## 1. The block in the buffer -/

/-- **The buffer.** There is a block of the file in it, as long as the file has it, or none; and a block
that has not been changed is the file's. -/
structure Buffered (s : P2) : Prop where
  none : s.bpos = 1 → s.dirty = false
  block : s.bpos ≠ 1 → s.bpos % 512 = 0 ∧ s.blen = min 512 (s.objlen - s.bpos)
  clean : s.bpos ≠ 1 → s.dirty = false → ∀ a < s.blen, s.buf a = s.objfile (s.bpos + a)

/-- Byte `a` of the file is in the buffer. -/
def InBlock (s : P2) (a : ℕ) : Prop := s.bpos ≠ 1 ∧ s.bpos ≤ a ∧ a < s.bpos + s.blen

instance (s : P2) (a : ℕ) : Decidable (s.InBlock a) := inferInstanceAs (Decidable (_ ∧ _))

/-- What the file holds once the buffer is written. -/
def content (s : P2) (a : ℕ) : Byte := if s.InBlock a then s.buf (a - s.bpos) else s.objfile a

theorem content_of_in (h : s.InBlock a) : s.content a = s.buf (a - s.bpos) := if_pos h

theorem content_of_not_in (h : ¬ s.InBlock a) : s.content a = s.objfile a := if_neg h

theorem content_of_not_dirty (hs : s.Buffered) (hd : s.dirty = false) : s.content a = s.objfile a := by
  by_cases ha : s.InBlock a
  · obtain ⟨hne, hle, hlt⟩ := ha
    rw [content_of_in ⟨hne, hle, hlt⟩, hs.clean hne hd _ (by omega), Nat.add_sub_cancel' hle]
  · exact content_of_not_in ha

theorem flshbuf_dirty (s : P2) : s.flshbuf.dirty = false := by
  unfold flshbuf
  split_ifs with h
  · rfl
  · exact Bool.not_eq_true _ ▸ h

theorem flshbuf_objfile (hs : s.Buffered) : s.flshbuf.objfile = s.content := by
  funext a
  unfold flshbuf
  split_ifs with hd
  · have hne : s.bpos ≠ 1 := by
      intro h
      rw [hs.none h] at hd
      cases hd
    unfold write
    dsimp only
    rw [List.length_map, List.length_range]
    by_cases ha : s.bpos ≤ a ∧ a < s.bpos + s.blen
    · rw [if_pos ha, content_of_in ⟨hne, ha⟩, List.getD_eq_getElem?_getD, List.getElem?_map,
        List.getElem?_range (by omega)]
      rfl
    · rw [if_neg ha, content_of_not_in fun h => ha h.2]
  · exact (content_of_not_dirty hs (Bool.not_eq_true _ ▸ hd)).symm

theorem flshbuf_objlen (hs : s.Buffered) : s.flshbuf.objlen = s.objlen := by
  unfold flshbuf
  split_ifs with hd
  · have hne : s.bpos ≠ 1 := by
      intro h
      rw [hs.none h] at hd
      cases hd
    obtain ⟨-, hlen⟩ := hs.block hne
    unfold write
    dsimp only
    rw [List.length_map, List.length_range]
    split_ifs with hempty
    · rfl
    · have hpos : s.blen ≠ 0 := by
        intro h
        rw [h] at hempty
        exact hempty rfl
      omega
  · rfl

theorem Buffered.flshbuf (hs : s.Buffered) : s.flshbuf.Buffered := by
  unfold P2.flshbuf
  split_ifs
  · exact ⟨fun _ => rfl, fun h => absurd rfl h, fun h => absurd rfl h⟩
  · exact hs

/-- Without a changed block the file is what it holds. -/
theorem content_flshbuf (hs : s.Buffered) : s.flshbuf.content = s.content := by
  rw [← flshbuf_objfile hs]
  funext a
  exact content_of_not_dirty hs.flshbuf (flshbuf_dirty s)

/-- Another block is fetched. -/
theorem getbuf_spec (hs : s.Buffered) (p : ℕ) : (s.getbuf p).Buffered ∧
    (s.getbuf p).content = s.content ∧ (s.getbuf p).objlen = s.objlen ∧
      (s.getbuf p).bpos = p / 512 * 512 := by
  have hne : p / 512 * 512 ≠ 1 := by omega
  unfold getbuf
  dsimp only
  split_ifs with h
  · have hlen := flshbuf_objlen hs
    have hdirty := flshbuf_dirty s
    have hcontent : ∀ a, s.content a = s.flshbuf.objfile a := by
      intro a
      rw [flshbuf_objfile hs]
    generalize s.flshbuf = u at hlen hdirty hcontent ⊢
    have hb : ({ u with
        bpos := p / 512 * 512
        blen := min 512 (u.objlen - p / 512 * 512)
        buf := fun a => if a < min 512 (u.objlen - p / 512 * 512) then u.objfile (p / 512 * 512 + a)
          else u.buf a } : P2).Buffered := by
      refine ⟨fun h => absurd h hne, fun _ => ⟨Nat.mul_mod_left _ _, rfl⟩, fun _ _ a ha => ?_⟩
      exact if_pos ha
    refine ⟨hb, ?_, hlen, rfl⟩
    funext a
    rw [content_of_not_dirty hb hdirty]
    exact (hcontent a).symm
  · exact ⟨hs, rfl, rfl, not_not.mp h⟩

/-! ## 2. Words -/

/-- The word at `p` of some bytes. -/
def word_in (f : ℕ → Byte) (p : ℕ) : BitVec 16 := f p ++ f (p + 1)

/-- The word at `p` is in the file, and in one block. -/
def Whole (s : P2) (p : ℕ) : Prop := p % 512 ≠ 511 ∧ p + 2 ≤ s.objlen

theorem set_word_buffered (hs : s.Buffered) (hp : s.bpos = p / 512 * 512) (w : BitVec 16) :
    (s.set_word (p % 512) w).Buffered := by
  have hne : s.bpos ≠ 1 := by omega
  exact ⟨fun h => absurd h hne, fun _ => hs.block hne, fun _ h => by cases h⟩

/-- **A word is changed**, and nothing else. -/
theorem set_word_other (hp : s.bpos = p / 512 * 512) (w : BitVec 16) (ha : a ≠ p)
    (ha' : a ≠ p + 1) : (s.set_word (p % 512) w).content a = s.content a := by
  by_cases hin : s.InBlock a
  · have hat : (s.set_word (p % 512) w).content a = (s.set_word (p % 512) w).buf (a - s.bpos) :=
      content_of_in hin
    have hle := hin.2.1
    rw [hat, content_of_in hin, set_word]
    dsimp only
    rw [Function.update_of_ne (by omega), Function.update_of_ne (by omega)]
  · rw [content_of_not_in hin]
    exact content_of_not_in hin

theorem in_block (hs : s.Buffered) (hp : s.bpos = p / 512 * 512) (h : s.Whole p) :
    s.InBlock p ∧ s.InBlock (p + 1) ∧ p - s.bpos = p % 512 ∧ p + 1 - s.bpos = p % 512 + 1 := by
  have hne : s.bpos ≠ 1 := by omega
  obtain ⟨-, hblen⟩ := hs.block hne
  obtain ⟨hj, hlen⟩ := h
  exact ⟨⟨hne, by omega, by omega⟩, ⟨hne, by omega, by omega⟩, by omega, by omega⟩

theorem set_word_at (hs : s.Buffered) (hp : s.bpos = p / 512 * 512) (h : s.Whole p) (w : BitVec 16) :
    word_in (s.set_word (p % 512) w).content p = w := by
  obtain ⟨hfirst, hsecond, hat, hat'⟩ := in_block hs hp h
  have hcontent : (s.set_word (p % 512) w).content p = w.extractLsb' 8 8 := by
    have hread : (s.set_word (p % 512) w).content p = (s.set_word (p % 512) w).buf (p - s.bpos) :=
      content_of_in hfirst
    rw [hread, hat, set_word]
    dsimp only
    rw [Function.update_of_ne (by omega), Function.update_self]
  have hcontent' : (s.set_word (p % 512) w).content (p + 1) = w.extractLsb' 0 8 := by
    have hread : (s.set_word (p % 512) w).content (p + 1) =
        (s.set_word (p % 512) w).buf (p + 1 - s.bpos) := content_of_in hsecond
    rw [hread, hat', set_word]
    exact Function.update_self ..
  rw [word_in, hcontent, hcontent']
  exact (BitVec.extractLsb'_append_extractLsb'_eq_extractLsb' rfl).trans BitVec.extractLsb'_eq_self

/-- The word in the buffer is the one in the file. -/
theorem word_eq (hs : s.Buffered) (hp : s.bpos = p / 512 * 512) (h : s.Whole p) :
    s.word (p % 512) = word_in s.content p := by
  obtain ⟨hfirst, hsecond, hat, hat'⟩ := in_block hs hp h
  rw [word_in, content_of_in hfirst, content_of_in hsecond, hat, hat', word]

end P2

end Cpm8000.Linker
