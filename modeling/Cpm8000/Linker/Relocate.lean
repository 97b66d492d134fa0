/-
# Relocation in the second pass

What an item of each kind changes in the object file, and what it leaves alone; and the second pass as the
list of the segments that are copied and the items that are relocated (`Second`), over which a byte stays
as it is until something writes it.
-/
import Cpm8000.Linker.Buffer
import Cpm8000.Linker.Positions

namespace Cpm8000.Linker

open Sys

/-- How many bytes an item changes. -/
def XRel.width (rl : XRel) : ℕ :=
  if rl.x_rl_flg &&& 3 = X_RL_OFF ∨ rl.x_rl_flg &&& 3 = X_RL_SSG then 2
  else if rl.x_rl_flg &&& 3 = X_RL_LSG then 4
  else 0

/-- A module whose initialised part is as long as its segments say. -/
def XFile.Filled (f : XFile) : Prop := f.init.length = (f.x_sg.map P2.copied).sum

namespace P2

variable {cc : Compiler} {s t u : P2} {rl : XRel} {p : ℕ}

/-! ## 1. One item -/

/-- Where the item is. -/
def item_pos (cc : Compiler) (s : P2) (rl : XRel) : ℕ :=
  s.segpos (cc.int_of_char rl.x_rl_sgn) + rl.x_rl_loc.toNat

/-- The block of the item is in the buffer. -/
def fetched (cc : Compiler) (s : P2) (rl : XRel) : P2 :=
  { (s.putrel cc rl (s.base cc rl).bas).getbuf (s.item_pos cc rl) with dirty := true }

/-- An item that is kept changes nothing of the file. -/
theorem putrel_buffer (cc : Compiler) (hs : s.Buffered) (rl : XRel) (bas : BitVec 16) :
    (s.putrel cc rl bas).Buffered ∧ (s.putrel cc rl bas).content = s.content ∧
      (s.putrel cc rl bas).objlen = s.objlen := by
  unfold putrel
  dsimp only
  split_ifs
  · exact ⟨⟨hs.none, hs.block, hs.clean⟩, rfl, rfl⟩
  · exact ⟨hs, rfl, rfl⟩

theorem fetched_spec (cc : Compiler) (hs : s.Buffered) (rl : XRel) : (s.fetched cc rl).Buffered ∧
    (s.fetched cc rl).content = s.content ∧ (s.fetched cc rl).objlen = s.objlen ∧
      (s.fetched cc rl).bpos = s.item_pos cc rl / 512 * 512 ∧ (s.fetched cc rl).ld = s.ld := by
  obtain ⟨hput, hputc, hputl⟩ := putrel_buffer cc hs rl (s.base cc rl).bas
  have hld := putrel_ld cc s rl (s.base cc rl).bas
  unfold fetched
  generalize s.putrel cc rl (s.base cc rl).bas = u at hput hputc hputl hld ⊢
  obtain ⟨hget, hgetc, hgetl, hbpos⟩ := getbuf_spec hput (s.item_pos cc rl)
  have hne : (u.getbuf (s.item_pos cc rl)).bpos ≠ 1 := by omega
  refine ⟨⟨fun h => absurd h hne, hget.block, fun _ h => by cases h⟩, hgetc.trans hputc,
    hgetl.trans hputl, hbpos, ?_⟩
  rw [← hld]
  exact getbuf_ld u _

theorem reloc_off (h : rl.x_rl_flg &&& 3 = X_RL_OFF) : s.reloc cc rl =
    (s.fetched cc rl).set_word (s.item_pos cc rl % 512)
      ((s.fetched cc rl).word (s.item_pos cc rl % 512) + (s.base cc rl).val) := if_pos h

/-- The offset a short item would have. -/
def short_offset (cc : Compiler) (s : P2) (rl : XRel) : BitVec 16 :=
  (s.base cc rl).val + ((s.fetched cc rl).word (s.item_pos cc rl % 512) &&& 0xff)

/-- After the check of a short item. -/
def checked (cc : Compiler) (s : P2) (rl : XRel) : P2 :=
  if 255 < (s.short_offset cc rl).toNat then { s.fetched cc rl with ld := (s.fetched cc rl).ld.err }
  else s.fetched cc rl

theorem reloc_ssg (h : rl.x_rl_flg &&& 3 = X_RL_SSG) : s.reloc cc rl =
    (s.checked cc rl).set_word (s.item_pos cc rl % 512)
      (short_word (s.base cc rl).seg (s.short_offset cc rl)) := by
  have hoff : rl.x_rl_flg &&& 3 ≠ X_RL_OFF := by
    rw [h]
    decide
  exact (if_neg hoff).trans (if_pos h)

theorem reloc_lsg (h : rl.x_rl_flg &&& 3 = X_RL_LSG) : s.reloc cc rl =
    let w := ((s.fetched cc rl).set_word (s.item_pos cc rl % 512)
      (long_word (s.base cc rl).seg)).getbuf (s.item_pos cc rl + 2)
    w.set_word ((s.item_pos cc rl + 2) % 512)
      (w.word ((s.item_pos cc rl + 2) % 512) + (s.base cc rl).val) := by
  have hoff : rl.x_rl_flg &&& 3 ≠ X_RL_OFF := by
    rw [h]
    decide
  have hssg : rl.x_rl_flg &&& 3 ≠ X_RL_SSG := by
    rw [h]
    decide
  exact (if_neg hoff).trans ((if_neg hssg).trans (if_pos h))

theorem reloc_none (hoff : rl.x_rl_flg &&& 3 ≠ X_RL_OFF) (hssg : rl.x_rl_flg &&& 3 ≠ X_RL_SSG)
    (hlsg : rl.x_rl_flg &&& 3 ≠ X_RL_LSG) : s.reloc cc rl = s.fetched cc rl :=
  (if_neg hoff).trans ((if_neg hssg).trans (if_neg hlsg))

theorem checked_spec (cc : Compiler) (hs : s.Buffered) (rl : XRel) : (s.checked cc rl).Buffered ∧
    (s.checked cc rl).content = s.content ∧ (s.checked cc rl).objlen = s.objlen ∧
      (s.checked cc rl).bpos = s.item_pos cc rl / 512 * 512 := by
  obtain ⟨hf, hcontent, hlen, hbpos, -⟩ := fetched_spec cc hs rl
  unfold checked
  split_ifs
  · exact ⟨⟨hf.none, hf.block, hf.clean⟩, hcontent, hlen, hbpos⟩
  · exact ⟨hf, hcontent, hlen, hbpos⟩

/-- **What an item leaves alone.** -/
structure Frame (pos width : ℕ) (s t : P2) : Prop where
  buffered : t.Buffered
  objlen : t.objlen = s.objlen
  content : ∀ a, ¬ (pos ≤ a ∧ a < pos + width) → t.content a = s.content a

/-- A word of the block in the buffer is changed. -/
theorem Frame.set_word {pos width : ℕ} (hf : Frame pos width s t) (hp : t.bpos = p / 512 * 512)
    (hle : pos ≤ p) (hlt : p + 2 ≤ pos + width) (w : BitVec 16) :
    Frame pos width s (t.set_word (p % 512) w) := by
  refine ⟨set_word_buffered hf.buffered hp w, hf.objlen, fun a ha => ?_⟩
  rw [set_word_other hp w (by omega) (by omega)]
  exact hf.content a ha

/-- **What an item leaves alone.** -/
theorem reloc_frame (cc : Compiler) (hs : s.Buffered) (rl : XRel) :
    Frame (s.item_pos cc rl) rl.width s (s.reloc cc rl) := by
  obtain ⟨hfetched, hfcontent, hflen, hfbpos, -⟩ := fetched_spec cc hs rl
  have hframe : ∀ width, Frame (s.item_pos cc rl) width s (s.fetched cc rl) := by
    intro width
    exact ⟨hfetched, hflen, fun a _ => congrFun hfcontent a⟩
  by_cases hoff : rl.x_rl_flg &&& 3 = X_RL_OFF
  · have hwidth : rl.width = 2 := if_pos (.inl hoff)
    rw [reloc_off hoff, hwidth]
    exact (hframe 2).set_word hfbpos (le_refl _) (le_refl _) _
  by_cases hssg : rl.x_rl_flg &&& 3 = X_RL_SSG
  · have hwidth : rl.width = 2 := if_pos (.inr hssg)
    obtain ⟨hchecked, hccontent, hclen, hcbpos⟩ := checked_spec cc hs rl
    have hcframe : Frame (s.item_pos cc rl) 2 s (s.checked cc rl) :=
      ⟨hchecked, hclen, fun a _ => congrFun hccontent a⟩
    rw [reloc_ssg hssg, hwidth]
    exact hcframe.set_word hcbpos (le_refl _) (le_refl _) _
  by_cases hlsg : rl.x_rl_flg &&& 3 = X_RL_LSG
  · have hwidth : rl.width = 4 :=
      (if_neg (not_or.mpr ⟨hoff, hssg⟩)).trans (if_pos hlsg)
    rw [reloc_lsg hlsg, hwidth]
    dsimp only
    have hfirst := (hframe 4).set_word hfbpos (le_refl _) (Nat.add_le_add_left (by omega) _)
      (long_word (s.base cc rl).seg)
    generalize (s.fetched cc rl).set_word _ _ = v at hfirst ⊢
    obtain ⟨hget, hgetc, hgetl, hgetbpos⟩ := getbuf_spec hfirst.buffered (s.item_pos cc rl + 2)
    have hsecond : Frame (s.item_pos cc rl) 4 s (v.getbuf (s.item_pos cc rl + 2)) :=
      ⟨hget, hgetl.trans hfirst.objlen, fun a ha => (congrFun hgetc a).trans (hfirst.content a ha)⟩
    exact hsecond.set_word hgetbpos (by omega) (by omega) _
  · rw [reloc_none hoff hssg hlsg]
    exact hframe _

/-- **A short item**, whose word is in the file. -/
theorem reloc_short (hs : s.Buffered) (h : rl.x_rl_flg &&& 3 = X_RL_SSG)
    (hwhole : s.Whole (s.item_pos cc rl)) :
    s.short_offset cc rl = (s.base cc rl).val + (word_in s.content (s.item_pos cc rl) &&& 0xff) ∧
      word_in (s.reloc cc rl).content (s.item_pos cc rl) =
        short_word (s.base cc rl).seg (s.short_offset cc rl) ∧
          (255 < (s.short_offset cc rl).toNat → (s.reloc cc rl).ld = s.ld.err) := by
  obtain ⟨hfetched, hfcontent, hflen, hfbpos, hfld⟩ := fetched_spec cc hs rl
  obtain ⟨hchecked, -, hclen, hcbpos⟩ := checked_spec cc hs rl
  have hword := word_eq hfetched hfbpos (p := s.item_pos cc rl) (by rw [Whole, hflen]; exact hwhole)
  refine ⟨?_, ?_, fun hlt => ?_⟩
  · rw [short_offset, hword, hfcontent]
  · rw [reloc_ssg h]
    exact set_word_at hchecked hcbpos (by rw [Whole, hclen]; exact hwhole) _
  · rw [reloc_ssg h, set_word_ld, checked, if_pos hlt, hfld]

/-- **A long item**, whose words are in the file. -/
theorem reloc_long (hs : s.Buffered) (h : rl.x_rl_flg &&& 3 = X_RL_LSG)
    (hwhole : s.Whole (s.item_pos cc rl)) (hwhole' : s.Whole (s.item_pos cc rl + 2)) :
    word_in (s.reloc cc rl).content (s.item_pos cc rl) =
        long_word (s.base cc rl).seg ∧
      word_in (s.reloc cc rl).content (s.item_pos cc rl + 2) =
        word_in s.content (s.item_pos cc rl + 2) + (s.base cc rl).val := by
  obtain ⟨hfetched, hfcontent, hflen, hfbpos, -⟩ := fetched_spec cc hs rl
  rw [reloc_lsg h]
  dsimp only
  have hset := set_word_buffered hfetched hfbpos (long_word (s.base cc rl).seg)
  have hlen : ((s.fetched cc rl).set_word (s.item_pos cc rl % 512)
      (long_word (s.base cc rl).seg)).objlen = s.objlen := hflen
  have hat := set_word_at hfetched hfbpos (p := s.item_pos cc rl) (by rw [Whole, hflen]; exact hwhole)
    (long_word (s.base cc rl).seg)
  have hother : ∀ a, a ≠ s.item_pos cc rl → a ≠ s.item_pos cc rl + 1 →
      ((s.fetched cc rl).set_word (s.item_pos cc rl % 512)
        (long_word (s.base cc rl).seg)).content a = s.content a := by
    intro a ha ha'
    rw [set_word_other hfbpos _ ha ha', hfcontent]
  generalize (s.fetched cc rl).set_word _ _ = v at hset hlen hat hother ⊢
  obtain ⟨hget, hgetc, hgetl, hgetbpos⟩ := getbuf_spec hset (s.item_pos cc rl + 2)
  have hin : (v.getbuf (s.item_pos cc rl + 2)).Whole (s.item_pos cc rl + 2) := by
    rw [Whole, hgetl, hlen]
    exact hwhole'
  constructor
  · rw [← hat, word_in, word_in, set_word_other hgetbpos _ (by omega) (by omega),
      set_word_other hgetbpos _ (by omega) (by omega), hgetc]
  · rw [set_word_at hget hgetbpos hin, word_eq hget hgetbpos hin, hgetc, word_in, word_in,
      hother _ (by omega) (by omega), hother _ (by omega) (by omega)]

/-! ## 2. One segment -/

/-- What a step of the second pass never changes of the linker's tables. -/
structure Kept (s t : Ld) : Prop where
  symtab : t.symtab = s.symtab
  symap : t.symap = s.symap
  map : t.map = s.map
  saverel : t.saverel = s.saverel
  errcnt : s.errcnt ≤ t.errcnt

theorem Kept.refl (s : Ld) : Kept s s := ⟨rfl, rfl, rfl, rfl, le_refl _⟩

theorem Kept.trans {s t u : Ld} (h : Kept s t) (h' : Kept t u) : Kept s u :=
  ⟨h'.symtab.trans h.symtab, h'.symap.trans h.symap, h'.map.trans h.map, h'.saverel.trans h.saverel,
    h.errcnt.trans h'.errcnt⟩

theorem reloc_kept (cc : Compiler) (s : P2) (rl : XRel) : Kept s.ld (s.reloc cc rl).ld := by
  rcases reloc_ld cc s rl with h | h
  · rw [h]
    exact .refl _
  · rw [h]
    exact ⟨rfl, rfl, rfl, rfl, Nat.le_succ _⟩

theorem p2seg_kept {rest rest' : List Byte} {i : ℕ} {xp : XSg}
    (h : s.p2seg rest i xp = some (t, rest')) : Kept s.ld t.ld := by
  unfold p2seg at h
  dsimp only at h
  split_ifs at h
  · obtain ⟨rfl, -⟩ := Prod.mk.inj (Option.some.inj h)
    exact ⟨rfl, rfl, rfl, rfl, le_refl _⟩
  · obtain ⟨rfl, -⟩ := Prod.mk.inj (Option.some.inj h)
    exact ⟨rfl, rfl, rfl, rfl, le_refl _⟩

/-- How much of the rest of the file a segment takes. -/
theorem p2seg_rest {rest rest' : List Byte} {i : ℕ} {xp : XSg}
    (h : s.p2seg rest i xp = some (t, rest')) : rest' = rest.drop (copied xp) := by
  unfold p2seg at h
  dsimp only at h
  by_cases hinit : idata xp.x_sg_typ = true
  · have hcopied : copied xp = round xp.x_sg_len.toNat % 65536 := if_pos hinit
    rw [if_pos hinit] at h
    split_ifs at h
    obtain ⟨-, rfl⟩ := Prod.mk.inj (Option.some.inj h)
    rw [hcopied]
  · have hcopied : copied xp = 0 := if_neg hinit
    rw [if_neg hinit] at h
    obtain ⟨-, rfl⟩ := Prod.mk.inj (Option.some.inj h)
    rw [hcopied, List.drop_zero]

/-- Where a segment is copied to. -/
def copy_pos (s : P2) (i : ℕ) : ℕ := (s.ld.segtab (s.ld.map (s.ld.maps + i)).toNat).segpos

/-- **A segment is copied**, with no changed block in the buffer. -/
theorem p2seg_frame {rest rest' : List Byte} {i : ℕ} {xp : XSg} (hs : s.Buffered)
    (hd : s.dirty = false) (h : s.p2seg rest i xp = some (t, rest')) :
    t.Buffered ∧ t.dirty = false ∧
      ∀ a, ¬ (s.copy_pos i ≤ a ∧ a < s.copy_pos i + copied xp) → t.content a = s.content a := by
  unfold p2seg at h
  dsimp only at h
  by_cases hinit : idata xp.x_sg_typ = true
  · have hcopied : copied xp = round xp.x_sg_len.toNat % 65536 := if_pos hinit
    rw [if_pos hinit, ← hcopied] at h
    split_ifs at h with hshort
    obtain ⟨rfl, -⟩ := Prod.mk.inj (Option.some.inj h)
    have hlength : (rest.take (copied xp)).length = copied xp := by
      rw [List.length_take, Nat.min_eq_left (Nat.le_of_not_lt hshort)]
    refine ⟨⟨fun _ => hd, fun h => absurd rfl h, fun h => absurd rfl h⟩, hd, fun a ha => ?_⟩
    rw [content_of_not_in fun hin => hin.1 rfl, content_of_not_dirty hs hd]
    refine if_neg fun hin => ha ?_
    rw [hlength] at hin
    exact hin
  · rw [if_neg hinit] at h
    obtain ⟨rfl, -⟩ := Prod.mk.inj (Option.some.inj h)
    exact ⟨⟨hs.none, hs.block, hs.clean⟩, hd, fun a _ => rfl⟩

/-! ## 3. The whole pass -/

/-- What the second pass does to the file, with the state before. -/
inductive Event
  | seg (before : P2) (rest : List Byte) (i : ℕ) (xp : XSg)
  | rel (before : P2) (rl : XRel)

namespace Event

def before : Event → P2
  | seg u _ _ _ => u
  | rel u _ => u

/-- The state afterwards. -/
def Step (cc : Compiler) : Event → P2 → Prop
  | seg u rest i xp, t => u.dirty = false ∧ ∃ rest', u.p2seg rest i xp = some (t, rest')
  | rel u rl, t => t = u.reloc cc rl

/-- The bytes that are written. -/
def Writes (cc : Compiler) : Event → ℕ → Prop
  | seg u _ i xp, a => u.copy_pos i ≤ a ∧ a < u.copy_pos i + copied xp
  | rel u rl, a => u.item_pos cc rl ≤ a ∧ a < u.item_pos cc rl + rl.width

variable {e : Event}

/-- **One step.** -/
theorem step (hs : e.before.Buffered) (h : e.Step cc t) : t.Buffered ∧ Kept e.before.ld t.ld ∧
    ∀ a, ¬ e.Writes cc a → t.content a = e.before.content a := by
  cases e with
  | seg u rest i xp =>
    obtain ⟨hd, rest', hseg⟩ := h
    obtain ⟨ht, -, hcontent⟩ := p2seg_frame hs hd hseg
    exact ⟨ht, p2seg_kept hseg, hcontent⟩
  | rel u rl =>
    have hframe := reloc_frame cc hs rl
    obtain rfl := h
    exact ⟨hframe.buffered, reloc_kept cc u rl, hframe.content⟩

end Event

/-- **The second pass**, with what it does, the last outermost. -/
inductive Second (cc : Compiler) (s : P2) : List Event → P2 → Prop
  | nil : Second cc s [] s
  | start {l : List Event} {t : P2} : Second cc s l t → Second cc s l t.p2start
  | flush {l : List Event} {t : P2} : Second cc s l t → Second cc s l t.flshbuf
  | event {l : List Event} {t : P2} (e : Event) : Second cc s l e.before → e.Step cc t →
      Second cc s (l ++ [e]) t

namespace Second

variable {l : List Event}

/-- **What nothing writes stays.** -/
theorem run (hs : s.Buffered) (h : Second cc s l t) : t.Buffered ∧ Kept s.ld t.ld ∧
    ∀ a, (∀ e ∈ l, ¬ e.Writes cc a) → t.content a = s.content a := by
  induction h with
  | nil => exact ⟨hs, .refl _, fun _ _ => rfl⟩
  | start _ ih =>
    obtain ⟨ht, hkept, hcontent⟩ := ih
    exact ⟨⟨ht.none, ht.block, ht.clean⟩,
      ⟨hkept.symtab, hkept.symap, hkept.map, hkept.saverel, hkept.errcnt⟩, hcontent⟩
  | flush _ ih =>
    obtain ⟨ht, hkept, hcontent⟩ := ih
    refine ⟨ht.flshbuf, ?_, fun a ha => ?_⟩
    · rw [flshbuf_ld]
      exact hkept
    · rw [content_flshbuf ht]
      exact hcontent a ha
  | event e _ hstep ih =>
    obtain ⟨ht, hkept, hcontent⟩ := ih
    obtain ⟨hnext, hkept', hcontent'⟩ := Event.step ht hstep
    refine ⟨hnext, hkept.trans hkept', fun a ha => ?_⟩
    rw [hcontent' a (ha e (List.mem_append_right _ (List.mem_singleton_self e)))]
    exact hcontent a fun e' he' => ha e' (List.mem_append_left _ he')

/-- The pass up to one step, that step, and the rest. -/
theorem split {e : Event} {l₁ l₂ : List Event} (h : Second cc s l t) (hl : l = l₁ ++ e :: l₂) :
    ∃ u, Second cc s l₁ e.before ∧ e.Step cc u ∧ Second cc u l₂ t := by
  induction h generalizing l₂ with
  | nil => simp at hl
  | start _ ih =>
    obtain ⟨u, hbefore, hstep, hafter⟩ := ih hl
    exact ⟨u, hbefore, hstep, hafter.start⟩
  | flush _ ih =>
    obtain ⟨u, hbefore, hstep, hafter⟩ := ih hl
    exact ⟨u, hbefore, hstep, hafter.flush⟩
  | @event l t e' hbefore hstep ih =>
    rcases List.eq_nil_or_concat l₂ with rfl | ⟨l₂, x, rfl⟩
    · obtain ⟨rfl, hlast⟩ := List.append_inj' hl rfl
      obtain rfl := (List.cons.inj hlast).1
      exact ⟨t, hbefore, hstep, .nil⟩
    · rw [List.concat_eq_append, ← List.cons_append, ← List.append_assoc] at hl
      obtain ⟨hinit, hlast⟩ := List.append_inj' hl rfl
      obtain rfl := (List.cons.inj hlast).1
      obtain ⟨u, hbefore', hstep', hafter⟩ := ih hinit
      refine ⟨u, hbefore', hstep', ?_⟩
      rw [List.concat_eq_append]
      exact hafter.event _ hstep

end Second

/-! ## 4. Modules -/

variable {rest : List Byte} {l : List Event}

theorem rel_of_bytes (rl : XRel) (tail : List Byte) : rel_of (rl.bytes ++ tail) = rl := by
  have hread : rel_of (rl.bytes ++ tail) =
      ⟨rl.x_rl_sgn, rl.x_rl_flg, ofBe16 (be16 rl.x_rl_loc), ofBe16 (be16 rl.x_rl_bas)⟩ := rfl
  rw [hread, ofBe16_be16, ofBe16_be16]

/-- The items of a module. -/
theorem p2rels_second {n : ℕ} (hl : Second cc s l t) (h : p2rels cc n rest t = some u) :
    ∃ l', Second cc s (l ++ l') u ∧ ∀ (rs : List XRel) (tail : List Byte),
      rest = rs.flatMap XRel.bytes ++ tail → rs.length = n → ∀ rl ∈ rs, ∃ v, Event.rel v rl ∈ l' := by
  induction n generalizing l t rest with
  | zero =>
    obtain rfl := Option.some.inj h
    refine ⟨[], by rwa [List.append_nil], fun rs tail _ hlen rl hrl => ?_⟩
    rw [List.length_eq_zero_iff.mp hlen] at hrl
    cases hrl
  | succ n ih =>
    rw [p2rels] at h
    split_ifs at h with hshort
    have hone := hl.event (.rel t (rel_of rest)) rfl
    obtain ⟨l', hl', hitems⟩ := ih hone h
    refine ⟨.rel t (rel_of rest) :: l', by simpa using hl', fun rs tail hrest hlen rl hrl => ?_⟩
    obtain ⟨r, rs, rfl⟩ := List.exists_cons_of_length_eq_add_one hlen
    rw [List.flatMap_cons, List.append_assoc] at hrest
    rcases List.mem_cons.mp hrl with rfl | hrl
    · refine ⟨t, ?_⟩
      rw [hrest, rel_of_bytes]
      exact List.mem_cons_self
    · have hdrop : rest.drop RELSIZ = rs.flatMap XRel.bytes ++ tail := by
        rw [hrest]
        exact List.drop_left' rfl
      obtain ⟨v, hv⟩ := hitems rs tail hdrop (Nat.succ.inj hlen) rl hrl
      exact ⟨v, List.mem_cons_of_mem _ hv⟩

/-- The segments of a module. -/
theorem p2segs_second {f : XFile} (hs : s.Buffered) (hl : Second cc s l t) (hd : t.dirty = false)
    (h : t.p2segs f = some (u, rest)) :
    (∃ l', Second cc s (l ++ l') u) ∧ rest = f.body.drop (f.x_sg.map copied).sum := by
  have hrun := foldlM_induction (I := fun done (r : P2 × List Byte) =>
    (∃ l', Second cc s (l ++ l') r.1) ∧ r.1.dirty = false ∧
      r.2 = f.body.drop ((done.map Prod.fst).map copied).sum) h
    ⟨⟨[], by simpa using hl.start⟩, hd, rfl⟩ ?_
  · rw [List.zipIdx_map_fst] at hrun
    exact ⟨hrun.1, hrun.2.2⟩
  · rintro pre ⟨xp, i⟩ post ⟨v, r⟩ ⟨v', r'⟩ - - ⟨⟨l', hl'⟩, hdirty, hr⟩ hseg
    obtain ⟨-, hdirty', -⟩ := p2seg_frame (hl'.run hs).1 hdirty hseg
    refine ⟨⟨l' ++ [.seg v r i xp], ?_⟩, hdirty', ?_⟩
    · rw [← List.append_assoc]
      exact hl'.event (.seg v r i xp) ⟨hdirty, r', hseg⟩
    · dsimp only at hr ⊢
      rw [p2seg_rest hseg, hr, List.drop_drop]
      simp

/-- **The second pass over some modules** is such a pass, and relocates every item. -/
theorem p2loads_second {fs : List XFile} (hs : s.Buffered) (hd : s.dirty = false)
    (h : s.p2loads cc fs = some t) :
    t.dirty = false ∧ ∃ l, Second cc s l t ∧
      ∀ f ∈ fs, f.Filled → ∀ rl ∈ f.x_rel, ∃ v, Event.rel v rl ∈ l := by
  have hrun := foldlM_induction (I := fun done (u : P2) => u.dirty = false ∧
    ∃ l, Second cc s l u ∧ ∀ f ∈ done, f.Filled → ∀ rl ∈ f.x_rel, ∃ v, Event.rel v rl ∈ l) h
    ⟨hd, [], .nil, List.forall_mem_nil _⟩ ?_
  · exact hrun
  · rintro pre f post u u' - - ⟨hdirty, l, hl, hitems⟩ hload
    unfold p2load at hload
    obtain ⟨⟨v, rest⟩, hv, hrel⟩ := Option.bind_eq_some_iff.mp hload
    obtain ⟨⟨l', hl'⟩, hrest⟩ := p2segs_second hs hl hdirty hv
    unfold p2dorel at hrel
    obtain ⟨w, hw, rfl⟩ := Option.map_eq_some_iff.mp hrel
    obtain ⟨l'', hl'', hall⟩ := p2rels_second hl' hw
    refine ⟨flshbuf_dirty w, l ++ l' ++ l'', hl''.flush, fun g hg hfilled rl hrl => ?_⟩
    rcases List.mem_append.mp hg with hg | hg
    · obtain ⟨x, hx⟩ := hitems g hg hfilled rl hrl
      exact ⟨x, by simp [hx]⟩
    · obtain rfl := List.mem_singleton.mp hg
      have hat : rest = g.x_rel.flatMap XRel.bytes ++ g.x_sym.flatMap XSym.bytes := by
        rw [hrest, ← hfilled, XFile.body, List.append_assoc]
        exact List.drop_left
      obtain ⟨x, hx⟩ := hall _ _ hat rfl rl hrl
      exact ⟨x, List.mem_append_right _ hx⟩

end P2

end Cpm8000.Linker
