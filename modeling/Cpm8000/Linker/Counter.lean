/-
# The buffer with its counter, and patching in place

The linker counts the changes of the block in its buffer in a short, and writes the block back when the
counter is not zero.  The same buffer is used to copy the segments.  Beside it stands a linker without
a buffer, which patches each word in the object file itself.

* `touch_spec`: a word that is changed in the buffer is patched in what the file holds.
* `reloc_agrees`, `p2load_agrees`: the two linkers agree, item by item and module by module.
* `relocation_transparent`: so the files are the same, as long as no word of an item lies across the
  end of a block or of the file, and the counter does not come round to zero before a block is left.
* `counter_wraps`: 65536 changes of one block are lost.
-/
import Cpm8000.Linker.Relocate

namespace Cpm8000.Linker

open Sys

/-! ## 1. Patching in place -/

/-- A word stored in some bytes. -/
def store (f : ℕ → Byte) (p : ℕ) (w : BitVec 16) : ℕ → Byte :=
  Function.update (Function.update f p (w.extractLsb' 8 8)) (p + 1) (w.extractLsb' 0 8)

/-- The word at `p` of a file patched in place; a word that is not in the file is no place of it. -/
def patch (len : ℕ) (f : ℕ → Byte) (p : ℕ) (g : BitVec 16 → BitVec 16) : ℕ → Byte :=
  if p + 2 ≤ len then store f p (g (P2.word_in f p)) else f

namespace P2

/-- The words of an item: where they are, and what becomes of them. -/
def words (b : Base) (flg : Byte) : List (ℕ × (BitVec 16 → BitVec 16)) :=
  if flg &&& 3 = X_RL_OFF then [(0, fun w => w + b.val)]
  else if flg &&& 3 = X_RL_SSG then [(0, fun w => short_word b.seg (b.val + (w &&& 0xff)))]
  else if flg &&& 3 = X_RL_LSG then [(0, fun _ => long_word b.seg), (2, fun w => w + b.val)]
  else []

variable (cc : Compiler) (s : P2)

/-- The words of an item at `pos` patched in the file. -/
def patched (b : Base) (pos : ℕ) (flg : Byte) : ℕ → Byte :=
  (words b flg).foldl (fun f w => patch s.objlen f (pos + w.1) w.2) s.objfile

/-- An item relocated in place. -/
def reloc_in_place (rl : XRel) : P2 :=
  let b := s.base cc rl
  { s.putrel cc rl b.bas with objfile := s.patched b (s.item_pos cc rl) rl.x_rl_flg }

/-- The items of a module relocated in place. -/
def rels_in_place : ℕ → List Byte → P2 → Option P2
  | 0, _, s => some s
  | n + 1, rest, s =>
    if rest.length < RELSIZ then none else rels_in_place n (rest.drop RELSIZ) (s.reloc_in_place cc (rel_of rest))

/-- A module copied, and relocated in place. -/
def load_in_place (f : XFile) : Option P2 := do
  let r ← s.p2segs f
  r.1.rels_in_place cc f.x_rel.length r.2

/-- The second pass without a buffer. -/
def loads_in_place (fs : List XFile) : Option P2 := fs.foldlM (fun s f => s.load_in_place cc f) s

end P2

/-! ## 2. The buffer with its counter -/

/-- The linker's variables with `dirty` as the short it is: `count`.  The flag of `P2` says whether the
block in the buffer has been changed. -/
structure Counted extends P2 where
  count : BitVec 16

namespace Counted

variable (cc : Compiler) (c : Counted)

/-- `flshbuf` -/
def flshbuf : Counted :=
  if c.count ≠ 0 then
    ⟨{ c.toP2.write c.bpos ((List.range c.blen).map c.buf) with dirty := false, bpos := 1 }, 0⟩
  else c

/-- `getbuf`: the block `p` is in -/
def getbuf (p : ℕ) : Counted :=
  let p := p / 512 * 512
  if c.bpos ≠ p then
    let c := c.flshbuf
    let blen := min 512 (c.objlen - p)
    { c with
      bpos := p
      blen := blen
      buf := fun a => if a < blen then c.objfile (p + a) else c.buf a }
  else c

/-- `dirty++` -/
def changed : Counted := { c with dirty := true, count := c.count + 1 }

def set_word (j : ℕ) (w : BitVec 16) : Counted := ⟨c.toP2.set_word j w, c.count⟩

/-- The switch of `reloc`: what is the relocation target -/
def target (b : P2.Base) (pos : ℕ) (flg : Byte) : Counted :=
  let c := (c.getbuf pos).changed
  let j := pos % 512
  if flg &&& 3 = X_RL_OFF then c.set_word j (c.word j + b.val)
  else if flg &&& 3 = X_RL_SSG then
    let val := b.val + (c.word j &&& 0xff)
    let c := if 255 < val.toNat then { c with ld := c.ld.err } else c
    c.set_word j (P2.short_word b.seg val)
  else if flg &&& 3 = X_RL_LSG then
    let c := c.set_word j (P2.long_word b.seg)
    let c := c.getbuf (pos + 2)
    let j := (pos + 2) % 512
    (c.set_word j (c.word j + b.val)).changed
  else c

/-- relocate a single item -/
def reloc (rl : XRel) : Counted :=
  let b := c.base cc rl
  let pos := c.segpos (cc.int_of_char rl.x_rl_sgn) + rl.x_rl_loc.toNat
  Counted.target ⟨c.putrel cc rl b.bas, c.count⟩ b pos rl.x_rl_flg

/-- The loop of `p2dorel`, over `n` items. -/
def p2rels : ℕ → List Byte → Counted → Option Counted
  | 0, _, c => some c
  | n + 1, rest, c =>
    if rest.length < RELSIZ then none else p2rels n (rest.drop RELSIZ) (c.reloc cc (rel_of rest))

/-- do the entire relocation section of file -/
def p2dorel (n : ℕ) (rest : List Byte) : Option Counted := (p2rels cc n rest c).map flshbuf

/-- What copying some bytes in pieces of 512 leaves in the buffer. -/
def copied_through : ℕ → List Byte → (ℕ → Byte) → ℕ → Byte
  | 0, _, buf => buf
  | n + 1, l, buf =>
    copied_through n (l.drop 512) fun a => if a < 512 ∧ a < l.length then l.getD a 0 else buf a

/-- `p2load` for segment `i` of the module, with the rest of the file. -/
def p2seg (rest : List Byte) (i : ℕ) (xp : XSg) : Option (Counted × List Byte) :=
  (c.toP2.p2seg rest i xp).map fun r =>
    (⟨{ r.1 with buf := copied_through (P2.copied xp) (rest.take (P2.copied xp)) c.buf }, c.count⟩, r.2)

/-- The segments of a module. -/
def p2segs (f : XFile) : Option (Counted × List Byte) :=
  f.x_sg.zipIdx.foldlM (fun r xp => r.1.p2seg r.2 xp.2 xp.1) (⟨c.p2start, c.count⟩, f.body)

/-- load one file -/
def p2load (f : XFile) : Option Counted := do
  let r ← c.p2segs f
  r.1.p2dorel cc f.x_rel.length r.2

/-- The second pass over some modules. -/
def p2loads (fs : List XFile) : Option Counted := fs.foldlM (fun c f => c.p2load cc f) c

end Counted

/-! ## 3. One word -/

/-- A word is in one block, and in the file as a whole or not at all. -/
def Lies (len p : ℕ) : Prop := p % 512 ≠ 511 ∧ (p + 2 ≤ len ∨ len ≤ p)

instance (len p : ℕ) : Decidable (Lies len p) := inferInstanceAs (Decidable (_ ∧ _))

/-- The bytes of a word. -/
theorem bytes_of_append (a b : Byte) :
    (a ++ b : BitVec 16).extractLsb' 8 8 = a ∧ (a ++ b : BitVec 16).extractLsb' 0 8 = b := by
  have ha := a.isLt
  have hb := b.isLt
  have hab : (a ++ b : BitVec 16).toNat = a.toNat * 256 + b.toNat := by
    rw [BitVec.toNat_append, ← Nat.shiftLeft_add_eq_or_of_lt hb, Nat.shiftLeft_eq]
  constructor <;> apply BitVec.eq_of_toNat_eq <;>
    rw [BitVec.extractLsb'_toNat, hab, Nat.shiftRight_eq_div_pow] <;> omega

namespace P2

variable {s t u : P2} {p : ℕ}

/-- **A word changed in the buffer** is patched in what the file holds. -/
theorem content_set_word (hs : s.Buffered) (hp : s.bpos = p / 512 * 512) (h : Lies s.objlen p)
    (g : BitVec 16 → BitVec 16) :
    (s.set_word (p % 512) (g (s.word (p % 512)))).content = patch s.objlen s.content p g := by
  obtain ⟨hj, hin | hout⟩ := h
  · have hword := set_word_at hs hp ⟨hj, hin⟩ (g (s.word (p % 512)))
    rw [word_eq hs hp ⟨hj, hin⟩] at hword ⊢
    obtain ⟨hhi, hlo⟩ := bytes_of_append
      ((s.set_word (p % 512) (g (word_in s.content p))).content p)
      ((s.set_word (p % 512) (g (word_in s.content p))).content (p + 1))
    rw [word_in] at hword
    rw [hword] at hhi hlo
    rw [patch, if_pos hin, store]
    funext a
    by_cases hlow : a = p + 1
    · rw [hlow, Function.update_self]
      exact hlo.symm
    · rw [Function.update_of_ne hlow]
      by_cases hhigh : a = p
      · rw [hhigh, Function.update_self]
        exact hhi.symm
      · rw [Function.update_of_ne hhigh]
        exact set_word_other hp _ hhigh hlow
  · have hne : s.bpos ≠ 1 := by omega
    obtain ⟨-, hblen⟩ := hs.block hne
    rw [patch, if_neg (by omega)]
    funext a
    by_cases ha : a < p
    · exact set_word_other hp _ (by omega) (by omega)
    · have hnot : ¬ s.InBlock a := fun hin => by
        have := hin.2.2
        omega
      rw [content_of_not_in hnot]
      exact content_of_not_in hnot

/-- What the buffer has nothing to do with. -/
structure Beside (s t : P2) : Prop where
  ld : t.ld = s.ld
  segsiz : t.segsiz = s.segsiz
  segpos : t.segpos = s.segpos
  relfile : t.relfile = s.relfile
  objlen : t.objlen = s.objlen

theorem Beside.trans (h : Beside s t) (h' : Beside t u) : Beside s u :=
  ⟨h'.ld.trans h.ld, h'.segsiz.trans h.segsiz, h'.segpos.trans h.segpos, h'.relfile.trans h.relfile,
    h'.objlen.trans h.objlen⟩

theorem flshbuf_beside (hs : s.Buffered) : Beside s s.flshbuf := by
  refine ⟨flshbuf_ld s, ?_, ?_, ?_, flshbuf_objlen hs⟩ <;>
    (unfold flshbuf; split_ifs <;> rfl)

theorem getbuf_beside (hs : s.Buffered) (p : ℕ) : Beside s (s.getbuf p) := by
  obtain ⟨-, -, hlen, -⟩ := getbuf_spec hs p
  have hflush := flshbuf_beside hs
  refine ⟨getbuf_ld s p, ?_, ?_, ?_, hlen⟩
  · unfold getbuf
    dsimp only
    split_ifs
    · exact hflush.segsiz
    · rfl
  · unfold getbuf
    dsimp only
    split_ifs
    · exact hflush.segpos
    · rfl
  · unfold getbuf
    dsimp only
    split_ifs
    · exact hflush.relfile
    · rfl

end P2

namespace Counted

variable {cc : Compiler} {c : Counted} {d : P2} {rl : XRel} {p : ℕ}

/-- The counter counts changes of the block in the buffer. -/
structure Sound (c : Counted) : Prop where
  buffered : c.toP2.Buffered
  counts : c.dirty = false → c.count = 0

/-- A changed block is written when it is left. -/
def Shows (c : Counted) : Prop := c.count = 0 → c.dirty = false

instance (c : Counted) : Decidable c.Shows := inferInstanceAs (Decidable (_ → _))

theorem flshbuf_shows (hc : c.Sound) (h : c.Shows) :
    c.flshbuf.toP2 = c.toP2.flshbuf ∧ c.flshbuf.count = 0 := by
  unfold flshbuf P2.flshbuf
  by_cases h0 : c.count = 0
  · rw [if_neg (not_not.mpr h0), h h0]
    exact ⟨rfl, h0⟩
  · have hd : c.dirty = true := by
      by_contra hd
      exact h0 (hc.counts (Bool.not_eq_true _ ▸ hd))
    rw [if_pos h0, hd]
    exact ⟨rfl, rfl⟩

theorem Sound.flshbuf (hc : c.Sound) (h : c.Shows) : c.flshbuf.Sound := by
  obtain ⟨heq, h0⟩ := flshbuf_shows hc h
  exact ⟨heq ▸ hc.buffered.flshbuf, fun _ => h0⟩

/-- The block that is in the buffer is wanted, or it is written if it has been changed. -/
def Lasting (c : Counted) (p : ℕ) : Prop := c.bpos = p / 512 * 512 ∨ c.Shows

instance (c : Counted) (p : ℕ) : Decidable (c.Lasting p) := inferInstanceAs (Decidable (_ ∨ _))

theorem getbuf_of_eq (h : c.bpos = p / 512 * 512) : c.getbuf p = c := if_neg (not_not.mpr h)

theorem getbuf_toP2 (hc : c.Sound) (h : c.Lasting p) : (c.getbuf p).toP2 = c.toP2.getbuf p ∧
    (c.bpos ≠ p / 512 * 512 → (c.getbuf p).count = 0) := by
  by_cases hp : c.bpos = p / 512 * 512
  · rw [getbuf_of_eq hp]
    exact ⟨(if_neg (not_not.mpr hp)).symm, fun h => absurd hp h⟩
  · obtain ⟨heq, h0⟩ := flshbuf_shows hc (h.resolve_left hp)
    unfold getbuf P2.getbuf
    dsimp only
    rw [if_pos hp, if_pos hp, ← heq]
    exact ⟨rfl, fun _ => h0⟩

/-- **One word.** -/
theorem touch_spec (hc : c.Sound) (h : c.Lasting p) (hp : Lies c.objlen p) (g : BitVec 16 → BitVec 16) :
    let t := (c.getbuf p).changed.set_word (p % 512) (g ((c.getbuf p).word (p % 512)))
    t.Sound ∧ t.content = patch c.objlen c.content p g ∧ P2.Beside c.toP2 t.toP2 ∧
      t.bpos = p / 512 * 512 := by
  obtain ⟨heq, -⟩ := getbuf_toP2 hc h
  obtain ⟨hget, hgetc, hgetl, hbpos⟩ := P2.getbuf_spec hc.buffered p
  have hbeside := P2.getbuf_beside hc.buffered p
  dsimp only
  generalize c.getbuf p = u at heq ⊢
  rw [← heq] at hget hgetc hgetl hbpos hbeside
  have hne : u.bpos ≠ 1 := by omega
  have hchanged : u.changed.toP2.Buffered :=
    ⟨fun h => absurd h hne, hget.block, fun _ h => by cases h⟩
  have hset := P2.set_word_buffered (s := u.changed.toP2) hchanged hbpos (g (u.word (p % 512)))
  refine ⟨⟨hset, fun h => by cases h⟩, ?_, ⟨hbeside.ld, hbeside.segsiz, hbeside.segpos,
    hbeside.relfile, hbeside.objlen⟩, hbpos⟩
  have hcontent := P2.content_set_word (s := u.changed.toP2) hchanged hbpos
    (by rw [show u.changed.objlen = c.objlen from hgetl]; exact hp) g
  refine hcontent.trans ?_
  rw [show u.changed.objlen = c.objlen from hgetl, show u.changed.content = c.content from hgetc]

/-! ## 4. One item -/

/-- **The linker with the buffer agrees with the one without**: what the file will hold is what the other
one's file holds, and their variables are the same but for the count of errors, which tells of words that
are not in the file. -/
structure Agrees (c : Counted) (d : P2) : Prop where
  sound : c.Sound
  content : d.objfile = c.content
  objlen : d.objlen = c.objlen
  segsiz : d.segsiz = c.segsiz
  segpos : d.segpos = c.segpos
  relfile : d.relfile = c.relfile
  ld : ∃ n, d.ld = { c.ld with errcnt := n }

theorem Agrees.base (h : Agrees c d) (cc : Compiler) (rl : XRel) : d.base cc rl = c.base cc rl := by
  obtain ⟨n, hld⟩ := h.ld
  unfold P2.base P2.external P2.internal
  rw [hld]

theorem Agrees.item_pos (h : Agrees c d) (cc : Compiler) (rl : XRel) :
    d.item_pos cc rl = c.item_pos cc rl := by
  rw [P2.item_pos, P2.item_pos, h.segpos]

theorem Agrees.putrel (h : Agrees c d) (cc : Compiler) (rl : XRel) (bas : BitVec 16) :
    Agrees ⟨c.putrel cc rl bas, c.count⟩ (d.putrel cc rl bas) := by
  obtain ⟨n, hld⟩ := h.ld
  obtain ⟨hb, hcontent, hlen⟩ := P2.putrel_buffer cc h.sound.buffered rl bas
  have hd : (c.putrel cc rl bas).dirty = c.dirty := by
    unfold P2.putrel
    dsimp only
    split_ifs <;> rfl
  have hrel : (d.putrel cc rl bas).relfile = (c.putrel cc rl bas).relfile := by
    unfold P2.putrel
    dsimp only
    rw [hld, h.segsiz, h.relfile]
    dsimp only
    split_ifs
    · rfl
    · exact h.relfile
  refine ⟨⟨hb, fun h' => h.sound.counts (hd ▸ h')⟩, ?_, ?_, ?_, ?_, hrel, n, ?_⟩
  · refine Eq.trans ?_ (h.content.trans hcontent.symm)
    unfold P2.putrel
    dsimp only
    split_ifs <;> rfl
  · refine Eq.trans ?_ (h.objlen.trans hlen.symm)
    unfold P2.putrel
    dsimp only
    split_ifs <;> rfl
  · unfold P2.putrel
    dsimp only
    split_ifs <;> exact h.segsiz
  · unfold P2.putrel
    dsimp only
    split_ifs <;> exact h.segpos
  · rw [P2.putrel_ld]
    exact hld.trans (by rw [P2.putrel_ld])

/-- A word is touched in the buffer, and patched in the file. -/
theorem Agrees.touch (h : Agrees c d) (hl : c.Lasting p) (hp : Lies c.objlen p) (g : BitVec 16 → BitVec 16) :
    Agrees ((c.getbuf p).changed.set_word (p % 512) (g ((c.getbuf p).word (p % 512))))
      { d with objfile := patch d.objlen d.objfile p g } := by
  obtain ⟨hsound, hcontent, hbeside, -⟩ := touch_spec h.sound hl hp g
  obtain ⟨n, hld⟩ := h.ld
  refine ⟨hsound, ?_, h.objlen.trans hbeside.objlen.symm, h.segsiz.trans hbeside.segsiz.symm,
    h.segpos.trans hbeside.segpos.symm, h.relfile.trans hbeside.relfile.symm, n, ?_⟩
  · rw [hcontent, h.objlen, h.content]
  · rw [hbeside.ld]
    exact hld

/-- **No word of the item lies across an end, and the counter is not zero when a changed block is left.** -/
structure SafeAt (c : Counted) (b : P2.Base) (pos : ℕ) (flg : Byte) : Prop where
  lies : ∀ w ∈ P2.words b flg, Lies c.objlen (pos + w.1)
  first : c.Lasting pos
  second : flg &&& 3 = X_RL_LSG → (pos + 2) / 512 ≠ pos / 512 → c.bpos = pos / 512 * 512 → c.count ≠ 0xFFFF

/-- An item is safe. -/
def Safe (cc : Compiler) (c : Counted) (rl : XRel) : Prop :=
  c.SafeAt (c.base cc rl) (c.item_pos cc rl) rl.x_rl_flg

/-- The counter after a touch. -/
theorem touched_count (hc : c.Sound) (hl : c.Lasting p) :
    (c.getbuf p).changed.count = (if c.bpos = p / 512 * 512 then c.count else 0) + 1 := by
  split_ifs with hp
  · rw [getbuf_of_eq hp]
    rfl
  · have h0 := (getbuf_toP2 hc hl).2 hp
    exact congrArg (· + 1) h0

/-- Only the count of errors differs. -/
theorem Agrees.err (h : Agrees c d) : Agrees { c with ld := c.ld.err } d := by
  obtain ⟨n, hld⟩ := h.ld
  exact ⟨⟨⟨h.sound.buffered.none, h.sound.buffered.block, h.sound.buffered.clean⟩, h.sound.counts⟩,
    h.content, h.objlen, h.segsiz, h.segpos, h.relfile, n, hld⟩

/-- **The words of an item.** -/
theorem target_agrees {b : P2.Base} {flg : Byte} (h : Agrees c d) (hs : c.SafeAt b p flg) :
    Agrees (c.target b p flg) { d with objfile := d.patched b p flg } := by
  obtain ⟨hlies, hfirst, hsecond⟩ := hs
  unfold target P2.patched
  unfold P2.words at hlies ⊢
  dsimp only
  by_cases hoff : flg &&& 3 = X_RL_OFF
  · rw [if_pos hoff] at hlies
    rw [if_pos hoff, if_pos hoff]
    exact h.touch hfirst (hlies _ (List.mem_singleton_self _)) fun w => w + b.val
  by_cases hssg : flg &&& 3 = X_RL_SSG
  · rw [if_neg hoff, if_pos hssg] at hlies
    rw [if_neg hoff, if_neg hoff, if_pos hssg, if_pos hssg]
    have htouch := h.touch hfirst (hlies _ (List.mem_singleton_self _))
      fun w => P2.short_word b.seg (b.val + (w &&& 0xff))
    split_ifs
    · exact htouch.err
    · exact htouch
  by_cases hlsg : flg &&& 3 = X_RL_LSG
  · rw [if_neg hoff, if_neg hssg, if_pos hlsg] at hlies
    rw [if_neg hoff, if_neg hssg, if_neg hoff, if_neg hssg, if_pos hlsg, if_pos hlsg]
    have hone := h.touch hfirst (hlies _ List.mem_cons_self) fun _ => P2.long_word b.seg
    have hcount := touched_count h.sound hfirst
    have hbpos := (touch_spec h.sound hfirst (hlies _ List.mem_cons_self) fun _ => P2.long_word b.seg).2.2.2
    have hlen := (touch_spec h.sound hfirst (hlies _ List.mem_cons_self)
      fun _ => P2.long_word b.seg).2.2.1.objlen
    have hc1 : ((c.getbuf p).changed.set_word (p % 512) (P2.long_word b.seg)).count =
        (c.getbuf p).changed.count := rfl
    have hlies2 := hlies _ (List.mem_cons_of_mem _ (List.mem_singleton_self _))
    generalize (c.getbuf p).changed.set_word (p % 512) (P2.long_word b.seg) = u at *
    have hlast : u.Lasting (p + 2) := by
      by_cases hsame : (p + 2) / 512 = p / 512
      · exact .inl (by rw [hsame]; exact hbpos)
      · refine .inr fun h0 => ?_
        rw [hc1, hcount] at h0
        split_ifs at h0 with hp
        · refine absurd (BitVec.eq_of_toNat_eq ?_) (hsecond hlsg hsame hp)
          have hsum : (c.count.toNat + 1) % 65536 = 0 := congrArg BitVec.toNat h0
          have hlt := c.count.isLt
          change c.count.toNat = 65535
          omega
        · exact absurd h0 (by decide)
    have htwo := hone.touch hlast (by rw [hlen]; exact hlies2) fun w => w + b.val
    exact htwo
  · rw [if_neg hoff, if_neg hssg, if_neg hlsg, if_neg hoff, if_neg hssg, if_neg hlsg]
    obtain ⟨heq, -⟩ := getbuf_toP2 h.sound hfirst
    obtain ⟨hget, hgetc, -, hbpos⟩ := P2.getbuf_spec h.sound.buffered p
    have hbeside := P2.getbuf_beside h.sound.buffered p
    rw [← heq] at hget hgetc hbpos hbeside
    obtain ⟨n, hld⟩ := h.ld
    have hend : d.ld = { (c.getbuf p).ld with errcnt := n } := by
      rw [hld]
      exact congrArg (fun l : Ld => { l with errcnt := n }) hbeside.ld.symm
    have hne : (c.getbuf p).bpos ≠ 1 := by omega
    exact ⟨⟨⟨fun h => absurd h hne, hget.block, fun _ h => by cases h⟩, fun h => by cases h⟩,
      h.content.trans hgetc.symm, h.objlen.trans hbeside.objlen.symm,
      h.segsiz.trans hbeside.segsiz.symm, h.segpos.trans hbeside.segpos.symm,
      h.relfile.trans hbeside.relfile.symm, n, hend⟩

/-- **One item.** -/
theorem reloc_agrees (h : Agrees c d) (hs : c.Safe cc rl) :
    Agrees (c.reloc cc rl) (d.reloc_in_place cc rl) := by
  have hput := h.putrel cc rl (c.base cc rl).bas
  have hrest : (c.putrel cc rl (c.base cc rl).bas).bpos = c.bpos ∧
      (c.putrel cc rl (c.base cc rl).bas).dirty = c.dirty ∧
        (c.putrel cc rl (c.base cc rl).bas).objlen = c.objlen := by
    unfold P2.putrel
    dsimp only
    split_ifs <;> exact ⟨rfl, rfl, rfl⟩
  obtain ⟨hbpos, hdirty, hlen⟩ := hrest
  have hfile : (d.putrel cc rl (c.base cc rl).bas).objlen = d.objlen ∧
      (d.putrel cc rl (c.base cc rl).bas).objfile = d.objfile := by
    unfold P2.putrel
    dsimp only
    split_ifs <;> exact ⟨rfl, rfl⟩
  have hsafe : SafeAt ⟨c.putrel cc rl (c.base cc rl).bas, c.count⟩ (c.base cc rl) (c.item_pos cc rl)
      rl.x_rl_flg := by
    obtain ⟨h1, h2, h3⟩ := hs
    refine ⟨?_, ?_, ?_⟩
    · dsimp only
      rw [hlen]
      exact h1
    · rw [Lasting, Shows]
      dsimp only
      rw [hbpos, hdirty]
      exact h2
    · dsimp only
      rw [hbpos]
      exact h3
  have htarget := target_agrees hput hsafe
  have hpatched : (d.putrel cc rl (c.base cc rl).bas).patched (c.base cc rl) (c.item_pos cc rl)
      rl.x_rl_flg = d.patched (c.base cc rl) (c.item_pos cc rl) rl.x_rl_flg := by
    rw [P2.patched, P2.patched, hfile.1, hfile.2]
  rw [hpatched] at htarget
  rw [P2.reloc_in_place, h.base cc rl, h.item_pos cc rl]
  exact htarget

/-! ## 5. Modules -/

variable {c' : Counted} {rest rest' : List Byte}

/-- Every item of a module is safe, and the counter is not zero over a changed block at the end. -/
def SafeRels (cc : Compiler) : ℕ → List Byte → Counted → Prop
  | 0, _, c => c.Shows
  | n + 1, rest, c => c.Safe cc (rel_of rest) ∧ SafeRels cc n (rest.drop RELSIZ) (c.reloc cc (rel_of rest))

/-- **The items of a module.** -/
theorem p2rels_agrees {n : ℕ} (h : Agrees c d) (hs : SafeRels cc n rest c)
    (hrun : p2rels cc n rest c = some c') :
    ∃ d', d.rels_in_place cc n rest = some d' ∧ Agrees c' d' ∧ c'.Shows := by
  induction n generalizing c d rest with
  | zero =>
    obtain rfl := Option.some.inj hrun
    exact ⟨d, rfl, h, hs⟩
  | succ n ih =>
    rw [p2rels] at hrun
    split_ifs at hrun with hshort
    obtain ⟨d', hd', hrest⟩ := ih (reloc_agrees h hs.1) hs.2 hrun
    exact ⟨d', (if_neg hshort).trans hd', hrest⟩

/-- The block that is left in the buffer is written. -/
theorem Agrees.flshbuf (h : Agrees c d) (hs : c.Shows) :
    Agrees c.flshbuf d ∧ c.flshbuf.dirty = false ∧ d.objfile = c.flshbuf.objfile := by
  obtain ⟨heq, -⟩ := flshbuf_shows h.sound hs
  have hbeside := P2.flshbuf_beside h.sound.buffered
  rw [← heq] at hbeside
  obtain ⟨n, hld⟩ := h.ld
  have hcontent : c.flshbuf.content = c.content := by
    rw [show c.flshbuf.content = c.flshbuf.toP2.content from rfl, heq]
    exact P2.content_flshbuf h.sound.buffered
  have hdirty : c.flshbuf.dirty = false := by
    rw [show c.flshbuf.dirty = c.flshbuf.toP2.dirty from rfl, heq]
    exact P2.flshbuf_dirty c.toP2
  refine ⟨⟨h.sound.flshbuf hs, h.content.trans hcontent.symm, h.objlen.trans hbeside.objlen.symm,
    h.segsiz.trans hbeside.segsiz.symm, h.segpos.trans hbeside.segpos.symm,
    h.relfile.trans hbeside.relfile.symm, n, ?_⟩, hdirty, ?_⟩
  · rw [hld]
    exact congrArg (fun l : Ld => { l with errcnt := n }) hbeside.ld.symm
  · rw [h.content, ← hcontent]
    funext a
    exact P2.content_of_not_dirty (h.sound.flshbuf hs).buffered hdirty

/-- **A segment is copied** through the buffer. -/
theorem p2seg_agrees {i : ℕ} {xp : XSg} (h : Agrees c d) (hd : c.dirty = false)
    (hrun : c.p2seg rest i xp = some (c', rest')) :
    ∃ d', d.p2seg rest i xp = some (d', rest') ∧ Agrees c' d' ∧ c'.dirty = false := by
  obtain ⟨hsound, hcontent, hlen, hsiz, hpos, hrel, n, hld⟩ := h
  have hcount := hsound.counts hd
  have hfile : c.objfile = c.content := by
    funext a
    exact (P2.content_of_not_dirty hsound.buffered hd).symm
  unfold p2seg at hrun
  obtain ⟨⟨t, r⟩, ht, hc'⟩ := Option.map_eq_some_iff.mp hrun
  obtain ⟨rfl, rfl⟩ := Prod.mk.inj hc'
  unfold P2.p2seg at ht ⊢
  rw [hld, hsiz, hpos]
  dsimp only at ht ⊢
  by_cases hinit : idata xp.x_sg_typ = true
  · rw [if_pos hinit] at ht ⊢
    split_ifs at ht ⊢ with hshort
    obtain ⟨rfl, rfl⟩ := Prod.mk.inj (Option.some.inj ht)
    refine ⟨_, rfl, ⟨⟨⟨fun _ => hd, fun h => absurd rfl h, fun h => absurd rfl h⟩, fun _ => hcount⟩,
      ?_, ?_, rfl, rfl, hrel, n, rfl⟩, hd⟩
    · funext a
      refine Eq.trans ?_ (P2.content_of_not_in fun hin => hin.1 rfl).symm
      unfold P2.write
      dsimp only
      rw [hcontent, hfile]
    · unfold P2.write
      dsimp only
      rw [hlen]
  · have hnone : P2.copied xp = 0 := if_neg hinit
    rw [if_neg hinit] at ht ⊢
    obtain ⟨rfl, rfl⟩ := Prod.mk.inj (Option.some.inj ht)
    rw [hnone]
    exact ⟨_, rfl, ⟨⟨⟨hsound.buffered.none, hsound.buffered.block, hsound.buffered.clean⟩, fun _ => hcount⟩,
      hcontent, hlen, rfl, rfl, hrel, n, rfl⟩, hd⟩

/-- The segments of a module. -/
theorem p2segs_agrees {f : XFile} (h : Agrees c d) (hd : c.dirty = false)
    (hrun : c.p2segs f = some (c', rest')) :
    ∃ d', d.p2segs f = some (d', rest') ∧ Agrees c' d' ∧ c'.dirty = false := by
  have hstart : Agrees ⟨c.p2start, c.count⟩ d.p2start := by
    obtain ⟨hsound, hcontent, hlen, hsiz, hpos, hrel, n, hld⟩ := h
    refine ⟨⟨⟨hsound.buffered.none, hsound.buffered.block, hsound.buffered.clean⟩, hsound.counts⟩,
      hcontent, hlen, hsiz, hpos, hrel, n, ?_⟩
    unfold P2.p2start
    rw [hld]
  have hall : ∀ (l : List (XSg × ℕ)) (c : Counted) (d : P2) (rest : List Byte), Agrees c d →
      c.dirty = false →
      l.foldlM (fun r xp => r.1.p2seg r.2 xp.2 xp.1) (c, rest) = some (c', rest') →
      ∃ d', l.foldlM (fun r xp => P2.p2seg r.1 r.2 xp.2 xp.1) (d, rest) = some (d', rest') ∧
        Agrees c' d' ∧ c'.dirty = false := by
    intro l
    induction l with
    | nil =>
      intro c d rest h hd hrun
      obtain ⟨rfl, rfl⟩ := Prod.mk.inj (Option.some.inj hrun)
      exact ⟨d, rfl, h, hd⟩
    | cons xp l ih =>
      intro c d rest h hd hrun
      rw [List.foldlM_cons] at hrun
      obtain ⟨⟨c1, rest1⟩, hseg, hrun⟩ := Option.bind_eq_some_iff.mp hrun
      obtain ⟨d1, hd1, h1, hdirty⟩ := p2seg_agrees h hd hseg
      obtain ⟨d', hd', hend⟩ := ih c1 d1 rest1 h1 hdirty hrun
      refine ⟨d', ?_, hend⟩
      rw [List.foldlM_cons]
      exact Option.bind_eq_some_iff.mpr ⟨(d1, rest1), hd1, hd'⟩
  exact hall _ ⟨c.p2start, c.count⟩ d.p2start f.body hstart hd hrun

/-- The items of the module are safe once its segments are copied. -/
def SafeModule (cc : Compiler) (c : Counted) (f : XFile) : Prop :=
  ∀ r, c.p2segs f = some r → SafeRels cc f.x_rel.length r.2 r.1

/-- **One module.** -/
theorem p2load_agrees {f : XFile} (h : Agrees c d) (hd : c.dirty = false) (hs : c.SafeModule cc f)
    (hrun : c.p2load cc f = some c') :
    ∃ d', d.load_in_place cc f = some d' ∧ Agrees c' d' ∧ c'.dirty = false ∧ d'.objfile = c'.objfile := by
  unfold p2load at hrun
  obtain ⟨⟨u, rest⟩, hsegs, hrun⟩ := Option.bind_eq_some_iff.mp hrun
  unfold p2dorel at hrun
  obtain ⟨w, hw, rfl⟩ := Option.map_eq_some_iff.mp hrun
  obtain ⟨v, hv, hagrees, -⟩ := p2segs_agrees h hd hsegs
  obtain ⟨d', hd', hrels, hshows⟩ := p2rels_agrees hagrees (hs _ hsegs) hw
  obtain ⟨hend, hdirty, hfile⟩ := hrels.flshbuf hshows
  refine ⟨d', ?_, hend, hdirty, hfile⟩
  unfold P2.load_in_place
  exact Option.bind_eq_some_iff.mpr ⟨(v, rest), hv, hd'⟩

/-- Every module of the pass is safe. -/
def SafePass (cc : Compiler) : List XFile → Counted → Prop
  | [], _ => True
  | f :: fs, c => c.SafeModule cc f ∧ ∀ c', c.p2load cc f = some c' → SafePass cc fs c'

/-- The object file may hold anything; no block of it is in the buffer. -/
structure Fresh (c : Counted) : Prop where
  count : c.count = 0
  dirty : c.dirty = false
  bpos : c.bpos = 1

theorem Fresh.agrees (h : c.Fresh) : Agrees c c.toP2 := by
  refine ⟨⟨⟨fun _ => h.dirty, fun h' => absurd h.bpos h', fun h' => absurd h.bpos h'⟩, fun _ => h.count⟩,
    ?_, rfl, rfl, rfl, rfl, c.ld.errcnt, rfl⟩
  funext a
  exact (P2.content_of_not_in fun hin => hin.1 h.bpos).symm

/-- Relocating never makes the file longer. -/
theorem rels_in_place_objlen {n : ℕ} {d' : P2} (h : d.rels_in_place cc n rest = some d') :
    d'.objlen = d.objlen := by
  induction n generalizing d rest with
  | zero =>
    obtain rfl := Option.some.inj h
    rfl
  | succ n ih =>
    rw [P2.rels_in_place] at h
    split_ifs at h
    rw [ih h]
    unfold P2.reloc_in_place P2.putrel
    dsimp only
    split_ifs <;> rfl

/-- **The buffer is transparent.**  Over an object file of any length, a pass whose items are safe leaves
the bytes that copying the segments and patching each word in place leave, and a file as long; and from
any state of the pass the items of a module leave the length of the file alone. -/
theorem relocation_transparent (cc : Compiler) (fs : List XFile) (c c' : Counted) (h : c.Fresh)
    (hs : SafePass cc fs c) (hrun : c.p2loads cc fs = some c') :
    (∃ d', c.toP2.loads_in_place cc fs = some d' ∧ c'.objfile = d'.objfile ∧ c'.objlen = d'.objlen) ∧
      ∀ (u v : Counted) (d : P2) (n : ℕ) (rest : List Byte), Agrees u d → SafeRels cc n rest u →
        u.p2dorel cc n rest = some v → v.objlen = u.objlen := by
  constructor
  · have hall : ∀ (fs : List XFile) (c : Counted) (d : P2), Agrees c d → c.dirty = false →
        d.objfile = c.objfile → SafePass cc fs c → c.p2loads cc fs = some c' →
        ∃ d', d.loads_in_place cc fs = some d' ∧ c'.objfile = d'.objfile ∧ c'.objlen = d'.objlen := by
      intro fs
      induction fs with
      | nil =>
        intro c d h hd hfile _ hrun
        obtain rfl := Option.some.inj hrun
        exact ⟨d, rfl, hfile.symm, h.objlen.symm⟩
      | cons f fs ih =>
        intro c d h hd _ hs hrun
        unfold p2loads at hrun
        rw [List.foldlM_cons] at hrun
        obtain ⟨c1, hload, hrun⟩ := Option.bind_eq_some_iff.mp hrun
        obtain ⟨d1, hd1, h1, hdirty, hfile⟩ := p2load_agrees h hd hs.1 hload
        obtain ⟨d', hd', hend⟩ := ih c1 d1 h1 hdirty hfile (hs.2 c1 hload) hrun
        refine ⟨d', ?_, hend⟩
        unfold P2.loads_in_place
        rw [List.foldlM_cons]
        exact Option.bind_eq_some_iff.mpr ⟨d1, hd1, hd'⟩
    exact hall fs c c.toP2 h.agrees h.dirty rfl hs hrun
  · intro u v d n rest hu hsafe hrun
    unfold p2dorel at hrun
    obtain ⟨w, hw, rfl⟩ := Option.map_eq_some_iff.mp hrun
    obtain ⟨d', hd', hend, hshows⟩ := p2rels_agrees hu hsafe hw
    obtain ⟨hflush, -, -⟩ := hend.flshbuf hshows
    rw [← hflush.objlen, rels_in_place_objlen hd', hu.objlen]

/-! ## 6. The counter comes round -/

/-- An item that adds the first external symbol to the first word of its segment. -/
def adding : XRel := ⟨0, 5, 0, 0⟩

/-- An item that adds the base of its segment. -/
def still : XRel := ⟨0, X_RL_OFF, 0, 0⟩

/-- A module of one word, which is changed `n + 1` times. -/
def often (n : ℕ) : XFile := ⟨X_SU_MAGIC, [⟨0, 3, 2⟩], [0, 0], adding :: List.replicate n still, []⟩

/-- The linker before the second pass, with one symbol, of value 1, and all segments at 0. -/
def ready : Counted where
  ld := { Ld.initial .zero with
    map := fun _ => 0
    symap := fun _ => 1
    symtab := fun _ => ⟨255, X_SY_GLB, 1, []⟩ }
  segsiz _ := 0
  segpos _ := 0
  objfile _ := 0
  objlen := 0
  buf _ := 0
  bpos := 1
  blen := 0
  dirty := false
  relfile := []
  count := 0

theorem ready_fresh : ready.Fresh := ⟨rfl, rfl, rfl⟩

/-- The items of a module, one by one. -/
theorem p2rels_cons (n : ℕ) (rl : XRel) :
    p2rels cc (n + 1) (rl.bytes ++ rest) c = p2rels cc n rest (c.reloc cc rl) := by
  have hlong : ¬ (rl.bytes ++ rest).length < RELSIZ := by
    rw [List.length_append]
    have hlen : rl.bytes.length = RELSIZ := rfl
    omega
  rw [p2rels, if_neg hlong, P2.rel_of_bytes]
  rfl

theorem rels_in_place_cons (n : ℕ) (rl : XRel) :
    d.rels_in_place cc (n + 1) (rl.bytes ++ rest) = (d.reloc_in_place cc rl).rels_in_place cc n rest := by
  have hlong : ¬ (rl.bytes ++ rest).length < RELSIZ := by
    rw [List.length_append]
    have hlen : rl.bytes.length = RELSIZ := rfl
    omega
  rw [P2.rels_in_place, if_neg hlong, P2.rel_of_bytes]
  rfl

theorem add_nothing (w : BitVec 16) : w + 0 = w := BitVec.add_zero w

/-- A word is what its bytes are. -/
theorem update_bytes (f : ℕ → Byte) (p : ℕ) : store f p (P2.word_in f p) = f := by
  obtain ⟨hhi, hlo⟩ := bytes_of_append (f p) (f (p + 1))
  rw [store, P2.word_in, hhi, hlo, Function.update_eq_self, Function.update_eq_self]

/-- The first segment of the module, and its first block, when all is at 0. -/
structure AtZero (s : P2) : Prop where
  saverel : s.ld.saverel = false
  segrel : s.ld.segrel 0 = 0
  segpos : s.segpos 0 = 0

theorem still_reloc (h : AtZero c.toP2) (hb : c.bpos = 0) : c.reloc Compiler.unsigned still = c.changed := by
  have hput : ∀ bas, c.putrel Compiler.unsigned still bas = c.toP2 := by
    intro bas
    unfold P2.putrel
    dsimp only
    rw [h.saverel]
    rfl
  have hval : (c.base Compiler.unsigned still).val = 0 := h.segrel
  have hpos : c.segpos (Compiler.unsigned.int_of_char still.x_rl_sgn) + still.x_rl_loc.toNat = 0 :=
    congrArg (· + 0) h.segpos
  have hget : Counted.getbuf ⟨c.toP2, c.count⟩ 0 = c := getbuf_of_eq hb
  have hbuf : c.changed.set_word 0 (c.changed.word 0) = c.changed := by
    have hsame := update_bytes c.buf 0
    unfold changed set_word P2.set_word
    rw [store] at hsame
    exact congrArg (fun b => (⟨{ c.toP2 with buf := b, dirty := true }, c.count + 1⟩ : Counted)) hsame
  unfold reloc target
  dsimp only
  rw [hput, hpos, hval, hget, add_nothing]
  exact hbuf

/-- **Changes that change nothing** are counted. -/
theorem stills_counted (n : ℕ) (rest : List Byte) (h : AtZero c.toP2) (hb : c.bpos = 0) :
    ∃ c', p2rels Compiler.unsigned n ((List.replicate n still).flatMap XRel.bytes ++ rest) c = some c' ∧
      c'.objfile = c.objfile ∧ c'.count = c.count + BitVec.ofNat 16 n := by
  induction n generalizing c with
  | zero => exact ⟨c, rfl, rfl, (BitVec.add_zero _).symm⟩
  | succ n ih =>
    obtain ⟨c', hrun, hfile, hcount⟩ := ih (c := c.changed) ⟨h.saverel, h.segrel, h.segpos⟩ hb
    refine ⟨c', ?_, hfile, ?_⟩
    · rw [List.replicate_succ, List.flatMap_cons, List.append_assoc, p2rels_cons, still_reloc h hb]
      exact hrun
    · rw [hcount, BitVec.ofNat_add, BitVec.add_comm (BitVec.ofNat 16 n), ← BitVec.add_assoc]
      rfl

theorem stills_in_place (n : ℕ) (rest : List Byte) (h : AtZero d) :
    ∃ d', d.rels_in_place Compiler.unsigned n ((List.replicate n still).flatMap XRel.bytes ++ rest) = some d' ∧
      d'.objfile = d.objfile := by
  induction n generalizing d with
  | zero => exact ⟨d, rfl, rfl⟩
  | succ n ih =>
    have hput : ∀ bas, d.putrel Compiler.unsigned still bas = d := by
      intro bas
      unfold P2.putrel
      dsimp only
      rw [h.saverel]
      rfl
    have hstep : d.reloc_in_place Compiler.unsigned still = d := by
      have hpatched : ∀ p, d.patched (d.base Compiler.unsigned still) p still.x_rl_flg = d.objfile := by
        intro p
        have hone : d.patched (d.base Compiler.unsigned still) p still.x_rl_flg =
            patch d.objlen d.objfile p fun w => w + (d.base Compiler.unsigned still).val := rfl
        have hval : (d.base Compiler.unsigned still).val = 0 := h.segrel
        rw [hone, hval, patch, add_nothing, update_bytes, ite_self]
      unfold P2.reloc_in_place
      dsimp only
      rw [hput, hpatched]
    obtain ⟨d', hrun, hfile⟩ := ih h
    refine ⟨d', ?_, hfile⟩
    rw [List.replicate_succ, List.flatMap_cons, List.append_assoc, rels_in_place_cons, hstep]
    exact hrun

/-- The linker when the segment of the module is copied. -/
def copied : Counted where
  ld := { ready.ld with
    modno := 1
    segrel := Function.update ready.ld.segrel 0 0
    segtab := Function.update (Function.update ready.ld.segtab 0 ⟨2, 0, 0, 0, 0, false⟩) 0
      ⟨2, 2, 0, 0, 0, false⟩ }
  segsiz := Function.update (fun _ => 0) 0 0
  segpos := Function.update (fun _ => 0) 0 0
  objfile a := if 0 ≤ a ∧ a < 0 + 2 then [0, 0].getD (a - 0) 0 else 0
  objlen := 2
  buf := copied_through 2 [0, 0] fun _ => 0
  bpos := 1
  blen := 0
  dirty := false
  relfile := []
  count := 0

/-- The same without the buffer. -/
def copied_in_place : P2 := { copied.toP2 with buf := ready.buf }

theorem often_seg (n : ℕ) : ready.p2segs (often n) =
      some (copied, adding.bytes ++ ((List.replicate n still).flatMap XRel.bytes ++ [])) ∧
    ready.toP2.p2segs (often n) =
      some (copied_in_place, adding.bytes ++ ((List.replicate n still).flatMap XRel.bytes ++ [])) := by
  have hbody : (often n).body = 0 :: 0 :: (adding.bytes ++ ((List.replicate n still).flatMap XRel.bytes ++ [])) :=
    rfl
  generalize adding.bytes ++ ((List.replicate n still).flatMap XRel.bytes ++ []) = tail at hbody ⊢
  have hseg : ready.toP2.p2start.p2seg (0 :: 0 :: tail) 0 ⟨0, 3, 2⟩ = some (copied_in_place, tail) := rfl
  have hone : (often n).x_sg.zipIdx = [(⟨0, 3, 2⟩, 0)] := rfl
  constructor
  · unfold p2segs
    rw [hbody, hone, List.foldlM_cons]
    unfold p2seg
    dsimp only
    rw [hseg]
    rfl
  · unfold P2.p2segs
    rw [hbody, hone, List.foldlM_cons, hseg]
    rfl

/-- The word after its first change. -/
theorem often_starts (n : ℕ) : ∃ u : Counted, ∃ d : P2,
    ready.p2load Compiler.unsigned (often n) =
      (p2rels Compiler.unsigned n ((List.replicate n still).flatMap XRel.bytes ++ []) u).map flshbuf ∧
    ready.toP2.load_in_place Compiler.unsigned (often n) =
      d.rels_in_place Compiler.unsigned n ((List.replicate n still).flatMap XRel.bytes ++ []) ∧
    AtZero u.toP2 ∧ AtZero d ∧ u.bpos = 0 ∧ u.count = 1 ∧ u.objfile 1 = 0 ∧ d.objfile 1 = 1 := by
  obtain ⟨hseg, hseg'⟩ := often_seg n
  have hlen : (often n).x_rel.length = n + 1 := by simp [often]
  refine ⟨copied.reloc Compiler.unsigned adding, copied_in_place.reloc_in_place Compiler.unsigned adding,
    ?_, ?_, ⟨rfl, rfl, rfl⟩, ⟨rfl, rfl, rfl⟩, rfl, rfl, rfl, by decide⟩
  · unfold p2load p2dorel
    rw [hseg, hlen, Option.bind_eq_bind, Option.bind_some, p2rels_cons]
  · unfold P2.load_in_place
    rw [hseg', hlen, Option.bind_eq_bind, Option.bind_some, rels_in_place_cons]

/-- **65536 changes of one block** are lost: the first of them changes the word. -/
theorem counter_wraps : ¬ ∀ (cc : Compiler) (fs : List XFile) (c c' : Counted), c.Fresh →
    c.p2loads cc fs = some c' →
    ∃ d', c.toP2.loads_in_place cc fs = some d' ∧ c'.objfile = d'.objfile ∧ c'.objlen = d'.objlen := by
  intro h
  obtain ⟨u, d, hload, hplace, hu, hd, hb, hcount, hu1, hd1⟩ := often_starts 65535
  obtain ⟨w, hw, hwfile, hwcount⟩ := stills_counted 65535 [] hu hb
  obtain ⟨v, hv, hvfile⟩ := stills_in_place 65535 [] hd
  have hflush : w.flshbuf = w := by
    have hzero : w.count = 0 := by
      rw [hwcount, hcount]
      decide
    unfold flshbuf
    rw [if_neg (not_not.mpr hzero)]
  rw [hw, Option.map_some, hflush] at hload
  rw [hv] at hplace
  obtain ⟨d', hd', hfile, -⟩ := h Compiler.unsigned [often 65535] ready w ready_fresh (by
    unfold p2loads
    rw [List.foldlM_cons, hload]
    rfl)
  unfold P2.loads_in_place at hd'
  rw [List.foldlM_cons, hplace] at hd'
  obtain rfl := Option.some.inj hd'
  have hone := congrFun hfile 1
  rw [hwfile, hvfile, hu1, hd1] at hone
  exact absurd hone (by decide)

/-- One item is safe. -/
theorem often_safe : SafePass Compiler.unsigned [often 0] ready := by
  obtain ⟨hseg, -⟩ := often_seg 0
  refine ⟨fun r hr => ?_, fun _ _ => trivial⟩
  rw [hseg] at hr
  obtain rfl := Option.some.inj hr
  refine ⟨⟨fun w hw => ?_, .inr fun _ => rfl, fun h => absurd h (by decide)⟩, fun h => absurd h (by decide)⟩
  have hwords : P2.words (copied.base Compiler.unsigned adding) adding.x_rl_flg =
      [(0, fun w => w + (copied.base Compiler.unsigned adding).val)] := rfl
  obtain rfl := List.mem_singleton.mp (hwords ▸ hw)
  decide

theorem relocation_transparent_one : ∃ c' d', ready.p2loads Compiler.unsigned [often 0] = some c' ∧
    ready.toP2.loads_in_place Compiler.unsigned [often 0] = some d' ∧ c'.objfile = d'.objfile ∧
      c'.objlen = d'.objlen := by
  obtain ⟨u, -, hload, -⟩ := often_starts 0
  have hrun : ready.p2loads Compiler.unsigned [often 0] = some u.flshbuf := by
    unfold p2loads
    rw [List.foldlM_cons, hload]
    rfl
  obtain ⟨⟨d', hd', hfile, hlen⟩, -⟩ :=
    relocation_transparent Compiler.unsigned [often 0] ready u.flshbuf ready_fresh often_safe hrun
  exact ⟨u.flshbuf, d', hrun, hd', hfile, hlen⟩

end Counted

end Cpm8000.Linker
