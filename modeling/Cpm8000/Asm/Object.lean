/-
# The assembler's object output

`emitb` puts a byte into the block under construction: the bytes grow from the front of `objbuf`, three
bytes for each relocatable item from its end. A block goes out when it is full, when the section or the
address is not the one that comes next, and before another kind of block.

`Holds` relates what was emitted to what the file and the buffer hold; every call keeps it
(`Holds.call`). So reading the text blocks gives back what was emitted, and no relocatable item is in
two blocks: `output_faithful`.

The listing that `emitb` also writes is left out. `exit(1)` is no result.
-/
import Cpm8000.Asm.Blocks

namespace Cpm8000.Asm

open Cpm8000.Sys

def RANOP : BitVec 16 := 0
def RAA8 : BitVec 16 := 0x4000
def RAZSS : BitVec 16 := 0x6000
def RAZLS : BitVec 16 := 0xe000
def RAMSK : BitVec 16 := 0xf000
def RBABS : BitVec 16 := 0
def RBMSK : BitVec 16 := 0x0fff
def SECSIZ : ℕ := 255

/-! ## 1. The code -/

/-- What a section keeps while another one is current. -/
structure Section where
  se_loc : BitVec 16
  se_aln : Byte
  se_ext : Byte
  se_atr : Byte

/-- The assembler's state, as far as object output goes; `objtop` and `relbot` are places in
`objbuf`, and `OBJECT` is what was written to the file. -/
structure Emitter where
  pass2 : Bool
  objbuf : ℕ → Byte
  objtop : ℕ
  relbot : ℕ
  objtyp : Byte
  OBJECT : List Byte
  nxtloc : BitVec 32
  nxtsec : BitVec 16
  curloc : BitVec 32
  cursec : BitVec 16
  curaln : BitVec 16
  curext : BitVec 16
  curatr : BitVec 16
  sectab : ℕ → Section

namespace Emitter

variable (s : Emitter)

/-- The bytes of the block, and its relocation records. -/
def text : List Byte := (List.range s.objtop).map s.objbuf

def rels : List Byte := (List.range' s.relbot (OBJSIZ - s.relbot)).map s.objbuf

/-- `relbot-objtop`. -/
def room : ℤ := (s.relbot : ℤ) - s.objtop

def oflush : Emitter :=
  { s with
    OBJECT :=
      if s.objtyp ≠ 0 then s.OBJECT ++ s.objtyp :: BitVec.ofInt 8 (OBJSIZ - s.room) :: (s.text ++ s.rels)
      else s.OBJECT
    objtop := 0
    relbot := OBJSIZ
    objtyp := 0 }

def oputb (c : Byte) : Option Emitter :=
  if s.objtop ≥ s.relbot then none
  else some { s with objbuf := Function.update s.objbuf s.objtop c, objtop := s.objtop + 1 }

def oputw (w : BitVec 16) : Option Emitter :=
  (s.oputb (w.setWidth 8)).bind fun s => s.oputb ((w >>> 8).setWidth 8)

def oputl (l : BitVec 32) : Option Emitter :=
  (s.oputw (l.setWidth 16)).bind fun s => s.oputw ((l >>> 16).setWidth 16)

def setorg : Option Emitter :=
  if s.objtyp ≠ OBTXT ∨ s.nxtloc ≠ s.curloc ∨ s.nxtsec ≠ s.cursec then
    let t := { s.oflush with objtyp := OBTXT }
    ((t.oputl s.curloc).bind fun t => (t.oputb (s.cursec.setWidth 8)).bind fun t => t.oputb 0).map
      fun t => { t with nxtloc := s.curloc, nxtsec := s.cursec }
  else some s

/-- `*--relbot = c`. -/
def putrel (c : Byte) : Emitter :=
  { s with objbuf := Function.update s.objbuf (s.relbot - 1) c, relbot := s.relbot - 1 }

/-- The relocation an item really needs. -/
def needed (reloc : BitVec 16) : BitVec 16 :=
  if reloc &&& RAMSK = RANOP ∨ reloc &&& RBMSK = RBABS then 0 else reloc

/-- The record of an item, when it needs one. -/
def putrec (reloc : BitVec 16) : Emitter :=
  if reloc ≠ 0 then
    ((s.putrel ((reloc >>> 8).setWidth 8)).putrel (reloc.setWidth 8)).putrel (BitVec.ofNat 8 s.objtop)
  else s

/-- What `emitb` does in the second pass. -/
def emitObject (value reloc : BitVec 16) : Option Emitter :=
  let reloc := needed reloc
  let s := if s.room < (if reloc ≠ 0 then 7 else 1) then s.oflush else s
  s.setorg.bind fun s =>
    ((s.putrec reloc).oputb (value.setWidth 8)).map fun s =>
      { s with objbuf := Function.update s.objbuf 5 (s.objbuf 5 + 1) }

def emitb (value reloc : BitVec 16) : Option Emitter :=
  (if s.pass2 then s.emitObject value reloc else some s).map fun s =>
    { s with curloc := s.curloc + 1, nxtloc := s.curloc + 1 }

def emitw (value reloc : BitVec 16) : Option Emitter :=
  (s.emitb value reloc).bind fun s => s.emitb (value >>> 8) 0

def emitl (value : BitVec 32) (reloc : BitVec 16) : Option Emitter :=
  (s.emitw (value.setWidth 16) reloc).bind fun s => s.emitw ((value >>> 16).setWidth 16) 0

def emitwm (value reloc : BitVec 16) : Option Emitter :=
  (s.emitb (value >>> 8) reloc).bind fun s => s.emitb value 0

def emitlm (value : BitVec 32) (reloc : BitVec 16) : Option Emitter :=
  (s.emitwm ((value >>> 16).setWidth 16) reloc).bind fun s => s.emitwm (value.setWidth 16) 0

/-- The segment in an address, for a base. -/
def segment (reloc : BitVec 16) : BitVec 16 := if reloc ≤ 0x7f then reloc else 0x7f

def emitls (value : BitVec 32) (reloc : BitVec 16) : Option Emitter :=
  let reloc := reloc &&& RBMSK
  let value := value &&& 0xffff
  s.emitlm ((0x80 ||| segment reloc).setWidth 32 <<< 24 ||| value) (RAZLS ||| reloc)

def emitss (value reloc : BitVec 16) : Option Emitter :=
  let reloc := reloc &&& RBMSK
  let value := value &&& 0xff
  s.emitwm (segment reloc <<< 8 ||| value) (RAZSS ||| reloc)

def setsec (sec : BitVec 16) : Emitter :=
  let sectab := Function.update s.sectab s.cursec.toNat
    ⟨s.curloc.setWidth 16, s.curaln.setWidth 8, s.curext.setWidth 8, s.curatr.setWidth 8⟩
  { s with
    sectab := sectab
    cursec := sec
    curaln := (sectab sec.toNat).se_aln.signExtend 16
    curext := (sectab sec.toNat).se_ext.signExtend 16
    curatr := (sectab sec.toNat).se_atr.signExtend 16
    curloc := (sectab sec.toNat).se_loc.setWidth 32 }

end Emitter

/-- The calls of a pass: something emitted, another section, and another address, set up for text at
once as `.org`, `.block` and `.align` do, or not, as instructions do that only skip a byte. -/
inductive Call
  | emitb (value reloc : BitVec 16)
  | emitw (value reloc : BitVec 16)
  | emitl (value : BitVec 32) (reloc : BitVec 16)
  | emitwm (value reloc : BitVec 16)
  | emitlm (value : BitVec 32) (reloc : BitVec 16)
  | emitls (value : BitVec 32) (reloc : BitVec 16)
  | emitss (value reloc : BitVec 16)
  | setsec (sec : BitVec 16) (h : sec.toNat < SECSIZ)
  | setorg (loc : BitVec 32)
  | skip (loc : BitVec 32)

namespace Call

open Emitter

def run : Call → Emitter → Option Emitter
  | emitb value reloc, s => s.emitb value reloc
  | emitw value reloc, s => s.emitw value reloc
  | emitl value reloc, s => s.emitl value reloc
  | emitwm value reloc, s => s.emitwm value reloc
  | emitlm value reloc, s => s.emitlm value reloc
  | emitls value reloc, s => s.emitls value reloc
  | emitss value reloc, s => s.emitss value reloc
  | setsec sec _, s => some (s.setsec sec)
  | setorg loc, s =>
    let s := { s with curloc := loc }
    if s.pass2 then s.setorg else some s
  | skip loc, s => some { s with curloc := loc }

/-- The bytes of a long, the most significant first. -/
def longBytes (value : BitVec 32) (reloc : BitVec 16) : List (BitVec 16 × BitVec 16) :=
  [((value >>> 16).setWidth 16 >>> 8, reloc), ((value >>> 16).setWidth 16, 0),
    (value.setWidth 16 >>> 8, 0), (value.setWidth 16, 0)]

/-- The bytes a call emits, and the relocation each comes with. -/
def bytes : Call → List (BitVec 16 × BitVec 16)
  | emitb value reloc => [(value, reloc)]
  | emitw value reloc => [(value, reloc), (value >>> 8, 0)]
  | emitl value reloc =>
    [(value.setWidth 16, reloc), (value.setWidth 16 >>> 8, 0), ((value >>> 16).setWidth 16, 0),
      ((value >>> 16).setWidth 16 >>> 8, 0)]
  | emitwm value reloc => [(value >>> 8, reloc), (value, 0)]
  | emitlm value reloc => longBytes value reloc
  | emitls value reloc =>
    longBytes ((0x80 ||| segment (reloc &&& RBMSK)).setWidth 32 <<< 24 ||| value &&& 0xffff)
      (RAZLS ||| reloc &&& RBMSK)
  | emitss value reloc =>
    let value := segment (reloc &&& RBMSK) <<< 8 ||| value &&& 0xff
    [(value >>> 8, RAZSS ||| reloc &&& RBMSK), (value, 0)]
  | _ => []

/-- What a call emits where the state is. -/
def items (c : Call) (s : Emitter) : List Text :=
  expand (s.cursec.setWidth 8) s.curloc (c.bytes.map fun b => (b.1.setWidth 8, needed b.2))

/-- Which of these bytes must be in one block with the byte before them: the bytes after the first, of a
relocatable item. -/
def joined (c : Call) : List Bool :=
  match c.bytes with
  | [] => []
  | b :: l => false :: l.map fun _ => needed b.2 ≠ 0

/-- An emitting call emits its bytes one after the other. -/
theorem run_eq_foldlM (c : Call) (h : c.bytes ≠ []) (s : Emitter) :
    c.run s = c.bytes.foldlM (fun s b => s.emitb b.1 b.2) s := by
  cases c with
  | setsec sec _ => exact absurd rfl h
  | setorg loc => exact absurd rfl h
  | skip loc => exact absurd rfl h
  | _ => simp [run, bytes, longBytes, Emitter.emitw, Emitter.emitl, Emitter.emitwm, Emitter.emitlm,
      Emitter.emitls, Emitter.emitss, Option.bind_assoc]

/-- Only the first byte of a call comes with a relocation, and at most three follow it. -/
theorem rest_of_bytes (c : Call) {b : BitVec 16 × BitVec 16} {bs : List (BitVec 16 × BitVec 16)}
    (h : c.bytes = b :: bs) : (∀ x ∈ bs, x.2 = 0) ∧ bs.length ≤ 3 := by
  cases c <;> simp only [bytes, longBytes, List.cons.injEq, reduceCtorEq] at h <;>
    obtain ⟨-, rfl⟩ := h <;> simp

end Call

/-! ## 2. The buffer -/

namespace Emitter

variable {s : Emitter}

@[simp] theorem length_text : s.text.length = s.objtop := by
  rw [text, List.length_map, List.length_range]

@[simp] theorem length_rels : s.rels.length = OBJSIZ - s.relbot := by
  rw [rels, List.length_map, List.length_range']

theorem getD_text {i : ℕ} (h : i < s.objtop) : s.text.getD i 0 = s.objbuf i := by
  simp [text, List.getD, h]

/-- A change of the buffer outside a region. -/
theorem map_update_of_notMem {l : List ℕ} {i : ℕ} (f : ℕ → Byte) (c : Byte) (h : i ∉ l) :
    l.map (Function.update f i c) = l.map f := by
  refine List.map_congr_left fun j hj => Function.update_of_ne ?_ _ _
  rintro rfl
  exact h hj

/-- What putting bytes into the buffer leaves alone. -/
structure Same (s s' : Emitter) : Prop where
  pass2 : s'.pass2 = s.pass2
  objtyp : s'.objtyp = s.objtyp
  OBJECT : s'.OBJECT = s.OBJECT
  nxtloc : s'.nxtloc = s.nxtloc
  nxtsec : s'.nxtsec = s.nxtsec
  curloc : s'.curloc = s.curloc
  cursec : s'.cursec = s.cursec

theorem Same.refl (s : Emitter) : Same s s := ⟨rfl, rfl, rfl, rfl, rfl, rfl, rfl⟩

theorem Same.trans {t u : Emitter} (h : Same s t) (h' : Same t u) : Same s u :=
  ⟨h'.1.trans h.1, h'.2.trans h.2, h'.3.trans h.3, h'.4.trans h.4, h'.5.trans h.5, h'.6.trans h.6,
    h'.7.trans h.7⟩

/-- A byte put at the end of the text. -/
theorem oputb_eq (c : Byte) (h : s.objtop < s.relbot) : ∃ s', s.oputb c = some s' ∧
    s'.text = s.text ++ [c] ∧ s'.rels = s.rels ∧ s'.relbot = s.relbot ∧ Same s s' := by
  refine ⟨_, if_neg (Nat.not_le_of_lt h), ?_, ?_, rfl, ⟨rfl, rfl, rfl, rfl, rfl, rfl, rfl⟩⟩
  · unfold text
    dsimp only
    rw [List.range_succ, List.map_append, map_update_of_notMem _ _ (by simp), List.map_singleton,
      Function.update_self]
  · unfold rels
    dsimp only
    refine map_update_of_notMem _ _ ?_
    rw [List.mem_range'_1]
    omega

/-- A byte put below the records. -/
theorem putrel_eq (c : Byte) (h : s.objtop < s.relbot) (htop : s.relbot ≤ OBJSIZ) :
    (s.putrel c).text = s.text ∧ (s.putrel c).rels = c :: s.rels := by
  unfold putrel text rels
  dsimp only
  constructor
  · refine map_update_of_notMem _ _ ?_
    rw [List.mem_range]
    omega
  · have hlen : OBJSIZ - (s.relbot - 1) = OBJSIZ - s.relbot + 1 := by omega
    have hnext : s.relbot - 1 + 1 = s.relbot := by omega
    rw [hlen, List.range'_succ, hnext, List.map_cons, Function.update_self, map_update_of_notMem]
    rw [List.mem_range'_1]
    omega

/-- A byte of the text changed. -/
theorem poke_eq {i : ℕ} (c : Byte) (h : i < s.objtop) (hle : s.objtop ≤ s.relbot) :
    ({ s with objbuf := Function.update s.objbuf i c } : Emitter).text = s.text.set i c ∧
      ({ s with objbuf := Function.update s.objbuf i c } : Emitter).rels = s.rels := by
  constructor
  · unfold text
    dsimp only
    refine List.ext_getElem (by simp) fun j hj _ => ?_
    rw [List.getElem_map, List.getElem_range, List.getElem_set, List.getElem_map, List.getElem_range,
      Function.update_apply]
    by_cases hij : i = j
    · rw [if_pos hij.symm, if_pos hij]
    · rw [if_neg (Ne.symm hij), if_neg hij]
  · unfold rels
    dsimp only
    refine map_update_of_notMem _ _ ?_
    rw [List.mem_range'_1]
    omega

/-- **The text block under construction**: its bytes, and where the next one belongs. -/
structure TextBlock (s : Emitter) (sec : Byte) (addr : BitVec 32) (l : List (Byte × BitVec 16)) :
    Prop where
  typ : s.objtyp = OBTXT
  text : s.text = header addr sec (BitVec.ofNat 8 l.length) ++ l.map Prod.fst
  rels : s.rels = recs 6 l
  le : s.objtop ≤ s.relbot
  top : s.relbot ≤ OBJSIZ
  loc : s.nxtloc = addr + BitVec.ofNat 32 l.length
  sec : s.nxtsec.setWidth 8 = sec

theorem TextBlock.objtop {sec : Byte} {addr : BitVec 32} {l : List (Byte × BitVec 16)}
    (h : TextBlock s sec addr l) : s.objtop = 6 + l.length := by
  rw [← length_text, h.text, List.length_append, List.length_map]
  rfl

/-- What the buffer holds of the text that was emitted: nothing, or the block under construction. -/
structure Buffer (s : Emitter) (cur : List Text) : Prop where
  le : s.objtop ≤ s.relbot
  top : s.relbot ≤ OBJSIZ
  cur : s.objtyp ≠ OBTXT ∧ cur = [] ∨ ∃ sec addr l, TextBlock s sec addr l ∧ cur = expand sec addr l

/-- The next byte can go into the block under construction, and at least `k` fit. -/
structure Ready (s : Emitter) (cur : List Text) (k : ℕ) : Prop where
  block : ∃ sec addr l, TextBlock s sec addr l ∧ cur = expand sec addr l
  loc : s.nxtloc = s.curloc
  sec : s.nxtsec = s.cursec
  room : (k : ℤ) ≤ s.room

theorem Ready.buffer {cur : List Text} {k : ℕ} (h : Ready s cur k) : Buffer s cur := by
  obtain ⟨sec, addr, l, hb, hcur⟩ := h.block
  exact ⟨hb.le, hb.top, .inr ⟨sec, addr, l, hb, hcur⟩⟩

/-- A block goes out with the number of its bytes before them. -/
theorem oflush_object (hle : s.objtop ≤ s.relbot) (htop : s.relbot ≤ OBJSIZ) (htyp : s.objtyp ≠ 0) :
    (s.text ++ s.rels).length < 256 ∧ s.oflush.OBJECT =
      s.OBJECT ++ s.objtyp :: BitVec.ofNat 8 (s.text ++ s.rels).length :: (s.text ++ s.rels) := by
  have hlen : (s.text ++ s.rels).length = s.objtop + (OBJSIZ - s.relbot) := by
    rw [List.length_append, length_text, length_rels]
  have hcount : (OBJSIZ : ℤ) - s.room = ((s.text ++ s.rels).length : ℤ) := by
    rw [hlen, room]
    omega
  unfold oflush
  dsimp only
  rw [if_pos htyp, hcount, hlen]
  refine ⟨?_, rfl⟩
  unfold OBJSIZ at *
  omega

/-- **Flushing**: the text of the block becomes one more text block of the file. -/
theorem Buffer.oflush {cur : List Text} (h : Buffer s cur) {L : List (List Text)}
    (hf : textBlocks s.OBJECT = some L) : ∃ L', textBlocks s.oflush.OBJECT = some L' ∧
      (L' = L ∧ cur = [] ∨ L' = L ++ [cur]) := by
  by_cases htyp : s.objtyp = 0
  · have hsame : s.oflush.OBJECT = s.OBJECT := by
      unfold Emitter.oflush
      dsimp only
      rw [if_neg (not_not.mpr htyp)]
    rcases h.cur with ⟨-, hcur⟩ | ⟨sec, addr, l, hb, -⟩
    · exact ⟨L, hsame ▸ hf, .inl ⟨rfl, hcur⟩⟩
    · rw [hb.typ] at htyp
      exact absurd htyp (by decide)
  · obtain ⟨hlt, hobj⟩ := oflush_object h.le h.top htyp
    rw [hobj, textBlocks_append hf _ hlt]
    rcases h.cur with ⟨hno, hcur⟩ | ⟨sec, addr, l, hb, hcur⟩
    · rw [if_neg hno]
      exact ⟨L, rfl, .inl ⟨rfl, hcur⟩⟩
    · have hl : 6 + l.length ≤ 256 := by
        have hle := h.le
        have htop := h.top
        rw [hb.objtop] at hle
        unfold OBJSIZ at htop
        omega
      rw [if_pos hb.typ, hb.text, hb.rels, decodeText_encode addr sec l hl, Option.map_some, hcur]
      exact ⟨_, rfl, .inr rfl⟩

@[simp] theorem length_header (addr : BitVec 32) (sec count : Byte) :
    (header addr sec count).length = 6 := rfl

/-- Several bytes put at the end of the text. -/
theorem putAll_eq (l : List Byte) (h : s.objtop + l.length ≤ s.relbot) : ∃ s',
    l.foldlM (fun s c => s.oputb c) s = some s' ∧ s'.text = s.text ++ l ∧ s'.rels = s.rels ∧
      s'.relbot = s.relbot ∧ Same s s' := by
  induction l generalizing s with
  | nil => exact ⟨s, rfl, (List.append_nil _).symm, rfl, rfl, Same.refl s⟩
  | cons c l ih =>
    rw [List.length_cons] at h
    obtain ⟨s₁, hput, htext, hrels, hbot, hsame⟩ := @oputb_eq s c (by omega)
    have htop : s₁.objtop = s.objtop + 1 := by
      rw [← length_text, htext, List.length_append, length_text]
      rfl
    obtain ⟨s', hall, htext', hrels', hbot', hsame'⟩ := @ih s₁ (by omega)
    refine ⟨s', ?_, ?_, hrels'.trans hrels, hbot'.trans hbot, hsame.trans hsame'⟩
    · rw [List.foldlM_cons, hput]
      exact hall
    · rw [htext', htext, List.append_assoc]
      rfl

/-- The header of a block, byte by byte. -/
theorem header_put (s : Emitter) (addr : BitVec 32) (sec : Byte) :
    (header addr sec 0).foldlM (fun s c => s.oputb c) s =
      (s.oputl addr).bind fun s => (s.oputb sec).bind fun s => s.oputb 0 := by
  have h₀ : (addr.setWidth 16).setWidth 8 = addr.setWidth 8 := by
    apply BitVec.eq_of_getLsbD_eq
    intro i hi
    simp only [BitVec.getLsbD_setWidth]
    grind
  have h₁ : (addr.setWidth 16 >>> 8).setWidth 8 = (addr >>> 8).setWidth 8 := by
    apply BitVec.eq_of_getLsbD_eq
    intro i hi
    simp only [BitVec.getLsbD_setWidth, BitVec.getLsbD_ushiftRight]
    grind
  have h₂ : ((addr >>> 16).setWidth 16).setWidth 8 = (addr >>> 16).setWidth 8 := by
    apply BitVec.eq_of_getLsbD_eq
    intro i hi
    simp only [BitVec.getLsbD_setWidth, BitVec.getLsbD_ushiftRight]
    grind
  have h₃ : ((addr >>> 16).setWidth 16 >>> 8).setWidth 8 = (addr >>> 24).setWidth 8 := by
    apply BitVec.eq_of_getLsbD_eq
    intro i hi
    simp only [BitVec.getLsbD_setWidth, BitVec.getLsbD_ushiftRight]
    grind
  simp [header, oputl, oputw, h₀, h₁, h₂, h₃, Option.bind_assoc]

/-- **`setorg`**: the block goes on when the next byte belongs behind it; if not, it is flushed and a new
one begun. -/
theorem Buffer.setorg {cur : List Text} (h : Buffer s cur) : ∃ s', s.setorg = some s' ∧
    s'.pass2 = s.pass2 ∧ s'.curloc = s.curloc ∧ s'.cursec = s.cursec ∧
    (s' = s ∧ Ready s cur 0 ∨ s'.OBJECT = s.oflush.OBJECT ∧ Ready s' [] 249) := by
  unfold Emitter.setorg
  by_cases hnew : s.objtyp ≠ OBTXT ∨ s.nxtloc ≠ s.curloc ∨ s.nxtsec ≠ s.cursec
  · rw [if_pos hnew]
    dsimp only
    have hfit : 0 + (header s.curloc (s.cursec.setWidth 8) 0).length ≤ OBJSIZ := by
      rw [length_header]
      decide
    obtain ⟨t, hput, htext, hrels, hbot, hsame⟩ := @putAll_eq { s.oflush with objtyp := OBTXT }
      (header s.curloc (s.cursec.setWidth 8) 0) hfit
    rw [header_put] at hput
    have htop : t.objtop = 6 := by
      rw [← length_text, htext]
      rfl
    replace hbot : t.relbot = OBJSIZ := hbot
    rw [hput, Option.map_some]
    refine ⟨_, rfl, hsame.pass2, hsame.curloc, hsame.cursec, .inr ⟨hsame.OBJECT, ?_,
      hsame.curloc.symm, hsame.cursec.symm, ?_⟩⟩
    · refine ⟨s.cursec.setWidth 8, s.curloc, [], ⟨hsame.objtyp, htext, hrels, ?_, ?_, ?_, rfl⟩, rfl⟩
      · dsimp only
        rw [htop, hbot]
        decide
      · exact Nat.le_of_eq hbot
      · exact (BitVec.add_zero _).symm
    · unfold room
      dsimp only
      rw [htop, hbot]
      decide
  · rw [if_neg hnew]
    rw [not_or, not_or, not_not, not_not, not_not] at hnew
    obtain ⟨htyp, hloc, hsec⟩ := hnew
    refine ⟨s, rfl, rfl, rfl, rfl, .inl ⟨rfl, h.cur.resolve_left fun hc => hc.1 htyp, hloc, hsec, ?_⟩⟩
    have hle := h.le
    rw [room]
    omega

/-- The bytes an item's record and its first byte take. -/
def width (reloc : BitVec 16) : ℕ := if reloc ≠ 0 then 4 else 1

theorem putrec_eq (reloc : BitVec 16) (h : (width reloc : ℤ) ≤ s.room) (htop : s.relbot ≤ OBJSIZ) :
    (s.putrec reloc).text = s.text ∧ (s.putrec reloc).rels = record s.objtop reloc ++ s.rels ∧
      (s.putrec reloc).relbot + (width reloc - 1) = s.relbot ∧ Same s (s.putrec reloc) := by
  unfold putrec record width room at *
  by_cases hr : reloc ≠ 0
  · rw [if_pos hr] at h
    rw [if_pos hr, if_pos hr, if_pos hr]
    have hfit : s.objtop + 4 ≤ s.relbot := by omega
    obtain ⟨ht₁, hr₁⟩ := @putrel_eq s ((reloc >>> 8).setWidth 8) (by omega) htop
    have hlt₂ : (s.putrel ((reloc >>> 8).setWidth 8)).objtop <
        (s.putrel ((reloc >>> 8).setWidth 8)).relbot := by
      unfold putrel
      dsimp only
      omega
    obtain ⟨ht₂, hr₂⟩ := putrel_eq (reloc.setWidth 8) hlt₂ (Nat.le_trans (Nat.sub_le _ _) htop)
    have hlt₃ : ((s.putrel ((reloc >>> 8).setWidth 8)).putrel (reloc.setWidth 8)).objtop <
        ((s.putrel ((reloc >>> 8).setWidth 8)).putrel (reloc.setWidth 8)).relbot := by
      unfold putrel
      dsimp only
      omega
    obtain ⟨ht₃, hr₃⟩ := putrel_eq (BitVec.ofNat 8 s.objtop) hlt₃
      (Nat.le_trans (Nat.sub_le _ _) (Nat.le_trans (Nat.sub_le _ _) htop))
    refine ⟨ht₃.trans (ht₂.trans ht₁), by rw [hr₃, hr₂, hr₁]; rfl, ?_,
      ⟨rfl, rfl, rfl, rfl, rfl, rfl, rfl⟩⟩
    unfold putrel
    dsimp only
    omega
  · rw [if_neg hr, if_neg hr, if_neg hr]
    exact ⟨rfl, rfl, rfl, Same.refl s⟩

/-- **A byte that goes into the block under construction**, with the record of the item it begins. -/
theorem TextBlock.append {sec : Byte} {addr : BitVec 32} {l : List (Byte × BitVec 16)}
    (h : TextBlock s sec addr l) (hloc : s.nxtloc = s.curloc) (v : Byte) (reloc : BitVec 16)
    (hroom : (width reloc : ℤ) ≤ s.room) : ∃ s',
    ((s.putrec reloc).oputb v).map (fun s =>
      { s with objbuf := Function.update s.objbuf 5 (s.objbuf 5 + 1) }) = some s' ∧
    Same s s' ∧ s'.room = s.room - width reloc ∧
    TextBlock { s' with curloc := s'.curloc + 1, nxtloc := s'.curloc + 1 } sec addr
      (l ++ [(v, reloc)]) := by
  obtain ⟨htext, hrels, hbot, hsame⟩ := putrec_eq reloc hroom h.top
  have hobjtop := h.objtop
  have htop : (s.putrec reloc).objtop = s.objtop := by
    rw [← length_text, htext, length_text]
  have hwidth : 1 ≤ width reloc := by
    unfold width
    split_ifs <;> decide
  have hlt : (s.putrec reloc).objtop < (s.putrec reloc).relbot := by
    rw [htop]
    unfold room at hroom
    omega
  obtain ⟨t, hput, htext', hrels', hbot', hsame'⟩ := oputb_eq v hlt
  have htop' : t.objtop = s.objtop + 1 := by
    rw [← length_text, htext', htext, List.length_append, length_text]
    rfl
  have hle' : t.objtop ≤ t.relbot := by omega
  obtain ⟨htext'', hrels''⟩ := poke_eq (t.objbuf 5 + 1) (by omega : 5 < t.objtop) hle'
  rw [hput]
  refine ⟨_, rfl, hsame.trans ⟨hsame'.1, hsame'.2, hsame'.3, hsame'.4, hsame'.5, hsame'.6, hsame'.7⟩, ?_,
    ⟨?_, ?_, ?_, hle', ?_, ?_, ?_⟩⟩
  · unfold room
    dsimp only
    omega
  · exact hsame'.objtyp.trans (hsame.objtyp.trans h.typ)
  · have hcount : t.objbuf 5 = BitVec.ofNat 8 l.length := by
      rw [← getD_text (by omega : 5 < t.objtop), htext', htext, h.text]
      rfl
    refine Eq.trans htext'' ?_
    rw [hcount, htext', htext, h.text, List.length_append, BitVec.ofNat_add, List.map_append,
      List.append_assoc]
    rfl
  · refine Eq.trans hrels'' ?_
    rw [hrels', hrels, h.rels, recs_append, hobjtop]
  · have htop'' := h.top
    dsimp only
    omega
  · dsimp only
    rw [hsame'.curloc, hsame.curloc, ← hloc, h.loc, List.length_append, BitVec.ofNat_add,
      BitVec.add_assoc]
    rfl
  · dsimp only
    rw [hsame'.nxtsec, hsame.nxtsec]
    exact h.sec

/-- The byte that is emitted, where the state is. -/
def item (s : Emitter) (value reloc : BitVec 16) : Text :=
  ⟨s.cursec.setWidth 8, s.curloc, value.setWidth 8, needed reloc⟩

/-- **A byte for which there is room goes into the block under construction.** -/
theorem Ready.emitObject {cur : List Text} {k : ℕ} (h : Ready s cur k) (v : Byte) (reloc : BitVec 16)
    (hroom : (width reloc : ℤ) ≤ s.room) : ∃ s',
    ((s.putrec reloc).oputb v).map (fun s =>
      { s with objbuf := Function.update s.objbuf 5 (s.objbuf 5 + 1) }) = some s' ∧
    Same s s' ∧ s'.room = s.room - width reloc ∧ ∀ n : ℕ, (n : ℤ) ≤ s'.room →
    Ready { s' with curloc := s'.curloc + 1, nxtloc := s'.curloc + 1 }
      (cur ++ [⟨s.cursec.setWidth 8, s.curloc, v, reloc⟩]) n := by
  obtain ⟨sec, addr, l, hb, hcur⟩ := h.block
  obtain ⟨s', hrun, hsame, hroom', hb'⟩ := hb.append h.loc v reloc hroom
  refine ⟨s', hrun, hsame, hroom', fun n hn => ⟨⟨sec, addr, _, hb', ?_⟩, rfl, ?_, hn⟩⟩
  · rw [expand_append, hcur, expand, expand, ← hb.sec, h.sec, ← hb.loc, h.loc]
  · exact hsame.nxtsec.trans (h.sec.trans hsame.cursec.symm)

theorem Ready.setorg {cur : List Text} {k : ℕ} (h : Ready s cur k) : s.setorg = some s := by
  obtain ⟨sec, addr, l, hb, -⟩ := h.block
  unfold Emitter.setorg
  rw [if_neg]
  rintro (htyp | hloc | hsec)
  · exact htyp hb.typ
  · exact hloc h.loc
  · exact hsec h.sec

/-- The state after a flush has nothing in its buffer. -/
theorem oflush_buffer : Buffer s.oflush [] ∧ s.oflush.oflush.OBJECT = s.oflush.OBJECT := by
  have htyp : s.oflush.objtyp = 0 := rfl
  refine ⟨⟨Nat.zero_le _, Nat.le_refl _, .inl ⟨?_, rfl⟩⟩, ?_⟩
  · rw [htyp]
    decide
  · generalize s.oflush = t at htyp ⊢
    unfold Emitter.oflush
    dsimp only
    rw [if_neg (not_not.mpr htyp)]

/-- **Room for `n` bytes, where the next byte belongs.** -/
theorem Buffer.setup {cur : List Text} (h : Buffer s cur) {L : List (List Text)}
    (hf : textBlocks s.OBJECT = some L) {n : ℕ} (hn : n ≤ 249) : ∃ s' L' cur',
    (if s.room < n then s.oflush else s).setorg = some s' ∧ s'.pass2 = s.pass2 ∧
    s'.curloc = s.curloc ∧ s'.cursec = s.cursec ∧ textBlocks s'.OBJECT = some L' ∧ Ready s' cur' n ∧
    (L' = L ∧ cur' = cur ∨ L' = L ++ [cur] ∧ cur' = []) := by
  obtain ⟨L₁, hf₁, hL₁⟩ := h.oflush hf
  have hL : L₁ = L ∧ [] = cur ∨ L₁ = L ++ [cur] ∧ ([] : List Text) = [] := by
    rcases hL₁ with ⟨hL, hcur⟩ | hL
    · exact .inl ⟨hL, hcur.symm⟩
    · exact .inr ⟨hL, rfl⟩
  have hmono {t : Emitter} (ht : Ready t [] 249) : Ready t [] n :=
    ⟨ht.block, ht.loc, ht.sec, le_trans (Int.ofNat_le.mpr hn) ht.room⟩
  split_ifs with hroom
  · obtain ⟨hb, hobj⟩ := @oflush_buffer s
    obtain ⟨s', hs', hp, hloc, hsec, hcase⟩ := hb.setorg
    rcases hcase with ⟨-, hready⟩ | ⟨hobj', hready⟩
    · obtain ⟨sec, addr, l, hblock, -⟩ := hready.block
      exact absurd hblock.typ (by decide : (0 : Byte) ≠ OBTXT)
    · refine ⟨s', L₁, [], hs', hp, hloc, hsec, ?_, hmono hready, hL⟩
      rw [hobj', hobj]
      exact hf₁
  · obtain ⟨s', hs', hp, hloc, hsec, hcase⟩ := h.setorg
    rcases hcase with ⟨rfl, hready⟩ | ⟨hobj', hready⟩
    · exact ⟨s', L, cur, hs', hp, hloc, hsec, hf,
        ⟨hready.block, hready.loc, hready.sec, not_lt.mp hroom⟩, .inl ⟨rfl, rfl⟩⟩
    · refine ⟨s', L₁, [], hs', hp, hloc, hsec, ?_, hmono hready, hL⟩
      rw [hobj']
      exact hf₁

/-- **`emitb`**: the byte is in the block under construction then, and the three bytes that may follow it
in a relocatable item fit behind it. -/
theorem Buffer.emitb {cur : List Text} (h : Buffer s cur) (hp : s.pass2 = true) {L : List (List Text)}
    (hf : textBlocks s.OBJECT = some L) (value reloc : BitVec 16) : ∃ s' L' cur',
    s.emitb value reloc = some s' ∧ s'.pass2 = true ∧ s'.curloc = s.curloc + 1 ∧
    s'.cursec = s.cursec ∧ textBlocks s'.OBJECT = some L' ∧
    Ready s' cur' (if needed reloc ≠ 0 then 3 else 0) ∧
    (L' = L ∧ cur' = cur ++ [s.item value reloc] ∨ L' = L ++ [cur] ∧ cur' = [s.item value reloc]) := by
  have hn : (if needed reloc ≠ 0 then 7 else 1) ≤ 249 := by split_ifs <;> decide
  obtain ⟨t, L', cur', hset, hpt, hloc, hsec, hft, hready, hcase⟩ := h.setup hf hn
  have hwidth : (width (needed reloc) : ℤ) + (if needed reloc ≠ 0 then 3 else 0 : ℕ) ≤ t.room := by
    refine le_trans ?_ hready.room
    unfold width
    split_ifs <;> decide
  obtain ⟨u, hrun, hsame, hroom, hu⟩ := hready.emitObject (value.setWidth 8) (needed reloc) (by omega)
  refine ⟨{ u with curloc := u.curloc + 1, nxtloc := u.curloc + 1 }, L', _, ?_,
    hsame.pass2.trans (hpt.trans hp), ?_, hsame.cursec.trans hsec, hsame.OBJECT ▸ hft,
    hu (if needed reloc ≠ 0 then 3 else 0) (by omega), ?_⟩
  · have hcast : ((if needed reloc ≠ 0 then 7 else 1 : ℕ) : ℤ) = if needed reloc ≠ 0 then 7 else 1 := by
      split_ifs <;> rfl
    rw [hcast] at hset
    unfold Emitter.emitb Emitter.emitObject
    rw [if_pos hp]
    dsimp only
    rw [hset, Option.bind_some, hrun]
    rfl
  · dsimp only
    rw [hsame.curloc, hloc]
  · rw [hsec, hloc]
    rcases hcase with ⟨hL, rfl⟩ | ⟨hL, rfl⟩
    · exact .inl ⟨hL, rfl⟩
    · exact .inr ⟨hL, rfl⟩

/-- **A byte that follows in a relocatable item** goes into the same block. -/
theorem Ready.emitb {cur : List Text} {k : ℕ} (h : Ready s cur (k + 1)) (hp : s.pass2 = true)
    (value : BitVec 16) : ∃ s', s.emitb value 0 = some s' ∧ s'.pass2 = true ∧
    s'.curloc = s.curloc + 1 ∧ s'.cursec = s.cursec ∧ s'.OBJECT = s.OBJECT ∧
    Ready s' (cur ++ [s.item value 0]) k := by
  have hzero : needed 0 = 0 := by decide
  have hone : ¬ s.room < 1 := by
    have hroom := h.room
    omega
  have hwidth : (width 0 : ℤ) ≤ s.room := not_lt.mp hone
  obtain ⟨u, hrun, hsame, hroom, hu⟩ := h.emitObject (value.setWidth 8) 0 hwidth
  have hw : (width 0 : ℤ) = 1 := rfl
  have hk := h.room
  refine ⟨{ u with curloc := u.curloc + 1, nxtloc := u.curloc + 1 }, ?_, hsame.pass2.trans hp,
    congrArg (· + 1) hsame.curloc, hsame.cursec, hsame.OBJECT, ?_⟩
  · unfold Emitter.emitb Emitter.emitObject
    rw [if_pos hp, hzero]
    dsimp only
    rw [if_neg (not_not.mpr rfl), if_neg hone, h.setorg, Option.bind_some, hrun]
    rfl
  · unfold item
    rw [hzero]
    exact hu k (by omega)

/-- The current place may change under the buffer. -/
theorem Buffer.move {cur : List Text} (h : Buffer s cur) {t : Emitter} (htext : t.text = s.text)
    (hrels : t.rels = s.rels) (htop : t.objtop = s.objtop) (hbot : t.relbot = s.relbot)
    (htyp : t.objtyp = s.objtyp) (hloc : t.nxtloc = s.nxtloc) (hsec : t.nxtsec = s.nxtsec) :
    Buffer t cur := by
  refine ⟨by rw [htop, hbot]; exact h.le, by rw [hbot]; exact h.top, ?_⟩
  rcases h.cur with ⟨hno, hcur⟩ | ⟨sec, addr, l, hb, hcur⟩
  · exact .inl ⟨by rw [htyp]; exact hno, hcur⟩
  · refine .inr ⟨sec, addr, l, ⟨?_, ?_, ?_, ?_, ?_, ?_, ?_⟩, hcur⟩
    · rw [htyp, hb.typ]
    · rw [htext, hb.text]
    · rw [hrels, hb.rels]
    · rw [htop, hbot]
      exact hb.le
    · rw [hbot]
      exact hb.top
    · rw [hloc, hb.loc]
    · rw [hsec, hb.sec]

end Emitter

/-! ## 3. Runs -/

open Emitter

/-- No block ends before a byte that is joined to the one before it. -/
def Whole (L : List (List Text)) (joined : List Bool) : Prop :=
  ∀ pre suf, L = pre ++ suf → joined[pre.flatten.length]? ≠ some true

namespace Whole

variable {L : List (List Text)} {C : List Bool}

theorem snoc_false (h : Whole L C) : Whole L (C ++ [false]) := by
  intro pre suf hL hc
  rw [List.getElem?_append] at hc
  split_ifs at hc with hlt
  · exact h pre suf hL hc
  · rw [List.getElem?_singleton] at hc
    split_ifs at hc
    cases hc

theorem snoc_of_lt (h : Whole L C) (hlt : L.flatten.length < C.length) (b : Bool) :
    Whole L (C ++ [b]) := by
  intro pre suf hL hc
  have hle : pre.flatten.length ≤ L.flatten.length := by
    rw [hL, List.flatten_append, List.length_append]
    exact Nat.le_add_right _ _
  rw [List.getElem?_append_left (Nat.lt_of_le_of_lt hle hlt)] at hc
  exact h pre suf hL hc

theorem flush (h : Whole L C) {cur : List Text} (hlen : C.length = (L.flatten ++ cur).length) :
    Whole (L ++ [cur]) C := by
  intro pre suf hL hc
  rcases List.append_eq_append_iff.mp hL with ⟨m, hpre, hm⟩ | ⟨m, hL', hm⟩
  · cases m with
    | nil =>
      rw [List.append_nil] at hpre
      rw [hpre] at hc
      exact h L [] (List.append_nil L).symm hc
    | cons x m =>
      -- the last block is in front too: there is no byte behind it
      obtain ⟨rfl, hnil⟩ := List.cons.inj hm
      obtain ⟨rfl, -⟩ := List.append_eq_nil_iff.mp hnil.symm
      rw [hpre, List.flatten_append, List.flatten_singleton, ← hlen, List.getElem?_eq_none (Nat.le_refl _)]
        at hc
      cases hc
  · exact h pre m hL' hc

end Whole

/-- **What was emitted is what the file and the buffer hold**, and no relocatable item is in two
blocks. -/
structure Holds (s : Emitter) (L : List (List Text)) (cur emitted : List Text) (joined : List Bool) :
    Prop where
  pass2 : s.pass2 = true
  file : textBlocks s.OBJECT = some L
  buffer : Buffer s cur
  all : L.flatten ++ cur = emitted
  length : joined.length = emitted.length
  whole : Whole L joined

/-- The bytes, one after the other. -/
def emitAll (bs : List (BitVec 16 × BitVec 16)) (s : Emitter) : Option Emitter :=
  bs.foldlM (fun s b => s.emitb b.1 b.2) s

namespace Holds

variable {s : Emitter} {L : List (List Text)} {cur E : List Text} {C : List Bool}

/-- A byte that may begin a block. -/
theorem emitb (h : Holds s L cur E C) (value reloc : BitVec 16) : ∃ s' L' cur',
    s.emitb value reloc = some s' ∧ s'.curloc = s.curloc + 1 ∧ s'.cursec = s.cursec ∧
    Ready s' cur' (if needed reloc ≠ 0 then 3 else 0) ∧ cur' ≠ [] ∧
    Holds s' L' cur' (E ++ [s.item value reloc]) (C ++ [false]) := by
  obtain ⟨s', L', cur', hrun, hp, hloc, hsec, hf, hready, hcase⟩ := h.buffer.emitb h.pass2 h.file value reloc
  refine ⟨s', L', cur', hrun, hloc, hsec, hready, ?_, ⟨hp, hf, hready.buffer, ?_, ?_, ?_⟩⟩
  · rcases hcase with ⟨-, rfl⟩ | ⟨-, rfl⟩ <;> simp
  · rcases hcase with ⟨rfl, rfl⟩ | ⟨rfl, rfl⟩
    · rw [← List.append_assoc, h.all]
    · rw [List.flatten_append, List.flatten_singleton, h.all]
  · rw [List.length_append, List.length_append, h.length]
    rfl
  · rcases hcase with ⟨rfl, -⟩ | ⟨rfl, -⟩
    · exact h.whole.snoc_false
    · exact (h.whole.flush (by rw [h.length, h.all])).snoc_false

/-- A byte that belongs to the one before it. -/
theorem emitb_joined (h : Holds s L cur E C) {k : ℕ} (hready : Ready s cur (k + 1)) (hne : cur ≠ [])
    (value : BitVec 16) : ∃ s' cur', s.emitb value 0 = some s' ∧ s'.curloc = s.curloc + 1 ∧
    s'.cursec = s.cursec ∧ Ready s' cur' k ∧ cur' ≠ [] ∧
    Holds s' L cur' (E ++ [s.item value 0]) (C ++ [true]) := by
  obtain ⟨s', hrun, hp, hloc, hsec, hobj, hready'⟩ := hready.emitb h.pass2 value
  have hlt : L.flatten.length < C.length := by
    rw [h.length, ← h.all, List.length_append]
    exact Nat.lt_add_of_pos_right (List.length_pos_iff.mpr hne)
  refine ⟨s', _, hrun, hloc, hsec, hready', by simp,
    ⟨hp, by rw [hobj]; exact h.file, hready'.buffer, ?_, ?_, h.whole.snoc_of_lt hlt true⟩⟩
  · rw [← List.append_assoc, h.all]
  · rw [List.length_append, List.length_append, h.length]
    rfl

/-- Bytes that are no relocatable item. -/
theorem emitAll (h : Holds s L cur E C) (bs : List (BitVec 16 × BitVec 16)) : ∃ s' L' cur',
    emitAll bs s = some s' ∧
    Holds s' L' cur' (E ++ expand (s.cursec.setWidth 8) s.curloc
      (bs.map fun b => (b.1.setWidth 8, needed b.2))) (C ++ bs.map fun _ => false) := by
  induction bs generalizing s L cur E C with
  | nil => exact ⟨s, L, cur, rfl, by simpa [expand] using h⟩
  | cons b bs ih =>
    obtain ⟨s₁, L₁, cur₁, hrun, hloc, hsec, -, -, h₁⟩ := h.emitb b.1 b.2
    obtain ⟨s', L', cur', hall, h'⟩ := ih h₁
    refine ⟨s', L', cur', ?_, ?_⟩
    · rw [Asm.emitAll, List.foldlM_cons, hrun]
      exact hall
    · rw [hloc, hsec, List.append_assoc, List.append_assoc] at h'
      exact h'

/-- The bytes behind the first of a relocatable item. -/
theorem emitAll_joined (h : Holds s L cur E C) (bs : List (BitVec 16 × BitVec 16))
    (hbs : ∀ b ∈ bs, b.2 = 0) {k : ℕ} (hk : bs.length ≤ k) (hready : Ready s cur k) (hne : cur ≠ []) :
    ∃ s' cur', Asm.emitAll bs s = some s' ∧
    Holds s' L cur' (E ++ expand (s.cursec.setWidth 8) s.curloc
      (bs.map fun b => (b.1.setWidth 8, needed b.2))) (C ++ bs.map fun _ => true) := by
  induction bs generalizing s cur E C k with
  | nil => exact ⟨s, cur, rfl, by simpa [expand] using h⟩
  | cons b bs ih =>
    obtain ⟨v, r⟩ := b
    obtain rfl : r = 0 := hbs _ (List.mem_cons_self ..)
    obtain ⟨k, rfl⟩ : ∃ n, k = n + 1 := ⟨k - 1, by rw [List.length_cons] at hk; omega⟩
    obtain ⟨s₁, cur₁, hrun, hloc, hsec, hready₁, hne₁, h₁⟩ := h.emitb_joined hready hne v
    obtain ⟨s', cur', hall, h'⟩ := ih h₁ (fun c hc => hbs c (List.mem_cons_of_mem _ hc))
      (Nat.le_of_succ_le_succ hk) hready₁ hne₁
    refine ⟨s', cur', ?_, ?_⟩
    · rw [Asm.emitAll, List.foldlM_cons, hrun]
      exact hall
    · rw [hloc, hsec, List.append_assoc, List.append_assoc] at h'
      rw [List.singleton_append, List.singleton_append, item] at h'
      rw [List.map_cons, expand, List.map_cons]
      dsimp only
      exact h'

/-- **Every call keeps it**, with what it emits and the bytes it joins. -/
theorem call (h : Holds s L cur E C) (c : Call) : ∃ s' L' cur', c.run s = some s' ∧
    Holds s' L' cur' (E ++ c.items s) (C ++ c.joined) := by
  cases hbytes : c.bytes with
  | nil =>
    have hitems : c.items s = [] := by
      rw [Call.items, hbytes]
      rfl
    have hjoined : c.joined = [] := by
      rw [Call.joined, hbytes]
    rw [hitems, hjoined, List.append_nil, List.append_nil]
    cases c with
    | setsec sec hsec =>
      exact ⟨_, L, cur, rfl, h.pass2, h.file, h.buffer.move rfl rfl rfl rfl rfl rfl rfl, h.all, h.length,
        h.whole⟩
    | skip loc =>
      exact ⟨_, L, cur, rfl, h.pass2, h.file, h.buffer.move rfl rfl rfl rfl rfl rfl rfl, h.all, h.length,
        h.whole⟩
    | setorg loc =>
      have hbuf : Buffer { s with curloc := loc } cur := h.buffer.move rfl rfl rfl rfl rfl rfl rfl
      obtain ⟨s', hset, hp, -, -, hcase⟩ := hbuf.setorg
      obtain ⟨L₁, hf₁, hL₁⟩ := hbuf.oflush h.file
      refine ⟨s', ?_⟩
      have hrun : (Call.setorg loc).run s = some s' := (if_pos h.pass2).trans hset
      rcases hcase with ⟨rfl, -⟩ | ⟨hobj, hready⟩
      · exact ⟨L, cur, hrun, h.pass2, h.file, hbuf, h.all, h.length, h.whole⟩
      · rcases hL₁ with ⟨rfl, hcur⟩ | rfl
        · refine ⟨L₁, [], hrun, hp.trans h.pass2, by rw [hobj]; exact hf₁, hready.buffer, ?_, h.length,
            h.whole⟩
          rw [← h.all, hcur]
        · refine ⟨L ++ [cur], [], hrun, hp.trans h.pass2, by rw [hobj]; exact hf₁, hready.buffer, ?_,
            h.length, h.whole.flush (by rw [h.length, h.all])⟩
          rw [List.append_nil, List.flatten_append, List.flatten_singleton]
          exact h.all
    | _ => cases hbytes
  | cons b bs =>
    have hrun (s : Emitter) : c.run s = (s.emitb b.1 b.2).bind (Asm.emitAll bs) := by
      rw [c.run_eq_foldlM (by rw [hbytes]; exact List.cons_ne_nil _ _), hbytes, List.foldlM_cons]
      rfl
    have hitems : c.items s = s.item b.1 b.2 :: expand (s.cursec.setWidth 8) (s.curloc + 1)
        (bs.map fun b => (b.1.setWidth 8, needed b.2)) := by
      rw [Call.items, hbytes]
      rfl
    have hjoined : c.joined = false :: bs.map fun _ => decide (needed b.2 ≠ 0) := by
      rw [Call.joined, hbytes]
    obtain ⟨s₁, L₁, cur₁, hemit, hloc, hsec, hready, hne, h₁⟩ := h.emitb b.1 b.2
    rw [hitems, hjoined]
    by_cases hr : needed b.2 ≠ 0
    · rw [if_pos hr] at hready
      obtain ⟨hbs, hlen⟩ := c.rest_of_bytes hbytes
      obtain ⟨s', cur', hall, h'⟩ := h₁.emitAll_joined bs hbs hlen hready hne
      refine ⟨s', L₁, cur', by rw [hrun, hemit]; exact hall, ?_⟩
      rw [hloc, hsec, List.append_assoc, List.append_assoc, List.singleton_append,
        List.singleton_append] at h'
      rw [decide_eq_true hr]
      exact h'
    · obtain ⟨s', L', cur', hall, h'⟩ := h₁.emitAll bs
      refine ⟨s', L', cur', by rw [hrun, hemit]; exact hall, ?_⟩
      rw [hloc, hsec, List.append_assoc, List.append_assoc, List.singleton_append,
        List.singleton_append] at h'
      rw [decide_eq_false hr]
      exact h'

end Holds

/-- The calls of a pass. -/
def runCalls (cs : List Call) (s : Emitter) : Option Emitter := cs.foldlM (fun s c => c.run s) s

/-- What they emit. -/
def emitted : List Call → Emitter → List Text
  | [], _ => []
  | c :: cs, s => c.items s ++ (c.run s).elim [] (emitted cs)

/-- The state at the start of the second pass: the buffer may still hold a block of another kind. -/
structure Start (s : Emitter) : Prop where
  pass2 : s.pass2 = true
  typ : s.objtyp ≠ OBTXT
  le : s.objtop ≤ s.relbot
  top : s.relbot ≤ OBJSIZ
  file : textBlocks s.OBJECT = some []

theorem Holds.run {s : Emitter} {L : List (List Text)} {cur E : List Text} {C : List Bool}
    (h : Holds s L cur E C) (cs : List Call) : ∃ s' L' cur', runCalls cs s = some s' ∧
    Holds s' L' cur' (E ++ emitted cs s) (C ++ cs.flatMap Call.joined) := by
  induction cs generalizing s L cur E C with
  | nil => exact ⟨s, L, cur, rfl, by simpa [emitted] using h⟩
  | cons c cs ih =>
    obtain ⟨s₁, L₁, cur₁, hrun, h₁⟩ := h.call c
    obtain ⟨s', L', cur', hall, h'⟩ := ih h₁
    refine ⟨s', L', cur', ?_, ?_⟩
    · rw [runCalls, List.foldlM_cons, hrun]
      exact hall
    · rw [List.append_assoc, List.append_assoc] at h'
      rw [emitted, hrun, List.flatMap_cons]
      exact h'

theorem blocks_length {file : List Byte} {bs : List (Byte × List Byte)} (h : blocks file = some bs) :
    ∀ b ∈ bs, b.2.length ≤ OBJSIZ := by
  induction file using blocks.induct generalizing bs with
  | case1 =>
    rw [blocks] at h
    obtain rfl := Option.some.inj h
    simp
  | case2 _ =>
    rw [blocks] at h
    cases h
  | case3 typ len rest hle ih =>
    rw [blocks, if_pos hle, Option.map_eq_some_iff] at h
    obtain ⟨bs', hbs', rfl⟩ := h
    intro b hb
    rcases List.mem_cons.mp hb with rfl | hb
    · have hlt := len.isLt
      rw [List.length_take]
      unfold OBJSIZ
      omega
    · exact ih hbs' b hb
  | case4 typ len rest hgt =>
    rw [blocks, if_neg hgt] at h
    cases h

/-- **The text of the object file is what was emitted**: the calls never overflow the buffer, the file
that the last flush leaves consists of blocks of at most `OBJSIZ` bytes, its text blocks hold exactly the
emitted bytes with their sections, addresses and relocations, in order, and no block ends inside a
relocatable item. -/
theorem output_faithful {s : Emitter} (hs : Start s) (cs : List Call) : ∃ s' bs L,
    runCalls cs s = some s' ∧ blocks s'.oflush.OBJECT = some bs ∧ (∀ b ∈ bs, b.2.length ≤ OBJSIZ) ∧
    textBlocks s'.oflush.OBJECT = some L ∧ L.flatten = emitted cs s ∧
    Whole L (cs.flatMap Call.joined) := by
  have hstart : Holds s [] [] [] [] := by
    refine ⟨hs.pass2, hs.file, ⟨hs.le, hs.top, .inl ⟨hs.typ, rfl⟩⟩, rfl, rfl, ?_⟩
    intro pre suf _ hc
    cases hc
  obtain ⟨s', L', cur, hrun, h⟩ := hstart.run cs
  rw [List.nil_append, List.nil_append] at h
  obtain ⟨L, hf, hL⟩ := h.buffer.oflush h.file
  obtain ⟨bs, hbs, -⟩ := Option.bind_eq_some_iff.mp hf
  refine ⟨s', bs, L, hrun, hbs, blocks_length hbs, hf, ?_⟩
  rcases hL with ⟨rfl, hcur⟩ | rfl
  · have hall := h.all
    rw [hcur, List.append_nil] at hall
    exact ⟨hall, h.whole⟩
  · refine ⟨?_, h.whole.flush (by rw [h.length, h.all])⟩
    rw [List.flatten_append, List.flatten_singleton]
    exact h.all

/-- The second pass of a program without sections and symbols: the start block is written. -/
def secondPass : Emitter where
  pass2 := true
  objbuf _ := 0
  objtop := 0
  relbot := OBJSIZ
  objtyp := 0
  OBJECT := [1, 0]
  nxtloc := 0
  nxtsec := 0
  curloc := 0
  cursec := 0
  curaln := 0
  curext := 0
  curatr := 0
  sectab _ := ⟨0, 0, 0, 0⟩

/-- A relocatable word, and a byte at another address. -/
def sampleCalls : List Call := [.emitwm 0x1234 0x2001, .setorg 0x10, .emitb 1 0]

theorem output_faithful_sample : ∃ s' bs L,
    runCalls sampleCalls secondPass = some s' ∧ blocks s'.oflush.OBJECT = some bs ∧
    (∀ b ∈ bs, b.2.length ≤ OBJSIZ) ∧ textBlocks s'.oflush.OBJECT = some L ∧
    L.flatten = emitted sampleCalls secondPass ∧ Whole L (sampleCalls.flatMap Call.joined) := by
  refine output_faithful ⟨rfl, by decide, by decide, Nat.le_refl _, ?_⟩ sampleCalls
  simp [textBlocks, secondPass, blocks, OBTXT]

end Cpm8000.Asm
