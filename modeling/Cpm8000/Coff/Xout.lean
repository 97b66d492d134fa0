/-
# Object files in x.out format

An x.out file is a header, a table of segments, the code part with the bytes of the segments one
after the other, a table of relocation items and a table of symbols.  BSS segments have no bytes in
the code part.  This is the reader of the conversion tools.
-/
import Cpm8000.Sys.Bytes

namespace Cpm8000.Coff

open Sys

/-! ## 1. The tables -/

/-- A name, padded with zeros. -/
abbrev Name := Fin 8 → Byte

/-- The characters of a name. -/
def chars (s : List Char) : List Byte := s.map fun c => BitVec.ofNat 8 c.toNat

/-- Pad a string to a name, or cut it off. -/
def pad (s : List Byte) : Name := fun i => s.getD i 0

structure XHeader where
  magic : BitVec 16
  num_segs : ℤ
  code_part_len : ℤ
  relocs_len : ℤ
  symbs_len : ℤ

structure Seg where
  number : Byte
  type : Byte
  length : BitVec 16
  deriving DecidableEq

structure Reloc where
  seg_idx : Byte
  type : Byte
  location : BitVec 16
  symb_idx : BitVec 16
  deriving DecidableEq

structure XSymb where
  seg_idx : Byte
  type : Byte
  value : BitVec 16
  name : Name
  deriving DecidableEq

/-- A file in memory. -/
structure Xout where
  header : XHeader
  seg_tbl : List Seg
  code_part : List Byte
  reloc_tbl : List Reloc
  symb_tbl : List XSymb

def SEG_BSS : Byte := 1
def SEG_CODE : Byte := 3
def SEG_CONST : Byte := 4
def SEG_DATA : Byte := 5

def RELOC_OFF : Byte := 1
def RELOC_LSG : Byte := 3
def RELOC_XOFF : Byte := 5
def RELOC_XLSG : Byte := 7

def SYMB_LOCAL : Byte := 1
def SYMB_UNDEF_EX : Byte := 2
def SYMB_GLOBAL : Byte := 3
def SYMB_SEG : Byte := 4

def XOUT_HDR_LEN : ℕ := 16
def XOUT_SEG_ENTRY_LEN : ℕ := 4
def XOUT_RELOC_ITEM_LEN : ℕ := 6
def XOUT_SYMB_ENTRY_LEN : ℕ := 12

/-! ## 2. The reader -/

/-- Read `n` bytes at a position; `none` when the file ends before. -/
def fread (file : List Byte) (pos : ℤ) (n : ℕ) : Option (List Byte) :=
  let b := slice file pos.toNat n
  if b.length = n then some b else none

/-- Read `n` records of `k` bytes, one after the other. -/
def freadTable {α : Type} (file : List Byte) (k : ℕ) (dec : List Byte → α) :
    ℕ → ℤ → Option (List α)
  | 0, _ => some []
  | n + 1, pos => do
    let b ← fread file pos k
    let rest ← freadTable file k dec n (pos + k)
    some (dec b :: rest)

def xout_read_header (file : List Byte) : Option XHeader := do
  let b ← fread file 0 XOUT_HDR_LEN
  some {
    magic := field16 b 0
    num_segs := (field16 b 2).toInt
    code_part_len := (field32 b 4).toInt
    relocs_len := (field32 b 8).toInt
    symbs_len := (field32 b 12).toInt }

def XHeader.code_pos (h : XHeader) : ℤ := XOUT_HDR_LEN + XOUT_SEG_ENTRY_LEN * h.num_segs

def XHeader.reloc_tbl_pos (h : XHeader) : ℤ := h.code_pos + h.code_part_len

def XHeader.symb_tbl_pos (h : XHeader) : ℤ := h.reloc_tbl_pos + h.relocs_len

def decSeg (b : List Byte) : Seg := ⟨b.getD 0 0, b.getD 1 0, field16 b 2⟩

def decReloc (b : List Byte) : Reloc := ⟨b.getD 0 0, b.getD 1 0, field16 b 2, field16 b 4⟩

def decSymb (b : List Byte) : XSymb :=
  ⟨b.getD 0 0, b.getD 1 0, field16 b 2, fun i => b.getD (4 + i) 0⟩

def xout_read_seg_tbl (file : List Byte) (h : XHeader) : Option (List Seg) :=
  freadTable file XOUT_SEG_ENTRY_LEN decSeg h.num_segs.toNat XOUT_HDR_LEN

/-- A negative length is refused, there being no buffer of that size. -/
def xout_read_code_part (file : List Byte) (h : XHeader) : Option (List Byte) :=
  if h.code_part_len < 0 then none else fread file h.code_pos h.code_part_len.toNat

/-- Items of type 0 are dropped. -/
def xout_read_reloc_tbl (file : List Byte) (h : XHeader) : Option (List Reloc) := do
  let raw ← freadTable file XOUT_RELOC_ITEM_LEN decReloc
    (h.relocs_len.toNat / XOUT_RELOC_ITEM_LEN) h.reloc_tbl_pos
  some (raw.filter (·.type ≠ 0))

def xout_read_symb_tbl (file : List Byte) (h : XHeader) : Option (List XSymb) :=
  freadTable file XOUT_SYMB_ENTRY_LEN decSymb (h.symbs_len.toNat / XOUT_SYMB_ENTRY_LEN)
    h.symb_tbl_pos

def xout_read (file : List Byte) : Option Xout := do
  let header ← xout_read_header file
  let seg_tbl ← xout_read_seg_tbl file header
  let code_part ← xout_read_code_part file header
  let reloc_tbl ← xout_read_reloc_tbl file header
  let symb_tbl ← xout_read_symb_tbl file header
  some { header, seg_tbl, code_part, reloc_tbl, symb_tbl }

/-! ## 3. Segments in the code part -/

/-- The number of bytes a segment has in the code part. -/
def Seg.dataLen (s : Seg) : ℕ := if s.type = SEG_BSS then 0 else s.length.toNat

/-- The place of the `i`-th segment in the code part. -/
def dataPos (segs : List Seg) (i : ℕ) : ℕ := ((segs.take i).map Seg.dataLen).sum

/-- The bytes of the `i`-th segment. -/
def segBytes (segs : List Seg) (code : List Byte) (i : ℕ) : List Byte :=
  slice code (dataPos segs i) (((segs[i]?).map Seg.dataLen).getD 0)

/-- A file that can be read, whose code part is as long as its segments, and whose segments can be
named by a byte (255 names none). -/
structure WellFormed (file : List Byte) (x : Xout) : Prop where
  read : xout_read file = some x
  segs : x.seg_tbl.length ≤ 255
  code : x.code_part.length = (x.seg_tbl.map Seg.dataLen).sum

theorem length_freadTable {α : Type} {file : List Byte} {k n : ℕ} {dec : List Byte → α} {pos : ℤ}
    {l : List α} (h : freadTable file k dec n pos = some l) : l.length = n := by
  induction n generalizing pos l with
  | zero =>
    rw [freadTable, Option.some.injEq] at h
    rw [← h, List.length_nil]
  | succ n ih =>
    rw [freadTable, Option.bind_eq_bind, Option.bind_eq_some_iff] at h
    obtain ⟨b, -, h⟩ := h
    rw [Option.bind_eq_bind, Option.bind_eq_some_iff] at h
    obtain ⟨rest, hrest, h⟩ := h
    rw [Option.some.injEq] at h
    rw [← h, List.length_cons, ih hrest]

theorem toNat_toInt_lt (v : BitVec 32) : v.toInt.toNat < 2 ^ 31 := by
  have := BitVec.toInt_lt (x := v)
  omega

/-- The symbol table of a file is short: its length in bytes has 31 bits. -/
theorem length_symb_tbl_lt {file : List Byte} {x : Xout} (h : xout_read file = some x) :
    x.symb_tbl.length < 2 ^ 28 := by
  simp only [xout_read, Option.bind_eq_bind, Option.bind_eq_some_iff, Option.some.injEq] at h
  obtain ⟨hdr, hhdr, segs, -, code, -, rels, -, syms, hsyms, rfl⟩ := h
  have hlen := length_freadTable hsyms
  simp only [xout_read_header, Option.bind_eq_bind, Option.bind_eq_some_iff,
    Option.some.injEq] at hhdr
  obtain ⟨b, -, rfl⟩ := hhdr
  have hlt := toNat_toInt_lt (field32 b 12)
  rw [XOUT_SYMB_ENTRY_LEN] at hlen
  exact hlen ▸ (by omega : (field32 b 12).toInt.toNat / 12 < 2 ^ 28)

/-! ## 4. A file laid out as the format says -/

def encSeg (s : Seg) : List Byte := [s.number, s.type] ++ be16 s.length

def encReloc (r : Reloc) : List Byte := [r.seg_idx, r.type] ++ (be16 r.location ++ be16 r.symb_idx)

def encSymb (s : XSymb) : List Byte := [s.seg_idx, s.type] ++ (be16 s.value ++ List.ofFn s.name)

def encHeader (magic num_segs : BitVec 16) (code_part_len relocs_len symbs_len : BitVec 32) :
    List Byte :=
  be16 magic ++ (be16 num_segs ++ (be32 code_part_len ++ (be32 relocs_len ++ be32 symbs_len)))

/-- The header, the segment table, the code part, the relocation items and the symbols. -/
def xoutBytes (magic : BitVec 16) (segs : List Seg) (code : List Byte) (relocs : List Reloc)
    (symbs : List XSymb) : List Byte :=
  encHeader magic (BitVec.ofNat 16 segs.length) (BitVec.ofNat 32 code.length)
    (BitVec.ofNat 32 (XOUT_RELOC_ITEM_LEN * relocs.length))
    (BitVec.ofNat 32 (XOUT_SYMB_ENTRY_LEN * symbs.length)) ++
  (segs.flatMap encSeg ++ (code ++ (relocs.flatMap encReloc ++ (symbs.flatMap encSymb ++ []))))

theorem length_encHeader (m n : BitVec 16) (c r s : BitVec 32) :
    (encHeader m n c r s).length = XOUT_HDR_LEN := rfl

theorem length_encSeg (s : Seg) : (encSeg s).length = XOUT_SEG_ENTRY_LEN := rfl

theorem length_encReloc (r : Reloc) : (encReloc r).length = XOUT_RELOC_ITEM_LEN := rfl

theorem length_encSymb (s : XSymb) : (encSymb s).length = XOUT_SYMB_ENTRY_LEN := by
  simp [encSymb, XOUT_SYMB_ENTRY_LEN]

theorem decSeg_encSeg (s : Seg) : decSeg (encSeg s) = s := by
  have hlen : field16 (encSeg s) 2 = s.length := by
    have h := @field16_be16 [s.number, s.type] [] s.length 2 rfl
    rwa [List.append_nil] at h
  rw [decSeg, hlen]
  rfl

theorem decReloc_encReloc (r : Reloc) : decReloc (encReloc r) = r := by
  have hloc : field16 (encReloc r) 2 = r.location := field16_be16 rfl
  have hsym : field16 (encReloc r) 4 = r.symb_idx := by
    have h := @field16_be16 ([r.seg_idx, r.type] ++ be16 r.location) [] r.symb_idx 4 rfl
    rwa [List.append_nil, List.append_assoc] at h
  rw [decReloc, hloc, hsym]
  rfl

theorem decSymb_encSymb (s : XSymb) : decSymb (encSymb s) = s := by
  have hval : field16 (encSymb s) 2 = s.value := field16_be16 rfl
  have hname : (fun i : Fin 8 => (encSymb s).getD (4 + i) 0) = s.name := by
    funext i
    fin_cases i <;> rfl
  rw [decSymb, hval, hname]
  rfl

theorem fread_append {a b c : List Byte} {pos : ℤ} {n : ℕ} (hpos : pos = a.length)
    (hn : n = b.length) : fread (a ++ (b ++ c)) pos n = some b := by
  have hslice : slice (a ++ (b ++ c)) pos.toNat n = b := by
    rw [hpos, Int.toNat_natCast, ← Nat.add_zero a.length, slice_append_right,
      slice_append_left (by omega), hn, slice_all]
  rw [fread, hslice, if_pos hn.symm]

/-- A table is read back record by record. -/
theorem freadTable_flatMap {α : Type} {enc : α → List Byte} {dec : List Byte → α} {k : ℕ}
    (henc : ∀ a, (enc a).length = k) (hdec : ∀ a, dec (enc a) = a) (l : List α)
    (pre post : List Byte) {pos : ℤ} (hpos : pos = pre.length) :
    freadTable (pre ++ (l.flatMap enc ++ post)) k dec l.length pos = some l := by
  induction l generalizing pre pos with
  | nil => rfl
  | cons a l ih =>
    have hrest := @ih (pre ++ enc a) (pos + k) (by rw [hpos, List.length_append, henc]; rfl)
    rw [List.append_assoc] at hrest
    rw [List.flatMap_cons, List.append_assoc, List.length_cons, freadTable,
      fread_append hpos (henc a).symm, Option.bind_eq_bind, Option.bind_some, hrest,
      Option.bind_eq_bind, Option.bind_some, hdec]

theorem toInt_ofNat_of_lt {w n : ℕ} (h : 2 * n < 2 ^ w) : (BitVec.ofNat w n).toInt = n := by
  have hn : (BitVec.ofNat w n).toNat = n := by
    rw [BitVec.toNat_ofNat, Nat.mod_eq_of_lt (by omega)]
  rw [BitVec.toInt_eq_toNat_of_lt (by rwa [hn]), hn]

/-- **A file laid out as the format says is read back**, less the items of type 0. -/
theorem xout_read_xoutBytes (magic : BitVec 16) {segs : List Seg} {code : List Byte}
    {relocs : List Reloc} {symbs : List XSymb} (hsegs : 2 * segs.length < 2 ^ 16)
    (hcode : 2 * code.length < 2 ^ 32) (hrelocs : 2 * (XOUT_RELOC_ITEM_LEN * relocs.length) < 2 ^ 32)
    (hsymbs : 2 * (XOUT_SYMB_ENTRY_LEN * symbs.length) < 2 ^ 32) :
    ∃ header, xout_read (xoutBytes magic segs code relocs symbs) =
      some { header, seg_tbl := segs, code_part := code,
             reloc_tbl := relocs.filter (·.type ≠ 0), symb_tbl := symbs } := by
  let header : XHeader := ⟨magic, segs.length, code.length, (XOUT_RELOC_ITEM_LEN * relocs.length : ℕ),
    (XOUT_SYMB_ENTRY_LEN * symbs.length : ℕ)⟩
  generalize hfile : xoutBytes magic segs code relocs symbs = file
  rw [xoutBytes] at hfile
  generalize hhdr : encHeader magic (BitVec.ofNat 16 segs.length) (BitVec.ofNat 32 code.length)
    (BitVec.ofNat 32 (XOUT_RELOC_ITEM_LEN * relocs.length))
    (BitVec.ofNat 32 (XOUT_SYMB_ENTRY_LEN * symbs.length)) = hdr at hfile
  have hlen : hdr.length = XOUT_HDR_LEN := by rw [← hhdr, length_encHeader]
  have hheader : xout_read_header file = some header := by
    have h0 : fread file 0 XOUT_HDR_LEN = some hdr := by
      rw [← hfile]
      exact @fread_append [] hdr _ 0 _ rfl hlen.symm
    have h1 : field16 hdr 0 = magic := by rw [← hhdr]; exact @field16_be16 [] _ _ _ rfl
    have h2 : field16 hdr 2 = BitVec.ofNat 16 segs.length := by
      rw [← hhdr]; exact field16_be16 rfl
    have h3 : field32 hdr 4 = BitVec.ofNat 32 code.length := by
      rw [← hhdr, encHeader, ← List.append_assoc]; exact field32_be32 rfl
    have h4 : field32 hdr 8 = BitVec.ofNat 32 (XOUT_RELOC_ITEM_LEN * relocs.length) := by
      rw [← hhdr, encHeader, ← List.append_assoc, ← List.append_assoc]; exact field32_be32 rfl
    have h5 : field32 hdr 12 = BitVec.ofNat 32 (XOUT_SYMB_ENTRY_LEN * symbs.length) := by
      rw [← hhdr, encHeader, ← List.append_assoc, ← List.append_assoc, ← List.append_assoc,
        ← List.append_nil (be32 (BitVec.ofNat 32 (XOUT_SYMB_ENTRY_LEN * symbs.length)))]
      exact field32_be32 rfl
    rw [xout_read_header, h0, Option.bind_eq_bind, Option.bind_some, h1, h2, h3, h4, h5,
      toInt_ofNat_of_lt hsegs, toInt_ofNat_of_lt hcode, toInt_ofNat_of_lt hrelocs,
      toInt_ofNat_of_lt hsymbs]
  have hseg : xout_read_seg_tbl file header = some segs := by
    rw [xout_read_seg_tbl, ← hfile]
    exact freadTable_flatMap length_encSeg decSeg_encSeg segs hdr _ (by rw [hlen])
  have hsegLen := length_flatMap_const length_encSeg segs
  have hrelLen := length_flatMap_const length_encReloc relocs
  have hcodePart : xout_read_code_part file header = some code := by
    rw [xout_read_code_part, if_neg (not_lt.mpr (Int.natCast_nonneg _)), ← hfile,
      ← List.append_assoc]
    refine fread_append ?_ (Int.toNat_natCast _)
    rw [List.length_append, hlen, hsegLen, XHeader.code_pos]
    push_cast
    rfl
  have hreloc : xout_read_reloc_tbl file header = some (relocs.filter (·.type ≠ 0)) := by
    have hcount : header.relocs_len.toNat / XOUT_RELOC_ITEM_LEN = relocs.length :=
      Nat.mul_div_cancel_left _ (by decide)
    rw [xout_read_reloc_tbl, hcount, ← hfile, ← List.append_assoc, ← List.append_assoc,
      freadTable_flatMap length_encReloc decReloc_encReloc, Option.bind_eq_bind, Option.bind_some]
    rw [List.length_append, List.length_append, hlen, hsegLen, XHeader.reloc_tbl_pos,
      XHeader.code_pos]
    push_cast
    rfl
  have hsymb : xout_read_symb_tbl file header = some symbs := by
    have hcount : header.symbs_len.toNat / XOUT_SYMB_ENTRY_LEN = symbs.length :=
      Nat.mul_div_cancel_left _ (by decide)
    rw [xout_read_symb_tbl, hcount, ← hfile, ← List.append_assoc, ← List.append_assoc,
      ← List.append_assoc, freadTable_flatMap length_encSymb decSymb_encSymb]
    rw [List.length_append, List.length_append, List.length_append, hlen, hsegLen, hrelLen,
      XHeader.symb_tbl_pos, XHeader.reloc_tbl_pos, XHeader.code_pos]
    push_cast
    rfl
  refine ⟨header, ?_⟩
  rw [xout_read, hheader, Option.bind_eq_bind, Option.bind_some, hseg, Option.bind_eq_bind,
    Option.bind_some, hcodePart, Option.bind_eq_bind, Option.bind_some, hreloc,
    Option.bind_eq_bind, Option.bind_some, hsymb, Option.bind_eq_bind, Option.bind_some]

end Cpm8000.Coff
