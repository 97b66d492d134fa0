/-
# From x.out to COFF

The conversion tool completes the tables of an x.out file (a BSS segment, a symbol for each
segment, an anchor for the start of each), builds the COFF tables from them, works out where each
will lie in the file, and writes them.

The relocation items are sorted by a library routine that need not be stable; `Qsort` is what it
promises.
-/
import Mathlib.Data.BitVec
import Cpm8000.Coff.Xout

namespace Cpm8000.Coff

open Sys

/-! ## 1. Completing the tables -/

def conv_seg_name (seg_type : Byte) : List Byte :=
  if seg_type = SEG_CODE then chars ['.', 't', 'e', 'x', 't']
  else if seg_type = SEG_DATA then chars ['.', 'd', 'a', 't', 'a']
  else if seg_type = SEG_CONST then chars ['.', 'r', 'd', 'a', 't', 'a']
  else if seg_type = SEG_BSS then chars ['.', 'b', 's', 's']
  else []

def conv_seg_type (seg_type : Byte) : BitVec 32 :=
  if seg_type = SEG_BSS then 0x80
  else if seg_type = SEG_CODE then 0x20
  else if seg_type = SEG_DATA ∨ seg_type = SEG_CONST then 0x40
  else 0

/-- A common symbol: an undefined one with a size. -/
def XSymb.isCommon (s : XSymb) : Bool :=
  s.seg_idx == 0xff && s.type == SYMB_UNDEF_EX && s.value != 0

/-- Make the common symbols globals of the BSS segment, each at the end of those before;
`len` is the length of the segment. -/
def allocCommon (bss : Byte) : List XSymb → BitVec 16 → List XSymb × BitVec 16
  | [], len => ([], len)
  | s :: rest, len =>
    if s.isCommon then
      let r := allocCommon bss rest (len + s.value)
      ({ s with type := SYMB_GLOBAL, seg_idx := bss, value := len } :: r.1, r.2)
    else
      let r := allocCommon bss rest len
      (s :: r.1, r.2)

def assign_bss (x : Xout) : Xout :=
  let bss := x.seg_tbl.findIdx (·.type == SEG_BSS)
  let segs :=
    if bss = x.seg_tbl.length then x.seg_tbl ++ [⟨0xff, SEG_BSS, 0⟩] else x.seg_tbl
  let len := ((segs[bss]?).map Seg.length).getD 0
  let r := allocCommon (BitVec.ofNat 8 bss) x.symb_tbl len
  { x with seg_tbl := segs.modify bss (fun s => { s with length := r.2 }), symb_tbl := r.1 }

/-- Name the first symbol of a segment, or add one. -/
def addSegSymb (symbs : List XSymb) (seg_idx : ℕ) (s : Seg) : List XSymb :=
  let found := symbs.findIdx fun y => y.type == SYMB_SEG && y.seg_idx == BitVec.ofNat 8 seg_idx
  let name := pad (conv_seg_name s.type)
  if found < symbs.length then symbs.modify found fun y => { y with name := name }
  else symbs ++ [⟨BitVec.ofNat 8 seg_idx, SYMB_SEG, 0, name⟩]

def add_seg_symb (x : Xout) : Xout :=
  { x with
    symb_tbl := x.seg_tbl.zipIdx.foldl (fun symbs p => addSegSymb symbs p.2 p.1) x.symb_tbl }

/-- The name of the anchor of a segment, cut off after eight characters. -/
def segTopName (idx : ℕ) : Name :=
  pad ((chars (['S', 'E', 'G'] ++ Nat.toDigits 10 idx ++ ['0', '0', '0', '0'])).take 8)

def add_seg_top_symb (x : Xout) : Xout :=
  { x with
    symb_tbl := x.symb_tbl ++ (List.range x.seg_tbl.length).map fun idx =>
      ⟨BitVec.ofNat 8 idx, SYMB_LOCAL, 0, segTopName idx⟩ }

/-- The tables as they are converted. -/
def prepare (x : Xout) : Xout := add_seg_top_symb (add_seg_symb (assign_bss x))

/-! ## 2. The COFF tables -/

def COFF_HDR_LEN : ℕ := 20
def COFF_SECT_HDR_LEN : ℕ := 40
def COFF_RELOC_ITEM_LEN : ℕ := 16
def COFF_SYMB_ENTRY_LEN : ℕ := 18

structure Header where
  magic : BitVec 16
  num_sects : BitVec 16
  date : BitVec 32
  symb_tbl_fpos : BitVec 32
  num_symbs : BitVec 32
  opt_hdr_len : BitVec 16
  flags : BitVec 16

structure Sect where
  name : Name
  paddr : BitVec 32
  vaddr : BitVec 32
  length : BitVec 32
  fpos : BitVec 32
  reloc_tbl_fpos : BitVec 32
  line_nums_fpos : BitVec 32
  num_relocs : BitVec 16
  num_lines : BitVec 16
  flags : BitVec 32

structure CReloc where
  vaddr : BitVec 32
  symb_idx : BitVec 32
  offset : BitVec 32
  type : BitVec 16
  stuff : BitVec 16

structure Entry where
  name : Name
  value : BitVec 32
  sect_no : BitVec 16
  type : BitVec 16
  strg_class : Byte
  num_aux : Byte
  deriving DecidableEq

/-- A record of the symbol table. -/
inductive CSymb where
  | entry (e : Entry)
  | aux_sect (length : BitVec 32) (num_relocs num_lines : BitVec 16)
  | aux_file (name : List Byte)
  deriving DecidableEq

def CLASS_GLOBAL : Byte := 0x02
def CLASS_STATIC : Byte := 0x03
def CLASS_FILE : Byte := 0x67

def SCN_EXT : BitVec 16 := 0
def SCN_ABS : BitVec 16 := -1

/-- The section headers; the places of the relocation items come later. -/
def conv_sect_hdrs (sect_pos : ℕ) : ℕ → List Seg → List Sect
  | _, [] => []
  | offset, s :: rest =>
    { name := pad (conv_seg_name s.type)
      paddr := 0
      vaddr := 0
      length := s.length.setWidth 32
      fpos := if s.type = SEG_BSS then 0 else BitVec.ofNat 32 (sect_pos + offset)
      reloc_tbl_fpos := 0
      line_nums_fpos := 0
      num_relocs := 0
      num_lines := 0
      flags := conv_seg_type s.type } ::
    conv_sect_hdrs sect_pos
      (if s.type = SEG_BSS then offset else offset + s.length.toNat) rest

def sectNo (seg_idx : Byte) : BitVec 16 := seg_idx.setWidth 16 + 1

def localSymb (s : XSymb) : CSymb :=
  .entry ⟨s.name, s.value.setWidth 32, sectNo s.seg_idx, 0, CLASS_STATIC, 0⟩

def globalSymb (s : XSymb) : CSymb :=
  .entry ⟨s.name, s.value.setWidth 32, sectNo s.seg_idx, 0, CLASS_GLOBAL, 0⟩

/-- A section symbol and its auxiliary record. -/
def sectSymb (x : Xout) (s : XSymb) : List CSymb :=
  [.entry ⟨s.name, 0, sectNo s.seg_idx, 0, CLASS_STATIC, 1⟩,
    .aux_sect (((x.seg_tbl[s.seg_idx.toNat]?).map Seg.length).getD 0 |>.setWidth 32)
      (BitVec.ofNat 16 (x.reloc_tbl.countP (·.seg_idx == s.seg_idx))) 0]

/-- External symbols and constants; those of any other type are passed over. -/
def externSymb (s : XSymb) : List CSymb :=
  if s.type = SYMB_UNDEF_EX then [.entry ⟨s.name, 0, SCN_EXT, 0, CLASS_GLOBAL, 0⟩]
  else if s.type = SYMB_LOCAL then
    [.entry ⟨s.name, s.value.setWidth 32, SCN_ABS, 0, CLASS_GLOBAL, 0⟩]
  else []

/-- The dummy file symbol. -/
def fileSymb : List CSymb :=
  [.entry ⟨pad (chars ['.', 'f', 'i', 'l', 'e']), 0, -2, 0, CLASS_FILE, 1⟩,
    .aux_file (chars ['f', 'a', 'k', 'e'])]

def conv_symb_tbl (x : Xout) : List CSymb :=
  fileSymb ++
  (x.symb_tbl.filter fun s => !(s.seg_idx == 255 || s.type != SYMB_LOCAL)).map localSymb ++
  (x.symb_tbl.filter fun s => !(s.type != SYMB_SEG)).flatMap (sectSymb x) ++
  (List.range x.seg_tbl.length).flatMap (fun seg =>
    (x.symb_tbl.filter fun s =>
      s.seg_idx == BitVec.ofNat 8 seg && s.type == SYMB_GLOBAL).map globalSymb) ++
  (x.symb_tbl.filter fun s => !(s.seg_idx != 255)).flatMap externSymb

/-- The first entry of a name. -/
def entryNamed (name : Name) : CSymb → Bool
  | .entry e => e.name == name
  | _ => false

/-- The index of the first record that satisfies a condition, or the mark for none. -/
def indexOrNone (p : CSymb → Bool) (symbs : List CSymb) : BitVec 32 :=
  if symbs.findIdx p < symbs.length then BitVec.ofNat 32 (symbs.findIdx p) else 0xffffffff

/-- Look up the symbol of an external item by its name. -/
def conv_symb_idx (x_idx : BitVec 16) (x : Xout) (symbs : List CSymb) : BitVec 32 :=
  indexOrNone (entryNamed (((x.symb_tbl[x_idx.toNat]?).map XSymb.name).getD fun _ => 0)) symbs

/-- A name up to its first zero. -/
def xout_convert_name (n : Name) : List Byte := (List.ofFn n).takeWhile (· ≠ 0)

/-- An entry whose name reads the same up to the first zero. -/
def entryReads (name : Name) : CSymb → Bool
  | .entry e => xout_convert_name e.name == xout_convert_name name
  | _ => false

/-- Look up the anchor of a segment. -/
def conv_seg_top_symb_idx (x_idx : BitVec 16) (symbs : List CSymb) : BitVec 32 :=
  indexOrNone (entryReads (segTopName x_idx.toNat)) symbs

def reloc_type_map (xtype : Byte) : BitVec 16 :=
  if xtype = RELOC_OFF then 0x0001
  else if xtype = RELOC_LSG then 0x0011
  else if xtype = RELOC_XOFF then 0x0001
  else if xtype = RELOC_XLSG then 0x0011
  else 0xffff

/-- The address in the code part, BSS segments counted like any others. -/
def calc_addr (x : Xout) (seg : ℕ) (offset : BitVec 16) : BitVec 16 :=
  ((x.seg_tbl.take seg).map Seg.length).sum + offset

/-- What the library's sorting routine promises: the items, in order of their locations. -/
structure Qsort where
  sort : List Reloc → List Reloc
  perm : ∀ l, (sort l).Perm l
  sorted : ∀ l, (sort l).Pairwise fun a b => a.location ≤ b.location

/-- The 16-bit word in the code part; past its end nothing is known of the bytes, here 0. -/
def codeWord (x : Xout) (pos : BitVec 16) : BitVec 32 :=
  (x.code_part.getD pos.toNat 0).setWidth 32 * 256 + (x.code_part.getD (pos.toNat + 1) 0).setWidth 32

def convReloc (x : Xout) (symbs : List CSymb) (r : Reloc) : CReloc where
  vaddr := r.location.setWidth 32
  symb_idx :=
    if r.type = RELOC_XOFF then conv_symb_idx r.symb_idx x symbs
    else if r.type = RELOC_OFF then conv_seg_top_symb_idx r.symb_idx symbs
    else 0
  offset := codeWord x (calc_addr x r.seg_idx.toNat r.location)
  type := reloc_type_map r.type
  stuff := 0x5343

/-- The relocation items, segment by segment. -/
def conv_reloc_tbl (x : Xout) (symbs : List CSymb) (relocs : List Reloc) : List CReloc :=
  (List.range x.seg_tbl.length).flatMap fun seg =>
    (relocs.filter (·.seg_idx == BitVec.ofNat 8 seg)).map (convReloc x symbs)

/-- Fill in the places of the relocation items: `fpos` is the place of those of the section before
and `count` their number. -/
def finalize (relocs : List Reloc) : ℕ → ℕ → ℕ → List Sect → List Sect
  | _, _, _, [] => []
  | fpos, count, sect, s :: rest =>
    let fpos := fpos + count * COFF_RELOC_ITEM_LEN
    let count := relocs.countP (·.seg_idx.toNat == sect)
    { s with
      num_relocs := BitVec.ofNat 16 count
      reloc_tbl_fpos := if count = 0 then 0 else BitVec.ofNat 32 fpos } ::
    finalize relocs fpos count (sect + 1) rest

def conv_hdr (num_sects code_part_len num_relocs num_symbs : ℕ) : Header where
  magic := 0x8000
  num_sects := BitVec.ofNat 16 num_sects
  date := 0
  symb_tbl_fpos := BitVec.ofNat 32
    (COFF_HDR_LEN + num_sects * COFF_SECT_HDR_LEN + code_part_len +
      num_relocs * COFF_RELOC_ITEM_LEN)
  num_symbs := BitVec.ofNat 32 num_symbs
  opt_hdr_len := 0
  flags := 0x2205

/-! ## 3. Writing the file -/

def coff_write_hdr (h : Header) : List Byte :=
  be16 h.magic ++ (be16 h.num_sects ++ (be32 h.date ++ (be32 h.symb_tbl_fpos ++
    (be32 h.num_symbs ++ (be16 h.opt_hdr_len ++ be16 h.flags)))))

def coff_write_sect (s : Sect) : List Byte :=
  List.ofFn s.name ++ (be32 s.paddr ++ (be32 s.vaddr ++ (be32 s.length ++ (be32 s.fpos ++
    (be32 s.reloc_tbl_fpos ++ (be32 s.line_nums_fpos ++ (be16 s.num_relocs ++
      (be16 s.num_lines ++ be32 s.flags))))))))

def coff_write_reloc (r : CReloc) : List Byte :=
  be32 r.vaddr ++ (be32 r.symb_idx ++ (be32 r.offset ++ (be16 r.type ++ be16 r.stuff)))

def coff_write_symb : CSymb → List Byte
  | .entry e => List.ofFn e.name ++ (be32 e.value ++ (be16 e.sect_no ++ (be16 e.type ++
      [e.strg_class, e.num_aux])))
  | .aux_sect length num_relocs num_lines =>
    be32 length ++ (be16 num_relocs ++ (be16 num_lines ++ List.replicate 10 0))
  | .aux_file name => List.ofFn fun i : Fin 18 => name.getD i 0

/-- The tables of a COFF file. -/
structure CoffFile where
  header : Header
  sect_tbl : List Sect
  code_part : List Byte
  reloc_tbl : List CReloc
  symb_tbl : List CSymb

/-- Build the tables. -/
def convert (q : Qsort) (x : Xout) : CoffFile :=
  let x := prepare x
  let sects := conv_sect_hdrs (COFF_HDR_LEN + x.seg_tbl.length * COFF_SECT_HDR_LEN) 0 x.seg_tbl
  let symbs := conv_symb_tbl x
  let sorted := q.sort x.reloc_tbl
  let relocs := conv_reloc_tbl x symbs sorted
  let fpos := COFF_HDR_LEN + COFF_SECT_HDR_LEN * sects.length + x.code_part.length
  { header := conv_hdr sects.length x.code_part.length relocs.length symbs.length
    sect_tbl := finalize sorted fpos 0 0 sects
    code_part := x.code_part
    reloc_tbl := relocs
    symb_tbl := symbs }

def coff_write (c : CoffFile) : List Byte :=
  coff_write_hdr c.header ++ (c.sect_tbl.flatMap coff_write_sect ++ (c.code_part ++
    (c.reloc_tbl.flatMap coff_write_reloc ++ c.symb_tbl.flatMap coff_write_symb)))

/-- The tool, from file to file. -/
def xout2coff (q : Qsort) (file : List Byte) : Option (List Byte) :=
  (xout_read file).map fun x => coff_write (convert q x)

end Cpm8000.Coff
