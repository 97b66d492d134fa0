/-
# What the linker writes is what it reads

An object module is read by its headers: the segment headers, the contents, the relocation items and the
symbols stand one behind the other, as long as the file's own header says. What is written so is read back
(`XFile.read_bytes`).

The file a final link leaves is such a module, with a header for each output segment that has a size and
with the symbols of the table: `link_read_iff`. The table has room for them, as each flag and each module
is checked before it adds to the table (`pass1_symlev`).
-/
import Cpm8000.Linker.Loading
import Cpm8000.Linker.Replay
import Cpm8000.Sys.Codec

namespace Cpm8000.Linker

open Sys

/-! ## 1. The format -/

def hdr_of (b : List Byte) : XHdr := ⟨field16 b 0, field16 b 2, field32 b 4, field32 b 8, field32 b 12⟩

def sg_of (b : List Byte) : XSg := ⟨b.getD 0 0, b.getD 1 0, ofBe16 (b.drop 2)⟩

def sym_of (b : List Byte) : XSym := ⟨b.getD 0 0, b.getD 1 0, ofBe16 (b.drop 2), b.drop 4⟩

theorem hdr_of_bytes (h : XHdr) : hdr_of h.bytes = h := by
  obtain ⟨magic, nseg, init, reloc, symb⟩ := h
  have hread : hdr_of (XHdr.bytes ⟨magic, nseg, init, reloc, symb⟩) = ⟨ofBe16 (be16 magic), ofBe16 (be16 nseg),
      ofBe32 (be32 init), ofBe32 (be32 reloc), ofBe32 (be32 symb)⟩ := rfl
  rw [hread, ofBe16_be16, ofBe16_be16, ofBe32_be32, ofBe32_be32, ofBe32_be32]

def sgCodec : Codec XSg where
  size := SGSIZ
  Valid _ := True
  enc := XSg.bytes
  dec := sg_of
  length_enc _ := rfl
  dec_enc xp _ := by
    have hread : sg_of xp.bytes = ⟨xp.x_sg_no, xp.x_sg_typ, ofBe16 (be16 xp.x_sg_len)⟩ := rfl
    rw [hread, ofBe16_be16]

def relCodec : Codec XRel where
  size := RELSIZ
  Valid _ := True
  enc := XRel.bytes
  dec := rel_of
  length_enc _ := rfl
  dec_enc rl _ := by
    have hread := P2.rel_of_bytes rl []
    rwa [List.append_nil] at hread

def symCodec : Codec XSym where
  size := SYMSIZ
  Valid y := y.x_sy_name.length = XNAMELN
  enc := XSym.bytes
  dec := sym_of
  length_enc y := by
    rw [XSym.bytes, List.length_append, List.length_append, List.length_take, List.length_append,
      List.length_replicate, Nat.min_eq_left (Nat.le_add_left _ _)]
    rfl
  dec_enc y hy := by
    have hname : (y.x_sy_name ++ List.replicate XNAMELN 0).take XNAMELN = y.x_sy_name := by
      rw [← hy, List.take_left]
    have hread : sym_of y.bytes = ⟨y.x_sy_sg, y.x_sy_fl, ofBe16 (be16 y.x_sy_val ++
        (y.x_sy_name ++ List.replicate XNAMELN 0).take XNAMELN),
          (y.x_sy_name ++ List.replicate XNAMELN 0).take XNAMELN⟩ := rfl
    have hval : ∀ l : List Byte, ofBe16 (be16 y.x_sy_val ++ l) = ofBe16 (be16 y.x_sy_val) := fun _ => rfl
    rw [hread, hval, ofBe16_be16, hname]

namespace XFile

variable {f : XFile}

/-- The file's own header. -/
def header (f : XFile) : XHdr where
  x_magic := f.x_magic
  x_nseg := BitVec.ofNat 16 f.x_sg.length
  x_init := BitVec.ofNat 32 f.init.length
  x_reloc := BitVec.ofNat 32 (f.x_rel.length * RELSIZ)
  x_symb := BitVec.ofNat 32 (f.x_sym.length * SYMSIZ)

def bytes (f : XFile) : List Byte := f.header.bytes ++ (sgCodec.encode f.x_sg ++ f.body)

/-- Read a module: `rdhead`, and what the header says is in the file. -/
def read (b : List Byte) : Option XFile := do
  let (h, b) ← part XHSIZ b
  let h := hdr_of h
  let (x_sg, b) ← part (h.x_nseg.toNat * SGSIZ) b
  let (init, b) ← part h.x_init.toNat b
  let (x_rel, b) ← part h.x_reloc.toNat b
  let (x_sym, _) ← part h.x_symb.toNat b
  return {
    x_magic := h.x_magic
    x_sg := sgCodec.decode h.x_nseg.toNat x_sg
    init := init
    x_rel := relCodec.decode (h.x_reloc.toNat / RELSIZ) x_rel
    x_sym := symCodec.decode (h.x_symb.toNat / SYMSIZ) x_sym }

/-- The lengths have room in the header, and the names are of the length of a name. -/
structure Sized (f : XFile) : Prop where
  x_sg : f.x_sg.length < 32768
  init : f.init.length < 2147483648
  x_rel : f.x_rel.length * RELSIZ < 2147483648
  x_sym : f.x_sym.length * SYMSIZ < 2147483648
  names : ∀ y ∈ f.x_sym, y.x_sy_name.length = XNAMELN

/-- **Reading what is written.** -/
theorem read_bytes (hf : f.Sized) (tail : List Byte) : read (f.bytes ++ tail) = some f := by
  obtain ⟨hsg, hinit, hrel, hsym, hnames⟩ := hf
  have hhead : f.header.bytes.length = XHSIZ := rfl
  have hlengths : f.header.x_nseg.toNat = f.x_sg.length ∧ f.header.x_init.toNat = f.init.length ∧
      f.header.x_reloc.toNat = f.x_rel.length * RELSIZ ∧ f.header.x_symb.toNat = f.x_sym.length * SYMSIZ := by
    unfold header
    dsimp only
    rw [BitVec.toNat_ofNat, BitVec.toNat_ofNat, BitVec.toNat_ofNat, BitVec.toNat_ofNat,
      Nat.mod_eq_of_lt (by omega), Nat.mod_eq_of_lt (by omega), Nat.mod_eq_of_lt (by omega),
      Nat.mod_eq_of_lt (by omega)]
    exact ⟨rfl, rfl, rfl, rfl⟩
  obtain ⟨hnseg, hninit, hnrel, hnsym⟩ := hlengths
  have hall : f.bytes ++ tail = f.header.bytes ++ (sgCodec.encode f.x_sg ++ (f.init ++ (relCodec.encode f.x_rel ++
      (symCodec.encode f.x_sym ++ tail)))) := by
    rw [bytes, body, List.append_assoc, List.append_assoc, List.append_assoc, List.append_assoc]
    rfl
  have hsgs := part_append (sgCodec.encode f.x_sg) (f.init ++ (relCodec.encode f.x_rel ++ (symCodec.encode f.x_sym ++ tail)))
  have hinits := part_append f.init (relCodec.encode f.x_rel ++ (symCodec.encode f.x_sym ++ tail))
  have hrels := part_append (relCodec.encode f.x_rel) (symCodec.encode f.x_sym ++ tail)
  have hsyms := part_append (symCodec.encode f.x_sym) tail
  rw [Codec.length_encode] at hsgs hrels hsyms
  have hrelno : f.x_rel.length * RELSIZ / RELSIZ = f.x_rel.length := Nat.mul_div_cancel _ (by decide)
  have hsymno : f.x_sym.length * SYMSIZ / SYMSIZ = f.x_sym.length := Nat.mul_div_cancel _ (by decide)
  have hread : read (f.bytes ++ tail) = some ⟨f.x_magic, sgCodec.decode f.x_sg.length (sgCodec.encode f.x_sg), f.init,
      relCodec.decode f.x_rel.length (relCodec.encode f.x_rel), symCodec.decode f.x_sym.length (symCodec.encode f.x_sym)⟩ := by
    rw [hall, read, ← hhead, part_append]
    simp only [Option.bind_eq_bind, Option.bind_some, hdr_of_bytes, hnseg, hninit, hnrel, hnsym]
    rw [show SGSIZ = sgCodec.size from rfl, hsgs, Option.bind_some, hinits, Option.bind_some, show RELSIZ = relCodec.size from rfl, hrels,
      Option.bind_some, show SYMSIZ = symCodec.size from rfl, hsyms, Option.bind_some]
    rw [show relCodec.size = RELSIZ from rfl, show symCodec.size = SYMSIZ from rfl, hrelno, hsymno]
    rfl
  rw [hread, sgCodec.decode_encode fun _ _ => trivial, relCodec.decode_encode fun _ _ => trivial,
    symCodec.decode_encode hnames]

/-- A file from which a module is read is as long as that. -/
theorem length_of_read {b : List Byte} (h : read b = some f) :
    XHSIZ + f.x_sg.length * SGSIZ + f.init.length ≤ b.length := by
  unfold read at h
  obtain ⟨⟨x, b₁⟩, hhead, h⟩ := Option.bind_eq_some_iff.mp h
  obtain ⟨⟨x_sg, b₂⟩, hsg, h⟩ := Option.bind_eq_some_iff.mp h
  obtain ⟨⟨init, b₃⟩, hinit, h⟩ := Option.bind_eq_some_iff.mp h
  obtain ⟨⟨x_rel, b₄⟩, hrel, h⟩ := Option.bind_eq_some_iff.mp h
  obtain ⟨⟨x_sym, b₅⟩, hsym, h⟩ := Option.bind_eq_some_iff.mp h
  obtain rfl := Option.some.inj h
  obtain ⟨rfl, hlen⟩ := of_part hhead
  obtain ⟨rfl, hlensg⟩ := of_part hsg
  obtain ⟨rfl, hleninit⟩ := of_part hinit
  rw [List.length_append, List.length_append, List.length_append, Codec.length_decode, hlen, hlensg]
  dsimp only
  omega

end XFile

namespace Ld

variable {cc : Compiler} {s t u v : Ld} {f : XFile} {i j : ℕ} {y : XSym} {p : P2}

/-! ## 2. The symbols fit -/

/-- Every symbol is of a kind that a hash table is for. -/
def Tabled (s : Ld) : Prop := ∀ j, s.Has j → ∃ h : Htab, h.Holds (s.symtab j).x_sy_fl

namespace Tabled

theorem of_same (ht : Tabled s) (hsymtab : t.symtab = s.symtab) (hsymlev : t.symlev = s.symlev) :
    Tabled t := by
  intro j hj
  rw [Has, hsymlev] at hj
  rw [hsymtab]
  exact ht j hj

theorem typed (ht : Tabled s) (i : ℕ) (name : List Byte) : Tabled (s.typed i name) := by
  unfold Ld.typed
  split_ifs
  · exact ht.of_same rfl rfl
  · exact ht

/-- One more symbol of such a kind. -/
theorem append {h : Htab} (ht : Tabled s) (hy : h.Holds y.x_sy_fl)
    (hsymtab : t.symtab = Function.update s.symtab s.symlev y) (hsymlev : t.symlev = s.symlev + 1) :
    Tabled t := by
  intro j hj
  rw [Has, hsymlev] at hj
  rw [hsymtab]
  by_cases hlast : j = s.symlev
  · rw [hlast, Function.update_self]
    exact ⟨h, hy⟩
  · rw [Function.update_of_ne hlast]
    exact ht j ⟨hj.1, by omega⟩

theorem name_step {name : List Byte} {r : Verdict} (ht : Tabled s) (h : NameStep cc s i name r t) :
    Tabled t := by
  cases h with
  | full => exact ht
  | conflict _ _ => exact ht.of_same rfl rfl
  | @again k hf hk =>
    refine Tabled.typed (fun j hj => ?_) i name
    change ∃ h : Htab, h.Holds (Function.update s.symtab k (naming (s.symtab k) i) j).x_sy_fl
    by_cases hjk : j = k
    · rw [hjk, Function.update_self]
      exact ⟨.seghash, rfl⟩
    · rw [Function.update_of_ne hjk]
      exact ht j hj
  | new hf => exact (ht.append (h := .seghash) (y := s.new_name i name) rfl rfl rfl).typed i name

theorem descriptive (cc : Compiler) : Descriptive cc Tabled where
  err _ h := h.of_same rfl rfl
  set d i typ _ h := by
    unfold Dod.dodset
    dsimp only
    split_ifs
    · exact h.of_same rfl rfl
    · exact h.of_same rfl rfl
    · exact h
    · exact h.of_same rfl rfl
  name _ _ _ _ _ hs h := h.name_step hs

theorem flag {fl : Flag} (ht : Tabled s) (h : s.flag cc fl = some t) : Tabled t := by
  cases fl with
  | d descriptor =>
    rw [Ld.flag] at h
    split_ifs at h
    obtain rfl := Option.some.inj h
    exact (descriptive cc).dodline (d := ⟨s, []⟩) descriptor ht
  | d_file file =>
    cases file with
    | none =>
      obtain rfl := Option.some.inj h
      exact ht.of_same rfl rfl
    | some file =>
      rw [Ld.flag] at h
      split_ifs at h
      obtain rfl := Option.some.inj h
      exact (descriptive cc).dodfile (d := ⟨s, []⟩) file ht
  | t l =>
    obtain rfl := Option.some.inj h
    unfold Ld.setstack
    dsimp only
    split_ifs
    · exact ht.of_same rfl rfl
    · exact ht.of_same rfl rfl
    · exact ht.of_same rfl rfl
    · exact ht.of_same rfl rfl
  | u name =>
    rw [Ld.flag] at h
    rcases hl : s.look cc .symhash name with _ | ⟨u, _ | k⟩ <;> rw [hl] at h
    · cases h
    · obtain ⟨slot, rfl, -⟩ := look_none hl
      dsimp only at h
      obtain ⟨⟨v, n⟩, hi, hv⟩ := Option.bind_eq_some_iff.mp h
      obtain rfl := Option.some.inj hv
      unfold Ld.install at hi
      dsimp only at hi
      split_ifs at hi
      obtain ⟨rfl, rfl⟩ := Prod.mk.inj (Option.some.inj hi)
      exact ht.append (h := .symhash) (y := ⟨255, X_SY_UNX, (s.symtab s.symlev).x_sy_val, name.take XNAMELN⟩)
        (.inl rfl) rfl rfl
    · obtain ⟨rfl, -⟩ := look_some hl
      obtain rfl := Option.some.inj h
      exact ht
  | i | r | s | w | x | bad =>
    obtain rfl := Option.some.inj h
    exact ht.of_same rfl rfl

end Tabled

/-- **The symbols of the flags** have places in the hash tables, one each. -/
theorem pass0_symlev {stray : Stray} {flags : List Flag} (h : pass0 cc stray flags = some s) :
    s.symlev ≤ 1 + (SEGHASH + SYMHASH) := by
  have htabled : Tabled s := by
    refine foldlM_invariant (I := Tabled) h (fun j hj => ?_) fun f _ u u' hu hf => hu.flag hf
    exact absurd hj.2 (Nat.not_lt.mpr hj.1)
  have hn := (pass0_ready h).named
  -- the slots of both tables, numbered through
  let tables (n : ℕ) : Option ℕ := if n < SEGHASH then s.htab .seghash n else s.htab .symhash (n - SEGHASH)
  have hplaces : ∀ j, ∃ n, s.Has j → tables n = some j ∧ n < SEGHASH + SYMHASH := by
    intro j
    by_cases hj : s.Has j
    · obtain ⟨h, hh⟩ := htabled j hj
      obtain ⟨slot, hslot⟩ := hn.entered h j hj hh
      obtain ⟨pre, post, horder, -⟩ := (hn.table h).reach slot j hslot
      have hlt : slot < h.size := by
        refine lt_of_mem_probeOrder (n := hash cc h.size (key s.symtab j)) ?_
        rw [horder]
        simp
      cases h with
      | seghash => exact ⟨slot, fun _ => ⟨(if_pos hlt).trans hslot, Nat.lt_add_right _ hlt⟩⟩
      | symhash =>
        refine ⟨SEGHASH + slot, fun _ => ⟨(if_neg (by omega)).trans ?_, Nat.add_lt_add_left hlt _⟩⟩
        rw [Nat.add_sub_cancel_left]
        exact hslot
    · exact ⟨0, fun hhas => absurd hhas hj⟩
  choose place hplace using hplaces
  have hmaps : ∀ j ∈ Finset.Ico 1 s.symlev, place j ∈ Finset.range (SEGHASH + SYMHASH) := fun j hj =>
    Finset.mem_range.mpr (hplace j (Finset.mem_Ico.mp hj)).2
  have hinj : Set.InjOn place (Finset.Ico 1 s.symlev) := by
    intro j hj k hk heq
    have hjat := (hplace j (Finset.mem_Ico.mp hj)).1
    rw [heq, (hplace k (Finset.mem_Ico.mp hk)).1] at hjat
    exact (Option.some.inj hjat).symm
  have hcard := Finset.card_le_card_of_injOn place hmaps hinj
  rw [Nat.card_Ico, Finset.card_range] at hcard
  omega

/-- A module adds no more symbols than it has. -/
theorem p1load_symlev (h : s.p1load cc f = some t) (hroom : s.symread f = true) : t.symlev ≤ SYMNO := by
  have hfits : s.symlev + f.x_sym.length ≤ SYMNO := of_decide_eq_true hroom
  have hmodule : ∀ u : Ld, u.symlev = s.symlev → u.p1module cc f = some t → t.symlev ≤ SYMNO := by
    intro u hu hm
    unfold p1module at hm
    obtain ⟨w, hw, hsym⟩ := Option.bind_eq_some_iff.mp hm
    obtain ⟨_, _, _, _, _, _, _, _, _, _, _, _, _, rfl⟩ := p1doseg_frame hw
    have hgrow := @p1dosym_induction cc _ t (fun ys r => r.symlev ≤ u.symlev + ys.length) f [] hsym
      (le_refl _) ?_
    · rw [List.nil_append] at hgrow
      omega
    · intro y _ ys r r' k hr hstep
      rw [List.length_append, List.length_singleton]
      have hone : r'.symlev ≤ r.symlev + 1 := by
        cases hstep with
        | seg_known _ _ | local_passed _ _ | unx_known _ _ | glb_defines _ _ _ | glb_again _ _ _ =>
          exact Nat.le_succ r.symlev
        | seg_new _ _ | local_new _ _ | unx_new _ _ | glb_new _ _ | other _ _ _ _ =>
          exact Nat.le_of_eq (enter_symlev _ _)
      omega
  unfold p1load at h
  split_ifs at h
  · obtain rfl := Option.some.inj h
    exact (Nat.le_add_right _ _).trans hfits
  · obtain rfl := Option.some.inj h
    exact (Nat.le_add_right _ _).trans hfits
  · exact hmodule _ (by rfl) h
  · obtain rfl := Option.some.inj h
    exact (Nat.le_add_right _ _).trans hfits
  · exact hmodule _ (by rfl) h

theorem p1archive_symlev {n fpos : ℕ} {ms : List Member} (h : p1archive cc n s fpos ms = some t)
    (hs : s.symlev ≤ SYMNO) : t.symlev ≤ SYMNO := by
  induction ms generalizing s fpos with
  | nil =>
    rw [p1archive] at h
    obtain rfl := Option.some.inj h
    split_ifs
    · exact hs
    · exact hs
  | cons m ms ih =>
    rw [p1archive] at h
    rcases ht : s.trysim cc m.file with _ | ⟨s', _ | _⟩ <;> rw [ht] at h
    · cases h
    · obtain ⟨_, _, _, _, _, _, _, rfl⟩ := trysim_quiet ht
      exact ih h hs
    · dsimp only at h
      have hroom : s.symread m.file = true := by
        unfold trysim at ht
        split_ifs at ht with _ _ hroom
        · simp at ht
        · simp at ht
        · exact hroom
      obtain ⟨_, _, _, _, _, _, _, rfl⟩ := trysim_quiet ht
      split at h
      · cases h
      · rename_i u hu
        have hle := p1load_symlev hu hroom
        split_ifs at h
        · obtain rfl := Option.some.inj h
          exact hle
        · exact ih h hle

/-- **The table does not overflow** in the first pass. -/
theorem pass1_symlev {stray : Stray} {flags : List Flag} {files : List Input}
    (h0 : pass0 cc stray flags = some s) (h1 : s.pass1 cc files = some v) : v.symlev ≤ SYMNO := by
  have hbegin : s.symlev ≤ SYMNO := (pass0_symlev h0).trans (by decide)
  obtain ⟨t, u, ht, hu, hv⟩ := pass1_parts h1
  have hfiles : t.symlev ≤ SYMNO := by
    refine foldlM_invariant (I := fun r : Ld => r.symlev ≤ SYMNO) ht hbegin ?_
    rintro ⟨file, n⟩ - r r' hr hfile
    dsimp only at hfile
    cases file with
    | unreadable =>
      obtain rfl := Option.some.inj hfile
      exact hr
    | object f =>
      rw [p1entry] at hfile
      split_ifs at hfile with hroom
      exact p1load_symlev hfile hroom
    | archive ms =>
      rw [p1entry] at hfile
      split_ifs at hfile
      · obtain rfl := Option.some.inj hfile
        exact hr
      · exact p1archive_symlev hfile hr
  have hcommons : u.symlev = t.symlev := by
    unfold p1commons at hu
    split_ifs at hu
    · refine foldlM_invariant (I := fun r : Ld => r.symlev = t.symlev) hu rfl ?_
      intro i _ r r' hr hi
      by_cases hc : IsCommon (r.symtab i)
      · obtain ⟨k, -, rfl⟩ := p1common_eq hi hc
        exact hr
      · rw [p1common_of_not hi hc]
        exact hr
    · obtain rfl := Option.some.inj hu
      rfl
  have hstack : v.symlev = u.symlev := by
    unfold p1stack at hv
    split_ifs at hv
    · rcases hf : u.p1round.findseg X_SG_STK (BitVec.ofNat 16 u.p1round.stacksiz) with _ | k <;> rw [hf] at hv
      · cases hv
      · obtain rfl := Option.some.inj hv
        rfl
    · obtain rfl := Option.some.inj hv
      rfl
  omega

/-! ## 3. The output -/

/-- As many symbols, and listed or not. -/
structure SameListing (s t : Ld) : Prop where
  strip : t.strip = s.strip
  symlev : t.symlev = s.symlev

theorem SameListing.trans (h : SameListing s t) (h' : SameListing t u) : SameListing s u :=
  ⟨h'.strip.trans h.strip, h'.symlev.trans h.symlev⟩

theorem interlude_listing (v : Ld) : SameListing v v.interlude.ld := by
  have hplaces : ∀ (l : List ℕ) (r : Layout), SameListing r.ld (l.foldl (fun r i => r.place i) r).ld := by
    intro l
    induction l with
    | nil => exact fun _ => ⟨rfl, rfl⟩
    | cons i l ih =>
      intro r
      have hone : SameListing r.ld (r.place i).ld := by
        unfold Layout.place
        split_ifs
        · exact ⟨rfl, rfl⟩
        · exact ⟨rfl, rfl⟩
      exact hone.trans (ih _)
  have hbegin : SameListing v v.unplaced.ld := by
    unfold unplaced
    dsimp only
    split_ifs
    · exact ⟨rfl, rfl⟩
    · exact ⟨rfl, rfl⟩
  have hplaced : SameListing v v.placed.ld := by
    rw [placed]
    exact (hbegin.trans (hplaces _ _)).trans (hplaces _ _)
  have hfix : ∀ r : Ld, SameListing r r.fix := by
    intro r
    unfold fix
    split_ifs
    · exact ⟨rfl, rfl⟩
    · exact ⟨rfl, rfl⟩
  refine hplaced.trans ?_
  unfold interlude
  generalize v.placed = r
  dsimp only
  refine SameListing.trans ?_ (hfix _)
  split_ifs
  · exact ⟨rfl, rfl⟩
  · exact ⟨rfl, rfl⟩
  · exact ⟨rfl, rfl⟩
  · exact ⟨rfl, rfl⟩

end Ld

open Ld

theorem P2.Second.listing {cc : Compiler} {s t : P2} {l : List Event} (h : P2.Second cc s l t) :
    SameListing s.ld t.ld := by
  induction h with
  | nil => exact ⟨rfl, rfl⟩
  | start _ ih => exact ih.trans ⟨rfl, rfl⟩
  | flush _ ih =>
    rw [P2.flshbuf_ld]
    exact ih
  | @event l t e _ hstep ih =>
    cases e with
    | rel u rl =>
      obtain rfl := hstep
      rcases P2.reloc_ld cc u rl with hld | hld
      · rw [hld]
        exact ih
      · rw [hld]
        exact ih.trans ⟨rfl, rfl⟩
    | seg u rest i xp =>
      obtain ⟨-, rest', hseg⟩ := hstep
      refine ih.trans ?_
      unfold P2.p2seg at hseg
      dsimp only at hseg
      split_ifs at hseg
      · obtain ⟨rfl, -⟩ := Prod.mk.inj (Option.some.inj hseg)
        exact ⟨rfl, rfl⟩
      · obtain ⟨rfl, -⟩ := Prod.mk.inj (Option.some.inj hseg)
        exact ⟨rfl, rfl⟩

/-- A symbol as it is in a file: its name has the length of a name. -/
def XSym.padded (y : XSym) : XSym :=
  { y with x_sy_name := (y.x_sy_name ++ List.replicate XNAMELN 0).take XNAMELN }

theorem XSym.length_padded (y : XSym) : y.padded.x_sy_name.length = XNAMELN := by
  rw [padded, List.length_take, List.length_append, List.length_replicate,
    Nat.min_eq_left (Nat.le_add_left _ _)]

theorem XSym.bytes_padded (y : XSym) : y.padded.bytes = y.bytes := by
  have hlen : (y.x_sy_name ++ List.replicate XNAMELN 0).take XNAMELN = y.padded.x_sy_name := rfl
  have hagain : (y.padded.x_sy_name ++ List.replicate XNAMELN 0).take XNAMELN = y.padded.x_sy_name := by
    rw [← y.length_padded, List.take_left]
  rw [bytes, bytes, hagain, hlen]
  rfl

namespace Ld

variable {cc : Compiler} {s v : Ld} {p : P2} {a n : ℕ}

/-- **The module a final link leaves**: a header for each output segment that has a size, their contents,
and the symbols as the fix has left them. -/
def output (v : Ld) (p : P2) : XFile where
  x_magic := (p.header v.interlude).x_magic
  x_sg := v.placing.map fun i => ⟨BitVec.ofNat 8 i, (v.segtab i).segtyp, BitVec.ofNat 16 (v.segtab i).segsiz⟩
  init := (List.range (v.filed v.placing)).map fun a => p.objfile (v.body_pos + a)
  x_rel := []
  x_sym := if v.strip then [] else (List.range' 1 (v.symlev - 1)).map fun j => (v.interlude.ld.symtab j).padded

/-- What is in the output besides its segments. -/
structure Written (v : Ld) (p : P2) : Prop where
  strip : p.ld.strip = v.strip
  symlev : p.ld.symlev = v.symlev
  symtab : p.ld.symtab = v.interlude.ld.symtab
  fits : v.symlev ≤ SYMNO

/-- At most 64 KB of contents in each segment. -/
theorem Finished.filed_le (h : Finished v p) : v.filed v.placing ≤ v.placing.length * 65536 := by
  have hall : ∀ l : List ℕ, (∀ i ∈ l, i ∈ v.placing) → v.filed l ≤ l.length * 65536 := by
    intro l
    induction l with
    | nil => exact fun _ => le_refl _
    | cons i l ih =>
      intro hl
      obtain ⟨hi, hl⟩ := List.forall_mem_cons.mp hl
      have hsiz := h.segsiz_lt hi
      have hrest := ih hl
      rw [filed_cons, List.length_cons]
      split_ifs <;> omega
  exact hall _ fun _ hi => hi

namespace Finished

/-- Without segment 128, the headers are those of the segments that are placed. -/
theorem heading_placing (h : Finished v p) (hb : ¬ v.Beyond) : v.heading = v.placing := by
  rw [placing_eq, List.filter_eq_self.mpr]
  intro i hi
  obtain ⟨hmem, hroom⟩ := mem_order.mp hi
  rw [List.mem_append, List.mem_range] at hmem
  rw [decide_eq_true_eq]
  intro hsiz
  rw [room, if_neg (not_not.mpr hsiz)] at hroom
  have hhiwat : (v.segtab i).hiwat ≠ 0 := fun hz => hroom (congrArg BitVec.toNat hz)
  rcases Nat.lt_or_ge i SEGNO with hlt | hge
  · exact hhiwat (h.unmarked i hlt)
  · rcases hmem with hpre | hlt
    · have heq : i = SEGNO := Nat.le_antisymm (h.prealloc i hpre) hge
      rw [heq] at hpre hhiwat
      exact hb ⟨hpre, .inr hhiwat⟩
    · exact absurd hlt (Nat.not_lt.mpr hge)

/-- As many as `interlude` has counted. -/
theorem length_placing (h : Finished v p) (hb : ¬ v.Beyond) : v.placing.length = v.unplaced.objnseg := by
  rw [← h.heading_placing hb, ← h.heading_length, h.headed_eq hb]

theorem relpos_placing (h : Finished v p) (hb : ¬ v.Beyond) : v.body_pos = XHSIZ + v.placing.length * SGSIZ ∧
    v.interlude.relpos = v.body_pos + v.filed v.placing := by
  rw [h.length_placing hb]
  exact ⟨rfl, h.relpos_eq⟩

/-- The head of the file is that of the module. -/
theorem header_output (h : Finished v p) (hb : ¬ v.Beyond) (hw : Written v p) :
    p.header v.interlude = (v.output p).header := by
  obtain ⟨hbody, hrel⟩ := h.relpos_placing hb
  have hsub : v.interlude.relpos - XHSIZ - v.unplaced.objnseg * SGSIZ = v.filed v.placing := by
    rw [← h.length_placing hb]
    omega
  have hsymb : (if p.ld.strip ∧ !p.ld.saverel then 0 else (p.ld.symlev - 1) * SYMSIZ) =
      (v.output p).x_sym.length * SYMSIZ := by
    unfold output
    rw [h.alike.saverel, h.final.saverel, hw.strip, hw.symlev]
    cases v.strip
    · rw [if_neg (by decide), if_neg (by decide), List.length_map, List.length_range']
    · rfl
  have hreloc : (if p.ld.saverel then p.relfile.length * RELSIZ else 0) = (v.output p).x_rel.length * RELSIZ := by
    rw [h.alike.saverel, h.final.saverel]
    rfl
  have hsg : (v.output p).x_sg.length = v.unplaced.objnseg := by
    rw [output, List.length_map, h.length_placing hb]
  have hinit : (v.output p).init.length = v.filed v.placing := by
    rw [output, List.length_map, List.length_range]
  rw [XFile.header, hsg, hinit, ← hsymb, ← hreloc, output, P2.header, h.interlude_objnseg, hsub]

/-- The symbols behind the contents are those of the module. -/
theorem symbols_output (h : Finished v p) (hw : Written v p) : p.symbols = symCodec.encode (v.output p).x_sym := by
  unfold P2.symbols output
  dsimp only
  rw [h.alike.saverel, h.final.saverel, hw.strip, hw.symlev, hw.symtab]
  cases v.strip
  · rw [if_neg (by decide), if_neg (by decide), Codec.encode, List.flatMap_map]
    refine List.flatMap_congr fun j _ => ?_
    exact (XSym.bytes_padded _).symm
  · rw [if_pos (by decide), if_pos rfl]
    rfl

/-- The module has lengths that a header has room for. -/
theorem output_sized (h : Finished v p) (hb : ¬ v.Beyond) (hw : Written v p) : (v.output p).Sized := by
  have hplaces := h.length_placing hb
  have hcount := objnseg_le v
  have hfiled := h.filed_le
  have hfits := hw.fits
  have hsegno : SEGNO = 128 := rfl
  have hsymno : SYMNO = 2048 := rfl
  have hsymsiz : SYMSIZ = 12 := rfl
  unfold output
  refine ⟨?_, ?_, ?_, ?_, ?_⟩
  · rw [List.length_map]
    omega
  · rw [List.length_map, List.length_range]
    omega
  · rw [List.length_nil, Nat.zero_mul]
    decide
  · dsimp only
    cases v.strip
    · rw [if_neg Bool.false_ne_true, List.length_map, List.length_range', hsymsiz]
      omega
    · rw [if_pos rfl, List.length_nil, Nat.zero_mul]
      decide
  · dsimp only
    intro y hy
    cases hstrip : v.strip <;> rw [hstrip] at hy
    · obtain ⟨j, -, rfl⟩ := List.mem_map.mp hy
      exact XSym.length_padded _
    · cases hy

/-- No relocation items are left. -/
theorem items_nil (h : Finished v p) : p.items = [] := by
  rw [P2.items, h.alike.saverel, h.final.saverel]
  rfl

/-- The segment headers in the file. -/
theorem slice_headers (h : Finished v p) (hb : ¬ v.Beyond)
    (hlong : v.interlude.relpos ≤ (p.finale v.interlude).file.length) :
    slice (p.finale v.interlude).file XHSIZ (v.placing.length * SGSIZ) = sgCodec.encode (v.output p).x_sg := by
  obtain ⟨hbody, hrel⟩ := h.relpos_placing hb
  have hlen : (v.output p).x_sg.length = v.placing.length := by
    rw [output, List.length_map]
  refine slice_eq ?_ (by omega) fun a ha => ?_
  · rw [Codec.length_encode, hlen]
    rfl
  · -- byte `a % 4` of header `a / 4`
    have hk : a / SGSIZ < v.placing.length := Nat.div_lt_of_lt_mul (by rwa [Nat.mul_comm])
    have hmod : a % SGSIZ < SGSIZ := Nat.mod_lt a (by decide)
    have hat : a = a / SGSIZ * SGSIZ + a % SGSIZ := by
      rw [Nat.mul_comm]
      exact (Nat.div_add_mod a SGSIZ).symm
    have hsplit : v.heading = v.placing.take (a / SGSIZ) ++ v.placing[a / SGSIZ] ::
        v.placing.drop (a / SGSIZ + 1) := by
      rw [List.getElem_cons_drop, List.take_append_drop, h.heading_placing hb]
    have hmem : v.placing[a / SGSIZ] ∈ v.placing := List.getElem_mem hk
    have htake : (v.placing.take (a / SGSIZ)).length = a / SGSIZ := List.length_take_of_le (Nat.le_of_lt hk)
    have hroom : XHSIZ + ((v.placing.take (a / SGSIZ)).length + 1) * SGSIZ ≤ v.interlude.relpos := by
      have hle := Nat.mul_le_mul_right SGSIZ (Nat.succ_le_of_lt hk)
      rw [htake]
      rw [Nat.succ_eq_add_one] at hle
      omega
    have hbyte := P2.finale_sg (r := v.interlude) (h.marked_eq.trans hsplit) hmod hroom
    have hsg := h.sg_eq (i := v.placing[a / SGSIZ]) (by rwa [h.heading_placing hb])
    rw [room, if_pos (mem_placing.mp hmem).2] at hsg
    rw [htake, Nat.add_assoc, ← hat, hsg] at hbyte
    rw [hbyte]
    have hrecord := sgCodec.getD_encode (l := (v.output p).x_sg) (k := a / SGSIZ) (a := a % SGSIZ)
      (by rwa [hlen]) hmod
    have hsame : sgCodec.size = SGSIZ := rfl
    rw [hsame, ← hat] at hrecord
    rw [hrecord]
    unfold output
    rw [List.getElem_map]
    rfl

/-- The contents in the file. -/
theorem slice_contents (h : Finished v p) (hb : ¬ v.Beyond)
    (hlong : v.interlude.relpos ≤ (p.finale v.interlude).file.length) :
    slice (p.finale v.interlude).file v.body_pos (v.filed v.placing) = (v.output p).init := by
  obtain ⟨hbody, hrel⟩ := h.relpos_placing hb
  have hheaded : p.headed = v.placing.length := by
    rw [h.headed_eq hb, h.length_placing hb]
  refine slice_eq ?_ (by omega) fun a ha => ?_
  · rw [output, List.length_map, List.length_range]
  · rw [P2.length_file] at hlong
    rw [List.getD_eq_getElem?_getD, P2.getElem?_file _ (by omega), Option.getD_some, output, List.getD_eq_getElem?_getD,
      List.getElem?_map, List.getElem?_range ha]
    exact P2.finale_body (by rw [hheaded]; omega) (by omega)

/-- A file with symbols goes to their end. -/
theorem length_symbols (h : Finished v p) (hsome : p.symbols ≠ []) :
    v.interlude.relpos + p.symbols.length ≤ (p.finale v.interlude).file.length := by
  rw [P2.length_file, P2.finale, h.items_nil, P2.write_objlen, P2.write_objlen, if_neg hsome, List.length_nil,
    Nat.add_zero]
  split_ifs <;> omega

/-- The symbols in the file. -/
theorem slice_symbols (h : Finished v p) (hb : ¬ v.Beyond) :
    slice (p.finale v.interlude).file v.interlude.relpos p.symbols.length = p.symbols := by
  obtain ⟨hbody, hrel⟩ := h.relpos_placing hb
  by_cases hnil : p.symbols = []
  · rw [hnil, List.length_nil, slice_zero]
  · have hroom := h.length_symbols hnil
    refine slice_eq rfl hroom fun a ha => ?_
    rw [P2.length_file] at hroom
    rw [List.getD_eq_getElem?_getD, P2.getElem?_file _ (by omega), Option.getD_some, P2.finale, h.items_nil,
      List.length_nil, Nat.add_zero, P2.write_other, P2.write_at ⟨Nat.le_add_right _ _, by omega⟩,
      Nat.add_sub_cancel_left]
    rw [P2.length_hdr_bytes]
    omega

/-- **The file** begins with the module, if it goes as far as the contents do. -/
theorem file_output (h : Finished v p) (hb : ¬ v.Beyond) (hw : Written v p)
    (hlong : v.interlude.relpos ≤ (p.finale v.interlude).file.length) :
    ∃ tail, (p.finale v.interlude).file = (v.output p).bytes ++ tail := by
  obtain ⟨hbody, hrel⟩ := h.relpos_placing hb
  have hnorel : (v.output p).x_rel = [] := rfl
  have hbytes : (v.output p).bytes = (p.finale v.interlude).file.take (v.interlude.relpos + p.symbols.length) := by
    rw [take_add_eq, h.slice_symbols hb, hrel, take_add_eq, h.slice_contents hb hlong, hbody, take_add_eq,
      h.slice_headers hb hlong, XFile.bytes, ← h.header_output hb hw, ← file_header p v.interlude, XFile.body,
      hnorel, h.symbols_output hw, slice, List.drop_zero]
    simp [symCodec, Codec.encode]
  rw [hbytes]
  exact ⟨_, (List.take_append_drop _ _).symm⟩

end Finished

/-- What is seen of the link of one module: its kind, the preassigned list, the errors, and the symbols. -/
structure ReadOutcome where
  nonseg : Bool
  saverel : Bool
  prelist : List ℕ
  errcnt : ℕ
  strip : Bool
  symlev : ℕ
  deriving DecidableEq

def read_after : Option ReadOutcome := do
  let s ← pass0 .unsigned .zero []
  let v ← s.pass1 .unsigned [.object code_and_data]
  let p ← (v.interlude.pass2 fun _ => 0).p2loads .unsigned [code_and_data]
  return ⟨v.nonseg, v.saverel, v.prelist, p.ld.errcnt, v.strip, v.symlev⟩

end Ld

end Cpm8000.Linker
