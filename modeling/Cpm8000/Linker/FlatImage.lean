/-
# Flat images

`xout2flat` makes an image of a linked program, to be loaded at address 0: the contents of the file, as
they follow each other there, and zeros. The addresses of the linker go over the segments without
contents too, so a byte is at its address just when no such segment is placed before it.
-/
import Cpm8000.Linker.Headers

namespace Cpm8000.Linker

open Sys

/-! ## 1. The tool -/

def SECTOR : BitVec 32 := 512

def XOUT_HDR_LEN : ℕ := 16

def XOUT_SEG_ENTRY_LEN : ℕ := 4

/-- The loop over the segment table, with `n` entries to go: the lengths of BSS and stack. -/
def bss_loop : ℕ → List Byte → BitVec 32 → Option (BitVec 32)
  | 0, _, bss => some bss
  | n + 1, s, bss =>
    if s.length < XOUT_SEG_ENTRY_LEN then none
    else
      let type := s.getD 1 0
      let len := field16 s 2
      let bss := if type = X_SG_BSS ∨ type = X_SG_STK then bss + len.setWidth 32 else bss
      bss_loop n (s.drop XOUT_SEG_ENTRY_LEN) bss

/-- `main`: the image, none where the file is refused. -/
def xout2flat (file : List Byte) : Option (List Byte) :=
  if file.length < XOUT_HDR_LEN then none
  else
    let magic := field16 file 0
    let nseg := (field16 file 2).toInt
    let xinit := field32 file 4
    if magic &&& 0xff00 ≠ 0xee00 then none
    else
      match bss_loop nseg.toNat (file.drop XOUT_HDR_LEN) 0 with
      | none => none
      | some bss =>
        let memsz := xinit + bss
        let padded := (memsz + SECTOR - 1) &&& ~~~(SECTOR - 1)
        let pos := (XOUT_HDR_LEN : ℤ) + nseg * XOUT_SEG_ENTRY_LEN
        if pos < 0 then none
        else
          let img := slice file pos.toNat xinit.toNat
          if img.length ≠ xinit.toNat then none
          -- more than is allocated would be lost
          else some ((img ++ List.replicate (padded.toNat - img.length) 0).take padded.toNat)

/-! ## 2. What it reads -/

theorem bss_loop_isSome {n : ℕ} {s : List Byte} {bss : BitVec 32} :
    (bss_loop n s bss).isSome = true ↔ n * XOUT_SEG_ENTRY_LEN ≤ s.length := by
  induction n generalizing s bss with
  | zero => simp [bss_loop]
  | succ n ih =>
    rw [bss_loop]
    dsimp only
    by_cases hs : s.length < XOUT_SEG_ENTRY_LEN
    · rw [if_pos hs, Nat.succ_mul]
      refine iff_of_false (by simp) ?_
      omega
    · rw [if_neg hs, ih, List.length_drop, Nat.succ_mul]
      omega

/-- The lengths of some segments are no more than 64 KB each. -/
theorem bss_loop_le {n : ℕ} {s : List Byte} {bss bss' : BitVec 32} (h : bss_loop n s bss = some bss') :
    bss'.toNat ≤ bss.toNat + n * 2 ^ 16 := by
  induction n generalizing s bss with
  | zero =>
    obtain rfl := Option.some.inj h
    exact Nat.le_add_right _ _
  | succ n ih =>
    have hstep : ∀ w : BitVec 16, (bss + w.setWidth 32).toNat ≤ bss.toNat + 2 ^ 16 := by
      intro w
      rw [BitVec.toNat_add, BitVec.toNat_setWidth]
      exact (Nat.mod_le _ _).trans (Nat.add_le_add_left ((Nat.mod_le _ _).trans (Nat.le_of_lt w.isLt)) _)
    rw [Nat.succ_mul, Nat.add_comm (n * _), ← Nat.add_assoc]
    rw [bss_loop] at h
    dsimp only at h
    split_ifs at h
    · exact (ih h).trans (Nat.add_le_add_right (hstep _) _)
    · exact (ih h).trans (Nat.add_le_add_right (Nat.le_add_right _ _) _)

/-- Whole sectors are enough. -/
theorem le_padded {memsz : BitVec 32} (h : memsz.toNat + 511 < 2 ^ 32) :
    memsz.toNat ≤ ((memsz + SECTOR - 1) &&& ~~~(SECTOR - 1)).toNat := by
  have hsector : SECTOR - 1 = 511 := by decide
  have hy : (memsz + SECTOR - 1).toNat = memsz.toNat + 511 := by
    unfold SECTOR
    bv_omega
  rw [hsector]
  generalize memsz + SECTOR - 1 = y at hy
  have hsplit : (y &&& ~~~511) + (y &&& 511) = y := by
    rw [BitVec.add_eq_or_of_and_eq_zero]
    · ext i hi
      simp only [BitVec.getElem_or, BitVec.getElem_and, BitVec.getElem_not]
      cases y[i] <;> simp
    · ext i hi
      simp only [BitVec.getElem_and, BitVec.getElem_not]
      cases y[i] <;> simp
  have hlow : (y &&& 511).toNat ≤ 511 := by
    rw [BitVec.toNat_and]
    exact Nat.and_le_right
  have hsum := congrArg BitVec.toNat hsplit
  rw [BitVec.toNat_add] at hsum
  have hle := Nat.mod_le ((y &&& ~~~511).toNat + (y &&& 511).toNat) (2 ^ 32)
  omega

/-- A file with `n` segments and `k` bytes of contents. -/
structure Headed (f : List Byte) (n k : ℕ) : Prop where
  magic : field16 f 0 &&& 0xff00 = 0xee00
  nseg : field16 f 2 = BitVec.ofNat 16 n
  xinit : field32 f 4 = BitVec.ofNat 32 k
  few : n ≤ SEGNO
  small : k < 65536

variable {f img : List Byte} {n k : ℕ}

namespace Headed

theorem nseg_toInt (h : Headed f n k) : (field16 f 2).toInt = n := by
  have hfew := h.few
  unfold SEGNO at hfew
  have hnat : (field16 f 2).toNat = n := by
    rw [h.nseg, BitVec.toNat_ofNat, Nat.mod_eq_of_lt]
    omega
  rw [BitVec.toInt_eq_toNat_of_lt, hnat]
  omega

theorem xinit_toNat (h : Headed f n k) : (field32 f 4).toNat = k := by
  have hsmall := h.small
  rw [h.xinit, BitVec.toNat_ofNat, Nat.mod_eq_of_lt]
  omega

/-- What is done with such a file. -/
theorem xout2flat_eq (h : Headed f n k) (hlen : XOUT_HDR_LEN ≤ f.length) : xout2flat f =
    match bss_loop n (f.drop XOUT_HDR_LEN) 0 with
    | none => none
    | some bss =>
      let padded := (field32 f 4 + bss + SECTOR - 1) &&& ~~~(SECTOR - 1)
      let img := slice f (XOUT_HDR_LEN + n * XOUT_SEG_ENTRY_LEN) k
      if img.length ≠ k then none
      else some ((img ++ List.replicate (padded.toNat - img.length) 0).take padded.toNat) := by
  have hnat : ((n : ℤ)).toNat = n := Int.toNat_natCast n
  have hpos : ((XOUT_HDR_LEN : ℤ) + n * XOUT_SEG_ENTRY_LEN) =
      ((XOUT_HDR_LEN + n * XOUT_SEG_ENTRY_LEN : ℕ) : ℤ) := by
    push_cast
    rfl
  unfold xout2flat
  dsimp only
  rw [if_neg (Nat.not_lt.mpr hlen), if_neg (not_not.mpr h.magic), h.nseg_toInt, h.xinit_toNat, hnat,
    hpos, Int.toNat_natCast]
  rcases bss_loop n (f.drop XOUT_HDR_LEN) 0 with _ | bss
  · rfl
  · exact if_neg (Int.not_lt.mpr (Int.natCast_nonneg _))

/-- The length of the contents that are found. -/
theorem length_slice_iff (f : List Byte) (p k : ℕ) :
    (slice f p k).length = k ↔ k = 0 ∨ p + k ≤ f.length := by
  rw [slice, List.length_take, List.length_drop]
  omega

/-- **An image is made** just when the file has the contents. -/
theorem isSome_iff (h : Headed f n k) :
    (xout2flat f).isSome = true ↔ XOUT_HDR_LEN + n * XOUT_SEG_ENTRY_LEN + k ≤ f.length := by
  by_cases hlen : XOUT_HDR_LEN ≤ f.length
  · have htable := @bss_loop_isSome n (f.drop XOUT_HDR_LEN) 0
    rw [List.length_drop] at htable
    rw [h.xout2flat_eq hlen]
    rcases hb : bss_loop n (f.drop XOUT_HDR_LEN) 0 with _ | bss <;> rw [hb] at htable
    · refine iff_of_false (by simp) ?_
      have hshort := mt htable.mpr (by simp)
      omega
    · have hroom := htable.mp rfl
      have hslice := length_slice_iff f (XOUT_HDR_LEN + n * XOUT_SEG_ENTRY_LEN) k
      dsimp only
      by_cases hk : (slice f (XOUT_HDR_LEN + n * XOUT_SEG_ENTRY_LEN) k).length = k
      · rw [if_neg (not_not.mpr hk)]
        refine iff_of_true rfl ?_
        have := hslice.mp hk
        omega
      · rw [if_pos hk]
        refine iff_of_false (by simp) ?_
        have := mt hslice.mpr hk
        omega
  · unfold xout2flat
    rw [if_pos (Nat.lt_of_not_le hlen)]
    refine iff_of_false (by simp) ?_
    omega

/-- **The image** is the contents, and zeros behind them. -/
theorem image (h : Headed f n k) (himg : xout2flat f = some img) : k ≤ img.length ∧
    (∀ a < k, img[a]? = f[XOUT_HDR_LEN + n * XOUT_SEG_ENTRY_LEN + a]?) ∧
      ∀ a, k ≤ a → a < img.length → img[a]? = some 0 := by
  have hall := h.isSome_iff.mp (himg ▸ rfl)
  rw [h.xout2flat_eq (by omega)] at himg
  rcases hb : bss_loop n (f.drop XOUT_HDR_LEN) 0 with _ | bss <;> rw [hb] at himg
  · cases himg
  dsimp only at himg
  have hlength : (slice f (XOUT_HDR_LEN + n * XOUT_SEG_ENTRY_LEN) k).length = k :=
    (length_slice_iff _ _ _).mpr (.inr hall)
  rw [if_neg (not_not.mpr hlength), hlength] at himg
  obtain rfl := Option.some.inj himg
  have hk : k ≤ ((field32 f 4 + bss + SECTOR - 1) &&& ~~~(SECTOR - 1)).toNat := by
    have hbss := bss_loop_le hb
    have hzero : (0 : BitVec 32).toNat = 0 := rfl
    have hfew := h.few
    have hsmall := h.small
    unfold SEGNO at hfew
    rw [hzero] at hbss
    have hsum : (field32 f 4 + bss).toNat = k + bss.toNat := by
      rw [BitVec.toNat_add, h.xinit_toNat, Nat.mod_eq_of_lt]
      omega
    have hle := @le_padded (field32 f 4 + bss) (by omega)
    omega
  generalize ((field32 f 4 + bss + SECTOR - 1) &&& ~~~(SECTOR - 1)).toNat = padded at hk
  have hpadded : (slice f (XOUT_HDR_LEN + n * XOUT_SEG_ENTRY_LEN) k ++
      List.replicate (padded - k) 0).length = padded := by
    rw [List.length_append, hlength, List.length_replicate]
    omega
  rw [List.take_of_length_le (Nat.le_of_eq hpadded)]
  refine ⟨?_, fun a ha => ?_, fun a hle ha => ?_⟩
  · rw [hpadded]
    exact hk
  · rw [List.getElem?_append_left (by omega), slice, List.getElem?_take_of_lt ha, List.getElem?_drop]
  · rw [hpadded] at ha
    rw [List.getElem?_append_right (by omega), hlength, List.getElem?_replicate, if_pos (by omega)]

end Headed

/-! ## 3. A linked program -/

namespace Ld

/-- Every initialised byte of the program is in the image at its address; `p` is the state at the end of
the second pass. -/
def Flattened (v : Ld) (p : P2) : Prop :=
  ∀ img, xout2flat (p.finale v.interlude).file = some img →
    ∀ i ∈ v.placing, v.HasData i → ∀ b < (v.segtab i).segsiz,
      img[(v.interlude.ld.segtab i).segrel.toNat + b]? = some (p.objfile (v.start i + b))

/-- The same with one space. -/
structure Linked (v : Ld) (p : P2) : Prop extends Finished v p where
  flat : v.Flat

variable {v : Ld} {p : P2} {i : ℕ} {pre post : List ℕ}

namespace Linked

theorem with_bytes (h : Linked v p) (body : ℕ → Byte) : Linked v (p.with_bytes body) :=
  ⟨⟨h.final, h.prealloc, h.unmarked, h.spanned, h.marks, h.alike, h.prelist⟩, h.flat⟩

theorem extent (h : Linked v p) : v.extent v.placing < 65536 :=
  h.flat.spanned _ ▸ h.spanned false (fun hf => absurd hf Bool.false_ne_true)

theorem segtab_of_mem (h : Linked v p) (hsplit : v.placing = pre ++ i :: post) :
    v.interlude.ld.segtab i = v.placed_at pre i :=
  (h.toFinished.segtab_of_mem hsplit).trans (h.flat.addressed_at _ _)

/-- **The address** of an output segment. -/
theorem address (h : Linked v p) (hsplit : v.placing = pre ++ i :: post) :
    (v.interlude.ld.segtab i).segrel.toNat = v.extent pre := by
  have hspace : v.space i = false := by
    rw [space, h.flat.splitid]
    rfl
  rw [h.toFinished.address hsplit, hspace, h.flat.spanned]

/-- **The place in the file** of one with contents. -/
theorem start_eq (h : Linked v p) (hsplit : v.placing = pre ++ i :: post) (hdata : v.HasData i) :
    v.start i = v.body_pos + v.filed pre := by
  rw [start, h.segtab_of_mem hsplit, placed_at]
  exact if_pos hdata

/-! ## 4. The file -/

/-- **The header says** how many segments there are and how long the contents. -/
theorem headed (h : Linked v p) : Headed (p.finale v.interlude).file v.unplaced.objnseg
    (v.filed v.placing) := by
  have hheader := file_header p v.interlude
  have hbytes : ∀ x : XHdr, field16 x.bytes 0 = x.x_magic ∧ field16 x.bytes 2 = x.x_nseg ∧
      field32 x.bytes 4 = x.x_init := by
    intro x
    refine ⟨?_, ?_, ?_⟩
    · exact @field16_be16 [] _ x.x_magic 0 rfl
    · exact @field16_be16 (be16 x.x_magic) _ x.x_nseg 2 rfl
    · have hassoc : x.bytes = (be16 x.x_magic ++ be16 x.x_nseg) ++
          (be32 x.x_init ++ (be32 x.x_reloc ++ be32 x.x_symb)) := List.append_assoc .. |>.symm
      rw [hassoc]
      exact @field32_be32 (be16 x.x_magic ++ be16 x.x_nseg) _ x.x_init 4 rfl
  obtain ⟨hmagic, hnseg, hinit⟩ := hbytes (p.header v.interlude)
  refine ⟨?_, ?_, ?_, objnseg_le v, (v.filed_le _).trans_lt h.extent⟩
  · have hfield := @field16_of_slice _ _ 0 _ 0 hheader (by decide)
    rw [Nat.zero_add] at hfield
    rw [hfield, hmagic, P2.header]
    dsimp only
    split_ifs
    all_goals decide
  · have hfield := @field16_of_slice _ _ 0 _ 2 hheader (by decide)
    rw [Nat.zero_add] at hfield
    rw [hfield, hnseg]
    exact congrArg (BitVec.ofNat 16) h.interlude_objnseg
  · have hfield := @field32_of_slice _ _ 0 _ 4 hheader (by decide)
    rw [Nat.zero_add] at hfield
    rw [hfield, hinit, P2.header]
    dsimp only
    rw [h.relpos_eq, h.interlude_objnseg, body_pos]
    congr 1
    omega

/-- **A byte of the image**: of the contents, or a zero behind them. -/
theorem image_byte (h : Linked v p) {img : List Byte}
    (himg : xout2flat (p.finale v.interlude).file = some img) {a : ℕ} {c : Byte}
    (hc : img[a]? = some c) :
    c = if a < v.filed v.placing then (p.finale v.interlude).objfile (v.body_pos + a) else 0 := by
  obtain ⟨-, hcontents, hzeros⟩ := h.headed.image himg
  have hroom := h.headed.isSome_iff.mp (himg ▸ rfl)
  rw [P2.length_file] at hroom
  change v.body_pos + _ ≤ _ at hroom
  have hlt : a < img.length := by
    by_contra hge
    rw [List.getElem?_eq_none (not_lt.mp hge)] at hc
    cases hc
  by_cases ha : a < v.filed v.placing
  · have hbyte := hcontents a ha
    change _ = (P2.file _)[v.body_pos + a]? at hbyte
    rw [P2.getElem?_file _ (by omega), hc] at hbyte
    rw [if_pos ha]
    exact Option.some.inj hbyte
  · have hbyte := hzeros a (not_lt.mp ha) hlt
    rw [hc] at hbyte
    rw [if_neg ha]
    exact Option.some.inj hbyte

/-- **The order is right** and no header is over the contents: each byte is at its address. -/
theorem flattened (h : Linked v p) (hb : ∀ i ∈ v.placing, v.HasData i → ¬ v.Beyond)
    (horder : v.placing.Pairwise fun k i => v.HasData i → v.HasData k) : v.Flattened p := by
  intro img himg i hi hdata b hlt
  obtain ⟨pre, post, hsplit⟩ := List.append_of_mem hi
  have hall : ∀ k ∈ pre, v.HasData k := by
    rw [hsplit, List.pairwise_append] at horder
    exact fun k hk => horder.2.2 k hk i List.mem_cons_self hdata
  have hsizes : ∀ k ∈ pre, (v.segtab k).segsiz ≠ 0 := fun k hk =>
    (mem_placing.mp (hsplit ▸ List.mem_append_left _ hk)).2
  have hsame := (v.filed_eq_iff hsizes).mpr hall
  have hin : v.extent pre + b < v.filed v.placing := by
    rw [hsplit, filed_append, filed_cons, if_pos hdata]
    omega
  obtain ⟨-, hcontents, -⟩ := h.headed.image himg
  have hroom := h.headed.isSome_iff.mp (himg ▸ rfl)
  rw [P2.length_file] at hroom
  change v.body_pos + _ ≤ _ at hroom
  have hbyte := hcontents _ hin
  change _ = (P2.file _)[v.body_pos + (v.extent pre + b)]? at hbyte
  have hbody : (p.finale v.interlude).objfile (v.body_pos + (v.extent pre + b)) =
      p.objfile (v.body_pos + (v.extent pre + b)) := by
    refine P2.finale_body ?_ ?_
    · rw [h.headed_eq (hb i hi hdata)]
      exact Nat.le_add_right _ _
    · rw [h.relpos_eq]
      exact Nat.add_lt_add_left hin _
  rw [P2.getElem?_file _ (by omega), hbody] at hbyte
  rw [h.address hsplit, h.start_eq hsplit hdata, hbyte, hsame, Nat.add_assoc]

/-- **A byte that is not at its address**, or is lost, can be another without the image being another
there. -/
theorem not_flattened (h : Linked v p) (himg : (xout2flat (p.finale v.interlude).file).isSome = true)
    (hi : i ∈ v.placing) (hdata : v.HasData i)
    (hoff : v.start i ≠ v.body_pos + (v.interlude.ld.segtab i).segrel.toNat ∨
      XHSIZ ≤ v.start i ∧ v.start i < XHSIZ + p.headed * SGSIZ) :
    ¬ ∀ body, v.Flattened (p.with_bytes body) := by
  intro hall
  have hpos := Nat.pos_of_ne_zero (mem_placing.mp hi).2
  have hother := P2.finale_same (s := p) (r := v.interlude)
    (Function.update p.objfile (v.start i) (p.objfile (v.start i) + 1))
  have h' := h.with_bytes (Function.update p.objfile (v.start i) (p.objfile (v.start i) + 1))
  have hat := hall p.objfile
  have hat' := hall (Function.update p.objfile (v.start i) (p.objfile (v.start i) + 1))
  have himg' := h'.headed.isSome_iff.mpr <| by
    rw [P2.length_file, hother.objlen]
    have hroom := h.headed.isSome_iff.mp himg
    rwa [P2.length_file] at hroom
  obtain ⟨img, himg⟩ := Option.isSome_iff_exists.mp himg
  obtain ⟨img', himg'⟩ := Option.isSome_iff_exists.mp himg'
  have hbyte := h.image_byte himg (hat img himg i hi hdata 0 hpos)
  have hbyte' := h'.image_byte himg' (hat' img' himg' i hi hdata 0 hpos)
  have hsame : ((p.with_bytes (Function.update p.objfile (v.start i) (p.objfile (v.start i) + 1))).finale
      v.interlude).objfile (v.body_pos + ((v.interlude.ld.segtab i).segrel.toNat + 0)) =
        (p.finale v.interlude).objfile (v.body_pos + ((v.interlude.ld.segtab i).segrel.toNat + 0)) := by
    refine hother.byte _ ?_
    rw [Nat.add_zero]
    by_cases hq : v.body_pos + (v.interlude.ld.segtab i).segrel.toNat = v.start i
    · rw [hq]
      exact .inr (hoff.resolve_left fun hne => hne hq.symm)
    · exact .inl (Function.update_of_ne hq _ _)
  have hdiffer : p.objfile (v.start i) + 1 = p.objfile (v.start i) := by
    rw [P2.with_bytes_objfile, Nat.add_zero, Function.update_self, hsame] at hbyte'
    rw [P2.with_bytes_objfile, Nat.add_zero] at hbyte
    exact hbyte'.trans hbyte.symm
  generalize p.objfile (v.start i) = c at hdiffer
  revert c
  decide

/-- The first segment with contents. -/
theorem first_data (hi : i ∈ v.placing) (hdata : v.HasData i) : ∃ pre k post,
    v.placing = pre ++ k :: post ∧ v.HasData k ∧ v.filed pre = 0 := by
  obtain ⟨k, hk⟩ := Option.isSome_iff_exists.mp
    (List.find?_isSome (p := fun k => decide (v.HasData k)).mpr ⟨i, hi, decide_eq_true hdata⟩)
  obtain ⟨hkdata, pre, post, hsplit, hnone⟩ := List.find?_eq_some_iff_append.mp hk
  refine ⟨pre, k, post, hsplit, of_decide_eq_true hkdata, ?_⟩
  rw [filed, List.filter_eq_nil_iff.mpr, extent_nil]
  intro j hj
  have hjnone := hnone j hj
  simpa using hjnone

theorem flattened_iff (h : Linked v p) (himg : (xout2flat (p.finale v.interlude).file).isSome = true) :
    (∀ body, v.Flattened (p.with_bytes body)) ↔ (∀ i ∈ v.placing, v.HasData i → ¬ v.Beyond) ∧
      v.placing.Pairwise fun k i => v.HasData i → v.HasData k := by
  constructor
  · intro hall
    refine ⟨fun i hi hdata hb => ?_, List.pairwise_iff_getElem.mpr fun a b ha hb hab hdata => ?_⟩
    · obtain ⟨pre, k, post, hsplit, hkdata, hzero⟩ := first_data hi hdata
      have hk : k ∈ v.placing := hsplit ▸ List.mem_append_right _ List.mem_cons_self
      refine h.not_flattened himg hk hkdata (.inr ?_) hall
      rw [h.start_eq hsplit hkdata, hzero, h.headed_beyond hb, body_pos]
      unfold SGSIZ
      omega
    · by_contra hnot
      have hsplit : v.placing = v.placing.take b ++ v.placing[b] :: v.placing.drop (b + 1) := by
        rw [List.getElem_cons_drop, List.take_append_drop]
      have hmem : v.placing[a] ∈ v.placing.take b := List.mem_take_iff_getElem.mpr
        ⟨a, by omega, rfl⟩
      refine h.not_flattened himg (List.getElem_mem hb) hdata (.inl ?_) hall
      have hsizes : ∀ k ∈ v.placing.take b, (v.segtab k).segsiz ≠ 0 := fun k hk =>
        (mem_placing.mp (List.mem_of_mem_take hk)).2
      have hne := mt (v.filed_eq_iff hsizes).mp fun hdatas => hnot (hdatas _ hmem)
      rw [h.start_eq hsplit hdata, h.address hsplit]
      omega
  · rintro ⟨hb, horder⟩ body
    exact (h.with_bytes body).flattened hb horder

end Linked

variable {cc : Compiler} {s : Ld}

/-- A module with a segment of each of some types, and two bytes in each. -/
def with_types (types : List Byte) : XFile where
  x_magic := X_NU_MAGIC
  x_sg := types.map fun typ => ⟨255, typ, 2⟩
  init := [1, 2, 3, 4]
  x_rel := []
  x_sym := []

/-- What is seen of a link of one module: the flags, the preassigned list, whether the order of the
segments is right, the errors, the beginning of the image, and the address, the file position and the
first byte of output segment 2. -/
structure FlatOutcome where
  nonseg : Bool
  saverel : Bool
  splitid : Bool
  prelist : List ℕ
  ordered : Bool
  errcnt : ℕ
  image : Option (List Byte)
  data : Bool
  address : BitVec 16
  byte : Byte
  deriving DecidableEq

def flat_outcome (v : Ld) (p : P2) : FlatOutcome where
  nonseg := v.nonseg
  saverel := v.saverel
  splitid := v.splitid
  prelist := v.prelist
  ordered := decide (v.placing.Pairwise fun k i => v.HasData i → v.HasData k)
  errcnt := p.ld.errcnt
  image := (xout2flat (p.finale v.interlude).file).map fun img => img.take 8
  data := decide (2 ∈ v.placing ∧ v.HasData 2)
  address := (v.interlude.ld.segtab 2).segrel
  byte := p.objfile (v.start 2)

def flat_after (types : List Byte) : Option FlatOutcome := do
  let s ← pass0 .unsigned .zero []
  let v ← s.pass1 .unsigned [.object (with_types types)]
  let p ← (v.interlude.pass2 fun _ => 0).p2loads .unsigned [with_types types]
  return flat_outcome v p

theorem of_flat_after {types : List Byte} {r : FlatOutcome} (h : flat_after types = some r) :
    ∃ s v p, pass0 .unsigned .zero [] = some s ∧
      s.pass1 .unsigned [.object (with_types types)] = some v ∧
        (v.interlude.pass2 fun _ => 0).p2loads .unsigned [with_types types] = some p ∧
          flat_outcome v p = r := by
  unfold flat_after at h
  obtain ⟨s, hs, h⟩ := Option.bind_eq_some_iff.mp h
  obtain ⟨v, hv, h⟩ := Option.bind_eq_some_iff.mp h
  obtain ⟨p, hp, h⟩ := Option.bind_eq_some_iff.mp h
  exact ⟨s, v, p, hs, hv, hp, Option.some.inj h⟩

end Ld

end Cpm8000.Linker
