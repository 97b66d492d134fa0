/-
# Walking through an archive

An archive is its magic number and members one after the other, each a header of 26 bytes and its
contents.  The linker seeks from one header to the next and rounds the place of a header up to an even
number; the extraction tool reads on where the contents end, and stops at a member without contents.

`members_agree_iff`: they see the same members just when they stay in step.
-/
import Cpm8000.Sys.Bytes
import Cpm8000.Arith.Word

namespace Cpm8000.Linker.Archive

open Sys Arith

/-! ## 1. The two tools -/

def AR_HDR_LEN : ℕ := 26

def AR_FNAME_LEN : ℕ := 14

def AR_MAGIC : BitVec 16 := 0xff65

/-- The size of the header of an object file, which the linker reads first. -/
def XHSIZ : ℕ := 16

/-- What both use of the header of a member. -/
structure Hdr where
  name : List Byte
  size : BitVec 32
  deriving DecidableEq

/-- A member: the place of its header, its name and its contents. -/
structure Member where
  pos : ℕ
  name : List Byte
  contents : List Byte
  deriving DecidableEq

/-- An archive; its places are long words. -/
structure File where
  bytes : List Byte
  magic : field16 bytes 0 = AR_MAGIC
  addressable : bytes.length < 2 ^ 31 - 1

theorem two_le_of_magic {bytes : List Byte} (h : field16 bytes 0 = AR_MAGIC) : 2 ≤ bytes.length := by
  match bytes, h with
  | [], h => exact absurd h (by decide)
  | [a], h =>
    have hbit := congrArg (fun x => x.getLsbD 0) h
    have h0 : field16 [a] 0 = a ++ (0 : Byte) := rfl
    rw [h0, BitVec.getLsbD_append, if_pos (by norm_num)] at hbit
    exact absurd hbit (by decide)
  | a :: b :: l, _ => simp

/-- The header at a place, if it is there, and does not have an empty name. -/
def header (file : List Byte) (pos : ℕ) : Option Hdr :=
  let hbuf := slice file pos AR_HDR_LEN
  if hbuf.length = AR_HDR_LEN ∧ hbuf.getD 0 0 ≠ 0 then
    some ⟨(slice hbuf 0 AR_FNAME_LEN).takeWhile (· ≠ 0), field32 hbuf 22⟩
  else none

/-- The member that a header at a place stands for. -/
def memberAt (file : List Byte) (pos : ℕ) (h : Hdr) : Member :=
  ⟨pos, h.name, slice file (pos + AR_HDR_LEN) h.size.toNat⟩

/-- The next member to extract and where to read on; none at the end, before a member without contents,
and where the contents are not all there. -/
def xarchNext (file : List Byte) (pos : ℕ) : Option (Member × ℕ) :=
  match header file pos with
  | none => none
  | some hdr =>
    if hdr.size = 0 then none
    else
      let data := slice file (pos + AR_HDR_LEN) hdr.size.toNat
      if data.length ≠ hdr.size.toNat then none
      else some (memberAt file pos hdr, pos + AR_HDR_LEN + hdr.size.toNat)

/-- The first `n` members that are extracted, from a place on. -/
def xarchFrom (file : List Byte) : ℕ → ℕ → List Member
  | 0, _ => []
  | n + 1, pos =>
    match xarchNext file pos with
    | none => []
    | some (m, pos) => m :: xarchFrom file n pos

/-- The first `n` members that are extracted. -/
def xarch (file : List Byte) (n : ℕ) : List Member :=
  if file.length < 2 then []
  else if field16 file 0 ≠ AR_MAGIC then []
  else xarchFrom file n 2

/-- The position that the loop computes, and the place in the file. -/
structure Walk where
  fpos : BitVec 32
  pos : ℕ

/-- Behind a member: the computed position, rounded, and the seek to it, which does nothing when it is
negative; `left` is where the scan of a member leaves the file. -/
def Walk.next (left : ℕ → ℕ) (size : BitVec 32) (w : Walk) : Walk :=
  let fpos := w.fpos + (26 + size)
  let fpos := if fpos.getLsbD 0 then fpos + 1 else fpos
  if 0 ≤ fpos.toInt then ⟨fpos, fpos.toNat⟩ else ⟨fpos, left w.pos⟩

/-- The first `n` members that are visited. -/
def p1entryFrom (left : ℕ → ℕ) (file : List Byte) : ℕ → Walk → List Member
  | 0, _ => []
  | n + 1, w =>
    match header file w.pos with
    | none => []
    | some hdr => memberAt file w.pos hdr :: p1entryFrom left file n (w.next left hdr.size)

/-- The first `n` members that are visited when a whole archive is scanned. -/
def p1entry (left : ℕ → ℕ) (file : List Byte) (n : ℕ) : List Member :=
  if file.length < XHSIZ then []
  else if field16 file 0 ≠ AR_MAGIC then []
  else p1entryFrom left file n ⟨2, 2⟩

/-! ## 2. In step -/

/-- From here on both tools are at the same place: every member is complete and has an even number of
bytes, and some; only the last one may be odd, with nothing behind it that looks like a header. -/
inductive InStep (file : List Byte) : ℕ → Prop
  | stop {pos : ℕ} : header file pos = none → InStep file pos
  | even {pos : ℕ} {h : Hdr} : header file pos = some h → h.size ≠ 0 → h.size.toNat % 2 = 0 →
      pos + AR_HDR_LEN + h.size.toNat ≤ file.length → InStep file (pos + AR_HDR_LEN + h.size.toNat) →
      InStep file pos
  | odd {pos : ℕ} {h : Hdr} : header file pos = some h → h.size.toNat % 2 = 1 →
      pos + AR_HDR_LEN + h.size.toNat ≤ file.length →
      xarchNext file (pos + AR_HDR_LEN + h.size.toNat) = none →
      header file (pos + AR_HDR_LEN + h.size.toNat + 1) = none → InStep file pos

theorem header_length {file : List Byte} {pos : ℕ} {h : Hdr} (hh : header file pos = some h) :
    pos + AR_HDR_LEN ≤ file.length := by
  rw [header] at hh
  split_ifs at hh with hc
  have hlen := hc.1
  rw [slice, List.length_take, List.length_drop] at hlen
  rw [AR_HDR_LEN] at *
  omega

/-- What is extracted next. -/
theorem xarchNext_eq {file : List Byte} {pos : ℕ} {h : Hdr} (hh : header file pos = some h)
    (h0 : h.size ≠ 0) (hc : pos + AR_HDR_LEN + h.size.toNat ≤ file.length) :
    xarchNext file pos = some (memberAt file pos h, pos + AR_HDR_LEN + h.size.toNat) := by
  have hlen : (slice file (pos + AR_HDR_LEN) h.size.toNat).length = h.size.toNat := by
    rw [slice, List.length_take, List.length_drop]
    omega
  rw [xarchNext, hh]
  simp only [if_neg h0, hlen, ne_eq, not_true_eq_false, if_false]

theorem xarchNext_some {file : List Byte} {pos : ℕ} {m : Member} {q : ℕ}
    (hx : xarchNext file pos = some (m, q)) :
    ∃ h, header file pos = some h ∧ h.size ≠ 0 ∧ pos + AR_HDR_LEN + h.size.toNat ≤ file.length ∧
      m = memberAt file pos h ∧ q = pos + AR_HDR_LEN + h.size.toNat := by
  rw [xarchNext] at hx
  rcases hh : header file pos with _ | h
  · rw [hh] at hx
    cases hx
  · rw [hh] at hx
    dsimp only at hx
    split_ifs at hx with h0 hlen
    obtain ⟨rfl, rfl⟩ := Prod.mk.inj (Option.some.inj hx)
    refine ⟨h, rfl, h0, ?_, rfl, rfl⟩
    have hle := header_length hh
    rw [ne_eq, not_not, slice, List.length_take, List.length_drop] at hlen
    omega

/-- Behind a member that ends below `2 ^ 31 - 1`, at the next even place. -/
theorem next_of_lt (left : ℕ → ℕ) (size : BitVec 32) {w : Walk} (hw : w.fpos.toNat = w.pos)
    (hlt : w.pos + AR_HDR_LEN + size.toNat < 2 ^ 31 - 1) :
    (w.next left size).fpos.toNat = (w.next left size).pos ∧
      (w.next left size).pos = w.pos + AR_HDR_LEN + size.toNat + (w.pos + size.toNat) % 2 := by
  rw [AR_HDR_LEN] at *
  have h26 : (26 : BitVec 32).toNat = 26 := rfl
  have hsum : (w.fpos + (26 + size)).toNat = w.pos + 26 + size.toNat := by
    rw [BitVec.toNat_add, BitVec.toNat_add, hw, h26]
    omega
  have hbit : (w.fpos + (26 + size)).getLsbD 0 = true ↔ (w.pos + size.toNat) % 2 = 1 := by
    rw [getLsbD_eq_true_iff, hsum]
    omega
  have hround : (if (w.fpos + (26 + size)).getLsbD 0 then w.fpos + (26 + size) + 1
      else w.fpos + (26 + size)).toNat = w.pos + 26 + size.toNat + (w.pos + size.toNat) % 2 := by
    by_cases hb : (w.fpos + (26 + size)).getLsbD 0 = true
    · have h1 : (1 : BitVec 32).toNat = 1 := rfl
      rw [if_pos hb, hbit.mp hb, BitVec.toNat_add, hsum, h1]
      omega
    · have hz : (w.pos + size.toNat) % 2 = 0 := by
        have := mt hbit.mpr hb
        omega
      rw [if_neg hb, hz, hsum]
      exact (Nat.add_zero _).symm
  rw [Walk.next]
  generalize (if (w.fpos + (26 + size)).getLsbD 0 then w.fpos + (26 + size) + 1
      else w.fpos + (26 + size)) = f at hround ⊢
  have hf : 0 ≤ f.toInt := by
    rw [BitVec.toInt_eq_toNat_cond, if_pos (by omega)]
    omega
  simp only [if_pos hf, true_and]
  exact hround

/-! ## 3. The members -/

theorem xarchFrom_of_none {file : List Byte} {pos : ℕ} (h : xarchNext file pos = none) (n : ℕ) :
    xarchFrom file n pos = [] := by
  cases n with
  | zero => rfl
  | succ n => rw [xarchFrom, h]

theorem xarchFrom_of_some {file : List Byte} {pos q : ℕ} {m : Member}
    (h : xarchNext file pos = some (m, q)) (n : ℕ) :
    xarchFrom file (n + 1) pos = m :: xarchFrom file n q := by
  rw [xarchFrom, h]

theorem p1entryFrom_of_none {left : ℕ → ℕ} {file : List Byte} {w : Walk} (h : header file w.pos = none)
    (n : ℕ) : p1entryFrom left file n w = [] := by
  cases n with
  | zero => rfl
  | succ n => rw [p1entryFrom, h]

theorem p1entryFrom_of_some {left : ℕ → ℕ} {file : List Byte} {w : Walk} {h : Hdr}
    (hh : header file w.pos = some h) (n : ℕ) :
    p1entryFrom left file (n + 1) w =
      memberAt file w.pos h :: p1entryFrom left file n (w.next left h.size) := by
  rw [p1entryFrom, hh]

theorem xarchNext_of_header {file : List Byte} {pos : ℕ} (h : header file pos = none) :
    xarchNext file pos = none := by
  rw [xarchNext, h]

/-- Two walks from different places see the same members only when they see none. -/
theorem none_of_pos_ne {left : ℕ → ℕ} {file : List Byte} {q : ℕ} {w : Walk} (hne : w.pos ≠ q)
    (h : p1entryFrom left file 1 w = xarchFrom file 1 q) :
    xarchNext file q = none ∧ header file w.pos = none := by
  rcases hx : xarchNext file q with _ | ⟨m, q'⟩
  · rw [xarchFrom_of_none hx] at h
    rcases hh : header file w.pos with _ | hdr
    · exact ⟨rfl, rfl⟩
    · rw [p1entryFrom_of_some hh] at h
      cases h
  · obtain ⟨hx', -, -, -, rfl, -⟩ := xarchNext_some hx
    rw [xarchFrom_of_some hx] at h
    rcases hh : header file w.pos with _ | hdr
    · rw [p1entryFrom_of_none hh] at h
      cases h
    · rw [p1entryFrom_of_some hh] at h
      exact absurd (congrArg Member.pos (List.cons.inj h).1) hne

/-- **In step, the members are the same.** -/
theorem agree_of_inStep {left : ℕ → ℕ} {file : List Byte} (hlen : file.length < 2 ^ 31 - 1) {pos : ℕ}
    (h : InStep file pos) {w : Walk} (hw : w.fpos.toNat = w.pos) (hpos : w.pos = pos)
    (heven : pos % 2 = 0) (n : ℕ) : p1entryFrom left file n w = xarchFrom file n pos := by
  induction h generalizing w n with
  | stop hn =>
    rw [p1entryFrom_of_none (by rw [hpos]; exact hn), xarchFrom_of_none (xarchNext_of_header hn)]
  | @even pos hdr hh h0 hs hc _ ih =>
    cases n with
    | zero => rfl
    | succ n =>
      subst hpos
      obtain ⟨hf, hp⟩ := next_of_lt left hdr.size hw (by omega)
      rw [AR_HDR_LEN] at *
      rw [p1entryFrom_of_some hh, xarchFrom_of_some (xarchNext_eq hh h0 hc)]
      exact congrArg _ (ih hf (by omega) (by omega) n)
  | @odd pos hdr hh hs hc hx hl =>
    cases n with
    | zero => rfl
    | succ n =>
      subst hpos
      have h0 : hdr.size ≠ 0 := by
        intro h
        rw [h] at hs
        cases hs
      obtain ⟨-, hp⟩ := next_of_lt left hdr.size hw (by omega)
      have hodd : (w.pos + hdr.size.toNat) % 2 = 1 := by omega
      rw [hodd] at hp
      rw [p1entryFrom_of_some hh, xarchFrom_of_some (xarchNext_eq hh h0 hc), xarchFrom_of_none hx,
        p1entryFrom_of_none (by rw [hp]; exact hl)]

/-- **The same members are seen only in step.** -/
theorem inStep_of_agree {left : ℕ → ℕ} {file : List Byte} (hlen : file.length < 2 ^ 31 - 1) :
    ∀ (k : ℕ) (w : Walk), file.length ≤ w.pos + k → w.fpos.toNat = w.pos → w.pos % 2 = 0 →
      (∀ n, p1entryFrom left file n w = xarchFrom file n w.pos) → InStep file w.pos := by
  intro k
  induction k with
  | zero =>
    intro w hk _ _ _
    refine .stop ?_
    rcases hh : header file w.pos with _ | h
    · rfl
    · have hle := header_length hh
      rw [AR_HDR_LEN] at hle
      omega
  | succ k ih =>
    intro w hk hw heven h
    rcases hh : header file w.pos with _ | hdr
    · exact .stop hh
    · -- the linker visits this one, so it is extracted, and complete
      have h1 := h 1
      rw [p1entryFrom_of_some hh] at h1
      rcases hx : xarchNext file w.pos with _ | ⟨m, q⟩
      · rw [xarchFrom_of_none hx] at h1
        cases h1
      · obtain ⟨hdr', hh', h0, hc, rfl, rfl⟩ := xarchNext_some hx
        obtain rfl := Option.some.inj (hh.symm.trans hh')
        obtain ⟨hf, hp⟩ := next_of_lt left hdr.size hw (by omega)
        have htail (n : ℕ) : p1entryFrom left file n (w.next left hdr.size) =
            xarchFrom file n (w.pos + AR_HDR_LEN + hdr.size.toNat) := by
          have hn := h (n + 1)
          rw [p1entryFrom_of_some hh, xarchFrom_of_some hx] at hn
          exact (List.cons.inj hn).2
        rcases Nat.mod_two_eq_zero_or_one hdr.size.toNat with hs | hs
        · have hz : (w.pos + hdr.size.toNat) % 2 = 0 := by omega
          rw [hz, Nat.add_zero] at hp
          have hin := ih (w.next left hdr.size)
            (by rw [hp, AR_HDR_LEN]; omega) hf (by rw [hp, AR_HDR_LEN]; omega)
            (by rw [hp]; exact htail)
          rw [hp] at hin
          exact .even hh h0 hs hc hin
        · have hz : (w.pos + hdr.size.toNat) % 2 = 1 := by omega
          rw [hz] at hp
          obtain ⟨hxn, hln⟩ := none_of_pos_ne (by rw [hp]; omega) (htail 1)
          rw [hp] at hln
          exact .odd hh hs hc hxn hln

/-- **The two tools agree on an archive just when they stay in step.** -/
theorem members_agree_iff (left : ℕ → ℕ) (file : File) :
    (∀ n, p1entry left file.bytes n = xarch file.bytes n) ↔ InStep file.bytes 2 := by
  have hfile := two_le_of_magic file.magic
  have hx (n : ℕ) : xarch file.bytes n = xarchFrom file.bytes n 2 := by
    rw [xarch, if_neg (by omega), if_neg (not_not.mpr file.magic)]
  have hp (n : ℕ) : p1entry left file.bytes n = p1entryFrom left file.bytes n ⟨2, 2⟩ := by
    rw [p1entry]
    split_ifs with hs hm
    · have hnone : header file.bytes 2 = none := by
        rcases hh : header file.bytes 2 with _ | h
        · rfl
        · have hle := header_length hh
          rw [AR_HDR_LEN] at hle
          rw [XHSIZ] at hs
          omega
      rw [p1entryFrom_of_none hnone]
    · exact absurd file.magic hm
    · rfl
  simp only [hx, hp]
  constructor
  · intro h
    exact inStep_of_agree file.addressable file.bytes.length ⟨2, 2⟩ (by omega) rfl rfl h
  · intro h n
    exact agree_of_inStep file.addressable h rfl rfl rfl n

/-- A member of one byte, its padding, and another member. -/
def oddArchive : File :=
  ⟨[0xff, 0x65] ++
      ([0x61] ++ List.replicate 13 0 ++ List.replicate 8 0 ++ [0, 0, 0, 1] ++ [1, 0]) ++
      ([0x62] ++ List.replicate 13 0 ++ List.replicate 8 0 ++ [0, 0, 0, 2] ++ [2, 3]),
    by decide, by decide⟩

/-- The second member is not extracted. -/
theorem oddArchive_disagrees :
    (xarch oddArchive.bytes 2).map Member.name = [[0x61]] ∧
      (p1entry (fun pos => pos) oddArchive.bytes 2).map Member.name = [[0x61], [0x62]] := by
  decide

end Cpm8000.Linker.Archive
