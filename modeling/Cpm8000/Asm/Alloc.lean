/-
# Virtual allocation

Symbols and cross references are allocated from `virtop` on, none across the end of a block, and so is
every character of a macro or a repeat body as it is read. A macro stays; a repeat body is copied to the
input stack when its definition ends, and `virtop` goes back to where it began.

`valloc` looks for no end. In the last block the limit is zero, so a request there is given address zero,
unless it ends where the 64K do, and the space is used again from there (`valloc_zero`). `FitsAt` is when a
request gets space of its own; while every request fits, the regions are where they should be, and no
longer: `regions_kept`.
-/
import Cpm8000.Asm.Vm
import Cpm8000.Sys.Bump
import Cpm8000.Sys.Run

namespace Cpm8000.Asm

open Cpm8000.Sys

/-! ## 1. What is allocated -/

inductive BodyKind
  | admac
  | adrept
  deriving DecidableEq

/-- A body: where it begins, `oc_val` or `rptstr`, and the addresses of the characters stored so far. -/
structure Definition where
  kind : BodyKind
  start : BitVec 16
  chars : List (BitVec 16)

inductive Region
  | object (base size : BitVec 16)
  | body (d : Definition)

def Region.places : Region → List Sys.Place
  | object base size => [⟨0, base.toNat, size.toNat⟩]
  | body d => d.chars.map fun a => ⟨0, a.toNat, 1⟩

/-- The virtual memory, the regions in use, and the body that is being read. -/
structure Space where
  vm : Vm 12
  live : List Region
  defining : Option Definition

namespace Space

variable (sp : Space)

def initial (file : ℕ → Byte) : Space := ⟨.initial file, [], none⟩

def regions : List Region := sp.live ++ sp.defining.toList.map .body

def places : List Sys.Place := sp.regions.flatMap Region.places

end Space

/-- `object` is a symbol (`sylook`) or a cross reference (`xref`). `admac` and `adrept` are the directives,
`char` is a character that `def1` or `rpt1` stores, the zero at the end among them, and `close` what they do
after the zero. `pass` is the end of a pass. -/
inductive Request
  | access (acc : Access) (h : ∀ size, acc ≠ .valloc size)
  | object (size : BitVec 16) (pos : 0 < size.toNat) (block : size.toNat ≤ 512)
  | admac
  | adrept
  | char
  | close
  | pass

/-- `sizeof(struct sytab)` -/
def SYTABSIZ : BitVec 16 := 20

def Request.symbol : Request := .object SYTABSIZ (by decide) (by decide)

/-- "Force integer alignment." -/
def evened (virtop : BitVec 16) : BitVec 16 := if virtop &&& 1 ≠ 0 then virtop + 1 else virtop

def Space.step (sp : Space) : Request → Option Space
  | .access acc _ => (acc.run sp.vm).map fun vm => { sp with vm := vm }
  | .object size _ _ =>
    match sp.defining with
    | some _ => none
    | none =>
      let (vm, base) := { sp.vm with virtop := evened sp.vm.virtop }.valloc size
      some { sp with vm := vm, live := sp.live ++ [.object base size] }
  | .admac =>
    match sp.defining with
    | some _ => none
    | none => some { sp with defining := some ⟨.admac, sp.vm.virtop, []⟩ }
  | .adrept =>
    match sp.defining with
    | some _ => none
    | none => some { sp with defining := some ⟨.adrept, sp.vm.virtop, []⟩ }
  | .char =>
    match sp.defining with
    | none => none
    | some d =>
      let (vm, a) := sp.vm.valloc 1
      some { sp with vm := vm, defining := some { d with chars := d.chars ++ [a] } }
  | .close =>
    match sp.defining with
    | none => none
    | some d =>
      match d.kind with
      | .admac => some { sp with live := sp.live ++ [.body d], defining := none }
      | .adrept => some { sp with vm := { sp.vm with virtop := d.start }, defining := none }
  | .pass => some { sp with live := sp.regions, defining := none }

def Space.run (reqs : List Request) (sp : Space) : Option Space := reqs.foldlM Space.step sp

/-! ## 2. Requests that fit -/

/-- There is space of its own for a request at `v`. -/
def FitsAt (v size : BitVec 16) : Prop := v ≠ 0 ∧ (v.toNat < 0xFE00 ∨ v.toNat + size.toNat = 65536)

instance (v size : BitVec 16) : Decidable (FitsAt v size) := inferInstanceAs (Decidable (_ ∧ _))

/-- What the space has in use ends here; at zero it is full. -/
def top (v : BitVec 16) : ℕ := if v = 0 then 65536 else v.toNat

theorem top_of_ne {v : BitVec 16} (h : v ≠ 0) : top v = v.toNat := if_neg h

theorem top_le (v : BitVec 16) : top v ≤ 65536 := by
  unfold top
  split
  · exact le_rfl
  · exact v.isLt.le

theorem top_eq {v : BitVec 16} {n : ℕ} (h0 : 0 < n) (hn : n ≤ 65536) (hv : v.toNat = n % 65536) :
    top v = n := by
  unfold top
  split
  case isTrue h =>
    subst h
    have : 0 = n % 65536 := hv
    omega
  case isFalse h =>
    have hne : v.toNat ≠ 0 := fun h0 => h (BitVec.eq_of_toNat_eq h0)
    omega

theorem le_top_evened (v : BitVec 16) : top v ≤ top (evened v) := by
  unfold evened
  split
  case isTrue hodd =>
    have hv : v ≠ 0 := by
      rintro rfl
      exact hodd rfl
    by_cases hnext : v + 1 = 0
    · rw [hnext]
      exact top_le v
    · have hadd : (v + 1).toNat = (v.toNat + 1) % 65536 := BitVec.toNat_add ..
      have hpos : (v + 1).toNat ≠ 0 := fun h => hnext (BitVec.eq_of_toNat_eq h)
      rw [top_of_ne hv, top_of_ne hnext]
      omega
  case isFalse => exact le_rfl

namespace Vm

variable {n : ℕ} {vm : Vm n} {size : BitVec 16}

theorem toNat_blklim : ((vm.virtop ||| 511) + 1).toNat = 512 * (vm.virtop.toNat / 512 + 1) % 65536 := by
  rw [BitVec.toNat_add, toNat_or_511]
  rfl

/-- **A request that fits** is given space behind everything that is in use. -/
theorem valloc_own (h : FitsAt vm.virtop size) (pos : 0 < size.toNat) (block : size.toNat ≤ 512) :
    top vm.virtop ≤ (vm.valloc size).2.toNat ∧ (vm.valloc size).2.toNat ≠ 0 ∧
      top (vm.valloc size).1.virtop = (vm.valloc size).2.toNat + size.toNat := by
  obtain ⟨hne, hroom⟩ := h
  have hpos : vm.virtop.toNat ≠ 0 := fun h => hne (BitVec.eq_of_toNat_eq h)
  have hlt := vm.virtop.isLt
  have hlim := @toNat_blklim _ vm
  have hadd : (vm.virtop + size).toNat = (vm.virtop.toNat + size.toNat) % 65536 := BitVec.toNat_add ..
  have hover : ((vm.virtop ||| 511) + 1 + size).toNat =
      (((vm.virtop ||| 511) + 1).toNat + size.toNat) % 65536 := BitVec.toNat_add ..
  rw [top_of_ne hne]
  unfold valloc
  dsimp only
  split_ifs with hc
  · -- the rest of the block is too small
    rw [GT.gt, BitVec.lt_def, hlim, hadd] at hc
    have htop : top ((vm.virtop ||| 511) + 1 + size) = ((vm.virtop ||| 511) + 1).toNat + size.toNat :=
      top_eq (by omega) (by omega) hover
    dsimp only
    rw [hlim] at htop ⊢
    refine ⟨by omega, by omega, htop⟩
  · rw [GT.gt, BitVec.lt_def, hlim, hadd] at hc
    have htop : top (vm.virtop + size) = vm.virtop.toNat + size.toNat :=
      top_eq (by omega) (by omega) hadd
    exact ⟨le_rfl, hpos, htop⟩

/-- **One that does not fit is given address zero.** -/
theorem valloc_zero (h : ¬ FitsAt vm.virtop size) (pos : 0 < size.toNat) (block : size.toNat ≤ 512) :
    (vm.valloc size).2 = 0 := by
  apply BitVec.eq_of_toNat_eq
  have hlt := vm.virtop.isLt
  have hlim := @toNat_blklim _ vm
  have hadd : (vm.virtop + size).toNat = (vm.virtop.toNat + size.toNat) % 65536 := BitVec.toNat_add ..
  have hzero : (0 : BitVec 16).toNat = 0 := rfl
  by_cases hv : vm.virtop = 0
  · unfold valloc
    dsimp only
    rw [if_neg]
    · exact congrArg BitVec.toNat hv
    · rw [GT.gt, BitVec.lt_def, hlim, hadd, hv, hzero]
      omega
  · obtain ⟨hlast, hend⟩ := not_or.mp fun hroom => h ⟨hv, hroom⟩
    unfold valloc
    dsimp only
    rw [if_pos]
    · dsimp only
      rw [hlim]
      omega
    · rw [GT.gt, BitVec.lt_def, hlim, hadd]
      omega

/-- A character goes to the top. -/
theorem valloc_char (h : FitsAt vm.virtop 1) : (vm.valloc 1).2 = vm.virtop := by
  have hlt := vm.virtop.isLt
  have hlim := @toNat_blklim _ vm
  have hone : (1 : BitVec 16).toNat = 1 := rfl
  have hadd : (vm.virtop + 1).toNat = (vm.virtop.toNat + 1) % 65536 := BitVec.toNat_add ..
  obtain ⟨-, hroom⟩ := h
  unfold valloc
  dsimp only
  rw [if_neg]
  rw [GT.gt, BitVec.lt_def, hlim, hadd]
  omega

/-- Accesses leave the top alone. -/
theorem set_lnk_virtop (pb x : Option (Fin n)) : (vm.set_lnk pb x).virtop = vm.virtop := by
  cases pb <;> rfl

theorem page_virtop (cb : Fin n) (vbn : BitVec 16) :
    ((vm.write_out cb).read_in cb vbn).virtop = vm.virtop := by
  unfold read_in write_out
  dsimp only
  split <;> rfl

theorem getbuf_virtop {adr : BitVec 16} {vm' : Vm n} {cb : Fin n} (h : vm.getbuf adr = some (vm', cb)) :
    vm'.virtop = vm.virtop := by
  unfold getbuf at h
  dsimp only at h
  split at h
  · cases h
  · split at h
    · cases h
    · obtain ⟨rfl, rfl⟩ := Prod.mk.inj (Option.some.inj h)
      dsimp only
      rw [set_lnk_virtop, set_lnk_virtop]
      split
      · exact page_virtop _ _
      · rfl

end Vm

theorem Access.run_virtop {acc : Access} (hacc : ∀ size, acc ≠ .valloc size) {n : ℕ}
    {vm vm' : Vm n} (h : acc.run vm = some vm') : vm'.virtop = vm.virtop := by
  cases acc with
  | valloc size => exact absurd rfl (hacc size)
  | rfetch adr =>
    simp only [Access.run, Vm.rfetch, Option.map_map, Option.map_eq_some_iff] at h
    obtain ⟨⟨vm₁, cb⟩, hget, rfl⟩ := h
    exact Vm.getbuf_virtop hget
  | wfetch adr buf fits =>
    simp only [Access.run, Vm.wfetch, Option.map_map, Option.map_eq_some_iff] at h
    obtain ⟨⟨vm₁, cb⟩, hget, rfl⟩ := h
    exact (Vm.getbuf_virtop hget : vm₁.virtop = vm.virtop)

/-! ## 3. The regions -/

/-- **The regions are where they should be**: no two of them meet, none is at address zero, each is in one
block, and the characters of a body follow each other from its beginning on. -/
structure Sound (sp : Space) : Prop where
  disjoint : sp.places.Pairwise Sys.Place.Disjoint
  placed : ∀ p ∈ sp.places, p.start ≠ 0
  inside : ∀ p ∈ sp.places, p.start % 512 + p.len ≤ 512
  consecutive : ∀ d, .body d ∈ sp.regions → ∀ k (hk : k < d.chars.length),
    (d.chars.get ⟨k, hk⟩).toNat = d.start.toNat + k

/-- The requests get space of their own. -/
def Space.Room (sp : Space) : Request → Prop
  | .object size _ _ => FitsAt (evened sp.vm.virtop) size
  | .char => FitsAt sp.vm.virtop 1
  | _ => True

/-- Below the top are the regions, in their order; a body goes up to the top, and below its beginning
are the others. -/
structure Space.Kept (sp : Space) : Prop where
  sound : Sound sp
  filled : Filled (fun _ => top sp.vm.virtop) sp.places
  defining : ∀ d, sp.defining = some d → Filled (fun _ => top d.start) (sp.live.flatMap Region.places) ∧
    top d.start + d.chars.length = top sp.vm.virtop

namespace Space

variable {sp sp' : Space}

theorem places_plain (h : sp.defining = none) : sp.places = sp.live.flatMap Region.places := by
  simp [places, regions, h]

theorem places_defining {d : Definition} (h : sp.defining = some d) :
    sp.places = sp.live.flatMap Region.places ++ (Region.body d).places := by
  simp [places, regions, h]

namespace Kept

theorem initial (file : ℕ → Byte) : Kept (.initial file) where
  sound := by
    refine ⟨.nil, ?_, ?_, ?_⟩ <;> intro _ h <;> cases h
  filled := .nil _
  defining _ h := by cases h

/-- One more place, from the top on. -/
theorem push (h : Kept sp) {a len : ℕ} (hplaces : sp'.places = sp.places ++ [⟨0, a, len⟩])
    (ha : top sp.vm.virtop ≤ a ∧ a ≠ 0 ∧ top sp'.vm.virtop = a + len) (hin : a % 512 + len ≤ 512)
    (hcons : ∀ d, .body d ∈ sp'.regions → ∀ k (hk : k < d.chars.length),
      (d.chars.get ⟨k, hk⟩).toNat = d.start.toNat + k) :
    Sound sp' ∧ Filled (fun _ => top sp'.vm.virtop) sp'.places := by
  obtain ⟨hfrom, hne, hto⟩ := ha
  have hfilled : Filled (fun _ => top sp'.vm.virtop) sp'.places := by
    rw [hplaces]
    refine h.filled.alloc hfrom ?_ fun _ => ?_
    · exact hto.ge
    · omega
  refine ⟨⟨hfilled.ordered.imp Sys.Place.Before.disjoint, fun p hp => ?_, fun p hp => ?_, hcons⟩, hfilled⟩
  · rw [hplaces] at hp
    rcases List.mem_append.mp hp with hp | hp
    · exact h.sound.placed p hp
    · rw [List.mem_singleton.mp hp]
      exact hne
  · rw [hplaces] at hp
    rcases List.mem_append.mp hp with hp | hp
    · exact h.sound.inside p hp
    · rw [List.mem_singleton.mp hp]
      exact hin

/-- A new symbol or cross reference. -/
theorem object (h : Kept sp) {size : BitVec 16} {pos : 0 < size.toNat} {block : size.toNat ≤ 512}
    (hfits : FitsAt (evened sp.vm.virtop) size) (hs : sp.step (.object size pos block) = some sp') :
    Kept sp' := by
  obtain ⟨vm, live, _ | d⟩ := sp
  case some => cases hs
  set r := Vm.valloc { vm with virtop := evened vm.virtop } size with hr
  obtain rfl : (⟨r.1, live ++ [Region.object r.2 size], none⟩ : Space) = sp' := Option.some.inj hs
  have hown := @Vm.valloc_own _ { vm with virtop := evened vm.virtop } size hfits pos block
  have hin := @Vm.valloc_fits _ { vm with virtop := evened vm.virtop } size block
  rw [← hr] at hown hin
  obtain ⟨hfrom, hto⟩ := hown
  have hplaces : places ⟨r.1, live ++ [.object r.2 size], none⟩ =
      places ⟨vm, live, none⟩ ++ [⟨0, r.2.toNat, size.toNat⟩] := by
    simp [places, regions, Region.places]
  obtain ⟨hsound, hfilled⟩ := h.push hplaces ⟨le_trans (le_top_evened vm.virtop) hfrom, hto⟩ hin
    fun d hd => h.sound.consecutive d (by simpa [regions] using hd)
  exact ⟨hsound, hfilled, fun d hd => nomatch hd⟩

/-- A character of a body. -/
theorem char (h : Kept sp) (hfits : FitsAt sp.vm.virtop 1) (hs : sp.step .char = some sp') : Kept sp' := by
  obtain ⟨vm, live, _ | d⟩ := sp
  case none => cases hs
  set r := Vm.valloc vm 1 with hr
  obtain rfl : (⟨r.1, live, some { d with chars := d.chars ++ [r.2] }⟩ : Space) = sp' :=
    Option.some.inj hs
  obtain ⟨hlive, hlen⟩ := h.defining d rfl
  have hown := Vm.valloc_own hfits (by decide) (by decide)
  have hin := @Vm.valloc_fits _ vm 1 (by decide)
  have hat := Vm.valloc_char hfits
  dsimp only at hown hin hat hlen hlive
  rw [← hr] at hown hin hat
  have hstart : d.start ≠ 0 := by
    intro h0
    have hfull : top d.start = 65536 := by rw [h0]; rfl
    have hlt := vm.virtop.isLt
    rw [hfull, top_of_ne hfits.1] at hlen
    omega
  rw [top_of_ne hstart] at hlen
  have hnext : r.2.toNat = d.start.toNat + d.chars.length := by
    rw [hat, hlen, top_of_ne hfits.1]
  have hplaces : places ⟨r.1, live, some { d with chars := d.chars ++ [r.2] }⟩ =
      places ⟨vm, live, some d⟩ ++ [⟨0, r.2.toNat, 1⟩] := by
    simp [places, regions, Region.places]
  have hcons : ∀ d', .body d' ∈ regions ⟨r.1, live, some { d with chars := d.chars ++ [r.2] }⟩ →
      ∀ k (hk : k < d'.chars.length), (d'.chars.get ⟨k, hk⟩).toNat = d'.start.toNat + k := by
    intro d' hd' k hk
    have hold := h.sound.consecutive
    simp only [regions, Option.toList_some, List.map_cons, List.map_nil, List.mem_append,
      List.mem_singleton, Region.body.injEq] at hd' hold
    rcases hd' with hd' | rfl
    · exact hold d' (.inl hd') k hk
    · -- the last character is where the top was
      rcases Nat.lt_or_ge k d.chars.length with hlt | hge
      · rw [← hold d (.inr rfl) k hlt]
        simp [List.getElem_append_left hlt]
      · have hlast : k = d.chars.length := by
          rw [List.length_append, List.length_singleton] at hk
          omega
        subst hlast
        simp [hnext]
  obtain ⟨hsound, hfilled⟩ := h.push hplaces hown hin hcons
  refine ⟨hsound, hfilled, fun d' hd' => ?_⟩
  obtain rfl := Option.some.inj hd'
  refine ⟨hlive, ?_⟩
  dsimp only
  rw [List.length_append, List.length_singleton, hown.2.2, hnext, top_of_ne hstart]
  rfl

/-- The regions stay as they are, and so does the top. -/
theorem same (h : Kept sp) (hregions : sp'.regions = sp.regions)
    (htop : sp'.vm.virtop = sp.vm.virtop) : Sound sp' ∧ Filled (fun _ => top sp'.vm.virtop) sp'.places := by
  have hplaces : sp'.places = sp.places := by rw [places, hregions, places]
  rw [htop, hplaces]
  refine ⟨⟨?_, ?_, ?_, ?_⟩, h.filled⟩
  · exact hplaces ▸ h.sound.disjoint
  · exact hplaces ▸ h.sound.placed
  · exact hplaces ▸ h.sound.inside
  · exact hregions ▸ h.sound.consecutive

/-- A definition begins at the top. -/
theorem define (h : Kept sp) (hplain : sp.defining = none) (kind : BodyKind) :
    Kept { sp with defining := some ⟨kind, sp.vm.virtop, []⟩ } := by
  obtain ⟨vm, live, defining⟩ := sp
  obtain rfl : defining = none := hplain
  have hplaces : places ⟨vm, live, some ⟨kind, vm.virtop, []⟩⟩ = places ⟨vm, live, none⟩ := by
    simp [places, regions, Region.places]
  refine ⟨⟨?_, ?_, ?_, ?_⟩, ?_, ?_⟩
  · exact hplaces ▸ h.sound.disjoint
  · exact hplaces ▸ h.sound.placed
  · exact hplaces ▸ h.sound.inside
  · intro d hd k hk
    simp only [regions, Option.toList_some, List.map_cons, List.map_nil, List.mem_append,
      List.mem_singleton, Region.body.injEq] at hd
    rcases hd with hd | rfl
    · exact h.sound.consecutive d (by simpa [regions] using hd) k hk
    · exact absurd hk (Nat.not_lt_zero k)
  · exact hplaces ▸ h.filled
  · intro d hd
    obtain rfl := Option.some.inj hd
    exact ⟨(@places_plain ⟨vm, live, none⟩ rfl) ▸ h.filled, rfl⟩

/-- At the end of a repeat, all behind its beginning is free. -/
theorem release (h : Kept sp) {d : Definition} (hdef : sp.defining = some d) :
    Kept { sp with vm := { sp.vm with virtop := d.start }, defining := none } := by
  have hplaces := places_defining hdef
  have hsub : (sp.live.flatMap Region.places).Sublist sp.places :=
    hplaces ▸ List.sublist_append_left _ _
  have hlive : places { sp with vm := { sp.vm with virtop := d.start }, defining := none } =
      sp.live.flatMap Region.places := places_plain rfl
  refine ⟨⟨?_, fun p hp => ?_, fun p hp => ?_, fun d' hd' => ?_⟩, ?_, fun d' hd' => nomatch hd'⟩
  · rw [hlive]
    exact h.sound.disjoint.sublist hsub
  · rw [hlive] at hp
    exact h.sound.placed p (hsub.subset hp)
  · rw [hlive] at hp
    exact h.sound.inside p (hsub.subset hp)
  · refine h.sound.consecutive d' ?_
    simp only [regions, Option.toList_none, List.map_nil, List.append_nil] at hd'
    exact List.mem_append_left _ hd'
  · rw [hlive]
    exact (h.defining d hdef).1

/-- **What a step keeps**, if the request has room. -/
theorem step (h : Kept sp) {req : Request} (hroom : sp.Room req) (hs : sp.step req = some sp') :
    Kept sp' := by
  cases req with
  | access acc hacc =>
    obtain ⟨vm, hrun, rfl⟩ := Option.map_eq_some_iff.mp hs
    have htop := Access.run_virtop hacc hrun
    obtain ⟨hsound, hfilled⟩ := @same sp { sp with vm := vm } h rfl htop
    refine ⟨hsound, hfilled, fun d hd => ?_⟩
    dsimp only at hd ⊢
    rw [htop]
    exact h.defining d hd
  | object size pos block => exact h.object hroom hs
  | admac =>
    obtain ⟨vm, live, _ | d⟩ := sp
    · obtain rfl := Option.some.inj hs
      exact h.define rfl .admac
    · cases hs
  | adrept =>
    obtain ⟨vm, live, _ | d⟩ := sp
    · obtain rfl := Option.some.inj hs
      exact h.define rfl .adrept
    · cases hs
  | char => exact h.char hroom hs
  | close =>
    obtain ⟨vm, live, _ | ⟨_ | _, start, chars⟩⟩ := sp
    · cases hs
    · obtain rfl := Option.some.inj hs
      obtain ⟨hsound, hfilled⟩ := @same _ ⟨vm, live ++ [.body ⟨.admac, start, chars⟩], none⟩ h
        (by simp [regions]) rfl
      exact ⟨hsound, hfilled, fun d hd => nomatch hd⟩
    · obtain rfl := Option.some.inj hs
      exact h.release rfl
  | pass =>
    obtain rfl := Option.some.inj hs
    obtain ⟨hsound, hfilled⟩ := @same sp ⟨sp.vm, sp.regions, none⟩ h (by simp [regions]) rfl
    exact ⟨hsound, hfilled, fun d hd => nomatch hd⟩

end Kept

/-- **A request without room** puts a region at address zero. -/
theorem not_sound {req : Request} (hroom : ¬ sp.Room req) (hs : sp.step req = some sp') : ¬ Sound sp' := by
  intro hsound
  cases req with
  | object size pos block =>
    obtain ⟨vm, live, _ | d⟩ := sp
    case some => cases hs
    set r := Vm.valloc { vm with virtop := evened vm.virtop } size with hr
    obtain rfl : (⟨r.1, live ++ [Region.object r.2 size], none⟩ : Space) = sp' := Option.some.inj hs
    have hzero := @Vm.valloc_zero _ { vm with virtop := evened vm.virtop } size hroom pos block
    rw [← hr] at hzero
    refine hsound.placed ⟨0, r.2.toNat, size.toNat⟩ ?_ (congrArg BitVec.toNat hzero)
    simp [places, regions, Region.places]
  | char =>
    obtain ⟨vm, live, _ | d⟩ := sp
    case none => cases hs
    set r := Vm.valloc vm 1 with hr
    obtain rfl : (⟨r.1, live, some { d with chars := d.chars ++ [r.2] }⟩ : Space) = sp' :=
      Option.some.inj hs
    have hzero : r.2 = 0 := Vm.valloc_zero hroom (by decide) (by decide)
    refine hsound.placed ⟨0, r.2.toNat, 1⟩ ?_ (congrArg BitVec.toNat hzero)
    simp [places, regions, Region.places]
  | _ => exact hroom trivial

/-- What the requests keep, each with room. -/
theorem Kept.run {reqs : List Request} (h : Kept sp) (hs : run reqs sp = some sp')
    (hroom : ∀ done req, done ++ [req] <+: reqs → ∀ u, run done sp = some u → u.Room req) : Kept sp' := by
  refine foldlM_induction (I := fun _ u => Kept u) hs h fun done req rest u u' hreqs hu hkept hstep => ?_
  refine hkept.step (hroom done req ?_ u hu) hstep
  exact ⟨rest, by rw [hreqs, List.append_assoc, List.singleton_append]⟩

end Space

/-- **The regions of a run are where they should be, after every request, if and only if every request gets
space of its own.** -/
theorem regions_kept (file : ℕ → Byte) (reqs : List Request) (sp : Space)
    (hrun : Space.run reqs (.initial file) = some sp) :
    (∀ done, done <+: reqs → ∀ u, Space.run done (.initial file) = some u → Sound u) ↔
      ∀ done req, done ++ [req] <+: reqs → ∀ u, Space.run done (.initial file) = some u → u.Room req := by
  constructor
  · intro hsound done req hpre u hu
    by_contra hroom
    obtain ⟨rest, rfl⟩ := hpre
    obtain ⟨u', hu', -⟩ := of_foldlM_append hrun
    obtain ⟨w, hw, hstep⟩ := of_foldlM_append hu'
    obtain rfl : w = u := Option.some.inj (hw.symm.trans hu)
    obtain ⟨v, hv, hnil⟩ := of_foldlM_cons hstep
    obtain rfl : v = u' := Option.some.inj hnil
    exact Space.not_sound hroom hv (hsound _ ⟨rest, rfl⟩ v hu')
  · intro hroom done hpre u hu
    refine ((Space.Kept.initial file).run hu fun first req hfirst => ?_).sound
    exact hroom first req (hfirst.trans hpre)

/-- A symbol, a macro of a character, and a repeat of one. -/
theorem regions_kept_few :
    (∀ done, done <+: [.symbol, .admac, .char, .char, .close, .adrept, .char, .char, .close] → ∀ u,
      Space.run done (.initial fun _ => 0) = some u → Sound u) ↔
    ∀ done req, done ++ [req] <+: [.symbol, .admac, .char, .char, .close, .adrept, .char, .char, .close] →
      ∀ u, Space.run done (.initial fun _ => 0) = some u → u.Room req :=
  regions_kept _ _ _ rfl

/-! ## 4. A space of symbols -/

/-- The top after one more symbol. -/
def nextTop (virtop : BitVec 16) : BitVec 16 :=
  let virtop := evened virtop
  let blklim := (virtop ||| 511) + 1
  (if virtop + SYTABSIZ > blklim then blklim else virtop) + SYTABSIZ

theorem nextTop_eq {n : ℕ} (vm : Vm n) :
    (Vm.valloc { vm with virtop := evened vm.virtop } SYTABSIZ).1.virtop = nextTop vm.virtop := by
  unfold Vm.valloc nextTop
  dsimp only
  split <;> rfl

/-- The top when the symbols of `k` blocks are there. -/
def blockTop (k : ℕ) : BitVec 16 :=
  if k = 0 then 2 else if k = 1 then 502 else BitVec.ofNat 16 (512 * k - 12)

theorem nextTop_block : ∀ k < 127, nextTop^[25] (blockTop k) = blockTop (k + 1) := by decide +kernel

theorem nextTop_blocks {k : ℕ} (hk : k ≤ 127) : nextTop^[25 * k] 2 = blockTop k := by
  induction k with
  | zero => rfl
  | succ k ih =>
    rw [Nat.mul_succ, Nat.add_comm, Function.iterate_add_apply, ih (Nat.le_of_succ_le hk),
      nextTop_block k hk]

/-- One symbol is alone in the last block. -/
theorem nextTop_full : nextTop^[3176] 2 = 0xFE14 := by
  rw [(by decide : 3176 = 1 + 25 * 127), Function.iterate_add_apply, nextTop_blocks le_rfl]
  decide

theorem fitsAt_block : ∀ b < 127, ∀ r < 25, FitsAt (evened (nextTop^[r] (blockTop b))) SYTABSIZ := by
  decide +kernel

/-- **There is room for 3176 symbols.** -/
theorem fitsAt_nextTop {k : ℕ} (hk : k < 3176) : FitsAt (evened (nextTop^[k] 2)) SYTABSIZ := by
  have hsplit : k = k % 25 + 25 * (k / 25) := (Nat.mod_add_div k 25).symm
  rw [hsplit, Function.iterate_add_apply, nextTop_blocks (by omega)]
  by_cases hlast : k / 25 = 127
  · have hzero : k % 25 = 0 := by omega
    rw [hlast, hzero]
    decide
  · exact fitsAt_block _ (by omega) _ (Nat.mod_lt _ (by decide))

theorem not_fitsAt_full : ¬ FitsAt (evened (nextTop^[3176] 2)) SYTABSIZ := by
  rw [nextTop_full]
  decide

theorem Space.run_symbols {sp : Space} (h : sp.defining = none) (n : ℕ) :
    ∃ u, run (List.replicate n .symbol) sp = some u ∧ u.defining = none ∧
      u.vm.virtop = nextTop^[n] sp.vm.virtop := by
  induction n generalizing sp with
  | zero => exact ⟨sp, rfl, h, rfl⟩
  | succ n ih =>
    obtain ⟨vm, live, defining⟩ := sp
    obtain rfl : defining = none := h
    set r := Vm.valloc { vm with virtop := evened vm.virtop } SYTABSIZ with hr
    obtain ⟨u, hu, hdef, htop⟩ := @ih ⟨r.1, live ++ [.object r.2 SYTABSIZ], none⟩ rfl
    refine ⟨u, ?_, hdef, ?_⟩
    · unfold run at hu ⊢
      rw [List.replicate_succ, List.foldlM_cons]
      exact hu
    · rw [htop, Function.iterate_succ_apply]
      dsimp only
      rw [hr, nextTop_eq]

/-- 3177 symbols: the last one is at address zero. -/
theorem symbols_reuse : ∃ u, Space.run (List.replicate 3177 .symbol) (.initial fun _ => 0) = some u ∧
    ¬ Sound u := by
  obtain ⟨u, hu, hdef, htop⟩ := @Space.run_symbols (.initial fun _ => 0) rfl 3176
  obtain ⟨u', hu', -⟩ := @Space.run_symbols u hdef 1
  have hstep : u.step .symbol = some u' := by
    obtain ⟨v, hv, hnil⟩ := of_foldlM_cons hu'
    obtain rfl : v = u' := Option.some.inj hnil
    exact hv
  refine ⟨u', ?_, Space.not_sound ?_ hstep⟩
  · unfold Space.run at hu hu' ⊢
    rw [(by decide : 3177 = 3176 + 1), List.replicate_add, List.foldlM_append, hu]
    exact hu'
  · unfold Request.symbol Space.Room
    dsimp only
    rw [htop]
    exact not_fitsAt_full

end Cpm8000.Asm
