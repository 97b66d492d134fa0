/-
# Where the loader puts a program

A `Plan` says where each byte of the text, the data and the BSS of a segment list goes: how many
bytes of each part there are, where the `k`-th of them is placed in its space, and where it stands
in the file. It is computed from the headers alone. `load_segs_tracks` shows that the loader's loop
stores exactly the bytes of the plan.

With the plan the placement of a program is arithmetic: `pgmld_placed_iff` says when the loader
keeps every byte in its own segment and the parts of the program apart.
-/
import Cpm8000.Host.Loader

namespace Cpm8000.Host

open Cpm8000.Sys

/-! ## 1. The plan of a segment list -/

/-- What a segment of a type is loaded as. -/
def Part.of (type : Byte) : Option Part :=
  if type = 3 ∨ type = 6 ∨ type = 7 then some .text
  else if type = 4 ∨ type = 5 then some .data
  else if type = 1 then some .bss
  else none

/-- A part is loaded into the data space of a program that has one. -/
def Part.space (split : Bool) : Part → Bool
  | .text => false
  | .data => split
  | .bss => split

structure Plan where
  size : Part → ℕ
  off : Bool → ℕ
  file : ℕ
  stack : ℕ
  loc : Part → ℕ → ℕ
  src : Part → ℕ → ℕ

namespace Plan

def empty : Plan := ⟨fun _ => 0, fun _ => 0, 0, 0, fun _ _ => 0, fun _ _ => 0⟩

/-- The plan with `slen` more bytes of a part. -/
def addPart (split : Bool) (P : Plan) (p : Part) (slen : ℕ) : Plan where
  size := Function.update P.size p (P.size p + slen)
  off := Function.update P.off (p.space split) (P.off (p.space split) + slen)
  file := if p = .bss then P.file else P.file + slen
  stack := P.stack
  loc := Function.update P.loc p fun k =>
    if k < P.size p then P.loc p k else P.off (p.space split) + (k - P.size p)
  src := Function.update P.src p fun k =>
    if k < P.size p then P.src p k else P.file + (k - P.size p)

def add (split : Bool) (P : Plan) (seg : XSeg) : Plan :=
  match Part.of seg.type with
  | some p => P.addPart split p seg.length.toNat
  | none => if seg.type = 2 then { P with stack := P.stack + seg.length.toNat } else P

/-- Every byte below a space's offset is one byte of one part. -/
structure Ok (split : Bool) (P : Plan) : Prop where
  lt : ∀ p k, k < P.size p → P.loc p k < P.off (p.space split)
  inj : ∀ p k q l, k < P.size p → l < P.size q → p.space split = q.space split →
    P.loc p k = P.loc q l → p = q ∧ k = l
  surj : ∀ sp o, o < P.off sp → ∃ p k, k < P.size p ∧ p.space split = sp ∧ P.loc p k = o

variable {split : Bool} {P : Plan} {p q : Part} {slen k : ℕ}

theorem ok_empty : Ok split empty where
  lt _ _ h := absurd h (Nat.not_lt_zero _)
  inj _ _ _ _ h := absurd h (Nat.not_lt_zero _)
  surj _ _ h := absurd h (Nat.not_lt_zero _)

@[simp] theorem addPart_size_self : (P.addPart split p slen).size p = P.size p + slen :=
  Function.update_self ..

theorem addPart_size_of_ne (h : q ≠ p) : (P.addPart split p slen).size q = P.size q :=
  Function.update_of_ne h ..

@[simp] theorem addPart_off_self :
    (P.addPart split p slen).off (p.space split) = P.off (p.space split) + slen :=
  Function.update_self ..

theorem addPart_off_of_ne {sp : Bool} (h : sp ≠ p.space split) :
    (P.addPart split p slen).off sp = P.off sp := Function.update_of_ne h ..

theorem le_addPart_off (sp : Bool) : P.off sp ≤ (P.addPart split p slen).off sp := by
  by_cases h : sp = p.space split
  · rw [h, addPart_off_self]
    exact Nat.le_add_right _ _
  · rw [addPart_off_of_ne h]

theorem addPart_loc_self : (P.addPart split p slen).loc p k =
    if k < P.size p then P.loc p k else P.off (p.space split) + (k - P.size p) := by
  simp only [addPart, Function.update_self]

theorem addPart_src_self : (P.addPart split p slen).src p k =
    if k < P.size p then P.src p k else P.file + (k - P.size p) := by
  simp only [addPart, Function.update_self]

/-- The bytes a plan had are where they were. -/
theorem addPart_loc_old (h : k < P.size q) : (P.addPart split p slen).loc q k = P.loc q k := by
  by_cases hq : q = p
  · rw [hq] at h ⊢
    rw [addPart_loc_self, if_pos h]
  · exact congrFun (Function.update_of_ne hq ..) k

/-- The new bytes are above the space's offset. -/
theorem addPart_loc_new (j : ℕ) :
    (P.addPart split p slen).loc p (P.size p + j) = P.off (p.space split) + j := by
  rw [addPart_loc_self, if_neg (by omega), Nat.add_sub_cancel_left]

theorem addPart_src_old (h : k < P.size q) : (P.addPart split p slen).src q k = P.src q k := by
  by_cases hq : q = p
  · rw [hq] at h ⊢
    rw [addPart_src_self, if_pos h]
  · exact congrFun (Function.update_of_ne hq ..) k

theorem addPart_src_new (j : ℕ) :
    (P.addPart split p slen).src p (P.size p + j) = P.file + j := by
  rw [addPart_src_self, if_neg (by omega), Nat.add_sub_cancel_left]

/-- A byte of the longer plan is an old one or a new one. -/
theorem addPart_cases (h : k < (P.addPart split p slen).size q) :
    k < P.size q ∨ q = p ∧ ∃ j < slen, k = P.size p + j := by
  by_cases hq : q = p
  · rw [hq, addPart_size_self] at h
    rcases Nat.lt_or_ge k (P.size p) with hk | hk
    · exact .inl (hq ▸ hk)
    · exact .inr ⟨hq, k - P.size p, by omega, by omega⟩
  · rw [addPart_size_of_ne hq] at h
    exact .inl h

theorem le_addPart_size (q : Part) : P.size q ≤ (P.addPart split p slen).size q := by
  by_cases h : q = p
  · rw [h, addPart_size_self]
    exact Nat.le_add_right _ _
  · rw [addPart_size_of_ne h]

theorem Ok.addPart (h : P.Ok split) (p : Part) (slen : ℕ) : (P.addPart split p slen).Ok split where
  lt q k hk := by
    rcases addPart_cases hk with hk | ⟨rfl, j, hj, rfl⟩
    · rw [addPart_loc_old hk]
      exact (h.lt q k hk).trans_le (le_addPart_off _)
    · rw [addPart_loc_new, addPart_off_self]
      exact Nat.add_lt_add_left hj _
  inj q k r l hk hl hsp hloc := by
    rcases addPart_cases hk with hk' | ⟨rfl, j, hj, rfl⟩ <;>
      rcases addPart_cases hl with hl' | ⟨rfl, i, hi, rfl⟩
    · rw [addPart_loc_old hk', addPart_loc_old hl'] at hloc
      exact h.inj q k r l hk' hl' hsp hloc
    · rw [addPart_loc_old hk', addPart_loc_new] at hloc
      have hlt := h.lt q k hk'
      rw [hsp] at hlt
      omega
    · rw [addPart_loc_new, addPart_loc_old hl'] at hloc
      have hlt := h.lt r l hl'
      rw [← hsp] at hlt
      omega
    · rw [addPart_loc_new, addPart_loc_new] at hloc
      exact ⟨rfl, by omega⟩
  surj sp o ho := by
    have hold : o < P.off sp → ∃ q k, k < (P.addPart split p slen).size q ∧
        q.space split = sp ∧ (P.addPart split p slen).loc q k = o := by
      intro hlt
      obtain ⟨q, k, hk, hq, hloc⟩ := h.surj sp o hlt
      exact ⟨q, k, hk.trans_le (le_addPart_size q), hq, (addPart_loc_old hk).trans hloc⟩
    by_cases hsp : sp = p.space split
    · rw [hsp, addPart_off_self] at ho
      rcases Nat.lt_or_ge o (P.off sp) with hlt | hge
      · exact hold hlt
      · rw [hsp] at hge
        refine ⟨p, P.size p + (o - P.off (p.space split)), ?_, hsp.symm, ?_⟩
        · rw [addPart_size_self]
          omega
        · rw [addPart_loc_new]
          omega
    · rw [addPart_off_of_ne hsp] at ho
      exact hold ho

theorem Ok.add (h : P.Ok split) (seg : XSeg) : (P.add split seg).Ok split := by
  unfold Plan.add
  split
  · exact h.addPart _ _
  · split_ifs
    · exact ⟨h.lt, h.inj, h.surj⟩
    · exact h

end Plan

def plan (split : Bool) (segs : List XSeg) : Plan := segs.foldl (Plan.add split) Plan.empty

/-- **Every plan places each byte once.** -/
theorem plan_ok (split : Bool) (segs : List XSeg) : (plan split segs).Ok split := by
  have hrun : ∀ P : Plan, P.Ok split → (segs.foldl (Plan.add split) P).Ok split := by
    induction segs with
    | nil => exact fun P hP => hP
    | cons seg segs ih => exact fun P hP => ih _ (hP.add seg)
  exact hrun _ Plan.ok_empty

/-! ## 2. The loop stores the plan -/

def Target.tag (t : Target) (sp : Bool) : BitVec 16 :=
  if sp then t.data_load_tag else t.code_load_tag

namespace LoadState

/-- The loop's counters, by what they count. -/
def size (s : LoadState) : Part → ℕ
  | .text => s.text_size
  | .data => s.data_size
  | .bss => s.bss_size

def loc (s : LoadState) : Part → ℕ
  | .text => s.text_loc
  | .data => s.data_loc
  | .bss => s.bss_loc

def off (s : LoadState) (sp : Bool) : ℕ := if sp then s.data_load_offset else s.code_load_offset

/-- What one round does to a segment that is loaded. -/
structure Loaded (t : Target) (code : ℕ → Byte) (s : LoadState) (p : Part) (slen : ℕ)
    (s' : LoadState) : Prop where
  size : s'.size = Function.update s.size p (s.size p + slen)
  off : s'.off = Function.update s.off (p.space t.split) (s.off (p.space t.split) + slen)
  loc : s'.loc = Function.update s.loc p
    (if s.size p = 0 then s.off (p.space t.split) else s.loc p)
  code_offset : s'.code_offset = if p = .bss then s.code_offset else s.code_offset + slen
  stk_size : s'.stk_size = s.stk_size
  stores : s'.stores = s.stores ++ seg_stores p (t.tag (p.space t.split)) t.tpa_base
    (s.off (p.space t.split)) (fun j => if p = .bss then 0 else code (s.code_offset + j)) slen

end LoadState

/-- **One round of the loop.** -/
theorem load_seg_loaded (t : Target) (code : ℕ → Byte) (s : LoadState) (seg : XSeg) {p : Part}
    (h : Part.of seg.type = some p) :
    LoadState.Loaded t code s p seg.length.toNat (load_seg t code s seg) := by
  obtain ⟨split, code_tag, data_tag, base⟩ := t
  unfold Part.of at h
  split_ifs at h with h3 h4 h1
  · obtain rfl := Option.some.inj h
    have hd : ¬ (seg.type = 4 ∨ seg.type = 5 ∨ seg.type = 1 ∨ seg.type = 2) := by
      rcases h3 with h | h | h <;> rw [h] <;> decide
    simp only [load_seg, h3, hd, and_false, if_true, if_false]
    constructor
    · funext q
      cases q <;> rfl
    · funext sp
      cases sp <;> rfl
    · funext q
      cases q <;> rfl
    all_goals rfl
  · obtain rfl := Option.some.inj h
    have hd : seg.type = 4 ∨ seg.type = 5 ∨ seg.type = 1 ∨ seg.type = 2 := by
      rcases h4 with h | h <;> rw [h] <;> decide
    cases split
    all_goals
      simp only [load_seg, h3, h4, hd, and_true, Bool.false_eq_true, if_true, if_false]
      constructor
      · funext q
        cases q <;> rfl
      · funext sp
        cases sp <;> rfl
      · funext q
        cases q <;> rfl
      all_goals rfl
  · obtain rfl := Option.some.inj h
    have hd : seg.type = 4 ∨ seg.type = 5 ∨ seg.type = 1 ∨ seg.type = 2 := .inr (.inr (.inl h1))
    have hone : (seg.type = 1) = True := eq_true h1
    cases split
    all_goals
      simp only [load_seg, h3, h4, hone, or_true, true_or, and_true, Bool.false_eq_true, if_true,
        if_false]
      constructor
      · funext q
        cases q <;> rfl
      · funext sp
        cases sp <;> rfl
      · funext q
        cases q <;> rfl
      all_goals rfl

/-- A segment that is not loaded only counts for the stack, if for anything. -/
theorem load_seg_of_none (t : Target) (code : ℕ → Byte) (s : LoadState) (seg : XSeg)
    (h : Part.of seg.type = none) : load_seg t code s seg =
      if seg.type = 2 then { s with stk_size := s.stk_size + seg.length.toNat } else s := by
  unfold Part.of at h
  split_ifs at h with h3 h4 h1
  simp only [load_seg, h3, h4, h1, if_false]

/-- The byte of the plan in the file, or the zero of the BSS. -/
def Plan.byte (P : Plan) (code : ℕ → Byte) (p : Part) (k : ℕ) : Byte :=
  if p = .bss then 0 else code (P.src p k)

def Plan.addr (P : Plan) (t : Target) (p : Part) (k : ℕ) : BitVec 32 :=
  load_addr (t.tag (p.space t.split)) t.tpa_base (P.loc p k)

/-- The store of the `k`-th byte of a part. -/
def Plan.store (P : Plan) (t : Target) (code : ℕ → Byte) (p : Part) (k : ℕ) : LoadStore :=
  ⟨p, t.tag (p.space t.split), P.addr t p k, P.byte code p k⟩

/-- The loop's variables and stores are those of the plan. -/
structure Tracks (t : Target) (code : ℕ → Byte) (s : LoadState) (P : Plan) : Prop where
  code_offset : s.code_offset = P.file
  size : s.size = P.size
  off : s.off = P.off
  stk_size : s.stk_size = DEFSTACK + P.stack
  loc : ∀ p, 0 < P.size p → s.loc p = P.loc p 0
  mem_stores : ∀ st, st ∈ s.stores ↔ ∃ p k, k < P.size p ∧ st = P.store t code p k

theorem tracks_empty (t : Target) (code : ℕ → Byte) : Tracks t code {} Plan.empty where
  code_offset := rfl
  size := by funext p; cases p <;> rfl
  off := by funext sp; cases sp <;> rfl
  stk_size := rfl
  loc _ h := absurd h (Nat.lt_irrefl 0)
  mem_stores st := by simp [Plan.empty]

theorem mem_seg_stores {part : Part} {tag base : BitVec 16} {off slen : ℕ} {byte : ℕ → Byte}
    {st : LoadStore} : st ∈ seg_stores part tag base off byte slen ↔
      ∃ j < slen, st = ⟨part, tag, load_addr tag base (off + j), byte j⟩ := by
  simp only [seg_stores, List.mem_map, List.mem_range, eq_comm]

theorem Plan.addPart_store_old {t : Target} {code : ℕ → Byte} {P : Plan} {p q : Part} {slen k : ℕ}
    (h : k < P.size q) :
    (P.addPart t.split p slen).store t code q k = P.store t code q k := by
  simp only [Plan.store, Plan.addr, Plan.byte, Plan.addPart_loc_old h, Plan.addPart_src_old h]

theorem Tracks.add {t : Target} {code : ℕ → Byte} {s : LoadState} {P : Plan}
    (h : Tracks t code s P) (seg : XSeg) :
    Tracks t code (load_seg t code s seg) (P.add t.split seg) := by
  unfold Plan.add
  split
  · rename_i p hp
    have hl := load_seg_loaded t code s seg hp
    generalize seg.length.toNat = slen at hl ⊢
    refine ⟨?_, ?_, ?_, ?_, ?_, ?_⟩
    · rw [hl.code_offset, h.code_offset]
      rfl
    · rw [hl.size, h.size]
      rfl
    · rw [hl.off, h.off]
      rfl
    · rw [hl.stk_size, h.stk_size]
      rfl
    · intro q hq
      rw [hl.loc, h.size, h.off]
      rcases Plan.addPart_cases hq with hold | ⟨rfl, j, hj, hk⟩
      · rw [Plan.addPart_loc_old hold]
        by_cases hqp : q = p
        · rw [← hqp, Function.update_self, if_neg hold.ne', h.loc q hold]
        · rw [Function.update_of_ne hqp, h.loc q hold]
      · have hz : P.size q = 0 := by omega
        have hnew : (P.addPart t.split q slen).loc q (P.size q + 0) = P.off (q.space t.split) + 0 :=
          Plan.addPart_loc_new 0
        rw [hz] at hnew
        rw [Function.update_self, if_pos hz, hnew, Nat.add_zero]
    · intro st
      rw [hl.stores, List.mem_append, h.mem_stores, mem_seg_stores, h.off, h.code_offset]
      constructor
      · rintro (⟨q, k, hk, rfl⟩ | ⟨j, hj, rfl⟩)
        · exact ⟨q, k, hk.trans_le (Plan.le_addPart_size q), (Plan.addPart_store_old hk).symm⟩
        · refine ⟨p, P.size p + j, ?_, ?_⟩
          · rw [Plan.addPart_size_self]
            exact Nat.add_lt_add_left hj _
          · simp only [Plan.store, Plan.addr, Plan.byte, Plan.addPart_loc_new, Plan.addPart_src_new]
      · rintro ⟨q, k, hk, rfl⟩
        rcases Plan.addPart_cases hk with hold | ⟨rfl, j, hj, rfl⟩
        · exact .inl ⟨q, k, hold, Plan.addPart_store_old hold⟩
        · refine .inr ⟨j, hj, ?_⟩
          simp only [Plan.store, Plan.addr, Plan.byte, Plan.addPart_loc_new, Plan.addPart_src_new]
  · rename_i hp
    rw [load_seg_of_none t code s seg hp]
    split_ifs
    · refine ⟨h.code_offset, h.size, h.off, ?_, h.loc, h.mem_stores⟩
      rw [h.stk_size, Nat.add_assoc]
    · exact h

/-- **The loader's loop stores the plan.** -/
theorem load_segs_tracks (t : Target) (code : ℕ → Byte) (segs : List XSeg) :
    Tracks t code (load_segs t code segs) (plan t.split segs) := by
  have hrun : ∀ s P, Tracks t code s P →
      Tracks t code (segs.foldl (load_seg t code) s) (segs.foldl (Plan.add t.split) P) := by
    induction segs with
    | nil => exact fun s P h => h
    | cons seg segs ih => exact fun s P h => ih _ _ (h.add seg)
  exact hrun _ _ (tracks_empty t code)

/-! ## 3. Where the bytes are -/

theorem load_addr_of_lt {tag : BitVec 16} {off : ℕ} (h : off < 65536) :
    load_addr tag 0 off = tagged tag (BitVec.ofNat 16 off) := by
  apply BitVec.eq_of_toNat_eq
  have hz : ((0 : BitVec 16)).toNat = 0 := rfl
  have hlt : off < 2 ^ 16 := h
  rw [load_addr, BitVec.toNat_or, toNat_tagged, toNat_tagged, hz, BitVec.toNat_ofNat,
    BitVec.toNat_ofNat, Nat.zero_add, Nat.add_zero, Nat.mod_eq_of_lt (by omega),
    Nat.mod_eq_of_lt hlt]
  exact (Nat.two_pow_add_eq_or_of_lt hlt tag.toNat).symm

/-- The first byte past a segment changes the tag. -/
theorem tagOf_load_addr_carry {tag : BitVec 16} (h : tag[0] = false) :
    tagOf (load_addr tag 0 65536) ≠ tag := by
  intro heq
  have hval : BitVec.ofNat 32 ((0 : BitVec 16).toNat + 65536) = tagged 1 0 := rfl
  have hone : (tagged 1 0).getLsbD (16 + 0) = true := by decide
  have hz : tag.getLsbD 0 = false := (BitVec.getLsbD_eq_getElem (by decide)).trans h
  have hbit := congrArg (fun t : BitVec 16 => t.getLsbD 0) heq
  simp only [tagOf, load_addr, hval, BitVec.getLsbD_extractLsb', BitVec.getLsbD_or, hone, hz,
    Bool.or_true] at hbit
  exact absurd hbit (by decide)

/-- What the placement needs of a target: the tags are even, the base is zero, and two tags that
differ name two pages. -/
structure Target.Sound (map : MemoryMap) (t : Target) : Prop where
  base : t.tpa_base = 0
  even : ∀ sp, (t.tag sp)[0] = false
  page : map.page false t.code_load_tag = map.page false t.data_load_tag →
    t.code_load_tag = t.data_load_tag
  merged : t.split = false → t.code_load_tag = t.data_load_tag

/-- A loader, the memory it loads into, and the regions it is offered. -/
inductive HostedLoader : LoaderAddressing → MemoryMap → List (BitVec 32) → Prop
  | z8001 (s : SegmentedMemory) : HostedLoader Z8001LoaderAddressing (.segmented s) z8001_mrt
  | z8002 (s : Z8002Memory) : HostedLoader Z8002LoaderAddressing (.z8002 s) z8002_mrt

/-- **The regions' targets are sound.** -/
theorem HostedLoader.sound {a : LoaderAddressing} {map : MemoryMap} {mrt : List (BitVec 32)}
    (h : HostedLoader a map mrt) (hmap : map.Reachable) {pgldaddr : BitVec 32} (hp : pgldaddr ∈ mrt)
    (split : Bool) : (load_target a pgldaddr split).Sound map := by
  cases h with
  | z8001 s =>
    obtain ⟨seg0, hs⟩ : ∃ seg0, s.Live seg0 := by
      rcases hmap.cases_live with ⟨s', seg0, hs', hl⟩ | ⟨s', hs'⟩
      · cases hs'
        exact ⟨seg0, hl⟩
      · cases hs'
    have hpage : ∀ tag, (MemoryMap.segmented s).page false tag = dpage seg0 (tag.setWidth 7) :=
      fun tag => hs.page false tag
    have hpg : pgldaddr = 0x000a0000 ∨ pgldaddr = 0x00080000 := by
      simp only [z8001_mrt, List.mem_cons, List.not_mem_nil, or_false] at hp
      tauto
    refine ⟨?_, ?_, ?_, ?_⟩
    · rcases hpg with rfl | rfl <;> rfl
    · intro sp
      rcases hpg with rfl | rfl <;> cases split <;> cases sp <;> decide
    · rw [hpage, hpage]
      rcases hpg with rfl | rfl <;> cases split <;> cases seg0 <;> decide
    · rintro rfl
      rcases hpg with rfl | rfl <;> rfl
  | z8002 s =>
    have hpg : pgldaddr = 0x01000000 ∨ pgldaddr = 0x02000000 := by
      simp only [z8002_mrt, List.mem_cons, List.not_mem_nil, or_false] at hp
      tauto
    refine ⟨?_, ?_, ?_, ?_⟩
    · rcases hpg with rfl | rfl <;> rfl
    · intro sp
      rcases hpg with rfl | rfl <;> cases split <;> cases sp <;> decide
    · rw [page_z8002, page_z8002]
      rcases hpg with rfl | rfl <;> cases split <;> decide
    · rintro rfl
      rcases hpg with rfl | rfl <;> rfl

/-! ## 4. Safe placement -/

/-- The bytes the loader writes for the basepage. -/
def basepage_cells (map : MemoryMap) (r : Results) : List Phys := (basepage_stores map r).map Prod.fst

/-- **Safe placement**: every byte is in the segment of its own tag, and no byte of one of the
text, the data, the BSS and the basepage is a byte of another. -/
structure Placed (map : MemoryMap) (t : Target) (s : LoadState) (r : Results) : Prop where
  region : ∀ st ∈ s.stores, tagOf st.addr = st.target_tag
  bp_region : ∀ i < BPLEN, tagOf (r.bp_addr + BitVec.ofNat 32 i) = t.data_load_tag
  disjoint : ∀ st ∈ s.stores, ∀ st' ∈ s.stores, st.part ≠ st'.part →
    map.tagged_physical st.addr false ≠ map.tagged_physical st'.addr false
  bp_page : ∀ c ∈ basepage_cells map r, c.toNat / SEGLEN = map.page false t.data_load_tag
  bp_disjoint : ∀ st ∈ s.stores, map.tagged_physical st.addr false ∉ basepage_cells map r

/-- The even offset at or below the basepage's: `write_word` keeps to even addresses. -/
def Plan.top (P : Plan) : ℕ := SEGLEN - (P.stack + DEFSTACK + BPLEN) - P.stack % 2

/-- What safe placement asks of a program's segment lengths: room for the stack and the basepage,
with the program below; and for a split program a code space of one segment, that is not the data
space unless one of the two is empty. -/
def Fits (t : Target) (segs : List XSeg) : Prop :=
  let P := plan t.split segs
  P.stack + DEFSTACK + BPLEN ≤ SEGLEN ∧ P.off t.split ≤ P.top ∧
    (t.split = true → P.off false ≤ SEGLEN ∧
      (t.code_load_tag = t.data_load_tag → (P.off false = 0 ∨ P.off true = 0) ∧
        P.off false ≤ P.top))

section placement

variable {map : MemoryMap} {t : Target} {s : LoadState} {P : Plan} {code : ℕ → Byte}

theorem bp_addr_eq {segmented : Bool} {exec : BitVec 16} (hb : t.tpa_base = 0) :
    (load_results t segmented exec s).bp_addr =
      tagged t.data_load_tag 0 + BitVec.ofNat 32 0xff00 - BitVec.ofNat 32 s.stk_size := by
  rw [← hb]
  rfl

theorem toNat_bp_addr {segmented : Bool} {exec : BitVec 16} (hb : t.tpa_base = 0)
    (hle : s.stk_size ≤ 0x200000) : (load_results t segmented exec s).bp_addr.toNat =
      (0x100000000 + 65536 * t.data_load_tag.toNat + 0xff00 - s.stk_size) % 0x100000000 := by
  have htag := t.data_load_tag.isLt
  have hz : ((0 : BitVec 16)).toNat = 0 := rfl
  rw [bp_addr_eq hb, BitVec.toNat_sub, BitVec.toNat_add, toNat_tagged, hz, BitVec.toNat_ofNat,
    BitVec.toNat_ofNat]
  omega

/-- The basepage of a program whose stack leaves room for it. -/
theorem bp_addr_add {segmented : Bool} {exec : BitVec 16} (hb : t.tpa_base = 0)
    (hstk : s.stk_size + BPLEN ≤ SEGLEN) {i : ℕ} (hi : i < BPLEN) :
    (load_results t segmented exec s).bp_addr + BitVec.ofNat 32 i =
      tagged t.data_load_tag (BitVec.ofNat 16 (SEGLEN - BPLEN - s.stk_size + i)) := by
  have htag := t.data_load_tag.isLt
  rw [SEGLEN, BPLEN] at *
  apply BitVec.eq_of_toNat_eq
  rw [BitVec.toNat_add, toNat_bp_addr hb (by omega), toNat_tagged, BitVec.toNat_ofNat,
    BitVec.toNat_ofNat]
  omega

/-- The basepage of a program whose stack does not. -/
theorem tagOf_bp_addr {segmented : Bool} {exec : BitVec 16} (hb : t.tpa_base = 0)
    (hstk : SEGLEN < s.stk_size + BPLEN) (hle : s.stk_size ≤ 0x200000) :
    tagOf ((load_results t segmented exec s).bp_addr + BitVec.ofNat 32 0) ≠ t.data_load_tag := by
  have htag := t.data_load_tag.isLt
  rw [SEGLEN, BPLEN] at hstk
  intro h
  have hnat := congrArg BitVec.toNat h
  rw [toNat_tagOf, BitVec.toNat_add, toNat_bp_addr hb hle, BitVec.toNat_ofNat] at hnat
  omega

/-- The space the basepage is in. -/
theorem Target.Sound.tag_split (hS : t.Sound map) : t.tag t.split = t.data_load_tag := by
  cases hs : t.split with
  | false => exact hS.merged hs
  | true => rfl

/-- A part that is not in the basepage's space is in the code space of a split program. -/
theorem space_of_ne {p : Part} {split : Bool} (h : p.space split ≠ split) :
    split = true ∧ p.space split = false := by
  cases p <;> cases split <;> simp_all [Part.space]

theorem Plan.addr_of_lt (hS : t.Sound map) {p : Part} {k : ℕ} (h : P.loc p k < 65536) :
    P.addr t p k = tagged (t.tag (p.space t.split)) (BitVec.ofNat 16 (P.loc p k)) := by
  rw [Plan.addr, hS.base, load_addr_of_lt h]

variable (hmap : map.Reachable) (hS : t.Sound map) (hP : P.Ok t.split) (hT : Tracks t code s P)

include hP in
/-- The offsets of a program that is below the basepage, with a code space of one segment. -/
theorem loc_lt_of_top (htop : P.off t.split ≤ P.top)
    (hcode : t.split = true → P.off false ≤ SEGLEN) {p : Part} {k : ℕ} (hk : k < P.size p) :
    P.loc p k < SEGLEN ∧ (p.space t.split = t.split → P.loc p k < P.top) := by
  have hlt := hP.lt p k hk
  have hle : P.top ≤ SEGLEN := (Nat.sub_le _ _).trans (Nat.sub_le _ _)
  by_cases hsp : p.space t.split = t.split
  · rw [hsp] at hlt
    exact ⟨by omega, fun _ => by omega⟩
  · obtain ⟨hsplit, hspace⟩ := space_of_ne hsp
    rw [hspace] at hlt
    exact ⟨hlt.trans_le (hcode hsplit), fun h => absurd h hsp⟩

theorem split_of_space {p : Part} {split : Bool} (h : p.space split = true) : split = true := by
  cases p with
  | text => cases h
  | data => exact h
  | bss => exact h

include hS hP in
/-- Where spaces of one page are empty but one, two bytes of one page are of one space. -/
theorem space_eq_of_page (hempty : t.split = true → t.code_load_tag = t.data_load_tag →
      P.off false = 0 ∨ P.off true = 0) {p q : Part} {k l : ℕ} (hk : k < P.size p)
    (hl : l < P.size q)
    (hpage : map.page false (t.tag (p.space t.split)) = map.page false (t.tag (q.space t.split))) :
    p.space t.split = q.space t.split := by
  have hp := hP.lt p k hk
  have hq := hP.lt q l hl
  generalize hsp : p.space t.split = a at hp hpage ⊢
  generalize hsq : q.space t.split = b at hq hpage ⊢
  cases a <;> cases b
  · rfl
  · rcases hempty (split_of_space hsq) (hS.page hpage) with h | h <;> omega
  · rcases hempty (split_of_space hsp) (hS.page hpage.symm) with h | h <;> omega
  · rfl

include hS hP in
/-- **Where a program fits, no two of its bytes are in one place.** -/
theorem addr_inj (hmap : map.Reachable) (htop : P.off t.split ≤ P.top)
    (hsplit : t.split = true → P.off false ≤ SEGLEN ∧
      (t.code_load_tag = t.data_load_tag → (P.off false = 0 ∨ P.off true = 0) ∧
        P.off false ≤ P.top)) {p q : Part} {k l : ℕ} (hk : k < P.size p) (hl : l < P.size q)
    (heq : map.tagged_physical (P.addr t p k) false = map.tagged_physical (P.addr t q l) false) :
    p = q ∧ k = l := by
  have hpk := (loc_lt_of_top hP htop (fun h => (hsplit h).1) hk).1
  have hql := (loc_lt_of_top hP htop (fun h => (hsplit h).1) hl).1
  rw [Plan.addr_of_lt hS hpk, Plan.addr_of_lt hS hql] at heq
  obtain ⟨hpage, hoff⟩ := hmap.tagged_ofNat_inj hpk hql heq
  exact hP.inj p k q l hk hl
    (space_eq_of_page hS hP (fun hs htags => ((hsplit hs).2 htags).1) hk hl hpage) hoff

theorem mem_word_stores {addr : BitVec 32} {val : BitVec 16} {c : Phys}
    (h : c ∈ (word_stores map addr val).map Prod.fst) :
    c.toNat / 2 = (map.tagged_physical addr false).toNat / 2 := by
  have heven := toNat_even (map.tagged_physical addr false)
  have hone : ((1 : Phys)).toNat = 1 := rfl
  simp only [word_stores, List.map_cons, List.map_nil, List.mem_cons, List.not_mem_nil, or_false]
    at h
  rcases h with rfl | rfl
  · rw [heven]
    omega
  · have hlt := (map.tagged_physical addr false).isLt
    rw [BitVec.toNat_add, heven, hone]
    omega

/-- The physical byte of a byte or a word of the basepage. -/
theorem toNat_bp_cell (hmap : map.Reachable) {segmented : Bool} {exec : BitVec 16}
    (hb : t.tpa_base = 0) (hstk : s.stk_size + BPLEN ≤ SEGLEN) {i : ℕ} (hi : i < BPLEN) :
    (map.tagged_physical ((load_results t segmented exec s).bp_addr + BitVec.ofNat 32 i)
        false).toNat =
      SEGLEN * map.page false t.data_load_tag + (SEGLEN - BPLEN - s.stk_size + i) := by
  have hlt : SEGLEN - BPLEN - s.stk_size + i < 2 ^ 16 := by
    rw [SEGLEN, BPLEN] at *
    omega
  rw [bp_addr_add hb hstk hi, hmap.toNat_tagged, BitVec.toNat_ofNat, Nat.mod_eq_of_lt hlt, SEGLEN]

include hT in
theorem top_eq : P.top = SEGLEN - BPLEN - s.stk_size - s.stk_size % 2 := by
  rw [Plan.top, hT.stk_size]
  simp only [SEGLEN, BPLEN, DEFSTACK]
  omega

include hmap hS hT in
/-- The basepage's bytes, where the stack leaves room. -/
theorem mem_basepage_cells {segmented : Bool} {exec : BitVec 16}
    (hstk : s.stk_size + BPLEN ≤ SEGLEN) {c : Phys}
    (h : c ∈ basepage_cells map (load_results t segmented exec s)) :
    c.toNat / SEGLEN = map.page false t.data_load_tag ∧ P.top ≤ c.toNat % SEGLEN := by
  have htop := top_eq hT
  have hbyte : ∀ i < BPLEN, c.toNat / 2 = (map.tagged_physical
      ((load_results t segmented exec s).bp_addr + BitVec.ofNat 32 i) false).toNat / 2 →
      c.toNat / SEGLEN = map.page false t.data_load_tag ∧ P.top ≤ c.toNat % SEGLEN := by
    intro i hi hc
    rw [toNat_bp_cell hmap hS.base hstk hi] at hc
    rw [htop]
    simp only [SEGLEN, BPLEN] at *
    omega
  have hlong : ∀ i, i + 2 < BPLEN → ∀ v,
      c ∈ (long_stores map ((load_results t segmented exec s).bp_addr + BitVec.ofNat 32 i)
        v).map Prod.fst →
      c.toNat / SEGLEN = map.page false t.data_load_tag ∧ P.top ≤ c.toNat % SEGLEN := by
    intro i hi v hc
    rw [long_stores, List.map_append, List.mem_append] at hc
    rcases hc with hc | hc
    · exact hbyte i (by omega) (mem_word_stores hc)
    · rw [BitVec.add_assoc] at hc
      have htwo : BitVec.ofNat 32 i + 2 = BitVec.ofNat 32 (i + 2) := (BitVec.ofNat_add i 2).symm
      rw [htwo] at hc
      exact hbyte (i + 2) hi (mem_word_stores hc)
  simp only [basepage_cells, basepage_stores, List.map_append, List.mem_append] at h
  rcases h with ((((((((((h | h) | h) | h) | h) | h) | h) | h) | h) | h))
  · rw [List.map_map] at h
    obtain ⟨i, hi, rfl⟩ := List.mem_map.mp h
    exact hbyte i (List.mem_range.mp hi) rfl
  · exact hlong 0 (by decide) _ h
  · exact hlong 4 (by decide) _ h
  · exact hlong 8 (by decide) _ h
  · exact hlong 12 (by decide) _ h
  · exact hlong 16 (by decide) _ h
  · exact hlong 20 (by decide) _ h
  · exact hlong 24 (by decide) _ h
  · exact hlong 28 (by decide) _ h
  · exact hlong 32 (by decide) _ h

include hmap hS hT in
/-- The first word of the basepage is at its top. -/
theorem top_mem_basepage_cells {segmented : Bool} {exec : BitVec 16}
    (hstk : s.stk_size + BPLEN ≤ SEGLEN) :
    map.tagged_physical (tagged t.data_load_tag (BitVec.ofNat 16 P.top)) false ∈
      basepage_cells map (load_results t segmented exec s) := by
  have htop := top_eq hT
  have hword : map.tagged_physical (tagged t.data_load_tag (BitVec.ofNat 16 P.top)) false =
      map.tagged_physical ((load_results t segmented exec s).bp_addr + BitVec.ofNat 32 0) false
        &&& ~~~1 := by
    have hlt : P.top < 2 ^ 16 := by
      rw [htop, SEGLEN, BPLEN]
      omega
    apply BitVec.eq_of_toNat_eq
    rw [toNat_even, toNat_bp_cell hmap hS.base hstk (by decide), hmap.toNat_tagged,
      BitVec.toNat_ofNat, Nat.mod_eq_of_lt hlt, htop, SEGLEN, BPLEN]
    omega
  rw [hword]
  simp only [basepage_cells, basepage_stores, List.map_append, List.mem_append, long_stores,
    word_stores]
  exact .inl (.inl (.inl (.inl (.inl (.inl (.inl (.inl (.inr (.inl (.head _))))))))))

include hmap hS hP hT in
/-- Programs that fit are placed safely. -/
theorem placed_of_fits {segmented : Bool} {exec : BitVec 16}
    (hroom : P.stack + DEFSTACK + BPLEN ≤ SEGLEN) (htop : P.off t.split ≤ P.top)
    (hsplit : t.split = true → P.off false ≤ SEGLEN ∧
      (t.code_load_tag = t.data_load_tag → (P.off false = 0 ∨ P.off true = 0) ∧
        P.off false ≤ P.top)) :
    Placed map t s (load_results t segmented exec s) := by
  have hstk : s.stk_size + BPLEN ≤ SEGLEN := by
    rw [hT.stk_size]
    omega
  have hloc : ∀ {p : Part} {k : ℕ}, k < P.size p → P.loc p k < SEGLEN ∧
      (p.space t.split = t.split → P.loc p k < P.top) :=
    fun hk => loc_lt_of_top hP htop (fun h => (hsplit h).1) hk
  refine ⟨?_, ?_, ?_, ?_, ?_⟩
  · intro st hst
    obtain ⟨p, k, hk, rfl⟩ := (hT.mem_stores st).mp hst
    rw [Plan.store, Plan.addr_of_lt hS (hloc hk).1, tagOf_tagged]
  · intro i hi
    rw [bp_addr_add hS.base hstk hi, tagOf_tagged]
  · intro st hst st' hst' hne heq
    obtain ⟨p, k, hk, rfl⟩ := (hT.mem_stores st).mp hst
    obtain ⟨q, l, hl, rfl⟩ := (hT.mem_stores st').mp hst'
    exact hne (addr_inj hS hP hmap htop hsplit hk hl heq).1
  · exact fun c hc => (mem_basepage_cells hmap hS hT hstk hc).1
  · intro st hst hc
    obtain ⟨p, k, hk, rfl⟩ := (hT.mem_stores st).mp hst
    obtain ⟨hpage, hle⟩ := mem_basepage_cells hmap hS hT hstk hc
    have hseg := (hloc hk).1
    have hlt16 : P.loc p k < 2 ^ 16 := hseg
    rw [Plan.store, Plan.addr_of_lt hS hseg, hmap.toNat_tagged, BitVec.toNat_ofNat,
      Nat.mod_eq_of_lt hlt16] at hpage hle
    rw [SEGLEN] at hseg hpage hle
    by_cases hsp : p.space t.split = t.split
    · have := (hloc hk).2 hsp
      omega
    · obtain ⟨hs, hspace⟩ := space_of_ne hsp
      have hlt := hP.lt p k hk
      rw [hspace] at hlt hpage
      have htags : map.page false t.code_load_tag = map.page false t.data_load_tag := by
        rw [← hpage, Target.tag, if_neg (by decide)]
        omega
      have hend := ((hsplit hs).2 (hS.page htags)).2
      omega

include hmap hS hP hT in
/-- Programs that are placed safely fit. -/
theorem fits_of_placed {segmented : Bool} {exec : BitVec 16} (hle : s.stk_size ≤ 0x200000)
    (h : Placed map t s (load_results t segmented exec s)) :
    P.stack + DEFSTACK + BPLEN ≤ SEGLEN ∧ P.off t.split ≤ P.top ∧
      (t.split = true → P.off false ≤ SEGLEN ∧
        (t.code_load_tag = t.data_load_tag → (P.off false = 0 ∨ P.off true = 0) ∧
          P.off false ≤ P.top)) := by
  have hroom : s.stk_size + BPLEN ≤ SEGLEN := by
    by_contra hlt
    exact tagOf_bp_addr hS.base (not_le.mp hlt) hle (h.bp_region 0 (by decide))
  have hstore : ∀ {sp o}, o < P.off sp → ∃ p k, k < P.size p ∧ p.space t.split = sp ∧
      P.store t code p k ∈ s.stores ∧ P.addr t p k = load_addr (t.tag sp) 0 o := by
    intro sp o ho
    obtain ⟨p, k, hk, hsp, hloc⟩ := hP.surj sp o ho
    refine ⟨p, k, hk, hsp, (hT.mem_stores _).mpr ⟨p, k, hk, rfl⟩, ?_⟩
    rw [Plan.addr, hS.base, hsp, hloc]
  -- no space with the basepage's tag reaches the top
  have htop : ∀ sp, t.tag sp = t.data_load_tag → P.off sp ≤ P.top := by
    intro sp htag
    by_contra hlt
    have hseg : P.top < 65536 := by
      have := top_eq hT
      rw [SEGLEN, BPLEN] at *
      omega
    obtain ⟨p, k, hk, hsp, hmem, haddr⟩ := hstore (not_le.mp hlt)
    refine h.bp_disjoint _ hmem ?_
    rw [Plan.store, haddr, htag, load_addr_of_lt hseg]
    exact top_mem_basepage_cells hmap hS hT hroom
  refine ⟨by have := hT.stk_size; omega, htop _ hS.tag_split, fun hs => ⟨?_, fun htags => ⟨?_, ?_⟩⟩⟩
  · by_contra hlt
    obtain ⟨p, k, hk, hsp, hmem, haddr⟩ := hstore (not_le.mp hlt)
    have hreg := h.region _ hmem
    rw [Plan.store, haddr, hsp] at hreg
    exact tagOf_load_addr_carry (hS.even false) hreg
  · by_contra hne
    rw [not_or] at hne
    obtain ⟨p, k, hk, hsp, hmem, haddr⟩ := hstore (Nat.pos_of_ne_zero hne.1)
    obtain ⟨q, l, hl, hsq, hmem', haddr'⟩ := hstore (Nat.pos_of_ne_zero hne.2)
    refine h.disjoint _ hmem _ hmem' ?_ ?_
    · rintro (heq : p = q)
      rw [← heq, hsp] at hsq
      exact absurd hsq (by decide)
    · have htag : t.tag false = t.tag true := htags
      rw [Plan.store, Plan.store, haddr, haddr', htag]
  · exact htop false htags

end placement

/-! ## 5. `bdos_pgmld` -/

theorem Plan.add_stack_le (split : Bool) (P : Plan) (seg : XSeg) :
    (P.add split seg).stack ≤ P.stack + 65535 := by
  have hlt := seg.length.isLt
  unfold Plan.add
  split
  · exact Nat.le_add_right _ _
  · split_ifs
    · exact Nat.add_le_add_left (by omega) _
    · exact Nat.le_add_right _ _

theorem plan_stack_le (split : Bool) (segs : List XSeg) :
    (plan split segs).stack ≤ 65535 * segs.length := by
  have hrun : ∀ P : Plan,
      (segs.foldl (Plan.add split) P).stack ≤ P.stack + 65535 * segs.length := by
    induction segs with
    | nil => exact fun P => Nat.le_refl _
    | cons seg segs ih =>
      intro P
      have hadd := Plan.add_stack_le split P seg
      have hrest := ih (P.add split seg)
      rw [List.foldl_cons, List.length_cons]
      omega
  exact (hrun Plan.empty).trans (Nat.le_of_eq (Nat.zero_add _))

/-- A header has at most sixteen segments. -/
theorem parse_header_ok {acc : Bool} {fbuf : List Byte} {h : XHdr}
    (hh : parse_header acc fbuf = .ok h) : h.segs.length ≤ 16 := by
  simp only [parse_header] at hh
  split at hh
  · cases hh
  · split at hh
    · cases hh
    · split at hh
      · cases hh
      · obtain rfl := Except.ok.inj hh
        rw [List.length_map, List.length_range]
        split_ifs <;> omega

theorem parse_header_error {acc : Bool} {fbuf : List Byte} {code : ℕ}
    (hh : parse_header acc fbuf = .error code) : code = 1 := by
  simp only [parse_header] at hh
  split at hh
  · exact (Except.error.inj hh).symm
  · split at hh
    · exact (Except.error.inj hh).symm
    · split at hh
      · exact (Except.error.inj hh).symm
      · cases hh

/-- A load that returns 0 had a header and passed the size check. -/
theorem pgmld_load_zero {a : LoaderAddressing} {pgldaddr lpb_addr : BitVec 32} {fbuf : List Byte}
    {m : HostedMemory} (h : (pgmld_load a pgldaddr lpb_addr fbuf m).2 = 0) :
    ∃ hdr, parse_header a.accepts_segmented_programs fbuf = .ok hdr ∧
      let t := load_target a pgldaddr hdr.split
      let s := load_segs t (fun i => fbuf.getD (hdr.code_data + i) 0) hdr.segs
      s.data_seg_used hdr.split ≤ s.data_seg_limit := by
  unfold pgmld_load at h
  split at h
  · rename_i code hcode
    rw [parse_header_error hcode] at h
    cases h
  · rename_i hdr hhdr
    refine ⟨hdr, hhdr, ?_⟩
    by_contra hlt
    simp only [not_le.mp hlt, if_true] at h
    cases h

theorem read_program_error {fs : CpmFileSystem} {fcb : BitVec 16} {code : ℕ}
    (h : (read_program fs fcb).2 = .error code) : code ≠ 0 := by
  unfold read_program at h
  split at h
  · rw [← Except.error.inj h]
    decide
  · simp only at h
    split at h
    · rw [← Except.error.inj h]
      decide
    · cases h

/-- `bdos_pgmld` returns 0 only from the load. -/
theorem bdos_pgmld_zero {fs : CpmFileSystem} {caller_tag lpb_offset : BitVec 16}
    {a : LoaderAddressing} (h : (bdos_pgmld fs caller_tag lpb_offset a).2 = 0) :
    ∃ fs' fbuf, read_program fs (offsetOf (read_long fs.m_mem (tagged caller_tag lpb_offset))) =
        (fs', .ok fbuf) ∧
      (pgmld_load a (read_long fs.m_mem (tagged caller_tag lpb_offset + 4))
        (tagged caller_tag lpb_offset) fbuf fs'.m_mem).2 = 0 := by
  unfold bdos_pgmld at h
  simp only at h
  split at h
  · rename_i fs' code hcode
    exact absurd h (read_program_error (congrArg Prod.snd hcode))
  · rename_i fs' fbuf hread
    exact ⟨fs', fbuf, hread, h⟩

/-- **Safe placement of a program**: `bdos_pgmld` on a region of the BIOS, when it returns 0, has
placed the program safely if and only if its segment lengths fit. -/
theorem bdos_pgmld_placed_iff {fs : CpmFileSystem} {a : LoaderAddressing} {mrt : List (BitVec 32)}
    (hl : HostedLoader a fs.m_mem.map mrt) (hmap : fs.m_mem.map.Reachable)
    (caller_tag lpb_offset : BitVec 16)
    (hmrt : read_long fs.m_mem (tagged caller_tag lpb_offset + 4) ∈ mrt)
    (hret : (bdos_pgmld fs caller_tag lpb_offset a).2 = 0) :
    ∃ fs' fbuf h,
      read_program fs (offsetOf (read_long fs.m_mem (tagged caller_tag lpb_offset))) =
        (fs', .ok fbuf) ∧
      parse_header a.accepts_segmented_programs fbuf = .ok h ∧
      let pgldaddr := read_long fs.m_mem (tagged caller_tag lpb_offset + 4)
      let t := load_target a pgldaddr h.split
      let s := load_segs t (fun i => fbuf.getD (h.code_data + i) 0) h.segs
      (Placed fs.m_mem.map t s
          (load_results t h.segmented (load_exec_tag a pgldaddr h.split) s) ↔ Fits t h.segs) := by
  obtain ⟨fs', fbuf, hread, hload⟩ := bdos_pgmld_zero hret
  obtain ⟨h, hhdr, -⟩ := pgmld_load_zero hload
  refine ⟨fs', fbuf, h, hread, hhdr, ?_⟩
  intro pgldaddr t s
  have hS : t.Sound fs.m_mem.map := hl.sound hmap hmrt h.split
  have hT : Tracks t _ s (plan t.split h.segs) := load_segs_tracks t _ h.segs
  have hP : (plan t.split h.segs).Ok t.split := plan_ok t.split h.segs
  have hstk : s.stk_size ≤ 0x200000 := by
    have hle := plan_stack_le t.split h.segs
    have hlen := parse_header_ok hhdr
    rw [hT.stk_size, DEFSTACK]
    omega
  exact ⟨fun hp => fits_of_placed hmap hS hP hT hstk hp,
    fun hf => placed_of_fits hmap hS hP hT hf.1 hf.2.1 hf.2.2⟩

/-- A Z8002 machine with one host file, an FCB that names it and an LPB at offset 100 of bank 0. -/
def pgmld_fs (fbuf : List Byte) : CpmFileSystem where
  m_mem := ⟨.z8002 Z8002Memory.initial, fun p =>
    if 0x100 ≤ p.toNat then (be32 0x00000116 ++ be32 0x01000000 ++ be32 0x00010000 ++
      List.replicate 10 0 ++ 0 :: 0x41 :: List.replicate 10 0x20).getD (p.toNat - 0x100) 0 else 0⟩
  m_drive_paths _ := [0x41]
  m_current_drive := 0
  m_user := 0
  m_dma_addr := 0x01000080
  m_caller_tag := 0
  m_files _ := ⟨⟨0, false, 0, []⟩, 0, 0, false, []⟩
  m_search := ⟨none, [], 0, [], false, 0⟩
  host := ⟨[⟨[0x41, 0x2f, 0x41], 0, false, false⟩], fun _ => fbuf, 1, false, true, fun _ => true⟩

/-- A combined program of one stack segment. -/
def stackProgram (hi lo : Byte) : List Byte :=
  [0xee, 0x02, 0, 1, 0, 0, 0, 0, 0, 0, 0, 0, 0, 0, 0, 0, 0, 2, hi, lo]

/-- The largest stack. -/
theorem bdos_pgmld_placed_iff_stack :
    ∃ fs' fbuf h, read_program (pgmld_fs (stackProgram 0xfe 0x00)) (offsetOf (read_long
          (pgmld_fs (stackProgram 0xfe 0x00)).m_mem (tagged 0 0x100))) = (fs', .ok fbuf) ∧
      parse_header false fbuf = .ok h ∧
      let pgldaddr := read_long (pgmld_fs (stackProgram 0xfe 0x00)).m_mem (tagged 0 0x100 + 4)
      let t := load_target Z8002LoaderAddressing pgldaddr h.split
      let s := load_segs t (fun i => fbuf.getD (h.code_data + i) 0) h.segs
      (Placed (.z8002 Z8002Memory.initial) t s (load_results t h.segmented
          (load_exec_tag Z8002LoaderAddressing pgldaddr h.split) s) ↔ Fits t h.segs) :=
  @bdos_pgmld_placed_iff (pgmld_fs (stackProgram 0xfe 0x00)) _ _ (.z8002 _) .z8002 0 0x100
    (by decide +kernel) (by decide +kernel)

/-- **A stack segment of FF01 bytes** is accepted, and puts the basepage into the bank below. -/
theorem stackProgram_not_placed :
    (bdos_pgmld (pgmld_fs (stackProgram 0xff 0x01)) 0 0x100 Z8002LoaderAddressing).2 = 0 ∧
      parse_header false (stackProgram 0xff 0x01) = .ok ⟨false, false, [⟨0, 2, 0xff01⟩], 20⟩ ∧
      let t := load_target Z8002LoaderAddressing 0x01000000 false
      let s := load_segs t (fun i => (stackProgram 0xff 0x01).getD (20 + i) 0) [⟨0, 2, 0xff01⟩]
      ¬ Placed (.z8002 Z8002Memory.initial) t s (load_results t false
          (load_exec_tag Z8002LoaderAddressing 0x01000000 false) s) := by
  refine ⟨by decide +kernel, rfl, ?_⟩
  intro t s h
  have htag := h.bp_region 0 (by decide)
  revert htag
  decide

end Cpm8000.Host
