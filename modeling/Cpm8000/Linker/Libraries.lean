/-
# The modules of both passes

There is a zero behind the positions of a library only if the first pass has gone through it to its end:
else the second pass goes on with the positions of the next library. `same_modules_iff` says when both
load the same modules.
-/
import Cpm8000.Linker.Postab

namespace Cpm8000.Linker

open Sys

namespace Ld

variable {cc : Compiler} {s t u : Ld} {n m fpos pos : ℕ} {e : Entry} {log : List (ℕ × Entry)}

/-! ## 1. What is read there -/

/-- The positions from the first one on, up to a zero. -/
def reach : List (ℕ × Entry) → List ℕ
  | [] => []
  | x :: log => if x.2.found = [] then reach log else x.2.found ++ if x.2.all then [] else reach log

/-- The positions of other libraries that are read behind those of a file. -/
def beyond (e : Entry) (log : List (ℕ × Entry)) : List ℕ :=
  if e.found = [] ∨ e.all then [] else reach log

theorem p2positions_append {tab : ℕ → ℕ} {l : List ℕ} {i : ℕ}
    (h : ∀ k (hk : k < l.length), tab (i + k) = l[k] ∧ l[k] ≠ 0) (fuel : ℕ) :
    p2positions tab (l.length + fuel) i = (p2positions tab fuel (i + l.length)).map (l ++ ·) := by
  induction l generalizing i with
  | nil => simp
  | cons pos l ih =>
    have hhead := h 0 (Nat.zero_lt_succ _)
    rw [Nat.add_zero, List.getElem_cons_zero] at hhead
    have htail : ∀ k (hk : k < l.length), tab (i + 1 + k) = l[k] ∧ l[k] ≠ 0 := by
      intro k hk
      have hat := h (k + 1) (Nat.succ_lt_succ hk)
      rw [List.getElem_cons_succ] at hat
      rw [Nat.add_assoc, Nat.add_comm 1 k]
      exact hat
    have hne : tab i ≠ 0 := hhead.1 ▸ hhead.2
    have hidx : i + 1 + l.length = i + (l.length + 1) := by omega
    rw [List.length_cons, Nat.add_right_comm, p2positions, if_neg hne, ih htail, hidx, hhead.1, Option.map_map]
    rfl

theorem p2positions_zero {tab : ℕ → ℕ} {i : ℕ} (h : tab i = 0) (fuel : ℕ) :
    p2positions tab (fuel + 1) i = some [] := if_pos h

/-- Some positions that are laid out, and the zero behind them. -/
theorem p2positions_eq {tab : ℕ → ℕ} {l : List ℕ} {i fuel : ℕ} (hfuel : l.length < fuel)
    (h : ∀ k (hk : k < l.length), tab (i + k) = l[k] ∧ l[k] ≠ 0) (hend : tab (i + l.length) = 0) :
    p2positions tab fuel i = some l := by
  obtain ⟨rest, rfl⟩ : ∃ rest, fuel = l.length + (rest + 1) := ⟨fuel - l.length - 1, by omega⟩
  rw [p2positions_append h, p2positions_zero hend, Option.map_some, List.append_nil]

/-- **Reading the whole table** from any place on. -/
theorem LaidOut.reach (h : LaidOut t m log) {fuel : ℕ} (hfuel : (Ld.reach log).length < fuel) :
    p2positions t.postab fuel (m + 1) = some (Ld.reach log) := by
  induction log generalizing m fuel with
  | nil =>
    obtain ⟨rest, rfl⟩ : ∃ rest, fuel = rest + 1 := ⟨fuel - 1, by omega⟩
    exact p2positions_zero h rest
  | cons x log ih =>
    obtain ⟨n, e⟩ := x
    obtain ⟨-, -, hat, hend, hrest⟩ := h
    rw [Ld.reach] at hfuel ⊢
    dsimp only at hfuel ⊢
    by_cases hnil : e.found = []
    · rw [if_pos hnil] at hfuel ⊢
      have hsize : e.size = 0 := if_pos hnil
      rw [hsize] at hrest
      exact ih hrest hfuel
    · rw [if_neg hnil] at hfuel ⊢
      cases hall : e.all
      · rw [hall, if_neg Bool.false_ne_true, List.length_append] at hfuel
        have hsize : e.size = e.found.length := by
          unfold Entry.size
          rw [if_neg hnil, hall]
          rfl
        obtain ⟨rest, rfl⟩ : ∃ rest, fuel = e.found.length + rest := ⟨fuel - e.found.length, by omega⟩
        have hidx : m + 1 + e.found.length = m + e.size + 1 := by omega
        rw [p2positions_append hat, hidx, ih hrest (by omega), if_neg Bool.false_ne_true]
        rfl
      · rw [hall, if_pos rfl, List.append_nil] at hfuel
        rw [if_pos rfl, List.append_nil]
        exact p2positions_eq hfuel hat (hend hnil hall)

theorem p2positions_mono {tab : ℕ → ℕ} {fuel fuel' i : ℕ} {l : List ℕ} (hle : fuel ≤ fuel')
    (h : p2positions tab fuel i = some l) : p2positions tab fuel' i = some l := by
  induction fuel generalizing fuel' i l with
  | zero => cases h
  | succ fuel ih =>
    obtain ⟨rest, rfl⟩ : ∃ rest, fuel' = rest + 1 := ⟨fuel' - 1, by omega⟩
    rw [p2positions] at h ⊢
    split_ifs at h ⊢
    · exact h
    · obtain ⟨l', hl', rfl⟩ := Option.map_eq_some_iff.mp h
      rw [ih (by omega) hl', Option.map_some]

theorem p2read_mono {tab : ℕ → ℕ} {fuel fuel' : ℕ} {l : List (Option ℕ)} (hle : fuel ≤ fuel')
    (h : t.p2read tab fuel n = some l) : t.p2read tab fuel' n = some l := by
  unfold p2read at h ⊢
  split_ifs at h ⊢
  · exact h
  · obtain ⟨l', hl', rfl⟩ := Option.map_eq_some_iff.mp h
    rw [p2positions_mono hle hl', Option.map_some]
  · exact h

theorem p2modules_mono {tab : ℕ → ℕ} {fuel fuel' : ℕ} {files : List ℕ} {l : List (ℕ × Option ℕ)}
    (hle : fuel ≤ fuel') (h : t.p2modules tab fuel files = some l) :
    t.p2modules tab fuel' files = some l := by
  induction files generalizing l with
  | nil => exact h
  | cons n files ih =>
    rw [p2modules] at h ⊢
    obtain ⟨a, ha, h⟩ := Option.bind_eq_some_iff.mp h
    obtain ⟨b, hb, h⟩ := Option.bind_eq_some_iff.mp h
    rw [p2read_mono hle ha, ih hb]
    exact h

/-- What `p2read` loads of a library. -/
theorem p2read_library {tab : ℕ → ℕ} {fuel i : ℕ} {l : List ℕ} (hn : t.posndx n = i + 1)
    (hl : p2positions tab fuel (i + 1) = some l) : t.p2read tab fuel n = some (l.map some) := by
  have hnat : (t.posndx n).toNat = i + 1 := by omega
  unfold p2read
  rw [if_neg (by omega), if_pos (by omega), hnat, hl]
  rfl

/-- What it loads of a file without positions. -/
theorem p2read_of_nil (h : LaidOut t m ((n, e) :: log)) (hnil : e.found = []) (tab : ℕ → ℕ) (fuel : ℕ) :
    t.p2read tab fuel n = some e.loads := by
  have hmark := h.1
  unfold p2read Entry.loads
  unfold Entry.mark at hmark
  cases hobj : e.object
  · rw [hobj, if_neg Bool.false_ne_true, if_pos hnil] at hmark
    rw [if_pos hmark, if_neg Bool.false_ne_true, hnil]
    rfl
  · rw [hobj, if_pos rfl] at hmark
    rw [hmark, if_neg (by decide), if_neg (by decide), if_pos rfl]

/-- A library's positions begin where the others end. -/
theorem posndx_of_found (h : LaidOut t m ((n, e) :: log)) (hne : e.found ≠ []) :
    t.posndx n = m + 1 ∧ e.loads = e.found.map some := by
  have hobj : e.object = false := by
    cases hobj : e.object
    · rfl
    · exact absurd (h.2.1 hobj) hne
  have hmark := h.1
  unfold Entry.mark at hmark
  unfold Entry.loads
  rw [hobj, if_neg Bool.false_ne_true, if_neg hne] at hmark
  rw [hobj, if_neg Bool.false_ne_true]
  exact ⟨hmark, rfl⟩

/-- **With the whole table** what is read of a library goes on into the next ones. -/
theorem p2read_eq {fuel : ℕ} (h : LaidOut t m ((n, e) :: log))
    (hfuel : e.found.length + (Ld.reach log).length < fuel) :
    t.p2read t.postab fuel n = some (e.loads ++ (beyond e log).map some) := by
  by_cases hnil : e.found = []
  · rw [p2read_of_nil h hnil, beyond, if_pos (.inl hnil), List.map_nil, List.append_nil]
  · obtain ⟨hn, hloads⟩ := posndx_of_found h hnil
    have hreach : Ld.reach ((n, e) :: log) = e.found ++ beyond e log := by
      rw [Ld.reach, beyond]
      dsimp only
      rw [if_neg hnil]
      cases hall : e.all
      · rw [if_neg Bool.false_ne_true, if_neg (by simp [hnil])]
      · rw [if_pos rfl, if_pos (.inr rfl)]
    have hle : (beyond e log).length ≤ (Ld.reach log).length := by
      unfold beyond
      split_ifs
      · exact Nat.zero_le _
      · exact le_refl _
    have hlt : (Ld.reach ((n, e) :: log)).length < fuel := by
      rw [hreach, List.length_append]
      omega
    have hread := h.reach hlt
    rw [p2read_library hn hread, hreach, hloads, List.map_append]

/-- What the second pass loads with the whole table. -/
def second : List (ℕ × Entry) → List (ℕ × Option ℕ)
  | [] => []
  | x :: log => (x.2.loads ++ (beyond x.2 log).map some).map (x.1, ·) ++ second log

theorem p2modules_eq (h : LaidOut t m log) : ∃ fuel,
    t.p2modules t.postab fuel (log.map Prod.fst) = some (second log) := by
  induction log generalizing m with
  | nil => exact ⟨0, rfl⟩
  | cons x log ih =>
    obtain ⟨n, e⟩ := x
    obtain ⟨fuel, hfuel⟩ := ih h.2.2.2.2
    refine ⟨fuel + (e.found.length + (Ld.reach log).length + 1), ?_⟩
    rw [List.map_cons, p2modules, p2read_eq h (by omega), p2modules_mono (Nat.le_add_right _ _) hfuel]
    rfl

/-! ## 2. The same modules -/

theorem reach_eq_nil_iff : Ld.reach log = [] ↔ ∀ x ∈ log, x.2.found = [] := by
  induction log with
  | nil => simp [Ld.reach]
  | cons x log ih =>
    rw [Ld.reach, List.forall_mem_cons]
    by_cases hnil : x.2.found = []
    · rw [if_pos hnil, ih]
      exact (and_iff_right hnil).symm
    · rw [if_neg hnil]
      simp [hnil]

theorem modules_cons (x : ℕ × Entry) (log : List (ℕ × Entry)) :
    modules (x :: log) = x.2.loads.map (x.1, ·) ++ modules log := List.flatMap_cons ..

/-- **No library whose search has stopped** is followed by another that something is loaded of. -/
def Ended (log : List (ℕ × Entry)) : Prop :=
  log.Pairwise fun x y => x.2.found ≠ [] → x.2.all = false → y.2.found = []

theorem beyond_eq_nil_iff : beyond e log = [] ↔
    ∀ y ∈ log, e.found ≠ [] → e.all = false → y.2.found = [] := by
  unfold beyond
  by_cases hnil : e.found = []
  · simp [hnil]
  · cases hall : e.all
    · simp [hnil, reach_eq_nil_iff]
    · simp

theorem length_modules_le (log : List (ℕ × Entry)) : (modules log).length ≤ (second log).length := by
  induction log with
  | nil => exact le_refl _
  | cons x log ih =>
    rw [modules_cons, second, List.length_append, List.length_append, List.length_map, List.length_map,
      List.length_append]
    omega

theorem second_eq_iff : second log = modules log ↔ Ended log := by
  induction log with
  | nil => simp [second, modules, Ended]
  | cons x log ih =>
    rw [Ended, List.pairwise_cons, ← beyond_eq_nil_iff, ← Ended, ← ih, modules_cons, second]
    constructor
    · intro heq
      have hle := length_modules_le log
      have hlen := congrArg List.length heq
      rw [List.length_append, List.length_append, List.length_map, List.length_map, List.length_append,
        List.length_map] at hlen
      have hnil : beyond x.2 log = [] := List.eq_nil_of_length_eq_zero (by omega)
      rw [hnil, List.map_nil, List.append_nil] at heq
      exact ⟨hnil, List.append_cancel_left heq⟩
    · rintro ⟨hnil, heq⟩
      rw [hnil, List.map_nil, List.append_nil, heq]

/-! ## 3. The room for positions -/

namespace Entry

/-- The entries the second pass needs for a file: its positions, and a zero behind them. -/
def need (e : Entry) : ℕ := if e.found = [] then 0 else e.found.length + 1

theorem size_le_need (e : Entry) : e.size ≤ e.need := by
  unfold size need
  split_ifs
  · exact le_refl _
  · exact le_refl _
  · omega

theorem size_eq_need (he : e.found ≠ [] → e.all = true) : e.size = e.need := by
  unfold size need
  split_ifs with hnil hall
  · rfl
  · rfl
  · exact absurd (he hnil) hall

end Entry

/-- The entries all files need. -/
def needed (log : List (ℕ × Entry)) : ℕ := (log.map fun x => x.2.need).sum

theorem needed_cons (x : ℕ × Entry) (log : List (ℕ × Entry)) :
    needed (x :: log) = x.2.need + needed log := by
  simp [needed]

theorem needed_eq_zero (h : ∀ x ∈ log, x.2.found = []) : needed log = 0 := by
  induction log with
  | nil => rfl
  | cons x log ih =>
    obtain ⟨hx, hlog⟩ := List.forall_mem_cons.mp h
    rw [needed_cons, ih hlog, Entry.need, if_pos hx]

/-- Behind the last position there is a zero. -/
theorem LaidOut.behind (h : LaidOut t m log) (hnil : ∀ x ∈ log, x.2.found = []) : t.postab (m + 1) = 0 := by
  induction log generalizing m with
  | nil => exact h
  | cons x log ih =>
    obtain ⟨hx, hlog⟩ := List.forall_mem_cons.mp hnil
    have hrest := h.2.2.2.2
    have hsize : x.2.size = 0 := if_pos hx
    rw [hsize] at hrest
    exact ih hrest hlog

/-- A table that is the linker's own, as far as it reaches. -/
def Kept (t : Ld) (tab : ℕ → ℕ) : Prop := ∀ i < POSNO, tab i = t.postab i

/-- **With room for all positions** each library is read to its end and no further. -/
theorem p2modules_of_room {tab : ℕ → ℕ} (h : LaidOut t m log) (hended : Ended log)
    (hroom : m + needed log < POSNO) (hkept : t.Kept tab) : ∃ fuel,
    t.p2modules tab fuel (log.map Prod.fst) = some (modules log) := by
  induction log generalizing m with
  | nil => exact ⟨0, rfl⟩
  | cons x log ih =>
    obtain ⟨n, e⟩ := x
    obtain ⟨hlast, hended⟩ := List.pairwise_cons.mp hended
    rw [needed_cons] at hroom
    dsimp only at hlast hroom
    have hsize := e.size_le_need
    obtain ⟨fuel, hrest⟩ := ih h.2.2.2.2 hended (by omega)
    have hread : t.p2read tab (fuel + (e.found.length + 1)) n = some e.loads := by
      by_cases hnil : e.found = []
      · exact p2read_of_nil h hnil tab _
      · obtain ⟨hn, hloads⟩ := posndx_of_found h hnil
        have hneed : e.need = e.found.length + 1 := if_neg hnil
        have hat : ∀ k (hk : k < e.found.length), tab (m + 1 + k) = e.found[k] ∧ e.found[k] ≠ 0 := by
          intro k hk
          rw [hkept _ (by omega)]
          exact h.2.2.1 k hk
        have hend : tab (m + 1 + e.found.length) = 0 := by
          rw [hkept _ (by omega)]
          cases hall : e.all
          · have hstop : e.size = e.found.length := by
              unfold Entry.size
              rw [if_neg hnil, hall]
              rfl
            have hbehind := h.2.2.2.2.behind fun y hy => hlast y hy hnil hall
            rw [hstop] at hbehind
            rw [← hbehind]
            congr 1
            omega
          · exact h.2.2.2.1 hnil hall
        rw [p2read_library hn (p2positions_eq (by omega) hat hend), hloads]
    refine ⟨fuel + (e.found.length + 1), ?_⟩
    rw [List.map_cons, p2modules, hread, p2modules_mono (Nat.le_add_right _ _) hrest, modules_cons]
    rfl

/-- Without a zero the loop goes on. -/
theorem p2positions_eq_none {tab : ℕ → ℕ} {i : ℕ} (h : ∀ j, i ≤ j → tab j ≠ 0) (fuel : ℕ) :
    p2positions tab fuel i = none := by
  induction fuel generalizing i with
  | zero => rfl
  | succ fuel ih =>
    rw [p2positions, if_neg (h i (le_refl i)), ih fun j hj => h j (by omega)]
    rfl

/-- The table with no zero behind it. -/
def unending (t : Ld) (i : ℕ) : ℕ := if i < POSNO then t.postab i else 1

theorem kept_unending (t : Ld) : t.Kept t.unending := fun _ hi => if_pos hi

/-- **Without that room** a library is read without end, where what is behind the table is no zero. -/
theorem p2modules_of_full (h : LaidOut t m log) (hended : Ended log) (hm : m < POSNO)
    (hfull : POSNO ≤ m + needed log) (fuel : ℕ) :
    t.p2modules t.unending fuel (log.map Prod.fst) = none := by
  induction log generalizing m with
  | nil =>
    have hzero : needed [] = 0 := rfl
    omega
  | cons x log ih =>
    obtain ⟨n, e⟩ := x
    obtain ⟨hlast, hended⟩ := List.pairwise_cons.mp hended
    rw [needed_cons] at hfull
    dsimp only at hlast hfull
    rw [List.map_cons, p2modules]
    by_cases hthis : m + e.need < POSNO
    · have hall : e.found ≠ [] → e.all = true := by
        intro hne
        by_contra hall
        have hzero := needed_eq_zero fun y hy => hlast y hy hne (Bool.eq_false_iff.mpr hall)
        omega
      have hsize := Entry.size_eq_need hall
      rw [ih h.2.2.2.2 hended (by omega) (by omega)]
      cases t.p2read t.unending fuel n <;> rfl
    · have hne : e.found ≠ [] := by
        intro hnil
        have hneed : e.need = 0 := if_pos hnil
        omega
      have hneed : e.need = e.found.length + 1 := if_neg hne
      obtain ⟨hn, -⟩ := posndx_of_found h hne
      have hnat : (t.posndx n).toNat = m + 1 := by omega
      have hgoes : ∀ j, m + 1 ≤ j → t.unending j ≠ 0 := by
        intro j hj
        unfold unending
        split_ifs with hlt
        · obtain ⟨k, rfl⟩ : ∃ k, j = m + 1 + k := ⟨j - (m + 1), by omega⟩
          obtain ⟨heq, hpos⟩ := h.2.2.1 k (by omega)
          rw [heq]
          exact hpos
        · exact Nat.one_ne_zero
      have hread : t.p2read t.unending fuel n = none := by
        unfold p2read
        rw [if_neg (by omega), if_pos (by omega), hnat, p2positions_eq_none hgoes]
        rfl
      rw [hread]
      rfl

/-- **Both passes load the same modules** if and only if no search has stopped before the last one that
found something, and there is room for the positions. -/
theorem LaidOut.same_iff (h : LaidOut t 0 log) :
    (∀ tab, t.Kept tab → ∃ fuel, t.p2modules tab fuel (log.map Prod.fst) = some (modules log)) ↔
      Ended log ∧ needed log < POSNO := by
  constructor
  · intro hall
    have hended : Ended log := by
      obtain ⟨fuel, hfuel⟩ := hall t.postab fun _ _ => rfl
      obtain ⟨fuel', hfuel'⟩ := p2modules_eq h
      have hleft := p2modules_mono (Nat.le_add_right fuel fuel') hfuel
      have hright := p2modules_mono (Nat.le_add_left fuel' fuel) hfuel'
      rw [hright] at hleft
      exact second_eq_iff.mp (Option.some.inj hleft)
    refine ⟨hended, ?_⟩
    by_contra hroom
    obtain ⟨fuel, hfuel⟩ := hall t.unending t.kept_unending
    rw [p2modules_of_full h hended (by decide) (by omega)] at hfuel
    cases hfuel
  · rintro ⟨hended, hroom⟩ tab hkept
    exact p2modules_of_room h hended (by omega) hkept

/-! ## 4. The modules of both passes -/

/-- The module at a position of a library of which the next member begins at `fpos`. -/
def member_at : ℕ → List Member → ℕ → Option XFile
  | _, [], _ => none
  | fpos, m :: l, pos => if pos = fpos + AR8SIZ then some m.file else member_at (m.next fpos) l pos

/-- What `p2load` reads: the whole of an object, or a member at its position. -/
def Input.file_at : Input → Option ℕ → Option XFile
  | .object f, none => some f
  | .archive l, some pos => member_at 2 l pos
  | _, _ => none

/-- The loads of `fs`, if no error is counted on the way. -/
def Loading (cc : Compiler) (s : Ld) (fs : List XFile) (t : Ld) : Prop :=
  ∃ l, Loads cc s l t ∧ s.errcnt ≤ t.errcnt ∧ (t.errcnt = s.errcnt → l.map Prod.snd = fs)

theorem p1module_errcnt {f : XFile} (h : s.p1module cc f = some t) : s.errcnt ≤ t.errcnt := by
  unfold p1module at h
  obtain ⟨u, hu, ht⟩ := Option.bind_eq_some_iff.mp h
  obtain ⟨v, w, hv, hw, hu⟩ := p1doseg_parts hu
  obtain ⟨-, -, -, rfl⟩ := p1start_eq hv
  obtain ⟨_, _, _, rfl⟩ := p1pres_eq hw
  have hsegs : s.errcnt ≤ u.errcnt := by
    refine foldlM_invariant (I := fun w : Ld => s.errcnt ≤ w.errcnt) hu (le_refl _) ?_
    intro x _ w w' hle hx
    obtain ⟨j, -, rfl⟩ := p1seg_eq hx
    dsimp only
    split_ifs
    · exact Nat.le_succ_of_le hle
    · exact hle
  refine @p1dosym_induction cc u t (fun _ w => s.errcnt ≤ w.errcnt) f [] ht hsegs ?_
  intro y _ ys w w' i hle hstep
  have henter : ∀ (x : Ld) (z : XSym), (x.enter z).errcnt = x.errcnt := by
    intro x z
    unfold Ld.enter set_hpos
    cases x.hpos <;> rfl
  cases hstep with
  | glb_again _ _ _ => exact Nat.le_succ_of_le hle
  | other _ _ _ _ =>
    rw [henter]
    exact hle
  | seg_known _ _ => exact hle
  | seg_new _ _ => exact hle
  | local_passed _ _ => exact hle
  | local_new _ _ => exact hle
  | unx_known _ _ => exact hle
  | unx_new _ _ => exact hle
  | glb_defines _ _ _ => exact hle
  | glb_new _ _ => exact hle

namespace Loading

theorem quiet (hq : Quiet s t) (he : t.errcnt = s.errcnt) : Loading cc s [] t :=
  ⟨[], .quiet .nil hq, Nat.le_of_eq he.symm, fun _ => rfl⟩

/-- Where an error is counted anything goes. -/
theorem err {fs : List XFile} (hq : Quiet s t) (he : t.errcnt = s.errcnt + 1) : Loading cc s fs t :=
  ⟨[], .quiet .nil hq, by omega, fun h => by omega⟩

theorem append {fs fs' : List XFile} (h : Loading cc s fs t) (h' : Loading cc t fs' u) :
    Loading cc s (fs ++ fs') u := by
  obtain ⟨l, hl, hle, heq⟩ := h
  obtain ⟨l', hl', hle', heq'⟩ := h'
  refine ⟨l ++ l', hl.append hl', hle.trans hle', fun he => ?_⟩
  rw [List.map_append, heq (by omega), heq' (by omega)]

theorem p1load {f : XFile} (h : s.p1load cc f = some t) : Loading cc s [f] t := by
  unfold Ld.p1load at h
  split_ifs at h
  · obtain rfl := Option.some.inj h
    exact .err (.err s) rfl
  · obtain rfl := Option.some.inj h
    exact .err (.err s) rfl
  · have hle := p1module_errcnt h
    exact ⟨_, .load (.quiet .nil ⟨_, _, _, _, _, _, _, rfl⟩) h, hle, fun _ => rfl⟩
  · obtain rfl := Option.some.inj h
    exact .err (.err s) rfl
  · have hle := p1module_errcnt h
    exact ⟨_, .load (.quiet .nil ⟨_, _, _, _, _, _, _, rfl⟩) h, hle, fun _ => rfl⟩

theorem look {h : Htab} {name : List Byte} {r : Option ℕ} (hl : s.look cc h name = some (t, r)) :
    t.errcnt = s.errcnt := by
  cases r with
  | none =>
    obtain ⟨_, rfl, -⟩ := look_none hl
    rfl
  | some j =>
    obtain ⟨rfl, -⟩ := look_some hl
    rfl

theorem trysim_loop {l : List XSym} {r : Bool} (h : s.trysim_loop cc l = some (t, r)) :
    t.errcnt = s.errcnt := by
  induction l generalizing s with
  | nil =>
    obtain ⟨rfl, -⟩ := Prod.mk.inj (Option.some.inj h)
    rfl
  | cons y l ih =>
    rw [Ld.trysim_loop] at h
    split_ifs at h with hy
    · rcases hl : s.look cc .symhash y.x_sy_name with _ | ⟨s', _ | k⟩ <;> rw [hl] at h
      · cases h
      · exact (ih h).trans (look hl)
      · dsimp only at h
        split_ifs at h
        · obtain ⟨rfl, -⟩ := Prod.mk.inj (Option.some.inj h)
          exact look hl
        · exact (ih h).trans (look hl)
    · exact ih h

theorem trysim {f : XFile} {r : Bool} (h : s.trysim cc f = some (t, r)) : Loading cc s [] t := by
  refine .quiet (trysim_quiet h) ?_
  unfold Ld.trysim at h
  split_ifs at h
  · obtain ⟨rfl, -⟩ := Prod.mk.inj (Option.some.inj h)
    rfl
  · obtain ⟨rfl, -⟩ := Prod.mk.inj (Option.some.inj h)
    rfl
  · exact trysim_loop h

end Loading

/-- Positions go up through a library. -/
theorem le_search {ms : List Member} (h : pos ∈ (s.search cc n fpos ms).found) : fpos + AR8SIZ ≤ pos := by
  induction ms generalizing s fpos with
  | nil => cases h
  | cons m ms ih =>
    have hnext : fpos ≤ m.next fpos := by
      have hle := le_round (fpos + (AR8SIZ + m.ar8k_size))
      unfold Member.next
      omega
    rw [search] at h
    rcases ht : s.trysim cc m.file with _ | ⟨s', _ | _⟩ <;> rw [ht] at h
    · cases h
    · have hle := ih h
      omega
    · dsimp only at h
      rcases hl : (s'.noted n (fpos + AR8SIZ)).p1load cc m.file with _ | u <;> rw [hl] at h
      · cases h
      · dsimp only at h
        split_ifs at h
        · exact Nat.le_of_eq (List.mem_singleton.mp h).symm
        · rcases List.mem_cons.mp h with rfl | h
          · exact le_refl _
          · have hle := ih h
            omega

theorem map_member_at {m : Member} {ms : List Member} {l : List ℕ}
    (h : ∀ pos ∈ l, m.next fpos + AR8SIZ ≤ pos) :
    l.map (member_at fpos (m :: ms)) = l.map (member_at (m.next fpos) ms) := by
  refine List.map_congr_left fun pos hpos => ?_
  have hle := h pos hpos
  have hround := le_round (fpos + (AR8SIZ + m.ar8k_size))
  have hne : pos ≠ fpos + AR8SIZ := by
    unfold Member.next at hle
    unfold AR8SIZ at hle hround ⊢
    omega
  rw [member_at, if_neg hne]

/-- **The members loaded** are those at the positions. -/
theorem p1archive_loading {ms : List Member} (h : p1archive cc n s fpos ms = some t) :
    ∃ fs, Loading cc s fs t ∧ (s.search cc n fpos ms).found.map (member_at fpos ms) = fs.map some := by
  induction ms generalizing s fpos with
  | nil =>
    rw [p1archive] at h
    obtain rfl := Option.some.inj h
    refine ⟨[], .quiet ?_ ?_, rfl⟩
    · split_ifs
      · exact ⟨_, _, _, _, _, _, _, rfl⟩
      · exact .refl s
    · split_ifs <;> rfl
  | cons m ms ih =>
    rw [p1archive] at h
    rw [search]
    rcases ht : s.trysim cc m.file with _ | ⟨s', _ | _⟩ <;> rw [ht] at h
    · cases h
    · obtain ⟨fs, hfs, hmap⟩ := ih h
      refine ⟨fs, (Loading.trysim ht).append hfs, ?_⟩
      rw [← hmap]
      exact map_member_at fun pos hpos => le_search hpos
    · dsimp only at h ⊢
      rcases hl : (s'.noted n (fpos + AR8SIZ)).p1load cc m.file with _ | u
      · have hl' := hl
        unfold noted at hl'
        rw [hl'] at h
        cases h
      · have hl' := hl
        unfold noted at hl'
        rw [hl'] at h
        dsimp only at h ⊢
        have hnoted : Loading cc s' [] (s'.noted n (fpos + AR8SIZ)) := .quiet ⟨_, _, _, _, _, _, _, rfl⟩ rfl
        have hfirst := ((Loading.trysim ht).append hnoted).append (Loading.p1load hl)
        have hat : member_at fpos (m :: ms) (fpos + AR8SIZ) = some m.file := if_pos rfl
        by_cases hzero : u.udefcnt = 0
        · rw [if_pos hzero] at h ⊢
          obtain rfl := Option.some.inj h
          refine ⟨[m.file], hfirst, ?_⟩
          rw [List.map_singleton, List.map_singleton, hat]
        · rw [if_neg hzero] at h ⊢
          obtain ⟨fs, hfs, hmap⟩ := ih h
          refine ⟨[m.file] ++ fs, hfirst.append hfs, ?_⟩
          unfold Entry.also
          rw [List.map_cons, hat, map_member_at fun pos hpos => le_search hpos]
          exact congrArg (some m.file :: ·) hmap

theorem p1entry_loading {file : Input} (h : s.p1entry cc n file = some t) : ∃ fs,
    Loading cc s fs t ∧ (s.p1found cc n file).loads.map file.file_at = fs.map some := by
  cases file with
  | unreadable =>
    obtain rfl := Option.some.inj h
    exact ⟨[], .err (.err s) rfl, rfl⟩
  | object f =>
    rw [p1entry] at h
    split_ifs at h
    have hquiet : Quiet s { s with posndx := Function.update s.posndx n (-1) } := ⟨_, _, _, _, _, _, _, rfl⟩
    exact ⟨[f], (Loading.quiet hquiet rfl).append (Loading.p1load h), rfl⟩
  | archive ms =>
    rw [p1entry] at h
    rw [p1found]
    split_ifs at h ⊢
    · obtain rfl := Option.some.inj h
      exact ⟨[], .quiet (.refl s) rfl, rfl⟩
    · obtain ⟨fs, hfs, hmap⟩ := p1archive_loading h
      refine ⟨fs, hfs, ?_⟩
      rw [← hmap, Entry.loads, search_object, if_neg Bool.false_ne_true, List.map_map]
      rfl

/-- What is at a place of some files. -/
def module_at (files : List Input) (x : ℕ × Option ℕ) : Option XFile :=
  files[x.1]?.bind fun file => file.file_at x.2

theorem p1log_loading {files : List Input} {l : List (Input × ℕ)} (hl : ∀ x ∈ l, files[x.2]? = some x.1)
    (h : l.foldlM (fun s f => s.p1entry cc f.2 f.1) s = some t) : ∃ fs,
    Loading cc s fs t ∧ (modules (s.p1log cc l)).map (module_at files) = fs.map some := by
  induction l generalizing s with
  | nil =>
    obtain rfl := Option.some.inj h
    exact ⟨[], .quiet (.refl s) rfl, rfl⟩
  | cons x l ih =>
    obtain ⟨file, n⟩ := x
    obtain ⟨hfile, hl⟩ := List.forall_mem_cons.mp hl
    rw [List.foldlM_cons] at h
    obtain ⟨u, hu, hrest⟩ := Option.bind_eq_some_iff.mp h
    obtain ⟨fs, hfs, hmap⟩ := p1entry_loading hu
    obtain ⟨fs', hfs', hmap'⟩ := ih hl hrest
    refine ⟨fs ++ fs', hfs.append hfs', ?_⟩
    have hthis : ∀ p, module_at files (n, p) = file.file_at p := by
      intro p
      unfold module_at
      rw [hfile]
      rfl
    have hcomp : module_at files ∘ (fun p => (n, p)) = file.file_at := funext hthis
    rw [p1log, hu, modules_cons, List.map_append, hmap', List.map_append, List.map_map, hcomp, hmap]

/-- A module of one symbol. -/
def one_symbol (fl : Byte) (c : Byte) : XFile where
  x_magic := X_NU_MAGIC
  x_sg := []
  init := []
  x_rel := []
  x_sym := [⟨255, fl, 0, [c]⟩]

/-- An object that refers to `c`, and a library of two members of which the second one defines it. -/
def with_library (c : Byte) : List Input :=
  [.object (one_symbol X_SY_UNX c),
    .archive [⟨one_symbol X_SY_GLB 0x7a, 36⟩, ⟨one_symbol X_SY_GLB c, 36⟩]]

/-- With a second object and library the first library is read at the position of the other's member. -/
example : ((initial .zero).pass1 .unsigned (with_library 0x61 ++ with_library 0x62)).bind
    (fun v => v.p2modules v.postab 3 (List.range 4)) =
      some [(0, none), (1, some 90), (1, some 90), (2, none), (3, some 90)] := by decide +kernel

end Ld

end Cpm8000.Linker
