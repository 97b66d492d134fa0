/-
# The table of positions

The first pass keeps the position of every library member it loads in `postab`, and where the positions
of a file begin in `posndx`; `p2read` loads what it finds there, up to a zero. `pass1_laidOut` says what
the table is when the first pass is done.
-/
import Cpm8000.Linker.Commons
import Cpm8000.Linker.Ready

namespace Cpm8000.Linker

open Sys

/-- max number of items in libraries -/
def POSNO : ℕ := 256

namespace Ld

variable (cc : Compiler)

/-! ## 1. What the first pass loads -/

/-- The position of a member of library `n` is kept, before it is loaded. -/
def noted (s : Ld) (n pos : ℕ) : Ld :=
  { s with
    posndx := if s.posndx n ≤ 0 then Function.update s.posndx n (s.posmax + 1) else s.posndx
    posmax := s.posmax + 1
    postab := Function.update s.postab (s.posmax + 1) pos }

/-- Where the next member of a library begins. -/
def Member.next (fpos : ℕ) (m : Member) : ℕ := round (fpos + (AR8SIZ + m.ar8k_size))

/-- What is loaded of a file: its positions, or the whole of it; and whether a search went to its end. -/
structure Entry where
  object : Bool
  found : List ℕ
  all : Bool
deriving DecidableEq

namespace Entry

def nothing : Entry := ⟨false, [], true⟩

def whole : Entry := ⟨true, [], true⟩

/-- One more member, before the others. -/
def also (pos : ℕ) (e : Entry) : Entry := { e with found := pos :: e.found }

/-- The modules: at a position, or the whole file. -/
def loads (e : Entry) : List (Option ℕ) := if e.object then [none] else e.found.map some

end Entry

/-- What `p1archive` loads. -/
def search (n : ℕ) : Ld → ℕ → List Member → Entry
  | _, _, [] => .nothing
  | s, fpos, m :: l =>
    match s.trysim cc m.file with
    | none => .nothing
    | some (s, true) =>
      match (s.noted n (fpos + AR8SIZ)).p1load cc m.file with
      | none => .nothing
      | some s =>
        if s.udefcnt = 0 then ⟨false, [fpos + AR8SIZ], false⟩
        else (search n s (m.next fpos) l).also (fpos + AR8SIZ)
    | some (s, false) => search n s (m.next fpos) l

/-- What `p1entry` loads. -/
def p1found (s : Ld) (n : ℕ) : Input → Entry
  | .unreadable => .nothing
  | .archive l => if s.udefcnt = 0 then .nothing else s.search cc n 2 l
  | .object _ => .whole

/-- What is loaded of each file. -/
def p1log : Ld → List (Input × ℕ) → List (ℕ × Entry)
  | _, [] => []
  | s, (file, n) :: l =>
    (n, s.p1found cc n file) ::
      match s.p1entry cc n file with
      | none => []
      | some s => p1log s l

/-- The modules of some files, each by its file and its position there. -/
def modules (log : List (ℕ × Entry)) : List (ℕ × Option ℕ) :=
  log.flatMap fun x => x.2.loads.map (x.1, ·)

/-! ## 2. What the second pass loads -/

/-- The loop of `p2read`, from entry `i` of the table on; none where the fuel runs out. -/
def p2positions (postab : ℕ → ℕ) : ℕ → ℕ → Option (List ℕ)
  | 0, _ => none
  | fuel + 1, i =>
    if postab i = 0 then some [] else (p2positions postab fuel (i + 1)).map (postab i :: ·)

variable (s : Ld)

/-- read the files the second time -/
def p2read (postab : ℕ → ℕ) (fuel n : ℕ) : Option (List (Option ℕ)) :=
  if s.posndx n = 0 then some []
  else if s.posndx n > 0 then (p2positions postab fuel (s.posndx n).toNat).map fun l => l.map some
  else some [none]

/-- The modules `pass2` loads from some files. -/
def p2modules (postab : ℕ → ℕ) (fuel : ℕ) : List ℕ → Option (List (ℕ × Option ℕ))
  | [] => some []
  | n :: l => do
    let a ← s.p2read postab fuel n
    let b ← p2modules postab fuel l
    return a.map (n, ·) ++ b

/-! ## 3. The table of positions -/

/-- The positions are as they were. -/
structure Unnoted (s t : Ld) : Prop where
  posndx : t.posndx = s.posndx
  postab : t.postab = s.postab
  posmax : t.posmax = s.posmax

variable {cc : Compiler} {s t u : Ld} {n m fpos pos : ℕ} {e : Entry} {log : List (ℕ × Entry)}

namespace Unnoted

theorem refl (s : Ld) : Unnoted s s := ⟨rfl, rfl, rfl⟩

theorem trans (h : Unnoted s t) (h' : Unnoted t u) : Unnoted s u :=
  ⟨h'.posndx.trans h.posndx, h'.postab.trans h.postab, h'.posmax.trans h.posmax⟩

theorem look {h : Htab} {name : List Byte} {r : Option ℕ} (hl : s.look cc h name = some (t, r)) :
    Unnoted s t := by
  cases r with
  | none =>
    obtain ⟨_, rfl, -⟩ := look_none hl
    exact ⟨rfl, rfl, rfl⟩
  | some j =>
    obtain ⟨rfl, -⟩ := look_some hl
    exact refl _

theorem trysim_loop {l : List XSym} {r : Bool} (h : s.trysim_loop cc l = some (t, r)) : Unnoted s t := by
  induction l generalizing s with
  | nil =>
    obtain ⟨rfl, -⟩ := Prod.mk.inj (Option.some.inj h)
    exact refl s
  | cons y l ih =>
    rw [Ld.trysim_loop] at h
    split_ifs at h with hy
    · rcases hl : s.look cc .symhash y.x_sy_name with _ | ⟨s', _ | k⟩ <;> rw [hl] at h
      · cases h
      · exact (look hl).trans (ih h)
      · dsimp only at h
        split_ifs at h
        · obtain ⟨rfl, -⟩ := Prod.mk.inj (Option.some.inj h)
          exact look hl
        · exact (look hl).trans (ih h)
    · exact ih h

theorem trysim {f : XFile} {r : Bool} (h : s.trysim cc f = some (t, r)) : Unnoted s t := by
  unfold Ld.trysim at h
  split_ifs at h
  · obtain ⟨rfl, -⟩ := Prod.mk.inj (Option.some.inj h)
    exact refl s
  · obtain ⟨rfl, -⟩ := Prod.mk.inj (Option.some.inj h)
    exact refl s
  · exact trysim_loop h

theorem p1module {f : XFile} (h : s.p1module cc f = some t) : Unnoted s t := by
  unfold Ld.p1module at h
  obtain ⟨u, hu, ht⟩ := Option.bind_eq_some_iff.mp h
  obtain ⟨_, _, _, _, _, _, _, rfl⟩ := p1dosym_frame ht
  obtain ⟨_, _, _, _, _, _, _, _, _, _, _, _, _, rfl⟩ := p1doseg_frame hu
  exact ⟨rfl, rfl, rfl⟩

theorem p1load {f : XFile} (h : s.p1load cc f = some t) : Unnoted s t := by
  unfold Ld.p1load at h
  split_ifs at h
  · obtain rfl := Option.some.inj h
    exact ⟨rfl, rfl, rfl⟩
  · obtain rfl := Option.some.inj h
    exact ⟨rfl, rfl, rfl⟩
  · have hmodule := p1module h
    exact ⟨hmodule.posndx, hmodule.postab, hmodule.posmax⟩
  · obtain rfl := Option.some.inj h
    exact ⟨rfl, rfl, rfl⟩
  · have hmodule := p1module h
    exact ⟨hmodule.posndx, hmodule.postab, hmodule.posmax⟩

end Unnoted

namespace Entry

/-- The entries of the table, with the zero behind them. -/
def size (e : Entry) : ℕ := if e.found = [] then 0 else e.found.length + if e.all then 1 else 0

/-- What `posndx` is for the file, with `m` entries before. -/
def mark (e : Entry) (m : ℕ) : ℤ := if e.object then -1 else if e.found = [] then 0 else m + 1

end Entry

/-- **What is noted of a file**, or of the rest of a library. -/
structure Noted (s : Ld) (n : ℕ) (e : Entry) (t : Ld) : Prop where
  posndx : t.posndx = if 0 < s.posndx n then s.posndx else Function.update s.posndx n (e.mark s.posmax)
  posmax : t.posmax = s.posmax + if 0 < s.posndx n ∧ e.found = [] ∧ e.all then 1 else e.size
  before : ∀ i ≤ s.posmax, t.postab i = s.postab i
  at_ : ∀ k (h : k < e.found.length), t.postab (s.posmax + 1 + k) = e.found[k] ∧ e.found[k] ≠ 0
  behind : ∀ i, s.posmax + e.found.length < i → t.postab i = s.postab i

namespace Noted

theorem of_unnoted (h : Unnoted s t) (hn : s.posndx n = 0) : Noted s n .nothing t := by
  refine ⟨?_, ?_, fun i _ => by rw [h.postab], fun k hk => absurd hk (Nat.not_lt_zero k),
    fun i _ => by rw [h.postab]⟩
  · rw [h.posndx, if_neg (by omega)]
    exact (Function.update_eq_self_iff.mpr hn.symm).symm
  · rw [h.posmax, if_neg (by omega)]
    rfl

/-- The state after a member is noted and loaded. -/
theorem noted_posndx (h : Unnoted (s.noted n pos) u) : 0 < u.posndx n := by
  rw [h.posndx, noted]
  dsimp only
  by_cases hn : s.posndx n ≤ 0
  · rw [if_pos hn, Function.update_self]
    omega
  · rw [if_neg hn]
    omega

/-- One more member. -/
theorem also (h : Unnoted (s.noted n pos) u) (hpos : pos ≠ 0) (hobj : e.object = false)
    (ht : Noted u n e t) : Noted s n (e.also pos) t := by
  have hun := noted_posndx h
  have hpost : u.postab = Function.update s.postab (s.posmax + 1) pos := h.postab
  have hmax : u.posmax = s.posmax + 1 := h.posmax
  refine ⟨?_, ?_, fun i hi => ?_, fun k hk => ?_, fun i hi => ?_⟩
  · rw [ht.posndx, if_pos hun, h.posndx, noted]
    dsimp only
    by_cases hn : s.posndx n ≤ 0
    · rw [if_pos hn, if_neg (not_lt.mpr hn)]
      simp [Entry.mark, Entry.also, hobj]
    · rw [if_neg hn, if_pos (not_le.mp hn)]
  · rw [ht.posmax, hmax]
    unfold Entry.size Entry.also
    by_cases hnil : e.found = [] <;> cases e.all <;> simp [hnil, hun] <;> omega
  · rw [ht.before i (by omega), hpost, Function.update_of_ne (by omega)]
  · rcases k with _ | k
    · rw [Nat.add_zero, ht.before _ (by omega), hpost, Function.update_self]
      exact ⟨rfl, hpos⟩
    · have hk' : k < e.found.length := Nat.lt_of_succ_lt_succ hk
      have hat := ht.at_ k hk'
      have hidx : u.posmax + 1 + k = s.posmax + 1 + (k + 1) := by omega
      rw [hidx] at hat
      exact hat
  · have hlen : (e.also pos).found.length = e.found.length + 1 := rfl
    rw [hlen] at hi
    rw [ht.behind i (by omega), hpost, Function.update_of_ne (by omega)]

/-- The last one, where the search stops. -/
theorem last (h : Unnoted (s.noted n pos) u) (hpos : pos ≠ 0) : Noted s n ⟨false, [pos], false⟩ u := by
  have hpost : u.postab = Function.update s.postab (s.posmax + 1) pos := h.postab
  refine ⟨?_, ?_, fun i hi => ?_, fun k hk => ?_, fun i hi => ?_⟩
  · rw [h.posndx, noted]
    dsimp only
    by_cases hn : s.posndx n ≤ 0
    · rw [if_pos hn, if_neg (not_lt.mpr hn)]
      rfl
    · rw [if_neg hn, if_pos (not_le.mp hn)]
  · rw [h.posmax]
    simp [Entry.size, noted]
  · rw [hpost, Function.update_of_ne (by omega)]
  · obtain rfl : k = 0 := Nat.lt_one_iff.mp hk
    rw [Nat.add_zero, hpost, Function.update_self]
    exact ⟨rfl, hpos⟩
  · have hlen : (Entry.mk false [pos] false).found.length = 1 := rfl
    rw [hlen] at hi
    rw [hpost, Function.update_of_ne (by omega)]

end Noted

theorem search_object (n : ℕ) (s : Ld) (fpos : ℕ) (ms : List Member) :
    (s.search cc n fpos ms).object = false := by
  induction ms generalizing s fpos with
  | nil => rfl
  | cons m ms ih =>
    rw [search]
    split
    · rfl
    · split
      · rfl
      · split_ifs
        · rfl
        · exact ih _ _
    · exact ih _ _

theorem Noted.of_before (h : Unnoted s u) (ht : Noted u n e t) : Noted s n e t := by
  refine ⟨?_, ?_, fun i hi => ?_, fun k hk => ?_, fun i hi => ?_⟩
  · rw [ht.posndx, h.posndx, h.posmax]
  · rw [ht.posmax, h.posndx, h.posmax]
  · rw [ht.before i (h.posmax ▸ hi), h.postab]
  · have hat := ht.at_ k hk
    rwa [h.posmax] at hat
  · rw [ht.behind i (h.posmax ▸ hi), h.postab]

/-- **A library.** -/
theorem p1archive_noted {ms : List Member} (hn : 0 ≤ s.posndx n) (h : p1archive cc n s fpos ms = some t) :
    Noted s n (s.search cc n fpos ms) t := by
  induction ms generalizing s fpos with
  | nil =>
    rw [p1archive] at h
    obtain rfl := Option.some.inj h
    have hs : s.search cc n fpos [] = .nothing := rfl
    rw [hs]
    split_ifs with hpos
    · refine ⟨(if_pos hpos).symm, ?_, fun _ _ => rfl, fun k hk => absurd hk (Nat.not_lt_zero k),
        fun _ _ => rfl⟩
      rw [if_pos ⟨hpos, rfl, rfl⟩]
    · exact .of_unnoted (.refl s) (by omega)
  | cons m ms ih =>
    rw [p1archive] at h
    rw [search]
    rcases ht : s.trysim cc m.file with _ | ⟨s', _ | _⟩ <;> rw [ht] at h
    · cases h
    · have hsame := Unnoted.trysim ht
      exact .of_before hsame (ih (hsame.posndx ▸ hn) h)
    · have hsame := Unnoted.trysim ht
      have hpos : fpos + AR8SIZ ≠ 0 := by
        unfold AR8SIZ
        omega
      dsimp only at h ⊢
      rcases hl : (s'.noted n (fpos + AR8SIZ)).p1load cc m.file with _ | u
      · have hl' := hl
        unfold noted at hl'
        rw [hl'] at h
        cases h
      · have hl' := hl
        unfold noted at hl'
        rw [hl'] at h
        dsimp only at h ⊢
        have hu := Unnoted.p1load hl
        by_cases hzero : u.udefcnt = 0
        · rw [if_pos hzero] at h ⊢
          obtain rfl := Option.some.inj h
          exact .of_before hsame (.last hu hpos)
        · rw [if_neg hzero] at h ⊢
          have hrest := ih (Int.le_of_lt (Noted.noted_posndx hu)) h
          exact .of_before hsame (.also hu hpos (search_object _ _ _ _) hrest)

/-- **A file** that has no position yet. -/
theorem p1entry_noted {file : Input} (hn : s.posndx n = 0) (h : s.p1entry cc n file = some t) :
    Noted s n (s.p1found cc n file) t := by
  cases file with
  | unreadable =>
    obtain rfl := Option.some.inj h
    exact .of_unnoted ⟨rfl, rfl, rfl⟩ hn
  | object f =>
    rw [p1entry] at h
    split_ifs at h
    have hload := Unnoted.p1load h
    refine ⟨?_, ?_, fun i _ => by rw [hload.postab], fun k hk => absurd hk (Nat.not_lt_zero k),
      fun i _ => by rw [hload.postab]⟩
    · rw [hload.posndx, if_neg (by omega)]
      rfl
    · rw [hload.posmax, if_neg (by omega)]
      rfl
  | archive ms =>
    rw [p1entry] at h
    rw [p1found]
    split_ifs at h ⊢
    · obtain rfl := Option.some.inj h
      exact .of_unnoted (.refl s) hn
    · exact p1archive_noted (Int.le_of_eq hn.symm) h

/-- A whole file has no positions. -/
theorem p1found_object (s : Ld) (n : ℕ) (file : Input) (h : (s.p1found cc n file).object = true) :
    (s.p1found cc n file).found = [] := by
  cases file with
  | unreadable => rfl
  | object f => rfl
  | archive ms =>
    rw [p1found] at h ⊢
    split_ifs at h ⊢
    · rfl
    · rw [search_object] at h
      exact absurd h Bool.false_ne_true

/-! ## 4. The whole table -/

/-- **The table of positions**, from entry `m + 1` on: those of each library, a zero behind them where the
search went to its end, and a zero behind all. -/
def LaidOut (t : Ld) : ℕ → List (ℕ × Entry) → Prop
  | m, [] => t.postab (m + 1) = 0
  | m, (n, e) :: log => t.posndx n = e.mark m ∧ (e.object = true → e.found = []) ∧
    (∀ k (h : k < e.found.length), t.postab (m + 1 + k) = e.found[k] ∧ e.found[k] ≠ 0) ∧
      (e.found ≠ [] → e.all = true → t.postab (m + 1 + e.found.length) = 0) ∧ LaidOut t (m + e.size) log

theorem LaidOut.of_unnoted (h : LaidOut t m log) (hu : Unnoted t u) : LaidOut u m log := by
  induction log generalizing m with
  | nil =>
    rw [LaidOut, hu.postab]
    exact h
  | cons x log ih =>
    obtain ⟨hmark, hobj, hat, hend, hrest⟩ := h
    refine ⟨?_, hobj, ?_, ?_, ih hrest⟩
    · rw [hu.posndx]
      exact hmark
    · rw [hu.postab]
      exact hat
    · rw [hu.postab]
      exact hend

/-- **The first pass over some files** lays out the table. -/
theorem p1log_laidOut {l : List (Input × ℕ)} (hd : (l.map Prod.snd).Nodup)
    (hn : ∀ x ∈ l, s.posndx x.2 = 0) (hz : ∀ i, s.posmax < i → s.postab i = 0)
    (h : l.foldlM (fun s f => s.p1entry cc f.2 f.1) s = some t) :
    LaidOut t s.posmax (s.p1log cc l) ∧ (s.p1log cc l).map Prod.fst = l.map Prod.snd ∧
      (∀ i ≤ s.posmax, t.postab i = s.postab i) ∧ ∀ n, n ∉ l.map Prod.snd → t.posndx n = s.posndx n := by
  induction l generalizing s with
  | nil =>
    obtain rfl := Option.some.inj h
    exact ⟨hz _ (Nat.lt_succ_self _), rfl, fun _ _ => rfl, fun _ _ => rfl⟩
  | cons x l ih =>
    obtain ⟨file, n⟩ := x
    rw [List.foldlM_cons] at h
    obtain ⟨u, hu, hrest⟩ := Option.bind_eq_some_iff.mp h
    rw [p1log, hu]
    dsimp only
    have hzero := hn (file, n) List.mem_cons_self
    have hnote := p1entry_noted hzero hu
    have hobj := @p1found_object cc s n file
    generalize s.p1found cc n file = e at hnote hobj
    have hndx : u.posndx = Function.update s.posndx n (e.mark s.posmax) := by
      rw [hnote.posndx, if_neg (by omega)]
    have hmax : u.posmax = s.posmax + e.size := by
      rw [hnote.posmax, if_neg (by omega)]
    have hlen : e.found.length ≤ e.size := by
      unfold Entry.size
      split_ifs with hnil
      · rw [hnil]
        exact le_refl _
      · exact Nat.le_add_right _ _
      · exact Nat.le_add_right _ _
    obtain ⟨hnotin, hd⟩ := List.nodup_cons.mp hd
    have hothers : ∀ y ∈ l, u.posndx y.2 = 0 := by
      intro y hy
      have hne : y.2 ≠ n := by
        rintro rfl
        exact hnotin (List.mem_map.mpr ⟨y, hy, rfl⟩)
      rw [hndx, Function.update_of_ne hne]
      exact hn y (List.mem_cons_of_mem _ hy)
    have hbehind : ∀ i, u.posmax < i → u.postab i = 0 := by
      intro i hi
      rw [hnote.behind i (by omega), hz i (by omega)]
    obtain ⟨hlaid, hfiles, hbefore, hrestndx⟩ := ih hd hothers hbehind hrest
    rw [hmax] at hlaid
    refine ⟨⟨?_, hobj, fun k hk => ?_, fun hne hall => ?_, hlaid⟩, ?_, fun i hi => ?_, fun k hk => ?_⟩
    · rw [hrestndx n hnotin, hndx, Function.update_self]
    · rw [hbefore _ (by omega)]
      exact hnote.at_ k hk
    · have hsize : e.size = e.found.length + 1 := by
        unfold Entry.size
        rw [if_neg hne, hall]
        rfl
      rw [hbefore _ (by omega), hnote.behind _ (by omega), hz _ (by omega)]
    · rw [List.map_cons, List.map_cons, hfiles]
    · rw [hbefore i (by omega), hnote.before i hi]
    · rw [List.map_cons, List.mem_cons, not_or] at hk
      rw [hrestndx k hk.2, hndx, Function.update_of_ne hk.1]

/-! ## 5. Flags -/

/-- What the flags leave alone: the positions, the modules and the sizes; and the stack has an even size. -/
structure Flagged (s t : Ld) : Prop where
  unnoted : Unnoted s t
  modno : t.modno = s.modno
  segsiz : ∀ j, (t.segtab j).segsiz = (s.segtab j).segsiz
  stack : s.stacksiz % 2 = 0 → t.stacksiz % 2 = 0

namespace Flagged

theorem refl (s : Ld) : Flagged s s := ⟨.refl s, rfl, fun _ => rfl, id⟩

theorem trans (h : Flagged s t) (h' : Flagged t u) : Flagged s u :=
  ⟨h.unnoted.trans h'.unnoted, h'.modno.trans h.modno, fun j => (h'.segsiz j).trans (h.segsiz j),
    fun hs => h'.stack (h.stack hs)⟩

theorem of_same (hu : Unnoted s t) (hmodno : t.modno = s.modno) (hsegtab : t.segtab = s.segtab)
    (hstack : t.stacksiz = s.stacksiz) : Flagged s t := by
  refine ⟨hu, hmodno, fun j => ?_, fun hs => ?_⟩
  · rw [hsegtab]
  · rw [hstack]
    exact hs

theorem update {i : ℕ} {x : SegTab} (hu : Unnoted s t) (hmodno : t.modno = s.modno)
    (hsegtab : t.segtab = Function.update s.segtab i x) (hx : x.segsiz = (s.segtab i).segsiz)
    (hstack : t.stacksiz = s.stacksiz) : Flagged s t := by
  refine ⟨hu, hmodno, fun j => ?_, fun hs => ?_⟩
  · rw [hsegtab]
    by_cases hj : j = i
    · rw [hj, Function.update_self, hx]
    · rw [Function.update_of_ne hj]
  · rw [hstack]
    exact hs

theorem dodset (d : Dod) (i : ℕ) (typ : Byte) : Flagged d.ld (d.dodset i typ).ld := by
  unfold Dod.dodset
  dsimp only
  split_ifs
  · exact .update ⟨rfl, rfl, rfl⟩ rfl rfl rfl rfl
  · exact Flagged.trans (t := { d.ld with
      prelist := d.ld.prelist ++ [i]
      segtab := Function.update d.ld.segtab i { d.ld.segtab i with segalloc := true } })
      (.update ⟨rfl, rfl, rfl⟩ rfl rfl rfl rfl) (.update ⟨rfl, rfl, rfl⟩ rfl rfl rfl rfl)
  · exact .refl _
  · exact .update ⟨rfl, rfl, rfl⟩ rfl rfl rfl rfl

theorem name_step {i : ℕ} {name : List Byte} {v : Verdict} (h : NameStep cc s i name v t) :
    Flagged s t := by
  have htyped : ∀ u : Ld, Flagged s u → Flagged s (u.typed i name) := by
    intro u hu
    unfold Ld.typed
    split_ifs
    · exact hu.trans (.update ⟨rfl, rfl, rfl⟩ rfl rfl rfl rfl)
    · exact hu
  cases h with
  | full => exact .refl s
  | conflict _ _ => exact .of_same ⟨rfl, rfl, rfl⟩ rfl rfl rfl
  | again _ _ => exact htyped _ (.of_same ⟨rfl, rfl, rfl⟩ rfl rfl rfl)
  | new _ => exact htyped _ (.of_same ⟨rfl, rfl, rfl⟩ rfl rfl rfl)

theorem descriptive (cc : Compiler) (s : Ld) : Descriptive cc (Flagged s) where
  err _ h := h.trans (.of_same ⟨rfl, rfl, rfl⟩ rfl rfl rfl)
  set d i typ _ h := h.trans (dodset d i typ)
  name _ _ _ _ _ hs h := h.trans (name_step hs)

theorem flag {f : Flag} (h : s.flag cc f = some t) : Flagged s t := by
  cases f with
  | d descriptor =>
    rw [Ld.flag] at h
    split_ifs at h
    obtain rfl := Option.some.inj h
    exact (descriptive cc s).dodline (d := ⟨s, []⟩) descriptor (.refl s)
  | d_file file =>
    cases file with
    | none =>
      obtain rfl := Option.some.inj h
      exact .of_same ⟨rfl, rfl, rfl⟩ rfl rfl rfl
    | some file =>
      rw [Ld.flag] at h
      split_ifs at h
      obtain rfl := Option.some.inj h
      exact (descriptive cc s).dodfile (d := ⟨s, []⟩) file (.refl s)
  | i | r | s | x | bad =>
    obtain rfl := Option.some.inj h
    exact .of_same ⟨rfl, rfl, rfl⟩ rfl rfl rfl
  | w =>
    obtain rfl := Option.some.inj h
    have hset : ∀ (u : Ld) (i : ℕ) (typ : Byte), Flagged u (u.set_segtyp i typ) := fun u i typ =>
      .update ⟨rfl, rfl, rfl⟩ rfl rfl rfl rfl
    exact (((hset s _ _).trans (hset _ _ _)).trans (hset _ _ _)).trans (hset _ _ _)
  | t l =>
    obtain rfl := Option.some.inj h
    unfold Ld.setstack
    dsimp only
    have heven : (if l % 2 = 1 then l + 1 else l) % 2 = 0 := by
      split_ifs <;> omega
    generalize (if l % 2 = 1 then l + 1 else l) = k at heven
    split_ifs
    · exact .of_same ⟨rfl, rfl, rfl⟩ rfl rfl rfl
    · refine ⟨⟨rfl, rfl, rfl⟩, rfl, fun _ => rfl, fun _ => ?_⟩
      change k.toNat % 2 = 0
      omega
  | u name =>
    rw [Ld.flag] at h
    rcases hl : s.look cc .symhash name with _ | ⟨u, _ | k⟩ <;> rw [hl] at h
    · cases h
    · obtain ⟨slot, rfl, -⟩ := look_none hl
      dsimp only at h
      obtain ⟨⟨v, n⟩, hi, hv⟩ := Option.bind_eq_some_iff.mp h
      obtain rfl := Option.some.inj hv
      unfold Ld.install at hi
      dsimp only at hi
      split_ifs at hi
      obtain ⟨rfl, rfl⟩ := Prod.mk.inj (Option.some.inj hi)
      exact .of_same ⟨rfl, rfl, rfl⟩ rfl rfl rfl
    · obtain ⟨rfl, -⟩ := look_some hl
      obtain rfl := Option.some.inj h
      exact .refl _

theorem pass0 {stray : Stray} {flags : List Flag} (h : Ld.pass0 cc stray flags = some s) :
    Flagged (Ld.initial stray) s := by
  refine foldlM_invariant (I := Flagged (Ld.initial stray)) h (.refl _) ?_
  intro f _ u u' hu hf
  exact hu.trans (flag hf)

end Flagged

/-! ## 6. The end of the pass -/

namespace Unnoted

theorem p1commons (h : s.p1commons = some t) : Unnoted s t := by
  unfold Ld.p1commons at h
  split_ifs at h
  · refine foldlM_invariant (I := Unnoted s) h (.refl s) ?_
    intro i _ u u' hu hi
    by_cases hc : Ld.IsCommon (u.symtab i)
    · obtain ⟨j, -, rfl⟩ := Ld.p1common_eq hi hc
      exact hu.trans ⟨rfl, rfl, rfl⟩
    · rw [Ld.p1common_of_not hi hc]
      exact hu
  · obtain rfl := Option.some.inj h
    exact .refl s

theorem p1stack (h : s.p1round.p1stack = some t) : Unnoted s t := by
  unfold Ld.p1stack at h
  split_ifs at h
  · rcases hf : s.p1round.findseg X_SG_STK (BitVec.ofNat 16 s.p1round.stacksiz) with _ | j <;> rw [hf] at h
    · cases h
    · obtain rfl := Option.some.inj h
      exact ⟨rfl, rfl, rfl⟩
  · obtain rfl := Option.some.inj h
    exact ⟨rfl, rfl, rfl⟩

end Unnoted

/-- What the table is after the first pass, and of which files. -/
theorem pass1_laidOut {stray : Stray} {flags : List Flag} {files : List Input} {v : Ld}
    (h0 : pass0 cc stray flags = some s) (h1 : s.pass1 cc files = some v) :
    LaidOut v 0 (s.p1log cc files.zipIdx) ∧
      (s.p1log cc files.zipIdx).map Prod.fst = List.range files.length := by
  have hbegin := (Flagged.pass0 h0).unnoted
  obtain ⟨t, u, ht, hu, hv⟩ := pass1_parts h1
  have hsame := (Unnoted.p1commons hu).trans (Unnoted.p1stack hv)
  have hfiles : files.zipIdx.map Prod.snd = List.range files.length := by
    rw [List.zipIdx_map_snd, List.range_eq_range']
  have hposndx : ∀ n, s.posndx n = 0 := fun n => congrFun hbegin.posndx n
  have hpostab : ∀ i, s.postab i = 0 := fun i => congrFun hbegin.postab i
  have hposmax : s.posmax = 0 := hbegin.posmax
  obtain ⟨hlaid, hfst, -, -⟩ := p1log_laidOut (hfiles ▸ List.nodup_range) (fun x _ => hposndx x.2)
    (fun i _ => hpostab i) ht
  rw [hposmax] at hlaid
  exact ⟨hlaid.of_unnoted hsame, hfst.trans hfiles⟩

end Ld

end Cpm8000.Linker
