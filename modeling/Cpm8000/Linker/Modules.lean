/-
# The modules of a link

Whatever files and libraries the first pass goes through, what it does to the tables of segments and of
symbols is to load one module after the other: `p1files_loads`. Other claims about the first pass are
about such sequences of loads.
-/
import Cpm8000.Linker.Pass1

namespace Cpm8000.Linker

open Sys

namespace Ld

variable {cc : Compiler} {s s' t t' : Ld}

/-! ## 1. What is not a load -/

/-- The state but for what the choice of modules and the count of errors are kept in. -/
def Quiet (s s' : Ld) : Prop :=
  ∃ hpos seg nonseg errcnt posndx postab posmax, s' =
    { s with
      hpos := hpos
      seg := seg
      nonseg := nonseg
      errcnt := errcnt
      posndx := posndx
      postab := postab
      posmax := posmax }

namespace Quiet

theorem refl (s : Ld) : Quiet s s := ⟨_, _, _, _, _, _, _, rfl⟩

theorem trans (h : Quiet s t) (h' : Quiet t t') : Quiet s t' := by
  obtain ⟨_, _, _, _, _, _, _, rfl⟩ := h
  obtain ⟨_, _, _, _, _, _, _, rfl⟩ := h'
  exact ⟨_, _, _, _, _, _, _, rfl⟩

theorem err (s : Ld) : Quiet s s.err := ⟨_, _, _, _, _, _, _, rfl⟩

end Quiet

theorem look_quiet {h : Htab} {name : List Byte} {r : Option ℕ} (hl : s.look cc h name = some (t, r)) :
    Quiet s t := by
  unfold look at hl
  split at hl
  · obtain ⟨rfl, -⟩ := Prod.mk.inj (Option.some.inj hl)
    exact .refl s
  · obtain ⟨rfl, -⟩ := Prod.mk.inj (Option.some.inj hl)
    exact ⟨_, _, _, _, _, _, _, rfl⟩
  · cases hl

theorem trysim_loop_quiet {l : List XSym} {r : Bool} (h : s.trysim_loop cc l = some (t, r)) :
    Quiet s t := by
  induction l generalizing s with
  | nil =>
    obtain ⟨rfl, -⟩ := Prod.mk.inj (Option.some.inj h)
    exact .refl s
  | cons y l ih =>
    rw [trysim_loop] at h
    split_ifs at h with hy
    · rcases hl : s.look cc .symhash y.x_sy_name with _ | ⟨s', _ | k⟩ <;> rw [hl] at h
      · cases h
      · exact (look_quiet hl).trans (ih h)
      · dsimp only at h
        split_ifs at h
        · obtain ⟨rfl, -⟩ := Prod.mk.inj (Option.some.inj h)
          exact look_quiet hl
        · exact (look_quiet hl).trans (ih h)
    · exact ih h

theorem trysim_quiet {f : XFile} {r : Bool} (h : s.trysim cc f = some (t, r)) : Quiet s t := by
  unfold trysim at h
  split_ifs at h
  · obtain ⟨rfl, -⟩ := Prod.mk.inj (Option.some.inj h)
    exact .refl s
  · obtain ⟨rfl, -⟩ := Prod.mk.inj (Option.some.inj h)
    exact .refl s
  · exact trysim_loop_quiet h

/-! ## 2. Loads -/

/-- **A sequence of loads**, the last one outermost: the modules, and the state each was loaded in. -/
inductive Loads (cc : Compiler) (s : Ld) : List (Ld × XFile) → Ld → Prop
  | nil : Loads cc s [] s
  | quiet {l : List (Ld × XFile)} {t t' : Ld} : Loads cc s l t → Quiet t t' → Loads cc s l t'
  | load {l : List (Ld × XFile)} {t t' : Ld} {f : XFile} : Loads cc s l t →
      t.p1module cc f = some t' → Loads cc s (l ++ [(t, f)]) t'

theorem Loads.append {l l' : List (Ld × XFile)} (h : Loads cc s l t) (h' : Loads cc t l' t') :
    Loads cc s (l ++ l') t' := by
  induction h' with
  | nil =>
    rw [List.append_nil]
    exact h
  | quiet _ hq ih => exact ih.quiet hq
  | load _ hm ih =>
    rw [← List.append_assoc]
    exact ih.load hm

/-- Every module of a sequence is loaded by a shorter one. -/
theorem Loads.before {l : List (Ld × XFile)} (h : Loads cc s l t) {x : Ld × XFile} (hx : x ∈ l) :
    ∃ l', Loads cc s l' x.1 := by
  induction h with
  | nil => cases hx
  | quiet _ _ ih => exact ih hx
  | @load l u u' f hl _ ih =>
    rcases List.mem_append.mp hx with hx | hx
    · exact ih hx
    · rw [List.mem_singleton] at hx
      rw [hx]
      exact ⟨l, hl⟩

/-- What a load keeps, and what is kept by other changes, every sequence of loads keeps. -/
theorem Loads.invariant {I : Ld → Prop} {l : List (Ld × XFile)} (h : Loads cc s l t) (hs : I s)
    (hquiet : ∀ t t', Quiet t t' → I t → I t')
    (hload : ∀ t f t', (t, f) ∈ l → I t → t.p1module cc f = some t' → I t') : I t := by
  induction h with
  | nil => exact hs
  | quiet _ hq ih => exact hquiet _ _ hq (ih hload)
  | load _ hm ih =>
    refine hload _ _ _ (by simp) (ih ?_) hm
    exact fun u f u' hmem => hload u f u' (List.mem_append_left _ hmem)

theorem p1load_loads {f : XFile} (h : s.p1load cc f = some t) : ∃ l, Loads cc s l t := by
  unfold p1load at h
  split_ifs at h
  · obtain rfl := Option.some.inj h
    exact ⟨[], .quiet .nil (.err s)⟩
  · obtain rfl := Option.some.inj h
    exact ⟨[], .quiet .nil (.err s)⟩
  · exact ⟨_, .load (.quiet .nil ⟨_, _, _, _, _, _, _, rfl⟩) h⟩
  · obtain rfl := Option.some.inj h
    exact ⟨[], .quiet .nil (.err s)⟩
  · exact ⟨_, .load (.quiet .nil ⟨_, _, _, _, _, _, _, rfl⟩) h⟩

theorem p1archive_loads {n fpos : ℕ} {ms : List Member} (h : p1archive cc n s fpos ms = some t) :
    ∃ l, Loads cc s l t := by
  induction ms generalizing s fpos with
  | nil =>
    rw [p1archive] at h
    obtain rfl := Option.some.inj h
    refine ⟨[], .quiet .nil ?_⟩
    split_ifs
    · exact ⟨_, _, _, _, _, _, _, rfl⟩
    · exact .refl s
  | cons m ms ih =>
    rw [p1archive] at h
    rcases ht : s.trysim cc m.file with _ | ⟨s', _ | _⟩ <;> rw [ht] at h
    · cases h
    · obtain ⟨l, hl⟩ := ih h
      exact ⟨[] ++ l, (Loads.quiet .nil (trysim_quiet ht)).append hl⟩
    · dsimp only at h
      split at h
      · cases h
      · rename_i u hu
        obtain ⟨l, hl⟩ := p1load_loads hu
        have hbegin : Loads cc s ([] ++ l) u :=
          (Loads.quiet .nil ((trysim_quiet ht).trans ⟨_, _, _, _, _, _, _, rfl⟩)).append hl
        split_ifs at h
        · obtain rfl := Option.some.inj h
          exact ⟨_, hbegin⟩
        · obtain ⟨l', hl'⟩ := ih h
          exact ⟨_, hbegin.append hl'⟩

theorem p1entry_loads {n : ℕ} {file : Input} (h : s.p1entry cc n file = some t) :
    ∃ l, Loads cc s l t := by
  cases file with
  | unreadable =>
    obtain rfl := Option.some.inj h
    exact ⟨[], .quiet .nil (.err s)⟩
  | object f =>
    rw [p1entry] at h
    split_ifs at h
    obtain ⟨l, hl⟩ := p1load_loads h
    exact ⟨[] ++ l, (Loads.quiet .nil ⟨_, _, _, _, _, _, _, rfl⟩).append hl⟩
  | archive ms =>
    rw [p1entry] at h
    split_ifs at h
    · obtain rfl := Option.some.inj h
      exact ⟨[], .nil⟩
    · exact p1archive_loads h

/-- **The first pass over the files is a sequence of loads.** -/
theorem p1files_loads {files : List Input} (h : s.p1files cc files = some t) : ∃ l, Loads cc s l t := by
  unfold p1files at h
  generalize files.zipIdx = l at h
  induction l generalizing s with
  | nil =>
    obtain rfl := Option.some.inj h
    exact ⟨[], .nil⟩
  | cons x l ih =>
    rw [List.foldlM_cons] at h
    obtain ⟨u, hu, hrest⟩ := Option.bind_eq_some_iff.mp h
    obtain ⟨k, hk⟩ := p1entry_loads hu
    obtain ⟨k', hk'⟩ := ih hrest
    exact ⟨k ++ k', hk.append hk'⟩

/-! ## 3. One object -/

/-- The state a non-segmented object is loaded in, as the first file. -/
def opened (s : Ld) : Ld := { s with posndx := Function.update s.posndx 0 (-1), nonseg := true }

theorem p1files_single {f : XFile} (hseg : s.seg = false) (hmagic : f.x_magic = X_NU_MAGIC)
    (hroom : s.symread f = true) : s.p1files cc [.object f] = s.opened.p1module cc f := by
  have hbind : s.p1files cc [.object f] = (s.p1entry cc 0 (.object f)).bind some := rfl
  have hload : ({ s with posndx := Function.update s.posndx 0 (-1) } : Ld).p1load cc f =
      s.opened.p1module cc f := by
    unfold p1load
    dsimp only
    have hnot : ¬ s.seg = true := by
      rw [hseg]
      decide
    rw [hmagic, if_neg (by decide), if_neg (by decide), if_neg hnot]
    rfl
  rw [hbind, Option.bind_fun_some, p1entry, if_pos hroom, hload]

theorem loads_single {f : XFile} (h : s.opened.p1module cc f = some t) :
    Loads cc s [(s.opened, f)] t := .load (.quiet .nil ⟨_, _, _, _, _, _, _, rfl⟩) h

end Ld

end Cpm8000.Linker
