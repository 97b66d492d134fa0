/-
# The lookaside table

`sylook` keeps the last thirty names that were looked up, with their addresses, on a list with the latest
first. A name that is on the list is answered from there. Otherwise the last entry of the list is given
the name at once, and its address when the chains have answered.

`Cached` says that the names on the list are those of their addresses, and is what a look-up keeps
(`Cached.sylook`). So `sylook` answers as the chains do: `lookups_faithful`, for as many names as there is
room for in the virtual memory.
-/
import Cpm8000.Asm.Symtab

namespace Cpm8000.Asm

open Cpm8000.Sys

/-! ## 1. The code -/

/-- The entries of `aspool`. -/
abbrev Aside := Fin 30

/-- The table in memory, and the lookaside table. -/
structure Look (n : ℕ) where
  syms : Syms n
  ashead : Option Aside
  as_lnk : Aside → Option Aside
  as_sym : Aside → BitVec 16
  as_str : Aside → List Byte

variable {n : ℕ}

/-- An empty table, with the pool as `aglocom.c` has it. -/
def Look.initial (n : ℕ) (hn : 0 < n) (file : ℕ → Byte) : Look n where
  syms := ⟨.pool n hn file, fun _ => 0⟩
  ashead := some 0
  as_lnk i := if h : i.val + 1 < 30 then some ⟨i.val + 1, h⟩ else none
  as_sym _ := 0
  as_str _ := List.replicate SYMSIZ 0

/-- `symcpy` to an array of a name. -/
def overlay (old s : List Byte) : List Byte := symcpy SYMSIZ s ++ old.drop (symcpy SYMSIZ s).length

def sylook (signed : Bool) (s : List Byte) (st : Look n) : Option (Look n × BitVec 16) :=
  match st.ashead with
  | none => none
  | some apt =>
    match scan st.as_lnk (fun i => decide (symcmp signed SYMSIZ (st.as_str i) s = 0)) 30 none apt with
    | none => none
    | some (lpt, apt) =>
      let front := toFront lpt apt (st.ashead, st.as_lnk)
      let st := { st with ashead := front.1, as_lnk := front.2 }
      if symcmp signed SYMSIZ (st.as_str apt) s = 0 then some (st, st.as_sym apt)
      else
        let st := { st with as_str := Function.update st.as_str apt (overlay (st.as_str apt) s) }
        (chain_look signed s st.syms).map fun r =>
          ({ st with syms := r.1, as_sym := Function.update st.as_sym apt r.2 }, r.2)

/-- The symbols of a source, looked up one after the other, and the addresses. -/
def lookAll (signed : Bool) (texts : List (List Byte)) (st : Look n) :
    Option (Look n × List (BitVec 16)) :=
  texts.foldlM (fun acc t => (sylook signed (tokstr t) acc.1).map fun r => (r.1, acc.2 ++ [r.2])) (st, [])

/-! ## 2. What is cached -/

/-- **The names on the list** are those of their addresses, but for entries that were not used yet. -/
structure Cached (st : Look n) (d : Dir) : Prop where
  chain : ∃ l : List Aside, Links st.as_lnk st.ashead l ∧ l.Nodup ∧ l.length = 30
  ended : ∀ i, Ended SYMSIZ (st.as_str i)
  hit : ∀ i, symcpy SYMSIZ (st.as_str i) = [0] ∨
    st.as_sym i ∈ d.entries ∧ d.key (st.as_sym i) = symcpy SYMSIZ (st.as_str i)

/-- A symbol has a name. -/
theorem symcpy_tokstr_ne {t : List Byte} (ht : Symbolic t) : symcpy SYMSIZ (tokstr t) ≠ [0] := by
  obtain ⟨hne, h0⟩ := ht
  cases t with
  | nil => exact absurd rfl hne
  | cons x t =>
    rw [List.mem_cons, not_or] at h0
    have hcons : symcpy SYMSIZ (tokstr (x :: t)) = x :: symcpy 7 (t.take 7 ++ [0]) :=
      symcpy_cons (Ne.symm h0.1) 7 _
    intro h
    rw [hcons] at h
    exact h0.1 (List.cons.inj h).1.symm

namespace Cached

variable {signed : Bool} {st : Look n} {s : Stored} {d d' : Dir}

/-- More entries in the table. -/
theorem mono (h : Cached st d) {name : List Byte} {r : BitVec 16} (hd : d.Looks d' name r) : Cached st d' := by
  refine ⟨h.chain, h.ended, fun i => (h.hit i).imp_right fun ⟨hmem, hkey⟩ => ⟨?_, ?_⟩⟩
  · rcases hd.entries with ⟨-, rfl⟩ | ⟨-, hentries⟩
    · exact hmem
    · rw [hentries]
      exact List.mem_append_left _ hmem
  · rw [hd.same _ hmem]
    exact hkey

theorem initial (n : ℕ) (hn : 0 < n) (file : ℕ → Byte) (d : Dir) : Cached (Look.initial n hn file) d where
  chain := by
    refine ⟨List.finRange 30, ?_, List.nodup_finRange 30, List.length_finRange⟩
    simp only [Look.initial]
    decide
  ended _ := .inl rfl
  hit _ := .inl rfl

/-- The list after a move to the front. -/
theorem chain_front {p q : List Aside} {x : Aside} (hl : Links st.as_lnk st.ashead (p ++ x :: q))
    (hn : (p ++ x :: q).Nodup) (hlen : (p ++ x :: q).length = 30) :
    ∃ l : List Aside, Links (toFront (p.getLast?.or none) x (st.ashead, st.as_lnk)).2
      (toFront (p.getLast?.or none) x (st.ashead, st.as_lnk)).1 l ∧ l.Nodup ∧ l.length = 30 := by
  rw [Option.or_none]
  exact ⟨x :: (p ++ q), hl.toFront hn, List.nodup_middle.mp hn, List.perm_middle.length_eq.symm.trans hlen⟩

/-- **What a look-up keeps**, and that it answers as the chains do. -/
theorem sylook (hc : Cached st d) (h : Entered signed st.syms s d) {t : List Byte} (ht : Symbolic t)
    (hroom : (∀ a ∈ d.entries, d.key a ≠ symcpy SYMSIZ (tokstr t)) →
      FitsAt (evened st.syms.vm.virtop) SYTABSIZ) :
    ∃ st' r s' d', sylook signed (tokstr t) st = some (st', r) ∧
      (chain_look signed (tokstr t) st.syms).map Prod.snd = some r ∧ Entered signed st'.syms s' d' ∧
      Cached st' d' ∧ d.Looks d' (symcpy SYMSIZ (tokstr t)) r := by
  have hend := ended_tokstr t
  obtain ⟨syms', r, s', d', hlook, hent', hlooks⟩ := h.chain_look hend (hashed_symcpy ht) hroom
  obtain ⟨l, hl, hnodup, hlen⟩ := hc.chain
  unfold Asm.sylook
  cases hhead : st.ashead with
  | none =>
    rw [hhead] at hl
    cases l with
    | nil => cases hlen
    | cons a l => cases hl.1
  | some apt =>
    rw [hhead] at hl
    obtain ⟨p, x, q, rfl, hscan, -, -⟩ := @scan_eq _ _ _
      (fun i => decide (symcmp signed SYMSIZ (st.as_str i) (tokstr t) = 0)) none apt hl
    rw [hlen] at hscan
    dsimp only
    rw [hscan]
    rw [← hhead] at hl ⊢
    have hfront := chain_front hl hnodup hlen
    by_cases hzero : symcmp signed SYMSIZ (st.as_str x) (tokstr t) = 0
    · -- a hit
      have hname := nameKey_inj.mp ((symcmp_eq_zero (hc.ended x) hend).mp hzero)
      obtain ⟨hmem, hkey⟩ : st.as_sym x ∈ d.entries ∧ d.key (st.as_sym x) = symcpy SYMSIZ (tokstr t) := by
        have hhit := hc.hit x
        rw [hname] at hhit
        exact hhit.resolve_left (symcpy_tokstr_ne ht)
      have hr : r = st.as_sym x := by
        rcases hlooks.entries with ⟨hin, rfl⟩ | ⟨hnone, -⟩
        · exact h.chained.key_inj hin hmem (hlooks.key.trans hkey.symm)
        · exact absurd hkey (hnone _ hmem)
      dsimp only
      rw [if_pos hzero, hlook, hr]
      exact ⟨_, _, s, d, rfl, rfl, h, ⟨hfront, hc.ended, hc.hit⟩, hmem, hkey, fun _ _ => rfl, .inl ⟨hmem, rfl⟩⟩
    · dsimp only
      rw [if_neg hzero, hlook]
      have hmono := hc.mono hlooks
      have hover : Ended SYMSIZ (overlay (st.as_str x) (tokstr t)) ∧
          symcpy SYMSIZ (overlay (st.as_str x) (tokstr t)) = symcpy SYMSIZ (tokstr t) := by
        obtain ⟨hcend, hccpy⟩ := symcpy_symcpy hend
        obtain ⟨happ, hcpy⟩ := ended_append hcend ((st.as_str x).drop (symcpy SYMSIZ (tokstr t)).length)
        exact ⟨happ, hcpy.trans hccpy⟩
      refine ⟨_, r, s', d', rfl, rfl, hent', ⟨hfront, fun i => ?_, fun i => ?_⟩, hlooks⟩
      · dsimp only
        by_cases hi : i = x
        · rw [hi, Function.update_self]
          exact hover.1
        · rw [Function.update_of_ne hi]
          exact hc.ended i
      · dsimp only
        by_cases hi : i = x
        · rw [hi, Function.update_self, Function.update_self, hover.2]
          exact .inr ⟨hlooks.mem, hlooks.key⟩
        · rw [Function.update_of_ne hi, Function.update_of_ne hi]
          exact hmono.hit i

end Cached

/-! ## 3. Sequences of look-ups -/

/-- The different symbols of a source. -/
def symbols (texts : List (List Byte)) : Finset (List Byte) := (texts.map fun t => t.take SYMSIZ).toFinset

/-- **The look-up of `t` is as it should be**, when those before gave the answers: it answers as the
chains do, which have the name then; the address is that of the same symbol and of no other; and all
chains are in order. -/
def Faithful (signed : Bool) (st : Look n) (answers : List (List Byte × BitVec 16)) (t : List Byte) : Prop :=
  ∃ st' r, sylook signed (tokstr t) st = some (st', r) ∧
    (chain_look signed (tokstr t) st.syms).map Prod.snd = some r ∧
    find signed (tokstr t) st'.syms = some r ∧
    (∀ x ∈ answers, x.2 = r ↔ x.1.take SYMSIZ = t.take SYMSIZ) ∧
    ∀ h < 512, ∃ c, Chain st'.syms.vm (st'.syms.syhtab h) c ∧
      c.Pairwise fun x y => symcmp signed SYMSIZ x.2 y.2 < 0

/-- What is so after some look-ups: every answer is the entry of its symbol, and there are no others. -/
structure Answered (signed : Bool) (done : List (List Byte)) (rs : List (BitVec 16)) (st : Look n)
    (s : Stored) (d : Dir) : Prop where
  symbolic : ∀ t ∈ done, Symbolic t
  entered : Entered signed st.syms s d
  cached : Cached st d
  length : rs.length = done.length
  answers : ∀ x ∈ done.zip rs, x.2 ∈ d.entries ∧ d.key x.2 = symcpy SYMSIZ (tokstr x.1)
  present : ∀ t ∈ done, ∃ a ∈ d.entries, d.key a = symcpy SYMSIZ (tokstr t)
  asked : ∀ a ∈ d.entries, ∃ t ∈ done, d.key a = symcpy SYMSIZ (tokstr t)
  count : d.entries.length = (symbols done).card

theorem symbols_append (done : List (List Byte)) (t : List Byte) :
    symbols (done ++ [t]) = insert (t.take SYMSIZ) (symbols done) := by
  ext u
  simp [symbols]

theorem lookAll_append {signed : Bool} {done : List (List Byte)} {t : List Byte} {st₀ : Look n} :
    lookAll signed (done ++ [t]) st₀ = (lookAll signed done st₀).bind fun acc =>
      (sylook signed (tokstr t) acc.1).map fun r => (r.1, acc.2 ++ [r.2]) := by
  unfold lookAll
  rw [List.foldlM_append]
  congr 1
  funext acc
  rw [List.foldlM_cons]
  cases sylook signed (tokstr t) acc.1 <;> rfl

namespace Answered

variable {signed : Bool} {done : List (List Byte)} {rs : List (BitVec 16)} {st : Look n} {s : Stored} {d : Dir}

theorem nil (signed : Bool) (n : ℕ) (hn : 0 < n) (file : ℕ → Byte) : ∃ s d,
    Answered signed [] [] (Look.initial n hn file) s d := by
  refine ⟨fun _ => none, ⟨[], fun _ => [], fun _ => none, fun _ => []⟩, ?_⟩
  refine ⟨List.forall_mem_nil _, ⟨.pool hn file, ?_, ?_, List.forall_mem_nil _, rfl⟩, .initial n hn file _,
    rfl, List.forall_mem_nil _, List.forall_mem_nil _, List.forall_mem_nil _, rfl⟩
  · exact ⟨List.forall_mem_nil _, .nil, List.forall_mem_nil _, List.forall_mem_nil _, List.forall_mem_nil _⟩
  · exact ⟨fun _ _ => rfl, fun _ _ => rfl, fun _ _ => .nil, fun _ _ _ => by simp⟩

/-- A symbol was looked up before if and only if it has an entry. -/
theorem mem_symbols (h : Answered signed done rs st s d) {t : List Byte} (ht : Symbolic t) :
    t.take SYMSIZ ∈ symbols done ↔ ∃ a ∈ d.entries, d.key a = symcpy SYMSIZ (tokstr t) := by
  unfold symbols
  rw [List.mem_toFinset, List.mem_map]
  constructor
  · rintro ⟨u, hu, heq⟩
    obtain ⟨a, ha, hkey⟩ := h.present u hu
    exact ⟨a, ha, hkey.trans ((symcpy_tokstr_inj (h.symbolic u hu) ht).mpr heq)⟩
  · rintro ⟨a, ha, hkey⟩
    obtain ⟨u, hu, hkeyu⟩ := h.asked a ha
    exact ⟨u, hu, (symcpy_tokstr_inj (h.symbolic u hu) ht).mp (hkeyu.symm.trans hkey)⟩

/-- **One more look-up**, of a symbol that has an entry or for which there is room. -/
theorem step (h : Answered signed done rs st s d) {t : List Byte} (ht : Symbolic t)
    (hroom : (symbols (done ++ [t])).card ≤ 3176) :
    Faithful signed st (done.zip rs) t ∧ ∃ st' r s' d', sylook signed (tokstr t) st = some (st', r) ∧
      Answered signed (done ++ [t]) (rs ++ [r]) st' s' d' := by
  have hmem := h.mem_symbols ht
  rw [symbols_append] at hroom
  obtain ⟨st', r, s', d', hlook, hplain, hent, hcached, hlooks⟩ := h.cached.sylook h.entered ht fun hnone => by
    have hnew : t.take SYMSIZ ∉ symbols done := fun hin => by
      obtain ⟨a, ha, hkey⟩ := hmem.mp hin
      exact hnone a ha hkey
    rw [Finset.card_insert_of_notMem hnew] at hroom
    rw [h.entered.count, h.count]
    exact fitsAt_nextTop hroom
  have hsub : ∀ a ∈ d.entries, a ∈ d'.entries ∧ d'.key a = d.key a := by
    intro a ha
    refine ⟨?_, hlooks.same a ha⟩
    rcases hlooks.entries with ⟨-, rfl⟩ | ⟨-, hentries⟩
    · exact ha
    · rw [hentries]
      exact List.mem_append_left _ ha
  have hanswers : ∀ x ∈ done.zip rs, x.2 ∈ d'.entries ∧ d'.key x.2 = symcpy SYMSIZ (tokstr x.1) := by
    intro x hx
    obtain ⟨hin, hkey⟩ := h.answers x hx
    exact ⟨(hsub _ hin).1, (hsub _ hin).2.trans hkey⟩
  constructor
  · refine ⟨st', r, hlook, hplain, hent.find (ended_tokstr t) (hashed_symcpy ht) hlooks.mem hlooks.key,
      fun x hx => ?_, fun k hk => hent.shown hk⟩
    obtain ⟨hin, hkey⟩ := hanswers x hx
    rw [← symcpy_tokstr_inj (h.symbolic _ (List.of_mem_zip hx).1) ht, ← hkey, ← hlooks.key]
    exact ⟨fun heq => by rw [heq], fun heq => hent.chained.key_inj hin hlooks.mem heq⟩
  · refine ⟨st', r, s', d', hlook, ?_, hent, hcached, ?_, ?_, ?_, ?_, ?_⟩
    · exact List.forall_mem_append.mpr ⟨h.symbolic, List.forall_mem_singleton.mpr ht⟩
    · rw [List.length_append, List.length_append, h.length]
      rfl
    · rw [List.zip_append h.length.symm]
      exact List.forall_mem_append.mpr ⟨hanswers, List.forall_mem_singleton.mpr ⟨hlooks.mem, hlooks.key⟩⟩
    · refine List.forall_mem_append.mpr ⟨fun u hu => ?_, List.forall_mem_singleton.mpr
        ⟨r, hlooks.mem, hlooks.key⟩⟩
      obtain ⟨a, ha, hkey⟩ := h.present u hu
      exact ⟨a, (hsub a ha).1, (hsub a ha).2.trans hkey⟩
    · have hold : ∀ a ∈ d.entries, ∃ u ∈ done ++ [t], d'.key a = symcpy SYMSIZ (tokstr u) := by
        intro a ha
        obtain ⟨u, hu, hkey⟩ := h.asked a ha
        exact ⟨u, List.mem_append_left _ hu, (hsub a ha).2.trans hkey⟩
      rcases hlooks.entries with ⟨-, rfl⟩ | ⟨-, hentries⟩
      · exact hold
      · rw [hentries]
        refine List.forall_mem_append.mpr ⟨hold, List.forall_mem_singleton.mpr ⟨t, ?_, hlooks.key⟩⟩
        exact List.mem_append_right _ (List.mem_singleton_self t)
    · rw [symbols_append]
      rcases hlooks.entries with ⟨hin, rfl⟩ | ⟨hnone, hentries⟩
      · rw [Finset.insert_eq_of_mem (hmem.mpr ⟨r, hin, hlooks.key⟩)]
        exact h.count
      · have hnew : t.take SYMSIZ ∉ symbols done := fun hin => by
          obtain ⟨a, ha, hkey⟩ := hmem.mp hin
          exact hnone a ha hkey
        rw [Finset.card_insert_of_notMem hnew, hentries, List.length_append, h.count]
        rfl

/-- The entries are the answers. -/
theorem mem_entries (h : Answered signed done rs st s d) (a : BitVec 16) : a ∈ d.entries ↔ a ∈ rs := by
  have hsnd : (done.zip rs).map Prod.snd = rs := List.map_snd_zip h.length.le
  have hfst : (done.zip rs).map Prod.fst = done := List.map_fst_zip h.length.ge
  constructor
  · intro ha
    obtain ⟨t, ht, hkey⟩ := h.asked a ha
    obtain ⟨x, hx, rfl⟩ := List.mem_map.mp (hfst.symm ▸ ht)
    obtain ⟨hin, hkeyx⟩ := h.answers x hx
    rw [h.entered.chained.key_inj ha hin (hkey.trans hkeyx.symm), ← hsnd]
    exact List.mem_map_of_mem hx
  · intro ha
    obtain ⟨x, hx, rfl⟩ := List.mem_map.mp (hsnd.symm ▸ ha)
    exact (h.answers x hx).1

/-- The look-ups of a source with no more symbols than there is room for. -/
theorem run (n : ℕ) (hn : 0 < n) (file : ℕ → Byte) {texts : List (List Byte)}
    (htexts : ∀ t ∈ texts, Symbolic t) (hroom : (symbols texts).card ≤ 3176) : ∃ st rs s d,
      lookAll signed texts (Look.initial n hn file) = some (st, rs) ∧ Answered signed texts rs st s d := by
  induction texts using List.reverseRecOn with
  | nil =>
    obtain ⟨s, d, h⟩ := nil signed n hn file
    exact ⟨_, [], s, d, rfl, h⟩
  | append_singleton done t ih =>
    obtain ⟨hdone, ht⟩ := List.forall_mem_append.mp htexts
    have hle : (symbols done).card ≤ (symbols (done ++ [t])).card := by
      rw [symbols_append]
      exact Finset.card_le_card (Finset.subset_insert _ _)
    obtain ⟨st, rs, s, d, hrun, h⟩ := ih hdone (hle.trans hroom)
    obtain ⟨-, st', r, s', d', hlook, h'⟩ := h.step (List.forall_mem_singleton.mp ht) hroom
    refine ⟨st', rs ++ [r], s', d', ?_, h'⟩
    rw [lookAll_append, hrun, Option.bind_some, hlook]
    rfl

end Answered

/-- An answer is from the list or from the chains. -/
theorem sylook_cases {signed : Bool} {str : List Byte} {st st' : Look n} {r : BitVec 16}
    (h : sylook signed str st = some (st', r)) :
    (∃ i, symcmp signed SYMSIZ (st.as_str i) str = 0 ∧ r = st.as_sym i) ∨
      (chain_look signed str st.syms).map Prod.snd = some r := by
  unfold sylook at h
  split at h
  · cases h
  · split at h
    · cases h
    · rename_i apt _
      dsimp only at h
      split at h
      · exact .inl ⟨apt, ‹_›, (Prod.mk.inj (Option.some.inj h)).2.symm⟩
      · obtain ⟨x, hx, hr⟩ := Option.map_eq_some_iff.mp h
        refine .inr ?_
        rw [hx, ← (Prod.mk.inj hr).2]
        rfl

/-- **The first symbol for which there is no room** is given address zero. -/
theorem zero_mem_of_card {signed : Bool} {n : ℕ} {hn : 0 < n} {file : ℕ → Byte}
    {texts : List (List Byte)} (htexts : ∀ t ∈ texts, Symbolic t) (hcard : 3176 < (symbols texts).card)
    {st : Look n} {rs : List (BitVec 16)}
    (hrun : lookAll signed texts (Look.initial n hn file) = some (st, rs)) : 0 ∈ rs := by
  induction texts using List.reverseRecOn generalizing st rs with
  | nil => exact absurd hcard (Nat.not_lt_zero _)
  | append_singleton done t ih =>
    obtain ⟨hdone, ht⟩ := List.forall_mem_append.mp htexts
    have ht := List.forall_mem_singleton.mp ht
    rw [lookAll_append] at hrun
    obtain ⟨⟨st₁, rs₁⟩, hrun₁, hlast⟩ := Option.bind_eq_some_iff.mp hrun
    obtain ⟨⟨st₂, r⟩, hlook, hr⟩ := Option.map_eq_some_iff.mp hlast
    obtain ⟨rfl, rfl⟩ := Prod.mk.inj hr
    by_cases hle : (symbols done).card ≤ 3176
    · rw [symbols_append] at hcard
      have hnew : t.take SYMSIZ ∉ symbols done := fun hin => by
        rw [Finset.insert_eq_of_mem hin] at hcard
        omega
      rw [Finset.card_insert_of_notMem hnew] at hcard
      have hfullcard : (symbols done).card = 3176 := by omega
      obtain ⟨st₀, rs₀, s, d, hrun₀, hans⟩ := @Answered.run signed n hn file done hdone hle
      obtain ⟨rfl, rfl⟩ := Prod.mk.inj (Option.some.inj (hrun₀.symm.trans hrun₁))
      have hnone : ∀ a ∈ d.entries, d.key a ≠ symcpy SYMSIZ (tokstr t) := fun a ha hkey =>
        hnew ((hans.mem_symbols ht).mpr ⟨a, ha, hkey⟩)
      have hfull : ¬ FitsAt (evened st₀.syms.vm.virtop) SYTABSIZ := by
        rw [hans.entered.count, hans.count, hfullcard]
        exact not_fitsAt_full
      have hzero : r = 0 := by
        rcases sylook_cases hlook with ⟨i, hi, -⟩ | hplain
        · -- the list has no name that was not looked up
          have hname := nameKey_inj.mp ((symcmp_eq_zero (hans.cached.ended i) (ended_tokstr t)).mp hi)
          have hhit := hans.cached.hit i
          rw [hname] at hhit
          obtain ⟨hmem, hkey⟩ := hhit.resolve_left (symcpy_tokstr_ne ht)
          exact absurd hkey (hnone _ hmem)
        · exact hans.entered.chain_look_full (ended_tokstr t) (hashed_symcpy ht) hnone hfull hplain
      rw [hzero]
      exact List.mem_append_right _ (List.mem_singleton_self 0)
    · exact List.mem_append_left _ (ih hdone (by omega) hrun₁)

/-- **A source with more symbols than there is room for** is not looked up faithfully: the first for which
there is none is given address zero, which no search finds. -/
theorem card_le_of_faithful (signed : Bool) (n : ℕ) (hn : 0 < n) (file : ℕ → Byte)
    {texts : List (List Byte)} (htexts : ∀ t ∈ texts, Symbolic t)
    (h : ∀ done t, done ++ [t] <+: texts → ∃ st rs,
      lookAll signed done (Look.initial n hn file) = some (st, rs) ∧ Faithful signed st (done.zip rs) t) :
    (symbols texts).card ≤ 3176 := by
  induction texts using List.reverseRecOn with
  | nil => exact Nat.zero_le _
  | append_singleton done t ih =>
    obtain ⟨hdone, ht⟩ := List.forall_mem_append.mp htexts
    have ht := List.forall_mem_singleton.mp ht
    have hle := ih hdone fun first u hpre => h first u (hpre.trans (List.prefix_append done [t]))
    rw [symbols_append]
    by_contra hmore
    have hnew : t.take SYMSIZ ∉ symbols done := fun hin => by
      rw [Finset.insert_eq_of_mem hin] at hmore
      exact hmore hle
    rw [Finset.card_insert_of_notMem hnew] at hmore
    have hcard : (symbols done).card = 3176 := by omega
    obtain ⟨st, rs, s, d, hrun, hans⟩ := @Answered.run signed n hn file done hdone hle
    obtain ⟨st₁, rs₁, hrun₁, st', r, -, hplain, hfind, -⟩ := h done t (List.prefix_refl _)
    obtain ⟨rfl, rfl⟩ := Prod.mk.inj (Option.some.inj (hrun.symm.trans hrun₁))
    have hfull : ¬ FitsAt (evened st.syms.vm.virtop) SYTABSIZ := by
      rw [hans.entered.count, hans.count, hcard]
      exact not_fitsAt_full
    have hnone : ∀ a ∈ d.entries, d.key a ≠ symcpy SYMSIZ (tokstr t) := fun a ha hkey =>
      hnew ((hans.mem_symbols ht).mpr ⟨a, ha, hkey⟩)
    exact find_ne_zero hfind
      (hans.entered.chain_look_full (ended_tokstr t) (hashed_symcpy ht) hnone hfull hplain)

/-- **The lookaside table makes no difference**, for any pool: every look-up of a source answers as the
chains alone do, with an address for each symbol, and keeps the chains in order, if and only if the source
has no more symbols than there is room for. -/
theorem lookups_faithful (signed : Bool) (n : ℕ) (hn : 0 < n) (file : ℕ → Byte) (texts : List (List Byte))
    (htexts : ∀ t ∈ texts, Symbolic t) :
    (∀ done t, done ++ [t] <+: texts → ∃ st rs,
      lookAll signed done (Look.initial n hn file) = some (st, rs) ∧ rs.length = done.length ∧
        Faithful signed st (done.zip rs) t) ↔
      (symbols texts).card ≤ 3176 := by
  constructor
  · intro h
    refine card_le_of_faithful signed n hn file htexts fun done t hpre => ?_
    obtain ⟨st, rs, hrun, -, hf⟩ := h done t hpre
    exact ⟨st, rs, hrun, hf⟩
  · rintro hroom done t ⟨rest, rfl⟩
    obtain ⟨hfirst, -⟩ := List.forall_mem_append.mp htexts
    obtain ⟨hdone, ht⟩ := List.forall_mem_append.mp hfirst
    have hsub (us vs : List (List Byte)) : (symbols us).card ≤ (symbols (us ++ vs)).card := by
      refine Finset.card_le_card fun u hu => ?_
      unfold symbols at hu ⊢
      rw [List.map_append, List.toFinset_append]
      exact Finset.mem_union_left _ hu
    have hle := (hsub (done ++ [t]) rest).trans hroom
    obtain ⟨st, rs, s, d, hrun, hans⟩ := @Answered.run signed n hn file done hdone ((hsub done [t]).trans hle)
    exact ⟨st, rs, hrun, hans.length, (hans.step (List.forall_mem_singleton.mp ht) hle).1⟩

/-- `a`, `b`, `a` again. -/
theorem lookups_faithful_few :
    (∀ done t, done ++ [t] <+: [[97], [98], [97]] → ∃ st rs,
      lookAll true done (Look.initial 12 (by decide) fun _ => 0) = some (st, rs) ∧ rs.length = done.length ∧
        Faithful true st (done.zip rs) t) ↔
      (symbols [[97], [98], [97]]).card ≤ 3176 :=
  lookups_faithful true 12 (by decide) (fun _ => 0) [[97], [98], [97]] fun t ht => by
    simp only [List.mem_cons, List.not_mem_nil, or_false] at ht
    rcases ht with rfl | rfl | rfl <;> exact ⟨by decide, by decide⟩

/-- Three letters for a number. -/
def letters (i : ℕ) : List Byte :=
  [BitVec.ofNat 8 (97 + i / 676 % 26), BitVec.ofNat 8 (97 + i / 26 % 26), BitVec.ofNat 8 (97 + i % 26)]

theorem toNat_letter {x : ℕ} (hx : x < 26) : (BitVec.ofNat 8 (97 + x)).toNat = 97 + x := by
  rw [BitVec.toNat_ofNat]
  omega

theorem symbolic_letters {k : ℕ} : ∀ t ∈ (List.range k).map letters, Symbolic t := by
  intro t ht
  obtain ⟨i, -, rfl⟩ := List.mem_map.mp ht
  refine ⟨List.cons_ne_nil _ _, fun h0 => ?_⟩
  unfold letters at h0
  simp only [List.mem_cons, List.not_mem_nil, or_false, ← BitVec.toNat_inj] at h0
  rw [toNat_letter (Nat.mod_lt _ (by decide)), toNat_letter (Nat.mod_lt _ (by decide)),
    toNat_letter (Nat.mod_lt _ (by decide))] at h0
  have hzero : (0 : BitVec 8).toNat = 0 := rfl
  omega

/-- They are different. -/
theorem card_letters {k : ℕ} (hk : k ≤ 17576) : (symbols ((List.range k).map letters)).card = k := by
  unfold symbols
  rw [List.map_map, List.toFinset_card_of_nodup, List.length_map, List.length_range]
  refine List.Nodup.map_on ?_ List.nodup_range
  intro i hi j hj hij
  rw [List.mem_range] at hi hj
  have hij : letters i = letters j := hij
  unfold letters at hij
  simp only [List.cons.injEq, ← BitVec.toNat_inj] at hij
  obtain ⟨h2, h1, h0, -⟩ := hij
  rw [toNat_letter (Nat.mod_lt _ (by decide)), toNat_letter (Nat.mod_lt _ (by decide))] at h0 h1 h2
  omega

/-- The 3177 symbols `aaa`, `aab` and so on. -/
theorem lookups_overrun : ¬ ∀ done t, done ++ [t] <+: (List.range 3177).map letters → ∃ st rs,
    lookAll true done (Look.initial 12 (by decide) fun _ => 0) = some (st, rs) ∧ rs.length = done.length ∧
      Faithful true st (done.zip rs) t := by
  intro h
  have hle := card_le_of_faithful true 12 (by decide) (fun _ => 0) symbolic_letters fun done t hpre => by
    obtain ⟨st, rs, hrun, -, hf⟩ := h done t hpre
    exact ⟨st, rs, hrun, hf⟩
  rw [card_letters (by decide)] at hle
  exact absurd hle (by decide)

end Cpm8000.Asm
