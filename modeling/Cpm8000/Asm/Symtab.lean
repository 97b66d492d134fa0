/-
# The symbol table in memory

An entry of the symbol table lies in the virtual memory, and `syhtab` leads to chains of entries, which
are in the order of their names. `chain_look` is `sylook` behind the lookaside table: it goes along the
chain of a name, and puts a new entry where the name would have been.

`Laid` says that the memory has the entries: where they are, their names, and their links. `Chained` says
what the links make of them. `search_laid` is where the loop stops, and `Kept.chain_look` what a look-up
keeps, as long as there is room for a new entry.
-/
import Cpm8000.Asm.Fields
import Cpm8000.Asm.Names

namespace Cpm8000.Asm

open Cpm8000.Sys

/-! ## 1. The code -/

def SY_LNK : ℕ := 0
def SY_XLK : ℕ := 2
def SY_VAL : ℕ := 4
def SY_TYP : ℕ := 10
def SY_ATR : ℕ := 11
def SY_STR : ℕ := 12

/-- More than there are addresses: a loop along a chain that takes so many steps does not end. -/
def LOOPS : ℕ := 65537

/-- A list of addresses, none of them twice. -/
theorem length_lt_loops {l : List (BitVec 16)} (h : l.Nodup) : l.length < LOOPS := by
  have hnodup := h.map fun (a b : BitVec 16) hab => BitVec.eq_of_toNat_eq hab
  have hsub : l.map BitVec.toNat ⊆ List.range 65536 := by
    intro x hx
    obtain ⟨a, -, rfl⟩ := List.mem_map.mp hx
    exact List.mem_range.mpr a.isLt
  have hle := (List.subperm_of_subset hnodup hsub).length_le
  rw [List.length_map, List.length_range] at hle
  unfold LOOPS
  omega

/-- The memory and the hash table. -/
structure Syms (n : ℕ) where
  vm : Vm n
  syhtab : ℕ → BitVec 16

variable {n : ℕ}

def Vm.sy_lnk (vm : Vm n) (p : Vm.Ptr n) : BitVec 16 := vm.word p SY_LNK

def Vm.sy_str (vm : Vm n) (p : Vm.Ptr n) : List Byte :=
  (List.range SYMSIZ).map fun k => vm.byte p (SY_STR + k)

/-- The loop along a chain, from `q` on: the last `p` and `q`, and whether `q` is there and `cmp` zero. -/
def search (signed : Bool) (s : List Byte) : ℕ → Vm n → BitVec 16 → BitVec 16 →
    Option (Vm n × BitVec 16 × BitVec 16 × Bool)
  | 0, _, _, _ => none
  | fuel + 1, vm, p, q =>
    if q = 0 then some (vm, p, q, false)
    else
      match vm.rfetch q with
      | none => none
      | some (vm, qp) =>
        let cmp := symcmp signed SYMSIZ s (vm.sy_str qp)
        if cmp > 0 then search signed s fuel vm q (vm.sy_lnk qp) else some (vm, p, q, decide (cmp = 0))

/-- What is stored in a new entry, in this order; `sy_rel` is not. -/
def newFields (s : List Byte) (q : BitVec 16) : List (ℕ × List Byte) :=
  [(SY_STR, symcpy SYMSIZ s), (SY_VAL, [0, 0, 0, 0]), (SY_XLK, [0, 0]), (SY_ATR, [0]), (SY_TYP, [0]),
    (SY_LNK, be16 q)]

/-- "Add a new entry to the table." -/
def newsym (s : List Byte) (h : ℕ) (p q : BitVec 16) (st : Syms n) : Option (Syms n × BitVec 16) :=
  let (vm, r) := { st.vm with virtop := evened st.vm.virtop }.valloc SYTABSIZ
  match vm.wfetch r with
  | none => none
  | some (vm, rp) =>
    let vm := vm.setAll rp (newFields s q)
    if p ≠ 0 then (vm.wfetch p).map fun r' => (⟨r'.1.set r'.2 SY_LNK (be16 r), st.syhtab⟩, r)
    else some (⟨vm, Function.update st.syhtab h r⟩, r)

/-- The part of `sylook` behind the lookaside table. -/
def chain_look (signed : Bool) (s : List Byte) (st : Syms n) : Option (Syms n × BitVec 16) :=
  let h := hashed signed s
  (search signed s LOOPS st.vm 0 (st.syhtab h)).bind fun (vm, p, q, found) =>
    if found then some ({ st with vm := vm }, q) else newsym s h p q { st with vm := vm }

/-- A search along the chain of a name, and no more. -/
def find (signed : Bool) (s : List Byte) (st : Syms n) : Option (BitVec 16) :=
  (search signed s LOOPS st.vm 0 (st.syhtab (hashed signed s))).bind fun (_, _, q, found) =>
    if found then some q else none

/-! ## 2. Entries in memory -/

/-- What the table is to hold: where its entries are, in the order in which they were added, their names
and links, and the chains. -/
structure Dir where
  entries : List (BitVec 16)
  key : BitVec 16 → List Byte
  lnk : BitVec 16 → Option (BitVec 16)
  chain : ℕ → List (BitVec 16)

/-- No byte is in both entries. -/
def Separate (a b : BitVec 16) : Prop := a.toNat + 20 ≤ b.toNat ∨ b.toNat + 20 ≤ a.toNat

instance : Std.Symm Separate := ⟨fun _ _ h => h.symm⟩

/-- **The memory has the entries.** -/
structure Laid (d : Dir) (s : Stored) : Prop where
  place : ∀ a ∈ d.entries, a ≠ 0 ∧ a.toNat % 512 + 20 ≤ 512
  apart : d.entries.Pairwise Separate
  name : ∀ a ∈ d.entries, Ended SYMSIZ (d.key a) ∧ symcpy SYMSIZ (d.key a) = d.key a
  str : ∀ a ∈ d.entries, HoldsAt s (a.toNat + SY_STR) (d.key a)
  link : ∀ a ∈ d.entries, HoldsAt s (a.toNat + SY_LNK) (be16 ((d.lnk a).getD 0))

namespace Laid

variable {d : Dir} {s : Stored} {vm : Vm n} {p : Vm.Ptr n} {a : BitVec 16}

theorem length_key (h : Laid d s) (ha : a ∈ d.entries) : (d.key a).length ≤ SYMSIZ := by
  rw [← (h.name a ha).2]
  exact length_symcpy_le SYMSIZ _

theorem nodup (h : Laid d s) : d.entries.Nodup := by
  refine h.apart.imp fun {a b} hab => ?_
  rintro rfl
  unfold Separate at hab
  omega

/-- **What is read of an entry**, through a pointer that addresses it. -/
theorem read (h : Laid d s) (hp : Paged vm s) (ha : a ∈ d.entries) (hat : At vm p a) :
    vm.sy_lnk p = (d.lnk a).getD 0 ∧ Ended SYMSIZ (vm.sy_str p) ∧
      symcpy SYMSIZ (vm.sy_str p) = d.key a := by
  obtain ⟨-, hblock⟩ := h.place a ha
  obtain ⟨hend, hcpy⟩ := h.name a ha
  have hlen := h.length_key ha
  have hsplit : vm.sy_str p = d.key a ++ (vm.sy_str p).drop (d.key a).length := by
    have htake : (vm.sy_str p).take (d.key a).length = d.key a := by
      refine List.ext_getElem ?_ fun k hk hk' => ?_
      · rw [List.length_take, Vm.sy_str, List.length_map, List.length_range]
        exact min_eq_left hlen
      · have hread := hp.byte hat (h.str a ha) hk' (by unfold SY_STR SYMSIZ at *; omega)
        simpa [Vm.sy_str] using hread
    conv_lhs => rw [← List.take_append_drop (d.key a).length (vm.sy_str p), htake]
  refine ⟨hp.word hat (h.link a ha) (by unfold SY_LNK; omega), ?_, ?_⟩
  · rw [hsplit]
    exact (ended_append hend _).1
  · rw [hsplit, (ended_append hend _).2, hcpy]

/-- How a string compares to the name of an entry. -/
theorem symcmp_read (h : Laid d s) (hp : Paged vm s) (ha : a ∈ d.entries) (hat : At vm p a)
    (signed : Bool) {str : List Byte} (hstr : Ended SYMSIZ str) :
    (0 < symcmp signed SYMSIZ str (vm.sy_str p) ↔ nameKey signed (d.key a) < nameKey signed str) ∧
      (symcmp signed SYMSIZ str (vm.sy_str p) = 0 ↔ nameKey signed (d.key a) = nameKey signed str) := by
  obtain ⟨-, hend, hcpy⟩ := h.read hp ha hat
  have hkey : nameKey signed (vm.sy_str p) = nameKey signed (d.key a) := by
    rw [nameKey_inj, hcpy, (h.name a ha).2]
  rw [symcmp_pos hstr hend, symcmp_eq_zero hstr hend, hkey]
  exact ⟨Iff.rfl, eq_comm⟩

/-- **Where the loop along a chain stops**: behind the entries with smaller names. -/
theorem search_laid (h : Laid d s) {signed : Bool} {str : List Byte} (hstr : Ended SYMSIZ str)
    {fuel : ℕ} {l : List (BitVec 16)} (hfuel : l.length < fuel) (hp : Paged vm s)
    (hl : Links d.lnk l.head? l) (hmem : ∀ b ∈ l, b ∈ d.entries) (pb : BitVec 16) :
    ∃ vm' xs ys, l = xs ++ ys ∧ Paged vm' s ∧ vm'.virtop = vm.virtop ∧
      (∀ b ∈ xs, nameKey signed (d.key b) < nameKey signed str) ∧
      (∀ b ∈ ys.head?, ¬ nameKey signed (d.key b) < nameKey signed str) ∧
      search signed str fuel vm pb (l.head?.getD 0) = some (vm', xs.getLast?.getD pb, ys.head?.getD 0,
        decide (∃ b ∈ ys.head?, nameKey signed (d.key b) = nameKey signed str)) := by
  induction fuel generalizing l vm pb with
  | zero => exact absurd hfuel (Nat.not_lt_zero _)
  | succ fuel ih =>
    cases l with
    | nil => exact ⟨vm, [], [], rfl, hp, rfl, by simp, by simp, by simp [search]⟩
    | cons b l =>
      have hb := hmem b (List.mem_cons_self ..)
      have hne : b ≠ 0 := (h.place b hb).1
      obtain ⟨vm₁, qp, hget, hp₁, hat, htop⟩ := hp.rfetch b
      obtain ⟨hpos, hzero⟩ := h.symcmp_read hp₁ hb hat signed hstr
      obtain ⟨hlnk, -, -⟩ := h.read hp₁ hb hat
      rw [List.head?_cons, Option.getD_some, search, if_neg hne, hget]
      dsimp only
      by_cases hlt : nameKey signed (d.key b) < nameKey signed str
      · obtain ⟨-, htail⟩ := hl
        have hhead := htail.head
        rw [hhead] at htail
        obtain ⟨vm', xs, ys, rfl, hp', htop', hxs, hys, hrun⟩ := ih (Nat.lt_of_succ_lt_succ hfuel) hp₁ htail
          (fun c hc => hmem c (List.mem_cons_of_mem _ hc)) b
        refine ⟨vm', b :: xs, ys, rfl, hp', htop'.trans htop, ?_, hys, ?_⟩
        · rintro c hc
          rcases List.mem_cons.mp hc with rfl | hc
          · exact hlt
          · exact hxs c hc
        · rw [if_pos (hpos.mpr hlt), hlnk, hhead, hrun, List.getLast?_cons]
          rfl
      · refine ⟨vm₁, [], b :: l, rfl, hp₁, htop, by simp, ?_, ?_⟩
        · rintro c hc
          obtain rfl := Option.some.inj hc
          exact hlt
        · rw [if_neg (mt hpos.mp hlt)]
          simp [hzero]

/-- A record that lies elsewhere is stored. -/
theorem elsewhere (h : Laid d s) {r : BitVec 16} (hr : r.toNat % 512 + 20 ≤ 512)
    (hsep : ∀ b ∈ d.entries, Separate b r) {fields : List (ℕ × List Byte)}
    (hfields : ∀ f ∈ fields, f.1 < 20 ∧ f.1 + f.2.length ≤ 20) : Laid d (s.writeAll r fields) := by
  have hframe (b : BitVec 16) (hb : b ∈ d.entries) (off : ℕ) (l : List Byte) (hl : off + l.length ≤ 20)
      (hold : HoldsAt s (b.toNat + off) l) : HoldsAt (s.writeAll r fields) (b.toNat + off) l := by
    have hblock := (h.place b hb).2
    have hlt := b.isLt
    refine hold.frameAll (by omega) hr hfields fun f hf => ?_
    have hf' := hfields f hf
    have hmeet : b.toNat + 20 ≤ r.toNat ∨ r.toNat + 20 ≤ b.toNat := hsep b hb
    omega
  refine ⟨h.place, h.apart, h.name, fun b hb => ?_, fun b hb => ?_⟩
  · have hlen := h.length_key hb
    exact hframe b hb _ _ (by unfold SY_STR SYMSIZ at *; omega) (h.str b hb)
  · exact hframe b hb _ _ (by unfold SY_LNK; simp) (h.link b hb)

/-- **A link is stored.** -/
theorem relink (h : Laid d s) (ha : a ∈ d.entries) (x : Option (BitVec 16)) :
    Laid { d with lnk := Function.update d.lnk a x }
      (s.write (a + BitVec.ofNat 16 SY_LNK) (be16 (x.getD 0))) := by
  have hblock := (h.place a ha).2
  have hlink : a + BitVec.ofNat 16 SY_LNK = a := by simp [SY_LNK]
  rw [hlink]
  have hapart (b : BitVec 16) (hb : b ∈ d.entries) (hne : b ≠ a) : Separate b a :=
    h.apart.forall hb ha hne
  refine ⟨h.place, h.apart, h.name, fun b hb => ?_, fun b hb => ?_⟩
  · have hlen := h.length_key hb
    have hin := (h.place b hb).2
    have hlt := b.isLt
    dsimp only at hb ⊢
    refine (h.str b hb).frame (by unfold SY_STR SYMSIZ at *; omega) ?_
    rw [length_be16]
    by_cases hba : b = a
    · subst hba
      unfold SY_STR
      omega
    · have hmeet : b.toNat + 20 ≤ a.toNat ∨ a.toNat + 20 ≤ b.toNat := hapart b hb hba
      unfold SY_STR SYMSIZ at *
      omega
  · have hin := (h.place b hb).2
    have hlt := b.isLt
    dsimp only at hb ⊢
    by_cases hba : b = a
    · subst hba
      rw [Function.update_self]
      exact HoldsAt.write s (by rw [length_be16]; omega)
    · have hmeet : b.toNat + 20 ≤ a.toNat ∨ a.toNat + 20 ≤ b.toNat := hapart b hb hba
      rw [Function.update_of_ne hba]
      refine (h.link b hb).frame ?_ ?_
      · rw [length_be16]
        unfold SY_LNK
        omega
      · rw [length_be16, length_be16]
        unfold SY_LNK
        omega

/-- **An entry is new.** -/
theorem snoc (h : Laid d s) {r : BitVec 16} (hr : r ≠ 0 ∧ r.toNat % 512 + 20 ≤ 512)
    (hsep : ∀ b ∈ d.entries, Separate b r) {name : List Byte}
    (hname : Ended SYMSIZ name ∧ symcpy SYMSIZ name = name) (hstr : HoldsAt s (r.toNat + SY_STR) name)
    {x : Option (BitVec 16)} (hlink : HoldsAt s (r.toNat + SY_LNK) (be16 (x.getD 0)))
    (chain : ℕ → List (BitVec 16)) :
    Laid ⟨d.entries ++ [r], Function.update d.key r name, Function.update d.lnk r x, chain⟩ s := by
  have hnew : r ∉ d.entries := by
    intro hmem
    have hself : r.toNat + 20 ≤ r.toNat ∨ r.toNat + 20 ≤ r.toNat := hsep r hmem
    omega
  have hold (b : BitVec 16) (hb : b ∈ d.entries) : b ≠ r := fun hbr => hnew (hbr ▸ hb)
  have hall {P : BitVec 16 → Prop} (hentries : ∀ b ∈ d.entries, P b) (hlast : P r) :
      ∀ b ∈ d.entries ++ [r], P b := by
    intro b hb
    rcases List.mem_append.mp hb with hb | hb
    · exact hentries b hb
    · rw [List.mem_singleton.mp hb]
      exact hlast
  refine ⟨hall h.place hr, ?_, hall (fun b hb => ?_) ?_, hall (fun b hb => ?_) ?_,
    hall (fun b hb => ?_) ?_⟩
  · refine List.pairwise_append.mpr ⟨h.apart, List.pairwise_singleton _ _, fun b hb c hc => ?_⟩
    rw [List.mem_singleton.mp hc]
    exact hsep b hb
  · dsimp only
    rw [Function.update_of_ne (hold b hb)]
    exact h.name b hb
  · dsimp only
    rw [Function.update_self]
    exact hname
  · dsimp only
    rw [Function.update_of_ne (hold b hb)]
    exact h.str b hb
  · dsimp only
    rw [Function.update_self]
    exact hstr
  · dsimp only
    rw [Function.update_of_ne (hold b hb)]
    exact h.link b hb
  · dsimp only
    rw [Function.update_self]
    exact hlink

end Laid

/-! ## 3. Chains -/

/-- **The chains have the entries**, each that of its name's place, in the order of their names. -/
structure Chained (signed : Bool) (d : Dir) (syhtab : ℕ → BitVec 16) : Prop where
  head : ∀ h < 512, syhtab h = (d.chain h).head?.getD 0
  links : ∀ h < 512, Links d.lnk (d.chain h).head? (d.chain h)
  sorted : ∀ h < 512, (d.chain h).Pairwise fun a b => nameKey signed (d.key a) < nameKey signed (d.key b)
  mem : ∀ h < 512, ∀ a, a ∈ d.chain h ↔ a ∈ d.entries ∧ hashed signed (d.key a) = h

/-- An entry is put in a chain between `xs` and `ys`. -/
def Dir.add (d : Dir) (h : ℕ) (xs ys : List (BitVec 16)) (r : BitVec 16) (name : List Byte) : Dir where
  entries := d.entries ++ [r]
  key := Function.update d.key r name
  lnk := (setLink xs.getLast? (some r) (none, Function.update d.lnk r ys.head?)).2
  chain := Function.update d.chain h (xs ++ r :: ys)

namespace Chained

variable {signed : Bool} {d : Dir} {syhtab : ℕ → BitVec 16}

theorem nodup (h : Chained signed d syhtab) {k : ℕ} (hk : k < 512) : (d.chain k).Nodup :=
  (h.sorted k hk).imp fun {a b} hlt => by
    rintro rfl
    exact lt_irrefl _ hlt

/-- **Names tell entries.** -/
theorem key_inj (h : Chained signed d syhtab) {a b : BitVec 16} (ha : a ∈ d.entries) (hb : b ∈ d.entries)
    (hab : d.key a = d.key b) : a = b := by
  by_contra hne
  have hk := hashed_lt signed (d.key a)
  have hina := (h.mem _ hk a).mpr ⟨ha, rfl⟩
  have hinb := (h.mem _ hk b).mpr ⟨hb, by rw [hab]⟩
  have hlt : nameKey signed (d.key a) < nameKey signed (d.key b) ∨
      nameKey signed (d.key b) < nameKey signed (d.key a) := by
    have hsym : (d.chain (hashed signed (d.key a))).Pairwise fun x y =>
        nameKey signed (d.key x) < nameKey signed (d.key y) ∨
          nameKey signed (d.key y) < nameKey signed (d.key x) := (h.sorted _ hk).imp Or.inl
    have : Std.Symm fun x y => nameKey signed (d.key x) < nameKey signed (d.key y) ∨
        nameKey signed (d.key y) < nameKey signed (d.key x) := ⟨fun _ _ => Or.symm⟩
    exact hsym.forall hina hinb hne
  rw [hab] at hlt
  exact hlt.elim (lt_irrefl _) (lt_irrefl _)

/-- **An entry is added** where its name belongs. -/
theorem add (h : Chained signed d syhtab) {k : ℕ} (hk : k < 512) {xs ys : List (BitVec 16)}
    (hsplit : d.chain k = xs ++ ys) {r : BitVec 16} (hr : r ∉ d.entries) {name : List Byte}
    (hhash : hashed signed name = k) (hxs : ∀ b ∈ xs, nameKey signed (d.key b) < nameKey signed name)
    (hys : ∀ b ∈ ys, nameKey signed name < nameKey signed (d.key b)) :
    Chained signed (d.add k xs ys r name)
      (if xs = [] then Function.update syhtab k r else syhtab) := by
  have hold {j : ℕ} (hj : j < 512) {b : BitVec 16} (hb : b ∈ d.chain j) : b ≠ r := by
    rintro rfl
    exact hr ((h.mem j hj b).mp hb).1
  have hkey {b : BitVec 16} (hb : b ≠ r) : (d.add k xs ys r name).key b = d.key b :=
    Function.update_of_ne hb _ _
  have hself : (d.add k xs ys r name).key r = name := Function.update_self ..
  have hchain : (d.add k xs ys r name).chain k = xs ++ r :: ys := Function.update_self ..
  have hother {j : ℕ} (hj : j ≠ k) : (d.add k xs ys r name).chain j = d.chain j :=
    Function.update_of_ne hj _ _
  have hrk : r ∉ xs ++ ys := fun hin => hold hk (hsplit ▸ hin) rfl
  refine ⟨fun j hj => ?_, fun j hj => ?_, fun j hj => ?_, fun j hj b => ?_⟩
  · have hhead := h.head j hj
    by_cases hjk : j = k
    · subst hjk
      rw [hchain]
      rw [hsplit] at hhead
      cases xs with
      | nil => simp
      | cons x xs => simpa using hhead
    · rw [hother hjk, ← hhead]
      split
      · exact Function.update_of_ne hjk _ _
      · rfl
  · by_cases hjk : j = k
    · subst hjk
      rw [hchain]
      have hl := h.links j hj
      rw [hsplit] at hl
      have hins := hl.insert (hsplit ▸ h.nodup hj) hrk
      have hlnk : (d.add j xs ys r name).lnk =
          (setLink xs.getLast? (some r) ((xs ++ ys).head?, Function.update d.lnk r ys.head?)).2 := by
        unfold Dir.add
        cases xs.getLast? <;> rfl
      rw [hlnk, ← hins.head]
      exact hins
    · rw [hother hjk]
      refine (h.links j hj).congr fun b hb => ?_
      unfold Dir.add
      cases hlast : xs.getLast? with
      | none => exact Function.update_of_ne (hold hj hb) _ _
      | some y =>
        have hy : y ∈ d.chain k := by
          rw [hsplit]
          exact List.mem_append_left _ (List.mem_of_getLast? hlast)
        have hby : b ≠ y := by
          rintro rfl
          exact hjk (((h.mem j hj b).mp hb).2.symm.trans ((h.mem k hk b).mp hy).2)
        dsimp only [setLink]
        rw [Function.update_of_ne hby, Function.update_of_ne (hold hj hb)]
  · by_cases hjk : j = k
    · subst hjk
      have hsorted := h.sorted j hj
      have hin {b : BitVec 16} (hb : b ∈ xs ++ ys) : (d.add j xs ys r name).key b = d.key b :=
        hkey (hold hj (hsplit ▸ hb))
      rw [hsplit, List.pairwise_append] at hsorted
      obtain ⟨hx, hy, hxy⟩ := hsorted
      rw [hchain, List.pairwise_append, List.pairwise_cons]
      refine ⟨hx.imp_of_mem fun {a b} ha hb hlt => ?_, ⟨fun b hb => ?_,
        hy.imp_of_mem fun {a b} ha hb hlt => ?_⟩, fun a ha b hb => ?_⟩
      · rw [hin (List.mem_append_left _ ha), hin (List.mem_append_left _ hb)]
        exact hlt
      · rw [hself, hin (List.mem_append_right _ hb)]
        exact hys b hb
      · rw [hin (List.mem_append_right _ ha), hin (List.mem_append_right _ hb)]
        exact hlt
      · rw [hin (List.mem_append_left _ ha)]
        rcases List.mem_cons.mp hb with rfl | hb
        · rw [hself]
          exact hxs a ha
        · rw [hin (List.mem_append_right _ hb)]
          exact hxy a ha b hb
    · rw [hother hjk]
      refine (h.sorted j hj).imp_of_mem fun {a b} ha hb hlt => ?_
      rw [hkey (hold hj ha), hkey (hold hj hb)]
      exact hlt
  · have hentries : (d.add k xs ys r name).entries = d.entries ++ [r] := rfl
    rw [hentries, List.mem_append, List.mem_singleton]
    by_cases hb : b = r
    · subst hb
      rw [hself, hhash]
      by_cases hjk : j = k
      · subst hjk
        rw [hchain]
        simp
      · rw [hother hjk]
        refine iff_of_false (fun hin => hold hj hin rfl) fun hand => hjk hand.2.symm
    · rw [hkey hb]
      have hmem := h.mem j hj b
      by_cases hjk : j = k
      · subst hjk
        rw [hsplit] at hmem
        rw [hchain]
        simpa [hb] using hmem
      · rw [hother hjk]
        simpa [hb] using hmem

end Chained

/-! ## 4. Look-ups -/

/-- **The table**: the entries are in memory and in the chains, below the top, and account for it. -/
structure Entered (signed : Bool) (st : Syms n) (s : Stored) (d : Dir) : Prop where
  paged : Paged st.vm s
  laid : Laid d s
  chained : Chained signed d st.syhtab
  below : ∀ a ∈ d.entries, a.toNat + 20 ≤ top st.vm.virtop
  count : st.vm.virtop = nextTop^[d.entries.length] 2

theorem newFields_in (s : List Byte) (q : BitVec 16) :
    ∀ f ∈ newFields s q, f.1 < 20 ∧ f.1 + f.2.length ≤ 20 := by
  have hlen := length_symcpy_le SYMSIZ s
  unfold newFields SYMSIZ at *
  simp [SY_STR, SY_VAL, SY_XLK, SY_ATR, SY_TYP, SY_LNK]
  omega

theorem newFields_apart (s : List Byte) (q : BitVec 16) : (newFields s q).Pairwise fun f g =>
    f.1 + f.2.length ≤ g.1 ∨ g.1 + g.2.length ≤ f.1 := by
  unfold newFields
  simp [SY_STR, SY_VAL, SY_XLK, SY_ATR, SY_TYP, SY_LNK]

/-- Memory that is allocated holds what it did. -/
theorem Paged.valloc {vm : Vm n} {s : Stored} (h : Paged vm s) (v size : BitVec 16) :
    Paged ({ vm with virtop := v }.valloc size).1 s := by
  unfold Vm.valloc
  dsimp only
  split <;> exact ⟨h.pos, h.chain, h.unique, h.block, h.limit, h.resident, h.backed⟩

theorem nameKey_symcpy {signed : Bool} {str : List Byte} (h : Ended SYMSIZ str) :
    nameKey signed (symcpy SYMSIZ str) = nameKey signed str :=
  nameKey_inj.mpr (symcpy_symcpy h).2

/-- **A chain as the memory shows it**, from `a` on: where the entries are, and their names. -/
inductive Chain (vm : Vm n) : BitVec 16 → List (BitVec 16 × List Byte) → Prop
  | nil : Chain vm 0 []
  | cons {a : BitVec 16} {vm' : Vm n} {p : Vm.Ptr n} {l : List (BitVec 16 × List Byte)} (ne : a ≠ 0)
      (fetch : vm.rfetch a = some (vm', p)) (rest : Chain vm (vm'.sy_lnk p) l) :
      Chain vm a ((a, vm'.sy_str p) :: l)

/-- Entries that are linked are shown. -/
theorem Laid.shown {d : Dir} {s : Stored} (h : Laid d s) {vm : Vm n} (hp : Paged vm s)
    {l : List (BitVec 16)} (hl : Links d.lnk l.head? l) (hmem : ∀ b ∈ l, b ∈ d.entries) :
    ∃ c, Chain vm (l.head?.getD 0) c ∧ c.map Prod.fst = l ∧
      ∀ x ∈ c, Ended SYMSIZ x.2 ∧ symcpy SYMSIZ x.2 = d.key x.1 := by
  induction l with
  | nil => exact ⟨[], .nil, rfl, List.forall_mem_nil _⟩
  | cons a l ih =>
    obtain ⟨ha, hrest⟩ := List.forall_mem_cons.mp hmem
    obtain ⟨-, htail⟩ := hl
    have hhead := htail.head
    rw [hhead] at htail
    obtain ⟨c, hc, hfst, hnames⟩ := ih htail hrest
    obtain ⟨vm', p, hget, hp', hat, -⟩ := hp.rfetch a
    obtain ⟨hlnk, hend, hcpy⟩ := h.read hp' ha hat
    refine ⟨(a, vm'.sy_str p) :: c, .cons (h.place a ha).1 hget ?_, by rw [List.map_cons, hfst], ?_⟩
    · rw [hlnk, hhead]
      exact hc
    · exact List.forall_mem_cons.mpr ⟨⟨hend, hcpy⟩, hnames⟩

/-- No entry that is found is at address zero. -/
theorem search_ne_zero {signed : Bool} {str : List Byte} {fuel : ℕ} {vm vm' : Vm n} {p q p' q' : BitVec 16}
    (h : search signed str fuel vm p q = some (vm', p', q', true)) : q' ≠ 0 := by
  induction fuel generalizing vm p q with
  | zero => cases h
  | succ fuel ih =>
    rw [search] at h
    by_cases hq : q = 0
    · rw [if_pos hq] at h
      cases h
    · rw [if_neg hq] at h
      cases hget : vm.rfetch q with
      | none =>
        rw [hget] at h
        cases h
      | some r =>
        rw [hget] at h
        dsimp only at h
        split at h
        · exact ih h
        · obtain ⟨-, h⟩ := Prod.mk.inj (Option.some.inj h)
          rw [← (Prod.mk.inj (Prod.mk.inj h).2).1]
          exact hq

theorem find_ne_zero {signed : Bool} {str : List Byte} {st : Syms n} {q : BitVec 16}
    (h : find signed str st = some q) : q ≠ 0 := by
  obtain ⟨⟨vm, p, q', found⟩, hsearch, hfound⟩ := Option.bind_eq_some_iff.mp h
  cases found with
  | false => cases hfound
  | true =>
    obtain rfl := Option.some.inj hfound
    exact search_ne_zero hsearch

/-- A new entry is where it was allocated. -/
theorem newsym_address {str : List Byte} {k : ℕ} {p q : BitVec 16} {st st' : Syms n} {r : BitVec 16}
    (h : newsym str k p q st = some (st', r)) :
    r = (Vm.valloc { st.vm with virtop := evened st.vm.virtop } SYTABSIZ).2 := by
  unfold newsym at h
  dsimp only at h
  split at h
  · cases h
  · split at h
    · obtain ⟨r', -, hr⟩ := Option.map_eq_some_iff.mp h
      exact (Prod.mk.inj hr).2.symm
    · exact (Prod.mk.inj (Option.some.inj h)).2.symm

/-- `d'` is the table after a look-up of a name, which gave `r`. -/
structure Dir.Looks (d d' : Dir) (name : List Byte) (r : BitVec 16) : Prop where
  mem : r ∈ d'.entries
  key : d'.key r = name
  same : ∀ a ∈ d.entries, d'.key a = d.key a
  entries : r ∈ d.entries ∧ d' = d ∨ (∀ a ∈ d.entries, d.key a ≠ name) ∧ d'.entries = d.entries ++ [r]

namespace Entered

variable {signed : Bool} {st : Syms n} {s : Stored} {d : Dir}

/-- **A new entry**, where there is room for one. -/
theorem newsym (h : Entered signed st s d) {k : ℕ} (hk : k < 512) {xs ys : List (BitVec 16)}
    (hsplit : d.chain k = xs ++ ys) {str : List Byte} (hstr : Ended SYMSIZ str)
    (hhash : hashed signed (symcpy SYMSIZ str) = k)
    (hxs : ∀ b ∈ xs, nameKey signed (d.key b) < nameKey signed str)
    (hys : ∀ b ∈ ys, nameKey signed str < nameKey signed (d.key b))
    (hfits : FitsAt (evened st.vm.virtop) SYTABSIZ) :
    ∃ st' r s', newsym str k (xs.getLast?.getD 0) (ys.head?.getD 0) st = some (st', r) ∧ r ∉ d.entries ∧
      Entered signed st' s' (d.add k xs ys r (symcpy SYMSIZ str)) := by
  set v := Vm.valloc { st.vm with virtop := evened st.vm.virtop } SYTABSIZ with hv
  obtain ⟨hfrom, hne, hto⟩ := @Vm.valloc_own _ { st.vm with virtop := evened st.vm.virtop } SYTABSIZ hfits
    (by decide) (by decide)
  have hblock := @Vm.valloc_fits _ { st.vm with virtop := evened st.vm.virtop } SYTABSIZ (by decide)
  have hnext := nextTop_eq st.vm
  rw [← hv] at hfrom hne hto hblock hnext
  have hsize : SYTABSIZ.toNat = 20 := rfl
  rw [hsize] at hto hblock
  obtain ⟨vm, r⟩ := v
  dsimp only at hfrom hne hto hblock hnext
  have hr0 : r ≠ 0 := fun h0 => hne (congrArg BitVec.toNat h0)
  have hsep : ∀ b ∈ d.entries, Separate b r := fun b hb =>
    .inl (le_trans (h.below b hb) (le_trans (le_top_evened _) hfrom))
  have hnew : r ∉ d.entries := fun hmem => by
    have hself : r.toNat + 20 ≤ r.toNat ∨ r.toNat + 20 ≤ r.toNat := hsep r hmem
    omega
  have hp : Paged vm s := by
    have hp := h.paged.valloc (evened st.vm.virtop) SYTABSIZ
    rwa [← hv] at hp
  obtain ⟨vm₁, rp, hget, hp₁, hat, hdirty, htop₁⟩ := hp.wfetch r
  obtain ⟨hp₂, htop₂⟩ := hp₁.setAll hat hdirty hblock (newFields_in str (ys.head?.getD 0))
  have hheld := HoldsAt.writeAll s hblock (newFields_in str (ys.head?.getD 0)) (newFields_apart _ _)
  have hlaid := (h.laid.elsewhere hblock hsep (newFields_in str (ys.head?.getD 0))).snoc ⟨hr0, hblock⟩ hsep
    (symcpy_symcpy hstr) (hheld (SY_STR, symcpy SYMSIZ str) (by simp [newFields]))
    (hheld (SY_LNK, be16 (ys.head?.getD 0)) (by simp [newFields]))
    (Function.update d.chain k (xs ++ r :: ys))
  have hchained := h.chained.add hk hsplit hnew hhash
    (fun b hb => by rw [nameKey_symcpy hstr]; exact hxs b hb)
    (fun b hb => by rw [nameKey_symcpy hstr]; exact hys b hb)
  have hbelow (v : BitVec 16) (hv : v = vm.virtop) :
      ∀ a ∈ (d.add k xs ys r (symcpy SYMSIZ str)).entries, a.toNat + 20 ≤ top v := by
    intro a ha
    rw [hv, hto]
    rcases List.mem_append.mp ha with ha | ha
    · have hold := h.below a ha
      have heven := le_top_evened st.vm.virtop
      omega
    · rw [List.mem_singleton.mp ha]
  have hcount (v : BitVec 16) (hv : v = vm.virtop) :
      v = nextTop^[(d.add k xs ys r (symcpy SYMSIZ str)).entries.length] 2 := by
    have hlen : (d.add k xs ys r (symcpy SYMSIZ str)).entries.length = d.entries.length + 1 :=
      List.length_append
    rw [hv, hnext, hlen, Function.iterate_succ_apply', ← h.count]
  unfold Asm.newsym
  rw [← hv]
  dsimp only
  rw [hget]
  dsimp only
  cases hlast : xs.getLast? with
  | none =>
    obtain rfl : xs = [] := List.getLast?_eq_none_iff.mp hlast
    rw [Option.getD_none, if_neg (not_not.mpr rfl)]
    refine ⟨_, r, _, rfl, hnew, hp₂, hlaid, hchained, hbelow _ ?_, hcount _ ?_⟩
    · exact htop₂.trans htop₁
    · exact htop₂.trans htop₁
  | some y =>
    have hy : y ∈ d.entries := by
      refine ((h.chained.mem k hk y).mp ?_).1
      rw [hsplit]
      exact List.mem_append_left _ (List.mem_of_getLast? hlast)
    have hy0 := (h.laid.place y hy).1
    rw [Option.getD_some, if_pos hy0]
    obtain ⟨vm₃, pp, hget₃, hp₃, hat₃, hdirty₃, htop₃⟩ := hp₂.wfetch y
    rw [hget₃]
    have hyblock := (h.laid.place y hy).2
    obtain ⟨hp₄, -, -, htop₄⟩ := hp₃.set hat₃ hdirty₃ SY_LNK (be16 r) (by unfold SY_LNK; omega)
      (by rw [length_be16]; unfold SY_LNK; omega)
    have hxs0 : xs ≠ [] := by
      rintro rfl
      cases hlast
    have hrelink := hlaid.relink (List.mem_append_left _ hy) (some r)
    rw [if_neg hxs0] at hchained
    refine ⟨_, r, _, rfl, hnew, hp₄, ?_, hchained, hbelow _ ?_, hcount _ ?_⟩
    · unfold Dir.add
      rw [hlast]
      exact hrelink
    · exact htop₄.trans (htop₃.trans (htop₂.trans htop₁))
    · exact htop₄.trans (htop₃.trans (htop₂.trans htop₁))

theorem length_chain (h : Entered signed st s d) {k : ℕ} (hk : k < 512) : (d.chain k).length < LOOPS :=
  length_lt_loops (h.chained.nodup hk)

/-- **Where a search stops**: at the entry of the name, or where its entry would be. -/
theorem search (h : Entered signed st s d) {str : List Byte} (hstr : Ended SYMSIZ str)
    (hhash : hashed signed (symcpy SYMSIZ str) = hashed signed str) :
    ∃ vm' xs ys, d.chain (hashed signed str) = xs ++ ys ∧ Paged vm' s ∧ vm'.virtop = st.vm.virtop ∧
      (∀ b ∈ xs, nameKey signed (d.key b) < nameKey signed str) ∧
      ((∃ a ∈ d.entries, d.key a = symcpy SYMSIZ str ∧ ys.head? = some a ∧
          Asm.search signed str LOOPS st.vm 0 (st.syhtab (hashed signed str)) =
            some (vm', xs.getLast?.getD 0, a, true)) ∨
        (∀ a ∈ d.entries, d.key a ≠ symcpy SYMSIZ str) ∧
          (∀ b ∈ ys, nameKey signed str < nameKey signed (d.key b)) ∧
          Asm.search signed str LOOPS st.vm 0 (st.syhtab (hashed signed str)) =
            some (vm', xs.getLast?.getD 0, ys.head?.getD 0, false)) := by
  have hk := hashed_lt signed str
  have hmem := h.chained.mem _ hk
  obtain ⟨vm', xs, ys, hsplit, hp, htop, hxs, hys, hrun⟩ := h.laid.search_laid hstr (h.length_chain hk) h.paged
    (h.chained.links _ hk) (fun b hb => ((hmem b).mp hb).1) 0
  rw [← h.chained.head _ hk] at hrun
  have hkey (b : BitVec 16) (hb : b ∈ d.entries) :
      nameKey signed (d.key b) = nameKey signed str ↔ d.key b = symcpy SYMSIZ str := by
    rw [nameKey_inj, (h.laid.name b hb).2]
  have hsorted := h.chained.sorted _ hk
  rw [hsplit] at hsorted
  refine ⟨vm', xs, ys, hsplit, hp, htop, hxs, ?_⟩
  have hin (b : BitVec 16) (hb : b ∈ ys) : b ∈ d.entries :=
    ((hmem b).mp (hsplit ▸ List.mem_append_right _ hb)).1
  by_cases hex : ∃ b ∈ ys.head?, nameKey signed (d.key b) = nameKey signed str
  · obtain ⟨a, ha, heq⟩ := hex
    have hay := List.mem_of_head? ha
    refine .inl ⟨a, hin a hay, (hkey a (hin a hay)).mp heq, ha, ?_⟩
    rw [hrun, decide_eq_true ⟨a, ha, heq⟩, ha]
    rfl
  · rw [decide_eq_false hex] at hrun
    have hgt : ∀ b ∈ ys, nameKey signed str < nameKey signed (d.key b) := by
      cases ys with
      | nil => exact List.forall_mem_nil _
      | cons c ys =>
        have hc : nameKey signed str < nameKey signed (d.key c) := by
          refine lt_of_le_of_ne (not_lt.mp (hys c rfl)) fun heq => hex ⟨c, rfl, heq.symm⟩
        intro b hb
        rcases List.mem_cons.mp hb with rfl | hb
        · exact hc
        · have hcy := (List.pairwise_append.mp hsorted).2.1
          exact lt_trans hc ((List.pairwise_cons.mp hcy).1 b hb)
    refine .inr ⟨fun a ha heq => ?_, hgt, hrun⟩
    -- an entry of that name is in the chain, where it is neither before nor behind
    have hchain : a ∈ xs ++ ys := hsplit ▸ (hmem a).mpr ⟨ha, by rw [heq, hhash]⟩
    have hsame := (hkey a ha).mpr heq
    rcases List.mem_append.mp hchain with hax | hay
    · exact absurd hsame (hxs a hax).ne
    · exact absurd hsame (hgt a hay).ne'

/-- **An entry is found** by its name. -/
theorem find (h : Entered signed st s d) {str : List Byte} (hstr : Ended SYMSIZ str)
    (hhash : hashed signed (symcpy SYMSIZ str) = hashed signed str) {a : BitVec 16} (ha : a ∈ d.entries)
    (hkey : d.key a = symcpy SYMSIZ str) : Asm.find signed str st = some a := by
  obtain ⟨vm', xs, ys, -, -, -, -, hfound | ⟨hnone, -⟩⟩ := h.search hstr hhash
  · obtain ⟨b, hb, hkeyb, -, hrun⟩ := hfound
    obtain rfl := h.chained.key_inj ha hb (hkey.trans hkeyb.symm)
    unfold Asm.find
    rw [hrun]
    rfl
  · exact absurd hkey (hnone a ha)

/-- **What a look-up keeps**, where there is room for a new entry. -/
theorem chain_look (h : Entered signed st s d) {str : List Byte} (hstr : Ended SYMSIZ str)
    (hhash : hashed signed (symcpy SYMSIZ str) = hashed signed str)
    (hroom : (∀ a ∈ d.entries, d.key a ≠ symcpy SYMSIZ str) →
      FitsAt (evened st.vm.virtop) SYTABSIZ) :
    ∃ st' r s' d', Asm.chain_look signed str st = some (st', r) ∧ Entered signed st' s' d' ∧
      d.Looks d' (symcpy SYMSIZ str) r := by
  have hk := hashed_lt signed str
  obtain ⟨vm', xs, ys, hsplit, hp, htop, hxs, hfound | ⟨hnone, hgt, hrun⟩⟩ := h.search hstr hhash
  · obtain ⟨a, ha, hkey, -, hrun⟩ := hfound
    refine ⟨{ st with vm := vm' }, a, s, d, ?_, ⟨hp, h.laid, h.chained, ?_, ?_⟩, ha, hkey, fun _ _ => rfl,
      .inl ⟨ha, rfl⟩⟩
    · unfold Asm.chain_look
      dsimp only
      rw [hrun]
      rfl
    · dsimp only
      rw [htop]
      exact h.below
    · dsimp only
      rw [htop]
      exact h.count
  · have hst : Entered signed { st with vm := vm' } s d := by
      refine ⟨hp, h.laid, h.chained, ?_, ?_⟩
      · dsimp only
        rw [htop]
        exact h.below
      · dsimp only
        rw [htop]
        exact h.count
    obtain ⟨st', r, s', hnew, hr, hst'⟩ := hst.newsym hk hsplit hstr hhash hxs hgt (by
      dsimp only
      rw [htop]
      exact hroom hnone)
    refine ⟨st', r, s', _, ?_, hst', ?_, ?_, fun a ha => ?_, .inr ⟨hnone, rfl⟩⟩
    · unfold Asm.chain_look
      dsimp only
      rw [hrun]
      exact hnew
    · exact List.mem_append_right _ (List.mem_singleton_self r)
    · exact Function.update_self ..
    · refine Function.update_of_ne ?_ _ _
      rintro rfl
      exact hr ha

/-- **Without room** a new entry is given address zero. -/
theorem chain_look_full (h : Entered signed st s d) {str : List Byte} (hstr : Ended SYMSIZ str)
    (hhash : hashed signed (symcpy SYMSIZ str) = hashed signed str)
    (hnone : ∀ a ∈ d.entries, d.key a ≠ symcpy SYMSIZ str)
    (hfull : ¬ FitsAt (evened st.vm.virtop) SYTABSIZ) {r : BitVec 16}
    (hr : (Asm.chain_look signed str st).map Prod.snd = some r) : r = 0 := by
  obtain ⟨vm', xs, ys, -, -, htop, -, hfound | ⟨-, -, hrun⟩⟩ := h.search hstr hhash
  · obtain ⟨a, ha, hkey, -⟩ := hfound
    exact absurd hkey (hnone a ha)
  · unfold Asm.chain_look at hr
    dsimp only at hr
    rw [hrun] at hr
    obtain ⟨⟨st', r'⟩, hnew, rfl⟩ := Option.map_eq_some_iff.mp hr
    rw [newsym_address hnew]
    refine Vm.valloc_zero ?_ (by decide) (by decide)
    dsimp only
    rw [htop]
    exact hfull

/-- **Every chain is shown in the order of its names**, none of them twice. -/
theorem shown (h : Entered signed st s d) {k : ℕ} (hk : k < 512) : ∃ c, Chain st.vm (st.syhtab k) c ∧
    c.Pairwise fun x y => symcmp signed SYMSIZ x.2 y.2 < 0 := by
  have hin (b : BitVec 16) (hb : b ∈ d.chain k) : b ∈ d.entries := ((h.chained.mem k hk b).mp hb).1
  obtain ⟨c, hc, hfst, hnames⟩ := h.laid.shown h.paged (h.chained.links k hk) hin
  refine ⟨c, by rw [h.chained.head k hk]; exact hc, ?_⟩
  have hsorted := h.chained.sorted k hk
  rw [← hfst, List.pairwise_map] at hsorted
  refine hsorted.imp_of_mem fun {x y} hx hy hlt => ?_
  have hkey {z : BitVec 16 × List Byte} (hz : z ∈ c) :
      nameKey signed z.2 = nameKey signed (d.key z.1) := by
    have hz' := hin z.1 (hfst ▸ List.mem_map_of_mem hz)
    rw [nameKey_inj, (hnames z hz).2, (h.laid.name z.1 hz').2]
  rw [symcmp_neg (hnames x hx).1 (hnames y hy).1, hkey hx, hkey hy]
  exact hlt

end Entered

end Cpm8000.Asm
