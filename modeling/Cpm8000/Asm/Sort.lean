/-
# The sort of the symbol table

For the cross reference `sysort` merges the chains of the hash table, half of them with the other half,
until there is one. `symerge` attaches the chains to each other in the memory: along the chain with the
smaller name until it is no longer smaller, then on with the other. The pointers it keeps across a fetch
are those of the last two fetches, so a pool of three buffers is enough; every dereference is in a log.

`Held` is what holds of the memory throughout. `attach_spec` is one merge, `Pooled` what the chains of the
hash table are between merges, and `sysort_sorts` the whole sort of the symbols that `sylook` entered.
-/
import Cpm8000.Asm.Lookaside
import Cpm8000.Asm.Lru
import Cpm8000.Sys.Keeps

namespace Cpm8000.Asm

open Cpm8000.Sys

/-! ## 1. The code -/

/-- A dereference: the address that the pointer was fetched for, the block that its buffer has, and the
place in it. -/
structure Deref where
  adr : BitVec 16
  blk : BitVec 16
  off : BitVec 9

/-- The table, and the dereferences so far. -/
structure Sorting (n : ℕ) where
  syms : Syms n
  derefs : List Deref

abbrev Sorter (n : ℕ) := StateT (Sorting n) Option

/-- A pointer, and the address it was fetched for. -/
structure Fetched (n : ℕ) where
  ptr : Vm.Ptr n
  adr : BitVec 16

variable {n : ℕ}

def Sorting.set_vm (st : Sorting n) (vm : Vm n) : Sorting n := { st with syms := { st.syms with vm := vm } }

def fetch (a : BitVec 16) : Sorter n (Fetched n) := fun st =>
  (st.syms.vm.rfetch a).map fun r => (⟨r.2, a⟩, st.set_vm r.1)

def fetchw (a : BitVec 16) : Sorter n (Fetched n) := fun st =>
  (st.syms.vm.wfetch a).map fun r => (⟨r.2, a⟩, st.set_vm r.1)

def deref (p : Fetched n) : Sorter n PUnit := modify fun st =>
  { st with derefs := st.derefs ++ [⟨p.adr, (st.syms.vm.vmpool p.ptr.1).vm_blk, p.ptr.2⟩] }

/-- `p->sy_lnk` -/
def linkOf (p : Fetched n) : Sorter n (BitVec 16) := do
  deref p
  let st ← get
  pure (st.syms.vm.sy_lnk p.ptr)

/-- `p->sy_lnk = b` -/
def setLinkOf (p : Fetched n) (b : BitVec 16) : Sorter n PUnit := do
  deref p
  modify fun st => st.set_vm (st.syms.vm.set p.ptr SY_LNK (be16 b))

/-- `symcmp(p->sy_str, q->sy_str)` -/
def compare (signed : Bool) (p q : Fetched n) : Sorter n ℤ := do
  deref p
  deref q
  let st ← get
  pure (symcmp signed SYMSIZ (st.syms.vm.sy_str p.ptr) (st.syms.vm.sy_str q.ptr))

/-- The two fetches in the arguments of `symcmp`; C does not say which is the first. -/
def fetchBoth (first : Bool) (a b : BitVec 16) : Sorter n (Fetched n × Fetched n) :=
  if first then do
    let ap ← fetch a
    let bp ← fetch b
    pure (ap, bp)
  else do
    let bp ← fetch b
    let ap ← fetch a
    pure (ap, bp)

section

variable (signed first : Bool)

/-- "Walk along chain a until its end is reached or it is no longer the smaller of the two": `pa`, `a`, `ap`
and `bp` behind the loop. -/
def walk (b : BitVec 16) : ℕ → BitVec 16 → Fetched n → Fetched n →
    Sorter n (BitVec 16 × BitVec 16 × Fetched n × Fetched n)
  | 0, _, _, _ => fun _ => none
  | fuel + 1, a, ap, bp => do
    let pa := a
    let a ← linkOf ap
    if a = 0 then pure (pa, a, ap, bp)
    else
      let (ap, bp) ← fetchBoth first a b
      let c ← compare signed ap bp
      if c ≤ 0 then walk b fuel a ap bp else pure (pa, a, ap, bp)

/-- "Attach successive smallest portions of the chains onto the result." -/
def attach : ℕ → BitVec 16 → BitVec 16 → Fetched n → Fetched n → Sorter n PUnit
  | 0, _, _, _, _ => fun _ => none
  | fuel + 1, a, b, ap, bp => do
    let (pa, a, _, bp) ← walk signed first b LOOPS a ap bp
    let pp ← fetchw pa
    setLinkOf pp b
    -- the chains are exchanged
    if a = 0 then pure ⟨⟩ else attach fuel b a bp bp

def symerge (a b : BitVec 16) : Sorter n (BitVec 16) :=
  if a = 0 then pure b
  else if b = 0 then pure a
  else do
    let (ap, bp) ← fetchBoth first a b
    let c ← compare signed ap bp
    if c > 0 then do
      attach signed first LOOPS b a bp bp
      pure b
    else do
      attach signed first LOOPS a b ap bp
      pure a

def mergeInto (j k : ℕ) : Sorter n PUnit := do
  let st ← get
  let r ← symerge signed first (st.syms.syhtab j) (st.syms.syhtab k)
  modify fun st => { st with syms := { st.syms with syhtab := Function.update st.syms.syhtab j r } }

/-- The loop of `sysort`, from `i = 1 << k` on. -/
def sysort : ℕ → Sorter n PUnit
  | 0 => pure ⟨⟩
  | k + 1 => do
    (List.range (2 ^ k)).forM fun j => mergeInto signed first j (j + 2 ^ k)
    sysort k

end

/-! ## 2. What holds throughout -/

/-- The pointer addressed the resident copy. -/
def Deref.Good (x : Deref) : Prop := x.blk = x.adr >>> 9 ∧ x.off = x.adr.setWidth 9

/-- **The memory has the entries, and every pointer was good where it was dereferenced.** -/
structure Held (st : Sorting n) (s : Stored) (d : Dir) : Prop where
  paged : Paged st.syms.vm s
  laid : Laid d s
  good : ∀ x ∈ st.derefs, x.Good

/-- A pointer to an entry that is good, and stays so for some fetches. -/
def Pointer (st : Sorting n) (k : ℕ) (p : Fetched n) (a : BitVec 16) : Prop :=
  p.adr = a ∧ Fresh st.syms.vm k p.ptr a

section

variable {st : Sorting n} {s : Stored} {d : Dir} {a b : BitVec 16} {p q : Fetched n} {k j : ℕ}

theorem fetch_spec (h : Held st s d) (a : BitVec 16) : Gives (fetch a) st fun p st' =>
    Held st' s d ∧ st'.syms.syhtab = st.syms.syhtab ∧ Pointer st' 1 p a ∧
      ∀ k q c, k < n → Pointer st k q c → Pointer st' (k + 1) q c := by
  obtain ⟨vm, p, hget, hp, hfresh, hkeep⟩ := h.paged.rfetch_fresh a
  refine ⟨⟨p, a⟩, st.set_vm vm, by rw [fetch, hget]; rfl, ⟨hp, h.laid, h.good⟩, rfl, ⟨rfl, hfresh⟩, ?_⟩
  rintro k q c hk ⟨hadr, hq⟩
  exact ⟨hadr, hkeep k q.ptr c hk hq⟩

theorem fetchw_spec (h : Held st s d) (a : BitVec 16) : Gives (fetchw a) st fun p st' =>
    Held st' s d ∧ st'.syms.syhtab = st.syms.syhtab ∧ Pointer st' 1 p a ∧ Dirty st'.syms.vm p.ptr ∧
      ∀ k q c, k < n → Pointer st k q c → Pointer st' (k + 1) q c := by
  obtain ⟨vm, p, hget, hp, hfresh, hdirty, hkeep⟩ := h.paged.wfetch_fresh a
  refine ⟨⟨p, a⟩, st.set_vm vm, by rw [fetchw, hget]; rfl, ⟨hp, h.laid, h.good⟩, rfl, ⟨rfl, hfresh⟩, hdirty, ?_⟩
  rintro k q c hk ⟨hadr, hq⟩
  exact ⟨hadr, hkeep k q.ptr c hk hq⟩

theorem deref_spec (h : Held st s d) (hp : Pointer st k p a) : Gives (deref p) st fun _ st' =>
    Held st' s d ∧ st'.syms = st.syms := by
  obtain ⟨rfl, ⟨hblk, hoff⟩, -⟩ := hp
  refine .modify ⟨⟨h.paged, h.laid, ?_⟩, rfl⟩
  exact List.forall_mem_append.mpr ⟨h.good, List.forall_mem_singleton.mpr ⟨hblk, hoff⟩⟩

theorem linkOf_spec (h : Held st s d) (ha : a ∈ d.entries) (hp : Pointer st k p a) :
    Gives (linkOf p) st fun x st' => Held st' s d ∧ st'.syms = st.syms ∧ x = (d.lnk a).getD 0 := by
  refine .bind ((deref_spec h hp).mono fun _ st' ⟨h', hsyms⟩ => ?_)
  refine .bind (.get (.pure ⟨h', hsyms, ?_⟩))
  rw [hsyms]
  exact (h.laid.read h.paged ha hp.2.current).1

/-- Two names are compared. -/
theorem compare_spec (h : Held st s d) (signed : Bool) (ha : a ∈ d.entries) (hp : Pointer st k p a)
    (hb : b ∈ d.entries) (hq : Pointer st j q b) : Gives (compare signed p q) st fun c st' =>
      Held st' s d ∧ st'.syms = st.syms ∧ (0 < c ↔ nameKey signed (d.key b) < nameKey signed (d.key a)) := by
  refine .bind ((deref_spec h hp).mono fun _ st₁ ⟨h₁, hsyms₁⟩ => ?_)
  have hq₁ : Pointer st₁ j q b := by
    unfold Pointer
    rw [hsyms₁]
    exact hq
  refine .bind ((deref_spec h₁ hq₁).mono fun _ st₂ ⟨h₂, hsyms₂⟩ => ?_)
  have hsyms := hsyms₂.trans hsyms₁
  refine .bind (.get (.pure ⟨h₂, hsyms, ?_⟩))
  rw [hsyms]
  obtain ⟨-, hend, hcpy⟩ := h.laid.read h.paged ha hp.2.current
  obtain ⟨hpos, -⟩ := h.laid.symcmp_read h.paged hb hq.2.current signed hend
  have hkey : nameKey signed (st.syms.vm.sy_str p.ptr) = nameKey signed (d.key a) := by
    rw [nameKey_inj, hcpy, (h.laid.name a ha).2]
  rw [hpos, hkey]

theorem fetchBoth_spec (h : Held st s d) (hn : 1 < n) (first : Bool) (a b : BitVec 16) :
    Gives (fetchBoth first a b) st fun r st' => Held st' s d ∧ st'.syms.syhtab = st.syms.syhtab ∧
      Pointer st' 2 r.1 a ∧ Pointer st' 2 r.2 b := by
  have hmono {st : Sorting n} {p : Fetched n} {c : BitVec 16} (hp : Pointer st 1 p c) : Pointer st 2 p c :=
    ⟨hp.1, hp.2.mono (Nat.le_succ 1)⟩
  unfold fetchBoth
  cases first with
  | true =>
    refine .bind ((fetch_spec h a).mono fun ap st₁ ⟨h₁, htab₁, hap, _⟩ => ?_)
    refine .bind ((fetch_spec h₁ b).mono fun bp st₂ ⟨h₂, htab₂, hbp, hkeep⟩ => ?_)
    exact .pure ⟨h₂, htab₂.trans htab₁, hkeep 1 ap a hn hap, hmono hbp⟩
  | false =>
    refine .bind ((fetch_spec h b).mono fun bp st₁ ⟨h₁, htab₁, hbp, _⟩ => ?_)
    refine .bind ((fetch_spec h₁ a).mono fun ap st₂ ⟨h₂, htab₂, hap, hkeep⟩ => ?_)
    exact .pure ⟨h₂, htab₂.trans htab₁, hmono hap, hkeep 1 bp b hn hbp⟩

/-! ## 3. A merge -/

/-- The order of entries by their names. -/
def NameLe (signed : Bool) (d : Dir) (a b : BitVec 16) : Prop :=
  nameKey signed (d.key a) ≤ nameKey signed (d.key b)

/-- **The walk along a chain**, from an entry that is not behind `b`: up to the last one that is not. -/
theorem walk_spec (hn : 1 < n) {signed : Bool} (first : Bool) (hb : b ∈ d.entries) {fuel : ℕ}
    {as : List (BitVec 16)} (hfuel : as.length < fuel) (h : Held st s d) (hin : ∀ x ∈ a :: as, x ∈ d.entries)
    (hl : Links d.lnk (some a) (a :: as)) (hle : NameLe signed d a b) (hp : Pointer st k p a)
    (q : Fetched n) : Gives (walk signed first b fuel a p q) st fun r st' =>
      Held st' s d ∧ st'.syms.syhtab = st.syms.syhtab ∧ ∃ xs ys, a :: as = xs ++ r.1 :: ys ∧
        (∀ x ∈ xs ++ [r.1], NameLe signed d x b) ∧ r.2.1 = ys.head?.getD 0 ∧
        (∀ y ∈ ys.head?, NameLe signed d b y) ∧ (ys ≠ [] → Pointer st' 2 r.2.2.2 b) := by
  induction fuel generalizing st a as p q k with
  | zero => exact absurd hfuel (Nat.not_lt_zero _)
  | succ fuel ih =>
    obtain ⟨ha, has⟩ := List.forall_mem_cons.mp hin
    obtain ⟨-, htail⟩ := hl
    have hhead := htail.head
    rw [walk]
    refine .bind ((linkOf_spec h ha hp).mono fun x st₁ ⟨h₁, hsyms₁, hx⟩ => ?_)
    rw [hhead] at hx htail
    cases as with
    | nil =>
      rw [List.head?_nil, Option.getD_none] at hx
      rw [if_pos hx]
      refine .pure ⟨h₁, by rw [hsyms₁], [], [], rfl, ?_, hx, by simp, fun hno => absurd rfl hno⟩
      simpa using hle
    | cons c as =>
      obtain ⟨hc, -⟩ := List.forall_mem_cons.mp has
      rw [List.head?_cons, Option.getD_some] at hx
      subst hx
      rw [if_neg (h.laid.place x hc).1]
      refine .bind ((fetchBoth_spec h₁ hn first x b).mono fun r st₂ ⟨h₂, htab₂, hap, hbp⟩ => ?_)
      refine .bind ((compare_spec h₂ signed hc hap hb hbp).mono fun cmp st₃ ⟨h₃, hsyms₃, hcmp⟩ => ?_)
      have htab : st₃.syms.syhtab = st.syms.syhtab := by rw [hsyms₃, htab₂, hsyms₁]
      have hap₃ : Pointer st₃ 2 r.1 x := by
        unfold Pointer
        rw [hsyms₃]
        exact hap
      have hbp₃ : Pointer st₃ 2 r.2 b := by
        unfold Pointer
        rw [hsyms₃]
        exact hbp
      by_cases hgo : cmp ≤ 0
      · have hle' : NameLe signed d x b := not_lt.mp fun hlt => absurd (hcmp.mpr hlt) (not_lt.mpr hgo)
        rw [if_pos hgo]
        refine (ih (Nat.lt_of_succ_lt_succ hfuel) h₃ has htail hle' hap₃ r.2).mono ?_
        rintro r' st' ⟨h', htab', xs, ys, hsplit, hxs, hya, hys, hptr⟩
        refine ⟨h', htab'.trans htab, a :: xs, ys, by rw [hsplit]; rfl, ?_, hya, hys, hptr⟩
        exact List.forall_mem_cons.mpr ⟨hle, hxs⟩
      · rw [if_neg hgo]
        refine .pure ⟨h₃, htab, [], x :: as, rfl, by simpa using hle, rfl, ?_, fun _ => hbp₃⟩
        rintro y hy
        obtain rfl := Option.some.inj hy
        exact (hcmp.mp (not_le.mp hgo)).le

/-- **A link is stored** through a good pointer. -/
theorem setLinkOf_spec (h : Held st s d) (ha : a ∈ d.entries) (hp : Pointer st k p a)
    (hdirty : Dirty st.syms.vm p.ptr) (b : BitVec 16) : Gives (setLinkOf p b) st fun _ st' =>
      (∃ s', Held st' s' { d with lnk := Function.update d.lnk a (some b) }) ∧
        st'.syms.syhtab = st.syms.syhtab ∧ ∀ j q c, Pointer st j q c → Pointer st' j q c := by
  refine .bind ((deref_spec h hp).mono fun _ st₁ ⟨h₁, hsyms₁⟩ => ?_)
  have hblock := (h.laid.place a ha).2
  obtain ⟨hset, -⟩ := h.paged.set hp.2.current hdirty SY_LNK (be16 b) (by unfold SY_LNK; omega)
    (by rw [length_be16]; unfold SY_LNK; omega)
  refine .modify ⟨⟨_, ?_, h.laid.relink ha (some b), h₁.good⟩, ?_, fun j q c hq => ⟨hq.1, ?_⟩⟩
  · rw [hsyms₁]
    exact hset
  · exact (congrArg Syms.syhtab hsyms₁ : st₁.syms.syhtab = st.syms.syhtab)
  · rw [hsyms₁]
    exact hq.2.set SY_LNK (be16 b)

/-- `m` is a chain, in order, of the entries of `l`; other links are as they were. -/
structure Merged (signed : Bool) (d : Dir) (lnk' : BitVec 16 → Option (BitVec 16)) (l m : List (BitVec 16)) :
    Prop where
  links : Links lnk' m.head? m
  perm : m.Perm l
  sorted : m.Pairwise (NameLe signed d)
  frame : ∀ x, x ∉ l → lnk' x = d.lnk x

theorem NameLe.trans {signed : Bool} {d : Dir} {a b c : BitVec 16} (h : NameLe signed d a b)
    (h' : NameLe signed d b c) : NameLe signed d a c := le_trans h h'

/-- An entry that is not behind the first of a chain in order. -/
theorem nameLe_all {signed : Bool} {l : List (BitVec 16)} (hs : l.Pairwise (NameLe signed d))
    (h : ∀ y ∈ l.head?, NameLe signed d a y) : ∀ y ∈ l, NameLe signed d a y := by
  cases l with
  | nil => exact List.forall_mem_nil _
  | cons c l =>
    have hc := h c rfl
    exact List.forall_mem_cons.mpr ⟨hc, fun y hy => hc.trans ((List.pairwise_cons.mp hs).1 y hy)⟩

/-- The walk's part of a chain, and what the rest is merged to. -/
theorem Merged.attach {signed : Bool} {lnk' : BitVec 16 → Option (BitVec 16)}
    {xs ys lb m : List (BitVec 16)} (hl : Links d.lnk (xs ++ a :: ys).head? (xs ++ a :: ys))
    (hnodup : (xs ++ a :: ys ++ lb).Nodup) (hs : (xs ++ a :: ys).Pairwise (NameLe signed d))
    (hle : ∀ x ∈ xs ++ [a], ∀ y ∈ lb, NameLe signed d x y)
    (h : Merged signed { d with lnk := Function.update d.lnk a m.head? } lnk' (lb ++ ys) m) :
    Merged signed d lnk' (xs ++ a :: ys ++ lb) (xs ++ a :: m) := by
  have hout : ∀ x ∈ xs ++ [a], x ∉ lb ++ ys := by
    intro x hx hin
    have hperm : (xs ++ a :: ys ++ lb).Perm ((xs ++ [a]) ++ (lb ++ ys)) := by
      simpa using (@List.perm_append_comm _ ys lb).append_left (xs ++ [a])
    exact (List.nodup_append.mp (hperm.nodup_iff.mp hnodup)).2.2 x hx x hin rfl
  have hax : a ∉ xs := fun hin => by
    have hno := List.nodup_append.mp (List.append_assoc xs _ _ ▸ hnodup)
    exact hno.2.2 a hin a (by simp) rfl
  have hself : lnk' a = m.head? := by
    rw [h.frame a (hout a (by simp))]
    exact Function.update_self ..
  have hxs : ∀ x ∈ xs, lnk' x = d.lnk x := by
    intro x hx
    rw [h.frame x (hout x (List.mem_append_left _ hx))]
    refine Function.update_of_ne ?_ _ _
    rintro rfl
    exact hax hx
  refine ⟨?_, ?_, ?_, fun x hx => ?_⟩
  · have hm := h.links
    rw [← hself] at hm
    have hchain := hl.splice hxs hm
    have hhead : (xs ++ a :: m).head? = (xs ++ a :: ys).head? := by cases xs <;> rfl
    rw [hhead]
    exact hchain
  · have hswap : (a :: m).Perm (a :: ys ++ lb) :=
      (h.perm.trans List.perm_append_comm).cons a
    rw [List.append_assoc]
    exact hswap.append_left xs
  · have hxa : (xs ++ [a]).Pairwise (NameLe signed d) :=
      hs.sublist (List.Sublist.append_left (List.singleton_sublist.mpr (List.mem_cons_self ..)) xs)
    have hys : ∀ x ∈ xs ++ [a], ∀ y ∈ ys, NameLe signed d x y := by
      have hsplit : xs ++ a :: ys = (xs ++ [a]) ++ ys := by simp
      exact (List.pairwise_append.mp (hsplit ▸ hs)).2.2
    have hall : (xs ++ [a] ++ m).Pairwise (NameLe signed d) := by
      refine List.pairwise_append.mpr ⟨hxa, h.sorted, fun x hx y hy => ?_⟩
      rcases List.mem_append.mp (h.perm.mem_iff.mp hy) with hy | hy
      · exact hle x hx y hy
      · exact hys x hx y hy
    simpa using hall
  · rw [List.mem_append, not_or] at hx
    have hxa : x ≠ a := by
      rintro rfl
      exact hx.1 (by simp)
    rw [h.frame x (by simp at hx ⊢; exact ⟨hx.2, hx.1.2.2⟩)]
    exact Function.update_of_ne hxa _ _

/-- **A merge** of two chains, from the one with the first name. -/
theorem attach_spec (hn : 2 < n) (signed first : Bool) {fuel : ℕ} {as bs : List (BitVec 16)}
    (hfuel : as.length + bs.length + 2 ≤ fuel) (h : Held st s d)
    (hin : ∀ x ∈ a :: as ++ b :: bs, x ∈ d.entries) (hnodup : (a :: as ++ b :: bs).Nodup)
    (hla : Links d.lnk (some a) (a :: as)) (hlb : Links d.lnk (some b) (b :: bs))
    (hsa : (a :: as).Pairwise (NameLe signed d)) (hsb : (b :: bs).Pairwise (NameLe signed d))
    (hle : NameLe signed d a b) (hp : Pointer st k p a) (q : Fetched n) :
    Gives (attach signed first fuel a b p q) st fun _ st' => st'.syms.syhtab = st.syms.syhtab ∧
      ∃ s' lnk' m, Held st' s' { d with lnk := lnk' } ∧ m.head? = some a ∧
        Merged signed d lnk' (a :: as ++ b :: bs) m := by
  induction fuel generalizing st s d a as b bs p q k with
  | zero => omega
  | succ fuel ih =>
    obtain ⟨hina, hinb⟩ := List.forall_mem_append.mp hin
    have hb := hinb b (List.mem_cons_self ..)
    obtain ⟨hna, hnb, hdis⟩ := List.nodup_append.mp hnodup
    have hloops : as.length < LOOPS := Nat.lt_of_succ_lt (length_lt_loops hna)
    rw [attach]
    refine .bind ((walk_spec (by omega) first hb hloops h hina hla hle hp q).mono ?_)
    rintro ⟨pa, a', ap', bp⟩ st₁ ⟨h₁, htab₁, xs, ys, hsplit, hxs, ha', hys, hbp⟩
    dsimp only at hsplit hxs ha' hbp ⊢
    have hpa : pa ∈ d.entries := hina pa (by rw [hsplit]; simp)
    refine .bind ((fetchw_spec h₁ pa).mono fun pp st₂ ⟨h₂, htab₂, hpp, hdirty, hkeep⟩ => ?_)
    refine .bind ((setLinkOf_spec h₂ hpa hpp hdirty b).mono ?_)
    rintro - st₃ ⟨⟨s₃, h₃⟩, htab₃, hkeep₃⟩
    have htab : st₃.syms.syhtab = st.syms.syhtab := by rw [htab₃, htab₂, htab₁]
    rw [hsplit] at hnodup hsa hla
    have hhead : (xs ++ pa :: ys).head? = some a := by rw [← hsplit]; rfl
    rw [← hhead] at hla
    have hle' : ∀ x ∈ xs ++ [pa], ∀ y ∈ b :: bs, NameLe signed d x y := fun x hx =>
      nameLe_all hsb fun y hy => Option.some.inj hy ▸ hxs x hx
    have hpab : pa ∉ b :: bs := fun hno => hdis pa (by rw [hsplit]; simp) pa hno rfl
    have hlb₃ : Links (Function.update d.lnk pa (some b)) (some b) (b :: bs) := by
      refine hlb.congr fun x hx => Function.update_of_ne ?_ _ _
      rintro rfl
      exact hpab hx
    by_cases hzero : a' = 0
    · -- the chain is at its end
      rw [if_pos hzero]
      have hnil : ys = [] := by
        cases ys with
        | nil => rfl
        | cons y ys =>
          rw [List.head?_cons, Option.getD_some] at ha'
          exact absurd (ha'.symm.trans hzero) (h.laid.place y (hina y (by rw [hsplit]; simp))).1
      subst hnil
      refine .pure ⟨htab, s₃, _, xs ++ pa :: b :: bs, h₃, ?_, ?_⟩
      · rw [← hhead]
        cases xs <;> rfl
      · rw [hsplit]
        refine Merged.attach hla hnodup hsa hle' ⟨hlb₃, by simp, hsb, fun _ _ => rfl⟩
    · rw [if_neg hzero]
      cases ys with
      | nil => exact absurd ha' hzero
      | cons y ys =>
        rw [List.head?_cons, Option.getD_some] at ha'
        subst ha'
        have hbp₂ := hkeep 2 bp b hn (hbp (List.cons_ne_nil _ _))
        have hbp₃ := hkeep₃ 3 bp b hbp₂
        have hperm : (xs ++ pa :: a' :: ys ++ b :: bs).Perm (xs ++ [pa] ++ (b :: bs ++ a' :: ys)) := by
          simpa using (@List.perm_append_comm _ (a' :: ys) (b :: bs)).append_left (xs ++ [pa])
        obtain ⟨-, hnrest, hdrest⟩ := List.nodup_append.mp (hperm.nodup_iff.mp hnodup)
        have hpay : pa ∉ a' :: ys := fun hno =>
          hdrest pa (by simp) pa (List.mem_append_right _ hno) rfl
        have hsplit' : xs ++ pa :: a' :: ys = (xs ++ [pa]) ++ a' :: ys := by simp
        have hly : Links (Function.update d.lnk pa (some b)) (some a') (a' :: ys) := by
          refine (hsplit' ▸ hla).drop.congr fun x hx => Function.update_of_ne ?_ _ _
          rintro rfl
          exact hpay hx
        have hlen : as.length + 1 = xs.length + (ys.length + 2) := by
          have := congrArg List.length hsplit
          simpa using this
        refine (ih (by omega) h₃ ?_ hnrest hlb₃ hly hsb (List.pairwise_append.mp (hsplit' ▸ hsa)).2.1
          (hys a' rfl) hbp₃ bp).mono ?_
        · refine List.forall_mem_append.mpr ⟨hinb, fun x hx => hina x ?_⟩
          rw [hsplit, hsplit']
          exact List.mem_append_right _ hx
        · rintro - st' ⟨htab', s', lnk', m, h', hm, hmerged⟩
          refine ⟨htab'.trans htab, s', lnk', xs ++ pa :: m, h', ?_, ?_⟩
          · rw [← hhead]
            cases xs <;> rfl
          · rw [hsplit]
            refine Merged.attach hla hnodup hsa hle' ?_
            rw [hm]
            exact hmerged

theorem Merged.refl {signed : Bool} {l : List (BitVec 16)} (hl : Links d.lnk l.head? l)
    (hs : l.Pairwise (NameLe signed d)) : Merged signed d d.lnk l l := ⟨hl, .refl _, hs, fun _ _ => rfl⟩

/-- **`symerge`**, of two chains, one or both of which may be empty. -/
theorem symerge_spec (hn : 2 < n) (signed first : Bool) {la lb : List (BitVec 16)} (h : Held st s d)
    (hin : ∀ x ∈ la ++ lb, x ∈ d.entries) (hnodup : (la ++ lb).Nodup) (hla : Links d.lnk la.head? la)
    (hlb : Links d.lnk lb.head? lb) (hsa : la.Pairwise (NameLe signed d))
    (hsb : lb.Pairwise (NameLe signed d)) :
    Gives (symerge signed first (la.head?.getD 0) (lb.head?.getD 0)) st fun r st' =>
      st'.syms.syhtab = st.syms.syhtab ∧ ∃ s' lnk' m, Held st' s' { d with lnk := lnk' } ∧
        r = m.head?.getD 0 ∧ Merged signed d lnk' (la ++ lb) m := by
  obtain ⟨hina, hinb⟩ := List.forall_mem_append.mp hin
  unfold symerge
  cases la with
  | nil => exact .pure ⟨rfl, s, d.lnk, lb, h, rfl, .refl hlb hsb⟩
  | cons a as =>
    have ha := hina a (List.mem_cons_self ..)
    rw [List.head?_cons, Option.getD_some, if_neg (h.laid.place a ha).1]
    cases lb with
    | nil =>
      refine .pure ⟨rfl, s, d.lnk, a :: as, h, rfl, ?_⟩
      rw [List.append_nil]
      exact .refl hla hsa
    | cons b bs =>
      have hb := hinb b (List.mem_cons_self ..)
      have hloops := length_lt_loops hnodup
      rw [List.length_append, List.length_cons, List.length_cons] at hloops
      rw [List.head?_cons, Option.getD_some, if_neg (h.laid.place b hb).1]
      refine .bind ((fetchBoth_spec h (by omega) first a b).mono fun r st₁ ⟨h₁, htab₁, hap, hbp⟩ => ?_)
      refine .bind ((compare_spec h₁ signed ha hap hb hbp).mono fun c st₂ ⟨h₂, hsyms₂, hc⟩ => ?_)
      have htab : st₂.syms.syhtab = st.syms.syhtab := by rw [hsyms₂, htab₁]
      have hptr {p : Fetched n} {x : BitVec 16} (hp : Pointer st₁ 2 p x) : Pointer st₂ 2 p x := by
        unfold Pointer
        rw [hsyms₂]
        exact hp
      have hswap : (b :: bs ++ a :: as).Perm (a :: as ++ b :: bs) := List.perm_append_comm
      by_cases hgt : c > 0
      · rw [if_pos hgt]
        refine .bind ((attach_spec hn signed first (by omega) h₂ (List.forall_mem_append.mpr ⟨hinb, hina⟩)
          (hswap.nodup_iff.mpr hnodup) hlb hla hsb hsa (hc.mp hgt).le (hptr hbp) r.2).mono ?_)
        rintro - st' ⟨htab', s', lnk', m, h', hm, hmerged⟩
        refine .pure ⟨htab'.trans htab, s', lnk', m, h', by rw [hm]; rfl, hmerged.links,
          hmerged.perm.trans hswap, hmerged.sorted, fun x hx => hmerged.frame x fun hx' => hx ?_⟩
        exact hswap.mem_iff.mp hx'
      · rw [if_neg hgt]
        refine .bind ((attach_spec hn signed first (by omega) h₂ hin hnodup hla hlb hsa hsb
          (not_lt.mp fun hlt => hgt (hc.mpr hlt)) (hptr hap) r.2).mono ?_)
        rintro - st' ⟨htab', s', lnk', m, h', hm, hmerged⟩
        exact .pure ⟨htab'.trans htab, s', lnk', m, h', by rw [hm]; rfl, hmerged⟩

end

/-! ## 4. The sort -/

/-- **The chains between merges**: those of `live` are in order and have the entries, each once. -/
structure Pooled (signed : Bool) (live : Finset ℕ) (st : Sorting n) (s : Stored) (d : Dir)
    (c : ℕ → List (BitVec 16)) : Prop where
  held : Held st s d
  head : ∀ x ∈ live, st.syms.syhtab x = (c x).head?.getD 0
  links : ∀ x ∈ live, Links d.lnk (c x).head? (c x)
  sorted : ∀ x ∈ live, (c x).Pairwise (NameLe signed d)
  nodup : ∀ x ∈ live, (c x).Nodup
  disjoint : ∀ x ∈ live, ∀ y ∈ live, x ≠ y → (c x).Disjoint (c y)
  mem : ∀ a, a ∈ d.entries ↔ ∃ x ∈ live, a ∈ c x

/-- One merge: the second chain is no longer live. -/
theorem mergeInto_spec (hn : 2 < n) {signed : Bool} (first : Bool) {live : Finset ℕ} {st : Sorting n}
    {s : Stored} {d : Dir} {c : ℕ → List (BitVec 16)} (h : Pooled signed live st s d c) {j k : ℕ}
    (hj : j ∈ live) (hk : k ∈ live) (hjk : j ≠ k) :
    Gives (mergeInto signed first j k) st fun _ st' => ∃ s' lnk' c',
      Pooled signed (live.erase k) st' s' { d with lnk := lnk' } c' := by
  have hnodup : (c j ++ c k).Nodup := (h.nodup j hj).append (h.nodup k hk) (h.disjoint j hj k hk hjk)
  have hin : ∀ a ∈ c j ++ c k, a ∈ d.entries := by
    intro a ha
    rcases List.mem_append.mp ha with ha | ha
    · exact (h.mem a).mpr ⟨j, hj, ha⟩
    · exact (h.mem a).mpr ⟨k, hk, ha⟩
  unfold mergeInto
  refine .bind (.get ?_)
  rw [h.head j hj, h.head k hk]
  refine .bind ((symerge_spec hn signed first h.held hin hnodup (h.links j hj) (h.links k hk) (h.sorted j hj)
    (h.sorted k hk)).mono ?_)
  rintro r st₁ ⟨htab, s', lnk', m, h', rfl, hm⟩
  have hof : ∀ x ∈ live.erase k, x = j ∧ Function.update c j m x = m ∨
      x ≠ j ∧ x ∈ live ∧ x ≠ k ∧ Function.update c j m x = c x := by
    intro x hx
    obtain ⟨hxk, hxl⟩ := Finset.mem_erase.mp hx
    by_cases hxj : x = j
    · exact .inl ⟨hxj, by rw [hxj, Function.update_self]⟩
    · exact .inr ⟨hxj, hxl, hxk, Function.update_of_ne hxj _ _⟩
  have hout {x : ℕ} (hxl : x ∈ live) (hxj : x ≠ j) (hxk : x ≠ k) {a : BitVec 16} (ha : a ∈ c x) :
      a ∉ c j ++ c k := by
    intro hno
    rcases List.mem_append.mp hno with hno | hno
    · exact h.disjoint x hxl j hj hxj ha hno
    · exact h.disjoint x hxl k hk hxk ha hno
  refine .modify ⟨s', lnk', Function.update c j m, ⟨h'.paged, h'.laid, h'.good⟩, fun x hx => ?_,
    fun x hx => ?_, fun x hx => ?_, fun x hx => ?_, fun x hx y hy hxy => ?_, fun a => ?_⟩
  · rcases hof x hx with ⟨rfl, hcx⟩ | ⟨hxj, hxl, -, hcx⟩
    · rw [hcx]
      exact Function.update_self ..
    · rw [hcx, ← h.head x hxl]
      dsimp only
      rw [Function.update_of_ne hxj, htab]
  · rcases hof x hx with ⟨rfl, hcx⟩ | ⟨hxj, hxl, hxk, hcx⟩
    · rw [hcx]
      exact hm.links
    · rw [hcx]
      exact (h.links x hxl).congr fun a ha => hm.frame a (hout hxl hxj hxk ha)
  · rcases hof x hx with ⟨rfl, hcx⟩ | ⟨-, hxl, -, hcx⟩
    · rw [hcx]
      exact hm.sorted
    · rw [hcx]
      exact h.sorted x hxl
  · rcases hof x hx with ⟨rfl, hcx⟩ | ⟨-, hxl, -, hcx⟩
    · rw [hcx]
      exact hm.perm.nodup_iff.mpr hnodup
    · rw [hcx]
      exact h.nodup x hxl
  · rcases hof x hx with ⟨rfl, hcx⟩ | ⟨hxj, hxl, hxk, hcx⟩ <;>
      rcases hof y hy with ⟨rfl, hcy⟩ | ⟨hyj, hyl, hyk, hcy⟩
    · exact absurd rfl hxy
    · rw [hcx, hcy]
      exact fun a ha hay => hout hyl hyj hyk hay (hm.perm.mem_iff.mp ha)
    · rw [hcx, hcy]
      exact fun a hax ha => hout hxl hxj hxk hax (hm.perm.mem_iff.mp ha)
    · rw [hcx, hcy]
      exact h.disjoint x hxl y hyl hxy
  · have hjin : j ∈ live.erase k := Finset.mem_erase.mpr ⟨hjk, hj⟩
    rw [h.mem a]
    constructor
    · rintro ⟨x, hxl, hax⟩
      by_cases hxjk : x = j ∨ x = k
      · refine ⟨j, hjin, ?_⟩
        rw [Function.update_self, hm.perm.mem_iff, List.mem_append]
        rcases hxjk with rfl | rfl
        · exact .inl hax
        · exact .inr hax
      · rw [not_or] at hxjk
        refine ⟨x, Finset.mem_erase.mpr ⟨hxjk.2, hxl⟩, ?_⟩
        rw [Function.update_of_ne hxjk.1]
        exact hax
    · rintro ⟨x, hx, hax⟩
      rcases hof x hx with ⟨rfl, hcx⟩ | ⟨-, hxl, -, hcx⟩
      · rw [hcx, hm.perm.mem_iff, List.mem_append] at hax
        rcases hax with hax | hax
        · exact ⟨x, hj, hax⟩
        · exact ⟨k, hk, hax⟩
      · exact ⟨x, hxl, hcx ▸ hax⟩

/-- **The loop of `sysort`**, from `1 << k` chains on. -/
theorem sysort_spec (hn : 2 < n) {signed : Bool} (first : Bool) {k : ℕ} {st : Sorting n} {s : Stored}
    {d : Dir} {c : ℕ → List (BitVec 16)} (h : Pooled signed (Finset.range (2 ^ k)) st s d c) :
    Gives (sysort signed first k) st fun _ st' => ∃ s' lnk' c',
      Pooled signed {0} st' s' { d with lnk := lnk' } c' := by
  induction k generalizing st s d c with
  | zero => exact .pure ⟨s, d.lnk, c, h⟩
  | succ k ih =>
    rw [sysort]
    -- what is live before the merge of `j` with `j + 2 ^ k`
    let live (j : ℕ) : Finset ℕ := Finset.range (2 ^ k) ∪ Finset.Ico (2 ^ k + j) (2 ^ k + 2 ^ k)
    have hround : Gives ((List.range (2 ^ k)).forM fun j => mergeInto signed first j (j + 2 ^ k)) st
        fun _ st' => ∃ s' lnk' c', Pooled signed (live (2 ^ k)) st' s' { d with lnk := lnk' } c' := by
      refine Gives.forM_range (I := fun j st' => ∃ s' lnk' c',
        Pooled signed (live j) st' s' { d with lnk := lnk' } c') ⟨s, d.lnk, c, ?_⟩ fun j hj st' hst' => ?_
      · have hall : live 0 = Finset.range (2 ^ (k + 1)) := by
          ext x
          simp only [live, Finset.mem_union, Finset.mem_range, Finset.mem_Ico, pow_succ]
          omega
        rw [hall]
        exact h
      · obtain ⟨s', lnk', c', hpool⟩ := hst'
        have hj0 : j ∈ live j := Finset.mem_union_left _ (Finset.mem_range.mpr hj)
        have hj1 : j + 2 ^ k ∈ live j := by
          refine Finset.mem_union_right _ (Finset.mem_Ico.mpr ?_)
          omega
        have herase : (live j).erase (j + 2 ^ k) = live (j + 1) := by
          ext x
          simp only [live, Finset.mem_erase, Finset.mem_union, Finset.mem_range, Finset.mem_Ico]
          omega
        refine (mergeInto_spec hn first hpool hj0 hj1 (by have := Nat.two_pow_pos k; omega)).mono ?_
        rintro - st'' ⟨s'', lnk'', c'', hpool'⟩
        rw [herase] at hpool'
        exact ⟨s'', lnk'', c'', hpool'⟩
    refine .bind (hround.mono ?_)
    rintro - st' ⟨s', lnk', c', hpool⟩
    have hhalf : live (2 ^ k) = Finset.range (2 ^ k) := by
      ext x
      simp only [live, Finset.mem_union, Finset.mem_range, Finset.mem_Ico]
      omega
    rw [hhalf] at hpool
    have hrest := ih hpool
    exact hrest

/-- **The sort of a source's symbols**: it comes to its end with every pointer good where it was
dereferenced, and leaves one chain, in order, which has the entry of every symbol once and no others. -/
def Sorts (signed first : Bool) (n : ℕ) (hn : 0 < n) (file : ℕ → Byte) (texts : List (List Byte)) : Prop :=
  ∃ st rs st', lookAll signed texts (Look.initial n hn file) = some (st, rs) ∧
    sysort signed first SHSHLOG ⟨st.syms, []⟩ = some (⟨⟩, st') ∧ (∀ x ∈ st'.derefs, x.Good) ∧
    ∃ c, Chain st'.syms.vm (st'.syms.syhtab 0) c ∧ (c.map Prod.fst).Nodup ∧
      (∀ a, a ∈ c.map Prod.fst ↔ a ∈ rs) ∧
      (∀ x ∈ texts.zip rs, ∃ y ∈ c, y.1 = x.2 ∧ symcpy SYMSIZ y.2 = symcpy SYMSIZ (tokstr x.1)) ∧
      c.Pairwise fun x y => symcmp signed SYMSIZ x.2 y.2 ≤ 0

/-- The chains that `sylook` left. -/
theorem Entered.pooled {signed : Bool} {syms : Syms n} {s : Stored} {d : Dir}
    (h : Entered signed syms s d) : Pooled signed (Finset.range (2 ^ SHSHLOG)) ⟨syms, []⟩ s d d.chain := by
  have hlt {x : ℕ} (hx : x ∈ Finset.range (2 ^ SHSHLOG)) : x < 512 := Finset.mem_range.mp hx
  refine ⟨⟨h.paged, h.laid, List.forall_mem_nil _⟩, fun x hx => h.chained.head x (hlt hx),
    fun x hx => h.chained.links x (hlt hx), fun x hx => (h.chained.sorted x (hlt hx)).imp le_of_lt,
    fun x hx => h.chained.nodup (hlt hx), fun x hx y hy hxy a ha hay => ?_, fun a => ?_⟩
  · exact hxy (((h.chained.mem x (hlt hx) a).mp ha).2.symm.trans ((h.chained.mem y (hlt hy) a).mp hay).2)
  · constructor
    · intro ha
      have hk := hashed_lt signed (d.key a)
      exact ⟨_, Finset.mem_range.mpr hk, (h.chained.mem _ hk a).mpr ⟨ha, rfl⟩⟩
    · rintro ⟨x, hx, ha⟩
      exact ((h.chained.mem x (hlt hx) a).mp ha).1

/-- The symbols are sorted, where there was room for them. -/
theorem sorts_of_card (signed first : Bool) {n : ℕ} (hn : 3 ≤ n) (file : ℕ → Byte)
    {texts : List (List Byte)} (htexts : ∀ t ∈ texts, Symbolic t) (hroom : (symbols texts).card ≤ 3176) :
    Sorts signed first n (by omega) file texts := by
  obtain ⟨st, rs, s, d, hrun, h⟩ := @Answered.run signed n (by omega) file texts htexts hroom
  obtain ⟨⟨⟩, st', hsort, s', lnk', c', hpool⟩ := sysort_spec hn first h.entered.pooled
  have hzero : 0 ∈ ({0} : Finset ℕ) := Finset.mem_singleton_self 0
  have hmem (a : BitVec 16) : a ∈ c' 0 ↔ a ∈ d.entries := by
    rw [hpool.mem a]
    simp
  obtain ⟨c, hchain, hfst, hnames⟩ := hpool.held.laid.shown hpool.held.paged (hpool.links 0 hzero)
    fun a ha => (hmem a).mp ha
  rw [← hpool.head 0 hzero] at hchain
  refine ⟨st, rs, st', hrun, hsort, hpool.held.good, c, hchain, ?_, fun a => ?_, fun x hx => ?_, ?_⟩
  · rw [hfst]
    exact hpool.nodup 0 hzero
  · rw [hfst, hmem]
    exact h.mem_entries a
  · obtain ⟨hin, hkey⟩ := h.answers x hx
    have hx2 : x.2 ∈ c.map Prod.fst := by
      rw [hfst]
      exact (hmem x.2).mpr hin
    obtain ⟨y, hy, hyx⟩ := List.mem_map.mp hx2
    refine ⟨y, hy, hyx, ?_⟩
    rw [(hnames y hy).2, hyx]
    exact hkey
  · have hsorted := hpool.sorted 0 hzero
    rw [← hfst, List.pairwise_map] at hsorted
    refine hsorted.imp_of_mem fun {x y} hx hy hle => ?_
    have hkey {z : BitVec 16 × List Byte} (hz : z ∈ c) :
        nameKey signed z.2 = nameKey signed (d.key z.1) := by
      have hz' := (hmem z.1).mp (hfst ▸ List.mem_map_of_mem hz)
      rw [nameKey_inj, (hnames z hz).2, (h.entered.laid.name z.1 hz').2]
    rw [← not_lt, symcmp_pos (hnames x hx).1 (hnames y hy).1, hkey hx, hkey hy]
    exact not_lt.mpr hle

theorem card_of_sorts {signed first : Bool} {n : ℕ} {hn : 0 < n} {file : ℕ → Byte}
    {texts : List (List Byte)} (htexts : ∀ t ∈ texts, Symbolic t)
    (h : Sorts signed first n hn file texts) : (symbols texts).card ≤ 3176 := by
  obtain ⟨st, rs, st', hrun, -, -, c, hchain, -, hmem, -, -⟩ := h
  by_contra hcard
  have hzero := (hmem 0).mpr (zero_mem_of_card htexts (not_le.mp hcard) hrun)
  obtain ⟨x, hx, hx0⟩ := List.mem_map.mp hzero
  -- a chain ends at address zero
  have hne {a : BitVec 16} {l : List (BitVec 16 × List Byte)} (hc : Chain st'.syms.vm a l) :
      ∀ x ∈ l, x.1 ≠ 0 := by
    induction hc with
    | nil => exact List.forall_mem_nil _
    | cons ne _ _ ih => exact List.forall_mem_cons.mpr ⟨ne, ih⟩
  exact hne hchain x hx hx0

/-- **`sysort` sorts the symbols** of a source, with any pool of three buffers or more, if and only if the
source has no more symbols than there was room for. -/
theorem sysort_sorts (signed first : Bool) (n : ℕ) (hn : 3 ≤ n) (file : ℕ → Byte) (texts : List (List Byte))
    (htexts : ∀ t ∈ texts, Symbolic t) :
    Sorts signed first n (by omega) file texts ↔ (symbols texts).card ≤ 3176 :=
  ⟨card_of_sorts htexts, sorts_of_card signed first hn file htexts⟩

/-- `b`, `a` and `b`, with three buffers. -/
theorem sysort_sorts_few : Sorts true true 3 (by decide) (fun _ => 0) [[98], [97], [98]] ↔
    (symbols [[98], [97], [98]]).card ≤ 3176 :=
  sysort_sorts true true 3 (by decide) (fun _ => 0) [[98], [97], [98]] fun t ht => by
    simp only [List.mem_cons, List.not_mem_nil, or_false] at ht
    rcases ht with rfl | rfl | rfl <;> exact ⟨by decide, by decide⟩

/-- The 3177 symbols `aaa`, `aab` and so on. -/
theorem sysort_overrun :
    ¬ Sorts true true 12 (by decide) (fun _ => 0) ((List.range 3177).map letters) := by
  intro h
  have hle := card_of_sorts symbolic_letters h
  rw [card_letters (by decide)] at hle
  exact absurd hle (by decide)

end Cpm8000.Asm
