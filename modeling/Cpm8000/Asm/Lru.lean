/-
# Pointers into the buffers

A pointer into a buffer is good as long as the buffer keeps its block. A fetch takes the block of one
buffer away at the most, that of the buffer used longest ago, so the pointers of the last fetches stay
good: with `n` buffers, those into the `n - 1` that were used last (`Recent.getbuf`).
-/
import Cpm8000.Asm.Fields

namespace Cpm8000.Asm

open Cpm8000.Sys

variable {n : ℕ}

/-- The list of the buffers, the latest first. -/
def Lru (vm : Vm n) (l : List (Fin n)) : Prop :=
  Links (fun i => (vm.vmpool i).vm_lnk) vm.vmhead l ∧ l.Nodup ∧ l.length = n

/-- The buffer of a pointer is one of the `k` that were used last. -/
def Recent (vm : Vm n) (k : ℕ) (p : Vm.Ptr n) : Prop := ∃ l, Lru vm l ∧ p.1 ∈ l.take k

theorem Paged.lru {vm : Vm n} {s : Stored} (h : Paged vm s) : ∃ l, Lru vm l := h.chain

/-- **What a fetch does to the list**: a buffer goes to the front, and it keeps its block unless it was
the last. -/
theorem Lru.getbuf {vm vm' : Vm n} {l : List (Fin n)} (h : Lru vm l) {adr : BitVec 16} {cb : Fin n}
    (hget : vm.getbuf adr = some (vm', cb)) : ∃ p q, l = p ++ cb :: q ∧ Lru vm' (cb :: (p ++ q)) ∧
      (∀ i ≠ cb, (vm'.vmpool i).vm_blk = (vm.vmpool i).vm_blk) ∧
      ((vm'.vmpool cb).vm_blk = (vm.vmpool cb).vm_blk ∨ q = []) := by
  obtain ⟨hl, hnodup, hlen⟩ := h
  unfold Vm.getbuf at hget
  dsimp only at hget
  cases hhead : vm.vmhead with
  | none =>
    rw [hhead] at hget
    cases hget
  | some c =>
    rw [hhead] at hget hl
    obtain ⟨p, x, q, rfl, hscan, -, hx⟩ := @scan_eq _ _ _
      (fun i => decide ((vm.vmpool i).vm_blk = adr >>> 9)) none c hl
    rw [hlen] at hscan
    dsimp only at hget
    rw [hscan, Option.or_none] at hget
    rw [← hhead] at hl
    -- the list is moved alike, whether the buffer was paged or not
    have hfront (vm₁ : Vm n) (hh : vm₁.vmhead = vm.vmhead)
        (hlnk : ∀ i, (vm₁.vmpool i).vm_lnk = (vm.vmpool i).vm_lnk) :
        Lru { (vm₁.set_lnk p.getLast? (vm₁.vmpool x).vm_lnk).set_lnk (some x)
            (vm₁.set_lnk p.getLast? (vm₁.vmpool x).vm_lnk).vmhead with vmhead := some x } (x :: (p ++ q)) := by
      have hl₁ : Links (fun i => (vm₁.vmpool i).vm_lnk) vm₁.vmhead (p ++ x :: q) := by
        rw [hh]
        exact hl.congr fun i _ => hlnk i
      refine ⟨?_, List.nodup_middle.mp hnodup, List.perm_middle.length_eq.symm.trans hlen⟩
      have hout := hl₁.unlink hnodup
      rw [← Vm.set_lnk_links] at hout
      have hin := hout.push (List.nodup_middle.mp hnodup).notMem
      have hlinks := congrArg Prod.snd (@Vm.set_lnk_links _ (vm₁.set_lnk p.getLast? (vm₁.vmpool x).vm_lnk)
        (some x) (vm₁.set_lnk p.getLast? (vm₁.vmpool x).vm_lnk).vmhead)
      dsimp only [setLink] at hlinks hin ⊢
      rw [hlinks]
      exact hin
    have hkeep (vm₁ : Vm n) (i : Fin n) :
        (((vm₁.set_lnk p.getLast? (vm₁.vmpool x).vm_lnk).set_lnk (some x)
          (vm₁.set_lnk p.getLast? (vm₁.vmpool x).vm_lnk).vmhead).vmpool i).vm_blk =
          (vm₁.vmpool i).vm_blk := by
      rw [Vm.set_lnk_field Vmbuf.vm_blk fun _ _ => rfl, Vm.set_lnk_field Vmbuf.vm_blk fun _ _ => rfl]
    by_cases hblk : (vm.vmpool x).vm_blk = adr >>> 9
    · dsimp only at hget
      rw [if_neg (not_not.mpr hblk)] at hget
      obtain ⟨rfl, rfl⟩ := Prod.mk.inj (Option.some.inj hget)
      exact ⟨p, q, rfl, hfront vm rfl fun _ => rfl, fun i _ => hkeep vm i, .inl (hkeep vm _)⟩
    · dsimp only at hget
      rw [if_pos hblk] at hget
      obtain ⟨rfl, rfl⟩ := Prod.mk.inj (Option.some.inj hget)
      obtain ⟨hh, hlnk⟩ := @Vm.page_links _ vm x (adr >>> 9)
      refine ⟨p, q, rfl, hfront _ hh hlnk, fun i hi => ?_, .inr (hx.resolve_left (by simpa using hblk))⟩
      dsimp only
      rw [hkeep]
      unfold Vm.read_in
      rw [Vm.set_buf_of_ne _ hi, Vm.write_out_field Vmbuf.vm_blk fun _ _ => rfl]

/-- Only the links count. -/
theorem Lru.set_buf {vm : Vm n} {l : List (Fin n)} (h : Lru vm l) {cb : Fin n} {b : Vmbuf n}
    (hb : b.vm_lnk = (vm.vmpool cb).vm_lnk) : Lru (vm.set_buf cb b) l :=
  ⟨h.1.congr fun i _ => Vm.set_buf_field Vmbuf.vm_lnk hb i, h.2⟩

/-- A pointer that addresses its copy, into one of the `k` buffers that were used last. -/
structure Fresh (vm : Vm n) (k : ℕ) (p : Vm.Ptr n) (a : BitVec 16) : Prop where
  current : At vm p a
  recent : Recent vm k p

namespace Fresh

variable {vm vm' : Vm n} {k : ℕ} {p q : Vm.Ptr n} {a b : BitVec 16}

theorem mono (h : Fresh vm k p a) {k' : ℕ} (hle : k ≤ k') : Fresh vm k' p a := by
  obtain ⟨hat, l, hl, hmem⟩ := h
  exact ⟨hat, l, hl, (List.take_subset_take_left l hle) hmem⟩

/-- A buffer is changed, but not its block. -/
theorem set_buf (h : Fresh vm k p a) {cb : Fin n} {c : Vmbuf n} (hlnk : c.vm_lnk = (vm.vmpool cb).vm_lnk)
    (hblk : c.vm_blk = (vm.vmpool cb).vm_blk) : Fresh (vm.set_buf cb c) k p a := by
  obtain ⟨⟨hres, hptr⟩, l, hl, hmem⟩ := h
  refine ⟨⟨?_, hptr⟩, l, hl.set_buf hlnk, hmem⟩
  rw [Vm.set_buf_field Vmbuf.vm_blk hblk]
  exact hres

theorem set (h : Fresh vm k p a) (off : ℕ) (buf : List Byte) : Fresh (vm.set q off buf) k p a :=
  h.set_buf rfl rfl

/-- **A fetch leaves the pointers into the other buffers good**, but for the last one. -/
theorem getbuf (h : Fresh vm k p a) (hk : k < n) {adr : BitVec 16} {cb : Fin n}
    (hget : vm.getbuf adr = some (vm', cb)) : Fresh vm' (k + 1) p a := by
  obtain ⟨⟨hres, hptr⟩, l, hl, hmem⟩ := h
  obtain ⟨xs, ys, rfl, hl', hblk, hlast⟩ := hl.getbuf hget
  obtain ⟨-, hnodup, hlen⟩ := hl
  refine ⟨⟨?_, hptr⟩, _, hl', ?_⟩
  · by_cases hp : p.1 = cb
    · rcases hlast with hsame | rfl
      · rw [hp, hsame, ← hp]
        exact hres
      · -- the last buffer is not among the first `k`
        rw [List.length_append, List.length_singleton] at hlen
        rw [List.take_append_of_le_length (by omega)] at hmem
        have hnot := (List.nodup_middle.mp hnodup).notMem
        rw [List.append_nil] at hnot
        exact absurd (List.mem_of_mem_take (hp ▸ hmem)) hnot
    · rw [hblk p.1 hp]
      exact hres
  · rw [List.take_succ_cons]
    by_cases hp : p.1 = cb
    · rw [hp]
      exact List.mem_cons_self ..
    · refine List.mem_cons_of_mem _ ?_
      rw [List.take_append, List.mem_append] at hmem ⊢
      refine hmem.imp_right fun hin => ?_
      cases hj : k - xs.length with
      | zero =>
        rw [hj] at hin
        cases hin
      | succ j =>
        rw [hj, List.take_succ_cons] at hin
        refine List.take_subset_take_left ys (Nat.le_succ j) ?_
        exact (List.mem_cons.mp hin).resolve_left hp

/-- The pointer of the fetch itself. -/
theorem of_getbuf (h : ∃ l, Lru vm l) {cb : Fin n} (hget : vm.getbuf b = some (vm', cb))
    (hat : At vm' q b) (hcb : q.1 = cb) : Fresh vm' 1 q b := by
  obtain ⟨l, hl⟩ := h
  obtain ⟨xs, ys, -, hl', -⟩ := hl.getbuf hget
  exact ⟨hat, _, hl', by rw [hcb]; simp⟩

end Fresh

/-- **A fetch for reading**: its pointer is good, and so are those into the other buffers that were used
lately. -/
theorem Paged.rfetch_fresh {vm : Vm n} {s : Stored} (h : Paged vm s) (b : BitVec 16) : ∃ vm' q,
    vm.rfetch b = some (vm', q) ∧ Paged vm' s ∧ Fresh vm' 1 q b ∧
      ∀ k p a, k < n → Fresh vm k p a → Fresh vm' (k + 1) p a := by
  obtain ⟨vm', cb, hget, hp, hblk⟩ := h.getbuf b
  refine ⟨vm', (cb, b.setWidth 9), by rw [Vm.rfetch, hget]; rfl, hp,
    .of_getbuf h.lru hget ⟨hblk, rfl⟩ rfl, fun k p a hk hf => hf.getbuf hk hget⟩

/-- A fetch for writing likewise. -/
theorem Paged.wfetch_fresh {vm : Vm n} {s : Stored} (h : Paged vm s) (b : BitVec 16) : ∃ vm' q,
    vm.wfetch b = some (vm', q) ∧ Paged vm' s ∧ Fresh vm' 1 q b ∧ Dirty vm' q ∧
      ∀ k p a, k < n → Fresh vm k p a → Fresh vm' (k + 1) p a := by
  obtain ⟨vm', cb, hget, hp, hblk⟩ := h.getbuf b
  have hself : Fresh vm' 1 (cb, b.setWidth 9) b := .of_getbuf h.lru hget ⟨hblk, rfl⟩ rfl
  refine ⟨_, _, by rw [Vm.wfetch, hget]; rfl, hp.dirty hblk, hself.set_buf rfl rfl, ?_,
    fun k p a hk hf => (hf.getbuf hk hget).set_buf rfl rfl⟩
  unfold Dirty
  rw [Vm.set_buf_self, Paged.or_dir]
  decide

end Cpm8000.Asm
