/-
# The track buffer as a cache

What the calls of the BIOS do to the disk through the track buffer, for every pattern of failing
transfers.

* `dskxfer_read`, `dskxfer_write`: one transfer of a track.
* `Ledger`: beside the BIOS runs a record of what a sector should hold, and of which sectors the
  callers rely on.
* `Inv`: the buffer laid over the disk is what the ledger says; `Inv.step` keeps it under the
  condition `Meets`, and `trackBuffer_safe` draws the conclusion for every run.
* `trackBuffer_transparent`: without errors the BIOS is a plain array of sectors.
-/
import Cpm8000.Bios.Disk
import Cpm8000.Sys.Run

namespace Cpm8000.Bios

open Arith Sys

variable {ok : ℕ → Bool}

/-! ## 1. Memory and buffer -/

@[simp] theorem Mem.load_store (m : Mem) (a : BitVec 32) (b : Sector) :
    (m.store a b).load a = b := by
  funext i
  have hi : (low a + BitVec.ofNat 16 i - low a).toNat = i := by
    have := i.isLt
    rw [BitVec.add_comm, BitVec.add_sub_cancel, BitVec.toNat_ofNat]
    omega
  rw [Mem.load, Mem.store, dif_pos ⟨rfl, by rw [hi]; exact i.isLt⟩]
  exact congrArg b (Fin.ext hi)

/-- The sector of the disk, `4096` bytes to a track. -/
def diskSector (disk : ℕ → Byte) (trk sec : BitVec 16) : Sector :=
  fun i => disk (4096 * trk.toNat + sectorAt sec + i)

theorem LegalSector.at_eq {trk sec : BitVec 16} (h : LegalSector trk sec) :
    sectorAt sec = 128 * (sec.toNat - 1) := by
  have h1 := h.sec_pos
  have h2 : sec.toNat ≤ 32 := h.sec_le
  have hsub : (sec - 1).toNat = sec.toNat - 1 := by
    rw [BitVec.toNat_sub_of_le (by rw [BitVec.le_def]; exact h1)]
    rfl
  rw [sectorAt, SECSZ, BitVec.toNat_mul, hsub]
  have h128 : (128 : BitVec 16).toNat = 128 := rfl
  rw [h128]
  omega

theorem LegalSector.at_lt {trk sec : BitVec 16} (h : LegalSector trk sec) (i : Fin 128) :
    sectorAt sec + i < 4096 := by
  have h2 : sec.toNat ≤ 32 := h.sec_le
  have hi := i.isLt
  rw [h.at_eq]
  omega

theorem LegalSector.trk_le {trk sec : BitVec 16} (h : LegalSector trk sec) : trk.toNat < 2048 :=
  h.trk_lt

/-- A sector copied into the buffer is there, and the others are as before. -/
theorem bufSector_set {trk trk' sec sec' : BitVec 16} (h : LegalSector trk sec)
    (h' : LegalSector trk' sec') (buf : ℕ → Byte) (b : Sector) :
    bufSector (setBufSector buf (sectorAt sec) b) (sectorAt sec') =
      if sec' = sec then b else bufSector buf (sectorAt sec') := by
  funext i
  have hi := i.isLt
  have h1 := h.sec_pos
  have h2 := h'.sec_pos
  have e1 := h.at_eq
  have e2 := h'.at_eq
  rw [bufSector, setBufSector]
  by_cases hs : sec' = sec
  · subst hs
    rw [if_pos rfl, dif_pos ⟨Nat.le_add_right _ _, by omega⟩]
    exact congrArg b (Fin.ext (Nat.add_sub_cancel_left _ _))
  · have hne : sec'.toNat ≠ sec.toNat := fun e => hs (BitVec.eq_of_toNat_eq e)
    rw [if_neg hs, dif_neg (by rintro ⟨h3, h4⟩; omega)]
    rfl

/-! ## 2. Transfers -/

/-- A read of consecutive sectors fills the buffer from the disk, and leaves what is before. -/
theorem dio_loop_read (n : ℕ) (blk : BitVec 16) (addr : ℕ) (d : Dev) (hn : blk.toNat + n < 2 ^ 16) :
    (dio_loop ok .DSKREAD n blk addr d).1.disk = d.disk ∧
      (∀ x < addr, (dio_loop ok .DSKREAD n blk addr d).1.buf x = d.buf x) ∧
      ((dio_loop ok .DSKREAD n blk addr d).2 = false → ∀ j < 512 * n,
        (dio_loop ok .DSKREAD n blk addr d).1.buf (addr + j) = d.disk (512 * blk.toNat + j)) := by
  induction n generalizing blk addr d with
  | zero => exact ⟨rfl, fun _ _ => rfl, fun _ j hj => absurd hj (Nat.not_lt_zero j)⟩
  | succ n ih =>
    have hblk : (blk + 1).toNat = blk.toNat + 1 := by
      have h1 : (1 : BitVec 16).toNat = 1 := rfl
      rw [BitVec.toNat_add, h1, Nat.mod_eq_of_lt (by omega)]
    rw [dio_loop]
    by_cases hok : ok d.io = true
    · rw [if_pos hok]
      obtain ⟨hdisk, hlow, hbuf⟩ := ih (blk + 1) (addr + 512)
        { d.sector .DSKREAD blk addr with io := d.io + 1 } (by omega)
      refine ⟨hdisk, fun x hx => ?_, fun herr j hj => ?_⟩
      · rw [hlow x (by omega)]
        exact if_neg (by omega)
      · by_cases hj' : j < 512
        · rw [hlow _ (by omega)]
          simp only [Dev.sector, splice]
          rw [if_pos (by omega), Nat.add_sub_cancel_left]
        · have h := hbuf herr (j - 512) (by omega)
          rw [hblk] at h
          have e1 : addr + 512 + (j - 512) = addr + j := by omega
          have e2 : 512 * (blk.toNat + 1) + (j - 512) = 512 * blk.toNat + j := by omega
          rw [e1, e2] at h
          exact h
    · rw [if_neg hok]
      exact ⟨rfl, fun _ _ => rfl, fun herr => absurd herr (by simp)⟩

/-- A write of consecutive sectors leaves the rest of the disk. -/
theorem dio_loop_write (n : ℕ) (blk : BitVec 16) (addr : ℕ) (d : Dev)
    (hn : blk.toNat + n < 2 ^ 16) :
    (dio_loop ok .DSKWRITE n blk addr d).1.buf = d.buf ∧
      (∀ x, x < 512 * blk.toNat ∨ 512 * (blk.toNat + n) ≤ x →
        (dio_loop ok .DSKWRITE n blk addr d).1.disk x = d.disk x) ∧
      ((dio_loop ok .DSKWRITE n blk addr d).2 = false → ∀ j < 512 * n,
        (dio_loop ok .DSKWRITE n blk addr d).1.disk (512 * blk.toNat + j) = d.buf (addr + j)) := by
  induction n generalizing blk addr d with
  | zero => exact ⟨rfl, fun _ _ => rfl, fun _ j hj => absurd hj (Nat.not_lt_zero j)⟩
  | succ n ih =>
    have hblk : (blk + 1).toNat = blk.toNat + 1 := by
      have h1 : (1 : BitVec 16).toNat = 1 := rfl
      rw [BitVec.toNat_add, h1, Nat.mod_eq_of_lt (by omega)]
    rw [dio_loop]
    by_cases hok : ok d.io = true
    · rw [if_pos hok]
      obtain ⟨hbuf, hrest, hdisk⟩ := ih (blk + 1) (addr + 512)
        { d.sector .DSKWRITE blk addr with io := d.io + 1 } (by omega)
      rw [hblk] at hrest hdisk
      refine ⟨hbuf, fun x hx => ?_, fun herr j hj => ?_⟩
      · rw [hrest x (by omega)]
        exact if_neg (by omega)
      · by_cases hj' : j < 512
        · rw [hrest _ (by omega)]
          simp only [Dev.sector, splice]
          rw [if_pos (by omega), Nat.add_sub_cancel_left]
        · have h := hdisk herr (j - 512) (by omega)
          have e1 : addr + 512 + (j - 512) = addr + j := by omega
          have e2 : 512 * (blk.toNat + 1) + (j - 512) = 512 * blk.toNat + j := by omega
          rw [e1, e2] at h
          exact h
    · rw [if_neg hok]
      exact ⟨rfl, fun _ _ => rfl, fun herr => absurd herr (by simp)⟩

/-- When no sector fails the whole transfer succeeds. -/
theorem dio_loop_ok (cmd : Cmd) (n : ℕ) (blk : BitVec 16) (addr : ℕ) (d : Dev)
    (h : ∀ k < n, ok (d.io + k) = true) :
    (dio_loop ok cmd n blk addr d).2 = false ∧ (dio_loop ok cmd n blk addr d).1.io = d.io + n := by
  induction n generalizing blk addr d with
  | zero => exact ⟨rfl, rfl⟩
  | succ n ih =>
    have h0 : ok d.io = true := h 0 (Nat.succ_pos n)
    rw [dio_loop, if_pos h0]
    obtain ⟨h1, h2⟩ := ih (blk + 1) (addr + 512) { d.sector cmd blk addr with io := d.io + 1 }
      (fun k hk => by
        have hk' := h (k + 1) (by omega)
        rw [← Nat.add_assoc, Nat.add_right_comm] at hk'
        exact hk')
    refine ⟨h1, h2.trans ?_⟩
    rw [Nat.add_assoc, Nat.add_comm 1 n]

/-- The first physical sector of a track. -/
theorem blk_toNat {trk : BitVec 16} (h : trk.toNat < 2048) :
    (trk * BitVec.ofNat 16 PTRKSZ).toNat = 8 * trk.toNat := by
  have h8 : (BitVec.ofNat 16 PTRKSZ).toNat = 8 := rfl
  rw [BitVec.toNat_mul, h8]
  omega

/-- **Reading a track.** -/
theorem dskxfer_read (dsk : BitVec 16) {trk : BitVec 16} (s : State) (h : trk.toNat < 2048) :
    (dskxfer ok dsk trk .DSKREAD s).disk = s.disk ∧
      ((dskxfer ok dsk trk .DSKREAD s).dskerr = false → ∀ j < 4096,
        (dskxfer ok dsk trk .DSKREAD s).trkbuf j = s.disk (4096 * trk.toNat + j)) := by
  have hblk := blk_toNat h
  obtain ⟨h1, -, h3⟩ := @dio_loop_read ok PTRKSZ (trk * BitVec.ofNat 16 PTRKSZ) 0
    ⟨s.disk, s.trkbuf, s.io⟩ (by rw [hblk, PTRKSZ]; omega)
  refine ⟨h1, fun herr j hj => ?_⟩
  have h4 := h3 herr j hj
  rw [hblk, Nat.zero_add] at h4
  have e : 512 * (8 * trk.toNat) + j = 4096 * trk.toNat + j := by omega
  rw [e] at h4
  exact h4

/-- **Writing a track.** -/
theorem dskxfer_write (dsk : BitVec 16) {trk : BitVec 16} (s : State) (h : trk.toNat < 2048) :
    (dskxfer ok dsk trk .DSKWRITE s).trkbuf = s.trkbuf ∧
      (∀ x, x < 4096 * trk.toNat ∨ 4096 * (trk.toNat + 1) ≤ x →
        (dskxfer ok dsk trk .DSKWRITE s).disk x = s.disk x) ∧
      ((dskxfer ok dsk trk .DSKWRITE s).dskerr = false → ∀ j < 4096,
        (dskxfer ok dsk trk .DSKWRITE s).disk (4096 * trk.toNat + j) = s.trkbuf j) := by
  have hblk := blk_toNat h
  obtain ⟨h1, h2, h3⟩ := @dio_loop_write ok PTRKSZ (trk * BitVec.ofNat 16 PTRKSZ) 0
    ⟨s.disk, s.trkbuf, s.io⟩ (by rw [hblk, PTRKSZ]; omega)
  refine ⟨h1, fun x hx => ?_, fun herr j hj => ?_⟩
  · exact h2 x (by rw [hblk, PTRKSZ]; omega)
  · have h4 := h3 herr j hj
    rw [hblk, Nat.zero_add] at h4
    have e : 512 * (8 * trk.toNat) + j = 4096 * trk.toNat + j := by omega
    rw [e] at h4
    exact h4

/-- A transfer none of whose sectors fails. -/
theorem dskxfer_ok (dsk trk : BitVec 16) (cmd : Cmd) {s : State}
    (h : ∀ k < 8, ok (s.io + k) = true) :
    (dskxfer ok dsk trk cmd s).dskerr = false ∧ (dskxfer ok dsk trk cmd s).io = s.io + 8 :=
  dio_loop_ok cmd PTRKSZ _ 0 ⟨s.disk, s.trkbuf, s.io⟩ h

/-! ## 3. The ledger -/

/-- What the sectors should hold, and which of them the callers rely on: those whose last WRITE
returned 0 and that have not been reported lost since. -/
structure Ledger where
  content : BitVec 16 → BitVec 16 → Sector
  owed : BitVec 16 → BitVec 16 → Prop

/-- At the start the sectors hold what the disk does. -/
def Ledger.boot (disk : ℕ → Byte) : Ledger := ⟨diskSector disk, fun _ _ => False⟩

/-- The error flag a call returns. -/
def Reply.err : Reply → Bool
  | .data _ e | .status e => e
  | _ => false

/-- The transfers a call has asked for. -/
def asked (s s' : State) : List Xfer := s'.log.take (s'.log.length - s.log.length)

/-- A call reports a track lost: a write of it has failed, and the call does not return 0. -/
def Reports (s s' : State) (r : Reply) (trk : BitVec 16) : Prop :=
  r.err = true ∧ ∃ x ∈ asked s s', x.cmd = .DSKWRITE ∧ x.trk = trk ∧ x.err = true

/-- The entry of a call. -/
def Ledger.next (g : Ledger) (s : State) (c : Call) (s' : State) (r : Reply) : Ledger :=
  match c with
  | .WRITE _ =>
    { content := fun trk sec =>
        if trk = s.settrk ∧ sec = s.setsec then s.mem.load s.setdma else g.content trk sec
      owed := fun trk sec =>
        (if trk = s.settrk ∧ sec = s.setsec then r.err = false else g.owed trk sec) ∧
          ¬ Reports s s' r trk }
  | _ => { g with owed := fun trk sec => g.owed trk sec ∧ ¬ Reports s s' r trk }

/-- The BIOS with the ledger kept beside it. -/
def audited (ok : ℕ → Bool) (x : State × Ledger) (c : Call) : (State × Ledger) × Reply :=
  let r := bios ok x.1 c
  ((r.1, x.2.next x.1 c r.1 r.2), r.2)

/-- The last read that has been asked of the disk. -/
def lastRead (log : List Xfer) : Option Xfer := log.find? fun x => x.cmd = .DSKREAD

/-- Every write asked of the disk follows a successful read of the same track. -/
def FromRead : List Xfer → Prop
  | [] => True
  | x :: older => FromRead older ∧ (x.cmd = .DSKWRITE →
      lastRead older = some ⟨.DSKREAD, x.dsk, x.trk, false⟩)

/-- Data that a caller relies on is still held dirty, or on the disk. -/
def Saved (s : State) (g : Ledger) : Prop :=
  ∀ trk sec, LegalSector trk sec → g.owed trk sec →
    (s.tbvalid = true ∧ s.tbdirty = true ∧ s.tbdsk = 0 ∧ s.tbtrk = trk ∧
        bufSector s.trkbuf (sectorAt sec) = g.content trk sec) ∨
      diskSector s.disk trk sec = g.content trk sec

/-! ## 4. The condition -/

/-- The buffer was filled by a read that succeeded. -/
def Filled (s : State) : Prop := lastRead s.log = some ⟨.DSKREAD, s.tbdsk, s.tbtrk, false⟩

/-- The buffer holds what is on the disk. -/
def Same (s : State) : Prop := ∀ j < 4096, s.trkbuf j = s.disk (4096 * s.tbtrk.toNat + j)

/-- The `n` sector transfers after the first `k` to come succeed. -/
def Succeed (ok : ℕ → Bool) (s : State) (k n : ℕ) : Prop := ∀ i < n, ok (s.io + k + i) = true

/-- The number of sectors to be written before the buffer can be refilled. -/
def owing (s : State) : ℕ := if s.tbvalid && s.tbdirty then 8 else 0

/-- The buffer can be refilled without loss: a write-back does not fail, and data whose write
failed before has been written since. -/
def Evicts (ok : ℕ → Bool) (s : State) : Prop :=
  Succeed ok s 0 (owing s) ∧ (s.tbvalid = true → s.tbdirty = false → Filled s → Same s)

/-- The condition on a step: a read or a write of another track than the buffer's evicts that
without loss, and what a write goes to has been read successfully. -/
def Meets (ok : ℕ → Bool) (s : State) : Call → Prop
  | .READ => wrongtk s = true → Evicts ok s
  | .WRITE _ => (wrongtk s = true → Evicts ok s ∧ Succeed ok s (owing s) 8) ∧
      (wrongtk s = false → Filled s)
  | _ => True

/-! ## 5. The invariant -/

/-- The sector the BIOS would find: in the buffer, when that holds the track, else on the disk. -/
def found (s : State) (trk sec : BitVec 16) : Sector :=
  if s.tbvalid = true ∧ s.tbtrk = trk then bufSector s.trkbuf (sectorAt sec)
  else diskSector s.disk trk sec

/-- **The invariant.**  The buffer belongs to the disk and is dirty only when valid.  Filled by a
good read, it stands for its track: the sectors found are those of the ledger.  After a bad read
it is not dirty and the error flag is up, until something else is read; the sectors are on the
disk. -/
structure Inv (s : State) (g : Ledger) : Prop where
  own : s.tbvalid = true → s.tbdsk = 0 ∧ s.tbtrk.toNat < 2048
  dirty : s.tbdirty = true → s.tbvalid = true ∧ Filled s
  good : s.tbvalid = true → Filled s →
    ∀ trk sec, LegalSector trk sec → found s trk sec = g.content trk sec
  bad : s.tbvalid = true → ¬ Filled s →
    s.dskerr = true ∧ ∀ trk sec, LegalSector trk sec → diskSector s.disk trk sec = g.content trk sec
  empty : s.tbvalid = false →
    ∀ trk sec, LegalSector trk sec → diskSector s.disk trk sec = g.content trk sec
  saved : Saved s g
  fromRead : FromRead s.log

theorem Inv.boot (disk : ℕ → Byte) (mem : Mem) : Inv (boot disk mem) (Ledger.boot disk) where
  own h := absurd h (by simp [Bios.boot])
  dirty h := absurd h (by simp [Bios.boot])
  good h := absurd h (by simp [Bios.boot])
  bad h := absurd h (by simp [Bios.boot])
  empty _ _ _ _ := rfl
  saved _ _ _ h := absurd h id
  fromRead := trivial

/-- The ledger may promise less. -/
theorem Inv.weaken {s : State} {g g' : Ledger} (h : Inv s g) (hc : g'.content = g.content)
    (ho : ∀ trk sec, g'.owed trk sec → g.owed trk sec) : Inv s g' where
  own := h.own
  dirty := h.dirty
  good := by
    rw [hc]
    exact h.good
  bad := by
    rw [hc]
    exact h.bad
  empty := by
    rw [hc]
    exact h.empty
  saved := by
    intro trk sec hl hg
    rw [hc]
    exact h.saved trk sec hl (ho trk sec hg)
  fromRead := h.fromRead

theorem asked_eq {s s' : State} {xs : List Xfer} (h : s'.log = xs ++ s.log) : asked s s' = xs := by
  rw [asked, h, List.length_append, Nat.add_sub_cancel, List.take_left]

/-- A write leaves the other tracks of the disk. -/
theorem diskSector_write (dsk : BitVec 16) {trk trk' sec : BitVec 16} (s : State)
    (h : trk.toNat < 2048) (hl : LegalSector trk' sec) (hne : trk' ≠ trk) :
    diskSector (dskxfer ok dsk trk .DSKWRITE s).disk trk' sec = diskSector s.disk trk' sec := by
  obtain ⟨-, hrest, -⟩ := @dskxfer_write ok dsk trk s h
  have hne' : trk'.toNat ≠ trk.toNat := fun e => hne (BitVec.eq_of_toNat_eq e)
  funext i
  have hi := hl.at_lt i
  exact hrest _ (by omega)

/-- ... and puts the buffer on its own. -/
theorem diskSector_written (dsk : BitVec 16) {trk sec : BitVec 16} (s : State)
    (h : trk.toNat < 2048) (hl : LegalSector trk sec)
    (herr : (dskxfer ok dsk trk .DSKWRITE s).dskerr = false) :
    diskSector (dskxfer ok dsk trk .DSKWRITE s).disk trk sec =
      bufSector s.trkbuf (sectorAt sec) := by
  obtain ⟨-, -, hdisk⟩ := @dskxfer_write ok dsk trk s h
  funext i
  have hd := hdisk herr (sectorAt sec + i) (hl.at_lt i)
  rw [← Nat.add_assoc] at hd
  exact hd

/-- Reading a track puts it into the buffer. -/
theorem bufSector_read (dsk : BitVec 16) {trk sec : BitVec 16} (s : State)
    (h : trk.toNat < 2048) (hl : LegalSector trk sec)
    (herr : (dskxfer ok dsk trk .DSKREAD s).dskerr = false) :
    bufSector (dskxfer ok dsk trk .DSKREAD s).trkbuf (sectorAt sec) =
      diskSector s.disk trk sec := by
  obtain ⟨-, hbuf⟩ := @dskxfer_read ok dsk trk s h
  funext i
  have hd := hbuf herr (sectorAt sec + i) (hl.at_lt i)
  rw [← Nat.add_assoc] at hd
  exact hd

theorem flush_of_dirty {s : State} (hd : s.tbdirty = true) (hv : s.tbvalid = true) :
    flush ok s = { dskxfer ok s.tbdsk s.tbtrk .DSKWRITE s with tbdirty := false } := by
  rw [flush, hd, hv]
  rfl

theorem flush_of_clean {s : State} (hd : s.tbdirty = false) : flush ok s = s := by
  rw [flush, hd]
  cases s
  simp_all

/-- A flush loses a track when it is dirty and cannot be written. -/
def Loses (ok : ℕ → Bool) (s : State) (trk : BitVec 16) : Prop :=
  s.tbdirty = true ∧ trk = s.tbtrk ∧ (flush ok s).dskerr = true

/-- **Flushing keeps the invariant**, but for what it loses. -/
theorem Inv.flush {s : State} {g : Ledger} (h : Inv s g) :
    Inv (flush ok s) { g with owed := fun trk sec => g.owed trk sec ∧ ¬ Loses ok s trk } := by
  cases hd : s.tbdirty with
  | false =>
    rw [flush_of_clean hd]
    exact h.weaken rfl fun _ _ hg => hg.1
  | true =>
    obtain ⟨hv, hf⟩ := h.dirty hd
    obtain ⟨hdsk, htrk⟩ := h.own hv
    have hfl := @flush_of_dirty ok s hd hv
    obtain ⟨hbuf, -, -⟩ := @dskxfer_write ok s.tbdsk s.tbtrk s htrk
    have hgood := h.good hv hf
    rw [hfl]
    refine ⟨fun _ => ⟨hdsk, htrk⟩, fun hd' => absurd hd' (by simp), ?_, ?_, ?_, ?_, ?_⟩
    · intro _ _ trk sec hl
      rw [← hgood trk sec hl, found, found]
      by_cases ht : s.tbtrk = trk
      · rw [if_pos ⟨hv, ht⟩, if_pos ⟨hv, ht⟩]
        exact congrArg (fun b => bufSector b (sectorAt sec)) hbuf
      · rw [if_neg fun hc => ht hc.2, if_neg fun hc => ht hc.2]
        exact diskSector_write s.tbdsk s htrk hl fun e => ht e.symm
    · intro _ hnf
      exact absurd hf hnf
    · intro hnv
      have hnv' : s.tbvalid = false := hnv
      rw [hv] at hnv'
      cases hnv'
    · rintro trk sec hl ⟨hg, hlost⟩
      right
      by_cases ht : s.tbtrk = trk
      · have herr : (dskxfer ok s.tbdsk s.tbtrk .DSKWRITE s).dskerr = false := by
          rw [← Bool.not_eq_true]
          intro herr
          exact hlost ⟨hd, ht.symm, by rw [hfl]; exact herr⟩
        have hc := hgood trk sec hl
        rw [found, if_pos ⟨hv, ht⟩] at hc
        rw [← hc]
        rw [← ht] at hl ⊢
        exact diskSector_written s.tbdsk s htrk hl herr
      · rcases h.saved trk sec hl hg with ⟨-, -, -, ht', -⟩ | hdisk
        · exact absurd ht' ht
        · rw [← hdisk]
          exact diskSector_write s.tbdsk s htrk hl fun e => ht e.symm
    · exact ⟨h.fromRead, fun _ => hf⟩

/-- A flush leaves the selection and the caller's memory. -/
theorem flush_frame (s : State) :
    (flush ok s).settrk = s.settrk ∧ (flush ok s).setsec = s.setsec ∧
      (flush ok s).setdsk = s.setdsk ∧ (flush ok s).setdma = s.setdma ∧
      (flush ok s).mem = s.mem := by
  rw [flush]
  split_ifs
  · exact ⟨rfl, rfl, rfl, rfl, rfl⟩
  · exact ⟨rfl, rfl, rfl, rfl, rfl⟩

/-- The transfers of a flush. -/
theorem flush_log (s : State) : ∃ xs, (flush ok s).log = xs ++ s.log ∧
    (∀ trk, s.tbvalid = true → Loses ok s trk →
      ∃ x ∈ xs, x.cmd = .DSKWRITE ∧ x.trk = trk ∧ x.err = true) ∧
    (∀ x ∈ xs, x.err = (flush ok s).dskerr) := by
  by_cases hd : s.tbdirty = true ∧ s.tbvalid = true
  · have hfl := @flush_of_dirty ok s hd.1 hd.2
    refine ⟨[⟨.DSKWRITE, s.tbdsk, s.tbtrk, (flush ok s).dskerr⟩], by rw [hfl]; rfl, ?_, ?_⟩
    · rintro trk - ⟨-, rfl, herr⟩
      exact ⟨_, List.mem_singleton_self _, rfl, rfl, herr⟩
    · intro x hx
      rw [List.mem_singleton.mp hx]
  · have hfl : flush ok s = { s with tbdirty := false } := by
      rw [flush]
      cases h1 : s.tbdirty <;> cases h2 : s.tbvalid <;> simp_all
    refine ⟨[], by rw [hfl]; rfl, ?_, fun x hx => absurd hx (List.not_mem_nil)⟩
    rintro trk hv ⟨hd', -, -⟩
    exact absurd ⟨hd', hv⟩ hd

/-! ## 6. Refilling the buffer -/

/-- The state in which the buffer is refilled: nothing is pending, and the disk is what the ledger
says. -/
structure Evicted (s t : State) (g : Ledger) : Prop where
  clean : t.tbdirty = false
  disk : ∀ trk sec, LegalSector trk sec → diskSector t.disk trk sec = g.content trk sec
  fromRead : FromRead t.log
  log : ∃ xs, t.log = xs ++ s.log ∧ ∀ x ∈ xs, x.err = false
  sel : t.settrk = s.settrk ∧ t.setsec = s.setsec ∧ t.setdsk = s.setdsk ∧ t.setdma = s.setdma ∧
    t.mem = s.mem

/-- What a refill does with the old contents. -/
theorem Inv.evicted {s : State} {g : Ledger} (h : Inv s g) (he : Evicts ok s) :
    Evicted s (if s.tbvalid && s.tbdirty then Bios.flush ok s else s) g ∧
      (if s.tbvalid && s.tbdirty then Bios.flush ok s else s).io = s.io + owing s := by
  obtain ⟨hok, hsame⟩ := he
  rw [owing] at hok ⊢
  cases hd : s.tbdirty with
  | true =>
    obtain ⟨hv, hf⟩ := h.dirty hd
    have htrk := (h.own hv).2
    rw [hv, hd] at hok
    obtain ⟨herr, hio⟩ := @dskxfer_ok ok s.tbdsk s.tbtrk .DSKWRITE s hok
    have hgood := h.good hv hf
    simp only [hv, Bool.and_true, if_true]
    rw [flush_of_dirty hd hv]
    refine ⟨⟨rfl, ?_, ⟨h.fromRead, fun _ => hf⟩, ⟨[_], rfl, ?_⟩, ⟨rfl, rfl, rfl, rfl, rfl⟩⟩, hio⟩
    · intro trk sec hl
      rw [← hgood trk sec hl, found]
      by_cases ht : s.tbtrk = trk
      · rw [if_pos ⟨hv, ht⟩]
        rw [← ht] at hl ⊢
        exact diskSector_written s.tbdsk s htrk hl herr
      · rw [if_neg fun hc => ht hc.2]
        exact diskSector_write s.tbdsk s htrk hl fun e => ht e.symm
    · intro x hx
      rw [List.mem_singleton.mp hx]
      exact herr
  | false =>
    simp only [Bool.and_false, Bool.false_eq_true, if_false]
    refine ⟨⟨hd, ?_, h.fromRead, ⟨[], rfl, fun x hx => absurd hx List.not_mem_nil⟩,
      ⟨rfl, rfl, rfl, rfl, rfl⟩⟩, rfl⟩
    intro trk sec hl
    cases hv : s.tbvalid with
    | false => exact h.empty hv trk sec hl
    | true =>
      by_cases hf : Filled s
      · rw [← h.good hv hf trk sec hl, found]
        by_cases ht : s.tbtrk = trk
        · rw [if_pos ⟨hv, ht⟩]
          funext i
          have hj := hsame hv hd hf (sectorAt sec + i) (hl.at_lt i)
          rw [ht, ← Nat.add_assoc] at hj
          exact hj.symm
        · rw [if_neg fun hc => ht hc.2]
      · exact (h.bad hv hf).2 trk sec hl

/-- The state after `gettrk`: the buffer belongs to the selected track. -/
structure Gotten (s t : State) (g : Ledger) : Prop where
  inv : Inv t g
  valid : t.tbvalid = true
  trk : t.tbtrk = s.settrk
  dsk : t.tbdsk = 0
  log : ∃ xs, t.log = xs ++ s.log ∧ ∀ x ∈ xs, x.cmd = .DSKWRITE → x.err = false
  sel : t.settrk = s.settrk ∧ t.setsec = s.setsec ∧ t.setdsk = s.setdsk ∧ t.setdma = s.setdma ∧
    t.mem = s.mem

/-- Reading the selected track into an evicted buffer. -/
theorem Evicted.fill {s t : State} {g : Ledger} (h : Evicted s t g) (hdsk : s.setdsk = 0)
    (htrk : s.settrk.toNat < 2048) :
    Gotten s { dskxfer ok t.setdsk t.settrk .DSKREAD t with
      tbvalid := true, tbdirty := false, tbtrk := t.settrk, tbdsk := t.setdsk } g := by
  obtain ⟨e1, e2, e3, e4, e5⟩ := h.sel
  have hdsk' : t.setdsk = 0 := e3.trans hdsk
  have htrk' : t.settrk.toNat < 2048 := by rwa [e1]
  obtain ⟨hdisk, -⟩ := @dskxfer_read ok t.setdsk t.settrk t htrk'
  have hsec : ∀ trk sec, LegalSector trk sec →
      diskSector (dskxfer ok t.setdsk t.settrk .DSKREAD t).disk trk sec = g.content trk sec := by
    intro trk sec hl
    rw [hdisk]
    exact h.disk trk sec hl
  obtain ⟨xs, hlog, herr⟩ := h.log
  refine ⟨⟨fun _ => ⟨hdsk', htrk'⟩, fun hd => absurd hd (by simp), ?_, ?_, ?_, ?_, ?_⟩,
    rfl, e1, hdsk', ⟨⟨.DSKREAD, t.setdsk, t.settrk, (dskxfer ok t.setdsk t.settrk .DSKREAD t).dskerr⟩
      :: xs, ?_, ?_⟩, e1, e2, e3, e4, e5⟩
  · intro _ hf trk sec hl
    have herr' : (dskxfer ok t.setdsk t.settrk .DSKREAD t).dskerr = false :=
      congrArg Xfer.err (Option.some.inj hf)
    rw [found]
    by_cases ht : t.settrk = trk
    · rw [if_pos ⟨rfl, ht⟩, ← h.disk trk sec hl]
      rw [← ht] at hl ⊢
      exact bufSector_read t.setdsk t htrk' hl herr'
    · rw [if_neg fun hc => ht hc.2]
      exact hsec trk sec hl
  · intro _ hnf
    refine ⟨?_, hsec⟩
    rw [← Bool.not_eq_false]
    intro herr'
    exact hnf (congrArg (fun e => some (Xfer.mk .DSKREAD t.setdsk t.settrk e)) herr')
  · intro hv
    exact absurd hv (by simp)
  · intro trk sec hl _
    exact Or.inr (hsec trk sec hl)
  · exact ⟨h.fromRead, fun hc => absurd hc (by simp)⟩
  · exact congrArg (List.cons _) hlog
  · intro x hx hc
    rcases List.mem_cons.mp hx with rfl | hx'
    · cases hc
    · exact herr x hx'

/-- **Getting the selected track** keeps the invariant, when the old one is evicted without
loss. -/
theorem Inv.gettrk {s : State} {g : Ledger} (h : Inv s g) (hdsk : s.setdsk = 0)
    (htrk : s.settrk.toNat < 2048) (he : wrongtk s = true → Evicts ok s) :
    Gotten s (gettrk ok s) g := by
  rw [Bios.gettrk]
  cases hw : wrongtk s with
  | true =>
    rw [if_pos rfl]
    exact (h.evicted (he hw)).1.fill hdsk htrk
  | false =>
    rw [if_neg Bool.false_ne_true]
    rw [wrongtk, Bool.or_eq_false_iff, Bool.or_eq_false_iff] at hw
    obtain ⟨⟨hv, ht⟩, hd⟩ := hw
    refine ⟨h, by simpa using hv, by simpa using ht, ?_, ⟨[], rfl, fun x hx => ?_⟩,
      ⟨rfl, rfl, rfl, rfl, rfl⟩⟩
    · rw [← hdsk]
      simpa using hd
    · exact absurd hx List.not_mem_nil

/-- When the read succeeds too, what is gotten has been filled. -/
theorem Inv.gettrk_filled {s : State} {g : Ledger} (h : Inv s g) (c : BitVec 32)
    (hm : Meets ok s (.WRITE c)) : Filled (Bios.gettrk ok s) := by
  rw [Bios.gettrk]
  cases hw : wrongtk s with
  | true =>
    rw [if_pos rfl, filltb]
    obtain ⟨he, hread⟩ := hm.1 hw
    obtain ⟨-, hio⟩ := h.evicted he
    have hok : ∀ k < 8,
        ok ((if s.tbvalid && s.tbdirty then Bios.flush ok s else s).io + k) = true := by
      rw [hio]
      exact hread
    exact congrArg (fun e => some (Xfer.mk .DSKREAD _ _ e)) (dskxfer_ok _ _ .DSKREAD hok).1
  | false =>
    rw [if_neg Bool.false_ne_true]
    exact hm.2 hw

/-! ## 7. The calls -/

/-- The sector a read delivers, and whether it is one to rely on. -/
theorem Gotten.delivers {s t : State} {g : Ledger} (h : Gotten s t g)
    (hl : LegalSector s.settrk s.setsec) (herr : t.dskerr = false) :
    bufSector t.trkbuf (sectorAt t.setsec) = g.content s.settrk s.setsec := by
  have hf : Filled t := by
    by_contra hnf
    have := (h.inv.bad h.valid hnf).1
    rw [herr] at this
    cases this
  have hc := h.inv.good h.valid hf s.settrk s.setsec hl
  rw [found, if_pos ⟨h.valid, h.trk⟩] at hc
  rw [h.sel.2.1]
  exact hc

/-- A sector written into the buffer. -/
theorem Gotten.write {s t : State} {g : Ledger} (h : Gotten s t g) (hf : Filled t)
    (hl : LegalSector s.settrk s.setsec) (b : Sector) :
    Inv { t with trkbuf := setBufSector t.trkbuf (sectorAt t.setsec) b, tbdirty := true }
      { content := fun trk sec => if trk = s.settrk ∧ sec = s.setsec then b else g.content trk sec
        owed := fun trk sec => (trk = s.settrk ∧ sec = s.setsec) ∨ g.owed trk sec } := by
  have hfound : ∀ trk sec, LegalSector trk sec →
      found { t with trkbuf := setBufSector t.trkbuf (sectorAt t.setsec) b, tbdirty := true } trk sec =
        if trk = s.settrk ∧ sec = s.setsec then b else g.content trk sec := by
    intro trk sec hl'
    rw [← h.inv.good h.valid hf trk sec hl']
    by_cases ht : t.tbtrk = trk
    · have hset : bufSector (setBufSector t.trkbuf (sectorAt t.setsec) b) (sectorAt sec) =
          if sec = s.setsec then b else bufSector t.trkbuf (sectorAt sec) := by
        rw [h.sel.2.1]
        exact bufSector_set hl hl' _ _
      have htrk : trk = s.settrk := ht.symm.trans h.trk
      have e : found t trk sec = bufSector t.trkbuf (sectorAt sec) := if_pos ⟨h.valid, ht⟩
      rw [e, htrk]
      simp only [true_and]
      rw [← hset]
      exact if_pos ⟨h.valid, h.trk⟩
    · have hne : ¬ (trk = s.settrk ∧ sec = s.setsec) := fun hc => ht (h.trk.trans hc.1.symm)
      have e : found t trk sec = diskSector t.disk trk sec := if_neg fun hc => ht hc.2
      rw [e, if_neg hne]
      exact if_neg fun hc => ht hc.2
  refine ⟨h.inv.own, fun _ => ⟨h.valid, hf⟩, fun _ _ => hfound, fun _ hnf => absurd hf hnf,
    fun hnv => ?_, ?_, h.inv.fromRead⟩
  · have hnv' : t.tbvalid = false := hnv
    rw [h.valid] at hnv'
    cases hnv'
  · intro trk sec hl' ho
    have hc := hfound trk sec hl'
    rw [found] at hc
    by_cases ht : t.tbtrk = trk
    · rw [if_pos ⟨h.valid, ht⟩] at hc
      exact Or.inl ⟨h.valid, rfl, h.dsk, ht, hc⟩
    · rw [if_neg fun hc => ht hc.2] at hc
      exact Or.inr hc

/-- The selection and the caller's memory are not in the invariant. -/
theorem Inv.select {s : State} {g : Ledger} (h : Inv s g) (settrk setsec setdsk : BitVec 16)
    (setdma : BitVec 32) (mem : Mem) :
    Inv { s with settrk := settrk, setsec := setsec, setdsk := setdsk, setdma := setdma, mem := mem }
      g :=
  ⟨h.own, h.dirty, h.good, h.bad, h.empty, h.saved, h.fromRead⟩

/-- A flush that loses a track reports it. -/
theorem reports_of_loses {s t : State} {r : Reply} {trk : BitVec 16} (ys : List Xfer)
    (hlog : t.log = ys ++ s.log) (hv : t.tbvalid = true) (hr : r.err = (flush ok t).dskerr)
    (h : Loses ok t trk) : Reports s (flush ok t) r trk := by
  obtain ⟨xs, hxs, hlost, -⟩ := @flush_log ok t
  have hask : asked s (flush ok t) = xs ++ ys :=
    asked_eq (by rw [hxs, hlog, List.append_assoc])
  obtain ⟨x, hx, hx'⟩ := hlost trk hv h
  exact ⟨hr.trans h.2.2, x, by rw [hask]; exact List.mem_append_left _ hx, hx'⟩

/-- **One call keeps the invariant.** -/
theorem Inv.step {s : State} {g : Ledger} {c : Call} (h : Inv s g) (hl : Legal s c)
    (hm : Meets ok s c) : Inv (audited ok (s, g) c).1.1 (audited ok (s, g) c).1.2 := by
  cases c with
  | HOME => exact (h.select 0 s.setsec s.setdsk s.setdma s.mem).weaken rfl fun _ _ => And.left
  | SELDSK d1 =>
    exact (h.select s.settrk s.setsec (seldisk (argByte d1) s.setdsk).1 s.setdma s.mem).weaken rfl
      fun _ _ => And.left
  | SETTRK d1 =>
    exact (h.select (low d1) s.setsec s.setdsk s.setdma s.mem).weaken rfl fun _ _ => And.left
  | SETSEC d1 =>
    exact (h.select s.settrk (low d1) s.setdsk s.setdma s.mem).weaken rfl fun _ _ => And.left
  | SETDMA d1 =>
    exact (h.select s.settrk s.setsec s.setdsk d1 s.mem).weaken rfl fun _ _ => And.left
  | program f =>
    exact (h.select s.settrk s.setsec s.setdsk s.setdma (f s.mem)).weaken rfl fun _ _ => And.left
  | READ =>
    have hg := h.gettrk hl.1 hl.2.trk_le hm
    exact (hg.inv.select (Bios.gettrk ok s).settrk (Bios.gettrk ok s).setsec
      (Bios.gettrk ok s).setdsk (Bios.gettrk ok s).setdma _).weaken rfl fun _ _ => And.left
  | FLUSH =>
    refine (Inv.flush h).weaken rfl fun trk sec ho => ⟨ho.1, fun hlost => ho.2 ?_⟩
    exact reports_of_loses [] rfl (h.dirty hlost.1).1 rfl hlost
  | WRITE d1 =>
    have hg := h.gettrk hl.1 hl.2.trk_le fun hw => (hm.1 hw).1
    have hf := h.gettrk_filled d1 hm
    have hmem : (Bios.gettrk ok s).mem.load (Bios.gettrk ok s).setdma = s.mem.load s.setdma := by
      rw [hg.sel.2.2.2.2, hg.sel.2.2.2.1]
    have hw := hg.write hf hl.2 (s.mem.load s.setdma)
    rw [← hmem] at hw
    obtain ⟨ys, hys, -⟩ := hg.log
    rw [audited, bios, dskwrite]
    by_cases hmode : argByte d1 = 1
    · simp only [hmode, if_true]
      refine (Inv.flush hw).weaken ?_ fun trk sec ho => ⟨?_, fun hlost => ho.2 ?_⟩
      · rw [hmem]
        rfl
      · have ho' := ho.1
        by_cases hs : trk = s.settrk ∧ sec = s.setsec
        · exact Or.inl hs
        · rw [if_neg hs] at ho'
          exact Or.inr ho'
      · exact reports_of_loses ys hys hg.valid rfl hlost
    · simp only [if_neg hmode]
      refine hw.weaken ?_ fun trk sec ho => ?_
      · rw [hmem]
        rfl
      · have ho' := ho.1
        by_cases hs : trk = s.settrk ∧ sec = s.setsec
        · exact Or.inl hs
        · rw [if_neg hs] at ho'
          exact Or.inr ho'

/-! ## 8. Errors -/

/-- A run of the BIOS with the ledger beside it, on legal sectors. -/
def AuditedRun (ok : ℕ → Bool) (meets : State → Call → Prop) (disk : ℕ → Byte) (mem : Mem) :
    List (Call × Reply) → State × Ledger → Prop :=
  Run (audited ok) (fun x c => Legal x.1 c ∧ meets x.1 c) (boot disk mem, Ledger.boot disk)

/-- Reads that return 0 deliver what the ledger says, data relied on is held or on the disk, and
only tracks that were read are written. -/
structure Safe (ok : ℕ → Bool) (meets : State → Call → Prop) (x : State × Ledger) : Prop where
  read : Legal x.1 .READ → meets x.1 .READ → ∀ b, (bios ok x.1 .READ).2 = .data b false →
    b = x.2.content x.1.settrk x.1.setsec
  saved : Saved x.1 x.2
  fromRead : FromRead x.1.log

/-- **Error safety of the track buffer**, in every run whose steps all meet the condition. -/
theorem trackBuffer_safe (ok : ℕ → Bool) (disk : ℕ → Byte) (mem : Mem)
    {tr : List (Call × Reply)} {x : State × Ledger}
    (h : AuditedRun ok (Meets ok) disk mem tr x) : Safe ok (Meets ok) x := by
  have hinv : Inv x.1 x.2 := h.invariant (I := fun x => Inv x.1 x.2) (Inv.boot disk mem)
    fun y c hy hc => hy.step hc.1 hc.2
  refine ⟨fun hl hm b hb => ?_, hinv.saved, hinv.fromRead⟩
  have hg := hinv.gettrk hl.1 hl.2.trk_le hm
  rw [bios, dskread] at hb
  obtain ⟨hb, herr⟩ := Reply.data.inj hb
  rw [← hb, Mem.load_store]
  exact hg.delivers hl.2 herr

/-- A disk and a memory of zeros. -/
def zeros : ℕ → Byte := fun _ => 0

def zeroMem : Mem := fun _ _ => 0

/-- The theorem at the first read of a disk. -/
theorem trackBuffer_safe_read :
    Safe (fun _ => true) (Meets fun _ => true)
      (audited (fun _ => true) (audited (fun _ => true)
        (boot zeros zeroMem, Ledger.boot zeros) (.SETSEC 1)).1 .READ).1 :=
  trackBuffer_safe (fun _ => true) zeros zeroMem
    ((Run.nil.snoc ⟨trivial, trivial⟩).snoc
      ⟨⟨rfl, ⟨by decide, by decide, by decide⟩⟩,
        fun _ => ⟨fun _ _ => rfl, fun h => absurd h (by decide)⟩⟩)

/-- The ninth sector transfer fails. -/
def ninthFails : ℕ → Bool := fun n => n != 8

/-- A byte is written to the first sector of track 0, the write returning 0; track 1 is read, and
then track 0 is selected again. -/
def lostWrite : State × Ledger :=
  [.SETSEC 1, .program fun _ _ _ => 7, .WRITE 0, .SETTRK 1, .READ, .SETTRK 0].foldl
    (fun x c => (audited ninthFails x c).1) (boot zeros zeroMem, Ledger.boot zeros)

/-- **A failed write-back is hidden by the read that follows it**: what was written is lost, every
call returns 0, and the old contents are read. -/
theorem trackBuffer_loses :
    ¬ ∀ (ok : ℕ → Bool) (disk : ℕ → Byte) (mem : Mem) (tr : List (Call × Reply))
      (x : State × Ledger), AuditedRun ok (fun _ _ => True) disk mem tr x →
      Safe ok (fun _ _ => True) x := by
  intro h
  have hl : ∀ trk : BitVec 16, trk.toNat < 2048 → LegalSector trk 1 := fun trk ht =>
    ⟨ht, by decide, by decide⟩
  have hrun : ∃ tr, AuditedRun ninthFails (fun _ _ => True) zeros zeroMem tr lostWrite :=
    ⟨_, (((((Run.nil.snoc ⟨trivial, trivial⟩).snoc ⟨trivial, trivial⟩).snoc
      ⟨⟨rfl, hl 0 (by decide)⟩, trivial⟩).snoc ⟨trivial, trivial⟩).snoc
      ⟨⟨rfl, hl 1 (by decide)⟩, trivial⟩).snoc ⟨trivial, trivial⟩⟩
  obtain ⟨tr, hrun⟩ := hrun
  obtain ⟨b, hb, h0⟩ : ∃ b, (bios ninthFails lostWrite.1 .READ).2 = .data b false ∧ b 0 = 0 :=
    ⟨_, rfl, by decide⟩
  have hc := (h _ _ _ _ _ hrun).read ⟨rfl, hl 0 (by decide)⟩ trivial b hb
  have h7 : lostWrite.2.content lostWrite.1.settrk lostWrite.1.setsec 0 = 7 := by decide
  rw [← hc, h0] at h7
  exact absurd h7 (by decide)

/-! ## 9. No errors -/

/-- The disk calls on a plain array of sectors. -/
structure Plain where
  settrk : BitVec 16
  setsec : BitVec 16
  setdsk : BitVec 16
  setdma : BitVec 32
  mem : Mem
  sectors : BitVec 16 → BitVec 16 → BitVec 16 → Sector

def Plain.boot (sectors : BitVec 16 → BitVec 16 → BitVec 16 → Sector) (mem : Mem) : Plain :=
  ⟨0, 0, 0, 0, mem, sectors⟩

/-- A read copies the selected sector to the DMA address, a write the other way. -/
def Plain.step (p : Plain) : Call → Plain × Reply
  | .HOME => ({ p with settrk := 0 }, .zero)
  | .SELDSK d1 => let r := seldisk (argByte d1) p.setdsk; ({ p with setdsk := r.1 }, .dph r.2)
  | .SETTRK d1 => ({ p with settrk := low d1 }, .zero)
  | .SETSEC d1 => ({ p with setsec := low d1 }, .zero)
  | .SETDMA d1 => ({ p with setdma := d1 }, .zero)
  | .READ =>
    let b := p.sectors p.setdsk p.settrk p.setsec
    ({ p with mem := p.mem.store p.setdma b }, .data b false)
  | .WRITE _ =>
    ({ p with sectors := fun dsk trk sec =>
        if dsk = p.setdsk ∧ trk = p.settrk ∧ sec = p.setsec then p.mem.load p.setdma
        else p.sectors dsk trk sec }, .status false)
  | .FLUSH => (p, .status false)
  | .program f => ({ p with mem := f p.mem }, .zero)

/-- A device that never fails. -/
def reliable : ℕ → Bool := fun _ => true

/-- Without errors the flag stays down, the buffer is always filled, and clean it is as the
disk. -/
structure Coherent (s : State) : Prop where
  dskerr : s.dskerr = false
  filled : s.tbvalid = true → Filled s
  same : s.tbvalid = true → s.tbdirty = false → Same s

theorem Coherent.select {s : State} (h : Coherent s) (settrk setsec setdsk : BitVec 16)
    (setdma : BitVec 32) (mem : Mem) :
    Coherent { s with
      settrk := settrk, setsec := setsec, setdsk := setdsk, setdma := setdma, mem := mem } :=
  ⟨h.dskerr, h.filled, h.same⟩

theorem Coherent.evicts (hok : ∀ n, ok n = true) {s : State} (h : Coherent s) : Evicts ok s :=
  ⟨fun _ _ => hok _, fun hv hd _ => h.same hv hd⟩

/-- Every call meets the condition. -/
theorem Coherent.meets (hok : ∀ n, ok n = true) {s : State} (h : Coherent s) (c : Call) :
    Meets ok s c := by
  cases c with
  | READ => exact fun _ => h.evicts hok
  | WRITE d1 =>
    refine ⟨fun _ => ⟨h.evicts hok, fun _ _ => hok _⟩, fun hw => h.filled ?_⟩
    rw [wrongtk, Bool.or_eq_false_iff, Bool.or_eq_false_iff] at hw
    simpa using hw.1.1
  | _ => trivial

theorem Coherent.flush (hok : ∀ n, ok n = true) {s : State} {g : Ledger} (h : Coherent s)
    (hi : Inv s g) : Coherent (flush ok s) ∧ (flush ok s).tbdirty = false := by
  cases hd : s.tbdirty with
  | false =>
    rw [flush_of_clean hd]
    exact ⟨h, hd⟩
  | true =>
    obtain ⟨hv, hf⟩ := hi.dirty hd
    obtain ⟨-, htrk⟩ := hi.own hv
    obtain ⟨herr, -⟩ := @dskxfer_ok ok s.tbdsk s.tbtrk .DSKWRITE s fun _ _ => hok _
    obtain ⟨hbuf, -, hdisk⟩ := @dskxfer_write ok s.tbdsk s.tbtrk s htrk
    rw [flush_of_dirty hd hv]
    refine ⟨⟨herr, fun _ => hf, fun _ _ j hj => ?_⟩, rfl⟩
    exact (congrFun hbuf j).trans (hdisk herr j hj).symm

theorem Coherent.gettrk (hok : ∀ n, ok n = true) {s : State} (h : Coherent s)
    (htrk : s.settrk.toNat < 2048) : Coherent (gettrk ok s) := by
  rw [Bios.gettrk]
  cases hw : wrongtk s with
  | false =>
    rw [if_neg Bool.false_ne_true]
    exact h
  | true =>
    rw [if_pos rfl, filltb]
    have hsel : (if s.tbvalid && s.tbdirty then Bios.flush ok s else s).settrk = s.settrk := by
      split_ifs
      · exact (flush_frame s).1
      · rfl
    generalize (if s.tbvalid && s.tbdirty then Bios.flush ok s else s) = t at hsel ⊢
    obtain ⟨herr, -⟩ := @dskxfer_ok ok t.setdsk t.settrk .DSKREAD t fun _ _ => hok _
    obtain ⟨hdisk, hbuf⟩ := @dskxfer_read ok t.setdsk t.settrk t (by rwa [hsel])
    refine ⟨herr, fun _ => ?_, fun _ _ j hj => ?_⟩
    · exact congrArg (fun e => some (Xfer.mk .DSKREAD t.setdsk t.settrk e)) herr
    · exact (hbuf herr j hj).trans (congrFun hdisk _).symm

/-- Nothing pending: the disk is what the ledger says. -/
theorem Coherent.settled {s : State} {g : Ledger} (h : Coherent s) (hi : Inv s g)
    (hd : s.tbdirty = false) {trk sec : BitVec 16} (hl : LegalSector trk sec) :
    diskSector s.disk trk sec = g.content trk sec := by
  cases hv : s.tbvalid with
  | false => exact hi.empty hv trk sec hl
  | true =>
    rw [← hi.good hv (h.filled hv) trk sec hl, found]
    by_cases ht : s.tbtrk = trk
    · rw [if_pos ⟨hv, ht⟩]
      funext i
      have hj := h.same hv hd (sectorAt sec + i) (hl.at_lt i)
      rw [ht, ← Nat.add_assoc] at hj
      exact hj.symm
    · rw [if_neg fun hc => ht hc.2]

/-- The BIOS and the plain array: the same selection and memory, and the array is what the ledger
says. -/
structure Shows (s : State) (p : Plain) (g : Ledger) : Prop where
  inv : Inv s g
  coherent : Coherent s
  settrk : p.settrk = s.settrk
  setsec : p.setsec = s.setsec
  setdsk : p.setdsk = s.setdsk
  setdma : p.setdma = s.setdma
  mem : p.mem = s.mem
  sectors : ∀ trk sec, LegalSector trk sec → p.sectors 0 trk sec = g.content trk sec

/-- The calls after which nothing is pending. -/
def Settles : Call → Prop
  | .FLUSH => True
  | .WRITE d1 => argByte d1 = 1
  | _ => False

/-- **One call answers as on the array.** -/
theorem Shows.step (hok : ∀ n, ok n = true) {s : State} {p : Plain} {g : Ledger} {c : Call}
    (h : Shows s p g) (hl : Legal s c) :
    (bios ok s c).2 = (p.step c).2 ∧
      Shows (bios ok s c).1 (p.step c).1 (audited ok (s, g) c).1.2 ∧
      (Settles c → (bios ok s c).1.tbdirty = false) := by
  have hinv := h.inv.step hl (h.coherent.meets hok c)
  obtain ⟨hi, hc, e1, e2, e3, e4, e5, hsec⟩ := h
  cases c with
  | HOME =>
    exact ⟨rfl, ⟨hinv, hc.select _ _ _ _ _, rfl, e2, e3, e4, e5, hsec⟩, False.elim⟩
  | SELDSK d1 =>
    exact ⟨congrArg (fun d => Reply.dph (seldisk (argByte d1) d).2) e3.symm,
      ⟨hinv, hc.select _ _ _ _ _, e1, e2,
        congrArg (fun d => (seldisk (argByte d1) d).1) e3, e4, e5, hsec⟩, False.elim⟩
  | SETTRK d1 =>
    exact ⟨rfl, ⟨hinv, hc.select _ _ _ _ _, rfl, e2, e3, e4, e5, hsec⟩, False.elim⟩
  | SETSEC d1 =>
    exact ⟨rfl, ⟨hinv, hc.select _ _ _ _ _, e1, rfl, e3, e4, e5, hsec⟩, False.elim⟩
  | SETDMA d1 =>
    exact ⟨rfl, ⟨hinv, hc.select _ _ _ _ _, e1, e2, e3, rfl, e5, hsec⟩, False.elim⟩
  | program f =>
    exact ⟨rfl, ⟨hinv, hc.select _ _ _ _ _, e1, e2, e3, e4, congrArg f e5, hsec⟩, False.elim⟩
  | READ =>
    have hg := hi.gettrk hl.1 hl.2.trk_le fun _ => hc.evicts hok
    have hc' := hc.gettrk hok hl.2.trk_le
    obtain ⟨g1, g2, g3, g4, g5⟩ := hg.sel
    have hb : bufSector (Bios.gettrk ok s).trkbuf (sectorAt (Bios.gettrk ok s).setsec) =
        p.sectors p.setdsk p.settrk p.setsec := by
      rw [hg.delivers hl.2 hc'.dskerr, e3, hl.1, e1, e2, hsec _ _ hl.2]
    have hm : (p.step .READ).1.mem = (bios ok s .READ).1.mem := by
      simp only [bios, dskread, Plain.step]
      rw [hb, g5, g4, e5, e4]
    refine ⟨?_, ⟨hinv, hc'.select _ _ _ _ _, e1.trans g1.symm, e2.trans g2.symm, e3.trans g3.symm,
      e4.trans g4.symm, hm, hsec⟩, False.elim⟩
    simp only [bios, dskread, Plain.step, Mem.load_store]
    rw [hb, hc'.dskerr]
  | FLUSH =>
    obtain ⟨hc', hd⟩ := hc.flush hok hi
    obtain ⟨f1, f2, f3, f4, f5⟩ := @flush_frame ok s
    exact ⟨congrArg Reply.status hc'.dskerr,
      ⟨hinv, hc', e1.trans f1.symm, e2.trans f2.symm, e3.trans f3.symm, e4.trans f4.symm,
        e5.trans f5.symm, hsec⟩, fun _ => hd⟩
  | WRITE d1 =>
    have hg := hi.gettrk hl.1 hl.2.trk_le fun _ => hc.evicts hok
    have hc' := hc.gettrk hok hl.2.trk_le
    obtain ⟨g1, g2, g3, g4, g5⟩ := hg.sel
    have hsec' : ∀ trk sec, LegalSector trk sec →
        (p.step (.WRITE d1)).1.sectors 0 trk sec =
          (audited ok (s, g) (.WRITE d1)).1.2.content trk sec := by
      intro trk sec hl'
      simp only [Plain.step, audited, Ledger.next]
      rw [e1, e2, e3, e4, e5, hl.1, ← hsec trk sec hl']
      simp only [true_and]
    -- the buffer after the copy
    set u : State := { Bios.gettrk ok s with
      trkbuf := setBufSector (Bios.gettrk ok s).trkbuf (sectorAt (Bios.gettrk ok s).setsec)
        ((Bios.gettrk ok s).mem.load (Bios.gettrk ok s).setdma)
      tbdirty := true } with hu
    have hcu : Coherent u := ⟨hc'.dskerr, hc'.filled, fun _ hd => absurd hd (by simp [hu])⟩
    have hiu := hg.write (hc'.filled hg.valid) hl.2
      ((Bios.gettrk ok s).mem.load (Bios.gettrk ok s).setdma)
    have hcode : dskwrite ok (argByte d1) s =
        if argByte d1 = 1 then (Bios.flush ok u, (Bios.flush ok u).dskerr) else (u, u.dskerr) := by
      simp only [dskwrite]
      split_ifs <;> rfl
    have hb : (bios ok s (.WRITE d1)) = ((dskwrite ok (argByte d1) s).1,
        .status (dskwrite ok (argByte d1) s).2) := rfl
    have hinv' : Inv (dskwrite ok (argByte d1) s).1 (audited ok (s, g) (.WRITE d1)).1.2 := hinv
    rw [hb]
    by_cases hmode : argByte d1 = 1
    · rw [if_pos hmode] at hcode
      rw [hcode] at hinv' ⊢
      obtain ⟨hcf, hd⟩ := hcu.flush hok hiu
      obtain ⟨f1, f2, f3, f4, f5⟩ := @flush_frame ok u
      exact ⟨congrArg Reply.status hcf.dskerr,
        ⟨hinv', hcf, e1.trans (f1.trans g1).symm, e2.trans (f2.trans g2).symm,
          e3.trans (f3.trans g3).symm, e4.trans (f4.trans g4).symm, e5.trans (f5.trans g5).symm,
          hsec'⟩, fun _ => hd⟩
    · rw [if_neg hmode] at hcode
      rw [hcode] at hinv' ⊢
      exact ⟨congrArg Reply.status hcu.dskerr,
        ⟨hinv', hcu, e1.trans g1.symm, e2.trans g2.symm, e3.trans g3.symm, e4.trans g4.symm,
          e5.trans g5.symm, hsec'⟩, fun hs => absurd hs hmode⟩

theorem Shows.boot (disk : ℕ → Byte) (mem : Mem) :
    Shows (boot disk mem) (Plain.boot (fun _ => diskSector disk) mem) (Ledger.boot disk) :=
  ⟨Inv.boot disk mem, ⟨rfl, fun h => absurd h (by simp [Bios.boot]),
    fun h => absurd h (by simp [Bios.boot])⟩, rfl, rfl, rfl, rfl, rfl, fun _ _ _ => rfl⟩

/-- **A run shows the array.** -/
theorem Shows.run (hok : ∀ n, ok n = true) {disk : ℕ → Byte} {mem : Mem}
    {tr : List (Call × Reply)} {s : State} (h : Run (bios ok) Legal (Bios.boot disk mem) tr s) :
    ∃ p g, Run Plain.step (fun _ _ => True) (Plain.boot (fun _ => diskSector disk) mem) tr p ∧
      Shows s p g ∧ ∀ tr' c r, tr = tr' ++ [(c, r)] → Settles c → s.tbdirty = false := by
  induction h with
  | nil =>
    refine ⟨_, _, .nil, Shows.boot disk mem, fun tr' c r he => ?_⟩
    exact absurd he.symm (List.append_ne_nil_of_right_ne_nil _ (List.cons_ne_nil _ _))
  | snoc _ hl ih =>
    obtain ⟨p, g, hp, hS, -⟩ := ih
    obtain ⟨ho, hS', hd⟩ := hS.step hok hl
    refine ⟨_, _, ?_, hS', fun tr' c r he hset => hd ?_⟩
    · rw [ho]
      exact hp.snoc trivial
    · obtain ⟨-, hlast⟩ := List.append_inj' he rfl
      rw [(Prod.mk.inj (List.cons.inj hlast).1).1]
      exact hset

/-- **The track buffer is transparent.**  Without errors every run of calls answers as on a plain
array of sectors and leaves the caller's memory the same; after a FLUSH or a write-through the
disk is that array. -/
theorem trackBuffer_transparent (disk : ℕ → Byte) (mem : Mem) {tr : List (Call × Reply)} {s : State}
    (h : Run (bios reliable) Legal (boot disk mem) tr s) :
    ∃ p, Run Plain.step (fun _ _ => True) (Plain.boot (fun _ => diskSector disk) mem) tr p ∧
      p.mem = s.mem ∧
      ∀ tr' c r, tr = tr' ++ [(c, r)] → Settles c → ∀ trk sec, LegalSector trk sec →
        diskSector s.disk trk sec = p.sectors 0 trk sec := by
  obtain ⟨p, g, hp, hS, hlast⟩ := Shows.run (fun _ => rfl) h
  refine ⟨p, hp, hS.mem, fun tr' c r he hset trk sec hl => ?_⟩
  rw [hS.coherent.settled hS.inv (hlast tr' c r he hset) hl, hS.sectors trk sec hl]

/-- A write-through of sector 1. -/
def writeTrace : List (Call × Reply) := [(.SETSEC 1, .zero), (.WRITE 1, .status false)]

/-- The theorem at this trace. -/
theorem trackBuffer_transparent_write :
    ∃ p, Run Plain.step (fun _ _ => True) (Plain.boot (fun _ => diskSector zeros) zeroMem)
        writeTrace p ∧
      p.mem = (bios reliable (bios reliable (boot zeros zeroMem) (.SETSEC 1)).1 (.WRITE 1)).1.mem ∧
      ∀ tr' c r, writeTrace = tr' ++ [(c, r)] → Settles c → ∀ trk sec, LegalSector trk sec →
        diskSector (bios reliable (bios reliable (boot zeros zeroMem) (.SETSEC 1)).1
          (.WRITE 1)).1.disk trk sec = p.sectors 0 trk sec :=
  trackBuffer_transparent zeros zeroMem
    ((Run.nil.snoc trivial).snoc ⟨rfl, ⟨by decide, by decide, by decide⟩⟩)

end Cpm8000.Bios
