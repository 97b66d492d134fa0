/-
# The user data bank of the Z8002 demonstration board

The BIOS records two banks of the running program, for its code and for its data.  The loader sets them:
`set_usr` both, and for a program with separate spaces a request for the data space at address 0 the data
bank, to the one behind the code bank.  The floating-point emulator asks for the same space to reach its
operands.  The two are told apart by the address alone.

`usrdseg_stable_iff`: the emulator never changes the data bank just when no operand is at address 0, unless
the loader has asked for the separate bank itself.
-/
import Cpm8000.Bios.Z8002Demo
import Cpm8000.Arith.Word

namespace Cpm8000.Bios.Z8002Demo

open Arith

/-! ## 1. The code -/

/-- The banks that are recorded, as pseudo-segments. -/
structure Banks where
  sysseg : BitVec 16
  usrseg : BitVec 16
  usrdseg : BitVec 16

/-- Map program addr into data: the segment bits, with segment 2 split. -/
def map_prog (r6 : BitVec 16) : BitVec 16 :=
  let r6 := r6 &&& 0x7F00
  if hib r6 = 2 then word 1 (lob r6) else r6

/-- The TPA DATA base. -/
def usr_data (r6 r7 : BitVec 16) (b : Banks) : Banks × BitVec 16 :=
  if r6 = 0 ∧ r7 = 0 then
    let r6 := b.usrseg + 0x0100
    ({ b with usrdseg := r6 }, r6)
  else (b, b.usrdseg)

/-- Dispatch on the space; r2 is the caller's FCW, and the mapped address is returned. -/
def map_1 (r2 r5 r6 r7 : BitVec 16) (b : Banks) : Banks × BitVec 16 × BitVec 16 :=
  let space := lob r5
  if r5 = 0xFFFF then ({ b with usrseg := r6, usrdseg := r6 }, r6, r7)
  else if space = 0 then (b, if r2.getLsbD 14 then b.sysseg else b.usrdseg, r7)
  else if space = 1 then (b, if r2.getLsbD 14 then b.sysseg else map_prog b.usrseg, r7)
  else if space = 2 then (b, b.sysseg, r7)
  else if space = 3 then (b, b.sysseg, r7)
  else if space = 4 then
    let m := usr_data r6 r7 b
    (m.1, m.2, r7)
  else if space = 5 then (b, map_prog b.usrseg, r7)
  else (b, r6, r7)

/-- The segment of a system call's parameter: a BDOS call from normal mode gets the data bank. -/
def trap_disp (r1 fcw r6 : BitVec 16) (b : Banks) : BitVec 16 :=
  if r1 = 2 + 32 then
    if fcw.getLsbD 14 then r6 else b.usrdseg
  else r6

/-- The banks of the program that is given control. -/
def xfersc (b : Banks) (m : Machine) : Machine :=
  soutb 0xFFE1 (hib b.usrdseg) (soutb 0xFFE0 (hib b.usrseg) m)

/-! ## 2. Who asks -/

/-- The requests of the loader and of the emulator, with the caller's FCW: the loader sets the user bank,
or asks for the data bank of a program with separate spaces; the emulator maps an operand, the program
text, or its own buffer. -/
inductive Call
  | set_usr (r2 r6 r7 : BitVec 16)
  | split (r2 : BitVec 16)
  | operand (r2 r6 r7 : BitVec 16)
  | text (r2 r6 r7 : BitVec 16)
  | buffer (r2 r6 r7 : BitVec 16)

/-- What the BIOS is given. -/
def Call.serve : Call → Banks → Banks × BitVec 16 × BitVec 16
  | .set_usr r2 r6 r7 => map_1 r2 0xFFFF r6 r7
  | .split r2 => map_1 r2 4 0 0
  | .operand r2 r6 r7 => map_1 r2 4 r6 r7
  | .text r2 r6 r7 => map_1 r2 5 r6 r7
  | .buffer r2 r6 r7 => map_1 r2 0 r6 r7

/-- What the loader means by its requests; the emulator's mean no change. -/
def Call.intend : Call → Banks → Banks
  | .set_usr _ r6 _, b => { b with usrseg := r6, usrdseg := r6 }
  | .split _, b => { b with usrdseg := b.usrseg + 0x0100 }
  | .operand _ _ _, b => b
  | .text _ _ _, b => b
  | .buffer _ _ _, b => b

/-- The banks after some requests. -/
def served (b : Banks) (cs : List Call) : Banks := cs.foldl (fun b c => (c.serve b).1) b

/-- The banks that the loader has chosen. -/
def chosen (b : Banks) (cs : List Call) : Banks := cs.foldl (fun b c => c.intend b) b

/-- The operand is not at address 0, or the data bank is the one behind the code bank. -/
def Call.Harmless (b : Banks) : Call → Prop
  | .operand _ r6 r7 => r6 ≠ 0 ∨ r7 ≠ 0 ∨ b.usrdseg = b.usrseg + 0x0100
  | _ => True

/-- **The request `c` after the requests `pre` leaves the data bank that the loader has chosen**: it is
the one recorded, an operand is found there, and so are the parameters and the data of the program. -/
structure Stable (b : Banks) (pre : List Call) (c : Call) : Prop where
  usrdseg : (served b (pre ++ [c])).usrdseg = (chosen b (pre ++ [c])).usrdseg
  operand : ∀ r2 r6 r7, c = .operand r2 r6 r7 →
    (c.serve (served b pre)).2 = ((chosen b pre).usrdseg, r7)
  parameter : ∀ fcw r6, fcw.getLsbD 14 = false →
    trap_disp 34 fcw r6 (served b (pre ++ [c])) = (chosen b (pre ++ [c])).usrdseg
  data : ∀ m a, (xfersc (served b (pre ++ [c])) m).mmu.paddr false false a =
    physical (chosen b (pre ++ [c])).usrdseg a

/-! ## 3. The requests -/

theorem usr_data_nonzero {r6 r7 : BitVec 16} (h : ¬ (r6 = 0 ∧ r7 = 0)) (b : Banks) :
    usr_data r6 r7 b = (b, b.usrdseg) := if_neg h

theorem usr_data_zero (b : Banks) :
    usr_data 0 0 b = ({ b with usrdseg := b.usrseg + 0x0100 }, b.usrseg + 0x0100) :=
  if_pos ⟨rfl, rfl⟩

theorem serve_operand (r2 r6 r7 : BitVec 16) (b : Banks) :
    (Call.operand r2 r6 r7).serve b = ((usr_data r6 r7 b).1, (usr_data r6 r7 b).2, r7) := rfl

theorem serve_usrseg (c : Call) (b : Banks) : (c.serve b).1.usrseg = (c.intend b).usrseg := by
  cases c with
  | set_usr r2 r6 r7 => rfl
  | split r2 => rfl
  | operand r2 r6 r7 =>
    rw [serve_operand, usr_data]
    split_ifs <;> rfl
  | text r2 r6 r7 => rfl
  | buffer r2 r6 r7 => rfl

/-- **A request is what the loader means just when it is harmless.** -/
theorem serve_eq_intend {c : Call} {b : Banks} (h : c.Harmless b) : (c.serve b).1 = c.intend b := by
  cases c with
  | set_usr r2 r6 r7 => rfl
  | split r2 => rfl
  | operand r2 r6 r7 =>
    rw [serve_operand]
    by_cases h0 : r6 = 0 ∧ r7 = 0
    · obtain ⟨rfl, rfl⟩ := h0
      have hseg : b.usrdseg = b.usrseg + 0x0100 := by simpa [Call.Harmless] using h
      rw [usr_data_zero, ← hseg]
      rfl
    · rw [usr_data_nonzero h0]
      rfl
  | text r2 r6 r7 => rfl
  | buffer r2 r6 r7 => rfl

theorem operand_answer {r2 r6 r7 : BitVec 16} {b : Banks} (h : (Call.operand r2 r6 r7).Harmless b) :
    ((Call.operand r2 r6 r7).serve b).2 = (b.usrdseg, r7) := by
  rw [serve_operand]
  by_cases h0 : r6 = 0 ∧ r7 = 0
  · obtain ⟨rfl, rfl⟩ := h0
    have hseg : b.usrdseg = b.usrseg + 0x0100 := by simpa [Call.Harmless] using h
    rw [usr_data_zero, hseg]
  · rw [usr_data_nonzero h0]

/-- A request that leaves the chosen bank is harmless. -/
theorem harmless_of_usrdseg {c : Call} {b : Banks} (h : (c.serve b).1.usrdseg = (c.intend b).usrdseg) :
    c.Harmless b := by
  cases c with
  | operand r2 r6 r7 =>
    by_cases h0 : r6 = 0 ∧ r7 = 0
    · obtain ⟨rfl, rfl⟩ := h0
      rw [serve_operand, usr_data_zero] at h
      exact Or.inr (Or.inr h.symm)
    · rcases not_and_or.mp h0 with h6 | h7
      · exact Or.inl h6
      · exact Or.inr (Or.inl h7)
  | set_usr => trivial
  | split => trivial
  | text => trivial
  | buffer => trivial

/-! ## 4. Runs -/

theorem served_snoc (b : Banks) (pre : List Call) (c : Call) :
    served b (pre ++ [c]) = (c.serve (served b pre)).1 := by
  simp [served]

theorem chosen_snoc (b : Banks) (pre : List Call) (c : Call) :
    chosen b (pre ++ [c]) = c.intend (chosen b pre) := by
  simp [chosen]

theorem served_usrseg (b : Banks) (cs : List Call) : (served b cs).usrseg = (chosen b cs).usrseg := by
  induction cs using List.reverseRecOn with
  | nil => rfl
  | append_singleton pre c ih =>
    rw [served_snoc, chosen_snoc, serve_usrseg]
    cases c with
    | set_usr r2 r6 r7 => rfl
    | split r2 => exact ih
    | operand r2 r6 r7 => exact ih
    | text r2 r6 r7 => exact ih
    | buffer r2 r6 r7 => exact ih

/-- **Harmless requests leave the loader's banks.** -/
theorem served_eq_chosen {b : Banks} {cs : List Call}
    (h : ∀ pre c, pre ++ [c] <+: cs → c.Harmless (chosen b pre)) : served b cs = chosen b cs := by
  induction cs using List.reverseRecOn with
  | nil => rfl
  | append_singleton pre c ih =>
    have hpre : served b pre = chosen b pre := by
      refine ih fun pre' c' hp => ?_
      exact h pre' c' (hp.trans (List.prefix_append pre [c]))
    rw [served_snoc, chosen_snoc, hpre]
    exact serve_eq_intend (h pre c (List.prefix_refl _))

theorem bank_hib (seg : BitVec 16) : (hib seg).setWidth 3 = (seg >>> 8).setWidth 3 := by
  apply BitVec.eq_of_toNat_eq
  rw [BitVec.toNat_setWidth, BitVec.toNat_setWidth, toNat_hib, BitVec.toNat_ushiftRight,
    Nat.shiftRight_eq_div_pow]

/-- Normal mode sees the data bank. -/
theorem xfersc_data (b : Banks) (m : Machine) (a : BitVec 16) :
    (xfersc b m).mmu.paddr false false a = physical b.usrdseg a := by
  rw [physical, ← bank_hib]
  simp [xfersc, soutb, Mmu.write, Mmu.paddr]

/-- **The stable runs.**  After every request the data bank is the one that the loader has chosen, and
operands, parameters and the program's data are looked for there, just when no request of the emulator is
for address 0 while the data bank is not the one behind the code bank. -/
theorem usrdseg_stable_iff (b : Banks) (cs : List Call) :
    (∀ pre c, pre ++ [c] <+: cs → Stable b pre c) ↔
      ∀ pre r2 r6 r7, pre ++ [.operand r2 r6 r7] <+: cs →
        r6 ≠ 0 ∨ r7 ≠ 0 ∨ (chosen b pre).usrdseg = (chosen b pre).usrseg + 0x0100 := by
  constructor
  · intro h pre r2 r6 r7 hp
    -- the bank was the chosen one before the request
    have hd : (served b pre).usrdseg = (chosen b pre).usrdseg := by
      cases pre using List.reverseRecOn with
      | nil => rfl
      | append_singleton pre' c' =>
        exact (h pre' c' ((List.prefix_append _ _).trans hp)).usrdseg
    have hafter := (h pre _ hp).usrdseg
    rw [served_snoc, chosen_snoc] at hafter
    have hstay : ((Call.operand r2 r6 r7).serve (served b pre)).1.usrdseg =
        ((Call.operand r2 r6 r7).intend (served b pre)).usrdseg := hafter.trans hd.symm
    have hharm := harmless_of_usrdseg hstay
    rw [Call.Harmless, hd, served_usrseg] at hharm
    exact hharm
  · intro h
    have hharm : ∀ pre c, pre ++ [c] <+: cs → c.Harmless (chosen b pre) := by
      intro pre c hp
      cases c with
      | operand r2 r6 r7 => exact h pre r2 r6 r7 hp
      | set_usr => trivial
      | split => trivial
      | text => trivial
      | buffer => trivial
    intro pre c hp
    have heq (l : List Call) (hl : l <+: cs) : served b l = chosen b l :=
      served_eq_chosen fun pre' c' hp' => hharm pre' c' (hp'.trans hl)
    have hpre := heq pre ((List.prefix_append _ _).trans hp)
    have hsnoc := heq (pre ++ [c]) hp
    refine ⟨by rw [hsnoc], ?_, ?_, ?_⟩
    · rintro r2 r6 r7 rfl
      rw [hpre]
      exact operand_answer (hharm pre _ hp)
    · intro fcw r6 hf
      have hsc : (34 : BitVec 16) = 2 + 32 := by decide
      rw [hsnoc, trap_disp, if_pos hsc, hf]
      rfl
    · intro m a
      rw [xfersc_data, hsnoc]

/-- A program with one space in bank 1 has an operand at address 0: its data bank becomes bank 2. -/
theorem operand_zero_moves_bank :
    (chosen ⟨0, 0, 0⟩ [.set_usr 0x4000 0x0100 0, .operand 0x4000 0 0]).usrdseg = 0x0100 ∧
      (served ⟨0, 0, 0⟩ [.set_usr 0x4000 0x0100 0, .operand 0x4000 0 0]).usrdseg = 0x0200 ∧
      ¬ Stable ⟨0, 0, 0⟩ [.set_usr 0x4000 0x0100 0] (.operand 0x4000 0 0) := by
  refine ⟨by decide, by decide, fun h => ?_⟩
  exact absurd h.usrdseg (by decide)

end Cpm8000.Bios.Z8002Demo
