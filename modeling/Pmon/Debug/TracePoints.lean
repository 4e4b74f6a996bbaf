import Pmon.Debug.Distbl

/-!
# The breakpoints of a step

`setTrcbp` of `pmon/common/debugger.c` sets one or two breakpoints where the instruction at the
program counter may go.  It asks the table of instructions whether this is a branch or jump and
where it goes; the table knows them all but `eret`, behind which the next instruction of memory is
expected.  Address 0 cannot be held by a breakpoint.

## Key results

- `setTrcbp_next`: when the processor comes upon one of the breakpoints.
- `setTrcbp_eret`: a return from an exception goes elsewhere.
-/

namespace Pmon.Debug

open Lib
open Lib.Mips (Regs Transfer transferOf Taken target next SelfBranch)

/-! ## §1 The breakpoints of a step -/

/-- One of the two breakpoints is at `adr`. -/
def Trapped (s : Slots) (adr : ℕ) : Prop := adr ≠ noBpt ∧ (s.trc.addr = adr ∨ s.trcb.addr = adr)

instance (s : Slots) (adr : ℕ) : Decidable (Trapped s adr) := inferInstanceAs (Decidable (_ ∧ _))

section Points

variable {insn : Insn} {s : Slots} {adr a : ℕ}

/-- Instructions that are no branches. -/
theorem trapped_plain (h : insn.isBranch = false) :
    Trapped (setTrcbp adr false insn s) a ↔ a ≠ noBpt ∧ a = (adr + 4) % 4294967296 := by
  unfold Trapped setTrcbp
  rw [h]
  apply and_congr_right
  intro ha
  simp only [Bool.false_eq_true, if_false, Bps.at, Bps.free]
  constructor
  · rintro (hplain | hfree)
    · exact hplain.symm
    · exact absurd hfree.symm ha
  · intro hplain
    exact .inl hplain.symm

/-- Branches and jumps. -/
theorem trapped_branch (h : insn.isBranch = true) (hself : insn.branchTarget ≠ adr)
    (hwriteable : insn.isWriteable = true) :
    Trapped (setTrcbp adr false insn s) a ↔ a ≠ noBpt ∧
      (a = insn.branchTarget ∨ insn.isCondBranch = true ∧ a = (adr + 8) % 4294967296) := by
  unfold Trapped setTrcbp
  rw [h]
  apply and_congr_right
  intro ha
  simp only [if_true, if_neg hself, hwriteable, Bool.false_eq_true, and_false, not_true_eq_false,
    if_false, Bps.at, Bps.free]
  by_cases hcond : insn.isCondBranch = true ∧ insn.branchTarget ≠ (adr + 8) % 4294967296
  · rw [if_pos hcond]
    simp only [hcond.1, true_and, eq_comm (a := a), or_comm]
  · rw [if_neg hcond]
    -- the breakpoint behind the branch is missing only where it is the target
    grind

end Points

/-! ## §2 Where the processor goes -/

section Next

variable {inst pc epc : BitVec 32} {regs : Regs} {cp : Bool} {t : Transfer}

/-- A branch that the table takes for an unconditional one compares register 0. -/
theorem taken_off {c : Mips.Cond} {q : BitPattern 32} (hq : q.Matches inst)
    (hfits : Fits (q, getDistbl inst) (.branch c)) (hoff : mdIsCondBranch inst = false) :
    Taken c inst regs cp := by
  unfold mdIsCondBranch at hoff
  cases c with
  | eq =>
    obtain hrow | ⟨-, hrs, hrt⟩ := hfits
    · rw [show getDistbl inst = _ from hrow] at hoff
      cases hoff
    · have hrs : inst.extractLsb' 21 5 = 0 :=
        (BitPattern.matches_field (by decide)).mp (hrs.matches hq)
      have hrt : inst.extractLsb' 16 5 = 0 :=
        (BitPattern.matches_field (by decide)).mp (hrt.matches hq)
      simp only [Taken, Regs.rs, Regs.rt, hrs, hrt]
  | gez =>
    obtain hrow | ⟨-, hrs⟩ := hfits
    · rw [show getDistbl inst = _ from hrow] at hoff
      cases hoff
    · have hrs : inst.extractLsb' 21 5 = 0 :=
        (BitPattern.matches_field (by decide)).mp (hrs.matches hq)
      simp only [Taken, Regs.rs, hrs, regs.zero]
      decide
  | _ =>
    rw [show getDistbl inst = _ from hfits] at hoff
    cases hoff

/-- **A branch or jump goes to its target** or, if the table has it for a conditional branch, on
    behind its delay slot. -/
theorem next_transfer (h : transferOf inst = some t) (ht : t ≠ .eret) :
    next inst pc regs cp epc = target t inst pc regs epc ∨
      mdIsCondBranch inst = true ∧ next inst pc regs cp epc = pc + 8 := by
  unfold next
  rw [h]
  cases t with
  | branch c =>
    dsimp only
    by_cases htaken : Taken c inst regs cp
    · exact .inl (if_pos htaken)
    · rw [if_neg htaken]
      obtain ⟨q, hq, hfits⟩ := exists_fits h
      refine .inr ⟨?_, rfl⟩
      by_contra hoff
      exact htaken (taken_off hq hfits (by simpa using hoff))
  | jump | register => exact .inl rfl
  | eret => exact absurd rfl ht

/-- The table has every branch and jump. -/
theorem mdIsBranch_eq_true (h : transferOf inst = some t) (ht : t ≠ .eret) :
    mdIsBranch inst = true := by
  obtain ⟨q, -, hfits⟩ := exists_fits h
  unfold mdIsBranch
  cases t with
  | branch c =>
    cases c with
    | eq | gez =>
      obtain hrow | ⟨hrow, -⟩ := hfits
      · rw [show getDistbl inst = _ from hrow]
        rfl
      · rw [show getDistbl inst = _ from hrow]
        rfl
    | _ => rw [show getDistbl inst = _ from hfits]; rfl
  | jump => rw [show getDistbl inst = _ from hfits]; rfl
  | register => obtain hrow | hrow := hfits <;> rw [show getDistbl inst = _ from hrow] <;> rfl
  | eret => exact absurd rfl ht

/-- The one word of the format of `eret`. -/
theorem transferOf_eq_eret_iff : transferOf inst = some .eret ↔ inst = 0x42000018 := by
  constructor
  · intro h
    obtain ⟨format, hformat, hholds⟩ := Mips.transferOf_eq_some h
    have hone : ∀ f ∈ Mips.formats, f.2 = .eret →
        Mips.pattern f.1 = ⟨BitVec.allOnes 32, 0x42000018⟩ := by decide
    have hmatches := Mips.matches_pattern hholds
    rw [hone _ hformat rfl] at hmatches
    rw [← BitVec.and_allOnes (x := inst)]
    exact hmatches
  · rintro rfl
    decide

end Next

/-! ## §3 What is met -/

variable (inst pc epc : BitVec 32) (regs : Regs) (cp : Bool) (getlink : ℕ) (s : Slots)

/-- The slots of a step from `pc` into writable memory. -/
def stepPoints : Slots := setTrcbp pc.toNat false (insnAt regs.value true getlink pc inst) s

theorem toNat_behind (n : BitVec 32) : (pc + n).toNat = (pc.toNat + n.toNat) % 4294967296 := by
  simp

/-- `NO_BPT`. -/
theorem toNat_ne_noBpt_iff (a : BitVec 32) : a.toNat ≠ noBpt ↔ a ≠ 0 := by
  rw [not_iff_not]
  exact ⟨fun h => BitVec.eq_of_toNat_eq h, fun h => congrArg BitVec.toNat h⟩

/-- Words that the table does not have for branches are followed by the next word. -/
theorem trapped_stepPoints_plain (h : mdIsBranch inst = false) (a : BitVec 32) :
    Trapped (stepPoints inst pc regs getlink s) a.toNat ↔ a ≠ 0 ∧ a = pc + 4 := by
  unfold stepPoints
  rw [trapped_plain h, toNat_ne_noBpt_iff, ← BitVec.toNat_inj, toNat_behind]
  rfl

variable {inst pc epc regs cp getlink s}

/-- Every branch or jump meets a breakpoint, unless it goes to address 0. -/
theorem trapped_transfer {t : Transfer} (h : transferOf inst = some t) (ht : t ≠ .eret)
    (hself : ¬ SelfBranch inst pc regs epc) :
    Trapped (stepPoints inst pc regs getlink s) (next inst pc regs cp epc).toNat ↔
      next inst pc regs cp epc ≠ 0 := by
  have htarget : mdBranchTarget regs.value pc inst = target t inst pc regs epc :=
    mdBranchTarget_eq h ht
  have hpc : (mdBranchTarget regs.value pc inst).toNat ≠ pc.toNat := by
    intro heq
    apply hself
    exact ⟨t, h, ht, by rw [← htarget, BitVec.eq_of_toNat_eq heq]⟩
  unfold stepPoints
  rw [trapped_branch (mdIsBranch_eq_true h ht) hpc rfl, toNat_ne_noBpt_iff]
  apply and_iff_left
  have hways : next inst pc regs cp epc = target t inst pc regs epc ∨
      mdIsCondBranch inst = true ∧ next inst pc regs cp epc = pc + 8 := next_transfer h ht
  obtain hnext | ⟨hcond, hnext⟩ := hways
  · rw [hnext, ← htarget]
    exact .inl rfl
  · rw [hnext, toNat_behind]
    exact .inr ⟨hcond, rfl⟩

/-- **The instruction behind a step is met** unless a return from an exception goes elsewhere or
    the address is 0. -/
theorem setTrcbp_next (hself : ¬ SelfBranch inst pc regs epc) :
    Trapped (setTrcbp pc.toNat false (insnAt regs.value true getlink pc inst) s)
        (next inst pc regs cp epc).toNat ↔
      (inst = 0x42000018 → epc = pc + 4) ∧ next inst pc regs cp epc ≠ 0 := by
  change Trapped (stepPoints inst pc regs getlink s) _ ↔ _
  cases h : transferOf inst with
  | none =>
    have heret : inst ≠ 0x42000018 := by
      intro heq
      rw [transferOf_eq_eret_iff.mpr heq] at h
      cases h
    have hnext : next inst pc regs cp epc = pc + 4 := by
      unfold next
      rw [h]
    rw [trapped_stepPoints_plain _ _ _ _ _ (mdIsBranch_eq_false h), hnext, and_iff_left rfl]
    exact (and_iff_right fun heq => absurd heq heret).symm
  | some t =>
    by_cases ht : t = .eret
    · subst ht
      have heret := transferOf_eq_eret_iff.mp h
      have hplain : mdIsBranch inst = false := by
        rw [heret]
        decide
      have hnext : next inst pc regs cp epc = epc := by
        unfold next
        rw [h]
        rfl
      rw [trapped_stepPoints_plain _ _ _ _ _ hplain, hnext, and_comm]
      simp [heret]
    · have heret : inst ≠ 0x42000018 := by
        intro heq
        rw [transferOf_eq_eret_iff.mpr heq] at h
        exact ht (Option.some.inj h).symm
      rw [trapped_transfer h ht hself]
      exact (and_iff_right fun heq => absurd heq heret).symm

/-- Registers that are all 0. -/
def zeroRegs : Regs where
  value := fun _ => 0
  zero := rfl

/-- A branch over three words, which links. -/
theorem setTrcbp_next_bal :
    Trapped
      (setTrcbp (0x80010000#32).toNat false (insnAt zeroRegs.value true 0 0x80010000 0x04110003)
        noSlots)
      (next 0x04110003 0x80010000 zeroRegs false 0).toNat := by
  have hself : ¬ SelfBranch 0x04110003 0x80010000 zeroRegs 0 := by decide
  exact (setTrcbp_next hself).mpr (by decide)

/-- **A return from an exception goes elsewhere.** -/
theorem setTrcbp_eret :
    ¬ SelfBranch 0x42000018 0x80010000 zeroRegs 0x80020000 ∧
      ¬ Trapped
        (setTrcbp 0x80010000 false (insnAt zeroRegs.value true 0 0x80010000 0x42000018) noSlots)
        (next 0x42000018 0x80010000 zeroRegs false 0x80020000).toNat := by
  decide

end Pmon.Debug
