import Pmon.Lib.BitPatterns

/-!
# Transfers of control of MIPS I to III

The formats of the branches and jumps, as fields of the instruction word, and the address of the
instruction that is executed behind such an instruction and its delay slot.  Words of no format go
on to the next instruction.

## Key results

- `matches_pattern`: a format as one pattern.
-/

namespace Pmon.Lib.Mips

/-! ## §1 Formats -/

/-- The fields of an instruction word. -/
def op (v : BitVec 6) : BitPattern 32 := .field 26 6 v

def rs (v : BitVec 5) : BitPattern 32 := .field 21 5 v

def rt (v : BitVec 5) : BitPattern 32 := .field 16 5 v

def rd (v : BitVec 5) : BitPattern 32 := .field 11 5 v

def sa (v : BitVec 5) : BitPattern 32 := .field 6 5 v

def funct (v : BitVec 6) : BitPattern 32 := .field 0 6 v

/-- What a branch depends on: a comparison of two registers, of one register with 0, or the
    condition of a coprocessor. -/
inductive Cond where
  | eq
  | ne
  | lez
  | gtz
  | ltz
  | gez
  | cop (sense : Bool)
  deriving DecidableEq

inductive Transfer where
  | branch (c : Cond)
  | jump
  | register
  | eret
  deriving DecidableEq

/-- The formats: jumps, branches, those of `REGIMM`, those of the coprocessors, and `ERET`. -/
def formats : List (List (BitPattern 32) × Transfer) :=
  ([([op 0, rt 0, rd 0, sa 0, funct 8], .register),
    ([op 0, rt 0, sa 0, funct 9], .register),
    ([op 2], .jump),
    ([op 3], .jump),
    ([op 4], .branch .eq),
    ([op 5], .branch .ne),
    ([op 6, rt 0], .branch .lez),
    ([op 7, rt 0], .branch .gtz),
    -- likely
    ([op 20], .branch .eq),
    ([op 21], .branch .ne),
    ([op 22, rt 0], .branch .lez),
    ([op 23, rt 0], .branch .gtz)] : List (List (BitPattern 32) × Transfer)) ++
  ([0, 2, 16, 18].map fun link => ([op 1, rt link], .branch .ltz) :
    List (List (BitPattern 32) × Transfer)) ++
  ([1, 3, 17, 19].map fun link => ([op 1, rt link], .branch .gez) :
    List (List (BitPattern 32) × Transfer)) ++
  ([16, 17, 18, 19].flatMap fun cop =>
    [([op cop, rs 8, rt 0], .branch (.cop false)),
      ([op cop, rs 8, rt 1], .branch (.cop true)),
      ([op cop, rs 8, rt 2], .branch (.cop false)),
      ([op cop, rs 8, rt 3], .branch (.cop true))] : List (List (BitPattern 32) × Transfer)) ++
  ([([op 16, rs 16, rt 0, rd 0, sa 0, funct 24], .eret)] : List (List (BitPattern 32) × Transfer))

/-- A word of a format. -/
def Holds (format : List (BitPattern 32)) (inst : BitVec 32) : Prop :=
  ∀ p ∈ format, p.Matches inst

instance (format : List (BitPattern 32)) (inst : BitVec 32) : Decidable (Holds format inst) :=
  inferInstanceAs (Decidable (∀ p ∈ format, _))

/-- What transfer of control a word is. -/
def transferOf (inst : BitVec 32) : Option Transfer :=
  (formats.find? fun format => Holds format.1 inst).map Prod.snd

/-- A format as one pattern. -/
def pattern (format : List (BitPattern 32)) : BitPattern 32 := format.foldr .and ⟨0, 0⟩

theorem matches_pattern {format : List (BitPattern 32)} {inst : BitVec 32}
    (h : Holds format inst) : (pattern format).Matches inst := by
  induction format with
  | nil => exact BitVec.and_zero
  | cons p format ih =>
    exact (h p List.mem_cons_self).and (ih fun q hq => h q (List.mem_cons_of_mem _ hq))

/-- The format of a transfer. -/
theorem transferOf_eq_some {inst : BitVec 32} {t : Transfer} (h : transferOf inst = some t) :
    ∃ format, (format, t) ∈ formats ∧ Holds format inst := by
  obtain ⟨⟨format, t'⟩, hfound, rfl⟩ := Option.map_eq_some_iff.mp h
  exact ⟨format, List.mem_of_find?_eq_some hfound, by simpa using List.find?_some hfound⟩

theorem transferOf_eq_none {inst : BitVec 32} (h : transferOf inst = none) :
    ∀ format ∈ formats, ¬ Holds format.1 inst := by
  have hnone := List.find?_eq_none.mp (Option.map_eq_none_iff.mp h)
  simpa using hnone

/-! ## §2 The next instruction -/

/-- The registers. -/
structure Regs where
  value : BitVec 5 → BitVec 64
  zero : value 0 = 0

/-- The register of the field `rs`. -/
def Regs.rs (regs : Regs) (inst : BitVec 32) : BitVec 64 := regs.value (inst.extractLsb' 21 5)

/-- The register of the field `rt`. -/
def Regs.rt (regs : Regs) (inst : BitVec 32) : BitVec 64 := regs.value (inst.extractLsb' 16 5)

/-- Whether a branch is taken; `cp` is the condition of the coprocessor. -/
def Taken (c : Cond) (inst : BitVec 32) (regs : Regs) (cp : Bool) : Prop :=
  match c with
  | .eq => regs.rs inst = regs.rt inst
  | .ne => regs.rs inst ≠ regs.rt inst
  | .lez => (regs.rs inst).toInt ≤ 0
  | .gtz => 0 < (regs.rs inst).toInt
  | .ltz => (regs.rs inst).toInt < 0
  | .gez => 0 ≤ (regs.rs inst).toInt
  | .cop sense => cp = sense

instance (inst : BitVec 32) (regs : Regs) (cp : Bool) : ∀ c, Decidable (Taken c inst regs cp)
  | .eq => inferInstanceAs (Decidable (_ = _))
  | .ne => inferInstanceAs (Decidable (_ ≠ _))
  | .lez => inferInstanceAs (Decidable (_ ≤ _))
  | .gtz => inferInstanceAs (Decidable (_ < _))
  | .ltz => inferInstanceAs (Decidable (_ < _))
  | .gez => inferInstanceAs (Decidable (_ ≤ _))
  | .cop _ => inferInstanceAs (Decidable (_ = _))

/-- Where a transfer goes: an offset from the delay slot, an address in its region, what a register
    holds, or the exception program counter. -/
def target (t : Transfer) (inst pc : BitVec 32) (regs : Regs) (epc : BitVec 32) : BitVec 32 :=
  match t with
  | .branch _ => pc + 4#32 + (inst.extractLsb' 0 16).signExtend 32 <<< 2
  | .jump => (pc + 4#32) &&& 0xf0000000#32 ||| (inst.extractLsb' 0 26).setWidth 32 <<< 2
  | .register => (regs.rs inst).setWidth 32
  | .eret => epc

/-- The address of the instruction that is executed next, behind the delay slot if there is one. -/
def next (inst pc : BitVec 32) (regs : Regs) (cp : Bool) (epc : BitVec 32) : BitVec 32 :=
  match transferOf inst with
  | none => pc + 4
  | some (.branch c) =>
    if Taken c inst regs cp then target (.branch c) inst pc regs epc else pc + 8
  | some t => target t inst pc regs epc

/-- A branch or jump to itself. -/
def SelfBranch (inst pc : BitVec 32) (regs : Regs) (epc : BitVec 32) : Prop :=
  ∃ t, transferOf inst = some t ∧ t ≠ .eret ∧ target t inst pc regs epc = pc

instance (inst pc : BitVec 32) (regs : Regs) (epc : BitVec 32) :
    Decidable (SelfBranch inst pc regs epc) :=
  inferInstanceAs (Decidable (∃ t ∈ transferOf inst, _ ∧ _))

end Pmon.Lib.Mips
