import Pmon.Lib.WordMem
import Pmon.Libc.Strings

/-!
# Breakpoints

The breakpoint slots of `pmon/common/debugger.c` and the commands of
`pmon/cmds/debuggercmds.c` that set them.  Addresses and words are those of a 32-bit machine;
memory is all of the client's.  The heap is not modelled, so `free` does nothing here.

What the machine code in `pmon/arch/mips/disassemble.c` says about the instruction at an
address is an `Insn`.
-/

namespace Pmon.Debug

open Pmon.Lib Pmon.Libc

/-! ## §1 State -/

/-- `MAX_BPT`. -/
def maxBpt : ℕ := 32

/-- `NO_BPT`: the address of a slot that is not in use. -/
def noBpt : ℕ := 0

/-- `BPT_CODE`. -/
def bptCode : ℕ := 13

structure Bps where
  addr : ℕ
  value : ℕ
  cmdstr : Option CStr
  deriving DecidableEq

/-- A slot that is not in use. -/
def Bps.free (b : Bps) : Bps := { b with addr := noBpt }

def Bps.at (b : Bps) (addr : ℕ) : Bps := { b with addr }

/-- `Bpt`, `BptTmp`, `BptTrc` and `BptTrcb`. -/
structure Slots where
  bpt : List Bps
  tmp : Bps
  trc : Bps
  trcb : Bps
  length_bpt : bpt.length = maxBpt

/-- The slots at the start. -/
def noSlots : Slots where
  bpt := List.replicate maxBpt ⟨0, 0, none⟩
  tmp := ⟨0, 0, none⟩
  trc := ⟨0, 0, none⟩
  trcb := ⟨0, 0, none⟩
  length_bpt := List.length_replicate

/-! ## §2 Setting breakpoints -/

/-- What `b` answers. -/
inductive Reply where
  | displayed
  | badArgCount
  | unrecognized (option : UInt8)
  /-- `get_rsa` has said what is wrong. -/
  | badAddress
  | tooMany
  | set (slot adr : ℕ) (unaligned : Bool) (cmdstr : Option CStr) (notSpecified : Bool)

/-- The arguments of `b`: the address, if one is given, and the command string. -/
def bArgs (getRsa : CStr → Option ℕ) :
    List CStr → Option ℕ → Option CStr → Except Reply (Option ℕ × Option CStr)
  | [], adr, str => .ok (adr, str)
  | arg :: args, adr, str =>
    match arg with
    | 45 :: [] => bArgs getRsa args adr str
    | 45 :: option :: _ =>
      if option = 115 then
        match args with
        | [] => .error .badArgCount
        | str :: args => bArgs getRsa args adr (some str)
      else .error (.unrecognized option)
    | _ =>
      match getRsa arg with
      | none => .error .badAddress
      | some adr => bArgs getRsa args (some adr) str

/-- The loop that looks for a slot, from slot `j` on: it frees the slots at the address, and `i`
    is the last one of them or else the first free one. -/
def findSlot (adr : ℕ) : ℕ → List Bps → ℕ → List Bps × ℕ
  | _, [], i => ([], i)
  | j, b :: bs, i =>
    let (b, i) := if b.addr = adr then (b.free, j) else (b, i)
    let i := if i = maxBpt ∧ b.addr = noBpt then j else i
    let (bs, i) := findSlot adr (j + 1) bs i
    (b :: bs, i)

theorem length_findSlot (adr j i : ℕ) (bs : List Bps) :
    (findSlot adr j bs i).1.length = bs.length := by
  induction bs generalizing j i with
  | nil => rfl
  | cons b bs ih =>
    rw [findSlot]
    exact congrArg (· + 1) (ih _ _)

/-- `cmd_setbp` behind its arguments. -/
def setbp (s : Slots) (adr : ℕ) (str : Option CStr) (notSpecified : Bool) : Reply × Slots :=
  let found := findSlot adr 0 s.bpt maxBpt
  let s : Slots :=
    { s with
      bpt := found.1
      length_bpt := (length_findSlot adr 0 maxBpt s.bpt).trans s.length_bpt }
  if maxBpt ≤ found.2 then (.tooMany, s)
  else
    (.set found.2 adr (decide (adr % 4 ≠ 0)) str notSpecified,
      { s with
        bpt := s.bpt.modify found.2 fun b => { b with addr := adr, cmdstr := str }
        length_bpt := (List.length_modify ..).trans s.length_bpt })

/-- `cmd_setbp`: `garbage` is what the local `adr` holds when no address is given. -/
def cmdSetbp (getRsa : CStr → Option ℕ) (garbage : ℕ) (args : List CStr) (s : Slots) :
    Reply × Slots :=
  if args = [] then (.displayed, s)
  else
    match bArgs getRsa args none none with
    | .error reply => (reply, s)
    | .ok (adr, str) => setbp s (adr.getD garbage) str adr.isNone

/-- `clrbpts`. -/
def clrbpts (s : Slots) : Slots :=
  { s with bpt := s.bpt.map Bps.free, length_bpt := (List.length_map ..).trans s.length_bpt }

/-- An argument of `db`: `*`, or a number that is not negative. -/
inductive ClrArg where
  | star
  | number (i : ℕ)

/-- `cmd_clrbp` on arguments it understands. -/
def cmdClrbp : List ClrArg → Slots → Slots
  | [], s => s
  | .star :: args, s => cmdClrbp args (clrbpts s)
  | .number i :: args, s =>
    cmdClrbp args
      { s with
        bpt := s.bpt.modify i Bps.free
        length_bpt := (List.length_modify ..).trans s.length_bpt }

/-- The slots as `c` and `g` leave them for `goclient`: `tmp` is the address of the temporary
    breakpoint. -/
def setTmp (tmp : Option ℕ) (s : Slots) : Slots :=
  { s with tmp := s.tmp.at (tmp.getD noBpt), trc := s.trc.free, trcb := s.trcb.free }

/-- What the machine code says about an instruction. -/
structure Insn where
  isBranch : Bool
  isCondBranch : Bool
  isCall : Bool
  isJr : Bool
  branchTarget : ℕ
  /-- `md_is_writeable` of the target. -/
  isWriteable : Bool
  getlink : ℕ

/-- `setTrcbp`. -/
def setTrcbp (adr : ℕ) (stepover : Bool) (insn : Insn) (s : Slots) : Slots :=
  let behind := (adr + 8) % 4294967296
  let s := { s with trc := s.trc.free, trcb := s.trcb.free }
  if insn.isBranch then
    -- skip self branches
    let target := if insn.branchTarget = adr then behind else insn.branchTarget
    let s := if insn.isCondBranch ∧ target ≠ behind then { s with trc := s.trc.at behind } else s
    if insn.isCall ∧ stepover then { s with trc := s.trc.at behind }
    else if insn.isJr ∧ ¬insn.isWriteable then { s with trc := s.trc.at insn.getlink }
    else { s with trcb := s.trcb.at target }
  else { s with trc := s.trc.at ((adr + 4) % 4294967296) }

/-- `is_break_point`. -/
def isBreakPoint (s : Slots) (adr : ℕ) : Bool :=
  s.bpt.any fun b => b.addr = adr ∨ s.tmp.addr = adr

/-! ## §3 Storing and removing -/

/-- The trap goes into memory, what stood there into the slot. -/
def storeSlot (b : Bps) (m : Mem) : Bps × Mem :=
  if b.addr ≠ noBpt then ({ b with value := m.word b.addr }, m.putWord b.addr bptCode) else (b, m)

def storeSlots : List Bps → Mem → List Bps × Mem
  | [], m => ([], m)
  | b :: bs, m =>
    let (b, m) := storeSlot b m
    let (bs, m) := storeSlots bs m
    (b :: bs, m)

theorem length_storeSlots (bs : List Bps) (m : Mem) : (storeSlots bs m).1.length = bs.length := by
  induction bs generalizing m with
  | nil => rfl
  | cons b bs ih => exact congrArg (· + 1) (ih _)

/-- Where the trap still stands, what stood there goes back. -/
def removeSlot (m : Mem) (b : Bps) : Mem :=
  if b.addr ≠ noBpt ∧ m.word b.addr = bptCode then m.putWord b.addr b.value else m

/-- `store_trace_breakpoint`, on a machine without a trace mode. -/
def storeTraceBreakpoint (s : Slots) (m : Mem) : Slots × Mem :=
  let (trc, m) := storeSlot s.trc m
  let (trcb, m) := storeSlot s.trcb m
  ({ s with trc, trcb }, m)

/-- `remove_trace_breakpoint`. -/
def removeTraceBreakpoint (s : Slots) (m : Mem) : Slots × Mem :=
  ({ s with trc := s.trc.free, trcb := s.trcb.free }, removeSlot (removeSlot m s.trc) s.trcb)

/-- A slot at an address that another slot has is not used. -/
def dropClash (b : Bps) (addr : ℕ) : Bps := if b.addr = addr then b.free else b

def dropOne (s : Slots) (b : Bps) : Slots :=
  { s with
    tmp := dropClash s.tmp b.addr
    trc := dropClash s.trc b.addr
    trcb := dropClash s.trcb b.addr }

/-- Verify that a trace breakpoint won't clash with a 'real' breakpoint. -/
def dropReal (s : Slots) : Slots := s.bpt.foldl dropOne s

/-- The same check with the trace breaks. -/
def dropTrace (s : Slots) : Slots :=
  let s := { s with trc := dropClash s.trc s.tmp.addr }
  { s with
    trcb := if s.trcb.addr = s.tmp.addr ∨ s.trcb.addr = s.trc.addr then s.trcb.free else s.trcb }

def dropClashes (s : Slots) : Slots := dropTrace (dropReal s)

/-- `store_breakpoint`. -/
def storeBreakpoint (s : Slots) (m : Mem) : Slots × Mem :=
  let s := dropClashes s
  let stored := storeSlots s.bpt m
  let (tmp, m) := storeSlot s.tmp stored.2
  storeTraceBreakpoint
    { s with
      bpt := stored.1
      tmp
      length_bpt := (length_storeSlots s.bpt _).trans s.length_bpt } m

/-- `rm_bpts`. -/
def rmBpts (s : Slots) (m : Mem) : Slots × Mem :=
  removeTraceBreakpoint s (s.bpt.foldl removeSlot (removeSlot m s.tmp))

/-- What `exception` does when a breakpoint is reached while all of them are stored. -/
def stopped (s : Slots) (m : Mem) : Slots × Mem :=
  let m := if s.tmp.addr ≠ noBpt then m.putWord s.tmp.addr s.tmp.value else m
  ({ s with tmp := s.tmp.free },
    s.bpt.foldl (fun m b => if b.addr ≠ noBpt then m.putWord b.addr b.value else m) m)

end Pmon.Debug
