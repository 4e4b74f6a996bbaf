import Pmon.Nvram.Model

/-!
# The environment of the monitor

`pmon/common/env.c` keeps the environment in the table `envvar` and passes every change on to
the NVRAM code.  Names are compared up to case in the table and byte for byte in the NVRAM.
At power-on `envinit` fills the table from the NVRAM and sets the standard variables that are
missing to their defaults.

The table below is the one of the LS2K configuration (`HAVE_NVENV`, `HAVE_QUAD`, `INET`,
`NCMD_MORE`, `NNAND`, `LS2K_DEFAULT_OLDPMON`; not `PMON_DEBUGGER`).
-/

namespace Pmon.Env

open Pmon.Libc Pmon.Nvram

/-! ## §1 Standard variables -/

/-- The functions that `stdenvtab` names to be called when a variable changes. -/
inductive Chgfunc where
  | null
  | chgMoresz
  | chgHeaptop
  | mtdRescan
  deriving DecidableEq

structure Stdenv where
  name : CStr
  init : CStr
  values : Option CStr
  chgfunc : Chgfunc
  deriving DecidableEq

/-- `SETCLIENTPC`. -/
def setclientpc : CStr := ascii "80100000"

def stdenvtab : List Stdenv :=
  [ ⟨ascii "brkcmd", ascii "l -r @cpc 1", none, .null⟩,
    ⟨ascii "datasize", ascii "-b", some (ascii "-b -h -w -d"), .null⟩,
    ⟨ascii "dlecho", ascii "off", some (ascii "off on lfeed"), .null⟩,
    ⟨ascii "dlproto", ascii "none", some (ascii "none XonXoff EtxAck"), .null⟩,
    ⟨ascii "bootp", ascii "no", some (ascii "no sec pri save"), .null⟩,
    ⟨ascii "hostport", ascii "tty0", none, .null⟩,
    ⟨ascii "inalpha", ascii "hex", some (ascii "hex symbol"), .null⟩,
    ⟨ascii "inbase", ascii "16", some (ascii "auto 8 10 16"), .null⟩,
    ⟨ascii "moresz", ascii "10", none, .chgMoresz⟩,
    ⟨ascii "prompt", ascii "PMON> ", none, .null⟩,
    ⟨ascii "regstyle", ascii "sw", some (ascii "hw sw"), .null⟩,
    ⟨ascii "regsize", ascii "32", some (ascii "32 64"), .null⟩,
    ⟨ascii "rptcmd", ascii "trace", some (ascii "off on trace"), .null⟩,
    ⟨ascii "trabort", ascii "^K", none, .null⟩,
    ⟨ascii "ulcr", ascii "cr", some (ascii "cr lf crlf"), .null⟩,
    ⟨ascii "uleof", ascii "%", none, .null⟩,
    ⟨ascii "heaptop", setclientpc, none, .chgHeaptop⟩,
    ⟨ascii "showsym", ascii "yes", some (ascii "no yes"), .null⟩,
    ⟨ascii "fpfmt", ascii "both", some (ascii "both double single none"), .null⟩,
    ⟨ascii "fpdis", ascii "yes", some (ascii "no yes"), .null⟩,
    ⟨ascii "oldpmon", ascii "1", none, .null⟩,
    ⟨ascii "mtdparts",
      ascii "nand-flash:30M@0(kernel),-(rootfs);spinand_flash:30M@0(kernel),-(rootfs)",
      none, .mtdRescan⟩,
    ⟨ascii "bootdelay", ascii "3", none, .null⟩ ]

/-- `getstdenv`. -/
def getstdenv (name : CStr) : Option Stdenv := stdenvtab.find? fun sp => striequ name sp.name

/-- The search loop of `_matchval`: the position of the value among the words of `t`.
    A null value matches nothing. -/
def matchvalLoop (value : Option CStr) : ℕ → CStr → ℕ → Option ℕ
  | 0, _, _ => none
  | fuel + 1, t, j =>
    match getword t with
    | none => none
    | some (wrd, t) =>
      if value.any (striequ wrd) then some j else matchvalLoop value fuel t (j + 1)

/-- `_matchval`: `none` where the source returns -2. -/
def matchval (values : CStr) (value : Option CStr) : Option ℕ :=
  matchvalLoop value (values.length + 1) values 0

/-- Calling the change function with the heap top that is set: whether it accepts the value,
    and the heap top afterwards.  (The source would read through a null value.) -/
def Chgfunc.call (f : Chgfunc) (heaptop : ℕ) (value : Option CStr) : Bool × ℕ :=
  match f with
  | .null => (true, heaptop)
  | .mtdRescan => (true, heaptop)
  | .chgMoresz =>
    match atob (value.getD []) 10 with
    | some v => (2 < v && v < 100, heaptop)
    | none => (false, heaptop)
  | .chgHeaptop =>
    match atob (value.getD []) 16 with
    | some top => if top < heaptop then (false, heaptop) else (true, top)
    | none => (false, heaptop)

/-! ## §2 The table -/

/-- `NVAR`. -/
def nvar : ℕ := 64

/-- A variable: its name and its value, which may be a null pointer. -/
abbrev Var := CStr × Option CStr

/-- `envvar[NVAR]`. -/
structure Table where
  slots : List (Option Var)
  length_eq : slots.length = nvar

/-- Write one slot. -/
def Table.set (t : Table) (i : ℕ) (v : Option Var) : Table where
  slots := t.slots.set i v
  length_eq := by rw [List.length_set, t.length_eq]

/-- `bzero(envvar, sizeof(envvar))`. -/
def Table.empty : Table := ⟨List.replicate nvar none, List.length_replicate ..⟩

/-- The search loop of `_setenv`: the slot of the variable, and the first free slot before
    it. -/
def searchLoop (name : CStr) : List (Option Var) → ℕ → Option ℕ → Option ℕ × Option ℕ
  | [], _, bp => (none, bp)
  | none :: slots, i, bp => searchLoop name slots (i + 1) (bp <|> some i)
  | some (n, _) :: slots, i, bp =>
    if striequ name n then (some i, bp) else searchLoop name slots (i + 1) bp

/-- How the two allocations of `_setenv` fare. -/
structure Mallocs where
  name : Bool
  value : Bool

/-- The second half of `_setenv`: enter the variable. -/
def Table.enter (t : Table) (m : Mallocs) (name : CStr) (value : Option CStr) : Bool × Table :=
  match searchLoop name t.slots 0 none with
  | (some i, _) =>
    -- a match: the name that is there stays
    let old := (t.slots.getD i none).elim name (·.1)
    match value with
    | none => (true, t.set i (some (old, none)))
    | some v => if m.value then (true, t.set i (some (old, some v))) else (false, t.set i none)
  | (none, some i) =>
    if !m.name then (false, t)
    else
      match value with
      | none => (true, t.set i (some (name, none)))
      | some v => if m.value then (true, t.set i (some (name, some v))) else (false, t.set i none)
  | (none, none) => (false, t)

/-- The variable that a name finds. -/
def Table.lookup (t : Table) (name : CStr) : Option (Option CStr) :=
  t.slots.findSome? fun slot => slot.bind fun (n, v) => if striequ name n then some v else none

/-! ## §3 State and operations -/

structure State where
  envvar : Table
  envinited : Bool
  /-- `heaptop` of `sbrk.c`. -/
  heaptop : ℕ
  nv : NvState

/-- How the allocations and the flash operations of one call fare. -/
structure EnvOps where
  mallocs : Mallocs
  setenv : SetenvOps
  unsetenv : FlashOp

/-- `_setenv`. -/
def setenvTable (s : State) (m : Mallocs) (name : CStr) (value : Option CStr) : Bool × State :=
  let std := getstdenv name
  let (ok, heaptop) := (std.elim .null (·.chgfunc)).call s.heaptop value
  if !ok then (false, { s with heaptop })
  else if (std.bind (·.values)).any (fun vs => (matchval vs value).isNone) && s.envinited then
    (false, { s with heaptop })
  else
    let (ok, envvar) := s.envvar.enter m name value
    (ok, { s with heaptop, envvar })

/-- `do_setenv`. -/
def doSetenv (s : State) (ops : EnvOps) (name : CStr) (value : Option CStr) (temp : Bool) :
    ℤ × State :=
  let (ok, s) := setenvTable s ops.mallocs name value
  if !ok then (0, s)
  else if (getstdenv name).any (fun sp => value.any (striequ · sp.init)) then
    -- set to default: remove from non-volatile memory
    let (r, nv) := tgtUnsetenv s.nv ops.unsetenv name
    (r, { s with nv })
  else if !temp then
    let (r, nv) := tgtSetenv s.nv ops.setenv name value
    (r, { s with nv })
  else (1, s)

/-- `setenv`. -/
def setenv (s : State) (ops : EnvOps) (name : CStr) (value : Option CStr) : ℤ × State :=
  doSetenv s ops name value false

/-- `getenv`: a null value reads as the empty string. -/
def getenv (s : State) (name : CStr) : Option CStr :=
  if s.envinited then (s.envvar.lookup name).map (·.getD [])
  else (getstdenv name).map (·.init)

/-- The loop of `unsetenv` from slot `i` on, for `n` more slots. -/
def unsetenvLoop (pat : CStr) (ops : ℕ → EnvOps) : ℕ → ℕ → State → State
  | 0, _, s => s
  | n + 1, i, s =>
    match s.envvar.slots.getD i none with
    | none => unsetenvLoop pat ops n (i + 1) s
    | some (name, _) =>
      if strpat name pat then
        match getstdenv name with
        | some sp =>
          -- a standard variable goes back to its initial value
          let (r, s) := setenv s (ops i) sp.name (some sp.init)
          if r = 0 then s else unsetenvLoop pat ops n (i + 1) s
        | none =>
          let (_, nv) := tgtUnsetenv s.nv (ops i).unsetenv name
          unsetenvLoop pat ops n (i + 1) { s with nv, envvar := s.envvar.set i none }
      else unsetenvLoop pat ops n (i + 1) s

/-- `unsetenv`. -/
def unsetenv (s : State) (ops : ℕ → EnvOps) (pat : CStr) : State :=
  unsetenvLoop pat ops nvar 0 s

/-- `set name value`: whether it is reported as done, and the state. -/
def cmdSet (s : State) (ops : EnvOps) (name value : CStr) : Bool × State :=
  let (r, s) := doSetenv s ops name (some value) false
  (r != 0, s)

/-- `unset name`: it is refused when there is no such variable. -/
def cmdUnset (s : State) (ops : ℕ → EnvOps) (name : CStr) : Bool × State :=
  if (getenv s name).isSome then (true, unsetenv s ops name) else (false, s)

/-! ## §4 Power-on -/

/-- `heaptop` after `init_heaptop`, with 64 MB of memory or more. -/
def initHeaptop : ℕ := 0x8f800000

/-- The state at power-on: of all there was only the flash is left. -/
def powerOn (flash : Pmon.Lib.Mem) : State where
  envvar := Table.empty
  envinited := false
  heaptop := initHeaptop
  nv :=
    { flash
      invalid := 0
      activecom := 0
      emEnable := 0
      hwethadr := ⟨List.replicate 12 0, List.length_replicate ..⟩
      ls2kver := 0 }

/-- The default of one standard variable, if the variable is not set at all. -/
def setDefault (ops : CStr → EnvOps) (s : State) (sp : Stdenv) : State :=
  if (getenv s sp.name).isNone then (setenv s (ops sp.name) sp.name (some sp.init)).2 else s

/-- `envinit`. -/
def envinit (dev : Board) (mallocs : Report → Mallocs) (ops : CStr → EnvOps) (s : State) : State :=
  let (reps, nv) := tgtMapenv dev s.nv
  let s := reps.foldl (fun s rep => (setenvTable s (mallocs rep) rep.1 rep.2).2)
    { s with envvar := Table.empty }
  stdenvtab.foldl (setDefault ops) { s with nv, envinited := true }

end Pmon.Env
