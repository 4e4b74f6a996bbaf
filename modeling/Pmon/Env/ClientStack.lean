import Mathlib.Algebra.Group.Nat.Defs
import Mathlib.Algebra.GroupWithZero.Nat
import Pmon.Env.Model
import Pmon.Lib.PackedStrings
import Pmon.Lib.WordMem
import Pmon.Lib.Writes

/-!
# The client's stack

`initstack` of `pmon/common/main.c`, with `envsize` and `envbuild` of `pmon/common/env.c`, in the
build without `BOOT_PARAM`.  What it writes is a list of writes, in their order.
-/

namespace Pmon.Env

open Pmon.Lib Pmon.Libc

/-! ## §1 Writes -/

/-- `*p = v`, for a pointer. -/
def ptrWrite (p v : ℕ) : Write := ⟨p, le32 v⟩

/-- `strcpy`, and `sprintf` of a string. -/
def strWrite (p : ℕ) (s : CStr) : Write := ⟨p, s ++ [0]⟩

/-! ## §2 The environment -/

/-- The length of what a variable has for a value. -/
def valueLength (value : Option CStr) : ℕ := value.elim 0 List.length

/-- `envsize`: `ec` and `slen`. -/
def envsize : List (Option Var) → ℕ × ℕ
  | [] => (0, 0)
  | none :: slots => envsize slots
  | some (name, value) :: slots =>
    let (ec, slen) := envsize slots
    (ec + 1, name.length + 2 + valueLength value + slen)

/-- `envbuild`. -/
def envbuild : List (Option Var) → ℕ → ℕ → List Write
  | [], vsp, _ => [ptrWrite vsp 0]
  | none :: slots, vsp, ssp => envbuild slots vsp ssp
  | some (name, value) :: slots, vsp, ssp =>
    ptrWrite vsp ssp :: strWrite ssp (name ++ ascii "=") ::
      match value with
      | none => envbuild slots (vsp + 4) (ssp + (name.length + 1) + 1)
      | some value =>
        let ssp := ssp + (name.length + 1) + 1
        -- The value comes in the place of the NUL.
        strWrite (ssp - 1) value :: envbuild slots (vsp + 4) (ssp + value.length)

/-! ## §3 initstack -/

/-- Round to words. -/
def roundUp (n : ℕ) : ℕ := n + 7 - (n + 7) % 8

/-- The loop over the arguments: the writes, and `vsp` and `ssp` after it. -/
def copyArgs : List CStr → ℕ → ℕ → List Write × ℕ × ℕ
  | [], vsp, ssp => ([], vsp, ssp)
  | arg :: av, vsp, ssp =>
    let (ws, vsp', ssp') := copyArgs av (vsp + 4) (ssp + (arg.length + 1))
    (ptrWrite vsp ssp :: strWrite ssp arg :: ws, vsp', ssp')

/-- The sum of `strlen (av[i]) + 1`. -/
def argsLength (av : List CStr) : ℕ := (av.map fun arg => arg.length + 1).sum

/-- The sizes that are computed. -/
structure Sizes where
  ec : ℕ
  stringlen : ℕ
  vectorlen : ℕ
  stacklen : ℕ

def stackSizes (av : List CStr) (t : Table) (addenv : Bool) : Sizes :=
  let (ec, stringlen) := if addenv then envsize t.slots else (0, 0)
  let stringlen := roundUp (stringlen + argsLength av)
  let vectorlen := (av.length + ec + 2) * 4
  { ec, stringlen, vectorlen, stacklen := roundUp (vectorlen + stringlen) }

/-- What `initstack` leaves: the registers that it sets for the client, and its writes. -/
structure ClientStack where
  argc : ℕ
  argv : ℕ
  envp : ℕ
  sp : ℕ
  writes : List Write

/-- `initstack`, for a client whose stack pointer is `sp`. -/
def initstack (sp : ℕ) (av : List CStr) (t : Table) (addenv : Bool) : ClientStack :=
  let sizes := stackSizes av t addenv
  let nsp := sp - sizes.stacklen
  let (args, vsp, ssp) := copyArgs av nsp (nsp + sizes.vectorlen)
  let ssp := roundUp ssp
  { argc := av.length
    argv := nsp
    envp := nsp + (av.length + 1) * 4
    sp := nsp - 32
    writes := ⟨nsp - 32, List.replicate 32 0⟩ :: args ++ ptrWrite vsp 0 ::
      if sizes.ec ≠ 0 then envbuild t.slots (vsp + 4) ssp else [ptrWrite (vsp + 4) 0] }

end Pmon.Env
