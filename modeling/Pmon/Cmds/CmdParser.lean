import Pmon.Libc.Strings

/-!
# The command parser

`do_cmd` and `expand` of `pmon/common/cmdparser.c` and `argvize` of the C library, as a machine
whose steps are what `do_cmd` does between two calls of anything else.

A running command can do whatever it likes: call `do_cmd` on another line, change the
environment or the history, return any status.  Calls of `do_cmd` that have not returned are
frames on a stack.  A line that has no `$` in it stays in the buffer of the caller, which no
one else writes; a line with a `$` is expanded into `expline`, which all calls share.
-/

namespace Pmon.Cmds

open Pmon.Libc

/-! ## §1 Buffers -/

/-- The string that begins at an offset of a buffer. -/
def textAt (b : List UInt8) (off : ℕ) : CStr := (b.drop off).takeWhile (· ≠ 0)

/-- `LINESZ + 8 - 1`, the last index of `expline`. -/
def explineLast : ℕ := 207

/-! ## §2 Expansion -/

/-- The name of a variable at `ip`, behind the `$`, and what follows it. -/
def varName (ip : List UInt8) : CStr × List UInt8 :=
  match ip with
  | 0x7b :: ip =>
    let more := fun c : UInt8 => decide (c ≠ 0 ∧ c ≠ 0x7d)
    (ip.takeWhile more, (ip.dropWhile more).drop 1)
  | ip =>
    let more := fun c : UInt8 => isalpha c || isdigit c
    (ip.takeWhile more, ip.dropWhile more)

/-- The loop of `expand`: what it has written to `expline`, and whether it gets to the end. -/
def expandLoop (getenv : CStr → Option CStr) : ℕ → List UInt8 → CStr → CStr × Bool
  | 0, _, out => (out, true)
  | fuel + 1, ip, out =>
    match ip with
    | [] => (out, true)
    | c :: rest =>
      if c = 0 then (out, true)
      else if explineLast ≤ out.length then (out, false)
      else if c ≠ 0x24 then expandLoop getenv fuel rest (out ++ [c])
      else if rest.head? = some 0x24 then expandLoop getenv fuel rest.tail (out ++ [0x24])
      else
        match getenv (varName rest).1 with
        | none => (out, false)
        | some v =>
          if explineLast ≤ out.length + v.length then (out, false)
          else expandLoop getenv fuel (varName rest).2 (out ++ v)

/-- `expand` of a line with a `$`. -/
def expand (getenv : CStr → Option CStr) (line : List UInt8) : CStr × Bool :=
  expandLoop getenv line.length line []

/-! ## §3 Commands and words -/

def isQuote (c : UInt8) : Bool := c = 0x27 || c = 0x22

/-- The loop of `do_cmd` over the line, `quote` being open: the line with the separators
overwritten, the commands behind the first one, and whether the quotes are balanced. -/
def splitLoop (quote : Option UInt8) (i : ℕ) : List UInt8 → List UInt8 × List ℕ × Bool
  | [] => ([], [], quote.isNone)
  | c :: p =>
    if c = 0 then (c :: p, [], quote.isNone)
    else
      match quote with
      | some q =>
        let (b, offs, balanced) := splitLoop (if c = q then none else some q) (i + 1) p
        (c :: b, offs, balanced)
      | none =>
        if c = 0x3b then
          let (b, offs, balanced) := splitLoop none (i + 1) p
          (0 :: b, (i + 1) :: offs, balanced)
        else
          let (b, offs, balanced) := splitLoop (if isQuote c then some c else none) (i + 1) p
          (c :: b, offs, balanced)

/-- `MAX_AC`. -/
def maxAc : ℕ := 100

/-- Blanks and control characters; characters are signed. -/
def isBlank (c : UInt8) : Bool := c ≤ 0x20 || 0x80 ≤ c

/-- `if (*s) *s++ = 0`. -/
def cutChar : List UInt8 → List UInt8 × List UInt8
  | [] => ([], [])
  | _ :: s => ([0], s)

/-- `argvize`: the words of a string, and the bytes that are left in its place. -/
def argvizeLoop : ℕ → List UInt8 → List CStr × List UInt8
  | 0, s => ([], s)
  | n + 1, s =>
    match s.dropWhile isBlank with
    | [] => ([], s)
    | c :: rest =>
      if isQuote c then
        let word := rest.takeWhile (· ≠ c)
        let (cut, s') := cutChar (rest.dropWhile (· ≠ c))
        let (cut', s') := cutChar s'
        let (av, bytes) := argvizeLoop n s'
        (word :: av, s.takeWhile isBlank ++ c :: word ++ cut ++ cut' ++ bytes)
      else
        let word := (c :: rest).takeWhile (! isBlank ·)
        let (cut, s') := cutChar ((c :: rest).dropWhile (! isBlank ·))
        let (av, bytes) := argvizeLoop n s'
        (word :: av, s.takeWhile isBlank ++ word ++ cut ++ bytes)

def argvize (s : CStr) : List CStr × List UInt8 := argvizeLoop maxAc s

/-! ## §4 The command table -/

/-- What `do_cmd` looks at of a `Cmd`. -/
structure Cmd where
  name : CStr
  minac : ℕ
  maxac : ℕ
  repeats : Bool
  hides : Bool

/-- The search through `CmdList`; the first entry of each table is its title. -/
def findCmd (cmdList : List (List Cmd)) (name : CStr) : Option Cmd :=
  cmdList.findSome? fun table => table.tail.find? (·.name == name)

/-! ## §5 The machine -/

/-- A call of `do_cmd` that is dispatching commands. -/
structure Frame where
  /-- The commands are in `expline`. -/
  shared : Bool
  /-- The buffer of the caller. -/
  buf : List UInt8
  cmdlist : List ℕ
  j : ℕ
  expert : Bool
  /-- The command at `j` is running. -/
  running : Bool
  /-- The line after expansion. -/
  line : CStr
  /-- The texts of the commands that were looked up so far. -/
  ran : List CStr

/-- A call of `do_cmd` that has returned. -/
structure Done where
  line : CStr
  ran : List CStr
  stat : ℤ

structure Shell where
  cmdList : List (List Cmd)
  expline : List UInt8
  getenv : CStr → Option CStr
  /-- `matchenv ("rptcmd")`. -/
  rptcmd : ℤ
  /-- `gethistn (histno - 1)`. -/
  last : CStr
  repeating : Bool
  stack : List Frame
  log : List Done

/-- The line that an empty one stands for. -/
def Shell.repeatLine (s : Shell) : Option CStr :=
  if s.rptcmd = 1 then some s.last
  else if s.rptcmd = 2 then
    let word := (s.last.dropWhile isspace).takeWhile (! isspace ·)
    if word.length > 10 then none
    else if word = ascii "t" ∨ word = ascii "to" then some word else none
  else none

/-- The buffer that `do_cmd` works on when it is called with `p`, once an empty line is
replaced.  What stands behind `p` is zero. -/
def Shell.input (s : Shell) (p : List UInt8) : Option (List UInt8) :=
  if (textAt (p ++ [0]) 0).all isspace then
    s.repeatLine.map fun t => t ++ 0 :: (p ++ [0]).drop (t.length + 1)
  else some (p ++ [0])

/-- The buffer is split up and the commands are to be run. -/
def Shell.split (s : Shell) (shared : Bool) (b : List UInt8) : Shell :=
  let (b', offs, balanced) := splitLoop none 0 b
  let s := { s with expline := if shared then b' else s.expline }
  if balanced then
    { s with
      stack :=
        { shared
          buf := b'
          cmdlist := 0 :: offs
          j := 0
          expert := (s.getenv (ascii "expert")).isSome
          running := false
          line := textAt b 0
          ran := [] } :: s.stack }
  else s

/-- `do_cmd` is called with `p`. -/
def Shell.enter (s : Shell) (p : List UInt8) : Shell :=
  let s' := { s with repeating := (textAt (p ++ [0]) 0).all isspace && s.rptcmd ≠ 0 }
  match s.input p with
  | none => s'
  | some b =>
    if 0x24 ∈ textAt b 0 then
      match expand s.getenv b with
      | (out, true) => s'.split true (out ++ 0 :: s.expline.drop (out.length + 1))
      | (out, false) => { s' with expline := out ++ s.expline.drop out.length }
    else s'.split false b

/-- The buffer that a frame's commands are in. -/
def Shell.buffer (s : Shell) (f : Frame) : List UInt8 := if f.shared then s.expline else f.buf

/-- A call of `do_cmd` returns. -/
def Shell.leave (s : Shell) (f : Frame) (stat : ℤ) (rest : List Frame) : Shell :=
  { s with stack := rest, log := s.log ++ [⟨f.line, f.ran, stat⟩] }

/-- The next command of a frame is taken apart and looked up. -/
def Shell.fetch (s : Shell) (f : Frame) (rest : List Frame) : Shell :=
  let b := s.buffer f
  let off := f.cmdlist.getD f.j 0
  let text := textAt b off
  let av := (argvize text).1
  let b := b.take off ++ (argvize text).2 ++ b.drop (off + text.length)
  let s := { s with expline := if f.shared then b else s.expline }
  let f := { f with buf := if f.shared then f.buf else b, ran := f.ran ++ [text] }
  match findCmd s.cmdList (av.headD []) with
  | none => s.leave f (-1) rest
  | some cmd =>
    if av = [] then s.leave f (-1) rest
    else if cmd.hides && ! f.expert then s.leave f (-1) rest
    else if s.repeating && ! cmd.repeats then { s with repeating := false }.leave f (-1) rest
    else if av.length < cmd.minac ∨ cmd.maxac < av.length then s.leave f (-1) rest
    else { s with stack := { f with running := true } :: rest }

/-- The running command of a frame returns. -/
def Shell.finish (s : Shell) (f : Frame) (stat : ℤ) (rest : List Frame) : Shell :=
  if stat ≠ 0 then s.leave f stat rest
  else if f.j + 1 < f.cmdlist.length then
    { s with stack := { f with j := f.j + 1, running := false } :: rest }
  else s.leave f 0 rest

inductive Event where
  /-- `do_cmd` is called. -/
  | enter (p : List UInt8)
  /-- The innermost call of `do_cmd` gets to its next command. -/
  | fetch
  /-- The running command returns. -/
  | finish (stat : ℤ)
  /-- The environment or the history is changed. -/
  | setenv (getenv : CStr → Option CStr) (rptcmd : ℤ) (last : CStr)

/-- One step.  `do_cmd` can be called where no other call is at work. -/
def Shell.step (s : Shell) : Event → Option Shell
  | .enter p =>
    match s.stack with
    | [] => some (s.enter p)
    | f :: _ => if f.running then some (s.enter p) else none
  | .fetch =>
    match s.stack with
    | [] => none
    | f :: rest => if f.running then none else some (s.fetch f rest)
  | .finish stat =>
    match s.stack with
    | [] => none
    | f :: rest => if f.running then some (s.finish f stat rest) else none
  | .setenv getenv rptcmd last => some { s with getenv, rptcmd, last }

def Shell.StepsTo (s : Shell) (e : Event) (s' : Shell) : Prop := s.step e = some s'

end Pmon.Cmds
