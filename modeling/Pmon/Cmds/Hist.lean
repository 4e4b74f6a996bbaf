import Mathlib.Data.Int.Notation
import Mathlib.Data.List.Basic
import Mathlib.Logic.Function.Basic
import Mathlib.Logic.Function.Iterate
import Mathlib.Tactic.SplitIfs

/-!
# The line editor

`get_line` of `pmon/cmds/hist.c` with the history it walks through, and `strdchr` and `strichr`
of the C library.

A string is the list of its characters before the terminating zero.  What is printed to the
terminal is left out: `column` is all that the printing functions change.
-/

namespace Pmon.Cmds

/-! ## §1 Strings -/

/-- The loop of `strdchr`: each character is overwritten by the next one. -/
def strdchr : List UInt8 → List UInt8
  | [] => []
  | [_] => []
  | _ :: c :: p => c :: strdchr (c :: p)

/-- `strichr`. -/
def strichr (p : List UInt8) (c : UInt8) : List UInt8 := c :: p

/-- A library call on `&p[column]`. -/
def atColumn (p : List UInt8) (column : ℕ) (f : List UInt8 → List UInt8) : List UInt8 :=
  p.take column ++ f (p.drop column)

/-! ## §2 The history -/

/-- `HISTMAX`. -/
def histmax : ℕ := 200

/-- `LINESZ`. -/
def linesz : ℕ := 200

/-- `incmod(x, HISTMAX)`. -/
def incmod (x : ℕ) : ℕ := if x + 1 > histmax then 0 else x + 1

/-- `decmod(x, HISTMAX)`. -/
def decmod (x : ℕ) : ℕ := if x = 0 then histmax else x - 1

/-- The slot `pos` places behind the oldest line. -/
def ringSlot (histo pos : ℕ) : ℕ := (histo + pos) % (histmax + 1)

/-- How many lines there are between `histo` and `histi`. -/
def ringCount (histi histo : ℕ) : ℕ := (histi + (histmax + 1) - histo) % (histmax + 1)

/-- `hist`, `histi` and `histo`.  All slots but those of the lines are free. -/
structure History where
  hist : ℕ → Option (List UInt8)
  histi : ℕ
  histo : ℕ
  histi_le : histi ≤ histmax
  histo_le : histo ≤ histmax
  hist_free : ∀ k, ringCount histi histo ≤ k → k ≤ histmax → hist (ringSlot histo k) = none

theorem incmod_le {x : ℕ} : incmod x ≤ histmax := by
  unfold incmod
  split <;> omega

/-- `strempty`. -/
def strempty (p : List UInt8) : Bool := p.all fun c => c = 0x20 || (0x09 ≤ c && c ≤ 0x0d)

theorem ringSlot_incmod {histo k : ℕ} (ho : histo ≤ histmax) :
    ringSlot (incmod histo) k = ringSlot histo (k + 1) := by
  unfold ringSlot incmod histmax at *
  split <;> omega

theorem ringSlot_count {histi histo : ℕ} (hi : histi ≤ histmax) (ho : histo ≤ histmax) :
    ringSlot histo (ringCount histi histo) = histi := by
  unfold ringSlot ringCount histmax at *
  omega

theorem ringCount_of_full {histi histo : ℕ} (hi : histi ≤ histmax) (hfull : incmod histi = histo) :
    ringCount histi histo = histmax := by
  unfold ringCount incmod histmax at *
  split at hfull <;> omega

/-- `addhist` where no slot would be left: the oldest line goes. -/
def History.dropOldest (h : History) : History :=
  if hfull : incmod h.histi = h.histo then
    { hist := Function.update h.hist h.histo none
      histi := h.histi
      histo := incmod h.histo
      histi_le := h.histi_le
      histo_le := incmod_le
      hist_free := fun k hk hle => by
        rw [Function.update_apply, ringSlot_incmod h.histo_le]
        split
        · rfl
        rename_i hne
        have hcount := ringCount_of_full h.histi_le hfull
        have ho := h.histo_le
        refine h.hist_free (k + 1) ?_ ?_
        · unfold ringCount incmod histmax at *
          split at hk <;> omega
        · unfold ringSlot histmax at *
          omega }
  else h

theorem History.incmod_dropOldest (h : History) :
    incmod h.dropOldest.histi ≠ h.dropOldest.histo := by
  unfold dropOldest
  split
  · rename_i hfull
    have ho := h.histo_le
    change incmod h.histi ≠ incmod h.histo
    unfold incmod histmax at *
    split_ifs at * <;> omega
  · assumption

/-- `addhist` where there is a slot: the line goes into it. -/
def History.append (h : History) (p : List UInt8) (hroom : incmod h.histi ≠ h.histo) : History where
  hist := Function.update h.hist h.histi (some p)
  histi := incmod h.histi
  histo := h.histo
  histi_le := incmod_le
  histo_le := h.histo_le
  hist_free := fun k hk hle => by
    have hi := h.histi_le
    have ho := h.histo_le
    have hcount : ringCount h.histi h.histo < k := by
      unfold ringCount incmod histmax at *
      split_ifs at * <;> omega
    rw [Function.update_of_ne, h.hist_free k (Nat.le_of_lt hcount) hle]
    rw [← ringSlot_count hi ho]
    unfold ringSlot histmax at *
    omega

/-- `addhist`; `alloc` says whether `malloc` has memory for the line. -/
def History.addhist (h : History) (p : List UInt8) (alloc : Bool) : History :=
  if strempty p then h
  else if h.hist (decmod h.histi) = some p then h
  else if alloc then h.dropOldest.append p h.incmod_dropOldest
  else h.dropOldest

/-! ## §3 The line and the cursor -/

/-- The line and the variables of `get_line`. -/
structure LineState where
  p : List UInt8
  column : ℕ
  mark : ℤ
  histr : ℕ

/-- `right`. -/
def right (p : List UInt8) : ℕ → ℕ → ℕ
  | 0, column => column
  | n + 1, column => if column < p.length then right p n (column + 1) else column

/-- `left`. -/
def left : ℕ → ℕ → ℕ
  | 0, column => column
  | n + 1, column => if 0 < column then left n (column - 1) else column

/-- `backspace`: it moves the column as `left` does and blanks what it passes. -/
def backspace (n column : ℕ) : ℕ := left n column

def newline : UInt8 := 0x0a

/-- `putstr`. -/
def putstr (p : List UInt8) (column : ℕ) : ℕ :=
  p.foldl (fun column c => if c = newline then 0 else column + 1) column

/-- `putstr (" ")`, `n` times. -/
def putspaces : ℕ → ℕ → ℕ
  | 0, column => column
  | n + 1, column => putspaces n (putstr [0x20] column)

/-- `addchar`. -/
def addchar (s : LineState) (c : UInt8) : LineState :=
  if s.p.length > linesz - 40 then s
  else
    let oc := s.column
    let p := atColumn s.p s.column (strichr · c)
    let column := putstr (p.drop s.column) s.column
    { s with p, column := left ((p.drop oc).length - 1) column }

/-! ## §4 The keys -/

/-- The characters of `get_line`'s keys. -/
def keyPrev : UInt8 := 0x10

def keyNext : UInt8 := 0x0e

def keyForw : UInt8 := 0x06

def keyBack : UInt8 := 0x02

def keyBegin : UInt8 := 0x01

def keyEnd : UInt8 := 0x05

def keyDelete : UInt8 := 0x04

def keyDelline : UInt8 := 0x0b

def keyMark : UInt8 := 0x00

def keyKill : UInt8 := 0x17

/-- `cvtab`, by the letter that ends the escape sequence. -/
def cvtab (c : UInt8) : UInt8 :=
  ([keyPrev, keyNext, keyForw, keyBack, 0x45, keyEnd, 0x47, keyBegin] : List UInt8).getD
    (c - 0x41).toNat c

/-- `isprint`. -/
def isprint (c : UInt8) : Bool := 0x20 ≤ c && c ≤ 0x7e

/-- `esc_state`. -/
inductive EscState where
  | none
  | haveEsc
  | haveLb
deriving DecidableEq

/-- The `switch` on `esc_state`: the next state, and the character if there is one to act on. -/
def escape : EscState → UInt8 → EscState × Option UInt8
  | .none, c => if c = 0x1b then (.haveEsc, none) else (.none, some c)
  | .haveEsc, c => if c = 0x5b then (.haveLb, none) else (.none, some c)
  | .haveLb, c => (.none, some (if 0x41 ≤ c ∧ c ≤ 0x48 then cvtab c else c))

/-- The slot that `PREV` goes to. -/
def prevHistr (h : History) (histr : ℕ) : ℕ := if histr ≠ h.histo then decmod histr else histr

/-- The slot that `NEXT` goes to. -/
def nextHistr (h : History) (histr : ℕ) : ℕ := if histr ≠ h.histi then incmod histr else histr

/-- `strcpy (p, hist[histr])`: copying from a free slot gives the empty line. -/
def recalled (h : History) (histr : ℕ) : List UInt8 := (h.hist histr).getD []

/-- `PREV` and `NEXT`, when the walk through the history gets to `histr`. -/
def recallLine (h : History) (s : LineState) (histr : ℕ) : LineState :=
  let column := right s.p (s.p.length - s.column) s.column
  let column := backspace column column
  let p := recalled h histr
  { p, column := putstr p column, mark := 0, histr }

/-- `DELETE`. -/
def deleteKey (s : LineState) : LineState :=
  let oc := s.column
  let p := atColumn s.p s.column strdchr
  let column := putstr (p.drop s.column) s.column
  let column := putstr [0x20] column
  let column := left ((p.drop oc).length + 1) column
  { s with p, column, mark := if s.mark > oc then s.mark - 1 else s.mark }

/-- `DELLINE`. -/
def dellineKey (s : LineState) : LineState :=
  let n := (s.p.drop s.column).length
  let p := s.p.take s.column
  let oc := s.column
  let column := left n (putspaces n s.column)
  { s with p, column, mark := if s.mark > oc then oc else s.mark }

/-- The rest of `KILL`: `n` characters go from `column` on. -/
def killChars (s : LineState) (n column : ℕ) : LineState :=
  let p := atColumn s.p column (Nat.iterate strdchr n)
  let oc := column
  let column := putstr (p.drop column) column
  let column := putspaces n column
  let column := left ((p.drop oc).length + n) column
  { s with p, column, mark := column }

/-- `KILL`. -/
def killKey (s : LineState) : LineState :=
  if s.mark < s.column then
    let n := (s.column - s.mark).toNat
    killChars s n (left n s.column)
  else if s.column < s.mark then
    killChars s (s.mark - s.column).toNat s.column
  else s

/-- `'\b'` and `0x7f`. -/
def backspaceKey (s : LineState) : LineState :=
  let oc := left 1 s.column
  let p := atColumn s.p oc strdchr
  let column := putstr (p.drop oc) oc
  let column := putstr [0x20] column
  let column := left ((p.drop oc).length + 1) column
  { s with p, column, mark := if s.mark ≥ oc then s.mark - 1 else s.mark }

/-- What `get_line` does on a character: whether it goes on, and the state. -/
def lineKey (h : History) (usehist : Bool) (s : LineState) (c : UInt8) : Bool × LineState :=
  if c = keyPrev ∧ usehist then (true, recallLine h s (prevHistr h s.histr))
  else if c = keyNext ∧ usehist then (true, recallLine h s (nextHistr h s.histr))
  else if c = keyForw then (true, { s with column := right s.p 1 s.column })
  else if c = keyBack then (true, { s with column := left 1 s.column })
  else if c = keyBegin then (true, { s with column := left s.column s.column })
  else if c = keyEnd then
    (true, { s with column := right s.p (s.p.drop s.column).length s.column })
  else if c = keyMark then (true, { s with mark := s.column })
  else if c = keyDelete then (true, deleteKey s)
  else if c = keyDelline then (true, dellineKey s)
  else if c = keyKill then (true, killKey s)
  else if c = 0x08 ∨ c = 0x7f then (true, backspaceKey s)
  else if c = newline ∨ c = 0x0d then (false, s)
  else if c = 0x09 then (true, s)
  else if isprint c then (true, addchar s c)
  else (true, s)

/-- `get_line` between two characters. -/
structure LineEdit where
  esc : EscState
  /-- The loop of `get_line` has not ended. -/
  going : Bool
  line : LineState

/-- `get_line` before the first character. -/
def lineStart (h : History) (p : List UInt8) : LineEdit where
  esc := .none
  going := true
  line :=
    { p
      column := if p ≠ [] then left (putstr p 0) (putstr p 0) else 0
      mark := 0
      histr := h.histi }

/-- One turn of the loop of `get_line`. -/
def lineTurn (h : History) (usehist : Bool) (s : LineEdit) (c : UInt8) : LineEdit :=
  if s.going then
    match escape s.esc c with
    | (esc, none) => { s with esc }
    | (esc, some c) => ⟨esc, (lineKey h usehist s.line c).1, (lineKey h usehist s.line c).2⟩
  else s

/-- `get_line` after the characters `keys` have come in. -/
def getLine (h : History) (usehist : Bool) (p : List UInt8) (keys : List UInt8) : LineEdit :=
  keys.foldl (lineTurn h usehist) (lineStart h p)

end Pmon.Cmds
