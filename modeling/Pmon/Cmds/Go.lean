import Mathlib.Algebra.GroupWithZero.Nat
import Pmon.Cmds.CmdParser

/-!
# The command `g`

How `cmd_go` of `pmon/cmds/cmd_go.c` puts together the command line of the client: the words behind
the options, the place of the initial ramdisk and three variables of the environment, in a buffer of
`LINESZ` bytes.

## Key results

- `length_argvizeLoop_le`: `argvize` never has more words than `MAX_AC`.
- `cmdGo_exact`: when the command line stays in its buffers.
-/

namespace Pmon.Cmds.Go

open Pmon.Libc

/-! ## §1 Strings in buffers -/

/-- A string in a buffer of `n` bytes, with its terminator. -/
structure Buffered (n : ℕ) where
  text : CStr
  length_lt : text.length < n

/-- `strcpy` into a buffer of `n` bytes: `none` where a store would leave it. -/
def strcpy (n : ℕ) (s : CStr) : Option (Buffered n) :=
  if h : s.length < n then some ⟨s, h⟩ else none

/-- `strcat`. -/
def strcat {n : ℕ} (b : Buffered n) (s : CStr) : Option (Buffered n) := strcpy n (b.text ++ s)

/-- One `strcat` behind the other. -/
def strcats {n : ℕ} (b : Buffered n) (pieces : List CStr) : Option (Buffered n) :=
  pieces.foldlM strcat b

/-! ## §2 Options -/

/-- How the letters of an option word end: the next word follows, or it is the argument of the last
    letter, or the options end with this word. -/
inductive Letters where
  | next
  | argument
  | stop

/-- The letters of a word, by the option string `b:e:st`; the flag is set by `t`. -/
def goLetters (getRsa : CStr → Option (BitVec 32)) : CStr → Bool → Option (Bool × Letters)
  | [], time => some (time, .next)
  | c :: place, time =>
    if c = 45 then some (time, .stop)
    else if c = 115 then goLetters getRsa place time
    else if c = 116 then goLetters getRsa place true
    else if c = 98 ∨ c = 101 then
      if place = [] then some (time, .argument)
      else (getRsa place).map fun _ => (time, .next)
    else none

/-- The loop over the options: whether `t` is one of them, and the words behind them. -/
def goOptions (getRsa : CStr → Option (BitVec 32)) :
    List CStr → Bool → Option (Bool × List CStr)
  | [], time => some (time, [])
  | (45 :: c :: place) :: args, time =>
    if c = 45 then some (time, args)
    else
      match goLetters getRsa (c :: place) time with
      | none => none
      | some (time, .stop) => some (time, (45 :: c :: place) :: args)
      | some (time, .next) => goOptions getRsa args time
      | some (time, .argument) =>
        match args with
        | [] => none
        | arg :: args => (getRsa arg).bind fun _ => goOptions getRsa args time
  | args, time => some (time, args)

/-! ## §3 The command line of the client -/

/-- `LINESZ`. -/
def linesz : ℕ := 200

/-- A number with `%x`. -/
def hexText (n : ℕ) : CStr := (Nat.toDigits 16 n).map fun c => UInt8.ofNat c.toNat

/-- `rd_start=0x%x rd_size=0x%x `. -/
def rdText (start size : BitVec 32) : CStr :=
  [114, 100, 95, 115, 116, 97, 114, 116, 61, 48, 120] ++ hexText start.toNat ++
    [32, 114, 100, 95, 115, 105, 122, 101, 61, 48, 120] ++ hexText size.toNat ++ [32]

/-- The variables of the environment that are appended, with what stands in front of each: `kargs`,
    `ethaddr` and `mtdparts`. -/
def envPieces : List (CStr × CStr) :=
  [([107, 97, 114, 103, 115], [32]),
    ([101, 116, 104, 97, 100, 100, 114], [32, 101, 116, 104, 97, 100, 100, 114, 61]),
    ([109, 116, 100, 112, 97, 114, 116, 115], [32, 109, 116, 100, 112, 97, 114, 116, 115, 61])]

/-- What is appended for the environment. -/
def envTexts (getenv : CStr → Option CStr) : List CStr :=
  envPieces.flatMap fun (name, lead) =>
    match getenv name with
    | none => []
    | some value => [lead, value]

/-- The place and the size of an initial ramdisk are printed into `buf` and appended. -/
def catInitrd (clientcmd : Buffered linesz) :
    Option (BitVec 32 × BitVec 32) → Option (Buffered linesz)
  | none => some clientcmd
  | some (start, size) =>
    (strcpy 30 (rdText start size)).bind fun buf => strcat clientcmd buf.text

inductive GoResult where
  /-- A word could not be evaluated, or is no option. -/
  | fails
  /-- A store would leave a buffer. -/
  | overflows
  /-- The client is started with a command line, which has been split into words. -/
  | starts (clientcmd : Buffered linesz) (clientav : List CStr)

/-- `cmd_go` of the words behind the command, with the place and the size of the initial ramdisk
    that has been loaded. -/
def cmdGo (getRsa : CStr → Option (BitVec 32)) (getenv : CStr → Option CStr)
    (initrd : Option (BitVec 32 × BitVec 32)) (args : List CStr) : GoResult :=
  match goOptions getRsa args false with
  | none => .fails
  | some (time, words) =>
    let clientcmd :=
      -- "time " or "g "
      (strcpy linesz (if time then [116, 105, 109, 101, 32] else [103, 32])).bind fun clientcmd =>
      (strcats clientcmd (words.flatMap fun word => [word, [32]])).bind fun clientcmd =>
      (catInitrd clientcmd initrd).bind fun clientcmd => strcats clientcmd (envTexts getenv)
    match clientcmd with
    | none => .overflows
    | some clientcmd => .starts clientcmd (argvize clientcmd.text).1

/-! ## §4 Lengths -/

variable {n : ℕ} {b : Buffered n} {s t : CStr} {pieces : List CStr}

theorem strcpy_of_lt (h : s.length < n) : strcpy n s = some ⟨s, h⟩ := dif_pos h

theorem strcpy_of_le (h : n ≤ s.length) : strcpy n s = none := dif_neg (Nat.not_lt.mpr h)

/-- **Strings one behind the other** are one string. -/
theorem strcats_eq (b : Buffered n) (pieces : List CStr) :
    strcats b pieces = strcpy n (b.text ++ pieces.flatten) := by
  induction pieces generalizing b with
  | nil =>
    rw [List.flatten_nil, List.append_nil, strcpy_of_lt b.length_lt]
    rfl
  | cons s pieces ih =>
    have hstep : strcats b (s :: pieces) =
        (strcat b s).bind fun b => strcats b pieces := List.foldlM_cons
    rw [hstep, strcat, List.flatten_cons, ← List.append_assoc]
    by_cases hfits : (b.text ++ s).length < n
    · rw [strcpy_of_lt hfits, Option.bind_some, ih]
    · rw [strcpy_of_le (Nat.not_lt.mp hfits), strcpy_of_le]
      · rfl
      · rw [List.length_append]
        omega

/-- What is appended to a string that was copied, is copied with it. -/
theorem strcpy_bind {α : Type} (s t : CStr) (f : Buffered n → Option α) :
    ((strcpy n s).bind fun b => (strcpy n (b.text ++ t)).bind f) = (strcpy n (s ++ t)).bind f := by
  by_cases hfits : s.length < n
  · rw [strcpy_of_lt hfits, Option.bind_some]
  · rw [strcpy_of_le (Nat.not_lt.mp hfits), strcpy_of_le]
    · rfl
    · rw [List.length_append]
      omega

/-- What stands for an initial ramdisk. -/
def initrdText : Option (BitVec 32 × BitVec 32) → CStr
  | none => []
  | some (start, size) => rdText start size

/-- The whole command line. -/
def goText (getenv : CStr → Option CStr) (initrd : Option (BitVec 32 × BitVec 32)) (time : Bool)
    (words : List CStr) : CStr :=
  (if time then [116, 105, 109, 101, 32] else [103, 32]) ++
    (words.flatMap fun word => [word, [32]]).flatten ++ initrdText initrd ++
    (envTexts getenv).flatten

/-- How long the command line is. -/
def goLength (getenv : CStr → Option CStr) (initrd : Option (BitVec 32 × BitVec 32)) (time : Bool)
    (words : List CStr) : ℕ :=
  (if time then 5 else 2) + (words.map fun word => word.length + 1).sum +
    (initrdText initrd).length + ((envTexts getenv).map List.length).sum

variable {getRsa : CStr → Option (BitVec 32)} {getenv : CStr → Option CStr}
  {initrd : Option (BitVec 32 × BitVec 32)} {time : Bool} {words args : List CStr}

theorem length_goText : (goText getenv initrd time words).length =
    goLength getenv initrd time words := by
  have hwords : (words.flatMap fun word => [word, [32]]).flatten.length =
      (words.map fun word => word.length + 1).sum := by
    induction words with
    | nil => rfl
    | cons word words ih =>
      rw [List.flatMap_cons, List.flatten_append, List.length_append, ih, List.map_cons,
        List.sum_cons]
      simp
  unfold goText goLength
  rw [List.length_append, List.length_append, List.length_append, hwords, List.length_flatten]
  cases time <;> rfl

/-- The command line stays in its buffer, and so does the text of an initial ramdisk, which is
    printed into one of 30 bytes. -/
def GoFits (getenv : CStr → Option CStr) (initrd : Option (BitVec 32 × BitVec 32)) (time : Bool)
    (words : List CStr) : Prop :=
  goLength getenv initrd time words < linesz ∧ (initrdText initrd).length < 30

theorem catInitrd_eq (clientcmd : Buffered linesz) (hrd : (initrdText initrd).length < 30) :
    catInitrd clientcmd initrd = strcpy linesz (clientcmd.text ++ initrdText initrd) := by
  cases initrd with
  | none =>
    rw [initrdText, List.append_nil, strcpy_of_lt clientcmd.length_lt]
    rfl
  | some rd =>
    rw [initrdText] at hrd ⊢
    rw [catInitrd, strcpy_of_lt hrd]
    rfl

theorem catInitrd_none (clientcmd : Buffered linesz) (hrd : 30 ≤ (initrdText initrd).length) :
    catInitrd clientcmd initrd = none := by
  cases initrd with
  | none => exact absurd hrd (by decide)
  | some rd =>
    rw [initrdText] at hrd
    rw [catInitrd, strcpy_of_le hrd]
    rfl

/-- **The command line** that is put together. -/
theorem cmdGo_eq (h : goOptions getRsa args false = some (time, words))
    (hrd : (initrdText initrd).length < 30) :
    cmdGo getRsa getenv initrd args =
      match strcpy linesz (goText getenv initrd time words) with
      | none => .overflows
      | some clientcmd => .starts clientcmd (argvize clientcmd.text).1 := by
  have hend : ∀ s t : CStr, ((strcpy linesz s).bind fun b => strcpy linesz (b.text ++ t)) =
      strcpy linesz (s ++ t) := by
    intro s t
    have hbind := strcpy_bind (n := linesz) s t some
    simpa using hbind
  unfold cmdGo goText
  rw [h]
  simp only [strcats_eq, catInitrd_eq _ hrd, hend, List.append_assoc]

/-- A command line that is too long leaves its buffer. -/
theorem cmdGo_overflows (h : goOptions getRsa args false = some (time, words))
    (hrd : (initrdText initrd).length < 30) (hlong : linesz ≤ goLength getenv initrd time words) :
    cmdGo getRsa getenv initrd args = .overflows := by
  rw [← length_goText] at hlong
  rw [cmdGo_eq h hrd, strcpy_of_le hlong]

/-- `argvize` never has more words than there are slots. -/
theorem length_argvizeLoop_le (n : ℕ) (s : CStr) : (argvizeLoop n s).1.length ≤ n := by
  induction n generalizing s with
  | zero => exact Nat.le_refl 0
  | succ n ih =>
    rw [argvizeLoop]
    split
    · exact Nat.zero_le _
    · split
      · exact Nat.succ_le_succ (ih _)
      · exact Nat.succ_le_succ (ih _)

/-- A command line is in its buffer, and is split into words for which there are slots. -/
def Stays : GoResult → Prop
  | .fails => True
  | .overflows => False
  | .starts _ clientav => clientav.length ≤ maxAc

/-- **When the command line stays in its buffers**: exactly if all that is put together is shorter
    than `LINESZ`, and the text of an initial ramdisk shorter than 30. -/
theorem cmdGo_exact (getRsa : CStr → Option (BitVec 32)) (getenv : CStr → Option CStr)
    (initrd : Option (BitVec 32 × BitVec 32)) (args : List CStr) :
    Stays (cmdGo getRsa getenv initrd args) ↔
      ∀ time words, goOptions getRsa args false = some (time, words) →
        GoFits getenv initrd time words := by
  cases hoptions : goOptions getRsa args false with
  | none =>
    unfold cmdGo
    rw [hoptions]
    simp [Stays]
  | some parsed =>
    obtain ⟨time, words⟩ := parsed
    constructor
    · intro hstays time' words' hsame
      cases hsame
      by_cases hrd : (initrdText initrd).length < 30
      · refine ⟨?_, hrd⟩
        by_contra hlong
        rw [cmdGo_overflows hoptions hrd (Nat.not_lt.mp hlong)] at hstays
        exact hstays
      · exfalso
        unfold cmdGo at hstays
        rw [hoptions] at hstays
        simp only [catInitrd_none _ (Nat.not_lt.mp hrd), Option.bind_none, Option.bind_fun_none]
          at hstays
        exact hstays
    · intro hfits
      obtain ⟨hshort, hrd⟩ := hfits time words rfl
      rw [← length_goText] at hshort
      rw [cmdGo_eq hoptions hrd, strcpy_of_lt hshort]
      exact length_argvizeLoop_le maxAc _

/-- Variables `kargs` of 150 and `mtdparts` of 60 characters. -/
def longVariables (name : CStr) : Option CStr :=
  if name = [107, 97, 114, 103, 115] then some (List.replicate 150 97)
  else if name = [109, 116, 100, 112, 97, 114, 116, 115] then some (List.replicate 60 97)
  else none

theorem goLength_longVariables : goLength longVariables none false [] = 223 := by decide +kernel

/-- With two long variables the command line leaves its buffer. -/
theorem cmdGo_longVariables : ¬ Stays (cmdGo (fun _ => none) longVariables none []) := by
  rw [cmdGo_overflows rfl (by decide) (by rw [goLength_longVariables]; decide)]
  exact not_false

end Pmon.Cmds.Go
