import Mathlib.Algebra.Group.Nat.Defs
import Mathlib.Data.Int.Notation
import Mathlib.Tactic.Common

/-!
# C strings and the character routines

A C string is the list of its bytes before the terminating NUL.  The routines here are the
ones of `lib/libc` that the environment code calls: the `ctype` tables, `strtoul`, `gethex`,
`striequ` and `strpat`.

`striequ_iff` reduces the case-insensitive comparison to equality of the upper-case strings;
everything about it follows from there.
-/

namespace Pmon.Libc

/-- A C string. -/
abbrev CStr := List UInt8

/-- The bytes of an ASCII literal. -/
def ascii (s : String) : CStr :=
  s.toList.map fun c => UInt8.ofNat c.toNat

/-! ## §1 Character tables -/

def isdigit (c : UInt8) : Bool := 48 ≤ c && c ≤ 57

def isupper (c : UInt8) : Bool := 65 ≤ c && c ≤ 90

def islower (c : UInt8) : Bool := 97 ≤ c && c ≤ 122

def isalpha (c : UInt8) : Bool := isupper c || islower c

def isspace (c : UInt8) : Bool := c == 32 || (9 ≤ c && c ≤ 13)

def toupper (c : UInt8) : UInt8 := if islower c then c - 32 else c

theorem toupper_eq_zero {c : UInt8} : toupper c = 0 ↔ c = 0 := by
  unfold toupper islower
  grind

/-! ## §2 Numbers -/

/-- `ULONG_MAX` of `misc.c`. -/
def ulongMax : ℕ := 4294967295

/-- The conversion loop of `strtoul`: `result` and `overflow` so far. -/
def strtoulLoop (base limit : ℕ) : CStr → ℕ → Bool → ℕ × Bool
  | [], result, overflow => (result, overflow)
  | c :: cs, result, overflow =>
    let digit? : Option ℕ :=
      if isdigit c then some (c.toNat - 48)
      else if isalpha c then some (c.toNat - (if isupper c then 65 else 97) + 10)
      else none
    match digit? with
    | none => (result, overflow)
    | some digit =>
      if digit ≥ base then (result, overflow)
      else
        let overflow := overflow || result > limit
        if overflow then strtoulLoop base limit cs result overflow
        else
          let result := base * result
          if digit > ulongMax - result then strtoulLoop base limit cs result true
          else strtoulLoop base limit cs (result + digit) false

/-- The prefix that `strtoul` skips, and the base it settles on.
    In base 16 a bare `0` is skipped too, and `X` is not: the source writes
    `(c = *nptr == 'x') || c == 'X'`. -/
def strtoulBase (s : CStr) (base : ℕ) : CStr × ℕ :=
  if base = 0 then
    match s with
    | 48 :: 120 :: cs => (cs, 16)
    | 48 :: 88 :: cs => (cs, 16)
    | 48 :: cs => (cs, 8)
    | cs => (cs, 10)
  else if base = 16 then
    match s with
    | 48 :: 120 :: cs => (cs, 16)
    | 48 :: cs => (cs, 16)
    | cs => (cs, 16)
  else (s, base)

/-- `strtoul(nptr, 0, base)`: the value. -/
def strtoul (s : CStr) (base : ℕ) : ℕ :=
  let s := s.dropWhile isspace
  let negative := s.head? == some 45
  let s := if s.head? == some 43 || negative then s.drop 1 else s
  let (s, base) := strtoulBase s base
  let (result, overflow) := strtoulLoop base (ulongMax / base) s 0 false
  if overflow then ulongMax
  else if negative then (2 ^ 32 - result) % 2 ^ 32
  else result

/-- `gethex(vp, p, n)`: the value of `n` hexadecimal digits, `none` where the source
    returns 0 and leaves `*vp` alone. -/
def gethex (s : CStr) (n : ℕ) (v : ℕ := 0) : Option ℕ :=
  match n, s with
  | 0, _ => some v
  | _ + 1, [] => none
  | n + 1, c :: cs =>
    if isdigit c then gethex cs n (v * 16 + (c.toNat - 48))
    else if 97 ≤ c && c ≤ 102 then gethex cs n (v * 16 + (c.toNat - 97 + 10))
    else if 65 ≤ c && c ≤ 70 then gethex cs n (v * 16 + (c.toNat - 65 + 10))
    else none

/-- The digit loop of `_atob`, in 64 bits. -/
def atobDigits (base : ℕ) : CStr → ℕ → Option ℕ
  | [], value => some value
  | c :: cs, value =>
    let digit? : Option ℕ :=
      if isdigit c then some (c.toNat - 48)
      else if 97 ≤ c && c ≤ 102 then some (c.toNat - 97 + 10)
      else if 65 ≤ c && c ≤ 70 then some (c.toNat - 65 + 10)
      else none
    match digit? with
    | none => none
    | some digit =>
      if digit ≥ base then none else atobDigits base cs ((value * base + digit) % 2 ^ 64)

/-- A leading `0x` makes the number hexadecimal. -/
def atobPrefix (p : CStr) (base : ℕ) : CStr × ℕ :=
  match p with
  | 48 :: 120 :: cs => (cs, 16)
  | 48 :: 88 :: cs => (cs, 16)
  | cs => (cs, base)

/-- `_atob` on a string without a point. -/
def atobPlain (p : CStr) (base : ℕ) : Option ℕ :=
  let (p, base) := atobPrefix p base
  atobDigits base p 0

/-- `atob(vp, p, base)` for a fixed base: the value, `none` where the source returns 0.
    In base 16 a string may have the form `high.low`. -/
def atob (p : CStr) (base : ℕ) : Option ℕ :=
  let (p, base) := atobPrefix p base
  if base = 16 ∧ 46 ∈ p then
    let tmp := p.takeWhile (· != 46)
    let q := (p.dropWhile (· != 46)).drop 1
    if tmp.length > 19 then none
    else
      match atobPlain tmp 16 with
      | none => none
      | some v1 =>
        if 46 ∈ q then none
        else (atobPlain q 16).map fun v2 => (v1 * 65536 + v2) % 2 ^ 32
  else (atobDigits base p 0).map (· % 2 ^ 32)

/-- `getword`: the next word and what follows it, `none` at the end of the string. -/
def getword (p : CStr) : Option (CStr × CStr) :=
  match p.dropWhile isspace with
  | [] => none
  | c :: cs => some ((c :: cs).takeWhile (!isspace ·), (c :: cs).dropWhile (!isspace ·))

/-! ## §3 Comparison up to case -/

/-- `striequ` on two strings. -/
def striequ : CStr → CStr → Bool
  | [], t => t.isEmpty
  | _ :: _, [] => false
  | c :: cs, d :: ds => toupper c == toupper d && striequ cs ds

theorem striequ_iff {s t : CStr} : striequ s t ↔ s.map toupper = t.map toupper := by
  induction s generalizing t with
  | nil => cases t <;> simp [striequ]
  | cons c cs ih =>
    cases t with
    | nil => simp [striequ]
    | cons d ds =>
      rw [striequ, Bool.and_eq_true, beq_iff_eq, ih, List.map_cons, List.map_cons, List.cons.injEq]

@[simp] theorem striequ_refl (s : CStr) : striequ s s := striequ_iff.mpr rfl

theorem striequ_comm {s t : CStr} : striequ s t = striequ t s := by
  rw [Bool.eq_iff_iff, striequ_iff, striequ_iff, eq_comm]

theorem striequ_trans {s t u : CStr} (h₁ : striequ s t) (h₂ : striequ t u) : striequ s u :=
  striequ_iff.mpr ((striequ_iff.mp h₁).trans (striequ_iff.mp h₂))

/-- Names of one class are interchangeable on either side of a comparison. -/
theorem striequ_congr_left {s t u : CStr} (h : striequ s t) : striequ s u = striequ t u := by
  rw [Bool.eq_iff_iff, striequ_iff, striequ_iff, striequ_iff.mp h]

/-! ## §4 Comparison byte for byte -/

/-- `strcmp`: the difference of the first two bytes that differ. -/
def strcmp : CStr → CStr → ℤ
  | [], [] => 0
  | [], d :: _ => -(d.toNat : ℤ)
  | c :: _, [] => (c.toNat : ℤ)
  | c :: cs, d :: ds =>
    if c.toNat = d.toNat then if c.toNat = 0 then 0 else strcmp cs ds
    else (c.toNat : ℤ) - d.toNat

theorem strcmp_neg (s t : CStr) : strcmp t s = -strcmp s t := by
  induction s generalizing t with
  | nil => cases t <;> simp [strcmp]
  | cons c cs ih =>
    cases t with
    | nil => simp [strcmp]
    | cons d ds =>
      have hrec := ih ds
      rw [strcmp, strcmp]
      split <;> split <;> grind

theorem strcmp_trans {s t u : CStr} (h₁ : strcmp s t ≤ 0) (h₂ : strcmp t u ≤ 0) :
    strcmp s u ≤ 0 := by
  induction s generalizing t u with
  | nil => cases u <;> simp [strcmp]
  | cons c cs ih =>
    cases t with
    | nil =>
      cases u with
      | nil => exact h₁
      | cons e es =>
        simp only [strcmp] at h₁ ⊢
        split <;> grind
    | cons d ds =>
      cases u with
      | nil =>
        simp only [strcmp] at h₁ h₂ ⊢
        split at h₁ <;> grind
      | cons e es =>
        have hrec : strcmp cs ds ≤ 0 → strcmp ds es ≤ 0 → strcmp cs es ≤ 0 := ih
        simp only [strcmp] at h₁ h₂ ⊢
        split at h₁ <;> split at h₂ <;> grind

/-! ## §5 Patterns -/

/-- `strposn(p, q)`: the part of `p` from the first `q` on; the end of `p` for an empty `q`. -/
def strposn (p q : CStr) : Option CStr :=
  if q.isEmpty then some []
  else
    match p with
    | [] => none
    | c :: cs => if q.isPrefixOf (c :: cs) then some (c :: cs) else strposn cs q

/-- The matching loop of `strpat`.  Every turn consumes a byte of the pattern. -/
def strpatLoop : ℕ → CStr → CStr → Bool
  | 0, p, pat => p.isEmpty && pat.isEmpty
  | _ + 1, [], pat => pat.isEmpty || pat == [42]
  | _ + 1, _ :: _, [] => false
  | fuel + 1, c :: cs, d :: ds =>
    if d = 42 then
      let tmp := ds.takeWhile fun x => x != 42 && x != 63
      match strposn (c :: cs) tmp with
      | none => false
      | some t => strpatLoop fuel (t.drop tmp.length) (ds.drop tmp.length)
    else if d = 63 ∨ d = c then strpatLoop fuel cs ds
    else false

/-- `strpat(s1, s2)`: does `s1` match the pattern `s2`?  Both are put between the anchors
    `0x80|'^'` and `0x80|'$'` first. -/
def strpat (s1 s2 : CStr) : Bool :=
  let p := 0xde :: s1 ++ [0xa4]
  let pat := 0xde :: s2 ++ [0xa4]
  strpatLoop (pat.length + 1) p pat

/-- A pattern without wildcards matches itself only. -/
theorem strpatLoop_literal {fuel : ℕ} {p pat : CStr} (hstar : 42 ∉ pat) (hquery : 63 ∉ pat)
    (hfuel : pat.length ≤ fuel) : strpatLoop fuel p pat = decide (p = pat) := by
  induction fuel generalizing p pat with
  | zero =>
    obtain rfl := List.length_eq_zero_iff.mp (Nat.le_zero.mp hfuel)
    cases p <;> simp [strpatLoop]
  | succ fuel ih =>
    cases p with
    | nil =>
      cases pat with
      | nil => simp [strpatLoop]
      | cons d ds =>
        have hd : d ≠ 42 := fun h => hstar (h ▸ List.mem_cons_self ..)
        simp [strpatLoop, hd]
    | cons c cs =>
      cases pat with
      | nil => simp [strpatLoop]
      | cons d ds =>
        have hd : d ≠ 42 := fun h => hstar (h ▸ List.mem_cons_self ..)
        have hq : d ≠ 63 := fun h => hquery (h ▸ List.mem_cons_self ..)
        rw [List.length_cons] at hfuel
        have hrec := ih (p := cs) (fun h => hstar (List.mem_cons_of_mem _ h))
          (fun h => hquery (List.mem_cons_of_mem _ h)) (by omega)
        by_cases hdc : d = c
        · subst hdc
          simp [strpatLoop, hd, hrec]
        · simp [strpatLoop, hd, hq, hdc, Ne.symm hdc]

theorem strpat_literal {s pat : CStr} (hstar : 42 ∉ pat) (hquery : 63 ∉ pat) :
    strpat s pat ↔ s = pat := by
  rw [strpat, strpatLoop_literal (by simpa using hstar) (by simpa using hquery) (by omega), decide_eq_true_iff]
  simp

example : strpat (ascii "bootdelay") (ascii "boot*") = true := by decide

/-! ## §6 strbequ -/

/-- `strbequ`: whether the first string begins with the second one. -/
def strbequ : CStr → CStr → Bool
  | _, [] => true
  | [], _ :: _ => false
  | c :: s1, d :: s2 => if c ≠ d then false else strbequ s1 s2

theorem strbequ_iff {s p : CStr} : strbequ s p ↔ p <+: s := by
  induction p generalizing s with
  | nil =>
    cases s with
    | nil => exact iff_of_true rfl (List.nil_prefix)
    | cons c s => exact iff_of_true rfl (List.nil_prefix)
  | cons d p ih =>
    cases s with
    | nil => exact iff_of_false Bool.false_ne_true (by simp)
    | cons c s =>
      rw [strbequ, List.cons_prefix_cons]
      rcases eq_or_ne d c with rfl | hne
      · simp only [ne_eq, not_true_eq_false, if_false, ih, true_and]
      · simp only [ne_eq, hne.symm, not_false_eq_true, if_true, Bool.false_eq_true, hne, false_and]

end Pmon.Libc
