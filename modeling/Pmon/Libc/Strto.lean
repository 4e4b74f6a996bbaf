import Pmon.Libc.Strings
import Mathlib.Algebra.Order.Group.Int
import Mathlib.Data.List.TakeWhile
import Mathlib.Tactic.Ring

/-!
# `strtoul` and `strtol`

Both routines skip blanks, take a sign and a prefix, and convert the digits that follow; they
return the value and store the place where they stopped.  The C standard takes the longest initial
part of the string, behind the blanks, that has the form of a constant: if there is none, nothing
is converted and the place returned is the beginning of the string.

The conversion loop is right, also where the value overflows.  What goes wrong stands before it:
the blanks and the sign are not given back when nothing is converted, a prefix is taken without a
digit behind it, and in base 16 the test for `X` never succeeds.

## Key results

- `strtoLoop_spec`: the loop converts exactly the digits, and notices every overflow.
- `Standard.unique`: the standard fixes the value and the end.
- `strto_exact`: when the routines return what the standard says.
-/

namespace Pmon.Libc

variable {base limit top r : ℕ} {s t u cs ds : CStr} {c : UInt8}

/-! ## §1 The routines -/

/-- The digit of a character; `none` where the loop breaks. -/
def strtoDigit (c : UInt8) : Option ℕ :=
  if isdigit c then some (c.toNat - 48)
  else if isalpha c then some (c.toNat - (if isupper c then 65 else 97) + 10)
  else none

/-- The conversion loop: `result`, `overflow` and the place where it stops.  The largest value is
    `ULONG_MAX` in `strtoul` and `LONG_MAX` in `strtol`. -/
def strtoLoop (base limit top : ℕ) : CStr → ℕ → Bool → ℕ × Bool × CStr
  | [], result, overflow => (result, overflow, [])
  | c :: cs, result, overflow =>
    match strtoDigit c with
    | none => (result, overflow, c :: cs)
    | some digit =>
      if digit ≥ base then (result, overflow, c :: cs)
      else
        let overflow := overflow || result > limit
        if overflow then strtoLoop base limit top cs result overflow
        else
          let result := base * result
          if digit > top - result then strtoLoop base limit top cs result true
          else strtoLoop base limit top cs (result + digit) false

/-- The white space and the sign. -/
def strtoSign (nptr : CStr) : Bool × CStr :=
  match nptr.dropWhile isspace with
  | 43 :: cs => (false, cs)
  | 45 :: cs => (true, cs)
  | cs => (false, cs)

/-- `strtoul(nptr, endptr, base)`: the value and `*endptr`. -/
def strtoulEnd (nptr : CStr) (base : ℕ) : ℕ × CStr :=
  let (negative, s) := strtoSign nptr
  let (s, base) := strtoulBase s base
  let (result, overflow, tail) := strtoLoop base (ulongMax / base) ulongMax s 0 false
  (if overflow then ulongMax else if negative then (2 ^ 32 - result) % 2 ^ 32 else result, tail)

/-- `LONG_MAX` of `misc.c`. -/
def longMax : ℕ := 2147483647

/-- `strtol(nptr, endptr, base)`: the value and `*endptr`. -/
def strtolEnd (nptr : CStr) (base : ℕ) : ℤ × CStr :=
  let (negative, s) := strtoSign nptr
  let (s, base) := strtoulBase s base
  let (result, overflow, tail) := strtoLoop base (longMax / base) longMax s 0 false
  (if overflow then if negative then -longMax - 1 else longMax
    else if negative then -result else result, tail)

/-! ## §2 The loop -/

/-- A digit of the base. -/
def isDigitOf (base : ℕ) (c : UInt8) : Bool := (strtoDigit c).any (· < base)

/-- The value of a run of digits. -/
def digitsValue (base v : ℕ) (ds : CStr) : ℕ :=
  ds.foldl (fun n c => base * n + (strtoDigit c).getD 0) v

@[simp] theorem digitsValue_nil (base v : ℕ) : digitsValue base v [] = v := rfl

@[simp] theorem digitsValue_cons (base v : ℕ) (c : UInt8) (ds : CStr) :
    digitsValue base v (c :: ds) = digitsValue base (base * v + (strtoDigit c).getD 0) ds := rfl

theorem le_digitsValue (hbase : 0 < base) (v : ℕ) (ds : CStr) : v ≤ digitsValue base v ds := by
  induction ds generalizing v with
  | nil => exact Nat.le_refl v
  | cons c ds ih =>
    rw [digitsValue_cons]
    refine le_trans ?_ (ih _)
    exact (Nat.le_mul_of_pos_left v hbase).trans (Nat.le_add_right ..)

/-- One character of the string. -/
theorem strtoLoop_cons (base limit top : ℕ) (c : UInt8) (cs : CStr) (result : ℕ)
    (overflow : Bool) :
    strtoLoop base limit top (c :: cs) result overflow =
      if isDigitOf base c then
        if overflow || result > limit then strtoLoop base limit top cs result true
        else if (strtoDigit c).getD 0 > top - base * result then
          strtoLoop base limit top cs (base * result) true
        else strtoLoop base limit top cs (base * result + (strtoDigit c).getD 0) false
      else (result, overflow, c :: cs) := by
  rw [strtoLoop]
  cases h : strtoDigit c with
  | none => simp [isDigitOf, h]
  | some digit =>
    by_cases hlt : digit < base
    · have hge : ¬ digit ≥ base := Nat.not_le.mpr hlt
      simp only [hge, if_false, isDigitOf, h, Option.any_some, hlt, decide_true, if_true,
        Option.getD_some]
      by_cases ho : (overflow || decide (result > limit)) = true
      · rw [if_pos ho, if_pos ho, ho]
      · rw [if_neg ho, if_neg ho]
    · have hge : digit ≥ base := Nat.not_lt.mp hlt
      simp [isDigitOf, h, hlt, hge]

/-- The loop stops at the first character that is no digit. -/
theorem strtoLoop_end (base limit top : ℕ) (cs : CStr) (result : ℕ) (overflow : Bool) :
    (strtoLoop base limit top cs result overflow).2.2 = cs.dropWhile (isDigitOf base) := by
  induction cs generalizing result overflow with
  | nil => rfl
  | cons c cs ih =>
    rw [strtoLoop_cons, List.dropWhile_cons]
    by_cases h : isDigitOf base c = true
    · rw [if_pos h, if_pos h]
      split
      · exact ih ..
      · split <;> exact ih ..
    · rw [if_neg h, if_neg h]

theorem strtoLoop_overflowed (base limit top : ℕ) (cs : CStr) (result : ℕ) :
    (strtoLoop base limit top cs result true).2.1 = true := by
  induction cs generalizing result with
  | nil => rfl
  | cons c cs ih =>
    rw [strtoLoop_cons]
    split
    · simpa using ih result
    · rfl

/-- **The loop**: `overflow` says whether the value of the digits is more than the largest value,
    and if it is not, `result` is that value. -/
theorem strtoLoop_spec (hbase : 0 < base) (cs : CStr) {result : ℕ} (hle : result ≤ top) :
    let v := digitsValue base result (cs.takeWhile (isDigitOf base))
    let out := strtoLoop base (top / base) top cs result false
    out.2.1 = decide (top < v) ∧ (v ≤ top → out.1 = v) := by
  induction cs generalizing result with
  | nil => exact ⟨(decide_eq_false (Nat.not_lt.mpr hle)).symm, fun _ => rfl⟩
  | cons c cs ih =>
    intro v out
    by_cases h : isDigitOf base c = true
    · have hv : v = digitsValue base (base * result + (strtoDigit c).getD 0)
          (cs.takeWhile (isDigitOf base)) := by
        simp only [v, List.takeWhile_cons, h, if_true, digitsValue_cons]
      have hmono := le_digitsValue hbase (base * result + (strtoDigit c).getD 0)
        (cs.takeWhile (isDigitOf base))
      rw [← hv] at hmono
      -- once it is set, `overflow` stays, and the value is too large already
      have hover : ∀ res, top < base * result + (strtoDigit c).getD 0 →
          out = strtoLoop base (top / base) top cs res true →
          out.2.1 = decide (top < v) ∧ (v ≤ top → out.1 = v) := by
        intro res hlt hout
        have hlt' : top < v := Nat.lt_of_lt_of_le hlt hmono
        rw [hout, strtoLoop_overflowed]
        exact ⟨(decide_eq_true hlt').symm, fun hle => absurd hle (Nat.not_le.mpr hlt')⟩
      have hout := strtoLoop_cons base (top / base) top c cs result false
      rw [if_pos h, Bool.false_or] at hout
      by_cases hlimit : result > top / base
      · rw [if_pos (decide_eq_true hlimit)] at hout
        refine hover _ ?_ hout
        have := (Nat.div_lt_iff_lt_mul hbase).mp hlimit
        rw [Nat.mul_comm] at this
        omega
      · rw [if_neg (by simpa using hlimit)] at hout
        have hmul : base * result ≤ top := by
          rw [Nat.mul_comm]
          exact (Nat.le_div_iff_mul_le hbase).mp (Nat.not_lt.mp hlimit)
        by_cases hdigit : (strtoDigit c).getD 0 > top - base * result
        · rw [if_pos hdigit] at hout
          exact hover _ (by omega) hout
        · rw [if_neg hdigit] at hout
          have hrec := @ih (base * result + (strtoDigit c).getD 0) (by omega)
          rw [hv, show out = _ from hout]
          exact hrec
    · have hv : v = result := by simp [v, h]
      have hout : out = (result, false, c :: cs) := by simp [out, strtoLoop_cons, h]
      rw [hv, hout]
      exact ⟨(decide_eq_false (Nat.not_lt.mpr hle)).symm, fun _ => rfl⟩

/-- The value is the one of `strtoul` without an end pointer. -/
theorem strtoul_eq_fst (s : CStr) (base : ℕ) : strtoul s base = (strtoulEnd s base).1 := by
  have hloop : ∀ (b limit : ℕ) (cs : CStr) (result : ℕ) (overflow : Bool),
      strtoulLoop b limit cs result overflow =
        ((strtoLoop b limit ulongMax cs result overflow).1,
          (strtoLoop b limit ulongMax cs result overflow).2.1) := by
    intro b limit cs
    induction cs with
    | nil => exact fun _ _ => rfl
    | cons c cs ih =>
      intro result overflow
      have hdigit : strtoDigit c = if isdigit c then some (c.toNat - 48)
        else if isalpha c then some (c.toNat - (if isupper c then 65 else 97) + 10)
        else none := rfl
      rw [strtoulLoop, strtoLoop, ← hdigit]
      cases strtoDigit c with
      | none => rfl
      | some digit =>
        dsimp only
        split
        · rfl
        · split
          · exact ih ..
          · split <;> exact ih ..
  have hsign : strtoSign s = ((s.dropWhile isspace).head? == some 45,
      if (s.dropWhile isspace).head? == some 43 || (s.dropWhile isspace).head? == some 45 then
        (s.dropWhile isspace).drop 1 else s.dropWhile isspace) := by
    unfold strtoSign
    split
    · rename_i h
      simp [h]
    · rename_i h
      simp [h]
    · rename_i hplus hminus
      cases h : s.dropWhile isspace with
      | nil => rfl
      | cons c cs =>
        have h43 : c ≠ 43 := fun hc => hplus cs (by rw [h, hc])
        have h45 : c ≠ 45 := fun hc => hminus cs (by rw [h, hc])
        simp [h43, h45]
  simp only [strtoul, strtoulEnd, hloop, hsign]

/-! ## §3 What the standard says -/

/-- The constants for a base, with the base that their digits have.  Base 0 takes the constants of
    the language: decimal ones, octal ones with a leading `0`, hexadecimal ones with a prefix; base
    16 may have the prefix as well. -/
inductive Constant (base : ℕ) : CStr → ℕ → CStr → Prop where
  | plain {ds : CStr} : base ≠ 0 → ds ≠ [] → (∀ c ∈ ds, isDigitOf base c = true) →
      Constant base ds base ds
  | hex {x : UInt8} {ds : CStr} : base = 0 ∨ base = 16 → x = 120 ∨ x = 88 → ds ≠ [] →
      (∀ c ∈ ds, isDigitOf 16 c = true) → Constant base (48 :: x :: ds) 16 ds
  | octal {ds : CStr} : base = 0 → (∀ c ∈ ds, isDigitOf 8 c = true) →
      Constant base (48 :: ds) 8 (48 :: ds)
  | decimal {c : UInt8} {ds : CStr} : base = 0 → c ≠ 48 → (∀ d ∈ c :: ds, isDigitOf 10 d = true) →
      Constant base (c :: ds) 10 (c :: ds)

/-- The expected form: a constant, with or without a sign. -/
inductive Expected (base : ℕ) : CStr → Bool → ℕ → CStr → Prop where
  | unsigned {text : CStr} {r : ℕ} {ds : CStr} : Constant base text r ds →
      Expected base text false r ds
  | plus {text : CStr} {r : ℕ} {ds : CStr} : Constant base text r ds →
      Expected base (43 :: text) false r ds
  | minus {text : CStr} {r : ℕ} {ds : CStr} : Constant base text r ds →
      Expected base (45 :: text) true r ds

/-- The value `v` and the end `tail` are those that the standard gives for a string: behind the
    white space the longest initial part that has the expected form is converted; if there is none,
    the value is 0 and the end is the whole string.  `conv` gives the value of a sign and a number
    in the type of the result. -/
def Standard {V : Type} (conv : Bool → ℕ → V) (base : ℕ) (nptr : CStr) (v : V) (tail : CStr) :
    Prop :=
  (∃ subject negative r ds, nptr.dropWhile isspace = subject ++ tail ∧
      Expected base subject negative r ds ∧ v = conv negative (digitsValue r 0 ds) ∧
      ∀ subject' negative' r' ds', subject' <+: nptr.dropWhile isspace →
        Expected base subject' negative' r' ds' → subject'.length ≤ subject.length) ∨
    (∀ subject negative r ds, subject <+: nptr.dropWhile isspace →
      ¬ Expected base subject negative r ds) ∧ v = conv false 0 ∧ tail = nptr

/-- `unsigned long`: too large a number gives `ULONG_MAX`, and the sign negates the result. -/
def ulongConv (negative : Bool) (n : ℕ) : ℕ :=
  if ulongMax < n then ulongMax else if negative then (2 ^ 32 - n) % 2 ^ 32 else n

/-- `long`: the number with its sign, kept between `LONG_MIN` and `LONG_MAX`. -/
def longConv (negative : Bool) (n : ℕ) : ℤ :=
  max (-2 ^ 31) (min (2 ^ 31 - 1) (if negative then -n else n))

theorem isDigitOf_zero (hbase : 0 < base) : isDigitOf base 48 = true := by
  have h : strtoDigit 48 = some 0 := by decide
  simp [isDigitOf, h, hbase]

/-- A sign is no digit. -/
theorem isDigitOf_sign (hc : c = 43 ∨ c = 45) : isDigitOf base c = false := by
  have h : strtoDigit c = none := by
    rcases hc with rfl | rfl <;> decide
  simp [isDigitOf, h]

/-- A constant is not empty and begins with no sign. -/
theorem Constant.exists_head (h : Constant base t r ds) :
    ∃ c u, t = c :: u ∧ c ≠ 43 ∧ c ≠ 45 := by
  have hsign : ∀ {b c}, isDigitOf b c = true → c ≠ 43 ∧ c ≠ 45 := by
    intro b c hdigit
    constructor
    · rintro rfl
      rw [isDigitOf_sign (.inl rfl)] at hdigit
      exact Bool.false_ne_true hdigit
    · rintro rfl
      rw [isDigitOf_sign (.inr rfl)] at hdigit
      exact Bool.false_ne_true hdigit
  cases h with
  | plain _ hne hds =>
    obtain ⟨c, u, rfl⟩ := List.exists_cons_of_ne_nil hne
    exact ⟨c, u, rfl, hsign (hds c (List.mem_cons_self ..))⟩
  | hex => exact ⟨48, _, rfl, by decide, by decide⟩
  | octal => exact ⟨48, _, rfl, by decide, by decide⟩
  | decimal _ _ hds => exact ⟨_, _, rfl, hsign (hds _ (List.mem_cons_self ..))⟩

theorem not_isDigitOf_x {x : UInt8} (hx : x = 120 ∨ x = 88) (hbase : base ≤ 16) :
    isDigitOf base x = false := by
  have h : strtoDigit x = some 33 := by
    rcases hx with rfl | rfl <;> decide
  simp only [isDigitOf, h, Option.any_some, decide_eq_false_iff_not]
  omega

/-- A text is a constant in one way only. -/
theorem Constant.unique {r' : ℕ} {ds' : CStr} (h : Constant base t r ds)
    (h' : Constant base t r' ds') : r = r' ∧ ds = ds' := by
  -- the only texts that two rules could claim begin with `0x`, and `x` is no hexadecimal digit
  have hx : ∀ {b x us}, x = 120 ∨ x = 88 → b ≤ 16 → ¬ ∀ c ∈ (48 : UInt8) :: x :: us,
      isDigitOf b c = true := by
    intro b x us hx hb hall
    have := hall x (by simp)
    rw [not_isDigitOf_x hx hb] at this
    exact Bool.false_ne_true this
  cases h with
  | plain hb hne hds =>
    cases h' with
    | plain => exact ⟨rfl, rfl⟩
    | hex hb' hx' => exact absurd hds (hx hx' (by omega))
    | octal hb' => exact absurd hb' hb
    | decimal hb' => exact absurd hb' hb
  | hex hb hx₁ hne hds =>
    cases h' with
    | plain hb' _ hds' => exact absurd hds' (hx hx₁ (by omega))
    | hex => exact ⟨rfl, rfl⟩
    | octal _ hds' => exact absurd (fun c hc => (List.mem_cons.mp hc).elim
        (fun h => h ▸ isDigitOf_zero (by omega)) (hds' c)) (hx (b := 8) hx₁ (by omega))
    | decimal _ hne' => exact absurd rfl hne'
  | octal hb hds =>
    cases h' with
    | plain hb' => exact absurd hb hb'
    | hex _ hx₁ => exact absurd (fun c hc => (List.mem_cons.mp hc).elim
        (fun h => h ▸ isDigitOf_zero (by omega)) (hds c)) (hx (b := 8) hx₁ (by omega))
    | octal => exact ⟨rfl, rfl⟩
    | decimal _ hne' => exact absurd rfl hne'
  | decimal hb hne hds =>
    cases h' with
    | plain hb' => exact absurd hb hb'
    | hex => exact absurd rfl hne
    | octal => exact absurd rfl hne
    | decimal => exact ⟨rfl, rfl⟩

theorem Expected.unique {n n' : Bool} {r' : ℕ} {ds' : CStr} (h : Expected base t n r ds)
    (h' : Expected base t n' r' ds') : n = n' ∧ r = r' ∧ ds = ds' := by
  cases h with
  | unsigned h =>
    obtain ⟨c, u, rfl, hp, hm⟩ := h.exists_head
    cases h' with
    | unsigned h' => exact ⟨rfl, h.unique h'⟩
    | plus => exact absurd rfl hp
    | minus => exact absurd rfl hm
  | plus h =>
    cases h' with
    | unsigned h' =>
      obtain ⟨c, u, heq, hp, hm⟩ := h'.exists_head
      exact absurd (List.cons.inj heq).1.symm hp
    | plus h' => exact ⟨rfl, h.unique h'⟩
  | minus h =>
    cases h' with
    | unsigned h' =>
      obtain ⟨c, u, heq, hp, hm⟩ := h'.exists_head
      exact absurd (List.cons.inj heq).1.symm hm
    | minus h' => exact ⟨rfl, h.unique h'⟩

/-- The standard fixes the value and the end. -/
theorem Standard.unique {V : Type} {conv : Bool → ℕ → V} {v v' : V} {tail tail' : CStr}
    (h : Standard conv base s v tail) (h' : Standard conv base s v' tail') :
    v = v' ∧ tail = tail' := by
  rcases h with ⟨sub, n, r, ds, hs, hexp, rfl, hmax⟩ | ⟨hno, rfl, rfl⟩
  · rcases h' with ⟨sub', n', r', ds', hs', hexp', rfl, hmax'⟩ | ⟨hno', -⟩
    · have hlen : sub.length = sub'.length :=
        Nat.le_antisymm (hmax' _ _ _ _ ⟨tail, hs.symm⟩ hexp) (hmax _ _ _ _ ⟨tail', hs'.symm⟩ hexp')
      obtain ⟨rfl, rfl⟩ := List.append_inj (hs.symm.trans hs') hlen
      obtain ⟨rfl, rfl, rfl⟩ := hexp.unique hexp'
      exact ⟨rfl, rfl⟩
    · exact absurd hexp (hno' _ _ _ _ ⟨tail, hs.symm⟩)
  · rcases h' with ⟨sub', n', r', ds', hs', hexp', -⟩ | ⟨-, rfl, rfl⟩
    · exact absurd hexp' (hno _ _ _ _ ⟨tail', hs'.symm⟩)
    · exact ⟨rfl, rfl⟩

/-! ## §4 The longest constant -/

/-- A hexadecimal digit comes next. -/
def hexAt (u : CStr) : Bool := u.head?.any (isDigitOf 16)

/-- The longest constant at the front of `t`, and what follows it. -/
structure Leading (base : ℕ) (t text : CStr) (r : ℕ) (ds tail : CStr) : Prop where
  eq : t = text ++ tail
  form : Constant base text r ds
  longest : ∀ text' r' ds', text' <+: t → Constant base text' r' ds' → text'.length ≤ text.length

theorem length_le_takeWhile {p : UInt8 → Bool} (h : u <+: t) (hall : ∀ c ∈ u, p c = true) :
    u.length ≤ (t.takeWhile p).length := by
  obtain ⟨w, rfl⟩ := h
  rw [List.takeWhile_append_of_pos hall, List.length_append]
  exact Nat.le_add_right ..

theorem takeWhile_ne_nil_iff {p : UInt8 → Bool} :
    t.takeWhile p ≠ [] ↔ t.head?.any p = true := by
  cases t with
  | nil => simp
  | cons c t =>
    by_cases h : p c = true
    · simp [h]
    · simp [h]

theorem forall_mem_takeWhile {p : UInt8 → Bool} (t : CStr) : ∀ c ∈ t.takeWhile p, p c = true :=
  fun _ hc => List.mem_takeWhile_imp hc

/-- A constant behind a prefix begins with a hexadecimal digit. -/
theorem hexAt_of_begins {x y : UInt8} (hne : ds ≠ [])
    (hds : ∀ c ∈ ds, isDigitOf 16 c = true) (h : 48 :: x :: ds <+: 48 :: y :: u) :
    x = y ∧ hexAt u = true := by
  rw [List.cons_prefix_cons, List.cons_prefix_cons] at h
  obtain ⟨-, rfl, w, rfl⟩ := h
  obtain ⟨c, cs, rfl⟩ := List.exists_cons_of_ne_nil hne
  exact ⟨rfl, hds c (List.mem_cons_self ..)⟩

/-- With no hexadecimal constant in front, the digits of the base are the longest one. -/
theorem leading_plain (hbase : base ≠ 0)
    (hx : base = 16 → ∀ x u, t = 48 :: x :: u → x = 120 ∨ x = 88 → hexAt u = false)
    (hne : t.takeWhile (isDigitOf base) ≠ []) :
    Leading base t (t.takeWhile (isDigitOf base)) base (t.takeWhile (isDigitOf base))
      (t.dropWhile (isDigitOf base)) where
  eq := (List.takeWhile_append_dropWhile ..).symm
  form := .plain hbase hne (forall_mem_takeWhile t)
  longest := by
    intro text r ds hprefix h
    cases h with
    | plain _ _ hds => exact length_le_takeWhile hprefix hds
    | hex hb hx₁ hne' hds =>
      rename_i x
      obtain ⟨w, rfl⟩ := id hprefix
      have hno := hx (hb.resolve_left hbase) x (ds ++ w) rfl hx₁
      have hyes : hexAt (ds ++ w) = true := (hexAt_of_begins hne' hds hprefix).2
      exact absurd (hno.symm.trans hyes) Bool.false_ne_true
    | octal hb => exact absurd hb hbase
    | decimal hb => exact absurd hb hbase

theorem leading_hex {x : UInt8} (hbase : base = 0 ∨ base = 16) (hx : x = 120 ∨ x = 88)
    (hu : hexAt u = true) :
    Leading base (48 :: x :: u) (48 :: x :: u.takeWhile (isDigitOf 16)) 16
      (u.takeWhile (isDigitOf 16)) (u.dropWhile (isDigitOf 16)) where
  eq := by simp
  form := .hex hbase hx (takeWhile_ne_nil_iff.mpr hu) (forall_mem_takeWhile u)
  longest := by
    intro text r ds hprefix h
    -- without the prefix the constant ends before the `x`
    have hshort : ∀ {b : ℕ}, b ≤ 16 → (∀ c ∈ text, isDigitOf b c = true) → text.length ≤ 1 := by
      intro b hb hall
      have hle := length_le_takeWhile hprefix hall
      rw [List.takeWhile_cons] at hle
      split at hle
      · simpa [not_isDigitOf_x hx hb] using hle
      · simp at hle
        simp [hle]
    cases h with
    | plain _ _ hds =>
      have := hshort (by omega) hds
      simp only [List.length_cons]
      omega
    | hex _ _ _ hds =>
      rw [List.cons_prefix_cons, List.cons_prefix_cons] at hprefix
      have := length_le_takeWhile hprefix.2.2 hds
      simpa using this
    | octal _ hds =>
      have := hshort (b := 8) (by omega)
        (List.forall_mem_cons.mpr ⟨isDigitOf_zero (by omega), hds⟩)
      simp only [List.length_cons] at this ⊢
      omega
    | decimal _ hne =>
      rw [List.cons_prefix_cons] at hprefix
      exact absurd hprefix.1 hne

theorem leading_octal (hx : ∀ x u, cs = x :: u → x = 120 ∨ x = 88 → hexAt u = false) :
    Leading 0 (48 :: cs) (48 :: cs.takeWhile (isDigitOf 8)) 8
      (48 :: cs.takeWhile (isDigitOf 8)) (cs.dropWhile (isDigitOf 8)) where
  eq := by simp
  form := .octal rfl (forall_mem_takeWhile cs)
  longest := by
    intro text r ds hprefix h
    cases h with
    | plain hb => exact absurd rfl hb
    | hex hb hx₁ hne hds =>
      rename_i x
      obtain ⟨w, hw⟩ := id hprefix
      obtain rfl : x :: (ds ++ w) = cs := (List.cons.inj hw).2
      have hno := hx x (ds ++ w) rfl hx₁
      have hyes : hexAt (ds ++ w) = true := (hexAt_of_begins hne hds hprefix).2
      exact absurd (hno.symm.trans hyes) Bool.false_ne_true
    | octal _ hds =>
      rw [List.cons_prefix_cons] at hprefix
      exact Nat.succ_le_succ (length_le_takeWhile hprefix.2 hds)
    | decimal _ hne =>
      rw [List.cons_prefix_cons] at hprefix
      exact absurd hprefix.1 hne

theorem leading_decimal (hhead : t.head? ≠ some 48) (hne : t.takeWhile (isDigitOf 10) ≠ []) :
    Leading 0 t (t.takeWhile (isDigitOf 10)) 10 (t.takeWhile (isDigitOf 10))
      (t.dropWhile (isDigitOf 10)) where
  eq := (List.takeWhile_append_dropWhile ..).symm
  form := by
    obtain ⟨c, u, hc⟩ := List.exists_cons_of_ne_nil hne
    have hall := forall_mem_takeWhile (p := isDigitOf 10) t
    have hprefix := List.takeWhile_prefix (l := t) (isDigitOf 10)
    rw [hc] at hall hprefix ⊢
    refine .decimal rfl ?_ hall
    rintro rfl
    obtain ⟨w, rfl⟩ := hprefix
    exact hhead rfl
  longest := by
    intro text r ds hprefix h
    have hzero : ∀ {w}, ¬ 48 :: w <+: t := by
      rintro w ⟨w', rfl⟩
      exact hhead rfl
    cases h with
    | plain hb => exact absurd rfl hb
    | hex => exact absurd hprefix hzero
    | octal => exact absurd hprefix hzero
    | decimal _ _ hds => exact length_le_takeWhile hprefix hds

/-- Without a digit in front there is no constant. -/
theorem not_constant (ht : t.head?.any (isDigitOf (if base = 0 then 10 else base)) = false) :
    ∀ text r ds, text <+: t → ¬ Constant base text r ds := by
  intro text r ds hprefix h
  have hhead : ∀ c w, text = c :: w →
      isDigitOf (if base = 0 then 10 else base) c = true → False := by
    rintro c w rfl hc
    obtain ⟨w', rfl⟩ := hprefix
    simp [hc] at ht
  cases h with
  | plain hb hne hds =>
    obtain ⟨c, w, rfl⟩ := List.exists_cons_of_ne_nil hne
    exact hhead c w rfl (by rw [if_neg hb]; exact hds c (List.mem_cons_self ..))
  | hex hb => exact hhead 48 _ rfl (isDigitOf_zero (by split <;> omega))
  | octal hb => exact hhead 48 _ rfl (isDigitOf_zero (by split <;> omega))
  | decimal hb _ hds => exact hhead _ _ rfl (by rw [if_pos hb]; exact hds _ (List.mem_cons_self ..))

/-! ## §5 The sign -/

/-- Behind the blanks there is at most a sign before the place where the digits are looked for,
    and the expected forms at the front are the constants there, with that sign. -/
theorem expected_iff (base : ℕ) {n : Bool} (h : strtoSign s = (n, t)) :
    ∃ sign, s.dropWhile isspace = sign ++ t ∧ ∀ subject n' r ds,
      subject <+: s.dropWhile isspace → (Expected base subject n' r ds ↔
        ∃ text, subject = sign ++ text ∧ n' = n ∧ Constant base text r ds) := by
  unfold strtoSign at h
  split at h
  · rename_i cs hcs
    obtain ⟨rfl, rfl⟩ := Prod.mk.inj h
    refine ⟨[43], hcs, fun subject n' r ds hprefix => ⟨fun hexp => ?_, ?_⟩⟩
    · rw [hcs] at hprefix
      cases hexp with
      | unsigned hc =>
        obtain ⟨c, u, rfl, hp, -⟩ := hc.exists_head
        exact absurd (List.cons_prefix_cons.mp hprefix).1 hp
      | plus hc => exact ⟨_, rfl, rfl, hc⟩
      | minus => exact absurd (List.cons_prefix_cons.mp hprefix).1 (by decide)
    · rintro ⟨text, rfl, rfl, hc⟩
      exact .plus hc
  · rename_i cs hcs
    obtain ⟨rfl, rfl⟩ := Prod.mk.inj h
    refine ⟨[45], hcs, fun subject n' r ds hprefix => ⟨fun hexp => ?_, ?_⟩⟩
    · rw [hcs] at hprefix
      cases hexp with
      | unsigned hc =>
        obtain ⟨c, u, rfl, -, hm⟩ := hc.exists_head
        exact absurd (List.cons_prefix_cons.mp hprefix).1 hm
      | plus => exact absurd (List.cons_prefix_cons.mp hprefix).1 (by decide)
      | minus hc => exact ⟨_, rfl, rfl, hc⟩
    · rintro ⟨text, rfl, rfl, hc⟩
      exact .minus hc
  · rename_i hplus hminus
    obtain ⟨rfl, rfl⟩ := Prod.mk.inj h
    refine ⟨[], rfl, fun subject n' r ds hprefix => ⟨fun hexp => ?_, ?_⟩⟩
    · obtain ⟨w, hw⟩ := hprefix
      cases hexp with
      | unsigned hc => exact ⟨_, rfl, rfl, hc⟩
      | plus => exact absurd hw.symm (hplus _)
      | minus => exact absurd hw.symm (hminus _)
    · rintro ⟨text, rfl, rfl, hc⟩
      exact .unsigned hc

theorem standard_of_leading {V : Type} (conv : Bool → ℕ → V) {n : Bool} {text tail : CStr}
    (h : strtoSign s = (n, t)) (hlead : Leading base t text r ds tail) :
    Standard conv base s (conv n (digitsValue r 0 ds)) tail := by
  obtain ⟨sign, hs, hexp⟩ := expected_iff base h
  have heq : s.dropWhile isspace = sign ++ text ++ tail := by
    rw [hs, hlead.eq, List.append_assoc]
  refine .inl ⟨sign ++ text, n, r, ds, heq,
    (hexp _ _ _ _ ⟨tail, heq.symm⟩).mpr ⟨text, rfl, rfl, hlead.form⟩, rfl, ?_⟩
  intro subject' n' r' ds' hprefix h'
  obtain ⟨text', rfl, rfl, hconst⟩ := (hexp _ _ _ _ hprefix).mp h'
  rw [hs, List.prefix_append_right_inj] at hprefix
  have := hlead.longest _ _ _ hprefix hconst
  simpa using this

theorem standard_of_none {V : Type} (conv : Bool → ℕ → V) {n : Bool} (h : strtoSign s = (n, t))
    (hno : ∀ text r ds, text <+: t → ¬ Constant base text r ds) :
    Standard conv base s (conv false 0) s := by
  obtain ⟨sign, hs, hexp⟩ := expected_iff base h
  refine .inr ⟨fun subject n' r ds hprefix h' => ?_, rfl, rfl⟩
  obtain ⟨text, rfl, rfl, hconst⟩ := (hexp _ _ _ _ hprefix).mp h'
  rw [hs, List.prefix_append_right_inj] at hprefix
  exact hno _ _ _ hprefix hconst

/-! ## §6 The prefix -/

theorem strtoulBase_no_zero (h : t.head? ≠ some 48) :
    strtoulBase t base = (t, if base = 0 then 10 else base) := by
  cases t with
  | nil => by_cases h0 : base = 0 <;> by_cases h16 : base = 16 <;> simp [strtoulBase, h0, h16]
  | cons c t =>
    have hc : c ≠ 48 := fun hc => h (congrArg some hc)
    by_cases h0 : base = 0 <;> by_cases h16 : base = 16 <;> simp [strtoulBase, h0, h16, hc]

theorem strtoulBase_other (h0 : base ≠ 0) (h16 : base ≠ 16) : strtoulBase t base = (t, base) := by
  simp [strtoulBase, h0, h16]

theorem strtoulBase_x {x : UInt8} (hbase : base = 0 ∨ base = 16) (hx : x = 120 ∨ x = 88)
    (hno : ¬ (base = 16 ∧ x = 88)) : strtoulBase (48 :: x :: u) base = (u, 16) := by
  rcases hbase with rfl | rfl
  · rcases hx with rfl | rfl <;> rfl
  · rcases hx with rfl | rfl
    · rfl
    · exact absurd ⟨rfl, rfl⟩ hno

/-- In base 16 an `X` is not taken: `c` is the outcome of a comparison there, never `'X'`. -/
theorem strtoulBase_big_x : strtoulBase (48 :: 88 :: u) 16 = (88 :: u, 16) := rfl

theorem strtoulBase_zero (hbase : base = 0 ∨ base = 16)
    (hcs : ∀ x u, cs = x :: u → ¬ (x = 120 ∨ x = 88)) :
    strtoulBase (48 :: cs) base = (cs, if base = 0 then 8 else 16) := by
  cases cs with
  | nil => rcases hbase with rfl | rfl <;> rfl
  | cons c cs =>
    obtain ⟨h120, h88⟩ := not_or.mp (hcs c cs rfl)
    rcases hbase with rfl | rfl <;> simp [strtoulBase, h120, h88]

theorem strtoulBase_pos (hbase : base = 0 ∨ 2 ≤ base) (t : CStr) : 0 < (strtoulBase t base).2 := by
  unfold strtoulBase
  split
  · split <;> simp
  · split
    · split <;> simp
    · simp only
      omega

/-- What both routines return: the sign and the value of the digits, and the end. -/
def scanned {V : Type} (conv : Bool → ℕ → V) (base : ℕ) (s : CStr) : V × CStr :=
  let (t, r) := strtoulBase (strtoSign s).2 base
  (conv (strtoSign s).1 (digitsValue r 0 (t.takeWhile (isDigitOf r))), t.dropWhile (isDigitOf r))

theorem strtoulEnd_eq (hbase : base = 0 ∨ 2 ≤ base) (s : CStr) :
    strtoulEnd s base = scanned ulongConv base s := by
  obtain ⟨hover, hval⟩ := strtoLoop_spec (strtoulBase_pos hbase (strtoSign s).2)
    (strtoulBase (strtoSign s).2 base).1 (Nat.zero_le ulongMax)
  have hend := strtoLoop_end (strtoulBase (strtoSign s).2 base).2
    (ulongMax / (strtoulBase (strtoSign s).2 base).2) ulongMax
    (strtoulBase (strtoSign s).2 base).1 0 false
  simp only [strtoulEnd, scanned, ulongConv, hend, hover, decide_eq_true_eq]
  split
  · rfl
  · rename_i hle
    rw [hval (Nat.not_lt.mp hle)]

theorem strtolEnd_eq (hbase : base = 0 ∨ 2 ≤ base) (s : CStr) :
    strtolEnd s base = scanned longConv base s := by
  obtain ⟨hover, hval⟩ := strtoLoop_spec (strtoulBase_pos hbase (strtoSign s).2)
    (strtoulBase (strtoSign s).2 base).1 (Nat.zero_le longMax)
  have hend := strtoLoop_end (strtoulBase (strtoSign s).2 base).2
    (longMax / (strtoulBase (strtoSign s).2 base).2) longMax
    (strtoulBase (strtoSign s).2 base).1 0 false
  simp only [strtolEnd, scanned, longConv, hend, hover, decide_eq_true_eq]
  split
  · rename_i hlt
    simp only [longMax] at hlt ⊢
    cases (strtoSign s).1 <;> simp <;> omega
  · rename_i hle
    have hle' := Nat.not_lt.mp hle
    rw [hval hle']
    simp only [longMax] at hle'
    cases (strtoSign s).1 <;> simp <;> omega

/-! ## §7 When the routines follow the standard -/

/-- Something is converted, or nothing stands in front of the place where that fails; and where a
    prefix stands, a hexadecimal digit follows it, except for the `0X` that base 16 does not know,
    which no hexadecimal digit may follow. -/
def Regular (base : ℕ) (s : CStr) : Prop :=
  ((strtoSign s).2.head?.any (isDigitOf (if base = 0 then 10 else base)) = true ∨
      (strtoSign s).2 = s) ∧
    ∀ x u, (strtoSign s).2 = 48 :: x :: u → base = 0 ∨ base = 16 → x = 120 ∨ x = 88 →
      (hexAt u = true ↔ ¬ (base = 16 ∧ x = 88))

theorem Standard.iff_eq {V : Type} {conv : Bool → ℕ → V} {v v' : V} {tail tail' : CStr}
    (h : Standard conv base s v tail) : Standard conv base s v' tail' ↔ v' = v ∧ tail' = tail := by
  constructor
  · exact fun h' => h'.unique h
  · rintro ⟨rfl, rfl⟩
    exact h

theorem digitsValue_zero_cons (base : ℕ) (ds : CStr) :
    digitsValue base 0 (48 :: ds) = digitsValue base 0 ds := by
  have h : strtoDigit 48 = some 0 := by decide
  simp [h]

/-- A string with a prefix in base 0 or 16. -/
theorem scanned_x {V : Type} (conv : Bool → ℕ → V) {x : UInt8} {u : CStr}
    (ht : (strtoSign s).2 = 48 :: x :: u) (hbase : base = 0 ∨ base = 16)
    (hx : x = 120 ∨ x = 88) :
    Standard conv base s (scanned conv base s).1 (scanned conv base s).2 ↔
      (hexAt u = true ↔ ¬ (base = 16 ∧ x = 88)) := by
  have hsign : strtoSign s = ((strtoSign s).1, 48 :: x :: u) := by rw [← ht]
  have hnox : isDigitOf 16 x = false := not_isDigitOf_x hx (Nat.le_refl _)
  have hnox8 : isDigitOf 8 x = false := not_isDigitOf_x hx (by omega)
  have hzero16 : isDigitOf 16 48 = true := isDigitOf_zero (by omega)
  by_cases hu : hexAt u = true
  · have hstd := standard_of_leading conv hsign (leading_hex hbase hx hu)
    rw [hstd.iff_eq]
    by_cases hbig : base = 16 ∧ x = 88
    · -- the digits are there and the code stops before the `X`
      refine iff_of_false ?_ (fun h => h.mp hu hbig)
      obtain ⟨rfl, rfl⟩ := hbig
      rintro ⟨-, htail⟩
      have hlen := congrArg List.length htail
      simp only [scanned, ht, strtoulBase_big_x] at hlen
      rw [List.dropWhile_cons_of_neg (by simp [hnox]), List.length_cons] at hlen
      have := List.length_dropWhile_le (isDigitOf 16) u
      omega
    · refine iff_of_true ?_ ⟨fun _ => hbig, fun _ => hu⟩
      simp [scanned, ht, strtoulBase_x hbase hx hbig]
  · have htake : u.takeWhile (isDigitOf 16) = [] := by
      by_contra hne
      exact hu (takeWhile_ne_nil_iff.mp hne)
    have hdrop : u.dropWhile (isDigitOf 16) = u := by
      conv_rhs => rw [← List.takeWhile_append_dropWhile (p := isDigitOf 16) (l := u), htake]
      rfl
    -- the constant is the `0` alone
    have hstd : Standard conv base s (conv (strtoSign s).1 0) (x :: u) := by
      rcases hbase with rfl | rfl
      · have hlead : Leading 0 (48 :: x :: u) _ _ _ _ := leading_octal (by
          rintro x' u' heq -
          obtain ⟨-, rfl⟩ := List.cons.inj heq
          exact Bool.eq_false_iff.mpr hu)
        have h := standard_of_leading conv hsign hlead
        rw [List.takeWhile_cons_of_neg (by simp [hnox8]),
          List.dropWhile_cons_of_neg (by simp [hnox8]), digitsValue_zero_cons] at h
        exact h
      · have hlead : Leading 16 (48 :: x :: u) _ _ _ _ := leading_plain (by omega) (by
          rintro - x' u' heq -
          obtain ⟨-, rfl⟩ := List.cons.inj (List.cons.inj heq).2
          exact Bool.eq_false_iff.mpr hu) (by simp [hzero16])
        have h := standard_of_leading conv hsign hlead
        rw [List.takeWhile_cons_of_pos hzero16, List.takeWhile_cons_of_neg (by simp [hnox]),
          List.dropWhile_cons_of_pos hzero16, List.dropWhile_cons_of_neg (by simp [hnox]),
          digitsValue_zero_cons] at h
        exact h
    rw [hstd.iff_eq]
    by_cases hbig : base = 16 ∧ x = 88
    · refine iff_of_true ?_ ⟨fun h => absurd h hu, fun h => absurd hbig h⟩
      obtain ⟨rfl, rfl⟩ := hbig
      simp [scanned, ht, strtoulBase_big_x, hnox]
    · refine iff_of_false ?_ (fun h => hu (h.mpr hbig))
      rintro ⟨-, htail⟩
      have hlen := congrArg List.length htail
      simp [scanned, ht, strtoulBase_x hbase hx hbig, hdrop] at hlen

/-- Without a digit nothing is converted; the blanks and the sign must not be there then. -/
theorem scanned_none {V : Type} (conv : Bool → ℕ → V) (hzero : conv true 0 = conv false 0)
    (hbase : base = 0 ∨ 2 ≤ base)
    (ht : (strtoSign s).2.head?.any (isDigitOf (if base = 0 then 10 else base)) = false) :
    Standard conv base s (scanned conv base s).1 (scanned conv base s).2 ↔
      (strtoSign s).2 = s := by
  have hhead : (strtoSign s).2.head? ≠ some 48 := by
    intro h
    rw [h, Option.any_some, isDigitOf_zero (by split <;> omega)] at ht
    exact Bool.false_ne_true ht.symm
  have htake : (strtoSign s).2.takeWhile (isDigitOf (if base = 0 then 10 else base)) = [] := by
    by_contra hne
    rw [takeWhile_ne_nil_iff.mp hne] at ht
    exact Bool.false_ne_true ht.symm
  have hdrop : (strtoSign s).2.dropWhile (isDigitOf (if base = 0 then 10 else base)) =
      (strtoSign s).2 := by
    conv_rhs => rw [← List.takeWhile_append_dropWhile
      (p := isDigitOf (if base = 0 then 10 else base)) (l := (strtoSign s).2), htake]
    rfl
  have hstd : Standard conv base s (conv false 0) s :=
    standard_of_none conv (t := (strtoSign s).2) rfl (not_constant ht)
  rw [hstd.iff_eq]
  simp only [scanned, strtoulBase_no_zero hhead, htake, hdrop, digitsValue_nil]
  refine and_iff_right ?_
  cases (strtoSign s).1
  · rfl
  · exact hzero

/-- With a digit in front and no prefix the routines follow the standard. -/
theorem scanned_plain {V : Type} (conv : Bool → ℕ → V) (hbase : base = 0 ∨ 2 ≤ base)
    (ht : (strtoSign s).2.head?.any (isDigitOf (if base = 0 then 10 else base)) = true)
    (hx : base = 0 ∨ base = 16 → ∀ x u, (strtoSign s).2 = 48 :: x :: u → ¬ (x = 120 ∨ x = 88)) :
    Standard conv base s (scanned conv base s).1 (scanned conv base s).2 := by
  have hne := takeWhile_ne_nil_iff.mpr ht
  by_cases hhead : (strtoSign s).2.head? = some 48 ∧ (base = 0 ∨ base = 16)
  · -- a leading `0` that is taken before the base is known
    obtain ⟨hzero, hb⟩ := hhead
    obtain ⟨cs, hcs⟩ : ∃ cs, (strtoSign s).2 = 48 :: cs := by
      cases h : (strtoSign s).2 with
      | nil => simp [h] at hzero
      | cons c cs =>
        rw [h, List.head?_cons, Option.some.injEq] at hzero
        exact ⟨cs, by rw [hzero]⟩
    have hnox : ∀ x u, cs = x :: u → ¬ (x = 120 ∨ x = 88) := by
      rintro x u rfl
      exact hx hb x u hcs
    have hsign : strtoSign s = ((strtoSign s).1, 48 :: cs) := by rw [← hcs]
    simp only [scanned, hcs, strtoulBase_zero hb hnox]
    rcases hb with rfl | rfl
    · have h := standard_of_leading conv hsign
        (leading_octal fun x u heq h => absurd h (hnox x u heq))
      rwa [digitsValue_zero_cons] at h
    · have hzero16 : isDigitOf 16 48 = true := isDigitOf_zero (by omega)
      have hlead : Leading 16 (48 :: cs) _ _ _ _ := leading_plain (by omega)
        (fun _ x u heq h => absurd h (hnox x u (List.cons.inj heq).2)) (by simp [hzero16])
      have h := standard_of_leading conv hsign hlead
      rw [List.takeWhile_cons_of_pos hzero16, List.dropWhile_cons_of_pos hzero16,
        digitsValue_zero_cons] at h
      exact h
  · have hscan : strtoulBase (strtoSign s).2 base =
        ((strtoSign s).2, if base = 0 then 10 else base) := by
      by_cases hb : base = 0 ∨ base = 16
      · exact strtoulBase_no_zero fun h => hhead ⟨h, hb⟩
      · obtain ⟨h0, h16⟩ := not_or.mp hb
        rw [strtoulBase_other h0 h16, if_neg h0]
    simp only [scanned, hscan]
    by_cases h0 : base = 0
    · subst h0
      exact standard_of_leading conv rfl
        (leading_decimal (fun h => hhead ⟨h, .inl rfl⟩) hne)
    · rw [if_neg h0] at hne ⊢
      exact standard_of_leading conv rfl (leading_plain h0
        (fun h16 x u heq h => absurd h (hx (.inr h16) x u heq)) hne)

/-- **The scan follows the standard exactly on regular strings.** -/
theorem scanned_iff {V : Type} (conv : Bool → ℕ → V) (hzero : conv true 0 = conv false 0)
    (hbase : base = 0 ∨ 2 ≤ base) (s : CStr) :
    Standard conv base s (scanned conv base s).1 (scanned conv base s).2 ↔ Regular base s := by
  by_cases ht : (strtoSign s).2.head?.any (isDigitOf (if base = 0 then 10 else base)) = true
  · by_cases hx : ∃ x u, (strtoSign s).2 = 48 :: x :: u ∧ (base = 0 ∨ base = 16) ∧
        (x = 120 ∨ x = 88)
    · obtain ⟨x, u, heq, hb, hx⟩ := hx
      rw [scanned_x conv heq hb hx]
      constructor
      · intro h
        refine ⟨.inl ht, fun x' u' heq' _ _ => ?_⟩
        obtain ⟨rfl, rfl⟩ := List.cons.inj (List.cons.inj (heq.symm.trans heq')).2
        exact h
      · exact fun h => h.2 x u heq hb hx
    · refine iff_of_true (scanned_plain conv hbase ht ?_) ⟨.inl ht, ?_⟩
      · exact fun hb x u heq h => hx ⟨x, u, heq, hb, h⟩
      · exact fun x u heq hb h => absurd ⟨x, u, heq, hb, h⟩ hx
  · rw [Bool.not_eq_true] at ht
    rw [scanned_none conv hzero hbase ht]
    constructor
    · refine fun h => ⟨.inr h, fun x u heq _ _ => ?_⟩
      rw [heq, List.head?_cons, Option.any_some, isDigitOf_zero (by split <;> omega)] at ht
      exact absurd ht.symm Bool.false_ne_true
    · intro h
      exact h.1.resolve_left (by simp [ht])

/-- **When `strtoul` and `strtol` do what the standard says**: on the regular strings, and on no
    others. -/
theorem strto_exact (base : ℕ) (hbase : base = 0 ∨ 2 ≤ base ∧ base ≤ 36) (s : CStr) :
    (Standard ulongConv base s (strtoulEnd s base).1 (strtoulEnd s base).2 ↔ Regular base s) ∧
      (Standard longConv base s (strtolEnd s base).1 (strtolEnd s base).2 ↔ Regular base s) := by
  have hbase' : base = 0 ∨ 2 ≤ base := hbase.imp_right And.left
  constructor
  · rw [strtoulEnd_eq hbase']
    exact scanned_iff ulongConv rfl hbase' s
  · rw [strtolEnd_eq hbase']
    exact scanned_iff longConv rfl hbase' s

theorem strto_exact_sixteen :
    (16 = 0 ∨ 2 ≤ 16 ∧ 16 ≤ 36) ∧
      (Standard ulongConv 16 (ascii "0x1f") (strtoulEnd (ascii "0x1f") 16).1
          (strtoulEnd (ascii "0x1f") 16).2 ↔ Regular 16 (ascii "0x1f")) ∧
      (Standard longConv 16 (ascii "0x1f") (strtolEnd (ascii "0x1f") 16).1
          (strtolEnd (ascii "0x1f") 16).2 ↔ Regular 16 (ascii "0x1f")) :=
  ⟨by decide, strto_exact 16 (by decide) (ascii "0x1f")⟩

/-- `0X1f` in base 16 is 31 for the standard; `strtoul` stops before the `X` with 0. -/
theorem strtoul_big_x :
    Standard ulongConv 16 (ascii "0X1f") 31 [] ∧
      strtoulEnd (ascii "0X1f") 16 = (0, ascii "X1f") ∧
      ¬ Standard ulongConv 16 (ascii "0X1f") (strtoulEnd (ascii "0X1f") 16).1
        (strtoulEnd (ascii "0X1f") 16).2 := by
  have hstd : Standard ulongConv 16 (ascii "0X1f") 31 [] := by
    refine .inl ⟨ascii "0X1f", false, 16, ascii "1f", by decide, ?_, by decide +kernel, ?_⟩
    · exact .unsigned (.hex (.inr rfl) (.inr rfl) (by decide) (by decide +kernel))
    · exact fun _ _ _ _ hprefix _ => hprefix.length_le
  refine ⟨hstd, by decide, fun h => ?_⟩
  exact absurd (h.unique hstd).2 (by decide)

end Pmon.Libc
