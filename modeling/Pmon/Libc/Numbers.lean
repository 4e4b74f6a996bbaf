import Mathlib.Data.Nat.Digits.Defs
import Mathlib.Tactic.Ring
import Pmon.Libc.Strings

/-!
# Printing and reading numbers

`lib/libc/atob.c` prints a word with `btoa` or `llbtoa` and reads one with `atob` or `llatob`.
The reader takes a leading `0x` as a change to base 16, and in base 16 it also takes `high.low`.

## Key results

- `atobQuad_iff`: which strings are read, and as what.
- `btoaWord_base`, `btoaWord_signed`: what is printed.
- `numbers_exact`: the round trips, and what is accepted.
-/

namespace Pmon.Libc

variable {base n v : ℕ} {p : CStr} {c : UInt8}

/-! ## §1 Source -/

/-- The leading `0x`, `0t`, `0n` or `0o` that `_getbase` takes off, and the base. -/
def getbase (p : CStr) : CStr × ℕ :=
  match p with
  | 48 :: 120 :: cs => (cs, 16)
  | 48 :: 116 :: cs => (cs, 10)
  | 48 :: 110 :: cs => (cs, 10)
  | 48 :: 111 :: cs => (cs, 8)
  | cs => (cs, 10)

/-- `_atob`, in 64 bits. -/
def atobQuad (p : CStr) (base : ℕ) : Option ℕ :=
  let (p, base) := atobPrefix p base
  if base = 16 ∧ 46 ∈ p then
    let tmp := p.takeWhile (· != 46)
    let q := (p.dropWhile (· != 46)).drop 1
    if tmp.length > 19 then none
    else
      match atobPlain tmp 16 with
      | none => none
      | some v1 =>
        if 46 ∈ q then none
        else (atobPlain q 16).map fun v2 => (v1 * 65536 + v2) % 2 ^ 64
  else atobDigits base p 0

/-- `llatob`. -/
def llatob (p : CStr) (base : ℕ) : Option ℕ :=
  if base = 0 then
    let (p, base) := getbase p
    atobQuad p base
  else atobQuad p base

/-- The character for one digit. -/
def digitChar (rem : ℕ) : UInt8 :=
  if rem ≤ 9 then UInt8.ofNat (rem + 48) else UInt8.ofNat (rem - 10 + 97)

/-- The dividing loop of `btoa`: the digits, the last one first. -/
def btoaLoop (base : ℕ) : ℕ → ℕ → CStr
  | 0, _ => []
  | fuel + 1, value =>
    if value = 0 then [] else digitChar (value % base) :: btoaLoop base fuel (value / base)

/-- `btoa` and `llbtoa`, which differ in the width of the value. -/
def btoaWord {w : ℕ} (value : BitVec w) (base : ℤ) : CStr :=
  if value = 0 then [48]
  else
    let neg := base == -10 && value.msb
    let value := if neg then ~~~value + 1 else value
    let base := if base = -10 then 10 else base.toNat
    let buf := btoaLoop base w value.toNat
    (if neg then buf ++ [45] else buf).reverse

def btoa (value : BitVec 32) (base : ℤ) : CStr := btoaWord value base

def llbtoa (value : BitVec 64) (base : ℤ) : CStr := btoaWord value base

/-! ## §2 Numerals -/

/-- The digit that a character stands for. -/
def digitOf (c : UInt8) : Option ℕ :=
  if isdigit c then some (c.toNat - 48)
  else if 97 ≤ c && c ≤ 102 then some (c.toNat - 97 + 10)
  else if 65 ≤ c && c ≤ 70 then some (c.toNat - 65 + 10)
  else none

/-- All characters are digits of the base. -/
def IsNumeral (base : ℕ) (p : CStr) : Prop := ∀ c ∈ p, (digitOf c).any (· < base) = true

instance (base : ℕ) (p : CStr) : Decidable (IsNumeral base p) :=
  inferInstanceAs (Decidable (∀ c ∈ p, _))

/-- What the digits are worth, the first one the most. -/
def numeralValue (base : ℕ) (p : CStr) : ℕ :=
  Nat.ofDigits base (p.map fun c => (digitOf c).getD 0).reverse

/-- The numeral of a number: lower-case digits, without leading zeros. -/
def numeral (base n : ℕ) : CStr :=
  if n = 0 then [48] else ((Nat.digits base n).map digitChar).reverse

@[simp] theorem numeralValue_nil : numeralValue base [] = 0 := rfl

theorem numeralValue_cons (c : UInt8) (p : CStr) :
    numeralValue base (c :: p) =
      (digitOf c).getD 0 * base ^ p.length + numeralValue base p := by
  rw [numeralValue, List.map_cons, List.reverse_cons, Nat.ofDigits_append, Nat.ofDigits_singleton,
    List.length_reverse, List.length_map, numeralValue]
  ring

theorem isNumeral_cons : IsNumeral base (c :: p) ↔
    (digitOf c).any (· < base) = true ∧ IsNumeral base p := List.forall_mem_cons

/-- What is no digit is not in a numeral. -/
theorem IsNumeral.not_mem (h : IsNumeral base p) (hc : digitOf c = none) : c ∉ p := by
  intro hmem
  have hany := h c hmem
  rw [hc] at hany
  cases hany

theorem atobDigits_cons (base : ℕ) (c : UInt8) (cs : CStr) (value : ℕ) :
    atobDigits base (c :: cs) value =
      match digitOf c with
      | none => none
      | some digit =>
        if digit ≥ base then none
        else atobDigits base cs ((value * base + digit) % 2 ^ 64) := rfl

/-- **The digit loop** on a numeral. -/
theorem atobDigits_of_isNumeral (h : IsNumeral base p) (v : ℕ) :
    atobDigits base p (v % 2 ^ 64) =
      some ((v * base ^ p.length + numeralValue base p) % 2 ^ 64) := by
  induction p generalizing v with
  | nil => simp [atobDigits]
  | cons c cs ih =>
    obtain ⟨hc, hcs⟩ := isNumeral_cons.mp h
    rw [atobDigits_cons, numeralValue_cons]
    cases hd : digitOf c with
    | none => simp [hd] at hc
    | some d =>
      have hlt : d < base := by simpa [hd] using hc
      have hstep : (v % 2 ^ 64 * base + d) % 2 ^ 64 = (v * base + d) % 2 ^ 64 := by
        rw [Nat.add_mod, Nat.mod_mul_mod, ← Nat.add_mod]
      have hsum : (v * base + d) * base ^ cs.length + numeralValue base cs =
          v * base ^ (cs.length + 1) + (d * base ^ cs.length + numeralValue base cs) := by ring
      dsimp only
      rw [if_neg (Nat.not_le.mpr hlt), hstep, ih hcs, hsum]
      rfl

/-- The digit loop gives up at the first other character. -/
theorem atobDigits_of_not (h : ¬ IsNumeral base p) (v : ℕ) : atobDigits base p v = none := by
  induction p generalizing v with
  | nil => exact absurd (List.forall_mem_nil _) h
  | cons c cs ih =>
    rw [isNumeral_cons, not_and] at h
    rw [atobDigits_cons]
    cases hd : digitOf c with
    | none => rfl
    | some d =>
      dsimp only
      by_cases hlt : d < base
      · rw [if_neg (Nat.not_le.mpr hlt), ih (h (by simpa [hd] using hlt))]
      · rw [if_pos (Nat.not_lt.mp hlt)]

theorem atobDigits_iff {r : ℕ} :
    atobDigits base p 0 = some r ↔ IsNumeral base p ∧ r = numeralValue base p % 2 ^ 64 := by
  by_cases h : IsNumeral base p
  · have hread := atobDigits_of_isNumeral h 0
    rw [Nat.zero_mod, Nat.zero_mul, Nat.zero_add] at hread
    simp [hread, h, eq_comm]
  · simp [atobDigits_of_not h, h]

/-! ## §3 What is read -/

/-- The number that a string stands for: the digits of its base, or after the `0x` two
    hexadecimal numbers with a point between them. -/
inductive Denotes (base : ℕ) (p : CStr) : ℕ → Prop where
  | plain {digits : CStr} {b : ℕ} : atobPrefix p base = (digits, b) → IsNumeral b digits →
      Denotes base p (numeralValue b digits)
  | dotted {high low : CStr} : atobPrefix p base = (high ++ 46 :: low, 16) → 46 ∉ high →
      46 ∉ low → high.length ≤ 19 → IsNumeral 16 (atobPrefix high 16).1 →
      IsNumeral 16 (atobPrefix low 16).1 →
      Denotes base p (numeralValue 16 (atobPrefix high 16).1 * 65536 +
        numeralValue 16 (atobPrefix low 16).1)

theorem atobPrefix_sixteen (p : CStr) : (atobPrefix p 16).2 = 16 := by
  unfold atobPrefix
  split <;> rfl

theorem atobPlain_iff {r : ℕ} : atobPlain p 16 = some r ↔
    IsNumeral 16 (atobPrefix p 16).1 ∧ r = numeralValue 16 (atobPrefix p 16).1 % 2 ^ 64 := by
  unfold atobPlain
  dsimp only
  rw [atobPrefix_sixteen]
  exact atobDigits_iff

/-- A string with a point falls into what is before the first one and what is behind it. -/
theorem takeWhile_point {q : CStr} (h : 46 ∈ q) :
    q = q.takeWhile (· != 46) ++ 46 :: (q.dropWhile (· != 46)).drop 1 ∧
      46 ∉ q.takeWhile (· != 46) := by
  constructor
  · induction q with
    | nil => cases h
    | cons c cs ih =>
      by_cases hc : c = 46
      · simp [hc]
      · have hcs : 46 ∈ cs := (List.mem_cons.mp h).resolve_left (Ne.symm hc)
        simpa [hc] using ih hcs
  · intro hmem
    simpa using List.all_eq_true.mp List.all_takeWhile 46 hmem

theorem takeWhile_high {high : CStr} (low : CStr) (h : 46 ∉ high) :
    (high ++ 46 :: low).takeWhile (· != 46) = high ∧
      ((high ++ 46 :: low).dropWhile (· != 46)).drop 1 = low := by
  induction high with
  | nil => simp
  | cons c cs ih =>
    rw [List.mem_cons, not_or] at h
    simpa [Ne.symm h.1] using ih h.2

theorem mod_high_low (a b : ℕ) :
    (a % 2 ^ 64 * 65536 + b % 2 ^ 64) % 2 ^ 64 = (a * 65536 + b) % 2 ^ 64 := by
  omega

/-- **What `_atob` reads.** -/
theorem atobQuad_iff {r : ℕ} :
    atobQuad p base = some r ↔ ∃ n, Denotes base p n ∧ r = n % 2 ^ 64 := by
  obtain ⟨q, b, hq⟩ : ∃ q b, atobPrefix p base = (q, b) := ⟨_, _, rfl⟩
  unfold atobQuad
  rw [hq]
  dsimp only
  by_cases hpoint : b = 16 ∧ 46 ∈ q
  case neg =>
    rw [if_neg hpoint, atobDigits_iff]
    constructor
    · rintro ⟨hnum, rfl⟩
      exact ⟨_, .plain hq hnum, rfl⟩
    · rintro ⟨n, hn, rfl⟩
      cases hn with
      | plain hp hnum =>
        rw [hq, Prod.mk.injEq] at hp
        obtain ⟨rfl, rfl⟩ := hp
        exact ⟨hnum, rfl⟩
      | dotted hp _ _ _ _ _ =>
        rw [hq, Prod.mk.injEq] at hp
        exact absurd ⟨hp.2, by simp [hp.1]⟩ hpoint
  case pos =>
    rw [if_pos hpoint]
    obtain ⟨rfl, hmem⟩ := hpoint
    obtain ⟨hsplit, hhigh⟩ := takeWhile_point hmem
    generalize q.takeWhile (· != 46) = high at hsplit hhigh ⊢
    generalize (q.dropWhile (· != 46)).drop 1 = low at hsplit ⊢
    have hdenotes : ∀ n, Denotes base p n ↔ 46 ∉ low ∧ high.length ≤ 19 ∧
        IsNumeral 16 (atobPrefix high 16).1 ∧ IsNumeral 16 (atobPrefix low 16).1 ∧
        n = numeralValue 16 (atobPrefix high 16).1 * 65536 +
          numeralValue 16 (atobPrefix low 16).1 := by
      intro n
      constructor
      · intro hn
        cases hn with
        | plain hp hnum =>
          -- a point is no digit
          rw [hq, Prod.mk.injEq] at hp
          obtain ⟨rfl, rfl⟩ := hp
          exact absurd hmem (hnum.not_mem (by decide))
        | @dotted high' low' hp hhigh' hlow' hlen hnum hnum' =>
          rw [hq, Prod.mk.injEq, hsplit] at hp
          have hsame := takeWhile_high low hhigh
          rw [hp.1, (takeWhile_high low' hhigh').1, (takeWhile_high low' hhigh').2] at hsame
          obtain ⟨rfl, rfl⟩ := hsame
          exact ⟨hlow', hlen, hnum, hnum', rfl⟩
      · rintro ⟨hlow, hlen, hnum, hnum', rfl⟩
        exact .dotted (hq.trans (by rw [hsplit])) hhigh hlow hlen hnum hnum'
    by_cases hlen : high.length > 19
    · rw [if_pos hlen]
      refine iff_of_false (by simp) ?_
      rintro ⟨n, hn, -⟩
      exact absurd ((hdenotes n).mp hn).2.1 (Nat.not_le.mpr hlen)
    · rw [if_neg hlen]
      cases hv1 : atobPlain high 16 with
      | none =>
        refine iff_of_false (by simp) ?_
        rintro ⟨n, hn, -⟩
        have hread := atobPlain_iff.mpr ⟨((hdenotes n).mp hn).2.2.1, rfl⟩
        rw [hv1] at hread
        cases hread
      | some v1 =>
        obtain ⟨hnum, rfl⟩ := atobPlain_iff.mp hv1
        dsimp only
        by_cases hlow : 46 ∈ low
        · rw [if_pos hlow]
          refine iff_of_false (by simp) ?_
          rintro ⟨n, hn, -⟩
          exact ((hdenotes n).mp hn).1 hlow
        · rw [if_neg hlow, Option.map_eq_some_iff]
          constructor
          · rintro ⟨v2, hv2, rfl⟩
            obtain ⟨hnum', rfl⟩ := atobPlain_iff.mp hv2
            refine ⟨_, (hdenotes _).mpr ⟨hlow, Nat.not_lt.mp hlen, hnum, hnum', rfl⟩, ?_⟩
            exact mod_high_low _ _
          · rintro ⟨n, hn, rfl⟩
            obtain ⟨-, -, -, hnum', rfl⟩ := (hdenotes n).mp hn
            exact ⟨_, atobPlain_iff.mpr ⟨hnum', rfl⟩, mod_high_low _ _⟩

theorem atob_eq_map (p : CStr) (base : ℕ) : atob p base = (atobQuad p base).map (· % 2 ^ 32) := by
  have hdvd : (2 : ℕ) ^ 32 ∣ 2 ^ 64 := by decide
  unfold atob atobQuad
  obtain ⟨q, b⟩ := atobPrefix p base
  dsimp only
  split
  · split
    · rfl
    · cases atobPlain (q.takeWhile (· != 46)) 16 with
      | none => rfl
      | some v1 =>
        dsimp only
        split
        · rfl
        · rw [Option.map_map]
          congr 1
          funext v2
          exact (Nat.mod_mod_of_dvd _ hdvd).symm
  · rfl

/-! ## §4 What is printed -/

theorem btoaLoop_eq (hbase : 2 ≤ base) {fuel : ℕ} (hfuel : n < base ^ fuel) :
    btoaLoop base fuel n = (Nat.digits base n).map digitChar := by
  induction fuel generalizing n with
  | zero =>
    have hn : n = 0 := by simpa using hfuel
    rw [hn, Nat.digits_zero]
    rfl
  | succ fuel ih =>
    rw [btoaLoop]
    by_cases hn : n = 0
    · simp [hn]
    · have hdiv : n / base < base ^ fuel := Nat.div_lt_of_lt_mul (by rwa [pow_succ'] at hfuel)
      rw [if_neg hn, ih hdiv, Nat.digits_def' hbase (Nat.pos_of_ne_zero hn), List.map_cons]

/-- The loop comes to its end. -/
theorem toNat_lt_base_pow {w : ℕ} (hbase : 2 ≤ base) (value : BitVec w) : value.toNat < base ^ w :=
  Nat.lt_of_lt_of_le value.isLt (Nat.pow_le_pow_left hbase w)

/-- **In a base** the numeral of the value is printed. -/
theorem btoaWord_base {w : ℕ} (hbase : 2 ≤ base) (value : BitVec w) :
    btoaWord value (base : ℤ) = numeral base value.toNat := by
  have hsigned : ((base : ℤ) == -10) = false := by
    rw [beq_eq_false_iff_ne]
    omega
  have hten : ¬ (base : ℤ) = -10 := by omega
  unfold btoaWord numeral
  by_cases hzero : value = 0
  · simp [hzero]
  · have hne : value.toNat ≠ 0 := fun h => hzero (BitVec.eq_of_toNat_eq (by simpa using h))
    rw [if_neg hzero, if_neg hne]
    simp only [hsigned, Bool.false_and, Bool.false_eq_true, if_false, hten, Int.toNat_natCast]
    rw [btoaLoop_eq hbase (toNat_lt_base_pow hbase value)]

/-- The signed decimal numeral. -/
def signedDecimal (z : ℤ) : CStr :=
  if z < 0 then 45 :: numeral 10 z.natAbs else numeral 10 z.natAbs

/-- The magnitude that is printed after the sign. -/
theorem toNat_magnitude {w : ℕ} (value : BitVec w) :
    (if value.msb then ~~~value + 1 else value).toNat = value.toInt.natAbs := by
  have hlt := value.isLt
  cases hmsb : value.msb with
  | false =>
    rw [if_neg (by simp), BitVec.toInt_eq_toNat_of_msb hmsb, Int.natAbs_natCast]
  | true =>
    have hpos := BitVec.toNat_ge_of_msb_true hmsb
    have hnot : ~~~value + 1 = -value := (BitVec.neg_eq_not_add value).symm
    rw [if_pos rfl, BitVec.toInt_eq_msb_cond, if_pos hmsb, hnot, BitVec.toNat_neg]
    have hne : value.toNat ≠ 0 := by
      intro h0
      rw [h0] at hpos
      exact absurd hpos (Nat.not_le.mpr (Nat.two_pow_pos _))
    rw [Nat.mod_eq_of_lt (by omega)]
    generalize 2 ^ w = size at hlt ⊢
    omega

/-- **In base -10** the signed decimal of the value is printed. -/
theorem btoaWord_signed {w : ℕ} (value : BitVec w) :
    btoaWord value (-10) = signedDecimal value.toInt := by
  unfold btoaWord signedDecimal
  by_cases hzero : value = 0
  · simp [hzero, numeral]
  · have hmag := toNat_magnitude value
    have hne : value.toInt.natAbs ≠ 0 := by
      intro h0
      rw [Int.natAbs_eq_zero] at h0
      exact hzero (BitVec.eq_of_toInt_eq (by simpa using h0))
    have hneg : value.msb = true ↔ value.toInt < 0 := by
      rw [BitVec.msb_eq_toInt, decide_eq_true_iff]
    have hlt : (if value.msb then ~~~value + 1 else value).toNat < 10 ^ w :=
      toNat_lt_base_pow (by decide) _
    have hloop := btoaLoop_eq (by decide) hlt
    rw [hmag] at hloop
    simp only [hzero, if_false, beq_self_eq_true, Bool.true_and, if_true, hmag, hloop, numeral, hne]
    by_cases hmsb : value.msb = true
    · rw [if_pos hmsb, if_pos (hneg.mp hmsb), List.reverse_append]
      rfl
    · rw [if_neg hmsb, if_neg (fun h => hmsb (hneg.mpr h))]

/-! ## §5 Reading what was printed -/

theorem digitOf_digitChar : ∀ d < 16, digitOf (digitChar d) = some d := by decide

theorem isNumeral_numeral (hbase : 2 ≤ base) (hle : base ≤ 16) (n : ℕ) :
    IsNumeral base (numeral base n) := by
  unfold numeral
  split
  · intro c hc
    rw [List.mem_singleton.mp hc, show digitOf 48 = some 0 by decide]
    simpa using Nat.lt_of_lt_of_le (by decide) hbase
  · intro c hc
    obtain ⟨d, hd, rfl⟩ := List.mem_map.mp (List.mem_reverse.mp hc)
    have hlt : d < base := Nat.digits_lt_base hbase hd
    rw [digitOf_digitChar d (Nat.lt_of_lt_of_le hlt hle)]
    simpa using hlt

theorem numeralValue_numeral (hbase : 2 ≤ base) (hle : base ≤ 16) (n : ℕ) :
    numeralValue base (numeral base n) = n := by
  unfold numeral
  split
  · rename_i hn
    rw [hn]
    rfl
  · unfold numeralValue
    rw [List.map_reverse, List.reverse_reverse, List.map_map]
    have hback : (Nat.digits base n).map ((fun c => (digitOf c).getD 0) ∘ digitChar) =
        Nat.digits base n := by
      rw [List.map_congr_left (g := id), List.map_id]
      intro d hd
      have hlt := Nat.lt_of_lt_of_le (Nat.digits_lt_base hbase hd) hle
      rw [Function.comp_apply, digitOf_digitChar d hlt, Option.getD_some, id]
    rw [hback, Nat.ofDigits_digits]

/-- A numeral has no prefix. -/
theorem atobPrefix_of_isNumeral {b : ℕ} (h : IsNumeral b p) (base : ℕ) :
    atobPrefix p base = (p, base) := by
  unfold atobPrefix
  split
  · exact absurd (by simp) (h.not_mem (c := 120) (by decide))
  · exact absurd (by simp) (h.not_mem (c := 88) (by decide))
  · rfl

/-- A numeral is read. -/
theorem atobQuad_of_isNumeral (h : IsNumeral base p) :
    atobQuad p base = some (numeralValue base p % 2 ^ 64) :=
  atobQuad_iff.mpr ⟨_, .plain (atobPrefix_of_isNumeral h base) h, rfl⟩

/-- Of the strings of hexadecimal digits, those are read that are numerals of the base. -/
theorem atobQuad_of_hex (h : IsNumeral 16 p) (base : ℕ) :
    atobQuad p base = if IsNumeral base p then some (numeralValue base p % 2 ^ 64) else none := by
  split
  case isTrue hnum => exact atobQuad_of_isNumeral hnum
  case isFalse hnum =>
    rw [Option.eq_none_iff_forall_ne_some]
    intro r hr
    obtain ⟨n, hn, -⟩ := atobQuad_iff.mp hr
    have hplain := atobPrefix_of_isNumeral h base
    cases hn with
    | plain hp hdigits =>
      rw [hplain, Prod.mk.injEq] at hp
      obtain ⟨rfl, rfl⟩ := hp
      exact hnum hdigits
    | dotted hp _ _ _ _ _ =>
      rw [hplain, Prod.mk.injEq] at hp
      exact h.not_mem (c := 46) (by decide) (by simp [hp.1])

theorem getbase_of_hex (h : IsNumeral 16 p) : getbase p = (p, 10) := by
  unfold getbase
  split
  · exact absurd (by simp) (h.not_mem (c := 120) (by decide))
  · exact absurd (by simp) (h.not_mem (c := 116) (by decide))
  · exact absurd (by simp) (h.not_mem (c := 110) (by decide))
  · exact absurd (by simp) (h.not_mem (c := 111) (by decide))
  · rfl

theorem llatob_of_ne_zero (hbase : base ≠ 0) : llatob p base = atobQuad p base := by
  rw [llatob, if_neg hbase]

theorem llatob_numeral (hbase : 2 ≤ base) (hle : base ≤ 16) (hn : n < 2 ^ 64) :
    llatob (numeral base n) base = some n := by
  rw [llatob_of_ne_zero (by omega), atobQuad_of_isNumeral (isNumeral_numeral hbase hle n),
    numeralValue_numeral hbase hle, Nat.mod_eq_of_lt hn]

theorem atob_numeral (hbase : 2 ≤ base) (hle : base ≤ 16) (hn : n < 2 ^ 32) :
    atob (numeral base n) base = some n := by
  rw [atob_eq_map, atobQuad_of_isNumeral (isNumeral_numeral hbase hle n),
    numeralValue_numeral hbase hle, Option.map_some, Nat.mod_mod_of_dvd _ (by decide),
    Nat.mod_eq_of_lt hn]

theorem natAbs_toInt_lt {w : ℕ} (value : BitVec w) : value.toInt.natAbs < 2 ^ w := by
  rw [← toNat_magnitude]
  exact BitVec.isLt _

/-- **Printing and reading numbers**: in the bases 2 to 16 a printed word reads back, in base -10
    the signed decimal is printed, whose digits read back to the magnitude, and a string is read if
    and only if it denotes a number, which is then taken modulo the size of the word. -/
theorem numbers_exact (base : ℕ) (hbase : 2 ≤ base) (hle : base ≤ 16) :
    (∀ value : BitVec 32, atob (btoa value base) base = some value.toNat) ∧
    (∀ value : BitVec 64, llatob (llbtoa value base) base = some value.toNat) ∧
    (∀ value : BitVec 32, btoa value (-10) = signedDecimal value.toInt ∧
      atob (numeral 10 value.toInt.natAbs) 10 = some value.toInt.natAbs) ∧
    (∀ value : BitVec 64, llbtoa value (-10) = signedDecimal value.toInt ∧
      llatob (numeral 10 value.toInt.natAbs) 10 = some value.toInt.natAbs) ∧
    (∀ p r, atob p base = some r ↔ ∃ n, Denotes base p n ∧ r = n % 2 ^ 32) ∧
    (∀ p r, llatob p base = some r ↔ ∃ n, Denotes base p n ∧ r = n % 2 ^ 64) := by
  refine ⟨?_, ?_, ?_, ?_, ?_, ?_⟩
  · intro value
    rw [btoa, btoaWord_base hbase]
    exact atob_numeral hbase hle value.isLt
  · intro value
    rw [llbtoa, btoaWord_base hbase]
    exact llatob_numeral hbase hle value.isLt
  · exact fun value => ⟨btoaWord_signed value,
      atob_numeral (by decide) (by decide) (natAbs_toInt_lt value)⟩
  · exact fun value => ⟨btoaWord_signed value,
      llatob_numeral (by decide) (by decide) (natAbs_toInt_lt value)⟩
  · intro p r
    have hdvd : (2 : ℕ) ^ 32 ∣ 2 ^ 64 := by decide
    rw [atob_eq_map, Option.map_eq_some_iff]
    constructor
    · rintro ⟨v, hv, rfl⟩
      obtain ⟨n, hn, rfl⟩ := atobQuad_iff.mp hv
      exact ⟨n, hn, Nat.mod_mod_of_dvd n hdvd⟩
    · rintro ⟨n, hn, rfl⟩
      exact ⟨_, atobQuad_iff.mpr ⟨n, hn, rfl⟩, Nat.mod_mod_of_dvd n hdvd⟩
  · intro p r
    rw [llatob_of_ne_zero (by omega)]
    exact atobQuad_iff

/-- The most negative word in base -10, through the theorem. -/
theorem numbers_exact_min :
    btoa (BitVec.intMin 32) (-10) = ascii "-2147483648" :=
  ((numbers_exact 10 (by decide) (by decide)).2.2.1 (BitVec.intMin 32)).1.trans (by decide)

/-- In base 16 the reader takes a point, and in base 8 the digits of base 16 behind a `0x`. -/
theorem atob_point :
    atob (ascii "1.2") 16 = some 65538 ∧ ¬ IsNumeral 16 (ascii "1.2") ∧
      atob (ascii "0x1f") 8 = some 31 ∧ ¬ IsNumeral 8 (ascii "1f") := by
  decide

end Pmon.Libc
