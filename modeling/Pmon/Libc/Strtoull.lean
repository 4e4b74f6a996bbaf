import Pmon.Libc.Strto

/-!
# `strtoull`

`strtoull` of `pmon/cmds/mycmd.c` is `strtoul` over again, with results of 64 bits.

## Key results

- `strtoullEnd_eq`: what it returns.
- `strtoullEnd_suffix`: the end lies in the string.
- `strtoullEnd_hex`: a run of hexadecimal digits is converted as it stands.
-/

namespace Pmon.Libc

variable {s t rest ds : CStr} {c : UInt8} {base : ℕ}

/-- `ULONGLONG_MAX`. -/
def ulonglongMax : ℕ := 18446744073709551615

/-- `strtoull(nptr, endptr, base)`: the value and `*endptr`. -/
def strtoullEnd (nptr : CStr) (base : ℕ) : ℕ × CStr :=
  let (negative, s) := strtoSign nptr
  let (s, base) := strtoulBase s base
  let (result, overflow, tail) := strtoLoop base (ulonglongMax / base) ulonglongMax s 0 false
  (if overflow then ulonglongMax else if negative then (2 ^ 64 - result) % 2 ^ 64 else result, tail)

/-- `unsigned long long`: too large a number gives `ULONGLONG_MAX`, and the sign negates. -/
def ulonglongConv (negative : Bool) (n : ℕ) : ℕ :=
  if ulonglongMax < n then ulonglongMax else if negative then (2 ^ 64 - n) % 2 ^ 64 else n

theorem strtoullEnd_eq (hbase : base = 0 ∨ 2 ≤ base) (s : CStr) :
    strtoullEnd s base = scanned ulonglongConv base s := by
  obtain ⟨hover, hval⟩ := strtoLoop_spec (strtoulBase_pos hbase (strtoSign s).2)
    (strtoulBase (strtoSign s).2 base).1 (Nat.zero_le ulonglongMax)
  have hend := strtoLoop_end (strtoulBase (strtoSign s).2 base).2
    (ulonglongMax / (strtoulBase (strtoSign s).2 base).2) ulonglongMax
    (strtoulBase (strtoSign s).2 base).1 0 false
  simp only [strtoullEnd, scanned, ulonglongConv, hend, hover, decide_eq_true_eq]
  split
  · rfl
  · rename_i hle
    rw [hval (Nat.not_lt.mp hle)]

/-! ## §1 The end -/

theorem strtoSign_suffix (s : CStr) : (strtoSign s).2 <:+ s := by
  have hspace : s.dropWhile isspace <:+ s := List.dropWhile_suffix _
  unfold strtoSign
  split
  · rename_i cs hcs
    exact (List.suffix_cons 43 cs).trans (hcs ▸ hspace)
  · rename_i cs hcs
    exact (List.suffix_cons 45 cs).trans (hcs ▸ hspace)
  · exact hspace

theorem strtoulBase_suffix (t : CStr) (base : ℕ) : (strtoulBase t base).1 <:+ t := by
  have htwo : ∀ (a b : UInt8) (cs : CStr), cs <:+ a :: b :: cs := fun a b cs =>
    (List.suffix_cons b cs).trans (List.suffix_cons a (b :: cs))
  unfold strtoulBase
  split
  · split
    · exact htwo ..
    · exact htwo ..
    · exact List.suffix_cons ..
    · exact List.suffix_rfl
  · split
    · split
      · exact htwo ..
      · exact List.suffix_cons ..
      · exact List.suffix_rfl
    · exact List.suffix_rfl

/-- **The end** is a place in the string. -/
theorem strtoullEnd_suffix (hbase : base = 0 ∨ 2 ≤ base) (s : CStr) :
    (strtoullEnd s base).2 <:+ s := by
  rw [strtoullEnd_eq hbase]
  exact (List.dropWhile_suffix _).trans ((strtoulBase_suffix _ base).trans (strtoSign_suffix s))

/-! ## §2 Hexadecimal digits -/

/-- A hexadecimal digit is no blank, no sign and no `x`. -/
theorem hexDigit_other (h : isDigitOf 16 c = true) :
    isspace c = false ∧ c ≠ 43 ∧ c ≠ 45 ∧ c ≠ 120 ∧ c ≠ 88 := by
  have hall : ∀ n : Fin 256, isDigitOf 16 (UInt8.ofFin n) = true → isspace (UInt8.ofFin n) = false ∧
      UInt8.ofFin n ≠ 43 ∧ UInt8.ofFin n ≠ 45 ∧ UInt8.ofFin n ≠ 120 ∧ UInt8.ofFin n ≠ 88 := by
    decide +kernel
  exact hall c.toFin h

/-- In base 16 digits are left as they are, but for a 0 at the beginning. -/
theorem strtoulBase_hex (hds : ∀ d ∈ ds, isDigitOf 16 d = true) (hne : ds ≠ [])
    (hrest : ∀ d ∈ rest.head?, isDigitOf 16 d = false ∧ d ≠ 120) :
    ∃ ds', (∀ d ∈ ds', isDigitOf 16 d = true) ∧ digitsValue 16 0 ds' = digitsValue 16 0 ds ∧
      strtoulBase (ds ++ rest) 16 = (ds' ++ rest, 16) := by
  obtain ⟨d, ds, rfl⟩ := List.exists_cons_of_ne_nil hne
  by_cases hd : d = 48
  · subst hd
    refine ⟨ds, fun d hd => hds d (List.mem_cons_of_mem _ hd), rfl, ?_⟩
    cases ds with
    | nil =>
      cases rest with
      | nil => rfl
      | cons r rest =>
        obtain ⟨-, hx⟩ := hrest r rfl
        simp [strtoulBase, hx]
    | cons e ds =>
      obtain ⟨-, -, -, hx, -⟩ := hexDigit_other (hds e (by simp))
      simp [strtoulBase, hx]
  · exact ⟨d :: ds, hds, rfl, by simp [strtoulBase, hd]⟩

/-- **A run of digits** that nothing else continues is converted, whether or not it begins
    with a 0. -/
theorem strtoullEnd_hex (hds : ∀ d ∈ ds, isDigitOf 16 d = true) (hne : ds ≠ [])
    (hrest : ∀ d ∈ rest.head?, isDigitOf 16 d = false ∧ d ≠ 120)
    (hsmall : digitsValue 16 0 ds ≤ ulonglongMax) :
    strtoullEnd (ds ++ rest) 16 = (digitsValue 16 0 ds, rest) := by
  obtain ⟨ds', hds', hvalue, hbase⟩ := strtoulBase_hex hds hne hrest
  -- there are no blanks and no sign
  have hsign : strtoSign (ds ++ rest) = (false, ds ++ rest) := by
    obtain ⟨d, ds, rfl⟩ := List.exists_cons_of_ne_nil hne
    obtain ⟨hspace, hplus, hminus, -, -⟩ := hexDigit_other (hds d (List.mem_cons_self ..))
    simp [strtoSign, hspace, hplus, hminus]
  have htake : (ds' ++ rest).takeWhile (isDigitOf 16) = ds' := by
    cases rest with
    | nil => rw [List.append_nil, List.takeWhile_eq_self_iff.mpr hds']
    | cons r rest =>
      obtain ⟨hstop, -⟩ := hrest r rfl
      rw [List.takeWhile_append_of_pos hds', List.takeWhile_cons, hstop]
      simp
  have hdrop : (ds' ++ rest).dropWhile (isDigitOf 16) = rest := by
    rw [List.dropWhile_append_of_pos hds']
    cases rest with
    | nil => rfl
    | cons r rest =>
      obtain ⟨hstop, -⟩ := hrest r rfl
      rw [List.dropWhile_cons, hstop]
      simp
  rw [strtoullEnd_eq (Or.inr (by decide)), scanned, hsign]
  dsimp only
  rw [hbase]
  dsimp only
  rw [htake, hdrop, hvalue, ulonglongConv, if_neg (Nat.not_lt.mpr hsmall)]
  rfl

end Pmon.Libc
