import Pmon.Debug.Rsa
import Pmon.Dtb.Fdt
import Pmon.Libc.Strto

/-!
# Property values on the command line

`fdt_parse_prop` of `Targets/LS2K/dev/load_dtb.c` takes the arguments of `set_dtb` for the value of
a property: an array of cells between `<` and `>`, bytes between `[` and `]`, or strings.  A value
may be split over the arguments wherever there are blanks.

The `count` arguments are a list; what is read behind the last one is no part of it, and the outcome
says so.

## Key results

- `cellsLoop_printed`, `bytesLoop_printed`: what becomes of a printed array.
- `fdtParseProp_exact`: exactly which printed values are returned, and which arguments are read
  without going behind the last one.
- `missing_bracket`: the argument behind the last one is looked at for the bracket.
-/

namespace Pmon.Dtb

open Pmon.Libc Pmon.Debug

/-! ## §1 Source -/

/-- What `fdt_parse_prop` does: it returns 0 and the data, or 1, or it reads `newval[count]`. -/
inductive Parsed where
  | ok (data : List (BitVec 8))
  | err
  | outside
  deriving DecidableEq

/-- The loop over an array of cells: the rest of this argument, and the arguments behind it. -/
def cellsLoop (newp : CStr) (rest : List CStr) (data : List (BitVec 8)) : Parsed :=
  match newp, rest with
  | [], [] => .outside
  | [], a :: rest => cellsLoop a rest data
  | c :: cs, rest =>
    if c = 62 then .ok data
    else
      let r := strtoulEnd (c :: cs) 0
      if (c :: cs).length ≤ r.2.length then .err
      else cellsLoop (r.2.dropWhile (· == 32)) rest (data ++ cellBytes (.ofNat 32 r.1))
termination_by (rest.length, newp.length)
decreasing_by
  · exact Prod.Lex.left _ _ (Nat.lt_succ_self _)
  · refine Prod.Lex.right _ ?_
    have hlt : (strtoulEnd (c :: cs) 0).2.length < (c :: cs).length := Nat.lt_of_not_le ‹_›
    have hle := List.length_dropWhile_le (· == 32) (strtoulEnd (c :: cs) 0).2
    omega

theorem isDigitOf_of_isxdigit {c : UInt8} (h : isxdigit c = true) : isDigitOf 16 c = true := by
  simp only [isxdigit, isdigit, Bool.or_eq_true, Bool.and_eq_true, decide_eq_true_eq,
    UInt8.le_iff_toNat_le, UInt8.reduceToNat] at h
  simp only [isDigitOf, strtoDigit, isdigit, isalpha, isupper, islower, Bool.or_eq_true,
    Bool.and_eq_true, decide_eq_true_eq, UInt8.le_iff_toNat_le, UInt8.reduceToNat]
  split_ifs <;> simp <;> omega

/-- A hexadecimal digit is no blank and no sign. -/
theorem isxdigit_plain {c : UInt8} (h : isxdigit c = true) :
    isspace c = false ∧ c ≠ 43 ∧ c ≠ 45 := by
  simp only [isxdigit, isdigit, Bool.or_eq_true, Bool.and_eq_true, decide_eq_true_eq,
    UInt8.le_iff_toNat_le, UInt8.reduceToNat] at h
  refine ⟨?_, ?_, ?_⟩
  · simp only [isspace, Bool.or_eq_false_iff, beq_eq_false_iff_ne, ne_eq, UInt8.ext_iff,
      Bool.and_eq_false_iff, decide_eq_false_iff_not, UInt8.le_iff_toNat_le, UInt8.reduceToNat]
    omega
  · rintro rfl
    simp at h
  · rintro rfl
    simp at h

/-- A hexadecimal digit is converted. -/
theorem strtoulEnd_progress {c : UInt8} (h : isxdigit c = true) (cs : CStr) :
    (strtoulEnd (c :: cs) 16).2.length < (c :: cs).length := by
  have hsign : strtoSign (c :: cs) = (false, c :: cs) := by
    obtain ⟨hspace, hplus, hminus⟩ := isxdigit_plain h
    simp [strtoSign, hspace, hplus, hminus]
  rw [strtoulEnd_eq (by decide), scanned, hsign]
  by_cases h0 : c = 48
  · -- the prefix is skipped at least
    subst h0
    by_cases hx : ∃ u, cs = 120 :: u
    · obtain ⟨u, rfl⟩ := hx
      rw [strtoulBase_x (.inr rfl) (.inl rfl) (by decide)]
      have := List.length_dropWhile_le (isDigitOf 16) u
      simp only [List.length_cons]
      omega
    · have hbase : strtoulBase (48 :: cs) 16 = (cs, 16) := by
        cases cs with
        | nil => rfl
        | cons x u => simp [strtoulBase, show x ≠ 120 from fun hx' => hx ⟨u, by rw [hx']⟩]
      rw [hbase]
      have := List.length_dropWhile_le (isDigitOf 16) cs
      simp only [List.length_cons]
      omega
  · rw [strtoulBase_no_zero (by simpa using h0)]
    have := List.length_dropWhile_le (isDigitOf 16) cs
    simp only [show ¬(16 : ℕ) = 0 by decide, if_false, List.dropWhile_cons,
      isDigitOf_of_isxdigit h, if_true, List.length_cons]
    omega

/-- The loop over a byte stream.  Behind blanks the bracket is found by the `break`. -/
def bytesLoop (newp : CStr) (rest : List CStr) (data : List (BitVec 8)) : Parsed :=
  match newp, rest with
  | [], [] => .outside
  | [], a :: rest => bytesLoop a rest data
  | c :: cs, rest =>
    if c = 93 then .ok data
    else if c = 32 then bytesLoop cs rest data
    else if hx : isxdigit c = true then
      let r := strtoulEnd (c :: cs) 16
      bytesLoop r.2 rest (data ++ [.ofNat 8 r.1])
    else .err
termination_by (rest.length, newp.length)
decreasing_by
  · exact Prod.Lex.left _ _ (Nat.lt_succ_self _)
  · exact Prod.Lex.right _ (Nat.lt_succ_self _)
  · exact Prod.Lex.right _ (strtoulEnd_progress hx cs)

/-- The loop over strings, each with its NUL. -/
def stringsData (args : List CStr) : List (BitVec 8) :=
  args.flatMap fun s => (s ++ [0]).map UInt8.toBitVec

/-- `fdt_parse_prop`. -/
def fdtParseProp : List CStr → Parsed
  | [] => .outside
  | newp :: rest =>
    match newp with
    | 60 :: newp => cellsLoop newp rest []
    | 91 :: newp => bytesLoop newp rest []
    | _ => .ok (stringsData (newp :: rest))

/-! ## §2 Printed values -/

/-- The values of an array, printed up to the closing bracket: the rest of this argument and the
    arguments behind it.  An argument may end, and blanks may stand, between any two numbers; one
    of both does. -/
inductive Printed {α : Type*} (Number : CStr → α → Prop) (close : UInt8) :
    List α → CStr → List CStr → Prop where
  | close : Printed Number close [] [close] []
  | next {vals : List α} {a : CStr} {rest : List CStr} :
      Printed Number close vals a rest → Printed Number close vals [] (a :: rest)
  | blank {vals : List α} {t : CStr} {rest : List CStr} :
      Printed Number close vals t rest → Printed Number close vals (32 :: t) rest
  | number {v : α} {vals : List α} {text t : CStr} {rest : List CStr} : Number text v →
      (∀ c, t.head? = some c → c = 32 ∨ c = close) → Printed Number close vals t rest →
      Printed Number close (v :: vals) (text ++ t) rest

/-- A cell: a constant of the language. -/
def CellText (text : CStr) (v : BitVec 32) : Prop :=
  ∃ r ds, Constant 0 text r ds ∧ digitsValue r 0 ds = v.toNat

/-- A byte: hexadecimal digits. -/
def ByteText (text : CStr) (v : BitVec 8) : Prop :=
  text ≠ [] ∧ (∀ c ∈ text, isDigitOf 16 c = true) ∧ digitsValue 16 0 text = v.toNat

/-- A value of a property. -/
inductive PropValue where
  | cells (vals : List (BitVec 32))
  | bytes (vals : List (BitVec 8))
  | strings (s : CStr) (vals : List CStr)

/-- The bytes of a value: cells are big-endian, and strings have their NULs. -/
def PropValue.data : PropValue → List (BitVec 8)
  | .cells vals => cellsBytes vals
  | .bytes vals => vals
  | .strings s vals => stringsData (s :: vals)

/-- The arguments that a value may be given by.  A string that begins like an array cannot stand
    first. -/
inductive Given : PropValue → List CStr → Prop where
  | cells {vals : List (BitVec 32)} {t : CStr} {rest : List CStr} :
      Printed CellText 62 vals t rest → Given (.cells vals) ((60 :: t) :: rest)
  | bytes {vals : List (BitVec 8)} {t : CStr} {rest : List CStr} :
      Printed ByteText 93 vals t rest → Given (.bytes vals) ((91 :: t) :: rest)
  | strings {s : CStr} {vals : List CStr} : s.head? ≠ some 60 → s.head? ≠ some 91 →
      Given (.strings s vals) (s :: vals)

/-- Blanks that stand behind the opening bracket or at the beginning of an argument, and no number
    behind them. -/
def bare (t : CStr) : Bool :=
  t.head? = some 32 && (t.dropWhile (· == 32)).head?.all (· = 62)

/-! ## §3 Numbers -/

variable {close c : UInt8} {s t text ds : CStr} {rest : List CStr} {data : List (BitVec 8)}

/-- What separates numbers is no digit. -/
theorem strtoDigit_separator (hclose : close = 62 ∨ close = 93) (hc : c = 32 ∨ c = close) :
    strtoDigit c = none := by
  rcases hc with rfl | rfl
  · decide
  · rcases hclose with rfl | rfl <;> decide

/-- Digits in front of a separator. -/
theorem span_digits {base : ℕ} (hds : ∀ c ∈ ds, isDigitOf base c = true)
    (ht : ∀ c, t.head? = some c → strtoDigit c = none) :
    (ds ++ t).takeWhile (isDigitOf base) = ds ∧ (ds ++ t).dropWhile (isDigitOf base) = t := by
  have hstop : t.takeWhile (isDigitOf base) = [] ∧ t.dropWhile (isDigitOf base) = t := by
    cases t with
    | nil => exact ⟨rfl, rfl⟩
    | cons c t =>
      have hno : isDigitOf base c = false := by simp [isDigitOf, ht c rfl]
      simp [hno]
  rw [List.takeWhile_append_of_pos hds, List.dropWhile_append_of_pos hds, hstop.1, hstop.2,
    List.append_nil]
  exact ⟨rfl, rfl⟩

/-- The blanks are skipped, and no sign is found. -/
theorem strtoSign_blanks (h : s.dropWhile (· == 32) = t)
    (ht : ∀ c, t.head? = some c → isspace c = false ∧ c ≠ 43 ∧ c ≠ 45) :
    strtoSign s = (false, t) := by
  have hspace : s.dropWhile isspace = t := by
    induction s with
    | nil => exact h
    | cons c s ih =>
      rw [List.dropWhile_cons] at h ⊢
      by_cases hblank : c = 32
      · rw [if_pos (by simp [hblank, isspace])]
        rw [if_pos (by simp [hblank])] at h
        exact ih h
      · rw [if_neg (by simpa using hblank)] at h
        rw [if_neg (by simp [(ht c (by rw [← h]; rfl)).1]), h]
  cases t with
  | nil => simp [strtoSign, hspace]
  | cons c t =>
    obtain ⟨-, hplus, hminus⟩ := ht c rfl
    simp [strtoSign, hspace, hplus, hminus]

theorem isxdigit_of_isDigitOf {base : ℕ} (hbase : base ≤ 16) (h : isDigitOf base c = true) :
    isxdigit c = true := by
  simp only [isDigitOf, strtoDigit, isdigit, isalpha, isupper, islower, Bool.or_eq_true,
    Bool.and_eq_true, decide_eq_true_eq, UInt8.le_iff_toNat_le, UInt8.reduceToNat] at h
  simp only [isxdigit, isdigit, Bool.or_eq_true, Bool.and_eq_true, decide_eq_true_eq,
    UInt8.le_iff_toNat_le, UInt8.reduceToNat]
  split_ifs at h <;> simp at h <;> omega

/-- A constant of the language begins with a digit. -/
theorem constant_head {r : ℕ} (h : Constant 0 text r ds) :
    ∃ c u, text = c :: u ∧ isxdigit c = true := by
  cases h with
  | plain h0 _ _ => exact absurd rfl h0
  | hex _ _ _ _ => exact ⟨_, _, rfl, by decide⟩
  | octal _ _ => exact ⟨_, _, rfl, by decide⟩
  | decimal _ _ hall =>
    exact ⟨_, _, rfl, isxdigit_of_isDigitOf (by decide) (hall _ List.mem_cons_self)⟩

/-- **A constant** is converted, and the scan stops behind it. -/
theorem strtoulEnd_constant {r : ℕ} (h : Constant 0 text r ds) (hle : digitsValue r 0 ds ≤ ulongMax)
    (ht : ∀ c, t.head? = some c → strtoDigit c = none)
    (hs : s.dropWhile (· == 32) = text ++ t) : strtoulEnd s 0 = (digitsValue r 0 ds, t) := by
  obtain ⟨c, u, htext, hc⟩ := constant_head h
  have hsign : strtoSign s = (false, text ++ t) := by
    apply strtoSign_blanks hs
    intro b hb
    rw [htext] at hb
    obtain rfl : c = b := by simpa using hb
    exact isxdigit_plain hc
  rw [strtoulEnd_eq (by decide), scanned, hsign]
  have hval : ∀ n, n ≤ ulongMax → ulongConv false n = n := fun n hn => by
    rw [ulongConv, if_neg (Nat.not_lt.mpr hn)]
    rfl
  cases h with
  | plain h0 _ _ => exact absurd rfl h0
  | hex _ hx _ hall =>
    obtain ⟨htake, hdrop⟩ := span_digits hall ht
    have hbase : strtoulBase (48 :: _ :: (ds ++ t)) 0 = (ds ++ t, 16) :=
      strtoulBase_x (.inl rfl) hx (by simp)
    simp only [List.cons_append, hbase, htake, hdrop, hval _ hle]
  | @octal ds' _ hall =>
    obtain ⟨htake, hdrop⟩ := span_digits hall ht
    have hbase : strtoulBase (48 :: (ds' ++ t)) 0 = (ds' ++ t, 8) := by
      apply strtoulBase_zero (.inl rfl)
      intro x u hx
      have hdigit : isDigitOf 8 x = true ∨ strtoDigit x = none := by
        cases ds' with
        | nil => exact .inr (ht x (by rw [← List.nil_append t, hx]; rfl))
        | cons d ds' =>
          obtain ⟨rfl, -⟩ := List.cons.inj hx
          exact .inl (hall _ List.mem_cons_self)
      rintro (rfl | rfl) <;> revert hdigit <;> decide
    rw [digitsValue_zero_cons] at hle ⊢
    simp only [List.cons_append, hbase, htake, hdrop, hval _ hle]
  | decimal _ hne hall =>
    obtain ⟨htake, hdrop⟩ := span_digits hall ht
    rw [strtoulBase_no_zero (by simpa using hne), if_pos rfl]
    simp only [htake, hdrop, hval _ hle]

/-- Hexadecimal digits are converted, and the scan stops behind them. -/
theorem strtoulEnd_hex (hne : text ≠ []) (hall : ∀ c ∈ text, isDigitOf 16 c = true)
    (hle : digitsValue 16 0 text ≤ ulongMax) (ht : ∀ c, t.head? = some c → strtoDigit c = none) :
    strtoulEnd (text ++ t) 16 = (digitsValue 16 0 text, t) := by
  obtain ⟨c, u, rfl⟩ := List.exists_cons_of_ne_nil hne
  have hsign : strtoSign (c :: u ++ t) = (false, c :: u ++ t) := by
    obtain ⟨hspace, hplus, hminus⟩ :=
      isxdigit_plain (isxdigit_of_isDigitOf (by decide) (hall c List.mem_cons_self))
    simp [strtoSign, hspace, hplus, hminus]
  have hval : ulongConv false (digitsValue 16 0 (c :: u)) = digitsValue 16 0 (c :: u) := by
    rw [ulongConv, if_neg (Nat.not_lt.mpr hle)]
    rfl
  rw [strtoulEnd_eq (by decide), scanned, hsign]
  by_cases h0 : c = 48
  · -- a leading zero is skipped, as the prefix would be
    subst h0
    have hu : ∀ c ∈ u, isDigitOf 16 c = true := fun c hc => hall c (List.mem_cons_of_mem _ hc)
    obtain ⟨htake, hdrop⟩ := span_digits hu ht
    have hbase : strtoulBase (48 :: (u ++ t)) 16 = (u ++ t, 16) := by
      apply strtoulBase_zero (.inr rfl)
      intro x v hx
      have hdigit : isDigitOf 16 x = true ∨ strtoDigit x = none := by
        cases u with
        | nil => exact .inr (ht x (by rw [← List.nil_append t, hx]; rfl))
        | cons d u =>
          obtain ⟨rfl, -⟩ := List.cons.inj hx
          exact .inl (hu _ List.mem_cons_self)
      rintro (rfl | rfl) <;> revert hdigit <;> decide
    rw [digitsValue_zero_cons] at hval ⊢
    simp only [List.cons_append, hbase, htake, hdrop, hval]
  · obtain ⟨htake, hdrop⟩ := span_digits hall ht
    rw [strtoulBase_no_zero (by simpa using h0), if_neg (by decide)]
    simp only [htake, hdrop, hval]

/-! ## §4 Arrays -/

section

variable {α : Type*} {Number : CStr → α → Prop} {vals : List α}

/-- Blanks in front do not count. -/
theorem Printed.strip (h : Printed Number close vals t rest) (hclose : close ≠ 32)
    (hhead : ∀ text v, Number text v → ∃ c u, text = c :: u ∧ c ≠ 32) :
    Printed Number close vals (t.dropWhile (· == 32)) rest := by
  induction h with
  | close =>
    rw [List.dropWhile_cons, if_neg (by simpa using hclose)]
    exact .close
  | next h _ => exact .next h
  | blank _ ih =>
    rw [List.dropWhile_cons, if_pos (by simp)]
    exact ih
  | @number v vals text t rest hnum hsep h _ =>
    obtain ⟨c, u, rfl, hc⟩ := hhead text v hnum
    rw [List.cons_append, List.dropWhile_cons, if_neg (by simpa using hc)]
    exact .number hnum hsep h

/-- Nothing is left only where an argument follows. -/
theorem Printed.at_end (h : Printed Number close vals [] rest)
    (hhead : ∀ text v, Number text v → ∃ c u, text = c :: u ∧ c ≠ 32) :
    ∃ a rest', rest = a :: rest' ∧ Printed Number close vals a rest' := by
  generalize ht : ([] : CStr) = t at h
  cases h with
  | close => exact absurd ht (by simp)
  | next h => exact ⟨_, _, rfl, h⟩
  | blank _ => exact absurd ht (by simp)
  | number hnum _ _ =>
    obtain ⟨c, u, rfl, -⟩ := hhead _ _ hnum
    exact absurd ht (by simp)

end

theorem cellText_head {v : BitVec 32} (h : CellText text v) : ∃ c u, text = c :: u ∧ c ≠ 32 := by
  obtain ⟨r, ds, hconst, -⟩ := h
  obtain ⟨c, u, rfl, hc⟩ := constant_head hconst
  refine ⟨c, u, rfl, ?_⟩
  rintro rfl
  exact absurd hc (by decide)

theorem byteText_head {v : BitVec 8} (h : ByteText text v) : ∃ c u, text = c :: u ∧ c ≠ 32 := by
  obtain ⟨c, u, rfl⟩ := List.exists_cons_of_ne_nil h.1
  refine ⟨c, u, rfl, ?_⟩
  rintro rfl
  exact absurd (h.2.1 32 List.mem_cons_self) (by decide)

/-- **A printed byte stream** is read as it is. -/
theorem bytesLoop_printed {vals : List (BitVec 8)} (h : Printed ByteText 93 vals t rest) :
    bytesLoop t rest data = .ok (data ++ vals) := by
  induction h generalizing data with
  | close =>
    rw [bytesLoop, if_pos rfl, List.append_nil]
  | next h ih =>
    rw [bytesLoop]
    exact ih
  | blank h ih =>
    rw [bytesLoop, if_neg (by decide), if_pos rfl]
    exact ih
  | @number v vals text t rest hnum hsep h ih =>
    obtain ⟨hne, hall, hval⟩ := hnum
    have hlt := v.isLt
    have hscan := strtoulEnd_hex hne hall (by unfold ulongMax; omega) fun c hc =>
      strtoDigit_separator (.inr rfl) (hsep c hc)
    obtain ⟨c, u, rfl⟩ := List.exists_cons_of_ne_nil hne
    have hdigit := isxdigit_of_isDigitOf (Nat.le_refl 16) (hall c List.mem_cons_self)
    have hclose : c ≠ 93 := by
      rintro rfl
      exact absurd hdigit (by decide)
    have hblank : c ≠ 32 := by
      rintro rfl
      exact absurd hdigit (by decide)
    rw [List.cons_append] at hscan ⊢
    rw [bytesLoop, if_neg hclose, if_neg hblank, dif_pos hdigit]
    simp only [hscan]
    rw [ih, hval, BitVec.ofNat_toNat, BitVec.setWidth_eq, List.append_assoc]
    rfl

/-- Blanks without a number behind them are converted to 0. -/
theorem strtoulEnd_blanks (h : s.dropWhile (· == 32) = t) (ht : t = [] ∨ ∃ u, t = 62 :: u) :
    strtoulEnd s 0 = (0, t) := by
  have hsign : strtoSign s = (false, t) := by
    apply strtoSign_blanks h
    rcases ht with rfl | ⟨u, rfl⟩
    · exact fun c hc => absurd hc (by simp)
    · intro c hc
      obtain rfl : 62 = c := by simpa using hc
      decide
  rw [strtoulEnd_eq (by decide), scanned, hsign]
  rcases ht with rfl | ⟨u, rfl⟩ <;> rfl

/-- Numbers are not bare. -/
theorem bare_number {v : BitVec 32} (hnum : CellText text v)
    (hs : s.dropWhile (· == 32) = text ++ t) : bare s = false := by
  obtain ⟨r, ds, hconst, -⟩ := hnum
  obtain ⟨c, u, rfl, hc⟩ := constant_head hconst
  have hne : c ≠ 62 := by
    rintro rfl
    exact absurd hc (by decide)
  simp [bare, hs, hne]

theorem head_dropWhile_ne (hu : s.dropWhile (· == 32) = c :: t) : c ≠ 32 := by
  have hhead := List.head?_dropWhile_not (· == (32 : UInt8)) s
  rw [hu] at hhead
  simpa using hhead

theorem bare_strip : bare (s.dropWhile (· == 32)) = false := by
  cases hu : s.dropWhile (· == 32) with
  | nil => rfl
  | cons c u => simp [bare, head_dropWhile_ne hu]

/-- **One conversion** of a printed array: a number, or blanks without one. -/
theorem cell_step {vals : List (BitVec 32)} {cs : CStr}
    (h : Printed CellText 62 vals (c :: cs) rest) (hc : c ≠ 62) :
    ∃ (v : BitVec 32) (vals' : List (BitVec 32)) (t' : CStr),
      strtoulEnd (c :: cs) 0 = (v.toNat, t') ∧ t'.length < (c :: cs).length ∧
        Printed CellText 62 vals' (t'.dropWhile (· == 32)) rest ∧
        (if bare (c :: cs) then vals' = vals else vals = v :: vals') := by
  have hstrip := h.strip (by decide) fun _ _ => cellText_head
  have hle := List.length_dropWhile_le (· == 32) (c :: cs)
  -- what stands behind the blanks, if there is no number
  have hblanks : ∀ u, (c :: cs).dropWhile (· == 32) = u → (u = [] ∨ ∃ w, u = 62 :: w) →
      Printed CellText 62 vals u rest →
      ∃ (v : BitVec 32) (vals' : List (BitVec 32)) (t' : CStr),
        strtoulEnd (c :: cs) 0 = (v.toNat, t') ∧ t'.length < (c :: cs).length ∧
          Printed CellText 62 vals' (t'.dropWhile (· == 32)) rest ∧
          (if bare (c :: cs) then vals' = vals else vals = v :: vals') := by
    intro u hu hcase hprinted
    have hblank : c = 32 := by
      by_contra hne
      rw [List.dropWhile_cons, if_neg (by simpa using hne)] at hu
      rcases hcase with rfl | ⟨w, rfl⟩
      · exact absurd hu (by simp)
      · exact hc (List.cons.inj hu).1
    subst hblank
    have hbare : bare (32 :: cs) = true := by
      rcases hcase with rfl | ⟨w, rfl⟩ <;> simp [bare, hu]
    refine ⟨0, vals, u, strtoulEnd_blanks hu hcase, ?_, ?_, ?_⟩
    · rw [← hu, List.dropWhile_cons, if_pos (by simp), List.length_cons]
      exact Nat.lt_succ_of_le (List.length_dropWhile_le _ _)
    · exact hprinted.strip (by decide) fun _ _ => cellText_head
    · rw [if_pos hbare]
  generalize hu : (c :: cs).dropWhile (· == 32) = u at hstrip hle
  cases hstrip with
  | close => exact hblanks _ hu (.inr ⟨[], rfl⟩) .close
  | next hnext => exact hblanks _ hu (.inl rfl) (.next hnext)
  | blank _ => exact absurd rfl (head_dropWhile_ne hu)
  | @number v vals' text t _ hnum hsep hnext =>
    have hbare := bare_number hnum hu
    obtain ⟨r, ds, hconst, hval⟩ := hnum
    have hlt := v.isLt
    have hscan := strtoulEnd_constant hconst (by unfold ulongMax; omega)
      (fun b hb => strtoDigit_separator (.inl rfl) (hsep b hb)) hu
    obtain ⟨d, w, rfl, -⟩ := constant_head hconst
    refine ⟨v, vals', t, by rw [hscan, hval], ?_, hnext.strip (by decide) fun _ _ => cellText_head,
      by rw [hbare]; rfl⟩
    simp only [List.cons_append, List.length_cons, List.length_append] at hle ⊢
    omega

/-- **A printed array of cells**: each argument that begins with blanks and has no number behind
    them makes one more cell; without such arguments the cells are read as they are. -/
theorem cellsLoop_printed {vals : List (BitVec 32)} (h : Printed CellText 62 vals s rest) :
    ∃ cells : List (BitVec 32), cellsLoop s rest data = .ok (data ++ cellsBytes cells) ∧
      cells.length = vals.length + (s :: rest).countP bare ∧
      ((s :: rest).countP bare = 0 → cells = vals) := by
  induction s, rest, data using cellsLoop.induct generalizing vals with
  | case1 data =>
    obtain ⟨a, rest', hrest, -⟩ := h.at_end fun _ _ => cellText_head
    exact absurd hrest (by simp)
  | case2 data a rest ih =>
    obtain ⟨a', rest', hrest, hnext⟩ := h.at_end fun _ _ => cellText_head
    obtain ⟨rfl, rfl⟩ := List.cons.inj hrest
    obtain ⟨cells, hloop, hlen, hsame⟩ := ih hnext
    have hcount : ([] :: a :: rest).countP bare = (a :: rest).countP bare :=
      List.countP_cons_of_neg (by decide)
    rw [cellsLoop, hcount]
    exact ⟨cells, hloop, hlen, hsame⟩
  | case3 data cs rest =>
    generalize hs : 62 :: cs = s at h
    cases h with
    | close =>
      obtain ⟨-, rfl⟩ := List.cons.inj hs
      rw [cellsLoop, if_pos rfl]
      exact ⟨[], by simp [cellsBytes], rfl, fun _ => rfl⟩
    | next _ => exact absurd hs (by simp)
    | blank _ => exact absurd (List.cons.inj hs).1 (by decide)
    | number hnum _ _ =>
      obtain ⟨r, ds, hconst, -⟩ := hnum
      obtain ⟨d, w, rfl, hd⟩ := constant_head hconst
      obtain ⟨rfl, -⟩ := List.cons.inj hs
      exact absurd hd (by decide)
  | case4 data c cs rest hclose r =>
    rename_i hstuck
    obtain ⟨v, vals', t', hscan, hlt, -⟩ := cell_step h hclose
    simp only [r, hscan] at hstuck
    exact absurd hlt (Nat.not_lt.mpr hstuck)
  | case5 data c cs rest hclose r hstuck =>
    rename_i ih
    obtain ⟨v, vals', t', hscan, -, hnext, hvals⟩ := cell_step h hclose
    simp only [r, hscan] at hstuck ih
    obtain ⟨cells, hloop, hlen, hsame⟩ := ih hnext
    rw [cellsLoop, if_neg hclose]
    simp only [hscan, hstuck, if_false, hloop]
    have hrest : (t'.dropWhile (· == 32) :: rest).countP bare = rest.countP bare :=
      List.countP_cons_of_neg (by simp [bare_strip])
    rw [hrest] at hlen hsame
    refine ⟨v :: cells, ?_, ?_, ?_⟩
    · simp [cellsBytes]
    · cases hbare : bare (c :: cs) with
      | true =>
        rw [hbare, if_pos rfl] at hvals
        rw [List.countP_cons_of_pos hbare, List.length_cons, hlen, hvals]
        omega
      | false =>
        rw [hbare, if_neg (by simp)] at hvals
        rw [List.countP_cons_of_neg (by simp [hbare]), List.length_cons, hlen, hvals,
          List.length_cons]
        omega
    · intro hnone
      cases hbare : bare (c :: cs) with
      | true =>
        rw [List.countP_cons_of_pos hbare] at hnone
        exact absurd hnone (by simp)
      | false =>
        rw [hbare, if_neg (by simp)] at hvals
        rw [List.countP_cons_of_neg (by simp [hbare])] at hnone
        rw [hvals, hsame hnone]

/-! ## §5 Any arguments -/

/-- An argument that consists of numbers for `strtoul`, with blanks between them. -/
inductive CellNumbers : CStr → Prop where
  | nil : CellNumbers []
  | number {s : CStr} : s.head? ≠ some 62 → (strtoulEnd s 0).2.length < s.length →
      CellNumbers ((strtoulEnd s 0).2.dropWhile (· == 32)) → CellNumbers s

/-- The same for bytes, where each begins with a digit. -/
inductive ByteNumbers : CStr → Prop where
  | nil : ByteNumbers []
  | blank {s : CStr} : ByteNumbers s → ByteNumbers (32 :: s)
  | number {c : UInt8} {s : CStr} : isxdigit c = true → ByteNumbers (strtoulEnd (c :: s) 16).2 →
      ByteNumbers (c :: s)

/-- The array goes on behind the last argument exactly where all are numbers. -/
theorem cellsLoop_outside :
    cellsLoop s rest data = .outside ↔ ∀ a ∈ s :: rest, CellNumbers a := by
  induction s, rest, data using cellsLoop.induct with
  | case1 data =>
    rw [cellsLoop]
    simpa using CellNumbers.nil
  | case2 data a rest ih =>
    rw [cellsLoop, ih, List.forall_mem_cons (a := [])]
    exact (and_iff_right .nil).symm
  | case3 data cs rest =>
    rw [cellsLoop, if_pos rfl]
    refine iff_of_false (by simp) fun hall => ?_
    cases hall _ List.mem_cons_self with
    | number hclose _ _ => exact hclose rfl
  | case4 data c cs rest hclose r =>
    rename_i hstuck
    rw [cellsLoop, if_neg hclose]
    simp only [r] at hstuck
    simp only [hstuck, if_true]
    refine iff_of_false (by simp) fun hall => ?_
    cases hall _ List.mem_cons_self with
    | number _ hlt _ => exact Nat.not_lt.mpr hstuck hlt
  | case5 data c cs rest hclose r hstuck =>
    rename_i ih
    rw [cellsLoop, if_neg hclose]
    simp only [r] at hstuck ih
    simp only [hstuck, if_false, ih, List.forall_mem_cons]
    refine and_congr_left fun _ => ⟨fun h => ?_, fun h => ?_⟩
    · exact .number (by simpa using hclose) (Nat.lt_of_not_le hstuck) h
    · cases h with
      | number _ _ h => exact h

theorem bytesLoop_outside :
    bytesLoop s rest data = .outside ↔ ∀ a ∈ s :: rest, ByteNumbers a := by
  induction s, rest, data using bytesLoop.induct with
  | case1 data =>
    rw [bytesLoop]
    simpa using ByteNumbers.nil
  | case2 data a rest ih =>
    rw [bytesLoop, ih, List.forall_mem_cons (a := [])]
    exact (and_iff_right .nil).symm
  | case3 data cs rest =>
    rw [bytesLoop, if_pos rfl]
    refine iff_of_false (by simp) fun hall => ?_
    cases hall _ List.mem_cons_self with
    | number hdigit _ => exact absurd hdigit (by decide)
  | case4 data cs rest _ ih =>
    rw [bytesLoop, if_neg (by decide), if_pos rfl, ih, List.forall_mem_cons, List.forall_mem_cons]
    refine and_congr_left fun _ => ⟨.blank, fun h => ?_⟩
    cases h with
    | blank h => exact h
    | number hdigit _ => exact absurd hdigit (by decide)
  | case5 data c cs rest hclose hblank hdigit r ih =>
    rw [bytesLoop, if_neg hclose, if_neg hblank, dif_pos hdigit]
    simp only [r] at ih
    simp only [ih, List.forall_mem_cons]
    refine and_congr_left fun _ => ⟨.number hdigit, fun h => ?_⟩
    cases h with
    | blank _ => exact absurd rfl hblank
    | number _ h => exact h
  | case6 data c cs rest hclose hblank hdigit =>
    rw [bytesLoop, if_neg hclose, if_neg hblank, dif_neg hdigit]
    refine iff_of_false (by simp) fun hall => ?_
    cases hall _ List.mem_cons_self with
    | blank _ => exact hblank rfl
    | number h _ => exact hdigit h

/-- `strtoul` stops somewhere in its string. -/
theorem strtoulEnd_suffix {base : ℕ} (hbase : base = 0 ∨ 2 ≤ base) (s : CStr) :
    (strtoulEnd s base).2 <:+ s := by
  have hsign : (strtoSign s).2 <:+ s := by
    have hblanks := List.dropWhile_suffix isspace (l := s)
    unfold strtoSign
    split
    · rename_i h
      exact (List.suffix_cons _ _).trans (h ▸ hblanks)
    · rename_i h
      exact (List.suffix_cons _ _).trans (h ▸ hblanks)
    · exact hblanks
  have hskip : ∀ u : CStr, (strtoulBase u base).1 <:+ u := by
    intro u
    unfold strtoulBase
    split
    · split
      · exact ⟨[_, _], rfl⟩
      · exact ⟨[_, _], rfl⟩
      · exact ⟨[_], rfl⟩
      · exact List.suffix_refl _
    · split
      · split
        · exact ⟨[_, _], rfl⟩
        · exact ⟨[_], rfl⟩
        · exact List.suffix_refl _
      · exact List.suffix_refl _
  rw [strtoulEnd_eq hbase]
  exact ((List.dropWhile_suffix _).trans (hskip _)).trans hsign

/-- An array that is returned has its bracket. -/
theorem cellsLoop_ok {d : List (BitVec 8)} (h : cellsLoop s rest data = .ok d) :
    ∃ a ∈ s :: rest, 62 ∈ a := by
  induction s, rest, data using cellsLoop.induct with
  | case1 data =>
    rw [cellsLoop] at h
    exact absurd h (by simp)
  | case2 data a rest ih =>
    rw [cellsLoop] at h
    obtain ⟨b, hb, hin⟩ := ih h
    exact ⟨b, List.mem_cons_of_mem _ hb, hin⟩
  | case3 data cs rest => exact ⟨_, List.mem_cons_self, List.mem_cons_self⟩
  | case4 data c cs rest hclose r =>
    rename_i hstuck
    rw [cellsLoop, if_neg hclose] at h
    simp only [r] at hstuck
    simp only [hstuck, if_true] at h
    exact absurd h (by simp)
  | case5 data c cs rest hclose r hstuck =>
    rename_i ih
    rw [cellsLoop, if_neg hclose] at h
    simp only [r] at hstuck ih
    simp only [hstuck, if_false] at h
    obtain ⟨b, hb, hin⟩ := ih h
    rcases List.mem_cons.mp hb with rfl | hb
    · have hsuffix := (List.dropWhile_suffix (· == (32 : UInt8))).trans
        (strtoulEnd_suffix (.inl rfl) (c :: cs))
      exact ⟨_, List.mem_cons_self, hsuffix.mem hin⟩
    · exact ⟨b, List.mem_cons_of_mem _ hb, hin⟩

theorem bytesLoop_ok {d : List (BitVec 8)} (h : bytesLoop s rest data = .ok d) :
    ∃ a ∈ s :: rest, 93 ∈ a := by
  induction s, rest, data using bytesLoop.induct with
  | case1 data =>
    rw [bytesLoop] at h
    exact absurd h (by simp)
  | case2 data a rest ih =>
    rw [bytesLoop] at h
    obtain ⟨b, hb, hin⟩ := ih h
    exact ⟨b, List.mem_cons_of_mem _ hb, hin⟩
  | case3 data cs rest => exact ⟨_, List.mem_cons_self, List.mem_cons_self⟩
  | case4 data cs rest _ ih =>
    rw [bytesLoop, if_neg (by decide), if_pos rfl] at h
    obtain ⟨b, hb, hin⟩ := ih h
    rcases List.mem_cons.mp hb with rfl | hb
    · exact ⟨_, List.mem_cons_self, List.mem_cons_of_mem _ hin⟩
    · exact ⟨b, List.mem_cons_of_mem _ hb, hin⟩
  | case5 data c cs rest hclose hblank hdigit r ih =>
    rw [bytesLoop, if_neg hclose, if_neg hblank, dif_pos hdigit] at h
    simp only [r] at ih
    obtain ⟨b, hb, hin⟩ := ih h
    rcases List.mem_cons.mp hb with rfl | hb
    · exact ⟨_, List.mem_cons_self, (strtoulEnd_suffix (.inr (by decide)) _).mem hin⟩
    · exact ⟨b, List.mem_cons_of_mem _ hb, hin⟩
  | case6 data c cs rest hclose hblank hdigit =>
    rw [bytesLoop, if_neg hclose, if_neg hblank, dif_neg hdigit] at h
    exact absurd h (by simp)

/-! ## §6 When it is right -/

/-- The bracket is opened and not closed. -/
def Unclosed (args : List CStr) : Prop :=
  ∃ t rest, (args = (60 :: t) :: rest ∧ ∀ a ∈ t :: rest, 62 ∉ a) ∨
    (args = (91 :: t) :: rest ∧ ∀ a ∈ t :: rest, 93 ∉ a)

/-- No argument behind the last one is read, and a missing bracket is an error. -/
def Confined (args : List CStr) : Prop :=
  fdtParseProp args ≠ .outside ∧ (Unclosed args → fdtParseProp args = .err)

/-- There is an argument, and where a bracket is opened, not all of the text behind it is
    numbers. -/
def Ends (args : List CStr) : Prop :=
  args ≠ [] ∧ ∀ t rest,
    (args = (60 :: t) :: rest → ∃ a ∈ t :: rest, ¬CellNumbers a) ∧
      (args = (91 :: t) :: rest → ∃ a ∈ t :: rest, ¬ByteNumbers a)

/-- No argument of an array of cells begins with blanks that no number follows. -/
def Tight (v : PropValue) (args : List CStr) : Prop :=
  match v, args with
  | .cells _, (_ :: t) :: rest => ∀ a ∈ t :: rest, bare a = false
  | _, _ => True

theorem fdtParseProp_strings (hcell : s.head? ≠ some 60) (hbyte : s.head? ≠ some 91) :
    fdtParseProp (s :: rest) = .ok (stringsData (s :: rest)) := by
  cases s with
  | nil => rfl
  | cons c cs =>
    have h60 : c ≠ 60 := fun h => hcell (congrArg some h)
    have h91 : c ≠ 91 := fun h => hbyte (congrArg some h)
    simp [fdtParseProp, h60, h91]

theorem confined_iff (args : List CStr) : Confined args ↔ Ends args := by
  rcases args with - | ⟨newp, rest⟩
  · exact iff_of_false (fun h => h.1 rfl) fun h => h.1 rfl
  by_cases hcell : ∃ t, newp = 60 :: t
  · obtain ⟨t, rfl⟩ := hcell
    have hends : Ends ((60 :: t) :: rest) ↔ ¬∀ a ∈ t :: rest, CellNumbers a := by
      simp [Ends, or_iff_not_imp_left]
    have hrun : fdtParseProp ((60 :: t) :: rest) = cellsLoop t rest [] := rfl
    rw [hends, ← @cellsLoop_outside t rest [], Confined, hrun, and_iff_left_iff_imp]
    rintro hin ⟨t', rest', ⟨heq, hno⟩ | ⟨heq, -⟩⟩
    · obtain ⟨hfirst, rfl⟩ := List.cons.inj heq
      obtain ⟨-, rfl⟩ := List.cons.inj hfirst
      cases hout : cellsLoop t rest [] with
      | err => rfl
      | outside => exact absurd hout hin
      | ok d =>
        obtain ⟨a, ha, hbracket⟩ := cellsLoop_ok hout
        exact absurd hbracket (hno a ha)
    · exact absurd (List.cons.inj (List.cons.inj heq).1).1 (by decide)
  by_cases hbyte : ∃ t, newp = 91 :: t
  · obtain ⟨t, rfl⟩ := hbyte
    have hends : Ends ((91 :: t) :: rest) ↔ ¬∀ a ∈ t :: rest, ByteNumbers a := by
      simp [Ends, or_iff_not_imp_left]
    have hrun : fdtParseProp ((91 :: t) :: rest) = bytesLoop t rest [] := rfl
    rw [hends, ← @bytesLoop_outside t rest [], Confined, hrun, and_iff_left_iff_imp]
    rintro hin ⟨t', rest', ⟨heq, -⟩ | ⟨heq, hno⟩⟩
    · exact absurd (List.cons.inj (List.cons.inj heq).1).1 (by decide)
    · obtain ⟨hfirst, rfl⟩ := List.cons.inj heq
      obtain ⟨-, rfl⟩ := List.cons.inj hfirst
      cases hout : bytesLoop t rest [] with
      | err => rfl
      | outside => exact absurd hout hin
      | ok d =>
        obtain ⟨a, ha, hbracket⟩ := bytesLoop_ok hout
        exact absurd hbracket (hno a ha)
  · -- strings
    have hrun := @fdtParseProp_strings newp rest
      (fun h => hcell (List.head?_eq_some_iff.mp h)) fun h => hbyte (List.head?_eq_some_iff.mp h)
    refine iff_of_true ⟨by simp [hrun], ?_⟩ ⟨List.cons_ne_nil _ _, fun t rest' => ⟨?_, ?_⟩⟩
    · rintro ⟨t, rest', ⟨heq, -⟩ | ⟨heq, -⟩⟩
      · exact absurd ⟨t, (List.cons.inj heq).1⟩ hcell
      · exact absurd ⟨t, (List.cons.inj heq).1⟩ hbyte
    · exact fun heq => absurd ⟨t, (List.cons.inj heq).1⟩ hcell
    · exact fun heq => absurd ⟨t, (List.cons.inj heq).1⟩ hbyte

theorem given_iff {v : PropValue} {args : List CStr} (h : Given v args) :
    fdtParseProp args = .ok v.data ↔ Tight v args := by
  cases h with
  | @cells vals t rest hprinted =>
    obtain ⟨cells, hloop, hlen, hsame⟩ := @cellsLoop_printed _ _ [] _ hprinted
    rw [List.nil_append] at hloop
    have hrun : fdtParseProp ((60 :: t) :: rest) = .ok (cellsBytes cells) := hloop
    have hnone : (t :: rest).countP bare = 0 ↔ ∀ a ∈ t :: rest, bare a = false := by
      simp [List.countP_eq_zero]
    rw [hrun, Tight, ← hnone, Parsed.ok.injEq, PropValue.data]
    refine ⟨fun heq => ?_, fun hzero => by rw [hsame hzero]⟩
    have hbytes := congrArg List.length heq
    rw [length_cellsBytes, length_cellsBytes] at hbytes
    omega
  | @bytes vals t rest hprinted =>
    have hrun : fdtParseProp ((91 :: t) :: rest) = .ok vals := bytesLoop_printed hprinted
    exact iff_of_true hrun trivial
  | strings hcell hbyte => exact iff_of_true (fdtParseProp_strings hcell hbyte) trivial

/-- **`fdt_parse_prop`**: a value that is given by arguments comes out as its bytes exactly where
    no argument of an array of cells begins with blanks and no number behind them; and any
    arguments are read without going behind the last one, a missing bracket being an error, exactly
    where there is one, and behind an opening bracket not everything is numbers. -/
theorem fdtParseProp_exact (v : PropValue) (args : List CStr) :
    (Given v args → (fdtParseProp args = .ok v.data ↔ Tight v args)) ∧
      (Confined args ↔ Ends args) :=
  ⟨given_iff, confined_iff args⟩

/-- A number at the front of a text. -/
theorem printed_number {α : Type*} {Number : CStr → α → Prop} {v : α} {vals : List α}
    (text t : CStr) (hs : s = text ++ t) (hnum : Number text v)
    (hsep : ∀ c, t.head? = some c → c = 32 ∨ c = close)
    (h : Printed Number close vals t rest) : Printed Number close (v :: vals) s rest :=
  hs ▸ .number hnum hsep h

/-- A decimal digit, other than 0, is a cell. -/
theorem cellText_digit {d : UInt8} {v : BitVec 32} (hd : d ≠ 48) (hdigit : isDigitOf 10 d = true)
    (hv : digitsValue 10 0 [d] = v.toNat) : CellText [d] v :=
  ⟨10, [d], .decimal rfl hd (by simpa using hdigit), hv⟩

/-- `<1` and `2>`. -/
theorem given_oneTwo : Given (.cells [1, 2]) [[60, 49], [50, 62]] := by
  have hone : CellText [49] 1 := cellText_digit (by decide) (by decide) (by decide)
  have htwo : CellText [50] 2 := cellText_digit (by decide) (by decide) (by decide)
  refine .cells (printed_number [49] [] rfl hone (by simp) (.next ?_))
  exact printed_number [50] [62] rfl htwo (by simp) .close

theorem fdtParseProp_exact_oneTwo :
    (fdtParseProp [[60, 49], [50, 62]] = .ok (PropValue.cells [1, 2]).data ↔
      Tight (.cells [1, 2]) [[60, 49], [50, 62]]) ∧
    (Confined [[60, 49], [50, 62]] ↔ Ends [[60, 49], [50, 62]]) :=
  ⟨(fdtParseProp_exact _ _).1 given_oneTwo, (fdtParseProp_exact (.cells [1, 2]) _).2⟩

/-- **A missing bracket**: behind the only argument `<1` the next one is looked at; and `<1`, a
    blank and `2>` give three cells. -/
theorem missing_bracket :
    (Unclosed [[60, 49]] ∧ fdtParseProp [[60, 49]] = .outside) ∧
      Given (.cells [1, 2]) [[60, 49], [32], [50, 62]] ∧
        fdtParseProp [[60, 49], [32], [50, 62]] ≠ .ok (PropValue.cells [1, 2]).data := by
  have hgiven : Given (.cells [1, 2]) [[60, 49], [32], [50, 62]] := by
    have hone : CellText [49] 1 := cellText_digit (by decide) (by decide) (by decide)
    have htwo : CellText [50] 2 := cellText_digit (by decide) (by decide) (by decide)
    refine .cells (printed_number [49] [] rfl hone (by simp) (.next (.blank (.next ?_))))
    exact printed_number [50] [62] rfl htwo (by simp) .close
  refine ⟨⟨⟨[49], [], .inl ⟨rfl, by simp⟩⟩, ?_⟩, hgiven, ?_⟩
  · have hone : CellNumbers [49] := .number (by simp) (by decide) .nil
    exact cellsLoop_outside.mpr (by simpa using hone)
  · rw [ne_eq, given_iff hgiven]
    intro htight
    exact absurd (htight [32] (by simp)) (by decide)

end Pmon.Dtb
