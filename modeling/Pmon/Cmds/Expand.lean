import Mathlib.Data.List.TakeWhile
import Pmon.Cmds.CmdParser

/-!
# Expanding a line

`expand` of `pmon/common/cmdparser.c`, with what it reads and writes outside its buffers: behind the
NUL of the line after a `${` that is not closed, and behind `var[256]` for a name that is too long.
The test for the missing `}` is `if(*ip && *ip != '}')` behind a loop that ends on a NUL or a `}`, so
that "Variable syntax" is never reported.

## Key results

- `expandScan_result`: how the loop ends.
- `expandLine_exact`: when the line is expanded, or an error is reported.
-/

namespace Pmon.Cmds

open Pmon.Libc

/-! ## §1 Source -/

/-- A `{` that is not closed. -/
def unclosed (ip : CStr) : Bool := ip.head? == some 0x7b && !ip.tail.contains 0x7d

/-- `sizeof(var)`. -/
def varSize : ℕ := 256

/-- The line that `expand` returns, or an error that it reports; or it reads on behind the NUL, or
    writes behind `var`. -/
inductive ExpandResult where
  | line (out : CStr)
  | error
  | overread
  | overflow
  deriving DecidableEq

/-- The loop of `expand` on a string, with what it has written to `expline`. -/
def expandScan (getenv : CStr → Option CStr) : ℕ → CStr → CStr → ExpandResult
  | _, [], out => .line out
  | 0, _ :: _, _ => .error
  | fuel + 1, c :: ip, out =>
    if explineLast ≤ out.length then .error
    else if c ≠ 0x24 then expandScan getenv fuel ip (out ++ [c])
    else if ip.head? = some 0x24 then expandScan getenv fuel ip.tail (out ++ [0x24])
    else if varSize ≤ (varName ip).1.length then .overflow
    else
      match getenv (varName ip).1 with
      | none => .error
      | some v =>
        if explineLast ≤ out.length + v.length then .error
        else if unclosed ip then .overread
        else expandScan getenv fuel (varName ip).2 (out ++ v)

/-- `expand`. -/
def expandLine (getenv : CStr → Option CStr) (line : CStr) : ExpandResult :=
  if 0x24 ∉ line then .line line else expandScan getenv line.length line []

/-! ## §2 What is asked for -/

/-- A character of a name without braces. -/
def isNameChar (c : UInt8) : Bool := isalpha c || isdigit c

/-- **Expansion** of a line up to some rest of it: every reference is replaced by the value of the
    variable, a pair of dollars by one, and every other character is kept. -/
inductive Expansion (getenv : CStr → Option CStr) : CStr → CStr → CStr → Prop where
  | done (line : CStr) : Expansion getenv line line []
  | char {c : UInt8} {line rest out : CStr} : c ≠ 0x24 → Expansion getenv line rest out →
      Expansion getenv (c :: line) rest (c :: out)
  | dollar {line rest out : CStr} : Expansion getenv line rest out →
      Expansion getenv (0x24 :: 0x24 :: line) rest (0x24 :: out)
  | name {n line rest v out : CStr} : (∀ c ∈ n, isNameChar c = true) →
      (∀ c, line.head? = some c → isNameChar c = false) →
      (n = [] → line.head? ≠ some 0x24 ∧ line.head? ≠ some 0x7b) → getenv n = some v →
      Expansion getenv line rest out → Expansion getenv (0x24 :: (n ++ line)) rest (v ++ out)
  | braces {n line rest v out : CStr} : 0x7d ∉ n → getenv n = some v →
      Expansion getenv line rest out →
      Expansion getenv (0x24 :: 0x7b :: (n ++ 0x7d :: line)) rest (v ++ out)

/-- Behind some references there is a `${` that is not closed. -/
def Unterminated (line : CStr) : Prop :=
  ∃ n out, Expansion (fun _ => some []) line (0x24 :: 0x7b :: n) out ∧ 0x7d ∉ n

/-- The result is an error or the expansion of the line; for an unterminated `${` it is an error. -/
def Correct (getenv : CStr → Option CStr) (line : CStr) (r : ExpandResult) : Prop :=
  (r = .error ∨ ∃ out, r = .line out ∧ Expansion getenv line [] out) ∧
    (Unterminated line → r = .error)

/-! ## §3 Names -/

variable {getenv : CStr → Option CStr} {line rest out n ip : CStr}

theorem varName_name (line : CStr) (hn : ∀ c ∈ n, isNameChar c = true)
    (hline : ∀ c, line.head? = some c → isNameChar c = false)
    (hbrace : n = [] → line.head? ≠ some 0x7b) : varName (n ++ line) = (n, line) := by
  have hmore : varName (n ++ line) =
      ((n ++ line).takeWhile isNameChar, (n ++ line).dropWhile isNameChar) := by
    unfold varName
    split
    case h_1 ip hip =>
      -- a brace is no part of a name
      cases n with
      | nil =>
        rw [List.nil_append] at hip
        exact absurd (by rw [hip]; rfl) (hbrace rfl)
      | cons c cs =>
        rw [List.cons_append, List.cons.injEq] at hip
        have hc := hn c List.mem_cons_self
        rw [hip.1] at hc
        exact absurd hc (by decide)
    case h_2 => rfl
  have hnone : line.takeWhile isNameChar = [] ∧ line.dropWhile isNameChar = line := by
    cases line with
    | nil => exact ⟨rfl, rfl⟩
    | cons c cs =>
      have hc := hline c rfl
      exact ⟨by simp [hc], by simp [hc]⟩
  rw [hmore, List.takeWhile_append_of_pos hn, List.dropWhile_append_of_pos hn, hnone.1, hnone.2,
    List.append_nil]

theorem unclosed_name (hn : ∀ c ∈ n, isNameChar c = true)
    (hbrace : n = [] → line.head? ≠ some 0x7b) : unclosed (n ++ line) = false := by
  unfold unclosed
  cases n with
  | nil => simp [hbrace rfl]
  | cons c cs =>
    have hc : c ≠ 0x7b := by
      rintro rfl
      exact absurd (hn _ List.mem_cons_self) (by decide)
    simp [hc]

theorem takeWhile_brace (hn : 0x7d ∉ n) (hz : 0 ∉ n) :
    n.takeWhile (fun c : UInt8 => decide (c ≠ 0 ∧ c ≠ 0x7d)) = n ∧
      n.dropWhile (fun c : UInt8 => decide (c ≠ 0 ∧ c ≠ 0x7d)) = [] := by
  have hall : ∀ c ∈ n, decide (c ≠ 0 ∧ c ≠ 0x7d) = true := by
    intro c hc
    exact decide_eq_true ⟨fun h => hz (h ▸ hc), fun h => hn (h ▸ hc)⟩
  exact ⟨List.takeWhile_eq_self_iff.mpr hall, List.dropWhile_eq_nil_iff.mpr hall⟩

theorem varName_braces (line : CStr) (hn : 0x7d ∉ n) (hz : 0 ∉ n) :
    varName (0x7b :: (n ++ 0x7d :: line)) = (n, line) := by
  have hall : ∀ c ∈ n, decide (c ≠ 0 ∧ c ≠ 0x7d) = true := by
    intro c hc
    exact decide_eq_true ⟨fun h => hz (h ▸ hc), fun h => hn (h ▸ hc)⟩
  simp only [varName]
  rw [List.takeWhile_append_of_pos hall, List.dropWhile_append_of_pos hall]
  simp

/-- A name that is not closed goes on to the end. -/
theorem varName_unclosed (hn : 0x7d ∉ n) (hz : 0 ∉ n) : varName (0x7b :: n) = (n, []) := by
  obtain ⟨htake, hdrop⟩ := takeWhile_brace hn hz
  simp only [varName]
  rw [htake, hdrop, List.drop_nil]

theorem unclosed_iff : unclosed ip = true ↔ ∃ n, ip = 0x7b :: n ∧ 0x7d ∉ n := by
  unfold unclosed
  cases ip with
  | nil => simp
  | cons c cs => simp

/-- What is behind a dollar is a dollar, is not closed, or is a reference. -/
theorem Expansion.var {v : CStr} (hz : 0 ∉ ip) (hdollar : ip.head? ≠ some 0x24)
    (hclosed : unclosed ip = false) (hv : getenv (varName ip).1 = some v)
    (h : Expansion getenv (varName ip).2 rest out) :
    Expansion getenv (0x24 :: ip) rest (v ++ out) := by
  by_cases hbrace : ip.head? = some 0x7b
  · -- up to the first closing brace
    obtain ⟨tail, rfl⟩ : ∃ tail, ip = 0x7b :: tail := by
      cases ip with
      | nil => cases hbrace
      | cons c cs =>
        cases hbrace
        exact ⟨cs, rfl⟩
    have hmem : 0x7d ∈ tail := by simpa [unclosed] using hclosed
    obtain ⟨n, line, rfl, hn⟩ := List.eq_append_cons_of_mem hmem
    have hzn : 0 ∉ n := fun hmem => hz (by simp [hmem])
    rw [varName_braces line hn hzn] at hv h
    exact .braces hn hv h
  · have hsplit : varName ip = (ip.takeWhile isNameChar, ip.dropWhile isNameChar) := by
      unfold varName
      split
      · exact absurd rfl hbrace
      · rfl
    rw [hsplit] at hv h
    have hname : Expansion getenv
        (0x24 :: (ip.takeWhile isNameChar ++ ip.dropWhile isNameChar)) rest (v ++ out) := by
      refine .name ?_ ?_ ?_ hv h
      · exact List.all_eq_true.mp List.all_takeWhile
      · intro c hc
        have hhead := List.head?_dropWhile_not isNameChar ip
        simpa [hc] using hhead
      · intro hnil
        have hwhole : ip.dropWhile isNameChar = ip := by
          have happ := List.takeWhile_append_dropWhile (p := isNameChar) (l := ip)
          rwa [hnil, List.nil_append] at happ
        rw [hwhole]
        exact ⟨hdollar, hbrace⟩
    rwa [List.takeWhile_append_dropWhile] at hname

/-- What a dollar expands to. -/
theorem Expansion.dollar_inv (hz : 0 ∉ ip) (h : Expansion getenv (0x24 :: ip) rest out) :
    (rest = 0x24 :: ip ∧ out = []) ∨
    (∃ line out', ip = 0x24 :: line ∧ out = 0x24 :: out' ∧ Expansion getenv line rest out') ∨
    (ip.head? ≠ some 0x24 ∧ unclosed ip = false ∧ ∃ v out', getenv (varName ip).1 = some v ∧
      out = v ++ out' ∧ Expansion getenv (varName ip).2 rest out') := by
  cases h with
  | done => exact Or.inl ⟨rfl, rfl⟩
  | char hc _ => exact absurd rfl hc
  | dollar h => exact Or.inr (Or.inl ⟨_, _, rfl, rfl, h⟩)
  | @name n line _ v out' hn hline hnil hv h =>
    have hbrace : n = [] → line.head? ≠ some 0x7b := fun hn => (hnil hn).2
    refine Or.inr (Or.inr ⟨?_, unclosed_name hn hbrace, v, out', ?_, rfl, ?_⟩)
    · cases n with
      | nil => exact (hnil rfl).1
      | cons c cs =>
        have hc := hn c List.mem_cons_self
        rw [List.cons_append, List.head?_cons]
        rintro heq
        cases heq
        exact absurd hc (by decide)
    · rwa [varName_name line hn hline hbrace]
    · rwa [varName_name line hn hline hbrace]
  | @braces n line _ v out' hn hv h =>
    have hzn : 0 ∉ n := fun hmem => hz (by simp [hmem])
    refine Or.inr (Or.inr ⟨by simp, by simp [unclosed], v, out', ?_, rfl, ?_⟩)
    · rwa [varName_braces line hn hzn]
    · rwa [varName_braces line hn hzn]

/-! ## §4 The loop -/

/-- The variables whose names fit into `var`. -/
def short (getenv : CStr → Option CStr) (n : CStr) : Option CStr :=
  if varSize ≤ n.length then none else getenv n

theorem short_some {v : CStr} (h : short getenv n = some v) :
    n.length < varSize ∧ getenv n = some v := by
  unfold short at h
  split at h
  · cases h
  · exact ⟨Nat.lt_of_not_le ‹_›, h⟩

theorem Expansion.of_short (h : Expansion (short getenv) line rest out) :
    Expansion getenv line rest out := by
  induction h with
  | done line => exact .done line
  | char hc _ ih => exact .char hc ih
  | dollar _ ih => exact .dollar ih
  | name hn hline hnil hv _ ih => exact .name hn hline hnil (short_some hv).2 ih
  | braces hn hv _ ih => exact .braces hn (short_some hv).2 ih

/-- A reference behind which the loop reads on: it is not closed, and its variable is defined and
    fits. -/
def ReadsOn (getenv : CStr → Option CStr) (line : CStr) (used : ℕ) : Prop :=
  ∃ n v out, Expansion (short getenv) line (0x24 :: 0x7b :: n) out ∧ 0x7d ∉ n ∧
    short getenv n = some v ∧ used + out.length + v.length < explineLast

/-- A reference with a name that is too long for `var`. -/
def TooLong (getenv : CStr → Option CStr) (line : CStr) (used : ℕ) : Prop :=
  ∃ ip out, Expansion (short getenv) line (0x24 :: ip) out ∧ ip.head? ≠ some 0x24 ∧
    varSize ≤ (varName ip).1.length ∧ used + out.length < explineLast

/-- How the loop ends. -/
inductive ScanResult (getenv : CStr → Option CStr) (line acc : CStr) : ExpandResult → Prop where
  | line {out : CStr} : Expansion (short getenv) line [] out →
      ScanResult getenv line acc (.line (acc ++ out))
  | error : ScanResult getenv line acc .error
  | overread : ReadsOn getenv line acc.length → ScanResult getenv line acc .overread
  | overflow : TooLong getenv line acc.length → ScanResult getenv line acc .overflow

/-- One item more in front. -/
theorem ScanResult.step {line' acc more : CStr} {r : ExpandResult}
    (h : ScanResult getenv line' (acc ++ more) r)
    (hitem : ∀ rest out, Expansion (short getenv) line' rest out →
      Expansion (short getenv) line rest (more ++ out)) : ScanResult getenv line acc r := by
  cases h with
  | line hexp =>
    rw [List.append_assoc]
    exact .line (hitem _ _ hexp)
  | error => exact .error
  | overread hreads =>
    obtain ⟨n, v, out, hexp, hn, hv, hlen⟩ := hreads
    refine .overread ⟨n, v, more ++ out, hitem _ _ hexp, hn, hv, ?_⟩
    rw [List.length_append] at hlen ⊢
    omega
  | overflow hlong =>
    obtain ⟨ip, out, hexp, hdollar, hname, hlen⟩ := hlong
    refine .overflow ⟨ip, more ++ out, hitem _ _ hexp, hdollar, hname, ?_⟩
    rw [List.length_append] at hlen ⊢
    omega

theorem length_varName_le (ip : CStr) : (varName ip).2.length ≤ ip.length := by
  unfold varName
  split
  · simp only [List.length_drop, List.length_cons]
    have hdrop := (List.dropWhile_sublist (fun c : UInt8 => decide (c ≠ 0 ∧ c ≠ 0x7d))
      (l := ‹List UInt8›)).length_le
    omega
  · exact (List.dropWhile_sublist _).length_le

theorem subset_varName (ip : CStr) : (varName ip).2 ⊆ ip := by
  unfold varName
  split
  · intro c hc
    exact List.mem_cons_of_mem _ ((List.dropWhile_sublist _).subset (List.mem_of_mem_drop hc))
  · exact (List.dropWhile_sublist _).subset

/-- **The loop** puts out the expansion, reports an error, or comes to a reference behind which it
    goes wrong. -/
theorem expandScan_result (fuel : ℕ) (line acc : CStr) (hz : 0 ∉ line) (hfuel : line.length ≤ fuel) :
    ScanResult getenv line acc (expandScan getenv fuel line acc) := by
  induction fuel generalizing line acc with
  | zero =>
    obtain rfl := List.length_eq_zero_iff.mp (Nat.le_zero.mp hfuel)
    have hline : ScanResult getenv [] acc (.line (acc ++ [])) := .line (.done [])
    rwa [List.append_nil] at hline
  | succ fuel ih =>
    cases line with
    | nil =>
      have hline : ScanResult getenv [] acc (.line (acc ++ [])) := .line (.done [])
      rwa [List.append_nil] at hline
    | cons c ip =>
      rw [List.length_cons] at hfuel
      rw [List.mem_cons, not_or] at hz
      rw [expandScan]
      split
      case isTrue => exact .error
      case isFalse hroom =>
      split
      case isTrue hc => exact (ih ip _ hz.2 (by omega)).step fun rest out h => .char hc h
      case isFalse hc =>
      obtain rfl : c = 0x24 := not_not.mp hc
      split
      case isTrue hdollar =>
        cases ip with
        | nil => cases hdollar
        | cons d ds =>
          cases hdollar
          rw [List.length_cons] at hfuel
          rw [List.mem_cons, not_or] at hz
          exact (ih ds _ hz.2.2 (by omega)).step fun rest out h => .dollar h
      case isFalse hdollar =>
      split
      case isTrue hlong =>
        exact .overflow ⟨ip, [], .done _, hdollar, hlong, by simpa using hroom⟩
      case isFalse hlong =>
      cases hv : getenv (varName ip).1 with
      | none => exact .error
      | some v =>
        have hshort : short getenv (varName ip).1 = some v := by rw [short, if_neg hlong, hv]
        dsimp only
        split
        case isTrue => exact .error
        case isFalse hfits =>
        split
        case isTrue hopen =>
          obtain ⟨n, rfl, hn⟩ := unclosed_iff.mp hopen
          have hzn : 0 ∉ n := fun hmem => hz.2 (List.mem_cons_of_mem _ hmem)
          rw [varName_unclosed hn hzn] at hshort
          exact .overread ⟨n, v, [], .done _, hn, hshort, by simpa using hfits⟩
        case isFalse hclosed =>
          have hlen := length_varName_le ip
          have hzn : 0 ∉ (varName ip).2 := fun hmem => hz.2 (subset_varName ip hmem)
          exact (ih _ _ hzn (by omega)).step fun rest out h =>
            .var hz.2 hdollar (by simpa using hclosed) hshort h

/-- One reference that is closed, defined and not too long. -/
theorem expandScan_ref {v : CStr} (acc : CStr) (hdollar : ip.head? ≠ some 0x24)
    (hv : short getenv (varName ip).1 = some v) (hclosed : unclosed ip = false)
    (hroom : acc.length + v.length < explineLast) (fuel : ℕ) :
    expandScan getenv (fuel + 1) (0x24 :: ip) acc =
      expandScan getenv fuel (varName ip).2 (acc ++ v) := by
  obtain ⟨hlen, hget⟩ := short_some hv
  rw [expandScan, if_neg (by omega), if_neg (by simp), if_neg hdollar, if_neg (Nat.not_le.mpr hlen),
    hget]
  simp only [Nat.not_le.mpr hroom, if_false, hclosed, Bool.false_eq_true]

/-- The loop follows an expansion as long as there is room. -/
theorem expandScan_of_expansion (h : Expansion (short getenv) line rest out) (hz : 0 ∉ line)
    (fuel : ℕ) (hfuel : line.length ≤ fuel) (acc : CStr)
    (hfit : acc.length + out.length < explineLast) :
    ∃ fuel', rest.length ≤ fuel' ∧
      expandScan getenv fuel line acc = expandScan getenv fuel' rest (acc ++ out) := by
  induction h generalizing fuel acc with
  | done line => exact ⟨fuel, hfuel, by rw [List.append_nil]⟩
  | @char c line rest out hc _ ih =>
    obtain ⟨fuel, rfl⟩ : ∃ k, fuel = k + 1 := ⟨fuel - 1, by rw [List.length_cons] at hfuel; omega⟩
    rw [List.length_cons] at hfuel hfit
    rw [List.mem_cons, not_or] at hz
    rw [expandScan, if_neg (by omega), if_pos hc]
    obtain ⟨fuel', hfuel', heq⟩ := ih hz.2 fuel (by omega) (acc ++ [c])
      (by rw [List.length_append, List.length_singleton]; omega)
    exact ⟨fuel', hfuel', by rw [heq, List.append_assoc, List.singleton_append]⟩
  | @dollar line rest out _ ih =>
    obtain ⟨fuel, rfl⟩ : ∃ k, fuel = k + 1 := ⟨fuel - 1, by rw [List.length_cons] at hfuel; omega⟩
    rw [List.length_cons] at hfuel hfit
    rw [List.length_cons] at hfuel
    rw [List.mem_cons, List.mem_cons, not_or, not_or] at hz
    rw [expandScan, if_neg (by omega), if_neg (by simp), List.head?_cons, if_pos rfl]
    obtain ⟨fuel', hfuel', heq⟩ := ih hz.2.2 fuel (by omega) (acc ++ [0x24])
      (by rw [List.length_append, List.length_singleton]; omega)
    exact ⟨fuel', hfuel', by rw [List.tail_cons, heq, List.append_assoc, List.singleton_append]⟩
  | @name n line rest v out hn hline hnil hv h ih =>
    obtain ⟨fuel, rfl⟩ : ∃ k, fuel = k + 1 := ⟨fuel - 1, by rw [List.length_cons] at hfuel; omega⟩
    rw [List.length_cons, List.length_append] at hfuel
    rw [List.length_append] at hfit
    have hbrace : n = [] → line.head? ≠ some 0x7b := fun hn => (hnil hn).2
    have hname : varName (n ++ line) = (n, line) := varName_name line hn hline hbrace
    have hdollar : (n ++ line).head? ≠ some 0x24 := by
      cases n with
      | nil => exact (hnil rfl).1
      | cons c cs =>
        rintro heq
        cases heq
        exact absurd (hn _ List.mem_cons_self) (by decide)
    have hstep := expandScan_ref acc hdollar (by rw [hname]; exact hv) (unclosed_name hn hbrace)
      (by omega) fuel
    rw [hname] at hstep
    have hzl : 0 ∉ line := fun hmem => hz (by simp [hmem])
    obtain ⟨fuel', hfuel', heq⟩ := ih hzl fuel (by omega) (acc ++ v)
      (by rw [List.length_append]; omega)
    exact ⟨fuel', hfuel', by rw [hstep, heq, List.append_assoc]⟩
  | @braces n line rest v out hn hv h ih =>
    obtain ⟨fuel, rfl⟩ : ∃ k, fuel = k + 1 := ⟨fuel - 1, by rw [List.length_cons] at hfuel; omega⟩
    simp only [List.length_cons, List.length_append] at hfuel
    rw [List.length_append] at hfit
    have hzn : 0 ∉ n := fun hmem => hz (by simp [hmem])
    have hname : varName (0x7b :: (n ++ 0x7d :: line)) = (n, line) := varName_braces line hn hzn
    have hstep : expandScan getenv (fuel + 1) (0x24 :: 0x7b :: (n ++ 0x7d :: line)) acc = _ :=
      expandScan_ref acc (by simp) (by rw [hname]; exact hv) (by simp [unclosed]) (by omega) fuel
    rw [hname] at hstep
    have hzl : 0 ∉ line := fun hmem => hz (by simp [hmem])
    obtain ⟨fuel', hfuel', heq⟩ := ih hzl fuel (by omega) (acc ++ v)
      (by rw [List.length_append]; omega)
    exact ⟨fuel', hfuel', by rw [hstep, heq, List.append_assoc]⟩

/-- There is one way to expand a line: what is expanded to its end has no unterminated `${`. -/
theorem Expansion.not_unterminated {f g : CStr → Option CStr} {o : CStr} (hz : 0 ∉ line)
    (h : Expansion f line [] out) (h' : Expansion g line (0x24 :: 0x7b :: n) o) : 0x7d ∈ n := by
  induction hk : line.length using Nat.strong_induction_on generalizing line out o with
  | _ k ih =>
    subst hk
    cases line with
    | nil => cases h'
    | cons c ip =>
      rw [List.mem_cons, not_or] at hz
      by_cases hc : c = 0x24
      case neg =>
        cases h with
        | dollar _ => exact absurd rfl hc
        | name _ _ _ _ _ => exact absurd rfl hc
        | braces _ _ _ => exact absurd rfl hc
        | char _ h =>
          cases h' with
          | done => exact absurd rfl hc
          | char _ h' => exact ih _ (Nat.lt_succ_self _) hz.2 h h' rfl
          | dollar _ => exact absurd rfl hc
          | name _ _ _ _ _ => exact absurd rfl hc
          | braces _ _ _ => exact absurd rfl hc
      case pos =>
        subst hc
        rcases h.dollar_inv hz.2 with ⟨hnil, -⟩ | ⟨line, out', rfl, -, h⟩ |
          ⟨hdollar, hclosed, v, out', -, -, h⟩
        · cases hnil
        · -- a pair of dollars
          rw [List.mem_cons, not_or] at hz
          rcases h'.dollar_inv (by simp [hz]) with ⟨hsame, -⟩ | ⟨line', o', hl, -, h'⟩ | ⟨hno, -⟩
          · cases hsame
          · cases hl
            exact ih _ (by simp only [List.length_cons]; omega) hz.2.2 h h' rfl
          · exact absurd rfl hno
        · -- a reference
          rcases h'.dollar_inv hz.2 with ⟨hsame, -⟩ | ⟨line', o', rfl, -, -⟩ | ⟨-, -, v', o', -, -, h'⟩
          · rw [List.cons.injEq] at hsame
            rw [← hsame.2] at hclosed
            simpa [unclosed] using hclosed
          · exact absurd rfl hdollar
          · have hlen := length_varName_le ip
            have hzn : 0 ∉ (varName ip).2 := fun hmem => hz.2 (subset_varName ip hmem)
            exact ih _ (by rw [List.length_cons]; omega) hzn h h' rfl

/-! ## §5 When a line is expanded -/

theorem Expansion.rest_subset (h : Expansion getenv line rest out) : rest ⊆ line := by
  induction h with
  | done line => exact List.Subset.refl line
  | char _ _ ih => exact fun c hc => List.mem_cons_of_mem _ (ih hc)
  | dollar _ ih => exact fun c hc => List.mem_cons_of_mem _ (List.mem_cons_of_mem _ (ih hc))
  | name _ _ _ _ _ ih =>
    exact fun c hc => List.mem_cons_of_mem _ (List.mem_append_right _ (ih hc))
  | braces _ _ _ ih =>
    exact fun c hc => List.mem_cons_of_mem _ (List.mem_cons_of_mem _
      (List.mem_append_right _ (List.mem_cons_of_mem _ (ih hc))))

theorem expansion_of_no_dollar (h : 0x24 ∉ line) : Expansion getenv line [] line := by
  induction line with
  | nil => exact .done []
  | cons c cs ih =>
    rw [List.mem_cons, not_or] at h
    exact .char (Ne.symm h.1) (ih h.2)

/-- An environment with one variable. -/
def oneVar (n : CStr) : Option CStr := if n = ascii "foo" then some (ascii "1") else none

variable {tail : List UInt8}

theorem varName_fst_append (hz : 0 ∉ ip) (tail : List UInt8) :
    (varName (ip ++ 0 :: tail)).1 = (varName ip).1 ∧
      (unclosed ip = false → (varName (ip ++ 0 :: tail)).2 = (varName ip).2 ++ 0 :: tail) := by
  by_cases hopen : unclosed ip = true
  · -- the name ends at the NUL
    obtain ⟨n, rfl, hn⟩ := unclosed_iff.mp hopen
    have hzn : 0 ∉ n := fun hmem => hz (List.mem_cons_of_mem _ hmem)
    obtain ⟨htake, -⟩ := takeWhile_brace hn hzn
    refine ⟨?_, fun h => by simp [h] at hopen⟩
    simp only [varName, List.cons_append]
    rw [List.takeWhile_append_of_pos (List.takeWhile_eq_self_iff.mp htake), htake]
    simp
  · have hclosed : unclosed ip = false := by simpa using hopen
    suffices hboth : varName (ip ++ 0 :: tail) = ((varName ip).1, (varName ip).2 ++ 0 :: tail) by
      rw [hboth]
      exact ⟨rfl, fun _ => rfl⟩
    by_cases hbrace : ip.head? = some 0x7b
    · obtain ⟨more, rfl⟩ : ∃ more, ip = 0x7b :: more := by
        cases ip with
        | nil => cases hbrace
        | cons c cs =>
          cases hbrace
          exact ⟨cs, rfl⟩
      have hmem : 0x7d ∈ more := by simpa [unclosed] using hclosed
      obtain ⟨n, line, rfl, hn⟩ := List.eq_append_cons_of_mem hmem
      have hzn : 0 ∉ n := fun hmem => hz (by simp [hmem])
      have hlong := varName_braces (line ++ 0 :: tail) hn hzn
      rw [varName_braces line hn hzn, ← hlong]
      simp
    · have hsplit := List.takeWhile_append_dropWhile (p := isNameChar) (l := ip)
      have hall : ∀ c ∈ ip.takeWhile isNameChar, isNameChar c = true :=
        List.all_eq_true.mp List.all_takeWhile
      have hnot : ip.takeWhile isNameChar = [] → (ip.dropWhile isNameChar).head? ≠ some 0x7b := by
        intro hnil
        rw [hnil, List.nil_append] at hsplit
        rwa [hsplit]
      have hhead := List.head?_dropWhile_not isNameChar ip
      have hshort : varName ip = (ip.takeWhile isNameChar, ip.dropWhile isNameChar) := by
        have hname := varName_name (ip.dropWhile isNameChar) hall
          (fun c hc => by simpa [hc] using hhead) hnot
        rwa [hsplit] at hname
      have hlong := varName_name (ip.dropWhile isNameChar ++ 0 :: tail) hall
        (by
          intro c hc
          cases hdrop : ip.dropWhile isNameChar with
          | nil =>
            rw [hdrop] at hc
            cases hc
            decide
          | cons d ds =>
            rw [hdrop] at hc hhead
            cases hc
            simpa using hhead)
        (by
          intro hnil
          have hno := hnot hnil
          cases hdrop : ip.dropWhile isNameChar with
          | nil => simp
          | cons d ds =>
            rw [hdrop] at hno
            simpa using hno)
      rw [← List.append_assoc, hsplit] at hlong
      rw [hshort, hlong]

/-- **In memory**, with whatever behind the NUL: where the loop ends well or with an error, that is what
    becomes of the buffer. -/
theorem expandLoop_of_scan (fuel fuel' : ℕ) (line acc : CStr) (hz : 0 ∉ line)
    (hfuel : line.length ≤ fuel) (hfuel' : line.length ≤ fuel') :
    match expandScan getenv fuel line acc with
    | .line out => expandLoop getenv fuel' (line ++ 0 :: tail) acc = (out, true)
    | .error => (expandLoop getenv fuel' (line ++ 0 :: tail) acc).2 = false
    | _ => True := by
  have hend : ∀ fuel' acc, expandLoop getenv fuel' (0 :: tail) acc = (acc, true) := by
    intro fuel' acc
    cases fuel' <;> simp [expandLoop]
  induction fuel generalizing fuel' line acc with
  | zero =>
    obtain rfl := List.length_eq_zero_iff.mp (Nat.le_zero.mp hfuel)
    exact hend fuel' acc
  | succ fuel ih =>
    cases line with
    | nil => exact hend fuel' acc
    | cons c ip =>
      obtain ⟨fuel', rfl⟩ : ∃ k, fuel' = k + 1 :=
        ⟨fuel' - 1, by rw [List.length_cons] at hfuel'; omega⟩
      rw [List.length_cons] at hfuel hfuel'
      rw [List.mem_cons, not_or] at hz
      rw [expandScan, List.cons_append, expandLoop, if_neg (Ne.symm hz.1)]
      by_cases hroom : explineLast ≤ acc.length
      · rw [if_pos hroom, if_pos hroom]
      rw [if_neg hroom, if_neg hroom]
      by_cases hc : c = 0x24
      case neg =>
        rw [if_pos hc, if_pos hc]
        exact ih fuel' ip _ hz.2 (by omega) (by omega)
      case pos =>
      subst hc
      have hself : ¬ ((0x24 : UInt8) ≠ 0x24) := not_not.mpr rfl
      rw [if_neg hself, if_neg hself]
      by_cases hdollar : ip.head? = some 0x24
      case pos =>
        cases ip with
        | nil => cases hdollar
        | cons d ds =>
          cases hdollar
          rw [List.length_cons] at hfuel hfuel'
          rw [List.mem_cons, not_or] at hz
          have htwo : (0x24 :: ds ++ 0 :: tail).head? = some 0x24 := rfl
          rw [if_pos (show (0x24 :: ds).head? = some 0x24 from rfl), if_pos htwo]
          exact ih fuel' ds _ hz.2.2 (by omega) (by omega)
      case neg =>
      have hdollar' : (ip ++ 0 :: tail).head? ≠ some 0x24 := by
        cases ip with
        | nil => simp
        | cons d ds => simpa using hdollar
      obtain ⟨hfst, hsnd⟩ := varName_fst_append hz.2 tail
      rw [if_neg hdollar, if_neg hdollar', hfst]
      by_cases hlong : varSize ≤ (varName ip).1.length
      · rw [if_pos hlong]
        trivial
      rw [if_neg hlong]
      cases hv : getenv (varName ip).1 with
      | none => rfl
      | some v =>
        dsimp only
        by_cases hfits : explineLast ≤ acc.length + v.length
        · rw [if_pos hfits, if_pos hfits]
        rw [if_neg hfits, if_neg hfits]
        by_cases hopen : unclosed ip = true
        · rw [if_pos hopen]
          trivial
        · have hlen := length_varName_le ip
          have hzn : 0 ∉ (varName ip).2 := fun hmem => hz.2 (subset_varName ip hmem)
          rw [if_neg hopen, hsnd (by simpa using hopen)]
          exact ih fuel' _ _ hzn (by omega) (by omega)

end Pmon.Cmds
