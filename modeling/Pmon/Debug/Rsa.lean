import Pmon.Libc.Numbers

/-!
# Address expressions

`get_rsa_reg` of `pmon/common/rsa.c` evaluates an expression by cutting up its text: it takes off
enclosing parentheses, splits at the rightmost `+` or `-` outside parentheses, else at the rightmost
`*` or `/`, and evaluates both parts.  What is left is a number, a register, a symbol or an indirect
address.

A word is 64 bits wide (`register_t` of the LS2K configuration is `int64_t`).

## Key results

- `strrpsetLoop_eq`, `scan_append`: the search for an operator, and what it passes.
- `strbalp_paren`: the parenthesis that closes the first one.
-/

namespace Pmon.Debug

open Pmon.Libc

/-! ## §1 Searching -/

/-- `LINESZ`. -/
def rsaLinesz : ℕ := 200

/-- The counting loop of `strbalp`, which has come to index `i` with `n` parentheses open. -/
def strbalpLoop (b e : UInt8) : CStr → ℕ → ℤ → Option ℕ
  | [], _, _ => none
  | c :: p, i, n =>
    if c = b then strbalpLoop b e p (i + 1) (n + 1)
    else if c = e then if n - 1 = 0 then some i else strbalpLoop b e p (i + 1) (n - 1)
    else strbalpLoop b e p (i + 1) n

/-- What closes an opening parenthesis of `({[<`. -/
def closing (b : UInt8) : Option UInt8 :=
  if b = 40 then some 41
  else if b = 123 then some 125
  else if b = 91 then some 93
  else if b = 60 then some 62
  else none

/-- `strbalp`: the index of the parenthesis that closes the first character. -/
def strbalp (p : CStr) : Option ℕ :=
  match p with
  | [] => none
  | b :: _ => (closing b).bind fun e => strbalpLoop b e p 0 0

/-- The loop of `strrpset`, which goes back from the end: on the reversed string, `n` is the number of
    parentheses that have been opened less those that have been closed.  The first character is not
    looked at. -/
def strrpsetLoop (set : CStr) : CStr → ℤ → Option ℕ
  | [], _ => none
  | c :: str, n =>
    if str = [] then none
    else if c = 40 then strrpsetLoop set str (n + 1)
    else if c = 41 then strrpsetLoop set str (n - 1)
    else if c ∈ set ∧ n = 0 then some str.length
    else strrpsetLoop set str n

/-- `strrpset`: the index of the last character of the set outside parentheses. -/
def strrpset (str set : CStr) : Option ℕ := strrpsetLoop set str.reverse 0

/-! ## §2 `get_rsa_reg` -/

/-- The bases of `inbase`, in the order of its list of values. -/
inductive Inbase where
  | auto
  | oct
  | dec
  | hex
  deriving DecidableEq

/-- The base that `md_ator` is called with. -/
def Inbase.base : Inbase → ℕ
  | .auto => 0
  | .oct => 8
  | .dec => 10
  | .hex => 16

/-- What the evaluator looks up elsewhere: two variables of the environment (`none` for a value that
    is not listed), the memory, the registers and the symbols. -/
structure RsaEnv where
  inbase : Option Inbase
  /-- `inalpha`: whether a name is looked up as a symbol first. -/
  inalpha : Option Bool
  loadWord : BitVec 32 → BitVec 64
  mdGetreg : CStr → Option (BitVec 64)
  sym2adr : CStr → Option (BitVec 64)

/-- A value, an error, or a left operand that does not fit into `subexpr[LINESZ]`. -/
inductive RsaResult where
  | value (v : BitVec 64)
  | fails
  | overruns
  deriving DecidableEq

def RsaResult.ofOption : Option (BitVec 64) → RsaResult
  | some v => .value v
  | none => .fails

/-- `md_ator`. -/
def mdAtor (p : CStr) (base : ℕ) : Option (BitVec 64) := (llatob p base).map (BitVec.ofNat 64)

/-- A number: in the base of `inbase`, else in its own. -/
def rsaNumber (env : RsaEnv) (p : CStr) : RsaResult :=
  match env.inbase with
  | none => .fails
  | some b => .ofOption ((mdAtor p b.base).or (mdAtor p 0))

def isxdigit (c : UInt8) : Bool := isdigit c || (97 ≤ c && c ≤ 102) || (65 ≤ c && c ≤ 70)

/-- What is not compound and not indirect. -/
def rsaAtom (env : RsaEnv) (p : CStr) : RsaResult :=
  if p.head? = some 64 then .ofOption (env.mdGetreg (p.drop 1))
  else if p = [46] then .ofOption (env.mdGetreg (ascii "cpc"))
  else if p.head? = some 38 then .ofOption (env.sym2adr (p.drop 1))
  else if p.head?.any isdigit then rsaNumber env p
  else if p.head?.any isxdigit then
    match env.inalpha with
    | some false => .ofOption ((mdAtor p 16).or (env.sym2adr p))
    | some true => .ofOption ((env.sym2adr p).or (mdAtor p 16))
    | none => .fails
  else .ofOption (env.sym2adr p)

/-- The operators. -/
def rsaApply (op : UInt8) (v1 v2 : BitVec 64) : RsaResult :=
  if op = 43 then .value (v1 + v2)
  else if op = 45 then .value (v1 - v2)
  else if op = 42 then .value (v1 * v2)
  else if v2 = 0 then .fails
  else .value (v1.sdiv v2)

/-- Both sides of the operator at index `q`, by `rsa`; the left one is copied to `subexpr`. -/
def rsaCompound (rsa : CStr → RsaResult) (p : CStr) (q : ℕ) : RsaResult :=
  if rsaLinesz ≤ q then .overruns
  else
    match rsa (p.take q) with
    | .value v1 =>
      match rsa (p.drop (q + 1)) with
      | .value v2 => rsaApply (p.getD q 0) v1 v2
      | r => r
    | r => r

/-- `get_rsa_reg`.  Every call works on a shorter text; the loop at its start, which takes off the
    enclosing parentheses, is a call here too. -/
def rsaLoop (env : RsaEnv) : ℕ → CStr → RsaResult
  | 0, _ => .fails
  | fuel + 1, p =>
    if p.head? = some 40 ∧ strbalp p = some (p.length - 1) then
      rsaLoop env fuel (p.drop 1).dropLast
    else
      match strrpset p [43, 45] with
      | some q => rsaCompound (rsaLoop env fuel) p q
      | none =>
        match strrpset p [42, 47] with
        | some q => rsaCompound (rsaLoop env fuel) p q
        | none =>
          if p.head? = some 94 then
            match rsaLoop env fuel (p.drop 1) with
            | .value v2 => .value (env.loadWord (v2.setWidth 32))
            | r => r
          else rsaAtom env p

/-- `get_rsa_reg` with enough turns for every text. -/
def getRsaReg (env : RsaEnv) (p : CStr) : RsaResult := rsaLoop env (p.length + 1) p

/-! ## §3 What the searches pass -/

variable {set w w' rest : CStr} {n : ℤ} {c : UInt8}

/-- The search for an operator, the first character not left out. -/
def scan (set : CStr) : CStr → ℤ → Option ℕ
  | [], _ => none
  | c :: str, n =>
    if c = 40 then scan set str (n + 1)
    else if c = 41 then scan set str (n - 1)
    else if c ∈ set ∧ n = 0 then some str.length
    else scan set str n

theorem strrpsetLoop_eq (set w : CStr) (n : ℤ) :
    strrpsetLoop set w n = (scan set w n).filter (0 < ·) := by
  induction w generalizing n with
  | nil => rfl
  | cons c w ih =>
    rw [strrpsetLoop, scan]
    by_cases hw : w = []
    · subst hw
      simp only [if_true, scan]
      split
      · rfl
      · split
        · rfl
        · split <;> rfl
    · have hpos : 0 < w.length := List.length_pos_iff.mpr hw
      rw [if_neg hw, ih, ih, ih]
      split
      · rfl
      · split
        · rfl
        · split
          · rw [Option.filter_some, if_pos (decide_eq_true hpos)]
          · rfl

/-- The search passes a part of the text, with `n` before and after it. -/
def Passed (set : CStr) (w : CStr) (n : ℤ) : Prop :=
  ∀ rest, scan set (w.reverse ++ rest) n = scan set rest n

theorem Passed.append (h : Passed set w n) (h' : Passed set w' n) : Passed set (w ++ w') n := by
  intro rest
  rw [List.reverse_append, List.append_assoc, h', h]

theorem passed_char (h40 : c ≠ 40) (h41 : c ≠ 41) (hset : c ∉ set ∨ n ≠ 0) : Passed set [c] n := by
  intro rest
  have hno : ¬ (c ∈ set ∧ n = 0) := fun hand => hset.elim (fun h => h hand.1) fun h => h hand.2
  rw [List.reverse_singleton, List.singleton_append, scan, if_neg h40, if_neg h41, if_neg hno]

theorem passed_of_forall (h : ∀ c ∈ w, c ≠ 40 ∧ c ≠ 41 ∧ c ∉ set) : Passed set w n := by
  induction w with
  | nil => exact fun rest => rfl
  | cons c w ih =>
    obtain ⟨⟨h40, h41, hset⟩, hw⟩ := List.forall_mem_cons.mp h
    exact (passed_char h40 h41 (Or.inl hset)).append (ih hw)

/-- Parentheses are passed if what is in them is, one level down. -/
theorem Passed.paren (h : Passed set w (n - 1)) : Passed set (40 :: (w ++ [41])) n := by
  intro rest
  have hrev : (40 :: (w ++ [41])).reverse ++ rest = 41 :: (w.reverse ++ 40 :: rest) := by simp
  rw [hrev, scan, if_neg (by decide), if_pos rfl, h, scan, if_pos rfl, Int.sub_add_cancel]

/-- The search for a closing parenthesis passes a part of the text. -/
def Crossed (w : CStr) : Prop :=
  ∀ rest i n, 0 < n → strbalpLoop 40 41 (w ++ rest) i n = strbalpLoop 40 41 rest (i + w.length) n

theorem Crossed.append (h : Crossed w) (h' : Crossed w') : Crossed (w ++ w') := by
  intro rest i n hn
  rw [List.append_assoc, h _ _ _ hn, h' _ _ _ hn, List.length_append, Nat.add_assoc]

theorem crossed_char (h40 : c ≠ 40) (h41 : c ≠ 41) : Crossed [c] := by
  intro rest i n _
  rw [List.singleton_append, strbalpLoop, if_neg h40, if_neg h41, List.length_singleton]

theorem crossed_of_forall (h : ∀ c ∈ w, c ≠ 40 ∧ c ≠ 41) : Crossed w := by
  induction w with
  | nil => exact fun rest i n _ => rfl
  | cons c w ih =>
    obtain ⟨⟨h40, h41⟩, hw⟩ := List.forall_mem_cons.mp h
    exact (crossed_char h40 h41).append (ih hw)

theorem Crossed.paren (h : Crossed w) : Crossed (40 :: (w ++ [41])) := by
  intro rest i n hn
  have hsplit : 40 :: (w ++ [41]) ++ rest = 40 :: (w ++ 41 :: rest) := by simp
  have hback : ¬ n + 1 - 1 = 0 := by omega
  rw [hsplit, strbalpLoop, if_pos rfl, h _ _ _ (by omega), strbalpLoop, if_neg (by decide),
    if_pos rfl, if_neg hback, Int.add_sub_cancel, List.length_cons, List.length_append,
    List.length_singleton]
  congr 1
  omega

/-- **The closing parenthesis** of the first one. -/
theorem strbalp_paren (h : Crossed w) (rest : CStr) :
    strbalp (40 :: (w ++ 41 :: rest)) = some (w.length + 1) := by
  rw [strbalp, show closing 40 = some 41 by decide, Option.bind_some, strbalpLoop, if_pos rfl,
    h _ _ _ (by decide), strbalpLoop, if_neg (by decide), if_pos rfl, if_pos (by decide),
    Nat.add_comm]

end Pmon.Debug
