import Pmon.Debug.Rsa

/-!
# Evaluating the text of an expression

The expressions are sums of products of factors; a factor is a number or a sum in parentheses.
Evaluating the text of one gives its value, computed in signed words.

## Key results

- `rsaLoop_agrees`: the evaluator on the text of an expression, by induction on the expression.
- `getRsaReg_exact`: the value, and when the evaluation fails.
-/

namespace Pmon.Debug

open Pmon.Libc

/-! ## §1 Numbers in the text -/

/-- A number that begins with a digit: hexadecimal digits, with or without a leading `0x`. -/
structure Literal where
  lead : CStr
  digits : CStr
  lead_eq : lead = [] ∨ lead = ascii "0x" ∨ lead = ascii "0X"
  digits_ne : digits ≠ []
  isHex : IsNumeral 16 digits
  first : lead = [] → digits.head?.any isdigit = true

def Literal.print (l : Literal) : CStr := l.lead ++ l.digits

/-- What a number stands for: with a leading `0x` or where `inbase` is 16 a hexadecimal number, where
    it is 8 an octal one if it can be, and else a decimal one. -/
def Literal.number (b : Inbase) (l : Literal) : Option ℕ :=
  if l.lead ≠ [] ∨ b = .hex then some (numeralValue 16 l.digits)
  else if b = .oct ∧ IsNumeral 8 l.digits then some (numeralValue 8 l.digits)
  else if IsNumeral 10 l.digits then some (numeralValue 10 l.digits)
  else none

/-! ## §2 Expressions -/

inductive Level where
  | sum
  | term
  | factor

inductive MulOp where
  | times
  | divided

inductive AddOp where
  | plus
  | minus

/-- Expressions by the precedence of their outermost operator; both kinds of operators take what is
    of the same precedence on the left. -/
inductive Expr : Level → Type where
  | lit (l : Literal) : Expr .factor
  | paren (e : Expr .sum) : Expr .factor
  | factor (f : Expr .factor) : Expr .term
  | mul (op : MulOp) (t : Expr .term) (f : Expr .factor) : Expr .term
  | term (t : Expr .term) : Expr .sum
  | add (op : AddOp) (s : Expr .sum) (t : Expr .term) : Expr .sum

def MulOp.char : MulOp → UInt8
  | .times => 42
  | .divided => 47

def AddOp.char : AddOp → UInt8
  | .plus => 43
  | .minus => 45

/-- The text. -/
def Expr.print : {l : Level} → Expr l → CStr
  | _, .lit l => l.print
  | _, .paren e => 40 :: (e.print ++ [41])
  | _, .factor f => f.print
  | _, .mul op t f => t.print ++ op.char :: f.print
  | _, .term t => t.print
  | _, .add op s t => s.print ++ op.char :: t.print

/-- A number as a signed word. -/
def wrap (z : ℤ) : ℤ := z.bmod (2 ^ 64)

/-- Division truncates, and there is none by zero. -/
def MulOp.apply : MulOp → ℤ → ℤ → Option ℤ
  | .times, a, b => some (wrap (a * b))
  | .divided, a, b => if b = 0 then none else some (wrap (a.tdiv b))

def AddOp.apply : AddOp → ℤ → ℤ → ℤ
  | .plus, a, b => wrap (a + b)
  | .minus, a, b => wrap (a - b)

/-- **The value of an expression**, in signed words. -/
def Expr.eval (b : Inbase) : {l : Level} → Expr l → Option ℤ
  | _, .lit l => (l.number b).map fun n : ℕ => wrap n
  | _, .paren e => e.eval b
  | _, .factor f => f.eval b
  | _, .mul op t f => (t.eval b).bind fun x => (f.eval b).bind fun y => op.apply x y
  | _, .term t => t.eval b
  | _, .add op s t => (s.eval b).bind fun x => (t.eval b).map fun y => op.apply x y

/-- Some number cannot be read in the base. -/
def Expr.Unreadable (b : Inbase) : {l : Level} → Expr l → Prop
  | _, .lit l => l.number b = none
  | _, .paren e => e.Unreadable b
  | _, .factor f => f.Unreadable b
  | _, .mul _ t f => t.Unreadable b ∨ f.Unreadable b
  | _, .term t => t.Unreadable b
  | _, .add _ s t => s.Unreadable b ∨ t.Unreadable b

/-- Some division has a divisor that is zero. -/
def Expr.DividesByZero (b : Inbase) : {l : Level} → Expr l → Prop
  | _, .lit _ => False
  | _, .paren e => e.DividesByZero b
  | _, .factor f => f.DividesByZero b
  | _, .mul .times t f => t.DividesByZero b ∨ f.DividesByZero b
  | _, .mul .divided t f => t.DividesByZero b ∨ f.DividesByZero b ∨ f.eval b = some 0
  | _, .term t => t.DividesByZero b
  | _, .add _ s t => s.DividesByZero b ∨ t.DividesByZero b

/-- Every left operand fits into `subexpr[LINESZ]`. -/
def Expr.Fits : {l : Level} → Expr l → Prop
  | _, .lit _ => True
  | _, .paren e => e.Fits
  | _, .factor f => f.Fits
  | _, .mul _ t f => t.print.length < rsaLinesz ∧ t.Fits ∧ f.Fits
  | _, .term t => t.Fits
  | _, .add _ s t => s.print.length < rsaLinesz ∧ s.Fits ∧ t.Fits

/-- An expression has no value if and only if a number cannot be read or something is divided by
    zero. -/
theorem eval_eq_none {b : Inbase} {l : Level} (e : Expr l) :
    e.eval b = none ↔ e.Unreadable b ∨ e.DividesByZero b := by
  induction e with
  | lit l => rw [Expr.eval, Option.map_eq_none_iff, Expr.Unreadable, Expr.DividesByZero, or_false]
  | paren e ih => exact ih
  | factor f ih => exact ih
  | term t ih => exact ih
  | add op s t ihs iht =>
    rw [Expr.eval, Expr.Unreadable, Expr.DividesByZero]
    cases hs : s.eval b with
    | none =>
      have hwhy := ihs.mp hs
      simp only [Option.bind_none, true_iff]
      exact hwhy.imp Or.inl Or.inl
    | some x =>
      have hsno : ¬ (s.Unreadable b ∨ s.DividesByZero b) := fun h => by simp [ihs.mpr h] at hs
      rw [not_or] at hsno
      simp only [Option.bind_some, Option.map_eq_none_iff, iht, hsno.1, hsno.2, false_or]
  | mul op t f iht ihf =>
    rw [Expr.eval, Expr.Unreadable]
    cases ht : t.eval b with
    | none =>
      have hwhy := iht.mp ht
      simp only [Option.bind_none, true_iff]
      cases op <;> exact hwhy.imp Or.inl Or.inl
    | some x =>
      have htno : ¬ (t.Unreadable b ∨ t.DividesByZero b) := fun h => by simp [iht.mpr h] at ht
      rw [not_or] at htno
      cases hf : f.eval b with
      | none =>
        have hwhy := ihf.mp hf
        simp only [Option.bind_some, Option.bind_none, true_iff, htno.1, false_or]
        refine hwhy.imp_right fun hzero => ?_
        cases op with
        | times => exact Or.inr hzero
        | divided => exact Or.inr (Or.inl hzero)
      | some y =>
        have hfno : ¬ (f.Unreadable b ∨ f.DividesByZero b) := fun h => by simp [ihf.mpr h] at hf
        rw [not_or] at hfno
        cases op with
        | times => simp [MulOp.apply, Expr.DividesByZero, htno, hfno]
        | divided => simp [MulOp.apply, Expr.DividesByZero, htno, hfno, hf]

/-! ## §3 The text of an expression -/

/-- A character of a number is neither a parenthesis nor an operator. -/
theorem Literal.plain (l : Literal) :
    ∀ c ∈ l.print, c ≠ 40 ∧ c ≠ 41 ∧ c ∉ [43, 45] ∧ c ∉ [42, 47] := by
  intro c hc
  rcases List.mem_append.mp hc with hlead | hdigits
  · have hall : ∀ c ∈ ascii "0x" ++ ascii "0X", c ≠ 40 ∧ c ≠ 41 ∧
        c ∉ [43, 45] ∧ c ∉ [42, 47] := by decide +kernel
    apply hall
    rcases l.lead_eq with h | h | h <;> rw [h] at hlead
    · cases hlead
    · exact List.mem_append_left _ hlead
    · exact List.mem_append_right _ hlead
  · have hno : ∀ d, digitOf d = none → c ≠ d := by
      rintro d hd rfl
      exact l.isHex.not_mem hd hdigits
    simp only [List.mem_cons, List.not_mem_nil, or_false, not_or]
    exact ⟨hno 40 (by decide), hno 41 (by decide), ⟨hno 43 (by decide), hno 45 (by decide)⟩,
      hno 42 (by decide), hno 47 (by decide)⟩

theorem AddOp.char_ne (op : AddOp) : op.char ≠ 40 ∧ op.char ≠ 41 := by
  cases op <;> decide

theorem MulOp.char_ne (op : MulOp) : op.char ≠ 40 ∧ op.char ≠ 41 := by
  cases op <;> decide

/-- Where `n` is not 0 the search for an operator passes every expression. -/
theorem passed_inside {set : CStr} (hset : set = [43, 45] ∨ set = [42, 47]) {l : Level}
    (e : Expr l) : ∀ n < 0, Passed set e.print n := by
  induction e with
  | lit l =>
    intro n _
    apply passed_of_forall
    intro c hc
    obtain ⟨h40, h41, hadd, hmul⟩ := l.plain c hc
    rcases hset with rfl | rfl
    · exact ⟨h40, h41, hadd⟩
    · exact ⟨h40, h41, hmul⟩
  | paren e ih => exact fun n hn => (ih (n - 1) (by omega)).paren
  | factor f ih => exact ih
  | term t ih => exact ih
  | mul op t f iht ihf =>
    intro n hn
    have hop : Passed set [op.char] n :=
      passed_char op.char_ne.1 op.char_ne.2 (Or.inr (Int.ne_of_lt hn))
    exact (iht n hn).append (hop.append (ihf n hn))
  | add op s t ihs iht =>
    intro n hn
    have hop : Passed set [op.char] n :=
      passed_char op.char_ne.1 op.char_ne.2 (Or.inr (Int.ne_of_lt hn))
    exact (ihs n hn).append (hop.append (iht n hn))

theorem passed_literal {set : CStr} (hset : set = [43, 45] ∨ set = [42, 47]) (l : Literal) :
    Passed set l.print 0 := by
  apply passed_of_forall
  intro c hc
  obtain ⟨h40, h41, hadd, hmul⟩ := l.plain c hc
  rcases hset with rfl | rfl
  · exact ⟨h40, h41, hadd⟩
  · exact ⟨h40, h41, hmul⟩

/-- Outside parentheses the search passes every factor. -/
theorem passed_factor {set : CStr} (hset : set = [43, 45] ∨ set = [42, 47]) (f : Expr .factor) :
    Passed set f.print 0 := by
  cases f with
  | lit l => exact passed_literal hset l
  | paren e => exact (passed_inside hset e _ (by decide)).paren

/-- The search for `+` and `-` passes every product. -/
theorem passed_term (t : Expr .term) : Passed [43, 45] t.print 0 := by
  match t with
  | .factor f => exact passed_factor (Or.inl rfl) f
  | .mul op t f =>
    have hop : Passed [43, 45] [op.char] 0 :=
      passed_char op.char_ne.1 op.char_ne.2 (Or.inl (by cases op <;> decide))
    exact (passed_term t).append (hop.append (passed_factor (Or.inl rfl) f))

theorem crossed_expr {l : Level} (e : Expr l) : Crossed e.print := by
  induction e with
  | lit l => exact crossed_of_forall fun c hc => ⟨(l.plain c hc).1, (l.plain c hc).2.1⟩
  | paren e ih => exact ih.paren
  | factor f ih => exact ih
  | term t ih => exact ih
  | mul op t f iht ihf => exact iht.append ((crossed_char op.char_ne.1 op.char_ne.2).append ihf)
  | add op s t ihs iht => exact ihs.append ((crossed_char op.char_ne.1 op.char_ne.2).append iht)

theorem Literal.print_ne_nil (l : Literal) : l.print ≠ [] := by
  unfold Literal.print
  simp [l.digits_ne]

/-- A number begins with a digit. -/
theorem Literal.head (l : Literal) : l.print.head?.any isdigit = true := by
  unfold Literal.print
  rcases l.lead_eq with h | h | h
  · rw [h, List.nil_append]
    exact l.first h
  · rw [h]
    rfl
  · rw [h]
    rfl

/-- Every expression begins with a factor. -/
theorem exists_factor {l : Level} (e : Expr l) :
    ∃ (f : Expr .factor) (rest : CStr), e.print = f.print ++ rest := by
  induction e with
  | lit l => exact ⟨.lit l, [], (List.append_nil _).symm⟩
  | paren e _ => exact ⟨.paren e, [], (List.append_nil _).symm⟩
  | factor f ih => exact ih
  | term t ih => exact ih
  | mul op t f iht _ =>
    obtain ⟨g, rest, hg⟩ := iht
    exact ⟨g, rest ++ op.char :: f.print, by rw [Expr.print, hg, List.append_assoc]⟩
  | add op s t ihs _ =>
    obtain ⟨g, rest, hg⟩ := ihs
    exact ⟨g, rest ++ op.char :: t.print, by rw [Expr.print, hg, List.append_assoc]⟩

theorem print_ne_nil {l : Level} (e : Expr l) : e.print ≠ [] := by
  obtain ⟨f, rest, hf⟩ := exists_factor e
  rw [hf]
  cases f with
  | lit l => simp [Expr.print, l.print_ne_nil]
  | paren e => simp [Expr.print]

/-- What stands before an operator is not enclosed in parentheses together with what follows. -/
theorem not_enclosed {l : Level} (e : Expr l) {rest : CStr} (hrest : rest ≠ []) :
    ¬ ((e.print ++ rest).head? = some 40 ∧
      strbalp (e.print ++ rest) = some ((e.print ++ rest).length - 1)) := by
  obtain ⟨f, more, hf⟩ := exists_factor e
  rw [hf, List.append_assoc]
  rintro ⟨hhead, hclose⟩
  cases f with
  | lit l =>
    -- a number does not begin with a parenthesis
    have hdigit := l.head
    obtain ⟨c, cs, hcs⟩ := List.exists_cons_of_ne_nil l.print_ne_nil
    rw [Expr.print, hcs, List.cons_append, List.head?_cons] at hhead
    rw [hcs, List.head?_cons, hhead] at hdigit
    cases hdigit
  | paren s =>
    -- the first parenthesis is closed before the end
    have htext : Expr.print (.paren s) ++ (more ++ rest) =
        40 :: (s.print ++ 41 :: (more ++ rest)) := by simp [Expr.print]
    rw [htext, strbalp_paren (crossed_expr s), Option.some.injEq] at hclose
    have hpos : 0 < rest.length := List.length_pos_iff.mpr hrest
    simp only [List.length_cons, List.length_append] at hclose
    omega

/-- The search finds an operator behind which it passes everything. -/
theorem strrpset_found {set w w' : CStr} {c : UInt8} (hw : w ≠ []) (hc : c ∈ set)
    (h40 : c ≠ 40) (h41 : c ≠ 41) (hpass : Passed set w' 0) :
    strrpset (w ++ c :: w') set = some w.length := by
  have hrev : (w ++ c :: w').reverse = w'.reverse ++ c :: w.reverse := by simp
  have hpos : 0 < w.length := List.length_pos_iff.mpr hw
  rw [strrpset, strrpsetLoop_eq, hrev, hpass, scan, if_neg h40, if_neg h41, if_pos ⟨hc, rfl⟩,
    List.length_reverse, Option.filter_some, if_pos (decide_eq_true hpos)]

theorem strrpset_none {set w : CStr} (hpass : Passed set w 0) : strrpset w set = none := by
  rw [strrpset, strrpsetLoop_eq, ← List.append_nil w.reverse, hpass]
  rfl

/-! ## §4 Numbers -/

theorem ofNat_mod (n : ℕ) : BitVec.ofNat 64 (n % 2 ^ 64) = BitVec.ofNat 64 n :=
  BitVec.eq_of_toNat_eq (by simp)

/-- After a `0x` the base does not matter. -/
theorem mdAtor_lead {l : Literal} (h : l.lead ≠ []) (base : ℕ) :
    mdAtor l.print base = some (BitVec.ofNat 64 (numeralValue 16 l.digits)) := by
  have hplain : ∀ p base, atobPrefix p base = (l.digits, 16) →
      atobQuad p base = some (numeralValue 16 l.digits % 2 ^ 64) :=
    fun p base hp => atobQuad_iff.mpr ⟨_, .plain hp l.isHex, rfl⟩
  have hread : llatob l.print base = some (numeralValue 16 l.digits % 2 ^ 64) := by
    unfold llatob Literal.print
    rcases l.lead_eq with hnil | hlead | hlead
    · exact absurd hnil h
    · rw [hlead]
      split
      · exact atobQuad_of_isNumeral l.isHex
      · exact hplain _ _ rfl
    · rw [hlead]
      split
      · exact hplain _ _ rfl
      · exact hplain _ _ rfl
  rw [mdAtor, hread, Option.map_some, ofNat_mod]

theorem mdAtor_hex {p : CStr} (h : IsNumeral 16 p) {base : ℕ} (hbase : base ≠ 0) :
    mdAtor p base =
      if IsNumeral base p then some (BitVec.ofNat 64 (numeralValue base p)) else none := by
  rw [mdAtor, llatob_of_ne_zero hbase, atobQuad_of_hex h]
  split
  · rw [Option.map_some, ofNat_mod]
  · rfl

theorem mdAtor_hex_zero {p : CStr} (h : IsNumeral 16 p) : mdAtor p 0 = mdAtor p 10 := by
  rw [mdAtor, mdAtor, llatob, if_pos rfl, getbase_of_hex h, llatob_of_ne_zero (by decide)]

theorem rsaNumber_literal {env : RsaEnv} {b : Inbase} (hb : env.inbase = some b) (l : Literal) :
    rsaNumber env l.print = .ofOption ((l.number b).map (BitVec.ofNat 64)) := by
  unfold rsaNumber
  rw [hb]
  dsimp only
  congr 1
  unfold Literal.number
  by_cases hlead : l.lead = []
  case neg =>
    rw [if_pos (Or.inl hlead), mdAtor_lead hlead, Option.some_or, Option.map_some]
  case pos =>
    have hprint : l.print = l.digits := by rw [Literal.print, hlead, List.nil_append]
    rw [hprint]
    cases b with
    | hex =>
      rw [if_pos (Or.inr rfl), Inbase.base, mdAtor_hex l.isHex (by decide), if_pos l.isHex,
        Option.some_or, Option.map_some]
    | oct =>
      simp only [hlead, Inbase.base, mdAtor_hex_zero l.isHex, ne_eq, not_true_eq_false, reduceCtorEq,
        or_false, if_false, true_and, mdAtor_hex l.isHex (show 8 ≠ 0 by decide),
        mdAtor_hex l.isHex (show 10 ≠ 0 by decide)]
      split
      · rfl
      · split <;> rfl
    | dec =>
      simp only [hlead, Inbase.base, mdAtor_hex_zero l.isHex, ne_eq, not_true_eq_false, reduceCtorEq,
        or_false, false_and, if_false, mdAtor_hex l.isHex (show 10 ≠ 0 by decide)]
      split <;> rfl
    | auto =>
      simp only [hlead, Inbase.base, mdAtor_hex_zero l.isHex, ne_eq, not_true_eq_false, reduceCtorEq,
        or_false, false_and, if_false, mdAtor_hex l.isHex (show 10 ≠ 0 by decide)]
      split <;> rfl

/-! ## §5 The evaluator -/

/-- The result is the value, or an error where there is none. -/
def RsaResult.Agrees (r : RsaResult) (z : Option ℤ) : Prop :=
  match r with
  | .value v => z = some v.toInt
  | .fails => z = none
  | .overruns => False

theorem apply_mul (op : MulOp) (v1 v2 : BitVec 64) :
    (rsaApply op.char v1 v2).Agrees (op.apply v1.toInt v2.toInt) := by
  cases op with
  | times =>
    simp [rsaApply, MulOp.char, RsaResult.Agrees, MulOp.apply, wrap, BitVec.toInt_mul]
  | divided =>
    by_cases hzero : v2 = 0
    · simp [rsaApply, MulOp.char, RsaResult.Agrees, MulOp.apply, hzero]
    · have hne : v2.toInt ≠ 0 := fun h => hzero (BitVec.eq_of_toInt_eq (by simpa using h))
      have hres : rsaApply 47 v1 v2 = .value (v1.sdiv v2) := by
        rw [rsaApply, if_neg (by decide), if_neg (by decide), if_neg (by decide), if_neg hzero]
      rw [MulOp.char, hres, MulOp.apply, if_neg hne, wrap, ← BitVec.toInt_sdiv]
      rfl

theorem apply_add (op : AddOp) (v1 v2 : BitVec 64) :
    (rsaApply op.char v1 v2).Agrees (some (op.apply v1.toInt v2.toInt)) := by
  cases op with
  | plus => simp [rsaApply, AddOp.char, RsaResult.Agrees, AddOp.apply, wrap, BitVec.toInt_add]
  | minus => simp [rsaApply, AddOp.char, RsaResult.Agrees, AddOp.apply, wrap, BitVec.toInt_sub]

/-- Both operands, and the operator. -/
theorem compound_agrees {rsa : CStr → RsaResult} {w w' : CStr} {c : UInt8} {x y : Option ℤ}
    {apply : ℤ → ℤ → Option ℤ} (hfit : w.length < rsaLinesz) (hx : (rsa w).Agrees x)
    (hy : (rsa w').Agrees y)
    (happly : ∀ v1 v2, (rsaApply c v1 v2).Agrees (apply v1.toInt v2.toInt)) :
    (rsaCompound rsa (w ++ c :: w') w.length).Agrees
      (x.bind fun a => y.bind fun b => apply a b) := by
  have hleft : (w ++ c :: w').take w.length = w := by simp
  have hright : (w ++ c :: w').drop (w.length + 1) = w' := by simp
  have hop : (w ++ c :: w').getD w.length 0 = c := by simp
  rw [rsaCompound, if_neg (Nat.not_le.mpr hfit), hleft, hright, hop]
  cases hv1 : rsa w with
  | overruns => simp [hv1, RsaResult.Agrees] at hx
  | fails =>
    rw [hv1] at hx
    rw [show x = none from hx]
    rfl
  | value v1 =>
    rw [hv1] at hx
    rw [show x = some v1.toInt from hx, Option.bind_some]
    cases hv2 : rsa w' with
    | overruns => simp [hv2, RsaResult.Agrees] at hy
    | fails =>
      rw [hv2] at hy
      rw [show y = none from hy]
      rfl
    | value v2 =>
      rw [hv2] at hy
      rw [show y = some v2.toInt from hy, Option.bind_some]
      exact happly v1 v2

/-- **The evaluator** on the text of an expression. -/
theorem rsaLoop_agrees {env : RsaEnv} {b : Inbase} (hb : env.inbase = some b) {l : Level}
    (e : Expr l) (hfit : e.Fits) (fuel : ℕ) (hfuel : e.print.length < fuel) :
    (rsaLoop env fuel e.print).Agrees (e.eval b) := by
  induction e generalizing fuel with
  | lit l =>
    obtain ⟨fuel, rfl⟩ : ∃ k, fuel = k + 1 := ⟨fuel - 1, by omega⟩
    have hhead := l.head
    have hopen : ¬ (l.print.head? = some 40 ∧ strbalp l.print = some (l.print.length - 1)) := by
      rintro ⟨h, -⟩
      rw [h] at hhead
      cases hhead
    have hother : ∀ d, isdigit d = false → l.print.head? ≠ some d := by
      intro d hd h
      rw [h, Option.any_some, hd] at hhead
      cases hhead
    have hpoint : l.print ≠ [46] := fun h => hother 46 (by decide) (by rw [h]; rfl)
    rw [Expr.print, rsaLoop, if_neg hopen, strrpset_none (passed_literal (Or.inl rfl) l),
      strrpset_none (passed_literal (Or.inr rfl) l)]
    dsimp only
    rw [if_neg (hother 94 (by decide)), rsaAtom, if_neg (hother 64 (by decide)), if_neg hpoint,
      if_neg (hother 38 (by decide)), if_pos hhead, rsaNumber_literal hb, Expr.eval]
    cases l.number b with
    | none => rfl
    | some n =>
      simp [RsaResult.ofOption, RsaResult.Agrees, wrap, BitVec.toInt_ofNat']
  | paren e ih =>
    obtain ⟨fuel, rfl⟩ : ∃ k, fuel = k + 1 := ⟨fuel - 1, by omega⟩
    have htext : Expr.print (.paren e) = 40 :: (e.print ++ 41 :: []) := rfl
    have henclosed : (Expr.print (.paren e)).head? = some 40 ∧
        strbalp (Expr.print (.paren e)) = some ((Expr.print (.paren e)).length - 1) := by
      rw [htext, strbalp_paren (crossed_expr e)]
      simp
    have hinner : ((Expr.print (.paren e)).drop 1).dropLast = e.print := by
      rw [htext]
      simp
    rw [rsaLoop, if_pos henclosed, hinner]
    refine ih hfit fuel ?_
    rw [htext] at hfuel
    simp only [List.length_cons, List.length_append] at hfuel
    omega
  | factor f ih => exact ih hfit fuel hfuel
  | term t ih => exact ih hfit fuel hfuel
  | mul op t f iht ihf =>
    obtain ⟨fuel, rfl⟩ : ∃ k, fuel = k + 1 := ⟨fuel - 1, by omega⟩
    obtain ⟨hlen, hfit1, hfit2⟩ := hfit
    simp only [Expr.print, List.length_cons, List.length_append] at hfuel
    have hadd : strrpset (Expr.print (.mul op t f)) [43, 45] = none :=
      strrpset_none (passed_term (.mul op t f))
    have hmul : strrpset (Expr.print (.mul op t f)) [42, 47] = some t.print.length :=
      strrpset_found (print_ne_nil t) (by cases op <;> decide) op.char_ne.1 op.char_ne.2
        (passed_factor (Or.inr rfl) f)
    have hopen := not_enclosed t (List.cons_ne_nil op.char f.print)
    rw [rsaLoop, if_neg (by exact hopen), hadd, hmul]
    exact compound_agrees hlen (iht hfit1 fuel (by omega)) (ihf hfit2 fuel (by omega)) (apply_mul op)
  | add op s t ihs iht =>
    obtain ⟨fuel, rfl⟩ : ∃ k, fuel = k + 1 := ⟨fuel - 1, by omega⟩
    obtain ⟨hlen, hfit1, hfit2⟩ := hfit
    simp only [Expr.print, List.length_cons, List.length_append] at hfuel
    have hadd : strrpset (Expr.print (.add op s t)) [43, 45] = some s.print.length :=
      strrpset_found (print_ne_nil s) (by cases op <;> decide) op.char_ne.1 op.char_ne.2
        (passed_term t)
    have hopen := not_enclosed s (List.cons_ne_nil op.char t.print)
    have heval : Expr.eval b (.add op s t) = (s.eval b).bind fun x => (t.eval b).bind fun y =>
        some (op.apply x y) := by
      rw [Expr.eval]
      cases s.eval b with
      | none => rfl
      | some x => cases t.eval b <;> rfl
    rw [rsaLoop, if_neg (by exact hopen), hadd, heval]
    exact compound_agrees hlen (ihs hfit1 fuel (by omega)) (iht hfit2 fuel (by omega)) (apply_add op)

/-- A monitor without symbols and registers, with `inbase` as it is at first. -/
def plainEnv (b : Inbase) : RsaEnv where
  inbase := some b
  inalpha := some false
  loadWord _ := 0
  mdGetreg _ := none
  sym2adr _ := none

def decimalDigit (c : UInt8) (h : isdigit c = true := by decide) : Literal where
  lead := []
  digits := [c]
  lead_eq := Or.inl rfl
  digits_ne := List.cons_ne_nil c []
  isHex := by
    intro d hd
    rw [List.mem_singleton.mp hd]
    have hlt : c.toNat - 48 < 16 := by
      simp only [isdigit, Bool.and_eq_true, decide_eq_true_eq, UInt8.le_iff_toNat_le] at h
      have := h.2
      simp only [UInt8.reduceToNat] at this
      omega
    simpa [digitOf, h] using hlt
  first _ := by simpa using h

/-- The text `2*(3+4)`. -/
def twoTimesSum : Expr .sum :=
  .term (.mul .times (.factor (.lit (decimalDigit 50)))
    (.paren (.add .plus (.term (.factor (.lit (decimalDigit 51)))) (.factor (.lit (decimalDigit 52))))))

end Pmon.Debug
