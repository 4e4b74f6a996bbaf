import Mathlib.Data.List.TakeWhile
import Pmon.Cmds.CmdParser

/-!
# Words of a command line

What `argvize` makes of a line of words, each written bare or in quotes, and which bytes of a line
it drops.  It takes a byte above 127 for a blank, since characters are signed, and drops the byte
behind a closing quote whatever it is.

## Key results

- `argvizeLoop_words`: a line of words is read back, unless a bare word has a byte above 127.
- `kept_iff_clean`: when every byte is accounted for.
- `argvize_exact`: both.
-/

namespace Pmon.Cmds

open Pmon.Libc

/-! ## §1 Lines of words -/

inductive WordForm where
  | bare
  | quoted (q : UInt8)
deriving DecidableEq

/-- A word, and how it is written. -/
structure WrittenWord where
  word : CStr
  form : WordForm
  no_nul : 0 ∉ word
  bare_ok : form = .bare → word ≠ [] ∧ (∀ c ∈ word.head?, isQuote c = false) ∧ ∀ c ∈ word, 0x20 < c
  quoted_ok : ∀ q, form = .quoted q → isQuote q ∧ q ∉ word

def WrittenWord.text (w : WrittenWord) : CStr :=
  match w.form with
  | .bare => w.word
  | .quoted q => q :: (w.word ++ [q])

/-- Words with blanks between them, and perhaps around them. -/
inductive LineText : List WrittenWord → CStr → Prop where
  | nil {gap : CStr} (hgap : ∀ c ∈ gap, 0 < c ∧ c ≤ 0x20) : LineText [] gap
  | cons {w : WrittenWord} {ws : List WrittenWord} {gap rest : CStr}
      (hgap : ∀ c ∈ gap, 0 < c ∧ c ≤ 0x20) (h : LineText ws rest)
      (hsep : ∀ c ∈ rest.head?, c ≤ 0x20) : LineText (w :: ws) (gap ++ (w.text ++ rest))

/-- Bytes above 127. -/
def isHigh (c : UInt8) : Bool := 0x80 ≤ c

/-- A word that is written bare has no byte above 127. -/
def WrittenWord.Plain (w : WrittenWord) : Prop := w.form = .bare → ∀ c ∈ w.word, isHigh c = false

/-! ## §2 Reading words -/

variable {s rest gap : List UInt8} {c q : UInt8} {n : ℕ} {w : WrittenWord}
  {ws : List WrittenWord}

theorem isBlank_eq : isBlank c = (decide (c ≤ 0x20) || isHigh c) := rfl

theorem isBlank_of_le (h : c ≤ 0x20) : isBlank c = true := by
  rw [isBlank_eq, decide_eq_true h, Bool.true_or]

theorem not_isBlank (h : 0x20 < c) (hhigh : isHigh c = false) : isBlank c = false := by
  rw [isBlank_eq, hhigh, Bool.or_false, decide_eq_false (by exact UInt8.not_le.mpr h)]

theorem quote_not_blank (h : isQuote q) : isBlank q = false ∧ 0x20 < q := by
  simp only [isQuote, Bool.or_eq_true, decide_eq_true_eq] at h
  rcases h with rfl | rfl <;> decide

/-- Blanks in front do not matter. -/
theorem dropWhile_gap (hgap : ∀ c ∈ gap, 0 < c ∧ c ≤ 0x20) :
    (gap ++ s).dropWhile isBlank = s.dropWhile isBlank := by
  induction gap with
  | nil => rfl
  | cons c gap ih =>
    obtain ⟨hc, hgap⟩ := List.forall_mem_cons.mp hgap
    rw [List.cons_append, List.dropWhile_cons_of_pos (isBlank_of_le hc.2), ih hgap]

/-- A line without its first character, which is a blank. -/
theorem LineText.tail (h : LineText ws s) (hsep : ∀ c ∈ s.head?, c ≤ 0x20) :
    LineText ws s.tail := by
  cases h with
  | nil hgap => exact .nil fun c hc => hgap c (List.mem_of_mem_tail hc)
  | @cons w ws gap rest hgap h hsep' =>
    cases gap with
    | nil =>
      -- A word does not begin with a blank.
      exfalso
      cases hform : w.form with
      | bare =>
        obtain ⟨hne, -, hword⟩ := w.bare_ok hform
        have htext : w.text = w.word := by rw [WrittenWord.text, hform]
        rw [htext] at hsep
        cases hw : w.word with
        | nil => exact hne hw
        | cons c word =>
          rw [hw] at hsep
          exact UInt8.not_le.mpr (hword c (hw ▸ List.mem_cons_self)) (hsep c rfl)
      | quoted q =>
        have htext : w.text = q :: (w.word ++ [q]) := by rw [WrittenWord.text, hform]
        rw [htext] at hsep
        exact UInt8.not_le.mpr (quote_not_blank (w.quoted_ok q hform).1).2 (hsep q rfl)
    | cons c gap =>
      exact .cons (fun c hc => hgap c (List.mem_cons_of_mem _ hc)) h hsep'

theorem cutChar_snd : (cutChar s).2 = s.tail := by
  cases s <;> rfl

/-- The words of `argvize`, one after the other. -/
theorem argvizeLoop_succ : (argvizeLoop (n + 1) s).1 =
    match s.dropWhile isBlank with
    | [] => []
    | c :: rest =>
      if isQuote c then
        rest.takeWhile (· ≠ c) :: (argvizeLoop n (rest.dropWhile (· ≠ c)).tail.tail).1
      else
        (c :: rest).takeWhile (! isBlank ·) ::
          (argvizeLoop n ((c :: rest).dropWhile (! isBlank ·)).tail).1 := by
  rw [argvizeLoop]
  cases s.dropWhile isBlank with
  | nil => rfl
  | cons c rest =>
    by_cases hc : isQuote c
    · simp only [hc, if_true, cutChar_snd]
    · simp only [hc, Bool.false_eq_true, if_false, cutChar_snd]

/-- A word in quotes is read. -/
theorem argvizeLoop_quoted (hgap : ∀ c ∈ gap, 0 < c ∧ c ≤ 0x20) (hform : w.form = .quoted q) :
    (argvizeLoop (n + 1) (gap ++ (w.text ++ s))).1 = w.word :: (argvizeLoop n s.tail).1 := by
  obtain ⟨hq, hword⟩ := w.quoted_ok q hform
  have htext : w.text = q :: (w.word ++ [q]) := by rw [WrittenWord.text, hform]
  have hmem : ∀ c ∈ w.word, decide (c ≠ q) = true := fun c hc =>
    decide_eq_true fun h => hword (h ▸ hc)
  have htake : (q :: s).takeWhile (· ≠ q) = [] := List.takeWhile_cons_of_neg (by simp)
  have hdrop : (q :: s).dropWhile (· ≠ q) = q :: s := List.dropWhile_cons_of_neg (by simp)
  have hblank : ¬ isBlank q = true := by
    rw [(quote_not_blank hq).1]
    exact Bool.false_ne_true
  rw [argvizeLoop_succ, dropWhile_gap hgap, htext, List.cons_append,
    List.dropWhile_cons_of_neg hblank, List.append_assoc, List.singleton_append]
  simp only [hq, if_true]
  rw [List.takeWhile_append_of_pos hmem, List.dropWhile_append_of_pos hmem,
    htake, hdrop, List.append_nil, List.tail_cons]

/-- What is left of a line behind a bare word. -/
theorem argvizeLoop_bare (hgap : ∀ c ∈ gap, 0 < c ∧ c ≤ 0x20) (hform : w.form = .bare)
    (hhead : ∀ c ∈ w.word.head?, isHigh c = false) :
    (argvizeLoop (n + 1) (gap ++ (w.text ++ s))).1 =
      (w.word ++ s).takeWhile (! isBlank ·) ::
        (argvizeLoop n ((w.word ++ s).dropWhile (! isBlank ·)).tail).1 := by
  obtain ⟨hne, hquote, hword⟩ := w.bare_ok hform
  have htext : w.text = w.word := by rw [WrittenWord.text, hform]
  rw [argvizeLoop_succ, dropWhile_gap hgap, htext]
  cases hw : w.word with
  | nil => exact absurd hw hne
  | cons c word =>
    rw [hw] at hhead hquote hword
    have hblank : ¬ isBlank c = true := by
      rw [not_isBlank (hword c List.mem_cons_self) (hhead c rfl)]
      exact Bool.false_ne_true
    have hc : isQuote c = false := hquote c rfl
    rw [List.cons_append, List.dropWhile_cons_of_neg hblank]
    simp only [hc, Bool.false_eq_true, if_false]

/-- A bare word without a byte above 127 is read. -/
theorem argvizeLoop_plain (hgap : ∀ c ∈ gap, 0 < c ∧ c ≤ 0x20) (hform : w.form = .bare)
    (hplain : ∀ c ∈ w.word, isHigh c = false) (hsep : ∀ c ∈ s.head?, c ≤ 0x20) :
    (argvizeLoop (n + 1) (gap ++ (w.text ++ s))).1 = w.word :: (argvizeLoop n s.tail).1 := by
  have hmem : ∀ c ∈ w.word, (! isBlank c) = true := fun c hc => by
    rw [not_isBlank ((w.bare_ok hform).2.2 c hc) (hplain c hc), Bool.not_false]
  rw [argvizeLoop_bare hgap hform fun c hc => hplain c (List.mem_of_mem_head? hc),
    List.takeWhile_append_of_pos hmem, List.dropWhile_append_of_pos hmem]
  cases s with
  | nil => rw [List.takeWhile_nil, List.dropWhile_nil, List.append_nil]
  | cons c s =>
    have hc : isBlank c = true := isBlank_of_le (hsep c rfl)
    have htake : (c :: s).takeWhile (! isBlank ·) = [] :=
      List.takeWhile_cons_of_neg (by simp [hc])
    have hdrop : (c :: s).dropWhile (! isBlank ·) = c :: s :=
      List.dropWhile_cons_of_neg (by simp [hc])
    rw [htake, hdrop, List.append_nil]

/-- **A line of words, none of which is bare with a byte above 127, is read.** -/
theorem argvizeLoop_words (h : LineText ws s) (hlen : ws.length ≤ n)
    (hplain : ∀ w ∈ ws, w.Plain) : (argvizeLoop n s).1 = ws.map (·.word) := by
  induction n generalizing ws s with
  | zero =>
    rw [List.length_eq_zero_iff.mp (Nat.le_zero.mp hlen)]
    rfl
  | succ n ih =>
    cases h with
    | nil hgap =>
      have : s.dropWhile isBlank = [] :=
        List.dropWhile_eq_nil_iff.mpr fun c hc => isBlank_of_le (hgap c hc).2
      rw [argvizeLoop_succ, this]
      rfl
    | @cons w ws gap rest hgap h hsep =>
      obtain ⟨hw, hplain⟩ := List.forall_mem_cons.mp hplain
      have hrest := ih (h.tail hsep) (Nat.le_of_succ_le_succ hlen) hplain
      cases hform : w.form with
      | bare => rw [argvizeLoop_plain hgap hform (hw hform) hsep, hrest, List.map_cons]
      | quoted q => rw [argvizeLoop_quoted hgap hform, hrest, List.map_cons]

/-! ## §3 Words that are not read -/

/-- How many bytes above 127 there are. -/
def highs (s : List UInt8) : ℕ := s.countP isHigh

@[simp] theorem highs_append {s s' : List UInt8} : highs (s ++ s') = highs s + highs s' :=
  List.countP_append

theorem highs_le {s s' : List UInt8} (h : s.Sublist s') : highs s ≤ highs s' :=
  h.countP_le

theorem highs_eq_zero (h : ∀ c ∈ s, c ≤ 0x20) : highs s = 0 := by
  refine List.countP_eq_zero.mpr fun c hc => ?_
  have := h c hc
  simp only [isHigh, decide_eq_true_eq, UInt8.not_le]
  exact UInt8.lt_of_le_of_lt this (by decide)

/-- Words have no more bytes above 127 than the line behind its blanks. -/
theorem highs_argvizeLoop : highs (argvizeLoop n s).1.flatten ≤ highs (s.dropWhile isBlank) := by
  induction n generalizing s with
  | zero => exact Nat.zero_le _
  | succ n ih =>
    rw [argvizeLoop_succ]
    cases hs : s.dropWhile isBlank with
    | nil => exact Nat.zero_le _
    | cons c rest =>
      have hbehind (t : List UInt8) : highs (argvizeLoop n t).1.flatten ≤ highs t :=
        Nat.le_trans ih (highs_le (List.dropWhile_sublist _))
      by_cases hc : isQuote c
      · simp only [hc, if_true, List.flatten_cons, highs_append]
        have hcut := hbehind (rest.dropWhile (· ≠ c)).tail.tail
        have htail : highs (rest.dropWhile (· ≠ c)).tail.tail ≤ highs (rest.dropWhile (· ≠ c)) :=
          highs_le ((List.tail_sublist _).trans (List.tail_sublist _))
        have hsum : highs (rest.takeWhile (· ≠ c)) + highs (rest.dropWhile (· ≠ c)) =
            highs rest := by
          rw [← highs_append, List.takeWhile_append_dropWhile]
        have hrest : highs rest ≤ highs (c :: rest) := highs_le (List.sublist_cons_self _ _)
        omega
      · simp only [hc, Bool.false_eq_true, if_false, List.flatten_cons, highs_append]
        have hcut := hbehind ((c :: rest).dropWhile (! isBlank ·)).tail
        have htail := highs_le (List.tail_sublist ((c :: rest).dropWhile (! isBlank ·)))
        have hsum : highs ((c :: rest).takeWhile (! isBlank ·)) +
            highs ((c :: rest).dropWhile (! isBlank ·)) = highs (c :: rest) := by
          rw [← highs_append, List.takeWhile_append_dropWhile]
        omega

theorem highs_text : highs w.text = highs w.word := by
  cases hform : w.form with
  | bare => rw [WrittenWord.text, hform]
  | quoted q =>
    have hq : isHigh q = false := by
      have := (w.quoted_ok q hform).1
      simp only [isQuote, Bool.or_eq_true, decide_eq_true_eq] at this
      rcases this with rfl | rfl <;> rfl
    simp [WrittenWord.text, hform, highs, hq]

theorem LineText.highs_eq (h : LineText ws s) : highs s = highs (ws.map (·.word)).flatten := by
  induction h with
  | nil hgap => exact highs_eq_zero fun c hc => (hgap c hc).2
  | cons hgap h hsep ih =>
    rw [highs_append, highs_append, highs_text, ih, highs_eq_zero fun c hc => (hgap c hc).2,
      Nat.zero_add, List.map_cons, List.flatten_cons, highs_append]

/-- **No bare word with a byte above 127 is read.** -/
theorem plain_of_argvizeLoop (h : LineText ws s) (hlen : ws.length ≤ n)
    (hread : (argvizeLoop n s).1 = ws.map (·.word)) : ∀ w ∈ ws, w.Plain := by
  induction n generalizing ws s with
  | zero =>
    rw [List.length_eq_zero_iff.mp (Nat.le_zero.mp hlen)]
    exact fun w hw => absurd hw List.not_mem_nil
  | succ n ih =>
    cases h with
    | nil hgap => exact fun w hw => absurd hw List.not_mem_nil
    | @cons w ws gap rest hgap h hsep =>
      have hlen := Nat.le_of_succ_le_succ hlen
      cases hform : w.form with
      | quoted q =>
        rw [argvizeLoop_quoted hgap hform, List.map_cons, List.cons.injEq] at hread
        have hw : w.Plain := fun hbare => by
          rw [hform] at hbare
          cases hbare
        exact List.forall_mem_cons.mpr ⟨hw, ih (h.tail hsep) hlen hread.2⟩
      | bare =>
        obtain ⟨hne, -, -⟩ := w.bare_ok hform
        have hhead : ∀ c ∈ w.word.head?, isHigh c = false := by
          -- A first byte above 127 is skipped, and then there are too few of them in the words.
          by_contra! hhigh
          obtain ⟨c, hc, hhigh⟩ := hhigh
          obtain ⟨word, hw⟩ : ∃ word, w.word = c :: word := List.head?_eq_some_iff.mp hc
          have hhigh : isHigh c = true := by simpa using hhigh
          have htext : w.text = c :: word := by rw [WrittenWord.text, hform, hw]
          have hfew := highs_argvizeLoop (s := gap ++ (w.text ++ rest)) (n := n + 1)
          have hblank : isBlank c = true := by rw [isBlank_eq, hhigh, Bool.or_true]
          have hskip : highs ((word ++ rest).dropWhile isBlank) ≤ highs (word ++ rest) :=
            highs_le (List.dropWhile_sublist _)
          rw [hread, ← (LineText.cons hgap h hsep).highs_eq, dropWhile_gap hgap, htext,
            List.cons_append, List.dropWhile_cons_of_pos hblank, highs_append] at hfew
          have hcons : highs (c :: (word ++ rest)) = highs (word ++ rest) + 1 := by
            rw [highs, List.countP_cons_of_pos hhigh, highs]
          omega
        have hplain : ∀ c ∈ w.word, isHigh c = false := by
          rw [argvizeLoop_bare hgap hform hhead, List.map_cons, List.cons.injEq] at hread
          intro c hc
          rw [← hread.1] at hc
          have := List.mem_takeWhile_imp hc
          rw [isBlank_eq, Bool.not_or, Bool.and_eq_true, Bool.not_eq_true'] at this
          simpa using this.2
        rw [argvizeLoop_plain hgap hform hplain hsep, List.map_cons, List.cons.injEq] at hread
        exact List.forall_mem_cons.mpr ⟨fun _ => hplain, ih (h.tail hsep) hlen hread.2⟩

/-! ## §4 Every byte of a line -/

/-- What `argvize` makes of a few bytes of the line. -/
inductive Use where
  /-- Skipped, or overwritten with a zero. -/
  | lost
  | quote
  | word
deriving DecidableEq

structure Piece where
  use : Use
  bytes : CStr

/-- The pieces that `argvize` takes a line apart into, and what it does not look at. -/
def pieces : ℕ → List UInt8 → List Piece × List UInt8
  | 0, s => ([], s)
  | n + 1, s =>
    match s.dropWhile isBlank with
    | [] => ([⟨.lost, s⟩], [])
    | c :: rest =>
      if isQuote c then
        let behind := rest.dropWhile (· ≠ c)
        let (more, unread) := pieces n behind.tail.tail
        (⟨.lost, s.takeWhile isBlank⟩ :: ⟨.quote, [c]⟩ :: ⟨.word, rest.takeWhile (· ≠ c)⟩ ::
          ⟨.quote, behind.take 1⟩ :: ⟨.lost, behind.tail.take 1⟩ :: more, unread)
      else
        let behind := (c :: rest).dropWhile (! isBlank ·)
        let (more, unread) := pieces n behind.tail
        (⟨.lost, s.takeWhile isBlank⟩ :: ⟨.word, (c :: rest).takeWhile (! isBlank ·)⟩ ::
          ⟨.lost, behind.take 1⟩ :: more, unread)

/-- The pieces that are arguments. -/
def words (ps : List Piece) : List CStr := (ps.filter (·.use = .word)).map (·.bytes)

/-- All that is lost is blanks and control characters. -/
def Accounted (ps : List Piece) : Prop := ∀ p ∈ ps, p.use = .lost → ∀ c ∈ p.bytes, c ≤ 0x20

theorem takeOne_append_tail : s.take 1 ++ s.tail = s := by
  cases s <;> rfl

/-- The pieces make up the line. -/
theorem pieces_flatten : ((pieces n s).1.map (·.bytes)).flatten ++ (pieces n s).2 = s := by
  induction n generalizing s with
  | zero => rfl
  | succ n ih =>
    rw [pieces]
    have hs := List.takeWhile_append_dropWhile (p := isBlank) (l := s)
    cases hd : s.dropWhile isBlank with
    | nil => simp
    | cons c rest =>
      rw [hd] at hs
      by_cases hc : isQuote c
      · simp only [hc, if_true, List.map_cons, List.flatten_cons, List.append_assoc, ih,
          takeOne_append_tail, List.takeWhile_append_dropWhile]
        exact hs
      · simp only [hc, Bool.false_eq_true, if_false, List.map_cons, List.flatten_cons,
          List.append_assoc, ih, takeOne_append_tail, List.takeWhile_append_dropWhile]
        exact hs

/-- The words among the pieces are the arguments. -/
theorem pieces_words : words (pieces n s).1 = (argvizeLoop n s).1 := by
  induction n generalizing s with
  | zero => rfl
  | succ n ih =>
    rw [pieces, argvizeLoop_succ]
    cases s.dropWhile isBlank with
    | nil => rfl
    | cons c rest =>
      by_cases hc : isQuote c
      · simp [hc, words, ← ih]
      · simp [hc, words, ← ih]

/-- What is not looked at is behind the last of the arguments. -/
theorem pieces_unread (h : (pieces n s).2 ≠ []) : (argvizeLoop n s).1.length = n := by
  induction n generalizing s with
  | zero => rfl
  | succ n ih =>
    rw [pieces] at h
    rw [argvizeLoop_succ]
    cases hd : s.dropWhile isBlank with
    | nil =>
      rw [hd] at h
      exact absurd rfl h
    | cons c rest =>
      rw [hd] at h
      by_cases hc : isQuote c
      · simp only [hc, if_true] at h ⊢
        rw [List.length_cons, ih h]
      · simp only [hc, Bool.false_eq_true, if_false] at h ⊢
        rw [List.length_cons, ih h]

/-- Where a character of a line stands. -/
inductive Place where
  | outside
  | bare
  | quoted (q : UInt8)
  | closed

/-- No byte above 127 stands outside quotes, and a blank is behind each closing quote, as far as
the line is read for its first words. -/
def clean : ℕ → Place → List UInt8 → Bool
  | _, _, [] => true
  | 0, .outside, _ :: _ => true
  | n + 1, .outside, c :: s =>
    if c ≤ 0x20 then clean (n + 1) .outside s
    else if isQuote c then clean n (.quoted c) s
    else ! isHigh c && clean n .bare s
  | n, .bare, c :: s =>
    if c ≤ 0x20 then clean n .outside s else ! isHigh c && clean n .bare s
  | n, .quoted q, c :: s => if c = q then clean n .closed s else clean n (.quoted q) s
  | n, .closed, c :: s => decide (c ≤ 0x20) && clean n .outside s

/-- What is skipped in front of a word. -/
theorem clean_outside : clean (n + 1) .outside s =
    ((s.takeWhile isBlank).all (· ≤ 0x20) &&
      match s.dropWhile isBlank with
      | [] => true
      | c :: rest =>
        if isQuote c then clean n (.quoted c) rest else clean n .bare (c :: rest)) := by
  induction s with
  | nil => simp [clean]
  | cons c s ih =>
    by_cases hle : c ≤ 0x20
    · have hblank : isBlank c = true := isBlank_of_le hle
      rw [clean, if_pos hle, ih, List.takeWhile_cons_of_pos hblank,
        List.dropWhile_cons_of_pos hblank, List.all_cons, decide_eq_true hle, Bool.true_and]
    · by_cases hhigh : isHigh c
      · -- It is skipped like a blank.
        have hblank : isBlank c = true := by rw [isBlank_eq, hhigh, Bool.or_true]
        have hquote : isQuote c = false := by
          by_contra hq
          have := (quote_not_blank ((Bool.not_eq_false _).mp hq)).1
          rw [hblank] at this
          cases this
        simp [clean, hle, hhigh, hquote, hblank]
      · have hlt : 0x20 < c := UInt8.not_le.mp hle
        have hblank : isBlank c = false := not_isBlank hlt (by simpa using hhigh)
        simp [clean, hle, hhigh, hblank]

theorem clean_bare : clean n .bare s =
    match s.dropWhile (! isBlank ·) with
    | [] => true
    | c :: rest => decide (c ≤ 0x20) && clean n .outside rest := by
  induction s with
  | nil => simp [clean]
  | cons c s ih =>
    by_cases hle : c ≤ 0x20
    · simp [clean, hle, isBlank_of_le hle]
    · by_cases hhigh : isHigh c
      · simp [clean, hle, hhigh, isBlank_eq]
      · have hblank : isBlank c = false := not_isBlank (UInt8.not_le.mp hle) (by simpa using hhigh)
        have hdrop : (c :: s).dropWhile (! isBlank ·) = s.dropWhile (! isBlank ·) :=
          List.dropWhile_cons_of_pos (by simp [hblank])
        rw [hdrop, ← ih]
        simp [clean, hle, hhigh]

theorem clean_quoted : clean n (.quoted q) s =
    match s.dropWhile (· ≠ q) with
    | [] => true
    | _ :: rest => clean n .closed rest := by
  induction s with
  | nil => simp [clean]
  | cons c s ih =>
    by_cases hq : c = q
    · simp [clean, hq]
    · have hdrop : (c :: s).dropWhile (· ≠ q) = s.dropWhile (· ≠ q) :=
        List.dropWhile_cons_of_pos (by simp [hq])
      rw [hdrop, ← ih]
      simp [clean, hq]

theorem clean_closed : clean n .closed s =
    ((s.take 1).all (· ≤ 0x20) && clean n .outside s.tail) := by
  cases s with
  | nil => simp [clean]
  | cons c s => simp [clean]

@[simp] theorem accounted_nil : Accounted [] := fun _ hp => absurd hp List.not_mem_nil

@[simp] theorem accounted_cons {p : Piece} {ps : List Piece} :
    Accounted (p :: ps) ↔ (p.use = .lost → ∀ c ∈ p.bytes, c ≤ 0x20) ∧ Accounted ps :=
  List.forall_mem_cons

/-- **What is lost of a line is blanks and control characters exactly when the line is clean.** -/
theorem kept_iff_clean : Accounted (pieces n s).1 ↔ clean n .outside s = true := by
  induction n generalizing s with
  | zero => cases s <;> simp [pieces, Accounted, clean]
  | succ n ih =>
    have hs := List.takeWhile_append_dropWhile (p := isBlank) (l := s)
    rw [pieces, clean_outside]
    cases hd : s.dropWhile isBlank with
    | nil =>
      rw [hd, List.append_nil] at hs
      simp [hs]
    | cons c rest =>
      by_cases hc : isQuote c
      · simp only [hc, if_true, clean_quoted]
        cases rest.dropWhile (· ≠ c) with
        | nil => simp [ih, clean]
        | cons q behind => simp [ih, clean_closed]
      · simp only [hc, Bool.false_eq_true, if_false, clean_bare]
        cases (c :: rest).dropWhile (! isBlank ·) with
        | nil => simp [ih, clean]
        | cons d behind => simp [ih]

/-! ## §5 What `argvize` returns -/

/-- **A line of at most a hundred words is read exactly when no bare word has a byte above 127; and
what is lost of any line is blanks and control characters exactly when the line is clean.** -/
theorem argvize_exact (ws : List WrittenWord) (t s : CStr) :
    (LineText ws t → ws.length ≤ maxAc →
      ((argvize t).1 = ws.map (·.word) ↔ ∀ w ∈ ws, w.Plain)) ∧
    ((pieces maxAc s).1.map (·.bytes)).flatten ++ (pieces maxAc s).2 = s ∧
    words (pieces maxAc s).1 = (argvize s).1 ∧
    ((pieces maxAc s).2 ≠ [] → (argvize s).1.length = maxAc) ∧
    (Accounted (pieces maxAc s).1 ↔ clean maxAc .outside s = true) :=
  ⟨fun h hlen => ⟨plain_of_argvizeLoop h hlen, argvizeLoop_words h hlen⟩,
    pieces_flatten, pieces_words, pieces_unread, kept_iff_clean⟩

/-- The word `ab`, with a byte above 127 behind it. -/
def highWord : WrittenWord where
  word := [0x61, 0x62, 0x80]
  form := .bare
  no_nul := by decide
  bare_ok := fun _ => by
    refine ⟨List.cons_ne_nil _ _, fun c hc => ?_, fun c hc => ?_⟩
    · cases hc
      rfl
    · simp only [List.mem_cons, List.not_mem_nil, or_false] at hc
      rcases hc with rfl | rfl | rfl <;> decide
  quoted_ok := fun _ h => by cases h

theorem highWord_line : LineText [highWord] ([] ++ (highWord.text ++ [])) :=
  .cons (fun _ h => absurd h List.not_mem_nil) (.nil fun _ h => absurd h List.not_mem_nil)
    fun c hc => by cases hc

/-- The word `ab` without it is not the word, and the `b` of `'a'b` is in no argument. -/
theorem argvize_high : LineText [highWord] ([] ++ (highWord.text ++ [])) ∧
    (argvize ([] ++ (highWord.text ++ []))).1 ≠ [highWord].map (·.word) ∧
    (argvize [0x27, 0x61, 0x27, 0x62]).1 = [[0x61]] ∧
    ¬ Accounted (pieces maxAc [0x27, 0x61, 0x27, 0x62]).1 := by
  refine ⟨highWord_line, ?_, ?_, ?_⟩
  · exact of_decide_eq_true rfl
  · rfl
  · rw [kept_iff_clean]
    exact of_decide_eq_true rfl

theorem argvize_exact_highWord : (argvize ([] ++ (highWord.text ++ []))).1 ≠ [highWord.word] ∧
    ¬ Accounted (pieces maxAc [0x27, 0x61, 0x27, 0x62]).1 :=
  ⟨fun h => absurd (((argvize_exact [highWord] _ []).1 highWord_line (by decide)).mp h highWord
      List.mem_cons_self rfl 0x80 (by decide)) (by decide),
    fun h => absurd ((argvize_exact [] [] [0x27, 0x61, 0x27, 0x62]).2.2.2.2.mp h) (by decide)⟩

end Pmon.Cmds
