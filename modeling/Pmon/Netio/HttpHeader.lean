import Pmon.Libc.Strings
import Mathlib.Data.List.Infix
import Mathlib.Tactic.Common

/-!
# The header of an HTTP reply

`my_read` and `my_readline` of `pmon/netio/httplib.c`, which read a reply up to the first line of at
most two bytes.  A line goes to a buffer of 1000 bytes whatever its length, and the result of `read`
is not looked at: at the end of the stream and after an error the byte read before is stored again.

## Key results

- `heard`: the bytes that the calls of `read` leave, whatever the segments they come in.
- `httpHeader_iff`: the reader ends inside its buffers exactly when the stream has a short line, and
  the lines before it and their length fields fit.
-/

namespace Pmon.Netio

open Pmon.Libc

/-! ## §1 The stream -/

/-- What arrives on a connection: a segment, or an error that one `read` returns. -/
inductive Arrival where
  | segment (bs : List UInt8)
  | failure
  deriving DecidableEq

/-- `read` of one byte, and what is left; behind the last arrival the connection is closed. -/
def readByte : List Arrival → Option UInt8 × List Arrival
  | [] => (none, [])
  | .failure :: rest => (none, rest)
  | .segment [] :: rest => readByte rest
  | .segment (b :: bs) :: rest => (some b, .segment bs :: rest)

/-- What the calls of `read` return until the connection is closed. -/
def replies : List Arrival → List (Option UInt8)
  | [] => []
  | .failure :: rest => none :: replies rest
  | .segment bs :: rest => bs.map some ++ replies rest

def newline : UInt8 := 10

/-- What a line starts with: `'3'`. -/
def lineStart : UInt8 := 51

/-! ## §2 The reader -/

/-- `my_readline`: the bytes it stores, in order, as far as the fuel goes. -/
def myReadline : ℕ → UInt8 → List Arrival → Option (List UInt8 × List Arrival)
  | 0, _, _ => none
  | fuel + 1, ch, arrivals =>
    let (r, arrivals) := readByte arrivals
    let ch := r.getD ch
    if ch = newline then
      some ([ch], arrivals)
    else
      (myReadline fuel ch arrivals).map fun (line, arrivals) => (ch :: line, arrivals)

/-- `rhtml_http`, and for each line the memory behind it, which a string without an end runs
    into. -/
structure HttpStack where
  buf : List UInt8
  beyond : ℕ → List UInt8
  length_buf : buf.length = 1000

/-- The next line finds the buffer cleared. -/
def HttpStack.cleared (stack : HttpStack) : HttpStack where
  buf := List.replicate 1000 0
  beyond i := stack.beyond (i + 1)
  length_buf := List.length_replicate

/-- The memory from `rhtml_http` on once a line is stored. -/
def HttpStack.stored (stack : HttpStack) (line : List UInt8) : List UInt8 :=
  line ++ stack.buf.drop line.length ++ stack.beyond 0

/-- The string at the start of some memory. -/
def cString (mem : List UInt8) : CStr := mem.takeWhile (· ≠ 0)

/-- The digits of `atoi`. -/
def atoiDigits : CStr → BitVec 32 → BitVec 32
  | [], value => value
  | c :: p, value =>
    if isdigit c then atoiDigits p (value * 10 + BitVec.ofNat 32 (c.toNat - 48)) else value

/-- `atoi`. -/
def atoi (p : CStr) : BitVec 32 :=
  match p.dropWhile isspace with
  | 45 :: p => -atoiDigits p 0
  | 43 :: p => atoiDigits p 0
  | p => atoiDigits p 0

/-- How the reader ends. -/
inductive HttpEnd where
  | done (bufSize : BitVec 32) (arrivals : List Arrival)
  /-- It stores behind the end of `rhtml_http` or `buf_length`. -/
  | overrun
  deriving DecidableEq

/-- The loop of `my_read`. -/
def myReadLoop : ℕ → HttpStack → BitVec 32 → List Arrival → Option HttpEnd
  | 0, _, _, _ => none
  | fuel + 1, stack, bufSize, arrivals =>
    match myReadline fuel lineStart arrivals with
    | none => none
    | some (line, arrivals) =>
      if 1000 < line.length then
        some .overrun
      else if 2 < line.length then
        let mem := stack.stored line
        if ascii "Content-Length" <:+: cString mem then
          let bufCL := cString (mem.drop 16)
          -- `strcpy` to the 20 bytes of `buf_length`, with the end of the string
          if 20 < bufCL.length + 1 then
            some .overrun
          else
            myReadLoop fuel stack.cleared (atoi bufCL) arrivals
        else
          myReadLoop fuel stack.cleared bufSize arrivals
      else
        some (.done bufSize arrivals)

/-- `my_read` ends, and has stored inside its buffers only. -/
def HeaderRead (stack : HttpStack) (bufSize : BitVec 32) (arrivals : List Arrival) : Prop :=
  ∃ fuel bufSize' arrivals',
    myReadLoop fuel stack bufSize arrivals = some (.done bufSize' arrivals')

/-! ## §3 What the header is to be -/

/-- The bytes that the calls of `read` leave in `ch`, which a line starts with `'3'` in. -/
def heard (ch : UInt8) : List (Option UInt8) → List UInt8
  | [] => []
  | r :: rs =>
    let ch := r.getD ch
    ch :: heard (if ch = newline then lineStart else ch) rs

/-- The lines of a text, each with its end; what follows the last end is none. -/
def completeLines : List UInt8 → List (List UInt8)
  | [] => []
  | c :: text =>
    if c = newline then
      [c] :: completeLines text
    else
      match completeLines text with
      | [] => []
      | line :: lines => (c :: line) :: lines

/-- A length that a line gives is short enough for its field. -/
def LengthFits (mem : List UInt8) : Prop :=
  ascii "Content-Length" <:+: cString mem → (cString (mem.drop 16)).length < 20

instance : DecidablePred LengthFits := fun mem =>
  inferInstanceAs (Decidable (ascii "Content-Length" <:+: cString mem →
    (cString (mem.drop 16)).length < 20))

/-- What the buffer holds before a line. -/
def HttpStack.before (stack : HttpStack) (i : ℕ) : HttpStack := (HttpStack.cleared)^[i] stack

/-- **A header that fits**: a line of at most two bytes, and before it lines that the buffer has
    room for, with lengths that their field has room for. -/
def HeaderFits (stack : HttpStack) (lines : List (List UInt8)) : Prop :=
  ∃ k line, lines[k]? = some line ∧ line.length ≤ 2 ∧
    ∀ i line', i < k → lines[i]? = some line' → 2 < line'.length ∧ line'.length ≤ 1000 ∧
      LengthFits ((stack.before i).stored line')

theorem headerFits_cons {stack : HttpStack} {line : List UInt8} {lines : List (List UInt8)} :
    HeaderFits stack (line :: lines) ↔ line.length ≤ 2 ∨
      (2 < line.length ∧ line.length ≤ 1000 ∧ LengthFits (stack.stored line) ∧
        HeaderFits stack.cleared lines) := by
  constructor
  · rintro ⟨k, l, hk, hl, hbefore⟩
    cases k with
    | zero =>
      obtain rfl : line = l := by simpa using hk
      exact .inl hl
    | succ k =>
      obtain ⟨h2, h1000, hfits⟩ := hbefore 0 line (by omega) rfl
      refine .inr ⟨h2, h1000, hfits, k, l, by simpa using hk, hl, ?_⟩
      intro i l' hi hl'
      have := hbefore (i + 1) l' (by omega) (by simpa using hl')
      simpa only [HttpStack.before, Function.iterate_succ_apply] using this
  · rintro (hshort | ⟨h2, h1000, hfits, k, l, hk, hl, hbefore⟩)
    · exact ⟨0, line, rfl, hshort, by omega⟩
    · refine ⟨k + 1, l, by simpa using hk, hl, ?_⟩
      intro i l' hi hl'
      cases i with
      | zero =>
        obtain rfl : line = l' := by simpa using hl'
        exact ⟨h2, h1000, hfits⟩
      | succ i =>
        have := hbefore i l' (by omega) (by simpa using hl')
        simpa only [HttpStack.before, Function.iterate_succ_apply] using this

/-! ## §4 Lines -/

/-- **Segments do not matter**: a call of `read` returns the next of the replies. -/
theorem readByte_replies (arrivals : List Arrival) :
    (readByte arrivals).1 = (replies arrivals).head?.join ∧
      replies (readByte arrivals).2 = (replies arrivals).tail := by
  induction arrivals with
  | nil => exact ⟨rfl, rfl⟩
  | cons a rest ih =>
    match a with
    | .failure => exact ⟨rfl, rfl⟩
    | .segment [] => simpa [readByte, replies] using ih
    | .segment (b :: bs) => simp [readByte, replies]

/-- Without an end of line the reader goes on. -/
theorem myReadline_none {ch : UInt8} {arrivals : List Arrival} (hch : ch ≠ newline)
    (h : completeLines (heard ch (replies arrivals)) = []) (fuel : ℕ) :
    myReadline fuel ch arrivals = none := by
  induction fuel generalizing ch arrivals with
  | zero => rfl
  | succ fuel ih =>
    obtain ⟨hfst, hsnd⟩ := readByte_replies arrivals
    unfold myReadline
    simp only [hfst]
    rcases hreplies : replies arrivals with _ | ⟨r, rs⟩
    · rw [hreplies] at hsnd
      have hclosed : completeLines (heard ch (replies (readByte arrivals).2)) = [] := by
        rw [hsnd]
        rfl
      simp [hch, ih hch hclosed]
    · rw [hreplies] at hsnd h
      simp only [heard, completeLines] at h
      by_cases hnew : r.getD ch = newline
      · simp [hnew] at h
      · rw [if_neg hnew, if_neg hnew] at h
        have hrest : completeLines (heard (r.getD ch) rs) = [] := by
          rcases hlines : completeLines (heard (r.getD ch) rs) with _ | ⟨l, ls⟩
          · rfl
          · rw [hlines] at h
            simp at h
        have hafter : completeLines (heard (r.getD ch) (replies (readByte arrivals).2)) = [] := by
          rw [hsnd]
          exact hrest
        have hgoes := ih hnew hafter
        simp [hnew, hgoes]

/-- **A line** is read with enough fuel, and what is heard after it are the lines after it. -/
theorem myReadline_some {ch : UInt8} {arrivals : List Arrival} {line : List UInt8}
    {lines : List (List UInt8)} (h : completeLines (heard ch (replies arrivals)) = line :: lines) :
    ∃ arrivals', completeLines (heard lineStart (replies arrivals')) = lines ∧
      ∀ fuel, myReadline fuel ch arrivals =
        if line.length ≤ fuel then some (line, arrivals') else none := by
  generalize hreplies : replies arrivals = rs at h
  induction rs generalizing ch arrivals line with
  | nil => simp [heard, completeLines] at h
  | cons r rs ih =>
    obtain ⟨hfst, hsnd⟩ := readByte_replies arrivals
    rw [hreplies] at hfst hsnd
    simp only [heard, completeLines] at h
    by_cases hnew : r.getD ch = newline
    · -- the byte ends the line
      simp only [hnew, if_true, List.cons.injEq] at h
      obtain ⟨rfl, hrest⟩ := h
      refine ⟨(readByte arrivals).2, ?_, ?_⟩
      · rw [hsnd]
        exact hrest
      · intro fuel
        cases fuel with
        | zero => rfl
        | succ fuel => simp [myReadline, hfst, hnew]
    · rw [if_neg hnew, if_neg hnew] at h
      rcases hlines : completeLines (heard (r.getD ch) rs) with _ | ⟨l, ls⟩
      · rw [hlines] at h
        simp at h
      · rw [hlines] at h
        simp only [List.cons.injEq] at h
        obtain ⟨rfl, rfl⟩ := h
        obtain ⟨arrivals', hafter, hread⟩ := ih hsnd hlines
        refine ⟨arrivals', hafter, ?_⟩
        intro fuel
        cases fuel with
        | zero => rfl
        | succ fuel =>
          simp only [myReadline, hfst, List.head?_cons, Option.join_some, hnew, if_false, hread,
            List.length_cons, Nat.add_le_add_iff_right]
          by_cases hlen : l.length ≤ fuel
          · simp [hlen]
          · simp [hlen]

/-! ## §5 The header -/

theorem myReadline_mono {fuel fuel' : ℕ} {ch : UInt8} {arrivals : List Arrival}
    {r : List UInt8 × List Arrival} (h : myReadline fuel ch arrivals = some r)
    (hle : fuel ≤ fuel') : myReadline fuel' ch arrivals = some r := by
  induction fuel generalizing fuel' ch arrivals r with
  | zero => simp [myReadline] at h
  | succ fuel ih =>
    obtain ⟨fuel', rfl⟩ : ∃ m, fuel' = m + 1 := ⟨fuel' - 1, by omega⟩
    unfold myReadline at h ⊢
    dsimp only at h ⊢
    split at h
    · rename_i hnew
      rw [if_pos hnew]
      exact h
    · rename_i hnew
      rw [if_neg hnew]
      obtain ⟨r', hr', rfl⟩ := Option.map_eq_some_iff.mp h
      rw [ih hr' (by omega)]
      rfl

/-- More fuel changes nothing. -/
theorem myReadLoop_mono {fuel fuel' : ℕ} {stack : HttpStack} {bufSize : BitVec 32}
    {arrivals : List Arrival} {r : HttpEnd} (h : myReadLoop fuel stack bufSize arrivals = some r)
    (hle : fuel ≤ fuel') : myReadLoop fuel' stack bufSize arrivals = some r := by
  induction fuel generalizing fuel' stack bufSize arrivals with
  | zero => simp [myReadLoop] at h
  | succ fuel ih =>
    obtain ⟨fuel', rfl⟩ : ∃ m, fuel' = m + 1 := ⟨fuel' - 1, by omega⟩
    unfold myReadLoop at h ⊢
    rcases hline : myReadline fuel lineStart arrivals with _ | ⟨line, rest⟩
    · rw [hline] at h
      simp at h
    · rw [hline] at h
      rw [myReadline_mono hline (by omega)]
      dsimp only at h ⊢
      split_ifs at h ⊢ with h1000 h2 hcl hroom
      · exact h
      · exact h
      · exact ih h (by omega)
      · exact ih h (by omega)
      · exact h

/-- The length that a line gives. -/
def lengthOf (mem : List UInt8) (bufSize : BitVec 32) : BitVec 32 :=
  if ascii "Content-Length" <:+: cString mem then atoi (cString (mem.drop 16)) else bufSize

/-- One turn of the loop. -/
theorem myReadLoop_line {fuel : ℕ} {stack : HttpStack} {bufSize : BitVec 32}
    {arrivals arrivals' : List Arrival} {line : List UInt8}
    (hread : myReadline fuel lineStart arrivals = some (line, arrivals')) :
    myReadLoop (fuel + 1) stack bufSize arrivals =
      if line.length ≤ 2 then some (.done bufSize arrivals')
      else if line.length ≤ 1000 ∧ LengthFits (stack.stored line) then
        myReadLoop fuel stack.cleared (lengthOf (stack.stored line) bufSize) arrivals'
      else some .overrun := by
  rw [myReadLoop, hread]
  dsimp only
  unfold LengthFits lengthOf
  by_cases h2 : line.length ≤ 2
  · rw [if_pos h2, if_neg (by omega), if_neg (by omega)]
  · rw [if_neg h2]
    by_cases h1000 : line.length ≤ 1000
    · rw [if_neg (by omega), if_pos (by omega)]
      by_cases hcl : ascii "Content-Length" <:+: cString (stack.stored line)
      · rw [if_pos hcl, if_pos hcl]
        by_cases hroom : (cString ((stack.stored line).drop 16)).length < 20
        · rw [if_neg (by omega), if_pos ⟨h1000, fun _ => hroom⟩]
        · rw [if_pos (by omega), if_neg (fun h => hroom (h.2 hcl))]
      · rw [if_neg hcl, if_neg hcl, if_pos ⟨h1000, fun h => absurd h hcl⟩]
    · rw [if_pos (by omega), if_neg (fun h => h1000 h.1)]

/-- What the reader makes of its next line. -/
theorem headerRead_cons {stack : HttpStack} {bufSize : BitVec 32}
    {arrivals arrivals' : List Arrival} {line : List UInt8}
    (hread : ∀ fuel, myReadline fuel lineStart arrivals =
      if line.length ≤ fuel then some (line, arrivals') else none) :
    HeaderRead stack bufSize arrivals ↔ line.length ≤ 2 ∨
      (2 < line.length ∧ line.length ≤ 1000 ∧ LengthFits (stack.stored line) ∧
        HeaderRead stack.cleared (lengthOf (stack.stored line) bufSize) arrivals') := by
  have hline : ∀ fuel, line.length ≤ fuel →
      myReadline fuel lineStart arrivals = some (line, arrivals') := by
    intro fuel hle
    rw [hread, if_pos hle]
  constructor
  · rintro ⟨fuel, bufSize', rest, h⟩
    have h' := myReadLoop_mono h (show fuel ≤ fuel + line.length + 1 by omega)
    rw [myReadLoop_line (hline _ (by omega))] at h'
    split_ifs at h' with h2 hfits
    · exact .inl h2
    · exact .inr ⟨by omega, hfits.1, hfits.2, _, _, _, h'⟩
    · simp at h'
  · rintro (h2 | ⟨h2, h1000, hfits, fuel, bufSize', rest, h⟩)
    · refine ⟨line.length + 1, bufSize, arrivals', ?_⟩
      rw [myReadLoop_line (hline _ le_rfl), if_pos h2]
    · refine ⟨fuel + line.length + 1, bufSize', rest, ?_⟩
      rw [myReadLoop_line (hline _ (by omega)), if_neg (by omega), if_pos ⟨h1000, hfits⟩]
      exact myReadLoop_mono h (by omega)

theorem headerRead_iff (stack : HttpStack) (bufSize : BitVec 32) (arrivals : List Arrival)
    (lines : List (List UInt8))
    (hlines : completeLines (heard lineStart (replies arrivals)) = lines) :
    HeaderRead stack bufSize arrivals ↔ HeaderFits stack lines := by
  induction lines generalizing stack bufSize arrivals with
  | nil =>
    apply iff_of_false
    · rintro ⟨fuel, bufSize', arrivals', h⟩
      cases fuel with
      | zero => simp [myReadLoop] at h
      | succ fuel =>
        rw [myReadLoop, myReadline_none (by decide) hlines] at h
        simp at h
    · rintro ⟨k, line, hk, -⟩
      simp at hk
  | cons line lines ih =>
    obtain ⟨arrivals', hafter, hread⟩ := myReadline_some hlines
    rw [headerRead_cons hread, headerFits_cons]
    rw [ih stack.cleared _ arrivals' hafter]

/-- **The header**: for all that a server can send, in whatever segments. -/
theorem httpHeader_iff (stack : HttpStack) (bufSize : BitVec 32) (arrivals : List Arrival) :
    HeaderRead stack bufSize arrivals ↔
      HeaderFits stack (completeLines (heard lineStart (replies arrivals))) :=
  headerRead_iff stack bufSize arrivals _ rfl

/-- A server that closes the connection behind the first line keeps the reader storing. -/
theorem httpHeader_closed :
    ¬ HeaderRead ⟨List.replicate 1000 0, fun _ => [], List.length_replicate⟩ 0
      [.segment (ascii "HTTP/1.1 200 OK\r\n")] := by
  have hlines : completeLines (heard lineStart
      (replies [.segment (ascii "HTTP/1.1 200 OK\r\n")])) = [ascii "HTTP/1.1 200 OK\r\n"] := by
    decide
  rw [headerRead_iff _ _ _ _ hlines]
  rintro ⟨k, line, hk, hshort, -⟩
  cases k with
  | zero =>
    obtain rfl : ascii "HTTP/1.1 200 OK\r\n" = line := by simpa using hk
    exact absurd hshort (by decide)
  | succ k => simp at hk

end Pmon.Netio
