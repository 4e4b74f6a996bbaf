import Mathlib.Algebra.Group.Nat.Defs
import Mathlib.Data.Int.Notation
import Mathlib.Tactic.Common
import Pmon.Lib.Run

/-!
# Reading over HTTP

`httpread`, `httplseek` and the end of `httpopen` of `pmon/netio/httplib.c`.  The bytes of a body
come in as they are received; of them the window from `start` to `end` is kept, and it only goes
forward.  The length of the body is in `buf_size`, which the files of all connections share.

## Key results

- `httpreadLoop_spec`: what a read returns from a position that is not before the window.
- `readRight_iff`: when one read is right.
- `httpReads_exact`: in which runs all of them are.
-/

namespace Pmon.Netio

open Pmon.Lib

/-! ## §1 The file -/

/-- `struct httpfile`, `buf_size`, and what is yet to come from the socket. -/
structure HttpFile where
  start : ℕ
  /-- `end`. -/
  upto : ℕ
  foffs : ℤ
  /-- What `buf` holds from `start` on. -/
  buf : List UInt8
  bufSize : ℤ
  arriving : List (List UInt8)

/-- The end of `httpopen`: the header is read, the first part of the body is received. -/
def httpOpened (contentLength : ℤ) : List (List UInt8) → HttpFile
  | [] => ⟨0, 0, 0, [], contentLength, []⟩
  | chunk :: arriving => ⟨0, chunk.length, 0, chunk, contentLength, arriving⟩

/-- The bytes that are in range are copied: the file, how many there are, and the bytes. -/
def copyRange (http : HttpFile) (nb : ℕ) : HttpFile × ℕ × List UInt8 :=
  if http.start ≤ http.foffs ∧ http.foffs < http.upto then
    let n := min nb (http.upto - http.foffs).toNat
    ({ http with foffs := http.foffs + n }, n,
      (http.buf.drop (http.foffs - http.start).toNat).take n)
  else (http, 0, [])

/-- The window is given up, and the next part of the body received; the loop is left at the end of
    the body, or where nothing comes. -/
def passWindow (http : HttpFile) : HttpFile × Bool :=
  let http := { http with start := http.upto }
  if http.bufSize ≤ http.foffs then (http, false)
  else
    match http.arriving with
    | [] => (http, false)
    | chunk :: arriving =>
      ({ http with buf := chunk, upto := http.start + chunk.length, arriving }, true)

/-- The loop of `httpread` for `nb` bytes: the file behind it, the bytes, and how many are left. -/
def httpreadLoop : (fuel : ℕ) → HttpFile → (nb : ℕ) → Option (HttpFile × List UInt8 × ℕ)
  | 0, _, _ => none
  | fuel + 1, http, nb =>
    if nb ≠ 0 ∧ http.start < http.upto then
      let (http, n, bytes) := copyRange http nb
      let (http, goesOn) := if http.upto ≤ http.foffs then passWindow http else (http, true)
      if goesOn then
        (httpreadLoop fuel http (nb - n)).map fun (http, more, nb) => (http, bytes ++ more, nb)
      else some (http, bytes, nb - n)
    else some (http, [], nb)

/-- `httpread`, if it returns: the file, the bytes, and the value.  Each round but the first and the
    last receives something. -/
def httpread (http : HttpFile) (nread : ℕ) : Option (HttpFile × List UInt8 × ℕ) :=
  (httpreadLoop (http.arriving.length + 2) http nread).map fun (http, bytes, nb) =>
    (http, bytes, nread - nb)

/-- Where `httplseek` goes: `SEEK_SET` and `SEEK_CUR`. -/
def httplseekTarget (http : HttpFile) (offs : ℤ) (how : ℕ) : Option ℤ :=
  match how with
  | 0 => some offs
  | 1 => some (http.foffs + offs)
  | _ => none

/-- `httplseek`: the file, and the value. -/
def httplseek (http : HttpFile) (offs : ℤ) (how : ℕ) : HttpFile × ℤ :=
  match httplseekTarget http offs how with
  | some target => ({ http with foffs := target }, target)
  | none => (http, -1)

/-! ## §2 Runs -/

inductive HttpCall where
  | read (n : ℕ)
  | lseek (offs : ℤ) (how : ℕ)
  /-- A file is opened on another connection, and its header announces a length. -/
  | otherOpen (contentLength : ℤ)

/-- What a call leaves; a read that does not return leaves nothing new. -/
def HttpFile.next (http : HttpFile) : HttpCall → HttpFile
  | .read n => ((httpread http n).map (·.1)).getD http
  | .lseek offs how => (httplseek http offs how).1
  | .otherOpen contentLength => { http with bufSize := contentLength }

/-- A call seeks nowhere but to a place in the body. -/
def InBody (body : List UInt8) (http : HttpFile) : HttpCall → Prop
  | .lseek offs how =>
    ∀ target, httplseekTarget http offs how = some target → 0 ≤ target ∧ target ≤ body.length
  | _ => True

/-- **A call does what it should**: a read returns, with the bytes of the body from the position
    on, and advances by so many. -/
def CallRight (body : List UInt8) (http : HttpFile) : HttpCall → Prop
  | .read n => ∃ http' bytes value, httpread http n = some (http', bytes, value) ∧
      bytes = (body.drop http.foffs.toNat).take n ∧
      value = min n (body.length - http.foffs.toNat) ∧ http'.foffs = http.foffs + value
  | .lseek offs how => ∀ target, httplseekTarget http offs how = some target →
      httplseek http offs how = ({ http with foffs := target }, target)
  | .otherOpen _ => True

/-- Bytes up to `target` come in from `upto` on before the position is taken to be the end: the
    position is below `buf_size` whenever more is to be received. -/
def Fed (bufSize foffs : ℤ) (target : ℕ) : (upto : ℕ) → List (List UInt8) → Prop
  | upto, [] => target ≤ upto
  | upto, chunk :: arriving =>
    target ≤ upto ∨
      max foffs upto < bufSize ∧ Fed bufSize foffs target (upto + chunk.length) arriving

/-- When a call does what it should: a read for some bytes is at the end of the body, or not before
    a window that has not been given up, and the bytes come in. -/
def CallFits (body : List UInt8) (http : HttpFile) : HttpCall → Prop
  | .read n => n = 0 ∨ http.foffs = body.length ∨ http.start ≤ http.foffs ∧ http.start < http.upto ∧
      Fed http.bufSize http.foffs (min (http.foffs.toNat + n) body.length) http.upto http.arriving
  | _ => True

/-! ## §3 One read -/

variable {body : List UInt8} {http http' : HttpFile} {nb fuel p n : ℕ}

/-- What the file holds is of the body. -/
structure Serves (body : List UInt8) (http : HttpFile) : Prop where
  foffs_nonneg : 0 ≤ http.foffs
  foffs_le : http.foffs ≤ body.length
  start_le : http.start ≤ http.upto
  upto_le : http.upto ≤ body.length
  window : http.buf.take (http.upto - http.start) =
    (body.drop http.start).take (http.upto - http.start)
  arriving : http.arriving.flatten = body.drop http.upto
  nonempty : ∀ chunk ∈ http.arriving, chunk ≠ []

/-- **The bytes of the window are copied**: none if the position is behind it. -/
theorem copyRange_eq (h : Serves body http) (hp : http.foffs = p) (hstart : http.start ≤ p) :
    copyRange http nb = ({ http with foffs := (p + min nb (http.upto - p) : ℕ) },
      min nb (http.upto - p), (body.drop p).take (min nb (http.upto - p))) := by
  rw [copyRange]
  by_cases hupto : p < http.upto
  · have hn : (http.upto - http.foffs : ℤ).toNat = http.upto - p := by omega
    have hd : (http.foffs - http.start : ℤ).toNat = p - http.start := by omega
    rw [if_pos ⟨by omega, by omega⟩]
    dsimp only
    rw [hn, hd, hp]
    generalize hk : min nb (http.upto - p) = k
    have hwindow := congrArg (fun l => (l.drop (p - http.start)).take k) h.window
    simp only [List.drop_take, List.take_take, List.drop_drop] at hwindow
    rw [Nat.min_eq_left (by omega), Nat.add_sub_cancel' hstart] at hwindow
    rw [hwindow]
    rfl
  · have hzero : min nb (http.upto - p) = 0 := by omega
    rw [if_neg (by omega), hzero, Nat.add_zero, ← hp]
    rfl

/-- A window that is passed without another one. -/
theorem passWindow_stops (hstop : (passWindow http).2 = false) :
    (passWindow http).1 = { http with start := http.upto } ∧
      (http.bufSize ≤ http.foffs ∨ http.arriving = []) := by
  rw [passWindow] at hstop ⊢
  dsimp only at hstop ⊢
  split
  · rename_i hle
    exact ⟨rfl, Or.inl hle⟩
  · rename_i hgt
    rw [if_neg hgt] at hstop
    cases harriving : http.arriving with
    | nil => exact ⟨rfl, Or.inr rfl⟩
    | cons chunk arriving =>
      rw [harriving] at hstop
      cases hstop

/-- A window that another one follows. -/
theorem passWindow_goes (h : Serves body http) (hp : http.foffs = p)
    (hgo : (passWindow http).2 = true) : ∃ chunk arriving, http.arriving = chunk :: arriving ∧
      ¬ http.bufSize ≤ p ∧ (passWindow http).1 = { http with
        start := http.upto, buf := chunk, upto := http.upto + chunk.length, arriving } ∧
      Serves body (passWindow http).1 ∧ 0 < chunk.length := by
  rw [passWindow] at hgo ⊢
  dsimp only at hgo ⊢
  by_cases hle : http.bufSize ≤ http.foffs
  · rw [if_pos hle] at hgo
    cases hgo
  · rw [if_neg hle] at hgo ⊢
    cases harriving : http.arriving with
    | nil =>
      rw [harriving] at hgo
      cases hgo
    | cons chunk arriving =>
      have hflat := h.arriving
      rw [harriving, List.flatten_cons] at hflat
      have hlen := congrArg List.length hflat
      rw [List.length_append, List.length_drop] at hlen
      have hne : 0 < chunk.length :=
        List.length_pos_iff.mpr (h.nonempty chunk (by rw [harriving]; exact List.mem_cons_self))
      have hupto := h.upto_le
      refine ⟨chunk, arriving, rfl, by omega, rfl, ⟨h.foffs_nonneg, h.foffs_le, ?_, ?_, ?_, ?_, ?_⟩,
        hne⟩
      · exact Nat.le_add_right _ _
      · dsimp only
        omega
      · dsimp only
        rw [Nat.add_sub_cancel_left, List.take_length, ← hflat, List.take_left]
      · dsimp only
        rw [← List.drop_drop, ← hflat, List.drop_left]
      · exact fun c hc => h.nonempty c (by rw [harriving]; exact List.mem_cons_of_mem _ hc)

/-- Nothing changes for a position that the file has already passed. -/
theorem fed_congr {bufSize foffs : ℤ} (foffs' : ℤ) {target : ℕ} (arriving : List (List UInt8))
    (upto : ℕ) (h : max foffs upto = max foffs' upto) :
    Fed bufSize foffs target upto arriving ↔ Fed bufSize foffs' target upto arriving := by
  induction arriving generalizing upto with
  | nil => rfl
  | cons chunk arriving ih =>
    rw [Fed, Fed, h, ih]
    push_cast
    omega

/-- How a read ended: with `k` bytes from the position `p` on. -/
structure Ended (body : List UInt8) (http : HttpFile) (p nb k : ℕ)
    (r : HttpFile × List UInt8 × ℕ) : Prop where
  count : p + k ≤ body.length
  left : r.2.2 + k = nb
  bytes : r.2.1 = (body.drop p).take k
  foffs : r.1.foffs = (p + k : ℕ)
  serves : Serves body r.1
  all_iff : k = min nb (body.length - p) ↔ nb = 0 ∨ p = body.length ∨
    http.start < http.upto ∧
      Fed http.bufSize p (min (p + nb) body.length) http.upto http.arriving

/-- A loop that does not begin. -/
theorem ended_nothing (h : Serves body http) (hp : http.foffs = p)
    (hstop : ¬ (nb ≠ 0 ∧ http.start < http.upto)) : Ended body http p nb 0 (http, [], nb) := by
  have hle := h.foffs_le
  refine ⟨by omega, rfl, rfl, hp, h, ?_⟩
  constructor
  · intro hall
    omega
  · rintro (hzero | hend | ⟨hlt, -⟩)
    · omega
    · omega
    · have hnb : nb = 0 := by
        by_contra hne
        exact hstop ⟨hne, hlt⟩
      omega

/-- Where nothing more is needed, it need not come. -/
theorem fed_of_le {bufSize foffs : ℤ} {target upto : ℕ} (arriving : List (List UInt8))
    (h : target ≤ upto) : Fed bufSize foffs target upto arriving := by
  cases arriving with
  | nil => exact h
  | cons chunk arriving => exact Or.inl h

/-- The position is moved. -/
theorem Serves.moved {q : ℤ} (h : Serves body http) (hq : 0 ≤ q) (hle : q ≤ body.length) :
    Serves body { http with foffs := q } :=
  ⟨hq, hle, h.start_le, h.upto_le, h.window, h.arriving, h.nonempty⟩

/-- The window is empty. -/
theorem Serves.passed (h : Serves body http) : Serves body { http with start := http.upto } := by
  refine ⟨h.foffs_nonneg, h.foffs_le, Nat.le_refl _, h.upto_le, ?_, h.arriving, h.nonempty⟩
  dsimp only
  rw [Nat.sub_self, List.take_zero, List.take_zero]

/-- The round that ends at the last byte asked for. -/
theorem ended_inside (h : Serves body http) (hgo : nb ≠ 0 ∧ http.start < http.upto)
    (hinside : p + nb < http.upto) :
    Ended body http p nb nb
      ({ http with foffs := (p + nb : ℕ) }, (body.drop p).take nb ++ [], nb - nb) := by
  have hupto := h.upto_le
  refine ⟨by omega, by dsimp only; omega, List.append_nil _, rfl, h.moved (by omega) (by omega), ?_⟩
  apply iff_of_true
  · omega
  · exact Or.inr (Or.inr ⟨hgo.2, fed_of_le _ (by omega)⟩)

/-- The round behind which nothing more is received. -/
theorem ended_stops (h : Serves body http) (hple : p ≤ body.length)
    (hgo : nb ≠ 0 ∧ http.start < http.upto) (hn : n = min nb (http.upto - p))
    (hpast : http.upto ≤ p + n)
    (hstop : http.bufSize ≤ (p + n : ℕ) ∨ http.arriving = []) :
    Ended body http p nb n
      ({ http with foffs := (p + n : ℕ), start := http.upto }, (body.drop p).take n, nb - n) := by
  have hupto := h.upto_le
  have hserves := (h.moved (q := (p + n : ℕ)) (by omega) (by omega)).passed
  refine ⟨by omega, by dsimp only; omega, rfl, rfl, hserves, ?_⟩
  -- what comes in later is of no use: the bytes of the window have to be enough
  have hfed : Fed http.bufSize p (min (p + nb) body.length) http.upto http.arriving ↔
      min (p + nb) body.length ≤ http.upto := by
    cases harriving : http.arriving with
    | nil => exact Iff.rfl
    | cons chunk arriving =>
      rw [harriving] at hstop
      have hfull : ¬ max (p : ℤ) http.upto < http.bufSize := by
        rcases hstop with hle | hnil
        · omega
        · cases hnil
      rw [Fed]
      apply or_iff_left
      exact fun hf => hfull hf.1
  rw [hfed]
  omega

/-- The round behind which the next part of the body is in the window. -/
theorem ended_goes {chunk : List UInt8} {arriving : List (List UInt8)} {k : ℕ}
    {r : HttpFile × List UInt8 × ℕ} (hgo : nb ≠ 0 ∧ http.start < http.upto)
    (hupto : http.upto ≤ body.length)
    (hn : n = min nb (http.upto - p)) (hpast : http.upto ≤ p + n)
    (harriving : http.arriving = chunk :: arriving) (hsize : ¬ http.bufSize ≤ (p + n : ℕ))
    (hchunk : 0 < chunk.length)
    (hend : Ended body { http with
      foffs := (p + n : ℕ), start := http.upto, buf := chunk, upto := http.upto + chunk.length,
      arriving } (p + n) (nb - n) k r) :
    Ended body http p nb (n + k) (r.1, (body.drop p).take n ++ r.2.1, r.2.2) := by
  have hcount := hend.count
  have hleft := hend.left
  refine ⟨by omega, by dsimp only; omega, ?_, ?_, hend.serves, ?_⟩
  · dsimp only
    rw [hend.bytes, List.take_add, List.drop_drop]
  · dsimp only
    rw [hend.foffs, Nat.add_assoc]
  · have hall := hend.all_iff
    dsimp only at hall
    -- the position that the rest was read from is the window's end, or where it was
    rw [fed_congr p arriving _ (by omega),
      show p + n + (nb - n) = p + nb by omega] at hall
    rw [harriving, Fed]
    by_cases hfed :
        Fed http.bufSize p (min (p + nb) body.length) (http.upto + chunk.length) arriving
    · simp only [hfed, and_true] at hall ⊢
      omega
    · simp only [hfed, and_false, or_false] at hall ⊢
      omega

/-- **What a read returns** from a position that is not before the window. -/
theorem httpreadLoop_spec (nb : ℕ) (h : Serves body http) (hp : http.foffs = p)
    (hstart : http.start ≤ p) (hfuel : http.arriving.length + 2 ≤ fuel) :
    ∃ k r, httpreadLoop fuel http nb = some r ∧ Ended body http p nb k r := by
  induction fuel generalizing http nb p with
  | zero => omega
  | succ fuel ih =>
    have hple : p ≤ body.length := by
      have := h.foffs_le
      omega
    rw [httpreadLoop]
    by_cases hgo : nb ≠ 0 ∧ http.start < http.upto
    · rw [if_pos hgo, copyRange_eq h hp hstart]
      dsimp only
      generalize hn : min nb (http.upto - p) = n
      have hupto := h.upto_le
      by_cases hpast : http.upto ≤ p + n
      · have hmoved := h.moved (q := (p + n : ℕ)) (by omega) (by omega)
        rw [if_pos (show (http.upto : ℤ) ≤ (p + n : ℕ) by omega)]
        cases hgoes : (passWindow { http with foffs := (p + n : ℕ) }).2 with
        | false =>
          obtain ⟨hfile, hstop⟩ := passWindow_stops hgoes
          rw [if_neg Bool.false_ne_true, hfile]
          exact ⟨n, _, rfl, ended_stops h hple hgo hn.symm hpast hstop⟩
        | true =>
          obtain ⟨chunk, arriving, harriving, hsize, hfile, hserves, hchunk⟩ :=
            passWindow_goes hmoved rfl hgoes
          have harriving' : http.arriving = chunk :: arriving := harriving
          rw [hfile] at hserves ⊢
          rw [harriving', List.length_cons] at hfuel
          rw [if_pos rfl]
          obtain ⟨k, r, hloop, hend⟩ :=
            ih (p := p + n) (nb - n) hserves rfl hpast (by dsimp only; omega)
          rw [hloop]
          exact ⟨n + k, _, rfl, ended_goes hgo hupto hn.symm hpast harriving' hsize hchunk hend⟩
      · have hnb : n = nb := by omega
        subst hnb
        rw [if_neg (show ¬ (http.upto : ℤ) ≤ (p + n : ℕ) by omega), if_pos rfl]
        obtain ⟨fuel, rfl⟩ : ∃ f, fuel = f + 1 := ⟨fuel - 1, by omega⟩
        rw [httpreadLoop, if_neg (by omega)]
        exact ⟨n, _, rfl, ended_inside h hgo (by omega)⟩
    · rw [if_neg hgo]
      exact ⟨0, _, rfl, ended_nothing h hp hgo⟩

/-- **Before the window** a read never returns. -/
theorem httpreadLoop_before (hbefore : http.foffs < http.start) (hnb : nb ≠ 0)
    (hwindow : http.start < http.upto) : httpreadLoop fuel http nb = none := by
  induction fuel with
  | zero => rfl
  | succ fuel ih =>
    rw [httpreadLoop, if_pos ⟨hnb, hwindow⟩, copyRange, if_neg (by omega)]
    dsimp only
    rw [if_neg (show ¬ (http.upto : ℤ) ≤ http.foffs by omega), if_pos rfl, Nat.sub_zero, ih]
    rfl

/-- `httpread` from a position that is not before the window. -/
theorem httpread_spec (nb : ℕ) (h : Serves body http) (hp : http.foffs = p)
    (hstart : http.start ≤ p) :
    ∃ k http', httpread http nb = some (http', (body.drop p).take k, k) ∧ p + k ≤ body.length ∧
      http'.foffs = (p + k : ℕ) ∧ Serves body http' ∧
      (k = min nb (body.length - p) ↔ nb = 0 ∨ p = body.length ∨ http.start < http.upto ∧
        Fed http.bufSize p (min (p + nb) body.length) http.upto http.arriving) := by
  obtain ⟨k, r, hloop, hend⟩ := httpreadLoop_spec nb h hp hstart (Nat.le_refl _)
  have hleft := hend.left
  refine ⟨k, r.1, ?_, hend.count, hend.foffs, hend.serves, hend.all_iff⟩
  rw [httpread, hloop, Option.map_some]
  dsimp only
  rw [hend.bytes, show nb - r.2.2 = k by omega]

/-- A read that has nothing to do, or whose window has been given up. -/
theorem httpread_nothing (hstop : ¬ (nb ≠ 0 ∧ http.start < http.upto)) :
    httpread http nb = some (http, [], 0) := by
  rw [httpread, httpreadLoop, if_neg hstop, Option.map_some]
  dsimp only
  rw [Nat.sub_self]

/-! ## §4 Every read -/

/-- **When a read is right.** -/
theorem readRight_iff (h : Serves body http) :
    CallRight body http (.read n) ↔ CallFits body http (.read n) := by
  obtain ⟨p, hp⟩ : ∃ p : ℕ, http.foffs = p := ⟨http.foffs.toNat, by
    have := h.foffs_nonneg
    omega⟩
  have hple : p ≤ body.length := by
    have := h.foffs_le
    omega
  have hle := h.start_le
  have hupto := h.upto_le
  rw [CallRight, CallFits, hp, Int.toNat_natCast]
  by_cases hstart : http.start ≤ p
  · obtain ⟨k, http', hread, hcount, hfoffs, -, hall⟩ := httpread_spec n h hp hstart
    have hfits : (n = 0 ∨ (p : ℤ) = body.length ∨ (http.start : ℤ) ≤ p ∧
        http.start < http.upto ∧
        Fed http.bufSize p (min (p + n) body.length) http.upto http.arriving) ↔
        k = min n (body.length - p) := by
      rw [hall, and_iff_right (show (http.start : ℤ) ≤ p by omega)]
      norm_cast
    rw [hfits, hread]
    constructor
    · rintro ⟨_, _, _, hresult, -, hvalue, -⟩
      cases hresult
      exact hvalue
    · intro hk
      refine ⟨http', _, k, rfl, ?_, hk, by rw [hfoffs]; push_cast; rfl⟩
      rw [hk, List.take_eq_take_iff, List.length_drop, Nat.min_assoc, Nat.min_self]
  · -- the position is before the window: a read is right only for nothing
    by_cases hn : n = 0
    · subst hn
      apply iff_of_true
      · refine ⟨http, [], 0, httpread_nothing (by omega), rfl, by omega, ?_⟩
        rw [hp, Int.natCast_zero, Int.add_zero]
      · exact Or.inl rfl
    · apply iff_of_false
      · rintro ⟨http', bytes, value, hread, -, hvalue, -⟩
        by_cases hwindow : http.start < http.upto
        · rw [httpread, httpreadLoop_before (by omega) hn hwindow] at hread
          cases hread
        · rw [httpread_nothing (by omega)] at hread
          cases hread
          omega
      · rintro (hzero | hend | ⟨hle, -⟩)
        · exact hn hzero
        · omega
        · omega

/-- A seek is always right. -/
theorem callRight_iff {call : HttpCall} (h : Serves body http) :
    CallRight body http call ↔ CallFits body http call := by
  cases call with
  | read n => exact readRight_iff h
  | lseek offs how =>
    apply iff_of_true
    · intro target htarget
      rw [httplseek, htarget]
    · trivial
  | otherOpen contentLength => exact Iff.rfl

/-- What the file holds stays of the body. -/
theorem Serves.next {call : HttpCall} (h : Serves body http) (hin : InBody body http call) :
    Serves body (http.next call) := by
  cases call with
  | read n =>
    rw [HttpFile.next]
    obtain ⟨p, hp⟩ : ∃ p : ℕ, http.foffs = p := ⟨http.foffs.toNat, by
      have := h.foffs_nonneg
      omega⟩
    by_cases hstart : http.start ≤ p
    · obtain ⟨k, http', hread, -, -, hserves, -⟩ := httpread_spec n h hp hstart
      rw [hread]
      exact hserves
    · by_cases hgo : n ≠ 0 ∧ http.start < http.upto
      · rw [httpread, httpreadLoop_before (by omega) hgo.1 hgo.2]
        exact h
      · rw [httpread_nothing hgo]
        exact h
  | lseek offs how =>
    rw [HttpFile.next, httplseek]
    cases htarget : httplseekTarget http offs how with
    | none => exact h
    | some target =>
      obtain ⟨hnonneg, hle⟩ := hin target htarget
      exact h.moved hnonneg hle
  | otherOpen contentLength =>
    exact ⟨h.foffs_nonneg, h.foffs_le, h.start_le, h.upto_le, h.window, h.arriving, h.nonempty⟩

/-- A body comes in in these parts; offsets in it are `int`s. -/
structure Arrives (body : List UInt8) (chunks : List (List UInt8)) : Prop where
  flatten : chunks.flatten = body
  nonempty : ∀ chunk ∈ chunks, chunk ≠ []
  length_lt : body.length < 2 ^ 31

theorem Arrives.serves {chunks : List (List UInt8)} (h : Arrives body chunks)
    (contentLength : ℤ) : Serves body (httpOpened contentLength chunks) := by
  have hflat := h.flatten
  cases chunks with
  | nil =>
    have hnil : body = [] := hflat.symm
    subst hnil
    exact ⟨Int.le_refl 0, Int.le_refl 0, Nat.le_refl 0, Nat.le_refl 0, rfl, rfl, h.nonempty⟩
  | cons chunk arriving =>
    rw [List.flatten_cons] at hflat
    subst hflat
    refine ⟨Int.le_refl 0, ?_, Nat.zero_le _, ?_, ?_, ?_, ?_⟩
    · exact Int.natCast_nonneg _
    · rw [List.length_append]
      exact Nat.le_add_right _ _
    · exact (List.take_length).trans (List.take_left).symm
    · exact (List.drop_left).symm
    · exact fun c hc => h.nonempty c (List.mem_cons_of_mem _ hc)

/-- **In which runs every read is right**: those whose reads find the position where the window is
    or goes to, with all bytes coming in before `buf_size` is reached. -/
theorem httpReads_exact {chunks : List (List UInt8)} {calls : List HttpCall}
    (h : Arrives body chunks)
    (hin : EveryStep HttpFile.next (InBody body) (httpOpened body.length chunks) calls) :
    EveryStep HttpFile.next (CallRight body) (httpOpened body.length chunks) calls ↔
      EveryStep HttpFile.next (CallFits body) (httpOpened body.length chunks) calls := by
  have hboth : EveryStep HttpFile.next (fun s call => InBody body s call ∧ CallRight body s call)
      (httpOpened body.length chunks) calls ↔
      EveryStep HttpFile.next (fun s call => InBody body s call ∧ CallFits body s call)
        (httpOpened body.length chunks) calls := by
    refine everyStep_iff ?_ ?_ (h.serves body.length)
    · intro s call hs
      rw [callRight_iff hs]
    · intro s call hs hcall
      exact hs.next hcall.1
  rw [everyStep_and, everyStep_and] at hboth
  simpa only [hin, true_and] using hboth

/-- A read behind the first part of a body. -/
theorem httpReads_exact_behind :
    (InBody [7, 8, 9] (httpOpened 3 [[7, 8], [9]]) (.lseek 1 0) ∧
      Arrives [7, 8, 9] [[7, 8], [9]]) ∧
    EveryStep HttpFile.next (CallRight [7, 8, 9]) (httpOpened 3 [[7, 8], [9]])
      [.lseek 1 0, .read 5] := by
  have harrives : Arrives [7, 8, 9] [[7, 8], [9]] := ⟨rfl, by decide, by decide⟩
  have htarget : InBody [7, 8, 9] (httpOpened 3 [[7, 8], [9]]) (.lseek 1 0) := by
    rintro target ⟨⟩
    decide
  refine ⟨⟨htarget, harrives⟩, (httpReads_exact harrives ?_).mpr ?_⟩
  · rw [everyStep_cons, everyStep_cons]
    refine ⟨htarget, trivial, ?_⟩
    intro before l hprefix
    simp at hprefix
  · rw [everyStep_cons, everyStep_cons]
    refine ⟨trivial, Or.inr (Or.inr ⟨by decide, by decide, ?_⟩), ?_⟩
    · exact Or.inr ⟨by decide, fed_of_le _ (by decide)⟩
    · intro before l hprefix
      simp at hprefix

/-- A body of one byte is read to its end; from its start again, nothing is. -/
theorem httpReads_again : ¬ ∀ (body : List UInt8) (chunks : List (List UInt8))
    (calls : List HttpCall), Arrives body chunks →
    EveryStep HttpFile.next (InBody body) (httpOpened body.length chunks) calls →
    EveryStep HttpFile.next (CallRight body) (httpOpened body.length chunks) calls := by
  intro h
  have hall := h [7] [[7]] [.read 1, .lseek 0 0, .read 1] ⟨rfl, by decide, by decide⟩ ?_
  · rw [everyStep_cons, everyStep_cons, everyStep_cons] at hall
    obtain ⟨-, -, ⟨_, _, _, hread, -, hvalue, -⟩, -⟩ := hall
    cases hread
    cases hvalue
  · rw [everyStep_cons, everyStep_cons, everyStep_cons]
    refine ⟨trivial, ?_, trivial, ?_⟩
    · rintro target ⟨⟩
      decide
    · intro before l hprefix
      simp at hprefix

end Pmon.Netio
