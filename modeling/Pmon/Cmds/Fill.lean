import Mathlib.Data.FinEnum
import Mathlib.Data.Nat.Bitwise
import Pmon.Lib.Words
import Pmon.Lib.WordMem
import Pmon.Libc.Strings

/-!
# The command `fill`

`cmd_fill` of `pmon/cmds/memcmds.c`: a pattern of bytes and strings is written over a range of
memory, by words where the pattern and the range allow it.

## Key results

- `fillBytes_apply`, `fillWords_apply`: what the two loops leave.
- `fill_agree`: the loops leave the same where both may be taken.
- `cmdFill_exact`: when the range holds the pattern afterwards.
-/

namespace Pmon.Cmds.Fill

open Pmon.Lib Pmon.Libc

/-! ## §1 The pattern -/

/-- `PATSZ`. -/
def patsz : ℕ := 80

/-- The characters of a string, put into the pattern from `d` on. -/
def putString : CStr → (d : ℕ) → Mem → Option (ℕ × Mem)
  | [], d, pat => some (d, pat)
  | c :: s, d, pat => if patsz ≤ d then none else putString s (d + 1) (pat.put d c)

/-- The loop over the arguments behind the addresses: the length of the pattern, and the pattern. -/
def patternLoop (getRsa : CStr → Option (BitVec 32)) :
    List CStr → (d : ℕ) → Mem → Option (ℕ × Mem)
  | [], d, pat => some (d, pat)
  | arg :: args, d, pat =>
    -- "-s"
    if arg = [45, 115] then
      match args with
      | [] => none
      | s :: args => (putString s d pat).bind fun (d, pat) => patternLoop getRsa args d pat
    else
      match getRsa arg with
      | none => none
      | some a =>
        if patsz ≤ d then none
        else patternLoop getRsa args (d + 1) (pat.put d (UInt8.ofNat a.toNat))

/-! ## §2 The loops -/

/-- `++p`: behind the last byte the pattern begins anew. -/
def nextIndex (len i : ℕ) : ℕ := if len ≤ i + 1 then 0 else i + 1

/-- The loop by bytes, with the index of the next one in the pattern. -/
def fillBytes (pat : Mem) (len upto frm i : ℕ) (m : Mem) : Mem :=
  if frm < upto then
    fillBytes pat len upto (frm + 1) (nextIndex len i) (m.put frm (pat i))
  else m
termination_by upto - frm

/-- The loop by words. -/
def fillWords (w upto frm : ℕ) (m : Mem) : Mem :=
  if frm < upto then fillWords w upto (frm + 4) (m.putWord frm w) else m
termination_by upto - frm

/-- The word that is written; with no pattern it is what the variable held. -/
def patternWord (pat : Mem) (len w : ℕ) : ℕ :=
  match len with
  | 1 =>
    let w := (pat 0).toNat
    let w := w ||| w <<< 8
    w ||| w <<< 16
  | 2 =>
    let w := pat.half 0
    w ||| w <<< 16
  | 4 => pat.word 0
  | _ => w

/-- Where words are written. -/
def ByWords (len upto frm : ℕ) : Prop := len < 5 ∧ len &&& (len - 1) = 0 ∧ (upto ||| frm) &&& 3 = 0

instance (len upto frm : ℕ) : Decidable (ByWords len upto frm) :=
  inferInstanceAs (Decidable (_ ∧ _))

/-- `cmd_fill` of two addresses and further arguments, with what the pattern and the word hold at
    first: what it returns, and the memory. -/
def cmdFill (getRsa : CStr → Option (BitVec 32)) (av1 av2 : CStr) (args : List CStr) (stack : Mem)
    (w : ℕ) (m : Mem) : ℤ × Mem :=
  match getRsa av1, getRsa av2 with
  | some frm, some upto =>
    if upto.toNat < frm.toNat then (1, m)
    else
      match patternLoop getRsa args 0 stack with
      | none => (-1, m)
      | some (len, pat) =>
        let upto := (upto + 1).toNat
        if ByWords len upto frm.toNat then
          (0, fillWords (patternWord pat len w) upto frm.toNat m)
        else (0, fillBytes pat len upto frm.toNat 0 m)
  | _, _ => (-1, m)

/-! ## §3 What the loops leave -/

variable {pat m : Mem} {len upto frm i w : ℕ}

/-- Memory with a range that holds a pattern over and over. -/
def patterned (pat : Mem) (len upto frm : ℕ) (m : Mem) : Mem := fun a =>
  if frm ≤ a ∧ a < upto then pat ((a - frm) % len) else m a

/-- **The loop by bytes.** -/
theorem fillBytes_apply (hi : i < len) (a : ℕ) :
    fillBytes pat len upto frm i m a =
      if frm ≤ a ∧ a < upto then pat ((i + (a - frm)) % len) else m a := by
  fun_induction fillBytes pat len upto frm i m with
  | case1 frm i m hlt ih =>
    have hnext : nextIndex len i < len := by
      unfold nextIndex
      split <;> omega
    rw [ih hnext]
    by_cases hfirst : a = frm
    · rw [hfirst, if_neg (by omega), if_pos ⟨Nat.le_refl _, hlt⟩, Mem.put_self, Nat.sub_self,
        Nat.add_zero, Nat.mod_eq_of_lt hi]
    · by_cases hin : frm + 1 ≤ a ∧ a < upto
      · rw [if_pos hin, if_pos (by omega)]
        congr 1
        have hsum : i + (a - frm) = i + 1 + (a - (frm + 1)) := by omega
        rw [hsum]
        unfold nextIndex
        split
        · -- the pattern begins anew
          have hlen : i + 1 = len := by omega
          rw [hlen, Nat.zero_add, Nat.add_mod_left]
        · rfl
      · rw [if_neg hin, if_neg (by omega), Mem.put_of_ne hfirst]
  | case2 frm i m hlt => rw [if_neg (by omega)]

theorem fillBytes_eq (hlen : 0 < len) :
    fillBytes pat len upto frm 0 m = patterned pat len upto frm m := by
  funext a
  rw [fillBytes_apply hlen, Nat.zero_add]
  rfl

/-- The bytes of a word. -/
theorem putWord_apply (m : Mem) (a w : ℕ) {k : ℕ} (hk : k < 4) :
    m.putWord a w (a + k) = UInt8.ofNat (w / 256 ^ k) := by
  have hlen : k < (le32 w).length := hk
  rw [Mem.putWord, Mem.store_of_mem hlen]
  have hcases : k = 0 ∨ k = 1 ∨ k = 2 ∨ k = 3 := by omega
  rcases hcases with rfl | rfl | rfl | rfl
  · simp [le32]
  · simp [le32]
  · simp [le32]
  · simp [le32]

/-- **The loop by words**, in a range of whole words. -/
theorem fillWords_apply (halign : (upto - frm) % 4 = 0) (a : ℕ) :
    fillWords w upto frm m a =
      if frm ≤ a ∧ a < upto then UInt8.ofNat (w / 256 ^ ((a - frm) % 4)) else m a := by
  fun_induction fillWords w upto frm m with
  | case1 frm m hlt ih =>
    rw [ih (by omega)]
    by_cases hword : frm ≤ a ∧ a < frm + 4
    · obtain ⟨k, rfl⟩ : ∃ k, a = frm + k := ⟨a - frm, by omega⟩
      rw [if_neg (by omega), if_pos (by omega), putWord_apply m frm w (by omega),
        Nat.add_sub_cancel_left, Nat.mod_eq_of_lt (by omega)]
    · by_cases hin : frm + 4 ≤ a ∧ a < upto
      · rw [if_pos hin, if_pos (by omega)]
        congr 3
        omega
      · rw [if_neg hin, if_neg (by omega)]
        exact Mem.store_of_not_mem (by rw [le32, List.length_cons]; simp; omega)
  | case2 frm m hlt => rw [if_neg (by omega)]

/-- The bytes of a word that is read. -/
theorem ofNat_word (pat : Mem) {k : ℕ} (hk : k < 4) :
    UInt8.ofNat (pat.word 0 / 256 ^ k) = pat k := by
  apply UInt8.toNat_inj.mp
  have h0 := (pat 0).toNat_lt
  have h1 := (pat 1).toNat_lt
  have h2 := (pat 2).toNat_lt
  have h3 := (pat 3).toNat_lt
  rw [UInt8.toNat_ofNat', Mem.word]
  simp only [Nat.zero_add]
  have hcases : k = 0 ∨ k = 1 ∨ k = 2 ∨ k = 3 := by omega
  rcases hcases with rfl | rfl | rfl | rfl
  all_goals omega

theorem or_shift {a n : ℕ} (h : a < 2 ^ n) : a ||| a <<< n = a + a * 2 ^ n := by
  rw [Nat.or_comm, ← Nat.shiftLeft_add_eq_or_of_lt h, Nat.shiftLeft_eq, Nat.add_comm]

/-- **The word of a pattern** has the bytes of the pattern, over and over. -/
theorem patternWord_eq (pat : Mem) (w : ℕ) (hlen : len = 1 ∨ len = 2 ∨ len = 4) :
    patternWord pat len w = Mem.word (fun k => pat (k % len)) 0 := by
  have h0 := (pat 0).toNat_lt
  have h1 := (pat 1).toNat_lt
  rcases hlen with rfl | rfl | rfl
  · have hlow : (pat 0).toNat ||| (pat 0).toNat <<< 8 = (pat 0).toNat + (pat 0).toNat * 2 ^ 8 :=
      or_shift (by omega)
    unfold patternWord
    dsimp only
    rw [hlow, or_shift (n := 16) (by omega)]
    simp only [Mem.word, Nat.mod_one]
    omega
  · have hhalf : pat.half 0 < 2 ^ 16 := Mem.half_lt
    unfold patternWord
    dsimp only
    rw [or_shift hhalf]
    simp only [Mem.word, Mem.half, Nat.zero_add, Nat.zero_mod, Nat.mod_self, Nat.reduceMod]
    omega
  · rfl

theorem ByWords.length (h : ByWords len upto frm) (hlen : 0 < len) :
    len = 1 ∨ len = 2 ∨ len = 4 := by
  obtain ⟨hlt, hpow, -⟩ := h
  have hcases : len = 1 ∨ len = 2 ∨ len = 3 ∨ len = 4 := by omega
  rcases hcases with rfl | rfl | rfl | rfl
  · exact .inl rfl
  · exact .inr (.inl rfl)
  · exact absurd hpow (by decide)
  · exact .inr (.inr rfl)

theorem ByWords.aligned (h : ByWords len upto frm) : upto % 4 = 0 ∧ frm % 4 = 0 := by
  have hboth : (upto ||| frm) % 2 ^ 2 = 0 := by
    rw [← Nat.and_two_pow_sub_one_eq_mod]
    exact h.2.2
  rw [Nat.or_mod_two_pow, Nat.or_eq_zero_iff] at hboth
  exact hboth

/-- **The loop by words**, where it is taken. -/
theorem fillWords_eq (h : ByWords len upto frm) (hlen : 0 < len) :
    fillWords (patternWord pat len w) upto frm m = patterned pat len upto frm m := by
  obtain ⟨hupto, hfrm⟩ := h.aligned
  have hfour : len = 1 ∨ len = 2 ∨ len = 4 := h.length hlen
  funext a
  rw [fillWords_apply (by omega), patternWord_eq pat w hfour, patterned,
    ofNat_word (fun k => pat (k % len)) (Nat.mod_lt _ (by decide))]
  congr 2
  -- the length of the pattern divides that of a word
  rcases hfour with rfl | rfl | rfl <;> omega

/-- Where both loops may be taken they leave the same. -/
theorem fill_agree (h : ByWords len upto frm) (hlen : 0 < len) :
    fillWords (patternWord pat len w) upto frm m = fillBytes pat len upto frm 0 m := by
  rw [fillWords_eq h hlen, fillBytes_eq hlen]

/-! ## §4 The command -/

variable {getRsa : CStr → Option (BitVec 32)} {av1 av2 : CStr} {args : List CStr} {stack : Mem}
  {first last : BitVec 32}

/-- The range from `first` up to `last` holds the pattern, and the rest of the memory is as it
    was. -/
def Filled (pat : Mem) (len : ℕ) (first last : BitVec 32) (m m' : Mem) : Prop :=
  ∀ a, m' a = if first.toNat ≤ a ∧ a ≤ last.toNat then pat ((a - first.toNat) % len) else m a

/-- **`cmd_fill`** leaves the range behind the last address. -/
theorem cmdFill_eq (hfirst : getRsa av1 = some first) (hlast : getRsa av2 = some last)
    (hle : first.toNat ≤ last.toNat) (hpat : patternLoop getRsa args 0 stack = some (len, pat))
    (hlen : 0 < len) :
    cmdFill getRsa av1 av2 args stack w m =
      (0, patterned pat len (last + 1).toNat first.toNat m) := by
  unfold cmdFill
  rw [hfirst, hlast]
  dsimp only
  rw [if_neg (by omega), hpat]
  dsimp only
  by_cases hwords : ByWords len (last + 1).toNat first.toNat
  · rw [if_pos hwords, fillWords_eq hwords hlen]
  · rw [if_neg hwords, fillBytes_eq hlen]

/-- **When the range is filled**: unless it ends at the last address there is, where nothing is
    written; then exactly if it holds the pattern already. -/
theorem cmdFill_exact (m : Mem) (w : ℕ) (hfirst : getRsa av1 = some first)
    (hlast : getRsa av2 = some last) (hle : first.toNat ≤ last.toNat)
    (hpat : patternLoop getRsa args 0 stack = some (len, pat)) (hlen : 0 < len) :
    Filled pat len first last m (cmdFill getRsa av1 av2 args stack w m).2 ↔
      last ≠ 0xffffffff ∨ Filled pat len first last m m := by
  rw [cmdFill_eq hfirst hlast hle hpat hlen]
  have hbound := last.isLt
  by_cases htop : last = 0xffffffff
  · -- the address behind the range is 0
    have hzero : (last + 1).toNat = 0 := by
      rw [htop]
      rfl
    have hnone : patterned pat len (last + 1).toNat first.toNat m = m := by
      funext a
      rw [patterned, hzero, if_neg (by omega)]
    rw [hnone]
    constructor
    · exact .inr
    · rintro (hother | hfilled)
      · exact absurd htop hother
      · exact hfilled
  · have hnext : (last + 1).toNat = last.toNat + 1 := by
      have hne : last.toNat ≠ 4294967295 := by
        intro heq
        apply htop
        apply BitVec.eq_of_toNat_eq
        exact heq
      rw [BitVec.toNat_add]
      simp only [BitVec.reduceToNat]
      omega
    constructor
    · exact fun _ => .inl htop
    · intro _ a
      dsimp only
      rw [hnext, patterned]
      simp only [Nat.lt_succ_iff]

/-- `get_rsa` of a decimal number. -/
def decimalRsa (s : CStr) : Option (BitVec 32) :=
  if s ≠ [] ∧ ∀ c ∈ s, isdigit c then
    some (BitVec.ofNat 32 (s.foldl (fun v c => 10 * v + (c.toNat - 48)) 0))
  else none

theorem patternLoop_five (stack : Mem) :
    patternLoop decimalRsa [[53]] 0 stack = some (1, stack.put 0 5) := by
  have hfive : decimalRsa [53] = some 5 := by decide +kernel
  rw [patternLoop, if_neg (by decide), hfive]
  rfl

/-- The range from 0 to 7 is filled with 5. -/
theorem cmdFill_exact_low :
    Filled (Mem.put (fun _ => 0) 0 5) 1 0 7 (fun _ => 0)
      (cmdFill decimalRsa [48] [55] [[53]] (fun _ => 0) 0 fun _ => 0).2 := by
  rw [cmdFill_exact (fun _ => 0) 0 (by decide +kernel) (by decide +kernel) (by decide)
    (patternLoop_five _) (by decide)]
  exact .inl (by decide)

/-- The range up to the last address is not filled. -/
theorem cmdFill_top :
    ¬ Filled (Mem.put (fun _ => 0) 0 5) 1 4294967292 4294967295 (fun _ => 0)
      (cmdFill decimalRsa [52, 50, 57, 52, 57, 54, 55, 50, 57, 50]
        [52, 50, 57, 52, 57, 54, 55, 50, 57, 53] [[53]] (fun _ => 0) 0 fun _ => 0).2 := by
  intro h
  have hfirst : decimalRsa [52, 50, 57, 52, 57, 54, 55, 50, 57, 50] = some 4294967292 := by
    decide +kernel
  have hlast : decimalRsa [52, 50, 57, 52, 57, 54, 55, 50, 57, 53] = some 4294967295 := by
    decide +kernel
  rw [cmdFill_eq hfirst hlast (by decide) (patternLoop_five _) (by decide)] at h
  have hcell := h 4294967292
  rw [if_pos (by decide)] at hcell
  revert hcell
  decide

end Pmon.Cmds.Fill
