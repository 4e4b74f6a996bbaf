import Pmon.Cmds.Password

/-!
# The check of the password area

`pwd_exist` of `pmon/cmds/password.c`.  The area is compared with a copy whose checksum is set
anew, by `strncmp`, which ends at the first zero byte that both have.

## Key results

- `strncmp_eq_zero`: two texts are the same as far as their first zero byte.
- `pwdExist_exact`: exactly when the answer is right, the area repaired and later areas accepted.
- `wrongLowByte_accepted`: a wrong checksum whose high byte is zero is taken for a right one.
-/

namespace Pmon.Cmds

open Pmon.Lib Pmon.Libc

/-! ## §1 The check -/

/-- `strncmp (s1, s2, n)` from byte `i` on. -/
def strncmp (s1 s2 : Mem) : ℕ → ℕ → ℤ
  | _, 0 => 0
  | i, n + 1 =>
    if s1 i = s2 i then
      if s1 i = 0 then 0 else strncmp s1 s2 (i + 1) n
    else (s1 i).toInt8.toInt - (s2 i).toInt8.toInt

/-- `pwd_exist`, and what it leaves of the area. -/
def pwdExist (room : Bool) (area : Mem) : Bool × Mem :=
  let buff := pwdCksum area (passramSize - 3)
  if strncmp buff area 0 passramSize ≠ 0 then (false, flProgram room area (putFlag buff 0))
  else (true, area)

/-- The names that `pwd_clear` knows. -/
def clearTarget (name : CStr) : Option (Option User) :=
  if name = ascii "all" then some none
  else if name = ascii "user" then some (some .user)
  else if name = ascii "admin" then some (some .admin)
  else if name = ascii "sys" then some (some .sys)
  else none

/-- A call of `pwd_set` or `pwd_clear`. -/
inductive PwdWrite where
  | set (u : User) (npwd : CStr)
  | clear (name : CStr)

/-- What the call leaves.  An unknown name has the area programmed as it is. -/
def PwdWrite.run (digest : CStr → Fin 16 → UInt8) (room : Bool) (area : Mem) : PwdWrite → Mem
  | .set u npwd => pwdSet digest room area u npwd
  | .clear name =>
    match clearTarget name with
    | some target => pwdClear room area target
    | none => flProgram room area area

/-! ## §2 What it is for -/

/-- The checksum that is stored. -/
def storedCksum (area : Mem) : UInt8 × UInt8 := (area 0, area 1)

/-- The checksum of the stored passwords. -/
def rightCksum (area : Mem) : UInt8 × UInt8 :=
  let sum := -pairsSum area ((passramSize - 3) / 2)
  ((sum >>> 8).toUInt8, sum.toUInt8)

/-- The area with its checksum set and all flags cleared. -/
structure Repaired (area area' : Mem) : Prop where
  cksum : storedCksum area' = rightCksum area'
  flags : flagOf area' = 0#8
  hashes : ∀ i, 3 ≤ i → area' i = area i

/-- `pwd_exist` says whether the checksum is right, repairs the area if it is not, and accepts what
    the call of `pwd_set` or `pwd_clear` leaves. -/
structure PwdExistRight (digest : CStr → Fin 16 → UInt8) (room : Bool) (area : Mem)
    (call : PwdWrite) : Prop where
  answer : (pwdExist room area).1 = true ↔ storedCksum area = rightCksum area
  repair : storedCksum area ≠ rightCksum area → Repaired area (pwdExist room area).2
  accepted : (pwdExist room (call.run digest room area)).1 = true

/-- Where two zero bytes hide the rest of the area. -/
def Hidden (area : Mem) : Prop := (storedCksum area).1 = 0 ∧ (rightCksum area).1 = 0

/-- A call that names what there is. -/
def PwdWrite.Known : PwdWrite → Prop
  | .set _ _ => True
  | .clear name => clearTarget name ≠ none

/-! ## §3 The comparison -/

variable {digest : CStr → Fin 16 → UInt8} {area area' buf s1 s2 : Mem} {room : Bool} {i n : ℕ}

/-- **A comparison of texts**: up to the first zero byte they are the same. -/
theorem strncmp_eq_zero :
    strncmp s1 s2 i n = 0 ↔
      ∀ j < n, (∀ k < j, s1 (i + k) ≠ 0) → s1 (i + j) = s2 (i + j) := by
  induction n generalizing i with
  | zero => simp [strncmp]
  | succ n ih =>
    rw [strncmp]
    split_ifs with hsame hzero
    · -- a common zero byte: the rest does not count
      refine iff_of_true rfl fun j _ hbefore => ?_
      cases j with
      | zero => exact hsame
      | succ j => exact absurd hzero (hbefore 0 (Nat.succ_pos j))
    · rw [ih]
      constructor
      · intro h j hj hbefore
        cases j with
        | zero => exact hsame
        | succ j =>
          have hnext := h j (Nat.lt_of_succ_lt_succ hj) fun k hk => by
            have := hbefore (k + 1) (Nat.succ_lt_succ hk)
            rwa [Nat.add_comm k, ← Nat.add_assoc] at this
          rwa [Nat.add_comm j, ← Nat.add_assoc]
      · intro h j hj hbefore
        have hnext := h (j + 1) (Nat.succ_lt_succ hj) fun k hk => by
          cases k with
          | zero => exact hzero
          | succ k =>
            rw [Nat.add_comm k, ← Nat.add_assoc]
            exact hbefore k (Nat.lt_of_succ_lt_succ hk)
        rwa [Nat.add_comm j, ← Nat.add_assoc] at hnext
    · refine iff_of_false (fun hdiff => hsame ?_) fun h => hsame (h 0 (Nat.succ_pos n) (by simp))
      have hbytes : (s1 i).toInt8 = (s2 i).toInt8 := Int8.toInt_inj.mp (by omega)
      exact UInt8.toBitVec_inj.mp (congrArg Int8.toBitVec hbytes)

/-- Two areas that agree from the flags on. -/
theorem strncmp_head (hrest : ∀ j, 2 ≤ j → s1 j = s2 j) (hn : 2 ≤ n) :
    strncmp s1 s2 0 n = 0 ↔ s1 0 = s2 0 ∧ (s1 0 = 0 ∨ s1 1 = s2 1) := by
  rw [strncmp_eq_zero]
  simp only [Nat.zero_add]
  constructor
  · intro h
    refine ⟨h 0 (by omega) (by simp), or_iff_not_imp_left.mpr fun hzero => h 1 (by omega) ?_⟩
    intro k hk
    rwa [Nat.lt_one_iff.mp hk]
  · rintro ⟨hfirst, hsecond⟩ j - hbefore
    match j with
    | 0 => exact hfirst
    | 1 => exact hsecond.resolve_left (hbefore 0 (by decide))
    | j + 2 => exact hrest _ (by omega)

/-! ## §4 Checksums -/

theorem pairsSum_congr (h : ∀ i, 3 ≤ i → i < 3 + 2 * n → area i = area' i) :
    pairsSum area n = pairsSum area' n := by
  rw [pairsSum, pairsSum]
  refine List.foldl_ext _ _ _ fun sum i hi => ?_
  have hlt := List.mem_range.mp hi
  rw [h (3 + 2 * i) (by omega) (by omega), h (3 + 2 * i + 1) (by omega) (by omega)]

/-- The checksum depends on the passwords only. -/
theorem rightCksum_congr (h : ∀ i, 3 ≤ i → i < passramSize → area i = area' i) :
    rightCksum area = rightCksum area' := by
  rw [rightCksum, rightCksum, pairsSum_congr h]

theorem rightCksum_putFlag {flag : BitVec 8} :
    rightCksum (putFlag (pwdCksum buf n) flag) = rightCksum buf :=
  rightCksum_congr fun _ hlo _ => pwdCksum_of_le hlo

theorem storedCksum_putFlag {flag : BitVec 8} :
    storedCksum (putFlag (pwdCksum buf (passramSize - 3)) flag) = rightCksum buf := by
  rw [storedCksum, putFlag, Mem.put_of_ne (by decide), Mem.put_of_ne (by decide), pwdCksum,
    Mem.put_of_ne (by decide), Mem.put_self, Mem.put_self, rightCksum]

/-- What is programmed of a buffer. -/
theorem flProgram_of_lt (hi : i < passramSize) : flProgram true area buf i = buf i :=
  if_pos ⟨rfl, hi⟩

theorem storedCksum_flProgram : storedCksum (flProgram true area buf) = storedCksum buf := rfl

theorem rightCksum_flProgram : rightCksum (flProgram true area buf) = rightCksum buf :=
  rightCksum_congr fun _ _ hi => flProgram_of_lt hi

theorem flProgram_self : flProgram room area area = area := by
  funext i
  exact ite_self _

/-- **The answer**: the checksum is right, or at least its high byte is zero, and should be. -/
theorem pwdExist_answer :
    (pwdExist room area).1 = true ↔ storedCksum area = rightCksum area ∨ Hidden area := by
  have hhead : strncmp (pwdCksum area (passramSize - 3)) area 0 passramSize = 0 ↔ _ :=
    strncmp_head (fun j hj => ?_) (by decide)
  · have hhigh : pwdCksum area (passramSize - 3) 0 = (rightCksum area).1 := by
      rw [pwdCksum, Mem.put_of_ne (by decide), Mem.put_self, rightCksum]
    have hlow : pwdCksum area (passramSize - 3) 1 = (rightCksum area).2 := by
      rw [pwdCksum, Mem.put_self, rightCksum]
    rw [hhigh, hlow] at hhead
    have hanswer : (pwdExist room area).1 = true ↔
        strncmp (pwdCksum area (passramSize - 3)) area 0 passramSize = 0 := by
      rw [pwdExist]
      split_ifs with hdiff
      · exact iff_of_false (by simp) hdiff
      · exact iff_of_true rfl (not_not.mp hdiff)
    rw [hanswer, hhead, Hidden, Prod.ext_iff, storedCksum]
    grind
  · rw [pwdCksum, Mem.put_of_ne (by omega), Mem.put_of_ne (by omega)]

/-- What becomes of an area that is rejected. -/
theorem pwdExist_rejected (h : (pwdExist room area).1 = false) :
    (pwdExist room area).2 =
      flProgram room area (putFlag (pwdCksum area (passramSize - 3)) 0) := by
  rw [pwdExist] at h ⊢
  split_ifs with hdiff
  · rfl
  · rw [if_neg hdiff] at h
    exact absurd h.symm Bool.false_ne_true

/-- **The repair** is right where the flash can be programmed. -/
theorem repaired_program :
    Repaired area (flProgram true area (putFlag (pwdCksum area (passramSize - 3)) 0)) where
  cksum := by
    rw [storedCksum_flProgram, storedCksum_putFlag, rightCksum_flProgram, rightCksum_putFlag]
  flags := @flagOf_putFlag (pwdCksum area (passramSize - 3)) 0#8
  hashes i hlo := by
    rw [flProgram]
    split
    · exact pwdCksum_of_le hlo
    · rfl

/-! ## §5 What the other operations leave -/

/-- What was programmed with its checksum set. -/
theorem storedCksum_program {flag : BitVec 8} :
    let area' := flProgram true area (putFlag (pwdCksum buf (passramSize - 3)) flag)
    storedCksum area' = rightCksum area' := by
  intro area'
  rw [storedCksum_flProgram, storedCksum_putFlag, rightCksum_flProgram, rightCksum_putFlag]

/-- An area of zeros has the checksum zero. -/
theorem rightCksum_zero (h : ∀ i, 3 ≤ i → i < passramSize → area i = 0) :
    rightCksum area = (0, 0) := by
  have hsum : ∀ n, pairsSum (fun _ => 0) n = 0 := by
    intro n
    induction n with
    | zero => rfl
    | succ n ih =>
      rw [pairsSum, List.range_succ, List.foldl_append]
      exact congrArg
        (fun sum : UInt16 => sum + (0 : UInt8).toUInt16 <<< 8 + (0 : UInt8).toUInt16) ih
  rw [@rightCksum_congr area (fun _ => 0) h, rightCksum, hsum]
  decide

/-- The cleared area. -/
theorem storedCksum_cleared : storedCksum (pwdClear true area none) =
    rightCksum (pwdClear true area none) := by
  have hzero : ∀ i < passramSize, pwdClear true area none i = 0 := fun i hi => by
    rw [pwdClear, flProgram_of_lt hi]
    exact Mem.fill_of_mem ⟨Nat.zero_le i, by omega⟩
  rw [rightCksum_zero fun i _ hi => hzero i hi, storedCksum, hzero 0 (by decide),
    hzero 1 (by decide)]

theorem storedCksum_run {call : PwdWrite} (hknown : call.Known) :
    storedCksum (call.run digest true area) = rightCksum (call.run digest true area) := by
  cases call with
  | set u npwd => exact storedCksum_program
  | clear name =>
    rw [PwdWrite.run]
    cases htarget : clearTarget name with
    | none => exact absurd htarget hknown
    | some target =>
      cases target with
      | none => exact storedCksum_cleared
      | some u => exact storedCksum_program

/-- Without memory for the sector, or for an unknown name, nothing changes. -/
theorem run_same {call : PwdWrite} (h : room = false ∨ ¬call.Known) :
    call.run digest room area = area := by
  rcases h with rfl | hunknown
  · cases call with
    | set u npwd =>
      rw [PwdWrite.run, pwdSet]
      exact flProgram_false
    | clear name =>
      rw [PwdWrite.run]
      rcases clearTarget name with - | - | u <;> simp only [pwdClear, flProgram_false]
  · cases call with
    | set u npwd => exact absurd trivial hunknown
    | clear name =>
      rw [PwdWrite.run, not_not.mp hunknown]
      exact flProgram_self

/-! ## §6 When it is right -/

/-- **`pwd_exist`**: for every content of the area, the answer is right, a wrong area is repaired,
    and the area is accepted after a call of `pwd_set` or `pwd_clear`, exactly where the checksum
    is right, or the flash can be programmed, the call names what there is, and no zero high byte
    hides the low one. -/
theorem pwdExist_exact (digest : CStr → Fin 16 → UInt8) (room : Bool) (area : Mem)
    (call : PwdWrite) :
    PwdExistRight digest room area call ↔
      storedCksum area = rightCksum area ∨ (room ∧ call.Known ∧ ¬Hidden area) := by
  by_cases hright : storedCksum area = rightCksum area
  · refine iff_of_true ⟨?_, absurd hright, ?_⟩ (.inl hright)
    · rw [pwdExist_answer]
      exact iff_of_true (.inl hright) hright
    · rw [pwdExist_answer]
      by_cases hrun : room = true ∧ call.Known
      · rw [hrun.1]
        exact .inl (storedCksum_run hrun.2)
      · have hsame : room = false ∨ ¬call.Known := by
          rwa [not_and_or, Bool.not_eq_true] at hrun
        rw [run_same hsame]
        exact .inl hright
  simp only [hright, false_or]
  constructor
  · intro hexist
    have hvisible : ¬Hidden area := fun hhidden =>
      hright (hexist.answer.mp (pwdExist_answer.mpr (.inr hhidden)))
    -- where nothing is changed, the wrong area is still there
    have hchanged : ¬(room = false ∨ ¬call.Known) := by
      intro hsame
      have haccepted := hexist.accepted
      rw [run_same hsame, pwdExist_answer] at haccepted
      exact haccepted.elim hright hvisible
    rw [not_or, Bool.not_eq_false, not_not] at hchanged
    exact ⟨hchanged.1, hchanged.2, hvisible⟩
  · rintro ⟨hroom, hknown, hvisible⟩
    subst hroom
    have hwrong : (pwdExist true area).1 = false := by
      rw [← Bool.not_eq_true, pwdExist_answer]
      exact fun h => h.elim hright hvisible
    refine ⟨?_, fun _ => ?_, ?_⟩
    · rw [hwrong]
      exact iff_of_false Bool.false_ne_true hright
    · rw [pwdExist_rejected hwrong]
      exact repaired_program
    · exact pwdExist_answer.mpr (.inl (storedCksum_run hknown))

/-- **A wrong low byte** is not seen: an area of zeros with the checksum `00 01` is accepted, and
    left as it is. -/
theorem wrongLowByte_accepted :
    let area : Mem := Mem.put (fun _ => 0) 1 1
    (pwdExist true area).1 = true ∧ storedCksum area ≠ rightCksum area ∧
      (pwdExist true area).2 = area := by
  intro area
  have hsum : rightCksum area = (0, 0) :=
    rightCksum_zero fun i hlo _ => Mem.put_of_ne (by omega)
  have hanswer : (pwdExist true area).1 = true := by
    rw [pwdExist_answer, Hidden, hsum]
    exact .inr ⟨rfl, rfl⟩
  refine ⟨hanswer, ?_, ?_⟩
  · rw [hsum]
    decide
  · rw [pwdExist] at hanswer ⊢
    split_ifs with hdiff
    · rw [if_pos hdiff] at hanswer
      exact absurd hanswer Bool.false_ne_true
    · rfl

end Pmon.Cmds
