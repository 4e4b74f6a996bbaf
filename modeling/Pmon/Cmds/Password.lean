import Mathlib.Data.Bool.Basic
import Pmon.Lib.Bytes
import Pmon.Lib.Separate
import Pmon.Libc.Strings

/-!
# Passwords

`pwd_set`, `pwd_clear` and `pwd_set_used` of `pmon/cmds/password.c`.  The state is the password
area of the flash, `PASSRAM_SIZE` bytes: a checksum, the flags, and a password for each user.

The digest of a password is a parameter; it has the 16 bytes of `md5_final`.

## Key results

- `apart_iff`: when an operation on one user leaves the others alone.
- `passwords_separate`: exactly when each user's state comes from the user's own operations.
- `clear_admin_opens_user`: clearing one password takes the flags of another user.
-/

namespace Pmon.Cmds

open Pmon.Lib Pmon.Libc

/-! ## §1 The area -/

/-- `PASSRAM_SIZE`. -/
def passramSize : ℕ := 105

/-- `LENGTH`. -/
def pwdLength : ℕ := 34

/-- The users of `user_index`. -/
inductive User where
  | user
  | admin
  | sys
  deriving DecidableEq

/-- `user_index`. -/
def userIndex : User → ℕ
  | .user => 0
  | .admin => 1
  | .sys => 2

/-- The sum of `cksum` over `sz` pairs of bytes from the flags' next byte on. -/
def pairsSum (buf : Mem) (sz : ℕ) : UInt16 :=
  (List.range sz).foldl
    (fun sum i => sum + (buf (3 + 2 * i)).toUInt16 <<< 8 + (buf (3 + 2 * i + 1)).toUInt16) 0

/-- `cksum (buf, s, 1)`. -/
def pwdCksum (buf : Mem) (s : ℕ) : Mem :=
  let sum := -pairsSum buf (s / 2)
  (buf.put 0 (sum >>> 8).toUInt8).put 1 sum.toUInt8

/-- `buf[2]`. -/
def flagOf (buf : Mem) : BitVec 8 := (buf 2).toBitVec

def putFlag (buf : Mem) (flag : BitVec 8) : Mem := buf.put 2 (.ofBitVec flag)

/-- `fl_program (passram, buf, PASSRAM_SIZE, 0)`, where the flash works; `room` says whether there
    is memory for the sector. -/
def flProgram (room : Bool) (area buf : Mem) : Mem := fun i =>
  if room ∧ i < passramSize then buf i else area i

/-! ## §2 The operations -/

/-- Where the flags of `USE_USER_PWD` to `SET_SYS_PWD` are. -/
def useBit (u : User) : ℕ := 2 * userIndex u

def setBit (u : User) : ℕ := 2 * userIndex u + 1

/-- `~USE_USER_PWD` and so on: the macros have no parentheses, so that it is `~1 << k`. -/
def notFlag (k : ℕ) : BitVec 8 := (~~~1#8) <<< k

/-- A branch of `pwd_clear` for one user. -/
def clearUser (buf : Mem) (u : User) : Mem :=
  let buf := buf.fill (3 + pwdLength * userIndex u) 34 0
  let buf := pwdCksum buf (passramSize - 3)
  putFlag buf (flagOf buf &&& notFlag (useBit u) &&& notFlag (setBit u))

/-- `pwd_clear`; no user stands for `all`. -/
def pwdClear (room : Bool) (area : Mem) : Option User → Mem
  | none => flProgram room area (area.fill 0 passramSize 0)
  | some u => flProgram room area (clearUser area u)

/-- `b64t`. -/
def b64t (w : ℕ) : UInt8 :=
  (ascii "./0123456789ABCDEFGHIJKLMNOPQRSTUVWXYZabcdefghijklmnopqrstuvwxyz").getD (w % 64) 0

/-- `n` characters for a number, the lowest bits first. -/
def to64 (w : ℕ) : ℕ → CStr
  | 0 => []
  | n + 1 => b64t w :: to64 (w / 64) n

/-- What `make_md5_password` leaves in `crypted`, which holds the salt `$1$abcdefgh$`. -/
def crypted (digest : CStr → Fin 16 → UInt8) (npwd : CStr) : CStr :=
  let d := digest npwd
  let w (a b c : Fin 16) : ℕ := (d a).toNat + 256 * (d b).toNat + 65536 * (d c).toNat
  ascii "$1$abcdefgh$" ++ to64 (w 12 6 0) 4 ++ to64 (w 13 7 1) 4 ++ to64 (w 14 8 2) 4 ++
    to64 (w 15 9 3) 4 ++ to64 (w 5 10 4) 4 ++ to64 (d 11).toNat 2

/-- `pwd_set`. -/
def pwdSet (digest : CStr → Fin 16 → UInt8) (room : Bool) (area : Mem) (u : User) (npwd : CStr) :
    Mem :=
  let buf := area.store (3 + pwdLength * userIndex u) (crypted digest npwd)
  let buf := pwdCksum buf (passramSize - 3)
  flProgram room area (putFlag buf (flagOf buf ||| 1#8 <<< (userIndex u * 2 + 1)))

/-- `pwd_set_used`. -/
def pwdSetUsed (room : Bool) (area : Mem) (u : User) (used : Bool) : Mem :=
  let flag := flagOf area
  let flag :=
    if used then flag ||| 1#8 <<< (userIndex u * 2) else flag &&& ~~~(1#8 <<< (userIndex u * 2))
  flProgram room area (putFlag area flag)

/-- `pwd_is_used`. -/
def pwdIsUsed (area : Mem) (u : User) : Bool := flagOf area &&& 1#8 <<< (userIndex u * 2) ≠ 0#8

/-- `pwd_is_set`. -/
def pwdIsSet (area : Mem) (u : User) : Bool :=
  flagOf area &&& 1#8 <<< (userIndex u * 2 + 1) ≠ 0#8

/-- An operation, and whether the flash can be programmed. -/
inductive PwdOp where
  | set (u : User) (npwd : CStr)
  | clear (target : Option User)
  | setUsed (u : User) (used : Bool)

def pwdStep (digest : CStr → Fin 16 → UInt8) (area : Mem) : PwdOp × Bool → Mem
  | (.set u npwd, room) => pwdSet digest room area u npwd
  | (.clear target, room) => pwdClear room area target
  | (.setUsed u used, room) => pwdSetUsed room area u used

/-! ## §3 One user -/

/-- What is stored for a user. -/
@[ext] structure UserState where
  isSet : Bool
  isUsed : Bool
  hash : List UInt8

/-- The part of the area that belongs to a user. -/
def userState (area : Mem) (u : User) : UserState :=
  ⟨pwdIsSet area u, pwdIsUsed area u, area.slice (3 + pwdLength * userIndex u) pwdLength⟩

/-- Whether an operation names a user, or all. -/
def PwdOp.names : PwdOp → User → Bool
  | .set u _, v => u = v
  | .clear none, _ => true
  | .clear (some u), v => u = v
  | .setUsed u _, v => u = v

/-- What the operations are for: what each of them makes of the user it names. -/
def UserState.step (digest : CStr → Fin 16 → UInt8) (st : UserState) : PwdOp → UserState
  | .set _ npwd => { st with isSet := true, hash := crypted digest npwd }
  | .clear _ => ⟨false, false, List.replicate pwdLength 0⟩
  | .setUsed _ used => { st with isUsed := used }

/-- A user's own operations, as far as the flash can be programmed. -/
def UserState.own (digest : CStr → Fin 16 → UInt8) (u : User) (st : UserState)
    (op : PwdOp × Bool) : UserState :=
  if op.1.names u ∧ op.2 then st.step digest op.1 else st

/-- Clearing one user's password takes the flags of the users in front: none of them must have
    one. -/
def Harmless (area : Mem) : PwdOp × Bool → Prop
  | (.clear (some u), true) => ∀ v, userIndex v < userIndex u → ¬pwdIsSet area v ∧ ¬pwdIsUsed area v
  | _ => True

/-! ## §4 Flags -/

variable {digest : CStr → Fin 16 → UInt8} {area buf : Mem} {u v : User} {flag : BitVec 8} {k j : ℕ}

theorem userIndex_le (u : User) : userIndex u ≤ 2 := by
  cases u <;> decide

theorem userIndex_inj (h : userIndex u = userIndex v) : u = v := by
  cases u <;> cases v <;> first | rfl | exact absurd h (by decide)

/-- A test of one bit. -/
theorem testFlag (hk : k < 8) : decide (flag &&& 1#8 <<< k ≠ 0#8) = flag.getLsbD k := by
  rw [← BitVec.twoPow_eq, BitVec.and_twoPow]
  cases hbit : flag.getLsbD k with
  | false => rfl
  | true =>
    rw [if_pos rfl, decide_eq_true_eq]
    intro hzero
    have hget := congrArg (BitVec.getLsbD · k) hzero
    simp [hk] at hget

theorem pwdIsSet_eq (area : Mem) (u : User) : pwdIsSet area u = (flagOf area).getLsbD (setBit u) := by
  have hle := userIndex_le u
  rw [pwdIsSet, testFlag (by omega), setBit, Nat.mul_comm]

theorem pwdIsUsed_eq (area : Mem) (u : User) :
    pwdIsUsed area u = (flagOf area).getLsbD (useBit u) := by
  have hle := userIndex_le u
  rw [pwdIsUsed, testFlag (by omega), useBit, Nat.mul_comm]

/-- Without parentheses all bits up to the one meant are cleared. -/
theorem getLsbD_notFlag (hj : j < 8) : (notFlag k).getLsbD j = decide (k < j) := by
  rw [notFlag, BitVec.getLsbD_shiftLeft, BitVec.getLsbD_not, BitVec.getLsbD_one]
  grind

theorem getLsbD_putBit (hj : j < 8) :
    (flag ||| 1#8 <<< k).getLsbD j = (flag.getLsbD j || decide (j = k)) := by
  rw [BitVec.getLsbD_or, BitVec.getLsbD_shiftLeft, BitVec.getLsbD_one]
  grind

theorem getLsbD_dropBit (hj : j < 8) :
    (flag &&& ~~~(1#8 <<< k)).getLsbD j = (flag.getLsbD j && !decide (j = k)) := by
  rw [BitVec.getLsbD_and, BitVec.getLsbD_not, BitVec.getLsbD_shiftLeft, BitVec.getLsbD_one]
  grind

/-! ## §5 What the operations do to a user -/

@[simp] theorem flagOf_putFlag : flagOf (putFlag buf flag) = flag := by
  rw [flagOf, putFlag, Mem.put_self]

@[simp] theorem flagOf_pwdCksum : flagOf (pwdCksum buf k) = flagOf buf := by
  rw [flagOf, pwdCksum, flagOf, Mem.put_of_ne (by decide), Mem.put_of_ne (by decide)]

@[simp] theorem flagOf_flProgram : flagOf (flProgram true area buf) = flagOf buf := rfl

@[simp] theorem flProgram_false : flProgram false area buf = area := by
  funext i
  exact if_neg (by simp)

/-- A user's password. -/
theorem hash_congr {a b : Mem} (h : ∀ i, 3 ≤ i → i < passramSize → a i = b i) (v : User) :
    a.slice (3 + pwdLength * userIndex v) pwdLength =
      b.slice (3 + pwdLength * userIndex v) pwdLength := by
  have hle := userIndex_le v
  refine Mem.slice_congr fun i hlo hhi => h i (by omega) ?_
  unfold pwdLength passramSize at *
  omega

/-- An edit of one user's password. -/
theorem hash_edit {bs : List UInt8} (hlen : bs.length = pwdLength)
    (hsame : buf.Holds (3 + pwdLength * userIndex u) bs)
    (hother : ∀ i, i < 3 + pwdLength * userIndex u ∨ 3 + pwdLength * userIndex u + pwdLength ≤ i →
      buf i = area i) (v : User) :
    buf.slice (3 + pwdLength * userIndex v) pwdLength =
      if u = v then bs else area.slice (3 + pwdLength * userIndex v) pwdLength := by
  split
  · rename_i heq
    have hslice := hsame.slice_eq
    rw [hlen] at hslice
    rw [← heq, hslice]
  · rename_i hne
    have hindex : userIndex u ≠ userIndex v := fun h => hne (userIndex_inj h)
    refine Mem.slice_congr fun i hlo hhi => hother i ?_
    rcases Nat.lt_or_gt_of_ne hindex with hlt | hgt
    · have hmul : pwdLength * (userIndex u + 1) ≤ pwdLength * userIndex v :=
        Nat.mul_le_mul_left _ hlt
      rw [Nat.mul_add] at hmul
      omega
    · have hmul : pwdLength * (userIndex v + 1) ≤ pwdLength * userIndex u :=
        Nat.mul_le_mul_left _ hgt
      rw [Nat.mul_add] at hmul
      omega

theorem length_to64 (w n : ℕ) : (to64 w n).length = n := by
  induction n generalizing w with
  | zero => rfl
  | succ n ih => rw [to64, List.length_cons, ih]

theorem length_crypted (digest : CStr → Fin 16 → UInt8) (npwd : CStr) : (crypted digest npwd).length = pwdLength := by
  simp only [crypted, List.length_append, length_to64]
  rfl

/-- The area as a user sees it. -/
theorem userState_eq (area : Mem) (v : User) :
    userState area v = ⟨(flagOf area).getLsbD (setBit v), (flagOf area).getLsbD (useBit v),
      area.slice (3 + pwdLength * userIndex v) pwdLength⟩ := by
  rw [userState, pwdIsSet_eq, pwdIsUsed_eq]

/-- A buffer that is programmed, as a user sees it. -/
theorem userState_program {b : Mem} (hflag : flagOf b = flag)
    (hbuf : ∀ i, 3 ≤ i → i < passramSize → b i = buf i) (v : User) :
    userState (flProgram true area b) v = ⟨flag.getLsbD (setBit v), flag.getLsbD (useBit v),
      buf.slice (3 + pwdLength * userIndex v) pwdLength⟩ := by
  rw [userState_eq, flagOf_flProgram, hflag, hash_congr (b := buf) fun i hlo hhi => ?_]
  rw [flProgram, if_pos ⟨rfl, hhi⟩, hbuf i hlo hhi]

theorem pwdCksum_of_le {i : ℕ} (hi : 3 ≤ i) : putFlag (pwdCksum buf k) flag i = buf i := by
  rw [putFlag, Mem.put_of_ne (by omega), pwdCksum, Mem.put_of_ne (by omega),
    Mem.put_of_ne (by omega)]

theorem userState_set (npwd : CStr) (v : User) :
    userState (pwdSet digest true area u npwd) v =
      if u = v then (userState area v).step digest (.set u npwd) else userState area v := by
  have hlen := length_crypted digest npwd
  have hflag : flagOf (area.store (3 + pwdLength * userIndex u) (crypted digest npwd)) =
      flagOf area := by
    rw [flagOf, Mem.store_of_not_mem (by omega), flagOf]
  have hhash := hash_edit (u := u) hlen (Mem.holds_store area _ _)
    (fun i hi => Mem.store_of_not_mem (by omega)) v
  have hu := userIndex_le u
  have hv := userIndex_le v
  rw [pwdSet, userState_program flagOf_putFlag (fun i hlo _ => pwdCksum_of_le hlo), hhash,
    flagOf_pwdCksum, hflag, getLsbD_putBit (by rw [setBit]; omega),
    getLsbD_putBit (by rw [useBit]; omega), userState_eq]
  rcases eq_or_ne u v with rfl | hne
  · have huse : useBit u ≠ 2 * userIndex u + 1 := by
      rw [useBit]
      omega
    simp [setBit, huse, UserState.step, Nat.mul_comm]
  · have hindex : userIndex u ≠ userIndex v := fun h => hne (userIndex_inj h)
    have hset : setBit v ≠ userIndex u * 2 + 1 := by
      rw [setBit]
      omega
    have huse : useBit v ≠ userIndex u * 2 + 1 := by
      rw [useBit]
      omega
    simp [hset, huse, hne]

theorem userState_setUsed (digest : CStr → Fin 16 → UInt8) (used : Bool) (v : User) :
    userState (pwdSetUsed true area u used) v =
      if u = v then (userState area v).step digest (.setUsed u used) else userState area v := by
  have hu := userIndex_le u
  have hv := userIndex_le v
  have hset : setBit v ≠ userIndex u * 2 := by
    rw [setBit]
    omega
  have huse : useBit v = userIndex u * 2 ↔ u = v := by
    rw [useBit]
    exact ⟨fun h => userIndex_inj (by omega), fun h => by rw [h, Nat.mul_comm]⟩
  rw [pwdSetUsed, userState_program flagOf_putFlag fun i hlo _ => Mem.put_of_ne (by omega)]
  cases used with
  | true =>
    rw [if_pos rfl, getLsbD_putBit (by rw [setBit]; omega), getLsbD_putBit (by rw [useBit]; omega),
      userState_eq]
    rcases eq_or_ne u v with rfl | hne
    · simp [hset, huse, UserState.step]
    · simp [hset, huse, hne]
  | false =>
    rw [if_neg Bool.false_ne_true, getLsbD_dropBit (by rw [setBit]; omega),
      getLsbD_dropBit (by rw [useBit]; omega), userState_eq]
    rcases eq_or_ne u v with rfl | hne
    · simp [hset, huse, UserState.step]
    · simp [hset, huse, hne]

/-- Clearing all passwords. -/
theorem userState_clearAll (v : User) :
    userState (pwdClear true area none) v = ⟨false, false, List.replicate pwdLength 0⟩ := by
  have hflag : flagOf (area.fill 0 passramSize 0) = 0#8 := by
    rw [flagOf, Mem.fill_of_mem (by decide)]
    rfl
  have hholds : (area.fill 0 passramSize 0).Holds (3 + pwdLength * userIndex v)
      (List.replicate pwdLength 0) := by
    have hle := userIndex_le v
    refine Mem.holds_replicate fun i hlo hhi => Mem.fill_of_mem ⟨Nat.zero_le _, ?_⟩
    unfold pwdLength passramSize at *
    omega
  have hslice := hholds.slice_eq
  rw [List.length_replicate] at hslice
  rw [pwdClear, userState_program hflag fun _ _ _ => rfl, hslice, BitVec.getLsbD_zero,
    BitVec.getLsbD_zero]

/-- **Clearing one password** takes the flags of the users in front, too. -/
theorem userState_clear (v : User) :
    userState (pwdClear true area (some u)) v =
      if u = v then ⟨false, false, List.replicate pwdLength 0⟩
      else
        let st := userState area v
        ⟨st.isSet && decide (userIndex u < userIndex v),
          st.isUsed && decide (userIndex u < userIndex v), st.hash⟩ := by
  have hu := userIndex_le u
  have hv := userIndex_le v
  have hflag : flagOf (area.fill (3 + pwdLength * userIndex u) 34 0) = flagOf area := by
    rw [flagOf, Mem.fill_of_not_mem (by omega), flagOf]
  have hhash : (area.fill (3 + pwdLength * userIndex u) 34 0).slice
      (3 + pwdLength * userIndex v) pwdLength =
        if u = v then List.replicate pwdLength 0
        else area.slice (3 + pwdLength * userIndex v) pwdLength :=
    hash_edit List.length_replicate Mem.holds_fill (fun i hi => Mem.fill_of_not_mem hi) v
  have hbit : ∀ j, j < 8 → (flagOf area &&& notFlag (useBit u) &&& notFlag (setBit u)).getLsbD j =
      ((flagOf area).getLsbD j && decide (setBit u < j)) := by
    intro j hj
    rw [BitVec.getLsbD_and, BitVec.getLsbD_and, getLsbD_notFlag hj, getLsbD_notFlag hj,
      Bool.and_assoc, ← Bool.decide_and]
    have hbits : useBit u < setBit u := Nat.lt_succ_self _
    grind
  rw [pwdClear, clearUser, userState_program flagOf_putFlag fun i hlo _ => pwdCksum_of_le hlo,
    flagOf_pwdCksum, hflag, hbit _ (by rw [setBit]; omega), hbit _ (by rw [useBit]; omega), hhash]
  rcases eq_or_ne u v with rfl | hne
  · have huse : ¬setBit u < useBit u := Nat.not_lt_of_le (Nat.le_succ _)
    simp [huse]
  · have hindex : userIndex u ≠ userIndex v := fun h => hne (userIndex_inj h)
    have hset : setBit u < setBit v ↔ userIndex u < userIndex v := by
      rw [setBit, setBit]
      omega
    have huse : setBit u < useBit v ↔ userIndex u < userIndex v := by
      rw [setBit, useBit]
      omega
    rw [if_neg hne, if_neg hne, userState_eq]
    simp only [hset, huse]

/-! ## §6 Separation -/

/-- **One operation** changes only the user it names exactly where it is harmless. -/
theorem apart_iff (op : PwdOp × Bool) :
    KeepsApart (pwdStep digest) userState (UserState.own digest) area op ↔ Harmless area op := by
  obtain ⟨op, room⟩ := op
  cases room with
  | false =>
    have hstep : pwdStep digest area (op, false) = area := by
      rcases op with _ | (_ | _) | _ <;>
        simp only [pwdStep, pwdSet, pwdClear, pwdSetUsed, flProgram_false]
    refine iff_of_true (fun v => ?_) (by rcases op with _ | (_ | _) | _ <;> trivial)
    rw [hstep, UserState.own, if_neg (by simp)]
  | true =>
    cases op with
    | set u npwd =>
      refine iff_of_true (fun v => ?_) trivial
      rw [pwdStep, userState_set, UserState.own]
      simp [PwdOp.names]
    | setUsed u used =>
      refine iff_of_true (fun v => ?_) trivial
      rw [pwdStep, userState_setUsed digest, UserState.own]
      simp [PwdOp.names]
    | clear target =>
      cases target with
      | none =>
        refine iff_of_true (fun v => ?_) trivial
        rw [pwdStep, userState_clearAll, UserState.own, if_pos ⟨rfl, rfl⟩]
        rfl
      | some u =>
        have hown : ∀ v, UserState.own digest v (userState area v) (.clear (some u), true) =
            if u = v then ⟨false, false, List.replicate pwdLength 0⟩ else userState area v := by
          intro v
          simp [UserState.own, PwdOp.names, UserState.step]
        simp only [KeepsApart, pwdStep, userState_clear, hown, Harmless]
        refine forall_congr' fun v => ?_
        rcases eq_or_ne u v with rfl | hne
        · rw [if_pos rfl, if_pos rfl]
          exact iff_of_true rfl fun h => absurd h (Nat.lt_irrefl _)
        rw [if_neg hne, if_neg hne]
        rcases Nat.lt_or_gt_of_ne fun h => hne (userIndex_inj h) with hlt | hgt
        · refine iff_of_true ?_ fun h => absurd h (Nat.lt_asymm hlt)
          rw [decide_eq_true hlt, Bool.and_true, Bool.and_true]
        · rw [decide_eq_false (Nat.lt_asymm hgt), Bool.and_false, Bool.and_false, UserState.ext_iff]
          simp only [userState, hgt, true_imp_iff, and_true, Bool.not_eq_true,
            @eq_comm _ false]

/-- **Passwords**: after every initial part of a sequence of operations each user's flags and
    password are what the user's own operations make of them, exactly where no password was cleared
    while a user in front had a flag. -/
theorem passwords_separate (digest : CStr → Fin 16 → UInt8) (area : Mem)
    (ops : List (PwdOp × Bool)) :
    Separate (pwdStep digest) userState (UserState.own digest) area ops ↔
      ∀ pre op, pre ++ [op] <+: ops → Harmless (pre.foldl (pwdStep digest) area) op := by
  rw [separate_iff]
  simp only [apart_iff]

/-- **Clearing the password of one user** opens the door of another one: `user` has a password,
    and after `pwd_clear ("admin")` has none. -/
theorem clear_admin_opens_user :
    let digest := fun _ _ => 0
    let area := pwdStep digest (fun _ => 0) (.set .user [0x61], true)
    (userState area .user).isSet = true ∧
      (userState (pwdStep digest area (.clear (some .admin), true)) .user).isSet = false ∧
      ¬PwdOp.names (.clear (some .admin)) .user := by
  simp only [pwdStep, userState_clear, userState_set]
  decide

end Pmon.Cmds
