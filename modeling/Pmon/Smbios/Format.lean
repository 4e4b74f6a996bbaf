import Pmon.Lib.PackedStrings

/-!
# Tables of structures

The format of an SMBIOS table: structures one after another, each a formatted area, whose second
byte is its length, and a set of strings that two NULs end.  A program that reads the table finds
the next structure by the length and the two NULs only.

## Key results

- `cutSet_packed`: the set ends behind the last string, as long as none of them is empty.
- `dmiWalk_parts`: a table that is written from good parts is walked part by part.
- `dmiWalk_append`: what is behind a walk has no part in it.
-/

namespace Pmon.Smbios

open Pmon.Lib

/-! ## §1 The walk -/

/-- A structure that the walk visits. -/
structure DmiStruct where
  type : UInt8
  /-- The formatted area. -/
  body : List UInt8
  /-- How many strings there are behind it. -/
  strings : ℕ
  /-- The length with the strings. -/
  size : ℕ

/-- What is before the first two NULs, and what is behind them. -/
def cutSet : List UInt8 → Option (List UInt8 × List UInt8)
  | 0 :: 0 :: rest => some ([], rest)
  | b :: bs => (cutSet bs).map fun x => (b :: x.1, x.2)
  | [] => none

/-- The number of the strings in a set; the last one has lost its NUL. -/
def countStrings : List UInt8 → ℕ
  | [] => 0
  | b :: bs => if b = 0 then 0 else bs.count 0 + 1

/-- The structure at the beginning, and what is behind it. -/
def dmiNext (bs : List UInt8) : Option (DmiStruct × List UInt8) :=
  let length := (bs.getD 1 0).toNat
  if length < 4 ∨ bs.length < length then none
  else
    (cutSet (bs.drop length)).map fun x =>
      (⟨bs.getD 0 0, bs.take length, countStrings x.1, length + x.1.length + 2⟩, x.2)

/-- The walk over `n` structures. -/
def dmiWalk : ℕ → List UInt8 → Option (List DmiStruct × List UInt8)
  | 0, bs => some ([], bs)
  | n + 1, bs =>
    match dmiNext bs with
    | none => none
    | some (s, rest) => (dmiWalk n rest).map fun x => (s :: x.1, x.2)

/-! ## §2 String sets -/

variable {bs set rest tail : List UInt8} {b : UInt8} {es : List (List UInt8)} {n : ℕ}

theorem cutSet_cons (hb : b ≠ 0) (bs : List UInt8) :
    cutSet (b :: bs) = (cutSet bs).map fun x => (b :: x.1, x.2) := by
  rw [cutSet]
  exact fun rest h => absurd h hb

theorem cutSet_zero_cons (hb : b ≠ 0) (bs : List UInt8) :
    cutSet (0 :: b :: bs) = (cutSet (b :: bs)).map fun x => (0 :: x.1, x.2) := by
  rw [cutSet]
  exact fun rest _ h => absurd (List.cons.inj h).1 hb

/-- A string comes before everything that the set ends with. -/
theorem cutSet_string (e : List UInt8) (he : (0 : UInt8) ∉ e) (bs : List UInt8) :
    cutSet (e ++ bs) = (cutSet bs).map fun x => (e ++ x.1, x.2) := by
  induction e with
  | nil => simp
  | cons c e ih =>
    have hc : c ≠ 0 := fun h => he (h ▸ List.mem_cons_self ..)
    rw [List.cons_append, cutSet_cons hc, ih fun h => he (List.mem_cons_of_mem _ h),
      Option.map_map]
    rfl

theorem packed_head {e : List UInt8} (he : IsEntry e) (es : List (List UInt8)) :
    ∃ a bs, a ≠ 0 ∧ ∀ rest, packed (e :: es) ++ rest = a :: (bs ++ rest) := by
  obtain ⟨a, e, rfl⟩ := List.exists_cons_of_ne_nil he.ne_nil
  exact ⟨a, e ++ 0 :: packed es, fun h => he.not_mem (h ▸ List.mem_cons_self ..),
    fun rest => by rw [packed_cons]; rfl⟩

/-- **The set of some strings** ends where they do. -/
theorem cutSet_packed (hes : ∀ e ∈ es, IsEntry e) (hne : es ≠ []) (rest : List UInt8) :
    ∃ set, cutSet (packed es ++ rest) = some (set, rest) ∧ set.length + 2 = (packed es).length ∧
      set.count 0 + 1 = es.length := by
  induction es with
  | nil => exact absurd rfl hne
  | cons e es ih =>
    have he := hes e (List.mem_cons_self ..)
    have hcount : e.count 0 = 0 := List.count_eq_zero.mpr he.not_mem
    rw [packed_cons, List.append_assoc, cutSet_string e he.not_mem]
    cases es with
    | nil => exact ⟨e, by simp [cutSet], by simp, by simp [hcount]⟩
    | cons d es =>
      have hmore : ∀ x ∈ d :: es, IsEntry x := fun x hx => hes x (List.mem_cons_of_mem _ hx)
      obtain ⟨set, hcut, hlen, hnum⟩ := ih hmore (by simp)
      obtain ⟨a, bs, ha, hhead⟩ := packed_head (hmore d (List.mem_cons_self ..)) es
      -- a string follows, so the NUL before it does not end the set
      refine ⟨e ++ 0 :: set, ?_, ?_, ?_⟩
      · rw [hhead] at hcut
        rw [List.cons_append, hhead, cutSet_zero_cons ha, hcut]
        rfl
      · rw [List.length_append, List.length_append, List.length_cons, List.length_cons]
        omega
      · rw [List.count_append, hcount, List.count_cons_self, List.length_cons]
        omega

/-- A set that begins with a string is counted by its NULs. -/
theorem countStrings_cut {e : List UInt8} (he : IsEntry e) {bs : List UInt8}
    (h : cutSet (e ++ bs) = some (set, rest)) : countStrings set = set.count 0 + 1 := by
  rw [cutSet_string e he.not_mem] at h
  obtain ⟨x, -, hx⟩ := Option.map_eq_some_iff.mp h
  obtain ⟨a, e, rfl⟩ := List.exists_cons_of_ne_nil he.ne_nil
  have ha : a ≠ 0 := fun h => he.not_mem (h ▸ List.mem_cons_self ..)
  rw [← (Prod.mk.inj hx).1, List.cons_append, countStrings, if_neg ha, List.count_cons_of_ne ha]

/-! ## §3 Parts -/

/-- What a structure is written from. -/
structure Part where
  body : List UInt8
  strs : List (List UInt8)

/-- The string set as it is written. -/
def stringSet (strs : List (List UInt8)) : List UInt8 :=
  if strs = [] then [0, 0] else packed strs

def Part.bytes (x : Part) : List UInt8 := x.body ++ stringSet x.strs

/-- The length in the header is right, and no string is empty. -/
structure Part.Good (x : Part) : Prop where
  length : x.body.length = (x.body.getD 1 0).toNat
  header : 4 ≤ x.body.length
  strs : ∀ e ∈ x.strs, IsEntry e

/-- What a walk should find of a part. -/
def Part.found (x : Part) : DmiStruct := ⟨x.body.getD 0 0, x.body, x.strs.length, x.bytes.length⟩

/-- The walk finds the formatted area, and then a set. -/
theorem dmiNext_body {body : List UInt8} (hlen : body.length = (body.getD 1 0).toNat)
    (hheader : 4 ≤ body.length) {more : List UInt8} (hset : cutSet more = some (set, rest)) :
    dmiNext (body ++ more) = some (⟨body.getD 0 0, body, countStrings set,
      body.length + set.length + 2⟩, rest) := by
  have hget : ∀ i < body.length, (body ++ more).getD i 0 = body.getD i 0 := by
    intro i hi
    rw [List.getD_eq_getElem?_getD, List.getElem?_append_left hi, List.getD_eq_getElem?_getD]
  unfold dmiNext
  dsimp only
  rw [hget 0 (by omega), hget 1 (by omega), ← hlen, if_neg (by simp; omega),
    List.drop_left, List.take_left, hset]
  rfl

/-- **A good part** is found as it was written. -/
theorem dmiNext_part {x : Part} (hx : x.Good) (rest : List UInt8) :
    dmiNext (x.bytes ++ rest) = some (x.found, rest) := by
  obtain ⟨body, strs⟩ := x
  obtain ⟨hlen, hheader, hstrs⟩ := hx
  unfold Part.bytes Part.found stringSet
  dsimp only at hlen hheader hstrs ⊢
  rw [List.append_assoc]
  cases strs with
  | nil =>
    have hset : cutSet ([0, 0] ++ rest) = some ([], rest) := rfl
    rw [if_pos rfl, dmiNext_body hlen hheader hset]
    simp [Part.bytes, stringSet, countStrings]
  | cons e es =>
    obtain ⟨set, hcut, hsetlen, hnum⟩ := cutSet_packed hstrs (by simp) rest
    have hcount : countStrings set = (e :: es).length := by
      have hhead := hcut
      rw [packed_cons, List.append_assoc] at hhead
      rw [countStrings_cut (hstrs e (List.mem_cons_self ..)) hhead, hnum]
    rw [if_neg (by simp), dmiNext_body hlen hheader hcut, hcount]
    simp [Part.bytes, stringSet]
    omega

/-- **A last string that is empty** ends the set one byte early. -/
theorem dmiNext_lastEmpty {body : List UInt8} (hlen : body.length = (body.getD 1 0).toNat)
    (hheader : 4 ≤ body.length) (hes : ∀ e ∈ es, IsEntry e) (hne : es ≠ []) (rest : List UInt8) :
    dmiNext ((⟨body, es ++ [[]]⟩ : Part).bytes ++ rest) =
      some ((⟨body, es⟩ : Part).found, 0 :: rest) := by
  have hbytes : (⟨body, es ++ [[]]⟩ : Part).bytes ++ rest =
      (⟨body, es⟩ : Part).bytes ++ 0 :: rest := by
    simp [Part.bytes, stringSet, hne, packed]
  rw [hbytes, dmiNext_part ⟨hlen, hheader, hes⟩]

/-- The first turn of the walk. -/
theorem dmiWalk_head {ss : List DmiStruct} (h : dmiWalk (n + 1) bs = some (ss, tail)) :
    ∃ s rest ss', dmiNext bs = some (s, rest) ∧ dmiWalk n rest = some (ss', tail) ∧
      ss = s :: ss' := by
  rw [dmiWalk] at h
  cases hnext : dmiNext bs with
  | none =>
    rw [hnext] at h
    exact nomatch h
  | some x =>
    obtain ⟨s, rest⟩ := x
    rw [hnext] at h
    obtain ⟨y, hwalk, hy⟩ := Option.map_eq_some_iff.mp h
    obtain ⟨rfl, rfl⟩ := Prod.mk.inj hy
    exact ⟨s, rest, y.1, rfl, hwalk, rfl⟩

/-- The walk goes over good parts first. -/
theorem dmiWalk_more {xs : List Part} (hxs : ∀ x ∈ xs, x.Good) (n : ℕ) (bs : List UInt8) :
    dmiWalk (xs.length + n) (xs.flatMap Part.bytes ++ bs) =
      (dmiWalk n bs).map fun x => (xs.map Part.found ++ x.1, x.2) := by
  induction xs with
  | nil => simp
  | cons x xs ih =>
    obtain ⟨hx, hxs⟩ := List.forall_mem_cons.mp hxs
    rw [List.flatMap_cons, List.append_assoc, List.length_cons, Nat.succ_add, dmiWalk,
      dmiNext_part hx]
    dsimp only
    rw [ih hxs, Option.map_map]
    rfl

/-- **A table of good parts** is walked part by part. -/
theorem dmiWalk_parts {xs : List Part} (hxs : ∀ x ∈ xs, x.Good) (rest : List UInt8) :
    dmiWalk xs.length (xs.flatMap Part.bytes ++ rest) = some (xs.map Part.found, rest) := by
  have h := dmiWalk_more hxs 0 rest
  rwa [Nat.add_zero, dmiWalk, Option.map_some, List.append_nil] at h

/-! ## §4 What is behind the walk -/

theorem cutSet_append (h : cutSet bs = some (set, rest)) (tail : List UInt8) :
    cutSet (bs ++ tail) = some (set, rest ++ tail) := by
  fun_induction cutSet bs generalizing set with
  | case1 rest' =>
    obtain ⟨rfl, rfl⟩ := Prod.mk.inj (Option.some.inj h)
    rfl
  | case2 b bs hno ih =>
    obtain ⟨x, hcut, hx⟩ := Option.map_eq_some_iff.mp h
    obtain ⟨rfl, rfl⟩ := Prod.mk.inj hx
    have hstep : cutSet (b :: bs ++ tail) =
        (cutSet (bs ++ tail)).map fun x => (b :: x.1, x.2) := by
      rw [List.cons_append, cutSet]
      -- what is behind the first byte is not empty, so its first byte is the same
      intro rest' hb hbs
      cases bs with
      | nil => exact nomatch hcut
      | cons c bs => exact hno bs hb (by rw [(List.cons.inj hbs).1])
    rw [hstep, ih hcut]
    rfl
  | case3 => exact nomatch h

theorem dmiNext_append {s : DmiStruct} (h : dmiNext bs = some (s, rest)) (tail : List UInt8) :
    dmiNext (bs ++ tail) = some (s, rest ++ tail) := by
  unfold dmiNext at h ⊢
  dsimp only at h ⊢
  split at h
  · exact nomatch h
  · rename_i hlen
    obtain ⟨hheader, hlength⟩ := not_or.mp hlen
    have hget : ∀ i < 2, (bs ++ tail).getD i 0 = bs.getD i 0 := by
      intro i hi
      rw [List.getD_eq_getElem?_getD, List.getElem?_append_left (by omega),
        List.getD_eq_getElem?_getD]
    obtain ⟨x, hcut, hx⟩ := Option.map_eq_some_iff.mp h
    obtain ⟨rfl, rfl⟩ := Prod.mk.inj hx
    have hmore : ¬ (bs ++ tail).length < (bs.getD 1 0).toNat := by
      rw [List.length_append]
      omega
    rw [hget 0 (by decide), hget 1 (by decide), if_neg (not_or.mpr ⟨hheader, hmore⟩),
      List.drop_append_of_le_length (by omega), List.take_append_of_le_length (by omega),
      cutSet_append hcut]
    rfl

/-- **What is behind a walk** has no part in it. -/
theorem dmiWalk_append {ss : List DmiStruct} (h : dmiWalk n bs = some (ss, rest))
    (tail : List UInt8) : dmiWalk n (bs ++ tail) = some (ss, rest ++ tail) := by
  induction n generalizing bs ss with
  | zero =>
    obtain ⟨rfl, rfl⟩ := Prod.mk.inj (Option.some.inj h)
    rfl
  | succ n ih =>
    obtain ⟨s, bs', ss', hnext, hwalk, rfl⟩ := dmiWalk_head h
    rw [dmiWalk, dmiNext_append hnext]
    dsimp only
    rw [ih hwalk]
    rfl

end Pmon.Smbios
