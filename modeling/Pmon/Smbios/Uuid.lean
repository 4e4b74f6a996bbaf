import Pmon.Lib.Bytes
import Pmon.Libc.Strtoull
import Pmon.Loaders.SrecText

/-!
# The UUID of the system

`smbios_type_1_init` of `pmon/common/smbios/smbios.c`.  At the first boot it writes the UUID that
it has made up to the variable `uuid`, five groups of hexadecimal digits, of which the first three
are little-endian.  Later it reads the variable with `strtoull`, group by group, and takes from the
length of each number how many bytes it has.

Nothing limits that length to the bytes that are still missing: a long number goes on behind the
field, and behind the variable that holds the number.

## Key results

- `parse_uuidText`: the text of a UUID is read back.
- `safe_iff`: when the reader stays within the field and the number.
- `uuid_exact`: both.
-/

namespace Pmon.Smbios

open Pmon.Lib Pmon.Libc Pmon.Loaders

/-! ## §1 Writing and reading -/

/-- `%02X` of some bytes, one after the other. -/
def hexBytes (bs : List UInt8) : CStr := bs.flatMap fun b => printX 2 b.toNat

local instance sixteenNeZero : NeZero 16 := ⟨by decide⟩

/-- The text that is stored for a UUID. -/
def uuidText (u : Fin 16 → UInt8) : CStr :=
  hexBytes [u 3, u 2, u 1, u 0] ++ 45 :: (hexBytes [u 5, u 4] ++ 45 :: (hexBytes [u 7, u 6] ++ 45 ::
    (hexBytes [u 8, u 9] ++ 45 :: hexBytes [u 10, u 11, u 12, u 13, u 14, u 15])))

/-- The assignment `p->uuid[i] = pt[k]`, where `pt` points to the number `t`. -/
structure UuidMove where
  i : ℕ
  k : ℕ
  t : ℕ

/-- The inner loop, for a number of `2 * n` characters. -/
def groupMoves (t n i : ℕ) : List UuidMove :=
  (List.range n).map fun j => ⟨i + j, if i + j < 8 then j else n - 1 - j, t⟩

/-- `(s1 - s) / 2`. -/
def pairs (s s1 : CStr) : ℕ := (s.length - s1.length) / 2

theorem strtoullEnd_rest {s s' : CStr} {c : UInt8} (h : (strtoullEnd s 16).2 = c :: s') :
    s'.length < s.length := by
  have hbase : (16 : ℕ) = 0 ∨ 2 ≤ 16 := Or.inr (by decide)
  have hle := (strtoullEnd_suffix hbase s).length_le
  rw [h] at hle
  exact hle

/-- The loop over the text, from byte `i` of the field on. -/
def parseMoves (s : CStr) (i : ℕ) : List UuidMove :=
  if i < 16 then
    let n := pairs s (strtoullEnd s 16).2
    groupMoves (strtoullEnd s 16).1 n i ++
      match _h : (strtoullEnd s 16).2 with
      | [] => []
      | _ :: s' => parseMoves s' (i + n)
  else []
termination_by s.length
decreasing_by exact strtoullEnd_rest ‹_›

/-- What is read; `stack` is the memory from the number on. -/
def UuidMove.byte (stack : ℕ → UInt8) (x : UuidMove) : UInt8 :=
  if x.k < 8 then UInt8.ofNat (x.t / 256 ^ x.k) else stack x.k

/-- The memory after some assignments, where `p->uuid` is at `a`. -/
def applyMoves (stack : ℕ → UInt8) (a : ℕ) (m : Mem) (xs : List UuidMove) : Mem :=
  xs.foldl (fun m x => m.put (a + x.i) (x.byte stack)) m

/-- The memory after the variable `uuid` has been read. -/
def parseUuid (stack : ℕ → UInt8) (a : ℕ) (m : Mem) (q : CStr) : Mem :=
  applyMoves stack a m (parseMoves q 0)

/-! ## §2 One number -/

variable {stack : ℕ → UInt8} {m : Mem} {s rest q : CStr} {a t n i : ℕ} {bs : List UInt8}

theorem parseMoves_done (h : 16 ≤ i) : parseMoves s i = [] := by
  rw [parseMoves, if_neg (Nat.not_lt.mpr h)]

/-- The last turn of the loop. -/
theorem parseMoves_last (hi : i < 16) (hend : strtoullEnd s 16 = (t, [])) :
    parseMoves s i = groupMoves t (s.length / 2) i := by
  have hpairs : pairs s [] = s.length / 2 := rfl
  rw [parseMoves, if_pos hi]
  split
  · rw [hend, hpairs, List.append_nil]
  · rename_i h
    rw [hend] at h
    exact nomatch h

/-- Any other turn. -/
theorem parseMoves_next (hi : i < 16) {c : UInt8} {s' : CStr}
    (hend : strtoullEnd s 16 = (t, c :: s')) :
    parseMoves s i =
      groupMoves t (pairs s (c :: s')) i ++ parseMoves s' (i + pairs s (c :: s')) := by
  rw [parseMoves, if_pos hi]
  split
  · rename_i h
    rw [hend] at h
    exact nomatch h
  · rename_i h
    rw [hend] at h ⊢
    obtain ⟨-, rfl⟩ := List.cons.inj h
    rfl

/-- **One number** within the field and itself: it must not have more bytes than are missing. -/
theorem groupMoves_safe (hi : i < 16) :
    (∀ x ∈ groupMoves t n i, x.i < 16 ∧ x.k < 8) ↔ i + n ≤ 16 := by
  unfold groupMoves
  rw [List.forall_mem_map]
  constructor
  · intro h
    rcases Nat.eq_zero_or_pos n with rfl | hpos
    · omega
    · have hlast := h (n - 1) (List.mem_range.mpr (by omega))
      dsimp only at hlast
      omega
  · intro h j hj
    have hj := List.mem_range.mp hj
    dsimp only
    split
    · omega
    · omega

/-! ## §3 All numbers -/

/-- How many bytes the numbers have that `strtoull` finds, with one character between them. -/
def groupSizes (s : CStr) : List ℕ :=
  pairs s (strtoullEnd s 16).2 ::
    match _h : (strtoullEnd s 16).2 with
    | [] => []
    | _ :: s' => groupSizes s'
termination_by s.length
decreasing_by exact strtoullEnd_rest ‹_›

theorem groupSizes_last (hend : strtoullEnd s 16 = (t, [])) : groupSizes s = [s.length / 2] := by
  have hpairs : pairs s [] = s.length / 2 := rfl
  rw [groupSizes]
  split
  · rw [hend, hpairs]
  · rename_i h
    rw [hend] at h
    exact nomatch h

theorem groupSizes_next {c : UInt8} {s' : CStr} (hend : strtoullEnd s 16 = (t, c :: s')) :
    groupSizes s = pairs s (c :: s') :: groupSizes s' := by
  rw [groupSizes]
  split
  · rename_i h
    rw [hend] at h
    exact nomatch h
  · rename_i h
    rw [hend] at h ⊢
    obtain ⟨-, rfl⟩ := List.cons.inj h
    rfl

/-- No number is longer than what is missing before it, until nothing is missing. -/
def FitsFrom : ℕ → List ℕ → Prop
  | _, [] => True
  | i, n :: ns => i < 16 → i + n ≤ 16 ∧ FitsFrom (i + n) ns

/-- **The sizes fill the field exactly**, or less of it. -/
def Fits (ns : List ℕ) : Prop := ns.sum ≤ 16 ∨ ∃ k, (ns.take k).sum = 16

theorem fitsFrom_full (ns : List ℕ) : FitsFrom 16 ns := by
  cases ns with
  | nil => trivial
  | cons n ns => exact fun h => absurd h (Nat.lt_irrefl 16)

theorem fitsFrom_iff (ns : List ℕ) (hi : i ≤ 16) :
    FitsFrom i ns ↔ i + ns.sum ≤ 16 ∨ ∃ k, i + (ns.take k).sum = 16 := by
  induction ns generalizing i with
  | nil => simp [FitsFrom, hi]
  | cons n ns ih =>
    rw [FitsFrom, List.sum_cons]
    constructor
    · intro h
      rcases Nat.lt_or_eq_of_le hi with hlt | rfl
      · obtain ⟨hn, hrest⟩ := h hlt
        rcases (ih hn).mp hrest with hsum | ⟨k, hk⟩
        · exact Or.inl (by omega)
        · refine Or.inr ⟨k + 1, ?_⟩
          rw [List.take_succ_cons, List.sum_cons]
          omega
      · exact Or.inr ⟨0, rfl⟩
    · intro h hlt
      rcases h with hsum | ⟨k, hk⟩
      · have hn : i + n ≤ 16 := by omega
        exact ⟨hn, (ih hn).mpr (Or.inl (by omega))⟩
      · cases k with
        | zero =>
          simp at hk
          omega
        | succ k =>
          rw [List.take_succ_cons, List.sum_cons] at hk
          have hn : i + n ≤ 16 := by omega
          exact ⟨hn, (ih hn).mpr (Or.inr ⟨k, by omega⟩)⟩

/-- The reader writes only the field and reads only the number. -/
def Safe (xs : List UuidMove) : Prop := ∀ x ∈ xs, x.i < 16 ∧ x.k < 8

theorem safe_append (xs ys : List UuidMove) : Safe (xs ++ ys) ↔ Safe xs ∧ Safe ys :=
  List.forall_mem_append

theorem safe_from (s : CStr) (i : ℕ) : Safe (parseMoves s i) ↔ FitsFrom i (groupSizes s) := by
  induction hlen : s.length using Nat.strong_induction_on generalizing s i with
  | _ len ih =>
  rcases Nat.lt_or_ge i 16 with hi | hi
  · rcases hend : strtoullEnd s 16 with ⟨t, s1⟩
    cases s1 with
    | nil =>
      rw [parseMoves_last hi hend, groupSizes_last hend, FitsFrom, Safe, groupMoves_safe hi]
      simp [hi, FitsFrom]
    | cons c s' =>
      have hrest := strtoullEnd_rest (congrArg Prod.snd hend)
      rw [parseMoves_next hi hend, groupSizes_next hend, FitsFrom, safe_append,
        ih s'.length (hlen ▸ hrest) s' _ rfl, Safe, groupMoves_safe hi]
      simp [hi]
  · rw [parseMoves_done hi]
    refine iff_of_true (fun x hx => nomatch hx) ?_
    cases groupSizes s with
    | nil => trivial
    | cons n ns => exact fun h => absurd h (Nat.not_lt.mpr hi)

/-- **The reader** stays within the field and the number exactly when the sizes fit. -/
theorem safe_iff (q : CStr) : Safe (parseMoves q 0) ↔ Fits (groupSizes q) := by
  rw [safe_from, fitsFrom_iff _ (Nat.zero_le 16), Fits]
  simp only [Nat.zero_add]

/-! ## §4 The text of a UUID -/

theorem strtoDigit_of_hexDigit {d : ℕ} {c : UInt8} (h : HexDigit d c) : strtoDigit c = some d := by
  have hlt := h.lt
  unfold HexDigit at h
  interval_cases d <;> rcases h with h | h <;> cases h <;> rfl

/-- Two digits for each byte, as `strtoull` reads them. -/
theorem digits_of_hex {ns : List ℕ} {hex : CStr} (h : Hex ns hex) :
    (∀ c ∈ hex, isDigitOf 16 c = true) ∧
      ∀ v, digitsValue 16 v hex = ns.foldl (fun v b => v * 256 + b) v := by
  induction h with
  | nil => exact ⟨fun c hc => absurd hc List.not_mem_nil, fun v => rfl⟩
  | @cons hi lo a b ns hex ha hb _ ih =>
    have hdigit : ∀ {d c}, HexDigit d c → isDigitOf 16 c = true := by
      intro d c h
      rw [isDigitOf, strtoDigit_of_hexDigit h]
      exact decide_eq_true h.lt
    refine ⟨?_, fun v => ?_⟩
    · rw [List.forall_mem_cons, List.forall_mem_cons]
      exact ⟨hdigit ha, hdigit hb, ih.1⟩
    · rw [digitsValue_cons, digitsValue_cons, ih.2, strtoDigit_of_hexDigit ha,
        strtoDigit_of_hexDigit hb, List.foldl_cons]
      congr 1
      simp only [Option.getD_some]
      omega

/-- The number that bytes spell, the first one highest. -/
def bigEndian (bs : List UInt8) : ℕ := bs.foldl (fun v b => v * 256 + b.toNat) 0

theorem foldl_bytes (bs : List UInt8) (v : ℕ) :
    bs.foldl (fun v b => v * 256 + b.toNat) v = v * 256 ^ bs.length + bigEndian bs := by
  induction bs generalizing v with
  | nil => simp [bigEndian]
  | cons b bs ih =>
    rw [bigEndian, List.foldl_cons, List.foldl_cons, ih, ih (0 * 256 + b.toNat), List.length_cons]
    ring

theorem bigEndian_cons (b : UInt8) (bs : List UInt8) :
    bigEndian (b :: bs) = b.toNat * 256 ^ bs.length + bigEndian bs := by
  rw [bigEndian, List.foldl_cons, foldl_bytes, Nat.zero_mul, Nat.zero_add]

theorem bigEndian_lt (bs : List UInt8) : bigEndian bs < 256 ^ bs.length := by
  induction bs with
  | nil => exact Nat.one_pos
  | cons b bs ih =>
    have hb : b.toNat + 1 ≤ 256 := b.toNat_lt
    calc bigEndian (b :: bs) < b.toNat * 256 ^ bs.length + 256 ^ bs.length := by
          rw [bigEndian_cons]
          exact Nat.add_lt_add_left ih _
      _ = (b.toNat + 1) * 256 ^ bs.length := (Nat.succ_mul ..).symm
      _ ≤ 256 * 256 ^ bs.length := Nat.mul_le_mul_right _ hb
      _ = 256 ^ (b :: bs).length := by rw [List.length_cons, Nat.pow_succ, Nat.mul_comm]

/-- **The bytes of the number**, from its low end. -/
theorem byte_bigEndian (bs : List UInt8) {j : ℕ} (hj : j < bs.length) :
    UInt8.ofNat (bigEndian bs / 256 ^ (bs.length - 1 - j)) = bs[j] := by
  induction bs generalizing j with
  | nil => simp at hj
  | cons b bs ih =>
    have hlt := bigEndian_lt bs
    have hpos : 0 < 256 ^ bs.length := Nat.pow_pos (by decide)
    rw [bigEndian_cons]
    cases j with
    | zero =>
      rw [List.length_cons, Nat.add_sub_cancel, Nat.sub_zero, Nat.add_comm,
        Nat.add_mul_div_right _ _ hpos, Nat.div_eq_of_lt hlt, Nat.zero_add, UInt8.ofNat_toNat]
      rfl
    | succ j =>
      -- the first byte is a multiple of 256 places further up
      have hj' : j < bs.length := Nat.lt_of_succ_lt_succ hj
      have hk : (b :: bs).length - 1 - (j + 1) = bs.length - 1 - j := by
        rw [List.length_cons]
        omega
      have hpow : 256 ^ bs.length = 256 * 256 ^ j * 256 ^ (bs.length - 1 - j) := by
        rw [← Nat.pow_succ', ← Nat.pow_add]
        congr 1
        omega
      have hdiv : (b.toNat * 256 ^ bs.length + bigEndian bs) / 256 ^ (bs.length - 1 - j) =
          bigEndian bs / 256 ^ (bs.length - 1 - j) + 256 * (b.toNat * 256 ^ j) := by
        rw [hpow, show b.toNat * (256 * 256 ^ j * 256 ^ (bs.length - 1 - j)) =
          256 * (b.toNat * 256 ^ j) * 256 ^ (bs.length - 1 - j) by ring, Nat.add_comm,
          Nat.add_mul_div_right _ _ (Nat.pow_pos (by decide))]
      rw [hk, hdiv, List.getElem_cons_succ, ← ih hj', ← UInt8.toNat_inj, UInt8.toNat_ofNat',
        UInt8.toNat_ofNat', Nat.add_mul_mod_self_left]

theorem hex_hexBytes (bs : List UInt8) : Hex (bs.map UInt8.toNat) (hexBytes bs) := by
  have hlt : ∀ b ∈ bs.map UInt8.toNat, b < 256 := by
    intro b hb
    obtain ⟨c, -, rfl⟩ := List.mem_map.mp hb
    exact c.toNat_lt
  have h := hex_bytes hlt
  rwa [List.flatMap_map] at h

theorem length_hexBytes (bs : List UInt8) : (hexBytes bs).length = 2 * bs.length := by
  rw [(hex_hexBytes bs).length_eq, List.length_map]

/-- **A group** is converted to the number that its bytes spell. -/
theorem strtoullEnd_hexBytes (hne : bs ≠ []) (hlen : bs.length ≤ 8)
    (hrest : rest = [] ∨ ∃ s', rest = 45 :: s') :
    strtoullEnd (hexBytes bs ++ rest) 16 = (bigEndian bs, rest) := by
  obtain ⟨hdigits, hvalue⟩ := digits_of_hex (hex_hexBytes bs)
  have hvalue : digitsValue 16 0 (hexBytes bs) = bigEndian bs := by
    rw [hvalue, List.foldl_map, bigEndian]
  have hsmall : bigEndian bs ≤ ulonglongMax := by
    have hlt := bigEndian_lt bs
    have hpow : 256 ^ bs.length ≤ 256 ^ 8 := Nat.pow_le_pow_right (by decide) hlen
    exact Nat.le_of_lt_succ (Nat.lt_of_lt_of_le hlt hpow)
  have hne' : hexBytes bs ≠ [] := by
    intro h
    have hlen' := length_hexBytes bs
    rw [h] at hlen'
    exact hne (List.length_eq_zero_iff.mp (by simpa using hlen'.symm))
  rw [← hvalue]
  apply strtoullEnd_hex hdigits hne'
  · intro d hd
    rcases hrest with rfl | ⟨s', rfl⟩
    · exact nomatch hd
    · cases hd
      decide
  · rw [hvalue]
    exact hsmall

/-! ## §5 The bytes in their places -/

/-- The assignments of the inner loop, one after another. -/
theorem foldl_put (m : Mem) (a i : ℕ) (f : ℕ → UInt8) (n : ℕ) :
    (List.range n).foldl (fun m j => m.put (a + (i + j)) (f j)) m =
      m.store (a + i) ((List.range n).map f) := by
  induction n with
  | zero => rfl
  | succ n ih =>
    rw [List.range_succ, List.foldl_append, ih, List.map_append, Mem.store_append, List.length_map,
      List.length_range, Nat.add_assoc]
    rfl

theorem applyMoves_append (xs ys : List UuidMove) :
    applyMoves stack a m (xs ++ ys) = applyMoves stack a (applyMoves stack a m xs) ys :=
  List.foldl_append

theorem groupMoves_places (t n i : ℕ) :
    (groupMoves t n i).map UuidMove.i = List.range' i n := by
  unfold groupMoves
  rw [List.map_map, List.range'_eq_map_range]
  rfl

/-- **The places** of the assignments follow each other. -/
theorem parseMoves_places (s : CStr) (i : ℕ) :
    (parseMoves s i).map UuidMove.i = List.range' i (parseMoves s i).length := by
  induction hlen : s.length using Nat.strong_induction_on generalizing s i with
  | _ len ih =>
  rcases Nat.lt_or_ge i 16 with hi | hi
  · rcases hend : strtoullEnd s 16 with ⟨t, s1⟩
    cases s1 with
    | nil =>
      rw [parseMoves_last hi hend, groupMoves_places]
      simp [groupMoves]
    | cons c s' =>
      have hrest := strtoullEnd_rest (congrArg Prod.snd hend)
      have hgroup : (groupMoves t (pairs s (c :: s')) i).length = pairs s (c :: s') := by
        simp [groupMoves]
      rw [parseMoves_next hi hend, List.map_append, groupMoves_places, List.length_append, hgroup,
        ih s'.length (hlen ▸ hrest) s' _ rfl, List.range'_append_1]
  · rw [parseMoves_done hi]
    rfl

/-- What no assignment writes. -/
theorem applyMoves_frame {xs : List UuidMove} {b : ℕ} (h : ∀ x ∈ xs, a + x.i ≠ b) :
    applyMoves stack a m xs b = m b := by
  induction xs generalizing m with
  | nil => rfl
  | cons x xs ih =>
    obtain ⟨hx, hxs⟩ := List.forall_mem_cons.mp h
    have hput : m.put (a + x.i) (x.byte stack) b = m b := Mem.put_of_ne hx.symm
    exact (ih hxs).trans hput

/-- What one assignment writes, when no other one writes there. -/
theorem applyMoves_at {xs : List UuidMove} (hplaces : (xs.map UuidMove.i).Nodup) {x : UuidMove}
    (hx : x ∈ xs) : applyMoves stack a m xs (a + x.i) = x.byte stack := by
  induction xs generalizing m with
  | nil => exact absurd hx List.not_mem_nil
  | cons y xs ih =>
    rw [List.map_cons, List.nodup_cons] at hplaces
    rcases List.mem_cons.mp hx with rfl | hx
    · have hlater : ∀ y ∈ xs, a + y.i ≠ a + x.i := by
        intro y hy hsame
        exact hplaces.1 (List.mem_map.mpr ⟨y, hy, Nat.add_left_cancel hsame⟩)
      have hput : m.put (a + x.i) (x.byte stack) (a + x.i) = x.byte stack := Mem.put_self ..
      exact (applyMoves_frame hlater).trans hput
    · exact ih hplaces.2 hx

/-- The bytes of a group, in the order of the loop. -/
def groupBytes (stack : ℕ → UInt8) (t n i : ℕ) : List UInt8 :=
  (List.range n).map fun j => UuidMove.byte stack ⟨i + j, if i + j < 8 then j else n - 1 - j, t⟩

theorem apply_group (t n i : ℕ) :
    applyMoves stack a m (groupMoves t n i) = m.store (a + i) (groupBytes stack t n i) := by
  unfold applyMoves groupMoves
  rw [List.foldl_map]
  exact foldl_put m a i _ n

/-- **A group in the first half** is stored from its low end. -/
theorem groupBytes_low (hi : i + bs.length ≤ 8) :
    groupBytes stack (bigEndian bs) bs.length i = bs.reverse := by
  apply List.ext_getElem
  · simp [groupBytes]
  · intro j hj hj'
    rw [List.length_reverse] at hj'
    have hplace : bs.length - 1 - (bs.length - 1 - j) = j := by omega
    have hbyte := byte_bigEndian bs (show bs.length - 1 - j < bs.length by omega)
    rw [hplace] at hbyte
    have hlow : i + j < 8 := by omega
    have hnumber : j < 8 := by omega
    simp only [groupBytes, List.getElem_map, List.getElem_range, UuidMove.byte, hlow, hnumber,
      if_true, hbyte, List.getElem_reverse]

/-- **A group in the second half** is stored from its high end. -/
theorem groupBytes_high (hi : 8 ≤ i) (hlen : bs.length ≤ 8) :
    groupBytes stack (bigEndian bs) bs.length i = bs := by
  apply List.ext_getElem
  · simp [groupBytes]
  · intro j hj hj'
    have hbyte := byte_bigEndian bs hj'
    have hhigh : ¬ i + j < 8 := by omega
    have hnumber : bs.length - 1 - j < 8 := by omega
    simp only [groupBytes, List.getElem_map, List.getElem_range, UuidMove.byte, hhigh, hnumber,
      if_true, if_false, hbyte]

theorem pairs_group (bs : List UInt8) (rest : CStr) :
    pairs (hexBytes bs ++ rest) rest = bs.length := by
  unfold pairs
  rw [List.length_append, length_hexBytes, Nat.add_sub_cancel]
  omega

/-- A group with another one behind it. -/
theorem parse_group (hi : i < 16) (hne : bs ≠ []) (hlen : bs.length ≤ 8) (s' : CStr) :
    parseMoves (hexBytes bs ++ 45 :: s') i =
      groupMoves (bigEndian bs) bs.length i ++ parseMoves s' (i + bs.length) := by
  have hend := strtoullEnd_hexBytes hne hlen (Or.inr ⟨s', rfl⟩)
  rw [parseMoves_next hi hend, pairs_group]

/-- The last group. -/
theorem parse_lastGroup (hi : i < 16) (hne : bs ≠ []) (hlen : bs.length ≤ 8) :
    parseMoves (hexBytes bs) i = groupMoves (bigEndian bs) bs.length i := by
  have hend := strtoullEnd_hexBytes hne hlen (Or.inl rfl)
  rw [List.append_nil] at hend
  rw [parseMoves_last hi hend, length_hexBytes, Nat.mul_div_cancel_left _ (by decide)]

/-- **There and back**: the text of a UUID puts its bytes into the field, and nothing else. -/
theorem parse_uuidText (stack : ℕ → UInt8) (a : ℕ) (m : Mem) (u : Fin 16 → UInt8) :
    parseUuid stack a m (uuidText u) = m.store a (List.ofFn u) := by
  have hbytes : List.ofFn u = [u 0, u 1, u 2, u 3] ++ ([u 4, u 5] ++ ([u 6, u 7] ++
      ([u 8, u 9] ++ [u 10, u 11, u 12, u 13, u 14, u 15]))) := by
    simp [List.ofFn_succ]
  unfold parseUuid uuidText
  rw [parse_group (by decide) (by simp) (by simp), parse_group (by simp) (by simp) (by simp),
    parse_group (by simp) (by simp) (by simp), parse_group (by simp) (by simp) (by simp),
    parse_lastGroup (by simp) (by simp) (by simp)]
  simp only [applyMoves_append, apply_group]
  rw [groupBytes_low (by simp), groupBytes_low (by simp), groupBytes_low (by simp),
    groupBytes_high (by simp) (by simp), groupBytes_high (by simp) (by simp), hbytes,
    Mem.store_append, Mem.store_append, Mem.store_append, Mem.store_append]
  rfl

/-! ## §6 Every text -/

/-- The UUID is read back from its text. -/
def RoundTrip (u : Fin 16 → UInt8) : Prop :=
  ∀ (stack : ℕ → UInt8) (a : ℕ) (m : Mem),
    parseUuid stack a m (uuidText u) = m.store a (List.ofFn u)

/-- **The reader of the variable**: it always gets back what the first boot wrote; on any other
    text it stays within the field and the number exactly when the sizes of the numbers fit. -/
theorem uuid_exact (q : CStr) :
    (∀ u, RoundTrip u) ∧ Safe (parseMoves q 0) ↔ Fits (groupSizes q) := by
  have hround : ∀ u, RoundTrip u := fun u stack a m => parse_uuidText stack a m u
  rw [and_iff_right hround]
  exact safe_iff q

/-- **Seventeen bytes in one number** write one byte behind the field. -/
theorem unsafe_digits : ¬ Safe (parseMoves (List.replicate 34 48) 0) := by
  have hend : strtoullEnd (List.replicate 34 48) 16 = (0, []) := by decide +kernel
  have hsizes : groupSizes (List.replicate 34 48) = [17] := groupSizes_last hend
  rw [safe_iff, hsizes]
  rintro (hsum | ⟨k, hk⟩)
  · exact absurd hsum (by decide)
  · cases k with
    | zero => exact absurd hk (by decide)
    | succ k =>
      rw [List.take_of_length_le (by simp)] at hk
      exact absurd hk (by decide)

end Pmon.Smbios
