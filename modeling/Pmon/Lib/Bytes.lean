import Mathlib.Logic.Function.Basic
import Mathlib.Tactic.Common

/-!
# Byte memory

Memory is a total function from addresses to bytes; what lies outside the buffer a piece of
code works on is then simply unknown.  `Holds m a bs` says that the bytes `bs` stand at
address `a`, and the lemmas say which stores and moves keep it.
-/

namespace Pmon.Lib

/-- Byte-addressed memory. -/
abbrev Mem := ℕ → UInt8

namespace Mem

variable {m m' : Mem} {a b i n : ℕ} {bs cs : List UInt8}

/-! ## Contents -/

/-- The bytes `bs` stand at address `a`. -/
def Holds (m : Mem) : ℕ → List UInt8 → Prop
  | _, [] => True
  | a, b :: bs => m a = b ∧ m.Holds (a + 1) bs

@[simp] theorem holds_nil : m.Holds a [] := trivial

@[simp] theorem holds_cons {c : UInt8} :
    m.Holds a (c :: bs) ↔ m a = c ∧ m.Holds (a + 1) bs := Iff.rfl

theorem holds_append :
    m.Holds a (bs ++ cs) ↔ m.Holds a bs ∧ m.Holds (a + bs.length) cs := by
  induction bs generalizing a with
  | nil => simp
  | cons c bs ih =>
    simp only [List.cons_append, holds_cons, ih, List.length_cons, and_assoc]
    rw [show a + 1 + bs.length = a + (bs.length + 1) by omega]

theorem Holds.getElem (h : m.Holds a bs) (hi : i < bs.length) : m (a + i) = bs[i] := by
  induction bs generalizing a i with
  | nil => simp at hi
  | cons c bs ih =>
    cases i with
    | zero => exact h.1
    | succ i =>
      rw [List.length_cons] at hi
      rw [show a + (i + 1) = a + 1 + i by omega]
      exact ih h.2 (by omega)

/-- Only the cells of the range matter. -/
theorem holds_congr (h : ∀ i, a ≤ i → i < a + bs.length → m i = m' i) :
    m.Holds a bs ↔ m'.Holds a bs := by
  induction bs generalizing a with
  | nil => simp
  | cons c bs ih =>
    have hlen : (c :: bs).length = bs.length + 1 := List.length_cons
    rw [holds_cons, holds_cons, h a (by omega) (by omega),
      ih fun i h1 h2 => h i (by omega) (by omega)]

/-- `n` bytes from `a` on. -/
def slice (m : Mem) : ℕ → ℕ → List UInt8
  | _, 0 => []
  | a, n + 1 => m a :: m.slice (a + 1) n

@[simp] theorem length_slice : (m.slice a n).length = n := by
  induction n generalizing a with
  | zero => rfl
  | succ n ih => simp [slice, ih]

theorem slice_congr (h : ∀ i, a ≤ i → i < a + n → m i = m' i) : m.slice a n = m'.slice a n := by
  induction n generalizing a with
  | zero => rfl
  | succ n ih =>
    rw [slice, slice, h a (Nat.le_refl _) (by omega), ih fun i hlo hhi => h i (by omega) (by omega)]

/-- Two pieces with the same cells. -/
theorem slice_shift (h : ∀ k < n, m (a + k) = m' (b + k)) : m.slice a n = m'.slice b n := by
  induction n generalizing a b with
  | zero => rfl
  | succ n ih =>
    have hfirst : m a = m' b := h 0 (Nat.succ_pos n)
    rw [slice, slice, hfirst]
    congr 1
    apply ih
    intro k hk
    rw [Nat.add_assoc, Nat.add_comm 1, Nat.add_assoc b, Nat.add_comm 1]
    exact h (k + 1) (by omega)

theorem holds_slice (m : Mem) (a n : ℕ) : m.Holds a (m.slice a n) := by
  induction n generalizing a with
  | zero => trivial
  | succ n ih => exact ⟨rfl, ih _⟩

/-- Two byte strings of one length at one address are equal. -/
theorem Holds.unique (hb : m.Holds a bs) (hc : m.Holds a cs) (hlen : bs.length = cs.length) :
    bs = cs := by
  induction bs generalizing a cs with
  | nil => exact (List.length_eq_zero_iff.mp hlen.symm).symm
  | cons x bs ih =>
    cases cs with
    | nil => simp at hlen
    | cons y cs =>
      rw [List.length_cons, List.length_cons, Nat.add_right_cancel_iff] at hlen
      rw [← hb.1, ← hc.1, ih hb.2 hc.2 hlen]

theorem Holds.slice_eq (h : m.Holds a bs) : m.slice a bs.length = bs :=
  (holds_slice m a bs.length).unique h length_slice

/-- Reading a piece of what stands there. -/
theorem Holds.slice_drop (h : m.Holds a bs) (hn : i + n ≤ bs.length) :
    m.slice (a + i) n = (bs.drop i).take n := by
  have hpiece : m.Holds (a + i) ((bs.drop i).take n) := by
    rw [← List.take_append_drop i bs, holds_append, List.length_take, Nat.min_eq_left (by omega),
      ← List.take_append_drop n (bs.drop i), holds_append] at h
    exact h.2.1
  have hlen : ((bs.drop i).take n).length = n := by
    rw [List.length_take, List.length_drop, Nat.min_eq_left (by omega)]
  have hslice := hpiece.slice_eq
  rwa [hlen] at hslice

/-! ## Stores -/

/-- Store one byte. -/
def put (m : Mem) (a : ℕ) (b : UInt8) : Mem := Function.update m a b

@[simp] theorem put_self {c : UInt8} : m.put a c a = c := Function.update_self ..

theorem put_of_ne {c : UInt8} (h : i ≠ a) : m.put a c i = m i := Function.update_of_ne h ..

theorem holds_put_of_not_mem {c : UInt8} (h : b < a ∨ a + bs.length ≤ b) :
    (m.put b c).Holds a bs ↔ m.Holds a bs :=
  holds_congr fun i _ _ => put_of_ne (i := i) (by omega)

/-- Store the bytes `bs` one after the other from `a` on. -/
def store (m : Mem) : ℕ → List UInt8 → Mem
  | _, [] => m
  | a, b :: bs => store (m.put a b) (a + 1) bs

@[simp] theorem store_nil : m.store a [] = m := rfl

theorem store_cons {c : UInt8} :
    m.store a (c :: bs) = (m.put a c).store (a + 1) bs := rfl

theorem store_append : m.store a (bs ++ cs) = (m.store a bs).store (a + bs.length) cs := by
  induction bs generalizing a m with
  | nil => simp
  | cons c bs ih =>
    rw [List.cons_append, store_cons, store_cons, ih, List.length_cons,
      show a + 1 + bs.length = a + (bs.length + 1) by omega]

/-- A store leaves every cell outside its range. -/
theorem store_of_not_mem (h : i < a ∨ a + bs.length ≤ i) : m.store a bs i = m i := by
  induction bs generalizing a m with
  | nil => rfl
  | cons c bs ih =>
    rw [List.length_cons] at h
    rw [store_cons, ih (by omega), put_of_ne (by omega)]

theorem holds_store (m : Mem) (a : ℕ) (bs : List UInt8) : (m.store a bs).Holds a bs := by
  induction bs generalizing a m with
  | nil => trivial
  | cons c bs ih =>
    refine ⟨?_, ih _ _⟩
    rw [store_cons, store_of_not_mem (Or.inl (by omega)), put_self]

/-- A store keeps what stands outside its range. -/
theorem holds_store_of_disjoint (h : b + cs.length ≤ a ∨ a + bs.length ≤ b) :
    (m.store a bs).Holds b cs ↔ m.Holds b cs :=
  holds_congr fun i _ _ => store_of_not_mem (i := i) (by omega)

theorem store_of_mem (h : i < bs.length) : m.store a bs (a + i) = bs[i] :=
  (holds_store m a bs).getElem h

theorem slice_append {k : ℕ} : m.slice a (n + k) = m.slice a n ++ m.slice (a + n) k := by
  have hboth : m.Holds a (m.slice a n ++ m.slice (a + n) k) := by
    rw [holds_append, length_slice]
    exact ⟨holds_slice _ _ _, holds_slice _ _ _⟩
  exact (holds_slice m a (n + k)).unique hboth (by simp)

/-- A piece of a slice is a slice. -/
theorem drop_take_slice {k : ℕ} (h : i + k ≤ n) :
    ((m.slice a n).drop i).take k = m.slice (a + i) k :=
  ((holds_slice m a n).slice_drop (by rw [length_slice]; exact h)).symm

/-- **Read, modify, write**: to store a piece of a block, a copy of the block is changed and
    stored as a whole. -/
theorem store_patched {k : ℕ} {copy : Mem} (hcopy : ∀ j < n, copy j = m (a + j))
    (hlen : k + bs.length ≤ n) :
    m.store a ((copy.store k bs).slice 0 n) = m.store (a + k) bs := by
  funext i
  have hslice : ((copy.store k bs).slice 0 n).length = n := length_slice
  by_cases hin : a ≤ i ∧ i < a + n
  · obtain ⟨j, rfl⟩ : ∃ j, i = a + j := ⟨i - a, by omega⟩
    have hj : j < ((copy.store k bs).slice 0 n).length := by omega
    rw [store_of_mem hj, ← (holds_slice (copy.store k bs) 0 n).getElem hj, Nat.zero_add]
    by_cases hpiece : k ≤ j ∧ j < k + bs.length
    · obtain ⟨l, rfl⟩ : ∃ l, j = k + l := ⟨j - k, by omega⟩
      have hl : l < bs.length := by omega
      rw [store_of_mem hl, ← Nat.add_assoc, store_of_mem hl]
    · rw [store_of_not_mem (by omega), store_of_not_mem (by omega), hcopy j (by omega)]
  · rw [store_of_not_mem (by omega), store_of_not_mem (by omega)]

/-! ## Moves -/

/-- `bcopy(src, dst, n)`: the ranges may overlap. -/
def move (m : Mem) (src dst n : ℕ) : Mem := fun i =>
  if dst ≤ i ∧ i < dst + n then m (src + (i - dst)) else m i

theorem move_of_not_mem {src dst : ℕ} (h : i < dst ∨ dst + n ≤ i) :
    m.move src dst n i = m i :=
  if_neg (by omega)

theorem move_of_mem {src dst : ℕ} (hi : i < n) : m.move src dst n (dst + i) = m (src + i) := by
  rw [move, if_pos (by omega), Nat.add_sub_cancel_left]

/-- What stood at `src` stands at `dst` after the move. -/
theorem holds_move {src dst k : ℕ} (h : m.Holds (src + k) bs) (hlen : k + bs.length ≤ n) :
    (m.move src dst n).Holds (dst + k) bs := by
  induction bs generalizing k with
  | nil => trivial
  | cons c bs ih =>
    rw [List.length_cons] at hlen
    refine ⟨?_, ?_⟩
    · rw [move_of_mem (by omega)]
      exact h.1
    · exact ih (k := k + 1) h.2 (by omega)

theorem holds_move_of_disjoint {src dst : ℕ} (h : b + bs.length ≤ dst ∨ dst + n ≤ b) :
    (m.move src dst n).Holds b bs ↔ m.Holds b bs :=
  holds_congr fun i _ _ => move_of_not_mem (i := i) (by omega)

/-- The loop `while (n--) *dst++ = *src++;`. -/
def copyLoop (m : Mem) (src dst : ℕ) : ℕ → Mem
  | 0 => m
  | n + 1 => copyLoop (m.put dst (m src)) (src + 1) (dst + 1) n

/-- Copying towards lower addresses byte by byte is a move. -/
theorem copyLoop_eq_move {src dst : ℕ} (h : dst ≤ src) : m.copyLoop src dst n = m.move src dst n := by
  induction n generalizing m src dst with
  | zero =>
    funext i
    rw [move_of_not_mem (by omega)]
    rfl
  | succ n ih =>
    funext i
    rw [copyLoop, ih (by omega)]
    rcases Nat.lt_trichotomy i dst with hlt | rfl | hgt
    · rw [move_of_not_mem (by omega), move_of_not_mem (by omega), put_of_ne (by omega)]
    · rw [move_of_not_mem (by omega), put_self, move, if_pos (by omega), Nat.sub_self,
        Nat.add_zero]
    · rcases Nat.lt_or_ge i (dst + 1 + n) with hin | hout
      · rw [move, move, if_pos (by omega), if_pos (by omega), put_of_ne (by omega)]
        congr 1
        omega
      · rw [move_of_not_mem (by omega), move_of_not_mem (by omega), put_of_ne (by omega)]

/-- `memset`. -/
def fill (m : Mem) (a n : ℕ) (b : UInt8) : Mem := fun i => if a ≤ i ∧ i < a + n then b else m i

theorem fill_of_mem {c : UInt8} (h : a ≤ i ∧ i < a + n) : m.fill a n c i = c := if_pos h

theorem holds_replicate {c : UInt8} (h : ∀ i, a ≤ i → i < a + n → m i = c) :
    m.Holds a (List.replicate n c) := by
  induction n generalizing a with
  | zero => trivial
  | succ n ih => exact ⟨h a (Nat.le_refl _) (by omega), ih fun i hlo hhi => h i (by omega) (by omega)⟩

theorem holds_fill {c : UInt8} : (m.fill a n c).Holds a (List.replicate n c) :=
  holds_replicate fun _ hlo hhi => fill_of_mem ⟨hlo, hhi⟩

theorem fill_of_not_mem {c : UInt8} (h : i < a ∨ a + n ≤ i) : m.fill a n c i = m i :=
  if_neg (by omega)

/-- `memcpy` of `n` bytes from another memory. -/
def copyFrom (m src : Mem) (n : ℕ) : Mem := fun i => if i < n then src i else m i

theorem copyFrom_of_lt {src : Mem} (h : i < n) : m.copyFrom src n i = src i := if_pos h

theorem copyFrom_of_ge {src : Mem} (h : n ≤ i) : m.copyFrom src n i = m i :=
  if_neg (by omega)

theorem holds_copyFrom {src : Mem} (h : a + bs.length ≤ n) :
    (m.copyFrom src n).Holds a bs ↔ src.Holds a bs :=
  holds_congr fun _ _ _ => copyFrom_of_lt (by omega)

/-! ## Stores on a 32-bit machine -/

/-- Store bytes one after the other; addresses wrap. -/
def storeMod (m : Mem) : ℕ → List UInt8 → Mem
  | _, [] => m
  | a, b :: bs => storeMod (m.put (a % 4294967296) b) (a + 1) bs

theorem storeMod_append :
    m.storeMod a (bs ++ cs) = (m.storeMod a bs).storeMod (a + bs.length) cs := by
  induction bs generalizing m a with
  | nil => rfl
  | cons c bs ih =>
    rw [List.cons_append, storeMod, storeMod, ih, List.length_cons,
      show a + 1 + bs.length = a + (bs.length + 1) by omega]

theorem storeMod_congr (h : a % 4294967296 = b % 4294967296) :
    m.storeMod a bs = m.storeMod b bs := by
  induction bs generalizing m a b with
  | nil => rfl
  | cons c bs ih =>
    have hnext : (a + 1) % 4294967296 = (b + 1) % 4294967296 := by omega
    rw [storeMod, storeMod, h, ih hnext]

/-- Below the top of the address space this is the plain store. -/
theorem storeMod_eq_store (h : a + bs.length ≤ 4294967296) :
    m.storeMod a bs = m.store a bs := by
  induction bs generalizing m a with
  | nil => rfl
  | cons c bs ih =>
    rw [List.length_cons] at h
    rw [storeMod, store_cons, Nat.mod_eq_of_lt (by omega), ih (by omega)]

end Mem

end Pmon.Lib
