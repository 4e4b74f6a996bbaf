import Pmon.Lib.Bytes

/-!
# Words in byte memory

A 32-bit little-endian machine reads and writes four bytes at a time.  `m.words` is the memory
as the machine's aligned words; an aligned store changes one of them.
-/

namespace Pmon.Lib

/-- The bytes of a word. -/
def le32 (v : ℕ) : List UInt8 :=
  [UInt8.ofNat v, UInt8.ofNat (v / 256), UInt8.ofNat (v / 65536), UInt8.ofNat (v / 16777216)]

namespace Mem

variable {m : Mem} {a b i j v : ℕ}

/-- The word at an address. -/
def word (m : Mem) (a : ℕ) : ℕ :=
  (m a).toNat + 256 * (m (a + 1)).toNat + 65536 * (m (a + 2)).toNat +
    16777216 * (m (a + 3)).toNat

/-- The half-word at an address. -/
def half (m : Mem) (a : ℕ) : ℕ := (m a).toNat + 256 * (m (a + 1)).toNat

/-- Store a word at an address. -/
def putWord (m : Mem) (a v : ℕ) : Mem := m.store a (le32 v)

theorem word_lt : m.word a < 4294967296 := by
  have h0 := (m a).toNat_lt
  have h1 := (m (a + 1)).toNat_lt
  have h2 := (m (a + 2)).toNat_lt
  have h3 := (m (a + 3)).toNat_lt
  rw [word]
  omega

theorem half_lt : m.half a < 65536 := by
  have h0 := (m a).toNat_lt
  have h1 := (m (a + 1)).toNat_lt
  rw [half]
  omega

theorem word_of_holds (h : m.Holds a (le32 v)) : m.word a = v % 4294967296 := by
  obtain ⟨h0, h1, h2, h3, -⟩ := h
  rw [word, h0, h1, h2, h3, UInt8.toNat_ofNat', UInt8.toNat_ofNat', UInt8.toNat_ofNat',
    UInt8.toNat_ofNat']
  omega

theorem word_congr {m' : Mem} (h : ∀ k < 4, m (a + k) = m' (a + k)) : m.word a = m'.word a := by
  rw [word, word, ← h 1 (by omega), ← h 2 (by omega), ← h 3 (by omega), ← Nat.add_zero a,
    h 0 (by omega)]

@[simp] theorem word_putWord_self : (m.putWord a v).word a = v % 4294967296 :=
  word_of_holds (holds_store m a (le32 v))

theorem word_putWord_of_disjoint (h : b + 4 ≤ a ∨ a + 4 ≤ b) :
    (m.putWord a v).word b = m.word b :=
  word_congr fun k hk => store_of_not_mem (by
    have hlen : (le32 v).length = 4 := rfl
    omega)

/-! ## Aligned words -/

/-- The memory as its aligned words. -/
def words (m : Mem) (i : ℕ) : ℕ := m.word (4 * i)

theorem words_putWord : (m.putWord (4 * i) v).words = Function.update m.words i (v % 4294967296) := by
  funext j
  rcases eq_or_ne j i with rfl | hne
  · rw [Function.update_self]
    exact word_putWord_self
  · rw [Function.update_of_ne hne]
    exact word_putWord_of_disjoint (by omega)

end Mem

end Pmon.Lib
