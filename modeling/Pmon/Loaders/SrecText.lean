import Pmon.Loaders.SrecRuns

/-!
# Writing S-records

What the programs that write S-records have in common: `printf` of hexadecimal numbers.

## Key results

- `hex_hexN`: the digits of a number spell out its bytes.
- `hex_printX`: so does `printf`, for a number that fits its width.
-/

namespace Pmon.Loaders

open Pmon.Lib Pmon.Libc

/-! ## §1 printf -/

/-- A digit of `%X`. -/
def digitX (d : ℕ) : UInt8 := if d < 10 then UInt8.ofNat (48 + d) else UInt8.ofNat (55 + d)

/-- The last `n` digits of a number. -/
def hexN : ℕ → ℕ → CStr
  | 0, _ => []
  | n + 1, v => hexN n (v / 16) ++ [digitX (v % 16)]

/-- How many digits a number of at most 64 bits has, after the first one. -/
def moreDigits : ℕ → ℕ → ℕ
  | 0, _ => 0
  | n + 1, v => if v < 16 then 0 else moreDigits n (v / 16) + 1

/-- `%0nX`: no fewer than `n` digits, and all that the number has. -/
def printX (n v : ℕ) : CStr := hexN (max n (moreDigits 15 v + 1)) v

/-! ## §2 Bytes -/

variable {v n k : ℕ} {bs cs : List ℕ} {hex hex' : CStr}

/-- The last `k` bytes of a number. -/
def bytesOf : ℕ → ℕ → List ℕ
  | 0, _ => []
  | k + 1, v => bytesOf k (v / 256) ++ [v % 256]

@[simp] theorem length_bytesOf : (bytesOf k v).length = k := by
  induction k generalizing v with
  | zero => rfl
  | succ k ih => rw [bytesOf, List.length_append, ih, List.length_singleton]

/-- The number that some bytes spell. -/
theorem foldl_bytesOf (v k : ℕ) :
    (bytesOf k v).foldl (fun v b => v * 256 + b) 0 = v % 256 ^ k := by
  induction k generalizing v with
  | zero => rw [bytesOf, List.foldl_nil, Nat.pow_zero, Nat.mod_one]
  | succ k ih =>
    rw [bytesOf, List.foldl_append, ih, List.foldl_cons, List.foldl_nil, Nat.pow_succ,
      Nat.mul_comm (256 ^ k), Nat.mod_mul, Nat.mul_comm]
    omega

theorem digitX_digit {d : ℕ} (h : d < 16) : HexDigit d (digitX d) := by
  right
  interval_cases d <;> rfl

theorem Hex.append (h : Hex bs hex) (h' : Hex cs hex') : Hex (bs ++ cs) (hex ++ hex') := by
  induction h with
  | nil => exact h'
  | cons ha hb _ ih => exact .cons ha hb ih

/-- **Digits**, two for a byte. -/
theorem hex_hexN (k v : ℕ) : Hex (bytesOf k v) (hexN (2 * k) v) := by
  induction k generalizing v with
  | zero => exact .nil
  | succ k ih =>
    have hlow : Hex [v % 256] [digitX (v / 16 % 16), digitX (v % 16)] := by
      rw [show v % 256 = 16 * (v / 16 % 16) + v % 16 by omega]
      exact .cons (digitX_digit (by omega)) (digitX_digit (by omega)) .nil
    have hsplit : hexN (2 * (k + 1)) v =
        hexN (2 * k) (v / 256) ++ [digitX (v / 16 % 16), digitX (v % 16)] := by
      rw [Nat.mul_succ, hexN, hexN, Nat.div_div_eq_div_mul, List.append_assoc]
      rfl
    rw [bytesOf, hsplit]
    exact (ih _).append hlow

theorem moreDigits_lt (fuel : ℕ) (hn : 0 < n) (h : v < 16 ^ n) : moreDigits fuel v < n := by
  induction fuel generalizing n v with
  | zero => exact hn
  | succ fuel ih =>
    rw [moreDigits]
    split
    · exact hn
    · rename_i hmore
      obtain ⟨n, rfl⟩ : ∃ n', n = n' + 1 := ⟨n - 1, by omega⟩
      rw [Nat.pow_succ] at h
      have hn' : 0 < n := by
        rcases Nat.eq_zero_or_pos n with rfl | hpos
        · omega
        · exact hpos
      exact Nat.succ_lt_succ (ih hn' (Nat.div_lt_of_lt_mul (by omega)))

/-- **`printf`** of a number that fits. -/
theorem hex_printX (h : v < 256 ^ k) (hk : 0 < k) : Hex (bytesOf k v) (printX (2 * k) v) := by
  have hfits : v < 16 ^ (2 * k) := by
    rw [Nat.pow_mul]
    exact h
  rw [printX, Nat.max_eq_left (moreDigits_lt 15 (by omega) hfits)]
  exact hex_hexN k v

/-- A byte. -/
theorem hex_byte (h : v < 256) : Hex [v] (printX 2 v) := by
  have hbyte := hex_printX (k := 1) h (by decide)
  rwa [bytesOf, bytesOf, List.nil_append, Nat.mod_eq_of_lt h] at hbyte

theorem hex_bytes (h : ∀ b ∈ bs, b < 256) : Hex bs (bs.flatMap (printX 2)) := by
  induction bs with
  | nil => exact .nil
  | cons b bs ih =>
    rw [List.forall_mem_cons] at h
    rw [List.flatMap_cons]
    exact (hex_byte h.1).append (ih h.2)

/-- All digits of a number are digits. -/
theorem hexN_digits (n v : ℕ) : ∀ c ∈ hexN n v, ∃ d, HexDigit d c := by
  induction n generalizing v with
  | zero => exact fun c hc => absurd hc List.not_mem_nil
  | succ n ih =>
    rw [hexN]
    intro c hc
    rcases List.mem_append.mp hc with hc | hc
    · exact ih _ c hc
    · rw [List.mem_singleton.mp hc]
      exact ⟨v % 16, digitX_digit (Nat.mod_lt _ (by decide))⟩

theorem printX_plain (n v : ℕ) : Plain (printX n v) := by
  intro c hc
  obtain ⟨d, hd⟩ := hexN_digits _ _ c hc
  exact hd.plain

/-- What follows the digits does not matter. -/
theorem gethex_append {r : ℕ} (h : gethex hex n v = some r) (z : CStr) :
    gethex (hex ++ z) n v = some r := by
  induction n generalizing hex v with
  | zero =>
    rw [gethex] at h ⊢
    exact h
  | succ n ih =>
    cases hex with
    | nil => cases h
    | cons c hex =>
      rw [List.cons_append, gethex] at *
      split_ifs at h ⊢ <;> exact ih h

end Pmon.Loaders
