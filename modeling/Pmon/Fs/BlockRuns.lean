import Pmon.Fs.BlockMap
import Pmon.Lib.Pieces
import Mathlib.Tactic.Ring

/-!
# Runs of blocks

`ReadFromIndexBlock` reads adjacent blocks of the device in one access, and fills a block without a
number with zeros when it is by itself.  What it stores is what reading the blocks one after the
other does.

## Key results

- `deliver_run`: a run of adjacent blocks, block by block.
- `readBlocks_spec`: the loop over whole blocks.
- `readFromIndexBlock_spec`: the blocks of one array.
-/

namespace Pmon.Fs.Ext2

open Pmon.Lib

variable {v : Ext2Vol} {addr : ℕ → ℕ} {e i s k t p p' fin base : ℕ} {st : ReadState}
  {bytes x : List UInt8} {d : Option (List UInt8)} {r : Bool × ReadState}

/-! ## §1 Accesses -/

theorem Ext2Vol.blockSize_pos (v : Ext2Vol) : 0 < v.sb.blockSize := by
  have h := v.le_blockSize
  omega

theorem length_read {offs n : ℕ} (h : v.read offs n = some bytes) : bytes.length = n := by
  rw [Ext2Vol.read] at h
  split at h
  · cases h
    exact Mem.length_slice
  · cases h

/-- An access in two parts. -/
theorem read_add {offs m n : ℕ} : v.read offs (m + n) =
    (v.read offs m).bind fun x => (v.read (offs + m) n).map (x ++ ·) := by
  rw [Ext2Vol.read, Ext2Vol.read, Ext2Vol.read]
  by_cases h : offs + (m + n) ≤ v.devSize
  · rw [if_pos h, if_pos (by omega), if_pos (by omega), Mem.slice_append]
    rfl
  · rw [if_neg h]
    by_cases hm : offs + m ≤ v.devSize
    · rw [if_pos hm, if_neg (by omega)]
      rfl
    · rw [if_neg hm]
      rfl

theorem Super.place_succ (sb : Super) (blk : ℕ) :
    sb.place (blk + 1) = sb.place blk + sb.blockSize := by
  rw [Super.place, Super.place]
  ring

/-- The last block number is not one of the device. -/
theorem read_last {n : ℕ} (hn : v.sb.blockSize ≤ n) : v.read (v.sb.place 4294967295) n = none := by
  have hlt := v.devSize_lt
  have hnext : v.sb.place 4294967296 = v.sb.place 4294967295 + v.sb.blockSize :=
    v.sb.place_succ 4294967295
  rw [Ext2Vol.read, if_neg (by omega)]

/-! ## §2 Blocks one by one -/

/-- A whole block that is filled with zeros, when so much is left of the read: it has no number, and
    does not start a run of two that ends there, or of three. -/
def Ext2Vol.ZeroFilled (v : Ext2Vol) (addr : ℕ → ℕ) (e i size : ℕ) : Prop :=
  addr i = 0 ∧ (addr (i + 1) ≠ 1 ∨ v.sb.blockSize < size ∧ i + 1 ≤ e ∧ addr (i + 2) ≠ 2)

instance : Decidable (v.ZeroFilled addr e i k) := inferInstanceAs (Decidable (_ ∧ _))

/-- Part of a block of the file, from `p` up to `p'`, where the array begins at the block `base` and
    the read ends at `fin`. -/
def Ext2Vol.part (v : Ext2Vol) (addr : ℕ → ℕ) (e base fin p p' : ℕ) : Option (List UInt8) :=
  if p % v.sb.blockSize = 0 ∧ p' - p = v.sb.blockSize ∧
      v.ZeroFilled addr e (p / v.sb.blockSize - base) (fin - p) then
    some (List.replicate (p' - p) 0)
  else v.read (v.sb.place (addr (p / v.sb.blockSize - base)) + p % v.sb.blockSize) (p' - p)

theorem length_part (h : v.part addr e base fin p p' = some x) : x.length = p' - p := by
  rw [Ext2Vol.part] at h
  split at h
  · cases h
    exact List.length_replicate
  · exact length_read h

/-- Blocks of the volume. -/
def Ext2Vol.cuts (v : Ext2Vol) : Cuts := blockCuts v.sb.blockSize v.blockSize_pos

/-- The blocks of one array, up to the end of the array or of the read. -/
def Ext2Vol.arrayBytes (v : Ext2Vol) (addr : ℕ → ℕ) (e base fin pos : ℕ) : Option (List UInt8) :=
  deliver v.cuts (v.part addr e base fin) (min fin ((base + e + 1) * v.sb.blockSize)) pos

/-- A whole block. -/
theorem part_block (hp : p = (base + s) * v.sb.blockSize) :
    v.part addr e base fin p (p + v.sb.blockSize) =
      if v.ZeroFilled addr e s (fin - p) then some (List.replicate v.sb.blockSize 0)
      else v.read (v.sb.place (addr s)) v.sb.blockSize := by
  have hmod : p % v.sb.blockSize = 0 := by rw [hp, Nat.mul_mod_left]
  have hdiv : p / v.sb.blockSize - base = s := by
    rw [hp, Nat.mul_div_cancel _ v.blockSize_pos, Nat.add_sub_cancel_left]
  rw [Ext2Vol.part, hmod, hdiv, Nat.add_sub_cancel_left]
  by_cases hfill : v.ZeroFilled addr e s (fin - p)
  · rw [if_pos ⟨rfl, rfl, hfill⟩, if_pos hfill]
  · rw [if_neg fun h => hfill h.2.2, if_neg hfill, Nat.add_zero]

/-- The first bytes of a block. -/
theorem part_front (hp : p = (base + s) * v.sb.blockSize) (ht : t < v.sb.blockSize) :
    v.part addr e base fin p (p + t) = v.read (v.sb.place (addr s)) t := by
  have hmod : p % v.sb.blockSize = 0 := by rw [hp, Nat.mul_mod_left]
  have hdiv : p / v.sb.blockSize - base = s := by
    rw [hp, Nat.mul_div_cancel _ v.blockSize_pos, Nat.add_sub_cancel_left]
  rw [Ext2Vol.part, hmod, hdiv, Nat.add_sub_cancel_left, if_neg (by omega), Nat.add_zero]

theorem cuts_next_mul (hp : p = (base + s) * v.sb.blockSize) :
    v.cuts.next p = p + v.sb.blockSize := by
  rw [Ext2Vol.cuts, blockCuts_next, hp, Nat.mul_div_cancel _ v.blockSize_pos]
  ring

/-- **A run** of `k` blocks, and `t` bytes of the next one, is one access. -/
theorem deliver_run {stop : ℕ} (hp : p = (base + s) * v.sb.blockSize)
    (hsome : 0 < k * v.sb.blockSize + t) (ht : t < v.sb.blockSize)
    (hle : p + (k * v.sb.blockSize + t) ≤ stop)
    (hend : t = 0 ∨ p + (k * v.sb.blockSize + t) = stop)
    (hlt : ∀ j < k, addr (s + j) < 4294967296)
    (hrun : ∀ j < k, j + 1 < k ∨ 0 < t → addr (s + j + 1) = u32 (addr (s + j) + 1))
    (hfill : ∀ j < k, (∀ j' < j, addr (s + j') ≠ 4294967295) →
      ¬ v.ZeroFilled addr e (s + j) (fin - (p + j * v.sb.blockSize))) :
    deliver v.cuts (v.part addr e base fin) stop p =
      (v.read (v.sb.place (addr s)) (k * v.sb.blockSize + t)).bind fun x =>
        (deliver v.cuts (v.part addr e base fin) stop (p + (k * v.sb.blockSize + t))).map
          (x ++ ·) := by
  have hpos := v.blockSize_pos
  induction k generalizing s p with
  | zero =>
    rw [Nat.zero_mul, Nat.zero_add] at hsome hle hend ⊢
    have hstop : p + t = stop := by omega
    have hnext : min stop (v.cuts.next p) = p + t := by
      rw [cuts_next_mul hp]
      omega
    rw [deliver_of_lt (by omega) hnext, part_front hp ht]
  | succ k ih =>
    rw [Nat.succ_mul] at hsome hle hend ⊢
    have hnext : min stop (v.cuts.next p) = p + v.sb.blockSize := by
      rw [cuts_next_mul hp]
      omega
    have hfirst : ¬ v.ZeroFilled addr e s (fin - p) := by
      simpa using hfill 0 (by omega) (by omega)
    rw [deliver_of_lt (by omega) hnext, part_block hp, if_neg hfirst]
    by_cases hrest : k * v.sb.blockSize + t = 0
    · rw [show k * v.sb.blockSize + v.sb.blockSize + t = v.sb.blockSize by omega]
    · by_cases hlast : addr s = 4294967295
      · rw [hlast, read_last (by omega), read_last (by omega)]
        rfl
      · have h32 : addr s < 4294967296 := hlt 0 (by omega)
        have hsucc : addr (s + 1) = addr s + 1 := by
          have hone : 0 + 1 < k + 1 ∨ 0 < t := by
            rcases Nat.eq_zero_or_pos k with rfl | hk
            · right
              omega
            · left
              omega
          have hnext := hrun 0 (by omega) hone
          rw [Nat.add_zero] at hnext
          rw [hnext]
          exact u32_of_bounds rfl (by omega)
        have hih := ih (s := s + 1) (p := p + v.sb.blockSize) (by rw [hp]; ring) (by omega)
          (by omega) (by omega)
          (by
            intro j hj
            rw [show s + 1 + j = s + (j + 1) by omega]
            exact hlt (j + 1) (by omega))
          (by
            intro j hj hmore
            rw [show s + 1 + j = s + (j + 1) by omega]
            exact hrun (j + 1) (by omega) (by omega))
          (by
            intro j hj hne
            rw [show s + 1 + j = s + (j + 1) by omega,
              show p + v.sb.blockSize + j * v.sb.blockSize = p + (j + 1) * v.sb.blockSize by ring]
            apply hfill (j + 1) (by omega)
            intro j' hj'
            cases j' with
            | zero => exact hlast
            | succ j' =>
              have hbefore := hne j' (by omega)
              rwa [show s + 1 + j' = s + (j' + 1) by omega] at hbefore)
        rw [hih, hsucc, Super.place_succ,
          show k * v.sb.blockSize + v.sb.blockSize + t =
            v.sb.blockSize + (k * v.sb.blockSize + t) by omega,
          read_add (m := v.sb.blockSize), ← Nat.add_assoc p]
        cases v.read (v.sb.place (addr s)) v.sb.blockSize with
        | none => rfl
        | some x =>
          cases v.read (v.sb.place (addr s) + v.sb.blockSize) (k * v.sb.blockSize + t) with
          | none => rfl
          | some y =>
            cases deliver v.cuts (v.part addr e base fin) stop
                (p + v.sb.blockSize + (k * v.sb.blockSize + t)) <;> simp

/-- The blocks of a run are not filled with zeros, one by itself apart. -/
theorem not_zeroFilled_run (hlt : ∀ j < k, addr (s + j) < 4294967296)
    (hrun : ∀ j < k, addr (s + j + 1) = u32 (addr (s + j) + 1))
    (hone : addr s = 0 → k = 1 →
      ¬ (v.sb.blockSize < fin - p ∧ s + 1 ≤ e ∧ addr (s + 2) ≠ 2)) :
    ∀ j < k, (∀ j' < j, addr (s + j') ≠ 4294967295) →
      ¬ v.ZeroFilled addr e (s + j) (fin - (p + j * v.sb.blockSize)) := by
  rintro j hj hne ⟨hzero, hnext⟩
  cases j with
  | zero =>
    have hfirst : addr (s + 1) = 1 := by
      have hstep := hrun 0 hj
      rwa [hzero] at hstep
    rw [Nat.zero_mul, Nat.add_zero, Nat.add_zero, or_iff_right (not_not_intro hfirst)] at hnext
    by_cases hk : k = 1
    · exact hone hzero hk hnext
    · -- the next block is the second of a run of three
      have hsecond := hrun 1 (by omega)
      rw [hfirst] at hsecond
      exact hnext.2.2 hsecond
  | succ j =>
    have hstep := hrun j (by omega)
    have hbefore := hne j (by omega)
    have h32 := hlt j (by omega)
    have hsucc : u32 ((addr (s + j) : ℤ) + 1) = addr (s + j) + 1 := u32_of_bounds rfl (by omega)
    rw [hsucc] at hstep
    rw [← Nat.add_assoc, hstep] at hzero
    omega

/-! ## §3 The loop over whole blocks -/

/-- A call ends as its bytes do: it stores them and returns 0, or an access has failed on the
    way. -/
def Ends (r : Bool × ReadState) (st : ReadState) (bound : ℕ) : Option (List UInt8) → Prop
  | some x => r = (true, st.store x x.length)
  | none => r.1 = false ∧ 0 < r.2.size ∧ r.2.position + r.2.size = st.position + st.size ∧
      st.position ≤ r.2.position ∧ r.2.position < bound

variable {bound rem cnt : ℕ}

@[simp] theorem ReadState.store_nil (st : ReadState) : st.store [] 0 = st := by
  rcases st with ⟨out, size, position⟩
  cases out <;> simp [ReadState.store]

theorem ReadState.store_store (st : ReadState) (x y : List UInt8) (m n : ℕ) :
    (st.store x m).store y n = st.store (x ++ y) (m + n) := by
  rcases st with ⟨out, size, position⟩
  cases out <;> simp [ReadState.store, Nat.sub_sub, Nat.add_assoc]

theorem ends_store (hle : x.length ≤ st.size) (h : Ends r (st.store x x.length) bound d) :
    Ends r st bound (d.map (x ++ ·)) := by
  cases d with
  | some y =>
    rw [Ends, ReadState.store_store] at h
    rw [Option.map_some, Ends, List.length_append]
    exact h
  | none =>
    obtain ⟨hfailed, hsize, hsum, hpos, hlt⟩ := h
    rw [ReadState.store] at hsum hpos
    dsimp only at hsum hpos
    refine ⟨hfailed, hsize, ?_, ?_, hlt⟩ <;> omega

theorem ends_lose (hsize : 0 < st.size) (hbound : st.position < bound) :
    Ends (false, st.lose) st bound none :=
  ⟨rfl, hsize, rfl, Nat.le_refl _, hbound⟩

/-- A run of `cnt` blocks has been found, of which `rem` bytes are to be read. -/
structure RunAt (v : Ext2Vol) (addr : ℕ → ℕ) (e base fin s cnt rem : ℕ) (st : ReadState) :
    Prop where
  position : st.position = (base + s) * v.sb.blockSize
  ends : st.position + st.size = fin
  inside : s + cnt ≤ e + 1
  run : ∀ j < cnt, addr (s + j + 1) = u32 (addr (s + j) + 1)
  /-- They are whole blocks, or all that is left and the last block is not whole. -/
  whole : (rem = cnt * v.sb.blockSize ∧ rem ≤ st.size) ∨
    (rem = st.size ∧ cnt * v.sb.blockSize < rem ∧ rem < cnt * v.sb.blockSize + v.sb.blockSize ∧
      s + cnt ≤ e ∧ (cnt ≠ 0 → addr (s + cnt + 1) = u32 (addr (s + cnt) + 1)))

theorem arrayBytes_end (h : min fin ((base + e + 1) * v.sb.blockSize) ≤ p) :
    v.arrayBytes addr e base fin p = some [] := deliver_of_le h

/-- Where a run ends. -/
theorem RunAt.end_eq (h : RunAt v addr e base fin s cnt rem st) :
    st.position + cnt * v.sb.blockSize = (base + s + cnt) * v.sb.blockSize ∧
      (base + s + cnt) * v.sb.blockSize ≤ (base + e + 1) * v.sb.blockSize := by
  have hinside := h.inside
  refine ⟨by rw [h.position]; ring, Nat.mul_le_mul_right _ (by omega)⟩

/-- A run that is read whole, when it is not one block by itself. -/
theorem arrayBytes_run (h32 : ∀ i ≤ e, addr i < 4294967296)
    (h : RunAt v addr e base fin s cnt rem st) (hrem : rem ≠ 0)
    (hone : addr s = 0 → cnt = 1 →
      ¬ (v.sb.blockSize < fin - st.position ∧ s + 1 ≤ e ∧ addr (s + 2) ≠ 2)) :
    v.arrayBytes addr e base fin st.position =
      (v.read (v.sb.place (addr s)) rem).bind fun x =>
        (v.arrayBytes addr e base fin (st.position + rem)).map (x ++ ·) := by
  obtain ⟨hend, hbound⟩ := h.end_eq
  have hends := h.ends
  have hinside := h.inside
  have hfill := not_zeroFilled_run (v := v) (fun j hj => h32 (s + j) (by omega)) h.run hone
  rcases h.whole with ⟨hwhole, hle⟩ | ⟨hall, hlo, hhi, hin, hnext⟩
  · have hrun : v.arrayBytes addr e base fin st.position =
        (v.read (v.sb.place (addr s)) (cnt * v.sb.blockSize + 0)).bind fun x =>
          (v.arrayBytes addr e base fin (st.position + (cnt * v.sb.blockSize + 0))).map
            (x ++ ·) :=
      deliver_run h.position (by omega) v.blockSize_pos (by omega) (.inl rfl)
        (fun j hj => h32 (s + j) (by omega)) (fun j hj _ => h.run j hj) hfill
    rw [Nat.add_zero, ← hwhole] at hrun
    exact hrun
  · have hnextBound : (base + s + cnt) * v.sb.blockSize + v.sb.blockSize ≤
        (base + e + 1) * v.sb.blockSize := by
      rw [← Nat.succ_mul]
      exact Nat.mul_le_mul_right _ (by omega)
    have hrun : v.arrayBytes addr e base fin st.position =
        (v.read (v.sb.place (addr s))
          (cnt * v.sb.blockSize + (rem - cnt * v.sb.blockSize))).bind fun x =>
          (v.arrayBytes addr e base fin
            (st.position + (cnt * v.sb.blockSize + (rem - cnt * v.sb.blockSize)))).map (x ++ ·) :=
      deliver_run h.position (by omega) (by omega) (by omega) (.inr (by omega))
        (fun j hj => h32 (s + j) (by omega)) (fun j hj _ => h.run j hj) hfill
    rw [Nat.add_sub_cancel' (Nat.le_of_lt hlo)] at hrun
    exact hrun

/-- A whole block. -/
theorem arrayBytes_block (hp : p = (base + s) * v.sb.blockSize) (hs : s ≤ e)
    (hfin : p + v.sb.blockSize ≤ fin) :
    v.arrayBytes addr e base fin p =
      (if v.ZeroFilled addr e s (fin - p) then some (List.replicate v.sb.blockSize 0)
        else v.read (v.sb.place (addr s)) v.sb.blockSize).bind fun x =>
          (v.arrayBytes addr e base fin (p + v.sb.blockSize)).map (x ++ ·) := by
  have hpos := v.blockSize_pos
  have hbound : p + v.sb.blockSize ≤ (base + e + 1) * v.sb.blockSize := by
    rw [hp, ← Nat.succ_mul]
    exact Nat.mul_le_mul_right _ (by omega)
  have hnext : min (min fin ((base + e + 1) * v.sb.blockSize)) (v.cuts.next p) =
      p + v.sb.blockSize := by
    rw [cuts_next_mul hp]
    omega
  rw [Ext2Vol.arrayBytes, deliver_of_lt (by omega) hnext, part_block hp]
  rfl

/-- Nothing is left of the read. -/
theorem readBlocks_of_done {abs : ℕ} (h : st.size = 0) :
    v.readBlocks addr e s cnt rem abs st = (true, st) := by
  rw [Ext2Vol.readBlocks, if_neg (fun hloop => hloop.1 h), if_pos h]

/-- **The loop over whole blocks** stores what the blocks give one by one. -/
theorem readBlocks_spec (h32 : ∀ i ≤ e, addr i < 4294967296) {s cnt rem : ℕ} {st : ReadState}
    (h : RunAt v addr e base fin s cnt rem st) :
    Ends (v.readBlocks addr e s cnt rem (addr s * v.sb.blockSize) st) st
      ((base + e + 1) * v.sb.blockSize) (v.arrayBytes addr e base fin st.position) := by
  have hpos := v.blockSize_pos
  obtain ⟨hend, hbound⟩ := h.end_eq
  have hends := h.ends
  have hinside := h.inside
  have hplace : addr s * v.sb.blockSize + v.sb.startSec * 512 = v.sb.place (addr s) := rfl
  rw [Ext2Vol.readBlocks, hplace]
  by_cases hloop : st.size ≠ 0 ∧ rem < st.size ∧ cnt + s ≤ e
  · have hrem : rem = cnt * v.sb.blockSize := by
      rcases h.whole with ⟨hwhole, -⟩ | ⟨hall, -⟩
      · exact hwhole
      · omega
    have hlt : st.position < (base + e + 1) * v.sb.blockSize := by
      rw [h.position]
      exact Nat.mul_lt_mul_of_pos_right (by omega) hpos
    rw [if_pos hloop]
    by_cases hadj : addr (s + cnt + 1) = u32 (addr (s + cnt) + 1)
    · -- the run grows by a block, or by what is left
      rw [if_pos hadj]
      by_cases hmore : rem + v.sb.blockSize > st.size
      · rw [if_pos hmore]
        exact readBlocks_spec h32 ⟨h.position, h.ends, h.inside, h.run,
          .inr ⟨rfl, by omega, by omega, by omega, fun _ => hadj⟩⟩
      · rw [if_neg hmore]
        refine readBlocks_spec h32 ⟨h.position, h.ends, by omega, ?_, .inl ⟨?_, by omega⟩⟩
        · intro j hj
          rcases Nat.lt_succ_iff_lt_or_eq.mp hj with hlt | rfl
          · exact h.run j hlt
          · exact hadj
        · rw [hrem, Nat.succ_mul]
    · -- the run ends here, and the loop goes on behind it
      have hgoes (count : ℕ) (x : List UInt8) (hcount : count ≠ 0)
          (hx : x.length = count * v.sb.blockSize) (hle : count * v.sb.blockSize ≤ st.size)
          (hin : s + count ≤ e + 1) :
          Ends (if (st.store x (count * v.sb.blockSize)).position % v.sb.blockSize ≠ 0 ∧
              (st.store x (count * v.sb.blockSize)).size ≠ 0 then
            (false, st.store x (count * v.sb.blockSize))
          else v.readBlocks addr e (s + count) 0 0 (addr (s + count) * v.sb.blockSize)
            (st.store x (count * v.sb.blockSize))) st ((base + e + 1) * v.sb.blockSize)
          ((v.arrayBytes addr e base fin (st.position + count * v.sb.blockSize)).map
            (x ++ ·)) := by
        have hat : st.position + count * v.sb.blockSize =
            (base + (s + count)) * v.sb.blockSize := by
          rw [h.position]
          ring
        have hsome : 0 < count * v.sb.blockSize := Nat.mul_pos (by omega) hpos
        have haligned : (st.store x (count * v.sb.blockSize)).position % v.sb.blockSize = 0 := by
          rw [ReadState.store]
          dsimp only
          rw [hat, Nat.mul_mod_left]
        rw [if_neg fun hbad => hbad.1 haligned]
        apply ends_store (by omega)
        rw [hx]
        refine readBlocks_spec h32 ⟨hat, ?_, by omega, fun j hj => absurd hj (by omega),
          .inl ⟨by omega, Nat.zero_le _⟩⟩
        rw [ReadState.store]
        dsimp only
        omega
      rw [if_neg hadj]
      dsimp only
      rcases Nat.eq_zero_or_pos cnt with rfl | hcnt
      · obtain rfl : rem = 0 := by omega
        rw [if_pos rfl, if_pos rfl]
        by_cases hfront : st.size < v.sb.blockSize
        · -- the front of one block is all that is left
          have hrun : RunAt v addr e base fin s 0 st.size st :=
            ⟨h.position, h.ends, h.inside, h.run,
              .inr ⟨rfl, by omega, by omega, by omega, fun hne => absurd rfl hne⟩⟩
          rw [if_pos hfront, if_pos hfront, if_neg (by omega),
            arrayBytes_run h32 hrun (by omega) (by omega), arrayBytes_end (by omega)]
          cases hread : v.read (v.sb.place (addr s)) st.size with
          | none => exact ends_lose (by omega) hlt
          | some x =>
            have hx := length_read hread
            have hdone : (st.store x st.size).size = 0 := Nat.sub_self _
            dsimp only
            rw [if_neg fun hbad => hbad.2 hdone, readBlocks_of_done hdone, Option.bind_some,
              Option.map_some, List.append_nil, Ends, hx]
        · -- one block by itself
          have hfill : v.ZeroFilled addr e s (fin - st.position) ↔ addr s = 0 := by
            refine ⟨fun hfill => hfill.1, fun hzero => ⟨hzero, .inl fun hnext => hadj ?_⟩⟩
            have hlook : addr (s + 1) = u32 ((addr s : ℤ) + 1) := by
              rw [hzero, hnext]
              rfl
            exact hlook
          rw [if_neg hfront, if_neg hfront, arrayBytes_block h.position (by omega) (by omega)]
          by_cases hzero : addr s = 0
          · have hnext := hgoes 1 (List.replicate v.sb.blockSize 0) (by omega)
              (by rw [List.length_replicate]; omega) (by omega) (by omega)
            rw [Nat.one_mul] at hnext
            rw [if_pos ⟨hzero, rfl⟩, if_pos (hfill.mpr hzero)]
            exact hnext
          · rw [if_neg fun hboth => hzero hboth.1, if_neg fun hboth => hzero (hfill.mp hboth)]
            cases hread : v.read (v.sb.place (addr s)) v.sb.blockSize with
            | none => exact ends_lose (by omega) hlt
            | some x =>
              have hnext := hgoes 1 x (by omega) (by rw [length_read hread]; omega) (by omega)
                (by omega)
              rw [Nat.one_mul] at hnext
              exact hnext
      · have hne : rem ≠ 0 := by
          rw [hrem]
          exact Nat.mul_ne_zero (by omega) (by omega)
        rw [if_neg hne, if_neg hne]
        by_cases hone : addr s = 0 ∧ cnt = 1
        · -- a block without a number that looks like the first of a run of two
          obtain ⟨hzero, rfl⟩ := hone
          have hsecond : addr (s + 1) = 1 := by
            have hstep : addr (s + 1) = u32 ((addr s : ℤ) + 1) := h.run 0 (by omega)
            rwa [hzero] at hstep
          have hfill : v.ZeroFilled addr e s (fin - st.position) := by
            refine ⟨hzero, .inr ⟨by omega, by omega, fun hthird => hadj ?_⟩⟩
            rw [hsecond]
            exact hthird
          have hnext := hgoes 1 (List.replicate v.sb.blockSize 0) (by omega)
            (by rw [List.length_replicate]; omega) (by omega) (by omega)
          rw [if_pos ⟨hzero, rfl⟩, arrayBytes_block h.position (by omega) (by omega),
            if_pos hfill, hrem]
          rw [Nat.one_mul] at hnext ⊢
          exact hnext
        · rw [if_neg hone, arrayBytes_run h32 h hne fun hzero hk => absurd ⟨hzero, hk⟩ hone]
          cases hread : v.read (v.sb.place (addr s)) rem with
          | none => exact ends_lose (by omega) hlt
          | some x =>
            have hnext := hgoes cnt x (by omega) (by rw [length_read hread, hrem]) (by omega)
              (by omega)
            rw [← hrem] at hnext
            exact hnext
  · rw [if_neg hloop]
    by_cases hsize : st.size = 0
    · rw [if_pos hsize, arrayBytes_end (by omega), Ends, List.length_nil, ReadState.store_nil]
    · rw [if_neg hsize]
      by_cases hrem : rem = 0
      · -- the end of the array
        have hcnt : cnt = 0 := by
          rcases h.whole with ⟨hwhole, -⟩ | ⟨hall, -⟩
          · exact (Nat.mul_eq_zero.mp (hwhole.symm.trans hrem)).resolve_right (by omega)
          · omega
        obtain rfl : s = e + 1 := by omega
        have hat := h.position
        rw [← Nat.add_assoc] at hat
        rw [if_neg (not_not_intro hrem), arrayBytes_end (by omega), Ends, List.length_nil,
          ReadState.store_nil]
      · -- the last run
        have hle : rem ≤ st.size := by
          rcases h.whole with ⟨-, hle⟩ | ⟨hall, -⟩ <;> omega
        have hlt : st.position < (base + e + 1) * v.sb.blockSize := by
          have hsome : st.position + cnt * v.sb.blockSize < (base + e + 1) * v.sb.blockSize ∨
              0 < cnt * v.sb.blockSize := by
            rcases h.whole with ⟨hwhole, -⟩ | ⟨hall, hlo, hhi, hin, -⟩
            · right
              omega
            · left
              rw [hend]
              exact Nat.mul_lt_mul_of_pos_right (by omega) hpos
          omega
        have hone : addr s = 0 → cnt = 1 →
            ¬ (v.sb.blockSize < fin - st.position ∧ s + 1 ≤ e ∧ addr (s + 2) ≠ 2) := by
          rintro hzero rfl ⟨hmore, hin, hthird⟩
          rcases h.whole with ⟨hwhole, -⟩ | ⟨-, -, -, -, hnext⟩
          · omega
          · have hsecond : addr (s + 1) = 1 := by
              have hstep : addr (s + 1) = u32 ((addr s : ℤ) + 1) := h.run 0 (by omega)
              rwa [hzero] at hstep
            have hnext := hnext (by omega)
            rw [hsecond] at hnext
            exact hthird hnext
        have hlast : min fin ((base + e + 1) * v.sb.blockSize) ≤ st.position + rem := by
          rcases h.whole with ⟨hwhole, -⟩ | ⟨hall, -⟩
          · by_cases hall : rem < st.size
            · have hat : base + s + cnt = base + e + 1 := by omega
              rw [hat] at hend
              omega
            · omega
          · omega
        rw [if_pos hrem, if_neg (by omega), arrayBytes_run h32 h hrem hone, arrayBytes_end hlast]
        dsimp only
        cases hread : v.read (v.sb.place (addr s)) rem with
        | none => exact ends_lose (by omega) hlt
        | some x =>
          rw [Option.bind_some, Option.map_some, List.append_nil, Ends, length_read hread]
termination_by (st.size, st.size - rem)
decreasing_by
  · apply Prod.Lex.right
    omega
  · apply Prod.Lex.right
    omega
  · apply Prod.Lex.left
    rw [ReadState.store]
    dsimp only
    omega

/-! ## §4 One array -/

/-- The end of the block that a position is in. -/
theorem cuts_next_eq (v : Ext2Vol) (p : ℕ) :
    v.cuts.next p = p + (v.sb.blockSize - p % v.sb.blockSize) := by
  have hsplit := Nat.div_add_mod' p v.sb.blockSize
  have hmod := Nat.mod_lt p v.blockSize_pos
  rw [Ext2Vol.cuts, blockCuts_next, Nat.succ_mul]
  omega

/-- **The blocks of one array** are stored, as they are one by one. -/
theorem readFromIndexBlock_spec (h32 : ∀ i ≤ e, addr i < 4294967296)
    (hbase : base ≤ st.position / v.sb.blockSize) (hfin : st.position + st.size = fin) :
    Ends (v.readFromIndexBlock (st.position / v.sb.blockSize - base) e st addr) st
      ((base + e + 1) * v.sb.blockSize) (v.arrayBytes addr e base fin st.position) := by
  have hpos := v.blockSize_pos
  have hsplit := Nat.div_add_mod' st.position v.sb.blockSize
  have hmod := Nat.mod_lt st.position hpos
  generalize hs : st.position / v.sb.blockSize - base = s
  have hdiv : st.position / v.sb.blockSize = base + s := by omega
  have hplace : addr s * v.sb.blockSize + st.position % v.sb.blockSize + v.sb.startSec * 512 =
      v.sb.place (addr s) + st.position % v.sb.blockSize := by
    rw [Super.place]
    omega
  rw [hdiv] at hsplit
  rw [Ext2Vol.readFromIndexBlock]
  by_cases hend : s > e
  · -- the read is behind the array
    have hbehind : (base + e + 1) * v.sb.blockSize ≤ (base + s) * v.sb.blockSize :=
      Nat.mul_le_mul_right _ (by omega)
    rw [if_pos hend, arrayBytes_end (by omega), Ends, List.length_nil, ReadState.store_nil]
  · have hin : (base + s) * v.sb.blockSize + v.sb.blockSize ≤ (base + e + 1) * v.sb.blockSize := by
      rw [← Nat.succ_mul]
      exact Nat.mul_le_mul_right _ (by omega)
    rw [if_neg hend]
    dsimp only
    by_cases hinside : v.sb.blockSize - st.position % v.sb.blockSize > st.size
    · rw [if_pos hinside]
      by_cases hsize : st.size = 0
      · rw [readBlocks_of_done hsize, arrayBytes_end (by omega), Ends, List.length_nil,
          ReadState.store_nil]
      · -- the read does not leave the block
        have hstop : min (min fin ((base + e + 1) * v.sb.blockSize)) (v.cuts.next st.position) =
            fin := by
          rw [cuts_next_eq]
          omega
        have hpart : v.part addr e base fin st.position fin =
            v.read (v.sb.place (addr s) + st.position % v.sb.blockSize) st.size := by
          rw [Ext2Vol.part, if_neg (by omega), hs, ← hfin, Nat.add_sub_cancel_left]
        rw [Ext2Vol.readBlocks, if_neg (by omega), if_neg hsize, if_pos hsize, if_neg (by omega),
          Ext2Vol.arrayBytes, deliver_of_lt (by omega) hstop, hpart, deliver_of_le (by omega),
          hplace]
        dsimp only
        cases hread : v.read (v.sb.place (addr s) + st.position % v.sb.blockSize) st.size with
        | none => exact ends_lose (by omega) (by omega)
        | some x =>
          rw [Option.bind_some, Option.map_some, List.append_nil, Ends, length_read hread]
    · rw [if_neg hinside]
      by_cases haligned : v.sb.blockSize - st.position % v.sb.blockSize = v.sb.blockSize
      · have hzero : st.position % v.sb.blockSize = 0 := by omega
        rw [if_pos haligned, hzero, Nat.add_zero]
        exact readBlocks_spec h32 ⟨by omega, hfin, by omega, fun j hj => absurd hj (by omega),
          .inl ⟨by omega, Nat.zero_le _⟩⟩
      · -- the rest of the first block comes by itself
        have hstop : min (min fin ((base + e + 1) * v.sb.blockSize)) (v.cuts.next st.position) =
            st.position + (v.sb.blockSize - st.position % v.sb.blockSize) := by
          rw [cuts_next_eq]
          omega
        have hpart : v.part addr e base fin st.position
            (st.position + (v.sb.blockSize - st.position % v.sb.blockSize)) =
            v.read (v.sb.place (addr s) + st.position % v.sb.blockSize)
              (v.sb.blockSize - st.position % v.sb.blockSize) := by
          rw [Ext2Vol.part, if_neg (by omega), hs, Nat.add_sub_cancel_left]
        rw [if_neg haligned, hplace, Ext2Vol.arrayBytes, deliver_of_lt (by omega) hstop, hpart]
        cases hread : v.read (v.sb.place (addr s) + st.position % v.sb.blockSize)
            (v.sb.blockSize - st.position % v.sb.blockSize) with
        | none => exact ends_lose (by omega) (by omega)
        | some x =>
          have hx := length_read hread
          have hat : st.position + (v.sb.blockSize - st.position % v.sb.blockSize) =
              (base + (s + 1)) * v.sb.blockSize := by
            rw [← Nat.add_assoc, Nat.succ_mul]
            omega
          have hstore : (st.store x (v.sb.blockSize - st.position % v.sb.blockSize)).position =
              (base + (s + 1)) * v.sb.blockSize := hat
          have hrest : RunAt v addr e base fin (s + 1) 0 0
              (st.store x (v.sb.blockSize - st.position % v.sb.blockSize)) := by
            refine ⟨hstore, ?_, by omega, fun j hj => absurd hj (by omega),
              .inl ⟨by omega, Nat.zero_le _⟩⟩
            rw [ReadState.store]
            dsimp only
            omega
          have hspec := readBlocks_spec h32 hrest
          dsimp only
          rw [hstore, Nat.mul_mod_left, Nat.add_zero, hat]
          rw [hstore] at hspec
          apply ends_store (by omega)
          rw [hx]
          exact hspec

end Pmon.Fs.Ext2
