import Pmon.Fs.NandPages

/-!
# Writing to a NAND flash and reading back

When a write and a read of as many bytes at the same address deliver what was written, for the plain
pair and for the one with ECC.  A write that takes more blocks than there are good ones erases what
it has written; where its marks are in front of the address, the read begins elsewhere; and the
plain pair writes across the end of a block, and reads spare areas into memory that is too short.

## Key results

- `laid_of_write`, `read_of_laid`: what a write leaves, and that a read gets it.
- `comes_of_trip`: a call that delivers its data comes back to where it wrote.
- `nandTrips_exact`: when the data is delivered, for both pairs.
-/

namespace Pmon.Fs.NandPages

open Pmon.Lib

/-! ## §1 What is asked for -/

/-- Whatever the pages, the data and the memory hold, a write and then a read return, the data is in
    memory, and nothing else has been stored to. -/
def RoundTrip (write : (ℕ → Bool) → NandChip → List UInt8 → ℕ → Buffer → Option NandChip)
    (read : NandChip → (dist addr count : ℕ) → Buffer → Option Buffer) (bad : ℕ → Bool)
    (spare : ℕ → ℕ → UInt8) (addr count dist : ℕ) : Prop :=
  ∀ data src buf mem, src.length = count → ∃ chip after,
    write bad ⟨data, spare⟩ src addr buf = some chip ∧
      read chip dist addr count ⟨mem, []⟩ = some after ∧
        (∀ i < count, after.mem (dist + i) = src.getD i 0) ∧
          ∀ store ∈ after.stores, dist ≤ store.1 ∧ store.1 + store.2 ≤ dist + count

/-- There are good blocks enough for a call, and with the marks that it leaves a read begins with
    the good block where the write began. -/
structure Comes (bad marked : ℕ → Bool) (block span : ℕ) : Prop where
  few : chunkCount span ≤ goodRank bad nandBlocks
  begins : let start := getAddrJumpBadblocks marked block
    let marks := walkMarks bad marked start span
    firstFree marks (getAddrJumpBadblocks marks block) = firstFree bad start

/-- When the plain pair delivers its data. -/
def PlainFits (bad marked : ℕ → Bool) (addr count : ℕ) : Prop :=
  PlainKept (addr % nandBlockSize) count ∧ Comes bad marked (addr / nandBlockSize) count

/-- When the pair with ECC does. -/
def EccFits (bad marked : ℕ → Bool) (addr count : ℕ) : Prop :=
  Comes bad marked (addr / nandBlockSize)
    (addr % nandBlockSize + (count + 1879) / 1880 * 2048)

variable {v : Variant} {c : Course} {K : ℕ → ℕ → Prop} {bad : ℕ → Bool} {chip chip' r r' : NandChip}
  {src src' : List UInt8} {buf after : Buffer}
  {a b o x y n addr count dist left fuel : ℕ}

/-! ## §2 Turns -/

theorem place_mod_div (x : ℕ) (ho : o < nandBlockSize) :
    (x % nandBlocks * nandBlockSize + o) / nandBlockSize = x % nandBlocks := place_div ho

theorem block_lt (x : ℕ) : x % nandBlocks < nandBlocks := Nat.mod_lt _ (by decide)

theorem addBlock_eq (ho : o < nandBlockSize) :
    addBlock (x % nandBlocks * nandBlockSize + o) = (x + 1) % nandBlocks * nandBlockSize + o := by
  unfold addBlock nandAddrs nandBlocks nandBlockSize at *
  omega

/-- The address that a call begins with. -/
theorem jump_place (n addr : ℕ) : (addr + n * nandBlockSize) % nandAddrs =
    (addr / nandBlockSize + n) % nandBlocks * nandBlockSize + addr % nandBlockSize := by
  unfold nandAddrs nandBlocks nandBlockSize
  omega

theorem marked_mark (chip : NandChip) (b : ℕ) :
    (chip.nandwriteSpare b setBadblockArea).marked = Function.update chip.marked b true := by
  funext b'
  by_cases hb : b' = b
  · subst hb
    simp [NandChip.marked, NandChip.nandwriteSpare, setBadblockArea]
  · simp [NandChip.marked, NandChip.nandwriteSpare, hb]

theorem marked_erase (chip : NandChip) (b : ℕ) :
    (chip.erase b).marked = Function.update chip.marked b false := by
  funext b'
  by_cases hb : b' = b
  · subst hb
    simp [NandChip.marked, NandChip.erase]
  · simp [NandChip.marked, NandChip.erase, hb]

theorem marked_congr (h : chip.spare = chip'.spare) : chip.marked = chip'.marked := by
  funext b
  rw [NandChip.marked, NandChip.marked, h]

/-- What a turn of a write finds. -/
theorem writeLoop_succ (hf : v.Follows c) (ho : c.offset o) (x : ℕ) :
    writeLoop v bad (fuel + 1) (x % nandBlocks * nandBlockSize + o) src chip =
      if bad (x % nandBlocks) then
        writeLoop v bad fuel ((x + 1) % nandBlocks * nandBlockSize + o) src
          (chip.nandwriteSpare (x % nandBlocks) setBadblockArea)
      else
        let chip := v.write (chip.erase (x % nandBlocks)) src
          (x % nandBlocks * nandBlockSize + o) (min (c.room o) src.length)
        if src.length ≤ c.room o then some chip
        else writeLoop v bad fuel ((x + 1) % nandBlocks * nandBlockSize + c.next o)
          (src.drop (c.room o)) chip := by
  rw [writeLoop]
  dsimp only
  rw [place_mod_div x (hf.offset_lt ho), addBlock_eq (hf.offset_lt ho), hf.room_eq ho]
  apply if_congr Iff.rfl rfl
  by_cases hle : src.length ≤ c.room o
  · rw [if_pos (by omega), if_pos hle]
  · rw [if_neg (by omega), if_neg hle, Nat.min_eq_left (by omega),
      hf.advance_eq ho _ (block_lt x), Nat.mod_add_mod]

theorem store_mem_lt (h : a < addr) (bytes : List UInt8) :
    (buf.store addr bytes).mem a = buf.mem a := if_neg (by omega)

theorem store_mem_first {byte : UInt8} {bytes : List UInt8} (h : bytes.head? = some byte) :
    (buf.store addr bytes).mem addr = byte := by
  cases bytes with
  | nil => cases h
  | cons byte' bytes =>
    cases h
    refine (if_pos ⟨Nat.le_refl _, ?_⟩).trans ?_
    · rw [Nat.sub_self]
      rfl
    · rw [List.length_cons]
      omega

theorem spare_mem (chip : NandChip) (dist b : ℕ) (buf : Buffer) :
    (nandreadSpare chip dist b buf).mem dist = chip.spare b 0 := store_mem_first rfl

/-- What a turn of a read finds. -/
theorem readLoop_succ (hf : v.Follows c) (ho : c.offset o) (x : ℕ) :
    readLoop v chip (fuel + 1) (x % nandBlocks * nandBlockSize + o) dist left buf =
      let spared := nandreadSpare chip (v.spareAt dist) (x % nandBlocks) buf
      if chip.marked (x % nandBlocks) then
        readLoop v chip fuel ((x + 1) % nandBlocks * nandBlockSize + o) dist left spared
      else
        let stored := spared.store dist
          (v.read chip (x % nandBlocks * nandBlockSize + o) (min (c.room o) left))
        if left ≤ c.room o then some stored
        else readLoop v chip fuel ((x + 1) % nandBlocks * nandBlockSize + c.next o)
          (dist + c.room o) (left - c.room o) stored := by
  rw [readLoop]
  dsimp only
  rw [place_mod_div x (hf.offset_lt ho), addBlock_eq (hf.offset_lt ho), hf.room_eq ho, spare_mem]
  apply if_congr
  · rw [NandChip.marked, bne_iff_ne]
  · rfl
  · by_cases hle : left ≤ c.room o
    · rw [if_pos (by omega), if_pos hle]
    · rw [if_neg (by omega), if_neg hle, Nat.min_eq_left (by omega),
        hf.advance_eq ho _ (block_lt x), Nat.mod_add_mod]

/-! ## §3 What a write leaves -/

/-- A bad block, or a good one that is not the last. -/
theorem Variant.Follows.walk_more (hf : v.Follows c) (ho : c.offset o)
    (hgood : bad (x % nandBlocks) = false) (hmore : c.room o < count) :
    InWalk bad x (c.span o count) y ↔
      y = x ∨ InWalk bad (x + 1) (c.span (c.next o) (count - c.room o)) y := by
  rw [hf.span_rest ho hmore]
  exact inWalk_of_good hgood (hf.span_gt ho hmore)

theorem Variant.Follows.walk_last (hf : v.Follows c) (ho : c.offset o)
    (hgood : bad (x % nandBlocks) = false) (hlast : count ≤ c.room o) :
    InWalk bad x (c.span o count) y ↔ y = x :=
  inWalk_of_last hgood (hf.span_le ho hlast)

theorem Variant.Follows.blocks_more (hf : v.Follows c) (ho : c.offset o)
    (hmore : c.room o < count) :
    chunkCount (c.span o count) = chunkCount (c.span (c.next o) (count - c.room o)) + 1 := by
  rw [hf.span_rest ho hmore]
  exact chunkCount_of_gt (hf.span_gt ho hmore)

theorem Variant.Follows.blocks_last (hf : v.Follows c) (ho : c.offset o)
    (hlast : count ≤ c.room o) : chunkCount (c.span o count) = 1 :=
  chunkCount_of_le (hf.span_le ho hlast)

/-- The marks of a walk, behind its first block. -/
theorem walkMarks_step {marked : ℕ → Bool} {span span' : ℕ}
    (h : ∀ y, InWalk bad x span y ↔ y = x ∨ InWalk bad (x + 1) span' y) :
    walkMarks bad marked x span =
      walkMarks bad (Function.update marked (x % nandBlocks) (bad (x % nandBlocks))) (x + 1)
        span' := by
  funext b
  have hover : walksOver bad x span b = true ↔
      x % nandBlocks = b ∨ walksOver bad (x + 1) span' b = true := by
    rw [walksOver_iff, walksOver_iff]
    simp only [h, or_and_right, exists_or, exists_eq_left]
  rw [walkMarks, walkMarks]
  by_cases hb : walksOver bad (x + 1) span' b = true
  · rw [if_pos hb, if_pos (hover.mpr (Or.inr hb))]
  · rw [if_neg hb]
    by_cases hx : x % nandBlocks = b
    · rw [if_pos (hover.mpr (Or.inl hx)), ← hx, Function.update_self]
    · rw [if_neg (by rw [hover]; exact not_or_intro hx hb), Function.update_of_ne (Ne.symm hx)]

theorem walkMarks_last {marked : ℕ → Bool} {span : ℕ} (h : ∀ y, InWalk bad x span y ↔ y = x) :
    walkMarks bad marked x span =
      Function.update marked (x % nandBlocks) (bad (x % nandBlocks)) := by
  funext b
  have hover : walksOver bad x span b = true ↔ x % nandBlocks = b := by
    rw [walksOver_iff]
    simp only [h, exists_eq_left]
  rw [walkMarks]
  by_cases hx : x % nandBlocks = b
  · rw [if_pos (hover.mpr hx), ← hx, Function.update_self]
  · rw [if_neg (by rwa [hover]), Function.update_of_ne (Ne.symm hx)]

/-- The marks that a write leaves do not depend on the data. -/
theorem writeLoop_marked (hf : v.Follows c) (ho : c.offset o)
    (h : writeLoop v bad fuel (x % nandBlocks * nandBlockSize + o) src chip = some r) :
    r.marked = walkMarks bad chip.marked x (c.span o src.length) := by
  induction fuel generalizing x o src chip with
  | zero => cases h
  | succ fuel ih =>
    rw [writeLoop_succ hf ho] at h
    split at h
    · rename_i hbad
      rw [ih ho h, marked_mark, walkMarks_step fun y => inWalk_of_bad hbad, hbad]
    · rename_i hgood
      rw [Bool.not_eq_true] at hgood
      dsimp only at h
      have hmarked : (v.write (chip.erase (x % nandBlocks)) src
          (x % nandBlocks * nandBlockSize + o) (min (c.room o) src.length)).marked =
          Function.update chip.marked (x % nandBlocks) false := by
        rw [marked_congr (hf.write_spare _ _ _ _), marked_erase]
      split at h
      · rename_i hlast
        cases h
        rw [hmarked, walkMarks_last fun y => hf.walk_last ho hgood hlast, hgood]
      · rename_i hmore
        rw [ih (hf.offset_next ho) h, hmarked, List.length_drop,
          walkMarks_step fun y => hf.walk_more ho hgood (by omega), hgood]

/-- A write returns when there are as many good blocks on the way as it needs. -/
theorem writeLoop_returns (hf : v.Follows c) (ho : c.offset o)
    (h : goodRank bad x + chunkCount (c.span o src.length) ≤ goodRank bad (x + fuel)) :
    ∃ r, writeLoop v bad fuel (x % nandBlocks * nandBlockSize + o) src chip = some r := by
  induction fuel generalizing x o src chip with
  | zero =>
    have hpos := chunkCount_pos (c.span o src.length)
    rw [Nat.add_zero] at h
    omega
  | succ fuel ih =>
    rw [show x + (fuel + 1) = x + 1 + fuel by omega] at h
    rw [writeLoop_succ hf ho]
    split
    · rename_i hbad
      apply ih ho
      rwa [goodRank_succ_of_bad hbad]
    · rename_i hgood
      rw [Bool.not_eq_true] at hgood
      dsimp only
      split
      · exact ⟨_, rfl⟩
      · rename_i hmore
        apply ih (hf.offset_next ho)
        rw [hf.blocks_more ho (by omega)] at h
        rw [List.length_drop, goodRank_succ_of_good hgood]
        omega

/-- Blocks that a write does not come to keep their data. -/
theorem writeLoop_other (hf : v.Follows c) (hk : v.Keeps c K) (hK : K o src.length)
    (h : writeLoop v bad fuel (x % nandBlocks * nandBlockSize + o) src chip = some r)
    (hother : ∀ y, InWalk bad x (c.span o src.length) y → bad (y % nandBlocks) = false →
      a / nandBlockSize ≠ y % nandBlocks) : r.data a = chip.data a := by
  have ho := hk.offset hK
  induction fuel generalizing x o src chip with
  | zero => cases h
  | succ fuel ih =>
    rw [writeLoop_succ hf ho] at h
    split at h
    · rename_i hbad
      have hkept := ih hK h (fun y hy => hother y ((inWalk_of_bad hbad).mpr (Or.inr hy))) ho
      exact hkept
    · rename_i hgood
      rw [Bool.not_eq_true] at hgood
      dsimp only at h
      have hhere : InWalk bad x (c.span o src.length) x :=
        ⟨Nat.le_refl x, Nat.lt_add_of_pos_right (chunkCount_pos _)⟩
      have hne := hother x hhere hgood
      have hwrite := hk.outside hK (block_lt x) hne (chip.erase (x % nandBlocks))
      rw [show (chip.erase (x % nandBlocks)).data a = chip.data a from if_neg hne] at hwrite
      split at h
      · cases h
        exact hwrite
      · rename_i hmore
        have hrest := hk.rest hK (show c.room o < src.length by omega)
        rw [← List.length_drop] at hrest
        rw [ih hrest h ?_ (hf.offset_next ho), hwrite]
        intro y hy hgoody
        rw [List.length_drop] at hy
        exact hother y ((hf.walk_more ho hgood (by omega)).mpr (Or.inr hy)) hgoody

/-- Along the way of a write, the bad blocks are marked, and the others have the data. -/
inductive Laid (v : Variant) (c : Course) (bad : ℕ → Bool) (chip : NandChip) :
    (x o : ℕ) → List UInt8 → Prop where
  | bad {x o : ℕ} {src : List UInt8} (hbad : bad (x % nandBlocks) = true)
      (hmarked : chip.marked (x % nandBlocks) = true) (rest : Laid v c bad chip (x + 1) o src) :
      Laid v c bad chip x o src
  | last {x o : ℕ} {src : List UInt8} (hgood : bad (x % nandBlocks) = false)
      (hmarked : chip.marked (x % nandBlocks) = false) (hle : src.length ≤ c.room o)
      (hread : v.read chip (x % nandBlocks * nandBlockSize + o) src.length = src) :
      Laid v c bad chip x o src
  | more {x o : ℕ} {src : List UInt8} (hgood : bad (x % nandBlocks) = false)
      (hmarked : chip.marked (x % nandBlocks) = false) (hgt : c.room o < src.length)
      (hread : v.read chip (x % nandBlocks * nandBlockSize + o) (c.room o) = src.take (c.room o))
      (rest : Laid v c bad chip (x + 1) (c.next o) (src.drop (c.room o))) :
      Laid v c bad chip x o src

/-- **What a write leaves**, when there are good blocks enough. -/
theorem laid_of_write (hf : v.Follows c) (hk : v.Keeps c K) (hK : K o src.length)
    (hfew : chunkCount (c.span o src.length) ≤ goodRank bad nandBlocks)
    (h : writeLoop v bad fuel (x % nandBlocks * nandBlockSize + o) src chip = some r) :
    Laid v c bad r x o src := by
  have ho := hk.offset hK
  induction fuel generalizing x o src chip with
  | zero => cases h
  | succ fuel ih =>
    have hmarked : r.marked (x % nandBlocks) = bad (x % nandBlocks) := by
      rw [writeLoop_marked hf ho h, walkMarks, if_pos]
      exact walksOver_iff.mpr ⟨x, ⟨Nat.le_refl x, Nat.lt_add_of_pos_right (chunkCount_pos _)⟩, rfl⟩
    rw [writeLoop_succ hf ho] at h
    split at h
    · rename_i hbad
      exact .bad hbad (hmarked.trans hbad) (ih hK hfew h ho)
    · rename_i hgood
      rw [Bool.not_eq_true] at hgood
      dsimp only at h
      split at h
      · rename_i hlast
        cases h
        have hback := hk.back hK (block_lt x) chip _ fun _ _ => rfl
        rw [Nat.min_eq_right hlast, List.take_length] at hback
        rw [Nat.min_eq_right hlast] at hmarked ⊢
        exact .last hgood (hmarked.trans hgood) hlast hback
      · rename_i hmore
        have hgt : c.room o < src.length := by omega
        have hrest := hk.rest hK hgt
        rw [← List.length_drop] at hrest
        have hback := hk.back hK (block_lt x) chip r ?_
        · rw [Nat.min_eq_left (Nat.le_of_lt hgt)] at hback
          refine .more hgood (hmarked.trans hgood) hgt hback (ih hrest ?_ h (hf.offset_next ho))
          rw [hf.blocks_more ho hgt] at hfew
          rw [List.length_drop]
          omega
        · -- the rest of the data does not come back to this block
          intro a ha
          apply writeLoop_other hf hk hrest h
          intro y hy hgoody heq
          rw [List.length_drop] at hy
          exact ne_of_few hgood hfew hy.1 ((hf.walk_more ho hgood hgt).mpr (Or.inr hy))
            (heq.symm.trans ha)

/-! ## §4 What a read gets -/

/-- What a read stores in front of its data, or behind. -/
theorem readLoop_front (hf : v.Follows c) (ho : c.offset o)
    (h : readLoop v chip fuel (x % nandBlocks * nandBlockSize + o) dist left buf = some after)
    (ha : a < dist) : after.mem a = buf.mem a := by
  induction fuel generalizing x o dist left buf with
  | zero => cases h
  | succ fuel ih =>
    have hspare := hf.spareAt_ge dist
    have hspared : (nandreadSpare chip (v.spareAt dist) (x % nandBlocks) buf).mem a = buf.mem a :=
      store_mem_lt (by omega) _
    rw [readLoop_succ hf ho] at h
    dsimp only at h
    split at h
    · rw [ih ho h ha, hspared]
    · split at h
      · cases h
        rw [store_mem_lt ha, hspared]
      · rw [ih (hf.offset_next ho) h (by omega), store_mem_lt ha, hspared]

/-- Marked blocks are walked over. -/
theorem readLoop_skip (fuel dist left : ℕ) {d : ℕ} (hf : v.Follows c) (ho : c.offset o)
    (hskip : ∀ j < d, chip.marked ((x + j) % nandBlocks) = true) (buf : Buffer) :
    ∃ buf', readLoop v chip (d + fuel) (x % nandBlocks * nandBlockSize + o) dist left buf =
      readLoop v chip fuel ((x + d) % nandBlocks * nandBlockSize + o) dist left buf' ∧
        (∀ a < dist, buf'.mem a = buf.mem a) ∧
          ∀ store ∈ buf'.stores, store ∈ buf.stores ∨ store = (v.spareAt dist, 16) := by
  induction d generalizing x buf with
  | zero =>
    rw [Nat.zero_add]
    exact ⟨buf, rfl, fun _ _ => rfl, fun _ h => Or.inl h⟩
  | succ d ih =>
    have hfirst := hskip 0 (Nat.succ_pos d)
    rw [Nat.add_zero] at hfirst
    have hspare := hf.spareAt_ge dist
    obtain ⟨buf', hloop, hmem, hstores⟩ := ih (x := x + 1) (by
      intro j hj
      have hj' := hskip (j + 1) (by omega)
      rwa [show x + (j + 1) = x + 1 + j by omega] at hj')
      (nandreadSpare chip (v.spareAt dist) (x % nandBlocks) buf)
    refine ⟨buf', ?_, ?_, ?_⟩
    · rw [show d + 1 + fuel = d + fuel + 1 by omega, readLoop_succ hf ho, if_pos hfirst, hloop,
        show x + 1 + d = x + (d + 1) by omega]
    · intro a ha
      rw [hmem a ha]
      exact store_mem_lt (by omega) _
    · intro store hstore
      rcases hstores store hstore with hold | hnew
      · rcases List.mem_cons.mp hold with hspared | hold
        · exact Or.inr hspared
        · exact Or.inl hold
      · exact Or.inr hnew

/-- What a read has done: the data is there, nothing in front of it has changed, and all that is
    stored is in its memory. -/
structure Got (src : List UInt8) (dist : ℕ) (buf after : Buffer) : Prop where
  data : ∀ i < src.length, after.mem (dist + i) = src.getD i 0
  front : ∀ a < dist, after.mem a = buf.mem a
  stores : ∀ store ∈ after.stores, store ∈ buf.stores ∨
    dist ≤ store.1 ∧ store.1 + store.2 ≤ dist + src.length

/-- Spare areas that are read first do not matter. -/
theorem Got.skip {buf' : Buffer} (h : Got src dist buf' after)
    (hmem : ∀ a < dist, buf'.mem a = buf.mem a)
    (hstores : ∀ store ∈ buf'.stores, store ∈ buf.stores ∨
      dist ≤ store.1 ∧ store.1 + store.2 ≤ dist + src.length) : Got src dist buf after where
  data := h.data
  front a ha := (h.front a ha).trans (hmem a ha)
  stores store hstore := (h.stores store hstore).elim (hstores store) Or.inr

theorem store_mem_at {i : ℕ} {bytes : List UInt8} (hi : i < bytes.length) :
    (buf.store addr bytes).mem (addr + i) = bytes.getD i 0 := by
  refine (if_pos ⟨Nat.le_add_right _ _, by omega⟩).trans ?_
  rw [Nat.add_sub_cancel_left]

/-- The data of one block, and then the rest. -/
theorem Got.append {front rest : List UInt8} (h : Got rest (dist + front.length)
    (buf.store dist front) after) : Got (front ++ rest) dist buf after where
  data i hi := by
    rw [List.length_append] at hi
    by_cases hlt : i < front.length
    · rw [h.front _ (by omega), store_mem_at hlt, List.getD_append _ _ _ _ hlt]
    · have hdata := h.data (i - front.length) (by omega)
      rw [show dist + front.length + (i - front.length) = dist + i by omega] at hdata
      rw [hdata, List.getD_append_right _ _ _ _ (by omega)]
  front a ha := (h.front a (by omega)).trans (store_mem_lt ha _)
  stores store hstore := by
    rw [List.length_append]
    rcases h.stores store hstore with hold | ⟨hge, hle⟩
    · rcases List.mem_cons.mp hold with rfl | hold
      · exact Or.inr ⟨Nat.le_refl _, by dsimp only; omega⟩
      · exact Or.inl hold
    · exact Or.inr ⟨by omega, by omega⟩

theorem got_last (src : List UInt8) (dist : ℕ) (buf : Buffer) :
    Got src dist buf (buf.store dist src) where
  data _ hi := store_mem_at hi
  front _ ha := store_mem_lt ha _
  stores store hstore := by
    rcases List.mem_cons.mp hstore with rfl | hold
    · exact Or.inr ⟨Nat.le_refl _, Nat.le_refl _⟩
    · exact Or.inl hold

/-- A spare area is read to memory that the data goes over. -/
theorem Got.spared (chip : NandChip) (b : ℕ) (hf : v.Follows c) (hk : v.Keeps c K)
    (hK : K o src.length) (h : Got src dist (nandreadSpare chip (v.spareAt dist) b buf) after) :
    Got src dist buf after := by
  have hge := hf.spareAt_ge dist
  apply h.skip
  · intro a ha
    exact store_mem_lt (by omega) _
  · intro store hstore
    rcases List.mem_cons.mp hstore with rfl | hold
    · exact Or.inr ⟨hge, hk.spareAt_le hK dist⟩
    · exact Or.inl hold

/-- A way with blocks on it has turns. -/
theorem fuel_pos (h : goodRank bad x + chunkCount n ≤ goodRank bad (x + fuel)) :
    ∃ f, fuel = f + 1 := by
  have hpos := chunkCount_pos n
  cases fuel with
  | zero =>
    rw [Nat.add_zero] at h
    omega
  | succ f => exact ⟨f, rfl⟩

/-- **What a read gets** along the way of a write. -/
theorem read_of_laid (hf : v.Follows c) (hk : v.Keeps c K) (hlaid : Laid v c bad chip x o src)
    (hK : K o src.length) (buf : Buffer) (dist : ℕ)
    (hfuel : goodRank bad x + chunkCount (c.span o src.length) ≤ goodRank bad (x + fuel)) :
    ∃ after, readLoop v chip fuel (x % nandBlocks * nandBlockSize + o) dist src.length buf =
      some after ∧ Got src dist buf after := by
  induction hlaid generalizing fuel dist buf with
  | @bad x o src hbad hmarked _ ih =>
    obtain ⟨fuel, rfl⟩ := fuel_pos hfuel
    rw [show x + (fuel + 1) = x + 1 + fuel by omega] at hfuel
    rw [readLoop_succ hf (hk.offset hK), if_pos hmarked]
    obtain ⟨after, hloop, hgot⟩ := ih hK _ dist (by rwa [goodRank_succ_of_bad hbad])
    exact ⟨after, hloop, hgot.spared _ _ hf hk hK⟩
  | @last x o src hgood hmarked hle hread =>
    obtain ⟨fuel, rfl⟩ := fuel_pos hfuel
    rw [readLoop_succ hf (hk.offset hK), if_neg (by rw [hmarked]; exact Bool.false_ne_true)]
    dsimp only
    rw [if_pos hle, Nat.min_eq_right hle, hread]
    exact ⟨_, rfl, (got_last src dist _).spared _ _ hf hk hK⟩
  | @more x o src hgood hmarked hgt hread _ ih =>
    obtain ⟨fuel, rfl⟩ := fuel_pos hfuel
    have ho := hk.offset hK
    have hrest := hk.rest hK hgt
    rw [← List.length_drop] at hrest
    rw [show x + (fuel + 1) = x + 1 + fuel by omega, hf.blocks_more ho hgt, ← List.length_drop]
      at hfuel
    have hlen : (src.take (c.room o)).length = c.room o := by
      rw [List.length_take, Nat.min_eq_left (Nat.le_of_lt hgt)]
    rw [readLoop_succ hf ho, if_neg (by rw [hmarked]; exact Bool.false_ne_true)]
    dsimp only
    rw [if_neg (by omega), Nat.min_eq_left (Nat.le_of_lt hgt), hread, ← List.length_drop]
    have hsucc := goodRank_succ_of_good hgood
    have hfuel' : goodRank bad (x + 1) +
        chunkCount (c.span (c.next o) (src.drop (c.room o)).length) ≤
          goodRank bad (x + 1 + fuel) := by omega
    obtain ⟨after, hloop, hgot⟩ := ih hrest ((nandreadSpare chip (v.spareAt dist)
      (x % nandBlocks) buf).store dist (src.take (c.room o))) (dist + c.room o) hfuel'
    refine ⟨after, hloop, Got.spared chip (x % nandBlocks) hf hk hK ?_⟩
    have hgot' : Got (src.drop (c.room o)) (dist + (src.take (c.room o)).length)
        ((nandreadSpare chip (v.spareAt dist) (x % nandBlocks) buf).store dist
          (src.take (c.room o))) after := by rwa [hlen]
    have happend := hgot'.append
    rwa [List.take_append_drop] at happend

/-! ## §5 The calls -/

/-- Where both calls begin. -/
theorem addrJump_fst (chip : NandChip) (addr flag : ℕ) (buf : Buffer) :
    (addrJumpBadblocks chip addr flag buf).1 =
      getAddrJumpBadblocks chip.marked (addr / nandBlockSize) % nandBlocks * nandBlockSize +
        addr % nandBlockSize := by
  have hcount : ∀ m n : ℕ, ((List.range m).foldl (fun (s : ℕ × Buffer) block =>
      let buf := nandreadSpare chip flag block s.2
      (if buf.mem flag ≠ 0xff then s.1 + 1 else s.1, buf)) (n, buf)).1 =
      n + badblockCount chip.marked m := by
    intro m n
    induction m with
    | zero => rfl
    | succ m ih =>
      rw [List.range_succ, List.foldl_append, List.foldl_cons, List.foldl_nil]
      dsimp only
      rw [spare_mem, ih, badblockCount, NandChip.marked]
      by_cases hmark : chip.spare m 0 = 0xff
      · simp [hmark]
      · simp [hmark, Nat.add_assoc]
  rw [addrJumpBadblocks]
  dsimp only
  rw [hcount, Nat.zero_add, jump_place, getAddrJumpBadblocks, Nat.mod_mod]

/-- What the spare areas in front of the address leave in memory. -/
theorem addrJump_snd (chip : NandChip) (addr flag : ℕ) (buf : Buffer) :
    (∀ a < flag, (addrJumpBadblocks chip addr flag buf).2.mem a = buf.mem a) ∧
      ∀ store ∈ (addrJumpBadblocks chip addr flag buf).2.stores,
        store ∈ buf.stores ∨ store = (flag, 16) := by
  rw [addrJumpBadblocks]
  dsimp only
  induction addr / nandBlockSize with
  | zero => exact ⟨fun _ _ => rfl, fun _ h => Or.inl h⟩
  | succ m ih =>
    rw [List.range_succ, List.foldl_append, List.foldl_cons, List.foldl_nil]
    constructor
    · intro a ha
      exact (store_mem_lt ha _).trans (ih.1 a ha)
    · intro store hstore
      rcases List.mem_cons.mp hstore with hnew | hold
      · exact Or.inr hnew
      · exact ih.2 store hold

theorem writeCall_eq (v : Variant) (bad : ℕ → Bool) (chip : NandChip) (src : List UInt8) (addr : ℕ)
    (buf : Buffer) : writeCall v bad chip src addr buf =
      writeLoop v bad (nandFuel src.length)
        (getAddrJumpBadblocks chip.marked (addr / nandBlockSize) % nandBlocks * nandBlockSize +
          addr % nandBlockSize) src chip := by
  rw [writeCall, addrJump_fst]

theorem readCall_eq (v : Variant) (chip : NandChip) (dist addr count : ℕ) (buf : Buffer) :
    readCall v chip dist addr count buf =
      readLoop v chip (nandFuel count)
        (getAddrJumpBadblocks chip.marked (addr / nandBlockSize) % nandBlocks * nandBlockSize +
          addr % nandBlockSize) dist count (addrJumpBadblocks chip addr dist buf).2 := by
  have hfst := addrJump_fst chip addr dist buf
  unfold readCall
  generalize addrJumpBadblocks chip addr dist buf = jumped at hfst ⊢
  obtain ⟨cur, buf'⟩ := jumped
  exact congrArg (fun cur => readLoop v chip (nandFuel count) cur dist count buf') hfst

/-- The turns that a call may take are enough. -/
theorem fuel_enough (hf : v.Follows c) (ho : c.offset o) (hsome : 0 < goodRank bad nandBlocks)
    (x count : ℕ) :
    goodRank bad x + chunkCount (c.span o count) ≤ goodRank bad (x + nandFuel count) := by
  have hrounds : goodRank bad (nandBlocks * (count + 1) + x) =
      goodRank bad nandBlocks * (count + 1) + goodRank bad x := rank_add_rounds _ _
  have hblocks := hf.span_fuel ho count
  have hmul : 1 * (count + 1) ≤ goodRank bad nandBlocks * (count + 1) :=
    Nat.mul_le_mul_right _ hsome
  rw [nandFuel, Nat.add_comm x, hrounds]
  omega

/-- The way begins with bad blocks. -/
theorem Laid.first (hlaid : Laid v c bad chip x o src) :
    ∃ y, x ≤ y ∧ goodRank bad y = goodRank bad x ∧ bad (y % nandBlocks) = false ∧
      Laid v c bad chip y o src := by
  induction hlaid with
  | @bad x o src hbad hmarked rest ih =>
    obtain ⟨y, hle, hrank, hgood, hlaid⟩ := ih
    exact ⟨y, by omega, hrank.trans (goodRank_succ_of_bad hbad), hgood, hlaid⟩
  | @last x o src hgood hmarked hle hread =>
    exact ⟨x, Nat.le_refl x, rfl, hgood, .last hgood hmarked hle hread⟩
  | @more x o src hgood hmarked hgt hread rest ih =>
    exact ⟨x, Nat.le_refl x, rfl, hgood, .more hgood hmarked hgt hread rest⟩

/-- A read that begins with marked blocks, and then is where the data is. -/
theorem read_of_begins {s : ℕ} (hf : v.Follows c) (hk : v.Keeps c K)
    (hlaid : Laid v c bad chip y o src) (hK : K o src.length)
    (hgood : bad (y % nandBlocks) = false) (hsome : 0 < goodRank bad nandBlocks)
    (hbegins : firstFree chip.marked s = some (y % nandBlocks)) (buf : Buffer) (dist : ℕ) :
    ∃ after, readLoop v chip (nandFuel src.length) (s % nandBlocks * nandBlockSize + o) dist
      src.length buf = some after ∧ Got src dist buf after := by
  obtain ⟨d, hd, hplace, -, hskip⟩ := firstFree_eq_some.mp hbegins
  have hfuel : nandFuel src.length = d + (nandBlocks * src.length + (nandBlocks - d)) := by
    rw [nandFuel, Nat.mul_add_one]
    omega
  -- a round for each byte but the first, and the block itself
  have hrounds : goodRank bad (nandBlocks * src.length + (y + 1)) =
      goodRank bad nandBlocks * src.length + goodRank bad (y + 1) := rank_add_rounds _ _
  have hblocks := hf.span_fuel (hk.offset hK) src.length
  have hmul : 1 * src.length ≤ goodRank bad nandBlocks * src.length :=
    Nat.mul_le_mul_right _ hsome
  have hmono : goodRank bad (nandBlocks * src.length + (y + 1)) ≤
      goodRank bad (y + (nandBlocks * src.length + (nandBlocks - d))) := goodRank_mono (by omega)
  rw [hrounds, goodRank_succ_of_good hgood] at hmono
  have hleft : goodRank bad y + chunkCount (c.span o src.length) ≤
      goodRank bad (y + (nandBlocks * src.length + (nandBlocks - d))) := by omega
  obtain ⟨buf', hloop, hmem, hstores⟩ := readLoop_skip
    (nandBlocks * src.length + (nandBlocks - d)) dist src.length hf (hk.offset hK) hskip buf
  obtain ⟨after, hread, hgot⟩ := read_of_laid hf hk hlaid hK buf' dist hleft
  refine ⟨after, ?_, hgot.skip hmem ?_⟩
  · rw [hfuel, hloop, ← hplace, hread]
  · intro store hstore
    rcases hstores store hstore with hold | rfl
    · exact Or.inl hold
    · exact Or.inr ⟨hf.spareAt_ge dist, hk.spareAt_le hK dist⟩

/-- **Data that comes back**: a call whose data stays in its blocks delivers it, when there are good
    blocks enough and the read begins where the write began. -/
theorem trip_of_comes {spare : ℕ → ℕ → UInt8} (hf : v.Follows c) (hk : v.Keeps c K)
    (hK : K (addr % nandBlockSize) count)
    (hcomes : Comes bad (fun b => spare b 0 != 0xff) (addr / nandBlockSize)
      (c.span (addr % nandBlockSize) count)) (dist : ℕ) :
    RoundTrip (writeCall v) (readCall v) bad spare addr count dist := by
  intro data src buf mem hlen
  subst hlen
  have ho := hk.offset hK
  generalize hstart : getAddrJumpBadblocks (fun b => spare b 0 != 0xff) (addr / nandBlockSize) = s
  have hsome : 0 < goodRank bad nandBlocks := Nat.lt_of_lt_of_le (chunkCount_pos _) hcomes.few
  obtain ⟨chip, hwrite⟩ : ∃ chip, writeLoop v bad (nandFuel src.length)
      (s % nandBlocks * nandBlockSize + addr % nandBlockSize) src ⟨data, spare⟩ = some chip :=
    writeLoop_returns hf ho (fuel_enough hf ho hsome s src.length)
  have hmarks := writeLoop_marked hf ho hwrite
  have hlaid := laid_of_write hf hk hK hcomes.few hwrite
  obtain ⟨y, hle, hrank, hgood, hlaid⟩ := hlaid.first
  have hbegins := hcomes.begins
  dsimp only at hbegins
  rw [hstart] at hbegins
  change chip.marked = walkMarks bad (fun b => spare b 0 != 0xff) s _ at hmarks
  rw [← hmarks, firstFree_of_rank hle hgood hrank] at hbegins
  obtain ⟨after, hread, hgot⟩ := read_of_begins hf hk hlaid hK hgood
    hsome hbegins (addrJumpBadblocks chip addr dist ⟨mem, []⟩).2 dist
  refine ⟨chip, after, ?_, ?_, ?_, ?_⟩
  · rw [writeCall_eq]
    change writeLoop v bad _
      (getAddrJumpBadblocks (fun b => spare b 0 != 0xff) _ % _ * _ + _) _ _ = _
    rw [hstart, hwrite]
  · rw [readCall_eq, hread]
  · exact hgot.data
  · intro store hstore
    rcases hgot.stores store hstore with hold | hin
    · rcases (addrJump_snd chip addr dist ⟨mem, []⟩).2 store hold with hnil | rfl
      · cases hnil
      · have hge := hf.spareAt_ge dist
        have hle := hk.spareAt_le hK dist
        exact ⟨Nat.le_refl _, by dsimp only; omega⟩
    · exact hin

/-! ## §6 Two writes -/

/-- Two chips that differ in the pages of one block at most. -/
structure AgreeOff (b : ℕ) (chip chip' : NandChip) : Prop where
  spare : chip.spare = chip'.spare
  data : ∀ a, a / nandBlockSize ≠ b → chip.data a = chip'.data a

theorem AgreeOff.mark (h : AgreeOff b chip chip') (block : ℕ) (bytes : List UInt8) :
    AgreeOff b (chip.nandwriteSpare block bytes) (chip'.nandwriteSpare block bytes) where
  spare := by
    unfold NandChip.nandwriteSpare
    dsimp only
    rw [h.spare]
  data := h.data

theorem AgreeOff.erase (h : AgreeOff b chip chip') (block : ℕ) :
    AgreeOff b (chip.erase block) (chip'.erase block) where
  spare := by
    unfold NandChip.erase
    dsimp only
    rw [h.spare]
  data a ha := by
    unfold NandChip.erase
    dsimp only
    rw [h.data a ha]

/-- **Erasing the block** makes them the same. -/
theorem AgreeOff.erase_self (h : AgreeOff b chip chip') : chip.erase b = chip'.erase b := by
  unfold NandChip.erase
  rw [h.spare]
  congr
  funext a
  apply if_ctx_congr Iff.rfl
  · intro _
    rfl
  · intro ha
    exact h.data a ha

theorem AgreeOff.write (h : AgreeOff b chip chip') (hf : v.Follows c) (src : List UInt8)
    (addr n : ℕ) : AgreeOff b (v.write chip src addr n) (v.write chip' src addr n) where
  spare := by rw [hf.write_spare, hf.write_spare, h.spare]
  data a ha := hf.write_cell (h.data a ha) src addr n

/-- The same data leaves them so. -/
theorem AgreeOff.writeLoop (h : AgreeOff b chip chip') (hf : v.Follows c) (ho : c.offset o)
    (hr : writeLoop v bad fuel (x % nandBlocks * nandBlockSize + o) src chip = some r)
    (hr' : writeLoop v bad fuel (x % nandBlocks * nandBlockSize + o) src chip' = some r') :
    AgreeOff b r r' := by
  induction fuel generalizing x o src chip chip' with
  | zero => cases hr
  | succ fuel ih =>
    rw [writeLoop_succ hf ho] at hr hr'
    by_cases hbad : bad (x % nandBlocks) = true
    · rw [if_pos hbad] at hr hr'
      exact ih (h.mark _ _) ho hr hr'
    · rw [if_neg hbad] at hr hr'
      have hwrite := (h.erase (x % nandBlocks)).write hf src
        (x % nandBlocks * nandBlockSize + o) (min (c.room o) src.length)
      dsimp only at hr hr'
      by_cases hle : src.length ≤ c.room o
      · rw [if_pos hle] at hr hr'
        cases hr
        cases hr'
        exact hwrite
      · rw [if_neg hle] at hr hr'
        exact ih hwrite (hf.offset_next ho) hr hr'

/-- A write that erases the block leaves the same of both. -/
theorem AgreeOff.heals (h : AgreeOff b chip chip') (hf : v.Follows c) (ho : c.offset o)
    (hwalk : InWalk bad x (c.span o src.length) y) (hgoody : bad (y % nandBlocks) = false)
    (hb : y % nandBlocks = b) :
    Pmon.Fs.NandPages.writeLoop v bad fuel (x % nandBlocks * nandBlockSize + o) src chip =
      Pmon.Fs.NandPages.writeLoop v bad fuel (x % nandBlocks * nandBlockSize + o) src chip' := by
  induction fuel generalizing x o src chip chip' with
  | zero => rfl
  | succ fuel ih =>
    rw [writeLoop_succ hf ho, writeLoop_succ hf ho]
    by_cases hbad : bad (x % nandBlocks) = true
    · rw [if_pos hbad, if_pos hbad]
      rcases (inWalk_of_bad hbad).mp hwalk with rfl | hwalk
      · rw [hgoody] at hbad
        cases hbad
      · exact ih (h.mark _ _) ho hwalk
    · rw [if_neg hbad, if_neg hbad]
      have hgood := Bool.not_eq_true _ ▸ hbad
      dsimp only
      by_cases hx : x % nandBlocks = b
      · rw [hx, h.erase_self]
      · by_cases hle : src.length ≤ c.room o
        · have hxy := (hf.walk_last ho hgood hle).mp hwalk
          rw [hxy] at hb
          exact absurd hb hx
        · rw [if_neg hle, if_neg hle]
          rcases (hf.walk_more ho hgood (by omega)).mp hwalk with rfl | hwalk
          · exact absurd hb hx
          · rw [← List.length_drop] at hwalk
            exact ih ((h.erase _).write hf _ _ _) (hf.offset_next ho) hwalk

/-- Two sources that differ in their first byte. -/
theorem AgreeOff.write_first (hf : v.Follows c) (ho : c.offset o) (hunit : c.unit ∣ src.length + 1)
    (chip : NandChip) (x : ℕ) (p q : UInt8) :
    AgreeOff (x % nandBlocks)
      (v.write chip (p :: src) (x % nandBlocks * nandBlockSize + o)
        (min (c.room o) (src.length + 1)))
      (v.write chip (q :: src) (x % nandBlocks * nandBlockSize + o)
        (min (c.room o) (src.length + 1))) where
  spare := by rw [hf.write_spare, hf.write_spare]
  data a ha := by
    have hdvd : c.unit ∣ min (c.room o) (src.length + 1) := by
      rcases Nat.le_total (c.room o) (src.length + 1) with hle | hle
      · rw [Nat.min_eq_left hle]
        exact hf.unit_dvd ho
      · rwa [Nat.min_eq_right hle]
    exact hf.write_first ho (block_lt x) hdvd (Nat.min_le_right _ _) ha chip p q

/-- What follows the first block is the same. -/
theorem drop_first (hf : v.Follows c) (ho : c.offset o) (p q : UInt8) :
    (p :: src).drop (c.room o) = (q :: src).drop (c.room o) := by
  obtain ⟨m, hm⟩ := Nat.exists_eq_succ_of_ne_zero (Nat.pos_iff_ne_zero.mp (hf.room_pos ho))
  rw [hm]
  rfl

/-- **The first byte** is in the first good block, and nowhere else. -/
theorem writeLoop_first {p q : UInt8} (hf : v.Follows c) (ho : c.offset o)
    (hunit : c.unit ∣ src.length + 1)
    (hr : writeLoop v bad fuel (x % nandBlocks * nandBlockSize + o) (p :: src) chip = some r)
    (hr' : writeLoop v bad fuel (x % nandBlocks * nandBlockSize + o) (q :: src) chip = some r')
    (hxy : x ≤ y) (hgood : bad (y % nandBlocks) = false) (hrank : goodRank bad y = goodRank bad x) :
    AgreeOff (y % nandBlocks) r r' := by
  induction fuel generalizing x chip with
  | zero => cases hr
  | succ fuel ih =>
    rw [writeLoop_succ hf ho] at hr hr'
    by_cases hbad : bad (x % nandBlocks) = true
    · rw [if_pos hbad] at hr hr'
      have hne : x ≠ y := by
        rintro rfl
        rw [hgood] at hbad
        cases hbad
      exact ih hr hr' (by omega) (hrank.trans (goodRank_succ_of_bad hbad).symm)
    · rw [if_neg hbad] at hr hr'
      -- the first good block
      have hsucc := goodRank_succ_of_good (Bool.not_eq_true _ ▸ hbad)
      obtain rfl : x = y := by
        by_contra hne
        have hmono : goodRank bad (x + 1) ≤ goodRank bad y := goodRank_mono (by omega)
        omega
      have hwrite := AgreeOff.write_first hf ho hunit (chip.erase (x % nandBlocks)) x p q
      dsimp only at hr hr'
      rw [List.length_cons] at hr hr'
      by_cases hle : src.length + 1 ≤ c.room o
      · rw [if_pos hle] at hr hr'
        cases hr
        cases hr'
        exact hwrite
      · rw [if_neg hle] at hr hr'
        rw [drop_first hf ho p q] at hr
        exact hwrite.writeLoop hf (hf.offset_next ho) hr hr'

/-- **Too few good blocks**: the block of the first byte is erased again. -/
theorem writeLoop_few (p q : UInt8) (hf : v.Follows c) (ho : c.offset o)
    (hunit : c.unit ∣ src.length + 1)
    (hfew : goodRank bad nandBlocks < chunkCount (c.span o (src.length + 1))) :
    writeLoop v bad fuel (x % nandBlocks * nandBlockSize + o) (p :: src) chip =
      writeLoop v bad fuel (x % nandBlocks * nandBlockSize + o) (q :: src) chip := by
  induction fuel generalizing x chip with
  | zero => rfl
  | succ fuel ih =>
    rw [writeLoop_succ hf ho, writeLoop_succ hf ho]
    by_cases hbad : bad (x % nandBlocks) = true
    · rw [if_pos hbad, if_pos hbad]
      exact ih
    · rw [if_neg hbad, if_neg hbad]
      have hgood := Bool.not_eq_true _ ▸ hbad
      dsimp only
      rw [List.length_cons, List.length_cons]
      have hround : goodRank bad (nandBlocks + x) = goodRank bad nandBlocks + goodRank bad x :=
        rank_add_round x
      by_cases hle : src.length + 1 ≤ c.room o
      · have hpos : goodRank bad (x % nandBlocks) < goodRank bad nandBlocks :=
          rank_mod_lt (p := fun b => bad b = false) (by decide) hgood
        rw [hf.blocks_last ho hle] at hfew
        omega
      · rw [if_neg hle, if_neg hle, drop_first hf ho p q]
        apply (AgreeOff.write_first hf ho hunit (chip.erase (x % nandBlocks)) x p q).heals hf
          (hf.offset_next ho) (y := nandBlocks + x)
        · rw [hf.blocks_more ho (by omega)] at hfew
          refine ⟨by unfold nandBlocks; omega, ?_⟩
          rw [List.length_drop, List.length_cons, hround, goodRank_succ_of_good hgood]
          omega
        · rwa [Nat.add_mod_left]
        · exact Nat.add_mod_left _ _

/-! ## §7 When nothing comes back -/

/-- Data that comes back is that of one source. -/
theorem RoundTrip.src_eq {spare : ℕ → ℕ → UInt8}
    {write : (ℕ → Bool) → NandChip → List UInt8 → ℕ → Buffer → Option NandChip}
    {read : NandChip → (dist addr count : ℕ) → Buffer → Option Buffer}
    (h : RoundTrip write read bad spare addr count dist) (data : ℕ → UInt8)
    (hlen : src.length = count) (hlen' : src'.length = count) (buf : Buffer)
    (heq : write bad ⟨data, spare⟩ src addr buf = write bad ⟨data, spare⟩ src' addr buf) :
    src = src' := by
  obtain ⟨chip, after, hwrite, hread, hdata, -⟩ := h data src buf (fun _ => 0) hlen
  obtain ⟨chip', after', hwrite', hread', hdata', -⟩ := h data src' buf (fun _ => 0) hlen'
  rw [heq, hwrite'] at hwrite
  cases hwrite
  rw [hread'] at hread
  cases hread
  apply List.ext_getElem (hlen.trans hlen'.symm)
  intro i hi hi'
  have hi := hdata i (hlen ▸ hi)
  rw [hdata' i (hlen' ▸ hi')] at hi
  rwa [List.getD_eq_getElem _ _ (by omega), List.getD_eq_getElem _ _ (by omega), eq_comm] at hi

/-- **The first byte that a read gets** is from the first block without a mark. -/
theorem readLoop_first (hf : v.Follows c) (ho : c.offset o) (hunit : c.unit ∣ left)
    (hpos : 0 < left) (hfree : firstFree chip.marked x = some b)
    (h : readLoop v chip fuel (x % nandBlocks * nandBlockSize + o) dist left buf = some after) :
    (v.read chip (b * nandBlockSize + o) (min (c.room o) left)).head? = some (after.mem dist) := by
  obtain ⟨d, -, hplace, hmarked, hskip⟩ := firstFree_eq_some.mp hfree
  -- as many turns as there are marks in front, and then one more
  by_cases hfuel : fuel ≤ d
  · obtain ⟨buf', hloop, -⟩ := readLoop_skip 0 dist left hf ho
      (fun j hj => hskip j (Nat.lt_of_lt_of_le hj hfuel)) buf
    rw [Nat.add_zero, h] at hloop
    cases hloop
  · obtain ⟨buf', hloop, -⟩ := readLoop_skip (fuel - d) dist left hf ho
      hskip buf
    rw [Nat.add_sub_cancel' (by omega), h, show fuel - d = fuel - d - 1 + 1 by omega,
      readLoop_succ hf ho, ← hplace, if_neg (by rw [hmarked]; exact Bool.false_ne_true)] at hloop
    dsimp only at hloop
    have hcount : 0 < min (c.room o) left := by
      have := hf.room_pos ho
      omega
    have hdvd : c.unit ∣ min (c.room o) left := by
      rcases Nat.le_total (c.room o) left with hle | hle
      · rw [Nat.min_eq_left hle]
        exact hf.unit_dvd ho
      · rwa [Nat.min_eq_right hle]
    obtain ⟨byte, hbyte⟩ : ∃ byte,
        (v.read chip (b * nandBlockSize + o) (min (c.room o) left)).head? = some byte := by
      cases hread : v.read chip (b * nandBlockSize + o) (min (c.room o) left) with
      | nil =>
        have hlen := hf.read_length hdvd chip (b * nandBlockSize + o)
        rw [hread] at hlen
        exact absurd hlen (by simpa using hcount.ne)
      | cons byte bytes => exact ⟨byte, rfl⟩
    rw [hbyte]
    have hfirst : ∀ buf : Buffer, (buf.store dist
        (v.read chip (b * nandBlockSize + o) (min (c.room o) left))).mem dist = byte :=
      fun _ => store_mem_first hbyte
    split at hloop
    · cases hloop
      rw [hfirst]
    · rw [readLoop_front hf (hf.offset_next ho) hloop.symm (by
        have := hf.room_pos ho
        omega), hfirst]

/-- **A call that delivers its data** comes back to where it wrote. -/
theorem comes_of_trip {spare : ℕ → ℕ → UInt8} (hf : v.Follows c)
    (ho : c.offset (addr % nandBlockSize)) (hunit : c.unit ∣ count) (hpos : 0 < count)
    (h : RoundTrip (writeCall v) (readCall v) bad spare addr count dist) :
    Comes bad (fun b => spare b 0 != 0xff) (addr / nandBlockSize)
      (c.span (addr % nandBlockSize) count) := by
  obtain ⟨m, rfl⟩ := Nat.exists_eq_succ_of_ne_zero (Nat.pos_iff_ne_zero.mp hpos)
  have hlen : (List.replicate m (0 : UInt8)).length = m := List.length_replicate
  have hlens : ∀ p : UInt8, (p :: List.replicate m 0).length = m + 1 := by
    intro p
    rw [List.length_cons, hlen]
  have hunit' : c.unit ∣ (List.replicate m (0 : UInt8)).length + 1 := by rwa [hlen]
  have hfew : chunkCount (c.span (addr % nandBlockSize) (m + 1)) ≤ goodRank bad nandBlocks := by
    by_contra hlt
    have hsame := h.src_eq (fun _ => 0) (hlens 0) (hlens 1) ⟨fun _ => 0, []⟩ (by
      rw [writeCall_eq, writeCall_eq, hlens, hlens]
      exact writeLoop_few 0 1 hf ho hunit' (by rw [hlen]; omega))
    cases hsame
  refine ⟨hfew, ?_⟩
  dsimp only
  generalize hstart : getAddrJumpBadblocks (fun b => spare b 0 != 0xff) (addr / nandBlockSize) = s
  obtain ⟨y, hle, hgood, hrank⟩ := exists_rank (N := nandBlocks) (p := fun b => bad b = false)
    (by decide) (Nat.lt_of_lt_of_le (chunkCount_pos _) hfew) s 0
  -- two sources that differ in the first byte
  obtain ⟨chip, after, hwrite, hread, hdata, -⟩ :=
    h (fun _ => 0) (0 :: List.replicate m 0) ⟨fun _ => 0, []⟩ (fun _ => 0) (hlens 0)
  obtain ⟨chip', after', hwrite', hread', hdata', -⟩ :=
    h (fun _ => 0) (1 :: List.replicate m 0) ⟨fun _ => 0, []⟩ (fun _ => 0) (hlens 1)
  have hstart' : getAddrJumpBadblocks (NandChip.mk (fun _ => 0) spare).marked
      (addr / nandBlockSize) = s := hstart
  rw [writeCall_eq, hstart', hlens] at hwrite hwrite'
  have hagree := writeLoop_first hf ho hunit' hwrite hwrite' hle hgood hrank
  have hmarks := writeLoop_marked hf ho hwrite
  rw [hlens] at hmarks
  change chip.marked = walkMarks bad (fun b => spare b 0 != 0xff) s _ at hmarks
  rw [← hmarks, firstFree_of_rank hle hgood hrank]
  have hmarked : chip.marked (y % nandBlocks) = false := by
    rw [hmarks, walkMarks, if_pos]
    · exact hgood
    · refine walksOver_iff.mpr ⟨y, ⟨hle, ?_⟩, rfl⟩
      change goodRank bad y = goodRank bad s + 0 at hrank
      have hone := chunkCount_pos (c.span (addr % nandBlockSize) (m + 1))
      omega
  obtain ⟨b, hb⟩ := exists_firstFree (s := getAddrJumpBadblocks chip.marked (addr / nandBlockSize))
    (block_lt y) hmarked
  rw [hb]
  by_contra hne
  rw [readCall_eq] at hread hread'
  have hfirst := readLoop_first hf ho hunit (by omega) hb hread
  have hb' := hb
  rw [marked_congr hagree.spare] at hb'
  have hfirst' := readLoop_first hf ho hunit (by omega) hb' hread'
  have hblt : b < nandBlocks := by
    obtain ⟨d, -, hplace, -⟩ := firstFree_eq_some.mp hb
    rw [hplace]
    exact block_lt _
  have hdvd : c.unit ∣ min (c.room (addr % nandBlockSize)) (m + 1) := by
    rcases Nat.le_total (c.room (addr % nandBlockSize)) (m + 1) with hle | hle
    · rw [Nat.min_eq_left hle]
      exact hf.unit_dvd ho
    · rwa [Nat.min_eq_right hle]
  have hsame := hf.read_first ho hblt hdvd (by
      have := hf.room_pos ho
      omega) chip chip' (by
      intro a ha
      apply hagree.data
      rintro heq
      exact hne (congrArg some (ha.symm.trans heq)))
  rw [hfirst, hfirst'] at hsame
  have hzero := hdata 0 (by omega)
  have hone := hdata' 0 (by omega)
  rw [Nat.add_zero] at hzero hone
  rw [hzero, hone] at hsame
  cases hsame

/-! ## §8 The plain pair -/

theorem plain_writeLoop_succ (ho : o < nandBlockSize) (x : ℕ) :
    writeLoop plain bad (fuel + 1) (x % nandBlocks * nandBlockSize + o) src chip =
      if bad (x % nandBlocks) then
        writeLoop plain bad fuel ((x + 1) % nandBlocks * nandBlockSize + o) src
          (chip.nandwriteSpare (x % nandBlocks) setBadblockArea)
      else if src.length ≤ nandBlockSize then
        some (nandwrite (chip.erase (x % nandBlocks)) src (x % nandBlocks * nandBlockSize + o)
          (min nandBlockSize src.length))
      else writeLoop plain bad fuel ((x + 1) % nandBlocks * nandBlockSize + o)
        (src.drop nandBlockSize) (nandwrite (chip.erase (x % nandBlocks)) src
          (x % nandBlocks * nandBlockSize + o) (min nandBlockSize src.length)) :=
  writeLoop_succ plain_follows ho x

/-- Bytes behind the last word are not programmed. -/
theorem plain_tail (ho : o < nandBlockSize) (hlen : src.length = src'.length)
    (htake : src.take (src.length / 4 * 4) = src'.take (src.length / 4 * 4)) :
    writeLoop plain bad fuel (x % nandBlocks * nandBlockSize + o) src chip =
      writeLoop plain bad fuel (x % nandBlocks * nandBlockSize + o) src' chip := by
  induction fuel generalizing x src src' chip with
  | zero => rfl
  | succ fuel ih =>
    rw [plain_writeLoop_succ ho, plain_writeLoop_succ ho]
    by_cases hbad : bad (x % nandBlocks) = true
    · rw [if_pos hbad, if_pos hbad]
      exact ih hlen htake
    · rw [if_neg hbad, if_neg hbad]
      rw [nandwrite, nandwrite]
      by_cases hle : src.length ≤ nandBlockSize
      · rw [if_pos hle, if_pos (by omega), Nat.min_eq_right hle, ← hlen, Nat.min_eq_right hle,
          htake]
      · have hwhole : nandBlockSize / 4 * 4 = nandBlockSize := rfl
        rw [if_neg hle, if_neg (by omega), Nat.min_eq_left (by omega), Nat.min_eq_left (by omega),
          hwhole]
        have hfront := congrArg (List.take nandBlockSize) htake
        have hback := congrArg (List.drop nandBlockSize) htake
        have hmin : min nandBlockSize (src.length / 4 * 4) = nandBlockSize := by
          unfold nandBlockSize at *
          omega
        rw [List.take_take, List.take_take, hmin] at hfront
        rw [List.drop_take, List.drop_take] at hback
        rw [hfront]
        apply ih
        · rw [List.length_drop, List.length_drop, hlen]
        · rw [List.length_drop]
          have hrest :
              (src.length - nandBlockSize) / 4 * 4 = src.length / 4 * 4 - nandBlockSize := by
            unfold nandBlockSize
            omega
          rw [hrest, hback]

/-- Bytes that fall into another block cannot set a bit there. -/
theorem program_spill (hb : b < nandBlocks) (ho : o < nandBlockSize)
    (hdata : ∀ a, chip.data a = 0)
    (hsame : ∀ i, i ≠ nandBlockSize - o → src.getD i 0xff = src'.getD i 0xff) (n : ℕ) :
    nandwrite (chip.erase b) src (b * nandBlockSize + o) n =
      nandwrite (chip.erase b) src' (b * nandBlockSize + o) n := by
  apply NandChip.ext
  · funext a
    by_cases ha : a < nandAddrs
    · change ((chip.erase b).program _ _).data a = ((chip.erase b).program _ _).data a
      rw [program_data ha, program_data ha, gap_addrs (place_lt hb ho) ha]
      by_cases hblock : a / nandBlockSize = b
      · -- in the block, the byte is another one
        have hne : (if b * nandBlockSize + o ≤ a then a - (b * nandBlockSize + o)
            else a + nandAddrs - (b * nandBlockSize + o)) ≠ nandBlockSize - o := by
          unfold nandAddrs nandBlocks nandBlockSize at *
          split
          · omega
          · omega
        generalize (if b * nandBlockSize + o ≤ a then a - (b * nandBlockSize + o)
            else a + nandAddrs - (b * nandBlockSize + o)) = i at hne
        have hi := hsame i hne
        rw [List.getD_eq_getElem?_getD, List.getD_eq_getElem?_getD] at hi ⊢
        rw [List.getElem?_take, List.getElem?_take]
        by_cases hlt : i < n / 4 * 4
        · rw [if_pos hlt, if_pos hlt, hi]
        · rw [if_neg hlt, if_neg hlt]
      · rw [show (chip.erase b).data a = chip.data a from if_neg hblock, hdata, UInt8.zero_and,
          UInt8.zero_and]
    · exact (if_neg ha).trans (if_neg ha).symm
  · rfl

theorem plain_spill (ho : o < nandBlockSize) (hpos : o ≠ 0) (hlen : src.length = src'.length)
    (hdata : ∀ a, chip.data a = 0)
    (hsame : ∀ i, i ≠ nandBlockSize - o → src.getD i 0xff = src'.getD i 0xff) :
    writeLoop plain bad fuel (x % nandBlocks * nandBlockSize + o) src chip =
      writeLoop plain bad fuel (x % nandBlocks * nandBlockSize + o) src' chip := by
  induction fuel generalizing x chip with
  | zero => rfl
  | succ fuel ih =>
    rw [plain_writeLoop_succ ho, plain_writeLoop_succ ho]
    by_cases hbad : bad (x % nandBlocks) = true
    · rw [if_pos hbad, if_pos hbad]
      exact ih hdata
    · rw [if_neg hbad, if_neg hbad]
      have hdrop : src.drop nandBlockSize = src'.drop nandBlockSize := by
        apply List.ext_getElem
        · rw [List.length_drop, List.length_drop, hlen]
        · intro i hi hi'
          rw [List.length_drop] at hi hi'
          rw [List.getElem_drop, List.getElem_drop]
          have hbyte := hsame (nandBlockSize + i) (by omega)
          rwa [List.getD_eq_getElem _ _ (by omega), List.getD_eq_getElem _ _ (by omega)] at hbyte
      rw [hlen, program_spill (block_lt x) ho hdata hsame, hdrop]

/-- The last spare area is read to where the last bytes go. -/
theorem plain_stores (ho : o < nandBlockSize) (hpos : 0 < left)
    (h : readLoop plain chip fuel (x % nandBlocks * nandBlockSize + o) dist left buf = some after) :
    ∃ a, (a, 16) ∈ after.stores ∧ a + ((left - 1) % nandBlockSize + 1) = dist + left := by
  induction fuel generalizing x dist left buf with
  | zero => cases h
  | succ fuel ih =>
    rw [readLoop_succ plain_follows ho] at h
    dsimp only at h
    split at h
    · exact ih hpos h
    · split at h
      · rename_i hle
        change left ≤ nandBlockSize at hle
        cases h
        refine ⟨dist, List.mem_cons_of_mem _ List.mem_cons_self, ?_⟩
        rw [Nat.mod_eq_of_lt (by omega)]
        omega
      · rename_i hgt
        change ¬ left ≤ nandBlockSize at hgt
        obtain ⟨a, hmem, hplace⟩ := ih (Nat.sub_pos_of_lt (Nat.lt_of_not_le hgt)) h
        change a + ((left - nandBlockSize - 1) % nandBlockSize + 1) =
          dist + nandBlockSize + (left - nandBlockSize) at hplace
        refine ⟨a, hmem, ?_⟩
        unfold nandBlockSize at *
        omega

/-- **When the plain pair delivers its data.** -/
theorem plainTrip_iff {spare : ℕ → ℕ → UInt8} (hpos : 0 < count) :
    RoundTrip nandwriteSetBadblock nandreadCheckBadblock bad spare addr count dist ↔
      PlainFits bad (fun b => spare b 0 != 0xff) addr count := by
  have ho : addr % nandBlockSize < nandBlockSize := Nat.mod_lt _ (by decide)
  constructor
  · intro h
    have hunit : 4 ∣ count := by
      by_contra hodd
      obtain ⟨m, rfl⟩ := Nat.exists_eq_succ_of_ne_zero (Nat.pos_iff_ne_zero.mp hpos)
      have hlens : ∀ p : UInt8, (List.replicate m 0 ++ [p]).length = m + 1 := by
        intro p
        rw [List.length_append, List.length_replicate, List.length_singleton]
      have hsame := h.src_eq (fun _ => 0) (hlens 0) (hlens 1) ⟨fun _ => 0, []⟩ (by
        change writeCall plain _ _ _ _ _ = writeCall plain _ _ _ _ _
        rw [writeCall_eq, writeCall_eq, hlens, hlens]
        apply plain_tail ho
        · rw [hlens, hlens]
        · rw [hlens, List.take_append_of_le_length, List.take_append_of_le_length]
          · rw [List.length_replicate]
            omega
          · rw [List.length_replicate]
            omega)
      rw [List.append_cancel_left_eq] at hsame
      cases hsame
    refine ⟨⟨ho, hunit, ?_, ?_⟩, comes_of_trip plain_follows ho hunit hpos h⟩
    · by_contra hspill
      obtain ⟨hoff, hover⟩ := not_or.mp hspill
      have hlen : (List.replicate count (0 : UInt8)).length = count := List.length_replicate
      have hset : ((List.replicate count (0 : UInt8)).set
          (nandBlockSize - addr % nandBlockSize) 1).length = count := by
        rw [List.length_set, hlen]
      have hsame := h.src_eq (fun _ => 0) hlen hset ⟨fun _ => 0, []⟩ (by
        change writeCall plain _ _ _ _ _ = writeCall plain _ _ _ _ _
        rw [writeCall_eq, writeCall_eq, hlen, hset]
        apply plain_spill ho hoff (hlen.trans hset.symm) (fun _ => rfl)
        intro i hi
        rw [List.getD_eq_getElem?_getD, List.getD_eq_getElem?_getD,
          List.getElem?_set_ne (Ne.symm hi)])
      have hbyte := congrArg (fun l => l[nandBlockSize - addr % nandBlockSize]?) hsame
      rw [List.getElem?_set_self (by rw [hlen]; omega), List.getElem?_replicate,
        if_pos (by omega)] at hbyte
      cases hbyte
    · obtain ⟨chip, after, -, hread, -, hstores⟩ :=
        h (fun _ => 0) (List.replicate count 0) ⟨fun _ => 0, []⟩ (fun _ => 0) List.length_replicate
      change readCall plain _ _ _ _ _ = _ at hread
      rw [readCall_eq] at hread
      obtain ⟨a, hmem, hplace⟩ := plain_stores ho hpos hread
      have hin := (hstores _ hmem).2
      dsimp only at hin
      omega
  · rintro ⟨hkept, hcomes⟩
    exact trip_of_comes plain_follows plain_keeps hkept hcomes dist

/-- **When the pair with ECC delivers its data.** -/
theorem eccTrip_iff {spare : ℕ → ℕ → UInt8} {encode decode : List UInt8 → List UInt8}
    (hcodes : Codes encode decode) (hpage : 2048 ∣ addr) (hpos : 0 < count) (hunit : 188 ∣ count) :
    RoundTrip (nandwriteSetBadblockEcc encode decode) (nandreadCheckBadblockEcc encode decode)
      bad spare addr count dist ↔ EccFits bad (fun b => spare b 0 != 0xff) addr count := by
  have ho : eccCourse.offset (addr % nandBlockSize) :=
    ⟨(Nat.dvd_mod_iff (by decide)).mpr hpage, Nat.mod_lt _ (by decide)⟩
  constructor
  · intro h
    exact comes_of_trip (ecc_follows hcodes) ho hunit hpos h
  · intro hcomes
    exact trip_of_comes (ecc_follows hcodes) (ecc_keeps hcodes) ⟨ho, hunit, hpos⟩ hcomes dist

/-! ## §9 Both pairs -/

/-- **When data comes back from a NAND flash**: through the plain pair, and through the one with
    ECC. -/
theorem nandTrips_exact {encode decode : List UInt8 → List UInt8} (hcodes : Codes encode decode)
    (bad : ℕ → Bool) (spare : ℕ → ℕ → UInt8) (hpage : 2048 ∣ addr) (hpos : 0 < count) (dist : ℕ) :
    (RoundTrip nandwriteSetBadblock nandreadCheckBadblock bad spare addr count dist ↔
      PlainFits bad (fun b => spare b 0 != 0xff) addr count) ∧
    (188 ∣ count →
      (RoundTrip (nandwriteSetBadblockEcc encode decode) (nandreadCheckBadblockEcc encode decode)
        bad spare addr count dist ↔ EccFits bad (fun b => spare b 0 != 0xff) addr count)) :=
  ⟨plainTrip_iff hpos, eccTrip_iff hcodes hpage hpos⟩

/-- A code that adds sixteen zeros. -/
theorem padding_codes : Codes (· ++ List.replicate 16 0) (·.take 188) where
  encode_length word h := by
    rw [List.length_append, List.length_replicate, h]
  decode_length code h := by
    rw [List.length_take, h]
    rfl
  decode_encode word h := by
    rw [← h]
    exact List.take_left

/-- The first block, of a chip without bad blocks. -/
theorem comes_first {span : ℕ} (hspan : span ≤ nandBlockSize) :
    Comes (fun _ => false) (fun _ => false) 0 span where
  few := by
    have hone : goodRank (fun _ => false) (0 + 1) = goodRank (fun _ => false) 0 + 1 :=
      goodRank_succ_of_good rfl
    have hmono : goodRank (fun _ => false) (0 + 1) ≤ goodRank (fun _ => false) nandBlocks :=
      goodRank_mono (by decide)
    rw [chunkCount_of_le hspan]
    omega
  begins := by
    have hfirst : ∀ skip : ℕ → Bool, skip 0 = false → firstFree skip 0 = some 0 := by
      intro skip hskip
      exact firstFree_eq_some.mpr ⟨0, by decide, rfl, hskip, by simp⟩
    change firstFree _ 0 = firstFree _ 0
    rw [hfirst, hfirst]
    · rfl
    · rw [walkMarks]
      split
      · rfl
      · rfl

/-- Four code words, from the first address on, through both pairs. -/
theorem nandTrips_exact_first :
    RoundTrip nandwriteSetBadblock nandreadCheckBadblock (fun _ => false) (fun _ _ => 0xff)
      0 752 0 ∧
    RoundTrip (nandwriteSetBadblockEcc (· ++ List.replicate 16 0) (·.take 188))
      (nandreadCheckBadblockEcc (· ++ List.replicate 16 0) (·.take 188))
      (fun _ => false) (fun _ _ => 0xff) 0 752 0 := by
  have h := nandTrips_exact padding_codes (fun _ => false) (fun _ _ => 0xff)
    (show 2048 ∣ 0 by decide) (show 0 < 752 by decide) 0
  refine ⟨h.1.mpr ⟨⟨by decide, by decide, Or.inl rfl, by decide⟩, ?_⟩, (h.2 (by decide)).mpr ?_⟩
  · exact comes_first (by decide)
  · exact comes_first (by decide)

/-- From the second page on, a block's worth of bytes goes into the next block too. -/
theorem nandTrips_second_page : ¬ RoundTrip nandwriteSetBadblock nandreadCheckBadblock
    (fun _ => false) (fun _ _ => 0xff) 0x800 0x20000 0 := by
  intro h
  obtain ⟨⟨-, -, hin, -⟩, -⟩ := (plainTrip_iff (by decide)).mp h
  revert hin
  decide

end Pmon.Fs.NandPages
