import Pmon.Fs.BlockLevels

/-!
# Files with holes

A pointer of a block map that is 0, at any level, stands for a hole of the file.  The code knows of
holes in one place only, where a whole block without a number is read by itself; elsewhere it takes
the 0 for the number of the first block of the volume, as an index block, too.

## Key results

- `arrayOf_addr`: where there is no hole, the code finds the number of the block.
- `reads_eq_iff`: a read is right exactly when it is right in each of its blocks.
- `ext2ReadFile0_eq_iff`: when `ext2_read_file0` reads what is in the file.
-/

namespace Pmon.Fs.Ext2

open Pmon.Lib

variable {v : Ext2Vol} {root : Mem} {addr : ℕ → ℕ} {blk fin i p p' pos q n : ℕ}

/-! ## §1 What a block map means -/

/-- A number in an index block; there are only zeros in one that is missing. -/
def Ext2Vol.entry (v : Ext2Vol) (blk i : ℕ) : ℕ :=
  if blk = 0 then 0 else v.bytes.word (v.sb.place blk + 4 * i)

/-- The pointers on the way to a block of a file, from `i_block` on; the last one is its number. -/
def Ext2Vol.path (v : Ext2Vol) (root : Mem) (q : ℕ) : List ℕ :=
  if q < 12 then [root.words q]
  else if q < 12 + v.fan then [root.words 12, v.entry (root.words 12) (q - 12)]
  else if q < v.third then
    let i := q - (12 + v.fan)
    let single := v.entry (root.words 13) (i / v.fan)
    [root.words 13, single, v.entry single (i % v.fan)]
  else
    let i := q - v.third
    let double := v.entry (root.words 14) (i / (v.fan * v.fan))
    let single := v.entry double (i / v.fan % v.fan)
    [root.words 14, double, single, v.entry single (i % v.fan)]

/-- The number of a block, 0 in a hole. -/
def Ext2Vol.blockPtr (v : Ext2Vol) (root : Mem) (q : ℕ) : ℕ := (v.path root q).getLastD 0

/-- A file: its blocks, and the index blocks that it has, are on the device. -/
structure Ext2File (v : Ext2Vol) where
  root : Mem
  /-- `i_size`. -/
  size : ℕ
  size_lt : size < 4294967296
  onDevice : ∀ q, q * v.sb.blockSize < size → ∀ blk ∈ v.path root q, blk ≠ 0 →
    v.sb.place blk + v.sb.blockSize ≤ v.devSize

/-- A byte of a file: 0 in a hole. -/
def Ext2File.byte (f : Ext2File v) (p : ℕ) : UInt8 :=
  if v.blockPtr f.root (p / v.sb.blockSize) = 0 then 0
  else v.bytes (v.sb.place (v.blockPtr f.root (p / v.sb.blockSize)) + p % v.sb.blockSize)

/-- `n` bytes of a file. -/
def Ext2File.bytes (f : Ext2File v) (pos n : ℕ) : List UInt8 := (List.range' pos n).map f.byte

/-- How many bytes there are to read. -/
def Ext2File.count (f : Ext2File v) (n pos : ℕ) : ℕ := min n (f.size - pos)

/-! ## §2 What the code makes of it -/

/-- An array of numbers, for the blocks of the file from `base` on. -/
structure IndexArray where
  addr : ℕ → ℕ
  last : ℕ
  base : ℕ

/-- The array that the code takes the number of a block from.  There is none when an index block
    that is read on the way is not on the device, or when the loops leave the block out. -/
def Ext2Vol.arrayOf (v : Ext2Vol) (root : Mem) (q : ℕ) : Option IndexArray :=
  if q < 12 then some ⟨root.words, 11, 0⟩
  else
    (v.readIndex (root.words 12)).bind fun single =>
    if q < 12 + v.fan then some ⟨single, v.fan - 1, 12⟩
    else
      (v.readIndex (root.words 13)).bind fun double =>
      if q < v.third then
        let i := (q - (12 + v.fan)) / v.fan
        if ∀ j < i, (v.readIndex (double j)).isSome then
          (v.readIndex (double i)).map fun addr => ⟨addr, v.fan - 1, 12 + v.fan + i * v.fan⟩
        else none
      else if ∀ j < v.fan, (v.readIndex (double j)).isSome then
        (v.readIndex (root.words 14)).bind fun triple =>
        let i := (q - v.third) / (v.fan * v.fan)
        let k := (q - v.third) / v.fan % v.fan
        if i < v.fan - 1 ∧ k < v.fan - 1 then
          (v.readIndex (triple i)).bind fun double =>
          (v.readIndex (double k)).map fun addr =>
            ⟨addr, v.fan - 1, v.third + i * (v.fan * v.fan) + k * v.fan⟩
        else none
      else none

/-- **When a block is right**, in a read from `pos` up to `fin`: where it is a hole, it is read
    whole and filled with zeros, or the zeros are on the disk, at the place that is read for it. -/
def Ext2File.BlockOk (f : Ext2File v) (pos fin q : ℕ) : Prop :=
  ∃ a, v.arrayOf f.root q = some a ∧
    (v.blockPtr f.root q = 0 →
      (pos ≤ q * v.sb.blockSize ∧ (q + 1) * v.sb.blockSize ≤ fin ∧
          v.ZeroFilled a.addr a.last (q - a.base) (fin - q * v.sb.blockSize)) ∨
        ∀ p, pos ≤ p → p < fin → p / v.sb.blockSize = q →
          v.sb.place (a.addr (q - a.base)) + p % v.sb.blockSize < v.devSize ∧
            v.bytes (v.sb.place (a.addr (q - a.base)) + p % v.sb.blockSize) = 0)

theorem filePart_eq (v : Ext2Vol) (root : Mem) (fin p p' : ℕ) :
    v.filePart root fin p p' = (v.arrayOf root (p / v.sb.blockSize)).bind fun a =>
      v.part a.addr a.last a.base fin p p' := by
  rw [Ext2Vol.filePart, Ext2Vol.arrayOf]
  generalize p / v.sb.blockSize = q
  by_cases hdirect : q < 12
  · rw [if_pos hdirect, if_pos hdirect]
    rfl
  · rw [if_neg hdirect, if_neg hdirect, Option.bind_assoc]
    congr 1
    funext single
    by_cases hsingle : q < 12 + v.fan
    · rw [if_pos hsingle, if_pos hsingle]
      rfl
    · rw [if_neg hsingle, if_neg hsingle, Option.bind_assoc]
      congr 1
      funext double
      by_cases hdouble : q < v.third
      · rw [if_pos hdouble, if_pos hdouble]
        dsimp only
        by_cases hbefore : ∀ j < (q - (12 + v.fan)) / v.fan, (v.readIndex (double j)).isSome
        · rw [if_pos hbefore, if_pos hbefore, Option.bind_map]
          rfl
        · rw [if_neg hbefore, if_neg hbefore]
          rfl
      · rw [if_neg hdouble, if_neg hdouble]
        by_cases hbefore : ∀ j < v.fan, (v.readIndex (double j)).isSome
        · rw [if_pos hbefore, if_pos hbefore, Option.bind_assoc]
          congr 1
          funext triple
          dsimp only
          by_cases hloops : (q - v.third) / (v.fan * v.fan) < v.fan - 1 ∧
              (q - v.third) / v.fan % v.fan < v.fan - 1
          · rw [if_pos hloops, if_pos hloops, Option.bind_assoc]
            congr 1
            funext double
            rw [Option.bind_map]
            rfl
          · rw [if_neg hloops, if_neg hloops]
            rfl
        · rw [if_neg hbefore, if_neg hbefore]
          rfl

/-! ## §3 Where there is no hole -/

theorem entry_ne_zero (h : v.entry blk i ≠ 0) : blk ≠ 0 := by
  intro hblk
  rw [Ext2Vol.entry, if_pos hblk] at h
  exact h rfl

/-- A number in an index block that has been read. -/
theorem addr_eq_entry (hread : v.readIndex blk = some addr) (hi : i < v.fan)
    (h : v.entry blk i ≠ 0) : addr i = v.entry blk i := by
  rw [Ext2Vol.entry, if_neg (entry_ne_zero h)]
  rw [Ext2Vol.readIndex] at hread
  split at hread
  · rw [Option.some.injEq] at hread
    rw [← hread]
    exact if_pos hi
  · cases hread

/-- **Where there is no hole**, the code finds the number of the block. -/
theorem arrayOf_addr {a : IndexArray} (h : v.arrayOf root q = some a)
    (hptr : v.blockPtr root q ≠ 0) : a.addr (q - a.base) = v.blockPtr root q := by
  have hfan : 0 < v.fan := by
    have hbounds := (fan_bounds v).2.1
    omega
  rw [Ext2Vol.arrayOf] at h
  rw [Ext2Vol.blockPtr, Ext2Vol.path] at hptr ⊢
  by_cases hdirect : q < 12
  · rw [if_pos hdirect] at h hptr ⊢
    cases h
    rfl
  · rw [if_neg hdirect] at h hptr ⊢
    obtain ⟨single, h12, h⟩ := Option.bind_eq_some_iff.mp h
    by_cases hsingle : q < 12 + v.fan
    · rw [if_pos hsingle] at h hptr ⊢
      cases h
      have hin : q - 12 < v.fan := by omega
      exact addr_eq_entry h12 hin hptr
    · rw [if_neg hsingle] at h hptr ⊢
      obtain ⟨double, h13, h⟩ := Option.bind_eq_some_iff.mp h
      by_cases hdouble : q < v.third
      · rw [if_pos hdouble] at h hptr ⊢
        dsimp only at h hptr ⊢
        generalize hi : q - (12 + v.fan) = i at h hptr ⊢
        have hin : i / v.fan < v.fan := by
          rw [Nat.div_lt_iff_lt_mul hfan]
          rw [Ext2Vol.third] at hdouble
          omega
        by_cases hbefore : ∀ j < i / v.fan, (v.readIndex (double j)).isSome
        · rw [if_pos hbefore] at h
          obtain ⟨addr, haddr, rfl⟩ := Option.map_eq_some_iff.mp h
          have hdiv := Nat.div_add_mod' i v.fan
          have hat : q - (12 + v.fan + i / v.fan * v.fan) = i % v.fan := by omega
          rw [addr_eq_entry h13 hin (entry_ne_zero hptr)] at haddr
          dsimp only
          rw [hat]
          exact addr_eq_entry haddr (Nat.mod_lt _ hfan) hptr
        · rw [if_neg hbefore] at h
          cases h
      · rw [if_neg hdouble] at h hptr ⊢
        by_cases hbefore : ∀ j < v.fan, (v.readIndex (double j)).isSome
        · rw [if_pos hbefore] at h
          obtain ⟨triple, h14, h⟩ := Option.bind_eq_some_iff.mp h
          dsimp only at h hptr ⊢
          obtain ⟨k, hk, hlo, hhi⟩ := third_split v (Nat.le_of_not_lt hdouble)
          have hkey := (third_div hk hlo hhi).2
          rw [hkey] at h hptr ⊢
          by_cases hloops : (q - v.third) / (v.fan * v.fan) < v.fan - 1 ∧ k < v.fan - 1
          · rw [if_pos hloops] at h
            obtain ⟨double', hdouble', h⟩ := Option.bind_eq_some_iff.mp h
            obtain ⟨addr, haddr, rfl⟩ := Option.map_eq_some_iff.mp h
            -- the place in the array is what is left of the number
            have hmod : (q - v.third) % v.fan =
                q - (v.third + (q - v.third) / (v.fan * v.fan) * (v.fan * v.fan) + k * v.fan) := by
              have hone := Nat.div_add_mod' (q - v.third) v.fan
              have htwo := Nat.div_add_mod' ((q - v.third) / v.fan) v.fan
              rw [Nat.div_div_eq_div_mul, hkey] at htwo
              rw [← htwo, Nat.add_mul, Nat.mul_assoc] at hone
              omega
            have hsecond := entry_ne_zero (entry_ne_zero hptr)
            rw [addr_eq_entry h14 (by omega) (entry_ne_zero (entry_ne_zero hptr))] at hdouble'
            rw [addr_eq_entry hdouble' hk (entry_ne_zero hptr)] at haddr
            dsimp only
            rw [← hmod]
            exact addr_eq_entry haddr (Nat.mod_lt _ hfan) hptr
          · rw [if_neg hloops] at h
            cases h
        · rw [if_neg hbefore] at h
          cases h

/-! ## §4 One block -/

theorem slice_eq_map {m : Mem} {offs : ℕ} {g : ℕ → UInt8} :
    m.slice offs n = (List.range' p n).map g ↔ ∀ k < n, m (offs + k) = g (p + k) := by
  induction n generalizing offs p with
  | zero => simp [Mem.slice]
  | succ n ih =>
    rw [Mem.slice, List.range'_succ, List.map_cons, List.cons.injEq, ih]
    constructor
    · rintro ⟨hhead, htail⟩ k hk
      cases k with
      | zero => exact hhead
      | succ k =>
        have hbyte := htail k (by omega)
        rwa [show offs + 1 + k = offs + (k + 1) by omega, show p + 1 + k = p + (k + 1) by omega]
          at hbyte
    · intro hall
      refine ⟨hall 0 (by omega), fun k hk => ?_⟩
      have hbyte := hall (k + 1) (by omega)
      rwa [show offs + (k + 1) = offs + 1 + k by omega, show p + (k + 1) = p + 1 + k by omega]
        at hbyte

/-- An access that gives some bytes. -/
theorem read_eq_map {offs : ℕ} {g : ℕ → UInt8} (hn : 0 < n) :
    v.read offs n = some ((List.range' p n).map g) ↔
      ∀ k < n, offs + k < v.devSize ∧ v.bytes (offs + k) = g (p + k) := by
  rw [Ext2Vol.read]
  by_cases hin : offs + n ≤ v.devSize
  · rw [if_pos hin, Option.some.injEq, slice_eq_map]
    apply forall₂_congr
    intro k hk
    exact (and_iff_right (by omega)).symm
  · rw [if_neg hin]
    refine iff_of_false (Option.some_ne_none _).symm fun hall => hin ?_
    have hlast := (hall (n - 1) (by omega)).1
    omega

variable (f : Ext2File v)

/-- The bytes of one block. -/
theorem byte_eq (hq : p / v.sb.blockSize = q) : f.byte p =
    if v.blockPtr f.root q = 0 then 0
    else v.bytes (v.sb.place (v.blockPtr f.root q) + p % v.sb.blockSize) := by
  rw [Ext2File.byte, hq]

theorem blockPtr_mem (v : Ext2Vol) (root : Mem) (q : ℕ) : v.blockPtr root q ∈ v.path root q := by
  rw [Ext2Vol.blockPtr, Ext2Vol.path]
  by_cases hdirect : q < 12
  · simp [hdirect]
  · by_cases hsingle : q < 12 + v.fan
    · simp [hdirect, hsingle]
    · by_cases hdouble : q < v.third
      · simp [hdirect, hsingle, hdouble]
      · simp [hdirect, hsingle, hdouble]

/-- **One block**: the part of a read that is in a block of the file is right exactly when the block
    is. -/
theorem filePart_eq_iff (hq : q * v.sb.blockSize < f.size) (hp : p = max pos (q * v.sb.blockSize))
    (hp' : p' = min fin ((q + 1) * v.sb.blockSize)) (hlt : p < fin)
    (hpos : pos < (q + 1) * v.sb.blockSize) :
    v.filePart f.root fin p p' = some ((List.range' p (p' - p)).map f.byte) ↔
      f.BlockOk pos fin q := by
  have hbs := v.blockSize_pos
  have hsucc : (q + 1) * v.sb.blockSize = q * v.sb.blockSize + v.sb.blockSize := Nat.succ_mul _ _
  -- the bytes between p and p' are those of the block
  have hblock {k : ℕ} (hk : k < p' - p) :
      (p + k) / v.sb.blockSize = q ∧ (p + k) % v.sb.blockSize = p % v.sb.blockSize + k := by
    have hdiv : (p + k) / v.sb.blockSize = q := by
      apply Nat.div_eq_of_lt_le <;> omega
    have hdiv' : p / v.sb.blockSize = q := by
      apply Nat.div_eq_of_lt_le <;> omega
    have hmod := Nat.div_add_mod' (p + k) v.sb.blockSize
    have hmod' := Nat.div_add_mod' p v.sb.blockSize
    rw [hdiv] at hmod
    rw [hdiv'] at hmod'
    exact ⟨hdiv, by omega⟩
  have hsome : 0 < p' - p := by omega
  have hpq := (hblock hsome).1
  rw [Nat.add_zero] at hpq
  rw [filePart_eq, hpq, Ext2File.BlockOk]
  cases ha : v.arrayOf f.root q with
  | none => simp
  | some a =>
    simp only [Option.bind_some, Option.some.injEq, exists_eq_left']
    rw [Ext2Vol.part, hpq]
    by_cases hhole : v.blockPtr f.root q = 0
    · have hbyte {k : ℕ} (hk : k < p' - p) : f.byte (p + k) = 0 := by
        rw [byte_eq f (hblock hk).1, if_pos hhole]
      by_cases hfill : p % v.sb.blockSize = 0 ∧ p' - p = v.sb.blockSize ∧
          v.ZeroFilled a.addr a.last (q - a.base) (fin - p)
      · rw [if_pos hfill]
        obtain ⟨hmod, hlen, hzeros⟩ := hfill
        have hfirst : p = q * v.sb.blockSize := by
          have hsplit := Nat.div_add_mod' p v.sb.blockSize
          rw [hpq] at hsplit
          omega
        refine iff_of_true ?_ fun _ => .inl ⟨by omega, by omega, ?_⟩
        · rw [Option.some.injEq]
          symm
          rw [List.eq_replicate_iff]
          refine ⟨by rw [List.length_map, List.length_range'], fun b hb => ?_⟩
          obtain ⟨x, hx, rfl⟩ := List.mem_map.mp hb
          obtain ⟨k, hk, rfl⟩ := List.mem_range'.mp hx
          rw [Nat.one_mul]
          exact hbyte hk
        · rwa [hfirst] at hzeros
      · rw [if_neg hfill, read_eq_map hsome]
        constructor
        · intro hall _
          refine .inr fun x hlo hhi hx => ?_
          -- it is at most p' - p bytes behind p
          have hge : q * v.sb.blockSize ≤ x := by
            rw [← hx]
            exact Nat.div_mul_le_self x _
          have hup : x < (q + 1) * v.sb.blockSize := by
            rw [← Nat.div_lt_iff_lt_mul hbs, hx]
            exact Nat.lt_succ_self q
          have hk : x - p < p' - p := by omega
          have hxp : p + (x - p) = x := by omega
          obtain ⟨hdev, hzero⟩ := hall (x - p) hk
          have hmod := (hblock hk).2
          rw [hxp] at hmod
          rw [hbyte hk] at hzero
          rw [hmod, ← Nat.add_assoc]
          exact ⟨hdev, hzero⟩
        · intro hok k hk
          rw [hbyte hk]
          rcases hok hhole with ⟨hlo, hhi, hzeros⟩ | hall
          · refine absurd ⟨?_, by omega, ?_⟩ hfill
            · rw [hp, Nat.max_eq_right hlo, Nat.mul_mod_left]
            · rwa [hp, Nat.max_eq_right hlo]
          · have hread := hall (p + k) (by omega) (by omega) (hblock hk).1
            rwa [(hblock hk).2, ← Nat.add_assoc] at hread
    · -- a block of the file, which is on the device
      have haddr := arrayOf_addr ha hhole
      have hdev := f.onDevice q hq _ (blockPtr_mem v f.root q) hhole
      have hfill : ¬ (p % v.sb.blockSize = 0 ∧ p' - p = v.sb.blockSize ∧
          v.ZeroFilled a.addr a.last (q - a.base) (fin - p)) := by
        rintro ⟨-, -, hzero, -⟩
        exact hhole (haddr.symm.trans hzero)
      rw [if_neg hfill, read_eq_map hsome]
      refine iff_of_true (fun k hk => ?_) fun hzero => absurd hzero hhole
      obtain ⟨hdiv, hmod⟩ := hblock hk
      have hin := Nat.mod_lt (p + k) hbs
      rw [haddr, byte_eq f hdiv, if_neg hhole, hmod, Nat.add_assoc]
      rw [hmod] at hin
      exact ⟨by omega, rfl⟩

/-! ## §5 A whole read -/

theorem length_filePart {x : List UInt8} (h : v.filePart root fin p p' = some x) :
    x.length = p' - p := by
  rw [filePart_eq] at h
  obtain ⟨a, -, hpart⟩ := Option.bind_eq_some_iff.mp h
  exact length_part hpart

/-- **A read** is right exactly when each of its blocks is. -/
theorem reads_eq_iff (hend : pos + n ≤ f.size) :
    v.reads f.root (pos + n) pos = some (f.bytes pos n) ↔
      ∀ p, pos ≤ p → p < pos + n → f.BlockOk pos (pos + n) (p / v.sb.blockSize) := by
  have hbs := v.blockSize_pos
  have hpieces : v.reads f.root (pos + n) pos =
        some ((List.range' pos (pos + n - pos)).map f.byte) ↔
      ∀ p p', PieceOf v.cuts (pos + n) pos p p' →
        v.filePart f.root (pos + n) p p' = some ((List.range' p (p' - p)).map f.byte) :=
    deliver_eq_iff (fun p p' x h => length_filePart h) f.byte
  rw [Nat.add_sub_cancel_left] at hpieces
  rw [Ext2File.bytes, hpieces]
  constructor
  · intro hall x hlo hhi
    have hfloor := Nat.div_mul_le_self x v.sb.blockSize
    have hceil : x < (x / v.sb.blockSize + 1) * v.sb.blockSize :=
      (Nat.div_lt_iff_lt_mul hbs).mp (Nat.lt_succ_self _)
    have hlt : max pos (x / v.sb.blockSize * v.sb.blockSize) < pos + n := by omega
    refine (filePart_eq_iff f (by omega) rfl rfl hlt (by omega)).mp (hall _ _ ?_)
    exact pieceOf_blockCuts.mpr ⟨_, Nat.div_le_div_right hlo, rfl, rfl, hlt⟩
  · intro hall p p' hpiece
    obtain ⟨q, hq, hp, hp', hlt⟩ := pieceOf_blockCuts.mp hpiece
    have hpos : pos < (q + 1) * v.sb.blockSize := by
      rw [← Nat.div_lt_iff_lt_mul hbs]
      omega
    have hdiv : p / v.sb.blockSize = q := by
      have hsucc : (q + 1) * v.sb.blockSize = q * v.sb.blockSize + v.sb.blockSize :=
        Nat.succ_mul _ _
      apply Nat.div_eq_of_lt_le <;> omega
    rw [filePart_eq_iff f (by omega) hp hp' hlt hpos, ← hdiv]
    exact hall p (by omega) hlt

theorem wrap32_eq_iff (hn : n < 4294967296) : wrap32 n = n ↔ n < 2147483648 := by
  constructor
  · intro h
    have hbounds := wrap32_bounds n
    omega
  · intro h
    exact wrap32_of_bounds (by omega) (by omega)

/-- `ext2_read_file0`, when it does not fail. -/
theorem ext2ReadFile0_eq (v : Ext2Vol) (root : Mem) (hfin : pos + n < 4294967296) :
    v.ext2ReadFile0 root n pos =
      match v.reads root (pos + n) pos with
      | none => (0, none)
      | some x => (wrap32 n, some x) := by
  have hspec := readLevels_spec v root hfin (rfl : (⟨some [], n, pos⟩ : ReadState).position +
    (⟨some [], n, pos⟩ : ReadState).size = pos + n)
  dsimp only at hspec
  rw [Ext2Vol.ext2ReadFile0]
  cases hreads : v.reads root (pos + n) pos with
  | none =>
    rw [hreads] at hspec
    rw [show v.readLevels root ⟨some [], n, pos⟩ = .failed from hspec]
  | some x =>
    rw [hreads] at hspec
    rw [show v.readLevels root ⟨some [], n, pos⟩ = .done _ from hspec]
    rfl

/-- **`ext2_read_file0`** on a piece of a file. -/
theorem ext2ReadFile0_eq_iff (hend : pos + n ≤ f.size) :
    v.ext2ReadFile0 f.root n pos = ((n : ℤ), some (f.bytes pos n)) ↔
      n < 2147483648 ∧
        ∀ p, pos ≤ p → p < pos + n → f.BlockOk pos (pos + n) (p / v.sb.blockSize) := by
  have hsize := f.size_lt
  rw [← reads_eq_iff f hend, ext2ReadFile0_eq v f.root (by omega), ← wrap32_eq_iff (by omega)]
  cases v.reads f.root (pos + n) pos with
  | none => simp
  | some x => simp

end Pmon.Fs.Ext2
