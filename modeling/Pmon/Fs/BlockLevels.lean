import Pmon.Fs.BlockRuns

/-!
# The levels of a block map

`ext2_read_file0` goes through the levels of a map one behind the other.  What it reads is what
reading block by block gives, where a block fails when an index block on the way to it cannot be
read, or when it is one that the loops over the third level leave out.

## Key results

- `level_array`: the blocks of one array.
- `readDouble_spec`, `readTriple_spec`: the loops over index blocks.
- `readLevels_spec`: the whole of a read.
-/

namespace Pmon.Fs.Ext2

open Pmon.Lib

variable {v : Ext2Vol} {root : Mem} {addr single double triple : ℕ → ℕ}
  {base e fin hi i k p p' q : ℕ} {st st' : ReadState} {x : List UInt8}

/-! ## §1 Block by block -/

/-- How many numbers a block holds. -/
def Ext2Vol.fan (v : Ext2Vol) : ℕ := v.sb.blockSize / 4

/-- Where the third level begins. -/
def Ext2Vol.third (v : Ext2Vol) : ℕ := 12 + v.fan + v.fan * v.fan

/-- Part of the file, from `p` up to `p'` in one block, when the read ends at `fin`: the index
    blocks that are read on the way, and the array that the number of the block is taken from. -/
def Ext2Vol.filePart (v : Ext2Vol) (root : Mem) (fin p p' : ℕ) : Option (List UInt8) :=
  if p / v.sb.blockSize < 12 then v.part root.words 11 0 fin p p'
  else
    (v.readIndex (root.words 12)).bind fun single =>
    if p / v.sb.blockSize < 12 + v.fan then v.part single (v.fan - 1) 12 fin p p'
    else
      (v.readIndex (root.words 13)).bind fun double =>
      if p / v.sb.blockSize < v.third then
        let i := (p / v.sb.blockSize - (12 + v.fan)) / v.fan
        -- the loop reads the index blocks before this one, too
        if ∀ j < i, (v.readIndex (double j)).isSome then
          (v.readIndex (double i)).bind fun addr =>
            v.part addr (v.fan - 1) (12 + v.fan + i * v.fan) fin p p'
        else none
      else if ∀ j < v.fan, (v.readIndex (double j)).isSome then
        (v.readIndex (root.words 14)).bind fun triple =>
        let i := (p / v.sb.blockSize - v.third) / (v.fan * v.fan)
        let k := (p / v.sb.blockSize - v.third) / v.fan % v.fan
        -- the loops end one turn early
        if i < v.fan - 1 ∧ k < v.fan - 1 then
          (v.readIndex (triple i)).bind fun double =>
          (v.readIndex (double k)).bind fun addr =>
            v.part addr (v.fan - 1) (v.third + i * (v.fan * v.fan) + k * v.fan) fin p p'
        else none
      else none

/-- What is read from a position on. -/
def Ext2Vol.reads (v : Ext2Vol) (root : Mem) (fin pos : ℕ) : Option (List UInt8) :=
  deliver v.cuts (v.filePart root fin) fin pos

theorem fan_bounds (v : Ext2Vol) : v.sb.blockSize = 4 * v.fan ∧ 256 ≤ v.fan ∧ v.fan ≤ 16384 := by
  have hdvd := Nat.mul_div_cancel' v.four_dvd
  have hlo := v.le_blockSize
  have hhi := v.blockSize_le
  rw [Ext2Vol.fan]
  omega

theorem index_lt {blk : ℕ} (h : v.readIndex blk = some addr) :
    ∀ j ≤ v.fan - 1, addr j < 4294967296 := by
  have hfan := (fan_bounds v).2.1
  intro j hj
  rw [Ext2Vol.readIndex] at h
  split at h
  · rw [Option.some.injEq] at h
    have hin : j < v.sb.blockSize / 4 := by
      rw [Ext2Vol.fan] at hfan hj
      omega
    rw [← h]
    dsimp only
    rw [if_pos hin]
    exact Mem.word_lt
  · cases h

/-- The first part fails. -/
theorem reads_none (hlt : p < fin) (h : ∀ p', v.filePart root fin p p' = none) :
    v.reads root fin p = none := by
  rw [Ext2Vol.reads, deliver_of_lt hlt rfl, h]
  rfl

/-! ## §2 The parts of the levels -/

theorem filePart_direct (h : p / v.sb.blockSize < 12) :
    v.filePart root fin p p' = v.part root.words 11 0 fin p p' := by
  rw [Ext2Vol.filePart, if_pos h]

theorem filePart_single (h12 : v.readIndex (root.words 12) = some single)
    (hlo : 12 ≤ p / v.sb.blockSize) (hhi : p / v.sb.blockSize < 12 + v.fan) :
    v.filePart root fin p p' = v.part single (v.fan - 1) 12 fin p p' := by
  rw [Ext2Vol.filePart, if_neg (by omega), h12, Option.bind_some, if_pos hhi]

theorem filePart_double (h12 : v.readIndex (root.words 12) = some single)
    (h13 : v.readIndex (root.words 13) = some double)
    (hbefore : ∀ j < i, (v.readIndex (double j)).isSome)
    (hi : v.readIndex (double i) = some addr) (hin : i < v.fan)
    (hlo : 12 + v.fan + i * v.fan ≤ p / v.sb.blockSize)
    (hhi : p / v.sb.blockSize < 12 + v.fan + i * v.fan + v.fan) :
    v.filePart root fin p p' =
      v.part addr (v.fan - 1) (12 + v.fan + i * v.fan) fin p p' := by
  have hdiv : (p / v.sb.blockSize - (12 + v.fan)) / v.fan = i := by
    apply Nat.div_eq_of_lt_le
    · omega
    · rw [Nat.succ_mul]
      omega
  have hthird : p / v.sb.blockSize < v.third := by
    have hle : (i + 1) * v.fan ≤ v.fan * v.fan := Nat.mul_le_mul_right _ hin
    rw [Nat.succ_mul] at hle
    rw [Ext2Vol.third]
    omega
  rw [Ext2Vol.filePart, if_neg (by omega), h12, Option.bind_some, if_neg (by omega), h13,
    Option.bind_some, if_pos hthird]
  dsimp only
  rw [hdiv, if_pos hbefore, hi, Option.bind_some]

/-- Where a block of the third level is. -/
theorem third_div (hk : k < v.fan)
    (hlo : v.third + i * (v.fan * v.fan) + k * v.fan ≤ q)
    (hhi : q < v.third + i * (v.fan * v.fan) + k * v.fan + v.fan) :
    (q - v.third) / (v.fan * v.fan) = i ∧ (q - v.third) / v.fan % v.fan = k := by
  have hle : (k + 1) * v.fan ≤ v.fan * v.fan := Nat.mul_le_mul_right _ hk
  rw [Nat.succ_mul] at hle
  constructor
  · apply Nat.div_eq_of_lt_le
    · omega
    · rw [Nat.succ_mul]
      omega
  · have hdiv : (q - v.third) / v.fan = i * v.fan + k := by
      apply Nat.div_eq_of_lt_le
      · rw [Nat.add_mul, Nat.mul_assoc]
        omega
      · rw [Nat.succ_mul, Nat.add_mul, Nat.mul_assoc]
        omega
    rw [hdiv, Nat.mul_add_mod_self_right, Nat.mod_eq_of_lt hk]

theorem filePart_triple (h12 : v.readIndex (root.words 12) = some single)
    (h13 : v.readIndex (root.words 13) = some double)
    (hbefore : ∀ j < v.fan, (v.readIndex (double j)).isSome)
    (h14 : v.readIndex (root.words 14) = some triple)
    (hk : k < v.fan) (hlo : v.third + i * (v.fan * v.fan) + k * v.fan ≤ p / v.sb.blockSize)
    (hhi : p / v.sb.blockSize < v.third + i * (v.fan * v.fan) + k * v.fan + v.fan) :
    v.filePart root fin p p' =
      if i < v.fan - 1 ∧ k < v.fan - 1 then
        (v.readIndex (triple i)).bind fun double =>
        (v.readIndex (double k)).bind fun addr =>
          v.part addr (v.fan - 1) (v.third + i * (v.fan * v.fan) + k * v.fan) fin p p'
      else none := by
  obtain ⟨hi, hk'⟩ := third_div hk hlo hhi
  have hthird : v.third ≤ p / v.sb.blockSize := by omega
  have hsingle : 12 + v.fan ≤ v.third := by
    rw [Ext2Vol.third]
    omega
  rw [Ext2Vol.filePart, if_neg (by omega), h12, Option.bind_some, if_neg (by omega), h13,
    Option.bind_some, if_neg (by omega), if_pos hbefore, h14, Option.bind_some]
  dsimp only
  rw [hi, hk']

/-! ## §3 One array -/

/-- A level leaves a read as the parts of the file do: behind its own blocks, done, or failed. -/
def Ext2Vol.LevelOk (v : Ext2Vol) (root : Mem) (fin : ℕ) (l : Level) (st : ReadState) (hi : ℕ) :
    Prop :=
  match l with
  | .failed => v.reads root fin st.position = none
  | .done st' => ∃ x, v.reads root fin st.position = some x ∧ st' = st.store x x.length ∧
      st'.size = 0
  | .more st' => ∃ x, v.reads root fin st.position =
      (v.reads root fin st'.position).map (x ++ ·) ∧ st' = st.store x x.length ∧
      x.length ≤ st.size ∧ st'.size ≠ 0 ∧ hi ≤ st'.position / v.sb.blockSize

/-- One level behind the other. -/
theorem levelOk_trans {l : Level} {hi' : ℕ} (h : v.LevelOk root fin (.more st') st hi)
    (h' : v.LevelOk root fin l st' hi') : v.LevelOk root fin l st hi' := by
  obtain ⟨x, hreads, rfl, hle, -, -⟩ := h
  cases l with
  | failed =>
    rw [Ext2Vol.LevelOk] at h' ⊢
    rw [hreads, h']
    rfl
  | done st'' =>
    obtain ⟨y, hy, rfl, hzero⟩ := h'
    refine ⟨x ++ y, by rw [hreads, hy]; rfl, ?_, hzero⟩
    rw [ReadState.store_store, List.length_append]
  | more st'' =>
    obtain ⟨y, hy, rfl, hle', hne, hhi⟩ := h'
    refine ⟨x ++ y, ?_, ?_, ?_, hne, hhi⟩
    · rw [hreads, hy]
      simp [Function.comp_def]
    · rw [ReadState.store_store, List.length_append]
    · rw [ReadState.store] at hle'
      dsimp only at hle'
      rw [List.length_append]
      omega

/-- Where the next level starts. -/
theorem levelOk_more (h : v.LevelOk root fin (.more st') st hi)
    (hfin : st.position + st.size = fin) :
    st'.position + st'.size = fin ∧ st'.size ≠ 0 ∧ hi ≤ st'.position / v.sb.blockSize := by
  obtain ⟨x, -, rfl, hle, hne, hhi⟩ := h
  refine ⟨?_, hne, hhi⟩
  rw [ReadState.store]
  dsimp only
  omega

/-- The parts of the file that one array gives, and those behind them. -/
theorem reads_array {bound : ℕ} (hbound : (base + e + 1) * v.sb.blockSize = bound)
    (hlo : base ≤ p / v.sb.blockSize) (hhi : p < bound)
    (hpart : ∀ p p', base ≤ p / v.sb.blockSize → p / v.sb.blockSize < base + e + 1 →
      v.filePart root fin p p' = v.part addr e base fin p p') :
    v.reads root fin p = (v.arrayBytes addr e base fin p).bind fun x =>
      (v.reads root fin (min fin bound)).map (x ++ ·) := by
  have hcongr : deliver v.cuts (v.filePart root fin) (min fin bound) p =
      v.arrayBytes addr e base fin p := by
    rw [Ext2Vol.arrayBytes, hbound]
    apply deliver_congr
    intro a a' ha
    obtain ⟨q, hq, rfl, -, hstop⟩ := pieceOf_blockCuts.mp ha
    apply hpart
    · exact le_trans hlo (Nat.div_le_div_right (Nat.le_max_left _ _))
    · rw [Nat.div_lt_iff_lt_mul v.blockSize_pos, hbound]
      omega
  rw [← hcongr]
  rcases Nat.le_total fin bound with hle | hle
  · -- the read ends in the array
    rw [Nat.min_eq_left hle, Ext2Vol.reads, Ext2Vol.reads, deliver_of_le (Nat.le_refl fin)]
    cases deliver v.cuts (v.filePart root fin) fin p <;> simp
  · rw [Nat.min_eq_right hle]
    apply deliver_split _ hle (Nat.le_of_lt hhi)
    rw [← hbound]
    exact isCut_mul _

variable (root) in
/-- How a call for one array ends, when the read starts in front of the end of the array. -/
theorem array_outcome {bound : ℕ} (hbound : (base + e + 1) * v.sb.blockSize = bound)
    (h32 : ∀ i ≤ e, addr i < 4294967296) (hbase : base ≤ st.position / v.sb.blockSize)
    (hfin : st.position + st.size = fin) (hin : st.position < bound)
    (hpart : ∀ p p', base ≤ p / v.sb.blockSize → p / v.sb.blockSize < base + e + 1 →
      v.filePart root fin p p' = v.part addr e base fin p p') {r : Bool × ReadState}
    (hr : v.readFromIndexBlock (st.position / v.sb.blockSize - base) e st addr = r) :
    (r.1 = false ∧ v.reads root fin st.position = none ∧ r.2.size ≠ 0 ∧
        st.position ≤ r.2.position ∧ r.2.position < fin ∧ r.2.position < bound) ∨
      ∃ x, r = (true, st.store x x.length) ∧ x.length = min fin bound - st.position ∧
        v.reads root fin st.position = (v.reads root fin (min fin bound)).map (x ++ ·) := by
  have hspec := readFromIndexBlock_spec h32 hbase hfin
  have hreads := reads_array hbound hbase hin hpart
  rw [hbound, hr] at hspec
  cases hbytes : v.arrayBytes addr e base fin st.position with
  | none =>
    rw [hbytes] at hspec hreads
    obtain ⟨hfailed, hsome, hsum, hle, hlt⟩ := hspec
    exact .inl ⟨hfailed, hreads, by omega, hle, by omega, hlt⟩
  | some x =>
    have hlen : x.length = min fin bound - st.position := by
      rw [Ext2Vol.arrayBytes, hbound] at hbytes
      exact length_deliver (fun p p' x h => length_part h) hbytes
    rw [hbytes] at hspec hreads
    exact .inr ⟨x, hspec, hlen, hreads⟩

variable (root) in
/-- **The blocks of one array** are a level. -/
theorem level_array (h32 : ∀ i ≤ e, addr i < 4294967296)
    (hbase : base ≤ st.position / v.sb.blockSize) (hfin : st.position + st.size = fin)
    (hsize : st.size ≠ 0)
    (hpart : ∀ p p', base ≤ p / v.sb.blockSize → p / v.sb.blockSize < base + e + 1 →
      v.filePart root fin p p' = v.part addr e base fin p p') :
    v.LevelOk root fin (Level.of
      (v.readFromIndexBlock (st.position / v.sb.blockSize - base) e st addr)) st
      (base + e + 1) := by
  have hpos := v.blockSize_pos
  generalize hbound : (base + e + 1) * v.sb.blockSize = bound
  generalize hr : v.readFromIndexBlock (st.position / v.sb.blockSize - base) e st addr = r
  by_cases hin : st.position < bound
  · rcases array_outcome root hbound h32 hbase hfin hin hpart hr with
      ⟨hfailed, hreads, -⟩ | ⟨x, rfl, hlen, hreads⟩
    · rw [← Prod.eta r, hfailed]
      exact hreads
    · have hstore : (st.store x x.length).size = st.size - x.length := rfl
      have hat : (st.store x x.length).position = st.position + x.length := rfl
      have hmin : st.position + x.length = min fin bound := by omega
      rw [Level.of]
      by_cases hdone : (st.store x x.length).size = 0
      · rw [if_pos hdone]
        refine ⟨x, ?_, rfl, hdone⟩
        rw [hreads, Ext2Vol.reads, deliver_of_le (by omega)]
        simp
      · rw [if_neg hdone]
        refine ⟨x, by rw [hreads, hat, hmin], rfl, by omega, hdone, ?_⟩
        rw [hat, Nat.le_div_iff_mul_le hpos, hbound]
        omega
  · -- the read is behind the array
    have hspec := readFromIndexBlock_spec h32 hbase hfin
    rw [arrayBytes_end (by rw [hbound]; omega), hr, Ends, List.length_nil,
      ReadState.store_nil] at hspec
    rw [hspec, Level.of, if_neg hsize]
    refine ⟨[], by simp, (ReadState.store_nil st).symm, Nat.zero_le _, hsize, ?_⟩
    rw [Nat.le_div_iff_mul_le hpos, hbound]
    omega

/-! ## §4 The double index block -/

/-- Behind an index block of the second level that cannot be read. -/
theorem filePart_double_none (hin : i < v.fan) (h13 : v.readIndex (root.words 13) = some double)
    (hi : v.readIndex (double i) = none)
    (hlo : 12 + v.fan + i * v.fan ≤ p / v.sb.blockSize) : v.filePart root fin p p' = none := by
  rw [Ext2Vol.filePart, if_neg (by omega)]
  cases v.readIndex (root.words 12) with
  | none => rfl
  | some single =>
    rw [Option.bind_some, if_neg (by omega), h13, Option.bind_some]
    by_cases hthird : p / v.sb.blockSize < v.third
    · have hle : i ≤ (p / v.sb.blockSize - (12 + v.fan)) / v.fan := by
        rw [Nat.le_div_iff_mul_le (by omega)]
        omega
      rw [if_pos hthird]
      dsimp only
      rcases Nat.eq_or_lt_of_le hle with heq | hlt
      · rw [← heq, hi]
        simp
      · rw [if_neg]
        intro hall
        have hsome := hall i hlt
        rw [hi] at hsome
        cases hsome
    · rw [if_neg hthird, if_neg]
      intro hall
      have hsome := hall i hin
      rw [hi] at hsome
      cases hsome

/-- **The loop over the double index block**. -/
theorem readDouble_spec (h12 : v.readIndex (root.words 12) = some single)
    (h13 : v.readIndex (root.words 13) = some double) (hfin32 : fin < 4294967296)
    (hbefore : ∀ j < i, (v.readIndex (double j)).isSome) (hki : k + i = v.fan)
    (hlo : 12 + v.fan + i * v.fan ≤ st.position / v.sb.blockSize)
    (hfin : st.position + st.size = fin) (hsize : st.size ≠ 0) :
    v.LevelOk root fin (v.readDouble double k i st) st v.third ∧
      ((∃ st', v.readDouble double k i st = .more st') →
        ∀ j < v.fan, (v.readIndex (double j)).isSome) := by
  induction k generalizing i st with
  | zero =>
    obtain rfl : i = v.fan := by omega
    rw [Ext2Vol.readDouble]
    refine ⟨⟨[], by simp, (ReadState.store_nil st).symm, Nat.zero_le _, hsize, hlo⟩, ?_⟩
    exact fun _ => hbefore
  | succ k ih =>
    obtain ⟨hfour, hfanlo, hfanhi⟩ := fan_bounds v
    have hq : st.position / v.sb.blockSize < 4294967296 :=
      lt_of_le_of_lt (Nat.div_le_self _ _) (by omega)
    rw [Ext2Vol.readDouble]
    cases hi : v.readIndex (double i) with
    | none =>
      refine ⟨reads_none (by omega) fun p' => ?_, nofun⟩
      exact filePart_double_none (by omega) h13 hi hlo
    | some addr =>
      have hstart : u32 ((st.position / v.sb.blockSize : ℕ) - 12 -
          (v.sb.blockSize / 4 * (i + 1) : ℕ)) =
          st.position / v.sb.blockSize - (12 + v.fan + i * v.fan) := by
        have hmul : v.sb.blockSize / 4 * (i + 1) = i * v.fan + v.fan := by
          rw [Nat.mul_comm, Nat.succ_mul]
          rfl
        rw [hmul]
        exact u32_of_bounds (by omega) (by omega)
      have hend : 12 + v.fan + i * v.fan + (v.fan - 1) + 1 = 12 + v.fan + (i + 1) * v.fan := by
        rw [Nat.succ_mul]
        omega
      have hlevel := level_array root (index_lt hi) hlo hfin hsize (by
        intro p p' hlo' hhi'
        exact filePart_double h12 h13 hbefore hi (by omega) hlo' (by omega))
      rw [hend] at hlevel
      dsimp only
      rw [hstart, ← Ext2Vol.fan.eq_def]
      cases hcall : Level.of (v.readFromIndexBlock
          (st.position / v.sb.blockSize - (12 + v.fan + i * v.fan)) (v.fan - 1) st addr) with
      | failed =>
        rw [hcall] at hlevel
        exact ⟨hlevel, nofun⟩
      | done st' =>
        rw [hcall] at hlevel
        exact ⟨hlevel, nofun⟩
      | more st' =>
        rw [hcall] at hlevel
        obtain ⟨hfin', hne, hlo'⟩ := levelOk_more hlevel hfin
        have hnext : ∀ j < i + 1, (v.readIndex (double j)).isSome := by
          intro j hj
          rcases Nat.lt_succ_iff_lt_or_eq.mp hj with hlt | rfl
          · exact hbefore j hlt
          · rw [hi]
            rfl
        obtain ⟨hrest, hall⟩ := ih hnext (by omega) hlo' hfin' hne
        exact ⟨levelOk_trans hlevel hrest, hall⟩

/-! ## §5 The triple index block -/

/-- What the levels before the third one need, and the triple index block. -/
structure Ext2Vol.ThirdLevel (v : Ext2Vol) (root : Mem) (triple : ℕ → ℕ) : Prop where
  before : ∃ single double, v.readIndex (root.words 12) = some single ∧
    v.readIndex (root.words 13) = some double ∧
    ∀ j < v.fan, (v.readIndex (double j)).isSome
  index : v.readIndex (root.words 14) = some triple

theorem third_split (v : Ext2Vol) (hq : v.third ≤ q) :
    ∃ k < v.fan, v.third + (q - v.third) / (v.fan * v.fan) * (v.fan * v.fan) + k * v.fan ≤ q ∧
      q < v.third + (q - v.third) / (v.fan * v.fan) * (v.fan * v.fan) + k * v.fan + v.fan := by
  have hpos : 0 < v.fan := by
    have hfan := (fan_bounds v).2.1
    omega
  have hone := Nat.div_add_mod' (q - v.third) v.fan
  have htwo := Nat.div_add_mod' ((q - v.third) / v.fan) v.fan
  have hmod := Nat.mod_lt (q - v.third) hpos
  rw [Nat.div_div_eq_div_mul] at htwo
  refine ⟨(q - v.third) / v.fan % v.fan, Nat.mod_lt _ hpos, ?_⟩
  rw [← htwo, Nat.add_mul, Nat.mul_assoc] at hone
  omega

theorem Ext2Vol.ThirdLevel.filePart (h : v.ThirdLevel root triple) (hk : k < v.fan)
    (hlo : v.third + i * (v.fan * v.fan) + k * v.fan ≤ p / v.sb.blockSize)
    (hhi : p / v.sb.blockSize < v.third + i * (v.fan * v.fan) + k * v.fan + v.fan) :
    v.filePart root fin p p' =
      if i < v.fan - 1 ∧ k < v.fan - 1 then
        (v.readIndex (triple i)).bind fun double =>
        (v.readIndex (double k)).bind fun addr =>
          v.part addr (v.fan - 1) (v.third + i * (v.fan * v.fan) + k * v.fan) fin p p'
      else none := by
  obtain ⟨⟨single, double, h12, h13, hbefore⟩, h14⟩ := h
  exact filePart_triple h12 h13 hbefore h14 hk hlo hhi

/-- A block of the third level, and the next one of an array. -/
theorem third_next (hk : k < v.fan) :
    k * v.fan + v.fan = (k + 1) * v.fan ∧ (k + 1) * v.fan ≤ v.fan * v.fan :=
  ⟨(Nat.succ_mul _ _).symm, Nat.mul_le_mul_right _ hk⟩

/-- **The loop of `ReadFromIndexBlock2`**: the read is done, or it fails and does not get to the
    next block of the triple index. -/
theorem readIndexBlocks2_spec (h : v.ThirdLevel root triple)
    (hdi : v.readIndex (triple i) = some double) (hi : i < v.fan - 1) (hfin32 : fin < 4294967296)
    {n : ℕ} (hnk : n + k = v.fan - 1)
    (hlo : v.third + i * (v.fan * v.fan) + k * v.fan ≤ st.position / v.sb.blockSize)
    (hhi : st.position / v.sb.blockSize <
      v.third + i * (v.fan * v.fan) + k * v.fan + v.fan)
    (hfin : st.position + st.size = fin) (hsize : st.size ≠ 0) :
    ((v.readIndexBlocks2 double n k st).size = 0 ∧
        ∃ x, v.reads root fin st.position = some x ∧
          v.readIndexBlocks2 double n k st = st.store x x.length) ∨
      ((v.readIndexBlocks2 double n k st).size ≠ 0 ∧ v.reads root fin st.position = none ∧
        st.position ≤ (v.readIndexBlocks2 double n k st).position ∧
        (v.readIndexBlocks2 double n k st).position < fin ∧
        (v.readIndexBlocks2 double n k st).position / v.sb.blockSize <
          v.third + (i + 1) * (v.fan * v.fan)) := by
  have hpos := v.blockSize_pos
  have hfan := (fan_bounds v).2.1
  have hq : st.position / v.sb.blockSize < 4294967296 :=
    lt_of_le_of_lt (Nat.div_le_self _ _) (by omega)
  have hsquare : (i + 1) * (v.fan * v.fan) = i * (v.fan * v.fan) + v.fan * v.fan :=
    Nat.succ_mul _ _
  induction n generalizing k st with
  | zero =>
    -- the last block of the index is left out
    obtain ⟨hnext, hle⟩ := third_next (v := v) (k := k) (by omega)
    rw [Ext2Vol.readIndexBlocks2]
    refine .inr ⟨hsize, reads_none (by omega) fun p' => ?_, Nat.le_refl _, by omega, by omega⟩
    rw [h.filePart (by omega) hlo hhi, if_neg (by omega)]
  | succ n ih =>
    obtain ⟨hnext, hle⟩ := third_next (v := v) (k := k) (by omega)
    have hpart (p p' : ℕ)
        (hlo : v.third + i * (v.fan * v.fan) + k * v.fan ≤ p / v.sb.blockSize)
        (hhi : p / v.sb.blockSize < v.third + i * (v.fan * v.fan) + k * v.fan + v.fan) :
        v.filePart root fin p p' = (v.readIndex (double k)).bind fun addr =>
          v.part addr (v.fan - 1) (v.third + i * (v.fan * v.fan) + k * v.fan) fin p p' := by
      rw [h.filePart (by omega) hlo hhi, if_pos (by omega), hdi, Option.bind_some]
    rw [Ext2Vol.readIndexBlocks2]
    cases hk : v.readIndex (double k) with
    | none =>
      dsimp only
      refine .inr ⟨hsize, reads_none (by omega) fun p' => ?_, Nat.le_refl _, by omega, by omega⟩
      rw [hpart _ _ hlo hhi, hk]
      rfl
    | some addr =>
      generalize hbase : v.third + i * (v.fan * v.fan) + k * v.fan = base at hlo hhi hpart
      have hstart : u32 ((st.position / v.sb.blockSize : ℕ) - 12) % (v.sb.blockSize / 4) =
          st.position / v.sb.blockSize - base := by
        have hthird : v.third = 12 + v.fan + v.fan * v.fan := rfl
        have hrows : (1 + v.fan + i * v.fan + k) * v.fan =
            v.fan + v.fan * v.fan + i * (v.fan * v.fan) + k * v.fan := by ring
        have hsplit : st.position / v.sb.blockSize - 12 =
            (1 + v.fan + i * v.fan + k) * v.fan + (st.position / v.sb.blockSize - base) := by
          omega
        have hu : u32 ((st.position / v.sb.blockSize : ℕ) - 12) =
            st.position / v.sb.blockSize - 12 := u32_of_bounds (by omega) (by omega)
        rw [hu, ← Ext2Vol.fan.eq_def, hsplit, Nat.mul_add_mod_self_right]
        exact Nat.mod_eq_of_lt (by omega)
      have hend : base + (v.fan - 1) + 1 = base + v.fan := by omega
      have hin : st.position < (base + v.fan) * v.sb.blockSize := by
        rwa [← Nat.div_lt_iff_lt_mul hpos]
      have hout := array_outcome root (congrArg (· * v.sb.blockSize) hend) (index_lt hk)
        hlo hfin hin (by
          intro p p' hlo' hhi'
          rw [hpart p p' hlo' (by omega), hk, Option.bind_some]) rfl
      dsimp only
      rw [hstart, ← Ext2Vol.fan.eq_def]
      generalize v.readFromIndexBlock (st.position / v.sb.blockSize - base) (v.fan - 1) st addr =
        r at hout ⊢
      rcases hout with ⟨hfailed, hreads, hne, hle', hend', hlt⟩ | ⟨x, rfl, hlen, hreads⟩
      · -- 0 is returned all the same
        obtain ⟨ok, st'⟩ := r
        obtain rfl : ok = false := hfailed
        rw [← Nat.div_lt_iff_lt_mul hpos] at hlt
        exact .inr ⟨hne, hreads, hle', hend', by dsimp only at hlt ⊢; omega⟩
      · have hsize' : (st.store x x.length).size = st.size - x.length := rfl
        have hat : (st.store x x.length).position = st.position + x.length := rfl
        have hmin : st.position + x.length = min fin ((base + v.fan) * v.sb.blockSize) := by omega
        dsimp only
        by_cases hdone : (st.store x x.length).size = 0
        · rw [if_pos hdone]
          refine .inl ⟨hdone, x, ?_, rfl⟩
          rw [hreads, Ext2Vol.reads, deliver_of_le (by omega)]
          simp
        · rw [if_neg hdone]
          have hnextBlock : (st.store x x.length).position / v.sb.blockSize = base + v.fan := by
            rw [hat, hmin, Nat.min_eq_right (by omega), Nat.mul_div_cancel _ hpos]
          rw [← hmin, ← hat] at hreads
          have hq' : (st.store x x.length).position / v.sb.blockSize < 4294967296 :=
            lt_of_le_of_lt (Nat.div_le_self _ _) (by omega)
          rcases ih (k := k + 1) (by omega) (by omega) (by omega) (by omega) hdone hq' with
            ⟨hzero, y, hy, hstore⟩ | ⟨hne, hnone, hle', hend', hlt⟩
          · refine .inl ⟨hzero, x ++ y, by rw [hreads, hy]; rfl, ?_⟩
            rw [hstore, ReadState.store_store, List.length_append]
          · exact .inr ⟨hne, by rw [hreads, hnone]; rfl, by omega, hend', hlt⟩

/-- A read that has not got to the next block of the triple index never does: the index computed
    from its position wraps around. -/
theorem readTriple_stuck (hthird : v.third ≤ st.position / v.sb.blockSize)
    (hlt : st.position / v.sb.blockSize < v.third + i * (v.fan * v.fan))
    (hki : k + i < v.fan) (hsmall : st.position < 4294967296) (hsize : st.size ≠ 0) :
    v.readTriple triple k i st = .failed := by
  obtain ⟨hfour, hfanlo, hfanhi⟩ := fan_bounds v
  induction k generalizing i with
  | zero => rfl
  | succ k ih =>
    rw [Ext2Vol.readTriple]
    cases v.readIndex (triple i) with
    | none => rfl
    | some double =>
      have hsquare : v.fan * v.sb.blockSize / 4 = v.fan * v.fan := by
        rw [hfour, Nat.mul_left_comm, Nat.mul_div_cancel_left _ (by decide)]
      have hrow : v.fan * v.fan * i = i * (v.fan * v.fan) := Nat.mul_comm _ _
      have hcube : i * (v.fan * v.fan) ≤ v.fan * (v.fan * v.fan) :=
        Nat.mul_le_mul_right _ (by omega)
      -- a file this long has small blocks
      have hlong : v.fan * v.fan * (4 * v.fan) ≤ st.position := by
        have hle : v.third * v.sb.blockSize ≤ st.position := by
          rwa [← Nat.le_div_iff_mul_le v.blockSize_pos]
        refine le_trans ?_ hle
        rw [hfour]
        apply Nat.mul_le_mul_right
        rw [Ext2Vol.third]
        omega
      have hlong' : v.fan * v.fan * (4 * v.fan) = 4 * (v.fan * (v.fan * v.fan)) := by ring
      have hroom : v.fan * v.fan * 1 ≤ v.fan * v.fan * v.fan := Nat.mul_le_mul_left _ (by omega)
      have hroom' : v.fan * v.fan * v.fan = v.fan * (v.fan * v.fan) := Nat.mul_assoc _ _ _
      have hthird' : v.third = 12 + v.fan + v.fan * v.fan := rfl
      have hwrap : v.fan * v.fan ≤ u32 ((st.position / v.sb.blockSize : ℕ) - 12 - v.fan -
          (v.fan * v.fan : ℕ) - (v.fan * v.fan * i : ℕ)) := by
        rw [u32, hrow]
        omega
      have hstart : u32 ((st.position / v.sb.blockSize : ℕ) - 12 - v.fan -
          (v.fan * v.fan : ℕ) - (v.fan * v.fan * i : ℕ)) / v.fan > v.fan - 1 := by
        have hdiv := (Nat.le_div_iff_mul_le (by omega)).mpr hwrap
        omega
      dsimp only
      rw [← Ext2Vol.fan.eq_def, hsquare, Ext2Vol.readFromIndexBlock2, if_pos hstart,
        if_neg hsize]
      apply ih (by rw [Nat.succ_mul]; omega) (by omega)

/-- **The loop over the triple index block**. -/
theorem readTriple_spec (h : v.ThirdLevel root triple) (hfin32 : fin < 4294967296)
    (hthird : v.third ≤ st.position / v.sb.blockSize) (hfin : st.position + st.size = fin)
    (hsize : st.size ≠ 0)
    (hidx : (st.position / v.sb.blockSize - v.third) / (v.fan * v.fan) = i) :
    v.LevelOk root fin (v.readTriple triple (v.fan - 1 - i) i st) st hi := by
  obtain ⟨hfour, hfanlo, hfanhi⟩ := fan_bounds v
  obtain ⟨k, hk, hlo, hhi⟩ := third_split v hthird
  rw [hidx] at hlo hhi
  have hq : st.position / v.sb.blockSize < 4294967296 :=
    lt_of_le_of_lt (Nat.div_le_self _ _) (by omega)
  cases hturns : v.fan - 1 - i with
  | zero =>
    rw [Ext2Vol.readTriple]
    refine reads_none (by omega) fun p' => ?_
    rw [h.filePart hk hlo hhi, if_neg (by omega)]
  | succ m =>
    rw [Ext2Vol.readTriple]
    cases hdi : v.readIndex (triple i) with
    | none =>
      refine reads_none (by omega) fun p' => ?_
      rw [h.filePart hk hlo hhi, hdi]
      split <;> rfl
    | some double =>
      have hsquare : v.fan * v.sb.blockSize / 4 = v.fan * v.fan := by
        rw [hfour, Nat.mul_left_comm, Nat.mul_div_cancel_left _ (by decide)]
      have hrow : v.fan * v.fan * i = i * (v.fan * v.fan) := Nat.mul_comm _ _
      have hthird' : v.third = 12 + v.fan + v.fan * v.fan := rfl
      have hu : u32 ((st.position / v.sb.blockSize : ℕ) - 12 - v.fan -
          (v.fan * v.fan : ℕ) - (v.fan * v.fan * i : ℕ)) =
          st.position / v.sb.blockSize - (v.third + i * (v.fan * v.fan)) :=
        u32_of_bounds (by omega) (by omega)
      have hstart : (st.position / v.sb.blockSize - (v.third + i * (v.fan * v.fan))) / v.fan =
          k := by
        apply Nat.div_eq_of_lt_le
        · omega
        · rw [Nat.succ_mul]
          omega
      have hspec := readIndexBlocks2_spec h hdi (by omega) hfin32 (n := v.fan - 1 - k) (by omega)
        hlo hhi hfin hsize
      have hbook : v.readFromIndexBlock2 k (v.fan - 1) st double =
          v.readIndexBlocks2 double (v.fan - 1 - k) k st := by
        rw [Ext2Vol.readFromIndexBlock2, if_neg (by omega)]
      dsimp only
      rw [← Ext2Vol.fan.eq_def, hsquare, hu, hstart, hbook]
      rcases hspec with ⟨hzero, x, hx, hstore⟩ | ⟨hne, hnone, hle, hend, hlt⟩
      · rw [if_pos hzero]
        exact ⟨x, hx, hstore, hzero⟩
      · rw [if_neg hne, readTriple_stuck (le_trans hthird (Nat.div_le_div_right hle)) hlt
          (by omega) (by omega) hne]
        exact hnone

/-! ## §6 All levels -/

/-- The four levels, where there is something to read. -/
theorem levelOk_readLevels (root : Mem) (hi : ℕ) (hfin32 : fin < 4294967296)
    (hfin : st.position + st.size = fin) (hsize : st.size ≠ 0) :
    v.LevelOk root fin (v.readLevels root st) st hi := by
  obtain ⟨hfour, hfanlo, hfanhi⟩ := fan_bounds v
  have hq {st' : ReadState} (hfin' : st'.position + st'.size = fin) :
      st'.position / v.sb.blockSize < 4294967296 :=
    lt_of_le_of_lt (Nat.div_le_self _ _) (by omega)
  -- the blocks of the inode
  have hdirect : v.LevelOk root fin (Level.of
      (v.readFromIndexBlock (st.position / v.sb.blockSize - 0) 11 st root.words)) st (0 + 11 + 1) :=
    level_array root (fun i _ => Mem.word_lt) (Nat.zero_le _) hfin hsize
      (fun p p' _ hhi => filePart_direct hhi)
  rw [Nat.sub_zero] at hdirect
  rw [Ext2Vol.readLevels]
  dsimp only
  cases hcall : Level.of (v.readFromIndexBlock (st.position / v.sb.blockSize) 11 st root.words) with
  | failed =>
    rw [hcall] at hdirect
    exact hdirect
  | done st1 =>
    rw [hcall] at hdirect
    exact hdirect
  | more st1 =>
    rw [hcall] at hdirect
    obtain ⟨hfin1, hsize1, hlo1⟩ := levelOk_more hdirect hfin
    apply levelOk_trans hdirect
    clear hcall hdirect
    cases h12 : v.readIndex (root.words 12) with
    | none =>
      refine reads_none (by omega) fun p' => ?_
      rw [Ext2Vol.filePart, if_neg (by omega), h12]
      rfl
    | some single =>
      -- the single index block
      have hsingle := level_array root (index_lt h12) hlo1 hfin1 hsize1
        (fun p p' hlo hhi => filePart_single h12 hlo (by omega))
      have hend : 12 + (v.fan - 1) + 1 = 12 + v.fan := by omega
      have hq1 := hq hfin1
      have hstart : u32 ((st1.position / v.sb.blockSize : ℕ) - 12) =
          st1.position / v.sb.blockSize - 12 := u32_of_bounds (by omega) (by omega)
      rw [Nat.zero_add, hend] at hsingle
      dsimp only
      rw [hstart, ← Ext2Vol.fan.eq_def]
      cases hcall : Level.of (v.readFromIndexBlock (st1.position / v.sb.blockSize - 12)
          (v.fan - 1) st1 single) with
      | failed =>
        rw [hcall] at hsingle
        exact hsingle
      | done st2 =>
        rw [hcall] at hsingle
        exact hsingle
      | more st2 =>
        rw [hcall] at hsingle
        obtain ⟨hfin2, hsize2, hlo2⟩ := levelOk_more hsingle hfin1
        apply levelOk_trans hsingle
        clear hcall hsingle
        dsimp only
        cases h13 : v.readIndex (root.words 13) with
        | none =>
          refine reads_none (by omega) fun p' => ?_
          rw [Ext2Vol.filePart, if_neg (by omega), h12, Option.bind_some, if_neg (by omega), h13]
          rfl
        | some double =>
          obtain ⟨hdouble, hall⟩ := readDouble_spec (i := 0) h12 h13 hfin32 (by omega)
            (Nat.add_zero v.fan) (by omega) hfin2 hsize2
          dsimp only
          cases hcall : v.readDouble double v.fan 0 st2 with
          | failed =>
            rw [hcall] at hdouble
            exact hdouble
          | done st3 =>
            rw [hcall] at hdouble
            exact hdouble
          | more st3 =>
            rw [hcall] at hdouble
            obtain ⟨hfin3, hsize3, hlo3⟩ := levelOk_more hdouble hfin2
            have hbefore := hall ⟨st3, hcall⟩
            have hthird : v.third = 12 + v.fan + v.fan * v.fan := rfl
            apply levelOk_trans hdouble
            clear hcall hdouble
            dsimp only
            cases h14 : v.readIndex (root.words 14) with
            | none =>
              refine reads_none (by omega) fun p' => ?_
              rw [Ext2Vol.filePart, if_neg (by omega), h12, Option.bind_some, if_neg (by omega),
                h13, Option.bind_some, if_neg (by omega), if_pos hbefore, h14]
              rfl
            | some triple =>
              have hq3 := hq hfin3
              have hsquare : v.fan * v.sb.blockSize / 4 = v.fan * v.fan := by
                rw [hfour, Nat.mul_left_comm, Nat.mul_div_cancel_left _ (by decide)]
              have hfirst : u32 ((st3.position / v.sb.blockSize : ℕ) - 12 - v.fan -
                  (v.fan * v.fan : ℕ)) = st3.position / v.sb.blockSize - v.third :=
                u32_of_bounds (by omega) (by omega)
              dsimp only
              rw [hsquare, hfirst]
              exact readTriple_spec ⟨⟨single, double, h12, h13, hbefore⟩, h14⟩ hfin32 hlo3 hfin3
                hsize3 rfl

/-- **A whole read**: what is stored is what the blocks of the file give one by one, and 0 is
    returned when one of them fails. -/
theorem readLevels_spec (v : Ext2Vol) (root : Mem) (hfin32 : fin < 4294967296)
    (hfin : st.position + st.size = fin) :
    match v.reads root fin st.position with
    | none => v.readLevels root st = .failed
    | some x => v.readLevels root st = .done (st.store x x.length) := by
  by_cases hsize : st.size = 0
  · -- the first level finds nothing to read
    have hspec : Ends (v.readFromIndexBlock (st.position / v.sb.blockSize - 0) 11 st root.words) st
        ((0 + 11 + 1) * v.sb.blockSize) (v.arrayBytes root.words 11 0 fin st.position) :=
      readFromIndexBlock_spec (fun i _ => Mem.word_lt) (Nat.zero_le _) hfin
    rw [Ext2Vol.arrayBytes, deliver_of_le (by omega), Ends, List.length_nil, ReadState.store_nil,
      Nat.sub_zero] at hspec
    rw [Ext2Vol.reads, deliver_of_le (by omega), Ext2Vol.readLevels]
    dsimp only
    rw [hspec, Level.of, if_pos hsize, List.length_nil, ReadState.store_nil]
  · cases hl : v.readLevels root st with
    | failed =>
      have hok := levelOk_readLevels (v := v) root 0 hfin32 hfin hsize
      rw [hl] at hok
      rw [show v.reads root fin st.position = none from hok]
    | done st' =>
      have hok := levelOk_readLevels (v := v) root 0 hfin32 hfin hsize
      rw [hl] at hok
      obtain ⟨x, hx, rfl, -⟩ := hok
      rw [hx]
    | more st' =>
      -- there is no end of the map that it could be behind
      have hok := levelOk_readLevels (v := v) root (st'.position / v.sb.blockSize + 1)
        hfin32 hfin hsize
      rw [hl] at hok
      obtain ⟨-, -, hbehind⟩ := levelOk_more hok hfin
      omega

end Pmon.Fs.Ext2
