import Pmon.Fs.DevioRuns

/-!
# Windows of raw devices

What `devio_open` makes of a window, which bytes `devio_write` asks the device to write, and where a
transfer that fails leaves the offset.

## Key results

- `transfer_failed`: a transfer that fails has moved the offset, unless it fails in its first turn
  and at the start of a block.
- `writeAsked_inside`: a write that is served stays in its window exactly when its blocks do.
- `devioWindow_exact`: in which runs nothing goes wrong.
-/

namespace Pmon.Fs

open Pmon.Lib Pmon.Libc

/-! ## §1 Accesses -/

/-- Where a turn starts: at the block of the offset. -/
def turnStart (offs : ℤ) : ℤ := offs - suboffs offs

/-- How long the accesses of a turn are. -/
def turnLen (offs : ℤ) (leftlen : ℕ) : ℕ :=
  if bounces offs leftlen then devBsize else chunk offs leftlen

/-- The accesses of a turn: `k` of them through the bounce buffer, which are one to read and two to
    write. -/
def accesses (k : ℕ) (offs : ℤ) (leftlen : ℕ) : ℕ := if bounces offs leftlen then k else 1

/-- A range of the device: it starts at 0, and ends before an `off_t` does. -/
def OnDevice (start : ℤ) (len : ℕ) : Prop := 0 ≤ start ∧ start + len < 9223372036854775808

instance (start : ℤ) (len : ℕ) : Decidable (OnDevice start len) :=
  inferInstanceAs (Decidable (_ ∧ _))

/-- The device serves the accesses of a turn. -/
def TurnServed (k : ℕ) (faults : ℕ → Option Mem) (offs : ℤ) (leftlen : ℕ) : Prop :=
  (∀ i < accesses k offs leftlen, (faults i).isNone) ∧
    OnDevice (turnStart offs) (turnLen offs leftlen)

instance (k : ℕ) (faults : ℕ → Option Mem) (offs : ℤ) (leftlen : ℕ) :
    Decidable (TurnServed k faults offs leftlen) :=
  inferInstanceAs (Decidable (_ ∧ _))

/-- The faults to come behind a turn. -/
def later (k : ℕ) (faults : ℕ → Option Mem) (offs : ℤ) (leftlen : ℕ) (i : ℕ) : Option Mem :=
  faults (i + accesses k offs leftlen)

/-- The device serves all turns of a transfer. -/
def Served (k : ℕ) (faults : ℕ → Option Mem) (offs : ℤ) (leftlen : ℕ) : Prop :=
  if leftlen = 0 then True
  else TurnServed k faults offs leftlen ∧
    Served k (later k faults offs leftlen) (offs + chunk offs leftlen)
      (leftlen - chunk offs leftlen)
termination_by leftlen
decreasing_by
  have hpos := chunk_pos offs ‹¬leftlen = 0›
  omega

/-- Whether a transfer succeeds, and where it leaves the offset. -/
def transfer (k : ℕ) (faults : ℕ → Option Mem) (offs : ℤ) (leftlen : ℕ) : Bool × ℤ :=
  if leftlen = 0 then (true, offs)
  else if TurnServed k faults offs leftlen then
    transfer k (later k faults offs leftlen) (offs + chunk offs leftlen)
      (leftlen - chunk offs leftlen)
  else (false, turnStart offs)
termination_by leftlen
decreasing_by
  have hpos := chunk_pos offs ‹¬leftlen = 0›
  omega

variable {s s' : Devio} {buf : List UInt8} {k leftlen n : ℕ} {offs : ℤ} {faults : ℕ → Option Mem}

/-! ## §2 Where a transfer ends -/

theorem transfer_served : (transfer k faults offs leftlen).1 = true ↔
    Served k faults offs leftlen := by
  fun_induction transfer k faults offs leftlen with
  | case1 => simp [Served]
  | case2 faults offs leftlen hleft hserved ih =>
    rw [Served, if_neg hleft, ih]
    simp [hserved]
  | case3 faults offs leftlen hleft hserved =>
    rw [Served, if_neg hleft]
    simp [hserved]

theorem turnStart_le (offs : ℤ) : turnStart offs ≤ offs := by
  unfold turnStart
  omega

theorem not_bounces (h : ¬ bounces offs leftlen = true) :
    offs % devBsize = 0 ∧ devBsize ≤ leftlen := by
  simp only [bounces, Bool.decide_or, Bool.or_eq_true, decide_eq_true_eq, not_or] at h
  omega

/-- A turn that leaves something ends at the end of a block. -/
theorem chunk_end (hleft : chunk offs leftlen < leftlen) :
    (offs + chunk offs leftlen) % devBsize = 0 := by
  have hsub := suboffs_eq offs
  have hlt := suboffs_lt offs
  by_cases hbounce : bounces offs leftlen = true
  · rw [chunk, if_pos hbounce] at hleft ⊢
    simp only [devBsize] at *
    omega
  · obtain ⟨haligned, hlong⟩ := not_bounces hbounce
    rw [chunk, if_neg hbounce] at hleft ⊢
    by_cases hodd : leftlen % devBsize ≠ 0
    · rw [if_pos hodd]
      simp only [devBsize, maxphys] at *
      omega
    · rw [if_neg hodd] at hleft ⊢
      simp only [devBsize, maxphys] at *
      omega

/-- Where something is left behind a turn, the next block starts. -/
theorem turnStart_next (hleft : chunk offs leftlen < leftlen) :
    turnStart (offs + chunk offs leftlen) = offs + chunk offs leftlen := by
  have hsub := suboffs_eq (offs + chunk offs leftlen)
  have hend := chunk_end hleft
  unfold turnStart
  omega

/-- A transfer that fails ends at a block that is not in front of the one it starts in. -/
theorem le_transfer : turnStart offs ≤ (transfer k faults offs leftlen).2 := by
  fun_induction transfer k faults offs leftlen with
  | case1 offs => exact turnStart_le _
  | case2 faults offs leftlen hleft hserved ih =>
    have hpos := chunk_pos offs hleft
    have hlt := suboffs_lt (offs + chunk offs leftlen)
    have hstart := turnStart_le offs
    by_cases hrest : chunk offs leftlen < leftlen
    · rw [turnStart_next hrest] at ih
      omega
    · -- nothing is left
      have hzero : leftlen - chunk offs leftlen = 0 := by omega
      rw [hzero, transfer, if_pos rfl]
      dsimp only
      omega
  | case3 => exact Int.le_refl _

/-- **Failures**: the offset is where it was exactly when the first turn fails, at the start of a
    block. -/
theorem transfer_failed (h : ¬ Served k faults offs leftlen) :
    (transfer k faults offs leftlen).2 = offs ↔
      ¬ TurnServed k faults offs leftlen ∧ suboffs offs = 0 := by
  have hleft : leftlen ≠ 0 := by
    rintro rfl
    rw [Served, if_pos rfl] at h
    exact h trivial
  rw [transfer, if_neg hleft]
  by_cases hserved : TurnServed k faults offs leftlen
  · rw [if_pos hserved]
    apply iff_of_false _ (fun hfirst => hfirst.1 hserved)
    have hpos := chunk_pos offs hleft
    have hrest : chunk offs leftlen < leftlen := by
      -- a transfer of one turn would be served
      by_contra hdone
      rw [Served, if_neg hleft] at h
      apply h
      refine ⟨hserved, ?_⟩
      have hzero : leftlen - chunk offs leftlen = 0 := by omega
      rw [hzero, Served, if_pos rfl]
      trivial
    have hle : turnStart (offs + chunk offs leftlen) ≤
        (transfer k (later k faults offs leftlen) (offs + chunk offs leftlen)
          (leftlen - chunk offs leftlen)).2 := le_transfer
    rw [turnStart_next hrest] at hle
    omega
  · rw [if_neg hserved]
    unfold turnStart
    constructor
    · intro heq
      exact ⟨hserved, by dsimp only at heq; omega⟩
    · rintro ⟨-, hsub⟩
      dsimp only
      omega

/-! ## §3 The loops as transfers -/

theorem readDevice_cases (n : ℕ) (s : Devio) :
    (((s.disk.faults 0).isNone ∧ OnDevice s.offs n) ∧
      ∃ bytes disk, readDevice n s = (some bytes, { s with disk }) ∧
        disk.faults = fun i => s.disk.faults (i + 1)) ∨
    (¬ ((s.disk.faults 0).isNone ∧ OnDevice s.offs n) ∧
      ∃ disk, readDevice n s = (none, { s with disk })) := by
  unfold readDevice Disk.access OnDevice
  rcases hfault : s.disk.faults 0 with _ | content
  · by_cases hin : 0 ≤ s.offs ∧ s.offs + n < 9223372036854775808
    · left
      simp only [hin, Option.isNone_none, and_self, decide_true, if_true, true_and]
      exact ⟨_, _, rfl, rfl⟩
    · right
      simp only [hin, and_false, not_false_eq_true, decide_false, Bool.false_eq_true, if_false,
        true_and]
      exact ⟨_, rfl⟩
  · right
    simp only [Option.isNone_some, Bool.false_eq_true, false_and, not_false_eq_true, if_false,
      true_and]
    exact ⟨_, rfl⟩

theorem writeDevice_cases (bs : List UInt8) (s : Devio) :
    (((s.disk.faults 0).isNone ∧ OnDevice s.offs bs.length) ∧
      ∃ disk, writeDevice bs s = (true, { s with disk }) ∧
        disk.faults = fun i => s.disk.faults (i + 1)) ∨
    (¬ ((s.disk.faults 0).isNone ∧ OnDevice s.offs bs.length) ∧
      ∃ disk, writeDevice bs s = (false, { s with disk })) := by
  unfold writeDevice Disk.access OnDevice
  rcases hfault : s.disk.faults 0 with _ | content
  · by_cases hin : 0 ≤ s.offs ∧ s.offs + bs.length < 9223372036854775808
    · left
      simp only [hin, Option.isNone_none, and_self, decide_true, if_true, true_and]
      exact ⟨_, rfl, rfl⟩
    · right
      simp only [hin, and_false, not_false_eq_true, decide_false, Bool.false_eq_true, if_false,
        true_and]
      exact ⟨_, rfl⟩
  · right
    simp only [Option.isNone_some, Bool.false_eq_true, false_and, not_false_eq_true, if_false,
      true_and]
    exact ⟨_, rfl⟩

/-- The block of the offset is read, or not. -/
theorem readBlock_cases (s : Devio) :
    (((s.disk.faults 0).isNone ∧ OnDevice (turnStart s.offs) devBsize) ∧
      ∃ block disk, readDevice devBsize { s with offs := s.offs - suboffs s.offs } =
          (some block, { s with offs := turnStart s.offs, disk }) ∧
        disk.faults = fun i => s.disk.faults (i + 1)) ∨
    (¬ ((s.disk.faults 0).isNone ∧ OnDevice (turnStart s.offs) devBsize) ∧
      ∃ disk, readDevice devBsize { s with offs := s.offs - suboffs s.offs } =
        (none, { s with offs := turnStart s.offs, disk })) :=
  readDevice_cases devBsize { s with offs := s.offs - suboffs s.offs }

theorem turnStart_plain (h : ¬ bounces offs leftlen = true) : turnStart offs = offs := by
  have hsub := suboffs_eq offs
  have haligned := (not_bounces h).1
  unfold turnStart
  omega

/-- **A turn of the loop of `devio_read`**, as the device serves it. -/
theorem readTurn_cases (leftlen : ℕ) (s : Devio) :
    (TurnServed 1 s.disk.faults s.offs leftlen ∧ ∃ bytes s', readTurn leftlen s = (some bytes, s') ∧
      s'.offs = s.offs + chunk s.offs leftlen ∧
        s'.disk.faults = later 1 s.disk.faults s.offs leftlen) ∨
    (¬ TurnServed 1 s.disk.faults s.offs leftlen ∧ ∃ s', readTurn leftlen s = (none, s') ∧
      s'.offs = turnStart s.offs) := by
  unfold TurnServed accesses turnLen
  unfold readTurn
  dsimp only
  by_cases hbounce : bounces s.offs leftlen = true
  · simp only [hbounce, if_true, Nat.lt_one_iff, forall_eq]
    rcases readBlock_cases s with
      ⟨hserved, bytes, disk, hread, hfaults⟩ | ⟨hfailed, disk, hread⟩
    · left
      rw [hread]
      refine ⟨hserved, _, _, rfl, ?_, ?_⟩
      · dsimp only
        unfold turnStart
        omega
      · funext i
        simp only [hfaults, later, accesses, hbounce, if_true]
    · right
      rw [hread]
      exact ⟨hfailed, _, rfl, rfl⟩
  · have hsub := turnStart_plain hbounce
    simp only [hbounce, Bool.false_eq_true, if_false, Nat.lt_one_iff, forall_eq, hsub]
    rcases readDevice_cases (chunk s.offs leftlen) s with
      ⟨hserved, bytes, disk, hread, hfaults⟩ | ⟨hfailed, disk, hread⟩
    · left
      rw [hread]
      refine ⟨hserved, _, _, rfl, rfl, ?_⟩
      funext i
      simp only [hfaults, later, accesses, hbounce, Bool.false_eq_true, if_false]
    · right
      rw [hread]
      exact ⟨hfailed, _, rfl, rfl⟩

/-- What a turn of the loop of `devio_write` asks the device to write: nothing when the block that
    it changes is not read. -/
def turnAsked (buf : List UInt8) (s : Devio) : List (ℤ × ℕ) :=
  let n := chunk s.offs buf.length
  if bounces s.offs buf.length then
    match readDevice devBsize { s with offs := s.offs - suboffs s.offs } with
    | (none, _) => []
    | (some _, s) => [(s.offs, devBsize)]
  else
    [(s.offs, n)]

/-- What `devio_write` asks the device to write. -/
def writeAsked (buf : List UInt8) (s : Devio) : List (ℤ × ℕ) :=
  if buf = [] then []
  else
    turnAsked buf s ++
      match writeTurn buf s with
      | (false, _) => []
      | (true, s') => writeAsked (buf.drop (chunk s.offs buf.length)) s'
termination_by buf.length
decreasing_by
  have hlen : buf.length ≠ 0 := fun h => ‹¬buf = []› (List.eq_nil_of_length_eq_zero h)
  have hpos := chunk_pos s.offs hlen
  rw [List.length_drop]
  omega

/-- The block that a turn changes cannot be read. -/
def NotRead (faults : ℕ → Option Mem) (offs : ℤ) (leftlen : ℕ) : Prop :=
  bounces offs leftlen = true ∧ ¬ ((faults 0).isNone ∧ OnDevice (turnStart offs) devBsize)

instance (faults : ℕ → Option Mem) (offs : ℤ) (leftlen : ℕ) :
    Decidable (NotRead faults offs leftlen) :=
  inferInstanceAs (Decidable (_ ∧ ¬ (_ ∧ _)))

theorem turnAsked_eq (buf : List UInt8) (s : Devio) :
    turnAsked buf s = if NotRead s.disk.faults s.offs buf.length then []
      else [(turnStart s.offs, turnLen s.offs buf.length)] := by
  unfold turnAsked NotRead turnLen
  dsimp only
  by_cases hbounce : bounces s.offs buf.length = true
  · simp only [hbounce, if_true, true_and]
    rcases readBlock_cases s with
      ⟨hserved, bytes, disk, hread, -⟩ | ⟨hfailed, disk, hread⟩
    · rw [hread, if_neg (fun h => h hserved)]
    · rw [hread, if_pos hfailed]
  · have hsub := turnStart_plain hbounce
    simp [hbounce, hsub]

/-- **A turn of the loop of `devio_write`**, as the device serves it. -/
theorem writeTurn_cases (buf : List UInt8) (s : Devio) :
    (TurnServed 2 s.disk.faults s.offs buf.length ∧ ∃ s', writeTurn buf s = (true, s') ∧
      s'.offs = s.offs + chunk s.offs buf.length ∧
        s'.disk.faults = later 2 s.disk.faults s.offs buf.length) ∨
    (¬ TurnServed 2 s.disk.faults s.offs buf.length ∧ ∃ s', writeTurn buf s = (false, s') ∧
      s'.offs = turnStart s.offs) := by
  have hchunk := chunk_le s.offs buf.length
  unfold TurnServed accesses turnLen
  unfold writeTurn
  dsimp only
  by_cases hbounce : bounces s.offs buf.length = true
  · simp only [hbounce, if_true, if_pos (chunk_short hbounce)]
    have htwo : (∀ i < 2, (s.disk.faults i).isNone = true) ↔
        (s.disk.faults 0).isNone ∧ (s.disk.faults 1).isNone := by
      constructor
      · intro h
        exact ⟨h 0 (by omega), h 1 (by omega)⟩
      · rintro ⟨h0, h1⟩ i hi
        obtain rfl | rfl : i = 0 ∨ i = 1 := by omega
        · exact h0
        · exact h1
    rw [htwo]
    rcases readBlock_cases s with
      ⟨⟨hfault, hin⟩, block, disk, hread, hfaults⟩ | ⟨hfailed, disk, hread⟩
    · rw [hread]
      simp only [Bool.not_true, Bool.false_eq_true, if_false]
      generalize hnew : ((s.lbuff.store 0 block).store (suboffs s.offs)
        (buf.take (chunk s.offs buf.length))) = lbuff
      have hlen : (lbuff.slice 0 devBsize).length = devBsize := Mem.length_slice ..
      rcases writeDevice_cases (lbuff.slice 0 devBsize)
        { s with offs := turnStart s.offs, lbuff, disk } with
        ⟨⟨hfault', hin'⟩, disk', hwrite, hfaults'⟩ | ⟨hfailed, disk', hwrite⟩
      · left
        rw [hwrite]
        dsimp only at hfault'
        rw [hfaults] at hfault'
        refine ⟨⟨⟨hfault, hfault'⟩, hin⟩, _, rfl, ?_, ?_⟩
        · dsimp only
          unfold turnStart
          omega
        · funext i
          simp only [hfaults', hfaults, later, accesses, hbounce, if_true]
      · right
        rw [hwrite]
        refine ⟨?_, _, rfl, rfl⟩
        rintro ⟨⟨-, hfault'⟩, -⟩
        apply hfailed
        refine ⟨?_, ?_⟩
        · dsimp only
          rw [hfaults]
          exact hfault'
        · rw [hlen]
          exact hin
    · right
      rw [hread]
      refine ⟨fun h => hfailed ⟨h.1.1, h.2⟩, _, rfl, rfl⟩
  · have hsub := turnStart_plain hbounce
    have hlen : (buf.take (chunk s.offs buf.length)).length = chunk s.offs buf.length := by
      rw [List.length_take]
      omega
    have hwrite := writeDevice_cases (buf.take (chunk s.offs buf.length)) s
    rw [hlen] at hwrite
    simp only [hbounce, Bool.false_eq_true, if_false, Nat.lt_one_iff, forall_eq, hsub]
    rcases hwrite with ⟨hserved, disk, hwrite, hfaults⟩ | ⟨hfailed, disk, hwrite⟩
    · left
      rw [hwrite]
      refine ⟨hserved, _, rfl, rfl, ?_⟩
      funext i
      simp only [hfaults, later, accesses, hbounce, Bool.false_eq_true, if_false]
    · right
      rw [hwrite]
      exact ⟨hfailed, _, rfl, rfl⟩

/-- **The loop of `devio_read`** ends as the transfer does. -/
theorem readLoop_transfer (leftlen : ℕ) (s : Devio) (buf : List UInt8) :
    ((readLoop leftlen s buf).1 = .error .device ↔
      (transfer 1 s.disk.faults s.offs leftlen).1 = false) ∧
      (readLoop leftlen s buf).2.offs = (transfer 1 s.disk.faults s.offs leftlen).2 := by
  fun_induction readLoop leftlen s buf with
  | case1 s buf =>
    rw [transfer, if_pos rfl]
    simp
  | case2 leftlen s buf hleft s' hturn =>
    rw [transfer, if_neg hleft]
    rcases readTurn_cases leftlen s with ⟨-, bytes, s₁, hread, -⟩ | ⟨hfailed, s₁, hread, hoffs⟩
    · rw [hturn] at hread
      cases hread
    · rw [hturn] at hread
      cases hread
      rw [if_neg hfailed]
      exact ⟨by simp, hoffs⟩
  | case3 leftlen s buf hleft bytes s' hturn ih =>
    rw [transfer, if_neg hleft]
    rcases readTurn_cases leftlen s with
      ⟨hserved, bytes', s₁, hread, hoffs, hfaults⟩ | ⟨-, s₁, hread, -⟩
    · rw [hturn] at hread
      cases hread
      rw [if_pos hserved]
      rwa [hoffs, hfaults] at ih
    · rw [hturn] at hread
      cases hread

/-- **The loop of `devio_write`** ends as the transfer does. -/
theorem writeLoop_transfer (buf : List UInt8) (s : Devio) :
    ((writeLoop buf s).1 = .error .device ↔
      (transfer 2 s.disk.faults s.offs buf.length).1 = false) ∧
      (writeLoop buf s).2.offs = (transfer 2 s.disk.faults s.offs buf.length).2 := by
  fun_induction writeLoop buf s with
  | case1 s =>
    rw [List.length_nil, transfer, if_pos rfl]
    simp
  | case2 buf s hbuf s' hturn =>
    have hleft : buf.length ≠ 0 := fun h => hbuf (List.eq_nil_of_length_eq_zero h)
    rw [transfer, if_neg hleft]
    rcases writeTurn_cases buf s with ⟨-, s₁, hwrite, -⟩ | ⟨hfailed, s₁, hwrite, hoffs⟩
    · rw [hturn] at hwrite
      cases hwrite
    · rw [hturn] at hwrite
      cases hwrite
      rw [if_neg hfailed]
      exact ⟨by simp, hoffs⟩
  | case3 buf s hbuf s' hturn ih =>
    have hleft : buf.length ≠ 0 := fun h => hbuf (List.eq_nil_of_length_eq_zero h)
    rw [transfer, if_neg hleft]
    rcases writeTurn_cases buf s with ⟨hserved, s₁, hwrite, hoffs, hfaults⟩ | ⟨-, s₁, hwrite, -⟩
    · rw [hturn] at hwrite
      cases hwrite
      rw [if_pos hserved]
      rwa [hoffs, hfaults, List.length_drop] at ih
    · rw [hturn] at hwrite
      cases hwrite

/-! ## §4 What is asked for -/

/-- The end of the block that an offset is in or at the end of. -/
def blockEnd (x : ℤ) : ℤ := x + -x % devBsize

theorem turn_end (hleft : leftlen ≠ 0) :
    turnStart offs + turnLen offs leftlen = blockEnd (offs + chunk offs leftlen) := by
  have hsub := suboffs_eq offs
  have hlt := suboffs_lt offs
  unfold turnStart turnLen blockEnd
  by_cases hbounce : bounces offs leftlen = true
  · rw [if_pos hbounce, chunk, if_pos hbounce]
    simp only [devBsize] at *
    omega
  · obtain ⟨haligned, hlong⟩ := not_bounces hbounce
    rw [if_neg hbounce, chunk, if_neg hbounce]
    -- a turn that does not bounce is made of whole blocks
    have hwhole : ∀ n : ℕ, n % devBsize = 0 →
        offs - suboffs offs + n = offs + n + -(offs + n) % devBsize := by
      intro n hn
      simp only [devBsize] at *
      omega
    by_cases hodd : leftlen % devBsize ≠ 0
    · rw [if_pos hodd]
      apply hwhole
      simp only [devBsize, maxphys] at *
      omega
    · rw [if_neg hodd]
      apply hwhole
      simp only [devBsize, maxphys] at *
      omega

theorem blockEnd_mono {x y : ℤ} (h : x ≤ y) : blockEnd x ≤ blockEnd y := by
  unfold blockEnd devBsize
  omega

/-- A turn that is served reads the block that it changes. -/
theorem turnAsked_served (h : TurnServed 2 s.disk.faults s.offs buf.length) :
    turnAsked buf s = [(turnStart s.offs, turnLen s.offs buf.length)] := by
  rw [turnAsked_eq, if_neg]
  rintro ⟨hbounce, hfailed⟩
  apply hfailed
  obtain ⟨hfaults, hin⟩ := h
  rw [turnLen, if_pos hbounce] at hin
  rw [accesses, if_pos hbounce] at hfaults
  exact ⟨hfaults 0 (by omega), hin⟩

/-- **Served writes**: what they ask for is in a window exactly when their blocks are. -/
theorem writeAsked_inside (base stop : ℤ) (buf : List UInt8) (s : Devio) (hbuf : buf ≠ [])
    (hserved : Served 2 s.disk.faults s.offs buf.length) :
    (∀ r ∈ writeAsked buf s, base ≤ r.1 ∧ r.1 + r.2 ≤ stop) ↔
      base ≤ turnStart s.offs ∧ blockEnd (s.offs + buf.length) ≤ stop := by
  fun_induction writeAsked buf s with
  | case1 => exact absurd rfl hbuf
  | case2 buf s hne ih =>
    have hleft : buf.length ≠ 0 := fun h => hne (List.eq_nil_of_length_eq_zero h)
    have hle := chunk_le s.offs buf.length
    have hend : turnStart s.offs + turnLen s.offs buf.length =
        blockEnd (s.offs + chunk s.offs buf.length) := turn_end hleft
    rw [Served, if_neg hleft] at hserved
    obtain ⟨hturn, hlater⟩ := hserved
    rw [turnAsked_served hturn]
    rcases writeTurn_cases buf s with ⟨-, s', hwrite, hoffs, hfaults⟩ | ⟨hfailed, -⟩
    · rw [hwrite]
      dsimp only
      rw [List.singleton_append, List.forall_mem_cons]
      dsimp only
      rw [hend]
      by_cases hdone : chunk s.offs buf.length = buf.length
      · -- the last turn
        rw [hdone, List.drop_length, writeAsked, if_pos rfl]
        simp
      · have hrest : chunk s.offs buf.length < buf.length := by omega
        have hpos := chunk_pos s.offs hleft
        have hdrop : buf.drop (chunk s.offs buf.length) ≠ [] := by
          apply List.ne_nil_of_length_pos
          rw [List.length_drop]
          omega
        have hlen : ((buf.drop (chunk s.offs buf.length)).length : ℤ) =
            buf.length - chunk s.offs buf.length := by
          rw [List.length_drop]
          omega
        rw [← List.length_drop, ← hoffs, ← hfaults] at hlater
        rw [ih s' hdrop hlater, hoffs, turnStart_next hrest, hlen]
        have hsum : s.offs + chunk s.offs buf.length + (buf.length - chunk s.offs buf.length) =
            s.offs + buf.length := by omega
        rw [hsum]
        have hstart := turnStart_le s.offs
        have hmono := blockEnd_mono (x := s.offs + chunk s.offs buf.length)
          (y := s.offs + buf.length) (by omega)
        omega
    · exact absurd hturn hfailed

/-! ## §5 Calls -/

variable {blen : ℕ} {strbuf name : CStr}

/-- The part of a name that `get_rsa` reads the start from. -/
def startPart (strbuf : CStr) : CStr := strbuf.takeWhile fun c => c ≠ 47 ∧ c ≠ 44 ∧ c ≠ 58

/-- A size is given behind the start. -/
def SizeGiven (strbuf : CStr) : Prop :=
  ∃ c rest, strbuf.drop (startPart strbuf).length = c :: rest ∧ c ≠ 47

/-- A name gives a size, or starts at block 0. -/
def NameOk (getRsa : CStr → Option (BitVec 32)) (name : CStr) : Prop :=
  ∀ strbuf, name = 64 :: strbuf → SizeGiven strbuf ∨ ∀ v, getRsa (startPart strbuf) = some v → v = 0

/-- A read is refused, or served, or fails before anything is read and at the start of a block. -/
def ReadOk (s : Devio) (blen : ℕ) : Prop :=
  (s.offs < s.base ∨ s.offs > s.stop) ∨ Served 1 s.disk.faults s.offs (clipLen s blen) ∨
    ¬ TurnServed 1 s.disk.faults s.offs (clipLen s blen) ∧ suboffs s.offs = 0

/-- A write is served and its blocks are in the window, or it fails before anything is written and
    at the start of a block, and what it has asked for is in the window. -/
def WriteOk (s : Devio) (buf : List UInt8) : Prop :=
  buf = [] ∨
    (Served 2 s.disk.faults s.offs buf.length ∧ s.base ≤ turnStart s.offs ∧
      blockEnd (s.offs + buf.length) ≤ s.stop) ∨
    (¬ TurnServed 2 s.disk.faults s.offs buf.length ∧ suboffs s.offs = 0 ∧
      (NotRead s.disk.faults s.offs buf.length ∨
        s.base ≤ s.offs ∧ s.offs + turnLen s.offs buf.length ≤ s.stop))

def CallOk (getRsa : CStr → Option (BitVec 32)) (s : Devio) : Call → Prop
  | .open name => NameOk getRsa name
  | .read blen => ReadOk s blen
  | .write buf => WriteOk s buf
  | .lseek _ _ => True

/-- `get_rsa` gives 32 bits. -/
def rsaBlocks (getRsa : CStr → Option (BitVec 32)) (strbuf : CStr) : Option ℕ :=
  (getRsa strbuf).map BitVec.toNat

/-- The window that is opened holds the offset; a write asks for nothing outside of the window; a
    read or a write that the device fails leaves the offset where it was. -/
def CallFine (getRsa : CStr → Option (BitVec 32)) (s : Devio) : Call → Prop
  | .open name =>
    (devioOpen (rsaBlocks getRsa) name s).1 = .ok () →
      let s' := (devioOpen (rsaBlocks getRsa) name s).2
      0 ≤ s'.base ∧ s'.base ≤ s'.offs ∧ s'.offs ≤ s'.stop
  | .read blen => (devioRead s blen).1 = .error .device → (devioRead s blen).2.offs = s.offs
  | .write buf =>
    (∀ r ∈ writeAsked buf s, s.base ≤ r.1 ∧ r.1 + r.2 ≤ s.stop) ∧
      ((devioWrite s buf).1 = .error .device → (devioWrite s buf).2.offs = s.offs)
  | .lseek _ _ => True

theorem read_fine (s : Devio) (blen : ℕ) :
    ((devioRead s blen).1 = .error .device → (devioRead s blen).2.offs = s.offs) ↔
      ReadOk s blen := by
  unfold devioRead ReadOk
  by_cases hout : s.offs < s.base ∨ s.offs > s.stop
  · simp [hout]
  · obtain ⟨herror, hoffs⟩ := readLoop_transfer (clipLen s blen) s []
    rw [if_neg hout, herror, hoffs]
    by_cases hserved : Served 1 s.disk.faults s.offs (clipLen s blen)
    · have hok := transfer_served.mpr hserved
      simp [hserved, hok]
    · have hfailed := transfer_failed hserved
      have hnot : (transfer 1 s.disk.faults s.offs (clipLen s blen)).1 = false := by
        rw [← Bool.not_eq_true, transfer_served]
        exact hserved
      rw [hfailed]
      simp [hout, hserved, hnot]

theorem devioWrite_error (s : Devio) (buf : List UInt8) :
    ((devioWrite s buf).1 = .error .device ↔ (writeLoop buf s).1 = .error .device) ∧
      (devioWrite s buf).2 = (writeLoop buf s).2 := by
  unfold devioWrite
  rcases hloop : writeLoop buf s with ⟨_ | _, s'⟩ <;> simp

theorem write_fine (s : Devio) (buf : List UInt8) :
    ((∀ r ∈ writeAsked buf s, s.base ≤ r.1 ∧ r.1 + r.2 ≤ s.stop) ∧
      ((devioWrite s buf).1 = .error .device → (devioWrite s buf).2.offs = s.offs)) ↔
      WriteOk s buf := by
  obtain ⟨herror, hoffs⟩ := writeLoop_transfer buf s
  obtain ⟨herror', hstate⟩ := devioWrite_error s buf
  rw [herror', hstate, herror, hoffs]
  unfold WriteOk
  by_cases hbuf : buf = []
  · subst hbuf
    rw [writeAsked, if_pos rfl, List.length_nil, transfer, if_pos rfl]
    simp
  have hleft : buf.length ≠ 0 := fun h => hbuf (List.eq_nil_of_length_eq_zero h)
  by_cases hserved : Served 2 s.disk.faults s.offs buf.length
  · have hok := transfer_served.mpr hserved
    have hturn := hserved
    rw [Served, if_neg hleft] at hturn
    rw [writeAsked_inside s.base s.stop buf s hbuf hserved]
    simp [hbuf, hserved, hok, hturn.1]
  · have hnot : (transfer 2 s.disk.faults s.offs buf.length).1 = false := by
      rw [← Bool.not_eq_true, transfer_served]
      exact hserved
    rw [hnot, transfer_failed hserved]
    by_cases hturn : TurnServed 2 s.disk.faults s.offs buf.length
    · simp [hbuf, hserved, hturn]
    · -- the first turn is all that is asked for
      rcases writeTurn_cases buf s with ⟨hserved', -⟩ | ⟨-, s', hwrite, -⟩
      · exact absurd hserved' hturn
      rw [writeAsked, if_neg hbuf, hwrite, List.append_nil, turnAsked_eq]
      by_cases hread : NotRead s.disk.faults s.offs buf.length
      · simp [hbuf, hserved, hturn, hread]
      · have hstart : suboffs s.offs = 0 → turnStart s.offs = s.offs := by
          intro hsub
          unfold turnStart
          omega
        simp only [hbuf, hserved, hturn, hread, if_false, List.mem_singleton, forall_eq, false_and,
          false_or, true_implies, not_false_eq_true, true_and]
        constructor
        · rintro ⟨hin, hsub⟩
          rw [hstart hsub] at hin
          exact ⟨hsub, hin⟩
        · rintro ⟨hsub, hin⟩
          rw [hstart hsub]
          exact ⟨hin, hsub⟩

variable {getRsa : CStr → Option (BitVec 32)}

/-- A size that is given keeps the end of a window from wrapping. -/
theorem window_sized (v w : BitVec 32) :
    (v.toNat : ℤ) * devBsize ≤ wrap64 (w.toNat * devBsize + v.toNat * devBsize) := by
  have hv := v.isLt
  have hw := w.isLt
  unfold wrap64
  simp only [devBsize, Int.bmod_def]
  omega

theorem window_unsized (v : BitVec 32) :
    (v.toNat : ℤ) * devBsize ≤ wrap64 (9223372036854775807 + v.toNat * devBsize) ↔ v = 0 := by
  have hv := v.isLt
  rw [← BitVec.toNat_inj]
  unfold wrap64
  simp only [devBsize, Int.bmod_def, BitVec.ofNat_eq_ofNat, BitVec.toNat_ofNat]
  omega

theorem open_fine (s : Devio) (name : CStr) :
    CallFine getRsa s (.open name) ↔ NameOk getRsa name := by
  simp only [CallFine, devioOpen]
  unfold NameOk
  cases name with
  | nil => simp [window]
  | cons c strbuf =>
    by_cases hc : c = 64
    · subst hc
      simp only [window, if_true, List.cons.injEq, true_and, forall_eq', rsaBlocks]
      rw [show (strbuf.takeWhile fun c => c ≠ 47 ∧ c ≠ 44 ∧ c ≠ 58) = startPart strbuf from rfl]
      unfold SizeGiven
      have hpos : ∀ v : BitVec 32, (0 : ℤ) ≤ v.toNat * devBsize := by
        intro v
        apply Int.mul_nonneg <;> exact Int.natCast_nonneg _
      rcases hdrop : strbuf.drop (startPart strbuf).length with _ | ⟨c, rest⟩
      · rcases hstart : getRsa (startPart strbuf) with _ | v
        · simp
        · simp [hpos, window_unsized]
      · dsimp only
        generalize rest.takeWhile (· ≠ 47) = sizePart
        by_cases hsep : c = 47
        · rcases hstart : getRsa (startPart strbuf) with _ | v
          · simp [hsep]
          · simp [hsep, hpos, window_unsized]
        · rcases hsize : getRsa sizePart with _ | w
          · simp [hsep]
          · rcases hstart : getRsa (startPart strbuf) with _ | v
            · simp [hsep]
            · simp [hsep, hpos, window_sized]
    · simp [window, hc]

/-- A call goes right exactly when its condition is met. -/
theorem callFine_iff (getRsa : CStr → Option (BitVec 32)) (s : Devio) (c : Call) :
    CallFine getRsa s c ↔ CallOk getRsa s c := by
  cases c with
  | «open» name => exact open_fine s name
  | read blen => exact read_fine s blen
  | write buf => exact write_fine s buf
  | lseek offs whence => exact Iff.rfl

/-- **Windows**: in a run every window that is opened holds its offset, writes stay in their window
    and calls that fail leave the offset where it was, exactly when every call meets its
    condition. -/
theorem devioWindow_exact (getRsa : CStr → Option (BitVec 32)) (s : Devio) (calls : List Call) :
    EveryStep (fun s c => (call (rsaBlocks getRsa) s c).2) (CallFine getRsa) s calls ↔
      EveryStep (fun s c => (call (rsaBlocks getRsa) s c).2) (CallOk getRsa) s calls := by
  apply everyStep_iff (fun s c (_ : True) => callFine_iff getRsa s c)
  · intro s c _ _
    trivial
  · trivial

/-- A window that is opened at block 1 without a size ends in front of the device; a byte that is
    written at the end of a window of one block is written behind it; a read that fails behind the
    start of a block moves the offset back to it. -/
theorem devioWindow_block :
    let next := fun s c => (call (rsaBlocks fun _ => some 1) s c).2
    let fine := CallFine fun _ => some 1
    ¬ EveryStep next fine (goodDisk 0) [.open [64, 49]] ∧
      ¬ EveryStep next fine (goodDisk 0) [.open [64, 49, 44, 49], .lseek 512 0, .write [7]] ∧
      ¬ EveryStep next fine { goodDisk 0 with disk := ⟨fun _ => 0, fun _ => some fun _ => 0⟩ }
        [.open [64, 49, 44, 49], .lseek 5 0, .read 1] := by
  intro next fine
  refine ⟨?_, ?_, ?_⟩
  · intro h
    have hopen := h [] _ List.prefix_rfl
    revert hopen
    change ¬ (_ → 0 ≤ _ ∧ _ ≤ _ ∧ _ ≤ _)
    decide
  · intro h
    have hwrite := (write_fine _ _).mp (h [.open [64, 49, 44, 49], .lseek 512 0] _ List.prefix_rfl)
    rcases hwrite with hempty | ⟨-, -, hstop⟩ | ⟨hfailed, -⟩
    · simp at hempty
    · revert hstop
      decide
    · apply hfailed
      decide
  · intro h
    have hread := (read_fine _ _).mp (h [.open [64, 49, 44, 49], .lseek 5 0] _ List.prefix_rfl)
    rcases hread with hout | hserved | ⟨-, hsub⟩
    · revert hout
      decide
    · rw [Served, if_neg (by decide)] at hserved
      have hturn := hserved.1
      revert hturn
      decide
    · revert hsub
      decide

end Pmon.Fs
