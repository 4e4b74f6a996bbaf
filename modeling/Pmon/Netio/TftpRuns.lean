import Pmon.Lib.Run
import Pmon.Netio.TftpBlocks

/-!
# Reading a file over TFTP

`InSync` is the invariant of a descriptor: how many blocks came in, and where the buffer stands
in the file.  Over it a run of `tftpread` and `tftplseek` is a run of the abstract file.

## Key results

- `readLoop_served`: a read that returns bytes returns those at the position.
- `reads_exact`: in step, every run is a run of the file; and so is every run none of whose
  reads has failed.
- `read_skips_block`: after a read that failed, the next one skips a block.
-/

namespace Pmon.Netio

open Pmon.Lib Pmon.Libc

variable {file : List UInt8} {port k n : ℕ} {tfp tfp' : Tftpfile} {turn : Turn}
  {turns : List Turn} {req : List UInt8}

/-! ## §1 The descriptor -/

/-- `K` blocks came in and the last of them is in the buffer; behind the end of the file the
    buffer is empty. -/
structure InSync (file : List UInt8) (port K : ℕ) (tfp : Tftpfile) : Prop where
  flags_eq : tfp.flags = .rdonly
  port_eq : tfp.port = port
  pos : 1 ≤ K
  start_eq : tfp.start = min (512 * (K - 1)) file.length
  stop_eq : tfp.stop = min (512 * K) file.length
  eof_eq : tfp.eof = decide (blocks file ≤ K)
  block_eq : K < blocks file → tfp.block = K % 65536
  holds : tfp.buf.Holds 4 (blockOf file K)
  start_le : tfp.start ≤ tfp.foffs

variable {K nb : ℕ} {out bytes : List UInt8}

theorem InSync.foffs_nonneg (h : InSync file port K tfp) : 0 ≤ tfp.foffs := by
  have hstart := h.start_eq
  have hle := h.start_le
  omega

theorem InSync.start_of_lt (h : InSync file port K tfp) (hlt : tfp.start < tfp.stop) :
    tfp.start = ((512 * (K - 1) : ℕ) : ℤ) ∧ 512 * (K - 1) < file.length := by
  have hstart := h.start_eq
  have hstop := h.stop_eq
  omega

/-- **Copying out of the buffer** gives a piece of the file: all that is wanted, or all that is
    left in the buffer. -/
theorem copyOut_inSync (nb : ℕ) (out : List UInt8) (h : InSync file port K tfp) (hlt : tfp.start < tfp.stop) :
    ∃ m ≤ nb,
      copyOut nb tfp out =
        (nb - m, { tfp with foffs := tfp.foffs + m }, out ++ clip file tfp.foffs.toNat m) ∧
      (clip file tfp.foffs.toNat m).length = m ∧ (m = nb ∨ tfp.stop ≤ tfp.foffs + m) := by
  obtain ⟨hstart, hpos⟩ := h.start_of_lt hlt
  have hstop := h.stop_eq
  have hle := h.start_le
  by_cases hin : tfp.start ≤ tfp.foffs ∧ tfp.foffs < tfp.stop
  · obtain ⟨i, hi⟩ : ∃ i : ℕ, tfp.foffs = tfp.start + i := ⟨(tfp.foffs - tfp.start).toNat, by omega⟩
    have hoff : tfp.foffs.toNat = 512 * (K - 1) + i := by omega
    have hidx : (tfp.foffs - tfp.start).toNat = i := by omega
    have hblock : (blockOf file K).length = min 512 (file.length - 512 * (K - 1)) := length_clip
    let m := min (tfp.stop - tfp.foffs).toNat nb
    have hm : i + m ≤ (blockOf file K).length := by
      rw [hblock]
      omega
    have hslice : tfp.buf.slice (4 + i) m = clip file (512 * (K - 1) + i) m := by
      have hm' : i + m ≤ 512 := Nat.le_trans hm length_blockOf_le
      rw [h.holds.slice_drop hm, blockOf, drop_take_clip hm']
    refine ⟨m, Nat.min_le_right _ _, ?_, ?_, ?_⟩
    · rw [copyOut, if_pos hin, hidx, hoff]
      change (nb - m, _, out ++ tfp.buf.slice (4 + i) m) = _
      rw [hslice]
    · rw [hoff, length_clip]
      omega
    · omega
  · refine ⟨0, Nat.zero_le _, ?_, ?_, Or.inr (by omega)⟩
    · rw [copyOut, if_neg hin, clip_zero, List.append_nil]
      simp
    · rw [clip_zero]
      rfl

theorem InSync.awaiting (h : InSync file port K tfp) (hlast : K < blocks file) :
    Awaiting port (K + 1) (tftpnxtblk tfp) where
  not_eof := h.eof_eq.trans (decide_eq_false (by omega))
  block_eq := by
    change (tfp.block + 1) % 65536 = (K + 1) % 65536
    rw [h.block_eq hlast]
    omega
  port_eq _ := h.port_eq

/-- **The refill** takes the descriptor to the next block. -/
theorem refill_inSync {r : ℤ} (hlen : file.length < 2147483648) (h : InSync file port K tfp)
    (hlt : tfp.start < tfp.stop) (hempty : tfp.stop ≤ tfp.foffs)
    (hs : K < blocks file → ∀ turn ∈ turns, Served file port (K + 1) turn)
    (hrun : tftprrq req turns (tftpnxtblk tfp) = some (.ok r, tfp')) :
    0 ≤ r ∧ tfp'.foffs = tfp.foffs ∧ tfp'.stop = tfp.stop ∧
      InSync file port (K + 1)
        { tfp' with start := tfp'.stop, stop := wrap32 (tfp'.stop + r) } := by
  have hcur := tftprrq_cursor hrun
  simp only [Tftpfile.cursor, tftpnxtblk, Prod.mk.injEq] at hcur
  obtain ⟨hflags, -, hstop', hfoffs⟩ := hcur
  have hstop := h.stop_eq
  have heof : (tftpnxtblk tfp).eof = decide (blocks file ≤ K) := h.eof_eq
  have hpos := h.pos
  have hK := (h.start_of_lt hlt).2
  by_cases hlast : K < blocks file
  · -- the next block comes in
    obtain ⟨rfl, hgot⟩ := tftprrq_served (h.awaiting hlast) (hs hlast) hrun
    have hblock : (blockOf file (K + 1)).length = min 512 (file.length - 512 * K) := length_clip
    have hshort : (blockOf file (K + 1)).length < 512 ↔ K + 1 = blocks file :=
      length_blockOf_lt_iff (by omega) (by omega)
    have hwrap : wrap32 (tfp'.stop + (blockOf file (K + 1)).length) =
        tfp'.stop + (blockOf file (K + 1)).length := wrap32_of_bounds (by omega) (by omega)
    rw [blocks] at hlast
    refine ⟨by omega, hfoffs, hstop', hflags.trans h.flags_eq, hgot.port_eq, by omega, ?_, ?_, ?_,
      fun _ => hgot.block_eq, hgot.holds, ?_⟩
    · change tfp'.stop = _
      rw [Nat.add_sub_cancel]
      omega
    · change wrap32 _ = _
      rw [hwrap]
      omega
    · refine hgot.eof_eq.trans (decide_eq_decide.mpr (hshort.trans ?_))
      rw [blocks]
      omega
    · change tfp'.stop ≤ tfp'.foffs
      omega
  · -- the last block is acknowledged
    obtain ⟨turn, turns, rfl⟩ : ∃ turn rest, turns = turn :: rest := by
      cases turns with
      | nil => cases hrun
      | cons turn rest => exact ⟨turn, rest, rfl⟩
    rw [tftprrq_eof (heof.trans (decide_eq_true (by omega)))] at hrun
    split at hrun
    · cases hrun
      have hwrap : wrap32 (tfp.stop + 0) = tfp.stop := by
        rw [Int.add_zero]
        exact wrap32_of_bounds (by omega) (by omega)
      rw [blocks] at hlast
      have hend : blockOf file (K + 1) = [] := clip_of_length_le (by omega)
      refine ⟨by omega, rfl, rfl, h.flags_eq, h.port_eq, by omega, ?_, ?_, ?_, ?_, ?_, hempty⟩
      · change tfp.stop = _
        rw [Nat.add_sub_cancel]
        omega
      · change wrap32 (tfp.stop + 0) = _
        rw [hwrap]
        omega
      · refine h.eof_eq.trans (decide_eq_decide.mpr ?_)
        rw [blocks]
        omega
      · intro hK'
        rw [blocks] at hK'
        omega
      · rw [hend]
        trivial
    · cases hrun

/-! ## §2 One read -/

/-- A condition on the turns of each refill, the first of which waits for block `k`. -/
def Along (P : ℕ → Turn → Prop) : ℕ → List (List Turn) → Prop
  | _, [] => True
  | k, turns :: schedule => (∀ turn ∈ turns, P k turn) ∧ Along P (k + 1) schedule

theorem Along.imp {P Q : ℕ → Turn → Prop} (hPQ : ∀ k turn, 1 ≤ k → P k turn → Q k turn)
    {schedule : List (List Turn)} (hk : 1 ≤ k) (h : Along P k schedule) :
    Along Q k schedule := by
  induction schedule generalizing k with
  | nil => trivial
  | cons turns schedule ih =>
    exact ⟨fun turn hmem => hPQ k turn hk (h.1 turn hmem), ih (by omega) h.2⟩

/-- `Served`, for a refill: behind the last block nothing is awaited. -/
def RefillServed (file : List UInt8) (port k : ℕ) (turn : Turn) : Prop :=
  k ≤ blocks file → Served file port k turn

/-- `InStep`, for a refill, with the acknowledgement going out. -/
def RefillInStep (file : List UInt8) (port k : ℕ) (turn : Turn) : Prop :=
  turn.sendOk = true ∧ (k ≤ blocks file → InStep file port k turn)

/-- The block that the next refill waits for. -/
def awaited (tfp : Tftpfile) : ℕ := tfp.start.toNat / 512 + 2

theorem InSync.awaited_eq (h : InSync file port K tfp) (hlt : tfp.start < tfp.stop) :
    awaited tfp = K + 1 := by
  have hstart := (h.start_of_lt hlt).1
  have hpos := h.pos
  rw [awaited]
  omega

theorem clip_at_end (h : InSync file port K tfp) (hend : tfp.stop ≤ tfp.start) :
    clip file tfp.foffs.toNat n = [] := by
  have hstart := h.start_eq
  have hstop := h.stop_eq
  have hpos := h.pos
  have hle := h.start_le
  exact clip_of_length_le (by omega)

/-- **One turn of the loop of `tftpread`**: it is done, with the file's bytes, or it has emptied
    the buffer and refills it. -/
theorem readLoop_cases {schedule : List (List Turn)} {r : Except Failure (List UInt8)}
    (h : InSync file port K tfp) (hrun : readLoop schedule nb tfp out = some (r, tfp')) :
    (r = .ok (out ++ clip file tfp.foffs.toNat nb) ∧
      tfp' = { tfp with foffs := tfp.foffs + (clip file tfp.foffs.toNat nb).length }) ∨
    ∃ m turns rest res tfp₁, m ≤ nb ∧ schedule = turns :: rest ∧ tfp.start < tfp.stop ∧
      (clip file tfp.foffs.toNat m).length = m ∧ tfp.stop ≤ tfp.foffs + m ∧
      tftprrq (ack tfp.block) turns (tftpnxtblk { tfp with foffs := tfp.foffs + m }) =
        some (res, tfp₁) ∧
      match res with
      | .error e => r = .error e
      | .ok n =>
        if n < 0 then r = .error .short
        else readLoop rest (nb - m)
          { tfp₁ with start := tfp₁.stop, stop := wrap32 (tfp₁.stop + n) }
          (out ++ clip file tfp.foffs.toNat m) = some (r, tfp') := by
  rw [readLoop] at hrun
  split at hrun
  · rename_i hdone
    simp only [Option.some.injEq, Prod.mk.injEq] at hrun
    obtain ⟨rfl, rfl⟩ := hrun
    have hnil : clip file tfp.foffs.toNat nb = [] := by
      rcases hdone with rfl | hend
      · exact clip_zero
      · exact clip_at_end h hend
    left
    rw [hnil, List.append_nil]
    simp
  · rename_i hmore
    have hlt : tfp.start < tfp.stop := by omega
    obtain ⟨m, hm, hcopy, hclip, hcase⟩ := copyOut_inSync nb out h hlt
    simp only [hcopy] at hrun
    split at hrun
    · -- something is left in the buffer
      have hall : m = nb := by omega
      subst hall
      rw [if_pos (Nat.sub_self m)] at hrun
      simp only [Option.some.injEq, Prod.mk.injEq] at hrun
      obtain ⟨rfl, rfl⟩ := hrun
      exact Or.inl ⟨rfl, by rw [hclip]⟩
    · rename_i hempty
      right
      cases schedule with
      | nil => cases hrun
      | cons turns rest =>
        dsimp only at hrun
        split at hrun
        · cases hrun
        · rename_i e tfp₁ heq
          simp only [Option.some.injEq, Prod.mk.injEq] at hrun
          exact ⟨m, turns, rest, .error e, tfp₁, hm, rfl, hlt, hclip, by omega, heq, hrun.1.symm⟩
        · rename_i n tfp₁ heq
          refine ⟨m, turns, rest, .ok n, tfp₁, hm, rfl, hlt, hclip, by omega, heq, ?_⟩
          dsimp only
          split at hrun
          · rename_i hneg
            simp only [Option.some.injEq, Prod.mk.injEq] at hrun
            rw [if_pos hneg]
            exact hrun.1.symm
          · rename_i hneg
            rw [if_neg hneg]
            exact hrun

theorem InSync.move (h : InSync file port K tfp) (foffs : ℤ) (hle : tfp.start ≤ foffs) :
    InSync file port K { tfp with foffs } :=
  { h with start_le := hle }

/-- **The loop of `tftpread`**: when it returns bytes, they are what the file has at the
    position, which moves by as many. -/
theorem readLoop_served {schedule : List (List Turn)} (hlen : file.length < 2147483648)
    (h : InSync file port K tfp)
    (hs : tfp.start < tfp.stop → Along (RefillServed file port) (K + 1) schedule)
    (hrun : readLoop schedule nb tfp out = some (.ok bytes, tfp')) :
    bytes = out ++ clip file tfp.foffs.toNat nb ∧
      tfp'.foffs = tfp.foffs + (clip file tfp.foffs.toNat nb).length ∧
      ∃ K', InSync file port K' tfp' := by
  induction schedule generalizing K nb tfp out with
  | nil =>
    rcases readLoop_cases h hrun with ⟨hr, rfl⟩ | ⟨m, turns, rest, res, tfp₁, hm, hsched, -⟩
    · have hle := h.start_le
      cases hr
      exact ⟨rfl, rfl, K, h.move _ (by omega)⟩
    · cases hsched
  | cons turns schedule ih =>
    rcases readLoop_cases h hrun with
      ⟨hr, rfl⟩ | ⟨m, turns, rest, res, tfp₁, hm, hsched, hlt, hclip, hempty, hrrq, hres⟩
    · have hle := h.start_le
      cases hr
      exact ⟨rfl, rfl, K, h.move _ (by omega)⟩
    · cases hsched
      have hle := h.start_le
      have hnonneg := h.foffs_nonneg
      have hs' := hs hlt
      cases res with
      | error e => cases hres
      | ok n =>
        obtain ⟨hn, hfoffs, -, hsync⟩ := refill_inSync hlen
          (h.move (tfp.foffs + m) (by omega)) hlt hempty (fun hK turn hmem => hs'.1 turn hmem hK) hrrq
        dsimp only at hres
        rw [if_neg (by omega)] at hres
        obtain ⟨hbytes, hfoffs', hsync'⟩ := ih hsync (fun _ => hs'.2) hres
        have hpos : tfp₁.foffs.toNat = tfp.foffs.toNat + m := by
          rw [hfoffs]
          change (tfp.foffs + m).toNat = _
          omega
        obtain ⟨k, rfl⟩ : ∃ k, nb = m + k := ⟨nb - m, by omega⟩
        rw [Nat.add_sub_cancel_left] at hbytes hfoffs'
        refine ⟨?_, ?_, hsync'⟩
        · rw [hbytes, hpos, clip_add, List.append_assoc]
        · rw [hfoffs', hpos, hfoffs, clip_add, List.length_append, hclip]
          change tfp.foffs + m + _ = _
          omega

theorem refill_inStep {e : Failure} (h : InSync file port K tfp)
    (hs : ∀ turn ∈ turns, RefillInStep file port (K + 1) turn) :
    tftprrq req turns (tftpnxtblk tfp) ≠ some (.error e, tfp') := by
  by_cases hlast : K < blocks file
  · exact tftprrq_inStep (Nat.le_add_left 1 K) (h.awaiting hlast) fun turn hmem =>
      ⟨(hs turn hmem).1, (hs turn hmem).2 hlast⟩
  · have heof : (tftpnxtblk tfp).eof = true := h.eof_eq.trans (decide_eq_true (by omega))
    cases turns with
    | nil => simp [tftprrq]
    | cons turn turns =>
      rw [tftprrq_eof heof, if_pos (hs turn List.mem_cons_self).1]
      simp

/-- **In step, the loop does not fail.** -/
theorem readLoop_inStep {schedule : List (List Turn)} {e : Failure}
    (hlen : file.length < 2147483648) (h : InSync file port K tfp)
    (hs : tfp.start < tfp.stop → Along (RefillInStep file port) (K + 1) schedule) :
    readLoop schedule nb tfp out ≠ some (.error e, tfp') := by
  induction schedule generalizing K nb tfp out with
  | nil =>
    intro hrun
    rcases readLoop_cases h hrun with ⟨hr, -⟩ | ⟨m, turns, rest, res, tfp₁, hm, hsched, -⟩
    · cases hr
    · cases hsched
  | cons turns schedule ih =>
    intro hrun
    rcases readLoop_cases h hrun with
      ⟨hr, -⟩ | ⟨m, turns, rest, res, tfp₁, hm, hsched, hlt, hclip, hempty, hrrq, hres⟩
    · cases hr
    · cases hsched
      have hle := h.start_le
      have hs' := hs hlt
      have hmove := h.move (tfp.foffs + m) (by omega)
      have hpos := h.pos
      have hserved : K < blocks file → ∀ turn ∈ turns, Served file port (K + 1) turn :=
        fun hK turn hmem => ((hs'.1 turn hmem).2 hK).served (by omega)
      cases res with
      | error e' => exact refill_inStep hmove hs'.1 hrrq
      | ok n =>
        obtain ⟨hn, -, -, hsync⟩ := refill_inSync hlen hmove hlt hempty hserved hrrq
        dsimp only at hres
        rw [if_neg (by omega)] at hres
        exact ih hsync (fun _ => hs'.2) hres

/-! ## §3 Runs -/

theorem tftpopen_served {service : ℕ} {filename : CStr} (hlen : file.length < 2147483648)
    (hs : ∀ turn ∈ turns, Served file port 1 turn)
    (hopen : tftpopen service filename turns = some (.ok tfp)) :
    InSync file port 1 tfp ∧ tfp.foffs = 0 := by
  rw [tftpopen] at hopen
  split at hopen
  · cases hopen
  · cases hopen
  · rename_i size tfp₁ hrrq
    have hwait : Awaiting port 1
        { port := service, block := 1, flags := .rdonly, eof := false, start := 0, stop := 0,
          foffs := 0, buf := fun _ => 0, sent := [] } := ⟨rfl, rfl, by omega⟩
    have hcur := tftprrq_cursor hrrq
    obtain ⟨rfl, hgot⟩ := tftprrq_served hwait hs hrrq
    simp only [Tftpfile.cursor, Prod.mk.injEq] at hcur
    obtain ⟨hflags, hstart, -, hfoffs⟩ := hcur
    rw [if_neg (by omega)] at hopen
    cases hopen
    have hblock : (blockOf file 1).length = min 512 (file.length - 512 * 0) := length_clip
    have hshort : (blockOf file 1).length < 512 ↔ 1 = blocks file :=
      length_blockOf_lt_iff (by omega) (by rw [blocks]; omega)
    have hwrap : wrap32 (tfp₁.start + (blockOf file 1).length) = (blockOf file 1).length := by
      rw [hstart, Int.zero_add]
      exact wrap32_of_bounds (by omega) (by omega)
    refine ⟨⟨hflags, hgot.port_eq, by omega, by simpa using hstart, ?_, ?_, fun _ => hgot.block_eq,
      hgot.holds, ?_⟩, hfoffs⟩
    · change wrap32 _ = _
      rw [hwrap]
      omega
    · refine hgot.eof_eq.trans (decide_eq_decide.mpr (hshort.trans ?_))
      rw [blocks]
      omega
    · change tfp₁.start ≤ tfp₁.foffs
      omega

/-- What the caller of a descriptor does. -/
inductive Op where
  | read (nread : ℕ) (schedule : List (List Turn))
  | lseek (offs : ℤ) (how : Whence)

/-- One call, with what the caller sees of it. -/
inductive TftpStep : Tftpfile → Op × FileEvent UInt8 → Tftpfile → Prop where
  | read {tfp tfp' nread schedule bytes} (h : tftpread tfp nread schedule = some (.ok bytes, tfp')) :
      TftpStep tfp (.read nread schedule, .read nread bytes) tfp'
  | readFails {tfp tfp' nread schedule e} (h : tftpread tfp nread schedule = some (.error e, tfp')) :
      TftpStep tfp (.read nread schedule, .refused) tfp'
  | lseek (tfp : Tftpfile) (offs : ℤ) (how : Whence) (h : 0 ≤ (tftplseek tfp offs how).1) :
      TftpStep tfp (.lseek offs how, .seek (tftplseek tfp offs how).1.toNat)
        (tftplseek tfp offs how).2
  | lseekFails (tfp : Tftpfile) (offs : ℤ) (how : Whence) (h : (tftplseek tfp offs how).1 < 0) :
      TftpStep tfp (.lseek offs how, .refused) (tftplseek tfp offs how).2

/-- A condition on the turns of a read. -/
def OpAlong (P : ℕ → Turn → Prop) (tfp : Tftpfile) : Op → Prop
  | .read _ schedule => Along P (awaited tfp) schedule
  | .lseek _ _ => True

theorem tftpread_eq (h : InSync file port K tfp) (nread : ℕ) (schedule : List (List Turn)) :
    tftpread tfp nread schedule = readLoop schedule nread tfp [] := by
  rw [tftpread, if_neg (by simp [h.flags_eq])]

/-- **A seek** goes where it is told, or is refused and changes nothing. -/
theorem tftplseek_inSync (h : InSync file port K tfp) (offs : ℤ) (how : Whence) :
    tftplseek tfp offs how = (-1, tfp) ∨
      ∃ noffs, lseekTarget tfp.foffs offs how = some noffs ∧ tfp.start ≤ noffs ∧
        tftplseek tfp offs how = (noffs, { tfp with foffs := noffs }) := by
  have hrd : tfp.flags ≠ .wronly := by simp [h.flags_eq]
  rw [tftplseek]
  cases lseekTarget tfp.foffs offs how with
  | none => exact Or.inl rfl
  | some noffs =>
    dsimp only
    rw [if_neg hrd]
    by_cases hlt : noffs < tfp.start
    · exact Or.inl (if_pos hlt)
    · exact Or.inr ⟨noffs, rfl, by omega, if_neg hlt⟩

/-- What a run of calls may do to the position of the abstract file. -/
def Tracks (file : List UInt8) (port : ℕ) (pos : ℕ) (tfp : Tftpfile) : Prop :=
  (∃ K, InSync file port K tfp) ∧ tfp.foffs = pos

/-- **One call**: unless it is a read that fails, it does what a file does. -/
theorem tftpStep_served {pos : ℕ} {op : Op} {ev : FileEvent UInt8}
    (hlen : file.length < 2147483648) (h : Tracks file port pos tfp)
    (hs : OpAlong (RefillServed file port) tfp op) (hstep : TftpStep tfp (op, ev) tfp')
    (hdone : ∀ nread schedule, op = .read nread schedule → ev ≠ .refused) :
    ∃ pos', FileStep file pos ev pos' ∧ Tracks file port pos' tfp' := by
  obtain ⟨⟨K, hsync⟩, hpos⟩ := h
  cases hstep with
  | read hread =>
    rename_i nread schedule bytes
    rw [tftpread_eq hsync] at hread
    obtain ⟨rfl, hfoffs, hsync'⟩ := readLoop_served hlen hsync
      (fun hlt => hsync.awaited_eq hlt ▸ hs) hread
    have hnat : tfp.foffs.toNat = pos := by omega
    rw [hnat] at hfoffs ⊢
    refine ⟨_, .read pos nread, hsync', ?_⟩
    rw [hfoffs, hpos]
    rfl
  | readFails hread => exact absurd rfl (hdone _ _ rfl)
  | lseek offs how hok =>
    rcases tftplseek_inSync hsync offs how with heq | ⟨noffs, -, hle, heq⟩
    · rw [heq] at hok
      omega
    · rw [heq] at hok ⊢
      exact ⟨_, .seek pos _, ⟨K, hsync.move noffs hle⟩, (Int.toNat_of_nonneg hok).symm⟩
  | lseekFails offs how hneg =>
    rcases tftplseek_inSync hsync offs how with heq | ⟨noffs, -, hle, heq⟩
    · rw [heq]
      exact ⟨pos, .refused pos, ⟨K, hsync⟩, hpos⟩
    · have hnonneg := hsync.foffs_nonneg
      have hstart := hsync.start_eq
      rw [heq] at hneg
      dsimp only at hneg
      omega

/-- **In step, no read fails.** -/
theorem tftpStep_inStep {pos nread : ℕ} {schedule : List (List Turn)} {ev : FileEvent UInt8}
    (hlen : file.length < 2147483648) (h : Tracks file port pos tfp)
    (hs : OpAlong (RefillInStep file port) tfp (.read nread schedule))
    (hstep : TftpStep tfp (.read nread schedule, ev) tfp') : ev ≠ .refused := by
  obtain ⟨⟨K, hsync⟩, -⟩ := h
  cases hstep with
  | read _ => nofun
  | readFails hread =>
    rw [tftpread_eq hsync] at hread
    exact absurd hread (readLoop_inStep hlen hsync fun hlt => hsync.awaited_eq hlt ▸ hs)

theorem OpAlong.imp {P Q : ℕ → Turn → Prop} {op : Op}
    (hPQ : ∀ k turn, 1 ≤ k → P k turn → Q k turn) (h : OpAlong P tfp op) : OpAlong Q tfp op := by
  cases op with
  | read nread schedule => exact Along.imp hPQ (Nat.le_add_left 1 _) h
  | lseek offs how => trivial

/-- **Runs**: from a descriptor in sync, calls none of whose reads fails are the calls of a
    file. -/
theorem run_served {pos : ℕ} {ls : List (Op × FileEvent UInt8)}
    (hlen : file.length < 2147483648) (h : Tracks file port pos tfp)
    (hrun : Run (Guarded TftpStep fun tfp l => OpAlong (RefillServed file port) tfp l.1) tfp ls tfp')
    (hdone : ∀ l ∈ ls, ∀ nread schedule, l.1 = .read nread schedule → l.2 ≠ .refused) :
    ∃ pos', Run (FileStep file) pos (ls.map Prod.snd) pos' ∧ Tracks file port pos' tfp' := by
  induction hrun generalizing pos with
  | nil => exact ⟨pos, .nil pos, h⟩
  | cons hl _ ih =>
    rename_i l _ _
    rw [List.forall_mem_cons] at hdone
    obtain ⟨pos', hfile, htracks⟩ := tftpStep_served hlen h hl.2 hl.1 hdone.1
    obtain ⟨pos'', hfiles, htracks'⟩ := ih htracks hdone.2
    exact ⟨pos'', .cons hfile hfiles, htracks'⟩

theorem run_inStep {pos : ℕ} {ls : List (Op × FileEvent UInt8)}
    (hlen : file.length < 2147483648) (h : Tracks file port pos tfp)
    (hrun : Run (Guarded TftpStep fun tfp l => OpAlong (RefillInStep file port) tfp l.1)
      tfp ls tfp') :
    (∃ pos', Run (FileStep file) pos (ls.map Prod.snd) pos' ∧ Tracks file port pos' tfp') ∧
      ∀ l ∈ ls, ∀ nread schedule, l.1 = .read nread schedule → l.2 ≠ .refused := by
  induction hrun generalizing pos with
  | nil => exact ⟨⟨pos, .nil pos, h⟩, by simp⟩
  | cons hl _ ih =>
    rename_i l _ _
    obtain ⟨op, ev⟩ := l
    have hdone : ∀ nread schedule, op = .read nread schedule → ev ≠ .refused := by
      rintro nread schedule rfl
      exact tftpStep_inStep hlen h hl.2 hl.1
    have hserved : OpAlong (RefillServed file port) _ op :=
      OpAlong.imp (fun k turn hk hfine hle => (hfine.2 hle).served hk) hl.2
    obtain ⟨pos', hfile, htracks⟩ := tftpStep_served hlen h hserved hl.1 hdone
    obtain ⟨⟨pos'', hfiles, htracks'⟩, hdones⟩ := ih htracks
    exact ⟨⟨pos'', .cons hfile hfiles, htracks'⟩, List.forall_mem_cons.mpr ⟨hdone, hdones⟩⟩

/-- **Reading over TFTP**, for a file of less than 2 GB.  While only the awaited block and the
    one before it come in, no read fails and the calls are those of the file.  With any of the
    server's datagrams, at most 65535 blocks late, so are calls none of whose reads has
    failed. -/
theorem reads_exact (file : List UInt8) (hlen : file.length < 2147483648) (port service : ℕ)
    (filename : CStr) (turns : List Turn) (hturns : ∀ turn ∈ turns, Served file port 1 turn)
    (tfp : Tftpfile) (hopen : tftpopen service filename turns = some (.ok tfp)) :
    (∀ ls tfp',
      Run (Guarded TftpStep fun tfp l => OpAlong (RefillInStep file port) tfp l.1) tfp ls tfp' →
      Run (FileStep file) 0 (ls.map Prod.snd) tfp'.foffs.toNat ∧
        ∀ l ∈ ls, ∀ nread schedule, l.1 = .read nread schedule → l.2 ≠ .refused) ∧
    ∀ ls tfp',
      Run (Guarded TftpStep fun tfp l => OpAlong (RefillServed file port) tfp l.1) tfp ls tfp' →
      (∀ l ∈ ls, ∀ nread schedule, l.1 = .read nread schedule → l.2 ≠ .refused) →
      Run (FileStep file) 0 (ls.map Prod.snd) tfp'.foffs.toNat := by
  obtain ⟨hsync, hzero⟩ := tftpopen_served hlen hturns hopen
  have htracks : Tracks file port 0 tfp := ⟨⟨1, hsync⟩, hzero⟩
  refine ⟨fun ls tfp' hrun => ?_, fun ls tfp' hrun hdone => ?_⟩
  · obtain ⟨⟨pos', hfile, -, hpos⟩, hdone⟩ := run_inStep hlen htracks hrun
    rw [hpos, Int.toNat_natCast]
    exact ⟨hfile, hdone⟩
  · obtain ⟨pos', hfile, -, hpos⟩ := run_served hlen htracks hrun hdone
    rw [hpos, Int.toNat_natCast]
    exact hfile

/-! ## §4 A skipped block -/

/-- The request goes out and block `k` comes in. -/
def dataTurn (file : List UInt8) (port k : ℕ) : Turn :=
  ⟨true, .datagram port (dataPkt file k)⟩

theorem dataTurn_served {j : ℕ} (hj : 1 ≤ j) (hjk : j ≤ k) (hkj : k < j + 65536) :
    ∀ turn ∈ [dataTurn file port j], Served file port k turn := by
  rintro turn hmem sinPort bytes hev
  obtain rfl := List.mem_singleton.mp hmem
  cases hev
  exact Or.inr ⟨rfl, j, hj, hjk, hkj, rfl⟩

/-- The awaited block comes in at the first turn. -/
theorem tftprrq_now (file : List UInt8) (req : List UInt8) (h : Awaiting port k tfp) :
    ∃ tfp', tftprrq req [dataTurn file port k] tfp = some (.ok (blockOf file k).length, tfp') ∧
      Got file port k tfp' ∧ tfp'.cursor = tfp.cursor ∧ tfp'.sent = tfp.sent ++ [req] := by
  have hev : (dataTurn file port k).event = .datagram port (dataPkt file k) := rfl
  obtain ⟨tfp', -, hblock, hport, hdata, hsent, hturn⟩ := rrqTurn_data req h rfl hev
  rw [h.block_eq, if_pos rfl] at hturn
  have hrun : tftprrq req [dataTurn file port k] tfp = some (.ok (blockOf file k).length,
      { tfp' with eof := decide ((blockOf file k).length < 512) }) := by
    rw [tftprrq, hturn]
  exact ⟨_, hrun, ⟨rfl, hblock.trans h.block_eq, hport, hdata⟩, tftprrq_cursor hrun, hsent⟩

theorem readLoop_refill {nb' : ℕ} {out' : List UInt8} {tfp₁ tfp₂ : Tftpfile} {r : ℤ}
    {rest : List (List Turn)} (hnb : nb ≠ 0) (hlt : tfp.start < tfp.stop)
    (hcopy : copyOut nb tfp out = (nb', tfp₁, out')) (hempty : tfp₁.stop ≤ tfp₁.foffs)
    (hrrq : tftprrq (ack tfp₁.block) turns (tftpnxtblk tfp₁) = some (.ok r, tfp₂)) (hr : 0 ≤ r) :
    readLoop (turns :: rest) nb tfp out =
      readLoop rest nb' { tfp₂ with start := tfp₂.stop, stop := wrap32 (tfp₂.stop + r) } out' := by
  rw [readLoop, if_neg (by omega), hcopy]
  dsimp only
  rw [if_neg (by omega), hrrq]
  dsimp only
  rw [if_neg (by omega)]

theorem readLoop_zero {schedule : List (List Turn)} :
    readLoop schedule 0 tfp out = some (.ok out, tfp) := by
  rw [readLoop, if_pos (Or.inl rfl)]

/-- **The whole buffer is read, and the next block comes in.** -/
theorem tftpread_block (hlen : file.length < 2147483648) (h : InSync file port K tfp)
    (hfull : 512 * K ≤ file.length) (hpos : tfp.foffs = tfp.start) :
    ∃ tfp', tftpread tfp 512 [[dataTurn file port (K + 1)]] =
        some (.ok (clip file (512 * (K - 1)) 512), tfp') ∧
      InSync file port (K + 1) tfp' ∧ tfp'.foffs = tfp'.start ∧
      tfp'.sent = tfp.sent ++ [ack (K % 65536)] := by
  have hstart := h.start_eq
  have hstop := h.stop_eq
  have hK := h.pos
  have hlt : tfp.start < tfp.stop := by omega
  have hlast : K < blocks file := by
    rw [blocks]
    omega
  obtain ⟨m, hm, hcopy, -, hall⟩ := copyOut_inSync 512 [] h hlt
  have hm512 : m = 512 := by omega
  subst hm512
  have hmove := h.move (tfp.foffs + (512 : ℕ)) (by omega)
  have hempty : tfp.stop ≤ tfp.foffs + (512 : ℕ) := by omega
  obtain ⟨tfp₁, hrrq, -, -, hsent⟩ :=
    tftprrq_now file (ack tfp.block) (hmove.awaiting hlast)
  obtain ⟨hr, hfoffs, hstop₁, hsync⟩ := refill_inSync hlen hmove hlt hempty
    (fun _ => dataTurn_served (by omega) (by omega) (by omega)) hrrq
  have hoff : tfp.foffs.toNat = 512 * (K - 1) := by omega
  refine ⟨_, ?_, hsync, ?_, hsent.trans ?_⟩
  · rw [tftpread_eq h, readLoop_refill (by omega) hlt hcopy hempty hrrq hr, readLoop_zero,
      hoff, List.nil_append]
  · change tfp₁.foffs = tfp₁.stop
    rw [hfoffs, hstop₁]
    change tfp.foffs + (512 : ℕ) = tfp.stop
    omega
  · rw [h.block_eq hlast]
    rfl

/-- **A late duplicate ends the read**: the position has moved, the number of the awaited block
    has moved, the buffer has not. -/
theorem tftpread_outOfStep (h : InSync file port K tfp)
    (hfull : 512 * K ≤ file.length) (hpos : tfp.foffs = tfp.start) {j : ℕ} (hj : 1 ≤ j)
    (hjK : j < K) (hK : K < 65535) :
    ∃ tfp', tftpread tfp 512 [[dataTurn file port j]] = some (.error .outOfStep, tfp') ∧
      tfp'.flags = .rdonly ∧ tfp'.port = port ∧ tfp'.eof = false ∧ tfp'.block = K + 1 ∧
      tfp'.start = tfp.start ∧ tfp'.stop = tfp.stop ∧ tfp'.foffs = tfp.stop ∧
      tfp'.sent = tfp.sent ++ [ack (K % 65536)] := by
  have hstart := h.start_eq
  have hstop := h.stop_eq
  have hlt : tfp.start < tfp.stop := by omega
  have hlast : K < blocks file := by
    rw [blocks]
    omega
  obtain ⟨m, hm, hcopy, -, hall⟩ := copyOut_inSync 512 [] h hlt
  have hm512 : m = 512 := by omega
  subst hm512
  have hmove := h.move (tfp.foffs + (512 : ℕ)) (by omega)
  have hempty : tfp.stop ≤ tfp.foffs + (512 : ℕ) := by omega
  have hev : (dataTurn file port j).event = .datagram port (dataPkt file j) := rfl
  have hwait := hmove.awaiting hlast
  obtain ⟨tfp', heof, hblock, hport, -, hsent, hturn⟩ :=
    rrqTurn_data (ack tfp.block) hwait rfl hev
  rw [hwait.block_eq, if_neg (by omega), if_pos (by omega)] at hturn
  have hcur := rrqTurn_cursor (ack tfp.block) (dataTurn file port j)
    (tftpnxtblk { tfp with foffs := tfp.foffs + (512 : ℕ) })
  rw [hturn] at hcur
  simp only [Tftpfile.cursor, tftpnxtblk, Prod.mk.injEq] at hcur
  obtain ⟨hflags, hstart', hstop', hfoffs'⟩ := hcur
  refine ⟨tfp', ?_, hflags.trans h.flags_eq, hport, heof, ?_, hstart', hstop', ?_, ?_⟩
  · rw [tftpread_eq h, readLoop, if_neg (by omega), hcopy]
    dsimp only
    rw [if_neg (by omega), tftprrq, hturn]
  · rw [hblock, hwait.block_eq]
    omega
  · rw [hfoffs']
    omega
  · rw [hsent, h.block_eq hlast]
    rfl

/-- **The next read skips a block**: it acknowledges the block that never came and returns the
    one behind it. -/
theorem tftpread_skips (hflags : tfp.flags = .rdonly) (hport : tfp.port = port)
    (heof : tfp.eof = false) (hblock : tfp.block = K + 1) (hK : K < 65533)
    (hlt : tfp.start < tfp.stop) (hstop : tfp.stop = 512 * K) (hfoffs : tfp.foffs = tfp.stop)
    (hfull : 512 * (K + 2) ≤ file.length) :
    ∃ tfp', tftpread tfp 512
        [[dataTurn file port (K + 2)], [dataTurn file port (K + 3)]] =
          some (.ok (blockOf file (K + 2)), tfp') ∧
      tfp'.sent = tfp.sent ++ [ack (K + 1), ack (K + 2)] := by
  have hcopy : copyOut 512 tfp [] = (512, tfp, []) := by
    rw [copyOut, if_neg (by omega)]
  have hwait : Awaiting port (K + 2) (tftpnxtblk tfp) := by
    refine ⟨heof, ?_, fun _ => hport⟩
    change (tfp.block + 1) % 65536 = _
    rw [hblock]
  obtain ⟨tfp₁, hrrq, hgot, hcur, hsent⟩ := tftprrq_now file (ack tfp.block) hwait
  simp only [Tftpfile.cursor, tftpnxtblk, Prod.mk.injEq] at hcur
  obtain ⟨-, -, hstop₁, hfoffs₁⟩ := hcur
  have hlen : (blockOf file (K + 2)).length = 512 := by
    rw [blockOf, length_clip]
    omega
  have hwrap : wrap32 (tfp₁.stop + 512) = tfp₁.stop + 512 :=
    wrap32_of_bounds (by omega) (by omega)
  -- block `K + 2` stands where block `K + 1` belongs
  have hcopy₁ : copyOut 512 { tfp₁ with start := tfp₁.stop, stop := tfp₁.stop + 512 } [] =
      (0, { tfp₁ with start := tfp₁.stop, stop := tfp₁.stop + 512, foffs := tfp₁.foffs + 512 },
        blockOf file (K + 2)) := by
    have hslice := hgot.holds.slice_eq
    rw [hlen] at hslice
    have hn : (tfp₁.stop + 512 - tfp₁.foffs).toNat = 512 := by omega
    have hi : (tfp₁.foffs - tfp₁.stop).toNat = 0 := by omega
    rw [copyOut, if_pos (by dsimp only; omega)]
    dsimp only
    rw [hn, hi, Nat.min_self, Nat.add_zero, hslice, List.nil_append]
    rfl
  have hwait₁ : Awaiting port (K + 3) (tftpnxtblk
      { tfp₁ with start := tfp₁.stop, stop := tfp₁.stop + 512, foffs := tfp₁.foffs + 512 }) := by
    refine ⟨hgot.eof_eq.trans (decide_eq_false (by omega)), ?_, fun _ => hgot.port_eq⟩
    change (tfp₁.block + 1) % 65536 = _
    rw [hgot.block_eq]
    omega
  obtain ⟨tfp₂, hrrq₁, -, -, hsent₁⟩ := tftprrq_now file (ack tfp₁.block) hwait₁
  refine ⟨{ tfp₂ with
    start := tfp₂.stop
    stop := wrap32 (tfp₂.stop + (blockOf file (K + 3)).length) }, ?_, hsent₁.trans ?_⟩
  · rw [tftpread, if_neg (by simp [hflags]),
      readLoop_refill (by omega) hlt hcopy (by omega) hrrq (by omega), hlen]
    change readLoop _ 512 { tfp₁ with start := tfp₁.stop, stop := wrap32 (tfp₁.stop + 512) } _ = _
    rw [hwrap, readLoop_refill (by omega) (by dsimp only; omega) hcopy₁ (by dsimp only; omega)
      hrrq₁ (by omega), readLoop_zero]
  · change tfp₁.sent ++ _ = _
    rw [hsent, hgot.block_eq, hblock, List.append_assoc, Nat.mod_eq_of_lt (by omega)]
    rfl

theorem tftpopen_now (file : List UInt8) (port service : ℕ) (filename : CStr) :
    ∃ tfp, tftpopen service filename [dataTurn file port 1] = some (.ok tfp) ∧
      tfp.sent = [makerequest opRRQ filename (ascii "octet")] := by
  have hwait : Awaiting port 1
      { port := service, block := 1, flags := .rdonly, eof := false, start := 0, stop := 0,
        foffs := 0, buf := fun _ => 0, sent := [] } := ⟨rfl, rfl, by omega⟩
  obtain ⟨tfp₁, hrrq, -, -, hsent⟩ :=
    tftprrq_now file (makerequest opRRQ filename (ascii "octet")) hwait
  refine ⟨{ tfp₁ with stop := wrap32 (tfp₁.start + (blockOf file 1).length) }, ?_, hsent⟩
  rw [tftpopen, hrrq]
  dsimp only
  rw [if_neg (by omega)]

/-- Three bytes read in two calls, from the one datagram they fit in. -/
theorem reads_exact_short :
    ∃ tfp tfp₁ tfp₂,
      tftpopen 69 (ascii "f") [dataTurn [1, 2, 3] 1069 1] = some (.ok tfp) ∧
      tftpread tfp 2 [] = some (.ok [1, 2], tfp₁) ∧
      tftplseek tfp₁ 1 .seekSet = (1, tfp₂) ∧
      Run (FileStep ([1, 2, 3] : List UInt8)) 0 [.read 2 [1, 2], .seek 1] tfp₂.foffs.toNat := by
  have hopen := tftpopen_now [1, 2, 3] 1069 69 (ascii "f")
  obtain ⟨tfp, hopen, -⟩ := hopen
  have hlen : ([1, 2, 3] : List UInt8).length < 2147483648 := by decide
  have hserved : ∀ turn ∈ [dataTurn [1, 2, 3] 1069 1], Served [1, 2, 3] 1069 1 turn :=
    dataTurn_served (by omega) (by omega) (by omega)
  obtain ⟨hsync, hzero⟩ := tftpopen_served hlen hserved hopen
  have hstart : tfp.start = 0 := hsync.start_eq
  have hstop : tfp.stop = 3 := hsync.stop_eq
  obtain ⟨m, hm, hcopy, -, hall⟩ := copyOut_inSync 2 [] hsync (by omega)
  obtain rfl : m = 2 := by omega
  rw [hzero] at hcopy
  have hread : tftpread tfp 2 [] = some (.ok [1, 2], { tfp with foffs := 0 + (2 : ℕ) }) := by
    rw [tftpread_eq hsync, readLoop, if_neg (by omega), hcopy]
    dsimp only
    rw [if_pos (by omega), if_pos rfl]
    rfl
  have hseek : tftplseek { tfp with foffs := 0 + (2 : ℕ) } 1 .seekSet =
      (1, { tfp with foffs := 1 }) := by
    have hrd : tfp.flags ≠ .wronly := by simp [hsync.flags_eq]
    rw [tftplseek, lseekTarget]
    dsimp only
    rw [if_neg hrd, if_neg (by omega)]
  have hstep : TftpStep { tfp with foffs := 0 + (2 : ℕ) } (.lseek 1 .seekSet, .seek 1)
      { tfp with foffs := 1 } := by
    have h := TftpStep.lseek { tfp with foffs := 0 + (2 : ℕ) } 1 .seekSet (by rw [hseek]; simp)
    rwa [hseek] at h
  have hrun : Run (Guarded TftpStep fun tfp l => OpAlong (RefillInStep [1, 2, 3] 1069) tfp l.1) tfp
      [(.read 2 [], .read 2 [1, 2]), (.lseek 1 .seekSet, .seek 1)] { tfp with foffs := 1 } :=
    .cons ⟨.read hread, trivial⟩ (.cons ⟨hstep, trivial⟩ (.nil _))
  exact ⟨tfp, _, _, hopen, hread, hseek,
    ((reads_exact [1, 2, 3] hlen 1069 69 (ascii "f") _ hserved tfp hopen).1 _ _ hrun).1⟩

/-- Three blocks of zeros and one of ones. -/
def threeAndOne : List UInt8 := List.replicate 1536 0 ++ List.replicate 512 1

/-- A file of four blocks, read block by block.  When the third is awaited, the first comes in
    again and the read fails; the client then acknowledges the third, which it never had, and
    the next read returns the fourth where the third belongs. -/
theorem read_skips_block :
    ∃ tfp₀ tfp₁ tfp₂ tfp₃,
      tftpopen 69 (ascii "f") [dataTurn threeAndOne 1069 1] = some (.ok tfp₀) ∧
      tftpread tfp₀ 512 [[dataTurn threeAndOne 1069 2]] =
        some (.ok (clip threeAndOne 0 512), tfp₁) ∧
      tftpread tfp₁ 512 [[dataTurn threeAndOne 1069 1]] = some (.error .outOfStep, tfp₂) ∧
      tfp₂.foffs = 1024 ∧
      tfp₂.sent = [makerequest opRRQ (ascii "f") (ascii "octet"), ack 1, ack 2] ∧
      tftpread tfp₂ 512 [[dataTurn threeAndOne 1069 4], [dataTurn threeAndOne 1069 5]] =
        some (.ok (clip threeAndOne 1536 512), tfp₃) ∧
      tfp₃.sent = tfp₂.sent ++ [ack 3, ack 4] ∧
      clip threeAndOne 1536 512 ≠ clip threeAndOne 1024 512 := by
  have hlength : threeAndOne.length = 2048 := by
    rw [threeAndOne, List.length_append, List.length_replicate, List.length_replicate]
  have hlen : threeAndOne.length < 2147483648 := by omega
  obtain ⟨tfp₀, hopen, hsent₀⟩ := tftpopen_now threeAndOne 1069 69 (ascii "f")
  obtain ⟨hsync₀, hzero⟩ := tftpopen_served hlen
    (dataTurn_served (by omega) (by omega) (by omega)) hopen
  have hstart₀ : tfp₀.start = 0 := by simpa using hsync₀.start_eq
  obtain ⟨tfp₁, hread₀, hsync₁, hpos₁, hsent₁⟩ :=
    tftpread_block hlen hsync₀ (by omega) (by omega)
  obtain ⟨tfp₂, hread₁, hflags, hport, heof, hblock, hstart₂, hstop₂, hfoffs₂, hsent₂⟩ :=
    tftpread_outOfStep (j := 1) hsync₁ (by omega) hpos₁ (by omega) (by omega) (by omega)
  have hstart₁ := hsync₁.start_eq
  have hstop₁ := hsync₁.stop_eq
  have hfull : 512 * (2 + 2) ≤ threeAndOne.length := by omega
  obtain ⟨tfp₃, hread₂, hsent₃⟩ := tftpread_skips hflags hport heof hblock (by omega) (by omega)
    (by omega) (by omega) hfull
  refine ⟨tfp₀, tfp₁, tfp₂, tfp₃, hopen, hread₀, hread₁, by omega, ?_, hread₂, hsent₃, ?_⟩
  · rw [hsent₂, hsent₁, hsent₀]
    rfl
  · intro heq
    have hget := congrArg (·[0]?) heq
    simp only [clip, List.getElem?_take, List.getElem?_drop, threeAndOne, List.getElem?_append,
      List.length_replicate, List.getElem?_replicate] at hget
    exact absurd hget (by decide)

end Pmon.Netio
