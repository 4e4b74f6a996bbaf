import Pmon.Fs.Devio
import Pmon.Lib.Run

/-!
# Reading and writing a raw device

However a transfer is cut into turns, through the bounce buffer or not, it reads and writes the
bytes at the position.

## Key results

- `readTurn_some`, `writeTurn_true`: what one turn of a loop reads or changes.
- `readLoop_ok`, `writeLoop_ok`: what a whole transfer does.
- `devio_exact`: without a device error, every run of calls is one of a windowed device.
- `read_works`, `write_works`: a device that works makes no error.
- `read_in_front`: a position in front of the window is refused.
-/

namespace Pmon.Fs

open Pmon.Lib Pmon.Libc

variable {s s' : Devio} {bs buf bytes : List UInt8} {n leftlen : ℕ} {offs : ℤ}

/-! ## §1 Accesses -/

theorem readDevice_some (h : readDevice n s = (some bytes, s')) :
    0 ≤ s.offs ∧ bytes = s.disk.content.slice s.offs.toNat n ∧
      s' = { s with disk := ⟨s.disk.content, s.disk.next⟩ } := by
  rw [readDevice, Disk.access] at h
  cases hfault : s.disk.faults 0 with
  | some content =>
    rw [hfault] at h
    cases h
  | none =>
    rw [hfault] at h
    dsimp only at h
    split at h
    · rename_i hpos
      cases h
      exact ⟨(of_decide_eq_true hpos).1, rfl, rfl⟩
    · cases h

theorem writeDevice_true (h : writeDevice bs s = (true, s')) :
    0 ≤ s.offs ∧
      s' = { s with disk := ⟨s.disk.content.store s.offs.toNat bs, s.disk.next⟩ } := by
  rw [writeDevice, Disk.access] at h
  cases hfault : s.disk.faults 0 with
  | some content =>
    rw [hfault] at h
    cases h
  | none =>
    rw [hfault] at h
    dsimp only at h
    split at h
    · rename_i hpos
      cases h
      exact ⟨(of_decide_eq_true hpos).1, rfl⟩
    · cases h

/-- The position has moved and nothing but it and the content of the disk may have changed. -/
structure Moved (s : Devio) (n : ℕ) (content : Mem) (s' : Devio) : Prop where
  offs_eq : s'.offs = s.offs + n
  base_eq : s'.base = s.base
  stop_eq : s'.stop = s.stop
  content_eq : s'.disk.content = content

/-! ## §2 Turns -/

theorem suboffs_eq (offs : ℤ) : (suboffs offs : ℤ) = offs % devBsize := by
  rw [suboffs, devBsize]
  omega

/-- Through the bounce buffer a turn stays in its block. -/
theorem chunk_bounces (h : bounces offs leftlen = true) :
    suboffs offs + chunk offs leftlen ≤ devBsize := by
  have hsub := suboffs_lt offs
  rw [chunk, if_pos h]
  omega

/-- Through the bounce buffer a write is always in need of the old block. -/
theorem chunk_short (h : bounces offs leftlen = true) :
    suboffs offs ≠ 0 ∨ chunk offs leftlen < devBsize := by
  have hsub := suboffs_eq offs
  rw [bounces, decide_eq_true_eq] at h
  rcases h with hunaligned | hsmall
  · left
    omega
  · have hle := chunk_le offs leftlen
    right
    omega

/-- **A turn of the loop of `devio_read`** reads the bytes at the position. -/
theorem readTurn_some (h : readTurn leftlen s = (some bytes, s')) :
    0 ≤ s.offs ∧ bytes = s.disk.content.slice s.offs.toNat (chunk s.offs leftlen) ∧
      Moved s (chunk s.offs leftlen) s.disk.content s' := by
  rw [readTurn] at h
  dsimp only at h
  split at h
  · rename_i hbounce
    have hfit := chunk_bounces hbounce
    split at h
    · cases h
    · rename_i block s₁ heq
      obtain ⟨hpos, rfl, rfl⟩ := readDevice_some heq
      have hsub := suboffs_eq s.offs
      dsimp only at hpos
      simp only [Prod.mk.injEq, Option.some.injEq] at h
      obtain ⟨rfl, rfl⟩ := h
      have hstart : (s.offs - suboffs s.offs).toNat + suboffs s.offs = s.offs.toNat := by omega
      refine ⟨by omega, ?_, ⟨?_, rfl, rfl, rfl⟩⟩
      · have hholds := Mem.holds_store s.lbuff 0
          (s.disk.content.slice (s.offs - suboffs s.offs).toNat devBsize)
        have hslice := hholds.slice_drop (i := suboffs s.offs) (n := chunk s.offs leftlen)
          (by rw [Mem.length_slice]; exact hfit)
        rw [Nat.zero_add, Mem.drop_take_slice hfit, hstart] at hslice
        exact hslice
      · dsimp only
        omega
  · split at h
    · cases h
    · rename_i bytes' s₁ heq
      obtain ⟨hpos, rfl, rfl⟩ := readDevice_some heq
      cases h
      exact ⟨hpos, rfl, rfl, rfl, rfl, rfl⟩

/-- **A turn of the loop of `devio_write`** changes the bytes at the position and no others. -/
theorem writeTurn_true (h : writeTurn buf s = (true, s')) :
    0 ≤ s.offs ∧
      Moved s (chunk s.offs buf.length)
        (s.disk.content.store s.offs.toNat (buf.take (chunk s.offs buf.length))) s' := by
  rw [writeTurn] at h
  dsimp only at h
  split at h
  · rename_i hbounce
    have hfit := chunk_bounces hbounce
    have hsub := suboffs_eq s.offs
    have hshort : suboffs s.offs ≠ 0 ∨ chunk s.offs buf.length < devBsize :=
      chunk_short hbounce
    rw [if_pos hshort] at h
    rcases hread : readDevice devBsize { s with offs := s.offs - suboffs s.offs } with ⟨_ | block, s₁⟩
    · rw [hread] at h
      cases h
    · obtain ⟨hpos, rfl, rfl⟩ := readDevice_some hread
      dsimp only at hpos
      rw [hread] at h
      simp only [Bool.not_true, Bool.false_eq_true, if_false] at h
      split at h
      · cases h
      · rename_i s₂ heq
        obtain ⟨-, rfl⟩ := writeDevice_true heq
        cases h
        have hstart : (s.offs - suboffs s.offs).toNat + suboffs s.offs = s.offs.toNat := by omega
        have htake : (buf.take (chunk s.offs buf.length)).length = chunk s.offs buf.length := by
          rw [List.length_take]
          exact Nat.min_eq_left (chunk_le _ _)
        refine ⟨by omega, ?_, rfl, rfl, ?_⟩
        · dsimp only
          omega
        · dsimp only
          rw [Mem.store_patched (fun j hj => ?_) (by omega), hstart]
          have hholds := Mem.holds_store s.lbuff 0
            (s.disk.content.slice (s.offs - suboffs s.offs).toNat devBsize)
          have hslice := Mem.holds_slice s.disk.content (s.offs - suboffs s.offs).toNat devBsize
          have hlen : j < (s.disk.content.slice (s.offs - suboffs s.offs).toNat devBsize).length := by
            rw [Mem.length_slice]
            exact hj
          rw [hslice.getElem hlen, ← hholds.getElem hlen, Nat.zero_add]
  · split at h
    · cases h
    · rename_i s₁ heq
      obtain ⟨hpos, rfl⟩ := writeDevice_true heq
      cases h
      exact ⟨hpos, rfl, rfl, rfl, rfl⟩

/-! ## §3 Transfers -/

/-- **The loop of `devio_read`** reads the bytes at the position, or the device fails. -/
theorem readLoop_ok (h : readLoop leftlen s buf = (.ok bytes, s')) :
    bytes = buf ++ s.disk.content.slice s.offs.toNat leftlen ∧
      Moved s leftlen s.disk.content s' := by
  induction leftlen using Nat.strongRecOn generalizing s buf with
  | ind leftlen ih =>
    rw [readLoop] at h
    split at h
    · rename_i hzero
      cases h
      subst hzero
      exact ⟨(List.append_nil _).symm, by simp, rfl, rfl, rfl⟩
    · rename_i hne
      rcases hturn : readTurn leftlen s with ⟨_ | piece, s₁⟩
      · rw [hturn] at h
        cases h
      · rw [hturn] at h
        have hle := chunk_le s.offs leftlen
        have hpos := chunk_pos s.offs hne
        obtain ⟨hoffs, rfl, hmoved⟩ := readTurn_some hturn
        obtain ⟨rfl, hrest⟩ := ih _ (by omega) h
        have hnext : s₁.offs.toNat = s.offs.toNat + chunk s.offs leftlen := by
          rw [hmoved.offs_eq]
          omega
        refine ⟨?_, ?_, ?_, ?_, ?_⟩
        · rw [hmoved.content_eq, hnext, List.append_assoc, ← Mem.slice_append,
            Nat.add_sub_cancel' hle]
        · rw [hrest.offs_eq, hmoved.offs_eq]
          omega
        · rw [hrest.base_eq, hmoved.base_eq]
        · rw [hrest.stop_eq, hmoved.stop_eq]
        · rw [hrest.content_eq, hmoved.content_eq]

theorem readLoop_error {e : Errno} (h : readLoop leftlen s buf = (.error e, s')) :
    e = .device := by
  induction leftlen using Nat.strongRecOn generalizing s buf with
  | ind leftlen ih =>
    rw [readLoop] at h
    split at h
    · cases h
    · rename_i hne
      rcases hturn : readTurn leftlen s with ⟨_ | piece, s₁⟩
      · rw [hturn] at h
        cases h
        rfl
      · rw [hturn] at h
        have hpos := chunk_pos s.offs hne
        exact ih _ (by omega) h

theorem writeLoop_error {e : Errno} (h : writeLoop buf s = (.error e, s')) : e = .device := by
  induction hlen : buf.length using Nat.strongRecOn generalizing s buf with
  | ind leftlen ih =>
    subst hlen
    rw [writeLoop] at h
    split at h
    · cases h
    · rename_i hne
      rcases hturn : writeTurn buf s with ⟨_ | _, s₁⟩
      · rw [hturn] at h
        cases h
        rfl
      · rw [hturn] at h
        have hpos := chunk_pos s.offs (mt List.eq_nil_of_length_eq_zero hne)
        have hle := chunk_le s.offs buf.length
        have hdrop : (buf.drop (chunk s.offs buf.length)).length =
            buf.length - chunk s.offs buf.length := List.length_drop
        exact ih _ (by omega) h rfl

/-- **The loop of `devio_write`** changes the bytes at the position and no others, or the device
    fails. -/
theorem writeLoop_ok (h : writeLoop buf s = (.ok (), s')) :
    Moved s buf.length (s.disk.content.store s.offs.toNat buf) s' := by
  induction hlen : buf.length using Nat.strongRecOn generalizing s buf with
  | ind leftlen ih =>
    subst hlen
    rw [writeLoop] at h
    split at h
    · rename_i hnil
      cases h
      subst hnil
      exact ⟨by simp, rfl, rfl, rfl⟩
    · rename_i hne
      rcases hturn : writeTurn buf s with ⟨_ | _, s₁⟩
      · rw [hturn] at h
        cases h
      · rw [hturn] at h
        have hle := chunk_le s.offs buf.length
        have hpos := chunk_pos s.offs (mt List.eq_nil_of_length_eq_zero hne)
        have hdrop : (buf.drop (chunk s.offs buf.length)).length =
            buf.length - chunk s.offs buf.length := List.length_drop
        obtain ⟨hoffs, hmoved⟩ := writeTurn_true hturn
        have hrest := ih _ (by omega) h rfl
        have hnext : s₁.offs.toNat =
            s.offs.toNat + (buf.take (chunk s.offs buf.length)).length := by
          rw [hmoved.offs_eq, List.length_take]
          omega
        refine ⟨?_, ?_, ?_, ?_⟩
        · rw [hrest.offs_eq, hmoved.offs_eq, hdrop]
          omega
        · rw [hrest.base_eq, hmoved.base_eq]
        · rw [hrest.stop_eq, hmoved.stop_eq]
        · rw [hrest.content_eq, hmoved.content_eq, hnext, ← Mem.store_append,
            List.take_append_drop]

/-! ## §4 A windowed device -/

/-- A device behind a window, and a position in it. -/
structure WindowFile where
  content : Mem
  base : ℤ
  stop : ℤ
  pos : ℤ

/-- A call on a windowed device: no blocks, no buffer and no turns. -/
def WindowFile.call (getRsa : CStr → Option ℕ) (f : WindowFile) : Call → Reply × WindowFile
  | .open name =>
    let (opened, base, stop) := window getRsa name
    (.opened opened, { f with base, stop, pos := base })
  | .read blen =>
    if f.base ≤ f.pos ∧ f.pos ≤ f.stop then
      let n := (min (blen : ℤ) (f.stop - f.pos)).toNat
      (.moved (.ok (f.content.slice f.pos.toNat n)) (wrap32 n), { f with pos := f.pos + n })
    else (.moved (.error .einval) (-1), f)
  | .write buf =>
    (.moved (.ok buf) (wrap32 buf.length),
      { f with content := f.content.store f.pos.toNat buf, pos := f.pos + buf.length })
  | .lseek offs whence =>
    let pos := min (wrap64 ((if whence = 0 then f.base else f.pos) + offs)) f.stop
    (.at (wrap64 (pos - f.base)), { f with pos })

def WindowStep (getRsa : CStr → Option ℕ) (f : WindowFile) (l : Call × Reply) (f' : WindowFile) :
    Prop :=
  f.call getRsa l.1 = (l.2, f')

def Devio.file (s : Devio) : WindowFile := ⟨s.disk.content, s.base, s.stop, s.offs⟩

/-- The device has done what it was asked to. -/
def NoFault : Call × Reply → Prop
  | (_, .moved (.error .device) _) => False
  | _ => True

variable {getRsa : CStr → Option ℕ} {r : Except Errno (List UInt8)}

theorem Moved.file_eq {content : Mem} (h : Moved s n content s') :
    s'.file = ⟨content, s.base, s.stop, s.offs + n⟩ := by
  rw [Devio.file, h.offs_eq, h.base_eq, h.stop_eq, h.content_eq]

theorem clipLen_eq (s : Devio) (blen : ℕ) (h : s.offs ≤ s.stop) :
    clipLen s blen = (min (blen : ℤ) (s.stop - s.offs)).toNat := by
  rw [clipLen]
  split <;> omega

/-- `devio_read` without a device error. -/
theorem devioRead_file {blen : ℕ} (h : devioRead s blen = (r, s')) (hr : r ≠ .error .device) :
    s.file.call getRsa (.read blen) = (.moved r (retval r), s'.file) := by
  rw [devioRead] at h
  split at h
  · rename_i hout
    cases h
    rw [WindowFile.call, if_neg (by rw [Devio.file]; dsimp only; omega)]
    rfl
  · rename_i hin
    rw [WindowFile.call, if_pos (by rw [Devio.file]; dsimp only; omega)]
    cases r with
    | error e => exact absurd (readLoop_error h) (fun he => hr (he ▸ rfl))
    | ok bytes =>
      obtain ⟨rfl, hmoved⟩ := readLoop_ok h
      rw [clipLen_eq s blen (by omega)] at hmoved ⊢
      rw [hmoved.file_eq, List.nil_append, retval, Mem.length_slice]
      rfl

/-- `devio_write` without a device error. -/
theorem devioWrite_file (h : devioWrite s buf = (r, s')) (hr : r ≠ .error .device) :
    s.file.call getRsa (.write buf) = (.moved r (retval r), s'.file) := by
  rw [devioWrite] at h
  split at h
  · rename_i s₁ heq
    cases h
    rw [(writeLoop_ok heq).file_eq]
    rfl
  · rename_i e s₁ heq
    cases h
    exact absurd (writeLoop_error heq) fun he => hr (he ▸ rfl)

theorem devioLseek_file (s : Devio) (offs : ℤ) (whence : ℕ) :
    s.file.call getRsa (.lseek offs whence) =
      (.at (devioLseek s offs whence).1, (devioLseek s offs whence).2.file) := by
  have hpos : min (wrap64 ((if whence = 0 then s.base else s.offs) + offs)) s.stop =
      (devioLseek s offs whence).2.offs := by
    rw [devioLseek]
    split <;> dsimp only <;> split <;> omega
  rw [WindowFile.call]
  dsimp only [Devio.file]
  rw [hpos]
  rfl

/-- **One call.** -/
theorem callStep_file (h : Guarded (CallStep getRsa) (fun _ l => NoFault l) s l s') :
    WindowStep getRsa s.file l s'.file := by
  obtain ⟨⟨op, reply⟩, rfl⟩ : ∃ l', l' = l := ⟨l, rfl⟩
  obtain ⟨hcall, hfault⟩ := h
  rw [CallStep] at hcall
  rw [WindowStep]
  cases op with
  | «open» name =>
    cases hcall
    rfl
  | read blen =>
    cases hcall
    exact devioRead_file rfl fun hr => by rw [hr] at hfault; exact hfault
  | write buf =>
    cases hcall
    exact devioWrite_file rfl fun hr => by rw [hr] at hfault; exact hfault
  | lseek offs whence =>
    cases hcall
    exact devioLseek_file s offs whence

/-- **Raw devices.**  Whatever is opened, read, written and positioned on a descriptor, as long as
    the device makes no error every call does what it does on a windowed device: reading gives the
    bytes at the position as far as the window goes, writing changes those at the position to the
    data and no others, and both move the position behind them. -/
theorem devio_exact {ls : List (Call × Reply)}
    (h : Run (Guarded (CallStep getRsa) fun _ l => NoFault l) s ls s') :
    Run (WindowStep getRsa) s.file ls s'.file :=
  h.refine fun _ _ _ => callStep_file

/-! ## §5 Devices that work -/

/-- No access fails. -/
def Disk.Works (disk : Disk) : Prop := ∀ i, disk.faults i = none

/-- A transfer at the position stays in what an `off_t` reaches, with the rest of its last block. -/
def Reaches (s : Devio) (n : ℕ) : Prop :=
  0 ≤ s.offs ∧ s.offs + n + devBsize < 9223372036854775808

theorem access_works {disk : Disk} (hworks : disk.Works) (hpos : 0 ≤ offs)
    (hend : offs + n < 9223372036854775808) :
    disk.access offs n = (true, ⟨disk.content, disk.next⟩) := by
  rw [Disk.access, hworks 0]
  dsimp only
  rw [decide_eq_true ⟨hpos, hend⟩]

theorem readDevice_works (hworks : s.disk.Works) (hpos : 0 ≤ s.offs)
    (hend : s.offs + n < 9223372036854775808) :
    ∃ bytes s', readDevice n s = (some bytes, s') ∧ s'.disk.Works := by
  rw [readDevice, access_works hworks hpos hend]
  exact ⟨_, _, rfl, fun i => hworks (i + 1)⟩

theorem writeDevice_works (bs : List UInt8) (hworks : s.disk.Works) (hpos : 0 ≤ s.offs)
    (hend : s.offs + bs.length < 9223372036854775808) :
    ∃ s', writeDevice bs s = (true, s') ∧ s'.disk.Works := by
  rw [writeDevice, access_works hworks hpos hend]
  exact ⟨_, rfl, fun i => hworks (i + 1)⟩

theorem readTurn_works (hworks : s.disk.Works) (hreach : Reaches s leftlen) :
    ∃ bytes s', readTurn leftlen s = (some bytes, s') ∧ s'.disk.Works := by
  obtain ⟨hpos, hend⟩ := hreach
  have hle := chunk_le s.offs leftlen
  rw [readTurn]
  dsimp only
  split
  · have hsub := suboffs_eq s.offs
    have hstart : 0 ≤ s.offs - suboffs s.offs := by
      rw [hsub, devBsize]
      omega
    obtain ⟨block, s₁, hread, hworks₁⟩ := readDevice_works
      (s := { s with offs := s.offs - suboffs s.offs }) (n := devBsize) hworks hstart
      (by dsimp only; omega)
    rw [hread]
    exact ⟨_, _, rfl, hworks₁⟩
  · obtain ⟨bytes, s₁, hread, hworks₁⟩ :=
      readDevice_works (n := chunk s.offs leftlen) hworks hpos (by omega)
    rw [hread]
    exact ⟨_, _, rfl, hworks₁⟩

theorem writeTurn_works (hworks : s.disk.Works) (hreach : Reaches s buf.length) :
    ∃ s', writeTurn buf s = (true, s') ∧ s'.disk.Works := by
  obtain ⟨hpos, hend⟩ := hreach
  have hle := chunk_le s.offs buf.length
  rw [writeTurn]
  dsimp only
  split
  · rename_i hbounce
    have hsub := suboffs_eq s.offs
    have hstart : 0 ≤ s.offs - suboffs s.offs := by
      rw [hsub, devBsize]
      omega
    obtain ⟨block, s₁, hread, hworks₁⟩ := readDevice_works
      (s := { s with offs := s.offs - suboffs s.offs }) (n := devBsize) hworks hstart
      (by dsimp only; omega)
    have hoffs : s₁.offs = s.offs - suboffs s.offs := by rw [(readDevice_some hread).2.2]
    rw [if_pos (chunk_short hbounce), hread]
    dsimp only
    let lbuff := (s₁.lbuff.store 0 block).store (suboffs s.offs)
      (buf.take (chunk s.offs buf.length))
    obtain ⟨s₂, hwrite, hworks₂⟩ := writeDevice_works (s := { s₁ with lbuff })
      (lbuff.slice 0 devBsize) hworks₁ (by rw [hoffs]; exact hstart)
      (by rw [Mem.length_slice, hoffs]; omega)
    rw [if_neg (by decide), hwrite]
    exact ⟨_, rfl, hworks₂⟩
  · obtain ⟨s₁, hwrite, hworks₁⟩ :=
      writeDevice_works (buf.take (chunk s.offs buf.length)) hworks hpos
        (by rw [List.length_take]; omega)
    rw [hwrite]
    exact ⟨_, rfl, hworks₁⟩

theorem readLoop_works (buf : List UInt8) (hworks : s.disk.Works) (hreach : Reaches s leftlen) :
    ∃ bytes s', readLoop leftlen s buf = (.ok bytes, s') := by
  induction leftlen using Nat.strongRecOn generalizing s buf with
  | ind leftlen ih =>
    rw [readLoop]
    split
    · exact ⟨_, _, rfl⟩
    · rename_i hne
      have hle := chunk_le s.offs leftlen
      have hpos := chunk_pos s.offs hne
      obtain ⟨piece, s₁, hturn, hworks₁⟩ := readTurn_works hworks hreach
      have hmoved := (readTurn_some hturn).2.2
      rw [hturn]
      refine ih _ (by omega) _ hworks₁ ⟨?_, ?_⟩ <;>
        · rw [hmoved.offs_eq]
          have hstart := hreach.1
          have hend := hreach.2
          omega

theorem writeLoop_works (buf : List UInt8) (hworks : s.disk.Works) (hreach : Reaches s buf.length) :
    ∃ s', writeLoop buf s = (.ok (), s') ∧ s'.disk.Works := by
  induction hlen : buf.length using Nat.strongRecOn generalizing s buf with
  | ind leftlen ih =>
    subst hlen
    rw [writeLoop]
    split
    · exact ⟨_, rfl, hworks⟩
    · rename_i hne
      have hle := chunk_le s.offs buf.length
      have hpos := chunk_pos s.offs (mt List.eq_nil_of_length_eq_zero hne)
      have hdrop : (buf.drop (chunk s.offs buf.length)).length =
          buf.length - chunk s.offs buf.length := List.length_drop
      obtain ⟨s₁, hturn, hworks₁⟩ := writeTurn_works hworks hreach
      have hmoved := (writeTurn_true hturn).2
      rw [hturn]
      refine ih _ (by omega) _ hworks₁ ⟨?_, ?_⟩ rfl <;>
        · rw [hmoved.offs_eq]
          have hstart := hreach.1
          have hend := hreach.2
          omega

/-- **A device that works** makes no error in what an `off_t` reaches. -/
theorem read_works {blen : ℕ} (hworks : s.disk.Works) (hreach : Reaches s blen) :
    NoFault (.read blen, (call getRsa s (.read blen)).1) := by
  rw [call]
  rcases hread : devioRead s blen with ⟨r, s'⟩
  rw [devioRead] at hread
  split at hread
  · cases hread
    trivial
  · have hclip : clipLen s blen ≤ blen := by
      rw [clipLen]
      split <;> omega
    have hpos := hreach.1
    have hend := hreach.2
    obtain ⟨bytes, s₁, hloop⟩ :=
      readLoop_works [] hworks (⟨hpos, by omega⟩ : Reaches s (clipLen s blen))
    rw [hloop] at hread
    cases hread
    trivial

theorem write_works (hworks : s.disk.Works) (hreach : Reaches s buf.length) :
    NoFault (.write buf, (call getRsa s (.write buf)).1) := by
  obtain ⟨s₁, hloop, -⟩ := writeLoop_works buf hworks hreach
  rw [call, devioWrite, hloop]
  trivial

/-- A start and a size of one block each. -/
def oneBlock : CStr → Option ℕ := fun _ => some 1

/-- A disk of one byte everywhere, that works. -/
def goodDisk (c : UInt8) : Devio := ⟨0, 0, 0, fun _ => 0, ⟨fun _ => c, fun _ => none⟩⟩

/-- A write over the seam of two blocks. -/
theorem devio_exact_seam :
    ∃ s', Run (WindowStep oneBlock) (goodDisk 7).file
      [(.open (ascii "@1,1"), .opened (.ok ())), (.lseek 511 0, .at 511),
        (.write [1, 2, 3], .moved (.ok [1, 2, 3]) 3)] s' := by
  let s₁ : Devio := { goodDisk 7 with offs := 512, base := 512, stop := 1024 }
  let s : Devio := { s₁ with offs := 1023 }
  have hopen : call oneBlock (goodDisk 7) (.open (ascii "@1,1")) = (.opened (.ok ()), s₁) := rfl
  have hseek : call oneBlock s₁ (.lseek 511 0) = (.at 511, s) := rfl
  obtain ⟨s', hloop, -⟩ := writeLoop_works (s := s) [1, 2, 3] (fun _ => rfl)
    ⟨by decide, by decide⟩
  have hcall : call oneBlock s (.write [1, 2, 3]) = (.moved (.ok [1, 2, 3]) 3, s') := by
    rw [call, devioWrite, hloop]
    rfl
  have hrun : Run (Guarded (CallStep oneBlock) fun _ l => NoFault l) (goodDisk 7)
      [(.open (ascii "@1,1"), .opened (.ok ())), (.lseek 511 0, .at 511),
        (.write [1, 2, 3], .moved (.ok [1, 2, 3]) 3)] s' :=
    .cons ⟨hopen, trivial⟩ (.cons ⟨hseek, trivial⟩ (.cons ⟨hcall, trivial⟩ (.nil _)))
  exact ⟨_, devio_exact hrun⟩

/-- **A position in front of the window**: nothing is read, though a byte of the window was asked
    for. -/
theorem read_in_front :
    ∃ s s', Run (CallStep oneBlock) (goodDisk 7)
        [(.open (ascii "@1,1"), .opened (.ok ())), (.lseek (-1) 0, .at (-1))] s ∧
      s.base = 512 ∧ s.stop = 1024 ∧ s.offs = 511 ∧
      CallStep oneBlock s (.read 2, .moved (.error .einval) (-1)) s' := by
  refine ⟨_, _, .cons rfl (.cons rfl (.nil _)), rfl, rfl, rfl, rfl⟩

end Pmon.Fs
