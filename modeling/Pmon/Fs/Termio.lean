import Pmon.Lib.RingQueue
import Mathlib.Data.List.FinRange

/-!
# Terminals

`term_write`, `scandevs`, `term_read` of `pmon/fs/termio.c` and the queues of `lib/libc/queue.c`
between them and the devices.  What the devices do is given from outside: a call of `scandevs` finds
at each device the characters that have come in, how many characters it accepts, and whether a
handler of `SIGINT` leaves the call that is running.

## Key results

- `rxLoop_moves`: the characters that come in are kept, consumed, or lost for want of room.
- `scandevs_moves`: what a scan does to each device.
- `fill_spec`: what a turn of a write puts into the queue.
-/

namespace Pmon.Fs.Tty

open Pmon.Lib

/-! ## §1 Devices -/

/-- `struct termio`: the flags of `c_iflag`, `c_oflag`, `c_lflag`, and `c_cc`. -/
structure Termio where
  istrip : Bool
  icrnl : Bool
  ixon : Bool
  ixany : Bool
  ixoff : Bool
  onlcr : Bool
  icanon : Bool
  isig : Bool
  echo : Bool
  echoe : Bool
  vintr : UInt8
  verase : UInt8
  veol : UInt8
  veol2 : UInt8
  vstart : UInt8
  vstop : UInt8

/-- What `OP_TX` hands to a device: a character of the write queue, or one of `chwrite`. -/
inductive Handed where
  | queued (c : UInt8)
  | urgent (c : UInt8)

/-- What becomes of a character that is received. -/
inductive Fate where
  | signal
  | flow
  | kept
  | lost

/-- A character that is received, with the room that there is for it. -/
structure Receipt where
  char : UInt8
  room : ℕ
  fate : Fate

/-- `DevEntry`, with all that has been handed to the device, and received from it. -/
structure DevEntry where
  txoff : Bool
  rxoff : Bool
  rxq : RingQueue UInt8
  txq : RingQueue UInt8
  t : Termio
  handed : List Handed
  received : List Receipt

/-- `Qcreate`; `limit` is a short. -/
def qcreate (size : ℕ) : Option (RingQueue UInt8) :=
  if size &&& (size - 1) ≠ 0 then none else some (.empty ((size - 1) % 65536) fun _ => 0)

/-- `devinit`, for one device. -/
def devinit (t : Termio) (rxqsize : ℕ) : Option DevEntry :=
  (qcreate rxqsize).map fun q => ⟨false, false, q, q, t, [], []⟩

/-- `chwrite`: it waits until the device is ready. -/
def DevEntry.chwrite (p : DevEntry) (c : UInt8) : DevEntry :=
  { p with handed := p.handed ++ [.urgent c] }

def DevEntry.note (p : DevEntry) (c : UInt8) (fate : Fate) : DevEntry :=
  { p with received := p.received ++ [⟨c, p.rxq.space, fate⟩] }

/-- A character goes into the read queue; with little room left, the sender is told to stop. -/
def DevEntry.keep (p : DevEntry) (c : UInt8) : DevEntry :=
  let n := p.rxq.space
  let p := { p.note c .kept with rxq := p.rxq.put c }
  if n < 20 ∧ p.rxoff = false then
    let p := { p with rxoff := true }
    if p.t.ixoff then p.chwrite 0x13 else p
  else p

/-! ## §2 Scans -/

/-- What a scan finds at a device. -/
structure Visit where
  arriving : List UInt8
  /-- How many characters it accepts. -/
  ready : ℕ
  /-- Whether `SIGINT` leaves the call. -/
  jumps : Bool

/-- The read queue; the value says whether the call is left. -/
def rxLoop (jumps : Bool) : DevEntry → List UInt8 → DevEntry × Bool
  | p, [] => (p, false)
  | p, c :: arriving =>
    let c := if p.t.istrip then c &&& 0x7f else c
    if p.t.isig ∧ c = p.t.vintr then
      if jumps then (p.note c .signal, true) else rxLoop jumps (p.note c .signal) arriving
    else if p.t.ixon ∧ p.t.ixany ∧ p.txoff then
      rxLoop jumps { p.note c .flow with txoff := false } arriving
    else if p.t.ixon ∧ c = p.t.vstop then
      rxLoop jumps { p.note c .flow with txoff := true } arriving
    else if p.t.ixon ∧ c = p.t.vstart then
      rxLoop jumps { p.note c .flow with txoff := false } arriving
    else if 0 < p.rxq.space then rxLoop jumps (p.keep c) arriving
    else (p.note c .lost, false)

/-- The write queue, of `n` characters. -/
def txLoop : (ready n : ℕ) → DevEntry → DevEntry
  | 0, _, p => p
  | ready + 1, n, p =>
    if 0 < n ∧ p.txoff = false then
      txLoop ready (n - 1)
        { p with txq := p.txq.get.2, handed := p.handed ++ [.queued p.txq.get.1] }
    else p

variable {n : ℕ}

/-- `DevTable`, as far as there are devices. -/
abbrev DevTable (n : ℕ) := Fin n → DevEntry

/-- What a scan finds at all of them. -/
abbrev Scan (n : ℕ) := Fin n → Visit

/-- The loop of `scandevs`. -/
def scanLoop (scan : Scan n) : List (Fin n) → DevTable n → DevTable n × Bool
  | [], tab => (tab, false)
  | i :: devs, tab =>
    let (p, jumped) := rxLoop (scan i).jumps (tab i) (scan i).arriving
    if jumped then (Function.update tab i p, true)
    else scanLoop scan devs (Function.update tab i (txLoop (scan i).ready p.txq.count p))

def scandevs (tab : DevTable n) (scan : Scan n) : DevTable n × Bool :=
  scanLoop scan (List.finRange n) tab

/-! ## §3 Writes -/

/-- The inner loop of `term_write`, for `i` places: the queue, and what is left of the data. -/
def fill (onlcr : Bool) : ℕ → RingQueue UInt8 → List UInt8 → RingQueue UInt8 × List UInt8
  | _, q, [] => (q, [])
  | i, q, c :: buf =>
    if 2 < i then
      if onlcr ∧ c = 0x0a then fill onlcr (i - 2) ((q.put 0x0d).put c) buf
      else fill onlcr (i - 1) (q.put c) buf
    else (q, c :: buf)

/-- `while (Qused(p->txq)) scandevs();`, with the scans that follow: what is left of them, and
    whether the call goes on. -/
def drain (dsel : Fin n) : DevTable n → List (Scan n) → DevTable n × List (Scan n) × Bool
  | tab, [] => (tab, [], (tab dsel).txq.count = 0)
  | tab, scan :: scans =>
    if (tab dsel).txq.count = 0 then (tab, scan :: scans, true)
    else
      let (tab, jumped) := scandevs tab scan
      if jumped then (tab, scans, false) else drain dsel tab scans

/-- The data for one device; `fuel` bounds the turns. -/
def writeDev (dsel : Fin n) :
    (fuel : ℕ) → DevTable n → List (Scan n) → List UInt8 → DevTable n × List (Scan n) × Bool
  | 0, tab, scans, _ => (tab, scans, false)
  | fuel + 1, tab, scans, buf =>
    if buf = [] then (tab, scans, true)
    else
      let p := tab dsel
      let (txq, rest) := fill p.t.onlcr p.txq.space p.txq buf
      let (tab, scans, goesOn) := drain dsel (Function.update tab dsel { p with txq }) scans
      if goesOn then writeDev dsel fuel tab scans rest else (tab, scans, false)

/-- `DevTable[dsel+1].handler?dsel+1:0`. -/
def nextDev (dsel : Fin n) : Fin n :=
  if h : dsel + 1 < n then ⟨dsel + 1, h⟩ else ⟨0, Nat.lt_of_le_of_lt (Nat.zero_le _) dsel.isLt⟩

/-- The outer loop of `term_write`. -/
def writeLoop (both : Bool) (dev : Fin n) (buf : List UInt8) :
    (fuel : ℕ) → (dsel : Fin n) → DevTable n → List (Scan n) → DevTable n × List (Scan n) × Bool
  | 0, _, tab, scans => (tab, scans, false)
  | fuel + 1, dsel, tab, scans =>
    let (tab, scans, goesOn) := writeDev dsel (buf.length + scans.length + 1) tab scans buf
    if goesOn then
      if nextDev dsel ≠ dev ∧ both then writeLoop both dev buf fuel (nextDev dsel) tab scans
      else (tab, scans, true)
    else (tab, scans, false)

/-- `term_write`; `both` is `output_to_both`.  It ends, or the scans are used up, or it is left. -/
def termWrite (both : Bool) (dev : Fin n) (tab : DevTable n) (scans : List (Scan n))
    (buf : List UInt8) : DevTable n × List (Scan n) × Bool :=
  writeLoop both dev buf n dev tab scans

/-! ## §4 Reads -/

/-- A character of a read is a `char`, those of `c_cc` are `unsigned char`. -/
def sameChar (ch cc : UInt8) : Bool := ch < 0x80 && ch == cc

/-- What a read makes of a character: its buffer, what it echoes, and whether it ends.  `t₀` is of
    the device that is read, `t` of the one that the character is from. -/
def keyStep (t₀ t : Termio) (buf : List UInt8) (ch : UInt8) : List UInt8 × List UInt8 × Bool :=
  let ch := if t.icrnl ∧ ch = 0x0d then 0x0a else ch
  if t₀.icanon then
    if sameChar ch t.verase then
      if buf = [] then (buf, [], false)
      else
        (buf.dropLast,
          if t.echoe then [0x08, 0x20, 0x08] else if t.echo then [0x08] else [], false)
    else
      (buf ++ [ch], if t₀.echo then [ch] else [], sameChar ch t.veol || sameChar ch t.veol2)
  else (buf ++ [ch], [], false)

/-- `Qget` of the read queue; with room again, the sender is told to go on. -/
def DevEntry.take (p : DevEntry) : UInt8 × DevEntry :=
  let p :=
    if p.rxq.count < 20 ∧ p.rxoff then
      let p := { p with rxoff := false }
      if p.t.ixoff then p.chwrite 0x11 else p
    else p
  (p.rxq.get.1, { p with rxq := p.rxq.get.2 })

/-- What a call has done: the bytes that have been given to writes, whether it has ended, the
    characters that a read has taken, and what it has returned. -/
structure Report (n : ℕ) where
  written : List UInt8
  finished : Bool
  taken : List (Fin n × UInt8)
  returned : List UInt8

/-- Which device is looked at next: `none` when it is to begin with the first one again. -/
def pickDev (inBoth : Bool) (dev : Fin n) (dsel : ℕ) : Option (Fin n) × ℕ :=
  if inBoth then if h : dsel < n then (some ⟨dsel, h⟩, dsel + 1) else (none, 0)
  else (some dev, dsel)

/-- The loop of `term_read`, with its buffer; `inBoth` is `input_from_both`. -/
def readLoop (inBoth outBoth : Bool) (dev : Fin n) (count : ℕ) :
    (fuel dsel : ℕ) → DevTable n → List (Scan n) → (buf : List UInt8) → DevTable n × Report n
  | 0, _, tab, _, _ => (tab, ⟨[], false, [], []⟩)
  | fuel + 1, dsel, tab, scans, buf =>
    if count ≤ buf.length then (tab, ⟨[], true, [], buf⟩)
    else
      match scans with
      | [] => (tab, ⟨[], false, [], []⟩)
      | scan :: scans =>
        let (tab, jumped) := scandevs tab scan
        if jumped then (tab, ⟨[], false, [], []⟩)
        else
          match pickDev inBoth dev dsel with
          | (none, dsel) => readLoop inBoth outBoth dev count fuel dsel tab scans buf
          | (some i, dsel) =>
            if (tab i).rxq.count = 0 then
              readLoop inBoth outBoth dev count fuel dsel tab scans buf
            else
              let (ch, p) := (tab i).take
              let (buf, echo, ends) := keyStep (tab dev).t p.t buf ch
              let (tab, scans, goesOn) :=
                termWrite outBoth dev (Function.update tab i p) scans echo
              if goesOn then
                if ends then (tab, ⟨echo, true, [(i, ch)], buf⟩)
                else
                  let (tab, r) := readLoop inBoth outBoth dev count fuel dsel tab scans buf
                  (tab, { r with written := echo ++ r.written, taken := (i, ch) :: r.taken })
              else (tab, ⟨echo, false, [(i, ch)], []⟩)

/-- `term_read`. -/
def termRead (inBoth outBoth : Bool) (dev : Fin n) (tab : DevTable n) (scans : List (Scan n))
    (count : ℕ) : DevTable n × Report n :=
  readLoop inBoth outBoth dev count (scans.length + 1) dev tab scans []

/-! ## §5 What is on its way -/

/-- The characters of the write queue that a device has been handed. -/
def DevEntry.sent (p : DevEntry) : List UInt8 :=
  p.handed.filterMap fun
    | .queued c => some c
    | .urgent _ => none

/-- Those of `chwrite`. -/
def DevEntry.urgents (p : DevEntry) : List UInt8 :=
  p.handed.filterMap fun
    | .queued _ => none
    | .urgent c => some c

/-- The characters that have gone into the read queue. -/
def DevEntry.kept (p : DevEntry) : List UInt8 :=
  p.received.filterMap fun r =>
    match r.fate with
    | .kept => some r.char
    | _ => none

/-- What has been handed to the device, and what waits in the queue. -/
def DevEntry.out (p : DevEntry) : List UInt8 := p.sent ++ p.txq.toList

/-- The data with `ONLCR`. -/
def expand (onlcr : Bool) (buf : List UInt8) : List UInt8 :=
  buf.flatMap fun c => if onlcr ∧ c = 0x0a then [0x0d, c] else [c]

/-- Signals and flow control consume the characters that are for them, and nothing is lost while
    there is room. -/
def Receipt.Explained (t : Termio) (r : Receipt) : Prop :=
  match r.fate with
  | .signal => t.isig ∧ r.char = t.vintr
  | .flow => t.ixon ∧ (t.ixany ∨ r.char = t.vstop ∨ r.char = t.vstart)
  | .kept => 0 < r.room
  | .lost => r.room = 0

structure DevEntry.Valid (p : DevEntry) : Prop where
  rxq : p.rxq.Valid
  txq : p.txq.Valid

/-- **What may happen to a device**: `e` is put behind what is on its way to it, and `taken` comes
    out of its read queue in front. -/
structure Moved (e taken : List UInt8) (p p' : DevEntry) : Prop where
  valid : p'.Valid
  t : p'.t = p.t
  limit : p'.txq.limit = p.txq.limit
  handed : p.handed <+: p'.handed
  out : p'.out = p.out ++ e
  rx : ∃ ks, taken ++ p'.rxq.toList = p.rxq.toList ++ ks ∧ p'.kept = p.kept ++ ks
  urgents : p.t.ixoff = false → p'.urgents = p.urgents
  received : ∀ r ∈ p'.received, r ∈ p.received ∨ r.Explained p.t

variable {p p' p'' : DevEntry} {e e' taken taken' : List UInt8}

theorem Moved.refl (h : p.Valid) : Moved [] [] p p where
  valid := h
  t := rfl
  limit := rfl
  handed := List.prefix_refl _
  out := (List.append_nil _).symm
  rx := ⟨[], (List.append_nil _).symm, (List.append_nil _).symm⟩
  urgents _ := rfl
  received _ hr := Or.inl hr

theorem Moved.trans (h : Moved e taken p p') (h' : Moved e' taken' p' p'') :
    Moved (e ++ e') (taken ++ taken') p p'' where
  valid := h'.valid
  t := h'.t.trans h.t
  limit := h'.limit.trans h.limit
  handed := h.handed.trans h'.handed
  out := by rw [h'.out, h.out, List.append_assoc]
  rx := by
    obtain ⟨ks, hks, hkept⟩ := h.rx
    obtain ⟨ks', hks', hkept'⟩ := h'.rx
    refine ⟨ks ++ ks', ?_, ?_⟩
    · rw [List.append_assoc, hks', ← List.append_assoc, hks, List.append_assoc]
    · rw [hkept', hkept, List.append_assoc]
  urgents hoff := (h'.urgents (by rwa [h.t])).trans (h.urgents hoff)
  received r hr := by
    rcases h'.received r hr with hr | hr
    · exact h.received r hr
    · rw [h.t] at hr
      exact Or.inr hr

/-- A character is consumed, or lost. -/
theorem note_moves (c : UInt8) (fate : Fate) (h : p.Valid) (hfate : fate ≠ .kept)
    (hexp : Receipt.Explained p.t ⟨c, p.rxq.space, fate⟩) : Moved [] [] p (p.note c fate) where
  valid := ⟨h.rxq, h.txq⟩
  t := rfl
  limit := rfl
  handed := List.prefix_refl _
  out := (List.append_nil _).symm
  rx := by
    refine ⟨[], (List.append_nil _).symm, ?_⟩
    rw [List.append_nil]
    unfold DevEntry.kept DevEntry.note
    rw [List.filterMap_append]
    cases fate with
    | kept => exact absurd rfl hfate
    | signal => exact List.append_nil _
    | flow => exact List.append_nil _
    | lost => exact List.append_nil _
  urgents _ := rfl
  received r hr := by
    rcases List.mem_append.mp hr with hr | hr
    · exact Or.inl hr
    · rw [List.mem_singleton.mp hr]
      exact Or.inr hexp

/-- Whether a device may be handed characters is no matter here. -/
theorem Moved.txoff (h : Moved e taken p p') (off : Bool) :
    Moved e taken p { p' with txoff := off } :=
  ⟨⟨h.valid.rxq, h.valid.txq⟩, h.t, h.limit, h.handed, h.out, h.rx, h.urgents, h.received⟩

theorem Moved.rxoff (h : Moved e taken p p') (off : Bool) :
    Moved e taken p { p' with rxoff := off } :=
  ⟨⟨h.valid.rxq, h.valid.txq⟩, h.t, h.limit, h.handed, h.out, h.rx, h.urgents, h.received⟩

/-- Characters of `chwrite` go past the queue. -/
theorem Moved.chwrite (h : Moved e taken p p') (hoff : p.t.ixoff = true) (c : UInt8) :
    Moved e taken p (p'.chwrite c) where
  valid := ⟨h.valid.rxq, h.valid.txq⟩
  t := h.t
  limit := h.limit
  handed := h.handed.trans (List.prefix_append _ _)
  out := by
    rw [← h.out]
    unfold DevEntry.out DevEntry.sent DevEntry.chwrite
    rw [List.filterMap_append]
    simp
  rx := h.rx
  urgents hno := by rw [hoff] at hno; cases hno
  received := h.received

theorem put_moves (h : p.Valid) (hroom : 0 < p.rxq.space) (c : UInt8) :
    Moved [] [] p { p.note c .kept with rxq := p.rxq.put c } where
  valid := ⟨h.rxq.put (Nat.lt_of_sub_pos hroom) c, h.txq⟩
  t := rfl
  limit := rfl
  handed := List.prefix_refl _
  out := (List.append_nil _).symm
  rx := by
    refine ⟨[c], h.rxq.toList_put (Nat.lt_of_sub_pos hroom) c, ?_⟩
    unfold DevEntry.kept DevEntry.note
    exact List.filterMap_append
  urgents _ := rfl
  received r hr := by
    rcases List.mem_append.mp hr with hr | hr
    · exact Or.inl hr
    · rw [List.mem_singleton.mp hr]
      exact Or.inr hroom

theorem keep_moves (h : p.Valid) (hroom : 0 < p.rxq.space) (c : UInt8) :
    Moved [] [] p (p.keep c) := by
  have hput := put_moves h hroom c
  unfold DevEntry.keep
  dsimp only
  split
  · split
    · rename_i hoff
      exact (hput.rxoff true).chwrite hoff 0x13
    · exact hput.rxoff true
  · exact hput

/-- **The read queue**: no character is lost while there is room. -/
theorem rxLoop_moves (jumps : Bool) (h : p.Valid) (arriving : List UInt8) :
    Moved [] [] p (rxLoop jumps p arriving).1 := by
  induction arriving generalizing p with
  | nil => exact .refl h
  | cons c arriving ih =>
    rw [rxLoop]
    dsimp only
    generalize (if p.t.istrip then c &&& 0x7f else c) = c
    -- what follows a character goes on from where it has left the device
    have hnext : ∀ {q}, Moved [] [] p q → Moved [] [] p (rxLoop jumps q arriving).1 :=
      fun hq => hq.trans (ih hq.valid)
    split
    · rename_i hsig
      have hnote := note_moves c .signal h (by simp) hsig
      split
      · exact hnote
      · exact hnext hnote
    · split
      · rename_i hany
        exact hnext ((note_moves c .flow h (by simp)
          ⟨hany.1, Or.inl hany.2.1⟩).txoff false)
      · split
        · rename_i hstop
          exact hnext ((note_moves c .flow h (by simp)
            ⟨hstop.1, Or.inr (Or.inl hstop.2)⟩).txoff true)
        · split
          · rename_i hstart
            exact hnext ((note_moves c .flow h (by simp)
              ⟨hstart.1, Or.inr (Or.inr hstart.2)⟩).txoff false)
          · split
            · rename_i hroom
              exact hnext (keep_moves h hroom c)
            · rename_i hfull
              exact note_moves c .lost h (by simp) (Nat.eq_zero_of_not_pos hfull)

/-- One character of the write queue. -/
theorem send_moves (h : p.Valid) (hsome : 0 < p.txq.count) : Moved [] [] p
    { p with txq := p.txq.get.2, handed := p.handed ++ [.queued p.txq.get.1] } where
  valid := ⟨h.rxq, h.txq.get⟩
  t := rfl
  limit := rfl
  handed := List.prefix_append _ _
  out := by
    rw [List.append_nil]
    unfold DevEntry.out DevEntry.sent
    rw [h.txq.toList_get hsome, List.filterMap_append, List.append_assoc]
    rfl
  rx := ⟨[], (List.append_nil _).symm, (List.append_nil _).symm⟩
  urgents _ := by
    unfold DevEntry.urgents
    rw [List.filterMap_append]
    exact List.append_nil _
  received _ hr := Or.inl hr

theorem txLoop_moves (ready n : ℕ) (h : p.Valid) (hn : n ≤ p.txq.count) :
    Moved [] [] p (txLoop ready n p) := by
  induction ready generalizing n p with
  | zero => exact .refl h
  | succ ready ih =>
    rw [txLoop]
    split
    · rename_i hgo
      have hsend := send_moves h (Nat.lt_of_lt_of_le hgo.1 hn)
      exact hsend.trans (ih (n - 1) hsend.valid (by
        change n - 1 ≤ p.txq.count - 1
        omega))
    · exact .refl h

variable {n : ℕ} {tab tab' : DevTable n} {scan : Scan n} {scans : List (Scan n)} {i dsel : Fin n}
  {buf : List UInt8}

theorem scanLoop_moves (devs : List (Fin n)) (h : ∀ i, (tab i).Valid) (i : Fin n) :
    Moved [] [] (tab i) ((scanLoop scan devs tab).1 i) := by
  induction devs generalizing tab with
  | nil => exact .refl (h i)
  | cons d devs ih =>
    have hrx := rxLoop_moves (scan d).jumps (h d) (scan d).arriving
    have htx := hrx.trans (txLoop_moves (scan d).ready
      (rxLoop (scan d).jumps (tab d) (scan d).arriving).1.txq.count hrx.valid (Nat.le_refl _))
    have hone : ∀ {q}, Moved [] [] (tab d) q → ∀ j,
        Moved [] [] (tab j) (Function.update tab d q j) := by
      intro q hq j
      by_cases hj : j = d
      · subst hj
        rwa [Function.update_self]
      · rw [Function.update_of_ne hj]
        exact .refl (h j)
    rw [scanLoop]
    dsimp only
    split
    · exact hone hrx i
    · exact (hone htx i).trans (ih fun j => (hone htx j).valid)

/-- **What a scan does** to each device: nothing is put behind what is on its way, and nothing is
    taken. -/
theorem scandevs_moves (h : ∀ i, (tab i).Valid) (scan : Scan n) (i : Fin n) :
    Moved [] [] (tab i) ((scandevs tab scan).1 i) :=
  scanLoop_moves _ h i

/-! ## §6 Writes -/

/-- **A turn of a write** puts as much of the data into the queue as there are places for. -/
theorem fill_spec (onlcr : Bool) {q : RingQueue UInt8} (h : q.Valid) (places : ℕ)
    (hplaces : places ≤ q.space) (buf : List UInt8) :
    ∃ done, buf = done ++ (fill onlcr places q buf).2 ∧ (fill onlcr places q buf).1.Valid ∧
      (fill onlcr places q buf).1.toList = q.toList ++ expand onlcr done ∧
      (fill onlcr places q buf).1.limit = q.limit ∧
      (2 < places → buf ≠ [] → (fill onlcr places q buf).2.length < buf.length) ∧
      (places ≤ 2 → (fill onlcr places q buf).1 = q) := by
  induction buf generalizing places q with
  | nil =>
    exact ⟨[], rfl, h, (List.append_nil _).symm, rfl, fun _ hne => absurd rfl hne, fun _ => rfl⟩
  | cons c buf ih =>
    rw [fill]
    by_cases hgo : 2 < places
    · rw [if_pos hgo]
      unfold RingQueue.space at hplaces
      have hroom : q.count < q.limit := by omega
      by_cases hcr : onlcr ∧ c = 0x0a
      · rw [if_pos hcr]
        have hput := h.put hroom 0x0d
        have hroom' : (q.put 0x0d).count < (q.put 0x0d).limit := by
          rw [RingQueue.put_count, RingQueue.put_limit]
          omega
        obtain ⟨done, hbuf, hvalid, hlist, hlimit, -, -⟩ :=
          ih (hput.put hroom' c) (places - 2) (by
            unfold RingQueue.space
            simp only [RingQueue.put_count, RingQueue.put_limit]
            omega)
        refine ⟨c :: done, by rw [List.cons_append, ← hbuf], hvalid, ?_, hlimit, ?_, by omega⟩
        · rw [hlist, hput.toList_put hroom', h.toList_put hroom]
          simp [expand, hcr]
        · intro _ _
          have hlen := congrArg List.length hbuf
          rw [List.length_append] at hlen
          rw [List.length_cons]
          omega
      · rw [if_neg hcr]
        obtain ⟨done, hbuf, hvalid, hlist, hlimit, -, -⟩ :=
          ih (h.put hroom c) (places - 1) (by
            unfold RingQueue.space
            simp only [RingQueue.put_count, RingQueue.put_limit]
            omega)
        refine ⟨c :: done, by rw [List.cons_append, ← hbuf], hvalid, ?_, hlimit, ?_, by omega⟩
        · rw [hlist, h.toList_put hroom]
          simp [expand, hcr]
        · intro _ _
          have hlen := congrArg List.length hbuf
          rw [List.length_append] at hlen
          rw [List.length_cons]
          omega
    · rw [if_neg hgo]
      exact ⟨[], rfl, h, (List.append_nil _).symm, rfl, fun hlt => absurd hlt hgo, fun _ => rfl⟩

end Pmon.Fs.Tty
