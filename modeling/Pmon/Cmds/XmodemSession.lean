import Pmon.Cmds.XmodemRuns

/-!
# XMODEM over a line that loses replies

A sender that numbers its blocks right and sends each again until it is acknowledged, and the
receiver's loop, turn by turn.  What the sender sends arrives; the reply to it may be lost.  The
receiver compares the number of a block with that of the next block only, so it refuses the block
it has just taken when that comes again, and the sender never gets over it.

## Key results

- `takeBlock_frame`: what the receiver does with a right block: its number decides.
- `step_inStep`, `step_stuck`: one turn of both sides, in step and after a lost reply.
- `xmodemSession_exact`: the transfer completes if and only if no block's reply is lost.
-/

namespace Pmon.Cmds

open Pmon.Lib

/-! ## §1 The sender -/

/-- The data of one block. -/
structure XmodemData where
  bytes : List UInt8
  length_eq : bytes.length = blocksize

/-- Block `n` as a right sender sends it. -/
def blockFrame (n : ℕ) (data : XmodemData) : List UInt8 :=
  [xmodemSoh, .ofNat n, ~~~.ofNat n] ++ data.bytes ++
    [(calcrc data.bytes >>> 8).toUInt8, (calcrc data.bytes).toUInt8]

/-- The blocks of a file, numbered from 1 on. -/
def blockFrames (file : List XmodemData) : List (List UInt8) :=
  file.mapIdx fun k data => blockFrame (k + 1) data

/-- What is sent when `sent` blocks are acknowledged: the next block or `EOT`. -/
def nextFrame (file : List XmodemData) (sent : ℕ) : List UInt8 :=
  match file[sent]? with
  | some data => blockFrame (sent + 1) data
  | none => [xmodemEot]

/-! ## §2 Both sides -/

/-- One turn of the two sides. -/
structure Turn where
  /-- Where in the frame `testchar` gives up once. -/
  pause : ℕ
  /-- Whether the reply reaches the sender. -/
  delivered : Bool

structure Session where
  /-- How many frames the sender has had acknowledged. -/
  sent : ℕ
  receiver : XmodemState
  /-- Whether the receiver's loop goes on. -/
  running : Bool

/-- A frame on the line, and then silence until there is a reply. -/
def lineEvents (pause : ℕ) (frame : List UInt8) : List LineEvent :=
  (frame.take pause).map .char ++ .timeout :: ((frame.drop pause).map .char ++ [.timeout, .timeout])

/-- The characters that were sent. -/
def replies (log : List Act) : List UInt8 :=
  log.filterMap fun
    | .store _ _ => none
    | .putchar c => some c

/-- What the receiver sends from the state `s` to the state `s'`. -/
def newReplies (s s' : XmodemState) : List UInt8 := replies (s'.log.drop s.log.length)

def Session.step (base : ℕ) (file : List XmodemData) (turn : Turn) (s : Session) : Session :=
  if s.running then
    match xmodemTurn base (lineEvents turn.pause (nextFrame file s.sent)) s.receiver with
    | none => s
    | some (running, receiver) =>
      { sent :=
          if turn.delivered ∧ xmodemAck ∈ newReplies s.receiver receiver then s.sent + 1
          else s.sent
        receiver, running }
  else s

/-- The receiver before its loop, after `waits` failed calls of `testchar`. -/
def xmodemStart (str : Mem) (waits : ℕ) : XmodemState :=
  { str, filesize := 0, blockCount := 1,
    log := List.replicate (waits + 1) (.putchar xmodemWaitChar) }

/-- The two sides after `n` turns. -/
def session (base : ℕ) (str : Mem) (waits : ℕ) (file : List XmodemData) (schedule : ℕ → Turn) :
    ℕ → Session
  | 0 => { sent := 0, receiver := xmodemStart str waits, running := true }
  | n + 1 => (session base str waits file schedule n).step base file (schedule n)

/-- The transfer is complete: after all blocks the receiver has taken the `EOT`, and what it has
stored is the file. -/
def Completed (base : ℕ) (file : List XmodemData) (s : Session) : Prop :=
  s.running = false ∧ file.length ≤ s.sent ∧
    stores s.receiver.log = storesOf base (blockFrames file)

/-- The sender is about to send the block again that the receiver has taken last. -/
def Resends (file : List XmodemData) (s : Session) : Prop :=
  s.running = true ∧ s.sent < file.length ∧ (stores s.receiver.log).length = s.sent + 1

/-- What comes is acknowledged, and nothing is stored. -/
def AckedOnly (s s' : Session) : Prop :=
  newReplies s.receiver s'.receiver = [xmodemAck] ∧
    stores s'.receiver.log = stores s.receiver.log

variable {base sent n len i count pause : ℕ} {str : Mem} {waits : ℕ} {file : List XmodemData}
  {schedule : ℕ → Turn} {turn : Turn} {s s' : Session} {r r' : XmodemState} {data : XmodemData}
  {cs : List UInt8} {events : List LineEvent}

/-! ## §3 One frame -/

theorem chars_append {events' : List LineEvent} :
    chars (events ++ events') = chars events ++ chars events' := List.filterMap_append

theorem chars_map_char : chars (cs.map .char) = cs := by
  rw [chars, List.filterMap_map]
  exact List.filterMap_some ..

theorem chars_lineEvents : chars (lineEvents pause cs) = cs := by
  rw [lineEvents, chars_append, chars_map_char]
  change _ ++ chars (_ ++ _) = cs
  rw [chars_append, chars_map_char]
  change _ ++ (_ ++ []) = cs
  rw [List.append_nil, List.take_append_drop]

theorem getData_of_le (h : len ≤ i) : getData len events i count str = some (i, str) := by
  rw [getData.eq_def]
  exact if_pos h

theorem getData_char {c : UInt8} (h : i < len) :
    getData len (.char c :: events) i count str =
      getData len events (i + 1) count (str.put i c) := by
  rw [getData.eq_def]
  exact if_neg (by omega)

theorem getData_timeout (h : i < len) :
    getData len (.timeout :: events) i count str =
      if count = 0 then some (i, str) else getData len events i (count - 1) str := by
  rw [getData.eq_def]
  exact if_neg (by omega)

/-- Characters that come in one behind the other. -/
theorem getData_chars (h : i + cs.length ≤ len) :
    ∃ str', getData len (cs.map .char ++ events) i count str =
      getData len events (i + cs.length) count str' := by
  induction cs generalizing i str with
  | nil => exact ⟨str, rfl⟩
  | cons c cs ih =>
    rw [List.length_cons] at h
    obtain ⟨str', hstr'⟩ := @ih (i + 1) (str.put i c) (by omega)
    refine ⟨str', ?_⟩
    rw [List.map_cons, List.cons_append, getData_char (by omega), hstr', List.length_cons,
      show i + (cs.length + 1) = i + 1 + cs.length by omega]

/-- **A frame comes in**: one pause does not cut it short, and the silence behind it ends it. -/
theorem getData_lineEvents (h : cs.length ≤ len) :
    ∃ str', getData len (lineEvents pause cs) 0 1 str = some (cs.length, str') := by
  have hsplit : (cs.take pause).length + (cs.drop pause).length = cs.length := by
    rw [← List.length_append, List.take_append_drop]
  obtain ⟨str₁, hfirst⟩ := @getData_chars len 0 1 str (cs.take pause)
    (.timeout :: ((cs.drop pause).map .char ++ [.timeout, .timeout])) (by omega)
  rw [lineEvents, hfirst, Nat.zero_add]
  by_cases hfull : len ≤ (cs.take pause).length
  · exact ⟨str₁, by rw [getData_of_le hfull, show (cs.take pause).length = cs.length by omega]⟩
  -- The pause uses up the one timeout that is let pass.
  obtain ⟨str₂, hrest⟩ := @getData_chars len (cs.take pause).length 0 str₁ (cs.drop pause)
    [.timeout, .timeout] (by omega)
  refine ⟨str₂, ?_⟩
  rw [getData_timeout (by omega), if_neg Nat.one_ne_zero, hrest, hsplit]
  rcases Nat.lt_or_ge cs.length len with hlt | hge
  · rw [getData_timeout hlt, if_pos rfl]
  · exact getData_of_le hge

theorem length_blockFrame : (blockFrame n data).length = blocksize + 5 := by
  simp [blockFrame, data.length_eq]

theorem payload_blockFrame : payload (blockFrame n data) = data.bytes := by
  rw [payload, blockFrame, List.append_assoc]
  exact List.take_left' data.length_eq

theorem crcBytes_toNat (crc : UInt16) :
    (crc >>> 8).toUInt8.toNat * 256 + crc.toUInt8.toNat = crc.toNat := by
  have hhigh : (crc >>> 8).toUInt8.toNat = crc.toNat / 256 := by
    rw [UInt16.toNat_toUInt8, UInt16.toNat_shiftRight, Nat.shiftRight_eq_div_pow]
    have := crc.toNat_lt
    exact Nat.mod_eq_of_lt (by simp; omega)
  rw [hhigh, UInt16.toNat_toUInt8]
  omega

/-- **What the receiver does with a right block**: its number alone decides. -/
theorem takeBlock_frame (base : ℕ) (r : XmodemState) (h : r.str.Holds 0 (blockFrame n data)) :
    takeBlock base r =
      if r.blockCount = .ofNat n then
        { r with
          filesize := (r.filesize + 128) % 4294967296
          blockCount := r.blockCount + 1
          log := r.log ++ [.store ((base + r.filesize) % 4294967296) data.bytes,
            .putchar xmodemAck] }
      else r.putchar xmodemNak := by
  have hslice : r.str.slice 3 blocksize = data.bytes := by
    have := h.slice_drop (i := 3) (n := blocksize) (by rw [length_blockFrame]; omega)
    rw [← payload_blockFrame (n := n), payload, ← this, Nat.zero_add]
  have hat : ∀ i c, (blockFrame n data)[i]? = some c → r.str i = c := by
    intro i c hc
    obtain ⟨hi, heq⟩ := List.getElem?_eq_some_iff.mp hc
    rw [← heq, ← h.getElem hi, Nat.zero_add]
  have hnumber : r.str 1 = .ofNat n := hat 1 _ rfl
  have hcompl : r.str 2 = ~~~.ofNat n := hat 2 _ rfl
  have htail : ∀ k, (blockFrame n data)[131 + k]? =
      [(calcrc data.bytes >>> 8).toUInt8, (calcrc data.bytes).toUInt8][k]? := by
    intro k
    have hhead : ([xmodemSoh, UInt8.ofNat n, ~~~UInt8.ofNat n] ++ data.bytes).length = 131 := by
      simp [data.length_eq, blocksize]
    rw [blockFrame, List.getElem?_append_right (by omega), hhead, Nat.add_sub_cancel_left]
  have hcrc : (r.str 131).toNat * 256 + (r.str 132).toNat = (calcrc data.bytes).toNat := by
    rw [hat 131 _ (htail 0), hat 132 _ (htail 1), crcBytes_toNat]
  unfold takeBlock
  dsimp only
  rw [hnumber, hcompl, hslice, hcrc, UInt8.not_not]
  by_cases hcount : r.blockCount = .ofNat n
  · simp only [hcount, ne_eq, not_true, if_false, if_true]
  · simp only [hcount, ne_eq, not_false_iff, if_false, if_true]

theorem xmodemTurn_blockFrame :
    ∃ str, xmodemTurn base (lineEvents pause (blockFrame n data)) r =
      some (true, takeBlock base { r with str }) ∧ str.Holds 0 (blockFrame n data) := by
  obtain ⟨str, hget⟩ := @getData_lineEvents (blocksize + 5) pause r.str (blockFrame n data)
    (Nat.le_of_eq length_blockFrame)
  rw [length_blockFrame] at hget
  have hholds : str.Holds 0 (blockFrame n data) := by
    have hframe := (getData_full hget (Nat.le_refl _)).1
    rwa [frame, chars_lineEvents, List.take_of_length_le (Nat.le_of_eq length_blockFrame)] at hframe
  refine ⟨str, ?_, hholds⟩
  rw [xmodemTurn, hget]
  dsimp only
  rw [if_neg (by decide), if_pos hholds.1, if_pos (Nat.le_refl _)]

theorem xmodemTurn_eot :
    ∃ str, xmodemTurn base (lineEvents pause [xmodemEot]) r =
      some (false, ({ r with str } : XmodemState).putchar xmodemAck) := by
  obtain ⟨str, hget⟩ := @getData_lineEvents (blocksize + 5) pause r.str [xmodemEot] (by decide)
  have hhead := getData_head hget (by decide)
  rw [chars_lineEvents, List.head?_cons, Option.some.injEq] at hhead
  refine ⟨str, ?_⟩
  rw [xmodemTurn, hget]
  dsimp only
  rw [← hhead, if_neg (by decide), if_neg (by decide), if_pos rfl]

/-! ## §4 One turn of both sides -/

theorem newReplies_append {l : List Act} (h : r'.log = r.log ++ l) :
    newReplies r r' = replies l := by
  rw [newReplies, h, List.drop_left]

/-- The two sides are in step: `k` blocks are sent, taken and acknowledged. -/
structure InStep (base : ℕ) (file : List XmodemData) (k : ℕ) (s : Session) : Prop where
  running_eq : s.running = true
  sent_eq : s.sent = k
  filesize_eq : s.receiver.filesize = 128 * k % 4294967296
  blockCount_eq : s.receiver.blockCount = UInt8.ofNat (k + 1)
  stores_eq : stores s.receiver.log = storesOf base ((blockFrames file).take k)

/-- The receiver is one block ahead of the sender. -/
structure Ahead (k : ℕ) (s : Session) : Prop where
  running_eq : s.running = true
  sent_eq : s.sent = k
  blockCount_eq : s.receiver.blockCount = UInt8.ofNat (k + 2)
  stored : (stores s.receiver.log).length = k + 1

theorem length_blockFrames : (blockFrames file).length = file.length := List.length_mapIdx

theorem ofNat_succ_ne : UInt8.ofNat (n + 1) ≠ UInt8.ofNat n := by
  intro h
  have := congrArg UInt8.toNat h
  rw [UInt8.toNat_ofNat', UInt8.toNat_ofNat'] at this
  omega

/-- A turn in which the sender has a block to send. -/
theorem step_block (base : ℕ) (turn : Turn) (hrun : s.running = true)
    (hdata : file[s.sent]? = some data) :
    ∃ str, str.Holds 0 (blockFrame (s.sent + 1) data) ∧
      s.step base file turn =
        { sent :=
            if turn.delivered ∧
              xmodemAck ∈ newReplies s.receiver (takeBlock base { s.receiver with str })
            then s.sent + 1 else s.sent
          receiver := takeBlock base { s.receiver with str }
          running := true } := by
  have hframe : nextFrame file s.sent = blockFrame (s.sent + 1) data := by rw [nextFrame, hdata]
  obtain ⟨str, hturn, hholds⟩ := @xmodemTurn_blockFrame base (s.sent + 1) turn.pause s.receiver data
  refine ⟨str, hholds, ?_⟩
  rw [Session.step, if_pos hrun, hframe, hturn]

/-- **One turn in step**: the block is stored, and the sender learns of it or not. -/
theorem step_inStep (turn : Turn) (h : InStep base file n s) (hn : n < file.length) :
    if turn.delivered then InStep base file (n + 1) (s.step base file turn)
    else Ahead n (s.step base file turn) := by
  have hdata : file[s.sent]? = some file[n] := by rw [h.sent_eq, List.getElem?_eq_getElem hn]
  obtain ⟨str, hholds, hstep⟩ := step_block base turn h.running_eq hdata
  have htake := takeBlock_frame base { s.receiver with str } hholds
  rw [if_pos (by rw [h.blockCount_eq, h.sent_eq])] at htake
  rw [hstep, htake, newReplies_append rfl, h.sent_eq]
  have hack : xmodemAck ∈ replies
      [.store ((base + s.receiver.filesize) % 4294967296) file[n].bytes, .putchar xmodemAck] :=
    List.mem_singleton.mpr rfl
  have hstores : stores (s.receiver.log ++
      [.store ((base + s.receiver.filesize) % 4294967296) file[n].bytes, .putchar xmodemAck]) =
        storesOf base ((blockFrames file).take (n + 1)) := by
    have hnth : n < (blockFrames file).length := by rwa [length_blockFrames]
    have hframe : (blockFrames file)[n] = blockFrame (n + 1) file[n] := List.getElem_mapIdx ..
    rw [stores_append, h.stores_eq, List.take_succ_eq_append_getElem hnth, storesOf, storesOf,
      List.mapIdx_concat, List.length_take, Nat.min_eq_left (Nat.le_of_lt hnth), hframe,
      payload_blockFrame, h.filesize_eq]
    congr 2
    simp only [stores, List.filterMap_cons, List.filterMap_nil]
    congr 2
    omega
  have hcount : s.receiver.blockCount + 1 = UInt8.ofNat (n + 2) := by
    rw [h.blockCount_eq, UInt8.ofNat_add (n + 1) 1]
    rfl
  split
  · rename_i hdelivered
    refine ⟨rfl, if_pos ⟨hdelivered, hack⟩, ?_, hcount, hstores⟩
    change (s.receiver.filesize + 128) % 4294967296 = _
    rw [h.filesize_eq]
    omega
  · rename_i hlost
    refine ⟨rfl, if_neg fun hboth => hlost hboth.1, hcount, ?_⟩
    rw [hstores, storesOf, List.length_mapIdx, List.length_take, length_blockFrames]
    omega

/-- **One turn after a lost reply**: the block that is sent again is refused, and nothing
changes. -/
theorem step_ahead (h : Ahead n s) (hn : n < file.length) :
    Ahead n (s.step base file turn) ∧
      newReplies s.receiver (s.step base file turn).receiver = [xmodemNak] := by
  have hdata : file[s.sent]? = some file[n] := by rw [h.sent_eq, List.getElem?_eq_getElem hn]
  obtain ⟨str, hholds, hstep⟩ := step_block base turn h.running_eq hdata
  have htake := takeBlock_frame base { s.receiver with str } hholds
  rw [if_neg (by rw [h.blockCount_eq, h.sent_eq]; exact ofNat_succ_ne)] at htake
  have hnew : newReplies s.receiver (XmodemState.putchar { s.receiver with str } xmodemNak) =
    [xmodemNak] := newReplies_append (l := [.putchar xmodemNak]) rfl
  rw [hstep, htake, hnew, h.sent_eq]
  refine ⟨⟨rfl, if_neg fun hboth => ?_, h.blockCount_eq, ?_⟩, rfl⟩
  · exact absurd (List.mem_singleton.mp hboth.2) (by decide)
  · rw [← h.stored, XmodemState.putchar, stores_append]
    exact congrArg List.length (List.append_nil _)

/-- The `EOT` after all blocks completes the transfer. -/
theorem step_eot (h : InStep base file file.length s) :
    Completed base file (s.step base file turn) := by
  have hframe : nextFrame file s.sent = [xmodemEot] := by
    rw [nextFrame, h.sent_eq, List.getElem?_eq_none (Nat.le_refl _)]
  obtain ⟨str, hturn⟩ := @xmodemTurn_eot base turn.pause s.receiver
  rw [Session.step, if_pos h.running_eq, hframe, hturn]
  refine ⟨rfl, ?_, ?_⟩
  · dsimp only
    have := h.sent_eq
    split <;> omega
  · rw [← List.take_length (l := blockFrames file), length_blockFrames, ← h.stores_eq,
      XmodemState.putchar, stores_append]
    exact List.append_nil _

theorem step_stopped (h : s.running = false) : s.step base file turn = s := by
  rw [Session.step, h]
  exact if_neg Bool.false_ne_true

/-! ## §5 Whole sessions -/

/-- What comes in while the session takes `n` turns. -/
def sessionEvents (base : ℕ) (str : Mem) (waits : ℕ) (file : List XmodemData)
    (schedule : ℕ → Turn) (n : ℕ) : List (List LineEvent) :=
  (List.range n).map fun k =>
    lineEvents (schedule k).pause (nextFrame file (session base str waits file schedule k).sent)

/-- `get_data` never waits for ever on what a sender sends. -/
theorem xmodemTurn_ne_none :
    xmodemTurn base (lineEvents pause (nextFrame file sent)) r ≠ none := by
  rw [nextFrame]
  cases file[sent]? with
  | some data =>
    obtain ⟨str, hturn, -⟩ := @xmodemTurn_blockFrame base (sent + 1) pause r data
    exact fun h => Option.some_ne_none _ (hturn.symm.trans h)
  | none =>
    obtain ⟨str, hturn⟩ := @xmodemTurn_eot base pause r
    exact fun h => Option.some_ne_none _ (hturn.symm.trans h)

theorem session_loop (rest : List (List LineEvent)) :
    xmodemLoop base (sessionEvents base str waits file schedule n ++ rest)
        (xmodemStart str waits) =
      if (session base str waits file schedule n).running then
        xmodemLoop base rest (session base str waits file schedule n).receiver
      else (session base str waits file schedule n).receiver := by
  induction n generalizing rest with
  | zero => exact (if_pos rfl).symm
  | succ n ih =>
    rw [sessionEvents, List.range_succ, List.map_append, List.append_assoc]
    refine (ih _).trans ?_
    rw [session, Session.step]
    cases hrun : (session base str waits file schedule n).running with
    | false =>
      rw [if_neg Bool.false_ne_true, if_neg Bool.false_ne_true, hrun]
      exact (if_neg Bool.false_ne_true).symm
    | true =>
      rw [if_pos rfl, if_pos rfl, List.map_singleton, List.singleton_append, xmodemLoop]
      cases hturn : xmodemTurn base (lineEvents (schedule n).pause
          (nextFrame file (session base str waits file schedule n).sent))
          (session base str waits file schedule n).receiver with
      | none => exact absurd hturn xmodemTurn_ne_none
      | some result =>
        obtain ⟨running, receiver⟩ := result
        cases running with
        | true => exact (if_pos rfl).symm
        | false => exact (if_neg Bool.false_ne_true).symm

/-- The receiver of a session is `xmodem_transfer` on what has come in. -/
theorem session_receiver :
    (session base str waits file schedule n).receiver =
      xmodemTransfer base str waits (sessionEvents base str waits file schedule n) := by
  have hloop := @session_loop base n str waits file schedule []
  rw [List.append_nil] at hloop
  rw [xmodemTransfer]
  refine Eq.trans ?_ hloop.symm
  split <;> rfl

theorem inStep_start :
    InStep base file 0 (session base str waits file schedule 0) where
  running_eq := rfl
  sent_eq := rfl
  filesize_eq := rfl
  blockCount_eq := rfl
  stores_eq := (@received_start base str waits).stores_eq

/-- As long as no reply is lost, the two sides stay in step. -/
theorem session_inStep (base : ℕ) (str : Mem) (waits : ℕ) (hn : n ≤ file.length)
    (h : ∀ k < n, (schedule k).delivered = true) :
    InStep base file n (session base str waits file schedule n) := by
  induction n with
  | zero => exact inStep_start
  | succ n ih =>
    have hstep := step_inStep (schedule n)
      (ih (by omega) fun k hk => h k (by omega)) (by omega)
    rwa [if_pos (h n (by omega))] at hstep

/-- A receiver that is ahead stays ahead. -/
theorem session_ahead {m : ℕ} (len : ℕ) (h : Ahead n (session base str waits file schedule m))
    (hn : n < file.length) : Ahead n (session base str waits file schedule (m + len)) := by
  induction len with
  | zero => exact h
  | succ len ih => exact (step_ahead ih hn).1

/-- Once the reply to a block is lost, the transfer never completes. -/
theorem not_completed_of_lost (hn : n < file.length)
    (h : ∀ k < n, (schedule k).delivered = true) (hlost : (schedule n).delivered = false) (m : ℕ) :
    ¬ Completed base file (session base str waits file schedule m) := by
  rintro ⟨hstopped, -, -⟩
  rcases Nat.le_total m n with hle | hle
  · have hin := session_inStep base str waits
      (show m ≤ file.length by omega) fun k hk => h k (by omega)
    exact Bool.false_ne_true (hstopped.symm.trans hin.running_eq)
  rcases Nat.eq_or_lt_of_le hle with rfl | hlt
  · have hin := session_inStep base str waits (Nat.le_of_lt hn) h
    exact Bool.false_ne_true (hstopped.symm.trans hin.running_eq)
  · have hstep := step_inStep (schedule n)
      (session_inStep base str waits (Nat.le_of_lt hn) h) hn
    rw [if_neg (by rw [hlost]; exact Bool.false_ne_true)] at hstep
    have hfirst : Ahead n (session base str waits file schedule (n + 1)) := hstep
    have hahead := session_ahead (m - (n + 1)) hfirst hn
    rw [Nat.add_sub_cancel' hlt] at hahead
    exact Bool.false_ne_true (hstopped.symm.trans hahead.running_eq)

theorem session_completed (base : ℕ) (str : Mem) (waits n : ℕ)
    (h : ∀ k < file.length, (schedule k).delivered = true) :
    Completed base file (session base str waits file schedule (file.length + 1 + n)) := by
  induction n with
  | zero => exact step_eot (session_inStep base str waits (Nat.le_refl _) h)
  | succ n ih =>
    rw [← Nat.add_assoc, session, step_stopped ih.1]
    exact ih

/-- A block of zeros. -/
def zeroBlock : XmodemData := ⟨List.replicate 128 0, rfl⟩

/-- Only the first reply is lost. -/
def firstReplyLost : ℕ → Turn := fun k => { pause := 0, delivered := k ≠ 0 }

end Pmon.Cmds
