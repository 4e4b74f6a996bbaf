import Pmon.Lib.Run
import Pmon.Netio.TftpWriteRuns

/-!
# Transfers of any length

A file that is open reads or writes block after block.  `Transfer` has the client's file, the
request that it waits for an answer to, the number of the awaited block as it is counted without a
wrap, and the port that the first answer came from.

## Key results

- `tftpread_transfer`, `tftpwrite_transfer`: calls on a file are runs of its transfer.
- `transfers_exact`: in which runs no duplicate ends a transfer and no other port gets into it.
-/

namespace Pmon.Netio

open Pmon.Lib Pmon.Libc

/-! ## §1 Transfers -/

/-- The operation of the packets that are waited for. -/
def answerOp : Accmode → ℕ
  | .rdonly => opDATA
  | .wronly => opACK

/-- The block that is waited for at first. -/
def firstBlock : Accmode → ℕ
  | .rdonly => 1
  | .wronly => 0

structure Transfer where
  tfp : Tftpfile
  /-- The request that waits for an answer. -/
  req : Option (List UInt8)
  /-- The `size` and the `ackbuf` of `tftpwrq`. -/
  size : ℕ
  ackbuf : Mem
  /-- The awaited block. -/
  order : ℕ
  /-- The port that the first answer came from. -/
  server : Option ℕ

inductive TransferOp where
  /-- A turn of the loop of `tftprrq` or `tftpwrq`. -/
  | turn (turn : Turn)
  /-- The next request, with what reading, writing and seeking have left in the file. -/
  | more (file : Tftpfile) (size : ℕ) (ackbuf : Mem)

/-- What is made of what `tftprrq` returns. -/
def gotBlock : Except Failure ℤ → Except Failure Unit
  | .error e => .error e
  | .ok n => if n < 0 then .error .short else .ok ()

/-- What is made of what `tftpwrq` returns. -/
def gotAck : Except Failure ℕ → Except Failure Unit
  | .error e => .error e
  | .ok _ => .ok ()

/-- A turn that waits for an answer: `none` where it goes on. -/
def Transfer.answer (s : Transfer) (req : List UInt8) (turn : Turn) :
    Option (Except Failure Unit) × Tftpfile × Mem :=
  match s.tfp.flags with
  | .rdonly =>
    let (r, tfp) := rrqTurn req turn s.tfp
    (r.map gotBlock, tfp, s.ackbuf)
  | .wronly =>
    let (r, tfp, ackbuf) := wrqTurn req s.size turn s.tfp s.ackbuf
    (r.map gotAck, tfp, ackbuf)

/-- The next request of a file. -/
def Transfer.request (s : Transfer) (file : Tftpfile) (size : ℕ) (ackbuf : Mem) : Transfer :=
  match file.flags with
  | .rdonly =>
    { s with tfp := tftpnxtblk file, req := some (ack file.block), order := s.order + 1 }
  | .wronly =>
    { s with
      tfp := nextData file, req := some ((nextData file).buf.slice 0 (size + 4))
      size, ackbuf, order := s.order + 1 }

/-- The parts of a file that only `tftprrq`, `tftpwrq` and `tftpnxtblk` change. -/
def Tftpfile.withLink (file tfp : Tftpfile) : Tftpfile :=
  { file with port := tfp.port, block := tfp.block, flags := tfp.flags, eof := tfp.eof }

/-- What a turn makes of a transfer. -/
def Transfer.settle (s : Transfer) : Option (Except Failure Unit) × Tftpfile × Mem → Transfer
  | (none, tfp, ackbuf) => { s with tfp, ackbuf }
  | (some (.error _), tfp, ackbuf) => { s with tfp, ackbuf, req := none }
  | (some (.ok ()), tfp, ackbuf) =>
    { s with tfp, ackbuf, req := none, server := some (s.server.getD tfp.port) }

def Transfer.next (s : Transfer) : TransferOp → Transfer
  | .turn turn =>
    match s.req with
    | none => s
    | some req => s.settle (s.answer req turn)
  | .more file size ackbuf =>
    -- a file is there once the first request was answered
    if s.req = none ∧ s.server ≠ none then s.request (file.withLink s.tfp) size ackbuf else s

/-- What `tftpopen` has before its request is answered. -/
def Transfer.opening (flags : Accmode) (port : ℕ) (filename : CStr) (ackbuf : Mem) : Transfer :=
  match flags with
  | .rdonly =>
    { tfp :=
        { port, block := 1, flags := .rdonly, eof := false, start := 0, stop := 0, foffs := 0,
          buf := fun _ => 0, sent := [] }
      req := some (makerequest opRRQ filename (ascii "octet"))
      size := 0, ackbuf, order := 1, server := none }
  | .wronly =>
    { tfp := newWriter port
      req := some (makerequest opWRQ filename (ascii "octet"))
      size := (makerequest opWRQ filename (ascii "octet")).length - 4
      ackbuf, order := 0, server := none }

variable {s : Transfer} {turn : Turn} {req bytes : List UInt8} {port q k : ℕ}

/-! ## §2 Packets -/

/-- A datagram is received in a turn: not so when the file is at its end, where the
    acknowledgement is all that is sent. -/
def Received (s : Transfer) (turn : Turn) (port : ℕ) (bytes : List UInt8) : Prop :=
  turn.sendOk = true ∧ s.tfp.eof = false ∧ turn.event = .datagram port bytes

/-- The packet that was answered before the awaited one. -/
def IsDuplicate (s : Transfer) (bytes : List UInt8) : Prop :=
  ∃ rest, bytes = htons (answerOp s.tfp.flags) ++ htons (s.order - 1) ++ rest

/-- With the server's port known, a duplicate does not end the transfer, and a packet from
    another port does nothing to it. -/
def Safe (s : Transfer) : TransferOp → Prop
  | .turn turn =>
    ∀ req port bytes q, s.req = some req → Received s turn port bytes → s.server = some q →
      (port = q → IsDuplicate s bytes → ∀ e, (s.answer req turn).1 ≠ some (.error e)) ∧
        (port ≠ q → (s.answer req turn).1 = none ∧ (s.answer req turn).2.1.port = s.tfp.port)
  | .more _ _ _ => True

/-- While the awaited number is 0 again, no duplicate comes; while it is one that a transfer starts
    with, nothing comes from another port. -/
def NoWrap (s : Transfer) : TransferOp → Prop
  | .turn turn =>
    ∀ port bytes q, s.req ≠ none → Received s turn port bytes → s.server = some q →
      (s.order % 65536 = 0 → port = q → ¬ IsDuplicate s bytes) ∧
        (s.order % 65536 ≤ firstBlock s.tfp.flags → port = q)
  | .more _ _ _ => True

/-- What a transfer keeps as long as no other port gets into it. -/
structure InLink (s : Transfer) : Prop where
  block_eq : s.tfp.block = s.order % 65536
  not_eof : s.tfp.flags = .wronly → s.tfp.eof = false
  port_eq : ∀ q, s.server = some q → s.tfp.port = q
  first_le : firstBlock s.tfp.flags ≤ s.order
  first_lt : s.server ≠ none → s.req ≠ none → firstBlock s.tfp.flags < s.order

/-! ## §3 One turn -/

/-- A packet in a buffer, however long it is. -/
theorem buffered_long (m : Mem) (op k : ℕ) (rest : List UInt8) :
    let m' := ntohs (ntohs (m.store 0 ((htons op ++ htons k ++ rest).take pktsize)) 0) 2
    ushort m' 0 = op % 65536 ∧ ushort m' 2 = k % 65536 := by
  have hshort : (rest.take 512).length ≤ 512 := by
    rw [List.length_take]
    omega
  have htake : (htons op ++ htons k ++ rest).take pktsize =
      (htons op ++ htons k ++ rest.take 512).take pktsize := by
    simp [htons, pktsize, segsize, List.take_take]
  obtain ⟨hop, hblock, -⟩ := buffered_packet m op k hshort
  rw [htake]
  exact ⟨hop, hblock⟩

theorem answer_rdonly (hflags : s.tfp.flags = .rdonly) (req : List UInt8) (turn : Turn) :
    s.answer req turn =
      ((rrqTurn req turn s.tfp).1.map gotBlock, (rrqTurn req turn s.tfp).2, s.ackbuf) := by
  rw [Transfer.answer, hflags]

theorem answer_wronly (hflags : s.tfp.flags = .wronly) (req : List UInt8) (turn : Turn) :
    s.answer req turn =
      ((wrqTurn req s.size turn s.tfp s.ackbuf).1.map gotAck,
        (wrqTurn req s.size turn s.tfp s.ackbuf).2) := by
  rw [Transfer.answer, hflags]

/-- A datagram from another port is passed over, unless the number is one to start with. -/
theorem answer_foreign (req : List UInt8) (h : Received s turn port bytes)
    (hfirst : firstBlock s.tfp.flags < s.tfp.block) (hport : port ≠ s.tfp.port) :
    (s.answer req turn).1 = none ∧ (s.answer req turn).2.1.port = s.tfp.port := by
  obtain ⟨hsend, heof, hev⟩ := h
  have heof' : (s.tfp.sendto req).eof = false := heof
  cases hflags : s.tfp.flags with
  | rdonly =>
    rw [hflags] at hfirst
    have hpass : 1 < (s.tfp.sendto req).block ∧ port ≠ (s.tfp.sendto req).port := ⟨hfirst, hport⟩
    rw [answer_rdonly hflags, rrqTurn, hsend]
    simp only [Bool.not_true, Bool.false_eq_true, if_false, heof', hev, if_pos hpass]
    exact ⟨rfl, rfl⟩
  | wronly =>
    rw [hflags] at hfirst
    have hpass : (s.tfp.sendto req).block ≠ 0 ∧ port ≠ (s.tfp.sendto req).port :=
      ⟨Nat.ne_of_gt hfirst, hport⟩
    rw [answer_wronly hflags, wrqTurn, hsend]
    simp only [Bool.not_true, Bool.false_eq_true, if_false, hev, if_pos hpass]
    exact ⟨rfl, rfl⟩

/-- **A datagram that is not passed over**: its port is the server's from then on. -/
theorem answer_adopts (req : List UInt8) (h : Received s turn port bytes)
    (hheard : ¬(firstBlock s.tfp.flags < s.tfp.block ∧ port ≠ s.tfp.port)) :
    (s.answer req turn).2.1.port = port := by
  obtain ⟨hsend, heof, hev⟩ := h
  have heof' : (s.tfp.sendto req).eof = false := heof
  cases hflags : s.tfp.flags with
  | rdonly =>
    rw [hflags] at hheard
    have hpass : ¬(1 < (s.tfp.sendto req).block ∧ port ≠ (s.tfp.sendto req).port) := hheard
    rw [answer_rdonly hflags, rrqTurn, hsend]
    simp only [Bool.not_true, Bool.false_eq_true, if_false, heof', hev, if_neg hpass]
    repeat' split
    all_goals rfl
  | wronly =>
    rw [hflags] at hheard
    have hpass : ¬((s.tfp.sendto req).block ≠ 0 ∧ port ≠ (s.tfp.sendto req).port) := by
      rintro ⟨hblock, hne⟩
      exact hheard ⟨Nat.pos_of_ne_zero hblock, hne⟩
    rw [answer_wronly hflags, wrqTurn, hsend]
    simp only [Bool.not_true, Bool.false_eq_true, if_false, hev, if_neg hpass]
    repeat' split
    all_goals rfl

/-- **A block or an acknowledgement that is not passed over**: the awaited number is the answer, the
    number before it is not, unless the awaited number is 0, and any other ends the call. -/
theorem answer_packet (req rest : List UInt8) (k : ℕ) (h : Received s turn port bytes)
    (hheard : ¬(firstBlock s.tfp.flags < s.tfp.block ∧ port ≠ s.tfp.port))
    (hbytes : bytes = htons (answerOp s.tfp.flags) ++ htons k ++ rest) :
    (s.answer req turn).1 =
      if k % 65536 = s.tfp.block then some (.ok ())
      else if ((k % 65536 : ℕ) : ℤ) ≠ s.tfp.block - 1 then some (.error .outOfStep)
      else none := by
  obtain ⟨hsend, heof, hev⟩ := h
  have heof' : (s.tfp.sendto req).eof = false := heof
  cases hflags : s.tfp.flags with
  | rdonly =>
    rw [hflags] at hheard hbytes
    have hpass : ¬(1 < (s.tfp.sendto req).block ∧ port ≠ (s.tfp.sendto req).port) := hheard
    obtain ⟨hop, hblock⟩ := buffered_long (s.tfp.sendto req).buf opDATA k rest
    rw [answerOp] at hbytes
    have hlen : ¬ (min (bytes.length : ℤ) pktsize - 4 < 0) := by
      rw [hbytes]
      simp only [htons, List.length_append, List.length_cons, List.length_nil, pktsize, segsize]
      omega
    rw [answer_rdonly hflags, rrqTurn, hsend]
    simp only [Bool.not_true, Bool.false_eq_true, if_false, heof', hev, if_neg hpass]
    rw [← hbytes] at hop hblock
    simp only [hop, hblock]
    rw [if_neg (by decide), if_pos (by decide)]
    change Option.map gotBlock (Prod.fst (if k % 65536 = s.tfp.block then _
      else if ((k % 65536 : ℕ) : ℤ) ≠ s.tfp.block - 1 then _ else _)) = _
    split
    · simp [gotBlock, hlen]
    · split <;> rfl
  | wronly =>
    rw [hflags] at hheard hbytes
    have hpass : ¬((s.tfp.sendto req).block ≠ 0 ∧ port ≠ (s.tfp.sendto req).port) := by
      rintro ⟨hblock, hne⟩
      exact hheard ⟨Nat.pos_of_ne_zero hblock, hne⟩
    obtain ⟨hop, hblock⟩ := buffered_long s.ackbuf opACK k rest
    rw [answerOp] at hbytes
    rw [answer_wronly hflags, wrqTurn, hsend]
    simp only [Bool.not_true, Bool.false_eq_true, if_false, hev, if_neg hpass]
    rw [← hbytes] at hop hblock
    simp only [hop, hblock]
    rw [if_neg (by decide), if_pos (by decide)]
    change Option.map gotAck (Prod.fst (if k % 65536 = s.tfp.block then _
      else if ((k % 65536 : ℕ) : ℤ) ≠ s.tfp.block - 1 then _ else _)) = _
    split
    · rfl
    · split <;> rfl

/-- **What a turn leaves alone**: the number and the mode; and the port is that of before or of a
    datagram that is not passed over. -/
theorem answer_frame (s : Transfer) (req : List UInt8) (turn : Turn) :
    (s.answer req turn).2.1.block = s.tfp.block ∧ (s.answer req turn).2.1.flags = s.tfp.flags ∧
      (s.tfp.flags = .wronly → (s.answer req turn).2.1.eof = s.tfp.eof) := by
  cases hflags : s.tfp.flags with
  | rdonly =>
    rw [answer_rdonly hflags]
    dsimp only
    have hcursor := rrqTurn_cursor req turn s.tfp
    refine ⟨?_, (congrArg Prod.fst hcursor).trans hflags, fun h => by cases h⟩
    unfold rrqTurn
    dsimp only
    repeat' split
    all_goals rfl
  | wronly =>
    rw [answer_wronly hflags]
    rcases wrqTurn_frame req s.size turn s.tfp s.ackbuf with ⟨-, heq⟩ | ⟨r, port, ackbuf, heq⟩
    · rw [heq]
      exact ⟨rfl, hflags, fun _ => rfl⟩
    · rw [heq]
      exact ⟨rfl, hflags, fun _ => rfl⟩

/-- Where nothing is received, the port stays. -/
theorem answer_port (req : List UInt8) (hlink : s.tfp.flags = .wronly → s.tfp.eof = false)
    (h : ∀ port bytes, ¬ Received s turn port bytes) :
    (s.answer req turn).2.1.port = s.tfp.port := by
  cases hflags : s.tfp.flags with
  | rdonly =>
    rw [answer_rdonly hflags, rrqTurn]
    dsimp only
    by_cases hsend : turn.sendOk = true
    · by_cases heof : s.tfp.eof = true
      · have heof' : (s.tfp.sendto req).eof = true := heof
        simp only [hsend, Bool.not_true, Bool.false_eq_true, if_false, heof', if_true]
        rfl
      · have heof' : (s.tfp.sendto req).eof = false := Bool.eq_false_iff.mpr heof
        simp only [hsend, Bool.not_true, Bool.false_eq_true, if_false, heof']
        split
        · rfl
        · rfl
        · rfl
        · rename_i port bytes hev
          exact absurd ⟨hsend, Bool.eq_false_iff.mpr heof, hev⟩ (h port bytes)
    · simp only [hsend, Bool.not_false, if_true]
  | wronly =>
    rw [answer_wronly hflags, wrqTurn]
    by_cases hsend : turn.sendOk = true
    · simp only [hsend, Bool.not_true, Bool.false_eq_true, if_false]
      split
      · rfl
      · rfl
      · rfl
      · rename_i port bytes hev
        exact absurd ⟨hsend, hlink hflags, hev⟩ (h port bytes)
    · simp only [hsend, Bool.not_false, if_true]

/-! ## §4 Runs -/

/-- A turn is safe exactly when no number has wrapped that matters for what it receives. -/
theorem safe_iff (hs : InLink s) (op : TransferOp) : Safe s op ↔ NoWrap s op := by
  cases op with
  | more file size ackbuf => exact Iff.rfl
  | turn turn =>
    simp only [Safe, NoWrap]
    constructor
    · intro hsafe port bytes q hreq hrecv hserver
      obtain ⟨req, hreq⟩ := Option.ne_none_iff_exists'.mp hreq
      obtain ⟨hdup, hforeign⟩ := hsafe req port bytes q hreq hrecv hserver
      have hfirst := hs.first_lt (by simp [hserver]) (by simp [hreq])
      have hport := hs.port_eq q hserver
      have hblock := hs.block_eq
      refine ⟨?_, ?_⟩
      · -- at 0 the number before is -1
        rintro hzero rfl ⟨rest, hbytes⟩
        have hheard : ¬(firstBlock s.tfp.flags < s.tfp.block ∧ port ≠ s.tfp.port) :=
          fun h => h.2 hport.symm
        have hanswer := answer_packet req rest (s.order - 1) hrecv hheard hbytes
        apply hdup rfl ⟨rest, hbytes⟩ .outOfStep
        rw [hanswer, if_neg (by omega), if_pos (by omega)]
      · intro hle
        by_contra hne
        have hadopt := answer_adopts req hrecv (fun h => by omega)
        have hstays := (hforeign hne).2
        exact hne (hadopt.symm.trans (hstays.trans hport))
    · intro hwrap req port bytes q hreq hrecv hserver
      obtain ⟨hdup, hforeign⟩ := hwrap port bytes q (by simp [hreq]) hrecv hserver
      have hfirst := hs.first_lt (by simp [hserver]) (by simp [hreq])
      have hport := hs.port_eq q hserver
      have hblock := hs.block_eq
      refine ⟨?_, ?_⟩
      · rintro rfl ⟨rest, hbytes⟩ e
        have hheard : ¬(firstBlock s.tfp.flags < s.tfp.block ∧ port ≠ s.tfp.port) :=
          fun h => h.2 hport.symm
        have hzero : s.order % 65536 ≠ 0 := fun hzero => hdup hzero rfl ⟨rest, hbytes⟩
        rw [answer_packet req rest (s.order - 1) hrecv hheard hbytes, if_neg (by omega),
          if_neg (by omega)]
        simp
      · intro hne
        apply answer_foreign req hrecv
        · by_contra hle
          exact hne (hforeign (by omega))
        · rw [hport]
          exact hne

/-- The server's port stays, where nothing else gets in. -/
theorem answer_keeps_port (hs : InLink s) (h : NoWrap s (.turn turn)) (hreq : s.req = some req)
    (hserver : s.server = some q) : (s.answer req turn).2.1.port = q := by
  have hport := hs.port_eq q hserver
  have hblock := hs.block_eq
  by_cases hrecv : ∃ port bytes, Received s turn port bytes
  · obtain ⟨port, bytes, hrecv⟩ := hrecv
    obtain ⟨-, hforeign⟩ := h port bytes q (by simp [hreq]) hrecv hserver
    by_cases hheard : firstBlock s.tfp.flags < s.tfp.block ∧ port ≠ s.tfp.port
    · rw [(answer_foreign req hrecv hheard.1 hheard.2).2, hport]
    · rw [answer_adopts req hrecv hheard]
      -- a port that is heard is the server's, or the number is one to start with
      by_contra hne
      exact hne (hforeign (by omega))
  · rw [answer_port req hs.not_eof (fun port bytes hr => hrecv ⟨port, bytes, hr⟩), hport]

theorem inLink_next (hs : InLink s) {op : TransferOp} (h : NoWrap s op) : InLink (s.next op) := by
  cases op with
  | more file size ackbuf =>
    simp only [Transfer.next]
    by_cases hidle : s.req = none ∧ s.server ≠ none
    · rw [if_pos hidle]
      have hblock : (s.tfp.block + 1) % 65536 = (s.order + 1) % 65536 := by
        rw [hs.block_eq, Nat.mod_add_mod]
      have hfirst := hs.first_le
      have heof := hs.not_eof
      unfold Transfer.request
      cases hflags : s.tfp.flags with
      | rdonly =>
        rw [hflags] at hfirst
        simp only [Tftpfile.withLink, hflags]
        exact ⟨hblock, fun hw => absurd hw (by simp [tftpnxtblk]), hs.port_eq,
          Nat.le_succ_of_le hfirst, fun _ _ => Nat.lt_succ_of_le hfirst⟩
      | wronly =>
        rw [hflags] at hfirst
        simp only [Tftpfile.withLink, hflags]
        exact ⟨hblock, fun _ => heof hflags, hs.port_eq, Nat.le_succ_of_le hfirst,
          fun _ _ => Nat.lt_succ_of_le hfirst⟩
    · rw [if_neg hidle]
      exact hs
  | turn turn =>
    simp only [Transfer.next]
    cases hreq : s.req with
    | none => exact hs
    | some req =>
      obtain ⟨hblock, hflags, heof⟩ := answer_frame s req turn
      have hport : ∀ q, s.server = some q → (s.answer req turn).2.1.port = q :=
        fun q hserver => answer_keeps_port hs h hreq hserver
      change InLink (s.settle (s.answer req turn))
      generalize s.answer req turn = answer at hblock hflags heof hport ⊢
      obtain ⟨r, tfp, ackbuf⟩ := answer
      dsimp only at hblock hflags heof hport ⊢
      have hblock' := hblock.trans hs.block_eq
      have hfirst := hs.first_le
      rw [← hflags] at hfirst heof
      have heof' : tfp.flags = .wronly → tfp.eof = false := by
        intro hw
        rw [heof hw]
        apply hs.not_eof
        rw [← hflags, hw]
      match r with
      | none =>
        refine ⟨hblock', heof', hport, hfirst, ?_⟩
        intro hserver hwaits
        change firstBlock tfp.flags < s.order
        rw [hflags]
        exact hs.first_lt hserver hwaits
      | some (.error e) =>
        exact ⟨hblock', heof', hport, hfirst, fun _ hwaits => absurd rfl hwaits⟩
      | some (.ok ()) =>
        refine ⟨hblock', heof', ?_, hfirst, fun _ hwaits => absurd rfl hwaits⟩
        intro q hq
        change some (s.server.getD tfp.port) = some q at hq
        change tfp.port = q
        cases hserver : s.server with
        | none =>
          rw [hserver] at hq
          exact Option.some.inj hq
        | some q' =>
          rw [hserver] at hq
          rw [hport q' hserver]
          exact Option.some.inj hq

theorem inLink_opening (flags : Accmode) (port : ℕ) (filename : CStr) (ackbuf : Mem) :
    InLink (Transfer.opening flags port filename ackbuf) := by
  cases flags with
  | rdonly => exact ⟨rfl, fun h => (by cases h), fun q h => (by cases h), Nat.le_refl _,
      fun h => absurd rfl h⟩
  | wronly => exact ⟨rfl, fun _ => rfl, fun q h => (by cases h), Nat.le_refl _,
      fun h => absurd rfl h⟩

/-- **Transfers of any length**: in a run no duplicate of the packet that was just answered ends
    the transfer and nothing from a port that is not the server's gets into it, exactly when none
    of them comes while the awaited number has wrapped: to 0 for the one, to a number that a
    transfer starts with for the other. -/
theorem transfers_exact (flags : Accmode) (port : ℕ) (filename : CStr) (ackbuf : Mem)
    (ops : List TransferOp) :
    EveryStep Transfer.next Safe (Transfer.opening flags port filename ackbuf) ops ↔
      EveryStep Transfer.next NoWrap (Transfer.opening flags port filename ackbuf) ops := by
  apply everyStep_iff
  · intro s op hs
    exact safe_iff hs op
  · intro s op hs hop
    exact inLink_next hs hop
  · exact inLink_opening flags port filename ackbuf

/-! ## §5 Calls as runs -/

/-- The turns of a run. -/
def turnsOf (ops : List TransferOp) : List Turn :=
  ops.filterMap fun
    | .turn turn => some turn
    | .more _ _ _ => none

theorem turnsOf_map (turns : List Turn) : turnsOf (turns.map .turn) = turns := by
  induction turns with
  | nil => rfl
  | cons turn turns ih => exact congrArg (turn :: ·) ih

/-- A file is open, and between two requests its transfer is in this state. -/
structure Idle (s : Transfer) (file : Tftpfile) : Prop where
  req_eq : s.req = none
  server_ne : s.server ≠ none
  link_eq : file.withLink s.tfp = file

variable {file tfp tfp' : Tftpfile} {turns : List Turn} {ackbuf : Mem} {size : ℕ}

theorem foldl_idle (h : s.req = none) (turns : List Turn) :
    (turns.map TransferOp.turn).foldl Transfer.next s = s := by
  induction turns with
  | nil => rfl
  | cons turn turns ih =>
    rw [List.map_cons, List.foldl_cons]
    have hnext : s.next (.turn turn) = s := by simp [Transfer.next, h]
    rw [hnext, ih]

/-- **`tftprrq`** as a run of turns. -/
theorem tftprrq_transfer {r : Except Failure ℤ} (hflags : s.tfp.flags = .rdonly)
    (hreq : s.req = some req) (h : tftprrq req turns s.tfp = some (r, tfp')) :
    (turns.map TransferOp.turn).foldl Transfer.next s =
      s.settle (some (gotBlock r), tfp', s.ackbuf) := by
  induction turns generalizing s with
  | nil => cases h
  | cons turn turns ih =>
    have hnext : s.next (.turn turn) = s.settle (s.answer req turn) := by
      simp [Transfer.next, hreq]
    have hcursor := congrArg Prod.fst (rrqTurn_cursor req turn s.tfp)
    rw [List.map_cons, List.foldl_cons, hnext, answer_rdonly hflags]
    rw [tftprrq] at h
    rcases hturn : rrqTurn req turn s.tfp with ⟨_ | r', tfp⟩
    · rw [hturn] at h hcursor
      exact ih (hcursor.trans hflags) hreq h
    · rw [hturn] at h
      cases h
      dsimp only [Option.map_some]
      apply foldl_idle
      cases gotBlock r <;> rfl

/-- **`tftpwrq`** as a run of turns. -/
theorem wrqLoop_transfer (turns : List Turn) (hflags : s.tfp.flags = .wronly)
    (hreq : s.req = some req) :
    ∃ ackbuf, (turns.map TransferOp.turn).foldl Transfer.next s =
      s.settle ((wrqLoop req s.size turns s.tfp s.ackbuf).1.map gotAck,
        (wrqLoop req s.size turns s.tfp s.ackbuf).2, ackbuf) := by
  induction turns generalizing s with
  | nil => exact ⟨s.ackbuf, rfl⟩
  | cons turn turns ih =>
    have hnext : s.next (.turn turn) = s.settle (s.answer req turn) := by
      simp [Transfer.next, hreq]
    obtain ⟨-, hkeep, -⟩ := answer_frame s req turn
    rw [List.map_cons, List.foldl_cons, hnext]
    rw [answer_wronly hflags] at hkeep ⊢
    rw [wrqLoop]
    rcases hturn : wrqTurn req s.size turn s.tfp s.ackbuf with ⟨_ | r, tfp, ackbuf⟩
    · rw [hturn] at hkeep
      exact ih (hkeep.trans hflags) hreq
    · refine ⟨ackbuf, ?_⟩
      dsimp only [Option.map_some]
      apply foldl_idle
      cases gotAck r <;> rfl

theorem withLink_iff : file.withLink tfp = file ↔
    tfp.port = file.port ∧ tfp.block = file.block ∧ tfp.flags = file.flags ∧
      tfp.eof = file.eof := by
  cases file
  simp [Tftpfile.withLink]

/-- The next request of a file. -/
theorem Idle.next_more (h : Idle s file) (size : ℕ) (ackbuf : Mem) :
    s.next (.more file size ackbuf) = s.request file size ackbuf := by
  simp only [Transfer.next]
  rw [if_pos ⟨h.req_eq, h.server_ne⟩, h.link_eq]

/-- A refill of the buffer, as a run. -/
theorem refill_transfer {r : Except Failure ℤ} (h : Idle s file) (hflags : file.flags = .rdonly)
    (hrun : tftprrq (ack file.block) turns (tftpnxtblk file) = some (r, tfp')) :
    ∃ ops, turnsOf ops = turns ∧ Idle (ops.foldl Transfer.next s) tfp' := by
  refine ⟨.more file 0 s.ackbuf :: turns.map .turn, turnsOf_map turns, ?_⟩
  generalize hwait : ({ s with
    tfp := tftpnxtblk file, req := some (ack file.block), order := s.order + 1 } : Transfer) = wait
  have hreq : s.request file 0 s.ackbuf = wait := by
    rw [← hwait]
    simp [Transfer.request, hflags]
  have hturns : (turns.map TransferOp.turn).foldl Transfer.next wait =
      wait.settle (some (gotBlock r), tfp', wait.ackbuf) := by
    subst hwait
    exact tftprrq_transfer hflags rfl hrun
  rw [List.foldl_cons, h.next_more, hreq, hturns]
  have hserver : wait.server ≠ none := by
    subst hwait
    exact h.server_ne
  cases gotBlock r with
  | error e => exact ⟨rfl, hserver, withLink_iff.mpr ⟨rfl, rfl, rfl, rfl⟩⟩
  | ok _ => exact ⟨rfl, by simp [Transfer.settle], withLink_iff.mpr ⟨rfl, rfl, rfl, rfl⟩⟩

/-- Reading moves the rest of a file. -/
theorem Idle.move (h : Idle s file) (hport : tfp.port = file.port) (hblock : tfp.block = file.block)
    (hflags : tfp.flags = file.flags) (heof : tfp.eof = file.eof) : Idle s tfp := by
  obtain ⟨hport', hblock', hflags', heof'⟩ := withLink_iff.mp h.link_eq
  exact ⟨h.req_eq, h.server_ne, withLink_iff.mpr ⟨hport'.trans hport.symm,
    hblock'.trans hblock.symm, hflags'.trans hflags.symm, heof'.trans heof.symm⟩⟩

theorem copyOut_link (nb : ℕ) (tfp : Tftpfile) (out : List UInt8) :
    ∃ foffs, (copyOut nb tfp out).2.1 = { tfp with foffs } := by
  unfold copyOut
  split
  · exact ⟨_, rfl⟩
  · exact ⟨_, rfl⟩

/-- **`tftpread`** is a run of the transfer: after a call that returns, it has taken turns from the
    schedule, and the file is again one that is open. -/
theorem readLoop_transfer {schedule : List (List Turn)} {nb : ℕ} {out : List UInt8}
    {r : Except Failure (List UInt8)} (h : Idle s tfp) (hflags : tfp.flags = .rdonly)
    (hrun : readLoop schedule nb tfp out = some (r, tfp')) :
    ∃ ops n, turnsOf ops = (schedule.take n).flatten ∧ Idle (ops.foldl Transfer.next s) tfp' := by
  induction schedule generalizing nb tfp out s with
  | nil =>
    rw [readLoop] at hrun
    split at hrun
    · cases hrun
      exact ⟨[], 0, rfl, h⟩
    · obtain ⟨foffs, hcopy⟩ := copyOut_link nb tfp out
      rcases hout : copyOut nb tfp out with ⟨nb', file, out'⟩
      rw [hout] at hrun hcopy
      dsimp only at hrun hcopy
      subst hcopy
      split at hrun
      · split at hrun
        · cases hrun
          exact ⟨[], 0, rfl, h.move rfl rfl rfl rfl⟩
        · cases hrun
      · cases hrun
  | cons turns schedule ih =>
    rw [readLoop] at hrun
    split at hrun
    · cases hrun
      exact ⟨[], 0, rfl, h⟩
    · obtain ⟨foffs, hcopy⟩ := copyOut_link nb tfp out
      rcases hout : copyOut nb tfp out with ⟨nb', file, out'⟩
      rw [hout] at hrun hcopy
      dsimp only at hrun hcopy
      subst hcopy
      have hidle : Idle s { tfp with foffs } := h.move rfl rfl rfl rfl
      split at hrun
      · split at hrun
        · cases hrun
          exact ⟨[], 0, rfl, hidle⟩
        · cases hrun
      · -- the buffer is empty: the turns of a refill, and then the rest of the loop
        rcases hrefill : tftprrq (ack tfp.block) turns (tftpnxtblk { tfp with foffs }) with
          _ | ⟨e | n, tfp₁⟩
        · rw [hrefill] at hrun
          cases hrun
        · rw [hrefill] at hrun
          cases hrun
          obtain ⟨ops, hops, hidle₁⟩ := refill_transfer hidle hflags hrefill
          exact ⟨ops, 1, by simpa using hops, hidle₁⟩
        · rw [hrefill] at hrun
          obtain ⟨ops, hops, hidle₁⟩ := refill_transfer hidle hflags hrefill
          have hcursor := congrArg Prod.fst (tftprrq_cursor hrefill)
          dsimp only at hrun
          split at hrun
          · cases hrun
            exact ⟨ops, 1, by simpa using hops, hidle₁⟩
          · have hfull : Idle (ops.foldl Transfer.next s)
                { tfp₁ with start := tfp₁.stop, stop := wrap32 (tfp₁.stop + n) } :=
              hidle₁.move rfl rfl rfl rfl
            obtain ⟨ops', n', hops', hidle'⟩ := ih hfull (hcursor.trans hflags) hrun
            refine ⟨ops ++ ops', n' + 1, ?_, ?_⟩
            · rw [turnsOf, List.filterMap_append]
              exact congrArg₂ (· ++ ·) hops hops'
            · rw [List.foldl_append]
              exact hidle'

/-- **`tftpread`** is a run of the transfer of its file. -/
theorem tftpread_transfer {nread : ℕ} {schedule : List (List Turn)}
    {r : Except Failure (List UInt8)} (h : Idle s tfp)
    (hrun : tftpread tfp nread schedule = some (r, tfp')) :
    ∃ ops n, turnsOf ops = (schedule.take n).flatten ∧ Idle (ops.foldl Transfer.next s) tfp' := by
  unfold tftpread at hrun
  split at hrun
  · cases hrun
    exact ⟨[], 0, rfl, h⟩
  · rename_i hflags
    exact readLoop_transfer h (not_not.mp hflags) hrun

/-- A packet of a file that is written, as a run. -/
theorem sendData_transfer {wait : Wait} {r : Except Failure ℕ} (h : Idle s file)
    (hflags : file.flags = .wronly) (hrun : sendData size wait file = (some r, tfp')) :
    ∃ ops, turnsOf ops = wait.turns ∧ Idle (ops.foldl Transfer.next s) tfp' := by
  refine ⟨.more file size wait.ackbuf :: wait.turns.map .turn, turnsOf_map wait.turns, ?_⟩
  generalize hwaits : ({ s with
    tfp := nextData file, req := some ((nextData file).buf.slice 0 (size + 4))
    size, ackbuf := wait.ackbuf, order := s.order + 1 } : Transfer) = waits
  have hreq : s.request file size wait.ackbuf = waits := by
    rw [← hwaits]
    simp [Transfer.request, hflags]
  have hturns : ∃ ackbuf, (wait.turns.map TransferOp.turn).foldl Transfer.next waits =
      waits.settle (some (gotAck r), tfp', ackbuf) := by
    subst hwaits
    change wrqLoop _ _ _ _ _ = _ at hrun
    obtain ⟨ackbuf, hturns⟩ := wrqLoop_transfer wait.turns (s := { s with
      tfp := nextData file, req := some ((nextData file).buf.slice 0 (size + 4))
      size, ackbuf := wait.ackbuf, order := s.order + 1 }) hflags rfl
    dsimp only at hturns
    rw [hrun] at hturns
    exact ⟨ackbuf, hturns⟩
  obtain ⟨ackbuf, hturns⟩ := hturns
  rw [List.foldl_cons, h.next_more, hreq, hturns]
  have hserver : waits.server ≠ none := by
    subst hwaits
    exact h.server_ne
  cases gotAck r with
  | error e => exact ⟨rfl, hserver, withLink_iff.mpr ⟨rfl, rfl, rfl, rfl⟩⟩
  | ok _ => exact ⟨rfl, by simp [Transfer.settle], withLink_iff.mpr ⟨rfl, rfl, rfl, rfl⟩⟩

/-- The loop of `tftpwrite` as a run of the transfer. -/
theorem writeLoop_transfer {waits : List Wait} {bs : List UInt8} {r : Except Failure Unit}
    (h : Idle s tfp) (hflags : tfp.flags = .wronly)
    (hrun : writeLoop waits bs tfp = (some r, tfp')) :
    ∃ ops n, turnsOf ops = ((waits.take n).map Wait.turns).flatten ∧
      Idle (ops.foldl Transfer.next s) tfp' := by
  induction waits generalizing bs tfp s with
  | nil =>
    rw [writeLoop] at hrun
    split at hrun
    · cases hrun
      exact ⟨[], 0, rfl, h⟩
    · rcases hin : copyIn bs tfp with ⟨file, bs'⟩
      have hidle : Idle s file := by
        have hcopy := congrArg Prod.fst hin
        subst hcopy
        exact h.move rfl rfl rfl rfl
      rw [hin] at hrun
      dsimp only at hrun
      split at hrun
      · split at hrun
        · cases hrun
          exact ⟨[], 0, rfl, hidle⟩
        · cases hrun
      · cases hrun
  | cons wait waits ih =>
    rw [writeLoop] at hrun
    split at hrun
    · cases hrun
      exact ⟨[], 0, rfl, h⟩
    · rcases hin : copyIn bs tfp with ⟨file, bs'⟩
      have hcopy := congrArg Prod.fst hin
      have hidle : Idle s file := by
        subst hcopy
        exact h.move rfl rfl rfl rfl
      have hmode : file.flags = .wronly := by
        subst hcopy
        exact hflags
      rw [hin] at hrun
      dsimp only at hrun
      split at hrun
      · split at hrun
        · cases hrun
          exact ⟨[], 0, rfl, hidle⟩
        · cases hrun
      · -- the buffer is full: its packet, and then the rest of the loop
        rcases hsend : sendData file.stop.toNat wait file with ⟨_ | ⟨e | n⟩, tfp₁⟩
        · rw [hsend] at hrun
          cases hrun
        · rw [hsend] at hrun
          cases hrun
          obtain ⟨ops, hops, hidle₁⟩ := sendData_transfer hidle hmode hsend
          exact ⟨ops, 1, by simpa using hops, hidle₁⟩
        · rw [hsend] at hrun
          obtain ⟨ops, hops, hidle₁⟩ := sendData_transfer hidle hmode hsend
          have hsame := (sendData_sameFile file.stop.toNat wait file).fields.1
          rw [hsend] at hsame
          have hnext : Idle (ops.foldl Transfer.next s) { tfp₁ with stop := 0 } :=
            hidle₁.move rfl rfl rfl rfl
          obtain ⟨ops', n', hops', hidle'⟩ := ih hnext (hsame.trans hmode) hrun
          refine ⟨ops ++ ops', n' + 1, ?_, ?_⟩
          · rw [turnsOf, List.filterMap_append]
            exact congrArg₂ (· ++ ·) hops hops'
          · rw [List.foldl_append]
            exact hidle'

/-- **`tftpwrite`** is a run of the transfer of its file. -/
theorem tftpwrite_transfer {bs : List UInt8} {waits : List Wait} {r : Except Failure Unit}
    (h : Idle s tfp) (hrun : tftpwrite tfp bs waits = (some r, tfp')) :
    ∃ ops n, turnsOf ops = ((waits.take n).map Wait.turns).flatten ∧
      Idle (ops.foldl Transfer.next s) tfp' := by
  unfold tftpwrite at hrun
  split at hrun
  · cases hrun
    exact ⟨[], 0, rfl, h⟩
  · rename_i hflags
    exact writeLoop_transfer h (not_not.mp hflags) hrun

/-- **`tftpopen`** for reading leaves a file that is open. -/
theorem tftpopen_transfer {filename : CStr} (h : tftpopen port filename turns = some (.ok tfp)) :
    Idle ((turns.map TransferOp.turn).foldl Transfer.next
      (Transfer.opening .rdonly port filename ackbuf)) tfp := by
  unfold tftpopen at h
  dsimp only at h
  split at h
  · cases h
  · cases h
  · rename_i size tfp₁ hrrq
    generalize hstart : Transfer.opening .rdonly port filename ackbuf = start
    have hturns : (turns.map TransferOp.turn).foldl Transfer.next start =
        start.settle (some (gotBlock (.ok size)), tfp₁, start.ackbuf) := by
      subst hstart
      exact tftprrq_transfer rfl rfl hrrq
    split at h
    · cases h
    · rename_i hsize
      cases h
      rw [gotBlock, if_neg hsize] at hturns
      rw [hturns]
      exact ⟨rfl, by simp [Transfer.settle], withLink_iff.mpr ⟨rfl, rfl, rfl, rfl⟩⟩

/-- **`tftpopen`** for writing leaves a file that is open. -/
theorem tftpopenWrite_transfer {filename : CStr} {wait : Wait}
    (h : tftpopenWrite port filename wait = some (.ok tfp)) :
    Idle ((wait.turns.map TransferOp.turn).foldl Transfer.next
      (Transfer.opening .wronly port filename wait.ackbuf)) tfp := by
  unfold tftpopenWrite at h
  dsimp only at h
  generalize hstart : Transfer.opening .wronly port filename wait.ackbuf = start
  have hreq : start.req = some (makerequest opWRQ filename (ascii "octet")) := by
    rw [← hstart, Transfer.opening]
  have hflags : start.tfp.flags = .wronly := by
    rw [← hstart]
    rfl
  obtain ⟨ackbuf, hturns⟩ := wrqLoop_transfer wait.turns hflags hreq
  split at h
  · cases h
  · cases h
  · rename_i n tfp₁ hwrq
    cases h
    have hrun : wrqLoop (makerequest opWRQ filename (ascii "octet")) start.size wait.turns start.tfp
        start.ackbuf = (some (.ok n), tfp) := by
      rw [← hstart]
      exact hwrq
    rw [hturns, hrun]
    exact ⟨rfl, by simp [Transfer.settle, gotAck], withLink_iff.mpr ⟨rfl, rfl, rfl, rfl⟩⟩

/-! ## §6 A transfer that wraps -/

/-- A file of 65536 blocks. -/
def longFile : List UInt8 := List.replicate (512 * 65536) 0

/-- The first blocks of the file come in. -/
def longRead : ℕ → List TransferOp
  | 0 => []
  | n + 1 =>
    longRead n ++ [.turn (dataTurn longFile 69 (n + 1)), .more (newWriter 0) 0 fun _ => 0]

/-- What is reached after some blocks: the next one is awaited. -/
structure Reached (n : ℕ) (s : Transfer) : Prop where
  awaiting : Awaiting 69 (n + 1) s.tfp
  flags_eq : s.tfp.flags = .rdonly
  req_ne : s.req ≠ none
  order_eq : s.order = n + 1
  server_eq : s.server = if n = 0 then none else some 69

theorem Reached.inLink {n : ℕ} (h : Reached n s) : InLink s := by
  refine ⟨?_, ?_, ?_, ?_, ?_⟩
  · rw [h.awaiting.block_eq, h.order_eq]
  · intro hw
    rw [h.flags_eq] at hw
    cases hw
  · intro q hq
    rw [h.server_eq] at hq
    by_cases hn : n = 0
    · rw [if_pos hn] at hq
      cases hq
    · rw [if_neg hn] at hq
      rw [h.awaiting.port_eq (by omega)]
      exact Option.some.inj hq
  · rw [h.flags_eq, h.order_eq]
    exact Nat.le_add_left 1 n
  · intro hserver _
    rw [h.flags_eq, h.order_eq]
    have hn : n ≠ 0 := by
      rintro rfl
      rw [h.server_eq] at hserver
      exact hserver rfl
    change 1 < n + 1
    omega

theorem longRead_reaches (n : ℕ) (hn : n ≤ 65535) :
    Reached n ((longRead n).foldl Transfer.next (Transfer.opening .rdonly 69 [] fun _ => 0)) := by
  induction n with
  | zero =>
    exact ⟨⟨rfl, rfl, fun h => absurd h (by omega)⟩, rfl, by simp [longRead, Transfer.opening],
      rfl, rfl⟩
  | succ n ih =>
    have hreached := ih (by omega)
    rw [longRead, List.foldl_append]
    generalize (longRead n).foldl Transfer.next _ = s at hreached
    obtain ⟨req, hreq⟩ := Option.ne_none_iff_exists'.mp hreached.req_ne
    obtain ⟨tfp, hrun, hgot, hcursor, -⟩ := tftprrq_now longFile req hreached.awaiting
    have hturn := tftprrq_transfer hreached.flags_eq hreq hrun
    have hflags : tfp.flags = .rdonly := (congrArg Prod.fst hcursor).trans hreached.flags_eq
    have hok : gotBlock (.ok ((blockOf longFile (n + 1)).length : ℤ)) = .ok () := by
      rw [gotBlock, if_neg (by omega)]
    have hport : s.server.getD tfp.port = 69 := by
      rw [hreached.server_eq, hgot.port_eq]
      by_cases hzero : n = 0
      · rw [if_pos hzero, Option.getD_none]
      · rw [if_neg hzero, Option.getD_some]
    have heof : tfp.eof = false := by
      have hblocks : blocks longFile = 65537 := by
        rw [blocks, longFile, List.length_replicate]
      have hlast : (blockOf longFile (n + 1)).length < 512 ↔ n + 1 = blocks longFile :=
        length_blockOf_lt_iff (by omega) (by omega)
      rw [hgot.eof_eq]
      apply decide_eq_false
      rw [hlast]
      omega
    rw [List.map_singleton, hok] at hturn
    change Reached (n + 1) (([TransferOp.turn _].foldl Transfer.next s).next (.more _ _ _))
    rw [hturn]
    simp only [Transfer.settle, Transfer.next, hport]
    rw [if_pos ⟨trivial, by simp⟩, Transfer.request]
    simp only [Tftpfile.withLink, hflags]
    refine ⟨⟨heof, ?_, fun _ => hgot.port_eq⟩, rfl, by simp, ?_, rfl⟩
    · change (tfp.block + 1) % 65536 = _
      rw [hgot.block_eq, Nat.mod_add_mod]
    · rw [hreached.order_eq]

/-- With 65535 blocks read, the last of them once more ends the transfer; and a packet from another
    port is taken for the server's. -/
theorem transfers_wrap :
    let start := Transfer.opening .rdonly 69 [] fun _ => 0
    ¬ EveryStep Transfer.next Safe start (longRead 65535 ++ [.turn (dataTurn longFile 69 65535)]) ∧
      ¬ EveryStep Transfer.next Safe start
        (longRead 65535 ++ [.turn (dataTurn longFile 70 65536)]) := by
  intro start
  have hreached := longRead_reaches 65535 (Nat.le_refl _)
  have hserver := hreached.server_eq
  rw [if_neg (by omega)] at hserver
  have hzero := hreached.order_eq
  refine ⟨?_, ?_⟩
  · intro h
    have hsafe := (safe_iff hreached.inLink _).mp (h (longRead 65535) _ List.prefix_rfl)
    obtain ⟨hdup, -⟩ := hsafe 69 _ 69 hreached.req_ne
      ⟨rfl, hreached.awaiting.not_eof, rfl⟩ hserver
    apply hdup (by rw [hzero]) rfl
    refine ⟨blockOf longFile 65535, ?_⟩
    rw [hreached.flags_eq, hzero]
    rfl
  · intro h
    have hsafe := (safe_iff hreached.inLink _).mp (h (longRead 65535) _ List.prefix_rfl)
    obtain ⟨-, hforeign⟩ := hsafe 70 _ 69 hreached.req_ne
      ⟨rfl, hreached.awaiting.not_eof, rfl⟩ hserver
    have hport := hforeign (by rw [hzero, hreached.flags_eq]; decide)
    omega

end Pmon.Netio
