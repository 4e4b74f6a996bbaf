import Pmon.Lib.Repeats
import Pmon.Netio.TftpRuns
import Pmon.Netio.TftpWrite

/-!
# Writing a file over TFTP

`Writing` is the invariant of a descriptor that is written: the packets sent are the full blocks
of the data written so far, and the buffer holds the rest.

## Key results

- `sendData_packets`: a packet that is sent is the next block of the data.
- `writeLoop_writing`: a write that succeeds keeps the invariant.
- `writes_exact`: in step, no write fails, and the packets carry the data.
- `write_sends_twice`: after a write that failed, the close sends a block again under the next
  number.
-/

namespace Pmon.Netio

open Pmon.Lib Pmon.Libc

variable {data bs : List UInt8} {port k m size : ℕ} {tfp tfp' : Tftpfile} {turn : Turn}
  {turns : List Turn} {req : List UInt8} {filename : CStr} {wait : Wait} {waits : List Wait}
  {ackbuf : Mem} {pkts : List (List UInt8)}

/-! ## §1 What is sent -/

/-- The packets sent, each of them once. -/
def Tftpfile.packets (tfp : Tftpfile) : List (List UInt8) := tfp.sent.destutter (· ≠ ·)

theorem packets_sendto_new (h : tfp.packets = pkts) (hne : pkts.getLast? ≠ some req) :
    (tfp.sendto req).packets = pkts ++ [req] := by
  subst h
  rw [Tftpfile.packets, getLast?_destutter] at hne
  exact destutter_new hne

theorem packets_sendto_again (h : tfp.packets = pkts ++ [req]) :
    (tfp.sendto req).packets = pkts ++ [req] := by
  have hlast : tfp.sent.getLast? = some req := by
    rw [← getLast?_destutter, ← Tftpfile.packets, h, List.getLast?_concat]
  exact (destutter_again hlast).trans h

/-- The write request. -/
def wrqPkt (filename : CStr) : List UInt8 := makerequest opWRQ filename (ascii "octet")

/-- The packets with the first `m` blocks. -/
def dataPkts (data : List UInt8) (m : ℕ) : List (List UInt8) :=
  (List.range m).map fun i => dataPkt data (i + 1)

theorem dataPkts_succ : dataPkts data (m + 1) = dataPkts data m ++ [dataPkt data (m + 1)] := by
  rw [dataPkts, List.range_succ, List.map_append]
  rfl

theorem blockOf_append (hk : 1 ≤ k) (hle : 512 * k ≤ data.length) :
    blockOf (data ++ bs) k = blockOf data k := by
  rw [blockOf, blockOf, clip, clip, List.drop_append_of_le_length (by omega),
    List.take_append_of_le_length (by rw [List.length_drop]; omega)]

/-- What is written later does not change the full blocks. -/
theorem dataPkts_append (hle : 512 * m ≤ data.length) :
    dataPkts (data ++ bs) m = dataPkts data m := by
  refine List.map_congr_left fun i hi => ?_
  have hlt : i < m := List.mem_range.mp hi
  rw [dataPkt, dataPkt, blockOf_append (by omega) (by omega)]

/-- The bytes in the first blocks. -/
theorem flatten_blocks (data : List UInt8) (m : ℕ) :
    ((List.range m).map fun i => blockOf data (i + 1)).flatten = clip data 0 (512 * m) := by
  induction m with
  | zero => rfl
  | succ m ih =>
    rw [List.range_succ, List.map_append, List.flatten_append, ih, Nat.mul_succ, clip_add]
    simp [blockOf]

theorem wrqPkt_ne_dataPkt : wrqPkt filename ≠ dataPkt data k := by
  intro heq
  have hget := congrArg (·[1]?) heq
  simp [wrqPkt, makerequest, dataPkt, htons, opWRQ, opDATA] at hget

/-- Packets with consecutive numbers differ. -/
theorem packet_ne_succ :
    htons opDATA ++ htons k ++ data ≠ htons opDATA ++ htons (k + 1) ++ bs := by
  intro heq
  have hget := congrArg (·[3]?) heq
  simp [htons] at hget

/-- The next block is a packet of its own. -/
theorem getLast?_dataPkts_ne :
    (wrqPkt filename :: dataPkts data m).getLast? ≠ some (dataPkt data (m + 1)) := by
  cases m with
  | zero => simpa [dataPkts] using wrqPkt_ne_dataPkt
  | succ m =>
    rw [dataPkts_succ, ← List.cons_append, List.getLast?_concat]
    exact fun heq => packet_ne_succ (Option.some.inj heq)

/-! ## §2 Waiting for an acknowledgement -/

/-- **A turn** sends the request and learns a port, or nothing goes out. -/
theorem wrqTurn_frame (req : List UInt8) (size : ℕ) (turn : Turn) (tfp : Tftpfile) (ackbuf : Mem) :
    turn.sendOk = false ∧
      wrqTurn req size turn tfp ackbuf = (some (.error .network), tfp, ackbuf) ∨
    ∃ r port ackbuf',
      wrqTurn req size turn tfp ackbuf = (r, { tfp.sendto req with port }, ackbuf') := by
  cases hsend : turn.sendOk with
  | false =>
    left
    rw [wrqTurn, hsend]
    exact ⟨rfl, rfl⟩
  | true =>
    right
    rw [wrqTurn, hsend]
    simp only [Bool.not_true, Bool.false_eq_true, if_false]
    split
    · exact ⟨_, _, _, rfl⟩
    · exact ⟨_, _, _, rfl⟩
    · exact ⟨_, _, _, rfl⟩
    · repeat' split
      all_goals exact ⟨_, _, _, rfl⟩

/-- Only the port and what was sent change. -/
def SameFile (tfp tfp' : Tftpfile) : Prop :=
  ∃ port sent, tfp' = { tfp with port, sent }

theorem SameFile.fields (h : SameFile tfp tfp') :
    tfp'.flags = tfp.flags ∧ tfp'.block = tfp.block ∧ tfp'.stop = tfp.stop ∧
      tfp'.buf = tfp.buf := by
  obtain ⟨port, sent, rfl⟩ := h
  exact ⟨rfl, rfl, rfl, rfl⟩

theorem wrqLoop_sameFile (req : List UInt8) (size : ℕ) (turns : List Turn) (tfp : Tftpfile)
    (ackbuf : Mem) : SameFile tfp (wrqLoop req size turns tfp ackbuf).2 := by
  induction turns generalizing tfp ackbuf with
  | nil => exact ⟨_, _, rfl⟩
  | cons turn turns ih =>
    rw [wrqLoop]
    rcases wrqTurn_frame req size turn tfp ackbuf with ⟨-, heq⟩ | ⟨r, port, ackbuf', heq⟩
    · rw [heq]
      exact ⟨_, _, rfl⟩
    · rw [heq]
      cases r with
      | none =>
        obtain ⟨port', sent', heq'⟩ := ih { tfp.sendto req with port } ackbuf'
        exact ⟨port', sent', heq'⟩
      | some r => exact ⟨_, _, rfl⟩

/-- A request that went out is sent again until it is answered. -/
theorem wrqLoop_again (h : tfp.packets = pkts ++ [req]) (size : ℕ) (turns : List Turn)
    (ackbuf : Mem) : (wrqLoop req size turns tfp ackbuf).2.packets = pkts ++ [req] := by
  induction turns generalizing tfp ackbuf with
  | nil => exact h
  | cons turn turns ih =>
    rw [wrqLoop]
    rcases wrqTurn_frame req size turn tfp ackbuf with ⟨-, heq⟩ | ⟨r, port, ackbuf', heq⟩
    · rw [heq]
      exact h
    · have hsent : ({ tfp.sendto req with port } : Tftpfile).packets = pkts ++ [req] :=
        packets_sendto_again h
      rw [heq]
      cases r with
      | none => exact ih hsent ackbuf'
      | some r => exact hsent

/-- **A new request**: once a turn could send it, it is the last packet. -/
theorem wrqLoop_new (h : tfp.packets = pkts) (hne : pkts.getLast? ≠ some req) (size : ℕ)
    (turns : List Turn) (ackbuf : Mem) :
    (wrqLoop req size turns tfp ackbuf).2.packets = pkts ++ [req] ∨
    (wrqLoop req size turns tfp ackbuf).2.packets = pkts ∧
      ((wrqLoop req size turns tfp ackbuf).1 = none ∨
        (wrqLoop req size turns tfp ackbuf).1 = some (.error .network) ∧
          ∃ turn ∈ turns, turn.sendOk = false) := by
  cases turns with
  | nil => exact Or.inr ⟨h, Or.inl rfl⟩
  | cons turn turns =>
    rw [wrqLoop]
    rcases wrqTurn_frame req size turn tfp ackbuf with ⟨hsend, heq⟩ | ⟨r, port, ackbuf', heq⟩
    · rw [heq]
      exact Or.inr ⟨h, Or.inr ⟨rfl, turn, List.mem_cons_self, hsend⟩⟩
    · have hsent : ({ tfp.sendto req with port } : Tftpfile).packets = pkts ++ [req] :=
        packets_sendto_new h hne
      left
      rw [heq]
      cases r with
      | none => exact wrqLoop_again hsent size turns ackbuf'
      | some r => exact hsent

theorem wrqTurn_port {n : ℕ} {ackbuf' : Mem}
    (h : wrqTurn req size turn tfp ackbuf = (some (.ok n), tfp', ackbuf')) :
    ∃ bytes, turn.event = .datagram tfp'.port bytes := by
  rw [wrqTurn] at h
  split at h
  · cases h
  · dsimp only at h
    split at h
    · cases h
    · cases h
    · cases h
    · rename_i hev
      rw [hev]
      repeat' split at h
      all_goals first | cases h; exact ⟨_, rfl⟩ | cases h

/-- **The port that is learned** is the one the datagrams come from. -/
theorem wrqLoop_port {n : ℕ}
    (hs : ∀ turn ∈ turns, ∀ sinPort bytes, turn.event = .datagram sinPort bytes → sinPort = port)
    (h : wrqLoop req size turns tfp ackbuf = (some (.ok n), tfp')) : tfp'.port = port := by
  induction turns generalizing tfp ackbuf with
  | nil => cases h
  | cons turn turns ih =>
    rw [List.forall_mem_cons] at hs
    rw [wrqLoop] at h
    split at h
    · exact ih hs.2 h
    · rename_i heq
      cases h
      obtain ⟨bytes, hev⟩ := wrqTurn_port heq
      exact hs.1 _ _ hev

/-- While block `k` is sent: nothing fails, and of the server's acknowledgements only those of
    this block and the one before it come in, the latter not where the number wraps to 0. -/
structure AckInStep (port k : ℕ) (turn : Turn) : Prop where
  send_ok : turn.sendOk = true
  select_ok : turn.event ≠ .selectFails
  recv_ok : turn.event ≠ .recvFails
  datagram : ∀ sinPort bytes, turn.event = .datagram sinPort bytes →
    sinPort ≠ port ∧ ¬65536 ∣ k ∨
    sinPort = port ∧ (bytes = ack k ∨ ¬65536 ∣ k ∧ bytes = ack (k - 1))

/-- **An acknowledgement from the server**: that of the awaited number is taken, that of the
    number before it is passed over unless the awaited number is 0, any other one ends the
    call. -/
theorem wrqTurn_ack (req : List UInt8) (size : ℕ) (ackbuf : Mem) {j : ℕ}
    (hport : tfp.block ≠ 0 → tfp.port = port) (hsend : turn.sendOk = true)
    (hev : turn.event = .datagram port (ack j)) :
    ∃ ackbuf', wrqTurn req size turn tfp ackbuf =
      (if j % 65536 = tfp.block then some (.ok size)
        else if ((j % 65536 : ℕ) : ℤ) ≠ tfp.block - 1 then some (.error .outOfStep) else none,
        { tfp.sendto req with port }, ackbuf') := by
  have hnil : ([] : List UInt8).length ≤ 512 := Nat.zero_le _
  obtain ⟨hop, hblock, -⟩ := buffered_packet ackbuf opACK j hnil
  rw [List.append_nil] at hop hblock
  have hfrom : ¬((tfp.sendto req).block ≠ 0 ∧ port ≠ (tfp.sendto req).port) := fun h =>
    h.2 (hport h.1).symm
  refine ⟨ntohs (ntohs (ackbuf.store 0 ((ack j).take pktsize)) 0) 2, ?_⟩
  rw [ack] at hev ⊢
  rw [wrqTurn, hsend]
  simp only [Bool.not_true, Bool.false_eq_true, if_false, hev, if_neg hfrom, hop, hblock]
  rw [if_neg (by decide), if_pos (by decide)]
  change (if j % 65536 = tfp.block then _ else _) = _
  split
  · rfl
  · change (if ((j % 65536 : ℕ) : ℤ) ≠ tfp.block - 1 then _ else _) = _
    split <;> rfl

theorem wrqTurn_inStep (req : List UInt8) (size : ℕ) (ackbuf : Mem)
    (hblock : tfp.block = k % 65536) (hport : tfp.port = port) (hs : AckInStep port k turn) :
    ∃ r ackbuf', wrqTurn req size turn tfp ackbuf = (r, tfp.sendto req, ackbuf') ∧
      (r = none ∨ r = some (.ok size)) := by
  subst hport
  cases hev : turn.event with
  | timeout =>
    rw [wrqTurn, hs.send_ok, hev]
    exact ⟨_, _, rfl, Or.inl rfl⟩
  | selectFails => exact absurd hev hs.select_ok
  | recvFails => exact absurd hev hs.recv_ok
  | datagram sinPort bytes =>
    rcases hs.datagram sinPort bytes hev with ⟨hne, hk⟩ | ⟨rfl, hack⟩
    · have hforeign : (tfp.sendto req).block ≠ 0 ∧ sinPort ≠ (tfp.sendto req).port := by
        refine ⟨?_, hne⟩
        change tfp.block ≠ 0
        omega
      rw [wrqTurn, hs.send_ok, hev]
      simp only [Bool.not_true, Bool.false_eq_true, if_false, if_pos hforeign]
      exact ⟨_, _, rfl, Or.inl rfl⟩
    · rcases hack with rfl | ⟨hk, rfl⟩
      · obtain ⟨ackbuf', hturn⟩ := wrqTurn_ack req size ackbuf (fun _ => rfl) hs.send_ok hev
        rw [if_pos hblock.symm] at hturn
        exact ⟨_, _, hturn, Or.inr rfl⟩
      · obtain ⟨ackbuf', hturn⟩ := wrqTurn_ack req size ackbuf (fun _ => rfl) hs.send_ok hev
        rw [if_neg (by omega), if_neg (by omega)] at hturn
        exact ⟨_, _, hturn, Or.inl rfl⟩

/-- **In step, a wait does not fail.** -/
theorem wrqLoop_inStep (req : List UInt8) (size : ℕ) (ackbuf : Mem)
    (hblock : tfp.block = k % 65536) (hport : tfp.port = port)
    (hs : ∀ turn ∈ turns, AckInStep port k turn) :
    ((wrqLoop req size turns tfp ackbuf).1 = none ∨
        (wrqLoop req size turns tfp ackbuf).1 = some (.ok size)) ∧
      (wrqLoop req size turns tfp ackbuf).2.port = port := by
  induction turns generalizing tfp ackbuf with
  | nil => exact ⟨Or.inl rfl, hport⟩
  | cons turn turns ih =>
    rw [List.forall_mem_cons] at hs
    obtain ⟨r, ackbuf', hturn, hr⟩ := wrqTurn_inStep req size ackbuf hblock hport hs.1
    rw [wrqLoop, hturn]
    rcases hr with rfl | rfl
    · exact ih ackbuf' hblock hport hs.2
    · exact ⟨Or.inr rfl, hport⟩

/-! ## §3 The descriptor -/

/-- `K` blocks of the data were sent, and the buffer holds what is written behind them. -/
structure Writing (filename : CStr) (data : List UInt8) (K : ℕ) (tfp : Tftpfile) : Prop where
  flags_eq : tfp.flags = .wronly
  block_eq : tfp.block = K % 65536
  le : 512 * K ≤ data.length
  ge : data.length ≤ 512 * (K + 1)
  stop_eq : tfp.stop = (data.length - 512 * K : ℕ)
  holds : tfp.buf.Holds 4 (data.drop (512 * K))
  packets_eq : tfp.packets = wrqPkt filename :: dataPkts data K

variable {K : ℕ} {bs₁ bs₂ : List UInt8}

/-- What is in the buffer is the next block. -/
theorem Writing.block (h : Writing filename data K tfp) :
    blockOf data (K + 1) = data.drop (512 * K) := by
  have hge := h.ge
  rw [blockOf, clip, Nat.add_sub_cancel]
  exact List.take_of_length_le (by rw [List.length_drop]; omega)

theorem htons_mod : htons (k % 65536) = htons k := by
  have hlo : UInt8.ofNat (k % 65536) = UInt8.ofNat k := by
    rw [← UInt8.toNat_inj, UInt8.toNat_ofNat', UInt8.toNat_ofNat']
    omega
  have hhi : UInt8.ofNat (k % 65536 / 256) = UInt8.ofNat (k / 256) := by
    rw [← UInt8.toNat_inj, UInt8.toNat_ofNat', UInt8.toNat_ofNat']
    omega
  rw [htons, htons, hlo, hhi]

/-- **The packet in the buffer.** -/
theorem nextData_request (hblock : tfp.block = k % 65536) (hbuf : tfp.buf.Holds 4 bs) :
    (nextData tfp).buf.slice 0 (bs.length + 4) = htons opDATA ++ htons (k + 1) ++ bs := by
  have hnext : (tftpnxtblk tfp).block = (k + 1) % 65536 := by
    change (tfp.block + 1) % 65536 = _
    omega
  have hnum : htons (tftpnxtblk tfp).block = htons (k + 1) := by rw [hnext, htons_mod]
  have hall : (nextData tfp).buf.Holds 0 (htons opDATA ++ htons (k + 1) ++ bs) := by
    rw [← hnum, Mem.holds_append, Mem.holds_append]
    refine ⟨⟨?_, Mem.holds_store _ _ _⟩, ?_⟩
    · exact (Mem.holds_store_of_disjoint (Or.inl (by simp [htons]))).mpr (Mem.holds_store _ _ _)
    · refine (Mem.holds_store_of_disjoint (Or.inr (by simp [htons]))).mpr ?_
      exact (Mem.holds_store_of_disjoint (Or.inr (by simp [htons]))).mpr hbuf
  have hslice := hall.slice_eq
  have hlen : (htons opDATA ++ htons (k + 1) ++ bs).length = bs.length + 4 := by
    simp only [htons, List.length_append, List.length_cons, List.length_nil]
    omega
  rwa [hlen] at hslice

theorem sendData_sameFile (size : ℕ) (wait : Wait) (tfp : Tftpfile) :
    SameFile (nextData tfp) (sendData size wait tfp).2 :=
  wrqLoop_sameFile _ _ _ _ _

/-- **A packet that is sent** is the next block of the data. -/
theorem Writing.sendData_packets (h : Writing filename data K tfp) (wait : Wait) :
    (sendData tfp.stop.toNat wait tfp).2.packets = wrqPkt filename :: dataPkts data (K + 1) ∨
    (sendData tfp.stop.toNat wait tfp).2.packets = wrqPkt filename :: dataPkts data K ∧
      ((sendData tfp.stop.toNat wait tfp).1 = none ∨
        (sendData tfp.stop.toNat wait tfp).1 = some (.error .network) ∧
          ∃ turn ∈ wait.turns, turn.sendOk = false) := by
  have hsize : tfp.stop.toNat = (data.drop (512 * K)).length := by
    rw [h.stop_eq, Int.toNat_natCast, List.length_drop]
  have hreq : (nextData tfp).buf.slice 0 (tfp.stop.toNat + 4) = dataPkt data (K + 1) := by
    rw [hsize, nextData_request h.block_eq h.holds, dataPkt, h.block]
  have hpkts : (nextData tfp).packets = wrqPkt filename :: dataPkts data K := h.packets_eq
  rw [sendData, tftpwrq, hreq, dataPkts_succ, ← List.cons_append]
  exact wrqLoop_new hpkts getLast?_dataPkts_ne _ _ _

/-- **After a full packet** the buffer is empty. -/
theorem Writing.next (h : Writing filename data K tfp) (hfull : data.length = 512 * (K + 1))
    (hsame : SameFile (nextData tfp) tfp')
    (hpkts : tfp'.packets = wrqPkt filename :: dataPkts data (K + 1)) :
    Writing filename data (K + 1) { tfp' with stop := 0 } := by
  obtain ⟨port, sent, rfl⟩ := hsame
  refine ⟨h.flags_eq, ?_, by omega, by omega, ?_, ?_, hpkts⟩
  · change (tfp.block + 1) % 65536 = _
    rw [h.block_eq]
    omega
  · change (0 : ℤ) = _
    omega
  · rw [List.drop_eq_nil_of_le (by omega)]
    trivial

/-- **What a turn of the loop copies.** -/
theorem Writing.copyIn (h : Writing filename data K tfp) (bs : List UInt8) :
    ∃ bs₁ bs₂ tfp', bs = bs₁ ++ bs₂ ∧ copyIn bs tfp = (tfp', bs₂) ∧
      Writing filename (data ++ bs₁) K tfp' ∧ tfp'.port = tfp.port ∧
      (bs₂ = [] ∨ (data ++ bs₁).length = 512 * (K + 1)) := by
  have hle := h.le
  have hge := h.ge
  have hstop := h.stop_eq
  have hroom : (segsize - tfp.stop).toNat = 512 * (K + 1) - data.length := by
    rw [segsize]
    omega
  have hat : tfp.stop.toNat = (data.drop (512 * K)).length := by
    rw [hstop, Int.toNat_natCast, List.length_drop]
  let n := min (512 * (K + 1) - data.length) bs.length
  have hn : (bs.take n).length = n := by
    rw [List.length_take]
    omega
  have hlen : (data ++ bs.take n).length = data.length + n := by
    rw [List.length_append, hn]
  have hcopy : Netio.copyIn bs tfp =
      ({ tfp with
          buf := tfp.buf.store (4 + tfp.stop.toNat) (bs.take n)
          stop := tfp.stop + n
          foffs := wrap32 (tfp.foffs + n) }, bs.drop n) := by
    rw [Netio.copyIn, hroom]
  refine ⟨_, _, _, (List.take_append_drop n bs).symm, hcopy,
    ⟨h.flags_eq, h.block_eq, by omega, by omega, ?_, ?_, ?_⟩, rfl, ?_⟩
  · change tfp.stop + (n : ℤ) = _
    omega
  · change (tfp.buf.store (4 + tfp.stop.toNat) (bs.take n)).Holds 4 _
    rw [hat, List.drop_append_of_le_length hle, Mem.holds_append]
    exact ⟨(Mem.holds_store_of_disjoint (Or.inl (Nat.le_refl _))).mpr h.holds,
      Mem.holds_store _ _ _⟩
  · rw [dataPkts_append hle]
    exact h.packets_eq
  · rcases Nat.lt_or_ge (512 * (K + 1) - data.length) bs.length with hlt | hge'
    · exact Or.inr (by omega)
    · exact Or.inl (List.drop_eq_nil_of_le (by omega))

/-! ## §4 One write -/

/-- **The loop of `tftpwrite`**: everything is in the buffer, or the buffer is full and is sent
    before the loop goes on. -/
theorem writeLoop_cases {r : Option (Except Failure Unit)} (h : Writing filename data K tfp)
    (hlt : data.length < 512 * (K + 1)) :
    writeLoop waits bs tfp = (r, tfp') →
    (r = some (.ok ()) ∧ Writing filename (data ++ bs) K tfp' ∧
      (data ++ bs).length < 512 * (K + 1) ∧ tfp'.port = tfp.port) ∨
    ∃ bs₁ bs₂ tfp₁, bs = bs₁ ++ bs₂ ∧ Writing filename (data ++ bs₁) K tfp₁ ∧
      (data ++ bs₁).length = 512 * (K + 1) ∧ tfp₁.port = tfp.port ∧
      match waits with
      | [] => r = none ∧ tfp' = tfp₁
      | wait :: rest =>
        match sendData tfp₁.stop.toNat wait tfp₁ with
        | (none, tfp₂) => r = none ∧ tfp' = tfp₂
        | (some (.error e), tfp₂) => r = some (.error e) ∧ tfp' = tfp₂
        | (some (.ok _), tfp₂) => writeLoop rest bs₂ { tfp₂ with stop := 0 } = (r, tfp') := by
  intro hrun
  rw [writeLoop] at hrun
  split at hrun
  · rename_i hnil
    simp only [Prod.mk.injEq] at hrun
    obtain ⟨rfl, rfl⟩ := hrun
    rw [hnil, List.append_nil]
    exact Or.inl ⟨rfl, h, hlt, rfl⟩
  · obtain ⟨bs₁, bs₂, tfp₁, rfl, hcopy, h₁, hport, hcase⟩ := h.copyIn bs
    have hstop := h₁.stop_eq
    have hge := h₁.ge
    simp only [hcopy] at hrun
    split at hrun
    · -- the buffer is not full
      rename_i hne
      rw [segsize] at hne
      obtain rfl : bs₂ = [] := hcase.resolve_right fun hfull => hne (by omega)
      rw [if_pos rfl] at hrun
      simp only [Prod.mk.injEq] at hrun
      obtain ⟨rfl, rfl⟩ := hrun
      rw [List.append_nil]
      exact Or.inl ⟨rfl, h₁, by omega, hport⟩
    · rename_i heq
      rw [not_not, segsize] at heq
      refine Or.inr ⟨bs₁, bs₂, tfp₁, rfl, h₁, by omega, hport, ?_⟩
      cases waits with
      | nil =>
        simp only [Prod.mk.injEq] at hrun
        exact ⟨hrun.1.symm, hrun.2.symm⟩
      | cons wait rest =>
        dsimp only at hrun ⊢
        rcases hsend : sendData tfp₁.stop.toNat wait tfp₁ with ⟨_ | (e | _), tfp₂⟩
        · rw [hsend] at hrun
          simp only [Prod.mk.injEq] at hrun
          exact ⟨hrun.1.symm, hrun.2.symm⟩
        · rw [hsend] at hrun
          simp only [Prod.mk.injEq] at hrun
          exact ⟨hrun.1.symm, hrun.2.symm⟩
        · rw [hsend] at hrun
          exact hrun

/-- **A write**: when it succeeds, the data is in the packets and in the buffer; in any case
    what was sent are the first blocks of the data. -/
theorem writeLoop_writing {r : Option (Except Failure Unit)} (h : Writing filename data K tfp)
    (hlt : data.length < 512 * (K + 1)) (hrun : writeLoop waits bs tfp = (r, tfp')) :
    (r = some (.ok ()) → ∃ K', Writing filename (data ++ bs) K' tfp' ∧
      (data ++ bs).length < 512 * (K' + 1)) ∧
    ∃ m, 512 * m ≤ (data ++ bs).length ∧
      tfp'.packets = wrqPkt filename :: dataPkts (data ++ bs) m := by
  induction waits generalizing data K bs tfp with
  | nil =>
    rcases writeLoop_cases h hlt hrun with
      ⟨-, hw, hlt', -⟩ | ⟨bs₁, bs₂, tfp₁, rfl, hw, hfull, -, hr, rfl⟩
    · exact ⟨fun _ => ⟨K, hw, hlt'⟩, K, hw.le, hw.packets_eq⟩
    · have hle := hw.le
      rw [← List.append_assoc]
      refine ⟨fun hok => ?_, K, ?_, ?_⟩
      · rw [hr] at hok
        cases hok
      · rw [List.length_append]
        omega
      · rw [dataPkts_append hle]
        exact hw.packets_eq
  | cons wait rest ih =>
    rcases writeLoop_cases h hlt hrun with
      ⟨-, hw, hlt', -⟩ | ⟨bs₁, bs₂, tfp₁, rfl, hw, hfull, -, hmatch⟩
    · exact ⟨fun _ => ⟨K, hw, hlt'⟩, K, hw.le, hw.packets_eq⟩
    · have hsame := sendData_sameFile tfp₁.stop.toNat wait tfp₁
      have hsent := hw.sendData_packets wait
      have hlen : (data ++ bs₁ ++ bs₂).length = 512 * (K + 1) + bs₂.length := by
        rw [List.length_append, hfull]
      rw [← List.append_assoc]
      -- the packets of a call that goes no further
      have hstop : ∀ tfp₂, (sendData tfp₁.stop.toNat wait tfp₁).2 = tfp₂ →
          ∃ m, 512 * m ≤ (data ++ bs₁ ++ bs₂).length ∧
            tfp₂.packets = wrqPkt filename :: dataPkts (data ++ bs₁ ++ bs₂) m := by
        rintro _ rfl
        rcases hsent with hnew | ⟨hold, -⟩
        · have hle : 512 * (K + 1) ≤ (data ++ bs₁).length := by omega
          exact ⟨K + 1, by omega, by rw [hnew, dataPkts_append hle]⟩
        · exact ⟨K, by omega, by rw [hold, dataPkts_append hw.le]⟩
      dsimp only at hmatch
      split at hmatch
      · rename_i heq
        obtain ⟨rfl, rfl⟩ := hmatch
        exact ⟨nofun, hstop _ (by rw [heq])⟩
      · rename_i heq
        obtain ⟨rfl, rfl⟩ := hmatch
        exact ⟨nofun, hstop _ (by rw [heq])⟩
      · rename_i heq
        rw [heq] at hsame hsent
        have hpkts := hsent.resolve_right fun hold => by simp at hold
        exact ih (hw.next hfull hsame hpkts) (by omega) hmatch

/-- **In step, a write does not fail.** -/
theorem writeLoop_inStep {r : Option (Except Failure Unit)} (h : Writing filename data K tfp)
    (hlt : data.length < 512 * (K + 1)) (hport : tfp.port = port)
    (hs : Along (AckInStep port) (K + 1) (waits.map Wait.turns))
    (hrun : writeLoop waits bs tfp = (r, tfp')) :
    (∀ e, r ≠ some (.error e)) ∧ (r = some (.ok ()) → tfp'.port = port) := by
  induction waits generalizing data K bs tfp with
  | nil =>
    rcases writeLoop_cases h hlt hrun with
      ⟨rfl, -, -, hport'⟩ | ⟨bs₁, bs₂, tfp₁, rfl, -, -, -, rfl, rfl⟩
    · exact ⟨nofun, fun _ => hport'.trans hport⟩
    · exact ⟨nofun, nofun⟩
  | cons wait rest ih =>
    rcases writeLoop_cases h hlt hrun with
      ⟨rfl, -, -, hport'⟩ | ⟨bs₁, bs₂, tfp₁, rfl, hw, hfull, hport₁, hmatch⟩
    · exact ⟨nofun, fun _ => hport'.trans hport⟩
    · have hblock : (nextData tfp₁).block = (K + 1) % 65536 := by
        change (tfp₁.block + 1) % 65536 = _
        rw [hw.block_eq]
        omega
      obtain ⟨hres, hport₂⟩ := wrqLoop_inStep
        ((nextData tfp₁).buf.slice 0 (tfp₁.stop.toNat + 4)) tfp₁.stop.toNat wait.ackbuf hblock
        (hport₁.trans hport) hs.1
      rw [← tftpwrq, ← sendData] at hres hport₂
      have hsame := sendData_sameFile tfp₁.stop.toNat wait tfp₁
      have hsent := hw.sendData_packets wait
      dsimp only at hmatch
      split at hmatch
      · rename_i heq
        obtain ⟨rfl, rfl⟩ := hmatch
        exact ⟨nofun, nofun⟩
      · rename_i heq
        rw [heq] at hres
        simp at hres
      · rename_i heq
        rw [heq] at hsame hsent hport₂
        have hpkts := hsent.resolve_right fun hold => by simp at hold
        exact ih (hw.next hfull hsame hpkts) (by omega) hport₂ hs.2 hmatch

/-! ## §5 Runs -/

/-- Data packets with these payloads, numbered from 1. -/
def numbered (payloads : List (List UInt8)) : List (List UInt8) :=
  payloads.mapIdx fun i payload => htons opDATA ++ htons (i + 1) ++ payload

theorem numbered_blocks (data : List UInt8) (m : ℕ) :
    numbered ((List.range m).map fun i => blockOf data (i + 1)) = dataPkts data m := by
  refine List.ext_getElem (by simp [numbered, dataPkts]) fun i _ _ => ?_
  simp [numbered, dataPkts, dataPkt]

/-- The full blocks. -/
theorem length_of_mem_blocks {payload : List UInt8} (hm : 512 * m ≤ data.length)
    (hmem : payload ∈ (List.range m).map fun i => blockOf data (i + 1)) :
    payload.length = 512 := by
  obtain ⟨i, hi, rfl⟩ := List.mem_map.mp hmem
  have hlt : i < m := List.mem_range.mp hi
  rw [blockOf, length_clip]
  omega

/-- A file opened for writing, with datagrams from the server's port only. -/
theorem tftpopenWrite_writing {service : ℕ}
    (hs : ∀ turn ∈ wait.turns, ∀ sinPort bytes, turn.event = .datagram sinPort bytes →
      sinPort = port)
    (hopen : tftpopenWrite service filename wait = some (.ok tfp)) :
    Writing filename [] 0 tfp ∧ tfp.port = port := by
  rw [tftpopenWrite] at hopen
  split at hopen
  · cases hopen
  · cases hopen
  · rename_i heq
    cases hopen
    have hport := wrqLoop_port hs heq
    have hsame := wrqLoop_sameFile (wrqPkt filename) ((wrqPkt filename).length - 4) wait.turns
      (newWriter service) wait.ackbuf
    have hempty : (newWriter service).packets = [] := rfl
    have hne : ([] : List (List UInt8)).getLast? ≠ some (wrqPkt filename) := by simp
    have hsent := wrqLoop_new hempty hne ((wrqPkt filename).length - 4) wait.turns wait.ackbuf
    change wrqLoop (wrqPkt filename) ((wrqPkt filename).length - 4) _ _ _ = _ at heq
    rw [heq] at hsame hsent
    have hpkts := hsent.resolve_right fun hold => by simp at hold
    obtain ⟨port', sent', rfl⟩ := hsame
    exact ⟨⟨rfl, rfl, Nat.le_refl 0, by simp, rfl, trivial, hpkts⟩, hport⟩

/-- A call of `tftpwrite` that returned. -/
structure WriteCall where
  bs : List UInt8
  waits : List Wait
  result : Except Failure Unit

def WriteStep (tfp : Tftpfile) (l : WriteCall) (tfp' : Tftpfile) : Prop :=
  tftpwrite tfp l.bs l.waits = (some l.result, tfp')

/-- The turns of the packets of a call are in step; the first is the one behind those sent. -/
def InStepFrom (port : ℕ) (tfp : Tftpfile) (waits : List Wait) : Prop :=
  Along (AckInStep port) tfp.packets.length (waits.map Wait.turns)

theorem Writing.inStep (h : Writing filename data K tfp) (hs : InStepFrom port tfp waits) :
    Along (AckInStep port) (K + 1) (waits.map Wait.turns) := by
  have hnum : tfp.packets.length = K + 1 := by
    rw [h.packets_eq]
    simp [dataPkts]
  rw [InStepFrom, hnum] at hs
  exact hs

/-- The descriptor after data was written: what is left in the buffer is less than a block. -/
structure Written (filename : CStr) (port : ℕ) (data : List UInt8) (tfp : Tftpfile) : Prop where
  writing : ∃ K, Writing filename data K tfp ∧ data.length < 512 * (K + 1)
  port_eq : tfp.port = port

theorem tftpwrite_eq (h : Written filename port data tfp) :
    tftpwrite tfp bs waits = writeLoop waits bs tfp := by
  obtain ⟨K, hw, -⟩ := h.writing
  rw [tftpwrite, if_neg (by simp [hw.flags_eq])]

/-- **One call in step** does not fail, and when it returns the data is written. -/
theorem tftpwrite_inStep {r : Option (Except Failure Unit)} (h : Written filename port data tfp)
    (hs : InStepFrom port tfp waits) (hrun : tftpwrite tfp bs waits = (r, tfp')) :
    (∀ e, r ≠ some (.error e)) ∧ (r = some (.ok ()) → Written filename port (data ++ bs) tfp') ∧
    ∃ m, 512 * m ≤ (data ++ bs).length ∧
      tfp'.packets = wrqPkt filename :: dataPkts (data ++ bs) m := by
  rw [tftpwrite_eq h] at hrun
  obtain ⟨K, hw, hlt⟩ := h.writing
  obtain ⟨herr, hport⟩ := writeLoop_inStep hw hlt h.port_eq (hw.inStep hs) hrun
  obtain ⟨hok, hsent⟩ := writeLoop_writing hw hlt hrun
  exact ⟨herr, fun hr => ⟨hok hr, hport hr⟩, hsent⟩

/-- **Runs of calls in step.** -/
theorem run_written {ls : List WriteCall} (h : Written filename port data tfp)
    (hrun : Run (Guarded WriteStep fun tfp l => InStepFrom port tfp l.waits) tfp ls tfp') :
    (∀ l ∈ ls, l.result = .ok ()) ∧
      Written filename port (data ++ ls.flatMap WriteCall.bs) tfp' := by
  induction hrun generalizing data with
  | nil =>
    rw [List.flatMap_nil, List.append_nil]
    exact ⟨nofun, h⟩
  | cons hl _ ih =>
    rename_i l _ _
    obtain ⟨hne, hnext, -⟩ := tftpwrite_inStep h hl.2 hl.1
    have hok : l.result = .ok () := by
      cases hr : l.result with
      | error e => exact absurd (congrArg some hr) (hne e)
      | ok u => rfl
    obtain ⟨hoks, hw⟩ := ih (hnext (congrArg some hok))
    rw [List.flatMap_cons, ← List.append_assoc]
    exact ⟨List.forall_mem_cons.mpr ⟨hok, hoks⟩, hw⟩

/-- **The close** sends the short block. -/
theorem tftpclose_written {sendOk : Bool} {flush empty : Wait}
    (hw : Writing filename data K tfp) (hlt : data.length < 512 * (K + 1))
    (hsend : ∀ turn ∈ flush.turns, turn.sendOk = true)
    (hclose : tftpclose tfp sendOk flush empty = (some (), tfp')) :
    tfp'.packets = wrqPkt filename :: dataPkts data (K + 1) := by
  have hstop := hw.stop_eq
  have hsame := sendData_sameFile tfp.stop.toNat flush tfp
  have hsent := hw.sendData_packets flush
  rw [tftpclose, if_pos hw.flags_eq, closeWrite] at hclose
  split at hclose
  · cases hclose
  · rename_i heq
    cases hclose
    rw [heq] at hsent
    rcases hsent with hnew | ⟨-, hnone | ⟨-, turn, hmem, hfail⟩⟩
    · exact hnew
    · cases hnone
    · rw [hsend turn hmem] at hfail
      cases hfail
  · rename_i tfp₁ heq
    rw [heq] at hsame hsent
    have hpkts := hsent.resolve_right fun hold => by simp at hold
    have hshort : tfp₁.stop ≠ segsize := by
      rw [hsame.fields.2.2.1, segsize]
      change tfp.stop ≠ _
      omega
    rw [if_neg hshort] at hclose
    cases hclose
    exact hpkts

/-- **Writing over TFTP.**  While each acknowledgement that comes in during a write is the
    awaited one or the one before it, the latter not where the awaited number wraps to 0, no
    write fails and the packets sent are full blocks of the data, numbered from 1.  After the
    close, whatever is acknowledged then, they are all of the data, and the last one is the
    short one. -/
theorem writes_exact (port service : ℕ) (filename : CStr) (wait : Wait)
    (hserver : ∀ turn ∈ wait.turns, ∀ sinPort bytes, turn.event = .datagram sinPort bytes →
      sinPort = port)
    (tfp : Tftpfile) (hopen : tftpopenWrite service filename wait = some (.ok tfp))
    (ls : List WriteCall) (tfp₁ : Tftpfile)
    (hrun : Run (Guarded WriteStep fun tfp l => InStepFrom port tfp l.waits) tfp ls tfp₁) :
    (∀ l ∈ ls, l.result = .ok ()) ∧
    (∀ bs waits, InStepFrom port tfp₁ waits →
      (∀ e, (tftpwrite tfp₁ bs waits).1 ≠ some (.error e)) ∧
      ∃ full, (∀ payload ∈ full, payload.length = 512) ∧
        full.flatten <+: ls.flatMap WriteCall.bs ++ bs ∧
        (tftpwrite tfp₁ bs waits).2.packets = wrqPkt filename :: numbered full) ∧
    ∀ sendOk flush empty tfp₂, (∀ turn ∈ flush.turns, turn.sendOk = true) →
      tftpclose tfp₁ sendOk flush empty = (some (), tfp₂) →
      ∃ full last, (∀ payload ∈ full, payload.length = 512) ∧ last.length < 512 ∧
        full.flatten ++ last = ls.flatMap WriteCall.bs ∧
        tfp₂.packets = wrqPkt filename :: numbered (full ++ [last]) := by
  obtain ⟨hopened, hport⟩ := tftpopenWrite_writing hserver hopen
  obtain ⟨hoks, hw⟩ := run_written ⟨⟨0, hopened, by simp⟩, hport⟩ hrun
  rw [List.nil_append] at hw
  refine ⟨hoks, fun bs waits hs => ?_, fun sendOk flush empty tfp₂ hsend hclose => ?_⟩
  · obtain ⟨hne, -, m, hm, hpkts⟩ := tftpwrite_inStep hw hs rfl
    refine ⟨hne, _, fun _ => length_of_mem_blocks hm, ?_, by rw [numbered_blocks]; exact hpkts⟩
    rw [flatten_blocks]
    exact List.take_prefix _ _
  · obtain ⟨K, hwriting, hlt⟩ := hw.writing
    refine ⟨_, blockOf (ls.flatMap WriteCall.bs) (K + 1),
      fun _ => length_of_mem_blocks hwriting.le, ?_, ?_, ?_⟩
    · rw [blockOf, length_clip]
      omega
    · rw [flatten_blocks, blockOf, Nat.add_sub_cancel]
      have hsplit : clip (ls.flatMap WriteCall.bs) 0 (512 * K + 512) =
          clip (ls.flatMap WriteCall.bs) 0 (512 * K) ++
            clip (ls.flatMap WriteCall.bs) (0 + 512 * K) 512 := clip_add
      rw [Nat.zero_add] at hsplit
      rw [← hsplit, clip, List.drop_zero]
      exact List.take_of_length_le (by omega)
    · have hnum : numbered (((List.range K).map fun i =>
          blockOf (ls.flatMap WriteCall.bs) (i + 1)) ++
            [blockOf (ls.flatMap WriteCall.bs) (K + 1)]) =
          dataPkts (ls.flatMap WriteCall.bs) (K + 1) := by
        rw [← numbered_blocks, List.range_succ, List.map_append]
        rfl
      rw [hnum]
      exact tftpclose_written hwriting hlt hsend hclose

/-! ## §6 A block that is sent twice -/

/-- The request goes out and the acknowledgement of block `j` comes in. -/
def ackTurn (port j : ℕ) : Turn := ⟨true, .datagram port (ack j)⟩

/-- A call with one turn. -/
def ackWait (port j : ℕ) : Wait := ⟨fun _ => 0, [ackTurn port j]⟩

theorem wrqLoop_singleton :
    wrqLoop req size [turn] tfp ackbuf =
      ((wrqTurn req size turn tfp ackbuf).1, (wrqTurn req size turn tfp ackbuf).2.1) := by
  rw [wrqLoop]
  rcases wrqTurn req size turn tfp ackbuf with ⟨_ | r, tfp', ackbuf'⟩ <;> rfl

theorem wrqLoop_ackTurn {j : ℕ} (hport : tfp.block ≠ 0 → tfp.port = port) :
    wrqLoop req size [ackTurn port j] tfp ackbuf =
      (if j % 65536 = tfp.block then some (.ok size)
        else if ((j % 65536 : ℕ) : ℤ) ≠ tfp.block - 1 then some (.error .outOfStep) else none,
        { tfp.sendto req with port }) := by
  have hev : (ackTurn port j).event = .datagram port (ack j) := rfl
  obtain ⟨ackbuf', hturn⟩ := wrqTurn_ack req size ackbuf hport rfl hev
  rw [wrqLoop_singleton, hturn]

/-- **A block that is answered at once.** -/
theorem sendData_ackWait {j : ℕ} (hblock : tfp.block = k % 65536) (hport : tfp.port = port)
    (hbuf : tfp.buf.Holds 4 bs) (hpkts : tfp.packets = pkts)
    (hne : pkts.getLast? ≠ some (htons opDATA ++ htons (k + 1) ++ bs)) :
    ∃ tfp', sendData bs.length (ackWait port j) tfp =
        (if j % 65536 = (k + 1) % 65536 then some (.ok bs.length)
          else if ((j % 65536 : ℕ) : ℤ) ≠ ((k + 1) % 65536 : ℕ) - 1 then some (.error .outOfStep)
          else none, tfp') ∧
      SameFile (nextData tfp) tfp' ∧ tfp'.port = port ∧
      tfp'.packets = pkts ++ [htons opDATA ++ htons (k + 1) ++ bs] := by
  have hnext : (nextData tfp).block = (k + 1) % 65536 := by
    change (tfp.block + 1) % 65536 = _
    omega
  have hfrom : (nextData tfp).block ≠ 0 → (nextData tfp).port = port := fun _ => hport
  have hbefore : (nextData tfp).packets = pkts := hpkts
  refine ⟨{ (nextData tfp).sendto (htons opDATA ++ htons (k + 1) ++ bs) with port }, ?_,
    ⟨port, _, rfl⟩, rfl, ?_⟩
  · rw [sendData, nextData_request hblock hbuf, tftpwrq, ackWait, wrqLoop_ackTurn hfrom, hnext]
  · exact packets_sendto_new hbefore hne

theorem nextData_holds (h : tfp.buf.Holds 4 bs) : (nextData tfp).buf.Holds 4 bs :=
  (Mem.holds_store_of_disjoint (Or.inr (by simp [htons]))).mpr
    ((Mem.holds_store_of_disjoint (Or.inr (by simp [htons]))).mpr h)

theorem tftpopenWrite_now (service port : ℕ) (filename : CStr) :
    ∃ tfp, tftpopenWrite service filename (ackWait port 0) = some (.ok tfp) ∧
      Writing filename [] 0 tfp ∧ tfp.port = port := by
  have hblock : (newWriter service).block ≠ 0 → (newWriter service).port = port := fun h =>
    absurd rfl h
  have hopen : tftpopenWrite service filename (ackWait port 0) =
      some (.ok { (newWriter service).sendto (wrqPkt filename) with port }) := by
    rw [tftpopenWrite, tftpwrq, ackWait, wrqLoop_ackTurn hblock]
    rfl
  refine ⟨_, hopen, tftpopenWrite_writing ?_ hopen⟩
  rintro turn hmem sinPort bytes hev
  obtain rfl := List.mem_singleton.mp hmem
  cases hev
  rfl

/-- **A full block that is answered by block `j`'s acknowledgement.** -/
theorem writeLoop_ackWait (h : Writing filename data K tfp)
    (hlt : data.length < 512 * (K + 1)) (hport : tfp.port = port)
    (hlong : 512 * (K + 1) ≤ (data ++ bs).length) (j : ℕ) (rest : List Wait) :
    ∃ bs₁ bs₂ tfp₁ tfp₂, bs = bs₁ ++ bs₂ ∧ Writing filename (data ++ bs₁) K tfp₁ ∧
      (data ++ bs₁).length = 512 * (K + 1) ∧ SameFile (nextData tfp₁) tfp₂ ∧ tfp₂.port = port ∧
      tfp₂.packets = wrqPkt filename :: dataPkts (data ++ bs₁) (K + 1) ∧
      (j % 65536 = (K + 1) % 65536 →
        writeLoop (ackWait port j :: rest) bs tfp =
          writeLoop rest bs₂ { tfp₂ with stop := 0 }) ∧
      (((j % 65536 : ℕ) : ℤ) < ((K + 1) % 65536 : ℕ) - 1 →
        writeLoop (ackWait port j :: rest) bs tfp = (some (.error .outOfStep), tfp₂)) := by
  obtain ⟨r, hrun⟩ : ∃ r, writeLoop (ackWait port j :: rest) bs tfp = r := ⟨_, rfl⟩
  rcases writeLoop_cases h hlt hrun with
    ⟨-, -, hlt', -⟩ | ⟨bs₁, bs₂, tfp₁, rfl, hw, hfull, hport₁, hmatch⟩
  · omega
  · have hlen : ((data ++ bs₁).drop (512 * K)).length = tfp₁.stop.toNat := by
      rw [hw.stop_eq, Int.toNat_natCast, List.length_drop]
    have hne : (wrqPkt filename :: dataPkts (data ++ bs₁) K).getLast? ≠
        some (dataPkt (data ++ bs₁) (K + 1)) := getLast?_dataPkts_ne
    rw [dataPkt, hw.block] at hne
    obtain ⟨tfp₂, hsend, hsame, hport₂, hpkts⟩ := sendData_ackWait (j := j) hw.block_eq
      (hport₁.trans hport) hw.holds hw.packets_eq hne
    rw [hlen] at hsend
    refine ⟨bs₁, bs₂, tfp₁, tfp₂, rfl, hw, hfull, hsame, hport₂, ?_, fun hj => ?_, fun hj => ?_⟩
    · rw [hpkts, dataPkts_succ, dataPkt, hw.block, List.cons_append]
    · rw [if_pos hj] at hsend
      simp only [hsend] at hmatch
      exact hrun.trans hmatch.symm
    · rw [if_neg (by omega), if_pos (by omega)] at hsend
      simp only [hsend] at hmatch
      exact hrun.trans (Prod.ext hmatch.1 hmatch.2)

/-- A write that does not fill the buffer. -/
theorem writeLoop_short (bs : List UInt8) (h : Writing filename data K tfp)
    (hlt : (data ++ bs).length < 512 * (K + 1)) (waits : List Wait) :
    ∃ tfp', writeLoop waits bs tfp = (some (.ok ()), tfp') ∧ Writing filename (data ++ bs) K tfp' ∧
      tfp'.port = tfp.port := by
  obtain ⟨r, hrun⟩ : ∃ r, writeLoop waits bs tfp = r := ⟨_, rfl⟩
  have hlen : (data ++ bs).length = data.length + bs.length := List.length_append
  rcases writeLoop_cases h (by omega) hrun with
    ⟨hr, hw, -, hport⟩ | ⟨bs₁, bs₂, tfp₁, rfl, -, hfull, -⟩
  · exact ⟨r.2, hrun.trans (Prod.ext hr rfl), hw, hport⟩
  · have hmore : (bs₁ ++ bs₂).length = bs₁.length + bs₂.length := List.length_append
    rw [List.length_append] at hfull
    omega

/-- **A late acknowledgement ends the write**: the number has moved, the block is still in the
    buffer. -/
theorem tftpwrite_outOfStep (h : Writing filename [] 0 tfp) (hport : tfp.port = port)
    (hdata : data.length = 1024) :
    ∃ tfp', tftpwrite tfp data [ackWait port 1, ackWait port 0] =
        (some (.error .outOfStep), tfp') ∧
      tfp'.flags = .wronly ∧ tfp'.block = 2 ∧ tfp'.stop = 512 ∧ tfp'.port = port ∧
      tfp'.buf.Holds 4 (blockOf data 2) ∧
      tfp'.packets = wrqPkt filename :: dataPkts data 2 := by
  have hlong : 512 * (0 + 1) ≤ ([] ++ data).length := by
    rw [List.nil_append]
    omega
  obtain ⟨bs₁, bs₂, tfp₁, tfp₂, rfl, hw₁, hfull₁, hsame₁, hport₁, hpkts₁, hok, -⟩ :=
    writeLoop_ackWait h (by simp) hport hlong 1 [ackWait port 0]
  rw [List.nil_append] at hw₁ hfull₁ hpkts₁
  have hw₂ := hw₁.next hfull₁ hsame₁ hpkts₁
  rw [List.length_append] at hdata
  have hlong₂ : 512 * (1 + 1) ≤ (bs₁ ++ bs₂).length := by
    rw [List.length_append]
    omega
  obtain ⟨bs₃, bs₄, tfp₃, tfp₄, rfl, hw₃, hfull₃, hsame₃, hport₃, hpkts₃, -, herr⟩ :=
    writeLoop_ackWait hw₂ (by omega) hport₁ hlong₂ 0 []
  rw [List.length_append] at hdata hfull₃
  obtain rfl : bs₄ = [] := List.eq_nil_of_length_eq_zero (by omega)
  rw [List.append_nil] at hok herr ⊢
  obtain ⟨hflags, hblock, hstop, hbuf⟩ := hsame₃.fields
  refine ⟨tfp₄, ?_, hflags.trans hw₃.flags_eq, hblock.trans ?_, hstop.trans ?_, hport₃, ?_,
    hpkts₃⟩
  · rw [tftpwrite, if_neg (by simp [h.flags_eq]), ← herr (by omega), ← hok rfl]
  · change (tfp₃.block + 1) % 65536 = 2
    rw [hw₃.block_eq]
  · change tfp₃.stop = 512
    rw [hw₃.stop_eq, List.length_append]
    omega
  · rw [hbuf, hw₃.block]
    exact nextData_holds hw₃.holds

/-- **The close** of such a file sends the buffer once more, and an empty block behind it. -/
theorem tftpclose_again (data : List UInt8) (sendOk : Bool) (hflags : tfp.flags = .wronly) (hblock : tfp.block = 2)
    (hstop : tfp.stop = 512) (hport : tfp.port = port) (hbuf : tfp.buf.Holds 4 (blockOf data 2))
    (hpkts : tfp.packets = wrqPkt filename :: dataPkts data 2)
    (hdata : data.length = 1024) :
    ∃ tfp', tftpclose tfp sendOk (ackWait port 3) (ackWait port 4) = (some (), tfp') ∧
      tfp'.packets = wrqPkt filename ::
        numbered [blockOf data 1, blockOf data 2, blockOf data 2, []] := by
  have hlen : (blockOf data 2).length = 512 := by
    rw [blockOf, length_clip]
    omega
  have hne : (wrqPkt filename :: dataPkts data 2).getLast? ≠
      some (htons opDATA ++ htons (2 + 1) ++ blockOf data 2) := by
    rw [dataPkts_succ, ← List.cons_append, List.getLast?_concat]
    exact fun heq => packet_ne_succ (Option.some.inj heq)
  obtain ⟨tfp₁, hsend₁, hsame, hport₁, hpkts₁⟩ :=
    sendData_ackWait (k := 2) (j := 3) hblock hport hbuf hpkts hne
  have hne₂ : (wrqPkt filename :: dataPkts data 2 ++
      [htons opDATA ++ htons (2 + 1) ++ blockOf data 2]).getLast? ≠
      some (htons opDATA ++ htons (3 + 1) ++ []) := by
    rw [List.getLast?_concat]
    exact fun heq => packet_ne_succ (Option.some.inj heq)
  have hblock₁ : tfp₁.block = 3 % 65536 := by
    rw [hsame.fields.2.1]
    change (tfp.block + 1) % 65536 = _
    rw [hblock]
  obtain ⟨tfp₂, hsend₂, -, -, hpkts₂⟩ :=
    sendData_ackWait (k := 3) (j := 4) hblock₁ hport₁ Mem.holds_nil hpkts₁ hne₂
  rw [hlen, if_pos rfl] at hsend₁
  rw [List.length_nil, if_pos rfl] at hsend₂
  refine ⟨tfp₂, ?_, hpkts₂⟩
  have hstop₁ : tfp₁.stop = segsize := hsame.fields.2.2.1.trans hstop
  have hnat : tfp.stop.toNat = 512 := by omega
  rw [tftpclose, if_pos hflags, closeWrite, hnat, hsend₁]
  dsimp only
  rw [if_pos hstop₁, hsend₂]

theorem length_flatten_full {full : List (List UInt8)}
    (h : ∀ payload ∈ full, payload.length = 512) : full.flatten.length = 512 * full.length := by
  induction full with
  | nil => rfl
  | cons payload full ih =>
    rw [List.forall_mem_cons] at h
    rw [List.flatten_cons, List.length_append, h.1, ih h.2, List.length_cons]
    omega

/-- No stream of 1024 bytes is carried by four packets, three of them full. -/
theorem not_carried {pkt : List UInt8} {payloads : List (List UInt8)}
    (hlen : payloads.length = 4) (hdata : data.length = 1024) :
    ¬∃ full last, (∀ payload ∈ full, payload.length = 512) ∧ last.length < 512 ∧
      full.flatten ++ last = data ∧ pkt :: numbered payloads = pkt :: numbered (full ++ [last]) := by
  rintro ⟨full, last, hfull, -, rfl, heq⟩
  have hcount := congrArg List.length heq
  simp only [numbered, List.length_cons, List.length_mapIdx, List.length_append, List.length_nil,
    hlen] at hcount
  have hbytes := length_flatten_full hfull
  rw [List.length_append] at hdata
  omega

/-- Two blocks of different bytes. -/
def twoBlocks : List UInt8 := List.replicate 512 1 ++ List.replicate 512 2

/-- A file of two blocks, written in one call.  While the second is sent, the acknowledgement of
    the request comes in again and the call fails; the close then sends the second block again,
    under number 3, and an empty one behind it. -/
theorem write_sends_twice :
    ∃ tfp₀ tfp₁ tfp₂,
      tftpopenWrite 69 (ascii "f") (ackWait 1069 0) = some (.ok tfp₀) ∧
      tftpwrite tfp₀ twoBlocks [ackWait 1069 1, ackWait 1069 0] =
        (some (.error .outOfStep), tfp₁) ∧
      tftpclose tfp₁ true (ackWait 1069 3) (ackWait 1069 4) = (some (), tfp₂) ∧
      tfp₂.packets = wrqPkt (ascii "f") ::
        numbered [blockOf twoBlocks 1, blockOf twoBlocks 2, blockOf twoBlocks 2, []] ∧
      ¬∃ full last, (∀ payload ∈ full, payload.length = 512) ∧ last.length < 512 ∧
        full.flatten ++ last = twoBlocks ∧
        tfp₂.packets = wrqPkt (ascii "f") :: numbered (full ++ [last]) := by
  have hdata : twoBlocks.length = 1024 := by
    rw [twoBlocks, List.length_append, List.length_replicate, List.length_replicate]
  generalize twoBlocks = data at hdata ⊢
  obtain ⟨tfp₀, hopen, hw, hport⟩ := tftpopenWrite_now 69 1069 (ascii "f")
  obtain ⟨tfp₁, hwrite, hflags, hblock, hstop, hport₁, hbuf, hpkts₁⟩ :=
    tftpwrite_outOfStep hw hport hdata
  obtain ⟨tfp₂, hclose, hpkts₂⟩ :=
    tftpclose_again data true hflags hblock hstop hport₁ hbuf hpkts₁ hdata
  refine ⟨tfp₀, tfp₁, tfp₂, hopen, hwrite, hclose, hpkts₂, ?_⟩
  rw [hpkts₂]
  exact not_carried rfl hdata

/-- Three bytes, written in two calls and sent at the close. -/
theorem writes_exact_short :
    ∃ tfp tfp₁ tfp₂ tfp₃,
      tftpopenWrite 69 (ascii "f") (ackWait 1069 0) = some (.ok tfp) ∧
      tftpwrite tfp [1, 2] [] = (some (.ok ()), tfp₁) ∧
      tftpwrite tfp₁ [3] [] = (some (.ok ()), tfp₂) ∧
      tftpclose tfp₂ true (ackWait 1069 1) (ackWait 1069 2) = (some (), tfp₃) ∧
      ∃ full last, (∀ payload ∈ full, payload.length = 512) ∧ last.length < 512 ∧
        full.flatten ++ last = [1, 2, 3] ∧
        tfp₃.packets = wrqPkt (ascii "f") :: numbered (full ++ [last]) := by
  obtain ⟨tfp, hopen, hw, hport⟩ := tftpopenWrite_now 69 1069 (ascii "f")
  have hserver : ∀ turn ∈ (ackWait 1069 0).turns, ∀ sinPort bytes,
      turn.event = .datagram sinPort bytes → sinPort = 1069 := by
    rintro turn hmem sinPort bytes hev
    obtain rfl := List.mem_singleton.mp hmem
    cases hev
    rfl
  obtain ⟨tfp₁, hwrite₁, hw₁, hport₁⟩ := writeLoop_short [1, 2] hw (by decide) []
  obtain ⟨tfp₂, hwrite₂, hw₂, hport₂⟩ := writeLoop_short [3] hw₁ (by decide) []
  rw [List.nil_append] at hw₁ hw₂
  rw [← tftpwrite_eq ⟨⟨0, hw, by decide⟩, hport⟩] at hwrite₁
  rw [← tftpwrite_eq ⟨⟨0, hw₁, by decide⟩, hport₁.trans hport⟩] at hwrite₂
  have hstop : tfp₂.stop = 3 := hw₂.stop_eq
  have hnat : tfp₂.stop.toNat = 3 := by omega
  have hne : (wrqPkt (ascii "f") :: dataPkts [1, 2, 3] 0).getLast? ≠
      some (dataPkt [1, 2, 3] (0 + 1)) := getLast?_dataPkts_ne
  obtain ⟨tfp₃, hsend, hsame, -, -⟩ := sendData_ackWait (k := 0) (j := 1) hw₂.block_eq
    (hport₂.trans (hport₁.trans hport)) hw₂.holds hw₂.packets_eq hne
  have hlast : tfp₃.stop ≠ segsize := by
    rw [hsame.fields.2.2.1]
    change tfp₂.stop ≠ _
    rw [hstop]
    decide
  have hclose : tftpclose tfp₂ true (ackWait 1069 1) (ackWait 1069 2) = (some (), tfp₃) := by
    rw [tftpclose, if_pos hw₂.flags_eq, closeWrite, hnat]
    change sendData 3 (ackWait 1069 1) tfp₂ = (some (.ok 3), tfp₃) at hsend
    rw [hsend]
    dsimp only
    rw [if_neg hlast]
  have hrun : Run (Guarded WriteStep fun tfp l => InStepFrom 1069 tfp l.waits) tfp
      [⟨[1, 2], [], .ok ()⟩, ⟨[3], [], .ok ()⟩] tfp₂ :=
    .cons ⟨hwrite₁, trivial⟩ (.cons ⟨hwrite₂, trivial⟩ (.nil _))
  have hsends : ∀ turn ∈ (ackWait 1069 1).turns, turn.sendOk = true := by
    rintro turn hmem
    obtain rfl := List.mem_singleton.mp hmem
    rfl
  exact ⟨tfp, tfp₁, tfp₂, tfp₃, hopen, hwrite₁, hwrite₂, hclose,
    (writes_exact 1069 69 (ascii "f") _ hserver tfp hopen _ tfp₂ hrun).2.2 _ _ _ tfp₃ hsends
      hclose⟩

end Pmon.Netio
