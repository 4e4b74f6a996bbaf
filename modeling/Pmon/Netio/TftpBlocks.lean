import Pmon.Lib.SeqFile
import Pmon.Netio.Tftp

/-!
# Waiting for a block

The server has a file and sends it in blocks of 512 bytes, the last one shorter; it sends a
block when the one before it is acknowledged, so while the client waits for block `k` it has
sent the blocks up to `k`.  Its datagrams may be lost, come twice or late.

## Key results

- `rrqTurn_data`: what a turn does with a data packet, whatever its number.
- `tftprrq_served`: what the client takes for block `k` is block `k`.
- `tftprrq_inStep`: the call does not fail while only the awaited block and the one before it
  come in.
-/

namespace Pmon.Netio

open Pmon.Lib Pmon.Libc

variable {file : List UInt8} {port k n : ℕ} {tfp tfp' : Tftpfile} {turn : Turn}
  {turns : List Turn} {req : List UInt8}

/-! ## §1 The server's datagrams -/

/-- Block `k` of a file, counted from 1. -/
def blockOf (file : List UInt8) (k : ℕ) : List UInt8 := clip file (512 * (k - 1)) 512

/-- The number of blocks: the last one is shorter than 512 bytes. -/
def blocks (file : List UInt8) : ℕ := file.length / 512 + 1

/-- The datagram with block `k`. -/
def dataPkt (file : List UInt8) (k : ℕ) : List UInt8 :=
  htons opDATA ++ htons k ++ blockOf file k

theorem length_dataPkt : (dataPkt file k).length = (blockOf file k).length + 4 := by
  simp [dataPkt, htons, opDATA]

theorem length_blockOf_le : (blockOf file k).length ≤ 512 := by
  rw [blockOf, length_clip]
  exact Nat.min_le_left _ _

/-- A block is short exactly when it is the last one. -/
theorem length_blockOf_lt_iff (hk : 1 ≤ k) (hlast : k ≤ blocks file) :
    (blockOf file k).length < 512 ↔ k = blocks file := by
  rw [blocks] at hlast ⊢
  rw [blockOf, length_clip]
  omega

/-- The two bytes of a network-order word, swapped in place, are the word. -/
theorem ushort_ntohs {m : Mem} {a v : ℕ} (h : m.Holds a (htons v)) :
    ushort (ntohs m a) a = v % 65536 := by
  have h0 : m a = UInt8.ofNat (v / 256) := h.1
  have h1 : m (a + 1) = UInt8.ofNat v := h.2.1
  have hlo : ntohs m a a = UInt8.ofNat v := by
    rw [ntohs, Mem.put_of_ne (by omega), Mem.put_self, h1]
  have hhi : ntohs m a (a + 1) = UInt8.ofNat (v / 256) := by rw [ntohs, Mem.put_self, h0]
  rw [ushort, hlo, hhi, UInt8.toNat_ofNat', UInt8.toNat_ofNat']
  omega

theorem ntohs_of_not_mem {m : Mem} {a i : ℕ} (h : i < a ∨ a + 2 ≤ i) : ntohs m a i = m i := by
  rw [ntohs, Mem.put_of_ne (by omega), Mem.put_of_ne (by omega)]

theorem holds_ntohs {m : Mem} {a b : ℕ} {bs : List UInt8} (h : b + bs.length ≤ a ∨ a + 2 ≤ b) :
    (ntohs m a).Holds b bs ↔ m.Holds b bs :=
  Mem.holds_congr fun i _ _ => ntohs_of_not_mem (by omega)

/-- **A packet in a buffer**: operation, block number and data. -/
theorem buffered_packet (m : Mem) (op k : ℕ) {data : List UInt8} (hlen : data.length ≤ 512) :
    let m' := ntohs (ntohs (m.store 0 ((htons op ++ htons k ++ data).take pktsize)) 0) 2
    ushort m' 0 = op % 65536 ∧ ushort m' 2 = k % 65536 ∧ m'.Holds 4 data := by
  have hle : (htons op ++ htons k ++ data).length ≤ pktsize := by
    simp only [htons, List.length_append, List.length_cons, List.length_nil, pktsize, segsize]
    omega
  have hall := Mem.holds_store m 0 (htons op ++ htons k ++ data)
  rw [List.take_of_length_le hle]
  generalize m.store 0 (htons op ++ htons k ++ data) = m at hall ⊢
  rw [Mem.holds_append, Mem.holds_append] at hall
  obtain ⟨⟨hop, hblock⟩, hdata⟩ := hall
  have hfirst : ∀ m : Mem, ushort (ntohs m 2) 0 = ushort m 0 := fun m => by
    rw [ushort, ushort, ntohs_of_not_mem (by omega), ntohs_of_not_mem (by omega)]
  refine ⟨?_, ?_, ?_⟩
  · rw [hfirst, ushort_ntohs hop]
  · exact ushort_ntohs ((holds_ntohs (Or.inr (by simp))).mpr hblock)
  · exact (holds_ntohs (Or.inr (by omega))).mpr ((holds_ntohs (Or.inr (by omega))).mpr hdata)

/-- A data packet in the buffer. -/
theorem buffered_dataPkt (m : Mem) (file : List UInt8) (k : ℕ) :
    let m' := ntohs (ntohs (m.store 0 ((dataPkt file k).take pktsize)) 0) 2
    ushort m' 0 = opDATA ∧ ushort m' 2 = k % 65536 ∧ m'.Holds 4 (blockOf file k) :=
  buffered_packet m opDATA k length_blockOf_le

/-! ## §2 One turn -/

/-- While block `k` is awaited: what comes in is one of the server's datagrams, at most 65535
    blocks late, or comes from a port that the client does not listen to. -/
def Served (file : List UInt8) (port k : ℕ) (turn : Turn) : Prop :=
  ∀ sinPort bytes, turn.event = .datagram sinPort bytes →
    sinPort ≠ port ∧ 1 < k % 65536 ∨
    sinPort = port ∧ ∃ j, 1 ≤ j ∧ j ≤ k ∧ k < j + 65536 ∧ bytes = dataPkt file j

/-- The client waits for block `k`. -/
structure Awaiting (port k : ℕ) (tfp : Tftpfile) : Prop where
  not_eof : tfp.eof = false
  block_eq : tfp.block = k % 65536
  port_eq : 1 < k → tfp.port = port

/-- Block `k` came in. -/
structure Got (file : List UInt8) (port k : ℕ) (tfp : Tftpfile) : Prop where
  eof_eq : tfp.eof = decide ((blockOf file k).length < 512)
  block_eq : tfp.block = k % 65536
  port_eq : tfp.port = port
  holds : tfp.buf.Holds 4 (blockOf file k)

/-- What only `tftpread` and `tftplseek` change. -/
def Tftpfile.cursor (tfp : Tftpfile) : Accmode × ℤ × ℤ × ℤ :=
  (tfp.flags, tfp.start, tfp.stop, tfp.foffs)

theorem rrqTurn_cursor (req : List UInt8) (turn : Turn) (tfp : Tftpfile) :
    (rrqTurn req turn tfp).2.cursor = tfp.cursor := by
  unfold rrqTurn
  dsimp only
  repeat' split
  all_goals rfl

/-- **A data packet from the server**: the awaited block is taken, the one before it is passed
    over unless the awaited number is 0, any other one ends the call. -/
theorem rrqTurn_data (req : List UInt8) {j : ℕ} (h : Awaiting port k tfp) (hsend : turn.sendOk = true)
    (hev : turn.event = .datagram port (dataPkt file j)) :
    ∃ tfp', tfp'.eof = false ∧ tfp'.block = tfp.block ∧ tfp'.port = port ∧
      tfp'.buf.Holds 4 (blockOf file j) ∧ tfp'.sent = tfp.sent ++ [req] ∧
      rrqTurn req turn tfp =
        if j % 65536 = tfp.block then
          (some (.ok (blockOf file j).length),
            { tfp' with eof := decide ((blockOf file j).length < 512) })
        else if ((j % 65536 : ℕ) : ℤ) ≠ tfp.block - 1 then (some (.error .outOfStep), tfp')
        else (none, tfp') := by
  obtain ⟨hop, hblock, hdata⟩ := buffered_dataPkt (tfp.sendto req).buf file j
  refine ⟨{ tfp.sendto req with
    port := port
    buf := ntohs (ntohs ((tfp.sendto req).buf.store 0 ((dataPkt file j).take pktsize)) 0) 2 },
    h.not_eof, rfl, rfl, hdata, rfl, ?_⟩
  have heof : (tfp.sendto req).eof = false := h.not_eof
  have hport : ¬(1 < (tfp.sendto req).block ∧ port ≠ (tfp.sendto req).port) := fun hp => by
    have hk : 1 < k := by
      have h1 : 1 < k % 65536 := h.block_eq ▸ hp.1
      omega
    exact hp.2 (h.port_eq hk).symm
  have hlen : (min ((dataPkt file j).length : ℤ) (pktsize : ℤ)) - 4 =
      (blockOf file j).length := by
    have hle : (blockOf file j).length ≤ 512 := length_blockOf_le
    rw [length_dataPkt, pktsize, segsize]
    omega
  have hshort : decide (((blockOf file j).length : ℤ) < (segsize : ℤ)) =
      decide ((blockOf file j).length < 512) := decide_eq_decide.mpr (by rw [segsize]; omega)
  rw [rrqTurn, hsend]
  simp only [Bool.not_true, Bool.false_eq_true, if_false, heof, hev, if_neg hport, hop, hblock,
    hlen, hshort]
  rw [if_neg (by decide), if_pos trivial]
  rfl

theorem rrqTurn_other (req : List UInt8) (h : Awaiting port k tfp) (hsend : turn.sendOk = true)
    (hev : turn.event = .timeout ∨
      ∃ sinPort bytes, turn.event = .datagram sinPort bytes ∧ sinPort ≠ port ∧ 1 < k % 65536) :
    (rrqTurn req turn tfp).1 = none ∧ Awaiting port k (rrqTurn req turn tfp).2 := by
  have heof : (tfp.sendto req).eof = false := h.not_eof
  rw [rrqTurn, hsend]
  rcases hev with hev | ⟨sinPort, bytes, hev, hne, hlt⟩
  · simp only [Bool.not_true, Bool.false_eq_true, if_false, heof, hev]
    exact ⟨trivial, h.not_eof, h.block_eq, h.port_eq⟩
  · have hport : 1 < (tfp.sendto req).block ∧ sinPort ≠ (tfp.sendto req).port := by
      have hp : tfp.port = port := h.port_eq (by omega)
      exact ⟨h.block_eq ▸ hlt, hp ▸ hne⟩
    simp only [Bool.not_true, Bool.false_eq_true, if_false, heof, hev, if_pos hport]
    exact ⟨trivial, rfl, h.block_eq, h.port_eq⟩

/-- **One turn with the server's datagrams**: the call fails, or goes on waiting, or the
    awaited block came in. -/
theorem rrqTurn_served (req : List UInt8) (h : Awaiting port k tfp) (hs : Served file port k turn) :
    (∃ e, (rrqTurn req turn tfp).1 = some (.error e)) ∨
    ((rrqTurn req turn tfp).1 = none ∧ Awaiting port k (rrqTurn req turn tfp).2) ∨
    ((rrqTurn req turn tfp).1 = some (.ok (blockOf file k).length) ∧
      Got file port k (rrqTurn req turn tfp).2) := by
  cases hsend : turn.sendOk with
  | false =>
    rw [rrqTurn, hsend]
    exact Or.inl ⟨.network, rfl⟩
  | true =>
    have heof : (tfp.sendto req).eof = false := h.not_eof
    cases hev : turn.event with
    | timeout => exact Or.inr (Or.inl (rrqTurn_other req h hsend (Or.inl hev)))
    | selectFails =>
      rw [rrqTurn, hsend]
      simp only [Bool.not_true, Bool.false_eq_true, if_false, heof, hev]
      exact Or.inl ⟨.network, rfl⟩
    | recvFails =>
      rw [rrqTurn, hsend]
      simp only [Bool.not_true, Bool.false_eq_true, if_false, heof, hev]
      exact Or.inl ⟨.network, rfl⟩
    | datagram sinPort bytes =>
      rcases hs sinPort bytes hev with hforeign | ⟨rfl, j, hj, hjk, hkj, rfl⟩
      · exact Or.inr (Or.inl (rrqTurn_other req h hsend (Or.inr ⟨sinPort, bytes, hev, hforeign⟩)))
      · obtain ⟨tfp', heof', hblock', hport', hdata, -, hturn⟩ := rrqTurn_data req h hsend hev
        rw [hturn, h.block_eq]
        by_cases hsame : j % 65536 = k % 65536
        · have hjk : j = k := by omega
          subst hjk
          rw [if_pos rfl]
          exact Or.inr (Or.inr ⟨rfl, rfl, hblock'.trans h.block_eq, hport', hdata⟩)
        · rw [if_neg hsame]
          split
          · exact Or.inl ⟨.outOfStep, rfl⟩
          · exact Or.inr (Or.inl ⟨rfl, heof', hblock'.trans h.block_eq, fun _ => hport'⟩)

/-! ## §3 Waiting for a block -/

/-- While block `k` is awaited: nothing fails, and of the server's datagrams only the awaited
    block and the one before it come in, the latter not where the awaited number wraps to 0. -/
structure InStep (file : List UInt8) (port k : ℕ) (turn : Turn) : Prop where
  select_ok : turn.event ≠ .selectFails
  recv_ok : turn.event ≠ .recvFails
  datagram : ∀ sinPort bytes, turn.event = .datagram sinPort bytes →
    sinPort ≠ port ∧ 1 < k % 65536 ∨
    sinPort = port ∧ (bytes = dataPkt file k ∨
      2 ≤ k ∧ ¬65536 ∣ k ∧ bytes = dataPkt file (k - 1))

theorem InStep.served (h : InStep file port k turn) (hk : 1 ≤ k) : Served file port k turn := by
  intro sinPort bytes hev
  rcases h.datagram sinPort bytes hev with hforeign | ⟨rfl, rfl | ⟨hk2, -, rfl⟩⟩
  · exact Or.inl hforeign
  · exact Or.inr ⟨rfl, k, hk, Nat.le_refl k, by omega, rfl⟩
  · exact Or.inr ⟨rfl, k - 1, by omega, by omega, by omega, rfl⟩

/-- **A turn in step does not fail.** -/
theorem rrqTurn_inStep (req : List UInt8) (h : Awaiting port k tfp) (hsend : turn.sendOk = true)
    (hs : InStep file port k turn) (e : Failure) :
    (rrqTurn req turn tfp).1 ≠ some (.error e) := by
  cases hev : turn.event with
  | timeout => simp [(rrqTurn_other req h hsend (Or.inl hev)).1]
  | selectFails => exact absurd hev hs.select_ok
  | recvFails => exact absurd hev hs.recv_ok
  | datagram sinPort bytes =>
    rcases hs.datagram sinPort bytes hev with hforeign | ⟨rfl, rfl | ⟨hk2, hk, rfl⟩⟩
    · simp [(rrqTurn_other req h hsend (Or.inr ⟨sinPort, bytes, hev, hforeign⟩)).1]
    · obtain ⟨tfp', -, -, -, -, -, hturn⟩ := rrqTurn_data req h hsend hev
      rw [hturn, h.block_eq, if_pos rfl]
      simp
    · obtain ⟨tfp', -, -, -, -, -, hturn⟩ := rrqTurn_data req h hsend hev
      have hprev : ¬((((k - 1) % 65536 : ℕ) : ℤ) ≠ ((k % 65536 : ℕ) : ℤ) - 1) := by omega
      rw [hturn, h.block_eq, if_neg (by omega), if_neg hprev]
      simp

theorem tftprrq_cursor {r : Except Failure ℤ} (h : tftprrq req turns tfp = some (r, tfp')) :
    tfp'.cursor = tfp.cursor := by
  induction turns generalizing tfp with
  | nil => cases h
  | cons turn turns ih =>
    have hturn := rrqTurn_cursor req turn tfp
    rw [tftprrq] at h
    split at h
    · rename_i heq
      rw [ih h, ← hturn, heq]
    · rename_i heq
      cases h
      rw [← hturn, heq]

/-- **Waiting with the server's datagrams**: what is taken is the awaited block. -/
theorem tftprrq_served {r : ℤ} (h : Awaiting port k tfp)
    (hs : ∀ turn ∈ turns, Served file port k turn)
    (hrun : tftprrq req turns tfp = some (.ok r, tfp')) :
    r = (blockOf file k).length ∧ Got file port k tfp' := by
  induction turns generalizing tfp with
  | nil => cases hrun
  | cons turn turns ih =>
    rw [List.forall_mem_cons] at hs
    have hturn := rrqTurn_served req h hs.1
    rw [tftprrq] at hrun
    split at hrun
    · rename_i heq
      rw [heq] at hturn
      rcases hturn with ⟨e, he⟩ | ⟨-, hwait⟩ | ⟨hok, -⟩
      · cases he
      · exact ih hwait hs.2 hrun
      · cases hok
    · rename_i heq
      cases hrun
      rw [heq] at hturn
      rcases hturn with ⟨e, he⟩ | ⟨hnone, -⟩ | ⟨hok, hgot⟩
      · cases he
      · cases hnone
      · cases hok
        exact ⟨rfl, hgot⟩

theorem tftprrq_inStep {e : Failure} (hk : 1 ≤ k) (h : Awaiting port k tfp)
    (hs : ∀ turn ∈ turns, turn.sendOk = true ∧ InStep file port k turn) :
    tftprrq req turns tfp ≠ some (.error e, tfp') := by
  induction turns generalizing tfp with
  | nil => simp [tftprrq]
  | cons turn turns ih =>
    rw [List.forall_mem_cons] at hs
    have hturn := rrqTurn_served req h (hs.1.2.served hk)
    have hne := rrqTurn_inStep req h hs.1.1 hs.1.2
    rw [tftprrq]
    split
    · rename_i heq
      rw [heq] at hturn
      rcases hturn with ⟨e, he⟩ | ⟨-, hwait⟩ | ⟨hok, -⟩
      · cases he
      · exact ih hwait hs.2
      · cases hok
    · rename_i r _ heq
      intro herr
      cases herr
      exact hne e (by rw [heq])

/-- At the end of the file the acknowledgement is all that is sent. -/
theorem tftprrq_eof (h : tfp.eof = true) :
    tftprrq req (turn :: turns) tfp =
      if turn.sendOk then some (.ok 0, tfp.sendto req) else some (.error .network, tfp) := by
  have heof : (tfp.sendto req).eof = true := h
  rw [tftprrq, rrqTurn]
  cases turn.sendOk with
  | false => rfl
  | true => simp only [Bool.not_true, Bool.false_eq_true, if_false, heof, if_true]

end Pmon.Netio
