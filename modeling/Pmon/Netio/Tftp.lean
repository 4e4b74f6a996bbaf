import Pmon.Lib.Bytes
import Pmon.Lib.Words
import Pmon.Libc.Strings

/-!
# The TFTP client

`pmon/netio/tftplib.c`, as far as files opened for reading go.  A call that waits for a datagram
sends its request anew at each turn of its loop; a `Turn` says whether that went out and what
`select` and `recvfrom` then gave.  The datagrams that `synchnet` throws away are simply not
among the turns.  A function returns `none` where its turns end and it still waits.

The retransmission counter of the source has no effect: it is an `int`, and never above
`0x7fffffff`.
-/

namespace Pmon.Netio

open Pmon.Lib Pmon.Libc

/-! ## §1 Packets -/

/-- `SEGSIZE`. -/
def segsize : ℕ := 512

/-- `PKTSIZE`. -/
def pktsize : ℕ := segsize + 4

/-- A 16-bit word in network order. -/
def htons (n : ℕ) : List UInt8 := [UInt8.ofNat (n / 256), UInt8.ofNat n]

def opRRQ : ℕ := 1

def opDATA : ℕ := 3

def opACK : ℕ := 4

def opERROR : ℕ := 5

/-- `makerequest`. -/
def makerequest (request : ℕ) (name mode : CStr) : List UInt8 :=
  htons request ++ name ++ [0] ++ mode ++ [0]

/-- The acknowledgement of a block. -/
def ack (block : ℕ) : List UInt8 := htons opACK ++ htons block

/-! ## §2 State -/

inductive Errno where
  | eio
  | enoent
  | eacces
  | enospc
  | einval
  | eexist
  | eperm
  | espipe
  deriving DecidableEq

def tftperrmap : List Errno :=
  [.eio, .enoent, .eacces, .enospc, .eio, .einval, .eexist, .eacces]

/-- `flags & O_ACCMODE`. -/
inductive Accmode where
  | rdonly
  | wronly
  deriving DecidableEq

/-- `struct tftpfile`, and a record of what was sent. -/
structure Tftpfile where
  /-- `sin.sin_port`. -/
  port : ℕ
  block : ℕ
  flags : Accmode
  eof : Bool
  start : ℤ
  /-- `end`. -/
  stop : ℤ
  foffs : ℤ
  buf : Mem
  sent : List (List UInt8)

/-- What follows a request that went out. -/
inductive Event where
  | timeout
  | selectFails
  | recvFails
  | datagram (sinPort : ℕ) (bytes : List UInt8)

structure Turn where
  sendOk : Bool
  event : Event

/-- Why a call returns -1. -/
inductive Failure where
  /-- A call into the network code failed. -/
  | network
  /-- The server sent an error. -/
  | server (errno : Errno)
  /-- A block that is neither the awaited one nor the one before it. -/
  | outOfStep
  /-- A datagram too short for a header. -/
  | short
  | errno (errno : Errno)
  deriving DecidableEq

def Tftpfile.sendto (tfp : Tftpfile) (req : List UInt8) : Tftpfile :=
  { tfp with sent := tfp.sent ++ [req] }

/-- The `u_short` at an address, as the little-endian host reads it. -/
def ushort (m : Mem) (a : ℕ) : ℕ := (m a).toNat + 256 * (m (a + 1)).toNat

/-- `p = ntohs(p)` for the `u_short` at an address. -/
def ntohs (m : Mem) (a : ℕ) : Mem := (m.put a (m (a + 1))).put (a + 1) (m a)

/-! ## §3 The read request -/

/-- `tftpnxtblk`. -/
def tftpnxtblk (tfp : Tftpfile) : Tftpfile := { tfp with block := (tfp.block + 1) % 65536 }

/-- One turn of the loop of `tftprrq`: `none` where it goes on. -/
def rrqTurn (req : List UInt8) (turn : Turn) (tfp : Tftpfile) :
    Option (Except Failure ℤ) × Tftpfile :=
  if !turn.sendOk then (some (.error .network), tfp)
  else
    let tfp := tfp.sendto req
    if tfp.eof then (some (.ok 0), tfp)
    else
      match turn.event with
      | .selectFails => (some (.error .network), tfp)
      | .timeout => (none, tfp)
      | .recvFails => (some (.error .network), tfp)
      | .datagram sinPort bytes =>
        let n : ℤ := min bytes.length pktsize
        let tfp := { tfp with buf := tfp.buf.store 0 (bytes.take pktsize) }
        if 1 < tfp.block ∧ sinPort ≠ tfp.port then (none, tfp)
        else
          let tfp := { tfp with port := sinPort, buf := ntohs (ntohs tfp.buf 0) 2 }
          let opcode := ushort tfp.buf 0
          let block := ushort tfp.buf 2
          if opcode = opERROR then
            (some (.error (.server (tftperrmap.getD (block % 8) .eio))), tfp)
          else if opcode = opDATA then
            if block = tfp.block then
              (some (.ok (n - 4)), { tfp with eof := decide (n - 4 < segsize) })
            else if (block : ℤ) ≠ tfp.block - 1 then (some (.error .outOfStep), tfp)
            else (none, tfp)
          else (none, tfp)

/-- `tftprrq`. -/
def tftprrq (req : List UInt8) : List Turn → Tftpfile → Option (Except Failure ℤ × Tftpfile)
  | [], _ => none
  | turn :: turns, tfp =>
    match rrqTurn req turn tfp with
    | (none, tfp) => tftprrq req turns tfp
    | (some r, tfp) => some (r, tfp)

/-! ## §4 Operations -/

/-- `tftpopen` for reading, with the server's address known and the socket bound:
    `port` is the port of the service. -/
def tftpopen (port : ℕ) (filename : CStr) (turns : List Turn) :
    Option (Except Failure Tftpfile) :=
  let tfp : Tftpfile :=
    { port, block := 1, flags := .rdonly, eof := false, start := 0, stop := 0, foffs := 0,
      buf := fun _ => 0, sent := [] }
  match tftprrq (makerequest opRRQ filename (ascii "octet")) turns tfp with
  | none => none
  | some (.error e, _) => some (.error e)
  | some (.ok size, tfp) =>
    if size < 0 then some (.error .short)
    else some (.ok { tfp with stop := wrap32 (tfp.start + size) })

/-- Copy what is in range: the bytes still wanted and the bytes copied so far. -/
def copyOut (nb : ℕ) (tfp : Tftpfile) (out : List UInt8) : ℕ × Tftpfile × List UInt8 :=
  if tfp.start ≤ tfp.foffs ∧ tfp.foffs < tfp.stop then
    let n := min (tfp.stop - tfp.foffs).toNat nb
    (nb - n, { tfp with foffs := tfp.foffs + n },
      out ++ tfp.buf.slice (4 + (tfp.foffs - tfp.start).toNat) n)
  else (nb, tfp, out)

/-- The loop of `tftpread`, with the turns of each refill. -/
def readLoop (schedule : List (List Turn)) (nb : ℕ) (tfp : Tftpfile) (out : List UInt8) :
    Option (Except Failure (List UInt8) × Tftpfile) :=
  if nb = 0 ∨ tfp.stop ≤ tfp.start then some (.ok out, tfp)
  else
    let (nb, tfp, out) := copyOut nb tfp out
    if tfp.foffs < tfp.stop then
      -- either everything is copied, or `foffs` is in front of `start` and the loop spins
      if nb = 0 then some (.ok out, tfp) else none
    else
      match schedule with
      | [] => none
      | turns :: schedule =>
        -- buffer is empty, ack last packet and refill
        match tftprrq (ack tfp.block) turns (tftpnxtblk tfp) with
        | none => none
        | some (.error e, tfp) => some (.error e, tfp)
        | some (.ok n, tfp) =>
          if n < 0 then some (.error .short, tfp)
          else readLoop schedule nb { tfp with start := tfp.stop, stop := wrap32 (tfp.stop + n) } out

/-- `tftpread`. -/
def tftpread (tfp : Tftpfile) (nread : ℕ) (schedule : List (List Turn)) :
    Option (Except Failure (List UInt8) × Tftpfile) :=
  if tfp.flags ≠ .rdonly then some (.error (.errno .eperm), tfp)
  else readLoop schedule nread tfp []

inductive Whence where
  | seekSet
  | seekCur
  | seekEnd
  deriving DecidableEq

/-- Where `tftplseek` is asked to go. -/
def lseekTarget (foffs offs : ℤ) : Whence → Option ℤ
  | .seekSet => some offs
  | .seekCur => some (wrap32 (foffs + offs))
  | .seekEnd => none

/-- `tftplseek`. -/
def tftplseek (tfp : Tftpfile) (offs : ℤ) (how : Whence) : ℤ × Tftpfile :=
  match lseekTarget tfp.foffs offs how with
  | none => (-1, tfp)
  | some noffs =>
    if tfp.flags = .wronly then
      if noffs ≠ tfp.foffs then (-1, tfp) else (tfp.foffs, tfp)
    else if noffs < tfp.start then (-1, tfp)
    else (noffs, { tfp with foffs := noffs })

end Pmon.Netio
