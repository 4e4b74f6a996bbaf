import Pmon.Netio.Tftp

/-!
# The TFTP client, writing

The rest of `pmon/netio/tftplib.c`: a file opened for writing gathers data in its packet buffer,
sends the buffer as a data packet when it is full, and once more when the file is closed.

A call that waits for an acknowledgement may still wait when its turns end; the result is then
`none` and the state is the one it waits in.
-/

namespace Pmon.Netio

open Pmon.Lib Pmon.Libc

/-! ## §1 The write request -/

def opWRQ : ℕ := 2

/-- `EUNDEF`. -/
def eundef : ℕ := 0

/-- One call of `tftpwrq`: what its `ackbuf` holds at the start, and its turns. -/
structure Wait where
  ackbuf : Mem
  turns : List Turn

/-- One turn of the loop of `tftpwrq`: `none` where it goes on. -/
def wrqTurn (req : List UInt8) (size : ℕ) (turn : Turn) (tfp : Tftpfile) (ackbuf : Mem) :
    Option (Except Failure ℕ) × Tftpfile × Mem :=
  if !turn.sendOk then (some (.error .network), tfp, ackbuf)
  else
    let tfp := tfp.sendto req
    match turn.event with
    | .selectFails => (some (.error .network), tfp, ackbuf)
    | .timeout => (none, tfp, ackbuf)
    | .recvFails => (some (.error .network), tfp, ackbuf)
    | .datagram sinPort bytes =>
      let ackbuf := ackbuf.store 0 (bytes.take pktsize)
      if tfp.block ≠ 0 ∧ sinPort ≠ tfp.port then (none, tfp, ackbuf)
      else
        let tfp := { tfp with port := sinPort }
        let ackbuf := ntohs (ntohs ackbuf 0) 2
        let opcode := ushort ackbuf 0
        let block := ushort ackbuf 2
        if opcode = opERROR then
          (some (.error (.server (tftperrmap.getD (block % 8) .eio))), tfp, ackbuf)
        else if opcode = opACK then
          if block = tfp.block then (some (.ok size), tfp, ackbuf)
          else if (block : ℤ) ≠ tfp.block - 1 then (some (.error .outOfStep), tfp, ackbuf)
          else (none, tfp, ackbuf)
        else (none, tfp, ackbuf)

def wrqLoop (req : List UInt8) (size : ℕ) :
    List Turn → Tftpfile → Mem → Option (Except Failure ℕ) × Tftpfile
  | [], tfp, _ => (none, tfp)
  | turn :: turns, tfp, ackbuf =>
    match wrqTurn req size turn tfp ackbuf with
    | (none, tfp, ackbuf) => wrqLoop req size turns tfp ackbuf
    | (some r, tfp, _) => (some r, tfp)

/-- `tftpwrq`: `req` are the `size + 4` bytes that are sent. -/
def tftpwrq (req : List UInt8) (size : ℕ) (wait : Wait) (tfp : Tftpfile) :
    Option (Except Failure ℕ) × Tftpfile :=
  wrqLoop req size wait.turns tfp wait.ackbuf

/-! ## §2 Operations -/

/-- A file that is to be opened for writing. -/
def newWriter (port : ℕ) : Tftpfile :=
  { port, block := 0, flags := .wronly, eof := false, start := 0, stop := 0, foffs := 0,
    buf := fun _ => 0, sent := [] }

/-- `tftpopen` for writing, with the server's address known and the socket bound. -/
def tftpopenWrite (port : ℕ) (filename : CStr) (wait : Wait) :
    Option (Except Failure Tftpfile) :=
  let req := makerequest opWRQ filename (ascii "octet")
  match tftpwrq req (req.length - 4) wait (newWriter port) with
  | (none, _) => none
  | (some (.error e), _) => some (.error e)
  | (some (.ok _), tfp) => some (.ok tfp)

/-- The next block's number and header go into the buffer. -/
def nextData (tfp : Tftpfile) : Tftpfile :=
  let tfp := tftpnxtblk tfp
  { tfp with buf := (tfp.buf.store 0 (htons opDATA)).store 2 (htons tfp.block) }

/-- `tftpwrq` of the first `size` bytes of data in the buffer, as the next block. -/
def sendData (size : ℕ) (wait : Wait) (tfp : Tftpfile) : Option (Except Failure ℕ) × Tftpfile :=
  let tfp := nextData tfp
  tftpwrq (tfp.buf.slice 0 (size + 4)) size wait tfp

/-- What a turn of the loop of `tftpwrite` copies into the buffer, and what is left to write. -/
def copyIn (bs : List UInt8) (tfp : Tftpfile) : Tftpfile × List UInt8 :=
  let n := min (segsize - tfp.stop).toNat bs.length
  ({ tfp with
      buf := tfp.buf.store (4 + tfp.stop.toNat) (bs.take n)
      stop := tfp.stop + n
      foffs := wrap32 (tfp.foffs + n) },
    bs.drop n)

/-- The loop of `tftpwrite`, with the wait of each packet that is sent. -/
def writeLoop (waits : List Wait) (bs : List UInt8) (tfp : Tftpfile) :
    Option (Except Failure Unit) × Tftpfile :=
  if bs = [] then (some (.ok ()), tfp)
  else
    let (tfp, bs) := copyIn bs tfp
    if tfp.stop ≠ segsize then
      -- everything is copied, or `end` is behind the buffer and the loop spins
      if bs = [] then (some (.ok ()), tfp) else (none, tfp)
    else
      -- buffer is full, send it
      match waits with
      | [] => (none, tfp)
      | wait :: waits =>
        match sendData tfp.stop.toNat wait tfp with
        | (none, tfp) => (none, tfp)
        | (some (.error e), tfp) => (some (.error e), tfp)
        | (some (.ok _), tfp) => writeLoop waits bs { tfp with stop := 0 }

/-- `tftpwrite`. -/
def tftpwrite (tfp : Tftpfile) (bs : List UInt8) (waits : List Wait) :
    Option (Except Failure Unit) × Tftpfile :=
  if tfp.flags ≠ .wronly then (some (.error (.errno .eperm)), tfp) else writeLoop waits bs tfp

/-- `tftpclose` of a file opened for reading: a nak tells a server that has more to send. -/
def closeRead (tfp : Tftpfile) (sendOk : Bool) : Tftpfile :=
  if tfp.foffs < tfp.stop ∨ tfp.eof = false then
    let nak := htons opERROR ++ htons eundef ++ ascii "file closed"
    let tfp := { tfp with buf := tfp.buf.store 0 (nak ++ [0]) }
    if sendOk then tfp.sendto nak else tfp
  else tfp

/-- `tftpclose` of a file opened for writing: the last block is flushed, and followed by an
    empty one if it is a full one. -/
def closeWrite (tfp : Tftpfile) (flush empty : Wait) : Option Unit × Tftpfile :=
  match sendData tfp.stop.toNat flush tfp with
  | (none, tfp) => (none, tfp)
  | (some (.error _), tfp) => (some (), tfp)
  | (some (.ok _), tfp) =>
    if tfp.stop = segsize then
      match sendData 0 empty tfp with
      | (none, tfp) => (none, tfp)
      | (some _, tfp) => (some (), tfp)
    else (some (), tfp)

/-- `tftpclose`. -/
def tftpclose (tfp : Tftpfile) (sendOk : Bool) (flush empty : Wait) : Option Unit × Tftpfile :=
  if tfp.flags = .wronly then closeWrite tfp flush empty else (some (), closeRead tfp sendOk)

end Pmon.Netio
