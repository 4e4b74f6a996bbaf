import Pmon.Lib.Bytes

/-!
# The XMODEM receiver

`xmodem_transfer` of `pmon/cmds/xmodem.c`.  The serial line is a sequence of events: a
character comes in, or `testchar` gives up.  Each call of `get_data` has its own events; where
they end, the call still waits.

What the receiver does to the outside is its log: the blocks it stores and the characters it
sends, in order.  `strXMODEM` is not part of the memory that is loaded.
-/

namespace Pmon.Cmds

open Pmon.Lib

/-! ## §1 Checksum -/

/-- One turn of the loop of `_crc_xmodem_update`. -/
def crcShift (crc : UInt16) : UInt16 :=
  if crc &&& 0x8000 ≠ 0 then (crc <<< 1) ^^^ 0x1021 else crc <<< 1

/-- `_crc_xmodem_update`. -/
def crcXmodemUpdate (crc : UInt16) (data : UInt8) : UInt16 :=
  (List.range 8).foldl (fun crc _ => crcShift crc) (crc ^^^ (data.toUInt16 <<< 8))

/-- `calcrc`. -/
def calcrc (bytes : List UInt8) : UInt16 := bytes.foldl crcXmodemUpdate 0

/-! ## §2 The line -/

/-- `BLOCKSIZE`. -/
def blocksize : ℕ := 128

def xmodemSoh : UInt8 := 0x01

def xmodemEot : UInt8 := 0x04

def xmodemAck : UInt8 := 0x06

def xmodemNak : UInt8 := 0x15

def xmodemCan : UInt8 := 0x18

/-- `XMODEM_WAIT_CHAR`. -/
def xmodemWaitChar : UInt8 := 0x43

inductive LineEvent where
  | char (c : UInt8)
  /-- `testchar` returns 0. -/
  | timeout

/-- The loop of `get_data` into `strXMODEM`: the first timeout is let pass. -/
def getData (len : ℕ) : List LineEvent → ℕ → ℕ → Mem → Option (ℕ × Mem)
  | events, i, count, str =>
    if len ≤ i then some (i, str)
    else
      match events with
      | [] => none
      | .char c :: events => getData len events (i + 1) count (str.put i c)
      | .timeout :: events =>
        if count = 0 then some (i, str) else getData len events i (count - 1) str

/-! ## §3 The transfer -/

/-- What the receiver does to the outside. -/
inductive Act where
  | store (dst : ℕ) (data : List UInt8)
  | putchar (c : UInt8)

structure XmodemState where
  /-- The bytes of `strXMODEM`. -/
  str : Mem
  filesize : ℕ
  blockCount : UInt8
  log : List Act

def XmodemState.putchar (s : XmodemState) (c : UInt8) : XmodemState :=
  { s with log := s.log ++ [.putchar c] }

/-- What is done with 133 bytes that begin with `SOH`. -/
def takeBlock (base : ℕ) (s : XmodemState) : XmodemState :=
  let blockNo := s.str 1
  let nBlockNo := s.str 2
  let xdata := s.str.slice 3 blocksize
  let crc := (s.str 131).toNat * 256 + (s.str 132).toNat
  if s.blockCount ≠ blockNo then s.putchar xmodemNak
  else if s.blockCount ≠ ~~~nBlockNo then s.putchar xmodemNak
  else if (calcrc xdata).toNat ≠ crc then s.putchar xmodemNak
  else
    { s with
      filesize := (s.filesize + 128) % 4294967296
      blockCount := s.blockCount + 1
      log := s.log ++ [.store ((base + s.filesize) % 4294967296) xdata, .putchar xmodemAck] }

/-- One turn of the loop of `xmodem_transfer`: whether it goes on, and the state. -/
def xmodemTurn (base : ℕ) (events : List LineEvent) (s : XmodemState) :
    Option (Bool × XmodemState) :=
  match getData (blocksize + 5) events 0 1 s.str with
  | none => none
  | some (i, str) =>
    let s := { s with str }
    if i = 0 then some (false, s)
    else if str 0 = xmodemSoh then
      if blocksize + 5 ≤ i then some (true, takeBlock base s)
      else some (true, s.putchar xmodemNak)
    else if str 0 = xmodemEot then some (false, s.putchar xmodemAck)
    else if str 0 = xmodemCan then some (false, s.putchar xmodemAck)
    else some (true, s.putchar xmodemNak)

/-- The loop, with the events of each call of `get_data`. -/
def xmodemLoop (base : ℕ) : List (List LineEvent) → XmodemState → XmodemState
  | [], s => s
  | events :: schedule, s =>
    match xmodemTurn base events s with
    | none => s
    | some (true, s) => xmodemLoop base schedule s
    | some (false, s) => s

/-- `xmodem_transfer`, where `testchar` gives up `waits` times before the first character. -/
def xmodemTransfer (base : ℕ) (str : Mem) (waits : ℕ) (schedule : List (List LineEvent)) :
    XmodemState :=
  xmodemLoop base schedule
    { str, filesize := 0, blockCount := 1,
      log := List.replicate (waits + 1) (.putchar xmodemWaitChar) }

end Pmon.Cmds
