import Pmon.Libc.Files

/-!
# Network files

`netopen` to `netclose` of `pmon/netio/netio.c`, with `open` and `close` of `lib/libc` as far as they
lead there, and the records that the protocols make for a file: `tftpopen` and `httpopen` put theirs
into `nfp->data`.

A record is known by the number of its allocation, so that a pointer to a record that is freed is
not one to a later record.  What the network answers, and whether there is memory, is part of a call.

## Key results

- `openFile_of_netPath`: `open` gives a file name to `netopen` as it does here.
-/

namespace Pmon.Netio

open Pmon.Libc

/-! ## §1 Protocols -/

/-- `NetFileOps`, as far as the records of a file go: whether `fo_open` makes a record of its own,
    and whether it frees it where it fails. -/
structure NetFileOps where
  protocol : CStr
  makesRecord : Bool
  freesOnError : Bool
  deriving DecidableEq

def tftpops : NetFileOps := ⟨ascii "tftp", true, true⟩

/-- The `error` exit of `httpopen` does not free the record. -/
def httpops : NetFileOps := ⟨ascii "http", true, false⟩

/-- The state of `nfs.c` is in variables. -/
def nfsops : NetFileOps := ⟨ascii "nfs", false, false⟩

/-- The protocol field of a URL, as `parseUrl` finds it. -/
def urlProtocol (dname : CStr) : Option CStr :=
  if 58 ∉ dname then none
  else if 8 < (dname.takeWhile (· != 58)).length + 1 then none
  else if ascii "://" <+: dname.dropWhile (· != 58) then some (dname.takeWhile (· != 58))
  else none

/-! ## §2 The state -/

/-- `NetFile`. -/
structure NetFile where
  ops : NetFileOps
  data : Option ℕ

/-- A slot of `_file`: the file system is that of network files or another, and `data` has the number
    of a record or is no pointer to one. -/
structure NetSlot where
  valid : Bool
  net : Bool
  data : Option ℕ

/-- What the last `open` of a descriptor has made: the protocol whose `fo_open` succeeded, the
    `NetFile`, and the record of the protocol. -/
structure NetOpened where
  ops : NetFileOps
  file : ℕ
  data : Option ℕ

/-- `_file` and the records; `opened` is not in the source. -/
structure NetState where
  slots : ℕ → NetSlot
  files : ℕ → Option NetFile
  freed : ℕ → Bool
  next : ℕ
  opened : ℕ → Option NetOpened

variable (s : NetState)

/-- `free`. -/
def NetState.free (id : ℕ) : NetState := { s with freed := Function.update s.freed id true }

/-- The `NetFile` of `netopen`, with its protocol. -/
def NetState.newFile (fd : ℕ) (ops : NetFileOps) : NetState :=
  { s with
    slots := Function.update s.slots fd { s.slots fd with data := some s.next }
    files := Function.update s.files s.next (some ⟨ops, none⟩)
    next := s.next + 1 }

/-- The record of a protocol, put into `nfp->data`. -/
def NetState.newData (file : ℕ) : NetState :=
  { s with
    files := Function.update s.files file
      ((s.files file).map fun nfp => { nfp with data := some s.next })
    next := s.next + 1 }

/-- A slot's mark and file system. -/
def NetState.setSlot (fd : ℕ) (valid net : Bool) : NetState :=
  { s with slots := Function.update s.slots fd ⟨valid, net, (s.slots fd).data⟩ }

/-- The descriptor is one of a network file. -/
def NetState.IsOpen (fd : ℕ) : Prop :=
  fd < openMax ∧ (s.slots fd).valid = true ∧ (s.slots fd).net = true

instance (fd : ℕ) : Decidable (s.IsOpen fd) := inferInstanceAs (Decidable (_ ∧ _))

/-! ## §3 netopen -/

/-- What a protocol's turn in `netopen` meets: no memory for the `NetFile`; a failure of `fo_open`
    before or after it has made its record; or success. -/
inductive NetReply where
  | noMemory
  | fails (made : Bool)
  | opens
  deriving DecidableEq

/-- `fo_open` fails, and `netopen` frees its `NetFile`. -/
def NetState.openFails (fd : ℕ) (ops : NetFileOps) (made : Bool) : NetState :=
  let file := s.next
  let s := s.newFile fd ops
  if made && ops.makesRecord then
    let data := s.next
    let s := s.newData file
    (if ops.freesOnError then s.free data else s).free file
  else s.free file

/-- `fo_open` succeeds. -/
def NetState.openSucceeds (fd : ℕ) (ops : NetFileOps) : NetState × NetOpened :=
  let file := s.next
  let s := s.newFile fd ops
  if ops.makesRecord then (s.newData file, ⟨ops, file, some s.next⟩) else (s, ⟨ops, file, none⟩)

/-- The loop of `netopen` over the protocols, from number `i` on.  It goes on behind a protocol that
    has succeeded; the result is what was opened last, if anything, or `none` for `-1`. -/
def netopenLoop (name : CStr) (fd : ℕ) (reply : ℕ → NetReply) :
    List NetFileOps → ℕ → Option NetOpened → NetState → NetState × Option (Option NetOpened)
  | [], _, last, s => (s, some last)
  | ops :: systems, i, last, s =>
    if name = ops.protocol then
      match reply i with
      | .noMemory => (s, none)
      | .fails made => (s.openFails fd ops made, none)
      | .opens =>
        netopenLoop name fd reply systems (i + 1) (some (s.openSucceeds fd ops).2)
          (s.openSucceeds fd ops).1
    else netopenLoop name fd reply systems (i + 1) last s

/-- The path without the device. -/
def netName (path : CStr) : CStr :=
  if ascii "/dev/net/" <+: path then path.drop 9 else path

/-- `netopen`; `accepted` says whether `parseUrl` takes what is behind the protocol. -/
def netopen (systems : List NetFileOps) (fd : ℕ) (path : CStr) (accepted : Bool)
    (reply : ℕ → NetReply) (s : NetState) : NetState × Option (Option NetOpened) :=
  match urlProtocol (netName path) with
  | none => (s, none)
  | some name => if accepted then netopenLoop name fd reply systems 0 none s else (s, none)

/-! ## §4 open and close -/

/-- The path that `open` gives to `netopen`, for a file name that leads there. -/
def netPath (filename : CStr) : Option CStr :=
  if ascii "/dev/" <+: filename then
    let dname := fatSupport (filename.drop 5)
    if strbequ dname (ascii "net") then some (ascii "/dev/" ++ dname) else none
  else if strpat filename (ascii "*ftp://*") then some filename
  else if strpat filename (ascii "file://*") then none
  else if strpat filename (ascii "http://*") then some filename
  else if strpat filename (ascii "nfs://*") then some filename
  else if strbequ filename (ascii "net") then some filename
  else none

/-- The first slot without a mark. -/
def NetState.freeSlot : ℕ :=
  (List.range openMax).findIdx fun lu : ℕ => !(s.slots lu).valid

/-- `open` of a network file: the descriptor, `none` for `-1`. -/
def netOpenFile (systems : List NetFileOps) (filename : CStr) (accepted : Bool)
    (reply : ℕ → NetReply) (s : NetState) : NetState × Option ℕ :=
  let lu := s.freeSlot
  if lu = openMax then (s, none)
  else
    match netPath filename with
    | none => (s, none)
    | some path =>
      match netopen systems lu path accepted reply s with
      | (s, none) => (s.setSlot lu false (s.slots lu).net, none)
      | (s, some last) =>
        ({ s.setSlot lu true true with opened := Function.update s.opened lu last }, some lu)

/-- `fo_close` frees the record of the protocol; the `NetFile` stays. -/
def NetState.netclose (fd : ℕ) : NetState :=
  match (s.slots fd).data.bind s.files with
  | none => s
  | some nfp =>
    match nfp.data with
    | none => s
    | some data => s.free data

/-- `close`. -/
def NetState.closeFile (fd : ℕ) : NetState :=
  if s.IsOpen fd then (s.setSlot fd false true).netclose fd else s

/-! ## §5 The file names -/

/-- `FS_NET`. -/
def fsNet : ℕ := 2

/-- **The way to `netopen`**: where the network is the file system that is there, `open` calls it
    with the path that is given here, and keeps the slot when it returns the descriptor. -/
theorem openFile_of_netPath {files : FileTable} {filename path : CStr} {mode : ℕ}
    {fsOpen : ℕ → CStr → ℕ → Opened} {fsClose : Option (ℤ → ℤ)}
    {findDevice : CStr → Option DeviceDisk} {low : CStr} (hslot : Libc.freeSlot files ≠ openMax)
    (hpath : netPath filename = some path) :
    openFile ⟨[⟨ascii "net", fsNet, some fsOpen, fsClose⟩], findDevice, low⟩ files filename mode =
      release (Libc.freeSlot files)
        (let lu := Libc.freeSlot files
          let o := fsOpen lu path mode
          let files := (files.mark lu true).after lu o
          if o.ret ≠ lu then { files := files, ret := -1 }
          else opened files lu ⟨ascii "net", fsNet, some fsOpen, fsClose⟩) := by
  have hnet : strbequ (ascii "net") (ascii "net") = true := by decide
  unfold netPath at hpath
  unfold openFile
  dsimp only at hpath ⊢
  rw [if_neg hslot]
  by_cases hdev : ascii "/dev/" <+: filename
  · rw [if_pos hdev] at hpath ⊢
    split at hpath
    · rename_i hname
      cases hpath
      simp only [tryOpen, Option.any_some, if_pos hname]
    · simp at hpath
  · rw [if_neg hdev] at hpath ⊢
    by_cases hftp : strpat filename (ascii "*ftp://*") = true
    · rw [if_pos hftp] at hpath ⊢
      cases hpath
      simp only [tryOpen, Option.any_some, if_pos hnet]
    · rw [if_neg hftp] at hpath ⊢
      by_cases hfile : strpat filename (ascii "file://*") = true
      · simp [hfile] at hpath
      · rw [if_neg hfile] at hpath ⊢
        by_cases hhttp : strpat filename (ascii "http://*") = true
        · rw [if_pos hhttp] at hpath ⊢
          cases hpath
          simp only [tryOpen, Option.any_some, if_pos hnet]
        · rw [if_neg hhttp] at hpath ⊢
          by_cases hnfs : strpat filename (ascii "nfs://*") = true
          · rw [if_pos hnfs] at hpath ⊢
            cases hpath
            simp only [tryOpen, Option.any_some, if_pos hnet]
          · rw [if_neg hnfs] at hpath ⊢
            split at hpath
            · rename_i hname
              cases hpath
              -- a name that starts with `net` is not one of a partition
              have hhead : filename.head? ≠ some 40 := by
                intro hparen
                obtain ⟨rest, rfl⟩ := strbequ_iff.mp hname
                simp [ascii] at hparen
              rw [if_neg hhead]
              simp only [tryOpen, Option.any_some, if_pos hname]
            · simp at hpath

end Pmon.Netio
