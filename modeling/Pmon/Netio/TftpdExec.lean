import Mathlib.Data.List.TakeWhile
import Pmon.Netio.HttpHeader
import Pmon.Netio.TftpWrite

/-!
# The TFTP server

`tftpd_exec`, `validate_access` and `oack` of `pmon/cmds/tftpd.c`: how a request is taken apart in
`cmdbuf`, and how it is answered.  The table of options outlives a request, and so may what an
earlier one has left in `cmdbuf`.

## Key results

- `parseOptions_eq`: what the options of a packet come to.
- `atoiReach_fresh`: a number of the packet ends within it.
- `tftpdExec_exact`: when a request is handled as it should be.
-/

namespace Pmon.Netio.Tftpd

open Pmon.Libc

/-! ## §1 The server -/

inductive Opt where
  | tsize
  | timeout
  | blksize
deriving DecidableEq

/-- `o_type`. -/
def Opt.oType : Opt → CStr
  | .tsize => ascii "tsize"
  | .timeout => ascii "timeout"
  | .blksize => ascii "blksize"

/-- An entry of `options`. -/
structure OptState where
  /-- Where in `cmdbuf` the value is. -/
  oRequest : Option ℕ
  oReply : ℤ

abbrev Options := Opt → OptState

def Options.set (options : Options) (o : Opt) (st : OptState) : Options :=
  fun o' => if o' = o then st else options o'

structure Tftpd where
  /-- `cmdbuf`, and what is behind it. -/
  mem : List UInt8
  options : Options
  rexmtval : ℤ
  maxRexmtval : ℤ
  pktsize : ℤ
  secure : Bool

/-- What a call meets. -/
structure World where
  /-- What is in `stbuf.st_size`, which nothing sets. -/
  stSize : ℤ
  /-- What opening the file comes to; 0 if it is open. -/
  opened : ℤ
  /-- The client acknowledges the options. -/
  acked : Bool

inductive Outcome where
  | nak (error : ℤ)
  | exited
  /-- `f_recv` is called. -/
  | recv
  /-- `f_send` is called. -/
  | send
deriving DecidableEq

/-- A call that is over, or has come to the transfer. -/
structure Handled where
  /-- Without the packet that `nak` builds. -/
  state : Tftpd
  /-- One more than the last offset of `cmdbuf` that was read. -/
  reach : ℕ
  /-- The options that were acknowledged. -/
  oacked : Option Options
  outcome : Outcome

def maxPathLen : ℕ := 1024

def maxBlksize : ℤ := 8192

def eACCESS : ℤ := 2

def eBADOP : ℤ := 4

/-! ## §2 Strings in `cmdbuf` -/

def tolower (c : UInt8) : UInt8 := if isupper c then c + 32 else c

def byteAt (mem : List UInt8) (a : ℕ) : UInt8 := mem.getD a 0

/-- Where a string ends, or the packet. -/
def strEnd (mem : List UInt8) (size cp : ℕ) : ℕ :=
  cp + (((mem.take size).drop cp).takeWhile (· ≠ 0)).length

def text (mem : List UInt8) (lo hi : ℕ) : CStr := (mem.take hi).drop lo

/-- Capital letters between two offsets are made small. -/
def lowered (mem : List UInt8) (lo hi : ℕ) : List UInt8 :=
  mem.mapIdx fun a c => if lo ≤ a ∧ a < hi then tolower c else c

/-- What `atoi` stops at. -/
def atoiRest (p : CStr) : CStr :=
  match p.dropWhile isspace with
  | 45 :: p => p.dropWhile isdigit
  | 43 :: p => p.dropWhile isdigit
  | p => p.dropWhile isdigit

/-- `atoi` of what is at an offset. -/
def number (mem : List UInt8) (p : ℕ) : ℤ := (atoi (mem.drop p)).toInt

/-- One more than the last offset that `atoi` reads then. -/
def atoiReach (mem : List UInt8) (p : ℕ) : ℕ :=
  p + ((mem.drop p).length - (atoiRest (mem.drop p)).length) + 1

def opcode (mem : List UInt8) : ℕ := (byteAt mem 0).toNat + 256 * (byteAt mem 1).toNat

/-! ## §3 `tftpd_exec` -/

/-- What the loop over the options works on. -/
structure Parse where
  mem : List UInt8
  options : Options
  hasOptions : Bool
  reach : ℕ

/-- The loop over `options`, for an option of the packet. -/
def noteOption (options : Options) (option : CStr) (value : ℕ) : Options :=
  fun o => if option = o.oType then { options o with oRequest := some value } else options o

def knownOption (option : CStr) : Bool :=
  option = Opt.tsize.oType || option = Opt.timeout.oType || option = Opt.blksize.oType

/-- The loop over the options of the packet, which begins behind `cp`. -/
def parseOptions (size : ℕ) : (fuel cp : ℕ) → Parse → Parse
  | 0, _, ps => ps
  | fuel + 1, cp, ps =>
    if cp + 1 < size then
      let z1 := strEnd ps.mem size (cp + 1)
      let z2 := strEnd ps.mem size (z1 + 1)
      if z1 < size ∧ z2 < size then
        let mem := lowered ps.mem (cp + 1) z1
        let option := text mem (cp + 1) z1
        parseOptions size fuel z2
          { mem
            options := noteOption ps.options option (z1 + 1)
            hasOptions := ps.hasOptions || knownOption option
            reach := max ps.reach (z2 + 1) }
      else { ps with reach := max ps.reach size }
    else ps

/-- The timeout is taken, or refused; and how far is read for that. -/
def takeTimeout (s : Tftpd) : ℕ × Option Tftpd :=
  match (s.options .timeout).oRequest with
  | none => (0, some s)
  | some p =>
    let secs := number s.mem p
    (atoiReach s.mem p,
      if secs < 1 ∨ 255 < secs then none
      else if secs ≤ s.maxRexmtval then
        some { s with options := s.options.set .timeout ⟨some p, secs⟩, rexmtval := secs }
      else
        some { s with options := s.options.set .timeout ⟨none, (s.options .timeout).oReply⟩ })

/-- The block size is taken, or refused. -/
def takeBlksize (s : Tftpd) : ℕ × Option Tftpd :=
  match (s.options .blksize).oRequest with
  | none => (0, some s)
  | some p =>
    let blksize := number s.mem p
    (atoiReach s.mem p,
      if blksize < 512 then none
      else
        let reply := if maxBlksize < blksize then maxBlksize else (s.options .blksize).oReply
        some { s with options := s.options.set .blksize ⟨some p, reply⟩, pktsize := reply + 4 })

/-- `validate_access`; nothing comes back when it exits. -/
def validateAccess (w : World) (s : Tftpd) (filename : CStr) : ℕ × Option (ℤ × Tftpd) :=
  if filename = ascii "exit" then (0, none)
  else if ¬ s.secure ∧ (filename.head? ≠ some 47 ∨ ascii "/../" <:+: filename) then
    (0, some (eACCESS, s))
  else
    match (s.options .tsize).oRequest with
    | none => (0, some (w.opened, s))
    | some p =>
      if opcode s.mem = opRRQ then
        (0, some (w.opened, { s with options := s.options.set .tsize ⟨some p, w.stSize⟩ }))
      else
        (atoiReach s.mem p,
          some (w.opened, { s with options := s.options.set .tsize ⟨some p, number s.mem p⟩ }))

/-- What `oack` sends for an option. -/
def oackOption (options : Options) (o : Opt) : List UInt8 :=
  match (options o).oRequest with
  | none => []
  | some _ => o.oType ++ [0] ++ ascii (toString (options o).oReply) ++ [0]

/-- The packet that `oack` builds in `cmdbuf`; `htons` of its operation is in front. -/
def oackText (options : Options) : List UInt8 :=
  [0, 6] ++ oackOption options .tsize ++ oackOption options .timeout ++ oackOption options .blksize

def oack (s : Tftpd) : Tftpd :=
  { s with mem := oackText s.options ++ s.mem.drop (oackText s.options).length }

/-- The modes of `formats`. -/
def formats : List CStr := [ascii "netascii", ascii "octet"]

/-- `tftpd_exec` from `f_validate` on. -/
def answer (w : World) (s : Tftpd) (filename : CStr) (hasOptions : Bool) (reach : ℕ) : Handled :=
  match validateAccess w s filename with
  | (n, none) => ⟨s, max reach n, none, .exited⟩
  | (n, some (ecode, s)) =>
    let oacked := if hasOptions then some s.options else none
    let s := if hasOptions then oack s else s
    ⟨s, max reach n, oacked,
      if hasOptions ∧ ¬ w.acked then .exited
      else if ecode ≠ 0 then .nak ecode
      else if opcode s.mem = opWRQ then .recv
      else .send⟩

/-- `tftpd_exec` from `option_fail` on. -/
def optionFail (w : World) (s : Tftpd) (filename : CStr) (hasOptions : Bool) (reach : ℕ) :
    Handled :=
  match takeTimeout s with
  | (n, none) => ⟨s, max reach n, none, .nak eBADOP⟩
  | (n, some s) =>
    match takeBlksize s with
    | (n', none) => ⟨s, max (max reach n) n', none, .nak eBADOP⟩
    | (n', some s) => answer w s filename hasOptions (max (max reach n) n')

/-- Where the file name ends. -/
def nameEnd (s : Tftpd) (size : ℕ) : ℕ := strEnd s.mem size 2

/-- Where the mode ends. -/
def modeEnd (s : Tftpd) (size : ℕ) : ℕ := strEnd s.mem size (nameEnd s size + 1)

/-- `tftpd_exec`. -/
def tftpdExec (w : World) (s : Tftpd) (size : ℕ) : Handled :=
  let p1 := nameEnd s size
  let p2 := modeEnd s size
  if byteAt s.mem p1 ≠ 0 ∨ maxPathLen ≤ p1 - 2 then ⟨s, p1 + 1, none, .nak eBADOP⟩
  else if byteAt s.mem p2 ≠ 0 ∨ maxPathLen ≤ p2 - 2 then ⟨s, p2 + 1, none, .nak eBADOP⟩
  else
    let mem := lowered s.mem (p1 + 1) p2
    if text mem (p1 + 1) p2 ∉ formats then ⟨{ s with mem }, p2 + 1, none, .nak eBADOP⟩
    else
      let ps := parseOptions size size p2 ⟨mem, s.options, false, p2 + 1⟩
      optionFail w { s with mem := ps.mem, options := ps.options } (text s.mem 2 p1) ps.hasOptions
        ps.reach

/-! ## §4 Strings -/

variable {mem mem' : List UInt8} {size cp lo hi fuel p n : ℕ} {c : UInt8}

theorem tolower_eq_zero : tolower c = 0 ↔ c = 0 := by
  unfold tolower isupper
  grind

theorem tolower_tolower : tolower (tolower c) = tolower c := by
  unfold tolower isupper
  grind

theorem isspace_tolower : isspace (tolower c) = isspace c := by
  unfold tolower isupper isspace
  grind

theorem isdigit_tolower : isdigit (tolower c) = isdigit c := by
  unfold tolower isupper isdigit
  grind

theorem tolower_small (h : c < 65) : tolower c = c := by
  unfold tolower isupper
  grind

theorem tolower_eq_small {c' : UInt8} (h : tolower c' = tolower c) (hc : c < 65) : c' = c := by
  rw [tolower_small hc] at h
  unfold tolower isupper at h
  grind

/-- Memories that only differ in how letters are written. -/
def CaseOnly (mem mem' : List UInt8) : Prop := mem'.map tolower = mem.map tolower

theorem CaseOnly.trans {mem'' : List UInt8} (h : CaseOnly mem mem') (h' : CaseOnly mem' mem'') :
    CaseOnly mem mem'' := Eq.trans h' h

theorem CaseOnly.length (h : CaseOnly mem mem') : mem'.length = mem.length := by
  have := congrArg List.length h
  rwa [List.length_map, List.length_map] at this

theorem strEnd_map : strEnd (mem.map tolower) size cp = strEnd mem size cp := by
  have hzero : ((fun c : UInt8 => decide (c ≠ 0)) ∘ tolower) = fun c => decide (c ≠ 0) := by
    funext c
    simp [tolower_eq_zero]
  rw [strEnd, strEnd, ← List.map_take, ← List.map_drop, List.takeWhile_map, List.length_map, hzero]

theorem text_map : text (mem.map tolower) lo hi = (text mem lo hi).map tolower := by
  rw [text, text, List.map_drop, List.map_take]

theorem isspace_comp : isspace ∘ tolower = isspace := funext fun _ => isspace_tolower

theorem isdigit_comp : isdigit ∘ tolower = isdigit := funext fun _ => isdigit_tolower

theorem atoiDigits_map (p : CStr) (value : BitVec 32) :
    atoiDigits (p.map tolower) value = atoiDigits p value := by
  induction p generalizing value with
  | nil => rfl
  | cons c p ih =>
    rw [List.map_cons, atoiDigits, atoiDigits, isdigit_tolower, ih]
    split
    · rename_i hd
      have hsmall : c < 65 := by
        unfold isdigit at hd
        grind
      rw [tolower_small hsmall]
    · rfl

variable {u : CStr}

theorem atoi_cons {p : CStr} (h : p.dropWhile isspace = c :: u) : atoi p =
    if c = 45 then -atoiDigits u 0
    else if c = 43 then atoiDigits u 0
    else atoiDigits (c :: u) 0 := by
  rw [atoi, h]
  split
  · rename_i heq
    cases heq
    rfl
  · rename_i heq
    cases heq
    rfl
  · rename_i h45 h43
    rw [if_neg fun hc => h45 u (by rw [hc]), if_neg fun hc => h43 u (by rw [hc])]

theorem atoiRest_cons {p : CStr} (h : p.dropWhile isspace = c :: u) : atoiRest p =
    if c = 45 ∨ c = 43 then u.dropWhile isdigit else (c :: u).dropWhile isdigit := by
  rw [atoiRest, h]
  split
  · rename_i heq
    cases heq
    rfl
  · rename_i heq
    cases heq
    rfl
  · rename_i h45 h43
    rw [if_neg]
    rintro (rfl | rfl)
    · exact h45 u rfl
    · exact h43 u rfl

theorem atoi_nil {p : CStr} (h : p.dropWhile isspace = []) : atoi p = 0 ∧ atoiRest p = [] := by
  rw [atoi, atoiRest, h]
  exact ⟨rfl, rfl⟩

theorem dropWhile_space_map (p : CStr) :
    (p.map tolower).dropWhile isspace = (p.dropWhile isspace).map tolower := by
  rw [List.dropWhile_map, isspace_comp]

theorem dropWhile_digit_map (p : CStr) :
    (p.map tolower).dropWhile isdigit = (p.dropWhile isdigit).map tolower := by
  rw [List.dropWhile_map, isdigit_comp]

theorem tolower_eq_iff {d : UInt8} (hd : d < 65) : tolower c = d ↔ c = d := by
  constructor
  · intro h
    exact tolower_eq_small (by rw [h, tolower_small hd]) hd
  · rintro rfl
    exact tolower_small hd

theorem atoi_map (p : CStr) : atoi (p.map tolower) = atoi p := by
  cases h : p.dropWhile isspace with
  | nil => rw [(atoi_nil h).1, (atoi_nil (by rw [dropWhile_space_map, h, List.map_nil])).1]
  | cons c u =>
    have hmap : (p.map tolower).dropWhile isspace = tolower c :: u.map tolower := by
      rw [dropWhile_space_map, h, List.map_cons]
    rw [atoi_cons h, atoi_cons hmap, ← List.map_cons, atoiDigits_map, atoiDigits_map]
    simp only [tolower_eq_iff (show (45 : UInt8) < 65 by decide),
      tolower_eq_iff (show (43 : UInt8) < 65 by decide)]

theorem length_atoiRest_map (p : CStr) :
    (atoiRest (p.map tolower)).length = (atoiRest p).length := by
  cases h : p.dropWhile isspace with
  | nil => rw [(atoi_nil h).2, (atoi_nil (by rw [dropWhile_space_map, h, List.map_nil])).2]
  | cons c u =>
    have hmap : (p.map tolower).dropWhile isspace = tolower c :: u.map tolower := by
      rw [dropWhile_space_map, h, List.map_cons]
    rw [atoiRest_cons h, atoiRest_cons hmap, ← List.map_cons, dropWhile_digit_map,
      dropWhile_digit_map]
    simp only [tolower_eq_iff (show (45 : UInt8) < 65 by decide),
      tolower_eq_iff (show (43 : UInt8) < 65 by decide)]
    split <;> rw [List.length_map]

/-! What is read of a memory does not depend on how letters are written. -/

theorem CaseOnly.strEnd (h : CaseOnly mem mem') : strEnd mem' size cp = strEnd mem size cp := by
  rw [← strEnd_map, h, strEnd_map]

theorem CaseOnly.text (h : CaseOnly mem mem') :
    (text mem' lo hi).map tolower = (text mem lo hi).map tolower := by
  rw [← text_map, h, text_map]

theorem CaseOnly.number (h : CaseOnly mem mem') : number mem' p = number mem p := by
  rw [Tftpd.number, Tftpd.number, ← atoi_map, ← atoi_map (mem.drop p), List.map_drop,
    List.map_drop, h]

theorem CaseOnly.atoiReach (h : CaseOnly mem mem') : atoiReach mem' p = atoiReach mem p := by
  rw [Tftpd.atoiReach, Tftpd.atoiReach, ← length_atoiRest_map, ← length_atoiRest_map (mem.drop p),
    List.map_drop, List.map_drop, h, List.length_drop, List.length_drop, h.length]

theorem CaseOnly.byteAt (h : CaseOnly mem mem') (hc : byteAt mem n < 65) :
    byteAt mem' n = byteAt mem n := by
  apply tolower_eq_small _ hc
  have hget := congrArg (fun l => l[n]?.getD (tolower 0)) h
  simp only [List.getElem?_map, Option.getD_map] at hget
  rw [Tftpd.byteAt, Tftpd.byteAt, List.getD_eq_getElem?_getD, List.getD_eq_getElem?_getD]
  exact hget

theorem text_lowered : text (lowered mem lo hi) lo hi = (text mem lo hi).map tolower := by
  apply List.ext_getElem?
  intro i
  simp only [text, lowered, List.getElem?_drop, List.getElem?_take, List.getElem?_map,
    List.getElem?_mapIdx]
  split
  · rename_i hi'
    have : lo ≤ lo + i ∧ lo + i < hi := ⟨Nat.le_add_right _ _, hi'⟩
    simp [this]
  · rfl

theorem caseOnly_lowered : CaseOnly mem (lowered mem lo hi) := by
  apply List.ext_getElem?
  intro i
  simp only [lowered, List.getElem?_map, List.getElem?_mapIdx, Option.map_map]
  congr 1
  funext c
  simp only [Function.comp_apply]
  split
  · exact tolower_tolower
  · rfl

/-! ## §5 What a packet asks for -/

/-- The options of a packet behind `cp`: their names in small letters, and where their values
    are. -/
def pairs (mem : List UInt8) (size : ℕ) : (fuel cp : ℕ) → List (CStr × ℕ)
  | 0, _ => []
  | fuel + 1, cp =>
    if cp + 1 < size then
      let z1 := strEnd mem size (cp + 1)
      let z2 := strEnd mem size (z1 + 1)
      if z1 < size ∧ z2 < size then
        ((text mem (cp + 1) z1).map tolower, z1 + 1) :: pairs mem size fuel z2
      else []
    else []

def noteAll (options : Options) (ps : List (CStr × ℕ)) : Options :=
  ps.foldl (fun options pr => noteOption options pr.1 pr.2) options

/-- **The loop over the options** finds the options of the packet, and stays in it. -/
theorem parseOptions_eq (ps : Parse) (hcase : CaseOnly mem ps.mem) :
    CaseOnly mem (parseOptions size fuel cp ps).mem ∧
      (parseOptions size fuel cp ps).options = noteAll ps.options (pairs mem size fuel cp) ∧
      (parseOptions size fuel cp ps).hasOptions =
        (ps.hasOptions || (pairs mem size fuel cp).any (knownOption ·.1)) ∧
      ((parseOptions size fuel cp ps).reach ≤ size ↔ ps.reach ≤ size) := by
  induction fuel generalizing cp ps with
  | zero => exact ⟨hcase, rfl, (Bool.or_false _).symm, Iff.rfl⟩
  | succ fuel ih =>
    rw [parseOptions, pairs]
    split
    · dsimp only
      rw [hcase.strEnd, hcase.strEnd]
      split
      · rename_i hz
        have hname : text (lowered ps.mem (cp + 1) (strEnd mem size (cp + 1))) (cp + 1)
            (strEnd mem size (cp + 1)) =
              (text mem (cp + 1) (strEnd mem size (cp + 1))).map tolower := by
          rw [text_lowered, hcase.text]
        rw [hname]
        generalize (text mem (cp + 1) (strEnd mem size (cp + 1))).map tolower = name
        obtain ⟨hmem, hoptions, hhas, hreach⟩ := ih
          ⟨lowered ps.mem (cp + 1) (strEnd mem size (cp + 1)),
            noteOption ps.options name (strEnd mem size (cp + 1) + 1),
            ps.hasOptions || knownOption name,
            max ps.reach (strEnd mem size (strEnd mem size (cp + 1) + 1) + 1)⟩
          (hcase.trans caseOnly_lowered)
        refine ⟨hmem, hoptions, ?_, hreach.trans ?_⟩
        · rw [hhas, List.any_cons, Bool.or_assoc]
        · exact ⟨fun h => Nat.le_trans (Nat.le_max_left _ _) h, fun h => Nat.max_le.mpr ⟨h, hz.2⟩⟩
      · refine ⟨hcase, rfl, (Bool.or_false _).symm, ?_⟩
        exact ⟨fun h => Nat.le_trans (Nat.le_max_left _ _) h,
          fun h => Nat.max_le.mpr ⟨h, Nat.le_refl _⟩⟩
    · exact ⟨hcase, rfl, (Bool.or_false _).symm, Iff.rfl⟩

/-- The loop only says where values are. -/
theorem noteAll_reply (options : Options) (ps : List (CStr × ℕ)) (o : Opt) :
    (noteAll options ps o).oReply = (options o).oReply := by
  induction ps generalizing options with
  | nil => rfl
  | cons pr ps ih =>
    refine (ih _).trans ?_
    change (noteOption options pr.1 pr.2 o).oReply = _
    unfold noteOption
    split <;> rfl

/-- A value is one of the packet, or was there before. -/
theorem noteAll_request {options : Options} {ps : List (CStr × ℕ)} {o : Opt}
    (h : (noteAll options ps o).oRequest = some p) :
    (∃ pr ∈ ps, pr.2 = p) ∨ (options o).oRequest = some p ∧ ∀ pr ∈ ps, pr.1 ≠ o.oType := by
  induction ps generalizing options with
  | nil => exact Or.inr ⟨h, fun pr hpr => absurd hpr List.not_mem_nil⟩
  | cons pr ps ih =>
    rcases ih h with ⟨pr', hmem, heq⟩ | ⟨hold, hnone⟩
    · exact Or.inl ⟨pr', List.mem_cons_of_mem _ hmem, heq⟩
    · change (noteOption options pr.1 pr.2 o).oRequest = _ at hold
      unfold noteOption at hold
      split at hold
      · cases hold
        exact Or.inl ⟨pr, List.mem_cons_self, rfl⟩
      · rename_i hne
        exact Or.inr ⟨hold, List.forall_mem_cons.mpr ⟨hne, hnone⟩⟩

/-- An option that is not in the packet keeps its value. -/
theorem noteAll_unnamed {options : Options} {ps : List (CStr × ℕ)} {o : Opt}
    (h : ∀ pr ∈ ps, pr.1 ≠ o.oType) : noteAll options ps o = options o := by
  induction ps generalizing options with
  | nil => rfl
  | cons pr ps ih =>
    obtain ⟨hne, h⟩ := List.forall_mem_cons.mp h
    exact (ih h).trans (if_neg hne)

/-- Where a string ends in the packet. -/
theorem strEnd_zero (hsize : size ≤ mem.length) (h : strEnd mem size cp < size) :
    mem[strEnd mem size cp]? = some 0 := by
  rw [strEnd] at h ⊢
  have hall := List.takeWhile_append_dropWhile (p := (· ≠ 0)) (l := (mem.take size).drop cp)
  have hlen := congrArg List.length hall
  have hstop := List.head?_dropWhile_not (· ≠ 0) ((mem.take size).drop cp)
  generalize ((mem.take size).drop cp).takeWhile (· ≠ 0) = front at hall hlen hstop h ⊢
  cases hback : ((mem.take size).drop cp).dropWhile (· ≠ 0) with
  | nil =>
    rw [hback] at hlen
    simp only [List.length_append, List.length_nil, List.length_drop, List.length_take] at hlen
    omega
  | cons c back =>
    rw [hback] at hall hstop
    have hc : c = 0 := by simpa using hstop
    have hget : ((mem.take size).drop cp)[front.length]? = some 0 := by
      rw [← hall, List.getElem?_append_right (Nat.le_refl _), Nat.sub_self, hc]
      rfl
    rw [List.getElem?_drop, List.getElem?_take_of_lt h] at hget
    exact hget

variable {s : CStr} {k : ℕ}

/-- What skips no zero does not get past one. -/
theorem dropWhile_zero {q : UInt8 → Bool} (hq : q 0 = false) (h : s[k]? = some 0) :
    ∃ m ≤ k, s.dropWhile q = s.drop m := by
  induction s generalizing k with
  | nil => exact ⟨0, Nat.zero_le _, rfl⟩
  | cons c s ih =>
    by_cases hc : q c
    · cases k with
      | zero =>
        cases h
        rw [hq] at hc
        cases hc
      | succ k =>
        obtain ⟨m, hm, heq⟩ := ih (by simpa using h)
        refine ⟨m + 1, Nat.succ_le_succ hm, ?_⟩
        rw [List.dropWhile_cons_of_pos hc, heq, List.drop_succ_cons]
    · exact ⟨0, Nat.zero_le _, by rw [List.dropWhile_cons_of_neg hc, List.drop_zero]⟩

theorem atoiRest_zero (h : s[k]? = some 0) : ∃ m ≤ k, atoiRest s = s.drop m := by
  obtain ⟨m, hm, hspace⟩ := dropWhile_zero (q := isspace) rfl h
  have hk : (s.drop m)[k - m]? = some 0 := by
    rw [List.getElem?_drop, Nat.add_sub_cancel' hm]
    exact h
  cases hd : s.dropWhile isspace with
  | nil =>
    rw [← hspace, hd] at hk
    cases hk
  | cons c u =>
    rw [atoiRest_cons hd, ← hd, hspace]
    rw [← hspace, hd] at hk
    split
    · rename_i hsign
      -- Behind a sign the zero is still to come.
      have hu : u = s.drop (m + 1) := by
        rw [← List.tail_drop, ← hspace, hd, List.tail_cons]
      obtain ⟨j, hj⟩ : ∃ j, k - m = j + 1 := by
        cases hkm : k - m with
        | zero =>
          rw [hkm] at hk
          cases hk
          rcases hsign with hsign | hsign <;> cases hsign
        | succ j => exact ⟨j, rfl⟩
      rw [hj, List.getElem?_cons_succ] at hk
      obtain ⟨m', hm', hdigit⟩ := dropWhile_zero (q := isdigit) rfl hk
      exact ⟨m + 1 + m', by omega, by rw [hdigit, hu, List.drop_drop]⟩
    · obtain ⟨m', hm', hdigit⟩ := dropWhile_zero (q := isdigit) rfl hk
      refine ⟨m + m', by omega, ?_⟩
      rw [← hspace, hd, hdigit, ← hd, hspace, List.drop_drop]

/-- **A number of the packet ends within it.** -/
theorem atoiReach_fresh {z : ℕ} (hz : mem[z]? = some 0) (hp : p ≤ z) : atoiReach mem p ≤ z + 1 := by
  have hzero : (mem.drop p)[z - p]? = some 0 := by
    rw [List.getElem?_drop, Nat.add_sub_cancel' hp]
    exact hz
  obtain ⟨m, hm, hrest⟩ := atoiRest_zero hzero
  rw [atoiReach, hrest, List.length_drop (i := m)]
  omega

theorem le_strEnd : cp ≤ strEnd mem size cp := Nat.le_add_right _ _

/-- The values of the packet end within it. -/
theorem pairs_fresh (hsize : size ≤ mem.length) :
    ∀ pr ∈ pairs mem size fuel cp, atoiReach mem pr.2 ≤ size := by
  induction fuel generalizing cp with
  | zero => exact fun pr hpr => absurd hpr List.not_mem_nil
  | succ fuel ih =>
    rw [pairs]
    split
    · dsimp only
      split
      · rename_i hz
        refine List.forall_mem_cons.mpr ⟨?_, ih⟩
        have := atoiReach_fresh (strEnd_zero hsize hz.2) le_strEnd
        exact Nat.le_trans this hz.2
      · exact fun pr hpr => absurd hpr List.not_mem_nil
    · exact fun pr hpr => absurd hpr List.not_mem_nil

/-! ## §6 Requests -/

variable {w : World} {st : Tftpd} {h : Handled}

/-- Two strings end in the packet behind its operation. -/
def TwoStrings (st : Tftpd) (size : ℕ) : Prop := 2 ≤ ((st.mem.take size).drop 2).count 0

/-- The options of the packet. -/
def packetPairs (st : Tftpd) (size : ℕ) : List (CStr × ℕ) :=
  pairs st.mem size size (modeEnd st size)

/-- The options that are asked for by the packet or by an earlier one. -/
def asked (st : Tftpd) (size : ℕ) (o : Opt) : Option ℕ :=
  (noteAll st.options (packetPairs st size) o).oRequest

/-- The packet has an option that the server knows. -/
def HasOptions (st : Tftpd) (size : ℕ) : Prop := ∃ pr ∈ packetPairs st size, knownOption pr.1

def KnownMode (st : Tftpd) (size : ℕ) : Prop :=
  (text st.mem (nameEnd st size + 1) (modeEnd st size)).map tolower ∈ formats

def TimeoutOk (st : Tftpd) (size : ℕ) : Prop :=
  ∀ p, asked st size .timeout = some p → 1 ≤ number st.mem p ∧ number st.mem p ≤ 255

def BlksizeOk (st : Tftpd) (size : ℕ) : Prop :=
  ∀ p, asked st size .blksize = some p → 512 ≤ number st.mem p

/-- Nothing is wrong with the request but perhaps its file. -/
def Valid (st : Tftpd) (size : ℕ) : Prop :=
  KnownMode st size ∧ TimeoutOk st size ∧ BlksizeOk st size ∧
    text st.mem 2 (nameEnd st size) ≠ ascii "exit"

/-- The server may open the file. -/
def PathOk (st : Tftpd) (filename : CStr) : Prop :=
  st.secure ∨ filename.head? = some 47 ∧ ¬ ascii "/../" <:+: filename

/-- The value of an option is read, if it is asked for. -/
def Follows (st : Tftpd) (size : ℕ) : Opt → Prop
  | .timeout => KnownMode st size
  | .blksize => KnownMode st size ∧ TimeoutOk st size
  | .tsize => Valid st size ∧ PathOk st (text st.mem 2 (nameEnd st size)) ∧ opcode st.mem ≠ opRRQ

/-- Two strings are in the packet, and an option left by an earlier request, where its value is
    read, has a value that ends in this one. -/
def StaysInside (st : Tftpd) (size : ℕ) : Prop :=
  TwoStrings st size ∧ ∀ o p, Follows st size o → (∀ pr ∈ packetPairs st size, pr.1 ≠ o.oType) →
    (st.options o).oRequest = some p → atoiReach st.mem p ≤ size

/-- A block size is acknowledged only if it is above 8192, or if an earlier reply happens to
    suit it. -/
def BlksizeFits (st : Tftpd) (size : ℕ) : Prop :=
  Valid st size → HasOptions st size → ∀ p, asked st size .blksize = some p →
    maxBlksize < number st.mem p ∨
      512 ≤ (st.options .blksize).oReply ∧ (st.options .blksize).oReply ≤ number st.mem p

/-- No write request with options comes to a transfer. -/
def WriteFits (w : World) (st : Tftpd) (size : ℕ) : Prop :=
  Valid st size → HasOptions st size → opcode st.mem = opWRQ → w.acked →
    ¬ (PathOk st (text st.mem 2 (nameEnd st size)) ∧ w.opened = 0)

/-- **A request is handled as it should be.** -/
structure ExecRight (st : Tftpd) (size : ℕ) (h : Handled) : Prop where
  /-- Nothing is read behind the packet. -/
  reads : h.reach ≤ size
  /-- A block size that is acknowledged is no more than what was asked for, not too small, and
  used. -/
  blksize : ∀ options, h.oacked = some options → ∀ p, (options .blksize).oRequest = some p →
    (options .blksize).oReply ≤ number st.mem p ∧ 512 ≤ (options .blksize).oReply ∧
      (options .blksize).oReply = h.state.pktsize - 4
  /-- A write request is not served by sending, nor a read request by receiving. -/
  write : opcode st.mem = opWRQ → h.outcome ≠ .send
  read : opcode st.mem = opRRQ → h.outcome ≠ .recv

/-! ## §7 The steps of a call -/

theorem strEnd_lt_iff (hsize : size ≤ mem.length) :
    strEnd mem size cp < size ↔ 0 ∈ (mem.take size).drop cp := by
  constructor
  · intro hlt
    have hzero := strEnd_zero hsize hlt
    obtain ⟨i, hi⟩ := Nat.exists_eq_add_of_le (@le_strEnd mem size cp)
    rw [hi] at hzero hlt
    apply List.mem_of_getElem? (i := i)
    rw [List.getElem?_drop, List.getElem?_take_of_lt hlt]
    exact hzero
  · intro hmem
    have hall := List.takeWhile_append_dropWhile (p := (· ≠ 0)) (l := (mem.take size).drop cp)
    have hlen := congrArg List.length hall
    have hne : 0 < (((mem.take size).drop cp).dropWhile (· ≠ 0)).length := by
      rw [List.length_pos_iff, Ne, List.dropWhile_eq_nil_iff]
      exact fun h => absurd (h 0 hmem) (by decide)
    rw [List.length_append, List.length_drop, List.length_take] at hlen
    rw [strEnd]
    omega

theorem two_le_count (l : List UInt8) : 2 ≤ l.count 0 ↔
    0 ∈ l ∧ 0 ∈ l.drop ((l.takeWhile (· ≠ 0)).length + 1) := by
  induction l with
  | nil => simp
  | cons c l ih =>
    by_cases hc : c = 0
    · subst hc
      have htake : ((0 : UInt8) :: l).takeWhile (· ≠ 0) = [] :=
        List.takeWhile_cons_of_neg (by simp)
      rw [htake, List.count_cons_self]
      simp [Nat.succ_le_succ_iff, List.one_le_count_iff]
    · have htake : (c :: l).takeWhile (· ≠ 0) = c :: l.takeWhile (· ≠ 0) :=
        List.takeWhile_cons_of_pos (by simp [hc])
      have hmem : 0 ∈ c :: l ↔ 0 ∈ l := by
        rw [List.mem_cons, or_iff_right (Ne.symm hc)]
      rw [htake, List.count_cons_of_ne hc, ih, hmem, List.length_cons, List.drop_succ_cons]

theorem twoStrings_iff (hsize : size ≤ st.mem.length) :
    TwoStrings st size ↔ nameEnd st size < size ∧ modeEnd st size < size := by
  rw [TwoStrings, two_le_count, nameEnd, modeEnd, nameEnd, strEnd_lt_iff hsize,
    strEnd_lt_iff hsize, List.drop_drop, strEnd, Nat.add_assoc]

/-- A string that does not end in the packet ends at its end, or where it is begun behind it. -/
theorem strEnd_le : strEnd mem size cp ≤ max cp size := by
  have := (List.takeWhile_sublist (· ≠ 0) (l := (mem.take size).drop cp)).length_le
  rw [List.length_drop, List.length_take] at this
  rw [strEnd]
  omega

theorem byteAt_zero {a : ℕ} (h : mem[a]? = some 0) : byteAt mem a = 0 := by
  rw [byteAt, List.getD_eq_getElem?_getD, h]
  rfl

theorem opcode_small {a : ℕ} (h : opcode mem < 65) (ha : a < 2) : byteAt mem a < 65 := by
  rw [opcode] at h
  have h1 : ∀ c : UInt8, c.toNat < 65 → c < 65 := fun c hc => UInt8.lt_iff_toNat_lt.mpr hc
  apply h1
  obtain rfl | rfl : a = 0 ∨ a = 1 := by omega
  · omega
  · omega

theorem CaseOnly.opcode (h : CaseOnly mem mem') (hop : opcode mem < 65) :
    opcode mem' = opcode mem := by
  rw [Tftpd.opcode, Tftpd.opcode, h.byteAt (opcode_small hop (by decide)),
    h.byteAt (opcode_small hop (by decide))]

variable {s : Tftpd}

theorem takeTimeout_spec (size : ℕ) (hcase : CaseOnly mem s.mem) :
    ((takeTimeout s).1 ≤ size ↔
      ∀ p, (s.options .timeout).oRequest = some p → atoiReach mem p ≤ size) ∧
    ((takeTimeout s).2 = none ∧ (¬ ∀ p, (s.options .timeout).oRequest = some p →
        1 ≤ number mem p ∧ number mem p ≤ 255) ∨
      ∃ s', (takeTimeout s).2 = some s' ∧ (∀ p, (s.options .timeout).oRequest = some p →
        1 ≤ number mem p ∧ number mem p ≤ 255) ∧ s'.mem = s.mem ∧ s'.secure = s.secure ∧
          s'.options .blksize = s.options .blksize ∧ s'.options .tsize = s.options .tsize) := by
  rw [takeTimeout]
  cases hreq : (s.options .timeout).oRequest with
  | none => simp
  | some p =>
    simp only [Option.some.injEq, forall_eq', hcase.atoiReach, hcase.number]
    refine ⟨trivial, ?_⟩
    by_cases hbad : number mem p < 1 ∨ 255 < number mem p
    · exact Or.inl ⟨if_pos hbad, by omega⟩
    · right
      rw [if_neg hbad]
      split
      · exact ⟨_, rfl, by omega, rfl, rfl, rfl, rfl⟩
      · exact ⟨_, rfl, by omega, rfl, rfl, rfl, rfl⟩

theorem takeBlksize_spec (size : ℕ) (hcase : CaseOnly mem s.mem) :
    ((takeBlksize s).1 ≤ size ↔
      ∀ p, (s.options .blksize).oRequest = some p → atoiReach mem p ≤ size) ∧
    ((takeBlksize s).2 = none ∧
        (¬ ∀ p, (s.options .blksize).oRequest = some p → 512 ≤ number mem p) ∨
      ∃ s', (takeBlksize s).2 = some s' ∧
        (∀ p, (s.options .blksize).oRequest = some p → 512 ≤ number mem p) ∧ s'.mem = s.mem ∧
          s'.secure = s.secure ∧ s'.options .tsize = s.options .tsize ∧
          (s'.options .blksize).oRequest = (s.options .blksize).oRequest ∧
          ∀ p, (s.options .blksize).oRequest = some p → (s'.options .blksize).oReply =
            (if maxBlksize < number mem p then maxBlksize else (s.options .blksize).oReply) ∧
            s'.pktsize = (s'.options .blksize).oReply + 4) := by
  rw [takeBlksize]
  cases hreq : (s.options .blksize).oRequest with
  | none => exact ⟨by simp, Or.inr ⟨s, rfl, by simp, rfl, rfl, rfl, hreq, by simp⟩⟩
  | some p =>
    simp only [Option.some.injEq, forall_eq', hcase.atoiReach, hcase.number]
    refine ⟨trivial, ?_⟩
    by_cases hbad : number mem p < 512
    · exact Or.inl ⟨if_pos hbad, by omega⟩
    · right
      rw [if_neg hbad]
      exact ⟨_, rfl, by omega, rfl, rfl, rfl, rfl, rfl, rfl⟩

theorem validateAccess_spec {filename : CStr} {n : ℕ} (hcase : CaseOnly mem s.mem)
    (hop : opcode mem < 65) (hexit : filename ≠ ascii "exit") :
    ((validateAccess w s filename).1 ≤ n ↔ (PathOk s filename → opcode mem ≠ opRRQ →
      ∀ p, (s.options .tsize).oRequest = some p → atoiReach mem p ≤ n)) ∧
    ∃ ecode s', (validateAccess w s filename).2 = some (ecode, s') ∧ s'.mem = s.mem ∧
      (ecode = 0 ↔ PathOk s filename ∧ w.opened = 0) ∧
      s'.options .blksize = s.options .blksize ∧ s'.pktsize = s.pktsize := by
  rw [validateAccess, if_neg hexit, hcase.opcode hop]
  by_cases hpath : PathOk s filename
  · have hgo : ¬ (¬ s.secure ∧ (filename.head? ≠ some 47 ∨ ascii "/../" <:+: filename)) := by
      rintro ⟨hopen, hbad⟩
      obtain ⟨hslash, hup⟩ := hpath.resolve_left hopen
      rcases hbad with hbad | hbad
      · exact hbad hslash
      · exact hup hbad
    rw [if_neg hgo]
    cases hreq : (s.options .tsize).oRequest with
    | none => exact ⟨by simp, w.opened, s, rfl, rfl, by simp [hpath], rfl, rfl⟩
    | some p =>
      by_cases hr : opcode mem = opRRQ
      · simp only [if_pos hr]
        exact ⟨by simp [hr], w.opened, _, rfl, rfl, by simp [hpath], rfl, rfl⟩
      · simp only [if_neg hr, hcase.atoiReach]
        exact ⟨by simp [hr, hpath], w.opened, _, rfl, rfl, by simp [hpath], rfl, rfl⟩
  · have hstop : ¬ s.secure ∧ (filename.head? ≠ some 47 ∨ ascii "/../" <:+: filename) := by
      rw [PathOk, not_or, not_and_or, not_not] at hpath
      exact hpath
    rw [if_pos hstop]
    refine ⟨by simp [hpath], eACCESS, s, rfl, rfl, ?_, rfl, rfl⟩
    exact iff_of_false (by decide) fun h => hpath h.1

/-- The operation is gone once options are acknowledged. -/
theorem opcode_oack : opcode (oack s).mem = 1536 := by
  obtain ⟨rest, hrest⟩ : ∃ rest, oackText s.options = 0 :: 6 :: rest := ⟨_, rfl⟩
  rw [oack, hrest]
  rfl

/-- **What is served** once the file is open or not. -/
theorem outcome_right {b : Bool} {e : ℤ} (hmem : opcode s.mem = opcode st.mem)
    (hop : opcode st.mem = opRRQ ∨ opcode st.mem = opWRQ) (hne : opRRQ ≠ opWRQ) {o : Outcome}
    (ho : o = if b ∧ ¬ w.acked then .exited
      else if e ≠ 0 then .nak e
      else if opcode (if b then oack s else s).mem = opWRQ then .recv
      else .send) :
    ((opcode st.mem = opWRQ → o ≠ .send) ∧ (opcode st.mem = opRRQ → o ≠ .recv)) ↔
      (b = true → opcode st.mem = opWRQ → w.acked = true → e ≠ 0) := by
  have hgone : (1536 : ℕ) ≠ opWRQ := by decide
  cases b with
  | true =>
    simp only [true_and, if_true, opcode_oack, if_neg hgone] at ho
    by_cases hacked : w.acked = true
    · by_cases he : e = 0
      · simp [ho, hacked, he]
      · simp [ho, hacked, he]
    · simp [ho, hacked]
  | false =>
    simp only [Bool.false_eq_true, false_and, if_false, hmem] at ho
    by_cases he : e = 0
    · rcases hop with hop | hop
      · simp [ho, he, hop, hne]
      · simp [ho, he, hop, hne.symm]
    · simp [ho, he]

/-- **From `f_validate` on.** -/
theorem answer_right {filename : CStr} {hasOptions : Bool} {reach : ℕ}
    (hcase : CaseOnly st.mem s.mem) (hop : opcode st.mem = opRRQ ∨ opcode st.mem = opWRQ)
    (hblk : ∀ p, (s.options .blksize).oRequest = some p →
      s.pktsize = (s.options .blksize).oReply + 4) :
    ExecRight st size (answer w s filename hasOptions reach) ↔
      reach ≤ size ∧ (filename ≠ ascii "exit" →
        (PathOk s filename → opcode st.mem ≠ opRRQ →
          ∀ p, (s.options .tsize).oRequest = some p → atoiReach st.mem p ≤ size) ∧
        (hasOptions = true → ∀ p, (s.options .blksize).oRequest = some p →
          (s.options .blksize).oReply ≤ number st.mem p ∧ 512 ≤ (s.options .blksize).oReply) ∧
        (hasOptions = true → opcode st.mem = opWRQ → w.acked = true →
          ¬ (PathOk s filename ∧ w.opened = 0))) := by
  have hsmall : opcode st.mem < 65 := by
    rcases hop with h | h <;> rw [h] <;> decide
  by_cases hexit : filename = ascii "exit"
  · have hanswer : answer w s filename hasOptions reach = ⟨s, max reach 0, none, .exited⟩ := by
      rw [answer, validateAccess, if_pos hexit]
    rw [hanswer, Nat.max_zero]
    refine ⟨fun h => ⟨h.reads, fun hne => absurd hexit hne⟩, fun h => ⟨h.1, ?_, ?_, ?_⟩⟩
    · exact fun _ h => by cases h
    · exact fun _ => Outcome.noConfusion
    · exact fun _ => Outcome.noConfusion
  · obtain ⟨hreach, ecode, s', hsome, hmem, hecode, hopt, hpkt⟩ :=
      validateAccess_spec (w := w) (n := size) hcase hsmall hexit
    have hval : validateAccess w s filename = ((validateAccess w s filename).1, some (ecode, s')) :=
      Prod.ext rfl hsome
    have hopcode : opcode s'.mem = opcode st.mem := by rw [hmem, hcase.opcode hsmall]
    have hserved :=
      outcome_right (w := w) (e := ecode) (b := hasOptions) hopcode hop (by decide) rfl
    rw [answer, hval, imp_iff_right hexit, ← hreach, ← not_iff_not.mpr hecode]
    dsimp only
    generalize (validateAccess w s filename).1 = n at *
    refine ⟨fun h => ?_, fun ⟨hle, hn, hb, hw⟩ => ?_⟩
    · have hboth := Nat.max_le.mp h.reads
      refine ⟨hboth.1, hboth.2, fun hhas p hp => ?_, hserved.mp ⟨h.write, h.read⟩⟩
      have := h.blksize s'.options (by simp [hhas]) p (by rw [hopt]; exact hp)
      rw [hopt] at this
      exact ⟨this.1, this.2.1⟩
    · refine ⟨Nat.max_le.mpr ⟨hle, hn⟩, fun options hoptions p hp => ?_, (hserved.mpr hw).1,
        (hserved.mpr hw).2⟩
      cases hasOptions with
      | false => cases hoptions
      | true =>
        cases hoptions
        rw [hopt] at hp ⊢
        refine ⟨(hb rfl p hp).1, (hb rfl p hp).2, ?_⟩
        change _ = s'.pktsize - 4
        rw [hpkt, hblk p hp]
        omega

/-- A request that is refused for a bad value. -/
theorem refused_right {s' : Tftpd} {reach : ℕ} :
    ExecRight st size ⟨s', reach, none, .nak eBADOP⟩ ↔ reach ≤ size := by
  refine ⟨fun h => h.reads, fun h => ⟨h, ?_, ?_, ?_⟩⟩
  · exact fun _ h => by cases h
  · exact fun _ => Outcome.noConfusion
  · exact fun _ => Outcome.noConfusion

/-- **From `option_fail` on.** -/
theorem optionFail_right {filename : CStr} {hasOptions : Bool} {reach : ℕ}
    (hcase : CaseOnly st.mem s.mem) (hop : opcode st.mem = opRRQ ∨ opcode st.mem = opWRQ) :
    ExecRight st size (optionFail w s filename hasOptions reach) ↔
      reach ≤ size ∧
      (∀ p, (s.options .timeout).oRequest = some p → atoiReach st.mem p ≤ size) ∧
      ((∀ p, (s.options .timeout).oRequest = some p →
          1 ≤ number st.mem p ∧ number st.mem p ≤ 255) →
        (∀ p, (s.options .blksize).oRequest = some p → atoiReach st.mem p ≤ size) ∧
        ((∀ p, (s.options .blksize).oRequest = some p → 512 ≤ number st.mem p) →
          filename ≠ ascii "exit" →
          (PathOk s filename → opcode st.mem ≠ opRRQ →
            ∀ p, (s.options .tsize).oRequest = some p → atoiReach st.mem p ≤ size) ∧
          (hasOptions = true → ∀ p, (s.options .blksize).oRequest = some p →
            maxBlksize < number st.mem p ∨
              512 ≤ (s.options .blksize).oReply ∧
                (s.options .blksize).oReply ≤ number st.mem p) ∧
          (hasOptions = true → opcode st.mem = opWRQ → w.acked = true →
            ¬ (PathOk s filename ∧ w.opened = 0)))) := by
  obtain ⟨htimeout, hnext⟩ := takeTimeout_spec size hcase
  rw [optionFail, ← htimeout]
  rcases hnext with ⟨hnone, hbad⟩ | ⟨s1, hsome, hgood, hmem1, hsec1, hblk1, htsize1⟩
  · have hval : takeTimeout s = ((takeTimeout s).1, none) := Prod.ext rfl hnone
    rw [hval]
    refine refused_right.trans (Nat.max_le.trans ?_)
    exact ⟨fun h => ⟨h.1, h.2, fun hok => absurd hok hbad⟩, fun h => ⟨h.1, h.2.1⟩⟩
  · have hval : takeTimeout s = ((takeTimeout s).1, some s1) := Prod.ext rfl hsome
    rw [hval, imp_iff_right hgood]
    dsimp only
    generalize (takeTimeout s).1 = n
    have hcase1 : CaseOnly st.mem s1.mem := by rw [hmem1]; exact hcase
    obtain ⟨hblk, hnext⟩ := takeBlksize_spec size hcase1
    rw [hblk1] at hblk hnext
    rw [← hblk]
    rcases hnext with ⟨hnone, hbad⟩ | ⟨s2, hsome, hgood, hmem2, hsec2, htsize2, hreq, hreply⟩
    · have hval : takeBlksize s1 = ((takeBlksize s1).1, none) := Prod.ext rfl hnone
      rw [hval]
      refine refused_right.trans (Nat.max_le.trans ?_)
      rw [Nat.max_le, and_assoc]
      exact and_congr_right fun _ => and_congr_right fun _ =>
        ⟨fun h => ⟨h, fun hok => absurd hok hbad⟩, fun h => h.1⟩
    · have hval : takeBlksize s1 = ((takeBlksize s1).1, some s2) := Prod.ext rfl hsome
      rw [hval, imp_iff_right hgood]
      dsimp only
      generalize (takeBlksize s1).1 = n'
      have hcase2 : CaseOnly st.mem s2.mem := by rw [hmem2]; exact hcase1
      have hpath : PathOk s2 filename ↔ PathOk s filename := by
        rw [PathOk, PathOk, hsec2, hsec1]
      refine (answer_right hcase2 hop fun p hp => (hreply p (hreq ▸ hp)).2).trans ?_
      rw [hpath, hreq, htsize2, htsize1, Nat.max_le, Nat.max_le, and_assoc, and_assoc]
      refine and_congr_right fun _ => and_congr_right fun _ => and_congr_right fun _ => ?_
      refine forall_congr' fun _ => and_congr_right fun _ => and_congr_left fun _ => ?_
      refine forall_congr' fun _ => forall_congr' fun p => forall_congr' fun hp => ?_
      rw [(hreply p hp).1, maxBlksize]
      split <;> omega

/-! ## §8 Calls -/

/-- Only a value that an earlier request has left can be outside of the packet. -/
theorem asked_inside_iff (hsize : size ≤ st.mem.length) (o : Opt) :
    (∀ p, asked st size o = some p → atoiReach st.mem p ≤ size) ↔
      ((∀ pr ∈ packetPairs st size, pr.1 ≠ o.oType) →
        ∀ p, (st.options o).oRequest = some p → atoiReach st.mem p ≤ size) := by
  constructor
  · intro h hnone p hp
    exact h p (by rw [asked, noteAll_unnamed hnone]; exact hp)
  · intro h p hp
    rcases noteAll_request hp with ⟨pr, hpr, rfl⟩ | ⟨hold, hnone⟩
    · exact pairs_fresh hsize pr hpr
    · exact h hnone p hold

theorem staysInside_iff (hsize : size ≤ st.mem.length) : StaysInside st size ↔
    TwoStrings st size ∧
      (Follows st size .timeout →
        ∀ p, asked st size .timeout = some p → atoiReach st.mem p ≤ size) ∧
      (Follows st size .blksize →
        ∀ p, asked st size .blksize = some p → atoiReach st.mem p ≤ size) ∧
      (Follows st size .tsize →
        ∀ p, asked st size .tsize = some p → atoiReach st.mem p ≤ size) := by
  simp only [asked_inside_iff hsize]
  refine and_congr_right fun _ => ⟨fun h => ?_, fun ⟨htimeout, hblksize, htsize⟩ o p hf hn hp => ?_⟩
  · exact ⟨fun hf hn p hp => h _ p hf hn hp, fun hf hn p hp => h _ p hf hn hp,
      fun hf hn p hp => h _ p hf hn hp⟩
  · cases o with
    | tsize => exact htsize hf hn p hp
    | timeout => exact htimeout hf hn p hp
    | blksize => exact hblksize hf hn p hp

/-- A request of which nothing is served: two strings are in it, and that is all that matters. -/
theorem unknownMode_fits (hsize : size ≤ st.mem.length) (hmode : ¬ KnownMode st size) :
    StaysInside st size ∧ BlksizeFits st size ∧ WriteFits w st size ↔ TwoStrings st size := by
  have hvalid : ¬ Valid st size := fun h => hmode h.1
  rw [staysInside_iff hsize]
  refine ⟨fun h => h.1.1, fun h => ⟨⟨h, ?_, ?_, ?_⟩, ?_, ?_⟩⟩
  · exact fun hf => absurd hf hmode
  · exact fun hf => absurd hf.1 hmode
  · exact fun hf => absurd hf.1 hvalid
  · exact fun hv => absurd hv hvalid
  · exact fun hv => absurd hv hvalid

/-- **A request is handled as it should be exactly when** it has two strings and no value of an
    earlier request is followed out of it, the block size is above 8192 if one is acknowledged, and
    no write request with options comes to a transfer. -/
theorem tftpdExec_exact (w : World) (st : Tftpd) (size : ℕ) (hsize : size ≤ 516)
    (hmem : 516 ≤ st.mem.length) (hop : opcode st.mem = opRRQ ∨ opcode st.mem = opWRQ) :
    ExecRight st size (tftpdExec w st size) ↔
      StaysInside st size ∧ BlksizeFits st size ∧ WriteFits w st size := by
  have hle : size ≤ st.mem.length := Nat.le_trans hsize hmem
  have hname : nameEnd st size ≤ 516 := Nat.le_trans strEnd_le (by omega)
  have hends : modeEnd st size ≤ 517 := Nat.le_trans strEnd_le (by omega)
  have horder : nameEnd st size < modeEnd st size := le_strEnd
  have htwo := @twoStrings_iff size st hle
  have hlast : TwoStrings st size ↔ modeEnd st size + 1 ≤ size := by
    rw [htwo]
    omega
  have hzero : ∀ cp, strEnd st.mem size cp < size → byteAt st.mem (strEnd st.mem size cp) = 0 :=
    fun cp h => byteAt_zero (strEnd_zero hle h)
  rw [tftpdExec]
  dsimp only
  by_cases h1 : byteAt st.mem (nameEnd st size) = 0
  · have hfits1 : ¬ (byteAt st.mem (nameEnd st size) ≠ 0 ∨ maxPathLen ≤ nameEnd st size - 2) := by
      rw [maxPathLen]
      rintro (h | h)
      · exact h h1
      · omega
    rw [if_neg hfits1]
    by_cases h2 : byteAt st.mem (modeEnd st size) = 0
    · have hfits2 : ¬ (byteAt st.mem (modeEnd st size) ≠ 0 ∨
          maxPathLen ≤ modeEnd st size - 2) := by
        rw [maxPathLen]
        rintro (h | h)
        · exact h h2
        · omega
      rw [if_neg hfits2, text_lowered]
      by_cases hmode : KnownMode st size
      · have hknown := hmode
        rw [KnownMode] at hknown
        rw [if_neg (not_not_intro hknown)]
        obtain ⟨hcase, hoptions, hhas, hreach⟩ := @parseOptions_eq st.mem size
          (modeEnd st size) size ⟨lowered st.mem (nameEnd st size + 1)
            (modeEnd st size), st.options, false, modeEnd st size + 1⟩ caseOnly_lowered
        rw [optionFail_right hcase hop, hoptions, hreach, ← hlast, hhas, Bool.false_or]
        simp only [noteAll_reply]
        change _ ∧ (∀ p, asked st size .timeout = some p → _) ∧ (TimeoutOk st size →
          (∀ p, asked st size .blksize = some p → _) ∧ (BlksizeOk st size → _)) ↔ _
        have hany : (packetPairs st size).any (knownOption ·.1) = true ↔ HasOptions st size :=
          List.any_eq_true
        rw [staysInside_iff hle]
        constructor
        · rintro ⟨hstrings, htimeout, hrest⟩
          have hvalid : Valid st size → _ := fun hv => (hrest hv.2.1).2 hv.2.2.1 hv.2.2.2
          refine ⟨⟨hstrings, fun _ => htimeout, fun hf => (hrest hf.2).1, fun hf => ?_⟩, ?_, ?_⟩
          · exact (hvalid hf.1).1 hf.2.1 hf.2.2
          · exact fun hv hhas => (hvalid hv).2.1 (hany.mpr hhas)
          · exact fun hv hhas => (hvalid hv).2.2 (hany.mpr hhas)
        · rintro ⟨⟨hstrings, htimeout, hblksize, htsize⟩, hfits, hwrite⟩
          refine ⟨hstrings, htimeout hmode, fun htok => ⟨hblksize ⟨hmode, htok⟩, ?_⟩⟩
          intro hbok hexit
          have hv : Valid st size := ⟨hmode, htok, hbok, hexit⟩
          exact ⟨fun hp hr => htsize ⟨hv, hp, hr⟩, fun hhas => hfits hv (hany.mp hhas),
            fun hhas => hwrite hv (hany.mp hhas)⟩
      · have hunknown := hmode
        rw [KnownMode] at hunknown
        rw [if_pos hunknown, refused_right, unknownMode_fits hle hmode, hlast]
    · rw [if_pos (Or.inl h2), refused_right]
      have hout : ¬ modeEnd st size < size := mt (hzero _) h2
      exact iff_of_false (fun h => hout h) fun h => hout (htwo.mp h.1.1).2
  · rw [if_pos (Or.inl h1), refused_right]
    have hout : ¬ nameEnd st size < size := mt (hzero _) h1
    exact iff_of_false (fun h => hout h) fun h => hout (htwo.mp h.1.1).1

/-- A server that has just been started, with a packet in `cmdbuf`. -/
def freshServer (packet : List UInt8) : Tftpd where
  mem := packet ++ List.replicate (516 - packet.length) 0
  options := fun _ => ⟨none, 0⟩
  rexmtval := 5
  maxRexmtval := 10
  pktsize := 516
  secure := false

theorem length_freshServer (packet : List UInt8) : 516 ≤ (freshServer packet).mem.length := by
  rw [freshServer, List.length_append, List.length_replicate]
  omega

/-- A file that can be opened, and a client that answers. -/
def goodWorld : World := ⟨0, 0, true⟩

/-- To write `/f` in blocks of 1024 bytes. -/
def writeRequest : List UInt8 :=
  [2, 0] ++ (ascii "/f" ++ [0] ++ ascii "octet" ++ [0] ++ ascii "blksize" ++ [0] ++ ascii "1024" ++
    [0])

/-- It is acknowledged with a block size of 0, and served by sending. -/
theorem tftpdExec_write :
    (tftpdExec goodWorld (freshServer writeRequest) writeRequest.length).outcome = .send ∧
      ((tftpdExec goodWorld (freshServer writeRequest) writeRequest.length).oacked.map
        fun options => (options .blksize).oReply) = some 0 ∧
      ¬ ExecRight (freshServer writeRequest) writeRequest.length
        (tftpdExec goodWorld (freshServer writeRequest) writeRequest.length) := by
  have hsend : (tftpdExec goodWorld (freshServer writeRequest) writeRequest.length).outcome =
      .send := by decide +kernel
  have hop : opcode (freshServer writeRequest).mem = opWRQ := by decide
  exact ⟨hsend, by decide +kernel, fun h => h.write hop hsend⟩

/-- To read `/f`. -/
def readRequest : List UInt8 := [1, 0] ++ (ascii "/f" ++ [0] ++ ascii "octet" ++ [0])

/-- It is served as it should be. -/
theorem tftpdExec_read : ExecRight (freshServer readRequest) readRequest.length
    (tftpdExec goodWorld (freshServer readRequest) readRequest.length) := by
  have hnone : packetPairs (freshServer readRequest) readRequest.length = [] := by decide +kernel
  have htwo : TwoStrings (freshServer readRequest) readRequest.length := by
    rw [TwoStrings]
    decide
  refine (tftpdExec_exact goodWorld (freshServer readRequest) readRequest.length (by decide)
    (length_freshServer _) (Or.inl (by decide))).mpr ⟨⟨htwo, ?_⟩, ?_, ?_⟩
  · intro o p _ _ hp
    cases hp
  · rintro _ ⟨pr, hpr, -⟩
    rw [hnone] at hpr
    cases hpr
  · rintro _ ⟨pr, hpr, -⟩
    rw [hnone] at hpr
    cases hpr

end Pmon.Netio.Tftpd
