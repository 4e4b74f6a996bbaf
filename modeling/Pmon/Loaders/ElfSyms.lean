import Mathlib.Data.Fintype.Defs
import Pmon.Lib.WordMem
import Pmon.Loaders.Srec

/-!
# Reading the symbols of an ELF file

`elfreadsyms` of `pmon/loaders/exec_elf.c`, with `gettable` and `readtable`.

A file is what `lseek` and `read` make of it; `read` answers with a number and puts bytes into
memory.  `newsym` stands for the symbol table: it is given memory and the address of a name.
Memory answers at every address.  The section headers are an array that goes on behind its end, with
whatever stands there, and `KFLAG`'s copy of it, which no table is taken to overlap, is modelled by
its values.
-/

namespace Pmon.Loaders

open Pmon.Lib Pmon.Libc

/-! ## §1 Headers and tables -/

/-- `KFLAG`: load the symbols for the kernel debugger. -/
def kflag : ℕ := 0x1000

/-- `Elf32_Shdr`, as far as it is read. -/
structure Shdr where
  name : BitVec 32
  type : BitVec 32
  offset : BitVec 32
  size : BitVec 32
  link : BitVec 32
  info : BitVec 32
  entsize : BitVec 32

/-- `Elf32_Ehdr`, as far as it is read. -/
structure Ehdr where
  shnum : ℕ
  shstrndx : ℕ

/-- A file: where `lseek` leaves it, and what `read` returns and puts into memory. -/
structure ElfFile (τ : Type) where
  lseek : τ → BitVec 32 → BitVec 32 × τ
  read : τ → BitVec 32 → BitVec 32 × List UInt8 × τ

/-- `shstrtab`, `symtab` and `strtab`. -/
inductive Table where
  | shstr
  | sym
  | str
deriving DecidableEq

instance : Fintype Table := ⟨{.shstr, .sym, .str}, fun t => by cases t <;> decide⟩

/-- What the loop over the tables changes.  `reads` tells which tables `readtable` has read, with
    their places and sizes. -/
structure TabState (τ : Type) where
  shtab : ℕ → Shdr
  offs : BitVec 32
  mem : Mem
  fd : τ
  reads : List (Table × BitVec 32 × BitVec 32)

/-- The variables that the loop only reads: the indices of the headers `shstrh`, `sh` and `strh`,
    and where the tables are to go. -/
structure SymTabs where
  shstrndx : ℕ
  symndx : ℕ
  strndx : ℕ
  nsym : BitVec 32
  size : BitVec 32
  shstrtab : BitVec 32
  strtab : BitVec 32
  symtab : BitVec 32

variable {τ σ : Type}

/-- `roundup(x, 4)`. -/
def roundup4 (x : BitVec 32) : BitVec 32 := (x + 3) / 4 * 4

/-- `gettable`: the table's place, and `tablebase`. -/
def gettable (maxaddr size : BitVec 32) (flags : ℕ) (tablebase : BitVec 32) :
    BitVec 32 × BitVec 32 :=
  if ! hasFlag flags kflag then
    let base := (tablebase - size) &&& ~~~7#32
    if base < maxaddr then (0, tablebase) else (base, base)
  else
    let tablebase := roundup4 tablebase
    (tablebase, tablebase + size)

/-- `readtable`, where an error is its null pointer. -/
def readtable (file : ElfFile τ) (table : Table) (offs base size : BitVec 32) (s : TabState τ) :
    Except (TabState τ) (TabState τ) :=
  match file.lseek s.fd offs with
  | (pos, fd) =>
    if pos ≠ offs then .error { s with fd }
    else
      match file.read fd size with
      | (n, bytes, fd) =>
        let s := { s with fd, mem := s.mem.storeMod base.toNat bytes }
        if n ≠ size then .error s
        else .ok { s with reads := s.reads ++ [(table, base, size)] }

/-! ## §2 The loop over the tables -/

/-- The offset of a table that has been dealt with. -/
def readOffset : BitVec 32 := 0x7fffffff

/-- `h->sh_offset = 0x7fffffff`. -/
def setRead (shtab : ℕ → Shdr) (i : ℕ) : ℕ → Shdr :=
  Function.update shtab i { shtab i with offset := readOffset }

/-- The offset by which the loop knows a table. -/
def tableOffset (t : SymTabs) (s : TabState τ) : Table → BitVec 32
  | .shstr => (s.shtab t.shstrndx).offset
  | .sym => s.offs
  | .str => (s.shtab t.strndx).offset

/-- `strcpy` of a name into `shstrtab`. -/
def copyName (t : SymTabs) (m : Mem) (i : BitVec 32) (name : CStr) : Mem :=
  m.storeMod (t.shstrtab + i).toNat (name ++ [0])

/-- What is done about a table whose turn it is. -/
def dealWith (file : ElfFile τ) (t : SymTabs) : Table → TabState τ →
    Except (TabState τ) (TabState τ)
  | .shstr, s =>
    let shstrh := s.shtab t.shstrndx
    let m := s.mem.storeMod t.shstrtab.toNat (List.replicate shstrh.size.toNat 0)
    let m := copyName t m shstrh.name (ascii ".shstrtab")
    let m := copyName t m (s.shtab t.strndx).name (ascii ".strtab")
    let m := copyName t m (s.shtab t.symndx).name (ascii ".symtab")
    .ok { s with mem := m, shtab := setRead s.shtab t.shstrndx }
  | .sym, s =>
    match readtable file .sym s.offs t.symtab t.size s with
    | .error s => .error s
    | .ok s => .ok { s with offs := readOffset }
  | .str, s =>
    match readtable file .str (s.shtab t.strndx).offset t.strtab (s.shtab t.strndx).size s with
    | .error s => .error s
    | .ok s => .ok { s with shtab := setRead s.shtab t.strndx }

/-- One `if` of the loop: a table is dealt with when its offset is below those of the two others. -/
def tableTurn (file : ElfFile τ) (t : SymTabs) (table other₁ other₂ : Table) (s : TabState τ) :
    Except (TabState τ) (TabState τ) :=
  if tableOffset t s table < tableOffset t s other₁ ∧
      tableOffset t s table < tableOffset t s other₂ then
    dealWith file t table s
  else .ok s

/-- The body of the loop. -/
def tablePass (file : ElfFile τ) (t : SymTabs) (s : TabState τ) :
    Except (TabState τ) (TabState τ) :=
  match tableTurn file t .shstr .sym .str s with
  | .error s => .error s
  | .ok s =>
    match tableTurn file t .sym .str .shstr s with
    | .error s => .error s
    | .ok s => tableTurn file t .str .sym .shstr s

/-- The loop; an error is the `return (0)` of a table that cannot be read. -/
def tableLoop (file : ElfFile τ) (t : SymTabs) :
    ℕ → TabState τ → Option (Except (TabState τ) (TabState τ))
  | 0, _ => none
  | fuel + 1, s =>
    match tablePass file t s with
    | .error s => some (.error s)
    | .ok s =>
      if tableOffset t s .sym = readOffset ∧ tableOffset t s .str = readOffset ∧
          tableOffset t s .shstr = readOffset then some (.ok s)
      else tableLoop file t fuel s

/-! ## §3 The symbols -/

/-- `Elf32_Sym`, as far as it is read. -/
structure ElfSym where
  name : BitVec 32
  value : BitVec 32
  info : UInt8
  shndx : ℕ

namespace ElfSym

/-- `ELF_ST_BIND` and `ELF_ST_TYPE`. -/
def bind (sym : ElfSym) : ℕ := sym.info.toNat / 16

def type (sym : ElfSym) : ℕ := sym.info.toNat % 16

/-- Undefined and common symbols, and those of sections and files, are passed over. -/
def Skipped (sym : ElfSym) : Prop :=
  (sym.shndx = 0 ∨ sym.shndx = 0xfff2) ∨ (sym.type = 3 ∨ sym.type = 4)

/-- The check of the string pointer, which only globals and functions get. -/
def Corrupt (sym : ElfSym) (strsize : BitVec 32) : Prop :=
  (sym.bind = 1 ∨ sym.type = 2) ∧ sym.name ≥ strsize

instance (sym : ElfSym) : Decidable sym.Skipped := inferInstanceAs (Decidable (_ ∨ _))

instance (sym : ElfSym) (strsize : BitVec 32) : Decidable (sym.Corrupt strsize) :=
  inferInstanceAs (Decidable (_ ∧ _))

end ElfSym

/-- The symbol at an address. -/
def symAt (m : Mem) (p : BitVec 32) : ElfSym where
  name := BitVec.ofNat 32 (m.word p.toNat)
  value := BitVec.ofNat 32 (m.word (p + 4).toNat)
  info := m (p + 12).toNat
  shndx := m.half (p + 14).toNat

/-- The loop over `n` symbols: what is returned, the symbol table, and the strings that `newsym`
    was given. -/
def symLoop (newsym : σ → Mem → BitVec 32 → BitVec 32 → Option σ) (m : Mem)
    (strtab strsize : BitVec 32) : ℕ → BitVec 32 → σ → Bool × σ × List (BitVec 32)
  | 0, _, syms => (true, syms, [])
  | n + 1, p, syms =>
    let sym := symAt m p
    if sym.Skipped then symLoop newsym m strtab strsize n (p + 16) syms
    else if sym.Corrupt strsize then (false, syms, [])
    else
      match newsym syms m (strtab + sym.name) sym.value with
      | none => (false, syms, [strtab + sym.name])
      | some syms =>
        let (ret, syms, calls) := symLoop newsym m strtab strsize n (p + 16) syms
        (ret, syms, (strtab + sym.name) :: calls)

/-! ## §4 elfreadsyms -/

/-- What `KFLAG` leaves for the kernel: where the header is, the section headers, and the end of
    the symbols. -/
structure KernelSyms where
  keh : BitVec 32
  shtab : ℕ → Shdr
  symend : BitVec 32

/-- What `elfreadsyms` leaves behind when it returns. -/
structure ElfSyms (τ σ : Type) where
  ret : Bool
  tabs : TabState τ
  tablebase : BitVec 32
  syms : σ
  calls : List (BitVec 32)
  kernel : Option KernelSyms

/-- How `elfreadsyms` ends: the division by `sh_entsize` traps on zero. -/
inductive ElfOutcome (τ σ : Type) where
  | trap
  | ret (r : ElfSyms τ σ)

/-- The first header of a symbol table. -/
def symtabIndex (eh : Ehdr) (shtab : ℕ → Shdr) : Option ℕ :=
  (List.range eh.shnum).find? fun i => (shtab i).type = 2

/-- Where `KFLAG` puts the ELF header, and `tablebase` behind the section headers. -/
def kernelPlaces (eh : Ehdr) (tablebase : BitVec 32) : BitVec 32 × BitVec 32 :=
  let keh := roundup4 tablebase + 8
  let ksh := roundup4 (keh + 52)
  (keh, ksh + roundup4 (BitVec.ofNat 32 (40 * eh.shnum)))

/-- The tables and where they go, with `offs` and `tablebase`. -/
def symTabs (eh : Ehdr) (shtab : ℕ → Shdr) (flags : ℕ) (maxaddr tablebase : BitVec 32) (i : ℕ) :
    SymTabs × BitVec 32 × BitVec 32 :=
  let sh := shtab i
  let strndx := sh.link.toNat
  let all := sh.size / sh.entsize
  let nsym := if hasFlag flags kflag then all else all - sh.info
  let offs := if hasFlag flags kflag then sh.offset else sh.offset + sh.info * sh.entsize
  let size := if hasFlag flags kflag then sh.size else nsym * sh.entsize
  let tablebase := if hasFlag flags kflag then (kernelPlaces eh tablebase).2 else tablebase
  let (shstrtab, tablebase) := gettable maxaddr (shtab eh.shstrndx).size flags tablebase
  let (strtab, tablebase) := gettable maxaddr (shtab strndx).size flags tablebase
  let (symtab, tablebase) := gettable maxaddr size flags tablebase
  ({ shstrndx := eh.shstrndx, symndx := i, strndx, nsym, size, shstrtab, strtab, symtab },
    offs, tablebase)

/-- The kernel's section headers: the tables' places as offsets from `keh`. -/
def kernelShtab (t : SymTabs) (keh : BitVec 32) (shtab : ℕ → Shdr) : ℕ → Shdr :=
  let set shtab i place := Function.update shtab i { shtab i with offset := place - keh }
  set (set (set shtab t.shstrndx t.shstrtab) t.strndx t.strtab) t.symndx t.symtab

/-- `elfreadsyms`; no outcome means that the loop over the tables has not ended yet. -/
def elfreadsyms (file : ElfFile τ) (newsym : σ → Mem → BitVec 32 → BitVec 32 → Option σ)
    (maxaddr : BitVec 32) (eh : Ehdr) (shtab : ℕ → Shdr) (flags : ℕ) (tablebase : BitVec 32)
    (m : Mem) (fd : τ) (syms : σ) (fuel : ℕ) : Option (ElfOutcome τ σ) :=
  match symtabIndex eh shtab with
  | none =>
    let tablebase :=
      if hasFlag flags kflag then (kernelPlaces eh tablebase).2 else tablebase
    some (.ret ⟨false, ⟨shtab, 0, m, fd, []⟩, tablebase, syms, [], none⟩)
  | some i =>
    if (shtab i).entsize = 0 then some .trap
    else
      let (t, offs, tablebase') := symTabs eh shtab flags maxaddr tablebase i
      match tableLoop file t fuel ⟨shtab, offs, m, fd, []⟩ with
      | none => none
      | some (.error s) => some (.ret ⟨false, s, tablebase', syms, [], none⟩)
      | some (.ok s) =>
        if hasFlag flags kflag then
          let keh := (kernelPlaces eh tablebase).1
          some (.ret ⟨true, s, tablebase', syms, [],
            some ⟨keh, kernelShtab t keh s.shtab, roundup4 (t.symtab + t.size)⟩⟩)
        else
          let (ret, syms, calls) := symLoop newsym s.mem t.strtab (s.shtab t.strndx).size
            t.nsym.toInt.toNat t.symtab syms
          some (.ret ⟨ret, s, tablebase', syms, calls, none⟩)

end Pmon.Loaders
