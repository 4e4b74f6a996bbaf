import Pmon.Lib.Buckets
import Pmon.Libc.Strings

/-!
# The symbol table

`pmon/cmds/sym.c`: a chained hash table of symbols, and two arrays of pointers to them, sorted
by name and by value, that are made when they are needed and thrown away when the table
changes.

Pointers are addresses.  An array holds addresses only, so what it says about a symbol is what
the table says at the time it is looked at.  `behind` is what a comparison of two empty names
finds, which reads the memory behind their NULs.
-/

namespace Pmon.Cmds

open Pmon.Libc Pmon.Lib.Buckets

/-! ## §1 Data -/

/-- `NHASH`. -/
def nhash : ℕ := 127

/-- `Sym`, with its address in place of `next`. -/
structure Sym where
  addr : ℕ
  name : CStr
  value : ℕ
  deriving DecidableEq

/-- `ALPHA` and `NUMERIC`. -/
inductive SortType where
  | alpha
  | numeric
  deriving DecidableEq

/-- `type ^ 1`. -/
def SortType.other : SortType → SortType
  | .alpha => .numeric
  | .numeric => .alpha

/-- A sorted array.  `builtAt` is not in the source: it records how many changes the table had
    seen when the array was sorted. -/
structure SymArray where
  syms : List ℕ
  builtAt : ℕ

structure State where
  symhash : Fin nhash → List Sym
  symsort : SortType → Option SymArray
  maxsymlen : ℕ
  nsyms : ℕ
  /-- How often the table changed; not in the source. -/
  changes : ℕ

/-- Before the first call. -/
def State.init : State where
  symhash _ := []
  symsort _ := none
  maxsymlen := 0
  nsyms := 0
  changes := 0

/-- All symbols, in the order in which the table is walked. -/
def State.syms (s : State) : List Sym := elems s.symhash

/-- What a pointer points to. -/
def State.deref (s : State) (p : ℕ) : Option Sym := s.syms.find? (·.addr == p)

/-- `p->name`. -/
def State.nameAt (s : State) (p : ℕ) : CStr := ((s.deref p).map (·.name)).getD []

/-- `p->value`. -/
def State.valueAt (s : State) (p : ℕ) : ℕ := ((s.deref p).map (·.value)).getD 0

/-! ## §2 Hashing and comparison -/

/-- One turn of `strhash`, in 32 bits; `char` is signed. -/
def strhashStep (h : ℕ) (c : UInt8) : ℕ :=
  let h := (h * 16 + (if c < 128 then c.toNat else 4294967040 + c.toNat)) % 4294967296
  if 0x0fffffff < h then (h ^^^ ((h >>> 24) &&& 0xf0)) &&& 0x0fffffff else h

/-- `strhash`. -/
def strhash (s : CStr) : ℕ := s.foldl strhashStep 0

/-- `strhash(name) % NHASH`. -/
def bucket (name : CStr) : Fin nhash := ⟨strhash name % nhash, Nat.mod_lt _ (by decide)⟩

/-- `name[0] == sym->name[0] && !strcmp(name+1, sym->name+1)`.  Two empty names are compared
    behind their ends. -/
def sameName (behind : Bool) : CStr → CStr → Bool
  | [], [] => behind
  | c :: cs, d :: ds => c == d && cs == ds
  | _, _ => false

/-- `namecmp`. -/
def namecmp (s : State) (p q : ℕ) : ℤ := strcmp (s.nameAt p) (s.nameAt q)

/-- `valcmp`. -/
def valcmp (s : State) (p q : ℕ) : ℤ :=
  if s.valueAt p < s.valueAt q then -1 else if s.valueAt q < s.valueAt p then 1 else 0

/-- The comparison that `getsort` sorts with. -/
def sortcmp (s : State) : SortType → ℕ → ℕ → ℤ
  | .alpha => namecmp s
  | .numeric => valcmp s

/-- A comparison function that `qsort` may be given. -/
structure Comparison (cmp : ℕ → ℕ → ℤ) : Prop where
  neg : ∀ p q, cmp q p = -cmp p q
  trans : ∀ p q r, cmp p q ≤ 0 → cmp q r ≤ 0 → cmp p r ≤ 0

/-- `qsort`: the elements it is given, in ascending order; in which order it leaves equal ones
    is not said. -/
structure Qsort where
  sort : (ℕ → ℕ → ℤ) → List ℕ → List ℕ
  perm : ∀ cmp l, (sort cmp l).Perm l
  pairwise : ∀ cmp l, Comparison cmp → (sort cmp l).Pairwise fun p q => cmp p q ≤ 0

/-! ## §3 Sorted arrays -/

/-- `flushsort`. -/
def flushsort (s : State) (type : SortType) : State :=
  { s with symsort := Function.update s.symsort type none }

/-- `getsort`; `malloc` is whether there is memory for the array. -/
def getsort (qsort : Qsort) (s : State) (malloc : Bool) (type : SortType) :
    Option (List ℕ) × State :=
  if s.nsyms = 0 then (none, s)
  else
    match s.symsort type with
    | some arr => (some arr.syms, s)
    | none =>
      let (syms, s) : Option (List ℕ) × State :=
        if malloc then (some (s.syms.map (·.addr)), s)
        else
          match s.symsort type.other with
          -- take over other list
          | some arr => (some arr.syms, { s with symsort := Function.update s.symsort type.other none })
          | none => (none, s)
      match syms with
      | none => (none, s)
      | some syms =>
        let syms := qsort.sort (sortcmp s type) syms
        (some syms, { s with symsort := Function.update s.symsort type (some ⟨syms, s.changes⟩) })

/-! ## §4 Lookups -/

/-- `getsymbyname`. -/
def getsymbyname (s : State) (behind : Sym → Bool) (name : CStr) : Option Sym :=
  if s.nsyms = 0 then none
  else (s.symhash (bucket name)).find? fun sym => sameName (behind sym) name sym.name

/-- The search of `getsymbyvalue` without an array. -/
def bestsymLoop (addr : ℕ) : List Sym → Option Sym → Option Sym
  | [], bestsym => bestsym
  | sym :: syms, bestsym =>
    if sym.value = addr then some sym
    else if sym.value < addr ∧ bestsym.all (·.value < sym.value) then
      bestsymLoop addr syms (some sym)
    else bestsymLoop addr syms bestsym

/-- The binary search of `getsymbyvalue`: the final `hi`, where the turns suffice. -/
def bisectLoop (value : ℕ → ℕ) (addr : ℕ) : ℕ → ℕ → ℕ → Option ℕ
  | 0, _, _ => none
  | turns + 1, lo, hi =>
    if addr < value hi then
      let mid := (lo + hi) / 2
      if lo = mid ∨ addr ≤ value mid then bisectLoop value addr turns lo mid
      else bisectLoop value addr turns mid hi
    else some hi

/-- `getsymbyvalue`: a pointer to the symbol. -/
def getsymbyvalue (qsort : Qsort) (s : State) (malloc : Bool) (addr : ℕ) : Option ℕ × State :=
  if s.nsyms = 0 then (none, s)
  else
    match getsort qsort s malloc .numeric with
    | (none, s) => ((bestsymLoop addr s.syms none).map (·.addr), s)
    | (some syms, s) =>
      let value i := s.valueAt (syms.getD i 0)
      if addr < value 0 then (none, s)
      else ((bisectLoop value addr s.nsyms 0 (s.nsyms - 1)).map (syms.getD · 0), s)

/-! ## §5 Changes -/

/-- `sym->value = value`, for the symbol at an address. -/
def setValue (p value : ℕ) (sym : Sym) : Sym :=
  if sym.addr = p then { sym with value } else sym

/-- `newsym`; `malloc` is the address of the new symbol. -/
def newsym (s : State) (behind : Sym → Bool) (malloc : Option ℕ) (name : CStr) (value : ℕ) :
    Bool × State :=
  let h := bucket name
  match (s.symhash h).find? fun sym => sameName (behind sym) name sym.name with
  | some sym =>
    if sym.value ≠ value then
      (true, flushsort
        { s with
          symhash := Function.update s.symhash h ((s.symhash h).map (setValue sym.addr value))
          changes := s.changes + 1 } .numeric)
    else (true, s)
  | none =>
    let s := flushsort (flushsort s .alpha) .numeric
    match malloc with
    | none => (false, s)
    | some addr =>
      (true,
        { s with
          symhash := Function.update s.symhash h (⟨addr, name, value⟩ :: s.symhash h)
          maxsymlen := max s.maxsymlen name.length
          nsyms := s.nsyms + 1
          changes := s.changes + 1 })

/-- `clrsyms`. -/
def clrsyms (s : State) : State :=
  let s := flushsort (flushsort { s with symhash := fun _ => [] } .alpha) .numeric
  { s with maxsymlen := 0, nsyms := 0, changes := s.changes + 1 }

end Pmon.Cmds
