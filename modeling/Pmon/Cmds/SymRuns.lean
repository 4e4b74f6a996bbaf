import Pmon.Lib.Run
import Pmon.Cmds.SymTable

/-!
# Runs of the symbol table

Definitions, clearing, lookups by name and by value and listings, in any order, any of which
may find no memory.  What the calls mean is the map `defined`: the last value each name was
given since the table was cleared.

## Key results

- `run_holding`: the table holds that map after every run.
- `symtab_exact`: unique names, the count, the lookups, and no array that is out of date.
- `getsymbyvalue_exact`: the lookup by value, with an array or without, on every table.
- `empty_name_twice`: with the empty name the lookups by name fail.
-/

namespace Pmon.Cmds

open Pmon.Libc Pmon.Lib

variable {s s' : State} {m : CStr → Option ℕ} {qsort : Qsort}

/-! ## §1 Calls -/

/-- The calls, with the memory they are given and how empty names compare. -/
inductive Op where
  | newsym (name : CStr) (value : ℕ) (malloc : Option ℕ) (behind : Sym → Bool)
  | clrsyms
  | getsymbyname (name : CStr) (behind : Sym → Bool)
  | getsymbyvalue (addr : ℕ) (malloc : Bool)
  /-- `firstsym`, of the command that lists the symbols. -/
  | firstsym (type : SortType) (malloc : Bool)

/-- One call: whether it reports success, and the state. -/
def exec (qsort : Qsort) (s : State) : Op → Bool × State
  | .newsym name value malloc behind => newsym s behind malloc name value
  | .clrsyms => (true, clrsyms s)
  | .getsymbyname name behind => ((getsymbyname s behind name).isSome, s)
  | .getsymbyvalue addr malloc =>
    let (p, s) := getsymbyvalue qsort s malloc addr
    (p.isSome, s)
  | .firstsym type malloc =>
    let (syms, s) := getsort qsort s malloc type
    (syms.isSome, s)

/-- A call with its result; a block that `malloc` hands out is not in use. -/
def SymStep (qsort : Qsort) (s : State) (l : Op × Bool) (s' : State) : Prop :=
  exec qsort s l.1 = (l.2, s') ∧
    ∀ name value addr behind, l.1 = .newsym name value (some addr) behind →
      addr ∉ s.syms.map (·.addr)

/-- What a call does to the map that the table stands for. -/
def define (m : CStr → Option ℕ) : Op × Bool → CStr → Option ℕ
  | (.newsym name value _ _, true) => Function.update m name (some value)
  | (.clrsyms, _) => fun _ => none
  | _ => m

/-- The last value each name was given since the table was cleared. -/
def defined (ls : List (Op × Bool)) : CStr → Option ℕ := ls.foldl define fun _ => none

/-- The condition on one call: the name that is looked for compares properly. -/
def OpOk (s : State) (l : Op × Bool) : Prop :=
  match l.1 with
  | .newsym name _ _ behind => NameOk s behind name
  | _ => True

/-! ## §2 Runs -/

/-- **One call.** -/
theorem symStep_holding {l : Op × Bool} (h : Holding s m) (hstep : SymStep qsort s l s')
    (hok : OpOk s l) : Holding s' (define m l) := by
  obtain ⟨op, ok⟩ := l
  obtain ⟨hexec, hfresh⟩ := hstep
  dsimp only at hexec hfresh
  cases op with
  | newsym name value malloc behind =>
    have hnew := newsym_holding malloc value h hok fun addr haddr =>
      hfresh name value addr behind (haddr ▸ rfl)
    rw [exec] at hexec
    rw [hexec] at hnew
    cases ok <;> exact hnew
  | clrsyms =>
    cases hexec
    exact clrsyms_holding s
  | getsymbyname name behind =>
    cases hexec
    exact h
  | getsymbyvalue addr malloc =>
    obtain ⟨hsame, hlisting, -⟩ := getsymbyvalue_closest qsort malloc addr h.listing
    cases hexec
    exact (hsame.table h.toTable).holding_of_listing hlisting
  | firstsym type malloc =>
    have hget := getsort_holding qsort malloc type h
    cases hexec
    exact hget

theorem run_holding {ls : List (Op × Bool)} (h : Holding s m)
    (hrun : Run (Guarded (SymStep qsort) OpOk) s ls s') : Holding s' (ls.foldl define m) := by
  induction hrun generalizing m with
  | nil => exact h
  | cons hl _ ih => exact ih (symStep_holding h hl.1 hl.2)

/-- **The symbol table**, after any run of calls whose names compare properly: names are unique
    and counted; a lookup by name finds the last value the name was given; a lookup by value
    uses no array but one that lists the table as it is, sorted after its last change, and
    finds the closest symbol. -/
theorem symtab_exact (qsort : Qsort) (ls : List (Op × Bool)) (s : State)
    (hrun : Run (Guarded (SymStep qsort) OpOk) State.init ls s) :
    (s.syms.map (·.name)).Nodup ∧
    s.nsyms = s.syms.length ∧
    (∀ name behind, NameOk s behind name →
      (getsymbyname s behind name).map (·.value) = defined ls name) ∧
    (∀ malloc syms, (getsort qsort s malloc .numeric).1 = some syms →
      Current s .numeric syms ∧
        ∃ arr, (getsort qsort s malloc .numeric).2.symsort .numeric = some arr ∧
          arr.syms = syms ∧ arr.builtAt = s.changes) ∧
    ∀ malloc addr, ∃ best, (getsymbyvalue qsort s malloc addr).1 = best.map (·.addr) ∧
      Closest s.syms addr best := by
  have h : Holding s (defined ls) := run_holding holding_init hrun
  refine ⟨h.names, h.count, fun name behind hok => getsymbyname_holding h.toTable hok,
    fun malloc syms hsyms => ?_,
    fun malloc addr => (getsymbyvalue_closest qsort malloc addr h.listing).2.2⟩
  obtain ⟨hcur, arr, harr, hsyms', hbuilt⟩ :=
    (getsort_listing qsort malloc .numeric h.listing).2.2 syms hsyms
  exact ⟨hcur, arr, harr, hsyms', hbuilt rfl⟩

/-! ## §3 Lookups by value -/

/-- One call, with any name. -/
theorem symStep_listing {l : Op × Bool} (h : Listing s) (hstep : SymStep qsort s l s') :
    Listing s' := by
  obtain ⟨op, ok⟩ := l
  obtain ⟨hexec, hfresh⟩ := hstep
  dsimp only at hexec hfresh
  cases op with
  | newsym name value malloc behind =>
    have hnew := newsym_listing behind malloc name value h fun addr haddr =>
      hfresh name value addr behind (haddr ▸ rfl)
    rw [exec] at hexec
    rwa [hexec] at hnew
  | clrsyms =>
    cases hexec
    exact (clrsyms_holding s).listing
  | getsymbyname name behind =>
    cases hexec
    exact h
  | getsymbyvalue addr malloc =>
    have hget := (getsymbyvalue_closest qsort malloc addr h).2.1
    cases hexec
    exact hget
  | firstsym type malloc =>
    have hget := (getsort_listing qsort malloc type h).2.1
    cases hexec
    exact hget

theorem run_listing {ls : List (Op × Bool)} (hrun : Run (SymStep qsort) State.init ls s) :
    Listing s :=
  hrun.invariant (fun _ _ _ h hstep => symStep_listing h hstep) holding_init.listing

/-- Two closest symbols have one value. -/
theorem Closest.value_eq {syms : List Sym} {addr : ℕ} {best best' : Option Sym}
    (h : Closest syms addr best) (h' : Closest syms addr best') :
    best.map (·.value) = best'.map (·.value) := by
  cases best with
  | none =>
    cases best' with
    | none => rfl
    | some sym' => exact absurd h'.2.1 (Nat.not_le_of_lt (h sym' h'.1))
  | some sym =>
    cases best' with
    | none => exact absurd h.2.1 (Nat.not_le_of_lt (h' sym h.1))
    | some sym' =>
      have hle := h.2.2 sym' h'.1 h'.2.1
      have hge := h'.2.2 sym h.1 h.2.1
      exact congrArg some (Nat.le_antisymm hge hle)

/-- More turns do not change where the binary search ends. -/
theorem bisectLoop_mono {f : ℕ → ℕ} {addr turns turns' lo hi r : ℕ}
    (h : bisectLoop f addr turns lo hi = some r) (hle : turns ≤ turns') :
    bisectLoop f addr turns' lo hi = some r := by
  induction turns generalizing turns' lo hi with
  | zero => cases h
  | succ turns ih =>
    obtain ⟨turns', rfl⟩ : ∃ n, turns' = n + 1 := ⟨turns' - 1, by omega⟩
    rw [bisectLoop] at h ⊢
    split at h
    · rename_i hhigh
      rw [if_pos hhigh]
      dsimp only at h ⊢
      split at h
      · rename_i hcase
        rw [if_pos hcase]
        exact ih h (by omega)
      · rename_i hcase
        rw [if_neg hcase]
        exact ih h (by omega)
    · rename_i hlow
      rw [if_neg hlow]
      exact h

/-- **The lookup by value**, on every table that calls with any names can make, with memory for an
    array or without: it finds a symbol with the greatest value that is not above the address, the
    value that the search without an array finds; and the binary search ends. -/
theorem getsymbyvalue_exact (qsort : Qsort) (ls : List (Op × Bool)) (s : State)
    (hrun : Run (SymStep qsort) State.init ls s) (malloc : Bool) (addr : ℕ) :
    (∃ best, (getsymbyvalue qsort s malloc addr).1 = best.map (·.addr) ∧
      Closest s.syms addr best ∧
      best.map (·.value) = (bestsymLoop addr s.syms none).map (·.value)) ∧
    ∀ syms, (getsort qsort s malloc .numeric).1 = some syms → s.valueAt (syms.getD 0 0) ≤ addr →
      ∃ r, ∀ turns, s.nsyms ≤ turns →
        bisectLoop (fun i => s.valueAt (syms.getD i 0)) addr turns 0 (s.nsyms - 1) = some r := by
  have h : Listing s := run_listing hrun
  constructor
  · obtain ⟨-, -, best, hbest, hclosest⟩ := getsymbyvalue_closest qsort malloc addr h
    have hseen : Closest [] addr none := fun sym hmem => by simp at hmem
    have hlinear : Closest s.syms addr (bestsymLoop addr s.syms none) :=
      bestsymLoop_closest s.syms hseen fun sym hnone => by cases hnone
    exact ⟨best, hbest, hclosest, hclosest.value_eq hlinear⟩
  · intro syms hsyms hlow
    have hn : s.nsyms ≠ 0 := fun hzero => by simp [getsort, hzero] at hsyms
    have hcur := ((getsort_listing qsort malloc .numeric h).2.2 syms hsyms).1
    obtain ⟨r, sym, hloop, haddr, -⟩ := hcur.bisect h hn hlow (Nat.le_refl _)
    exact ⟨r, fun turns hturns => bisectLoop_mono hloop hturns⟩

/-! ## §4 The empty name -/

/-- A `qsort` that keeps the order of equal elements. -/
def stableQsort : Qsort where
  sort cmp l := l.mergeSort fun p q => decide (cmp p q ≤ 0)
  perm cmp l := List.mergeSort_perm l _
  pairwise cmp l h := by
    let le p q := decide (cmp p q ≤ 0)
    have htrans : ∀ p q r, le p q → le q r → le p r := fun p q r hpq hqr => by
      simp only [le, decide_eq_true_eq] at hpq hqr ⊢
      exact h.trans p q r hpq hqr
    have htotal : ∀ p q, le p q || le q p := fun p q => by
      have hneg := h.neg p q
      simp only [le, Bool.or_eq_true, decide_eq_true_eq]
      omega
    exact (List.pairwise_mergeSort htrans htotal l).imp fun hle => by simpa [le] using hle

/-- Defining `a` and looking it up. -/
theorem symtab_exact_a :
    ∃ s, Run (SymStep stableQsort) State.init
        [(.newsym (ascii "a") 5 (some 100) fun _ => false, true)] s ∧
      (getsymbyname s (fun _ => false) (ascii "a")).map (·.value) = some 5 := by
  have hstep : SymStep stableQsort State.init
      (.newsym (ascii "a") 5 (some 100) fun _ => false, true)
      (newsym State.init (fun _ => false) (some 100) (ascii "a") 5).2 :=
    ⟨rfl, fun _ _ _ _ _ => by simp [State.syms, State.init]⟩
  have hok : ∀ s, NameOk s (fun _ => false) (ascii "a") := fun s h => absurd h (by decide)
  have hrun : Run (Guarded (SymStep stableQsort) OpOk) State.init
      [(.newsym (ascii "a") 5 (some 100) fun _ => false, true)] _ :=
    .cons ⟨hstep, hok _⟩ (.nil _)
  refine ⟨_, .cons hstep (.nil _), ?_⟩
  rw [(symtab_exact stableQsort _ _ hrun).2.2.1 _ _ (hok _)]
  rfl

/-- Two symbols of one value, and an address behind them. -/
theorem getsymbyvalue_exact_two :
    ∃ s, Run (SymStep stableQsort) State.init
        [(.newsym (ascii "a") 5 (some 100) fun _ => false, true),
          (.newsym (ascii "b") 5 (some 200) fun _ => false, true)] s ∧
      ∃ best, (getsymbyvalue stableQsort s true 7).1 = best.map (·.addr) ∧
        Closest s.syms 7 best ∧
        best.map (·.value) = (bestsymLoop 7 s.syms none).map (·.value) := by
  have hfirst : SymStep stableQsort State.init (.newsym (ascii "a") 5 (some 100) fun _ => false, true)
      (newsym State.init (fun _ => false) (some 100) (ascii "a") 5).2 :=
    ⟨rfl, fun _ _ _ _ _ => by simp [State.syms, State.init]⟩
  have hsecond : SymStep stableQsort
      (newsym State.init (fun _ => false) (some 100) (ascii "a") 5).2
      (.newsym (ascii "b") 5 (some 200) fun _ => false, true)
      (newsym (newsym State.init (fun _ => false) (some 100) (ascii "a") 5).2 (fun _ => false)
        (some 200) (ascii "b") 5).2 := by
    refine ⟨rfl, ?_⟩
    rintro _ _ _ _ ⟨⟩
    decide
  have hrun := Run.cons hfirst (.cons hsecond (.nil _))
  exact ⟨_, hrun, (getsymbyvalue_exact stableQsort _ _ hrun true 7).1⟩

/-- The empty name, defined twice, with different bytes behind its end: both calls report
    success, the table has two symbols of one name, and a lookup finds neither. -/
theorem empty_name_twice :
    ∃ s, Run (SymStep stableQsort) State.init
        [(.newsym [] 1 (some 100) fun _ => false, true),
          (.newsym [] 2 (some 200) fun _ => false, true)] s ∧
      s.syms.map (·.name) = [[], []] ∧
      getsymbyname s (fun _ => false) [] = none ∧
      defined [(.newsym [] 1 (some 100) fun _ => false, true),
        (.newsym [] 2 (some 200) fun _ => false, true)] [] = some 2 := by
  have hfirst : SymStep stableQsort State.init (.newsym [] 1 (some 100) fun _ => false, true)
      (newsym State.init (fun _ => false) (some 100) [] 1).2 :=
    ⟨rfl, fun _ _ _ _ _ => by simp [State.syms, State.init]⟩
  have hsecond : SymStep stableQsort (newsym State.init (fun _ => false) (some 100) [] 1).2
      (.newsym [] 2 (some 200) fun _ => false, true)
      (newsym (newsym State.init (fun _ => false) (some 100) [] 1).2 (fun _ => false) (some 200)
        [] 2).2 := by
    refine ⟨rfl, ?_⟩
    rintro _ _ _ _ ⟨⟩
    decide
  exact ⟨_, .cons hfirst (.cons hsecond (.nil _)), by decide, rfl, rfl⟩

end Pmon.Cmds
