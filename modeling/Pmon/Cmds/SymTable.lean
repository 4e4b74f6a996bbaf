import Mathlib.Data.List.GetD
import Mathlib.Data.List.Nodup
import Mathlib.Data.List.Pairwise
import Pmon.Cmds.Sym

/-!
# One operation on the symbol table

The table stands for a map from names to values.  `Holding s m` is the invariant: the state `s`
holds the map `m`, and what sorted arrays there are list the symbols of the table as they are
now.  The two searches by value are correct over it.

## Key results

- `find_bucket`: with names that compare properly, a chain is searched for a name.
- `newsym_holding`, `clrsyms_holding`: the changes.
- `newsym_listing`: the arrays stay up to date whatever the names are.
- `getsort_listing`: an array that is handed out is current.
- `getsymbyvalue_closest`: the lookup by value finds the closest symbol at or below an address,
  with an array and without one.
-/

namespace Pmon.Cmds

open Pmon.Libc Pmon.Lib.Buckets

variable {s s' : State} {m : CStr → Option ℕ} {name : CStr} {value addr p q : ℕ} {sym : Sym}
  {behind : Sym → Bool} {type : SortType} {syms : List ℕ}

/-! ## §1 The invariant -/

/-- An array lists the symbols of the table, in order. -/
structure Current (s : State) (type : SortType) (syms : List ℕ) : Prop where
  perm : syms.Perm (s.syms.map (·.addr))
  pairwise : syms.Pairwise fun p q => sortcmp s type p q ≤ 0

/-- The table of `s` holds the map `m`. -/
structure Table (s : State) (m : CStr → Option ℕ) : Prop where
  in_bucket : ∀ i, ∀ sym ∈ s.symhash i, bucket sym.name = i
  names : (s.syms.map (·.name)).Nodup
  addrs : (s.syms.map (·.addr)).Nodup
  count : s.nsyms = s.syms.length
  means : ∀ name value, m name = some value ↔ ∃ sym ∈ s.syms, sym.name = name ∧ sym.value = value

/-- The state `s` holds the map `m`, and its arrays are up to date.  The one by value was
    sorted after the last change. -/
structure Holding (s : State) (m : CStr → Option ℕ) : Prop extends Table s m where
  current : ∀ type arr, s.symsort type = some arr → Current s type arr.syms
  built : ∀ arr, s.symsort .numeric = some arr → arr.builtAt = s.changes

/-- What the lookups by value rest on, whatever the names are: symbols are told apart by their
    addresses and counted, and the arrays are up to date. -/
structure Listing (s : State) : Prop where
  in_bucket : ∀ i, ∀ sym ∈ s.symhash i, bucket sym.name = i
  addrs : (s.syms.map (·.addr)).Nodup
  count : s.nsyms = s.syms.length
  current : ∀ type arr, s.symsort type = some arr → Current s type arr.syms
  built : ∀ arr, s.symsort .numeric = some arr → arr.builtAt = s.changes

theorem Holding.listing (h : Holding s m) : Listing s :=
  ⟨h.in_bucket, h.addrs, h.count, h.current, h.built⟩

/-- A table with arrays that are up to date. -/
theorem Table.holding_of_listing (h : Table s m) (hl : Listing s) : Holding s m :=
  { h with current := hl.current, built := hl.built }

theorem holding_init : Holding State.init fun _ => none where
  in_bucket i sym h := by simp [State.init] at h
  names := by simp [State.syms, State.init]
  addrs := by simp [State.syms, State.init]
  count := by simp [State.syms, State.init]
  means name value := by simp [State.syms, State.init]
  current type arr h := by simp [State.init] at h
  built arr h := by simp [State.init] at h

/-- Names that are compared with the table compare properly: there is no empty one, or what
    stands behind the empty ones is the same. -/
def NameOk (s : State) (behind : Sym → Bool) (name : CStr) : Prop :=
  name = [] → ∀ sym ∈ s.syms, sym.name = [] → behind sym = true

theorem sameName_iff {b : Bool} {x y : CStr} (h : x = [] → y = [] → b = true) :
    sameName b x y ↔ x = y := by
  cases x with
  | nil =>
    cases y with
    | nil => simp [sameName, h rfl rfl]
    | cons d ds => simp [sameName]
  | cons c cs =>
    cases y with
    | nil => simp [sameName]
    | cons d ds => simp [sameName]

/-- **Searching a chain for a name.** -/
theorem find_bucket (h : Table s m) (hok : NameOk s behind name) :
    (∃ sym, (s.symhash (bucket name)).find? (fun sym => sameName (behind sym) name sym.name) =
        some sym ∧ sym ∈ s.symhash (bucket name) ∧ sym ∈ s.syms ∧ sym.name = name) ∨
    ((s.symhash (bucket name)).find? (fun sym => sameName (behind sym) name sym.name) = none ∧
      ∀ sym ∈ s.syms, sym.name ≠ name) := by
  have hsame : ∀ sym ∈ s.syms, sameName (behind sym) name sym.name ↔ name = sym.name :=
    fun sym hmem => sameName_iff fun hname hsym => hok hname sym hmem hsym
  cases hfind : (s.symhash (bucket name)).find? fun sym => sameName (behind sym) name sym.name with
  | some sym =>
    have hchain := List.mem_of_find?_eq_some hfind
    have hmem : sym ∈ s.syms := mem_elems.mpr ⟨_, hchain⟩
    have heq := List.find?_some hfind
    exact Or.inl ⟨sym, rfl, hchain, hmem, ((hsame sym hmem).mp heq).symm⟩
  | none =>
    refine Or.inr ⟨rfl, fun sym hmem hname => ?_⟩
    obtain ⟨i, hi⟩ := mem_elems.mp hmem
    have hbucket := h.in_bucket i sym hi
    rw [hname] at hbucket
    subst hbucket
    exact List.find?_eq_none.mp hfind sym hi ((hsame sym hmem).mpr hname.symm)

theorem getsymbyname_holding (h : Table s m) (hok : NameOk s behind name) :
    (getsymbyname s behind name).map (·.value) = m name := by
  rw [getsymbyname]
  split
  · rename_i hzero
    have hnil : s.syms = [] := List.length_eq_zero_iff.mp (h.count ▸ hzero)
    cases hm : m name with
    | none => rfl
    | some value =>
      obtain ⟨sym, hmem, -⟩ := (h.means name value).mp hm
      simp [hnil] at hmem
  · rcases find_bucket h hok with ⟨sym, hfind, -, hmem, hname⟩ | ⟨hfind, hnone⟩
    · rw [hfind]
      exact ((h.means name sym.value).mpr ⟨sym, hmem, hname, rfl⟩).symm
    · rw [hfind]
      cases hm : m name with
      | none => rfl
      | some value =>
        obtain ⟨sym, hmem, hname, -⟩ := (h.means name value).mp hm
        exact absurd hname (hnone sym hmem)

/-! ## §2 Changes -/

/-- Symbols are told apart by their addresses. -/
theorem eq_of_addr (h : (s.syms.map (·.addr)).Nodup) {sym' : Sym} (hmem : sym ∈ s.syms)
    (hmem' : sym' ∈ s.syms) (heq : sym'.addr = sym.addr) : sym' = sym :=
  List.inj_on_of_nodup_map h hmem' hmem heq

theorem Table.eq_of_name (h : Table s m) {sym' : Sym} (hmem : sym ∈ s.syms)
    (hmem' : sym' ∈ s.syms) (heq : sym'.name = sym.name) : sym' = sym :=
  List.inj_on_of_nodup_map h.names hmem' hmem heq

theorem deref_addr (h : (s.syms.map (·.addr)).Nodup) (hmem : sym ∈ s.syms) :
    s.deref sym.addr = some sym := by
  cases hfind : s.deref sym.addr with
  | none => simpa using List.find?_eq_none.mp hfind sym hmem
  | some sym' =>
    have hmem' := List.mem_of_find?_eq_some hfind
    have heq : sym'.addr = sym.addr := by simpa using List.find?_some hfind
    rw [eq_of_addr h hmem hmem' heq]

@[simp] theorem setValue_addr : (setValue p value sym).addr = sym.addr := by
  rw [setValue]
  split <;> rfl

@[simp] theorem setValue_name : (setValue p value sym).name = sym.name := by
  rw [setValue]
  split <;> rfl

/-- The state after a new value was stored. -/
theorem syms_setValue (hbucket : ∀ i, ∀ sym ∈ s.symhash i, bucket sym.name = i)
    (haddrs : (s.syms.map (·.addr)).Nodup) (hmem : sym ∈ s.syms) :
    elems (Function.update s.symhash (bucket sym.name)
      ((s.symhash (bucket sym.name)).map (setValue sym.addr value))) =
      s.syms.map (setValue sym.addr value) := by
  refine elems_update_map _ _ fun j hj sym' hmem' => ?_
  rw [setValue, if_neg]
  intro haddr
  have hall : sym' ∈ s.syms := mem_elems.mpr ⟨j, hmem'⟩
  have heq := eq_of_addr haddrs hmem hall haddr
  subst heq
  exact hj (hbucket j sym' hmem').symm

/-- Chains stay where they belong when a value is stored. -/
theorem in_bucket_setValue (hbucket : ∀ i, ∀ sym ∈ s.symhash i, bucket sym.name = i) (i : Fin nhash) :
    ∀ sym' ∈ Function.update s.symhash (bucket sym.name)
      ((s.symhash (bucket sym.name)).map (setValue sym.addr value)) i, bucket sym'.name = i := by
  intro sym' hmem'
  by_cases hi : i = bucket sym.name
  · subst hi
    rw [Function.update_self, List.mem_map] at hmem'
    obtain ⟨sym'', hmem'', rfl⟩ := hmem'
    rw [setValue_name]
    exact hbucket _ sym'' hmem''
  · rw [Function.update_of_ne hi] at hmem'
    exact hbucket i sym' hmem'

/-- **A new value for a symbol.** -/
theorem table_setValue (s' : State) (h : Table s m) (hmem : sym ∈ s.syms)
    (hsyms : s'.symhash = Function.update s.symhash (bucket sym.name)
      ((s.symhash (bucket sym.name)).map (setValue sym.addr value)))
    (hn : s'.nsyms = s.nsyms) : Table s' (Function.update m sym.name (some value)) := by
  have hall : s'.syms = s.syms.map (setValue sym.addr value) := by
    rw [State.syms, hsyms, syms_setValue h.in_bucket h.addrs hmem]
  refine ⟨?_, ?_, ?_, ?_, ?_⟩
  · rw [hsyms]
    exact in_bucket_setValue h.in_bucket
  · rw [hall, List.map_map, List.map_congr_left (g := (·.name)) fun _ _ => setValue_name]
    exact h.names
  · rw [hall, List.map_map, List.map_congr_left (g := (·.addr)) fun _ _ => setValue_addr]
    exact h.addrs
  · rw [hall, List.length_map, hn, h.count]
  · intro x v
    rw [hall]
    by_cases hx : x = sym.name
    · subst hx
      rw [Function.update_self]
      constructor
      · rintro ⟨⟩
        refine ⟨_, List.mem_map_of_mem hmem, setValue_name, ?_⟩
        rw [setValue, if_pos rfl]
      · rintro ⟨sym', hmem', hname, rfl⟩
        obtain ⟨sym'', hmem'', rfl⟩ := List.mem_map.mp hmem'
        rw [setValue_name] at hname
        rw [h.eq_of_name hmem hmem'' hname, setValue, if_pos rfl]
    · rw [Function.update_of_ne hx, h.means]
      have hkeep : ∀ sym' ∈ s.syms, sym'.name = x → setValue sym.addr value sym' = sym' := by
        intro sym' hmem' hname
        rw [setValue, if_neg]
        intro haddr
        rw [eq_of_addr h.addrs hmem hmem' haddr] at hname
        exact hx hname.symm
      constructor
      · rintro ⟨sym', hmem', hname, hval⟩
        exact ⟨sym', List.mem_map.mpr ⟨sym', hmem', hkeep sym' hmem' hname⟩, hname, hval⟩
      · rintro ⟨sym', hmem', hname, hval⟩
        obtain ⟨sym'', hmem'', rfl⟩ := List.mem_map.mp hmem'
        rw [setValue_name] at hname
        rw [hkeep sym'' hmem'' hname] at hval
        exact ⟨sym'', hmem'', hname, hval⟩

/-- A new value does not change what a pointer says about the name. -/
theorem nameAt_setValue (h : s'.syms = s.syms.map (setValue q value)) :
    s'.nameAt p = s.nameAt p := by
  have hderef : s'.deref p = (s.deref p).map (setValue q value) := by
    rw [State.deref, State.deref, h, List.find?_map]
    congr 2
    funext sym
    simp
  rw [State.nameAt, State.nameAt, hderef, Option.map_map]
  congr 2
  funext sym
  simp

/-- Chains stay where they belong when a symbol is put in front of its chain. -/
theorem in_bucket_cons (hbucket : ∀ i, ∀ sym ∈ s.symhash i, bucket sym.name = i) (i : Fin nhash) :
    ∀ sym ∈ Function.update s.symhash (bucket name) (⟨addr, name, value⟩ :: s.symhash (bucket name)) i,
      bucket sym.name = i := by
  intro sym hmem
  by_cases hi : i = bucket name
  · subst hi
    rw [Function.update_self] at hmem
    rcases List.mem_cons.mp hmem with rfl | hmem
    · rfl
    · exact hbucket _ sym hmem
  · rw [Function.update_of_ne hi] at hmem
    exact hbucket i sym hmem

/-- A symbol more. -/
theorem syms_cons_perm
    (hsyms : s'.symhash = Function.update s.symhash (bucket name)
      (⟨addr, name, value⟩ :: s.symhash (bucket name))) :
    s'.syms.Perm (⟨addr, name, value⟩ :: s.syms) := by
  rw [State.syms, hsyms]
  exact elems_cons_perm _ _ _

/-- **A new symbol.** -/
theorem table_cons (h : Table s m) (hnew : ∀ sym ∈ s.syms, sym.name ≠ name)
    (hfresh : addr ∉ s.syms.map (·.addr))
    (hsyms : s'.symhash = Function.update s.symhash (bucket name)
      (⟨addr, name, value⟩ :: s.symhash (bucket name)))
    (hn : s'.nsyms = s.nsyms + 1) : Table s' (Function.update m name (some value)) := by
  have hperm := syms_cons_perm hsyms
  refine ⟨?_, ?_, ?_, ?_, ?_⟩
  · rw [hsyms]
    exact in_bucket_cons h.in_bucket
  · rw [(hperm.map _).nodup_iff, List.map_cons, List.nodup_cons]
    refine ⟨fun hmem => ?_, h.names⟩
    obtain ⟨sym, hsym, hname⟩ := List.mem_map.mp hmem
    exact hnew sym hsym hname
  · rw [(hperm.map _).nodup_iff, List.map_cons, List.nodup_cons]
    exact ⟨hfresh, h.addrs⟩
  · rw [hperm.length_eq, List.length_cons, hn, h.count]
  · intro x v
    by_cases hx : x = name
    · subst hx
      rw [Function.update_self]
      constructor
      · rintro ⟨⟩
        exact ⟨_, hperm.mem_iff.mpr List.mem_cons_self, rfl, rfl⟩
      · rintro ⟨sym, hmem, hname, rfl⟩
        rcases List.mem_cons.mp (hperm.mem_iff.mp hmem) with rfl | hmem
        · rfl
        · exact absurd hname (hnew sym hmem)
    · rw [Function.update_of_ne hx, h.means]
      constructor
      · rintro ⟨sym, hmem, hname, hval⟩
        exact ⟨sym, hperm.mem_iff.mpr (List.mem_cons_of_mem _ hmem), hname, hval⟩
      · rintro ⟨sym, hmem, hname, hval⟩
        rcases List.mem_cons.mp (hperm.mem_iff.mp hmem) with rfl | hmem
        · exact absurd hname.symm hx
        · exact ⟨sym, hmem, hname, hval⟩

theorem flushsort_self (s : State) (type : SortType) : (flushsort s type).symsort type = none :=
  Function.update_self ..

theorem flushsort_of_ne {type' : SortType} (h : type' ≠ type) :
    (flushsort s type).symsort type' = s.symsort type' := Function.update_of_ne h ..

theorem flush_both (s : State) (type : SortType) :
    (flushsort (flushsort s .alpha) .numeric).symsort type = none := by
  cases type with
  | alpha => rw [flushsort_of_ne (by decide), flushsort_self]
  | numeric => exact flushsort_self ..

/-- With both arrays thrown away nothing is left that could be out of date. -/
theorem listing_of_none (hbucket : ∀ i, ∀ sym ∈ s.symhash i, bucket sym.name = i)
    (haddrs : (s.syms.map (·.addr)).Nodup) (hcount : s.nsyms = s.syms.length)
    (hnone : ∀ type, s.symsort type = none) : Listing s :=
  ⟨hbucket, haddrs, hcount, fun type arr harr => by simp [hnone] at harr,
    fun arr harr => by simp [hnone] at harr⟩

/-- **Defining a symbol** keeps the arrays up to date, whatever its name is. -/
theorem newsym_listing (behind : Sym → Bool) (malloc : Option ℕ) (name : CStr) (value : ℕ)
    (h : Listing s) (hfresh : ∀ addr, malloc = some addr → addr ∉ s.syms.map (·.addr)) :
    Listing (newsym s behind malloc name value).2 := by
  rw [newsym]
  cases hfind : (s.symhash (bucket name)).find? fun sym => sameName (behind sym) name sym.name with
  | some sym =>
    have hchain := List.mem_of_find?_eq_some hfind
    have hmem : sym ∈ s.syms := mem_elems.mpr ⟨_, hchain⟩
    rw [← h.in_bucket _ sym hchain]
    dsimp only
    split
    · -- a new value: only the order by value is lost
      have hall : elems (Function.update s.symhash (bucket sym.name)
          ((s.symhash (bucket sym.name)).map (setValue sym.addr value))) =
          s.syms.map (setValue sym.addr value) := syms_setValue h.in_bucket h.addrs hmem
      refine ⟨in_bucket_setValue h.in_bucket, ?_, ?_, fun type arr harr => ?_, fun arr harr => ?_⟩
      · rw [State.syms, flushsort, hall, List.map_map,
          List.map_congr_left (g := (·.addr)) fun _ _ => setValue_addr]
        exact h.addrs
      · rw [State.syms, flushsort, hall, List.length_map]
        exact h.count
      · cases type with
        | alpha =>
          rw [flushsort_of_ne (by decide)] at harr
          obtain ⟨hperm, hpair⟩ := h.current .alpha arr harr
          refine ⟨?_, hpair.imp fun {p q} hle => ?_⟩
          · rw [State.syms, flushsort, hall, List.map_map,
              List.map_congr_left (g := (·.addr)) fun _ _ => setValue_addr]
            exact hperm
          · have hnames : ∀ p, (flushsort
                { s with
                  symhash := Function.update s.symhash (bucket sym.name)
                    ((s.symhash (bucket sym.name)).map (setValue sym.addr value))
                  changes := s.changes + 1 } .numeric).nameAt p = s.nameAt p :=
              fun p => nameAt_setValue hall
            change strcmp _ _ ≤ 0
            rw [hnames, hnames]
            exact hle
        | numeric =>
          rw [flushsort_self] at harr
          cases harr
      · rw [flushsort_self] at harr
        cases harr
    · exact h
  | none =>
    cases malloc with
    | none => exact listing_of_none h.in_bucket h.addrs h.count (flush_both s)
    | some addr =>
      dsimp only
      have hperm : (State.syms { flushsort (flushsort s .alpha) .numeric with
          symhash := Function.update s.symhash (bucket name)
            (⟨addr, name, value⟩ :: s.symhash (bucket name)) }).Perm
          (⟨addr, name, value⟩ :: s.syms) := syms_cons_perm rfl
      refine listing_of_none (in_bucket_cons h.in_bucket) ?_ ?_ (flush_both s)
      · exact (hperm.map _).nodup_iff.mpr (List.nodup_cons.mpr ⟨hfresh addr rfl, h.addrs⟩)
      · exact (congrArg (· + 1) h.count).trans hperm.length_eq.symm

/-- **Defining a symbol**: the map changes at the name if the call succeeds, else not at all. -/
theorem newsym_holding (malloc : Option ℕ) (value : ℕ) (h : Holding s m) (hok : NameOk s behind name)
    (hfresh : ∀ addr, malloc = some addr → addr ∉ s.syms.map (·.addr)) :
    Holding (newsym s behind malloc name value).2
      (if (newsym s behind malloc name value).1 then Function.update m name (some value) else m) := by
  refine Table.holding_of_listing ?_ (newsym_listing behind malloc name value h.listing hfresh)
  rw [newsym]
  rcases find_bucket h.toTable hok with ⟨sym, hfind, -, hmem, rfl⟩ | ⟨hfind, hnone⟩
  · rw [hfind]
    dsimp only
    split
    · exact table_setValue _ h.toTable hmem rfl rfl
    · rename_i hval
      have hsame : Function.update m sym.name (some value) = m :=
        Function.update_eq_self_iff.mpr
          ((h.means sym.name value).mpr ⟨sym, hmem, rfl, not_not.mp hval⟩).symm
      rw [if_pos rfl, hsame]
      exact h.toTable
  · rw [hfind]
    cases malloc with
    | none => exact { h.toTable with }
    | some addr => exact table_cons h.toTable hnone (hfresh addr rfl) rfl rfl

/-- **Clearing the table.** -/
theorem clrsyms_holding (s : State) : Holding (clrsyms s) fun _ => none := by
  have htable : Table (clrsyms s) fun _ => none :=
    { in_bucket := fun i sym h => by simp [clrsyms, flushsort] at h
      names := by simp [clrsyms, flushsort, State.syms]
      addrs := by simp [clrsyms, flushsort, State.syms]
      count := by simp [clrsyms, flushsort, State.syms]
      means := by simp [clrsyms, flushsort, State.syms] }
  exact htable.holding_of_listing (listing_of_none htable.in_bucket htable.addrs htable.count
    fun type => flush_both { s with symhash := fun _ => [] } type)

/-! ## §3 Sorted arrays -/

theorem sortcmp_comparison (s : State) (type : SortType) : Comparison (sortcmp s type) := by
  cases type with
  | alpha => exact ⟨fun p q => strcmp_neg _ _, fun p q r => strcmp_trans⟩
  | numeric =>
    have hle : ∀ p q, sortcmp s .numeric p q ≤ 0 ↔ s.valueAt p ≤ s.valueAt q := by
      intro p q
      rw [sortcmp, valcmp]
      split <;> [skip; split] <;> omega
    refine ⟨fun p q => ?_, fun p q r h₁ h₂ => ?_⟩
    · rw [sortcmp, valcmp, valcmp]
      split <;> split <;> omega
    · rw [hle] at h₁ h₂ ⊢
      exact Nat.le_trans h₁ h₂

theorem valcmp_le : valcmp s p q ≤ 0 ↔ s.valueAt p ≤ s.valueAt q := by
  rw [valcmp]
  split <;> [skip; split] <;> omega

/-- What a call of `getsort` may change: the arrays, and nothing they list. -/
def SameTable (s s' : State) : Prop :=
  s'.symhash = s.symhash ∧ s'.nsyms = s.nsyms ∧ s'.changes = s.changes

theorem SameTable.syms_eq (h : SameTable s s') : s'.syms = s.syms := by
  rw [State.syms, State.syms, h.1]

theorem SameTable.current (h : SameTable s s') (hc : Current s type syms) :
    Current s' type syms := by
  obtain ⟨hash, hn, hch⟩ := h
  cases s
  cases s'
  cases hash
  exact ⟨hc.perm, hc.pairwise⟩

theorem SameTable.table (h : SameTable s s') (ht : Table s m) : Table s' m := by
  obtain ⟨hash, hn, hch⟩ := h
  cases s
  cases s'
  cases hash
  cases hn
  exact ⟨ht.in_bucket, ht.names, ht.addrs, ht.count, ht.means⟩

/-- Sorting the symbols of the table, however they are listed, gives a current array. -/
theorem current_sort (qsort : Qsort) (h : syms.Perm (s.syms.map (·.addr))) :
    Current s type (qsort.sort (sortcmp s type) syms) where
  perm := (qsort.perm _ _).trans h
  pairwise := qsort.pairwise _ _ (sortcmp_comparison s type)

theorem SameTable.listing (h : SameTable s s') (hl : Listing s)
    (hcurrent : ∀ type arr, s'.symsort type = some arr → Current s' type arr.syms)
    (hbuilt : ∀ arr, s'.symsort .numeric = some arr → arr.builtAt = s'.changes) : Listing s' := by
  refine ⟨?_, ?_, ?_, hcurrent, hbuilt⟩
  · rw [h.1]
    exact hl.in_bucket
  · rw [h.syms_eq]
    exact hl.addrs
  · rw [h.syms_eq, h.2.1]
    exact hl.count

/-- **Putting a current array in its place.** -/
theorem listing_update (h : Listing s) (hc : Current s type syms) :
    Listing { s with symsort := Function.update s.symsort type (some ⟨syms, s.changes⟩) } := by
  have hsame : SameTable s
      { s with symsort := Function.update s.symsort type (some ⟨syms, s.changes⟩) } :=
    ⟨rfl, rfl, rfl⟩
  refine hsame.listing h (fun type' arr harr => ?_) fun arr harr => ?_
  · by_cases htype : type' = type
    · subst htype
      dsimp only at harr
      rw [Function.update_self] at harr
      cases harr
      exact hsame.current hc
    · dsimp only at harr
      rw [Function.update_of_ne htype] at harr
      exact hsame.current (h.current type' arr harr)
  · by_cases htype : SortType.numeric = type
    · subst htype
      dsimp only at harr
      rw [Function.update_self] at harr
      cases harr
      rfl
    · dsimp only at harr
      rw [Function.update_of_ne htype] at harr
      exact h.built arr harr

/-- Throwing an array away. -/
theorem listing_flushsort (h : Listing s) (type : SortType) : Listing (flushsort s type) := by
  have hsame : SameTable s (flushsort s type) := ⟨rfl, rfl, rfl⟩
  have hkeep : ∀ type' arr, (flushsort s type).symsort type' = some arr →
      s.symsort type' = some arr := by
    intro type' arr harr
    by_cases htype : type' = type
    · subst htype
      rw [flushsort_self] at harr
      cases harr
    · rwa [flushsort_of_ne htype] at harr
  exact hsame.listing h
    (fun type' arr harr => hsame.current (h.current type' arr (hkeep type' arr harr)))
    fun arr harr => h.built arr (hkeep _ arr harr)

/-- Sorting a list of the symbols and putting it in its place. -/
theorem listing_sorted (qsort : Qsort) (type : SortType) (s' : State) {l : List ℕ}
    (hsame : SameTable s s') (h : Listing s') (hperm : l.Perm (s.syms.map (·.addr))) :
    let r := qsort.sort (sortcmp s' type) l
    let s'' : State :=
      { s' with symsort := Function.update s'.symsort type (some ⟨r, s'.changes⟩) }
    SameTable s s'' ∧ Listing s'' ∧ ∀ syms, some r = some syms →
      Current s type syms ∧ ∃ arr, s''.symsort type = some arr ∧ arr.syms = syms ∧
        (type = .numeric → arr.builtAt = s.changes) := by
  have hc : Current s' type (qsort.sort (sortcmp s' type) l) :=
    current_sort qsort (hsame.syms_eq ▸ hperm)
  refine ⟨hsame, listing_update h hc, ?_⟩
  rintro syms ⟨⟩
  have hback : SameTable s' s := ⟨hsame.1.symm, hsame.2.1.symm, hsame.2.2.symm⟩
  exact ⟨hback.current hc, _, Function.update_self .., rfl, fun _ => hsame.2.2⟩

/-- **What `getsort` hands out is current**: it was sorted after the last change if it is by
    value, and the table stays as it is. -/
theorem getsort_listing (qsort : Qsort) (malloc : Bool) (type : SortType) (h : Listing s) :
    SameTable s (getsort qsort s malloc type).2 ∧ Listing (getsort qsort s malloc type).2 ∧
      ∀ syms, (getsort qsort s malloc type).1 = some syms →
        Current s type syms ∧
          ∃ arr, (getsort qsort s malloc type).2.symsort type = some arr ∧ arr.syms = syms ∧
            (type = .numeric → arr.builtAt = s.changes) := by
  rw [getsort]
  split
  · exact ⟨⟨rfl, rfl, rfl⟩, h, fun syms hnone => by cases hnone⟩
  · split
    · rename_i arr harr
      refine ⟨⟨rfl, rfl, rfl⟩, h, ?_⟩
      rintro syms ⟨⟩
      refine ⟨h.current type arr harr, arr, harr, rfl, ?_⟩
      rintro rfl
      exact h.built arr harr
    · cases malloc with
      | true => exact listing_sorted qsort type s ⟨rfl, rfl, rfl⟩ h (List.Perm.refl _)
      | false =>
        cases hother : s.symsort type.other with
        | none => exact ⟨⟨rfl, rfl, rfl⟩, h, fun syms hnone => by cases hnone⟩
        | some arr =>
          -- the other list has the same symbols, in the other order
          exact listing_sorted qsort type (flushsort s type.other) ⟨rfl, rfl, rfl⟩
            (listing_flushsort h type.other) (h.current _ arr hother).perm

theorem getsort_holding (qsort : Qsort) (malloc : Bool) (type : SortType) (h : Holding s m) :
    Holding (getsort qsort s malloc type).2 m := by
  obtain ⟨hsame, hlisting, -⟩ := getsort_listing qsort malloc type h.listing
  exact (hsame.table h.toTable).holding_of_listing hlisting

/-! ## §4 The lookup by value -/

/-- The closest symbol at or below an address. -/
def Closest (l : List Sym) (addr : ℕ) : Option Sym → Prop
  | none => ∀ sym ∈ l, addr < sym.value
  | some sym => sym ∈ l ∧ sym.value ≤ addr ∧ ∀ sym' ∈ l, sym'.value ≤ addr → sym'.value ≤ sym.value

/-- The search without an array, over the symbols not yet seen. -/
theorem bestsymLoop_closest (l : List Sym) {seen : List Sym} {best : Option Sym} (h : Closest seen addr best)
    (hne : ∀ sym, best = some sym → sym.value < addr) :
    Closest (seen ++ l) addr (bestsymLoop addr l best) := by
  induction l generalizing seen best with
  | nil => rwa [List.append_nil]
  | cons sym l ih =>
    have hassoc : seen ++ sym :: l = seen ++ [sym] ++ l := by simp
    rw [bestsymLoop]
    split
    · rename_i hval
      exact ⟨by simp, by omega, fun sym' _ hle => by omega⟩
    · rename_i hval
      rw [hassoc]
      split
      · rename_i hbetter
        refine ih ⟨by simp, by omega, fun sym' hmem hle => ?_⟩ fun sym' hsym => ?_
        · rcases List.mem_append.mp hmem with hmem | hmem
          · cases best with
            | none => exact absurd (h sym' hmem) (by omega)
            | some b =>
              have hlt : b.value < sym.value := by simpa using hbetter.2
              exact Nat.le_trans (h.2.2 sym' hmem hle) (Nat.le_of_lt hlt)
          · rw [List.mem_singleton.mp hmem]
        · cases hsym
          exact hbetter.1
      · rename_i hworse
        refine ih ?_ hne
        cases best with
        | none =>
          intro sym' hmem
          rcases List.mem_append.mp hmem with hmem | hmem
          · exact h sym' hmem
          · rw [List.mem_singleton.mp hmem]
            simp only [Option.all_none, and_true] at hworse
            omega
        | some b =>
          refine ⟨List.mem_append_left _ h.1, h.2.1, fun sym' hmem hle => ?_⟩
          rcases List.mem_append.mp hmem with hmem | hmem
          · exact h.2.2 sym' hmem hle
          · rw [List.mem_singleton.mp hmem] at hle ⊢
            simp only [Option.all_some, decide_eq_true_eq] at hworse
            omega

/-- **The binary search**, on `n` values in ascending order of which the first is not above the
    address: it ends, at the greatest value that is not above the address. -/
theorem bisectLoop_spec {f : ℕ → ℕ} {n turns lo hi : ℕ} (hmono : ∀ i j, i ≤ j → j < n → f i ≤ f j)
    (hlo : f lo ≤ addr) (hle : lo ≤ hi) (hhi : hi < n) (hturns : hi - lo < turns)
    (habove : (∀ i, hi < i → i < n → addr < f i) ∨ addr ≤ f hi) :
    ∃ r < n, bisectLoop f addr turns lo hi = some r ∧ f r ≤ addr ∧
      ∀ i < n, f i ≤ addr → f i ≤ f r := by
  induction turns generalizing lo hi with
  | zero => omega
  | succ turns ih =>
    rw [bisectLoop]
    by_cases hhigh : addr < f hi
    · have hne : lo ≠ hi := fun heq => by
        rw [heq] at hlo
        omega
      rw [if_pos hhigh]
      dsimp only
      split
      · rename_i hcase
        refine ih hlo (by omega) (by omega) (by omega) ?_
        rcases hcase with hmid | hmid
        · -- nothing is left between the two ends
          refine Or.inl fun i hi' hin => Nat.lt_of_lt_of_le hhigh (hmono hi i ?_ hin)
          omega
        · exact Or.inr hmid
      · rename_i hcase
        exact ih (by omega) (by omega) hhi (by omega) habove
    · rw [if_neg hhigh]
      refine ⟨hi, hhi, rfl, by omega, fun i hin hfi => ?_⟩
      rcases Nat.lt_or_ge hi i with hlt | hge
      · rcases habove with habove | habove
        · exact absurd (habove i hlt hin) (by omega)
        · omega
      · exact hmono i hi hge hhi

/-- Position by position, a current array by value shows the values of the symbols, in
    ascending order. -/
theorem Current.values (h : Current s .numeric syms) (hl : Listing s) :
    syms.length = s.nsyms ∧
      (∀ i, i < s.nsyms → ∃ sym ∈ s.syms, sym.addr = syms.getD i 0 ∧
        s.valueAt (syms.getD i 0) = sym.value) ∧
      (∀ sym ∈ s.syms, ∃ i < s.nsyms, syms.getD i 0 = sym.addr ∧
        s.valueAt (syms.getD i 0) = sym.value) ∧
      ∀ i j, i ≤ j → j < s.nsyms → s.valueAt (syms.getD i 0) ≤ s.valueAt (syms.getD j 0) := by
  have hlen : syms.length = s.nsyms := by rw [h.perm.length_eq, List.length_map, hl.count]
  have hget : ∀ i (hi : i < s.nsyms), syms.getD i 0 = syms[i] := fun i hi =>
    List.getD_eq_getElem _ _ (by omega)
  have hvalue : ∀ sym ∈ s.syms, s.valueAt sym.addr = sym.value := fun sym hmem => by
    rw [State.valueAt, deref_addr hl.addrs hmem]
    rfl
  refine ⟨hlen, fun i hi => ?_, fun sym hmem => ?_, fun i j hij hj => ?_⟩
  · have hmem : syms[i] ∈ s.syms.map (·.addr) := h.perm.mem_iff.mp (List.getElem_mem _)
    obtain ⟨sym, hsym, haddr⟩ := List.mem_map.mp hmem
    refine ⟨sym, hsym, by rw [hget i hi, haddr], ?_⟩
    rw [hget i hi, ← haddr, hvalue sym hsym]
  · have hin : sym.addr ∈ syms := h.perm.mem_iff.mpr (List.mem_map_of_mem hmem)
    obtain ⟨i, hi, heq⟩ := List.getElem_of_mem hin
    refine ⟨i, by omega, by rw [hget i (by omega), heq], ?_⟩
    rw [hget i (by omega), heq, hvalue sym hmem]
  · rcases Nat.lt_or_eq_of_le hij with hlt | rfl
    · rw [hget i (by omega), hget j hj]
      exact valcmp_le.mp (List.pairwise_iff_getElem.mp h.pairwise i j (by omega) (by omega) hlt)
    · exact Nat.le_refl _

/-- **The binary search**, over a current array: it ends, however many turns more it is given, at a
    symbol that is the closest one. -/
theorem Current.bisect (h : Current s .numeric syms) (hl : Listing s) (hn : s.nsyms ≠ 0)
    (hlow : s.valueAt (syms.getD 0 0) ≤ addr) {turns : ℕ} (hturns : s.nsyms ≤ turns) :
    ∃ r sym, bisectLoop (fun i => s.valueAt (syms.getD i 0)) addr turns 0 (s.nsyms - 1) = some r ∧
      syms.getD r 0 = sym.addr ∧ Closest s.syms addr (some sym) := by
  obtain ⟨hlen, hto, hfrom, hmono⟩ := h.values hl
  obtain ⟨r, hr, hloop, hle, hmax⟩ := bisectLoop_spec hmono hlow
    (Nat.zero_le _) (by omega) (show s.nsyms - 1 - 0 < turns by omega)
    (Or.inl fun i hi hin => by omega)
  obtain ⟨sym, hmem, haddr, hval⟩ := hto r hr
  refine ⟨r, sym, hloop, haddr.symm, hmem, by omega, fun sym' hmem' hle' => ?_⟩
  obtain ⟨i, hi, -, hval'⟩ := hfrom sym' hmem'
  have hbest := hmax i hi (by omega)
  omega

/-- **The lookup by value** gives the closest symbol of the table as it is. -/
theorem getsymbyvalue_closest (qsort : Qsort) (malloc : Bool) (addr : ℕ) (h : Listing s) :
    SameTable s (getsymbyvalue qsort s malloc addr).2 ∧
      Listing (getsymbyvalue qsort s malloc addr).2 ∧
      ∃ best, (getsymbyvalue qsort s malloc addr).1 = best.map (·.addr) ∧
        Closest s.syms addr best := by
  rw [getsymbyvalue]
  split
  · rename_i hzero
    have hnil : s.syms = [] := List.length_eq_zero_iff.mp (h.count ▸ hzero)
    exact ⟨⟨rfl, rfl, rfl⟩, h, none, rfl, fun sym hmem => by simp [hnil] at hmem⟩
  · rename_i hn
    obtain ⟨hsame, hlisting, hres⟩ := getsort_listing qsort malloc .numeric h
    split
    · rename_i s' heq
      rw [heq] at hsame hlisting
      refine ⟨hsame, hlisting, bestsymLoop addr s.syms none, by rw [hsame.syms_eq], ?_⟩
      have hseen : Closest [] addr none := fun sym hmem => by simp at hmem
      exact bestsymLoop_closest s.syms hseen fun sym hnone => by cases hnone
    · rename_i syms s' heq
      rw [heq] at hsame hlisting hres
      obtain ⟨hcur, -⟩ := hres syms rfl
      have hvalue : ∀ p, s'.valueAt p = s.valueAt p := fun p => by
        rw [State.valueAt, State.valueAt, State.deref, State.deref, hsame.syms_eq]
      have hn' : s'.nsyms = s.nsyms := hsame.2.1
      simp only [hvalue, hn']
      split
      · rename_i hlow
        refine ⟨hsame, hlisting, none, rfl, fun sym hmem => ?_⟩
        obtain ⟨hlen, -, hfrom, hmono⟩ := hcur.values h
        obtain ⟨i, hi, -, hval⟩ := hfrom sym hmem
        have hfirst := hmono 0 i (Nat.zero_le i) hi
        omega
      · rename_i hlow
        obtain ⟨r, sym, hloop, haddr, hclosest⟩ := hcur.bisect h hn (Nat.le_of_not_lt hlow)
          (Nat.le_refl _)
        exact ⟨hsame, hlisting, some sym, by rw [hloop, Option.map_some, Option.map_some, haddr],
          hclosest⟩

end Pmon.Cmds
