import Pmon.Lib.LowestFirst
import Pmon.Loaders.ElfSyms

/-!
# What elfreadsyms reads and hands on

`elfreadsyms` reads its tables in the order of their offsets, by taking again and again the one
whose offset is below those of the two others.  Two tables at one offset, as when all names of a
file stand in one string table, block each other for good, and an offset behind the mark of a table
that has been read is never the lowest, or always.

Of the symbols only globals and functions have their names checked, and of the names only where
they start.

## Key results

- `tableLoop_eq`: the loop deals with the lowest first.
- `mem_calls_iff`: which strings `newsym` is given.
- `elfreadsyms_exact`: exactly when the function returns and all strings are in their table.
-/

namespace Pmon.Loaders

open Pmon.Lib Pmon.Libc

variable {τ σ : Type} {file : ElfFile τ} {t : SymTabs} {s s' : TabState τ} {table : Table}
  {newsym : σ → Mem → BitVec 32 → BitVec 32 → Option σ} {m : Mem} {syms : σ}

/-! ## §1 The loop over the tables -/

/-- A table that has been read has its place and size in `reads`, and nothing else has changed but
    memory and the file. -/
theorem readtable_ok {offs base size : BitVec 32}
    (h : readtable file table offs base size s = .ok s') :
    s'.shtab = s.shtab ∧ s'.offs = s.offs ∧ s'.reads = s.reads ++ [(table, base, size)] := by
  unfold readtable at h
  dsimp only at h
  split_ifs at h
  cases h
  exact ⟨rfl, rfl, rfl⟩

theorem setRead_self (shtab : ℕ → Shdr) (i : ℕ) : (setRead shtab i i).offset = readOffset := by
  rw [setRead, Function.update_self]

theorem setRead_of_ne (shtab : ℕ → Shdr) {i j : ℕ} (h : j ≠ i) : setRead shtab i j = shtab j :=
  Function.update_of_ne h ..

theorem setRead_size (shtab : ℕ → Shdr) (i j : ℕ) : (setRead shtab i j).size = (shtab j).size := by
  rcases eq_or_ne j i with rfl | hne
  · rw [setRead, Function.update_self]
  · rw [setRead_of_ne shtab hne]

/-- The key of a table is its offset. -/
def tableKey (t : SymTabs) (s : TabState τ) (table : Table) : ℕ := (tableOffset t s table).toNat

theorem dealWith_shstr (h : dealWith file t .shstr s = .ok s') :
    s'.shtab = setRead s.shtab t.shstrndx ∧ s'.offs = s.offs ∧ s'.reads = s.reads := by
  cases h
  exact ⟨rfl, rfl, rfl⟩

theorem dealWith_sym (h : dealWith file t .sym s = .ok s') :
    s'.shtab = s.shtab ∧ s'.offs = readOffset ∧
      s'.reads = s.reads ++ [(.sym, t.symtab, t.size)] := by
  rw [dealWith] at h
  cases hread : readtable file .sym s.offs t.symtab t.size s with
  | error e =>
    rw [hread] at h
    cases h
  | ok s₁ =>
    rw [hread] at h
    obtain ⟨hshtab, -, hreads⟩ := readtable_ok hread
    cases h
    exact ⟨hshtab, rfl, hreads⟩

theorem dealWith_str (h : dealWith file t .str s = .ok s') :
    s'.shtab = setRead s.shtab t.strndx ∧ s'.offs = s.offs ∧
      s'.reads = s.reads ++ [(.str, t.strtab, (s.shtab t.strndx).size)] := by
  rw [dealWith] at h
  cases hread : readtable file .str (s.shtab t.strndx).offset t.strtab (s.shtab t.strndx).size s with
  | error e =>
    rw [hread] at h
    cases h
  | ok s₁ =>
    rw [hread] at h
    obtain ⟨hshtab, hoffs, hreads⟩ := readtable_ok hread
    cases h
    exact ⟨congrArg (setRead · t.strndx) hshtab, hoffs, hreads⟩

/-- Headers that are one have one offset, which is not below itself. -/
theorem strndx_ne (hlow : Lowest (tableKey t s) table) (hsym : table ≠ .sym) :
    t.strndx ≠ t.shstrndx := by
  intro heq
  have hkey : tableKey t s .str = tableKey t s .shstr := by
    change (s.shtab t.strndx).offset.toNat = (s.shtab t.shstrndx).offset.toNat
    rw [heq]
  cases table with
  | shstr => exact absurd (hlow .str (by decide)) (by rw [hkey]; exact lt_irrefl _)
  | str => exact absurd (hlow .shstr (by decide)) (by rw [hkey]; exact lt_irrefl _)
  | sym => exact hsym rfl

theorem tableKey_dealWith (hlow : Lowest (tableKey t s) table)
    (h : dealWith file t table s = .ok s') :
    tableKey t s' = Function.update (tableKey t s) table readOffset.toNat := by
  apply Function.eq_update_iff.mpr
  cases table with
  | shstr =>
    obtain ⟨hshtab, hoffs, -⟩ := dealWith_shstr h
    have hne := strndx_ne hlow (by decide)
    refine ⟨?_, fun u hu => ?_⟩
    · change (s'.shtab t.shstrndx).offset.toNat = _
      rw [hshtab, setRead_self]
    · cases u with
      | shstr => exact absurd rfl hu
      | sym => exact congrArg BitVec.toNat hoffs
      | str =>
        change (s'.shtab t.strndx).offset.toNat = (s.shtab t.strndx).offset.toNat
        rw [hshtab, setRead_of_ne s.shtab hne]
  | sym =>
    obtain ⟨hshtab, hoffs, -⟩ := dealWith_sym h
    refine ⟨congrArg BitVec.toNat hoffs, fun u hu => ?_⟩
    cases u with
    | sym => exact absurd rfl hu
    | shstr => exact congrArg (fun shtab => (shtab t.shstrndx).offset.toNat) hshtab
    | str => exact congrArg (fun shtab => (shtab t.strndx).offset.toNat) hshtab
  | str =>
    obtain ⟨hshtab, hoffs, -⟩ := dealWith_str h
    have hne := strndx_ne hlow (by decide)
    refine ⟨?_, fun u hu => ?_⟩
    · change (s'.shtab t.strndx).offset.toNat = _
      rw [hshtab, setRead_self]
    · cases u with
      | str => exact absurd rfl hu
      | sym => exact congrArg BitVec.toNat hoffs
      | shstr =>
        change (s'.shtab t.shstrndx).offset.toNat = (s.shtab t.shstrndx).offset.toNat
        rw [hshtab, setRead_of_ne s.shtab (Ne.symm hne)]

/-- The tables, as items that are dealt with in the order of their offsets. -/
def tablesInOrder (file : ElfFile τ) (t : SymTabs) :
    LowestFirst Table ℕ (TabState τ) (TabState τ) where
  last := readOffset.toNat
  key := tableKey t
  act := dealWith file t
  key_act _ _ _ := tableKey_dealWith

theorem lowest_iff {table₁ table₂ : Table} (h : ∀ u, u ≠ table ↔ u = table₁ ∨ u = table₂) :
    Lowest (tableKey t s) table ↔
      tableOffset t s table < tableOffset t s table₁ ∧
        tableOffset t s table < tableOffset t s table₂ := by
  constructor
  · intro hlow
    exact ⟨hlow table₁ ((h table₁).mpr (.inl rfl)), hlow table₂ ((h table₂).mpr (.inr rfl))⟩
  · rintro ⟨h₁, h₂⟩ u hu
    rcases (h u).mp hu with rfl | rfl
    · exact h₁
    · exact h₂

/-- One `if` of the loop. -/
theorem tableTurn_eq {table₁ table₂ : Table} (h : ∀ u, u ≠ table ↔ u = table₁ ∨ u = table₂)
    (s : TabState τ) :
    tableTurn file t table table₁ table₂ s =
      if Lowest (tableKey t s) table then dealWith file t table s else .ok s := by
  unfold tableTurn
  by_cases hlow : Lowest (tableKey t s) table
  · rw [if_pos hlow, if_pos ((lowest_iff h).mp hlow)]
  · rw [if_neg hlow, if_neg fun hlt => hlow ((lowest_iff h).mpr hlt)]

/-- The order in which the loop looks at the tables. -/
def tables : List Table := [.shstr, .sym, .str]

theorem mem_tables (table : Table) : table ∈ tables := by cases table <;> decide

instance : Nontrivial Table := ⟨.shstr, .sym, by decide⟩

/-- A pass over the tables is three of the loop's `if`s. -/
theorem pass_cons {table₁ table₂ : Table} (h : ∀ u, u ≠ table ↔ u = table₁ ∨ u = table₂)
    (ts : List Table) (s : TabState τ) :
    (tablesInOrder file t).pass (table :: ts) s =
      match tableTurn file t table table₁ table₂ s with
      | .error e => .error e
      | .ok s => (tablesInOrder file t).pass ts s := by
  rw [tableTurn_eq h]
  by_cases hlow : Lowest (tableKey t s) table
  · have hpass := LowestFirst.pass_cons_of_lowest (L := tablesInOrder file t) hlow ts
    rw [if_pos hlow, hpass]
    have hact : (tablesInOrder file t).act table s = dealWith file t table s := rfl
    rw [hact]
    cases dealWith file t table s with
    | error e => rfl
    | ok s₁ => rfl
  · rw [if_neg hlow]
    exact LowestFirst.pass_cons_of_not_lowest (L := tablesInOrder file t) hlow ts

theorem tablePass_eq (s : TabState τ) :
    tablePass file t s = (tablesInOrder file t).pass tables s := by
  have hshstr : ∀ u : Table, u ≠ .shstr ↔ u = .sym ∨ u = .str := by decide
  have hsym : ∀ u : Table, u ≠ .sym ↔ u = .str ∨ u = .shstr := by decide
  have hstr : ∀ u : Table, u ≠ .str ↔ u = .sym ∨ u = .shstr := by decide
  rw [tables, pass_cons hshstr, tablePass]
  cases tableTurn file t .shstr .sym .str s with
  | error e => rfl
  | ok s₁ =>
    dsimp only
    rw [pass_cons hsym]
    cases tableTurn file t .sym .str .shstr s₁ with
    | error e => rfl
    | ok s₂ =>
      dsimp only
      rw [pass_cons hstr]
      cases tableTurn file t .str .sym .shstr s₂ with
      | error e => rfl
      | ok s₃ => rfl

/-- The loop's end: all tables have been read. -/
theorem done_iff : (tablesInOrder file t).Done s ↔
    tableOffset t s .sym = readOffset ∧ tableOffset t s .str = readOffset ∧
      tableOffset t s .shstr = readOffset := by
  constructor
  · intro h
    exact ⟨BitVec.eq_of_toNat_eq (h .sym), BitVec.eq_of_toNat_eq (h .str),
      BitVec.eq_of_toNat_eq (h .shstr)⟩
  · rintro ⟨hsym, hstr, hshstr⟩ u
    cases u with
    | shstr => exact congrArg BitVec.toNat hshstr
    | sym => exact congrArg BitVec.toNat hsym
    | str => exact congrArg BitVec.toNat hstr

/-- **The loop over the tables** deals with the lowest first. -/
theorem tableLoop_eq (fuel : ℕ) (s : TabState τ) :
    tableLoop file t fuel s = (tablesInOrder file t).loop tables fuel s := by
  induction fuel generalizing s with
  | zero => rfl
  | succ fuel ih =>
    rw [tableLoop, LowestFirst.loop, tablePass_eq]
    cases (tablesInOrder file t).pass tables s with
    | error e => rfl
    | ok s₁ =>
      dsimp only
      by_cases hdone : (tablesInOrder file t).Done s₁
      · rw [if_pos hdone, if_pos (done_iff.mp hdone)]
      · rw [if_neg hdone, if_neg fun h => hdone (done_iff.mpr h), ih]

/-! ## §2 What is read -/

/-- The tables have been dealt with one after the other in the order of their offsets. -/
def Filled (file : ElfFile τ) (t : SymTabs) (s s' : TabState τ) : Prop :=
  Relation.ReflTransGen (tablesInOrder file t).Pick s s' ∧ (tablesInOrder file t).Done s'

/-- A table whose turn it is cannot be read. -/
def Undelivered (file : ElfFile τ) (t : SymTabs) (s : TabState τ) : Prop :=
  ∃ s', Relation.ReflTransGen (tablesInOrder file t).Pick s s' ∧ (tablesInOrder file t).Fails s'

/-- No offset is behind the mark of a table that has been read, and those in front of it differ. -/
def OffsetsApart (t : SymTabs) (s : TabState τ) : Prop :=
  (∀ table, tableOffset t s table ≤ readOffset) ∧
    ∀ table₁ table₂, table₁ ≠ table₂ → tableOffset t s table₁ = tableOffset t s table₂ →
      tableOffset t s table₁ = readOffset

theorem orderly_iff : (tablesInOrder file t).Orderly s ↔ OffsetsApart t s := by
  constructor
  · rintro ⟨hle, htie⟩
    exact ⟨hle, fun u v hne heq =>
      BitVec.eq_of_toNat_eq (htie u v hne (congrArg BitVec.toNat heq))⟩
  · rintro ⟨hle, htie⟩
    exact ⟨hle, fun u v hne heq =>
      congrArg BitVec.toNat (htie u v hne (BitVec.eq_of_toNat_eq heq))⟩

/-- **The loop ends** if and only if the offsets are apart or the file fails on the way. -/
theorem tableLoop_returns_iff :
    (∃ fuel r, tableLoop file t fuel s = some r) ↔ OffsetsApart t s ∨ Undelivered file t s := by
  have horderly : (tablesInOrder file t).Orderly s ↔ OffsetsApart t s := orderly_iff
  simp only [tableLoop_eq, ← horderly]
  exact LowestFirst.loop_returns_iff mem_tables

theorem tableLoop_eq_ok_iff :
    (∃ fuel, tableLoop file t fuel s = some (.ok s')) ↔ Filled file t s s' := by
  simp only [tableLoop_eq]
  exact LowestFirst.loop_eq_ok_iff mem_tables

theorem tableLoop_unique {fuel fuel' : ℕ} {r r' : Except (TabState τ) (TabState τ)}
    (h : tableLoop file t fuel s = some r) (h' : tableLoop file t fuel' s = some r') : r = r' := by
  rw [tableLoop_eq] at h h'
  exact LowestFirst.loop_unique h h'

/-- How far the string table is: not read, with its offset, or read from an offset in front of the
    mark. -/
structure StrRead (t : SymTabs) (s s' : TabState τ) : Prop where
  size : (s'.shtab t.strndx).size = (s.shtab t.strndx).size
  entries : ∀ base size, (Table.str, base, size) ∈ s'.reads →
    base = t.strtab ∧ size = (s.shtab t.strndx).size
  state : ((∀ base size, (Table.str, base, size) ∉ s'.reads) ∧
      tableOffset t s' .str = tableOffset t s .str) ∨
    ((Table.str, t.strtab, (s.shtab t.strndx).size) ∈ s'.reads ∧
      tableOffset t s .str ≠ readOffset)

/-- One table: only the string table's turn changes how far it is. -/
theorem StrRead.pick {s'' : TabState τ} (h : StrRead t s s')
    (horderly : (tablesInOrder file t).Orderly s')
    (hpick : (tablesInOrder file t).Pick s' s'') : StrRead t s s'' := by
  obtain ⟨table, hlow, hact⟩ := hpick
  have hlow' : Lowest (tableKey t s') table := hlow
  have hact' : dealWith file t table s' = .ok s'' := hact
  have hkey := tableKey_dealWith hlow' hact'
  have hsame : table ≠ .str → tableOffset t s'' .str = tableOffset t s' .str := fun hne =>
    BitVec.eq_of_toNat_eq ((congrFun hkey .str).trans (Function.update_of_ne hne.symm ..))
  cases table with
  | shstr =>
    obtain ⟨hshtab, -, hreads⟩ := dealWith_shstr hact'
    refine ⟨by rw [hshtab, setRead_size, h.size], ?_, ?_⟩
    · rw [hreads]
      exact h.entries
    · rw [hreads, hsame (by decide)]
      exact h.state
  | sym =>
    obtain ⟨hshtab, -, hreads⟩ := dealWith_sym hact'
    have hmem : ∀ base size, (Table.str, base, size) ∈ s''.reads ↔
        (Table.str, base, size) ∈ s'.reads := by
      intro base size
      rw [hreads, List.mem_append, List.mem_singleton]
      exact or_iff_left (by simp)
    refine ⟨by rw [hshtab, h.size], fun base size => ?_, ?_⟩
    · rw [hmem]
      exact h.entries base size
    · simp only [hmem, hsame (show Table.sym ≠ .str by decide)]
      exact h.state
  | str =>
    obtain ⟨hshtab, -, hreads⟩ := dealWith_str hact'
    refine ⟨by rw [hshtab, setRead_size, h.size], fun base size hmem => ?_, .inr ⟨?_, ?_⟩⟩
    · rw [hreads, List.mem_append, List.mem_singleton] at hmem
      rcases hmem with hmem | heq
      · exact h.entries base size hmem
      · cases heq
        exact ⟨rfl, h.size⟩
    · rw [hreads, ← h.size]
      exact List.mem_append_right _ (List.mem_singleton.mpr rfl)
    · rcases h.state with ⟨-, hoff⟩ | ⟨-, hne⟩
      · -- the lowest offset is in front of the mark
        have hlt : tableKey t s' .str < readOffset.toNat := horderly.lowest_lt hlow
        intro hmark
        rw [← hoff] at hmark
        exact absurd hlt (by rw [tableKey, hmark]; exact lt_irrefl _)
      · exact hne

theorem strRead_of_picks (horderly : (tablesInOrder file t).Orderly s) (hreads : s.reads = [])
    (h : Relation.ReflTransGen (tablesInOrder file t).Pick s s') : StrRead t s s' := by
  induction h with
  | refl =>
    refine ⟨rfl, fun base size hmem => ?_, .inl ⟨fun base size hmem => ?_, rfl⟩⟩
    · rw [hreads] at hmem
      cases hmem
    · rw [hreads] at hmem
      cases hmem
  | tail hrun hpick ih =>
    exact ih.pick ((LowestFirst.orderly_iff_of_picks hrun).mpr horderly) hpick

/-- **The string table** is read when its offset does not say that it has been. -/
theorem mem_reads_iff (hreads : s.reads = []) (h : Filled file t s s') (base size : BitVec 32) :
    (Table.str, base, size) ∈ s'.reads ↔
      tableOffset t s .str ≠ readOffset ∧ base = t.strtab ∧ size = (s.shtab t.strndx).size := by
  have horderly := (LowestFirst.orderly_iff_of_picks h.1).mp h.2.orderly
  have hread := strRead_of_picks horderly hreads h.1
  have hdone : tableOffset t s' .str = readOffset := (done_iff.mp h.2).2.1
  rcases hread.state with ⟨hnone, hoff⟩ | ⟨hmem, hne⟩
  · refine iff_of_false (hnone base size) fun ⟨hne, _⟩ => hne ?_
    rw [← hoff, hdone]
  · constructor
    · exact fun hin => ⟨hne, hread.entries base size hin⟩
    · rintro ⟨-, rfl, rfl⟩
      exact hmem

theorem size_of_filled (hreads : s.reads = []) (h : Filled file t s s') :
    (s'.shtab t.strndx).size = (s.shtab t.strndx).size :=
  (strRead_of_picks ((LowestFirst.orderly_iff_of_picks h.1).mp h.2.orderly) hreads h.1).size

/-! ## §3 What is handed on -/

/-- The symbols from an address on. -/
def symsFrom (m : Mem) : ℕ → BitVec 32 → List ElfSym
  | 0, _ => []
  | n + 1, p => symAt m p :: symsFrom m n (p + 16)

/-- `newsym` takes the symbols that are not passed over. -/
def takeSyms (newsym : σ → Mem → BitVec 32 → BitVec 32 → Option σ) (m : Mem)
    (strtab : BitVec 32) : List ElfSym → σ → Option σ
  | [], syms => some syms
  | sym :: rest, syms =>
    if sym.Skipped then takeSyms newsym m strtab rest syms
    else
      match newsym syms m (strtab + sym.name) sym.value with
      | none => none
      | some syms => takeSyms newsym m strtab rest syms

/-- The loop comes as far as the symbol behind `before`: none of those has been found corrupt, and
    `newsym` has taken them. -/
def Reached (newsym : σ → Mem → BitVec 32 → BitVec 32 → Option σ) (m : Mem)
    (strtab strsize : BitVec 32) (before : List ElfSym) (syms : σ) : Prop :=
  (∀ sym ∈ before, sym.Skipped ∨ ¬ sym.Corrupt strsize) ∧
    (takeSyms newsym m strtab before syms).isSome

theorem reached_nil (strtab strsize : BitVec 32) : Reached newsym m strtab strsize [] syms :=
  ⟨fun _ hmem => absurd hmem List.not_mem_nil, rfl⟩

/-- A symbol that is passed over changes nothing. -/
theorem reached_cons_skipped {strtab strsize : BitVec 32} {sym : ElfSym} {before : List ElfSym}
    (h : sym.Skipped) :
    Reached newsym m strtab strsize (sym :: before) syms ↔
      Reached newsym m strtab strsize before syms := by
  rw [Reached, Reached, List.forall_mem_cons, takeSyms, if_pos h]
  exact and_congr_left fun _ => and_iff_right (.inl h)

/-- A symbol that is not leads on when it is not corrupt and `newsym` takes it. -/
theorem reached_cons {strtab strsize : BitVec 32} {sym : ElfSym} {before : List ElfSym}
    (h : ¬ sym.Skipped) :
    Reached newsym m strtab strsize (sym :: before) syms ↔
      ¬ sym.Corrupt strsize ∧ ∃ syms', newsym syms m (strtab + sym.name) sym.value = some syms' ∧
        Reached newsym m strtab strsize before syms' := by
  rw [Reached, List.forall_mem_cons, takeSyms, if_neg h, or_iff_right h]
  cases newsym syms m (strtab + sym.name) sym.value with
  | none => simp
  | some syms' => simp [Reached, and_assoc]

/-- Splitting a list that starts with `x` at `x` or behind it. -/
theorem exists_split_cons {α : Type*} {x : α} {xs : List α} {P : List α → α → Prop} :
    (∃ before a after, x :: xs = before ++ a :: after ∧ P before a) ↔
      P [] x ∨ ∃ before a after, xs = before ++ a :: after ∧ P (x :: before) a := by
  constructor
  · rintro ⟨before, a, after, heq, h⟩
    cases before with
    | nil =>
      cases heq
      exact .inl h
    | cons b before =>
      cases heq
      exact .inr ⟨before, a, after, rfl, h⟩
  · rintro (h | ⟨before, a, after, rfl, h⟩)
    · exact ⟨[], x, xs, rfl, h⟩
    · exact ⟨x :: before, a, after, rfl, h⟩

/-- **The strings** that `newsym` is given are the names of the symbols that the loop comes to and
    neither passes over nor finds corrupt. -/
theorem mem_calls_iff (strtab strsize : BitVec 32) (n : ℕ) (p q : BitVec 32) (syms : σ) :
    q ∈ (symLoop newsym m strtab strsize n p syms).2.2 ↔
      ∃ before sym after, symsFrom m n p = before ++ sym :: after ∧
        Reached newsym m strtab strsize before syms ∧ ¬ sym.Skipped ∧ ¬ sym.Corrupt strsize ∧
        q = strtab + sym.name := by
  induction n generalizing p syms with
  | zero =>
    refine iff_of_false (fun h => by cases h) ?_
    rintro ⟨before, sym, after, heq, -⟩
    exact absurd heq (by simp [symsFrom])
  | succ n ih =>
    rw [symsFrom, exists_split_cons, symLoop]
    dsimp only
    by_cases hskip : (symAt m p).Skipped
    · rw [if_pos hskip, ih, or_iff_right fun h => h.2.1 hskip]
      simp only [reached_cons_skipped hskip]
    rw [if_neg hskip]
    simp only [reached_cons hskip]
    by_cases hcorrupt : (symAt m p).Corrupt strsize
    · rw [if_pos hcorrupt]
      refine iff_of_false (fun h => by cases h) ?_
      rintro (⟨-, -, hno, -⟩ | ⟨_, _, _, -, ⟨hno, -⟩, -⟩)
      · exact hno hcorrupt
      · exact hno hcorrupt
    rw [if_neg hcorrupt]
    cases hnew : newsym syms m (strtab + (symAt m p).name) (symAt m p).value with
    | none =>
      simp [hskip, hcorrupt, reached_nil]
    | some syms' =>
      dsimp only
      rw [List.mem_cons, ih]
      simp [hskip, hcorrupt, reached_nil]

/-! ## §4 elfreadsyms -/

/-- The string at `p` starts inside a table and ends before the table's end. -/
def InTable (m : Mem) (base size p : BitVec 32) : Prop :=
  ∃ d j, d ≤ j ∧ j < size.toNat ∧ p = base + BitVec.ofNat 32 d ∧
    m (base + BitVec.ofNat 32 j).toNat = 0

theorem inTable_iff {base size name : BitVec 32} :
    InTable m base size (base + name) ↔
      ∃ j, name.toNat ≤ j ∧ j < size.toNat ∧ m (base + BitVec.ofNat 32 j).toNat = 0 := by
  constructor
  · rintro ⟨d, j, hle, hlt, heq, hnul⟩
    have hname : name = BitVec.ofNat 32 d := (BitVec.add_right_inj base).mp heq
    have hd : name.toNat = d := by
      rw [hname, BitVec.toNat_ofNat]
      exact Nat.mod_eq_of_lt ((hle.trans_lt hlt).trans size.isLt)
    exact ⟨j, hd ▸ hle, hlt, hnul⟩
  · rintro ⟨j, hle, hlt, hnul⟩
    refine ⟨name.toNat, j, hle, hlt, ?_, hnul⟩
    rw [BitVec.ofNat_toNat, BitVec.setWidth_eq]

/-- All strings that `newsym` was given lie in a string table that was read. -/
def ElfSyms.Inside (r : ElfSyms τ σ) : Prop :=
  ∀ p ∈ r.calls, ∃ base size, (Table.str, base, size) ∈ r.tabs.reads ∧
    InTable r.tabs.mem base size p

/-- The names of the symbols that come to `newsym` are good: there is a string table to read, and
    in it they start and end. -/
def NamesEnd (newsym : σ → Mem → BitVec 32 → BitVec 32 → Option σ) (t : SymTabs)
    (s s' : TabState τ) (syms : σ) : Prop :=
  ∀ before sym after, symsFrom s'.mem t.nsym.toInt.toNat t.symtab = before ++ sym :: after →
    Reached newsym s'.mem t.strtab (s.shtab t.strndx).size before syms →
    ¬ sym.Skipped → ¬ sym.Corrupt (s.shtab t.strndx).size →
    tableOffset t s .str ≠ readOffset ∧
      ∃ j, sym.name.toNat ≤ j ∧ j < (s.shtab t.strndx).size.toNat ∧
        s'.mem (t.strtab + BitVec.ofNat 32 j).toNat = 0

/-- The strings of the symbol loop. -/
theorem strings_inside_iff (hreads : s.reads = []) (h : Filled file t s s') (syms : σ) :
    (∀ p ∈ (symLoop newsym s'.mem t.strtab (s'.shtab t.strndx).size t.nsym.toInt.toNat t.symtab
        syms).2.2,
      ∃ base size, (Table.str, base, size) ∈ s'.reads ∧ InTable s'.mem base size p) ↔
      NamesEnd newsym t s s' syms := by
  rw [size_of_filled hreads h]
  have hstring : ∀ name : BitVec 32,
      (∃ base size, (Table.str, base, size) ∈ s'.reads ∧
        InTable s'.mem base size (t.strtab + name)) ↔
      tableOffset t s .str ≠ readOffset ∧
        ∃ j, name.toNat ≤ j ∧ j < (s.shtab t.strndx).size.toNat ∧
          s'.mem (t.strtab + BitVec.ofNat 32 j).toNat = 0 := by
    intro name
    constructor
    · rintro ⟨base, size, hmem, hin⟩
      obtain ⟨hne, rfl, rfl⟩ := (mem_reads_iff hreads h base size).mp hmem
      exact ⟨hne, inTable_iff.mp hin⟩
    · rintro ⟨hne, hin⟩
      exact ⟨_, _, (mem_reads_iff hreads h _ _).mpr ⟨hne, rfl, rfl⟩, inTable_iff.mpr hin⟩
  constructor
  · intro hall before sym after heq hreached hskip hcorrupt
    exact (hstring sym.name).mp
      (hall _ ((mem_calls_iff ..).mpr ⟨before, sym, after, heq, hreached, hskip, hcorrupt, rfl⟩))
  · intro hnames p hp
    obtain ⟨before, sym, after, heq, hreached, hskip, hcorrupt, rfl⟩ := (mem_calls_iff ..).mp hp
    exact (hstring sym.name).mpr (hnames before sym after heq hreached hskip hcorrupt)

/-- The condition on the first header of a symbol table: entries of some size; tables whose offsets
    are apart, or a file that fails before that matters; and, unless the symbols are for the
    kernel, names that end in the string table. -/
structure ReadsWell (file : ElfFile τ) (newsym : σ → Mem → BitVec 32 → BitVec 32 → Option σ)
    (flags : ℕ) (sh : Shdr) (t : SymTabs) (s : TabState τ) (syms : σ) : Prop where
  entsize : sh.entsize ≠ 0
  ends : OffsetsApart t s ∨ Undelivered file t s
  names : hasFlag flags kflag = false → ∀ s', Filled file t s s' → NamesEnd newsym t s s' syms

section

variable {maxaddr tablebase : BitVec 32} {eh : Ehdr} {shtab : ℕ → Shdr} {flags : ℕ} {fd : τ}
  {i fuel : ℕ}

/-- The state in which the loop over the tables starts. -/
def tabStart (eh : Ehdr) (shtab : ℕ → Shdr) (flags : ℕ) (maxaddr tablebase : BitVec 32) (m : Mem)
    (fd : τ) (i : ℕ) : TabState τ :=
  ⟨shtab, (symTabs eh shtab flags maxaddr tablebase i).2.1, m, fd, []⟩

theorem elfreadsyms_none (hindex : symtabIndex eh shtab = some i) (hsize : (shtab i).entsize ≠ 0)
    (hloop : tableLoop file (symTabs eh shtab flags maxaddr tablebase i).1 fuel
      (tabStart eh shtab flags maxaddr tablebase m fd i) = none) :
    elfreadsyms file newsym maxaddr eh shtab flags tablebase m fd syms fuel = none := by
  unfold tabStart at hloop
  simp only [elfreadsyms, hindex, if_neg hsize, hloop]

theorem elfreadsyms_error (newsym : σ → Mem → BitVec 32 → BitVec 32 → Option σ) (syms : σ)
    (hindex : symtabIndex eh shtab = some i) (hsize : (shtab i).entsize ≠ 0)
    (hloop : tableLoop file (symTabs eh shtab flags maxaddr tablebase i).1 fuel
      (tabStart eh shtab flags maxaddr tablebase m fd i) = some (.error s)) :
    ∃ r, elfreadsyms file newsym maxaddr eh shtab flags tablebase m fd syms fuel =
      some (.ret r) ∧ r.calls = [] := by
  unfold tabStart at hloop
  simp only [elfreadsyms, hindex, if_neg hsize, hloop]
  exact ⟨_, rfl, rfl⟩

theorem elfreadsyms_kernel (newsym : σ → Mem → BitVec 32 → BitVec 32 → Option σ) (syms : σ)
    (hindex : symtabIndex eh shtab = some i) (hsize : (shtab i).entsize ≠ 0)
    (hloop : tableLoop file (symTabs eh shtab flags maxaddr tablebase i).1 fuel
      (tabStart eh shtab flags maxaddr tablebase m fd i) = some (.ok s))
    (hflag : hasFlag flags kflag = true) :
    ∃ r, elfreadsyms file newsym maxaddr eh shtab flags tablebase m fd syms fuel =
      some (.ret r) ∧ r.calls = [] := by
  unfold tabStart at hloop
  simp only [elfreadsyms, hindex, if_neg hsize, hloop, if_pos hflag]
  exact ⟨_, rfl, rfl⟩

theorem elfreadsyms_syms (newsym : σ → Mem → BitVec 32 → BitVec 32 → Option σ) (syms : σ)
    (hindex : symtabIndex eh shtab = some i) (hsize : (shtab i).entsize ≠ 0)
    (hloop : tableLoop file (symTabs eh shtab flags maxaddr tablebase i).1 fuel
      (tabStart eh shtab flags maxaddr tablebase m fd i) = some (.ok s))
    (hflag : hasFlag flags kflag = false) :
    ∃ r, elfreadsyms file newsym maxaddr eh shtab flags tablebase m fd syms fuel =
        some (.ret r) ∧ r.tabs = s ∧
      r.calls = (symLoop newsym s.mem (symTabs eh shtab flags maxaddr tablebase i).1.strtab
        (s.shtab (symTabs eh shtab flags maxaddr tablebase i).1.strndx).size
        (symTabs eh shtab flags maxaddr tablebase i).1.nsym.toInt.toNat
        (symTabs eh shtab flags maxaddr tablebase i).1.symtab syms).2.2 := by
  unfold tabStart at hloop
  simp only [elfreadsyms, hindex, if_neg hsize, hloop, hflag, Bool.false_eq_true, if_false]
  exact ⟨_, rfl, rfl, rfl⟩

/-- With a symbol table there, the property comes down to the loop over the tables. -/
theorem returns_inside_iff (hindex : symtabIndex eh shtab = some i)
    (hsize : (shtab i).entsize ≠ 0) :
    (∃ fuel r, elfreadsyms file newsym maxaddr eh shtab flags tablebase m fd syms fuel =
        some (.ret r) ∧ r.Inside) ↔
      ReadsWell file newsym flags (shtab i) (symTabs eh shtab flags maxaddr tablebase i).1
        (tabStart eh shtab flags maxaddr tablebase m fd i) syms := by
  constructor
  · rintro ⟨fuel, r, hret, hinside⟩
    cases hloop : tableLoop file (symTabs eh shtab flags maxaddr tablebase i).1 fuel
      (tabStart eh shtab flags maxaddr tablebase m fd i) with
    | none =>
      rw [elfreadsyms_none hindex hsize hloop] at hret
      cases hret
    | some res =>
      refine ⟨hsize, tableLoop_returns_iff.mp ⟨fuel, res, hloop⟩, fun hflag s' hfilled => ?_⟩
      obtain ⟨fuel', hloop'⟩ := tableLoop_eq_ok_iff.mpr hfilled
      obtain rfl := tableLoop_unique hloop hloop'
      obtain ⟨r', hret', htabs, hcalls⟩ := elfreadsyms_syms newsym syms hindex hsize hloop hflag
      rw [hret'] at hret
      cases hret
      rw [ElfSyms.Inside, hcalls, htabs] at hinside
      exact (strings_inside_iff rfl hfilled syms).mp hinside
  · intro h
    obtain ⟨fuel, res, hloop⟩ := tableLoop_returns_iff.mpr h.ends
    cases res with
    | error s =>
      obtain ⟨r, hret, hcalls⟩ := elfreadsyms_error newsym syms hindex hsize hloop
      refine ⟨fuel, r, hret, fun p hp => ?_⟩
      rw [hcalls] at hp
      cases hp
    | ok s =>
      cases hflag : hasFlag flags kflag with
      | true =>
        obtain ⟨r, hret, hcalls⟩ := elfreadsyms_kernel newsym syms hindex hsize hloop hflag
        refine ⟨fuel, r, hret, fun p hp => ?_⟩
        rw [hcalls] at hp
        cases hp
      | false =>
        obtain ⟨r, hret, htabs, hcalls⟩ := elfreadsyms_syms newsym syms hindex hsize hloop hflag
        have hfilled := tableLoop_eq_ok_iff.mp ⟨fuel, hloop⟩
        refine ⟨fuel, r, hret, ?_⟩
        rw [ElfSyms.Inside, hcalls, htabs]
        exact (strings_inside_iff rfl hfilled syms).mpr (h.names hflag s hfilled)

end

/-- **elfreadsyms**, exactly: it returns, with all strings inside the string table that it has
    read, if and only if there is no symbol table or `ReadsWell` holds of the first one. -/
theorem elfreadsyms_exact (file : ElfFile τ)
    (newsym : σ → Mem → BitVec 32 → BitVec 32 → Option σ) (maxaddr : BitVec 32) (eh : Ehdr)
    (shtab : ℕ → Shdr) (flags : ℕ) (tablebase : BitVec 32) (m : Mem) (fd : τ) (syms : σ) :
    (∃ fuel r, elfreadsyms file newsym maxaddr eh shtab flags tablebase m fd syms fuel =
        some (.ret r) ∧ r.Inside) ↔
      ∀ i, symtabIndex eh shtab = some i →
        ReadsWell file newsym flags (shtab i) (symTabs eh shtab flags maxaddr tablebase i).1
          (tabStart eh shtab flags maxaddr tablebase m fd i) syms := by
  cases hindex : symtabIndex eh shtab with
  | none =>
    refine iff_of_true ?_ fun i hi => by cases hi
    have hret : ∃ r, elfreadsyms file newsym maxaddr eh shtab flags tablebase m fd syms 0 =
        some (.ret r) ∧ r.calls = [] := by
      simp only [elfreadsyms, hindex]
      exact ⟨_, rfl, rfl⟩
    obtain ⟨r, hret, hcalls⟩ := hret
    refine ⟨0, r, hret, fun p hp => ?_⟩
    rw [hcalls] at hp
    cases hp
  | some i =>
    simp only [Option.some.injEq, forall_eq']
    by_cases hsize : (shtab i).entsize = 0
    · refine iff_of_false ?_ fun h => h.entsize hsize
      rintro ⟨fuel, r, hret, -⟩
      simp only [elfreadsyms, hindex, if_pos hsize] at hret
      cases hret
    · exact returns_inside_iff hindex hsize

/-- A file without end, of zeros. -/
def zeroFile : ElfFile Unit where
  lseek _ offs := (offs, ())
  read _ n := (n, List.replicate n.toNat 0, ())

/-- A file that delivers all it is asked for never ends the loop. -/
theorem zeroFile_delivers (t : SymTabs) (s : TabState Unit) : ¬ Undelivered zeroFile t s := by
  rintro ⟨s', -, table, e, -, hfails⟩
  have hok : ∃ s'', dealWith zeroFile t table s' = .ok s'' := by
    cases table with
    | shstr => exact ⟨_, rfl⟩
    | sym => simp [dealWith, readtable, zeroFile]
    | str => simp [dealWith, readtable, zeroFile]
  obtain ⟨s'', hok⟩ := hok
  cases hok.symm.trans hfails

/-- The headers of a symbol table and of one string table, which has the names of the sections as
    well. -/
def sharedStrings : ℕ → Shdr
  | 0 => ⟨1, 2, 0x34, 0x10, 1, 0, 0x10⟩
  | 1 => ⟨9, 3, 0x44, 0x20, 0, 0, 0⟩
  | _ => ⟨0, 0, 0, 0, 0, 0, 0⟩

/-- With them `elfreadsyms` does not return. -/
theorem elfreadsyms_sharedStrings :
    ¬ ∃ fuel r, elfreadsyms zeroFile (fun (_ : Unit) _ _ _ => some ()) 0x80010000 ⟨2, 1⟩
      sharedStrings 0 0x8f000000 (fun _ => 0) () () fuel = some (.ret r) ∧ r.Inside := by
  rintro ⟨fuel, r, hret, -⟩
  have hsize : (sharedStrings 0).entsize ≠ 0 := by decide
  have hindex : symtabIndex ⟨2, 1⟩ sharedStrings = some 0 := by decide
  cases hloop : tableLoop zeroFile (symTabs ⟨2, 1⟩ sharedStrings 0 0x80010000 0x8f000000 0).1 fuel
    (tabStart ⟨2, 1⟩ sharedStrings 0 0x80010000 0x8f000000 (fun _ => 0) () 0) with
  | none =>
    rw [elfreadsyms_none hindex hsize hloop] at hret
    cases hret
  | some res =>
    rcases tableLoop_returns_iff.mp ⟨fuel, res, hloop⟩ with hapart | hfails
    · -- both string tables are the one at 0x44
      have hmark : (0x44 : BitVec 32) = readOffset := hapart.2 .shstr .str (by decide) rfl
      exact absurd hmark (by decide)
    · exact zeroFile_delivers _ _ hfails

end Pmon.Loaders
