import Pmon.Lib.Queue
import Pmon.Lib.Run
import Pmon.Libc.Strings
import Mathlib.Data.List.AList
import Mathlib.Data.List.Perm.Basic
import Mathlib.Tactic.Ring

/-!
# The list of flash devices

`add_mtd_device`, `del_mtd_device` and `first_del_all_parts` of `pmon/fs/mtd.c`, with the parts of
`mtdfile_open` and `mtdfile_close` that count the files of an entry.  Entries are known by their
addresses, those of `malloc` blocks; the list is that of `sys/queue.h`.

## Key results

- `mtdList_exact`: in a run every state has a list of distinct indices with its tail in `ptail`
  exactly when no entry is added under an index that is in use and none is deleted from the end of
  a longer list.
-/

namespace Pmon.Fs

open Pmon.Lib Pmon.Libc

/-! ## §1 Entries -/

/-- `struct mtdfile`, less its flags; `trans_table` is that of `creat_part_trans_table`. -/
structure MtdEntry where
  mtd : ℕ
  refs : ℤ
  index : ℤ
  partOffset : ℕ
  partSize : ℕ
  partSizeReal : ℕ
  name : CStr
  deriving DecidableEq

/-- `sizeof(struct mtdfile)`. -/
def sizeofMtdfile : ℕ := 72

/-- The offset of `i_next.le_next`. -/
def offsetofNext : ℕ := 40

/-- The length of its block. -/
def MtdEntry.len (e : MtdEntry) : ℕ := sizeofMtdfile + e.name.length

/-- The entries that are allocated. -/
abbrev MtdHeap := AList fun _ : ℕ => MtdEntry

/-- **Allocators** of entries; the state of everything else is `W`.  Blocks are inside memory and
    apart from those of the entries. -/
structure MtdMalloc (W : Type*) where
  run : W → MtdHeap → ℕ → Option ℕ
  apart : ∀ w heap len a, run w heap len = some a → 0 < a ∧ a + len ≤ 2 ^ 32 ∧
    ∀ b e, heap.lookup b = some e → b + e.len ≤ a ∨ a + len ≤ b

/-- `mtdfiles`, `ptail`, `mtdidx`, the entries and those of the open files. -/
structure MtdList where
  queue : Queue ℕ
  ptail : ℕ
  mtdidx : ℤ
  heap : MtdHeap
  files : List ℕ

/-- What it is at the start. -/
def MtdList.start : MtdList where
  queue := ⟨none, fun _ => none, fun _ => .head⟩
  ptail := 0
  mtdidx := 0
  heap := ∅
  files := []

/-- What becomes of the entries. -/
inductive MtdEvent where
  | added (rmp : ℕ)
  | deleted (rmp : ℕ)
  | emptied
  | none
  deriving DecidableEq

/-! ## §2 Operations -/

/-- `list_entry` for `i_next.le_next`. -/
def listEntry (p : ℕ) : ℕ := (p + 2 ^ 32 - offsetofNext) % 2 ^ 32

/-- The insertion: at the head of an empty list, else behind `ptail`.  Behind an address that is no
    entry's it has no outcome. -/
def MtdList.link (s : MtdList) (rmp : ℕ) : Option (Queue ℕ) :=
  if s.queue.first = none then
    some (s.queue.insertHead rmp)
  else if (s.heap.lookup s.ptail).isSome then
    some (s.queue.insertAfter s.ptail rmp)
  else
    none

/-- `add_mtd_device`, the device `mtd` of a size of `mtdSize`. -/
def addMtdDevice {W : Type*} (malloc : MtdMalloc W) (w : W) (mtd mtdSize offset size : ℕ)
    (name : Option CStr) (s : MtdList) : Option (MtdList × MtdEvent) :=
  let len := sizeofMtdfile + (name.getD []).length
  match malloc.run w s.heap len with
  | none => some (s, .none)
  | some rmp =>
    let partSize := if size ≠ 0 then size else (mtdSize + 2 ^ 64 - offset) % 2 ^ 64
    let e : MtdEntry := ⟨mtd, 0, s.mtdidx, offset, partSize, partSize, name.getD []⟩
    let s := { s with heap := s.heap.insert rmp e, mtdidx := s.mtdidx + 1 }
    (s.link rmp).map fun queue => ({ s with queue, ptail := rmp }, .added rmp)

/-- A test of the entry at an address. -/
def MtdList.at (s : MtdList) (p : MtdEntry → Bool) (a : ℕ) : Bool := (s.heap.lookup a).any p

/-- The first entry of the list that passes a test; a loop of more turns than there are entries does
    not end. -/
def MtdList.search (s : MtdList) (p : MtdEntry → Bool) : Option (Option ℕ) :=
  s.queue.findFrom (s.at p) s.heap.keys.length s.queue.first

/-- `del_mtd_device`. -/
def delMtdDevice (mtd : ℕ) (s : MtdList) : Option (MtdList × MtdEvent) := do
  match ← s.search (·.mtd == mtd) with
  | none => return (s, .none)
  | some rmp =>
    let e ← s.heap.lookup rmp
    if e.refs = 0 then
      -- `*rmp->i_next.le_prev` is the pointer to `rmp` itself
      let prev := (s.queue.get (s.queue.prev rmp)).getD 0
      let ptail := if s.ptail = rmp then listEntry prev else s.ptail
      return ({ s with
        ptail
        queue := s.queue.remove rmp
        mtdidx := s.mtdidx - 1
        heap := s.heap.erase rmp }, .deleted rmp)
    else
      return (s, .none)

/-- `first_del_all_parts`: the entries stay allocated. -/
def firstDelAllParts (s : MtdList) : Option (MtdList × MtdEvent) := do
  let queue ← Queue.removeFrom s.heap.keys.length s.queue s.queue.first
  return ({ s with queue }, .emptied)

/-- A change to the count of files of an entry. -/
def MtdList.addRefs (s : MtdList) (a : ℕ) (k : ℤ) : Option MtdList := do
  let e ← s.heap.lookup a
  return { s with heap := s.heap.insert a { e with refs := e.refs + k } }

/-- What `mtdfile_open` is asked for: an index or a name. -/
inductive MtdName where
  | index (idx : ℤ)
  | name (dname : CStr)

def MtdName.is (n : MtdName) (e : MtdEntry) : Bool :=
  match n with
  | .index idx => e.index == idx
  | .name dname => e.name == dname

/-- `mtdfile_open`, as far as the entry goes. -/
def mtdfileOpen (n : MtdName) (s : MtdList) : Option (MtdList × MtdEvent) := do
  match ← s.search n.is with
  | none => return (s, .none)
  | some p =>
    let s ← s.addRefs p 1
    return ({ s with files := p :: s.files }, .none)

/-- `mtdfile_close` of one of the open files. -/
def mtdfileClose (i : ℕ) (s : MtdList) : Option (MtdList × MtdEvent) := do
  match s.files[i]? with
  | none => return (s, .none)
  | some p =>
    let s ← s.addRefs p (-1)
    return ({ s with files := s.files.eraseIdx i }, .none)

/-! ## §3 Runs -/

inductive MtdOp (W : Type*) where
  | add (w : W) (mtd mtdSize offset size : ℕ) (name : Option CStr)
  | del (mtd : ℕ)
  | delAll
  | openFile (n : MtdName)
  | closeFile (i : ℕ)

variable {W : Type*} {malloc : MtdMalloc W} {s s' : MtdList} {live live' : List ℕ}

def mtdStep (malloc : MtdMalloc W) (s : MtdList) : MtdOp W → Option (MtdList × MtdEvent)
  | .add w mtd mtdSize offset size name => addMtdDevice malloc w mtd mtdSize offset size name s
  | .del mtd => delMtdDevice mtd s
  | .delAll => firstDelAllParts s
  | .openFile n => mtdfileOpen n s
  | .closeFile i => mtdfileClose i s

/-- The entries added and not deleted, after one more event. -/
def MtdEvent.after (live : List ℕ) : MtdEvent → List ℕ
  | .added rmp => live ++ [rmp]
  | .deleted rmp => live.erase rmp
  | .emptied => []
  | .none => live

/-- A state, with the entries added and not deleted; `none` when an operation has no outcome. -/
abbrev MtdState := Option (MtdList × List ℕ)

def mtdNext (malloc : MtdMalloc W) (st : MtdState) (op : MtdOp W) : MtdState := do
  let (s, live) ← st
  let (s, event) ← mtdStep malloc s op
  return (s, event.after live)

/-- The index of an entry. -/
def MtdList.indexOf (s : MtdList) (a : ℕ) : Option ℤ := (s.heap.lookup a).map (·.index)

/-- **What the list is to be**: the entries added and not deleted, of different indices, the last of
    them in `ptail`. -/
structure ListRight (s : MtdList) (live : List ℕ) : Prop where
  holds : s.queue.Holds live
  indices : live.Pairwise fun a b => s.indexOf a ≠ s.indexOf b
  tail : ∀ a ∈ live.getLast?, s.ptail = a

/-- The list is right after an operation. -/
def RightAfter (malloc : MtdMalloc W) (st : MtdState) (op : MtdOp W) : Prop :=
  ∃ s live, mtdNext malloc st op = some (s, live) ∧ ListRight s live

/-- **When an operation keeps it so.**  A new entry is to take an index that no other has, and an
    entry that is deleted is to be followed by another or the only one. -/
def MtdOk (malloc : MtdMalloc W) (st : MtdState) (op : MtdOp W) : Prop :=
  ∃ s live, st = some (s, live) ∧
    match op with
    | .add w _ _ _ _ name =>
      (malloc.run w s.heap (sizeofMtdfile + (name.getD []).length)).isSome →
        ∀ a ∈ live, s.indexOf a ≠ some s.mtdidx
    | .del mtd => ∀ a e, live.find? (s.at (·.mtd == mtd)) = some a → s.heap.lookup a = some e →
        e.refs = 0 → live.getLast? = some a → live = [a]
    | _ => True

/-! ## §4 Invariants -/

/-- **What every operation keeps.**  An entry counts its open files, and stays allocated for
    them. -/
structure MtdKept (s : MtdList) (live : List ℕ) : Prop where
  stored : ∀ a ∈ live, a ∈ s.heap
  inside : ∀ a e, s.heap.lookup a = some e → a + e.len ≤ 2 ^ 32
  apart : ∀ a e b e', s.heap.lookup a = some e → s.heap.lookup b = some e' → a ≠ b →
    a + e.len ≤ b ∨ b + e'.len ≤ a
  refs : ∀ a e, s.heap.lookup a = some e → e.refs = s.files.count a
  filesStored : ∀ a ∈ s.files, a ∈ s.heap

structure MtdInv (s : MtdList) (live : List ℕ) : Prop extends ListRight s live, MtdKept s live

theorem mtdInv_start : MtdInv .start [] where
  holds := ⟨List.nodup_nil, trivial, rfl⟩
  indices := .nil
  tail := by simp
  stored := by simp
  inside := by simp [MtdList.start]
  apart := by simp [MtdList.start]
  refs := by simp [MtdList.start]
  filesStored := by simp [MtdList.start]

theorem MtdInv.length_le (h : MtdInv s live) : live.length ≤ s.heap.keys.length := by
  apply List.Subperm.length_le
  apply List.subperm_of_subset h.holds.nodup
  intro a ha
  exact AList.mem_keys.mp (h.stored a ha)

/-- A search has an outcome. -/
theorem MtdInv.search (h : MtdInv s live) (p : MtdEntry → Bool) :
    s.search p = some (live.find? (s.at p)) :=
  h.holds.findFrom h.length_le

theorem MtdInv.lookup (h : MtdInv s live) {a : ℕ} (ha : a ∈ live) :
    ∃ e, s.heap.lookup a = some e :=
  Option.isSome_iff_exists.mp (AList.lookup_isSome.mpr (h.stored a ha))

/-! ### Files -/

/-- A change to the count of an entry that goes with one to the open files. -/
theorem MtdInv.addRefs (h : MtdInv s live) {a : ℕ} {k : ℤ} (files : List ℕ) (ha : a ∈ s.heap)
    (hfiles : ∀ b ∈ files, b ∈ s.heap)
    (hcount : ∀ b, (files.count b : ℤ) = s.files.count b + if b = a then k else 0) :
    ∃ heap, s.addRefs a k = some { s with heap } ∧ MtdInv { s with heap, files } live := by
  obtain ⟨e, he⟩ := Option.isSome_iff_exists.mp (AList.lookup_isSome.mpr ha)
  let s' : MtdList := { s with heap := s.heap.insert a { e with refs := e.refs + k } }
  have hmem : ∀ b, b ∈ s'.heap ↔ b ∈ s.heap := by
    intro b
    simp only [s', AList.mem_insert]
    constructor
    · rintro (rfl | hb)
      · exact ha
      · exact hb
    · exact .inr
  -- but for its count the entry is as before
  have hold : ∀ b e', s'.heap.lookup b = some e' → ∃ e₀, s.heap.lookup b = some e₀ ∧
      e'.len = e₀.len ∧ e'.index = e₀.index ∧ e'.refs = e₀.refs + if b = a then k else 0 := by
    intro b e' hb
    by_cases hba : b = a
    · subst hba
      have he' : { e with refs := e.refs + k } = e' := by simpa [s'] using hb
      subst he'
      exact ⟨e, he, rfl, rfl, by simp⟩
    · have hb' : s.heap.lookup b = some e' := by
        simpa [s', AList.lookup_insert_ne hba] using hb
      exact ⟨e', hb', rfl, rfl, by simp [hba]⟩
  have hindex : ∀ b, s'.indexOf b = s.indexOf b := by
    intro b
    by_cases hba : b = a
    · subst hba
      simp [MtdList.indexOf, s', he]
    · simp [MtdList.indexOf, s', AList.lookup_insert_ne hba]
  refine ⟨s'.heap, by simp [MtdList.addRefs, he, s'], ?_⟩
  refine ⟨⟨h.holds, ?_, h.tail⟩, ?_, ?_, ?_, ?_, ?_⟩
  · apply h.indices.imp
    intro b c hbc
    change s'.indexOf b ≠ s'.indexOf c
    rwa [hindex, hindex]
  · intro b hb
    exact (hmem b).mpr (h.stored b hb)
  · intro b e' hb
    obtain ⟨e₀, he₀, hlen, -⟩ := hold b e' hb
    rw [hlen]
    exact h.inside b e₀ he₀
  · intro b e₁ c e₂ hb hc hbc
    obtain ⟨e₁', he₁, hlen₁, -⟩ := hold b e₁ hb
    obtain ⟨e₂', he₂, hlen₂, -⟩ := hold c e₂ hc
    rw [hlen₁, hlen₂]
    exact h.apart b e₁' c e₂' he₁ he₂ hbc
  · intro b e' hb
    obtain ⟨e₀, he₀, -, -, hrefs⟩ := hold b e' hb
    rw [hrefs, h.refs b e₀ he₀]
    exact (hcount b).symm
  · intro b hb
    exact (hmem b).mpr (hfiles b hb)

theorem MtdInv.openFile (h : MtdInv s live) (n : MtdName) :
    ∃ s', mtdfileOpen n s = some (s', .none) ∧ MtdInv s' live := by
  unfold mtdfileOpen
  rw [h.search]
  rcases hfind : live.find? (s.at n.is) with _ | a
  · exact ⟨s, rfl, h⟩
  · have ha : a ∈ s.heap := h.stored a (List.mem_of_find?_eq_some hfind)
    obtain ⟨heap, hheap, hinv⟩ := h.addRefs (k := 1) (a :: s.files) ha
      (by
        intro b hb
        rcases List.mem_cons.mp hb with rfl | hb
        · exact ha
        · exact h.filesStored b hb)
      (by
        intro b
        rw [List.count_cons]
        by_cases hba : b = a
        · simp [hba]
        · simp [hba, Ne.symm hba])
    exact ⟨{ s with heap, files := a :: s.files }, by simp [hheap], hinv⟩

theorem MtdInv.closeFile (h : MtdInv s live) (i : ℕ) :
    ∃ s', mtdfileClose i s = some (s', .none) ∧ MtdInv s' live := by
  unfold mtdfileClose
  rcases hget : s.files[i]? with _ | a
  · exact ⟨s, rfl, h⟩
  · obtain ⟨hi, rfl⟩ := List.getElem?_eq_some_iff.mp hget
    have hperm := List.getElem_cons_eraseIdx_perm hi
    obtain ⟨heap, hheap, hinv⟩ := h.addRefs (k := -1) (s.files.eraseIdx i)
      (h.filesStored _ (List.getElem_mem hi))
      (by
        intro b hb
        exact h.filesStored b (List.mem_of_mem_eraseIdx hb))
      (by
        intro b
        have hcount := hperm.count_eq b
        rw [List.count_cons] at hcount
        by_cases hba : b = s.files[i]
        · rw [if_pos hba, ← hcount, if_pos (by simp [hba])]
          push_cast
          ring
        · rw [if_neg hba, ← hcount, if_neg (by simp [Ne.symm hba])]
          simp)
    exact ⟨{ s with heap, files := s.files.eraseIdx i }, by simp [hheap], hinv⟩

/-! ### Insertions -/

/-- Behind the last entry, or at the head of a list that has none. -/
theorem MtdInv.link (h : MtdInv s live) {rmp : ℕ} (hrmp : rmp ∉ live) {heap : MtdHeap}
    (hheap : ∀ a ∈ live, a ∈ heap) (mtdidx : ℤ) :
    ∃ queue, MtdList.link { s with heap, mtdidx } rmp = some queue ∧
      queue.Holds (live ++ [rmp]) := by
  unfold MtdList.link
  dsimp only
  have hfirst := h.holds.first_eq
  rcases List.eq_nil_or_concat live with rfl | ⟨l, b, rfl⟩
  · have hempty : s.queue.first = none := hfirst
    rw [if_pos hempty]
    exact ⟨_, rfl, h.holds.insertHead_first rmp⟩
  · rw [List.concat_eq_append] at *
    have htail : s.ptail = b := h.tail b (by simp)
    have hfirst' : s.queue.first ≠ none := by
      rw [hfirst]
      simp
    have hstored : (heap.lookup s.ptail).isSome := by
      rw [htail]
      exact AList.lookup_isSome.mpr (hheap b (by simp))
    rw [if_neg hfirst', if_pos hstored, htail]
    exact ⟨_, rfl, h.holds.insertAfter_last hrmp⟩

variable (malloc) in
theorem MtdInv.add (h : MtdInv s live) (w : W) (mtd mtdSize offset size : ℕ)
    (name : Option CStr) :
    ∃ s' event, addMtdDevice malloc w mtd mtdSize offset size name s = some (s', event) ∧
      MtdKept s' (event.after live) ∧
      (ListRight s' (event.after live) ↔
        ((malloc.run w s.heap (sizeofMtdfile + (name.getD []).length)).isSome →
          ∀ a ∈ live, s.indexOf a ≠ some s.mtdidx)) := by
  unfold addMtdDevice
  dsimp only
  rcases hmalloc : malloc.run w s.heap (sizeofMtdfile + (name.getD []).length) with _ | rmp
  · refine ⟨s, .none, rfl, h.toMtdKept, ?_⟩
    simp [MtdEvent.after, h.toListRight]
  obtain ⟨-, hinside, hapart⟩ := malloc.apart _ _ _ _ hmalloc
  have hrmp : rmp ∉ s.heap := by
    intro hmem
    obtain ⟨e, he⟩ := Option.isSome_iff_exists.mp (AList.lookup_isSome.mpr hmem)
    have := hapart rmp e he
    simp only [sizeofMtdfile, MtdEntry.len] at this
    omega
  have hrmp' : rmp ∉ live := fun hmem => hrmp (h.stored rmp hmem)
  dsimp only
  generalize hpart : (if size ≠ 0 then size else (mtdSize + 2 ^ 64 - offset) % 2 ^ 64) = partSize
  generalize he : (⟨mtd, 0, s.mtdidx, offset, partSize, partSize, name.getD []⟩ : MtdEntry) = e
  have hlen : e.len = sizeofMtdfile + (name.getD []).length := by rw [← he]; rfl
  have hindex : e.index = s.mtdidx := by rw [← he]
  have hrefs : e.refs = 0 := by rw [← he]
  have hheap : ∀ a ∈ live, a ∈ s.heap.insert rmp e := fun a ha =>
    (AList.mem_insert _).mpr (.inr (h.stored a ha))
  obtain ⟨queue, hqueue, hholds⟩ := h.link hrmp' hheap (s.mtdidx + 1)
  rw [hqueue]
  refine ⟨_, _, rfl, ?_, ?_⟩
  · -- the new block is apart from the others, and no file is open on it
    have hcases : ∀ a e', (s.heap.insert rmp e).lookup a = some e' →
        (a = rmp ∧ e' = e) ∨ (a ≠ rmp ∧ s.heap.lookup a = some e') := by
      intro a e' ha
      by_cases har : a = rmp
      · subst har
        rw [AList.lookup_insert, Option.some.injEq] at ha
        exact .inl ⟨rfl, ha.symm⟩
      · rw [AList.lookup_insert_ne har] at ha
        exact .inr ⟨har, ha⟩
    refine ⟨?_, ?_, ?_, ?_, ?_⟩
    · intro a ha
      rcases List.mem_append.mp ha with ha | ha
      · exact hheap a ha
      · obtain rfl : a = rmp := by simpa using ha
        exact (AList.mem_insert _).mpr (.inl rfl)
    · intro a e' ha
      rcases hcases a e' ha with ⟨rfl, rfl⟩ | ⟨-, ha⟩
      · rw [hlen]
        exact hinside
      · exact h.inside a e' ha
    · intro a e₁ b e₂ ha hb hab
      rcases hcases a e₁ ha with ⟨rfl, rfl⟩ | ⟨-, ha'⟩ <;>
        rcases hcases b e₂ hb with ⟨rfl, rfl⟩ | ⟨-, hb'⟩
      · exact absurd rfl hab
      · rw [hlen]
        exact (hapart b e₂ hb').symm
      · rw [hlen]
        exact hapart a e₁ ha'
      · exact h.apart a e₁ b e₂ ha' hb' hab
    · intro a e' ha
      rcases hcases a e' ha with ⟨rfl, rfl⟩ | ⟨-, ha⟩
      · rw [hrefs, List.count_eq_zero_of_not_mem]
        · rfl
        · exact fun hmem => hrmp (h.filesStored _ hmem)
      · exact h.refs a e' ha
    · intro a ha
      exact (AList.mem_insert _).mpr (.inr (h.filesStored a ha))
  · have hsame : ∀ a ∈ live, ((s.heap.insert rmp e).lookup a).map (·.index) = s.indexOf a := by
      intro a ha
      have har : a ≠ rmp := fun heq => hrmp' (heq ▸ ha)
      rw [AList.lookup_insert_ne har]
      rfl
    have hnew : ((s.heap.insert rmp e).lookup rmp).map (·.index) = some s.mtdidx := by
      rw [AList.lookup_insert]
      simp [hindex]
    constructor
    · intro hright _ a ha
      have hpair := (List.pairwise_append.mp hright.indices).2.2 a ha rmp (by simp)
      simp only [MtdList.indexOf] at hpair
      rwa [hnew, hsame a ha] at hpair
    · intro hfree
      refine ⟨hholds, ?_, ?_⟩
      · apply List.pairwise_append.mpr
        refine ⟨?_, by simp, ?_⟩
        · apply h.indices.imp_of_mem
          intro a b ha hb hab
          simp only [MtdList.indexOf]
          rwa [hsame a ha, hsame b hb]
        · intro a ha b hb
          obtain rfl : b = rmp := by simpa using hb
          simp only [MtdList.indexOf]
          rw [hnew, hsame a ha]
          exact hfree rfl a ha
      · intro a ha
        simpa [MtdEvent.after] using ha

/-! ### Deletions -/

theorem listEntry_ne {a b : ℕ} {e : MtdEntry} (hb : b + e.len ≤ 2 ^ 32) (ha : a < 2 ^ 32)
    (hapart : b + e.len ≤ a ∨ a < b) : listEntry a ≠ b := by
  unfold listEntry offsetofNext
  simp only [MtdEntry.len, sizeofMtdfile] at hb hapart
  omega

/-- `ptail` is as it should be unless what it led to is gone and something is left. -/
theorem MtdInv.tail_erase {l₁ l₂ : List ℕ} {a : ℕ} {e : MtdEntry} (h : MtdInv s (l₁ ++ a :: l₂))
    (he : s.heap.lookup a = some e) :
    (∀ b ∈ (l₁ ++ l₂).getLast?, (if s.ptail = a then listEntry a else s.ptail) = b) ↔
      ((l₁ ++ a :: l₂).getLast? = some a → l₁ ++ a :: l₂ = [a]) := by
  have hnodup := h.holds.nodup
  rcases List.eq_nil_or_concat l₂ with rfl | ⟨l, z, rfl⟩
  · have htail : s.ptail = a := h.tail a (by simp)
    rw [if_pos htail]
    rcases List.eq_nil_or_concat l₁ with rfl | ⟨l, b, rfl⟩
    · simp
    · rw [List.concat_eq_append] at *
      -- what `ptail` leads to then is not the entry before
      have hab : b ≠ a := by
        have := (List.nodup_append.mp hnodup).2.2 b (by simp) a (by simp)
        exact this
      obtain ⟨e', he'⟩ := h.lookup (a := b) (by simp)
      have hwrong : listEntry a ≠ b := by
        have hin := h.inside a e he
        apply listEntry_ne (h.inside b e' he')
        · simp only [MtdEntry.len, sizeofMtdfile] at hin
          omega
        · have := h.apart b e' a e he' he hab
          simp only [MtdEntry.len, sizeofMtdfile] at this ⊢
          omega
      have hlen : l ++ [b] ++ [a] ≠ [a] := by
        intro heq
        have := congrArg List.length heq
        simp at this
      simp only [List.append_nil, List.getLast?_concat, Option.mem_some_iff, forall_eq',
        hwrong, hlen, imp_false, not_true_eq_false]
  · rw [List.concat_eq_append] at *
    have hza : z ≠ a := by
      have := (List.nodup_cons.mp (List.nodup_append.mp hnodup).2.1).1
      rintro rfl
      simp at this
    have hlast : (l₁ ++ a :: (l ++ [z])).getLast? = some z := by
      rw [← List.cons_append, ← List.append_assoc, List.getLast?_concat]
    have htail : s.ptail = z := h.tail z hlast
    have hlast' : (l₁ ++ (l ++ [z])).getLast? = some z := by
      simp [List.getLast?_append]
    rw [htail, if_neg hza, hlast, hlast']
    simp [hza]

theorem MtdInv.del (h : MtdInv s live) (mtd : ℕ) :
    ∃ s' event, delMtdDevice mtd s = some (s', event) ∧ MtdKept s' (event.after live) ∧
      (ListRight s' (event.after live) ↔
        ∀ a e, live.find? (s.at (·.mtd == mtd)) = some a → s.heap.lookup a = some e →
          e.refs = 0 → live.getLast? = some a → live = [a]) := by
  unfold delMtdDevice
  rw [h.search]
  rcases hfind : live.find? (s.at (·.mtd == mtd)) with _ | a
  · refine ⟨s, .none, rfl, h.toMtdKept, ?_⟩
    simp [MtdEvent.after, h.toListRight]
  have ha : a ∈ live := List.mem_of_find?_eq_some hfind
  obtain ⟨e, he⟩ := h.lookup ha
  by_cases hrefs : e.refs = 0
  swap
  · refine ⟨s, .none, by simp [he, hrefs], h.toMtdKept, ?_⟩
    simp only [MtdEvent.after, h.toListRight, true_iff]
    intro a' e' ha' he' hrefs' _
    cases ha'
    rw [he] at he'
    cases he'
    exact absurd hrefs' hrefs
  obtain ⟨l₁, l₂, rfl⟩ := List.append_of_mem ha
  obtain ⟨-, hnodup₂, hdisj⟩ := List.nodup_append.mp h.holds.nodup
  have ha₁ : a ∉ l₁ := fun hmem => hdisj a hmem a (by simp) rfl
  have ha₂ : a ∉ l₂ := (List.nodup_cons.mp hnodup₂).1
  have herase : (l₁ ++ a :: l₂).erase a = l₁ ++ l₂ := by
    rw [List.erase_append_right _ ha₁, List.erase_cons_head]
  have hprev : (s.queue.get (s.queue.prev a)).getD 0 = a := by
    rw [h.holds.get_prev]
    rfl
  have hne : ∀ b, b ∈ l₁ ++ l₂ → b ≠ a := by
    rintro b hb rfl
    rcases List.mem_append.mp hb with hb | hb
    · exact ha₁ hb
    · exact ha₂ hb
  have hsub : ∀ b, b ∈ l₁ ++ l₂ → b ∈ l₁ ++ a :: l₂ := by
    intro b hb
    simp only [List.mem_append, List.mem_cons] at hb ⊢
    tauto
  let s' : MtdList := { s with
    ptail := if s.ptail = a then listEntry a else s.ptail
    queue := s.queue.remove a
    mtdidx := s.mtdidx - 1
    heap := s.heap.erase a }
  refine ⟨s', .deleted a, by simp [he, hrefs, hprev, s'], ?_, ?_⟩
  · rw [MtdEvent.after, herase]
    have hheld : ∀ b e', (s.heap.erase a).lookup b = some e' → s.heap.lookup b = some e' := by
      intro b e' hb
      have hba : b ≠ a := by
        rintro rfl
        simp at hb
      rwa [AList.lookup_erase_ne hba] at hb
    refine ⟨?_, ?_, ?_, ?_, ?_⟩
    · intro b hb
      exact AList.mem_erase.mpr ⟨hne b hb, h.stored b (hsub b hb)⟩
    · intro b e' hb
      exact h.inside b e' (hheld b e' hb)
    · intro b e₁ c e₂ hb hc hbc
      exact h.apart b e₁ c e₂ (hheld b e₁ hb) (hheld c e₂ hc) hbc
    · intro b e' hb
      exact h.refs b e' (hheld b e' hb)
    · intro b hb
      apply AList.mem_erase.mpr
      refine ⟨?_, h.filesStored b hb⟩
      rintro rfl
      -- no file is open on it
      have hcount := h.refs b e he
      have hpos : 0 < s.files.count b := List.count_pos_iff.mpr hb
      omega
  · rw [MtdEvent.after, herase]
    have hsame : ∀ b ∈ l₁ ++ l₂, s'.indexOf b = s.indexOf b := by
      intro b hb
      simp only [MtdList.indexOf, s']
      rw [AList.lookup_erase_ne (hne b hb)]
    have hindices : (l₁ ++ l₂).Pairwise fun b c => s'.indexOf b ≠ s'.indexOf c := by
      apply (h.indices.sublist (by simp)).imp_of_mem
      intro b c hb hc hbc
      rwa [hsame b hb, hsame c hc]
    have hright : ListRight s' (l₁ ++ l₂) ↔ ∀ b ∈ (l₁ ++ l₂).getLast?, s'.ptail = b :=
      ⟨fun hright => hright.tail, fun htail => ⟨h.holds.remove, hindices, htail⟩⟩
    rw [hright, h.tail_erase he]
    constructor
    · intro hlast a' e' ha' _ _
      cases ha'
      exact hlast
    · intro hall
      exact hall a e rfl he hrefs

/-! ### Deletion of all -/

theorem MtdInv.delAll (h : MtdInv s live) :
    ∃ s', firstDelAllParts s = some (s', .emptied) ∧ MtdInv s' [] := by
  obtain ⟨queue, hqueue, hholds⟩ := h.holds.removeFrom h.length_le
  refine ⟨{ s with queue }, by simp [firstDelAllParts, hqueue], ?_⟩
  exact ⟨⟨hholds, .nil, by simp⟩, by simp, h.inside, h.apart, h.refs, h.filesStored⟩

/-! ## §5 Runs -/

variable (malloc) in
theorem MtdInv.mtdNext (h : MtdInv s live) (op : MtdOp W) :
    ∃ s' live', mtdNext malloc (some (s, live)) op = some (s', live') ∧ MtdKept s' live' ∧
      (ListRight s' live' ↔ MtdOk malloc (some (s, live)) op) := by
  have hok : ∀ P : Prop, (∃ s₁ live₁, some (s, live) = some (s₁, live₁) ∧ P) ↔ P := by
    intro P
    constructor
    · rintro ⟨-, -, -, hP⟩
      exact hP
    · exact fun hP => ⟨s, live, rfl, hP⟩
  cases op with
  | add w mtd mtdSize offset size name =>
    obtain ⟨s', event, hstep, hkept, hiff⟩ :=
      h.add malloc w mtd mtdSize offset size name
    refine ⟨s', event.after live, by simp [Fs.mtdNext, mtdStep, hstep], hkept, ?_⟩
    rw [hiff]
    simp [MtdOk]
  | del mtd =>
    obtain ⟨s', event, hstep, hkept, hiff⟩ := h.del mtd
    refine ⟨s', event.after live, by simp [Fs.mtdNext, mtdStep, hstep], hkept, ?_⟩
    rw [hiff]
    simp [MtdOk]
  | delAll =>
    obtain ⟨s', hstep, hinv⟩ := h.delAll
    refine ⟨s', [], by simp [Fs.mtdNext, mtdStep, hstep, MtdEvent.after], hinv.toMtdKept, ?_⟩
    simp [MtdOk, hinv.toListRight]
  | openFile n =>
    obtain ⟨s', hstep, hinv⟩ := h.openFile n
    refine ⟨s', live, by simp [Fs.mtdNext, mtdStep, hstep, MtdEvent.after], hinv.toMtdKept, ?_⟩
    simp [MtdOk, hinv.toListRight]
  | closeFile i =>
    obtain ⟨s', hstep, hinv⟩ := h.closeFile i
    refine ⟨s', live, by simp [Fs.mtdNext, mtdStep, hstep, MtdEvent.after], hinv.toMtdKept, ?_⟩
    simp [MtdOk, hinv.toListRight]

/-- The states that such operations lead to. -/
def MtdReached (st : MtdState) : Prop := ∃ s live, st = some (s, live) ∧ MtdInv s live

theorem rightAfter_iff (st : MtdState) (op : MtdOp W) (h : MtdReached st) :
    RightAfter malloc st op ↔ MtdOk malloc st op := by
  obtain ⟨s, live, rfl, h⟩ := h
  obtain ⟨s', live', hnext, -, hiff⟩ := h.mtdNext malloc op
  rw [← hiff, RightAfter, hnext]
  constructor
  · rintro ⟨s₁, live₁, heq, hright⟩
    cases heq
    exact hright
  · exact fun hright => ⟨s', live', rfl, hright⟩

theorem mtdReached_next (st : MtdState) (op : MtdOp W) (h : MtdReached st)
    (hok : MtdOk malloc st op) : MtdReached (mtdNext malloc st op) := by
  obtain ⟨s, live, rfl, h⟩ := h
  obtain ⟨s', live', hnext, hkept, hiff⟩ := h.mtdNext malloc op
  exact ⟨s', live', hnext, ⟨hiff.mpr hok, hkept⟩⟩

/-- **Every run**: the list is right after each operation exactly when each operation is one that
    keeps it so. -/
theorem mtdList_exact (malloc : MtdMalloc W) (ops : List (MtdOp W)) :
    EveryStep (mtdNext malloc) (RightAfter malloc) (some (.start, [])) ops ↔
      EveryStep (mtdNext malloc) (MtdOk malloc) (some (.start, [])) ops := by
  apply everyStep_iff rightAfter_iff mtdReached_next
  exact ⟨.start, [], rfl, mtdInv_start⟩

/-- An allocator that takes the address it is told, where there is room. -/
def mallocAt : MtdMalloc ℕ where
  run w heap len :=
    if 0 < w ∧ w + len ≤ 2 ^ 32 ∧
        ∀ x ∈ heap.entries, x.1 + x.2.len ≤ w ∨ w + len ≤ x.1 then
      some w
    else
      none
  apart := by
    intro w heap len a ha
    split at ha
    · rename_i hroom
      cases ha
      refine ⟨hroom.1, hroom.2.1, ?_⟩
      intro b e hb
      exact hroom.2.2 ⟨b, e⟩ (AList.mem_lookup_iff.mp hb)
    · simp at ha

/-- Two devices, the first of them deleted and one more added: the last two have index 1. -/
theorem mtdList_sameIndex :
    ¬ EveryStep (mtdNext mallocAt) (RightAfter mallocAt) (some (.start, []))
      [.add 1000 1 64 0 0 none, .add 2000 2 64 0 0 none, .del 1, .add 3000 1 64 0 0 none] := by
  intro h
  obtain ⟨s, live, hnext, hright⟩ := h
    [.add 1000 1 64 0 0 none, .add 2000 2 64 0 0 none, .del 1] (.add 3000 1 64 0 0 none)
    (List.prefix_refl _)
  have hsame : ((mtdNext mallocAt (List.foldl (mtdNext mallocAt) (some (.start, []))
      [.add 1000 1 64 0 0 none, .add 2000 2 64 0 0 none, .del 1])
      (.add 3000 1 64 0 0 none)).map fun st =>
        decide (st.2.Pairwise fun a b => st.1.indexOf a ≠ st.1.indexOf b)) = some false := by
    decide
  rw [hnext] at hsame
  simp [hright.indices] at hsame

end Pmon.Fs
