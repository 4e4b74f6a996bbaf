import Mathlib.Data.List.Basic
import Mathlib.Data.List.Nodup
import Mathlib.Tactic.Common

/-!
# Ledgers of blocks

What happens to the blocks of a heap that each have an owner, as a list of entries: who is given
the block at an address and who gives it back.  An address may be used again; who owns a block is
what its last entry says.

## Key results

- `right_freeEach`: owners that give back one block each do right exactly when each owns its block.
- `owned_freeEach`: the blocks of the others are as before.
-/

namespace Pmon.Lib

/-- An entry: a block is given to an owner, or given back by somebody. -/
inductive Entry (O A : Type*) where
  | alloc (o : O) (p : A)
  | free (o : Option O) (p : A)
  deriving DecidableEq

namespace Entry

variable {O A : Type*}

def addr : Entry O A → A
  | .alloc _ p => p
  | .free _ p => p

variable [DecidableEq A]

/-- The last entry of an address. -/
def lastAt (log : List (Entry O A)) (p : A) : Option (Entry O A) :=
  (log.filter fun e => decide (e.addr = p)).getLast?

/-- Who owns the block at an address. -/
def Owned (log : List (Entry O A)) (o : O) (p : A) : Prop := lastAt log p = some (.alloc o p)

/-- A block is given back by its owner. -/
def Due (log : List (Entry O A)) : Entry O A → Prop
  | .alloc _ _ => True
  | .free o p => ∃ o', o = some o' ∧ Owned log o' p

/-- **A ledger is right** when each block is given back by its owner, thus once. -/
def Right (log : List (Entry O A)) : Prop :=
  ∀ before e after, log = before ++ e :: after → Due before e

variable {log : List (Entry O A)} {e : Entry O A} {o o' : O} {p p' : A}

/-! ## §1 One more entry -/

theorem lastAt_concat (log : List (Entry O A)) (e : Entry O A) (p : A) :
    lastAt (log ++ [e]) p = if e.addr = p then some e else lastAt log p := by
  unfold lastAt
  rw [List.filter_append]
  by_cases h : e.addr = p
  · simp [h]
  · simp [h]

theorem owned_unique (h : Owned log o p) (h' : Owned log o' p) : o = o' := by
  have heq := Option.some.inj (h.symm.trans h')
  cases heq
  rfl

theorem owned_concat_ne (h : e.addr ≠ p) : Owned (log ++ [e]) o p ↔ Owned log o p := by
  rw [Owned, lastAt_concat, if_neg h, Owned]

theorem owned_concat_alloc : Owned (log ++ [.alloc o p]) o' p ↔ o = o' := by
  simp [Owned, lastAt_concat, addr]

theorem not_owned_concat_free {o : Option O} : ¬ Owned (log ++ [.free o p]) o' p := by
  simp [Owned, lastAt_concat, addr]

theorem right_nil : Right ([] : List (Entry O A)) := by
  intro before e after h
  simp at h

theorem right_concat : Right (log ++ [e]) ↔ Right log ∧ Due log e := by
  constructor
  · intro h
    refine ⟨?_, h log e [] rfl⟩
    rintro before e' after rfl
    exact h before e' (after ++ [e]) (by simp)
  · rintro ⟨hlog, he⟩ before e' after heq
    rcases List.eq_nil_or_concat after with rfl | ⟨after, e'', rfl⟩
    · obtain ⟨rfl, hee⟩ := List.append_inj' heq rfl
      obtain rfl : e = e' := by simpa using hee
      exact he
    · rw [List.concat_eq_append, ← List.cons_append, ← List.append_assoc] at heq
      obtain ⟨rfl, -⟩ := List.append_inj' heq rfl
      exact hlog before e' after rfl

/-! ## §2 Blocks given back together -/

/-- Owners with a block each, in order. -/
def freeEach (xs : List (O × A)) : List (Entry O A) := xs.map fun x => .free (some x.1) x.2

variable {xs : List (O × A)}

/-- What the others own stays theirs. -/
theorem owned_free_other (hother : o ≠ o') (h : Owned log o p) :
    Owned (log ++ [.free (some o) p]) o' p' ↔ Owned log o' p' := by
  by_cases hp : p = p'
  · subst hp
    apply iff_of_false not_owned_concat_free
    intro h'
    exact hother (owned_unique h h')
  · exact owned_concat_ne hp

/-- **Each of several owners** gives back its block. -/
theorem right_freeEach (hxs : (xs.map Prod.fst).Nodup) :
    Right (log ++ freeEach xs) ↔ Right log ∧ ∀ x ∈ xs, Owned log x.1 x.2 := by
  induction xs generalizing log with
  | nil => simp [freeEach]
  | cons x xs ih =>
    obtain ⟨hx, hxs⟩ := List.nodup_cons.mp hxs
    have hsplit : log ++ freeEach (x :: xs) = log ++ [.free (some x.1) x.2] ++ freeEach xs := by
      simp [freeEach]
    rw [hsplit, ih hxs, right_concat, and_assoc, List.forall_mem_cons]
    apply and_congr_right
    intro _
    have hdue : Due log (.free (some x.1) x.2) ↔ Owned log x.1 x.2 := by
      simp [Due]
    rw [hdue]
    apply and_congr_right
    intro howned
    apply forall₂_congr
    intro y hy
    apply owned_free_other _ howned
    intro heq
    exact hx (heq ▸ List.mem_map_of_mem hy)

/-- The blocks of the others are as before. -/
theorem owned_freeEach (hxs : (xs.map Prod.fst).Nodup) (hall : ∀ x ∈ xs, Owned log x.1 x.2)
    (ho : o ∉ xs.map Prod.fst) : Owned (log ++ freeEach xs) o p ↔ Owned log o p := by
  induction xs generalizing log with
  | nil => simp [freeEach]
  | cons x xs ih =>
    obtain ⟨hx, hxs⟩ := List.nodup_cons.mp hxs
    rw [List.forall_mem_cons] at hall
    simp only [List.map_cons, List.mem_cons, not_or] at ho
    have hsplit : log ++ freeEach (x :: xs) = log ++ [.free (some x.1) x.2] ++ freeEach xs := by
      simp [freeEach]
    rw [hsplit, ih hxs _ ho.2]
    · exact owned_free_other (Ne.symm ho.1) hall.1
    · intro y hy
      apply (owned_free_other _ hall.1).mpr (hall.2 y hy)
      intro heq
      exact hx (heq ▸ List.mem_map_of_mem hy)

end Entry

end Pmon.Lib
