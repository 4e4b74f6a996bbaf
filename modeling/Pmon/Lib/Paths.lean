import Mathlib.Data.List.Basic
import Mathlib.Tactic.Common

/-!
# Paths

A path is a list of names.  `Resolves` follows it in a graph whose edges carry names: every name but
the last one leads to an inner node, the last one to what is looked for.

`endedPieces` are the pieces of a buffer that end inside it; `Along` compares them with the names of
a path that has been copied there.
-/

namespace Pmon.Lib

/-! ## Resolution -/

variable {N L : Type*} {inner final : N → L → N → Prop} {root d d' n n' : N} {name : L}
  {names : List L}

/-- **Resolution** of a path from a node on. -/
inductive Resolves (inner final : N → L → N → Prop) : N → List L → N → Prop where
  | last {d n : N} {name : L} : final d name n → Resolves inner final d [name] n
  | step {d d' n : N} {name : L} {names : List L} :
      inner d name d' → Resolves inner final d' names n → Resolves inner final d (name :: names) n

/-- The nodes that paths from the root lead through. -/
inductive Reached (inner : N → L → N → Prop) (root : N) : N → Prop where
  | root : Reached inner root root
  | step {d d' : N} {name : L} : Reached inner root d → inner d name d' → Reached inner root d'

theorem not_resolves_nil : ¬ Resolves inner final d [] n := nofun

theorem resolves_cons : Resolves inner final d (name :: names) n ↔
    (names = [] ∧ final d name n) ∨ ∃ d', inner d name d' ∧ Resolves inner final d' names n := by
  constructor
  · intro h
    cases h with
    | last hfinal => exact .inl ⟨rfl, hfinal⟩
    | step hinner hrest => exact .inr ⟨_, hinner, hrest⟩
  · rintro (⟨rfl, hfinal⟩ | ⟨d', hinner, hrest⟩)
    · exact .last hfinal
    · exact .step hinner hrest

/-- **One end at most**, where a name leads from a node to one node at most. -/
theorem Resolves.unique (h : Resolves inner final d names n) (h' : Resolves inner final d names n')
    (hd : Reached inner root d)
    (hinner : ∀ d, Reached inner root d → ∀ name a b, inner d name a → inner d name b → a = b)
    (hfinal : ∀ d, Reached inner root d → ∀ name a b, final d name a → final d name b → a = b) :
    n = n' := by
  induction h with
  | last hlast =>
    rcases resolves_cons.mp h' with ⟨-, hlast'⟩ | ⟨d', -, hrest⟩
    · exact hfinal _ hd _ _ _ hlast hlast'
    · exact absurd hrest not_resolves_nil
  | step hstep hrest ih =>
    rcases resolves_cons.mp h' with ⟨rfl, -⟩ | ⟨d', hstep', hrest'⟩
    · exact absurd hrest not_resolves_nil
    · obtain rfl := hinner _ hd _ _ _ hstep hstep'
      exact ih hrest' (.step hd hstep)

/-! ## Pieces of a buffer -/

variable {α : Type*} {p : α → Bool} {a : α} {as : List α}

/-- The pieces of a buffer that an end mark follows. -/
def endedPieces (p : α → Bool) : List α → List (List α)
  | [] => []
  | a :: as =>
    if p a then [] :: endedPieces p as
    else
      match endedPieces p as with
      | [] => []
      | w :: ws => (a :: w) :: ws

/-- A list cut to a length, or filled up to it. -/
def padTo (fill : α) : ℕ → List α → List α
  | 0, _ => []
  | n + 1, [] => fill :: padTo fill n []
  | n + 1, a :: as => a :: padTo fill n as

/-- The pieces are the names, as far as both go, and behind the last name they are empty. -/
def Along : List (List α) → List (List α) → Prop
  | [], ws => ∀ w ∈ ws, w = []
  | _ :: _, [] => True
  | v :: vs, w :: ws => v = w ∧ Along vs ws

theorem endedPieces_padTo_nil {fill : α} (h : p fill = true) (n : ℕ) :
    endedPieces p (padTo fill n []) = List.replicate n [] := by
  induction n with
  | zero => rfl
  | succ n ih => rw [padTo, endedPieces, if_pos h, ih, List.replicate_succ]

/-- **A copied path** has its names as the pieces. -/
theorem along_splitOn [BEq α] [LawfulBEq α] {sep fill : α} (h : fill ∉ as) (n : ℕ) :
    Along (as.splitOn sep) (endedPieces (fun a => a == sep || a == fill) (padTo fill n as)) := by
  induction as generalizing n with
  | nil =>
    rw [endedPieces_padTo_nil (by simp)]
    cases n with
    | zero => trivial
    | succ n =>
      refine ⟨rfl, ?_⟩
      intro w hw
      exact List.eq_of_mem_replicate hw
  | cons a as ih =>
    have hfill : fill ∉ as := List.not_mem_of_not_mem_cons h
    have hne : ¬ a = fill := fun heq => h (heq ▸ List.mem_cons_self)
    cases n with
    | zero =>
      rw [padTo, endedPieces]
      cases hsplit : List.splitOn sep (a :: as) with
      | nil => exact fun w hw => absurd hw List.not_mem_nil
      | cons v vs => trivial
    | succ n =>
      have hrest := ih hfill n
      rw [padTo, endedPieces, List.splitOn, List.splitOnP_cons_eq_if_modifyHead]
      by_cases hsep : a = sep
      · rw [if_pos (by simp [hsep]), if_pos (by simp [hsep])]
        exact ⟨rfl, hrest⟩
      · rw [if_neg (by simp [hsep]), if_neg (by simp [hsep, hne])]
        rw [List.splitOn] at hrest
        cases hsplit : as.splitOnP (· == sep) with
        | nil => exact absurd hsplit (List.splitOnP_ne_nil _ _)
        | cons v vs =>
          rw [hsplit] at hrest
          cases hpieces : endedPieces (fun a => a == sep || a == fill) (padTo fill n as) with
          | nil => trivial
          | cons w ws =>
            rw [hpieces] at hrest
            exact ⟨congrArg (a :: ·) hrest.1, hrest.2⟩

end Pmon.Lib
