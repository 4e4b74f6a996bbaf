import Mathlib.Data.List.Basic

/-!
# Runs of a labelled system

A system is a relation `step s l s'` between states, with the operation `l` that is performed.
`Run step s ls s'` is a finite run.  `Run.invariant` is the one induction over runs: what
holds at the start and is kept by every step holds in every state reached.  `Guarded` restricts
a system to the steps that meet a condition on the state before and the operation.

Where the operation decides the next state, `EveryStep` says that a property holds of every step of a
run; `everyStep_iff` trades it for the condition that is the same for each step.
-/

namespace Pmon.Lib

variable {S L : Type*} {step : S → L → S → Prop} {s s' s'' : S} {ls ls' : List L}

/-- Finite runs. -/
inductive Run (step : S → L → S → Prop) : S → List L → S → Prop where
  | nil (s : S) : Run step s [] s
  | cons {s s' s'' : S} {l : L} {ls : List L} :
      step s l s' → Run step s' ls s'' → Run step s (l :: ls) s''

/-- **Invariants**: what every step keeps, every run keeps. -/
theorem Run.invariant {Inv : S → Prop} (h : Run step s ls s')
    (hstep : ∀ s l s', Inv s → step s l s' → Inv s') (hs : Inv s) : Inv s' := by
  induction h with
  | nil => exact hs
  | cons hl _ ih => exact ih (hstep _ _ _ hs hl)

/-- **Refinement**: where every step is one of another system, every run is. -/
theorem Run.refine {T : Type*} {step' : T → L → T → Prop} {abs : S → T} (h : Run step s ls s')
    (hstep : ∀ s l s', step s l s' → step' (abs s) l (abs s')) :
    Run step' (abs s) ls (abs s') := by
  induction h with
  | nil => exact .nil _
  | cons hl _ ih => exact .cons (hstep _ _ _ hl) ih

theorem Run.append (h : Run step s ls s') (h' : Run step s' ls' s'') :
    Run step s (ls ++ ls') s'' := by
  induction h with
  | nil => exact h'
  | cons hl _ ih => exact .cons hl (ih h')

/-- The steps that meet a condition on the state before and the operation. -/
def Guarded (step : S → L → S → Prop) (ok : S → L → Prop) (s : S) (l : L) (s' : S) : Prop :=
  step s l s' ∧ ok s l

/-! ## Steps that are functions -/

/-- Each operation of a run, in the state that those before it have led to. -/
def EveryStep (next : S → L → S) (P : S → L → Prop) (s : S) (ls : List L) : Prop :=
  ∀ before l, before ++ [l] <+: ls → P (before.foldl next s) l

variable {next : S → L → S} {P Q : S → L → Prop} {l : L}

theorem everyStep_cons :
    EveryStep next P s (l :: ls) ↔ P s l ∧ EveryStep next P (next s l) ls := by
  constructor
  · intro h
    refine ⟨h [] l (by simp), ?_⟩
    intro before l' hprefix
    exact h (l :: before) l' (by simpa using hprefix)
  · rintro ⟨hl, h⟩ before l' hprefix
    cases before with
    | nil =>
      obtain rfl : l' = l := by simpa using hprefix
      exact hl
    | cons l'' before =>
      simp only [List.cons_append, List.cons_prefix_cons] at hprefix
      obtain ⟨rfl, hprefix⟩ := hprefix
      exact h before l' hprefix

theorem everyStep_and :
    EveryStep next (fun s l => P s l ∧ Q s l) s ls ↔
      EveryStep next P s ls ∧ EveryStep next Q s ls := by
  constructor
  · intro h
    exact ⟨fun before l hprefix => (h before l hprefix).1,
      fun before l hprefix => (h before l hprefix).2⟩
  · rintro ⟨hP, hQ⟩ before l hprefix
    exact ⟨hP before l hprefix, hQ before l hprefix⟩

/-- **Step by step**: where a condition is the same as the property in every state of the invariant,
    and keeps it, they are the same for runs. -/
theorem everyStep_iff {Inv : S → Prop} (hstep : ∀ s l, Inv s → (P s l ↔ Q s l))
    (hnext : ∀ s l, Inv s → Q s l → Inv (next s l)) (hs : Inv s) :
    EveryStep next P s ls ↔ EveryStep next Q s ls := by
  induction ls generalizing s with
  | nil =>
    apply iff_of_true
    · intro before l hprefix
      simp at hprefix
    · intro before l hprefix
      simp at hprefix
  | cons l ls ih =>
    rw [everyStep_cons, everyStep_cons, hstep s l hs]
    apply and_congr_right
    intro hl
    exact ih (hnext s l hs hl)

end Pmon.Lib
