import Mathlib.Data.List.Basic
import Mathlib.Data.List.Induction

/-!
# Systems of separate components

A system has one state; each component `i` sees a part of it, `view s i`, and on its own would
change that part by `own i`.  The components are separate in a run when each sees what it would
make on its own.  `separate_iff` reduces that to the single steps.
-/

namespace Pmon.Lib

variable {S L I V : Type*} (step : S → L → S) (view : S → I → V) (own : I → V → L → V)

/-- A step changes for each component what that component changes on its own. -/
def KeepsApart (s : S) (l : L) : Prop := ∀ i, view (step s l) i = own i (view s i) l

/-- Each component sees, after every initial part of a run, what it makes on its own. -/
def Separate (s : S) (ls : List L) : Prop :=
  ∀ pre, pre <+: ls → ∀ i, view (pre.foldl step s) i = pre.foldl (own i) (view s i)

variable {step view own} {s : S} {ls : List L} {l : L}

theorem separate_concat :
    Separate step view own s (ls ++ [l]) ↔
      Separate step view own s ls ∧ KeepsApart step view own (ls.foldl step s) l := by
  constructor
  · intro h
    refine ⟨fun pre hpre => h pre (hpre.trans (List.prefix_append _ _)), fun i => ?_⟩
    have hall := h (ls ++ [l]) List.prefix_rfl i
    have hbefore := h ls (List.prefix_append _ _) i
    rw [List.foldl_append, List.foldl_append, ← hbefore] at hall
    exact hall
  · rintro ⟨hbefore, hlast⟩ pre hpre i
    rcases List.prefix_concat_iff.mp hpre with rfl | hpre
    · rw [List.foldl_append, List.foldl_append, ← hbefore ls List.prefix_rfl i]
      exact hlast i
    · exact hbefore pre hpre i

/-- **Separation** is a matter of the single steps. -/
theorem separate_iff :
    Separate step view own s ls ↔
      ∀ pre l, pre ++ [l] <+: ls → KeepsApart step view own (pre.foldl step s) l := by
  induction ls using List.reverseRecOn with
  | nil =>
    refine iff_of_true (fun pre hpre i => ?_) fun pre l hpre => ?_
    · rw [List.prefix_nil.mp hpre]
      rfl
    · exact absurd (List.prefix_nil.mp hpre) (List.append_ne_nil_of_right_ne_nil _ (by simp))
  | append_singleton ls l ih =>
    rw [separate_concat, ih]
    constructor
    · rintro ⟨hbefore, hlast⟩ pre l' hpre
      rcases List.prefix_concat_iff.mp hpre with heq | hpre
      · obtain ⟨rfl, hlast'⟩ := List.append_inj' heq rfl
        obtain rfl := List.singleton_inj.mp hlast'
        exact hlast
      · exact hbefore pre l' hpre
    · intro h
      exact ⟨fun pre l' hpre => h pre l' (hpre.trans (List.prefix_append _ _)),
        h ls l List.prefix_rfl⟩

end Pmon.Lib
