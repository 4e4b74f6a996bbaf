import Mathlib.Order.Lattice

/-!
# Running extremes

The meet of a start value and of the values of a list, computed from left to right.  Leaving
some of the elements out changes nothing exactly if they lie above the meet of the others.
The same for joins is the statement in the dual order.

A search that also keeps where it has found the least value so far starts with a value and a place;
it ends with them, or with an element that is as good as any.
-/

namespace Pmon.Lib

variable {α β : Type*} [SemilatticeInf β] {f : α → β} {a b : β} {l : List α} {p : α → Bool}

/-- The running meet of `f` over a list. -/
def runInf (f : α → β) (a : β) (l : List α) : β := l.foldl (fun m x => m ⊓ f x) a

theorem le_runInf_iff : b ≤ runInf f a l ↔ b ≤ a ∧ ∀ x ∈ l, b ≤ f x := by
  induction l generalizing a with
  | nil => simp [runInf]
  | cons x l ih =>
    change b ≤ runInf f (a ⊓ f x) l ↔ _
    rw [ih, le_inf_iff, List.forall_mem_cons, and_assoc]

theorem runInf_le_filter : runInf f a l ≤ runInf f a (l.filter p) := by
  obtain ⟨ha, hl⟩ := le_runInf_iff.mp (le_refl (runInf f a l))
  exact le_runInf_iff.mpr ⟨ha, fun x hx => hl x (List.mem_filter.mp hx).1⟩

/-- **Leaving elements out** changes nothing iff they lie above the meet of the others. -/
theorem runInf_filter_iff :
    runInf f a l = runInf f a (l.filter p) ↔
      ∀ x ∈ l, p x = false → runInf f a (l.filter p) ≤ f x := by
  constructor
  · intro heq x hx _
    rw [← heq]
    exact (le_runInf_iff.mp (le_refl _)).2 x hx
  · intro hall
    obtain ⟨ha, hfilter⟩ := le_runInf_iff.mp (le_refl (runInf f a (l.filter p)))
    refine le_antisymm runInf_le_filter (le_runInf_iff.mpr ⟨ha, fun x hx => ?_⟩)
    cases hp : p x with
    | true => exact hfilter x (List.mem_filter.mpr ⟨hx, hp⟩)
    | false => exact hall x hx hp

/-! ## Searches -/

/-- The least value so far, and where it has been found. -/
structure Best (α β : Type*) where
  value : β
  place : α

section Searches

variable {γ : Type*} [LinearOrder γ] {g : α → γ} {s : Best α γ}

/-- An element is better only when its value is less. -/
def Best.next (g : α → γ) (s : Best α γ) (x : α) : Best α γ :=
  if g x < s.value then ⟨g x, x⟩ else s

def runBest (g : α → γ) (s : Best α γ) (l : List α) : Best α γ := l.foldl (Best.next g) s

/-- **A search** keeps what it starts with when nothing is less, and else finds a least one. -/
theorem runBest_cases (g : α → γ) (s : Best α γ) (l : List α) :
    (runBest g s l = s ∧ ∀ x ∈ l, s.value ≤ g x) ∨
      ∃ x ∈ l, runBest g s l = ⟨g x, x⟩ ∧ g x < s.value ∧ ∀ y ∈ l, g x ≤ g y := by
  induction l generalizing s with
  | nil => exact Or.inl ⟨rfl, fun x hx => absurd hx List.not_mem_nil⟩
  | cons x l ih =>
    change (runBest g (s.next g x) l = s ∧ _) ∨ ∃ y ∈ x :: l, runBest g (s.next g x) l = _ ∧ _
    rw [Best.next]
    by_cases hless : g x < s.value
    · rw [if_pos hless]
      right
      rcases ih ⟨g x, x⟩ with ⟨hstay, hall⟩ | ⟨y, hy, hfound, hlt, hall⟩
      · exact ⟨x, List.mem_cons_self, hstay, hless,
          List.forall_mem_cons.mpr ⟨le_refl _, hall⟩⟩
      · exact ⟨y, List.mem_cons_of_mem _ hy, hfound, hlt.trans hless,
          List.forall_mem_cons.mpr ⟨hlt.le, hall⟩⟩
    · rw [if_neg hless]
      have hle := not_lt.mp hless
      rcases ih s with ⟨hstay, hall⟩ | ⟨y, hy, hfound, hlt, hall⟩
      · exact Or.inl ⟨hstay, List.forall_mem_cons.mpr ⟨hle, hall⟩⟩
      · exact Or.inr ⟨y, List.mem_cons_of_mem _ hy, hfound, hlt,
          List.forall_mem_cons.mpr ⟨(hlt.trans_le hle).le, hall⟩⟩

/-- From an element of its own, a search finds a least one. -/
theorem runBest_least {x : α} {l : List α} : ∃ y ∈ x :: l,
    runBest g ⟨g x, x⟩ l = ⟨g y, y⟩ ∧ ∀ z ∈ x :: l, g y ≤ g z := by
  rcases runBest_cases g ⟨g x, x⟩ l with ⟨hstay, hall⟩ | ⟨y, hy, hfound, hlt, hall⟩
  · exact ⟨x, List.mem_cons_self, hstay, List.forall_mem_cons.mpr ⟨le_refl _, hall⟩⟩
  · exact ⟨y, List.mem_cons_of_mem _ hy, hfound, List.forall_mem_cons.mpr ⟨hlt.le, hall⟩⟩

end Searches

end Pmon.Lib
