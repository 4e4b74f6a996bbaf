import Mathlib.Data.List.Basic
import Mathlib.Data.Nat.Find
import Mathlib.Tactic.Common

/-!
# Wildcard patterns

A pattern is a list of items: a letter that stands for itself, `one` for any one letter and `many`
for any run of letters.  A greedy matcher does not look for all the places where `many` may end:
it takes the letters that follow, up to the next wildcard, and goes on behind the first place where
they occur.  The letters that end a pattern are looked for together with a mark `e` behind the
text.

## Key results

- `Greedy.matches`: what the greedy matcher accepts does match.
- `Steady.greedy`: on a steady pattern it accepts every text that matches.
- `greedy_right_iff`: for every other pattern there is a text that matches and that it misses.
-/

namespace Pmon.Lib.Glob

/-- An item of a pattern. -/
inductive Item (α : Type) where
  | lit (a : α)
  | one
  | many
  deriving DecidableEq, Repr

variable {α : Type} {ok : α → Prop} {e : α} {p q : List (Item α)} {s t : List α}

/-- The texts that a pattern describes. -/
inductive Matches : List (Item α) → List α → Prop where
  | nil : Matches [] []
  | lit (a : α) {p s} : Matches p s → Matches (.lit a :: p) (a :: s)
  | one (a : α) {p s} : Matches p s → Matches (.one :: p) (a :: s)
  | many (skip : List α) {p s} : Matches p s → Matches (.many :: p) (skip ++ s)

/-- Whatever stands before a match of a pattern that begins with `many` belongs to it as well. -/
theorem Matches.many_append (h : Matches (.many :: p) s) (u : List α) :
    Matches (.many :: p) (u ++ s) := by
  cases h with
  | many skip h =>
    rw [← List.append_assoc]
    exact .many (u ++ skip) h

/-! ## §1 The letters at the front of a pattern -/

/-- The letters up to the first wildcard. -/
def run : List (Item α) → List α
  | .lit a :: p => a :: run p
  | _ => []

/-- The pattern from its first wildcard on. -/
def rest : List (Item α) → List (Item α)
  | .lit _ :: p => rest p
  | p => p

theorem run_append_rest (p : List (Item α)) : (run p).map .lit ++ rest p = p := by
  induction p with
  | nil => rfl
  | cons i p ih =>
    cases i with
    | lit a => simp [run, rest, ih]
    | one => rfl
    | many => rfl

theorem length_rest_le (p : List (Item α)) : (rest p).length ≤ p.length := by
  conv_rhs => rw [← run_append_rest p]
  simp

theorem rest_eq_cons {i : Item α} (h : rest p = i :: q) : i = .one ∨ i = .many := by
  induction p with
  | nil => simp [rest] at h
  | cons j p ih =>
    cases j with
    | lit a => exact ih h
    | one => exact .inl (List.cons.inj h).1.symm
    | many => exact .inr (List.cons.inj h).1.symm

/-- A pattern matches the text that begins with its letters and goes on like its rest. -/
theorem matches_iff_rest : Matches p s ↔ ∃ t, s = run p ++ t ∧ Matches (rest p) t := by
  induction p generalizing s with
  | nil => simp [run, rest]
  | cons i p ih =>
    cases i with
    | lit a =>
      constructor
      · intro h
        cases h with
        | lit _ h =>
          obtain ⟨t, rfl, ht⟩ := ih.mp h
          exact ⟨t, rfl, ht⟩
      · rintro ⟨t, rfl, ht⟩
        exact .lit a (ih.mpr ⟨t, rfl, ht⟩)
    | one => simp [run, rest]
    | many => simp [run, rest]

/-! ## §2 The greedy matcher -/

/-- `t` is what follows the first place in `s` where `r` occurs. -/
def FirstAt (r s t : List α) : Prop :=
  ∃ skip, s = skip ++ r ++ t ∧ ∀ u v, s = u ++ r ++ v → skip.length ≤ u.length

theorem firstAt_append (r t : List α) : FirstAt r (r ++ t) t :=
  ⟨[], rfl, fun _ _ _ => Nat.zero_le _⟩

/-- There is only one first place. -/
theorem FirstAt.unique {r t' : List α} (h : FirstAt r s t) (h' : FirstAt r s t') : t = t' := by
  obtain ⟨skip, rfl, hfirst⟩ := h
  obtain ⟨skip', heq, hfirst'⟩ := h'
  have hlen : skip.length = skip'.length :=
    Nat.le_antisymm (hfirst _ _ heq) (hfirst' _ _ rfl)
  rw [List.append_assoc, List.append_assoc] at heq
  obtain ⟨-, htail⟩ := List.append_inj heq hlen
  exact List.append_cancel_left htail

/-- Where `r` occurs there is a first place for it, and no more of the text is gone there. -/
theorem exists_firstAt (u r v : List α) : ∃ t, FirstAt r (u ++ r ++ v) t ∧ v <:+ t := by
  classical
  have hex : ∃ n, ∃ u' v', u ++ r ++ v = u' ++ r ++ v' ∧ u'.length = n := ⟨_, u, v, rfl, rfl⟩
  obtain ⟨u', v', heq, hlen⟩ := Nat.find_spec hex
  refine ⟨v', ⟨u', heq, fun u'' v'' h => ?_⟩, ?_⟩
  · rw [hlen]
    exact Nat.find_min' hex ⟨u'', v'', h, rfl⟩
  · have hle : u'.length ≤ u.length := by
      rw [hlen]
      exact Nat.find_min' hex ⟨u, v, rfl, rfl⟩
    have hv : v <:+ u ++ r ++ v := List.suffix_append ..
    have hv' : v' <:+ u ++ r ++ v := heq ▸ List.suffix_append ..
    apply List.suffix_of_suffix_length_le hv hv'
    have := congrArg List.length heq
    simp only [List.length_append] at this
    omega

/-- The texts that the greedy matcher accepts, with the mark `e` behind the text. -/
inductive Greedy (e : α) : List (Item α) → List α → Prop where
  | nil : Greedy e [] []
  | lit (a : α) {p s} : Greedy e p s → Greedy e (.lit a :: p) (a :: s)
  | one (a : α) {p s} : Greedy e p s → Greedy e (.one :: p) (a :: s)
  | many {p : List (Item α)} {s t : List α} : run p ≠ [] → rest p ≠ [] →
      FirstAt (run p) s t → Greedy e (rest p) t → Greedy e (.many :: p) s
  | last {p : List (Item α)} {s : List α} : rest p = [] → run p <:+ s →
      ¬ run p ++ [e] <:+: s → Greedy e (.many :: p) s

/-- **Soundness**: the greedy matcher accepts matching texts only. -/
theorem Greedy.matches (h : Greedy e p s) : Matches p s := by
  induction h with
  | nil => exact .nil
  | lit a _ ih => exact .lit a ih
  | one a _ ih => exact .one a ih
  | many _ _ hfirst _ ih =>
    obtain ⟨skip, rfl, -⟩ := hfirst
    rw [List.append_assoc]
    exact .many skip (matches_iff_rest.mpr ⟨_, rfl, ih⟩)
  | last hrest hsuffix _ =>
    obtain ⟨skip, rfl⟩ := hsuffix
    exact .many skip (matches_iff_rest.mpr ⟨[], by simp, hrest ▸ .nil⟩)

/-! ## §3 Steady patterns -/

/-- Whether a pattern begins with a wildcard. -/
def wild : List (Item α) → Bool
  | .one :: _ => true
  | .many :: _ => true
  | _ => false

/-- No wildcard follows `many`, and nothing but a wildcard follows `one`. -/
def steadyTail : List (Item α) → Bool
  | [] => true
  | .lit _ :: p => steadyTail p
  | .one :: p => wild p && steadyTail p
  | .many :: p => !wild p && steadyTail p

/-- A steady pattern: from the first `many` on no wildcard follows `many`, and nothing but a
    wildcard follows `one`. -/
def steady : List (Item α) → Bool
  | [] => true
  | .lit _ :: p => steady p
  | .one :: p => steady p
  | .many :: p => steadyTail (.many :: p)

theorem steadyTail_rest (p : List (Item α)) : steadyTail p = steadyTail (rest p) := by
  induction p with
  | nil => rfl
  | cons i p ih => cases i <;> simp [steadyTail, rest, ih]

theorem wild_rest (h : rest p ≠ []) : wild (rest p) = true := by
  obtain ⟨i, q, hq⟩ := List.exists_cons_of_ne_nil h
  rcases rest_eq_cons hq with rfl | rfl <;> simp [hq, wild]

theorem run_eq_nil_iff : run p = [] ↔ p = [] ∨ wild p = true := by
  cases p with
  | nil => simp [run]
  | cons i p => cases i <;> simp [run, wild]

/-- Behind the first `many` the matcher may start late: where a steady pattern that begins with a
    wildcard matches the end of a text, the greedy matcher accepts the whole text. -/
theorem greedy_of_suffix (hsteady : steadyTail p = true) (hwild : wild p = true) (hs : e ∉ s)
    (hsuffix : t <:+ s) (hm : Matches p t) : Greedy e p s := by
  induction h : p.length using Nat.strong_induction_on generalizing p s t with
  | _ n ih =>
  subst h
  cases p with
  | nil => simp [wild] at hwild
  | cons i p =>
    cases i with
    | lit a => simp [wild] at hwild
    | one =>
      -- one letter goes, of the long text as of the short one
      simp only [steadyTail, Bool.and_eq_true] at hsteady
      cases hm with
      | one a hm =>
        obtain ⟨u, rfl⟩ := hsuffix
        cases u with
        | nil =>
          exact .one a (ih _ (Nat.lt_succ_self _) hsteady.2 hsteady.1
            (fun h => hs (List.mem_cons_of_mem _ h)) (List.suffix_refl _) hm rfl)
        | cons b u =>
          refine .one b (ih _ (Nat.lt_succ_self _) hsteady.2 hsteady.1
            (fun h => hs (List.mem_cons_of_mem _ h)) ?_ hm rfl)
          exact ⟨u ++ [a], by simp⟩
    | many =>
      simp only [steadyTail, Bool.and_eq_true, Bool.not_eq_true'] at hsteady
      obtain ⟨u, rfl⟩ := hsuffix
      have hwhole := hm.many_append u
      generalize hx : u ++ t = x at hs hwhole
      cases hwhole with
      | many skip hp =>
      obtain ⟨t', rfl, ht'⟩ := matches_iff_rest.mp hp
      by_cases hrest : rest p = []
      · -- the last letters stand at the end, and nowhere is the mark
        rw [hrest] at ht'
        cases ht'
        refine .last hrest ⟨skip, by simp⟩ fun hinside => hs (hinside.subset ?_)
        simp
      · have hrun : run p ≠ [] := by
          rw [Ne, run_eq_nil_iff]
          rintro (rfl | h)
          · exact hrest rfl
          · rw [hsteady.1] at h
            exact Bool.false_ne_true h
        obtain ⟨t'', hfirst, hle⟩ := exists_firstAt skip (run p) t'
        rw [List.append_assoc] at hfirst
        have hin : t'' <:+ skip ++ (run p ++ t') := by
          obtain ⟨u', h', -⟩ := hfirst
          exact h' ▸ List.suffix_append ..
        refine .many hrun hrest hfirst (ih _ ?_ ?_ (wild_rest hrest) ?_ hle ht' rfl)
        · exact Nat.lt_succ_of_le (length_rest_le p)
        · rw [← steadyTail_rest]
          exact hsteady.2
        · exact fun h => hs (hin.subset h)

/-- **Completeness**: on a steady pattern the greedy matcher accepts every text that matches. -/
theorem Steady.greedy (hsteady : steady p = true) (hs : e ∉ s) (hm : Matches p s) :
    Greedy e p s := by
  induction p generalizing s with
  | nil =>
    cases hm
    exact .nil
  | cons i p ih =>
    cases i with
    | lit a =>
      cases hm with
      | lit _ hm => exact .lit a (ih hsteady (fun h => hs (List.mem_cons_of_mem _ h)) hm)
    | one =>
      cases hm with
      | one a hm => exact .one a (ih hsteady (fun h => hs (List.mem_cons_of_mem _ h)) hm)
    | many => exact greedy_of_suffix hsteady rfl hs (List.suffix_refl _) hm

/-! ## §4 Patterns that are not steady -/

/-- A text that matches: a letter for each `one`, nothing for `many`. -/
def sample (a : α) : List (Item α) → List α
  | [] => []
  | .lit b :: p => b :: sample a p
  | .one :: p => a :: sample a p
  | .many :: p => sample a p

theorem matches_sample (a : α) (p : List (Item α)) : Matches p (sample a p) := by
  induction p with
  | nil => exact .nil
  | cons i p ih =>
    cases i with
    | lit b => exact .lit b ih
    | one => exact .one a ih
    | many => exact .many [] ih

/-- All letters of a pattern are admitted. -/
def Admits (ok : α → Prop) (p : List (Item α)) : Prop :=
  ∀ a, Item.lit a ∈ p → ok a

theorem Admits.tail {i : Item α} (h : Admits ok (i :: p)) : Admits ok p :=
  fun a ha => h a (List.mem_cons_of_mem _ ha)

theorem Admits.rest (h : Admits ok p) : Admits ok (rest p) := by
  intro a ha
  apply h
  rw [← run_append_rest p]
  exact List.mem_append_right _ ha

theorem Admits.run (h : Admits ok p) : ∀ a ∈ run p, ok a := by
  intro a ha
  apply h
  rw [← run_append_rest p]
  exact List.mem_append_left _ (List.mem_map_of_mem ha)

theorem Admits.sample {a : α} (ha : ok a) (h : Admits ok p) : ∀ x ∈ sample a p, ok x := by
  induction p with
  | nil => exact fun x hx => absurd hx List.not_mem_nil
  | cons i p ih =>
    have hrec := ih h.tail
    cases i with
    | lit b => exact List.forall_mem_cons.mpr ⟨h b (List.mem_cons_self ..), hrec⟩
    | one => exact List.forall_mem_cons.mpr ⟨ha, hrec⟩
    | many => exact hrec

/-- With two wildcards in a row behind `many` the matcher accepts nothing. -/
theorem not_greedy_of_wild (h : wild p = true) : ¬ Greedy e (.many :: p) s := by
  have hrun : run p = [] := run_eq_nil_iff.mpr (.inr h)
  intro hg
  cases hg with
  | many hne => exact hne hrun
  | last hrest =>
    have := run_append_rest p
    rw [hrun, hrest] at this
    subst this
    simp [wild] at h

/-- The text begins with the letters: the matcher goes on right behind them. -/
theorem greedy_many_append (hrest : rest p ≠ []) (h : Greedy e (.many :: p) (run p ++ t)) :
    Greedy e (rest p) t := by
  cases h with
  | many _ _ hfirst hg => exact (firstAt_append _ _).unique hfirst ▸ hg
  | last hnil => exact absurd hnil hrest

/-- What goes wrong behind the letters of a pattern that is not steady: the greedy matcher misses
    a text that matches, or whatever begins with some text. -/
theorem missed_of_wild (hother : ∀ c, ∃ z, z ≠ c ∧ ok z)
    (ih : ∀ q : List (Item α), q.length < p.length → Admits ok q →
      steadyTail (.many :: q) = false → ∃ s, (∀ x ∈ s, ok x) ∧ Matches (.many :: q) s ∧
        ¬ Greedy e (.many :: q) s)
    (hp : Admits ok p) (hwild : wild p = true) (hnot : steadyTail p = false) :
    (∃ t, (∀ x ∈ t, ok x) ∧ Matches p t ∧ ¬ Greedy e p t) ∨
      ∃ t, (∀ x ∈ t, ok x) ∧ ∀ v, ¬ Greedy e p (t ++ v) := by
  induction p with
  | nil => simp [wild] at hwild
  | cons i p ihp =>
    cases i with
    | lit a => simp [wild] at hwild
    | many => exact .inl (ih p (Nat.lt_succ_self _) hp.tail hnot)
    | one =>
      by_cases hw : wild p = true
      · -- a run of `one`: one letter more in front of what the shorter run misses
        obtain ⟨a, -, ha⟩ := hother e
        have hnot' : steadyTail p = false := by simpa [steadyTail, hw] using hnot
        rcases ihp (fun q hq => ih q (Nat.lt_succ_of_lt hq)) hp.tail hw hnot' with
          ⟨t, ht, hm, hg⟩ | ⟨t, ht, hg⟩
        · refine .inl ⟨a :: t, List.forall_mem_cons.mpr ⟨ha, ht⟩, .one a hm, fun h => ?_⟩
          cases h with
          | one _ h => exact hg h
        · refine .inr ⟨a :: t, List.forall_mem_cons.mpr ⟨ha, ht⟩, fun v h => ?_⟩
          cases h with
          | one _ h => exact hg v h
      · -- the next letter, or the end, meets a letter that is not it
        cases p with
        | nil =>
          obtain ⟨a, -, ha⟩ := hother e
          refine .inr ⟨[a, a], by simp [ha], fun v h => ?_⟩
          cases h with
          | one _ h => nomatch h
        | cons j p =>
          cases j with
          | lit c =>
            obtain ⟨z, hzc, hze⟩ := hother c
            refine .inr ⟨[z, z], by simp [hze], fun v h => ?_⟩
            cases h with
            | one _ h =>
              cases h with
              | lit => exact hzc rfl
          | one => exact absurd rfl hw
          | many => exact absurd rfl hw

/-- Behind the first `many`: every pattern that is not steady has a text it misses. -/
theorem exists_missed_many (hother : ∀ c, ∃ z, z ≠ c ∧ ok z) (hp : Admits ok p)
    (hnot : steadyTail (.many :: p) = false) :
    ∃ s, (∀ x ∈ s, ok x) ∧ Matches (.many :: p) s ∧ ¬ Greedy e (.many :: p) s := by
  induction h : p.length using Nat.strong_induction_on generalizing p with
  | _ n ih =>
  subst h
  obtain ⟨a, -, ha⟩ := hother e
  by_cases hw : wild p = true
  · exact ⟨sample a p, hp.sample ha, .many [] (matches_sample a p), not_greedy_of_wild hw⟩
  have hnot' : steadyTail (rest p) = false := by
    rw [← steadyTail_rest]
    simpa [steadyTail, hw] using hnot
  have hrest : rest p ≠ [] := by
    intro h
    simp [h, steadyTail] at hnot'
  have hih : ∀ q : List (Item α), q.length < (rest p).length → Admits ok q →
      steadyTail (.many :: q) = false → ∃ s, (∀ x ∈ s, ok x) ∧ Matches (.many :: q) s ∧
        ¬ Greedy e (.many :: q) s := fun q hq hok hn =>
    ih _ (Nat.lt_of_lt_of_le hq (length_rest_le p)) hok hn rfl
  rcases missed_of_wild hother hih hp.rest (wild_rest hrest) hnot' with
    ⟨t, ht, hm, hg⟩ | ⟨t, ht, hg⟩
  · exact ⟨run p ++ t, List.forall_mem_append.mpr ⟨hp.run, ht⟩,
      .many [] (matches_iff_rest.mpr ⟨t, rfl, hm⟩), fun h => hg (greedy_many_append hrest h)⟩
  · -- the place to stop at comes second
    refine ⟨run p ++ (t ++ sample a p), ?_, ?_, fun h => hg _ (greedy_many_append hrest h)⟩
    · exact List.forall_mem_append.mpr ⟨hp.run, List.forall_mem_append.mpr ⟨ht, hp.sample ha⟩⟩
    · rw [← List.append_assoc]
      exact .many _ (matches_sample a p)

/-- **A pattern that is not steady has a text that matches and that the greedy matcher misses.** -/
theorem exists_missed (hother : ∀ c, ∃ z, z ≠ c ∧ ok z) (hp : Admits ok p)
    (hnot : steady p = false) : ∃ s, (∀ x ∈ s, ok x) ∧ Matches p s ∧ ¬ Greedy e p s := by
  obtain ⟨a, -, ha⟩ := hother e
  induction p with
  | nil => simp [steady] at hnot
  | cons i p ih =>
    cases i with
    | lit b =>
      obtain ⟨s, hs, hm, hg⟩ := ih hp.tail hnot
      have hb : ok b := hp b (List.mem_cons_self ..)
      refine ⟨b :: s, List.forall_mem_cons.mpr ⟨hb, hs⟩, .lit b hm, fun h => ?_⟩
      cases h with
      | lit _ h => exact hg h
    | one =>
      obtain ⟨s, hs, hm, hg⟩ := ih hp.tail hnot
      refine ⟨a :: s, List.forall_mem_cons.mpr ⟨ha, hs⟩, .one a hm, fun h => ?_⟩
      cases h with
      | one _ h => exact hg h
    | many => exact exists_missed_many hother hp.tail hnot

/-- **Greedy matching is right for every text exactly on the steady patterns.** -/
theorem greedy_right_iff (he : ¬ ok e) (hother : ∀ c, ∃ z, z ≠ c ∧ ok z) (hp : Admits ok p) :
    (∀ s, (∀ x ∈ s, ok x) → Matches p s → Greedy e p s) ↔ steady p = true := by
  constructor
  · intro h
    by_contra hnot
    obtain ⟨s, hs, hm, hg⟩ := exists_missed hother hp (Bool.eq_false_iff.mpr hnot)
    exact hg (h s hs hm)
  · intro h s hs hm
    exact Steady.greedy h (fun hmem => he (hs e hmem)) hm

end Pmon.Lib.Glob
