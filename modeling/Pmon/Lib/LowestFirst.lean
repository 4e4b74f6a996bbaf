import Mathlib.Data.Fintype.EquivFin
import Mathlib.Data.Fintype.Lattice
import Mathlib.Logic.Function.Basic
import Mathlib.Logic.Relation
import Mathlib.Order.Basic

/-!
# The lowest first

Items with keys are dealt with in the order of their keys, without sorting them: whoever passes an
item whose key is lower than those of all others deals with it and moves its key to the last one.
Passes are made over the items until all keys are the last one.

This comes to an end when the keys are *orderly*: none is behind the last one, and those in front of
it differ.  It has no other way to come to an end, for an item that shares its key is never lower
than all others, and one behind the last key is never reached, or again and again.

## Key results

- `orderly_iff_of_pick`: dealing with an item neither makes nor breaks orderliness.
- `loop_returns_iff`: the passes end if and only if the keys are orderly or an item fails.
- `loop_eq_ok_iff`: they end well exactly where the picks lead.
-/

namespace Pmon.Lib

/-- The key of `t` is lower than those of all other items. -/
def Lowest {ι α : Type*} [LT α] (k : ι → α) (t : ι) : Prop := ∀ u, u ≠ t → k t < k u

instance {ι α : Type*} [LT α] [Fintype ι] [DecidableEq ι] [DecidableLT α] (k : ι → α) (t : ι) :
    Decidable (Lowest k t) :=
  inferInstanceAs (Decidable (∀ u, u ≠ t → k t < k u))

/-- Items with keys, and what dealing with one does to the state: it moves its key to the last one,
    or fails. -/
structure LowestFirst (ι α σ ε : Type*) [LinearOrder α] [DecidableEq ι] where
  last : α
  key : σ → ι → α
  act : ι → σ → Except ε σ
  key_act : ∀ s t s', Lowest (key s) t → act t s = .ok s' →
    key s' = Function.update (key s) t last

namespace LowestFirst

variable {ι α σ ε : Type*} [LinearOrder α] [DecidableEq ι]

section

variable (L : LowestFirst ι α σ ε)

/-- All keys are the last one. -/
def Done (s : σ) : Prop := ∀ t, L.key s t = L.last

instance [Fintype ι] (s : σ) : Decidable (L.Done s) := inferInstanceAs (Decidable (∀ _, _ = _))

/-- The items of the list are passed. -/
def pass [Fintype ι] : List ι → σ → Except ε σ
  | [], s => .ok s
  | t :: ts, s =>
    if Lowest (L.key s) t then
      match L.act t s with
      | .error e => .error e
      | .ok s => pass ts s
    else pass ts s

/-- Passes until all keys are the last one. -/
def loop [Fintype ι] (ts : List ι) : ℕ → σ → Option (Except ε σ)
  | 0, _ => none
  | fuel + 1, s =>
    match L.pass ts s with
    | .error e => some (.error e)
    | .ok s => if L.Done s then some (.ok s) else loop ts fuel s

/-- The lowest item is dealt with. -/
def Pick (s s' : σ) : Prop := ∃ t, Lowest (L.key s) t ∧ L.act t s = .ok s'

/-- The lowest item cannot be dealt with. -/
def Fails (s : σ) : Prop := ∃ t e, Lowest (L.key s) t ∧ L.act t s = .error e

/-- After `n` items one cannot be dealt with. -/
def FailsAfter : ℕ → σ → Prop
  | 0, s => L.Fails s
  | n + 1, s => ∃ s', L.Pick s s' ∧ FailsAfter n s'

/-- No key is behind the last one, and those in front of it differ. -/
def Orderly (s : σ) : Prop :=
  (∀ t, L.key s t ≤ L.last) ∧ ∀ t u, t ≠ u → L.key s t = L.key s u → L.key s t = L.last

end

variable {L : LowestFirst ι α σ ε} {s s' s'' : σ} {t u : ι} {ts : List ι}

/-! ## §1 Picks -/

theorem lowest_unique {k : ι → α} (ht : Lowest k t) (hu : Lowest k u) : t = u := by
  by_contra hne
  exact lt_asymm (ht u (Ne.symm hne)) (hu t hne)

/-- There is at most one way to go on. -/
theorem pick_unique (h : L.Pick s s') (h' : L.Pick s s'') : s' = s'' := by
  obtain ⟨t, ht, hact⟩ := h
  obtain ⟨u, hu, hact'⟩ := h'
  obtain rfl := lowest_unique ht hu
  exact Except.ok.inj (hact.symm.trans hact')

theorem pick_of_lowest (h : Lowest (L.key s) t) : L.Fails s ∨ ∃ s', L.Pick s s' := by
  cases hact : L.act t s with
  | error e => exact .inl ⟨t, e, h, hact⟩
  | ok s' => exact .inr ⟨s', t, h, hact⟩

theorem not_pick_of_fails (h : L.Fails s) : ¬ L.Pick s s' := by
  rintro ⟨u, hu, hact'⟩
  obtain ⟨t, e, ht, hact⟩ := h
  obtain rfl := lowest_unique ht hu
  cases hact.symm.trans hact'

/-- Where all keys are the last one, none is the lowest. -/
theorem Done.not_lowest [Nontrivial ι] (h : L.Done s) (t : ι) : ¬ Lowest (L.key s) t := by
  intro ht
  obtain ⟨u, hu⟩ := exists_ne t
  exact absurd (ht u hu) (by rw [h t, h u]; exact lt_irrefl _)

theorem Done.orderly (h : L.Done s) : L.Orderly s :=
  ⟨fun t => (h t).le, fun t _ _ _ => h t⟩

/-- The lowest of several keys that are not behind the last one is in front of it. -/
theorem Orderly.lowest_lt [Nontrivial ι] (h : L.Orderly s) (ht : Lowest (L.key s) t) :
    L.key s t < L.last := by
  obtain ⟨u, hu⟩ := exists_ne t
  exact (ht u hu).trans_le (h.1 u)

/-- **Orderliness** is kept both ways. -/
theorem orderly_iff_of_pick [Nontrivial ι] (h : L.Pick s s') : L.Orderly s' ↔ L.Orderly s := by
  obtain ⟨t, ht, hact⟩ := h
  have hkey := L.key_act s t s' ht hact
  have hself : L.key s' t = L.last := by rw [hkey, Function.update_self]
  have hother : ∀ u, u ≠ t → L.key s' u = L.key s u := fun u hu => by
    rw [hkey, Function.update_of_ne hu]
  constructor
  · rintro ⟨hle, htie⟩
    constructor
    · intro u
      rcases eq_or_ne u t with rfl | hu
      · obtain ⟨v, hv⟩ := exists_ne u
        exact (ht v hv).le.trans (hother v hv ▸ hle v)
      · exact hother u hu ▸ hle u
    · intro u v hne heq
      rcases eq_or_ne u t with rfl | hu
      · exact absurd heq (ht v (Ne.symm hne)).ne
      · rcases eq_or_ne v t with rfl | hv
        · exact absurd heq.symm (ht u hu).ne
        · rw [← hother u hu]
          exact htie u v hne (by rw [hother u hu, hother v hv, heq])
  · rintro ⟨hle, htie⟩
    constructor
    · intro u
      rcases eq_or_ne u t with rfl | hu
      · exact hself.le
      · rw [hother u hu]
        exact hle u
    · intro u v hne heq
      rcases eq_or_ne u t with rfl | hu
      · exact hself
      · rcases eq_or_ne v t with rfl | hv
        · rw [heq, hself]
        · rw [hother u hu]
          rw [hother u hu, hother v hv] at heq
          exact htie u v hne heq

theorem orderly_iff_of_picks [Nontrivial ι] (h : Relation.ReflTransGen L.Pick s s') :
    L.Orderly s' ↔ L.Orderly s := by
  induction h with
  | refl => exact Iff.rfl
  | tail _ hpick ih => exact (orderly_iff_of_pick hpick).trans ih

theorem failsAfter_iff : (∃ n, L.FailsAfter n s) ↔
    ∃ s', Relation.ReflTransGen L.Pick s s' ∧ L.Fails s' := by
  constructor
  · rintro ⟨n, h⟩
    induction n generalizing s with
    | zero => exact ⟨s, .refl, h⟩
    | succ n ih =>
      obtain ⟨s₁, hpick, hrest⟩ := h
      obtain ⟨s', hrun, hfails⟩ := ih hrest
      exact ⟨s', .head hpick hrun, hfails⟩
  · rintro ⟨s', hrun, hfails⟩
    induction hrun using Relation.ReflTransGen.head_induction_on with
    | refl => exact ⟨0, hfails⟩
    | head hpick _ ih =>
      obtain ⟨n, hn⟩ := ih
      exact ⟨n + 1, _, hpick, hn⟩

variable [Fintype ι]

/-- As long as an orderly key is not the last one, there is a lowest. -/
theorem Orderly.exists_lowest (h : L.Orderly s) (hdone : ¬ L.Done s) :
    ∃ t, Lowest (L.key s) t := by
  obtain ⟨v, hv⟩ := not_forall.mp hdone
  have : Nonempty ι := ⟨v⟩
  obtain ⟨t, hmin⟩ := Finite.exists_min (L.key s)
  refine ⟨t, fun u hu => lt_of_le_of_ne (hmin u) fun heq => ?_⟩
  have hlast := h.2 t u (Ne.symm hu) heq
  have hle := hmin v
  rw [hlast] at hle
  exact hv (le_antisymm (h.1 v) hle)

/-- How many keys are in front of the last one. -/
def ahead (L : LowestFirst ι α σ ε) (s : σ) : ℕ :=
  (Finset.univ.filter fun t => L.key s t < L.last).card

theorem Orderly.ahead_lt [Nontrivial ι] (h : L.Orderly s) (hpick : L.Pick s s') :
    L.ahead s' < L.ahead s := by
  obtain ⟨t, ht, hact⟩ := hpick
  have hkey := L.key_act s t s' ht hact
  refine Finset.card_lt_card ⟨fun u hu => ?_, fun hsub => ?_⟩
  · rw [Finset.mem_filter] at hu ⊢
    rcases eq_or_ne u t with rfl | hne
    · exact ⟨hu.1, h.lowest_lt ht⟩
    · rw [hkey, Function.update_of_ne hne] at hu
      exact hu
  · have hmem := hsub (Finset.mem_filter.mpr ⟨Finset.mem_univ t, h.lowest_lt ht⟩)
    rw [Finset.mem_filter, hkey, Function.update_self] at hmem
    exact lt_irrefl _ hmem.2

/-! ## §2 One pass -/

theorem pass_cons_of_lowest (h : Lowest (L.key s) t) (ts : List ι) :
    L.pass (t :: ts) s =
      match L.act t s with
      | .error e => .error e
      | .ok s => L.pass ts s := by
  rw [pass, if_pos h]

theorem pass_cons_of_not_lowest (h : ¬ Lowest (L.key s) t) (ts : List ι) :
    L.pass (t :: ts) s = L.pass ts s := by
  rw [pass, if_neg h]

/-- Nothing happens in a pass where no key is the lowest. -/
theorem pass_of_not_lowest (h : ∀ t, ¬ Lowest (L.key s) t) (ts : List ι) : L.pass ts s = .ok s := by
  induction ts with
  | nil => rfl
  | cons t ts ih => rw [pass_cons_of_not_lowest (h t), ih]

/-- A pass is made of picks, until one fails. -/
theorem pass_cases (ts : List ι) (s : σ) :
    (∃ s', L.pass ts s = .ok s' ∧ Relation.ReflTransGen L.Pick s s') ∨
      ∃ e s', L.pass ts s = .error e ∧ Relation.ReflTransGen L.Pick s s' ∧ L.Fails s' := by
  induction ts generalizing s with
  | nil => exact .inl ⟨s, rfl, .refl⟩
  | cons t ts ih =>
    by_cases ht : Lowest (L.key s) t
    · cases hact : L.act t s with
      | error e => exact .inr ⟨e, s, by rw [pass_cons_of_lowest ht, hact], .refl, t, e, ht, hact⟩
      | ok s₁ =>
        have hpass : L.pass (t :: ts) s = L.pass ts s₁ := by rw [pass_cons_of_lowest ht, hact]
        rw [hpass]
        rcases ih s₁ with ⟨s', hok, hrun⟩ | ⟨e, s', herr, hrun, hfails⟩
        · exact .inl ⟨s', hok, .head ⟨t, ht, hact⟩ hrun⟩
        · exact .inr ⟨e, s', herr, .head ⟨t, ht, hact⟩ hrun, hfails⟩
    · rw [pass_cons_of_not_lowest ht]
      exact ih s

/-- Where there is a lowest item, a pass deals with one at least. -/
theorem pass_progress (ht : Lowest (L.key s) t) (hmem : t ∈ ts) :
    (∃ e, L.pass ts s = .error e) ∨
      ∃ s₁ s', L.Pick s s₁ ∧ L.pass ts s = .ok s' ∧ Relation.ReflTransGen L.Pick s₁ s' := by
  induction ts with
  | nil => cases hmem
  | cons u ts ih =>
    rcases eq_or_ne u t with rfl | hne
    · cases hact : L.act u s with
      | error e => exact .inl ⟨e, by rw [pass_cons_of_lowest ht, hact]⟩
      | ok s₁ =>
        have hpass : L.pass (u :: ts) s = L.pass ts s₁ := by rw [pass_cons_of_lowest ht, hact]
        rw [hpass]
        rcases pass_cases (L := L) ts s₁ with ⟨s', hok, hrun⟩ | ⟨e, _, herr, _⟩
        · exact .inr ⟨s₁, s', ⟨u, ht, hact⟩, hok, hrun⟩
        · exact .inl ⟨e, herr⟩
    · -- an item that is not the lowest is left alone
      rw [pass_cons_of_not_lowest fun hu => hne (lowest_unique hu ht)]
      exact ih ((List.mem_cons.mp hmem).resolve_left (Ne.symm hne))

theorem picks_ahead_le [Nontrivial ι] (h : L.Orderly s)
    (hrun : Relation.ReflTransGen L.Pick s s') : L.ahead s' ≤ L.ahead s := by
  induction hrun with
  | refl => exact le_rfl
  | tail hrun hpick ih =>
    exact (((orderly_iff_of_picks hrun).mpr h).ahead_lt hpick).le.trans ih

/-- On the way to a failure a pass fails or gets nearer to it. -/
theorem failsAfter_pass {n : ℕ} (h : L.FailsAfter n s) (ts : List ι) :
    (∃ e, L.pass ts s = .error e) ∨
      ∃ m s', m ≤ n ∧ L.pass ts s = .ok s' ∧ L.FailsAfter m s' ∧
        ((∃ t ∈ ts, Lowest (L.key s) t) → m < n) := by
  induction ts generalizing n s with
  | nil =>
    refine .inr ⟨n, s, le_rfl, rfl, h, fun hlow => ?_⟩
    obtain ⟨t, hmem, -⟩ := hlow
    cases hmem
  | cons t ts ih =>
    by_cases ht : Lowest (L.key s) t
    · cases hact : L.act t s with
      | error e => exact .inl ⟨e, by rw [pass_cons_of_lowest ht, hact]⟩
      | ok s₁ =>
        have hpass : L.pass (t :: ts) s = L.pass ts s₁ := by rw [pass_cons_of_lowest ht, hact]
        rw [hpass]
        cases n with
        | zero => exact absurd ⟨t, ht, hact⟩ (not_pick_of_fails h)
        | succ n =>
          obtain ⟨s₁', hpick, hrest⟩ := h
          obtain rfl := pick_unique hpick ⟨t, ht, hact⟩
          rcases ih hrest with herr | ⟨m, s', hm, hok, hfails, -⟩
          · exact .inl herr
          · exact .inr ⟨m, s', by omega, hok, hfails, fun _ => by omega⟩
    · rw [pass_cons_of_not_lowest ht]
      rcases ih h with herr | ⟨m, s', hm, hok, hfails, hlt⟩
      · exact .inl herr
      · refine .inr ⟨m, s', hm, hok, hfails, fun hlow => hlt ?_⟩
        obtain ⟨u, hmem, hu⟩ := hlow
        rcases List.mem_cons.mp hmem with rfl | hmem
        · exact absurd hu ht
        · exact ⟨u, hmem, hu⟩

/-! ## §3 All passes -/

/-- What the passes come to. -/
theorem loop_cases {fuel : ℕ} {r : Except ε σ} (h : L.loop ts fuel s = some r) :
    (∃ s', r = .ok s' ∧ Relation.ReflTransGen L.Pick s s' ∧ L.Done s') ∨
      ∃ e s', r = .error e ∧ Relation.ReflTransGen L.Pick s s' ∧ L.Fails s' := by
  induction fuel generalizing s with
  | zero => cases h
  | succ fuel ih =>
    rw [loop] at h
    rcases pass_cases (L := L) ts s with ⟨s₁, hok, hrun⟩ | ⟨e, s', herr, hrun, hfails⟩
    · rw [hok] at h
      dsimp only at h
      split_ifs at h with hdone
      · cases h
        exact .inl ⟨s₁, rfl, hrun, hdone⟩
      · rcases ih h with ⟨s', hr, hrest, hdone'⟩ | ⟨e, s', hr, hrest, hfails⟩
        · exact .inl ⟨s', hr, hrun.trans hrest, hdone'⟩
        · exact .inr ⟨e, s', hr, hrun.trans hrest, hfails⟩
    · rw [herr] at h
      cases h
      exact .inr ⟨e, s', rfl, hrun, hfails⟩

/-- The passes come to one thing only. -/
theorem loop_unique {fuel fuel' : ℕ} {r r' : Except ε σ} (h : L.loop ts fuel s = some r)
    (h' : L.loop ts fuel' s = some r') : r = r' := by
  induction fuel generalizing fuel' s with
  | zero => cases h
  | succ fuel ih =>
    cases fuel' with
    | zero => cases h'
    | succ fuel' =>
      rw [loop] at h h'
      cases hpass : L.pass ts s with
      | error e =>
        rw [hpass] at h h'
        exact Option.some.inj (h.symm.trans h')
      | ok s₁ =>
        rw [hpass] at h h'
        dsimp only at h h'
        split_ifs at h h'
        · exact Option.some.inj (h.symm.trans h')
        · exact ih h h'

/-- With orderly keys the passes end: each has fewer keys to move. -/
theorem Orderly.loop_returns [Nontrivial ι] (hts : ∀ t, t ∈ ts) (h : L.Orderly s) :
    ∃ fuel r, L.loop ts fuel s = some r := by
  induction hn : L.ahead s using Nat.strong_induction_on generalizing s with
  | _ n ih =>
    by_cases hdone : L.Done s
    · refine ⟨1, .ok s, ?_⟩
      rw [loop, pass_of_not_lowest hdone.not_lowest]
      dsimp only
      rw [if_pos hdone]
    · obtain ⟨t, ht⟩ := h.exists_lowest hdone
      rcases pass_progress ht (hts t) with ⟨e, herr⟩ | ⟨s₁, s', hpick, hok, hrun⟩
      · refine ⟨1, .error e, ?_⟩
        rw [loop, herr]
      · have h₁ : L.Orderly s₁ := (orderly_iff_of_pick hpick).mpr h
        have hlt : L.ahead s' < n := hn ▸ (picks_ahead_le h₁ hrun).trans_lt (h.ahead_lt hpick)
        obtain ⟨fuel, r, hloop⟩ := ih _ hlt ((orderly_iff_of_picks hrun).mpr h₁) rfl
        by_cases hdone' : L.Done s'
        · refine ⟨1, .ok s', ?_⟩
          rw [loop, hok]
          dsimp only
          rw [if_pos hdone']
        · refine ⟨fuel + 1, r, ?_⟩
          rw [loop, hok]
          dsimp only
          rw [if_neg hdone', hloop]

/-- On the way to a failure the passes end. -/
theorem FailsAfter.loop_returns {n : ℕ} (hts : ∀ t, t ∈ ts) (h : L.FailsAfter n s) :
    ∃ fuel r, L.loop ts fuel s = some r := by
  induction n using Nat.strong_induction_on generalizing s with
  | _ n ih =>
    have hlow : ∃ t ∈ ts, Lowest (L.key s) t := by
      cases n with
      | zero =>
        obtain ⟨t, e, ht, -⟩ := h
        exact ⟨t, hts t, ht⟩
      | succ n =>
        obtain ⟨s₁, ⟨t, ht, -⟩, -⟩ := h
        exact ⟨t, hts t, ht⟩
    rcases failsAfter_pass h ts with ⟨e, herr⟩ | ⟨m, s', -, hok, hfails, hlt⟩
    · refine ⟨1, .error e, ?_⟩
      rw [loop, herr]
    · obtain ⟨fuel, r, hloop⟩ := ih m (hlt hlow) hfails
      by_cases hdone : L.Done s'
      · refine ⟨1, .ok s', ?_⟩
        rw [loop, hok]
        dsimp only
        rw [if_pos hdone]
      · refine ⟨fuel + 1, r, ?_⟩
        rw [loop, hok]
        dsimp only
        rw [if_neg hdone, hloop]

/-- **The passes end** if and only if the keys are orderly or an item cannot be dealt with. -/
theorem loop_returns_iff [Nontrivial ι] (hts : ∀ t, t ∈ ts) :
    (∃ fuel r, L.loop ts fuel s = some r) ↔
      L.Orderly s ∨ ∃ s', Relation.ReflTransGen L.Pick s s' ∧ L.Fails s' := by
  constructor
  · rintro ⟨fuel, r, h⟩
    rcases loop_cases h with ⟨s', -, hrun, hdone⟩ | ⟨e, s', -, hrun, hfails⟩
    · exact .inl ((orderly_iff_of_picks hrun).mp hdone.orderly)
    · exact .inr ⟨s', hrun, hfails⟩
  · rintro (h | h)
    · exact h.loop_returns hts
    · obtain ⟨n, hn⟩ := failsAfter_iff.mpr h
      exact FailsAfter.loop_returns hts hn

/-- **Where they end**: where the picks lead. -/
theorem loop_eq_ok_iff [Nontrivial ι] (hts : ∀ t, t ∈ ts) :
    (∃ fuel, L.loop ts fuel s = some (.ok s')) ↔
      Relation.ReflTransGen L.Pick s s' ∧ L.Done s' := by
  constructor
  · rintro ⟨fuel, h⟩
    rcases loop_cases h with ⟨s'', hr, hrun, hdone⟩ | ⟨e, s'', hr, -⟩
    · cases hr
      exact ⟨hrun, hdone⟩
    · cases hr
  · rintro ⟨hrun, hdone⟩
    -- a state that allows no pick is the only one that the picks lead to
    have hend : ∀ s'', Relation.ReflTransGen L.Pick s s'' → (∀ s₁, ¬ L.Pick s'' s₁) →
        s'' = s' := by
      intro s'' hrun' hstop
      have hstop' : ∀ s₁, ¬ L.Pick s' s₁ := fun s₁ ⟨t, ht, _⟩ => hdone.not_lowest t ht
      have hunique : Relator.RightUnique L.Pick := fun _ _ _ h h' => pick_unique h h'
      rcases Relation.ReflTransGen.total_of_right_unique hunique hrun hrun' with h | h
      · rcases Relation.ReflTransGen.cases_head h with rfl | ⟨s₁, hpick, -⟩
        · rfl
        · exact absurd hpick (hstop' s₁)
      · rcases Relation.ReflTransGen.cases_head h with rfl | ⟨s₁, hpick, -⟩
        · rfl
        · exact absurd hpick (hstop s₁)
    have horderly : L.Orderly s := (orderly_iff_of_picks hrun).mp hdone.orderly
    obtain ⟨fuel, r, hloop⟩ := horderly.loop_returns hts
    rcases loop_cases hloop with ⟨s'', rfl, hrun', hdone'⟩ | ⟨e, s'', rfl, hrun', hfails⟩
    · obtain rfl := hend s'' hrun' fun s₁ ⟨t, ht, _⟩ => hdone'.not_lowest t ht
      exact ⟨fuel, hloop⟩
    · obtain rfl := hend s'' hrun' fun s₁ => not_pick_of_fails hfails
      obtain ⟨t, e, ht, -⟩ := hfails
      exact absurd ht (hdone.not_lowest t)

end LowestFirst

end Pmon.Lib
