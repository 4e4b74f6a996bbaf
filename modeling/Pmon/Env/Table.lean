import Mathlib.Data.List.GetD
import Mathlib.Data.List.Perm.Subperm
import Pmon.Env.Model

/-!
# The variable table

The table refines a map from names, up to case, to values.  `enter_spec` and `drop_spec` say
what entering and deleting a variable do to that map; `enter_room` says when there is a free
slot.
-/

namespace Pmon.Env

open Pmon.Libc

variable {t : Table} {m : Mallocs} {name n x y : CStr} {value v : Option CStr}
  {slots pre post : List (Option Var)}

/-! ## §1 Looking up a name -/

/-- The variable that a name finds among some slots. -/
def look (slots : List (Option Var)) (name : CStr) : Option (Option CStr) :=
  slots.findSome? fun slot => slot.bind fun (n, v) => if striequ name n then some v else none

theorem Table.lookup_eq (t : Table) (name : CStr) : t.lookup name = look t.slots name := rfl

@[simp] theorem look_nil (x : CStr) : look [] x = none := rfl

@[simp] theorem look_none (x : CStr) : look (none :: slots) x = look slots x := by
  simp [look]

@[simp] theorem look_some (x : CStr) :
    look (some (n, v) :: slots) x = if striequ x n then some v else look slots x := by
  simp only [look, List.findSome?_cons, Option.bind_some]
  split <;> simp_all

theorem look_append (pre post : List (Option Var)) (x : CStr) :
    look (pre ++ post) x = (look pre x).or (look post x) :=
  List.findSome?_append

/-- Names that are equal up to case find the same variable. -/
theorem look_congr (h : striequ x y) : look slots x = look slots y := by
  induction slots with
  | nil => rfl
  | cons s slots ih =>
    rcases s with _ | ⟨n, v⟩
    · rw [look_none, look_none, ih]
    · rw [look_some, look_some, striequ_congr_left h, ih]

/-- The upper-case names of the variables. -/
def keys (slots : List (Option Var)) : List CStr :=
  slots.filterMap fun slot => slot.map fun v => v.1.map toupper

@[simp] theorem keys_nil : keys [] = [] := rfl

@[simp] theorem keys_none : keys (none :: slots) = keys slots := rfl

@[simp] theorem keys_some : keys (some (n, v) :: slots) = n.map toupper :: keys slots := rfl

@[simp] theorem keys_append : keys (pre ++ post) = keys pre ++ keys post := List.filterMap_append

theorem look_eq_none_iff : look slots x = none ↔ x.map toupper ∉ keys slots := by
  induction slots with
  | nil => simp
  | cons s slots ih =>
    rcases s with _ | ⟨n, v⟩
    · simpa using ih
    · rw [look_some, keys_some, List.mem_cons, not_or, ← ih]
      by_cases h : striequ x n
      · simp [h, striequ_iff.mp h]
      · simp [h, mt striequ_iff.mpr h]

/-- No two variables have the same name up to case. -/
def Distinct (t : Table) : Prop := (keys t.slots).Nodup

theorem distinct_empty : Distinct Table.empty := by
  have : keys Table.empty.slots = [] := by
    simp [keys, Table.empty]
  rw [Distinct, this]
  exact List.nodup_nil

theorem lookup_empty (x : CStr) : Table.empty.lookup x = none := by
  rw [Table.lookup_eq, look_eq_none_iff]
  simp [keys, Table.empty]

/-! ## §2 Searching -/

/-- How the search loop of `_setenv` ends. -/
inductive Search (name : CStr) (slots : List (Option Var)) : Option ℕ × Option ℕ → Prop where
  | hit {pre post : List (Option Var)} {n : CStr} {v : Option CStr} {b : Option ℕ} :
      slots = pre ++ some (n, v) :: post → look pre name = none → striequ name n →
      Search name slots (some pre.length, b)
  | free {pre post : List (Option Var)} : slots = pre ++ none :: post → look slots name = none →
      Search name slots (none, some pre.length)
  | full : none ∉ slots → look slots name = none → Search name slots (none, none)

private theorem searchLoop_gen (pre : List (Option Var)) (hpre : look pre name = none) {bp : Option ℕ}
    (hbp : bp.elim (none ∉ pre) fun i => ∃ p q, pre = p ++ none :: q ∧ p.length = i) :
    Search name (pre ++ slots) (searchLoop name slots pre.length bp) := by
  induction slots generalizing pre bp with
  | nil =>
    rw [List.append_nil, searchLoop]
    cases bp with
    | none => exact .full hbp hpre
    | some i =>
      obtain ⟨p, q, hpq, rfl⟩ := hbp
      exact .free hpq hpre
  | cons s slots ih =>
    have hsplit : pre ++ s :: slots = (pre ++ [s]) ++ slots := by simp
    have hlen : pre.length + 1 = (pre ++ [s]).length := by simp
    rcases s with _ | ⟨n, v⟩
    · rw [searchLoop, hsplit, hlen]
      refine ih _ (by rw [look_append, hpre]; rfl) ?_
      cases bp with
      | none => exact ⟨pre, [], rfl, rfl⟩
      | some i =>
        obtain ⟨p, q, hpq, hp⟩ := hbp
        exact ⟨p, q ++ [none], by rw [hpq]; simp, hp⟩
    · rw [searchLoop]
      split
      case isTrue hn => exact .hit rfl hpre hn
      case isFalse hn =>
        rw [hsplit, hlen]
        refine ih _ (by rw [look_append, hpre]; simp [hn]) ?_
        cases bp with
        | none => simpa using hbp
        | some i =>
          obtain ⟨p, q, hpq, hp⟩ := hbp
          exact ⟨p, q ++ [some (n, v)], by rw [hpq]; simp, hp⟩

theorem searchLoop_search (name : CStr) (slots : List (Option Var)) :
    Search name slots (searchLoop name slots 0 none) :=
  searchLoop_gen [] rfl (by simp)

/-! ## §3 Entering and deleting -/

theorem set_middle (s s' : Option Var) :
    (pre ++ s :: post).set pre.length s' = pre ++ s' :: post := by
  simp

/-- What it means that a variable was entered. -/
structure Entered (t t' : Table) (name : CStr) (value : Option CStr) : Prop where
  distinct : Distinct t'
  lookup : ∀ x, t'.lookup x = if striequ x name then some value else t.lookup x
  names : ∀ n v, some (n, v) ∈ t'.slots → n = name ∨ ∃ w, some (n, w) ∈ t.slots
  kept : ∀ n v, some (n, v) ∈ t.slots → ∃ w, some (n, w) ∈ t'.slots
  added : t.lookup name = none → some (name, value) ∈ t'.slots

@[simp] theorem Table.set_slots (t : Table) (i : ℕ) (s : Option Var) :
    (t.set i s).slots = t.slots.set i s := rfl

/-- Giving a variable that is there a new value. -/
theorem entered_of_hit {t' : Table} (hd : Distinct t) (hslots : t.slots = pre ++ some (n, v) :: post)
    (hslots' : t'.slots = pre ++ some (n, value) :: post) (hpre : look pre name = none)
    (hn : striequ name n) : Entered t t' name value where
  distinct := by
    unfold Distinct at hd ⊢
    rw [hslots] at hd
    rw [hslots']
    simpa using hd
  lookup x := by
    rw [Table.lookup_eq, Table.lookup_eq, hslots', hslots, look_append, look_append, look_some,
      look_some, striequ_comm (s := x) (t := n), ← striequ_congr_left hn,
      striequ_comm (s := name) (t := x)]
    split
    case isTrue hx => rw [look_congr hx, hpre, Option.none_or]
    case isFalse => rfl
  names n' v' hmem := by
    rw [hslots'] at hmem
    rw [hslots]
    rcases List.mem_append.mp hmem with hmem | hmem
    · exact Or.inr ⟨v', List.mem_append_left _ hmem⟩
    · rcases List.mem_cons.mp hmem with heq | hmem
      · cases heq
        exact Or.inr ⟨v, by simp⟩
      · exact Or.inr ⟨v', List.mem_append_right _ (List.mem_cons_of_mem _ hmem)⟩
  kept n' v' hmem := by
    rw [hslots] at hmem
    rw [hslots']
    rcases List.mem_append.mp hmem with hmem | hmem
    · exact ⟨v', List.mem_append_left _ hmem⟩
    · rcases List.mem_cons.mp hmem with heq | hmem
      · cases heq
        exact ⟨value, by simp⟩
      · exact ⟨v', List.mem_append_right _ (List.mem_cons_of_mem _ hmem)⟩
  added hnone := by
    rw [Table.lookup_eq, hslots, look_append, hpre, look_some, hn] at hnone
    cases hnone

/-- Taking a free slot for a new variable. -/
theorem entered_of_free {t' : Table} (hd : Distinct t) (hslots : t.slots = pre ++ none :: post)
    (hslots' : t'.slots = pre ++ some (name, value) :: post) (hlook : look t.slots name = none) :
    Entered t t' name value where
  distinct := by
    have hnot := look_eq_none_iff.mp hlook
    unfold Distinct at hd ⊢
    rw [hslots] at hd hnot
    rw [hslots', keys_append, keys_some, List.perm_middle.nodup_iff, List.nodup_cons]
    exact ⟨by simpa using hnot, by simpa using hd⟩
  lookup x := by
    rw [Table.lookup_eq, Table.lookup_eq, hslots', hslots, look_append, look_append, look_some,
      look_none]
    split
    case isTrue hx =>
      rw [hslots, look_append, ← look_congr hx] at hlook
      rw [(Option.or_eq_none_iff.mp hlook).1, Option.none_or]
    case isFalse => rfl
  names n' v' hmem := by
    rw [hslots'] at hmem
    rw [hslots]
    rcases List.mem_append.mp hmem with hmem | hmem
    · exact Or.inr ⟨v', List.mem_append_left _ hmem⟩
    · rcases List.mem_cons.mp hmem with heq | hmem
      · cases heq
        exact Or.inl rfl
      · exact Or.inr ⟨v', List.mem_append_right _ (List.mem_cons_of_mem _ hmem)⟩
  kept n' v' hmem := by
    rw [hslots] at hmem
    rw [hslots']
    rcases List.mem_append.mp hmem with hmem | hmem
    · exact ⟨v', List.mem_append_left _ hmem⟩
    · rcases List.mem_cons.mp hmem with heq | hmem
      · cases heq
      · exact ⟨v', List.mem_append_right _ (List.mem_cons_of_mem _ hmem)⟩
  added _ := by
    rw [hslots']
    simp

/-- **Entering a variable** changes the map at its name. -/
theorem enter_spec (hd : Distinct t) (hm : m.name ∧ m.value)
    (hok : (t.enter m name value).1 = true) : Entered t (t.enter m name value).2 name value := by
  have hs := searchLoop_search name t.slots
  rw [Table.enter] at hok ⊢
  generalize hr : searchLoop name t.slots 0 none = r at hs hok ⊢
  cases hs with
  | @hit pre post n v b hslots hpre hn =>
    have hget : (t.slots.getD pre.length none).elim name (·.1) = n := by simp [hslots]
    have hset : (t.set pre.length (some (n, value))).slots = pre ++ some (n, value) :: post := by
      rw [Table.set_slots, hslots, set_middle]
    dsimp only
    rw [hget]
    cases value with
    | none => exact entered_of_hit hd hslots hset hpre hn
    | some w =>
      simp only [hm.2, if_true]
      exact entered_of_hit hd hslots hset hpre hn
  | @free pre post hslots hlook =>
    have hset : (t.set pre.length (some (name, value))).slots =
        pre ++ some (name, value) :: post := by
      rw [Table.set_slots, hslots, set_middle]
    simp only [hm.1, Bool.not_true, Bool.false_eq_true, if_false]
    cases value with
    | none => exact entered_of_free hd hslots hset hlook
    | some w =>
      simp only [hm.2, if_true]
      exact entered_of_free hd hslots hset hlook
  | full => simp at hok

/-- Without a slot of its own or a free one, nothing happens. -/
theorem enter_false (hm : m.name ∧ m.value) (hok : (t.enter m name value).1 = false) :
    (t.enter m name value).2 = t := by
  have hs := searchLoop_search name t.slots
  rw [Table.enter] at hok ⊢
  generalize hr : searchLoop name t.slots 0 none = r at hs hok ⊢
  cases hs with
  | hit => cases value <;> simp [hm.2] at hok
  | free => cases value <;> simp [hm.1, hm.2] at hok
  | full => rfl

theorem length_keys (h : none ∉ slots) : (keys slots).length = slots.length := by
  induction slots with
  | nil => rfl
  | cons s slots ih =>
    rw [List.mem_cons, not_or] at h
    rcases s with _ | ⟨n, v⟩
    · exact absurd rfl h.1
    · rw [keys_some, List.length_cons, List.length_cons, ih h.2]

/-- **Room for a variable**: all names together, it included, are among at most `NVAR`. -/
theorem enter_room {C : List CStr} (hd : Distinct t) (hm : m.name ∧ m.value)
    (hkeys : ∀ k ∈ keys t.slots, k ∈ C) (hname : name.map toupper ∈ C) (hC : C.length ≤ nvar) :
    (t.enter m name value).1 = true := by
  have hs := searchLoop_search name t.slots
  rw [Table.enter]
  generalize hr : searchLoop name t.slots 0 none = r at hs ⊢
  cases hs with
  | hit => cases value <;> simp [hm.2]
  | free => cases value <;> simp [hm.1, hm.2]
  | full hfull hlook =>
    -- all slots are taken by other names: one name too many
    have hnodup : (name.map toupper :: keys t.slots).Nodup :=
      List.nodup_cons.mpr ⟨look_eq_none_iff.mp hlook, hd⟩
    have hsub : name.map toupper :: keys t.slots ⊆ C := List.cons_subset.mpr ⟨hname, hkeys⟩
    have hlen := (hnodup.subperm hsub).length_le
    rw [List.length_cons, length_keys hfull, t.length_eq] at hlen
    omega

/-- **Deleting a variable** takes its name out of the map. -/
theorem drop_spec (hd : Distinct t) {i : ℕ} (hi : t.slots.getD i none = some (n, v)) :
    Distinct (t.set i none) ∧
      (∀ x, (t.set i none).lookup x = if striequ x n then none else t.lookup x) ∧
      ∀ s ∈ (t.set i none).slots, s = none ∨ s ∈ t.slots := by
  have hlt : i < t.slots.length := by
    by_contra h
    rw [List.getD_eq_default _ _ (by omega)] at hi
    cases hi
  rw [List.getD_eq_getElem _ _ hlt] at hi
  obtain ⟨pre, post, hslots, hpre⟩ : ∃ pre post, t.slots = pre ++ some (n, v) :: post ∧
      pre.length = i := by
    refine ⟨t.slots.take i, t.slots.drop (i + 1), ?_, List.length_take_of_le (by omega)⟩
    rw [← hi, List.getElem_cons_drop, List.take_append_drop]
  subst hpre
  have hset : (t.set pre.length none).slots = pre ++ none :: post := by
    rw [Table.set_slots, hslots, set_middle]
  unfold Distinct at hd ⊢
  rw [hslots, keys_append, keys_some, List.perm_middle.nodup_iff, List.nodup_cons,
    List.mem_append, not_or] at hd
  refine ⟨by rw [hset]; simpa using hd.2, fun x => ?_, fun s hs => ?_⟩
  · rw [Table.lookup_eq, Table.lookup_eq, hset, hslots, look_append, look_append, look_none,
      look_some]
    split
    case isTrue hx =>
      rw [look_congr hx, look_congr hx, look_eq_none_iff.mpr hd.1.1, look_eq_none_iff.mpr hd.1.2]
      rfl
    case isFalse => rfl
  · rw [hset] at hs
    rw [hslots]
    rcases List.mem_append.mp hs with hs | hs
    · exact Or.inr (List.mem_append_left _ hs)
    · rcases List.mem_cons.mp hs with hs | hs
      · exact Or.inl hs
      · exact Or.inr (List.mem_append_right _ (List.mem_cons_of_mem _ hs))

end Pmon.Env
