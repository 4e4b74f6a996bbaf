import Mathlib.Data.List.Basic
import Mathlib.Data.List.Nodup
import Mathlib.Logic.Function.Basic
import Mathlib.Tactic.Common

/-!
# Lists with a link back

The `LIST` of `sys/queue.h` over nodes of any type: a head, and in each node the next node and the
place where the pointer to the node itself stands.  That place is the head or the next field of
a node.

## Key results

- `Queue.Holds.insertAfter_last`: an insertion after the last node appends.
- `Queue.Holds.remove`: a removal takes out one node wherever it is.
- `Queue.Holds.find`: a loop over the list finds what `List.find?` does.
- `Queue.Holds.removeAll`: a loop that removes each node leaves an empty list.
-/

namespace Pmon.Lib

/-- A place where a pointer to a node stands. -/
inductive Link (α : Type*) where
  | head
  | next (a : α)
  deriving DecidableEq

/-- The head, and the two fields of every node. -/
structure Queue (α : Type*) where
  first : Option α
  next : α → Option α
  prev : α → Link α

namespace Queue

variable {α : Type*}

/-! ## §1 What is linked -/

/-- The pointer at a place. -/
def get (q : Queue α) : Link α → Option α
  | .head => q.first
  | .next a => q.next a

/-- From a place on, the nodes of a list, each with its link back. -/
def Path (q : Queue α) : Link α → List α → Prop
  | _, [] => True
  | link, a :: l => q.get link = some a ∧ q.prev a = link ∧ q.Path (.next a) l

/-- The place behind the nodes of a list. -/
def endOf : Link α → List α → Link α
  | link, [] => link
  | _, a :: l => endOf (.next a) l

/-- **The nodes of the list**, in order. -/
structure Holds (q : Queue α) (l : List α) : Prop where
  nodup : l.Nodup
  path : q.Path .head l
  ends : q.get (endOf .head l) = none

theorem path_append {q : Queue α} {link : Link α} {l₁ l₂ : List α} :
    q.Path link (l₁ ++ l₂) ↔ q.Path link l₁ ∧ q.Path (endOf link l₁) l₂ := by
  induction l₁ generalizing link with
  | nil => simp [Path, endOf]
  | cons a l₁ ih => simp [Path, endOf, ih, and_assoc]

@[simp] theorem endOf_concat {link : Link α} {l : List α} {a : α} :
    endOf link (l ++ [a]) = .next a := by
  induction l generalizing link with
  | nil => rfl
  | cons b l ih => exact ih

theorem endOf_append_cons {link : Link α} {l₁ l₂ : List α} {a : α} :
    endOf link (l₁ ++ a :: l₂) = endOf (.next a) l₂ := by
  induction l₁ generalizing link with
  | nil => rfl
  | cons b l₁ ih => exact ih

theorem endOf_mem (link : Link α) (l : List α) :
    endOf link l = link ∨ ∃ a ∈ l, endOf link l = .next a := by
  rcases List.eq_nil_or_concat l with rfl | ⟨l, a, rfl⟩
  · exact .inl rfl
  · exact .inr ⟨a, by simp, by simp⟩

/-- A path reads its first place and those in its nodes but the last. -/
theorem Path.transport {q q' : Queue α} {link : Link α} {l : List α} (h : q.Path link l)
    (hlink : l ≠ [] → q'.get link = q.get link)
    (hnext : ∀ a ∈ l.dropLast, q'.get (.next a) = q.get (.next a))
    (hprev : ∀ a ∈ l, q'.prev a = q.prev a) : q'.Path link l := by
  induction l generalizing link with
  | nil => trivial
  | cons a l ih =>
    obtain ⟨hget, hback, hrest⟩ := h
    refine ⟨(hlink (by simp)).trans hget, (hprev a (by simp)).trans hback, ?_⟩
    apply ih hrest
    · intro hl
      apply hnext a
      simp [List.dropLast_cons_of_ne_nil hl]
    · intro b hb
      apply hnext b
      have hl : l ≠ [] := by
        rintro rfl
        simp at hb
      simp [List.dropLast_cons_of_ne_nil hl, hb]
    · intro b hb
      exact hprev b (by simp [hb])

/-! ## §2 The operations -/

section Operations

variable [DecidableEq α]

/-- A write to a place. -/
def set (q : Queue α) (link : Link α) (p : Option α) : Queue α :=
  match link with
  | .head => { q with first := p }
  | .next a => { q with next := Function.update q.next a p }

/-- A write to a link back. -/
def setPrev (q : Queue α) (a : α) (link : Link α) : Queue α :=
  { q with prev := Function.update q.prev a link }

/-- `LIST_INSERT_HEAD`. -/
def insertHead (q : Queue α) (a : α) : Queue α :=
  let q := q.set (.next a) q.first
  let q := match q.first with
    | none => q
    | some b => q.setPrev b (.next a)
  (q.set .head (some a)).setPrev a .head

/-- `LIST_INSERT_AFTER`. -/
def insertAfter (q : Queue α) (b a : α) : Queue α :=
  let q := q.set (.next a) (q.next b)
  let q := match q.next b with
    | none => q
    | some c => q.setPrev c (.next a)
  (q.set (.next b) (some a)).setPrev a (.next b)

/-- `LIST_REMOVE`. -/
def remove (q : Queue α) (a : α) : Queue α :=
  let q := match q.next a with
    | none => q
    | some b => q.setPrev b (q.prev a)
  q.set (q.prev a) (q.next a)

variable {q : Queue α} {a b : α} {link : Link α} {p : Option α} {l l₁ l₂ : List α}

@[simp] theorem get_set (k : Link α) :
    (q.set link p).get k = if k = link then p else q.get k := by
  cases link <;> cases k <;> simp [set, get, Function.update_apply]

@[simp] theorem prev_set : (q.set link p).prev = q.prev := by
  cases link <;> rfl

@[simp] theorem get_setPrev (k : Link α) : (q.setPrev a link).get k = q.get k := by
  cases k <;> rfl

@[simp] theorem prev_setPrev (b : α) :
    (q.setPrev a link).prev b = if b = a then link else q.prev b := by
  simp [setPrev, Function.update_apply]

/-- **The first insertion.** -/
theorem Holds.insertHead_first (h : q.Holds []) (a : α) : (q.insertHead a).Holds [a] := by
  have hfirst : q.first = none := h.ends
  have hfirst' : (q.set (.next a) none).first = none := hfirst
  refine ⟨by simp, ⟨?_, ?_, trivial⟩, ?_⟩
  · simp [insertHead]
  · simp [insertHead]
  · simp [insertHead, hfirst', endOf, hfirst]

theorem get_insertAfter_last (hab : a ≠ b) (hnext : q.next b = none) (k : Link α) :
    (q.insertAfter b a).get k =
      if k = .next b then some a else if k = .next a then none else q.get k := by
  have hnext' : (q.set (.next a) none).next b = none := by
    simp [set, Function.update_of_ne hab.symm, hnext]
  simp [insertAfter, hnext, hnext']

theorem prev_insertAfter_last (hab : a ≠ b) (hnext : q.next b = none) (c : α) :
    (q.insertAfter b a).prev c = if c = a then .next b else q.prev c := by
  have hnext' : (q.set (.next a) none).next b = none := by
    simp [set, Function.update_of_ne hab.symm, hnext]
  simp [insertAfter, hnext, hnext']

/-- **An insertion after the last node** appends. -/
theorem Holds.insertAfter_last (h : q.Holds (l ++ [b])) (ha : a ∉ l ++ [b]) :
    (q.insertAfter b a).Holds (l ++ [b] ++ [a]) := by
  have hab : a ≠ b := by
    rintro rfl
    simp at ha
  have hnext : q.next b = none := by simpa [get] using h.ends
  have hnodup : (l ++ [b] ++ [a]).Nodup := by
    rw [List.nodup_append]
    refine ⟨h.nodup, by simp, ?_⟩
    intro c hc d hd hcd
    obtain rfl : d = a := by simpa using hd
    exact ha (hcd ▸ hc)
  have hb : b ∉ l := fun hmem => by
    have := (List.nodup_append.mp h.nodup).2.2 b hmem b
    simp at this
  refine ⟨hnodup, path_append.mpr ⟨?_, ?_⟩, ?_⟩
  · apply h.path.transport
    · intro _
      simp [get_insertAfter_last hab hnext]
    · intro c hc
      have hcl : c ∈ l := by simpa using hc
      have hcb : c ≠ b := fun heq => hb (heq ▸ hcl)
      have hca : c ≠ a := fun heq => ha (by simp [← heq, hcl])
      simp [get_insertAfter_last hab hnext, hcb, hca]
    · intro c hc
      have hca : c ≠ a := fun heq => ha (heq ▸ hc)
      simp [prev_insertAfter_last hab hnext, hca]
  · simp [Path, get_insertAfter_last hab hnext, prev_insertAfter_last hab hnext]
  · rw [endOf_concat]
    simp [get_insertAfter_last hab hnext, hab]

theorem get_remove (hself : q.next a ≠ some a) (k : Link α) :
    (q.remove a).get k = if k = q.prev a then q.next a else q.get k := by
  unfold remove
  rcases hnext : q.next a with _ | b
  · simp [hnext]
  · have hab : a ≠ b := by
      rintro rfl
      exact hself hnext
    have hnext' : (q.setPrev b (q.prev a)).next a = some b := hnext
    simp [hnext', hab]

theorem prev_remove (c : α) :
    (q.remove a).prev c = if q.next a = some c then q.prev a else q.prev c := by
  unfold remove
  rcases hnext : q.next a with _ | b
  · simp
  · simp [eq_comm]

omit [DecidableEq α] in
/-- The pointer in a node leads to what follows it. -/
theorem Holds.next_eq (h : q.Holds (l₁ ++ a :: l₂)) : q.next a = l₂.head? := by
  have hends := h.ends
  rw [endOf_append_cons] at hends
  obtain ⟨-, -, -, hpath₂⟩ := path_append.mp h.path
  cases l₂ with
  | nil => exact hends
  | cons b l₂ => exact hpath₂.1

omit [DecidableEq α] in
/-- The link back of a node leads to the pointer to it. -/
theorem Holds.get_prev (h : q.Holds (l₁ ++ a :: l₂)) : q.get (q.prev a) = some a := by
  obtain ⟨-, hget, hback, -⟩ := path_append.mp h.path
  rw [hback]
  exact hget

omit [DecidableEq α] in
theorem Holds.first_eq (h : q.Holds l) : q.first = l.head? := by
  cases l with
  | nil => exact h.ends
  | cons a l => exact h.path.1

/-- **A removal** takes out one node, wherever it is. -/
theorem Holds.remove (h : q.Holds (l₁ ++ a :: l₂)) : (q.remove a).Holds (l₁ ++ l₂) := by
  have hnodup := h.nodup
  obtain ⟨hnodup₁, hnodup₂, hdisj⟩ := List.nodup_append.mp hnodup
  obtain ⟨ha₂, hnodup₂⟩ := List.nodup_cons.mp hnodup₂
  have ha₁ : a ∉ l₁ := fun hmem => hdisj a hmem a (by simp) rfl
  obtain ⟨hpath₁, hget, hback, hpath₂⟩ := path_append.mp h.path
  have hends := h.ends
  rw [endOf_append_cons] at hends
  have hnext : q.next a = l₂.head? := h.next_eq
  have hself : q.next a ≠ some a := by
    intro heq
    rw [hnext] at heq
    exact ha₂ (List.mem_of_mem_head? heq)
  have hplace : ∀ c, c ∉ l₁ → Link.next c ≠ q.prev a := by
    intro c hc heq
    rw [hback] at heq
    rcases endOf_mem .head l₁ with h | ⟨d, hd, h⟩
    · simp [h] at heq
    · rw [h] at heq
      cases heq
      exact hc hd
  refine ⟨?_, path_append.mpr ⟨?_, ?_⟩, ?_⟩
  · exact hnodup.sublist (by simp)
  · apply hpath₁.transport
    · intro hne
      have hne' : Link.head ≠ q.prev a := by
        rw [hback]
        obtain ⟨l₀, b, rfl⟩ := List.eq_nil_or_concat l₁ |>.resolve_left hne
        simp
      simp [get_remove hself, hne']
    · intro c hc
      have hne : Link.next c ≠ q.prev a := by
        rw [hback]
        obtain ⟨l₀, b, rfl⟩ := List.eq_nil_or_concat l₁ |>.resolve_left (by rintro rfl; simp at hc)
        have hcl : c ∈ l₀ := by simpa using hc
        have := (List.nodup_append.mp (by simpa using hnodup₁)).2.2 c hcl b (by simp)
        simpa using this
      simp [get_remove hself, hne]
    · intro c hc
      have hne : q.next a ≠ some c := by
        intro heq
        rw [hnext] at heq
        exact hdisj c hc c (by simp [List.mem_of_mem_head? heq]) rfl
      simp [prev_remove, hne]
  · cases l₂ with
    | nil => trivial
    | cons b l₂ =>
      obtain ⟨hb₂, -⟩ := List.nodup_cons.mp hnodup₂
      have hnext' : q.next a = some b := hnext
      have hout : ∀ c ∈ b :: l₂, Link.next c ≠ q.prev a := fun c hc =>
        hplace c fun hmem => hdisj c hmem c (by simp at hc ⊢; tauto) rfl
      refine ⟨?_, ?_, ?_⟩
      · simp [get_remove hself, hback, hnext']
      · simp [prev_remove, hback, hnext']
      · apply hpath₂.2.2.transport
        · intro _
          simp [get_remove hself, hout b]
        · intro c hc
          have hc' : c ∈ l₂ := List.dropLast_subset l₂ hc
          simp [get_remove hself, hout c (by simp [hc'])]
        · intro c hc
          have hne : b ≠ c := fun heq => hb₂ (heq ▸ hc)
          simp [prev_remove, hnext', hne]
  · rcases List.eq_nil_or_concat l₂ with rfl | ⟨l₀, b, rfl⟩
    · have hnext' : q.next a = none := hnext
      simp [get_remove hself, hback, hnext']
    · have hb : Link.next b ≠ q.prev a := hplace b fun hmem => hdisj b hmem b (by simp) rfl
      rw [List.concat_eq_append, ← List.append_assoc, endOf_concat]
      simpa [get_remove hself, hb] using hends

/-! ## §3 Loops over the nodes -/

omit [DecidableEq α] in
/-- `LIST_FOREACH` that leaves at a node; `none` stands for a loop that does not end. -/
def findFrom (q : Queue α) (p : α → Bool) : ℕ → Option α → Option (Option α)
  | _, none => some none
  | 0, some _ => none
  | fuel + 1, some a => if p a then some (some a) else q.findFrom p fuel (q.next a)

/-- `LIST_FOREACH` that removes each node. -/
def removeFrom : ℕ → Queue α → Option α → Option (Queue α)
  | _, q, none => some q
  | 0, _, some _ => none
  | fuel + 1, q, some a => removeFrom fuel (q.remove a) ((q.remove a).next a)

omit [DecidableEq α] in
theorem Path.findFrom {p : α → Bool} {fuel : ℕ} (h : q.Path link l)
    (hends : q.get (endOf link l) = none) (hfuel : l.length ≤ fuel) :
    q.findFrom p fuel (q.get link) = some (l.find? p) := by
  induction l generalizing link fuel with
  | nil =>
    have hget : q.get link = none := hends
    rw [hget]
    cases fuel <;> rfl
  | cons a l ih =>
    obtain ⟨hget, -, hrest⟩ := h
    cases fuel with
    | zero => simp at hfuel
    | succ fuel =>
      rw [hget, Queue.findFrom, List.find?_cons]
      by_cases ha : p a
      · simp [ha]
      · simp only [ha, Bool.false_eq_true, if_false]
        exact ih hrest hends (by simpa using hfuel)

omit [DecidableEq α] in
/-- **A search** of the list. -/
theorem Holds.findFrom {p : α → Bool} {fuel : ℕ} (h : q.Holds l) (hfuel : l.length ≤ fuel) :
    q.findFrom p fuel q.first = some (l.find? p) :=
  h.path.findFrom h.ends hfuel

/-- **The removal of each node.** -/
theorem Holds.removeFrom {fuel : ℕ} (h : q.Holds l) (hfuel : l.length ≤ fuel) :
    ∃ q', Queue.removeFrom fuel q q.first = some q' ∧ q'.Holds [] := by
  induction l generalizing q fuel with
  | nil =>
    refine ⟨q, ?_, h⟩
    rw [h.first_eq]
    cases fuel <;> rfl
  | cons a l ih =>
    cases fuel with
    | zero => simp at hfuel
    | succ fuel =>
      have h' : q.Holds ([] ++ a :: l) := h
      have hafter : (q.remove a).Holds l := h'.remove
      have hself : q.next a ≠ some a := by
        intro heq
        rw [h'.next_eq] at heq
        exact (List.nodup_cons.mp h.nodup).1 (List.mem_of_mem_head? heq)
      -- the pointer in the node that is out still leads to the one behind it
      have hnext : (q.remove a).next a = (q.remove a).first := by
        have hget := get_remove hself (.next a)
        rw [h.path.2.1, if_neg (by simp)] at hget
        rw [hafter.first_eq]
        exact hget.trans h'.next_eq
      rw [h.first_eq]
      change ∃ q', Queue.removeFrom fuel (q.remove a) ((q.remove a).next a) = some q' ∧ _
      rw [hnext]
      exact ih hafter (by simpa using hfuel)

end Operations

end Queue

end Pmon.Lib
