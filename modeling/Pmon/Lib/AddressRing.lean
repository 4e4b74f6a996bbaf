import Mathlib.Data.Finset.Max
import Mathlib.Data.List.Nodup
import Mathlib.Logic.Function.Basic

/-!
# Circular lists in address order

A `next` field threads a set of addresses into a circle that ascends everywhere but at one
place, where it returns to the lowest address.  `AddressRing next a l` says that following
`next` from `a` visits `l` and comes back to `a`, and that no address of the ring lies between
an element and its successor.

`rotate`, `insert` and `remove` are the changes; `exists_between` finds the place of a new
address.
-/

namespace Pmon.Lib

variable {α : Type*} {next next' : α → α} {a b c p q : α} {l x y R R' : List α}

/-! ## §1 Walks -/

/-- Following `next` from `a` leads through `l` to `b`. -/
def Walk (next : α → α) : α → List α → α → Prop
  | a, [], b => next a = b
  | a, c :: l, b => next a = c ∧ Walk next c l b

theorem walk_append : Walk next a (x ++ c :: y) b ↔ Walk next a x c ∧ Walk next c y b := by
  induction x generalizing a with
  | nil => exact Iff.rfl
  | cons d x ih => rw [List.cons_append, Walk, Walk, ih, and_assoc]

/-- Only the elements that the walk leaves matter. -/
theorem walk_congr (h : ∀ c ∈ a :: l, next' c = next c) :
    Walk next' a l b ↔ Walk next a l b := by
  induction l generalizing a with
  | nil => rw [Walk, Walk, h a List.mem_cons_self]
  | cons d l ih =>
    rw [Walk, Walk, h a List.mem_cons_self, ih fun c hc => h c (List.mem_cons_of_mem _ hc)]

theorem Walk.next_mem (h : Walk next a l b) (hc : c ∈ a :: l) : next c ∈ l ∨ next c = b := by
  induction l generalizing a with
  | nil =>
    rw [List.mem_singleton.mp hc]
    exact Or.inr h
  | cons d l ih =>
    obtain ⟨hd, htail⟩ := h
    rcases List.mem_cons.mp hc with rfl | hc
    · rw [hd]
      exact Or.inl List.mem_cons_self
    · exact (ih htail hc).imp_left (List.mem_cons_of_mem _)

/-! ## §2 Order -/

variable [LinearOrder α]

/-- In the address order of `R`, the circle goes from `a` to `b`. -/
def NextIn (R : List α) (a b : α) : Prop :=
  (a < b ∧ ∀ c ∈ R, c ≤ a ∨ b ≤ c) ∨ (b ≤ a ∧ ∀ c ∈ R, b ≤ c ∧ c ≤ a)

/-- An address belongs between an element and its successor. -/
def Between (p q n : α) : Prop := (q < p ∧ p < n) ∨ (n ≤ q ∧ (q < p ∨ p < n))

theorem NextIn.subset (h : NextIn R a b) (hsub : ∀ c ∈ R', c ∈ R) : NextIn R' a b :=
  h.imp (fun h => ⟨h.1, fun c hc => h.2 c (hsub c hc)⟩)
    fun h => ⟨h.1, fun c hc => h.2 c (hsub c hc)⟩

/-- The new address follows the element it belongs behind. -/
theorem Between.nextIn_left (hn : NextIn R q b) (h : Between p q b) :
    NextIn (p :: R) q p := by
  rcases h with ⟨hqp, hpb⟩ | ⟨hbq, hqp | hpb⟩
  · refine Or.inl ⟨hqp, fun c hc => ?_⟩
    rcases List.mem_cons.mp hc with rfl | hc
    · exact Or.inr le_rfl
    · rcases hn with ⟨-, hall⟩ | ⟨hbq, -⟩
      · exact (hall c hc).imp_right fun hbc => hpb.le.trans hbc
      · exact absurd (hqp.trans hpb) (not_lt.mpr hbq)
  · refine Or.inl ⟨hqp, fun c hc => ?_⟩
    rcases List.mem_cons.mp hc with rfl | hc
    · exact Or.inr le_rfl
    · rcases hn with ⟨hqb, -⟩ | ⟨-, hall⟩
      · exact absurd hqb (not_lt.mpr hbq)
      · exact Or.inl (hall c hc).2
  · have hpq : p < q := hpb.trans_le hbq
    refine Or.inr ⟨hpq.le, fun c hc => ?_⟩
    rcases List.mem_cons.mp hc with rfl | hc
    · exact ⟨le_rfl, hpq.le⟩
    · rcases hn with ⟨hqb, -⟩ | ⟨-, hall⟩
      · exact absurd hqb (not_lt.mpr hbq)
      · exact ⟨hpb.le.trans (hall c hc).1, (hall c hc).2⟩

/-- It goes on where that element went. -/
theorem Between.nextIn_right (hn : NextIn R q b) (h : Between p q b) :
    NextIn (p :: R) p b := by
  rcases h with ⟨hqp, hpb⟩ | ⟨hbq, hqp | hpb⟩
  · refine Or.inl ⟨hpb, fun c hc => ?_⟩
    rcases List.mem_cons.mp hc with rfl | hc
    · exact Or.inl le_rfl
    · rcases hn with ⟨-, hall⟩ | ⟨hbq, -⟩
      · exact (hall c hc).imp_left fun hcq => hcq.trans hqp.le
      · exact absurd (hqp.trans hpb) (not_lt.mpr hbq)
  · have hbp : b ≤ p := hbq.trans hqp.le
    refine Or.inr ⟨hbp, fun c hc => ?_⟩
    rcases List.mem_cons.mp hc with rfl | hc
    · exact ⟨hbp, le_rfl⟩
    · rcases hn with ⟨hqb, -⟩ | ⟨-, hall⟩
      · exact absurd hqb (not_lt.mpr hbq)
      · exact ⟨(hall c hc).1, (hall c hc).2.trans hqp.le⟩
  · refine Or.inl ⟨hpb, fun c hc => ?_⟩
    rcases List.mem_cons.mp hc with rfl | hc
    · exact Or.inl le_rfl
    · rcases hn with ⟨hqb, -⟩ | ⟨-, hall⟩
      · exact absurd hqb (not_lt.mpr hbq)
      · exact Or.inr (hall c hc).1

/-- The other elements keep their successors. -/
theorem Between.nextIn_other {d : α} (hn : NextIn R q b) (h : Between p q b) (hq : q ∈ R)
    (ha : a ∈ R) (hd : d ∈ R) (haq : a ≠ q) (had : NextIn R a d) : NextIn (p :: R) a d := by
  have hnew : (a < d → p ≤ a ∨ d ≤ p) ∧ (d ≤ a → d ≤ p ∧ p ≤ a) := by
    rcases hn with ⟨hqb, hgap⟩ | ⟨hbq, hgap⟩ <;> rcases had with ⟨hlt, hall⟩ | ⟨hle, hall⟩ <;>
      rcases h with h | h <;>
      have hqa := hall q hq <;> have haq := hgap a ha <;> have hdq := hgap d hd <;> grind
  rcases had with ⟨hlt, hall⟩ | ⟨hle, hall⟩
  · refine Or.inl ⟨hlt, fun c hc => ?_⟩
    rcases List.mem_cons.mp hc with rfl | hc
    · exact hnew.1 hlt
    · exact hall c hc
  · refine Or.inr ⟨hle, fun c hc => ?_⟩
    rcases List.mem_cons.mp hc with rfl | hc
    · exact hnew.2 hle
    · exact hall c hc

/-! ## §3 Rings -/

/-- The addresses `a :: l` are threaded into a circle. -/
structure AddressRing (next : α → α) (a : α) (l : List α) : Prop where
  walk : Walk next a l a
  nodup : (a :: l).Nodup
  order : ∀ b ∈ a :: l, NextIn (a :: l) b (next b)

namespace AddressRing

theorem single (h : next a = a) : AddressRing next a [] where
  walk := h
  nodup := List.nodup_singleton a
  order b hb := by
    rw [List.mem_singleton.mp hb, h]
    exact Or.inr ⟨le_rfl, fun c hc => by simp [List.mem_singleton.mp hc]⟩

theorem next_mem (h : AddressRing next a l) (hb : b ∈ a :: l) : next b ∈ a :: l := by
  rcases h.walk.next_mem hb with hmem | heq
  · exact List.mem_cons_of_mem _ hmem
  · rw [heq]
    exact List.mem_cons_self

/-- Only the `next` fields of the ring matter. -/
theorem congr (h : AddressRing next a l) (heq : ∀ b ∈ a :: l, next' b = next b) :
    AddressRing next' a l where
  walk := (walk_congr heq).mpr h.walk
  nodup := h.nodup
  order b hb := by
    rw [heq b hb]
    exact h.order b hb

/-- **The ring from another element.** -/
theorem rotate (h : AddressRing next a l) (hb : b ∈ a :: l) :
    ∃ l', AddressRing next b l' ∧ (b :: l').Perm (a :: l) := by
  rcases List.mem_cons.mp hb with rfl | hb
  · exact ⟨l, h, .refl _⟩
  · obtain ⟨x, y, rfl⟩ := List.append_of_mem hb
    have hperm : (b :: (y ++ a :: x)).Perm (a :: (x ++ b :: y)) :=
      List.perm_append_comm.trans (.refl (a :: x ++ b :: y))
    obtain ⟨hfront, hback⟩ := walk_append.mp h.walk
    exact ⟨y ++ a :: x,
      { walk := walk_append.mpr ⟨hback, hfront⟩
        nodup := hperm.nodup_iff.mpr h.nodup
        order := fun c hc => (h.order c (hperm.mem_iff.mp hc)).subset fun d => hperm.mem_iff.mp },
      hperm⟩

/-- **A new element** behind the one it belongs behind. -/
theorem insert (h : AddressRing next q l) (hp : p ∉ q :: l) (hbetween : Between p q (next q)) :
    AddressRing (Function.update (Function.update next p (next q)) q p) q (p :: l) := by
  have hpq : p ≠ q := fun heq => hp (heq ▸ List.mem_cons_self)
  have hql : q ∉ l := (List.nodup_cons.mp h.nodup).1
  have hat : Function.update (Function.update next p (next q)) q p q = p := Function.update_self ..
  have hat' : Function.update (Function.update next p (next q)) q p p = next q := by
    rw [Function.update_of_ne hpq, Function.update_self]
  have hother : ∀ c ∈ l, Function.update (Function.update next p (next q)) q p c = next c := by
    intro c hc
    have hcq : c ≠ q := fun heq => hql (heq ▸ hc)
    have hcp : c ≠ p := fun heq => hp (List.mem_cons_of_mem _ (heq ▸ hc))
    rw [Function.update_of_ne hcq, Function.update_of_ne hcp]
  have hperm : (q :: p :: l).Perm (p :: q :: l) := .swap ..
  have hqn := h.order q List.mem_cons_self
  refine ⟨⟨hat, ?_⟩, hperm.nodup_iff.mpr (List.nodup_cons.mpr ⟨hp, h.nodup⟩), fun b hb => ?_⟩
  · have hwalk := h.walk
    cases l with
    | nil => exact hat'.trans hwalk
    | cons c l => exact ⟨hat'.trans hwalk.1, (walk_congr hother).mpr hwalk.2⟩
  · refine NextIn.subset ?_ fun c => hperm.mem_iff.mp
    rcases List.mem_cons.mp hb with rfl | hb
    · rw [hat]
      exact hbetween.nextIn_left hqn
    rcases List.mem_cons.mp hb with rfl | hb
    · rw [hat']
      exact hbetween.nextIn_right hqn
    · rw [hother b hb]
      have hmem := List.mem_cons_of_mem q hb
      exact hbetween.nextIn_other hqn List.mem_cons_self hmem (h.next_mem hmem)
        (fun heq => hql (heq ▸ hb)) (h.order b hmem)

/-- **Taking out** the element behind the first. -/
theorem remove (h : AddressRing next q (p :: l)) :
    AddressRing (Function.update next q (next p)) q l := by
  obtain ⟨hqp, hpl⟩ := h.walk
  have hqnot := List.nodup_cons.mp h.nodup
  have hnodup : (q :: l).Nodup :=
    List.nodup_cons.mpr ⟨fun hq => hqnot.1 (List.mem_cons_of_mem _ hq), hqnot.2.of_cons⟩
  have hpq : p ≠ q := fun heq => hqnot.1 (heq ▸ List.mem_cons_self)
  have hpnot : p ∉ l := (List.nodup_cons.mp hqnot.2).1
  have hsub : ∀ c ∈ q :: l, c ∈ q :: p :: l := fun c hc => by
    rcases List.mem_cons.mp hc with rfl | hc
    · exact List.mem_cons_self
    · exact List.mem_cons_of_mem _ (List.mem_cons_of_mem _ hc)
  have hother : ∀ c ∈ l, Function.update next q (next p) c = next c := fun c hc => by
    have hcq : c ≠ q := fun heq => hqnot.1 (heq ▸ List.mem_cons_of_mem _ hc)
    rw [Function.update_of_ne hcq]
  refine ⟨?_, hnodup, fun b hb => ?_⟩
  · cases l with
    | nil => exact (Function.update_self ..).trans hpl
    | cons c l => exact ⟨(Function.update_self ..).trans hpl.1, (walk_congr hother).mpr hpl.2⟩
  · rcases List.mem_cons.mp hb with rfl | hb
    · -- two steps of the old ring are one of the new
      rw [Function.update_self]
      have h₁ := h.order b List.mem_cons_self
      have h₂ := h.order p (List.mem_cons_of_mem _ List.mem_cons_self)
      rw [hqp] at h₁
      have hn := h.next_mem (List.mem_cons_of_mem _ List.mem_cons_self : p ∈ b :: p :: l)
      have hmem : ∀ c ∈ b :: l, c ≠ p := fun c hc => by
        rcases List.mem_cons.mp hc with rfl | hc
        · exact hpq.symm
        · exact fun heq => hpnot (heq ▸ hc)
      rcases h₁ with ⟨hlt₁, hall₁⟩ | ⟨hle₁, hall₁⟩ <;> rcases h₂ with ⟨hlt₂, hall₂⟩ | ⟨hle₂, hall₂⟩
      · refine Or.inl ⟨hlt₁.trans hlt₂, fun c hc => ?_⟩
        have hne := hmem c hc
        have hc₁ := hall₁ c (hsub c hc)
        have hc₂ := hall₂ c (hsub c hc)
        grind
      · refine Or.inr ⟨(hall₂ b List.mem_cons_self).1, fun c hc => ?_⟩
        have hne := hmem c hc
        have hc₁ := hall₁ c (hsub c hc)
        have hc₂ := hall₂ c (hsub c hc)
        grind
      · refine Or.inr ⟨(hall₁ _ hn).2, fun c hc => ?_⟩
        have hne := hmem c hc
        have hc₁ := hall₁ c (hsub c hc)
        have hc₂ := hall₂ c (hsub c hc)
        grind
      · have hb₂ := hall₂ b List.mem_cons_self
        exact absurd (le_antisymm hle₁ hb₂.2) hpq
    · rw [hother b hb]
      exact (h.order b (hsub b (List.mem_cons_of_mem _ hb))).subset hsub

/-- **The place of a new address.** -/
theorem exists_between (h : AddressRing next a l) (hp : p ∉ a :: l) :
    ∃ q ∈ a :: l, Between p q (next q) := by
  have hne : ∀ c ∈ a :: l, c ≠ p := fun c hc heq => hp (heq ▸ hc)
  by_cases hbelow : ∃ c ∈ a :: l, c < p
  · -- the highest element below
    obtain ⟨c, hc, hcp⟩ := hbelow
    have hsome : ((a :: l).toFinset.filter (· < p)).Nonempty :=
      ⟨c, Finset.mem_filter.mpr ⟨List.mem_toFinset.mpr hc, hcp⟩⟩
    obtain ⟨q, hq, hmax⟩ := Finset.exists_max_image _ id hsome
    rw [Finset.mem_filter, List.mem_toFinset] at hq
    have hn := h.next_mem hq.1
    refine ⟨q, hq.1, ?_⟩
    rcases h.order q hq.1 with ⟨hlt, -⟩ | ⟨hle, -⟩
    · refine Or.inl ⟨hq.2, lt_of_not_ge fun hge => ?_⟩
      have hnp := lt_of_le_of_ne hge (hne _ hn)
      have hle := hmax _ (Finset.mem_filter.mpr ⟨List.mem_toFinset.mpr hn, hnp⟩)
      exact absurd hlt (not_lt.mpr hle)
    · exact Or.inr ⟨hle, Or.inl hq.2⟩
  · -- everything lies above: the place is behind the highest element
    have hsome : (a :: l).toFinset.Nonempty := ⟨a, List.mem_toFinset.mpr List.mem_cons_self⟩
    obtain ⟨q, hq, hmax⟩ := Finset.exists_max_image _ id hsome
    rw [List.mem_toFinset] at hq
    have hn := h.next_mem hq
    have hle : next q ≤ q := hmax _ (List.mem_toFinset.mpr hn)
    have hpn : p ≤ next q := not_lt.mp fun hlt => hbelow ⟨_, hn, hlt⟩
    exact ⟨q, hq, Or.inr ⟨hle, Or.inr (lt_of_le_of_ne hpn (hne _ hn).symm)⟩⟩

end AddressRing

end Pmon.Lib
