import Mathlib.Data.Nat.Init
import Mathlib.Tactic.Common

/-!
# Depth-first numbering

A depth-first walk leaves one record for each node, in the order in which it comes to them.  What a
record keeps here is the chain of the positions above it, nearest first.  Only this is used: the
chain of the next record is an end of the chain that the last record opens.

## Key results

- `mem_interval`: numbers given in this order make the nodes behind a node an interval.
- `interval_disjoint`: the intervals of two nodes with the same chain have nothing in common.
-/

namespace Pmon.Lib

/-! ## §1 Chains -/

/-- The chains `us` are those of a depth-first walk. -/
structure DepthFirst (us : List (List ℕ)) : Prop where
  root : ∀ u, us[0]? = some u → u = []
  next : ∀ k u v, us[k]? = some u → us[k + 1]? = some v → v <:+ k :: u

/-- The chain that is open after the last record. -/
def openChain (us : List (List ℕ)) : List ℕ :=
  match us.getLast? with
  | none => []
  | some u => (us.length - 1) :: u

/-- Record `j` is record `i` or below it. -/
def Behind (us : List (List ℕ)) (i j : ℕ) : Prop := j = i ∨ ∃ u, us[j]? = some u ∧ i ∈ u

@[simp] theorem openChain_nil : openChain [] = [] := rfl

@[simp] theorem openChain_snoc (us : List (List ℕ)) (u : List ℕ) :
    openChain (us ++ [u]) = us.length :: u := by
  simp [openChain]

theorem depthFirst_nil : DepthFirst [] where
  root := by simp
  next := by simp

/-- **A record may be added below any record of the open chain.** -/
theorem DepthFirst.snoc {us : List (List ℕ)} {v : List ℕ} (h : DepthFirst us)
    (hv : v <:+ openChain us) : DepthFirst (us ++ [v]) := by
  rcases List.eq_nil_or_concat us with rfl | ⟨ws, w, rfl⟩
  · have hnil : v = [] := by simpa using hv
    subst hnil
    exact ⟨by simp, by simp⟩
  · simp only [List.concat_eq_append] at h hv ⊢
    rw [openChain_snoc] at hv
    refine ⟨fun u hu => h.root u ?_, fun k x y hx hy => ?_⟩
    · rwa [List.getElem?_append_left (by simp)] at hu
    · have hk : k + 1 < (ws ++ [w] ++ [v]).length := (List.getElem?_eq_some_iff.mp hy).1
      simp only [List.length_append, List.length_singleton] at hk
      have hkx : k < (ws ++ [w]).length := by simp; omega
      rw [List.getElem?_append_left hkx] at hx
      by_cases hlast : k = ws.length
      · subst hlast
        have hxw : w = x := by simpa using hx
        have hyv : v = y := by simpa using hy
        rwa [← hxw, ← hyv]
      · rw [List.getElem?_append_left (by simp; omega)] at hy
        exact h.next k x y hx hy

theorem behind_snoc_old {us : List (List ℕ)} {v : List ℕ} {i k : ℕ} (hk : k < us.length) :
    Behind (us ++ [v]) i k ↔ Behind us i k := by
  simp only [Behind, List.getElem?_append_left hk]

theorem behind_snoc_new {us : List (List ℕ)} {v : List ℕ} {i : ℕ} :
    Behind (us ++ [v]) i us.length ↔ us.length = i ∨ i ∈ v := by
  simp [Behind]

section Walk

variable {us : List (List ℕ)} (h : DepthFirst us)

include h

/-- What is above a record comes before it. -/
theorem DepthFirst.lt_of_mem {i k : ℕ} {u : List ℕ} (hu : us[k]? = some u) (hi : i ∈ u) :
    i < k := by
  induction k generalizing u with
  | zero => simp [h.root u hu] at hi
  | succ k ih =>
    have hlen : k + 1 < us.length := (List.getElem?_eq_some_iff.mp hu).1
    have hk : us[k]? = some us[k] := List.getElem?_eq_getElem (by omega)
    rcases List.mem_cons.mp ((h.next k _ u hk hu).subset hi) with rfl | hmem
    · omega
    · have := ih hk hmem
      omega

theorem DepthFirst.le_of_behind {i k : ℕ} (hb : Behind us i k) : i ≤ k := by
  rcases hb with rfl | ⟨u, hu, hi⟩
  · exact Nat.le_refl _
  · exact Nat.le_of_lt (h.lt_of_mem hu hi)

/-- The records behind one record follow it without a gap. -/
theorem DepthFirst.behind_between {i j k : ℕ} (hb : Behind us i k) (hij : i ≤ j) (hjk : j ≤ k) :
    Behind us i j := by
  induction k with
  | zero =>
    have hj : j = 0 := by omega
    rwa [hj]
  | succ k ih =>
    rcases Nat.lt_or_ge k j with hlt | hge
    · have hj : j = k + 1 := by omega
      rwa [hj]
    · -- the step back: one record nearer to `i` is still `i` or below it
      apply ih _ hge
      rcases hb with heq | ⟨u, hu, hi⟩
      · omega
      · have hlen : k + 1 < us.length := (List.getElem?_eq_some_iff.mp hu).1
        have hk : us[k]? = some us[k] := List.getElem?_eq_getElem (by omega)
        rcases List.mem_cons.mp ((h.next k _ u hk hu).subset hi) with rfl | hmem
        · exact Or.inl rfl
        · exact Or.inr ⟨_, hk, hmem⟩

/-- Two records with one chain are not behind one another. -/
theorem DepthFirst.not_behind_sibling {i j : ℕ} {u : List ℕ} (hi : us[i]? = some u)
    (hj : us[j]? = some u) (hij : i < j) : ¬ Behind us i j := by
  rintro (rfl | ⟨v, hv, hmem⟩)
  · omega
  · have huv : u = v := by simpa [hj] using hv
    subst huv
    exact absurd (h.lt_of_mem hi hmem) (by omega)

end Walk

/-! ## §2 Numbers -/

/-- The numbers `ns` of the records: they increase, and below a record they do so by one. -/
structure Numbering (us : List (List ℕ)) (ns : List ℕ) : Prop where
  length : ns.length = us.length
  increasing : ns.Pairwise (· < ·)
  next : ∀ k u m, us[k + 1]? = some u → u ≠ [] → ns[k]? = some m → ns[k + 1]? = some (m + 1)

section Numbers

variable {us : List (List ℕ)} {ns : List ℕ}

theorem Numbering.lt_of_lt (hn : Numbering us ns) {j k a b : ℕ} (ha : ns[j]? = some a)
    (hb : ns[k]? = some b) (hjk : j < k) : a < b := by
  obtain ⟨hj, rfl⟩ := List.getElem?_eq_some_iff.mp ha
  obtain ⟨hk, rfl⟩ := List.getElem?_eq_some_iff.mp hb
  exact List.pairwise_iff_getElem.mp hn.increasing j k hj hk hjk

theorem Numbering.le_of_le (hn : Numbering us ns) {j k a b : ℕ} (ha : ns[j]? = some a)
    (hb : ns[k]? = some b) (hjk : j ≤ k) : a ≤ b := by
  rcases Nat.eq_or_lt_of_le hjk with rfl | hlt
  · simp_all
  · exact Nat.le_of_lt (hn.lt_of_lt ha hb hlt)

theorem Numbering.eq_of_eq (hn : Numbering us ns) {j k a : ℕ} (ha : ns[j]? = some a)
    (hb : ns[k]? = some a) : j = k := by
  rcases Nat.lt_trichotomy j k with hlt | heq | hgt
  · exact absurd (hn.lt_of_lt ha hb hlt) (by omega)
  · exact heq
  · exact absurd (hn.lt_of_lt hb ha hgt) (by omega)

/-- **The numbers behind a record are those from its own to that of the last record behind it.** -/
theorem mem_interval (h : DepthFirst us) (hn : Numbering us ns) {i j a b : ℕ}
    (ha : ns[i]? = some a) (hb : ns[j]? = some b) (hij : Behind us i j)
    (hlast : ∀ k, k < us.length → Behind us i k → k ≤ j) (n : ℕ) :
    (a ≤ n ∧ n ≤ b) ↔ ∃ k, Behind us i k ∧ ns[k]? = some n := by
  constructor
  · rintro ⟨han, hnb⟩
    induction n, han using Nat.le_induction with
    | base => exact ⟨i, Or.inl rfl, ha⟩
    | succ n han ih =>
      obtain ⟨k, hk, hkn⟩ := ih (by omega)
      have hik : i ≤ k := h.le_of_behind hk
      have hkj : k < j := by
        have hklen : k < us.length := hn.length ▸ (List.getElem?_eq_some_iff.mp hkn).1
        have hle : k ≤ j := hlast k hklen hk
        rcases Nat.eq_or_lt_of_le hle with rfl | hlt
        · have : n = b := by simpa [hkn] using hb
          omega
        · exact hlt
      have hbeh : Behind us i (k + 1) := h.behind_between hij (by omega) (by omega)
      rcases hbeh with heq | ⟨u, hu, hi⟩
      · omega
      · exact ⟨k + 1, Or.inr ⟨u, hu, hi⟩, hn.next k u n hu (List.ne_nil_of_mem hi) hkn⟩
  · rintro ⟨k, hk, hkn⟩
    have hklen : k < us.length := hn.length ▸ (List.getElem?_eq_some_iff.mp hkn).1
    exact ⟨hn.le_of_le ha hkn (h.le_of_behind hk), hn.le_of_le hkn hb (hlast k hklen hk)⟩

/-- **What is behind one of two siblings is not behind the other.** -/
theorem interval_disjoint (h : DepthFirst us) (hn : Numbering us ns) {i j : ℕ} {u : List ℕ}
    (hi : us[i]? = some u) (hj : us[j]? = some u) (hne : i ≠ j) {n : ℕ}
    (hni : ∃ k, Behind us i k ∧ ns[k]? = some n) : ¬ ∃ k, Behind us j k ∧ ns[k]? = some n := by
  rintro ⟨k, hjk, hkn⟩
  obtain ⟨k', hik, hkn'⟩ := hni
  have hkk : k' = k := hn.eq_of_eq hkn' hkn
  subst hkk
  rcases Nat.lt_or_gt_of_ne hne with hlt | hgt
  · exact h.not_behind_sibling hi hj hlt
      (h.behind_between hik (Nat.le_of_lt hlt) (h.le_of_behind hjk))
  · exact h.not_behind_sibling hj hi hgt
      (h.behind_between hjk (Nat.le_of_lt hgt) (h.le_of_behind hik))

end Numbers

end Pmon.Lib
