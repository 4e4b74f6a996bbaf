import Pmon.Lib.Glob
import Pmon.Libc.Strings

/-!
# What `strpat` matches

`strpat` puts both strings into buffers of `MAXLN` bytes, between anchors, and goes through the
pattern once.  After a `*` it looks for the first place where the ordinary characters that follow
occur, and never comes back to look for a later one; with no such characters `strposn` returns the
end of the string.  So the routine is the greedy matcher of `Pmon.Lib.Glob` with the end anchor as
its mark.

## Key results

- `strpatLoop_iff`: the loop accepts what the greedy matcher accepts.
- `strpat_exact`: when `strpat` answers as the pattern says.
-/

namespace Pmon.Libc

open Pmon.Lib.Glob

/-! ## §1 The routine and its buffers -/

/-- `MAXLN` of `stdio.h`. -/
def maxln : ℕ := 256

/-- `EANCHOR`. -/
def eanchor : UInt8 := 0xa4

/-- `strpat` with `src1[MAXLN]` and `src2[MAXLN]`: each string is stored with two anchors and a
    NUL.  `none` where one of them is stored past the end of its buffer. -/
def strpatIn (s1 s2 : CStr) : Option Bool :=
  if s1.length + 3 ≤ maxln ∧ s2.length + 3 ≤ maxln then some (strpat s1 s2) else none

/-- What a byte of the pattern stands for. -/
def item (c : UInt8) : Item UInt8 :=
  if c = 42 then .many else if c = 63 then .one else .lit c

/-- A byte that the scan for the next wildcard passes over. -/
def ordinary (c : UInt8) : Bool := c != 42 && c != 63

theorem item_of_ordinary {c : UInt8} (h : ordinary c = true) : item c = .lit c := by
  simp only [ordinary, Bool.and_eq_true, bne_iff_ne] at h
  simp [item, h.1, h.2]

theorem item_of_not_ordinary {c : UInt8} (h : ¬ ordinary c = true) :
    item c = .many ∨ item c = .one := by
  simp only [ordinary, Bool.and_eq_true, bne_iff_ne, not_and_or, not_not] at h
  rcases h with rfl | rfl
  · exact .inl rfl
  · exact .inr rfl

theorem ordinary_eanchor : ordinary eanchor = true := by decide

theorem run_items (p : CStr) : run (p.map item) = p.takeWhile ordinary := by
  induction p with
  | nil => rfl
  | cons c p ih =>
    by_cases h : ordinary c = true
    · simp [item_of_ordinary h, run, h, ih]
    · rcases item_of_not_ordinary h with hi | hi <;> simp [hi, run, h]

theorem rest_items (p : CStr) : rest (p.map item) = (p.dropWhile ordinary).map item := by
  induction p with
  | nil => rfl
  | cons c p ih =>
    by_cases h : ordinary c = true
    · simp [item_of_ordinary h, rest, h, ih]
    · rcases item_of_not_ordinary h with hi | hi <;> simp [hi, rest, h]

/-! ## §2 `strposn` -/

/-- With nothing to look for, `strposn` returns the end of the string. -/
theorem strposn_nil (p : CStr) : strposn p [] = some [] := by
  cases p <;> rfl

/-- What `strposn` finds is the first place. -/
theorem firstAt_of_strposn {q t : CStr} (hq : q ≠ []) {p : CStr} (h : strposn p q = some t) :
    ∃ v, t = q ++ v ∧ FirstAt q p v := by
  have hempty : q.isEmpty = false := by simpa using hq
  induction p with
  | nil => simp [strposn, hempty] at h
  | cons c p ih =>
    rw [strposn, hempty] at h
    by_cases hpre : q.isPrefixOf (c :: p) = true
    · simp only [Bool.false_eq_true, if_false, hpre, if_true, Option.some.injEq] at h
      obtain ⟨v, hv⟩ := List.isPrefixOf_iff_prefix.mp hpre
      refine ⟨v, by rw [← h, hv], ?_⟩
      rw [← hv]
      exact firstAt_append q v
    · simp only [Bool.false_eq_true, if_false, hpre] at h
      obtain ⟨v, rfl, skip, hp, hfirst⟩ := ih h
      refine ⟨v, rfl, c :: skip, by simp [hp], fun u w hu => ?_⟩
      cases u with
      | nil =>
        exact absurd (List.isPrefixOf_iff_prefix.mpr ⟨w, by simpa using hu.symm⟩) hpre
      | cons d u =>
        simp only [List.cons_append, List.cons.injEq] at hu
        exact Nat.succ_le_succ (hfirst u w hu.2)

theorem strposn_of_firstAt {q : CStr} (hq : q ≠ []) {p v : CStr} (h : FirstAt q p v) :
    strposn p q = some (q ++ v) := by
  cases hs : strposn p q with
  | some t =>
    obtain ⟨v', rfl, h'⟩ := firstAt_of_strposn hq hs
    rw [h.unique h']
  | none =>
    obtain ⟨skip, rfl, -⟩ := h
    have hempty : q.isEmpty = false := by simpa using hq
    -- with an occurrence in it, the string is not searched in vain
    exfalso
    induction skip with
    | nil =>
      cases q with
      | nil => exact hq rfl
      | cons d q =>
        have hpre : (d :: q).isPrefixOf (d :: (q ++ v)) = true :=
          List.isPrefixOf_iff_prefix.mpr ⟨v, rfl⟩
        simp [strposn] at hs
    | cons c skip ih =>
      rw [List.cons_append, List.cons_append, strposn, hempty] at hs
      simp only [Bool.false_eq_true, if_false] at hs
      split at hs
      · exact nomatch hs
      · exact ih hs

/-! ## §3 The loop is the greedy matcher -/

theorem strpatLoop_nil_right (fuel : ℕ) (p : CStr) : strpatLoop fuel p [] = p.isEmpty := by
  cases fuel <;> cases p <;> simp [strpatLoop]

/-- With the string used up, the anchor that is left of the pattern decides. -/
theorem strpatLoop_nil_left (fuel : ℕ) (p : CStr) :
    strpatLoop fuel [] (p ++ [eanchor]) = false := by
  have hne : p ++ [eanchor] ≠ [42] := by
    intro h
    have hlast := congrArg List.getLast? h
    simp [eanchor] at hlast
  cases fuel with
  | zero => simp [strpatLoop]
  | succ fuel => simpa [strpatLoop] using hne

/-- The scan for the next wildcard, with the anchor at the end of the pattern. -/
theorem takeWhile_anchored (p : CStr) : (p ++ [eanchor]).takeWhile ordinary =
    if rest (p.map item) = [] then p ++ [eanchor] else run (p.map item) := by
  by_cases h : p.dropWhile ordinary = []
  · have hrest : rest (p.map item) = [] := by rw [rest_items, h, List.map_nil]
    have hall : p.takeWhile ordinary = p := by
      conv_rhs => rw [← List.takeWhile_append_dropWhile (p := ordinary) (l := p), h]
      simp
    rw [if_pos hrest, List.takeWhile_append]
    simp [hall, ordinary_eanchor]
  · have hrest : rest (p.map item) ≠ [] := by
      rw [rest_items]
      simpa using h
    have hlen : (p.takeWhile ordinary).length ≠ p.length := by
      intro hlen
      apply h
      have := congrArg List.length (List.takeWhile_append_dropWhile (p := ordinary) (l := p))
      rw [List.length_append, hlen] at this
      exact List.length_eq_zero_iff.mp (by omega)
    rw [if_neg hrest, List.takeWhile_append, if_neg hlen, run_items]

theorem eq_run_append {p : CStr} : p = run (p.map item) ++ p.dropWhile ordinary := by
  rw [run_items, List.takeWhile_append_dropWhile]

/-- A string with the anchor behind it begins with some characters, first, at a place in it
    or together with the anchor. -/
theorem firstAt_anchored {q s t : CStr} (h : FirstAt q (s ++ [eanchor]) t) :
    t = [] ∧ (∀ v, ¬ FirstAt q s v) ∨ ∃ v, t = v ++ [eanchor] ∧ FirstAt q s v := by
  obtain ⟨skip, heq, hfirst⟩ := h
  rcases List.eq_nil_or_concat' t with rfl | ⟨v, d, rfl⟩
  · refine .inl ⟨rfl, ?_⟩
    rintro v ⟨skip', rfl, -⟩
    have hlen := congrArg List.length heq
    have hle := hfirst skip' (v ++ [eanchor]) (by simp)
    simp only [List.length_append, List.length_nil, List.length_singleton] at hlen
    omega
  · rw [← List.append_assoc] at heq
    obtain ⟨hs, hd⟩ := List.append_inj' heq rfl
    obtain rfl : eanchor = d := by simpa using hd
    exact .inr ⟨v, rfl, skip, hs, fun u w hu => hfirst u (w ++ [eanchor]) (by simp [hu])⟩

/-- What is looked for behind a `*`. -/
theorem strpatLoop_star (fuel : ℕ) (c : UInt8) (cs p : CStr) :
    strpatLoop (fuel + 1) (c :: cs) (42 :: p) =
      match strposn (c :: cs) (p.takeWhile ordinary) with
      | none => false
      | some t => strpatLoop fuel (t.drop (p.takeWhile ordinary).length)
          (p.drop (p.takeWhile ordinary).length) := by
  rw [strpatLoop, if_pos rfl]
  rfl

/-- A `*` with a wildcard somewhere behind it. -/
theorem strpatLoop_many {fuel : ℕ} {s p : CStr} (hrest : rest (p.map item) ≠ [])
    (ih : ∀ s', strpatLoop fuel (s' ++ [eanchor]) (p.dropWhile ordinary ++ [eanchor]) = true ↔
      Greedy eanchor ((p.dropWhile ordinary).map item) s') :
    strpatLoop (fuel + 1) (s ++ [eanchor]) (42 :: p ++ [eanchor]) = true ↔
      Greedy eanchor (.many :: p.map item) s := by
  obtain ⟨c, cs, hs⟩ : ∃ c cs, s ++ [eanchor] = c :: cs :=
    List.exists_cons_of_ne_nil (by simp)
  have htmp := takeWhile_anchored p
  rw [if_neg hrest] at htmp
  have hdrop : (p ++ [eanchor]).drop (run (p.map item)).length =
      p.dropWhile ordinary ++ [eanchor] := by
    conv_lhs => rw [eq_run_append (p := p), List.append_assoc, ← eq_run_append]
    exact List.drop_left
  rw [hs, List.cons_append, strpatLoop_star, ← hs]
  rw [htmp, hdrop]
  by_cases hrun : run (p.map item) = []
  · -- nothing to look for: `strposn` goes to the end of the string
    rw [hrun]
    simp only [strposn_nil, List.drop_nil, strpatLoop_nil_left, Bool.false_eq_true, false_iff]
    intro h
    cases h with
    | many hne => exact hne hrun
    | last hnil => exact hrest hnil
  · constructor
    · intro h
      cases hfound : strposn (s ++ [eanchor]) (run (p.map item)) with
      | none => simp [hfound] at h
      | some t =>
        simp only [hfound] at h
        obtain ⟨v, rfl, hfirst⟩ := firstAt_of_strposn hrun hfound
        rw [List.drop_left] at h
        rcases firstAt_anchored hfirst with ⟨rfl, -⟩ | ⟨w, rfl, hinside⟩
        · rw [strpatLoop_nil_left] at h
          exact absurd h Bool.false_ne_true
        · apply Greedy.many hrun hrest hinside
          rw [rest_items]
          exact (ih w).mp h
    · intro h
      cases h with
      | last hnil => exact absurd hnil hrest
      | many hne hne' hfirst hg =>
        rename_i v
        have hfirst' : FirstAt (run (p.map item)) (s ++ [eanchor]) (v ++ [eanchor]) := by
          obtain ⟨skip, hskip, -⟩ := id hfirst
          obtain ⟨t, ht, -⟩ := exists_firstAt skip (run (p.map item)) (v ++ [eanchor])
          rw [← List.append_assoc, ← hskip] at ht
          rcases firstAt_anchored ht with ⟨-, hno⟩ | ⟨v', rfl, hfirst''⟩
          · exact absurd hfirst (hno v)
          · rwa [hfirst.unique hfirst'']
        rw [strposn_of_firstAt hrun hfirst']
        simp only [List.drop_left]
        rw [rest_items] at hg
        exact (ih v).mpr hg

/-- The last `*`: the characters that end the pattern are looked for together with the anchor. -/
theorem strpatLoop_last {fuel : ℕ} {s p : CStr} (hrest : rest (p.map item) = []) :
    strpatLoop (fuel + 1) (s ++ [eanchor]) (42 :: p ++ [eanchor]) = true ↔
      Greedy eanchor (.many :: p.map item) s := by
  obtain ⟨c, cs, hs⟩ : ∃ c cs, s ++ [eanchor] = c :: cs :=
    List.exists_cons_of_ne_nil (by simp)
  have htmp := takeWhile_anchored p
  rw [if_pos hrest] at htmp
  have hrun : run (p.map item) = p := by
    have h := eq_run_append (p := p)
    rw [rest_items, List.map_eq_nil_iff] at hrest
    rw [hrest, List.append_nil] at h
    exact h.symm
  have hne : p ++ [eanchor] ≠ [] := by simp
  rw [hs, List.cons_append, strpatLoop_star, ← hs]
  rw [htmp, List.drop_length]
  constructor
  · intro h
    cases hfound : strposn (s ++ [eanchor]) (p ++ [eanchor]) with
    | none => simp [hfound] at h
    | some t =>
      simp only [hfound] at h
      obtain ⟨v, rfl, skip, heq, hfirst⟩ := firstAt_of_strposn hne hfound
      rw [List.drop_left, strpatLoop_nil_right, List.isEmpty_iff] at h
      subst h
      rw [List.append_nil, ← List.append_assoc] at heq
      obtain rfl : s = skip ++ p := (List.append_inj' heq rfl).1
      refine .last hrest (hrun.symm ▸ ⟨skip, rfl⟩) ?_
      -- an earlier place would have been found first
      rintro ⟨u, w, huw⟩
      rw [hrun] at huw
      have hle := hfirst u (w ++ [eanchor]) (by simp [← huw])
      have hlen := congrArg List.length huw
      simp only [List.length_append, List.length_singleton] at hlen
      omega
  · intro h
    cases h with
    | many _ hne => exact absurd hrest hne
    | last _ hsuffix hinfix =>
      rw [hrun] at hsuffix hinfix
      obtain ⟨skip, rfl⟩ := hsuffix
      have hfirst : FirstAt (p ++ [eanchor]) (skip ++ p ++ [eanchor]) [] := by
        refine ⟨skip, by simp, fun u w huw => ?_⟩
        rcases List.eq_nil_or_concat' w with rfl | ⟨w, d, rfl⟩
        · have hlen := congrArg List.length huw
          simp only [List.length_append, List.length_singleton, List.length_nil] at hlen
          omega
        · rw [← List.append_assoc] at huw
          exact absurd ⟨u, w, (List.append_inj' huw rfl).1.symm⟩ hinfix
      rw [strposn_of_firstAt hne hfirst]
      simp [strpatLoop_nil_right]

/-- **The loop of `strpat` is the greedy matcher.** -/
theorem strpatLoop_iff {fuel : ℕ} {s p : CStr} (hfuel : p.length < fuel) :
    strpatLoop fuel (s ++ [eanchor]) (p ++ [eanchor]) = true ↔
      Greedy eanchor (p.map item) s := by
  induction fuel generalizing s p with
  | zero => omega
  | succ fuel ih =>
    cases p with
    | nil =>
      cases s with
      | nil =>
        refine iff_of_true ?_ .nil
        simp [strpatLoop, strpatLoop_nil_right, eanchor]
      | cons c s =>
        refine iff_of_false ?_ (fun h => by cases h)
        by_cases hc : eanchor = c
        · subst hc
          simp [strpatLoop, strpatLoop_nil_right, eanchor]
        · simp only [eanchor] at hc
          simp [strpatLoop, eanchor, hc]
    | cons d p =>
      rw [List.length_cons] at hfuel
      by_cases hstar : d = 42
      · subst hstar
        by_cases hrest : rest (p.map item) = []
        · exact strpatLoop_last hrest
        · refine strpatLoop_many hrest fun s' => ih ?_
          have := congrArg List.length (eq_run_append (p := p))
          rw [List.length_append] at this
          omega
      · cases s with
        | nil =>
          refine iff_of_false ?_ ?_
          · by_cases hd : d = 63 ∨ d = eanchor
            · simp [strpatLoop, hstar, hd, strpatLoop_nil_left]
            · simp [strpatLoop, hstar, hd]
          · intro h
            rw [List.map_cons, item, if_neg hstar] at h
            split at h
            · cases h
            · cases h
        | cons c s =>
          have hrec := ih (s := s) (p := p) (by omega)
          by_cases hquery : d = 63
          · subst hquery
            rw [List.cons_append, List.cons_append, strpatLoop, if_neg hstar, if_pos (.inl rfl),
              hrec]
            exact ⟨fun h => .one c h, fun h => by cases h with | one _ h => exact h⟩
          · have hi : item d = .lit d := by simp [item, hstar, hquery]
            rw [List.map_cons, hi, List.cons_append, List.cons_append, strpatLoop,
              if_neg hstar]
            by_cases hdc : d = c
            · subst hdc
              rw [if_pos (.inr rfl), hrec]
              exact ⟨fun h => .lit d h, fun h => by cases h with | lit _ h => exact h⟩
            · rw [if_neg (by simp [hquery, hdc])]
              refine iff_of_false Bool.false_ne_true fun h => ?_
              cases h with
              | lit => exact hdc rfl

/-! ## §4 When `strpat` is right -/

/-- `s` matches the pattern `p`: `*` stands for any characters, `?` for any one. -/
def PatMatches (p s : CStr) : Prop := Matches (p.map item) s

/-- There is a match of `p` in which every `*` reaches to the first place where the ordinary
    characters that follow it occur.  The characters that end the pattern are at least one with the
    end anchor, of the characters between a `*` and another wildcard there must be one. -/
def FirstPlaces (p s : CStr) : Prop := Greedy eanchor (p.map item) s

theorem strpat_iff {s p : CStr} : strpat s p = true ↔ FirstPlaces p s := by
  rw [strpat, List.cons_append, List.cons_append, List.length_cons, strpatLoop,
    if_neg (by decide), if_pos (.inr rfl)]
  exact strpatLoop_iff (by simp only [List.length_append, List.length_singleton]; omega)

/-- Both strings fit their buffers. -/
def PatFits (s p : CStr) : Prop := s.length + 3 ≤ maxln ∧ p.length + 3 ≤ maxln

/-- A character that is neither the terminating NUL nor the end anchor. -/
def Plain (c : UInt8) : Prop := c ≠ 0 ∧ c ≠ eanchor

theorem exists_plain (c : UInt8) : ∃ z, z ≠ c ∧ Plain z := by
  by_cases h : c = 97
  · subst h
    exact ⟨98, by decide, by decide, by decide⟩
  · exact ⟨97, Ne.symm h, by decide, by decide⟩

theorem admits_plain {p : CStr} (h : ∀ c ∈ p, Plain c) : Admits Plain (p.map item) := by
  intro a ha
  obtain ⟨c, hc, hitem⟩ := List.mem_map.mp ha
  by_cases hord : ordinary c = true
  · rw [item_of_ordinary hord] at hitem
    obtain rfl := Item.lit.inj hitem
    exact h c hc
  · rcases item_of_not_ordinary hord with hi | hi <;> exact nomatch hi.symm.trans hitem

/-- **When `strpat` answers as the pattern says**: exactly if the strings fit their buffers and a
    match, where there is one, can be found by stopping at first places.  For a pattern of plain
    characters that holds of every string exactly if, from its first `*` on, no wildcard follows a
    `*` and nothing but a wildcard follows a `?`. -/
theorem strpat_exact (p : CStr) :
    (∀ s, (∃ b, strpatIn s p = some b ∧ (b = true ↔ PatMatches p s)) ↔
      PatFits s p ∧ (PatMatches p s → FirstPlaces p s)) ∧
    ((∀ c ∈ p, Plain c) →
      ((∀ s, (∀ c ∈ s, Plain c) → PatMatches p s → FirstPlaces p s) ↔
        steady (p.map item) = true)) := by
  constructor
  · intro s
    constructor
    · rintro ⟨b, hb, hiff⟩
      unfold strpatIn at hb
      split at hb
      · rename_i hfits
        obtain rfl := Option.some.inj hb
        exact ⟨hfits, fun hm => strpat_iff.mp (hiff.mpr hm)⟩
      · nomatch hb
    · rintro ⟨hfits, hfirst⟩
      refine ⟨strpat s p, if_pos hfits, ?_, fun hm => strpat_iff.mpr (hfirst hm)⟩
      exact fun h => Greedy.matches (strpat_iff.mp h)
  · intro hp
    exact greedy_right_iff (fun h => h.2 rfl) exists_plain (admits_plain hp)

/-- `*?` matches `a`, and `strpat` says no: `strposn` goes to the end of the string. -/
theorem strpat_star_query :
    PatMatches (ascii "*?") (ascii "a") ∧ strpatIn (ascii "a") (ascii "*?") = some false := by
  refine ⟨.many [] (.one _ .nil), by decide⟩

end Pmon.Libc
