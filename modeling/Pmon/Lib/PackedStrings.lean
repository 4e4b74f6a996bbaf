import Pmon.Lib.Bytes

/-!
# Packed strings

A packed string area is a run of NUL-terminated, non-empty strings closed by one more NUL.
`packed es` is its byte image.  The scanning loops that C code writes over such an area are
here with what they do on it, and so are the three ways to edit one in place: copy the rest
down over a string, store a string over the closing NUL, move everything up and store a
string in front.
-/

namespace Pmon.Lib

/-- A string that can stand in a packed area. -/
structure IsEntry (e : List UInt8) : Prop where
  ne_nil : e ≠ []
  not_mem : (0 : UInt8) ∉ e

/-- The strings with their terminators. -/
def strings : List (List UInt8) → List UInt8
  | [] => []
  | e :: es => e ++ 0 :: strings es

/-- The byte image of a packed area. -/
def packed (es : List (List UInt8)) : List UInt8 := strings es ++ [0]

@[simp] theorem strings_nil : strings [] = [] := rfl

@[simp] theorem strings_cons (e : List UInt8) (es : List (List UInt8)) :
    strings (e :: es) = e ++ 0 :: strings es := rfl

@[simp] theorem strings_append (ds es : List (List UInt8)) :
    strings (ds ++ es) = strings ds ++ strings es := by
  induction ds with
  | nil => rfl
  | cons d ds ih => simp [ih]

@[simp] theorem packed_nil : packed [] = [0] := rfl

theorem packed_cons (e : List UInt8) (es : List (List UInt8)) :
    packed (e :: es) = e ++ 0 :: packed es := by
  simp [packed]

theorem packed_append (ds es : List (List UInt8)) :
    packed (ds ++ es) = strings ds ++ packed es := by
  simp [packed]

theorem length_strings_perm {ds es : List (List UInt8)} (h : ds.Perm es) :
    (strings ds).length = (strings es).length := by
  induction h with
  | nil => rfl
  | cons d _ ih => simp [ih]
  | swap d e _ => simp only [strings_cons, List.length_append, List.length_cons]; omega
  | trans _ _ ih ih' => exact ih.trans ih'

theorem length_packed (es : List (List UInt8)) : (packed es).length = (strings es).length + 1 := by
  simp [packed]

theorem length_le_strings (es : List (List UInt8)) : es.length ≤ (strings es).length := by
  induction es with
  | nil => exact Nat.le_refl _
  | cons e es ih =>
    rw [strings_cons, List.length_append, List.length_cons, List.length_cons]
    omega

namespace Mem

variable {m : Mem} {a n : ℕ} {e s : List UInt8} {ds es : List (List UInt8)}

/-- The first byte of an area is NUL exactly when the area is empty. -/
theorem holds_packed_head (h : m.Holds a (packed es)) (hes : ∀ e ∈ es, IsEntry e) :
    m a = 0 ↔ es = [] := by
  cases es with
  | nil => simpa using h.1
  | cons e es =>
    have he := hes e (List.mem_cons_self ..)
    cases e with
    | nil => exact absurd rfl he.ne_nil
    | cons c cs =>
      rw [packed_cons] at h
      have hc : m a = c := h.1
      have hne : c ≠ 0 := fun h0 => he.not_mem (h0 ▸ List.mem_cons_self ..)
      simp [hc, hne]

/-- A NUL-terminated string ends at its first NUL. -/
theorem holds_string_unique {s' : List UInt8} (h : m.Holds a (s ++ [0]))
    (h' : m.Holds a (s' ++ [0])) (hs : (0 : UInt8) ∉ s) (hs' : (0 : UInt8) ∉ s') : s = s' := by
  rw [holds_append] at h h'
  refine h.1.unique h'.1 ?_
  by_contra hne
  rcases Nat.lt_or_gt_of_ne hne with hlt | hgt
  · exact hs' (by rw [← h.2.1, h'.1.getElem hlt]; exact List.getElem_mem hlt)
  · exact hs (by rw [← h'.2.1, h.1.getElem hgt]; exact List.getElem_mem hgt)

theorem holds_packed_cons :
    m.Holds a (packed (e :: es)) ↔ m.Holds a (e ++ [0]) ∧ m.Holds (a + e.length + 1) (packed es) := by
  rw [packed_cons, show e ++ 0 :: packed es = (e ++ [0]) ++ packed es by simp, holds_append,
    List.length_append, List.length_singleton, Nat.add_assoc]

/-- An area holds one list of strings only. -/
theorem holds_packed_unique {es' : List (List UInt8)} (h : m.Holds a (packed es))
    (h' : m.Holds a (packed es')) (hes : ∀ e ∈ es, IsEntry e) (hes' : ∀ e ∈ es', IsEntry e) :
    es = es' := by
  induction es generalizing a es' with
  | nil =>
    have h0 := (holds_packed_head h hes).mpr rfl
    exact ((holds_packed_head h' hes').mp h0).symm
  | cons e es ih =>
    cases es' with
    | nil => exact (holds_packed_head h hes).mp ((holds_packed_head h' hes').mpr rfl)
    | cons e' es' =>
      have he := (hes e (List.mem_cons_self ..)).not_mem
      have he' := (hes' e' (List.mem_cons_self ..)).not_mem
      rw [holds_packed_cons] at h h'
      have hee : e = e' := holds_string_unique h.1 h'.1 he he'
      subst hee
      rw [ih h.2 h'.2 (fun d hd => hes d (List.mem_cons_of_mem _ hd))
        (fun d hd => hes' d (List.mem_cons_of_mem _ hd))]

/-- The last string of an area ends in a byte other than NUL, and a NUL follows. -/
theorem holds_packed_last (h : m.Holds a (packed es)) (hes : ∀ e ∈ es, IsEntry e)
    (hne : es ≠ []) :
    2 ≤ (strings es).length ∧ m (a + (strings es).length - 1) = 0 ∧
      m (a + (strings es).length - 2) ≠ 0 := by
  obtain ⟨ds, l, rfl⟩ : ∃ ds l, es = ds ++ [l] :=
    ⟨_, _, (List.dropLast_concat_getLast hne).symm⟩
  have hl := hes l (by simp)
  have hpos : 0 < l.length := List.length_pos_iff.mpr hl.ne_nil
  rw [packed_append, holds_append, holds_packed_cons, holds_append] at h
  have hlen : (strings (ds ++ [l])).length = (strings ds).length + l.length + 1 := by
    simp [Nat.add_assoc]
  rw [hlen]
  refine ⟨by omega, ?_, ?_⟩
  · rw [show a + ((strings ds).length + l.length + 1) - 1 = a + (strings ds).length + l.length by
      omega]
    exact h.2.1.2.1
  · rw [show a + ((strings ds).length + l.length + 1) - 2 =
      a + (strings ds).length + (l.length - 1) by omega, h.2.1.1.getElem (by omega)]
    exact fun h0 => hl.not_mem (h0 ▸ List.getElem_mem (by omega))

/-! ## Scanning -/

/-- The loop `while (*ep++ != '\0');`: the address after the first NUL.
    `fuel` bounds the bytes looked at. -/
def skipString (m : Mem) : ℕ → ℕ → ℕ
  | 0, ep => ep
  | fuel + 1, ep => if m ep = 0 then ep + 1 else skipString m fuel (ep + 1)

theorem skipString_eq (h : m.Holds a (s ++ [0])) (hs : (0 : UInt8) ∉ s)
    (hn : s.length < n) : m.skipString n a = a + s.length + 1 := by
  induction s generalizing a n with
  | nil =>
    cases n with
    | zero => simp at hn
    | succ n =>
      have h0 : m a = 0 := h.1
      simp [skipString, h0]
  | cons c cs ih =>
    cases n with
    | zero => simp at hn
    | succ n =>
      have hc : m a = c := h.1
      have hne : c ≠ 0 := fun h0 => hs (h0 ▸ List.mem_cons_self ..)
      rw [List.length_cons] at hn
      rw [skipString, if_neg (by rw [hc]; exact hne), ih h.2 (fun h0 => hs (List.mem_cons_of_mem _ h0))
        (by omega), List.length_cons]
      omega

/-- The loop `do { while (*ep++ != '\0'); } while (*ep++ != '\0');`. -/
def skipAll (m : Mem) : ℕ → ℕ → ℕ
  | 0, ep => ep
  | fuel + 1, ep =>
    let ep := m.skipString (fuel + 1) ep
    if m ep ≠ 0 then skipAll m fuel (ep + 1) else ep + 1

/-- From inside a string the loop runs to just after the closing NUL. -/
theorem skipAll_eq (h : m.Holds a (s ++ 0 :: packed es)) (hs : (0 : UInt8) ∉ s)
    (hes : ∀ e ∈ es, IsEntry e) (hn : s.length + (packed es).length < n) :
    m.skipAll n a = a + s.length + 1 + (packed es).length := by
  induction es generalizing a s n with
  | nil =>
    cases n with
    | zero => simp at hn
    | succ n =>
      rw [packed_nil, show s ++ [0, 0] = (s ++ [0]) ++ [0] by simp, holds_append] at h
      have hskip := skipString_eq (n := n + 1) h.1 hs (by omega)
      have h0 : m (a + s.length + 1) = 0 := by simpa [Nat.add_assoc] using h.2.1
      simp [skipAll, hskip, h0]
  | cons e es ih =>
    cases n with
    | zero => simp at hn
    | succ n =>
      have he := hes e (List.mem_cons_self ..)
      obtain ⟨c, cs, rfl⟩ := List.exists_cons_of_ne_nil he.ne_nil
      have hc0 : c ≠ 0 := fun h0 => he.not_mem (h0 ▸ List.mem_cons_self ..)
      rw [packed_cons, show s ++ 0 :: (c :: cs ++ 0 :: packed es) =
        (s ++ [0]) ++ (c :: (cs ++ 0 :: packed es)) by simp, holds_append] at h
      obtain ⟨hstr, hc, hrest⟩ := h
      rw [List.length_append, List.length_singleton, ← Nat.add_assoc] at hc hrest
      have hlen : (packed ((c :: cs) :: es)).length = cs.length + 2 + (packed es).length := by
        simp [packed_cons]
        omega
      rw [hlen] at hn ⊢
      have hskip := skipString_eq (n := n + 1) hstr hs (by omega)
      rw [skipAll, hskip, hc]
      simp only [ne_eq, hc0, not_false_eq_true, if_true]
      rw [ih hrest (fun h0 => he.not_mem (List.mem_cons_of_mem _ h0))
        (fun d hd => hes d (List.mem_cons_of_mem _ hd)) (by omega)]
      omega

/-! ## Editing in place -/

/-- Moving the rest of the area down over `e` removes it. -/
theorem holds_packed_remove (h : m.Holds a (packed (ds ++ e :: es)))
    (hn : (packed es).length ≤ n) :
    (m.move (a + (strings ds).length + e.length + 1) (a + (strings ds).length) n).Holds a
      (packed (ds ++ es)) := by
  rw [packed_append, packed_cons, holds_append, holds_append] at h
  rw [packed_append, holds_append]
  refine ⟨(holds_move_of_disjoint (Or.inl (by omega))).mpr h.1, ?_⟩
  exact holds_move (k := 0) h.2.2.2 (by omega)

/-- Storing a string and two NULs over the closing NUL appends it. -/
theorem holds_packed_append (h : m.Holds a (packed es)) :
    (m.store (a + (strings es).length) (e ++ [0, 0])).Holds a (packed (es ++ [e])) := by
  rw [packed, holds_append] at h
  rw [packed_append, holds_append]
  refine ⟨(holds_store_of_disjoint (Or.inl (by omega))).mpr h.1, ?_⟩
  simpa [packed_cons] using holds_store m (a + (strings es).length) (e ++ [0, 0])

/-- Moving the area up and storing a string in the gap puts it in front. -/
theorem holds_packed_push (h : m.Holds a (packed es)) (hn : (packed es).length ≤ n) :
    ((m.move a (a + (e.length + 1)) n).store a (e ++ [0])).Holds a (packed (e :: es)) := by
  rw [packed_cons, show e ++ 0 :: packed es = (e ++ [0]) ++ packed es by simp, holds_append]
  refine ⟨holds_store _ _ _, ?_⟩
  rw [holds_store_of_disjoint (by simp), List.length_append, List.length_singleton]
  exact holds_move (k := 0) h (by omega)

end Mem

end Pmon.Lib
