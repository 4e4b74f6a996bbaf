import Pmon.Env.Boot

/-!
# One setting

What `do_setenv` does in each case: whether the change function and the list of values accept the
setting, what becomes of the table when memory runs out, and when the NVRAM code reports 0.

## Key results

- `enter_result`: the four ways in which a variable is entered, or is not.
- `doSetenv_result`: the ways in which a setting ends.
- `tgtSetenv_eq_zero`, `tgtUnsetenv_eq_zero`: when the NVRAM code refuses.
-/

namespace Pmon.Env

open Pmon.Libc Pmon.Nvram Pmon.Lib

variable {s : State} {t : Table} {m : Mallocs} {name : CStr} {value : Option CStr}

/-! ## §1 The table -/

theorem table_ext {t t' : Table} (h : t.slots = t'.slots) : t = t' := by
  cases t
  cases t'
  cases h
  rfl

/-- There is memory for the value, or no need of it. -/
def ValueFits (m : Mallocs) (value : Option CStr) : Prop := value.isSome = true → m.value = true

instance : Decidable (ValueFits m value) := inferInstanceAs (Decidable (_ → _))

/-- There is a slot for a variable: its own or a free one. -/
def Room (t : Table) (name : CStr) : Prop := t.lookup name ≠ none ∨ none ∈ t.slots

/-- How `_setenv` fares once it gets to the table. -/
inductive EnterResult (t : Table) (m : Mallocs) (name : CStr) (value : Option CStr) :
    Bool × Table → Prop where
  | replaced {pre post : List (Option Var)} {n : CStr} {v : Option CStr} :
      t.slots = pre ++ some (n, v) :: post → look pre name = none → striequ name n →
      ValueFits m value →
      EnterResult t m name value (true, t.set pre.length (some (n, value)))
  | lost {pre post : List (Option Var)} {n : CStr} {v : Option CStr} :
      t.slots = pre ++ some (n, v) :: post → look pre name = none → striequ name n →
      ¬ ValueFits m value → EnterResult t m name value (false, t.set pre.length none)
  | added {pre post : List (Option Var)} :
      t.slots = pre ++ none :: post → look t.slots name = none → m.name = true →
      ValueFits m value → EnterResult t m name value (true, t.set pre.length (some (name, value)))
  | refused : look t.slots name = none → ¬ (none ∈ t.slots ∧ m.name = true ∧ ValueFits m value) →
      EnterResult t m name value (false, t)

/-- **Entering a variable**: the value is replaced or the variable is lost, a variable is added or
    nothing happens. -/
theorem enter_result (t : Table) (m : Mallocs) (name : CStr) (value : Option CStr) :
    EnterResult t m name value (t.enter m name value) := by
  have hs := searchLoop_search name t.slots
  rw [Table.enter]
  generalize searchLoop name t.slots 0 none = r at hs ⊢
  cases hs with
  | @hit pre post n v b hslots hpre hn =>
    have hget : (t.slots.getD pre.length none).elim name (·.1) = n := by simp [hslots]
    dsimp only
    rw [hget]
    cases value with
    | none => exact .replaced hslots hpre hn (fun h => by cases h)
    | some w =>
      cases hm : m.value with
      | true => exact .replaced hslots hpre hn (fun _ => hm)
      | false => exact .lost hslots hpre hn (fun h => by simp [h rfl] at hm)
  | @free pre post hslots hlook =>
    cases hname : m.name with
    | false => exact .refused hlook (fun h => by simp [hname] at h)
    | true =>
      cases value with
      | none => exact .added hslots hlook hname (fun h => by cases h)
      | some w =>
        cases hm : m.value with
        | true => exact .added hslots hlook hname (fun _ => hm)
        | false =>
          -- the name that was put into the free slot is taken out again
          have hsame : t.set pre.length none = t := table_ext (by simp [hslots])
          simp only [Bool.not_true, Bool.false_eq_true, if_false, hsame]
          exact .refused hlook (fun h => by simp [h.2.2 rfl] at hm)
  | full hfull hlook => exact .refused hlook (fun h => hfull h.1)

/-- A variable is entered if there is a slot for it and the memory that it needs. -/
def Takes (t : Table) (m : Mallocs) (name : CStr) (value : Option CStr) : Prop :=
  (t.lookup name ≠ none ∨ none ∈ t.slots ∧ m.name = true) ∧ ValueFits m value

theorem lookup_hit {pre post : List (Option Var)} {n : CStr} {v : Option CStr}
    (hslots : t.slots = pre ++ some (n, v) :: post) (hpre : look pre name = none)
    (hn : striequ name n) : t.lookup name = some v := by
  rw [Table.lookup_eq, hslots, look_append, hpre, look_some, if_pos hn, Option.none_or]

theorem enter_fst : (t.enter m name value).1 = true ↔ Takes t m name value := by
  have hr := enter_result t m name value
  generalize t.enter m name value = r at hr ⊢
  unfold Takes
  cases hr with
  | replaced hslots hpre hn hfits => simp [lookup_hit hslots hpre hn, hfits]
  | lost _ _ _ hno => simp [hno]
  | added hslots _ hname hfits => simp [hslots, hname, hfits]
  | refused hlook hno =>
    rw [← Table.lookup_eq] at hlook
    simp only [Bool.false_eq_true, hlook, ne_eq, not_true_eq_false, false_or, false_iff]
    exact fun h => hno ⟨h.1.1, h.1.2, h.2⟩

/-- A variable that is not entered is lost if it was there, and else nothing happens. -/
theorem enter_of_not (h : ¬ Takes t m name value) :
    (t.enter m name value).2 = t ↔ t.lookup name = none := by
  rw [← enter_fst] at h
  have hr := enter_result t m name value
  generalize t.enter m name value = r at hr h ⊢
  cases hr with
  | replaced _ _ _ _ => exact absurd rfl h
  | added _ _ _ _ => exact absurd rfl h
  | refused hlook _ => exact iff_of_true rfl hlook
  | @lost pre post n v hslots hpre hn hno =>
    rw [lookup_hit hslots hpre hn]
    refine iff_of_false (fun heq => ?_) (by simp)
    have hslot := congrArg (fun t => t.slots) heq
    simp [hslots] at hslot

/-- A variable that is entered changes the table, unless it was there with the same value. -/
theorem enter_of_takes (h : Takes t m name value) :
    (t.enter m name value).2 = t ↔ t.lookup name = some value := by
  rw [← enter_fst] at h
  have hr := enter_result t m name value
  generalize t.enter m name value = r at hr h ⊢
  cases hr with
  | lost _ _ _ _ => cases h
  | refused _ _ => cases h
  | @replaced pre post n v hslots hpre hn hfits =>
    rw [lookup_hit hslots hpre hn]
    refine ⟨fun heq => ?_, fun heq => ?_⟩
    · have hslot := congrArg (fun t => t.slots) heq
      simpa [hslots, eq_comm] using hslot
    · apply table_ext
      cases heq
      simp [hslots]
  | @added pre post hslots hlook _ _ =>
    rw [Table.lookup_eq, hlook]
    refine iff_of_false (fun heq => ?_) (by simp)
    have hslot := congrArg (fun t => t.slots) heq
    simp [hslots] at hslot

/-! ## §2 The change functions and the lists of values -/

/-- The value is one of those that are listed for the variable; before `envinit` is done it need not
    be. -/
def Listed (s : State) (name : CStr) (value : Option CStr) : Prop :=
  ((getstdenv name).bind (·.values)).any (fun vs => (matchval vs value).isNone) = false ∨
    s.envinited = false

/-- The setting gets to the table. -/
def Accepts (s : State) (name : CStr) (value : Option CStr) : Prop :=
  ((hookOf name).call s.heaptop value).1 = true ∧ Listed s name value

/-- A variable with a list of values has no change function. -/
theorem hookOf_of_values {sp : Stdenv} (hstd : getstdenv name = some sp) (hvalues : sp.values ≠ none) :
    hookOf name = .null := by
  have hall : ∀ sp ∈ stdenvtab, sp.values ≠ none → sp.chgfunc = .null := by decide
  rw [hookOf, hstd]
  exact hall sp (getstdenv_some hstd).1 hvalues

/-- A value that is not listed is for a variable without a change function. -/
theorem hookOf_of_not_listed (h : ¬ Listed s name value) : hookOf name = .null := by
  cases hstd : getstdenv name with
  | none => rw [hookOf, hstd, Option.elim_none]
  | some sp =>
    apply hookOf_of_values hstd
    exact fun hnone => h (Or.inl (by simp [hstd, hnone]))

/-- A setting that is not accepted changes nothing. -/
theorem setenvTable_of_not (h : ¬ Accepts s name value) :
    setenvTable s m name value = (false, s) := by
  rw [setenvTable, ← hookOf.eq_1]
  cases hok : ((hookOf name).call s.heaptop value).1 with
  | false =>
    have hsame := call_of_false hok
    simp only [hok, Bool.not_false, if_true, hsame]
  | true =>
    have hunlisted : ¬ Listed s name value := fun hl => h ⟨hok, hl⟩
    have hnull := hookOf_of_not_listed hunlisted
    simp only [Listed, not_or, Bool.not_eq_false] at hunlisted
    have hlist : (((getstdenv name).bind (·.values)).any (fun vs => (matchval vs value).isNone) &&
        s.envinited) = true := by rw [hunlisted.1, hunlisted.2, Bool.true_and]
    simp [hnull, Chgfunc.call, hlist]

/-- A setting that is accepted gets to the table. -/
theorem setenvTable_of_accepts (h : Accepts s name value) :
    setenvTable s m name value = ((s.envvar.enter m name value).1,
      { s with
        heaptop := ((hookOf name).call s.heaptop value).2
        envvar := (s.envvar.enter m name value).2 }) := by
  obtain ⟨hok, hlisted⟩ := h
  have hlist : (((getstdenv name).bind (·.values)).any (fun vs => (matchval vs value).isNone) &&
      s.envinited) = false := by
    rcases hlisted with hl | hl <;> simp [hl]
  rw [setenvTable, ← hookOf.eq_1]
  simp only [hok, Bool.not_true, Bool.false_eq_true, if_false, hlist]

/-- The value is the default of a standard variable. -/
def ToDefault (name : CStr) (value : Option CStr) : Prop :=
  (getstdenv name).any (fun sp => value.any (striequ · sp.init)) = true

theorem matchval_congr {v w : CStr} (h : striequ v w) (vs : CStr) :
    matchval vs (some v) = matchval vs (some w) := by
  have hloop : ∀ fuel t j, matchvalLoop (some v) fuel t j = matchvalLoop (some w) fuel t j := by
    intro fuel
    induction fuel with
    | zero => exact fun t j => rfl
    | succ fuel ih =>
      intro t j
      simp only [matchvalLoop, Option.any_some]
      cases getword t with
      | none => rfl
      | some wrd =>
        have hw : striequ wrd.1 v = striequ wrd.1 w := by
          rw [striequ_comm, striequ_congr_left h, striequ_comm]
        simp only [hw, ih]
  exact hloop _ _ _

/-- Every default is among the values of its variable. -/
theorem listed_of_toDefault (h : ToDefault name value) : Listed s name value := by
  unfold ToDefault at h
  cases hstd : getstdenv name with
  | none => simp [hstd] at h
  | some sp =>
    cases value with
    | none => simp [hstd] at h
    | some v =>
      have hv : striequ v sp.init = true := by simpa [hstd] using h
      have hinit := init_matches sp (getstdenv_some hstd).1
      refine Or.inl ?_
      rw [hstd, Option.bind_some]
      cases hvs : sp.values with
      | none => rfl
      | some vs =>
        rw [Option.any_some, matchval_congr hv]
        simpa [hvs, ← Option.not_isSome] using hinit

/-! ## §3 The NVRAM code -/

/-- The search of `tgt_unsetenv` finds an entry of that name. -/
def Stored (nv : NvState) (op : FlashOp) (name : CStr) : Prop :=
  (findEntry (op.load nv.flash) name (nvramSize + 1) 2).isSome = true

instance (nv : NvState) (op : FlashOp) : Decidable (Stored nv op name) :=
  inferInstanceAs (Decidable (_ = _))

/-- `tgt_unsetenv` reports 0 if there is nothing to remove. -/
theorem tgtUnsetenv_eq_zero (nv : NvState) (op : FlashOp) (name : CStr) :
    (tgtUnsetenv nv op name).1 = 0 ↔
      nv.invalid ≠ 0 ∨ op.fault ≠ .malloc ∧ ¬ Stored nv op name := by
  unfold tgtUnsetenv Stored
  by_cases hinv : nv.invalid = 0
  · simp only [hinv, ne_eq, not_true_eq_false, if_false, false_or]
    cases hop : op.fault with
    | malloc => simp
    | _ =>
      simp only [reduceCtorEq, not_false_eq_true, true_and]
      cases hfind : findEntry (op.load nv.flash) name (nvramSize + 1) 2 with
      | none => simp
      | some e =>
        simp only [Option.isSome_some, not_true_eq_false, iff_false]
        split <;> decide
  · simp [hinv]

/-- `tgt_unsetenv` does not touch the sector if there is nothing to remove. -/
theorem tgtUnsetenv_flash {nv : NvState} {op : FlashOp} {name : CStr}
    (h : nv.invalid ≠ 0 ∨ op.fault = .malloc ∨ ¬ Stored nv op name) :
    (tgtUnsetenv nv op name).2 = nv := by
  unfold tgtUnsetenv Stored at *
  by_cases hinv : nv.invalid = 0
  · simp only [hinv, ne_eq, not_true_eq_false, if_false, false_or] at h ⊢
    cases hop : op.fault with
    | malloc => rfl
    | _ =>
      simp only [hop, reduceCtorEq, false_or] at h ⊢
      simp only [Bool.not_eq_true, Option.isSome_eq_false_iff, Option.isNone_iff_eq_none] at h
      rw [h]
  · simp [hinv]

/-- The flash cannot be erased or programmed. -/
def Fault.Flash : Fault → Prop
  | .erase _ => True
  | .program _ => True
  | _ => False

theorem program_eq_false (op : FlashOp) (flash buf : Mem) :
    (op.program flash buf).1 = false ↔ Fault.Flash op.fault := by
  unfold FlashOp.program
  cases op.fault <;> simp [Fault.Flash]

/-- An entry that is not too long always finds space: what is compared is the size of the area. -/
theorem editBuffer_isSome (nv : NvState) (uninit : UInt8) (buf : Mem)
    (hlen : envlen name value ≤ 255) : (editBuffer nv uninit buf name value).isSome = true := by
  unfold editBuffer insertEntry nvramSize
  have hroom : ∀ ep : ℕ, ¬ ep + 486 - ep < envlen name value + 1 := fun ep => by omega
  simp only [hroom, if_false]
  repeat' split
  all_goals rfl

theorem reinit_fst (nv : NvState) (op : FlashOp) : (reinit nv op).1 = true ↔ op.fault = .none := by
  unfold reinit
  cases hop : op.fault <;> simp [FlashOp.program, hop]

/-- `tgt_setenv` reports 0 if the name is missing, the variable too long, or the sector cannot be
    programmed; it reports a lack of memory as -1. -/
theorem tgtSetenv_eq_zero (nv : NvState) (op : SetenvOps) (name : CStr) (value : Option CStr) :
    (tgtSetenv nv op name value).1 = 0 ↔
      name ≠ expert ∧ (name = [] ∨ 255 < envlen name value ∨
        (nv.invalid = 0 ∨ op.reinit.fault = .none) ∧ Fault.Flash op.store.fault) := by
  unfold tgtSetenv
  by_cases hexp : name = expert
  · simp [hexp]
  by_cases hne : name = []
  · rw [if_neg hexp, if_pos hne]
    exact iff_of_true rfl ⟨hexp, Or.inl hne⟩
  by_cases hlen : envlen name value > 255
  · rw [if_neg hexp, if_neg hne, if_pos hlen]
    exact iff_of_true rfl ⟨hexp, Or.inr (Or.inl hlen)⟩
  rw [if_neg hexp, if_neg hne, if_neg hlen]
  have hready : (if nv.invalid ≠ 0 then reinit nv op.reinit else (true, nv)).1 = true ↔
      nv.invalid = 0 ∨ op.reinit.fault = .none := by
    by_cases hinv : nv.invalid = 0
    · simp [hinv]
    · simp only [ne_eq, hinv, not_false_eq_true, if_true, false_or]
      exact reinit_fst nv op.reinit
  generalize (if nv.invalid ≠ 0 then reinit nv op.reinit else (true, nv)) = r at hready ⊢
  obtain ⟨ok, nv'⟩ := r
  cases ok with
  | false =>
    have hno : ¬ (nv.invalid = 0 ∨ op.reinit.fault = .none) := fun h => by simpa using hready.mpr h
    simp [hne, hlen, hno]
  | true =>
    have hyes := hready.mp rfl
    simp only [hne, hlen, hyes, true_and, false_or, Bool.not_true, Bool.false_eq_true, if_false]
    cases hop : op.store.fault with
    | malloc => simp [Fault.Flash]
    | _ =>
      have hedit := editBuffer_isSome (tgtUnsetenv nv' op.unset name).2 op.uninit
        (op.store.load (tgtUnsetenv nv' op.unset name).2.flash) (Nat.le_of_not_lt hlen)
      obtain ⟨⟨buf, nv''⟩, hedit⟩ := Option.isSome_iff_exists.mp hedit
      simp only [hedit, FlashOp.program, hop, Fault.Flash]
      simp [hexp]


/-! ## §4 One setting -/

instance : Decidable (ToDefault name value) := inferInstanceAs (Decidable (_ = _))

/-- What the NVRAM code does with a setting that the table has taken. -/
def storeSetting (nv : NvState) (ops : EnvOps) (name : CStr) (value : Option CStr) (temp : Bool) :
    ℤ × NvState :=
  if ToDefault name value then tgtUnsetenv nv ops.unsetenv name
  else if temp then (1, nv)
  else tgtSetenv nv ops.setenv name value

/-- How a setting ends. -/
inductive SetResult (s : State) (ops : EnvOps) (name : CStr) (value : Option CStr) (temp : Bool) :
    ℤ × State → Prop where
  | declined : ¬ Accepts s name value → SetResult s ops name value temp (0, s)
  | failed : Accepts s name value → ¬ Takes s.envvar ops.mallocs name value →
      SetResult s ops name value temp (0,
        { s with
          heaptop := ((hookOf name).call s.heaptop value).2
          envvar := (s.envvar.enter ops.mallocs name value).2 })
  | taken : Accepts s name value → Takes s.envvar ops.mallocs name value →
      SetResult s ops name value temp ((storeSetting s.nv ops name value temp).1,
        { s with
          heaptop := ((hookOf name).call s.heaptop value).2
          envvar := (s.envvar.enter ops.mallocs name value).2
          nv := (storeSetting s.nv ops name value temp).2 })

/-- **One setting**: it is declined, it fails in the table, or it goes on to the NVRAM. -/
theorem doSetenv_result (s : State) (ops : EnvOps) (name : CStr) (value : Option CStr)
    (temp : Bool) : SetResult s ops name value temp (doSetenv s ops name value temp) := by
  by_cases hacc : Accepts s name value
  · have htable := setenvTable_of_accepts (m := ops.mallocs) hacc
    by_cases htakes : Takes s.envvar ops.mallocs name value
    · have hres : SetResult s ops name value temp _ := .taken hacc htakes
      rw [← enter_fst] at htakes
      unfold storeSetting ToDefault at hres
      simp only [doSetenv, htable, htakes, Bool.not_true, Bool.false_eq_true, if_false]
      by_cases hdef : (getstdenv name).any (fun sp => value.any (striequ · sp.init)) = true
      · simpa only [hdef, if_true] using hres
      · cases temp <;> simpa [hdef] using hres
    · have hres : SetResult s ops name value temp _ := .failed hacc htakes
      rw [← enter_fst, Bool.not_eq_true] at htakes
      simpa [doSetenv, htable, htakes] using hres
  · have htable := setenvTable_of_not (m := ops.mallocs) hacc
    have hres : SetResult s ops name value temp _ := .declined hacc
    simpa [doSetenv, htable] using hres

end Pmon.Env
