import Pmon.Env.SetRuns

/-!
# `unsetenv` with a pattern

The loop of `unsetenv` goes through the slots and returns as soon as `setenv` reports 0 for a
standard variable.  `setenv` does so if the change function refuses the default, if there is no
memory for it, and also if the NVRAM has no entry to remove: the table is right then, but the slots
after it are not looked at any more.

## Key results

- `unsetenv_result`: what the loop does to the slots up to the first stop.
- `unsetenv_exact`: when every variable that matches is reset or gone.
-/

namespace Pmon.Env

open Pmon.Lib Pmon.Libc Pmon.Nvram

variable {s : State} {ops : ℕ → EnvOps} {pat : CStr}

/-! ## §1 What is asked for -/

/-- A variable that matches: a standard variable has its default, any other is gone. -/
def resetSlot (pat : CStr) : Option Var → Option Var
  | none => none
  | some (n, v) =>
    if strpat n pat then (getstdenv n).map fun sp => (n, some sp.init)
    else some (n, v)

/-! ## §2 Where the loop stops -/

/-- The NVRAM when the loop comes to slot `k`: the entries of the variables before that match are
    removed. -/
def nvAt (s : State) (ops : ℕ → EnvOps) (pat : CStr) : ℕ → NvState
  | 0 => s.nv
  | k + 1 =>
    match s.envvar.slots.getD k none with
    | some (n, _) =>
      if strpat n pat then (tgtUnsetenv (nvAt s ops pat k) (ops k).unsetenv (resetName n)).2
      else nvAt s ops pat k
    | none => nvAt s ops pat k

/-- The change function refuses the default. -/
def Refused (s : State) (sp : Stdenv) : Prop := (sp.chgfunc.call s.heaptop (some sp.init)).1 = false

/-- The NVRAM has no entry of that name, or is not valid. -/
def NothingStored (nv : NvState) (op : FlashOp) (name : CStr) : Prop :=
  nv.invalid ≠ 0 ∨ op.fault ≠ .malloc ∧ ¬ Stored nv op name

/-- The loop returns at slot `k` if it comes to it: a standard variable that matches is there, and
    its default is refused, cannot be allocated, or has no entry to be removed. -/
def StopsAt (s : State) (ops : ℕ → EnvOps) (pat : CStr) (k : ℕ) (n : CStr) (v : Option CStr)
    (sp : Stdenv) : Prop :=
  s.envvar.slots.getD k none = some (n, v) ∧ strpat n pat = true ∧ getstdenv n = some sp ∧
    (Refused s sp ∨ (ops k).mallocs.value = false ∨
      NothingStored (nvAt s ops pat k) (ops k).unsetenv sp.name)

/-- The loop passes slot `k`. -/
def Passes (s : State) (ops : ℕ → EnvOps) (pat : CStr) (k : ℕ) : Prop :=
  ∀ n v sp, ¬ StopsAt s ops pat k n v sp

instance (s : State) (sp : Stdenv) : Decidable (Refused s sp) := inferInstanceAs (Decidable (_ = _))

/-- What the loop leaves in the slot where it stops. -/
def stopSlot (s : State) (m : Mallocs) (n : CStr) (v : Option CStr) (sp : Stdenv) : Option Var :=
  if Refused s sp then some (n, v) else if m.value then some (n, some sp.init) else none

/-! ## §3 One slot -/

/-- In a table with distinct names a name has one slot. -/
theorem Distinct.index_unique {t : Table} {i j : ℕ} {n n' : CStr} {v v' : Option CStr}
    (hd : Distinct t) (hi : t.slots.getD i none = some (n, v))
    (hj : t.slots.getD j none = some (n', v')) (hn : striequ n n') : i = j := by
  by_contra hne
  have hj' : (t.set i none).slots.getD j none = some (n', v') := by
    rw [← hj]
    simp [List.getD_eq_getElem?_getD, hne]
  have hgone : (t.set i none).lookup n = none := by
    rw [(drop_spec hd hi).2.1, striequ_refl]
    rfl
  rw [Table.lookup_eq, look_eq_none_iff, striequ_iff.mp hn] at hgone
  exact hgone (List.mem_filterMap.mpr ⟨_, mem_slots_of_getD hj', rfl⟩)

/-- A variable that has a slot is entered there, or lost. -/
theorem enter_at {t : Table} {i : ℕ} {n name : CStr} {v : Option CStr} (m : Mallocs)
    (value : Option CStr) (hd : Distinct t) (hi : t.slots.getD i none = some (n, v)) (hn : striequ name n) :
    (ValueFits m value → t.enter m name value = (true, t.set i (some (n, value)))) ∧
      (¬ ValueFits m value → t.enter m name value = (false, t.set i none)) := by
  have hlook : look t.slots name ≠ none := by
    rw [Ne, look_eq_none_iff, not_not, striequ_iff.mp hn]
    exact List.mem_filterMap.mpr ⟨_, mem_slots_of_getD hi, rfl⟩
  have hsame : ∀ {pre post : List (Option Var)} {n' : CStr} {v' : Option CStr},
      t.slots = pre ++ some (n', v') :: post → striequ name n' → pre.length = i ∧ n' = n := by
    intro pre post n' v' hslots hn'
    have hpre : t.slots.getD pre.length none = some (n', v') := by simp [hslots]
    have hidx := hd.index_unique hpre hi (striequ_trans (striequ_comm.trans hn') hn)
    refine ⟨hidx, ?_⟩
    rw [hidx, hi] at hpre
    cases hpre
    rfl
  have hr := enter_result t m name value
  generalize t.enter m name value = r at hr ⊢
  cases hr with
  | added _ hnone _ _ => exact absurd hnone hlook
  | refused hnone _ => exact absurd hnone hlook
  | replaced hslots _ hn' hfits =>
    obtain ⟨rfl, rfl⟩ := hsame hslots hn'
    exact ⟨fun _ => rfl, fun hno => absurd hfits hno⟩
  | lost hslots _ hn' hno =>
    obtain ⟨rfl, rfl⟩ := hsame hslots hn'
    exact ⟨fun hfits => absurd hfits hno, fun _ => rfl⟩

/-- What is known when the loop comes to slot `i`: the slots before it are reset. -/
structure LoopAt (s : State) (ops : ℕ → EnvOps) (pat : CStr) (i : ℕ) (s' : State) : Prop where
  distinct : Distinct s'.envvar
  slots : s'.envvar.slots =
    (s.envvar.slots.take i).map (resetSlot pat) ++ s.envvar.slots.drop i
  nv : s'.nv = nvAt s ops pat i
  /-- The change functions still say the same about the defaults. -/
  hooks : ∀ sp ∈ stdenvtab, Refused s' sp ↔ Refused s sp

theorem loopAt_zero (hd : Distinct s.envvar) : LoopAt s ops pat 0 s where
  distinct := hd
  slots := by simp
  nv := rfl
  hooks _ _ := Iff.rfl

theorem LoopAt.getD {i : ℕ} {s' : State} (h : LoopAt s ops pat i s') :
    s'.envvar.slots.getD i none = s.envvar.slots.getD i none := by
  rw [h.slots]
  by_cases hi : i < s.envvar.slots.length
  · have hlen : ((s.envvar.slots.take i).map (resetSlot pat)).length = i := by
      simp [Nat.le_of_lt hi]
    rw [List.getD_append_right _ _ _ _ (Nat.le_of_eq hlen), hlen]
    simp [List.getD_eq_getElem?_getD]
  · have hall := Nat.not_lt.mp hi
    rw [List.take_of_length_le hall, List.drop_of_length_le hall, List.append_nil,
      List.getD_eq_default _ _ (by simpa using hall), List.getD_eq_default _ _ hall]

theorem LoopAt.set {i : ℕ} {s' : State} (h : LoopAt s ops pat i s') (hi : i < s.envvar.slots.length)
    (x : Option Var) :
    s'.envvar.slots.set i x =
      (s.envvar.slots.take i).map (resetSlot pat) ++ x :: s.envvar.slots.drop (i + 1) := by
  have hlen : ((s.envvar.slots.take i).map (resetSlot pat)).length = i := by
    simp [Nat.le_of_lt hi]
  rw [h.slots, List.set_append_right _ _ (Nat.le_of_eq hlen), hlen, Nat.sub_self,
    List.drop_eq_getElem_cons hi, List.set_cons_zero]

/-- One slot more is as it should be. -/
theorem reset_succ {slots : List (Option Var)} {i : ℕ} (hi : i < slots.length) :
    (slots.take i).map (resetSlot pat) ++ resetSlot pat (slots.getD i none) :: slots.drop (i + 1) =
      (slots.take (i + 1)).map (resetSlot pat) ++ slots.drop (i + 1) := by
  rw [List.take_add_one, List.getElem?_eq_getElem hi, List.getD_eq_getElem _ _ hi]
  simp only [Option.toList_some, List.map_append, List.map_cons, List.map_nil, List.append_assoc,
    List.singleton_append]

/-- Passing a slot that is left as it is. -/
theorem LoopAt.skip {i : ℕ} {s' : State} (h : LoopAt s ops pat i s') (hi : i < s.envvar.slots.length)
    (hsame : resetSlot pat (s.envvar.slots.getD i none) = s.envvar.slots.getD i none)
    (hnv : nvAt s ops pat (i + 1) = nvAt s ops pat i) : LoopAt s ops pat (i + 1) s' where
  distinct := h.distinct
  slots := by
    rw [← reset_succ hi, hsame, List.getD_eq_getElem _ _ hi, ← List.drop_eq_getElem_cons hi]
    exact h.slots
  nv := by rw [h.nv, hnv]
  hooks := h.hooks

/-- After a default that was accepted the change functions say the same about the defaults. -/
theorem refused_of_accepted {s' : State} {sp sp' : Stdenv} (hsp : sp ∈ stdenvtab)
    (hsp' : sp' ∈ stdenvtab) (hok : ¬ Refused s sp)
    (hheap : s'.heaptop = (sp.chgfunc.call s.heaptop (some sp.init)).2) :
    Refused s' sp' ↔ Refused s sp' := by
  unfold Refused at hok ⊢
  by_cases hf' : sp'.chgfunc = .chgHeaptop
  case neg => rw [call_indep s'.heaptop s.heaptop hf']
  case pos =>
    by_cases hf : sp.chgfunc = .chgHeaptop
    case neg => rw [hheap, call_heaptop hf]
    case pos =>
      -- the heap top has become the default itself
      have hinit : ∀ sp ∈ stdenvtab, sp.chgfunc = .chgHeaptop → sp.init = setclientpc := by decide
      have hnum : atob setclientpc 16 = some 0x80100000 := by decide
      rw [hf, hinit sp hsp hf] at hok hheap
      rw [hf', hinit sp' hsp' hf', hheap]
      simp only [Chgfunc.call, Option.getD_some, hnum] at hok ⊢
      split at hok
      · exact absurd rfl hok
      · rename_i hlow
        simp [hlow]

/-- What becomes of a standard variable that matches. -/
inductive Reset (s : State) (m : Mallocs) (op : FlashOp) (i : ℕ) (n : CStr) (sp : Stdenv) :
    ℤ × State → Prop where
  | refused : Refused s sp → Reset s m op i n sp (0, s)
  | lost {s' : State} : ¬ Refused s sp → m.value = false →
      s'.envvar = s.envvar.set i none → Reset s m op i n sp (0, s')
  | done {s' : State} {r : ℤ} : ¬ Refused s sp → m.value = true →
      s'.envvar = s.envvar.set i (some (n, some sp.init)) →
      s'.heaptop = (sp.chgfunc.call s.heaptop (some sp.init)).2 →
      s'.nv = (tgtUnsetenv s.nv op sp.name).2 →
      (r = 0 ↔ NothingStored s.nv op sp.name) → Reset s m op i n sp (r, s')

theorem setenv_reset {s : State} (ops : EnvOps) {i : ℕ} {n : CStr} {v : Option CStr}
    {sp : Stdenv} (hd : Distinct s.envvar) (hi : s.envvar.slots.getD i none = some (n, v))
    (hstd : getstdenv n = some sp) :
    Reset s ops.mallocs ops.unsetenv i n sp (setenv s ops sp.name (some sp.init)) := by
  obtain ⟨hsp, hname⟩ := getstdenv_some hstd
  have hself := getstdenv_self hsp
  have hhook := hookOf_self hsp
  have hdef : ToDefault sp.name (some sp.init) := by
    unfold ToDefault
    rw [hself]
    simp
  have hn : striequ sp.name n := striequ_comm.trans hname
  have hlook : s.envvar.lookup sp.name ≠ none := by
    rw [Table.lookup_eq, Ne, look_eq_none_iff, not_not, striequ_iff.mp hn]
    exact List.mem_filterMap.mpr ⟨_, mem_slots_of_getD hi, rfl⟩
  obtain ⟨hfits, hnofit⟩ := enter_at ops.mallocs (some sp.init) hd hi hn
  unfold setenv
  have hr := doSetenv_result s ops sp.name (some sp.init) false
  generalize doSetenv s ops sp.name (some sp.init) false = r at hr ⊢
  cases hr with
  | declined hno =>
    refine .refused ?_
    unfold Refused
    rw [← hhook]
    by_contra hok
    exact hno ⟨by simpa using hok, listed_of_toDefault hdef⟩
  | failed hacc hno =>
    have hvalue : ops.mallocs.value = false := by
      by_contra hok
      exact hno ⟨Or.inl hlook, fun _ => by simpa using hok⟩
    have hent := hnofit fun hok => by simp [hok rfl] at hvalue
    refine .lost (by rw [Refused, ← hhook, hacc.1]; simp) hvalue ?_
    dsimp only
    rw [hent]
  | taken hacc htakes =>
    have hvalue := htakes.2 rfl
    have hent := hfits fun _ => hvalue
    have hzero := tgtUnsetenv_eq_zero s.nv ops.unsetenv sp.name
    simp only [storeSetting, hdef, if_true]
    refine .done (by rw [Refused, ← hhook, hacc.1]; simp) hvalue ?_ ?_ rfl hzero
    · dsimp only
      rw [hent]
    · dsimp only
      rw [hhook]

/-! ## §4 The loop -/

/-- How the loop ends. -/
inductive LoopEnd (s : State) (ops : ℕ → EnvOps) (pat : CStr) (slots : List (Option Var)) : Prop where
  | all : (∀ k, Passes s ops pat k) → slots = s.envvar.slots.map (resetSlot pat) →
      LoopEnd s ops pat slots
  | stopped {k : ℕ} {n : CStr} {v : Option CStr} {sp : Stdenv} : (∀ j < k, Passes s ops pat j) →
      StopsAt s ops pat k n v sp →
      slots = (s.envvar.slots.take k).map (resetSlot pat) ++
        stopSlot s (ops k).mallocs n v sp :: s.envvar.slots.drop (k + 1) →
      LoopEnd s ops pat slots

theorem nvAt_succ {i : ℕ} {n : CStr} {v : Option CStr}
    (hi : s.envvar.slots.getD i none = some (n, v)) (hpat : strpat n pat = true) :
    nvAt s ops pat (i + 1) =
      (tgtUnsetenv (nvAt s ops pat i) (ops i).unsetenv (resetName n)).2 := by
  rw [nvAt, hi]
  simp only [hpat, if_true]

theorem forall_lt_succ {p : ℕ → Prop} {i : ℕ} (h : ∀ j < i, p j) (hi : p i) : ∀ j < i + 1, p j := by
  intro j hj
  rcases Nat.lt_succ_iff_lt_or_eq.mp hj with hlt | rfl
  · exact h j hlt
  · exact hi

/-- **The loop** resets one slot after the other until it stops. -/
theorem unsetenvLoop_end (n i : ℕ) (s' : State) (hend : i + n = s.envvar.slots.length) (hat : LoopAt s ops pat i s')
    (hpass : ∀ j < i, Passes s ops pat j) :
    LoopEnd s ops pat (unsetenvLoop pat ops n i s').envvar.slots := by
  induction n generalizing i s' with
  | zero =>
    refine .all (fun k => ?_) ?_
    · by_cases hk : k < i
      · exact hpass k hk
      · rintro n v sp ⟨hslot, -⟩
        rw [List.getD_eq_default _ _ (by omega)] at hslot
        cases hslot
    · rw [unsetenvLoop, hat.slots, List.take_of_length_le (by omega),
        List.drop_of_length_le (by omega), List.append_nil]
  | succ m ih =>
    have hi : i < s.envvar.slots.length := by omega
    rw [unsetenvLoop, hat.getD]
    rcases hslot : s.envvar.slots.getD i none with _ | ⟨n, v⟩
    · -- a free slot
      refine ih (i + 1) s' (by omega) (hat.skip hi ?_ ?_) (forall_lt_succ hpass ?_)
      · rw [hslot, resetSlot]
      · rw [nvAt, hslot]
      · rintro n v sp ⟨hn, -⟩
        rw [hslot] at hn
        cases hn
    dsimp only
    by_cases hpat : strpat n pat = true
    case neg =>
      -- a variable that does not match
      rw [if_neg hpat]
      refine ih (i + 1) s' (by omega) (hat.skip hi ?_ ?_) (forall_lt_succ hpass ?_)
      · rw [hslot, resetSlot, if_neg hpat]
      · rw [nvAt, hslot]
        simp only [hpat, if_false, Bool.false_eq_true]
      · rintro n' v' sp ⟨hn, hmatch, -⟩
        rw [hslot] at hn
        cases hn
        exact hpat hmatch
    case pos =>
      rw [if_pos hpat]
      have hnv : nvAt s ops pat (i + 1) = _ := nvAt_succ hslot hpat
      have hslot' : s'.envvar.slots.getD i none = some (n, v) := by rw [hat.getD, hslot]
      cases hstd : getstdenv n with
      | none =>
        -- a variable of the user
        have hreset : resetSlot pat (s.envvar.slots.getD i none) = none := by
          rw [hslot, resetSlot, if_pos hpat, hstd, Option.map_none]
        have hname : resetName n = n := by rw [resetName, hstd, Option.elim_none]
        refine ih (i + 1) _ (by omega) ⟨?_, ?_, ?_, hat.hooks⟩ (forall_lt_succ hpass ?_)
        · exact (drop_spec hat.distinct hslot').1
        · rw [← reset_succ hi, hreset]
          exact hat.set hi none
        · rw [hnv, hname, ← hat.nv]
        · rintro n' v' sp ⟨hn, -, hsp, -⟩
          rw [hslot] at hn
          cases hn
          rw [hstd] at hsp
          cases hsp
      | some sp =>
        -- a standard variable
        obtain ⟨hsp, -⟩ := getstdenv_some hstd
        have hname : resetName n = sp.name := by rw [resetName, hstd, Option.elim_some]
        have hreset : resetSlot pat (s.envvar.slots.getD i none) = some (n, some sp.init) := by
          rw [hslot, resetSlot, if_pos hpat, hstd, Option.map_some]
        have hr := setenv_reset (ops i) hat.distinct hslot' hstd
        have hdist : Distinct (setenv s' (ops i) sp.name (some sp.init)).2.envvar :=
          doSetenv_distinct hat.distinct
        dsimp only
        generalize setenv s' (ops i) sp.name (some sp.init) = r at hr hdist ⊢
        cases hr with
        | refused hno =>
          have hno' := (hat.hooks sp hsp).mp hno
          rw [if_pos rfl]
          refine .stopped hpass ⟨hslot, hpat, hstd, Or.inl hno'⟩ ?_
          rw [stopSlot, if_pos hno', ← hslot, List.getD_eq_getElem _ _ hi,
            ← List.drop_eq_getElem_cons hi]
          exact hat.slots
        | lost hok hvalue henv =>
          have hok' := fun h => hok ((hat.hooks sp hsp).mpr h)
          rw [if_pos rfl]
          refine .stopped hpass ⟨hslot, hpat, hstd, Or.inr (Or.inl hvalue)⟩ ?_
          rw [stopSlot, if_neg hok', hvalue, henv]
          exact hat.set hi none
        | @done s'' r hok hvalue henv hheap hnv' hzero =>
          have hok' := fun h => hok ((hat.hooks sp hsp).mpr h)
          rw [hat.nv] at hnv' hzero
          dsimp only
          split
          case isTrue hr =>
            refine .stopped hpass ⟨hslot, hpat, hstd, Or.inr (Or.inr (hzero.mp hr))⟩ ?_
            rw [stopSlot, if_neg hok', hvalue, henv]
            exact hat.set hi _
          case isFalse hr =>
            refine ih (i + 1) s'' (by omega) ⟨hdist, ?_, ?_, ?_⟩ (forall_lt_succ hpass ?_)
            · rw [← reset_succ hi, hreset, henv]
              exact hat.set hi _
            · rw [hnv, hname, hnv']
            · intro sp' hsp'
              exact (refused_of_accepted hsp hsp' hok hheap).trans (hat.hooks sp' hsp')
            · rintro n' v' sp' ⟨hn, -, hstd', hwhy⟩
              rw [hslot] at hn
              cases hn
              rw [hstd] at hstd'
              cases hstd'
              rcases hwhy with hno | hmalloc | hnothing
              · exact hok' hno
              · simp [hvalue] at hmalloc
              · exact hr (hzero.mpr hnothing)

/-- **The whole of `unsetenv`.** -/
theorem unsetenv_result (hd : Distinct s.envvar) :
    LoopEnd s ops pat (unsetenv s ops pat).envvar.slots := by
  apply unsetenvLoop_end nvar 0 s
  · rw [Nat.zero_add, s.envvar.length_eq]
  · exact loopAt_zero hd
  · exact fun j hj => absurd hj (Nat.not_lt_zero j)

/-! ## §5 When everything is reset -/

/-- The condition: where the loop stops first, that variable has its default after all, and there is
    nothing left to do behind it. -/
def StopsLate (s : State) (ops : ℕ → EnvOps) (pat : CStr) : Prop :=
  ∀ k n v sp, (∀ j < k, Passes s ops pat j) → StopsAt s ops pat k n v sp →
    (if Refused s sp then v = some sp.init else (ops k).mallocs.value = true) ∧
      ∀ j > k, ∀ n' v', s.envvar.slots.getD j none = some (n', v') → strpat n' pat = true →
        ∃ sp', getstdenv n' = some sp' ∧ v' = some sp'.init

theorem stopSlot_eq {m : Mallocs} {n : CStr} {v : Option CStr} {sp : Stdenv} :
    stopSlot s m n v sp = some (n, some sp.init) ↔
      if Refused s sp then v = some sp.init else m.value = true := by
  unfold stopSlot
  by_cases hno : Refused s sp
  · simp [hno]
  · cases hvalue : m.value <;> simp [hno]

theorem resetSlot_eq_self {n : CStr} {v : Option CStr} :
    resetSlot pat (some (n, v)) = some (n, v) ↔
      (strpat n pat = true → ∃ sp, getstdenv n = some sp ∧ v = some sp.init) := by
  by_cases hpat : strpat n pat = true
  case neg => simp [resetSlot, hpat]
  case pos =>
    rw [resetSlot, if_pos hpat]
    rcases getstdenv n with _ | sp
    · simp [hpat]
    · simp only [Option.map_some, Option.some.injEq, Prod.mk.injEq, true_and, hpat, true_imp_iff,
        exists_eq_left']
      exact eq_comm

theorem drop_resetSlot {slots : List (Option Var)} {k : ℕ} :
    (slots.drop k).map (resetSlot pat) = slots.drop k ↔
      ∀ j ≥ k, ∀ n v, slots.getD j none = some (n, v) → strpat n pat = true →
        ∃ sp, getstdenv n = some sp ∧ v = some sp.init := by
  constructor
  · intro h j hj n v hslot
    refine resetSlot_eq_self.mp ?_
    have hget := congrArg (fun l => l[j - k]?) h
    have hj' : slots[j]? = some (some (n, v)) := by
      rw [List.getD_eq_getElem?_getD] at hslot
      rcases hget : slots[j]? with _ | slot
      · rw [hget] at hslot
        cases hslot
      · rw [hget, Option.getD_some] at hslot
        rw [hslot]
    simpa only [List.getElem?_map, List.getElem?_drop, Nat.add_sub_cancel' hj, hj', Option.map_some,
      Option.some.injEq] using hget
  · intro h
    apply List.ext_getElem?
    intro m
    rw [List.getElem?_map, List.getElem?_drop]
    rcases hm : slots[k + m]? with _ | _ | ⟨n, v⟩
    · rfl
    · rfl
    · have hslot : slots.getD (k + m) none = some (n, v) := by
        rw [List.getD_eq_getElem?_getD, hm, Option.getD_some]
      rw [Option.map_some, resetSlot_eq_self.mpr (h (k + m) (Nat.le_add_right k m) n v hslot)]

/-- What the loop leaves when it stops is what is asked for if the stop comes late. -/
theorem stopped_eq_iff {k : ℕ} {n : CStr} {v : Option CStr} {sp : Stdenv}
    (hstop : StopsAt s ops pat k n v sp) :
    (s.envvar.slots.take k).map (resetSlot pat) ++
        stopSlot s (ops k).mallocs n v sp :: s.envvar.slots.drop (k + 1) =
      s.envvar.slots.map (resetSlot pat) ↔
    (if Refused s sp then v = some sp.init else (ops k).mallocs.value = true) ∧
      ∀ j > k, ∀ n' v', s.envvar.slots.getD j none = some (n', v') → strpat n' pat = true →
        ∃ sp', getstdenv n' = some sp' ∧ v' = some sp'.init := by
  obtain ⟨hslot, hpat, hstd, -⟩ := hstop
  have hk : k < s.envvar.slots.length := by
    by_contra hk
    rw [List.getD_eq_default _ _ (Nat.not_lt.mp hk)] at hslot
    cases hslot
  have hreset : resetSlot pat (s.envvar.slots.getD k none) = some (n, some sp.init) := by
    rw [hslot, resetSlot, if_pos hpat, hstd, Option.map_some]
  have hsplit : s.envvar.slots.map (resetSlot pat) =
      (s.envvar.slots.take k).map (resetSlot pat) ++
        some (n, some sp.init) :: (s.envvar.slots.drop (k + 1)).map (resetSlot pat) := by
    rw [← hreset, List.getD_eq_getElem _ _ hk, ← List.map_cons, ← List.drop_eq_getElem_cons hk,
      ← List.map_append, List.take_append_drop]
  rw [hsplit, List.append_cancel_left_eq, List.cons.injEq, stopSlot_eq,
    eq_comm (a := s.envvar.slots.drop (k + 1)), drop_resetSlot]
  rfl

/-- **`unsetenv`** on whatever a run from power-on has left: every standard variable that matches
    is back at its default, every other variable that matches is gone and the rest is as before, if
    and only if the loop stops nowhere too early. -/
theorem unsetenv_exact (flash : Mem) (cmds : List EnvOp) (s : State)
    (hrun : Run EnvStep (powerOn flash) cmds s) (ops : ℕ → EnvOps) (pat : CStr) :
    (unsetenv s ops pat).envvar.slots = s.envvar.slots.map (resetSlot pat) ↔
      StopsLate s ops pat := by
  have hres : LoopEnd s ops pat (unsetenv s ops pat).envvar.slots :=
    unsetenv_result (run_distinct hrun)
  unfold StopsLate
  cases hres with
  | all hpass hslots =>
    refine iff_of_true hslots ?_
    rintro k n v sp - hstop
    exact absurd hstop (hpass k n v sp)
  | @stopped k n v sp hpass hstop hslots =>
    rw [hslots, stopped_eq_iff hstop]
    refine ⟨?_, fun h => h k n v sp hpass hstop⟩
    rintro h k' n' v' sp' hpass' hstop'
    -- the loop stops for the first time in one slot only
    rcases Nat.lt_trichotomy k k' with hlt | rfl | hgt
    · exact absurd hstop (hpass' k hlt n v sp)
    · have hsame := hstop.1.symm.trans hstop'.1
      have hstd := hstop.2.2.1
      cases hsame
      rw [hstop'.2.2.1] at hstd
      cases hstd
      exact h
    · exact absurd hstop' (hpass k' hgt n' v' sp')

/-! ## §6 Two settings for one session -/

theorem accepts_listed {name : CStr} {value : Option CStr} {sp : Stdenv}
    (hstd : getstdenv name = some sp) (hvalues : sp.values.any fun vs => (matchval vs value).isSome) :
    Accepts s name value := by
  have hsome : sp.values ≠ none := fun hnone => by simp [hnone] at hvalues
  refine ⟨?_, Or.inl ?_⟩
  · rw [hookOf_of_values hstd hsome]
    rfl
  · rw [hstd, Option.bind_some]
    cases hvs : sp.values with
    | none => rfl
    | some vs => simpa [hvs, ← Option.not_isSome] using hvalues

/-- A standard variable with a list of values takes one of them for the session. -/
theorem doSetenv_temp {name : CStr} {value : Option CStr} {sp : Stdenv} (hd : Distinct s.envvar)
    (hstd : getstdenv name = some sp) (hvalues : sp.values.any fun vs => (matchval vs value).isSome)
    (hdef : ¬ ToDefault name value) (hlook : s.envvar.lookup name ≠ none) :
    Entered s.envvar (doSetenv s goodEnvOps name value true).2.envvar name value ∧
      (doSetenv s goodEnvOps name value true).2.nv = s.nv := by
  have hacc : Accepts s name value := accepts_listed hstd hvalues
  have htakes : Takes s.envvar goodEnvOps.mallocs name value := ⟨Or.inl hlook, fun _ => rfl⟩
  refine ⟨doSetenv_taken goodEnvOps true hacc hd ⟨rfl, rfl⟩ (enter_fst.mpr htakes), ?_⟩
  have hr := doSetenv_result s goodEnvOps name value true
  generalize doSetenv s goodEnvOps name value true = r at hr ⊢
  cases hr with
  | declined hno => exact absurd hacc hno
  | failed _ hno => exact absurd htakes hno
  | taken _ _ =>
    simp only [storeSetting, hdef, if_false, if_true]

/-- Where nothing is stored nothing is removed. -/
theorem nvAt_of_empty (hnone : ∀ op name, s.nv.invalid ≠ 0 ∨ ¬ Stored s.nv op name) (k : ℕ) :
    nvAt s ops pat k = s.nv := by
  induction k with
  | zero => rfl
  | succ k ih =>
    rw [nvAt]
    rcases s.envvar.slots.getD k none with _ | ⟨n, v⟩
    · exact ih
    · have hsame := tgtUnsetenv_flash ((hnone (ops k).unsetenv (resetName n)).imp_right Or.inr)
      dsimp only
      rw [ih, hsame, ite_self]

theorem not_stored_of_empty {nv : NvState} (h : Held nv []) (op : FlashOp) (name : CStr) :
    nv.invalid ≠ 0 ∨ ¬ Stored nv op name := by
  cases h with
  | invalid hinv _ => exact Or.inl hinv
  | valid h =>
    have hend : op.load nv.flash 2 = 0 := by
      rw [op.load_apply nv.flash (by decide)]
      exact h.holds.1
    refine Or.inr ?_
    simp [Stored, findEntry, hend]

theorem strposn_last {d : UInt8} {n : CStr} (hn : d ∉ n) : strposn (n ++ [d]) [d] = some [d] := by
  induction n with
  | nil => simp [strposn]
  | cons c cs ih =>
    rw [List.mem_cons, not_or] at hn
    simpa [strposn, hn.1] using ih hn.2

/-- A star matches every name that the anchor is not part of. -/
theorem strpat_star {n : CStr} (hn : 0xa4 ∉ n) : strpat n (ascii "*") = true := by
  have hlast := strposn_last hn
  have hpat : (0xde :: ascii "*" ++ [0xa4] : CStr) = [0xde, 42, 0xa4] := by decide
  rw [strpat, hpat]
  cases n with
  | nil => decide
  | cons c cs =>
    simp only [List.cons_append] at hlast ⊢
    simp [strpatLoop, hlast]

theorem exists_slot {t : Table} {name : CStr} {v : Option CStr} (h : t.lookup name = some v) :
    ∃ j n, t.slots.getD j none = some (n, v) ∧ striequ n name := by
  rw [Table.lookup_eq] at h
  obtain ⟨slot, hmem, hslot⟩ := List.exists_of_findSome?_eq_some h
  rcases slot with _ | ⟨n, w⟩
  · cases hslot
  · simp only [Option.bind_some] at hslot
    split at hslot
    case isFalse => cases hslot
    case isTrue hn =>
      cases hslot
      obtain ⟨j, hj, hget⟩ := List.getElem_of_mem hmem
      refine ⟨j, n, ?_, striequ_comm.trans hn⟩
      rw [List.getD_eq_getElem _ _ hj, hget]

/-- Boot from an empty sector, and set two variables for the session. -/
def twoSet : List EnvOp :=
  [.boot someBoard (fun _ => ⟨true, true⟩) fun _ => goodEnvOps,
    .set (ascii "inbase") (some (ascii "10")) true goodEnvOps,
    .set (ascii "dlecho") (some (ascii "on")) true goodEnvOps]

theorem unsetenv_exact_two :
    ∃ s, Run EnvStep (powerOn (imageOf [])) twoSet s ∧
      ((unsetenv s (fun _ => goodEnvOps) (ascii "dlecho")).envvar.slots =
        s.envvar.slots.map (resetSlot (ascii "dlecho")) ↔
          StopsLate s (fun _ => goodEnvOps) (ascii "dlecho")) := by
  have hrun : Run EnvStep (powerOn (imageOf [])) twoSet _ := .cons rfl (.cons rfl (.cons rfl (.nil _)))
  exact ⟨_, hrun, unsetenv_exact (imageOf []) twoSet _ hrun (fun _ => goodEnvOps) (ascii "dlecho")⟩

/-- Where nothing is stored, the loop stops at every standard variable that matches. -/
theorem stopsAt_of_empty {name : CStr} {v : Option CStr} {sp : Stdenv} (ops : ℕ → EnvOps)
    (op : FlashOp) (hfault : op.fault = .none) (hops : ∀ k, (ops k).unsetenv = op)
    (hnone : ∀ op name, s.nv.invalid ≠ 0 ∨ ¬ Stored s.nv op name)
    (hlook : s.envvar.lookup name = some v) (hstd : getstdenv name = some sp)
    (hpat : ∀ n, striequ n name → strpat n pat = true) :
    ∃ k n, StopsAt s ops pat k n v sp := by
  obtain ⟨k, n, hslot, hn⟩ := exists_slot hlook
  refine ⟨k, n, hslot, hpat n hn, ?_, Or.inr (Or.inr ?_)⟩
  · rw [getstdenv_congr hn, hstd]
  · rw [nvAt_of_empty hnone, hops]
    refine (hnone op sp.name).imp_right fun hno => ⟨?_, hno⟩
    simp [hfault]

theorem not_anchor {n : CStr} {name : CStr} (hn : striequ n name) (h : 0xa4 ∉ name.map toupper) :
    0xa4 ∉ n := by
  intro hmem
  have hup : toupper 0xa4 ∈ n.map toupper := List.mem_map_of_mem hmem
  rw [striequ_iff.mp hn] at hup
  exact h hup

/-- After `set -t inbase 10` and `set -t dlecho on` all flash operations and allocations of `unset *`
    succeed, but a variable that matches is not reset. -/
theorem unsetenv_stops :
    ∃ s, Run EnvStep (powerOn (imageOf [])) twoSet s ∧
      (unsetenv s (fun _ => goodEnvOps) (ascii "*")).envvar.slots ≠
        s.envvar.slots.map (resetSlot (ascii "*")) := by
  have h := goodBoot_empty
  obtain ⟨sp₁, hstd₁, hvalues₁, hinit₁⟩ : ∃ sp, getstdenv (ascii "inbase") = some sp ∧
      (sp.values.any fun vs => (matchval vs (some (ascii "10"))).isSome) = true ∧
      sp.init = ascii "16" := by decide
  obtain ⟨sp₂, hstd₂, hvalues₂, hinit₂⟩ : ∃ sp, getstdenv (ascii "dlecho") = some sp ∧
      (sp.values.any fun vs => (matchval vs (some (ascii "on"))).isSome) = true ∧
      sp.init = ascii "off" := by decide
  -- the two settings
  have hlook₁ : (goodBoot (imageOf [])).envvar.lookup (ascii "inbase") ≠ none := by
    rw [h.view _ (by decide)]
    decide
  obtain ⟨hent₁, hnv₁⟩ := doSetenv_temp h.distinct hstd₁ hvalues₁ (by decide) hlook₁
  have hrun₁ : EnvStep (goodBoot (imageOf []))
    (.set (ascii "inbase") (some (ascii "10")) true goodEnvOps)
    (doSetenv (goodBoot (imageOf [])) goodEnvOps (ascii "inbase") (some (ascii "10")) true).2 := rfl
  have hrun₀ : EnvStep (powerOn (imageOf []))
    (.boot someBoard (fun _ => ⟨true, true⟩) fun _ => goodEnvOps) (goodBoot (imageOf [])) := rfl
  generalize goodBoot (imageOf []) = s₀ at h hlook₁ hent₁ hnv₁ hrun₁ hrun₀
  generalize (doSetenv s₀ goodEnvOps (ascii "inbase") (some (ascii "10")) true).2 = s₁
    at hent₁ hnv₁ hrun₁
  have hlook₂ : s₁.envvar.lookup (ascii "dlecho") ≠ none := by
    rw [hent₁.lookup, if_neg (by decide), h.view _ (by decide)]
    decide
  obtain ⟨hent₂, hnv₂⟩ := doSetenv_temp hent₁.distinct hstd₂ hvalues₂ (by decide) hlook₂
  have hrun₂ : EnvStep s₁ (.set (ascii "dlecho") (some (ascii "on")) true goodEnvOps)
    (doSetenv s₁ goodEnvOps (ascii "dlecho") (some (ascii "on")) true).2 := rfl
  generalize (doSetenv s₁ goodEnvOps (ascii "dlecho") (some (ascii "on")) true).2 = s₂
    at hent₂ hnv₂ hrun₂
  have hrun : Run EnvStep (powerOn (imageOf [])) twoSet s₂ :=
    .cons hrun₀ (.cons hrun₁ (.cons hrun₂ (.nil _)))
  refine ⟨s₂, hrun, fun hall => ?_⟩
  have hnone : ∀ op name, s₂.nv.invalid ≠ 0 ∨ ¬ Stored s₂.nv op name := by
    rw [hnv₂, hnv₁]
    exact not_stored_of_empty h.held
  have hin₁ : s₂.envvar.lookup (ascii "inbase") = some (some (ascii "10")) := by
    rw [hent₂.lookup, if_neg (by decide), hent₁.lookup, if_pos (by decide)]
  have hin₂ : s₂.envvar.lookup (ascii "dlecho") = some (some (ascii "on")) := by
    rw [hent₂.lookup, if_pos (by decide)]
  -- the loop would stop at either variable, and the one behind is not looked at
  obtain ⟨k₁, n₁, hstop₁⟩ := stopsAt_of_empty (fun _ => goodEnvOps) goodOp rfl (fun _ => rfl)
    hnone hin₁ hstd₁ fun n hn => strpat_star (not_anchor hn (by decide))
  obtain ⟨k₂, n₂, hstop₂⟩ := stopsAt_of_empty (fun _ => goodEnvOps) goodOp rfl (fun _ => rfl)
    hnone hin₂ hstd₂ fun n hn => strpat_star (not_anchor hn (by decide))
  have hne : k₁ ≠ k₂ := by
    rintro rfl
    have hsame := hstop₁.1.symm.trans hstop₂.1
    rw [Option.some.injEq, Prod.mk.injEq] at hsame
    exact absurd hsame.2 (by decide)
  have hres : LoopEnd s₂ (fun _ => goodEnvOps) (ascii "*") _ := unsetenv_result hent₂.distinct
  cases hres with
  | all hpass _ => exact hpass k₁ n₁ _ sp₁ hstop₁
  | @stopped k n v sp hpass hstop hslots =>
    rw [hslots, stopped_eq_iff hstop] at hall
    have hle₁ : k ≤ k₁ := Nat.le_of_not_lt fun hlt => hpass k₁ hlt n₁ _ sp₁ hstop₁
    have hle₂ : k ≤ k₂ := Nat.le_of_not_lt fun hlt => hpass k₂ hlt n₂ _ sp₂ hstop₂
    by_cases hk : k < k₁
    · obtain ⟨sp', hstd', hv⟩ := hall.2 k₁ hk _ _ hstop₁.1 hstop₁.2.1
      rw [hstop₁.2.2.1] at hstd'
      cases hstd'
      rw [hinit₁] at hv
      exact absurd hv (by decide)
    · obtain ⟨sp', hstd', hv⟩ := hall.2 k₂ (by omega) _ _ hstop₂.1 hstop₂.2.1
      rw [hstop₂.2.2.1] at hstd'
      cases hstd'
      rw [hinit₂] at hv
      exact absurd hv (by decide)

end Pmon.Env
