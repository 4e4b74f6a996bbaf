import Mathlib.Data.List.Nodup
import Pmon.Env.Table
import Pmon.Nvram.Store

/-!
# What power-on makes of the stored entries

`EnvMap` is the environment as it is meant: a map from names, up to case, to values, together
with the heap top that one of the change functions keeps.  `EnvMap.report` is one report of
`tgt_mapenv` to `_setenv`, `visible es` is the environment that power-on should make of the
stored entries `es`, and `boot_shows` says that `envinit` makes it, as long as all names fit
into the table.
-/

namespace Pmon.Env

open Pmon.Lib Pmon.Libc Pmon.Nvram

variable {x y name : CStr} {value : Option CStr} {es : List CStr} {rep : Report}
  {reps : List Report}

/-! ## §1 Standard variables -/

theorem getstdenv_congr (h : striequ x y) : getstdenv x = getstdenv y := by
  unfold getstdenv
  congr 1
  funext sp
  rw [striequ_congr_left h]

theorem getstdenv_some {sp : Stdenv} (h : getstdenv x = some sp) :
    sp ∈ stdenvtab ∧ striequ x sp.name :=
  ⟨List.mem_of_find?_eq_some h, List.find?_some (p := fun sp : Stdenv => striequ x sp.name) h⟩

set_option maxRecDepth 4000 in
/-- The names of the table are different up to case. -/
theorem stdenvtab_nodup : (stdenvtab.map fun sp => sp.name.map toupper).Nodup := by
  decide

/-- Each standard variable is found under its own name. -/
theorem getstdenv_self {sp : Stdenv} (h : sp ∈ stdenvtab) : getstdenv sp.name = some sp := by
  have hsome : (getstdenv sp.name).isSome :=
    List.find?_isSome.mpr ⟨sp, h, striequ_refl sp.name⟩
  obtain ⟨sp', hsp'⟩ := Option.isSome_iff_exists.mp hsome
  obtain ⟨hmem, heq⟩ := getstdenv_some hsp'
  rw [hsp', List.inj_on_of_nodup_map stdenvtab_nodup hmem h (striequ_iff.mp heq).symm]

/-- Every initial value is among the words allowed for its variable. -/
theorem init_matches : ∀ sp ∈ stdenvtab, sp.values.all
    fun vs => (matchval vs (some sp.init)).isSome := by
  decide

/-- The change function of a name. -/
def hookOf (name : CStr) : Chgfunc := (getstdenv name).elim .null (·.chgfunc)

theorem hookOf_congr (h : striequ x y) : hookOf x = hookOf y := by
  rw [hookOf, hookOf, getstdenv_congr h]

/-- Only `heaptop` changes the heap top. -/
theorem heaptop_of_hookOf (h : hookOf x = .chgHeaptop) : striequ x (ascii "heaptop") := by
  rw [hookOf] at h
  rcases hsp : getstdenv x with _ | sp
  · rw [hsp] at h
    cases h
  · rw [hsp] at h
    obtain ⟨hmem, heq⟩ := getstdenv_some hsp
    have hname : ∀ sp ∈ stdenvtab, sp.chgfunc = .chgHeaptop → sp.name = ascii "heaptop" := by
      decide
    rwa [hname sp hmem h] at heq

theorem call_of_false {f : Chgfunc} {h : ℕ} (hf : (f.call h value).1 = false) :
    (f.call h value).2 = h := by
  unfold Chgfunc.call at hf ⊢
  split <;> try rfl
  · split <;> rfl
  · split
    · split
      · rfl
      · simp_all
    · rfl

theorem call_heaptop {f : Chgfunc} {h : ℕ} (hf : f ≠ .chgHeaptop) : (f.call h value).2 = h := by
  cases f with
  | null => rfl
  | mtdRescan => rfl
  | chgMoresz => simp only [Chgfunc.call]; split <;> rfl
  | chgHeaptop => exact absurd rfl hf

/-- The other change functions look at the value only. -/
theorem call_indep {f : Chgfunc} (h h' : ℕ) (hf : f ≠ .chgHeaptop) :
    (f.call h value).1 = (f.call h' value).1 := by
  cases f with
  | null => rfl
  | mtdRescan => rfl
  | chgMoresz => simp only [Chgfunc.call]; split <;> rfl
  | chgHeaptop => exact absurd rfl hf

/-- The heap top never goes down. -/
theorem call_le {f : Chgfunc} {h : ℕ} : h ≤ (f.call h value).2 := by
  by_cases hf : f = .chgHeaptop
  · subst hf
    simp only [Chgfunc.call]
    split
    · split
      · exact Nat.le_refl _
      · exact Nat.not_lt.mp ‹_›
    · exact Nat.le_refl _
  · rw [call_heaptop hf]

/-! ## §2 The environment as a map -/

/-- Names, up to case, with their values, and the heap top. -/
structure EnvMap where
  view : CStr → Option (Option CStr)
  heaptop : ℕ

/-- Nothing set. -/
def EnvMap.empty : EnvMap := ⟨fun _ => none, initHeaptop⟩

/-- One report: the value replaces the one there was, unless the change function objects. -/
def EnvMap.report (E : EnvMap) (rep : Report) : EnvMap :=
  let (ok, heaptop) := (hookOf rep.1).call E.heaptop rep.2
  if ok then { view := fun x => if striequ x rep.1 then some rep.2 else E.view x, heaptop }
  else E

variable {E E' : EnvMap}

theorem report_ok (h : ((hookOf rep.1).call E.heaptop rep.2).1 = true) (x : CStr) :
    (E.report rep).view x = if striequ x rep.1 then some rep.2 else E.view x := by
  simp only [EnvMap.report, h, if_true]

theorem report_rejected (h : ((hookOf rep.1).call E.heaptop rep.2).1 = false) :
    E.report rep = E := by
  simp only [EnvMap.report, h, Bool.false_eq_true, if_false]

theorem report_heaptop : (E.report rep).heaptop = ((hookOf rep.1).call E.heaptop rep.2).2 := by
  rcases h : ((hookOf rep.1).call E.heaptop rep.2).1
  · rw [report_rejected h, call_of_false h]
  · simp only [EnvMap.report, h, if_true]

theorem report_view_of_not (h : striequ x rep.1 = false) : (E.report rep).view x = E.view x := by
  rcases hok : ((hookOf rep.1).call E.heaptop rep.2).1
  · rw [report_rejected hok]
  · rw [report_ok hok, h]
    rfl

/-- What is set stays set. -/
theorem report_view_ne_none (h : E.view x ≠ none) : (E.report rep).view x ≠ none := by
  rcases hok : ((hookOf rep.1).call E.heaptop rep.2).1
  · rwa [report_rejected hok]
  · rw [report_ok hok]
    split
    · simp
    · exact h

theorem foldl_view_ne_none (h : E.view x ≠ none) : (reps.foldl EnvMap.report E).view x ≠ none := by
  induction reps generalizing E with
  | nil => exact h
  | cons rep reps ih => exact ih (report_view_ne_none h)

theorem foldl_heaptop_le : E.heaptop ≤ (reps.foldl EnvMap.report E).heaptop := by
  induction reps generalizing E with
  | nil => exact Nat.le_refl _
  | cons rep reps ih =>
    refine Nat.le_trans ?_ ih
    rw [report_heaptop]
    exact call_le

/-- Two environments that a report on `x` cannot tell apart. -/
def EnvMap.Agree (x : CStr) (E E' : EnvMap) : Prop :=
  E.view x = E'.view x ∧ (hookOf x = .chgHeaptop → E.heaptop = E'.heaptop)

theorem report_agree (h : striequ rep.1 x) (ha : E.Agree x E') :
    (E.report rep).Agree x (E'.report rep) := by
  have hhook : hookOf rep.1 = hookOf x := hookOf_congr h
  have hcall : ((hookOf rep.1).call E.heaptop rep.2).1 = ((hookOf rep.1).call E'.heaptop rep.2).1 := by
    by_cases hx : hookOf x = .chgHeaptop
    · rw [ha.2 hx]
    · exact call_indep _ _ (hhook ▸ hx)
  refine ⟨?_, fun hx => by rw [report_heaptop, report_heaptop, ha.2 hx]⟩
  rcases hok : ((hookOf rep.1).call E.heaptop rep.2).1
  · rw [report_rejected hok, report_rejected (hcall ▸ hok), ha.1]
  · rw [report_ok hok, report_ok (hcall ▸ hok), ha.1]

theorem report_agree_self (h : ¬striequ rep.1 x) : (E.report rep).Agree x E := by
  refine ⟨report_view_of_not (by rw [striequ_comm]; simpa using h), fun hx => ?_⟩
  rw [report_heaptop, call_heaptop]
  -- two variables with this change function would be the same
  intro hrep
  exact h (striequ_trans (heaptop_of_hookOf hrep) (striequ_comm.trans (heaptop_of_hookOf hx)))

/-- **Only its own reports matter** to a variable. -/
theorem foldl_agree_filter (x : CStr) (reps : List Report) (ha : E.Agree x E') :
    (reps.foldl EnvMap.report E).Agree x
      ((reps.filter fun rep => striequ rep.1 x).foldl EnvMap.report E') := by
  induction reps generalizing E E' with
  | nil => exact ha
  | cons rep reps ih =>
    by_cases h : striequ rep.1 x
    · rw [List.filter_cons_of_pos (p := fun rep : Report => striequ rep.1 x) h]
      exact ih (report_agree h ha)
    · rw [List.filter_cons_of_neg (p := fun rep : Report => striequ rep.1 x) h]
      have hself := report_agree_self (E := E) h
      exact ih ⟨hself.1.trans ha.1, fun hx => (hself.2 hx).trans (ha.2 hx)⟩

theorem EnvMap.agree_refl (x : CStr) (E : EnvMap) : E.Agree x E := ⟨rfl, fun _ => rfl⟩

/-! ## §3 The environment of the stored entries -/

/-- The names that `tgt_mapenv` reports after the stored entries. -/
def fixedNames : List CStr :=
  [ascii "activecom", ascii "em_enable", ascii "ethaddr", ascii "ethaddr1", ascii "ls2kver",
    ascii "memsize", ascii "highmemsize", ascii "cpuclock", ascii "busclock", ascii "systype"]

/-- A name that the board reports itself, up to case. -/
def Fixed (x : CStr) : Prop := ∃ f ∈ fixedNames, striequ x f

instance (x : CStr) : Decidable (Fixed x) := inferInstanceAs (Decidable (∃ f ∈ fixedNames, _))

/-- What the reports of the stored entries make of the empty environment. -/
def storedEnv (es : List CStr) : EnvMap := (es.map entryReport).foldl EnvMap.report .empty

/-- The default of a standard variable.  The one of `heaptop` is below the heap top at
    power-on and always refused. -/
def defaultOf (x : CStr) : Option (Option CStr) :=
  match getstdenv x with
  | some sp => if sp.chgfunc = .chgHeaptop then none else some (some sp.init)
  | none => none

/-- **What power-on should make of the stored entries.** -/
def visible (es : List CStr) (x : CStr) : Option (Option CStr) :=
  ((storedEnv es).view x).or (defaultOf x)

theorem fixed_congr (h : striequ x y) : Fixed x ↔ Fixed y := by
  simp only [Fixed, striequ_congr_left h]

theorem defaultOf_congr (h : striequ x y) : defaultOf x = defaultOf y := by
  rw [defaultOf, defaultOf, getstdenv_congr h]

/-- The entries of a variable, under any spelling. -/
def ofClass (x : CStr) (es : List CStr) : List CStr := es.filter fun e => striequ (entryName e) x

theorem storedEnv_agree_ofClass (x : CStr) (es : List CStr) :
    (storedEnv es).Agree x (storedEnv (ofClass x es)) := by
  have h := foldl_agree_filter x (es.map entryReport) (EnvMap.agree_refl x .empty)
  rwa [List.filter_map] at h

/-- Variables whose entries are the same have the same value. -/
theorem visible_eq_of_ofClass {es' : List CStr} (h : ofClass x es = ofClass x es') :
    visible es x = visible es' x := by
  rw [visible, visible, (storedEnv_agree_ofClass x es).1, h, (storedEnv_agree_ofClass x es').1]

/-- Without entries the default shows. -/
theorem visible_of_ofClass_nil (h : ofClass x es = []) : visible es x = defaultOf x := by
  rw [visible, (storedEnv_agree_ofClass x es).1, h]
  rfl

/-- A variable other than `heaptop` stays unset only if all its reports are refused. -/
theorem foldl_view_eq_none (hx : hookOf x ≠ .chgHeaptop) :
    (reps.foldl EnvMap.report E).view x = none ↔ E.view x = none ∧
      ∀ rep ∈ reps, striequ rep.1 x → ((hookOf x).call 0 rep.2).1 = false := by
  induction reps generalizing E with
  | nil => simp
  | cons rep reps ih =>
    rw [List.foldl_cons, ih, List.forall_mem_cons]
    by_cases h : striequ rep.1 x
    · have hhook : hookOf rep.1 = hookOf x := hookOf_congr h
      have hcall : ((hookOf x).call 0 rep.2).1 = ((hookOf rep.1).call E.heaptop rep.2).1 := by
        rw [hhook]
        exact call_indep _ _ hx
      rw [hcall]
      rcases hok : ((hookOf rep.1).call E.heaptop rep.2).1
      · simp [report_rejected hok]
      · have hx : striequ x rep.1 = true := striequ_comm.trans h
        simp [report_ok hok, hx, h]
    · rw [report_view_of_not (by rw [striequ_comm]; simpa using h)]
      simp [h]

theorem storedEnv_none_of_subset {es' : List CStr} (hx : hookOf x ≠ .chgHeaptop)
    (h : (storedEnv es).view x = none) (hsub : es' ⊆ es) : (storedEnv es').view x = none := by
  rw [storedEnv, foldl_view_eq_none hx] at h ⊢
  exact ⟨h.1, fun rep hrep => h.2 rep (List.map_subset _ hsub hrep)⟩

theorem ofClass_unlist_of_not (h : ¬striequ name x) : ofClass x (unlist name es) = ofClass x es := by
  induction es with
  | nil => rfl
  | cons e es ih =>
    rw [unlist]
    by_cases hname : entryName e = name
    · rw [if_pos hname, ofClass, ofClass,
        List.filter_cons_of_neg (p := fun e => striequ (entryName e) x) (by rw [hname]; exact h)]
    · rw [if_neg hname]
      split
      · rfl
      · rw [ofClass, ofClass, List.filter_cons, List.filter_cons]
        rw [ofClass, ofClass] at ih
        rw [ih]

/-- Removing an entry shows only under its own name. -/
theorem visible_unlist_of_not (h : ¬striequ name x) : visible (unlist name es) x = visible es x :=
  visible_eq_of_ofClass (ofClass_unlist_of_not h)

/-! ## §4 The reports of power-on -/

/-- The table shows the environment. -/
structure Shows (s : State) (E : EnvMap) : Prop where
  distinct : Distinct s.envvar
  lookup : ∀ x, s.envvar.lookup x = E.view x
  heaptop : s.heaptop = E.heaptop
  no_nul : ∀ n v, some (n, v) ∈ s.envvar.slots → (0 : UInt8) ∉ n

/-- Both allocations succeed. -/
def Mallocs.Succeed (m : Mallocs) : Prop := m.name ∧ m.value

theorem exists_of_mem_keys {k : CStr} {slots : List (Option Var)} (h : k ∈ keys slots) :
    ∃ n, k = n.map toupper ∧ look slots n ≠ none := by
  obtain ⟨slot, hmem, hslot⟩ := List.mem_filterMap.mp h
  obtain ⟨⟨n, v⟩, rfl, rfl⟩ := Option.map_eq_some_iff.mp hslot
  exact ⟨n, rfl, fun hnone => look_eq_none_iff.mp hnone h⟩

/-- `_setenv` while the table is being built. -/
theorem setenvTable_report {s : State} {m : Mallocs} {C : List CStr} (h : Shows s E)
    (hinit : s.envinited = false) (hm : m.Succeed) (hz : (0 : UInt8) ∉ rep.1)
    (hC : ∀ x, (E.report rep).view x ≠ none → x.map toupper ∈ C) (hlen : C.length ≤ nvar) :
    Shows (setenvTable s m rep.1 rep.2).2 (E.report rep) ∧
      (setenvTable s m rep.1 rep.2).2.envinited = false ∧
      (setenvTable s m rep.1 rep.2).2.nv = s.nv := by
  have hcall : (hookOf rep.1).call s.heaptop rep.2 = (hookOf rep.1).call E.heaptop rep.2 := by
    rw [h.heaptop]
  rw [setenvTable, ← hookOf.eq_1, hcall]
  rcases hok : ((hookOf rep.1).call E.heaptop rep.2).1
  · -- refused by the change function
    have hheap := call_of_false hok
    rw [report_rejected hok]
    simp only [hok, Bool.not_false, if_true]
    exact ⟨⟨h.distinct, h.lookup, hheap, h.no_nul⟩, hinit, trivial⟩
  · have henter : (s.envvar.enter m rep.1 rep.2).1 = true := by
      refine enter_room h.distinct hm (fun k hk => ?_) (hC rep.1 ?_) hlen
      · obtain ⟨n, rfl, hn⟩ := exists_of_mem_keys hk
        exact hC n (report_view_ne_none (by rwa [← h.lookup]))
      · rw [report_ok hok, striequ_refl]
        simp
    have hent := enter_spec h.distinct hm henter
    simp only [hok, Bool.not_true, Bool.false_eq_true, if_false, hinit, Bool.and_false, henter]
    refine ⟨⟨hent.distinct, fun x => ?_, ?_, fun n v hmem => ?_⟩, trivial, trivial⟩
    · rw [report_ok hok, hent.lookup, h.lookup]
    · rw [report_heaptop]
    · rcases hent.names n v hmem with rfl | ⟨w, hw⟩
      · exact hz
      · exact h.no_nul n w hw

/-- **All reports of power-on**, when the names fit into the table. -/
theorem foldl_setenvTable {s : State} {m : Report → Mallocs} {C : List CStr} (h : Shows s E)
    (hinit : s.envinited = false) (hm : ∀ rep, (m rep).Succeed)
    (hz : ∀ rep ∈ reps, (0 : UInt8) ∉ rep.1)
    (hC : ∀ x, (reps.foldl EnvMap.report E).view x ≠ none → x.map toupper ∈ C)
    (hlen : C.length ≤ nvar) :
    Shows (reps.foldl (fun s rep => (setenvTable s (m rep) rep.1 rep.2).2) s)
      (reps.foldl EnvMap.report E) := by
  induction reps generalizing s E with
  | nil => exact h
  | cons rep reps ih =>
    rw [List.foldl_cons] at hC
    have hstep := setenvTable_report h hinit (hm rep) (hz rep (List.mem_cons_self ..))
      (fun x hx => hC x (foldl_view_ne_none hx)) hlen
    exact ih hstep.1 hstep.2.1 (fun r hr => hz r (List.mem_cons_of_mem _ hr)) hC

end Pmon.Env
