import Mathlib.Data.List.Dedup
import Pmon.Env.Reboot
import Pmon.Lib.Run
import Pmon.Nvram.RoundTrip

/-!
# Runs of set and unset

The two stores stay in step over every run of successful `set` and `unset` commands whose
steps meet `StepOk`.  What can go wrong otherwise comes from the two ways of comparing names:
the table knows one variable under all spellings, the NVRAM one entry for each.  Unsetting a
variable, or setting it back to its default, removes the entry under one spelling only, and
any other one comes back with the next power-on (`unset_comes_back`).
-/

namespace Pmon.Env

open Pmon.Lib Pmon.Libc Pmon.Nvram

variable {x name : CStr} {value : CStr} {es : List CStr} {s : State} {sp : Stdenv}

/-! ## §1 Spellings -/

/-- `tgt_unsetenv(name)` removes every spelling of the name: its entry can be found, and
    there is no entry under another spelling. -/
structure SpeltAs (name : CStr) (es : List CStr) : Prop where
  clear : Clear name es
  spelling : ∀ e ∈ es, striequ (entryName e) name → entryName e = name

theorem SpeltAs.ofClass_unlist (h : SpeltAs name es) (hx : striequ x name) :
    ofClass x (unlist name es) = [] := by
  rw [unlist_eq_removeName_iff.mpr h.clear, ofClass, List.filter_eq_nil_iff]
  intro e he hex
  obtain ⟨hmem, hne⟩ := List.mem_filter.mp he
  exact (of_decide_eq_true hne) (h.spelling e hmem (striequ_trans hex hx))

theorem SpeltAs.sublist {es' : List CStr} (h : SpeltAs name es) (hsub : es'.Sublist es) :
    SpeltAs name es' :=
  ⟨h.clear.sublist hsub, fun e he => h.spelling e (hsub.subset he)⟩

/-- The name that `unsetenv` removes from the NVRAM for a variable. -/
def resetName (n : CStr) : CStr := (getstdenv n).elim n (·.name)

/-! ## §2 One variable -/

/-- Setting a standard variable to its default keeps the stores in step. -/
theorem inStep_default {ops : EnvOps} (h : InStep s es) (hstd : getstdenv name = some sp)
    (hz : (0 : UInt8) ∉ name) (hhook : sp.chgfunc ≠ .chgHeaptop) (hops : ops.Succeed)
    (hsp : SpeltAs name es)
    (hroom : (s.envvar.enter ops.mallocs name (some sp.init)).1 = true) :
    InStep (setenv s ops name (some sp.init)).2 (unlist name es) ∧
      Entered s.envvar (setenv s ops name (some sp.init)).2.envvar name (some sp.init) := by
  obtain ⟨t, nv, heq, hent, hheld⟩ := setenv_default hstd hz hhook h.distinct hops h.held hroom
  rw [heq]
  refine ⟨⟨h.inited, hent.distinct, fun n v hn => ?_, hheld, fun x hx => ?_, fun x hx => ?_,
    h.heaptop⟩, hent⟩
  · rcases hent.names n v hn with rfl | ⟨w, hw⟩
    · exact hz
    · exact h.no_nul n w hw
  · rw [hent.lookup]
    by_cases hxn : striequ x name
    · have hstdx : getstdenv x = some sp := by rw [getstdenv_congr hxn, hstd]
      rw [if_pos hxn, visible_of_ofClass_nil (hsp.ofClass_unlist hxn), defaultOf_std hstdx,
        if_neg hhook]
    · rw [if_neg hxn, h.view x hx,
        visible_unlist_of_not fun hnx => hxn (striequ_comm.trans hnx)]
  · rw [hent.lookup]
    split
    · simp
    · exact h.fixed x hx

/-- Deleting a variable of the user keeps the stores in step. -/
theorem inStep_delete {op : FlashOp} {i : ℕ} {v : Option CStr} (h : InStep s es)
    (hi : s.envvar.slots.getD i none = some (name, v)) (hstd : getstdenv name = none)
    (hfix : ¬Fixed name) (hop : op.fault = .none) (hz : (0 : UInt8) ∉ name)
    (hsp : SpeltAs name es) :
    InStep { s with nv := (tgtUnsetenv s.nv op name).2, envvar := s.envvar.set i none }
      (unlist name es) := by
  obtain ⟨hd, hlook, hslots⟩ := drop_spec h.distinct hi
  refine ⟨h.inited, hd, fun n v hn => ?_, tgtUnsetenv_held h.held hop hz, fun x hx => ?_,
    fun x hx => ?_, h.heaptop⟩
  · exact h.no_nul n v ((hslots _ hn).resolve_left (Option.some_ne_none _))
  · dsimp only
    rw [hlook]
    by_cases hxn : striequ x name
    · rw [if_pos hxn, visible_of_ofClass_nil (hsp.ofClass_unlist hxn), defaultOf_congr hxn,
        defaultOf, hstd]
    · rw [if_neg hxn, h.view x hx,
        visible_unlist_of_not fun hnx => hxn (striequ_comm.trans hnx)]
  · dsimp only
    rw [hlook, if_neg fun hxn => hfix ((fixed_congr hxn).mp hx)]
    exact h.fixed x hx

/-- The entries after `tgt_setenv`. -/
def newEntries (name value : CStr) (es : List CStr) : List CStr :=
  if name = ascii "heaptop" then entry name (some value) :: unlist name es
  else unlist name es ++ [entry name (some value)]

theorem call_mono {f : Chgfunc} {v : Option CStr} {h h' : ℕ} (hle : h ≤ h')
    (hok : (f.call h' v).1 = true) : (f.call h v).1 = true := by
  by_cases hf : f = .chgHeaptop
  · subst hf
    simp only [Chgfunc.call] at hok ⊢
    split at hok
    · split at hok
      · cases hok
      · rw [if_neg (by omega)]
    · cases hok
  · rwa [call_indep h h' hf]

/-- The new entry is what power-on makes of the variable. -/
theorem visible_newEntries (hname : eqSign ∉ name) {top : ℕ} (htop : initHeaptop ≤ top)
    (hok : ((hookOf name).call top (some value)).1 = true)
    (hheap : hookOf name = .chgHeaptop → SpeltAs name es) (hx : striequ x name) :
    visible (newEntries name value es) x = some (some value) := by
  have hrep := entryReport_entry hname (some value)
  by_cases hhook : hookOf name = .chgHeaptop
  · -- the only entry of its class
    have hnil := (hheap hhook).ofClass_unlist hx
    have hown : ofClass x [entry name (some value)] = [entry name (some value)] := by
      rw [ofClass, List.filter_cons_of_pos (p := fun e => striequ (entryName e) x), List.filter_nil]
      rw [entryName_entry hname]
      exact striequ_comm.trans hx
    have hclass : ofClass x (newEntries name value es) = ofClass x [entry name (some value)] := by
      rw [newEntries]
      split
      · rw [← List.singleton_append, ofClass, List.filter_append, ← ofClass, ← ofClass, hnil,
          List.append_nil]
      · rw [ofClass, List.filter_append, ← ofClass, ← ofClass, hnil, List.nil_append]
    rw [visible_eq_of_ofClass hclass, visible, storedEnv, List.map_singleton, hrep,
      List.foldl_cons, List.foldl_nil, report_ok (call_mono htop hok), hx]
    rfl
  · -- the last entry of its class
    have hnot : name ≠ ascii "heaptop" := by
      rintro rfl
      exact hhook (by decide)
    have hok' : ∀ h, ((hookOf name).call h (some value)).1 = true := fun h => by
      rwa [call_indep h top hhook]
    rw [newEntries, if_neg hnot, visible, storedEnv, List.map_append, List.foldl_append,
      List.map_singleton, hrep, List.foldl_cons, List.foldl_nil, report_ok (hok' _), hx]
    rfl

theorem visible_newEntries_of_not (hname : eqSign ∉ name) (hx : ¬striequ x name) :
    visible (newEntries name value es) x = visible es x := by
  have hx' : ¬striequ name x := fun h => hx (striequ_comm.trans h)
  have hown : ofClass x [entry name (some value)] = [] := by
    rw [ofClass, List.filter_cons_of_neg (p := fun e => striequ (entryName e) x), List.filter_nil]
    rwa [entryName_entry hname]
  refine visible_eq_of_ofClass (Eq.trans ?_ (ofClass_unlist_of_not hx'))
  rw [newEntries]
  split
  · rw [← List.singleton_append, ofClass, List.filter_append, ← ofClass, ← ofClass, hown,
      List.nil_append]
  · rw [ofClass, List.filter_append, ← ofClass, ← ofClass, hown, List.append_nil]

/-! ## §3 `set` -/

/-- The value is the default of the variable, up to case. -/
def IsDefault (name value : CStr) : Prop :=
  ∃ sp, getstdenv name = some sp ∧ striequ value sp.init

theorem isDefault_iff : IsDefault name value ↔
    (getstdenv name).any (fun sp => (some value).any (striequ · sp.init)) = true := by
  rw [IsDefault]
  cases getstdenv name <;> simp

theorem setenvTable_true {m : Mallocs} {v : Option CStr}
    (h : (setenvTable s m name v).1 = true) :
    ((hookOf name).call s.heaptop v).1 = true ∧ (s.envvar.enter m name v).1 = true ∧
      (setenvTable s m name v).2 = { s with
        heaptop := ((hookOf name).call s.heaptop v).2, envvar := (s.envvar.enter m name v).2 } := by
  rw [setenvTable, ← hookOf.eq_1] at h ⊢
  rcases hok : ((hookOf name).call s.heaptop v).1
  · simp [hok] at h
  · simp only [hok, Bool.not_true, Bool.false_eq_true, if_false] at h ⊢
    split at h
    · cases h
    · rename_i hvals
      rw [if_neg hvals]
      exact ⟨trivial, h, rfl⟩

/-- How a successful `set` can come about. -/
theorem cmdSet_cases {ops : EnvOps} (h : (cmdSet s ops name value).1 = true) :
    ((hookOf name).call s.heaptop (some value)).1 = true ∧
    (s.envvar.enter ops.mallocs name (some value)).1 = true ∧
    ((IsDefault name value ∧ (cmdSet s ops name value).2 = (setenv s ops name (some value)).2) ∨
      (¬IsDefault name value ∧ (tgtSetenv s.nv ops.setenv name (some value)).1 ≠ 0 ∧
        (cmdSet s ops name value).2 = { s with
          heaptop := ((hookOf name).call s.heaptop (some value)).2
          envvar := (s.envvar.enter ops.mallocs name (some value)).2
          nv := (tgtSetenv s.nv ops.setenv name (some value)).2 })) := by
  have hset : (setenvTable s ops.mallocs name (some value)).1 = true := by
    rcases hno : (setenvTable s ops.mallocs name (some value)).1
    · simp [cmdSet, doSetenv, hno] at h
    · rfl
  obtain ⟨hok, henter, hres⟩ := setenvTable_true hset
  refine ⟨hok, henter, ?_⟩
  by_cases hdef : IsDefault name value
  · exact Or.inl ⟨hdef, rfl⟩
  · refine Or.inr ⟨hdef, ?_⟩
    rw [isDefault_iff] at hdef
    simp only [cmdSet, doSetenv, hset, hres, Bool.not_true, Bool.false_eq_true, if_false, hdef,
      Bool.not_false, if_true] at h ⊢
    exact ⟨by simpa using h, trivial⟩

/-- The condition for `set`. -/
structure SetOk (es : List CStr) (name value : CStr) (ops : EnvOps) : Prop where
  succeed : ops.Succeed
  ordinary : Ordinary name
  not_fixed : ¬Fixed name
  no_nul : (0 : UInt8) ∉ value
  default : ∀ sp, getstdenv name = some sp → striequ value sp.init →
    value = sp.init ∧ SpeltAs name es
  heaptop : hookOf name = .chgHeaptop → SpeltAs name es
  fits : ¬IsDefault name value → 2 + (packed (newEntries name value es)).length ≤ nvramSize

/-- What `tgt_setenv` stores. -/
theorem tgtSetenv_held {nv : NvState} {ops : EnvOps} (h : Held nv es) (hok : SetOk es name value ops)
    (hdef : ¬IsDefault name value) (hlen : envlen name (some value) ≤ 255) :
    (tgtSetenv nv ops.setenv name (some value)).1 = 1 ∧
      Held (tgtSetenv nv ops.setenv name (some value)).2 (newEntries name value es) := by
  have hord := hok.ordinary
  have hentry : IsEntry (entry name (some value)) :=
    isEntry_entry hord.ne_nil hord.no_nul (by simpa using hok.no_nul)
  have hfit := hok.fits hdef
  refine (tgtSetenv_of_insertEntry h.holding hok.succeed.setenv hord.no_nul hord.not_expert
    hord.ne_nil hord.not_ownPlace hlen fun buf hbuf _ => ?_).imp_right .valid
  by_cases hheap : name = ascii "heaptop"
  · subst hheap
    rw [newEntries, if_pos rfl] at hfit ⊢
    obtain ⟨m, hm, harea, -⟩ := insertEntry_front hbuf hentry hlen hfit
    exact ⟨m, hm, harea⟩
  · rw [newEntries, if_neg hheap] at hfit ⊢
    obtain ⟨m, hm, harea, -⟩ := insertEntry_append hbuf hheap hentry hlen hfit
    exact ⟨m, hm, harea⟩

/-- What is too long is not stored. -/
theorem envlen_le_of_tgtSetenv {nv : NvState} {op : SetenvOps} (hord : Ordinary name)
    (hr : (tgtSetenv nv op name (some value)).1 ≠ 0) : envlen name (some value) ≤ 255 := by
  by_contra hlong
  refine hr ?_
  rw [tgtSetenv, if_neg hord.not_expert, if_neg hord.ne_nil, if_pos (Nat.not_le.mp hlong)]

/-- A value in the table and in the NVRAM keeps the stores in step. -/
theorem inStep_store {ops : EnvOps} (h : InStep s es) (hok : SetOk es name value ops)
    (hcall : ((hookOf name).call s.heaptop (some value)).1 = true) {t : Table} {nv : NvState}
    (hent : Entered s.envvar t name (some value)) (hheld : Held nv (newEntries name value es)) :
    InStep { s with heaptop := ((hookOf name).call s.heaptop (some value)).2, envvar := t, nv }
      (newEntries name value es) := by
  refine ⟨h.inited, hent.distinct, fun n v hn => ?_, hheld, fun x hx => ?_, fun x hx => ?_,
    Nat.le_trans h.heaptop call_le⟩
  · rcases hent.names n v hn with rfl | ⟨w, hw⟩
    · exact hok.ordinary.no_nul
    · exact h.no_nul n w hw
  · dsimp only
    rw [hent.lookup]
    by_cases hxn : striequ x name
    · rw [if_pos hxn, visible_newEntries hok.ordinary.no_eq h.heaptop hcall hok.heaptop hxn]
    · rw [if_neg hxn, h.view x hx, visible_newEntries_of_not hok.ordinary.no_eq hxn]
  · dsimp only
    rw [hent.lookup]
    split
    · simp
    · exact h.fixed x hx

/-- **A successful `set`** keeps the stores in step. -/
theorem inStep_set {ops : EnvOps} (h : InStep s es) (hok : SetOk es name value ops)
    (hdone : (cmdSet s ops name value).1 = true) :
    ∃ es', InStep (cmdSet s ops name value).2 es' := by
  obtain ⟨hcall, henter, ⟨⟨sp, hstd, hval⟩, hres⟩ | ⟨hdef, hr, hres⟩⟩ := cmdSet_cases hdone
  · obtain ⟨rfl, hspelt⟩ := hok.default sp hstd hval
    have hhook : sp.chgfunc ≠ .chgHeaptop := fun hheap => by
      have hf := call_init_heaptop (getstdenv_some hstd).1 hheap h.heaptop
      rw [hookOf, hstd, Option.elim_some, hf] at hcall
      cases hcall
    rw [hres]
    exact ⟨_, (inStep_default h hstd hok.ordinary.no_nul hhook hok.succeed hspelt henter).1⟩
  · have hlen := envlen_le_of_tgtSetenv hok.ordinary hr
    rw [hres]
    exact ⟨_, inStep_store h hok hcall (enter_spec h.distinct hok.succeed.mallocs henter)
      (tgtSetenv_held h.held hok hdef hlen).2⟩

/-! ## §4 `unset` -/

/-- The condition for `unset`: what the pattern matches is not a variable of the board, and is
    stored under one spelling at most. -/
def UnsetOk (s : State) (es : List CStr) (pat : CStr) : Prop :=
  ∀ n v, some (n, v) ∈ s.envvar.slots → strpat n pat → ¬Fixed n ∧ SpeltAs (resetName n) es

theorem mem_slots_of_getD {t : Table} {i : ℕ} {v : Var} (h : t.slots.getD i none = some v) :
    some v ∈ t.slots := by
  rw [← h]
  by_cases hi : i < t.slots.length
  · rw [List.getD_eq_getElem _ _ hi]
    exact List.getElem_mem hi
  · rw [List.getD_eq_default _ _ (Nat.not_lt.mp hi)] at h
    cases h

/-- The loop of `unsetenv` keeps the stores in step. -/
theorem inStep_unsetenvLoop {pat : CStr} {ops : ℕ → EnvOps} (hops : ∀ i, (ops i).Succeed)
    (n i : ℕ) (h : InStep s es) (hok : UnsetOk s es pat) :
    ∃ es', InStep (unsetenvLoop pat ops n i s) es' := by
  induction n generalizing i s es with
  | zero => exact ⟨es, h⟩
  | succ n ih =>
    rw [unsetenvLoop]
    rcases hslot : s.envvar.slots.getD i none with _ | ⟨name, v⟩
    · exact ih _ h hok
    · dsimp only
      have hmem := mem_slots_of_getD hslot
      by_cases hpat : strpat name pat
      case neg =>
        rw [if_neg hpat]
        exact ih _ h hok
      case pos =>
        obtain ⟨hfix, hspelt⟩ := hok name v hmem hpat
        rw [if_pos hpat]
        rcases hstd : getstdenv name with _ | sp
        · -- a variable of the user: delete it
          rw [resetName, hstd, Option.elim_none] at hspelt
          have hdel := inStep_delete h hslot hstd hfix (hops i).unsetenv (h.no_nul _ _ hmem) hspelt
          refine ih _ hdel fun m w hm hmpat => ?_
          have hm' := (drop_spec h.distinct hslot).2.2 _ hm
          obtain ⟨hmfix, hmspelt⟩ := hok m w (hm'.resolve_left (Option.some_ne_none _)) hmpat
          exact ⟨hmfix, hmspelt.sublist (unlist_sublist _ _)⟩
        · -- a standard variable: back to its default
          obtain ⟨hsp, hname⟩ := getstdenv_some hstd
          rw [resetName, hstd, Option.elim_some] at hspelt
          dsimp only
          by_cases hhook : sp.chgfunc = .chgHeaptop
          · rw [setenv_default_heaptop hsp hhook h.heaptop]
            exact ⟨es, h⟩
          · have hroom : (s.envvar.enter (ops i).mallocs sp.name (some sp.init)).1 = true := by
              refine enter_room (C := keys s.envvar.slots) h.distinct (hops i).mallocs
                (fun k hk => hk) ?_ ?_
              · rw [← striequ_iff.mp hname]
                exact List.mem_filterMap.mpr ⟨_, hmem, rfl⟩
              · rw [← s.envvar.length_eq]
                exact List.length_filterMap_le _ _
            obtain ⟨hstep, hent⟩ := inStep_default h (getstdenv_self hsp) (no_nul_stdenvtab sp hsp)
              hhook (hops i) hspelt hroom
            split
            · exact ⟨_, hstep⟩
            · refine ih _ hstep fun m w hm hmpat => ?_
              rcases hent.names m w hm with rfl | ⟨w', hw'⟩
              · refine ⟨fun hf => ?_, ?_⟩
                · have hno := getstdenv_fixed hf
                  rw [getstdenv_self hsp] at hno
                  cases hno
                · rw [resetName, getstdenv_self hsp, Option.elim_some]
                  exact hspelt.sublist (unlist_sublist _ _)
              · obtain ⟨hmfix, hmspelt⟩ := hok m w' hw' hmpat
                exact ⟨hmfix, hmspelt.sublist (unlist_sublist _ _)⟩

/-! ## §5 Runs -/

/-- The commands of a run, with the fate of their allocations and flash operations. -/
inductive Op where
  | set (name value : CStr) (ops : EnvOps)
  | unset (name : CStr) (ops : ℕ → EnvOps)

def Op.run (s : State) : Op → Bool × State
  | .set name value ops => cmdSet s ops name value
  | .unset name ops => cmdUnset s ops name

/-- A command that reports success. -/
def OpStep (s : State) (op : Op) (s' : State) : Prop := op.run s = (true, s')

/-- The condition on a step: on the entries that the NVRAM holds before it. -/
def StepOk (s : State) (op : Op) : Prop :=
  ∀ es, Held s.nv es →
    match op with
    | .set name value ops => SetOk es name value ops
    | .unset name ops => UnsetOk s es name ∧ ∀ i, (ops i).Succeed

/-- One step. -/
theorem inStep_step {op : Op} {s' : State} (h : ∃ es, InStep s es)
    (hstep : Guarded OpStep StepOk s op s') : ∃ es, InStep s' es := by
  obtain ⟨es, h⟩ := h
  obtain ⟨hrun, hok⟩ := hstep
  have hok := hok es h.held
  cases op with
  | set name value ops =>
    have hrun : cmdSet s ops name value = (true, s') := hrun
    have hset := inStep_set h hok (by rw [hrun])
    rwa [hrun] at hset
  | unset name ops =>
    have hrun : cmdUnset s ops name = (true, s') := hrun
    have hun := inStep_unsetenvLoop hok.2 nvar 0 h hok.1
    rw [cmdUnset] at hrun
    split at hrun
    · rw [Prod.mk.injEq] at hrun
      rwa [← hrun.2]
    · cases hrun

/-- What the flash holds at the first power-on: entries whose names fit into the table, and
    none without a value for a variable whose change function reads it. -/
structure Bootable (es : List CStr) : Prop where
  room : ((es.map entryName ++ fixedNames ++ stdenvtab.map (·.name)).map
    (·.map toupper)).dedup.length ≤ nvar
  no_null : ∀ e ∈ es, hookOf (entryName e) = .chgMoresz ∨ hookOf (entryName e) = .chgHeaptop →
    entryValue e ≠ none

theorem exists_of_storedEnv (h : (storedEnv es).view x ≠ none) :
    ∃ e ∈ es, striequ (entryName e) x := by
  by_contra hno
  refine h (foldl_view_of_not fun rep hrep hx => hno ?_)
  obtain ⟨e, he, rfl⟩ := List.mem_map.mp hrep
  exact ⟨e, he, hx⟩

theorem Bootable.covers (h : Bootable es) : Covers
    ((es.map entryName ++ fixedNames ++ stdenvtab.map (·.name)).map (·.map toupper)).dedup es where
  covered x hx := by
    rw [List.mem_dedup]
    suffices hex : ∃ n ∈ es.map entryName ++ fixedNames ++ stdenvtab.map (·.name), striequ n x by
      obtain ⟨n, hn, hnx⟩ := hex
      rw [← striequ_iff.mp hnx]
      exact List.mem_map_of_mem hn
    simp only [List.mem_append]
    rcases hx with ⟨f, hf, hx⟩ | hx
    · exact ⟨f, Or.inl (Or.inr hf), striequ_comm.trans hx⟩
    · by_cases hst : (storedEnv es).view x = none
      · rw [visible, hst, Option.none_or, defaultOf] at hx
        rcases hstd : getstdenv x with _ | sp
        · rw [hstd] at hx
          exact absurd rfl hx
        · obtain ⟨hsp, hxs⟩ := getstdenv_some hstd
          exact ⟨sp.name, Or.inr (List.mem_map_of_mem hsp), striequ_comm.trans hxs⟩
      · obtain ⟨e, he, hex⟩ := exists_of_storedEnv hst
        exact ⟨entryName e, Or.inl (Or.inl (List.mem_map_of_mem he)), hex⟩
  room := h.room

/-- **Over every run** of successful commands that meet `StepOk`, from any power-on, the
    environment that the next power-on shows is the one that is visible: every variable that
    is not the board's own has the same value, or is absent in both. -/
theorem reboot_same (dev : Board) (hdev : dev.devident = true) (flash : Mem) (es : List CStr)
    (hflash : FlashHolds flash es) (hboot : Bootable es) (m m' : Report → Mallocs)
    (hm : ∀ rep, (m rep).Succeed) (hm' : ∀ rep, (m' rep).Succeed) (ops ops' : CStr → EnvOps)
    (hops : ∀ n, (ops n).Succeed) (hops' : ∀ n, (ops' n).Succeed) (cmds : List Op) (s : State)
    (hrun : Run (Guarded OpStep StepOk) (envinit dev m ops (powerOn flash)) cmds s) (x : CStr)
    (hx : ¬Fixed x) :
    getenv (envinit dev m' ops' (powerOn s.nv.flash)) x = getenv s x := by
  obtain ⟨es', h, -, -⟩ := boot_inStep hdev hflash hboot.covers hm hops
  obtain ⟨es'', h⟩ := hrun.invariant (fun _ _ _ hs hstep => inStep_step hs hstep) ⟨es', h⟩
  exact reboot_lookup hdev h hm' hops' hx

/-! ## §6 What the condition keeps out -/

/-- A `set` of a variable of the user succeeds when all names fit. -/
theorem cmdSet_user {ops : EnvOps} (h : InStep s es) (hok : SetOk es name value ops)
    (hstd : getstdenv name = none) (hlen : envlen name (some value) ≤ 255)
    (hboot : Bootable (newEntries name value es)) :
    (cmdSet s ops name value).1 = true ∧
      InStep (cmdSet s ops name value).2 (newEntries name value es) ∧
      Entered s.envvar (cmdSet s ops name value).2.envvar name (some value) := by
  have hord := hok.ordinary
  have hhook : hookOf name = .null := by rw [hookOf, hstd]; rfl
  have hdef : ¬IsDefault name value := by
    rintro ⟨sp, hsp, -⟩
    rw [hstd] at hsp
    cases hsp
  have hcov := hboot.covers
  have henter : (s.envvar.enter ops.mallocs name (some value)).1 = true := by
    refine enter_room h.distinct hok.succeed.mallocs (fun k hk => ?_) (hcov.covered name ?_) hcov.room
    · obtain ⟨n, rfl, hn⟩ := exists_of_mem_keys hk
      refine hcov.covered n ?_
      by_cases hfix : Fixed n
      · exact Or.inl hfix
      · refine Or.inr ?_
        by_cases hnn : striequ n name
        · rw [visible_newEntries hord.no_eq (Nat.le_refl _) (by rw [hhook]; rfl)
            (fun hh => by rw [hhook] at hh; cases hh) hnn]
          exact Option.some_ne_none _
        · rwa [visible_newEntries_of_not hord.no_eq hnn, ← h.view n hfix]
    · refine Or.inr ?_
      rw [visible_newEntries hord.no_eq (Nat.le_refl _) (by rw [hhook]; rfl)
        (fun hh => by rw [hhook] at hh; cases hh) (striequ_refl name)]
      exact Option.some_ne_none _
  have hcall : (hookOf name).call s.heaptop (some value) = (true, s.heaptop) := by rw [hhook]; rfl
  have hent := enter_spec h.distinct hok.succeed.mallocs henter
  obtain ⟨hone, hheld⟩ := tgtSetenv_held h.held hok hdef hlen
  have hin := inStep_store h hok (by rw [hcall]) hent hheld
  have hset : setenvTable s ops.mallocs name (some value) =
      (true, { s with envvar := (s.envvar.enter ops.mallocs name (some value)).2 }) := by
    rw [setenvTable, hstd]
    simp [Chgfunc.call, henter]
  have hres : cmdSet s ops name value = (true, { s with
      envvar := (s.envvar.enter ops.mallocs name (some value)).2
      nv := (tgtSetenv s.nv ops.setenv name (some value)).2 }) := by
    simp only [cmdSet, doSetenv, hset, hstd, Option.any_none, Bool.not_true, Bool.not_false,
      Bool.false_eq_true, if_false, if_true, hone]
    rfl
  rw [hcall] at hin
  rw [hres]
  exact ⟨rfl, hin, hent⟩

/-- Slots that the pattern does not match are passed over. -/
theorem unsetenvLoop_of_not {pat : CStr} {ops : ℕ → EnvOps} (n i : ℕ)
    (h : ∀ j v, i ≤ j → s.envvar.slots.getD j none = some v → ¬strpat v.1 pat) :
    unsetenvLoop pat ops n i s = s := by
  induction n generalizing i with
  | zero => rfl
  | succ n ih =>
    rw [unsetenvLoop]
    rcases hslot : s.envvar.slots.getD i none with _ | v
    · exact ih _ fun j v hj => h j v (by omega)
    · dsimp only
      rw [if_neg (h i v (Nat.le_refl _) hslot)]
      exact ih _ fun j v hj => h j v (by omega)

/-- Unsetting one variable of the user by its name: the loop deletes its slot and the entry
    under that spelling. -/
theorem unsetenvLoop_user {ops : ℕ → EnvOps} {k : ℕ} {v : Option CStr}
    (hslot : s.envvar.slots.getD k none = some (name, v)) (hstd : getstdenv name = none)
    (hstar : 42 ∉ name) (hquery : 63 ∉ name)
    (hone : ∀ j w, s.envvar.slots.getD j none = some (name, w) → j = k) (n i : ℕ) (hik : i ≤ k)
    (hkn : k < i + n) :
    unsetenvLoop name ops n i s = { s with
      nv := (tgtUnsetenv s.nv (ops k).unsetenv name).2, envvar := s.envvar.set k none } := by
  induction n generalizing i with
  | zero => omega
  | succ n ih =>
    rw [unsetenvLoop]
    by_cases hk : i = k
    · subst hk
      rw [hslot]
      dsimp only
      rw [if_pos ((strpat_literal hstar hquery).mpr rfl), hstd]
      dsimp only
      rw [unsetenvLoop_of_not]
      intro j w hj hw hmatch
      -- no further slot has the name
      have hset : (s.envvar.set i none).slots.getD j none = s.envvar.slots.getD j none := by
        simp [List.getD_eq_getElem?_getD, show i ≠ j by omega]
      obtain ⟨wn, wv⟩ := w
      obtain rfl := (strpat_literal hstar hquery).mp hmatch
      have := hone j wv (hset ▸ hw)
      omega
    · rcases hs : s.envvar.slots.getD i none with _ | ⟨n', v'⟩
      · exact ih (i + 1) (by omega) (by omega)
      · dsimp only
        rw [if_neg]
        · exact ih (i + 1) (by omega) (by omega)
        · intro hmatch
          obtain rfl := (strpat_literal hstar hquery).mp hmatch
          exact hk (hone i v' hs)

/-- **Unsetting a variable of the user by its name**: the variable is gone, and the next
    power-on shows what the other spellings of its name have left in the NVRAM. -/
theorem cmdUnset_user (ops : ℕ → EnvOps) {v : Option CStr} (h : InStep s es)
    (hmem : some (name, v) ∈ s.envvar.slots) (hstd : getstdenv name = none)
    (hstar : 42 ∉ name) (hquery : 63 ∉ name) (hops : ∀ i, (ops i).Succeed) :
    ∃ s', OpStep s (.unset name ops) s' ∧ (∀ x, striequ x name → getenv s' x = none) ∧
      ∀ (dev : Board) (m : Report → Mallocs) (bops : CStr → EnvOps), dev.devident = true →
        (∀ rep, (m rep).Succeed) → (∀ n, (bops n).Succeed) → ∀ x, ¬Fixed x →
          getenv (envinit dev m bops (powerOn s'.nv.flash)) x =
            (visible (unlist name es) x).map (·.getD []) := by
  obtain ⟨k, hk, hkv⟩ := List.getElem_of_mem hmem
  have hslot : s.envvar.slots.getD k none = some (name, v) := by
    rw [List.getD_eq_getElem _ _ hk, hkv]
  obtain ⟨-, hdrop, -⟩ := drop_spec h.distinct hslot
  have hgone : (s.envvar.set k none).lookup name = none := by rw [hdrop, striequ_refl]; rfl
  have hone : ∀ j w, s.envvar.slots.getD j none = some (name, w) → j = k := by
    intro j w hj
    by_contra hne
    have hj' : (s.envvar.set k none).slots.getD j none = some (name, w) := by
      rw [← hj]
      simp [List.getD_eq_getElem?_getD, Ne.symm hne]
    exact look_eq_none_iff.mp hgone (List.mem_filterMap.mpr ⟨_, mem_slots_of_getD hj', rfl⟩)
  have hlook : s.envvar.lookup name ≠ none := fun hnone =>
    look_eq_none_iff.mp hnone (List.mem_filterMap.mpr ⟨_, hmem, rfl⟩)
  have hrun : cmdUnset s ops name = (true, { s with
      nv := (tgtUnsetenv s.nv (ops k).unsetenv name).2, envvar := s.envvar.set k none }) := by
    rw [cmdUnset, getenv, if_pos h.inited, if_pos (by simpa [Option.isSome_iff_ne_none] using hlook),
      unsetenv, unsetenvLoop_user hslot hstd hstar hquery hone nvar 0 (Nat.zero_le _)
        (by rw [Nat.zero_add, ← s.envvar.length_eq]; exact hk)]
  refine ⟨_, hrun, fun x hx => ?_, fun dev m bops hdev hm hbops x hx => ?_⟩
  · rw [getenv, if_pos h.inited]
    dsimp only
    rw [Table.lookup_eq, look_congr hx, ← Table.lookup_eq, hgone]
    rfl
  · have hheld := tgtUnsetenv_held h.held (hops k).unsetenv (h.no_nul _ _ hmem)
    -- what is left to show had a slot before
    have hcov : Covers (keys s.envvar.slots) (unlist name es) := by
      refine ⟨fun y hy => ?_, h.covers.room⟩
      by_cases hyn : striequ y name
      · rw [striequ_iff.mp hyn]
        exact List.mem_filterMap.mpr ⟨_, hmem, rfl⟩
      · rw [visible_unlist_of_not fun hny => hyn (striequ_comm.trans hny)] at hy
        exact h.covers.covered y hy
    obtain ⟨es', hboot, -, hvis⟩ := boot_inStep hdev hheld.flashHolds hcov hm hbops
    rw [getenv, if_pos hboot.inited, hboot.view x hx, hvis]

/-! ## §7 A variable that comes back -/

/-- A call without a fault. -/
def goodEnvOps : EnvOps := ⟨⟨true, true⟩, goodOps, goodOp⟩

theorem goodEnvOps_succeed : goodEnvOps.Succeed := ⟨⟨rfl, rfl⟩, goodOps_succeeds, rfl⟩

/-- Power-on without a fault. -/
def goodBoot (flash : Mem) : State :=
  envinit someBoard (fun _ => ⟨true, true⟩) (fun _ => goodEnvOps) (powerOn flash)

theorem bootable_of_few (hlen : es.length + 33 ≤ nvar)
    (hnull : ∀ e ∈ es, hookOf (entryName e) = .chgMoresz ∨ hookOf (entryName e) = .chgHeaptop →
      entryValue e ≠ none) : Bootable es where
  room := by
    refine Nat.le_trans (List.dedup_sublist _).length_le ?_
    have hfixed : fixedNames.length = 10 := rfl
    have hstd : stdenvtab.length = 23 := rfl
    simp only [List.length_map, List.length_append, hfixed, hstd]
    omega
  no_null := hnull

theorem goodBoot_empty : InStep (goodBoot (imageOf [])) [] := by
  have hflash : FlashHolds (imageOf []) [] :=
    .valid (imageOf_image (by simp) (by simp) (by decide))
  have hboot : Bootable [] := bootable_of_few (by decide) (by simp)
  have hin : ∃ es', InStep (goodBoot (imageOf [])) es' ∧ es'.Sublist [] ∧
      visible es' = visible [] :=
    boot_inStep rfl hflash hboot.covers (fun _ => ⟨rfl, rfl⟩) fun _ => goodEnvOps_succeed
  obtain ⟨es, h, hsub, -⟩ := hin
  rwa [List.sublist_nil.mp hsub] at h

theorem opStep_set {ops : EnvOps} (h : (cmdSet s ops name value).1 = true) :
    OpStep s (.set name value ops) (cmdSet s ops name value).2 :=
  Prod.ext h rfl

theorem setOk_foo : SetOk [] (ascii "Foo") (ascii "1") goodEnvOps where
  succeed := goodEnvOps_succeed
  ordinary := by decide
  not_fixed := by decide
  no_nul := by decide
  default sp h := absurd h (by rw [show getstdenv (ascii "Foo") = none by decide]; simp)
  heaptop h := absurd h (by decide)
  fits _ := by decide

/-- After `set Foo 1` from an empty sector, a reboot shows `Foo` as before. -/
theorem reboot_same_foo :
    getenv (goodBoot
        (cmdSet (goodBoot (imageOf [])) goodEnvOps (ascii "Foo") (ascii "1")).2.nv.flash)
        (ascii "Foo") =
      getenv (cmdSet (goodBoot (imageOf [])) goodEnvOps (ascii "Foo") (ascii "1")).2
        (ascii "Foo") := by
  have hflash : FlashHolds (imageOf []) [] :=
    .valid (imageOf_image (by simp) (by simp) (by decide))
  have hdone := (cmdSet_user goodBoot_empty setOk_foo (by decide) (by decide)
    (bootable_of_few (by decide) (by decide))).1
  have hok : StepOk (goodBoot (imageOf [])) (.set (ascii "Foo") (ascii "1") goodEnvOps) :=
    fun es hes => by
      rw [hes.unique goodBoot_empty.held]
      exact setOk_foo
  have hrun : Run (Guarded OpStep StepOk) (goodBoot (imageOf []))
      [.set (ascii "Foo") (ascii "1") goodEnvOps]
      (cmdSet (goodBoot (imageOf [])) goodEnvOps (ascii "Foo") (ascii "1")).2 :=
    .cons ⟨opStep_set hdone, hok⟩ (.nil _)
  exact reboot_same someBoard rfl (imageOf []) [] hflash (bootable_of_few (by decide) (by simp))
    (fun _ => ⟨true, true⟩) (fun _ => ⟨true, true⟩) (fun _ => ⟨rfl, rfl⟩) (fun _ => ⟨rfl, rfl⟩)
    (fun _ => goodEnvOps) (fun _ => goodEnvOps) (fun _ => goodEnvOps_succeed)
    (fun _ => goodEnvOps_succeed) _ _ hrun (ascii "Foo") (by decide)

/-- After `set Foo 1`, `set foo 2` and `unset Foo`, all done, there is no variable `foo`; the
    next power-on shows `foo` with the value `2`. -/
theorem unset_comes_back :
    ∃ s₁ s₂ s₃,
      OpStep (goodBoot (imageOf [])) (.set (ascii "Foo") (ascii "1") goodEnvOps) s₁ ∧
      OpStep s₁ (.set (ascii "foo") (ascii "2") goodEnvOps) s₂ ∧
      OpStep s₂ (.unset (ascii "Foo") fun _ => goodEnvOps) s₃ ∧
      getenv s₃ (ascii "foo") = none ∧
      getenv (goodBoot s₃.nv.flash) (ascii "foo") = some (ascii "2") := by
  have h₀ := goodBoot_empty
  obtain ⟨hdone₁, h₁, hent₁⟩ := cmdSet_user h₀ setOk_foo (by decide) (by decide)
    (bootable_of_few (by decide) (by decide))
  have hslot₁ := hent₁.added (by rw [h₀.view _ (by decide)]; decide)
  rw [show newEntries (ascii "Foo") (ascii "1") [] = [ascii "Foo=1"] by decide] at h₁
  have hok₂ : SetOk [ascii "Foo=1"] (ascii "foo") (ascii "2") goodEnvOps :=
    ⟨goodEnvOps_succeed, by decide, by decide, by decide,
      fun sp h => absurd h (by rw [show getstdenv (ascii "foo") = none by decide]; simp),
      fun h => absurd h (by decide), fun _ => by decide⟩
  obtain ⟨hdone₂, h₂, hent₂⟩ := cmdSet_user h₁ hok₂ (by decide) (by decide)
    (bootable_of_few (by decide) (by decide))
  obtain ⟨w, hslot₂⟩ := hent₂.kept _ _ hslot₁
  rw [show newEntries (ascii "foo") (ascii "2") [ascii "Foo=1"] =
    [ascii "Foo=1", ascii "foo=2"] by decide] at h₂
  obtain ⟨s₃, hstep, hgone, hback⟩ := cmdUnset_user (fun _ => goodEnvOps) h₂ hslot₂
    (by decide) (by decide) (by decide) fun _ => goodEnvOps_succeed
  refine ⟨_, _, s₃, opStep_set hdone₁, opStep_set hdone₂, hstep, hgone _ (by decide), ?_⟩
  · rw [goodBoot, hback someBoard _ _ rfl (fun _ => ⟨rfl, rfl⟩) (fun _ => goodEnvOps_succeed) _
      (by decide)]
    decide

end Pmon.Env
