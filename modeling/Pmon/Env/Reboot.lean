import Pmon.Env.Boot

/-!
# Power-on

`InStep s es` is the relation between the two stores: the table of `s` shows, for every name
that the board does not report itself, what power-on would make of the entries `es` in the
NVRAM.  `boot_inStep` says that `envinit` establishes it, and `reboot_lookup` that a state in
step comes back from a reboot with the same variables.
-/

namespace Pmon.Env

open Pmon.Lib Pmon.Libc Pmon.Nvram

variable {x name : CStr} {es : List CStr} {s : State} {nv : NvState} {flash : Mem}
  {E : EnvMap} {sp : Stdenv} {C : List CStr}

/-! ## §1 The NVRAM side -/

/-- What a flash sector holds for the next power-on: valid entries, or nothing when the
    checksum fails. -/
inductive FlashHolds (flash : Mem) : List CStr → Prop where
  | valid {es : List CStr} : Image flash es → FlashHolds flash es
  | blank : cksum flash 0 nvramSize ≠ 0 → FlashHolds flash []

/-- The NVRAM state holds `es`, and so does its flash for the next power-on. -/
inductive Held (nv : NvState) : List CStr → Prop where
  | valid {es : List CStr} : Stores nv es → Held nv es
  | invalid : nv.invalid ≠ 0 → cksum nv.flash 0 nvramSize ≠ 0 → Held nv []

theorem Held.flashHolds (h : Held nv es) : FlashHolds nv.flash es := by
  cases h with
  | valid h => exact .valid h.toImage
  | invalid _ h => exact .blank h

theorem Held.holding (h : Held nv es) : Holding nv es := by
  cases h with
  | valid h => exact .valid h
  | invalid h _ => exact .invalid h

/-- There is only one such list. -/
theorem Held.unique {es' : List CStr} (h : Held nv es) (h' : Held nv es') : es = es' := by
  cases h with
  | valid h =>
    cases h' with
    | valid h' => exact h.toArea.unique h'.toArea
    | invalid hinv _ => exact absurd h.valid hinv
  | invalid hinv _ =>
    cases h' with
    | valid h' => exact absurd h'.valid hinv
    | invalid => rfl

theorem Held.no_nul (h : Held nv es) : ∀ e ∈ es, (0 : UInt8) ∉ e := by
  cases h with
  | valid h => exact fun e he => (h.isEntry e he).not_mem
  | invalid => simp

theorem tgtUnsetenv_held {op : FlashOp} (h : Held nv es) (hop : op.fault = .none)
    (hz : (0 : UInt8) ∉ name) : Held (tgtUnsetenv nv op name).2 (unlist name es) := by
  cases h with
  | valid h =>
    obtain ⟨flash, heq, himg, -, -⟩ := tgtUnsetenv_stores h hop hz
    rw [heq]
    exact .valid ⟨himg, h.valid⟩
  | invalid hinv hck =>
    rw [tgtUnsetenv, if_pos hinv]
    exact .invalid hinv hck

/-- What `tgt_mapenv` reports at power-on. -/
theorem tgtMapenv_powerOn {dev : Board} (hdev : dev.devident = true) (h : FlashHolds flash es) :
    (tgtMapenv dev (powerOn flash).nv).1 =
        es.map entryReport ++ boardReports dev (tgtMapenv dev (powerOn flash).nv).2 ∧
      Held (tgtMapenv dev (powerOn flash).nv).2 es := by
  cases h with
  | valid h =>
    have himg : Image (powerOn flash).nv.flash es := h
    have hmap := himg.mapArea_eq hdev
    refine ⟨himg.tgtMapenv_eq hdev, .valid ⟨h, ?_⟩⟩
    rw [tgtMapenv, hmap]
    rfl
  | blank hck =>
    have hmap : mapArea dev (powerOn flash).nv = ([], 1) := by
      rw [mapArea, if_pos]
      simpa [hdev, powerOn] using hck
    rw [tgtMapenv, hmap]
    exact ⟨rfl, .invalid (by simp [readFixed]) hck⟩

/-! ## §2 The board's own reports -/

/-- The board reports exactly the fixed names. -/
theorem boardReports_names (dev : Board) (nv : NvState) :
    (boardReports dev nv).map Prod.fst = fixedNames := rfl

/-- No fixed name is a standard variable. -/
theorem getstdenv_fixed (h : Fixed x) : getstdenv x = none := by
  obtain ⟨f, hf, hx⟩ := h
  have hall : ∀ f ∈ fixedNames, getstdenv f = none := by decide
  rw [getstdenv_congr hx, hall f hf]

theorem foldl_view_of_not {reps : List Report} (h : ∀ rep ∈ reps, ¬striequ rep.1 x) :
    (reps.foldl EnvMap.report E).view x = E.view x := by
  have hnil : (reps.filter fun rep => striequ rep.1 x) = [] := by
    simpa [List.filter_eq_nil_iff] using h
  have := (foldl_agree_filter x reps (EnvMap.agree_refl x E)).1
  rwa [hnil] at this

/-- Other variables are left alone by the board. -/
theorem board_view_of_not (dev : Board) (h : ¬Fixed x) :
    ((boardReports dev nv).foldl EnvMap.report E).view x = E.view x := by
  refine foldl_view_of_not fun rep hrep hx => h ⟨rep.1, ?_, striequ_comm.trans hx⟩
  rw [← boardReports_names dev nv]
  exact List.mem_map_of_mem hrep

theorem foldl_view_of_mem {reps : List Report} {rep : Report} (hrep : rep ∈ reps)
    (hx : striequ x rep.1) (hhook : hookOf rep.1 = .null) :
    (reps.foldl EnvMap.report E).view x ≠ none := by
  induction reps generalizing E with
  | nil => cases hrep
  | cons r reps ih =>
    rcases List.mem_cons.mp hrep with rfl | hrep
    · rw [List.foldl_cons]
      refine foldl_view_ne_none ?_
      rw [report_ok (by rw [hhook]; rfl), hx]
      simp
    · exact ih hrep

/-- The board's variables are always set. -/
theorem board_view_fixed (dev : Board) (h : Fixed x) :
    ((boardReports dev nv).foldl EnvMap.report E).view x ≠ none := by
  obtain ⟨f, hf, hx⟩ := h
  rw [← boardReports_names dev nv] at hf
  obtain ⟨rep, hrep, rfl⟩ := List.mem_map.mp hf
  refine foldl_view_of_mem hrep hx ?_
  have hfixed : Fixed rep.1 := by
    refine ⟨rep.1, ?_, striequ_refl _⟩
    rw [← boardReports_names dev nv]
    exact List.mem_map_of_mem hrep
  rw [hookOf, getstdenv_fixed hfixed]
  rfl

/-! ## §3 Setting a standard variable to its default -/

/-- No allocation and no flash operation of the call fails. -/
structure EnvOps.Succeed (ops : EnvOps) : Prop where
  mallocs : ops.mallocs.Succeed
  setenv : ops.setenv.Succeeds
  unsetenv : ops.unsetenv.fault = .none

theorem call_init (h : sp ∈ stdenvtab) (hhook : sp.chgfunc ≠ .chgHeaptop) (top : ℕ) :
    (sp.chgfunc.call top (some sp.init)).1 = true := by
  have hall : ∀ sp ∈ stdenvtab, sp.chgfunc ≠ .chgHeaptop →
      (sp.chgfunc.call 0 (some sp.init)).1 = true := by decide
  rw [call_indep top 0 hhook]
  exact hall sp h hhook

/-- The default of `heaptop` is refused. -/
theorem call_init_heaptop (h : sp ∈ stdenvtab) (hhook : sp.chgfunc = .chgHeaptop) {top : ℕ}
    (htop : initHeaptop ≤ top) : sp.chgfunc.call top (some sp.init) = (false, top) := by
  have hinit : ∀ sp ∈ stdenvtab, sp.chgfunc = .chgHeaptop → sp.init = setclientpc := by decide
  have hnum : atob setclientpc 16 = some 0x80100000 := by decide
  rw [hhook, Chgfunc.call, hinit sp h hhook, Option.getD_some, hnum]
  simp only [initHeaptop] at htop
  exact if_pos (by omega)

theorem hookOf_self (h : sp ∈ stdenvtab) : hookOf sp.name = sp.chgfunc := by
  rw [hookOf, getstdenv_self h]
  rfl

theorem no_nul_stdenvtab : ∀ sp ∈ stdenvtab, (0 : UInt8) ∉ sp.name := by
  decide

/-- `setenv` with the default of `heaptop` does nothing. -/
theorem setenv_default_heaptop {ops : EnvOps} (h : sp ∈ stdenvtab)
    (hhook : sp.chgfunc = .chgHeaptop) (htop : initHeaptop ≤ s.heaptop) :
    setenv s ops sp.name (some sp.init) = (0, s) := by
  rw [setenv, doSetenv, setenvTable, ← hookOf.eq_1, hookOf_self h, call_init_heaptop h hhook htop]
  rfl

/-- `setenv` with the default of another standard variable: the table takes it, and the
    stored entry goes. -/
theorem setenv_default {ops : EnvOps} (hstd : getstdenv name = some sp)
    (hz : (0 : UInt8) ∉ name) (hhook : sp.chgfunc ≠ .chgHeaptop) (hd : Distinct s.envvar)
    (hops : ops.Succeed) (hheld : Held s.nv es)
    (hroom : (s.envvar.enter ops.mallocs name (some sp.init)).1 = true) :
    ∃ t nv, (setenv s ops name (some sp.init)).2 = { s with envvar := t, nv } ∧
      Entered s.envvar t name (some sp.init) ∧ Held nv (unlist name es) := by
  have h := (getstdenv_some hstd).1
  have hent := enter_spec hd hops.mallocs hroom
  have hun := tgtUnsetenv_held hheld hops.unsetenv hz
  refine ⟨_, _, ?_, hent, hun⟩
  have hcall := call_init h hhook s.heaptop
  have hheap : (sp.chgfunc.call s.heaptop (some sp.init)).2 = s.heaptop := call_heaptop hhook
  have hvals : (sp.values.any fun vs => (matchval vs (some sp.init)).isNone) = false := by
    have := init_matches sp h
    cases hv : sp.values with
    | none => rfl
    | some vs => simpa [hv, ← Option.not_isSome] using this
  rw [setenv, doSetenv, setenvTable, hstd]
  simp only [Option.elim_some, hcall, hheap, Bool.not_true, Bool.false_eq_true, if_false,
    Option.bind_some, hvals, Bool.false_and, hroom, Option.any_some, striequ_refl, if_true]

/-! ## §4 The invariant -/

/-- **The two stores are in step.** -/
structure InStep (s : State) (es : List CStr) : Prop where
  inited : s.envinited = true
  distinct : Distinct s.envvar
  no_nul : ∀ n v, some (n, v) ∈ s.envvar.slots → (0 : UInt8) ∉ n
  held : Held s.nv es
  view : ∀ x, ¬Fixed x → s.envvar.lookup x = visible es x
  fixed : ∀ x, Fixed x → s.envvar.lookup x ≠ none
  heaptop : initHeaptop ≤ s.heaptop

/-- The state while `envinit` sets the defaults: those of `done` are set. -/
structure Defaulting (s : State) (E : EnvMap) (es₀ : List CStr) (done : List Stdenv) : Prop where
  inited : s.envinited = true
  distinct : Distinct s.envvar
  no_nul : ∀ n v, some (n, v) ∈ s.envvar.slots → (0 : UInt8) ∉ n
  heaptop : s.heaptop = E.heaptop
  lookup : ∀ x, s.envvar.lookup x =
    (E.view x).or (if ∃ sp ∈ done, getstdenv x = some sp then defaultOf x else none)
  held : ∃ es, Held s.nv es ∧ es.Sublist es₀ ∧ visible es = visible es₀

theorem getstdenv_eq_iff (h : sp ∈ stdenvtab) : getstdenv x = some sp ↔ striequ x sp.name :=
  ⟨fun hx => (getstdenv_some hx).2, fun hx => by rw [getstdenv_congr hx, getstdenv_self h]⟩

theorem defaultOf_std (hx : getstdenv x = some sp) :
    defaultOf x = if sp.chgfunc = .chgHeaptop then none else some (some sp.init) := by
  rw [defaultOf, hx]

/-- What is to be known about the environment that the reports have built. -/
structure Reported (E : EnvMap) (es : List CStr) (C : List CStr) : Prop where
  view : ∀ x, ¬Fixed x → E.view x = (storedEnv es).view x
  fixed : ∀ x, Fixed x → E.view x ≠ none
  heaptop : initHeaptop ≤ E.heaptop
  covered : ∀ x, (E.view x).or (defaultOf x) ≠ none → x.map toupper ∈ C
  room : C.length ≤ nvar

/-- Setting one default. -/
theorem setDefault_step {es₀ : List CStr} {done rest : List Stdenv} {ops : CStr → EnvOps}
    (hE : Reported E es₀ C) (hsplit : stdenvtab = done ++ sp :: rest)
    (hops : ∀ n, (ops n).Succeed) (h : Defaulting s E es₀ done) :
    Defaulting (setDefault ops s sp) E es₀ (done ++ [sp]) := by
  have hmem : sp ∈ stdenvtab := by simp [hsplit]
  have hnew : sp ∉ done := fun hdone => by
    have hnodup := stdenvtab_nodup.of_map
    rw [hsplit] at hnodup
    exact List.disjoint_of_nodup_append hnodup hdone (List.mem_cons_self ..)
  -- for all other names nothing changes
  have hother : ∀ x, ¬striequ x sp.name → ((∃ sp' ∈ done ++ [sp], getstdenv x = some sp') ↔
      ∃ sp' ∈ done, getstdenv x = some sp') := fun x hx => by
    have : getstdenv x ≠ some sp := mt (getstdenv_eq_iff hmem).mp hx
    simp [or_and_right, exists_or, this]
  -- so far the variable shows what was reported
  have hown : ∀ x, striequ x sp.name → s.envvar.lookup x = E.view x ∧
      ∃ sp' ∈ done ++ [sp], getstdenv x = some sp' := fun x hx => by
    have hstd := (getstdenv_eq_iff hmem).mpr hx
    refine ⟨?_, sp, by simp, hstd⟩
    rw [h.lookup, if_neg, Option.or_none]
    rintro ⟨sp', hsp', heq⟩
    rw [hstd, Option.some.injEq] at heq
    exact hnew (heq ▸ hsp')
  have hkeep : (∀ x, striequ x sp.name → (E.view x).or (defaultOf x) = E.view x) →
      Defaulting s E es₀ (done ++ [sp]) := fun hdef => by
    refine ⟨h.inited, h.distinct, h.no_nul, h.heaptop, fun x => ?_, h.held⟩
    by_cases hx : striequ x sp.name
    · rw [(hown x hx).1, if_pos (hown x hx).2, hdef x hx]
    · rw [h.lookup]
      simp only [hother x hx]
  have hgetenv : getenv s sp.name = (s.envvar.lookup sp.name).map (·.getD []) := by
    rw [getenv, if_pos h.inited]
  rw [setDefault, hgetenv, Option.isNone_map]
  by_cases hnone : s.envvar.lookup sp.name = none
  case neg =>
    rw [if_neg (by simpa using hnone)]
    refine hkeep fun x hx => ?_
    obtain ⟨v, hv⟩ := Option.ne_none_iff_exists'.mp (show E.view x ≠ none by
      rwa [← (hown x hx).1, Table.lookup_eq, look_congr hx, ← Table.lookup_eq])
    rw [hv, Option.some_or]
  case pos =>
    rw [if_pos (by simp [hnone])]
    by_cases hhook : sp.chgfunc = .chgHeaptop
    · rw [setenv_default_heaptop hmem hhook (h.heaptop ▸ hE.heaptop)]
      refine hkeep fun x hx => ?_
      rw [defaultOf_std ((getstdenv_eq_iff hmem).mpr hx), if_pos hhook, Option.or_none]
    · have hview : ∀ x, striequ x sp.name → E.view x = none := fun x hx => by
        rwa [← (hown x hx).1, Table.lookup_eq, look_congr hx, ← Table.lookup_eq]
      have hroom : (s.envvar.enter (ops sp.name).mallocs sp.name (some sp.init)).1 = true := by
        refine enter_room h.distinct (hops _).mallocs (fun k hk => ?_) (hE.covered sp.name ?_) hE.room
        · obtain ⟨n, rfl, hn⟩ := exists_of_mem_keys hk
          refine hE.covered n fun hcov => hn ?_
          rw [← Table.lookup_eq, h.lookup]
          split
          · exact hcov
          · rw [(Option.or_eq_none_iff.mp hcov).1, Option.none_or]
        · rw [defaultOf_std (getstdenv_self hmem), if_neg hhook]
          simp [hview sp.name (striequ_refl _)]
      obtain ⟨es, hheld, hsub, hvis⟩ := h.held
      obtain ⟨t, nv, heq, hent, hheld'⟩ :=
        setenv_default (getstdenv_self hmem) (no_nul_stdenvtab sp hmem) hhook h.distinct (hops _)
          hheld hroom
      rw [heq]
      refine ⟨h.inited, hent.distinct, fun n v hn => ?_, h.heaptop, fun x => ?_,
        _, hheld', (unlist_sublist _ _).trans hsub, ?_⟩
      · rcases hent.names n v hn with rfl | ⟨w, hw⟩
        · exact no_nul_stdenvtab sp hmem
        · exact h.no_nul n w hw
      · rw [hent.lookup]
        by_cases hx : striequ x sp.name
        · rw [if_pos hx, if_pos (hown x hx).2, hview x hx, Option.none_or,
            defaultOf_std ((getstdenv_eq_iff hmem).mpr hx), if_neg hhook]
        · rw [if_neg hx, h.lookup]
          simp only [hother x hx]
      · -- the stored entries of the variable, if any, were all refused
        rw [← hvis]
        funext x
        by_cases hx : striequ sp.name x
        · have hx' : striequ x sp.name := striequ_comm.trans hx
          have hstd := (getstdenv_eq_iff hmem).mpr hx'
          have hfix : ¬Fixed x := fun hf => by
            rw [getstdenv_fixed hf] at hstd
            cases hstd
          have hnone : (storedEnv es₀).view x = none := by rw [← hE.view x hfix, hview x hx']
          have hhookx : hookOf x ≠ .chgHeaptop := by
            rw [hookOf, hstd]
            exact hhook
          rw [visible, visible, storedEnv_none_of_subset hhookx hnone hsub.subset,
            storedEnv_none_of_subset hhookx hnone ((unlist_sublist _ _).trans hsub).subset]
        · exact visible_unlist_of_not hx

/-- All defaults. -/
theorem foldl_setDefault {es₀ : List CStr} {done : List Stdenv} (rest : List Stdenv)
    {ops : CStr → EnvOps} (hE : Reported E es₀ C) (hsplit : stdenvtab = done ++ rest) (hops : ∀ n, (ops n).Succeed)
    (h : Defaulting s E es₀ done) : Defaulting (rest.foldl (setDefault ops) s) E es₀ stdenvtab := by
  induction rest generalizing s done with
  | nil =>
    rw [List.append_nil] at hsplit
    rwa [hsplit]
  | cons sp rest ih =>
    exact ih (by rw [hsplit]; simp) (setDefault_step hE hsplit hops h)

/-! ## §5 Power-on and reboot -/

/-- All names that are set at power-on are among `C`. -/
structure Covers (C : List CStr) (es : List CStr) : Prop where
  covered : ∀ x, Fixed x ∨ visible es x ≠ none → x.map toupper ∈ C
  room : C.length ≤ nvar

/-- **Power-on** brings the two stores in step, when all names fit into the table. -/
theorem boot_inStep {dev : Board} {m : Report → Mallocs} {ops : CStr → EnvOps}
    (hdev : dev.devident = true) (hflash : FlashHolds flash es) (hC : Covers C es)
    (hm : ∀ rep, (m rep).Succeed) (hops : ∀ n, (ops n).Succeed) :
    ∃ es', InStep (envinit dev m ops (powerOn flash)) es' ∧ es'.Sublist es ∧
      visible es' = visible es := by
  obtain ⟨hreps, hheld⟩ := tgtMapenv_powerOn hdev hflash
  obtain ⟨nv, hnv⟩ : ∃ nv, nv = (tgtMapenv dev (powerOn flash).nv).2 := ⟨_, rfl⟩
  rw [← hnv] at hreps hheld
  -- the environment that the reports build
  obtain ⟨E, hE⟩ : ∃ E, E = (es.map entryReport ++ boardReports dev nv).foldl EnvMap.report .empty :=
    ⟨_, rfl⟩
  have hview : ∀ x, ¬Fixed x → E.view x = (storedEnv es).view x := fun x hx => by
    rw [hE, List.foldl_append, board_view_of_not dev hx]
    rfl
  have hfixed : ∀ x, Fixed x → E.view x ≠ none := fun x hx => by
    rw [hE, List.foldl_append]
    exact board_view_fixed dev hx
  have hcov : ∀ x, (E.view x).or (defaultOf x) ≠ none → x.map toupper ∈ C := fun x hx => by
    by_cases hf : Fixed x
    · exact hC.covered x (Or.inl hf)
    · rw [hview x hf] at hx
      exact hC.covered x (Or.inr hx)
  have hrep : Reported E es C := ⟨hview, hfixed, by rw [hE]; exact foldl_heaptop_le (E := EnvMap.empty), hcov, hC.room⟩
  have hz : ∀ rep ∈ es.map entryReport ++ boardReports dev nv, (0 : UInt8) ∉ rep.1 := by
    intro rep hmem
    rcases List.mem_append.mp hmem with hmem | hmem
    · obtain ⟨e, he, rfl⟩ := List.mem_map.mp hmem
      exact fun h0 => hheld.no_nul e he (List.takeWhile_subset _ h0)
    · have hall : ∀ f ∈ fixedNames, (0 : UInt8) ∉ f := by decide
      refine hall rep.1 ?_
      rw [← boardReports_names dev nv]
      exact List.mem_map_of_mem hmem
  have hstart : Shows { powerOn flash with envvar := Table.empty } .empty :=
    ⟨distinct_empty, lookup_empty, rfl, by simp [Table.empty]⟩
  have hshows := foldl_setenvTable (m := m) (C := C) hstart rfl hm hz
    (fun x hx => hcov x (by
      rw [← hE] at hx
      obtain ⟨v, hv⟩ := Option.ne_none_iff_exists'.mp hx
      rw [hv, Option.some_or]
      exact Option.some_ne_none v)) hC.room
  rw [← hE] at hshows
  obtain ⟨s₁, hs₁⟩ : ∃ s₁ : State, s₁ =
      { (es.map entryReport ++ boardReports dev nv).foldl
          (fun s rep => (setenvTable s (m rep) rep.1 rep.2).2)
          { powerOn flash with envvar := Table.empty } with nv, envinited := true } := ⟨_, rfl⟩
  have hboot : envinit dev m ops (powerOn flash) = stdenvtab.foldl (setDefault ops) s₁ := by
    rw [hs₁, ← hreps, hnv]
    rfl
  have hfirst : Defaulting s₁ E es [] := by
    rw [hs₁]
    exact ⟨rfl, hshows.distinct, hshows.no_nul, hshows.heaptop,
      fun x => by rw [hshows.lookup]; simp, es, hheld, List.Sublist.refl _, rfl⟩
  have hlast := foldl_setDefault stdenvtab hrep rfl hops hfirst
  rw [hboot]
  obtain ⟨es', hheld', hsub, hvis⟩ := hlast.held
  have hlookup : ∀ x, (stdenvtab.foldl (setDefault ops) s₁).envvar.lookup x =
      (E.view x).or (defaultOf x) := fun x => by
    rw [hlast.lookup x]
    split
    · rfl
    · rename_i hno
      have : getstdenv x = none := by
        by_contra hsome
        obtain ⟨sp, hsp⟩ := Option.ne_none_iff_exists'.mp hsome
        exact hno ⟨sp, (getstdenv_some hsp).1, hsp⟩
      rw [defaultOf, this]
  refine ⟨es', ⟨hlast.inited, hlast.distinct, hlast.no_nul, hheld', fun x hx => ?_, fun x hx => ?_,
    hlast.heaptop ▸ hrep.heaptop⟩, hsub, hvis⟩
  · rw [hlookup, hview x hx, hvis]
    rfl
  · rw [hlookup]
    obtain ⟨v, hv⟩ := Option.ne_none_iff_exists'.mp (hfixed x hx)
    rw [hv, Option.some_or]
    exact Option.some_ne_none v

/-- The table of a state in step covers what its flash will set. -/
theorem InStep.covers (h : InStep s es) : Covers (keys s.envvar.slots) es where
  covered x hx := by
    by_contra hmem
    have hnone := look_eq_none_iff.mpr hmem
    rw [← Table.lookup_eq] at hnone
    rcases hx with hx | hx
    · exact h.fixed x hx hnone
    · by_cases hf : Fixed x
      · exact h.fixed x hf hnone
      · exact hx (h.view x hf ▸ hnone)
  room := by
    rw [← s.envvar.length_eq]
    exact List.length_filterMap_le _ _

/-- **Rebooting** a state in step brings its variables back. -/
theorem reboot_lookup {dev : Board} {m : Report → Mallocs} {ops : CStr → EnvOps}
    (hdev : dev.devident = true) (h : InStep s es) (hm : ∀ rep, (m rep).Succeed)
    (hops : ∀ n, (ops n).Succeed) (hx : ¬Fixed x) :
    getenv (envinit dev m ops (powerOn s.nv.flash)) x = getenv s x := by
  obtain ⟨es', hboot, -, hvis⟩ := boot_inStep hdev h.held.flashHolds h.covers hm hops
  rw [getenv, getenv, if_pos hboot.inited, if_pos h.inited, hboot.view x hx, h.view x hx, hvis]

end Pmon.Env
