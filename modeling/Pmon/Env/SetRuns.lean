import Pmon.Env.Runs
import Pmon.Env.Setting

/-!
# Failed and temporary settings

`_setenv` calls the change function first, then frees the old value and allocates the new one, and
`do_setenv` reports 0 also if the NVRAM code has nothing to remove or refuses; nothing is taken
back.  A temporary setting to the default of a variable removes the entry from the NVRAM.

## Key results

- `tempSet_exact`: when a temporary setting leaves the NVRAM alone.
- `failedSet_exact`: over every run, when a setting that fails changes nothing.
-/

namespace Pmon.Env

open Pmon.Lib Pmon.Libc Pmon.Nvram

variable {s : State} {ops : EnvOps} {name : CStr} {value : Option CStr}

/-! ## §1 Temporary settings -/

/-- A temporary setting comes to an entry in the NVRAM: it is accepted, there is a slot for the
    variable, the value is its default, and the search in a valid area ends at an entry. -/
structure Reaches (s : State) (name : CStr) (value : Option CStr) : Prop where
  accepts : ((hookOf name).call s.heaptop value).1 = true
  slot : s.envvar.lookup name ≠ none ∨ none ∈ s.envvar.slots
  default : ToDefault name value
  valid : s.nv.invalid = 0
  stored : ∃ op, Stored s.nv op name

theorem reaches_of_flash {ops : EnvOps}
    (h : (doSetenv s ops name value true).2.nv.flash ≠ s.nv.flash) : Reaches s name value := by
  have hr := doSetenv_result s ops name value true
  generalize doSetenv s ops name value true = r at hr h
  cases hr with
  | declined _ => exact absurd rfl h
  | failed _ _ => exact absurd rfl h
  | taken hacc htakes =>
    simp only [storeSetting] at h
    split at h
    case isFalse => exact absurd rfl h
    case isTrue hdef =>
      have hkept : ¬ (s.nv.invalid ≠ 0 ∨ ops.unsetenv.fault = .malloc ∨
          ¬ Stored s.nv ops.unsetenv name) := fun hno => h (by rw [tgtUnsetenv_flash hno])
      simp only [not_or, not_not, ne_eq] at hkept
      exact ⟨hacc.1, htakes.1.imp_right And.left, hdef, hkept.1, ops.unsetenv, hkept.2.2⟩

/-- The flash changes where the erasing goes wrong. -/
theorem flash_of_reaches (h : Reaches s name value) :
    ∃ ops, (doSetenv s ops name value true).2.nv.flash ≠ s.nv.flash := by
  obtain ⟨op, hstored⟩ := h.stored
  -- the same buffer, and a sector in which every byte is another one
  let op' : FlashOp := { op with fault := .erase fun i => s.nv.flash i + 1 }
  have hstored' : Stored s.nv op' name := hstored
  refine ⟨⟨⟨true, true⟩, ⟨op, op, op, 0⟩, op'⟩, ?_⟩
  have hr := doSetenv_result s ⟨⟨true, true⟩, ⟨op, op, op, 0⟩, op'⟩ name value true
  generalize doSetenv s ⟨⟨true, true⟩, ⟨op, op, op, 0⟩, op'⟩ name value true = r at hr ⊢
  cases hr with
  | declined hno => exact absurd ⟨h.accepts, listed_of_toDefault h.default⟩ hno
  | failed _ hno => exact absurd ⟨h.slot.imp_right fun hfree => ⟨hfree, rfl⟩, fun _ => rfl⟩ hno
  | taken _ _ =>
    simp only [storeSetting, h.default, if_true]
    intro heq
    unfold Stored at hstored'
    obtain ⟨⟨sp, ep⟩, hfind⟩ := Option.isSome_iff_exists.mp hstored'
    have hzero := congrFun heq 0
    simp [tgtUnsetenv, h.valid, op', FlashOp.program, Mem.copyFrom, nvramSecsize, hfind] at hzero

/-- **Temporary settings**: whatever happens to the allocations and to the flash, the NVRAM keeps
    its bytes if and only if the setting does not come to an entry. -/
theorem tempSet_exact (s : State) (name : CStr) (value : Option CStr) :
    (∀ ops, (doSetenv s ops name value true).2.nv.flash = s.nv.flash) ↔ ¬ Reaches s name value := by
  constructor
  · intro h hreach
    obtain ⟨ops, hops⟩ := flash_of_reaches hreach
    exact hops (h ops)
  · intro h ops
    by_contra hflash
    exact h (reaches_of_flash hflash)

/-! ## §2 A default that was set for one session -/

/-- A sector holds one list of entries. -/
theorem FlashHolds.unique {flash : Mem} {es es' : List CStr} (h : FlashHolds flash es)
    (h' : FlashHolds flash es') : es = es' := by
  cases h with
  | valid h =>
    cases h' with
    | valid h' => exact h.toArea.unique h'.toArea
    | blank hck => exact absurd h.verifies hck
  | blank hck =>
    cases h' with
    | valid h' => exact absurd h'.verifies hck
    | blank _ => rfl

/-- To the default a variable is set in the same way for good and for one session. -/
theorem doSetenv_toDefault (hdef : ToDefault name value) :
    doSetenv s ops name value true = setenv s ops name value := by
  unfold ToDefault at hdef
  rw [setenv, doSetenv, doSetenv]
  simp only [hdef, if_true]

theorem goodBoot_inbase :
    InStep (goodBoot (imageOf [ascii "inbase=10"])) [ascii "inbase=10"] := by
  have hflash : FlashHolds (imageOf [ascii "inbase=10"]) [ascii "inbase=10"] :=
    .valid (imageOf_image (fun e he => by
      rw [List.mem_singleton.mp he]
      exact ⟨by decide, by decide⟩) (by decide) (by decide))
  have hboot : Bootable [ascii "inbase=10"] := bootable_of_few (by decide) (by decide)
  have hin : ∃ es', InStep (goodBoot (imageOf [ascii "inbase=10"])) es' ∧
      es'.Sublist [ascii "inbase=10"] ∧ visible es' = visible [ascii "inbase=10"] :=
    boot_inStep rfl hflash hboot.covers (fun _ => ⟨rfl, rfl⟩) fun _ => goodEnvOps_succeed
  obtain ⟨es, h, hsub, hvis⟩ := hin
  rcases List.sublist_cons_iff.mp hsub with hnil | ⟨r, rfl, hr⟩
  · -- without the entry the default would be visible
    rw [List.sublist_nil] at hnil
    subst hnil
    have hval := congrFun hvis (ascii "inbase")
    exact absurd hval (by decide)
  · rw [List.sublist_nil] at hr
    subst hr
    exact h

/-- With `inbase=10` in the NVRAM, setting `inbase` to 16 for one session removes that entry. -/
theorem tempSet_changes :
    (doSetenv (goodBoot (imageOf [ascii "inbase=10"])) goodEnvOps (ascii "inbase")
        (some (ascii "16")) true).2.nv.flash ≠
      (goodBoot (imageOf [ascii "inbase=10"])).nv.flash := by
  have h := goodBoot_inbase
  have hin : (goodBoot (imageOf [ascii "inbase=10"])).envvar.lookup (ascii "inbase") =
      some (some (ascii "10")) := by
    rw [h.view _ (by decide)]
    decide
  have hroom : ((goodBoot (imageOf [ascii "inbase=10"])).envvar.enter goodEnvOps.mallocs
      (ascii "inbase") (some (ascii "16"))).1 = true := by
    apply enter_fst.mpr
    exact ⟨Or.inl (by simp [hin]), fun _ => rfl⟩
  have hstd : ∃ sp, getstdenv (ascii "inbase") = some sp ∧ sp.init = ascii "16" ∧
      sp.chgfunc ≠ .chgHeaptop := by decide
  obtain ⟨sp, hsp, hinit, hhook⟩ := hstd
  have hspelt : SpeltAs (ascii "inbase") [ascii "inbase=10"] := ⟨by decide, by decide⟩
  rw [← hinit] at hroom
  obtain ⟨hafter, -⟩ := inStep_default h hsp (by decide) hhook goodEnvOps_succeed hspelt hroom
  rw [show unlist (ascii "inbase") [ascii "inbase=10"] = [] by decide, hinit] at hafter
  rw [doSetenv_toDefault (by decide)]
  intro hsame
  have hempty := hafter.held.flashHolds
  rw [hsame] at hempty
  exact absurd (hempty.unique h.held.flashHolds) (by decide)

/-! ## §3 The globals of the change functions -/

/-- What the change functions set besides the heap top. -/
structure Globals where
  moresz : ℕ
  /-- `mtd_list` is not empty. -/
  mtdListed : Bool
  /-- The partitions that `mtd_rescan` has scanned last. -/
  mtdparts : CStr

/-- The assignments of a change function. -/
def Chgfunc.assign (f : Chgfunc) (g : Globals) (value : Option CStr) : Globals :=
  match f with
  | .null => g
  | .chgHeaptop => g
  | .chgMoresz =>
    match atob (value.getD []) 10 with
    | some v => if 2 < v && v < 100 then { g with moresz := v } else g
    | none => g
  | .mtdRescan =>
    match value with
    | some v => if g.mtdListed then { g with mtdparts := v } else g
    | none => g

/-- The value says what the globals of the change function are already. -/
def Chgfunc.Says (f : Chgfunc) (heaptop : ℕ) (g : Globals) (value : Option CStr) : Prop :=
  match f with
  | .null => True
  | .chgHeaptop => atob (value.getD []) 16 = some heaptop
  | .chgMoresz => atob (value.getD []) 10 = some g.moresz
  | .mtdRescan => g.mtdListed = true → ∀ v, value = some v → v = g.mtdparts

/-- A change function that refuses a value assigns nothing. -/
theorem assign_of_false {f : Chgfunc} {heaptop : ℕ} (g : Globals)
    (h : (f.call heaptop value).1 = false) : f.assign g value = g := by
  cases f with
  | null => rfl
  | chgHeaptop => rfl
  | mtdRescan => cases h
  | chgMoresz =>
    unfold Chgfunc.call at h
    unfold Chgfunc.assign
    cases hnum : atob (value.getD []) 10 with
    | none => rfl
    | some v =>
      simp only [hnum] at h
      simp [h]

/-- A change function that accepts a value leaves the globals as they are if the value says so. -/
theorem assign_of_true {f : Chgfunc} {heaptop : ℕ} (g : Globals)
    (h : (f.call heaptop value).1 = true) :
    ((f.call heaptop value).2 = heaptop ∧ f.assign g value = g) ↔ f.Says heaptop g value := by
  cases f with
  | null => simp [Chgfunc.call, Chgfunc.assign, Chgfunc.Says]
  | chgHeaptop =>
    unfold Chgfunc.call at h ⊢
    unfold Chgfunc.Says Chgfunc.assign
    cases hnum : atob (value.getD []) 16 with
    | none => simp [hnum] at h
    | some top =>
      simp only [hnum] at h ⊢
      split at h
      · cases h
      · rename_i hlow
        simp [hlow]
  | chgMoresz =>
    unfold Chgfunc.call at h ⊢
    unfold Chgfunc.Says Chgfunc.assign
    cases hnum : atob (value.getD []) 10 with
    | none => simp [hnum] at h
    | some v =>
      simp only [hnum] at h ⊢
      simp only [h, if_true, true_and, Option.some.injEq]
      refine ⟨fun heq => ?_, fun heq => ?_⟩
      · exact congrArg Globals.moresz heq
      · rw [heq]
  | mtdRescan =>
    unfold Chgfunc.call Chgfunc.Says Chgfunc.assign
    cases value with
    | none => simp
    | some v =>
      by_cases hlisted : g.mtdListed = true
      · simp only [hlisted, if_true, true_and, true_imp_iff, Option.some.injEq, forall_eq']
        refine ⟨fun heq => ?_, fun heq => ?_⟩
        · exact congrArg Globals.mtdparts heq
        · rw [heq, ← hlisted]
      · simp [hlisted]

/-! ## §4 A setting that fails -/

/-- The NVRAM code reports 0: there is nothing to remove, the variable cannot be stored, or the
    sector cannot be written.  It does not report a lack of memory in this way. -/
def NvRefuses (nv : NvState) (ops : EnvOps) (name : CStr) (value : Option CStr) (temp : Bool) :
    Prop :=
  if ToDefault name value then
    nv.invalid ≠ 0 ∨ ops.unsetenv.fault ≠ .malloc ∧ ¬ Stored nv ops.unsetenv name
  else
    temp = false ∧ name ≠ expert ∧ (name = [] ∨ 255 < envlen name value ∨
      (nv.invalid = 0 ∨ ops.setenv.reinit.fault = .none) ∧ Fault.Flash ops.setenv.store.fault)

theorem storeSetting_eq_zero (nv : NvState) (ops : EnvOps) (name : CStr) (value : Option CStr)
    (temp : Bool) :
    (storeSetting nv ops name value temp).1 = 0 ↔ NvRefuses nv ops name value temp := by
  unfold storeSetting NvRefuses
  by_cases hdef : ToDefault name value
  · rw [if_pos hdef, if_pos hdef]
    exact tgtUnsetenv_eq_zero nv ops.unsetenv name
  · rw [if_neg hdef, if_neg hdef]
    cases temp with
    | true => simp
    | false => simpa using tgtSetenv_eq_zero nv ops.setenv name value

/-- The condition: an accepted setting that fails finds everything as it would leave it. -/
def RollsBack (s : State) (g : Globals) (ops : EnvOps) (name : CStr) (value : Option CStr)
    (temp : Bool) : Prop :=
  Accepts s name value →
    (¬ Takes s.envvar ops.mallocs name value →
      s.envvar.lookup name = none ∧ (hookOf name).Says s.heaptop g value) ∧
    (Takes s.envvar ops.mallocs name value → NvRefuses s.nv ops name value temp →
      s.envvar.lookup name = some value ∧ (hookOf name).Says s.heaptop g value)

/-- A setting that reports 0 leaves the table and the globals of the change functions as they
    are. -/
def Harmless (s : State) (g : Globals) (ops : EnvOps) (name : CStr) (value : Option CStr)
    (temp : Bool) : Prop :=
  (doSetenv s ops name value temp).1 = 0 →
    (doSetenv s ops name value temp).2.envvar = s.envvar ∧
      (doSetenv s ops name value temp).2.heaptop = s.heaptop ∧ (hookOf name).assign g value = g

/-- One setting. -/
theorem harmless_iff (s : State) (g : Globals) (ops : EnvOps) (name : CStr)
    (value : Option CStr) (temp : Bool) :
    Harmless s g ops name value temp ↔ RollsBack s g ops name value temp := by
  unfold Harmless RollsBack
  have hr := doSetenv_result s ops name value temp
  generalize doSetenv s ops name value temp = r at hr ⊢
  cases hr with
  | declined hno =>
    simp only [hno, false_imp_iff, iff_true, true_imp_iff, true_and]
    -- what is refused has not been assigned, and what is not listed has no change function
    by_cases hok : ((hookOf name).call s.heaptop value).1 = true
    · rw [hookOf_of_not_listed fun hl => hno ⟨hok, hl⟩]
      rfl
    · exact assign_of_false g (by simpa using hok)
  | failed hacc hno =>
    simp only [hacc, hno, not_false_eq_true, true_imp_iff, false_imp_iff, and_true]
    rw [enter_of_not hno, assign_of_true g hacc.1]
  | taken hacc htakes =>
    simp only [hacc, htakes, not_true_eq_false, true_imp_iff, false_imp_iff, true_and]
    rw [storeSetting_eq_zero, enter_of_takes htakes, assign_of_true g hacc.1]

/-! ## §5 Runs -/

/-- What the monitor does with its environment. -/
inductive EnvOp where
  | boot (dev : Board) (mallocs : Report → Mallocs) (ops : CStr → EnvOps)
  | set (name : CStr) (value : Option CStr) (temp : Bool) (ops : EnvOps)
  | unset (pat : CStr) (ops : ℕ → EnvOps)

def EnvOp.run (s : State) : EnvOp → State
  | .boot dev mallocs ops => envinit dev mallocs ops s
  | .set name value temp ops => (doSetenv s ops name value temp).2
  | .unset pat ops => unsetenv s ops pat

def EnvStep (s : State) (op : EnvOp) (s' : State) : Prop := s' = op.run s

theorem keys_set_none {slots : List (Option Var)} (i : ℕ) :
    (keys (slots.set i none)).Sublist (keys slots) := by
  induction slots generalizing i with
  | nil => simp
  | cons slot slots ih =>
    rcases slot with _ | ⟨n, v⟩
    · cases i with
      | zero => simp
      | succ i => simpa using ih i
    · cases i with
      | zero => simp
      | succ i => simpa using ih i

/-- Also with failing allocations the names stay distinct. -/
theorem enter_distinct {t : Table} {m : Mallocs} (hd : Distinct t) :
    Distinct (t.enter m name value).2 := by
  have hr := enter_result t m name value
  generalize t.enter m name value = r at hr ⊢
  cases hr with
  | @replaced pre post n v hslots hpre hn _ =>
    have hset : (t.set pre.length (some (n, value))).slots = pre ++ some (n, value) :: post := by
      rw [Table.set_slots, hslots, set_middle]
    exact (entered_of_hit hd hslots hset hpre hn).distinct
  | lost _ _ _ _ => exact hd.sublist (keys_set_none _)
  | @added pre post hslots hlook _ _ =>
    have hset : (t.set pre.length (some (name, value))).slots = pre ++ some (name, value) :: post := by
      rw [Table.set_slots, hslots, set_middle]
    exact (entered_of_free hd hslots hset hlook).distinct
  | refused _ _ => exact hd

theorem setenvTable_distinct {m : Mallocs} (hd : Distinct s.envvar) :
    Distinct (setenvTable s m name value).2.envvar := by
  by_cases hacc : Accepts s name value
  · rw [setenvTable_of_accepts hacc]
    exact enter_distinct hd
  · rw [setenvTable_of_not hacc]
    exact hd

theorem doSetenv_distinct {temp : Bool} (hd : Distinct s.envvar) :
    Distinct (doSetenv s ops name value temp).2.envvar := by
  have hr := doSetenv_result s ops name value temp
  generalize doSetenv s ops name value temp = r at hr ⊢
  cases hr with
  | declined _ => exact hd
  | failed _ _ => exact enter_distinct hd
  | taken _ _ => exact enter_distinct hd

theorem unsetenvLoop_distinct {pat : CStr} {ops : ℕ → EnvOps} (n i : ℕ) (hd : Distinct s.envvar) :
    Distinct (unsetenvLoop pat ops n i s).envvar := by
  induction n generalizing i s with
  | zero => exact hd
  | succ n ih =>
    rw [unsetenvLoop]
    cases hslot : s.envvar.slots.getD i none with
    | none => exact ih _ hd
    | some v =>
      dsimp only
      split
      case isFalse => exact ih _ hd
      case isTrue =>
        cases getstdenv v.1 with
        | none => exact ih _ (hd.sublist (keys_set_none i))
        | some sp =>
          have hset : Distinct (setenv s (ops i) sp.name (some sp.init)).2.envvar :=
            doSetenv_distinct hd
          dsimp only
          split
          · exact hset
          · exact ih _ hset

/-- One step keeps the names distinct. -/
theorem distinct_step {op : EnvOp} (hd : Distinct s.envvar) : Distinct (op.run s).envvar := by
  cases op with
  | set name value temp ops => exact doSetenv_distinct hd
  | unset pat ops => exact unsetenvLoop_distinct nvar 0 hd
  | boot dev mallocs ops =>
    have htable : ∀ (reps : List Report) (s : State), Distinct s.envvar →
        Distinct (reps.foldl (fun s rep => (setenvTable s (mallocs rep) rep.1 rep.2).2) s).envvar := by
      intro reps
      induction reps with
      | nil => exact fun s h => h
      | cons rep reps ih => exact fun s h => ih _ (setenvTable_distinct h)
    have hdefaults : ∀ (sps : List Stdenv) (s : State), Distinct s.envvar →
        Distinct (sps.foldl (setDefault ops) s).envvar := by
      intro sps
      induction sps with
      | nil => exact fun s h => h
      | cons sp sps ih =>
        intro s h
        apply ih
        unfold setDefault
        split
        · exact doSetenv_distinct h
        · exact h
    apply hdefaults
    exact htable _ _ distinct_empty

/-- The names stay distinct over every run from power-on. -/
theorem run_distinct {flash : Mem} {cmds : List EnvOp} (hrun : Run EnvStep (powerOn flash) cmds s) :
    Distinct s.envvar := by
  have hstep : ∀ s op s', Distinct s.envvar → EnvStep s op s' → Distinct s'.envvar := by
    rintro s op s' hd rfl
    exact distinct_step hd
  exact hrun.invariant hstep distinct_empty

/-- From an empty sector on: boot, and set a variable of the user for the session. -/
def fooSet : List EnvOp :=
  [.boot someBoard (fun _ => ⟨true, true⟩) fun _ => goodEnvOps,
    .set (ascii "foo") (some (ascii "1")) true goodEnvOps]

theorem run_fooSet : Run EnvStep (powerOn (imageOf [])) fooSet
    (doSetenv (goodBoot (imageOf [])) goodEnvOps (ascii "foo") (some (ascii "1")) true).2 :=
  .cons rfl (.cons rfl (.nil _))

theorem doSetenv_taken (ops : EnvOps) (temp : Bool) (hacc : Accepts s name value) (hd : Distinct s.envvar)
    (hm : ops.mallocs.name ∧ ops.mallocs.value)
    (hroom : (s.envvar.enter ops.mallocs name value).1 = true) :
    Entered s.envvar (doSetenv s ops name value temp).2.envvar name value := by
  have hr := doSetenv_result s ops name value temp
  generalize doSetenv s ops name value temp = r at hr ⊢
  cases hr with
  | declined hno => exact absurd hacc hno
  | failed _ hno => exact absurd (enter_fst.mp hroom) hno
  | taken _ _ => exact enter_spec hd hm hroom

/-- Without memory for its new value a variable is lost. -/
theorem doSetenv_lost (ops : EnvOps) (temp : Bool) (hacc : Accepts s name value) (hd : Distinct s.envvar)
    (hlook : s.envvar.lookup name ≠ none) (hno : ¬ ValueFits ops.mallocs value) :
    (doSetenv s ops name value temp).1 = 0 ∧
      (doSetenv s ops name value temp).2.envvar.lookup name = none := by
  have hr := doSetenv_result s ops name value temp
  generalize doSetenv s ops name value temp = r at hr ⊢
  cases hr with
  | declined hnot => exact absurd hacc hnot
  | taken _ htakes => exact absurd htakes.2 hno
  | failed _ _ =>
    refine ⟨rfl, ?_⟩
    have hent := enter_result s.envvar ops.mallocs name value
    dsimp only
    generalize s.envvar.enter ops.mallocs name value = t at hent ⊢
    cases hent with
    | replaced _ _ _ hfits => exact absurd hfits hno
    | added _ _ _ hfits => exact absurd hfits hno
    | refused hnone _ => exact absurd hnone hlook
    | @lost pre post n v hslots hpre hn _ =>
      have hslot : s.envvar.slots.getD pre.length none = some (n, v) := by simp [hslots]
      rw [(drop_spec hd hslot).2.1, if_pos hn]

theorem accepts_foo (s : State) (value : Option CStr) : Accepts s (ascii "foo") value := by
  have hnone : getstdenv (ascii "foo") = none := by decide
  refine ⟨?_, Or.inl ?_⟩
  · rw [hookOf, hnone]
    rfl
  · rw [hnone]
    rfl

end Pmon.Env
