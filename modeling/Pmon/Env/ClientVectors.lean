import Mathlib.Algebra.Group.Nat.Defs
import Pmon.Env.ClientStack

/-!
# The vectors on the client's stack

Both loops, over the arguments and over the variables, fill a vector of pointers and put the
strings, one behind the other, somewhere above it.  Where the strings of the variables begin is
rounded up, and the sizes do not reckon with that.

## Key results

- `builds_copyArgs`, `builds_envbuild`: what the two loops write.
- `initstack_exact`: exactly when all of it is on the stack that was reserved.
- `initstack_over`: a string of the environment above the old stack pointer.
-/

namespace Pmon.Env

open Pmon.Lib Pmon.Libc

variable {m : Mem} {ws hw : List Write} {w : Write} {vsp ssp a sp : ℕ} {e : CStr}
  {es av : List CStr} {slots : List (Option Var)} {t : Table} {addenv : Bool}

/-! ## §1 Strings one behind the other -/

/-- Where the strings begin. -/
def starts : ℕ → List CStr → List ℕ
  | _, [] => []
  | a, e :: es => a :: starts (a + (e.length + 1)) es

theorem length_starts : (starts a es).length = es.length := by
  induction es generalizing a with
  | nil => rfl
  | cons e es ih => rw [starts, List.length_cons, ih, List.length_cons]

/-- Each of the strings stands where it begins. -/
theorem holds_starts (h : m.Holds a (strings es)) :
    List.Forall₂ (fun p e => m.Holds p (e ++ [0])) (starts a es) es := by
  induction es generalizing a with
  | nil => exact .nil
  | cons e es ih =>
    rw [strings_cons, ← List.singleton_append, ← List.append_assoc, Mem.holds_append,
      List.length_append, List.length_singleton] at h
    exact .cons h.1 (ih h.2)

/-- The strings are within their bytes. -/
theorem starts_bounds :
    ∀ x ∈ (starts a es).zip es, a ≤ x.1 ∧ x.1 + (x.2.length + 1) ≤ a + (strings es).length := by
  induction es generalizing a with
  | nil => simp [starts]
  | cons e es ih =>
    rw [starts, List.zip_cons_cons, List.forall_mem_cons, strings_cons, List.length_append,
      List.length_cons]
    refine ⟨by dsimp only; omega, fun x hx => ?_⟩
    have hbounds := ih x hx
    omega

theorem starts_lt : ∀ p ∈ starts a es, p < a + (strings es).length := by
  induction es generalizing a with
  | nil => exact fun p hp => absurd hp List.not_mem_nil
  | cons e es ih =>
    rw [starts, List.forall_mem_cons, strings_cons, List.length_append, List.length_cons]
    refine ⟨by omega, fun p hp => ?_⟩
    have hlt := ih p hp
    omega

/-- One string ends before the next one begins. -/
def Before (x y : ℕ × CStr) : Prop := x.1 + (x.2.length + 1) ≤ y.1

theorem pairwise_starts : ((starts a es).zip es).Pairwise Before := by
  induction es generalizing a with
  | nil => exact .nil
  | cons e es ih =>
    rw [starts, List.zip_cons_cons]
    exact .cons (fun y hy => (starts_bounds y hy).1) ih

/-! ## §2 Vectors -/

/-- The bytes of a vector. -/
def vector (ps : List ℕ) : List UInt8 := ps.flatMap le32

theorem length_vector (ps : List ℕ) : (vector ps).length = 4 * ps.length := by
  induction ps with
  | nil => rfl
  | cons p ps ih =>
    have hword : (le32 p).length = 4 := rfl
    rw [vector, List.flatMap_cons, List.length_append, hword, List.length_cons, ← vector, ih]
    omega

theorem holds_vector_end {ps : List ℕ} (h : m.Holds a (vector ps))
    (hend : m.Holds (a + 4 * ps.length) (le32 0)) : m.Holds a (vector (ps ++ [0])) := by
  have hsplit : vector (ps ++ [0]) = vector ps ++ le32 0 := by
    rw [vector, List.flatMap_append]
    rfl
  rw [hsplit, Mem.holds_append, length_vector]
  exact ⟨h, hend⟩

/-- Writes that build a vector at `vsp` with strings at `ssp`, and touch nothing else. -/
structure Builds (ws : List Write) (vsp ssp : ℕ) (es : List CStr) : Prop where
  vector : ∀ m, (written m ws).Holds vsp (vector (starts ssp es))
  text : ∀ m, (written m ws).Holds ssp (strings es)
  within : ∀ w ∈ ws, w.In vsp (vsp + 4 * es.length) ∨ w.In ssp (ssp + (strings es).length)
  reaches : es ≠ [] → ∃ w ∈ ws, w.stop = ssp + (strings es).length

theorem builds_nil : Builds [] vsp ssp [] :=
  ⟨fun _ => trivial, fun _ => trivial, fun _ h => absurd h List.not_mem_nil, fun h => absurd rfl h⟩

/-- The writes of a string. -/
structure Writes (hw : List Write) (a : ℕ) (e : CStr) : Prop where
  text : ∀ m, (written m hw).Holds a (e ++ [0])
  within : ∀ w ∈ hw, w.In a (a + (e.length + 1))
  reaches : ∃ w ∈ hw, w.stop = a + (e.length + 1)

/-- **One turn** of either loop: a pointer, a string, and the rest behind them. -/
theorem builds_cons (hlow : vsp + 4 * (es.length + 1) ≤ ssp) (hhead : Writes hw ssp e)
    (hrest : Builds ws (vsp + 4) (ssp + (e.length + 1)) es) :
    Builds (ptrWrite vsp ssp :: (hw ++ ws)) vsp ssp (e :: es) := by
  have hlength : (strings (e :: es)).length = e.length + 1 + (strings es).length := by
    rw [strings_cons, List.length_append, List.length_cons]
    omega
  have hptr : (ptrWrite vsp ssp).In vsp (vsp + 4) := ⟨Nat.le_refl _, Nat.le_refl _⟩
  have hoff : Off ws vsp 4 := fun w hw => by
    rcases hrest.within w hw with h | h
    · exact .inr h.1
    · exact .inr (by have := h.1; omega)
  have hoffText : Off ws ssp (e.length + 1) := fun w hw => by
    rcases hrest.within w hw with h | h
    · exact .inl (by have := h.2; omega)
    · exact .inr h.1
  have hoffHead : Off hw vsp 4 := fun w hw => .inr (by have := (hhead.within w hw).1; omega)
  refine ⟨fun m => ?_, fun m => ?_, fun w hmem => ?_, fun _ => ?_⟩
  · -- The pointer is below all that comes later.
    rw [starts, vector, List.flatMap_cons, Mem.holds_append]
    refine ⟨?_, ?_⟩
    · rw [written_cons, holds_written_of_off (off_append.mpr ⟨hoffHead, hoff⟩)]
      exact Mem.holds_store _ _ _
    · rw [written_cons, written_append]
      exact hrest.vector _
  · have hsplit : strings (e :: es) = (e ++ [0]) ++ strings es := by
      rw [strings_cons, List.append_assoc]
      rfl
    rw [hsplit, Mem.holds_append, written_cons, List.length_append, List.length_singleton]
    refine ⟨holds_written_append (hhead.text _) ?_, ?_⟩
    · rw [List.length_append, List.length_singleton]
      exact hoffText
    · rw [written_append]
      exact hrest.text _
  · rw [hlength]
    rcases List.mem_cons.mp hmem with rfl | hmem
    · exact .inl (hptr.mono (Nat.le_refl _) (by rw [List.length_cons]; omega))
    · rcases List.mem_append.mp hmem with hmem | hmem
      · exact .inr ((hhead.within w hmem).mono (Nat.le_refl _) (by omega))
      · rcases hrest.within w hmem with h | h
        · exact .inl (h.mono (by omega) (by rw [List.length_cons]; omega))
        · exact .inr (h.mono (by omega) (by omega))
  · rw [hlength]
    cases es with
    | nil =>
      obtain ⟨w, hmem, hstop⟩ := hhead.reaches
      exact ⟨w, List.mem_cons_of_mem _ (List.mem_append_left _ hmem), by rw [hstop]; rfl⟩
    | cons e' es =>
      obtain ⟨w, hmem, hstop⟩ := hrest.reaches (List.cons_ne_nil _ _)
      exact ⟨w, List.mem_cons_of_mem _ (List.mem_append_right _ hmem), by rw [hstop]; omega⟩

/-! ## §3 The loops -/

theorem writes_str : Writes [strWrite a e] a e where
  text _ := Mem.holds_store _ _ _
  within w hw := by
    rw [List.mem_singleton.mp hw]
    refine ⟨Nat.le_refl _, ?_⟩
    simp [Write.stop, strWrite]
  reaches := ⟨_, List.mem_singleton_self _, by simp [Write.stop, strWrite]⟩

/-- A value comes in the place of the NUL behind its name. -/
theorem writes_value {n v : CStr} :
    Writes [strWrite a n, strWrite (a + n.length) v] a (n ++ v) where
  text m := by
    have hname : (m.store a (n ++ [0])).Holds a n :=
      (Mem.holds_append.mp (Mem.holds_store m a (n ++ [0]))).1
    rw [List.append_assoc, Mem.holds_append]
    refine ⟨?_, Mem.holds_store _ _ _⟩
    rw [written_cons, holds_written_of_off]
    · exact hname
    · exact List.forall_mem_singleton.mpr (.inr (Nat.le_refl _))
  within w hw := by
    rcases List.mem_cons.mp hw with rfl | hw
    · refine ⟨Nat.le_refl _, ?_⟩
      simp [Write.stop, strWrite]
    · rw [List.mem_singleton.mp hw]
      refine ⟨Nat.le_add_right _ _, ?_⟩
      simp [Write.stop, strWrite]
      omega
  reaches := by
    refine ⟨_, List.mem_cons_of_mem _ (List.mem_singleton_self _), ?_⟩
    simp [Write.stop, strWrite]
    omega

/-- **The arguments.** -/
theorem builds_copyArgs (hlow : vsp + 4 * av.length ≤ ssp) :
    ∃ ws, copyArgs av vsp ssp = (ws, vsp + 4 * av.length, ssp + (strings av).length) ∧
      Builds ws vsp ssp av := by
  induction av generalizing vsp ssp with
  | nil => exact ⟨[], rfl, builds_nil⟩
  | cons arg av ih =>
    rw [List.length_cons] at hlow
    obtain ⟨ws, hcopy, hbuilds⟩ := @ih (vsp + 4) (ssp + (arg.length + 1)) (by omega)
    refine ⟨_, ?_, builds_cons hlow writes_str hbuilds⟩
    rw [copyArgs, hcopy, strings_cons, List.length_append, List.length_cons, List.length_cons]
    simp only [List.singleton_append, Prod.mk.injEq, true_and]
    omega

/-- The strings of the variables. -/
def envStrings (slots : List (Option Var)) : List CStr :=
  slots.filterMap fun slot => slot.map fun (name, value) => name ++ ascii "=" ++ value.getD []

theorem envsize_eq (slots : List (Option Var)) :
    envsize slots = ((envStrings slots).length, (strings (envStrings slots)).length) := by
  induction slots with
  | nil => rfl
  | cons slot slots ih =>
    rcases slot with _ | ⟨name, value⟩
    · exact ih
    · have hcons : envStrings (some (name, value) :: slots) =
          (name ++ ascii "=" ++ value.getD []) :: envStrings slots := rfl
      have hvalue : valueLength value = (value.getD []).length := by cases value <;> rfl
      have hsign : (ascii "=").length = 1 := rfl
      rw [envsize, ih, hcons, strings_cons, List.length_cons, List.length_append, List.length_cons,
        List.length_append, List.length_append, hvalue, hsign]
      simp only [Prod.mk.injEq, true_and]
      omega

/-- **The variables**, with a null pointer behind the last one. -/
theorem builds_envbuild (hlow : vsp + 4 * (envStrings slots).length ≤ ssp) :
    ∃ ws, envbuild slots vsp ssp =
        ws ++ [ptrWrite (vsp + 4 * (envStrings slots).length) 0] ∧
      Builds ws vsp ssp (envStrings slots) := by
  induction slots generalizing vsp ssp with
  | nil => exact ⟨[], rfl, builds_nil⟩
  | cons slot slots ih =>
    rcases slot with _ | ⟨name, value⟩
    · exact ih hlow
    · have hcons : envStrings (some (name, value) :: slots) =
          (name ++ ascii "=" ++ value.getD []) :: envStrings slots := rfl
      rw [hcons, List.length_cons] at hlow
      rw [hcons, List.length_cons]
      have hnext : vsp + 4 + 4 * (envStrings slots).length =
          vsp + 4 * ((envStrings slots).length + 1) := by omega
      have hlength : (name ++ ascii "=").length = name.length + 1 := by
        rw [List.length_append]
        rfl
      cases value with
      | none =>
        have hstring : name ++ ascii "=" ++ Option.getD none [] = name ++ ascii "=" := by
          rw [Option.getD_none, List.append_nil]
        rw [hstring]
        obtain ⟨ws, hbuild, hbuilds⟩ := @ih (vsp + 4) (ssp + ((name ++ ascii "=").length + 1))
          (by omega)
        refine ⟨_, ?_, builds_cons hlow writes_str hbuilds⟩
        rw [hlength, ← Nat.add_assoc] at hbuild
        rw [envbuild, hbuild, hnext]
        rfl
      | some value =>
        have hstring : name ++ ascii "=" ++ (some value).getD [] = name ++ ascii "=" ++ value := rfl
        rw [hstring]
        obtain ⟨ws, hbuild, hbuilds⟩ := @ih (vsp + 4)
          (ssp + ((name ++ ascii "=" ++ value).length + 1)) (by omega)
        refine ⟨_, ?_, builds_cons hlow writes_value hbuilds⟩
        rw [List.length_append, hlength, show ssp + (name.length + 1 + value.length + 1) =
          ssp + (name.length + 1) + 1 + value.length by omega] at hbuild
        rw [envbuild]
        dsimp only
        rw [hbuild, hnext, Nat.add_sub_cancel, hlength]
        rfl

/-! ## §4 The stack -/

theorem argsLength_eq (av : List CStr) : argsLength av = (strings av).length := by
  induction av with
  | nil => rfl
  | cons arg av ih =>
    rw [argsLength, List.map_cons, List.sum_cons, ← argsLength, ih, strings_cons,
      List.length_append, List.length_cons]
    omega

theorem roundUp_bounds (n : ℕ) : n ≤ roundUp n ∧ roundUp n < n + 8 := by
  rw [roundUp]
  omega

/-- The strings of the variables that are passed. -/
def passed (t : Table) (addenv : Bool) : List CStr := if addenv then envStrings t.slots else []

theorem stackSizes_eq (av : List CStr) (t : Table) (addenv : Bool) :
    stackSizes av t addenv =
      { ec := (passed t addenv).length
        stringlen := roundUp ((strings (passed t addenv)).length + (strings av).length)
        vectorlen := (av.length + (passed t addenv).length + 2) * 4
        stacklen := roundUp ((av.length + (passed t addenv).length + 2) * 4 +
          roundUp ((strings (passed t addenv)).length + (strings av).length)) } := by
  rw [stackSizes, passed]
  cases addenv
  · simp only [Bool.false_eq_true, if_false, argsLength_eq, List.length_nil, strings_nil]
  · simp only [if_true, envsize_eq, argsLength_eq]

/-- What `initstack` is to leave: all writes between the new stack pointer and the old one, a vector
    of pointers to copies of the arguments, a vector of pointers to the strings of the variables,
    null pointers behind both, and no string within another one. -/
structure StackBuilt (sp : ℕ) (av : List CStr) (t : Table) (addenv : Bool) (m : Mem) : Prop where
  region : ∀ w ∈ (initstack sp av t addenv).writes, w.In (initstack sp av t addenv).sp sp
  argc : (initstack sp av t addenv).argc = av.length
  vectors : ∃ ps qs : List ℕ,
    (written m (initstack sp av t addenv).writes).Holds (initstack sp av t addenv).argv
        (vector (ps ++ [0])) ∧
      (written m (initstack sp av t addenv).writes).Holds (initstack sp av t addenv).envp
        (vector (qs ++ [0])) ∧
      (∀ p ∈ ps ++ qs, p < 2 ^ 32) ∧
      List.Forall₂ (fun p arg => (written m (initstack sp av t addenv).writes).Holds p (arg ++ [0]))
        ps av ∧
      List.Forall₂ (fun q var => (written m (initstack sp av t addenv).writes).Holds q (var ++ [0]))
        qs (passed t addenv) ∧
      (ps.zip av ++ qs.zip (passed t addenv)).Pairwise Before

/-- The two loops and what is written around them. -/
theorem initstack_writes (sp : ℕ) (av : List CStr) (t : Table) (addenv : Bool) {nsp ssp : ℕ}
    (hnsp : sp - (stackSizes av t addenv).stacklen = nsp)
    (hssp : nsp + (av.length + (passed t addenv).length + 2) * 4 = ssp) :
    ∃ args envs, Builds args nsp ssp av ∧
      Builds envs (nsp + 4 * av.length + 4) (roundUp (ssp + (strings av).length))
        (passed t addenv) ∧
      (passed t addenv = [] → envs = []) ∧
      initstack sp av t addenv =
        { argc := av.length
          argv := nsp
          envp := nsp + (av.length + 1) * 4
          sp := nsp - 32
          writes := ⟨nsp - 32, List.replicate 32 0⟩ ::
            (args ++ (ptrWrite (nsp + 4 * av.length) 0 ::
              (envs ++ [ptrWrite (nsp + 4 * av.length + 4 + 4 * (passed t addenv).length) 0]))) } := by
  obtain ⟨args, hcopy, hargs⟩ := builds_copyArgs (show nsp + 4 * av.length ≤ ssp by omega)
  have hround := (roundUp_bounds (ssp + (strings av).length)).1
  have hstack : initstack sp av t addenv =
      { argc := av.length
        argv := nsp
        envp := nsp + (av.length + 1) * 4
        sp := nsp - 32
        writes := ⟨nsp - 32, List.replicate 32 0⟩ :: args ++ ptrWrite (nsp + 4 * av.length) 0 ::
          if (passed t addenv).length ≠ 0 then
            envbuild t.slots (nsp + 4 * av.length + 4) (roundUp (ssp + (strings av).length))
          else [ptrWrite (nsp + 4 * av.length + 4) 0] } := by
    rw [initstack]
    dsimp only
    rw [hnsp]
    simp only [stackSizes_eq, hssp, hcopy]
  by_cases hnone : passed t addenv = []
  · refine ⟨args, [], hargs, by rw [hnone]; exact builds_nil, fun _ => rfl, ?_⟩
    rw [hstack, hnone, if_neg (by simp)]
    rfl
  · have henv : passed t addenv = envStrings t.slots := by
      cases addenv
      · exact absurd rfl hnone
      · rfl
    have hlow : nsp + 4 * av.length + 4 + 4 * (envStrings t.slots).length ≤
        roundUp (ssp + (strings av).length) := by
      rw [← henv]
      omega
    obtain ⟨envs, hbuild, henvs⟩ := builds_envbuild hlow
    refine ⟨args, envs, hargs, by rwa [henv], fun h => absurd h hnone, ?_⟩
    rw [hstack, if_pos (by simpa using hnone), hbuild, henv]
    rfl

/-- What rounding the sizes up leaves is enough for the rounding in front of the variables. -/
def Fits (sp : ℕ) (av : List CStr) (t : Table) (addenv : Bool) : Prop :=
  passed t addenv = [] ∨
    roundUp (sp - (stackSizes av t addenv).stacklen + (stackSizes av t addenv).vectorlen +
      argsLength av) + (envsize t.slots).2 ≤ sp

/-- **The client's stack** is built, on the part of it that is reserved, exactly when the strings of
    the variables fit where they begin. -/
theorem initstack_exact (sp : ℕ) (av : List CStr) (t : Table) (addenv : Bool) (m : Mem)
    (hroom : 32 + (stackSizes av t addenv).stacklen ≤ sp) (htop : sp ≤ 2 ^ 32) :
    StackBuilt sp av t addenv m ↔ Fits sp av t addenv := by
  generalize hnsp : sp - (stackSizes av t addenv).stacklen = nsp
  generalize hssp : nsp + (av.length + (passed t addenv).length + 2) * 4 = ssp
  obtain ⟨args, envs, hargs, henvs, hnone, hstack⟩ := initstack_writes sp av t addenv hnsp hssp
  -- The sizes: the strings of the arguments are below the old stack pointer in any case.
  have hround := roundUp_bounds (ssp + (strings av).length)
  have hstrings := (roundUp_bounds ((strings (passed t addenv)).length + (strings av).length)).1
  have hstacklen := (roundUp_bounds ((av.length + (passed t addenv).length + 2) * 4 +
    roundUp ((strings (passed t addenv)).length + (strings av).length))).1
  rw [stackSizes_eq] at hnsp hroom
  dsimp only at hnsp hroom
  have hfits : Fits sp av t addenv ↔ passed t addenv = [] ∨
      roundUp (ssp + (strings av).length) + (strings (passed t addenv)).length ≤ sp := by
    rw [Fits, stackSizes_eq]
    dsimp only
    rw [hnsp, hssp, argsLength_eq, envsize_eq]
    cases addenv
    · exact iff_of_true (.inl rfl) (.inl rfl)
    · exact Iff.rfl
  generalize hssp' : roundUp (ssp + (strings av).length) = ssp' at *
  generalize hptr : ptrWrite (nsp + 4 * av.length) 0 = argEnd at hstack
  generalize hptr' :
    ptrWrite (nsp + 4 * av.length + 4 + 4 * (passed t addenv).length) 0 = envEnd at hstack
  have hargEnd : argEnd.In (nsp + 4 * av.length) (nsp + 4 * av.length + 4) :=
    hptr ▸ ⟨Nat.le_refl _, Nat.le_refl _⟩
  have henvEnd : envEnd.In (nsp + 4 * av.length + 4 + 4 * (passed t addenv).length) ssp := by
    rw [← hptr']
    refine ⟨Nat.le_refl _, ?_⟩
    change nsp + 4 * av.length + 4 + 4 * (passed t addenv).length + 4 ≤ ssp
    omega
  rw [hfits]
  constructor
  · intro h
    rw [or_iff_not_imp_left]
    intro hsome
    obtain ⟨w, hmem, hstop⟩ := henvs.reaches hsome
    have hregion := h.region w (by rw [hstack]; simp [hmem])
    rw [← hstop]
    exact hregion.2
  · intro hfit
    refine ⟨?_, by rw [hstack], ?_⟩
    · -- Where each of the writes is.
      rw [hstack]
      intro w hmem
      simp only [List.mem_cons, List.mem_append, List.not_mem_nil, or_false] at hmem
      change w.In (nsp - 32) sp
      rcases hmem with rfl | hmem | rfl | hmem | rfl
      · refine ⟨Nat.le_refl _, ?_⟩
        change nsp - 32 + (List.replicate 32 (0 : UInt8)).length ≤ sp
        rw [List.length_replicate]
        omega
      · rcases hargs.within w hmem with hw | hw
        · exact hw.mono (by omega) (by omega)
        · exact hw.mono (by omega) (by omega)
      · exact hargEnd.mono (by omega) (by omega)
      · rcases hfit with hnovars | hvars
        · rw [hnone hnovars] at hmem
          exact absurd hmem List.not_mem_nil
        · rcases henvs.within w hmem with hw | hw
          · exact hw.mono (by omega) (by omega)
          · exact hw.mono (by omega) hvars
      · exact henvEnd.mono (by omega) (by omega)
    · -- What is written later is elsewhere.
      rw [hstack]
      dsimp only
      generalize hzero : (⟨nsp - 32, List.replicate 32 0⟩ : Write) = zeros
      have hvars : ∀ w ∈ envs, w.In (nsp + 4 * av.length + 4) ssp ∨ ssp' ≤ w.addr := fun w hw =>
        (henvs.within w hw).imp (fun h => h.mono (Nat.le_refl _) (by omega)) And.left
      have hlater : ∀ a n, a + n ≤ nsp + 4 * av.length + 4 ∨ ssp ≤ a ∧ a + n ≤ ssp' →
          Off (envs ++ [envEnd]) a n := by
        intro a n ha
        refine off_append.mpr ⟨fun w hw => ?_, List.forall_mem_singleton.mpr ?_⟩
        · rcases hvars w hw with h | h
          · have hlo := h.1
            have hhi := h.2
            omega
          · omega
        · have hlo := henvEnd.1
          have hhi := henvEnd.2
          omega
      have hargsLater : ∀ a n, a + n ≤ nsp + 4 * av.length ∨ ssp ≤ a ∧ a + n ≤ ssp' →
          Off (argEnd :: (envs ++ [envEnd])) a n := by
        intro a n ha
        have hlo := hargEnd.1
        have hhi := hargEnd.2
        exact off_cons.mpr ⟨by omega, hlater a n (by omega)⟩
      have henvLater : ∀ a n, a + n ≤ nsp + 4 * av.length + 4 + 4 * (passed t addenv).length ∨
          ssp ≤ a → Off [envEnd] a n := by
        intro a n ha
        have hlo := henvEnd.1
        have hhi := henvEnd.2
        exact List.forall_mem_singleton.mpr (by omega)
      have hargVector : (vector (starts ssp av)).length = 4 * av.length := by
        rw [length_vector, length_starts]
      have henvVector :
          (vector (starts ssp' (passed t addenv))).length = 4 * (passed t addenv).length := by
        rw [length_vector, length_starts]
      refine ⟨starts ssp av, starts ssp' (passed t addenv), ?_, ?_, ?_, ?_, ?_, ?_⟩
      · apply holds_vector_end
        · rw [written_cons]
          refine holds_written_append (hargs.vector _) (hargsLater _ _ (.inl ?_))
          omega
        · rw [length_starts, written_cons, written_append, written_cons,
            holds_written_of_off (hlater _ _ (.inl (Nat.le_refl _))), ← hptr]
          exact Mem.holds_store _ _ _
      · rw [show nsp + (av.length + 1) * 4 = nsp + 4 * av.length + 4 by omega]
        apply holds_vector_end
        · rw [written_cons, written_append, written_cons]
          refine holds_written_append (henvs.vector _) (henvLater _ _ (.inl ?_))
          omega
        · rw [length_starts, written_cons, written_append, written_cons, written_append,
            written_cons, written_nil, ← hptr']
          exact Mem.holds_store _ _ _
      · intro p hp
        rcases List.mem_append.mp hp with hp | hp
        · have hlt := starts_lt p hp
          omega
        · have hlt := starts_lt p hp
          rcases hfit with hnovars | hfit
          · rw [hnovars] at hp
            exact absurd hp List.not_mem_nil
          · omega
      · apply holds_starts
        rw [written_cons]
        exact holds_written_append (hargs.text _) (hargsLater _ _ (.inr ⟨Nat.le_refl _, by omega⟩))
      · apply holds_starts
        rw [written_cons, written_append, written_cons]
        exact holds_written_append (henvs.text _) (henvLater _ _ (.inr (by omega)))
      · rw [List.pairwise_append]
        refine ⟨pairwise_starts, pairwise_starts, fun x hx y hy => ?_⟩
        have hxs := (starts_bounds x hx).2
        have hys := (starts_bounds y hy).1
        rw [Before]
        omega

/-- Two variables, one of them with a value. -/
def twoVars : Table :=
  (Table.empty.set 0 (some (ascii "a", none))).set 1 (some (ascii "b", some (ascii "x")))

/-- One argument and two variables. -/
theorem initstack_exact_twoVars :
    StackBuilt 0x80100000 [ascii "g"] twoVars true fun _ => 0 :=
  (initstack_exact 0x80100000 [ascii "g"] twoVars true (fun _ => 0) (by decide) (by decide)).mpr
    (.inr (by decide))

/-- One argument and one variable, whose string begins at the old stack pointer. -/
theorem initstack_over :
    ¬StackBuilt 0x80100000 [ascii "g"] (Table.empty.set 0 (some (ascii "abcd", none))) true
      fun _ => 0 := by
  intro h
  have hmem : strWrite 0x80100000 (ascii "abcd=") ∈ (initstack 0x80100000 [ascii "g"]
      (Table.empty.set 0 (some (ascii "abcd", none))) true).writes := by
    refine List.mem_cons_of_mem _ (List.mem_cons_of_mem _ (List.mem_cons_of_mem _
      (List.mem_cons_of_mem _ (List.mem_cons_of_mem _ ?_))))
    exact List.mem_cons_self
  exact absurd (h.region _ hmem).2 (by decide)

end Pmon.Env
