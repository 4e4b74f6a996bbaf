import Mathlib.Data.Nat.Init
import Mathlib.Logic.Function.Iterate
import Mathlib.Tactic.Common
import Pmon.Libc.Strings

/-!
# Tracing

The command `t` of `pmon/cmds/debuggercmds.c`, the part of `exception` in `pmon/common/exception.c`
that is run after each step, and the history of program counters of `pmon/common/debugger.c`.  What
the client does in a step is a parameter.

## Key results

- `PcHist.holds_addpchist`, `PcHist.getpchist_eq`: the ring and what is read from it.
- `go_counting`: how a trace with a count runs.
- `cmdTrace_steps`: where `t n` stops and what it records.
-/

namespace Pmon.Debug.Trace

open Pmon.Libc

/-! ## §1 The history -/

/-- `PCHISTSZ`. -/
def pchistsz : ℕ := 200

def incmod (x m : ℕ) : ℕ := if m < x + 1 then 0 else x + 1

/-- `pchist_d`, `pchist_ip` and `pchist_op`. -/
structure PcHist where
  pchistD : ℕ → ℕ
  pchistIp : ℕ
  pchistOp : ℕ

/-- `addpchist`. -/
def PcHist.addpchist (h : PcHist) (adr : ℕ) : PcHist :=
  let ip := incmod h.pchistIp pchistsz
  { pchistD := Function.update h.pchistD h.pchistIp adr
    pchistIp := ip
    pchistOp := if ip = h.pchistOp then incmod h.pchistOp pchistsz else h.pchistOp }

/-- `clrpchist`. -/
def PcHist.clrpchist (h : PcHist) : PcHist := { h with pchistIp := 0, pchistOp := 0 }

/-- `getpchist`, for the entries that a ring can have. -/
def PcHist.getpchist (h : PcHist) (n : ℕ) : ℕ :=
  -- an index below 0 is counted around the ring
  let i := if n + 1 ≤ h.pchistIp then h.pchistIp - n - 1 else h.pchistIp + (pchistsz + 1) - n - 1
  if incmod i pchistsz = h.pchistOp then 0 else h.pchistD i

/-! ## §2 The tracer -/

/-- `trace_mode`, without the modes of the remote debugger. -/
inductive TraceMode where
  | no
  | tb
  | tg
  | gb
  | tn
  deriving DecidableEq

inductive ExcType where
  | bpt
  | trc
  | wtch
  | other
  deriving DecidableEq

/-- An entry of `stopval`; `sense` is set for a stop on a value that is not equal. -/
structure Stopentry where
  addr : ℕ
  value : ℕ
  sense : Bool

/-- `STOPMAX`. -/
def stopmax : ℕ := 10

/-- The variables of the tracer. -/
structure Tracer where
  traceMode : TraceMode
  traceCount : ℕ
  traceOver : Bool
  traceInvalid : Bool
  traceBflag : Bool
  traceCflag : Bool
  stopval : List Stopentry
  pchist : PcHist

/-- A client: a step is what it does until the trap behind the instruction, or another exception. -/
structure Client (σ : Type) where
  step : σ → σ
  excType : σ → ExcType
  excpc : σ → ℕ
  loadWord : σ → ℕ → ℕ
  isBranch : σ → ℕ → Bool
  isCall : σ → ℕ → Bool

/-- `addstop`: the first free entry is taken. -/
def addstop (adr val : ℕ) (sense : Bool) : List Stopentry → Option (List Stopentry)
  | [] => none
  | e :: es =>
    if e.addr = 0 then some (⟨adr, val, sense⟩ :: es) else (addstop adr val sense es).map (e :: ·)

/-- The letters of an option word of `t`, with the words behind it: what they set, whether there is
    more than one step, and how many words are arguments. -/
def optionLetters (getRsa getReg : CStr → Option ℕ) (args : List CStr) :
    CStr → Tracer → Bool → Option (Tracer × Bool × ℕ)
  | [], t, multi => some (t, multi, 0)
  | c :: cs, t, multi =>
    -- "v"
    if c = 118 then optionLetters getRsa getReg args cs { t with traceCount := 0 } true
    -- "m", "M", "r" and "R" have two arguments, and end the word
    else if c = 109 ∨ c = 77 ∨ c = 114 ∨ c = 82 then
      match args with
      | what :: value :: _ =>
        ((if c = 109 ∨ c = 77 then getRsa else getReg) what).bind fun adr =>
        (getRsa value).bind fun val =>
        (addstop adr val (c = 77 ∨ c = 82) t.stopval).map fun stopval =>
          ({ t with stopval, traceCount := 0 }, true, 2)
      | _ => none
    else if c = 98 then optionLetters getRsa getReg args cs { t with traceBflag := true } multi
    else if c = 99 then optionLetters getRsa getReg args cs { t with traceCflag := true } multi
    else if c = 105 then
      optionLetters getRsa getReg args cs { t with traceInvalid := true, traceCount := 0 } true
    else none

/-- The loop over the words behind the command; `n` of them have been counts. -/
def traceWords (getRsa getReg : CStr → Option ℕ) :
    List CStr → (n : ℕ) → Tracer → Bool → Option (Tracer × Bool)
  | [], _, t, multi => some (t, multi)
  | arg :: args, n, t, multi =>
    match arg with
    | 45 :: letters =>
      (optionLetters getRsa getReg args letters t multi).bind fun (t, multi, used) =>
        traceWords getRsa getReg (args.drop used) n t multi
    | _ =>
      if n = 0 then
        (getRsa arg).bind fun count =>
          traceWords getRsa getReg args (n + 1) { t with traceCount := count } true
      else none
termination_by args => args.length

/-- `cmd_trace` up to the start of the client; `stepover` is set for the command `to`. -/
def cmdTrace (getRsa getReg : CStr → Option ℕ) (stepover : Bool) (args : List CStr) (t : Tracer) :
    Option Tracer :=
  let t :=
    { t with
      traceOver := stepover
      traceInvalid := false
      traceBflag := false
      traceCflag := false
      stopval := t.stopval.map fun e => { e with addr := 0 } }
  (traceWords getRsa getReg args 0 t false).map fun (t, multi) =>
    { t with pchist := t.pchist.clrpchist, traceMode := if multi then .tn else .tb }

/-! ## §3 The exception handler -/

/-- What the handler does: `pmon_stop`, or the client goes on. -/
inductive Handled where
  | stops
  | goes (t : Tracer) (recorded : Option ℕ)

/-- A stop condition is met. -/
def stopMet {σ : Type} (c : Client σ) (s : σ) (e : Stopentry) : Bool :=
  e.addr ≠ 0 ∧
    if e.sense then c.loadWord s e.addr ≠ e.value else c.loadWord s e.addr = e.value

/-- `exception`; `bpt` are the addresses of the slots. -/
def exception {σ : Type} (c : Client σ) (bpt : List ℕ) (isValidpc : ℕ → Bool) (t : Tracer)
    (s : σ) : Handled :=
  if c.excType s = .other then .stops
  else
    match t.traceMode with
    | .no | .gb | .tb => .stops
    | .tg => .goes { t with traceMode := .gb } none
    | .tn =>
      let pc := c.excpc s
      if pc ∈ bpt then .stops
      else if t.traceInvalid ∧ ¬ isValidpc pc then .stops
      else if t.stopval.any (stopMet c s) then .stops
      else
        let flag :=
          if t.traceBflag ∨ t.traceCflag then
            (t.traceBflag && c.isBranch s pc) || (t.traceCflag && c.isCall s pc)
          else true
        let t := if flag then { t with pchist := t.pchist.addpchist pc } else t
        let t := if t.traceCount ≠ 0 then { t with traceCount := t.traceCount - 1 } else t
        -- trace & break
        let t := if t.traceCount = 1 then { t with traceMode := .tb } else t
        .goes t (if flag then some pc else none)

/-- The client runs, with the handler after each step: after how many steps it stops, what has been
    recorded, and the tracer then.  `fuel` bounds the steps. -/
def go {σ : Type} (c : Client σ) (bpt : List ℕ) (isValidpc : ℕ → Bool) :
    (fuel : ℕ) → Tracer → σ → Option (ℕ × List ℕ × Tracer)
  | 0, _, _ => none
  | fuel + 1, t, s =>
    let s := c.step s
    match exception c bpt isValidpc t s with
    | .stops => some (1, [], { t with traceMode := .no })
    | .goes t recorded =>
      (go c bpt isValidpc fuel t s).map fun (n, rs, t) => (n + 1, recorded.toList ++ rs, t)

/-! ## §4 The ring -/

/-- The ring after these program counters: where the next one goes, and the last ones. -/
structure PcHist.Holds (h : PcHist) (pcs : List ℕ) : Prop where
  ip : h.pchistIp = pcs.length % (pchistsz + 1)
  op : h.pchistOp = (pcs.length - pchistsz) % (pchistsz + 1)
  last : ∀ i, pcs.length ≤ i + pchistsz → ∀ pc, pcs[i]? = some pc →
    h.pchistD (i % (pchistsz + 1)) = pc

theorem incmod_mod (n : ℕ) : incmod (n % (pchistsz + 1)) pchistsz = (n + 1) % (pchistsz + 1) := by
  unfold incmod pchistsz
  split
  next h => omega
  next h => omega

theorem PcHist.holds_clrpchist (h : PcHist) : h.clrpchist.Holds [] where
  ip := rfl
  op := rfl
  last := by simp

/-- **A further entry** takes the place of the oldest one when the ring is full. -/
theorem PcHist.holds_addpchist {h : PcHist} {pcs : List ℕ} (hh : h.Holds pcs) (pc : ℕ) :
    (h.addpchist pc).Holds (pcs ++ [pc]) := by
  have hip := hh.ip
  have hop := hh.op
  have hlength : (pcs ++ [pc]).length = pcs.length + 1 := by simp
  constructor
  · rw [hlength]
    simp only [addpchist, hip, incmod_mod]
  · rw [hlength]
    simp only [addpchist, hip, hop, incmod_mod]
    unfold pchistsz
    split
    next hfull => omega
    next hroom => omega
  · intro i hi pc' hpc'
    rw [hlength] at hi
    simp only [addpchist, hip]
    rcases Nat.lt_trichotomy i pcs.length with hlt | rfl | hgt
    · rw [List.getElem?_append_left hlt] at hpc'
      have hne : i % (pchistsz + 1) ≠ pcs.length % (pchistsz + 1) := by
        unfold pchistsz at hi ⊢
        omega
      rw [Function.update_of_ne hne]
      exact hh.last i (by omega) pc' hpc'
    · rw [List.getElem?_append_right (Nat.le_refl _), Nat.sub_self] at hpc'
      rw [Function.update_self]
      exact Option.some.inj hpc'
    · rw [List.getElem?_eq_none (by rw [hlength]; omega)] at hpc'
      cases hpc'

/-- **What is read from the ring**, newest first. -/
theorem PcHist.getpchist_eq {h : PcHist} {pcs : List ℕ} (hh : h.Holds pcs) {n : ℕ}
    (hn : n < pchistsz) (hlen : n < pcs.length) : h.getpchist n = pcs[pcs.length - 1 - n] := by
  have hip := hh.ip
  have hop := hh.op
  have hindex : (if n + 1 ≤ h.pchistIp then h.pchistIp - n - 1
      else h.pchistIp + (pchistsz + 1) - n - 1) = (pcs.length - 1 - n) % (pchistsz + 1) := by
    rw [hip]
    unfold pchistsz at hn ⊢
    split
    next => omega
    next => omega
  have hold : (pcs.length - 1 - n + 1) % (pchistsz + 1) ≠ h.pchistOp := by
    rw [hop]
    unfold pchistsz at hn ⊢
    omega
  unfold getpchist
  rw [hindex]
  simp only [incmod_mod]
  rw [if_neg hold]
  apply hh.last
  · omega
  · exact List.getElem?_eq_getElem _

/-- Behind the last entry nothing is read. -/
theorem PcHist.getpchist_end {h : PcHist} {pcs : List ℕ} (hh : h.Holds pcs) :
    h.getpchist (min pcs.length pchistsz) = 0 := by
  have hip := hh.ip
  have hop := hh.op
  unfold getpchist
  have hend : incmod (if min pcs.length pchistsz + 1 ≤ h.pchistIp then
      h.pchistIp - min pcs.length pchistsz - 1
      else h.pchistIp + (pchistsz + 1) - min pcs.length pchistsz - 1) pchistsz = h.pchistOp := by
    rw [hip, hop]
    unfold incmod pchistsz
    rcases Nat.le_total pcs.length 200 with hle | hge
    · rw [Nat.min_eq_left hle]
      split_ifs <;> omega
    · rw [Nat.min_eq_right hge]
      split_ifs <;> omega
  simp only [hend, if_true]

/-! ## §5 Runs with a count -/

variable {σ : Type} {c : Client σ} {bpt : List ℕ} {isValidpc : ℕ → Bool} {t : Tracer} {s : σ}
  {n fuel : ℕ}

/-- No step ends at a breakpoint of the user, nor with an exception of another kind. -/
def Undisturbed (c : Client σ) (bpt : List ℕ) (s : σ) : Prop :=
  ∀ k, c.excType (c.step^[k + 1] s) ≠ .other ∧ c.excpc (c.step^[k + 1] s) ∉ bpt

theorem Undisturbed.step (h : Undisturbed c bpt s) : Undisturbed c bpt (c.step s) :=
  fun k => h (k + 1)

theorem Undisturbed.first (h : Undisturbed c bpt s) :
    c.excType (c.step s) ≠ .other ∧ c.excpc (c.step s) ∉ bpt := h 0

theorem go_stops (h : exception c bpt isValidpc t (c.step s) = .stops) :
    go c bpt isValidpc (fuel + 1) t s = some (1, [], { t with traceMode := .no }) := by
  rw [go]
  dsimp only
  rw [h]

theorem go_goes {t' : Tracer} {pc : ℕ}
    (h : exception c bpt isValidpc t (c.step s) = .goes t' (some pc)) :
    go c bpt isValidpc (fuel + 1) t s =
      (go c bpt isValidpc fuel t' (c.step s)).map fun (n, rs, t) => (n + 1, pc :: rs, t) := by
  rw [go]
  dsimp only
  rw [h]
  rfl

/-- The tracer as a count alone leaves it. -/
structure Counting (t : Tracer) : Prop where
  traceMode : t.traceMode = .tn
  traceInvalid : t.traceInvalid = false
  traceBflag : t.traceBflag = false
  traceCflag : t.traceCflag = false
  stopval : ∀ e ∈ t.stopval, e.addr = 0

/-- The tracer after a step. -/
def Tracer.counted (t : Tracer) (pc : ℕ) : Tracer :=
  { t with
    pchist := t.pchist.addpchist pc
    traceCount := t.traceCount - 1
    traceMode := if t.traceCount = 2 then .tb else .tn }

/-- **A step while it is counted**: the count goes down, and at 1 the next step is the last. -/
theorem exception_counting (h : Counting t) (htype : c.excType s ≠ .other)
    (hpc : c.excpc s ∉ bpt) : exception c bpt isValidpc t s =
      .goes (t.counted (c.excpc s)) (some (c.excpc s)) := by
  have hstop : t.stopval.any (stopMet c s) = false := by
    rw [List.any_eq_false]
    intro e he
    simp [stopMet, h.stopval e he]
  obtain ⟨mode, count, stepover, invalid, bflag, cflag, stopval, pchist⟩ := t
  obtain ⟨rfl, rfl, rfl, rfl, -⟩ := h
  unfold exception Tracer.counted
  simp only [if_neg htype, if_neg hpc, hstop, Bool.false_eq_true, false_and, or_self, if_false,
    if_true]
  rcases Nat.lt_or_ge count 3 with hlt | hge
  · -- 0 stands for no limit
    have hcases : count = 0 ∨ count = 1 ∨ count = 2 := by omega
    rcases hcases with rfl | rfl | rfl <;> rfl
  · have hne : count ≠ 0 := by omega
    have hone : count - 1 ≠ 1 := by omega
    have htwo : count ≠ 2 := by omega
    simp [hne, hone, htwo]

theorem Counting.counted (h : Counting t) (htwo : t.traceCount ≠ 2) (pc : ℕ) :
    Counting (t.counted pc) where
  traceMode := if_neg htwo
  traceInvalid := h.traceInvalid
  traceBflag := h.traceBflag
  traceCflag := h.traceCflag
  stopval := h.stopval

/-- **From a count of 0 or 1** the client never stops. -/
theorem go_never (h : Counting t) (hund : Undisturbed c bpt s) (hcount : t.traceCount ≤ 1) :
    go c bpt isValidpc fuel t s = none := by
  induction fuel generalizing t s with
  | zero => rfl
  | succ fuel ih =>
    obtain ⟨htype, hpc⟩ := hund.first
    have htwo : t.traceCount ≠ 2 := by omega
    have hrest := ih (h.counted htwo (c.excpc (c.step s))) hund.step
      (Nat.le_trans (Nat.sub_le _ _) hcount)
    rw [go_goes (exception_counting h htype hpc), hrest, Option.map_none]

/-- The program counters before the first `n` steps. -/
def pcsBefore (c : Client σ) (s : σ) (n : ℕ) : List ℕ :=
  (List.range n).map fun k => c.excpc (c.step^[k] s)

/-- The program counters after the first `n` steps. -/
def pcsAfter (c : Client σ) (s : σ) (n : ℕ) : List ℕ := pcsBefore c (c.step s) n

theorem pcsBefore_succ : pcsBefore c s (n + 1) = c.excpc s :: pcsBefore c (c.step s) n := by
  unfold pcsBefore
  rw [List.range_succ_eq_map, List.map_cons, List.map_map]
  rfl

/-- **From a count of 2 or more** the client stops after so many steps, and what has been recorded
    are the program counters after all steps but the last. -/
theorem go_counting (h : Counting t) (hund : Undisturbed c bpt s) (hcount : t.traceCount = n + 2)
    {pcs : List ℕ} (hholds : t.pchist.Holds pcs) :
    ∃ t', go c bpt isValidpc (n + 2) t s = some (n + 2, pcsAfter c s (n + 1), t') ∧
      t'.pchist.Holds (pcs ++ pcsAfter c s (n + 1)) := by
  induction n generalizing t s pcs with
  | zero =>
    obtain ⟨htype, hpc⟩ := hund.first
    -- the handler switches to `TRACE_TB` one step early
    have hlast : exception c bpt isValidpc (t.counted (c.excpc (c.step s))) (c.step (c.step s)) =
        .stops := by
      have hmode : (t.counted (c.excpc (c.step s))).traceMode = .tb := if_pos hcount
      unfold exception
      rw [hmode]
      split <;> rfl
    refine ⟨{ t.counted (c.excpc (c.step s)) with traceMode := .no }, ?_, ?_⟩
    · rw [go_goes (exception_counting h htype hpc), go_stops hlast]
      rfl
    · exact PcHist.holds_addpchist hholds _
  | succ n ih =>
    obtain ⟨htype, hpc⟩ := hund.first
    have htwo : t.traceCount ≠ 2 := by omega
    have hnext : (t.counted (c.excpc (c.step s))).traceCount = n + 2 := by
      show t.traceCount - 1 = n + 2
      omega
    obtain ⟨t', hgo, hholds'⟩ := ih (h.counted htwo (c.excpc (c.step s))) hund.step hnext
      (PcHist.holds_addpchist hholds (c.excpc (c.step s)))
    have hpcs : pcsAfter c s (n + 1 + 1) =
        c.excpc (c.step s) :: pcsAfter c (c.step s) (n + 1) := pcsBefore_succ
    refine ⟨t', ?_, ?_⟩
    · rw [go_goes (exception_counting h htype hpc), hgo, hpcs]
      rfl
    · rw [hpcs]
      rw [List.append_assoc] at hholds'
      exact hholds'

/-- More fuel does not change a run that has stopped. -/
theorem go_mono {r : ℕ × List ℕ × Tracer} (h : go c bpt isValidpc fuel t s = some r) (k : ℕ) :
    go c bpt isValidpc (fuel + k) t s = some r := by
  induction fuel generalizing t s r with
  | zero => cases h
  | succ fuel ih =>
    rw [Nat.succ_add]
    rw [go] at h ⊢
    dsimp only at h ⊢
    split at h
    next hstops => exact h
    next t' recorded hgoes =>
      obtain ⟨r', hr', rfl⟩ := Option.map_eq_some_iff.mp h
      rw [ih hr']
      rfl

/-- A run stops once. -/
theorem go_unique {r r' : ℕ × List ℕ × Tracer} {fuel' : ℕ}
    (h : go c bpt isValidpc fuel t s = some r) (h' : go c bpt isValidpc fuel' t s = some r') :
    r = r' := by
  have hmore := go_mono h fuel'
  have hmore' := go_mono h' fuel
  rw [Nat.add_comm] at hmore'
  exact Option.some.inj (hmore.symm.trans hmore')

/-! ## §6 The command -/

/-- A word that is no option is the count. -/
theorem traceWords_count {getRsa getReg : CStr → Option ℕ} {word : CStr} {multi : Bool}
    (hword : word.head? ≠ some 45) (hrsa : getRsa word = some n) :
    traceWords getRsa getReg [word] 0 t multi = some ({ t with traceCount := n }, true) := by
  have hnil : ∀ t : Tracer, traceWords getRsa getReg [] 1 t true = some (t, true) := by
    intro t
    rw [traceWords]
  cases word with
  | nil =>
    rw [traceWords.eq_def]
    simp [hrsa, hnil]
  | cons x letters =>
    have hx : x ≠ 45 := by
      rintro rfl
      exact hword rfl
    rw [traceWords.eq_def]
    simp [hx, hrsa, hnil]

/-- The command with a count alone. -/
theorem cmdTrace_count {getRsa getReg : CStr → Option ℕ} {word : CStr}
    (hword : word.head? ≠ some 45) (hrsa : getRsa word = some n) :
    ∃ t', cmdTrace getRsa getReg false [word] t = some t' ∧ Counting t' ∧ t'.traceCount = n ∧
      t'.pchist.Holds [] := by
  simp only [cmdTrace, traceWords_count hword hrsa, Option.map_some]
  refine ⟨_, rfl, ⟨rfl, rfl, rfl, rfl, ?_⟩, rfl, PcHist.holds_clrpchist _⟩
  intro e he
  obtain ⟨_, _, rfl⟩ := List.mem_map.mp he
  rfl

/-- `t n` stops after exactly `n` steps, and their program counters have been recorded, those where
    the steps begin or those where they end. -/
def StepsRight (c : Client σ) (bpt : List ℕ) (isValidpc : ℕ → Bool) (t : Tracer) (s : σ)
    (n : ℕ) : Prop :=
  ∃ fuel recorded t', go c bpt isValidpc fuel t s = some (n, recorded, t') ∧
    (recorded = pcsBefore c s n ∨ recorded = pcsAfter c s n)

/-- **Where `t n` stops**: after exactly `n` steps if `n` is 2 at least, and never if it is 1.  The
    program counters after the steps but the last have been recorded, so never those of all. -/
theorem cmdTrace_steps (c : Client σ) (getRsa getReg : CStr → Option ℕ) (bpt : List ℕ)
    (isValidpc : ℕ → Bool) (t : Tracer) (s : σ) (word : CStr) (n : ℕ) (hn : 1 ≤ n)
    (hword : word.head? ≠ some 45) (hrsa : getRsa word = some n) (hund : Undisturbed c bpt s) :
    ∃ t', cmdTrace getRsa getReg false [word] t = some t' ∧
      ¬ StepsRight c bpt isValidpc t' s n ∧
      ((∃ fuel recorded t'', go c bpt isValidpc fuel t' s = some (n, recorded, t'')) ↔ 2 ≤ n) ∧
      (n = 1 → ∀ fuel, go c bpt isValidpc fuel t' s = none) ∧
      (2 ≤ n → ∃ fuel t'', go c bpt isValidpc fuel t' s = some (n, pcsAfter c s (n - 1), t'') ∧
        t''.pchist.Holds (pcsAfter c s (n - 1))) := by
  obtain ⟨t', hcmd, hcounting, hcount, hholds⟩ := cmdTrace_count (t := t) hword hrsa
  refine ⟨t', hcmd, ?_⟩
  rcases Nat.eq_or_lt_of_le hn with rfl | htwo
  · have hnever : ∀ fuel, go c bpt isValidpc fuel t' s = none := fun fuel =>
      go_never hcounting hund (by omega)
    refine ⟨?_, ?_, fun _ => hnever, fun h => absurd h (by decide)⟩
    · rintro ⟨fuel, recorded, t'', hgo, -⟩
      rw [hnever] at hgo
      cases hgo
    · constructor
      · rintro ⟨fuel, recorded, t'', hgo⟩
        rw [hnever] at hgo
        cases hgo
      · intro h
        exact absurd h (by decide)
  · obtain ⟨m, rfl⟩ : ∃ m, n = m + 2 := ⟨n - 2, by omega⟩
    obtain ⟨t'', hgo, hholds'⟩ : ∃ t'', go c bpt isValidpc (m + 2) t' s =
        some (m + 2, pcsAfter c s (m + 1), t'') ∧
        t''.pchist.Holds ([] ++ pcsAfter c s (m + 1)) := go_counting hcounting hund hcount hholds
    refine ⟨?_, ?_, fun h => by omega, fun _ => ⟨_, t'', hgo, hholds'⟩⟩
    · rintro ⟨fuel, recorded, t₃, hgo', hrecorded⟩
      have hsame := go_unique hgo hgo'
      rw [Prod.mk.injEq, Prod.mk.injEq] at hsame
      obtain ⟨-, rfl, -⟩ := hsame
      -- there is one program counter less than there are steps
      rcases hrecorded with hlist | hlist
      · have hlength := congrArg List.length hlist
        simp [pcsAfter, pcsBefore] at hlength
      · have hlength := congrArg List.length hlist
        simp [pcsAfter, pcsBefore] at hlength
    · exact ⟨fun _ => by omega, fun _ => ⟨_, _, t'', hgo⟩⟩

/-- A client of instructions without branches. -/
def straight : Client ℕ where
  step := (· + 4)
  excType := fun _ => .bpt
  excpc := id
  loadWord := fun _ _ => 0
  isBranch := fun _ _ => false
  isCall := fun _ _ => false

/-- A tracer that has not been used. -/
def idle : Tracer where
  traceMode := .no
  traceCount := 0
  traceOver := false
  traceInvalid := false
  traceBflag := false
  traceCflag := false
  stopval := List.replicate stopmax ⟨0, 0, false⟩
  pchist := ⟨fun _ => 0, 0, 0⟩

theorem straight_undisturbed (s : ℕ) : Undisturbed straight [] s := by
  intro k
  refine ⟨?_, List.not_mem_nil⟩
  show ExcType.bpt ≠ ExcType.other
  decide

/-- With 2 steps of a straight client. -/
theorem cmdTrace_steps_two :
    ∃ t', cmdTrace (fun _ => some 2) (fun _ => none) false [[50]] idle = some t' ∧
      ¬ StepsRight straight [] (fun _ => true) t' 0x80100000 2 :=
  have hall := cmdTrace_steps straight (fun _ => some 2) (fun _ => none) [] (fun _ => true) idle
    0x80100000 [50] 2 (by decide) (by decide) rfl (straight_undisturbed _)
  hall.imp fun _ h => ⟨h.1, h.2.1⟩

/-- `t 1` does not stop after a step. -/
theorem cmdTrace_one :
    ¬ ∃ t', cmdTrace (fun _ => some 1) (fun _ => none) false [[49]] idle = some t' ∧
      StepsRight straight [] (fun _ => true) t' 0x80100000 1 := by
  rintro ⟨t', hcmd, fuel, recorded, t'', hgo, -⟩
  obtain ⟨t₀, hcmd', hcounting, hcount, -⟩ : ∃ t₀,
      cmdTrace (fun _ => some 1) (fun _ => none) false [[49]] idle = some t₀ ∧ Counting t₀ ∧
        t₀.traceCount = 1 ∧ t₀.pchist.Holds [] := cmdTrace_count (by decide) rfl
  rw [hcmd'] at hcmd
  cases hcmd
  rw [go_never hcounting (straight_undisturbed _) (Nat.le_of_eq hcount)] at hgo
  cases hgo

end Pmon.Debug.Trace
