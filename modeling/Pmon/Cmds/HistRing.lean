import Pmon.Cmds.Hist
import Pmon.Libc.Strings
import Mathlib.Data.List.Induction

/-!
# The numbered history

`addhist`, `gethistn` and `gethists` of `pmon/cmds/hist.c`, with the number of the next command.
The commands have the numbers 1, 2, 3 and so on; the one with number `j + 1` is in slot `j`,
counted around the ring.

## Key results

- `KeepsLog.addhist`: a call keeps the ring and the log of the commands together.
- `history_exact`: what is found by number and by prefix after any calls.
-/

namespace Pmon.Cmds

open Pmon.Libc

/-! ## §1 The commands -/

/-- `hist`, `histi`, `histo` and `histno`. -/
structure CmdHist where
  ring : History
  histno : ℤ

theorem allFree (k : ℕ) (_ : ringCount 0 0 ≤ k) (_ : k ≤ histmax) :
    (fun _ => none : ℕ → Option (List UInt8)) (ringSlot 0 k) = none := rfl

/-- `histinit`, on variables that are still zero. -/
def histinit : CmdHist where
  ring :=
    { hist := fun _ => none
      histi := 0
      histo := 0
      histi_le := Nat.zero_le _
      histo_le := Nat.zero_le _
      hist_free := allFree }
  histno := 1

/-- `addhist` with the count; `alloc` says whether `malloc` has memory for the line. -/
def CmdHist.addhist (s : CmdHist) (p : CStr) (alloc : Bool) : CmdHist :=
  if strempty p then s
  else if s.ring.hist (decmod s.ring.histi) = some p then s
  else if alloc then
    ⟨s.ring.dropOldest.append p s.ring.incmod_dropOldest, s.histno + 1⟩
  else { s with ring := s.ring.dropOldest }

theorem CmdHist.ring_addhist (s : CmdHist) (p : CStr) (alloc : Bool) :
    (s.addhist p alloc).ring = s.ring.addhist p alloc := by
  rw [addhist, History.addhist]
  split
  · rfl
  · split
    · rfl
    · split <;> rfl

/-- `gethistn`. -/
def CmdHist.gethistn (s : CmdHist) (n : ℤ) : Option CStr :=
  if n < s.histno - histmax ∨ n > s.histno then none
  else s.ring.hist (decmod^[(s.histno - n).toNat] s.ring.histi)

/-- The loop of `gethists`.  `fuel` bounds its turns. -/
def History.findBack (h : History) (p : CStr) : (fuel i : ℕ) → Option CStr
  | 0, _ => none
  | fuel + 1, i =>
    if i = decmod h.histo then none
    else
      match h.hist i with
      | none => none
      | some q => if strbequ q p then some q else h.findBack p fuel (decmod i)

/-- `gethists`; the loop ends when it is once around the ring. -/
def CmdHist.gethists (s : CmdHist) (p : CStr) : Option CStr :=
  s.ring.findBack p (histmax + 1) (decmod s.ring.histi)

/-! ## §2 The log -/

/-- What the history is for: the commands that were added, and how many of the last ones are
    kept. -/
structure Log where
  added : List CStr
  kept : ℕ

/-- A command that is empty or the same as the one before is not added.  Where `HISTMAX` are kept,
    the oldest one goes before there is memory for the next. -/
def Log.add (log : Log) (p : CStr) (alloc : Bool) : Log :=
  if strempty p ∨ log.added.getLast? = some p then log
  else if alloc then ⟨log.added ++ [p], min (log.kept + 1) histmax⟩
  else ⟨log.added, min log.kept (histmax - 1)⟩

/-- The commands that are kept, the oldest one first. -/
def Log.lines (log : Log) : List CStr := log.added.drop (log.added.length - log.kept)

/-- The ring and the log after some calls. -/
def addAll (calls : List (CStr × Bool)) : CmdHist :=
  calls.foldl (fun s call => s.addhist call.1 call.2) histinit

def logAll (calls : List (CStr × Bool)) : Log :=
  calls.foldl (fun log call => log.add call.1 call.2) ⟨[], 0⟩

/-- The ring holds what the log says: the `j`-th command is in slot `j`, counted around. -/
structure KeepsLog (s : CmdHist) (log : Log) : Prop where
  histno : s.histno = log.added.length + 1
  histi : s.ring.histi = log.added.length % (histmax + 1)
  histo : s.ring.histo = (log.added.length - log.kept) % (histmax + 1)
  kept_le : log.kept ≤ log.added.length
  kept_pos : log.added ≠ [] → 0 < log.kept
  kept_le_histmax : log.kept ≤ histmax
  slot : ∀ j, log.added.length - log.kept ≤ j → j < log.added.length →
    s.ring.hist (j % (histmax + 1)) = log.added[j]?

variable {s : CmdHist} {log : Log} {p : CStr} {alloc : Bool} {n : ℤ} {d : ℕ}

/-- All slots but those of the commands kept are free; `d` is the distance behind the next one. -/
theorem KeepsLog.free (h : KeepsLog s log) (hd : d = 0 ∨ log.kept < d) (hle : d ≤ histmax) :
    s.ring.hist ((log.added.length + (histmax + 1) - d) % (histmax + 1)) = none := by
  have hcount : ringCount s.ring.histi s.ring.histo = log.kept := by
    have hkept := h.kept_le
    have hmax := h.kept_le_histmax
    rw [ringCount, h.histi, h.histo]
    unfold histmax at *
    omega
  have hfree := s.ring.hist_free ((log.kept + (histmax + 1) - d) % (histmax + 1))
  rw [hcount, ringSlot, h.histo] at hfree
  have hslot : ((log.added.length - log.kept) % (histmax + 1) +
      (log.kept + (histmax + 1) - d) % (histmax + 1)) % (histmax + 1) =
        (log.added.length + (histmax + 1) - d) % (histmax + 1) := by
    have hkept := h.kept_le
    unfold histmax at *
    omega
  rw [← hslot]
  have hmax := h.kept_le_histmax
  refine hfree ?_ ?_
  · unfold histmax at *
    omega
  · unfold histmax
    omega

/-- Walking back from a slot. -/
theorem decmod_iterate (i : ℕ) (hd : d ≤ histmax + 1) :
    decmod^[d] (i % (histmax + 1)) = (i + (histmax + 1) - d) % (histmax + 1) := by
  induction d with
  | zero =>
    rw [Function.iterate_zero_apply, Nat.sub_zero, Nat.add_mod_right]
  | succ d ih =>
    rw [Function.iterate_succ_apply', ih (by omega), decmod]
    unfold histmax at *
    split <;> omega

/-- The slot in front of the next one has the last command. -/
theorem KeepsLog.hist_last (h : KeepsLog s log) :
    s.ring.hist (decmod s.ring.histi) = log.added.getLast? := by
  have hback : decmod (log.added.length % (histmax + 1)) =
      (log.added.length + (histmax + 1) - 1) % (histmax + 1) :=
    decmod_iterate (d := 1) log.added.length (by decide)
  rw [h.histi, hback]
  rcases List.eq_nil_or_concat log.added with hnil | ⟨added, q, hconcat⟩
  · have hkept := h.kept_le
    rw [hnil, List.length_nil] at hkept
    rw [h.free (Or.inr (by omega)) (by decide), hnil, List.getLast?_nil]
  · have hpos := h.kept_pos (by simp [hconcat])
    have hlen : 0 < log.added.length := by simp [hconcat]
    have hslot := h.slot (log.added.length - 1) (by omega) (by omega)
    rw [List.getLast?_eq_getElem?, ← hslot]
    congr 1
    unfold histmax
    omega

/-! ## §3 Adding -/

theorem keepsLog_histinit : KeepsLog histinit ⟨[], 0⟩ where
  histno := rfl
  histi := rfl
  histo := rfl
  kept_le := Nat.le_refl _
  kept_pos h := absurd rfl h
  kept_le_histmax := Nat.zero_le _
  slot _ _ hj := absurd hj (Nat.not_lt_zero _)

/-- The ring is full when `HISTMAX` commands are kept. -/
theorem KeepsLog.full_iff (h : KeepsLog s log) :
    incmod s.ring.histi = s.ring.histo ↔ log.kept = histmax := by
  have hkept := h.kept_le
  have hmax := h.kept_le_histmax
  rw [h.histi, h.histo, incmod]
  unfold histmax at *
  split <;> omega

theorem KeepsLog.dropOldest (h : KeepsLog s log) :
    KeepsLog { s with ring := s.ring.dropOldest }
      { log with kept := min log.kept (histmax - 1) } := by
  have hkept := h.kept_le
  have hmax := h.kept_le_histmax
  rcases Decidable.eq_or_ne (incmod s.ring.histi) s.ring.histo with hfull | hroom
  · have hall := h.full_iff.mp hfull
    rw [History.dropOldest, dif_pos hfull]
    refine ⟨h.histno, h.histi, ?_, ?_, ?_, ?_, ?_⟩
    · dsimp only
      rw [h.histo, incmod]
      unfold histmax at *
      split <;> omega
    · exact Nat.le_trans (Nat.min_le_left _ _) hkept
    · intro _
      dsimp only
      rw [hall]
      decide
    · exact Nat.le_trans (Nat.min_le_left _ _) hmax
    · intro j hlo hhi
      dsimp only at hlo hhi ⊢
      have hne : j % (histmax + 1) ≠ s.ring.histo := by
        rw [h.histo]
        unfold histmax at *
        omega
      rw [Function.update_of_ne hne]
      exact h.slot j (by omega) hhi
  · have hless : log.kept ≠ histmax := fun hall => hroom (h.full_iff.mpr hall)
    have hmin : min log.kept (histmax - 1) = log.kept := by
      unfold histmax at *
      omega
    rw [History.dropOldest, dif_neg hroom, hmin]
    exact h

theorem KeepsLog.append (h : KeepsLog s log) (hroom : incmod s.ring.histi ≠ s.ring.histo) :
    KeepsLog ⟨s.ring.append p hroom, s.histno + 1⟩ ⟨log.added ++ [p], log.kept + 1⟩ := by
  have hkept := h.kept_le
  have hmax := h.kept_le_histmax
  have hless : log.kept ≠ histmax := fun hall => hroom (h.full_iff.mpr hall)
  refine ⟨?_, ?_, ?_, ?_, ?_, ?_, ?_⟩
  · dsimp only
    rw [h.histno, List.length_append, List.length_singleton]
    omega
  · dsimp only [History.append]
    rw [h.histi, incmod, List.length_append, List.length_singleton]
    unfold histmax
    split <;> omega
  · dsimp only [History.append]
    rw [h.histo, List.length_append, List.length_singleton, Nat.add_sub_add_right]
  · rw [List.length_append, List.length_singleton]
    exact Nat.succ_le_succ hkept
  · exact fun _ => Nat.succ_pos _
  · exact Nat.lt_of_le_of_ne hmax hless
  · intro j hlo hhi
    rw [List.length_append, List.length_singleton] at hlo hhi
    rw [Nat.add_sub_add_right] at hlo
    dsimp only [History.append]
    rcases Nat.eq_or_lt_of_le (Nat.le_of_lt_succ hhi) with rfl | hlt
    · rw [← h.histi, Function.update_self, List.getElem?_concat_length]
    · have hne : j % (histmax + 1) ≠ s.ring.histi := by
        rw [h.histi]
        unfold histmax at *
        omega
      rw [Function.update_of_ne hne, List.getElem?_append_left hlt]
      exact h.slot j hlo hlt

/-- **A call** does to the ring what it does to the log. -/
theorem KeepsLog.addhist (h : KeepsLog s log) : KeepsLog (s.addhist p alloc) (log.add p alloc) := by
  rw [CmdHist.addhist, Log.add, h.hist_last]
  by_cases hempty : strempty p = true
  · rw [if_pos hempty, if_pos (Or.inl hempty)]
    exact h
  by_cases hsame : log.added.getLast? = some p
  · rw [if_neg hempty, if_pos hsame, if_pos (Or.inr hsame)]
    exact h
  rw [if_neg hempty, if_neg hsame, if_neg (not_or.mpr ⟨hempty, hsame⟩)]
  cases alloc with
  | false => exact h.dropOldest
  | true =>
    have hmin : min (log.kept + 1) histmax = min log.kept (histmax - 1) + 1 := by
      unfold histmax
      omega
    rw [if_pos rfl, if_pos rfl, hmin]
    exact h.dropOldest.append s.ring.incmod_dropOldest

/-- Any calls. -/
theorem keepsLog_all (calls : List (CStr × Bool)) : KeepsLog (addAll calls) (logAll calls) := by
  induction calls using List.reverseRecOn with
  | nil => exact keepsLog_histinit
  | append_singleton calls call ih =>
    rw [addAll, logAll, List.foldl_append, List.foldl_append]
    exact ih.addhist

/-! ## §4 Finding -/

/-- By number: the commands kept are found, nothing else. -/
theorem KeepsLog.gethistn (h : KeepsLog s log) (n : ℤ) :
    s.gethistn n =
      if (log.added.length - log.kept : ℤ) < n ∧ n ≤ log.added.length then
        log.added[(n - 1).toNat]?
      else none := by
  have hkept := h.kept_le
  have hmax := h.kept_le_histmax
  rw [CmdHist.gethistn, h.histno]
  by_cases hout : n < (log.added.length + 1 : ℤ) - histmax ∨ n > log.added.length + 1
  · rw [if_pos hout, if_neg (by omega)]
  rw [if_neg hout]
  obtain ⟨d, hd⟩ : ∃ d : ℕ, (log.added.length + 1 : ℤ) - n = d :=
    ⟨((log.added.length + 1 : ℤ) - n).toNat, by omega⟩
  have hdle : d ≤ histmax := by omega
  rw [hd, Int.toNat_natCast, h.histi, decmod_iterate _ (Nat.le_succ_of_le hdle)]
  by_cases hin : (log.added.length - log.kept : ℤ) < n ∧ n ≤ log.added.length
  · have hslot := h.slot (n - 1).toNat (by omega) (by omega)
    rw [if_pos hin, ← hslot]
    congr 1
    unfold histmax at *
    omega
  · rw [if_neg hin, h.free (by omega) hdle]

/-- The search goes through the commands kept from the newest to the oldest one; of the first `m`
    it starts at the last. -/
theorem KeepsLog.findBack (h : KeepsLog s log) {m fuel : ℕ} (hm : m ≤ log.kept) (hfuel : m < fuel) :
    s.ring.findBack p fuel ((log.added.length - log.kept + m + histmax) % (histmax + 1)) =
      (log.lines.take m).reverse.find? fun q => strbequ q p := by
  obtain ⟨fuel, rfl⟩ : ∃ f, fuel = f + 1 := ⟨fuel - 1, by omega⟩
  have hkept := h.kept_le
  have hmax := h.kept_le_histmax
  have hback : decmod s.ring.histo =
      (log.added.length - log.kept + (histmax + 1) - 1) % (histmax + 1) := by
    rw [h.histo]
    exact decmod_iterate (d := 1) _ (by decide)
  induction m generalizing fuel with
  | zero =>
    have hend : (log.added.length - log.kept + 0 + histmax) % (histmax + 1) =
        decmod s.ring.histo := hback.symm
    rw [History.findBack, if_pos hend]
    rfl
  | succ m ih =>
    obtain ⟨fuel, rfl⟩ : ∃ f, fuel = f + 1 := ⟨fuel - 1, by omega⟩
    have hthis : (log.added.length - log.kept + (m + 1) + histmax) % (histmax + 1) =
        (log.added.length - log.kept + m) % (histmax + 1) := by
      rw [Nat.add_assoc _ (m + 1), Nat.add_right_comm m, ← Nat.add_assoc, ← Nat.add_assoc,
        Nat.add_assoc _ histmax, Nat.add_mod_right]
    have hnext : decmod ((log.added.length - log.kept + m) % (histmax + 1)) =
        (log.added.length - log.kept + m + histmax) % (histmax + 1) :=
      decmod_iterate (d := 1) _ (by decide)
    have hgo : (log.added.length - log.kept + m) % (histmax + 1) ≠ decmod s.ring.histo := by
      rw [hback]
      unfold histmax at *
      omega
    have hlt : log.added.length - log.kept + m < log.added.length := by omega
    have hline : log.lines[m]? = some (log.added[log.added.length - log.kept + m]) := by
      rw [Log.lines, List.getElem?_drop, List.getElem?_eq_getElem hlt]
    rw [hthis, History.findBack, if_neg hgo, h.slot _ (Nat.le_add_right _ _) hlt,
      List.getElem?_eq_getElem hlt, List.take_add_one, hline, Option.toList_some,
      List.reverse_concat, List.find?_cons]
    dsimp only
    cases strbequ log.added[log.added.length - log.kept + m] p with
    | true => rfl
    | false =>
      rw [if_neg Bool.false_ne_true, hnext]
      exact ih (by omega) fuel (by omega)

/-- By prefix: the newest of the commands kept that start with it. -/
theorem KeepsLog.gethists (h : KeepsLog s log) (p : CStr) :
    s.gethists p = log.lines.reverse.find? fun q => strbequ q p := by
  have hkept := h.kept_le
  have hmax := h.kept_le_histmax
  have hstart : decmod s.ring.histi =
      (log.added.length - log.kept + log.kept + histmax) % (histmax + 1) := by
    rw [h.histi, Nat.sub_add_cancel hkept]
    exact decmod_iterate (d := 1) _ (by decide)
  have hall : log.lines.take log.kept = log.lines := by
    rw [List.take_of_length_le]
    rw [Log.lines, List.length_drop]
    omega
  rw [CmdHist.gethists, hstart, h.findBack (Nat.le_refl _) (by omega), hall]

/-! ## §5 What is kept -/

/-- Where there is memory for each line, the last `HISTMAX` commands are kept. -/
theorem kept_of_alloc {calls : List (CStr × Bool)} (h : ∀ call ∈ calls, call.2 = true) :
    (logAll calls).kept = min (logAll calls).added.length histmax := by
  induction calls using List.reverseRecOn with
  | nil => rfl
  | append_singleton calls call ih =>
    have hcalls := ih fun c hc => h c (List.mem_append_left _ hc)
    rw [logAll, List.foldl_append]
    change ((logAll calls).add call.1 call.2).kept =
      min ((logAll calls).add call.1 call.2).added.length histmax
    rw [h call (List.mem_append_right _ List.mem_cons_self), Log.add]
    split
    · exact hcalls
    · rw [if_pos rfl, List.length_append, List.length_singleton]
      dsimp only
      omega

/-- Without memory the oldest of them is lost at most. -/
theorem le_kept (calls : List (CStr × Bool)) :
    min (logAll calls).added.length (histmax - 1) ≤ (logAll calls).kept := by
  induction calls using List.reverseRecOn with
  | nil => exact Nat.zero_le _
  | append_singleton calls call ih =>
    rw [logAll, List.foldl_append]
    change min ((logAll calls).add call.1 call.2).added.length (histmax - 1) ≤
      ((logAll calls).add call.1 call.2).kept
    rw [Log.add]
    split
    · exact ih
    · split
      · rw [List.length_append, List.length_singleton]
        dsimp only
        omega
      · exact Nat.le_min.mpr ⟨ih, Nat.min_le_right _ _⟩

/-- **The command history**, after any calls of `addhist`.  By number the commands kept are found
    and nothing else, by prefix the newest one of them that starts with it.  The indices belong to
    the number of commands added and the number kept.  The last `HISTMAX` commands are kept where
    `malloc` has memory for each line; where it has none, the oldest of these can be gone. -/
theorem history_exact (calls : List (CStr × Bool)) :
    (∀ n, (addAll calls).gethistn n =
      if ((logAll calls).added.length - (logAll calls).kept : ℤ) < n ∧
          n ≤ (logAll calls).added.length then (logAll calls).added[(n - 1).toNat]?
      else none) ∧
    (∀ p, (addAll calls).gethists p =
      (logAll calls).lines.reverse.find? fun q => decide (p <+: q)) ∧
    (addAll calls).histno = (logAll calls).added.length + 1 ∧
    (addAll calls).ring.histi = (logAll calls).added.length % (histmax + 1) ∧
    ((addAll calls).ring.histo + (logAll calls).kept) % (histmax + 1) =
      (addAll calls).ring.histi ∧
    min (logAll calls).added.length (histmax - 1) ≤ (logAll calls).kept ∧
    (logAll calls).kept ≤ min (logAll calls).added.length histmax ∧
    ((∀ call ∈ calls, call.2 = true) →
      (logAll calls).kept = min (logAll calls).added.length histmax) := by
  have h := keepsLog_all calls
  have hprefix : ∀ p, (fun q => strbequ q p) = fun q => decide (p <+: q) := fun p =>
    funext fun q => Bool.eq_iff_iff.mpr (by rw [strbequ_iff, decide_eq_true_iff])
  refine ⟨h.gethistn, fun p => hprefix p ▸ h.gethists p, h.histno, h.histi, ?_, le_kept calls,
    Nat.le_min.mpr ⟨h.kept_le, h.kept_le_histmax⟩, kept_of_alloc⟩
  rw [h.histi, h.histo, Nat.mod_add_mod, Nat.sub_add_cancel h.kept_le]

end Pmon.Cmds
