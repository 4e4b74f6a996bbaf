import Mathlib.Data.List.Basic
import Mathlib.Data.Int.Notation
import Pmon.Cmds.Fill

/-!
# The command `search`

`cmd_search` of `pmon/cmds/memcmds.c`: a pattern of bytes and strings is looked for in a range of
memory.  The pattern is put together without a look at the size of its buffer.  The end of the range
is moved back by the length of the pattern, as a 32-bit number, and the search goes on as long as an
address is not behind it.

## Key results

- `searchLoop_eq`: the addresses that a search reports.
- `searchLoop_endless`: a search up to the last address does not end.
- `cmdSearch_exact`: when a search reports what it should.
-/

namespace Pmon.Cmds.Search

open Pmon.Libc
open Fill (patsz decimalRsa)

/-! ## §1 The command -/

/-- The number of addresses. -/
def space : ℕ := 4294967296

/-- What comes of the arguments: a pattern that is too long for its buffer, one of them that is
    wrong, or a pattern. -/
inductive Parsed where
  | overruns
  | bad
  | pattern (pat : List UInt8)
deriving DecidableEq

/-- The loop over the arguments behind the addresses. -/
def parseArgs (getRsa : CStr → Option (BitVec 32)) : List CStr → (pat : List UInt8) → Parsed
  | [], pat => .pattern pat
  | arg :: args, pat =>
    -- "-s"
    if arg = [45, 115] then
      match args with
      | [] => .bad
      | s :: args =>
        if patsz < (pat ++ s).length then .overruns else parseArgs getRsa args (pat ++ s)
    else
      match getRsa arg with
      | none => .bad
      | some a =>
        if patsz ≤ pat.length then .overruns
        else parseArgs getRsa args (pat ++ [UInt8.ofNat a.toNat])

/-- The inner loop: the pattern is at an address. -/
def isAt (load : ℕ → UInt8) : (pat : List UInt8) → (adr : ℕ) → Bool
  | [], _ => true
  | s :: pat, adr => if s ≠ load adr then false else isAt load pat ((adr + 1) % space)

/-- The loop over the addresses, with those that have been reported; none while it goes on.
    `more` tells whether the user stops. -/
def searchLoop (load : ℕ → UInt8) (pat : List UInt8) (more : ℕ → Bool) (upto : ℕ) :
    (fuel : ℕ) → (frm : ℕ) → (reports : List ℕ) → Option (List ℕ)
  | 0, _, _ => none
  | fuel + 1, frm, reports =>
    if frm ≤ upto then
      if isAt load pat frm then
        if more reports.length then some (reports ++ [frm])
        else searchLoop load pat more upto fuel ((frm + 1) % space) (reports ++ [frm])
      else searchLoop load pat more upto fuel ((frm + 1) % space) reports
    else some reports

/-- How a call ends. -/
inductive Outcome where
  | overruns
  | goesOn
  | returns (code : ℤ) (reports : List ℕ)
deriving DecidableEq

/-- `to - (d - pat - 1)`. -/
def lastAddr (upto len : ℕ) : ℕ := (upto + 1 + space - len) % space

/-- `cmd_search`, after some rounds of its loop. -/
def cmdSearch (getRsa : CStr → Option (BitVec 32)) (load : ℕ → UInt8) (more : ℕ → Bool)
    (fuel : ℕ) (av1 av2 : CStr) (args : List CStr) : Outcome :=
  match getRsa av1, getRsa av2 with
  | some frm, some upto =>
    match parseArgs getRsa args [] with
    | .overruns => .overruns
    | .bad => .returns (-1) []
    | .pattern pat =>
      if upto.toNat ≤ frm.toNat then .returns 1 []
      else
        match searchLoop load pat more (lastAddr upto.toNat pat.length) fuel frm.toNat [] with
        | none => .goesOn
        | some reports => .returns 0 reports
  | _, _ => .returns (-1) []

/-! ## §2 What a search should do -/

variable {getRsa : CStr → Option (BitVec 32)} {load : ℕ → UInt8} {more : ℕ → Bool}
  {av1 av2 : CStr} {args : List CStr} {pat pre : List UInt8} {frm upto last fuel a : ℕ}

/-- The pattern that arguments stand for. -/
inductive PatternArgs (getRsa : CStr → Option (BitVec 32)) : List CStr → List UInt8 → Prop where
  | nil : PatternArgs getRsa [] []
  | string (s : CStr) {args : List CStr} {pat : List UInt8} (h : PatternArgs getRsa args pat) :
      PatternArgs getRsa ([45, 115] :: s :: args) (s ++ pat)
  | byte {arg : CStr} {v : BitVec 32} {args : List CStr} {pat : List UInt8} (hne : arg ≠ [45, 115])
      (hv : getRsa arg = some v) (h : PatternArgs getRsa args pat) :
      PatternArgs getRsa (arg :: args) (UInt8.ofNat v.toNat :: pat)

/-- The addresses at which a pattern lies in a range. -/
def occurrences (load : ℕ → UInt8) (pat : List UInt8) (frm upto : ℕ) : List ℕ :=
  (List.range space).filter fun a =>
    frm ≤ a ∧ a + pat.length ≤ upto + 1 ∧ ∀ i : Fin pat.length, load (a + i) = pat[i]

/-- **What a search for a pattern should do**: reject one that does not fit its buffer, and report
    the addresses of another. -/
def SearchRight (getRsa : CStr → Option (BitVec 32)) (load : ℕ → UInt8) (more : ℕ → Bool)
    (av1 av2 : CStr) (args : List CStr) (pat : List UInt8) (frm upto : ℕ) : Prop :=
  if patsz < pat.length then
    ∃ code ≠ 0, ∃ fuel, cmdSearch getRsa load more fuel av1 av2 args = .returns code []
  else
    ∃ fuel, cmdSearch getRsa load more fuel av1 av2 args =
      .returns 0 (occurrences load pat frm upto)

/-! ## §3 The pattern -/

theorem parseArgs_value {arg : CStr} {v : BitVec 32} (hne : arg ≠ [45, 115])
    (hv : getRsa arg = some v) : parseArgs getRsa (arg :: args) pre =
      if patsz ≤ pre.length then .overruns
      else parseArgs getRsa args (pre ++ [UInt8.ofNat v.toNat]) := by
  rw [parseArgs.eq_def]
  dsimp only
  rw [if_neg hne, hv]

/-- **The arguments make their pattern**, or run over the buffer. -/
theorem parseArgs_eq (h : PatternArgs getRsa args pat) (hpre : pre.length ≤ patsz) :
    parseArgs getRsa args pre =
      if patsz < (pre ++ pat).length then .overruns else .pattern (pre ++ pat) := by
  induction h generalizing pre with
  | nil => rw [List.append_nil, if_neg (Nat.not_lt.mpr hpre), parseArgs]
  | @string s args pat h ih =>
    rw [parseArgs, if_pos rfl, ← List.append_assoc]
    split
    · rename_i hlong
      rw [if_pos]
      simp only [List.length_append] at hlong ⊢
      omega
    · rename_i hfits
      exact ih (Nat.not_lt.mp hfits)
  | @byte arg v args pat hne hv h ih =>
    have hpat := List.append_cons pre (UInt8.ofNat v.toNat) pat
    rw [parseArgs_value hne hv, hpat]
    split
    · rename_i hfull
      rw [if_pos]
      simp only [List.length_append, List.length_cons, List.length_nil]
      omega
    · rename_i hroom
      refine ih ?_
      rw [List.length_append, List.length_singleton]
      omega

theorem forall_cons {s : UInt8} :
    (∀ i : Fin (s :: pat).length, load (a + i) = (s :: pat)[i]) ↔
      load a = s ∧ ∀ i : Fin pat.length, load (a + 1 + i) = pat[i] := by
  refine (Fin.forall_fin_succ (n := pat.length)).trans (and_congr Iff.rfl ?_)
  refine forall_congr' fun i => ?_
  rw [Nat.add_assoc a, Nat.add_comm 1]
  rfl

/-- The pattern is where its bytes are. -/
theorem isAt_iff (h : a + pat.length ≤ space) :
    isAt load pat a ↔ ∀ i : Fin pat.length, load (a + i) = pat[i] := by
  induction pat generalizing a with
  | nil => exact iff_of_true rfl fun i => i.elim0
  | cons s pat ih =>
    rw [List.length_cons] at h
    rw [isAt, forall_cons]
    by_cases hs : s = load a
    · rw [if_neg (not_not.mpr hs), and_iff_right hs.symm]
      cases pat with
      | nil => exact iff_of_true rfl fun i => i.elim0
      | cons t pat =>
        rw [List.length_cons] at h
        rw [Nat.mod_eq_of_lt (by omega), ih (by rw [List.length_cons]; omega)]
    · rw [if_pos hs]
      exact iff_of_false Bool.false_ne_true fun hall => hs hall.1.symm

/-! ## §4 The loop -/

/-- **A search that ends**: the addresses up to the last one, after so many rounds. -/
theorem searchLoop_eq (hmore : ∀ k, more k = false) (hlast : last < space - 1)
    (reports : List ℕ) : searchLoop load pat more last fuel frm reports =
      if last + 1 - frm < fuel then
        some (reports ++ (List.range' frm (last + 1 - frm)).filter (isAt load pat))
      else none := by
  induction fuel generalizing frm reports with
  | zero => exact (if_neg (Nat.not_lt_zero _)).symm
  | succ fuel ih =>
    rw [searchLoop]
    split
    · rename_i hle
      have hnext : (frm + 1) % space = frm + 1 := Nat.mod_eq_of_lt (by omega)
      have hrange : List.range' frm (last + 1 - frm) =
          frm :: List.range' (frm + 1) (last + 1 - (frm + 1)) := by
        rw [show last + 1 - frm = last + 1 - (frm + 1) + 1 by omega, List.range'_succ]
      have hrounds : last + 1 - frm < fuel + 1 ↔ last + 1 - (frm + 1) < fuel := by omega
      rw [hmore, hnext, hrange, List.filter_cons]
      simp only [hrounds]
      split
      · rw [if_neg Bool.false_ne_true, ih, List.append_assoc]
        rfl
      · exact ih _
    · rename_i hgt
      have hnone : last + 1 - frm = 0 := by omega
      rw [hnone, if_pos (Nat.succ_pos fuel)]
      exact congrArg some (List.append_nil _).symm

/-- **No end**: there is no address behind the last one. -/
theorem searchLoop_endless (hmore : ∀ k, more k = false) (hfrm : frm < space)
    (reports : List ℕ) : searchLoop load pat more (space - 1) fuel frm reports = none := by
  induction fuel generalizing frm reports with
  | zero => rfl
  | succ fuel ih =>
    have hspace : 0 < space := by decide
    have hnext : (frm + 1) % space < space := Nat.mod_lt _ hspace
    rw [searchLoop, if_pos (by omega), hmore, if_neg Bool.false_ne_true]
    split
    · exact ih hnext _
    · exact ih hnext _

/-! ## §5 What is reported -/

variable {e : ℕ}

/-- The addresses at which a pattern lies in a range that is long enough. -/
theorem occurrences_eq (hlen : pat.length + e = upto + 1) (hupto : upto < space)
    (hfrm : frm < space) (he : e < space) : occurrences load pat frm upto =
      (List.range' frm (e + 1 - frm)).filter (isAt load pat) := by
  have hfront : List.range space = List.range' 0 frm ++ List.range' frm (e + 1 - frm) ++
      List.range' (frm + (e + 1 - frm)) (space - frm - (e + 1 - frm)) := by
    have hfirst := List.range'_append_1 (s := 0) (m := frm) (n := e + 1 - frm)
    have hsecond := List.range'_append_1 (s := 0) (m := frm + (e + 1 - frm))
      (n := space - frm - (e + 1 - frm))
    rw [Nat.zero_add] at hfirst hsecond
    rw [hfirst, hsecond, List.range_eq_range']
    congr 1
    omega
  have hbelow : ∀ a, a ∈ List.range' 0 frm → ¬ frm ≤ a := by
    intro a ha
    rw [List.mem_range'_1] at ha
    omega
  have habove : ∀ a, a ∈ List.range' (frm + (e + 1 - frm)) (space - frm - (e + 1 - frm)) →
      ¬ a + pat.length ≤ upto + 1 := by
    intro a ha
    rw [List.mem_range'_1] at ha
    omega
  rw [occurrences, hfront, List.filter_append, List.filter_append]
  have hnone : (List.range' 0 frm).filter (fun a => decide (frm ≤ a ∧
      a + pat.length ≤ upto + 1 ∧ ∀ i : Fin pat.length, load (a + i) = pat[i])) = [] := by
    rw [List.filter_eq_nil_iff]
    intro a ha hkeep
    exact hbelow a ha (of_decide_eq_true hkeep).1
  have hnone' : (List.range' (frm + (e + 1 - frm)) (space - frm - (e + 1 - frm))).filter
      (fun a => decide (frm ≤ a ∧ a + pat.length ≤ upto + 1 ∧
        ∀ i : Fin pat.length, load (a + i) = pat[i])) = [] := by
    rw [List.filter_eq_nil_iff]
    intro a ha hkeep
    exact habove a ha (of_decide_eq_true hkeep).2.1
  rw [hnone, hnone', List.nil_append, List.append_nil]
  refine List.filter_congr fun a ha => ?_
  rw [List.mem_range'_1] at ha
  have hat := @isAt_iff load pat a (by omega)
  rw [Bool.eq_iff_iff, decide_eq_true_eq, hat, and_iff_right ha.1, and_iff_right (by omega)]

/-- In a range that is shorter than the pattern there are none. -/
theorem occurrences_short (hlen : upto + 1 < pat.length) : occurrences load pat frm upto = [] := by
  rw [occurrences, List.filter_eq_nil_iff]
  intro a _ hkeep
  have hfits := (of_decide_eq_true hkeep).2.1
  omega

/-- The last address at which the pattern can begin is there, and is not the last of all; or the
    range is too short by two bytes and more, and the pattern is nowhere behind its beginning up to
    the address that wrapping makes of the last one. -/
def EndsRight (load : ℕ → UInt8) (pat : List UInt8) (frm upto : ℕ) : Prop :=
  pat.length ≤ upto + 1 ∧ upto + 1 < pat.length + (space - 1) ∨
    upto + 2 < pat.length ∧
      ∀ a, frm ≤ a → a < upto + 2 + space - pat.length → isAt load pat a = false

/-- A search with a pattern. -/
theorem cmdSearch_eq (from' upto' : BitVec 32) (hfrom : getRsa av1 = some from')
    (hupto : getRsa av2 = some upto') (hlt : from'.toNat < upto'.toNat)
    (hpat : PatternArgs getRsa args pat) :
    cmdSearch getRsa load more fuel av1 av2 args =
      if patsz < pat.length then .overruns
      else
        match searchLoop load pat more (lastAddr upto'.toNat pat.length) fuel from'.toNat [] with
        | none => .goesOn
        | some reports => .returns 0 reports := by
  rw [cmdSearch, hfrom, hupto]
  dsimp only
  rw [parseArgs_eq hpat (Nat.zero_le _), List.nil_append]
  by_cases hlong : patsz < pat.length
  · rw [if_pos hlong, if_pos hlong]
  · rw [if_neg hlong, if_neg hlong]
    exact if_neg (Nat.not_le.mpr hlt)

/-- The outcome of the loop. -/
def outcome : Option (List ℕ) → Outcome
  | none => .goesOn
  | some reports => .returns 0 reports

/-- A search that ends returns what it has found. -/
theorem exists_outcome_iff (hmore : ∀ k, more k = false) (hlast : last < space - 1)
    {reports : List ℕ} :
    (∃ fuel, outcome (searchLoop load pat more last fuel frm []) = .returns 0 reports) ↔
      (List.range' frm (last + 1 - frm)).filter (isAt load pat) = reports := by
  simp only [searchLoop_eq hmore hlast, List.nil_append]
  constructor
  · rintro ⟨fuel, hret⟩
    split at hret
    · exact (Outcome.returns.inj hret).2
    · cases hret
  · rintro rfl
    exact ⟨last + 1 - frm + 1, by rw [if_pos (Nat.lt_succ_self _)]; rfl⟩

theorem not_exists_outcome (hmore : ∀ k, more k = false) (hfrm : frm < space)
    {reports : List ℕ} :
    ¬ ∃ fuel, outcome (searchLoop load pat more (space - 1) fuel frm []) =
      .returns 0 reports := by
  rintro ⟨fuel, hret⟩
  rw [searchLoop_endless hmore hfrm] at hret
  cases hret

/-- A search of a range for a pattern that fits. -/
theorem search_iff (hmore : ∀ k, more k = false) (hlt : frm < upto) (hu : upto < space)
    (hsmall : pat.length ≤ patsz) :
    (∃ fuel, outcome (searchLoop load pat more (lastAddr upto pat.length) fuel frm []) =
      .returns 0 (occurrences load pat frm upto)) ↔ EndsRight load pat frm upto := by
  have hspace : space = 4294967296 := rfl
  have hpatsz : patsz = 80 := rfl
  rcases Nat.lt_or_ge (upto + 1) pat.length with hshort | hlong
  · -- The range is shorter than the pattern; the last address wraps.
    have hlast : lastAddr upto pat.length = upto + 1 + space - pat.length :=
      Nat.mod_eq_of_lt (by omega)
    rw [hlast, occurrences_short hshort, EndsRight, or_iff_right (by omega)]
    by_cases hend : pat.length = upto + 2
    · rw [show upto + 1 + space - pat.length = space - 1 by omega]
      exact iff_of_false (not_exists_outcome hmore (by omega)) (by omega)
    · rw [exists_outcome_iff hmore (by omega), and_iff_right (by omega), List.filter_eq_nil_iff]
      refine forall_congr' fun a => ?_
      rw [List.mem_range'_1, Bool.not_eq_true]
      constructor
      · intro h hfrom hto
        exact h ⟨hfrom, by omega⟩
      · rintro h ⟨hfrom, hto⟩
        exact h hfrom (by omega)
  · obtain ⟨e, he⟩ := Nat.exists_eq_add_of_le hlong
    rw [EndsRight, or_iff_left (by omega), and_iff_right hlong]
    rcases Nat.lt_trichotomy e (space - 1) with hlt' | heq | hgt
    · have hlast : lastAddr upto pat.length = e := by
        rw [lastAddr, show upto + 1 + space - pat.length = e + space by omega,
          Nat.add_mod_right, Nat.mod_eq_of_lt (by omega)]
      rw [hlast, exists_outcome_iff hmore hlt',
        occurrences_eq he.symm hu (by omega) (by omega)]
      exact iff_of_true rfl (by omega)
    · have hlast : lastAddr upto pat.length = space - 1 := by
        rw [lastAddr, show upto + 1 + space - pat.length = space - 1 + space by omega,
          Nat.add_mod_right, Nat.mod_eq_of_lt (by omega)]
      rw [hlast]
      exact iff_of_false (not_exists_outcome hmore (by omega)) (by omega)
    · -- An empty pattern up to the last address: the last address wraps to 0.
      have hempty : pat = [] := List.eq_nil_of_length_eq_zero (by omega)
      subst hempty
      have hlast : lastAddr upto 0 = 0 := by
        rw [lastAddr, show upto + 1 + space - 0 = 0 + space + space by
          rw [List.length_nil] at he; omega, Nat.add_mod_right, Nat.add_mod_right]
        rfl
      rw [List.length_nil, hlast, exists_outcome_iff hmore (by omega)]
      rw [List.length_nil] at he
      refine iff_of_false (fun heq => ?_) (by omega)
      have hmem : upto ∈ occurrences load [] frm upto :=
        List.mem_filter.mpr ⟨List.mem_range.mpr hu,
          decide_eq_true ⟨by omega, Nat.le_succ _, fun i => i.elim0⟩⟩
      rw [← heq] at hmem
      have hin := List.mem_range'_1.mp (List.mem_filter.mp hmem).1
      omega

/-- **`cmd_search`**, where the user does not stop it, does what it should exactly if the pattern
    fits its buffer and the range ends right. -/
theorem cmdSearch_exact (from' upto' : BitVec 32) (hmore : ∀ k, more k = false)
    (hfrom : getRsa av1 = some from') (hupto : getRsa av2 = some upto')
    (hlt : from'.toNat < upto'.toNat) (hpat : PatternArgs getRsa args pat) :
    SearchRight getRsa load more av1 av2 args pat from'.toNat upto'.toNat ↔
      pat.length ≤ patsz ∧ EndsRight load pat from'.toNat upto'.toNat := by
  have hcall : ∀ fuel, cmdSearch getRsa load more fuel av1 av2 args =
      if patsz < pat.length then .overruns
      else outcome (searchLoop load pat more (lastAddr upto'.toNat pat.length) fuel
        from'.toNat []) := fun fuel =>
    cmdSearch_eq from' upto' hfrom hupto hlt hpat
  simp only [SearchRight, hcall]
  by_cases hlong : patsz < pat.length
  · rw [if_pos hlong]
    refine iff_of_false ?_ fun h => Nat.not_lt.mpr h.1 hlong
    rintro ⟨code, -, fuel, hret⟩
    rw [if_pos hlong] at hret
    cases hret
  · simp only [if_neg hlong]
    rw [and_iff_right (Nat.not_lt.mp hlong)]
    exact search_iff hmore hlt upto'.isLt (Nat.not_lt.mp hlong)

/-- A search for a byte in three. -/
theorem cmdSearch_three : SearchRight decimalRsa (fun _ => 7) (fun _ => false) (ascii "4")
    (ascii "6") [ascii "7"] [7] 4 6 :=
  (cmdSearch_exact 4#32 6#32 (fun _ => rfl) (by decide +kernel) (by decide +kernel) (by decide)
    (.byte (by decide) (v := 7#32) (by decide +kernel) .nil)).mpr
    ⟨by decide, Or.inl ⟨by decide, by decide⟩⟩

/-- A search up to the last address does not end. -/
theorem cmdSearch_lastAddress : ¬ SearchRight decimalRsa (fun _ => 0) (fun _ => false)
    (ascii "0") (ascii "4294967295") [ascii "7"] [7] 0 4294967295 := by
  rintro ⟨fuel, hret⟩
  have hcall : cmdSearch decimalRsa (fun _ => 0) (fun _ => false) fuel (ascii "0")
      (ascii "4294967295") [ascii "7"] = .goesOn := by
    have hpat : PatternArgs decimalRsa [ascii "7"] [7] :=
      .byte (by decide) (v := 7#32) (by decide +kernel) .nil
    rw [cmdSearch_eq 0#32 4294967295#32 (by decide +kernel) (by decide +kernel) (by decide) hpat]
    change outcome (searchLoop _ _ _ (space - 1) fuel 0 []) = _
    rw [searchLoop_endless (fun _ => rfl) (by decide)]
    rfl
  rw [hcall] at hret
  cases hret

end Pmon.Cmds.Search
