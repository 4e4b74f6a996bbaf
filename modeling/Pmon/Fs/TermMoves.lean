import Pmon.Fs.Termio

/-!
# Calls of the terminals

What a call of `term_write` or `term_read` does to every device, whether it ends or is left by a
`SIGINT`.

## Key results

- `termWrite_moves`: what a write puts on its way to each device, to one or to all of them.
- `readLoop_moves`: what a read takes, echoes and returns.
-/

namespace Pmon.Fs.Tty

open Pmon.Lib

variable {n : ℕ} {tab tab' : DevTable n} {scan : Scan n} {scans : List (Scan n)}
  {dev dsel i : Fin n} {buf e taken : List UInt8} {p p' : DevEntry} {fuel : ℕ}

/-! ## §1 A write to one device -/

/-- What has been waiting is handed over when nothing waits. -/
theorem Moved.waits (h : Moved [] taken p p') (hnone : p.txq.toList = []) :
    p'.txq.toList = [] := by
  have hout := h.out
  obtain ⟨more, hmore⟩ := h.handed
  unfold DevEntry.out DevEntry.sent at hout
  rw [← hmore, List.filterMap_append, hnone, List.append_nil, List.append_nil,
    List.append_assoc] at hout
  have hnil := List.append_right_eq_self.mp hout
  exact (List.append_eq_nil_iff.mp hnil).2

theorem toList_nil {q : RingQueue UInt8} : q.toList = [] ↔ q.count = 0 := by
  rw [← List.length_eq_zero_iff, RingQueue.length_toList]

theorem drain_moves (dsel : Fin n) (h : ∀ i, (tab i).Valid) (scans : List (Scan n)) :
    (∀ i, Moved [] [] (tab i) ((drain dsel tab scans).1 i)) ∧
      ((drain dsel tab scans).2.2 = true → ((drain dsel tab scans).1 dsel).txq.count = 0) := by
  induction scans generalizing tab with
  | nil => exact ⟨fun i => .refl (h i), fun hok => of_decide_eq_true hok⟩
  | cons scan scans ih =>
    rw [drain]
    by_cases hnone : (tab dsel).txq.count = 0
    · rw [if_pos hnone]
      exact ⟨fun i => .refl (h i), fun _ => hnone⟩
    · rw [if_neg hnone]
      have hscan := scandevs_moves h scan
      dsimp only
      split
      · exact ⟨hscan, fun hok => absurd hok Bool.false_ne_true⟩
      · obtain ⟨hmoves, hcount⟩ := ih fun i => (hscan i).valid
        exact ⟨fun i => (hscan i).trans (hmoves i), hcount⟩

/-- What is done to one device, and nothing to the others. -/
def AtOne (dsel : Fin n) (e : List UInt8) (tab tab' : DevTable n) : Prop :=
  ∀ i, Moved (if i = dsel then e else []) [] (tab i) (tab' i)

theorem AtOne.trans {tab'' : DevTable n} {e' : List UInt8} (h : AtOne dsel e tab tab')
    (h' : AtOne dsel e' tab' tab'') : AtOne dsel (e ++ e') tab tab'' := by
  intro i
  have hboth := (h i).trans (h' i)
  by_cases hi : i = dsel
  · simpa only [if_pos hi, List.append_nil] using hboth
  · simpa only [if_neg hi, List.append_nil] using hboth

theorem atOne_of_moves (h : ∀ i, Moved [] [] (tab i) (tab' i)) (dsel : Fin n) :
    AtOne dsel [] tab tab' := by
  intro i
  rw [ite_self]
  exact h i

theorem expand_append (onlcr : Bool) (l l' : List UInt8) :
    expand onlcr (l ++ l') = expand onlcr l ++ expand onlcr l' := List.flatMap_append

/-- The queue of a device is filled. -/
theorem fill_moves (h : ∀ i, (tab i).Valid) (dsel : Fin n) (buf : List UInt8) :
    ∃ done, buf = done ++
        (fill (tab dsel).t.onlcr (tab dsel).txq.space (tab dsel).txq buf).2 ∧
      AtOne dsel (expand (tab dsel).t.onlcr done) tab (Function.update tab dsel { tab dsel with
        txq := (fill (tab dsel).t.onlcr (tab dsel).txq.space (tab dsel).txq buf).1 }) := by
  obtain ⟨done, hbuf, hvalid, hlist, hlimit, -⟩ :=
    fill_spec (tab dsel).t.onlcr (h dsel).txq _ (Nat.le_refl _) buf
  refine ⟨done, hbuf, ?_⟩
  intro i
  by_cases hi : i = dsel
  · subst hi
    rw [if_pos rfl, Function.update_self]
    refine ⟨⟨(h i).rxq, hvalid⟩, rfl, hlimit, List.prefix_refl _, ?_,
      ⟨[], (List.append_nil _).symm, (List.append_nil _).symm⟩, fun _ => rfl, fun _ => Or.inl⟩
    unfold DevEntry.out
    dsimp only
    rw [hlist, List.append_assoc]
    rfl
  · rw [if_neg hi, Function.update_of_ne hi]
    exact .refl (h i)

/-- **The data for one device**: as far as the write goes, all of it when it ends, and then nothing
    waits. -/
theorem writeDev_moves (fuel : ℕ) (dsel : Fin n) (h : ∀ i, (tab i).Valid) (scans : List (Scan n))
    (buf : List UInt8) : ∃ e, e <+: expand (tab dsel).t.onlcr buf ∧
      AtOne dsel e tab (writeDev dsel fuel tab scans buf).1 ∧
        ((writeDev dsel fuel tab scans buf).2.2 = true →
          e = expand (tab dsel).t.onlcr buf ∧
            (buf ≠ [] → ((writeDev dsel fuel tab scans buf).1 dsel).txq.count = 0)) := by
  induction fuel generalizing tab scans buf with
  | zero =>
    exact ⟨[], List.nil_prefix, atOne_of_moves (fun i => .refl (h i)) dsel,
      fun hok => absurd hok Bool.false_ne_true⟩
  | succ fuel ih =>
    rw [writeDev]
    by_cases hbuf : buf = []
    · subst hbuf
      rw [if_pos rfl]
      exact ⟨[], List.nil_prefix, atOne_of_moves (fun i => .refl (h i)) dsel,
        fun _ => ⟨rfl, fun hne => absurd rfl hne⟩⟩
    · rw [if_neg hbuf]
      dsimp only
      obtain ⟨done, hdone, hfill⟩ := fill_moves h dsel buf
      generalize (fill (tab dsel).t.onlcr (tab dsel).txq.space (tab dsel).txq buf).2 = rest
        at hdone ⊢
      generalize Function.update tab dsel _ = filled at hfill ⊢
      have hvalid := fun i => (hfill i).valid
      obtain ⟨hdrain, hcount⟩ := drain_moves dsel hvalid scans
      generalize drain dsel filled scans = drained at hdrain hcount ⊢
      obtain ⟨tab₁, scans₁, goesOn⟩ := drained
      have hone := hfill.trans (atOne_of_moves hdrain dsel)
      rw [List.append_nil] at hone
      rw [hdone, expand_append]
      cases goesOn with
      | false =>
        exact ⟨_, List.prefix_append _ _, hone, fun hok => absurd hok Bool.false_ne_true⟩
      | true =>
        have ht : (tab₁ dsel).t = (tab dsel).t := (hone dsel).t
        obtain ⟨e, hpre, hmoves, hok⟩ := ih (fun i => (hone i).valid) scans₁ rest
        rw [ht] at hpre hok
        rw [if_pos rfl]
        refine ⟨_, (List.prefix_append_right_inj _).mpr hpre, hone.trans hmoves, ?_⟩
        intro hend
        obtain ⟨rfl, hnone⟩ := hok hend
        refine ⟨rfl, fun _ => ?_⟩
        by_cases hrest : rest = []
        · -- nothing is left, and the queue has just been drained
          subst hrest
          have hlast := hmoves dsel
          rw [if_pos rfl] at hlast
          exact toList_nil.mp (hlast.waits (toList_nil.mpr (hcount rfl)))
        · exact hnone hrest

/-! ## §2 A write to all of them -/

/-- The devices that a write goes to, from `dsel` on. -/
def devsFrom (both : Bool) (dev : Fin n) : (fuel : ℕ) → Fin n → List (Fin n)
  | 0, _ => []
  | fuel + 1, dsel =>
    dsel :: if nextDev dsel ≠ dev ∧ both then devsFrom both dev fuel (nextDev dsel) else []

/-- How many devices there are from `dsel` on to the one in front of `dev`. -/
def ahead (dev dsel : Fin n) : ℕ :=
  if dsel.val < dev.val then dev - dsel else n - dsel + dev

/-- Whether a device is one of them. -/
def Ahead (dev dsel i : Fin n) : Prop :=
  if dsel.val < dev.val then dsel.val ≤ i.val ∧ i.val < dev.val
  else dsel.val ≤ i.val ∨ i.val < dev.val

theorem nextDev_val (dsel : Fin n) :
    (nextDev dsel).val = if dsel.val + 1 < n then dsel.val + 1 else 0 := by
  unfold nextDev
  split
  · rfl
  · rfl

/-- Behind the last device, there are no more. -/
theorem ahead_last (h : nextDev dsel = dev) : Ahead dev dsel i ↔ i = dsel := by
  have hval := nextDev_val dsel
  have hi := i.isLt
  have hdsel := dsel.isLt
  rw [h] at hval
  rw [Fin.ext_iff, Ahead]
  split at hval
  · rw [if_pos (by omega)]
    omega
  · rw [if_neg (by omega)]
    omega

theorem ahead_next (h : nextDev dsel ≠ dev) :
    (Ahead dev dsel i ↔ i = dsel ∨ Ahead dev (nextDev dsel) i) ∧
      ¬ Ahead dev (nextDev dsel) dsel ∧ ahead dev dsel = ahead dev (nextDev dsel) + 1 := by
  have hval := nextDev_val dsel
  have hi := i.isLt
  have hdsel := dsel.isLt
  have hdev := dev.isLt
  rw [Ne, Fin.ext_iff] at h
  rw [Fin.ext_iff]
  unfold Ahead ahead
  split at hval
  · by_cases hlt : dsel.val < dev.val
    · rw [if_pos hlt, if_pos hlt, if_pos (by omega), if_pos (by omega), if_pos (by omega)]
      omega
    · rw [if_neg hlt, if_neg hlt, if_neg (by omega), if_neg (by omega), if_neg (by omega)]
      omega
  · rw [if_neg (by omega), if_pos (by omega), if_pos (by omega), if_neg (by omega),
      if_pos (by omega)]
    omega

/-- **The devices ahead** are gone through, each once. -/
theorem mem_devsFrom (hfuel : ahead dev dsel ≤ fuel) :
    (∀ i, i ∈ devsFrom true dev fuel dsel ↔ Ahead dev dsel i) ∧
      (devsFrom true dev fuel dsel).Nodup := by
  induction fuel generalizing dsel with
  | zero =>
    have hlt := dsel.isLt
    unfold ahead at hfuel
    split at hfuel
    · omega
    · omega
  | succ fuel ih =>
    rw [devsFrom]
    by_cases hlast : nextDev dsel = dev
    · rw [if_neg (fun h => h.1 hlast)]
      refine ⟨fun i => ?_, List.nodup_singleton _⟩
      rw [List.mem_singleton, ahead_last hlast]
    · rw [if_pos ⟨hlast, rfl⟩]
      obtain ⟨-, hout, hless⟩ := ahead_next (i := dsel) hlast
      obtain ⟨hmem, hnodup⟩ := @ih (nextDev dsel) (by omega)
      refine ⟨fun i => ?_, List.nodup_cons.mpr ⟨fun h => hout ((hmem dsel).mp h), hnodup⟩⟩
      rw [List.mem_cons, hmem, (ahead_next hlast).1]

/-- The devices that a write to `dev` goes to. -/
def Target (both : Bool) (dev i : Fin n) : Prop := both = true ∨ i = dev

theorem mem_targets (both : Bool) (dev i : Fin n) :
    (i ∈ devsFrom both dev n dev ↔ Target both dev i) ∧ (devsFrom both dev n dev).Nodup := by
  have hlt := dev.isLt
  cases both with
  | true =>
    have hall : ahead dev dev ≤ n := by
      unfold ahead
      rw [if_neg (Nat.lt_irrefl _)]
      omega
    obtain ⟨hmem, hnodup⟩ := mem_devsFrom hall
    refine ⟨?_, hnodup⟩
    rw [hmem, Ahead, if_neg (Nat.lt_irrefl _)]
    exact iff_of_true (by omega) (Or.inl rfl)
  | false =>
    obtain ⟨m, hm⟩ := Nat.exists_eq_succ_of_ne_zero (show n ≠ 0 by omega)
    have hone : ∀ k, k ≠ 0 → devsFrom false dev k dev = [dev] := by
      intro k hk
      obtain ⟨k, rfl⟩ := Nat.exists_eq_succ_of_ne_zero hk
      rw [devsFrom, if_neg (fun h => Bool.false_ne_true h.2)]
    rw [hone n (by omega), List.mem_singleton]
    refine ⟨?_, List.nodup_singleton _⟩
    exact ⟨Or.inr, fun h => h.resolve_left Bool.false_ne_true⟩

/-- **The data for all of them.** -/
theorem writeLoop_moves (both : Bool) (dev dsel : Fin n) (h : ∀ i, (tab i).Valid)
    (scans : List (Scan n)) (buf : List UInt8) (hnodup : (devsFrom both dev fuel dsel).Nodup) :
    ∀ i, ∃ e, e <+: (if i ∈ devsFrom both dev fuel dsel then expand (tab i).t.onlcr buf else []) ∧
      Moved e [] (tab i) ((writeLoop both dev buf fuel dsel tab scans).1 i) ∧
        ((writeLoop both dev buf fuel dsel tab scans).2.2 = true →
          e = (if i ∈ devsFrom both dev fuel dsel then expand (tab i).t.onlcr buf else []) ∧
            (i ∈ devsFrom both dev fuel dsel → buf ≠ [] →
              ((writeLoop both dev buf fuel dsel tab scans).1 i).txq.count = 0)) := by
  induction fuel generalizing dsel tab scans with
  | zero =>
    intro i
    exact ⟨[], List.nil_prefix, .refl (h i), fun hok => absurd hok Bool.false_ne_true⟩
  | succ fuel ih =>
    intro i
    rw [devsFrom] at hnodup ⊢
    obtain ⟨hout, hnodup⟩ := List.nodup_cons.mp hnodup
    obtain ⟨e, hpre, hone, hok⟩ :=
      writeDev_moves (buf.length + scans.length + 1) dsel h scans buf
    rw [writeLoop]
    dsimp only
    generalize writeDev dsel (buf.length + scans.length + 1) tab scans buf = written at hone hok ⊢
    obtain ⟨tab₁, scans₁, goesOn⟩ := written
    have hmine := hone i
    cases goesOn with
    | false =>
      refine ⟨_, ?_, hmine, fun hok => absurd hok Bool.false_ne_true⟩
      by_cases hi : i = dsel
      · subst hi
        rwa [if_pos rfl, if_pos List.mem_cons_self]
      · rw [if_neg hi]
        exact List.nil_prefix
    | true =>
      obtain ⟨rfl, hnone⟩ := hok rfl
      rw [if_pos rfl]
      by_cases hnext : nextDev dsel ≠ dev ∧ both = true
      · rw [if_pos hnext] at hout hnodup ⊢
        rw [if_pos hnext]
        obtain ⟨e, hpre', hmoves, hok'⟩ :=
          ih (nextDev dsel) (fun i => (hone i).valid) scans₁ hnodup i
        rw [hmine.t] at hpre' hok'
        by_cases hi : i = dsel
        · -- this device, which the others leave as it is
          subst hi
          rw [if_neg hout] at hpre'
          obtain rfl := List.prefix_nil.mp hpre'
          rw [if_pos rfl] at hmine
          rw [if_pos List.mem_cons_self]
          refine ⟨_, List.prefix_refl _, ?_, fun _ => ⟨rfl, fun _ hbuf => ?_⟩⟩
          · have hboth := hmine.trans hmoves
            rwa [List.append_nil] at hboth
          · exact toList_nil.mp (hmoves.waits (toList_nil.mpr (hnone hbuf)))
        · have hmem : i ∈ dsel :: devsFrom both dev fuel (nextDev dsel) ↔
              i ∈ devsFrom both dev fuel (nextDev dsel) := by
            rw [List.mem_cons, or_iff_right hi]
          rw [if_neg hi] at hmine
          simp only [hmem]
          exact ⟨e, hpre', hmine.trans hmoves, hok'⟩
      · rw [if_neg hnext] at hout hnodup ⊢
        rw [if_neg hnext]
        by_cases hi : i = dsel
        · subst hi
          rw [if_pos rfl] at hmine
          rw [if_pos List.mem_cons_self]
          exact ⟨_, List.prefix_refl _, hmine, fun _ => ⟨rfl, fun _ hbuf => hnone hbuf⟩⟩
        · have hmem : ¬ i ∈ [dsel] := by rwa [List.mem_singleton]
          rw [if_neg hi] at hmine
          rw [if_neg hmem]
          exact ⟨[], List.nil_prefix, hmine, fun _ => ⟨rfl, fun hin => absurd hin hmem⟩⟩

/-- What a write puts on its way to a device. -/
def asked (outBoth : Bool) (dev : Fin n) (tab : DevTable n) (i : Fin n) (buf : List UInt8) :
    List UInt8 :=
  if outBoth = true ∨ i = dev then expand (tab i).t.onlcr buf else []

/-- **A write**: each device that it goes to is on its way to get the data, all of it when the write
    ends, and then nothing waits. -/
theorem termWrite_moves (outBoth : Bool) (dev : Fin n) (h : ∀ i, (tab i).Valid)
    (scans : List (Scan n)) (buf : List UInt8) (i : Fin n) :
    ∃ e, e <+: asked outBoth dev tab i buf ∧
      Moved e [] (tab i) ((termWrite outBoth dev tab scans buf).1 i) ∧
        ((termWrite outBoth dev tab scans buf).2.2 = true → e = asked outBoth dev tab i buf ∧
          (Target outBoth dev i → buf ≠ [] →
            ((termWrite outBoth dev tab scans buf).1 i).txq.count = 0)) := by
  obtain ⟨hmem, hnodup⟩ := mem_targets outBoth dev i
  obtain ⟨e, hpre, hmoves, hok⟩ := writeLoop_moves outBoth dev dev h scans buf hnodup i
  have hasked : (if i ∈ devsFrom outBoth dev n dev then expand (tab i).t.onlcr buf else []) =
      asked outBoth dev tab i buf := if_congr hmem rfl rfl
  rw [hasked] at hpre hok
  refine ⟨e, hpre, hmoves, fun hend => ⟨(hok hend).1, fun htarget => ?_⟩⟩
  exact (hok hend).2 (hmem.mpr htarget)

/-! ## §3 Reads -/

/-- A character as a reader sees it. -/
def translated (t : Termio) (ch : UInt8) : UInt8 := if t.icrnl ∧ ch = 0x0d then 0x0a else ch

/-- What has been typed, as a read returns it: in canonical mode an erase character takes back the
    character in front of it. -/
def edited (tab : DevTable n) (dev : Fin n) (buf : List UInt8) (typed : List (Fin n × UInt8)) :
    List UInt8 :=
  typed.foldl (fun buf (i, ch) =>
    let ch := translated (tab i).t ch
    if (tab dev).t.icanon ∧ sameChar ch (tab i).t.verase then buf.dropLast else buf ++ [ch]) buf

/-- The characters that a device has given. -/
def takenFrom (i : Fin n) (typed : List (Fin n × UInt8)) : List UInt8 :=
  typed.filterMap fun (j, ch) => if j = i then some ch else none

theorem keyStep_fst (t₀ t : Termio) (buf : List UInt8) (ch : UInt8) :
    (keyStep t₀ t buf ch).1 =
      if t₀.icanon ∧ sameChar (translated t ch) t.verase then buf.dropLast
      else buf ++ [translated t ch] := by
  unfold keyStep translated
  dsimp only
  generalize (if t.icrnl = true ∧ ch = 0x0d then 0x0a else ch) = c
  by_cases hcanon : t₀.icanon = true
  · by_cases herase : sameChar c t.verase = true
    · by_cases hbuf : buf = []
      · simp [hcanon, herase, hbuf]
      · simp [hcanon, herase, hbuf]
    · simp [hcanon, herase]
  · simp [hcanon]

/-- **Without line editing**, a read returns every character, in order. -/
theorem edited_raw (hraw : (tab dev).t.icanon = false) (buf : List UInt8)
    (typed : List (Fin n × UInt8)) :
    edited tab dev buf typed = buf ++ typed.map fun (i, ch) => translated (tab i).t ch := by
  induction typed generalizing buf with
  | nil => exact (List.append_nil _).symm
  | cons key typed ih =>
    obtain ⟨i, ch⟩ := key
    rw [edited, List.foldl_cons, ← edited]
    dsimp only
    rw [if_neg (by rw [hraw]; exact fun h => Bool.false_ne_true h.1), ih, List.append_assoc]
    rfl

/-- One character of the read queue. -/
theorem take_moves (h : p.Valid) (hsome : 0 < p.rxq.count) : Moved [] [p.take.1] p p.take.2 := by
  have hget : ∀ {q}, Moved [] [] p q → q.rxq = p.rxq →
      Moved [] [q.rxq.get.1] p { q with rxq := q.rxq.get.2 } := by
    intro q hq hrxq
    have hlist := hq.valid.rxq.toList_get (by rw [hrxq]; exact hsome)
    refine ⟨⟨hq.valid.rxq.get, hq.valid.txq⟩, hq.t, hq.limit, hq.handed, hq.out, ?_, hq.urgents,
      hq.received⟩
    obtain ⟨ks, hks, hkept⟩ := hq.rx
    exact ⟨ks, by rw [← hks]; exact hlist.symm, hkept⟩
  unfold DevEntry.take
  dsimp only
  split
  · split
    · rename_i hoff
      exact hget (((Moved.refl h).rxoff false).chwrite hoff 0x11) rfl
    · exact hget ((Moved.refl h).rxoff false) rfl
  · exact hget (.refl h) rfl

theorem asked_append (outBoth : Bool) (dev : Fin n) (tab : DevTable n) (i : Fin n)
    (l l' : List UInt8) :
    asked outBoth dev tab i (l ++ l') =
      asked outBoth dev tab i l ++ asked outBoth dev tab i l' := by
  unfold asked
  split
  · exact expand_append _ _ _
  · rfl

theorem asked_congr {outBoth : Bool} (ht : (tab' i).t = (tab i).t) (buf : List UInt8) :
    asked outBoth dev tab' i buf = asked outBoth dev tab i buf := by
  unfold asked
  rw [ht]

theorem edited_congr (ht : ∀ i, (tab' i).t = (tab i).t) (buf : List UInt8)
    (typed : List (Fin n × UInt8)) : edited tab' dev buf typed = edited tab dev buf typed := by
  unfold edited
  simp only [ht]

theorem takenFrom_cons (i j : Fin n) (ch : UInt8) (typed : List (Fin n × UInt8)) :
    takenFrom i ((j, ch) :: typed) = (if i = j then [ch] else []) ++ takenFrom i typed := by
  unfold takenFrom
  rw [List.filterMap_cons]
  by_cases hij : i = j
  · simp [hij]
  · simp [hij, Ne.symm hij]

/-- What a call does to a device, by its report. -/
def Reports (outBoth : Bool) (dev : Fin n) (tab tab' : DevTable n) (r : Report n) : Prop :=
  ∀ i, ∃ e, e <+: asked outBoth dev tab i r.written ∧
    Moved e (takenFrom i r.taken) (tab i) (tab' i) ∧
      (r.finished = true → e = asked outBoth dev tab i r.written)

/-- Scans in front of a call. -/
theorem Reports.behind {outBoth : Bool} {tab₁ : DevTable n} {r : Report n}
    (h : Reports outBoth dev tab₁ tab' r) (hfirst : ∀ i, Moved [] [] (tab i) (tab₁ i)) :
    Reports outBoth dev tab tab' r := by
  intro i
  obtain ⟨e, hpre, hmoves, hok⟩ := h i
  rw [asked_congr (hfirst i).t] at hpre hok
  exact ⟨e, hpre, (hfirst i).trans hmoves, hok⟩

/-- Nothing but scans, in a call that does not end. -/
theorem reports_nothing {outBoth : Bool} {returned : List UInt8} {finished : Bool}
    (h : ∀ i, Moved [] [] (tab i) (tab' i)) :
    Reports outBoth dev tab tab' ⟨[], finished, [], returned⟩ := by
  intro i
  refine ⟨[], List.nil_prefix, h i, fun _ => ?_⟩
  unfold asked
  exact (ite_self _).symm

/-- A character is taken, and what it echoes is written. -/
theorem take_reports (outBoth : Bool) (dev : Fin n) (h : ∀ i, (tab i).Valid)
    (hsome : 0 < (tab i).rxq.count) (scans : List (Scan n)) (echo returned : List UInt8) :
    Reports outBoth dev tab
      (termWrite outBoth dev (Function.update tab i (tab i).take.2) scans echo).1
      ⟨echo, (termWrite outBoth dev (Function.update tab i (tab i).take.2) scans echo).2.2,
        [(i, (tab i).take.1)], returned⟩ := by
  have htake : ∀ j, Moved [] (takenFrom j [(i, (tab i).take.1)]) (tab j)
      (Function.update tab i (tab i).take.2 j) := by
    intro j
    rw [takenFrom_cons]
    by_cases hj : j = i
    · subst hj
      rw [if_pos rfl, Function.update_self]
      exact take_moves (h j) hsome
    · rw [if_neg hj, Function.update_of_ne hj]
      exact .refl (h j)
  intro j
  obtain ⟨e, hpre, hmoves, hok⟩ :=
    termWrite_moves outBoth dev (fun j => (htake j).valid) scans echo j
  rw [asked_congr (htake j).t] at hpre hok
  refine ⟨e, hpre, ?_, fun hend => (hok hend).1⟩
  have hboth := (htake j).trans hmoves
  rwa [List.append_nil] at hboth

/-- The character in front of the others. -/
theorem Reports.cons {outBoth : Bool} {tab₁ : DevTable n} {r : Report n} {echo : List UInt8}
    {ch : UInt8} (hfirst : Reports outBoth dev tab tab₁ ⟨echo, true, [(i, ch)], []⟩)
    (h : Reports outBoth dev tab₁ tab' r) : Reports outBoth dev tab tab'
      { r with written := echo ++ r.written, taken := (i, ch) :: r.taken } := by
  intro j
  obtain ⟨e, -, hmoves, hok⟩ := hfirst j
  obtain ⟨e', hpre', hmoves', hok'⟩ := h j
  obtain rfl := hok rfl
  rw [asked_congr hmoves.t] at hpre' hok'
  refine ⟨asked outBoth dev tab j echo ++ e', ?_, ?_, fun hend => ?_⟩
  · rw [asked_append]
    exact (List.prefix_append_right_inj _).mpr hpre'
  · have hboth := hmoves.trans hmoves'
    rw [takenFrom_cons] at hboth ⊢
    rwa [List.append_assoc] at hboth
  · rw [asked_append, hok' hend]

/-- **What a read does**, whether it ends or not, and what it returns when it ends. -/
theorem readLoop_moves (inBoth outBoth : Bool) (dev : Fin n) (count fuel : ℕ)
    (h : ∀ i, (tab i).Valid) (dsel : ℕ) (scans : List (Scan n)) (buf : List UInt8) :
    Reports outBoth dev tab (readLoop inBoth outBoth dev count fuel dsel tab scans buf).1
        (readLoop inBoth outBoth dev count fuel dsel tab scans buf).2 ∧
      ((readLoop inBoth outBoth dev count fuel dsel tab scans buf).2.finished = true →
        (readLoop inBoth outBoth dev count fuel dsel tab scans buf).2.returned =
          edited tab dev buf
            (readLoop inBoth outBoth dev count fuel dsel tab scans buf).2.taken) := by
  have hrefl : ∀ i, Moved [] [] (tab i) (tab i) := fun i => .refl (h i)
  induction fuel generalizing tab dsel scans buf with
  | zero => exact ⟨reports_nothing hrefl, fun hend => absurd hend Bool.false_ne_true⟩
  | succ fuel ih =>
    unfold readLoop
    by_cases hcount : count ≤ buf.length
    · rw [if_pos hcount]
      exact ⟨reports_nothing hrefl, fun _ => rfl⟩
    · rw [if_neg hcount]
      cases scans with
      | nil => exact ⟨reports_nothing hrefl, fun hend => absurd hend Bool.false_ne_true⟩
      | cons scan scans =>
        dsimp only
        have hscan := scandevs_moves h scan
        generalize scandevs tab scan = scanned at hscan ⊢
        obtain ⟨tab₁, jumped⟩ := scanned
        have hvalid := fun i => (hscan i).valid
        have hrefl₁ : ∀ i, Moved [] [] (tab₁ i) (tab₁ i) := fun i => .refl (hvalid i)
        cases jumped with
        | true => exact ⟨reports_nothing hscan, fun hend => absurd hend Bool.false_ne_true⟩
        | false =>
          -- without a character, the loop goes on with the next scan
          have hagain : ∀ dsel, Reports outBoth dev tab
              (readLoop inBoth outBoth dev count fuel dsel tab₁ scans buf).1
              (readLoop inBoth outBoth dev count fuel dsel tab₁ scans buf).2 ∧
              ((readLoop inBoth outBoth dev count fuel dsel tab₁ scans buf).2.finished = true →
                (readLoop inBoth outBoth dev count fuel dsel tab₁ scans buf).2.returned =
                  edited tab dev buf
                    (readLoop inBoth outBoth dev count fuel dsel tab₁ scans buf).2.taken) := by
            intro dsel
            obtain ⟨hreports, hreturned⟩ := ih hvalid dsel scans buf hrefl₁
            refine ⟨hreports.behind hscan, fun hend => ?_⟩
            rw [hreturned hend, edited_congr fun i => (hscan i).t]
          rw [if_neg Bool.false_ne_true]
          rcases pickDev inBoth dev dsel with ⟨none | i, dsel⟩
          · exact hagain dsel
          · dsimp only
            by_cases hempty : (tab₁ i).rxq.count = 0
            · rw [if_pos hempty]
              exact hagain dsel
            · rw [if_neg hempty]
              have htake := fun echo returned => take_reports outBoth dev hvalid
                (Nat.pos_of_ne_zero hempty) scans echo returned
              have htaken := (take_moves (hvalid i) (Nat.pos_of_ne_zero hempty)).t
              generalize (tab₁ i).take = taken at htake htaken ⊢
              obtain ⟨ch, p⟩ := taken
              have hkey := keyStep_fst (tab₁ dev).t p.t buf ch
              generalize keyStep (tab₁ dev).t p.t buf ch = key at hkey ⊢
              obtain ⟨buf₁, echo, ends⟩ := key
              replace htake := htake echo
              generalize termWrite outBoth dev (Function.update tab₁ i p) scans echo = written
                at htake ⊢
              obtain ⟨tab₂, scans₂, goesOn⟩ := written
              dsimp only at hkey htake htaken ⊢
              have hedited : ∀ typed, edited tab dev buf ((i, ch) :: typed) =
                  edited tab dev buf₁ typed := by
                intro typed
                rw [hkey, htaken, (hscan i).t, (hscan dev).t]
                rfl
              cases goesOn with
              | false =>
                exact ⟨(htake []).behind hscan, fun hend => absurd hend Bool.false_ne_true⟩
              | true =>
                rw [if_pos rfl]
                cases ends with
                | true => exact ⟨(htake buf₁).behind hscan, fun _ => (hedited []).symm⟩
                | false =>
                  rw [if_neg Bool.false_ne_true]
                  have hmoves : ∀ j, ∃ e taken, Moved e taken (tab₁ j) (tab₂ j) := fun j =>
                    (htake [] j).imp fun e he => ⟨_, he.2.1⟩
                  have hvalid₂ : ∀ j, (tab₂ j).Valid := fun j =>
                    (hmoves j).elim fun _ h => h.elim fun _ h => h.valid
                  have ht : ∀ j, (tab₂ j).t = (tab j).t := fun j =>
                    (hmoves j).elim fun _ h => h.elim fun _ h => h.t.trans (hscan j).t
                  obtain ⟨hreports, hreturned⟩ :=
                    ih hvalid₂ dsel scans₂ buf₁ fun j => .refl (hvalid₂ j)
                  refine ⟨((htake []).cons hreports).behind hscan, fun hend => ?_⟩
                  rw [hedited]
                  exact (hreturned hend).trans (edited_congr ht _ _)

end Pmon.Fs.Tty
