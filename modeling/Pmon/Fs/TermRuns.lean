import Mathlib.Algebra.BigOperators.Fin
import Mathlib.Algebra.Order.BigOperators.Group.Finset
import Mathlib.Algebra.Order.BigOperators.Group.List
import Pmon.Fs.TermMoves

/-!
# Runs of the terminals

Writes, reads, changes of the flags and scans, one after the other, each of which may be left by a
`SIGINT`, and what of them reaches the devices and the readers.

## Key results

- `termWrite_returns`: a write ends once the devices have accepted as many characters.
- `runCalls_moves`: what a run does to each device.
- `terminals_fifo`: every run from `devinit` on.
-/

namespace Pmon.Fs.Tty

open Pmon.Lib

variable {n : ℕ} {tab tab' : DevTable n} {scan : Scan n} {scans : List (Scan n)}
  {dev dsel i : Fin n} {buf e taken : List UInt8} {p p' : DevEntry} {fuel : ℕ}

/-! ## §1 Devices that accept characters -/

/-- A scan at which every device accepts characters: none comes in that stops it, and no handler of
    `SIGINT` leaves the call. -/
def Accepting (tab : DevTable n) (scan : Scan n) : Prop :=
  ∀ i, 0 < (scan i).ready ∧ (scan i).jumps = false ∧ ∀ c ∈ (scan i).arriving,
    (tab i).t.ixon = true → (if (tab i).t.istrip then c &&& 0x7f else c) ≠ (tab i).t.vstop

theorem Accepting.congr (h : Accepting tab scan) (ht : ∀ i, (tab' i).t = (tab i).t) :
    Accepting tab' scan := by
  intro i
  rw [ht i]
  exact h i

/-- What comes in leaves alone what goes out. -/
theorem keep_leaves (p : DevEntry) (c : UInt8) :
    (p.keep c).t = p.t ∧ (p.keep c).txoff = p.txoff ∧ (p.keep c).txq = p.txq := by
  unfold DevEntry.keep
  dsimp only
  split
  · split
    · exact ⟨rfl, rfl, rfl⟩
    · exact ⟨rfl, rfl, rfl⟩
  · exact ⟨rfl, rfl, rfl⟩

theorem rxLoop_accepting {arriving : List UInt8} (hon : p.txoff = false)
    (hstop : ∀ c ∈ arriving, p.t.ixon = true → (if p.t.istrip then c &&& 0x7f else c) ≠ p.t.vstop) :
    (rxLoop false p arriving).2 = false ∧ (rxLoop false p arriving).1.txoff = false ∧
      (rxLoop false p arriving).1.txq = p.txq := by
  induction arriving generalizing p with
  | nil => exact ⟨rfl, hon, rfl⟩
  | cons c arriving ih =>
    have hc := hstop c List.mem_cons_self
    have hrest := fun c hmem => hstop c (List.mem_cons_of_mem _ hmem)
    rw [rxLoop]
    dsimp only
    generalize (if p.t.istrip then c &&& 0x7f else c) = c at hc ⊢
    split
    · exact ih (p := p.note c .signal) hon hrest
    · split
      · exact ih (p := { p.note c .flow with txoff := false }) rfl hrest
      · split
        · rename_i hflow
          exact absurd hflow.2 (hc hflow.1)
        · split
          · exact ih (p := { p.note c .flow with txoff := false }) rfl hrest
          · split
            · obtain ⟨ht, hoff, htxq⟩ := keep_leaves p c
              rw [← htxq]
              apply ih (hoff.trans hon)
              rw [ht]
              exact hrest
            · exact ⟨rfl, hon, rfl⟩

theorem txLoop_accepting {ready : ℕ} (hon : p.txoff = false) (hready : 0 < ready) :
    (txLoop ready p.txq.count p).txoff = false ∧
      (txLoop ready p.txq.count p).txq.count ≤ p.txq.count - 1 := by
  have hrest : ∀ ready n (p : DevEntry), p.txoff = false →
      (txLoop ready n p).txoff = false ∧ (txLoop ready n p).txq.count ≤ p.txq.count := by
    intro ready
    induction ready with
    | zero => exact fun _ p hon => ⟨hon, Nat.le_refl _⟩
    | succ ready ih =>
      intro n p hon
      rw [txLoop]
      split
      · obtain ⟨hoff, hle⟩ := ih (n - 1)
          { p with txq := p.txq.get.2, handed := p.handed ++ [.queued p.txq.get.1] } hon
        exact ⟨hoff, Nat.le_trans hle (Nat.sub_le _ _)⟩
      · exact ⟨hon, Nat.le_refl _⟩
  obtain ⟨ready, rfl⟩ := Nat.exists_eq_succ_of_ne_zero (Nat.pos_iff_ne_zero.mp hready)
  rw [txLoop]
  split
  · exact hrest _ _ _ hon
  · rename_i hnone
    refine ⟨hon, ?_⟩
    by_cases hcount : 0 < p.txq.count
    · exact absurd ⟨hcount, hon⟩ hnone
    · omega

/-- What waits gets no more when nothing is put behind it. -/
theorem Moved.count_le (h : Moved [] taken p p') : p'.txq.count ≤ p.txq.count := by
  have hout := congrArg List.length h.out
  obtain ⟨more, hmore⟩ := h.handed
  unfold DevEntry.out DevEntry.sent at hout
  rw [← hmore, List.filterMap_append] at hout
  simp only [List.length_append, RingQueue.length_toList, List.length_nil] at hout
  omega

theorem scanLoop_accepting (devs : List (Fin n)) (h : ∀ i, (tab i).Valid)
    (hon : ∀ i, (tab i).txoff = false) (haccept : Accepting tab scan) :
    (scanLoop scan devs tab).2 = false ∧ (∀ i, ((scanLoop scan devs tab).1 i).txoff = false) ∧
      ∀ i ∈ devs, ((scanLoop scan devs tab).1 i).txq.count ≤ (tab i).txq.count - 1 := by
  induction devs generalizing tab with
  | nil => exact ⟨rfl, hon, fun i hi => absurd hi List.not_mem_nil⟩
  | cons d devs ih =>
    obtain ⟨hready, hjumps, hstop⟩ := haccept d
    have hmoves := rxLoop_moves (scan d).jumps (h d) (scan d).arriving
    obtain ⟨hstays, hoff, htxq⟩ := rxLoop_accepting (hon d) hstop
    rw [scanLoop]
    rw [hjumps] at hmoves ⊢
    dsimp only
    rw [hstays, if_neg Bool.false_ne_true]
    generalize (rxLoop false (tab d) (scan d).arriving).1 = q at hmoves hoff htxq ⊢
    have htx := hmoves.trans (txLoop_moves (scan d).ready q.txq.count hmoves.valid (Nat.le_refl _))
    obtain ⟨hoff', hless⟩ := txLoop_accepting hoff hready
    generalize txLoop (scan d).ready q.txq.count q = q' at htx hoff' hless ⊢
    rw [htxq] at hless
    have hone : ∀ j, Moved [] [] (tab j) (Function.update tab d q' j) := by
      intro j
      by_cases hj : j = d
      · subst hj
        rwa [Function.update_self]
      · rw [Function.update_of_ne hj]
        exact .refl (h j)
    have hon' : ∀ j, (Function.update tab d q' j).txoff = false := by
      intro j
      by_cases hj : j = d
      · subst hj
        rwa [Function.update_self]
      · rw [Function.update_of_ne hj]
        exact hon j
    obtain ⟨hgo, hoffs, hcounts⟩ := ih (fun j => (hone j).valid) hon'
      (haccept.congr fun j => (hone j).t)
    refine ⟨hgo, hoffs, fun i hi => ?_⟩
    by_cases hd : i = d
    · -- what this device has accepted is not put back by the other ones
      subst hd
      have hafter := (@scanLoop_moves _ _ scan devs (fun j => (hone j).valid) i).count_le
      rw [Function.update_self] at hafter
      exact Nat.le_trans hafter hless
    · have hmem := (List.mem_cons.mp hi).resolve_left hd
      have hafter := hcounts i hmem
      rwa [Function.update_of_ne hd] at hafter

theorem scandevs_accepting (h : ∀ i, (tab i).Valid) (hon : ∀ i, (tab i).txoff = false)
    (haccept : Accepting tab scan) : (scandevs tab scan).2 = false ∧
      (∀ i, ((scandevs tab scan).1 i).txoff = false) ∧
        ∀ i, ((scandevs tab scan).1 i).txq.count ≤ (tab i).txq.count - 1 := by
  obtain ⟨hgo, hoffs, hcounts⟩ :=
    scanLoop_accepting (List.finRange n) h hon haccept
  exact ⟨hgo, hoffs, fun i => hcounts i (List.mem_finRange i)⟩

/-- What a part of a write needs, and what it leaves: `need` of the scans are enough. -/
structure Returns (tab : DevTable n) (scans : List (Scan n)) (need : ℕ)
    (r : DevTable n × List (Scan n) × Bool) : Prop where
  goesOn : r.2.2 = true
  on : ∀ i, (r.1 i).txoff = false
  rest : r.2.1 <:+ scans
  left : scans.length ≤ r.2.1.length + need

theorem drain_returns (dsel : Fin n) (h : ∀ i, (tab i).Valid) (hon : ∀ i, (tab i).txoff = false)
    (haccept : ∀ scan ∈ scans, Accepting tab scan) (hmany : (tab dsel).txq.count ≤ scans.length) :
    Returns tab scans (tab dsel).txq.count (drain dsel tab scans) := by
  induction scans generalizing tab with
  | nil =>
    exact ⟨decide_eq_true (Nat.eq_zero_of_le_zero hmany), hon, List.suffix_refl _,
      Nat.le_add_right _ _⟩
  | cons scan scans ih =>
    rw [drain]
    by_cases hnone : (tab dsel).txq.count = 0
    · rw [if_pos hnone]
      exact ⟨rfl, hon, List.suffix_refl _, Nat.le_add_right _ _⟩
    · rw [if_neg hnone]
      obtain ⟨hgo, hon', hless⟩ := scandevs_accepting h hon (haccept scan List.mem_cons_self)
      have hmoves := scandevs_moves h scan
      generalize scandevs tab scan = scanned at hgo hon' hless hmoves ⊢
      obtain ⟨tab₁, jumped⟩ := scanned
      obtain rfl : jumped = false := hgo
      dsimp only at hon' hless hmoves ⊢
      rw [if_neg Bool.false_ne_true]
      have hcount := hless dsel
      rw [List.length_cons] at hmany
      obtain ⟨hok, hoffs, hrest, hleft⟩ := ih (fun i => (hmoves i).valid) hon'
        (fun s hs => (haccept s (List.mem_cons_of_mem _ hs)).congr fun i => (hmoves i).t)
        (by omega)
      refine ⟨hok, hoffs, hrest.trans (List.suffix_cons _ _), ?_⟩
      rw [List.length_cons]
      omega

/-! ## §2 Writes that return -/

/-- What there is to be handed to a device when data are written to it. -/
def outstanding (tab : DevTable n) (buf : List UInt8) (i : Fin n) : ℕ :=
  (tab i).txq.count + (expand (tab i).t.onlcr buf).length

/-- **The data for one device**, with a queue of more than two places. -/
theorem writeDev_returns (fuel : ℕ) (dsel : Fin n) (buf : List UInt8)
    (h : ∀ i, (tab i).Valid) (hon : ∀ i, (tab i).txoff = false)
    (hlimit : 2 < (tab dsel).txq.limit) (haccept : ∀ scan ∈ scans, Accepting tab scan)
    (hmany : outstanding tab buf dsel ≤ scans.length)
    (hfuel : buf.length + (if 2 < (tab dsel).txq.space then 0 else 1) < fuel) :
    Returns tab scans (outstanding tab buf dsel) (writeDev dsel fuel tab scans buf) := by
  induction fuel generalizing tab scans buf with
  | zero => exact absurd hfuel (Nat.not_lt_zero _)
  | succ fuel ih =>
    rw [writeDev]
    by_cases hbuf : buf = []
    · rw [if_pos hbuf]
      exact ⟨rfl, hon, List.suffix_refl _, Nat.le_add_right _ _⟩
    · rw [if_neg hbuf]
      dsimp only
      obtain ⟨done, hdone, -, hlist, -, hless, -⟩ :=
        fill_spec (tab dsel).t.onlcr (h dsel).txq _ (Nat.le_refl _) buf
      obtain ⟨done', hdone', hfill⟩ := fill_moves h dsel buf
      generalize hq : (fill (tab dsel).t.onlcr (tab dsel).txq.space (tab dsel).txq buf).1 = q
        at hlist hfill ⊢
      generalize (fill (tab dsel).t.onlcr (tab dsel).txq.space (tab dsel).txq buf).2 = rest
        at hdone hdone' hless ⊢
      obtain rfl : done = done' := List.append_cancel_right (hdone.symm.trans hdone')
      have hcount : q.count = (tab dsel).txq.count + (expand (tab dsel).t.onlcr done).length := by
        rw [← RingQueue.length_toList, hlist, List.length_append, RingQueue.length_toList]
      have hneed : outstanding tab buf dsel =
          q.count + (expand (tab dsel).t.onlcr rest).length := by
        rw [outstanding, hdone, expand_append, List.length_append, hcount]
        omega
      have hon' : ∀ j,
          (Function.update tab dsel { tab dsel with txq := q } j).txoff = false := by
        intro j
        by_cases hj : j = dsel
        · subst hj
          rw [Function.update_self]
          exact hon j
        · rw [Function.update_of_ne hj]
          exact hon j
      have hself : (Function.update tab dsel { tab dsel with txq := q } dsel).txq = q := by
        rw [Function.update_self]
      generalize Function.update tab dsel { tab dsel with txq := q } = filled
        at hfill hon' hself ⊢
      have hdrain := drain_returns dsel (fun j => (hfill j).valid) hon'
        (fun s hs => (haccept s hs).congr fun j => (hfill j).t) (by rw [hself]; omega)
      obtain ⟨hmoves, hnone⟩ := drain_moves dsel (fun j => (hfill j).valid) scans
      rw [hself] at hdrain
      generalize drain dsel filled scans = drained at hdrain hmoves hnone ⊢
      obtain ⟨tab₁, scans₁, goesOn⟩ := drained
      obtain ⟨hok, hoffs, hrest, hleft⟩ := hdrain
      obtain rfl : goesOn = true := hok
      dsimp only at hoffs hrest hleft hmoves hnone ⊢
      rw [if_pos rfl]
      have ht : ∀ j, (tab₁ j).t = (tab j).t := fun j => (hmoves j).t.trans (hfill j).t
      have hlim : (tab₁ dsel).txq.limit = (tab dsel).txq.limit :=
        (hmoves dsel).limit.trans (hfill dsel).limit
      -- the queue is empty now, so the next turn takes something from the data
      have hroom : 2 < (tab₁ dsel).txq.space := by
        unfold RingQueue.space
        rw [hnone rfl, hlim]
        exact hlimit
      have hneed₁ : outstanding tab₁ rest dsel = (expand (tab dsel).t.onlcr rest).length := by
        rw [outstanding, hnone rfl, ht, Nat.zero_add]
      have hlen := congrArg List.length hdone
      rw [List.length_append] at hlen
      obtain ⟨hok, hoffs', hrest', hleft'⟩ := @ih tab₁ scans₁ rest (fun j => (hmoves j).valid)
        hoffs (by rw [hlim]; exact hlimit) (fun s hs => (haccept s (hrest.subset hs)).congr ht)
        (by rw [hneed₁]; omega) (by
          rw [if_pos hroom]
          split at hfuel
          · rename_i hspace
            have := hless hspace hbuf
            omega
          · omega)
      refine ⟨hok, hoffs', hrest'.trans hrest, ?_⟩
      rw [hneed₁] at hleft'
      omega

theorem ahead_pos (dev dsel : Fin n) : 0 < ahead dev dsel := by
  have hlt := dsel.isLt
  unfold ahead
  split
  · omega
  · omega

theorem writeLoop_returns {both : Bool} (h : ∀ i, (tab i).Valid)
    (hon : ∀ i, (tab i).txoff = false) (hlimit : ∀ i, 2 < (tab i).txq.limit)
    (haccept : ∀ scan ∈ scans, Accepting tab scan)
    (hmany : ((devsFrom both dev fuel dsel).map (outstanding tab buf)).sum ≤ scans.length)
    (hnodup : (devsFrom both dev fuel dsel).Nodup)
    (hpos : 0 < fuel) (hfuel : both = true → ahead dev dsel ≤ fuel) :
    (writeLoop both dev buf fuel dsel tab scans).2.2 = true := by
  induction fuel generalizing dsel tab scans with
  | zero => exact absurd hpos (Nat.lt_irrefl _)
  | succ fuel ih =>
    rw [devsFrom, List.map_cons, List.sum_cons] at hmany
    rw [devsFrom] at hnodup
    obtain ⟨hout, hnodup⟩ := List.nodup_cons.mp hnodup
    have hdev := writeDev_returns (buf.length + scans.length + 1) dsel buf h hon (hlimit dsel)
      haccept (by omega) (by
        have hlim := hlimit dsel
        have hcount := (h dsel).txq.count_le
        unfold outstanding at hmany
        unfold RingQueue.space
        split
        · omega
        · omega)
    obtain ⟨e, -, hone, -⟩ :=
      writeDev_moves (buf.length + scans.length + 1) dsel h scans buf
    rw [writeLoop]
    dsimp only
    generalize writeDev dsel (buf.length + scans.length + 1) tab scans buf = written
      at hdev hone ⊢
    obtain ⟨tab₁, scans₁, goesOn⟩ := written
    obtain ⟨hok, hoffs, hrest, hleft⟩ := hdev
    obtain rfl : goesOn = true := hok
    dsimp only at hoffs hrest hleft hone ⊢
    rw [if_pos rfl]
    by_cases hnext : nextDev dsel ≠ dev ∧ both = true
    · rw [if_pos hnext] at hmany hout hnodup
      rw [if_pos hnext]
      have hless := (ahead_next (i := dsel) hnext.1).2.2
      have hahead := hfuel hnext.2
      have hmore := ahead_pos dev (nextDev dsel)
      have hsum : ((devsFrom both dev fuel (nextDev dsel)).map (outstanding tab₁ buf)).sum ≤
          ((devsFrom both dev fuel (nextDev dsel)).map (outstanding tab buf)).sum := by
        apply List.sum_le_sum
        intro j hj
        have hmoved := hone j
        rw [if_neg (fun hjd : j = dsel => hout (hjd ▸ hj))] at hmoved
        unfold outstanding
        rw [hmoved.t]
        exact Nat.add_le_add_right hmoved.count_le _
      apply ih (fun j => (hone j).valid) hoffs
      · intro j
        rw [(hone j).limit]
        exact hlimit j
      · exact fun s hs => (haccept s (hrest.subset hs)).congr fun j => (hone j).t
      · omega
      · exact hnodup
      · omega
      · intro _
        omega
    · rw [if_neg hnext]

/-- **A write returns** once there have been as many scans as there are characters to be handed
    over, if every device accepts characters at each of them. -/
theorem termWrite_returns {outBoth : Bool} (h : ∀ i, (tab i).Valid)
    (hon : ∀ i, (tab i).txoff = false) (hlimit : ∀ i, 2 < (tab i).txq.limit)
    (haccept : ∀ scan ∈ scans, Accepting tab scan)
    (hmany : ∑ i, outstanding tab buf i ≤ scans.length) :
    (termWrite outBoth dev tab scans buf).2.2 = true := by
  have hlt := dev.isLt
  have hnodup := (mem_targets outBoth dev dev).2
  apply writeLoop_returns h hon hlimit haccept _ hnodup (by omega)
  · intro _
    unfold ahead
    rw [if_neg (Nat.lt_irrefl _)]
    omega
  · refine Nat.le_trans ?_ hmany
    rw [← List.sum_toFinset _ hnodup]
    exact Finset.sum_le_sum_of_subset (Finset.subset_univ _)

/-! ## §3 Calls -/

/-- `while (!Qempty (p->rxq)) Qget (p->rxq);`. -/
def flushQueue : (count : ℕ) → RingQueue UInt8 → RingQueue UInt8
  | 0, q => q
  | count + 1, q => flushQueue count q.get.2

/-- `TCSETAF`, in front of the new flags: the read queue is emptied. -/
def DevEntry.flush (p : DevEntry) : DevEntry :=
  let p := { p with rxq := flushQueue p.rxq.count p.rxq }
  if p.rxoff then
    let p := { p with rxoff := false }
    if p.t.ixoff then p.chwrite 0x11 else p
  else p

/-- A call of the terminals, with the scans that it finds; those of `term_ioctl` set the flags. -/
inductive TermCall (n : ℕ) where
  | write (dev : Fin n) (scans : List (Scan n)) (buf : List UInt8)
  | read (dev : Fin n) (scans : List (Scan n)) (count : ℕ)
  | ioctl (dev : Fin n) (flush : Bool) (t : Termio)
  | poll (scan : Scan n)

/-- What a call does.  The characters of a flush are taken, and returned to nobody. -/
def TermCall.exec (inBoth outBoth : Bool) (tab : DevTable n) : TermCall n → DevTable n × Report n
  | .write dev scans buf =>
    let (tab, _, goesOn) := termWrite outBoth dev tab scans buf
    (tab, ⟨buf, goesOn, [], []⟩)
  | .read dev scans count => termRead inBoth outBoth dev tab scans count
  | .ioctl dev flush t =>
    if flush then
      (Function.update tab dev { (tab dev).flush with t },
        ⟨[], true, (tab dev).rxq.toList.map fun ch => (dev, ch), []⟩)
    else (Function.update tab dev { tab dev with t }, ⟨[], true, [], []⟩)
  | .poll scan => ((scandevs tab scan).1, ⟨[], true, [], []⟩)

/-- A call that has been made: the devices as it found them, and as it has left them. -/
structure Made (n : ℕ) where
  found : DevTable n
  call : TermCall n
  left : DevTable n
  report : Report n

/-- One call after the other. -/
def runCalls (inBoth outBoth : Bool) :
    DevTable n → List (TermCall n) → DevTable n × List (Made n)
  | tab, [] => (tab, [])
  | tab, call :: calls =>
    let (left, report) := call.exec inBoth outBoth tab
    let (last, made) := runCalls inBoth outBoth left calls
    (last, ⟨tab, call, left, report⟩ :: made)

/-- What a call is to hand to a device: the data of a write, or what a read echoes. -/
def Made.asked (outBoth : Bool) (m : Made n) (i : Fin n) : List UInt8 :=
  match m.call with
  | .write dev _ _ => Tty.asked outBoth dev m.found i m.report.written
  | .read dev _ _ => Tty.asked outBoth dev m.found i m.report.written
  | .ioctl .. => []
  | .poll _ => []

/-- A write that has returned leaves nothing waiting, and a read that has returned has given to its
    caller what it has taken, edited in canonical mode. -/
def Made.Right (outBoth : Bool) (m : Made n) : Prop :=
  match m.call with
  | .write dev _ buf => m.report.written = buf ∧ (m.report.finished = true → buf ≠ [] →
      ∀ i, Target outBoth dev i → (m.left i).txq.count = 0)
  | .read dev _ _ =>
    m.report.finished = true → m.report.returned = edited m.found dev [] m.report.taken
  | .ioctl .. => True
  | .poll _ => True

/-- **What a call may do to a device**; the flags are as they please. -/
def Flows (e taken : List UInt8) (p p' : DevEntry) : Prop :=
  ∃ q t, Moved e taken p q ∧ p' = { q with t := t }

theorem Moved.flows (h : Moved e taken p p') : Flows e taken p p' := ⟨p', p'.t, h, rfl⟩

theorem flushQueue_spec {q : RingQueue UInt8} (h : q.Valid) :
    (flushQueue q.count q).Valid ∧ (flushQueue q.count q).toList = [] := by
  generalize hcount : q.count = count
  induction count generalizing q with
  | zero => exact ⟨h, toList_nil.mpr hcount⟩
  | succ count ih =>
    apply ih h.get
    rw [RingQueue.get_count, hcount]
    rfl

theorem flush_moves (h : p.Valid) : Moved [] p.rxq.toList p p.flush := by
  obtain ⟨hvalid, hnil⟩ := flushQueue_spec h.rxq
  have hflush : Moved [] p.rxq.toList p { p with rxq := flushQueue p.rxq.count p.rxq } := by
    refine ⟨⟨hvalid, h.txq⟩, rfl, rfl, List.prefix_refl _, (List.append_nil _).symm,
      ⟨[], ?_, (List.append_nil _).symm⟩, fun _ => rfl, fun _ => Or.inl⟩
    rw [hnil]
  unfold DevEntry.flush
  dsimp only
  split
  · split
    · rename_i hoff
      exact (hflush.rxoff false).chwrite hoff 0x11
    · exact hflush.rxoff false
  · exact hflush

theorem takenFrom_map (i j : Fin n) (l : List UInt8) :
    takenFrom i (l.map fun ch => (j, ch)) = if i = j then l else [] := by
  induction l with
  | nil => exact (ite_self _).symm
  | cons ch l ih =>
    rw [List.map_cons, takenFrom_cons, ih]
    split
    · rfl
    · rfl

/-- **A call**, of whatever kind. -/
theorem exec_flows (inBoth outBoth : Bool) (h : ∀ i, (tab i).Valid) (call : TermCall n) :
    let m : Made n := ⟨tab, call, (call.exec inBoth outBoth tab).1,
      (call.exec inBoth outBoth tab).2⟩
    m.Right outBoth ∧ ∀ i, ∃ e, (e <+: m.asked outBoth i ∧
        (m.report.finished = true → e = m.asked outBoth i)) ∧
      Flows e (takenFrom i m.report.taken) (tab i) (m.left i) := by
  cases call with
  | write dev scans buf =>
    refine ⟨⟨rfl, fun hend hbuf i htarget => ?_⟩, fun i => ?_⟩
    · obtain ⟨_, -, -, hok⟩ := termWrite_moves outBoth dev h scans buf i
      exact (hok hend).2 htarget hbuf
    · obtain ⟨e, hpre, hmoves, hok⟩ := termWrite_moves outBoth dev h scans buf i
      exact ⟨e, ⟨hpre, fun hend => (hok hend).1⟩, hmoves.flows⟩
  | read dev scans count =>
    obtain ⟨hreports, hreturned⟩ :=
      readLoop_moves inBoth outBoth dev count (scans.length + 1) h dev scans []
    refine ⟨hreturned, fun i => ?_⟩
    obtain ⟨e, hpre, hmoves, hok⟩ := hreports i
    exact ⟨e, ⟨hpre, hok⟩, hmoves.flows⟩
  | poll scan =>
    exact ⟨trivial, fun i => ⟨[], ⟨List.nil_prefix, fun _ => rfl⟩, (scandevs_moves h scan i).flows⟩⟩
  | ioctl dev flush t =>
    refine ⟨trivial, fun i => ⟨[], ⟨List.nil_prefix, fun _ => rfl⟩, ?_⟩⟩
    unfold TermCall.exec
    dsimp only
    cases flush with
    | false =>
      rw [if_neg Bool.false_ne_true]
      dsimp only
      by_cases hi : i = dev
      · subst hi
        rw [Function.update_self]
        exact ⟨tab i, t, .refl (h i), rfl⟩
      · rw [Function.update_of_ne hi]
        exact (Moved.refl (h i)).flows
    | true =>
      rw [if_pos rfl]
      dsimp only
      rw [takenFrom_map]
      by_cases hi : i = dev
      · subst hi
        rw [Function.update_self, if_pos rfl]
        exact ⟨(tab i).flush, t, flush_moves (h i), rfl⟩
      · rw [Function.update_of_ne hi, if_neg hi]
        exact (Moved.refl (h i)).flows

/-! ## §4 Runs -/

/-- **What a run does to a device**: of each call it gets a piece of what the call is to hand to it,
    all of it when the call has ended; and the calls take what comes in, in order. -/
structure Ran (outBoth : Bool) (i : Fin n) (made : List (Made n)) (p p' : DevEntry) : Prop where
  valid : p'.Valid
  limit : p'.txq.limit = p.txq.limit
  out : ∃ pieces, List.Forall₂ (fun e (m : Made n) => e <+: m.asked outBoth i ∧
    (m.report.finished = true → e = m.asked outBoth i)) pieces made ∧
      p'.out = p.out ++ pieces.flatten
  rx : ∃ ks, (made.flatMap fun m => takenFrom i m.report.taken) ++ p'.rxq.toList =
    p.rxq.toList ++ ks ∧ p'.kept = p.kept ++ ks
  urgents : (∀ m ∈ made, (m.found i).t.ixoff = false) → p'.urgents = p.urgents
  received : ∀ r ∈ p'.received, r ∈ p.received ∨ ∃ m ∈ made, r.Explained (m.found i).t

theorem runCalls_moves (inBoth outBoth : Bool) (h : ∀ i, (tab i).Valid)
    (calls : List (TermCall n)) :
    (∀ m ∈ (runCalls inBoth outBoth tab calls).2, m.Right outBoth) ∧
      ∀ i, Ran outBoth i (runCalls inBoth outBoth tab calls).2 (tab i)
        ((runCalls inBoth outBoth tab calls).1 i) := by
  induction calls generalizing tab with
  | nil =>
    refine ⟨fun m hm => absurd hm List.not_mem_nil, fun i => ?_⟩
    exact ⟨h i, rfl, ⟨[], .nil, (List.append_nil _).symm⟩,
      ⟨[], (List.append_nil _).symm, (List.append_nil _).symm⟩, fun _ => rfl, fun _ => Or.inl⟩
  | cons call calls ih =>
    obtain ⟨hright, hflows⟩ := exec_flows inBoth outBoth h call
    rw [runCalls]
    dsimp only at hright hflows ⊢
    generalize (call.exec inBoth outBoth tab).1 = left at hright hflows ⊢
    generalize (call.exec inBoth outBoth tab).2 = report at hright hflows ⊢
    have hvalid : ∀ i, (left i).Valid := by
      intro i
      obtain ⟨e, -, q, t, hq, hleft⟩ := hflows i
      rw [hleft]
      exact ⟨hq.valid.rxq, hq.valid.txq⟩
    obtain ⟨hrights, hran⟩ := ih hvalid
    generalize (runCalls inBoth outBoth left calls).1 = last at hrights hran ⊢
    generalize (runCalls inBoth outBoth left calls).2 = made at hrights hran ⊢
    refine ⟨List.forall_mem_cons.mpr ⟨hright, hrights⟩, fun i => ?_⟩
    obtain ⟨e, he, q, t, hq, hleft⟩ := hflows i
    obtain ⟨hv, hlimit, ⟨pieces, hpieces, hout⟩, ⟨ks, hks, hkept⟩, hurgents, hreceived⟩ := hran i
    rw [hleft] at hlimit hout hks hkept hurgents hreceived
    refine ⟨hv, hlimit.trans hq.limit, ⟨e :: pieces, .cons he hpieces, ?_⟩, ?_, ?_, ?_⟩
    · rw [hout, List.flatten_cons, ← List.append_assoc, ← hq.out]
      rfl
    · obtain ⟨ks', hks', hkept'⟩ := hq.rx
      refine ⟨ks' ++ ks, ?_, ?_⟩
      · rw [List.flatMap_cons, List.append_assoc, hks, ← List.append_assoc, ← List.append_assoc,
          ← hks']
      · rw [hkept, ← List.append_assoc, ← hkept']
        rfl
    · intro hoff
      obtain ⟨hfirst, hoff⟩ := List.forall_mem_cons.mp hoff
      exact (hurgents hoff).trans (hq.urgents hfirst)
    · intro r hr
      rcases hreceived r hr with hr | ⟨m, hm, hr⟩
      · rcases hq.received r hr with hr | hr
        · exact Or.inl hr
        · exact Or.inr ⟨_, List.mem_cons_self, hr⟩
      · exact Or.inr ⟨m, List.mem_cons_of_mem _ hm, hr⟩

/-- A queue of a power of two places: the mask is a short. -/
theorem qcreate_spec {size : ℕ} {q : RingQueue UInt8} (hsize : 2 < size)
    (h : qcreate size = some q) : q.Valid ∧ 2 < q.limit ∧ q.toList = [] := by
  unfold qcreate at h
  split at h
  · cases h
  · rename_i hpow
    obtain ⟨k, rfl⟩ := (Nat.and_sub_one_eq_zero_iff_isPowerOfTwo (by omega)).mp
      (not_not.mp hpow)
    obtain rfl := Option.some.inj h
    have hk : 2 ≤ k := by
      by_contra hlt
      have := Nat.pow_le_pow_right (n := 2) (by decide) (show k ≤ 1 by omega)
      omega
    have hmask : (2 ^ k - 1) % 65536 = 2 ^ min k 16 - 1 := by
      rcases Nat.le_total k 16 with hle | hle
      · have := Nat.pow_le_pow_right (n := 2) (by decide) hle
        rw [Nat.min_eq_left hle, Nat.mod_eq_of_lt (by omega)]
      · obtain ⟨j, rfl⟩ := Nat.exists_eq_add_of_le hle
        have := Nat.two_pow_pos j
        rw [Nat.min_eq_right hle, Nat.pow_add]
        omega
    rw [hmask]
    refine ⟨RingQueue.empty_valid _ _, ?_, rfl⟩
    have := Nat.pow_le_pow_right (n := 2) (by decide) (show 2 ≤ min k 16 by omega)
    change 2 < 2 ^ min k 16 - 1
    omega

theorem devinit_spec {t : Termio} {size : ℕ} (hsize : 2 < size) (h : devinit t size = some p) :
    p.Valid ∧ 2 < p.txq.limit ∧ p.rxq.toList = [] ∧ p.out = [] ∧ p.kept = [] ∧
      p.urgents = [] ∧ p.received = [] := by
  obtain ⟨q, hq, rfl⟩ := Option.map_eq_some_iff.mp h
  obtain ⟨hvalid, hlimit, hnil⟩ := qcreate_spec hsize hq
  exact ⟨⟨hvalid, hvalid⟩, hlimit, hnil, hnil, rfl, rfl, rfl⟩

/-- `setsane`, of a terminal without flags. -/
def setsane : Termio where
  istrip := true
  icrnl := true
  ixon := true
  ixany := false
  ixoff := false
  onlcr := true
  icanon := true
  isig := true
  echo := true
  echoe := true
  vintr := 0x03
  verase := 0x08
  veol := 0x0a
  veol2 := 0x03
  vstart := 0x11
  vstop := 0x13

def saneTab : DevTable 1 := fun _ =>
  ⟨false, false, .empty 15 fun _ => 0, .empty 15 fun _ => 0, setsane, [], []⟩

/-- A line is typed, and read: an `a`, which is taken back, and a newline. -/
def lineCalls : List (TermCall 1) :=
  [.read 0 ((fun _ => ⟨[0x61, 0x08, 0x0a], 4, false⟩) ::
    List.replicate 5 fun _ => ⟨[], 4, false⟩) 80]

end Pmon.Fs.Tty
