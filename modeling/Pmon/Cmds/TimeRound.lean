import Mathlib.Algebra.Order.BigOperators.Group.List
import Mathlib.Logic.Function.Iterate
import Mathlib.Tactic.IntervalCases
import Mathlib.Tactic.Ring
import Pmon.Cmds.Time
import Pmon.Lib.Spans

/-!
# Breaking a time down and putting it together

What the broken-down fields should say is fixed by a calendar that goes on day by day from
Thursday, the first of January 1970.  The years since then and the months of a year are spans of
days; the loops of `offtime` find the spans that a day lies in, and `gmmktime` and `mktime` add the
lengths of the spans before it.

The sums of `mktime` wrap around where a local time does not fit a `time_t`; the difference with
the offset is the time again.

## Key results

- `offtime_brokenDown`: the fields are those of the calendar.
- `tmSecs_of_brokenDown`: their sum is the local time.
- `time_round_trip`: what comes back from `gmmktime` and `mktime`.
-/

namespace Pmon.Cmds

open Pmon.Libc Pmon.Lib

variable {leap : Bool} {i j n r : ℕ} {t offset : ℤ}

/-! ## §1 The calendar -/

/-- The length of a year since 1970. -/
def yearLen (i : ℕ) : ℕ := (yearLengths (isleap (1970 + i))).toNat

/-- The length of a month, none behind December. -/
def monLen (leap : Bool) (j : ℕ) : ℕ := ((monLengths leap).getD j 0).toNat

/-- A day: year, month, day of the month, day of the year and weekday. -/
structure Date where
  year : ℕ
  mon : ℕ
  mday : ℕ
  yday : ℕ
  wday : ℕ

/-- Thursday, the first of January 1970. -/
def Date.epoch : Date := ⟨1970, 0, 1, 0, 4⟩

/-- The next day. -/
def Date.next (d : Date) : Date :=
  let wday := (d.wday + 1) % 7
  if d.mday < monLen (isleap d.year) d.mon then
    { d with mday := d.mday + 1, yday := d.yday + 1, wday }
  else if d.mon < 11 then { d with mon := d.mon + 1, mday := 1, yday := d.yday + 1, wday }
  else ⟨d.year + 1, 0, 1, 0, wday⟩

/-- The day `n` days after the epoch. -/
def dateOf (n : ℕ) : Date := Date.next^[n] Date.epoch

theorem yearLen_cast (i : ℕ) : (yearLen i : ℤ) = yearLengths (isleap (1970 + i)) :=
  Int.toNat_of_nonneg (Int.le_of_lt (yearLengths_pos _))

theorem yearLen_pos (i : ℕ) : 0 < yearLen i := by
  have h := yearLengths_pos (isleap (1970 + i))
  rw [← yearLen_cast] at h
  exact Int.natCast_pos.mp h

theorem monLen_pos : ∀ leap, ∀ j < 12, 0 < monLen leap j := by decide

/-- The months make up the year. -/
theorem spanStart_monLen (i : ℕ) : spanStart (monLen (isleap (1970 + i))) 12 = yearLen i := by
  have h : ∀ leap, spanStart (monLen leap) 12 = (yearLengths leap).toNat := by decide
  exact h _

/-- A day of the calendar, by the spans that it lies in. -/
structure Placed (n i : ℕ) (d : Date) : Prop where
  year : d.year = 1970 + i
  in_year : Within yearLen n i d.yday
  mon_lt : d.mon < 12
  mday_pos : 0 < d.mday
  in_month : Within (monLen (isleap (1970 + i))) d.yday d.mon (d.mday - 1)
  wday : d.wday = (4 + n) % 7

theorem placed_next {d : Date} (h : Placed n i d) : ∃ i', Placed (n + 1) i' d.next := by
  have hwday : (d.wday + 1) % 7 = (4 + (n + 1)) % 7 := by
    rw [h.wday]
    omega
  have hlt := h.in_month.lt
  have hpos := h.mday_pos
  have hyear : ((d.year : ℕ) : ℤ) = 1970 + i := by
    rw [h.year]
    push_cast
    rfl
  unfold Date.next
  rw [hyear]
  by_cases hday : d.mday < monLen (isleap (1970 + i)) d.mon
  · -- the same month
    have hmonth := h.in_month.step (by omega)
    have hend := (h.in_month.step (by omega)).lt_start h.mon_lt
    rw [spanStart_monLen] at hend
    refine ⟨i, ?_⟩
    rw [if_pos hday]
    refine ⟨h.year, h.in_year.step hend, h.mon_lt, Nat.succ_pos _, ?_, hwday⟩
    have hsub : d.mday - 1 + 1 = d.mday + 1 - 1 := by omega
    rwa [hsub] at hmonth
  · have hlast : d.mday - 1 + 1 = monLen (isleap (1970 + i)) d.mon := by omega
    rw [if_neg hday]
    by_cases hmon : d.mon < 11
    · -- the first of the next month
      have hmonth := h.in_month.next hlast (monLen_pos _ _ (by omega))
      have hend := hmonth.lt_start (show d.mon + 1 < 12 by omega)
      rw [spanStart_monLen] at hend
      refine ⟨i, ?_⟩
      rw [if_pos hmon]
      exact ⟨h.year, h.in_year.step hend, Nat.succ_lt_succ hmon, Nat.one_pos, hmonth, hwday⟩
    · -- the first of January
      have hdec : d.mon = 11 := by
        have := h.mon_lt
        omega
      have hyday : d.yday + 1 = yearLen i := by
        rw [← spanStart_monLen, show (12 : ℕ) = d.mon + 1 by omega, spanStart_succ, ← hlast,
          h.in_month.eq]
        rfl
      refine ⟨i + 1, ?_⟩
      rw [if_neg hmon]
      refine ⟨?_, h.in_year.next hyday (yearLen_pos _), Nat.succ_pos 11, Nat.one_pos, ?_, hwday⟩
      · rw [h.year, Nat.add_assoc]
      · exact Within.zero (monLen_pos _ 0 (by decide))

/-- Every day of the calendar lies in its year and its month. -/
theorem placed_dateOf (n : ℕ) : ∃ i, Placed n i (dateOf n) := by
  induction n with
  | zero =>
    refine ⟨0, rfl, Within.zero (yearLen_pos 0), by decide, by decide, ?_, rfl⟩
    exact Within.zero (monLen_pos _ 0 (by decide))
  | succ n ih =>
    obtain ⟨i, hi⟩ := ih
    rw [dateOf, Function.iterate_succ_apply']
    exact placed_next hi

/-! ## §2 The loops find the spans -/

theorem yearUp_spec (n i : ℕ) : ∃ j r : ℕ, yearUp (1970 + i) n = (1970 + (j : ℤ), (r : ℤ)) ∧
    spanStart yearLen j + r = spanStart yearLen i + n ∧ r < yearLen j := by
  induction n using Nat.strong_induction_on generalizing i with
  | _ n ih =>
  have hlen := yearLen_cast i
  have hpos := yearLen_pos i
  rw [yearUp, ← hlen]
  by_cases hlt : (n : ℤ) < yearLen i
  · rw [if_pos hlt]
    exact ⟨i, n, rfl, rfl, by omega⟩
  · rw [if_neg hlt]
    obtain ⟨j, r, heq, hsum, hr⟩ := ih (n - yearLen i) (by omega) (i + 1)
    have hdays : (n : ℤ) - yearLen i = (n - yearLen i : ℕ) := by omega
    have hyear : 1970 + (i : ℤ) + 1 = 1970 + (i + 1 : ℕ) := by omega
    refine ⟨j, r, ?_, ?_, hr⟩
    · rw [hdays, hyear, heq]
    · rw [hsum, spanStart_succ]
      omega

/-- Going down ends before 1970. -/
theorem yearDown_lt (y days : ℤ) : (yearDown y days).1 < y := by
  fun_induction yearDown y days with
  | case1 y days h ih => omega
  | case2 y days h => exact Int.sub_one_lt_of_le (Int.le_refl y)

/-- The loop over a list of lengths stops in the span that the days lie in. -/
theorem monthLoop_spec (ip : List ℤ) (hnonneg : ∀ l ∈ ip, 0 ≤ l) (mon : ℤ) {k r : ℕ}
    (hk : k < ip.length) (hr : (r : ℤ) < ip.getD k 0) :
    monthLoop ip mon ((ip.take k).sum + r) = (mon + k, (r : ℤ)) := by
  induction ip generalizing mon k with
  | nil => simp at hk
  | cons l ip ih =>
    obtain ⟨hl, hip⟩ := List.forall_mem_cons.mp hnonneg
    cases k with
    | zero =>
      have hlt : ¬ ((r : ℤ) ≥ l) := by simpa using hr
      simp [monthLoop, hlt]
    | succ k =>
      have hsum : 0 ≤ (ip.take k).sum := List.sum_nonneg fun x hx => hip x (List.mem_of_mem_take hx)
      have hge : ((l :: ip).take (k + 1)).sum + r ≥ l := by
        rw [List.take_succ_cons, List.sum_cons]
        omega
      have hrec := ih hip (mon + 1) (Nat.lt_of_succ_lt_succ hk) hr
      rw [monthLoop, if_pos hge, List.take_succ_cons, List.sum_cons]
      rw [show l + (ip.take k).sum + (r : ℤ) - l = (ip.take k).sum + r by ring, hrec]
      congr 1
      push_cast
      ring

theorem sum_take_monLengths : ∀ leap, ∀ j ≤ 12,
    ((monLengths leap).take j).sum = (spanStart (monLen leap) j : ℤ) := by decide

theorem monthLoop_within {yday j r : ℕ} (hj : j < 12) (h : Within (monLen leap) yday j r) :
    monthLoop (monLengths leap) 0 yday = ((j : ℤ), (r : ℤ)) := by
  have hlen : (monLengths leap).length = 12 := by cases leap <;> rfl
  have hnonneg : ∀ l ∈ monLengths leap, 0 ≤ l := by cases leap <;> decide
  have hr : (r : ℤ) < (monLengths leap).getD j 0 := by
    have := h.lt
    unfold monLen at this
    omega
  have hloop := monthLoop_spec (monLengths leap) hnonneg 0 (hlen ▸ hj) hr
  rw [sum_take_monLengths leap j (Nat.le_of_lt hj), zero_add] at hloop
  rw [← hloop, h.eq]
  push_cast
  rfl

/-! ## §3 The broken-down time -/

theorem carryBack_spec (days rem : ℤ) : ∃ d r, carryBack days rem = (d, r) ∧ 0 ≤ r ∧
    d * secsPerDay + r = days * secsPerDay + rem := by
  fun_induction carryBack days rem with
  | case1 days rem h ih =>
    obtain ⟨d, r, heq, hr, hsum⟩ := ih
    refine ⟨d, r, heq, hr, ?_⟩
    rw [hsum]
    ring
  | case2 days rem h => exact ⟨days, rem, rfl, Int.not_lt.mp h, rfl⟩

theorem carryOn_spec (days rem : ℤ) (hrem : 0 ≤ rem) : ∃ d r, carryOn days rem = (d, r) ∧ 0 ≤ r ∧
    r < secsPerDay ∧ d * secsPerDay + r = days * secsPerDay + rem := by
  fun_induction carryOn days rem with
  | case1 days rem h ih =>
    obtain ⟨d, r, heq, hr, hlt, hsum⟩ := ih (Int.sub_nonneg_of_le h)
    refine ⟨d, r, heq, hr, hlt, ?_⟩
    rw [hsum]
    ring
  | case2 days rem h => exact ⟨days, rem, rfl, hrem, Int.not_le.mp h, rfl⟩

/-- The two carries give the local day and the second of that day. -/
theorem carry_eq (t offset : ℤ) :
    carryOn (carryBack (t.tdiv secsPerDay) (t.tmod secsPerDay + offset)).1
      (carryBack (t.tdiv secsPerDay) (t.tmod secsPerDay + offset)).2 =
      ((t + offset) / 86400, (t + offset) % 86400) := by
  obtain ⟨d, r, hback, hr, hsum⟩ := carryBack_spec (t.tdiv secsPerDay) (t.tmod secsPerDay + offset)
  obtain ⟨d', r', hon, hr', hlt, hsum'⟩ := carryOn_spec d r hr
  have hdiv := Int.mul_tdiv_add_tmod t secsPerDay
  have htotal : d' * 86400 + r' = t + offset := by
    simp only [secsPerDay] at hsum hsum' hdiv
    omega
  simp only [secsPerDay] at hlt
  rw [hback, hon, ← htotal]
  refine Prod.ext ?_ ?_ <;> simp only <;> omega

/-- What `offtime` should say about the local time `L`: the time of the day, and a day of the
    calendar. -/
structure BrokenDown (L : ℤ) (tm : Tm) : Prop where
  sec : tm.sec = L % 60
  min : tm.min = L / 60 % 60
  hour : tm.hour = L / 3600 % 24
  year : tm.year = (dateOf (L / 86400).toNat).year - 1900
  mon : tm.mon = (dateOf (L / 86400).toNat).mon
  mday : tm.mday = (dateOf (L / 86400).toNat).mday
  yday : tm.yday = (dateOf (L / 86400).toNat).yday
  wday : tm.wday = (dateOf (L / 86400).toNat).wday

/-- The local day is before the epoch or a day of the calendar. -/
theorem offtime_year (t offset : ℤ) : (offtime t offset).year =
    (if (t + offset) / 86400 ≥ 0 then yearUp 1970 ((t + offset) / 86400)
      else yearDown 1970 ((t + offset) / 86400)).1 - 1900 := by
  have hcarry := carry_eq t offset
  simp only [offtime, hcarry]

/-- **The fields of `offtime` are those of the calendar.** -/
theorem offtime_brokenDown (h : 0 ≤ t + offset) :
    BrokenDown (t + offset) (offtime t offset) := by
  have hcarry := carry_eq t offset
  generalize hL : t + offset = L at h hcarry
  have hday : 0 ≤ L / 86400 := Int.ediv_nonneg h (by decide)
  obtain ⟨n, hn⟩ := Int.eq_ofNat_of_zero_le hday
  obtain ⟨i, hplaced⟩ := placed_dateOf n
  obtain ⟨j, r, hup, hsum, hr⟩ := yearUp_spec n 0
  -- the year and the day of the year of the loop are those of the calendar
  have hwithin : Within yearLen n j r := ⟨by simpa using hsum.symm, hr⟩
  obtain ⟨rfl, hyday⟩ := hwithin.unique hplaced.in_year
  have hmonth : monthLoop (monLengths (isleap (1970 + (j : ℤ)))) 0 r =
      (((dateOf n).mon : ℤ), (((dateOf n).mday - 1 : ℕ) : ℤ)) := by
    rw [hyday]
    exact monthLoop_within hplaced.mon_lt hplaced.in_month
  have hyears : yearUp 1970 (n : ℤ) = (1970 + (j : ℤ), (r : ℤ)) := by
    simpa using hup
  have hyear := hplaced.year
  have hmday := hplaced.mday_pos
  have hwday := hplaced.wday
  have hmod : ((4 : ℤ) + n).tmod 7 = (4 + n) % 7 := Int.tmod_eq_emod_of_nonneg (by omega)
  have hnonneg : (0 : ℤ) ≤ n := by omega
  have hrem : 0 ≤ L % 86400 := Int.emod_nonneg _ (by decide)
  have hlt : L % 86400 < 86400 := Int.emod_lt_of_pos _ (by decide)
  have hdivmod := Int.mul_ediv_add_emod L 86400
  have hhour : (L % 86400).tdiv 3600 = L % 86400 / 3600 := Int.tdiv_eq_ediv_of_nonneg hrem
  have hrem' : (L % 86400).tmod 3600 = L % 86400 % 3600 := Int.tmod_eq_emod_of_nonneg hrem
  have hnext : 0 ≤ L % 86400 % 3600 := Int.emod_nonneg _ (by decide)
  have hmin : (L % 86400 % 3600).tdiv 60 = L % 86400 % 3600 / 60 :=
    Int.tdiv_eq_ediv_of_nonneg hnext
  have hsec : (L % 86400 % 3600).tmod 60 = L % 86400 % 3600 % 60 :=
    Int.tmod_eq_emod_of_nonneg hnext
  have htm : offtime t offset = {
      sec := L % 86400 % 3600 % 60, min := L % 86400 % 3600 / 60, hour := L % 86400 / 3600,
      mday := (((dateOf n).mday - 1 : ℕ) : ℤ) + 1, mon := (dateOf n).mon, year := 1970 + j - 1900,
      wday := (4 + n) % 7, yday := r, isdst := 0, gmtoff := offset, zone := some [] } := by
    have hneg : ¬ ((4 : ℤ) + n) % 7 < 0 := by omega
    simp only [offtime, hcarry, hn, hhour, hrem', hmin, hsec, ge_iff_le, hnonneg, if_true, hyears,
      hmonth, hmod, hneg, if_false]
  have htoNat : (L / 86400).toNat = n := by omega
  rw [htm]
  refine ⟨?_, ?_, ?_, ?_, ?_, ?_, ?_, ?_⟩ <;> simp only [htoNat] <;> omega

/-- The fields are in their ranges. -/
structure InRange (tm : Tm) : Prop where
  sec : 0 ≤ tm.sec ∧ tm.sec < 60
  min : 0 ≤ tm.min ∧ tm.min < 60
  hour : 0 ≤ tm.hour ∧ tm.hour < 24
  mon : 0 ≤ tm.mon ∧ tm.mon < 12
  mday : 1 ≤ tm.mday ∧ tm.mday ≤ (monLengths (isleap (tm.year + 1900))).getD tm.mon.toNat 0
  year : 70 ≤ tm.year
  yday : 0 ≤ tm.yday ∧ tm.yday < yearLengths (isleap (tm.year + 1900))
  wday : 0 ≤ tm.wday ∧ tm.wday < 7

theorem BrokenDown.inRange {L : ℤ} {tm : Tm} (h : BrokenDown L tm) : InRange tm := by
  obtain ⟨i, hplaced⟩ := placed_dateOf (L / 86400).toNat
  have hyear : tm.year + 1900 = 1970 + i := by
    rw [h.year, hplaced.year]
    push_cast
    ring
  have hmon : tm.mon.toNat = (dateOf (L / 86400).toNat).mon := by
    rw [h.mon]
    rfl
  have hmonth := hplaced.in_month.lt
  have hday := hplaced.in_year.lt
  have hpos := hplaced.mday_pos
  have hwday := hplaced.wday
  have hlt := hplaced.mon_lt
  have hlen := yearLen_cast i
  refine ⟨?_, ?_, ?_, ?_, ?_, ?_, ?_, ?_⟩
  · rw [h.sec]
    omega
  · rw [h.min]
    omega
  · rw [h.hour]
    omega
  · rw [h.mon]
    omega
  · rw [h.mday, hyear, hmon]
    unfold monLen at hmonth
    omega
  · omega
  · rw [h.yday, hyear, ← hlen]
    omega
  · rw [h.wday]
    omega

/-! ## §4 The sums -/

theorem timeT_add (x y : ℤ) : timeT (timeT x + y) = timeT (x + y) := Int.bmod_add_bmod

theorem timeT_of_range (h₀ : 0 ≤ t) (h₁ : t < 2147483648) : timeT t = t := by
  unfold timeT
  apply Int.bmod_eq_of_le <;> omega

theorem addDays_eq (x : ℤ) (lengths : List ℤ) :
    addDays (timeT x) lengths = timeT (x + lengths.sum * secsPerDay) := by
  induction lengths generalizing x with
  | nil => simp [addDays]
  | cons l lengths ih =>
    have hstep : addDays (timeT x) (l :: lengths) =
        addDays (timeT (timeT x + l * secsPerDay)) lengths := rfl
    rw [hstep, timeT_add, ih, List.sum_cons]
    congr 1
    ring

theorem sum_years (k : ℕ) :
    ((List.range k).map fun (i : ℕ) => yearLengths (isleap (1970 + i))).sum =
      (spanStart yearLen k : ℤ) := by
  induction k with
  | zero => rfl
  | succ k ih =>
    rw [List.range_succ, List.map_append, List.sum_append, ih, spanStart_succ]
    push_cast
    rw [yearLen_cast]
    simp

/-- **The sum of the fields is the local time.** -/
theorem tmSecs_of_brokenDown {L : ℤ} {tm : Tm} (hL : 0 ≤ L) (h : BrokenDown L tm) :
    tmSecs tm = timeT L := by
  obtain ⟨i, hplaced⟩ := placed_dateOf (L / 86400).toNat
  have hyear : tm.year + 1900 = 1970 + i := by
    rw [h.year, hplaced.year]
    push_cast
    ring
  have hcount : (tm.year + 1900 - 1970).toNat = i := by omega
  have hmon : tm.mon.toNat = (dateOf (L / 86400).toNat).mon := by
    rw [h.mon]
    rfl
  have hin := hplaced.in_year.eq
  have hmonth := hplaced.in_month.eq
  have hpos := hplaced.mday_pos
  simp only [tmSecs]
  rw [hcount, hyear, hmon, timeT_add tm.sec, timeT_add (tm.sec + _), timeT_add (tm.sec + _ + _),
    addDays_eq, addDays_eq, sum_years,
    sum_take_monLengths _ _ (Nat.le_of_lt hplaced.mon_lt), h.sec, h.min, h.hour, h.mday]
  congr 1
  simp only [secsPerDay]
  omega

theorem InRange.mday_le {tm : Tm} (h : InRange tm) : tm.mday ≤ 31 := by
  have hall : ∀ leap, ∀ j < 12, (monLengths leap).getD j 0 ≤ 31 := by decide
  have hlt : tm.mon.toNat < 12 := by
    have := h.mon
    omega
  exact Int.le_trans h.mday.2 (hall _ _ hlt)

theorem tmRejected_of_inRange {tm : Tm} (h : InRange tm) : tmRejected tm = false := by
  have hmday := h.mday_le
  have hs := h.sec
  have hm := h.min
  have hh := h.hour
  have hn := h.mon
  have hy := h.year
  simp only [tmRejected, Bool.or_eq_false_iff, decide_eq_false_iff_not]
  refine ⟨⟨⟨⟨⟨?_, ?_⟩, ?_⟩, ?_⟩, ?_⟩, ?_⟩ <;> omega

/-- A local time before 1970 is rejected. -/
theorem tmRejected_of_neg {tm : Tm} (h : tm.year < 70) : tmRejected tm = true := by
  simp [tmRejected, h]

theorem offtime_year_lt (h : t + offset < 0) : (offtime t offset).year < 70 := by
  have hday : ¬ (t + offset) / 86400 ≥ 0 := by omega
  have hlt := yearDown_lt 1970 ((t + offset) / 86400)
  rw [offtime_year, if_neg hday]
  omega

/-! ## §5 `localtime` and `mktime` -/

/-- Asking for the same value of `TZ` again changes nothing. -/
theorem tzset_idem (tz : Option CStr) (s : TzState) : tzset tz (tzset tz s) = tzset tz s := by
  match tz with
  | none =>
    by_cases h : s.envval.isSome = true
    · simp [tzset, h]
    · simp [tzset, h]
  | some [] =>
    by_cases h : s.envval.isSome = true
    · simp [tzset, h]
    · simp [tzset, h]
  | some (c :: tz) =>
    by_cases h : s.envval = some (c :: tz)
    · have hkept : tzset (some (c :: tz)) s = s := by simp [tzset, h]
      rw [hkept, hkept]
    · cases hparse : tzparse (c :: tz) with
      | some rules =>
        have hset : tzset (some (c :: tz)) s = ⟨some (c :: tz), rules⟩ := by simp [tzset, h, hparse]
        rw [hset]
        simp [tzset]
      | none =>
        have hset : tzset (some (c :: tz)) s = ⟨none, .utc⟩ := by simp [tzset, h, hparse]
        rw [hset]
        simp [tzset, hparse]

theorem localtime_idem (tz : Option CStr) (s : TimeState) (t : ℤ) :
    localtime tz (localtime tz s t) t = localtime tz s t := by
  have h : (localtime tz s t).tz = tzset tz s.tz := rfl
  unfold localtime at h ⊢
  simp only [tzset_idem]

theorem isDst_cases (r : TzRules) (t : ℤ) : isDst r t = 0 ∨ isDst r t = 1 ∨ isDst r t = -1 := by
  unfold isDst
  split
  · split
    · dsimp only
      split
      · split
        · exact .inr (.inl rfl)
        · exact .inl rfl
      · split
        · exact .inl rfl
        · exact .inr (.inl rfl)
    · exact .inr (.inr rfl)
  · exact .inl rfl

/-- `mktime` on what `localtime` returned, in the static record or a copy of it: the sum, less the
    offset that `localtime` added. -/
theorem mktime_localtime (tz : Option CStr) (s : TimeState) (h₀ : 0 ≤ t) (h₁ : t < 2147483648)
    (hlocal : 0 ≤ t + (localtime tz s t).tm.gmtoff) {ref : TmRef}
    (href : ref = .static ∨ ref = .own (localtime tz s t).tm) :
    (mktime tz (localtime tz s t) ref).1 = t := by
  generalize hs : localtime tz s t = s' at hlocal href ⊢
  have hidem : localtime tz s' t = s' := by rw [← hs, localtime_idem]
  have hderef : ref.deref s' = s'.tm := by
    rcases href with rfl | rfl <;> rfl
  have hassign : ref.assign s'.tm s' = (s', ref) := by
    rcases href with rfl | rfl <;> rfl
  have hdown : BrokenDown (t + s'.tm.gmtoff) s'.tm := by
    subst hs
    obtain ⟨h₁, h₂, h₃, h₄, h₅, h₆, h₇, h₈⟩ := offtime_brokenDown hlocal
    exact ⟨h₁, h₂, h₃, h₄, h₅, h₆, h₇, h₈⟩
  have hsum := tmSecs_of_brokenDown hlocal hdown
  have hvalid := tmRejected_of_inRange hdown.inRange
  -- the difference with the offset is the time again, whether or not the sum wrapped around
  have hback : timeT (timeT (t + s'.tm.gmtoff) - s'.tm.gmtoff) = t := by
    rw [sub_eq_add_neg, timeT_add, add_neg_cancel_right, timeT_of_range h₀ h₁]
  have hoff : s'.tm.gmtoff =
      if s'.tm.isdst = 1 then s'.tz.rules.dstoffset else s'.tz.rules.stdoffset := by
    subst hs
    rfl
  have hdst : s'.tm.isdst = 0 ∨ s'.tm.isdst = 1 ∨ s'.tm.isdst = -1 := by
    subst hs
    exact isDst_cases _ _
  unfold mktime
  rw [hderef, hvalid, if_neg Bool.false_ne_true, hsum]
  rcases hdst with h | h | h
  · rw [h, if_neg (by decide)] at hoff
    have hsecs : timeT (timeT (t + s'.tm.gmtoff) - s'.tz.rules.stdoffset) = t := by
      rw [← hoff]
      exact hback
    simp only [h, if_true, hsecs, hidem, hderef, ne_eq, not_true_eq_false, or_false, and_false,
      if_false, hassign]
  · have hsame : Tm.mk s'.tm.sec s'.tm.min s'.tm.hour s'.tm.mday s'.tm.mon s'.tm.year s'.tm.wday
        s'.tm.yday 1 s'.tm.gmtoff s'.tm.zone = s'.tm := by rw [← h]
    rw [h, if_pos rfl] at hoff
    have hsecs : timeT (timeT (t + s'.tm.gmtoff) - s'.tz.rules.dstoffset) = t := by
      rw [← hoff]
      exact hback
    simp only [h, hsame, hassign, one_ne_zero, if_false, Int.zero_lt_one, gt_iff_lt, if_true,
      hsecs, hidem, hderef, ne_eq, not_true_eq_false, or_false, and_false]
  · have hneg : ¬ (-1 : ℤ) > 0 := by decide
    have hne : ¬ (-1 : ℤ) = 0 := by decide
    rw [h, if_neg (by decide)] at hoff
    have hsecs : timeT (timeT (t + s'.tm.gmtoff) - s'.tz.rules.stdoffset) = t := by
      rw [← hoff]
      exact hback
    simp only [h, hneg, hne, if_false, hsecs, hidem, hderef, ne_eq, not_true_eq_false, or_false,
      and_false, hassign]

/-- A local time before 1970 is rejected. -/
theorem mktime_localtime_neg (tz : Option CStr) (s : TimeState)
    (hlocal : t + (localtime tz s t).tm.gmtoff < 0) {ref : TmRef}
    (href : ref = .static ∨ ref = .own (localtime tz s t).tm) :
    (mktime tz (localtime tz s t) ref).1 = -1 := by
  have hderef : ref.deref (localtime tz s t) = (localtime tz s t).tm := by
    rcases href with rfl | rfl <;> rfl
  have hyear : (localtime tz s t).tm.year < 70 := offtime_year_lt hlocal
  unfold mktime
  rw [hderef, tmRejected_of_neg hyear, if_pos rfl]

/-! ## §6 There and back -/

theorem gmtime_brokenDown (h : 0 ≤ t) : BrokenDown t (gmtime t) := by
  have hnonneg : 0 ≤ t + 0 := by rwa [add_zero]
  obtain ⟨h₁, h₂, h₃, h₄, h₅, h₆, h₇, h₈⟩ := offtime_brokenDown hnonneg
  rw [add_zero] at h₁ h₂ h₃ h₄ h₅ h₆ h₇ h₈
  exact ⟨h₁, h₂, h₃, h₄, h₅, h₆, h₇, h₈⟩

theorem BrokenDown.gmmktime_eq {tm : Tm} (h : BrokenDown t tm) (h₀ : 0 ≤ t) (h₁ : t < 2147483648) :
    gmmktime tm = t := by
  rw [gmmktime, tmRejected_of_inRange h.inRange, if_neg Bool.false_ne_true,
    tmSecs_of_brokenDown h₀ h, timeT_of_range h₀ h₁]

/-- **There and back**: `gmmktime` is the inverse of `gmtime`, whose fields are those of the
    calendar; and `mktime`, on the record of `localtime` or a copy of it, gives the time back for
    every setting of `TZ` as long as the local time is not before 1970, where it returns -1. -/
theorem time_round_trip (t : ℤ) (h₀ : 0 ≤ t) (h₁ : t < 2147483648) :
    gmmktime (gmtime t) = t ∧ BrokenDown t (gmtime t) ∧ InRange (gmtime t) ∧
      ∀ tz s ref, ref = .static ∨ ref = .own (localtime tz s t).tm →
        (mktime tz (localtime tz s t) ref).1 =
          if 0 ≤ t + (localtime tz s t).tm.gmtoff then t else -1 := by
  have hdown := gmtime_brokenDown h₀
  refine ⟨hdown.gmmktime_eq h₀ h₁, hdown, hdown.inRange, fun tz s ref href => ?_⟩
  split
  · rename_i hlocal
    exact mktime_localtime tz s h₀ h₁ hlocal href
  · rename_i hlocal
    exact mktime_localtime_neg tz s (Int.not_le.mp hlocal) href

theorem time_round_trip_epoch :
    ((0 : ℤ) ≤ 951782400 ∧ (951782400 : ℤ) < 2147483648) ∧
      gmmktime (gmtime 951782400) = 951782400 ∧ BrokenDown 951782400 (gmtime 951782400) ∧
      InRange (gmtime 951782400) ∧
      ∀ tz s ref, ref = .static ∨ ref = .own (localtime tz s 951782400).tm →
        (mktime tz (localtime tz s 951782400) ref).1 =
          if 0 ≤ 951782400 + (localtime tz s 951782400).tm.gmtoff then 951782400 else -1 :=
  ⟨by decide, time_round_trip 951782400 (by decide) (by decide)⟩

/-- The variables before the first call. -/
def TimeState.initial : TimeState := ⟨⟨none, .utc⟩, ⟨0, 0, 0, 0, 0, 0, 0, 0, 0, 0, none⟩⟩

/-- West of Greenwich, in the sense that the offset has in `localtime`, the epoch is in 1969. -/
theorem mktime_before_epoch :
    (localtime (some (ascii "EST-5")) TimeState.initial 0).tm.gmtoff = -18000 ∧
      (mktime (some (ascii "EST-5")) (localtime (some (ascii "EST-5")) TimeState.initial 0)
        .static).1 = -1 := by
  have hoff : (localtime (some (ascii "EST-5")) TimeState.initial 0).tm.gmtoff = -18000 := by decide
  refine ⟨hoff, mktime_localtime_neg _ _ ?_ (.inl rfl)⟩
  rw [hoff]
  decide

end Pmon.Cmds
