import Mathlib.Algebra.Group.Nat.Defs
import Pmon.Libc.Strings

/-!
# The clock: `time.c`

`offtime` breaks a time down, `gmmktime` and `mktime` put one together, and `localtime` chooses the
offset by the rules that `tzparse` reads from the variable `TZ`.

A `time_t` has 32 bits; `timeT` is the wrap-around of a sum that is stored in one.  All broken-down
times are in one static record, so that the argument of `mktime` may be the record that the call
of `localtime` inside it overwrites.
-/

namespace Pmon.Cmds

open Pmon.Libc

/-! ## §1 The calendar -/

/-- A value stored in a `time_t`. -/
def timeT (z : ℤ) : ℤ := Int.bmod z (2 ^ 32)

def secsPerDay : ℤ := 86400

def isleap (y : ℤ) : Bool := y % 4 == 0 && (y % 100 != 0 || y % 400 == 0)

/-- `mon_lengths`. -/
def monLengths : Bool → List ℤ
  | false => [31, 28, 31, 30, 31, 30, 31, 31, 30, 31, 30, 31]
  | true => [31, 29, 31, 30, 31, 30, 31, 31, 30, 31, 30, 31]

/-- `year_lengths`. -/
def yearLengths : Bool → ℤ
  | false => 365
  | true => 366

theorem yearLengths_pos (leap : Bool) : 0 < yearLengths leap := by
  cases leap <;> decide

/-- `struct tm`. -/
structure Tm where
  sec : ℤ
  min : ℤ
  hour : ℤ
  mday : ℤ
  mon : ℤ
  year : ℤ
  wday : ℤ
  yday : ℤ
  isdst : ℤ
  gmtoff : ℤ
  zone : Option CStr

/-! ## §2 Breaking down -/

/-- `while (rem < 0)`. -/
def carryBack (days rem : ℤ) : ℤ × ℤ :=
  if rem < 0 then carryBack (days - 1) (rem + secsPerDay) else (days, rem)
termination_by (-rem).toNat
decreasing_by
  simp only [secsPerDay]
  omega

/-- `while (rem >= SECS_PER_DAY)`. -/
def carryOn (days rem : ℤ) : ℤ × ℤ :=
  if rem ≥ secsPerDay then carryOn (days + 1) (rem - secsPerDay) else (days, rem)
termination_by rem.toNat
decreasing_by
  rename_i h
  simp only [secsPerDay] at h ⊢
  omega

/-- The loop over the years from the epoch on. -/
def yearUp (y days : ℤ) : ℤ × ℤ :=
  if days < yearLengths (isleap y) then (y, days)
  else yearUp (y + 1) (days - yearLengths (isleap y))
termination_by days.toNat
decreasing_by
  rename_i h
  have := yearLengths_pos (isleap y)
  omega

/-- The loop over the years before the epoch; its condition stands at the end. -/
def yearDown (y days : ℤ) : ℤ × ℤ :=
  if days + yearLengths (isleap (y - 1)) < 0 then
    yearDown (y - 1) (days + yearLengths (isleap (y - 1)))
  else (y - 1, days + yearLengths (isleap (y - 1)))
termination_by (-days).toNat
decreasing_by
  have := yearLengths_pos (isleap (y - 1))
  omega

/-- The loop over the months. -/
def monthLoop : List ℤ → ℤ → ℤ → ℤ × ℤ
  | [], mon, days => (mon, days)
  | l :: ip, mon, days => if days ≥ l then monthLoop ip (mon + 1) (days - l) else (mon, days)

def offtime (clock offset : ℤ) : Tm :=
  let days := clock.tdiv secsPerDay
  let rem := clock.tmod secsPerDay
  let rem := rem + offset
  let (days, rem) := carryBack days rem
  let (days, rem) := carryOn days rem
  let hour := rem.tdiv 3600
  let rem := rem.tmod 3600
  let wday := (4 + days).tmod 7
  let wday := if wday < 0 then wday + 7 else wday
  let (y, days) := if days ≥ 0 then yearUp 1970 days else yearDown 1970 days
  let yday := days
  let (mon, days) := monthLoop (monLengths (isleap y)) 0 days
  { sec := rem.tmod 60, min := rem.tdiv 60, hour, mday := days + 1, mon, year := y - 1900, wday,
    yday, isdst := 0, gmtoff := offset, zone := some [] }

def gmtime (clock : ℤ) : Tm := { offtime clock 0 with zone := some (ascii "GMT") }

/-! ## §3 The variable `TZ` -/

/-- `getzname`: the name of a zone and what follows it. -/
def getzname (strp : CStr) : CStr × CStr :=
  let inName := fun c => !isdigit c && c != 44 && c != 45 && c != 43
  (strp.takeWhile inName, strp.dropWhile inName)

def getnumLoop (max : ℕ) : ℕ → CStr → Option (ℕ × CStr)
  | num, [] => some (num, [])
  | num, c :: strp =>
    if isdigit c then
      let num := num * 10 + (c.toNat - 48)
      if num > max then none else getnumLoop max num strp
    else some (num, c :: strp)

def getnum (strp : CStr) (min max : ℕ) : Option (ℕ × CStr) :=
  if strp.head?.any isdigit then
    match getnumLoop max 0 strp with
    | some (num, strp) => if num < min then none else some (num, strp)
    | none => none
  else none

/-- `hh[:mm[:ss]]`. -/
def getsecs (strp : CStr) : Option (ℤ × CStr) := do
  let (hours, strp) ← getnum strp 0 24
  let secs : ℤ := hours * 3600
  match strp with
  | 58 :: strp =>
    let (mins, strp) ← getnum strp 0 59
    let secs := secs + mins * 60
    match strp with
    | 58 :: strp =>
      let (num, strp) ← getnum strp 0 59
      return (secs + num, strp)
    | strp => return (secs, strp)
  | strp => return (secs, strp)

/-- `[+-]hh[:mm[:ss]]`. -/
def getoffset (strp : CStr) : Option (ℤ × CStr) :=
  match strp with
  | 45 :: strp => (getsecs strp).map fun (secs, strp) => (-secs, strp)
  | 43 :: strp => getsecs strp
  | c :: strp => if isdigit c then getsecs (c :: strp) else none
  | [] => none

inductive RuleType where
  | none
  | julianDay
  | dayOfYear
  | monthNthDayOfWeek
  deriving DecidableEq

/-- `struct rule`. -/
structure Rule where
  type : RuleType
  day : ℤ
  week : ℤ
  mon : ℤ
  time : ℤ
  deriving DecidableEq

/-- What `memset` leaves. -/
def Rule.clear : Rule := ⟨.none, 0, 0, 0, 0⟩

/-- The optional time of a rule; the default is 2:00:00. -/
def getruleTime (rule : Rule) (strp : CStr) : Option (Rule × CStr) :=
  match strp with
  | 47 :: strp => (getsecs strp).map fun (secs, strp) => ({ rule with time := secs }, strp)
  | strp => some ({ rule with time := 2 * 3600 }, strp)

def getrule (strp : CStr) : Option (Rule × CStr) :=
  match strp with
  | 74 :: strp => do
    let (day, strp) ← getnum strp 1 365
    getruleTime { Rule.clear with type := .julianDay, day } strp
  | 77 :: strp => do
    let (mon, strp) ← getnum strp 1 12
    match strp with
    | 46 :: strp =>
      let (week, strp) ← getnum strp 1 5
      match strp with
      | 46 :: strp =>
        let (day, strp) ← getnum strp 0 6
        getruleTime { Rule.clear with type := .monthNthDayOfWeek, mon, week, day } strp
      | _ => .none
    | _ => .none
  | strp => do
    let (day, strp) ← getnum strp 0 365
    getruleTime { Rule.clear with type := .dayOfYear, day } strp

/-- The static variables that `tzparse` sets. -/
structure TzRules where
  stdoffset : ℤ
  dstoffset : ℤ
  dststart : Rule
  dstend : Rule
  hasdst : Bool
  deriving DecidableEq

/-- The two rules at the end, if any. -/
def getrules (strp : CStr) : Option ((Rule × Rule) × CStr) :=
  match strp with
  | 44 :: strp => do
    let (start, strp) ← getrule strp
    match strp with
    | 44 :: strp =>
      let (stop, strp) ← getrule strp
      return ((start, stop), strp)
    | _ => .none
  | strp => some ((Rule.clear, Rule.clear), strp)

/-- `tzparse`: what a string sets the variables to, `none` where the source returns -1.  What it
    has set by then does not last: `tzset` sets all of them again. -/
def tzparse (name : CStr) : Option TzRules := do
  let (stdname, name) := getzname name
  if stdname.length < 3 ∨ stdname.length ≥ 32 then .none
  else if name = [] then .none
  else
    let (stdoffset, name) ← getoffset name
    if name ≠ [] then
      let (dstname, name) := getzname name
      if dstname.length < 3 ∨ dstname.length ≥ 32 then .none
      else
        let (dstoffset, name) ←
          if name ≠ [] ∧ name.head? ≠ some 44 then getoffset name
          else some (stdoffset - 3600, name)
        let ((dststart, dstend), name) ← getrules name
        if name ≠ [] then .none
        else some { stdoffset, dstoffset, dststart, dstend, hasdst := true }
    else some { stdoffset, dstoffset := 0, dststart := .clear, dstend := .clear, hasdst := false }

/-- The initial values of the variables, and what `tzreset` sets them to. -/
def TzRules.utc : TzRules := ⟨0, 0, .clear, .clear, false⟩

example : tzparse (ascii "UTC0") = some TzRules.utc := by decide

/-- The variables, and `tz_envval`. -/
structure TzState where
  envval : Option CStr
  rules : TzRules

/-- `tzset`, with the value of the variable `TZ`. -/
def tzset (tz : Option CStr) (s : TzState) : TzState :=
  let reset := if s.envval.isSome then ⟨none, .utc⟩ else s
  match tz with
  | some (c :: tz) =>
    if s.envval = some (c :: tz) then s
    else
      match tzparse (c :: tz) with
      | some rules => ⟨some (c :: tz), rules⟩
      | none => ⟨none, .utc⟩
  | _ => reset

/-! ## §4 Daylight saving -/

/-- The loop over the weeks of a month: `n` turns are left. -/
def weekLoop (len : ℤ) : ℕ → ℤ → ℤ
  | 0, d => d
  | n + 1, d => if d + 7 ≥ len then d else weekLoop len n (d + 7)

/-- Adding up days for the years or months of a loop. -/
def addDays (secs : ℤ) (lengths : List ℤ) : ℤ :=
  lengths.foldl (fun secs days => timeT (secs + days * secsPerDay)) secs

def transtime (janfirst year : ℤ) (rule : Rule) (offset : ℤ) : ℤ :=
  let leapyear := isleap year
  let atTime := fun value => timeT (value + rule.time + offset)
  match rule.type with
  | .none => -1
  | .julianDay =>
    let value := timeT (janfirst + (rule.day - 1) * secsPerDay)
    atTime (if leapyear && rule.day ≥ 60 then timeT (value + secsPerDay) else value)
  | .dayOfYear => atTime (timeT (janfirst + rule.day * secsPerDay))
  | .monthNthDayOfWeek =>
    let value := addDays janfirst ((monLengths leapyear).take (rule.mon - 1).toNat)
    let m1 := (rule.mon + 9).tmod 12 + 1
    let yy0 := if rule.mon ≤ 2 then year - 1 else year
    let yy1 := yy0.tdiv 100
    let yy2 := yy0.tmod 100
    let dow := ((26 * m1 - 2).tdiv 10 + 1 + yy2 + yy2.tdiv 4 + yy1.tdiv 4 - 2 * yy1).tmod 7
    let dow := if dow < 0 then dow + 7 else dow
    let d := rule.day - dow
    let d := if d < 0 then d + 7 else d
    let d := weekLoop ((monLengths leapyear).getD (rule.mon - 1).toNat 0) (rule.week - 1).toNat d
    atTime (timeT (value + d * secsPerDay))

/-- The loop of `localtime`: the year of a time, and the time at which the year begins. -/
def findYear (yr tyr tjan : ℤ) : ℤ × ℤ :=
  let yl := yearLengths (isleap yr) * secsPerDay
  if tyr ≥ yl then findYear (yr + 1) (tyr - yl) (tjan + yl) else (yr, tjan)
termination_by tyr.toNat
decreasing_by
  rename_i h
  have := yearLengths_pos (isleap yr)
  simp only [secsPerDay, yl] at h ⊢
  omega

/-- Whether a time is in the part of the year with daylight saving; -1 without rules. -/
def isDst (r : TzRules) (tgmt : ℤ) : ℤ :=
  if r.hasdst then
    if r.dststart.type ≠ .none then
      let (yr, tjan) := findYear 1970 tgmt 0
      let stim := transtime tjan yr r.dststart 0
      let etim := transtime tjan yr r.dstend 0
      if stim < etim then if tgmt ≥ stim ∧ tgmt < etim then 1 else 0
      else if tgmt ≥ etim ∧ tgmt < stim then 0 else 1
    else -1
  else 0

/-- The static variables. -/
structure TimeState where
  tz : TzState
  tm : Tm

/-- `localtime`; the result is the static record. -/
def localtime (tz : Option CStr) (s : TimeState) (tp : ℤ) : TimeState :=
  let tzs := tzset tz s.tz
  let dst := isDst tzs.rules tp
  let tm := offtime tp (if dst = 1 then tzs.rules.dstoffset else tzs.rules.stdoffset)
  { tz := tzs, tm := { tm with isdst := dst, zone := none } }

/-! ## §5 Putting together -/

/-- The test at the beginning of `gmmktime` and of `mktime`. -/
def tmRejected (tm : Tm) : Bool :=
  tm.sec > 61 || tm.min > 59 || tm.hour > 23 || tm.mday > 31 || tm.mon > 12 || tm.year < 70

/-- The sum that both routines make. -/
def tmSecs (tm : Tm) : ℤ :=
  let secs := timeT tm.sec
  let secs := timeT (secs + tm.min * 60)
  let secs := timeT (secs + tm.hour * 3600)
  let secs := timeT (secs + (tm.mday - 1) * secsPerDay)
  let secs := addDays secs ((monLengths (isleap (tm.year + 1900))).take tm.mon.toNat)
  addDays secs ((List.range (tm.year + 1900 - 1970).toNat).map fun (i : ℕ) =>
    yearLengths (isleap (1970 + i)))

def gmmktime (tm : Tm) : ℤ := if tmRejected tm then -1 else tmSecs tm

/-- The argument of `mktime`: a record of the caller, or the static one. -/
inductive TmRef where
  | own (tm : Tm)
  | static

def TmRef.deref (s : TimeState) : TmRef → Tm
  | .own tm => tm
  | .static => s.tm

/-- Storing through the argument. -/
def TmRef.assign (tm : Tm) (s : TimeState) : TmRef → TimeState × TmRef
  | .own _ => (s, .own tm)
  | .static => ({ s with tm }, .static)

/-- `mktime`: the time, the static variables and the argument. -/
def mktime (tz : Option CStr) (s : TimeState) (tm : TmRef) : ℤ × TimeState × TmRef :=
  if tmRejected (tm.deref s) then (-1, s, tm)
  else
    let secs := tmSecs (tm.deref s)
    let (secs, s, tm) :=
      if (tm.deref s).isdst = 0 then
        let secs := timeT (secs - s.tz.rules.stdoffset)
        (secs, localtime tz s secs, tm)
      else if (tm.deref s).isdst > 0 then
        let (s, tm) := tm.assign { tm.deref s with isdst := 1 } s
        let secs := timeT (secs - s.tz.rules.dstoffset)
        (secs, localtime tz s secs, tm)
      else
        let secs := timeT (secs - s.tz.rules.stdoffset)
        let s := localtime tz s secs
        let ntm := s.tm
        if ntm.mday ≠ (tm.deref s).mday ∨ ntm.hour ≠ (tm.deref s).hour ∨
            ntm.min ≠ (tm.deref s).min ∨ ntm.sec ≠ (tm.deref s).sec then
          (timeT (timeT (secs + s.tz.rules.stdoffset) - s.tz.rules.dstoffset), s, tm)
        else (secs, s, tm)
    let ntm := s.tm
    let old := tm.deref s
    if ntm.year ≠ old.year ∨ ntm.mon ≠ old.mon ∨ ntm.mday ≠ old.mday ∨ ntm.hour ≠ old.hour ∨
        ntm.min ≠ old.min ∨ ntm.sec ≠ old.sec ∨ (old.isdst ≥ 0 ∧ ntm.isdst ≠ old.isdst) then
      (-1, s, tm)
    else
      let (s, tm) := tm.assign ntm s
      (secs, s, tm)

end Pmon.Cmds
