import Mathlib.Data.BitVec
import Mathlib.Data.Fin.VecNotation
import Pmon.Cmds.TimeRound

/-!
# The time of day: `tgt_settime` and `tgt_gettime`

The firmware is built for one of two clocks.  The registers of the external DS1338 hold the fields
of a date as two decimal digits each, with two digits for the year; those of the chip's own clock
hold the year in one word and the other fields packed in another.

The chip's own clock is left alone when it was found not to run while booting; a DS1338 that does
not answer is not written either.  Then the time is always the same date in the year 2000.

## Key results

- `ofBcd_toBcd`: two digits are read back, up to 159.
- `unpack_pack`: the fields of the word are read back.
- `tgtGettime_tgtSettime`: the time that was set is read back from a clock that runs.
-/

namespace Pmon.Cmds

open Pmon.Lib

/-! ## §1 The two clocks -/

/-- The clock that the firmware is built for: `EXTERNAL_RTC` or `INTERNAL_RTC`. -/
inductive RtcOption where
  | external
  | internal

/-- The registers 0 to 6 of the DS1338, if it answers, and those of the chip's own clock. -/
structure TodState where
  ds1338 : Option (Fin 7 → BitVec 8)
  toy0 : BitVec 32
  toy1 : BitVec 32
  clkInvalid : Bool

/-- A byte as `rtc_set_time` changes it. -/
def toBcd (b : BitVec 8) : BitVec 8 := b % 10#8 + (b / 10#8) <<< 4

/-- A byte as `rtc_get_time` changes it. -/
def ofBcd (b : BitVec 8) : BitVec 8 := (b &&& 0xf#8) + (b >>> 4) * 10#8

/-- All registers but that of the weekday are changed. -/
def rtcBytes (f : BitVec 8 → BitVec 8) (buf : Fin 7 → BitVec 8) : Fin 7 → BitVec 8 :=
  ![f (buf 0), f (buf 1), f (buf 2), buf 3, f (buf 4), f (buf 5), f (buf 6)]

/-- `rtc_get_time`, with what it leaves in the buffer. -/
def rtcGetTime (s : TodState) : Option (Fin 7 → BitVec 8) := s.ds1338.map (rtcBytes ofBcd)

def rtcSetTime (s : TodState) (buf : Fin 7 → BitVec 8) : TodState :=
  { s with ds1338 := s.ds1338.map fun _ => rtcBytes toBcd buf }

/-- `if (tm.tm_year < 50) tm.tm_year += 100`. -/
def fullYear (year : ℤ) : ℤ := if year < 50 then year + 100 else year

/-- `tgt_gettime`; the local record holds `tm` before. -/
def tgtGettime (rtc : RtcOption) (s : TodState) (tm : Tm) : ℤ :=
  match rtc with
  | .external =>
    match rtcGetTime s with
    | some buf =>
      gmmktime { tm with
        sec := (buf 0).toNat, min := (buf 1).toNat, hour := (buf 2).toNat, mday := (buf 4).toNat
        mon := (buf 5).toNat - 1, year := fullYear (buf 6).toNat, isdst := 0, gmtoff := 0 }
    | none => 957960000
  | .internal =>
    if s.clkInvalid then 957960000
    else
      let val := s.toy0
      gmmktime { tm with
        sec := ((val >>> 4) &&& 0x3f#32).toNat, min := ((val >>> 10) &&& 0x3f#32).toNat
        hour := ((val >>> 16) &&& 0x1f#32).toNat, mday := ((val >>> 21) &&& 0x1f#32).toNat
        mon := ((val >>> 26) &&& 0x3f#32).toNat - 1, year := fullYear s.toy1.toInt, isdst := 0
        gmtoff := 0 }

/-- `tgt_settime`. -/
def tgtSettime (rtc : RtcOption) (s : TodState) (t : ℤ) : TodState :=
  let tm := gmtime t
  match rtc with
  | .external =>
    let year := if tm.year > 100 then tm.year - 100 else tm.year
    rtcSetTime s ![BitVec.ofInt 8 tm.sec, BitVec.ofInt 8 tm.min, BitVec.ofInt 8 tm.hour, 0#8,
      BitVec.ofInt 8 tm.mday, BitVec.ofInt 8 (tm.mon + 1), BitVec.ofInt 8 year]
  | .internal =>
    if s.clkInvalid then s
    else
      { s with
        toy0 := BitVec.ofInt 32 (tm.mon + 1) <<< 26 ||| BitVec.ofInt 32 tm.mday <<< 21 |||
          BitVec.ofInt 32 tm.hour <<< 16 ||| BitVec.ofInt 32 tm.min <<< 10 |||
          BitVec.ofInt 32 tm.sec <<< 4
        toy1 := BitVec.ofInt 32 tm.year }

/-- Whether there is a clock that keeps what is written. -/
def TodState.runs (s : TodState) : RtcOption → Bool
  | .external => s.ds1338.isSome
  | .internal => !s.clkInvalid

/-! ## §2 The registers -/

/-- **Two digits**: the byte of the century, 100, has ten tens. -/
theorem ofBcd_toBcd : ∀ n : Fin 160, ofBcd (toBcd (BitVec.ofNat 8 n)) = BitVec.ofNat 8 n := by
  decide +kernel

/-- A field that goes through a register of the DS1338. -/
theorem toNat_bcdField {x : ℤ} (h₀ : 0 ≤ x) (h₁ : x < 160) :
    ((ofBcd (toBcd (BitVec.ofInt 8 x))).toNat : ℤ) = x := by
  obtain ⟨n, rfl⟩ := Int.eq_ofNat_of_zero_le h₀
  have hn : n < 160 := Int.ofNat_lt.mp h₁
  rw [BitVec.ofInt_natCast, ofBcd_toBcd ⟨n, hn⟩, BitVec.toNat_ofNat,
    Nat.mod_eq_of_lt (Nat.lt_trans hn (by decide))]

/-- The two bounds on the year: the century is not written, and it is found again. -/
theorem fullYear_bcd {y : ℤ} (h₀ : 70 ≤ y) (h₁ : y < 150) :
    fullYear ((ofBcd (toBcd (BitVec.ofInt 8 (if y > 100 then y - 100 else y)))).toNat : ℤ) = y := by
  by_cases hcentury : y > 100
  · rw [if_pos hcentury, toNat_bcdField (by omega) (by omega)]
    unfold fullYear
    rw [if_pos (by omega)]
    omega
  · rw [if_neg hcentury, toNat_bcdField (by omega) (by omega)]
    unfold fullYear
    rw [if_neg (by omega)]

/-- A field of a word. -/
theorem toNat_shift_and {x mask : BitVec 32} {lsb width : ℕ} (hmask : mask.toNat = 2 ^ width - 1) :
    ((x >>> lsb) &&& mask).toNat = x.toNat / 2 ^ lsb % 2 ^ width := by
  rw [BitVec.toNat_and, BitVec.toNat_ushiftRight, hmask, Nat.and_two_pow_sub_one_eq_mod,
    Nat.shiftRight_eq_div_pow]

theorem toNat_shifted (n lsb : ℕ) (h : n * 2 ^ lsb < 2 ^ 32) :
    (BitVec.ofInt 32 (n : ℤ) <<< lsb).toNat = n * 2 ^ lsb := by
  have hpos := Nat.two_pow_pos lsb
  have hn : n < 2 ^ 32 := Nat.lt_of_le_of_lt (Nat.le_mul_of_pos_right n hpos) h
  rw [BitVec.ofInt_natCast, BitVec.toNat_shiftLeft, BitVec.toNat_ofNat, Nat.mod_eq_of_lt hn,
    Nat.shiftLeft_eq, Nat.mod_eq_of_lt h]

/-- **The next field** of a word goes below the fields that are there. -/
theorem toNat_or_field {x : BitVec 32} {n : ℕ} (m lsb width : ℕ)
    (hx : x.toNat = n * 2 ^ (lsb + width)) (hm : m < 2 ^ width) (hfit : m * 2 ^ lsb < 2 ^ 32) :
    (x ||| BitVec.ofInt 32 (m : ℤ) <<< lsb).toNat = (n * 2 ^ width + m) * 2 ^ lsb := by
  have hlow : m * 2 ^ lsb < 2 ^ (lsb + width) := by
    rw [Nat.pow_add, Nat.mul_comm]
    exact Nat.mul_lt_mul_of_pos_left hm (Nat.two_pow_pos lsb)
  rw [BitVec.toNat_or, hx, toNat_shifted m lsb hfit, Nat.mul_comm n,
    ← Nat.two_pow_add_eq_or_of_lt hlow, Nat.pow_add]
  ring

/-- **The fields of the word** are read back. -/
theorem unpack_pack {mon mday hour min sec : ℕ} (hmon : mon < 64) (hmday : mday < 32)
    (hhour : hour < 32) (hmin : min < 64) (hsec : sec < 64) {val : BitVec 32}
    (hval : val = BitVec.ofInt 32 (mon : ℤ) <<< 26 ||| BitVec.ofInt 32 (mday : ℤ) <<< 21 |||
      BitVec.ofInt 32 (hour : ℤ) <<< 16 ||| BitVec.ofInt 32 (min : ℤ) <<< 10 |||
      BitVec.ofInt 32 (sec : ℤ) <<< 4) :
    ((val >>> 4) &&& 0x3f#32).toNat = sec ∧ ((val >>> 10) &&& 0x3f#32).toNat = min ∧
      ((val >>> 16) &&& 0x1f#32).toNat = hour ∧ ((val >>> 21) &&& 0x1f#32).toNat = mday ∧
      ((val >>> 26) &&& 0x3f#32).toNat = mon := by
  have h₁ := toNat_shifted mon 26 (by omega)
  have h₂ := toNat_or_field mday 21 5 h₁ hmday (by omega)
  have h₃ := toNat_or_field hour 16 5 h₂ hhour (by omega)
  have h₄ := toNat_or_field min 10 6 h₃ hmin (by omega)
  have h₅ := toNat_or_field sec 4 6 h₄ hsec (by omega)
  rw [← hval] at h₅
  have hsix : (0x3f#32).toNat = 2 ^ 6 - 1 := rfl
  have hfive : (0x1f#32).toNat = 2 ^ 5 - 1 := rfl
  rw [toNat_shift_and hsix, toNat_shift_and hsix, toNat_shift_and hfive, toNat_shift_and hfive,
    toNat_shift_and hsix, h₅]
  omega

/-! ## §3 There and back -/

/-- The years of a `time_t` end with 2038. -/
theorem BrokenDown.year_le {L : ℤ} {tm : Tm} (h : BrokenDown L tm) (hL : L < 2147483648) :
    tm.year ≤ 138 := by
  obtain ⟨i, hplaced⟩ := placed_dateOf (L / 86400).toNat
  have hdays : (L / 86400).toNat < 25202 := by omega
  have hstart : spanStart yearLen 69 = 25202 := by decide +kernel
  have hi : i < 69 := by
    apply Nat.lt_of_not_le
    intro hle
    have hmono := spanStart_mono (ℓ := yearLen) hle
    have heq := hplaced.in_year.eq
    omega
  rw [h.year, hplaced.year]
  omega

/-- `gmmktime` on a record that says what `gmtime` said, but for the fields that `tgt_gettime`
    does not set. -/
theorem gmmktime_gmtime {t : ℤ} (h₀ : 0 ≤ t) (h₁ : t < 2147483648) {tm : Tm}
    (hsec : tm.sec = (gmtime t).sec) (hmin : tm.min = (gmtime t).min)
    (hhour : tm.hour = (gmtime t).hour) (hmday : tm.mday = (gmtime t).mday)
    (hmon : tm.mon = (gmtime t).mon) (hyear : tm.year = (gmtime t).year) : gmmktime tm = t := by
  have hback := (gmtime_brokenDown h₀).gmmktime_eq h₀ h₁
  unfold gmmktime tmRejected tmSecs at hback ⊢
  rw [hsec, hmin, hhour, hmday, hmon, hyear]
  exact hback

/-- **What was set is read back** from a clock that runs; from any other, the date that stands in
    the source. -/
theorem tgtGettime_tgtSettime (rtc : RtcOption) (s : TodState) (tm : Tm) (t : ℤ) (h₀ : 0 ≤ t)
    (h₁ : t < 2147483648) :
    tgtGettime rtc (tgtSettime rtc s t) tm = if s.runs rtc then t else 957960000 := by
  have hdown := gmtime_brokenDown h₀
  have hrange := hdown.inRange
  have hyear := hdown.year_le h₁
  have hmday := hrange.mday_le
  obtain ⟨⟨hs₀, hs₁⟩, ⟨hm₀, hm₁⟩, ⟨hh₀, hh₁⟩, ⟨hn₀, hn₁⟩, ⟨hd₀, -⟩, hy₀, -, -⟩ := hrange
  cases rtc with
  | external =>
    cases hchip : s.ds1338 with
    | none => simp [tgtGettime, tgtSettime, rtcGetTime, rtcSetTime, TodState.runs, hchip]
    | some regs =>
      simp only [tgtGettime, tgtSettime, rtcGetTime, rtcSetTime, TodState.runs, hchip,
        Option.map_some, Option.isSome_some, if_true]
      apply gmmktime_gmtime h₀ h₁
      · exact toNat_bcdField hs₀ (by omega)
      · exact toNat_bcdField hm₀ (by omega)
      · exact toNat_bcdField hh₀ (by omega)
      · exact toNat_bcdField (by omega) (by omega)
      · have hmon := toNat_bcdField (x := (gmtime t).mon + 1) (by omega) (by omega)
        exact Int.sub_eq_iff_eq_add.mpr hmon
      · exact fullYear_bcd hy₀ (by omega)
  | internal =>
    cases hinvalid : s.clkInvalid with
    | true => simp [tgtGettime, tgtSettime, TodState.runs, hinvalid]
    | false =>
      obtain ⟨mon, hmon⟩ := Int.eq_ofNat_of_zero_le (show 0 ≤ (gmtime t).mon + 1 by omega)
      obtain ⟨mday, hmday'⟩ := Int.eq_ofNat_of_zero_le (show 0 ≤ (gmtime t).mday by omega)
      obtain ⟨hour, hhour⟩ := Int.eq_ofNat_of_zero_le hh₀
      obtain ⟨min, hmin⟩ := Int.eq_ofNat_of_zero_le hm₀
      obtain ⟨sec, hsec⟩ := Int.eq_ofNat_of_zero_le hs₀
      obtain ⟨hsec', hmin', hhour', hmday'', hmon'⟩ := @unpack_pack mon mday hour min sec
        (by omega) (by omega) (by omega) (by omega) (by omega) _ rfl
      have hword : (BitVec.ofInt 32 (gmtime t).year).toInt = (gmtime t).year := by
        rw [BitVec.toInt_ofInt]
        exact Int.bmod_eq_of_le (by omega) (by omega)
      have hfull : fullYear (gmtime t).year = (gmtime t).year := if_neg (by omega)
      simp only [tgtGettime, tgtSettime, TodState.runs, hinvalid, Bool.false_eq_true, if_false,
        Bool.not_false, if_true, hmon, hmday', hhour, hmin, hsec, hsec', hmin', hhour', hmday'',
        hmon', hword, hfull]
      apply gmmktime_gmtime h₀ h₁
      · exact hsec.symm
      · exact hmin.symm
      · exact hhour.symm
      · exact hmday'.symm
      · exact Int.sub_eq_iff_eq_add.mpr hmon.symm
      · rfl

/-- The turn of the century, in the registers of the DS1338. -/
theorem tgtGettime_tgtSettime_century :
    ((0 : ℤ) ≤ 978307199 ∧ (978307199 : ℤ) < 2147483648) ∧
      tgtGettime .external (tgtSettime .external ⟨some fun _ => 0#8, 0#32, 0#32, false⟩ 978307199)
        TimeState.initial.tm = 978307199 :=
  ⟨by decide, tgtGettime_tgtSettime .external ⟨some fun _ => 0#8, 0#32, 0#32, false⟩
    TimeState.initial.tm 978307199 (by decide) (by decide)⟩

/-- **A clock that was found not to run** keeps no time. -/
theorem tgtGettime_invalid :
    tgtGettime .internal (tgtSettime .internal ⟨none, 0#32, 0#32, true⟩ 0)
      TimeState.initial.tm ≠ 0 := by
  have hfixed : tgtGettime .internal (tgtSettime .internal ⟨none, 0#32, 0#32, true⟩ 0)
      TimeState.initial.tm = 957960000 := rfl
  rw [hfixed]
  decide

end Pmon.Cmds
