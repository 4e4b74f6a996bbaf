import Pmon.Smbios.Tables

/-!
# The strings of the tables

A string set ends at its first empty string, so every string should have a byte and none of its
bytes should be NUL.  All strings but two are so for any input.

## Key results

- `releaseDate_ne_nil`: when the release date has a byte.
- `moduleStrs_entries`: the strings of a memory module are never empty.
-/

namespace Pmon.Smbios

open Pmon.Lib Pmon.Libc Pmon.Loaders Pmon.Netio

variable {inp : SmbiosInput} {e bs : List UInt8}

/-! ## §1 Strings in general -/

theorem isEntry_append (he : IsEntry e) (hbs : (0 : UInt8) ∉ bs) : IsEntry (e ++ bs) := by
  refine ⟨List.append_ne_nil_of_left_ne_nil he.ne_nil _, ?_⟩
  rw [List.mem_append]
  exact not_or.mpr ⟨he.not_mem, hbs⟩

theorem stringOf_not_mem (buf : List UInt8) : (0 : UInt8) ∉ stringOf buf := by
  intro h
  simpa using List.mem_takeWhile_imp h

theorem stringOf_cons (b : UInt8) (bs : List UInt8) : stringOf (b :: bs) ≠ [] ↔ b ≠ 0 := by
  unfold stringOf
  by_cases hb : b = 0
  · simp [hb]
  · simp [hb]

theorem board_entries (board : Ls2kBoard) :
    IsEntry board.name ∧ IsEntry (praseName board.name) := by
  cases board with
  | pi2 => exact ⟨⟨by decide, by decide⟩, ⟨by decide, by decide⟩⟩
  | edu => exact ⟨⟨by decide, by decide⟩, ⟨by decide, by decide⟩⟩
  | demo => exact ⟨⟨by decide, by decide⟩, ⟨by decide, by decide⟩⟩

theorem loongson_entry : IsEntry (ascii "Loongson") := ⟨by decide, by decide⟩

/-! ## §2 The build date -/

theorem length_strncpyBytes (n : ℕ) (src : ℕ → UInt8) : (strncpyBytes n src).length = n := by
  induction n generalizing src with
  | zero => rfl
  | succ n ih =>
    rw [strncpyBytes]
    split
    · exact List.length_replicate
    · rw [List.length_cons, ih]

theorem strncpyBytes_cons (n : ℕ) (src : ℕ → UInt8) :
    ∃ rest, strncpyBytes (n + 1) src = src 0 :: rest := by
  rw [strncpyBytes]
  split
  · rename_i h
    exact ⟨_, by rw [h, List.replicate_succ]⟩
  · exact ⟨_, rfl⟩

theorem tranMonth_digit {c : ℕ → UInt8} {month : CStr} (h : tranMonth c = some month) :
    ∃ a b, month = [a, b] ∧ a ≠ 0 := by
  unfold tranMonth at h
  split at h
  all_goals cases h
  all_goals try split_ifs
  all_goals exact ⟨_, _, rfl, by decide⟩

theorem pmonVersion_entry (update : List UInt8) : IsEntry (pmonVersion update) :=
  isEntry_append ⟨by decide, by decide⟩ (stringOf_not_mem _)

/-- **The release date** begins with the month, which may be what the array held before. -/
theorem releaseDate_ne_nil (date p : ℕ → UInt8) :
    releaseDate (getUpdate date p) ≠ [] ↔ (tranMonth fun k => date (6 + k)).isSome ∨ p 5 ≠ 0 := by
  -- the first byte of the month
  have hmonth : ∃ a b, (tranMonth fun k => date (6 + k)).getD [p 5, p 6] = [a, b] ∧
      (a ≠ 0 ↔ (tranMonth fun k => date (6 + k)).isSome ∨ p 5 ≠ 0) := by
    cases htran : tranMonth fun k => date (6 + k) with
    | none => exact ⟨p 5, p 6, rfl, by simp⟩
    | some month =>
      obtain ⟨a, b, rfl, ha⟩ := tranMonth_digit htran
      exact ⟨a, b, rfl, by simp [ha]⟩
  obtain ⟨a, b, hget, ha⟩ := hmonth
  have hlen := length_strncpyBytes 4 fun k => date (26 + k)
  have hfive : (getUpdate date p).getD (5 + 0) 0 = a := by
    unfold getUpdate
    rw [hget]
    generalize strncpyBytes 4 (fun k => date (26 + k)) = year at hlen
    obtain ⟨y₀, y₁, y₂, y₃, rfl⟩ := List.length_eq_four.mp hlen
    rfl
  obtain ⟨rest, hrest⟩ := strncpyBytes_cons 4 fun k => (getUpdate date p).getD (5 + k) 0
  rw [← ha, ← hfive]
  unfold releaseDate
  rw [hrest, List.set_cons_succ, List.cons_append, List.cons_append, stringOf_cons]

/-- The strings of the BIOS are short. -/
theorem biosStrs_length (update : List UInt8) :
    (pmonVersion update).length ≤ 27 ∧ (releaseDate update).length ≤ 10 := by
  have hprefix : (ascii "Loongson-PMON-V3.3-").length = 19 := by decide
  have hdate : ∀ buf : List UInt8, (stringOf buf).length ≤ buf.length :=
    fun buf => (List.takeWhile_prefix _).length_le
  constructor
  · unfold pmonVersion
    have hlen : (dateDigits update).length = 8 := by simp [dateDigits, length_strncpyBytes]
    have hstring := hdate (dateDigits update)
    rw [List.length_append]
    omega
  · unfold releaseDate
    refine Nat.le_trans (hdate _) ?_
    simp [length_strncpyBytes]

/-! ## §3 The memory modules -/

theorem dimmnum_le (slots : DimmSlots) : slots.dimmnum ≤ 8 := by
  cases slots <;> decide

theorem manustr_entry (spd : ℕ → UInt8) (ddrtype : UInt8) :
    IsEntry (getDdrManustr spd ddrtype) := by
  unfold getDdrManustr
  dsimp only
  split_ifs
  all_goals exact ⟨by decide, by decide⟩

theorem snstr_entry (spd : ℕ → UInt8) (ddrtype : UInt8) : IsEntry (getDdrSnstr spd ddrtype) := by
  have hdigit : ∀ d < 16, digitX d ≠ 0 := by decide
  unfold getDdrSnstr
  dsimp only
  refine ⟨List.cons_ne_nil _ _, fun h => ?_⟩
  obtain ⟨i, -, hi⟩ := List.mem_flatMap.mp h
  have hlt := (spd (i + if ddrtype = 8 then 95 else 122)).toNat_lt
  rcases List.mem_cons.mp hi with hi | hi
  · exact hdigit _ (by omega) hi.symm
  · exact hdigit _ (Nat.mod_lt _ (by decide)) (List.mem_singleton.mp hi).symm

theorem pnstr_entry (spd : ℕ → UInt8) (ddrtype : UInt8) : IsEntry (getDdrPnstr spd ddrtype) := by
  unfold getDdrPnstr
  dsimp only
  generalize (if ddrtype = 8 then 73 else 128) = offset
  by_cases hhead : ((List.range 18).map fun i => spd (i + offset)).headD 0 = 0
  · rw [if_pos hhead]
    exact ⟨by decide, by decide⟩
  · rw [if_neg hhead]
    exact ⟨(stringOf_cons _ _).mpr hhead, stringOf_not_mem _⟩

theorem dimmString_entry {slotnum : ℕ} (h : slotnum < 8) : IsEntry (dimmString slotnum) := by
  unfold dimmString
  rw [if_pos h]
  refine isEntry_append ⟨by decide, by decide⟩ fun hzero => ?_
  have hdigit := isNumeral_numeral (by decide) (by decide) slotnum 0 hzero
  exact absurd hdigit (by decide)

/-- The strings of a memory module. -/
def moduleStrs (inp : SmbiosInput) (slotnum : ℕ) : List CStr :=
  let spd := inp.spd slotnum
  [dimmString slotnum, ascii "BANK 0"] ++ if knownDdr (spd 2) then
    [getDdrManustr spd (spd 2), getDdrSnstr spd (spd 2), getDdrPnstr spd (spd 2)] else []

/-- **The strings of a memory module** are never empty. -/
theorem moduleStrs_entries (inp : SmbiosInput) {slotnum : ℕ} (h : slotnum < 8) :
    ∀ e ∈ moduleStrs inp slotnum, IsEntry e := by
  unfold moduleStrs
  dsimp only
  rw [List.forall_mem_append]
  constructor
  · rw [List.forall_mem_cons, List.forall_mem_singleton]
    exact ⟨dimmString_entry h, ⟨by decide, by decide⟩⟩
  · split
    · rw [List.forall_mem_cons, List.forall_mem_cons, List.forall_mem_singleton]
      exact ⟨manustr_entry _ _, snstr_entry _ _, pnstr_entry _ _⟩
    · exact fun e he => absurd he List.not_mem_nil

/-- The strings of a memory module are short. -/
theorem moduleStrs_length (inp : SmbiosInput) {slotnum : ℕ} (h : slotnum < 8) :
    (packed (moduleStrs inp slotnum)).length ≤ 63 := by
  have hdimm : ∀ i < 8, (dimmString i).length = 6 := by decide
  have hmanustr : ∀ spd ddrtype, (getDdrManustr spd ddrtype).length ≤ 17 := by
    intro spd ddrtype
    unfold getDdrManustr
    dsimp only
    split_ifs
    all_goals decide
  have hsnstr : ∀ spd ddrtype, (getDdrSnstr spd ddrtype).length = 8 := fun _ _ => rfl
  have hpnstr : ∀ spd ddrtype, (getDdrPnstr spd ddrtype).length ≤ 18 := by
    intro spd ddrtype
    unfold getDdrPnstr
    dsimp only
    generalize (if ddrtype = 8 then 73 else 128) = offset
    by_cases hhead : ((List.range 18).map fun i => spd (i + offset)).headD 0 = 0
    · rw [if_pos hhead]
      decide
    · rw [if_neg hhead]
      exact (List.takeWhile_prefix _).length_le
  have hbank : (ascii "BANK 0").length = 6 := by decide
  have hslot := hdimm slotnum h
  have hmanu := hmanustr (inp.spd slotnum) (inp.spd slotnum 2)
  have hsn := hsnstr (inp.spd slotnum) (inp.spd slotnum 2)
  have hpn := hpnstr (inp.spd slotnum) (inp.spd slotnum 2)
  unfold moduleStrs
  dsimp only
  split
  · simp [packed]
    omega
  · simp [packed]
    omega

/-! ## §4 The processor -/

theorem cpuVersion_not_mem (inp : SmbiosInput) : (0 : UInt8) ∉ (cpuVersionOf inp).1 := by
  unfold cpuVersionOf
  split_ifs
  all_goals first | exact inp.cpuVersion_string | (dsimp only; decide)

/-- The processors that have a version. -/
def KnownPrid (prid : BitVec 32) : Prop :=
  prid ∈ [0x6302#32, 0x6304#32, 0x6305#32, 0x6306#32, 0x6307#32]

theorem cpuVersion_length (h : KnownPrid inp.prid) : (cpuVersionOf inp).1.length ≤ 38 := by
  unfold KnownPrid at h
  unfold cpuVersionOf
  split_ifs
  all_goals first | (dsimp only; decide) | simp_all

/-- **The version of the processor** is what the array held before, if the processor is none of
    those that are known. -/
theorem cpuVersion_ne_nil (inp : SmbiosInput) :
    (cpuVersionOf inp).1 ≠ [] ↔ KnownPrid inp.prid ∨ inp.cpuVersion ≠ [] := by
  have hnonempty : ∀ s ∈ [ascii "Loongson ICT Loongson-2F CPU @ 800MHz",
      ascii "Loongson ICT Loongson-3A5 CPU @ 1.0GHz", ascii "Loongson ICT Loongson-3A CPU @ 1.0GHz",
      ascii "Loongson ICT Loongson-3B CPU @ 1.0GHz", ascii "Loongson ICT Loongson-3B CPU @ 1.5GHz",
      ascii "Loongson ICT Loongson-2K CPU @ 1.0GHz"], s ≠ [] := by decide
  unfold cpuVersionOf KnownPrid
  split_ifs
  all_goals simp_all

end Pmon.Smbios
