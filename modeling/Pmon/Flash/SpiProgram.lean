import Pmon.Flash.SpiDriver

/-!
# Programming the SPI flash in two ways

The byte path of `spi_program` programs each byte at its place.  The fast path programs two bytes at
a time and rounds the length up, so that an odd number of bytes is followed by one that was not
asked for.

## Key results

- `spiProgram_exact`: when the two paths program what is asked for.
-/

namespace Pmon.Flash

variable {c : SpiChip} {offset n : ℕ} {base : ℕ → UInt8}

/-! ## §1 The whole call -/

/-- What a call programs on a chip that has just been selected. -/
def programmedBy (c : SpiChip) (ops : List SpiOp) : List (ℕ × UInt8) :=
  ({ c with aai := none, programmed := [] }.run ops).programmed

/-- **A call programs what its writing programs**, protection apart. -/
theorem programmed_spiProgram (fast : Bool) : programmedBy c (spiProgram base offset n fast) =
    spiTarget offset base (if fast then aaiCount n else n) := by
  have hstart : ({ c with aai := none, programmed := [] } : SpiChip).aai = none := rfl
  obtain ⟨hopen, hnone⟩ := run_disableWriteProtection hstart
  rw [programmedBy, spiProgram, run_append, run_append, run_append, run_append, run_append]
  change ((SpiChip.run _ enableWriteProtection).run (spiRead offset n)).programmed = _
  have hread : ∀ c : SpiChip, c.run (spiRead offset n) = c := fun _ => rfl
  rw [hread, run_enableWriteProtection.1]
  cases fast with
  | true => exact run_spiAaiWrite hopen hnone
  | false =>
    have hbytes : _ = spiTarget offset base (0 + n) := run_spiWriteLoop n 0 hopen hnone
    rw [Nat.zero_add] at hbytes
    exact hbytes

/-! ## §2 Pairs -/

theorem mem_spiTarget {p : ℕ × UInt8} :
    p ∈ spiTarget offset base n ↔ ∃ i < n, p = ((offset + i) % 16777216, base i) := by
  simp only [spiTarget, List.mem_map, List.mem_range, eq_comm]

theorem aaiCount_even (h : n % 2 = 0) (hpos : 0 < n) : aaiCount n = n := by
  rw [aaiCount, aaiBound, if_neg (by omega)]
  omega

theorem aaiCount_odd (h : n % 2 = 1) (hn : n < 4294967295) : aaiCount n = n + 1 := by
  rw [aaiCount, aaiBound, if_pos h, Nat.mod_eq_of_lt (by omega)]
  omega

/-- The pairs of a call are `base[i]` at `offset + i` for the places below `n`, and no other. -/
def ProgramsExactly (c : SpiChip) (base : ℕ → UInt8) (offset n : ℕ) (fast : Bool) : Prop :=
  ∀ p, p ∈ programmedBy c (spiProgram base offset n fast) ↔ p ∈ spiTarget offset base n

/-- A byte more does not matter where the addresses have gone round and the byte is there. -/
def Repeats (base : ℕ → UInt8) (offset n : ℕ) : Prop :=
  ∃ i < n, (offset + i) % 16777216 = (offset + n) % 16777216 ∧ base i = base n

/-- **The two paths**: they program the same bytes at the same addresses exactly if the length is
    even, or the chip is gone round and the byte behind the buffer is one that is repeated. -/
theorem spiProgram_exact (c : SpiChip) (base : ℕ → UInt8) (offset n : ℕ) (hpos : 0 < n)
    (hn : n < 4294967296) :
    ProgramsExactly c base offset n true ∧ ProgramsExactly c base offset n false ↔
      n % 2 = 0 ∨ n ≠ 4294967295 ∧ Repeats base offset n := by
  have hslow : ProgramsExactly c base offset n false := fun p => by
    rw [programmed_spiProgram]
    rfl
  rw [and_iff_left hslow, ProgramsExactly]
  simp only [programmed_spiProgram, if_true]
  rcases Nat.mod_two_eq_zero_or_one n with heven | hodd
  · rw [aaiCount_even heven hpos]
    exact iff_of_true (fun _ => Iff.rfl) (Or.inl heven)
  · rw [or_iff_right (by omega)]
    by_cases hlast : n = 4294967295
    · -- The bound has wrapped to zero: two bytes are programmed.
      subst hlast
      refine iff_of_false (fun hall => ?_) fun h => h.1 rfl
      have hthird := (hall ((offset + 2) % 16777216, base 2)).mpr
        (mem_spiTarget.mpr ⟨2, by omega, rfl⟩)
      obtain ⟨i, hi, heq⟩ := mem_spiTarget.mp hthird
      have haddr := (Prod.mk.inj heq).1
      have hcount : aaiCount 4294967295 = 2 := rfl
      omega
    · rw [aaiCount_odd hodd (by omega), and_iff_right hlast]
      constructor
      · intro hall
        obtain ⟨i, hi, heq⟩ := mem_spiTarget.mp
          ((hall ((offset + n) % 16777216, base n)).mp
            (mem_spiTarget.mpr ⟨n, Nat.lt_succ_self n, rfl⟩))
        exact ⟨i, hi, (Prod.mk.inj heq).1.symm, (Prod.mk.inj heq).2.symm⟩
      · rintro ⟨i, hi, haddr, hbyte⟩ p
        rw [spiTarget_succ, List.mem_append, List.mem_singleton]
        refine or_iff_left_of_imp ?_
        rintro rfl
        exact mem_spiTarget.mpr ⟨i, hi, by rw [haddr, hbyte]⟩

def idleChip : SpiChip := ⟨false, false, 0x1c, none, []⟩

theorem spiProgram_exact_four : ProgramsExactly idleChip (fun i => UInt8.ofNat i) 5 4 true ∧
    ProgramsExactly idleChip (fun i => UInt8.ofNat i) 5 4 false :=
  (spiProgram_exact idleChip (fun i => UInt8.ofNat i) 5 4 (by decide) (by decide)).mpr
    (Or.inl rfl)

/-- A byte is programmed and the one behind it is programmed too. -/
theorem flProgramSpi_two : programmedBy idleChip (flProgramSpi 0 fun _ => 0) = [(0, 0), (1, 0)] ∧
    ¬ ProgramsExactly idleChip (fun _ => 0) 0 1 true := by
  have htwo : programmedBy idleChip (flProgramSpi 0 fun _ => 0) = [(0, 0), (1, 0)] := by decide
  refine ⟨htwo, fun hall => ?_⟩
  have hin := (hall (1, 0)).mp (by
    change _ ∈ programmedBy idleChip (flProgramSpi 0 fun _ => 0)
    rw [htwo]
    simp)
  revert hin
  decide

end Pmon.Flash
