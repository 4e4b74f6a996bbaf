import Pmon.Dtb.VerifyEdits

/-!
# One run of the check and the next

A tree that one run of `verify_dtb` wrote passes all checks of the next run, unless the memory has
grown past the hole below 4 GB or the flash area has no room for what is to be added.  In the first
case `update_mem_args` stores four cells behind its array of eight.

## Key results

- `updateMemArgs_spec`: when the update of the memory node does its work.
- `verifyDtb_exact`: when one run is enough, and stays inside its buffers.
-/

namespace Pmon.Dtb

variable (β : Beyond) (b : Board)

/-! ## §1 The memory node -/

/-- A cell of a value. -/
def valCell (val : List (BitVec 8)) (i : ℕ) : BitVec 32 := cellAt (fun j => (val[j]?).getD 0) i

/-- Inside the value it does not matter what lies behind it. -/
theorem cellOf_eq (f : Fdt) (k : Key) {val : List (BitVec 8)} {i : ℕ}
    (hi : 4 * i + 4 ≤ val.length) : cellOf β f k val i = valCell val i := by
  have hbyte : ∀ j, j < val.length → byteAt β f k val j = (val[j]?).getD 0 := fun j hj => by
    simp [byteAt, hj]
  simp only [cellOf, valCell, cellAt]
  rw [hbyte _ (by omega), hbyte _ (by omega), hbyte _ (by omega), hbyte _ (by omega)]

/-- What `check_mem_args` wants of a value. -/
def memOk (m : BitVec 64) (val : List (BitVec 8)) : Bool :=
  let p := valCell val
  if val.length = 12 * 4 ∧ p 4 = 0 ∧ p 5 = 0x90000000 ∧ 0x70000000 < m then
    let m := m - 0x70000000
    p 6 = 0 ∧ p 7 = 0x70000000 ∧ p 8 = 1 ∧ p 9 = 0x80000000 ∧ p 10 = hiCell m ∧ p 11 = loCell m
  else if val.length = 8 * 4 ∧ p 4 = 0 ∧ p 5 = 0x90000000 then p 6 = hiCell m ∧ p 7 = loCell m
  else if val.length = 8 * 4 ∧ p 4 = 1 ∧ p 5 = 0x10000000 then p 6 = hiCell m ∧ p 7 = loCell m
  else true

/-- `check_mem_args` only looks at the value. -/
theorem checkMemArgs_eq (f : Fdt) {val : List (BitVec 8)} (hval : f.getprop regKey = some val)
    (hne : val ≠ []) : checkMemArgs β b f = memOk (maxMem b f) val := by
  unfold checkMemArgs
  rw [hval]
  split
  case h_1 heq => cases heq
  case h_2 heq => exact absurd (Option.some.inj heq) hne
  case h_3 val' _ heq =>
    cases heq
    have hcell : ∀ i, 4 * i + 4 ≤ val.length → cellOf β f regKey val i = valCell val i :=
      fun i hi => cellOf_eq β f regKey hi
    by_cases h48 : val.length = 12 * 4
    · simp [memOk, h48, hcell 4 (by omega), hcell 5 (by omega), hcell 6 (by omega),
        hcell 7 (by omega), hcell 8 (by omega), hcell 9 (by omega), hcell 10 (by omega),
        hcell 11 (by omega)]
    · by_cases h32 : val.length = 8 * 4
      · simp [memOk, h32, hcell 4 (by omega), hcell 5 (by omega), hcell 6 (by omega),
          hcell 7 (by omega)]
      · simp [memOk, h48, h32]

/-- The memory has grown past the hole below 4 GB: the first 256 MB stay where they are, 0x70000000
    bytes follow at 0x90000000, and there is more. -/
def PastHole (f : Fdt) (val : List (BitVec 8)) : Prop :=
  f.getprop regKey = some val ∧ valCell val 4 = 0 ∧ valCell val 5 = 0x90000000 ∧
    0x70000000 < maxMem b f

/-- The memory node that the update does not get right: one of eight cells has no place for the
    memory past the hole, and one of twelve cells is never written again. -/
def GrownMemory (f : Fdt) : Prop :=
  ∃ val, PastHole b f val ∧
    (val.length = 8 * 4 ∨ val.length = 12 * 4 ∧ memOk (maxMem b f) val = false)

/-- A node that is read the same way has grown the same way. -/
theorem maxMem_congr {f g : Fdt} (hnode : g.node = f.node) : maxMem b g = maxMem b f := by
  simp only [maxMem, hnode]

theorem grownMemory_congr {f g : Fdt} (hnode : g.node = f.node)
    (hreg : g.getprop regKey = f.getprop regKey) : GrownMemory b g ↔ GrownMemory b f := by
  simp only [GrownMemory, PastHole, maxMem_congr b hnode, hreg]

/-- Eight cells with a new size pass the check. -/
theorem memOk_resized {m : BitVec 64} {data : List (BitVec 32)} (hlen : data.length = 8) :
    memOk m (cellsBytes (storeAll data [(6, hiCell m), (7, loCell m)])) = true := by
  generalize hval : cellsBytes (storeAll data [(6, hiCell m), (7, loCell m)]) = val
  have hlen' : (storeAll data [(6, hiCell m), (7, loCell m)]).length = 8 := by
    simp [storeAll, hlen]
  have h32 : val.length = 8 * 4 := by rw [← hval, length_cellsBytes, hlen']
  have hread : ∀ i (hi : i < 8),
      valCell val i = (storeAll data [(6, hiCell m), (7, loCell m)])[i] := fun i hi => by
    rw [← hval]
    exact cellAt_cellsBytes _ (fun _ => 0) (by omega)
  have h6 : valCell val 6 = hiCell m := by rw [hread 6 (by omega)]; simp [storeAll]
  have h7 : valCell val 7 = loCell m := by rw [hread 7 (by omega)]; simp [storeAll]
  simp [memOk, h32, h6, h7]

/-- What is read of the node, as the code and as the conditions see it. -/
theorem map_cellOf (f : Fdt) {val : List (BitVec 8)} (h32 : val.length = 8 * 4) :
    (List.range dataCells).map (cellOf β f regKey val) =
      (List.range dataCells).map (valCell val) := by
  apply List.map_congr_left
  intro i hi
  simp only [dataCells, List.mem_range] at hi
  exact cellOf_eq β f regKey (by omega)

/-- A node that does not have eight cells is left alone. -/
theorem updateMemArgs_other {f : Fdt} {val : List (BitVec 8)} (hval : f.getprop regKey = some val)
    (h32 : val.length ≠ 8 * 4) : updateMemArgs β b f = (f, false) := by
  unfold updateMemArgs
  rw [hval]
  split
  case h_1 => rfl
  case h_2 => rfl
  case h_3 heq =>
    cases heq
    rw [if_pos h32]

/-- A node of eight cells. -/
theorem updateMemArgs_eight {f : Fdt} {val : List (BitVec 8)} (hval : f.getprop regKey = some val)
    (h32 : val.length = 8 * 4) :
    Edited [regKey] f (updateMemArgs β b f).1 ∧
      (PastHole b f val → (updateMemArgs β b f).2 = true) ∧
      (¬ PastHole b f val →
        checkMemArgs β b (updateMemArgs β b f).1 = true ∧ (updateMemArgs β b f).2 = false) := by
  have hne : val ≠ [] := by
    rintro rfl
    cases h32
  have hcell : ∀ i, i < 8 → cellOf β f regKey val i = valCell val i := fun i hi =>
    cellOf_eq β f regKey (by omega)
  unfold updateMemArgs
  rw [hval]
  split
  case h_1 heq => cases heq
  case h_2 heq => exact absurd (Option.some.inj heq) hne
  case h_3 val' _ heq =>
    cases heq
    simp only [h32, ne_eq, not_true_eq_false, if_false, map_cellOf β f h32, hcell 4 (by omega),
      hcell 5 (by omega)]
    by_cases hgate : (valCell val 4 ≠ 1 ∧ valCell val 5 ≠ 0x10000000) ∧
        (valCell val 4 ≠ 0 ∧ valCell val 5 ≠ 0x90000000)
    · -- neither of the two layouts
      rw [if_pos hgate]
      refine ⟨Edited.refl _ _, fun hpast => absurd hpast.2.1 hgate.2.1, fun _ => ⟨?_, rfl⟩⟩
      rw [checkMemArgs_eq β b f hval hne]
      have h1 : valCell val 4 ≠ 1#32 := hgate.1.1
      have h0 : valCell val 4 ≠ 0#32 := hgate.2.1
      simp [memOk, h32, h0, h1]
    · rw [if_neg hgate]
      by_cases hpast : valCell val 4 = 0 ∧ valCell val 5 = 0x90000000 ∧ 0x70000000 < maxMem b f
      · rw [if_pos hpast]
        exact ⟨(setprop_spec _ _ _).1, fun _ => rfl, fun hno => absurd ⟨hval, hpast⟩ hno⟩
      · rw [if_neg hpast]
        have hdata : ((List.range dataCells).map (valCell val)).length = 8 := by simp [dataCells]
        generalize (List.range dataCells).map (valCell val) = data at hdata
        obtain ⟨hedited, hset, -⟩ := setprop_spec f regKey
          (cellsBytes (storeAll data [(6, hiCell (maxMem b f)), (7, loCell (maxMem b f))]))
        refine ⟨hedited, fun h => absurd h.2 hpast, fun _ => ⟨?_, rfl⟩⟩
        have hthere : f.node regKey.1 = true ∧ f.prop regKey = some val := by
          simpa [Fdt.getprop] using hval
        -- the value has the size it had
        have hlen : (cellsBytes (storeAll data
            [(6, hiCell (maxMem b f)), (7, loCell (maxMem b f))])).length = 8 * 4 := by
          simp [storeAll, hdata]
        have hneed : f.growth regKey (cellsBytes (storeAll data
            [(6, hiCell (maxMem b f)), (7, loCell (maxMem b f))])).length ≤ f.free := by
          simp only [Fdt.growth, hthere.2, hlen, h32]
          omega
        have hprop := (hset hneed).1
        rw [checkMemArgs_eq β b _ (by rw [Fdt.getprop, hedited.node, if_pos hthere.1, hprop])
          (by rw [← List.length_pos_iff_ne_nil, hlen]; decide), maxMem_congr b hedited.node]
        exact memOk_resized hdata

/-- **The update of the memory node.**  It stays inside its array and leaves a node that passes, but
    for memory past the hole. -/
theorem updateMemArgs_spec (f : Fdt) :
    Edited [regKey] f (updateMemArgs β b f).1 ∧
      (¬ GrownMemory b f →
        checkMemArgs β b (updateMemArgs β b f).1 = true ∧ (updateMemArgs β b f).2 = false) ∧
      (GrownMemory b f →
        checkMemArgs β b (updateMemArgs β b f).1 = false ∨ (updateMemArgs β b f).2 = true) := by
  cases hval : f.getprop regKey with
  | none =>
    have hupdate : updateMemArgs β b f = (f, false) := by simp [updateMemArgs, hval]
    rw [hupdate]
    refine ⟨Edited.refl _ _, fun _ => ⟨by simp [checkMemArgs, hval], rfl⟩, ?_⟩
    rintro ⟨val, ⟨hreg, -⟩, -⟩
    cases hval.symm.trans hreg
  | some val =>
    by_cases h32 : val.length = 8 * 4
    · obtain ⟨hedited, hpast, hnot⟩ := updateMemArgs_eight β b hval h32
      refine ⟨hedited, fun hgrown => ?_, fun hgrown => ?_⟩
      · exact hnot fun h => hgrown ⟨val, h, Or.inl h32⟩
      · obtain ⟨val', h, -⟩ := hgrown
        cases hval.symm.trans h.1
        exact Or.inr (hpast h)
    · rw [updateMemArgs_other β b hval h32]
      refine ⟨Edited.refl _ _, fun hgrown => ⟨?_, rfl⟩, fun hgrown => Or.inl ?_⟩
      · by_cases hempty : val = []
        · subst hempty
          simp [checkMemArgs, hval]
        · rw [checkMemArgs_eq β b f hval hempty]
          by_contra hbad
          by_cases h48 : val.length = 12 * 4 ∧ valCell val 4 = 0 ∧ valCell val 5 = 0x90000000 ∧
              0x70000000 < maxMem b f
          · exact hgrown ⟨val, ⟨hval, h48.2⟩, Or.inr ⟨h48.1, by simpa using hbad⟩⟩
          · apply hbad
            simp only [memOk, if_neg h48, h32, false_and, if_false]
      · obtain ⟨val', h, hlen | ⟨h48, hbad⟩⟩ := hgrown
        · cases hval.symm.trans h.1
          exact absurd hlen h32
        · cases hval.symm.trans h.1
          have hempty : val ≠ [] := by
            rintro rfl
            cases h48
          rw [checkMemArgs_eq β b f hval hempty, hbad]

/-! ## §2 When one run is enough -/

/-- There is room for all edits in the flash area. -/
def Room (f : Fdt) : Prop :=
  Fits ((f.free + (dtbSize - 8 - f.total) : ℕ) : ℤ) ((edits b f).map Edit.need)

/-- The values that are replaced are not shorter than what replaces them. -/
structure LongEnough (f : Fdt) : Prop where
  mac : ∀ id val, f.getprop (macKey id) = some val → val ≠ [] → tagAlign 6 ≤ tagAlign val.length
  port : b.pciProbeOnly ≠ 0 → ∀ id val, f.getprop (portKey id) = some val → val ≠ [] →
    tagAlign 48 ≤ tagAlign val.length

/-- The tree is right, or the update can make it so. -/
def Correctable (f : Fdt) : Prop :=
  checksOk β b f = true ∨ ¬ GrownMemory b f ∧ Room b f

/-- What one run is to achieve: the stored tree passes all checks, the next run writes nothing, and
    nothing was stored outside a buffer. -/
structure Settled (words : Option Fdt → List (BitVec 32)) (a : Area) : Prop where
  passes : ∃ g, (verifyDtb words β b a).area.blob = some g ∧ checksOk β b g = true
  quiet : (verifyDtb words β b (verifyDtb words β b a).area).programmed = false
  inside : (verifyDtb words β b a).outside = false

/-- The checksum that is set is right. -/
theorem dtbCksum_set (words : Option Fdt → List (BitVec 32)) (blob : Option Fdt) :
    dtbCksum words (dtbCksumSet words blob) = true := by
  simp only [dtbCksum, dtbCksumSet, true_and, decide_eq_true_eq]
  rw [BitVec.add_comm]
  exact BitVec.add_right_neg _

/-- A stored tree that passes is not written again. -/
theorem verifyDtb_quiet {words : Option Fdt → List (BitVec 32)} {a : Area} {g : Fdt}
    (hblob : a.blob = some g) (hcksum : dtbCksum words a = true) (hok : checksOk β b g = true) :
    verifyDtb words β b a = ⟨a, false, false⟩ := by
  simp [verifyDtb, hblob, hcksum, hok]

/-- A stored tree that does not pass is updated. -/
theorem verifyDtb_updates {words : Option Fdt → List (BitVec 32)} {a : Area} {f : Fdt}
    (hblob : a.blob = some f) (hcksum : dtbCksum words a = true) (hbad : checksOk β b f = false)
    (hsize : f.total ≤ dtbSize - 8) :
    ∃ g, f.openInto (dtbSize - 8) = some g ∧
      verifyDtb words β b a =
        ⟨dtbCksumSet words (some (updates β b g).1), true, (updates β b g).2⟩ := by
  refine ⟨_, if_pos hsize, ?_⟩
  simp only [verifyDtb, hcksum, not_true_eq_false, if_false, hblob, hbad, Bool.false_eq_true,
    Fdt.openInto, if_pos hsize]

/-- A run that updates achieves its aim if what it stores passes. -/
theorem settled_iff_updates {words : Option Fdt → List (BitVec 32)} {a : Area} {f : Fdt}
    (hblob : a.blob = some f) (hcksum : dtbCksum words a = true) (hbad : checksOk β b f = false)
    (hsize : f.total ≤ dtbSize - 8) :
    ∃ g, f.openInto (dtbSize - 8) = some g ∧
      (Settled β b words a ↔
        checksOk β b (updates β b g).1 = true ∧ (updates β b g).2 = false) := by
  obtain ⟨g, hopen, hrun⟩ := verifyDtb_updates β b hblob hcksum hbad hsize
  refine ⟨g, hopen, fun h => ?_, fun h => ?_⟩
  · obtain ⟨⟨h', hstored, hok⟩, -, hinside⟩ := h
    rw [hrun] at hstored hinside
    cases hstored
    exact ⟨hok, hinside⟩
  · have hquiet := verifyDtb_quiet β b (a := dtbCksumSet words (some (updates β b g).1)) rfl
      (dtbCksum_set words _) h.1
    constructor
    · exact ⟨(updates β b g).1, by rw [hrun]; rfl, h.1⟩
    · rw [hrun, hquiet]
    · rw [hrun]
      exact h.2

/-- All checks together. -/
theorem checksOk_iff (f : Fdt) : checksOk β b f = true ↔
    (checkMacOk β b f = true ∧ checkPropOk f .dmaCoherent b.ls2kVersion = true ∧
      checkPropOk f .pciProbeOnly (b.pciProbeOnly = 1) = true ∧ checkPciBridgeOk β b f = true) ∧
      checkMemArgs β b f = true := by
  simp only [checksOk, Bool.and_eq_true, and_assoc]

theorem key_ne_regKey {f : Fdt} {e : Edit} (he : e ∈ edits b f) : e.key ∉ [regKey] := by
  intro h
  rw [List.mem_singleton] at h
  exact regKey_not_mem_edits b f (h ▸ List.mem_map_of_mem he)

/-- A flag that passes the check is good. -/
theorem flag_good {f g : Fdt} {propname : PropName} {wanted : Bool} (hnode : g.node = f.node)
    (hok : checkPropOk g propname wanted = true) :
    (flagEdit f propname wanted).good (g.prop (.soc, propname)) := by
  intro hsoc
  unfold checkPropOk at hok
  rw [if_pos (hnode ▸ hsoc)] at hok
  simpa using hok

/-- **What all updates leave.** -/
theorem updates_ok {f : Fdt} (hroom : Fits f.free ((edits b f).map Edit.need))
    (hgrown : ¬ GrownMemory b f) :
    checksOk β b (updates β b f).1 = true ∧ (updates β b f).2 = false := by
  have hdone := beforeMemory_done β b f
  have hgood := hdone.good (nodup_edits b f) hroom
  have hreg := hdone.edited.getprop (regKey_not_mem_edits b f)
  have hgrown' := mt (grownMemory_congr b hdone.edited.node hreg).mp hgrown
  obtain ⟨hedited, hnot, -⟩ := updateMemArgs_spec β b (beforeMemory β b f)
  obtain ⟨hmem, hinside⟩ := hnot hgrown'
  have hupdates : updates β b f = updateMemArgs β b (beforeMemory β b f) := rfl
  rw [hupdates]
  refine ⟨(checksOk_iff β b _).mpr ⟨?_, hmem⟩, hinside⟩
  apply checks_good β b (hedited.node.trans hdone.edited.node)
  intro e he
  rw [hedited.prop _ (key_ne_regKey b he)]
  exact hgood e he

/-- Only flags take space if the values are long enough. -/
theorem flag_of_need {f : Fdt} (hlong : LongEnough b f) {e : Edit} (he : e ∈ edits b f)
    (hneed : 0 < e.need) :
    e = flagEdit f .dmaCoherent b.ls2kVersion ∨
      e = flagEdit f .pciProbeOnly (b.pciProbeOnly = 1) := by
  have hmac : ∀ id, ¬ 0 < (macEdit b f id).need := fun id =>
    not_lt.mpr (valueNeed_nonpos (hlong.mac id))
  simp only [edits, List.mem_append, List.mem_cons, List.not_mem_nil, or_false] at he
  rcases he with (rfl | rfl | rfl | rfl) | he
  · exact Or.inl rfl
  · exact Or.inr rfl
  · exact absurd hneed (hmac 0)
  · exact absurd hneed (hmac 1)
  · unfold portEdits at he
    split at he
    · cases he
    · rename_i hprobe
      obtain ⟨id, -, rfl⟩ := List.mem_map.mp he
      exact absurd hneed (not_lt.mpr (valueNeed_nonpos (hlong.port hprobe id)))

/-- **What all updates need.** -/
theorem room_of_updates {f : Fdt} (hlong : LongEnough b f)
    (hok : checksOk β b (updates β b f).1 = true) (hinside : (updates β b f).2 = false) :
    ¬ GrownMemory b f ∧ Fits f.free ((edits b f).map Edit.need) := by
  have hdone := beforeMemory_done β b f
  have hreg := hdone.edited.getprop (regKey_not_mem_edits b f)
  obtain ⟨hedited, -, hgrown⟩ := updateMemArgs_spec β b (beforeMemory β b f)
  have hupdates : updates β b f = updateMemArgs β b (beforeMemory β b f) := rfl
  rw [hupdates] at hok hinside
  obtain ⟨⟨-, hdma, hprobe, -⟩, hmem⟩ := (checksOk_iff β b _).mp hok
  refine ⟨fun h => ?_, hdone.fits (nodup_edits b f) ?_ ?_⟩
  · have h' := (grownMemory_congr b hdone.edited.node hreg).mpr h
    rcases hgrown h' with hbad | houtside
    · rw [hmem] at hbad
      cases hbad
    · rw [hinside] at houtside
      cases houtside
  · intro e he hneed
    rcases flag_of_need b hlong he hneed with rfl | rfl
    · exact flagEdit_bad hneed
    · exact flagEdit_bad hneed
  · intro e he hneed
    have hnode := hedited.node.trans hdone.edited.node
    rw [← hedited.prop _ (key_ne_regKey b he)]
    rcases flag_of_need b hlong he hneed with rfl | rfl
    · exact flag_good hnode hdma
    · exact flag_good hnode hprobe

/-- **When one run is enough.**  The next run finds nothing to do, and nothing was stored outside a
    buffer, if the tree can be corrected; and for no other tree whose values are as long as those
    that replace them. -/
theorem verifyDtb_exact {words : Option Fdt → List (BitVec 32)} {a : Area} {f : Fdt}
    (hblob : a.blob = some f) (hcksum : dtbCksum words a = true) (hsize : f.total ≤ dtbSize - 8) :
    (Correctable β b f → Settled β b words a) ∧
      (LongEnough b f → Settled β b words a → Correctable β b f) := by
  cases hchecks : checksOk β b f with
  | true =>
    -- nothing is written
    have hquiet := verifyDtb_quiet β b hblob hcksum hchecks
    refine ⟨fun _ => ⟨⟨f, by rw [hquiet]; exact hblob, hchecks⟩, ?_, by rw [hquiet]⟩,
      fun _ _ => Or.inl hchecks⟩
    rw [hquiet, hquiet]
  | false =>
    obtain ⟨g, hopen, hiff⟩ := settled_iff_updates β b hblob hcksum hchecks hsize
    -- the copy differs in its free space only
    rw [Fdt.openInto, if_pos hsize] at hopen
    cases hopen
    refine ⟨fun h => hiff.mpr ?_, fun hlong h => Or.inr ?_⟩
    · rcases h with h | ⟨hgrown, hroom⟩
      · rw [hchecks] at h
        cases h
      · exact updates_ok β b hroom hgrown
    · obtain ⟨hok, hinside⟩ := hiff.mp h
      have hlong' : LongEnough b { f with
          total := dtbSize - 8
          free := f.free + (dtbSize - 8 - f.total) } := ⟨hlong.mac, hlong.port⟩
      exact room_of_updates β b hlong' hok hinside

/-! ## §3 A board with 4 GB -/

/-- A cell as the words of the checksum are read. -/
def swapped (c : BitVec 32) : BitVec 32 :=
  c.extractLsb' 0 8 ++ c.extractLsb' 8 8 ++ c.extractLsb' 16 8 ++ c.extractLsb' 24 8

/-- A tree with the memory node only. -/
def memoryTree (cells : List (BitVec 32)) : Fdt where
  node n := n = .memory
  prop k := if k = regKey then some (cellsBytes cells) else none
  strings name := name = .reg
  total := 136
  free := 0

/-- The words of such a tree: the header, the empty list of reserved memory, the nodes and the name
    of the property.  Behind them everything is zero. -/
def memoryWords : Option Fdt → List (BitVec 32)
  | none => []
  | some f =>
    let reg := (List.range 8).map (valCell ((f.getprop regKey).getD []))
    ([0xd00dfeed, BitVec.ofNat 32 f.total, 56, 132, 40, 17, 16, 0, 4, 76, 0, 0, 0, 0, 1, 0, 1,
      0x6d656d6f, 0x72790000, 3, 32, 0] ++ reg ++ [2, 2, 9, 0x72656700]).map swapped

/-- The memory of a board with 2 GB. -/
def twoGbCells : List (BitVec 32) := [0, 0x200000, 0, 0xee00000, 0, 0x90000000, 0, 0x70000000]

def twoGbArea : Area := dtbCksumSet memoryWords (some (memoryTree twoGbCells))

/-- The board got 4 GB. -/
def fourGbBoard : Board where
  hwethadr := fun _ => 0
  ls2kVersion := true
  pciProbeOnly := 2
  conf := fun _ _ => 0xffffffff
  memorysizeTotal := 4096
  pcieDev := false

/-- `verifyDtb_exact` at that board: it runs on a tree that it cannot correct. -/
theorem verifyDtb_exact_fourGb :
    (Correctable (fun _ _ _ => 0) fourGbBoard (memoryTree twoGbCells) →
      Settled (fun _ _ _ => 0) fourGbBoard memoryWords twoGbArea) ∧
    (LongEnough fourGbBoard (memoryTree twoGbCells) →
      Settled (fun _ _ _ => 0) fourGbBoard memoryWords twoGbArea →
        Correctable (fun _ _ _ => 0) fourGbBoard (memoryTree twoGbCells)) :=
  verifyDtb_exact (fun _ _ _ => 0) fourGbBoard rfl (dtbCksum_set _ _) (by decide)

/-- With 4 GB the update stores behind its array. -/
theorem fourGb_outside : dtbCksum memoryWords twoGbArea = true ∧
    ¬ Settled (fun _ _ _ => 0) fourGbBoard memoryWords twoGbArea := by
  refine ⟨by decide, fun h => ?_⟩
  have houtside :
      (verifyDtb memoryWords (fun _ _ _ => 0) fourGbBoard twoGbArea).outside = true := by
    decide
  rw [h.inside] at houtside
  cases houtside

end Pmon.Dtb
