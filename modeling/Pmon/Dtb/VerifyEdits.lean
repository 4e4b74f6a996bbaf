import Mathlib.Algebra.GroupWithZero.Nat
import Mathlib.Data.List.FinRange
import Pmon.Dtb.VerifyDtb

/-!
# The updates as edits

Every update of `verify_dtb` but that of the memory node is an edit of one property: what it takes
of the free space can be read off the tree before all updates, and what it leaves passes the check
that belongs to it.

## Key results

- `beforeMemory_done`: the updates before that of the memory node are the edits `edits`.
- `checks_good`: if the edits left good values, all checks but that of the memory node pass.
-/

namespace Pmon.Dtb

variable (β : Beyond) (b : Board)

/-! ## §1 Flags -/

/-- What setting or deleting a flag takes. -/
def flagNeed (f : Fdt) (propname : PropName) (wanted : Bool) : ℤ :=
  if f.node .soc then
    if wanted then if (f.prop (.soc, propname)).isNone then f.growth (.soc, propname) 0 else 0
    else -f.shrink (.soc, propname)
  else 0

def flagEdit (f : Fdt) (propname : PropName) (wanted : Bool) : Edit where
  key := (.soc, propname)
  need := flagNeed f propname wanted
  good v := f.node .soc → v.isSome = wanted

/-- Other edits do not change what a flag takes. -/
theorem flagEdit_congr {ks : List Key} {f g : Fdt} (h : Edited ks f g) {propname : PropName}
    (hk : ((.soc, propname) : Key) ∉ ks) (hname : propname ∉ ks.map Prod.snd) (wanted : Bool) :
    flagEdit g propname wanted = flagEdit f propname wanted := by
  have hgrowth := h.growth hk hname 0
  simp only [flagEdit, flagNeed, Fdt.shrink, h.node, h.prop _ hk, hgrowth]

theorem updatePropFlag_done (f : Fdt) (propname : PropName) (wanted : Bool) :
    (flagEdit f propname wanted).Done f (updatePropFlag f propname wanted) := by
  unfold updatePropFlag
  by_cases hsoc : f.node .soc
  · cases wanted with
    | false =>
      obtain ⟨hedited, hprop, hfree⟩ := delprop_spec f (.soc, propname)
      simp only [hsoc, if_true, Bool.false_eq_true, if_false]
      refine ⟨hedited, fun _ => ⟨fun _ => ?_, ?_⟩, fun hneed => absurd ?_ hneed⟩
      · simp [flagEdit, hprop]
      · simp [flagEdit, flagNeed, hsoc, hfree]
      · simp only [flagEdit, flagNeed, hsoc, if_true, Bool.false_eq_true, if_false]
        omega
    | true =>
      simp only [hsoc, if_true]
      by_cases hmissing : (f.prop (.soc, propname)).isNone
      · obtain ⟨hedited, hset, hstuck⟩ := setprop_spec f (.soc, propname) []
        simp only [hmissing, if_true]
        have hneed : (flagEdit f propname true).need = f.growth (.soc, propname) 0 := by
          simp only [flagEdit, flagNeed, hsoc, hmissing, if_true]
        refine ⟨hedited, fun hfits => ?_, fun hno => hstuck (hneed ▸ hno)⟩
        obtain ⟨hprop, hfree⟩ := hset (hneed ▸ hfits)
        exact ⟨fun _ => by rw [flagEdit, hprop]; rfl, hneed ▸ hfree⟩
      · -- the flag is there
        simp only [hmissing, Bool.false_eq_true, if_false]
        refine ⟨Edited.refl _ _, fun _ => ⟨fun _ => ?_, ?_⟩, fun _ => rfl⟩
        · simpa [flagEdit, Option.isSome_iff_ne_none] using hmissing
        · simp [flagEdit, flagNeed, hsoc, hmissing]
  · simp only [hsoc, Bool.false_eq_true, if_false]
    refine ⟨Edited.refl _ _, fun _ => ⟨fun h => absurd h hsoc, ?_⟩, fun _ => rfl⟩
    simp [flagEdit, flagNeed, hsoc]

/-- A flag that takes space is missing and wanted. -/
theorem flagEdit_bad {f : Fdt} {propname : PropName} {wanted : Bool}
    (hneed : 0 < (flagEdit f propname wanted).need) :
    ¬ (flagEdit f propname wanted).good (f.prop (.soc, propname)) := by
  simp only [flagEdit, flagNeed] at hneed ⊢
  split at hneed
  case isFalse _ => omega
  case isTrue hsoc =>
    split at hneed
    case isFalse _ => omega
    case isTrue hwanted =>
      split at hneed
      case isFalse _ => omega
      case isTrue hmissing =>
        intro hgood
        have hthere := hgood hsoc
        simp only [Option.isNone_iff_eq_none] at hmissing
        simp [hmissing, hwanted] at hthere

/-! ## §2 Values -/

/-- What replacing a value that is not empty by one of `n` bytes takes. -/
def valueNeed (f : Fdt) (k : Key) (n : ℕ) : ℤ :=
  match f.getprop k with
  | none => 0
  | some [] => 0
  | some old => (tagAlign n : ℤ) - tagAlign old.length

/-- The edit that replaces a value that is not empty. -/
def valueEdit (f : Fdt) (k : Key) (n : ℕ) (good : List (BitVec 8) → Prop) : Edit where
  key := k
  need := valueNeed f k n
  good v :=
    match f.getprop k with
    | none => v = f.prop k
    | some [] => v = f.prop k
    | some _ => ∃ val, v = some val ∧ val.length = n ∧ good val

theorem valueEdit_congr {ks : List Key} {f g : Fdt} (h : Edited ks f g) {k : Key} (hk : k ∉ ks)
    (n : ℕ) (good : List (BitVec 8) → Prop) : valueEdit g k n good = valueEdit f k n good := by
  simp only [valueEdit, valueNeed, h.getprop hk, h.prop k hk]

/-- A value that is missing or empty is left alone. -/
theorem valueEdit_kept {f : Fdt} {k : Key} (n : ℕ) (good : List (BitVec 8) → Prop)
    (hold : f.getprop k = none ∨ f.getprop k = some []) : (valueEdit f k n good).Done f f := by
  refine ⟨Edited.refl _ _, fun _ => ?_, fun _ => rfl⟩
  rcases hold with hold | hold <;> simp [valueEdit, valueNeed, hold]

/-- A value that is not empty is replaced. -/
theorem valueEdit_set {f : Fdt} {k : Key} {good : List (BitVec 8) → Prop} {old : List (BitVec 8)}
    (hold : f.getprop k = some old) (hne : old ≠ []) {val : List (BitVec 8)} (hgood : good val) :
    (valueEdit f k val.length good).Done f (f.setprop k val).1 := by
  obtain ⟨hedited, hset, hstuck⟩ := setprop_spec f k val
  obtain ⟨c, cs, rfl⟩ := List.exists_cons_of_ne_nil hne
  have hprop : f.prop k = some (c :: cs) := by
    unfold Fdt.getprop at hold
    split at hold
    · exact hold
    · cases hold
  have hgrowth : (valueEdit f k val.length good).need = f.growth k val.length := by
    simp only [valueEdit, valueNeed, hold, Fdt.growth, hprop]
  refine ⟨hedited, fun hneed => ?_, fun hno => hstuck (hgrowth ▸ hno)⟩
  obtain ⟨hval, hfree⟩ := hset (hgrowth ▸ hneed)
  refine ⟨?_, hgrowth ▸ hfree⟩
  simp only [valueEdit, hold]
  exact ⟨val, hval, rfl, hgood⟩

/-- A value that is long enough takes no space. -/
theorem valueNeed_nonpos {f : Fdt} {k : Key} {n : ℕ}
    (hlong : ∀ val, f.getprop k = some val → val ≠ [] → tagAlign n ≤ tagAlign val.length) :
    valueNeed f k n ≤ 0 := by
  unfold valueNeed
  split
  case h_1 => exact le_refl 0
  case h_2 => exact le_refl 0
  case h_3 old hne hold =>
    have := hlong old hold fun h => hne h
    omega

/-- What is found where the edit left a good value. -/
theorem valueEdit_getprop {f g : Fdt} {k : Key} {n : ℕ} {good : List (BitVec 8) → Prop}
    (hnode : g.node = f.node) (hgood : (valueEdit f k n good).good (g.prop k)) :
    g.getprop k = none ∨ g.getprop k = some [] ∨
      ∃ val, g.getprop k = some val ∧ val.length = n ∧ good val := by
  by_cases hthere : f.node k.1 = true
  · have hf : f.getprop k = f.prop k := by simp [Fdt.getprop, hthere]
    have hg : g.getprop k = g.prop k := by simp [Fdt.getprop, hnode, hthere]
    simp only [valueEdit] at hgood
    rw [hg]
    split at hgood
    case h_1 hold => exact Or.inl (hgood.trans (hf.symm.trans hold))
    case h_2 hold => exact Or.inr (Or.inl (hgood.trans (hf.symm.trans hold)))
    case h_3 => exact Or.inr (Or.inr hgood)
  · exact Or.inl (by simp [Fdt.getprop, hnode, hthere])

/-! ## §3 MAC addresses -/

def macEdit (f : Fdt) (id : Fin 2) : Edit :=
  valueEdit f (macKey id) 6 fun val => (List.range 6).map (macByte b id) = val

theorem updateMac_done (f : Fdt) (id : Fin 2) : (macEdit b f id).Done f (updateMac b f id) := by
  unfold updateMac macEdit
  split
  case h_1 hold => exact valueEdit_kept 6 _ (Or.inl hold)
  case h_2 hold => exact valueEdit_kept 6 _ (Or.inr hold)
  case h_3 old hne hold =>
    have hlen : ((List.range 6).map (macByte b id)).length = 6 := by simp
    exact hlen ▸ valueEdit_set hold (fun h => hne h) rfl

/-- An address that was set passes. -/
theorem macOk_cons {f g : Fdt} {id : Fin 2} (hnode : g.node = f.node)
    (hgood : (macEdit b f id).good (g.prop (macKey id))) {ids : List (Fin 2)}
    (hids : macOk β b g ids = true) : macOk β b g (id :: ids) = true := by
  rcases valueEdit_getprop hnode hgood with hget | hget | ⟨val, hget, hlen, rfl⟩
  · simp [macOk, hget]
  · simp [macOk, hget]
  · have hall : ((List.range 6).all fun i => macByte b id i =
        byteAt β g (macKey id) ((List.range 6).map (macByte b id)) i) = true := by
      simp only [List.all_eq_true, List.mem_range, decide_eq_true_eq]
      intro i hi
      simp [byteAt, hi]
    unfold macOk
    rw [hget]
    split
    case h_1 => rfl
    case h_2 => rfl
    case h_3 _ _ heq =>
      cases heq
      rw [if_pos hall, hids]

/-! ## §4 PCI bridges -/

/-- The cells pass, whatever lies behind them. -/
def portGood (id : Fin 6) (val : List (BitVec 8)) : Prop :=
  ∀ x : ℕ → BitVec 8, portOk b (portDev id) (cellAt fun j => (val[j]?).getD (x j)) = true

def portEdit (f : Fdt) (id : Fin 6) : Edit := valueEdit f (portKey id) 48 (portGood b id)

/-- The edits of `update_pci_bridge`. -/
def portEdits (f : Fdt) : List Edit :=
  if b.pciProbeOnly = 0 then [] else (List.finRange 6).map (portEdit b f)

/-- The cells that `portData` stores pass if the windows are those of the port, or spare ones for a
    port that does not answer. -/
theorem portData_good {data : List (BitVec 32)} (hlen : data.length = 12) {mem io : BridgeRange}
    {id : Fin 6}
    (hthere : portThere b (portDev id) = true →
      mem = memRange b (portDev id) ∧ io = ioRange b (portDev id))
    (hspare : portThere b (portDev id) = false → mem.size = 0x100000 ∧ io.size = 0x1000) :
    portGood b id (cellsBytes (portData data mem io)) := by
  intro x
  have hlen' : (portData data mem io).length = 12 := by simp [portData, hlen]
  have hread : ∀ i (hi : i < 12),
      cellAt (fun j => ((cellsBytes (portData data mem io))[j]?).getD (x j)) i =
        (portData data mem io)[i] := fun i hi => cellAt_cellsBytes _ x (by omega)
  generalize (cellAt fun j => ((cellsBytes (portData data mem io))[j]?).getD (x j)) = cell at hread
  have h2 : cell 2 = mem.start := by rw [hread 2 (by omega)]; simp [portData]
  have h3 : cell 3 = mem.start := by rw [hread 3 (by omega)]; simp [portData]
  have h5 : cell 5 = mem.size := by rw [hread 5 (by omega)]; simp [portData]
  have h8 : cell 8 = io.start := by rw [hread 8 (by omega)]; simp [portData]
  have h9 : cell 9 = io.start := by rw [hread 9 (by omega)]; simp [portData]
  have h11 : cell 11 = io.size := by rw [hread 11 (by omega)]; simp [portData]
  unfold portOk
  cases hport : portThere b (portDev id) with
  | true =>
    obtain ⟨rfl, rfl⟩ := hthere hport
    simp [h2, h3, h5, h8, h9, h11]
  | false =>
    obtain ⟨hmem, hio⟩ := hspare hport
    simp [h5, h11, hmem, hio]

/-- One turn of the loop of `update_pci_bridge`. -/
theorem updatePort_done (f : Fdt) (spare : Spare) (id : Fin 6) :
    (portEdit b f id).Done f (updatePort β b (f, spare) id).1 := by
  unfold updatePort portEdit
  simp only
  split
  case h_1 hold => exact valueEdit_kept 48 _ (Or.inl hold)
  case h_2 hold => exact valueEdit_kept 48 _ (Or.inr hold)
  case h_3 old hne hold =>
    have hdata : ((List.range 12).map (cellOf β f (portKey id) old)).length = 12 := by simp
    generalize (List.range 12).map (cellOf β f (portKey id) old) = data at hdata
    have hset : ∀ mem io : BridgeRange, portGood b id (cellsBytes (portData data mem io)) →
        (valueEdit f (portKey id) 48 (portGood b id)).Done f
          (f.setprop (portKey id) (cellsBytes (portData data mem io))).1 := fun mem io hgood => by
      have hlen : (cellsBytes (portData data mem io)).length = 48 := by simp [portData, hdata]
      exact hlen ▸ valueEdit_set hold (fun h => hne h) hgood
    by_cases hthere : portThere b (portDev id) = true
    · -- the windows of the port itself
      rw [if_pos hthere]
      apply hset
      exact portData_good b hdata (fun _ => ⟨rfl, rfl⟩) (by simp [hthere])
    · -- spare windows
      rw [if_neg hthere]
      apply hset
      exact portData_good b hdata (fun h => absurd h hthere) (fun _ => ⟨rfl, rfl⟩)

/-- The loop of `update_pci_bridge`. -/
theorem updatePorts_done (ids : List (Fin 6)) (hnodup : ids.Nodup) (f : Fdt) (spare : Spare) :
    AllDone (ids.map (portEdit b f)) f (ids.foldl (updatePort β b) (f, spare)).1 := by
  induction ids generalizing f spare with
  | nil => exact .nil f
  | cons id ids ih =>
    obtain ⟨hid, hids⟩ := List.nodup_cons.mp hnodup
    have hdone := updatePort_done β b f spare id
    -- the later turns find their properties as they were before
    have hcongr : ids.map (portEdit b (updatePort β b (f, spare) id).1) =
        ids.map (portEdit b f) := by
      apply List.map_congr_left
      intro id' hid'
      refine valueEdit_congr hdone.edited ?_ 48 _
      rintro (_ | ⟨_, h⟩)
      · exact hid hid'
      · cases h
    rw [List.map_cons, List.foldl_cons]
    exact .cons hdone (hcongr ▸ ih hids _ _)

theorem updatePciBridge_done (f : Fdt) :
    AllDone (portEdits b f) f (updatePciBridge β b f) := by
  unfold portEdits updatePciBridge
  split
  · exact .nil f
  · exact updatePorts_done β b _ (List.nodup_finRange 6) f _

/-- A port that was set passes. -/
theorem checkPort_good {f g : Fdt} {id : Fin 6} (hnode : g.node = f.node)
    (hgood : (portEdit b f id).good (g.prop (portKey id))) : checkPort β b g id = true := by
  unfold checkPort
  rcases valueEdit_getprop hnode hgood with hget | hget | ⟨val, hget, -, hport⟩
  · simp [hget]
  · simp [hget]
  · rw [hget]
    split
    · rfl
    · rfl
    · rename_i heq
      cases heq
      exact hport _

/-! ## §5 All edits -/

local instance twoNeZero : NeZero 2 := ⟨by decide⟩

/-- All edits before that of the memory node, in order. -/
def edits (f : Fdt) : List Edit :=
  [flagEdit f .dmaCoherent b.ls2kVersion, flagEdit f .pciProbeOnly (b.pciProbeOnly = 1),
    macEdit b f 0, macEdit b f 1] ++ portEdits b f

/-- The tree before the update of the memory node. -/
def beforeMemory (f : Fdt) : Fdt :=
  let f := updatePropFlag f .dmaCoherent b.ls2kVersion
  let f := updatePropFlag f .pciProbeOnly (b.pciProbeOnly = 1)
  let f := updateMac b f 0
  let f := updateMac b f 1
  updatePciBridge β b f

/-- The properties of all edits. -/
theorem map_key_edits (f : Fdt) : (edits b f).map Edit.key =
    [(.soc, .dmaCoherent), (.soc, .pciProbeOnly), macKey 0, macKey 1] ++
      if b.pciProbeOnly = 0 then [] else (List.finRange 6).map portKey := by
  unfold edits portEdits
  split
  · rfl
  · simp only [List.map_append, List.map_map]
    rfl

/-- No property is edited twice. -/
theorem nodup_edits (f : Fdt) : ((edits b f).map Edit.key).Nodup := by
  rw [map_key_edits]
  split <;> decide

/-- The memory node is not among them. -/
theorem regKey_not_mem_edits (f : Fdt) : regKey ∉ (edits b f).map Edit.key := by
  rw [map_key_edits]
  split <;> decide

/-- **The updates as edits.**  What they do can be told from the tree before all of them. -/
theorem beforeMemory_done (f : Fdt) : AllDone (edits b f) f (beforeMemory β b f) := by
  simp only [beforeMemory]
  have h1 := AllDone.snoc (.nil f) (updatePropFlag_done f .dmaCoherent b.ls2kVersion)
  generalize updatePropFlag f .dmaCoherent b.ls2kVersion = g1 at h1 ⊢
  have h2 := updatePropFlag_done g1 .pciProbeOnly (b.pciProbeOnly = 1)
  rw [flagEdit_congr h1.edited (by simp [flagEdit]) (by simp [flagEdit])] at h2
  generalize updatePropFlag g1 .pciProbeOnly (b.pciProbeOnly = 1) = g2 at h2 ⊢
  replace h2 := h1.snoc h2
  have h3 := updateMac_done b g2 0
  rw [macEdit, valueEdit_congr h2.edited (by simp [flagEdit, macKey])] at h3
  generalize updateMac b g2 0 = g3 at h3 ⊢
  replace h3 := h2.snoc h3
  have h4 := updateMac_done b g3 1
  rw [macEdit, valueEdit_congr h3.edited (by simp [flagEdit, valueEdit, macKey])] at h4
  generalize updateMac b g3 1 = g4 at h4 ⊢
  replace h4 := h3.snoc h4
  have h5 := updatePciBridge_done β b g4
  -- the ports are found as they were
  have hports : portEdits b g4 = portEdits b f := by
    unfold portEdits
    split
    · rfl
    · apply List.map_congr_left
      intro id _
      exact valueEdit_congr h4.edited (by simp [flagEdit, valueEdit, macKey, portKey]) 48 _
  rw [hports] at h5
  exact h4.append h5

/-- If the edits left good values, all checks but that of the memory node pass. -/
theorem checks_good {f g : Fdt} (hnode : g.node = f.node)
    (hgood : ∀ e ∈ edits b f, e.good (g.prop e.key)) :
    checkMacOk β b g = true ∧ checkPropOk g .dmaCoherent b.ls2kVersion = true ∧
      checkPropOk g .pciProbeOnly (b.pciProbeOnly = 1) = true ∧ checkPciBridgeOk β b g = true := by
  have hflag : ∀ propname wanted, flagEdit f propname wanted ∈ edits b f →
      checkPropOk g propname wanted = true := by
    intro propname wanted hmem
    have hflag := hgood _ hmem
    unfold checkPropOk
    split
    case isTrue hsoc =>
      have hthere : (g.prop (.soc, propname)).isSome = wanted := hflag (hnode ▸ hsoc)
      simp [hthere]
    case isFalse => rfl
  refine ⟨?_, hflag _ _ (by simp [edits]), hflag _ _ (by simp [edits]), ?_⟩
  · apply macOk_cons β b hnode (hgood (macEdit b f 0) (by simp [edits]))
    exact macOk_cons β b hnode (hgood (macEdit b f 1) (by simp [edits])) rfl
  · unfold checkPciBridgeOk
    split
    · rfl
    · rename_i hprobe
      rw [List.all_eq_true]
      intro id hid
      apply checkPort_good β b hnode
      apply hgood (portEdit b f id)
      simp only [edits, portEdits, hprobe, if_false, List.mem_append, List.mem_map]
      exact Or.inr ⟨id, hid, rfl⟩

end Pmon.Dtb
