import Mathlib.Data.Nat.Notation
import Mathlib.Data.Int.Notation
import Mathlib.Tactic.Common

/-!
# Device trees

What the check of the stored device tree uses of `libfdt`, as `src/include/libfdt.h` documents it
and `src/lib/libfdt` does it: nodes are found by their path, the properties of a node are read, set
and deleted, and a property is only set where the blob has room for it.

## Key results

- `setprop_spec`: setting a property changes that property only, and takes what `growth` says.
- `AllDone.good`: edits that fit one after the other all leave good values.
-/

namespace Pmon.Dtb

/-! ## §1 Trees -/

/-- The nodes that are looked for. -/
inductive NodePath where
  | ethernet (id : Fin 2)
  | port (id : Fin 6)
  | soc
  | gpu
  | memory
  deriving DecidableEq

/-- The properties that are looked for. -/
inductive PropName where
  | macAddress
  | ranges
  | dmaCoherent
  | pciProbeOnly
  | reg
  deriving DecidableEq

def PropName.text : PropName → String
  | .macAddress => "mac-address"
  | .ranges => "ranges"
  | .dmaCoherent => "dma-coherent"
  | .pciProbeOnly => "pci-probe-only"
  | .reg => "reg"

abbrev Key := NodePath × PropName

/-- A blob: its nodes and their properties, whether its strings have a name in them, its total size
    and how much of it is free. -/
structure Fdt where
  node : NodePath → Bool
  prop : Key → Option (List (BitVec 8))
  strings : PropName → Bool
  total : ℕ
  free : ℕ

/-- `FDT_TAGALIGN`. -/
def tagAlign (n : ℕ) : ℕ := (n + 3) / 4 * 4

/-- The size of a property without its value. -/
def propHeader : ℕ := 12

namespace Fdt

/-- `fdt_path_offset` and `fdt_getprop`. -/
def getprop (f : Fdt) (k : Key) : Option (List (BitVec 8)) := if f.node k.1 then f.prop k else none

/-- The name's place in the strings. -/
def stringGrowth (f : Fdt) (name : PropName) : ℕ :=
  if f.strings name then 0 else name.text.length + 1

/-- What the blob grows by if the property gets a value of `n` bytes. -/
def growth (f : Fdt) (k : Key) (n : ℕ) : ℤ :=
  match f.prop k with
  | some old => (tagAlign n : ℤ) - tagAlign old.length
  | none => (f.stringGrowth k.2 + propHeader + tagAlign n : ℕ)

/-- `fdt_setprop` on a node that is there; `false` for `-FDT_ERR_NOSPACE`. -/
def setprop (f : Fdt) (k : Key) (val : List (BitVec 8)) : Fdt × Bool :=
  match f.prop k with
  | some old =>
    if tagAlign val.length ≤ f.free + tagAlign old.length then
      ({ f with
          prop := fun k' => if k' = k then some val else f.prop k'
          free := f.free + tagAlign old.length - tagAlign val.length }, true)
    else (f, false)
  | none =>
    if f.stringGrowth k.2 ≤ f.free then
      -- the name is added before there is a place for the property
      let f' : Fdt := { f with
        strings := fun name => name = k.2 || f.strings name
        free := f.free - f.stringGrowth k.2 }
      if propHeader + tagAlign val.length ≤ f'.free then
        ({ f' with
            prop := fun k' => if k' = k then some val else f.prop k'
            free := f'.free - (propHeader + tagAlign val.length) }, true)
      else (f', false)
    else (f, false)

/-- `fdt_delprop`. -/
def delprop (f : Fdt) (k : Key) : Fdt :=
  match f.prop k with
  | some old =>
    { f with
      prop := fun k' => if k' = k then none else f.prop k'
      free := f.free + (propHeader + tagAlign old.length) }
  | none => f

/-- `fdt_open_into` a buffer of `size` bytes. -/
def openInto (f : Fdt) (size : ℕ) : Option Fdt :=
  if f.total ≤ size then some { f with total := size, free := f.free + (size - f.total) } else none

end Fdt

/-! ## §2 What an edit leaves alone -/

/-- `g` differs from `f` at the properties `ks` at most. -/
structure Edited (ks : List Key) (f g : Fdt) : Prop where
  node : g.node = f.node
  prop : ∀ k, k ∉ ks → g.prop k = f.prop k
  strings : ∀ name, name ∉ ks.map Prod.snd → g.strings name = f.strings name

theorem Edited.refl (ks : List Key) (f : Fdt) : Edited ks f f :=
  ⟨rfl, fun _ _ => rfl, fun _ _ => rfl⟩

theorem Edited.trans {ks ks' : List Key} {f g h : Fdt} (hfg : Edited ks f g)
    (hgh : Edited ks' g h) : Edited (ks ++ ks') f h where
  node := hgh.node.trans hfg.node
  prop := fun k hk => by
    simp only [List.mem_append, not_or] at hk
    rw [hgh.prop k hk.2, hfg.prop k hk.1]
  strings := fun name hname => by
    simp only [List.map_append, List.mem_append, not_or] at hname
    rw [hgh.strings name hname.2, hfg.strings name hname.1]

theorem Edited.getprop {ks : List Key} {f g : Fdt} (h : Edited ks f g) {k : Key} (hk : k ∉ ks) :
    g.getprop k = f.getprop k := by
  rw [Fdt.getprop, Fdt.getprop, h.node, h.prop k hk]

theorem Edited.growth {ks : List Key} {f g : Fdt} (h : Edited ks f g) {k : Key} (hk : k ∉ ks)
    (hname : k.2 ∉ ks.map Prod.snd) (n : ℕ) : g.growth k n = f.growth k n := by
  rw [Fdt.growth, Fdt.growth, h.prop k hk, Fdt.stringGrowth, Fdt.stringGrowth, h.strings _ hname]

/-- **What `fdt_setprop` does.**  It succeeds if there is room for the growth. -/
theorem setprop_spec (f : Fdt) (k : Key) (val : List (BitVec 8)) :
    Edited [k] f (f.setprop k val).1 ∧
      (f.growth k val.length ≤ f.free → (f.setprop k val).1.prop k = some val ∧
        ((f.setprop k val).1.free : ℤ) = f.free - f.growth k val.length) ∧
      (¬ f.growth k val.length ≤ f.free → (f.setprop k val).1.prop k = f.prop k) := by
  unfold Fdt.setprop Fdt.growth
  cases hold : f.prop k with
  | some old =>
    simp only
    by_cases hroom : tagAlign val.length ≤ f.free + tagAlign old.length
    · rw [if_pos hroom]
      refine ⟨⟨rfl, fun k' hk' => ?_, fun _ _ => rfl⟩, fun _ => ⟨by simp, ?_⟩, fun hno => ?_⟩
      · simp only [List.mem_singleton] at hk'
        simp [hk']
      · simp only
        omega
      · omega
    · rw [if_neg hroom]
      exact ⟨Edited.refl _ _, fun hyes => by omega, fun _ => hold⟩
  | none =>
    simp only
    by_cases hstring : f.stringGrowth k.2 ≤ f.free
    · rw [if_pos hstring]
      by_cases hroom : propHeader + tagAlign val.length ≤ f.free - f.stringGrowth k.2
      · rw [if_pos hroom]
        refine ⟨⟨rfl, fun k' hk' => ?_, fun name hname => ?_⟩, fun _ => ⟨by simp, ?_⟩,
          fun hno => ?_⟩
        · simp only [List.mem_singleton] at hk'
          simp [hk']
        · simp only [List.map_cons, List.map_nil, List.mem_singleton] at hname
          simp [hname]
        · simp only
          omega
        · omega
      · rw [if_neg hroom]
        refine ⟨⟨rfl, fun _ _ => rfl, fun name hname => ?_⟩, fun hyes => ?_, fun _ => hold⟩
        · simp only [List.map_cons, List.map_nil, List.mem_singleton] at hname
          simp [hname]
        · omega
    · rw [if_neg hstring]
      exact ⟨Edited.refl _ _, fun hyes => by omega, fun _ => hold⟩

/-- What deleting a property gives back. -/
def Fdt.shrink (f : Fdt) (k : Key) : ℕ :=
  match f.prop k with
  | some old => propHeader + tagAlign old.length
  | none => 0

/-- What `fdt_delprop` does. -/
theorem delprop_spec (f : Fdt) (k : Key) :
    Edited [k] f (f.delprop k) ∧ (f.delprop k).prop k = none ∧
      (f.delprop k).free = f.free + f.shrink k := by
  unfold Fdt.delprop Fdt.shrink
  cases hold : f.prop k with
  | some old =>
    refine ⟨⟨rfl, fun k' hk' => ?_, fun _ _ => rfl⟩, by simp, rfl⟩
    simp only [List.mem_singleton] at hk'
    simp [hk']
  | none => exact ⟨Edited.refl _ _, hold, rfl⟩

/-! ## §3 One edit after the other -/

/-- What an edit is to do: the property it is about, the free space it takes, and which values are
    good. -/
structure Edit where
  key : Key
  need : ℤ
  good : Option (List (BitVec 8)) → Prop

/-- `h` is what the edit leaves of `g`.  If there is room for it, the value is good; else it is the
    old one. -/
structure Edit.Done (e : Edit) (g h : Fdt) : Prop where
  edited : Edited [e.key] g h
  fits : e.need ≤ g.free → e.good (h.prop e.key) ∧ (h.free : ℤ) = g.free - e.need
  stuck : ¬ e.need ≤ g.free → h.prop e.key = g.prop e.key

/-- The edits are done in order. -/
inductive AllDone : List Edit → Fdt → Fdt → Prop where
  | nil (g : Fdt) : AllDone [] g g
  | cons {e : Edit} {es : List Edit} {g h h' : Fdt} :
      e.Done g h → AllDone es h h' → AllDone (e :: es) g h'

/-- There is room for each of the needs when its turn comes. -/
def Fits : ℤ → List ℤ → Prop
  | _, [] => True
  | free, need :: needs => need ≤ free ∧ Fits (free - need) needs

theorem AllDone.append {es es' : List Edit} {g h h' : Fdt} (hgh : AllDone es g h)
    (hhh' : AllDone es' h h') : AllDone (es ++ es') g h' := by
  induction hgh with
  | nil _ => exact hhh'
  | cons he _ ih => exact .cons he (ih hhh')

/-- One more edit. -/
theorem AllDone.snoc {es : List Edit} {e : Edit} {g h h' : Fdt} (hgh : AllDone es g h)
    (he : e.Done h h') : AllDone (es ++ [e]) g h' :=
  hgh.append (.cons he (.nil h'))

theorem AllDone.edited {es : List Edit} {g h : Fdt} (hgh : AllDone es g h) :
    Edited (es.map Edit.key) g h := by
  induction hgh with
  | nil g => exact Edited.refl _ g
  | cons he _ ih => exact he.edited.trans ih

/-- **Edits that fit.**  If there is room for all edits and no two are about the same property,
    every property is good in the end. -/
theorem AllDone.good {es : List Edit} {g h : Fdt} (hgh : AllDone es g h)
    (hnodup : (es.map Edit.key).Nodup) (hfits : Fits g.free (es.map Edit.need)) :
    ∀ e ∈ es, e.good (h.prop e.key) := by
  induction hgh with
  | nil _ => simp
  | @cons e es g h h' he hes ih =>
    simp only [List.map_cons, List.nodup_cons] at hnodup
    obtain ⟨hneed, hrest⟩ := hfits
    obtain ⟨hgood, hfree⟩ := he.fits hneed
    intro e' he'
    rcases List.mem_cons.mp he' with rfl | he'
    · -- the later edits are about other properties
      rw [hes.edited.prop _ hnodup.1]
      exact hgood
    · exact ih hnodup.2 (hfree ▸ hrest) e' he'

/-- **Edits that must fit.**  If in the end every property is good that was not, there was room for
    all edits. -/
theorem AllDone.fits {es : List Edit} {g h : Fdt} (hgh : AllDone es g h)
    (hnodup : (es.map Edit.key).Nodup)
    (hbad : ∀ e ∈ es, 0 < e.need → ¬ e.good (g.prop e.key))
    (hgood : ∀ e ∈ es, 0 < e.need → e.good (h.prop e.key)) : Fits g.free (es.map Edit.need) := by
  induction hgh with
  | nil _ => exact trivial
  | @cons e es g h h' he hes ih =>
    simp only [List.map_cons, List.nodup_cons] at hnodup
    by_cases hneed : e.need ≤ g.free
    · refine ⟨hneed, ?_⟩
      rw [← (he.fits hneed).2]
      apply ih hnodup.2
      · intro e' he' hpos
        have hkey : e'.key ∉ [e.key] := fun h => by
          rw [List.mem_singleton] at h
          exact hnodup.1 (h ▸ List.mem_map_of_mem he')
        rw [he.edited.prop _ hkey]
        exact hbad e' (List.mem_cons_of_mem _ he') hpos
      · exact fun e' he' => hgood e' (List.mem_cons_of_mem _ he')
    · -- the first edit that does not fit leaves a bad value for good
      have hpos : 0 < e.need := by omega
      refine absurd ?_ (hbad e List.mem_cons_self hpos)
      have hend := hgood e List.mem_cons_self hpos
      rwa [hes.edited.prop _ hnodup.1, he.stuck hneed] at hend

/-! ## §4 Cells -/

/-- The big-endian cell `i` of the bytes `bytes`. -/
def cellAt (bytes : ℕ → BitVec 8) (i : ℕ) : BitVec 32 :=
  bytes (4 * i) ++ bytes (4 * i + 1) ++ bytes (4 * i + 2) ++ bytes (4 * i + 3)

/-- The bytes of a cell. -/
def cellBytes (c : BitVec 32) : List (BitVec 8) :=
  [c.extractLsb' 24 8, c.extractLsb' 16 8, c.extractLsb' 8 8, c.extractLsb' 0 8]

/-- The bytes of an array of cells. -/
def cellsBytes (cs : List (BitVec 32)) : List (BitVec 8) := cs.flatMap cellBytes

@[simp] theorem length_cellsBytes (cs : List (BitVec 32)) :
    (cellsBytes cs).length = 4 * cs.length := by
  induction cs with
  | nil => rfl
  | cons c cs ih =>
    simp only [cellsBytes, List.flatMap_cons, List.length_append, List.length_cons] at ih ⊢
    rw [ih]
    simp [cellBytes]
    omega

/-- The four bytes of a cell make up the cell. -/
theorem append_cellBytes (c : BitVec 32) :
    c.extractLsb' 24 8 ++ c.extractLsb' 16 8 ++ c.extractLsb' 8 8 ++ c.extractLsb' 0 8 = c := by
  apply BitVec.eq_of_getLsbD_eq
  intro i hi
  simp only [BitVec.getLsbD_append, BitVec.getLsbD_extractLsb']
  by_cases h8 : i < 8
  · simp [h8]
  · by_cases h16 : i - 8 < 8
    · simp [h8, h16, show 8 + (i - 8) = i by omega]
    · by_cases h24 : i - 8 - 8 < 8
      · simp [h8, h16, h24, show 16 + (i - 8 - 8) = i by omega]
      · simp [h8, h16, h24, show 24 + (i - 8 - 8 - 8) = i by omega, show i - 8 - 8 - 8 < 8 by omega]

/-- The cells of an array are read back, whatever comes after it. -/
theorem cellAt_cellsBytes (cs : List (BitVec 32)) (x : ℕ → BitVec 8) {i : ℕ} (hi : i < cs.length) :
    cellAt (fun j => ((cellsBytes cs)[j]?).getD (x j)) i = cs[i] := by
  induction cs generalizing i x with
  | nil => simp at hi
  | cons c cs ih =>
    cases i with
    | zero =>
      simp only [cellAt, cellsBytes, List.flatMap_cons, cellBytes]
      exact append_cellBytes c
    | succ i =>
      have hi' : i < cs.length := by simpa using hi
      have hshift : ∀ j, (cellsBytes (c :: cs))[j + 4]? = (cellsBytes cs)[j]? := fun j => rfl
      rw [List.getElem_cons_succ, ← ih (fun j => x (j + 4)) hi']
      simp only [cellAt]
      rw [show 4 * (i + 1) = 4 * i + 4 by omega, show 4 * i + 4 + 1 = 4 * i + 1 + 4 by omega,
        show 4 * i + 4 + 2 = 4 * i + 2 + 4 by omega, show 4 * i + 4 + 3 = 4 * i + 3 + 4 by omega]
      simp only [hshift]

end Pmon.Dtb
