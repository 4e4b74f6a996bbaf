import Pmon.Pci.WindowSizes

/-!
# The windows that the scan lists

The windows of a bus are asked for from the leaves up.  What a bridge asks for is the sum of what
is behind it, as a word of 32 bits.

## Key results

- `items_busWindows`: the words have the sizes that are needed as long as what is behind each
  bridge needs less than half of the address space.
- `tight_query`: the order of the list of a bus leaves no gaps.
-/

namespace Pmon.Pci

open Pmon.Lib

/-! ## §1 What is asked for -/

/-- Every base register and ROM has the size of a power of two. -/
def Bus.BarsPowTwo : Bus Func → Prop
  | .none => True
  | .func _ _ f rest => (∀ p ∈ f.probe true, PowTwo p.size) ∧ rest.BarsPowTwo
  | .bridge _ _ _ behind rest => behind.BarsPowTwo ∧ rest.BarsPowTwo

/-- What the devices of a bus need, in numbers of any size. -/
def Bus.need (sp : Space) (onRoot : Bool) : Bus Func → List Item
  | .none => []
  | .func _ _ f rest =>
    (((f.probe onRoot).filter fun p => p.space = sp).map fun p =>
      (⟨p.size.toNat, p.size.toNat⟩ : Item)) ++ rest.need sp onRoot
  | .bridge _ _ _ behind rest =>
    bridgeItem sp.granule.toNat (behind.need sp false) :: rest.need sp onRoot

/-- What is behind any bridge needs less than half of the address space. -/
def Bus.Narrow (sp : Space) : Bus Func → Prop
  | .none => True
  | .func _ _ _ rest => rest.Narrow sp
  | .bridge _ _ _ behind rest =>
    behind.Narrow sp ∧ (bridgeItem sp.granule.toNat (behind.need sp false)).size < 2 ^ 31 ∧
      rest.Narrow sp

/-- The windows of a bus as the scan comes to them, before they are sorted. -/
def busWindows (sp : Space) (onRoot : Bool) : ℕ → Bus Func → List PciWin
  | _, .none => []
  | k, .func _ _ f rest => funcWindows sp onRoot k f ++ busWindows sp onRoot (k + 1) rest
  | k, .bridge _ _ _ behind rest =>
    let b := query false 0 behind fun _ => []
    bridgeWindow sp k (!b.2.isNone) (b.1 sp) :: busWindows sp onRoot (k + 1) rest

theorem insertsortWindow_perm (l : List PciWin) (pm : PciWin) :
    (insertsortWindow l pm).Perm (pm :: l) := by
  induction l with
  | nil => exact .refl _
  | cons pm2 rest ih =>
    rw [insertsortWindow]
    split
    · exact .refl _
    · exact (ih.cons pm2).trans (.swap pm pm2 rest)

/-- The list is kept in the order of the alignments. -/
theorem insertsortWindow_sorted {l : List PciWin} (h : l.Pairwise fun a b => b.align ≤ a.align)
    (pm : PciWin) : (insertsortWindow l pm).Pairwise fun a b => b.align ≤ a.align := by
  induction l with
  | nil => simp [insertsortWindow]
  | cons pm2 rest ih =>
    obtain ⟨h2, hrest⟩ := List.pairwise_cons.mp h
    rw [insertsortWindow]
    split
    · rename_i hle
      refine List.pairwise_cons.mpr ⟨fun b hb => ?_, h⟩
      rcases List.mem_cons.mp hb with rfl | hmem
      · exact hle
      · exact BitVec.le_trans (h2 b hmem) hle
    · rename_i hlt
      refine List.pairwise_cons.mpr ⟨fun b hb => ?_, ih hrest⟩
      rcases List.mem_cons.mp ((insertsortWindow_perm rest pm).subset hb) with rfl | hmem
      · rw [BitVec.le_def] at hlt ⊢
        omega
      · exact h2 b hmem

theorem foldl_insertsortWindow_perm (l ws : List PciWin) :
    (ws.foldl insertsortWindow l).Perm (l ++ ws) := by
  induction ws generalizing l with
  | nil => simp
  | cons w ws ih =>
    rw [List.foldl_cons]
    refine (ih _).trans ?_
    have hins : (insertsortWindow l w ++ ws).Perm ((w :: l) ++ ws) :=
      (insertsortWindow_perm l w).append_right ws
    exact hins.trans (List.perm_middle.symm)

theorem foldl_insertsortWindow_sorted {l : List PciWin}
    (h : l.Pairwise fun a b => b.align ≤ a.align) (ws : List PciWin) :
    (ws.foldl insertsortWindow l).Pairwise fun a b => b.align ≤ a.align := by
  induction ws generalizing l with
  | nil => exact h
  | cons w ws ih => exact ih (insertsortWindow_sorted h w)

/-- The scan lists the windows of the bus, sorted. -/
theorem query_perm (sp : Space) (onRoot : Bool) (k : ℕ) (t : Bus Func) (l : Space → List PciWin) :
    ((query onRoot k t l).1 sp).Perm (l sp ++ busWindows sp onRoot k t) := by
  induction t generalizing k l with
  | none => simp [query, busWindows]
  | func _ _ f rest ih =>
    refine (ih (k + 1) _).trans ?_
    rw [busWindows, ← List.append_assoc]
    exact (foldl_insertsortWindow_perm _ _).append_right _
  | bridge _ _ _ behind rest _ ih =>
    refine (ih (k + 1) _).trans ?_
    exact ((insertsortWindow_perm _ _).append_right _).trans List.perm_middle.symm

theorem query_sorted (sp : Space) (onRoot : Bool) (k : ℕ) (t : Bus Func)
    {l : Space → List PciWin} (h : (l sp).Pairwise fun a b => b.align ≤ a.align) :
    ((query onRoot k t l).1 sp).Pairwise fun a b => b.align ≤ a.align := by
  induction t generalizing k l with
  | none => exact h
  | func _ _ f rest ih => exact ih (k + 1) (foldl_insertsortWindow_sorted h _)
  | bridge _ _ _ behind rest _ ih => exact ih (k + 1) (insertsortWindow_sorted h _)

/-! ## §2 The windows of a bus -/

section Sound

theorem funcWindows_sound {sp : Space} {onRoot : Bool} {k : ℕ} {f : Func}
    (h : ∀ p ∈ f.probe true, PowTwo p.size) : ∀ pm ∈ funcWindows sp onRoot k f, pm.Sound := by
  intro pm hpm
  obtain ⟨p, hp, rfl⟩ := List.mem_map.mp hpm
  have hprobe : p ∈ f.probe true := by
    have hmem : p ∈ f.probe onRoot := (List.mem_filter.mp hp).1
    unfold Func.probe at hmem ⊢
    split at hmem
    · simp at hmem
    · simpa using hmem
  exact ⟨h p hprobe, one_shiftLeft_fls (h p hprobe), fun b hb => by simp at hb, fun _ => rfl⟩

theorem bridgeWindow_sound {sp : Space} {k : ℕ} {child : Bool} {pms : List PciWin}
    (hpow : ∀ pm ∈ pms, PowTwo pm.align) (hchild : child = false → pms = []) :
    (bridgeWindow sp k child pms).Sound where
  pow := powTwo_bridgeWindow sp k child hpow
  setup := by
    cases child with
    | true =>
      simp only [PciWin.setupAlign, bridgeWindow]
      rw [BitVec.not_not, BitVec.sub_add_cancel]
    | false =>
      rw [hchild rfl]
      simp only [PciWin.setupAlign, bridgeWindow]
      cases sp <;> decide
  mask := by
    intro b hb
    simp only [bridgeWindow, Option.some.injEq] at hb ⊢
    rw [← hb]
  bar := by simp [bridgeWindow]

/-- A bus without devices has no windows. -/
theorem query_none_of_isNone {onRoot : Bool} {k : ℕ} {t : Bus Func} {l : Space → List PciWin}
    (h : (query onRoot k t l).2.isNone = true) : (query onRoot k t l).1 = l := by
  cases t with
  | none => rfl
  | func => simp [query, Dev.isNone] at h
  | bridge => simp [query, Dev.isNone] at h

/-- The windows that the scan lists for a bus. -/
theorem mem_query {sp : Space} {onRoot : Bool} {k : ℕ} {t : Bus Func} {pm : PciWin} :
    pm ∈ (query onRoot k t fun _ => []).1 sp ↔ pm ∈ busWindows sp onRoot k t := by
  rw [(query_perm sp onRoot k t _).mem_iff, List.nil_append]

theorem busWindows_sound {sp : Space} (onRoot : Bool) {k : ℕ} {t : Bus Func}
    (h : t.BarsPowTwo) : ∀ pm ∈ busWindows sp onRoot k t, pm.Sound := by
  induction t generalizing k onRoot with
  | none => simp [busWindows]
  | func _ _ f rest ih =>
    intro pm hpm
    rcases List.mem_append.mp hpm with hmem | hmem
    · exact funcWindows_sound h.1 pm hmem
    · exact ih onRoot h.2 pm hmem
  | bridge _ _ _ behind rest ihb ihr =>
    intro pm hpm
    rcases List.mem_cons.mp hpm with rfl | hmem
    · refine bridgeWindow_sound (fun pm' hpm' => ?_) (fun hchild => ?_)
      · exact (ihb false h.1 pm' (mem_query.mp hpm')).pow
      · rw [query_none_of_isNone (by simpa using hchild)]
    · exact ihr onRoot h.2 pm hmem

/-- The devices are numbered from `k` on. -/
theorem le_device {sp : Space} {onRoot : Bool} {k : ℕ} {t : Bus Func} :
    ∀ pm ∈ busWindows sp onRoot k t, k ≤ pm.device := by
  induction t generalizing k with
  | none => simp [busWindows]
  | func _ _ f rest ih =>
    intro pm hpm
    rcases List.mem_append.mp hpm with hmem | hmem
    · obtain ⟨p, -, rfl⟩ := List.mem_map.mp hmem
      exact Nat.le_refl k
    · have := ih pm hmem
      omega
  | bridge _ _ _ behind rest _ ih =>
    intro pm hpm
    rcases List.mem_cons.mp hpm with rfl | hmem
    · exact Nat.le_refl k
    · have := ih pm hmem
      omega

end Sound

/-! ## §3 Sizes behind a bridge -/

/-- An item whose size is a multiple of its alignment, which is a power of two. -/
structure Whole (i : Item) : Prop where
  pow : ∃ k, i.align = 2 ^ k
  dvd : i.align ∣ i.size
  pos : 0 < i.size

theorem Whole.align_pos {i : Item} (h : Whole i) : 0 < i.align := by
  obtain ⟨k, hk⟩ := h.pow
  rw [hk]
  exact Nat.two_pow_pos k

theorem whole_bridgeItem {g : ℕ} (hg : ∃ k, g = 2 ^ k) {is : List Item}
    (h : ∀ i ∈ is, Whole i) : Whole (bridgeItem g is) := by
  obtain ⟨k, rfl⟩ := hg
  have hgpos := Nat.two_pow_pos k
  by_cases hnil : is = []
  · subst hnil
    have h0 : alignUp 0 (2 ^ k) = 0 := alignUp_of_dvd hgpos (Nat.dvd_zero _)
    exact ⟨⟨k, by simp [bridgeItem]⟩, by simp [bridgeItem, h0], by simp [bridgeItem]⟩
  · obtain ⟨i, hi, hw⟩ := widest_mem hnil
    obtain ⟨j, hj⟩ := (h i hi).pow
    have hwpos : 0 < widest is := by
      rw [hw]
      exact (h i hi).align_pos
    have htotal : 0 < total is := Nat.lt_of_lt_of_le (h i hi).pos (size_le_total hi)
    rw [hj] at hw
    have hup := le_alignUp (total is) hwpos
    have hle : 2 ^ k ≤ alignUp (alignUp (total is) (widest is)) (2 ^ k) :=
      Nat.le_of_dvd (Nat.lt_of_lt_of_le (by omega) (le_alignUp _ hgpos)) (dvd_alignUp _ _)
    rcases Nat.le_total j k with hjk | hkj
    · -- nothing behind the bridge is wider than the granule
      have hmax : max (2 ^ j) (2 ^ k) = 2 ^ k :=
        Nat.max_eq_right (Nat.pow_le_pow_right (by decide) hjk)
      refine ⟨⟨k, by simp only [bridgeItem, hw, hmax]⟩, ?_, ?_⟩
      · simp only [bridgeItem, Nat.max_eq_right hle]
        rw [hw, hmax]
        exact dvd_alignUp _ _
      · simp only [bridgeItem]
        omega
    · -- the widest item is a multiple of the granule, so there is one rounding only
      have hmax : max (2 ^ j) (2 ^ k) = 2 ^ j :=
        Nat.max_eq_left (Nat.pow_le_pow_right (by decide) hkj)
      have honce : alignUp (alignUp (total is) (widest is)) (2 ^ k) =
          alignUp (total is) (widest is) :=
        alignUp_of_dvd hgpos
          (Nat.dvd_trans (hw ▸ Nat.pow_dvd_pow 2 hkj : 2 ^ k ∣ widest is) (dvd_alignUp _ _))
      refine ⟨⟨j, by simp only [bridgeItem, hw, hmax]⟩, ?_, ?_⟩
      · simp only [bridgeItem, Nat.max_eq_right hle]
        rw [honce, hw, hmax]
        exact dvd_alignUp _ _
      · simp only [bridgeItem]
        omega

theorem whole_need (sp : Space) (onRoot : Bool) {t : Bus Func} (h : t.BarsPowTwo) :
    ∀ i ∈ t.need sp onRoot, Whole i := by
  induction t generalizing onRoot with
  | none => simp [Bus.need]
  | func _ _ f rest ih =>
    intro i hi
    rcases List.mem_append.mp hi with hmem | hmem
    · have hitem : i ∈ items (funcWindows sp onRoot 0 f) := by
        simpa [items, funcWindows, PciWin.item, Function.comp_def] using hmem
      obtain ⟨pm, hpm, rfl⟩ := List.mem_map.mp hitem
      have hs := funcWindows_sound h.1 pm hpm
      have hbar : pm.bridge = none := by
        obtain ⟨p, -, rfl⟩ := List.mem_map.mp hpm
        rfl
      refine ⟨hs.pow, ?_, ?_⟩
      · simp [PciWin.item, hs.bar hbar]
      · simpa [PciWin.item, hs.bar hbar] using hs.pow.pos
    · exact ih onRoot h.2 i hmem
  | bridge _ _ _ behind rest ihb ihr =>
    intro i hi
    rcases List.mem_cons.mp hi with rfl | hmem
    · exact whole_bridgeItem (powTwo_granule sp) (ihb false h.1)
    · exact ihr onRoot h.2 i hmem

/-- Only the total and the largest alignment matter to a bridge. -/
theorem bridgeItem_perm {g : ℕ} {is js : List Item} (h : is.Perm js) :
    bridgeItem g is = bridgeItem g js := by
  simp only [bridgeItem, total_perm h, widest_perm h]

/-- The list of the bus behind a bridge. -/
theorem items_query_perm (sp : Space) (t : Bus Func) :
    (items ((query false 0 t fun _ => []).1 sp)).Perm (items (busWindows sp false 0 t)) := by
  have := query_perm sp false 0 t fun _ => []
  rw [List.nil_append] at this
  exact this.map PciWin.item

/-- The window of a bridge is what the bridge needs, if that is less than half of the space. -/
theorem bridgeWindow_item {sp : Space} (k : ℕ) (child : Bool) {t : Bus Func} (h : t.BarsPowTwo)
    (hitems : items (busWindows sp false 0 t) = t.need sp false)
    (htotal : total (t.need sp false) < 2 ^ 31) :
    (bridgeWindow sp k child ((query false 0 t fun _ => []).1 sp)).item =
      bridgeItem sp.granule.toNat (t.need sp false) := by
  have hperm := items_query_perm sp t
  rw [hitems] at hperm
  have hwhole : ∀ pm ∈ (query false 0 t fun _ => []).1 sp, Whole pm.item := fun pm hpm =>
    whole_need sp false h _ (hperm.subset (List.mem_map_of_mem hpm))
  have hsum : total (items ((query false 0 t fun _ => []).1 sp)) < 2 ^ 31 := by
    rw [total_perm hperm]
    exact htotal
  have hwide : widest (items ((query false 0 t fun _ => []).1 sp)) < 2 ^ 31 := by
    by_cases hnil : items ((query false 0 t fun _ => []).1 sp) = []
    · rw [hnil]
      decide
    · obtain ⟨i, hi, hw⟩ := widest_mem hnil
      have hi' := whole_need sp false h i (hperm.subset hi)
      have := Nat.le_of_dvd hi'.pos hi'.dvd
      have := size_le_total hi
      omega
  have hsize := bridgeWindow_size sp k child (fun pm hpm => (hwhole pm hpm).pow)
    (fun pm hpm => Nat.le_of_dvd (hwhole pm hpm).pos (hwhole pm hpm).dvd) hsum
  have halign := bridgeWindow_align sp k child hwide
  rw [bridgeItem_perm hperm] at hsize halign
  simp only [PciWin.item, hsize, halign]

/-- **As long as nothing behind a bridge is too large, the words have the sizes that are
    needed.** -/
theorem items_busWindows {sp : Space} (onRoot : Bool) {k : ℕ} {t : Bus Func}
    (h : t.BarsPowTwo) (hn : t.Narrow sp) :
    items (busWindows sp onRoot k t) = t.need sp onRoot := by
  induction t generalizing k onRoot with
  | none => rfl
  | func _ _ f rest ih =>
    rw [busWindows, Bus.need, items_append, ih onRoot h.2 hn]
    congr 1
    simp [items, funcWindows, PciWin.item, Function.comp_def]
  | bridge _ _ _ behind rest ihb ihr =>
    obtain ⟨hnb, hlt, hnr⟩ := hn
    have hle := total_le_bridgeItem (powTwo_granule sp).pos
      fun i hi => (whole_need sp false h.1 i hi).align_pos
    rw [busWindows, Bus.need, items_cons, ihr onRoot h.2 hnr,
      bridgeWindow_item k _ h.1 (ihb false h.1 hnb) (by omega)]

/-- The list of the bus behind a bridge leaves no gaps. -/
theorem tight_query {sp : Space} {t : Bus Func} {onRoot : Bool} (h : t.BarsPowTwo)
    (hn : t.Narrow sp) : Tight (items ((query onRoot 0 t fun _ => []).1 sp)) := by
  have hsound : ∀ pm ∈ (query onRoot 0 t fun _ => []).1 sp, pm.Sound := fun pm hpm =>
    busWindows_sound onRoot h pm (mem_query.mp hpm)
  have hwhole : ∀ i ∈ items ((query onRoot 0 t fun _ => []).1 sp), Whole i := by
    intro i hi
    obtain ⟨pm, hpm, rfl⟩ := List.mem_map.mp hi
    apply whole_need sp onRoot h
    rw [← items_busWindows onRoot (k := 0) h hn]
    exact List.mem_map_of_mem (mem_query.mp hpm)
  refine ⟨fun i hi => (hwhole i hi).align_pos, fun i hi => (hwhole i hi).dvd, ?_⟩
  rw [items, List.pairwise_map]
  have hsorted := query_sorted sp onRoot 0 t (l := fun _ => []) List.Pairwise.nil
  refine hsorted.imp_of_mem fun {a b} ha hb hle => ?_
  exact (hsound b hb).pow.dvd_of_le (hsound a ha).pow hle

end Pmon.Pci
