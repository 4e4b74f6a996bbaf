import Pmon.Pci.WindowTrees

/-!
# The windows behind the bridges

The addresses are handed out from the root down.

## Key results

- `setupWindows_exact`: if the windows of the root bus are large enough for what is asked of them,
  every window is placed right exactly when nothing behind a bridge needs half of the address space.
-/

namespace Pmon.Pci

open Pmon.Lib

/-! ## §1 Right addresses -/

/-- Where a window ends. -/
def Placed.stop (p : Placed) : ℕ := p.address.toNat + p.win.size.toNat

/-- What the address has to be a multiple of: the size of a base register, the alignment of the
    window of a bridge. -/
def Placed.required (p : Placed) : ℕ :=
  match p.win.bridge with
  | none => p.win.size.toNat
  | some _ => p.win.align.toNat

/-- The windows of a bus are right. -/
structure BusRight (ps : List Placed) : Prop where
  allocated : ∀ p ∈ ps, p.fellBack = false
  aligned : ∀ p ∈ ps, p.required ∣ p.address.toNat
  disjoint : ps.Pairwise fun p q => p.stop ≤ q.address.toNat ∨ q.stop ≤ p.address.toNat

/-- A window lies in another one. -/
def Placed.Inside (p w : Placed) : Prop := w.address.toNat ≤ p.address.toNat ∧ p.stop ≤ w.stop

/-- All windows of one space. -/
def Layout.all (sp : Space) : Layout → List Placed
  | .none => []
  | .func next => next.all sp
  | .bridge wins behind next => wins sp ++ behind.all sp ++ next.all sp

/-- The windows behind the devices of a bus, from device `k` on, are right; `ps` are the windows of
    the bus. -/
def Layout.Right (sp : Space) (ps : List Placed) : ℕ → Layout → Prop
  | _, .none => True
  | k, .func next => next.Right sp ps (k + 1)
  | k, .bridge wins behind next =>
    (∃ w, windowOf ps k = some w ∧ ∀ p ∈ wins sp ++ behind.all sp, p.Inside w) ∧
      BusRight (wins sp) ∧ behind.Right sp (wins sp) 0 ∧ next.Right sp ps (k + 1)

/-- All windows of one space are right. -/
structure Setup.Right (sp : Space) (s : Setup) : Prop where
  root : BusRight (s.wins sp)
  behind : s.behind.Right sp (s.wins sp) 0

theorem Placed.Inside.trans {p q w : Placed} (hpq : p.Inside q) (hqw : q.Inside w) :
    p.Inside w :=
  ⟨Nat.le_trans hqw.1 hpq.1, Nat.le_trans hpq.2 hqw.2⟩

theorem windowOf_mem {ps : List Placed} {k : ℕ} {w : Placed} (h : windowOf ps k = some w) :
    w ∈ ps := List.mem_of_find?_eq_some h

/-- Everything behind the devices of a bus is in a window of the bus. -/
theorem Layout.Right.inside {sp : Space} {ps : List Placed} {k : ℕ} {lay : Layout}
    (h : lay.Right sp ps k) : ∀ p ∈ lay.all sp, ∃ w ∈ ps, p.Inside w := by
  induction lay generalizing k with
  | none => simp [Layout.all]
  | func next ih => exact ih h
  | bridge wins behind next _ ih =>
    obtain ⟨⟨w, hw, hin⟩, -, -, hnext⟩ := h
    intro p hp
    rcases List.mem_append.mp hp with hmem | hmem
    · exact ⟨w, windowOf_mem hw, hin p hmem⟩
    · exact ih hnext p hmem

/-- No window behind the devices of a bus fell back. -/
theorem Layout.Right.allocated {sp : Space} {ps : List Placed} {k : ℕ} {lay : Layout}
    (h : lay.Right sp ps k) : ∀ p ∈ lay.all sp, p.fellBack = false := by
  induction lay generalizing ps k with
  | none => simp [Layout.all]
  | func next ih => exact ih h
  | bridge wins behind next ihb ihn =>
    obtain ⟨-, hbus, hbehind, hnext⟩ := h
    intro p hp
    rcases List.mem_append.mp hp with hmem | hmem
    · rcases List.mem_append.mp hmem with hwins | hbelow
      · exact hbus.allocated p hwins
      · exact ihb hbehind p hbelow
    · exact ihn hnext p hmem

theorem PciWin.Sound.required_eq {p : Placed} (h : p.win.Sound) :
    p.required = p.win.align.toNat := by
  unfold Placed.required
  split
  · rename_i hb
    rw [h.bar hb]
  · rfl

/-- Windows that are handed out as items are packed are right. -/
theorem busRight_of_pack {ps : List Placed} {lo : ℕ} {is : List Item}
    (hsound : ∀ p ∈ ps, p.win.Sound) (hpos : ∀ i ∈ is, 0 < i.align)
    (hno : ∀ p ∈ ps, p.fellBack = false)
    (hpack : ps.map (fun p => (p.address.toNat, p.win.item)) = pack lo is) :
    BusRight ps ∧ ∀ p ∈ ps, lo ≤ p.address.toNat ∧ p.stop ≤ packEnd lo is := by
  have hmem : ∀ p ∈ ps, (p.address.toNat, p.win.item) ∈ pack lo is := fun p hp =>
    hpack ▸ List.mem_map_of_mem hp
  refine ⟨⟨hno, fun p hp => ?_, ?_⟩, fun p hp => pack_within hpos lo _ (hmem p hp)⟩
  · rw [(hsound p hp).required_eq]
    exact pack_aligned is lo _ (hmem p hp)
  · have hdisj := pack_disjoint hpos lo
    rw [← hpack, List.pairwise_map] at hdisj
    exact hdisj.imp Or.inl

/-! ## §2 Down the tree -/

/-- The window of device `k`, if only one of the bus's windows can be that. -/
theorem windowOf_eq {ps : List Placed} {k : ℕ} {w₀ : PciWin} (hmem : w₀ ∈ ps.map Placed.win)
    (hk : w₀.device = k) (hbridge : w₀.bridge.isSome)
    (honly : ∀ pm ∈ ps.map Placed.win, pm.device = k → pm.bridge.isSome → pm = w₀) :
    ∃ w ∈ ps, windowOf ps k = some w ∧ w.win = w₀ := by
  obtain ⟨p, hp, hpw⟩ := List.mem_map.mp hmem
  have hsome : (windowOf ps k).isSome := by
    rw [windowOf, List.find?_isSome]
    exact ⟨p, hp, by simp [hpw, hk, hbridge]⟩
  obtain ⟨w, hw⟩ := Option.isSome_iff_exists.mp hsome
  have hwps := windowOf_mem hw
  have hprop := List.find?_some hw
  simp only [decide_eq_true_eq] at hprop
  exact ⟨w, hwps, hw, honly _ (List.mem_map_of_mem hwps) hprop.1 hprop.2⟩

section Tree

variable {sp : Space} {onRoot : Bool}

/-- `ps` are the windows of a bus of which the devices from `k` on, `t`, are still to come. -/
def ToCome (sp : Space) (onRoot : Bool) (ps : List Placed) (k : ℕ) (t : Bus Func) : Prop :=
  ∃ pre, (ps.map Placed.win).Perm (pre ++ busWindows sp onRoot k t) ∧ ∀ pm ∈ pre, pm.device < k

theorem ToCome.func {ps : List Placed} {k d n : ℕ} {f : Func} {rest : Bus Func}
    (h : ToCome sp onRoot ps k (.func d n f rest)) : ToCome sp onRoot ps (k + 1) rest := by
  obtain ⟨pre, hl, hpre⟩ := h
  refine ⟨pre ++ funcWindows sp onRoot k f, by rw [List.append_assoc]; exact hl, fun pm hpm => ?_⟩
  rcases List.mem_append.mp hpm with hmem | hmem
  · have := hpre pm hmem
    omega
  · obtain ⟨p, -, rfl⟩ := List.mem_map.mp hmem
    exact Nat.lt_succ_self k

/-- The bridge that comes next has its own window. -/
theorem ToCome.bridge {ps : List Placed} {k d n : ℕ} {pribus : BitVec 32} {behind rest : Bus Func}
    (h : ToCome sp onRoot ps k (.bridge d n pribus behind rest)) :
    ToCome sp onRoot ps (k + 1) rest ∧ ∃ w ∈ ps, windowOf ps k = some w ∧ w.win =
      bridgeWindow sp k (!(query false 0 behind fun _ => []).2.isNone)
        ((query false 0 behind fun _ => []).1 sp) := by
  obtain ⟨pre, hl, hpre⟩ := h
  refine ⟨⟨pre ++ [bridgeWindow sp k (!(query false 0 behind fun _ => []).2.isNone)
    ((query false 0 behind fun _ => []).1 sp)], by rw [List.append_assoc]; exact hl,
    fun pm hpm => ?_⟩, windowOf_eq (hl.mem_iff.mpr ?_) rfl rfl fun pm hpm hk _ => ?_⟩
  · rcases List.mem_append.mp hpm with hmem | hmem
    · have := hpre pm hmem
      omega
    · rw [List.mem_singleton.mp hmem]
      exact Nat.lt_succ_self k
  · exact List.mem_append_right _ List.mem_cons_self
  · rcases List.mem_append.mp (hl.subset hpm) with hmem | hmem
    · exact absurd (hpre pm hmem) (by omega)
    · rcases List.mem_cons.mp hmem with heq | hrest
      · exact heq
      · exact absurd (le_device pm hrest) (by omega)

/-- The windows on a bus are right, and in the address space. -/
structure BusInSpace (ps : List Placed) : Prop where
  right : BusRight ps
  pos : ∀ p ∈ ps, 0 < p.address.toNat
  stop : ∀ p ∈ ps, p.stop ≤ 2 ^ 31

/-- The addresses that the bus behind a bridge gets are those of the bridge's window. -/
theorem secbusOf_eq {ps : List Placed} {k : ℕ} {w : Placed} (hw : windowOf ps k = some w)
    (hstop : w.stop ≤ 2 ^ 31) :
    (secbusOf ps k).min.toNat = w.address.toNat ∧ (secbusOf ps k).next.toNat = w.stop := by
  have hnext : (w.address + w.win.size).toNat = w.stop := by
    rw [BitVec.toNat_add]
    unfold Placed.stop at hstop ⊢
    exact Nat.mod_eq_of_lt (by omega)
  simp only [secbusOf, hw]
  exact ⟨trivial, hnext⟩

/-- The windows on the bus behind a bridge, placed. -/
def placedBehind (sp : Space) (ps : List Placed) (k : ℕ) (t : Bus Func) (pool : BitVec 32) :
    List Placed :=
  (place sp ((query false 0 t fun _ => []).1 sp) (secbusOf ps k) pool).1

theorem placedBehind_win (sp : Space) (ps : List Placed) (k : ℕ) (t : Bus Func)
    (pool : BitVec 32) :
    (placedBehind sp ps k t pool).map Placed.win = (query false 0 t fun _ => []).1 sp :=
  place_win sp _ _ _

theorem toCome_placedBehind (sp : Space) (ps : List Placed) (k : ℕ) (t : Bus Func)
    (pool : BitVec 32) : ToCome sp false (placedBehind sp ps k t pool) 0 t := by
  refine ⟨[], ?_, by simp⟩
  rw [placedBehind_win]
  exact query_perm sp false 0 t fun _ => []

theorem placedBehind_sound {t : Bus Func} (h : t.BarsPowTwo) (ps : List Placed) (k : ℕ)
    (pool : BitVec 32) : ∀ p ∈ placedBehind sp ps k t pool, p.win.Sound := by
  intro p hp
  have hmem := List.mem_map_of_mem (f := Placed.win) hp
  rw [placedBehind_win] at hmem
  exact busWindows_sound false h _ (mem_query.mp hmem)

/-- **What is behind a bridge fits its window**: the list leaves no gaps from the start of the
    window on, which is a multiple of every alignment in it. -/
theorem packEnd_le_stop {ps : List Placed} {k : ℕ} {child : Bool} {w : Placed} {t : Bus Func}
    (h : t.BarsPowTwo) (hn : t.Narrow sp)
    (hlt : (bridgeItem sp.granule.toNat (t.need sp false)).size < 2 ^ 31)
    (hw : windowOf ps k = some w) (hps : BusInSpace ps)
    (hwin : w.win = bridgeWindow sp k child ((query false 0 t fun _ => []).1 sp))
    (hsound : w.win.Sound) :
    packEnd w.address.toNat (items ((query false 0 t fun _ => []).1 sp)) ≤ w.stop := by
  have hle := total_le_bridgeItem (powTwo_granule sp).pos
    fun i hi => (whole_need sp false h i hi).align_pos
  have hperm := items_query_perm sp t
  rw [items_busWindows false h hn] at hperm
  have hitem := bridgeWindow_item k child h (items_busWindows false h hn) (by omega)
  rw [← hwin] at hitem
  have haligned := hps.right.aligned w (windowOf_mem hw)
  rw [hsound.required_eq] at haligned
  have hdvd : ∀ i ∈ items ((query false 0 t fun _ => []).1 sp), i.align ∣ w.address.toNat := by
    intro i hi
    have hwide := align_le_widest hi
    obtain ⟨pm, hpm, rfl⟩ := List.mem_map.mp hi
    have hpow := (busWindows_sound false h pm (mem_query.mp hpm)).pow
    have halign : w.win.align.toNat = (bridgeItem sp.granule.toNat (t.need sp false)).align :=
      congrArg Item.align hitem
    have hmax : widest (t.need sp false) ≤ w.win.align.toNat := by
      rw [halign]
      exact Nat.le_max_left _ _
    rw [widest_perm hperm] at hwide
    exact Nat.dvd_trans (hpow.dvd_of_le hsound.pow (Nat.le_trans hwide hmax)) haligned
  rw [packEnd_of_dvd (tight_query h hn) hdvd, total_perm hperm]
  have hsize : w.win.size.toNat = (bridgeItem sp.granule.toNat (t.need sp false)).size :=
    congrArg Item.size hitem
  unfold Placed.stop
  omega

/-- The windows on the bus behind a bridge are right, and inside the window of the bridge. -/
theorem placedBehind_right {ps : List Placed} {k : ℕ} {child : Bool} {w : Placed} {t : Bus Func}
    (h : t.BarsPowTwo) (hn : t.Narrow sp)
    (hlt : (bridgeItem sp.granule.toNat (t.need sp false)).size < 2 ^ 31)
    (hw : windowOf ps k = some w) (hps : BusInSpace ps)
    (hwin : w.win = bridgeWindow sp k child ((query false 0 t fun _ => []).1 sp))
    (hsound : w.win.Sound) (pool : BitVec 32) :
    BusInSpace (placedBehind sp ps k t pool) ∧
      ∀ p ∈ placedBehind sp ps k t pool, p.Inside w := by
  have hstop := hps.stop w (windowOf_mem hw)
  have hpos := hps.pos w (windowOf_mem hw)
  obtain ⟨hmin, hnext⟩ := secbusOf_eq hw hstop
  have hfit := packEnd_le_stop h hn hlt hw hps hwin hsound
  have hlist : ∀ pm ∈ (query false 0 t fun _ => []).1 sp, pm.Sound := fun pm hpm =>
    busWindows_sound false h pm (mem_query.mp hpm)
  obtain ⟨hno, hpack⟩ := place_pack sp hlist (secbusOf ps k) (by rw [hnext]; exact hstop) pool
    (by rw [hmin, hnext]; exact hfit)
  rw [hmin] at hpack
  obtain ⟨hright, hin⟩ := busRight_of_pack (placedBehind_sound h ps k pool) (items_pos hlist)
    hno hpack
  refine ⟨⟨hright, fun p hp => ?_, fun p hp => ?_⟩, fun p hp => ⟨(hin p hp).1, ?_⟩⟩
  · exact Nat.lt_of_lt_of_le hpos (hin p hp).1
  · exact Nat.le_trans (hin p hp).2 (Nat.le_trans hfit hstop)
  · exact Nat.le_trans (hin p hp).2 hfit

/-- **If nothing behind a bridge is too large, every window behind the devices of a bus is
    right.** -/
theorem right_of_narrow (t : Bus Func) (h : t.BarsPowTwo) (hn : t.Narrow sp) (k : ℕ)
    (l : Space → List PciWin) (ps : Space → List Placed) (pool : Space → BitVec 32)
    (hcome : ToCome sp onRoot (ps sp) k t) (hps : BusInSpace (ps sp)) :
    (setupBehind ps k (query onRoot k t l).2 pool).1.Right sp (ps sp) k := by
  induction t generalizing onRoot k l ps pool with
  | none => trivial
  | func _ _ f rest ih => exact ih h.2 hn (k + 1) _ ps pool hcome.func hps
  | bridge _ _ _ behind rest ihb ihr =>
    obtain ⟨hnb, hlt, hnr⟩ := hn
    obtain ⟨hnext, w, hwps, hw, hwin⟩ := hcome.bridge
    have hsound : w.win.Sound := by
      rw [hwin]
      exact busWindows_sound onRoot (t := .bridge _ _ _ behind rest) h _ List.mem_cons_self
    obtain ⟨hspace, hin⟩ := placedBehind_right h.1 hnb hlt hw hps hwin hsound (pool sp)
    have hbehind := ihb h.1 hnb 0 (fun _ => [])
      (fun sp' => placedBehind sp' (ps sp') k behind (pool sp'))
      (fun sp' => (place sp' ((query false 0 behind fun _ => []).1 sp') (secbusOf (ps sp') k)
        (pool sp')).2) (toCome_placedBehind sp (ps sp) k behind (pool sp)) hspace
    refine ⟨⟨w, hw, fun p hp => ?_⟩, hspace.right, hbehind, ihr h.2 hnr (k + 1) _ ps _ hnext hps⟩
    rcases List.mem_append.mp hp with hmem | hmem
    · exact hin p hmem
    · -- further down, inside a window of the bus behind the bridge
      obtain ⟨q, hq, hpq⟩ := hbehind.inside p hmem
      exact hpq.trans (hin q hq)

/-- If the windows behind a bridge are right, what is there was not too large for the bridge. -/
theorem total_le_of_right {ps : List Placed} {k : ℕ} {w : Placed} {t : Bus Func}
    (h : t.BarsPowTwo) (hw : windowOf ps k = some w) (hpos : 0 < w.address.toNat)
    (hstop : w.stop ≤ 2 ^ 31) {pool : BitVec 32}
    (hright : BusRight (placedBehind sp ps k t pool))
    (hin : ∀ p ∈ placedBehind sp ps k t pool, p.Inside w) :
    total (items ((query false 0 t fun _ => []).1 sp)) ≤ w.win.size.toNat := by
  obtain ⟨hmin, hnext⟩ := secbusOf_eq hw hstop
  have hlist : ∀ pm ∈ (query false 0 t fun _ => []).1 sp, pm.Sound := fun pm hpm =>
    busWindows_sound false h pm (mem_query.mp hpm)
  have hsize : ∀ pm ∈ (query false 0 t fun _ => []).1 sp, pm.size.toNat < 2 ^ 31 := by
    intro pm hpm
    rw [← placedBehind_win sp ps k t pool] at hpm
    obtain ⟨p, hp, rfl⟩ := List.mem_map.mp hpm
    have hpw := hin p hp
    unfold Placed.Inside Placed.stop at hpw
    unfold Placed.stop at hstop
    omega
  have hend := packEnd_of_place sp hlist hsize (secbusOf ps k)
    (by rw [hmin, hnext]; exact Nat.le_add_right _ _) (by rw [hnext]; exact hstop) pool
    hright.allocated
  have hsum := add_total_le_packEnd (items_pos hlist) (secbusOf ps k).min.toNat
  rw [hnext, hmin, Placed.stop] at hend
  rw [hmin] at hsum
  omega

/-- **If every window behind the devices of a bus is right, nothing behind a bridge is too
    large.** -/
theorem narrow_of_right (t : Bus Func) (h : t.BarsPowTwo) (k : ℕ)
    (l : Space → List PciWin) (ps : Space → List Placed) (pool : Space → BitVec 32)
    (hcome : ToCome sp onRoot (ps sp) k t) (hpos : ∀ p ∈ ps sp, 0 < p.address.toNat)
    (hstop : ∀ p ∈ ps sp, p.stop ≤ 2 ^ 31)
    (hright : (setupBehind ps k (query onRoot k t l).2 pool).1.Right sp (ps sp) k) :
    t.Narrow sp := by
  induction t generalizing onRoot k l ps pool with
  | none => trivial
  | func _ _ f rest ih => exact ih h.2 (k + 1) _ ps pool hcome.func hpos hstop hright
  | bridge _ _ _ behind rest ihb ihr =>
    obtain ⟨hcome', w', hwps, hw', hwin⟩ := hcome.bridge
    obtain ⟨⟨w, hw, hin⟩, hbus, hbehind, hnext⟩ := hright
    have hww : w' = w := by
      rw [hw] at hw'
      exact (Option.some.inj hw').symm
    subst hww
    have hin' : ∀ p ∈ placedBehind sp (ps sp) k behind (pool sp), p.Inside w' := fun p hp =>
      hin p (List.mem_append_left _ hp)
    have hsum := total_le_of_right h.1 hw (hpos _ hwps) (hstop _ hwps) hbus hin'
    have hlt : w'.win.size.toNat < 2 ^ 31 := by
      have h1 := hpos _ hwps
      have h2 := hstop _ hwps
      unfold Placed.stop at h2
      omega
    have hnb : behind.Narrow sp :=
      ihb h.1 0 (fun _ => []) (fun sp' => placedBehind sp' (ps sp') k behind (pool sp'))
        (fun sp' => (place sp' ((query false 0 behind fun _ => []).1 sp') (secbusOf (ps sp') k)
          (pool sp')).2) (toCome_placedBehind sp (ps sp) k behind (pool sp))
        (fun p hp => Nat.lt_of_lt_of_le (hpos _ hwps) (hin' p hp).1)
        (fun p hp => Nat.le_trans (hin' p hp).2 (hstop _ hwps)) hbehind
    refine ⟨hnb, ?_, ihr h.2 (k + 1) _ ps _ hcome' hpos hstop hnext⟩
    have hitems := items_busWindows false (k := 0) h.1 hnb
    rw [total_perm (items_query_perm sp behind), hitems] at hsum
    have hitem := bridgeWindow_item k (!(query false 0 behind fun _ => []).2.isNone) h.1 hitems
      (by omega)
    rw [← hitem, ← hwin]
    exact hlt

end Tree

/-! ## §3 The root bus -/

/-- The addresses of the root bus, which are all in the lower half of the space. -/
structure RootWindows where
  secbus : Space → SecBus
  pos : ∀ sp, 0 < (secbus sp).min.toNat
  half : ∀ sp, (secbus sp).next.toNat ≤ 2 ^ 31

/-- What `_pci_hwinit` of the LS2K sets. -/
def hwinitWindows (pciProbeOnly : Bool) : RootWindows where
  secbus
    | .mem => if pciProbeOnly then ⟨0x40100000, 0x80000000⟩ else ⟨0x10000000, 0x18000000⟩
    | .io => ⟨0x4000, 0x02000000⟩
  pos := by intro sp; cases sp <;> cases pciProbeOnly <;> decide
  half := by intro sp; cases sp <;> cases pciProbeOnly <;> decide

/-- The windows of the root bus are large enough for what is asked of them. -/
def RootWindows.Enough (root : RootWindows) (t : Bus Func) : Prop :=
  ∀ sp, packEnd (root.secbus sp).min.toNat (items (rootRequests t sp)) ≤
    (root.secbus sp).next.toNat

/-- **The windows of all buses.**  If the windows of the root bus are large enough for what is asked
    of them, every window is allocated, aligned, apart from the others of its bus and inside that
    of its bridge, exactly when what is behind each bridge needs less than half of the space. -/
theorem setupWindows_exact (root : RootWindows) (pool : Space → BitVec 32) (t : Bus Func)
    (hbars : t.BarsPowTwo) (henough : root.Enough t) :
    (∀ sp, (setupWindows root.secbus pool t).Right sp) ↔ ∀ sp, t.Narrow sp := by
  have hroot : ∀ sp, BusInSpace ((setupWindows root.secbus pool t).wins sp) := by
    intro sp
    have hlist : ∀ pm ∈ rootRequests t sp, pm.Sound := fun pm hpm =>
      busWindows_sound true hbars pm (mem_query.mp hpm)
    obtain ⟨hno, hpack⟩ := place_pack sp hlist _ (root.half sp) (pool sp) (henough sp)
    have hsound : ∀ p ∈ (setupWindows root.secbus pool t).wins sp, p.win.Sound := by
      intro p hp
      have hmem := List.mem_map_of_mem (f := Placed.win) hp
      rw [setupWindows, place_win] at hmem
      exact hlist _ hmem
    obtain ⟨hright, hin⟩ := busRight_of_pack hsound (items_pos hlist) hno hpack
    refine ⟨hright, fun p hp => ?_, fun p hp => ?_⟩
    · exact Nat.lt_of_lt_of_le (root.pos sp) (hin p hp).1
    · exact Nat.le_trans (hin p hp).2 (Nat.le_trans (henough sp) (root.half sp))
  have hcome : ∀ sp, ToCome sp true ((setupWindows root.secbus pool t).wins sp) 0 t := by
    intro sp
    refine ⟨[], ?_, by simp⟩
    rw [setupWindows, place_win]
    exact query_perm sp true 0 t fun _ => []
  constructor
  · intro h sp
    exact narrow_of_right t hbars 0 (fun _ => []) _ _ (hcome sp) (hroot sp).pos (hroot sp).stop
      (h sp).behind
  · intro hn sp
    exact ⟨(hroot sp).right, right_of_narrow t hbars (hn sp) 0 (fun _ => []) _ _ (hcome sp)
      (hroot sp)⟩

/-! ## §4 A sum that wraps -/

/-- A bridge with one device behind it, which has two memory windows of 2 GB. -/
def twoLargeBars : Bus Func :=
  .bridge 9 0 0#32
    (.func 0 0 ⟨false, fun reg => if reg = 0x10 ∨ reg = 0x14 then 0x80000000#32 else 0#32⟩ .none)
    .none

theorem twoLargeBars_barsPowTwo : twoLargeBars.BarsPowTwo := by
  refine ⟨⟨?_, trivial⟩, trivial⟩
  simp [Func.probe, probeBars, probeRom, mapregRom, PowTwo]
  exact ⟨31, rfl⟩

theorem twoLargeBars_enough : (hwinitWindows false).Enough twoLargeBars := by
  intro sp
  cases sp <;> decide

/-- The bridge asks for 1 MB, and both windows of the device fall back. -/
theorem twoLargeBars_fallBack : twoLargeBars.BarsPowTwo ∧
    (hwinitWindows false).Enough twoLargeBars ∧
    ¬ ∀ sp, (setupWindows (hwinitWindows false).secbus (fun _ => 0x40000000) twoLargeBars).Right
      sp := by
  refine ⟨twoLargeBars_barsPowTwo, twoLargeBars_enough, fun h => ?_⟩
  have hno := (h .mem).behind.allocated
  have hfell : ((setupWindows (hwinitWindows false).secbus (fun _ => 0x40000000)
      twoLargeBars).behind.all .mem).any (fun p => p.fellBack) = true := by decide
  obtain ⟨p, hp, hfb⟩ := List.any_eq_true.mp hfell
  rw [hno p hp] at hfb
  exact absurd hfb (by decide)

theorem setupWindows_exact_twoLargeBars :
    (∀ sp, (setupWindows (hwinitWindows false).secbus (fun _ => 0x40000000) twoLargeBars).Right
      sp) ↔ ∀ sp, twoLargeBars.Narrow sp :=
  setupWindows_exact (hwinitWindows false) _ twoLargeBars twoLargeBars_barsPowTwo
    twoLargeBars_enough

end Pmon.Pci
