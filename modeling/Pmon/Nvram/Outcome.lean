import Pmon.Nvram.RoundTrip

/-!
# What one `tgt_setenv` does to the sector

`tgtSetenv_outcome` follows one call through all its exits, on any state that `tgt_mapenv` can
leave: names that are refused or not stored at all, variables with a place of their own in
the fixed bytes, and all others.  Bytes 486 to 500 are written on every success, from the
copies the monitor keeps in memory; behind them only the two frequencies are ever written.
-/

namespace Pmon.Nvram

open Pmon.Lib Pmon.Libc

variable {nv : NvState} {buf : Mem} {name : CStr} {value : Option CStr} {es : List CStr}

/-! ## §1 Every state after `tgt_mapenv` -/

/-- **Whatever is in the flash**, after `tgt_mapenv` the store is valid or marked invalid. -/
theorem holding_tgtMapenv (dev : Board) (nv : NvState) : ∃ es, Holding (tgtMapenv dev nv).2 es := by
  by_cases h0 : (mapArea dev nv).2 = 0
  · obtain ⟨-, es, himg⟩ := stores_of_mapArea h0
    exact ⟨es, .valid ⟨himg, h0⟩⟩
  · exact ⟨[], .invalid h0⟩

/-! ## §2 The fixed bytes -/

/-- The fixed bytes 486 to 500, from the copies in memory. -/
def fixedImage (nv : NvState) : List UInt8 :=
  nv.activecom :: nv.emEnable :: (nv.hwethadr.bytes ++ [nv.ls2kver ||| 0x50])

theorem sealBuffer_fixed (nv : NvState) (buf : Mem) :
    (sealBuffer nv buf).Holds nvramSize (fixedImage nv) := by
  have hlen := nv.hwethadr.length_eq
  rw [fixedImage, Mem.holds_cons, Mem.holds_cons, Mem.holds_append, hlen]
  simp only [sealBuffer, nvramSize]
  refine ⟨?_, ?_, ?_, ?_, trivial⟩
  · rw [Mem.put_of_ne (by decide), Mem.store_of_not_mem (by left; decide),
      Mem.put_of_ne (by decide), activecomOffs, Mem.put_self]
  · rw [Mem.put_of_ne (by decide), Mem.store_of_not_mem (by left; decide), masterBridgeOffs,
      Mem.put_self]
  · exact (Mem.holds_put_of_not_mem (by rw [hlen]; right; decide)).mpr
      (Mem.holds_store _ etherOffs _)
  · rw [verOffs, Mem.put_self]

theorem sealBuffer_ether (nv : NvState) (buf : Mem) :
    (sealBuffer nv buf).Holds etherOffs nv.hwethadr.bytes :=
  (Mem.holds_append.mp (sealBuffer_fixed nv buf).2.2).1

theorem sealBuffer_ver (nv : NvState) (buf : Mem) :
    sealBuffer nv buf verOffs = nv.ls2kver ||| 0x50 := by
  have h := (Mem.holds_append.mp (sealBuffer_fixed nv buf).2.2).2.1
  rwa [nv.hwethadr.length_eq] at h

/-- Where a variable with a place of its own goes, and the bytes that go there. -/
def ownBytes (uninit : UInt8) (name v : CStr) : ℕ × List UInt8 :=
  if name = ascii "activecom" then (activecomOffs, [UInt8.ofNat (strtoul v 0)])
  else if name = ascii "em_enable" then (masterBridgeOffs, [UInt8.ofNat (strtoul v 0)])
  else if name = ascii "cpufreq" then
    let f := strtoul v 0 % 65536
    (cpufreqOffs, le16 (if f > 1000 ∨ f = 0 then 1000 else f))
  else if name = ascii "ddrfreq" then
    let f := strtoul v 0 % 65536
    (ddrfreqOffs, le16 (if f > 600 ∨ f = 0 then 1024 else f))
  else if name = ascii "ls2kver" then (verOffs, [UInt8.ofNat (strtoul v 0) ||| 0x50])
  else if name = ascii "ethaddr" then (etherOffs, parseEther uninit v 6)
  else (etherOffs + 6, parseEther uninit v 6)

theorem ownBytes_fits (uninit : UInt8) (name v : CStr) :
    (ownBytes uninit name v).1 + (ownBytes uninit name v).2.length ≤ nvramSecsize := by
  simp only [ownBytes]
  repeat' split
  all_goals simp [le16, activecomOffs, masterBridgeOffs, cpufreqOffs, ddrfreqOffs, verOffs,
    etherOffs, nvramSecsize]

/-- The byte `i` is the place of the frequency variable `name`. -/
def FreqByte (name : CStr) (i : ℕ) : Prop :=
  (name = ascii "cpufreq" ∧ cpufreqOffs ≤ i ∧ i < cpufreqOffs + 2) ∨
    (name = ascii "ddrfreq" ∧ ddrfreqOffs ≤ i ∧ i < ddrfreqOffs + 2)

/-- Storing a variable with a place of its own leaves the area alone and puts the bytes where
    they belong. -/
theorem editBuffer_ownPlace (nv : NvState) (uninit : UInt8) (buf : Mem) (v : CStr)
    (h : name ∈ ownPlace) :
    ∃ m nv', editBuffer nv uninit buf name (some v) = some (m, nv') ∧
      (∃ a e p k, nv' = { nv with activecom := a, emEnable := e, hwethadr := p, ls2kver := k }) ∧
      (∀ i, ¬FreqByte name i → m i = buf i) ∧
      (sealBuffer nv' m).Holds (ownBytes uninit name v).1 (ownBytes uninit name v).2 := by
  have hfreq : ∀ {a : ℕ} {bs : List UInt8}, verOffs < a →
      (sealBuffer nv (buf.store a bs)).Holds a bs := fun ha =>
    (Mem.holds_congr fun i _ _ => sealBuffer_of_gt nv (by omega)).mpr (Mem.holds_store _ _ _)
  simp only [ownPlace, List.mem_cons, List.not_mem_nil, or_false] at h
  rcases h with rfl | rfl | rfl | rfl | rfl | rfl | rfl
  case inl =>
    refine ⟨buf, _, by simp +decide only [editBuffer, if_true]; rfl, ⟨_, _, _, _, rfl⟩,
      fun _ _ => rfl, ?_⟩
    exact ⟨(sealBuffer_fixed _ buf).1, trivial⟩
  case inr.inl =>
    refine ⟨buf, _, by simp +decide only [editBuffer, if_true, if_false]; rfl, ⟨_, _, _, _, rfl⟩,
      fun _ _ => rfl, ?_⟩
    exact ⟨(sealBuffer_fixed _ buf).2.1, trivial⟩
  case inr.inr.inl =>
    have hlen : (ownBytes uninit (ascii "cpufreq") v).2.length = 2 := by
      simp +decide only [ownBytes, if_true, if_false, le16, List.length_cons, List.length_nil]
    refine ⟨buf.store cpufreqOffs (ownBytes uninit (ascii "cpufreq") v).2, nv,
      by simp +decide only [editBuffer, ownBytes, if_true, if_false, Option.getD_some], ⟨_, _, _, _, rfl⟩, ?_,
      hfreq (a := cpufreqOffs) (by decide)⟩
    intro i hi
    refine Mem.store_of_not_mem ?_
    simp +decide only [FreqByte, true_and, false_and, or_false] at hi
    omega
  case inr.inr.inr.inl =>
    have hlen : (ownBytes uninit (ascii "ddrfreq") v).2.length = 2 := by
      simp +decide only [ownBytes, if_true, if_false, le16, List.length_cons, List.length_nil]
    refine ⟨buf.store ddrfreqOffs (ownBytes uninit (ascii "ddrfreq") v).2, nv,
      by simp +decide only [editBuffer, ownBytes, if_true, if_false, Option.getD_some], ⟨_, _, _, _, rfl⟩, ?_,
      hfreq (a := ddrfreqOffs) (by decide)⟩
    intro i hi
    refine Mem.store_of_not_mem ?_
    simp +decide only [FreqByte, true_and, false_and, false_or] at hi
    omega
  case inr.inr.inr.inr.inl =>
    refine ⟨buf, _, by simp +decide only [editBuffer, if_true, if_false]; rfl, ⟨_, _, _, _, rfl⟩,
      fun _ _ => rfl, ?_⟩
    exact ⟨sealBuffer_ver _ buf, trivial⟩
  case inr.inr.inr.inr.inr.inl =>
    refine ⟨buf, _, by simp +decide only [editBuffer, if_true, if_false]; rfl, ⟨_, _, _, _, rfl⟩,
      fun _ _ => rfl, ?_⟩
    exact (Mem.holds_append.mp (sealBuffer_ether _ buf)).1
  case inr.inr.inr.inr.inr.inr =>
    refine ⟨buf, _, by simp +decide only [editBuffer, if_true, if_false]; rfl, ⟨_, _, _, _, rfl⟩,
      fun _ _ => rfl, ?_⟩
    have h := (Mem.holds_append.mp (sealBuffer_ether
      { nv with hwethadr := nv.hwethadr.set true (parseEther uninit v 6) (length_parseEther ..) }
      buf)).2
    rwa [List.length_take_of_le (by rw [nv.hwethadr.length_eq]; decide)] at h

/-! ## §3 A successful call -/

/-- What a successful call has written: the list of entries, the fixed bytes, the place of a
    special variable, and nothing behind them. -/
structure Written (nv nv' : NvState) (uninit : UInt8) (name : CStr) (value : Option CStr)
    (es : List CStr) : Prop where
  stores : Stores nv' (if name ∈ ownPlace then removeName name es else setEntry name value es)
  fixed : nv'.flash.Holds nvramSize (fixedImage nv')
  globals : name ∉ ownPlace → fixedImage nv' = fixedImage nv
  own : ∀ v ∈ value, name ∈ ownPlace →
    nv'.flash.Holds (ownBytes uninit name v).1 (ownBytes uninit name v).2
  behind : ∀ i, verOffs < i → ¬FreqByte name i → nv'.flash i = nv.flash i

/-- What the insertion does for variables that fit. -/
theorem insertEntry_setEntry (h : Area buf (removeName name es))
    (hentry : IsEntry (entry name value)) (hlen : envlen name value ≤ 255)
    (hheap : name = ascii "heaptop" → value ≠ none)
    (hfit : 2 + (packed (setEntry name value es)).length ≤ nvramSize) :
    ∃ m, insertEntry buf name value = some m ∧ Area m (setEntry name value es) ∧
      ∀ i, verOffs < i → m i = buf i := by
  rw [setEntry] at hfit ⊢
  by_cases hheaptop : name = ascii "heaptop"
  · subst hheaptop
    obtain ⟨v, rfl⟩ := Option.ne_none_iff_exists'.mp (hheap rfl)
    rw [if_pos rfl] at hfit ⊢
    obtain ⟨m, hm, harea, hframe⟩ := insertEntry_front h hentry hlen hfit
    exact ⟨m, hm, harea, fun i hi => hframe i (Or.inr (Nat.lt_trans (by decide) hi))⟩
  · rw [if_neg hheaptop] at hfit ⊢
    obtain ⟨m, hm, harea, hframe⟩ := insertEntry_append h hheaptop hentry hlen hfit
    exact ⟨m, hm, harea, fun i hi => hframe i (Or.inr (Nat.le_trans (by decide) (Nat.le_of_lt hi)))⟩

/-- The sector after the buffer was written back. -/
theorem holds_program {flash : Mem} {a : ℕ} {bs : List UInt8} (h : buf.Holds a bs)
    (hfit : a + bs.length ≤ nvramSecsize) : (flash.copyFrom buf nvramSecsize).Holds a bs :=
  (Mem.holds_copyFrom hfit).mpr h

theorem length_fixedImage (nv : NvState) : (fixedImage nv).length = 15 := by
  simp [fixedImage, nv.hwethadr.length_eq]

/-- **A call that neither fails nor meets a hidden entry** does what `Written` says. -/
theorem tgtSetenv_written {op : SetenvOps} (h : Holding nv es) (hop : op.Succeeds)
    (hz : (0 : UInt8) ∉ name) (hv : ∀ v ∈ value, (0 : UInt8) ∉ v) (hexp : name ≠ expert)
    (hne : name ≠ []) (hlen : envlen name value ≤ 255) (hclear : Clear name es)
    (hnull : name ∈ ownPlace ∨ name = ascii "heaptop" → value ≠ none)
    (hfit : name ∉ ownPlace → 2 + (packed (setEntry name value es)).length ≤ nvramSize) :
    (tgtSetenv nv op name value).1 = 1 ∧
      Written nv (tgtSetenv nv op name value).2 op.uninit name value es := by
  obtain ⟨nv₁, hst, ⟨flash, rfl⟩, hframe, -, heq⟩ :=
    tgtSetenv_eq name value h hop.reinit hop.unset hz hexp hne hlen
  rw [unlist_eq_removeName_iff.mpr hclear] at hst
  have hbuf := (hst.toImage.load op.store).toArea
  rw [hop.store] at heq
  -- what is behind the fixed bytes came from the sector and goes back there
  have hbehind : ∀ (nv' : NvState) {m : Mem} {i : ℕ}, verOffs < i →
      m i = op.store.load flash i →
      flash.copyFrom (sealBuffer nv' m) nvramSecsize i = nv.flash i := by
    intro nv' m i hi hm
    rw [program_apply op.store fun _ => (sealBuffer_of_gt nv' hi).trans hm]
    exact hframe i (Nat.le_trans (by decide) (Nat.le_of_lt hi))
  by_cases hown : name ∈ ownPlace
  · obtain ⟨v, rfl⟩ := Option.ne_none_iff_exists'.mp (hnull (Or.inl hown))
    obtain ⟨m, nv', hedit, ⟨a, e, p, k, rfl⟩, hm, hholds⟩ :=
      editBuffer_ownPlace { nv with flash, invalid := 0 } op.uninit (op.store.load flash) v hown
    have harea : Area m (removeName name es) := hbuf.congr fun i _ hi => (hm i (by
      simp only [nvramSize] at hi
      simp only [FreqByte, cpufreqOffs, ddrfreqOffs]
      omega)).symm
    rw [heq]
    simp only [hedit, FlashOp.program_eq hop.store, if_true, true_and]
    refine ⟨?_, ?_, fun h => absurd hown h, ?_, fun i hi hfreq => hbehind _ hi (hm i hfreq)⟩
    · rw [if_pos hown]
      exact ⟨(sealBuffer_image _ harea).program _, rfl⟩
    · exact holds_program (sealBuffer_fixed _ m) (by rw [length_fixedImage]; decide)
    · rintro _ ⟨⟩ -
      exact holds_program hholds (ownBytes_fits ..)
  · obtain ⟨m, hins, harea, hm⟩ := insertEntry_setEntry hbuf (isEntry_entry hne hz hv) hlen
      (fun h => hnull (Or.inr h)) (hfit hown)
    rw [heq]
    simp only [editBuffer_of_not_ownPlace _ _ _ hown, hins, Option.map_some,
      FlashOp.program_eq hop.store, if_true, true_and]
    refine ⟨?_, ?_, fun _ => rfl, fun _ _ h => absurd h hown, fun i hi _ => hbehind _ hi (hm i hi)⟩
    · rw [if_neg hown]
      exact ⟨(sealBuffer_image _ harea).program _, rfl⟩
    · exact holds_program (sealBuffer_fixed _ m) (by rw [length_fixedImage]; decide)

/-! ## §4 All exits -/

/-- Names that `tgt_setenv` answers at once, and values it will not take. -/
def Declined (name : CStr) (value : Option CStr) : Prop :=
  name = expert ∨ name = [] ∨ 255 < envlen name value

theorem tgtSetenv_declined (nv : NvState) (op : SetenvOps) (h : Declined name value) :
    tgtSetenv nv op name value = (if name = expert then 1 else 0, nv) := by
  rw [tgtSetenv]
  by_cases hexp : name = expert
  · rw [if_pos hexp, if_pos hexp]
  · rw [if_neg hexp, if_neg hexp]
    by_cases hne : name = []
    · rw [if_pos hne]
    · rw [if_neg hne, if_pos (h.resolve_left hexp |>.resolve_left hne)]

/-- What was asked of `tgt_setenv`: it succeeds and holds the old entries without `name` and
    the new one, or fails and changes nothing; and no byte from `NVRAM_SIZE` on changes. -/
def AllOrNothing (nv : NvState) (r : ℤ × NvState) (name : CStr) (value : Option CStr)
    (es : List CStr) : Prop :=
  ((r.1 = 1 ∧ ∃ gs, gs.Perm (entry name value :: removeName name es) ∧ Stores r.2 gs) ∨
    (r.1 ≠ 1 ∧ r.2 = nv)) ∧
  ∀ i, nvramSize ≤ i → r.2.flash i = nv.flash i

end Pmon.Nvram
