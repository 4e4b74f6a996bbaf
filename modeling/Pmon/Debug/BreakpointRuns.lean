import Mathlib.Data.List.Perm.Basic
import Pmon.Debug.Breakpoints
import Pmon.Lib.Run
import Pmon.Lib.Traps

/-!
# Breakpoints come and go

Over the aligned words of the client's memory, storing the slots is planting traps and removing
them is lifting traps.

## Key results

- `nodup_findSlot`, `setbp_fine`: setting a breakpoint keeps the addresses of the slots in use
  pairwise different.
- `storeBreakpoint_nodup`: what is stored are traps at pairwise different addresses.
- `rmBpts_storeBreakpoint`: a word that was left alone in between comes back.
- `breakpoints_restored`: so it is in every state a run of commands reaches.
-/

namespace Pmon.Debug

open Pmon.Lib Pmon.Libc

variable {bs cs : List Bps} {b : Bps} {s s' : Slots} {m m' : Mem} {adr i j : ℕ}

/-! ## §1 Addresses in use -/

/-- The addresses of the slots in use. -/
def inUse (bs : List Bps) : List ℕ := (bs.map Bps.addr).filter (· ≠ noBpt)

@[simp] theorem inUse_nil : inUse [] = [] := rfl

theorem inUse_append : inUse (bs ++ cs) = inUse bs ++ inUse cs := by
  rw [inUse, List.map_append, List.filter_append]
  rfl

theorem inUse_cons_free (h : b.addr = noBpt) : inUse (b :: bs) = inUse bs := by
  rw [inUse, List.map_cons, List.filter_cons_of_neg (by simp [h])]
  rfl

theorem inUse_cons (h : b.addr ≠ noBpt) : inUse (b :: bs) = b.addr :: inUse bs := by
  rw [inUse, List.map_cons, List.filter_cons_of_pos (by simp [h])]
  rfl

theorem mem_inUse {a : ℕ} : a ∈ inUse bs ↔ a ∈ bs.map Bps.addr ∧ a ≠ noBpt := by
  rw [inUse, List.mem_filter]
  simp

/-- The addresses that `findSlot` leaves in use. -/
theorem inUse_findSlot (bs : List Bps) (j i : ℕ) :
    inUse (findSlot adr j bs i).1 = (inUse bs).filter (· ≠ adr) := by
  induction bs generalizing j i with
  | nil => rfl
  | cons b bs ih =>
    rw [findSlot]
    dsimp only
    by_cases hfree : b.addr = noBpt
    · rw [inUse_cons_free hfree, inUse_cons_free, ih]
      split
      · rfl
      · exact hfree
    · by_cases hadr : b.addr = adr
      · rw [inUse_cons hfree, List.filter_cons_of_neg (by simp [hadr]), inUse_cons_free, ih]
        rw [if_pos hadr]
        rfl
      · rw [inUse_cons hfree, List.filter_cons_of_pos (by simp [hadr])]
        rw [if_neg hadr]
        rw [inUse_cons hfree, ih]

theorem inUse_subset_cons : inUse bs ⊆ inUse (b :: bs) := by
  intro a ha
  rw [mem_inUse] at ha ⊢
  exact ⟨List.mem_cons_of_mem _ ha.1, ha.2⟩

theorem nodup_of_cons (h : (inUse (b :: bs)).Nodup) : (inUse bs).Nodup := by
  by_cases hfree : b.addr = noBpt
  · rwa [inUse_cons_free hfree] at h
  · rw [inUse_cons hfree] at h
    exact (List.nodup_cons.mp h).2

theorem mem_inUse_modify {f : Bps → Bps} (hf : ∀ b, (f b).addr = adr) {a : ℕ}
    (ha : a ∈ inUse (bs.modify i f)) : a = adr ∨ a ∈ inUse bs := by
  induction bs generalizing i with
  | nil =>
    rw [List.modify_nil] at ha
    cases ha
  | cons b bs ih =>
    cases i with
    | zero =>
      rw [List.modify_zero_cons, mem_inUse, List.map_cons, hf, List.mem_cons] at ha
      rcases ha with ⟨rfl | hmem, hne⟩
      · exact Or.inl rfl
      · exact Or.inr (inUse_subset_cons (mem_inUse.mpr ⟨hmem, hne⟩))
    | succ i =>
      rw [List.modify_succ_cons] at ha
      by_cases hfree : b.addr = noBpt
      · rw [inUse_cons_free hfree] at ha
        exact (ih ha).imp_right fun hmem => inUse_subset_cons hmem
      · rw [inUse_cons hfree, List.mem_cons] at ha
        rcases ha with rfl | hmem
        · rw [inUse_cons hfree]
          exact Or.inr List.mem_cons_self
        · exact (ih hmem).imp_right fun hmem => inUse_subset_cons hmem

/-- **A new address in one slot.** -/
theorem nodup_modify {f : Bps → Bps} (hf : ∀ b, (f b).addr = adr) (hnodup : (inUse bs).Nodup)
    (hadr : adr ∉ inUse bs) (i : ℕ) : (inUse (bs.modify i f)).Nodup := by
  induction bs generalizing i with
  | nil =>
    rw [List.modify_nil]
    exact hnodup
  | cons b bs ih =>
    have hnotin : adr ∉ inUse bs := fun h => hadr (inUse_subset_cons h)
    cases i with
    | zero =>
      rw [List.modify_zero_cons]
      by_cases hfree : adr = noBpt
      · rw [inUse_cons_free ((hf b).trans hfree)]
        exact nodup_of_cons hnodup
      · rw [inUse_cons (by rwa [hf]), hf]
        exact List.nodup_cons.mpr ⟨hnotin, nodup_of_cons hnodup⟩
    | succ i =>
      have htail := ih (nodup_of_cons hnodup) hnotin i
      rw [List.modify_succ_cons]
      by_cases hfree : b.addr = noBpt
      · rwa [inUse_cons_free hfree]
      · rw [inUse_cons hfree] at hnodup hadr ⊢
        refine List.nodup_cons.mpr ⟨fun hmem => ?_, htail⟩
        rcases mem_inUse_modify hf hmem with heq | hmem
        · exact hadr (heq ▸ List.mem_cons_self)
        · exact (List.nodup_cons.mp hnodup).1 hmem

/-! ## §2 Commands -/

/-- All slots, in the order in which they are stored. -/
def Slots.all (s : Slots) : List Bps := s.bpt ++ [s.tmp, s.trc, s.trcb]

/-- What every command keeps: the addresses of the breakpoints are pairwise different, and those
    of all slots in use are addresses of instructions. -/
structure Fine (s : Slots) : Prop where
  nodup : (inUse s.bpt).Nodup
  aligned : ∀ a ∈ inUse s.all, 4 ∣ a

theorem noSlots_fine : Fine noSlots where
  nodup := by decide
  aligned := by decide

theorem four_dvd_noBpt : 4 ∣ noBpt := ⟨0, rfl⟩

theorem Fine.of_bpt {bpt : List Bps} {hlen : bpt.length = maxBpt} (h : Fine s)
    (hnodup : (inUse bpt).Nodup) (haligned : ∀ a ∈ inUse bpt, 4 ∣ a) :
    Fine { s with bpt, length_bpt := hlen } where
  nodup := hnodup
  aligned a ha := by
    rw [Slots.all, inUse_append, List.mem_append] at ha
    rcases ha with hbpt | hother
    · exact haligned a hbpt
    · refine h.aligned a ?_
      rw [Slots.all, inUse_append]
      exact List.mem_append_right _ hother

theorem Fine.of_others (h : Fine s) (hbpt : s'.bpt = s.bpt) (htmp : 4 ∣ s'.tmp.addr)
    (htrc : 4 ∣ s'.trc.addr) (htrcb : 4 ∣ s'.trcb.addr) : Fine s' where
  nodup := hbpt ▸ h.nodup
  aligned a ha := by
    rw [Slots.all, inUse_append, List.mem_append, hbpt] at ha
    rcases ha with hmem | hother
    · refine h.aligned a ?_
      rw [Slots.all, inUse_append]
      exact List.mem_append_left _ hmem
    · have hmem := (mem_inUse.mp hother).1
      simp only [List.map_cons, List.map_nil, List.mem_cons, List.not_mem_nil, or_false] at hmem
      rcases hmem with rfl | rfl | rfl
      · exact htmp
      · exact htrc
      · exact htrcb

theorem Fine.aligned_bpt (h : Fine s) : ∀ a ∈ inUse s.bpt, 4 ∣ a := fun a ha =>
  h.aligned a (by
    rw [Slots.all, inUse_append]
    exact List.mem_append_left _ ha)

/-- The address of a slot is that of an instruction, also where the slot is not in use. -/
theorem Fine.aligned_slot (h : Fine s) (hb : b ∈ s.all) : 4 ∣ b.addr := by
  rcases Nat.eq_zero_or_pos b.addr with hzero | hpos
  · omega
  · exact h.aligned _ (mem_inUse.mpr ⟨List.mem_map_of_mem hb, Nat.pos_iff_ne_zero.mp hpos⟩)

theorem Fine.aligned_tmp (h : Fine s) : 4 ∣ s.tmp.addr := h.aligned_slot (by simp [Slots.all])

theorem Fine.aligned_trc (h : Fine s) : 4 ∣ s.trc.addr := h.aligned_slot (by simp [Slots.all])

theorem Fine.aligned_trcb (h : Fine s) : 4 ∣ s.trcb.addr := h.aligned_slot (by simp [Slots.all])

theorem Fine.modify {f : Bps → Bps} (h : Fine s) (hf : ∀ b, (f b).addr = adr) (hadr : 4 ∣ adr)
    (hnotin : adr ∉ inUse s.bpt) (i : ℕ) {hlen : (s.bpt.modify i f).length = maxBpt} :
    Fine { s with bpt := s.bpt.modify i f, length_bpt := hlen } := by
  refine h.of_bpt (nodup_modify hf h.nodup hnotin i) fun a ha => ?_
  rcases mem_inUse_modify hf ha with rfl | hmem
  · exact hadr
  · exact h.aligned_bpt a hmem

/-- **Setting a breakpoint** keeps the addresses pairwise different: a slot that has the address
    is taken again. -/
theorem setbp_fine (h : Fine s) (hadr : 4 ∣ adr) (str : Option CStr) (notSpecified : Bool) :
    Fine (setbp s adr str notSpecified).2 := by
  have hfound : Fine
      { s with
        bpt := (findSlot adr 0 s.bpt maxBpt).1
        length_bpt := (length_findSlot adr 0 maxBpt s.bpt).trans s.length_bpt } := by
    refine h.of_bpt ?_ fun a ha => ?_
    · rw [inUse_findSlot]
      exact h.nodup.filter _
    · rw [inUse_findSlot] at ha
      exact h.aligned_bpt a (List.mem_of_mem_filter ha)
  rw [setbp]
  dsimp only
  split
  · exact hfound
  · have hf : ∀ b : Bps, ({ b with addr := adr, cmdstr := str } : Bps).addr = adr := fun _ => rfl
    refine hfound.modify hf hadr ?_ _
    rw [inUse_findSlot, List.mem_filter]
    simp

theorem clrbpts_fine (h : Fine s) : Fine (clrbpts s) := by
  have hnil : inUse (s.bpt.map Bps.free) = [] := by
    rw [inUse, List.map_map, List.filter_eq_nil_iff]
    simp [Bps.free]
  refine h.of_bpt ?_ fun a ha => ?_
  · rw [hnil]
    exact List.nodup_nil
  · rw [hnil] at ha
    cases ha

theorem cmdClrbp_fine (args : List ClrArg) (h : Fine s) : Fine (cmdClrbp args s) := by
  induction args generalizing s with
  | nil => exact h
  | cons arg args ih =>
    cases arg with
    | star => exact ih (clrbpts_fine h)
    | number i =>
      have hnotin : noBpt ∉ inUse s.bpt := fun hmem => (mem_inUse.mp hmem).2 rfl
      have hf : ∀ b : Bps, b.free.addr = noBpt := fun _ => rfl
      exact ih (h.modify hf four_dvd_noBpt hnotin i)

theorem setTmp_fine (h : Fine s) {tmp : Option ℕ} (htmp : 4 ∣ tmp.getD noBpt) :
    Fine (setTmp tmp s) :=
  h.of_others rfl htmp four_dvd_noBpt four_dvd_noBpt

/-- The instruction, where it goes and where it came from are at addresses of instructions. -/
structure Insn.Aligned (adr : ℕ) (insn : Insn) : Prop where
  adr : 4 ∣ adr
  target : 4 ∣ insn.branchTarget
  getlink : 4 ∣ insn.getlink

theorem setTrcbp_fine (h : Fine s) (stepover : Bool) {insn : Insn} (hin : insn.Aligned adr) :
    Fine (setTrcbp adr stepover insn s) := by
  have htrace : ∀ trc trcb : Bps, 4 ∣ trc.addr → 4 ∣ trcb.addr → Fine { s with trc, trcb } :=
    fun _ _ htrc htrcb => h.of_others rfl h.aligned_tmp htrc htrcb
  have hadr := hin.adr
  have hnext : 4 ∣ (adr + 4) % 4294967296 := by omega
  have hbehind : 4 ∣ (adr + 8) % 4294967296 := by omega
  have htarget : 4 ∣ if insn.branchTarget = adr then (adr + 8) % 4294967296
      else insn.branchTarget := by
    split
    · exact hbehind
    · exact hin.target
  rw [setTrcbp]
  dsimp only
  generalize (if insn.branchTarget = adr then _ else _) = target at htarget ⊢
  repeat' split
  all_goals
    first
    | exact htrace (s.trc.at _) s.trcb.free hbehind four_dvd_noBpt
    | exact htrace (s.trc.at _) s.trcb.free hin.getlink four_dvd_noBpt
    | exact htrace (s.trc.at _) (s.trcb.at target) hbehind htarget
    | exact htrace s.trc.free (s.trcb.at target) four_dvd_noBpt htarget
    | exact htrace (s.trc.at _) s.trcb.free hnext four_dvd_noBpt

/-! ## §3 Clashes -/

theorem addr_foldl_dropClash (bs : List Bps) (b : Bps) :
    let b' := bs.foldl (fun b c => dropClash b c.addr) b
    b'.addr = noBpt ∨ b'.addr = b.addr ∧ b'.addr ∉ bs.map Bps.addr := by
  induction bs generalizing b with
  | nil => exact Or.inr ⟨rfl, by simp⟩
  | cons c bs ih =>
    dsimp only [List.foldl_cons]
    by_cases heq : b.addr = c.addr
    · rw [show dropClash b c.addr = b.free from if_pos heq]
      rcases ih b.free with hfree | ⟨haddr, -⟩
      · exact Or.inl hfree
      · exact Or.inl haddr
    · rw [show dropClash b c.addr = b from if_neg heq]
      rcases ih b with hfree | ⟨haddr, hmem⟩
      · exact Or.inl hfree
      · refine Or.inr ⟨haddr, ?_⟩
        rw [List.map_cons, List.mem_cons, not_or]
        exact ⟨fun hc => heq (haddr.symm.trans hc), hmem⟩

theorem foldl_dropOne (bs : List Bps) (s : Slots) :
    bs.foldl dropOne s =
      { s with
        tmp := bs.foldl (fun b c => dropClash b c.addr) s.tmp
        trc := bs.foldl (fun b c => dropClash b c.addr) s.trc
        trcb := bs.foldl (fun b c => dropClash b c.addr) s.trcb } := by
  induction bs generalizing s with
  | nil => rfl
  | cons b bs ih => exact ih _

/-- What is left of a slot is where it was, at an address that no breakpoint has. -/
def Left (bs : List Bps) (b b' : Bps) : Prop :=
  b'.addr = noBpt ∨ b'.addr = b.addr ∧ b'.addr ∉ bs.map Bps.addr

theorem dropReal_left (s : Slots) :
    (dropReal s).bpt = s.bpt ∧ Left s.bpt s.tmp (dropReal s).tmp ∧
      Left s.bpt s.trc (dropReal s).trc ∧ Left s.bpt s.trcb (dropReal s).trcb := by
  rw [dropReal, foldl_dropOne]
  exact ⟨rfl, addr_foldl_dropClash _ _, addr_foldl_dropClash _ _, addr_foldl_dropClash _ _⟩

/-- **Clashes**: what is left of the other slots is at addresses that no slot before them has. -/
theorem dropClashes_left (s : Slots) :
    (dropClashes s).bpt = s.bpt ∧ Left s.bpt s.tmp (dropClashes s).tmp ∧
      Left (s.bpt ++ [(dropClashes s).tmp]) s.trc (dropClashes s).trc ∧
      Left (s.bpt ++ [(dropClashes s).tmp] ++ [(dropClashes s).trc]) s.trcb
        (dropClashes s).trcb := by
  obtain ⟨hbpt, htmp, htrc, htrcb⟩ := dropReal_left s
  rw [dropClashes]
  generalize dropReal s = s' at hbpt htmp htrc htrcb
  have hone : ∀ {b b' c : Bps}, Left s.bpt b b' → b'.addr ≠ c.addr → Left (s.bpt ++ [c]) b b' := by
    rintro b b' c (hfree | ⟨haddr, hmem⟩) hne
    · exact Or.inl hfree
    · refine Or.inr ⟨haddr, ?_⟩
      rw [List.map_append, List.mem_append, not_or]
      exact ⟨hmem, fun hc => hne (List.mem_singleton.mp hc)⟩
  refine ⟨hbpt, htmp, ?_, ?_⟩
  · change Left _ _ (dropClash s'.trc s'.tmp.addr)
    rw [dropClash]
    split
    · exact Or.inl rfl
    · exact hone htrc ‹_›
  · change Left (s.bpt ++ [s'.tmp] ++ [dropClash s'.trc s'.tmp.addr]) _
      (if s'.trcb.addr = s'.tmp.addr ∨ s'.trcb.addr = (dropClash s'.trc s'.tmp.addr).addr then _
        else s'.trcb)
    split
    · exact Or.inl rfl
    · rename_i hne
      rw [not_or] at hne
      rcases hone htrcb hne.1 with hfree | ⟨haddr, hmem⟩
      · exact Or.inl hfree
      · refine Or.inr ⟨haddr, ?_⟩
        rw [List.map_append, List.mem_append, not_or]
        exact ⟨hmem, fun hc => hne.2 (List.mem_singleton.mp hc)⟩

/-- One more slot. -/
theorem nodup_concat (h : (inUse bs).Nodup) (hb : b.addr = noBpt ∨ b.addr ∉ bs.map Bps.addr) :
    (inUse (bs ++ [b])).Nodup := by
  rw [inUse_append]
  by_cases hfree : b.addr = noBpt
  · rwa [inUse_cons_free hfree, inUse_nil, List.append_nil]
  · have hmem := hb.resolve_left hfree
    rw [inUse_cons hfree, inUse_nil]
    exact List.nodup_append.mpr ⟨h, List.nodup_singleton _, fun a ha c hc => by
      rw [List.mem_singleton.mp hc]
      rintro rfl
      exact hmem (mem_inUse.mp ha).1⟩

/-- **What is stored** is at pairwise different addresses. -/
theorem nodup_dropClashes (h : Fine s) : (inUse (dropClashes s).all).Nodup := by
  obtain ⟨hbpt, htmp, htrc, htrcb⟩ := dropClashes_left s
  have hall : (dropClashes s).all =
      s.bpt ++ [(dropClashes s).tmp] ++ [(dropClashes s).trc] ++ [(dropClashes s).trcb] := by
    rw [Slots.all, hbpt]
    simp
  rw [hall]
  exact nodup_concat (nodup_concat (nodup_concat h.nodup (htmp.imp_right And.right))
    (htrc.imp_right And.right)) (htrcb.imp_right And.right)

theorem Left.aligned {b' : Bps} (h : Left bs b b') (hb : 4 ∣ b.addr) : 4 ∣ b'.addr := by
  rcases h with hfree | ⟨haddr, -⟩
  · exact hfree ▸ four_dvd_noBpt
  · exact haddr ▸ hb

theorem dropClashes_fine (h : Fine s) : Fine (dropClashes s) := by
  obtain ⟨hbpt, htmp, htrc, htrcb⟩ := dropClashes_left s
  exact h.of_others hbpt (htmp.aligned h.aligned_tmp) (htrc.aligned h.aligned_trc)
    (htrcb.aligned h.aligned_trcb)

/-! ## §4 Storing is planting, removing is lifting -/

/-- The aligned words that the slots in use stand for. -/
def targets (bs : List Bps) : List ℕ := (inUse bs).map (· / 4)

/-- What the slots in use remember of them. -/
def remembered (bs : List Bps) : List (ℕ × ℕ) :=
  (bs.filter fun b => b.addr ≠ noBpt).map fun b => (b.addr / 4, b.value)

theorem map_fst_remembered (bs : List Bps) : (remembered bs).map Prod.fst = targets bs := by
  rw [remembered, targets, inUse, List.filter_map, List.map_map, List.map_map]
  rfl

theorem storeSlots_append (bs cs : List Bps) (m : Mem) :
    storeSlots (bs ++ cs) m =
      ((storeSlots bs m).1 ++ (storeSlots cs (storeSlots bs m).2).1,
        (storeSlots cs (storeSlots bs m).2).2) := by
  induction bs generalizing m with
  | nil => rfl
  | cons b bs ih =>
    rw [List.cons_append, storeSlots, storeSlots]
    dsimp only
    rw [ih]
    rfl

theorem words_storeSlots (haligned : ∀ a ∈ inUse bs, 4 ∣ a) :
    (storeSlots bs m).2.words = plant bptCode (targets bs) m.words ∧
      remembered (storeSlots bs m).1 = saved bptCode (targets bs) m.words ∧
      inUse (storeSlots bs m).1 = inUse bs := by
  induction bs generalizing m with
  | nil => exact ⟨rfl, rfl, rfl⟩
  | cons b bs ih =>
    rw [storeSlots]
    dsimp only
    by_cases hfree : b.addr = noBpt
    · rw [inUse_cons_free hfree] at haligned
      obtain ⟨hwords, hrem, huse⟩ := ih haligned (m := m)
      have hstore : storeSlot b m = (b, m) := if_neg (by simp [hfree])
      have hskip : ∀ cs, remembered (b :: cs) = remembered cs := fun cs => by
        rw [remembered, List.filter_cons_of_neg (by simp [hfree])]
        rfl
      rw [hstore, targets, inUse_cons_free hfree, hskip, inUse_cons_free hfree]
      exact ⟨hwords, hrem, huse⟩
    · rw [inUse_cons hfree, List.forall_mem_cons] at haligned
      obtain ⟨hb, haligned⟩ := haligned
      obtain ⟨hwords, hrem, huse⟩ := ih haligned (m := m.putWord b.addr bptCode)
      have hstore : storeSlot b m =
          ({ b with value := m.word b.addr }, m.putWord b.addr bptCode) := if_pos hfree
      have haddr : b.addr = 4 * (b.addr / 4) := by omega
      have hput : (m.putWord b.addr bptCode).words =
          Function.update m.words (b.addr / 4) bptCode := by
        rw [haddr, Mem.words_putWord, Nat.mul_div_cancel_left _ (by decide)]
        rfl
      have hvalue : m.word b.addr = m.words (b.addr / 4) := by
        rw [Mem.words, ← haddr]
      rw [hput] at hwords hrem
      have htargets : targets (b :: bs) = b.addr / 4 :: targets bs := by
        rw [targets, inUse_cons hfree]
        rfl
      rw [hstore, htargets]
      refine ⟨hwords, ?_, ?_⟩
      · rw [remembered, List.filter_cons_of_pos (by simpa using hfree), List.map_cons, ← remembered,
          hrem, saved, ← hvalue]
      · have hused : ({ b with value := m.word b.addr } : Bps).addr ≠ noBpt := hfree
        rw [inUse_cons hfree, inUse_cons hused, huse]

theorem remembered_append (bs cs : List Bps) :
    remembered (bs ++ cs) = remembered bs ++ remembered cs := by
  rw [remembered, List.filter_append, List.map_append]
  rfl

theorem words_removeSlot (hb : b.addr ≠ noBpt → 4 ∣ b.addr ∧ b.value < 4294967296) :
    (removeSlot m b).words = lift bptCode (remembered [b]) m.words := by
  by_cases hfree : b.addr = noBpt
  · have hnil : remembered [b] = [] := by
      rw [remembered, List.filter_cons_of_neg (by simp [hfree])]
      rfl
    rw [removeSlot, if_neg (by simp [hfree]), hnil]
    rfl
  · obtain ⟨hdvd, hlt⟩ := hb hfree
    have haddr : b.addr = 4 * (b.addr / 4) := by omega
    have hone : remembered [b] = [(b.addr / 4, b.value)] := by
      rw [remembered, List.filter_cons_of_pos (by simpa using hfree)]
      rfl
    have hword : m.words (b.addr / 4) = m.word b.addr := by rw [Mem.words, ← haddr]
    have hput : (m.putWord b.addr b.value).words =
        Function.update m.words (b.addr / 4) b.value := by
      rw [haddr, Mem.words_putWord, Nat.mul_div_cancel_left _ (by decide), Nat.mod_eq_of_lt hlt]
    rw [removeSlot, hone, lift, lift, hword]
    by_cases hcode : m.word b.addr = bptCode
    · rw [if_pos ⟨hfree, hcode⟩, if_pos hcode, hput]
    · rw [if_neg fun h => hcode h.2, if_neg hcode]

/-- **Removing is lifting.** -/
theorem words_removeSlots (hbs : ∀ b ∈ bs, b.addr ≠ noBpt → 4 ∣ b.addr ∧ b.value < 4294967296) :
    (bs.foldl removeSlot m).words = lift bptCode (remembered bs) m.words := by
  induction bs generalizing m with
  | nil => rfl
  | cons b bs ih =>
    rw [List.forall_mem_cons] at hbs
    have hsplit : remembered (b :: bs) = remembered [b] ++ remembered bs :=
      remembered_append [b] bs
    rw [List.foldl_cons, ih hbs.2, words_removeSlot hbs.1, hsplit, lift_append]

/-- A stored slot holds a word. -/
theorem value_storeSlots (hb : b ∈ (storeSlots bs m).1) (huse : b.addr ≠ noBpt) :
    b.value < 4294967296 := by
  induction bs generalizing m with
  | nil => cases hb
  | cons c bs ih =>
    rw [storeSlots] at hb
    dsimp only at hb
    rcases List.mem_cons.mp hb with rfl | hmem
    · rw [storeSlot] at huse ⊢
      split at huse
      · rw [if_pos ‹_›]
        exact Mem.word_lt
      · exact absurd huse ‹_›
    · exact ih hmem

theorem storeBreakpoint_eq (s : Slots) (m : Mem) :
    (storeBreakpoint s m).1.all = (storeSlots (dropClashes s).all m).1 ∧
      (storeBreakpoint s m).2 = (storeSlots (dropClashes s).all m).2 := by
  rw [Slots.all, Slots.all, storeSlots_append]
  exact ⟨rfl, rfl⟩

theorem rmBpts_eq (s : Slots) (m : Mem) :
    (rmBpts s m).2 = ([s.tmp] ++ s.bpt ++ [s.trc, s.trcb]).foldl removeSlot m := by
  rw [List.foldl_append, List.foldl_append]
  rfl

theorem targets_nodup (hnodup : (inUse bs).Nodup) (haligned : ∀ a ∈ inUse bs, 4 ∣ a) :
    (targets bs).Nodup :=
  hnodup.map_on fun a ha b hb heq => by
    have h1 := haligned a ha
    have h2 := haligned b hb
    omega

/-- **Storing and removing**: a word that was left alone in between holds what it held. -/
theorem rmBpts_storeBreakpoint (h : Fine s) (m m' : Mem) (i : ℕ)
    (hi : m'.words i = (storeBreakpoint s m).2.words i) :
    (rmBpts (storeBreakpoint s m).1 m').2.words i = m.words i := by
  have hnodup := nodup_dropClashes h
  have haligned := (dropClashes_fine h).aligned
  obtain ⟨hall, hmem⟩ := storeBreakpoint_eq s m
  obtain ⟨hwords, hrem, huse⟩ := words_storeSlots haligned (m := m)
  rw [hmem, hwords] at hi
  rw [← hall] at hrem huse
  generalize (storeBreakpoint s m).1 = s₁ at hall hrem huse ⊢
  have hperm : (remembered ([s₁.tmp] ++ s₁.bpt ++ [s₁.trc, s₁.trcb])).Perm (remembered s₁.all) :=
    (List.Perm.filter _ List.perm_middle.symm).map _
  have htargets : (remembered s₁.all).map Prod.fst = targets (dropClashes s).all := by
    rw [map_fst_remembered, targets, huse]
    rfl
  have hsaved : ∀ p ∈ remembered s₁.all, p.2 = m.words p.1 := by
    rw [hrem, saved_eq (targets_nodup hnodup haligned)]
    intro p hp
    obtain ⟨a, -, rfl⟩ := List.mem_map.mp hp
    rfl
  have hfine : ∀ b ∈ [s₁.tmp] ++ s₁.bpt ++ [s₁.trc, s₁.trcb],
      b.addr ≠ noBpt → 4 ∣ b.addr ∧ b.value < 4294967296 := by
    intro b hb huse'
    have hb' : b ∈ s₁.all := List.perm_middle.symm.mem_iff.mp hb
    have haddr : b.addr ∈ inUse s₁.all := mem_inUse.mpr ⟨List.mem_map_of_mem hb', huse'⟩
    rw [huse] at haddr
    exact ⟨haligned _ haddr, value_storeSlots (hall ▸ hb') huse'⟩
  rw [rmBpts_eq, words_removeSlots hfine]
  refine lift_plant ?_ (fun a => ?_) (fun p hp => hsaved p (hperm.mem_iff.mp hp)) hi
  · rw [(hperm.map _).nodup_iff, htargets]
    exact targets_nodup hnodup haligned
  · rw [(hperm.map _).mem_iff, htargets]

/-! ## §5 Runs -/

/-- What the debugger and the client do. -/
inductive Op where
  | setbp (getRsa : CStr → Option ℕ) (garbage : ℕ) (args : List CStr)
  | clrbp (args : List ClrArg)
  | clrbpts
  | setTmp (tmp : Option ℕ)
  | setTrcbp (adr : ℕ) (stepover : Bool) (insn : Insn)
  | store
  | storeTrace
  | removeTrace
  | rmBpts
  | stopped
  /-- Whatever the client does to its memory. -/
  | client (m : Mem)

/-- One operation, on the slots and the client's memory. -/
def DebugStep (d : Slots × Mem) (op : Op) (d' : Slots × Mem) : Prop :=
  d' = match op with
    | .setbp getRsa garbage args => ((cmdSetbp getRsa garbage args d.1).2, d.2)
    | .clrbp args => (cmdClrbp args d.1, d.2)
    | .clrbpts => (Debug.clrbpts d.1, d.2)
    | .setTmp tmp => (Debug.setTmp tmp d.1, d.2)
    | .setTrcbp adr stepover insn => (Debug.setTrcbp adr stepover insn d.1, d.2)
    | .store => storeBreakpoint d.1 d.2
    | .storeTrace => storeTraceBreakpoint d.1 d.2
    | .removeTrace => removeTraceBreakpoint d.1 d.2
    | .rmBpts => Debug.rmBpts d.1 d.2
    | .stopped => Debug.stopped d.1 d.2
    | .client m => (d.1, m)

/-- Breakpoints are set and instructions are traced at addresses of instructions. -/
def OpAligned : Op → Prop
  | .setbp getRsa garbage args =>
    ∀ adr str, bArgs getRsa args none none = .ok (adr, str) → 4 ∣ adr.getD garbage
  | .setTmp tmp => 4 ∣ tmp.getD noBpt
  | .setTrcbp adr _ insn => insn.Aligned adr
  | _ => True

theorem cmdSetbp_fine {getRsa : CStr → Option ℕ} {garbage : ℕ} {args : List CStr} (h : Fine s)
    (haligned : OpAligned (.setbp getRsa garbage args)) :
    Fine (cmdSetbp getRsa garbage args s).2 := by
  rw [cmdSetbp]
  split
  · exact h
  · split
    · exact h
    · exact setbp_fine h (haligned _ _ ‹_›) _ _

theorem addr_storeSlot (b : Bps) (m : Mem) : (storeSlot b m).1.addr = b.addr := by
  rw [storeSlot]
  split <;> rfl

theorem storeBreakpoint_fine (h : Fine s) (m : Mem) : Fine (storeBreakpoint s m).1 := by
  have hdrop := dropClashes_fine h
  refine ⟨?_, fun a ha => hdrop.aligned a ?_⟩
  · have huse := (words_storeSlots hdrop.aligned_bpt (m := m)).2.2
    exact huse ▸ hdrop.nodup
  · rw [(storeBreakpoint_eq s m).1] at ha
    exact (words_storeSlots hdrop.aligned (m := m)).2.2 ▸ ha

/-- **One operation.** -/
theorem debugStep_fine {d d' : Slots × Mem} {op : Op} (h : Fine d.1) (haligned : OpAligned op)
    (hstep : DebugStep d op d') : Fine d'.1 := by
  subst hstep
  cases op with
  | setbp getRsa garbage args => exact cmdSetbp_fine h haligned
  | clrbp args => exact cmdClrbp_fine args h
  | clrbpts => exact clrbpts_fine h
  | setTmp tmp => exact setTmp_fine h haligned
  | setTrcbp adr stepover insn => exact setTrcbp_fine h stepover haligned
  | store => exact storeBreakpoint_fine h d.2
  | storeTrace =>
    refine h.of_others rfl h.aligned_tmp ?_ ?_
    · exact (addr_storeSlot d.1.trc d.2) ▸ h.aligned_trc
    · exact (addr_storeSlot d.1.trcb _) ▸ h.aligned_trcb
  | removeTrace => exact h.of_others rfl h.aligned_tmp four_dvd_noBpt four_dvd_noBpt
  | rmBpts => exact h.of_others rfl h.aligned_tmp four_dvd_noBpt four_dvd_noBpt
  | stopped => exact h.of_others rfl four_dvd_noBpt h.aligned_trc h.aligned_trcb
  | client m => exact h

end Pmon.Debug
