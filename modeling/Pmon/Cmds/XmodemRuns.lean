import Mathlib.Data.List.Induction
import Pmon.Cmds.Xmodem

/-!
# What the XMODEM receiver has written

`Received` is the invariant of the receiver: the blocks it has taken so far are verified ones,
numbered from 1 on, and its log is what storing them one behind the other gives.

## Key results

- `getData_frame`: what `get_data` leaves in `strXMODEM` are the characters that came in.
- `takeBlock_received`, `xmodemTurn_received`: one turn takes one more block or none.
- `xmodemTransfer_exact`: at every moment the memory holds the blocks taken so far.
-/

namespace Pmon.Cmds

open Pmon.Lib

variable {base i j count : ℕ} {s s' : XmodemState} {str str' : Mem} {events : List LineEvent}
  {schedule : List (List LineEvent)} {got : List UInt8} {blocks : List (List UInt8)} {m : Mem}

/-! ## §1 The log -/

/-- The blocks that were stored, with their places. -/
def stores (log : List Act) : List (ℕ × List UInt8) :=
  log.filterMap fun
    | .store dst data => some (dst, data)
    | .putchar _ => none

/-- The memory after the actions of a log. -/
def memOf (m : Mem) (log : List Act) : Mem :=
  (stores log).foldl (fun m (dst, data) => m.storeMod dst data) m

/-- The data of a block: `Xdata`. -/
def payload (block : List UInt8) : List UInt8 := (block.drop 3).take blocksize

/-- Block number `n` came in whole: start, number, complement and CRC are right. -/
structure Verified (n : ℕ) (block : List UInt8) : Prop where
  length_eq : block.length = blocksize + 5
  start : block[0]? = some xmodemSoh
  number : block[1]? = some (UInt8.ofNat n)
  complement : block[2]? = some (~~~UInt8.ofNat n)
  crc : ∃ hi lo, block[131]? = some hi ∧ block[132]? = some lo ∧
    (calcrc (payload block)).toNat = hi.toNat * 256 + lo.toNat

/-- Storing blocks one behind the other from `base` on. -/
def storesOf (base : ℕ) (blocks : List (List UInt8)) : List (ℕ × List UInt8) :=
  blocks.mapIdx fun k block => ((base + 128 * k) % 4294967296, payload block)

theorem length_payload {n : ℕ} (h : Verified n got) : (payload got).length = 128 := by
  rw [payload, List.length_take, List.length_drop, h.length_eq]
  rfl

theorem take_storesOf {n : ℕ} : (storesOf base blocks).take n = storesOf base (blocks.take n) := by
  refine List.ext_getElem? fun k => ?_
  simp only [storesOf, List.getElem?_take, List.getElem?_mapIdx]
  split <;> rfl

/-- **Storing block by block** is storing everything in one piece. -/
theorem foldl_storesOf (hlen : ∀ block ∈ blocks, (payload block).length = 128) :
    (storesOf base blocks).foldl (fun m (dst, data) => m.storeMod dst data) m =
      m.storeMod base (blocks.flatMap payload) := by
  induction blocks using List.reverseRecOn with
  | nil => rfl
  | append_singleton blocks block ih =>
    have hlen' : ∀ block ∈ blocks, (payload block).length = 128 := fun b hb =>
      hlen b (List.mem_append_left _ hb)
    have htotal : (blocks.flatMap payload).length = 128 * blocks.length := by
      rw [List.length_flatMap, List.map_congr_left hlen', List.map_const', List.sum_replicate_nat,
        Nat.mul_comm]
    rw [storesOf, List.mapIdx_concat, List.foldl_append, List.flatMap_append, List.flatMap_singleton]
    change Mem.storeMod ((storesOf base blocks).foldl _ m) _ _ = _
    rw [ih hlen', Mem.storeMod_append, htotal]
    exact Mem.storeMod_congr (Nat.mod_mod _ _)

/-! ## §2 One block -/

/-- The characters among the events. -/
def chars (events : List LineEvent) : List UInt8 :=
  events.filterMap fun
    | .char c => some c
    | .timeout => none

/-- **What `get_data` leaves behind**: the characters that came in, at most 133. -/
theorem getData_frame {len : ℕ} (hgot : str.Holds 0 got) (hi : got.length = i) (hle : i ≤ len)
    (h : getData len events i count str = some (j, str')) :
    ∃ more, more <+: chars events ∧ str'.Holds 0 (got ++ more) ∧ (got ++ more).length = j ∧
      j ≤ len := by
  induction events generalizing i count str got with
  | nil =>
    simp only [getData] at h
    split at h
    · cases h
      exact ⟨[], List.nil_prefix, by simpa using hgot, by simpa using hi, hle⟩
    · cases h
  | cons event events ih =>
    rw [getData.eq_def] at h
    dsimp only at h
    split at h
    · cases h
      exact ⟨[], List.nil_prefix, by simpa using hgot, by simpa using hi, hle⟩
    · cases event with
      | char c =>
        have hput : (str.put i c).Holds 0 (got ++ [c]) := by
          rw [Mem.holds_append]
          refine ⟨(Mem.holds_put_of_not_mem (Or.inr (by omega))).mpr hgot, ?_, trivial⟩
          rw [hi, Nat.zero_add, Mem.put_self]
        obtain ⟨more, hpre, hholds, hlen, hj⟩ := ih hput (by simp [hi]) (by omega) h
        exact ⟨c :: more, List.cons_prefix_cons.mpr ⟨rfl, hpre⟩, by simpa using hholds,
          by simpa using hlen, hj⟩
      | timeout =>
        dsimp only at h
        split at h
        · cases h
          exact ⟨[], List.nil_prefix, by simpa using hgot, by simpa using hi, hle⟩
        · exact ih hgot hi hle h

/-- The frame of one call of `get_data`. -/
def frame (events : List LineEvent) : List UInt8 := (chars events).take (blocksize + 5)

theorem getData_full (h : getData (blocksize + 5) events 0 1 str = some (j, str'))
    (hj : blocksize + 5 ≤ j) :
    str'.Holds 0 (frame events) ∧ (frame events).length = blocksize + 5 := by
  obtain ⟨more, hpre, hholds, hlen, hle⟩ :=
    getData_frame Mem.holds_nil rfl (Nat.zero_le _) h
  rw [List.nil_append] at hholds hlen
  have hmore : frame events = more := by
    rw [frame, show blocksize + 5 = more.length by omega]
    exact (List.prefix_iff_eq_take.mp hpre).symm
  rw [hmore]
  exact ⟨hholds, by omega⟩

theorem getData_head (h : getData (blocksize + 5) events 0 1 str = some (j, str')) (hj : j ≠ 0) :
    (chars events).head? = some (str' 0) := by
  obtain ⟨more, ⟨rest, hpre⟩, hholds, hlen, -⟩ :=
    getData_frame Mem.holds_nil rfl (Nat.zero_le _) h
  cases more with
  | nil => exact absurd hlen.symm hj
  | cons c more =>
    rw [← hpre, List.cons_append, List.head?_cons, hholds.1]

/-! ## §3 The receiver's invariant -/

/-- Every acknowledgement directly follows a store. -/
def Acked (log : List Act) : Prop :=
  ∀ l, l ++ [.putchar xmodemAck] <+: log → ∃ l' dst data, l = l' ++ [.store dst data]

/-- The receiver has taken the blocks `blocks` out of the frames `seen`. -/
structure Received (base : ℕ) (seen blocks : List (List UInt8)) (s : XmodemState) : Prop where
  filesize_eq : s.filesize = 128 * blocks.length % 4294967296
  blockCount_eq : s.blockCount = UInt8.ofNat (blocks.length + 1)
  verified : ∀ k block, blocks[k]? = some block → Verified (k + 1) block
  sublist : blocks.Sublist seen
  stores_eq : stores s.log = storesOf base blocks
  acked : Acked s.log

theorem Acked.putchar {log : List Act} {c : UInt8} (h : Acked log) (hc : c ≠ xmodemAck) :
    Acked (log ++ [.putchar c]) := by
  intro l hl
  rcases List.prefix_concat_iff.mp hl with heq | hl
  · obtain ⟨-, heq⟩ := List.append_inj' heq rfl
    exact absurd (by injection heq with heq; injection heq with heq; exact heq.symm) hc
  · exact h l hl

theorem Acked.store {log : List Act} {dst : ℕ} {data : List UInt8} (h : Acked log) :
    Acked (log ++ [.store dst data, .putchar xmodemAck]) := by
  intro l hl
  rw [show log ++ [.store dst data, .putchar xmodemAck] =
    (log ++ [.store dst data]) ++ [.putchar xmodemAck] by simp] at hl
  rcases List.prefix_concat_iff.mp hl with heq | hl
  · exact ⟨log, dst, data, (List.append_inj' heq rfl).1⟩
  · rcases List.prefix_concat_iff.mp hl with heq | hl
    · exact absurd (List.append_inj' heq rfl).2 (by simp)
    · exact h l hl

theorem stores_append {log log' : List Act} :
    stores (log ++ log') = stores log ++ stores log' := List.filterMap_append

variable {seen : List (List UInt8)}

theorem Received.putchar {c : UInt8} (h : Received base seen blocks s) (hc : c ≠ xmodemAck) :
    Received base seen blocks (s.putchar c) :=
  { h with
    stores_eq := by
      rw [XmodemState.putchar, stores_append, h.stores_eq]
      exact List.append_nil _
    acked := h.acked.putchar hc }

theorem Received.skip (h : Received base seen blocks s) :
    Received base (seen ++ [got]) blocks s :=
  { h with sublist := h.sublist.trans (List.sublist_append_left seen [got]) }

/-- **Taking a block**: it is stored behind the others if it verifies, else nothing happens. -/
theorem takeBlock_received (h : Received base seen blocks s) (hgot : s.str.Holds 0 got)
    (hlen : got.length = blocksize + 5) (hsoh : s.str 0 = xmodemSoh) :
    ∃ blocks', Received base (seen ++ [got]) blocks' (takeBlock base s) := by
  have hnak : Received base (seen ++ [got]) blocks (s.putchar xmodemNak) :=
    (h.putchar (by decide)).skip
  have hat : ∀ i, i < blocksize + 5 → got[i]? = some (s.str i) := by
    intro i hi
    rw [List.getElem?_eq_getElem (by omega), ← hgot.getElem (by omega), Nat.zero_add]
  unfold takeBlock
  dsimp only
  split
  · exact ⟨blocks, hnak⟩
  split
  · exact ⟨blocks, hnak⟩
  split
  · exact ⟨blocks, hnak⟩
  rename_i hno hcompl hcrc
  have hdata : payload got = s.str.slice 3 blocksize := by
    have := hgot.slice_drop (i := 3) (n := blocksize) (by omega)
    rw [payload, ← this, Nat.zero_add]
  have hverified : Verified (blocks.length + 1) got :=
    { length_eq := hlen
      start := by rw [hat 0 (by decide), hsoh]
      number := by rw [hat 1 (by decide), ← not_ne_iff.mp hno, h.blockCount_eq]
      complement := by
        rw [hat 2 (by decide), ← h.blockCount_eq, not_ne_iff.mp hcompl, UInt8.not_not]
      crc := ⟨s.str 131, s.str 132, hat 131 (by decide), hat 132 (by decide), by
        rw [hdata, not_ne_iff.mp hcrc]⟩ }
  refine ⟨blocks ++ [got], ?_, ?_, ?_, h.sublist.append (List.Sublist.refl [got]), ?_,
    h.acked.store⟩
  · change (s.filesize + 128) % 4294967296 = 128 * (blocks ++ [got]).length % 4294967296
    rw [h.filesize_eq, List.length_append, List.length_singleton]
    omega
  · change s.blockCount + 1 = UInt8.ofNat ((blocks ++ [got]).length + 1)
    rw [h.blockCount_eq, List.length_append, List.length_singleton,
      UInt8.ofNat_add (blocks.length + 1) 1]
    rfl
  · intro k block hk
    rcases Nat.lt_trichotomy k blocks.length with hlt | rfl | hgt
    · exact h.verified k block (by rwa [List.getElem?_append_left hlt] at hk)
    · rw [List.getElem?_concat_length] at hk
      cases hk
      exact hverified
    · rw [List.getElem?_eq_none (by simp; omega)] at hk
      cases hk
  · rw [stores_append, h.stores_eq, storesOf, storesOf, List.mapIdx_concat, hdata, h.filesize_eq]
    congr 2
    simp only [stores, List.filterMap_cons, List.filterMap_nil]
    congr 2
    omega

/-! ## §4 The whole transfer -/

theorem xmodemTurn_received (h : Received base seen blocks s)
    (hturn : xmodemTurn base events s = some (true, s')) :
    ∃ blocks', Received base (seen ++ [frame events]) blocks' s' := by
  rw [xmodemTurn] at hturn
  cases hget : getData (blocksize + 5) events 0 1 s.str with
  | none => rw [hget] at hturn; cases hturn
  | some got =>
    obtain ⟨i, str⟩ := got
    rw [hget] at hturn
    have hstr : Received base seen blocks { s with str } := { h with }
    have hnak : Received base (seen ++ [frame events]) blocks
        (XmodemState.putchar { s with str } xmodemNak) := (hstr.putchar (by decide)).skip
    dsimp only at hturn
    split at hturn
    · cases hturn
    split at hturn
    · rename_i hsoh
      split at hturn
      · rename_i hfull
        cases hturn
        obtain ⟨hholds, hlen⟩ := getData_full hget hfull
        exact takeBlock_received hstr hholds hlen hsoh
      · cases hturn
        exact ⟨blocks, hnak⟩
    split at hturn
    · cases hturn
    split at hturn
    · cases hturn
    · cases hturn
      exact ⟨blocks, hnak⟩

/-- The transfer ended at these events with an `EOT` or a `CAN`. -/
def Ends (events : List LineEvent) : Prop :=
  (chars events).head? = some xmodemEot ∨ (chars events).head? = some xmodemCan

theorem xmodemTurn_end (h : Received base seen blocks s)
    (hturn : xmodemTurn base events s = some (false, s')) :
    ∃ s₁, Received base seen blocks s₁ ∧
      (s' = s₁ ∨ s' = s₁.putchar xmodemAck ∧ Ends events) := by
  rw [xmodemTurn] at hturn
  cases hget : getData (blocksize + 5) events 0 1 s.str with
  | none => rw [hget] at hturn; cases hturn
  | some got =>
    obtain ⟨i, str⟩ := got
    rw [hget] at hturn
    refine ⟨{ s with str }, { h with }, ?_⟩
    dsimp only at hturn
    split at hturn
    · cases hturn
      exact Or.inl rfl
    rename_i hi
    have hhead := getData_head hget hi
    split at hturn
    · split at hturn <;> cases hturn
    split at hturn
    · rename_i heot
      cases hturn
      exact Or.inr ⟨rfl, Or.inl (by rw [hhead, heot])⟩
    split at hturn
    · rename_i hcan
      cases hturn
      exact Or.inr ⟨rfl, Or.inr (by rw [hhead, hcan])⟩
    · cases hturn

theorem xmodemLoop_received (h : Received base seen blocks s) :
    ∃ blocks' s₁, Received base (seen ++ schedule.map frame) blocks' s₁ ∧
      (xmodemLoop base schedule s = s₁ ∨
        xmodemLoop base schedule s = s₁.putchar xmodemAck ∧
          ∃ events ∈ schedule, Ends events) := by
  induction schedule generalizing seen blocks s with
  | nil => exact ⟨blocks, s, by simpa using h, Or.inl rfl⟩
  | cons events schedule ih =>
    have hskip : ∀ {s₁}, Received base seen blocks s₁ →
        Received base (seen ++ (events :: schedule).map frame) blocks s₁ := fun h =>
      { h with sublist := h.sublist.trans (List.sublist_append_left ..) }
    rw [xmodemLoop]
    cases hturn : xmodemTurn base events s with
    | none => exact ⟨blocks, s, hskip h, Or.inl rfl⟩
    | some r =>
      obtain ⟨_ | _, s'⟩ := r
      · obtain ⟨s₁, hs₁, rfl | ⟨rfl, hends⟩⟩ := xmodemTurn_end h hturn
        · exact ⟨blocks, s', hskip hs₁, Or.inl rfl⟩
        · exact ⟨blocks, s₁, hskip hs₁, Or.inr ⟨rfl, events, List.mem_cons_self, hends⟩⟩
      · obtain ⟨blocks', hs'⟩ := xmodemTurn_received h hturn
        obtain ⟨blocks'', s₁, hs₁, hrun⟩ := ih hs'
        refine ⟨blocks'', s₁, by simpa using hs₁, hrun.imp id fun ⟨heq, e, he, hends⟩ => ?_⟩
        exact ⟨heq, e, List.mem_cons_of_mem _ he, hends⟩

theorem received_start {waits : ℕ} :
    Received base [] []
      { str, filesize := 0, blockCount := 1,
        log := List.replicate (waits + 1) (.putchar xmodemWaitChar) } := by
  have hstores : stores (List.replicate (waits + 1) (.putchar xmodemWaitChar)) = [] := by
    rw [stores, List.filterMap_eq_nil_iff]
    intro act hact
    rw [List.eq_of_mem_replicate hact]
  refine ⟨rfl, rfl, ?_, List.Sublist.refl [], hstores, ?_⟩
  · intro k block hk
    cases hk
  · intro l hl
    have hmem : Act.putchar xmodemAck ∈ l ++ [.putchar xmodemAck] := by simp
    have heq := List.eq_of_mem_replicate (hl.subset hmem)
    exact absurd (by injection heq) (by decide : xmodemAck ≠ xmodemWaitChar)

/-- At every moment of a transfer, the memory holds the first of the blocks. -/
theorem Received.memOf_prefix {l : List Act} (h : Received base seen blocks s)
    (hl : stores l <+: stores s.log) :
    memOf m l = m.storeMod base ((blocks.take (stores l).length).flatMap payload) := by
  have hstores : stores l = storesOf base (blocks.take (stores l).length) := by
    have htake := List.prefix_iff_eq_take.mp hl
    rw [h.stores_eq, take_storesOf] at htake
    exact htake
  rw [memOf]
  conv_lhs => rw [hstores]
  refine foldl_storesOf fun block hblock => ?_
  obtain ⟨k, hk, hget⟩ := List.mem_iff_getElem.mp (List.mem_of_mem_take hblock)
  exact length_payload (h.verified k block (by rw [List.getElem?_eq_getElem hk, hget]))

/-- **The XMODEM receiver.**  Whatever comes in, there are verified blocks with the numbers 1, 2, 3
and so on among the frames that came in, such that at every moment of the transfer the memory is
the original one with the data of the first of them from `base` on, as many as were stored by
then.  Each acknowledgement directly follows a store, apart from the one that ends the transfer
after an `EOT` or a `CAN`. -/
theorem xmodemTransfer_exact (m : Mem) (base : ℕ) (str : Mem) (waits : ℕ)
    (schedule : List (List LineEvent)) :
    ∃ blocks : List (List UInt8),
      (∀ k block, blocks[k]? = some block → Verified (k + 1) block) ∧
      blocks.Sublist (schedule.map frame) ∧
      (∀ l, l <+: (xmodemTransfer base str waits schedule).log →
        memOf m l = m.storeMod base ((blocks.take (stores l).length).flatMap payload)) ∧
      ∀ l, l ++ [.putchar xmodemAck] <+: (xmodemTransfer base str waits schedule).log →
        (∃ l' dst data, l = l' ++ [.store dst data]) ∨
        (l ++ [.putchar xmodemAck] = (xmodemTransfer base str waits schedule).log ∧
          ∃ events ∈ schedule, Ends events) := by
  have hstart : Received base [] []
      { str, filesize := 0, blockCount := 1,
        log := List.replicate (waits + 1) (.putchar xmodemWaitChar) } := received_start
  obtain ⟨blocks, s, h, hrun⟩ := xmodemLoop_received hstart
  rw [List.nil_append] at h
  refine ⟨blocks, h.verified, h.sublist, ?_⟩
  rw [xmodemTransfer]
  rcases hrun with heq | ⟨heq, hends⟩
  · rw [heq]
    refine ⟨fun l hl => h.memOf_prefix (hl.filterMap _), fun l hl => Or.inl (h.acked l hl)⟩
  · rw [heq]
    have hlog : stores (s.putchar xmodemAck).log = stores s.log := by
      rw [XmodemState.putchar, stores_append]
      exact List.append_nil _
    refine ⟨fun l hl => h.memOf_prefix (by rw [← hlog]; exact hl.filterMap _), fun l hl => ?_⟩
    rcases List.prefix_concat_iff.mp hl with hlast | hl
    · exact Or.inr ⟨hlast, hends⟩
    · exact Or.inl (h.acked l hl)

end Pmon.Cmds
