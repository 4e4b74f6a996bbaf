import Pmon.Debug.BreakpointRuns
import Pmon.Lib.Ledger
import Pmon.Lib.Run

/-!
# Command strings of breakpoints

The strings of `b -s` on the heap: `cmd_setbp`, `cmd_clrbp` and `clrbpts` over the slots of
`Pmon.Debug.Breakpoints`, with the pointers that the slots hold and a ledger of what is allocated
and freed.  None of the functions clears a pointer that it has freed.

## Key results

- `cmdstrs_exact`: in a run each string is freed once, by the slot that owns it, exactly when no
  operation frees what slots that are not in use point to while one of these pointers is stale.
-/

namespace Pmon.Debug

open Pmon.Lib Pmon.Libc Pmon.Lib.Entry

/-! ## §1 Slots and strings -/

/-- Allocators of strings; the state of everything else is `W`.  A block is none that has an
    owner. -/
structure StrMalloc (W : Type*) where
  run : W → List (Entry ℕ ℕ) → ℕ → Option ℕ
  fresh : ∀ w log len p, run w log len = some p → ∀ o, ¬ Owned log o p

/-- The slots, the pointers `Bpt[i].cmdstr`, and what has become of the strings. -/
structure CmdHeap where
  slots : Slots
  ptr : ℕ → Option ℕ
  log : List (Entry ℕ ℕ)

/-- What it is at the start. -/
def CmdHeap.start : CmdHeap := ⟨noSlots, fun _ => none, []⟩

/-- `Bpt[i].addr`. -/
def CmdHeap.addrAt (s : CmdHeap) (i : ℕ) : ℕ := (s.slots.bpt[i]?).elim noBpt Bps.addr

/-- The slots of some kind that hold a pointer, with it. -/
def CmdHeap.holders (s : CmdHeap) (kind : ℕ → Bool) : List (ℕ × ℕ) :=
  (List.range maxBpt).filterMap fun i => if kind i then (s.ptr i).map (i, ·) else none

/-! ## §2 Operations -/

/-- `cmd_setbp` behind its arguments.  Its loop frees the strings of the slots at the address. -/
def setbpStr {W : Type*} (malloc : StrMalloc W) (w : W) (adr : ℕ) (str : Option CStr)
    (notSpecified : Bool) (s : CmdHeap) : CmdHeap :=
  let log := s.log ++ freeEach (s.holders fun i => s.addrAt i = adr)
  match setbp s.slots adr str notSpecified with
  | (.set slot _ _ _ _, slots) =>
    match str with
    | some str =>
      match malloc.run w log (str.length + 1) with
      | some p => ⟨slots, Function.update s.ptr slot (some p), log ++ [.alloc slot p]⟩
      | none => ⟨slots, Function.update s.ptr slot none, log⟩
    | none => ⟨slots, Function.update s.ptr slot none, log⟩
  | (_, slots) => ⟨slots, s.ptr, log⟩

/-- `cmd_setbp`. -/
def cmdSetbpStr {W : Type*} (getRsa : CStr → Option ℕ) (malloc : StrMalloc W) (w : W)
    (garbage : ℕ) (args : List CStr) (s : CmdHeap) : CmdHeap :=
  if args = [] then
    s
  else
    match bArgs getRsa args none none with
    | .error _ => s
    | .ok (adr, str) => setbpStr malloc w (adr.getD garbage) str adr.isNone s

/-- `clrbpts`. -/
def clrbptsStr (s : CmdHeap) : CmdHeap :=
  ⟨clrbpts s.slots, s.ptr, s.log ++ freeEach (s.holders fun _ => true)⟩

/-- `cmd_clrbp` on one number. -/
def clrbpStr (i : ℕ) (s : CmdHeap) : CmdHeap :=
  ⟨cmdClrbp [.number i] s.slots, s.ptr,
    s.log ++ freeEach (s.holders fun j => j = i ∧ s.addrAt j ≠ noBpt)⟩

/-- `cmd_clrbp` on a number that is negative as an `int32_t`: the words before the slots are taken
    for a slot, of the address `addr` and the pointer `ptr`. -/
def clrbpOutside (addr : ℕ) (ptr : Option ℕ) (s : CmdHeap) : CmdHeap :=
  match ptr with
  | none => s
  | some p => if addr = noBpt then s else { s with log := s.log ++ [.free none p] }

/-- From the start of the client to the breakpoint that it reaches: memory is `m` before and `m'`
    after.  The string of the slot is run as a command, by steps of its own. -/
def hitStr (tmp : Option ℕ) (m m' : Mem) (s : CmdHeap) : CmdHeap :=
  { s with slots := (stopped (storeBreakpoint (setTmp tmp s.slots) m).1 m').1 }

/-! ## §3 Runs -/

/-- Operations; a `db` of several arguments is one for each. -/
inductive CmdOp (W : Type*) where
  | setbp (w : W) (garbage : ℕ) (args : List CStr)
  | clear (i : ℕ)
  | clearOutside (addr : ℕ) (ptr : Option ℕ)
  | clearAll
  | load (bflag : Bool)
  | hit (tmp : Option ℕ) (m m' : Mem)

variable {W : Type*} {getRsa : CStr → Option ℕ} {malloc : StrMalloc W} {s : CmdHeap}

def cmdNext (getRsa : CStr → Option ℕ) (malloc : StrMalloc W) (s : CmdHeap) : CmdOp W → CmdHeap
  | .setbp w garbage args => cmdSetbpStr getRsa malloc w garbage args s
  | .clear i => clrbpStr i s
  | .clearOutside addr ptr => clrbpOutside addr ptr s
  | .clearAll => clrbptsStr s
  | .load bflag => if bflag then s else clrbptsStr s
  | .hit tmp m m' => hitStr tmp m m' s

/-- After an operation each string has been freed by the slot that owned it. -/
def FreedRight (getRsa : CStr → Option ℕ) (malloc : StrMalloc W) (s : CmdHeap) (op : CmdOp W) :
    Prop :=
  Right (cmdNext getRsa malloc s op).log

/-- No slot that is not in use points to a string that it does not own. -/
def NoStale (s : CmdHeap) : Prop :=
  ∀ i p, i < maxBpt → s.addrAt i = noBpt → s.ptr i = some p → Owned s.log i p

/-- **When an operation keeps it so.**  Slots that are not in use are looked at by those that clear
    all, and by `b` at the address 0, which stands for no breakpoint. -/
def CmdOk (getRsa : CStr → Option ℕ) (s : CmdHeap) : CmdOp W → Prop
  | .setbp _ garbage args => ∀ adr str, args ≠ [] → bArgs getRsa args none none = .ok (adr, str) →
      adr.getD garbage = noBpt → NoStale s
  | .clear _ => True
  | .clearOutside addr ptr => addr = noBpt ∨ ptr = none
  | .clearAll => NoStale s
  | .load bflag => bflag = false → NoStale s
  | .hit _ _ _ => True

/-! ## §4 What is freed -/

theorem mem_holders {kind : ℕ → Bool} {x : ℕ × ℕ} :
    x ∈ s.holders kind ↔ x.1 < maxBpt ∧ kind x.1 ∧ s.ptr x.1 = some x.2 := by
  obtain ⟨i, p⟩ := x
  simp only [CmdHeap.holders, List.mem_filterMap, List.mem_range]
  constructor
  · rintro ⟨j, hj, h⟩
    split at h
    · rename_i hkind
      obtain ⟨q, hq, heq⟩ := Option.map_eq_some_iff.mp h
      cases heq
      exact ⟨hj, hkind, hq⟩
    · simp at h
  · rintro ⟨hi, hkind, hp⟩
    exact ⟨i, hi, by simp [hkind, hp]⟩

theorem nodup_holders (s : CmdHeap) (kind : ℕ → Bool) :
    ((s.holders kind).map Prod.fst).Nodup := by
  rw [CmdHeap.holders, List.map_filterMap]
  apply List.Nodup.filterMap _ List.nodup_range
  intro i j k hi hj
  have hfst : ∀ i, k ∈ (if kind i then (s.ptr i).map (i, ·) else none).map Prod.fst → k = i := by
    intro i hi
    split at hi
    · cases hp : s.ptr i with
      | none => simp [hp] at hi
      | some p => simpa [hp, eq_comm] using hi
    · simp at hi
  rw [← hfst i hi, ← hfst j hj]

/-- **What is kept**: a slot in use owns the string it points to. -/
structure CmdInv (s : CmdHeap) : Prop where
  right : Right s.log
  owns : ∀ i p, s.addrAt i ≠ noBpt → s.ptr i = some p → Owned s.log i p

theorem addrAt_lt {i : ℕ} (h : s.addrAt i ≠ noBpt) : i < maxBpt := by
  by_contra hge
  apply h
  have hnone : s.slots.bpt[i]? = none := by
    rw [List.getElem?_eq_none_iff, s.slots.length_bpt]
    omega
  simp [CmdHeap.addrAt, hnone]

/-- Slots of a kind are freed right exactly when those of them that are not in use own what they
    point to. -/
theorem CmdInv.right_free (h : CmdInv s) (kind : ℕ → Bool) :
    Right (s.log ++ freeEach (s.holders kind)) ↔
      ∀ i p, i < maxBpt → kind i → s.addrAt i = noBpt → s.ptr i = some p → Owned s.log i p := by
  rw [right_freeEach (nodup_holders s kind)]
  constructor
  · rintro ⟨-, hall⟩ i p hi hkind _ hp
    exact hall (i, p) (mem_holders.mpr ⟨hi, hkind, hp⟩)
  · intro hall
    refine ⟨h.right, ?_⟩
    intro x hx
    obtain ⟨hi, hkind, hp⟩ := mem_holders.mp hx
    by_cases haddr : s.addrAt x.1 = noBpt
    · exact hall x.1 x.2 hi hkind haddr hp
    · exact h.owns x.1 x.2 haddr hp

/-- The strings of the other slots stay owned. -/
theorem CmdInv.owns_free (h : CmdInv s) {kind : ℕ → Bool}
    (hright : Right (s.log ++ freeEach (s.holders kind))) {i p : ℕ} (hkind : ¬ kind i)
    (haddr : s.addrAt i ≠ noBpt) (hp : s.ptr i = some p) :
    Owned (s.log ++ freeEach (s.holders kind)) i p := by
  apply (owned_freeEach (nodup_holders s kind) _ _).mpr (h.owns i p haddr hp)
  · exact ((right_freeEach (nodup_holders s kind)).mp hright).2
  · intro hmem
    obtain ⟨x, hx, rfl⟩ := List.mem_map.mp hmem
    exact hkind (mem_holders.mp hx).2.1

/-! ## §5 Addresses -/

theorem findSlot_fst (adr j i : ℕ) (bs : List Bps) :
    (findSlot adr j bs i).1 = bs.map fun b => if b.addr = adr then b.free else b := by
  induction bs generalizing j i with
  | nil => rfl
  | cons b bs ih =>
    by_cases haddr : b.addr = adr
    · simp [findSlot, haddr, ih]
    · simp [findSlot, haddr, ih]

/-- A slot that the loop leaves in use was so before, at another address. -/
theorem addr_freed {adr i : ℕ}
    (h : ((findSlot adr 0 s.slots.bpt maxBpt).1[i]?).elim noBpt Bps.addr ≠ noBpt) :
    s.addrAt i ≠ adr ∧ s.addrAt i ≠ noBpt := by
  rw [findSlot_fst, List.getElem?_map] at h
  rcases hget : s.slots.bpt[i]? with _ | b
  · simp [hget] at h
  · simp only [CmdHeap.addrAt, hget, Option.elim_some, Option.map_some] at h ⊢
    by_cases haddr : b.addr = adr
    · simp [haddr, Bps.free] at h
    · rw [if_neg haddr] at h
      exact ⟨haddr, h⟩

/-- The slots that `b` leaves in use. -/
theorem addrAt_setbp (adr : ℕ) (str : Option CStr) (notSpecified : Bool) (i : ℕ)
    (hi : ((setbp s.slots adr str notSpecified).2.bpt[i]?).elim noBpt Bps.addr ≠ noBpt) :
    (∃ adr' u str' n, (setbp s.slots adr str notSpecified).1 = .set i adr' u str' n) ∨
      (s.addrAt i ≠ adr ∧ s.addrAt i ≠ noBpt) := by
  unfold setbp at hi ⊢
  dsimp only at hi ⊢
  split at hi
  · exact .inr (addr_freed hi)
  · rename_i hfound
    rw [if_neg hfound]
    by_cases hslot : (findSlot adr 0 s.slots.bpt maxBpt).2 = i
    · subst hslot
      exact .inl ⟨_, _, _, _, rfl⟩
    · right
      apply addr_freed
      dsimp only at hi
      rwa [List.getElem?_modify_ne _ _ hslot] at hi

theorem addrAt_clrbpts (s : Slots) (i : ℕ) :
    ((clrbpts s).bpt[i]?).elim noBpt Bps.addr = noBpt := by
  simp only [clrbpts, List.getElem?_map]
  cases s.bpt[i]? <;> rfl

theorem addrAt_clrbp (i j : ℕ) (hj : (clrbpStr i s).addrAt j ≠ noBpt) :
    j ≠ i ∧ s.addrAt j ≠ noBpt := by
  simp only [CmdHeap.addrAt, clrbpStr, cmdClrbp] at hj ⊢
  by_cases hij : i = j
  · subst hij
    cases hget : s.slots.bpt[i]? with
    | none => simp [hget] at hj
    | some b => simp [hget, Bps.free] at hj
  · rw [List.getElem?_modify_ne _ _ hij] at hj
    exact ⟨Ne.symm hij, hj⟩

theorem addr_storeSlots (bs : List Bps) (m : Mem) :
    (storeSlots bs m).1.map Bps.addr = bs.map Bps.addr := by
  induction bs generalizing m with
  | nil => rfl
  | cons b bs ih =>
    simp only [storeSlots, List.map_cons, ih, addr_storeSlot]

theorem addrAt_hit (tmp : Option ℕ) (m m' : Mem) (i : ℕ) :
    (hitStr tmp m m' s).addrAt i = s.addrAt i := by
  have hbpt : (hitStr tmp m m' s).slots.bpt.map Bps.addr = s.slots.bpt.map Bps.addr := by
    change (storeSlots (dropClashes (setTmp tmp s.slots)).bpt m).1.map Bps.addr = _
    rw [addr_storeSlots, (dropClashes_left _).1]
    rfl
  have hmap : ∀ bs : List Bps,
      (bs[i]?).elim noBpt Bps.addr = ((bs.map Bps.addr)[i]?).getD noBpt := by
    intro bs
    rw [List.getElem?_map]
    cases bs[i]? <;> rfl
  simp only [CmdHeap.addrAt, hmap, hbpt]

/-! ## §6 Every operation -/

theorem cmdInv_start : CmdInv .start where
  right := right_nil
  owns := by simp [CmdHeap.start]

variable (malloc) in
/-- The strings of the kind of slots that `b` looks for. -/
theorem CmdInv.setbpStr_iff (h : CmdInv s) (w : W) (adr : ℕ) (str : Option CStr)
    (notSpecified : Bool) :
    (Right (setbpStr malloc w adr str notSpecified s).log ↔ (adr = noBpt → NoStale s)) ∧
      (Right (setbpStr malloc w adr str notSpecified s).log →
        CmdInv (setbpStr malloc w adr str notSpecified s)) := by
  have hfree : Right (s.log ++ freeEach (s.holders fun i => s.addrAt i = adr)) ↔
      (adr = noBpt → NoStale s) := by
    rw [h.right_free]
    constructor
    · rintro hall rfl i p hi haddr hp
      exact hall i p hi (by simp [haddr]) haddr hp
    · intro hstale i p hi hkind haddr hp
      have hadr : s.addrAt i = adr := by simpa using hkind
      exact hstale (hadr.symm.trans haddr) i p hi haddr hp
  -- the slots that were in use and are not looked for
  have hothers : Right (s.log ++ freeEach (s.holders fun i => s.addrAt i = adr)) →
      ∀ i p, s.addrAt i ≠ adr ∧ s.addrAt i ≠ noBpt → s.ptr i = some p →
        Owned (s.log ++ freeEach (s.holders fun i => s.addrAt i = adr)) i p := by
    intro hright i p haddr hp
    exact h.owns_free hright (by simpa using haddr.1) haddr.2 hp
  have hslots := addrAt_setbp (s := s) adr str notSpecified
  unfold setbpStr
  generalize s.log ++ freeEach (s.holders fun i => s.addrAt i = adr) = log at hfree hothers
  rcases hset : setbp s.slots adr str notSpecified with ⟨reply, slots⟩
  rw [hset] at hslots
  dsimp only at hslots ⊢
  -- the pointer of the slot that is set is null, or to a new string
  have hnull : ∀ slot adr' u str' n, reply = .set slot adr' u str' n →
      (Right log ↔ (adr = noBpt → NoStale s)) ∧
        (Right log → CmdInv ⟨slots, Function.update s.ptr slot none, log⟩) := by
    rintro slot adr' u str' n rfl
    refine ⟨hfree, fun hright => ⟨hright, ?_⟩⟩
    intro i p haddr hp
    by_cases hi : i = slot
    · subst hi
      simp at hp
    · dsimp only at hp
      rw [Function.update_of_ne hi] at hp
      rcases hslots i haddr with ⟨_, _, _, _, heq⟩ | hold
      · cases heq
        exact absurd rfl hi
      · exact hothers hright i p hold hp
  split
  · rename_i slot adr' u str' n slots' heq
    cases heq
    split
    · split
      · rename_i p hp
        have hfresh := malloc.fresh _ _ _ _ hp
        refine ⟨by simp [right_concat, Due, hfree], fun hright => ⟨hright, ?_⟩⟩
        rw [right_concat] at hright
        intro i q haddr hq
        by_cases hi : i = slot
        · subst hi
          obtain rfl : p = q := by simpa using hq
          exact owned_concat_alloc.mpr rfl
        · dsimp only at hq
          rw [Function.update_of_ne hi] at hq
          rcases hslots i haddr with ⟨_, _, _, _, heq⟩ | hold
          · cases heq
            exact absurd rfl hi
          · have howned := hothers hright.1 i q hold hq
            apply (owned_concat_ne _).mpr howned
            rintro rfl
            exact hfresh i howned
      · exact hnull slot adr' u str' n rfl
    · exact hnull slot adr' u str' n rfl
  · rename_i hnotSet heq
    cases heq
    refine ⟨hfree, fun hright => ⟨hright, ?_⟩⟩
    intro i p haddr hp
    rcases hslots i haddr with ⟨adr', u, str', n, heq⟩ | hold
    · exact (hnotSet _ _ _ _ _ heq).elim
    · exact hothers hright i p hold hp

theorem CmdInv.clrbptsStr_iff (h : CmdInv s) :
    (Right (clrbptsStr s).log ↔ NoStale s) ∧
      (Right (clrbptsStr s).log → CmdInv (clrbptsStr s)) := by
  constructor
  · apply (h.right_free _).trans
    constructor
    · intro hall i p hi haddr hp
      exact hall i p hi rfl haddr hp
    · intro hall i p hi _ haddr hp
      exact hall i p hi haddr hp
  · intro hright
    refine ⟨hright, ?_⟩
    intro i p haddr
    exact absurd (addrAt_clrbpts s.slots i) haddr

theorem CmdInv.clrbpStr (h : CmdInv s) (i : ℕ) : CmdInv (clrbpStr i s) := by
  have hright : Right (Debug.clrbpStr i s).log := by
    apply (h.right_free _).mpr
    intro j p _ hkind haddr _
    simp [haddr] at hkind
  refine ⟨hright, ?_⟩
  intro j p haddr hp
  obtain ⟨hji, haddr⟩ := addrAt_clrbp i j haddr
  exact h.owns_free hright (by simp [hji]) haddr hp

theorem CmdInv.clrbpOutside_iff (h : CmdInv s) (addr : ℕ) (ptr : Option ℕ) :
    (Right (clrbpOutside addr ptr s).log ↔ addr = noBpt ∨ ptr = none) ∧
      (Right (clrbpOutside addr ptr s).log → CmdInv (clrbpOutside addr ptr s)) := by
  unfold clrbpOutside
  cases ptr with
  | none => simp [h.right, h]
  | some p =>
    by_cases haddr : addr = noBpt
    · simp [haddr, h.right, h]
    · have hnot : ¬ Right (s.log ++ [.free none p]) := by
        rw [right_concat]
        simp [Due]
      simp [haddr, hnot]

theorem CmdInv.hitStr (h : CmdInv s) (tmp : Option ℕ) (m m' : Mem) :
    CmdInv (hitStr tmp m m' s) := by
  refine ⟨h.right, ?_⟩
  intro i p haddr hp
  rw [addrAt_hit] at haddr
  exact h.owns i p haddr hp

variable (getRsa malloc) in
theorem CmdInv.cmdNext_iff (h : CmdInv s) (op : CmdOp W) :
    (FreedRight getRsa malloc s op ↔ CmdOk getRsa s op) ∧
      (FreedRight getRsa malloc s op → CmdInv (cmdNext getRsa malloc s op)) := by
  unfold FreedRight
  cases op with
  | setbp w garbage args =>
    simp only [cmdNext, cmdSetbpStr, CmdOk]
    by_cases hargs : args = []
    · simp [hargs, h.right, h]
    · rcases hparse : bArgs getRsa args none none with reply | ⟨adr, str⟩
      · simp [hargs, h.right, h]
      · obtain ⟨hiff, hinv⟩ :=
          h.setbpStr_iff malloc w (adr.getD garbage) str adr.isNone
        rw [if_neg hargs]
        refine ⟨hiff.trans ?_, hinv⟩
        constructor
        · intro hstale adr' str' _ heq
          cases heq
          exact hstale
        · intro hall
          exact hall adr str hargs rfl
  | clear i => simp [cmdNext, CmdOk, (h.clrbpStr i).right, h.clrbpStr i]
  | clearOutside addr ptr => exact h.clrbpOutside_iff addr ptr
  | clearAll => exact h.clrbptsStr_iff
  | load bflag =>
    cases bflag with
    | true => simp [cmdNext, CmdOk, h.right, h]
    | false => simpa [cmdNext, CmdOk] using h.clrbptsStr_iff
  | hit tmp m m' => simp [cmdNext, CmdOk, (h.hitStr tmp m m').right, h.hitStr tmp m m']

/-- **Every run**: each string has been freed once and by its owner after every operation, exactly
    when no operation finds a stale pointer where it looks. -/
theorem cmdstrs_exact (getRsa : CStr → Option ℕ) (malloc : StrMalloc W) (ops : List (CmdOp W)) :
    EveryStep (cmdNext getRsa malloc) (FreedRight getRsa malloc) .start ops ↔
      EveryStep (cmdNext getRsa malloc) (CmdOk getRsa) .start ops := by
  apply everyStep_iff (fun s op (h : CmdInv s) => (h.cmdNext_iff getRsa malloc op).1)
  · intro s op h hok
    obtain ⟨hiff, hinv⟩ := h.cmdNext_iff getRsa malloc op
    exact hinv (hiff.mpr hok)
  · exact cmdInv_start

/-- An allocator that takes the address it is told, where no string is. -/
def strMallocAt : StrMalloc ℕ where
  run p log _ :=
    match lastAt log p with
    | some (.alloc _ _) => none
    | _ => some p
  fresh := by
    intro p log len q hq o howned
    split at hq
    · simp at hq
    · rename_i hnot
      cases hq
      exact hnot _ _ howned

/-- `b -s foo 80010000`, `db 0`, `db *`: the string is freed twice. -/
theorem cmdstrs_twice :
    ¬ EveryStep (cmdNext (fun _ => some 0x80010000) strMallocAt)
      (FreedRight (fun _ => some 0x80010000) strMallocAt) .start
      [.setbp 100 0 [ascii "-s", ascii "foo", ascii "80010000"], .clear 0, .clearAll] := by
  intro h
  have hright := h [.setbp 100 0 [ascii "-s", ascii "foo", ascii "80010000"], .clear 0] .clearAll
    (List.prefix_refl _)
  have hlog : (cmdNext (fun _ => some 0x80010000) strMallocAt
      (List.foldl (cmdNext (fun _ => some 0x80010000) strMallocAt) .start
        [.setbp 100 0 [ascii "-s", ascii "foo", ascii "80010000"], .clear 0]) .clearAll).log =
      [.alloc 0 100, .free (some 0) 100, .free (some 0) 100] := by
    decide
  rw [FreedRight, hlog] at hright
  obtain ⟨o, ho, howned⟩ := hright [.alloc 0 100, .free (some 0) 100] (.free (some 0) 100) [] rfl
  simp [Owned, lastAt, addr] at howned

end Pmon.Debug
