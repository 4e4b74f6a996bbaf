import Pmon.Nvram.Area

/-!
# Editing the environment area

The search of `tgt_unsetenv` is `locate`, its removal is `unlist`, and the insertion of
`tgt_setenv` appends the entry, or puts it in front for `heaptop`.
-/

namespace Pmon.Nvram

open Pmon.Lib Pmon.Libc

variable {m buf : Mem} {a : ℕ} {name e : CStr} {value : Option CStr} {ds es fs : List CStr}

/-! ## §1 Comparing a name with an entry -/

theorem entryName_cons {c : UInt8} (hc : c ≠ eqSign) (cs : CStr) :
    entryName (c :: cs) = c :: entryName cs := by
  simp [entryName, hc]

theorem obstructs_cons {c : UInt8} (hc : c ≠ eqSign) {cs ds : CStr} :
    Obstructs (c :: cs) (c :: ds) ↔ Obstructs cs ds := by
  have : eqSign ≠ c := hc.symm
  simp [Obstructs, List.cons_prefix_cons, this]

/-- How the comparison loop of `tgt_unsetenv` ends on an entry. -/
inductive MatchEnd (m : Mem) (a : ℕ) (name e : CStr) : ℕ × CStr → Prop where
  /-- The whole name matched, and the name of the entry ends there. -/
  | hit : entryName e = name → (m (a + name.length) = 0 ∨ m (a + name.length) = eqSign) →
      MatchEnd m a name e (a + name.length, [])
  /-- The entry ended first. -/
  | stuck {np : CStr} : entryName e ≠ name → Obstructs name e → m (a + e.length) = 0 → np ≠ [] →
      MatchEnd m a name e (a + e.length, np)
  /-- They differ inside the entry. -/
  | differ {k : ℕ} {np : CStr} : entryName e ≠ name → ¬Obstructs name e → k < e.length →
      ¬(np = [] ∧ m (a + k) = eqSign) → MatchEnd m a name e (a + k, np)

theorem matchName_end (h : m.Holds a (e ++ [0])) (hz : (0 : UInt8) ∉ name) :
    MatchEnd m a name e (matchName m a name) := by
  induction name generalizing e a with
  | nil =>
    rw [matchName]
    cases e with
    | nil => exact .hit rfl (Or.inl h.1)
    | cons d ds =>
      by_cases hd : d = eqSign
      · exact .hit (by simp [entryName, hd]) (Or.inr (h.1.trans hd))
      · refine .differ (k := 0) (by simp [entryName, hd]) (by simp [Obstructs]) (by simp) ?_
        rintro ⟨-, heq⟩
        exact hd (h.1.symm.trans heq)
  | cons c cs ih =>
    have hc0 : c ≠ 0 := fun hc => hz (hc ▸ List.mem_cons_self ..)
    rw [matchName]
    cases e with
    | nil =>
      have h0 : m a = 0 := h.1
      rw [if_neg (by rw [h0]; exact fun h => hc0 h.1.symm)]
      exact .stuck (e := []) (by simp [entryName]) (by simp [Obstructs]) h0 (List.cons_ne_nil c cs)
    | cons d ds =>
      have hd : m a = d := h.1
      by_cases hgo : d = c ∧ d ≠ eqSign
      · obtain ⟨rfl, hc⟩ := hgo
        rw [if_pos ⟨hd, by rw [hd]; exact hc⟩]
        have hrec := ih (e := ds) h.2 (fun h => hz (List.mem_cons_of_mem _ h))
        generalize hr : matchName m (a + 1) cs = r at hrec
        have hshift : ∀ k, a + 1 + k = a + (k + 1) := fun k => by omega
        cases hrec with
        | hit hn hm =>
          rw [hshift] at hm ⊢
          exact .hit (by rw [entryName_cons hc, hn]) hm
        | stuck hn hob hm hnp =>
          rw [hshift] at hm ⊢
          exact .stuck (e := d :: ds) (by rw [entryName_cons hc]; simpa using hn)
            ((obstructs_cons hc).mpr hob) hm hnp
        | differ hn hob hk hm =>
          rw [hshift] at hm ⊢
          exact .differ (by rw [entryName_cons hc]; simpa using hn)
            (fun h => hob ((obstructs_cons hc).mp h)) (by rw [List.length_cons]; omega) hm
      · rw [if_neg (by rw [hd]; exact hgo)]
        refine .differ (k := 0) ?_ ?_ (by simp) (by simp)
        · intro h
          by_cases heq : d = eqSign
          · simp [entryName, heq] at h
          · rw [entryName_cons heq, List.cons.injEq] at h
            exact hgo ⟨h.1, heq⟩
        · rintro ⟨hmem, hpre, -⟩
          exact hgo ⟨(List.cons_prefix_cons.mp hpre).1, fun heq => hmem (heq ▸ List.mem_cons_self ..)⟩

/-! ## §2 Searching the area -/

/-- From inside an entry the scan runs to the next one. -/
theorem skipString_inside {k : ℕ} (h : m.Holds a (e ++ [0])) (he : (0 : UInt8) ∉ e)
    (hk : k ≤ e.length) (hlen : e.length < scanFuel) :
    m.skipString scanFuel (a + k) = a + e.length + 1 := by
  have hsplit : e ++ [0] = e.take k ++ (e.drop k ++ [0]) := by
    rw [← List.append_assoc, List.take_append_drop]
  have htake : (e.take k).length = k := List.length_take_of_le hk
  rw [hsplit, Mem.holds_append, htake] at h
  have hdrop : (e.drop k).length = e.length - k := List.length_drop
  rw [Mem.skipString_eq h.2 (fun h0 => he (List.mem_of_mem_drop h0)) (by omega), hdrop]
  omega

/-- **The search of `tgt_unsetenv`** finds what `locate` finds. -/
theorem findEntry_eq {n : ℕ} (h : m.Holds a (packed es)) (hes : ∀ e ∈ es, IsEntry e)
    (hend : a + (packed es).length ≤ nvramSize) (hfuel : es.length < n)
    (hz : (0 : UInt8) ∉ name) :
    findEntry m name n a = (locate name es).map fun (ds, _, _) =>
      (a + (strings ds).length, a + (strings ds).length + name.length) := by
  induction es generalizing a n with
  | nil =>
    obtain ⟨n, rfl⟩ : ∃ k, n = k + 1 := ⟨n - 1, by omega⟩
    have h0 : m a = 0 := h.1
    simp [findEntry, locate, h0]
  | cons e es ih =>
    obtain ⟨n, rfl⟩ : ∃ k, n = k + 1 := ⟨n - 1, by omega⟩
    have he := hes e (List.mem_cons_self ..)
    have hhead : m a ≠ 0 := fun h0 =>
      List.cons_ne_nil e es ((Mem.holds_packed_head h hes).mp h0)
    rw [packed_cons, show e ++ 0 :: packed es = (e ++ [0]) ++ packed es by simp,
      Mem.holds_append] at h
    rw [packed_cons, List.length_append, List.length_cons] at hend
    have ha : a ≤ nvramSize := by omega
    rw [findEntry, if_pos ⟨hhead, ha⟩, locate]
    have hend' := matchName_end h.1 hz
    generalize hr : matchName m a name = r at hend'
    cases hend' with
    | hit hn hm =>
      rw [if_pos hn]
      simp [hm]
    | stuck hn hob hm hnp =>
      -- `ep` is left on the NUL: the test of the loop ends the search
      rw [if_neg hn, if_pos hob]
      cases n with
      | zero => simp [hnp, hm, findEntry]
      | succ n => simp [hnp, hm, findEntry]
    | @differ k np hn hob hk hm =>
      have hmk : m (a + k) ≠ 0 := by
        intro h0
        have hget : m (a + k) = e[k] := h.1.getElem (by simp; omega) |>.trans (by simp [hk])
        exact he.not_mem (by rw [← h0, hget]; exact List.getElem_mem hk)
      have hskip := skipString_inside h.1 he.not_mem (Nat.le_of_lt hk)
        (by simp only [scanFuel, nvramSecsize]; simp only [nvramSize] at hend; omega)
      have hrest := ih (a := a + e.length + 1) (n := n)
        (by simpa [Nat.add_assoc] using h.2) (fun d hd => hes d (List.mem_cons_of_mem _ hd))
        (by omega) (by simpa using hfuel)
      have hnot : ¬(np = [] ∧ (m (a + k) = 0 ∨ m (a + k) = eqSign)) := by
        rintro ⟨hnp, hor⟩
        exact hor.elim hmk fun heq => hm ⟨hnp, heq⟩
      rw [if_neg hn, if_neg hob]
      dsimp only
      rw [if_neg hnot, if_pos hmk, hskip, hrest, Option.map_map]
      congr 1
      funext found
      obtain ⟨ds, -, -⟩ := found
      simp only [Function.comp_apply, strings_cons, List.length_append, List.length_cons]
      rw [show a + e.length + 1 + (strings ds).length = a + (e.length + ((strings ds).length + 1))
        by omega]

/-! ## §3 Removal -/

theorem length_entryName_le (e : CStr) : (entryName e).length ≤ e.length :=
  (List.takeWhile_sublist _).length_le

section Remove

variable (h : Area buf (ds ++ e :: fs)) (hname : entryName e = name)
include h

private theorem fits_located :
    2 + (strings ds).length + e.length + 1 + (packed fs).length ≤ nvramSize := by
  have := h.fits
  rw [packed_append, packed_cons, List.length_append, List.length_append, List.length_cons] at this
  omega

include hname

/-- Where the scan goes on behind the entry that was found. -/
theorem skip_located :
    buf.skipString scanFuel (2 + (strings ds).length + name.length) =
      2 + (strings ds).length + e.length + 1 := by
  have he := h.isEntry e (by simp)
  have hholds := h.holds
  rw [packed_append, packed_cons, Mem.holds_append,
    show e ++ 0 :: packed fs = (e ++ [0]) ++ packed fs by simp, Mem.holds_append] at hholds
  refine skipString_inside hholds.2.1 he.not_mem (hname ▸ length_entryName_le e) ?_
  have := h.short e (by simp)
  simp only [scanFuel, nvramSecsize]
  omega

private theorem removeEntry_move :
    removeEntry buf (2 + (strings ds).length) (2 + (strings ds).length + name.length) =
      let buf := buf.move (2 + (strings ds).length + e.length + 1) (2 + (strings ds).length)
        (nvramSize + 1 - (2 + (strings ds).length + e.length + 1))
      cksumSet (if buf 2 = 0 then buf.put 3 0 else buf) 0 nvramSize := by
  rw [removeEntry, skip_located h hname, Mem.copyLoop_eq_move (by omega)]

/-- Removing the entry that was found leaves the others. -/
theorem removeEntry_image :
    Image (removeEntry buf (2 + (strings ds).length) (2 + (strings ds).length + name.length))
      (ds ++ fs) := by
  have hfit := fits_located h
  rw [removeEntry_move h hname]
  have harea : Area (buf.move (2 + (strings ds).length + e.length + 1) (2 + (strings ds).length)
      (nvramSize + 1 - (2 + (strings ds).length + e.length + 1))) (ds ++ fs) := by
    refine ⟨Mem.holds_packed_remove h.holds (by omega), ?_, ?_, ?_⟩
    · exact fun d hd => h.isEntry d (by simp only [List.mem_append, List.mem_cons] at hd ⊢; tauto)
    · exact fun d hd => h.short d (by simp only [List.mem_append, List.mem_cons] at hd ⊢; tauto)
    · rw [packed_append, List.length_append]
      omega
  refine Area.cksumSet ?_
  split
  case isTrue h0 =>
    -- the area is empty: byte 3 lies behind its closing NUL
    have hnil := (Mem.holds_packed_head harea.holds harea.isEntry).mp h0
    rw [hnil] at harea ⊢
    refine ⟨⟨?_, trivial⟩, harea.isEntry, harea.short, harea.fits⟩
    rw [Mem.put_of_ne (by omega)]
    exact h0
  case isFalse => exact harea

/-- The removal shifts the bytes behind the entry and touches nothing behind the area. -/
theorem removeEntry_apply {i : ℕ} (hi : 3 < i) :
    removeEntry buf (2 + (strings ds).length) (2 + (strings ds).length + name.length) i =
      if 2 + (strings ds).length ≤ i ∧ i + e.length + 1 ≤ nvramSize then buf (i + e.length + 1)
      else buf i := by
  have hfit := fits_located h
  rw [removeEntry_move h hname]
  dsimp only
  rw [cksumSet_of_ne (by omega) (by omega)]
  have hput : ∀ m : Mem, (if m 2 = 0 then m.put 3 0 else m) i = m i := fun m => by
    split
    · exact Mem.put_of_ne (by omega)
    · rfl
  rw [hput, Mem.move]
  by_cases hin : 2 + (strings ds).length ≤ i ∧ i + e.length + 1 ≤ nvramSize
  · rw [if_pos hin, if_pos (by omega)]
    congr 1
    omega
  · rw [if_neg hin, if_neg (by omega)]

end Remove

/-! ## §4 Insertion -/

/-- The scan for the end of the area stops on its closing NUL. -/
theorem endOfArea (h : Area buf es) :
    (if buf 2 ≠ 0 then buf.skipAll scanFuel 2 - 1 else 2) = 2 + (strings es).length := by
  have hholds := h.holds
  have hfit := h.fits
  cases es with
  | nil =>
    have h0 : buf 2 = 0 := hholds.1
    simp [h0]
  | cons e es =>
    have he := h.isEntry e (List.mem_cons_self ..)
    have h0 : buf 2 ≠ 0 := fun h0 =>
      List.cons_ne_nil e es ((Mem.holds_packed_head hholds h.isEntry).mp h0)
    rw [packed_cons] at hholds hfit
    rw [List.length_append, List.length_cons] at hfit
    rw [if_pos h0, Mem.skipAll_eq hholds he.not_mem
      (fun d hd => h.isEntry d (List.mem_cons_of_mem _ hd))
      (by simp only [scanFuel, nvramSecsize]; simp only [nvramSize] at hfit; omega),
      strings_cons, List.length_append, List.length_cons, length_packed]
    omega

/-- The space check never fails for a variable of the accepted length. -/
theorem insertEntry_eq (h : Area buf es) (hlen : envlen name value ≤ 255) :
    insertEntry buf name value = some (
      if name = ascii "heaptop" then
        (buf.move 2 (2 + envlen name value) (2 + (strings es).length + 1)).store 2
          (entryBytes name value)
      else buf.store (2 + (strings es).length) (entryBytes name value ++ [0])) := by
  rw [insertEntry, endOfArea h]
  rw [if_neg (by simp only [nvramSize]; omega), apply_ite some]

/-- The new list fits together. -/
private theorem area_extend (h : Area buf es) {m : Mem} {gs : List CStr}
    (hperm : gs.Perm (entry name value :: es)) (hholds : m.Holds 2 (packed gs))
    (hentry : IsEntry (entry name value)) (hlen : envlen name value ≤ 255)
    (hfit : 2 + (packed gs).length ≤ nvramSize) : Area m gs where
  holds := hholds
  isEntry e he := by
    rcases List.mem_cons.mp (hperm.subset he) with rfl | he
    · exact hentry
    · exact h.isEntry e he
  short e he := by
    rcases List.mem_cons.mp (hperm.subset he) with rfl | he
    · have := length_entry_lt name value
      omega
    · exact h.short e he
  fits := hfit

/-- An ordinary variable goes behind the others. -/
theorem insertEntry_append (h : Area buf es) (hname : name ≠ ascii "heaptop")
    (hentry : IsEntry (entry name value)) (hlen : envlen name value ≤ 255)
    (hfit : 2 + (packed (es ++ [entry name value])).length ≤ nvramSize) :
    ∃ m, insertEntry buf name value = some m ∧ Area m (es ++ [entry name value]) ∧
      ∀ i, i < 2 ∨ nvramSize ≤ i → m i = buf i := by
  refine ⟨_, by rw [insertEntry_eq h hlen, if_neg hname], ?_, ?_⟩
  · refine area_extend h (List.perm_append_singleton _ _) ?_ hentry hlen hfit
    rw [entryBytes_eq, List.append_assoc]
    exact Mem.holds_packed_append h.holds
  · intro i hi
    refine Mem.store_of_not_mem ?_
    rw [length_packed, strings_append, List.length_append, strings_cons, List.length_append] at hfit
    rw [entryBytes_eq, List.length_append, List.length_append]
    simp only [strings_nil, List.length_cons, List.length_nil] at hfit ⊢
    omega

/-- `heaptop` with a value goes in front. -/
theorem insertEntry_front {v : CStr} (h : Area buf es)
    (hentry : IsEntry (entry (ascii "heaptop") (some v)))
    (hlen : envlen (ascii "heaptop") (some v) ≤ 255)
    (hfit : 2 + (packed (entry (ascii "heaptop") (some v) :: es)).length ≤ nvramSize) :
    ∃ m, insertEntry buf (ascii "heaptop") (some v) = some m ∧
      Area m (entry (ascii "heaptop") (some v) :: es) ∧
      ∀ i, i < 2 ∨ masterBridgeOffs < i → m i = buf i := by
  have hgap := length_entry_some (ascii "heaptop") v
  refine ⟨_, by rw [insertEntry_eq h hlen, if_pos rfl], ?_, ?_⟩
  · refine area_extend h (List.Perm.refl _) ?_ hentry hlen hfit
    rw [entryBytes_eq, ← hgap]
    exact Mem.holds_packed_push h.holds (by rw [length_packed]; omega)
  · intro i hi
    rw [packed_cons, List.length_append, List.length_cons, length_packed] at hfit
    simp only [masterBridgeOffs, nvramSize] at hi hfit
    have hout : (buf.move 2 (2 + envlen (ascii "heaptop") (some v))
        (2 + (strings es).length + 1)) i = buf i := Mem.move_of_not_mem (by omega)
    rw [Mem.store_of_not_mem, hout]
    rw [entryBytes_eq, List.length_append, List.length_singleton]
    omega

/-- `heaptop` without a value: the gap is one byte too wide, and byte 10 keeps what it was. -/
theorem insertEntry_front_none (h : Area buf es) :
    ∃ m, insertEntry buf (ascii "heaptop") none = some m ∧ m.Holds 2 (ascii "heaptop" ++ [0]) ∧
      m 10 = buf 10 ∧ m.Holds 11 (packed es) := by
  have hlen : (entryBytes (ascii "heaptop") none).length = 8 := by decide
  refine ⟨_, by rw [insertEntry_eq h (by decide), if_pos rfl], ?_, ?_, ?_⟩
  · exact Mem.holds_store _ _ _
  · rw [Mem.store_of_not_mem (by omega), Mem.move_of_not_mem]
    left
    decide
  · rw [Mem.holds_store_of_disjoint (by omega)]
    exact Mem.holds_move (k := 0) h.holds (by rw [length_packed]; omega)

/-! ## §5 Closing the buffer -/

/-- The checksum and the fixed bytes leave the area alone. -/
theorem sealBuffer_apply (nv : NvState) {i : ℕ} (hi : 2 ≤ i) (hlt : i < 486) :
    sealBuffer nv buf i = buf i := by
  have hether := nv.hwethadr.length_eq
  rw [sealBuffer, Mem.put_of_ne (by simp only [verOffs]; omega),
    Mem.store_of_not_mem (by simp only [etherOffs]; omega),
    Mem.put_of_ne (by simp only [masterBridgeOffs]; omega),
    Mem.put_of_ne (by simp only [activecomOffs]; omega), cksumSet_of_ne (by omega) (by omega)]

/-- The buffer that is written back is valid. -/
theorem sealBuffer_image (nv : NvState) (h : Area buf es) : Image (sealBuffer nv buf) es := by
  refine h.cksumSet.congr fun i hi => ?_
  simp only [nvramSize] at hi
  have hether := nv.hwethadr.length_eq
  rw [sealBuffer, Mem.put_of_ne (by simp only [verOffs]; omega),
    Mem.store_of_not_mem (by simp only [etherOffs]; omega),
    Mem.put_of_ne (by simp only [masterBridgeOffs]; omega),
    Mem.put_of_ne (by simp only [activecomOffs]; omega)]

/-- Behind the fixed bytes nothing is touched. -/
theorem sealBuffer_of_gt (nv : NvState) {i : ℕ} (hi : verOffs < i) :
    sealBuffer nv buf i = buf i := by
  simp only [verOffs] at hi
  have hether := nv.hwethadr.length_eq
  rw [sealBuffer, Mem.put_of_ne (by simp only [verOffs]; omega),
    Mem.store_of_not_mem (by simp only [etherOffs]; omega),
    Mem.put_of_ne (by simp only [masterBridgeOffs]; omega),
    Mem.put_of_ne (by simp only [activecomOffs]; omega),
    cksumSet_of_ne (by omega) (by omega)]

end Pmon.Nvram
