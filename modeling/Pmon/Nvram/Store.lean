import Pmon.Nvram.Edit

/-!
# Set and unset on the list of entries

`tgt_unsetenv` on a state that stores `es` leaves a state that stores `unlist name es`, and
`tgt_setenv` one that stores that list with the new entry.  Both leave the bytes behind the
area alone, except for the fixed bytes that `tgt_setenv` copies there.
-/

namespace Pmon.Nvram

open Pmon.Lib Pmon.Libc

variable {nv : NvState} {op : FlashOp} {name : CStr} {value : Option CStr} {es : List CStr}

/-! ## §1 One update of the sector -/

theorem FlashOp.load_apply (op : FlashOp) (flash : Mem) {i : ℕ} (hi : i < nvramSecsize) :
    op.load flash i = flash i :=
  Mem.copyFrom_of_lt hi

theorem FlashOp.program_eq (hop : op.fault = .none) (flash buf : Mem) :
    op.program flash buf = (true, flash.copyFrom buf nvramSecsize) := by
  rw [FlashOp.program, hop]

/-- The buffer holds what the sector holds. -/
theorem Image.load {flash : Mem} (h : Image flash es) (op : FlashOp) :
    Image (op.load flash) es :=
  h.congr fun i hi => (op.load_apply flash (by simp only [nvramSize, nvramSecsize] at *; omega)).symm

/-- The sector holds what was programmed. -/
theorem Image.program {buf : Mem} (h : Image buf es) (flash : Mem) :
    Image (flash.copyFrom buf nvramSecsize) es :=
  h.congr fun i hi =>
    (Mem.copyFrom_of_lt (by simp only [nvramSize, nvramSecsize] at *; omega)).symm

/-- Bytes that the buffer took over from the sector and kept are unchanged in the sector. -/
theorem program_apply (op : FlashOp) {flash buf : Mem} {i : ℕ} (h : i < nvramSecsize → buf i = op.load flash i) :
    flash.copyFrom buf nvramSecsize i = flash i := by
  rcases Nat.lt_or_ge i nvramSecsize with hi | hi
  · rw [Mem.copyFrom_of_lt hi, h hi, op.load_apply flash hi]
  · exact Mem.copyFrom_of_ge hi

/-! ## §2 Unset -/

/-- `tgt_unsetenv` in terms of the list. -/
theorem tgtUnsetenv_eq (h : Stores nv es) (hop : op.fault = .none) (hz : (0 : UInt8) ∉ name) :
    tgtUnsetenv nv op name =
      match locate name es with
      | none => (0, nv)
      | some (ds, _, _) => (1, { nv with
          flash := nv.flash.copyFrom (removeEntry (op.load nv.flash) (2 + (strings ds).length)
            (2 + (strings ds).length + name.length)) nvramSecsize }) := by
  have hbuf := h.toImage.load op
  have hfuel : es.length < nvramSize + 1 := by
    have := length_le_strings es
    have := h.fits
    rw [length_packed] at this
    omega
  have hfind := findEntry_eq hbuf.holds hbuf.isEntry hbuf.fits hfuel hz
  rw [tgtUnsetenv, if_neg (not_not.mpr h.valid), hop]
  dsimp only
  rw [hfind]
  rcases locate name es with _ | ⟨ds, e, fs⟩
  · rfl
  · simp only [Option.map_some, FlashOp.program_eq hop, if_true]

/-- **`tgt_unsetenv` is `unlist`** and touches nothing behind the area. -/
theorem tgtUnsetenv_stores (h : Stores nv es) (hop : op.fault = .none)
    (hz : (0 : UInt8) ∉ name) :
    ∃ flash, (tgtUnsetenv nv op name).2 = { nv with flash } ∧ Image flash (unlist name es) ∧
      (∀ i, nvramSize ≤ i → flash i = nv.flash i) ∧
      (unlist name es = [] → flash 10 = nv.flash (10 + (strings es).length)) := by
  rw [tgtUnsetenv_eq h hop hz]
  rcases hloc : locate name es with _ | ⟨ds, e, fs⟩
  · rw [unlist_of_locate_eq_none hloc]
    refine ⟨nv.flash, rfl, h.toImage, fun _ _ => rfl, ?_⟩
    rintro rfl
    rfl
  · obtain ⟨rfl, hname, hun⟩ := locate_eq_some hloc
    have hbuf := h.toImage.load op
    rw [hun]
    refine ⟨_, rfl, (removeEntry_image hbuf.toArea hname).program _, ?_, ?_⟩
    · intro i hi
      refine program_apply op fun _ => ?_
      rw [removeEntry_apply hbuf.toArea hname (by simp only [nvramSize] at hi; omega),
        if_neg (by omega)]
    · intro hnil
      obtain ⟨rfl, rfl⟩ := List.append_eq_nil_iff.mp hnil
      have hshort := h.short e (by simp)
      rw [Mem.copyFrom_of_lt (by decide), removeEntry_apply hbuf.toArea hname (by omega),
        if_pos (by simp only [strings_nil, List.length_nil, nvramSize]; omega),
        op.load_apply _ (by simp only [nvramSecsize]; omega)]
      simp only [List.nil_append, strings_cons, strings_nil, List.length_append,
        List.length_cons, List.length_nil]
      congr 1

/-- Removing the entries called `name` when all of them can be found. -/
theorem tgtUnsetenv_removeName (h : Stores nv es) (hop : op.fault = .none)
    (hz : (0 : UInt8) ∉ name) (hclear : Clear name es) :
    Stores (tgtUnsetenv nv op name).2 (removeName name es) := by
  obtain ⟨flash, heq, himg, -, -⟩ := tgtUnsetenv_stores h hop hz
  rw [heq]
  exact ⟨unlist_eq_removeName_iff.mpr hclear ▸ himg, h.valid⟩

/-! ## §3 Set -/

/-- No allocation and no flash operation fails. -/
structure SetenvOps.Succeeds (op : SetenvOps) : Prop where
  reinit : op.reinit.fault = .none
  unset : op.unset.fault = .none
  store : op.store.fault = .none

/-- What the store is taken to hold: an invalid sector counts as empty, and is reset by the
    next `tgt_setenv`. -/
inductive Holding (nv : NvState) : List CStr → Prop where
  | valid {es : List CStr} : Stores nv es → Holding nv es
  | invalid : nv.invalid ≠ 0 → Holding nv []

/-- Resetting the sector empties the area. -/
theorem reinit_stores (nv : NvState) (hop : op.fault = .none) :
    ∃ flash, reinit nv op = (true, { nv with flash, invalid := 0 }) ∧ Image flash [] ∧
      ∀ i, nvramSize ≤ i → flash i = nv.flash i := by
  refine ⟨_, by rw [reinit, hop]; simp only [FlashOp.program_eq hop, if_true]; rfl, ?_, ?_⟩
  · refine (Area.cksumSet (?_ : Area _ [])).program _
    refine ⟨?_, by simp, by simp, by decide⟩
    rw [packed_nil, Mem.holds_cons, Mem.put_of_ne (by omega), Mem.put_self]
    exact ⟨rfl, trivial⟩
  · intro i hi
    refine program_apply op fun _ => ?_
    simp only [nvramSize] at hi
    rw [cksumSet_of_ne (by omega) (by omega), Mem.put_of_ne (by omega), Mem.put_of_ne (by omega),
      Mem.fill_of_not_mem (by simp only [nvramSize]; omega)]

/-- **The first half of `tgt_setenv`**: the state that the new value is stored into. -/
theorem tgtSetenv_eq (name : CStr) (value : Option CStr) {op : SetenvOps} (h : Holding nv es) (hre : op.reinit.fault = .none)
    (hun : op.unset.fault = .none) (hz : (0 : UInt8) ∉ name) (hexp : name ≠ expert)
    (hne : name ≠ []) (hlen : envlen name value ≤ 255) :
    ∃ nv₁ : NvState, Stores nv₁ (unlist name es) ∧
      (∃ flash, nv₁ = { nv with flash, invalid := 0 }) ∧
      (∀ i, nvramSize ≤ i → nv₁.flash i = nv.flash i) ∧
      (nv.invalid = 0 → unlist name es = [] →
        nv₁.flash 10 = nv.flash (10 + (strings es).length)) ∧
      tgtSetenv nv op name value =
        match op.store.fault with
        | .malloc => (-1, nv₁)
        | _ =>
          match editBuffer nv₁ op.uninit (op.store.load nv₁.flash) name value with
          | none => (0, nv₁)
          | some (buf, nv') =>
            let (ok, flash) := op.store.program nv'.flash (sealBuffer nv' buf)
            (if ok then 1 else 0, { nv' with flash }) := by
  rw [tgtSetenv, if_neg hexp, if_neg hne, if_neg (Nat.not_lt.mpr hlen)]
  cases h with
  | valid h =>
    obtain ⟨flash, heq, himg, hframe, htail⟩ := tgtUnsetenv_stores h hun hz
    refine ⟨{ nv with flash }, ⟨himg, h.valid⟩, ⟨flash, by rw [← h.valid]⟩, hframe,
      fun _ => htail, ?_⟩
    simp only [h.valid, ne_eq, not_true_eq_false, if_false, Bool.not_true, Bool.false_eq_true,
      heq] <;> rfl
  | invalid hinv =>
    obtain ⟨flash₀, hre, himg₀, hframe₀⟩ := reinit_stores nv hre
    have hst : Stores { nv with flash := flash₀, invalid := 0 } [] := ⟨himg₀, rfl⟩
    obtain ⟨flash, heq, himg, hframe, -⟩ := tgtUnsetenv_stores hst hun hz
    refine ⟨{ nv with flash, invalid := 0 }, ⟨himg, rfl⟩, ⟨flash, rfl⟩,
      fun i hi => (hframe i hi).trans (hframe₀ i hi), fun h0 => absurd h0 hinv, ?_⟩
    simp only [hinv, ne_eq, not_false_eq_true, if_true, hre, Bool.not_true, Bool.false_eq_true,
      if_false, heq] <;> rfl

/-- The names that have a place of their own in the sector. -/
def ownPlace : List CStr :=
  [ascii "activecom", ascii "em_enable", ascii "cpufreq", ascii "ddrfreq", ascii "ls2kver",
    ascii "ethaddr", ascii "ethaddr1"]

theorem editBuffer_of_not_ownPlace (nv : NvState) (v : UInt8) (buf : Mem)
    (h : name ∉ ownPlace) : editBuffer nv v buf name value =
      (insertEntry buf name value).map (·, nv) := by
  simp only [ownPlace, List.mem_cons, List.not_mem_nil, or_false, not_or] at h
  obtain ⟨h1, h2, h3, h4, h5, h6, h7⟩ := h
  rw [editBuffer, if_neg h1, if_neg h2, if_neg h3, if_neg h4, if_neg h5, if_neg h6, if_neg h7]

/-- Setting an ordinary variable: what the insertion makes of the remaining entries is stored. -/
theorem tgtSetenv_of_insertEntry {op : SetenvOps} {gs : List CStr} (h : Holding nv es)
    (hop : op.Succeeds) (hz : (0 : UInt8) ∉ name) (hexp : name ≠ expert) (hne : name ≠ [])
    (hown : name ∉ ownPlace) (hlen : envlen name value ≤ 255)
    (hins : ∀ buf, Area buf (unlist name es) →
      (nv.invalid = 0 → unlist name es = [] → buf 10 = nv.flash (10 + (strings es).length)) →
      ∃ m, insertEntry buf name value = some m ∧ Area m gs) :
    (tgtSetenv nv op name value).1 = 1 ∧ Stores (tgtSetenv nv op name value).2 gs := by
  obtain ⟨nv₁, hst, -, -, htail, heq⟩ := tgtSetenv_eq name value h hop.reinit hop.unset hz hexp hne hlen
  obtain ⟨m, hm, harea⟩ := hins _ (hst.toImage.load op.store).toArea fun hinv hnil => by
    rw [op.store.load_apply _ (by decide), htail hinv hnil]
  rw [heq, hop.store]
  dsimp only
  rw [editBuffer_of_not_ownPlace _ _ _ hown, hm]
  simp only [Option.map_some, FlashOp.program_eq hop.store, if_true, true_and]
  exact ⟨(sealBuffer_image nv₁ harea).program _, hst.valid⟩

/-- **`tgt_setenv` is `setEntry`** for variables that can be found and fit. -/
theorem tgtSetenv_setEntry {op : SetenvOps} (h : Holding nv es) (hop : op.Succeeds)
    (hz : (0 : UInt8) ∉ name) (hv : ∀ v ∈ value, (0 : UInt8) ∉ v) (hexp : name ≠ expert)
    (hne : name ≠ []) (hown : name ∉ ownPlace) (hlen : envlen name value ≤ 255)
    (hclear : Clear name es) (hheap : name = ascii "heaptop" → value ≠ none)
    (hfit : 2 + (packed (setEntry name value es)).length ≤ nvramSize) :
    (tgtSetenv nv op name value).1 = 1 ∧
      Stores (tgtSetenv nv op name value).2 (setEntry name value es) := by
  have hentry := isEntry_entry hne hz hv
  rw [setEntry] at hfit ⊢
  rw [← unlist_eq_removeName_iff.mpr hclear] at hfit ⊢
  by_cases hheaptop : name = ascii "heaptop"
  · subst hheaptop
    obtain ⟨v, rfl⟩ := Option.ne_none_iff_exists'.mp (hheap rfl)
    rw [if_pos rfl] at hfit ⊢
    refine tgtSetenv_of_insertEntry h hop hz hexp hne hown hlen fun buf hbuf _ => ?_
    obtain ⟨m, hm, harea, -⟩ := insertEntry_front hbuf hentry hlen hfit
    exact ⟨m, hm, harea⟩
  · rw [if_neg hheaptop] at hfit ⊢
    refine tgtSetenv_of_insertEntry h hop hz hexp hne hown hlen fun buf hbuf _ => ?_
    obtain ⟨m, hm, harea, -⟩ := insertEntry_append hbuf hheaptop hentry hlen hfit
    exact ⟨m, hm, harea⟩

end Pmon.Nvram
