import Pmon.Nvram.Store

/-!
# The round trip through the store

For an ordinary variable that fits, `tgt_setenv` followed by `tgt_mapenv` should report the
other entries and the new one, and `tgt_unsetenv` should remove the entry and no other.
`setenv_unsetenv_exact_iff` says exactly when this is so.  Two things are in the way:

* the scan of `tgt_unsetenv` stops at an entry without value that is a proper prefix of the
  name, and it removes one entry only (`Clear`);
* `heaptop` without a value moves the other entries up by one byte too many, which leaves a
  stale byte behind the new entry.

Entries of more than 254 characters are refused by the code.
-/

namespace Pmon.Nvram

open Pmon.Lib Pmon.Libc

variable {nv : NvState} {m : Mem} {name : CStr} {value : Option CStr} {es gs : List CStr}

/-! ## §1 What is asked of the store -/

/-- A name whose variable is stored in the area. -/
structure Ordinary (name : CStr) : Prop where
  ne_nil : name ≠ []
  no_nul : (0 : UInt8) ∉ name
  no_eq : eqSign ∉ name
  not_expert : name ≠ expert
  not_ownPlace : name ∉ ownPlace

local instance cstrLawfulBEq : LawfulBEq CStr := inferInstanceAs (LawfulBEq (List UInt8))

instance (name : CStr) : Decidable (Ordinary name) :=
  decidable_of_iff (name ≠ [] ∧ (0 : UInt8) ∉ name ∧ eqSign ∉ name ∧ name ≠ expert ∧
    name ∉ ownPlace)
    ⟨fun ⟨h1, h2, h3, h4, h5⟩ => ⟨h1, h2, h3, h4, h5⟩, fun ⟨h1, h2, h3, h4, h5⟩ =>
      ⟨h1, h2, h3, h4, h5⟩⟩

/-- `tgt_setenv` succeeds, and the sector then holds, in some order, the entries not called
    `name` with their bytes unchanged and the new entry; its checksum verifies, and
    `tgt_mapenv` reports these entries and nothing else from the area. -/
def SetsExactly (dev : Board) (nv : NvState) (op : SetenvOps) (name : CStr)
    (value : Option CStr) (es : List CStr) : Prop :=
  (tgtSetenv nv op name value).1 = 1 ∧
    ∃ gs, gs.Perm (entry name value :: removeName name es) ∧
      Stores (tgtSetenv nv op name value).2 gs ∧
      (gs.map entryReport).Perm ((name, value) :: (removeName name es).map entryReport) ∧
      (tgtMapenv dev (tgtSetenv nv op name value).2).1 =
        gs.map entryReport ++ boardReports dev (tgtMapenv dev (tgtSetenv nv op name value).2).2

/-- After `tgt_unsetenv` the sector holds the entries not called `name`. -/
def UnsetsExactly (nv : NvState) (op : FlashOp) (name : CStr) (es : List CStr) : Prop :=
  Stores (tgtUnsetenv nv op name).2 (removeName name es)

/-! ## §2 When it is given -/

theorem unsetsExactly_iff {op : FlashOp} (h : Stores nv es) (hop : op.fault = .none)
    (hz : (0 : UInt8) ∉ name) : UnsetsExactly nv op name es ↔ Clear name es := by
  refine ⟨fun hun => ?_, tgtUnsetenv_removeName h hop hz⟩
  obtain ⟨flash, heq, himg, -, -⟩ := tgtUnsetenv_stores h hop hz
  rw [UnsetsExactly, heq] at hun
  exact unlist_eq_removeName_iff.mp (himg.toArea.unique hun.toArea)

theorem setEntry_perm (name : CStr) (value : Option CStr) (es : List CStr) :
    (setEntry name value es).Perm (entry name value :: removeName name es) := by
  rw [setEntry]
  split
  · exact List.Perm.refl _
  · exact List.perm_append_singleton _ _

/-- Success with a suitable list of entries is all that is asked. -/
theorem setsExactly_of_stores {dev : Board} {op : SetenvOps} (hdev : dev.devident = true)
    (hname : eqSign ∉ name) (hperm : gs.Perm (entry name value :: removeName name es))
    (h : (tgtSetenv nv op name value).1 = 1 ∧ Stores (tgtSetenv nv op name value).2 gs) :
    SetsExactly dev nv op name value es := by
  refine ⟨h.1, gs, hperm, h.2, ?_, h.2.toImage.tgtMapenv_eq hdev⟩
  have := hperm.map entryReport
  rwa [List.map_cons, entryReport_entry hname] at this

/-- The gap behind `heaptop` without a value shows, unless it is the end of the area. -/
theorem gap_of_area (h : Area m gs) (hes : ∀ e ∈ es, IsEntry e)
    (hperm : gs.Perm (entry (ascii "heaptop") none :: es))
    (hfront : m.Holds 2 (ascii "heaptop" ++ [0])) (hrest : m.Holds 11 (packed es)) :
    es = [] ∧ m 10 = 0 := by
  cases gs with
  | nil => exact absurd hperm.nil_eq (by simp)
  | cons g gs =>
    have hent : ∀ e ∈ gs, IsEntry e := fun e he => h.isEntry e (List.mem_cons_of_mem _ he)
    have hholds := Mem.holds_packed_cons.mp h.holds
    have hg : g = ascii "heaptop" := Mem.holds_string_unique hholds.1 hfront
      (h.isEntry g (List.mem_cons_self ..)).not_mem (by decide)
    subst hg
    have hperm' : gs.Perm es := hperm.cons_inv
    have hgs : m.Holds 10 (packed gs) := hholds.2
    rcases List.eq_nil_or_concat es with rfl | ⟨_, _, hes'⟩
    · rw [hperm'.eq_nil] at hgs
      exact ⟨rfl, hgs.1⟩
    · -- the last NUL of the one reading is the last character of the other
      have hne : es ≠ [] := by simp [hes']
      obtain ⟨hlen, hnul, -⟩ := Mem.holds_packed_last hgs hent
        (fun h0 => hne (by rw [h0] at hperm'; exact hperm'.symm.eq_nil))
      obtain ⟨-, -, hchar⟩ := Mem.holds_packed_last hrest hes hne
      rw [length_strings_perm hperm'] at hlen hnul
      rw [show 10 + (strings es).length - 1 = 11 + (strings es).length - 2 by omega] at hnul
      exact absurd hnul hchar

/-- `heaptop` without a value: what the insertion gives. -/
theorem setsExactly_heaptop_none {dev : Board} {op : SetenvOps} (h : Stores nv es)
    (hop : op.Succeeds) (hdev : dev.devident = true) (hclear : Clear (ascii "heaptop") es) :
    SetsExactly dev nv op (ascii "heaptop") none es ↔
      removeName (ascii "heaptop") es = [] ∧ nv.flash (10 + (strings es).length) = 0 := by
  have hun := unlist_eq_removeName_iff.mpr hclear
  have hz : (0 : UInt8) ∉ ascii "heaptop" := by decide
  constructor
  · rintro ⟨-, gs, hperm, hst, -, -⟩
    obtain ⟨nv₁, hst₁, ⟨flash, hnv₁⟩, -, htail, heq⟩ := tgtSetenv_eq (ascii "heaptop") none
      (.valid h) hop.reinit hop.unset hz (by decide) (by decide) (by decide)
    obtain ⟨m, hm, hfront, h10, hrest⟩ :=
      insertEntry_front_none (hst₁.toImage.load op.store).toArea
    rw [heq, hop.store] at hst
    dsimp only at hst
    rw [editBuffer_of_not_ownPlace _ _ _ (by decide), hm] at hst
    simp only [Option.map_some, FlashOp.program_eq hop.store, if_true] at hst
    have harea : Area m gs := hst.toArea.congr fun i hi hlt => by
      simp only [nvramSize] at hlt
      dsimp only
      rw [Mem.copyFrom_of_lt (by simp only [nvramSecsize]; omega), sealBuffer_apply nv₁ hi hlt]
    rw [hun] at hrest hst₁ htail
    obtain ⟨hnil, h0⟩ := gap_of_area harea hst₁.isEntry hperm hfront hrest
    rw [h10, op.store.load_apply _ (by decide), htail h.valid hnil] at h0
    exact ⟨hnil, h0⟩
  · rintro ⟨hnil, hflash⟩
    rw [← hun] at hnil
    have hperm : [ascii "heaptop"].Perm
        (entry (ascii "heaptop") none :: removeName (ascii "heaptop") es) := by
      rw [← hun, hnil]
      exact List.Perm.refl _
    refine setsExactly_of_stores hdev (by decide) hperm ?_
    refine tgtSetenv_of_insertEntry (.valid h) hop hz (by decide) (by decide) (by decide)
      (by decide) fun buf hbuf htail => ?_
    obtain ⟨m, hm, hfront, h10, -⟩ := insertEntry_front_none hbuf
    refine ⟨m, hm, ?_, by simpa using ⟨by decide, by decide⟩, by decide, by decide⟩
    rw [Mem.holds_packed_cons]
    refine ⟨hfront, ?_, trivial⟩
    rw [← hflash, ← htail h.valid hnil, ← h10]
    rfl

theorem length_packed_setEntry (name : CStr) (value : Option CStr) (es : List CStr) :
    (packed (setEntry name value es)).length =
      (packed (entry name value :: removeName name es)).length := by
  rw [length_packed, length_packed, length_strings_perm (setEntry_perm name value es)]

/-- Any other variable that can be found and fits. -/
theorem setsExactly_of_clear {dev : Board} {op : SetenvOps} (h : Stores nv es)
    (hop : op.Succeeds) (hdev : dev.devident = true) (hname : Ordinary name)
    (hvalue : ∀ v ∈ value, (0 : UInt8) ∉ v)
    (hfit : 2 + (packed (entry name value :: removeName name es)).length ≤ nvramSize)
    (hclear : Clear name es) (hlen : envlen name value ≤ 255)
    (hheap : name = ascii "heaptop" → value ≠ none) : SetsExactly dev nv op name value es :=
  setsExactly_of_stores hdev hname.no_eq (setEntry_perm name value es) <|
    tgtSetenv_setEntry (.valid h) hop hname.no_nul hvalue hname.not_expert hname.ne_nil
      hname.not_ownPlace hlen hclear hheap (by rwa [length_packed_setEntry])

/-- **The round trip**: on a valid image, setting and unsetting an ordinary variable that fits
    do exactly what they should if and only if every entry of that name can be found, name and
    value together have at most 253 characters, and `heaptop` is given a value unless it is to
    be the only entry and the byte behind it is NUL already. -/
theorem setenv_unsetenv_exact_iff (dev : Board) (hdev : dev.devident = true) (nv : NvState)
    (es : List CStr) (h : Stores nv es) (name : CStr) (value : Option CStr)
    (hname : Ordinary name) (hvalue : ∀ v ∈ value, (0 : UInt8) ∉ v)
    (hfit : 2 + (packed (entry name value :: removeName name es)).length ≤ nvramSize)
    (op : SetenvOps) (hop : op.Succeeds) (un : FlashOp) (hun : un.fault = .none) :
    (SetsExactly dev nv op name value es ∧ UnsetsExactly nv un name es) ↔
      Clear name es ∧ envlen name value ≤ 255 ∧
        (name = ascii "heaptop" → value = none →
          removeName name es = [] ∧ nv.flash (10 + (strings es).length) = 0) := by
  rw [unsetsExactly_iff h hun hname.no_nul]
  constructor
  · rintro ⟨hset, hclear⟩
    refine ⟨hclear, ?_, ?_⟩
    · by_contra hlong
      have hrefused : tgtSetenv nv op name value = (0, nv) := by
        rw [tgtSetenv, if_neg hname.not_expert, if_neg hname.ne_nil, if_pos (by omega)]
      have := hset.1
      rw [hrefused] at this
      exact absurd this (by simp)
    · rintro rfl rfl
      exact (setsExactly_heaptop_none h hop hdev hclear).mp hset
  · rintro ⟨hclear, hlen, hgap⟩
    refine ⟨?_, hclear⟩
    by_cases hnone : name = ascii "heaptop" ∧ value = none
    · obtain ⟨rfl, rfl⟩ := hnone
      exact (setsExactly_heaptop_none h hop hdev hclear).mpr (hgap rfl rfl)
    · exact setsExactly_of_clear h hop hdev hname hvalue hfit hclear hlen
        fun hheap hnull => hnone ⟨hheap, hnull⟩

/-! ## §3 On a board -/

/-- A board whose flash is found. -/
def someBoard : Board where
  devident := true
  flashBase := fun _ => 0
  memorysize := 0x10000000
  memorysizeHigh := 0
  pipefreq := 0
  cpufreq := 0
  systype := ascii "ls2k"
  version := 1

/-- A state whose sector holds `es`. -/
def stateOf (es : List CStr) : NvState where
  flash := imageOf es
  invalid := 0
  activecom := 3
  emEnable := 3
  hwethadr := ⟨List.replicate 12 0, rfl⟩
  ls2kver := 0

/-- A sector update without a fault. -/
def goodOp : FlashOp := ⟨.none, fun _ => 0⟩

/-- `tgt_setenv` without a fault. -/
def goodOps : SetenvOps := ⟨goodOp, goodOp, goodOp, 0⟩

theorem goodOps_succeeds : goodOps.Succeeds := ⟨rfl, rfl, rfl⟩

/-- On `foo=1` the variable `bar` makes the round trip. -/
theorem setenv_unsetenv_exact_bar :
    SetsExactly someBoard (stateOf [ascii "foo=1"]) goodOps (ascii "bar") (some (ascii "2"))
        [ascii "foo=1"] ∧
      UnsetsExactly (stateOf [ascii "foo=1"]) goodOp (ascii "bar") [ascii "foo=1"] :=
  (setenv_unsetenv_exact_iff someBoard rfl _ _
    ⟨imageOf_image (by simpa using ⟨by decide, by decide⟩) (by decide) (by decide), rfl⟩
    (ascii "bar") (some (ascii "2")) (by decide) (by decide) (by decide) goodOps goodOps_succeeds
    goodOp rfl).mpr ⟨by decide, by decide, by decide⟩

/-- Behind the entry `ab` the scan does not find `abc`: `tgt_unsetenv` reports that there is
    nothing to remove, and the entry stays. -/
theorem tgtUnsetenv_misses_behind_prefix :
    Stores (stateOf [ascii "ab", ascii "abc=1"]) [ascii "ab", ascii "abc=1"] ∧
      Ordinary (ascii "abc") ∧
      tgtUnsetenv (stateOf [ascii "ab", ascii "abc=1"]) goodOp (ascii "abc") =
        (0, stateOf [ascii "ab", ascii "abc=1"]) ∧
      ¬UnsetsExactly (stateOf [ascii "ab", ascii "abc=1"]) goodOp (ascii "abc")
        [ascii "ab", ascii "abc=1"] := by
  have hst : Stores (stateOf [ascii "ab", ascii "abc=1"]) [ascii "ab", ascii "abc=1"] :=
    ⟨imageOf_image (by
      simpa using ⟨⟨by decide, by decide⟩, ⟨by decide, by decide⟩⟩) (by decide) (by decide), rfl⟩
  refine ⟨hst, by decide, ?_, ?_⟩
  · rw [tgtUnsetenv_eq hst rfl (by decide)]
    rfl
  · rw [unsetsExactly_iff hst rfl (by decide)]
    decide

end Pmon.Nvram
