import Mathlib.Data.List.TakeWhile
import Pmon.Nvram.Model

/-!
# Entries of the environment area

The abstract side of the store: an image is a list of entries, an entry is a name with an
optional value, and setting or unsetting a variable edits the list.

`unlist` is what the scan of `tgt_unsetenv` amounts to on such a list.  It removes the first
entry called `name`, but never looks behind an entry without value that is a proper prefix
of `name`: there the scan is left standing on the NUL and gives up.
`unlist_eq_removeName_iff` says when that is the intended removal.
-/

namespace Pmon.Nvram

open Pmon.Lib Pmon.Libc

/-! ## §1 Names and values -/

/-- The bytes of one variable, without the NUL. -/
def entry (name : CStr) : Option CStr → CStr
  | none => name
  | some v => name ++ eqSign :: v

/-- The name of an entry: what stands before the first `=`. -/
def entryName (e : CStr) : CStr := e.takeWhile (· != eqSign)

/-- The value of an entry: what stands behind the first `=`. -/
def entryValue (e : CStr) : Option CStr :=
  match e.dropWhile (· != eqSign) with
  | [] => none
  | _ :: v => some v

/-- What `tgt_mapenv` reports for an entry. -/
def entryReport (e : CStr) : Report := (entryName e, entryValue e)

/-- Name and value give the entry back. -/
theorem entry_entryReport (e : CStr) : entry (entryName e) (entryValue e) = e := by
  have hsplit := List.takeWhile_append_dropWhile (p := (· != eqSign)) (l := e)
  unfold entryName entryValue
  rcases hd : e.dropWhile (· != eqSign) with _ | ⟨c, v⟩
  · rw [hd, List.append_nil] at hsplit
    exact hsplit
  · have hc : c = eqSign := by
      have hne : e.dropWhile (· != eqSign) ≠ [] := by simp [hd]
      simpa [hd] using List.head_dropWhile_not (· != eqSign) hne
    rw [hd, hc] at hsplit
    exact hsplit

theorem entryReport_injective : Function.Injective entryReport := by
  intro e e' h
  rw [entryReport, entryReport, Prod.mk.injEq] at h
  rw [← entry_entryReport e, ← entry_entryReport e', h.1, h.2]

private theorem takeWhile_name {name : CStr} (h : eqSign ∉ name) :
    ∀ c ∈ name, (c != eqSign) = true := fun c hc => by
  simp only [bne_iff_ne, ne_eq]
  rintro rfl
  exact h hc

@[simp] theorem entryName_entry {name : CStr} (h : eqSign ∉ name) (value : Option CStr) :
    entryName (entry name value) = name := by
  cases value with
  | none => exact List.takeWhile_eq_self_iff.mpr (takeWhile_name h)
  | some v =>
    rw [entry, entryName, List.takeWhile_append_of_pos (takeWhile_name h)]
    simp

@[simp] theorem entryValue_entry {name : CStr} (h : eqSign ∉ name) (value : Option CStr) :
    entryValue (entry name value) = value := by
  cases value with
  | none =>
    have : name.dropWhile (· != eqSign) = [] := List.dropWhile_eq_nil_iff.mpr (takeWhile_name h)
    rw [entry, entryValue, this]
  | some v =>
    have : (name ++ eqSign :: v).dropWhile (· != eqSign) = eqSign :: v := by
      rw [List.dropWhile_append_of_pos (takeWhile_name h)]
      simp
    rw [entry, entryValue, this]

theorem entryReport_entry {name : CStr} (h : eqSign ∉ name) (value : Option CStr) :
    entryReport (entry name value) = (name, value) := by
  rw [entryReport, entryName_entry h, entryValue_entry h]

theorem entryBytes_eq (name : CStr) (value : Option CStr) :
    entryBytes name value = entry name value ++ [0] := by
  cases value <;> rfl

/-- `envlen` allows for an `=` also where there is none. -/
theorem length_entry_lt (name : CStr) (value : Option CStr) :
    (entry name value).length + 1 ≤ envlen name value := by
  cases value <;> simp [entry, envlen]
  omega

theorem length_entry_some (name v : CStr) :
    (entry name (some v)).length + 1 = envlen name (some v) := by
  simp [entry, envlen]
  omega

/-- A non-empty name and NUL-free strings make an entry. -/
theorem isEntry_entry {name : CStr} {value : Option CStr} (hne : name ≠ [])
    (hname : (0 : UInt8) ∉ name) (hvalue : ∀ v ∈ value, (0 : UInt8) ∉ v) :
    IsEntry (entry name value) := by
  cases value with
  | none => exact ⟨hne, hname⟩
  | some v =>
    refine ⟨by simp [entry], ?_⟩
    simp only [entry, List.mem_append, List.mem_cons, not_or]
    exact ⟨hname, by decide, hvalue v rfl⟩

/-! ## §2 Editing the list -/

/-- The entries without those called `name`. -/
def removeName (name : CStr) (es : List CStr) : List CStr :=
  es.filter fun e => entryName e ≠ name

/-- Setting a variable on the list: in front for `heaptop`, at the end for all others. -/
def setEntry (name : CStr) (value : Option CStr) (es : List CStr) : List CStr :=
  if name = ascii "heaptop" then entry name value :: removeName name es
  else removeName name es ++ [entry name value]

/-- An entry at which the scan for `name` gives up: no `=` in it, and a proper prefix. -/
def Obstructs (name d : CStr) : Prop := eqSign ∉ d ∧ d <+: name ∧ d ≠ name

instance (name d : CStr) : Decidable (Obstructs name d) :=
  inferInstanceAs (Decidable (eqSign ∉ d ∧ d <+: name ∧ d ≠ name))

/-- Every entry called `name` can be found: nothing in front of it is called `name` as well,
    and nothing in front of it obstructs the scan. -/
def Clear (name : CStr) (es : List CStr) : Prop :=
  es.Pairwise fun d e => entryName e = name → entryName d ≠ name ∧ ¬Obstructs name d

instance (name : CStr) (es : List CStr) : Decidable (Clear name es) :=
  inferInstanceAs (Decidable (List.Pairwise _ _))

/-- What the scan of `tgt_unsetenv` finds: the entries before, the entry, those behind. -/
def locate (name : CStr) : List CStr → Option (List CStr × CStr × List CStr)
  | [] => none
  | e :: es =>
    if entryName e = name then some ([], e, es)
    else if Obstructs name e then none
    else (locate name es).map fun (ds, f, fs) => (e :: ds, f, fs)

/-- The entries that `tgt_unsetenv` leaves. -/
def unlist (name : CStr) : List CStr → List CStr
  | [] => []
  | e :: es =>
    if entryName e = name then es
    else if Obstructs name e then e :: es
    else e :: unlist name es

theorem locate_eq_some {name e : CStr} {es ds fs : List CStr}
    (h : locate name es = some (ds, e, fs)) :
    es = ds ++ e :: fs ∧ entryName e = name ∧ unlist name es = ds ++ fs := by
  induction es generalizing ds with
  | nil => cases h
  | cons d es ih =>
    rw [locate] at h
    rw [unlist]
    split at h
    case isTrue hd =>
      cases h
      rw [if_pos hd]
      exact ⟨rfl, hd, rfl⟩
    case isFalse hd =>
      split at h
      case isTrue => cases h
      case isFalse hob =>
        simp only [Option.map_eq_some_iff, Prod.exists, Prod.mk.injEq] at h
        obtain ⟨ds', _, _, hloc, rfl, rfl, rfl⟩ := h
        obtain ⟨rfl, hname, hun⟩ := ih hloc
        rw [if_neg hd, if_neg hob, hun]
        exact ⟨rfl, hname, rfl⟩

theorem unlist_of_locate_eq_none {name : CStr} {es : List CStr} (h : locate name es = none) :
    unlist name es = es := by
  induction es with
  | nil => rfl
  | cons d es ih =>
    rw [locate] at h
    rw [unlist]
    split at h
    case isTrue => cases h
    case isFalse hd =>
      rw [if_neg hd]
      split at h
      case isTrue hob => rw [if_pos hob]
      case isFalse hob =>
        rw [if_neg hob, ih (by simpa using h)]

theorem removeName_eq_self {name : CStr} {es : List CStr} :
    removeName name es = es ↔ ∀ e ∈ es, entryName e ≠ name := by
  simp [removeName, List.filter_eq_self]

/-- **When the scan is the intended removal**: exactly when every entry called `name` can be
    found. -/
theorem unlist_eq_removeName_iff {name : CStr} {es : List CStr} :
    unlist name es = removeName name es ↔ Clear name es := by
  -- an entry in front of which the scan stops wants no further entry called `name`
  have hstop : ∀ es : List CStr, es = removeName name es ↔
      (∀ e ∈ es, entryName e = name → False) ∧ Clear name es := fun es => by
    rw [eq_comm, removeName_eq_self]
    refine ⟨fun h => ⟨h, ?_⟩, fun h => h.1⟩
    exact List.pairwise_of_forall_mem_list fun d _ e he hname => absurd hname (h e he)
  induction es with
  | nil => simp [unlist, removeName, Clear]
  | cons e es ih =>
    rw [unlist, Clear, List.pairwise_cons]
    by_cases hname : entryName e = name
    · rw [if_pos hname, removeName, List.filter_cons_of_neg (by simpa using hname)]
      simpa [hname, removeName, Clear] using hstop es
    · rw [if_neg hname, removeName, List.filter_cons_of_pos (by simpa using hname)]
      by_cases hob : Obstructs name e
      · rw [if_pos hob, List.cons.injEq]
        simpa [hob, removeName, Clear] using hstop es
      · rw [if_neg hob, List.cons.injEq]
        simpa [hname, hob, removeName, Clear] using ih

theorem unlist_sublist (name : CStr) (es : List CStr) : (unlist name es).Sublist es := by
  induction es with
  | nil => exact List.Sublist.refl _
  | cons e es ih =>
    rw [unlist]
    split
    · exact List.sublist_cons_self ..
    · split
      · exact List.Sublist.refl _
      · exact ih.cons_cons e

theorem length_strings_le_of_sublist {es es' : List CStr} (h : es'.Sublist es) :
    (strings es').length ≤ (strings es).length := by
  induction h with
  | slnil => simp
  | cons _ _ ih => simp only [strings_cons, List.length_append, List.length_cons]; omega
  | cons_cons _ _ ih => simp only [strings_cons, List.length_append, List.length_cons]; omega

end Pmon.Nvram
