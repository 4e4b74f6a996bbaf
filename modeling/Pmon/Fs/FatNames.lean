import Mathlib.Data.List.DropRight
import Pmon.Fs.FatDir

/-!
# Names in a FAT directory

What the slots of a directory stand for: the live entries with their short and long names.  A long
name is taken when its slots are all there, in order, and carry the sum of the short name.

## Key results

- `shortName_read`, `longName_read`: the names that `fat_parseDirEntries` makes of plain slots.
- `scanSlots_names`: a scan of plain slots finds the first entry that the component names.
-/

namespace Pmon.Fs.Fat

open Pmon.Lib Pmon.Libc

/-! ## §1 Entries and their names -/

/-- A live entry: its own slot, and the slots in front of it that hold a long name. -/
structure LiveEntry where
  run : List Slot
  slot : Slot

/-- The cluster that an entry starts at. -/
def LiveEntry.cluster (e : LiveEntry) : ℕ := e.slot.half 26 + 65536 * e.slot.half 20

def LiveEntry.size (e : LiveEntry) : ℕ := e.slot.half 28 + 65536 * e.slot.half 30

/-- `ATTR_VOLUME`. -/
def Slot.IsLabel (d : Slot) : Prop := d.attributes &&& 0x08 ≠ 0

/-- `ATTR_DIRECTORY`. -/
def LiveEntry.IsDirectory (e : LiveEntry) : Prop := e.slot.attributes &&& 0x10 ≠ 0

instance (d : Slot) : Decidable d.IsLabel := inferInstanceAs (Decidable (_ ≠ _))

/-- **The live entries** of a directory, up to the first slot that has never been used; `run` holds
    the slots of a long name that has begun. -/
def liveEntries : (run slots : List Slot) → List LiveEntry
  | _, [] => []
  | run, d :: ds =>
    if d.at 0 = slotEmpty then []
    else if d.at 0 = slotDeleted then liveEntries [] ds
    else if d.attributes = attrWin95 then liveEntries (run ++ [d]) ds
    else if d.IsLabel then liveEntries [] ds
    else ⟨run, d⟩ :: liveEntries [] ds

/-- A field of a short name without the blanks behind it. -/
def trimmed (field : List UInt8) : List UInt8 := field.rdropWhile (· = 32)

/-- A short name: the base, and behind a dot the extension; 0x05 stands for 0xe5. -/
def LiveEntry.shortName (e : LiveEntry) : List UInt8 :=
  let base :=
    match trimmed (e.slot.take 8) with
    | 5 :: rest => 0xe5 :: rest
    | base => base
  match trimmed ((e.slot.drop 8).take 3) with
  | [] => base
  | extension => base ++ 46 :: extension

/-- The sum of a short name that the slots of its long name carry. -/
def LiveEntry.sum (e : LiveEntry) : ℕ :=
  (e.slot.take 11).foldl (fun sum b => (sum % 2 * 128 + sum / 2 + b.toNat) % 256) 0

/-- The numbers of `n` slots: they stand from the last to the first, and the last is marked. -/
def runNumbers (n : ℕ) : List ℕ :=
  (List.range n).map fun i => if i = 0 then 64 + n else n - i

/-- The slots of a long name are all there, in order, and belong to the entry. -/
structure LiveEntry.Complete (e : LiveEntry) : Prop where
  some : e.run ≠ []
  numbers : e.run.map (fun d => (d.at 0).toNat) = runNumbers e.run.length
  sums : ∀ d ∈ e.run, (d.at 13).toNat = e.sum

instance (e : LiveEntry) : Decidable e.Complete :=
  decidable_of_iff (e.run ≠ [] ∧ e.run.map (fun d => (d.at 0).toNat) = runNumbers e.run.length ∧
      ∀ d ∈ e.run, (d.at 13).toNat = e.sum)
    ⟨fun h => ⟨h.1, h.2.1, h.2.2⟩, fun h => ⟨h.some, h.numbers, h.sums⟩⟩

/-- The 13 characters of a `struct winentry`. -/
def winUnits (d : Slot) : List ℕ := [1, 3, 5, 7, 9, 14, 16, 18, 20, 22, 24, 28, 30].map d.half

/-- The characters of a long name, as far as the terminating zero. -/
def LiveEntry.longName (e : LiveEntry) : List ℕ :=
  (e.run.reverse.flatMap winUnits).takeWhile (· ≠ 0)

/-- An ASCII letter in one case. -/
def lowerCase (c : ℕ) : ℕ := if 65 ≤ c ∧ c ≤ 90 then c + 32 else c

/-- A component spells a name, whatever the case. -/
def Spells (component : CStr) (chars : List ℕ) : Prop :=
  component.map (fun b => lowerCase b.toNat) = chars.map lowerCase

instance (component : CStr) (chars : List ℕ) : Decidable (Spells component chars) :=
  inferInstanceAs (Decidable (_ = _))

/-- **A component names an entry**, by its short name or its long name of up to 255 characters. -/
def LiveEntry.Named (component : CStr) (e : LiveEntry) : Prop :=
  component ≠ [] ∧ (Spells component (e.shortName.map UInt8.toNat) ∨
    (e.Complete ∧ e.longName.length ≤ 255 ∧ Spells component e.longName))

instance (component : CStr) (e : LiveEntry) : Decidable (e.Named component) :=
  inferInstanceAs (Decidable (_ ∧ (_ ∨ _)))

/-- The first entry that a component names. -/
def firstNamed (component : CStr) (entries : List LiveEntry) : Option LiveEntry :=
  entries.find? fun e => e.Named component

/-- What a search hands out is the entry. -/
structure LiveEntry.Describes (e : LiveEntry) (filee : FileEntry) : Prop where
  cluster_eq : filee.cluster = e.cluster
  size_eq : filee.fileSize = e.size
  shortName_eq : filee.shortName = e.shortName

/-! ## §2 Slots that are read as they stand -/

/-- A short name has no blanks inside its fields, no zeros, and no 0x05 in front. -/
structure ShortPlain (d : Slot) : Prop where
  base : 32 ∉ trimmed (d.take 8)
  extension : 32 ∉ trimmed ((d.drop 8).take 3)
  lead : d.at 0 ≠ 5
  zero : 0 ∉ d.take 11

/-- A long name is all there, has at most nine slots, and its characters are bytes but no line
    feeds. -/
structure LongPlain (e : LiveEntry) : Prop where
  complete : e.Complete
  few : e.run.length < maxDirbuf
  bytes : ∀ c ∈ e.longName, c < 256 ∧ c ≠ 10

/-- The slots of an entry are read as they stand. -/
structure EntryPlain (e : LiveEntry) : Prop where
  short : ShortPlain e.slot
  long : e.run = [] ∨ LongPlain e

/-- **The slots that a scan goes through** are plain: the entries up to the one that is named, no
    slots of a long name but in front of their entry, and no volume label of the same name. -/
def SlotsPlain (component : CStr) : (run slots : List Slot) → Prop
  | _, [] => True
  | run, d :: ds =>
    if d.at 0 = slotEmpty then True
    else if d.at 0 = slotDeleted then run = [] ∧ SlotsPlain component [] ds
    else if d.attributes = attrWin95 then SlotsPlain component (run ++ [d]) ds
    else if d.IsLabel then
      run = [] ∧ ¬ strcasecmpZero component (parseShortFilename d) ∧ SlotsPlain component [] ds
    else
      EntryPlain ⟨run, d⟩ ∧
        (¬ LiveEntry.Named component ⟨run, d⟩ → SlotsPlain component [] ds)

/-! ## §3 The names that are read -/

variable {component : CStr} {d : Slot} {e : LiveEntry} {dirbuf : ℕ → Slot} {filee : FileEntry}

theorem takeWhile_trimmed {field : List UInt8} (h : 32 ∉ trimmed field) :
    field.takeWhile (· ≠ 32) = trimmed field := by
  have hsplit : trimmed field ++ field.rtakeWhile (· = 32) = field :=
    List.rdropWhile_append_rtakeWhile
  conv_lhs => rw [← hsplit]
  rw [List.takeWhile_append_of_pos]
  · -- only blanks are left
    have hblanks : (field.rtakeWhile (· = 32)).takeWhile (· ≠ 32) = [] := by
      rw [List.takeWhile_eq_nil_iff]
      intro hlen hne
      have hblank := List.mem_rtakeWhile_imp (List.get_mem (field.rtakeWhile (· = 32)) ⟨0, hlen⟩)
      simp only [decide_eq_true_eq] at hblank hne
      exact hne hblank
    rw [hblanks, List.append_nil]
  · intro b hb
    simp only [decide_eq_true_eq]
    rintro rfl
    exact h hb

theorem trimmed_front (field : List UInt8) : trimmed field <+: field :=
  List.rdropWhile_prefix _ _

theorem mem_trimmed {field : List UInt8} {b : UInt8} (h : b ∈ trimmed field) : b ∈ field :=
  (trimmed_front field).subset h

theorem takeWhile_no_zero {s : CStr} (h : 0 ∉ s) : s.takeWhile (· ≠ 0) = s := by
  rw [List.takeWhile_eq_self_iff]
  intro b hb
  simp only [decide_eq_true_eq]
  rintro rfl
  exact h hb

theorem trimmed_eq_nil_iff {field : List UInt8} (h : 32 ∉ trimmed field) :
    trimmed field = [] ↔ ∀ b ∈ field.head?, b = 32 := by
  rw [← takeWhile_trimmed h]
  cases field with
  | nil => simp
  | cons b field => simp

/-- **A plain short name** is read as it stands. -/
theorem shortName_read (h : ShortPlain e.slot) (hlen : e.slot.length = 32) :
    parseShortFilename e.slot = e.shortName := by
  have hfield : ∀ b ∈ e.slot.take 8 ++ (e.slot.drop 8).take 3, b ≠ 0 := by
    intro b hb
    rintro rfl
    apply h.zero
    rw [← List.take_append_drop 8 (e.slot.take 11), List.take_take, List.drop_take]
    exact hb
  have hhead : ((e.slot.drop 8).take 3).head? = some (e.slot.at 8) := by
    rw [List.head?_take, if_neg (by decide), List.head?_drop, Slot.at, List.getD,
      List.getElem?_eq_getElem (by omega)]
    rfl
  have hempty := trimmed_eq_nil_iff h.extension
  rw [hhead] at hempty
  simp only [Option.mem_some_iff, forall_eq'] at hempty
  have hbase : (match trimmed (e.slot.take 8) with
      | 5 :: rest => 0xe5 :: rest
      | base => base) = trimmed (e.slot.take 8) := by
    split
    · next rest hlead =>
      -- the first byte would be 0x05
      exfalso
      apply h.lead
      obtain ⟨more, hmore⟩ := trimmed_front (e.slot.take 8)
      rw [hlead] at hmore
      have hfirst := congrArg List.head? hmore
      rw [List.head?_take, if_neg (by decide)] at hfirst
      rw [Slot.at, List.getD, ← List.head?_eq_getElem?, ← hfirst]
      rfl
    · rfl
  have hzero : ∀ b ∈ trimmed (e.slot.take 8) ++ trimmed ((e.slot.drop 8).take 3), b ≠ 0 := by
    intro b hb
    apply hfield
    rcases List.mem_append.mp hb with hb | hb
    · exact List.mem_append_left _ (mem_trimmed hb)
    · exact List.mem_append_right _ (mem_trimmed hb)
  unfold parseShortFilename LiveEntry.shortName
  dsimp only
  rw [hbase, takeWhile_trimmed h.base, takeWhile_trimmed h.extension]
  by_cases hdot : e.slot.at 8 = 32
  · rw [if_neg (not_not.mpr hdot), hempty.mpr hdot, List.append_nil, List.append_nil]
    apply takeWhile_no_zero
    intro hmem
    exact hzero 0 (List.mem_append_left _ hmem) rfl
  · rw [if_pos hdot]
    have hne : trimmed ((e.slot.drop 8).take 3) ≠ [] := fun hnil => hdot (hempty.mp hnil)
    split
    · next hnil => exact absurd hnil hne
    · rw [List.append_assoc, List.singleton_append]
      apply takeWhile_no_zero
      intro hmem
      rcases List.mem_append.mp hmem with hmem | hmem
      · exact hzero 0 (List.mem_append_left _ hmem) rfl
      · rcases List.mem_cons.mp hmem with hdotzero | hmem
        · cases hdotzero
        · exact hzero 0 (List.mem_append_right _ hmem) rfl

theorem tolower_toNat (b : UInt8) : (tolower b).toNat = lowerCase b.toNat := by
  have hlt := b.toNat_lt
  unfold tolower isupper lowerCase
  simp only [Bool.and_eq_true, decide_eq_true_eq, UInt8.le_iff_toNat_le]
  by_cases hupper : 65 ≤ b.toNat ∧ b.toNat ≤ 90
  · have hsum : (b + 32).toNat = b.toNat + 32 := by
      rw [UInt8.toNat_add]
      simp only [UInt8.reduceToNat]
      omega
    rw [if_pos hupper, if_pos (by simpa using hupper), hsum]
  · rw [if_neg hupper, if_neg (by simpa using hupper)]

/-- `strcasecmp` of a component with the bytes of a name. -/
theorem strcasecmpZero_iff (s t : CStr) :
    strcasecmpZero s t = true ↔ Spells s (t.map UInt8.toNat) := by
  have hlower : ∀ u : CStr,
      (u.map tolower).map UInt8.toNat = u.map fun b => lowerCase b.toNat := by
    intro u
    rw [List.map_map]
    apply List.map_congr_left
    intro b _
    exact tolower_toNat b
  have hinj : Function.Injective (List.map UInt8.toNat) :=
    List.map_injective_iff.mpr fun a b h => UInt8.toNat_inj.mp h
  unfold strcasecmpZero Spells
  rw [decide_eq_true_iff, ← hinj.eq_iff, hlower, hlower, List.map_map]
  rfl

theorem ofNat_half (d : Slot) (i : ℕ) : UInt8.ofNat (d.half i) = d.at i := by
  apply UInt8.toNat_inj.mp
  have hlt := (d.at i).toNat_lt
  rw [UInt8.toNat_ofNat', Slot.half]
  omega

theorem winChars_eq (d : Slot) : winChars d = (winUnits d).map UInt8.ofNat := by
  unfold winChars winUnits
  rw [List.map_map]
  apply List.map_congr_left
  intro i _
  exact (ofNat_half d i).symm

/-- Characters that are bytes, read by their low bytes up to the zero. -/
theorem takeWhile_low (units : List ℕ)
    (h : ∀ c ∈ units.takeWhile (· ≠ 0), c < 256 ∧ c ≠ 10) :
    ((((units.map UInt8.ofNat).map fun c => if c = 10 then 95 else c).takeWhile (· ≠ 0)).map
      UInt8.toNat) = units.takeWhile (· ≠ 0) := by
  induction units with
  | nil => rfl
  | cons c units ih =>
    by_cases hzero : c = 0
    · rw [hzero]
      rfl
    · rw [List.takeWhile_cons_of_pos (by simpa using hzero)] at h ⊢
      obtain ⟨hlt, hline⟩ := h c List.mem_cons_self
      have hbyte : (UInt8.ofNat c).toNat = c := by
        rw [UInt8.toNat_ofNat']
        omega
      have hne : ∀ b : UInt8, c ≠ b.toNat → UInt8.ofNat c ≠ b := by
        intro b hcb heq
        apply hcb
        rw [← heq, hbyte]
      rw [List.map_cons, List.map_cons, if_neg (hne 10 hline),
        List.takeWhile_cons_of_pos (by simpa using hne 0 hzero), List.map_cons, hbyte,
        ih fun c hc => h c (List.mem_cons_of_mem _ hc)]

/-- The first slots of `dirbuf` are a run. -/
def HoldsRun (dirbuf : ℕ → Slot) (run : List Slot) : Prop :=
  (List.range run.length).map dirbuf = run

theorem holdsRun_nil (dirbuf : ℕ → Slot) : HoldsRun dirbuf [] := rfl

/-- A slot behind the run is left out. -/
theorem HoldsRun.update {run : List Slot} (h : HoldsRun dirbuf run) (d : Slot) :
    HoldsRun (Function.update dirbuf run.length d) run := by
  unfold HoldsRun at h ⊢
  conv_rhs => rw [← h]
  apply List.map_congr_left
  intro i hi
  rw [List.mem_range] at hi
  exact Function.update_of_ne (Nat.ne_of_lt hi) _ _

theorem HoldsRun.concat {run : List Slot} (h : HoldsRun dirbuf run) (d : Slot) :
    HoldsRun (Function.update dirbuf run.length d) (run ++ [d]) := by
  have hold := h.update d
  unfold HoldsRun at hold ⊢
  rw [List.length_append, List.length_singleton, List.range_succ, List.map_append, hold]
  simp

/-- **A plain long name** is read as it stands. -/
theorem longName_read (h : LongPlain e) (hrun : HoldsRun dirbuf e.run) :
    (parseDirEntries dirbuf e.run.length filee).longName.map UInt8.toNat = e.longName := by
  have hchars : ((List.range e.run.length).reverse.flatMap fun i => winChars (dirbuf i)) =
      (e.run.reverse.flatMap winUnits).map UInt8.ofNat := by
    conv_rhs => rw [← hrun, ← List.map_reverse, List.flatMap_map, List.map_flatMap]
    apply List.flatMap_congr
    intro i _
    exact winChars_eq (dirbuf i)
  have hsome : e.run.length ≠ 0 := by simpa using h.complete.some
  unfold parseDirEntries
  dsimp only
  rw [if_pos hsome, hchars]
  exact takeWhile_low _ h.bytes

/-! ## §4 Scanning plain slots -/

variable {run ds more : List Slot} {s s' : Scan}

/-- What a scan knows: the slots of the long name that has begun, and that the name which is still
    in `filee` is another one. -/
structure Follows (component : CStr) (run : List Slot) (s : Scan) : Prop where
  stale : strcasecmpZero component s.filee.longName = false
  length_eq : run.length < maxDirbuf → s.longName = run.length
  holds : run.length < maxDirbuf → HoldsRun s.dir.dirbuf run

theorem follows_start (hcomponent : component ≠ []) (dir : DirState) :
    Follows component [] (.start dir) where
  stale := by
    unfold strcasecmpZero
    simpa [Scan.start] using hcomponent
  length_eq _ := rfl
  holds _ := rfl

theorem parseDirEntries_describes (hshort : ShortPlain e.slot) (hlen : e.slot.length = 32)
    (filee : FileEntry) {dirc : ℕ} (hslot : dirbuf dirc = e.slot) :
    e.Describes (parseDirEntries dirbuf dirc filee) where
  cluster_eq := by
    unfold parseDirEntries FileEntry.cluster LiveEntry.cluster
    rw [hslot]
  size_eq := by
    unfold parseDirEntries LiveEntry.size
    rw [hslot]
  shortName_eq := by
    unfold parseDirEntries
    dsimp only
    rw [hslot]
    exact shortName_read hshort hlen

theorem length_units (run : List Slot) : (run.flatMap winUnits).length = 13 * run.length := by
  induction run with
  | nil => rfl
  | cons d run ih =>
    rw [List.flatMap_cons, List.length_append, ih, List.length_cons]
    change 13 + 13 * run.length = _
    omega

/-- **A plain entry** is compared by its names. -/
theorem parseDirEntries_named (hcomponent : component ≠ []) (hplain : EntryPlain e)
    (hlen : e.slot.length = 32) (hrun : HoldsRun dirbuf e.run)
    (hslot : dirbuf e.run.length = e.slot)
    (hstale : strcasecmpZero component filee.longName = false) :
    (strcasecmpZero component (parseDirEntries dirbuf e.run.length filee).shortName ∨
        strcasecmpZero component (parseDirEntries dirbuf e.run.length filee).longName) ↔
      e.Named component := by
  have hshort := (parseDirEntries_describes hplain.short hlen filee hslot).shortName_eq
  rw [hshort, strcasecmpZero_iff]
  unfold LiveEntry.Named
  rcases hplain.long with hnone | hlong
  · -- the name of an earlier entry is left in `filee`
    have hold : (parseDirEntries dirbuf e.run.length filee).longName = filee.longName := by
      unfold parseDirEntries
      rw [hnone]
      rfl
    rw [hold, hstale]
    constructor
    · rintro (h | h)
      · exact ⟨hcomponent, .inl h⟩
      · cases h
    · rintro ⟨-, h | ⟨hcomplete, -⟩⟩
      · exact .inl h
      · exact absurd hnone hcomplete.some
  · rw [strcasecmpZero_iff, longName_read hlong hrun]
    have hunits : e.longName.length ≤ 255 := by
      have hle := length_units e.run.reverse
      rw [List.length_reverse] at hle
      have hfew := hlong.few
      have htake := (List.takeWhile_prefix (fun c => decide (c ≠ 0))
        (l := e.run.reverse.flatMap winUnits)).length_le
      unfold LiveEntry.longName
      simp only [maxDirbuf] at hfew
      omega
    constructor
    · rintro (h | h)
      · exact ⟨hcomponent, .inl h⟩
      · exact ⟨hcomponent, .inr ⟨hlong.complete, hunits, h⟩⟩
    · rintro ⟨-, h | ⟨-, -, h⟩⟩
      · exact .inl h
      · exact .inr h

/-- **A scan of plain slots**, with more of the directory to come: it finds the first entry that is
    named, or ends at a slot that has never been used, or goes on. -/
theorem scanSlots_names (hcomponent : component ≠ []) (hlen : ∀ d ∈ ds, d.length = 32)
    (hfollows : Follows component run s) (hplain : SlotsPlain component run (ds ++ more)) :
    (∃ s' e, scanSlots component false ds s = (.found, s') ∧
      firstNamed component (liveEntries run (ds ++ more)) = some e ∧ e.Describes s'.filee) ∨
    (∃ s', scanSlots component false ds s = (.unused, s') ∧
      firstNamed component (liveEntries run (ds ++ more)) = none) ∨
    (∃ s' run', scanSlots component false ds s = (.goesOn, s') ∧
      Follows component run' s' ∧ SlotsPlain component run' more ∧
      firstNamed component (liveEntries run (ds ++ more)) =
        firstNamed component (liveEntries run' more)) := by
  induction ds generalizing run s with
  | nil => exact .inr (.inr ⟨s, run, rfl, hfollows, hplain, rfl⟩)
  | cons d ds ih =>
    have hrest := fun d hd => hlen d (List.mem_cons_of_mem _ hd)
    rw [List.cons_append, SlotsPlain] at hplain
    rw [List.cons_append, scanSlots, liveEntries]
    unfold scanSlot
    by_cases hunused : d.at 0 = slotEmpty
    · right
      left
      rw [if_pos hunused, if_pos hunused]
      exact ⟨s, rfl, rfl⟩
    rw [if_neg hunused] at hplain ⊢
    rw [if_neg hunused]
    by_cases hdeleted : d.at 0 = slotDeleted
    · rw [if_pos hdeleted] at hplain ⊢
      rw [if_pos hdeleted]
      obtain ⟨rfl, hplain⟩ := hplain
      exact ih hrest hfollows hplain
    rw [if_neg hdeleted] at hplain ⊢
    rw [if_neg hdeleted]
    by_cases hlong : d.attributes = attrWin95
    · rw [if_pos hlong] at hplain ⊢
      rw [if_pos hlong]
      apply ih hrest _ hplain
      refine ⟨hfollows.stale, ?_, ?_⟩
      · intro hfew
        rw [List.length_append, List.length_singleton] at hfew ⊢
        have hold := hfollows.length_eq (by omega)
        dsimp only [Scan.keep]
        rw [hold, if_neg (by omega)]
      · intro hfew
        rw [List.length_append, List.length_singleton] at hfew
        have hholds := (hfollows.holds (by omega)).concat d
        rw [← hfollows.length_eq (by omega)] at hholds
        exact hholds
    rw [if_neg hlong] at hplain ⊢
    rw [if_neg hlong]
    by_cases hlabel : d.IsLabel
    · rw [if_pos hlabel] at hplain ⊢
      obtain ⟨rfl, hother, hplain⟩ := hplain
      have hzero := hfollows.length_eq (by decide)
      rw [List.length_nil] at hzero
      rw [Bool.not_eq_true] at hother
      -- the label has no long name of its own, and its short name is another one
      have hfilee : (parseDirEntries (s.keep d).dir.dirbuf s.longName s.filee).longName =
          s.filee.longName := by
        unfold parseDirEntries
        rw [hzero]
        rfl
      have hshort : (parseDirEntries (s.keep d).dir.dirbuf s.longName s.filee).shortName =
          parseShortFilename d := by
        unfold parseDirEntries Scan.keep
        dsimp only
        rw [Function.update_self]
      dsimp only
      rw [hshort, hfilee, hother, hfollows.stale, if_neg (by simp)]
      apply ih hrest _ hplain
      refine ⟨?_, fun _ => rfl, fun _ => rfl⟩
      dsimp only
      rw [hfilee]
      exact hfollows.stale
    rw [if_neg hlabel] at hplain ⊢
    obtain ⟨hentry, hplain⟩ := hplain
    have hfew : run.length < maxDirbuf := by
      rcases hentry.long with hnone | hlong
      · dsimp only at hnone
        rw [hnone]
        decide
      · exact hlong.few
    have hlength := hfollows.length_eq hfew
    have hholds : HoldsRun (s.keep d).dir.dirbuf run := by
      unfold Scan.keep
      dsimp only
      rw [hlength]
      exact (hfollows.holds hfew).update d
    have hslot : (s.keep d).dir.dirbuf run.length = d := by
      unfold Scan.keep
      dsimp only
      rw [hlength, Function.update_self]
    have hsize := hlen d List.mem_cons_self
    have hnamed := parseDirEntries_named (e := ⟨run, d⟩) hcomponent hentry hsize hholds hslot
      hfollows.stale
    dsimp only at hnamed ⊢
    rw [hlength]
    by_cases hmatch : LiveEntry.Named component ⟨run, d⟩
    · left
      rw [if_pos ⟨rfl, hnamed.mpr hmatch⟩]
      refine ⟨_, ⟨run, d⟩, rfl, ?_, ?_⟩
      · unfold firstNamed
        rw [List.find?_cons_of_pos (by simpa using hmatch)]
      · exact parseDirEntries_describes (e := ⟨run, d⟩) hentry.short hsize s.filee hslot
    · have hnone : firstNamed component (⟨run, d⟩ :: liveEntries [] (ds ++ more)) =
          firstNamed component (liveEntries [] (ds ++ more)) := by
        unfold firstNamed
        rw [List.find?_cons_of_neg (by simpa using hmatch)]
      have hother := mt hnamed.mp hmatch
      rw [if_neg fun hfound => hother hfound.2, hnone]
      apply ih hrest _ (hplain hmatch)
      refine ⟨?_, fun _ => rfl, fun _ => rfl⟩
      rw [← Bool.not_eq_true]
      exact fun hold => hother (.inr hold)

/-- A scan that goes on has met no slot that has never been used. -/
theorem scanSlots_goesOn {dirList : Bool}
    (h : scanSlots component dirList ds s = (.goesOn, s')) : ∀ d ∈ ds, d.at 0 ≠ slotEmpty := by
  induction ds generalizing s with
  | nil =>
    intro d hd
    cases hd
  | cons d ds ih =>
    rw [scanSlots] at h
    have hunused : d.at 0 = slotEmpty → scanSlot component dirList d s = (.unused, s) := by
      intro hunused
      unfold scanSlot
      rw [if_pos hunused]
    rcases hslot : scanSlot component dirList d s with ⟨_ | _ | _, s₁⟩
    · rw [hslot] at h
      intro d' hd'
      rcases List.mem_cons.mp hd' with rfl | hd'
      · intro hempty
        rw [hunused hempty] at hslot
        cases hslot
      · exact ih h d' hd'
    · rw [hslot] at h
      cases h
    · rw [hslot] at h
      cases h

/-- A listing finds nothing. -/
theorem scanSlots_list (component : CStr) (ds : List Slot) (s : Scan) :
    (scanSlots component true ds s).1 ≠ .found := by
  induction ds generalizing s with
  | nil => nofun
  | cons d ds ih =>
    have hslot : (scanSlot component true d s).1 ≠ .found := by
      unfold scanSlot
      split
      · nofun
      · split
        · nofun
        · split
          · nofun
          · dsimp only
            rw [if_neg fun hfound => absurd hfound.1 (by decide)]
            nofun
    rw [scanSlots]
    rcases hscan : scanSlot component true d s with ⟨_ | _ | _, s₁⟩
    · exact ih s₁
    · nofun
    · rw [hscan] at hslot
      exact absurd rfl hslot

end Pmon.Fs.Fat
