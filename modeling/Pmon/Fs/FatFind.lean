import Pmon.Lib.Paths
import Pmon.Fs.FatFaults
import Pmon.Fs.FatNames

/-!
# Finding a file on a FAT volume

When `fat_findfile` finds the entry that a path names, and reads no sector behind the root
directory, on a device that can be read.

## Key results

- `getChain_total`: with enough fuel a chain that ends in the table is read.
- `scanSectors_names`: a scan of the sectors of a directory finds the first entry that is named.
- `fatSubdirscan_names`: the rest of a path leads to what it names.
- `fatFindfile_names`: a path is found exactly when it names an entry.
-/

namespace Pmon.Fs.Fat

open Pmon.Lib Pmon.Libc

/-! ## §1 Chains -/

/-- The clusters behind one, as the table links them. -/
def ClusterChain (bytes : Mem) (fsc : FatSc) : ℕ → List ℕ → Prop
  | a, [] => fsc.fatType.endMark ≤ fatEntry (cleanDisk bytes) fsc a
  | a, b :: links =>
    fatEntry (cleanDisk bytes) fsc a = b ∧ b < fsc.fatType.endMark ∧ ClusterChain bytes fsc b links

/-- A cluster has a number of 28 bits, and the reserved bits of its entry are zero. -/
def LinkPlain (bytes : Mem) (fsc : FatSc) (cluster : ℕ) : Prop :=
  cluster < 2 ^ 28 ∧ ReservedZero (cleanDisk bytes) fsc cluster

/-- Nothing fails. -/
def FatDev.Calm (dev : FatDev) : Prop := ∀ i position length, dev.faults i position length = none

theorem FatDev.Calm.after {dev : FatDev} (h : dev.Calm) (ok : Bool) : (dev.after ok).Calm :=
  fun i position length => h (i + 1) position length

/-- The table can be read through the cache. -/
structure Ready (bytes : Mem) (fsc : FatSc) (io : FatIO) : Prop where
  bytes_eq : io.dev.bytes = bytes
  coherent : Coherent (cleanDisk bytes) fsc io.cache
  calm : io.dev.Calm

variable {bytes : Mem} {fsc : FatSc} {io : FatIO} {flag fuel start : ℕ} {links : List ℕ}

theorem field_of_plain (hbytes : fsc.bytesPerSec = sectorSize) (h : LinkPlain bytes fsc start) :
    fieldAt512 (cleanDisk bytes) fsc (fsc.wrapEntry start) =
      fatEntry (cleanDisk bytes) fsc start := by
  obtain ⟨hlt, hzero⟩ := h
  have hwrap : fsc.wrapEntry start = start := by
    unfold FatSc.wrapEntry
    cases fsc.fatType <;> dsimp only <;> omega
  have hsame : SameField (cleanDisk bytes) fsc start := sameField_of_512 hbytes
  unfold SameField at hsame
  unfold ReservedZero at hzero
  rw [hwrap]
  omega

theorem ClusterChain.linked (hbytes : fsc.bytesPerSec = sectorSize)
    (hplain : ∀ a ∈ start :: links, LinkPlain bytes fsc a)
    (h : ClusterChain bytes fsc start links) : Linked bytes fsc start links := by
  induction links generalizing start with
  | nil =>
    rw [Linked, field_of_plain hbytes (hplain _ List.mem_cons_self)]
    exact h
  | cons b links ih =>
    obtain ⟨hentry, hlt, hrest⟩ := h
    rw [Linked, field_of_plain hbytes (hplain _ List.mem_cons_self)]
    exact ⟨hentry, hlt, ih (fun a ha => hplain a (List.mem_cons_of_mem _ ha)) hrest⟩

theorem entryAt_ready (h : Ready bytes fsc io) (hflag : flag < 2 ^ 32) :
    ∃ io', entryAt fsc flag io =
      (fieldAt512 (cleanDisk bytes) fsc (fsc.wrapEntry flag), io') ∧ Ready bytes fsc io' := by
  obtain ⟨hbytes, hcoherent, hcalm⟩ := h
  rw [← hbytes] at hcoherent ⊢
  have hnow : Coherent io.dev.now fsc io.cache := hcoherent
  have hsectors : SectorsRead io.dev.now fsc io.cache (fsc.wrapEntry flag) :=
    ⟨fun _ => hcalm 0 _ _, fun _ => hcalm 0 _ _⟩
  obtain ⟨cache, hcall, hcoherent'⟩ := getFatEntry_reads hnow hflag hsectors
  refine ⟨⟨cache, io.dev.after (decide (SectorsRead io.dev.now fsc io.cache
    (fsc.wrapEntry flag)))⟩, ?_, ⟨rfl, hcoherent', hcalm.after _⟩⟩
  unfold entryAt
  rw [hcall]
  rfl

/-- **A loop over a chain** that ends in the table; more fuel makes no difference. -/
theorem chainLinks_total (h : Ready bytes fsc io) (hflag : flag < 2 ^ 32)
    (hlinked : Linked bytes fsc flag links) :
    ∃ io', Ready bytes fsc io' ∧
      ∀ fuel, links.length < fuel → chainLinks fsc fuel flag io = some (links, io') := by
  induction links generalizing flag io with
  | nil =>
    obtain ⟨io', hentry, hready⟩ := entryAt_ready h hflag
    refine ⟨io', hready, ?_⟩
    intro fuel hfuel
    obtain ⟨fuel, rfl⟩ : ∃ n, fuel = n + 1 := ⟨fuel - 1, by omega⟩
    rw [chainLinks, hentry]
    exact if_pos hlinked
  | cons b links ih =>
    obtain ⟨hfield, hlt, hrest⟩ := hlinked
    obtain ⟨io₁, hentry, hready⟩ := entryAt_ready h hflag
    have hmark := endMark_le fsc.fatType
    obtain ⟨io₂, hready₂, hlinks⟩ := ih hready (by omega) hrest
    refine ⟨io₂, hready₂, ?_⟩
    intro fuel hfuel
    obtain ⟨fuel, rfl⟩ : ∃ n, fuel = n + 1 := ⟨fuel - 1, by omega⟩
    rw [List.length_cons] at hfuel
    rw [hfield] at hentry
    rw [chainLinks, hentry]
    dsimp only
    rw [if_neg (by omega), hlinks fuel (by omega)]
    rfl

/-- **`fat_getChain`** has the clusters of a chain that ends in the table. -/
theorem getChain_total (h : Ready bytes fsc io) (hbytes : fsc.bytesPerSec = sectorSize)
    (hplain : ∀ a ∈ start :: links, LinkPlain bytes fsc a)
    (hchain : ClusterChain bytes fsc start links) :
    ∃ io', Ready bytes fsc io' ∧ ∀ fuel, links.length < fuel →
      getChain (some fsc) fuel start io =
        some (⟨start, start :: links, links.length + 1⟩, io') := by
  have hlinked := hchain.linked hbytes hplain
  have hstart := (hplain start List.mem_cons_self).1
  obtain ⟨io₁, hready, hfirst⟩ := chainLinks_total h (by omega) hlinked
  obtain ⟨io₂, hready₂, hsecond⟩ := chainLinks_total hready (by omega) hlinked
  refine ⟨io₂, hready₂, ?_⟩
  intro fuel hfuel
  rw [getChain, hfirst fuel hfuel, Option.bind_some]
  dsimp only
  rw [hsecond fuel hfuel]
  rfl

/-! ## §2 The boot sector -/

/-- The sectors of one table. -/
def fatSectors (bpb : Mem) : ℕ := if bpb.half 22 ≠ 0 then bpb.half 22 else bpb.word 36

/-- The first sector behind the tables. -/
def rootStart (bpb : Mem) : ℕ := bpb.half 14 + (bpb 16).toNat * fatSectors bpb

/-- How many sectors are set aside for the root directory. -/
def rootLength (bpb : Mem) : ℕ := (bpb.half 17 * 32 + (bpb.half 11 - 1)) / bpb.half 11

/-- The first sector of the cluster 2. -/
def dataStart (bpb : Mem) : ℕ := rootStart bpb + rootLength bpb

/-- `bpbRootClus`. -/
def rootCluster (bpb : Mem) : ℕ := bpb.word 44

/-- The sectors of a cluster. -/
def clusterSectors (bpb : Mem) (cluster : ℕ) : List ℤ :=
  (List.range (bpb 13).toNat).map fun j : ℕ =>
    (dataStart bpb : ℤ) + ((cluster : ℤ) - 2) * (bpb 13).toNat + j

/-- The sectors have 512 bytes, and those of the root directory have numbers of an `int`. -/
structure BpbPlain (bpb : Mem) : Prop where
  bytes : bpb.half 11 = sectorSize
  int : dataStart bpb < 2 ^ 31

/-- A cluster of a directory: it is a cluster of the data, and its sectors are numbers of an
    `int`. -/
structure ClusterPlain (bytes bpb : Mem) (fsc : FatSc) (cluster : ℕ) : Prop where
  link : LinkPlain bytes fsc cluster
  two_le : 2 ≤ cluster
  int : dataStart bpb + (cluster - 1) * (bpb 13).toNat ≤ 2 ^ 31

variable {bpb : Mem} {partitionStart : ℕ} {vol : FatVol}

/-- The volume that `fat_init` makes of a boot sector. -/
structure VolumeOf (bpb : Mem) (partitionStart : ℕ) (fsc : FatSc) (vol : FatVol) : Prop where
  fsc_eq : vol.fsc = some fsc
  bytes_eq : fsc.bytesPerSec = sectorSize
  partition_eq : vol.partitionStart = partitionStart
  cluster_eq : vol.secPerClust = (bpb 13).toNat
  length_eq : vol.rootDirSectors = rootLength bpb
  start_eq : vol.firstRootDirSecNum = rootStart bpb
  data_eq : vol.dataSectorBase = dataStart bpb

theorem volumeOf_bpbVol (h : bpbVol partitionStart bpb = some vol) (hplain : BpbPlain bpb) :
    ∃ fsc, VolumeOf bpb partitionStart fsc vol := by
  have hint := hplain.int
  unfold dataStart at hint
  unfold bpbVol at h
  dsimp only at h
  split at h
  · cases h
  · cases h
    refine ⟨_, rfl, hplain.bytes, rfl, rfl, rfl, ?_, ?_⟩
    · exact u32_of_bounds (n := rootStart bpb) rfl (by omega)
    · exact u32_of_bounds (n := rootStart bpb + rootLength bpb) rfl (by omega)

/-! ## §3 The sectors of a directory -/

/-- The slots of a sector. -/
def slotsAt (bytes : Mem) (partitionStart : ℕ) (sector : ℤ) : List Slot :=
  (List.range 16).map fun k =>
    bytes.slice ((partitionStart * sectorSize + sectorSize * sector : ℤ).toNat + 32 * k) 32

/-- **The slots of a directory**, with its sectors. -/
def slotsOf (bytes : Mem) (partitionStart : ℕ) (sectors : List ℤ) : List Slot :=
  sectors.flatMap (slotsAt bytes partitionStart)

theorem slotsIn_store (buffer bytes : Mem) (p : ℕ) :
    slotsIn (buffer.store 0 (bytes.slice p sectorSize)) =
      (List.range 16).map fun k => bytes.slice (p + 32 * k) 32 := by
  unfold slotsIn
  apply List.map_congr_left
  intro k hk
  rw [List.mem_range] at hk
  apply Mem.slice_shift
  intro a ha
  rw [store_slice_at buffer bytes p (by simp only [sectorSize]; omega), Nat.add_assoc]

theorem length_slotsAt (bytes : Mem) (partitionStart : ℕ) (sector : ℤ) :
    ∀ d ∈ slotsAt bytes partitionStart sector, d.length = 32 := by
  intro d hd
  obtain ⟨k, -, rfl⟩ := List.mem_map.mp hd
  exact Mem.length_slice

/-- A sector is read into `DirBuffer`. -/
theorem readAt_calm (partitionStart : ℕ) {dev : FatDev} (hcalm : dev.Calm) (buffer : Mem)
    {sector : ℤ} (hsector : 0 ≤ sector) :
    ∃ dirBuffer, readAt partitionStart sector 1 buffer dev = (true, dirBuffer, dev.after true) ∧
      slotsIn dirBuffer = slotsAt dev.bytes partitionStart sector := by
  rcases readAt_cases partitionStart sector 1 buffer dev with
    ⟨hneg, -⟩ | ⟨-, bytes, hfault, -⟩ | ⟨-, -, hread⟩
  · simp only [sectorSize] at hneg
    omega
  · rw [hcalm] at hfault
    cases hfault
  · exact ⟨_, hread, slotsIn_store _ _ _⟩

variable {component : CStr} {dirList : Bool} {sectors : List ℤ} {s s' : Scan} {run : List Slot}

theorem scanSlots_io (component : CStr) (dirList : Bool) (ds : List Slot) (s : Scan) :
    (scanSlots component dirList ds s).2.dir.io = s.dir.io := by
  induction ds generalizing s with
  | nil => rfl
  | cons d ds ih =>
    have hslot : (scanSlot component dirList d s).2.dir.io = s.dir.io := by
      unfold scanSlot
      split
      · rfl
      · split
        · rfl
        · split
          · rfl
          · dsimp only
            split <;> rfl
    rw [scanSlots]
    rcases hscan : scanSlot component dirList d s with ⟨_ | _ | _, s₁⟩
    all_goals rw [hscan] at hslot
    · exact (ih s₁).trans hslot
    · exact hslot
    · exact hslot

/-- A scan leaves the table ready. -/
theorem scanSectors_ready (h : Ready bytes fsc s.dir.io)
    (hsectors : ∀ sector ∈ sectors, 0 ≤ sector) :
    Ready bytes fsc (scanSectors partitionStart component dirList sectors s).2.dir.io := by
  induction sectors generalizing s with
  | nil => exact h
  | cons sector sectors ih =>
    obtain ⟨dirBuffer, hread, -⟩ := readAt_calm partitionStart h.calm s.dir.dirBuffer
      (hsectors sector List.mem_cons_self)
    rw [scanSectors, hread]
    dsimp only
    generalize hloaded : ({ s with
      dir := { s.dir with
        dirBuffer, io := { s.dir.io with dev := s.dir.io.dev.after true } } } : Scan) = loaded
    have hready : Ready bytes fsc loaded.dir.io := by
      subst hloaded
      exact ⟨h.bytes_eq, h.coherent, h.calm.after true⟩
    have hio := scanSlots_io component dirList (slotsIn dirBuffer) loaded
    rcases hscan : scanSlots component dirList (slotsIn dirBuffer) loaded with ⟨_ | _ | _, s₁⟩
    all_goals
      rw [hscan] at hio
      rw [← hio] at hready
    · exact ih hready fun sector hsector => hsectors sector (List.mem_cons_of_mem _ hsector)
    · exact hready
    · exact hready

/-- **A scan of a directory** whose slots are plain. -/
theorem scanSectors_names (hcomponent : component ≠ []) (hready : Ready bytes fsc s.dir.io)
    (hsectors : ∀ sector ∈ sectors, 0 ≤ sector) (hfollows : Follows component run s)
    (hplain : SlotsPlain component run (slotsOf bytes partitionStart sectors)) :
    (∃ s' e, scanSectors partitionStart component false sectors s = (.found, s') ∧
      firstNamed component (liveEntries run (slotsOf bytes partitionStart sectors)) = some e ∧
      e.Describes s'.filee) ∨
    (∃ verdict s', scanSectors partitionStart component false sectors s = (verdict, s') ∧
      verdict ≠ .found ∧
      firstNamed component (liveEntries run (slotsOf bytes partitionStart sectors)) = none) := by
  induction sectors generalizing run s with
  | nil =>
    right
    refine ⟨.goesOn, s, rfl, by decide, ?_⟩
    cases run <;> rfl
  | cons sector sectors ih =>
    obtain ⟨dirBuffer, hread, hslots⟩ := readAt_calm partitionStart hready.calm s.dir.dirBuffer
      (hsectors sector List.mem_cons_self)
    rw [hready.bytes_eq] at hslots
    rw [slotsOf, List.flatMap_cons] at hplain ⊢
    rw [scanSectors, hread]
    dsimp only
    rw [hslots]
    generalize hloaded : ({ s with
      dir := { s.dir with
        dirBuffer, io := { s.dir.io with dev := s.dir.io.dev.after true } } } : Scan) = loaded
    have hfollows' : Follows component run loaded := by
      subst hloaded
      exact ⟨hfollows.stale, hfollows.length_eq, hfollows.holds⟩
    have hready' : Ready bytes fsc loaded.dir.io := by
      subst hloaded
      exact ⟨hready.bytes_eq, hready.coherent, hready.calm.after true⟩
    have hio := scanSlots_io component false (slotsAt bytes partitionStart sector) loaded
    rcases scanSlots_names hcomponent (length_slotsAt bytes partitionStart sector) hfollows'
      hplain with ⟨s', e, hscan, hfirst, hdescribes⟩ | ⟨s', hscan, hnone⟩ |
        ⟨s', run', hscan, hfollows₁, hplain₁, hfirst⟩
    · left
      rw [hscan]
      exact ⟨s', e, rfl, hfirst, hdescribes⟩
    · right
      rw [hscan]
      exact ⟨.unused, s', rfl, by decide, hnone⟩
    · -- the long name that has begun goes on in the next sector
      rw [hscan] at hio ⊢
      rw [← hio] at hready'
      rw [hfirst]
      exact ih hready' (fun sector hsector => hsectors sector (List.mem_cons_of_mem _ hsector))
        hfollows₁ hplain₁

theorem map_getD_range (as : List ℕ) : (List.range as.length).map (fun i => as.getD i 0) = as := by
  apply List.ext_getElem
  · simp
  · intro i hi hi'
    simp [hi']

/-- The sectors that are scanned of a chain are those of its clusters. -/
theorem chainSectors_eq (hvol : VolumeOf bpb partitionStart fsc vol)
    (hplain : ∀ a ∈ start :: links, ClusterPlain bytes bpb fsc a) :
    chainSectors vol ⟨start, start :: links, links.length + 1⟩ =
      (start :: links).flatMap (clusterSectors bpb) := by
  have hcluster : ∀ i j, j < (bpb 13).toNat → (h : i < links.length + 1) →
      getSectorIndex vol ⟨start, start :: links, links.length + 1⟩ j i =
        (dataStart bpb : ℤ) + (((start :: links).getD i 0 : ℕ) - 2 : ℤ) * (bpb 13).toNat + j := by
    intro i j hj hi
    have hmem : (start :: links).getD i 0 ∈ start :: links := by
      rw [List.getD, List.getElem?_eq_getElem (by simpa using hi)]
      exact List.getElem_mem _
    obtain ⟨-, htwo, hint⟩ := hplain _ hmem
    unfold getSectorIndex FatVol.sectorOf
    dsimp only
    rw [hvol.cluster_eq, hvol.data_eq, Nat.div_eq_of_lt hj, Nat.mod_eq_of_lt hj,
      if_pos (Nat.succ_pos _)]
    generalize (start :: links).getD i 0 = cluster at htwo hint ⊢
    obtain ⟨cluster, rfl⟩ : ∃ n, cluster = n + 2 := ⟨cluster - 2, by omega⟩
    have hexpand : (cluster + 2 - 1) * (bpb 13).toNat =
        cluster * (bpb 13).toNat + (bpb 13).toNat := by
      rw [Nat.add_sub_assoc (by decide), Nat.add_mul, Nat.one_mul]
    have hcast : (((cluster + 2 : ℕ) : ℤ) - 2) * ((bpb 13).toNat : ℤ) =
        ((cluster * (bpb 13).toNat : ℕ) : ℤ) := by
      push_cast
      ring
    rw [hcast]
    apply wrap32_of_bounds
    · omega
    · omega
  unfold chainSectors
  conv_rhs => rw [← map_getD_range (start :: links), List.flatMap_map]
  apply List.flatMap_congr
  intro i hi
  rw [List.mem_range] at hi
  unfold clusterSectors
  rw [hvol.cluster_eq]
  apply List.map_congr_left
  intro j hj
  exact hcluster i j (List.mem_range.mp hj) hi

theorem clusterSectors_nonneg (hplain : ∀ a ∈ links, ClusterPlain bytes bpb fsc a) :
    ∀ sector ∈ links.flatMap (clusterSectors bpb), 0 ≤ sector := by
  intro sector hsector
  obtain ⟨cluster, hcluster, hmem⟩ := List.mem_flatMap.mp hsector
  obtain ⟨j, -, rfl⟩ := List.mem_map.mp hmem
  have htwo := (hplain cluster hcluster).two_le
  have hproduct : 0 ≤ ((cluster : ℤ) - 2) * (bpb 13).toNat :=
    Int.mul_nonneg (by omega) (Int.natCast_nonneg _)
  omega

/-! ## §4 Paths -/

/-- A directory, by its slots, or an entry in one. -/
inductive Node where
  | directory (slots : List Slot)
  | entry (e : LiveEntry)

/-- A component leads into a subdirectory: the slots of its cluster chain. -/
def Inner (bytes bpb : Mem) (partitionStart : ℕ) (fsc : FatSc) : Node → CStr → Node → Prop
  | .directory slots, component, .directory slots' =>
    ∃ e, firstNamed component (liveEntries [] slots) = some e ∧ e.IsDirectory ∧
      ∃ links, ClusterChain bytes fsc e.cluster links ∧
        slots' = slotsOf bytes partitionStart ((e.cluster :: links).flatMap (clusterSectors bpb))
  | _, _, _ => False

/-- A component names an entry of a directory. -/
def Final : Node → CStr → Node → Prop
  | .directory slots, component, .entry e => firstNamed component (liveEntries [] slots) = some e
  | _, _, _ => False

/-- **A path names an entry** from a directory on. -/
def PathNames (bytes bpb : Mem) (partitionStart : ℕ) (fsc : FatSc) (slots : List Slot)
    (path : List CStr) (e : LiveEntry) : Prop :=
  Resolves (Inner bytes bpb partitionStart fsc) Final (.directory slots) path (.entry e)

/-- What is found is what the path names. -/
def SearchRight (bytes bpb : Mem) (partitionStart : ℕ) (fsc : FatSc) (slots : List Slot)
    (path : List CStr) : Search → Prop
  | .file filee _ => ∃ e, PathNames bytes bpb partitionStart fsc slots path e ∧ e.Describes filee
  | .fails _ => ∀ e, ¬ PathNames bytes bpb partitionStart fsc slots path e

/-- An entry that is named has a chain that ends; in front of the last component it is a
    directory. -/
def EntryOk (bytes bpb : Mem) (fsc : FatSc) (last : Bool) (e : LiveEntry) (links : List ℕ) : Prop :=
  ClusterChain bytes fsc e.cluster links ∧
    if last then ∀ a ∈ e.cluster :: links, LinkPlain bytes fsc a
    else e.IsDirectory ∧ ∀ a ∈ e.cluster :: links, ClusterPlain bytes bpb fsc a

/-- **The directories of a path are plain**: so are the slots that are scanned, and the chain of the
    entry that is named ends; only the last component may be empty. -/
def PathPlain (bytes bpb : Mem) (partitionStart : ℕ) (fsc : FatSc) : List Slot → List CStr → Prop
  | _, [] => True
  | slots, component :: rest =>
    if component = [] then rest = []
    else
      SlotsPlain component [] slots ∧
        ∀ e, firstNamed component (liveEntries [] slots) = some e →
          ∃ links, EntryOk bytes bpb fsc rest.isEmpty e links ∧
            (rest ≠ [] → PathPlain bytes bpb partitionStart fsc
              (slotsOf bytes partitionStart ((e.cluster :: links).flatMap (clusterSectors bpb)))
              rest)

variable {path rest : List CStr} {slots : List Slot} {e : LiveEntry} {dir : DirState}

theorem ClusterChain.unique {links' : List ℕ} (h : ClusterChain bytes fsc start links)
    (h' : ClusterChain bytes fsc start links') : links = links' := by
  induction links generalizing start links' with
  | nil =>
    cases links' with
    | nil => rfl
    | cons b links' =>
      obtain ⟨hentry, hlt, -⟩ := h'
      unfold ClusterChain at h
      omega
  | cons b links ih =>
    obtain ⟨hentry, hlt, hrest⟩ := h
    cases links' with
    | nil =>
      unfold ClusterChain at h'
      omega
    | cons b' links' =>
      obtain ⟨hentry', -, hrest'⟩ := h'
      obtain rfl : b = b' := hentry.symm.trans hentry'
      rw [ih hrest hrest']

theorem pathNames_last : PathNames bytes bpb partitionStart fsc slots [component] e ↔
    firstNamed component (liveEntries [] slots) = some e := by
  unfold PathNames
  rw [resolves_cons]
  constructor
  · rintro (⟨-, hfinal⟩ | ⟨d', -, hrest⟩)
    · exact hfinal
    · exact absurd hrest not_resolves_nil
  · exact fun hfirst => .inl ⟨rfl, hfirst⟩

/-- In front of the last component there is a directory. -/
theorem pathNames_cons (hrest : rest ≠ []) :
    PathNames bytes bpb partitionStart fsc slots (component :: rest) e ↔
      ∃ e', firstNamed component (liveEntries [] slots) = some e' ∧ e'.IsDirectory ∧
        ∃ links, ClusterChain bytes fsc e'.cluster links ∧
          PathNames bytes bpb partitionStart fsc (slotsOf bytes partitionStart
            ((e'.cluster :: links).flatMap (clusterSectors bpb))) rest e := by
  unfold PathNames
  rw [resolves_cons]
  constructor
  · rintro (⟨hnil, -⟩ | ⟨_ | _, hinner, hresolves⟩)
    · exact absurd hnil hrest
    · obtain ⟨e', hfirst, hdirectory, links, hchain, rfl⟩ := hinner
      exact ⟨e', hfirst, hdirectory, links, hchain, hresolves⟩
    · exact hinner.elim
  · rintro ⟨e', hfirst, hdirectory, links, hchain, hresolves⟩
    exact .inr ⟨.directory _, ⟨e', hfirst, hdirectory, links, hchain, rfl⟩, hresolves⟩

theorem not_pathNames_of_none (h : firstNamed component (liveEntries [] slots) = none) :
    ¬ PathNames bytes bpb partitionStart fsc slots (component :: rest) e := by
  intro hnames
  cases rest with
  | nil =>
    rw [pathNames_last, h] at hnames
    cases hnames
  | cons next rest =>
    obtain ⟨e', hfirst, -⟩ := (pathNames_cons (by simp)).mp hnames
    rw [h] at hfirst
    cases hfirst

theorem firstNamed_nil (entries : List LiveEntry) : firstNamed [] entries = none := by
  unfold firstNamed
  rw [List.find?_eq_none]
  intro e _ hnamed
  exact (of_decide_eq_true hnamed).1 rfl

theorem scanSectors_list (component : CStr) (sectors : List ℤ) (s : Scan) :
    (scanSectors partitionStart component true sectors s).1 ≠ .found := by
  induction sectors generalizing s with
  | nil => exact (by decide : Verdict.goesOn ≠ .found)
  | cons sector sectors ih =>
    rw [scanSectors]
    generalize readAt partitionStart sector 1 s.dir.dirBuffer s.dir.io.dev = read
    obtain ⟨_, dirBuffer, dev⟩ := read
    dsimp only
    generalize hloaded : ({ s with
      dir := { s.dir with dirBuffer, io := { s.dir.io with dev } } } : Scan) = loaded
    have hslots := scanSlots_list component (slotsIn dirBuffer) loaded
    rcases hscan : scanSlots component true (slotsIn dirBuffer) loaded with ⟨_ | _ | _, s₁⟩
    · exact ih s₁
    · exact (by decide : Verdict.unused ≠ .found)
    · rw [hscan] at hslots
      exact absurd rfl hslots

/-- With enough fuel a search has a result, which is what the path names. -/
def Finds (bytes bpb : Mem) (partitionStart : ℕ) (fsc : FatSc) (slots : List Slot)
    (path : List CStr) (search : ℕ → Option (Search × DirState)) : Prop :=
  ∃ enough, ∀ fuel, enough ≤ fuel → ∃ res dir, search fuel = some (res, dir) ∧
    SearchRight bytes bpb partitionStart fsc slots path res

/-- **An entry that was found** leads on to what the rest of the path names. -/
theorem enter_names (hvol : VolumeOf bpb partitionStart fsc vol) (hready : Ready bytes fsc s.dir.io)
    (hfirst : firstNamed component (liveEntries [] slots) = some e)
    (hdescribes : e.Describes s.filee) (hentry : EntryOk bytes bpb fsc rest.isEmpty e links)
    (hsub : ∀ io, Ready bytes fsc io → rest ≠ [] →
      Finds bytes bpb partitionStart fsc (slotsOf bytes partitionStart
        ((e.cluster :: links).flatMap (clusterSectors bpb))) rest fun fuel =>
          fatSubdirscan vol fuel rest ⟨e.cluster, e.cluster :: links, links.length + 1⟩
            { s.dir with io }) :
    Finds bytes bpb partitionStart fsc slots (component :: rest) fun fuel =>
      enter vol fuel rest s := by
  obtain ⟨hchain, hkind⟩ := hentry
  have hplain : ∀ a ∈ e.cluster :: links, LinkPlain bytes fsc a := by
    split at hkind
    · exact hkind
    · exact fun a ha => (hkind.2 a ha).link
  obtain ⟨io, hready', hget⟩ := getChain_total hready hvol.bytes_eq hplain hchain
  have henter : ∀ fuel, links.length < fuel → enter vol fuel rest s =
      if rest.isEmpty then
        some (.file s.filee ⟨e.cluster, e.cluster :: links, links.length + 1⟩, { s.dir with io })
      else fatSubdirscan vol fuel rest ⟨e.cluster, e.cluster :: links, links.length + 1⟩
        { s.dir with io } := by
    intro fuel hfuel
    unfold enter
    rw [hvol.fsc_eq, hdescribes.cluster_eq, hget fuel hfuel, Option.bind_some]
  cases rest with
  | nil =>
    refine ⟨links.length + 1, ?_⟩
    intro fuel hfuel
    dsimp only
    rw [henter fuel hfuel]
    exact ⟨_, _, rfl, e, pathNames_last.mpr hfirst, hdescribes⟩
  | cons next rest =>
    rw [List.isEmpty_cons, if_neg (by decide)] at hkind
    obtain ⟨enough, hfinds⟩ := hsub io hready' (by simp)
    refine ⟨max (links.length + 1) enough, ?_⟩
    intro fuel hfuel
    obtain ⟨res, dir, hsearch, hright⟩ := hfinds fuel (by omega)
    dsimp only
    rw [henter fuel (by omega), List.isEmpty_cons, if_neg (by decide)]
    refine ⟨res, dir, hsearch, ?_⟩
    -- the directory that the path leads through is the one that was entered
    cases res with
    | file filee chain =>
      obtain ⟨e', hnames, hdescribes'⟩ := hright
      exact ⟨e', (pathNames_cons (by simp)).mpr ⟨e, hfirst, hkind.1, links, hchain, hnames⟩,
        hdescribes'⟩
    | fails res =>
      intro e' hnames
      obtain ⟨e₁, hfirst', -, links', hchain', hnames'⟩ := (pathNames_cons (by simp)).mp hnames
      obtain rfl : e = e₁ := Option.some.inj (hfirst.symm.trans hfirst')
      obtain rfl := hchain.unique hchain'
      exact hright e' hnames'

/-- **A scan and the search behind it**: nothing is found and the path names nothing, or what was
    found leads on. -/
theorem scan_names (hvol : VolumeOf bpb partitionStart fsc vol) (hready : Ready bytes fsc dir.io)
    (hsectors : ∀ sector ∈ sectors, 0 ≤ sector)
    (hplain : PathPlain bytes bpb partitionStart fsc (slotsOf bytes partitionStart sectors)
      (component :: rest))
    (hsub : ∀ chain dir, Ready bytes fsc dir.io → (∀ sector ∈ chainSectors vol chain, 0 ≤ sector) →
      PathPlain bytes bpb partitionStart fsc
        (slotsOf bytes partitionStart (chainSectors vol chain)) rest → rest ≠ [] →
      Finds bytes bpb partitionStart fsc
        (slotsOf bytes partitionStart (chainSectors vol chain)) rest fun fuel =>
          fatSubdirscan vol fuel rest chain dir) :
    let scan := scanSectors partitionStart component (rest.isEmpty && component.isEmpty) sectors
      (.start dir)
    (scan.1 ≠ .found ∧ ∀ e, ¬ PathNames bytes bpb partitionStart fsc
      (slotsOf bytes partitionStart sectors) (component :: rest) e) ∨
    (scan.1 = .found ∧ Finds bytes bpb partitionStart fsc (slotsOf bytes partitionStart sectors)
      (component :: rest) fun fuel => enter vol fuel rest scan.2) := by
  intro scan
  rw [PathPlain] at hplain
  by_cases hempty : component = []
  · rw [if_pos hempty] at hplain
    left
    subst hempty hplain
    exact ⟨scanSectors_list [] sectors (.start dir),
      fun e => not_pathNames_of_none (firstNamed_nil _)⟩
  · rw [if_neg hempty] at hplain
    obtain ⟨hslots, hentry⟩ := hplain
    have hlist : (rest.isEmpty && component.isEmpty) = false := by
      rw [List.isEmpty_eq_false_iff.mpr hempty, Bool.and_false]
    have hscan : scan = scanSectors partitionStart component false sectors (.start dir) := by
      rw [← hlist]
    have hstart : Ready bytes fsc (Scan.start dir).dir.io := hready
    have hafter : Ready bytes fsc scan.2.dir.io := scanSectors_ready hstart hsectors
    rcases scanSectors_names hempty hstart hsectors (follows_start hempty dir) hslots with
      ⟨s', e, heq, hfirst, hdescribes⟩ | ⟨verdict, s', heq, hother, hnone⟩
    · right
      rw [← hscan] at heq
      rw [heq] at hafter ⊢
      obtain ⟨links, hok, hrest⟩ := hentry e hfirst
      refine ⟨rfl, enter_names hvol hafter hfirst hdescribes hok ?_⟩
      intro io hio hne
      have hcluster : ∀ a ∈ e.cluster :: links, ClusterPlain bytes bpb fsc a := by
        have hkind := hok.2
        rw [if_neg (by simpa using hne)] at hkind
        exact hkind.2
      have hchain := chainSectors_eq hvol hcluster
      rw [← hchain]
      apply hsub _ _ hio
      · rw [hchain]
        exact clusterSectors_nonneg hcluster
      · rw [hchain]
        exact hrest hne
      · exact hne
    · left
      rw [← hscan] at heq
      rw [heq]
      exact ⟨hother, fun e => not_pathNames_of_none hnone⟩

/-- **`fat_subdirscan`** finds what the rest of a path names. -/
theorem fatSubdirscan_names {chain : FatChain} (hvol : VolumeOf bpb partitionStart fsc vol)
    (hready : Ready bytes fsc dir.io) (hsectors : ∀ sector ∈ chainSectors vol chain, 0 ≤ sector)
    (hplain : PathPlain bytes bpb partitionStart fsc
      (slotsOf bytes partitionStart (chainSectors vol chain)) path) (hpath : path ≠ []) :
    Finds bytes bpb partitionStart fsc
      (slotsOf bytes partitionStart (chainSectors vol chain)) path fun fuel =>
        fatSubdirscan vol fuel path chain dir := by
  induction path generalizing chain dir with
  | nil => exact absurd rfl hpath
  | cons component rest ih =>
    have hscan := scan_names hvol hready hsectors hplain fun chain dir hready hsectors hplain =>
      ih hready hsectors hplain
    have hsearch : ∀ fuel, fatSubdirscan vol fuel (component :: rest) chain dir =
        scanOutcome vol fuel rest (if rest.isEmpty && component.isEmpty then 2 else 0) 0
          (scanSectors partitionStart component (rest.isEmpty && component.isEmpty)
            (chainSectors vol chain) (.start dir)) := by
      intro fuel
      rw [fatSubdirscan, hvol.partition_eq]
      rfl
    dsimp only at hscan
    unfold Finds
    simp only [hsearch]
    generalize scanSectors partitionStart component (rest.isEmpty && component.isEmpty)
      (chainSectors vol chain) (.start dir) = scan at hscan
    obtain ⟨_ | _ | _, s⟩ := scan
    · rcases hscan with ⟨-, hnone⟩ | ⟨hfound, -⟩
      · exact ⟨0, fun fuel _ => ⟨_, _, rfl, hnone⟩⟩
      · cases hfound
    · rcases hscan with ⟨-, hnone⟩ | ⟨hfound, -⟩
      · exact ⟨0, fun fuel _ => ⟨_, _, rfl, hnone⟩⟩
      · cases hfound
    · rcases hscan with ⟨hother, -⟩ | ⟨-, hfinds⟩
      · exact absurd rfl hother
      · exact hfinds

/-! ## §5 The root directory -/

/-- The sectors in front of the data that are set aside for the root directory. -/
def rootArea (bpb : Mem) : List ℤ :=
  (List.range (rootLength bpb)).map fun i : ℕ => (rootStart bpb : ℤ) + i

/-- **The sectors of the root directory**: on FAT32 those of the chain that begins at the root
    cluster of the boot sector. -/
def RootSectors (bytes bpb : Mem) (fsc : FatSc) (sectors : List ℤ) : Prop :=
  if fsc.fatType = .fat32 then
    ∃ links, ClusterChain bytes fsc (rootCluster bpb) links ∧
      sectors = (rootCluster bpb :: links).flatMap (clusterSectors bpb)
  else sectors = rootArea bpb

/-- The root directory is one whose end is met: on FAT32 its chain begins at the cluster 2, else it
    has a slot that has never been used, or the first component is named in it. -/
def RootPlain (bytes bpb : Mem) (partitionStart : ℕ) (fsc : FatSc) (sectors : List ℤ)
    (components : List CStr) : Prop :=
  if fsc.fatType = .fat32 then
    rootCluster bpb = 2 ∧ ∀ links, ClusterChain bytes fsc 2 links →
      ∀ a ∈ 2 :: links, ClusterPlain bytes bpb fsc a
  else
    (∃ d ∈ slotsOf bytes partitionStart sectors, d.at 0 = slotEmpty) ∨
      ∃ component e, components.head? = some component ∧
        firstNamed component (liveEntries [] (slotsOf bytes partitionStart sectors)) = some e

/-- The sectors that a scan reads. -/
def scannedSectors (partitionStart : ℕ) (component : CStr) (dirList : Bool) :
    List ℤ → Scan → List ℤ
  | [], _ => []
  | sector :: sectors, s =>
    sector ::
      match scanSectors partitionStart component dirList [sector] s with
      | (.goesOn, s) => scannedSectors partitionStart component dirList sectors s
      | _ => []

/-- The sectors that a search reads of the root directory. -/
def rootReads (vol : FatVol) (fuel : ℕ) (name : CStr) (dir : DirState) : Option (List ℤ) :=
  match name.splitOn 47 with
  | [] => some []
  | component :: rest =>
    let dirList := rest.isEmpty && component.isEmpty
    if vol.fsc.map FatSc.fatType = some .fat32 then
      (getChain vol.fsc fuel 2 dir.io).map fun (chain, io) =>
        scannedSectors vol.partitionStart component dirList (chainSectors vol chain)
          (.start { dir with io })
    else
      some (scannedSectors vol.partitionStart component dirList (rootSectors vol) (.start dir))

/-- A search begins with no sector of the table cached, on a device that can be read. -/
def searchStart (bytes buffer dirBuffer : Mem) (dirbuf : ℕ → Slot) : DirState :=
  ⟨⟨⟨buffer, -1⟩, ⟨bytes, fun _ _ _ => none, false⟩⟩, dirBuffer, dirbuf⟩

/-- When a search is right. -/
structure SearchOk (bytes bpb : Mem) (partitionStart : ℕ) (fsc : FatSc) (sectors : List ℤ)
    (name : CStr) : Prop where
  boot : BpbPlain bpb
  root : RootPlain bytes bpb partitionStart fsc sectors (name.splitOn 47)
  path : PathPlain bytes bpb partitionStart fsc (slotsOf bytes partitionStart sectors)
    (name.splitOn 47)

/-- **What `fat_findfile` is for**: it finds what the path names, and of the root directory it reads
    its own sectors and no others. -/
def FindsRight (bytes bpb : Mem) (partitionStart : ℕ) (fsc : FatSc) (vol : FatVol)
    (sectors : List ℤ) (name : CStr) (dir : DirState) : Prop :=
  Finds bytes bpb partitionStart fsc (slotsOf bytes partitionStart sectors) (name.splitOn 47)
      (fun fuel => fatFindfile vol fuel name dir) ∧
    ∃ enough, ∀ fuel, enough ≤ fuel → ∃ read, rootReads vol fuel name dir = some read ∧
      read <+: sectors

theorem scanSectors_cons (component : CStr) (dirList : Bool) (sector : ℤ) (sectors : List ℤ)
    (s : Scan) :
    scanSectors partitionStart component dirList (sector :: sectors) s =
      match scanSectors partitionStart component dirList [sector] s with
      | (.goesOn, s) => scanSectors partitionStart component dirList sectors s
      | r => r := by
  rw [scanSectors, scanSectors]
  generalize readAt partitionStart sector 1 s.dir.dirBuffer s.dir.io.dev = read
  obtain ⟨_, dirBuffer, dev⟩ := read
  dsimp only
  generalize scanSlots component dirList (slotsIn dirBuffer) _ = scan
  obtain ⟨_ | _ | _, s₁⟩ := scan <;> rfl

theorem scannedSectors_prefix (component : CStr) (dirList : Bool) (sectors : List ℤ) (s : Scan) :
    scannedSectors partitionStart component dirList sectors s <+: sectors := by
  induction sectors generalizing s with
  | nil => exact List.prefix_rfl
  | cons sector sectors ih =>
    rw [scannedSectors, List.cons_prefix_cons]
    refine ⟨rfl, ?_⟩
    split
    · exact ih _
    · exact List.nil_prefix

/-- Where a scan of its own sectors ends, the sectors behind a directory are not read. -/
theorem scan_own {own : List ℤ} (more : List ℤ)
    (h : (scanSectors partitionStart component dirList own s).1 ≠ .goesOn) :
    scanSectors partitionStart component dirList (own ++ more) s =
        scanSectors partitionStart component dirList own s ∧
      scannedSectors partitionStart component dirList (own ++ more) s <+: own := by
  induction own generalizing s with
  | nil => exact absurd rfl h
  | cons sector own ih =>
    rw [List.cons_append, scanSectors_cons, scanSectors_cons component dirList sector own,
      scannedSectors, List.cons_prefix_cons]
    rw [scanSectors_cons] at h
    generalize scanSectors partitionStart component dirList [sector] s = scan at h
    obtain ⟨_ | _ | _, s₁⟩ := scan
    · obtain ⟨hsame, hprefix⟩ := ih h
      exact ⟨hsame, rfl, hprefix⟩
    · exact ⟨rfl, rfl, List.nil_prefix⟩
    · exact ⟨rfl, rfl, List.nil_prefix⟩

/-- A scan that goes on has met no slot that has never been used. -/
theorem scanSectors_goesOn (hready : Ready bytes fsc s.dir.io)
    (hsectors : ∀ sector ∈ sectors, 0 ≤ sector)
    (h : scanSectors partitionStart component dirList sectors s = (.goesOn, s')) :
    ∀ d ∈ slotsOf bytes partitionStart sectors, d.at 0 ≠ slotEmpty := by
  induction sectors generalizing s with
  | nil =>
    intro d hd
    cases hd
  | cons sector sectors ih =>
    obtain ⟨dirBuffer, hread, hslots⟩ := readAt_calm partitionStart hready.calm s.dir.dirBuffer
      (hsectors sector List.mem_cons_self)
    rw [hready.bytes_eq] at hslots
    rw [scanSectors, hread] at h
    dsimp only at h
    rw [hslots] at h
    generalize hloaded : ({ s with
      dir := { s.dir with
        dirBuffer, io := { s.dir.io with dev := s.dir.io.dev.after true } } } : Scan) = loaded at h
    have hready' : Ready bytes fsc loaded.dir.io := by
      subst hloaded
      exact ⟨hready.bytes_eq, hready.coherent, hready.calm.after true⟩
    have hio := scanSlots_io component dirList (slotsAt bytes partitionStart sector) loaded
    rcases hscan : scanSlots component dirList (slotsAt bytes partitionStart sector) loaded with
      ⟨_ | _ | _, s₁⟩
    · rw [hscan] at h hio
      rw [← hio] at hready'
      intro d hd
      rw [slotsOf, List.flatMap_cons] at hd
      rcases List.mem_append.mp hd with hd | hd
      · exact scanSlots_goesOn hscan d hd
      · exact ih hready' (fun sector hsector => hsectors sector (List.mem_cons_of_mem _ hsector))
          h d hd
    · rw [hscan] at h
      cases h
    · rw [hscan] at h
      cases h

theorem searchStart_ready (bytes buffer dirBuffer : Mem) (dirbuf : ℕ → Slot) (fsc : FatSc) :
    Ready bytes fsc (searchStart bytes buffer dirBuffer dirbuf).io :=
  ⟨rfl, .inl rfl, fun _ _ _ => rfl⟩

theorem rootSectors_eq (hvol : VolumeOf bpb partitionStart fsc vol) :
    rootSectors vol = rootArea bpb ++ [(rootStart bpb : ℤ) + rootLength bpb] := by
  unfold rootSectors rootArea
  rw [hvol.length_eq, hvol.start_eq, List.range_succ]
  simp only [List.pure_def, List.bind_eq_flatMap, ← List.map_eq_flatMap, List.map_append,
    List.map_map, List.map_singleton]
  rfl

theorem rootArea_nonneg (bpb : Mem) : ∀ sector ∈ rootArea bpb, 0 ≤ sector := by
  intro sector hsector
  obtain ⟨i, -, rfl⟩ := List.mem_map.mp hsector
  omega

/-- The scan of the root area ends in it. -/
theorem rootScan_ends (hready : Ready bytes fsc dir.io)
    (hsectors : ∀ sector ∈ sectors, 0 ≤ sector)
    (hplain : PathPlain bytes bpb partitionStart fsc (slotsOf bytes partitionStart sectors)
      (component :: rest))
    (hend : (∃ d ∈ slotsOf bytes partitionStart sectors, d.at 0 = slotEmpty) ∨
      ∃ e, firstNamed component (liveEntries [] (slotsOf bytes partitionStart sectors)) = some e) :
    (scanSectors partitionStart component (rest.isEmpty && component.isEmpty) sectors
      (.start dir)).1 ≠ .goesOn := by
  have hstart : Ready bytes fsc (Scan.start dir).dir.io := hready
  rcases hend with ⟨d, hd, hempty⟩ | ⟨e, hfirst⟩
  · intro hgoes
    generalize hscan : scanSectors partitionStart component (rest.isEmpty && component.isEmpty)
      sectors (.start dir) = scan at hgoes
    obtain ⟨verdict, s₁⟩ := scan
    dsimp only at hgoes
    rw [hgoes] at hscan
    exact scanSectors_goesOn hstart hsectors hscan d hd hempty
  · have hne : component ≠ [] := by
      rintro rfl
      rw [firstNamed_nil] at hfirst
      cases hfirst
    rw [PathPlain, if_neg hne] at hplain
    rw [List.isEmpty_eq_false_iff.mpr hne, Bool.and_false]
    rcases scanSectors_names hne hstart hsectors (follows_start hne dir) hplain.1 with
      ⟨s', e', heq, -, -⟩ | ⟨verdict, s', -, -, hnone⟩
    · rw [heq]
      nofun
    · rw [hfirst] at hnone
      cases hnone

/-- The root directory in front of the data. -/
theorem fatRootscan_names (hvol : VolumeOf bpb partitionStart fsc vol)
    (hready : Ready bytes fsc dir.io)
    (hplain : PathPlain bytes bpb partitionStart fsc
      (slotsOf bytes partitionStart (rootArea bpb)) (component :: rest))
    (hend : (scanSectors partitionStart component (rest.isEmpty && component.isEmpty)
      (rootArea bpb) (.start dir)).1 ≠ .goesOn) :
    Finds bytes bpb partitionStart fsc (slotsOf bytes partitionStart (rootArea bpb))
      (component :: rest) fun fuel => fatRootscan vol fuel (component :: rest) dir := by
  have hscan := scan_names hvol hready (rootArea_nonneg bpb) hplain
    fun chain dir hready hsectors hplain hne =>
      fatSubdirscan_names hvol hready hsectors hplain hne
  have hsearch : ∀ fuel, fatRootscan vol fuel (component :: rest) dir =
      scanOutcome vol fuel rest (if rest.isEmpty && component.isEmpty then 2 else 0) 2
        (scanSectors partitionStart component (rest.isEmpty && component.isEmpty)
          (rootArea bpb) (.start dir)) := by
    intro fuel
    rw [fatRootscan, hvol.partition_eq, rootSectors_eq hvol]
    dsimp only
    rw [(scan_own [(rootStart bpb : ℤ) + rootLength bpb] hend).1]
    rfl
  dsimp only at hscan
  unfold Finds
  simp only [hsearch]
  generalize scanSectors partitionStart component (rest.isEmpty && component.isEmpty)
    (rootArea bpb) (.start dir) = scan at hscan hend
  obtain ⟨_ | _ | _, s⟩ := scan
  · exact absurd rfl hend
  · rcases hscan with ⟨-, hnone⟩ | ⟨hfound, -⟩
    · exact ⟨0, fun fuel _ => ⟨_, _, rfl, hnone⟩⟩
    · cases hfound
  · rcases hscan with ⟨hother, -⟩ | ⟨-, hfinds⟩
    · exact absurd rfl hother
    · exact hfinds

/-- **`fat_findfile`** finds an entry exactly when the path names it, and reads no sector that is
    not one of the root directory when it looks for the first component. -/
theorem fatFindfile_names (bytes : Mem) {name : CStr}
    (hbpb : bpbVol partitionStart bpb = some vol) (hfsc : vol.fsc = some fsc)
    (hroot : RootSectors bytes bpb fsc sectors)
    (hok : SearchOk bytes bpb partitionStart fsc sectors name) (buffer dirBuffer : Mem)
    (dirbuf : ℕ → Slot) :
    FindsRight bytes bpb partitionStart fsc vol sectors name
      (searchStart bytes buffer dirBuffer dirbuf) := by
  obtain ⟨hboot, hplain, hpath⟩ := hok
  obtain ⟨fsc', hvol⟩ := volumeOf_bpbVol hbpb hboot
  obtain rfl : fsc' = fsc := Option.some.inj (hvol.fsc_eq.symm.trans hfsc)
  have hready := searchStart_ready bytes buffer dirBuffer dirbuf fsc'
  generalize searchStart bytes buffer dirBuffer dirbuf = dir at hready
  have hne : name.splitOn 47 ≠ [] := List.splitOnP_ne_nil _ _
  unfold FindsRight fatFindfile rootReads
  unfold RootSectors at hroot
  unfold RootPlain at hplain
  rw [hvol.fsc_eq, Option.map_some]
  obtain ⟨component, rest, hcomponents⟩ := List.exists_cons_of_ne_nil hne
  rw [hcomponents] at hplain hpath ⊢
  dsimp only
  by_cases htype : fsc'.fatType = .fat32
  · rw [if_pos htype] at hroot hplain
    simp only [htype, if_true]
    obtain ⟨hcluster, hclusters⟩ := hplain
    rw [hcluster] at hroot
    obtain ⟨links, hchain, rfl⟩ := hroot
    have hdata := hclusters links hchain
    have hchainSectors := chainSectors_eq hvol hdata
    obtain ⟨io, hio, hget⟩ := getChain_total hready hvol.bytes_eq (fun a ha => (hdata a ha).link)
      hchain
    rw [← hchainSectors] at hpath ⊢
    have hnonneg : ∀ sector ∈ chainSectors vol ⟨2, 2 :: links, links.length + 1⟩,
        0 ≤ sector := by
      rw [hchainSectors]
      exact clusterSectors_nonneg hdata
    have hready' : Ready bytes fsc' ({ dir with io } : DirState).io := hio
    obtain ⟨enough, hfinds⟩ := fatSubdirscan_names hvol hready' hnonneg hpath (by simp)
    refine ⟨⟨max (links.length + 1) enough, ?_⟩, ⟨links.length + 1, ?_⟩⟩
    · intro fuel hfuel
      dsimp only
      rw [hget fuel (by omega), Option.bind_some]
      exact hfinds fuel (by omega)
    · intro fuel hfuel
      rw [hget fuel hfuel, Option.map_some]
      exact ⟨_, rfl, scannedSectors_prefix _ _ _ _⟩
  · rw [if_neg htype] at hroot hplain
    rw [hroot] at hplain hpath ⊢
    have hother : ¬ some fsc'.fatType = some .fat32 := fun h => htype (Option.some.inj h)
    simp only [hother, if_false]
    have hend := rootScan_ends hready (rootArea_nonneg bpb) hpath (by
      rcases hplain with hunused | ⟨_, e, hhead, hfirst⟩
      · exact .inl hunused
      · rw [List.head?_cons, Option.some.injEq] at hhead
        rw [← hhead] at hfirst
        exact .inr ⟨e, hfirst⟩)
    refine ⟨fatRootscan_names hvol hready hpath hend, 0, ?_⟩
    intro fuel _
    rw [hvol.partition_eq, rootSectors_eq hvol]
    exact ⟨_, rfl, (scan_own _ hend).2⟩

/-! ## §6 Small volumes -/

/-- The cells that are not 0 of the boot sector and of the table of a FAT12 volume, whose root
    directory is the sector 2. -/
def bootCells : List (ℕ × UInt8) :=
  [(0, 0xeb), (12, 2), (13, 1), (14, 1), (16, 1), (17, 16), (19, 100), (22, 1), (515, 0xff),
    (516, 0x0f)]

/-- A slot of a file with the name A. -/
def slotCells (a : ℕ) : List (ℕ × UInt8) :=
  (a, 65) :: (a + 26, 2) :: (List.range 10).map fun k => (a + 1 + k, 32)

def imageOf (cells : List (ℕ × UInt8)) : Mem := fun a => (cells.lookup a).getD 0

/-- A volume with a file. -/
def plainImage : Mem := imageOf (bootCells ++ slotCells 1024)

theorem plainVol_isSome : (bpbVol 0 plainImage).isSome := by decide

def plainVol : FatVol := (bpbVol 0 plainImage).get plainVol_isSome

theorem plainFsc_isSome : plainVol.fsc.isSome := by decide

def plainFsc : FatSc := plainVol.fsc.get plainFsc_isSome

/-- The slot of the file. -/
def plainSlot : Slot := plainImage.slice 1024 32

theorem plainSlots :
    ∃ more, slotsOf plainImage 0 [2] = plainSlot :: List.replicate 32 0 :: more := by
  refine ⟨(List.range' 2 14).map fun k => plainImage.slice (1024 + 32 * k) 32, ?_⟩
  decide

theorem plainSlot_plain : EntryPlain ⟨[], plainSlot⟩ where
  short := ⟨by decide, by decide, by decide, by decide⟩
  long := .inl rfl

theorem plainSlot_named : LiveEntry.Named [65] ⟨[], plainSlot⟩ := by decide

theorem plainSlot_first (more : List Slot) :
    firstNamed [65] (liveEntries [] (plainSlot :: List.replicate 32 0 :: more)) =
      some ⟨[], plainSlot⟩ := by
  have hentries : liveEntries [] (plainSlot :: List.replicate 32 0 :: more) =
      [⟨[], plainSlot⟩] := by
    rw [liveEntries, if_neg (by decide), if_neg (by decide),
      if_neg (by decide), if_neg (by decide), liveEntries,
      if_pos (by decide)]
  unfold firstNamed
  rw [hentries, List.find?_cons_of_pos (by simpa using plainSlot_named)]

/-- The file in the root directory is found. -/
theorem fatFindfile_names_plain :
    FindsRight plainImage plainImage 0 plainFsc plainVol [2] [65]
      (searchStart plainImage (fun _ => 0) (fun _ => 0) fun _ => []) := by
  have hvol : bpbVol 0 plainImage = some plainVol := (Option.some_get _).symm
  have hfsc : plainVol.fsc = some plainFsc := (Option.some_get _).symm
  have htype : plainFsc.fatType = .fat12 := by decide
  obtain ⟨more, hslots⟩ := plainSlots
  apply fatFindfile_names plainImage hvol hfsc
  · unfold RootSectors
    rw [htype, if_neg (by decide)]
    decide
  · refine ⟨⟨by decide, by decide⟩, ?_, ?_⟩
    · unfold RootPlain
      rw [htype, if_neg (by decide), hslots]
      exact .inr ⟨[65], _, rfl, plainSlot_first more⟩
    · change PathPlain plainImage plainImage 0 plainFsc _ [[65]]
      rw [hslots, PathPlain, if_neg (by decide), SlotsPlain, if_neg (by decide),
        if_neg (by decide), if_neg (by decide), if_neg (by decide)]
      refine ⟨⟨plainSlot_plain, fun hother => absurd plainSlot_named hother⟩, ?_⟩
      intro e hfirst
      rw [plainSlot_first] at hfirst
      cases hfirst
      refine ⟨[], ⟨?_, ?_⟩, fun hrest => absurd rfl hrest⟩
      · unfold ClusterChain
        decide
      · rw [List.isEmpty_nil, if_pos rfl]
        intro a ha
        rw [List.mem_singleton.mp ha]
        refine ⟨by decide, reservedZero_of_small ?_⟩
        rw [htype]
        decide

/-- A volume of which all slots of the root directory are deleted; the cluster behind it begins with
    the slot of a file. -/
def fullImage : Mem :=
  imageOf (bootCells ++ slotCells 1536 ++ (List.range 16).map fun k => (1024 + 32 * k, 0xe5))

theorem fullVol_isSome : (bpbVol 0 fullImage).isSome := by decide

def fullVol : FatVol := (bpbVol 0 fullImage).get fullVol_isSome

theorem fullFsc_isSome : fullVol.fsc.isSome := by decide

def fullFsc : FatSc := fullVol.fsc.get fullFsc_isSome

/-- A file is found behind the end of the root directory. -/
theorem fatFindfile_behind :
    RootSectors fullImage fullImage fullFsc [2] ∧
      ¬ FindsRight fullImage fullImage 0 fullFsc fullVol [2] [65]
        (searchStart fullImage (fun _ => 0) (fun _ => 0) fun _ => []) := by
  have htype : fullFsc.fatType = .fat12 := by decide
  refine ⟨?_, ?_⟩
  · unfold RootSectors
    rw [htype, if_neg (by decide)]
    decide
  · rintro ⟨⟨enough, hfinds⟩, -⟩
    obtain ⟨res, dir, hsearch, hright⟩ := hfinds enough (Nat.le_refl _)
    have hscan : (scanSectors fullVol.partitionStart [65] false (rootSectors fullVol)
        (.start (searchStart fullImage (fun _ => 0) (fun _ => 0) fun _ => []))).1 = .found := by
      decide +kernel
    have hother : ¬ fullVol.fsc.map FatSc.fatType = some .fat32 := by decide +kernel
    have hfile : ∃ filee chain, res = .file filee chain := by
      generalize searchStart fullImage (fun _ => 0) (fun _ => 0) (fun _ => []) = dir
        at hscan hsearch
      generalize fullVol = vol at hscan hother hsearch
      dsimp only at hsearch
      unfold fatFindfile at hsearch
      rw [if_neg hother] at hsearch
      change fatRootscan vol enough [[65]] _ = _ at hsearch
      rw [fatRootscan] at hsearch
      simp only [List.isEmpty, Bool.and_false] at hsearch
      generalize scanSectors vol.partitionStart [65] false (rootSectors vol) (.start dir) = scan
        at hscan hsearch
      obtain ⟨_ | _ | _, s⟩ := scan
      · cases hscan
      · cases hscan
      · obtain ⟨⟨chain, io⟩, -, heq⟩ := Option.bind_eq_some_iff.mp hsearch
        cases heq
        exact ⟨_, _, rfl⟩
    obtain ⟨filee, chain, rfl⟩ := hfile
    obtain ⟨e, hnames, -⟩ := hright
    -- no entry of the root directory is live
    have hlive : (liveEntries [] (slotsOf fullImage 0 [2])).isEmpty = true := by decide
    generalize slotsOf fullImage 0 [2] = slots at hlive hnames
    rw [List.isEmpty_iff] at hlive
    apply not_pathNames_of_none _ hnames
    rw [hlive]
    rfl

end Pmon.Fs.Fat
