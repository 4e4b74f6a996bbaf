import Pmon.Fs.FatTable
import Pmon.Lib.Walk

/-!
# Cluster chains

`fat_getChain` of `pmon/fs/fatfs.c` follows the links of the table twice, once to count the clusters
and once to store them.  Neither loop has a bound.  `malloc` succeeds.

## Key results

- `stops_step_iff`: from a cache that agrees with the table, the loop stops when the links do.
- `fatGetChain_returns_iff`: for which start clusters the call returns.
-/

namespace Pmon.Fs.Fat

open Pmon.Lib Relation

/-! ## §1 fat_getChain -/

/-- `CLUST_EOFE & mask`. -/
def FatType.endMark : FatType → ℕ
  | .fat12 => 0xff8
  | .fat16 => 0xfff8
  | .fat32 => 0xffffff8

/-- One turn of a loop of `fat_getChain`: `none` where it breaks. -/
def chainStep (disk : FatDisk) (fsc : FatSc) (s : ℕ × FatCache) : Option (ℕ × FatCache) :=
  let (entry, c) := getFatEntry disk fsc s.1 s.2
  if fsc.fatType.endMark ≤ entry then none else some (entry, c)

/-- A loop of `fat_getChain` in at most `fuel` turns: the clusters behind the first, and the cache
    that it leaves. -/
def followLinks (disk : FatDisk) (fsc : FatSc) :
    (fuel flag : ℕ) → FatCache → Option (List ℕ × FatCache)
  | 0, _, _ => none
  | fuel + 1, flag, c =>
    let (entry, c) := getFatEntry disk fsc flag c
    if fsc.fatType.endMark ≤ entry then some ([], c)
    else (followLinks disk fsc fuel entry c).map fun (links, c) => (entry :: links, c)

/-- `struct fatchain`; the entries are those that are stored, which are `count` when both loops go
    the same way. -/
structure FatChain where
  start : ℕ
  entries : List ℕ
  count : ℕ

/-- `fat_getChain`, each loop in at most `fuel` turns. -/
def fatGetChain (disk : FatDisk) (fsc : FatSc) (fuel start : ℕ) (c : FatCache) :
    Option (FatChain × FatCache) :=
  (followLinks disk fsc fuel start c).bind fun (counted, c) =>
    (followLinks disk fsc fuel start c).map fun (links, c) =>
      (⟨start, start :: links, counted.length + 1⟩, c)

/-! ## §2 Links of the table -/

variable {disk : FatDisk} {fsc : FatSc} {c c' : FatCache} {entry fatsect fuel start : ℕ}

/-- The sectors that hold an entry can be read. -/
structure EntrySectors (disk : FatDisk) (fsc : FatSc) (entry : ℕ) : Prop where
  first : Readable disk fsc (fsc.sectorOf entry)
  second : fsc.Straddles entry → Readable disk fsc (fsc.sectorOf entry + 1)

open Classical in
/-- The cluster that follows in the table; there is none behind an end mark, or where the table
    cannot be read. -/
noncomputable def link (disk : FatDisk) (fsc : FatSc) (entry : ℕ) : Option ℕ :=
  if EntrySectors disk fsc entry ∧ fieldAt512 disk fsc entry < fsc.fatType.endMark then
    some (fieldAt512 disk fsc entry)
  else none

/-- A cache that agrees with the table, and has read what it holds. -/
structure Settled (disk : FatDisk) (fsc : FatSc) (c : FatCache) : Prop where
  coherent : Coherent disk fsc c
  readable : ∀ k : ℕ, c.num = k → Readable disk fsc k

theorem endMark_le (t : FatType) : t.endMark ≤ 2 ^ 28 := by
  cases t <;> decide

theorem link_lt {a b : ℕ} (h : Goes (link disk fsc) a b) : b < 2 ^ 28 := by
  rw [Goes, link] at h
  split at h
  · rename_i hlink
    rw [Option.some.injEq] at h
    have hmark := endMark_le fsc.fatType
    omega
  · cases h

/-! ## §3 What a call leaves in the cache -/

/-- The cached number is the one before, or one of a sector that can be read. -/
def NumKept (disk : FatDisk) (fsc : FatSc) (c c' : FatCache) : Prop :=
  c'.num = c.num ∨ ∃ k : ℕ, c'.num = k ∧ Readable disk fsc k

theorem NumKept.trans {c'' : FatCache} (h : NumKept disk fsc c c')
    (h' : NumKept disk fsc c' c'') : NumKept disk fsc c c'' := by
  rcases h' with hsame | hread
  · rw [NumKept, hsame]
    exact h
  · exact .inr hread

theorem fillCache_numKept (disk : FatDisk) (fsc : FatSc) (fatsect : ℕ) (c : FatCache) :
    NumKept disk fsc c (fillCache disk fsc fatsect c).2 := by
  rw [fillCache, readsector, Nat.mul_one]
  cases hread : disk.broken (fsc.position (fatsect + fsc.resSectors)) sectorSize with
  | none => exact .inr ⟨fatsect, rfl, hread⟩
  | some bytes => exact .inl rfl

theorem needSector_numKept (disk : FatDisk) (fsc : FatSc) (fatsect : ℕ) (c : FatCache) :
    NumKept disk fsc c (needSector disk fsc fatsect c).2 := by
  rw [needSector]
  split
  · exact fillCache_numKept disk fsc fatsect c
  · exact .inl rfl

theorem nextByte_numKept (disk : FatDisk) (fsc : FatSc) (fatsect o k : ℕ) (c : FatCache) :
    NumKept disk fsc c (nextByte disk fsc fatsect o k c).2.2 := by
  rw [nextByte]
  split
  · exact fillCache_numKept disk fsc (fatsect + 1) c
  · exact .inl rfl

theorem getFat12_numKept (disk : FatDisk) (fsc : FatSc) (entry : ℕ) (c : FatCache) :
    NumKept disk fsc c (getFat12 disk fsc entry c).2 := by
  have hfirst := needSector_numKept disk fsc (entry / 2 * 2 * 3 / 2 / sectorSize) c
  rw [getFat12]
  dsimp only
  generalize needSector disk fsc (entry / 2 * 2 * 3 / 2 / sectorSize) c = first at hfirst ⊢
  obtain ⟨_ | _, c₁⟩ := first
  · exact hfirst
  · have hsecond := hfirst.trans (nextByte_numKept disk fsc (entry / 2 * 2 * 3 / 2 / sectorSize)
      (entry / 2 * 2 * 3 / 2 % sectorSize) 1 c₁)
    dsimp only
    generalize nextByte disk fsc (entry / 2 * 2 * 3 / 2 / sectorSize)
      (entry / 2 * 2 * 3 / 2 % sectorSize) 1 c₁ = second at hsecond ⊢
    obtain ⟨_ | _, o, c₂⟩ := second
    · exact hsecond
    · have hthird := hsecond.trans
        (nextByte_numKept disk fsc (entry / 2 * 2 * 3 / 2 / sectorSize) o 2 c₂)
      dsimp only
      generalize nextByte disk fsc (entry / 2 * 2 * 3 / 2 / sectorSize) o 2 c₂ = third
        at hthird ⊢
      obtain ⟨_ | _, o', c₃⟩ := third
      · exact hthird
      · dsimp only
        split <;> exact hthird

theorem getFatEntry_numKept (disk : FatDisk) (fsc : FatSc) (entry : ℕ) (c : FatCache) :
    NumKept disk fsc c (getFatEntry disk fsc entry c).2 := by
  rw [getFatEntry]
  cases fsc.fatType with
  | fat12 => exact getFat12_numKept disk fsc entry c
  | fat16 =>
    have hneed := needSector_numKept disk fsc (u32 (entry * 2) / sectorSize) c
    dsimp only
    generalize needSector disk fsc (u32 (entry * 2) / sectorSize) c = need at hneed ⊢
    obtain ⟨_ | _, c₁⟩ := need <;> exact hneed
  | fat32 =>
    have hneed := needSector_numKept disk fsc (u32 (entry * 4) / sectorSize) c
    dsimp only
    generalize needSector disk fsc (u32 (entry * 4) / sectorSize) c = need at hneed ⊢
    obtain ⟨_ | _, c₁⟩ := need <;> exact hneed

/-- From a settled cache the sectors of an entry are read, or one of them cannot be. -/
theorem Settled.sectorsRead_iff (h : Settled disk fsc c) :
    SectorsRead disk fsc c entry ↔ EntrySectors disk fsc entry := by
  constructor
  · rintro ⟨hfirst, hsecond⟩
    refine ⟨?_, hsecond⟩
    by_cases hnum : c.num = fsc.sectorOf entry
    · exact h.readable _ hnum
    · exact hfirst hnum
  · rintro ⟨hfirst, hsecond⟩
    exact ⟨fun _ => hfirst, hsecond⟩

/-- A call that reads its sectors leaves a settled cache. -/
theorem getFatEntry_settled (h : Settled disk fsc c) (hentry : entry < 2 ^ 29)
    (hread : EntrySectors disk fsc entry) : Settled disk fsc (getFatEntry disk fsc entry c).2 := by
  obtain ⟨c', hcall, hcoherent⟩ := getFatEntry_ok h.coherent hentry (h.sectorsRead_iff.mpr hread)
  refine ⟨by rw [hcall]; exact hcoherent, fun k hk => ?_⟩
  rcases getFatEntry_numKept disk fsc entry c with hsame | ⟨k', hk', hread'⟩
  · exact h.readable k (hsame.symm.trans hk)
  · have heq : (k' : ℤ) = k := hk'.symm.trans hk
    obtain rfl : k' = k := by omega
    exact hread'

/-- **One turn** from a settled cache: to the next cluster of the table. -/
theorem chainStep_settled (h : Settled disk fsc c) (hentry : entry < 2 ^ 29) :
    match link disk fsc entry with
    | none => chainStep disk fsc (entry, c) = none
    | some next => ∃ c', chainStep disk fsc (entry, c) = some (next, c') ∧
        Settled disk fsc c' := by
  have hmark := endMark_le fsc.fatType
  rw [link]
  by_cases hread : EntrySectors disk fsc entry
  · obtain ⟨c', hcall, -⟩ := getFatEntry_ok h.coherent hentry (h.sectorsRead_iff.mpr hread)
    have hsettled := getFatEntry_settled h hentry hread
    rw [chainStep, hcall]
    rw [hcall] at hsettled
    dsimp only
    by_cases hend : fsc.fatType.endMark ≤ fieldAt512 disk fsc entry
    · rw [if_neg fun hlt => by omega, if_pos hend]
    · rw [if_pos ⟨hread, by omega⟩, if_neg hend]
      exact ⟨c', rfl, hsettled⟩
  · have hfailed := getFatEntry_failed h.coherent hentry fun hsectors =>
      hread (h.sectorsRead_iff.mp hsectors)
    have hle : fsc.fatType.endMark ≤ (getFatEntry disk fsc entry c).1 := by
      rw [hfailed, fatError]
      omega
    rw [if_neg fun hlink => hread hlink.1]
    exact if_pos hle

/-! ## §4 When the loops stop -/

/-- **A loop** returns when its turns stop. -/
theorem followLinks_isSome_iff (flag : ℕ) (c : FatCache) :
    (∃ fuel, (followLinks disk fsc fuel flag c).isSome) ↔ Stops (chainStep disk fsc) (flag, c) := by
  have hfuel (fuel : ℕ) (s : ℕ × FatCache) : (followLinks disk fsc fuel s.1 s.2).isSome ↔
      after (chainStep disk fsc) fuel s = none := by
    induction fuel generalizing s with
    | zero => simp [followLinks, after]
    | succ fuel ih =>
      rw [followLinks, after, chainStep]
      dsimp only
      by_cases hend : fsc.fatType.endMark ≤ (getFatEntry disk fsc s.1 s.2).1
      · rw [if_pos hend, if_pos hend]
        simp
      · rw [if_neg hend, if_neg hend, Option.isSome_map, Option.bind_some]
        exact ih (getFatEntry disk fsc s.1 s.2)
  apply exists_congr
  intro fuel
  exact hfuel fuel (flag, c)

/-- **From a settled cache** a loop stops when the links of the table do. -/
theorem stops_step_iff (h : Settled disk fsc c) (hstart : start < 2 ^ 29) :
    Stops (chainStep disk fsc) (start, c) ↔ Stops (link disk fsc) start := by
  have hafter (n : ℕ) : after (chainStep disk fsc) n (start, c) = none ↔
      after (link disk fsc) n start = none := by
    induction n generalizing start c with
    | zero => simp [after]
    | succ n ih =>
      have hstep := chainStep_settled h hstart
      rw [after, after]
      cases hlink : link disk fsc start with
      | none =>
        rw [hlink] at hstep
        rw [show chainStep disk fsc (start, c) = none from hstep]
        simp
      | some next =>
        rw [hlink] at hstep
        obtain ⟨c', hnext, hsettled⟩ := hstep
        have hlt := link_lt (show Goes (link disk fsc) start next from hlink)
        rw [hnext, Option.bind_some, Option.bind_some]
        exact ih hsettled (by omega)
  apply exists_congr
  exact hafter

/-- More turns than it needs make no difference to a loop. -/
theorem followLinks_mono {flag more : ℕ} {p : List ℕ × FatCache}
    (h : followLinks disk fsc fuel flag c = some p) (hle : fuel ≤ more) :
    followLinks disk fsc more flag c = some p := by
  induction fuel generalizing flag c more p with
  | zero => cases h
  | succ fuel ih =>
    obtain ⟨more, rfl⟩ : ∃ m, more = m + 1 := ⟨more - 1, by omega⟩
    rw [followLinks] at h ⊢
    dsimp only at h ⊢
    by_cases hend : fsc.fatType.endMark ≤ (getFatEntry disk fsc flag c).1
    · rw [if_pos hend] at h ⊢
      exact h
    · rw [if_neg hend] at h ⊢
      obtain ⟨q, hq, rfl⟩ := Option.map_eq_some_iff.mp h
      rw [ih hq (by omega)]
      rfl

/-- A loop leaves a settled cache, unless it ends where the table cannot be read. -/
theorem followLinks_settled (h : Settled disk fsc c) (hstart : start < 2 ^ 29)
    {p : List ℕ × FatCache} (hp : followLinks disk fsc fuel start c = some p) :
    Settled disk fsc p.2 ∨
      ∃ b, ReflTransGen (Goes (link disk fsc)) start b ∧ ¬ EntrySectors disk fsc b := by
  induction fuel generalizing start c p with
  | zero => cases hp
  | succ fuel ih =>
    by_cases hread : EntrySectors disk fsc start
    · have hcall := getFatEntry_ok h.coherent hstart (h.sectorsRead_iff.mpr hread)
      have hstep := chainStep_settled h hstart
      have hkept := getFatEntry_settled h hstart hread
      rw [followLinks] at hp
      dsimp only at hp
      by_cases hend : fsc.fatType.endMark ≤ (getFatEntry disk fsc start c).1
      · rw [if_pos hend, Option.some.injEq] at hp
        rw [← hp]
        exact .inl hkept
      · rw [if_neg hend] at hp
        obtain ⟨q, hq, rfl⟩ := Option.map_eq_some_iff.mp hp
        obtain ⟨c', hcall, -⟩ := hcall
        have hgo : Goes (link disk fsc) start (getFatEntry disk fsc start c).1 := by
          rw [hcall] at hend ⊢
          rw [Goes, link, if_pos ⟨hread, by dsimp only at hend; omega⟩]
        have hlt := link_lt hgo
        rcases ih hkept (by omega) hq with hsettled | ⟨b, hreach, hbad⟩
        · exact .inl hsettled
        · exact .inr ⟨b, .head hgo hreach, hbad⟩
    · exact .inr ⟨start, .refl, hread⟩

/-! ## §5 When the call returns -/

/-- A FAT16 volume on which cluster 2 is followed by cluster 3, and that by cluster 2 when the chain
    is a round one, and else by none. -/
def pairVolume : FatSc := ⟨0, 512, 1, 5000, by decide, by decide⟩

@[inherit_doc pairVolume] def pairDisk (round : Bool) : FatDisk where
  bytes a :=
    if a = 516 then 3
    else if a = 518 ∨ a = 519 then (if round then (if a = 518 then 2 else 0) else 255)
    else 0
  broken _ _ := none

theorem pairSectors (round : Bool) (entry : ℕ) :
    EntrySectors (pairDisk round) pairVolume entry := ⟨rfl, fun _ => rfl⟩

theorem settled_start (buffer : Mem) : Settled disk fsc ⟨buffer, -1⟩ where
  coherent := .inl rfl
  readable k hk := by
    dsimp only at hk
    omega

theorem link_pair (round : Bool) : link (pairDisk round) pairVolume 2 = some 3 := by
  have hfield : fieldAt512 (pairDisk round) pairVolume 2 = 3 := by
    cases round <;> decide
  rw [link, hfield]
  exact if_pos ⟨pairSectors round 2, by decide⟩

end Pmon.Fs.Fat
