import Mathlib.Tactic.Ring
import Pmon.Nvram.Entries

/-!
# Reading the environment area

`cksum` verifies what `cksum` with `set` wrote, and `tgt_mapenv` reports the entries of a
well-formed area and accepts no other.
-/

namespace Pmon.Nvram

open Pmon.Lib Pmon.Libc

variable {m m' : Mem} {a p s : ℕ} {name e : CStr} {es : List CStr}

/-! ## §1 Checksum -/

/-- The sum of the byte pairs, not reduced. -/
def pairSum (m : Mem) : ℕ → ℕ → ℕ
  | _, 0 => 0
  | sp, n + 1 => (m sp).toNat * 256 + (m (sp + 1)).toNat + pairSum m (sp + 2) n

theorem cksumLoop_eq (n sum : ℕ) :
    cksumLoop m p n (sum % 65536) = (sum + pairSum m p n) % 65536 := by
  induction n generalizing p sum with
  | zero => rfl
  | succ n ih =>
    rw [cksumLoop, pairSum]
    have hstep : ((sum % 65536 + (m p).toNat * 256) % 65536 + (m (p + 1)).toNat) % 65536 =
        (sum + (m p).toNat * 256 + (m (p + 1)).toNat) % 65536 := by omega
    simp only [hstep, ih]
    congr 1
    omega

theorem cksum_eq : cksum m p s = pairSum m p (s / 2) % 65536 := by
  have h := cksumLoop_eq (m := m) (p := p) (s / 2) 0
  rwa [Nat.zero_mod, Nat.zero_add] at h

theorem pairSum_congr {n : ℕ} (h : ∀ i, p ≤ i → i < p + 2 * n → m i = m' i) :
    pairSum m p n = pairSum m' p n := by
  induction n generalizing p with
  | zero => rfl
  | succ n ih =>
    rw [pairSum, pairSum, h p (by omega) (by omega), h (p + 1) (by omega) (by omega),
      ih fun i h1 h2 => h i (by omega) (by omega)]

/-- The checksum looks at its area only. -/
theorem cksum_congr (h : ∀ i, p ≤ i → i < p + s → m i = m' i) : cksum m p s = cksum m' p s := by
  rw [cksum_eq, cksum_eq, pairSum_congr fun i h1 h2 => h i h1 (by omega)]

theorem cksumSet_of_ne {i : ℕ} (h0 : i ≠ p) (h1 : i ≠ p + 1) : cksumSet m p s i = m i := by
  simp only [cksumSet]
  rw [Mem.put_of_ne h1, Mem.put_of_ne h0, Mem.put_of_ne h1, Mem.put_of_ne h0]

/-- A checksum that was set verifies. -/
theorem cksum_cksumSet (hs : 2 ≤ s) : cksum (cksumSet m p s) p s = 0 := by
  obtain ⟨n, hn⟩ : ∃ n, s / 2 = n + 1 := ⟨s / 2 - 1, by omega⟩
  -- the sum is taken with the two checksum bytes at zero
  obtain ⟨m₀, hm₀⟩ : ∃ m₀, m₀ = (m.put p 0).put (p + 1) 0 := ⟨_, rfl⟩
  obtain ⟨sum, hsum⟩ : ∃ sum, sum = (65536 - cksum m₀ p s) % 65536 := ⟨_, rfl⟩
  have hset : cksumSet m p s =
      (m₀.put p (UInt8.ofNat (sum / 256))).put (p + 1) (UInt8.ofNat sum) := by
    rw [hsum, hm₀]
    rfl
  have h0 : (m₀ p).toNat = 0 := by
    rw [hm₀, Mem.put_of_ne (by omega), Mem.put_self]
    rfl
  have h1 : (m₀ (p + 1)).toNat = 0 := by
    rw [hm₀, Mem.put_self]
    rfl
  have hlo : (cksumSet m p s (p + 1)).toNat = sum % 256 := by
    rw [hset, Mem.put_self, UInt8.toNat_ofNat']
  have hhi : (cksumSet m p s p).toNat = sum / 256 := by
    rw [hset, Mem.put_of_ne (by omega), Mem.put_self, UInt8.toNat_ofNat']
    exact Nat.mod_eq_of_lt (by omega)
  have hrest : pairSum (cksumSet m p s) (p + 2) n = pairSum m₀ (p + 2) n := by
    refine pairSum_congr fun i hi _ => ?_
    rw [hset, Mem.put_of_ne (by omega), Mem.put_of_ne (by omega)]
  have hold : cksum m₀ p s = pairSum m₀ (p + 2) n % 65536 := by
    rw [cksum_eq, hn, pairSum, h0, h1]
    omega
  rw [cksum_eq, hn, pairSum, hlo, hhi, hrest]
  omega

/-! ## §2 Reporting the entries -/

/-- The copying loop on one entry: name and value are collected up to the NUL. -/
theorem mapEntryLoop_eq {n i : ℕ} (name : CStr) (val : Option CStr) (h : m.Holds a (e ++ [0]))
    (he : (0 : UInt8) ∉ e) (hlen : i + e.length ≤ 254) (hend : a + e.length ≤ 484)
    (hn : e.length < n) :
    mapEntryLoop m n a i name val = (a + e.length + 1, i + e.length,
      match val with
      | none => (name ++ entryName e, entryValue e)
      | some v => (name, some (v ++ e))) := by
  induction e generalizing a i n name val with
  | nil =>
    obtain ⟨n, rfl⟩ : ∃ k, n = k + 1 := ⟨n - 1, by omega⟩
    have h0 : m a = 0 := h.1
    cases val <;> simp [mapEntryLoop, h0, entryName, entryValue]
  | cons c cs ih =>
    obtain ⟨n, rfl⟩ : ∃ k, n = k + 1 := ⟨n - 1, by omega⟩
    rw [List.length_cons] at hlen hend hn
    have hc : m a = c := h.1
    have hc0 : c ≠ 0 := fun h0 => he (h0 ▸ List.mem_cons_self ..)
    have hcs : (0 : UInt8) ∉ cs := fun h0 => he (List.mem_cons_of_mem _ h0)
    have hstep := fun name val => ih (i := i + 1) (n := n) name val h.2 hcs (by omega) (by omega)
      (by omega)
    have hin : a + 1 ≤ nvramSize - 1 := by simp only [nvramSize]; omega
    have hi : i < 255 := by omega
    have harith : a + 1 + cs.length + 1 = a + (cs.length + 1) + 1 ∧
        i + 1 + cs.length = i + (cs.length + 1) := by omega
    simp only [mapEntryLoop, hc, ne_eq, hc0, not_false_eq_true, hin, and_self, if_true, hi,
      hstep, List.length_cons, harith.1, harith.2]
    cases val with
    | none =>
      by_cases heq : c = eqSign
      · simp [heq, entryName, entryValue]
      · simp [heq, entryName, entryValue]
    | some v => simp

/-- **`tgt_mapenv` reports the entries** of a well-formed area. -/
theorem mapLoop_eq {n : ℕ} (h : m.Holds a (packed es)) (hes : ∀ e ∈ es, IsEntry e)
    (hlen : ∀ e ∈ es, e.length ≤ 254) (hend : a + (packed es).length ≤ nvramSize)
    (hn : es.length < n) : mapLoop m n a = (es.map entryReport, true) := by
  induction es generalizing a n with
  | nil =>
    obtain ⟨n, rfl⟩ : ∃ k, n = k + 1 := ⟨n - 1, by omega⟩
    have h0 : m a = 0 := h.1
    simp [mapLoop, h0]
  | cons e es ih =>
    obtain ⟨n, rfl⟩ : ∃ k, n = k + 1 := ⟨n - 1, by omega⟩
    have he := hes e (List.mem_cons_self ..)
    have hhead : m a ≠ 0 := fun h0 =>
      List.cons_ne_nil e es ((Mem.holds_packed_head h hes).mp h0)
    have hl := hlen e (List.mem_cons_self ..)
    rw [packed_cons, show e ++ 0 :: packed es = (e ++ [0]) ++ packed es by simp,
      Mem.holds_append] at h
    rw [packed_cons, List.length_append, List.length_cons] at hend
    have hpos : 1 ≤ (packed es).length := by rw [length_packed]; omega
    simp only [nvramSize] at hend
    have hentry := mapEntryLoop_eq (n := 257) (i := 0) [] none h.1 he.not_mem
      (by omega) (by omega) (by omega)
    have hrest := ih (a := a + e.length + 1) (n := n) (by simpa [Nat.add_assoc] using h.2)
      (fun d hd => hes d (List.mem_cons_of_mem _ hd))
      (fun d hd => hlen d (List.mem_cons_of_mem _ hd))
      (by simp only [nvramSize]; omega) (by simpa using hn)
    have hok : a + e.length + 1 ≤ nvramSize - 1 ∧ 0 + e.length < 255 := by
      simp only [nvramSize]
      omega
    simp only [mapLoop, hhead, if_false, hentry, hok, and_self, if_true, hrest, List.map_cons,
      List.nil_append, entryReport]

/-- What the copying loop accepts is an entry with its NUL. -/
theorem mapEntryLoop_sound {fuel i ep' i' : ℕ} {val : Option CStr} {rep : Report}
    (h : mapEntryLoop m fuel a i name val = (ep', i', rep)) (hep : ep' ≤ nvramSize - 1)
    (hi : i' < 255) (hfuel : 256 ≤ i + fuel) :
    ∃ e, m.Holds a (e ++ [0]) ∧ (0 : UInt8) ∉ e ∧ ep' = a + e.length + 1 ∧
      i' = i + e.length := by
  induction fuel generalizing a i name val with
  | zero =>
    simp only [mapEntryLoop, Prod.mk.injEq] at h
    omega
  | succ fuel ih =>
    simp only [mapEntryLoop] at h
    by_cases hc : m a = 0
    · simp only [hc, ne_eq, not_true_eq_false, false_and, if_false, Prod.mk.injEq] at h
      exact ⟨[], ⟨hc, trivial⟩, by simp, by simpa using h.1.symm, by simpa using h.2.1.symm⟩
    · by_cases hend : a + 1 ≤ nvramSize - 1
      · by_cases hi255 : i < 255
        · -- one more character of the entry
          have hrec : ∃ name val, mapEntryLoop m fuel (a + 1) (i + 1) name val = (ep', i', rep) := by
            simp only [hc, ne_eq, not_false_eq_true, hend, and_self, if_true, hi255] at h
            split at h
            · split at h <;> exact ⟨_, _, h⟩
            · exact ⟨_, _, h⟩
          obtain ⟨name, val, hrec⟩ := hrec
          obtain ⟨e, hholds, hmem, hep', hi'⟩ := ih hrec (by omega)
          refine ⟨m a :: e, ⟨rfl, hholds⟩, ?_, ?_, ?_⟩
          · rw [List.mem_cons, not_or]
            exact ⟨fun h0 => hc h0.symm, hmem⟩
          · rw [hep', List.length_cons]
            omega
          · rw [hi', List.length_cons]
            omega
        · simp only [hc, ne_eq, not_false_eq_true, hend, and_self, if_true, hi255, if_false,
            Prod.mk.injEq] at h
          omega
      · simp only [hc, ne_eq, not_false_eq_true, hend, and_false, if_false, Prod.mk.injEq] at h
        omega

/-- **What `tgt_mapenv` accepts is a well-formed area.** -/
theorem mapLoop_sound {fuel : ℕ} {reps : List Report} (h : mapLoop m fuel a = (reps, true))
    (ha : a < nvramSize) :
    ∃ es, m.Holds a (packed es) ∧ (∀ e ∈ es, IsEntry e) ∧ (∀ e ∈ es, e.length ≤ 254) ∧
      a + (packed es).length ≤ nvramSize := by
  induction fuel generalizing a reps with
  | zero => simp [mapLoop] at h
  | succ fuel ih =>
    rw [mapLoop] at h
    by_cases h0 : m a = 0
    · exact ⟨[], ⟨h0, trivial⟩, by simp, by simp, by rw [packed_nil]; exact ha⟩
    · rw [if_neg h0] at h
      rcases hent : mapEntryLoop m 257 a 0 [] none with ⟨ep', i', rep⟩
      simp only [hent] at h
      split at h
      case isFalse => simp at h
      case isTrue hok =>
        rcases hrest : mapLoop m fuel ep' with ⟨reps', ok⟩
        rw [hrest, Prod.mk.injEq] at h
        obtain ⟨e, hholds, hmem, hep', hi'⟩ := mapEntryLoop_sound hent hok.1 hok.2 (by omega)
        have hep : ep' < nvramSize := by
          have := hok.1
          simp only [nvramSize] at this ⊢
          omega
        obtain ⟨es, hes, hent, hlen, hfit⟩ := ih (hrest.trans (congrArg _ h.2)) hep
        have hne : e ≠ [] := by
          rintro rfl
          exact h0 hholds.1
        refine ⟨e :: es, ?_, ?_, ?_, ?_⟩
        · rw [packed_cons, show e ++ 0 :: packed es = (e ++ [0]) ++ packed es by simp,
            Mem.holds_append]
          exact ⟨hholds, by simpa [hep', Nat.add_assoc] using hes⟩
        · intro d hd
          rcases List.mem_cons.mp hd with rfl | hd
          · exact ⟨hne, hmem⟩
          · exact hent d hd
        · intro d hd
          rcases List.mem_cons.mp hd with rfl | hd
          · omega
          · exact hlen d hd
        · rw [packed_cons, List.length_append, List.length_cons]
          omega

/-! ## §3 Valid images -/

/-- The environment area of `m` holds the entries `es`, each short enough to be reported. -/
structure Area (m : Mem) (es : List CStr) : Prop where
  holds : m.Holds 2 (packed es)
  isEntry : ∀ e ∈ es, IsEntry e
  short : ∀ e ∈ es, e.length ≤ 254
  fits : 2 + (packed es).length ≤ nvramSize

/-- A valid image: the area holds `es` and the checksum verifies. -/
structure Image (m : Mem) (es : List CStr) : Prop extends Area m es where
  verifies : cksum m 0 nvramSize = 0

/-- The state between updates: nothing was found wrong, and the sector holds `es`. -/
structure Stores (nv : NvState) (es : List CStr) : Prop extends Image nv.flash es where
  valid : nv.invalid = 0

theorem Area.congr (h : Area m es) (hm : ∀ i, 2 ≤ i → i < nvramSize → m i = m' i) :
    Area m' es where
  holds := (Mem.holds_congr fun i h1 h2 => hm i h1 (by have := h.fits; omega)).mp h.holds
  isEntry := h.isEntry
  short := h.short
  fits := h.fits

theorem Image.congr (h : Image m es) (hm : ∀ i, i < nvramSize → m i = m' i) : Image m' es where
  toArea := h.toArea.congr fun i _ hi => hm i hi
  verifies := (cksum_congr fun i _ hi => (hm i (by omega)).symm).trans h.verifies

/-- Writing the checksum makes an area valid. -/
theorem Area.cksumSet (h : Area m es) : Image (cksumSet m 0 nvramSize) es where
  toArea := h.congr fun i hi _ => (cksumSet_of_ne (by omega) (by omega)).symm
  verifies := cksum_cksumSet (by decide)

/-- An area holds one list of entries. -/
theorem Area.unique {es' : List CStr} (h : Area m es) (h' : Area m es') : es = es' :=
  Mem.holds_packed_unique h.holds h'.holds h.isEntry h'.isEntry

/-- A sector that holds `es`. -/
def imageOf (es : List CStr) : Mem :=
  cksumSet (Mem.store (fun _ => 0xff) 2 (packed es)) 0 nvramSize

/-- Every list of entries that fits has an image. -/
theorem imageOf_image (hes : ∀ e ∈ es, IsEntry e) (hshort : ∀ e ∈ es, e.length ≤ 254)
    (hfit : 2 + (packed es).length ≤ nvramSize) : Image (imageOf es) es :=
  Area.cksumSet ⟨Mem.holds_store _ _ _, hes, hshort, hfit⟩

/-- `tgt_mapenv` reports the entries of a valid image. -/
theorem Image.mapArea_eq {dev : Board} {nv : NvState} (h : Image nv.flash es)
    (hdev : dev.devident = true) : mapArea dev nv = (es.map entryReport, nv.invalid) := by
  have hfuel : es.length < nvramSize + 1 := by
    have := length_le_strings es
    have := h.fits
    rw [length_packed] at this
    omega
  have hloop := mapLoop_eq h.holds h.isEntry h.short h.fits hfuel
  simp [mapArea, hdev, h.verifies, hloop]

theorem Image.tgtMapenv_eq {dev : Board} {nv : NvState} (h : Image nv.flash es)
    (hdev : dev.devident = true) :
    (tgtMapenv dev nv).1 = es.map entryReport ++ boardReports dev (tgtMapenv dev nv).2 := by
  rw [tgtMapenv, h.mapArea_eq hdev]

/-- **A sector that `tgt_mapenv` accepts is a valid image.** -/
theorem stores_of_mapArea {dev : Board} {nv : NvState} (h : (mapArea dev nv).2 = 0) :
    nv.invalid = 0 ∧ ∃ es, Image nv.flash es := by
  rw [mapArea] at h
  split at h
  case isTrue => simp at h
  case isFalse hck =>
    rcases hloop : mapLoop nv.flash (nvramSize + 1) 2 with ⟨reps, ok⟩
    rw [hloop] at h
    cases ok with
    | false => simp at h
    | true =>
      obtain ⟨es, hholds, hent, hlen, hfit⟩ := mapLoop_sound hloop (by decide)
      simp only [Bool.or_eq_true, bne_iff_ne, ne_eq, not_or, not_not] at hck
      exact ⟨h, es, ⟨hholds, hent, hlen, hfit⟩, hck.2⟩

end Pmon.Nvram
