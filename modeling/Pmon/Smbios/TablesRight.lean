import Mathlib.Algebra.Order.BigOperators.Group.List
import Pmon.Lib.WordMem
import Pmon.Smbios.Format
import Pmon.Smbios.TableStrings

/-!
# Which tables are well formed

The routines write one part after another, so the table is the parts' bytes, and the entry point
describes them.  A walk visits the parts as long as no string is empty.

Two strings may be: the release date, when `tran_month` does not know the month, and the version
of a processor that `smbios_type_4_init` does not know.  Then a reference points behind the strings.
A UUID text that is too long writes over two references, and without the variable `cpuclock` the
routines do not come to an end.

## Key results

- `writeStructs_spec`: the table as parts.
- `entryPoint_spec`: the numbers and both sums of the entry point.
- `tables_exact`: when the table is well formed.
-/

namespace Pmon.Smbios

open Pmon.Lib Pmon.Libc Pmon.Loaders

variable {m : Mem} {a n i start : ℕ} {bs : List UInt8} {inp : SmbiosInput}

/-! ## §1 What the table should be -/

/-- Where a structure has references to its strings. -/
def stringRefs (type : UInt8) : List ℕ :=
  if type = 0 then [4, 5, 8] else if type = 1 then [4, 5, 6, 7, 25, 26]
  else if type = 2 then [4, 5, 6, 7, 8, 10] else if type = 4 then [4, 7, 16, 32, 33, 34]
  else if type = 17 then [16, 17, 23, 24, 25, 26] else if type = 28 then [4] else []

/-- Every reference is at most the number of strings. -/
def RefsRight (s : DmiStruct) : Prop :=
  ∀ off ∈ stringRefs s.type, (s.body.getD off 0).toNat ≤ s.strings

/-- **The table is well formed**, by what its entry point says. -/
structure TableRight (m : Mem) (start : ℕ) : Prop where
  walk : ∃ init last, dmiWalk (m.half (start + 28))
      (m.slice (start + 31) (m.half (start + 22))) = some (init ++ [last], []) ∧
    last.type = 127 ∧ (∀ s ∈ init, s.type ≠ 127) ∧
    (∀ s ∈ init ++ [last], s.size ≤ m.half (start + 8)) ∧ ∀ s ∈ init ++ [last], RefsRight s
  checksum : byteSum (m.slice start 16) = 0
  intermediate : byteSum (m.slice (start + 16) 15) = 0

/-! ## §2 The entry point -/

theorem byteSum_cons (b : UInt8) (bs : List UInt8) : byteSum (b :: bs) = b + byteSum bs := by
  have hfold : ∀ c, bs.foldl (· + ·) c = c + byteSum bs := by
    induction bs with
    | nil => intro c; simp [byteSum]
    | cons d bs ih =>
      intro c
      rw [byteSum, List.foldl_cons, List.foldl_cons, ih, ih, UInt8.zero_add, UInt8.add_assoc]
  rw [byteSum, List.foldl_cons, hfold, UInt8.zero_add]

/-- One byte of a sum is another. -/
theorem byteSum_put (hi : i < n) (b : UInt8) :
    byteSum ((m.put (a + i) b).slice a n) + m (a + i) = byteSum (m.slice a n) + b := by
  induction n generalizing a i with
  | zero => exact absurd hi (Nat.not_lt_zero _)
  | succ n ih =>
    rw [Mem.slice, Mem.slice, byteSum_cons, byteSum_cons]
    cases i with
    | zero =>
      have hrest : (m.put (a + 0) b).slice (a + 1) n = m.slice (a + 1) n :=
        Mem.slice_congr fun j hj _ => Mem.put_of_ne (by omega)
      rw [hrest, Nat.add_zero, Mem.put_self]
      grind
    | succ i =>
      have hne : a ≠ a + (i + 1) := by omega
      have hrest := @ih (a + 1) i (by omega)
      rw [show a + 1 + i = a + (i + 1) by omega] at hrest
      rw [Mem.put_of_ne hne]
      grind

/-- **A checksum** makes its bytes sum to zero. -/
theorem byteSum_checksum (hi : i < n) (hzero : m (a + i) = 0) :
    byteSum ((m.put (a + i) (-byteSum (m.slice a n))).slice a n) = 0 := by
  have hput := byteSum_put (m := m) (a := a) hi (-byteSum (m.slice a n))
  rw [hzero] at hput
  grind

theorem half_word16 {x y : UInt8} (k : ℕ) (hx : x = UInt8.ofNat k)
    (hy : y = UInt8.ofNat (k / 256)) : x.toNat + 256 * y.toNat = k % 65536 := by
  subst hx hy
  rw [UInt8.toNat_ofNat', UInt8.toNat_ofNat']
  omega

/-- **The entry point**: its numbers, in 16 bits, and its sums. -/
structure EntryPoint (m m' : Mem) (start maxSize tableLength number : ℕ) : Prop where
  maxSize : m'.half (start + 8) = maxSize % 65536
  tableLength : m'.half (start + 22) = tableLength % 65536
  number : m'.half (start + 28) = number % 65536
  checksum : byteSum (m'.slice start 16) = 0
  intermediate : byteSum (m'.slice (start + 16) 15) = 0
  frame : ∀ b, start + 31 ≤ b → m' b = m b

/-- The bytes of the entry point before its checksums are stored. -/
def entryFields (maxSize tableLength tableAddress number : ℕ) : List UInt8 :=
  [95, 83, 77, 95, 0, 0x1f, 2, 6, UInt8.ofNat maxSize, UInt8.ofNat (maxSize / 256), 0, 0, 0, 0, 0,
    0, 95, 68, 77, 73, 95, 0, UInt8.ofNat tableLength, UInt8.ofNat (tableLength / 256),
    UInt8.ofNat tableAddress, UInt8.ofNat (tableAddress / 256), UInt8.ofNat (tableAddress / 65536),
    UInt8.ofNat (tableAddress / 65536 / 256), UInt8.ofNat number, UInt8.ofNat (number / 256), 0]

theorem entryFields_eq (maxSize tableLength tableAddress number : ℕ) :
    ascii "_SM_" ++ [0, 0x1f, 2, 6] ++ word16 maxSize ++ [0] ++ [0, 0, 0, 0, 0] ++ ascii "_DMI_" ++
      [0] ++ word16 tableLength ++ word16 tableAddress ++ word16 (tableAddress / 65536) ++
      word16 number ++ [0] = entryFields maxSize tableLength tableAddress number := by
  have hanchor : ascii "_SM_" = [95, 83, 77, 95] := by decide
  have hdmi : ascii "_DMI_" = [95, 68, 77, 73, 95] := by decide
  rw [hanchor, hdmi]
  rfl

theorem entryPoint_spec (m : Mem) (start maxSize tableLength tableAddress number : ℕ) :
    EntryPoint m (smbiosEntryPointInit m start maxSize tableLength tableAddress number) start
      maxSize tableLength number := by
  unfold smbiosEntryPointInit
  dsimp only
  rw [entryFields_eq]
  generalize hfields : entryFields maxSize tableLength tableAddress number = fields
  have hlen : fields.length = 31 := by
    rw [← hfields]
    rfl
  have hat : ∀ k (hk : k < fields.length), m.store start fields (start + k) = fields[k] :=
    fun k hk => Mem.store_of_mem hk
  generalize hm₁ : m.store start fields = m₁ at hat
  generalize hm₂ : m₁.put (start + 4) (-byteSum (m₁.slice start 16)) = m₂
  generalize hm₃ : m₂.put (start + 21) (-byteSum (m₂.slice (start + 16) 15)) = m₃
  -- what the checksums leave
  have hkeep : ∀ k, k ≠ 4 → k ≠ 21 → m₃ (start + k) = m₁ (start + k) := by
    intro k h4 h21
    rw [← hm₃, ← hm₂, Mem.put_of_ne (by omega), Mem.put_of_ne (by omega)]
  have hhalf : ∀ k j, k ≠ 4 → k ≠ 21 → k + 1 ≠ 4 → k + 1 ≠ 21 →
      (∃ hk : k + 1 < fields.length, fields[k] = UInt8.ofNat j ∧
        fields[k + 1] = UInt8.ofNat (j / 256)) → m₃.half (start + k) = j % 65536 := by
    rintro k j h₁ h₂ h₃ h₄ ⟨hk, hlow, hhigh⟩
    rw [Mem.half, hkeep k h₁ h₂, Nat.add_assoc, hkeep (k + 1) h₃ h₄, hat k (by omega), hat _ hk]
    exact half_word16 j hlow hhigh
  have hzero₁ : m₁ (start + 4) = 0 := by
    rw [hat 4 (by omega)]
    subst hfields
    rfl
  have hzero₂ : m₂ (start + 16 + 5) = 0 := by
    rw [← hm₂, Mem.put_of_ne (by omega), Nat.add_assoc, hat 21 (by omega)]
    subst hfields
    rfl
  refine ⟨?_, ?_, ?_, ?_, ?_, fun b hb => ?_⟩
  · apply hhalf 8 maxSize (by decide) (by decide) (by decide) (by decide)
    refine ⟨by omega, ?_, ?_⟩ <;> subst hfields <;> rfl
  · apply hhalf 22 tableLength (by decide) (by decide) (by decide) (by decide)
    refine ⟨by omega, ?_, ?_⟩ <;> subst hfields <;> rfl
  · apply hhalf 28 number (by decide) (by decide) (by decide) (by decide)
    refine ⟨by omega, ?_, ?_⟩ <;> subst hfields <;> rfl
  · -- the second checksum is not among the first 16 bytes
    have hsame : m₃.slice start 16 = m₂.slice start 16 := by
      rw [← hm₃]
      exact Mem.slice_congr fun j _ hj => Mem.put_of_ne (by omega)
    rw [hsame, ← hm₂]
    exact byteSum_checksum (by decide) hzero₁
  · have hplace : start + 21 = start + 16 + 5 := by omega
    rw [← hm₃, hplace]
    exact byteSum_checksum (by decide) hzero₂
  · rw [← hm₃, ← hm₂, Mem.put_of_ne (by omega), Mem.put_of_ne (by omega), ← hm₁,
      Mem.store_of_not_mem (by omega)]

/-! ## §3 One structure -/

/-- A routine has written a part at `start`. -/
structure Writes (m : Mem) (start : ℕ) (q : Cursor) (x : Part) : Prop where
  holds : q.1.Holds start x.bytes
  frame : ∀ b < start, q.1 b = m b
  stop : q.2 = start + x.bytes.length

theorem foldl_putString (strs : List CStr) (m : Mem) (a : ℕ) :
    strs.foldl putString (m, a) = (m.store a (strings strs), a + (strings strs).length) := by
  induction strs generalizing m a with
  | nil => rfl
  | cons s strs ih =>
    have hsplit : strings (s :: strs) = (s ++ [0]) ++ strings strs := by simp
    rw [List.foldl_cons, putString]
    dsimp only
    have hstore : m.store a ((s ++ [0]) ++ strings strs) =
        (m.store a (s ++ [0])).store (a + (s ++ [0]).length) (strings strs) := Mem.store_append
    rw [ih, hsplit, hstore]
    simp only [List.length_append, List.length_singleton, Nat.add_assoc]

theorem putStrings_eq (strs : List CStr) (m : Mem) (a : ℕ) :
    putStrings strs (m, a) = (m.store a (packed strs), a + (packed strs).length) := by
  unfold putStrings packed
  rw [foldl_putString, Mem.store_append, List.length_append]
  rfl

/-- A structure with strings, whose fields stand in the memory already. -/
theorem writes_strings {m' : Mem} {body : List UInt8} (strs : List CStr) (hne : strs ≠ [])
    (hbody : m'.Holds start body) (hframe : ∀ b < start, m' b = m b) :
    Writes m start (putStrings strs (m', start + body.length)) ⟨body, strs⟩ := by
  have hbytes : (⟨body, strs⟩ : Part).bytes = body ++ packed strs := by
    rw [Part.bytes, stringSet, if_neg hne]
  rw [putStrings_eq]
  refine ⟨?_, fun b hb => ?_, ?_⟩
  · rw [hbytes, Mem.holds_append]
    refine ⟨?_, Mem.holds_store _ _ _⟩
    exact (Mem.holds_store_of_disjoint (Or.inl (Nat.le_refl _))).mpr hbody
  · dsimp only
    rw [Mem.store_of_not_mem (by omega), hframe b hb]
  · rw [hbytes, List.length_append, Nat.add_assoc]

theorem putBody_holds (body : List UInt8) (m : Mem) (start : ℕ) :
    (putBody body m start).1.Holds start body ∧ ∀ b < start, (putBody body m start).1 b = m b :=
  ⟨Mem.holds_store m start body, fun _ hb => Mem.store_of_not_mem (Or.inl hb)⟩

/-- **A structure with strings.** -/
theorem writes_putStrings (body : List UInt8) (strs : List CStr) (hne : strs ≠ []) :
    Writes m start (putStrings strs (putBody body m start)) ⟨body, strs⟩ :=
  writes_strings strs hne (putBody_holds body m start).1 (putBody_holds body m start).2

/-- **A structure without strings.** -/
theorem writes_putNoStrings (body : List UInt8) :
    Writes m start (putNoStrings (putBody body m start)) ⟨body, []⟩ := by
  obtain ⟨hbody, hframe⟩ := putBody_holds body m start
  have hput : putNoStrings (putBody body m start) =
      ((putBody body m start).1.store (start + body.length) [0, 0], start + body.length + 2) := rfl
  have hbytes : (⟨body, []⟩ : Part).bytes = body ++ [0, 0] := rfl
  rw [hput]
  refine ⟨?_, fun b hb => ?_, ?_⟩
  · rw [hbytes, Mem.holds_append]
    refine ⟨?_, Mem.holds_store _ _ _⟩
    exact (Mem.holds_store_of_disjoint (Or.inl (Nat.le_refl _))).mpr hbody
  · dsimp only
    rw [Mem.store_of_not_mem (by omega), hframe b hb]
  · rw [hbytes, List.length_append, Nat.add_assoc]
    rfl

/-! ## §4 All structures -/

/-- The parts `xs` have been written from `base` on. -/
structure Written (w : TableWriter) (base : ℕ) (xs : List Part) : Prop where
  holds : w.m.Holds base (xs.flatMap Part.bytes)
  stop : w.p = base + (xs.flatMap Part.bytes).length
  number : w.nrStructs = xs.length
  sizes : ∀ x ∈ xs, x.bytes.length ≤ w.maxStructSize
  /-- The largest size is one of theirs. -/
  largest : w.maxStructSize ≤ (xs.flatMap Part.bytes).length

theorem written_nil (m : Mem) (base : ℕ) : Written ⟨m, base, 0, 0⟩ base [] :=
  ⟨trivial, rfl, rfl, fun _ hx => absurd hx List.not_mem_nil, Nat.le_refl 0⟩

/-- **`do_struct`** adds a part. -/
theorem Written.doStruct {w : TableWriter} {base : ℕ} {xs : List Part} (h : Written w base xs)
    {q : Cursor} {x : Part} (hq : Writes w.m w.p q x) :
    Written (w.doStruct q) base (xs ++ [x]) := by
  have hbytes : (xs ++ [x]).flatMap Part.bytes = xs.flatMap Part.bytes ++ x.bytes := by simp
  have hsize : q.2 - w.p = x.bytes.length := by
    rw [hq.stop]
    omega
  have hmax : (w.doStruct q).maxStructSize = max w.maxStructSize x.bytes.length := by
    unfold TableWriter.doStruct
    dsimp only
    rw [hsize]
    split <;> omega
  refine ⟨?_, ?_, ?_, ?_, ?_⟩
  · rw [hbytes, Mem.holds_append]
    refine ⟨?_, ?_⟩
    · have hstop := h.stop
      exact (Mem.holds_congr fun i _ hi => hq.frame i (by omega)).mpr h.holds
    · rw [← h.stop]
      exact hq.holds
  · rw [hbytes, List.length_append, ← Nat.add_assoc, ← h.stop]
    exact hq.stop
  · rw [List.length_append, List.length_singleton, ← h.number]
    rfl
  · intro y hy
    rw [hmax]
    rcases List.mem_append.mp hy with hy | hy
    · exact Nat.le_trans (h.sizes y hy) (Nat.le_max_left ..)
    · rw [List.mem_singleton.mp hy]
      exact Nat.le_max_right ..
  · have hlargest := h.largest
    rw [hmax, hbytes, List.length_append]
    omega

/-! ## §5 The parts -/

def biosPart (inp : SmbiosInput) (handle : ℕ) : Part where
  body := header 0 24 handle ++ [1, 2] ++ word16 0xe000 ++
    [3, UInt8.ofNat (((inp.flashsize.sshiftRight 16) - 1#32).toNat)] ++
    [0, 0x18, 5, 0, 0, 0, 0, 0] ++ [0x80, 2] ++ [3, 0, 0xff, 0xff]
  strs := [ascii "Loongson", pmonVersion (getUpdate inp.date inp.update),
    releaseDate (getUpdate inp.date inp.update)]

/-- The strings of the system; its fields are those of the memory. -/
def systemStrs (inp : SmbiosInput) : List CStr :=
  [ascii "Loongson", inp.board.name, praseName inp.board.name, ascii "Loongson2K"]

def boardPart (inp : SmbiosInput) (handle : ℕ) : Part where
  body := header 2 17 handle ++ [1, 2, 3, 0, 0, 9, 0] ++ word16 0 ++ [0x0a, 0] ++ word16 0
  strs := [ascii "Loongson", inp.board.name, praseName inp.board.name]

def processorPart (inp : SmbiosInput) (cpuclock : CStr) (handle : ℕ) : Part where
  body := header 4 42 handle ++ [0, 3, 1, 1] ++ cpuidBytes inp.prid ++ [2, 2] ++ word16 25 ++
    word16 (cpuVersionOf inp).2 ++
    word16 ((Netio.atoi cpuclock).toInt.tdiv 1000000 % 65536).toNat ++ [2, 1] ++ word16 0xffff ++
    word16 0xffff ++ word16 0xffff ++ [0, 0, 0] ++ [2, 2, 0] ++ word16 2 ++ word16 1
  strs := [ascii "Loongson", (cpuVersionOf inp).1]

def arrayPart (dimmnum maximumCapacity handle : ℕ) : Part where
  body := header 16 15 handle ++ [3, 3, 2] ++ word16 maximumCapacity ++
    word16 (maximumCapacity / 65536) ++ word16 0xfffe ++ word16 dimmnum
  strs := []

def modulePart (inp : SmbiosInput) (arrayHandle slotnum handle : ℕ) : Part where
  body :=
    let spd := inp.spd slotnum
    let ddrtype := spd 2
    let dataWidth := if ddrtype = 11 then (1 <<< (spd 8 &&& 7).toNat) * 8 else 64
    let totalWidth :=
      if ddrtype = 11 then ((spd 8 &&& 0x18) >>> 3).toNat * 8 + dataWidth else 64
    let memoryType := if ddrtype = 8 then 0x13 else if ddrtype = 11 then 0x18 else 0
    let refs := if knownDdr ddrtype then [3, 4, 0, 5] else [0, 0, 0, 0]
    header 17 28 handle ++ word16 arrayHandle ++ word16 0xfffe ++ word16 totalWidth ++
      word16 dataWidth ++ word16 (getDdrSize spd inp.density ddrtype) ++
      [9, 0, 1, 2, memoryType] ++ word16 0 ++ word16 (getDdrSpeed spd ddrtype) ++ refs ++ [0]
  strs := moduleStrs inp slotnum

def probePart (handle : ℕ) : Part where
  body := header 28 22 handle ++ [1, 0x63] ++ word16 1280 ++ word16 0x8000 ++ word16 0x8000 ++
    word16 0x8000 ++ word16 0x8000 ++ [0, 0, 0, 0] ++ word16 0
  strs := [ascii "CPU Temperature"]

def endPart (handle : ℕ) : Part where
  body := header 127 4 handle
  strs := []

theorem bios_writes (inp : SmbiosInput) (handle : ℕ) :
    Writes m start (smbiosType0Init inp handle m start) (biosPart inp handle) :=
  writes_putStrings _ _ (List.cons_ne_nil _ _)

theorem board_writes (inp : SmbiosInput) (handle : ℕ) :
    Writes m start (smbiosType2Init inp handle m start) (boardPart inp handle) :=
  writes_putStrings _ _ (List.cons_ne_nil _ _)

theorem array_writes (dimmnum maximumCapacity handle : ℕ) :
    Writes m start (smbiosType16Init dimmnum maximumCapacity handle m start)
      (arrayPart dimmnum maximumCapacity handle) :=
  writes_putNoStrings _

theorem module_writes (inp : SmbiosInput) (arrayHandle slotnum handle : ℕ) :
    Writes m start (smbiosType17Init inp arrayHandle slotnum handle m start)
      (modulePart inp arrayHandle slotnum handle) :=
  writes_putStrings _ _ (List.cons_ne_nil _ _)

theorem probe_writes (handle : ℕ) :
    Writes m start (smbiosType28Init handle m start) (probePart handle) :=
  writes_putStrings _ _ (List.cons_ne_nil _ _)

theorem end_writes (handle : ℕ) :
    Writes m start (smbiosType127Init handle m start) (endPart handle) :=
  writes_putNoStrings _

theorem processor_writes {cpuclock : CStr} (h : inp.cpuclock = some cpuclock) (handle : ℕ)
    (m : Mem) (start : ℕ) :
    ∃ q, smbiosType4Init inp handle m start = some q ∧
      Writes m start q (processorPart inp cpuclock handle) := by
  refine ⟨_, ?_, writes_putStrings _ _ (List.cons_ne_nil _ _)⟩
  unfold smbiosType4Init
  rw [h]
  rfl

/-! ## §6 The system -/

/-- What the variable `uuid` puts into `sku_number_str` and `family_str`, which are behind the
    field `uuid`, is a reference to one of the four strings. -/
def SpillOk (inp : SmbiosInput) : Prop :=
  ∀ q, inp.uuid = some q → ∀ x ∈ parseMoves q 0, x.i = 17 ∨ x.i = 18 →
    (x.byte inp.stack).toNat ≤ 4

/-- The fields of the system that a walk and its references depend on. -/
structure SystemBody (inp : SmbiosInput) (body : List UInt8) : Prop where
  length : body.length = 27
  size : body.getD 1 0 = 27
  type : body.getD 0 0 = 1
  refs : ∀ i, 4 ≤ i → i < 8 → (body.getD i 0).toNat ≤ 4
  spill : (body.getD 25 0).toNat ≤ 4 ∧ (body.getD 26 0).toNat ≤ 4 ↔ SpillOk inp

/-- The fields of the system before its UUID. -/
def systemFields (handle : ℕ) : List UInt8 :=
  header 1 27 handle ++ [1, 2, 3, 0] ++ List.replicate 16 0 ++ [6, 0, 4]

/-- The memory with the UUID of the system. -/
def withUuid (inp : SmbiosInput) (m : Mem) (start : ℕ) : Mem :=
  match inp.uuid with
  | none => m.store (start + 8) (List.ofFn inp.generated)
  | some q => parseUuid inp.stack (start + 8) m q

/-- The UUID is behind the first eight bytes. -/
theorem withUuid_frame (inp : SmbiosInput) (m : Mem) {b : ℕ} (hb : b < start + 8) :
    withUuid inp m start b = m b := by
  unfold withUuid
  cases inp.uuid with
  | none => exact Mem.store_of_not_mem (Or.inl hb)
  | some q =>
    apply applyMoves_frame
    intro x _
    omega

/-- One of the two fields behind the UUID. -/
theorem withUuid_behind (inp : SmbiosInput) (m : Mem) (start : ℕ) {k : ℕ} (hk : 16 ≤ k)
    (hm : (m (start + 8 + k)).toNat ≤ 4) :
    (withUuid inp m start (start + 8 + k)).toNat ≤ 4 ↔
      ∀ q, inp.uuid = some q → ∀ x ∈ parseMoves q 0, x.i = k → (x.byte inp.stack).toNat ≤ 4 := by
  unfold withUuid
  cases inp.uuid with
  | none =>
    have hlen : (List.ofFn inp.generated).length = 16 := List.length_ofFn
    dsimp only
    rw [Mem.store_of_not_mem (Or.inr (by omega))]
    exact iff_of_true hm fun q hq => nomatch hq
  | some q =>
    dsimp only
    unfold parseUuid
    have hplaces : ((parseMoves q 0).map UuidMove.i).Nodup := by
      rw [parseMoves_places]
      exact List.nodup_range'
    constructor
    · intro h q' hq x hx hi
      obtain rfl := Option.some.inj hq
      rw [← hi, applyMoves_at hplaces hx] at h
      exact h
    · intro h
      by_cases hwritten : ∃ x ∈ parseMoves q 0, x.i = k
      · obtain ⟨x, hx, hi⟩ := hwritten
        rw [← hi, applyMoves_at hplaces hx]
        exact h q rfl x hx hi
      · rw [applyMoves_frame fun x hx hsame =>
          hwritten ⟨x, hx, Nat.add_left_cancel hsame⟩]
        exact hm

theorem system_writes (inp : SmbiosInput) (handle : ℕ) (m : Mem) (start : ℕ) :
    ∃ body, SystemBody inp body ∧
      Writes m start (smbiosType1Init inp handle m start) ⟨body, systemStrs inp⟩ := by
  obtain ⟨hfields, hframe⟩ := putBody_holds (systemFields handle) m start
  generalize hm₁ : (putBody (systemFields handle) m start).1 = m₁ at hfields hframe
  have hlen : (systemFields handle).length = 27 := rfl
  have hat : ∀ k (hk : k < 27), m₁ (start + k) = (systemFields handle).getD k 0 := by
    intro k hk
    rw [hfields.getElem (hlen ▸ hk), List.getD_eq_getElem?_getD,
      List.getElem?_eq_getElem (hlen ▸ hk), Option.getD_some]
  have hrun : smbiosType1Init inp handle m start =
      putStrings (systemStrs inp) (withUuid inp m₁ start, start + 27) := by
    rw [← hm₁]
    rfl
  generalize hm₂ : withUuid inp m₁ start = m₂ at hrun
  have hget : ∀ k < 27, (m₂.slice start 27).getD k 0 = m₂ (start + k) := by
    intro k hk
    have hk' : k < (m₂.slice start 27).length := by rwa [Mem.length_slice]
    rw [List.getD_eq_getElem?_getD, List.getElem?_eq_getElem hk', Option.getD_some,
      ← (Mem.holds_slice m₂ start 27).getElem hk']
  -- the bytes before the UUID
  have hfirst : ∀ k < 8, (m₂.slice start 27).getD k 0 = (systemFields handle).getD k 0 := by
    intro k hk
    rw [hget k (by omega), ← hm₂, withUuid_frame inp m₁ (by omega), hat k (by omega)]
  refine ⟨m₂.slice start 27, ⟨Mem.length_slice, ?_, ?_, fun k hk hk' => ?_, ?_⟩, ?_⟩
  · rw [hfirst 1 (by decide)]
    rfl
  · rw [hfirst 0 (by decide)]
    rfl
  · rw [hfirst k hk']
    interval_cases k
    · exact (by decide : (1 : UInt8).toNat ≤ 4)
    · exact (by decide : (2 : UInt8).toNat ≤ 4)
    · exact (by decide : (3 : UInt8).toNat ≤ 4)
    · exact (by decide : (0 : UInt8).toNat ≤ 4)
  · have hsku := withUuid_behind inp m₁ start (k := 17) (by decide) (by
      rw [Nat.add_assoc, hat 25 (by decide)]
      exact Nat.zero_le 4)
    have hfamily := withUuid_behind inp m₁ start (k := 18) (by decide) (by
      rw [Nat.add_assoc, hat 26 (by decide)]
      exact Nat.le_refl 4)
    rw [hm₂] at hsku hfamily
    rw [hget 25 (by decide), hget 26 (by decide), hsku, hfamily]
    constructor
    · rintro ⟨h17, h18⟩ q hq x hx (hi | hi)
      · exact h17 q hq x hx hi
      · exact h18 q hq x hx hi
    · intro h
      exact ⟨fun q hq x hx hi => h q hq x hx (Or.inl hi),
        fun q hq x hx hi => h q hq x hx (Or.inr hi)⟩
  · rw [hrun]
    have hframe' : ∀ b < start, m₂ b = m b := by
      intro b hb
      rw [← hm₂, withUuid_frame inp m₁ (by omega), hframe b hb]
    have hwrites := writes_strings (systemStrs inp) (List.cons_ne_nil _ _)
      (Mem.holds_slice m₂ start 27) hframe'
    rwa [Mem.length_slice] at hwrites

/-! ## §7 Good parts -/

/-- A part that a walk finds, whose references are right. -/
structure PartRight (x : Part) : Prop where
  good : x.Good
  refs : RefsRight x.found

theorem system_good {body : List UInt8} (h : SystemBody inp body) :
    (⟨body, systemStrs inp⟩ : Part).Good := by
  obtain ⟨hname, hversion⟩ := board_entries inp.board
  refine ⟨?_, ?_, ?_⟩
  · rw [h.length, h.size]
    rfl
  · rw [h.length]
    decide
  · unfold systemStrs
    simp only [List.forall_mem_cons]
    exact ⟨loongson_entry, hname, hversion, ⟨by decide, by decide⟩, List.forall_mem_nil _⟩

/-- **The references of the system** are right as long as the UUID leaves them so. -/
theorem system_refs {body : List UInt8} (h : SystemBody inp body) :
    RefsRight (⟨body, systemStrs inp⟩ : Part).found ↔ SpillOk inp := by
  have htype : (⟨body, systemStrs inp⟩ : Part).found.type = 1 := h.type
  have hstrings : (⟨body, systemStrs inp⟩ : Part).found.strings = 4 := rfl
  have hrefs : stringRefs 1 = [4, 5, 6, 7, 25, 26] := rfl
  unfold RefsRight
  rw [htype, hstrings, hrefs, ← h.spill]
  simp only [List.forall_mem_cons]
  constructor
  · rintro ⟨-, -, -, -, h25, h26, -⟩
    exact ⟨h25, h26⟩
  · rintro ⟨h25, h26⟩
    exact ⟨h.refs 4 (by decide) (by decide), h.refs 5 (by decide) (by decide),
      h.refs 6 (by decide) (by decide), h.refs 7 (by decide) (by decide), h25, h26,
      List.forall_mem_nil _⟩

theorem bios_right (handle : ℕ) (h : releaseDate (getUpdate inp.date inp.update) ≠ []) :
    PartRight (biosPart inp handle) := by
  refine ⟨⟨rfl, ?_, ?_⟩, ?_⟩
  · exact (by decide : 4 ≤ 24)
  · unfold biosPart
    simp only [List.forall_mem_cons]
    exact ⟨loongson_entry, pmonVersion_entry _, ⟨h, stringOf_not_mem _⟩, List.forall_mem_nil _⟩
  · have hrefs : ∀ off ∈ [4, 5, 8], ((biosPart inp handle).body.getD off 0).toNat ≤ 3 := by
      simp only [List.forall_mem_cons]
      exact ⟨(by decide : 1 ≤ 3), (by decide : 2 ≤ 3), (by decide : 3 ≤ 3), List.forall_mem_nil _⟩
    exact hrefs

theorem board_right (handle : ℕ) : PartRight (boardPart inp handle) := by
  obtain ⟨hname, hversion⟩ := board_entries inp.board
  refine ⟨⟨rfl, ?_, ?_⟩, ?_⟩
  · exact (by decide : 4 ≤ 17)
  · unfold boardPart
    simp only [List.forall_mem_cons]
    exact ⟨loongson_entry, hname, hversion, List.forall_mem_nil _⟩
  · have hrefs : ∀ off ∈ [4, 5, 6, 7, 8, 10],
        ((boardPart inp handle).body.getD off 0).toNat ≤ 3 := by
      simp only [List.forall_mem_cons]
      exact ⟨(by decide : 1 ≤ 3), (by decide : 2 ≤ 3), (by decide : 3 ≤ 3), (by decide : 0 ≤ 3),
        (by decide : 0 ≤ 3), (by decide : 0 ≤ 3), List.forall_mem_nil _⟩
    exact hrefs

theorem processor_body (inp : SmbiosInput) (cpuclock : CStr) (handle : ℕ) :
    (processorPart inp cpuclock handle).body.length = 42 ∧
      (processorPart inp cpuclock handle).body.getD 1 0 = 42 ∧
      (processorPart inp cpuclock handle).body.getD 0 0 = 4 ∧
      (processorPart inp cpuclock handle).body.getD 16 0 = 2 := by
  refine ⟨?_, ?_, ?_, ?_⟩ <;> simp [processorPart, header, word16, cpuidBytes]

theorem processor_right (cpuclock : CStr) (handle : ℕ) (h : (cpuVersionOf inp).1 ≠ []) :
    PartRight (processorPart inp cpuclock handle) := by
  obtain ⟨hlen, hsize, htype, -⟩ := processor_body inp cpuclock handle
  refine ⟨⟨?_, ?_, ?_⟩, ?_⟩
  · rw [hlen, hsize]
    rfl
  · rw [hlen]
    decide
  · unfold processorPart
    simp only [List.forall_mem_cons]
    exact ⟨loongson_entry, ⟨h, cpuVersion_not_mem inp⟩, List.forall_mem_nil _⟩
  · have hrefs : stringRefs 4 = [4, 7, 16, 32, 33, 34] := rfl
    unfold RefsRight Part.found
    dsimp only
    rw [htype, hrefs]
    simp [processorPart, header, word16, cpuidBytes]

theorem array_right (dimmnum maximumCapacity handle : ℕ) :
    PartRight (arrayPart dimmnum maximumCapacity handle) :=
  ⟨⟨rfl, (by decide : 4 ≤ 15), fun _ he => absurd he List.not_mem_nil⟩,
    fun _ hoff => absurd hoff List.not_mem_nil⟩

theorem module_right (arrayHandle : ℕ) {slotnum : ℕ} (handle : ℕ) (h : slotnum < 8) :
    PartRight (modulePart inp arrayHandle slotnum handle) := by
  refine ⟨⟨?_, ?_, moduleStrs_entries inp h⟩, ?_⟩
  · unfold modulePart
    dsimp only
    cases knownDdr (inp.spd slotnum 2) <;> rfl
  · unfold modulePart
    dsimp only
    cases knownDdr (inp.spd slotnum 2) <;> exact (by decide : 4 ≤ 28)
  · unfold RefsRight Part.found modulePart moduleStrs
    dsimp only
    cases knownDdr (inp.spd slotnum 2) with
    | false =>
      have hrefs : stringRefs 17 = [16, 17, 23, 24, 25, 26] := rfl
      simp [header, word16, hrefs]
    | true =>
      have hrefs : stringRefs 17 = [16, 17, 23, 24, 25, 26] := rfl
      simp [header, word16, hrefs]

theorem probe_right (handle : ℕ) : PartRight (probePart handle) := by
  refine ⟨⟨rfl, ?_, ?_⟩, ?_⟩
  · exact (by decide : 4 ≤ 22)
  · unfold probePart
    rw [List.forall_mem_singleton]
    exact ⟨by decide, by decide⟩
  · have hrefs : ∀ off ∈ [4], ((probePart handle).body.getD off 0).toNat ≤ 1 := by
      rw [List.forall_mem_singleton]
      exact (by decide : 1 ≤ 1)
    exact hrefs

theorem end_right (handle : ℕ) : PartRight (endPart handle) :=
  ⟨⟨rfl, Nat.le_refl 4, fun _ he => absurd he List.not_mem_nil⟩,
    fun _ hoff => absurd hoff List.not_mem_nil⟩

/-! ## §8 The table as parts -/

/-- What is before the end of the table. -/
def tableInit (inp : SmbiosInput) (body : List UInt8) (cpuclock : CStr)
    (dimmnum maximumCapacity : ℕ) : List Part :=
  [biosPart inp 0, ⟨body, systemStrs inp⟩, boardPart inp 2, processorPart inp cpuclock 3,
    arrayPart dimmnum maximumCapacity 4] ++
    (List.range dimmnum).map (fun i => modulePart inp 4 i (5 + i)) ++ [probePart (5 + dimmnum)]

theorem length_tableParts (inp : SmbiosInput) (body : List UInt8) (cpuclock : CStr)
    (dimmnum maximumCapacity : ℕ) :
    (tableInit inp body cpuclock dimmnum maximumCapacity ++ [endPart (6 + dimmnum)]).length =
      7 + dimmnum := by
  simp [tableInit]
  omega

/-- The loop over the memory modules. -/
theorem Written.modules {w : TableWriter} {base : ℕ} {xs : List Part} (h : Written w base xs)
    (inp : SmbiosInput) (arrayHandle dimmnum : ℕ) :
    Written ((List.range dimmnum).foldl (fun w i =>
        w.doStruct (smbiosType17Init inp arrayHandle i w.nrStructs w.m w.p)) w) base
      (xs ++ (List.range dimmnum).map fun i => modulePart inp arrayHandle i (xs.length + i)) := by
  induction dimmnum with
  | zero => simpa using h
  | succ n ih =>
    rw [List.range_succ, List.foldl_append, List.map_append, ← List.append_assoc]
    generalize (List.range n).foldl _ w = w' at ih ⊢
    have hnumber := ih.number
    rw [List.length_append, List.length_map, List.length_range] at hnumber
    have hdo := ih.doStruct (module_writes inp arrayHandle n w'.nrStructs)
    rw [hnumber] at hdo
    simpa [hnumber] using hdo

/-- **The table as parts.** -/
theorem writeStructs_spec {cpuclock : CStr} (hclock : inp.cpuclock = some cpuclock)
    (dimmnum maximumCapacity : ℕ) (m : Mem) (p : ℕ) :
    ∃ w body, writeStructs inp dimmnum maximumCapacity m p = some w ∧ SystemBody inp body ∧
      Written w p (tableInit inp body cpuclock dimmnum maximumCapacity ++ [endPart (6 + dimmnum)])
      := by
  have h₀ := (written_nil m p).doStruct (bios_writes inp 0)
  generalize hw₀ : (⟨m, p, 0, 0⟩ : TableWriter).doStruct (smbiosType0Init inp 0 m p) = w₀ at h₀
  obtain ⟨body, hbody, hsystem⟩ := system_writes inp w₀.nrStructs w₀.m w₀.p
  have h₁ := h₀.doStruct hsystem
  generalize hw₁ : w₀.doStruct (smbiosType1Init inp w₀.nrStructs w₀.m w₀.p) = w₁ at h₁
  have h₂ := h₁.doStruct (board_writes inp w₁.nrStructs)
  generalize hw₂ : w₁.doStruct (smbiosType2Init inp w₁.nrStructs w₁.m w₁.p) = w₂ at h₂
  obtain ⟨q, hq, hprocessor⟩ := processor_writes hclock w₂.nrStructs w₂.m w₂.p
  have h₃ := h₂.doStruct hprocessor
  generalize hw₃ : w₂.doStruct q = w₃ at h₃
  have h₄ := h₃.doStruct (array_writes dimmnum maximumCapacity w₃.nrStructs)
  generalize hw₄ : w₃.doStruct
    (smbiosType16Init dimmnum maximumCapacity w₃.nrStructs w₃.m w₃.p) = w₄ at h₄
  have h₅ := h₄.modules inp w₃.nrStructs dimmnum
  generalize hw₅ : (List.range dimmnum).foldl (fun w i =>
    w.doStruct (smbiosType17Init inp w₃.nrStructs i w.nrStructs w.m w.p)) w₄ = w₅ at h₅
  have h₆ := h₅.doStruct (probe_writes w₅.nrStructs)
  generalize hw₆ : w₅.doStruct (smbiosType28Init w₅.nrStructs w₅.m w₅.p) = w₆ at h₆
  have h₇ := h₆.doStruct (end_writes w₆.nrStructs)
  generalize hw₇ : w₆.doStruct (smbiosType127Init w₆.nrStructs w₆.m w₆.p) = w₇ at h₇
  refine ⟨w₇, body, ?_, hbody, ?_⟩
  · unfold writeStructs
    dsimp only
    rw [hw₀, hw₁, hw₂, hq, Option.map_some, hw₃, hw₄, hw₅, hw₆, hw₇]
  · -- every handle is the number of the structures before it
    have hnumber₁ : w₁.nrStructs = 2 := h₁.number
    have hnumber₂ : w₂.nrStructs = 3 := h₂.number
    have hnumber₃ : w₃.nrStructs = 4 := h₃.number
    have hnumber₅ : w₅.nrStructs = 5 + dimmnum := by
      rw [h₅.number]
      simp
      omega
    have hnumber₆ : w₆.nrStructs = 6 + dimmnum := by
      rw [h₆.number]
      simp
      omega
    rw [hnumber₁, hnumber₂, hnumber₃, hnumber₅, hnumber₆] at h₇
    simpa [tableInit, Nat.add_comm] using h₇

/-! ## §9 Walking the table -/

variable {w : TableWriter} {xs init : List Part} {last x : Part} {m' : Mem}
  {tail rest : List UInt8} {ss : List DmiStruct}

/-- The numbers of the entry point, for what has been written. -/
def EntryOf (w : TableWriter) (m' : Mem) (start : ℕ) : Prop :=
  EntryPoint w.m m' start w.maxStructSize (w.p - start - 31) w.nrStructs

/-- A part that is walked and is right leaves the walk to the parts behind it. -/
theorem walk_part (hx : x.Good) (h : dmiWalk (n + 1) (x.bytes ++ rest) = some (ss, tail))
    (hrefs : ∀ s ∈ ss, RefsRight s) :
    RefsRight x.found ∧ ∃ ss', dmiWalk n rest = some (ss', tail) ∧ ∀ s ∈ ss', RefsRight s := by
  obtain ⟨s, rest', ss', hnext, hwalk, rfl⟩ := dmiWalk_head h
  rw [dmiNext_part hx] at hnext
  obtain ⟨rfl, rfl⟩ := Prod.mk.inj (Option.some.inj hnext)
  obtain ⟨hs, hss⟩ := List.forall_mem_cons.mp hrefs
  exact ⟨hs, ss', hwalk, hss⟩

/-- **Right parts** make a table that is right, as long as its length has 16 bits. -/
theorem tableRight_of_parts (hw : Written w (start + 31) (init ++ [last]))
    (hright : ∀ x ∈ init ++ [last], PartRight x) (hinit : ∀ x ∈ init, x.found.type ≠ 127)
    (hlast : last.found.type = 127) (hnumber : (init ++ [last]).length < 65536)
    (hsize : ((init ++ [last]).flatMap Part.bytes).length < 65536) (h : EntryOf w m' start) :
    TableRight m' start := by
  generalize hbytes : (init ++ [last]).flatMap Part.bytes = bytes at hsize
  have hlength : m'.half (start + 22) = bytes.length := by
    rw [h.tableLength, hw.stop, hbytes]
    omega
  have hslice : m'.slice (start + 31) bytes.length = bytes := by
    have hholds := hw.holds
    rw [hbytes] at hholds
    calc m'.slice (start + 31) bytes.length = w.m.slice (start + 31) bytes.length :=
          Mem.slice_congr fun b hb _ => h.frame b hb
      _ = bytes := hholds.slice_eq
  have hcount : m'.half (start + 28) = (init ++ [last]).length := by
    rw [h.number, hw.number]
    exact Nat.mod_eq_of_lt hnumber
  have hmax : m'.half (start + 8) = w.maxStructSize := by
    rw [h.maxSize]
    exact Nat.mod_eq_of_lt (Nat.lt_of_le_of_lt (hbytes ▸ hw.largest) hsize)
  have hwalk := dmiWalk_parts (fun x hx => (hright x hx).good) []
  rw [List.append_nil, hbytes] at hwalk
  have hfound : (init ++ [last]).map Part.found = init.map Part.found ++ [last.found] := by simp
  refine ⟨⟨init.map Part.found, last.found, ?_, hlast, ?_, ?_, ?_⟩, h.checksum, h.intermediate⟩
  · rw [hcount, hlength, hslice, hwalk, hfound]
  · rw [List.forall_mem_map]
    exact hinit
  · rw [← hfound, List.forall_mem_map, hmax]
    exact hw.sizes
  · rw [← hfound, List.forall_mem_map]
    exact fun x hx => (hright x hx).refs

/-- **A table that is right** can be walked, though its length may be cut to 16 bits. -/
theorem walk_of_tableRight (hw : Written w (start + 31) xs) (hnumber : xs.length < 65536)
    (h : EntryOf w m' start) (hright : TableRight m' start) :
    ∃ ss tail, dmiWalk xs.length (xs.flatMap Part.bytes) = some (ss, tail) ∧
      (∀ s ∈ ss, RefsRight s) ∧ (tail = [] → (xs.flatMap Part.bytes).length < 65536) := by
  obtain ⟨init, last, hwalk, -, -, -, hrefs⟩ := hright.walk
  generalize hbytes : xs.flatMap Part.bytes = bytes
  have hlength : m'.half (start + 22) = bytes.length % 65536 := by
    rw [h.tableLength, hw.stop, hbytes]
    congr 1
    omega
  have hcount : m'.half (start + 28) = xs.length := by
    rw [h.number, hw.number]
    exact Nat.mod_eq_of_lt hnumber
  have hslice : m'.slice (start + 31) (bytes.length % 65536) =
      bytes.take (bytes.length % 65536) := by
    have hholds := hw.holds
    rw [hbytes] at hholds
    have hle : 0 + bytes.length % 65536 ≤ bytes.length := by
      rw [Nat.zero_add]
      exact Nat.mod_le _ _
    have hdrop := hholds.slice_drop hle
    rw [List.drop_zero, Nat.add_zero] at hdrop
    rw [← hdrop]
    exact Mem.slice_congr fun b hb _ => h.frame b hb
  rw [hcount, hlength, hslice] at hwalk
  have hmore := dmiWalk_append hwalk (bytes.drop (bytes.length % 65536))
  rw [List.take_append_drop, List.nil_append] at hmore
  refine ⟨_, _, hmore, hrefs, fun htail => ?_⟩
  have hle := List.drop_eq_nil_iff.mp htail
  omega

/-! ## §10 When the table is right -/

/-- The length of the table: each structure's fields and its strings. -/
def tableSize (inp : SmbiosInput) (dimmnum : ℕ) : ℕ :=
  let update := getUpdate inp.date inp.update
  24 + (packed [ascii "Loongson", pmonVersion update, releaseDate update]).length +
  (27 + (packed (systemStrs inp)).length) +
  (17 + (packed [ascii "Loongson", inp.board.name, praseName inp.board.name]).length) +
  (42 + (packed [ascii "Loongson", (cpuVersionOf inp).1]).length) + 17 +
  ((List.range dimmnum).map fun i => 28 + (packed (moduleStrs inp i)).length).sum + 39 + 6

/-- **What the routines need**: a clock, a month, a UUID text and a processor that they know, or
    else that nothing but luck is in what they read instead. -/
structure Tabulable (inp : SmbiosInput) (slots : DimmSlots) : Prop where
  clock : inp.cpuclock.isSome
  month : (tranMonth fun k => inp.date (6 + k)).isSome ∨ inp.update 5 ≠ 0
  uuid : SpillOk inp
  processor : KnownPrid inp.prid ∨ inp.cpuVersion ≠ []
  size : tableSize inp slots.dimmnum < 65536

theorem length_bytes {body : List UInt8} {strs : List CStr} (hne : strs ≠ []) :
    (⟨body, strs⟩ : Part).bytes.length = body.length + (packed strs).length := by
  rw [Part.bytes, stringSet, if_neg hne, List.length_append]

theorem length_table {body : List UInt8} (hbody : SystemBody inp body) (cpuclock : CStr)
    (dimmnum maximumCapacity : ℕ) :
    ((tableInit inp body cpuclock dimmnum maximumCapacity ++
      [endPart (6 + dimmnum)]).flatMap Part.bytes).length = tableSize inp dimmnum := by
  have hprocessor : (processorPart inp cpuclock 3).bytes.length =
      42 + (packed [ascii "Loongson", (cpuVersionOf inp).1]).length := by
    rw [processorPart, length_bytes (List.cons_ne_nil _ _)]
    simp [header, word16, cpuidBytes]
  have hmodule : ∀ i, (modulePart inp 4 i (5 + i)).bytes.length =
      28 + (packed (moduleStrs inp i)).length := by
    intro i
    have hne : moduleStrs inp i ≠ [] := List.cons_ne_nil _ _
    rw [modulePart, length_bytes hne]
    cases hddr : knownDdr (inp.spd i 2) <;> simp [header, word16, hddr]
  have hbios : (biosPart inp 0).bytes.length = 24 + (packed (biosPart inp 0).strs).length :=
    length_bytes (List.cons_ne_nil _ _)
  have hboard : (boardPart inp 2).bytes.length = 17 + (packed (boardPart inp 2).strs).length :=
    length_bytes (List.cons_ne_nil _ _)
  have hsystem : (⟨body, systemStrs inp⟩ : Part).bytes.length =
      27 + (packed (systemStrs inp)).length := by
    have hne : systemStrs inp ≠ [] := List.cons_ne_nil _ _
    rw [length_bytes hne, hbody.length]
  have harray : (arrayPart dimmnum maximumCapacity 4).bytes.length = 17 := rfl
  have hprobe : (probePart (5 + dimmnum)).bytes.length = 39 := by
    rw [probePart, length_bytes (List.cons_ne_nil _ _)]
    rfl
  have hend : (endPart (6 + dimmnum)).bytes.length = 6 := rfl
  unfold tableInit tableSize
  simp only [List.length_flatMap, List.map_append, List.map_map, List.map_cons, List.map_nil,
    List.sum_append, List.sum_cons, List.sum_nil, Function.comp_def, hprocessor, hmodule, hbios,
    hboard, hsystem, harray, hprobe, hend]
  unfold biosPart boardPart
  dsimp only
  omega

/-- **A known processor** leaves enough room for all strings. -/
theorem tableSize_known (h : KnownPrid inp.prid) (slots : DimmSlots) :
    tableSize inp slots.dimmnum < 65536 := by
  have hboards : ∀ board : Ls2kBoard,
      board.name.length ≤ 40 ∧ (praseName board.name).length ≤ 40 := by
    intro board
    cases board <;> decide
  have hconstants : (ascii "Loongson").length = 8 ∧ (ascii "Loongson2K").length = 10 := by decide
  obtain ⟨hname, hversion⟩ := hboards inp.board
  obtain ⟨hbios, hdate⟩ := biosStrs_length (getUpdate inp.date inp.update)
  have hprocessor := cpuVersion_length h
  have hmodules : ((List.range slots.dimmnum).map fun i =>
      28 + (packed (moduleStrs inp i)).length).sum ≤ slots.dimmnum * 91 := by
    have hsum := List.sum_le_card_nsmul ((List.range slots.dimmnum).map fun i =>
      28 + (packed (moduleStrs inp i)).length) 91 (by
        rw [List.forall_mem_map]
        intro i hi
        have hlt := Nat.lt_of_lt_of_le (List.mem_range.mp hi) (dimmnum_le slots)
        have hlen := moduleStrs_length inp hlt
        omega)
    rwa [List.length_map, List.length_range, Nat.nsmul_eq_mul] at hsum
  have hdimmnum := dimmnum_le slots
  unfold tableSize systemStrs
  dsimp only
  generalize ((List.range slots.dimmnum).map fun i =>
    28 + (packed (moduleStrs inp i)).length).sum = modules at hmodules ⊢
  simp only [packed, strings_cons, strings_nil, List.length_append, List.length_cons,
    List.length_nil, hconstants]
  omega

/-- The parts are right. -/
theorem table_right {body : List UInt8} (hbody : SystemBody inp body)
    (hmonth : releaseDate (getUpdate inp.date inp.update) ≠ []) (huuid : SpillOk inp)
    (hprocessor : (cpuVersionOf inp).1 ≠ []) (slots : DimmSlots) (cpuclock : CStr)
    (maximumCapacity : ℕ) :
    ∀ x ∈ tableInit inp body cpuclock slots.dimmnum maximumCapacity ++
      [endPart (6 + slots.dimmnum)], PartRight x := by
  have hmodules : ∀ x ∈ (List.range slots.dimmnum).map fun i => modulePart inp 4 i (5 + i),
      PartRight x := by
    rw [List.forall_mem_map]
    intro i hi
    exact module_right 4 (5 + i) (Nat.lt_of_lt_of_le (List.mem_range.mp hi) (dimmnum_le slots))
  unfold tableInit
  simp only [List.forall_mem_append, List.forall_mem_cons]
  exact ⟨⟨⟨⟨bios_right 0 hmonth, ⟨system_good hbody, (system_refs hbody).mpr huuid⟩, board_right 2,
    processor_right cpuclock 3 hprocessor, array_right _ _ 4, List.forall_mem_nil _⟩, hmodules⟩,
    probe_right _, List.forall_mem_nil _⟩, end_right _, List.forall_mem_nil _⟩

/-- Nothing but the last structure says that it is the end. -/
theorem tableInit_types {body : List UInt8} (hbody : SystemBody inp body) (cpuclock : CStr)
    (dimmnum maximumCapacity : ℕ) :
    ∀ x ∈ tableInit inp body cpuclock dimmnum maximumCapacity, x.found.type ≠ 127 := by
  have hsystem : (⟨body, systemStrs inp⟩ : Part).found.type = 1 := hbody.type
  have htypes : (0 : UInt8) ≠ 127 ∧ (1 : UInt8) ≠ 127 ∧ (2 : UInt8) ≠ 127 ∧ (4 : UInt8) ≠ 127 ∧
      (16 : UInt8) ≠ 127 ∧ (17 : UInt8) ≠ 127 ∧ (28 : UInt8) ≠ 127 := by decide
  obtain ⟨h0, h1, h2, h4, h16, h17, h28⟩ := htypes
  have hmodules : ∀ x ∈ (List.range dimmnum).map fun i => modulePart inp 4 i (5 + i),
      x.found.type ≠ 127 := by
    rw [List.forall_mem_map]
    exact fun i _ => h17
  unfold tableInit
  simp only [List.forall_mem_append, List.forall_mem_cons]
  exact ⟨⟨⟨h0, hsystem ▸ h1, h2, h4, h16, List.forall_mem_nil _⟩, hmodules⟩, h28,
    List.forall_mem_nil _⟩

/-- A walk whose references are right finds the last string of the BIOS. -/
theorem month_of_walk {handle : ℕ}
    (hwalk : dmiWalk (n + 1) ((biosPart inp handle).bytes ++ rest) = some (ss, tail))
    (hrefs : ∀ s ∈ ss, RefsRight s) : releaseDate (getUpdate inp.date inp.update) ≠ [] := by
  intro hempty
  obtain ⟨s, rest', ss', hnext, -, rfl⟩ := dmiWalk_head hwalk
  have hstrs : ∀ e ∈ [ascii "Loongson", pmonVersion (getUpdate inp.date inp.update)],
      IsEntry e := by
    simp only [List.forall_mem_cons]
    exact ⟨loongson_entry, pmonVersion_entry _, List.forall_mem_nil _⟩
  have hpart : biosPart inp handle = ⟨(biosPart inp handle).body,
      [ascii "Loongson", pmonVersion (getUpdate inp.date inp.update)] ++ [[]]⟩ := by
    rw [← hempty]
    rfl
  have hfour : 4 ≤ (biosPart inp handle).body.length := (by decide : 4 ≤ 24)
  rw [hpart, dmiNext_lastEmpty rfl hfour hstrs (List.cons_ne_nil _ _)] at hnext
  obtain ⟨rfl, -⟩ := Prod.mk.inj (Option.some.inj hnext)
  -- `release_date_str` is 3
  have href := hrefs _ (List.mem_cons_self ..) 8 (List.mem_of_getElem? (rfl : [4, 5, 8][2]? = _))
  exact absurd href (by decide : ¬ 3 ≤ 2)

/-- A walk whose references are right finds the last string of the processor. -/
theorem version_of_walk {cpuclock : CStr} {handle : ℕ}
    (hwalk : dmiWalk (n + 1) ((processorPart inp cpuclock handle).bytes ++ rest) = some (ss, tail))
    (hrefs : ∀ s ∈ ss, RefsRight s) : (cpuVersionOf inp).1 ≠ [] := by
  intro hempty
  obtain ⟨s, rest', ss', hnext, -, rfl⟩ := dmiWalk_head hwalk
  have hstrs : ∀ e ∈ [ascii "Loongson"], IsEntry e := by
    rw [List.forall_mem_singleton]
    exact loongson_entry
  obtain ⟨hlen, hsize, htype, hversion⟩ := processor_body inp cpuclock handle
  have hpart : processorPart inp cpuclock handle =
      ⟨(processorPart inp cpuclock handle).body, [ascii "Loongson"] ++ [[]]⟩ := by
    rw [← hempty]
    rfl
  rw [hpart, dmiNext_lastEmpty (by rw [hlen, hsize]; rfl) (by rw [hlen]; decide) hstrs
    (List.cons_ne_nil _ _)] at hnext
  obtain ⟨rfl, -⟩ := Prod.mk.inj (Option.some.inj hnext)
  -- `version_str` is 2
  have hmem : 16 ∈ stringRefs ((processorPart inp cpuclock handle).body.getD 0 0) := by
    rw [htype]
    decide
  have href := hrefs _ (List.mem_cons_self ..) 16 hmem
  unfold Part.found at href
  dsimp only at href
  rw [hversion] at href
  exact absurd href (by decide : ¬ 2 ≤ 1)

/-- **What a right table needed.** -/
theorem tabulable_of_walk {cpuclock : CStr} (hclock : inp.cpuclock = some cpuclock)
    {body : List UInt8} (hbody : SystemBody inp body) (slots : DimmSlots) {maximumCapacity : ℕ}
    (hwalk : dmiWalk (7 + slots.dimmnum)
      ((tableInit inp body cpuclock slots.dimmnum maximumCapacity ++
        [endPart (6 + slots.dimmnum)]).flatMap Part.bytes) = some (ss, tail))
    (hrefs : ∀ s ∈ ss, RefsRight s) (htail : tail = [] → tableSize inp slots.dimmnum < 65536) :
    Tabulable inp slots := by
  obtain ⟨more, hmore⟩ : ∃ more, (tableInit inp body cpuclock slots.dimmnum maximumCapacity ++
      [endPart (6 + slots.dimmnum)]).flatMap Part.bytes = (biosPart inp 0).bytes ++
        ((⟨body, systemStrs inp⟩ : Part).bytes ++ ((boardPart inp 2).bytes ++
          ((processorPart inp cpuclock 3).bytes ++ more))) := by
    refine ⟨(arrayPart slots.dimmnum maximumCapacity 4 ::
      ((List.range slots.dimmnum).map (fun i => modulePart inp 4 i (5 + i)) ++
        [probePart (5 + slots.dimmnum), endPart (6 + slots.dimmnum)])).flatMap Part.bytes, ?_⟩
    simp [tableInit]
  have hparts := hwalk
  rw [hmore, Nat.add_comm] at hparts
  -- part by part
  have hmonth := month_of_walk hparts hrefs
  obtain ⟨-, ss₁, hwalk₁, hrefs₁⟩ := walk_part (bios_right 0 hmonth).good hparts hrefs
  obtain ⟨hsystem, ss₂, hwalk₂, hrefs₂⟩ := walk_part (system_good hbody) hwalk₁ hrefs₁
  obtain ⟨-, ss₃, hwalk₃, hrefs₃⟩ := walk_part (board_right 2).good hwalk₂ hrefs₂
  have hversion := version_of_walk hwalk₃ hrefs₃
  have huuid := (system_refs hbody).mp hsystem
  -- so all parts are right, and nothing is behind them
  have hright := table_right hbody hmonth huuid hversion slots cpuclock maximumCapacity
  have hall := dmiWalk_parts (fun x hx => (hright x hx).good) []
  rw [List.append_nil, length_tableParts, hwalk] at hall
  exact ⟨by rw [hclock]; rfl, (releaseDate_ne_nil _ _).mp hmonth, huuid,
    (cpuVersion_ne_nil inp).mp hversion, htail (Prod.mk.inj (Option.some.inj hall)).2⟩

theorem writeStructs_none (h : inp.cpuclock = none) (dimmnum maximumCapacity : ℕ) (m : Mem)
    (p : ℕ) : writeStructs inp dimmnum maximumCapacity m p = none := by
  unfold writeStructs smbiosType4Init
  rw [h]
  rfl

/-- Tables that are right show that the routines had what they need. -/
theorem tabulable_of_right {slots : DimmSlots} {maximumCapacity : ℕ}
    (hrun : writeSmbiosTables inp slots maximumCapacity m start = some m')
    (hright : TableRight m' start) : Tabulable inp slots := by
  unfold writeSmbiosTables at hrun
  cases hclock : inp.cpuclock with
  | none =>
    -- `smbios_type_4_init` reads from address 0
    rw [writeStructs_none hclock] at hrun
    exact nomatch hrun
  | some cpuclock =>
    obtain ⟨w, body, hstructs, hbody, hw⟩ :=
      writeStructs_spec hclock slots.dimmnum maximumCapacity m (start + 31)
    rw [hstructs] at hrun
    obtain rfl := Option.some.inj hrun
    have hentry := entryPoint_spec w.m start w.maxStructSize (w.p - start - 31)
      (start % 2 ^ 31 + 31) w.nrStructs
    have hnumber := length_tableParts inp body cpuclock slots.dimmnum maximumCapacity
    have hdimmnum := dimmnum_le slots
    obtain ⟨ss, tail, hwalk, hrefs, htail⟩ := walk_of_tableRight hw (by omega) hentry hright
    rw [hnumber] at hwalk
    rw [length_table hbody] at htail
    exact tabulable_of_walk hclock hbody slots hwalk hrefs htail

/-- **The tables** are written and well formed exactly when the routines have what they need. -/
theorem tables_exact (inp : SmbiosInput) (slots : DimmSlots) (maximumCapacity : ℕ) (m : Mem)
    (start : ℕ) :
    (∃ m', writeSmbiosTables inp slots maximumCapacity m start = some m' ∧ TableRight m' start) ↔
      Tabulable inp slots := by
  constructor
  · rintro ⟨m', hrun, hright⟩
    exact tabulable_of_right hrun hright
  · intro h
    obtain ⟨cpuclock, hclock⟩ := Option.isSome_iff_exists.mp h.clock
    obtain ⟨w, body, hstructs, hbody, hw⟩ :=
      writeStructs_spec hclock slots.dimmnum maximumCapacity m (start + 31)
    have hnumber := length_tableParts inp body cpuclock slots.dimmnum maximumCapacity
    have hdimmnum := dimmnum_le slots
    unfold writeSmbiosTables
    rw [hstructs]
    refine ⟨_, rfl, ?_⟩
    apply tableRight_of_parts hw (table_right hbody ((releaseDate_ne_nil _ _).mpr h.month) h.uuid
      ((cpuVersion_ne_nil inp).mpr h.processor) slots cpuclock maximumCapacity)
    · exact tableInit_types hbody cpuclock slots.dimmnum maximumCapacity
    · rfl
    · omega
    · rw [length_table hbody]
      exact h.size
    · exact entryPoint_spec ..

/-- **A processor that is not known**, and nothing in `cpu_version`: the set of its strings ends
    before its version. -/
theorem tables_unknownProcessor :
    ¬ ∃ m', writeSmbiosTables
      ⟨.pi2, fun k => (ascii ": Fri Jul 10 09:30:00 CST 2020").getD k 0, 0x100000#32, none,
        some (ascii "800000000"), fun _ => 0, 0x6303#32, false, fun _ _ => 0, fun _ => 0, [], 0,
        fun _ => 0, List.not_mem_nil⟩ .none 0 (fun _ => 0) 0 = some m' ∧ TableRight m' 0 := by
  rintro ⟨m', hrun, hright⟩
  have hneeds := (tabulable_of_right hrun hright).processor
  rcases hneeds with hprid | hversion
  · revert hprid
    unfold KnownPrid
    decide
  · exact hversion rfl

end Pmon.Smbios
