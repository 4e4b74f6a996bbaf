import Pmon.Cmds.Oload
import Pmon.Cmds.Sdump

/-!
# Loading a dump

`oload` on what `sdump` writes.  A terminal takes CR for LF; a file is read with `fgets`, for which
only LF ends a line.

## Key results

- `lines_ended`: how a line of a dump is read.
- `loadLoop_dump`: what the lines of a dump do, one after the other.
- `sdump_oload_exact`: exactly when a dump is restored.
-/

namespace Pmon.Cmds

open Pmon.Lib Pmon.Libc Pmon.Loaders

/-! ## §1 Lines -/

/-- The characters that are neither control characters nor blanks. -/
def Visible (text : CStr) : Prop := ∀ c ∈ text, 33 ≤ c ∧ c < 127

variable {σ : Type} {layout : MemLayout} {newsym : σ → CStr → BitVec 32 → Option σ}
  {flags : ℕ} {src : Source} {etxack : Bool} {text line rest ulcr uleof : CStr} {c : UInt8}
  {lines blanks : List CStr} {room : ℕ} {l l' : Load σ} {dl : Dl σ} {mem m : Mem}
  {adr : BitVec 32} {siz len : ℕ}

theorem visible_char (h : 33 ≤ c ∧ c < 127) :
    (c ≠ 0 ∧ c ≠ 0x0d ∧ c ≠ 0x0a ∧ c ≠ 0xff) ∧ c ≠ 0x03 ∧ c ≠ 0x08 ∧ isspace c = false := by
  unfold isspace
  grind

theorem digit_visible {d : ℕ} (h : HexDigit d c) : 33 ≤ c ∧ c < 127 := by
  have hd := h.lt
  rcases h with h | h <;> interval_cases d <;> cases h <;> decide

theorem hex_visible {bs : List ℕ} (h : Hex bs text) : Visible text := by
  induction h with
  | nil => exact fun c hc => absurd hc List.not_mem_nil
  | cons ha hb _ ih =>
    exact List.forall_mem_cons.mpr ⟨digit_visible ha, List.forall_mem_cons.mpr
      ⟨digit_visible hb, ih⟩⟩

theorem record_visible {kind : UInt8} {body : List ℕ} (hkind : 33 ≤ kind ∧ kind < 127)
    (h : IsRecord kind body text) : Visible text := by
  obtain ⟨hex, rfl, hhex⟩ := h
  exact List.forall_mem_cons.mpr ⟨by decide, List.forall_mem_cons.mpr ⟨hkind, hex_visible hhex⟩⟩

theorem visible_plain (h : Visible text) : Plain text := fun c hc => (visible_char (h c hc)).1

theorem trimLine_snoc :
    trimLine (line ++ [c]) = if isspace c || c = 0x03 then trimLine line else line ++ [c] :=
  List.rdropWhile_concat ..

/-- What is not visible is dropped behind a visible character only. -/
theorem trimLine_ends (h : Visible text) {ws : CStr}
    (hws : ∀ c ∈ ws, isspace c || c = 0x03) : trimLine (text ++ ws) = text := by
  induction ws using List.reverseRecOn with
  | nil =>
    rw [List.append_nil, trimLine, List.rdropWhile_eq_self_iff]
    intro hl
    obtain ⟨-, hetx, -, hspace⟩ := visible_char (h _ (List.getLast_mem hl))
    rw [hspace, Bool.false_or, decide_eq_true_eq]
    exact hetx
  | append_singleton ws c ih =>
    rw [← List.append_assoc, trimLine_snoc,
      if_pos (hws c (List.mem_append_right _ List.mem_cons_self))]
    exact ih fun d hd => hws d (List.mem_append_left _ hd)

theorem trimLine_keeps (text : CStr) (hc : 33 ≤ c ∧ c < 127) (z : CStr) :
    ∃ z', trimLine (text ++ c :: z) = text ++ c :: z' := by
  induction z using List.reverseRecOn with
  | nil =>
    obtain ⟨-, hetx, -, hspace⟩ := visible_char hc
    refine ⟨[], ?_⟩
    rw [trimLine_snoc, hspace, Bool.false_or, if_neg (by simpa using hetx)]
  | append_singleton z d ih =>
    obtain ⟨z', hz'⟩ := ih
    by_cases hd : (isspace d || d = 0x03) = true
    · refine ⟨z', ?_⟩
      rw [← hz', ← List.cons_append, ← List.append_assoc, trimLine_snoc, if_pos hd]
    · refine ⟨z ++ [d], ?_⟩
      rw [← List.cons_append, ← List.append_assoc, trimLine_snoc, if_neg hd]

/-- Reading a file goes on within a line. -/
theorem fileLines_plain (h : Plain text) (hroom : text.length < room) :
    fileLines room line (text ++ rest) = fileLines (room - text.length) (line ++ text) rest := by
  induction text generalizing room line with
  | nil => simp
  | cons c text ih =>
    rw [List.length_cons] at hroom
    obtain ⟨⟨-, -, hlf, heof⟩, htext⟩ := List.forall_mem_cons.mp h
    rw [List.cons_append, fileLines, if_neg heof,
      if_neg (not_or.mpr ⟨hlf, by omega⟩), ih htext (by omega), List.length_cons,
      List.append_assoc, show room - 1 - text.length = room - (text.length + 1)
        by omega]
    rfl

/-- A line that is begun comes out. -/
theorem fileLines_begun (room : ℕ) (rest : List UInt8) (hne : line ≠ []) :
    ∃ z lines, fileLines room line rest = (line ++ z).takeWhile (· ≠ 0) :: lines := by
  induction rest generalizing room line with
  | nil => exact ⟨[], [], by rw [fileLines, if_neg hne, List.append_nil]⟩
  | cons c rest ih =>
    rw [fileLines, if_neg hne]
    split
    · exact ⟨[], _, by rw [List.append_nil]⟩
    · split
      · exact ⟨[c], _, rfl⟩
      · obtain ⟨z, lines, hlines⟩ := @ih (line ++ [c]) (room - 1) (by simp)
        exact ⟨c :: z, lines, by rw [hlines, List.append_assoc]; rfl⟩

/-- Reading from a terminal goes on within a line. -/
theorem termLines_visible (h : Visible text) (hlen : line.length + text.length < dlrec - 1) :
    termLines line (text ++ rest) = termLines (line ++ text) rest := by
  induction text generalizing line with
  | nil => simp
  | cons c text ih =>
    rw [List.length_cons] at hlen
    obtain ⟨hc, htext⟩ := List.forall_mem_cons.mp h
    obtain ⟨⟨-, hcr, hlf, -⟩, hetx, hbs, -⟩ := visible_char hc
    rw [List.cons_append, termLines]
    simp only [if_neg hcr, if_neg hbs]
    rw [if_neg (by simp only [hlf, hetx, false_or]; omega), ih htext
      (by rw [List.length_append, List.length_singleton]; omega), List.append_assoc]
    rfl

/-- The terminators that end a line where it is read. -/
def EndsLine (src : Source) (ulcr : CStr) : Prop := src = .term ∨ ¬striequ ulcr (ascii "cr")

theorem takeWhile_ended (h : Visible text) {ws : CStr} (hws : ∀ c ∈ ws, c ≠ 0) :
    (text ++ ws).takeWhile (· ≠ 0) = text ++ ws := by
  rw [List.takeWhile_eq_self_iff]
  intro c hc
  rcases List.mem_append.mp hc with hc | hc
  · exact decide_eq_true (visible_char (h c hc)).1.1
  · exact decide_eq_true (hws c hc)

/-- **A line of a dump**, as it is read: white space comes behind it, and perhaps an empty line. -/
theorem lines_ended (h : Visible text) (hlen : text.length < 540) (hends : EndsLine src ulcr)
    (rest : List UInt8) :
    ∃ ws blanks,
      src.lines (text ++ ulcrEol ulcr ++ rest) = (text ++ ws) :: (blanks ++ src.lines rest) ∧
      (∀ c ∈ ws, isspace c || c = 0x03) ∧ ∀ b ∈ blanks, trimLine b = [] := by
  have hplain := visible_plain h
  have hroom : text.length < dlrec - 2 := by
    rw [dlrec]
    omega
  have hterm : ([] : CStr).length + text.length < dlrec - 1 := by
    rw [dlrec, List.length_nil]
    omega
  rw [ulcrEol, List.append_assoc]
  cases src with
  | file =>
    have hcr : ¬striequ ulcr (ascii "cr") := hends.resolve_left (by decide)
    rw [if_neg hcr, Source.lines, fileLines_plain hplain hroom, List.nil_append]
    split
    · refine ⟨[0x0a], [], ?_, by simp [isspace], by simp⟩
      rw [List.singleton_append, fileLines, if_neg (by decide), if_pos (.inl rfl),
        takeWhile_ended h (by simp)]
      rfl
    · refine ⟨[0x0d, 0x0a], [], ?_, by simp [isspace], by simp⟩
      rw [List.cons_append, List.singleton_append, fileLines, if_neg (by decide),
        if_neg (by simp [dlrec]; omega), fileLines, if_neg (by decide), if_pos (.inl rfl),
        List.append_assoc, takeWhile_ended h (by simp)]
      rfl
  | term =>
    rw [Source.lines, termLines_visible h hterm, List.nil_append]
    split
    · refine ⟨[0x0a], [], ?_, by simp [isspace], by simp⟩
      rw [List.singleton_append, termLines]
      rfl
    · split
      · refine ⟨[0x0a], [], ?_, by simp [isspace], by simp⟩
        rw [List.singleton_append, termLines]
        rfl
      · refine ⟨[0x0a], [[0x0a]], ?_, by simp [isspace], by simp [trimLine, isspace]⟩
        rw [List.cons_append, List.singleton_append, termLines]
        rfl

/-- A bare CR does not end a line of a file: what follows is read with it. -/
theorem lines_joined (h : Visible text) (next : CStr) (hnext : Visible next)
    (hlen : text.length + next.length < 540) (hulcr : striequ ulcr (ascii "cr"))
    (rest : List UInt8) :
    ∃ z lines, Source.file.lines (text ++ ulcrEol ulcr ++ (next ++ rest)) =
      (text ++ 0x0d :: next ++ z) :: lines := by
  have hroom : text.length < dlrec - 2 := by
    rw [dlrec]
    omega
  have hroom' : next.length < dlrec - 2 - text.length - 1 := by
    rw [dlrec]
    omega
  obtain ⟨z, lines, hlines⟩ := fileLines_begun (dlrec - 2 - text.length - 1 - next.length) rest
    (show text ++ [0x0d] ++ next ≠ [] by simp)
  refine ⟨z.takeWhile (· ≠ 0), lines, ?_⟩
  rw [Source.lines, List.append_assoc, fileLines_plain (visible_plain h) hroom, ulcrEol,
    if_pos hulcr, List.singleton_append, List.nil_append, fileLines, if_neg (by decide),
    if_neg (by simp [dlrec]; omega), fileLines_plain (visible_plain hnext) hroom', hlines]
  have hzero : ∀ c ∈ text ++ [0x0d] ++ next, decide (c ≠ 0) = true := by
    intro c hc
    rcases List.mem_append.mp hc with hc | hc
    · rcases List.mem_append.mp hc with hc | hc
      · exact decide_eq_true (visible_char (h c hc)).1.1
      · rw [List.mem_singleton.mp hc]
        decide
    · exact decide_eq_true (visible_char (hnext c hc)).1.1
  rw [List.takeWhile_append_of_pos hzero]
  simp only [List.append_assoc, List.cons_append, List.nil_append]

/-! ## §2 The loop -/

theorem flags_yflag (opts : LoadOpts) : hasFlag opts.flags yflag = false := by
  obtain ⟨s, b, e, a, t, i, v⟩ := opts
  revert s b e a t i v
  decide

theorem loadLoop_blanks (h : ∀ b ∈ blanks, trimLine b = []) :
    loadLoop layout newsym flags src etxack (blanks ++ lines) l =
      loadLoop layout newsym flags src etxack lines l := by
  induction blanks with
  | nil => rfl
  | cons b blanks ih =>
    rw [List.forall_mem_cons] at h
    rw [List.cons_append, loadLoop]
    simp only [h.1, if_true]
    exact ih h.2

/-- A line of an S-record file is handed to the decoder. -/
theorem loadLoop_line (htrim : trimLine line = 0x53 :: text) :
    loadLoop layout newsym flags src etxack (line :: lines) l =
      match dlS3load layout newsym flags 0 ((0x53 :: text).takeWhile (· ≠ 0)) l.dl with
      | (.done, len, dl) => some ⟨true, l.err, l.tot + len, dl⟩
      | (.cont, len, dl) =>
        loadLoop layout newsym flags src etxack lines ⟨true, l.err, l.tot + len, dl⟩
      | (_, len, dl) =>
        if etxack then some ⟨true, l.err + 1, l.tot + len, dl⟩
        else loadLoop layout newsym flags src etxack lines ⟨true, l.err + 1, l.tot + len, dl⟩ := by
  rw [loadLoop]
  simp only [htrim, List.headD_cons]
  rw [if_neg (List.cons_ne_nil _ _), if_neg fun h => absurd h.2 (by decide),
    if_neg fun h => absurd rfl h.2] <;> rfl

/-- Errors are never taken back. -/
theorem loadLoop_err (hl : l.err ≠ 0)
    (h : loadLoop layout newsym flags src etxack lines l = some l') : l'.err ≠ 0 := by
  induction lines generalizing l with
  | nil =>
    rw [loadLoop] at h
    split at h
    · contradiction
    · rwa [← Option.some.inj h]
  | cons line lines ih =>
    rw [loadLoop] at h
    dsimp only at h
    split at h
    · exact ih hl h
    split at h
    · rwa [← Option.some.inj h]
    split at h
    · rw [← Option.some.inj h]
      exact Nat.succ_ne_zero _
    split at h
    · rwa [← Option.some.inj h]
    · exact ih (by exact hl) h
    · split at h
      · rw [← Option.some.inj h]
        exact Nat.succ_ne_zero _
      · exact ih (Nat.succ_ne_zero _) h

/-! ## §3 The lines of a dump -/

/-- The loader allows the data of every line of a dump. -/
def RangeLoadable (layout : MemLayout) (adr : BitVec 32) (siz : ℕ) : Prop :=
  ∀ k, 32 * k < siz →
    (dlCheckloadaddr layout (adr + BitVec.ofNat 32 (32 * k))
      (BitVec.ofNat 32 (min 32 (siz - 32 * k))) false).1 = true

theorem dumpRecord_visible (mem : Mem) (adr : BitVec 32) (hlen : len ≤ 32) :
    Visible (dumpRecord mem adr len) :=
  record_visible (by decide) (dumpRecord_text mem adr hlen)

theorem length_dumpRecord (mem : Mem) (adr : BitVec 32) (hlen : len ≤ 32) :
    (dumpRecord mem adr len).length = 2 * len + 14 := by
  obtain ⟨hex, htext, hhex⟩ := dumpRecord_text mem adr hlen
  have hlength := hhex.length_eq
  rw [recordBytes, List.cons_append, List.length_cons, List.length_append, List.length_append,
    length_bytesOf, length_dumpData, List.length_singleton] at hlength
  rw [htext, List.length_cons, List.length_cons, hlength]
  omega

theorem dumpRecord_head (mem : Mem) (adr : BitVec 32) (len : ℕ) :
    ∃ more, dumpRecord mem adr len = 0x53 :: 0x33 :: more := ⟨_, rfl⟩

/-- A line of a dump, decoded. -/
theorem dlS3load_dump (hlen : len ≤ 32) (hwrap : adr.toNat + len ≤ 2 ^ 32)
    (hload : (dlCheckloadaddr layout adr (BitVec.ofNat 32 len) false).1 = true)
    (hy : hasFlag flags yflag = false) :
    dlS3load layout newsym flags 0 (dumpRecord mem adr len) dl =
      (.cont, len, { dl with
        mem := dl.mem.store adr.toNat (mem.slice adr.toNat len)
        lim := widen 0 dl.lim (dumpRec mem adr hlen) }) := by
  have hload' : Loadable layout 0 (dumpRec mem adr hlen) := by
    rw [Loadable, dumpRec_place]
    change (dlCheckloadaddr layout adr (BitVec.ofNat 32 (dumpData mem adr len).length) false).1 = _
    rw [length_dumpData]
    exact hload
  have hkind : dlS3load layout newsym flags 0 (dumpRecord mem adr len) dl =
      s3Datarec layout flags 0 (dumpRecord mem adr len) dl := by
    obtain ⟨more, htext⟩ := dumpRecord_head mem adr len
    rw [htext]
    rfl
  have hrecord := s3Datarec_record dl (dumpRec mem adr hlen) hload' hy
  rw [dumpRec_store hlen hwrap] at hrecord
  rw [hkind]
  refine hrecord.trans ?_
  change (_, (dumpData mem adr len).length, _) = _
  rw [length_dumpData]

/-- **A line of a dump**, where its terminator ends it. -/
theorem loadLoop_record (hlen : len ≤ 32) (hwrap : adr.toNat + len ≤ 2 ^ 32)
    (hload : (dlCheckloadaddr layout adr (BitVec.ofNat 32 len) false).1 = true)
    (hy : hasFlag flags yflag = false) (hends : EndsLine src ulcr) (rest : List UInt8) :
    loadLoop layout newsym flags src etxack
        (src.lines (dumpRecord mem adr len ++ ulcrEol ulcr ++ rest)) l =
      loadLoop layout newsym flags src etxack (src.lines rest)
        ⟨true, l.err, l.tot + len, { l.dl with
          mem := l.dl.mem.store adr.toNat (mem.slice adr.toNat len)
          lim := widen 0 l.dl.lim (dumpRec mem adr hlen) }⟩ := by
  have hvisible := dumpRecord_visible mem adr hlen
  obtain ⟨ws, blanks, hlines, hws, hblanks⟩ := lines_ended hvisible
    (by rw [length_dumpRecord _ _ hlen]; omega) hends rest
  obtain ⟨more, htext⟩ := dumpRecord_head mem adr len
  have htrim : trimLine (dumpRecord mem adr len ++ ws) = 0x53 :: 0x33 :: more := by
    rw [trimLine_ends hvisible hws, htext]
  rw [hlines, loadLoop_line htrim, ← htext, takeWhile_plain (visible_plain hvisible),
    dlS3load_dump hlen hwrap hload hy]
  exact loadLoop_blanks hblanks

/-- **The lines of a dump** put the range back. -/
theorem loadLoop_dump (newsym : σ → CStr → BitVec 32 → Option σ) (etxack : Bool) (mem : Mem)
    (hwrap : adr.toNat + siz ≤ 2 ^ 32) (hload : RangeLoadable layout adr siz)
    (hy : hasFlag flags yflag = false) (hends : EndsLine src ulcr) (rest : List UInt8) :
    ∃ started lim, loadLoop layout newsym flags src etxack
        (src.lines (sdumpLoop mem (ulcrEol ulcr) adr siz ++ rest)) l =
      loadLoop layout newsym flags src etxack (src.lines rest)
        ⟨started, l.err, l.tot + siz, { l.dl with
          mem := l.dl.mem.store adr.toNat (mem.slice adr.toNat siz), lim }⟩ := by
  induction siz using Nat.strongRecOn generalizing adr l with
  | ind siz ih =>
    rw [sdumpLoop]
    by_cases hpos : 0 < siz
    · rw [dif_pos hpos]
      have hlen : (if siz < 32 then siz else 32) = min siz 32 := by
        split <;> omega
      dsimp only
      rw [hlen]
      generalize hn : min siz 32 = n
      have hfirst : (dlCheckloadaddr layout adr (BitVec.ofNat 32 n) false).1 = true := by
        have h := hload 0 hpos
        rwa [Nat.mul_zero, Nat.sub_zero, Nat.min_comm, hn, BitVec.add_zero] at h
      have hn32 : n ≤ 32 := by omega
      have hcut : siz = n ∨ n = 32 := by omega
      have hadr : (adr + BitVec.ofNat 32 n).toNat = (adr.toNat + n) % 2 ^ 32 := by
        rw [BitVec.toNat_add, BitVec.toNat_ofNat]
        omega
      have hrest : RangeLoadable layout (adr + BitVec.ofNat 32 n) (siz - n) := by
        intro k hk
        have hk' := hload (k + 1) (by omega)
        rwa [show 32 * (k + 1) = n + 32 * k by omega, BitVec.ofNat_add, ← BitVec.add_assoc,
          show siz - (n + 32 * k) = siz - n - 32 * k by omega] at hk'
      obtain ⟨started, lim, hih⟩ := ih (siz - n) (by omega)
        (l := ⟨true, l.err, l.tot + n, { l.dl with
          mem := l.dl.mem.store adr.toNat (mem.slice adr.toNat n)
          lim := widen 0 l.dl.lim (dumpRec mem adr hn32) }⟩) (by omega) hrest
      refine ⟨started, lim, ?_⟩
      rw [List.append_assoc, loadLoop_record hn32 (by omega) hfirst hy hends, hih]
      -- The rest is stored behind the first line's bytes.
      have hstore : (l.dl.mem.store adr.toNat (mem.slice adr.toNat n)).store
            (adr + BitVec.ofNat 32 n).toNat
            (mem.slice (adr + BitVec.ofNat 32 n).toNat (siz - n)) =
          l.dl.mem.store adr.toNat (mem.slice adr.toNat siz) := by
        rcases Nat.eq_zero_or_pos (siz - n) with hdone | hmore
        · rw [hdone, show siz = n by omega]
          rfl
        · rw [hadr, Nat.mod_eq_of_lt (by omega)]
          conv_rhs => rw [show siz = n + (siz - n) by omega, Mem.slice_append, Mem.store_append,
            Mem.length_slice]
      dsimp only
      rw [hstore, Nat.add_assoc, show n + (siz - n) = siz by omega]
    · obtain rfl : siz = 0 := by omega
      rw [dif_neg hpos]
      exact ⟨l.started, l.dl.lim, rfl⟩

/-- **The end of a dump** ends the load, with no entry address. -/
theorem loadLoop_end (hends : EndsLine src ulcr) (rest : List UInt8) :
    loadLoop layout newsym flags src etxack
        (src.lines (ascii "S70500000000FA" ++ ulcrEol ulcr ++ rest)) l =
      some ⟨true, l.err, l.tot, { l.dl with entry := 0 }⟩ := by
  have hvisible : Visible (ascii "S70500000000FA") := record_visible (by decide) endRecord_text
  obtain ⟨ws, blanks, hlines, hws, -⟩ := lines_ended hvisible (by decide) hends rest
  have htrim : trimLine (ascii "S70500000000FA" ++ ws) = 0x53 :: ascii "70500000000FA" :=
    trimLine_ends hvisible hws
  have htake : (0x53 :: ascii "70500000000FA" : CStr).takeWhile (· ≠ 0) = dumpEnd.text :=
    takeWhile_plain (visible_plain hvisible)
  rw [hlines, loadLoop_line htrim, htake, dlS3load_last]
  rfl

/-! ## §4 The round trip -/

/-- **A dump is restored**: it is loaded without an error, all of its bytes are reported, and memory
    has them where they were, and elsewhere what it had. -/
def Restored (layout : MemLayout) (newsym : σ → CStr → BitVec 32 → Option σ) (opts : LoadOpts)
    (src : Source) (etxack : Bool) (mem : Mem) (ulcr uleof : CStr) (adr siz : BitVec 32)
    (dl : Dl σ) : Prop :=
  ∃ dl', cmdLoad layout newsym opts src etxack (cmdSdump mem ulcr uleof adr siz) dl =
      some (0, siz.toNat, dl') ∧
    ∀ a, dl'.mem a =
      if adr.toNat ≤ a ∧ a < adr.toNat + siz.toNat then mem a else dl.mem a

theorem store_slice_apply (m : Mem) (a n i : ℕ) :
    m.store a (mem.slice a n) i = if a ≤ i ∧ i < a + n then mem i else m i := by
  split
  · rename_i h
    have hi : i - a < (mem.slice a n).length := by
      rw [Mem.length_slice]
      omega
    have hcell := (mem.holds_slice a n).getElem hi
    have hstored := Mem.store_of_mem (m := m) (a := a) hi
    rw [← hcell, show a + (i - a) = i by omega] at hstored
    exact hstored
  · rename_i h
    apply Mem.store_of_not_mem
    rw [Mem.length_slice]
    omega

variable {opts : LoadOpts} {siz : BitVec 32}

theorem restored_of_ends (hwrap : adr.toNat + siz.toNat ≤ 2 ^ 32)
    (hload : RangeLoadable layout adr siz.toNat) (hends : EndsLine src ulcr) :
    Restored layout newsym opts src etxack mem ulcr uleof adr siz dl := by
  obtain ⟨started, lim, hlines⟩ := loadLoop_dump newsym etxack mem
    (l := ⟨false, 0, 0, { dl with lim := .initial }⟩) hwrap hload (flags_yflag opts) hends
    (ascii "S70500000000FA" ++ ulcrEol ulcr ++ uleof)
  refine ⟨{ dl with
    mem := dl.mem.store adr.toNat (mem.slice adr.toNat siz.toNat), lim, entry := 0 },
    ?_, fun a => store_slice_apply _ _ _ _⟩
  rw [cmdLoad, cmdSdump, List.append_assoc, List.append_assoc, ← List.append_assoc (ascii _),
    hlines, loadLoop_end hends, Nat.zero_add]
  rfl

/-- An end record is taken with whatever follows it in its line. -/
theorem dlS3load_end_more (z : CStr) :
    dlS3load layout newsym flags 0 (0x53 :: (ascii "70500000000FA" ++ z)) dl =
      (.done, 0, { dl with entry := 0 }) := by
  have hadr : gethex (ascii "00000000FA" ++ z) 8 = some 0 := gethex_append (by decide) z
  have hdigits : ((0x39 - (0x53 :: (ascii "70500000000FA" ++ z)).getD 1 0).toNat + 2) * 2 = 8 := by
    change ((0x39 - 0x37 : UInt8).toNat + 2) * 2 = 8
    decide
  have hdrop : (0x53 :: (ascii "70500000000FA" ++ z)).drop 4 = ascii "00000000FA" ++ z := rfl
  have hend : s3Endrec 0 (0x53 :: (ascii "70500000000FA" ++ z)) dl =
      (.done, { dl with entry := 0 }) := by
    rw [s3Endrec, hdigits, hdrop, hadr]
    rfl
  have hkind : dlS3load layout newsym flags 0 (0x53 :: (ascii "70500000000FA" ++ z)) dl =
      ((s3Endrec 0 (0x53 :: (ascii "70500000000FA" ++ z)) dl).1, 0,
        (s3Endrec 0 (0x53 :: (ascii "70500000000FA" ++ z)) dl).2) := rfl
  rw [hkind, hend]

theorem takeWhile_more (h : Visible text) (z : CStr) :
    (text ++ z).takeWhile (· ≠ 0) = text ++ z.takeWhile (· ≠ 0) :=
  List.takeWhile_append_of_pos fun c hc => decide_eq_true (visible_char (h c hc)).1.1

/-- An empty dump is an end record only. -/
theorem restored_of_empty (hulcr : striequ ulcr (ascii "cr")) (hsiz : siz = 0) :
    Restored layout newsym opts .file etxack mem ulcr uleof adr siz dl := by
  have hvisible : Visible (ascii "S70500000000FA") := record_visible (by decide) endRecord_text
  obtain ⟨z, lines, hlines⟩ := lines_joined hvisible [] (by simp [Visible]) (by decide)
    hulcr uleof
  obtain ⟨z', htrim⟩ := trimLine_keeps (ascii "S70500000000F") (c := 0x41) (by decide)
    (0x0d :: z)
  have htrim' : trimLine (ascii "S70500000000FA" ++ [0x0d] ++ z) =
      0x53 :: (ascii "70500000000FA" ++ z') := htrim
  have htake : (0x53 :: (ascii "70500000000FA" ++ z')).takeWhile (· ≠ 0) =
      0x53 :: (ascii "70500000000FA" ++ z'.takeWhile (· ≠ 0)) := takeWhile_more hvisible z'
  have htext : cmdSdump mem ulcr uleof adr siz =
      ascii "S70500000000FA" ++ ulcrEol ulcr ++ ([] ++ uleof) := by
    rw [cmdSdump, hsiz, sdumpLoop]
    rfl
  refine ⟨{ dl with lim := .initial, entry := 0 }, ?_, fun a => ?_⟩
  · rw [cmdLoad, htext, hlines, loadLoop_line htrim', htake, dlS3load_end_more, hsiz]
    rfl
  · rw [hsiz, if_neg (by simp)]

/-- The record that a longer line begins with has another length. -/
theorem dlS3load_joined (hlen : len ≤ 32) (hy : hasFlag flags yflag = false) (z : CStr) :
    dlS3load layout newsym flags 0 (dumpRecord mem adr len ++ 0x0d :: 0x53 :: z) dl =
      (.badlen, 0, dl) := by
  obtain ⟨hex, htext, hhex⟩ := dumpRecord_text mem adr hlen
  have hlength := length_dumpRecord mem adr hlen
  have hbody : (bytesOf 4 adr.toNat ++ dumpData mem adr len).length + 1 = len + 5 := by
    rw [List.length_append, length_bytesOf, length_dumpData]
    omega
  rw [recordBytes, hbody, List.cons_append] at hhex
  have hcount : gethex (hex ++ 0x0d :: 0x53 :: z) 2 = some (len + 5) :=
    gethex_append (gethex_byte hhex).1 _
  have hkind : dlS3load layout newsym flags 0 (dumpRecord mem adr len ++ 0x0d :: 0x53 :: z) dl =
      s3Datarec layout flags 0 (dumpRecord mem adr len ++ 0x0d :: 0x53 :: z) dl := by
    rw [htext]
    rfl
  have hdrop : (dumpRecord mem adr len ++ 0x0d :: 0x53 :: z).drop 2 = hex ++ 0x0d :: 0x53 :: z := by
    rw [htext]
    rfl
  rw [hkind, s3Datarec, hy, if_neg Bool.false_ne_true, hdrop, hcount]
  dsimp only
  rw [if_pos]
  rw [List.length_append, hlength, List.length_cons, List.length_cons]
  omega

/-- Two lines that are read as one are no record. -/
theorem not_restored (hulcr : striequ ulcr (ascii "cr")) (hsiz : siz ≠ 0) :
    ¬Restored layout newsym opts .file etxack mem ulcr uleof adr siz dl := by
  rintro ⟨dl', hload, -⟩
  have hpos : 0 < siz.toNat := Nat.pos_of_ne_zero fun h => hsiz (BitVec.eq_of_toNat_eq h)
  -- Behind the first line there is another one, or the end record.
  have hfollows : ∀ adr siz', ∃ rest, sdumpLoop mem (ulcrEol ulcr) adr siz' ++
      (ascii "S70500000000FA" ++ (ulcrEol ulcr ++ uleof)) = 0x53 :: rest := by
    intro adr siz'
    rw [sdumpLoop]
    split
    · exact ⟨_, rfl⟩
    · exact ⟨_, rfl⟩
  obtain ⟨n, hn, rest, htext⟩ : ∃ n ≤ 32, ∃ rest, cmdSdump mem ulcr uleof adr siz =
      dumpRecord mem adr n ++ ulcrEol ulcr ++ ([0x53] ++ rest) := by
    generalize hlen : (if siz.toNat < 32 then siz.toNat else 32) = n
    obtain ⟨rest, hrest⟩ := hfollows (adr + BitVec.ofNat 32 n) (siz.toNat - n)
    refine ⟨n, by rw [← hlen]; split <;> omega, rest, ?_⟩
    rw [cmdSdump, sdumpLoop, dif_pos hpos]
    dsimp only
    rw [hlen, List.singleton_append, ← hrest]
    simp only [List.append_assoc]
  have hvisible := dumpRecord_visible mem adr hn
  obtain ⟨z, lines, hlines⟩ := lines_joined hvisible [0x53] (by simp [Visible])
    (by rw [length_dumpRecord _ _ hn, List.length_singleton]; omega) hulcr rest
  obtain ⟨z', htrim⟩ := trimLine_keeps (dumpRecord mem adr n ++ [0x0d]) (c := 0x53)
    (by decide) z
  obtain ⟨more, hrecord⟩ := dumpRecord_head mem adr n
  have htrim' : trimLine (dumpRecord mem adr n ++ 0x0d :: [0x53] ++ z) =
      0x53 :: (0x33 :: more ++ 0x0d :: 0x53 :: z') := by
    rw [List.append_assoc, List.singleton_append] at htrim
    rw [List.append_assoc, List.cons_append, List.singleton_append, htrim, hrecord,
      List.append_assoc]
    rfl
  have htake : (0x53 :: (0x33 :: more ++ 0x0d :: 0x53 :: z')).takeWhile (· ≠ 0) =
      dumpRecord mem adr n ++ 0x0d :: 0x53 :: z'.takeWhile (· ≠ 0) := by
    have hline : (0x53 :: (0x33 :: more ++ 0x0d :: 0x53 :: z') : CStr) =
        dumpRecord mem adr n ++ 0x0d :: 0x53 :: z' := by
      rw [hrecord]
      rfl
    rw [hline, takeWhile_more hvisible, List.takeWhile_cons_of_pos (by decide),
      List.takeWhile_cons_of_pos (by decide)]
  rw [cmdLoad, htext, hlines, loadLoop_line htrim', htake,
    dlS3load_joined hn (flags_yflag opts)] at hload
  dsimp only at hload
  obtain ⟨l, hl, hresult⟩ := Option.map_eq_some_iff.mp hload
  have herr : l.err ≠ 0 := by
    split at hl
    · rw [← Option.some.inj hl]
      exact Nat.succ_ne_zero _
    · exact loadLoop_err (by exact Nat.succ_ne_zero _) hl
  rw [if_pos herr] at hresult
  exact absurd (congrArg Prod.fst hresult) (by simp)

/-- **Dump and load.**  Where the loader allows every line of it, a dump is restored if and only if
    it is read from a terminal, its lines do not end with a bare CR, or it is empty. -/
theorem sdump_oload_exact (layout : MemLayout) (newsym : σ → CStr → BitVec 32 → Option σ)
    (opts : LoadOpts) (src : Source) (etxack : Bool) (mem : Mem) (ulcr uleof : CStr)
    (adr siz : BitVec 32) (dl : Dl σ) (hwrap : adr.toNat + siz.toNat ≤ 2 ^ 32)
    (hload : RangeLoadable layout adr siz.toNat) :
    Restored layout newsym opts src etxack mem ulcr uleof adr siz dl ↔
      src = .term ∨ ¬striequ ulcr (ascii "cr") ∨ siz = 0 := by
  by_cases hends : EndsLine src ulcr
  · refine iff_of_true (restored_of_ends hwrap hload hends) ?_
    rcases hends with hterm | hulcr
    · exact .inl hterm
    · exact .inr (.inl hulcr)
  · obtain ⟨hfile, hulcr⟩ := not_or.mp hends
    obtain rfl : src = .file := by
      cases src with
      | file => rfl
      | term => exact absurd rfl hfile
    have hulcr' := not_not.mp hulcr
    by_cases hsiz : siz = 0
    · exact iff_of_true (restored_of_empty hulcr' hsiz) (.inr (.inr hsiz))
    · refine iff_of_false (not_restored hulcr' hsiz) ?_
      rintro (hterm | hcr | hzero)
      · exact hfile hterm
      · exact hcr hulcr'
      · exact hsiz hzero

/-- One byte at `0x80000000`, from a file with lines that end with LF. -/
theorem sdump_oload_exact_byte :
    Restored boardLayout (fun _ _ _ => none) {} .file false (fun _ => 0xaa) (ascii "lf") (ascii "%")
      0x80000000#32 1#32 srecStart := by
  refine (sdump_oload_exact boardLayout _ {} .file false _ (ascii "lf") (ascii "%") 0x80000000#32
    1#32 srecStart (by decide) ?_).mpr (.inr (.inl (by decide)))
  intro k hk
  obtain rfl : k = 0 := by
    change 32 * k < 1 at hk
    omega
  decide

/-- The same byte, with lines that end with CR, as is the default. -/
theorem sdump_oload_cr :
    ¬Restored boardLayout (fun _ _ _ => none) {} .file false (fun _ => 0xaa) (ascii "cr")
      (ascii "%") 0x80000000#32 1#32 srecStart :=
  not_restored (by decide) (by decide)

end Pmon.Cmds
