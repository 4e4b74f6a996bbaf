import Mathlib.Data.List.TakeWhile
import Pmon.Cmds.CmdParser
import Pmon.Cmds.HistRing
import Pmon.Cmds.LineEditor

/-!
# Recalling a command

`get_cmd` of `pmon/cmds/hist.c` and its `!` substitution, on `line[LINESZ + 1]` of
`pmon/common/main.c`.  The word with the `!` is copied into `buf[20]` whatever its length, and the
command that it stands for is put into the line whatever room there is.  There is no `^`
substitution.

`findbang` goes over the NUL of a line whose last quote is not closed, so the bytes that are behind
the line in its buffer are part of the state.

## Key results

- `substBang_keeps_iff`: when a substitution stays inside the line and the word.
- `getCmd_exact`: the same for every line typed at every history, and that no other command gets
  into the history.
-/

namespace Pmon.Cmds

open Pmon.Libc

/-! ## §1 Source -/

/-- `sizeof(buf)`. -/
def wordSize : ℕ := 20

/-- `'!'`. -/
def bang : UInt8 := 0x21

/-- What `findbang` returns, or that it gets to the end of the buffer without a NUL to stop at. -/
inductive BangSearch where
  | found (q : ℕ)
  | notFound
  | past
  deriving DecidableEq

/-- `findbang` from `i` on, on the bytes of the buffer; in a quote it looks for the end of it. -/
def findbang : Option UInt8 → ℕ → List UInt8 → BangSearch
  | _, _, [] => .past
  | some quote, i, c :: bytes =>
    -- The loop over the quote stops at a NUL too, and `p++` of the outer loop goes on behind it.
    if c = 0 ∨ c = quote then findbang none (i + 1) bytes
    else findbang (some quote) (i + 1) bytes
  | none, i, c :: bytes =>
    if c = 0 then .notFound
    else if isQuote c then findbang (some c) (i + 1) bytes
    else if c = bang then .found i
    else findbang none (i + 1) bytes

/-- `stristr` where there are `room` bytes from `dst` on, `none` when `strichr` moves the NUL
    behind them. -/
def stristr : ℕ → CStr → CStr → Option CStr
  | _, dst, [] => some dst
  | room, dst, c :: p =>
    if room ≤ dst.length + 1 then none else (stristr (room - 1) dst p).map (c :: ·)

/-- The command that `buf` stands for.  `zeroPage` is the string at address 0, which is read for
    `!!` when there is no command before. -/
def recallEvent (s : CmdHist) (zeroPage : CStr) (buf : CStr) : Option CStr :=
  if buf = [bang] then some ((s.ring.hist (decmod s.ring.histi)).getD zeroPage)
  else
    match atob buf 10 with
    | some v => s.gethistn (BitVec.ofNat 32 v).toInt
    | none => s.gethists buf

/-- The line that `get_cmd` adds to the history, or that it reads or writes behind the line, or
    writes behind `buf`. -/
inductive CmdResult where
  | line (p : CStr)
  | lineOverrun
  | wordOverrun
  deriving DecidableEq

/-- `getword(buf, q)`. -/
def wordAt (bytes : List UInt8) (q : ℕ) : CStr := ((getword (textAt bytes q)).getD ([], [])).1

/-- The substitution of `get_cmd`, on the bytes of the line buffer. -/
def substBang (s : CmdHist) (zeroPage : CStr) (bytes : List UInt8) : CmdResult :=
  match findbang none 0 bytes with
  | .past => .lineOverrun
  | .notFound => .line (textAt bytes 0)
  | .found q =>
    let word := wordAt bytes q
    if word.length = (bytes.drop q).length then .lineOverrun
    else if wordSize ≤ word.length then .wordOverrun
    else
      let buf := strdchr word
      if strempty buf then .line (textAt bytes 0)
      else if 0 ∉ bytes.drop q then .lineOverrun
      else
        let rest := Nat.iterate strdchr (buf.length + 1) (textAt bytes q)
        match recallEvent s zeroPage buf with
        | none => .line (textAt (bytes.take q ++ rest) 0)
        | some t =>
          match stristr (bytes.length - q) rest t with
          | none => .lineOverrun
          | some text => .line (textAt (bytes.take q ++ text) 0)

/-- The bytes of the line buffer when `get_line` has left `p` in it; `old` are those that were there
    before. -/
def lineBytes (p : CStr) (old : Vector UInt8 (linesz + 1)) : List UInt8 :=
  p ++ 0 :: old.toList.drop (p.length + 1)

/-- The line that `get_line` leaves. -/
def typedLine (s : CmdHist) (keys : List UInt8) : CStr := (getLine s.ring true [] keys).line.p

/-- `get_cmd`, when `keys` are typed. -/
def getCmd (s : CmdHist) (zeroPage : CStr) (old : Vector UInt8 (linesz + 1)) (keys : List UInt8) :
    CmdResult :=
  substBang s zeroPage (lineBytes (typedLine s keys) old)

/-! ## §2 What is asked for -/

/-- Nothing is read or written outside the line and the word, and the line is not too long. -/
def CmdResult.Keeps (r : CmdResult) : Prop := ∃ p, r = .line p ∧ p.length ≤ linesz

/-- The word at `q` has an end and is short enough, and if it is more than the `!`, the line has an
    end behind it and is short enough with the command in the place of the word. -/
structure WordFits (s : CmdHist) (zeroPage : CStr) (bytes : List UInt8) (q : ℕ) : Prop where
  ends : (wordAt bytes q).length < (bytes.drop q).length
  short : (wordAt bytes q).length < wordSize
  line_ends : 1 < (wordAt bytes q).length → 0 ∈ bytes.drop q
  line_short : 1 < (wordAt bytes q).length → ∀ t,
    recallEvent s zeroPage (wordAt bytes q).tail = some t →
      q + ((textAt bytes q).length - (wordAt bytes q).length) + t.length ≤ linesz

/-- The search for the `!` ends in the buffer, and the word it finds fits. -/
structure SubstFits (s : CmdHist) (zeroPage : CStr) (bytes : List UInt8) : Prop where
  search : findbang none 0 bytes ≠ .past
  word : ∀ q, findbang none 0 bytes = .found q → WordFits s zeroPage bytes q

/-- All commands of the history are lines. -/
def LinesFit (h : History) : Prop := ∀ k l, h.hist k = some l → l.length ≤ linesz ∧ 0 ∉ l

/-- The histories that there are after some commands, when no substitution has left the buffers. -/
inductive Reached (zeroPage : CStr) : CmdHist → Prop where
  | init : Reached zeroPage histinit
  | call {s : CmdHist} {p : CStr} (old : Vector UInt8 (linesz + 1)) (keys : List UInt8)
      (alloc : Bool) :
      Reached zeroPage s → getCmd s zeroPage old keys = .line p → p.length ≤ linesz →
        Reached zeroPage (s.addhist p alloc)

variable {s : CmdHist} {zeroPage p t : CStr} {bytes : List UInt8} {q : ℕ} {h : History}

/-! ## §3 The search -/

/-- What `findbang` finds is a `!` of the buffer, also in the rest of it. -/
theorem findbang_found {quote : Option UInt8} {i : ℕ} (hfind : findbang quote i bytes = .found q) :
    i ≤ q ∧ bytes[q - i]? = some bang := by
  induction bytes generalizing quote i with
  | nil => simp [findbang] at hfind
  | cons c bytes ih =>
    have hnext : ∀ quote', findbang quote' (i + 1) bytes = .found q →
        i ≤ q ∧ (c :: bytes)[q - i]? = some bang := by
      intro quote' hrest
      obtain ⟨hle, hget⟩ := ih hrest
      have hpos : q - i = q - (i + 1) + 1 := by omega
      refine ⟨by omega, ?_⟩
      rw [hpos, List.getElem?_cons_succ]
      exact hget
    cases quote with
    | some quote =>
      rw [findbang] at hfind
      split at hfind
      · exact hnext none hfind
      · exact hnext (some quote) hfind
    | none =>
      rw [findbang] at hfind
      split at hfind
      · simp at hfind
      · split at hfind
        · exact hnext (some c) hfind
        · split at hfind
          · -- this is the `!`
            rename_i hbang
            simp only [BangSearch.found.injEq] at hfind
            simp [← hfind, hbang]
          · exact hnext none hfind

/-- In the bytes from the `!` on it is the first one. -/
theorem drop_of_found (hfind : findbang none 0 bytes = .found q) :
    bytes.drop q = bang :: bytes.drop (q + 1) := by
  obtain ⟨-, hget⟩ := findbang_found hfind
  rw [Nat.sub_zero] at hget
  obtain ⟨hlt, hval⟩ := List.getElem?_eq_some_iff.mp hget
  rw [← hval]
  exact List.drop_eq_getElem_cons hlt

/-! ## §4 The word -/

/-- The word at a `!` starts with it. -/
theorem wordAt_of_bang (hdrop : bytes.drop q = bang :: bytes.drop (q + 1)) :
    wordAt bytes q = (textAt bytes q).takeWhile (!isspace ·) ∧
      wordAt bytes q = bang :: (wordAt bytes q).tail := by
  have htext : textAt bytes q = bang :: (bytes.drop (q + 1)).takeWhile (· ≠ 0) := by
    simp [textAt, hdrop, bang]
  have hword : wordAt bytes q = (textAt bytes q).takeWhile (!isspace ·) := by
    simp [wordAt, getword, htext, show isspace bang = false from rfl]
  refine ⟨hword, ?_⟩
  simp [hword, htext, show isspace bang = false from rfl]

/-- A word is empty as soon as it is `strempty`. -/
theorem strempty_tail_iff (hdrop : bytes.drop q = bang :: bytes.drop (q + 1)) :
    strempty (wordAt bytes q).tail = true ↔ (wordAt bytes q).length ≤ 1 := by
  obtain ⟨hword, hcons⟩ := wordAt_of_bang hdrop
  have hspace : ∀ c ∈ (wordAt bytes q).tail, isspace c = false := by
    intro c hc
    have hmem := List.mem_of_mem_tail hc
    rw [hword] at hmem
    simpa using List.mem_takeWhile_imp hmem
  have hlen : (wordAt bytes q).length = (wordAt bytes q).tail.length + 1 := by
    conv_lhs => rw [hcons]
    rfl
  rw [hlen]
  constructor
  · intro hempty
    cases htail : (wordAt bytes q).tail with
    | nil => simp
    | cons c cs =>
      have hc := hspace c (by simp [htail])
      simp only [htail, strempty, List.all_cons, Bool.and_eq_true] at hempty
      have hspace' : isspace c = true := by simpa [isspace] using hempty.1
      simp [hspace'] at hc
  · intro hle
    have htail : (wordAt bytes q).tail = [] := List.eq_nil_of_length_eq_zero (by omega)
    simp [htail, strempty]

theorem length_wordAt_le (hdrop : bytes.drop q = bang :: bytes.drop (q + 1)) :
    (wordAt bytes q).length ≤ (textAt bytes q).length := by
  rw [(wordAt_of_bang hdrop).1]
  exact (List.takeWhile_prefix _).length_le

/-! ## §5 The line -/

theorem length_textAt_le : (textAt bytes q).length ≤ (bytes.drop q).length :=
  (List.takeWhile_prefix _).length_le

/-- A string with a NUL behind it is shorter than the bytes that are there. -/
theorem length_textAt_lt (hzero : 0 ∈ bytes.drop q) :
    (textAt bytes q).length < (bytes.drop q).length := by
  apply Nat.lt_of_le_of_ne length_textAt_le
  intro hlen
  have hall : textAt bytes q = bytes.drop q := (List.takeWhile_prefix _).eq_of_length hlen
  rw [← hall] at hzero
  simpa using List.mem_takeWhile_imp hzero

theorem stristr_eq {room : ℕ} (hroom : t.length < room) :
    stristr room t p = if p.length + t.length < room then some (p ++ t) else none := by
  induction p generalizing room with
  | nil => simp [stristr, hroom]
  | cons c p ih =>
    rw [stristr]
    split
    · rename_i hfull
      rw [if_neg]
      rw [List.length_cons]
      omega
    · -- one more character is in front, and there is one byte less behind it
      rename_i hnext
      rw [ih (by omega), List.length_cons]
      by_cases hfits : p.length + t.length < room - 1
      · rw [if_pos hfits, if_pos (by omega)]
        rfl
      · rw [if_neg hfits, if_neg (by omega)]
        rfl

/-- A line is cut at its first NUL. -/
theorem length_textAt_append_le (hq : q ≤ bytes.length) :
    (textAt (bytes.take q ++ t) 0).length ≤ q + t.length := by
  apply Nat.le_trans length_textAt_le
  simp [Nat.min_eq_left hq]

/-! ## §6 A substitution -/

/-- What is left to do at a `!`, when the word is copied. -/
theorem substBang_of_found (hfind : findbang none 0 bytes = .found q)
    (hends : (wordAt bytes q).length < (bytes.drop q).length)
    (hshort : (wordAt bytes q).length < wordSize) :
    substBang s zeroPage bytes =
      if (wordAt bytes q).length ≤ 1 then .line (textAt bytes 0)
      else if 0 ∉ bytes.drop q then .lineOverrun
      else
        match recallEvent s zeroPage (wordAt bytes q).tail with
        | none =>
          .line (textAt (bytes.take q ++ (textAt bytes q).drop (wordAt bytes q).length) 0)
        | some t =>
          match stristr (bytes.length - q) ((textAt bytes q).drop (wordAt bytes q).length) t with
          | none => .lineOverrun
          | some text => .line (textAt (bytes.take q ++ text) 0) := by
  have hdrop := drop_of_found hfind
  have hlen : (wordAt bytes q).length = (wordAt bytes q).tail.length + 1 := by
    conv_lhs => rw [(wordAt_of_bang hdrop).2]
    rfl
  rw [substBang, hfind]
  dsimp only
  rw [if_neg (Nat.ne_of_lt hends), if_neg (Nat.not_le.mpr hshort), strdchr_eq_tail,
    iterate_strdchr, ← hlen]
  by_cases hle : (wordAt bytes q).length ≤ 1
  · rw [if_pos ((strempty_tail_iff hdrop).mpr hle), if_pos hle]
  · rw [if_neg (mt (strempty_tail_iff hdrop).mp hle), if_neg hle]

theorem not_keeps_lineOverrun : ¬ CmdResult.lineOverrun.Keeps := by
  rintro ⟨p, hp, -⟩
  simp at hp

theorem not_keeps_wordOverrun : ¬ CmdResult.wordOverrun.Keeps := by
  rintro ⟨p, hp, -⟩
  simp at hp

/-- The line with a command in the place of the word. -/
theorem keeps_insert_iff (hbytes : bytes.length = linesz + 1) (hzero : 0 ∈ bytes.drop q) :
    CmdResult.Keeps
      (match stristr (bytes.length - q) ((textAt bytes q).drop (wordAt bytes q).length) t with
        | none => .lineOverrun
        | some text => .line (textAt (bytes.take q ++ text) 0)) ↔
      q + ((textAt bytes q).length - (wordAt bytes q).length) + t.length ≤ linesz := by
  have hlt := length_textAt_lt hzero
  have hlen : (bytes.drop q).length = linesz + 1 - q := by rw [List.length_drop, hbytes]
  rw [hlen] at hlt
  rw [hbytes, stristr_eq (by rw [List.length_drop]; omega), List.length_drop]
  by_cases hfits : t.length + ((textAt bytes q).length - (wordAt bytes q).length) <
      linesz + 1 - q
  · rw [if_pos hfits]
    refine iff_of_true ⟨_, rfl, ?_⟩ (by omega)
    apply Nat.le_trans (length_textAt_append_le (by omega))
    rw [List.length_append, List.length_drop]
    omega
  · rw [if_neg hfits]
    exact iff_of_false not_keeps_lineOverrun (by omega)

/-- A word of more than the `!`, in a line that has an end. -/
theorem keeps_event_iff (hfind : findbang none 0 bytes = .found q)
    (hbytes : bytes.length = linesz + 1) (hends : (wordAt bytes q).length < (bytes.drop q).length)
    (hshort : (wordAt bytes q).length < wordSize) (hone : ¬ (wordAt bytes q).length ≤ 1)
    (hzero : 0 ∈ bytes.drop q) :
    (substBang s zeroPage bytes).Keeps ↔ WordFits s zeroPage bytes q := by
  rw [substBang_of_found hfind hends hshort, if_neg hone, if_neg (not_not_intro hzero)]
  cases hevent : recallEvent s zeroPage (wordAt bytes q).tail with
  | none =>
    refine iff_of_true ⟨_, rfl, ?_⟩ ⟨hends, hshort, fun _ => hzero, ?_⟩
    · -- the word is gone and nothing comes in its place
      have hlt := length_textAt_lt hzero
      rw [List.length_drop, hbytes] at hlt
      apply Nat.le_trans (length_textAt_append_le (by omega))
      rw [List.length_drop]
      omega
    · intro _ t ht
      simp [hevent] at ht
  | some t =>
    apply (keeps_insert_iff hbytes hzero).trans
    constructor
    · intro hfits
      refine ⟨hends, hshort, fun _ => hzero, ?_⟩
      intro _ t' ht'
      obtain rfl : t = t' := by simpa [hevent] using ht'
      exact hfits
    · intro hword
      exact hword.line_short (by omega) t hevent

/-- A `!` is found. -/
theorem keeps_found_iff (hfind : findbang none 0 bytes = .found q)
    (hbytes : bytes.length = linesz + 1) (hline : (textAt bytes 0).length ≤ linesz) :
    (substBang s zeroPage bytes).Keeps ↔ WordFits s zeroPage bytes q := by
  by_cases hends : (wordAt bytes q).length < (bytes.drop q).length
  · by_cases hshort : (wordAt bytes q).length < wordSize
    · by_cases hone : (wordAt bytes q).length ≤ 1
      · rw [substBang_of_found hfind hends hshort, if_pos hone]
        exact iff_of_true ⟨_, rfl, hline⟩
          ⟨hends, hshort, fun h => absurd h (by omega), fun h => absurd h (by omega)⟩
      · by_cases hzero : 0 ∈ bytes.drop q
        · exact keeps_event_iff hfind hbytes hends hshort hone hzero
        · rw [substBang_of_found hfind hends hshort, if_neg hone, if_pos hzero]
          apply iff_of_false not_keeps_lineOverrun
          intro hword
          exact hzero (hword.line_ends (by omega))
    · -- the copy of the word goes behind `buf`
      simp only [substBang, hfind, if_neg (Nat.ne_of_lt hends), if_pos (Nat.not_lt.mp hshort)]
      apply iff_of_false not_keeps_wordOverrun
      intro hword
      exact hshort hword.short
  · -- the word has no end in the buffer
    have hlen : (wordAt bytes q).length = (bytes.drop q).length :=
      Nat.le_antisymm (Nat.le_trans (length_wordAt_le (drop_of_found hfind)) length_textAt_le)
        (Nat.not_lt.mp hends)
    simp only [substBang, hfind, if_pos hlen]
    apply iff_of_false not_keeps_lineOverrun
    intro hword
    exact hends hword.ends

/-- **When a substitution stays inside its buffers**, on a full line buffer that holds a line. -/
theorem substBang_keeps_iff (hbytes : bytes.length = linesz + 1) (hzero : 0 ∈ bytes) :
    (substBang s zeroPage bytes).Keeps ↔ SubstFits s zeroPage bytes := by
  have hline : (textAt bytes 0).length ≤ linesz := by
    have hlt := length_textAt_lt (q := 0) hzero
    rw [List.drop_zero, hbytes] at hlt
    omega
  cases hfind : findbang none 0 bytes with
  | past =>
    rw [substBang, hfind]
    apply iff_of_false not_keeps_lineOverrun
    rintro ⟨hsearch, -⟩
    exact hsearch hfind
  | notFound =>
    rw [substBang, hfind]
    refine iff_of_true ⟨_, rfl, hline⟩ ⟨by simp [hfind], ?_⟩
    intro q hq
    simp [hfind] at hq
  | found q =>
    apply (keeps_found_iff hfind hbytes hline).trans
    constructor
    · intro hword
      refine ⟨by simp [hfind], ?_⟩
      intro q' hq'
      obtain rfl : q = q' := by simpa [hfind] using hq'
      exact hword
    · rintro ⟨-, hword⟩
      exact hword q hfind

/-! ## §7 The line that is typed -/

theorem recalled_fits (hfit : LinesFit h) (k : ℕ) :
    (recalled h k).length ≤ linesz ∧ 0 ∉ recalled h k := by
  unfold recalled
  cases hk : h.hist k with
  | none => simp
  | some l => exact hfit k l hk

/-- Characters go from the line. -/
theorem atColumn_drop_fits (hline : p.length ≤ linesz ∧ 0 ∉ p) (column n : ℕ) :
    (atColumn p column (Nat.iterate strdchr n)).length ≤ linesz ∧
      0 ∉ atColumn p column (Nat.iterate strdchr n) := by
  rw [atColumn, iterate_strdchr]
  constructor
  · simp only [List.length_append, List.length_take, List.length_drop]
    omega
  · intro hmem
    rcases List.mem_append.mp hmem with htake | hdrop
    · exact hline.2 (List.mem_of_mem_take htake)
    · exact hline.2 (List.mem_of_mem_drop (List.mem_of_mem_drop hdrop))

theorem killKey_fits {l : LineState} (hline : l.p.length ≤ linesz ∧ 0 ∉ l.p) :
    (killKey l).p.length ≤ linesz ∧ 0 ∉ (killKey l).p := by
  unfold killKey
  split
  · exact atColumn_drop_fits hline _ _
  · split
    · exact atColumn_drop_fits hline _ _
    · exact hline

/-- A character is only taken on a line that is short of `LINESZ` by 40 characters. -/
theorem addchar_fits {l : LineState} {c : UInt8} (hline : l.p.length ≤ linesz ∧ 0 ∉ l.p)
    (hc : isprint c = true) : (addchar l c).p.length ≤ linesz ∧ 0 ∉ (addchar l c).p := by
  unfold addchar
  split
  · exact hline
  · rename_i hroom
    dsimp only [atColumn, strichr]
    have hzero : 0 ≠ c := by
      rintro rfl
      simp [isprint] at hc
    constructor
    · have hlen : (l.p.take l.column).length + (l.p.drop l.column).length = l.p.length := by
        rw [← List.length_append, List.take_append_drop]
      rw [List.length_append, List.length_cons]
      unfold linesz at *
      omega
    · intro hmem
      rcases List.mem_append.mp hmem with htake | hcons
      · exact hline.2 (List.mem_of_mem_take htake)
      · rcases List.mem_cons.mp hcons with heq | hdrop
        · exact hzero heq
        · exact hline.2 (List.mem_of_mem_drop hdrop)

theorem insert_of_ite {P : Prop} [Decidable P] {a b : Command} {d : UInt8} (ha : a ≠ .insert d)
    (hcmd : (if P then a else b) = .insert d) : b = .insert d := by
  by_cases hP : P
  · rw [if_pos hP] at hcmd
    exact absurd hcmd ha
  · rwa [if_neg hP] at hcmd

theorem isprint_of_insert {usehist : Bool} {c d : UInt8} (hcmd : command usehist c = .insert d) :
    isprint d = true := by
  unfold command at hcmd
  -- the 13 other keys do not insert anything
  iterate 13 replace hcmd := insert_of_ite (by simp) hcmd
  split at hcmd
  · rename_i hprint
    cases hcmd
    exact hprint
  · cases hcmd

/-- What any command does to the line. -/
theorem runCommand_fits {l : LineState} {cmd : Command} (hfit : LinesFit h)
    (hline : l.p.length ≤ linesz ∧ 0 ∉ l.p) (hprint : ∀ c, cmd = .insert c → isprint c = true) :
    (runCommand h l cmd).p.length ≤ linesz ∧ 0 ∉ (runCommand h l cmd).p := by
  cases cmd with
  | insert c => exact addchar_fits hline (hprint c rfl)
  | backspace => exact atColumn_drop_fits hline (left 1 l.column) 1
  | delete => exact atColumn_drop_fits hline l.column 1
  | delline =>
    refine ⟨?_, fun hmem => hline.2 (List.mem_of_mem_take hmem)⟩
    exact Nat.le_trans (List.take_prefix _ _).length_le hline.1
  | kill => exact killKey_fits hline
  | prev => exact recalled_fits hfit _
  | next => exact recalled_fits hfit _
  | mark => exact hline
  | forw => exact hline
  | back => exact hline
  | home => exact hline
  | last => exact hline
  | done => exact hline
  | ignore => exact hline

theorem lineKey_fits {l : LineState} {c : UInt8} (hfit : LinesFit h)
    (hline : l.p.length ≤ linesz ∧ 0 ∉ l.p) :
    (lineKey h true l c).2.p.length ≤ linesz ∧ 0 ∉ (lineKey h true l c).2.p := by
  have hkey : (lineKey h true l c).2 = runCommand h l (command true c) := by
    rw [lineKey_eq]
    cases command true c <;> rfl
  rw [hkey]
  apply runCommand_fits hfit hline
  intro d hcmd
  exact isprint_of_insert hcmd

/-- The line of an editor that is at work is a line of the buffer. -/
theorem getLine_fits (hfit : LinesFit h) (keys : List UInt8) :
    (getLine h true [] keys).line.p.length ≤ linesz ∧ 0 ∉ (getLine h true [] keys).line.p := by
  induction keys using List.reverseRecOn with
  | nil => simp [getLine, lineStart]
  | append_singleton keys c ih =>
    unfold getLine at ih ⊢
    rw [List.foldl_append, List.foldl_cons, List.foldl_nil]
    generalize keys.foldl (lineTurn h true) (lineStart h []) = edit at ih ⊢
    unfold lineTurn
    split
    · split
      · exact ih
      · exact lineKey_fits hfit ih
    · exact ih

theorem length_lineBytes (old : Vector UInt8 (linesz + 1)) (hline : p.length ≤ linesz) :
    (lineBytes p old).length = linesz + 1 := by
  simp [lineBytes]
  omega

/-! ## §8 The history -/

theorem LinesFit.dropOldest (hfit : LinesFit h) : LinesFit h.dropOldest := by
  unfold History.dropOldest
  split
  · intro k l hk
    dsimp only at hk
    rw [Function.update_apply] at hk
    split at hk
    · simp at hk
    · exact hfit k l hk
  · exact hfit

theorem LinesFit.append (hfit : LinesFit h) (hroom : incmod h.histi ≠ h.histo)
    (hline : p.length ≤ linesz ∧ 0 ∉ p) : LinesFit (h.append p hroom) := by
  intro k l hk
  dsimp only [History.append] at hk
  rw [Function.update_apply] at hk
  split at hk
  · cases hk
    exact hline
  · exact hfit k l hk

/-- A line is added to lines. -/
theorem LinesFit.addhist (hfit : LinesFit s.ring) (hline : p.length ≤ linesz ∧ 0 ∉ p)
    (alloc : Bool) : LinesFit (s.addhist p alloc).ring := by
  rw [CmdHist.ring_addhist, History.addhist]
  split
  · exact hfit
  · split
    · exact hfit
    · split
      · exact hfit.dropOldest.append _ hline
      · exact hfit.dropOldest

/-- What `get_cmd` hands on is a string. -/
theorem zero_notMem_of_line (hline : substBang s zeroPage bytes = .line p) : 0 ∉ p := by
  have htext : ∃ b, p = textAt b 0 := by
    unfold substBang at hline
    split at hline
    · simp at hline
    · exact ⟨bytes, by simpa using hline.symm⟩
    · dsimp only at hline
      split at hline
      · simp at hline
      · split at hline
        · simp at hline
        · split at hline
          · exact ⟨bytes, by simpa using hline.symm⟩
          · split at hline
            · simp at hline
            · split at hline
              · exact ⟨_, (CmdResult.line.inj hline).symm⟩
              · split at hline
                · simp at hline
                · exact ⟨_, (CmdResult.line.inj hline).symm⟩
  obtain ⟨b, rfl⟩ := htext
  intro hmem
  simpa using List.mem_takeWhile_imp hmem

/-- One command more: the history still has lines only. -/
theorem Reached.linesFit (hs : Reached zeroPage s) : LinesFit s.ring := by
  induction hs with
  | init =>
    intro k l hk
    simp [histinit] at hk
  | call old keys alloc _ hline hlen ih =>
    exact ih.addhist ⟨hlen, zero_notMem_of_line hline⟩ alloc

/-- **The substitution of `get_cmd` at every history**, for all keys that are typed and all bytes
    that the line buffer had before.  The word and the line are kept to their buffers exactly when
    both fit, and no command of the history is longer than a line as long as this was so. -/
theorem getCmd_exact (zeroPage : CStr) :
    (∀ (s : CmdHist) (old : Vector UInt8 (linesz + 1)) (keys : List UInt8), LinesFit s.ring →
      (typedLine s keys).length ≤ linesz ∧
        ((getCmd s zeroPage old keys).Keeps ↔
          SubstFits s zeroPage (lineBytes (typedLine s keys) old))) ∧
      ∀ s, Reached zeroPage s → LinesFit s.ring := by
  refine ⟨?_, fun s hs => hs.linesFit⟩
  intro s old keys hfit
  have hline := getLine_fits hfit keys
  refine ⟨hline.1, ?_⟩
  apply substBang_keeps_iff (length_lineBytes old hline.1)
  simp [lineBytes]

/-- A line buffer that was never used. -/
def blankLine : Vector UInt8 (linesz + 1) := Vector.replicate (linesz + 1) 0

/-- At the first command, through the theorem. -/
theorem getCmd_exact_first :
    LinesFit histinit.ring ∧
      ((getCmd histinit [] blankLine [0x6c, 0x73, bang, newline]).Keeps ↔
        SubstFits histinit [] (lineBytes (typedLine histinit [0x6c, 0x73, bang, newline])
          blankLine)) :=
  ⟨(getCmd_exact []).2 _ .init,
    ((getCmd_exact []).1 _ _ _ ((getCmd_exact []).2 _ .init)).2⟩

/-- A `!` with 19 more characters does not fit into `buf`; and a command of 150 characters, recalled
    in a line of 100 others, does not fit into the line. -/
theorem getCmd_overruns :
    ¬ (getCmd histinit [] blankLine (bang :: List.replicate 19 0x61 ++ [newline])).Keeps ∧
      ∃ s, Reached [] s ∧
        ¬ (getCmd s [] blankLine
          (List.replicate 100 0x61 ++ [bang, 0x62, newline])).Keeps := by
  constructor
  · have hover : getCmd histinit [] blankLine (bang :: List.replicate 19 0x61 ++ [newline]) =
        .wordOverrun := by decide +kernel
    rw [hover]
    exact not_keeps_wordOverrun
  · refine ⟨histinit.addhist (List.replicate 150 0x62) true,
      .call blankLine (List.replicate 150 0x62 ++ [newline]) true .init (by decide +kernel)
        (by simp [linesz]), ?_⟩
    have hover : getCmd (histinit.addhist (List.replicate 150 0x62) true) [] blankLine
        (List.replicate 100 0x61 ++ [bang, 0x62, newline]) = .lineOverrun := by decide +kernel
    rw [hover]
    exact not_keeps_lineOverrun

end Pmon.Cmds
