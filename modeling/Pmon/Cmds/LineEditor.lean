import Mathlib.Data.List.Induction
import Mathlib.Data.List.Iterate
import Pmon.Cmds.Hist
import Pmon.Lib.MarkedText

/-!
# The line editor against a reference editor

The reference editor works on a text with a cursor and a mark that cannot leave the text, and on
the history as a list of lines.  `get_line` does the same as long as each character it gets meets
`Sound`: `backspace` goes wrong at the start of the line and with the mark just before the
cursor, and everything that prints the rest of the line again goes wrong on a newline in it.

## Key results

- `History.lines_append`: what `addhist` puts into the ring comes last in the list.
- `redraw_iff`: printing the rest of the line again brings the cursor back, unless it has a
  newline in it.
- `step_matches_iff`: one key does what the reference does exactly if it is sound.
- `getLine_exact`: the same for every sequence of keys.
-/

namespace Pmon.Cmds

open Pmon.Lib

/-! ## §1 The reference editor -/

/-- What a key asks for. -/
inductive Command where
  | insert (c : UInt8)
  | backspace
  | delete
  | delline
  | kill
  | mark
  | forw
  | back
  | home
  | last
  | prev
  | next
  | done
  | ignore

/-- The key bindings. -/
def command (usehist : Bool) (c : UInt8) : Command :=
  if c = keyPrev ∧ usehist then .prev
  else if c = keyNext ∧ usehist then .next
  else if c = keyForw then .forw
  else if c = keyBack then .back
  else if c = keyBegin then .home
  else if c = keyEnd then .last
  else if c = keyMark then .mark
  else if c = keyDelete then .delete
  else if c = keyDelline then .delline
  else if c = keyKill then .kill
  else if c = 0x08 ∨ c = 0x7f then .backspace
  else if c = newline ∨ c = 0x0d then .done
  else if c = 0x09 then .ignore
  else if isprint c then .insert c
  else .ignore

/-- The editor, and where it is in the history; behind the newest line is an empty one. -/
structure Editor (past : List (List UInt8)) where
  line : MarkedText UInt8
  pos : ℕ
  pos_le : pos ≤ past.length

variable {past : List (List UInt8)}

/-- The line at `pos` of the history becomes the text. -/
def Editor.recall (pos : ℕ) (hpos : pos ≤ past.length) : Editor past where
  line := .ofList (past.getD pos [])
  pos
  pos_le := hpos

/-- **The reference editor.** -/
def Editor.step (e : Editor past) : Command → Editor past
  | .insert c => if e.line.text.length > linesz - 40 then e else { e with line := e.line.insert c }
  | .backspace =>
    { e with line := e.line.cut (e.line.cursor - 1) e.line.cursor (Nat.sub_le ..) e.line.cursor_le }
  | .delete =>
    { e with
      line := e.line.cut e.line.cursor (min (e.line.cursor + 1) e.line.text.length)
        (Nat.le_min.mpr ⟨Nat.le_succ _, e.line.cursor_le⟩) (Nat.min_le_right ..) }
  | .delline =>
    { e with line := e.line.cut e.line.cursor e.line.text.length e.line.cursor_le (Nat.le_refl _) }
  | .kill =>
    { e with
      line := e.line.cut (min e.line.cursor e.line.mark) (max e.line.cursor e.line.mark)
        (by omega) (Nat.max_le.mpr ⟨e.line.cursor_le, e.line.mark_le⟩) }
  | .mark => { e with line := e.line.setMark }
  | .forw => { e with line := e.line.goto (e.line.cursor + 1) }
  | .back => { e with line := e.line.goto (e.line.cursor - 1) }
  | .home => { e with line := e.line.goto 0 }
  | .last => { e with line := e.line.goto e.line.text.length }
  | .prev => .recall (e.pos - 1) (Nat.le_trans (Nat.sub_le ..) e.pos_le)
  | .next => .recall (min (e.pos + 1) past.length) (Nat.min_le_right ..)
  | .done => e
  | .ignore => e

/-- The reference editor between two characters. -/
structure EditSession (past : List (List UInt8)) where
  esc : EscState
  going : Bool
  editor : Editor past

/-- It begins with the cursor before the text and behind the newest line of the history. -/
def editStart (past : List (List UInt8)) (p : List UInt8) : EditSession past where
  esc := .none
  going := true
  editor := ⟨(MarkedText.ofList p).goto 0, past.length, Nat.le_refl _⟩

def editTurn (usehist : Bool) (s : EditSession past) (c : UInt8) : EditSession past :=
  if s.going then
    match escape s.esc c with
    | (esc, none) => { s with esc }
    | (esc, some c) =>
      match command usehist c with
      | .done => ⟨esc, false, s.editor⟩
      | cmd => ⟨esc, true, s.editor.step cmd⟩
  else s

/-- The reference editor after the characters `keys` have come in. -/
def edit (past : List (List UInt8)) (usehist : Bool) (p keys : List UInt8) : EditSession past :=
  keys.foldl (editTurn usehist) (editStart past p)

/-! ## §2 The history as a list -/

/-- How many lines there are. -/
def History.count (h : History) : ℕ := ringCount h.histi h.histo

/-- The slot of the line at `pos`. -/
def History.slot (h : History) (pos : ℕ) : ℕ := ringSlot h.histo pos

/-- The lines, the oldest one first. -/
def History.lines (h : History) : List (List UInt8) :=
  (List.range h.count).map fun k => recalled h (h.slot k)

variable {h : History} {s : LineState} {e : Editor h.lines} {p q : List UInt8}
  {c : UInt8} {n m pos column : ℕ}

theorem History.length_lines : h.lines.length = h.count := by
  rw [History.lines, List.length_map, List.length_range]

theorem History.count_le : h.count ≤ histmax :=
  Nat.le_of_lt_succ (Nat.mod_lt _ (Nat.succ_pos _))

theorem History.slot_count : h.slot h.count = h.histi := ringSlot_count h.histi_le h.histo_le

/-- What is recalled at a position is the line there, or the empty one behind the newest. -/
theorem History.recalled_slot (hpos : pos ≤ h.count) :
    recalled h (h.slot pos) = h.lines.getD pos [] := by
  rcases Nat.lt_or_eq_of_le hpos with hlt | rfl
  · rw [List.getD_eq_getElem?_getD, History.lines, List.getElem?_map, List.getElem?_range hlt]
    rfl
  · rw [recalled, History.slot, h.hist_free _ hpos h.count_le, List.getD_eq_getElem?_getD,
      List.getElem?_eq_none (Nat.le_of_eq History.length_lines)]

/-- A new line comes behind the others. -/
theorem History.lines_append (hroom : incmod h.histi ≠ h.histo) :
    (h.append p hroom).lines = h.lines ++ [p] := by
  have hi := h.histi_le
  have ho := h.histo_le
  have hcount : (h.append p hroom).count = h.count + 1 := by
    unfold History.append History.count ringCount incmod histmax at *
    dsimp only
    split_ifs at * <;> omega
  rw [History.lines, hcount, List.range_succ, List.map_append, List.map_singleton]
  congr 1
  · refine List.map_congr_left fun k hk => ?_
    have hne : h.slot k ≠ h.histi := by
      rw [List.mem_range] at hk
      rw [← h.slot_count]
      have := h.count_le
      unfold History.slot ringSlot histmax at *
      omega
    change (Function.update h.hist h.histi (some p) (h.slot k)).getD [] = _
    rw [Function.update_of_ne hne]
    rfl
  · change [(Function.update h.hist h.histi (some p) (h.slot h.count)).getD []] = _
    rw [h.slot_count, Function.update_self]
    rfl

theorem prevHistr_slot (hpos : pos ≤ h.count) : prevHistr h (h.slot pos) = h.slot (pos - 1) := by
  have hcount := h.count_le
  have hhisto := h.histo_le
  unfold prevHistr decmod History.slot ringSlot histmax at *
  split_ifs <;> omega

theorem nextHistr_slot (hpos : pos ≤ h.count) :
    nextHistr h (h.slot pos) = h.slot (min (pos + 1) h.count) := by
  have hcount := h.count_le
  have hhisto := h.histo_le
  have hhisti := h.histi_le
  unfold nextHistr incmod History.slot History.count ringSlot ringCount histmax at *
  split_ifs <;> omega

/-! ## §3 The functions of the editor -/

theorem strdchr_eq_tail : strdchr p = p.tail := by
  induction p with
  | nil => rfl
  | cons c p ih =>
    cases p with
    | nil => rfl
    | cons d p => rw [strdchr, ih, List.tail_cons, List.tail_cons]

theorem iterate_strdchr : Nat.iterate strdchr n p = p.drop n := by
  induction n generalizing p with
  | zero => rfl
  | succ n ih => rw [Nat.iterate, ih, strdchr_eq_tail, List.drop_tail]

theorem left_eq : left n column = column - n := by
  induction n generalizing column with
  | zero => rfl
  | succ n ih =>
    rw [left]
    split
    · rw [ih]
      omega
    · omega

theorem right_eq (hcolumn : column ≤ p.length) : right p n column = min (column + n) p.length := by
  induction n generalizing column with
  | zero => rw [right, Nat.add_zero, Nat.min_eq_left hcolumn]
  | succ n ih =>
    rw [right]
    split
    · rename_i hlt
      rw [ih hlt, Nat.succ_add, Nat.add_succ]
    · omega

theorem putspaces_eq : putspaces n column = column + n := by
  induction n generalizing column with
  | zero => rfl
  | succ n ih =>
    rw [putspaces, ih]
    change column + 1 + n = _
    omega

theorem putstr_concat : putstr (p ++ [c]) column = if c = newline then 0 else putstr p column + 1 :=
  List.foldl_concat ..

theorem putstr_eq (hp : newline ∉ p) : putstr p column = column + p.length := by
  induction p using List.reverseRecOn with
  | nil => rfl
  | append_singleton p c ih =>
    rw [List.mem_append, not_or, List.mem_singleton] at hp
    rw [putstr_concat, if_neg (Ne.symm hp.2), ih hp.1, List.length_append, List.length_singleton,
      Nat.add_assoc]

theorem putstr_newline (column : ℕ) (hp : newline ∈ p) : putstr p column < p.length := by
  induction p using List.reverseRecOn with
  | nil => cases hp
  | append_singleton p c ih =>
    rw [putstr_concat, List.length_append, List.length_singleton]
    split
    · exact Nat.succ_pos _
    · rename_i hc
      rw [List.mem_append, List.mem_singleton] at hp
      exact Nat.succ_lt_succ (ih (hp.resolve_right (Ne.symm hc)))

/-- **Printing the rest of the line again**, `n` blanks behind it and the cursor back. -/
theorem redraw_iff (q : List UInt8) (n column : ℕ) :
    left (q.length + n) (putspaces n (putstr q column)) = column ↔ column = 0 ∨ newline ∉ q := by
  rw [left_eq, putspaces_eq]
  by_cases hq : newline ∈ q
  · have := putstr_newline column hq
    constructor
    · intro heq
      exact Or.inl (by omega)
    · rintro (rfl | hno)
      · omega
      · exact absurd hq hno
  · rw [putstr_eq hq]
    constructor
    · exact fun _ => Or.inr hq
    · exact fun _ => by omega

theorem drop_atColumn {f : List UInt8 → List UInt8} (hcolumn : column ≤ p.length) :
    (atColumn p column f).drop column = f (p.drop column) :=
  List.drop_left' (List.length_take_of_le hcolumn)

/-! ## §4 One key -/

/-- The state of `get_line` is that of the reference editor. -/
structure Matches (s : LineState) (e : Editor h.lines) : Prop where
  text : s.p = e.line.text
  column : s.column = e.line.cursor
  mark : s.mark = e.line.mark
  histr : s.histr = h.slot e.pos

/-- What `get_line` does for each command. -/
def runCommand (h : History) (s : LineState) : Command → LineState
  | .insert c => addchar s c
  | .backspace => backspaceKey s
  | .delete => deleteKey s
  | .delline => dellineKey s
  | .kill => killKey s
  | .mark => { s with mark := s.column }
  | .forw => { s with column := right s.p 1 s.column }
  | .back => { s with column := left 1 s.column }
  | .home => { s with column := left s.column s.column }
  | .last => { s with column := right s.p (s.p.drop s.column).length s.column }
  | .prev => recallLine h s (prevHistr h s.histr)
  | .next => recallLine h s (nextHistr h s.histr)
  | .done => s
  | .ignore => s

/-- **The exact condition**, on the state before the key. -/
def Sound (h : History) (s : LineState) : Command → Prop
  | .insert c => s.p.length > linesz - 40 ∨ newline ∉ c :: s.p.drop s.column
  | .backspace =>
    0 < s.column ∧ s.mark ≠ s.column - 1 ∧ (s.column = 1 ∨ newline ∉ s.p.drop s.column)
  | .delete => s.column = 0 ∨ newline ∉ s.p.drop (s.column + 1)
  | .kill =>
    s.mark = s.column ∨ min (s.column : ℤ) s.mark = 0 ∨
      newline ∉ s.p.drop (max (s.column : ℤ) s.mark).toNat
  | .prev => newline ∉ recalled h (prevHistr h s.histr)
  | .next => newline ∉ recalled h (nextHistr h s.histr)
  | _ => True

theorem insert_matches_iff (hm : Matches s e) :
    Matches (addchar s c) (e.step (.insert c)) ↔ Sound h s (.insert c) := by
  have hcolumn : s.column ≤ s.p.length := by rw [hm.column, hm.text]; exact e.line.cursor_le
  simp only [addchar, Editor.step, Sound]
  rw [← hm.text]
  split
  · rename_i hfull
    exact ⟨fun _ => Or.inl hfull, fun _ => hm⟩
  rename_i hroom
  have hdrop : (atColumn s.p s.column (strichr · c)).drop s.column = c :: s.p.drop s.column :=
    drop_atColumn hcolumn
  rw [hdrop, List.length_cons, Nat.add_sub_cancel, left_eq]
  by_cases hnl : newline ∈ c :: s.p.drop s.column
  · have hlt := putstr_newline s.column hnl
    rw [List.length_cons] at hlt
    constructor
    · intro hm'
      have hcol : _ - _ = e.line.cursor + 1 := hm'.column
      omega
    · exact fun hor => absurd hnl (hor.resolve_left hroom)
  · refine ⟨fun _ => Or.inr hnl, fun _ => ⟨?_, ?_, hm.mark, hm.histr⟩⟩
    · change s.p.take s.column ++ c :: s.p.drop s.column = _
      rw [hm.text, hm.column]
      rfl
    · change putstr (c :: s.p.drop s.column) s.column - _ = e.line.cursor + 1
      rw [putstr_eq hnl, List.length_cons, hm.column]
      omega

theorem delete_matches_iff (hm : Matches s e) :
    Matches (deleteKey s) (e.step .delete) ↔ Sound h s .delete := by
  have hcolumn : s.column ≤ s.p.length := by rw [hm.column, hm.text]; exact e.line.cursor_le
  have hdrop : (atColumn s.p s.column strdchr).drop s.column = s.p.drop (s.column + 1) := by
    rw [drop_atColumn hcolumn, strdchr_eq_tail, List.tail_drop]
  have hredraw := redraw_iff (s.p.drop (s.column + 1)) 1 s.column
  unfold deleteKey Sound
  dsimp only
  rw [hdrop]
  refine Iff.trans ⟨fun hm' => ?_, fun heq => ⟨?_, ?_, ?_, hm.histr⟩⟩ hredraw
  · exact hm'.column.trans hm.column.symm
  · change s.p.take s.column ++ strdchr (s.p.drop s.column) = e.line.text.take _ ++ _
    rw [strdchr_eq_tail, List.tail_drop, ← hm.text, ← hm.column]
    congr 1
    rcases Nat.lt_or_eq_of_le hcolumn with hlt | heq
    · rw [Nat.min_eq_left hlt]
    · rw [List.drop_eq_nil_of_le (by omega), List.drop_eq_nil_of_le (by omega)]
  · exact heq.trans hm.column
  · have := e.line.mark_le
    change (if s.mark > s.column then s.mark - 1 else s.mark) =
      ((MarkedText.cutMark _ _ _ : ℕ) : ℤ)
    rw [hm.mark, hm.column]
    unfold MarkedText.cutMark
    split_ifs <;> omega

theorem delline_matches (hm : Matches s e) : Matches (dellineKey s) (e.step .delline) := by
  have hcolumn : s.column ≤ s.p.length := by rw [hm.column, hm.text]; exact e.line.cursor_le
  refine ⟨?_, ?_, ?_, hm.histr⟩
  · change s.p.take s.column = e.line.text.take _ ++ e.line.text.drop _
    rw [List.drop_length, List.append_nil, hm.text, hm.column]
  · change left _ (putspaces _ _) = e.line.cursor
    rw [left_eq, putspaces_eq, Nat.add_sub_cancel, hm.column]
  · have := e.line.mark_le
    change (if s.mark > s.column then (s.column : ℤ) else s.mark) =
      ((MarkedText.cutMark _ _ _ : ℕ) : ℤ)
    rw [hm.mark, hm.column]
    unfold MarkedText.cutMark
    split_ifs <;> omega

theorem killChars_matches_iff {e : Editor h.lines} {a b : ℕ} (hm : Matches s e) (hab : a ≤ b)
    (hb : b ≤ e.line.text.length) (hmark : e.line.mark = a ∨ e.line.mark = b) :
    Matches (killChars s (b - a) a) { e with line := e.line.cut a b hab hb } ↔
      a = 0 ∨ newline ∉ s.p.drop b := by
  have hdrop : (atColumn s.p a (Nat.iterate strdchr (b - a))).drop a = s.p.drop b := by
    rw [drop_atColumn (by rw [hm.text]; omega), iterate_strdchr, List.drop_drop,
      Nat.add_sub_of_le hab]
  have hredraw := redraw_iff (s.p.drop b) (b - a) a
  unfold killChars
  dsimp only
  rw [hdrop]
  refine Iff.trans ⟨fun hm' => hm'.column, fun heq => ⟨?_, heq, ?_, hm.histr⟩⟩ hredraw
  · change s.p.take a ++ Nat.iterate strdchr (b - a) (s.p.drop a) = _ ++ e.line.text.drop b
    rw [iterate_strdchr, List.drop_drop, Nat.add_sub_of_le hab, hm.text]
  · have hback : left _ (putspaces _ (putstr _ a)) = a := heq
    change ((left _ _ : ℕ) : ℤ) = ((MarkedText.cutMark a b e.line.mark : ℕ) : ℤ)
    rw [hback]
    unfold MarkedText.cutMark
    split_ifs <;> omega

theorem kill_matches_iff (hm : Matches s e) :
    Matches (killKey s) (e.step .kill) ↔ Sound h s .kill := by
  have hcursor := e.line.cursor_le
  have hmark := e.line.mark_le
  have hcut := killChars_matches_iff (a := min e.line.cursor e.line.mark)
    (b := max e.line.cursor e.line.mark) hm (by omega) (by omega) (by omega)
  unfold killKey Sound
  dsimp only
  rw [hm.mark, hm.column, left_eq]
  rcases Nat.lt_trichotomy e.line.mark e.line.cursor with hlt | heq | hgt
  · have hne : ¬(e.line.mark : ℤ) = e.line.cursor := by omega
    have hmin : min e.line.cursor e.line.mark = e.line.mark := by omega
    have hmax : max e.line.cursor e.line.mark = e.line.cursor := by omega
    rw [if_pos (by omega)]
    simp only [Editor.step, hmin, hmax] at hcut ⊢
    rw [show ((e.line.cursor : ℤ) - e.line.mark).toNat = e.line.cursor - e.line.mark by omega,
      show e.line.cursor - (e.line.cursor - e.line.mark) = e.line.mark by omega, hcut,
      show (max (e.line.cursor : ℤ) e.line.mark).toNat = e.line.cursor by omega,
      show min (e.line.cursor : ℤ) e.line.mark = e.line.mark by omega, Int.natCast_eq_zero,
      or_iff_right hne]
  · rw [if_neg (by omega), if_neg (by omega)]
    refine ⟨fun _ => Or.inl (by omega), fun _ => ?_⟩
    have hself : e.step .kill = e := by
      obtain ⟨line, pos, pos_le⟩ := e
      exact congrArg (Editor.mk · pos pos_le) (MarkedText.cut_eq_self
        (heq ▸ Nat.min_self _) (heq ▸ Nat.max_self _) _ _)
    rw [hself]
    exact hm
  · have hne : ¬(e.line.mark : ℤ) = e.line.cursor := by omega
    have hmin : min e.line.cursor e.line.mark = e.line.cursor := by omega
    have hmax : max e.line.cursor e.line.mark = e.line.mark := by omega
    rw [if_neg (by omega), if_pos (by omega)]
    simp only [Editor.step, hmin, hmax] at hcut ⊢
    rw [show ((e.line.mark : ℤ) - e.line.cursor).toNat = e.line.mark - e.line.cursor by omega, hcut,
      show (max (e.line.cursor : ℤ) e.line.mark).toNat = e.line.mark by omega,
      show min (e.line.cursor : ℤ) e.line.mark = e.line.cursor by omega, Int.natCast_eq_zero,
      or_iff_right hne]

theorem backspace_matches_iff (hm : Matches s e) :
    Matches (backspaceKey s) (e.step .backspace) ↔ Sound h s .backspace := by
  have hcolumn : s.column ≤ s.p.length := by rw [hm.column, hm.text]; exact e.line.cursor_le
  have hmark := e.line.mark_le
  have hdrop : (atColumn s.p (s.column - 1) strdchr).drop (s.column - 1) =
      s.p.drop (s.column - 1 + 1) := by
    rw [drop_atColumn (by omega), strdchr_eq_tail, List.tail_drop]
  have hredraw := redraw_iff (s.p.drop (s.column - 1 + 1)) 1 (s.column - 1)
  unfold backspaceKey Sound
  dsimp only
  rw [left_eq, hdrop]
  constructor
  · intro hm'
    have hmark' : (if s.mark ≥ (s.column - 1 : ℕ) then s.mark - 1 else s.mark) =
        ((MarkedText.cutMark (e.line.cursor - 1) e.line.cursor e.line.mark : ℕ) : ℤ) := hm'.mark
    have hcol := hredraw.mp (hm'.column.trans (congrArg (· - 1) hm.column.symm))
    rw [hm.mark, hm.column] at hmark'
    unfold MarkedText.cutMark at hmark'
    have hpos : 0 < s.column := by
      rw [hm.column]
      split_ifs at hmark' <;> omega
    rw [Nat.sub_add_cancel hpos] at hcol
    refine ⟨hpos, ?_, hcol.imp (by omega) id⟩
    rw [hm.mark, hm.column]
    split_ifs at hmark' <;> omega
  · rintro ⟨hpos, hne, hrest⟩
    rw [Nat.sub_add_cancel hpos] at hredraw
    rw [Nat.sub_add_cancel hpos]
    refine ⟨?_, ?_, ?_, hm.histr⟩
    · change s.p.take _ ++ strdchr (s.p.drop _) = e.line.text.take _ ++ e.line.text.drop _
      rw [strdchr_eq_tail, List.tail_drop, Nat.sub_add_cancel hpos, hm.text, hm.column]
    · exact (hredraw.mpr (hrest.imp (by omega) id)).trans (congrArg (· - 1) hm.column)
    · change (if s.mark ≥ (s.column - 1 : ℕ) then s.mark - 1 else s.mark) =
        ((MarkedText.cutMark _ _ _ : ℕ) : ℤ)
      rw [hm.mark, hm.column] at *
      unfold MarkedText.cutMark
      split_ifs <;> omega

theorem recall_matches_iff {pos : ℕ} (hm : Matches s e) (hpos : pos ≤ h.lines.length) :
    Matches (recallLine h s (h.slot pos)) (Editor.recall pos hpos : Editor h.lines) ↔
      newline ∉ recalled h (h.slot pos) := by
  have hcolumn : s.column ≤ s.p.length := by rw [hm.column, hm.text]; exact e.line.cursor_le
  have hcount : pos ≤ h.count := History.length_lines ▸ hpos
  have hline : recalled h (h.slot pos) = h.lines.getD pos [] := History.recalled_slot hcount
  have hstart : backspace (right s.p (s.p.length - s.column) s.column)
      (right s.p (s.p.length - s.column) s.column) = 0 := by
    rw [backspace, left_eq, Nat.sub_self]
  unfold recallLine
  dsimp only
  rw [hstart]
  constructor
  · intro hm' hnl
    have hcol : putstr (recalled h (h.slot pos)) 0 = (h.lines.getD pos []).length := hm'.column
    rw [← hline] at hcol
    exact absurd hcol (Nat.ne_of_lt (putstr_newline 0 hnl))
  · intro hno
    refine ⟨hline, ?_, rfl, rfl⟩
    change putstr (recalled h (h.slot pos)) 0 = (h.lines.getD pos []).length
    rw [putstr_eq hno, Nat.zero_add, hline]

theorem goto_matches (hm : Matches s e) (hn : n = min m e.line.text.length) :
    Matches { s with column := n } { e with line := e.line.goto m } :=
  ⟨hm.text, hn, hm.mark, hm.histr⟩

/-- **One key** does what the reference editor does exactly if it is sound. -/
theorem step_matches_iff (hm : Matches s e) (cmd : Command) :
    Matches (runCommand h s cmd) (e.step cmd) ↔ Sound h s cmd := by
  have hcursor := e.line.cursor_le
  have hpos : e.pos ≤ h.count := by rw [← History.length_lines]; exact e.pos_le
  cases cmd with
  | insert c => exact insert_matches_iff hm
  | backspace => exact backspace_matches_iff hm
  | delete => exact delete_matches_iff hm
  | delline => exact iff_of_true (delline_matches hm) trivial
  | kill => exact kill_matches_iff hm
  | mark => exact iff_of_true ⟨hm.text, hm.column, congrArg _ hm.column, hm.histr⟩ trivial
  | forw =>
    refine iff_of_true (goto_matches hm ?_) trivial
    rw [right_eq (by rw [hm.column, hm.text]; exact hcursor), hm.column, hm.text]
  | back =>
    refine iff_of_true (goto_matches hm ?_) trivial
    rw [left_eq, hm.column]
    omega
  | home =>
    refine iff_of_true (goto_matches hm ?_) trivial
    rw [left_eq, Nat.sub_self, Nat.zero_min]
  | last =>
    refine iff_of_true (goto_matches hm ?_) trivial
    rw [right_eq (by rw [hm.column, hm.text]; exact hcursor), List.length_drop, hm.column, hm.text]
    omega
  | prev =>
    simp only [runCommand, Sound, hm.histr, prevHistr_slot hpos]
    exact recall_matches_iff hm _
  | next =>
    simp only [runCommand, Sound, hm.histr, nextHistr_slot hpos, ← History.length_lines]
    exact recall_matches_iff hm _
  | done => exact iff_of_true hm trivial
  | ignore => exact iff_of_true hm trivial

/-! ## §5 Every sequence of keys -/

/-- What a command makes of the state, and whether the loop goes on. -/
def reaction (h : History) (s : LineState) : Command → Bool × LineState
  | .done => (false, s)
  | cmd => (true, runCommand h s cmd)

theorem lineKey_eq {usehist : Bool} :
    lineKey h usehist s c = reaction h s (command usehist c) := by
  simp only [command, apply_ite (reaction h s)]
  rfl

/-- `get_line` and the reference editor are in the same state. -/
structure Tracks (h : History) (s : LineEdit) (t : EditSession h.lines) : Prop where
  esc : s.esc = t.esc
  going : s.going = t.going
  line : Matches s.line t.editor

/-- The condition on a character that comes in. -/
def SoundKey (h : History) (usehist : Bool) (s : LineEdit) (c : UInt8) : Prop :=
  s.going → ∀ key, (escape s.esc c).2 = some key → Sound h s.line (command usehist key)

variable {usehist : Bool} {edit₁ : LineEdit} {session : EditSession h.lines} {keys : List UInt8}

theorem turn_tracks_iff (ht : Tracks h edit₁ session) :
    Tracks h (lineTurn h usehist edit₁ c) (editTurn usehist session c) ↔
      SoundKey h usehist edit₁ c := by
  unfold lineTurn editTurn SoundKey
  rw [← ht.going, ← ht.esc]
  split
  swap
  · rename_i hstop
    exact iff_of_true ht fun hgo => absurd hgo hstop
  rename_i hgo
  cases hesc : escape edit₁.esc c with
  | mk esc key =>
    cases key with
    | none => exact iff_of_true ⟨rfl, rfl, ht.line⟩ fun _ key hkey => by cases hkey
    | some key =>
      have hsound : (true → ∀ key', some key = some key' → Sound h edit₁.line (command usehist key'))
          ↔ Sound h edit₁.line (command usehist key) := by
        constructor
        · exact fun hall => hall rfl key rfl
        · rintro hs - key' ⟨⟩
          exact hs
      dsimp only
      rw [hgo, hsound, lineKey_eq]
      cases hcmd : command usehist key with
      | done => exact iff_of_true ⟨rfl, rfl, ht.line⟩ trivial
      | _ =>
        rw [← step_matches_iff ht.line]
        exact ⟨fun h => h.line, fun h => ⟨rfl, rfl, h⟩⟩

theorem start_tracks : Tracks h (lineStart h p) (editStart h.lines p) where
  esc := rfl
  going := rfl
  line :=
    { text := rfl
      column := by
        change (if p ≠ [] then left (putstr p 0) (putstr p 0) else 0) = min 0 p.length
        rw [left_eq, Nat.sub_self, ite_self, Nat.zero_min]
      mark := rfl
      histr := by
        change h.histi = h.slot h.lines.length
        rw [History.length_lines, History.slot_count] }

/-- **The line editor.**  For every history, every line to start from and every sequence of keys:
after each of the keys the line, the cursor, the mark and the place in the history are those of
the reference editor, where cursor and mark cannot leave the text, if and only if every key is
sound in the state it comes in. -/
theorem getLine_exact (h : History) (usehist : Bool) (p keys : List UInt8) :
    (∀ l, l <+: keys → Tracks h (getLine h usehist p l) (edit h.lines usehist p l)) ↔
      ∀ l c, l ++ [c] <+: keys → SoundKey h usehist (getLine h usehist p l) c := by
  induction keys using List.reverseRecOn with
  | nil =>
    refine iff_of_true (fun l hl => ?_) (fun l c hl => ?_)
    · rw [List.prefix_nil.mp hl]
      exact start_tracks
    · exact absurd (List.prefix_nil.mp hl)
        (List.append_ne_nil_of_right_ne_nil l (List.cons_ne_nil c []))
  | append_singleton keys c ih =>
    have hrun : ∀ l, getLine h usehist p (l ++ [c]) = lineTurn h usehist (getLine h usehist p l) c :=
      fun l => List.foldl_concat ..
    have href : ∀ l, edit h.lines usehist p (l ++ [c]) =
        editTurn usehist (edit h.lines usehist p l) c := fun l => List.foldl_concat ..
    constructor
    · intro hall l d hl
      have hbefore := ih.mp fun l hl => hall l (hl.trans (List.prefix_append keys [c]))
      rcases List.prefix_concat_iff.mp hl with heq | hl
      · obtain ⟨rfl, hc⟩ := List.append_inj' heq rfl
        rw [List.singleton_inj.mp hc]
        have hlast := hall (l ++ [c]) List.prefix_rfl
        rw [hrun, href] at hlast
        exact (turn_tracks_iff (hall l (List.prefix_append l [c]))).mp hlast
      · exact hbefore l d hl
    · intro hall l hl
      have hbefore := ih.mpr fun l d hl => hall l d (hl.trans (List.prefix_append keys [c]))
      rcases List.prefix_concat_iff.mp hl with rfl | hl
      · rw [hrun, href]
        exact (turn_tracks_iff (hbefore keys List.prefix_rfl)).mpr (hall keys c List.prefix_rfl)
      · exact hbefore l hl

/-- A history without lines. -/
def History.empty : History where
  hist _ := none
  histi := 0
  histo := 0
  histi_le := Nat.zero_le _
  histo_le := Nat.zero_le _
  hist_free _ _ _ := rfl

/-- Typing `a` and taking it back puts the mark at −1; typing `a` and `b` and pressing the key at
the start of the line takes the `a` away. -/
theorem backspace_leaves_line :
    (getLine .empty true [] [0x61, 0x08]).line.mark = -1 ∧
      (getLine .empty true [] [0x61, 0x62, keyBegin]).line.column = 0 ∧
      (getLine .empty true [] [0x61, 0x62, keyBegin, 0x08]).line.p = [0x62] ∧
      (edit History.empty.lines true [] [0x61, 0x62, keyBegin, 0x08]).editor.line.text =
        [0x61, 0x62] := by
  decide

end Pmon.Cmds
