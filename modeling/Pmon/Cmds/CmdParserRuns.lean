import Mathlib.Data.List.Basic
import Mathlib.Data.List.Pairwise
import Mathlib.Data.List.TakeWhile
import Pmon.Cmds.CmdParser
import Pmon.Lib.PackedStrings
import Pmon.Lib.Run

/-!
# Every command runs with its own text

`commands` is what `c1;c2;...;cn` means.  `FrameOk` says of a call of `do_cmd` that the texts it
has looked up, and those its pointers still point to, are the commands of its line.  A call with
a `$` in its line writes to the buffer that other calls have their commands in; it keeps
`FrameOk` for them as long as it does not write as far as the next of their commands.

## Key results

- `splitLoop_commands`: the loop over the line cuts it into its commands.
- `fetch_ok`, `enter_ok`, `finish_ok`: what each step keeps.
- `commands_exact`: every run in which each call of `do_cmd` meets `StepOk` runs the commands of
  every line in order with the texts they had, and never has more than 20 of them.
-/

namespace Pmon.Cmds

open Pmon.Lib Pmon.Libc

variable {b b' p rest : List UInt8} {t c : CStr} {cs : List CStr} {off off' i n : ℕ}
  {quote : Option UInt8} {s s' : Shell} {f g : Frame} {fs : List Frame}

/-! ## §1 What a line means -/

/-- Put a character in front of the first command. -/
def consHead (c : UInt8) : List CStr → List CStr
  | [] => [[c]]
  | t :: ts => (c :: t) :: ts

/-- **The commands of a line**: a `;` outside of quotes separates two of them. -/
def commandsFrom : Option UInt8 → CStr → List CStr
  | _, [] => [[]]
  | some q, c :: p => consHead c (commandsFrom (if c = q then none else some q) p)
  | none, c :: p =>
    if c = 0x3b then [] :: commandsFrom none p
    else consHead c (commandsFrom (if isQuote c then some c else none) p)

/-- The commands of a line. -/
def commands (line : CStr) : List CStr := commandsFrom none line

/-- Where strings begin that stand one behind the other, each with its terminator. -/
def starts (i : ℕ) : List CStr → List ℕ
  | [] => []
  | t :: ts => i :: starts (i + t.length + 1) ts

theorem commandsFrom_ne_nil : commandsFrom quote t ≠ [] := by
  cases t with
  | nil => cases quote <;> exact List.cons_ne_nil _ _
  | cons c t =>
    cases quote <;> rw [commandsFrom]
    · split
      · exact List.cons_ne_nil _ _
      · unfold consHead
        split <;> exact List.cons_ne_nil _ _
    · unfold consHead
      split <;> exact List.cons_ne_nil _ _

theorem strings_consHead {c : UInt8} (h : cs ≠ []) : strings (consHead c cs) = c :: strings cs := by
  cases cs with
  | nil => exact absurd rfl h
  | cons t ts => rfl

theorem tail_starts_consHead {c : UInt8} (h : cs ≠ []) :
    (starts i (consHead c cs)).tail = (starts (i + 1) cs).tail := by
  cases cs with
  | nil => exact absurd rfl h
  | cons t ts =>
    rw [consHead, starts, starts, List.tail_cons, List.tail_cons, List.length_cons,
      show i + (t.length + 1) + 1 = i + 1 + t.length + 1 by omega]

theorem starts_eq_cons (h : cs ≠ []) : starts i cs = i :: (starts i cs).tail := by
  cases cs with
  | nil => exact absurd rfl h
  | cons t ts => rfl

/-- **Cutting the line up**: the buffer holds the commands, each with its terminator, and the
pointers go to where they begin. -/
theorem splitLoop_commands (quote : Option UInt8) (i : ℕ) (rest : List UInt8)
    (ht : (0 : UInt8) ∉ t) :
    (splitLoop quote i (t ++ 0 :: rest)).1 = strings (commandsFrom quote t) ++ rest ∧
      (splitLoop quote i (t ++ 0 :: rest)).2.1 = (starts i (commandsFrom quote t)).tail := by
  induction t generalizing quote i with
  | nil => cases quote <;> exact ⟨rfl, rfl⟩
  | cons c t ih =>
    rw [List.mem_cons, not_or] at ht
    have hc : c ≠ 0 := Ne.symm ht.1
    cases quote with
    | some q =>
      obtain ⟨hb, hoffs⟩ := ih (if c = q then none else some q) (i + 1) ht.2
      rw [List.cons_append, splitLoop, if_neg hc, commandsFrom]
      dsimp only
      rw [hb, hoffs, strings_consHead commandsFrom_ne_nil, tail_starts_consHead commandsFrom_ne_nil]
      exact ⟨rfl, rfl⟩
    | none =>
      rw [List.cons_append, splitLoop, if_neg hc, commandsFrom]
      dsimp only
      split
      · obtain ⟨hb, hoffs⟩ := ih none (i + 1) ht.2
        dsimp only
        rw [hb, hoffs, ← starts_eq_cons commandsFrom_ne_nil]
        exact ⟨rfl, rfl⟩
      · obtain ⟨hb, hoffs⟩ := ih (if isQuote c then some c else none) (i + 1) ht.2
        dsimp only
        rw [hb, hoffs, strings_consHead commandsFrom_ne_nil,
          tail_starts_consHead commandsFrom_ne_nil]
        exact ⟨rfl, rfl⟩

theorem length_strings_commandsFrom : (strings (commandsFrom quote t)).length = t.length + 1 := by
  induction t generalizing quote with
  | nil => cases quote <;> rfl
  | cons c t ih =>
    cases quote <;> rw [commandsFrom]
    · split
      · rw [strings_cons, List.nil_append, List.length_cons, ih, List.length_cons]
      · rw [strings_consHead commandsFrom_ne_nil, List.length_cons, ih, List.length_cons]
    · rw [strings_consHead commandsFrom_ne_nil, List.length_cons, ih, List.length_cons]

theorem not_mem_commandsFrom (quote : Option UInt8) (ht : (0 : UInt8) ∉ t) :
    ∀ c ∈ commandsFrom quote t, (0 : UInt8) ∉ c := by
  induction t generalizing quote with
  | nil => cases quote <;> simp [commandsFrom]
  | cons d t ih =>
    rw [List.mem_cons, not_or] at ht
    have hcons : ∀ cs : List CStr, (∀ c ∈ cs, (0 : UInt8) ∉ c) →
        ∀ c ∈ consHead d cs, (0 : UInt8) ∉ c := by
      intro cs hcs
      cases cs with
      | nil => simpa [consHead] using ht.1
      | cons t ts =>
        rw [consHead, List.forall_mem_cons]
        rw [List.forall_mem_cons] at hcs
        exact ⟨by rw [List.mem_cons, not_or]; exact ⟨ht.1, hcs.1⟩, hcs.2⟩
    cases quote <;> rw [commandsFrom]
    · split
      · rw [List.forall_mem_cons]
        exact ⟨List.not_mem_nil, ih _ ht.2⟩
      · exact hcons _ (ih _ ht.2)
    · exact hcons _ (ih _ ht.2)

/-! ## §2 Reading and writing buffers -/

theorem textAt_append (b rest : List UInt8) (ht : (0 : UInt8) ∉ t) :
    textAt (b ++ (t ++ 0 :: rest)) b.length = t := by
  rw [textAt, List.drop_left, List.takeWhile_append_of_pos, List.takeWhile_cons_of_neg,
    List.append_nil]
  · simp
  · intro c hc
    exact decide_eq_true fun h0 => ht (h0 ▸ hc)

theorem zero_notMem_textAt (b : List UInt8) (off : ℕ) : (0 : UInt8) ∉ textAt b off := by
  intro h
  simpa using List.mem_takeWhile_imp h

theorem textAt_congr (h : b.drop off = b'.drop off) : textAt b off = textAt b' off := by
  rw [textAt, textAt, h]

/-- A buffer with a terminator is its first string and what follows. -/
theorem eq_textAt_zero (h : (0 : UInt8) ∈ b) : ∃ rest, b = textAt b 0 ++ 0 :: rest := by
  induction b with
  | nil => cases h
  | cons c b ih =>
    by_cases hc : c = 0
    · exact ⟨b, by simp [textAt, hc]⟩
    · obtain ⟨rest, hrest⟩ := ih ((List.mem_cons.mp h).resolve_left (Ne.symm hc))
      refine ⟨rest, ?_⟩
      rw [textAt, List.drop_zero, List.takeWhile_cons_of_pos (by simpa using hc), List.cons_append]
      exact congrArg _ hrest

/-- Reading strings that stand one behind the other. -/
theorem map_textAt_starts (b rest : List UInt8) (hcs : ∀ c ∈ cs, (0 : UInt8) ∉ c) :
    (starts b.length cs).map (textAt (b ++ (strings cs ++ rest))) = cs := by
  induction cs generalizing b with
  | nil => rfl
  | cons c cs ih =>
    rw [List.forall_mem_cons] at hcs
    have hread := textAt_append b (strings cs ++ rest) hcs.1
    have hstep := ih (b ++ (c ++ [0])) hcs.2
    have hbuf : b ++ (c ++ [0]) ++ (strings cs ++ rest) = b ++ (strings (c :: cs) ++ rest) := by
      simp
    rw [hbuf, List.length_append, List.length_append, List.length_singleton, ← Nat.add_assoc] at hstep
    rw [starts, List.map_cons, hstep, ← hbuf]
    rw [show b ++ (c ++ [0]) ++ (strings cs ++ rest) = b ++ (c ++ 0 :: (strings cs ++ rest)) by simp,
      hread]

theorem starts_drop : (starts i cs).drop n =
    starts (i + (strings (cs.take n)).length) (cs.drop n) := by
  induction cs generalizing i n with
  | nil => simp [starts]
  | cons c cs ih =>
    cases n with
    | zero => rfl
    | succ n =>
      rw [starts, List.drop_succ_cons, ih, List.take_succ_cons, List.drop_succ_cons, strings_cons,
        List.length_append, List.length_cons,
        show i + c.length + 1 + (strings (cs.take n)).length =
          i + (c.length + ((strings (cs.take n)).length + 1)) by omega]

theorem le_of_mem_starts (h : off ∈ starts i cs) : i ≤ off := by
  induction cs generalizing i with
  | nil => cases h
  | cons c cs ih =>
    rcases List.mem_cons.mp h with rfl | h
    · exact Nat.le_refl _
    · have := ih h
      omega

theorem length_starts : (starts i cs).length = cs.length := by
  induction cs generalizing i with
  | nil => rfl
  | cons c cs ih => rw [starts, List.length_cons, ih, List.length_cons]

/-- Overwriting a string by as many bytes leaves what comes behind it. -/
theorem drop_overwrite {bytes : List UInt8} (hlen : bytes.length = (textAt b off).length)
    (hoff : off + (textAt b off).length ≤ off') :
    (b.take off ++ bytes ++ b.drop (off + (textAt b off).length)).drop off' = b.drop off' := by
  have hle : (textAt b off).length ≤ b.length - off := by
    rw [textAt]
    exact Nat.le_trans (List.takeWhile_prefix _).length_le (Nat.le_of_eq List.length_drop)
  rcases Nat.le_total off b.length with hb | hb
  · have hpre : (b.take off ++ bytes).length = off + (textAt b off).length := by
      rw [List.length_append, List.length_take_of_le hb, hlen]
    obtain ⟨k, rfl⟩ := Nat.exists_eq_add_of_le hoff
    rw [← hpre, List.drop_length_add_append, List.drop_drop, hpre]
  · rw [List.drop_eq_nil_of_le (by omega : b.length ≤ off'), List.drop_eq_nil_of_le]
    rw [List.length_append, List.length_append, List.length_take, List.length_drop]
    omega

theorem length_cutChar : (cutChar p).1.length + (cutChar p).2.length = p.length := by
  cases p with
  | nil => rfl
  | cons c p => exact Nat.add_comm ..

/-- `argvize` leaves as many bytes as there were. -/
theorem length_argvizeLoop : (argvizeLoop n p).2.length = p.length := by
  induction n generalizing p with
  | zero => rfl
  | succ n ih =>
    have hsplit : ∀ (q : UInt8 → Bool) (l : List UInt8),
        (l.takeWhile q).length + (l.dropWhile q).length = l.length := fun q l => by
      rw [← List.length_append, List.takeWhile_append_dropWhile]
    have hblank := hsplit isBlank p
    rw [argvizeLoop]
    split
    · rfl
    · rename_i c rest hc
      rw [hc, List.length_cons] at hblank
      split
      · have hword := hsplit (· ≠ c) rest
        have hcut := length_cutChar (p := rest.dropWhile (· ≠ c))
        have hcut' := length_cutChar (p := (cutChar (rest.dropWhile (· ≠ c))).2)
        simp only [List.length_append, List.length_cons, ih]
        omega
      · have hword := hsplit (! isBlank ·) (c :: rest)
        have hcut := length_cutChar (p := (c :: rest).dropWhile (! isBlank ·))
        rw [List.length_cons] at hword
        simp only [List.length_append, ih]
        omega

/-! ## §3 The invariant -/

/-- The commands that a call of `do_cmd` has looked up, and those it still points to, are those
of its line. -/
structure FrameOk (b : List UInt8) (f : Frame) : Prop where
  cmdlist_eq : f.cmdlist = starts 0 (commands f.line)
  table : f.cmdlist.length ≤ 20
  texts : f.ran ++ (f.cmdlist.drop f.ran.length).map (textAt b) = commands f.line
  pos : f.ran.length = f.j + if f.running then 1 else 0
  lt : f.j < f.cmdlist.length

/-- Calls that share `expline`: what an inner one works on ends before the next command of an
outer one. -/
def Apart (f g : Frame) : Prop :=
  f.shared → g.shared → ∀ off ∈ g.cmdlist.drop g.ran.length, f.line.length < off

structure ShellOk (s : Shell) : Prop where
  frames : ∀ f ∈ s.stack, FrameOk (s.buffer f) f
  apart : s.stack.Pairwise Apart
  log : ∀ d ∈ s.log, d.ran <+: commands d.line ∧ (d.stat = 0 → d.ran = commands d.line)

theorem FrameOk.congr (h : FrameOk b f)
    (hb : ∀ off ∈ f.cmdlist.drop f.ran.length, b.drop off = b'.drop off) : FrameOk b' f :=
  { h with
    texts := by
      rw [← h.texts]
      exact congrArg _ (List.map_congr_left fun off hoff => (textAt_congr (hb off hoff)).symm) }

theorem FrameOk.ran_begins (h : FrameOk b f) : f.ran <+: commands f.line := ⟨_, h.texts⟩

theorem commands_length_ran (h : FrameOk b f) (hall : f.cmdlist.length ≤ f.ran.length) :
    f.ran = commands f.line := by
  have := h.texts
  rwa [List.drop_eq_nil_of_le hall, List.map_nil, List.append_nil] at this

/-- The next command of a call: where it is, and what comes behind it. -/
theorem FrameOk.next (h : FrameOk b f) (hrun : f.running = false)
    (hoff : f.cmdlist.getD f.j 0 = off) :
    ∃ cs, (commands f.line).drop f.j = textAt b off :: cs ∧
      f.cmdlist.drop f.j = off :: starts (off + (textAt b off).length + 1) cs ∧
      off + (textAt b off).length ≤ f.line.length := by
  have hpos : f.ran.length = f.j := by rw [h.pos, hrun]; rfl
  have hdrop : f.cmdlist.drop f.j = off :: f.cmdlist.drop (f.j + 1) := by
    rw [List.getD_eq_getElem?_getD, List.getElem?_eq_getElem h.lt] at hoff
    rw [List.drop_eq_getElem_cons h.lt]
    exact congrArg (· :: _) hoff
  have hcmds : (commands f.line).drop f.j =
      textAt b off :: (f.cmdlist.drop (f.j + 1)).map (textAt b) := by
    rw [← h.texts, ← hpos, List.drop_left, hpos, hdrop, List.map_cons]
  have hstarts : f.cmdlist.drop f.j = starts (strings ((commands f.line).take f.j)).length
      ((commands f.line).drop f.j) := by
    rw [h.cmdlist_eq, starts_drop, Nat.zero_add]
  rw [hcmds, hdrop, starts] at hstarts
  obtain ⟨hhead, htail⟩ := List.cons.inj hstarts
  refine ⟨_, hcmds, ?_, ?_⟩
  · rw [hdrop]
    refine congrArg _ (htail.trans ?_)
    rw [hhead]
  · have hlen : (strings (commands f.line)).length = f.line.length + 1 :=
      length_strings_commandsFrom
    rw [← List.take_append_drop f.j (commands f.line), hcmds, strings_append, List.length_append,
      ← hhead, strings_cons, List.length_append, List.length_cons] at hlen
    omega

/-! ## §4 The steps -/

theorem ShellOk.leave {stat : ℤ} (h : ShellOk s) (hstack : s.stack = f :: fs)
    (hran : f.ran <+: commands f.line) (hstat : stat = 0 → f.ran = commands f.line) :
    ShellOk (s.leave f stat fs) where
  frames g hg := h.frames g (hstack ▸ List.mem_cons_of_mem f hg)
  apart := (List.pairwise_cons.mp (hstack ▸ h.apart)).2
  log d hd := by
    rcases List.mem_append.mp hd with hd | hd
    · exact h.log d hd
    · rw [List.mem_singleton.mp hd]
      exact ⟨hran, hstat⟩

theorem finish_ok {stat : ℤ} (h : ShellOk s) (hstack : s.stack = f :: fs)
    (hrun : f.running = true) : ShellOk (s.finish f stat fs) := by
  have hf := h.frames f (hstack ▸ List.mem_cons_self)
  have hpos : f.ran.length = f.j + 1 := by rw [hf.pos, hrun]; rfl
  have hpair := List.pairwise_cons.mp (hstack ▸ h.apart)
  unfold Shell.finish
  split
  · rename_i hstat
    exact h.leave hstack hf.ran_begins fun h0 => absurd h0 hstat
  split
  · rename_i hmore
    refine ⟨fun g hg => ?_, List.pairwise_cons.mpr hpair, h.log⟩
    rcases List.mem_cons.mp hg with rfl | hg
    · exact { hf with pos := hpos, lt := hmore }
    · exact h.frames g (hstack ▸ List.mem_cons_of_mem f hg)
  · rename_i hlast
    exact h.leave hstack hf.ran_begins fun _ => commands_length_ran hf (by omega)

/-- **A command is looked up**: it is the next one of its line, and taking it apart leaves all
others that are still to be run. -/
theorem fetch_ok (h : ShellOk s) (hstack : s.stack = f :: fs) (hrun : f.running = false) :
    ShellOk (s.fetch f fs) := by
  have hf := h.frames f (hstack ▸ List.mem_cons_self)
  have hpos : f.ran.length = f.j := by rw [hf.pos, hrun]; rfl
  have hpair := List.pairwise_cons.mp (hstack ▸ h.apart)
  obtain ⟨cs, hcmds, hdrop, hend⟩ := hf.next hrun rfl
  generalize hoff : f.cmdlist.getD f.j 0 = off at *
  generalize htext : textAt (s.buffer f) off = text at *
  generalize hb' : (s.buffer f).take off ++ (argvize text).2 ++
    (s.buffer f).drop (off + text.length) = b'
  have hkeep : ∀ off', off + text.length ≤ off' → (s.buffer f).drop off' = b'.drop off' := by
    intro off' hle
    rw [← hb', ← htext] at *
    exact (drop_overwrite (by rw [argvize, length_argvizeLoop]) hle).symm
  have hran : f.ran ++ [text] ++ cs = commands f.line := by
    rw [List.append_assoc, List.singleton_append, ← hcmds, ← hpos]
    exact List.prefix_iff_eq_append.mp hf.ran_begins
  -- what all branches do to the other calls
  have hothers : ∀ g ∈ fs,
      FrameOk ({ s with expline := if f.shared then b' else s.expline }.buffer g) g := by
    intro g hg
    have hgok := h.frames g (hstack ▸ List.mem_cons_of_mem f hg)
    refine hgok.congr fun off' hoff' => ?_
    have happ := hpair.1 g hg
    unfold Apart at happ
    unfold Shell.buffer at *
    cases hgs : g.shared <;> cases hfs : f.shared
    · rfl
    · rfl
    · rfl
    · simp only [hfs, hgs, if_true] at *
      have := happ trivial trivial off' hoff'
      exact hkeep off' (by omega)
  have hleave : ∀ r, ShellOk (Shell.leave
      { s with expline := if f.shared then b' else s.expline, repeating := r }
      { f with buf := if f.shared then f.buf else b', ran := f.ran ++ [text] } (-1) fs) := by
    intro r
    refine ⟨hothers, hpair.2, fun d hd => ?_⟩
    rcases List.mem_append.mp hd with hd | hd
    · exact h.log d hd
    · rw [List.mem_singleton.mp hd]
      have hneg : (-1 : ℤ) ≠ 0 := by decide
      exact ⟨⟨cs, hran⟩, fun h0 => absurd h0 hneg⟩
  have hrunning : ShellOk
      { s with
        expline := if f.shared then b' else s.expline
        stack :=
          { f with
            buf := if f.shared then f.buf else b'
            ran := f.ran ++ [text]
            running := true } :: fs } := by
    refine ⟨fun g hg => ?_, List.pairwise_cons.mpr hpair, h.log⟩
    rcases List.mem_cons.mp hg with rfl | hg
    swap
    · exact hothers g hg
    have hbuf : (if f.shared then if f.shared then b' else s.expline
        else if f.shared then f.buf else b') = b' := by cases f.shared <;> rfl
    have hlen : (f.ran ++ [text]).length = f.j + 1 := by
      rw [List.length_append, List.length_singleton, hpos]
    have hrest : f.cmdlist.drop (f.j + 1) = starts (off + text.length + 1) cs := by
      rw [← List.tail_drop, hdrop, List.tail_cons]
    have hread : (f.cmdlist.drop (f.j + 1)).map (textAt b') = cs := by
      have htexts := hf.texts
      rw [hpos, hdrop, ← hran, List.append_assoc, List.append_cancel_left_eq, List.map_cons, htext,
        ← hrest, List.singleton_append] at htexts
      rw [← (List.cons.inj htexts).2]
      refine List.map_congr_left fun off' hoff' => (textAt_congr (hkeep off' ?_)).symm
      have := le_of_mem_starts (hrest ▸ hoff')
      omega
    refine { hf with texts := ?_, pos := hlen }
    change f.ran ++ [text] ++ (f.cmdlist.drop (f.ran ++ [text]).length).map
      (textAt (if f.shared then if f.shared then b' else s.expline
        else if f.shared then f.buf else b')) = _
    rw [hbuf, hlen, hread, hran]
  unfold Shell.fetch
  dsimp only
  rw [hoff, htext, hb']
  split
  · exact hleave _
  split
  · exact hleave _
  split
  · exact hleave _
  split
  · exact hleave _
  split
  · exact hleave _
  · exact hrunning

/-- The commands of `f` that are still to be looked up are in front of `expline`'s byte `n`. -/
def Untouched (n : ℕ) (f : Frame) : Prop :=
  f.shared → ∀ off ∈ f.cmdlist.drop f.ran.length, n ≤ off

/-- Writing to the beginning of `expline`. -/
theorem ShellOk.write (h : ShellOk s) {e : List UInt8} (hlow : ∀ f ∈ s.stack, Untouched n f)
    (he : ∀ off, n ≤ off → s.expline.drop off = e.drop off) : ShellOk { s with expline := e } where
  frames f hf := by
    refine (h.frames f hf).congr fun off hoff => ?_
    have hlow' := hlow f hf
    unfold Untouched at hlow'
    unfold Shell.buffer
    cases hsh : f.shared
    · rfl
    · exact he off (hlow' hsh off hoff)
  apart := h.apart
  log := h.log

/-- **A line is cut up**, in `expline` or in the caller's buffer. -/
theorem split_ok {shared : Bool} (h : ShellOk s) (hz : (0 : UInt8) ∈ b)
    (hcount : (commands (textAt b 0)).length ≤ 20)
    (hshared : shared → s.expline = b ∧ ∀ f ∈ s.stack, Untouched ((textAt b 0).length + 1) f) :
    ShellOk (s.split shared b) := by
  obtain ⟨rest, hb⟩ := eq_textAt_zero hz
  have hzero := zero_notMem_textAt b 0
  obtain ⟨hbytes, hoffs⟩ := splitLoop_commands none 0 rest hzero
  rw [← hb] at hbytes hoffs
  unfold Shell.split
  dsimp only
  generalize textAt b 0 = line at *
  have hcmds : commandsFrom none line = commands line := rfl
  have hlen : (strings (commands line)).length = line.length + 1 := length_strings_commandsFrom
  have hkeep : ∀ off, line.length + 1 ≤ off →
      b.drop off = (strings (commands line) ++ rest).drop off := by
    intro off hoff
    obtain ⟨k, rfl⟩ := Nat.exists_eq_add_of_le hoff
    have hb' : b = (line ++ [0]) ++ rest := by rw [hb, List.append_assoc]; rfl
    have hlen' : (line ++ [0]).length = line.length + 1 := by simp
    rw [← hlen, List.drop_length_add_append, hlen, hb', ← hlen', List.drop_length_add_append]
  have hwrite : ShellOk
      { s with expline := if shared then (splitLoop none 0 b).1 else s.expline } := by
    cases hsh : shared
    · exact ⟨h.frames, h.apart, h.log⟩
    · obtain ⟨hexp, hlow⟩ := hshared hsh
      refine h.write hlow fun off hoff => ?_
      rw [hexp, hkeep off hoff, ← hcmds, ← hbytes]
      rfl
  split
  swap
  · exact hwrite
  have hstarts : 0 :: (splitLoop none 0 b).2.1 = starts 0 (commands line) := by
    rw [hoffs, hcmds]
    exact (starts_eq_cons commandsFrom_ne_nil).symm
  refine ⟨fun f hf => ?_, List.pairwise_cons.mpr ⟨fun g hg => ?_, hwrite.apart⟩, hwrite.log⟩
  · rcases List.mem_cons.mp hf with rfl | hf
    swap
    · exact hwrite.frames f hf
    refine ⟨hstarts, ?_, ?_, rfl, Nat.succ_pos _⟩
    · change (0 :: (splitLoop none 0 b).2.1).length ≤ 20
      rw [hstarts, length_starts]
      exact hcount
    · have hread := map_textAt_starts [] rest (not_mem_commandsFrom none hzero)
      change [] ++ (0 :: (splitLoop none 0 b).2.1).map (textAt (if shared
        then (if shared then (splitLoop none 0 b).1 else s.expline) else (splitLoop none 0 b).1)) = _
      rw [hstarts, hbytes]
      cases shared <;> exact hread
  · intro hsh hgsh off hoff
    have hlow := (hshared hsh).2 g hg hgsh off hoff
    exact hlow

/-! ## §5 Runs -/

/-- The line that a call of `do_cmd` gets after expansion. -/
def Shell.expanded (s : Shell) (p : List UInt8) : Option CStr :=
  match s.input p with
  | none => none
  | some b =>
    if 0x24 ∈ textAt b 0 then
      if (expand s.getenv b).2 then some (textAt ((expand s.getenv b).1 ++ [0]) 0) else none
    else some (textAt b 0)

/-- How far a call of `do_cmd` writes into `expline`. -/
def Shell.written (s : Shell) (p : List UInt8) : ℕ :=
  match s.input p with
  | none => 0
  | some b =>
    if 0x24 ∈ textAt b 0 then
      (expand s.getenv b).1.length + if (expand s.getenv b).2 then 1 else 0
    else 0

/-- **The condition on a step.**  A call of `do_cmd` gets a line with at most 20 commands, and
does not write into `expline` as far as a command that is still to be run. -/
def StepOk (s : Shell) : Event → Prop
  | .enter p =>
    (∀ line, s.expanded p = some line → (commands line).length ≤ 20) ∧
      ∀ f ∈ s.stack, Untouched (s.written p) f
  | _ => True

theorem zero_mem_input (h : s.input p = some b) : (0 : UInt8) ∈ b := by
  unfold Shell.input at h
  split at h
  · obtain ⟨t, -, rfl⟩ := Option.map_eq_some_iff.mp h
    simp
  · cases h
    simp

theorem textAt_terminated {out : CStr} :
    textAt (out ++ 0 :: rest) 0 = out.takeWhile (· ≠ 0) := by
  rw [textAt, List.drop_zero, List.takeWhile_append, List.takeWhile_cons_of_neg (by simp)]
  split
  · rename_i hall
    rw [List.append_nil]
    exact ((List.takeWhile_prefix _).eq_of_length hall).symm
  · rfl

theorem enter_ok (h : ShellOk s) (hok : StepOk s (.enter p)) : ShellOk (s.enter p) := by
  obtain ⟨hcount, hlow⟩ := hok
  unfold Shell.expanded at hcount
  unfold Shell.written at hlow
  unfold Shell.enter
  cases hin : s.input p with
  | none => exact ⟨h.frames, h.apart, h.log⟩
  | some b =>
    rw [hin] at hcount hlow
    dsimp only at hcount hlow ⊢
    split at hcount
    · rename_i hdollar
      rw [if_pos hdollar] at hlow ⊢
      cases hexp : expand s.getenv b with
      | mk out ok =>
        rw [hexp] at hcount hlow
        cases ok with
        | true =>
          have hlow' : ∀ f ∈ s.stack, Untouched (out.length + 1) f := hlow
          have hline : textAt (out ++ 0 :: s.expline.drop (out.length + 1)) 0 =
              textAt (out ++ [0]) 0 := textAt_terminated.trans textAt_terminated.symm
          have hkeep : ∀ off, out.length + 1 ≤ off → s.expline.drop off =
              (out ++ 0 :: s.expline.drop (out.length + 1)).drop off := by
            intro off hoff
            obtain ⟨k, rfl⟩ := Nat.exists_eq_add_of_le hoff
            rw [← List.drop_drop, Nat.add_assoc, List.drop_length_add_append, Nat.add_comm 1 k,
              List.drop_succ_cons]
          have hwrite := h.write hlow' hkeep
          change ShellOk (Shell.split
            { s with
              expline := out ++ 0 :: s.expline.drop (out.length + 1)
              repeating := _ } true _)
          refine split_ok ⟨hwrite.frames, hwrite.apart, hwrite.log⟩ (by simp) ?_
            fun _ => ⟨rfl, fun f hf hsh off hoff => ?_⟩
          · rw [hline]
            exact hcount _ rfl
          · have hle : (out.takeWhile (· ≠ 0)).length ≤ out.length :=
              (List.takeWhile_prefix _).length_le
            have := hlow' f hf hsh off hoff
            rw [textAt_terminated]
            omega
        | false =>
          have hlow' : ∀ f ∈ s.stack, Untouched out.length f := hlow
          have hkeep : ∀ off, out.length ≤ off → s.expline.drop off =
              (out ++ s.expline.drop out.length).drop off := by
            intro off hoff
            obtain ⟨k, rfl⟩ := Nat.exists_eq_add_of_le hoff
            rw [← List.drop_drop, List.drop_length_add_append]
          have hwrite := h.write hlow' hkeep
          exact ⟨hwrite.frames, hwrite.apart, hwrite.log⟩
    · rename_i hdollar
      rw [if_neg hdollar]
      refine split_ok ⟨h.frames, h.apart, h.log⟩ (zero_mem_input hin) (hcount _ rfl) ?_
      exact fun hsh => by cases hsh

theorem step_ok {e : Event} (h : ShellOk s) (hok : StepOk s e) (hstep : s.StepsTo e s') :
    ShellOk s' := by
  unfold Shell.StepsTo at hstep
  cases e with
  | enter p =>
    have henter := enter_ok h hok
    unfold Shell.step at hstep
    dsimp only at hstep
    split at hstep
    · cases hstep
      exact henter
    · split at hstep
      · cases hstep
        exact henter
      · cases hstep
  | fetch =>
    unfold Shell.step at hstep
    dsimp only at hstep
    split at hstep
    · cases hstep
    · rename_i f fs hstack
      split at hstep
      · cases hstep
      · rename_i hrun
        cases hstep
        exact fetch_ok h hstack (Bool.not_eq_true _ ▸ hrun)
  | finish stat =>
    unfold Shell.step at hstep
    dsimp only at hstep
    split at hstep
    · cases hstep
    · rename_i f fs hstack
      split at hstep
      · rename_i hrun
        cases hstep
        exact finish_ok h hstack hrun
      · cases hstep
  | setenv getenv rptcmd last =>
    cases hstep
    exact ⟨h.frames, h.apart, h.log⟩

/-- **The command parser.**  In every run of calls of `do_cmd`, nested in any way, whose steps all
meet `StepOk`, no command table ever gets more than its 20 entries, and every call looks the
commands of its line up in order, each with the text it had when the line was expanded; one that
returns 0 has run them all. -/
theorem commands_exact (s s' : Shell) (events : List Event) (hstack : s.stack = [])
    (hlog : s.log = []) (hrun : Run (Guarded Shell.StepsTo StepOk) s events s') :
    (∀ f ∈ s'.stack, f.cmdlist.length ≤ 20 ∧ f.ran <+: commands f.line) ∧
      ∀ d ∈ s'.log, d.ran <+: commands d.line ∧ (d.stat = 0 → d.ran = commands d.line) := by
  have hstart : ShellOk s := by
    refine ⟨fun f hf => ?_, ?_, fun d hd => ?_⟩
    · rw [hstack] at hf
      cases hf
    · rw [hstack]
      exact List.Pairwise.nil
    · rw [hlog] at hd
      cases hd
  have h := hrun.invariant (fun _ _ _ hs hl => step_ok hs hl.2 hl.1) hstart
  exact ⟨fun f hf => ⟨(h.frames f hf).table, (h.frames f hf).ran_begins⟩, h.log⟩

/-! ## §6 Two lines that go wrong -/

/-- A shell with the commands `loop` and `h`, and a variable `v` of a few words. -/
def smallShell : Shell where
  cmdList := [[⟨[], 0, 0, false, false⟩, ⟨ascii "loop", 0, 99, true, false⟩,
    ⟨ascii "h", 1, 99, false, false⟩]]
  expline := List.replicate 208 0
  getenv name := if name = ascii "v" then some (ascii "h hh hh hh hh") else none
  rptcmd := 0
  last := []
  repeating := false
  stack := []
  log := []

theorem commands_exact_two :
    ∃ s', Run (Guarded Shell.StepsTo StepOk) smallShell
        [.enter (ascii "loop;h"), .fetch, .finish 0, .fetch, .finish 0] s' ∧
      ∀ d ∈ s'.log, d.ran <+: commands d.line ∧ (d.stat = 0 → d.ran = commands d.line) := by
  have hok : StepOk smallShell (.enter (ascii "loop;h")) := by
    refine ⟨fun line hline => ?_, fun f hf => by cases hf⟩
    have hexp : smallShell.expanded (ascii "loop;h") = some (ascii "loop;h") := by decide
    rw [hexp] at hline
    cases hline
    decide
  have hrun : Run (Guarded Shell.StepsTo StepOk) smallShell
      [.enter (ascii "loop;h"), .fetch, .finish 0, .fetch, .finish 0] _ :=
    .cons ⟨rfl, hok⟩ (.cons ⟨rfl, trivial⟩ (.cons ⟨rfl, trivial⟩ (.cons ⟨rfl, trivial⟩
      (.cons ⟨rfl, trivial⟩ (.nil _)))))
  exact ⟨_, hrun, (commands_exact _ _ _ rfl rfl hrun).2⟩

/-- In `loop 1 $$v;h` the first command calls `do_cmd` on `$v `, whose expansion goes over the
`h`; and a line of 21 commands gets 21 entries into the table of 20. -/
theorem loop_overwrites :
    ([Event.enter (ascii "loop 1 $$v;h"), .fetch, .enter (ascii "$v "), .fetch, .finish 0,
        .finish 0, .fetch].foldlM Shell.step smallShell).map
          (fun s => s.log.map fun d => (d.line, d.ran)) =
      some [(ascii "h hh hh hh hh ", [ascii "h hh hh hh hh "]),
        (ascii "loop 1 $v;h", [ascii "loop 1 $v", []])] ∧
      commands (ascii "loop 1 $v;h") = [ascii "loop 1 $v", ascii "h"] ∧
      (smallShell.enter (ascii "h;h;h;h;h;h;h;h;h;h;h;h;h;h;h;h;h;h;h;h;h")).stack.map
        (fun f => f.cmdlist.length) = [21] := by
  decide

end Pmon.Cmds
