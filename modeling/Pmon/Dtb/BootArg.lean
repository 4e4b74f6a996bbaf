import Mathlib.Data.List.GetD
import Pmon.Dtb.VerifyDtb
import Pmon.Libc.Strings

/-!
# The kernel's arguments

`update_bootarg` of `Targets/LS2K/dev/load_dtb.c` joins the arguments of the kernel in a buffer on
the stack and sets `bootargs` of the node `/chosen`.

The buffer is counted from its start, so that a place below zero or from 514 on lies outside, and
every store is noted.

## Key results

- `argLoop_spec`: the loop stays inside as long as there is room for the next argument.
- `updateBootarg_exact`: exactly when the tree gets the joined arguments and nothing outside the
  buffer is written.
- `longArgs_outside`: with the buffer full, one more argument writes over the whole memory.
-/

namespace Pmon.Dtb

open Pmon.Libc

/-! ## §1 The buffer -/

/-- `COMMAND_LINE_SIZE`. -/
def commandLineSize : ℕ := 512

/-- `sizeof (new_arg)`. -/
def newArgSize : ℕ := commandLineSize + 2

/-- The stack from `new_arg` on, the place of `p`, and where something was stored. -/
structure ArgState where
  buf : ℤ → UInt8
  p : ℤ
  wrote : List (ℤ × ℕ)

namespace ArgState

/-- `strncpy (p, s, n)`. -/
def strncpy (st : ArgState) (s : CStr) (n : ℕ) : ArgState where
  buf := fun a => if st.p ≤ a ∧ a < st.p + n then s.getD (a - st.p).toNat 0 else st.buf a
  p := st.p
  wrote := (st.p, n) :: st.wrote

/-- `*p = c`. -/
def put (st : ArgState) (c : UInt8) : ArgState where
  buf := fun a => if a = st.p then c else st.buf a
  p := st.p
  wrote := (st.p, 1) :: st.wrote

/-- `p += d`. -/
def advance (st : ArgState) (d : ℤ) : ArgState := { st with p := st.p + d }

/-- The body of the loop.  The number of bytes is a `size_t`, the other one an `int`. -/
def append (st : ArgState) (arg : CStr) : ArgState :=
  let st := st.strncpy arg ((commandLineSize - st.p) % 4294967296).toNat
  let st := st.advance (min arg.length (commandLineSize - st.p))
  (st.put 32).advance 1

end ArgState

/-- The loop over `av[1]` to `av[ac - 1]`. -/
def argLoop : List CStr → ArgState → ArgState
  | [], st => st
  | arg :: args, st =>
    -- `new_arg - p`, which is never positive
    if -st.p < commandLineSize then argLoop args (st.append arg) else st

/-- What is in the buffer in the end. -/
def newArg (av : List CStr) (stack : ℤ → UInt8) : ArgState :=
  ((argLoop av.tail ⟨stack, 0, []⟩).advance (-1)).put 0

/-- The string in the buffer; nothing where no NUL ends it there. -/
def bufText (st : ArgState) : Option CStr :=
  let bytes := (List.range newArgSize).map fun i : ℕ => st.buf i
  if 0 ∈ bytes then some (bytes.takeWhile (· != 0)) else none

/-! ## §2 The tree -/

/-- What `fdt_setprop` has to do with the node `/chosen` of a tree: whether it is there, its
    `bootargs`, whether the strings have that name, the total size, and how much of it is free. -/
structure ChosenTree where
  chosen : Bool
  bootargs : Option (List UInt8)
  named : Bool
  total : ℕ
  free : ℕ

/-- What `fdt_setprop` returns. -/
inductive SetErr where
  | ok
  | badOffset
  | noSpace
  deriving DecidableEq

namespace ChosenTree

/-- The name's place in the strings. -/
def nameGrowth (t : ChosenTree) : ℕ := if t.named then 0 else "bootargs".length + 1

/-- `fdt_setprop` of `bootargs`. -/
def setBootargs (t : ChosenTree) (val : List UInt8) : ChosenTree × SetErr :=
  if ¬t.chosen then (t, .badOffset)
  else
    match t.bootargs with
    | some old =>
      if tagAlign val.length ≤ t.free + tagAlign old.length then
        ({ t with bootargs := some val,
                  free := t.free + tagAlign old.length - tagAlign val.length }, .ok)
      else (t, .noSpace)
    | none =>
      if t.nameGrowth ≤ t.free then
        let t' : ChosenTree := { t with named := true, free := t.free - t.nameGrowth }
        if propHeader + tagAlign val.length ≤ t'.free then
          ({ t' with bootargs := some val,
                     free := t'.free - (propHeader + tagAlign val.length) }, .ok)
        else (t', .noSpace)
      else (t, .noSpace)

/-- `fdt_open_into` a buffer of `size` bytes that is large enough. -/
def openInto (t : ChosenTree) (size : ℕ) : ChosenTree :=
  { t with total := size, free := t.free + (size - t.total) }

end ChosenTree

/-- The size of the tree without the words around it. -/
def treeSize : ℕ := dtbSize - 8

/-- The attempts from `retry` on: what they leave in `ssp`.  No result within `fuel` attempts where
    the tree is opened again and again. -/
def retrySet (working : ChosenTree) (val : List UInt8) : ℕ → ChosenTree → Option ChosenTree
  | 0, _ => none
  | fuel + 1, ssp =>
    match ssp.setBootargs val with
    | (t, .noSpace) =>
      if working.total < treeSize then retrySet working val fuel (working.openInto treeSize)
      else some t
    | (t, _) => some t

/-- `update_bootarg`, called with a copy of the stored tree: the buffer and the tree. -/
def updateBootarg (fuel : ℕ) (av : List CStr) (stack : ℤ → UInt8) (working : ChosenTree) :
    Option (ArgState × ChosenTree) :=
  let st := newArg av stack
  (bufText st).bind fun s => (retrySet working (s ++ [0]) fuel working).map (st, ·)

/-! ## §3 What it is for -/

/-- An argument vector; its strings have no NUL inside. -/
structure ArgVector where
  av : List CStr
  plain : ∀ s ∈ av, 0 ∉ s

/-- The arguments behind the first, joined by spaces and cut. -/
def ArgVector.line (v : ArgVector) : CStr :=
  (List.intercalate [32] v.av.tail).take commandLineSize

/-- A store inside the buffer. -/
def Inside (r : ℤ × ℕ) : Prop := 0 ≤ r.1 ∧ r.1 + r.2 ≤ newArgSize

/-- `update_bootarg` returns with the line set in the tree, and has written nothing outside its
    buffer. -/
def BootargSet (v : ArgVector) (stack : ℤ → UInt8) (working : ChosenTree) : Prop :=
  ∃ fuel st t, updateBootarg fuel v.av stack working = some (st, t) ∧
    t.chosen = true ∧ t.bootargs = some (v.line ++ [0]) ∧ ∀ r ∈ st.wrote, Inside r

/-- There is an argument, and all but the last one, with a space behind each, have room. -/
def ArgsFit (v : ArgVector) : Prop :=
  v.av.tail ≠ [] ∧ ((v.av.tail.dropLast.map (· ++ [32])).flatten).length ≤ commandLineSize

/-- What the property takes of the free space. -/
def ChosenTree.Room (t : ChosenTree) (n : ℕ) : Prop :=
  match t.bootargs with
  | some old => tagAlign n ≤ t.free + tagAlign old.length
  | none => t.nameGrowth + propHeader + tagAlign n ≤ t.free

/-- The tree has the node, and room for the property, at last when it is opened again. -/
def TreeTakes (working : ChosenTree) (n : ℕ) : Prop :=
  working.chosen = true ∧
    (working.Room n ∨ (working.total < treeSize ∧ (working.openInto treeSize).Room n))

/-! ## §4 The loop -/

/-- The arguments with a space behind each. -/
def spaced (args : List CStr) : CStr := (args.map (· ++ [32])).flatten

@[simp] theorem spaced_nil : spaced [] = [] := rfl

@[simp] theorem spaced_append {as bs : List CStr} : spaced (as ++ bs) = spaced as ++ spaced bs := by
  simp [spaced]

theorem spaced_singleton (arg : CStr) : spaced [arg] = arg ++ [32] := by
  simp [spaced]

/-- The arguments of a full line, without the last space, are joined by spaces. -/
theorem spaced_eq_intercalate {args : List CStr} (h : args ≠ []) :
    spaced args = List.intercalate [32] args ++ [32] := by
  induction args with
  | nil => exact absurd rfl h
  | cons arg args ih =>
    cases args with
    | nil => simp [spaced]
    | cons arg' args =>
      have hrest := ih (List.cons_ne_nil _ _)
      have hcons : spaced (arg :: arg' :: args) = arg ++ [32] ++ spaced (arg' :: args) := by
        simp [spaced]
      rw [hcons, hrest, List.intercalate_cons_cons]
      simp

/-- The buffer after the arguments `done`: `p` is behind their spaces, and if they do not all have
    room, behind the byte 512, which is a space. -/
structure Filled (done : List CStr) (st : ArgState) : Prop where
  place : st.p = min (spaced done).length (commandLineSize + 1)
  text : ∀ i : ℕ, i < commandLineSize → i < (spaced done).length →
    st.buf i = (spaced done).getD i 0
  inside : ∀ r ∈ st.wrote, Inside r

variable {st : ArgState} {done args : List CStr}

theorem Filled.start (stack : ℤ → UInt8) : Filled [] ⟨stack, 0, []⟩ where
  place := rfl
  text := fun i _ hi => absurd hi (Nat.not_lt_zero i)
  inside := fun _ hr => absurd hr List.not_mem_nil

/-- **One argument** that finds room for a byte at least, or fills the buffer exactly. -/
theorem Filled.append (arg : CStr) (h : Filled done st)
    (hroom : (spaced done).length ≤ commandLineSize) :
    Filled (done ++ [arg]) (st.append arg) := by
  have hplace : st.p = (spaced done).length := by
    rw [h.place]
    omega
  have hcount : ((commandLineSize - st.p) % 4294967296).toNat =
      commandLineSize - (spaced done).length := by
    rw [hplace]
    unfold commandLineSize at *
    omega
  have hspaced : spaced (done ++ [arg]) = spaced done ++ (arg ++ [32]) := by
    rw [spaced_append, spaced_singleton]
  refine ⟨?_, ?_, ?_⟩
  · rw [hspaced]
    simp only [ArgState.append, ArgState.advance, ArgState.put, ArgState.strncpy, hplace,
      List.length_append, List.length_singleton]
    omega
  · intro i hi hlen
    rw [hspaced] at hlen ⊢
    simp only [List.length_append, List.length_singleton] at hlen
    simp only [ArgState.append, ArgState.advance, ArgState.put, ArgState.strncpy, hplace]
      at hcount ⊢
    rw [hcount]
    rcases Nat.lt_or_ge i (spaced done).length with hold | hnew
    · -- the arguments before
      rw [if_neg (by omega), if_neg (by omega), h.text i hi hold, List.getD_append _ _ _ _ hold]
    · rw [List.getD_append_right _ _ _ _ hnew]
      rcases Nat.lt_or_ge (i - (spaced done).length) arg.length with hin | hend
      · rw [if_neg (by omega), if_pos (by omega), List.getD_append _ _ _ _ hin]
        congr 1
        omega
      · rw [if_pos (by omega), List.getD_append_right _ _ _ _ hend]
        obtain rfl : i = (spaced done).length + arg.length := by omega
        simp
  · intro r hr
    simp only [ArgState.append, ArgState.advance, ArgState.put, ArgState.strncpy, List.mem_cons]
      at hr
    rcases hr with rfl | rfl | hr
    · simp only [Inside, hplace, newArgSize]
      omega
    · simp only [Inside, hplace, newArgSize] at hcount ⊢
      omega
    · exact h.inside r hr

theorem Filled.guard (h : Filled done st) : -st.p < commandLineSize := by
  rw [h.place]
  unfold commandLineSize
  omega

theorem wrote_argLoop {r : ℤ × ℕ} (hr : r ∈ st.wrote) : r ∈ (argLoop args st).wrote := by
  induction args generalizing st with
  | nil => exact hr
  | cons arg args ih =>
    rw [argLoop]
    split
    · apply ih
      simp only [ArgState.append, ArgState.advance, ArgState.put, ArgState.strncpy, List.mem_cons]
      exact .inr (.inr hr)
    · exact hr

/-- An argument behind a full buffer is copied with a size of -1. -/
theorem Filled.overrun (arg : CStr) (h : Filled done st)
    (hfull : commandLineSize < (spaced done).length) :
    ∃ r ∈ (st.append arg).wrote, ¬Inside r := by
  have hplace : st.p = commandLineSize + 1 := by
    rw [h.place]
    omega
  refine ⟨(st.p, ((commandLineSize - st.p) % 4294967296).toNat), ?_, ?_⟩
  · simp [ArgState.append, ArgState.advance, ArgState.put, ArgState.strncpy]
  · rw [hplace]
    unfold Inside newArgSize commandLineSize
    omega

/-- **The loop** stays inside, and fills the buffer, as long as there is room for each argument
    when its turn comes. -/
theorem argLoop_spec (args : List CStr) (h : Filled done st) :
    if args = [] ∨ (spaced (done ++ args.dropLast)).length ≤ commandLineSize then
      Filled (done ++ args) (argLoop args st)
    else ∃ r ∈ (argLoop args st).wrote, ¬Inside r := by
  induction args generalizing done st with
  | nil => simpa [argLoop] using h
  | cons arg args ih =>
    rw [argLoop, if_pos h.guard]
    by_cases hroom : (spaced done).length ≤ commandLineSize
    · have hnext := ih (h.append arg hroom)
      cases args with
      | nil =>
        rw [if_pos (.inl rfl)] at hnext
        rw [if_pos (.inr (by simpa using hroom))]
        simpa using hnext
      | cons arg' args =>
        simp only [List.append_assoc, List.singleton_append, List.cons_ne_nil, false_or,
          List.dropLast_cons_cons] at hnext ⊢
        exact hnext
    · -- the first argument that finds no room
      have hlong : ¬(spaced (done ++ (arg :: args).dropLast)).length ≤ commandLineSize := by
        rw [spaced_append, List.length_append]
        omega
      rw [if_neg (by simpa using hlong)]
      obtain ⟨r, hr, hout⟩ := h.overrun arg (Nat.lt_of_not_le hroom)
      exact ⟨r, wrote_argLoop hr, hout⟩

/-! ## §5 The line -/

variable {v : ArgVector}

/-- The arguments behind the first have no NUL inside. -/
theorem zero_not_mem_spaced (v : ArgVector) : 0 ∉ spaced v.av.tail := by
  rw [spaced, List.mem_flatten]
  rintro ⟨s, hs, hzero⟩
  obtain ⟨arg, harg, rfl⟩ := List.mem_map.mp hs
  rcases List.mem_append.mp hzero with hzero | hzero
  · exact v.plain arg (List.mem_of_mem_tail harg) hzero
  · exact absurd (List.mem_singleton.mp hzero) (by decide)

theorem length_line (hargs : v.av.tail ≠ []) :
    v.line.length = min ((spaced v.av.tail).length - 1) commandLineSize ∧
      v.line = (spaced v.av.tail).take v.line.length ∧ 0 < (spaced v.av.tail).length := by
  have hjoin := spaced_eq_intercalate hargs
  have hlen := congrArg List.length hjoin
  rw [List.length_append, List.length_singleton] at hlen
  have hline : v.line.length = min ((spaced v.av.tail).length - 1) commandLineSize := by
    rw [ArgVector.line, List.length_take]
    omega
  refine ⟨hline, ?_, by omega⟩
  rw [hline, hjoin, List.length_append, List.length_singleton, Nat.add_sub_cancel,
    List.take_append_of_le_length (by omega), ArgVector.line, Nat.min_comm, ← List.take_take,
    List.take_length]

/-- **What is in the buffer**: the line and a NUL, and nothing was stored outside. -/
theorem newArg_fit (hfit : ArgsFit v) (stack : ℤ → UInt8) :
    bufText (newArg v.av stack) = some v.line ∧ ∀ r ∈ (newArg v.av stack).wrote, Inside r := by
  have hloop := argLoop_spec v.av.tail (Filled.start stack)
  rw [if_pos (.inr (by simpa [spaced] using hfit.2)), List.nil_append] at hloop
  obtain ⟨hlen, hline, hpos⟩ := length_line hfit.1
  generalize hst : argLoop v.av.tail ⟨stack, 0, []⟩ = st at hloop
  have hend : st.p + -1 = v.line.length := by
    rw [hloop.place, hlen]
    omega
  have hbuf : ∀ i : ℕ, i < v.line.length → (newArg v.av stack).buf i = v.line.getD i 0 := by
    intro i hi
    rw [newArg, hst]
    simp only [ArgState.advance, ArgState.put, hend]
    rw [if_neg (by omega), hloop.text i (by omega) (by omega)]
    conv_rhs => rw [hline]
    rw [List.getD_eq_getElem?_getD, List.getD_eq_getElem?_getD, List.getElem?_take_of_lt hi]
  have hzero : (newArg v.av stack).buf v.line.length = 0 := by
    rw [newArg, hst]
    simp [ArgState.advance, ArgState.put, hend]
  constructor
  · have hle : v.line.length < newArgSize := by
      unfold newArgSize
      omega
    have hbytes : (List.range newArgSize).map (fun i : ℕ => (newArg v.av stack).buf i) =
        v.line ++ 0 :: ((List.range' (v.line.length + 1) (newArgSize - v.line.length - 1)).map
          fun i : ℕ => (newArg v.av stack).buf i) := by
      apply List.ext_getElem
      · simp
        omega
      · intro i h₁ h₂
        rw [List.getElem_map, List.getElem_range]
        rcases Nat.lt_trichotomy i v.line.length with hlt | rfl | hgt
        · rw [List.getElem_append_left hlt, hbuf i hlt, List.getD_eq_getElem _ _ hlt]
        · rw [hzero, List.getElem_append_right (Nat.le_refl _)]
          simp
        · rw [List.getElem_append_right (Nat.le_of_lt hgt)]
          obtain ⟨k, rfl⟩ := Nat.exists_eq_add_of_lt hgt
          simp [show v.line.length + k + 1 - v.line.length = k + 1 by omega,
            show v.line.length + 1 + k = v.line.length + k + 1 by omega]
    have hplain : ∀ b ∈ v.line, (b != 0) = true := by
      intro b hb
      rw [hline] at hb
      have hmem := List.mem_of_mem_take hb
      exact bne_iff_ne.mpr fun hz => zero_not_mem_spaced v (hz ▸ hmem)
    rw [bufText, hbytes, if_pos (by simp), List.takeWhile_append_of_pos hplain]
    simp
  · intro r hr
    rw [newArg, hst] at hr
    simp only [ArgState.advance, ArgState.put, hend, List.mem_cons] at hr
    rcases hr with rfl | hr
    · simp only [Inside, newArgSize]
      omega
    · exact hloop.inside r hr

/-- **What goes wrong**: something is stored outside. -/
theorem newArg_unfit (hunfit : ¬ArgsFit v) (stack : ℤ → UInt8) :
    ∃ r ∈ (newArg v.av stack).wrote, ¬Inside r := by
  by_cases hargs : v.av.tail = []
  · refine ⟨(-1, 1), ?_, by simp [Inside]⟩
    simp [newArg, hargs, argLoop, ArgState.advance, ArgState.put]
  · have hlong : ¬(spaced v.av.tail.dropLast).length ≤ commandLineSize := fun hfit =>
      hunfit ⟨hargs, hfit⟩
    have hloop := argLoop_spec v.av.tail (Filled.start stack)
    rw [if_neg (by simpa [hargs] using hlong)] at hloop
    obtain ⟨r, hr, hout⟩ := hloop
    refine ⟨r, ?_, hout⟩
    simp only [newArg, ArgState.advance, ArgState.put, List.mem_cons]
    exact .inr hr

/-! ## §6 The tree takes the line -/

variable {t working : ChosenTree} {val : List UInt8}

/-- **What `fdt_setprop` does** to a tree that has the node. -/
theorem setBootargs_spec (hchosen : t.chosen = true) :
    (t.Room val.length → ∃ t', t.setBootargs val = (t', .ok) ∧ t'.chosen = true ∧
      t'.bootargs = some val) ∧
    (¬t.Room val.length → ∃ t', t.setBootargs val = (t', .noSpace) ∧ t'.bootargs = t.bootargs) := by
  rw [ChosenTree.setBootargs, if_neg (by simp [hchosen])]
  unfold ChosenTree.Room
  cases hold : t.bootargs with
  | some old =>
    simp only
    refine ⟨fun hroom => ?_, fun hroom => ?_⟩
    · rw [if_pos hroom]
      exact ⟨_, rfl, hchosen, rfl⟩
    · rw [if_neg hroom]
      exact ⟨_, rfl, hold⟩
  | none =>
    simp only
    refine ⟨fun hroom => ?_, fun hroom => ?_⟩
    · rw [if_pos (by omega), if_pos (by omega)]
      exact ⟨_, rfl, hchosen, rfl⟩
    · split_ifs with hname hval
      · exact absurd hname (by omega)
      · exact ⟨_, rfl, rfl⟩
      · exact ⟨_, rfl, hold⟩

theorem setBootargs_missing (hchosen : t.chosen = false) : t.setBootargs val = (t, .badOffset) := by
  rw [ChosenTree.setBootargs, if_pos (by simp [hchosen])]

/-- An attempt with room. -/
theorem retrySet_room (hchosen : t.chosen = true) (hroom : t.Room val.length) (fuel : ℕ) :
    ∃ t', retrySet working val (fuel + 1) t = some t' ∧ t'.chosen = true ∧
      t'.bootargs = some val := by
  obtain ⟨t', hset, hspec⟩ := (setBootargs_spec hchosen).1 hroom
  rw [retrySet, hset]
  exact ⟨t', rfl, hspec⟩

/-- Without room in the opened tree, either, there is no end. -/
theorem retrySet_stuck (hchosen : working.chosen = true) (hsmall : working.total < treeSize)
    (hopened : ¬(working.openInto treeSize).Room val.length) (fuel : ℕ) :
    retrySet working val fuel (working.openInto treeSize) = none := by
  induction fuel with
  | zero => rfl
  | succ fuel ih =>
    obtain ⟨t', hset, -⟩ := (@setBootargs_spec (working.openInto treeSize) _ hchosen).2 hopened
    rw [retrySet, hset]
    simp only [hsmall, if_true]
    exact ih

/-- A value that is there already needs no room. -/
theorem room_of_same (hsame : working.bootargs = some val) : working.Room val.length := by
  rw [ChosenTree.Room, hsame]
  exact Nat.le_add_left _ _

/-- Without the node nothing is set. -/
theorem retrySet_missing (hchosen : working.chosen = false) {fuel : ℕ}
    (hset : retrySet working val fuel working = some t) : t.chosen = false := by
  cases fuel with
  | zero => exact absurd hset (by simp [retrySet])
  | succ fuel =>
    rw [retrySet, setBootargs_missing hchosen] at hset
    rw [← Option.some.inj hset, hchosen]

/-- **The attempts** set the property exactly where the tree takes it. -/
theorem retrySet_iff :
    (∃ fuel t', retrySet working val fuel working = some t' ∧ t'.chosen = true ∧
      t'.bootargs = some val) ↔ TreeTakes working val.length := by
  cases hchosen : working.chosen with
  | false =>
    refine iff_of_false ?_ fun h => by simp [TreeTakes, hchosen] at h
    rintro ⟨fuel, t', hset, hthere, -⟩
    rw [retrySet_missing hchosen hset] at hthere
    exact absurd hthere (by simp)
  | true =>
    simp only [TreeTakes, hchosen, true_and]
    by_cases hroom : working.Room val.length
    · obtain ⟨t', hspec⟩ := @retrySet_room working working val hchosen hroom 0
      exact iff_of_true ⟨1, t', hspec⟩ (.inl hroom)
    obtain ⟨t₁, hfirst, hold⟩ := (setBootargs_spec hchosen).2 hroom
    by_cases hsmall : working.total < treeSize
    · by_cases hopened : (working.openInto treeSize).Room val.length
      · obtain ⟨t', hspec⟩ :=
          @retrySet_room (working.openInto treeSize) working val hchosen hopened 0
        refine iff_of_true ⟨2, t', ?_⟩ (.inr ⟨hsmall, hopened⟩)
        rw [retrySet, hfirst]
        simpa only [hsmall, if_true] using hspec
      · refine iff_of_false ?_ fun h => h.elim hroom fun h => hopened h.2
        rintro ⟨fuel, t', hset, -⟩
        cases fuel with
        | zero => exact absurd hset (by simp [retrySet])
        | succ fuel =>
          rw [retrySet, hfirst] at hset
          simp only [hsmall, if_true, retrySet_stuck hchosen hsmall hopened] at hset
          exact absurd hset (by simp)
    · refine iff_of_false ?_ fun h => h.elim hroom fun h => hsmall h.1
      rintro ⟨fuel, t', hset, -, hnew⟩
      cases fuel with
      | zero => exact absurd hset (by simp [retrySet])
      | succ fuel =>
        rw [retrySet, hfirst] at hset
        simp only [hsmall, if_false, Option.some.injEq] at hset
        -- the old value is not the new one, which had no room
        rw [← hset, hold] at hnew
        exact hroom (room_of_same hnew)

theorem not_bootargSet (hunfit : ¬ArgsFit v) (stack : ℤ → UInt8) (working : ChosenTree) :
    ¬BootargSet v stack working := by
  rintro ⟨fuel, st, t, hrun, -, -, hinside⟩
  obtain ⟨r, hr, hout⟩ := newArg_unfit hunfit stack
  rw [updateBootarg, Option.bind_eq_some_iff] at hrun
  obtain ⟨s, -, hmap⟩ := hrun
  obtain ⟨t', -, hpair⟩ := Option.map_eq_some_iff.mp hmap
  obtain ⟨rfl, rfl⟩ := Prod.mk.inj hpair
  exact hout (hinside r hr)

/-- **`update_bootarg`**: for every argument vector, whatever the stack held before, `bootargs` is
    set to the arguments joined by single spaces and cut, and nothing outside the buffer is
    written, exactly where all arguments but the last have room in the buffer, there is one, and
    the tree takes the line. -/
theorem updateBootarg_exact (v : ArgVector) (stack : ℤ → UInt8) (working : ChosenTree) :
    BootargSet v stack working ↔ ArgsFit v ∧ TreeTakes working (v.line.length + 1) := by
  by_cases hfit : ArgsFit v
  · obtain ⟨htext, hinside⟩ := newArg_fit hfit stack
    have hval : (v.line ++ [0]).length = v.line.length + 1 := by simp
    have hset : BootargSet v stack working ↔
        ∃ fuel t', retrySet working (v.line ++ [0]) fuel working = some t' ∧ t'.chosen = true ∧
          t'.bootargs = some (v.line ++ [0]) := by
      constructor
      · rintro ⟨fuel, st, t, hrun, hchosen, hargs, -⟩
        rw [updateBootarg, htext, Option.bind_some, Option.map_eq_some_iff] at hrun
        obtain ⟨t', hretry, hpair⟩ := hrun
        obtain ⟨rfl, rfl⟩ := Prod.mk.inj hpair
        exact ⟨fuel, t', hretry, hchosen, hargs⟩
      · rintro ⟨fuel, t', hretry, hchosen, hargs⟩
        refine ⟨fuel, newArg v.av stack, t', ?_, hchosen, hargs, hinside⟩
        rw [updateBootarg, htext, Option.bind_some, hretry]
        rfl
    rw [hset, and_iff_right hfit, ← hval]
    exact retrySet_iff
  · exact iff_of_false (not_bootargSet hfit stack working) fun h => hfit h.1

/-- The name of the kernel, an argument of 512 bytes, and one more. -/
def longArgs : ArgVector where
  av := [ascii "g", List.replicate 512 97, ascii "b"]
  plain := by
    intro s hs
    simp only [List.mem_cons, List.not_mem_nil, or_false] at hs
    rcases hs with rfl | rfl | rfl
    · decide
    · simp [-List.reduceReplicate]
    · decide

/-- **A full buffer**: after an argument of 512 bytes, the next one is copied with a size of -1:
    4294967295 bytes from offset 513 on are written, whatever the tree has room for. -/
theorem longArgs_outside :
    ((513, 4294967295) : ℤ × ℕ) ∈ (newArg longArgs.av fun _ => 0).wrote ∧
      ∀ stack working, ¬BootargSet longArgs stack working := by
  refine ⟨?_, fun stack working => not_bootargSet ?_ stack working⟩
  · simp [newArg, longArgs, argLoop, ArgState.append, ArgState.advance, ArgState.put,
      ArgState.strncpy, commandLineSize, -List.reduceReplicate]
  · simp [ArgsFit, longArgs, commandLineSize, -List.reduceReplicate]

end Pmon.Dtb
