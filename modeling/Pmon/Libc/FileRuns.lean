import Mathlib.Data.List.Induction
import Mathlib.Data.Set.Insert
import Pmon.Libc.Files

/-!
# Runs of open and close

The state is the file table together with the descriptors that are open: those that `open` has
returned and `close` has not been called for since.

## Key results

- `openFile_cases`: what a call of `open` can do.
- `kept_iff`: the calls after which the marks are those of the open descriptors.
- `files_exact`: the runs in which they are after every call.
- `slots_run_out`: a table that is full, with no descriptor open.
-/

namespace Pmon.Libc

variable {w : World} {files files' : FileTable} {fname filename tname dname : CStr} {mode lu : ℕ}
  {fd : ℤ} {b b' : Bool} {fsp : FileSystem}

/-! ## §1 Marks -/

@[simp] theorem mark_mark : (files.mark fd b).mark fd b' = files.mark fd b' := by
  simp [FileTable.mark]

theorem mark_valid : (files.mark fd b fd).valid = b := by
  simp [FileTable.mark]

theorem mark_self : files.mark fd (files fd).valid = files := Function.update_eq_self fd files

/-- The slots that are marked. -/
def marked (files : FileTable) : Set ℤ := {fd | 0 ≤ fd ∧ fd < openMax ∧ (files fd).valid}

theorem marked_update {f : File} (h : 0 ≤ fd) (hmax : fd < openMax) :
    marked (Function.update files fd f) =
      if f.valid then insert fd (marked files) else marked files \ {fd} := by
  ext i
  split <;> rcases eq_or_ne i fd with rfl | hne <;> simp_all [marked, Function.update_of_ne]

theorem marked_mark (h : 0 ≤ fd) (hmax : fd < openMax) :
    marked (files.mark fd b) = if b then insert fd (marked files) else marked files \ {fd} :=
  marked_update h hmax

/-! ## §2 Free slots -/

theorem freeSlot_le : freeSlot files ≤ openMax := by
  have hle : freeSlot files ≤ (List.range openMax).length := List.findIdx_le_length
  rwa [List.length_range] at hle

/-- The slot that is found has no mark. -/
theorem freeSlot_free (h : freeSlot files ≠ openMax) :
    freeSlot files < openMax ∧ (files (freeSlot files)).valid = false := by
  have hlt : freeSlot files < openMax := lt_of_le_of_ne freeSlot_le h
  have hlength : freeSlot files < (List.range openMax).length := by rwa [List.length_range]
  have hfound : (!(files (List.range openMax)[freeSlot files]).valid) = true :=
    List.findIdx_getElem (w := hlength)
  rw [List.getElem_range, Bool.not_eq_true'] at hfound
  exact ⟨hlt, hfound⟩

/-- If none is found, all are marked. -/
theorem freeSlot_full (h : freeSlot files = openMax) (h0 : 0 ≤ fd) (hmax : fd < openMax) :
    fd ∈ marked files := by
  refine ⟨h0, hmax, ?_⟩
  by_contra hfree
  obtain ⟨i, rfl⟩ := Int.eq_ofNat_of_zero_le h0
  have hlt : freeSlot files < (List.range openMax).length :=
    List.findIdx_lt_length_of_exists ⟨i, by simpa using hmax, by simpa using hfree⟩
  rw [List.length_range] at hlt
  exact absurd h (ne_of_lt hlt)

/-! ## §3 One attempt -/

theorem after_mark (files : FileTable) (lu : ℕ) (b : Bool) (o : Opened) :
    ∃ b', (files.mark lu b).after lu o = files.mark lu b' := by
  rw [FileTable.after]
  cases o.mark with
  | none => exact ⟨b, rfl⟩
  | some b' => exact ⟨b', mark_mark⟩

/-- **An attempt** to open a slot opens it, or fails with no more than the slot's mark changed. -/
theorem tryOpen_cases (fname : CStr) (mode : ℕ) (dname : Option CStr) (lu fstype : ℕ)
    (systems : List FileSystem) (files : FileTable) (b : Bool) :
    (∃ fsp, tryOpen fname mode dname lu fstype systems (files.mark lu b) = opened files lu fsp) ∨
      ∃ b' errno, tryOpen fname mode dname lu fstype systems (files.mark lu b) =
        { files := files.mark lu b', ret := -1, errno := errno } ∧ errno ≠ some .emfile := by
  have hopened : ∀ b' fsp, opened (files.mark lu b') lu fsp = opened files lu fsp := by
    intro b' fsp
    simp [opened, FileTable.mark]
  induction systems generalizing b with
  | nil => exact .inr ⟨b, some .enoent, rfl, by decide⟩
  | cons fsp systems ih =>
    rw [tryOpen]
    split
    · cases fsp.fsOpen with
      | none => exact .inl ⟨fsp, hopened b fsp⟩
      | some fsOpen =>
        obtain ⟨b', hafter⟩ := after_mark files lu b (fsOpen lu fname mode)
        simp only [hafter]
        split
        · exact .inr ⟨b', none, rfl, by decide⟩
        · exact .inl ⟨fsp, hopened b' fsp⟩
    · split
      · cases fsp.fsOpen with
        | none => exact ih b
        | some fsOpen =>
          obtain ⟨b', hafter⟩ := after_mark files lu b (fsOpen lu fname mode)
          simp only [hafter]
          split
          · exact .inl ⟨fsp, hopened b' fsp⟩
          · exact ih b'
      · exact ih b

/-- What a call leaves that gives no descriptor, and nothing else. -/
def Failed (files : FileTable) (r : OpenResult) : Prop :=
  r.files = files ∧ r.ret = -1 ∧ r.errno ≠ some .emfile

/-- The exits that release the slot. -/
theorem release_cases (hfree : (files lu).valid = false) (dname : Option CStr) (fstype : ℕ)
    (systems : List FileSystem) :
    (∃ fsp, release lu (tryOpen fname mode dname lu fstype systems (files.mark lu true)) =
        opened files lu fsp) ∨
      Failed files
        (release lu (tryOpen fname mode dname lu fstype systems (files.mark lu true))) := by
  obtain ⟨fsp, hopened⟩ | ⟨b', errno, hfailed, herrno⟩ :=
    tryOpen_cases fname mode dname lu fstype systems files true
  · left
    refine ⟨fsp, ?_⟩
    rw [hopened, release, if_neg]
    simp only [opened]
    omega
  · right
    have hback : files.mark lu false = files := by rw [← hfree, mark_self]
    rw [hfailed, release, if_pos rfl]
    exact ⟨by rw [mark_mark, hback], rfl, herrno⟩

/-! ## §4 Partitions -/

/-- A path that `open` takes for one in a partition. -/
def Parenthesised (filename : CStr) : Prop :=
  filename.head? = some 40 ∧ ¬strpat filename (ascii "*ftp://*")

/-- The file system of a device does not open a file, and leaves its slot marked. -/
def Refuses (w : World) (lu : ℕ) (dname : CStr) (mode : ℕ) : Prop :=
  match w.systems.find? fun fsp => strbequ dname fsp.devname with
  | none => True
  | some fsp =>
    match fsp.fsOpen with
    | none => False
    | some fsOpen =>
      (fsOpen lu (ascii "/dev/" ++ dname) mode).ret ≠ lu ∧
        (fsOpen lu (ascii "/dev/" ++ dname) mode).mark ≠ some false

/-- **A leak**: a slot is taken for a path in a partition, and the partition is not there or its
    file system does not open the file. -/
def Leaks (w : World) (files : FileTable) (filename : CStr) (mode : ℕ) : Prop :=
  freeSlot files ≠ openMax ∧ Parenthesised filename ∧
    match filenamePathTransform w filename with
    | none => True
    | some tname => Refuses w (freeSlot files) (fatSupport (tname.drop 5)) mode

/-- Every path that the transformation gives is one of a device. -/
theorem transform_dev (h : filenamePathTransform w filename = some tname) :
    ascii "/dev/" <+: tname := by
  have hpart : ∀ buff filepath type, partPath buff filepath type = some tname →
      ascii "/dev/" <+: tname := by
    intro buff filepath type hpart
    cases type <;> simp only [partPath, reduceCtorEq, Option.some.injEq] at hpart
    all_goals
      rw [← hpart]
      exact ⟨_, rfl⟩
  rw [filenamePathTransform] at h
  dsimp only at h
  iterate 4
    split at h
    · contradiction
  split at h
  · contradiction
  · split at h
    · rw [← Option.some.inj h]
      exact ⟨_, rfl⟩
    · exact hpart _ _ _ h
    · exact hpart _ _ _ h

/-- An attempt with a device's name is one with the first file system of that name. -/
theorem tryOpen_named (systems : List FileSystem) :
    tryOpen fname mode (some dname) lu 0 systems files =
      match systems.find? fun fsp => strbequ dname fsp.devname with
      | none => { files := files, ret := -1, errno := some .enoent }
      | some fsp =>
        match fsp.fsOpen with
        | none => opened files lu fsp
        | some fsOpen =>
          if (fsOpen lu fname mode).ret ≠ lu then
            { files := files.after lu (fsOpen lu fname mode), ret := -1 }
          else opened (files.after lu (fsOpen lu fname mode)) lu fsp := by
  induction systems with
  | nil => rfl
  | cons fsp systems ih =>
    rw [tryOpen, Option.any_some]
    rw [List.find?_cons]
    by_cases hname : strbequ dname fsp.devname = true
    · rw [if_pos hname, hname] <;> dsimp only <;> cases fsp.fsOpen <;> rfl
    · rw [if_neg hname, Bool.eq_false_of_not_eq_true hname, if_neg fun h => h.1 rfl, ih]

/-- **The exit that does not release the slot**: a file system that refuses leaves it marked; else
    the file is opened, or the file system has released the slot. -/
theorem tryOpen_device (hfree : (files lu).valid = false) {r : OpenResult}
    (hr : r = tryOpen (ascii "/dev/" ++ dname) mode (some dname) lu 0 w.systems
      (files.mark lu true)) :
    (Refuses w lu dname mode → Failed (files.mark lu true) r) ∧
      (¬Refuses w lu dname mode → (∃ fsp, r = opened files lu fsp) ∨ Failed files r) := by
  have hopened : ∀ b' fsp, opened (files.mark lu b') lu fsp = opened files lu fsp := by
    intro b' fsp
    simp [opened, FileTable.mark]
  rw [tryOpen_named] at hr
  rw [Refuses]
  cases hfind : w.systems.find? fun fsp => strbequ dname fsp.devname with
  | none =>
    rw [hfind] at hr
    exact ⟨fun _ => ⟨by rw [hr], by rw [hr], by rw [hr]; simp⟩, fun h => absurd trivial h⟩
  | some fsp =>
    rw [hfind] at hr
    dsimp only at hr ⊢
    cases hopen : fsp.fsOpen with
    | none =>
      rw [hopen] at hr
      exact ⟨False.elim, fun _ => .inl ⟨fsp, hr.trans (hopened _ _)⟩⟩
    | some fsOpen =>
      rw [hopen] at hr
      dsimp only at hr ⊢
      generalize fsOpen lu (ascii "/dev/" ++ dname) mode = o at hr ⊢
      obtain ⟨b', hafter⟩ := after_mark files lu true o
      by_cases hret : o.ret = lu
      · rw [if_neg (not_not.mpr hret), hafter, hopened] at hr
        exact ⟨fun h => absurd hret h.1, fun _ => .inl ⟨fsp, hr⟩⟩
      · rw [if_pos hret] at hr
        refine ⟨fun ⟨_, hmark⟩ => ?_, fun h => .inr ?_⟩
        · refine ⟨?_, by rw [hr], by rw [hr]; simp⟩
          rw [hr, FileTable.after]
          cases hvalid : o.mark with
          | none => rfl
          | some valid =>
            cases valid with
            | false => exact absurd hvalid hmark
            | true => exact mark_mark
        · have hmark : o.mark = some false := not_not.mp fun hmark => h ⟨hret, hmark⟩
          refine ⟨?_, by rw [hr], by rw [hr]; simp⟩
          rw [hr, FileTable.after, hmark]
          dsimp only
          rw [mark_mark, ← hfree, mark_self]

/-! ## §5 Calls -/

theorem not_form_of_paren {pat : CStr} {d : UInt8} (h : filename.head? = some 40) (hd : d ≠ 42)
    (hq : d ≠ 63) (hne : d ≠ 40) : strpat filename (d :: pat) = false := by
  obtain ⟨cs, rfl⟩ : ∃ cs, filename = 40 :: cs := List.head?_eq_some_iff.mp h
  simp [strpat, strpatLoop, hd, hq, hne]

/-- **A call of `open`**: it finds no slot, or opens one, or fails and leaves the table as it was,
    or leaks. -/
theorem openFile_cases (w : World) (files : FileTable) (filename : CStr) (mode : ℕ) :
    (Leaks w files filename mode →
      Failed (files.mark (freeSlot files) true) (openFile w files filename mode)) ∧
    (¬Leaks w files filename mode →
      (freeSlot files = openMax ∧
        openFile w files filename mode =
          { files := files, ret := -1, errno := some .emfile }) ∨
      freeSlot files ≠ openMax ∧
        ((∃ fsp, openFile w files filename mode = opened files (freeSlot files) fsp) ∨
          Failed files (openFile w files filename mode))) := by
  by_cases hfull : freeSlot files = openMax
  · refine ⟨fun h => absurd hfull h.1, fun _ => .inl ⟨hfull, ?_⟩⟩
    rw [openFile, if_pos hfull]
  have hfree := (freeSlot_free hfull).2
  by_cases hparen : Parenthesised filename
  · obtain ⟨hhead, hftp⟩ := hparen
    have hdev : ¬ascii "/dev/" <+: filename := by
      rintro ⟨rest, hrest⟩
      rw [← hrest] at hhead
      exact absurd hhead (by simp [ascii])
    have hforms : strpat filename (ascii "file://*") = false ∧
        strpat filename (ascii "http://*") = false ∧ strpat filename (ascii "nfs://*") = false :=
      ⟨not_form_of_paren hhead (by decide) (by decide) (by decide),
        not_form_of_paren hhead (by decide) (by decide) (by decide),
        not_form_of_paren hhead (by decide) (by decide) (by decide)⟩
    have hopen : openFile w files filename mode =
        match filenamePathTransform w filename with
        | none => { files := files.mark (freeSlot files) true, ret := -1 }
        | some tname =>
          tryOpen (ascii "/dev/" ++ fatSupport (tname.drop 5)) mode
            (some (fatSupport (tname.drop 5))) (freeSlot files) 0 w.systems
            (files.mark (freeSlot files) true) := by
      rw [openFile, if_neg hfull]
      dsimp only
      rw [if_neg hdev, if_neg hftp, hforms.1, hforms.2.1, hforms.2.2, if_pos hhead]
      rfl
    rw [Leaks]
    cases htransform : filenamePathTransform w filename with
    | none =>
      rw [htransform] at hopen
      rw [hopen]
      exact ⟨fun _ => ⟨rfl, rfl, by simp⟩, fun h => absurd ⟨hfull, ⟨hhead, hftp⟩, trivial⟩ h⟩
    | some tname =>
      rw [htransform] at hopen
      obtain ⟨hrefuses, haccepts⟩ := tryOpen_device hfree hopen
      exact ⟨fun h => hrefuses h.2.2,
        fun h => .inr ⟨hfull, haccepts fun hr => h ⟨hfull, ⟨hhead, hftp⟩, hr⟩⟩⟩
  · refine ⟨fun h => absurd h.2.1 hparen, fun _ => .inr ⟨hfull, ?_⟩⟩
    rw [openFile, if_neg hfull]
    dsimp only
    split
    · exact release_cases hfree _ _ _
    split
    · exact release_cases hfree _ _ _
    rename_i hftp
    split
    · exact release_cases hfree _ _ _
    split
    · exact release_cases hfree _ _ _
    split
    · exact release_cases hfree _ _ _
    rw [if_neg fun hhead => hparen ⟨hhead, hftp⟩]
    exact release_cases hfree _ _ _

/-! ## §6 Runs -/

/-- The calls. -/
inductive Call where
  | opens (w : World) (filename : CStr) (mode : ℕ)
  | closes (fd : ℤ)

/-- The file table, and the descriptors that are open. -/
structure FileState where
  files : FileTable
  descriptors : Set ℤ

/-- A call; a descriptor is open from the `open` that returns it to the `close` of it. -/
def FileState.call (s : FileState) : Call → FileState
  | .opens w filename mode =>
    let r := openFile w s.files filename mode
    { files := r.files
      descriptors := if r.ret = -1 then s.descriptors else insert r.ret s.descriptors }
  | .closes fd => { files := (closeFile s.files fd).1, descriptors := s.descriptors \ {fd} }

def FileState.run (s : FileState) (calls : List Call) : FileState := calls.foldl FileState.call s

/-- The marked slots are those of the open descriptors. -/
def FileState.Exact (s : FileState) : Prop := marked s.files = s.descriptors

/-- What a call keeps: the marks are those of the open descriptors; a failing `open` leaves the
    table as it was; and it only fails for lack of slots when all descriptors are open. -/
structure Kept (s : FileState) (c : Call) : Prop where
  marks : (s.call c).Exact
  failing : ∀ w filename mode, c = .opens w filename mode →
    (openFile w s.files filename mode).ret = -1 → (s.call c).files = s.files
  full : ∀ w filename mode, c = .opens w filename mode →
    (openFile w s.files filename mode).errno = some .emfile →
      ∀ fd : ℤ, 0 ≤ fd → fd < openMax → fd ∈ s.descriptors

/-- The calls that leak. -/
def LeakingCall (s : FileState) : Call → Prop
  | .opens w filename mode => Leaks w s.files filename mode
  | .closes _ => False

variable {s : FileState} {c : Call}

/-- Closing a descriptor takes its mark, and no other. -/
theorem marked_close (fd : ℤ) : marked (closeFile files fd).1 = marked files \ {fd} := by
  rw [closeFile]
  split
  · rename_i h
    by_cases h0 : 0 ≤ fd
    · exact marked_mark h0 h.1
    · -- What is below the table is not a slot.
      ext i
      rcases eq_or_ne i fd with rfl | hne
      · simp [marked, h0]
      · simp [marked, FileTable.mark, hne]
  · rename_i h
    ext i
    refine ⟨fun hmem => ⟨hmem, ?_⟩, And.left⟩
    rintro rfl
    exact h hmem.2

/-- **Calls**: the marks stay those of the open descriptors, unless the call leaks. -/
theorem kept_iff (hs : s.Exact) : Kept s c ↔ ¬LeakingCall s c := by
  cases c with
  | closes fd =>
    have hmarks : (s.call (.closes fd)).Exact := by
      change marked (closeFile s.files fd).1 = s.descriptors \ {fd}
      rw [marked_close, hs]
    exact iff_of_true ⟨hmarks, fun _ _ _ h => (nomatch h), fun _ _ _ h => (nomatch h)⟩ not_false
  | opens w filename mode =>
    obtain ⟨hleak, hkeep⟩ := openFile_cases w s.files filename mode
    constructor
    · -- A slot that is leaked is not one of an open descriptor.
      intro hkept hleaks
      obtain ⟨hfiles, hret, -⟩ := hleak hleaks
      obtain ⟨hlt, hfree⟩ := freeSlot_free hleaks.1
      have hsame := hkept.failing w filename mode rfl hret
      have hvalid := congrFun (hfiles.symm.trans hsame) (freeSlot s.files)
      rw [← hvalid, mark_valid] at hfree
      exact Bool.noConfusion hfree
    · intro hno
      rcases hkeep hno with ⟨hfull, hopen⟩ | ⟨hnotfull, hopened | hfailed⟩
      · refine ⟨?_, fun w' filename' mode' h _ => ?_, fun w' filename' mode' h _ fd h0 hmax => ?_⟩
        · simp only [FileState.Exact, FileState.call, hopen, if_true]
          exact hs
        · simp only [FileState.call, hopen]
        · exact hs ▸ freeSlot_full hfull h0 hmax
      · obtain ⟨fsp, hopened⟩ := hopened
        obtain ⟨hlt, -⟩ := freeSlot_free hnotfull
        have hret : ((freeSlot s.files : ℕ) : ℤ) ≠ -1 := by omega
        refine ⟨?_, fun w' filename' mode' h hfail => ?_, fun w' filename' mode' h herrno => ?_⟩
        · simp only [FileState.Exact, FileState.call, hopened, opened, if_neg hret]
          rw [marked_update (by omega) (by omega), if_pos rfl, hs]
        · obtain ⟨rfl, rfl, rfl⟩ := Call.opens.inj h
          rw [hopened] at hfail
          exact absurd hfail hret
        · obtain ⟨rfl, rfl, rfl⟩ := Call.opens.inj h
          rw [hopened] at herrno
          simp [opened] at herrno
      · obtain ⟨hfiles, hret, herrno⟩ := hfailed
        refine ⟨?_, fun w' filename' mode' h _ => hfiles, fun w' filename' mode' h hfull => ?_⟩
        · simp only [FileState.Exact, FileState.call, hret, if_true, hfiles]
          exact hs
        · obtain ⟨rfl, rfl, rfl⟩ := Call.opens.inj h
          exact absurd hfull herrno

theorem run_snoc (before : List Call) : s.run (before ++ [c]) = (s.run before).call c := by
  rw [FileState.run, FileState.run, List.foldl_append]
  rfl

/-- Calls that do not leak keep the marks. -/
theorem exact_of_no_leak (hs : s.Exact) (calls : List Call)
    (hno : ∀ before c, before ++ [c] <+: calls → ¬LeakingCall (s.run before) c) :
    (s.run calls).Exact := by
  induction calls using List.reverseRecOn with
  | nil => exact hs
  | append_singleton calls c ih =>
    have hbefore := ih fun before d h => hno before d (h.trans (List.prefix_append ..))
    rw [run_snoc]
    exact ((kept_iff hbefore).mpr (hno calls c List.prefix_rfl)).marks

/-- **Open and close**: in a run of calls the marks are those of the open descriptors after every
    call, every failing `open` leaves the table as it was, and none fails for lack of slots with one
    of the descriptors not open, exactly when no call of the run leaks. -/
theorem files_exact (s : FileState) (hs : s.Exact) (calls : List Call) :
    (∀ before c, before ++ [c] <+: calls → Kept (s.run before) c) ↔
      ∀ before c, before ++ [c] <+: calls → ¬LeakingCall (s.run before) c := by
  constructor
  · intro hkept before c hprefix
    have hbefore : (s.run before).Exact := by
      cases before using List.reverseRecOn with
      | nil => exact hs
      | append_singleton before d =>
        rw [run_snoc]
        exact (hkept before d ((List.prefix_append ..).trans hprefix)).marks
    exact (kept_iff hbefore).mp (hkept before c hprefix)
  · intro hno before c hprefix
    have hbefore : (s.run before).Exact := exact_of_no_leak hs before fun b d h =>
      hno b d (h.trans ((List.prefix_append ..).trans hprefix))
    exact (kept_iff hbefore).mpr (hno before c hprefix)

/-- No file is open, and no disk is there. -/
def noFiles : FileState := ⟨fun _ => ⟨false, 0, none⟩, ∅⟩

def noDisks : World := ⟨[], fun _ => none, []⟩

theorem files_exact_net :
    Kept noFiles (.opens noDisks (ascii "tftp://h/f") 0) := by
  have hs : noFiles.Exact := by
    ext fd
    simp [marked, noFiles]
  refine (files_exact noFiles hs [.opens noDisks (ascii "tftp://h/f") 0]).mpr ?_ [] _
    List.prefix_rfl
  intro before c hprefix hleak
  obtain ⟨rfl, rfl⟩ : before = [] ∧ c = .opens noDisks (ascii "tftp://h/f") 0 := by
    have hlength := hprefix.length_le
    rw [List.length_append, List.length_singleton, List.length_singleton] at hlength
    obtain rfl : before = [] := List.length_eq_zero_iff.mp (by omega)
    exact ⟨rfl, by simpa using hprefix⟩
  exact absurd hleak.2.1.1 (by decide)

/-- A partition on a disk that is not there: no descriptor is returned, and a slot is taken. -/
theorem failing_open_takes_slot :
    (openFile noDisks noFiles.files (ascii "(wd0,0)/vmlinux") 0).ret = -1 ∧
      ((openFile noDisks noFiles.files (ascii "(wd0,0)/vmlinux") 0).files 0).valid = true ∧
      ¬Kept noFiles (.opens noDisks (ascii "(wd0,0)/vmlinux") 0) := by
  have hslot : freeSlot noFiles.files = 0 := by decide
  have htransform : filenamePathTransform noDisks (ascii "(wd0,0)/vmlinux") = none := by decide
  have hleaks : Leaks noDisks noFiles.files (ascii "(wd0,0)/vmlinux") 0 := by
    refine ⟨by rw [hslot]; decide, ⟨by decide, by decide +kernel⟩, ?_⟩
    rw [htransform]
    trivial
  obtain ⟨hfiles, hret, -⟩ := (openFile_cases _ _ _ _).1 hleaks
  rw [hslot] at hfiles
  refine ⟨hret, by rw [hfiles]; exact mark_valid, fun hkept => ?_⟩
  have hsame := congrFun (hkept.failing _ _ _ rfl hret) 0
  rw [FileState.call, hfiles] at hsame
  exact Bool.noConfusion (congrArg File.valid hsame)

end Pmon.Libc
