import Pmon.Lib.Run
import Pmon.Netio.NetFiles

/-!
# Runs of network files

The calls of `open`, `read`, `write`, `lseek`, `ioctl` and `close` on network files, in any order,
with what other files and sockets do to the slots in between.

`netopen` returns the descriptor when no protocol has the name of the URL, and leaves the pointer
that was in the slot.

## Key results

- `NetInv.call`: what every other call keeps.
- `netRuns_exact`: the runs in which every operation goes to the file that was opened.
- `stale_record_read`: a read that goes to a record that is freed.
-/

namespace Pmon.Netio

open Pmon.Lib Pmon.Libc

/-! ## §1 Calls -/

/-- The calls; `uses` is one of `read`, `write`, `lseek` and `ioctl`.  Another file that takes a slot,
    or leaves it, sets the pointer of the slot or keeps it. -/
inductive NetCall where
  | opens (filename : CStr) (accepted : Bool) (reply : ℕ → NetReply)
  | uses (fd : ℕ)
  | closes (fd : ℕ)
  | others (fd : ℕ) (valid keeps : Bool)

/-- What another file does to a slot that is not one of a network file. -/
def NetState.otherFile (s : NetState) (fd : ℕ) (valid keeps : Bool) : NetState :=
  if s.IsOpen fd then s
  else
    { s with
      slots := Function.update s.slots fd
        ⟨valid, false, if keeps then (s.slots fd).data else none⟩ }

/-- A call, with the protocols that are registered. -/
def NetState.call (systems : List NetFileOps) (s : NetState) : NetCall → NetState
  | .opens filename accepted reply => (netOpenFile systems filename accepted reply s).1
  | .uses _ => s
  | .closes fd => s.closeFile fd
  | .others fd valid keeps => s.otherFile fd valid keeps

/-- The `NetFile` that `netread`, `netwrite`, `netlseek`, `netioctl` and `netclose` go to. -/
def NetState.dispatch (s : NetState) (fd : ℕ) : Option NetFile := (s.slots fd).data.bind s.files

/-! ## §2 What is asked for -/

/-- An operation on `fd` goes to the protocol whose open succeeded, and to the records that it has
    made, which are not freed. -/
structure NetState.ServedBy (s : NetState) (fd : ℕ) (o : NetOpened) : Prop where
  opened : s.opened fd = some o
  data : (s.slots fd).data = some o.file
  dispatch : s.dispatch fd = some ⟨o.ops, o.data⟩
  file_live : s.freed o.file = false
  data_live : ∀ d ∈ o.data, s.freed d = false

/-- No protocol has the name. -/
def Unregistered (systems : List NetFileOps) (name : CStr) : Prop :=
  ∀ ops ∈ systems, ops.protocol ≠ name

instance (systems : List NetFileOps) (name : CStr) : Decidable (Unregistered systems name) :=
  inferInstanceAs (Decidable (∀ ops ∈ systems, ops.protocol ≠ name))

/-- An open with a protocol that nobody has registered fails; an operation on an open network file
    goes to what its open has made. -/
def NetKept (systems : List NetFileOps) (s : NetState) : NetCall → Prop
  | .opens filename accepted reply => ∀ path name, netPath filename = some path →
      urlProtocol (netName path) = some name → Unregistered systems name →
        (netOpenFile systems filename accepted reply s).2 = none
  | .uses fd => s.IsOpen fd → ∃ o, s.ServedBy fd o
  | .closes fd => s.IsOpen fd → ∃ o, s.ServedBy fd o
  | .others _ _ _ => True

/-- An open of a URL that `parseUrl` takes, with such a protocol, when there is a slot. -/
def UnknownOpen (systems : List NetFileOps) (s : NetState) : NetCall → Prop
  | .opens filename accepted _ => accepted = true ∧ s.freeSlot ≠ openMax ∧
      ∃ path name, netPath filename = some path ∧ urlProtocol (netName path) = some name ∧
        Unregistered systems name
  | _ => False

/-- No network file is open, and no pointer is one to a record. -/
def netStart (valid : ℕ → Bool) : NetState where
  slots fd := ⟨valid fd, false, none⟩
  files _ := none
  freed _ := false
  next := 0
  opened _ := none

variable {systems : List NetFileOps} {s s' s'' : NetState} {fd fd' lo : ℕ} {ops : NetFileOps}
  {o : NetOpened} {name path filename : CStr} {accepted : Bool} {reply : ℕ → NetReply}

/-! ## §3 Records -/

/-- What `netopen` changes: it works with records of its own, and with the pointer of the slot. -/
structure NetGrown (fd : ℕ) (s s' : NetState) : Prop where
  slots : ∀ fd', fd' ≠ fd → s'.slots fd' = s.slots fd'
  valid : (s'.slots fd).valid = (s.slots fd).valid
  net : (s'.slots fd).net = (s.slots fd).net
  files : ∀ id < s.next, s'.files id = s.files id
  freed : ∀ id < s.next, s'.freed id = s.freed id
  fresh : (∀ id, s.next ≤ id → s.freed id = false) → ∀ id, s'.next ≤ id → s'.freed id = false
  next : s.next ≤ s'.next
  opened : s'.opened = s.opened

theorem NetGrown.refl (s : NetState) : NetGrown fd s s :=
  ⟨fun _ _ => rfl, rfl, rfl, fun _ _ => rfl, fun _ _ => rfl, fun h => h, Nat.le_refl _, rfl⟩

theorem NetGrown.trans (h : NetGrown fd s s') (h' : NetGrown fd s' s'') : NetGrown fd s s'' where
  slots fd' hne := (h'.slots fd' hne).trans (h.slots fd' hne)
  valid := h'.valid.trans h.valid
  net := h'.net.trans h.net
  files id hid := (h'.files id (Nat.lt_of_lt_of_le hid h.next)).trans (h.files id hid)
  freed id hid := (h'.freed id (Nat.lt_of_lt_of_le hid h.next)).trans (h.freed id hid)
  fresh hfresh := h'.fresh (h.fresh hfresh)
  next := Nat.le_trans h.next h'.next
  opened := h'.opened.trans h.opened

theorem netGrown_newFile : NetGrown fd s (s.newFile fd ops) where
  slots fd' hne := Function.update_of_ne hne _ _
  valid := by simp [NetState.newFile]
  net := by simp [NetState.newFile]
  files id hid := Function.update_of_ne (Nat.ne_of_lt hid) _ _
  freed _ _ := rfl
  fresh hfresh id hid := hfresh id (Nat.le_of_succ_le hid)
  next := Nat.le_succ _
  opened := rfl

/-- Making and freeing records that are not older than `s`. -/
theorem NetGrown.newData (h : NetGrown fd s s') {file : ℕ} (hfile : s.next ≤ file) :
    NetGrown fd s (s'.newData file) where
  slots := h.slots
  valid := h.valid
  net := h.net
  files id hid := by
    rw [← h.files id hid]
    exact Function.update_of_ne (by omega) _ _
  freed := h.freed
  fresh hfresh id hid := h.fresh hfresh id (Nat.le_of_succ_le hid)
  next := Nat.le_succ_of_le h.next
  opened := h.opened

theorem NetGrown.free (h : NetGrown fd s s') {id : ℕ} (hid : s.next ≤ id) (hlt : id < s'.next) :
    NetGrown fd s (s'.free id) where
  slots := h.slots
  valid := h.valid
  net := h.net
  files := h.files
  freed id' hid' := by
    rw [← h.freed id' hid']
    exact Function.update_of_ne (by omega) _ _
  fresh hfresh id' hid' := by
    rw [← h.fresh hfresh id' hid']
    exact Function.update_of_ne (Nat.ne_of_gt (Nat.lt_of_lt_of_le hlt hid')) _ _
  next := h.next
  opened := h.opened

theorem netGrown_openFails (fd : ℕ) (ops : NetFileOps) (made : Bool) :
    NetGrown fd s (s.openFails fd ops made) := by
  have hfile : NetGrown fd s (s.newFile fd ops) := netGrown_newFile
  have hnext : (s.newFile fd ops).next = s.next + 1 := rfl
  unfold NetState.openFails
  dsimp only
  split
  · have hdata := hfile.newData (Nat.le_refl s.next)
    have hnext' : ((s.newFile fd ops).newData s.next).next = s.next + 1 + 1 := rfl
    split
    · -- the protocol frees its record, and `netopen` the other one
      have hfirst : NetGrown fd s
          (((s.newFile fd ops).newData s.next).free (s.newFile fd ops).next) :=
        hdata.free (by omega) (by omega)
      apply hfirst.free (Nat.le_refl _)
      change s.next < ((s.newFile fd ops).newData s.next).next
      omega
    · exact hdata.free (Nat.le_refl _) (by omega)
  · exact hfile.free (Nat.le_refl _) (by omega)

/-- The slot points to what was opened, with records from `lo` on. -/
structure NetPoints (fd lo : ℕ) (s : NetState) (o : NetOpened) : Prop where
  data : (s.slots fd).data = some o.file
  file : s.files o.file = some ⟨o.ops, o.data⟩
  file_live : s.freed o.file = false
  data_live : ∀ d ∈ o.data, s.freed d = false
  file_range : lo ≤ o.file ∧ o.file < s.next
  data_range : ∀ d ∈ o.data, lo ≤ d ∧ d < s.next

theorem netGrown_openSucceeds (fd : ℕ) (ops : NetFileOps) :
    NetGrown fd s (s.openSucceeds fd ops).1 := by
  have hfile : NetGrown fd s (s.newFile fd ops) := netGrown_newFile
  unfold NetState.openSucceeds
  dsimp only
  split
  · exact hfile.newData (Nat.le_refl s.next)
  · exact hfile

theorem netPoints_openSucceeds (hfresh : ∀ id, s.next ≤ id → s.freed id = false) (hlo : lo ≤ s.next) :
    NetPoints fd lo (s.openSucceeds fd ops).1 (s.openSucceeds fd ops).2 := by
  unfold NetState.openSucceeds
  dsimp only
  split
  · constructor
    case data => simp [NetState.newData, NetState.newFile]
    case file => simp [NetState.newData, NetState.newFile]
    case file_live => exact hfresh _ (Nat.le_refl _)
    case data_live =>
      intro d hd
      simp only [NetState.newFile, Option.mem_def, Option.some.injEq] at hd
      exact hfresh d (by omega)
    case file_range =>
      simp only [NetState.newData, NetState.newFile]
      omega
    case data_range =>
      intro d hd
      simp only [NetState.newFile, Option.mem_def, Option.some.injEq] at hd
      simp only [NetState.newData, NetState.newFile]
      omega
  · constructor
    case data => simp [NetState.newFile]
    case file => simp [NetState.newFile]
    case file_live => exact hfresh _ (Nat.le_refl _)
    case data_live => simp
    case file_range =>
      simp only [NetState.newFile]
      omega
    case data_range => simp

/-! ## §4 netopen -/

/-- What the loop over the protocols does, when what was opened last is what the slot points to. -/
theorem netopenLoop_spec {i : ℕ} {last : Option NetOpened} {r : Option (Option NetOpened)}
    (hloop : netopenLoop name fd reply systems i last s = (s', r))
    (hfresh : ∀ id, s.next ≤ id → s.freed id = false) (hlo : lo ≤ s.next)
    (hlast : ∀ o, last = some o → NetPoints fd lo s o) :
    NetGrown fd s s' ∧ ∀ o, r = some (some o) → NetPoints fd lo s' o := by
  induction systems generalizing i last s with
  | nil =>
    cases hloop
    refine ⟨.refl _, ?_⟩
    intro o ho
    exact hlast o (Option.some.inj ho)
  | cons ops systems ih =>
    rw [netopenLoop] at hloop
    split at hloop
    · split at hloop
      · cases hloop
        exact ⟨.refl _, by simp⟩
      · cases hloop
        exact ⟨netGrown_openFails fd ops _, by simp⟩
      · have hgrown := netGrown_openSucceeds (s := s) fd ops
        obtain ⟨hrest, hpoints⟩ := ih hloop (hgrown.fresh hfresh) (Nat.le_trans hlo hgrown.next)
          (by
            intro o ho
            obtain rfl := Option.some.inj ho
            exact netPoints_openSucceeds hfresh hlo)
        exact ⟨hgrown.trans hrest, hpoints⟩
    · exact ih hloop hfresh hlo hlast

/-- Nothing is opened only where no protocol has the name. -/
theorem netopenLoop_none {i : ℕ} {last : Option NetOpened}
    (hloop : netopenLoop name fd reply systems i last s = (s', some none)) :
    last = none ∧ Unregistered systems name := by
  induction systems generalizing i last s with
  | nil =>
    cases hloop
    exact ⟨rfl, by simp [Unregistered]⟩
  | cons ops systems ih =>
    rw [netopenLoop] at hloop
    split at hloop
    · split at hloop
      · simp at hloop
      · simp at hloop
      · simpa using (ih hloop).1
    · rename_i hname
      obtain ⟨hlast, hrest⟩ := ih hloop
      refine ⟨hlast, ?_⟩
      intro ops' hops'
      rcases List.mem_cons.mp hops' with rfl | hmem
      · exact fun heq => hname heq.symm
      · exact hrest ops' hmem

/-- A name that no protocol has is opened all the same. -/
theorem netopenLoop_unregistered {i : ℕ} {last : Option NetOpened}
    (hname : Unregistered systems name) :
    netopenLoop name fd reply systems i last s = (s, some last) := by
  induction systems generalizing i with
  | nil => rfl
  | cons ops systems ih =>
    have hne : name ≠ ops.protocol := fun heq => hname ops List.mem_cons_self heq.symm
    rw [netopenLoop, if_neg hne]
    exact ih fun ops' hops' => hname ops' (List.mem_cons_of_mem _ hops')

/-- What `netopen` does. -/
theorem netopen_spec {r : Option (Option NetOpened)}
    (hopen : netopen systems fd path accepted reply s = (s', r))
    (hfresh : ∀ id, s.next ≤ id → s.freed id = false) :
    NetGrown fd s s' ∧ (∀ o, r = some (some o) → NetPoints fd s.next s' o) ∧
      (r = some none → accepted = true ∧
        ∃ name, urlProtocol (netName path) = some name ∧ Unregistered systems name) := by
  unfold netopen at hopen
  split at hopen
  · cases hopen
    exact ⟨.refl _, by simp, by simp⟩
  · rename_i name hname
    split at hopen
    · rename_i haccepted
      obtain ⟨hgrown, hpoints⟩ := netopenLoop_spec hopen hfresh (Nat.le_refl _) (by simp)
      refine ⟨hgrown, hpoints, ?_⟩
      rintro rfl
      exact ⟨haccepted, name, hname, (netopenLoop_none hopen).2⟩
    · cases hopen
      exact ⟨.refl _, by simp, by simp⟩

/-! ## §5 The invariant -/

/-- Every open network file is served; what a file has opened is older than the next record, and no
    other file uses the record of its protocol. -/
structure NetInv (s : NetState) : Prop where
  served : ∀ fd, s.IsOpen fd → ∃ o, s.ServedBy fd o
  fresh : ∀ id, s.next ≤ id → s.freed id = false
  older : ∀ fd o, s.IsOpen fd → s.opened fd = some o → o.file < s.next ∧ ∀ d ∈ o.data, d < s.next
  apart : ∀ fd fd' o o', s.IsOpen fd → s.IsOpen fd' → fd ≠ fd' → s.opened fd = some o →
    s.opened fd' = some o' → ∀ d ∈ o.data, d ≠ o'.file ∧ o'.data ≠ some d

theorem netInv_start (valid : ℕ → Bool) : NetInv (netStart valid) where
  served fd hopen := by simp [NetState.IsOpen, netStart] at hopen
  fresh _ _ := rfl
  older fd _ hopen := by simp [NetState.IsOpen, netStart] at hopen
  apart fd _ _ _ hopen := by simp [NetState.IsOpen, netStart] at hopen

/-- A file whose slot and records are as they were. -/
theorem ServedBy_of_same (h : s.ServedBy fd o) (hslot : s'.slots fd = s.slots fd)
    (hopened : s'.opened fd = s.opened fd) (hfile : s'.files o.file = s.files o.file)
    (hfreed : s'.freed o.file = s.freed o.file) (hdata : ∀ d ∈ o.data, s'.freed d = s.freed d) :
    s'.ServedBy fd o where
  opened := hopened.trans h.opened
  data := by
    rw [hslot]
    exact h.data
  dispatch := by
    have hfiles : s.files o.file = some ⟨o.ops, o.data⟩ := by
      simpa [NetState.dispatch, h.data] using h.dispatch
    simp [NetState.dispatch, hslot, h.data, hfile, hfiles]
  file_live := hfreed.trans h.file_live
  data_live d hd := (hdata d hd).trans (h.data_live d hd)

/-- What `netopen` does for one slot leaves the files in the others. -/
theorem NetInv.transfer (hs : NetInv s) (hgrown : NetGrown fd s s') (hopen : s.IsOpen fd')
    (hne : fd' ≠ fd) (h : s.ServedBy fd' o) : s'.ServedBy fd' o := by
  obtain ⟨hfile, hdata⟩ := hs.older fd' o hopen h.opened
  exact ServedBy_of_same h (hgrown.slots fd' hne) (congrFun hgrown.opened fd')
    (hgrown.files _ hfile) (hgrown.freed _ hfile) fun d hd => hgrown.freed d (hdata d hd)

theorem isOpen_congr (hslot : s'.slots fd = s.slots fd) : s'.IsOpen fd ↔ s.IsOpen fd := by
  unfold NetState.IsOpen
  rw [hslot]

/-- With no network file in the slot, and with what `netopen` has done for it. -/
theorem NetInv.without (hs : NetInv s) (hgrown : NetGrown fd s s') {slot : NetSlot}
    (hslot : slot.valid = false ∨ slot.net = false) :
    NetInv { s' with slots := Function.update s'.slots fd slot } := by
  have hopen : ∀ fd', NetState.IsOpen { s' with slots := Function.update s'.slots fd slot } fd' →
      fd' ≠ fd ∧ s.IsOpen fd' := by
    intro fd' hopen'
    have hne : fd' ≠ fd := by
      rintro rfl
      obtain ⟨-, hvalid, hnet⟩ := hopen'
      simp only [Function.update_self] at hvalid hnet
      simp [hvalid, hnet] at hslot
    have hsame : Function.update s'.slots fd slot fd' = s.slots fd' :=
      (Function.update_of_ne hne _ _).trans (hgrown.slots fd' hne)
    exact ⟨hne, (isOpen_congr hsame).mp hopen'⟩
  constructor
  case served =>
    intro fd' hopen'
    obtain ⟨hne, hopen⟩ := hopen fd' hopen'
    obtain ⟨o, ho⟩ := hs.served fd' hopen
    refine ⟨o, ?_⟩
    exact ServedBy_of_same (hs.transfer hgrown hopen hne ho) (Function.update_of_ne hne _ _) rfl rfl
      rfl fun _ _ => rfl
  case fresh => exact hgrown.fresh hs.fresh
  case older =>
    intro fd' o hopen' hopened
    obtain ⟨-, hopen⟩ := hopen fd' hopen'
    have hold := hs.older fd' o hopen ((congrFun hgrown.opened fd').symm.trans hopened)
    exact ⟨Nat.lt_of_lt_of_le hold.1 hgrown.next,
      fun d hd => Nat.lt_of_lt_of_le (hold.2 d hd) hgrown.next⟩
  case apart =>
    intro a b o o' ha hb hne ho ho'
    exact hs.apart a b o o' (hopen a ha).2 (hopen b hb).2 hne
      ((congrFun hgrown.opened a).symm.trans ho) ((congrFun hgrown.opened b).symm.trans ho')

/-- A file is opened. -/
theorem NetInv.opening (hs : NetInv s) (hgrown : NetGrown fd s s')
    (hpoints : NetPoints fd s.next s' o) :
    NetInv { s'.setSlot fd true true with opened := Function.update s'.opened fd (some o) } := by
  have hopen : ∀ fd', fd' ≠ fd →
      NetState.IsOpen { s'.setSlot fd true true with
        opened := Function.update s'.opened fd (some o) } fd' → s.IsOpen fd' := by
    intro fd' hne hopen'
    have hslot : (s'.setSlot fd true true).slots fd' = s.slots fd' :=
      (Function.update_of_ne hne _ _).trans (hgrown.slots fd' hne)
    exact (isOpen_congr hslot).mp hopen'
  have hsame : ∀ fd', fd' ≠ fd → Function.update s'.opened fd (some o) fd' = s.opened fd' := by
    intro fd' hne
    rw [Function.update_of_ne hne, hgrown.opened]
  constructor
  case served =>
    intro fd' hopen'
    by_cases hne : fd' = fd
    · subst hne
      refine ⟨o, Function.update_self _ _ _, ?_, ?_, hpoints.file_live, hpoints.data_live⟩
      · simp [NetState.setSlot, hpoints.data]
      · simp [NetState.dispatch, NetState.setSlot, hpoints.data, hpoints.file]
    · obtain ⟨o', ho'⟩ := hs.served fd' (hopen fd' hne hopen')
      refine ⟨o', ?_⟩
      exact ServedBy_of_same (hs.transfer hgrown (hopen fd' hne hopen') hne ho')
        (Function.update_of_ne hne _ _) (Function.update_of_ne hne _ _) rfl rfl fun _ _ => rfl
  case fresh => exact hgrown.fresh hs.fresh
  case older =>
    intro fd' o' hopen' hopened
    by_cases hne : fd' = fd
    · subst hne
      obtain rfl : o = o' := by simpa using hopened
      exact ⟨hpoints.file_range.2, fun d hd => (hpoints.data_range d hd).2⟩
    · have hold := hs.older fd' o' (hopen fd' hne hopen') ((hsame fd' hne).symm.trans hopened)
      exact ⟨Nat.lt_of_lt_of_le hold.1 hgrown.next,
        fun d hd => Nat.lt_of_lt_of_le (hold.2 d hd) hgrown.next⟩
  case apart =>
    -- the new records are not older than `s`, those of the other files are
    intro a b oa ob ha hb hne hoa hob
    by_cases haf : a = fd
    · subst haf
      obtain rfl : o = oa := by simpa using hoa
      have hbne : b ≠ a := fun h => hne h.symm
      have hold := hs.older b ob (hopen b hbne hb) ((hsame b hbne).symm.trans hob)
      intro d hd
      have hrange := hpoints.data_range d hd
      refine ⟨by omega, ?_⟩
      intro hdata
      have hlt := hold.2 d hdata
      omega
    · have hopena := hopen a haf ha
      have hoa' := (hsame a haf).symm.trans hoa
      by_cases hbf : b = fd
      · subst hbf
        obtain rfl : o = ob := by simpa using hob
        have hold := hs.older a oa hopena hoa'
        intro d hd
        have hlt := hold.2 d hd
        refine ⟨by have hfile := hpoints.file_range; omega, ?_⟩
        intro hdata
        have hrange := hpoints.data_range d hdata
        omega
      · exact hs.apart a b oa ob hopena (hopen b hbf hb) hne hoa' ((hsame b hbf).symm.trans hob)

/-! ## §6 Every call -/

/-- `open` keeps the invariant, unless it opens what no protocol has. -/
theorem NetInv.opens (hs : NetInv s)
    (hknown : ¬ UnknownOpen systems s (.opens filename accepted reply)) :
    NetInv (netOpenFile systems filename accepted reply s).1 := by
  unfold netOpenFile
  dsimp only
  split
  · exact hs
  · rename_i hslot
    split
    · exact hs
    · rename_i path hpath
      split
      · rename_i s' hopen
        exact hs.without (netopen_spec hopen hs.fresh).1 (Or.inl rfl)
      · rename_i s' last hopen
        obtain ⟨hgrown, hpoints, hnone⟩ := netopen_spec hopen hs.fresh
        cases last with
        | none =>
          obtain ⟨haccepted, name, hname, hunreg⟩ := hnone rfl
          exact absurd ⟨haccepted, hslot, path, name, hpath, hname, hunreg⟩ hknown
        | some o => exact hs.opening hgrown (hpoints o rfl)

/-- What `netclose` does with an open file. -/
theorem netclose_file {fd : ℕ} {nfp : NetFile}
    (hfile : (s.slots fd).data.bind s.files = some nfp) :
    s.netclose fd =
      match nfp.data with
      | none => s
      | some d => s.free d := by
  cases hdata : nfp.data with
  | none => simp only [NetState.netclose, hfile, hdata]
  | some d => simp only [NetState.netclose, hfile, hdata]

/-- `close` frees what no other file uses. -/
theorem NetInv.closes (hs : NetInv s) (fd : ℕ) : NetInv (s.closeFile fd) := by
  unfold NetState.closeFile
  split
  · rename_i hopen
    obtain ⟨o, ho⟩ := hs.served fd hopen
    have hfile : ((s.setSlot fd false true).slots fd).data.bind (s.setSlot fd false true).files =
        some ⟨o.ops, o.data⟩ := by
      have hdispatch := ho.dispatch
      unfold NetState.dispatch at hdispatch
      simpa [NetState.setSlot] using hdispatch
    rw [netclose_file hfile]
    have hkept : NetInv (s.setSlot fd false true) := hs.without (.refl s) (Or.inl rfl)
    have hothers : ∀ fd', (s.setSlot fd false true).IsOpen fd' → fd' ≠ fd ∧ s.IsOpen fd' := by
      intro fd' hopen'
      have hne : fd' ≠ fd := by
        rintro rfl
        simp [NetState.IsOpen, NetState.setSlot] at hopen'
      have hsame : (s.setSlot fd false true).slots fd' = s.slots fd' :=
        Function.update_of_ne hne _ _
      exact ⟨hne, (isOpen_congr hsame).mp hopen'⟩
    cases hdata : o.data with
    | none => exact hkept
    | some d =>
      -- the record that is freed is that of the file that is closed
      constructor
      case served =>
        intro fd' hopen'
        obtain ⟨hne, hopen''⟩ := hothers fd' hopen'
        obtain ⟨o', ho'⟩ := hkept.served fd' hopen'
        have hapart := hs.apart fd fd' o o' hopen hopen'' (fun h => hne h.symm) ho.opened ho'.opened
          d hdata
        refine ⟨o', ServedBy_of_same ho' rfl rfl rfl (Function.update_of_ne hapart.1.symm _ _) ?_⟩
        intro d' hd'
        apply Function.update_of_ne
        rintro rfl
        exact hapart.2 hd'
      case fresh =>
        intro id hid
        have hlt := (hs.older fd o hopen ho.opened).2 d hdata
        change s.next ≤ id at hid
        rw [← hs.fresh id hid]
        exact Function.update_of_ne (by omega) _ _
      case older => exact hkept.older
      case apart => exact hkept.apart
  · exact hs

/-- Other files do not come to an open network file. -/
theorem NetInv.others (hs : NetInv s) (fd : ℕ) (valid keeps : Bool) :
    NetInv (s.otherFile fd valid keeps) := by
  unfold NetState.otherFile
  split
  · exact hs
  · exact hs.without (.refl s) (Or.inr rfl)

/-- **One call**: it keeps the invariant, unless it opens what no protocol has. -/
theorem NetInv.call (hs : NetInv s) {c : NetCall} (hknown : ¬ UnknownOpen systems s c) :
    NetInv (s.call systems c) := by
  cases c with
  | opens filename accepted reply => exact hs.opens hknown
  | uses fd => exact hs
  | closes fd => exact hs.closes fd
  | others fd valid keeps => exact hs.others fd valid keeps

/-- An open of what no protocol has returns a descriptor. -/
theorem netOpenFile_unregistered (hslot : s.freeSlot ≠ openMax) (hpath : netPath filename = some path)
    (hname : urlProtocol (netName path) = some name) (hunreg : Unregistered systems name) :
    (netOpenFile systems filename true reply s).2 = some s.freeSlot := by
  have hopen : netopen systems s.freeSlot path true reply s = (s, some none) := by
    rw [netopen, hname]
    exact netopenLoop_unregistered hunreg
  simp only [netOpenFile, if_neg hslot, hpath, hopen]

theorem netKept_iff (hs : NetInv s) (c : NetCall) :
    NetKept systems s c ↔ ¬ UnknownOpen systems s c := by
  cases c with
  | opens filename accepted reply =>
    constructor
    · rintro hkept ⟨haccepted, hslot, path, name, hpath, hname, hunreg⟩
      subst haccepted
      have hnone := hkept path name hpath hname hunreg
      rw [netOpenFile_unregistered hslot hpath hname hunreg] at hnone
      simp at hnone
    · intro hknown path name hpath hname hunreg
      by_cases hslot : s.freeSlot = openMax
      · simp [netOpenFile, hslot]
      · cases accepted with
        | true => exact absurd ⟨rfl, hslot, path, name, hpath, hname, hunreg⟩ hknown
        | false => simp [netOpenFile, hslot, hpath, netopen, hname]
  | uses fd => exact iff_of_true (hs.served fd) not_false
  | closes fd => exact iff_of_true (hs.served fd) not_false
  | others fd valid keeps => exact iff_of_true trivial not_false

/-- **Runs of network files.**  In every run of calls, whatever the network answers, all opens with a
    protocol that nobody has registered fail, and every operation on an open descriptor goes to the
    protocol and to the records that its open has made, exactly when no open of the run names such a
    protocol in a URL that is taken, with a slot free. -/
theorem netRuns_exact (systems : List NetFileOps) (valid : ℕ → Bool) (calls : List NetCall) :
    EveryStep (NetState.call systems) (NetKept systems) (netStart valid) calls ↔
      EveryStep (NetState.call systems) (fun s c => ¬ UnknownOpen systems s c) (netStart valid)
        calls :=
  everyStep_iff (fun _ c hs => netKept_iff hs c) (fun _ _ hs hknown => hs.call hknown)
    (netInv_start valid)

/-- The calls of a failing `http` open, an open with no protocol, and a read. -/
def staleCalls : List NetCall :=
  [.opens (ascii "http://h/f") true fun _ => .fails true,
    .opens (ascii "ftp://h/f") true fun _ => .opens, .uses 0]

/-- The state before the read. -/
def staleState : NetState :=
  (staleCalls.take 2).foldl (NetState.call [httpops, tftpops]) (netStart fun _ => false)

/-- A file of `ftp` is opened in a slot that a failing `http` open has left, and a read of it goes to
    the `NetFile` that was freed then. -/
theorem stale_record_read :
    staleState.IsOpen 0 ∧ (staleState.slots 0).data = some 0 ∧ staleState.freed 0 = true ∧
      ¬ EveryStep (NetState.call [httpops, tftpops]) (NetKept [httpops, tftpops])
        (netStart fun _ => false) staleCalls := by
  have hopen : staleState.IsOpen 0 := by decide +kernel
  have hdata : (staleState.slots 0).data = some 0 := by decide +kernel
  have hfreed : staleState.freed 0 = true := by decide +kernel
  refine ⟨hopen, hdata, hfreed, ?_⟩
  intro hkept
  have hread : NetKept [httpops, tftpops] staleState (.uses 0) :=
    hkept (staleCalls.take 2) (.uses 0) (List.prefix_refl _)
  obtain ⟨o, ho⟩ := hread hopen
  have hfile : o.file = 0 := Option.some.inj (ho.data.symm.trans hdata)
  have hlive := ho.file_live
  rw [hfile, hfreed] at hlive
  simp at hlive

end Pmon.Netio
