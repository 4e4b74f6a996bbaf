import Mathlib.Data.Int.Notation
import Pmon.Lib.Bytes
import Pmon.Lib.Run

/-!
# Files with a position

What `lseek` and `read` mean on an open file: a file has a size and bytes, and a descriptor has a
position in it.  `CallFollows` says that one call on an implementation does what it does here;
`replies_eq` says that a run whose calls all do so answers what the file answers, so that two
implementations that follow the same file cannot be told apart.
-/

namespace Pmon.Lib

structure RandomFile where
  size : ℕ
  byte : Mem

inductive FileCall where
  | lseek (offset : ℤ) (whence : ℕ)
  | read (n : ℕ)

/-- What a call returns, and what it leaves in the buffer when that is known. -/
inductive FileReply where
  | posn (p : ℤ)
  | bytes (ret : ℤ) (stored : Option (List UInt8))
  /-- The call does not come back to its caller as it should. -/
  | astray

namespace RandomFile

variable (f : RandomFile) {p : ℤ} {n : ℕ}

/-- How many of `n` bytes there are behind the position `p`. -/
def count (p : ℤ) (n : ℕ) : ℕ := min n (f.size - p).toNat

/-- Where `lseek` goes: `SEEK_SET`, `SEEK_CUR`, `SEEK_END`. -/
def target (p offset : ℤ) : (whence : ℕ) → Option ℤ
  | 0 => some offset
  | 1 => some (p + offset)
  | 2 => some (f.size + offset)
  | _ => none

/-- The reply of a file to a call at a position, and the new position. -/
def answer (p : ℤ) : FileCall → FileReply × ℤ
  | .lseek offset whence =>
    match f.target p offset whence with
    | some p' => (.posn p', p')
    | none => (.posn (-1), p)
  | .read n => (.bytes (f.count p n) (some (f.byte.slice p.toNat (f.count p n))), p + f.count p n)

/-- The replies to calls one behind the other. -/
def replies : List FileCall → ℤ → List FileReply
  | [], _ => []
  | l :: ls, p => (f.answer p l).1 :: replies ls (f.answer p l).2

theorem count_of_le (hp : 0 ≤ p) (hle : p ≤ f.size) : f.count p n = min n (f.size - p.toNat) := by
  rw [count]
  omega

theorem count_of_ge (hge : f.size ≤ p) : f.count p n = 0 := by
  rw [count]
  omega

theorem answer_lseek {p' offset : ℤ} {whence : ℕ} (h : f.target p offset whence = some p') :
    f.answer p (.lseek offset whence) = (.posn p', p') := by
  rw [answer, h]

theorem answer_lseek_none {offset : ℤ} {whence : ℕ} (h : f.target p offset whence = none) :
    f.answer p (.lseek offset whence) = (.posn (-1), p) := by
  rw [answer, h]

end RandomFile

section

variable {S : Type*} (call : FileCall → S → FileReply × S) (posn : S → ℤ) (file : S → RandomFile)

/-- The state behind a call. -/
def nextState (s : S) (l : FileCall) : S := (call l s).2

/-- A call does what it does on the file. -/
structure CallFollows (s : S) (l : FileCall) : Prop where
  reply_eq : (call l s).1 = ((file s).answer (posn s) l).1
  posn_eq : posn (call l s).2 = ((file s).answer (posn s) l).2
  file_eq : file (call l s).2 = file s

/-- The replies of an implementation. -/
def repliesOf : List FileCall → S → List FileReply
  | [], _ => []
  | l :: ls, s => (call l s).1 :: repliesOf ls (call l s).2

variable {call posn file} {s : S} {l : FileCall} {ls : List FileCall}

/-- A call that does what the file does, from its whole effect. -/
theorem CallFollows.of_eq {t : S} (hcall : call l s = (((file s).answer (posn s) l).1, t))
    (hposn : posn t = ((file s).answer (posn s) l).2) (hfile : file t = file s) :
    CallFollows call posn file s l := by
  refine ⟨?_, ?_, ?_⟩
  · rw [hcall]
  · rw [hcall, hposn]
  · rw [hcall, hfile]

/-- **Runs**: where every call does what it does on the file, the replies are those of the file, and
    the position and the file are those of the file at the end. -/
theorem replies_eq (h : EveryStep (nextState call) (CallFollows call posn file) s ls) :
    repliesOf call ls s = (file s).replies ls (posn s) ∧
      file (ls.foldl (nextState call) s) = file s := by
  induction ls generalizing s with
  | nil => exact ⟨rfl, rfl⟩
  | cons l ls ih =>
    rw [everyStep_cons] at h
    obtain ⟨hl, hls⟩ := h
    obtain ⟨hreplies, hfile⟩ := ih hls
    rw [nextState, hl.file_eq, hl.posn_eq] at hreplies
    rw [repliesOf, RandomFile.replies, List.foldl_cons, hreplies, hl.reply_eq]
    exact ⟨rfl, hfile.trans hl.file_eq⟩

/-- **Interchangeable**: two implementations that follow files with the same bytes give the same
    replies. -/
theorem replies_agree {T : Type*} {call' : FileCall → T → FileReply × T} {posn' : T → ℤ}
    {file' : T → RandomFile} {t : T} (hfile : file s = file' t) (hposn : posn s = posn' t)
    (h : EveryStep (nextState call) (CallFollows call posn file) s ls)
    (h' : EveryStep (nextState call') (CallFollows call' posn' file') t ls) :
    repliesOf call ls s = repliesOf call' ls t := by
  rw [(replies_eq h).1, (replies_eq h').1, hfile, hposn]

/-- Where the calls that meet a condition follow the file and keep an invariant, runs of them do. -/
theorem everyStep_follows {Inv : S → Prop} {Meets : S → FileCall → Prop}
    (hstep : ∀ s l, Inv s → Meets s l →
      CallFollows call posn file s l ∧ Inv (nextState call s l)) (hs : Inv s)
    (h : EveryStep (nextState call) Meets s ls) :
    EveryStep (nextState call) (CallFollows call posn file) s ls := by
  induction ls generalizing s with
  | nil =>
    intro before l hprefix
    simp at hprefix
  | cons l ls ih =>
    rw [everyStep_cons] at h ⊢
    obtain ⟨hfollows, hinv⟩ := hstep s l hs h.1
    exact ⟨hfollows, ih hinv h.2⟩

end

end Pmon.Lib
