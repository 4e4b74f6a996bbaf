import Pmon.Lib.Bytes

/-!
# Writes

Code that fills memory is a list of writes, in their order.  What it leaves is memory with the
writes done; where it writes is a property of the list.

## Key results

- `holds_written_of_off`: what no write touches stays.
- `holds_written_append`: what some writes leave stays when the later ones are elsewhere.
-/

namespace Pmon.Lib

/-- A write: the address and the bytes. -/
structure Write where
  addr : ℕ
  bytes : List UInt8

namespace Write

/-- The end of what is written. -/
def stop (w : Write) : ℕ := w.addr + w.bytes.length

/-- A write stays within some bounds. -/
def In (w : Write) (lo hi : ℕ) : Prop := lo ≤ w.addr ∧ w.stop ≤ hi

theorem In.mono {w : Write} {lo hi lo' hi' : ℕ} (h : w.In lo hi) (hlo : lo' ≤ lo) (hhi : hi ≤ hi') :
    w.In lo' hi' := ⟨Nat.le_trans hlo h.1, Nat.le_trans h.2 hhi⟩

end Write

/-- Memory after some writes. -/
def written (m : Mem) (ws : List Write) : Mem := ws.foldl (fun m w => m.store w.addr w.bytes) m

variable {m : Mem} {ws vs : List Write} {w : Write} {a : ℕ} {bs : List UInt8}

@[simp] theorem written_nil : written m [] = m := rfl

@[simp] theorem written_cons : written m (w :: ws) = written (m.store w.addr w.bytes) ws := rfl

theorem written_append : written m (ws ++ vs) = written (written m ws) vs :=
  List.foldl_append

/-- Writes that are off a range. -/
def Off (ws : List Write) (a n : ℕ) : Prop := ∀ w ∈ ws, w.stop ≤ a ∨ a + n ≤ w.addr

theorem off_cons {n : ℕ} : Off (w :: ws) a n ↔ (w.stop ≤ a ∨ a + n ≤ w.addr) ∧ Off ws a n :=
  List.forall_mem_cons

theorem off_append {n : ℕ} : Off (ws ++ vs) a n ↔ Off ws a n ∧ Off vs a n :=
  List.forall_mem_append

/-- What no write touches stays. -/
theorem holds_written_of_off (h : Off ws a bs.length) :
    (written m ws).Holds a bs ↔ m.Holds a bs := by
  induction ws generalizing m with
  | nil => exact Iff.rfl
  | cons w ws ih =>
    rw [off_cons] at h
    rw [written_cons, ih h.2]
    exact Mem.holds_store_of_disjoint (h.1.symm)

/-- What some writes leave stays when the later ones are elsewhere. -/
theorem holds_written_append (h : (written m ws).Holds a bs) (hoff : Off vs a bs.length) :
    (written m (ws ++ vs)).Holds a bs := by
  rw [written_append, holds_written_of_off hoff]
  exact h

end Pmon.Lib
