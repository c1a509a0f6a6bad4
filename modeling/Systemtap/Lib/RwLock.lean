import Mathlib

/-!
# Readers-writer locks

A lock that counts its readers and knows whether it has a writer. It admits a
writer when nobody has it, and a reader when no writer has it; unlocking does
not know who unlocks.

`Guards l held` connects a lock with a record of who holds it: `held t` is the
mode in which thread `t` has the lock, if it does. As long as every thread
unlocks what it locked, in the mode in which it did, the record stays right,
and two threads never hold the lock together unless both are readers.
-/

namespace Systemtap.Lib

open Function Finset

/-- A lock: its readers, and whether there is a writer. -/
structure RwLock where
  readers : Nat
  writer : Bool
deriving DecidableEq, Repr

namespace RwLock

def free : RwLock := ⟨0, false⟩

/-- The lock can be taken, for writing or for reading. -/
def admits (l : RwLock) (write : Bool) : Bool :=
  !l.writer && (!write || l.readers == 0)

def lock (l : RwLock) (write : Bool) : RwLock :=
  if write then { l with writer := true } else { l with readers := l.readers + 1 }

def unlock (l : RwLock) (write : Bool) : RwLock :=
  if write then { l with writer := false } else { l with readers := l.readers - 1 }

end RwLock

variable {ι : Type} [Fintype ι] [DecidableEq ι]

/-- How many threads hold a lock for reading. -/
def readersOf (held : ι → Option Bool) : Nat := ∑ t, if held t = some false then 1 else 0

/-- The lock is as the record of its holders says. -/
structure Guards (l : RwLock) (held : ι → Option Bool) : Prop where
  readers : l.readers = readersOf held
  writer : l.writer = true ↔ ∃ t, held t = some true
  alone : ∀ t, held t = some true → ∀ u, u ≠ t → held u = none

variable {l : RwLock} {held : ι → Option Bool} {t : ι} {w : Bool}

/-- The readers, after a change at one thread. -/
theorem readersOf_update (held : ι → Option Bool) (t : ι) (x : Option Bool) :
    readersOf (update held t x) + (if held t = some false then 1 else 0) =
      readersOf held + if x = some false then 1 else 0 := by
  unfold readersOf
  rw [← add_sum_erase _ _ (mem_univ t), ← add_sum_erase _ _ (mem_univ t),
    sum_congr rfl fun u hu => by rw [update_of_ne (ne_of_mem_erase hu)], update_self]
  omega

namespace Guards

omit [DecidableEq ι] in
theorem free : Guards RwLock.free (fun _ : ι => none) where
  readers := by simp [RwLock.free, readersOf]
  writer := by simp [RwLock.free]
  alone := nofun

/-- **A lock that admits a thread stays right.** -/
theorem lock (h : Guards l held) (ht : held t = none) (ha : l.admits w = true) :
    Guards (l.lock w) (update held t (some w)) := by
  have hcount := readersOf_update held t (some w)
  simp only [RwLock.admits, Bool.and_eq_true, Bool.not_eq_eq_eq_not, Bool.not_true] at ha
  have hread : ∀ u, held u ≠ some true := fun u hu => by simp [h.writer.mpr ⟨u, hu⟩] at ha
  cases w with
  | false =>
    refine ⟨?_, ?_, ?_⟩
    · simpa [RwLock.lock, ht, h.readers] using hcount.symm
    · simpa [RwLock.lock, ha.1, update_apply] using fun u => by split <;> simp [hread]
    · exact fun u hu => absurd hu (by by_cases hut : u = t <;> simp [hut, hread])
  | true =>
    -- nobody reads, so nobody holds the lock
    have hzero : readersOf held = 0 := h.readers.symm.trans (by simpa using ha.2)
    have hnone : ∀ u, held u = none := by
      intro u
      have hu := sum_eq_zero_iff.mp hzero u (mem_univ u)
      cases hheld : held u with
      | none => rfl
      | some b =>
        cases b with
        | true => exact absurd hheld (hread u)
        | false => simp [hheld] at hu
    refine ⟨?_, ⟨fun _ => ⟨t, update_self ..⟩, fun _ => rfl⟩, fun u hu v hv => ?_⟩
    · simpa [RwLock.lock, ht, h.readers] using hcount.symm
    · by_cases hut : u = t
      · rw [update_of_ne (hut ▸ hv), hnone]
      · simp [hut, hnone] at hu

/-- **A lock that a thread gives back, as it took it, stays right.** -/
theorem unlock (h : Guards l held) (ht : held t = some w) :
    Guards (l.unlock w) (update held t none) := by
  have hcount := readersOf_update held t none
  have hheld : ∀ u, update held t none u = some true → u ≠ t ∧ held u = some true := by
    intro u hu
    by_cases hut : u = t
    · simp [hut] at hu
    · exact ⟨hut, (update_of_ne hut _ _).symm.trans hu⟩
  refine ⟨?_, ?_, fun u hu v hv => ?_⟩
  · rw [ht] at hcount
    cases w <;> simp [RwLock.unlock, h.readers] at hcount ⊢ <;> omega
  · cases w with
    | false =>
      refine h.writer.trans ⟨fun ⟨u, hu⟩ => ?_, fun ⟨u, hu⟩ => ⟨u, (hheld u hu).2⟩⟩
      by_cases hut : u = t
      · simp [hut, ht] at hu
      · exact ⟨u, (update_of_ne hut _ _).trans hu⟩
    | true =>
      -- the one writer is gone
      refine ⟨nofun, fun ⟨u, hu⟩ => ?_⟩
      obtain ⟨hut, hu⟩ := hheld u hu
      simp [h.alone t ht u hut] at hu
  · by_cases hvt : v = t
    · simp [hvt]
    · rw [update_of_ne hvt]
      exact h.alone u (hheld u hu).2 v hv

omit [DecidableEq ι] in
/-- **Two threads that hold a lock are both readers.** -/
theorem both_read (h : Guards l held) {u : ι} {x : Bool} (htu : t ≠ u) (ht : held t = some w)
    (hu : held u = some x) : w = false ∧ x = false := by
  cases w with
  | true => simp [h.alone t ht u htu.symm] at hu
  | false =>
    cases x with
    | true => simp [h.alone u hu t htu] at ht
    | false => exact ⟨rfl, rfl⟩

end Guards

end Systemtap.Lib
