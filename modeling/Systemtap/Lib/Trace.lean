import Mathlib

/-!
# Traces: total runs that change a state and keep a log

A computation that always ends, threads a state and records what it did. It is
the state monad over `σ` with a log of events `ε`; unlike a counter in the
state, the log of a composition is the two logs one after the other, so that a
statement about "what was recorded in this part" needs no difference of
counters.
-/

namespace Systemtap.Lib

/-- A value with the state and the log it was reached with. -/
structure Traced (ε σ α : Type) where
  val : α
  state : σ
  log : List ε

/-- A computation over states `σ` that records events `ε`. -/
def Trace (ε σ α : Type) : Type := σ → Traced ε σ α

namespace Trace

variable {ε σ α β : Type}

instance : Monad (Trace ε σ) where
  pure a := fun s => ⟨a, s, []⟩
  bind m f := fun s =>
    ⟨(f (m s).val (m s).state).val, (f (m s).val (m s).state).state,
      (m s).log ++ (f (m s).val (m s).state).log⟩

/-- Look at the state. -/
def read (f : σ → α) : Trace ε σ α := fun s => ⟨f s, s, []⟩

/-- Change the state. -/
def update (f : σ → σ) : Trace ε σ Unit := fun s => ⟨(), f s, []⟩

/-- Record an event. -/
def tell (e : ε) : Trace ε σ Unit := fun s => ⟨(), s, [e]⟩

@[simp] theorem pure_apply (a : α) (s : σ) : (pure a : Trace ε σ α) s = ⟨a, s, []⟩ := rfl

@[simp] theorem bind_apply (m : Trace ε σ α) (f : α → Trace ε σ β) (s : σ) :
    (m >>= f) s = ⟨(f (m s).val (m s).state).val, (f (m s).val (m s).state).state,
      (m s).log ++ (f (m s).val (m s).state).log⟩ := rfl

@[simp] theorem read_apply (f : σ → α) (s : σ) : (read f : Trace ε σ α) s = ⟨f s, s, []⟩ := rfl

@[simp] theorem update_apply (f : σ → σ) (s : σ) :
    (update f : Trace ε σ Unit) s = ⟨(), f s, []⟩ := rfl

@[simp] theorem tell_apply (e : ε) (s : σ) : (tell e : Trace ε σ Unit) s = ⟨(), s, [e]⟩ := rfl

theorem read_bind (f : σ → α) (g : α → Trace ε σ β) (s : σ) : (read f >>= g) s = g (f s) s := rfl

end Trace

end Systemtap.Lib
