import Systemtap.Lib.Run

/-!
# Laws of runs

A `Law` is a property of runs that the combinators of `Lib.Run` keep: doing
nothing has it, and a run put together from runs that have it has it too. A
statement of the form "no run of this program ever ..." is then shown once, by
a walk over the syntax for an arbitrary law, and each use of it only says what
the law is and why the primitive steps obey it.

Two families of laws are defined. `Law.maintains I P`: from a state in `I` the
run ends in `I`, and every event it emits satisfies `P`. `Law.commutes put`:
the run does not notice that `put` was applied to the state it starts from,
and leaves what `put` did in place.
-/

namespace Systemtap.Lib

variable {ε σ α β : Type}

/-- An outcome with `put` applied to the state it leaves behind. -/
def Outcome.over (put : σ → σ) (o : Outcome ε σ α) : Outcome ε σ α :=
  ⟨o.flow, put o.state, o.events⟩

/-- A property of runs that the combinators keep. -/
structure Law (ε σ : Type) where
  Holds : ∀ {α : Type}, Run ε σ α → Prop
  pure : ∀ {α : Type} (a : α), Holds (Pure.pure a : Run ε σ α)
  out : ∀ {α : Type}, Holds (Run.out : Run ε σ α)
  halt : ∀ {α : Type}, Holds (Run.halt : Run ε σ α)
  bind : ∀ {α β : Type} {m : Run ε σ α} {f : α → Run ε σ β}, Holds m → (∀ a, Holds (f a)) →
    Holds (m >>= f)
  onOut : ∀ {α : Type} {m h : Run ε σ α}, Holds m → Holds h → Holds (Run.onOut m h)

namespace Law

/-- From a state in `I` a run ends in `I` and emits only events in `P`. -/
def maintains (I : σ → Prop) (P : ε → Prop) : Law ε σ where
  Holds m := ∀ s, I s → I (m s).state ∧ ∀ e ∈ (m s).events, P e
  pure _ _ hs := ⟨hs, fun _ he => absurd he List.not_mem_nil⟩
  out _ hs := ⟨hs, fun _ he => absurd he List.not_mem_nil⟩
  halt _ hs := ⟨hs, fun _ he => absurd he List.not_mem_nil⟩
  bind {_ _ m f} hm hf s hs := by
    have h1 := hm s hs
    rw [Run.bind_apply]
    rcases ho : m s with ⟨a | _ | _, t, es⟩ <;> rw [ho] at h1
    · have h2 := hf a t h1.1
      refine ⟨h2.1, fun e he => ?_⟩
      rcases List.mem_append.mp he with he | he
      · exact h1.2 e he
      · exact h2.2 e he
    · exact h1
    · exact h1
  onOut {_ m h} hm hh s hs := by
    have h1 := hm s hs
    unfold Run.onOut
    rcases ho : m s with ⟨a | _ | _, t, es⟩ <;> rw [ho] at h1
    · exact h1
    · have h2 := hh t h1.1
      refine ⟨h2.1, fun e he => ?_⟩
      rcases List.mem_append.mp he with he | he
      · exact h1.2 e he
      · exact h2.2 e he
    · exact h1

/-- A read whose result is the same in all states of the invariant. -/
theorem maintains_read_const {I : σ → Prop} {P : ε → Prop} {f : σ → α} {k : α → Run ε σ β} {a : α}
    (h : ∀ s, I s → f s = a) (hk : (maintains I P).Holds (k a)) :
    (maintains I P).Holds (Run.read f >>= k) := by
  intro s hs
  simp only [Run.bind_apply, Run.read, Run.andThen_val, h s hs, List.nil_append]
  exact hk s hs

/-- A run does not notice `put`, and leaves what it did in place. -/
def commutes (put : σ → σ) : Law ε σ where
  Holds m := ∀ s, m (put s) = (m s).over put
  pure _ _ := rfl
  out _ := rfl
  halt _ := rfl
  bind {_ _ m f} hm hf s := by
    rw [Run.bind_apply, Run.bind_apply, hm s]
    rcases m s with ⟨a | _ | _, t, es⟩
    · simp only [Outcome.over, Run.andThen_val, hf a t]
    · rfl
    · rfl
  onOut {_ m h} hm hh s := by
    unfold Run.onOut
    rw [hm s]
    rcases m s with ⟨a | _ | _, t, es⟩
    · rfl
    · simp only [Outcome.over, hh t]
    · rfl

end Law

end Systemtap.Lib
