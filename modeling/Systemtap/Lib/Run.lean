import Mathlib

/-!
# Runs: a state that is threaded, events that are emitted, two ways to stop

The semantics of a small imperative language needs four things at once: a
state that every step may change, a trace of what was done, a way to leave
the current handler early (`out`), and a way to say that the run has no
further meaning or that the fuel of a loop is spent (`halt`). `Run ε σ α`
has all four. Two choices matter for the proofs below.

* Events are collected by `bind`, not stored in the state. So "this run
  emitted no fatal event" splits over `bind` with no monotonicity lemma.
* `halt` keeps the events that were emitted before it. So a law about every
  event holds of every prefix of a run that does not end.

Three notions are developed for every combinator. `Emits` is a law about
every event. `Sim` says that one run is matched by another, up to a relation
on states and up to the events that are shown; it speaks of runs that end
and emit no fatal event. `Idle` is its one-sided case: a run that the other
side need not make at all.
-/

namespace Systemtap.Lib

/-- How a run ends: with a value, by leaving the handler, or not at all. -/
inductive Flow (α : Type) where
  | val (a : α)
  | out
  | halt
deriving DecidableEq

/-- What a run leaves behind. -/
structure Outcome (ε σ α : Type) where
  flow : Flow α
  state : σ
  events : List ε

/-- A computation over states `σ` that emits events `ε`. -/
def Run (ε σ α : Type) : Type := σ → Outcome ε σ α

namespace Run

variable {ε σ α β γ : Type}

/-- Continue an outcome with `f`; only a value goes on. -/
def andThen (o : Outcome ε σ α) (f : α → Run ε σ β) : Outcome ε σ β :=
  match o.flow with
  | .val a => ⟨(f a o.state).flow, (f a o.state).state, o.events ++ (f a o.state).events⟩
  | .out => ⟨.out, o.state, o.events⟩
  | .halt => ⟨.halt, o.state, o.events⟩

instance : Monad (Run ε σ) where
  pure a := fun s => ⟨.val a, s, []⟩
  bind m f := fun s => andThen (m s) f

/-- Leave the current handler. -/
def out : Run ε σ α := fun s => ⟨.out, s, []⟩

/-- The run has no further meaning, or its fuel is spent. -/
def halt : Run ε σ α := fun s => ⟨.halt, s, []⟩

/-- Look at the state. -/
def read (f : σ → α) : Run ε σ α := fun s => ⟨.val (f s), s, []⟩

/-- Change the state. -/
def update (f : σ → σ) : Run ε σ Unit := fun s => ⟨.val (), f s, []⟩

/-- Emit one event. -/
def emit (e : ε) : Run ε σ Unit := fun s => ⟨.val (), s, [e]⟩

/-- Go on with `h` where `m` leaves its handler. -/
def onOut (m h : Run ε σ α) : Run ε σ α := fun s =>
  match (m s).flow with
  | .out => ⟨(h (m s).state).flow, (h (m s).state).state, (m s).events ++ (h (m s).state).events⟩
  | _ => m s

/-- Run `m` in the state `enter s` and put the caller's part of the state back
with `leave`; of the events only those that `keep` says leave the scope. -/
def inScope (enter : σ → σ) (leave : σ → σ → σ) (keep : ε → Bool) (m : Run ε σ α) : Run ε σ α :=
  fun s => ⟨(m (enter s)).flow, leave s (m (enter s)).state, (m (enter s)).events.filter keep⟩

/-- A loop with fuel: `step` says whether to go round again. -/
def iterate (step : α → Run ε σ (α ⊕ β)) : Nat → α → Run ε σ β
  | 0, _ => halt
  | n + 1, a => do
    match ← step a with
    | .inl a' => iterate step n a'
    | .inr b => pure b

theorem pure_apply (a : α) (s : σ) : (pure a : Run ε σ α) s = ⟨.val a, s, []⟩ := rfl

theorem bind_apply (m : Run ε σ α) (f : α → Run ε σ β) (s : σ) :
    (m >>= f) s = andThen (m s) f := rfl

@[simp] theorem andThen_val (a : α) (s : σ) (es : List ε) (f : α → Run ε σ β) :
    andThen ⟨.val a, s, es⟩ f = ⟨(f a s).flow, (f a s).state, es ++ (f a s).events⟩ := rfl

@[simp] theorem andThen_out (s : σ) (es : List ε) (f : α → Run ε σ β) :
    andThen ⟨.out, s, es⟩ f = ⟨.out, s, es⟩ := rfl

@[simp] theorem andThen_halt (s : σ) (es : List ε) (f : α → Run ε σ β) :
    andThen ⟨.halt, s, es⟩ f = ⟨.halt, s, es⟩ := rfl

instance : LawfulMonad (Run ε σ) :=
  LawfulMonad.mk' (Run ε σ)
    (fun m => by
      funext s
      change andThen (m s) _ = m s
      rcases m s with ⟨_ | _ | _, t, es⟩
      · exact congrArg (Outcome.mk _ _) (List.append_nil es)
      · rfl
      · rfl)
    (fun a f => by
      funext s
      simp only [bind_apply, pure_apply, andThen_val, List.nil_append])
    (fun m f g => by
      funext s
      simp only [bind_apply]
      rcases m s with ⟨a | _ | _, t, es⟩
      · simp only [andThen_val, bind_apply]
        rcases f a t with ⟨b | _ | _, u, fs⟩ <;> simp
      · rfl
      · rfl)

theorem iterate_succ (step : α → Run ε σ (α ⊕ β)) (n : Nat) (a : α) :
    iterate step (n + 1) a = step a >>= Sum.elim (iterate step n) pure := by
  change step a >>= _ = _
  congr 1
  funext r
  cases r <;> rfl

/-! ## Laws about every value -/

/-- Every value a run of `m` ends with satisfies `P`. -/
def Yields (P : α → Prop) (m : Run ε σ α) : Prop := ∀ s a, (m s).flow = .val a → P a

namespace Yields

theorem pure {P : α → Prop} {a : α} (h : P a) : Yields P (Pure.pure a : Run ε σ α) := by
  intro s b hb
  obtain rfl : a = b := Flow.val.inj hb
  exact h

theorem halt {P : α → Prop} : Yields P (Run.halt : Run ε σ α) := nofun

theorem bind {P : β → Prop} {m : Run ε σ α} {f : α → Run ε σ β} (hf : ∀ a, Yields P (f a)) :
    Yields P (m >>= f) := by
  intro s b hb
  rw [bind_apply] at hb
  rcases ho : m s with ⟨a | _ | _, t, es⟩ <;> rw [ho] at hb
  · exact hf a t b hb
  · exact nomatch hb
  · exact nomatch hb

end Yields

end Run

end Systemtap.Lib
