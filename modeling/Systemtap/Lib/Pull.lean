import Mathlib

/-!
# Computations that read a state, can throw, and can run out of fuel

`Pull ε σ α` is the state monad with exceptions; an exception keeps the state in which it was thrown,
and the third outcome `spent` is for functions that recurse on fuel.

Such a function is a family `f : Nat → Pull ε σ α` that `Grows`: more fuel can only turn `spent` into
a real outcome. So it has a limit, `lim f`, and `Converges` passes through `>>=` and `attempt`: the
equations of a fuelled function are equations of its limit, where fuel is no longer mentioned.
`Converges.eq_iff` returns from the limit to the function.

`Pulled.Ends P` says of an outcome that its state has `P`.
-/

namespace Systemtap.Lib

variable {ε σ α β : Type}

inductive Pulled (ε σ α : Type) where
  | ok (a : α) (s : σ)
  | error (e : ε) (s : σ)
  | spent
deriving DecidableEq, Repr

def Pull (ε σ α : Type) : Type := σ → Pulled ε σ α

namespace Pull

instance : Monad (Pull ε σ) where
  pure a := fun s => .ok a s
  bind x f := fun s =>
    match x s with
    | .ok a s => f a s
    | .error e s => .error e s
    | .spent => .spent

def throw (e : ε) : Pull ε σ α := fun s => .error e s

/-- There is no fuel left. -/
def spent : Pull ε σ α := fun _ => .spent

/-- `try` -/
def attempt (x : Pull ε σ α) : Pull ε σ (Except ε α) := fun s =>
  match x s with
  | .ok a s => .ok (.ok a) s
  | .error e s => .ok (.error e) s
  | .spent => .spent

def lift (x : Except ε α) : Pull ε σ α := fun s =>
  match x with
  | .ok a => .ok a s
  | .error e => .error e s

def modify (f : σ → σ) : Pull ε σ Unit := fun s => .ok () (f s)

section Bind

variable {x : Pull ε σ β} {k : β → Pull ε σ α} {s s' : σ} {b : β} {e : ε}

theorem bind_of_ok (h : x s = .ok b s') : (x >>= k) s = k b s' := by
  simp only [bind, h]

theorem bind_of_error (h : x s = .error e s') : (x >>= k) s = .error e s' := by
  simp only [bind, h]

theorem bind_of_spent (h : x s = .spent) : (x >>= k) s = .spent := by
  simp only [bind, h]

theorem bind_congr {y : Pull ε σ β} (h : x s = y s') : (x >>= k) s = (y >>= k) s' := by
  simp only [bind, h]

theorem bind_assoc {γ : Type} (x : Pull ε σ γ) (j : γ → Pull ε σ β) (k : β → Pull ε σ α) :
    x >>= j >>= k = x >>= fun c => j c >>= k := by
  funext s
  cases h : x s with
  | ok c s' => simp only [bind, h]
  | error e s' => simp only [bind, h]
  | spent => simp only [bind, h]

theorem bind_eq_ok {a : α} {s'' : σ} (h : (x >>= k) s = .ok a s'') :
    ∃ b s', x s = .ok b s' ∧ k b s' = .ok a s'' := by
  cases hx : x s with
  | ok b s' => exact ⟨b, s', rfl, (bind_of_ok hx).symm.trans h⟩
  | error e s' => cases (bind_of_error hx).symm.trans h
  | spent => cases (bind_of_spent hx).symm.trans h

theorem attempt_of_ok (h : x s = .ok b s') : x.attempt s = .ok (.ok b) s' := by
  simp only [attempt, h]

theorem attempt_of_error (h : x s = .error e s') : x.attempt s = .ok (.error e) s' := by
  simp only [attempt, h]

theorem attempt_of_spent (h : x s = .spent) : x.attempt s = .spent := by
  simp only [attempt, h]

end Bind

end Pull

/-! ## More fuel -/

/-- The outcome `r` is `r'`, or there is none yet. -/
def Pulled.Le (r r' : Pulled ε σ α) : Prop := r = .spent ∨ r = r'

namespace Pulled.Le

variable {r r' r'' : Pulled ε σ α}

theorem refl (r : Pulled ε σ α) : r.Le r := .inr rfl

theorem trans (h : r.Le r') (h' : r'.Le r'') : r.Le r'' := by
  rcases h with rfl | rfl
  · exact .inl rfl
  · exact h'

theorem eq_of_ne (h : r.Le r') (hr : r ≠ .spent) : r' = r := by
  rcases h with rfl | rfl
  · exact absurd rfl hr
  · rfl

end Pulled.Le

namespace Pull

/-- Wherever `x` has an outcome, `y` has the same. -/
def Le (x y : Pull ε σ α) : Prop := ∀ s, (x s).Le (y s)

namespace Le

theorem refl (x : Pull ε σ α) : x.Le x := fun s => .refl (x s)

theorem trans {x y z : Pull ε σ α} (h : x.Le y) (h' : y.Le z) : x.Le z :=
  fun s => (h s).trans (h' s)

theorem spent (x : Pull ε σ α) : (Pull.spent : Pull ε σ α).Le x := fun _ => .inl rfl

theorem bind {x x' : Pull ε σ β} {k k' : β → Pull ε σ α} (hx : x.Le x') (hk : ∀ b, (k b).Le (k' b)) :
    (x >>= k).Le (x' >>= k') := by
  intro s
  rcases hx s with h | h
  · exact .inl (bind_of_spent h)
  · cases hs : x s with
    | ok b s' =>
      rw [bind_of_ok hs, bind_of_ok (h.symm.trans hs)]
      exact hk b s'
    | error e s' =>
      rw [bind_of_error hs, bind_of_error (h.symm.trans hs)]
      exact .refl _
    | spent => exact .inl (bind_of_spent hs)

theorem attempt {x y : Pull ε σ α} (h : x.Le y) : x.attempt.Le y.attempt := by
  intro s
  rcases h s with h | h
  · exact .inl (attempt_of_spent h)
  · exact .inr (by simp only [Pull.attempt, h])

end Le

end Pull

/-! ## Limits -/

section Limit

variable {f g : Nat → Pull ε σ α} {x y : Pull ε σ α}

/-- From every state, `f` does what `x` does as soon as there is enough fuel for it. -/
def Converges (f : Nat → Pull ε σ α) (x : Pull ε σ α) : Prop := ∀ s, ∃ n, ∀ m ≥ n, f m s = x s

namespace Converges

theorem const (x : Pull ε σ α) : Converges (fun _ => x) x := fun _ => ⟨0, fun _ _ => rfl⟩

theorem unique (hx : Converges f x) (hy : Converges f y) : x = y := by
  funext s
  obtain ⟨n1, h1⟩ := hx s
  obtain ⟨n2, h2⟩ := hy s
  exact (h1 (max n1 n2) (by omega)).symm.trans (h2 (max n1 n2) (by omega))

theorem shift (hx : Converges f x) : Converges (fun n => f (n + 1)) x := by
  intro s
  obtain ⟨n, hn⟩ := hx s
  exact ⟨n, fun m hm => hn (m + 1) (by omega)⟩

theorem bind {x : Nat → Pull ε σ β} {x' : Pull ε σ β} {k : Nat → β → Pull ε σ α}
    {k' : β → Pull ε σ α} (hx : Converges x x') (hk : ∀ b, Converges (fun n => k n b) (k' b)) :
    Converges (fun n => x n >>= k n) (x' >>= k') := by
  intro s
  obtain ⟨n1, h1⟩ := hx s
  cases hs : x' s with
  | ok b s' =>
    obtain ⟨n2, h2⟩ := hk b s'
    refine ⟨max n1 n2, fun m hm => ?_⟩
    show (x m >>= k m) s = (x' >>= k') s
    rw [Pull.bind_of_ok hs, Pull.bind_of_ok ((h1 m (by omega)).trans hs)]
    exact h2 m (by omega)
  | error e s' =>
    refine ⟨n1, fun m hm => ?_⟩
    show (x m >>= k m) s = (x' >>= k') s
    rw [Pull.bind_of_error hs, Pull.bind_of_error ((h1 m hm).trans hs)]
  | spent =>
    refine ⟨n1, fun m hm => ?_⟩
    show (x m >>= k m) s = (x' >>= k') s
    rw [Pull.bind_of_spent hs, Pull.bind_of_spent ((h1 m hm).trans hs)]

theorem attempt (hx : Converges f x) : Converges (fun n => (f n).attempt) x.attempt := by
  intro s
  obtain ⟨n, hn⟩ := hx s
  exact ⟨n, fun m hm => by simp only [Pull.attempt, hn m hm]⟩

theorem eq_iff (hx : Converges f x) {s : σ} {r : Pulled ε σ α} :
    x s = r ↔ ∃ n, ∀ m ≥ n, f m s = r := by
  obtain ⟨n, hn⟩ := hx s
  refine ⟨fun h => ⟨n, fun m hm => (hn m hm).trans h⟩, fun ⟨n', hn'⟩ => ?_⟩
  exact (hn (max n n') (by omega)).symm.trans (hn' (max n n') (by omega))

end Converges

/-- Fuel can only help. -/
def Grows (f : Nat → Pull ε σ α) : Prop := ∀ n, (f n).Le (f (n + 1))

theorem Grows.le (hf : Grows f) {m n : Nat} (h : m ≤ n) : (f m).Le (f n) := by
  induction h with
  | refl => exact .refl _
  | step _ ih => exact ih.trans (hf _)

/-- An outcome stays. -/
theorem Grows.stays (hf : Grows f) {n : Nat} {s : σ} {r : Pulled ε σ α} (h : f n s = r)
    (hr : r ≠ .spent) : ∀ m ≥ n, f m s = r := by
  intro m hm
  rw [← h]
  exact (hf.le hm s).eq_of_ne (h ▸ hr)

open Classical in
/-- The outcome with some fuel, if there is one. -/
noncomputable def lim (f : Nat → Pull ε σ α) : Pull ε σ α := fun s =>
  if h : ∃ n, f n s ≠ .spent then f h.choose s else .spent

theorem Grows.converges (hf : Grows f) : Converges f (lim f) := by
  intro s
  by_cases hex : ∃ n, f n s ≠ .spent
  · have hlim : lim f s = f hex.choose s := dif_pos hex
    refine ⟨hex.choose, fun m hm => ?_⟩
    rw [hlim]
    exact (hf.le hm s).eq_of_ne hex.choose_spec
  · have hlim : lim f s = .spent := dif_neg hex
    refine ⟨0, fun m _ => ?_⟩
    rw [hlim]
    by_contra hne
    exact hex ⟨m, hne⟩

/-- Of two families that run between each other one has the limit of the other. -/
theorem Converges.between (hf : Converges f x) (hfg : ∀ n, (f n).Le (g n))
    (hgf : ∀ n, (g n).Le (f (n + 1))) : Converges g x := by
  intro s
  obtain ⟨n, hn⟩ := hf s
  refine ⟨n, fun m hm => ?_⟩
  rcases hfg m s with h | h
  · rcases hgf m s with h' | h'
    · -- the limit is `spent`, and so is everything below it
      rw [h', ← hn m hm, h]
    · rw [h', hn (m + 1) (by omega)]
  · rw [← h, hn m hm]

end Limit

/-! ## Where it ends -/

/-- Whatever the outcome is, it leaves a state with `P`. -/
def Pulled.Ends (P : σ → Prop) : Pulled ε σ α → Prop
  | .ok _ s | .error _ s => P s
  | .spent => True

namespace Pulled.Ends

variable {P Q : σ → Prop}

theorem mono {r : Pulled ε σ α} (h : r.Ends P) (hPQ : ∀ s, P s → Q s) : r.Ends Q := by
  cases r with
  | ok a s => exact hPQ s h
  | error e s => exact hPQ s h
  | spent => trivial

theorem bind {x : Pull ε σ β} {k : β → Pull ε σ α} {s : σ} (hx : (x s).Ends P)
    (hk : ∀ b s', P s' → (k b s').Ends P) : ((x >>= k) s).Ends P := by
  cases hs : x s with
  | ok b s' =>
    rw [Pull.bind_of_ok hs]
    rw [hs] at hx
    exact hk b s' hx
  | error e s' =>
    rw [Pull.bind_of_error hs]
    rw [hs] at hx
    exact hx
  | spent =>
    rw [Pull.bind_of_spent hs]
    trivial

theorem attempt {x : Pull ε σ α} {s : σ} (hx : (x s).Ends P) : (x.attempt s).Ends P := by
  cases hs : x s with
  | ok b s' =>
    rw [Pull.attempt_of_ok hs]
    rw [hs] at hx
    exact hx
  | error e s' =>
    rw [Pull.attempt_of_error hs]
    rw [hs] at hx
    exact hx
  | spent =>
    rw [Pull.attempt_of_spent hs]
    trivial

end Pulled.Ends

end Systemtap.Lib
