import Systemtap.Lib.Run

/-!
# Matching one run by another

A `View` fixes what two runs are compared by: a relation on states, the
events that must agree, and the events that make a run fatal. `Sim V m m'`
says that every run of `m` that ends and emits nothing fatal is matched by
the run of `m'` from a related state. `Idle V Q m` says that such a run of
`m` needs no match: it stays related to a state that does not move, and
nothing it emits is shown.

Every combinator of `Lib.Run` has one rule for each notion. A proof that a
rewriting of programs is sound is then a walk over the syntax that cites
these rules, with `Idle.bind_sim` and `Sim.bind_idle` at the places where
the rewriting drops a step.
-/

namespace Systemtap.Lib

open Run List

variable {ε σ α β γ : Type}

/-- What two runs are compared by. -/
structure View (ε σ : Type) where
  rel : σ → σ → Prop
  fatal : ε → Bool
  shown : ε → Bool

/-- The run ends and emits nothing fatal. -/
def View.Ok (V : View ε σ) (o : Outcome ε σ α) : Prop :=
  o.flow ≠ .halt ∧ ∀ e ∈ o.events, V.fatal e = false

/-- The outcome `o'` shows what `o` shows. -/
structure View.Matches (V : View ε σ) (o o' : Outcome ε σ α) : Prop where
  flow : o'.flow = o.flow
  state : V.rel o.state o'.state
  events : o'.events.filter V.shown = o.events.filter V.shown
  fatal : ∀ e ∈ o'.events, V.fatal e = false

/-- A run inside a scope that keeps what is fatal. -/
theorem View.Ok.of_inScope {V W : View ε σ} {enter : σ → σ} {leave : σ → σ → σ} {keep : ε → Bool}
    {m : Run ε σ α} {s : σ} (h : V.Ok (Run.inScope enter leave keep m s))
    (hfatal : ∀ e, W.fatal e = V.fatal e) (hkeep : ∀ e, V.fatal e = true → keep e = true) :
    W.Ok (m (enter s)) := by
  refine ⟨h.1, fun e he => ?_⟩
  rw [hfatal]
  by_contra hc
  have hc : V.fatal e = true := by simpa using hc
  have := h.2 e (mem_filter.mpr ⟨he, hkeep e hc⟩)
  simp [this] at hc

theorem View.Ok.of_bind {V : View ε σ} {m : Run ε σ α} {f : α → Run ε σ β} {s : σ}
    (h : V.Ok ((m >>= f) s)) : V.Ok (m s) ∧ ∀ {a t es}, m s = ⟨.val a, t, es⟩ → V.Ok (f a t) := by
  rw [bind_apply] at h
  obtain ⟨hf, he⟩ := h
  rcases ho : m s with ⟨a | _ | _, t, es⟩ <;> rw [ho] at hf he
  · refine ⟨⟨nofun, fun e h => he e (mem_append_left _ h)⟩, fun hb => ?_⟩
    cases hb
    exact ⟨hf, fun e h => he e (mem_append_right _ h)⟩
  · exact ⟨⟨nofun, he⟩, nofun⟩
  · exact absurd rfl hf

/-- Outcomes that match still do after events that match. -/
theorem View.Matches.append {V : View ε σ} {o o' : Outcome ε σ α} {es es' : List ε}
    (h : V.Matches o o') (hev : es'.filter V.shown = es.filter V.shown)
    (hfa : ∀ e ∈ es', V.fatal e = false) :
    V.Matches ⟨o.flow, o.state, es ++ o.events⟩ ⟨o'.flow, o'.state, es' ++ o'.events⟩ := by
  refine ⟨h.flow, h.state, ?_, ?_⟩
  · simp only [filter_append, hev, h.events]
  · intro e he
    exact (mem_append.mp he).elim (hfa e) (h.fatal e)

/-- Every run of `m` that ends and emits nothing fatal is matched by `m'`. -/
def Sim (V : View ε σ) (m m' : Run ε σ α) : Prop :=
  ∀ s t, V.rel s t → V.Ok (m s) → V.Matches (m s) (m' t)

/-- A run of `m` that ends and emits nothing fatal ends as `Q` says, stays
related to whatever its start was related to, and shows nothing. -/
def Idle (V : View ε σ) (Q : Flow α → Prop) (m : Run ε σ α) : Prop :=
  ∀ s t, V.rel s t → V.Ok (m s) →
    Q (m s).flow ∧ V.rel (m s).state t ∧ (m s).events.filter V.shown = []

/-! ## Two-sided rules -/

namespace Sim

variable {V : View ε σ}

theorem pure (a : α) : Sim V (Pure.pure a : Run ε σ α) (Pure.pure a) :=
  fun _ _ h _ => ⟨rfl, h, rfl, nofun⟩

theorem out : Sim V (Run.out : Run ε σ α) Run.out :=
  fun _ _ h _ => ⟨rfl, h, rfl, nofun⟩

theorem halt (m' : Run ε σ α) : Sim V Run.halt m' :=
  fun _ _ _ ok => absurd rfl ok.1

theorem read {f g : σ → α} (h : ∀ s t, V.rel s t → g t = f s) : Sim V (Run.read f) (Run.read g) :=
  fun s t hr _ => ⟨congrArg Flow.val (h s t hr), hr, rfl, nofun⟩

theorem update {f g : σ → σ} (h : ∀ s t, V.rel s t → V.rel (f s) (g t)) :
    Sim V (Run.update f) (Run.update g) :=
  fun s t hr _ => ⟨rfl, h s t hr, rfl, nofun⟩

theorem emit (e : ε) : Sim V (Run.emit e : Run ε σ Unit) (Run.emit e) :=
  fun _ _ hr ok => ⟨rfl, hr, rfl, ok.2⟩

variable {m m' : Run ε σ α}

/-- Sequencing, where the second run may rely on what values the first yields. -/
theorem bind_yields {P : α → Prop} {f f' : α → Run ε σ β} (hm : Sim V m m')
    (hp : Yields P m) (hf : ∀ a, P a → Sim V (f a) (f' a)) : Sim V (m >>= f) (m' >>= f') := by
  intro s t hr ok
  obtain ⟨okm, okf⟩ := ok.of_bind
  have h1 := hm s t hr okm
  have hy := hp s
  rw [bind_apply, bind_apply]
  rcases ho : m s with ⟨a | _ | _, s1, es⟩ <;> rcases ho' : m' t with ⟨fl, t1, es'⟩ <;>
    rw [ho, ho'] at h1 <;> obtain ⟨rfl, hst, hev, hfa⟩ := h1
  · exact (hf a (hy a (by rw [ho])) s1 t1 hst (okf ho)).append hev hfa
  · exact ⟨rfl, hst, hev, hfa⟩
  · exact ⟨rfl, hst, hev, hfa⟩

theorem bind {f f' : α → Run ε σ β} (hm : Sim V m m')
    (hf : ∀ a, Sim V (f a) (f' a)) : Sim V (m >>= f) (m' >>= f') :=
  hm.bind_yields (fun _ _ _ => trivial) fun a _ => hf a

/-- A read whose result is the same in all related states. -/
theorem read_const {f g : σ → α} {k k' : α → Run ε σ β} {a : α}
    (h : ∀ s t, V.rel s t → f s = a ∧ g t = a) (hk : Sim V (k a) (k' a)) :
    Sim V (Run.read f >>= k) (Run.read g >>= k') := by
  intro s t hr ok
  obtain ⟨hs, ht⟩ := h s t hr
  simp only [bind_apply, Run.read, andThen_val, hs, ht, nil_append] at ok ⊢
  exact hk s t hr ok

theorem onOut {m m' h h' : Run ε σ α} (hm : Sim V m m') (hh : Sim V h h') :
    Sim V (Run.onOut m h) (Run.onOut m' h') := by
  intro s t hr ok
  unfold Run.onOut at ok ⊢
  rcases ho : m s with ⟨a | _ | _, s1, es⟩ <;> rw [ho] at ok
  · have h1 := hm s t hr (by rwa [ho])
    rw [ho] at h1
    have hfl : (m' t).flow = .val a := h1.flow
    simpa only [hfl] using h1
  · have h1 := hm s t hr
      (by rw [ho]; exact ⟨nofun, fun e he => ok.2 e (mem_append_left _ he)⟩)
    rw [ho] at h1
    have hfl : (m' t).flow = .out := h1.flow
    have h2 := hh s1 (m' t).state h1.state
      ⟨ok.1, fun e he => ok.2 e (mem_append_right _ he)⟩
    simp only [hfl]
    exact h2.append h1.events h1.fatal
  · exact absurd rfl ok.1

theorem iterate {step step' : α → Run ε σ (α ⊕ β)} (h : ∀ a, Sim V (step a) (step' a)) :
    ∀ n a, Sim V (Run.iterate step n a) (Run.iterate step' n a)
  | 0, _ => halt _
  | n + 1, a => by
    rw [iterate_succ, iterate_succ]
    refine (h a).bind fun r => ?_
    cases r with
    | inl a' => exact iterate h n a'
    | inr b => exact pure b

/-- A scope may be compared inside by a view `W` of its own, as long as what
leaves the scope and is shown outside is shown inside. -/
theorem inScope {W : View ε σ} {enter : σ → σ} {leave : σ → σ → σ}
    {keep : ε → Bool} (hm : Sim W m m') (henter : ∀ s t, V.rel s t → W.rel (enter s) (enter t))
    (hleave : ∀ s t s' t', V.rel s t → W.rel s' t' → V.rel (leave s s') (leave t t'))
    (hshown : ∀ e, keep e = true → V.shown e = true → W.shown e = true)
    (hfatal : ∀ e, W.fatal e = V.fatal e) (hkeep : ∀ e, V.fatal e = true → keep e = true) :
    Sim V (Run.inScope enter leave keep m) (Run.inScope enter leave keep m') := by
  intro s t hr ok
  have h1 := hm _ _ (henter s t hr) (ok.of_inScope hfatal hkeep)
  refine ⟨h1.flow, hleave _ _ _ _ hr h1.state, ?_, ?_⟩
  · -- what is kept and shown is a sublist of what the inner view shows
    have hsub : ∀ es : List ε, (es.filter keep).filter V.shown
        = ((es.filter W.shown).filter keep).filter V.shown := by
      intro es
      simp only [filter_filter]
      refine filter_congr fun e _ => ?_
      cases hk : keep e <;> cases hv : V.shown e <;> simp
      exact hshown e hk hv
    exact (hsub _).trans ((congrArg _ (congrArg _ h1.events)).trans (hsub _).symm)
  · intro e he
    rw [← hfatal]
    exact h1.fatal e (mem_of_mem_filter he)

end Sim

/-! ## One-sided rules -/

/-- The flow yields a value. -/
def Flow.IsVal : Flow α → Prop
  | .val _ => True
  | _ => False

/-- A round of a loop goes on, or ends the loop as `Q` allows. -/
def RoundEnds (Q : Flow β → Prop) : Flow (α ⊕ β) → Prop
  | .val (.inl _) => True
  | .val (.inr b) => Q (.val b)
  | .out => Q .out
  | .halt => True

namespace Idle

variable {V : View ε σ} {Q : Flow α → Prop} {m : Run ε σ α}

theorem mono {Q' : Flow α → Prop} (h : Idle V Q m) (hq : ∀ r, Q r → Q' r) : Idle V Q' m :=
  fun s t hr ok => ⟨hq _ (h s t hr ok).1, (h s t hr ok).2⟩

theorem pure {a : α} (h : Q (.val a)) : Idle V Q (Pure.pure a : Run ε σ α) :=
  fun _ _ hr _ => ⟨h, hr, rfl⟩

theorem out (h : Q .out) : Idle V Q (Run.out : Run ε σ α) :=
  fun _ _ hr _ => ⟨h, hr, rfl⟩

theorem halt : Idle V Q (Run.halt : Run ε σ α) :=
  fun _ _ _ ok => absurd rfl ok.1

theorem read {f : σ → α} (h : ∀ a, Q (.val a)) : Idle V Q (Run.read f : Run ε σ α) :=
  fun _ _ hr _ => ⟨h _, hr, rfl⟩

theorem update {Q : Flow Unit → Prop} {f : σ → σ} (h : ∀ s t, V.rel s t → V.rel (f s) t)
    (hq : Q (.val ())) : Idle V Q (Run.update f : Run ε σ Unit) :=
  fun s t hr _ => ⟨hq, h s t hr, rfl⟩

theorem emit {Q : Flow Unit → Prop} {e : ε} (h : V.fatal e = false → V.shown e = false)
    (hq : Q (.val ())) : Idle V Q (Run.emit e : Run ε σ Unit) :=
  fun _ _ hr ok => ⟨hq, hr, by
    have := h (ok.2 e (mem_singleton.mpr rfl))
    simp [Run.emit, this]⟩

variable {Q' : Flow β → Prop} {f : α → Run ε σ β}

theorem bind (hm : Idle V Q m)
    (hf : ∀ a, Q (.val a) → Idle V Q' (f a)) (ho : Q .out → Q' .out) : Idle V Q' (m >>= f) := by
  intro s t hr ok
  obtain ⟨okm, okf⟩ := ok.of_bind
  have h1 := hm s t hr okm
  rw [bind_apply]
  rcases hms : m s with ⟨a | _ | _, s1, es⟩ <;> rw [hms] at h1 okm <;> obtain ⟨hq, hst, hev⟩ := h1
  · have h2 := hf a hq s1 t hst (okf hms)
    refine ⟨h2.1, h2.2.1, ?_⟩
    simp only [andThen_val, filter_append, hev, h2.2.2, append_nil]
  · exact ⟨ho hq, hst, hev⟩
  · exact absurd rfl okm.1

theorem onOut {m h : Run ε σ α} {Q' : Flow α → Prop} (hm : Idle V Q m)
    (hv : ∀ a, Q (.val a) → Q' (.val a)) (hh : Q .out → Idle V Q' h) :
    Idle V Q' (Run.onOut m h) := by
  intro s t hr ok
  unfold Run.onOut at ok ⊢
  rcases hms : m s with ⟨a | _ | _, s1, es⟩ <;> rw [hms] at ok
  · have h1 := hm s t hr (by rwa [hms])
    rw [hms] at h1
    exact ⟨hv a h1.1, h1.2⟩
  · have h1 := hm s t hr
      (by rw [hms]; exact ⟨nofun, fun e he => ok.2 e (mem_append_left _ he)⟩)
    rw [hms] at h1
    obtain ⟨hq, hst, hev⟩ := h1
    have h2 := hh hq s1 t hst ⟨ok.1, fun e he => ok.2 e (mem_append_right _ he)⟩
    exact ⟨h2.1, h2.2.1, by simp only [filter_append, hev, h2.2.2, append_nil]⟩
  · exact absurd rfl ok.1

/-- Sequencing after a step that only yields a value. -/
theorem seq (hm : Idle V Flow.IsVal m) (hf : ∀ a, Idle V Q' (f a)) : Idle V Q' (m >>= f) :=
  hm.bind (fun a _ => hf a) False.elim

/-- Sequencing after a step that always yields the same value. -/
theorem bind_val {a : α} (hm : Idle V (· = .val a) m) (hf : Idle V Q' (f a)) : Idle V Q' (m >>= f) :=
  hm.bind (fun _ h => Flow.val.inj h ▸ hf) nofun

theorem halt_bind : Idle V Q' (Run.halt >>= f) :=
  bind (Q := fun _ => False) halt nofun nofun

/-- A read whose result is the same in all related states. -/
theorem read_const {f : σ → α} {k : α → Run ε σ β} {a : α}
    (h : ∀ s t, V.rel s t → f s = a) (hk : Idle V Q' (k a)) : Idle V Q' (Run.read f >>= k) := by
  intro s t hr ok
  simp only [bind_apply, Run.read, andThen_val, h s t hr, nil_append] at ok ⊢
  exact hk s t hr ok

theorem iterate {step : α → Run ε σ (α ⊕ β)}
    (h : ∀ a, Idle V (RoundEnds Q') (step a)) : ∀ n a, Idle V Q' (Run.iterate step n a)
  | 0, _ => halt
  | n + 1, a => by
    rw [iterate_succ]
    refine (h a).bind (fun r hr => ?_) id
    cases r with
    | inl a' => exact iterate h n a'
    | inr b => exact pure hr

/-- A loop that ends in its first round. -/
theorem iterate_once {step : α → Run ε σ (α ⊕ β)} {a : α} {b : β}
    (h : Idle V (· = .val (.inr b)) (step a)) (n : Nat) :
    Idle V (· = .val b) (Run.iterate step n a) := by
  cases n with
  | zero => exact halt
  | succ n =>
    rw [iterate_succ]
    exact h.bind_val (pure rfl)

/-- Entering a scope, running idly in it by a view `W` of its own, and
leaving it again is idle outside. -/
theorem inScope {W : View ε σ} {enter : σ → σ} {leave : σ → σ → σ}
    {keep : ε → Bool} (hm : Idle W Q m) (henter : ∀ s t, V.rel s t → W.rel (enter s) s)
    (hleave : ∀ s s' t, V.rel s t → W.rel s' s → V.rel (leave s s') t)
    (hshown : ∀ e, keep e = true → V.shown e = true → W.shown e = true)
    (hfatal : ∀ e, W.fatal e = V.fatal e) (hkeep : ∀ e, V.fatal e = true → keep e = true) :
    Idle V Q (Run.inScope enter leave keep m) := by
  intro s t hr ok
  obtain ⟨hq, hst, hev⟩ := hm _ _ (henter s t hr) (ok.of_inScope hfatal hkeep)
  refine ⟨hq, hleave _ _ _ hr hst, ?_⟩
  rw [filter_eq_nil_iff] at hev ⊢
  intro e he hs
  obtain ⟨he, hk⟩ := mem_filter.mp he
  exact hev e he (hshown e hk hs)

/-- Drop an idle first step. -/
theorem bind_sim {m' : Run ε σ β} (hm : Idle V Q m)
    (hout : ¬ Q .out) (hf : ∀ a, Q (.val a) → Sim V (f a) m') : Sim V (m >>= f) m' := by
  intro s t hr ok
  obtain ⟨okm, okf⟩ := ok.of_bind
  have h1 := hm s t hr okm
  rw [bind_apply]
  rcases hms : m s with ⟨a | _ | _, s1, es⟩ <;> rw [hms] at h1 okm <;> obtain ⟨hq, hst, hev⟩ := h1
  · have h2 := hf a hq s1 t hst (okf hms)
    refine ⟨h2.flow, h2.state, ?_, h2.fatal⟩
    simp only [andThen_val, filter_append, hev, h2.events, nil_append]
  · exact absurd hq hout
  · exact absurd rfl okm.1

theorem val_sim {m' : Run ε σ β} {a : α} (hm : Idle V (· = .val a) m) (hf : Sim V (f a) m') :
    Sim V (m >>= f) m' :=
  hm.bind_sim nofun fun _ h => Flow.val.inj h ▸ hf

end Idle

variable {V : View ε σ} {m : Run ε σ α}

/-- Being idle is being matched by doing nothing. -/
theorem Idle.sim {a : α} (h : Idle V (· = .val a) m) : Sim V m (Pure.pure a) := by
  intro s t hr ok
  obtain ⟨hq, hst, hev⟩ := h s t hr ok
  exact ⟨hq.symm, hst, hev.symm, nofun⟩

theorem Sim.idle {a : α} (h : Sim V m (Pure.pure a)) : Idle V (· = .val a) m := by
  intro s t hr ok
  have hm := h s t hr ok
  exact ⟨hm.flow.symm, hm.state, hm.events.symm⟩

/-- Sequencing after a run whose value is not used: `m'` may yield another one. -/
theorem Sim.void_bind {m' : Run ε σ γ} {b : γ}
    {f : α → Run ε σ β} {f' : γ → Run ε σ β} (hm : Sim V (m >>= fun _ => Pure.pure b) m')
    (hf : ∀ a, Sim V (f a) (f' b)) : Sim V (m >>= f) (m' >>= f') := by
  intro s t hr ok
  obtain ⟨okm, okf⟩ := ok.of_bind
  have h1 := hm s t hr
  rw [bind_apply] at h1
  rw [bind_apply, bind_apply]
  rcases hms : m s with ⟨a | _ | _, s1, es⟩ <;> rw [hms] at h1 okm
  · rcases hmt : m' t with ⟨fl, t1, es'⟩
    rw [andThen_val, pure_apply, append_nil] at h1
    obtain ⟨hfl, hst, hev, hfa⟩ := h1 ⟨by simp, okm.2⟩
    rw [hmt] at hfl hst hev hfa
    obtain rfl : fl = .val b := hfl
    exact (hf a s1 t1 hst (okf hms)).append hev hfa
  · rcases hmt : m' t with ⟨fl, t1, es'⟩
    obtain ⟨hfl, hst, hev, hfa⟩ := h1 ⟨by simp, okm.2⟩
    rw [hmt] at hfl hst hev hfa
    obtain rfl : fl = .out := hfl
    exact ⟨rfl, hst, hev, hfa⟩
  · exact absurd rfl okm.1

/-- After a run whose value is not used, an idle step may be dropped. -/
theorem Sim.void_idle {m' : Run ε σ γ} {b : γ}
    {f : α → Run ε σ γ} (hm : Sim V (m >>= fun _ => Pure.pure b) m')
    (hf : ∀ a, Idle V (· = .val b) (f a)) : Sim V (m >>= f) m' := by
  have h : Sim V (m >>= f) (m' >>= Pure.pure) := hm.void_bind fun a => (hf a).sim
  rwa [bind_pure] at h

/-- Drop an idle last step that hands its value on. -/
theorem Sim.bind_idle {m m' : Run ε σ α} {f : α → Run ε σ α} (hm : Sim V m m')
    (hf : ∀ a, Idle V (· = .val a) (f a)) : Sim V (m >>= f) m' := by
  have h : Sim V (m >>= f) (m' >>= Pure.pure) := hm.bind fun a => (hf a).sim
  rwa [bind_pure] at h

end Systemtap.Lib
