import Systemtap.Sem.Congr

/-!
# Calls and probe handlers

From bodies to whole runs. If the bodies of two sessions match wherever calls
match, then calls match, by induction on the levels left below `MAXNESTING`;
and so do the probe handlers.

`Session.Preserves` is what an optimiser owes: each probe handler, on every
run that ends and raises no error, prints the same text and leaves the same
globals behind.
-/

namespace Systemtap.Sem

open Systemtap.Tree Systemtap.Lex Lib

variable {W : Type} {D : Nat → Bool}

theorem finishCall_sim {body body' : M W Ctl} (h : Sim (offView D) body body') :
    Sim (offView D) (finishCall body) (finishCall body') :=
  (Sim.onOut h (Sim.pure _)).bind fun _ => readError_sim (Sim.read fun _ _ hr => hr.ret.symm)

/-- The rewritten body of a function or probe of `sess` matches the old one,
wherever the calls of functions in `R` do. -/
def BodySim (sess : Session) (D : Nat → Bool) (R : FnId → Prop) (rt : Runtime W)
    (formals : List Nat) (body body' : Stmt) : Prop :=
  ∀ (c : Ctx W) (k : FnId → List (Nat × Nat) → List Value → M W Value), c.rt = rt →
    c.formals = formals → (∃ fuel n, c.call = callFn sess rt fuel n) →
    (∀ f, R f → ∀ iter args, Sim (offView D) (c.call f iter args) (k f iter args)) →
    Sim (offView D) (exec c body) (exec (c.withCall k) body')

/-- Two sessions with the same declarations whose functions in `R` match, each
with its own set of locals that may differ. -/
structure FunctionsSim (D : FnId → Nat → Bool) (R : FnId → Prop) (rt : Runtime W)
    (sess sess' : Session) : Prop where
  locType : ∀ k, sess'.locType k = sess.locType k
  body : ∀ f, R f → ∀ fd, sess.functions[f]? = some fd → ∃ fd', sess'.functions[f]? = some fd' ∧
    fd'.formalArgs = fd.formalArgs ∧ fd'.type = fd.type ∧
    BodySim sess (D f) R rt fd.formalArgs fd.body fd'.body

theorem initFrame_eq {sess sess' : Session} (h : ∀ k, sess'.locType k = sess.locType k) :
    initFrame sess' = initFrame sess := by
  funext k
  exact congrArg Value.init (h k)

/-- What leaves a call is shown alike for all sets of locals. -/
theorem shownOff_of_leavesCall {D E : Nat → Bool} (e : Event) (hk : e.leavesCall = true)
    (h : e.shownOff E = true) : e.shownOff D = true := by
  cases e with
  | set v x =>
    cases v with
    | loc k => exact nomatch hk
    | global k => rfl
  | mutate a m u => cases m <;> first | rfl | exact nomatch h
  | _ => rfl

/-- **Calls match when bodies do**, wherever the caller's locals may differ. -/
theorem callFn_sim {D : FnId → Nat → Bool} {R : FnId → Prop} {rt : Runtime W} {sess sess' : Session}
    (h : FunctionsSim D R rt sess sess') (fuel : Nat) :
    ∀ (n : Nat) (E : Nat → Bool) (f : FnId), R f → ∀ iter args,
      Sim (offView E) (callFn sess rt fuel n f iter args) (callFn sess' rt fuel n f iter args)
  | 0, _, _, _, _, _ => raise_sim _ _
  | n + 1, E, f, hf, iter, args => by
    rw [callFn, callFn]
    cases hfd : sess.functions[f]? with
    | none => exact Sim.halt _
    | some fd =>
      obtain ⟨fd', hfd', hformals, htype, hbody⟩ := h.body f hf fd hfd
      simp only [hfd', hformals, htype, initFrame_eq h.locType]
      split
      next hlen =>
        refine Sim.inScope (finishCall_sim (hbody _ (callFn sess' rt fuel n) rfl rfl ⟨fuel, n, rfl⟩
          (callFn_sim h fuel n (D f)))) ?_ ?_ shownOff_of_leavesCall (fun _ => rfl) ?_
        · exact fun s t hr => ⟨hr.globals, hr.world, fun _ _ => rfl, rfl, hr.left, hr.right⟩
        · exact fun s t s' t' hr hr' =>
            ⟨hr'.globals, hr'.world, hr.frame, hr.ret, hr'.left, hr'.right⟩
        · intro e he
          cases e with
          | error m => rfl
          | _ => exact nomatch he
      next => exact Sim.halt _

/-- The run ends and raises no error. -/
def Clean {α : Type} (o : Outcome Event (State W) α) : Prop :=
  o.flow ≠ .halt ∧ ∀ e ∈ o.events, e.isError = false

/-- What a run printed. -/
def printedText (es : List Event) : List Str := es.filterMap Event.printed

/-- A runtime in which nothing outside the script happens. -/
def plainRuntime : Runtime Unit where
  embedded := fun _ _ w => ⟨w, none, none, none⟩
  render := fun _ _ _ => .ok []
  renderHist := fun _ _ _ => []
  target := fun _ _ _ => .ok (.long 0)
  setTarget := fun _ _ _ w => .ok w
  sort := fun _ _ es => es
  sortStat := fun _ _ es => es
  aggregate := some
  buckets := fun _ => 3
  bucket := fun _ _ _ => 0
  maxEntries := fun _ => 2048

/-- One run of a probe handler. -/
def handle (sess : Session) (rt : Runtime W) (fuel nesting : Nat) (p : Probe)
    (globals : Nat → Global) (world : W) : Outcome Event (State W) Ctl :=
  runProbe sess rt fuel nesting p (startState sess globals world)

/-- The run `o'` behaves as `o` did: it ends, without error, with the same
output, the same globals and the same kernel state. -/
structure SameBehaviour (o o' : Outcome Event (State W) Ctl) : Prop where
  clean : Clean o'
  printed : printedText o'.events = printedText o.events
  globals : o'.state.globals = o.state.globals
  world : o'.state.world = o.state.world

theorem SameBehaviour.trans {o o' o'' : Outcome Event (State W) Ctl} (h : SameBehaviour o o')
    (h' : SameBehaviour o' o'') : SameBehaviour o o'' where
  clean := h'.clean
  printed := h'.printed.trans h.printed
  globals := h'.globals.trans h.globals
  world := h'.world.trans h.world

/-- The run `o'` also has the same effects as `o`, in the same order: prints,
assignments to globals, to elements and to the locals of the handler, samples,
impure code. -/
structure SameEffects (o o' : Outcome Event (State W) Ctl) : Prop extends SameBehaviour o o' where
  effects : o'.events.filter (Event.shownOff noLocal) = o.events.filter (Event.shownOff noLocal)

/-- Every probe handler of `sess'` runs the `Same` as that of `sess`, on every run
of the latter that ends and raises no error, with the runtimes `Good`. -/
def Keeps (Same : ∀ W : Type, Outcome Event (State W) Ctl → Outcome Event (State W) Ctl → Prop)
    (Good : ∀ W : Type, Runtime W → Prop) (sess sess' : Session) : Prop :=
  ∀ (i : Nat) (p : Probe), sess.probes[i]? = some p → ∃ p', sess'.probes[i]? = some p' ∧
    ∀ (W : Type) (rt : Runtime W), Good W rt → ∀ (fuel nesting : Nat) (globals : Nat → Global)
      (world : W), Clean (handle sess rt fuel nesting p globals world) →
        Same W (handle sess rt fuel nesting p globals world)
          (handle sess' rt fuel nesting p' globals world)

/-- Every probe handler of `sess'` behaves as that of `sess`. -/
def Preserves : (∀ W : Type, Runtime W → Prop) → Session → Session → Prop :=
  Keeps fun _ => SameBehaviour

/-- Every probe handler of `sess'` has the effects of that of `sess`. -/
def PreservesEffects : (∀ W : Type, Runtime W → Prop) → Session → Session → Prop :=
  Keeps fun _ => SameEffects

section Keeps

variable {Same : ∀ W : Type, Outcome Event (State W) Ctl → Outcome Event (State W) Ctl → Prop}
variable {Good : ∀ W : Type, Runtime W → Prop} {sess sess' sess'' : Session}

theorem Keeps.trans (htrans : ∀ W o o' o'', Same W o o' → Same W o' o'' → Same W o o'')
    (hclean : ∀ W o o', Same W o o' → Clean o') (h : Keeps Same Good sess sess')
    (h' : Keeps Same Good sess' sess'') : Keeps Same Good sess sess'' := by
  intro i p hp
  obtain ⟨p', hp', h1⟩ := h i p hp
  obtain ⟨p'', hp'', h2⟩ := h' i p' hp'
  refine ⟨p'', hp'', fun W rt hrt fuel nesting globals world hc => ?_⟩
  have hs := h1 W rt hrt fuel nesting globals world hc
  exact htrans W _ _ _ hs (h2 W rt hrt fuel nesting globals world (hclean W _ _ hs))

theorem Keeps.refl (hrefl : ∀ W o, Clean o → Same W o o) (sess : Session) :
    Keeps Same Good sess sess :=
  fun _ p hp => ⟨p, hp, fun W _ _ _ _ _ _ hc => hrefl W _ hc⟩

theorem Preserves.trans (h : Preserves Good sess sess') (h' : Preserves Good sess' sess'') :
    Preserves Good sess sess'' :=
  Keeps.trans (fun _ _ _ _ => SameBehaviour.trans) (fun _ _ _ h => h.clean) h h'

theorem Preserves.refl (sess : Session) : Preserves Good sess sess :=
  Keeps.refl (fun _ _ hc => ⟨hc, rfl, rfl, rfl⟩) sess

theorem PreservesEffects.trans (h : PreservesEffects Good sess sess')
    (h' : PreservesEffects Good sess' sess'') : PreservesEffects Good sess sess'' :=
  Keeps.trans (fun _ _ _ _ h h' => ⟨h.toSameBehaviour.trans h'.toSameBehaviour,
    h'.effects.trans h.effects⟩) (fun _ _ _ h => h.clean) h h'

theorem PreservesEffects.refl (sess : Session) : PreservesEffects Good sess sess :=
  Keeps.refl (fun _ _ hc => ⟨⟨hc, rfl, rfl, rfl⟩, rfl⟩) sess

end Keeps

/-- Text is always shown. -/
theorem printedText_filter (D : Nat → Bool) (es : List Event) :
    printedText (es.filter (Event.shownOff D)) = printedText es := by
  unfold printedText
  rw [List.filterMap_filter]
  refine List.filterMap_congr fun e _ => ?_
  cases e with
  | set v x => cases v <;> simp [Event.printed]
  | mutate a m u => cases m <;> simp [Event.shownOff, Event.printed]
  | _ =>
    simp [Event.shownOff, Event.printed]

/-- A handler matches when its body and the functions it may call do. -/
theorem handle_matches {F : FnId → Nat → Bool} {R : FnId → Prop} {rt : Runtime W} {sess sess' : Session}
    (h : FunctionsSim F R rt sess sess') {p p' : Probe}
    (hp : BodySim sess D R rt [] p.body p'.body) (fuel nesting : Nat) (globals : Nat → Global)
    (world : W) (hc : Clean (handle sess rt fuel nesting p globals world)) :
    (offView D).Matches (handle sess rt fuel nesting p globals world)
      (handle sess' rt fuel nesting p' globals world) := by
  have hbody := hp (probeCtx sess rt fuel nesting) (callFn sess' rt fuel nesting) rfl rfl
    ⟨fuel, nesting, rfl⟩
    (callFn_sim h fuel nesting D)
  have hstart : startState sess' globals world = startState sess globals world := by
    unfold startState
    rw [initFrame_eq h.locType]
  unfold handle
  rw [hstart]
  exact (Sim.onOut hbody (Sim.pure _)) _ _ ⟨rfl, rfl, fun _ _ => rfl, rfl, rfl, rfl⟩ hc

variable {o o' : Outcome Event (State W) Ctl}

theorem Matches.sameBehaviour (hc : Clean o)
    (h : (offView D).Matches o o') : SameBehaviour o o' where
  clean := ⟨by rw [h.flow]; exact hc.1, h.fatal⟩
  printed := by
    rw [← printedText_filter D o'.events, ← printedText_filter D o.events]
    exact congrArg printedText h.events
  globals := h.state.globals.symm
  world := h.state.world.symm

theorem Matches.sameEffects (hc : Clean o)
    (h : (offView noLocal).Matches o o') : SameEffects o o' :=
  ⟨Matches.sameBehaviour hc h, h.events⟩

end Systemtap.Sem
