import Systemtap.Lib.Steps

/-!
# Opening a procfs probe file

`_stp_proc_open_file` and `_stp_proc_release_file` of `procfs-probes.c`. A probe has one buffer, so it
lets one user in at a time: `opencount` is tested and incremented under a mutex, and who finds it taken
waits for it, or is to be turned away if the file was opened with `O_NONBLOCK` or a signal arrives. A
file that was let in has its `private_data` set to the probe.

Letting in works (`Serves.one`), but the function ends with `return 0` and not with `return res`. So an
open that was turned away succeeds as well, with a file that has no `private_data`, which a later write
dereferences.

A file goes through its calls step by step, and any file may take the next step. What the read and write
handlers do with the buffer is not here.
-/

namespace Systemtap.Runtime.Procfs

open Lib Function Option

/-! ## The code -/

/-- How the `if` of `_stp_proc_open_file` ends. -/
inductive Outcome where
  | admitted
  /-- `res = -EAGAIN` -/
  | busy
  /-- `wait_event_interruptible` has returned a negative number. -/
  | interrupted
deriving DecidableEq, Repr

/-- Where a file is. In the phases that the comments call locked it has the mutex. -/
inductive Phase where
  | closed
  /-- In `open`, before the mutex is taken. -/
  | openLock (nonblock : Bool)
  /-- Locked: `if (spp->opencount == 0)` -/
  | openTest (nonblock : Bool)
  /-- `wait_event_interruptible` -/
  | waiting
  /-- Before the mutex is taken again, with what the wait has returned. -/
  | waitLock (res : Int)
  /-- Locked: `if (res < 0) break` and the next round of the loop. -/
  | waitTest (res : Int)
  /-- Locked: `if (likely(res == 0))` -/
  | decided (o : Outcome)
  /-- Locked: `_spp_unlock` and `return 0` -/
  | openUnlock (o : Outcome)
  /-- `open` has returned 0. -/
  | opened
  /-- In `release`, before the mutex is taken. -/
  | releaseLock
  /-- Locked: `spp->opencount--` -/
  | releaseCount
  /-- Locked: `_spp_unlock` -/
  | releaseUnlock
deriving DecidableEq, Repr

/-- What a step shows. -/
inductive Event where
  /-- `open` returns. -/
  | openReturns (o : Outcome) (ret : Int)
  | read
  /-- `write` is called; `fault` says that it dereferences a null pointer. -/
  | write (fault : Bool)
  | other
deriving DecidableEq, Repr

structure State (τ : Type) where
  opencount : Int
  /-- The file whose call has `spp->lock`. -/
  lock : Option τ
  phase : τ → Phase
  /-- `filp->private_data` is the probe and not null. -/
  privateData : τ → Bool

/-- What a process does with a file. -/
inductive Action (τ : Type) where
  | openFile (f : τ) (nonblock : Bool)
  /-- The call that the file is in goes on. -/
  | go (f : τ)
  /-- A signal ends a wait. -/
  | signal (f : τ)
  | read (f : τ)
  | write (f : τ)
  | release (f : τ)
deriving DecidableEq, Repr

section Code

variable {τ : Type} [DecidableEq τ]

def State.initial : State τ := ⟨0, none, fun _ => .closed, fun _ => false⟩

def State.move (s : State τ) (f : τ) (p : Phase) : State τ :=
  { s with phase := Function.update s.phase f p }

/-- `_spp_lock`, if it can go on. -/
def State.take (s : State τ) (f : τ) (p : Phase) : Option (Event × State τ) :=
  if s.lock = none then some (.other, { s.move f p with lock := some f }) else none

/-- `_spp_unlock` -/
def State.unlock (s : State τ) (f : τ) (p : Phase) : State τ := { s.move f p with lock := none }

/-- `ERESTARTSYS` -/
def erestartsys : Int := 512

/-- The next statement of the call that a file is in. -/
def go (s : State τ) (f : τ) : Option (Event × State τ) :=
  match s.phase f with
  | .closed | .opened => none
  | .openLock nonblock => s.take f (.openTest nonblock)
  | .openTest nonblock =>
    if s.opencount = 0 then some (.other, s.move f (.decided .admitted))
    else if nonblock then some (.other, s.move f (.decided .busy))
    else some (.other, s.unlock f .waiting)
  | .waiting => if s.opencount = 0 then some (.other, s.move f (.waitLock 0)) else none
  | .waitLock res => s.take f (.waitTest res)
  | .waitTest res =>
    if res < 0 then some (.other, s.move f (.decided .interrupted))
    else if s.opencount = 0 then some (.other, s.move f (.decided .admitted))
    else some (.other, s.unlock f .waiting)
  | .decided .admitted =>
    some (.other, { s.move f (.openUnlock .admitted) with
      opencount := s.opencount + 1
      privateData := Function.update s.privateData f true })
  | .decided o => some (.other, s.move f (.openUnlock o))
  | .openUnlock o => some (.openReturns o 0, s.unlock f .opened)
  | .releaseLock => s.take f .releaseCount
  | .releaseCount =>
    some (.other, { s.move f .releaseUnlock with opencount := s.opencount - 1 })
  | .releaseUnlock => some (.other, s.unlock f .closed)

/-- One step. -/
def next (s : State τ) : Action τ → Option (Event × State τ)
  | .openFile f nonblock =>
    if s.phase f = .closed then
      some (.other, { s.move f (.openLock nonblock) with
        privateData := Function.update s.privateData f false })
    else none
  | .go f => go s f
  | .signal f =>
    if s.phase f = .waiting then some (.other, s.move f (.waitLock (-erestartsys))) else none
  | .read f => if s.phase f = .opened then some (.read, s) else none
  | .write f => if s.phase f = .opened then some (.write (!s.privateData f), s) else none
  | .release f =>
    if s.phase f = .opened then
      -- `if (spp != NULL)`
      some (.other, s.move f (if s.privateData f then .releaseLock else .closed))
    else none

def Step (s : State τ) (e : Event) (s' : State τ) : Prop := ∃ a, next s a = some (e, s')

/-- Some steps, with what they show. -/
def run (s : State τ) : List (Action τ) → Option (List Event × State τ)
  | [] => some ([], s)
  | a :: as => do
    let (e, s) ← next s a
    let (es, s) ← run s as
    return (e :: es, s)

end Code

/-! ## What it is for -/

section Spec

variable {τ : Type}

/-- A file in this phase has been let in, and not let out. -/
def Phase.inside (privateData : Bool) : Phase → Bool
  | .openUnlock .admitted | .releaseLock | .releaseCount => true
  | .opened => privateData
  | _ => false

def State.Inside (s : State τ) (f : τ) : Prop := (s.phase f).inside (s.privateData f) = true

/-- `EAGAIN` -/
def eagain : Int := 11

/-- One user at a time, for a run that has shown `es` and is in `s`. -/
structure Serves (es : List Event) (s : State τ) : Prop where
  one : ∀ f g, s.phase f = .opened → s.privateData f = true → s.phase g = .opened →
    s.privateData g = true → f = g
  set : ∀ f, s.phase f = .opened → s.privateData f = true
  busy : ∀ ret, .openReturns .busy ret ∈ es → ret = -eagain
  interrupted : ∀ ret, .openReturns .interrupted ret ∈ es → ret < 0
  idle : (∀ f, ¬s.Inside f) → s.opencount = 0

/-- An open has returned that was not let in. -/
def Event.TurnedAway : Event → Prop
  | .openReturns .busy _ | .openReturns .interrupted _ => True
  | _ => False

end Spec

/-! ## The invariant -/

/-- The call has the mutex. -/
def Phase.locked : Phase → Bool
  | .openTest _ | .waitTest _ | .decided _ | .openUnlock _ | .releaseCount | .releaseUnlock => true
  | _ => false

/-- What `private_data` is in a phase, if that is clear. -/
def Phase.data : Phase → Option Bool
  | .openUnlock .admitted | .releaseLock | .releaseCount => some true
  | .openLock _ | .openTest _ | .waiting | .waitLock _ | .waitTest _ | .decided _ | .openUnlock _ =>
    some false
  | .closed | .opened | .releaseUnlock => none

section Invariant

variable {τ : Type} {s s' : State τ} {f : τ} {e : Event}

/-- `o` is the one file of which `P` holds, or there is none. -/
def Sole (P : τ → Prop) (o : Option τ) : Prop := ∀ f, P f ↔ o = some f

/-- `f` can take the place if it is free. -/
theorem Sole.step {P P' : τ → Prop} {o : Option τ} [Decidable (P f)] [Decidable (P' f)] (h : Sole P o)
    (hother : ∀ g, g ≠ f → (P' g ↔ P g)) (hfree : P' f → P f ∨ o = none) :
    Sole P' (if P' f then some f else if P f then none else o) := by
  intro g
  have hf := h f
  have hg := h g
  by_cases hgf : g = f
  · subst hgf
    grind
  · rw [hother g hgf]
    grind

structure Inv (s : State τ) : Prop where
  owner : Sole (fun f => (s.phase f).locked = true) s.lock
  data : ∀ f b, (s.phase f).data = some b → s.privateData f = b
  user : ∃ u, Sole s.Inside u ∧ s.opencount = if u = none then 0 else 1
  /-- Between the test and the increment nobody else gets in. -/
  admits : ∀ f, s.phase f = .decided .admitted → s.opencount = 0

/-- All that a step of `f` can do. -/
structure Acts (s : State τ) (f : τ) (e : Event) (s' : State τ) : Prop where
  phase : ∀ g, g ≠ f → s'.phase g = s.phase g
  privateData : ∀ g, g ≠ f → s'.privateData g = s.privateData g
  data : ∀ b, (s'.phase f).data = some b → s'.privateData f = b
  lock : s'.lock = if (s'.phase f).locked = true then some f else if (s.phase f).locked = true then none else s.lock
  waits : (s'.phase f).locked = true → (s.phase f).locked = true ∨ s.lock = none
  stays : (s'.Inside f ↔ s.Inside f) → s'.opencount = s.opencount
  counts : ¬(s.phase f).locked = true → s'.opencount = s.opencount
  enters : s'.Inside f → ¬s.Inside f → s.phase f = .decided .admitted ∧ s'.opencount = s.opencount + 1
  leaves : ¬s'.Inside f → s.Inside f → s'.opencount = s.opencount - 1
  admits : s'.phase f = .decided .admitted → s'.opencount = 0
  returns : ∀ o ret, e = .openReturns o ret → ret = 0
  opened : s'.phase f = .opened → s'.privateData f = false →
    (s.phase f = .opened ∧ s.privateData f = false) ∨ e.TurnedAway

/-- The other files stay as they are; of `f` there is a new phase, which decides about the mutex and the count. -/
theorem Inv.acts (h : Inv s) (ha : Acts s f e s') : Inv s' := by
  classical
  obtain ⟨u, hu, hcount⟩ := h.user
  have hother : ∀ g, g ≠ f → (s'.Inside g ↔ s.Inside g) := by
    intro g hg
    unfold State.Inside
    rw [ha.phase g hg, ha.privateData g hg]
  have hf := hu f
  have henters := ha.enters
  have hadmits := h.admits f
  refine ⟨?_, ?_, ⟨if s'.Inside f then some f else if s.Inside f then none else u, hu.step hother ?_, ?_⟩, ?_⟩
  · rw [ha.lock]
    refine h.owner.step (fun g hg => ?_) ha.waits
    rw [ha.phase g hg]
  · intro g b hb
    by_cases hg : g = f
    · rw [hg] at hb ⊢
      exact ha.data b hb
    · rw [ha.phase g hg] at hb
      rw [ha.privateData g hg]
      exact h.data g b hb
  · grind
  · have hstays := ha.stays
    have hleaves := ha.leaves
    grind
  · intro g hg
    by_cases hgf : g = f
    · exact ha.admits (hgf ▸ hg)
    · -- the mutex keeps `f` from the count
      rw [ha.phase g hgf] at hg
      rw [← h.admits g hg]
      refine ha.counts fun hlocked => hgf ?_
      have hlock := (h.owner f).1 hlocked
      rw [(h.owner g).1 (by simp only [hg]; rfl)] at hlock
      exact some.inj hlock

variable [DecidableEq τ]

attribute [local simp] State.move State.unlock State.Inside Phase.inside Phase.locked Phase.data Event.TurnedAway

theorem eq_of_ite_some {α : Type} {c : Prop} [Decidable c] {x y : α}
    (h : (if c then some x else none) = some y) : c ∧ x = y := by
  split at h
  · next hc => exact ⟨hc, some.inj h⟩
  · cases h

theorem Inv.acts_of_go (h : Inv s) (hs : go s f = some (e, s')) : Acts s f e s' := by
  have hdata := h.data f
  have hadmits := h.admits f
  have howner := (h.owner f).1
  unfold go at hs
  cases hp : s.phase f with
  | closed | opened =>
    rw [hp] at hs
    cases hs
  | openLock | waitLock | releaseLock | waiting =>
    rw [hp] at hs hdata
    obtain ⟨hfree, heq⟩ := eq_of_ite_some hs
    cases heq
    constructor <;> simp_all +contextual
  | openTest | waitTest =>
    rw [hp] at hs hdata
    dsimp only at hs
    split at hs
    · cases hs
      constructor <;> simp_all +contextual
    · split at hs
      · cases hs
        constructor <;> simp_all +contextual
      · cases hs
        constructor <;> simp_all +contextual
  | decided o | openUnlock o =>
    rw [hp] at hs hdata
    cases o with
    | admitted | busy | interrupted =>
      cases hs
      constructor <;> simp_all +contextual
  | releaseCount | releaseUnlock =>
    rw [hp] at hs hdata
    cases hs
    constructor <;> simp_all +contextual

theorem Inv.acts_of_next (h : Inv s) {a : Action τ} (hs : next s a = some (e, s')) : ∃ f, Acts s f e s' := by
  cases a with
  | go f => exact ⟨f, h.acts_of_go hs⟩
  | openFile f | signal f | read f | write f =>
    refine ⟨f, ?_⟩
    have hdata := h.data f
    obtain ⟨hp, heq⟩ := eq_of_ite_some hs
    cases heq
    constructor <;> simp_all +contextual
  | release f =>
    refine ⟨f, ?_⟩
    have hdata := h.data f
    obtain ⟨hp, heq⟩ := eq_of_ite_some hs
    cases heq
    cases hd : s.privateData f <;> constructor <;> simp_all +contextual

omit [DecidableEq τ] in
theorem Inv.initial : Inv (State.initial : State τ) :=
  ⟨fun _ => ⟨nofun, nofun⟩, nofun, ⟨none, fun _ => ⟨nofun, nofun⟩, rfl⟩, nofun⟩

/-! ## Runs -/

/-- What holds along every run. -/
structure Followed (es : List Event) (s : State τ) : Prop where
  inv : Inv s
  returns : ∀ o ret, .openReturns o ret ∈ es → ret = 0
  turnedAway : ∀ f, s.phase f = .opened → s.privateData f = false → ∃ e ∈ es, e.TurnedAway

theorem followed_of_run {es : List Event} (h : RunsTo Step State.initial es s) : Followed es s := by
  refine h.invariant ⟨Inv.initial, nofun, nofun⟩ ?_
  intro es s e s' ih hstep
  obtain ⟨a, hs⟩ := hstep
  obtain ⟨f, ha⟩ := ih.inv.acts_of_next hs
  refine ⟨ih.inv.acts ha, ?_, ?_⟩
  · intro o ret hmem
    rcases List.mem_append.mp hmem with hmem | hmem
    · exact ih.returns o ret hmem
    · exact ha.returns o ret (List.mem_singleton.mp hmem).symm
  · intro g hp hprivate
    have hbefore : (s.phase g = .opened ∧ s.privateData g = false) ∨ e.TurnedAway := by
      by_cases hg : g = f
      · rw [hg] at hp hprivate ⊢
        exact ha.opened hp hprivate
      · rw [ha.phase g hg] at hp
        rw [ha.privateData g hg] at hprivate
        exact .inl ⟨hp, hprivate⟩
    rcases hbefore with ⟨hp, hprivate⟩ | haway
    · obtain ⟨e', hmem, haway⟩ := ih.turnedAway g hp hprivate
      exact ⟨e', List.mem_append_left _ hmem, haway⟩
    · exact ⟨e, List.mem_append_right _ List.mem_cons_self, haway⟩

/-- The files of a run are opened by one user at a time exactly if no open returns that found the file
busy with `O_NONBLOCK` or was interrupted. -/
theorem serves_iff {es : List Event} (h : RunsTo Step State.initial es s) :
    Serves es s ↔ ∀ e ∈ es, ¬e.TurnedAway := by
  have hrun := followed_of_run h
  constructor
  · intro hserves e he haway
    cases e with
    | openReturns o ret =>
      have hzero := hrun.returns o ret he
      cases o with
      | admitted => exact haway
      | busy =>
        have hagain := hserves.busy ret he
        rw [hzero] at hagain
        cases hagain
      | interrupted =>
        have hneg := hserves.interrupted ret he
        omega
    | read | write | other => exact haway
  · intro hnone
    obtain ⟨u, hu, hcount⟩ := hrun.inv.user
    have hin : ∀ f, s.phase f = .opened → s.privateData f = true → u = some f := by
      intro f hf hpf
      refine (hu f).1 ?_
      rw [State.Inside, hf]
      exact hpf
    refine ⟨?_, ?_, ?_, ?_, ?_⟩
    · intro f g hf hpf hg hpg
      have hsame := hin f hf hpf
      rw [hin g hg hpg] at hsame
      exact (some.inj hsame).symm
    · intro f hf
      by_contra hprivate
      obtain ⟨e, he, haway⟩ := hrun.turnedAway f hf (Bool.of_not_eq_true hprivate)
      exact hnone e he haway
    · intro ret hmem
      exact absurd trivial (hnone _ hmem)
    · intro ret hmem
      exact absurd trivial (hnone _ hmem)
    · intro hno
      have hu' : u = none := eq_none_iff_forall_ne_some.2 fun f hf => hno f ((hu f).2 hf)
      rw [hcount, if_pos hu']

theorem run_runsTo (as : List (Action τ)) (s : State τ) {es : List Event}
    (h : run s as = some (es, s')) : RunsTo Step s es s' := by
  induction as generalizing s es with
  | nil =>
    cases h
    exact .start
  | cons a as ih =>
    obtain ⟨⟨e, s1⟩, hnext, h⟩ := bind_eq_some_iff.mp h
    obtain ⟨⟨es1, s2⟩, hrun, heq⟩ := bind_eq_some_iff.mp h
    cases heq
    exact RunsTo.cons ⟨a, hnext⟩ (ih s1 hrun)

/-- A second user waits until the first one has closed the file. -/
def waitForIt : List (Action Bool) :=
  [.openFile false false, .go false, .go false, .go false, .go false, .openFile true false, .go true,
    .go true, .read false, .release false, .go false, .go false, .go false, .go true, .go true, .go true,
    .go true, .go true, .write true]

theorem serves_waitForIt :
    ∃ r, run State.initial waitForIt = some r ∧ .openReturns .admitted 0 ∈ r.1 ∧ Serves r.1 r.2 := by
  have hevents : (run State.initial waitForIt).map Prod.fst =
      some [.other, .other, .other, .other, .openReturns .admitted 0, .other, .other, .other, .read, .other,
        .other, .other, .other, .other, .other, .other, .other, .openReturns .admitted 0, .write false] := by
    decide +kernel
  obtain ⟨r, hr, hes⟩ := map_eq_some_iff.mp hevents
  refine ⟨r, hr, by rw [hes]; decide, (serves_iff (run_runsTo _ _ hr)).mpr ?_⟩
  rw [hes]
  simp [Event.TurnedAway]

/-- The file is busy and a second user does not want to wait: `open` returns 0, and the user's write
dereferences a null pointer. -/
def dontWait : List (Action Bool) :=
  [.openFile false false, .go false, .go false, .go false, .go false, .openFile true true, .go true,
    .go true, .go true, .go true, .write true]

theorem dontWait_returns_zero :
    ∃ r, run State.initial dontWait = some r ∧ .openReturns .busy 0 ∈ r.1 ∧ .write true ∈ r.1 ∧
      ¬Serves r.1 r.2 := by
  have hevents : (run State.initial dontWait).map Prod.fst =
      some [.other, .other, .other, .other, .openReturns .admitted 0, .other, .other, .other, .other,
        .openReturns .busy 0, .write true] := by
    decide +kernel
  obtain ⟨r, hr, hes⟩ := map_eq_some_iff.mp hevents
  have hbusy : .openReturns .busy 0 ∈ r.1 := by
    rw [hes]
    decide
  refine ⟨r, hr, hbusy, by rw [hes]; decide, ?_⟩
  intro h
  exact absurd (h.busy 0 hbusy) (by decide)

end Invariant

end Systemtap.Runtime.Procfs
