import Systemtap.Lib.Steps

/-!
# Stopping the task finder

The task finder's `utrace` handlers run in the traced tasks, any number at once. A handler first
looks whether the task finder is running, and then announces itself in `__stp_inuse_count`
(`__stp_tf_handler_start`) until it is done (`__stp_tf_handler_end`). `stap_stop_task_finder` says
that it stops, detaches the engines, which does not wait for a handler that is under way, and
then waits until the count is 0.

Between its look at the state and its announcement a handler is not counted. If it is there when
the count is read as 0, `stap_stop_task_finder` returns and the handler's body runs afterwards, in a
module that is being unloaded. This is the only way (`stop_final_iff`).
-/

namespace Systemtap.Runtime

open Lib Finset

/-! ## The code -/

/-- The handlers that announce themselves. -/
inductive TfHandler where
  | reportClone
  | reportExec
  | targetDeath
  | targetQuiesce
  | targetSyscallEntry
  | targetSyscallExit
deriving DecidableEq, Repr

/-- The handler has other reasons to return before it announces itself: no target, a system call
that it does not care about, no saved arguments. -/
def TfHandler.mayReturn : TfHandler → Bool
  | .targetQuiesce | .targetSyscallEntry | .targetSyscallExit => true
  | .reportClone | .reportExec | .targetDeath => false

/-- `__stp_task_finder_state` -/
inductive TfState where
  | starting
  | running
  | stopping
  | stopped
deriving DecidableEq, Repr

/-- Where a task is in a handler. -/
inductive TfCall where
  | idle
  /-- After `atomic_read (&__stp_task_finder_state)` has given `__STP_TF_RUNNING`. -/
  | admitted (h : TfHandler)
  /-- Between `__stp_tf_handler_start` and `__stp_tf_handler_end`. -/
  | body (h : TfHandler)
deriving DecidableEq, Repr

/-- Where `stap_stop_task_finder` is. -/
inductive TfStop where
  | notCalled
  /-- The engines are being detached. -/
  | detaching
  /-- In the loop that reads `__stp_inuse_count`. -/
  | polling
  | returned
deriving DecidableEq, Repr

structure TaskFinder (τ : Type) where
  state : TfState
  inuse : Nat
  call : τ → TfCall
  stop : TfStop

/-- What a step shows. -/
inductive TfEvent where
  /-- A statement of a handler's body. -/
  | bodyStatement
  /-- `stap_stop_task_finder` returns. -/
  | stopReturns
  | other
deriving DecidableEq, Repr

namespace TaskFinder

variable {τ : Type} [DecidableEq τ]

def move (s : TaskFinder τ) (t : τ) (c : TfCall) : TaskFinder τ :=
  { s with call := Function.update s.call t c }

/-- One step of a task in a handler, or of `stap_stop_task_finder`. -/
inductive Step : TaskFinder τ → TfEvent → TaskFinder τ → Prop
  | enter {s t} (h : TfHandler) (ht : s.call t = .idle) (hs : s.state = .running) :
      Step s .other (s.move t (.admitted h))
  /-- `return UTRACE_DETACH` -/
  | refuse {s t} (ht : s.call t = .idle) (hs : s.state ≠ .running) : Step s .other s
  | leave {s t h} (ht : s.call t = .admitted h) (hh : h.mayReturn = true) :
      Step s .other (s.move t .idle)
  | handlerStart {s t h} (ht : s.call t = .admitted h) :
      Step s .other { s.move t (.body h) with inuse := s.inuse + 1 }
  | statement {s t h} (ht : s.call t = .body h) : Step s .bodyStatement s
  | handlerEnd {s t h} (ht : s.call t = .body h) :
      Step s .other { s.move t .idle with inuse := s.inuse - 1 }
  | stopping {s} (hs : s.stop = .notCalled) :
      Step s .other { s with state := .stopping, stop := .detaching }
  /-- The detach of an engine whose handler runs returns `-EINPROGRESS` at once. -/
  | detach {s} (hs : s.stop = .detaching) : Step s .other s
  | stopped {s} (hs : s.stop = .detaching) :
      Step s .other { s with state := .stopped, stop := .polling }
  /-- `schedule ()` -/
  | wait {s} (hs : s.stop = .polling) (hn : s.inuse ≠ 0) : Step s .other s
  | stopReturns {s} (hs : s.stop = .polling) (hn : s.inuse = 0) :
      Step s .stopReturns { s with stop := .returned }

/-- The task finder runs, and no handler is under way. -/
def started : TaskFinder τ := ⟨.running, 0, fun _ => .idle, .notCalled⟩

end TaskFinder

/-! ## Who is counted -/

def TfCall.isBody : TfCall → Bool
  | .body _ => true
  | _ => false

/-- The handler has seen that the task finder runs, and is not counted yet. -/
def TfCall.isAdmitted : TfCall → Bool
  | .admitted _ => true
  | _ => false

namespace TaskFinder

variable {τ : Type} [DecidableEq τ] {s s' : TaskFinder τ} {e : TfEvent}

/-- `__stp_inuse_count` is the number of tasks in a body, and handlers are admitted only as long as
nobody stops the task finder. -/
structure Counted (s : TaskFinder τ) : Prop where
  count : ∃ S : Finset τ, (∀ t, t ∈ S ↔ (s.call t).isBody = true) ∧ S.card = s.inuse
  state : s.stop ≠ .notCalled → s.state ≠ .running

omit [DecidableEq τ] in
theorem Counted.started : Counted (started : TaskFinder τ) :=
  ⟨⟨∅, fun _ => iff_of_false (notMem_empty _) nofun, rfl⟩, fun h => absurd rfl h⟩

/-- A task that is not in a body before or after leaves the count alone. -/
theorem Counted.outside (h : Counted s) {t : τ} {c : TfCall} (ht : (s.call t).isBody = false)
    (hc : c.isBody = false) : Counted (s.move t c) := by
  obtain ⟨S, hS, hcard⟩ := h.count
  refine ⟨⟨S, fun u => ?_, hcard⟩, h.state⟩
  by_cases hu : u = t
  · subst hu
    simp [hS, ht, move, hc]
  · simp [hS, move, hu]

theorem Counted.step (h : Counted s) (hs : Step s e s') : Counted s' := by
  cases hs with
  | refuse | statement | detach | wait => exact h
  | enter _ ht | leave ht => exact h.outside (by rw [ht]; rfl) rfl
  | @handlerStart t k ht =>
    obtain ⟨S, hS, hcard⟩ := h.count
    have hnot : t ∉ S := fun hm => by
      have := (hS t).mp hm
      rw [ht] at this
      cases this
    refine ⟨⟨insert t S, fun u => ?_, by rw [card_insert_of_notMem hnot, hcard]⟩, h.state⟩
    rw [mem_insert, hS]
    by_cases hu : u = t
    · subst hu
      simp [move, TfCall.isBody]
    · simp [move, hu]
  | @handlerEnd t k ht =>
    obtain ⟨S, hS, hcard⟩ := h.count
    have hmem : t ∈ S := (hS t).mpr (by rw [ht]; rfl)
    refine ⟨⟨S.erase t, fun u => ?_, by rw [card_erase_of_mem hmem, hcard]⟩, h.state⟩
    rw [mem_erase, hS]
    by_cases hu : u = t
    · subst hu
      simp [move, TfCall.isBody]
    · simp [move, hu]
  | stopping _ | stopped _ => exact ⟨h.count, fun _ => nofun⟩
  | stopReturns hstop _ => exact ⟨h.count, fun _ => h.state (by rw [hstop]; nofun)⟩

/-- Nothing goes on, and no handler is admitted any more. -/
structure Final (s : TaskFinder τ) : Prop where
  idle : ∀ t, s.call t = .idle
  state : s.state ≠ .running
  stop : s.stop = .returned

theorem Final.step (h : Final s) (hs : Step s e s') : Final s' ∧ e = .other := by
  cases hs with
  | refuse => exact ⟨h, rfl⟩
  | enter _ ht hrun => exact absurd hrun h.state
  | leave ht | handlerStart ht | statement ht | handlerEnd ht =>
    rw [h.idle] at ht
    cases ht
  | stopping hstop | detach hstop | stopped hstop | wait hstop | stopReturns hstop =>
    rw [h.stop] at hstop
    cases hstop

theorem Final.quiet (h : Final s) {es : List TfEvent} (hr : RunsTo Step s es s') :
    .bodyStatement ∉ es := by
  refine (hr.invariant (P := fun es s => Final s ∧ .bodyStatement ∉ es) ⟨h, nofun⟩ ?_).2
  rintro es s e s' ⟨hfin, hno⟩ hs
  obtain ⟨hfin', rfl⟩ := hfin.step hs
  exact ⟨hfin', by simp [hno]⟩

/-- When `stap_stop_task_finder` returns no task is in a body. -/
theorem idle_or_admitted {es : List TfEvent} (h : RunsTo Step started (es ++ [.stopReturns]) s) :
    (∀ t, s.call t = .idle ∨ (s.call t).isAdmitted = true) ∧ s.state ≠ .running ∧
      s.stop = .returned := by
  obtain ⟨s1, h1, hs⟩ := h.of_snoc
  have hcounted : Counted s1 := h1.invariant .started fun hc hs => hc.step hs
  cases hs with
  | stopReturns hstop hn =>
    obtain ⟨S, hS, hcard⟩ := hcounted.count
    obtain rfl : S = ∅ := card_eq_zero.mp (hcard.trans hn)
    refine ⟨fun t => ?_, hcounted.state (by rw [hstop]; nofun), rfl⟩
    cases ht : s1.call t with
    | idle => exact .inl rfl
    | admitted k => exact .inr rfl
    | body k => exact absurd ((hS t).mpr (by rw [ht]; rfl)) (notMem_empty t)

/-- **Stopping is final if and only if no handler is between its look at the state and its
announcement** when `stap_stop_task_finder` returns. -/
theorem stop_final_iff {es : List TfEvent} (h : RunsTo Step started (es ++ [.stopReturns]) s) :
    (∀ es' s', RunsTo Step s es' s' → .bodyStatement ∉ es') ↔
      ∀ t, (s.call t).isAdmitted = false := by
  obtain ⟨hcall, hstate, hstop⟩ := idle_or_admitted h
  constructor
  · intro hno t
    cases ht : s.call t with
    | idle | body => rfl
    | admitted k =>
      -- it announces itself and goes on
      have hrun : RunsTo Step s [.other, .bodyStatement] _ :=
        .cons (.handlerStart ht) (.cons (.statement (t := t) (h := k) (by simp [move])) .start)
      exact absurd (List.mem_cons_of_mem _ (List.mem_singleton_self _)) (hno _ _ hrun)
  · intro hnone es' s' hr
    refine Final.quiet ⟨fun t => (hcall t).resolve_right ?_, hstate, hstop⟩ hr
    rw [hnone t]
    exact Bool.false_ne_true

/-- Nothing is under way when the task finder is stopped. -/
theorem stop_final_idle : ∃ s : TaskFinder Unit,
    RunsTo Step started ([.other, .other] ++ [.stopReturns]) s ∧
    (∀ t, (s.call t).isAdmitted = false) ∧
    ∀ es' s', RunsTo Step s es' s' → .bodyStatement ∉ es' := by
  have h : RunsTo Step (started : TaskFinder Unit) ([.other, .other] ++ [.stopReturns])
      ⟨.stopped, 0, fun _ => .idle, .returned⟩ :=
    .cons (.stopping rfl) (.cons (.stopped rfl) (.cons (.stopReturns rfl rfl) .start))
  exact ⟨_, h, fun _ => rfl, (stop_final_iff h).mpr fun _ => rfl⟩

/-- A handler of `clone` looks at the state, the task finder is stopped, and the handler goes
on. -/
theorem body_after_stop : ∃ (es : List TfEvent) (s : TaskFinder Unit), RunsTo Step started es s ∧
    ¬ NeverAfter (· = .stopReturns) (· = .bodyStatement) es := by
  refine ⟨_, _, .cons (.enter (t := ()) .reportClone rfl rfl) <| .cons (.stopping rfl) <|
    .cons (.stopped rfl) <| .cons (.stopReturns rfl rfl) <|
    .cons (.handlerStart (t := ()) (h := .reportClone) rfl) <|
    .cons (.statement (t := ()) (h := .reportClone) rfl) .start, fun h => ?_⟩
  exact h [.other, .other, .other] .stopReturns [.other, .bodyStatement] rfl rfl .bodyStatement
    (by simp) rfl

end TaskFinder

end Systemtap.Runtime
