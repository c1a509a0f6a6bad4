import Systemtap.Lib.Steps

/-!
# Starting and stopping the probes

Commands reach the module as writes to the control channel, and any number of them can be under
way at once. `STP_START` ends in `_stp_handle_start`, `STP_EXIT` and the unloading of the module
(`_stp_transport_close`) in `_stp_cleanup_and_exit`; both work under `_stp_transport_mutex`.

What must happen once is guarded in two ways. `_stp_exit_called` is read and set under the mutex,
and everything about the exit follows from what goes on inside it (`History`), whatever the other
threads do. But `started` is read before the mutex is taken and set after it has been given
back, so two writes of `STP_START` can both find it 0 and both run `probe_start`. It runs once
if no such write begins while another one is under way (`startExit_protocol`).

Each statement that reads or writes shared data is a step of its own. The other commands, and what
`_stp_transport_close` does afterwards, touch none of it.
-/

namespace Systemtap.Runtime

open Lib Function List

/-! ## The code -/

/-- What a step shows. -/
inductive TransportEvent where
  /-- A write of `STP_START` has found `started == 0`. -/
  | testStarted
  /-- `probe_start ()` is called. -/
  | probeStart
  /-- `probe_start ()` returns. -/
  | probeStarted (res : Int)
  /-- `_stp_exit_called = 1` -/
  | exitHandled
  | probeExit
  /-- `_stp_ctl_send (STP_EXIT, ..)` -/
  | sendExit
  | other
deriving DecidableEq, Repr

/-- Where a thread is that holds `_stp_transport_mutex`: in front of the statement that the name
says. -/
inductive Critical where
  /-- `if (!_stp_exit_called)` of `_stp_handle_start` -/
  | startCheck
  | startProbes
  | inProbeStart
  /-- `if (st->res >= 0)` -/
  | startResult (res : Int)
  | startSend
  | startUnlock
  /-- `if (!_stp_exit_called)` of `_stp_cleanup_and_exit` -/
  | exitCheck (send : Bool)
  | exitFlag (send : Bool)
  /-- `if (_stp_probes_started)` -/
  | exitProbes (send : Bool)
  /-- `if (send_exit)` -/
  | exitSend (send : Bool)
  | exitUnlock
deriving DecidableEq, Repr

/-- Where a thread is. -/
inductive TransportCall where
  | idle
  /-- A write of `STP_START`, after the test of `started`. -/
  | tested
  | startLock
  | exitLock (send : Bool)
  | locked (c : Critical)
  /-- `started = 1` -/
  | startMark
deriving DecidableEq, Repr

/-- What the mutex protects. -/
structure TransportFlags where
  exitCalled : Bool
  probesStarted : Bool
deriving DecidableEq, Repr

/-- The statements inside the mutex. -/
inductive CriticalStep : TransportFlags → Critical → TransportEvent → TransportFlags → Critical →
    Prop
  | skipStart {f} (h : f.exitCalled = true) : CriticalStep f .startCheck .other f .startUnlock
  | goStart {f} (h : f.exitCalled = false) : CriticalStep f .startCheck .other f .startProbes
  | probeStart {f} : CriticalStep f .startProbes .probeStart f .inProbeStart
  | probeStarted {f} (res : Int) :
      CriticalStep f .inProbeStart (.probeStarted res) f (.startResult res)
  | result {f res} : CriticalStep f (.startResult res) .other
      { f with probesStarted := f.probesStarted || decide (0 ≤ res) } .startSend
  | sendStart {f} : CriticalStep f .startSend .other f .startUnlock
  | skipExit {f b} (h : f.exitCalled = true) : CriticalStep f (.exitCheck b) .other f .exitUnlock
  | goExit {f b} (h : f.exitCalled = false) : CriticalStep f (.exitCheck b) .other f (.exitFlag b)
  | flag {f b} : CriticalStep f (.exitFlag b) .exitHandled { f with exitCalled := true }
      (.exitProbes b)
  | probeExit {f b} (h : f.probesStarted = true) :
      CriticalStep f (.exitProbes b) .probeExit f (.exitSend b)
  | noProbes {f b} (h : f.probesStarted = false) :
      CriticalStep f (.exitProbes b) .other f (.exitSend b)
  | sendExit {f} : CriticalStep f (.exitSend true) .sendExit f .exitUnlock
  | noSend {f} : CriticalStep f (.exitSend false) .other f .exitUnlock

/-- The shared data and the threads. Nobody has the mutex if no thread is inside. -/
structure Transport (τ : Type) where
  started : Bool
  flags : TransportFlags
  closed : Bool
  call : τ → TransportCall

namespace Transport

variable {τ : Type} [DecidableEq τ]

def initial : Transport τ := ⟨false, ⟨false, false⟩, false, fun _ => .idle⟩

/-- `mutex_lock` can go on. -/
def Unlocked (s : Transport τ) : Prop := ∀ t c, s.call t ≠ .locked c

def move (s : Transport τ) (t : τ) (c : TransportCall) : Transport τ :=
  { s with call := Function.update s.call t c }

/-- One step of a thread. -/
inductive Step : Transport τ → TransportEvent → Transport τ → Prop
  /-- Another command, or `STP_START` with `started` set. -/
  | ignore {s t} (ht : s.call t = .idle) : Step s .other s
  | test {s t} (ht : s.call t = .idle) (h : s.started = false) :
      Step s .testStarted (s.move t .tested)
  /-- The message is too short, or it cannot be read. -/
  | refuse {s t} (ht : s.call t = .tested) : Step s .other (s.move t .idle)
  | copied {s t} (ht : s.call t = .tested) : Step s .other (s.move t .startLock)
  | lockStart {s t} (ht : s.call t = .startLock) (hm : s.Unlocked) :
      Step s .other (s.move t (.locked .startCheck))
  | unlockStart {s t} (ht : s.call t = .locked .startUnlock) : Step s .other (s.move t .startMark)
  | mark {s t} (ht : s.call t = .startMark) : Step s .other { s.move t .idle with started := true }
  /-- `STP_EXIT` -/
  | exit {s t} (ht : s.call t = .idle) : Step s .other (s.move t (.exitLock true))
  /-- `_stp_transport_close` -/
  | close {s t} (ht : s.call t = .idle) (hc : s.closed = false) :
      Step s .other { s.move t (.exitLock false) with closed := true }
  | lockExit {s t b} (ht : s.call t = .exitLock b) (hm : s.Unlocked) :
      Step s .other (s.move t (.locked (.exitCheck b)))
  | unlockExit {s t} (ht : s.call t = .locked .exitUnlock) : Step s .other (s.move t .idle)
  | inside {s t c e f c'} (ht : s.call t = .locked c) (h : CriticalStep s.flags c e f c') :
      Step s e { s.move t (.locked c') with flags := f }

end Transport

/-! ## What it is for -/

/-- The exit happens once, after a start that worked, and nothing starts after it. -/
structure ExitProtocol (es : List TransportEvent) : Prop where
  exitOnce : es.count .probeExit ≤ 1
  afterStart : Precedes (fun e => ∃ res, 0 ≤ res ∧ e = .probeStarted res) .probeExit es
  final : NeverAfter (· = .exitHandled) (· = .probeStart) es
  sentOnce : es.count .sendExit ≤ 1

/-- And the probes are started once. -/
structure StartExitProtocol (es : List TransportEvent) : Prop extends ExitProtocol es where
  startOnce : es.count .probeStart ≤ 1

/-! ## Inside the mutex -/

/-- What the place of the thread in the mutex says about the past. -/
def placeFact (es : List TransportEvent) (f : TransportFlags) : Option Critical → Prop
  | some .startProbes | some (.exitFlag _) => f.exitCalled = false
  | some (.startResult res) => .probeStarted res ∈ es
  | some (.exitProbes _) => f.exitCalled = true ∧ .probeExit ∉ es ∧ .sendExit ∉ es
  | some (.exitSend _) => f.exitCalled = true ∧ .sendExit ∉ es
  | _ => True

/-- The flags, and the thread in the mutex, know what has happened. -/
structure History (es : List TransportEvent) (f : TransportFlags) (c : Option Critical) : Prop where
  handled : .exitHandled ∈ es → f.exitCalled = true
  started : f.probesStarted = true → ∃ res, 0 ≤ res ∧ .probeStarted res ∈ es
  fresh : f.exitCalled = false → .probeExit ∉ es ∧ .sendExit ∉ es
  place : placeFact es f c
  protocol : ExitProtocol es

section History

variable {es : List TransportEvent} {f f' : TransportFlags} {c c' : Critical} {e : TransportEvent}

/-- One more event; the events that count must be allowed to happen. -/
theorem ExitProtocol.snoc (h : ExitProtocol es) (hstart : e = .probeStart → .exitHandled ∉ es)
    (hexit : e = .probeExit → .probeExit ∉ es ∧ ∃ res, 0 ≤ res ∧ .probeStarted res ∈ es)
    (hsend : e = .sendExit → .sendExit ∉ es) : ExitProtocol (es ++ [e]) where
  exitOnce := count_snoc_le_one h.exitOnce fun he => (hexit he).1
  afterStart := h.afterStart.snoc fun he => by
    obtain ⟨res, hres, hm⟩ := (hexit he).2
    exact ⟨_, hm, res, hres, rfl⟩
  final := h.final.snoc fun he y hy hyh => hstart he (hyh ▸ hy)
  sentOnce := count_snoc_le_one h.sentOnce hsend

/-- **Inside the mutex the protocol is kept**, statement by statement. -/
theorem History.step (h : History es f (some c)) (hs : CriticalStep f c e f' c') :
    History (es ++ [e]) f' (some c') := by
  obtain ⟨handled, started, fresh, place, protocol⟩ := h
  cases hs with
  | skipStart | goStart | sendStart | skipExit | goExit | noProbes | noSend | flag =>
    refine ⟨?_, ?_, ?_, ?_, protocol.snoc nofun nofun nofun⟩ <;> simp_all [placeFact]
  | probeStarted | result =>
    -- the result is shown when `probe_start` returns
    refine ⟨?_, ?_, ?_, ?_, protocol.snoc nofun nofun nofun⟩ <;> simp_all [placeFact]
    grind
  | probeStart =>
    -- the flag has been found clear under the same mutex
    refine ⟨?_, ?_, ?_, ?_, protocol.snoc ?_ nofun nofun⟩ <;> simp_all [placeFact]
  | probeExit =>
    refine ⟨?_, ?_, ?_, ?_, protocol.snoc nofun ?_ nofun⟩ <;> simp_all [placeFact]
  | sendExit =>
    refine ⟨?_, ?_, ?_, ?_, protocol.snoc nofun nofun ?_⟩ <;> simp_all [placeFact]

/-- A step outside leaves the flags as they are. Whoever is inside stays there, or the mutex is given back or
taken. -/
theorem History.outside {o o' : Option Critical} (h : History es f o) (he : e = .testStarted ∨ e = .other)
    (ho : o' = o ∨ ∀ es, placeFact es f o') : History (es ++ [e]) f o' := by
  obtain ⟨handled, started, fresh, place, protocol⟩ := h
  have hplace : placeFact (es ++ [e]) f o' := by
    rcases ho with rfl | ho
    · unfold placeFact at *
      rcases he with rfl | rfl <;> split <;> simp_all
    · exact ho _
  rcases he with rfl | rfl <;> refine ⟨?_, ?_, ?_, hplace, protocol.snoc ?_ ?_ ?_⟩ <;> simp_all

end History

/-! ## Any number of threads -/

namespace Transport

variable {τ : Type} [DecidableEq τ] {s s' : Transport τ} {e : TransportEvent}

/-- `o` is the thread inside the mutex and where it is, if there is one. It and the flags know what has happened. -/
def Recorded (es : List TransportEvent) (s : Transport τ) : Prop :=
  ∃ o : Option (τ × Critical), (∀ t c, s.call t = .locked c ↔ o = some (t, c)) ∧
    History es s.flags (o.map Prod.snd)

omit [DecidableEq τ] in
theorem Recorded.initial : Recorded [] (initial : Transport τ) :=
  ⟨none, fun _ _ => ⟨nofun, nofun⟩, nofun, nofun, fun _ => ⟨nofun, nofun⟩, trivial,
    Nat.zero_le _, .nil, .nil, Nat.zero_le _⟩

theorem Recorded.step {es : List TransportEvent} (h : Recorded es s) (hs : Step s e s') :
    Recorded (es ++ [e]) s' := by
  obtain ⟨o, ho, hist⟩ := h
  have hnone : s.Unlocked → o = none := by
    intro hun
    cases o with
    | none => rfl
    | some tc => exact absurd ((ho tc.1 tc.2).2 rfl) (hun _ _)
  cases hs with
  | ignore => exact ⟨o, ho, hist.outside (.inr rfl) (.inl rfl)⟩
  | test | refuse | copied | mark | exit | close =>
    refine ⟨o, fun u k => ?_, hist.outside (by simp) (.inl rfl)⟩
    rw [← ho]
    simp only [move, update_apply]
    grind
  | @unlockStart t ht | @unlockExit t ht =>
    refine ⟨none, fun u k => ?_, hist.outside (by simp) (.inr fun _ => trivial)⟩
    have hu := ho u k
    have ht := (ho t _).1 ht
    simp only [move, update_apply]
    grind
  | @lockStart t ht hm =>
    obtain rfl := hnone hm
    refine ⟨some (t, .startCheck), fun u k => ?_, hist.outside (.inr rfl) (.inr fun _ => trivial)⟩
    have hu := hm u k
    simp only [move, update_apply]
    grind
  | @lockExit t b ht hm =>
    obtain rfl := hnone hm
    refine ⟨some (t, .exitCheck b), fun u k => ?_, hist.outside (.inr rfl) (.inr fun _ => trivial)⟩
    have hu := hm u k
    simp only [move, update_apply]
    grind
  | @inside t k e f k' ht hk =>
    obtain rfl := (ho t k).1 ht
    refine ⟨some (t, k'), fun u l => ?_, hist.step hk⟩
    have hu := ho u l
    simp only [move, update_apply]
    grind

/-- **The exit is handled as it should be in every run**, whatever the threads do. -/
theorem exit_protocol {es : List TransportEvent} (h : RunsTo Step (initial : Transport τ) es s) :
    ExitProtocol es := by
  obtain ⟨_, _, hist⟩ := h.invariant (P := Recorded) .initial fun hr hs => hr.step hs
  exact hist.protocol

end Transport

/-! ## Starting once -/

/-- In a write of `STP_START`, after the test of `started`. -/
def TransportCall.inStart : TransportCall → Bool
  | .tested | .startLock | .startMark => true
  | .locked .startCheck | .locked .startProbes | .locked .inProbeStart | .locked (.startResult _)
  | .locked .startSend | .locked .startUnlock => true
  | _ => false

/-- There, and `probe_start` has been called or is not going to be. -/
def TransportCall.pastStart : TransportCall → Bool
  | .startMark => true
  | .locked .inProbeStart | .locked (.startResult _) | .locked .startSend | .locked .startUnlock =>
    true
  | _ => false

namespace Transport

variable {τ : Type} [DecidableEq τ] {s s' : Transport τ} {e : TransportEvent}

/-- No write of `STP_START` is under way. -/
def Quiet (s : Transport τ) : Prop := ∀ t, (s.call t).inStart = false

/-- The steps in which a write of `STP_START` begins only when no other one is under way. -/
def StepAlone (s : Transport τ) (e : TransportEvent) (s' : Transport τ) : Prop :=
  Step s e s' ∧ (e = .testStarted → s.Quiet)

/-- **What a step can do** to `started` and to a write of `STP_START`. -/
structure StartActs (s : Transport τ) (e : TransportEvent) (s' : Transport τ) (t : τ) : Prop where
  other : ∀ u, u ≠ t → s'.call u = s.call u
  begins : (s'.call t).inStart = true → (s.call t).inStart = true ∨ e = .testStarted ∧ s.started = false
  marks : s'.started = s.started ∨ s'.started = true ∧ (s.call t).inStart = true ∧ (s'.call t).inStart = false
  past : (s.call t).pastStart = true → (s'.call t).pastStart = true ∨ s'.started = true
  runs : e = .probeStart → (s.call t).inStart = true ∧ (s.call t).pastStart = false ∧ (s'.call t).pastStart = true

theorem Step.startActs (hs : Step s e s') : ∃ t, StartActs s e s' t := by
  cases hs with
  | @ignore t ht => exact ⟨t, fun _ _ => rfl, .inl, .inl rfl, .inl, nofun⟩
  | test ht h | refuse ht | copied ht | lockStart ht | unlockStart ht | mark ht | exit ht | close ht | lockExit ht
  | unlockExit ht =>
    refine ⟨_, fun u hu => update_of_ne hu _ _, ?_, ?_, ?_, ?_⟩ <;>
      simp_all [move, TransportCall.inStart, TransportCall.pastStart]
  | inside ht h =>
    refine ⟨_, fun u hu => update_of_ne hu _ _, ?_, ?_, ?_, ?_⟩ <;> cases h <;>
      simp_all [move, TransportCall.inStart, TransportCall.pastStart]

/-- One write of `STP_START` at a time, and `started` knows of all that are over. -/
structure OneStart (es : List TransportEvent) (s : Transport τ) : Prop where
  one : ∀ t u, (s.call t).inStart = true → (s.call u).inStart = true → t = u
  unmarked : ∀ t, (s.call t).inStart = true → s.started = false
  ran : .probeStart ∈ es → s.started = true ∨ ∃ t, (s.call t).pastStart = true
  once : es.count .probeStart ≤ 1

theorem pastStart_inStart {c : TransportCall} (h : c.pastStart = true) : c.inStart = true := by
  cases c with
  | locked k => cases k <;> first | rfl | cases h
  | startMark => rfl
  | idle | tested | startLock | exitLock => cases h

omit [DecidableEq τ] in
theorem OneStart.initial : OneStart [] (initial : Transport τ) :=
  ⟨nofun, nofun, nofun, Nat.zero_le _⟩

theorem OneStart.step {es : List TransportEvent} (h : OneStart es s) (hs : StepAlone s e s') :
    OneStart (es ++ [e]) s' := by
  obtain ⟨t, ha⟩ := hs.1.startActs
  have hfirst : e = .probeStart → .probeStart ∉ es := by
    intro he hm
    obtain ⟨hin, hnot, -⟩ := ha.runs he
    rcases h.ran hm with hst | ⟨u, hu⟩
    · rw [h.unmarked t hin] at hst
      cases hst
    · obtain rfl := h.one u t (pastStart_inStart hu) hin
      rw [hnot] at hu
      cases hu
  have hin : ∀ u, (s'.call u).inStart = true →
      (s.call u).inStart = true ∨ u = t ∧ e = .testStarted ∧ s.started = false := by
    intro u hu
    by_cases hut : u = t
    · subst hut
      exact (ha.begins hu).imp_right fun hb => ⟨rfl, hb⟩
    · exact .inl (ha.other u hut ▸ hu)
  have hquiet := hs.2
  unfold Quiet at hquiet
  refine ⟨fun u v hu hv => ?_, fun u hu => ?_, fun hm => ?_, count_snoc_le_one h.once hfirst⟩
  · have := h.one u v
    have := hin u hu
    have := hin v hv
    grind
  · have := hin u hu
    have := h.unmarked u
    have := ha.marks
    have := h.one u t
    grind
  · rcases mem_append.mp hm with hm | hm
    · rcases h.ran hm with hst | ⟨u, hu⟩
      · have := ha.marks
        grind
      · by_cases hut : u = t
        · subst hut
          exact (ha.past hu).symm.imp_right fun hp => ⟨u, hp⟩
        · exact .inr ⟨u, by rw [ha.other u hut, hu]⟩
    · exact .inr ⟨t, (ha.runs (mem_singleton.mp hm).symm).2.2⟩

/-- **The start and exit protocol** holds in every run in which no write of `STP_START` begins
while another one is under way. -/
theorem startExit_protocol {es : List TransportEvent}
    (h : RunsTo StepAlone (initial : Transport τ) es s) : StartExitProtocol es where
  toExitProtocol := exit_protocol (h.mono fun _ _ _ hs => hs.1)
  startOnce := (h.invariant (P := OneStart) .initial fun ho hs => ho.step hs).once

/-- One write of `STP_START`, up to the return of `probe_start`. -/
theorem startExit_protocol_one : ∃ s : Transport Unit, RunsTo StepAlone initial
    [.testStarted, .other, .other, .other, .probeStart, .probeStarted 0] s ∧
    StartExitProtocol [.testStarted, .other, .other, .other, .probeStart, .probeStarted 0] := by
  have h : ∃ s : Transport Unit, RunsTo StepAlone initial
      [.testStarted, .other, .other, .other, .probeStart, .probeStarted 0] s :=
    ⟨_, .cons ⟨.test (t := ()) rfl rfl, fun _ _ => rfl⟩ <|
      .cons ⟨.copied (t := ()) rfl, nofun⟩ <|
      .cons ⟨.lockStart (t := ()) rfl nofun, nofun⟩ <|
      .cons ⟨.inside (t := ()) rfl (.goStart rfl), nofun⟩ <|
      .cons ⟨.inside (t := ()) rfl .probeStart, nofun⟩ <|
      .cons ⟨.inside (t := ()) rfl (.probeStarted 0), nofun⟩ .start⟩
  obtain ⟨s, hs⟩ := h
  exact ⟨s, hs, startExit_protocol hs⟩

/-- Two threads write `STP_START` at once: both find `started == 0`, and `probe_start` is called
by the second one after it has returned 0 to the first one. -/
theorem probeStart_twice : ∃ (es : List TransportEvent) (s : Transport Bool),
    RunsTo Step initial es s ∧ es.count .probeStart = 2 :=
  ⟨_, _, .cons (.test (t := true) rfl rfl) <| .cons (.test (t := false) rfl rfl) <|
    .cons (.copied (t := true) rfl) <| .cons (.copied (t := false) rfl) <|
    .cons (.lockStart (t := true) rfl (Bool.rec nofun nofun)) <|
    .cons (.inside (t := true) rfl (.goStart rfl)) <|
    .cons (.inside (t := true) rfl .probeStart) <|
    .cons (.inside (t := true) rfl (.probeStarted 0)) <|
    .cons (.inside (t := true) rfl .result) <|
    .cons (.inside (t := true) rfl .sendStart) <|
    .cons (.unlockStart (t := true) rfl) <|
    .cons (.lockStart (t := false) rfl (Bool.rec nofun nofun)) <|
    .cons (.inside (t := false) rfl (.goStart rfl)) <|
    .cons (.inside (t := false) rfl .probeStart) .start, by decide⟩

end Transport

end Systemtap.Runtime
