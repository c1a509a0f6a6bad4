import Systemtap.Lib.Steps

/-!
# The entry functions of probes

The translator emits one function for each kind of probe that the kernel calls when a probe is
hit. They all begin with `common_probe_entryfn_prologue` and end with
`common_probe_entryfn_epilogue`: interrupts or preemption are turned off, the context of this cpu
is claimed by counting `c->busy` up to 1, the handler of the probe runs on that context, and all of
this is undone. A function that finds the context busy leaves at once.

At any point another entry function can interrupt, which then runs to its end. So the functions of
a cpu form a stack, whose lower frames stand still. That no two handlers use the context at once
holds always (`Owned`). But the functions for uprobes and uretprobes have a `return` of their
own, behind the prologue, for a slot with no valid `spec_index`; on this path the context
stays busy and interrupts stay off. All other returns are balanced (`entry_exclusive_balanced`).

Which way a function goes at a test of the stack, the session state or `spec_index` is left open.
-/

namespace Systemtap.Trans

open Lib

/-! ## The code -/

inductive EntryFn where
  | kprobe
  | kretprobe (entry : Bool)
  | uprobe
  | uretprobe
deriving DecidableEq, Repr

/-- The function looks at `sup->spec_index` after the prologue. -/
def EntryFn.checksIndex : EntryFn → Bool
  | .uprobe | .uretprobe => true
  | .kprobe | .kretprobe _ => false

/-- Where a function is: in front of the statement that the name says. -/
inductive EntryPc where
  /-- `preempt_disable ()` or `local_irq_save (flags)` -/
  | save
  /-- The test of the stack. -/
  | checkStack
  /-- The test of `session_state`. -/
  | checkState
  /-- `atomic_inc_return (& c->busy) != 1` -/
  | claim
  /-- `atomic_dec (& c->busy); goto probe_epilogue` -/
  | unclaim
  /-- The context is set up. -/
  | setup
  /-- The test of `sup->spec_index`. -/
  | checkIndex
  /-- `(*ph) (c)`; the function is here as long as the handler runs. -/
  | handler
  /-- The epilogue, up to `atomic_dec (&c->busy)`. -/
  | release
  /-- `probe_epilogue:`, up to `preempt_enable_no_resched ()` or `local_irq_restore (flags)`. -/
  | restore
  | finish
deriving DecidableEq, Repr

/-- What must be as it was. -/
structure CpuState where
  busy : Int
  irqs : Bool
  preempt : Int
deriving DecidableEq, Repr

/-- A function that has been entered; `entered` is the state in which it was. -/
structure EntryFrame where
  fn : EntryFn
  pc : EntryPc
  flags : Bool
  entered : CpuState
deriving DecidableEq, Repr

/-- A cpu: its state, and the functions on it, the running one first. -/
structure Cpu where
  state : CpuState
  stack : List EntryFrame
deriving DecidableEq, Repr

/-- How a function is left. -/
inductive EntryExit where
  | epilogue
  /-- `return; // XXX: should not happen`, with the `sup->spec_index` that was read. -/
  | badIndex (i : Int)
deriving DecidableEq, Repr

/-- What a step shows. -/
inductive EntryEvent where
  /-- A function that was entered in the first state returns in the second. -/
  | returns (x : EntryExit) (entered left : CpuState)
  | other
deriving DecidableEq, Repr

/-- `#if INTERRUPTIBLE` -/
def CpuState.disable (interruptible : Bool) (s : CpuState) : CpuState :=
  if interruptible then { s with preempt := s.preempt + 1 } else { s with irqs := false }

def CpuState.restore (interruptible flags : Bool) (s : CpuState) : CpuState :=
  if interruptible then { s with preempt := s.preempt - 1 } else { s with irqs := flags }

def CpuState.addBusy (s : CpuState) (n : Int) : CpuState := { s with busy := s.busy + n }

/-- The statements of an entry function that do not leave it; `n` is the number of uprobes. -/
inductive EntryStep (interruptible : Bool) (n : Nat) (fn : EntryFn) :
    CpuState → EntryPc → Bool → CpuState → EntryPc → Bool → Prop
  | save {s b} : EntryStep interruptible n fn s .save b (s.disable interruptible) .checkStack s.irqs
  | stackOk {s b} : EntryStep interruptible n fn s .checkStack b s .checkState b
  | lowStack {s b} : EntryStep interruptible n fn s .checkStack b s .restore b
  | stateOk {s b} : EntryStep interruptible n fn s .checkState b s .claim b
  | notRunning {s b} : EntryStep interruptible n fn s .checkState b s .restore b
  | claimed {s b} (h : s.busy + 1 = 1) :
      EntryStep interruptible n fn s .claim b (s.addBusy 1) .setup b
  | reentered {s b} (h : s.busy + 1 ≠ 1) :
      EntryStep interruptible n fn s .claim b (s.addBusy 1) .unclaim b
  | unclaim {s b} : EntryStep interruptible n fn s .unclaim b (s.addBusy (-1)) .restore b
  | setup {s b} (h : fn.checksIndex = false) :
      EntryStep interruptible n fn s .setup b s .handler b
  | setupIndex {s b} (h : fn.checksIndex = true) :
      EntryStep interruptible n fn s .setup b s .checkIndex b
  | indexOk {s b} (i : Int) (h : ¬ (i < 0 ∨ i ≥ n)) :
      EntryStep interruptible n fn s .checkIndex b s .handler b
  | handler {s b} : EntryStep interruptible n fn s .handler b s .release b
  | release {s b} : EntryStep interruptible n fn s .release b (s.addBusy (-1)) .restore b
  | restore {s b} :
      EntryStep interruptible n fn s .restore b (s.restore interruptible b) .finish b

/-- The steps of a cpu. -/
inductive CpuStep (interruptible : Bool) (n : Nat) : Cpu → EntryEvent → Cpu → Prop
  /-- A probe is hit; `flags` is not set yet. -/
  | enter {s fs} (fn : EntryFn) (flags : Bool) :
      CpuStep interruptible n ⟨s, fs⟩ .other ⟨s, ⟨fn, .save, flags, s⟩ :: fs⟩
  | step {s s' fn pc pc' b b' s₀ fs} (h : EntryStep interruptible n fn s pc b s' pc' b') :
      CpuStep interruptible n ⟨s, ⟨fn, pc, b, s₀⟩ :: fs⟩ .other ⟨s', ⟨fn, pc', b', s₀⟩ :: fs⟩
  | returns {s fn b s₀ fs} :
      CpuStep interruptible n ⟨s, ⟨fn, .finish, b, s₀⟩ :: fs⟩ (.returns .epilogue s₀ s) ⟨s, fs⟩
  | badIndex {s fn b s₀ fs} (i : Int) (h : i < 0 ∨ i ≥ n) :
      CpuStep interruptible n ⟨s, ⟨fn, .checkIndex, b, s₀⟩ :: fs⟩
        (.returns (.badIndex i) s₀ s) ⟨s, fs⟩

/-- No probe is being handled. -/
def Cpu.idle (irqs : Bool) (preempt : Int) : Cpu := ⟨⟨0, irqs, preempt⟩, []⟩

/-- How many handlers run on the context. -/
def Cpu.handlers (c : Cpu) : Nat := c.stack.countP fun f => f.pc = .handler

/-! ## What a function has done so far -/

/-- What it has added to `c->busy`. -/
def EntryPc.busy : EntryPc → Int
  | .unclaim | .setup | .checkIndex | .handler | .release => 1
  | .save | .checkStack | .checkState | .claim | .restore | .finish => 0

/-- Interrupts or preemption are off. -/
def EntryPc.disabled : EntryPc → Bool
  | .save | .finish => false
  | .checkStack | .checkState | .claim | .unclaim | .setup | .checkIndex | .handler | .release
  | .restore => true

/-- The context is its own. -/
def EntryPc.owns : EntryPc → Bool
  | .setup | .checkIndex | .handler | .release => true
  | .save | .checkStack | .checkState | .claim | .unclaim | .restore | .finish => false

/-- The state of the cpu when the function was entered in `s`. -/
def EntryPc.effect (interruptible : Bool) (pc : EntryPc) (s : CpuState) : CpuState :=
  (if pc.disabled then s.disable interruptible else s).addBusy pc.busy

theorem EntryPc.busy_nonneg (pc : EntryPc) : 0 ≤ pc.busy := by
  cases pc <;> decide

@[simp] theorem CpuState.busy_disable (i : Bool) (s : CpuState) : (s.disable i).busy = s.busy := by
  cases i <;> rfl

@[simp] theorem CpuState.busy_restore (i b : Bool) (s : CpuState) :
    (s.restore i b).busy = s.busy := by
  cases i <;> rfl

@[simp] theorem CpuState.busy_addBusy (s : CpuState) (n : Int) :
    (s.addBusy n).busy = s.busy + n := rfl

@[simp] theorem CpuState.addBusy_zero (s : CpuState) : s.addBusy 0 = s := by
  simp [CpuState.addBusy]

@[simp] theorem CpuState.addBusy_addBusy (s : CpuState) (m n : Int) :
    (s.addBusy m).addBusy n = s.addBusy (m + n) := by
  simp [CpuState.addBusy, add_assoc]

/-- The epilogue undoes the prologue. -/
@[simp] theorem CpuState.restore_disable (i : Bool) (s : CpuState) :
    (s.disable i).restore i s.irqs = s := by
  cases i <;> simp [CpuState.disable, CpuState.restore]

section

variable {interruptible : Bool} {n : Nat} {fn : EntryFn} {s s' : CpuState} {pc pc' : EntryPc}
  {b b' : Bool}

/-- Each step moves `c->busy` with the function's own share. -/
theorem EntryStep.busy_eq (h : EntryStep interruptible n fn s pc b s' pc' b') :
    s'.busy - pc'.busy = s.busy - pc.busy := by
  cases h <;> simp [EntryPc.busy, Int.add_neg_one]

/-- Only a function that finds the context free comes to own it. -/
theorem EntryStep.owns (h : EntryStep interruptible n fn s pc b s' pc' b')
    (ho : pc'.owns = true) : pc.owns = true ∨ s.busy = 0 := by
  cases h with
  | claimed h => exact .inr (by omega)
  | setup | setupIndex | indexOk | handler => exact .inl rfl
  | _ => exact absurd ho (by decide)

/-- The state is that of the entry, changed by what the function has done, and `flags` remembers
the interrupts until they are restored. -/
def EntryPc.Accounts (interruptible : Bool) (pc : EntryPc) (b : Bool) (s₀ s : CpuState) : Prop :=
  s = pc.effect interruptible s₀ ∧ (pc.disabled = true → b = s₀.irqs)

theorem EntryStep.accounts {s0 : CpuState} (h : EntryStep interruptible n fn s pc b s' pc' b')
    (ha : pc.Accounts interruptible b s0 s) : pc'.Accounts interruptible b' s0 s' := by
  obtain ⟨rfl, hb⟩ := ha
  cases h with
  | save => exact ⟨by simp [EntryPc.effect, EntryPc.disabled, EntryPc.busy],
      fun _ => by simp [EntryPc.effect, EntryPc.disabled, EntryPc.busy]⟩
  | restore =>
    obtain rfl := hb rfl
    exact ⟨by simp [EntryPc.effect, EntryPc.disabled, EntryPc.busy], nofun⟩
  | _ => exact ⟨by simp [EntryPc.effect, EntryPc.disabled, EntryPc.busy], fun _ => hb rfl⟩

end

/-! ## Exclusion -/

/-- What the functions of a stack have added to `c->busy`. -/
def busySum (fs : List EntryFrame) : Int := (fs.map fun f => f.pc.busy).sum

@[simp] theorem busySum_nil : busySum [] = 0 := rfl

@[simp] theorem busySum_cons (f : EntryFrame) (fs : List EntryFrame) :
    busySum (f :: fs) = f.pc.busy + busySum fs := by
  simp [busySum]

theorem busySum_nonneg (fs : List EntryFrame) : 0 ≤ busySum fs := by
  induction fs with
  | nil => simp
  | cons f fs ih =>
    have := f.pc.busy_nonneg
    simp only [busySum_cons]
    omega

/-- Below a function that owns the context none has counted. -/
def Owned : List EntryFrame → Prop
  | [] => True
  | f :: fs => (f.pc.owns = true → busySum fs = 0) ∧ Owned fs

/-- A running handler counts. -/
theorem countP_handler_le (fs : List EntryFrame) :
    (fs.countP fun f => f.pc = .handler : Nat) ≤ busySum fs := by
  induction fs with
  | nil => simp
  | cons f fs ih =>
    have := f.pc.busy_nonneg
    rw [List.countP_cons, busySum_cons]
    by_cases hf : f.pc = .handler
    · simp only [hf, EntryPc.busy, decide_true, if_true]
      omega
    · simp only [hf, decide_false, Bool.false_eq_true, if_false]
      omega

theorem Owned.handlers_le_one {fs : List EntryFrame} (h : Owned fs) :
    (fs.countP fun f => f.pc = .handler) ≤ 1 := by
  induction fs with
  | nil => simp
  | cons f fs ih =>
    rw [List.countP_cons]
    by_cases hf : f.pc = .handler
    · have hsum := h.1 (by rw [hf]; rfl)
      have hle := countP_handler_le fs
      simp only [hf, decide_true, if_true]
      omega
    · simpa [hf] using ih h.2

/-- Who owns the context, and that all of `c->busy` that is on the stack is really counted. A bad
return leaves more in `c->busy` than the stack accounts for, never less. -/
structure Cpu.Exclusive (c : Cpu) : Prop where
  owned : Owned c.stack
  counted : busySum c.stack ≤ c.state.busy

theorem CpuStep.exclusive {interruptible : Bool} {n : Nat} {c c' : Cpu} {e : EntryEvent}
    (h : CpuStep interruptible n c e c') (hc : c.Exclusive) : c'.Exclusive := by
  obtain ⟨howned, hcount⟩ := hc
  cases h with
  | enter fn flags =>
    refine ⟨⟨nofun, howned⟩, ?_⟩
    simpa [EntryPc.busy] using hcount
  | @step s s' fn pc pc' b b' s0 fs h =>
    simp only [busySum_cons] at hcount
    have hbusy := h.busy_eq
    refine ⟨⟨fun ho => ?_, howned.2⟩, by simp only [busySum_cons]; omega⟩
    rcases h.owns ho with hpc | hfree
    · exact howned.1 hpc
    · -- the context was free, so nobody below has counted
      have := busySum_nonneg fs
      have := pc.busy_nonneg
      omega
  | returns =>
    refine ⟨howned.2, ?_⟩
    simpa [EntryPc.busy] using hcount
  | @badIndex s fn b s0 fs i hi =>
    refine ⟨howned.2, ?_⟩
    simp only [busySum_cons, EntryPc.busy] at hcount
    show busySum fs ≤ s.busy
    omega

/-! ## Balance -/

/-- Each function of the stack accounts for the difference between the state in which it was
entered and the state in which the next one was. -/
def Chained (interruptible : Bool) : CpuState → List EntryFrame → Prop
  | _, [] => True
  | s, f :: fs => f.pc.Accounts interruptible f.flags f.entered s ∧ Chained interruptible f.entered fs

/-- All functions have returned in the state in which they were entered. -/
def AllBalanced (es : List EntryEvent) : Prop :=
  ∀ x s₀ s, EntryEvent.returns x s₀ s ∈ es → s₀ = s

/-- No function has been left for its `spec_index`. -/
def IndexesValid (es : List EntryEvent) : Prop :=
  ∀ i s₀ s, EntryEvent.returns (.badIndex i) s₀ s ∉ es

def EntryEvent.Balanced : EntryEvent → Prop
  | .returns _ s₀ s => s₀ = s
  | .other => True

def EntryEvent.IndexValid : EntryEvent → Prop
  | .returns (.badIndex _) _ _ => False
  | .returns .epilogue _ _ | .other => True

theorem allBalanced_iff {es : List EntryEvent} : AllBalanced es ↔ ∀ e ∈ es, e.Balanced := by
  constructor
  · intro h e he
    cases e with
    | returns x s0 s => exact h x s0 s he
    | other => trivial
  · exact fun h x s0 s he => h _ he

theorem indexesValid_iff {es : List EntryEvent} : IndexesValid es ↔ ∀ e ∈ es, e.IndexValid := by
  constructor
  · intro h e he
    cases e with
    | returns x s0 s =>
      cases x with
      | epilogue => trivial
      | badIndex i => exact h i s0 s he
    | other => trivial
  · exact fun h i s0 s he => h _ he

/-- As long as the stack accounts for the state, the only unbalanced step is the bad return, and
every other one keeps the account. -/
theorem CpuStep.chained {interruptible : Bool} {n : Nat} {c c' : Cpu} {e : EntryEvent}
    (h : CpuStep interruptible n c e c') (hc : Chained interruptible c.state c.stack) :
    (e.Balanced ↔ e.IndexValid) ∧ (e.IndexValid → Chained interruptible c'.state c'.stack) := by
  cases h with
  | enter fn flags =>
    exact ⟨Iff.rfl, fun _ => ⟨⟨by simp [EntryPc.effect, EntryPc.disabled, EntryPc.busy], nofun⟩, hc⟩⟩
  | step h => exact ⟨Iff.rfl, fun _ => ⟨h.accounts hc.1, hc.2⟩⟩
  | @returns s fn b s0 fs =>
    have heq : s = s0 := by
      simpa [EntryPc.effect, EntryPc.disabled, EntryPc.busy] using hc.1.1
    subst heq
    exact ⟨⟨fun _ => trivial, fun _ => rfl⟩, fun _ => hc.2⟩
  | @badIndex s fn b s0 fs i hi =>
    -- behind the prologue the context is counted once more than at the entry
    have hbusy : s.busy = s0.busy + 1 := by
      simpa [EntryPc.effect, EntryPc.disabled, EntryPc.busy] using congrArg CpuState.busy hc.1.1
    refine ⟨⟨fun heq => ?_, False.elim⟩, False.elim⟩
    rw [heq] at hbusy
    omega

/-- On every cpu, however its probes interrupt one another, at most one handler runs on the
context; and all entry functions return with the context's count and the interrupts as they found
them, if and only if none of them was left for a `spec_index` out of range. -/
theorem entry_exclusive_balanced {interruptible irqs : Bool} {n : Nat} {preempt : Int}
    {es : List EntryEvent} {c : Cpu}
    (h : RunsTo (CpuStep interruptible n) (Cpu.idle irqs preempt) es c) :
    c.handlers ≤ 1 ∧ (AllBalanced es ↔ IndexesValid es) := by
  have hex : c.Exclusive := h.invariant ⟨trivial, le_refl _⟩ fun hc hs => hs.exclusive hc
  have hch : ((∀ e ∈ es, e.Balanced) ↔ ∀ e ∈ es, e.IndexValid) ∧
      ((∀ e ∈ es, e.IndexValid) → Chained interruptible c.state c.stack) := by
    refine h.invariant ?_ ?_
    · exact ⟨by simp, fun _ => trivial⟩
    · intro es c e c' ⟨hiff, hchain⟩ hs
      simp only [List.forall_mem_append, List.forall_mem_singleton, hiff]
      exact ⟨and_congr_right fun hes => (hs.chained (hchain hes)).1,
        fun hes => (hs.chained (hchain hes.1)).2 hes.2⟩
  exact ⟨hex.owned.handlers_le_one, by rw [allBalanced_iff, indexesValid_iff]; exact hch.1⟩

/-- A kprobe that runs its handler, with interrupts on before and after. -/
theorem entry_balanced_kprobe :
    ∃ es c, RunsTo (CpuStep false 1) (Cpu.idle true 0) es c ∧ IndexesValid es ∧
      EntryEvent.returns .epilogue ⟨0, true, 0⟩ ⟨0, true, 0⟩ ∈ es ∧
      c.handlers ≤ 1 ∧ (AllBalanced es ↔ IndexesValid es) := by
  have h : RunsTo (CpuStep false 1) (Cpu.idle true 0) _ _ :=
    .step (.step (.step (.step (.step (.step (.step (.step (.step (.step .start
      (.enter .kprobe false)) (.step .save)) (.step .stackOk)) (.step .stateOk))
      (.step (.claimed rfl))) (.step (.setup rfl))) (.step .handler)) (.step .release))
      (.step .restore)) .returns
  refine ⟨_, _, h, ?_, ?_, entry_exclusive_balanced h⟩
  · simp [IndexesValid]
  · simp [CpuState.disable, CpuState.restore, CpuState.addBusy]

/-- A uprobe whose slot has been given back leaves its context busy and interrupts off. -/
theorem entry_bad_index :
    ∃ es c, RunsTo (CpuStep false 1) (Cpu.idle true 0) es c ∧ c.stack = [] ∧
      c.state = ⟨1, false, 0⟩ ∧ ¬ AllBalanced es := by
  have h : RunsTo (CpuStep false 1) (Cpu.idle true 0) _ _ :=
    .step (.step (.step (.step (.step (.step (.step .start
      (.enter .uprobe false)) (.step .save)) (.step .stackOk)) (.step .stateOk))
      (.step (.claimed rfl))) (.step (.setupIndex rfl))) (.badIndex (-1) (.inl (by decide)))
  refine ⟨_, _, h, rfl, rfl, ?_⟩
  intro hall
  have := hall (.badIndex (-1)) ⟨0, true, 0⟩ ⟨1, false, 0⟩ (by
    simp [CpuState.disable, CpuState.addBusy])
  exact absurd this (by decide)

end Systemtap.Trans
