import Systemtap.Sem.ExprLaw

/-!
# Runs that differ in a few locals

The optimisers drop assignments to some locals, so the run after a pass and
the run before it agree on everything except the locals in a set `D`.
`offView D` is that comparison: equal globals, equal kernel state, equal
locals outside `D`, no pending error, and the same events except assignments
to a local in `D`. With `D` empty the two states are equal.

Every construct of the script is compared piece by piece: if its parts match,
and it reads no local in `D`, then it matches. These are the lemmas that each
pass cites for the nodes it leaves as they are.
-/

namespace Systemtap.Sem

open Systemtap.Tree Systemtap.Lex Lib Sim Function

variable {W α : Type} {D : Nat → Bool}

/-- Equal states, but for the locals in `D`; no error is pending. -/
structure Off (D : Nat → Bool) (s t : State W) : Prop where
  globals : s.globals = t.globals
  world : s.world = t.world
  frame : ∀ k, D k = false → s.frame k = t.frame k
  ret : s.ret = t.ret
  left : s.lastError = none
  right : t.lastError = none

/-- An assignment to a local in `D` is not shown; nor is the reordering of an
array, which shows in the array itself. -/
def Event.shownOff (D : Nat → Bool) : Event → Bool
  | .set (.loc k) _ => !D k
  | .mutate _ .reorder _ => false
  | _ => true

/-- No local is set apart. -/
def noLocal : Nat → Bool := fun _ => false

def offView (D : Nat → Bool) : View Event (State W) where
  rel := Off D
  fatal := Event.isError
  shown := Event.shownOff D

/-- A variable that is no local in `D`. -/
def Avoids (D : Nat → Bool) : Var → Prop
  | .loc k => D k = false
  | .global _ => True

/-- The place is no local in `D`. -/
def Place.avoids (D : Nat → Bool) : Place → Prop
  | .var v => Avoids D v
  | _ => True

/-! ## Primitive steps -/

theorem not_ok_raise {V : View Event (State W)} (hV : V.fatal = Event.isError) (m : CStr)
    (s : State W) : ¬ V.Ok (raise m s : Outcome Event (State W) α) := by
  intro ok
  have h := ok.2 (.error m) (by simp [raise, Run.bind_apply, Run.update, Run.emit, Run.out])
  rw [hV] at h
  cases h

theorem raise_sim (m : CStr) (m' : M W α) : Sim (offView D) (raise m) m' :=
  fun s _ _ ok => absurd ok (not_ok_raise rfl m s)

/-- Both sides may put anything into a local in `D`. -/
theorem Off.update {s t : State W} (h : Off D s t) {k : Nat} {x y : Value}
    (hxy : D k = false → x = y) :
    Off D { s with frame := update s.frame k x }
      { t with frame := update t.frame k y } where
  globals := h.globals
  world := h.world
  frame := by
    intro j hj
    by_cases hjk : j = k
    · subst hjk
      simp only [update_self]
      exact hxy hj
    · simp only [update_of_ne hjk]
      exact h.frame j hj
  ret := h.ret
  left := h.left
  right := h.right

theorem writeLoc_sim (k : Nat) (x : Value) :
    Sim (offView D) (writeVar (.loc k) x : M W Unit) (writeVar (.loc k) x) :=
  (emit _).bind fun _ => update fun _ _ h => h.update fun _ => rfl

/-- A use that is no use of a local in `D`. -/
def UseOff (D : Nat → Bool) : Use → Prop
  | .read v | .write v => Avoids D v
  | .embedded | .call _ => True

/-- To match itself is a law of expressions that do not use the locals in `D`. -/
def offLaw (D : Nat → Bool) : ExprLaw W (UseOff D) where
  Holds m := Sim (offView D) m m
  pure := Sim.pure
  halt := halt _
  bind := Sim.bind
  raises m := raise_sim m _
  locals k h := read fun _ _ hr => (hr.frame k (h.elim id id)).symm
  looks := read fun _ _ h => h.world.symm
  reads k _ := read fun _ _ h => (congrFun h.globals k).symm
  assigns k x _ := writeLoc_sim k x
  sets k g _ := update fun _ _ h =>
    ⟨congrArg (update · k g) h.globals, h.world, h.frame, h.ret, h.left, h.right⟩
  tells _ _ _ := emit _
  prints _ _ _ := emit _
  acts _ _ := update fun _ _ h => ⟨h.globals, rfl, h.frame, h.ret, h.left, h.right⟩

theorem useOff_print {b : Bool} : ∀ u ∈ (if b then [Use.embedded] else []), UseOff D u := by
  cases b <;> simp [UseOff]

theorem asLong_sim (a : Value) : Sim (offView D) (asLong a : M W I64) (asLong a) :=
  asLong_law (offLaw D) a

theorem readGlobal_sim (k : Nat) : Sim (offView D) (readGlobal k : M W Global) (readGlobal k) :=
  (offLaw D).reads k (.inl trivial)

theorem setGlobal_sim (k : Nat) (g : Global) :
    Sim (offView D) (setGlobal k g : M W Unit) (setGlobal k g) :=
  (offLaw D).sets k g trivial

theorem readVar_sim {v : Var} (h : Avoids D v) :
    Sim (offView D) (readVar v : M W Value) (readVar v) :=
  readVar_law (offLaw D) (.inl h)

theorem writeVar_sim (v : Var) (x : Value) :
    Sim (offView D) (writeVar v x : M W Unit) (writeVar v x) := by
  cases v with
  | loc k => exact writeLoc_sim k x
  | global k => exact writeVar_law (offLaw D) (v := .global k) trivial x

theorem noteMutation_sim (c : Ctx W) (a : Nat) (m : Mutation) :
    Sim (offView D) (noteMutation c a m) (noteMutation c a m) :=
  emit _

variable {p : Place}

theorem Place.avoids.writable (h : p.avoids D) : p.Writable (UseOff D) := by
  cases p with
  | var v => exact h
  | elem | target => trivial

/-- An aggregate is in no local. -/
theorem loadAggregate_sim (c : Ctx W) (p : Place) :
    Sim (offView D) (loadAggregate c p) (loadAggregate c p) := by
  cases p with
  | var v =>
    cases v with
    | loc k => exact halt _
    | global k => exact loadAggregate_law (offLaw D) c (.inl trivial)
  | elem a keys => exact loadAggregate_law (offLaw D) c (.inl trivial)
  | target t args => exact halt _

/-- A plain assignment does not look at what it overwrites. -/
theorem assignOp_sim (c : Ctx W) {op : AssignOp} (r : Value)
    (h : op = .set ∨ op = .stat ∨ p.avoids D) :
    Sim (offView D) (assignOp c op p r) (assignOp c op p r) := by
  by_cases hp : p.avoids D
  · exact assignOp_law (offLaw D) c op hp.writable r
  · cases p with
    | var v =>
      rcases h with rfl | rfl | h
      · exact (writeVar_sim v r).bind fun _ => pure r
      · cases v with
        | loc k => exact (asLong_sim r).bind fun n => (halt _).bind fun _ => pure r
        | global k => exact absurd trivial hp
      · exact absurd h hp
    | elem | target => exact absurd trivial hp

theorem arrayInOp_sim (p : Place) : Sim (offView D) (arrayInOp p : M W Value) (arrayInOp p) := by
  cases p with
  | elem a keys => exact arrayInOp_law (offLaw D) (.inl trivial)
  | var | target => exact halt _

/-! ## Errors and embedded code -/

/-- Where a run is compared, no error is pending, so `last_error` reads as none. -/
theorem readError_sim {f f' : Option CStr → M W α} (h : Sim (offView D) (f none) (f' none)) :
    Sim (offView D) (readError >>= f) (readError >>= f') :=
  read_const (fun _ _ hr => ⟨hr.left, hr.right⟩) h

theorem clearError_sim : Sim (offView D) (clearError : M W Unit) clearError :=
  update fun _ _ h => ⟨h.globals, h.world, h.frame, h.ret, rfl, rfl⟩

theorem setRet_sim (v : Value) : Sim (offView D) (setRet v : M W Unit) (setRet v) :=
  update fun _ _ h => ⟨h.globals, h.world, h.frame, rfl, h.left, h.right⟩

theorem noteError_sim (m : Option CStr) :
    Sim (offView D) (noteError m : M W Unit) (noteError m) := by
  cases m with
  | none => exact pure ()
  | some m =>
    intro s t hr ok
    have h := ok.of_bind.1.2 (.error m) (List.mem_singleton.mpr rfl)
    exact nomatch h

theorem noteEmbedded_sim (code : Str) (args : List Value) :
    Sim (offView D) (noteEmbedded code args : M W Unit) (noteEmbedded code args) := by
  unfold noteEmbedded
  split
  · exact pure ()
  · exact emit _

theorem notePrinted_sim (text : Option Str) :
    Sim (offView D) (notePrinted text : M W Unit) (notePrinted text) := by
  cases text with
  | none => exact pure ()
  | some text => exact emit _

theorem leaveEmbedded_sim (r : Embedded W) : Sim (offView D) (leaveEmbedded r) (leaveEmbedded r) :=
  update fun _ _ h =>
    ⟨h.globals, rfl, h.frame, congrArg (r.ret.getD ·) h.ret, h.left, h.right⟩

end Systemtap.Sem
