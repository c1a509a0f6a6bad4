import Systemtap.Lib.Law
import Systemtap.Sem.Handler
import Systemtap.Sem.StmtLaw

/-!
# What a handler can do to the globals

The uses that `varuse_collecting_visitor` notes bound what any execution can
do. The argument is made once, for an arbitrary law of runs: if the law lets a
run do what it likes outside the globals (`OffGlobals`), and lets it have the
accesses that were noted (`Permits`), then every handler obeys the law:
expressions by `ExprLaw`, statements by a walk over the syntax, calls by an
induction.

Two laws are put in. A run *passes over* a global when it neither notices its
value nor changes it; this is so where the global is not noted at all. A run
*spares* a global that is no statistic when it ends with it unchanged and no
event tells of a change; this is so where the global is only noted as read. A
statistic that is only noted as read can still be written: a `foreach` over it
makes its aggregate, which rebuilds the list of nodes.
-/

namespace Systemtap.Sem

open Systemtap.Tree Systemtap.Lex Lib List Function

variable {W α : Type}

/-- The law allows everything outside the globals. -/
structure OffGlobals (L : Law Event (State W)) : Prop where
  read : ∀ {α : Type} (f : State W → α), (∀ s G, f { s with globals := G } = f s) →
    L.Holds (Run.read f)
  update : ∀ f : State W → State W,
    (∀ s G, f { s with globals := G } = { f s with globals := G }) → L.Holds (Run.update f)
  emit : ∀ e : Event, e.global = none → L.Holds (Run.emit e)
  call : ∀ {α : Type} {m : M W α} (frame : Nat → Value) (ret : Value), L.Holds m →
    L.Holds (Run.inScope (fun s => { s with frame, ret })
      (fun s s' => { s' with frame := s.frame, ret := s.ret }) Event.leavesCall m)

/-- The law allows global `k` to be read, and walked over as it stands. -/
structure MayRead (L : Law Event (State W)) (k : Nat) : Prop where
  read : L.Holds (readGlobal k)
  walk : ∀ {c : Ctx W} {idx : List Symbol} {limit : Option I64} {body : Ctx W → M W Ctl},
    (∀ keys, L.Holds (assignIndexes idx keys)) →
    (∀ iter agg, L.Holds (body { c with iter, agg })) →
    L.Holds (foreachOp c idx (.global k) none limit body)

/-- The law allows global `k` to be read and changed. -/
structure MayWrite (L : Law Event (State W)) (k : Nat) : Prop where
  read : L.Holds (readGlobal k)
  set : ∀ g, L.Holds (setGlobal k g)
  emit : ∀ e : Event, e.global = some k → L.Holds (Run.emit e)

/-- The law allows what was noted; of a call, what the call does. -/
def Permits (L : Law Event (State W)) (call : FnId → List (Nat × Nat) → List Value → M W Value) :
    Use → Prop
  | .read (.global k) => MayRead L k
  | .write (.global k) => MayWrite L k
  | .call f => ∀ iter args, L.Holds (call f iter args)
  | .read (.loc _) | .write (.loc _) | .embedded => True

/-! ## Expressions -/

section Prim

variable {L : Law Event (State W)} (hL : OffGlobals L)
include hL

theorem raise_law (m : CStr) : L.Holds (raise m : M W α) :=
  L.bind (hL.update _ fun _ _ => rfl) fun _ => L.bind (hL.emit _ rfl) fun _ => L.out

/-- Expressions obey the law where it allows what is noted for them. -/
def OffGlobals.exprLaw (call : FnId → List (Nat × Nat) → List Value → M W Value) :
    ExprLaw W (Permits L call) where
  Holds := L.Holds
  pure := L.pure
  halt := L.halt
  bind := L.bind
  raises := raise_law hL
  locals _ _ := hL.read _ fun _ _ => rfl
  looks := hL.read _ fun _ _ => rfl
  reads _ h := h.elim MayRead.read MayWrite.read
  assigns _ _ _ := L.bind (hL.emit _ rfl) fun _ => hL.update _ fun _ _ => rfl
  sets _ g h := MayWrite.set h g
  tells e he h := MayWrite.emit h e he
  prints e he _ := hL.emit e he
  acts _ _ := hL.update _ fun _ _ => rfl

theorem embeddedOp_law (c : Ctx W) (code : Str) : L.Holds (embeddedOp c code) := by
  refine L.bind (hL.read _ fun _ _ => rfl) fun args => L.bind (hL.read _ fun _ _ => rfl) fun r => ?_
  refine L.bind ?_ fun _ => L.bind ?_ fun _ => L.bind ?_ fun _ => hL.update _ fun _ _ => rfl
  · unfold noteEmbedded
    split
    · exact L.pure _
    · exact hL.emit _ rfl
  · cases r.printed with
    | none => exact L.pure _
    | some text => exact hL.emit _ rfl
  · cases r.error with
    | none => exact L.pure _
    | some m => exact L.bind (hL.emit _ rfl) fun _ => hL.update _ fun _ _ => rfl

/-- And so do statements. -/
def OffGlobals.stmtLaw (rt : Runtime W) (call : FnId → List (Nat × Nat) → List Value → M W Value) :
    StmtLaw rt (Permits L call) where
  toExprLaw := hL.exprLaw call
  out := L.out
  onOut := L.onOut
  errors := hL.read _ fun _ _ => rfl
  clears := hL.update _ fun _ _ => rfl
  returns _ := hL.update _ fun _ _ => rfl
  embeds c code _ _ := embeddedOp_law hL c code
  walks h hidx hb := MayRead.walk h (assignIndexes_law (hL.exprLaw call) _ · hidx) hb

theorem MayWrite.mayRead {a : Nat} (h : MayWrite L a) : MayRead L a where
  read := h.read
  walk {c _ _ _} hw hb := changedForeach_law (hL.exprLaw c.call) h none hw hb

end Prim

/-! ## Calls and handlers -/

section Handler

variable {L : Law Event (State W)} (hL : OffGlobals L)

/-- The law allows every access to a global that was noted. -/
def PermitsUse (L : Law Event (State W)) : Use → Prop
  | .read (.global k) => MayRead L k
  | .write (.global k) => MayWrite L k
  | _ => True

theorem PermitsUse.permits {call : FnId → List (Nat × Nat) → List Value → M W Value} {u : Use}
    (h : PermitsUse L u) (hcall : ∀ f, u = .call f → ∀ iter args, L.Holds (call f iter args)) :
    Permits L call u := by
  cases u with
  | read v | write v =>
    cases v with
    | loc k => trivial
    | global k => exact h
  | embedded => trivial
  | call f => exact hcall f rfl

include hL

theorem finishCall_law {body : M W Ctl} (h : L.Holds body) : L.Holds (finishCall body) := by
  refine L.bind (L.onOut h (L.pure _)) fun _ => L.bind (hL.read _ fun _ _ => rfl) fun m => ?_
  cases m with
  | some m => exact L.out
  | none => exact hL.read _ fun _ _ => rfl

/-- Calls obey the law, by induction on the levels left below `MAXNESTING`, where
everything that is noted from them on is allowed. -/
theorem callFn_law {sess : Session} {us : List Use}
    (hclosed : ∀ f, .call f ∈ us → sess.fnUses f ⊆ us) (hus : ∀ u ∈ us, PermitsUse L u)
    (rt : Runtime W) (fuel n : Nat) :
    ∀ f, .call f ∈ us → ∀ iter args, L.Holds (callFn sess rt fuel n f iter args) := by
  induction n with
  | zero => exact fun f _ iter args => raise_law hL _
  | succ n ih =>
    intro f hf iter args
    rw [callFn]
    have hbody := hclosed f hf
    unfold Session.fnUses at hbody
    cases hfd : sess.functions[f]? with
    | none => exact L.halt
    | some fd =>
      rw [hfd] at hbody
      dsimp only
      split
      next =>
        refine hL.call _ _ (finishCall_law hL (exec_law (hL.stmtLaw rt _) fd.body rfl (fun _ h => h)
          fun u hu => ?_))
        refine (hus u (hbody hu)).permits fun g hg => ?_
        exact ih g (hg ▸ hbody hu)
      next => exact L.halt

/-- **A handler obeys every law** that allows the accesses noted for it. -/
theorem runProbe_law {sess : Session} {p : Probe}
    (hus : ∀ u ∈ sess.varuse p.body.uses, PermitsUse L u) (rt : Runtime W) (fuel nesting : Nat) :
    L.Holds (runProbe sess rt fuel nesting p) := by
  obtain ⟨hstart, hclosed⟩ := sess.varuse_spec p.body.uses
  refine L.onOut (exec_law (hL.stmtLaw rt _) p.body rfl (fun _ h => h) fun u hu => ?_) (L.pure _)
  refine (hus u (hstart hu)).permits fun f hf => ?_
  exact callFn_law hL hclosed hus rt fuel nesting f (hf ▸ hstart hu)

end Handler

/-! ## The two laws -/

/-- Put a value into global `k`. -/
def putGlobal (k : Nat) (g : Global) (s : State W) : State W :=
  { s with globals := update s.globals k g }

/-- The run neither notices what is in global `k` nor changes it. -/
def passesOver (k : Nat) (g : Global) : Law Event (State W) := Law.commutes (putGlobal k g)

/-- The run finds `g` in global `k`, leaves it there, and tells of no change. -/
def spares (k : Nat) (g : Global) : Law Event (State W) :=
  Law.maintains (fun s => s.globals k = g) fun e => e.global ≠ some k

/-- What an update off the globals does to them: nothing. -/
theorem globals_of_offGlobals {f : State W → State W}
    (h : ∀ s G, f { s with globals := G } = { f s with globals := G }) (s : State W) :
    (f s).globals = s.globals := by
  have hs := congrArg State.globals (h s s.globals)
  exact hs

theorem passesOver_offGlobals (k : Nat) (g : Global) : OffGlobals (passesOver (W := W) k g) where
  read f hf s := by
    change (⟨.val (f (putGlobal k g s)), putGlobal k g s, []⟩ : Outcome Event (State W) _) = _
    rw [putGlobal, hf]
    rfl
  update f hf s := by
    change (⟨.val (), f (putGlobal k g s), []⟩ : Outcome Event (State W) Unit) = _
    rw [putGlobal, hf]
    simp only [Outcome.over, Run.update, putGlobal, globals_of_offGlobals hf]
  emit _ _ _ := rfl
  call {α m} frame ret hm s := by
    have h := hm { s with frame, ret }
    change (⟨(m (putGlobal k g { s with frame, ret })).flow, _, _⟩ : Outcome Event (State W) α) = _
    simp only [Run.inScope, Outcome.over, putGlobal] at h ⊢
    rw [h]

theorem passesOver_mayWrite {k j : Nat} (g : Global) (h : j ≠ k) :
    MayWrite (passesOver (W := W) k g) j where
  read s := by
    have hj : (putGlobal k g s).globals j = s.globals j := update_of_ne h _ _
    exact congrArg (fun x => (⟨.val x, putGlobal k g s, []⟩ : Outcome Event (State W) Global)) hj
  set x s := by
    simp only [setGlobal, Run.update, Outcome.over, putGlobal, update_comm h]
  emit _ _ _ := rfl

theorem spares_offGlobals (k : Nat) (g : Global) : OffGlobals (spares (W := W) k g) where
  read _ _ _ hs := ⟨hs, nofun⟩
  update f hf s hs := ⟨(congrFun (globals_of_offGlobals hf s) k).trans hs, nofun⟩
  emit e he s hs := by
    refine ⟨hs, fun e' he' => ?_⟩
    obtain rfl := mem_singleton.mp he'
    rw [he]
    nofun
  call frame ret hm s hs := by
    obtain ⟨hstate, hevents⟩ := hm { s with frame, ret } hs
    exact ⟨hstate, fun e he => hevents e (mem_of_mem_filter he)⟩

theorem spares_mayWrite {k j : Nat} (g : Global) (h : j ≠ k) :
    MayWrite (spares (W := W) k g) j where
  read _ hs := ⟨hs, nofun⟩
  set _ _ hs := ⟨(update_of_ne (Ne.symm h) _ _).trans hs, nofun⟩
  emit e he s hs := by
    refine ⟨hs, fun e' he' => ?_⟩
    obtain rfl := mem_singleton.mp he'
    rw [he]
    exact fun hjk => h (Option.some.inj hjk)

/-- Statistics, single or in an array. -/
def Global.isStats : Global → Bool
  | .stat _ | .statArray _ => true
  | .scalar _ | .array _ _ => false

/-- A global that is no statistic is read, and walked over, without a change. -/
theorem spares_mayRead {k : Nat} {g : Global} (hg : g.isStats = false) :
    MayRead (spares (W := W) k g) k where
  read _ hs := ⟨hs, nofun⟩
  walk {c idx limit body} hw hb := by
    refine Law.maintains_read_const (fun s hs => hs) ?_
    have hread : (spares (W := W) k g).Holds (readGlobal k) := fun _ hs => ⟨hs, nofun⟩
    cases g with
    | array d es =>
      exact Law.bind _ (Law.pure _ _) fun _ =>
        walkArray_law ((spares_offGlobals k _).exprLaw c.call) (c := c) hread hw (hb _ _) _
    | scalar v => exact Law.halt _
    | stat | statArray => exact nomatch hg

/-! ## Executions that access a global -/

/-- The globals hold what their declarations say: statistics, or something else. -/
def Kinded (sess : Session) (globals : Nat → Global) : Prop :=
  ∀ k d, sess.globals[k]? = some d → (globals k).isStats = decide (d.type = .stats)

/-- Some execution of the handler writes global `v`. -/
def Writes (sess : Session) (p : Probe) (v : Nat) : Prop :=
  ∃ (W : Type) (rt : Runtime W) (fuel nesting : Nat) (globals : Nat → Global) (world : W),
    Kinded sess globals ∧
      ∃ e ∈ (handle sess rt fuel nesting p globals world).events, e.global = some v

/-- Some execution of the handler reads or writes global `v`: it does not go the
same way, with the value of `v` passed through, when something else is in `v`. -/
def Accesses (sess : Session) (p : Probe) (v : Nat) : Prop :=
  ∃ (W : Type) (rt : Runtime W) (fuel nesting : Nat) (globals : Nat → Global) (world : W)
    (g : Global), handle sess rt fuel nesting p (update globals v g) world ≠
      (handle sess rt fuel nesting p globals world).over (putGlobal v g)

theorem permitsUse_of_not_noted {L : Law Event (State W)} (hL : OffGlobals L) {v : Nat}
    (hother : ∀ j, j ≠ v → MayWrite L j) {us : List Use} (hread : .read (.global v) ∉ us)
    (hwrite : .write (.global v) ∉ us) : ∀ u ∈ us, PermitsUse L u := by
  intro u hu
  cases u with
  | read w =>
    cases w with
    | loc k => trivial
    | global k => exact (hother k fun h => hread (h ▸ hu)).mayRead hL
  | write w =>
    cases w with
    | loc k => trivial
    | global k => exact hother k fun h => hwrite (h ▸ hu)
  | embedded | call => trivial

variable {sess : Session}

/-- **An execution accesses only what is noted.** -/
theorem noted_of_accesses {p : Probe} {v : Nat} (h : Accesses sess p v) :
    .read (.global v) ∈ sess.varuse p.body.uses ∨ .write (.global v) ∈ sess.varuse p.body.uses := by
  obtain ⟨W, rt, fuel, nesting, globals, world, g, hne⟩ := h
  by_contra hc
  rw [not_or] at hc
  have hL := passesOver_offGlobals (W := W) v g
  have hrun := runProbe_law hL (permitsUse_of_not_noted hL
    (fun j hj => passesOver_mayWrite g hj) hc.1 hc.2) rt fuel nesting
  exact hne (hrun (startState sess globals world))

/-- The execution of a write starts with what it is said to spare, and does not. -/
theorem not_spared {p : Probe} {v : Nat} (h : Writes sess p v)
    (hspared : ∀ (W : Type) (globals : Nat → Global), Kinded sess globals →
      ∀ u ∈ sess.varuse p.body.uses, PermitsUse (spares (W := W) v (globals v)) u) : False := by
  obtain ⟨W, rt, fuel, nesting, globals, world, hk, e, he, hev⟩ := h
  have hrun := runProbe_law (spares_offGlobals v (globals v)) (hspared W globals hk) rt fuel nesting
  exact (hrun (startState sess globals world) rfl).2 e he hev

/-- **An execution writes only what is noted at all.** -/
theorem noted_of_writes {p : Probe} {v : Nat} (h : Writes sess p v) :
    .read (.global v) ∈ sess.varuse p.body.uses ∨ .write (.global v) ∈ sess.varuse p.body.uses := by
  by_contra hc
  rw [not_or] at hc
  exact not_spared h fun W globals _ => permitsUse_of_not_noted (spares_offGlobals v _)
    (fun j hj => spares_mayWrite _ hj) hc.1 hc.2

/-- **An execution writes what is no statistic only where a write is noted.** -/
theorem written_of_writes {p : Probe} {v : Nat} {d : Vardecl}
    (hd : sess.globals[v]? = some d) (hstats : d.type ≠ .stats) (h : Writes sess p v) :
    .write (.global v) ∈ sess.varuse p.body.uses := by
  by_contra hc
  refine not_spared h fun W globals hk u hu => ?_
  have hplain : (globals v).isStats = false := (hk v d hd).trans (decide_eq_false hstats)
  cases u with
  | read w =>
    cases w with
    | loc k => trivial
    | global k =>
      by_cases hkv : k = v
      · rw [hkv]
        exact spares_mayRead hplain
      · exact (spares_mayWrite _ hkv).mayRead (spares_offGlobals v _)
  | write w =>
    cases w with
    | loc k => trivial
    | global k => exact spares_mayWrite _ fun hkv => hc (hkv ▸ hu)
  | embedded | call => trivial

end Systemtap.Sem
