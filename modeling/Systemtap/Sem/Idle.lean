import Systemtap.Sem.Handler
import Systemtap.Sem.StmtLaw

/-!
# Code without side effects

What the use collector's verdict "no side effects" means for a run. In a view
`V` that does not show assignments to the locals in `free`, an expression that
writes no other variable, contains no impure code and calls only idle
functions is idle itself: it yields a value and changes nothing that `V`
compares.

A function is idle when everything it reaches writes locals only. Its own
locals are gone when it returns, so inside the call all of them are free
(`callView`). Embedded C that carries the mark of purity is trusted, as the
collector trusts it (`PureRuntime`).
-/

namespace Systemtap.Sem

open Systemtap.Tree Systemtap.Lex Lib List Idle

variable {W α : Type}

/-- Embedded code marked as pure leaves the kernel alone and prints nothing. -/
def PureRuntime (W : Type) (rt : Runtime W) : Prop :=
  ∀ code, isPure code = true → ∀ args w,
    (rt.embedded code args w).world = w ∧ (rt.embedded code args w).printed = none

/-- A view that does not see assignments to the locals in `free`. -/
structure QuietView (V : View Event (State W)) (free : Nat → Prop) : Prop where
  fatal : V.fatal = Event.isError
  write : ∀ k x, free k → Idle V Flow.IsVal (writeVar (.loc k) x)
  reorder : ∀ a u, V.shown (.mutate a .reorder u) = false

/-- A use that leaves no trace outside the locals in `free`. -/
def UseQuiet (free : Nat → Prop) (R : FnId → Prop) : Use → Prop
  | .read _ => True
  | .write (.loc k) => free k
  | .write (.global _) => False
  | .embedded => False
  | .call f => R f

theorem UseQuiet.mono {free free' : Nat → Prop} {R R' : FnId → Prop} (h : ∀ k, free k → free' k)
    (hR : ∀ f, R f → R' f) {u : Use} (hu : UseQuiet free R u) : UseQuiet free' R' u := by
  cases u with
  | write v =>
    cases v with
    | loc k => exact h k hu
    | global k => exact hu
  | call f => exact hR f hu
  | read | embedded => exact hu

/-! ## Expressions -/

section Expressions

variable {V : View Event (State W)} {free : Nat → Prop} {R : FnId → Prop} {c : Ctx W}

theorem raise_idle (hV : V.fatal = Event.isError) {Q : Flow α → Prop} (m : CStr) :
    Idle V Q (raise m) :=
  fun s _ _ ok => absurd ok (not_ok_raise hV m s)

theorem asLong_idle (a : Value) : Idle V Flow.IsVal (asLong a : M W I64) := by
  cases a with
  | long n => exact pure trivial
  | str s => exact halt

theorem readGlobal_idle (k : Nat) : Idle V Flow.IsVal (readGlobal k : M W Global) :=
  read fun _ => trivial

/-- Being idle is a law of expressions whose uses are quiet. -/
def QuietView.exprLaw (hV : QuietView V free) (R : FnId → Prop) : ExprLaw W (UseQuiet free R) where
  Holds := Idle V Flow.IsVal
  pure _ := pure trivial
  halt := halt
  bind := seq
  raises := raise_idle hV.fatal
  locals _ _ := read fun _ => trivial
  looks := read fun _ => trivial
  reads k _ := readGlobal_idle k
  assigns := hV.write
  sets _ _ h := h.elim
  tells _ _ h := h.elim
  prints _ _ h := h.elim
  acts _ h := h.elim

/-- Reading is always quiet. -/
theorem readable_quiet (p : Place) : p.Readable (UseQuiet free R) := by
  cases p with
  | var | elem => exact .inl trivial
  | target => trivial

variable (hV : QuietView V free)
  (hk : ∀ f, R f → ∀ iter args, Idle V Flow.IsVal (c.call f iter args))
include hV hk

theorem eval_idle (e : Expr) (hu : ∀ u ∈ e.uses .none, UseQuiet free R u) :
    Idle V Flow.IsVal (eval c e) :=
  eval_law (hV.exprLaw R) hk e hu

theorem evalLimit_idle (l : Option Expr) (hu : ∀ u ∈ usesMaybe l, UseQuiet free R u) :
    Idle V Flow.IsVal (evalLimit c l) :=
  evalLimit_law (hV.exprLaw R) hk l hu

theorem evalVoid_idle (i : Option Expr) (hu : ∀ u ∈ usesMaybe i, UseQuiet free R u) :
    Idle V (· = .val .norm) (evalVoid c i) := by
  cases i with
  | none => exact pure rfl
  | some e => exact (eval_idle hV hk e hu).seq fun _ => pure rfl

/-- The samples of the aggregate that an expression stands for. -/
theorem aggregate_idle {e : Expr} {m : Mark}
    (hu : ∀ u ∈ e.uses m, UseQuiet free R u) : Idle V Flow.IsVal (place c e >>= loadAggregate c) :=
  (placeValue_law (hV.exprLaw R) hk hu).seq fun p =>
    loadAggregate_law (hV.exprLaw R) c (readable_quiet p)

end Expressions

/-! ## Loops

A loop is idle when its parts are. How it may end (`Q`) is how its body may
end, or normally. -/

section Loops

variable {V : View Event (State W)} {free : Nat → Prop} {R : FnId → Prop} {c : Ctx W}
variable {Q : Flow Ctl → Prop}

theorem forStep_idle {cond : M W Value} {incr body : M W Ctl} (hc : Idle V Flow.IsVal cond)
    (hi : Idle V (· = .val .norm) incr) (hb : Idle V Q body) (hn : Q (.val .norm)) (u : Unit) :
    Idle V (RoundEnds Q) (forStep cond incr body u) := by
  refine (hc.seq asLong_idle).seq fun x => ?_
  split
  · refine hb.bind (fun r hr => ?_) id
    cases r with
    | brk => exact pure hn
    | norm | cont => exact hi.bind (fun _ _ => pure trivial) nofun
  · exact pure hn

variable {limit : Option I64} {idx : List Symbol}

theorem foreachStep_idle {κ : Type} {key : κ → Option (List Value)} {next : κ → M W κ}
    {body : M W Ctl} (hw : ∀ keys, Idle V Flow.IsVal (assignIndexes idx keys : M W Unit))
    (hnext : ∀ x, Idle V Flow.IsVal (next x)) (hb : Idle V Q body) (hn : Q (.val .norm))
    (st : κ × I64) : Idle V (RoundEnds Q) (foreachStep idx limit key next body st) := by
  unfold foreachStep
  split
  · exact pure hn
  · split
    · exact pure hn
    · refine (hw _).seq fun _ => hb.bind (fun r hr => ?_) id
      cases r with
      | brk => exact pure hn
      | norm | cont => exact (hnext st.1).seq fun _ => pure trivial

/-- A loop over an array that is not sorted first. -/
theorem foreachOp_idle (hV : QuietView V free) {base : Var}
    {body : Ctx W → M W Ctl} (hidx : ∀ u ∈ usesIndexes idx, UseQuiet free R u)
    (hb : ∀ iter agg, Idle V Q (body { c with iter, agg })) (hn : Q (.val .norm)) :
    Idle V Q (foreachOp c idx base none limit body) := by
  have hw := fun keys => assignIndexes_law (hV.exprLaw R) idx keys hidx
  cases base with
  | loc j => exact halt
  | global a =>
    refine (readGlobal_idle a).seq fun g => ?_
    cases g with
    | array d es =>
      exact seq (pure trivial) fun es =>
        iterate (foreachStep_idle hw (nextLive_law (hV.exprLaw R) (readGlobal_idle a)) (hb _ _)
          hn) _ _
    | statArray es =>
      dsimp only
      split
      · exact raise_idle hV.fatal _
      · exact seq (emit (fun _ => hV.reorder a _) trivial) fun _ =>
          iterate (foreachStep_idle hw (fun _ => pure trivial) (hb _ _) hn) _ _
    | scalar | stat => exact halt

theorem foreachHistOp_idle (hV : QuietView V free) {agg : Nat × Option (List I64)} {body : M W Ctl}
    (hidx : ∀ u ∈ usesIndexes idx, UseQuiet free R u) (hb : Idle V Q body) (hn : Q (.val .norm)) :
    Idle V Q (foreachHistOp c idx agg limit body) := by
  unfold foreachHistOp
  split
  next b =>
    have hwrite := writeVar_law (hV.exprLaw R) (hidx _ (mem_singleton.mpr rfl))
    have hread : Idle V Flow.IsVal (readVar b.referent >>= asLong) :=
      seq (readVar_law (hV.exprLaw R) (.inl trivial)) asLong_idle
    refine seq (hwrite _) fun _ => iterate (fun n => ?_) _ _
    refine hread.seq fun x => ?_
    split
    · split
      · exact pure hn
      · refine hb.bind (fun r hr => ?_) id
        cases r with
        | norm =>
          exact hread.seq fun y => seq (hwrite _) fun _ => pure trivial
        | brk | cont => exact pure hr
    · exact pure hn
  next => exact halt

end Loops

/-! ## Calls -/

/-- The inside of a call as its caller sees it: only the globals and the kernel
matter. -/
def callView : View Event (State W) where
  rel s t := s.globals = t.globals ∧ s.world = t.world ∧ s.lastError = none
  fatal := Event.isError
  shown e := e.leavesCall && e.shownOff fun _ => false

theorem quietView_callView : QuietView (callView (W := W)) (fun _ => True) where
  fatal := rfl
  write := fun _ _ _ => seq (emit (fun _ => rfl) trivial) fun _ =>
    update (fun _ _ h => h) trivial
  reorder := fun _ _ => rfl

theorem quietView_offView (D : Nat → Bool) : QuietView (offView (W := W) D) (D · = true) where
  fatal := rfl
  write := by
    intro k x hk
    refine seq (emit (fun _ => by simp [offView, Event.shownOff, hk]) trivial) fun _ => ?_
    refine update (fun s t h => ?_) trivial
    refine ⟨h.globals, h.world, fun j hj => ?_, h.ret, h.left, h.right⟩
    have hjk : j ≠ k := fun hjk => by simp [hjk, hk] at hj
    exact (Function.update_of_ne hjk _ _).trans (h.frame j hj)
  reorder := fun _ _ => rfl

/-- Anything may happen. -/
def AnyFlow {α : Type} : Flow α → Prop := fun _ => True

/-- Code that carries the mark of purity. -/
theorem embeddedOp_idle {c : Ctx W} (hpure : PureRuntime W c.rt) {code : Str}
    (h : isPure code = true) : Idle callView Flow.IsVal (embeddedOp c code) := by
  intro s t hr ok
  obtain ⟨hworld, hprinted⟩ := hpure code h (c.formals.map s.frame) s.world
  -- an error would be an event, so there is none
  have heq : embeddedOp c code s = (noteError (c.rt.embedded code (c.formals.map s.frame)
      s.world).error >>= fun _ => leaveEmbedded (c.rt.embedded code (c.formals.map s.frame)
        s.world)) s := by
    unfold embeddedOp noteEmbedded
    simp [Run.bind_apply, Run.read, Run.pure_apply, h, hprinted, notePrinted]
  rw [heq] at ok ⊢
  cases herr : (c.rt.embedded code (c.formals.map s.frame) s.world).error with
  | some m =>
    rw [herr] at ok
    have hfatal : true = false := ok.of_bind.1.2 (.error m) (mem_singleton.mpr rfl)
    cases hfatal
  | none => exact ⟨trivial, ⟨hr.1, hworld.trans hr.2.1, hr.2.2⟩, rfl⟩

section Calls

variable {R : FnId → Prop}

/-- To do nothing that can be seen from outside the call is a law of statements. -/
def idleLaw {rt : Runtime W} (hp : PureRuntime W rt) (R : FnId → Prop) :
    StmtLaw rt (UseQuiet (fun _ => True) R) where
  Holds := Idle callView AnyFlow
  pure _ := pure trivial
  halt := halt
  bind hm hf := hm.bind (fun a _ => hf a) fun _ => trivial
  raises := raise_idle rfl
  locals _ _ := read fun _ => trivial
  looks := read fun _ => trivial
  reads _ _ := read fun _ => trivial
  assigns k x _ := (quietView_callView.write k x trivial).mono fun _ _ => trivial
  sets _ _ h := h.elim
  tells _ _ h := h.elim
  prints _ _ h := h.elim
  acts _ h := h.elim
  out := out trivial
  onOut hm hh := onOut hm (fun _ _ => trivial) fun _ => hh
  errors := read fun _ => trivial
  clears := update (fun _ _ hr => ⟨hr.1, hr.2.1, rfl⟩) trivial
  returns _ := update (fun _ _ h => h) trivial
  embeds c code hrt h := (embeddedOp_idle (hrt ▸ hp) (by simpa [UseQuiet] using h)).mono fun _ _ => trivial
  walks _ hidx hb := foreachOp_idle quietView_callView hidx hb trivial

theorem finishCall_idle {body : M W Ctl} (h : Idle callView AnyFlow body) :
    Idle callView Flow.IsVal (finishCall body) := by
  refine seq (h.onOut (fun _ _ => trivial) fun _ => pure trivial) fun _ => ?_
  exact read_const (fun _ _ hr => hr.2.2) (read fun _ => trivial)

/-- A view from which the inside of a call can be seen as `callView` sees it. -/
structure CallView (V : View Event (State W)) : Prop where
  fatal : V.fatal = Event.isError
  pending : ∀ s t, V.rel s t → s.lastError = none
  leave : ∀ s s' t, V.rel s t → callView.rel s' s →
    V.rel { s' with frame := s.frame, ret := s.ret } t
  shown : ∀ e, e.leavesCall = true → V.shown e = true → callView.shown (σ := State W) e = true

theorem callView_callView : CallView (callView (W := W)) where
  fatal := rfl
  pending := fun _ _ h => h.2.2
  leave := fun _ _ _ h h' => ⟨h'.1.trans h.1, h'.2.1.trans h.2.1, h'.2.2⟩
  shown := fun _ _ h => h

theorem callView_offView (D : Nat → Bool) : CallView (offView (W := W) D) where
  fatal := rfl
  pending := fun _ _ h => h.left
  leave := fun _ _ _ h h' =>
    ⟨h'.1.trans h.globals, h'.2.1.trans h.world, h.frame, h.ret, h'.2.2, h.right⟩
  shown := fun e hk h => by
    simp only [callView, hk, Bool.true_and]
    exact shownOff_of_leavesCall e hk h

/-- **A call is idle** when everything reached from it writes locals only and
contains no impure code. -/
theorem callFn_idle {sess : Session} {rt : Runtime W} (hp : PureRuntime W rt)
    (hR : ∀ f, R f → ∀ u ∈ sess.fnUses f, UseQuiet (fun _ => True) R u) (fuel : Nat) :
    ∀ (n : Nat) {V : View Event (State W)}, CallView V → ∀ f, R f → ∀ iter args,
      Idle V Flow.IsVal (callFn sess rt fuel n f iter args) := by
  intro n
  induction n with
  | zero => exact fun hV f hf iter args => raise_idle hV.fatal _
  | succ n ih =>
    intro V hV f hf iter args
    rw [callFn]
    have hbody := hR f hf
    unfold Session.fnUses at hbody
    cases hfd : sess.functions[f]? with
    | none => exact halt
    | some fd =>
      rw [hfd] at hbody
      dsimp only
      split
      next =>
        have hcalls := fun g hg iter args =>
          (ih callView_callView g hg iter args).mono fun _ _ => trivial
        refine inScope (finishCall_idle (exec_law (idleLaw hp R) fd.body rfl hcalls hbody))
          (fun s t hr => ⟨rfl, rfl, hV.pending s t hr⟩) (fun s s' t hr hr' => hV.leave s s' t hr hr')
          hV.shown (fun e => congrFun hV.fatal.symm e) (fun e he => ?_)
        rw [hV.fatal] at he
        cases e with
        | error m => rfl
        | _ => cases he
      next => exact halt

/-- What "no side effects" means: no write of a global, no impure code, only
calls of functions of which the same is true. -/
theorem useQuiet_of_sideEffectFreeWrt {sess : Session} {vars : Var → Bool} {us : List Use}
    (hvars : ∀ k, vars (.global k) = true) (h : sess.sideEffectFreeWrt vars us = true) :
    ∀ u ∈ sess.varuse us,
      UseQuiet (fun k => vars (.loc k) = false) (fun f => .call f ∈ sess.varuse us) u := by
  intro u hu
  have hall := all_eq_true.mp h u hu
  cases u with
  | write v =>
    cases v with
    | loc k => simpa [UseQuiet] using hall
    | global k => simp [hvars] at hall
  | embedded => exact nomatch hall
  | read => trivial
  | call f => exact hu

theorem sideEffectFreeWrt_of_sideEffectFree {sess : Session} (vars : Var → Bool) {us : List Use}
    (h : sess.sideEffectFree us = true) : sess.sideEffectFreeWrt vars us = true := by
  refine all_eq_true.mpr fun u hu => ?_
  have hall := all_eq_true.mp h u hu
  cases u <;> first | rfl | exact nomatch hall

end Calls

end Systemtap.Sem
