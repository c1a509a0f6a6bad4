import Systemtap.Sem.ExprLaw

/-!
# What statements can do

The walk of `ExprLaw` goes on over the statements, for a property of computations that lets them end early as
well (`StmtLaw`). Of a loop over an array that is only noted as read the law itself has to say that it has the
property: the loop makes the aggregate of a statistic, and so it may change what it walks over.
-/

namespace Systemtap.Sem

open Systemtap.Tree Systemtap.Lex Lib List

variable {W : Type}

/-- A property of computations that the statements keep where the uses in `P` are allowed. -/
structure StmtLaw (rt : Runtime W) (P : Use → Prop) extends ExprLaw W P where
  out : ∀ {α : Type}, Holds (Run.out : M W α)
  onOut : ∀ {α : Type} {m h : M W α}, Holds m → Holds h → Holds (Run.onOut m h)
  errors : Holds (readError : M W (Option CStr))
  clears : Holds (clearError : M W Unit)
  returns : ∀ v, Holds (setRet v : M W Unit)
  embeds : ∀ (c : Ctx W) (code : Str), c.rt = rt → (isPure code = false → P .embedded) →
    Holds (embeddedOp c code)
  walks : ∀ {c : Ctx W} {a : Nat} {idx : List Symbol} {limit : Option I64} {body : Ctx W → M W Ctl},
    P (.read (.global a)) → (∀ u ∈ usesIndexes idx, P u) → (∀ iter agg, Holds (body { c with iter, agg })) →
    Holds (foreachOp c idx (.global a) none limit body)

/-! ## Loops -/

section Loops

variable {P : Use → Prop} (E : ExprLaw W P)

theorem forStep_law {cond : M W Value} {incr body : M W Ctl} (hc : E.Holds (cond >>= asLong))
    (hi : E.Holds incr) (hb : E.Holds body) (u : Unit) : E.Holds (forStep cond incr body u) := by
  refine E.bind hc fun x => ?_
  split
  · refine E.bind hb fun r => ?_
    cases r with
    | brk => exact E.pure _
    | norm | cont => exact E.bind hi fun _ => E.pure _
  · exact E.pure _

variable {limit : Option I64} {idx : List Symbol}

theorem foreachStep_law {κ : Type} {key : κ → Option (List Value)} {next : κ → M W κ} {body : M W Ctl}
    (hw : ∀ keys, E.Holds (assignIndexes idx keys : M W Unit)) (hnext : ∀ x, E.Holds (next x))
    (hb : E.Holds body) (st : κ × I64) : E.Holds (foreachStep idx limit key next body st) := by
  unfold foreachStep
  split
  · exact E.pure _
  · split
    · exact E.pure _
    · refine E.bind (hw _) fun _ => E.bind hb fun r => ?_
      cases r with
      | brk => exact E.pure _
      | norm | cont => exact E.bind (hnext st.1) fun _ => E.pure _

theorem ExprLaw.iterate {α β : Type} {step : α → M W (α ⊕ β)} (h : ∀ a, E.Holds (step a)) (n : Nat) :
    ∀ a, E.Holds (Run.iterate step n a) := by
  induction n with
  | zero => exact fun _ => E.halt
  | succ n ih =>
    intro a
    rw [Run.iterate_succ]
    refine E.bind (h a) fun r => ?_
    cases r with
    | inl a' => exact ih a'
    | inr b => exact E.pure b

variable {c : Ctx W}

/-- The walk over an array of values, from the node it stands on. -/
theorem walkArray_law {a : Nat} {body : M W Ctl} (ha : E.Holds (readGlobal a))
    (hw : ∀ keys, E.Holds (assignIndexes idx keys : M W Unit)) (hb : E.Holds body) (st) :
    E.Holds (Run.iterate (foreachStep idx limit id (nextLive a) body) c.fuel st) :=
  E.iterate (foreachStep_law E hw (nextLive_law E ha) hb) _ _

/-- A loop over an array that may be changed, sorted or not. -/
theorem changedForeach_law {a : Nat} (h : P (.write (.global a))) (sort : Option SortOrder)
    {body : Ctx W → M W Ctl} (hw : ∀ keys, E.Holds (assignIndexes idx keys : M W Unit))
    (hb : ∀ iter agg, E.Holds (body { c with iter, agg })) :
    E.Holds (foreachOp c idx (.global a) sort limit body) := by
  refine E.bind (E.reads a (.inr h)) fun g => ?_
  cases g with
  | array d es =>
    refine E.bind ?_ fun _ => walkArray_law E (c := c) (E.reads a (.inr h)) hw (hb _ _) _
    cases sort with
    | none => exact E.pure _
    | some o => exact E.bind (E.tells _ rfl h) fun _ => E.bind (E.sets a _ h) fun _ => E.pure _
  | statArray es =>
    dsimp only
    split
    · exact E.raises _
    · exact E.bind (E.tells _ rfl h) fun _ =>
        E.iterate (foreachStep_law E hw (fun _ => E.pure _) (hb _ _)) _ _
  | scalar | stat => exact E.halt

theorem foreachHistOp_law {agg : Nat × Option (List I64)} {body : M W Ctl}
    (hidx : ∀ u ∈ usesIndexes idx, P u) (hb : E.Holds body) :
    E.Holds (foreachHistOp c idx agg limit body) := by
  unfold foreachHistOp
  split
  next b =>
    have hv : P (.write b.referent) := hidx _ (mem_singleton.mpr rfl)
    have hwrite := writeVar_law E hv
    have hread : E.Holds (readVar b.referent >>= asLong) :=
      E.bind (readVar_law E (.inr hv)) (asLong_law E)
    refine E.bind (hwrite _) fun _ => E.iterate (fun n => ?_) _ _
    refine E.bind hread fun x => ?_
    split
    · split
      · exact E.pure _
      · refine E.bind hb fun r => ?_
        cases r with
        | norm =>
          exact E.bind hread fun y => E.bind (hwrite _) fun _ => E.pure _
        | brk | cont => exact E.pure _
    · exact E.pure _
  next => exact E.halt

end Loops

/-! ## Statements -/

section Exec

variable {rt : Runtime W} {P : Use → Prop} (E : StmtLaw rt P)

theorem tryEnd_law (r : Ctl) : E.Holds (tryEnd r : M W Ctl) := by
  refine E.bind E.errors fun m => ?_
  split
  · exact E.out
  · exact E.pure _

theorem catchOp_law {v : Option Symbol} {h : M W Ctl} (hv : ∀ u ∈ usesIndexes v.toList, P u)
    (hh : E.Holds h) : E.Holds (catchOp v h) := by
  refine E.bind E.errors fun m => E.bind (m := copyError v m) ?_ fun _ => E.bind E.clears fun _ => hh
  cases v with
  | none => exact E.pure _
  | some s =>
    cases m with
    | none => exact E.halt
    | some m => exact writeVar_law E.toExprLaw (hv _ (mem_singleton.mpr rfl)) _

mutual

theorem exec_law (s : Stmt) {c : Ctx W} (hrt : c.rt = rt) (hc : CallsAllowed E.toExprLaw c)
    (hu : ∀ u ∈ s.uses, P u) : E.Holds (exec c s) := by
  have hvoid := evalVoid_law E.toExprLaw hc
  have hlimit := evalLimit_law E.toExprLaw hc
  cases s <;> simp only [Stmt.uses, forall_mem_append] at hu
  case block ss => exact execBlock_law ss hrt hc hu
  case tryBlock b v h =>
    exact E.onOut (E.bind (execOpt_law b hrt hc hu.1.1) (tryEnd_law E))
      (catchOp_law E hu.1.2 (execOpt_law h hrt hc hu.2))
  case embeddedcode code =>
    exact E.bind (E.embeds c code hrt fun h => hu _ (by simp [h])) fun _ => E.pure _
  case null | breakStmt | continueStmt => exact E.pure _
  case expr e => exact hvoid (some e) hu
  case ifStmt e t o =>
    refine E.bind (evalLong_law E.toExprLaw hc hu.1.1) fun x => ?_
    split
    · exact exec_law t hrt hc hu.1.2
    · exact execOpt_law o hrt hc hu.2
  case forLoop i e o b =>
    exact E.bind (hvoid i hu.1.1.1) fun _ => E.iterate
      (forStep_law E.toExprLaw (evalLong_law E.toExprLaw hc hu.1.1.2) (hvoid o hu.1.2)
        (exec_law b hrt hc hu.2)) _ _
  case foreachLoop idx base sort l b =>
    refine E.bind (hlimit l hu.1.2) fun _ => ?_
    cases base with
    | loc k => exact E.halt
    | global a =>
      cases sort with
      | none => exact E.walks (hu.1.1.1.1 _ (mem_singleton.mpr rfl)) hu.1.1.2 fun _ _ => exec_law b hrt hc hu.2
      | some o =>
        exact changedForeach_law E.toExprLaw (hu.1.1.1.2 _ (mem_singleton.mpr rfl)) (some o)
          (assignIndexes_law E.toExprLaw idx · hu.1.1.2) fun _ _ => exec_law b hrt hc hu.2
  case foreachHist idx h e l b =>
    exact place_law E.toExprLaw hc e (m := .none) hu.1.1.1 fun p hp =>
      E.bind (loadAggregate_law E.toExprLaw c hp) fun _ => E.bind (hlimit l hu.1.2) fun _ =>
        foreachHistOp_law E.toExprLaw hu.1.1.2 (exec_law b hrt hc hu.2)
  case returnStmt e =>
    exact E.bind (eval_law E.toExprLaw hc e hu) fun v => E.bind (E.returns v) fun _ => E.out
  case deleteStmt e =>
    exact place_law E.toExprLaw hc e (m := .lrvalue) hu fun p hp =>
      E.bind (deletePlace_law E.toExprLaw c (hp.writable (m := .lrvalue) nofun)) fun _ => E.pure _
  case next => exact E.out

theorem execOpt_law (o : Option Stmt) {c : Ctx W} (hrt : c.rt = rt) (hc : CallsAllowed E.toExprLaw c)
    (hu : ∀ u ∈ usesOpt o, P u) : E.Holds (execOpt c o) := by
  cases o with
  | none => exact E.pure _
  | some s => exact exec_law s hrt hc hu

theorem execBlock_law (ss : List Stmt) {c : Ctx W} (hrt : c.rt = rt) (hc : CallsAllowed E.toExprLaw c)
    (hu : ∀ u ∈ usesBlock ss, P u) : E.Holds (execBlock c ss) := by
  cases ss with
  | nil => exact E.pure _
  | cons s ss =>
    simp only [usesBlock, forall_mem_append] at hu
    refine E.bind (exec_law s hrt hc hu.1) fun r => ?_
    cases r with
    | norm => exact execBlock_law ss hrt hc hu.2
    | brk | cont => exact E.pure _

end

end Exec

end Systemtap.Sem
