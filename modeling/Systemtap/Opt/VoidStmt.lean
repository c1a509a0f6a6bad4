import Systemtap.Opt.Bodies

/-!
# Statements whose value is not used

`semantic_pass_opt5`: an expression that stands as a statement is broken up
into statements for its operands, `a || b` into a conditional, `f(a, b)` with a
pure `f` into its arguments.

The rewriter hands nodes over on an untyped stack. A visited statement provides
one statement. A visited expression either provides itself, or provides the
statement that replaces it and then a null pointer; `visit_expr_statement`
takes the null pointer as the sign that the statement below it is its
replacement. `visit_defined_op` provides the null pointer and no statement, so
whoever required the statement finds the stack empty and its assertion fails.

The visitor is modelled with its stack (`visitE`, `visitS`, where `none` is a
failed assertion). Where no `@defined` stands for its own sake the stack
discipline holds, and the rewriting is the plain function `reduceS`.
-/

namespace Systemtap.Opt

open Systemtap.Tree Sem Lib List Sim

/-! ## The visitor -/

/-- What is provided: a null pointer, a statement, an expression. -/
inductive Node where
  | null
  | stmt (s : Stmt)
  | expr (e : Expr)

/-- `update_visitor::targets`. -/
abbrev Stack := List Node

/-- `update_visitor::require`: visit, then take what is on top. -/
def require (visit : Stack → Option Stack) (stk : Stack) : Option (Node × Stack) :=
  match visit stk with
  | some (n :: stk') => some (n, stk')
  | _ => none

/-- `require` of a statement, which must not be cleared. -/
def requireStmt (visit : Stack → Option Stack) (stk : Stack) : Option (Stmt × Stack) :=
  match require visit stk with
  | some (.stmt s, stk') => some (s, stk')
  | _ => none

/-- `void_statement_reducer::visit_expr_statement`, with the visit of its value. -/
def visitExprStatement (visit : Stack → Option Stack) (stk : Stack) : Option Stack :=
  match require visit stk with
  | some (.null, stk') => some stk'
  | some (.expr e, stk') => some (.stmt (.expr e) :: stk')
  | _ => none

/-- `semantic_pass_opt5` takes the globals only as subject to side effects. -/
def globalVars : Var → Bool
  | .global _ => true
  | .loc _ => false

/-- The body of the function has no side effect that can be seen. -/
def elidable (sess : Session) (f : FnId) : Bool :=
  sess.sideEffectFreeWrt globalVars (sess.fnUses f)

mutual

/-- `void_statement_reducer` on an expression. -/
def visitE (sess : Session) : Expr → Stack → Option Stack
  | .logicalOr _ l r, stk => do
    let (s, stk) ← requireStmt (visitExprStatement (visitE sess r)) stk
    some (.null :: .stmt (.ifStmt (.unary .unknown .not l) s none) :: stk)
  | .logicalAnd _ l r, stk => do
    let (s, stk) ← requireStmt (visitExprStatement (visitE sess r)) stk
    some (.null :: .stmt (.ifStmt l s none) :: stk)
  | .ternary _ e l r, stk => do
    let (a, stk) ← requireStmt (visitExprStatement (visitE sess l)) stk
    let (b, stk) ← requireStmt (visitExprStatement (visitE sess r)) stk
    some (.null :: .stmt (.ifStmt e a (some b)) :: stk)
  | .binary _ _ l r, stk | .comparison _ _ l r, stk | .concatenation _ l r, stk => do
    let (a, stk) ← requireStmt (visitExprStatement (visitE sess l)) stk
    let (b, stk) ← requireStmt (visitExprStatement (visitE sess r)) stk
    some (.null :: .stmt (.block [a, b]) :: stk)
  | .unary _ _ e, stk => visitE sess e stk
  | .functioncall t f es, stk =>
    if es.isEmpty || !elidable sess f then some (.expr (.functioncall t f es) :: stk)
    else do
      let (ss, stk) ← visitArgs sess es stk
      some (.null :: .stmt (.block ss) :: stk)
  | .printFormat t f es, stk =>
    if f.printToStream || es.isEmpty then some (.expr (.printFormat t f es) :: stk)
    else do
      let (ss, stk) ← visitArgs sess es stk
      some (.null :: .stmt (.block ss) :: stk)
  | .targetSymbol t tgt es, stk =>
    if es.isEmpty then some (.expr (.targetSymbol t tgt es) :: stk)
    else do
      let (ss, stk) ← visitArgs sess es stk
      some (.null :: .stmt (.block ss) :: stk)
  | .castOp _ _ e es, stk => do
    let (a, stk) ← requireStmt (visitExprStatement (visitE sess e)) stk
    let (ss, stk) ← visitArgs sess es stk
    some (.null :: .stmt (.block (a :: ss)) :: stk)
  -- no statement takes its place
  | .definedOp _ _, stk => some (.null :: stk)
  | .literalString t v, stk => some (.expr (.literalString t v) :: stk)
  | .literalNumber t n, stk => some (.expr (.literalNumber t n) :: stk)
  | .crement t post op e, stk => some (.expr (.crement t post op e) :: stk)
  | .arrayIn t e, stk => some (.expr (.arrayIn t e) :: stk)
  | .assignment t op l r, stk => some (.expr (.assignment t op l r) :: stk)
  | .symbol s, stk => some (.expr (.symbol s) :: stk)
  | .arrayindex t v es, stk => some (.expr (.arrayindex t v es) :: stk)
  | .histindex t h e es, stk => some (.expr (.histindex t h e es) :: stk)
  | .printHist t f h e, stk => some (.expr (.printHist t f h e) :: stk)
  | .statOp t ct e, stk => some (.expr (.statOp t ct e) :: stk)

/-- The statements of a block made of expressions. -/
def visitArgs (sess : Session) : List Expr → Stack → Option (List Stmt × Stack)
  | [], stk => some ([], stk)
  | e :: es, stk => do
    let (s, stk) ← requireStmt (visitExprStatement (visitE sess e)) stk
    let (ss, stk) ← visitArgs sess es stk
    some (s :: ss, stk)

end

mutual

/-- `void_statement_reducer` on a statement. The controls of conditionals and
loops are never void. -/
def visitS (sess : Session) : Stmt → Stack → Option Stack
  | .block ss, stk => do
    let (ss, stk) ← visitBlock sess ss stk
    some (.stmt (.block ss) :: stk)
  | .tryBlock b v h, stk => do
    let (b, stk) ← visitOpt sess b stk
    let (h, stk) ← visitOpt sess h stk
    some (.stmt (.tryBlock b v h) :: stk)
  | .expr e, stk => visitExprStatement (visitE sess e) stk
  | .ifStmt e t o, stk => do
    let (t, stk) ← requireStmt (visitS sess t) stk
    let (o, stk) ← visitOpt sess o stk
    some (.stmt (.ifStmt e t o) :: stk)
  | .forLoop i e o b, stk => do
    let (b, stk) ← requireStmt (visitS sess b) stk
    some (.stmt (.forLoop i e o b) :: stk)
  | .foreachLoop idx base sort l b, stk => do
    let (b, stk) ← requireStmt (visitS sess b) stk
    some (.stmt (.foreachLoop idx base sort l b) :: stk)
  | .foreachHist idx h e l b, stk => do
    let (b, stk) ← requireStmt (visitS sess b) stk
    some (.stmt (.foreachHist idx h e l b) :: stk)
  | .embeddedcode code, stk => some (.stmt (.embeddedcode code) :: stk)
  | .null, stk => some (.stmt .null :: stk)
  | .returnStmt e, stk => some (.stmt (.returnStmt e) :: stk)
  | .deleteStmt e, stk => some (.stmt (.deleteStmt e) :: stk)
  | .next, stk => some (.stmt .next :: stk)
  | .breakStmt, stk => some (.stmt .breakStmt :: stk)
  | .continueStmt, stk => some (.stmt .continueStmt :: stk)

def visitOpt (sess : Session) : Option Stmt → Stack → Option (Option Stmt × Stack)
  | none, stk => some (none, stk)
  | some s, stk => do
    let (s, stk) ← requireStmt (visitS sess s) stk
    some (some s, stk)

def visitBlock (sess : Session) : List Stmt → Stack → Option (List Stmt × Stack)
  | [], stk => some ([], stk)
  | s :: ss, stk => do
    let (s, stk) ← requireStmt (visitS sess s) stk
    let (ss, stk) ← visitBlock sess ss stk
    some (s :: ss, stk)

end

/-- `vuv.replace (body)` on an empty stack. -/
def reduceBody (sess : Session) (b : Stmt) : Option Stmt :=
  (requireStmt (visitS sess b) []).map Prod.fst

/-- One step of the pass. -/
def reduceAt (sess : Session) (o : Owner) : Option Session :=
  match bodyOf sess o with
  | some b => (reduceBody sess b).map fun b' => setBody sess b' o
  | none => some sess

/-- `none` is a failed assertion. -/
def semanticPassOpt5 (sess : Session) : Option Session := (owners sess).foldlM reduceAt sess

/-! ## Where the stack discipline holds -/

mutual

/-- No `@defined` is left without a use for its value. -/
def voidOkE (sess : Session) : Expr → Bool
  | .definedOp _ _ => false
  | .logicalOr _ _ r | .logicalAnd _ _ r => voidOkE sess r
  | .binary _ _ l r | .comparison _ _ l r | .concatenation _ l r | .ternary _ _ l r =>
    voidOkE sess l && voidOkE sess r
  | .unary _ _ e => voidOkE sess e
  | .functioncall _ f es => !elidable sess f || voidOkArgs sess es
  | .printFormat _ f es => f.printToStream || voidOkArgs sess es
  | .targetSymbol _ _ es => voidOkArgs sess es
  | .castOp _ _ e es => voidOkE sess e && voidOkArgs sess es
  | .literalString _ _ | .literalNumber _ _ | .crement _ _ _ _ | .arrayIn _ _
  | .assignment _ _ _ _ | .symbol _ | .arrayindex _ _ _ | .histindex _ _ _ _
  | .printHist _ _ _ _ | .statOp _ _ _ => true

def voidOkArgs (sess : Session) : List Expr → Bool
  | [] => true
  | e :: es => voidOkE sess e && voidOkArgs sess es

end

mutual

/-- No statement of this body computes a `@defined` for nothing. -/
def voidOkS (sess : Session) : Stmt → Bool
  | .block ss => voidOkBlock sess ss
  | .tryBlock b _ h => voidOkOpt sess b && voidOkOpt sess h
  | .expr e => voidOkE sess e
  | .ifStmt _ t o => voidOkS sess t && voidOkOpt sess o
  | .forLoop _ _ _ b | .foreachLoop _ _ _ _ b | .foreachHist _ _ _ _ b => voidOkS sess b
  | .embeddedcode _ | .null | .returnStmt _ | .deleteStmt _ | .next | .breakStmt
  | .continueStmt => true

def voidOkOpt (sess : Session) : Option Stmt → Bool
  | none => true
  | some s => voidOkS sess s

def voidOkBlock (sess : Session) : List Stmt → Bool
  | [] => true
  | s :: ss => voidOkS sess s && voidOkBlock sess ss

end

/-! ## The rewriting, without its stack -/

mutual

/-- The statement for an expression whose value is not used. -/
def reduceV (sess : Session) : Expr → Stmt
  | .logicalOr _ l r => .ifStmt (.unary .unknown .not l) (reduceV sess r) none
  | .logicalAnd _ l r => .ifStmt l (reduceV sess r) none
  | .ternary _ e l r => .ifStmt e (reduceV sess l) (some (reduceV sess r))
  | .binary _ _ l r | .comparison _ _ l r | .concatenation _ l r =>
    .block [reduceV sess l, reduceV sess r]
  | .unary _ _ e => reduceV sess e
  | .functioncall t f es =>
    if es.isEmpty || !elidable sess f then .expr (.functioncall t f es)
    else .block (reduceArgs sess es)
  | .printFormat t f es =>
    if f.printToStream || es.isEmpty then .expr (.printFormat t f es)
    else .block (reduceArgs sess es)
  | .targetSymbol t tgt es =>
    if es.isEmpty then .expr (.targetSymbol t tgt es) else .block (reduceArgs sess es)
  | .castOp _ _ e es => .block (reduceV sess e :: reduceArgs sess es)
  | .definedOp _ _ => .null
  | .literalString t v => .expr (.literalString t v)
  | .literalNumber t n => .expr (.literalNumber t n)
  | .crement t post op e => .expr (.crement t post op e)
  | .arrayIn t e => .expr (.arrayIn t e)
  | .assignment t op l r => .expr (.assignment t op l r)
  | .symbol s => .expr (.symbol s)
  | .arrayindex t v es => .expr (.arrayindex t v es)
  | .histindex t h e es => .expr (.histindex t h e es)
  | .printHist t f h e => .expr (.printHist t f h e)
  | .statOp t ct e => .expr (.statOp t ct e)

def reduceArgs (sess : Session) : List Expr → List Stmt
  | [] => []
  | e :: es => reduceV sess e :: reduceArgs sess es

end

mutual

def reduceS (sess : Session) : Stmt → Stmt
  | .block ss => .block (reduceBlock sess ss)
  | .tryBlock b v h => .tryBlock (reduceOpt sess b) v (reduceOpt sess h)
  | .expr e => reduceV sess e
  | .ifStmt e t o => .ifStmt e (reduceS sess t) (reduceOpt sess o)
  | .forLoop i e o b => .forLoop i e o (reduceS sess b)
  | .foreachLoop idx base sort l b => .foreachLoop idx base sort l (reduceS sess b)
  | .foreachHist idx h e l b => .foreachHist idx h e l (reduceS sess b)
  | .embeddedcode code => .embeddedcode code
  | .null => .null
  | .returnStmt e => .returnStmt e
  | .deleteStmt e => .deleteStmt e
  | .next => .next
  | .breakStmt => .breakStmt
  | .continueStmt => .continueStmt

def reduceOpt (sess : Session) : Option Stmt → Option Stmt
  | none => none
  | some s => some (reduceS sess s)

def reduceBlock (sess : Session) : List Stmt → List Stmt
  | [] => []
  | s :: ss => reduceS sess s :: reduceBlock sess ss

end

section Discipline

variable {sess : Session} {α γ δ : Type} {ok ok' : Bool}

/-- Where all is well the visit ends with `r`, whatever is below; where it is not, it fails on an empty stack, where
nothing can be mistaken for the replacement of a `@defined`. -/
structure Gives (visit : Stack → Option γ) (ok : Bool) (r : Stack → γ) : Prop where
  provides : ok = true → ∀ stk, visit stk = some (r stk)
  fails : ok = false → visit [] = none

namespace Gives

variable {visit : Stack → Option Stack} {first : Stack → Option (α × Stack)} {a : α}

theorem pure (r : Stack → γ) : Gives (fun stk => some (r stk)) true r := ⟨fun _ _ => rfl, fun h => absurd h (by simp)⟩

theorem bind {both : Stack → Option δ} {next : α × Stack → Option δ} {r : Stack → δ}
    (hboth : ∀ stk, both stk = first stk >>= next) (hfirst : Gives first ok (a, ·))
    (hnext : Gives (fun stk => next (a, stk)) ok' r) : Gives both (ok && ok') r where
  provides h stk := by
    rw [Bool.and_eq_true] at h
    rw [hboth, hfirst.provides h.1 stk]
    exact hnext.provides h.2 stk
  fails h := by
    rw [hboth]
    cases hok : ok with
    | false =>
      rw [hfirst.fails hok]
      rfl
    | true =>
      rw [hfirst.provides hok]
      exact hnext.fails (by simpa [hok] using h)

/-- What follows cannot fail. -/
theorem last {both : Stack → Option δ} {r : α × Stack → δ}
    (hboth : ∀ stk, both stk = first stk >>= fun p => some (r p)) (hfirst : Gives first ok (a, ·)) :
    Gives both ok fun stk => r (a, stk) :=
  Bool.and_true ok ▸ bind hboth hfirst (pure _)

theorem stmt {s : Stmt} (h : Gives visit ok (.stmt s :: ·)) : Gives (requireStmt visit) ok (s, ·) where
  provides hok stk := by rw [requireStmt, require, h.provides hok]
  fails hok := by rw [requireStmt, require, h.fails hok]

/-- A replacement, announced by the null pointer above it. -/
theorem replaced {s : Stmt} (h : Gives visit ok (.null :: .stmt s :: ·)) :
    Gives (requireStmt (visitExprStatement visit)) ok (s, ·) :=
  stmt {
    provides := fun hok stk => by rw [visitExprStatement, require, h.provides hok]
    fails := fun hok => by rw [visitExprStatement, require, h.fails hok] }

/-- An expression that is kept, or replaced by its arguments. -/
theorem args {keep : Bool} {e : Expr} {es : List Expr}
    (hvisit : ∀ stk, visit stk = if keep then some (.expr e :: stk) else
      visitArgs sess es stk >>= fun p => some (.null :: .stmt (.block p.1) :: p.2))
    (hes : Gives (visitArgs sess es) (voidOkArgs sess es) (reduceArgs sess es, ·))
    (hok : ok = (keep || voidOkArgs sess es)) :
    Gives (requireStmt (visitExprStatement visit)) ok
      (if keep then .expr e else .block (reduceArgs sess es), ·) := by
  subst hok
  cases keep with
  | false => exact replaced (last hvisit hes)
  | true => exact ⟨fun _ stk => by rw [requireStmt, require, visitExprStatement, require, hvisit]; rfl, nofun⟩

end Gives

mutual

/-- **An expression statement leaves one statement**, whatever is below it. -/
theorem gives_visitE : ∀ e : Expr,
    Gives (requireStmt (visitExprStatement (visitE sess e))) (voidOkE sess e) (reduceV sess e, ·)
  | .logicalOr _ _ r | .logicalAnd _ _ r => .replaced (.last (fun _ => rfl) (gives_visitE r))
  | .ternary _ _ l r | .binary _ _ l r | .comparison _ _ l r | .concatenation _ l r =>
    .replaced (.bind (fun _ => rfl) (gives_visitE l) (.last (fun _ => rfl) (gives_visitE r)))
  | .unary _ _ e => gives_visitE e
  | .functioncall _ _ es | .printFormat _ _ es | .targetSymbol _ _ es =>
    .args (fun _ => rfl) (gives_visitArgs es) (by cases es <;> simp [voidOkE, voidOkArgs])
  | .castOp _ _ e es =>
    .replaced (.bind (fun _ => rfl) (gives_visitE e) (.last (fun _ => rfl) (gives_visitArgs es)))
  | .definedOp _ _ => ⟨nofun, fun _ => rfl⟩
  | .literalString _ _ | .literalNumber _ _ | .crement _ _ _ _ | .arrayIn _ _ | .assignment _ _ _ _
  | .symbol _ | .arrayindex _ _ _ | .histindex _ _ _ _ | .printHist _ _ _ _ | .statOp _ _ _ =>
    .pure _

theorem gives_visitArgs : ∀ es : List Expr,
    Gives (visitArgs sess es) (voidOkArgs sess es) (reduceArgs sess es, ·)
  | [] => .pure _
  | e :: es => .bind (fun _ => rfl) (gives_visitE e) (.last (fun _ => rfl) (gives_visitArgs es))

end

mutual

/-- **A statement leaves one statement**, whatever is below it. -/
theorem gives_visitS : ∀ s : Stmt,
    Gives (requireStmt (visitS sess s)) (voidOkS sess s) (reduceS sess s, ·)
  | .block ss => .stmt (.last (fun _ => rfl) (gives_visitBlock ss))
  | .tryBlock b _ h =>
    .stmt (.bind (fun _ => rfl) (gives_visitOpt b) (.last (fun _ => rfl) (gives_visitOpt h)))
  | .expr e => gives_visitE e
  | .ifStmt _ t o =>
    .stmt (.bind (fun _ => rfl) (gives_visitS t) (.last (fun _ => rfl) (gives_visitOpt o)))
  | .forLoop _ _ _ b | .foreachLoop _ _ _ _ b | .foreachHist _ _ _ _ b =>
    .stmt (.last (fun _ => rfl) (gives_visitS b))
  | .embeddedcode _ | .null | .returnStmt _ | .deleteStmt _ | .next | .breakStmt | .continueStmt =>
    .pure _

theorem gives_visitOpt : ∀ o : Option Stmt,
    Gives (visitOpt sess o) (voidOkOpt sess o) (reduceOpt sess o, ·)
  | none => .pure _
  | some s => .last (fun _ => rfl) (gives_visitS s)

theorem gives_visitBlock : ∀ ss : List Stmt,
    Gives (visitBlock sess ss) (voidOkBlock sess ss) (reduceBlock sess ss, ·)
  | [] => .pure _
  | s :: ss => .bind (fun _ => rfl) (gives_visitS s) (.last (fun _ => rfl) (gives_visitBlock ss))

end

theorem visitS_provides {s : Stmt} (h : voidOkS sess s = true) (stk : Stack) :
    visitS sess s stk = some (.stmt (reduceS sess s) :: stk) := by
  have hs := (gives_visitS s).provides h stk
  unfold requireStmt require at hs
  split at hs
  next hv =>
    split at hv
    next hvisit => grind
    next => cases hv
  next => cases hs

theorem reduceBody_eq (b : Stmt) :
    reduceBody sess b = if voidOkS sess b then some (reduceS sess b) else none := by
  unfold reduceBody
  split
  next h => rw [(gives_visitS b).provides h]; rfl
  next h => rw [(gives_visitS b).fails (by simpa using h)]; rfl

end Discipline

/-! ## The effects stay as they were -/

section Effects

variable {W : Type} {sess : Session} {c : Ctx W}
variable {k : Calls W}

/-- Calls of functions that may be elided leave no trace. -/
def ElidableIdle (sess : Session) (c : Ctx W) : Prop :=
  ∀ f, elidable sess f = true → ∀ iter args,
    Idle (offView noLocal) Flow.IsVal (c.call f iter args)

/-- An idle computation, its value unused. -/
theorem idle_norm {α : Type} {m : M W α} (h : Idle (offView noLocal) Flow.IsVal m) :
    Idle (offView noLocal) (· = .val Ctl.norm) (m >>= fun _ => pure Ctl.norm) :=
  h.seq fun _ => Idle.pure rfl

/-- The primitives are idle; no call is made. -/
def primLaw (W : Type) : ExprLaw W (UseQuiet (noLocal · = true) fun _ => False) :=
  (quietView_offView noLocal).exprLaw _

/-- Both operands for themselves. -/
theorem pair_sim {l r : Expr} {s t : Stmt} {f : Value → Value → M W Value}
    (hl : Sim (offView noLocal) (evalVoid c (some l)) (exec (c.withCall k) s))
    (hr : Sim (offView noLocal) (evalVoid c (some r)) (exec (c.withCall k) t))
    (hf : ∀ a b, Idle (offView noLocal) Flow.IsVal (f a b)) :
    Sim (offView noLocal) ((eval c l >>= fun a => eval c r >>= fun b => f a b) >>= fun _ =>
      pure Ctl.norm) (exec (c.withCall k) (.block [s, t])) := by
  simp only [bind_assoc]
  refine void_bind hl fun a => ?_
  change Sim _ _ (execBlock (c.withCall k) [t])
  rw [execBlock_singleton]
  exact void_idle hr fun b => idle_norm (hf a b)

/-- An expression that is kept, or of which only the arguments are computed. -/
theorem args_sim (hk : CallsSame c k) {keep : Bool} {e : Expr} {es : List Expr}
    {f : List Value → M W Value} (he : eval c e = evalArgs c es >>= f)
    (hes : Sim (offView noLocal) (evalArgs c es >>= fun _ => pure Ctl.norm)
      (execBlock (c.withCall k) (reduceArgs sess es)))
    (hf : keep = false → ∀ args, Idle (offView noLocal) Flow.IsVal (f args)) :
    Sim (offView noLocal) (evalVoid c (some e))
      (exec (c.withCall k) (if keep then .expr e else .block (reduceArgs sess es))) := by
  cases keep with
  | true => exact evalVoid_same hk _
  | false =>
    rw [evalVoid, he, bind_assoc]
    exact void_idle hes fun args => idle_norm (hf rfl args)

mutual

/-- An expression whose value is not used has the effects of the statement that
takes its place. -/
theorem reduceV_sim (hk : CallsSame c k) (hi : ElidableIdle sess c) : ∀ e : Expr,
    Sim (offView noLocal) (evalVoid c (some e)) (exec (c.withCall k) (reduceV sess e))
  | .logicalOr _ l r => by
    rw [reduceV, exec_ifNot, evalVoid, eval, bind_assoc]
    refine ((eval_same hk l).bind asLong_sim).bind fun x => ?_
    split
    · rw [pure_bind]
      exact pure _
    · simp only [bind_assoc, pure_bind]
      exact void_idle (reduceV_sim hk hi r) fun v => idle_norm (asLong_idle v)
  | .logicalAnd _ l r => by
    rw [reduceV, exec, evalVoid, eval, bind_assoc]
    refine ((eval_same hk l).bind asLong_sim).bind fun x => ?_
    split
    · simp only [bind_assoc, pure_bind]
      exact void_idle (reduceV_sim hk hi r) fun v => idle_norm (asLong_idle v)
    · rw [pure_bind]
      exact pure _
  | .ternary _ e l r => by
    rw [reduceV, exec, evalVoid, eval, bind_assoc]
    refine ((eval_same hk e).bind asLong_sim).bind fun x => ?_
    split
    · exact reduceV_sim hk hi l
    · exact reduceV_sim hk hi r
  | .binary _ op l r =>
    pair_sim (reduceV_sim hk hi l) (reduceV_sim hk hi r) (binaryOp_law (primLaw W) op)
  | .comparison _ op l r =>
    pair_sim (reduceV_sim hk hi l) (reduceV_sim hk hi r) (comparisonOp_law (primLaw W) op)
  | .concatenation _ l r =>
    pair_sim (reduceV_sim hk hi l) (reduceV_sim hk hi r) (concatenationOp_law (primLaw W))
  | .unary _ op e => by
    rw [reduceV, evalVoid, eval, bind_assoc]
    exact void_idle (reduceV_sim hk hi e) fun a => idle_norm (unaryOp_law (primLaw W) op a)
  | .functioncall _ f es =>
    args_sim hk rfl (reduceArgs_sim hk hi es) fun hc => hi f (by simp_all) _
  | .printFormat _ _ es =>
    args_sim hk rfl (reduceArgs_sim hk hi es) fun hc => printOp_law (primLaw W) c (by simp_all)
  | .targetSymbol _ _ es =>
    args_sim hk rfl (reduceArgs_sim hk hi es) fun _ _ => load_law (primLaw W) c trivial
  | .castOp t tgt e es => by
    rw [reduceV, evalVoid, eval]
    simp only [bind_assoc]
    refine void_bind (reduceV_sim hk hi e) fun v => ?_
    exact void_idle (reduceArgs_sim hk hi es) fun args => idle_norm (load_law (primLaw W) c trivial)
  | .definedOp _ _ => by
    rw [reduceV, evalVoid, eval, pure_bind]
    exact pure _
  | .literalString _ _ | .literalNumber _ _ | .crement _ _ _ _ | .arrayIn _ _
  | .assignment _ _ _ _ | .symbol _ | .arrayindex _ _ _ | .histindex _ _ _ _
  | .printHist _ _ _ _ | .statOp _ _ _ => evalVoid_same hk _

theorem reduceArgs_sim (hk : CallsSame c k) (hi : ElidableIdle sess c) : ∀ es : List Expr,
    Sim (offView noLocal) (evalArgs c es >>= fun _ => pure Ctl.norm)
      (execBlock (c.withCall k) (reduceArgs sess es))
  | [] => by
    rw [evalArgs, pure_bind]
    exact pure _
  | e :: es => by
    rw [evalArgs]
    simp only [bind_assoc, pure_bind]
    exact void_bind (reduceV_sim hk hi e) fun _ => reduceArgs_sim hk hi es

end

mutual

theorem reduceS_sim (s : Stmt) {c : Ctx W} {k : Calls W} (hk : CallsSame c k)
    (hi : ElidableIdle sess c) : Matches noLocal c k exec s (reduceS sess s) := by
  cases s
  case block ss => exact reduceBlock_sim ss hk hi
  case tryBlock b _ h =>
    exact tryBlock_sim (.inl rfl) (reduceOpt_sim b hk hi) (reduceOpt_sim h hk hi)
  case expr e => exact reduceV_sim hk hi e
  case ifStmt e t o =>
    exact ifStmt_sim (eval_same hk e) (reduceS_sim t hk hi) (reduceOpt_sim o hk hi)
  case forLoop i e o b =>
    exact forLoop_sim (evalVoid_same hk i) (eval_same hk e) (evalVoid_same hk o) (reduceS_sim b hk hi)
  case foreachLoop l b =>
    exact foreachLoop_sim (evalLimit_same hk l) fun _ _ => reduceS_sim b hk hi
  case foreachHist e l b =>
    exact foreachHist_sim (place_same hk e) (evalLimit_same hk l) (fun _ _ => avoids_noLocal _)
      (reduceS_sim b hk hi)
  all_goals exact exec_same _ hk

theorem reduceOpt_sim (o : Option Stmt) {c : Ctx W} {k : Calls W} (hk : CallsSame c k)
    (hi : ElidableIdle sess c) : Matches noLocal c k execOpt o (reduceOpt sess o) := by
  cases o with
  | none => exact pure _
  | some s => exact reduceS_sim s hk hi

theorem reduceBlock_sim (ss : List Stmt) {c : Ctx W} {k : Calls W} (hk : CallsSame c k)
    (hi : ElidableIdle sess c) : Matches noLocal c k execBlock ss (reduceBlock sess ss) := by
  cases ss with
  | nil => exact pure _
  | cons s ss => exact execBlock_cons_sim (reduceS_sim s hk hi) (reduceBlock_sim ss hk hi)

end

theorem elidableIdle_callFn {rt : Runtime W} (hrt : PureRuntime W rt)
    (hc : ∃ fuel n, c.call = callFn sess rt fuel n) : ElidableIdle sess c := by
  obtain ⟨fuel, n, hcall⟩ := hc
  intro f hf iter args
  rw [hcall]
  -- `f` itself and everything its body reaches
  refine callFn_idle (R := fun g => g = f ∨ .call g ∈ sess.varuse (sess.fnUses f)) hrt
    (fun g hg u hu => ?_) fuel n (callView_offView noLocal) f (.inl rfl) iter args
  have hmem : u ∈ sess.varuse (sess.fnUses f) := by
    rcases hg with rfl | hg
    · exact (sess.varuse_spec _).1 hu
    · exact (sess.varuse_spec _).2 g hg hu
  have hq := useQuiet_of_sideEffectFreeWrt (fun _ => rfl) hf u hmem
  exact hq.mono (fun _ _ => trivial) fun _ => .inr

end Effects

/-! ## Which statements are visited -/

mutual

/-- The statements the visitor makes and visits for an unused value. -/
def visitedE (sess : Session) : Expr → List Stmt
  | .logicalOr _ l r =>
    .ifStmt (.unary .unknown .not l) (.expr r) none :: .expr r :: visitedE sess r
  | .logicalAnd _ l r => .ifStmt l (.expr r) none :: .expr r :: visitedE sess r
  | .ternary _ e l r => .ifStmt e (.expr l) (some (.expr r)) ::
    (.expr l :: visitedE sess l ++ .expr r :: visitedE sess r)
  | .binary _ _ l r | .comparison _ _ l r | .concatenation _ l r =>
    .block [.expr l, .expr r] :: (.expr l :: visitedE sess l ++ .expr r :: visitedE sess r)
  | .unary _ _ e => visitedE sess e
  | .functioncall _ f es =>
    if es.isEmpty || !elidable sess f then [] else .block (es.map .expr) :: visitedArgs sess es
  | .printFormat _ f es =>
    if f.printToStream || es.isEmpty then [] else .block (es.map .expr) :: visitedArgs sess es
  | .targetSymbol _ _ es =>
    if es.isEmpty then [] else .block (es.map .expr) :: visitedArgs sess es
  | .castOp _ _ e es => .block (.expr e :: es.map .expr) ::
    (.expr e :: visitedE sess e ++ visitedArgs sess es)
  | .definedOp _ _ | .literalString _ _ | .literalNumber _ _ | .crement _ _ _ _ | .arrayIn _ _
  | .assignment _ _ _ _ | .symbol _ | .arrayindex _ _ _ | .histindex _ _ _ _
  | .printHist _ _ _ _ | .statOp _ _ _ => []

def visitedArgs (sess : Session) : List Expr → List Stmt
  | [] => []
  | e :: es => .expr e :: visitedE sess e ++ visitedArgs sess es

end

mutual

/-- A statement and the statements visited below it. -/
def visitedS (sess : Session) : Stmt → List Stmt
  | .block ss => .block ss :: visitedBlock sess ss
  | .tryBlock b v h => .tryBlock b v h :: (visitedOpt sess b ++ visitedOpt sess h)
  | .expr e => .expr e :: visitedE sess e
  | .ifStmt e t o => .ifStmt e t o :: (visitedS sess t ++ visitedOpt sess o)
  | .forLoop i e o b => .forLoop i e o b :: visitedS sess b
  | .foreachLoop idx base sort l b => .foreachLoop idx base sort l b :: visitedS sess b
  | .foreachHist idx h e l b => .foreachHist idx h e l b :: visitedS sess b
  | .embeddedcode code => [.embeddedcode code]
  | .null => [.null]
  | .returnStmt e => [.returnStmt e]
  | .deleteStmt e => [.deleteStmt e]
  | .next => [.next]
  | .breakStmt => [.breakStmt]
  | .continueStmt => [.continueStmt]

def visitedOpt (sess : Session) : Option Stmt → List Stmt
  | none => []
  | some s => visitedS sess s

def visitedBlock (sess : Session) : List Stmt → List Stmt
  | [] => []
  | s :: ss => visitedS sess s ++ visitedBlock sess ss

end

section Visited

variable {sess : Session}

theorem voidOkBlock_map : ∀ es : List Expr, voidOkBlock sess (es.map .expr) = voidOkArgs sess es
  | [] => rfl
  | e :: es => by
    rw [map_cons, voidOkBlock, voidOkArgs, voidOkBlock_map es]
    rfl

theorem visitedIf_ok {ok keep : Bool} {es : List Expr} (hok : ok = (keep || voidOkArgs sess es))
    (h : ok = true) (hes : voidOkArgs sess es = true → ∀ s ∈ visitedArgs sess es, voidOkS sess s = true) :
    ∀ s ∈ if keep then [] else .block (es.map .expr) :: visitedArgs sess es, voidOkS sess s = true := by
  cases keep with
  | true => exact nofun
  | false =>
    have hargs : voidOkArgs sess es = true := hok.symm.trans h
    exact forall_mem_cons.mpr ⟨(voidOkBlock_map es).trans hargs, hes hargs⟩

mutual

theorem visitedE_ok : ∀ {e : Expr}, voidOkE sess e = true →
    ∀ s ∈ visitedE sess e, voidOkS sess s = true
  | .logicalOr _ l r, h | .logicalAnd _ l r, h => by
    simp only [voidOkE] at h
    simp only [visitedE, forall_mem_cons]
    exact ⟨by simp [voidOkS, voidOkOpt, h], h, visitedE_ok h⟩
  | .ternary _ _ l r, h | .binary _ _ l r, h | .comparison _ _ l r, h | .concatenation _ l r, h => by
    simp only [voidOkE, Bool.and_eq_true] at h
    simp only [visitedE, forall_mem_cons, cons_append, forall_mem_append]
    exact ⟨by simp [voidOkS, voidOkOpt, voidOkBlock, h], h.1, visitedE_ok h.1, h.2,
      visitedE_ok h.2⟩
  | .unary _ _ e, h => by
    rw [visitedE]
    exact visitedE_ok h
  | .functioncall _ _ es, h | .printFormat _ _ es, h | .targetSymbol _ _ es, h =>
    visitedIf_ok (by cases es <;> simp [voidOkE, voidOkArgs]) h visitedArgs_ok
  | .castOp _ _ e es, h => by
    simp only [voidOkE, Bool.and_eq_true] at h
    simp only [visitedE, forall_mem_cons, cons_append, forall_mem_append]
    exact ⟨by simp [voidOkS, voidOkBlock, voidOkBlock_map, h], h.1, visitedE_ok h.1,
      visitedArgs_ok h.2⟩
  | .definedOp _ _, h => nomatch h
  | .literalString _ _, _ | .literalNumber _ _, _ | .crement _ _ _ _, _ | .arrayIn _ _, _
  | .assignment _ _ _ _, _ | .symbol _, _ | .arrayindex _ _ _, _ | .histindex _ _ _ _, _
  | .printHist _ _ _ _, _ | .statOp _ _ _, _ => nofun

theorem visitedArgs_ok : ∀ {es : List Expr}, voidOkArgs sess es = true →
    ∀ s ∈ visitedArgs sess es, voidOkS sess s = true
  | [], _ => nofun
  | e :: es, h => by
    simp only [voidOkArgs, Bool.and_eq_true] at h
    simp only [visitedArgs, cons_append, forall_mem_cons, forall_mem_append]
    exact ⟨h.1, visitedE_ok h.1, visitedArgs_ok h.2⟩

end

mutual

theorem visitedS_ok : ∀ {s : Stmt}, voidOkS sess s = true →
    ∀ x ∈ visitedS sess s, voidOkS sess x = true
  | .block ss, h => by
    rw [visitedS]
    exact forall_mem_cons.mpr ⟨h, visitedBlock_ok h⟩
  | .tryBlock b _ hd, h => by
    rw [visitedS]
    refine forall_mem_cons.mpr ⟨h, forall_mem_append.mpr ?_⟩
    simp only [voidOkS, Bool.and_eq_true] at h
    exact ⟨visitedOpt_ok h.1, visitedOpt_ok h.2⟩
  | .expr e, h => by
    rw [visitedS]
    exact forall_mem_cons.mpr ⟨h, visitedE_ok h⟩
  | .ifStmt _ t o, h => by
    rw [visitedS]
    refine forall_mem_cons.mpr ⟨h, forall_mem_append.mpr ?_⟩
    simp only [voidOkS, Bool.and_eq_true] at h
    exact ⟨visitedS_ok h.1, visitedOpt_ok h.2⟩
  | .forLoop _ _ _ b, h | .foreachLoop _ _ _ _ b, h | .foreachHist _ _ _ _ b, h => by
    rw [visitedS]
    exact forall_mem_cons.mpr ⟨h, visitedS_ok (s := b) h⟩
  | .embeddedcode _, h | .null, h | .returnStmt _, h | .deleteStmt _, h | .next, h
  | .breakStmt, h | .continueStmt, h => forall_mem_cons.mpr ⟨h, nofun⟩

theorem visitedOpt_ok : ∀ {o : Option Stmt}, voidOkOpt sess o = true →
    ∀ x ∈ visitedOpt sess o, voidOkS sess x = true
  | none, _ => nofun
  | some _, h => visitedS_ok h

theorem visitedBlock_ok : ∀ {ss : List Stmt}, voidOkBlock sess ss = true →
    ∀ x ∈ visitedBlock sess ss, voidOkS sess x = true
  | [], _ => nofun
  | s :: ss, h => by
    simp only [voidOkBlock, Bool.and_eq_true] at h
    exact forall_mem_append.mpr ⟨visitedS_ok h.1, visitedBlock_ok h.2⟩

end

end Visited

/-! ## The whole pass -/

/-- One step of the pass, where no assertion fails. -/
def reduceStep (sess : Session) (_ : Owner) (b : Stmt) : Stmt := reduceS sess b

/-- The body of this owner computes no `@defined` for nothing. -/
def voidOkAt (sess : Session) (o : Owner) : Bool := ((bodyOf sess o).map (voidOkS sess)).getD true

theorem reduceAt_eq (sess : Session) (o : Owner) :
    reduceAt sess o = if voidOkAt sess o then some (rewriteAt reduceStep sess o) else none := by
  unfold reduceAt voidOkAt rewriteAt
  cases hb : bodyOf sess o with
  | none => rfl
  | some b =>
    simp only [reduceBody_eq, Option.map_some, Option.getD_some]
    split <;> rfl

theorem reduceS_bodySim {W : Type} {rt : Runtime W} (hrt : PureRuntime W rt) (sess : Session)
    (formals : List Nat) (b : Stmt) :
    BodySim sess noLocal (fun _ => True) rt formals b (reduceS sess b) :=
  fun _ _ _ _ hcall hk => reduceS_sim b (fun f => hk f trivial) (elidableIdle_callFn hrt hcall)

theorem rewriteAll_reduceStep (sess : Session) :
    PreservesEffects PureRuntime sess (rewriteAll reduceStep sess) := by
  refine rewriteAll_rel PreservesEffects.refl (fun _ _ _ => PreservesEffects.trans)
    (fun i o _ _ => ?_)
  unfold rewriteAt
  split
  next b hb =>
    exact setBody_keeps hb (fun W rt hrt => reduceS_bodySim hrt _ _ b)
      fun W _ _ => Matches.sameEffects
  next => exact PreservesEffects.refl _

/-- **The pass finishes, every visited statement is replaced by exactly one, and
the effects stay as they were, if and only if no `@defined` is computed for
nothing.** -/
theorem semanticPassOpt5_iff (sess : Session) :
    (∃ sess', semanticPassOpt5 sess = some sess' ∧ PreservesEffects PureRuntime sess sess' ∧
      ∀ i o b, (owners sess)[i]? = some o → bodyOf (beforeStep reduceStep sess i) o = some b →
        ∀ s ∈ visitedS (beforeStep reduceStep sess i) b, ∀ stk,
          ∃ s', visitS (beforeStep reduceStep sess i) s stk = some (.stmt s' :: stk)) ↔
    ∀ i o b, (owners sess)[i]? = some o → bodyOf (beforeStep reduceStep sess i) o = some b →
      voidOkS (beforeStep reduceStep sess i) b = true := by
  have hpass := fun s' => foldlM_eq_some_iff reduceAt_eq (owners sess) sess s'
  constructor
  · rintro ⟨sess', hs, -, -⟩ i o b ho hb
    have hok := ((hpass sess').mp hs).2 i o ho
    change voidOkAt (beforeStep reduceStep sess i) o = true at hok
    simpa [voidOkAt, hb] using hok
  · intro h
    refine ⟨rewriteAll reduceStep sess, (hpass _).mpr ⟨rfl, fun i o ho => ?_⟩,
      rewriteAll_reduceStep sess, fun i o b ho hb s hs stk => ?_⟩
    · change voidOkAt (beforeStep reduceStep sess i) o = true
      unfold voidOkAt
      cases hb : bodyOf (beforeStep reduceStep sess i) o with
      | none => rfl
      | some b => exact h i o b ho hb
    · exact ⟨_, visitS_provides (visitedS_ok (h i o b ho hb) s hs) stk⟩

/-- `probe begin { @defined($x) + g++ }` -/
def definedScript : Session := oneProbe (.expr (.binary .unknown .add
  (.definedOp .unknown (.targetSymbol .unknown ⟨false, [36, 120], [], [], [], []⟩ []))
  (.crement .unknown true .inc symG)))

/-- The assertion of `require` fails. -/
theorem definedScript_fails : semanticPassOpt5 definedScript = none := rfl

end Systemtap.Opt
