import Systemtap.Lib.Steps
import Systemtap.Opt.DeadStmt
import Systemtap.Opt.VoidStmt
import Systemtap.Opt.ConstFold

/-!
# The optimiser loop

`semantic_pass_optimize1` repeats its passes until a whole round leaves
`relaxed_p` alone. The passes make nodes as well as delete them: `a || b;`
becomes a conditional with a negation, a deleted body becomes a null statement,
a conditional without a `then` is turned around with a new `!`.

Every tree has a cost that no rewriting raises and that goes down by at least
one each time `relaxed_p` is set to false. A logical operator costs more than
the conditional and the negation that replace it, a call more than the block of
its arguments, and a null statement as much as the least statement it can stand
for.

Functions and globals are known by number here, so the two passes that take them
out of the session do not renumber: a `Stage` lists the ones that are left.
-/

namespace Systemtap.Opt

open Systemtap.Tree Lib List Nat

/-! ## How often a pass sets `relaxed_p`

Each pass has its own rewriting; what follows counts, along the same walk, the
places where it finds something. -/

section Found

/-- An assignment that `dead_assignment_remover` drops. -/
def dropAt (dead : Expr → Bool) : Expr → List Unit
  | .assignment _ _ l _ => if dead (removeE dead l) then [()] else []
  | _ => []

/-- `dead_assignment_remover` on a body. -/
def drops (dead : Expr → Bool) (b : Stmt) : Nat :=
  (b.gather (dropAt dead) (Expr.gather (dropAt dead)) fun _ => []).length

def isBlock : Option Stmt → Bool
  | some (.block _) => true
  | _ => false

mutual

/-- `dead_stmtexpr_remover`: a statement expression is deleted, or a nested block flattened. -/
def deletions (sess : Session) (vars : Var → Bool) : Stmt → Nat
  | .block ss => deletionsBlock sess vars ss
  | .tryBlock b _ h => deletionsOpt sess vars b + deletionsOpt sess vars h
  | .ifStmt _ t o => deletions sess vars t + deletionsOpt sess vars o
  | .foreachLoop _ _ _ _ b | .foreachHist _ _ _ _ b | .forLoop _ _ _ b => deletions sess vars b
  | .expr e => if sess.sideEffectFreeWrt vars (e.uses .none) then 1 else 0
  | .null | .embeddedcode _ | .returnStmt _ | .deleteStmt _ | .next | .breakStmt
  | .continueStmt => 0

def deletionsOpt (sess : Session) (vars : Var → Bool) : Option Stmt → Nat
  | none => 0
  | some s => deletions sess vars s

def deletionsBlock (sess : Session) (vars : Var → Bool) : List Stmt → Nat
  | [] => 0
  | s :: ss =>
    deletions sess vars s + (isBlock (deadS sess vars s)).toNat + deletionsBlock sess vars ss

end

/-- `void_statement_reducer` breaks this expression up. Its operands are visited after it, and
`relaxed_p` is false by then. -/
def breaksUp (sess : Session) : Expr → Bool
  | .logicalOr _ _ _ | .logicalAnd _ _ _ | .ternary _ _ _ _ | .binary _ _ _ _
  | .comparison _ _ _ _ | .concatenation _ _ _ | .unary _ _ _ | .castOp _ _ _ _
  | .definedOp _ _ => true
  | .functioncall _ f es => !(es.isEmpty || !elidable sess f)
  | .printFormat _ f es => !(f.printToStream || es.isEmpty)
  | .targetSymbol _ _ es => !es.isEmpty
  | .literalString _ _ | .literalNumber _ _ | .crement _ _ _ _ | .arrayIn _ _
  | .assignment _ _ _ _ | .symbol _ | .arrayindex _ _ _ | .histindex _ _ _ _
  | .printHist _ _ _ _ | .statOp _ _ _ => false

mutual

/-- `void_statement_reducer` on a statement. -/
def reductions (sess : Session) : Stmt → Nat
  | .block ss => reductionsBlock sess ss
  | .tryBlock b _ h => reductionsOpt sess b + reductionsOpt sess h
  | .expr e => (breaksUp sess e).toNat
  | .ifStmt _ t o => reductions sess t + reductionsOpt sess o
  | .forLoop _ _ _ b | .foreachLoop _ _ _ _ b | .foreachHist _ _ _ _ b => reductions sess b
  | .embeddedcode _ | .null | .returnStmt _ | .deleteStmt _ | .next | .breakStmt
  | .continueStmt => 0

def reductionsOpt (sess : Session) : Option Stmt → Nat
  | none => 0
  | some s => reductions sess s

def reductionsBlock (sess : Session) : List Stmt → Nat
  | [] => 0
  | s :: ss => reductions sess s + reductionsBlock sess ss

end

/-- `const_folder::visit_binary_expression` collapses the operator. -/
def collapsesBinary (sess : Session) (op : ArithOp) (l r : Folded) : Bool :=
  if r.number = some 0 ∧ (op = .div ∨ op = .mod) then false
  else match l.number, r.number with
  | some _, some _ => true
  | some a, none => if absorbsLeft op a then freeExpr sess r.expr else identityLeft op a
  | none, some b => if absorbsRight op b then freeExpr sess l.expr else identityRight op b
  | none, none => false

/-- `const_folder::visit_logical_or_expr` and `visit_logical_and_expr`: a literal on one side
decides if `decides` holds of it. -/
def collapsesLogical (sess : Session) (decides : I64 → Bool) (l r : Folded) : Bool :=
  match l.number, r.number with
  | some _, some _ => true
  | some a, none => decides a
  | none, some b => decides b && freeExpr sess l.expr
  | none, none => false

/-- `const_folder::visit_comparison` -/
def collapsesComparison (sess : Session) (op : CmpOp) (l r : Folded) : Bool :=
  match l.string, r.string with
  | some _, some _ => true
  | _, _ =>
    match l.number, r.number with
    | some _, some _ => true
    | some a, none => boundaryLeft op a && freeExpr sess r.expr
    | none, some b => boundaryRight op b && freeExpr sess l.expr
    | none, none => false

/-- `const_folder::visit_concatenation` -/
def collapsesConcatenation (l r : Folded) : Bool :=
  match l.string, r.string with
  | some _, some _ => true
  | some v, none => v.isEmpty
  | none, some w => w.isEmpty
  | none, none => false

mutual

/-- `const_folder` on an expression. -/
def collapses (sess : Session) (skip : Bool) : Expr → Nat
  | .literalString _ _ | .literalNumber _ _ | .symbol _ => 0
  | .binary _ op l r => collapses sess skip l + collapses sess skip r +
      (collapsesBinary sess op (foldE sess skip l) (foldE sess skip r)).toNat
  | .logicalOr _ l r => collapses sess skip l + collapses sess skip r +
      (collapsesLogical sess (· ≠ 0) (foldE sess skip l) (foldE sess skip r)).toNat
  | .logicalAnd _ l r => collapses sess skip l + collapses sess skip r +
      (collapsesLogical sess (· = 0) (foldE sess skip l) (foldE sess skip r)).toNat
  | .comparison _ op l r => collapses sess skip l + collapses sess skip r +
      (collapsesComparison sess op (foldE sess skip l) (foldE sess skip r)).toNat
  | .concatenation _ l r => collapses sess skip l + collapses sess skip r +
      (collapsesConcatenation (foldE sess skip l) (foldE sess skip r)).toNat
  | .unary _ _ e => collapses sess skip e + (foldE sess skip e).number.isSome.toNat
  | .ternary _ e l r =>
    match (foldE sess skip e).number with
    -- the arm that is not taken is not visited
    | some n => collapses sess skip e + 1 +
        if n ≠ 0 then collapses sess skip l else collapses sess skip r
    | none => collapses sess skip e + collapses sess skip l + collapses sess skip r
  | .definedOp _ _ => 1
  | .targetSymbol _ tgt es =>
    if skip && tgt.probeContextVar.isEmpty then 1 else collapsesList sess skip es
  | .castOp _ _ e es | .histindex _ _ e es => collapses sess skip e + collapsesList sess skip es
  | .crement _ _ _ e | .arrayIn _ e | .printHist _ _ _ e | .statOp _ _ e => collapses sess skip e
  | .assignment _ _ l r => collapses sess skip l + collapses sess skip r
  | .arrayindex _ _ es | .functioncall _ _ es | .printFormat _ _ es => collapsesList sess skip es

def collapsesList (sess : Session) (skip : Bool) : List Expr → Nat
  | [] => 0
  | e :: es => collapses sess skip e + collapsesList sess skip es

end

def collapsesMaybe (sess : Session) (skip : Bool) : Option Expr → Nat
  | none => 0
  | some e => collapses sess skip e

/-- A `foreach` with this limit is thrown away. -/
def limitsOut (sess : Session) (skip : Bool) (l : Option Expr) : Bool :=
  (limitNumber sess skip l).any fun n => n.sle 0

mutual

/-- `const_folder` on a statement. -/
def collapsesS (sess : Session) (skip : Bool) : Stmt → Nat
  | .block ss => collapsesBlock sess skip ss
  | .tryBlock b _ h => collapsesOpt sess skip b + collapsesOpt sess skip h
  | .embeddedcode _ | .null | .next | .breakStmt | .continueStmt => 0
  | .expr e | .returnStmt e | .deleteStmt e => collapses sess skip e
  | .ifStmt e t o =>
    match (foldE sess skip e).number with
    | none => collapses sess skip e + collapsesS sess skip t + collapsesOpt sess skip o
    | some n => collapses sess skip e + 1 +
        if n ≠ 0 then collapsesS sess skip t else collapsesOpt sess skip o
  | .forLoop i e o b =>
    if (foldE sess skip e).number = some 0 then
      collapses sess skip e + 1 + collapsesMaybe sess skip i
    else collapsesMaybe sess skip i + collapses sess skip e + collapsesMaybe sess skip o +
      collapsesS sess skip b
  | .foreachLoop _ _ _ l b =>
    collapsesMaybe sess skip l + if limitsOut sess skip l then 1 else collapsesS sess skip b
  | .foreachHist _ _ e l b =>
    collapsesMaybe sess skip l +
      if limitsOut sess skip l then 1 else collapses sess skip e + collapsesS sess skip b

def collapsesOpt (sess : Session) (skip : Bool) : Option Stmt → Nat
  | none => 0
  | some s => collapsesS sess skip s

def collapsesBlock (sess : Session) (skip : Bool) : List Stmt → Nat
  | [] => 0
  | s :: ss => collapsesS sess skip s + collapsesBlock sess skip ss

end

end Found

/-! ## The passes and the loop -/

/-- The session between two passes: `functions` and `globals` are the ones that are left in it. -/
structure Stage where
  session : Session
  functions : List FnId
  globals : List Nat

/-- A step on one body: what it becomes and how often `relaxed_p` is set, or a failed assertion. -/
abbrev Step := Session → Owner → Stmt → Option (Stmt × Nat)

/-- A pass under way: the session and how often `relaxed_p` has been set. -/
def stepAt (step : Step) (x : Session × Nat) (o : Owner) : Option (Session × Nat) :=
  match bodyOf x.1 o with
  | some b => (step x.1 o b).map fun r => (setBody x.1 r.1 o, x.2 + r.2)
  | none => some x

namespace Stage

/-- The bodies a pass goes through: those of the probes, then those of the functions that are
left. -/
def owners (st : Stage) : List Owner :=
  (List.range st.session.probes.length).map .probe ++ st.functions.map .function

/-- What probes and their conditions use, with calls followed. -/
def vut (st : Stage) : List Use :=
  st.session.varuse (st.session.probes.flatMap fun p => p.body.uses ++ usesMaybe p.condition)

/-- `semantic_pass_opt1`: functions that nothing calls are taken out. -/
def opt1 (st : Stage) : Stage × Nat :=
  ({ st with functions := st.functions.filter fun f => .call f ∈ st.vut },
    st.functions.countP fun f => .call f ∉ st.vut)

/-- Neither read nor written. -/
def unused (st : Stage) (v : Var) : Bool := decide (.read v ∉ st.vut ∧ .write v ∉ st.vut)

/-- The locals of a probe or a function that stay. -/
def usedLocals (st : Stage) (ks : List Nat) : List Nat := ks.filter fun k => !st.unused (.loc k)

def unusedLocals (st : Stage) (ks : List Nat) : Nat := ks.countP fun k => st.unused (.loc k)

/-- `semantic_pass_opt2`: variables that are neither read nor written are taken out. -/
def opt2 (st : Stage) : Stage × Nat :=
  ({ st with
      session := { st.session with
        probes := st.session.probes.map fun p => { p with locals := st.usedLocals p.locals }
        functions := st.session.functions.mapIdx fun f fd =>
          if f ∈ st.functions then { fd with locals := st.usedLocals fd.locals } else fd }
      globals := st.globals.filter fun k => !st.unused (.global k) },
    (st.session.probes.map fun p => st.unusedLocals p.locals).sum +
      (st.session.functions.mapIdx fun f fd =>
        if f ∈ st.functions then st.unusedLocals fd.locals else 0).sum +
      st.globals.countP fun k => st.unused (.global k))

/-- A pass from body to body. -/
def sweep (st : Stage) (step : Step) : Option (Stage × Nat) :=
  (st.owners.foldlM (stepAt step) (st.session, 0)).map fun r => ({ st with session := r.1 }, r.2)

/-- The session as `dead_assignment_remover` sees it, with the globals that are left. -/
def remaining (st : Stage) : Session :=
  { st.session with globals := st.globals.filterMap fun k => st.session.globals[k]? }

/-- `semantic_pass_opt3` -/
def opt3 (st : Stage) : Option (Stage × Nat) :=
  let vut := probeUses st.session
  let dead := deadLeft st.remaining vut
  st.sweep fun _ _ b => some (removeS dead vut b, drops dead b)

/-- `semantic_pass_opt4` -/
def opt4 (st : Stage) : Option (Stage × Nat) :=
  st.sweep fun sess o b => some (deadBody sess o b, deletions sess (focalVars sess o) b)

/-- `semantic_pass_opt5` -/
def opt5 (st : Stage) : Option (Stage × Nat) :=
  st.sweep fun sess _ b => (reduceBody sess b).map fun b' => (b', reductions sess b)

/-- `semantic_pass_const_fold` -/
def constFold (skip : Bool) (st : Stage) : Option (Stage × Nat) :=
  st.sweep fun sess _ b => some (foldS sess skip b, collapsesS sess skip b)

/-- One pass after another. -/
def andThen (r : Option (Stage × Nat)) (pass : Stage → Option (Stage × Nat)) :
    Option (Stage × Nat) := do
  let (st, n) ← r
  let (st', m) ← pass st
  some (st', n + m)

/-- One round: the passes in turn, and how often they set `relaxed_p`. -/
def round (unoptimized skip : Bool) (st : Stage) : Option (Stage × Nat) :=
  if unoptimized then st.constFold skip
  else
    andThen (andThen (andThen (andThen (andThen (some st.opt1) fun st => some st.opt2) opt3) opt4)
      opt5) (constFold skip)

end Stage

/-- The relaxation loop after some rounds: under way, left with `relaxed_p` still true, or ended
by a failed assertion. -/
inductive Relaxation where
  | running (st : Stage)
  | relaxed (st : Stage)
  | failed

/-- The first `n` rounds of `semantic_pass_optimize1`. -/
def relax (unoptimized skip : Bool) : Nat → Stage → Relaxation
  | 0, st => .running st
  | n + 1, st =>
    match st.round unoptimized skip with
    | none => .failed
    | some (st', 0) => .relaxed st'
    | some (st', _ + 1) => relax unoptimized skip n st'

/-- The session before the loop: nothing has been taken out. -/
def Stage.start (sess : Session) : Stage :=
  ⟨sess, List.range sess.functions.length, List.range sess.globals.length⟩

/-! ## Costs -/

mutual

def costE : Expr → Nat
  | .literalString _ _ | .literalNumber _ _ | .symbol _ => 1
  | .binary _ _ l r | .logicalOr _ l r | .logicalAnd _ l r | .comparison _ _ l r
  | .concatenation _ l r | .assignment _ _ l r => 3 + costE l + costE r
  | .unary _ _ e | .crement _ _ _ e | .arrayIn _ e | .definedOp _ e | .printHist _ _ _ e
  | .statOp _ _ e => 1 + costE e
  | .ternary _ e l r => 3 + costE e + costE l + costE r
  | .targetSymbol _ _ es | .arrayindex _ _ es | .functioncall _ _ es | .printFormat _ _ es =>
    2 + costArgs es
  | .castOp _ _ e es | .histindex _ _ e es => 2 + costE e + costArgs es

/-- Each argument may become a statement of its own. -/
def costArgs : List Expr → Nat
  | [] => 0
  | e :: es => 1 + costE e + costArgs es

end

def costMaybe : Option Expr → Nat
  | none => 0
  | some e => costE e

mutual

def costS : Stmt → Nat
  | .block ss => 1 + costBlock ss
  | .tryBlock b _ h => 1 + costOpt b + costOpt h
  | .embeddedcode _ | .null | .next | .breakStmt | .continueStmt => 1
  | .expr e | .returnStmt e | .deleteStmt e => 1 + costE e
  | .ifStmt e t o => 1 + costE e + costS t + costOpt o
  | .forLoop i e o b => 1 + costMaybe i + costE e + costMaybe o + costS b
  | .foreachLoop _ _ _ l b => 1 + costMaybe l + costS b
  | .foreachHist _ _ e l b => 1 + costE e + costMaybe l + costS b

def costOpt : Option Stmt → Nat
  | none => 0
  | some s => costS s

def costBlock : List Stmt → Nat
  | [] => 0
  | s :: ss => costS s + costBlock ss

end

theorem costE_pos (e : Expr) : 1 ≤ costE e := by
  cases e <;> simp [costE] <;> omega

theorem costS_pos (s : Stmt) : 1 ≤ costS s := by
  cases s <;> simp [costS] <;> omega

theorem costBlock_append : ∀ ss ts : List Stmt,
    costBlock (ss ++ ts) = costBlock ss + costBlock ts
  | [], ts => by simp [costBlock]
  | s :: ss, ts => by
    rw [cons_append, costBlock, costBlock, costBlock_append ss ts]
    omega

/-! ### Dead assignments -/

section Assignments

variable (dead : Expr → Bool)

mutual

theorem costE_removeE (e : Expr) :
    costE (removeE dead e) + (e.gather (dropAt dead)).length ≤ costE e := by
  cases e <;> simp only [removeE, Expr.gather, dropAt, costE, nil_append, length_append]
  case literalString | literalNumber | symbol => exact le_refl _
  case binary _ _ l r | logicalOr _ l r | logicalAnd _ l r | comparison _ _ l r
    | concatenation _ l r =>
    have hl := costE_removeE l
    have hr := costE_removeE r
    omega
  case unary _ _ e | crement _ _ _ e | arrayIn _ e | definedOp _ e | printHist _ _ _ e
    | statOp _ _ e =>
    have he := costE_removeE e
    omega
  case ternary _ e l r =>
    have he := costE_removeE e
    have hl := costE_removeE l
    have hr := costE_removeE r
    omega
  case assignment _ _ l r =>
    have hl := costE_removeE l
    have hr := costE_removeE r
    split
    · rw [length_singleton]
      omega
    · rw [costE, length_nil]
      omega
  case targetSymbol _ _ es | arrayindex _ _ es | functioncall _ _ es | printFormat _ _ es =>
    have hes := costArgs_removeList es
    omega
  case castOp _ _ e es | histindex _ _ e es =>
    have he := costE_removeE e
    have hes := costArgs_removeList es
    omega

theorem costArgs_removeList : ∀ es : List Expr,
    costArgs (removeList dead es) + (gatherList (dropAt dead) es).length ≤ costArgs es
  | [] => le_refl _
  | e :: es => by
    have he := costE_removeE e
    have hes := costArgs_removeList es
    simp only [removeList, gatherList, costArgs, length_append]
    omega

end

theorem costMaybe_removeE (o : Option Expr) :
    costMaybe (o.map (removeE dead)) + (gatherTop (Expr.gather (dropAt dead)) o).length ≤
      costMaybe o := by
  cases o with
  | none => exact le_refl _
  | some e => exact costE_removeE dead e

variable (vut : List Use)

mutual

theorem costS_removeS (s : Stmt) : costS (removeS dead vut s) + drops dead s ≤ costS s := by
  have hlim (l : Option Expr) :
      gatherLimit (dropAt dead) l = gatherTop (Expr.gather (dropAt dead)) l := by
    cases l <;> rfl
  cases s <;> simp only [removeS, drops, Stmt.gather, costS, nil_append, length_append, hlim]
  case block ss =>
    have hss := costBlock_removeBlock ss
    omega
  case tryBlock b v h =>
    have hb := costOpt_removeOpt b
    have hh := costOpt_removeOpt h
    omega
  case embeddedcode | null | next | breakStmt | continueStmt => exact le_refl _
  case expr e | returnStmt e | deleteStmt e =>
    have he := costE_removeE dead e
    omega
  case ifStmt e t o =>
    have he := costE_removeE dead e
    have ht := costS_removeS t
    have ho := costOpt_removeOpt o
    rw [drops] at ht
    omega
  case forLoop i e o b =>
    have hi := costMaybe_removeE dead i
    have he := costE_removeE dead e
    have ho := costMaybe_removeE dead o
    have hb := costS_removeS b
    rw [drops] at hb
    omega
  case foreachLoop idx base sort l b =>
    have hl := costMaybe_removeE dead l
    have hb := costS_removeS b
    rw [drops] at hb
    omega
  case foreachHist idx h e l b =>
    have he := costE_removeE dead e
    have hl := costMaybe_removeE dead l
    have hb := costS_removeS b
    rw [drops] at hb
    omega

theorem costOpt_removeOpt : ∀ o : Option Stmt,
    costOpt (removeOpt dead vut o) +
      (gatherOpt (dropAt dead) (Expr.gather (dropAt dead)) (fun _ => []) o).length ≤ costOpt o
  | none => le_refl _
  | some s => costS_removeS s

theorem costBlock_removeBlock : ∀ ss : List Stmt,
    costBlock (removeBlock dead vut ss) +
      (gatherBlock (dropAt dead) (Expr.gather (dropAt dead)) (fun _ => []) ss).length ≤ costBlock ss
  | [] => le_refl _
  | s :: ss => by
    have hs := costS_removeS s
    have hss := costBlock_removeBlock ss
    simp only [removeBlock, drops, gatherBlock, costBlock, length_append] at hs ⊢
    omega

end

end Assignments

/-! ### Dead statements -/

section Statements

variable (sess : Session) (vars : Var → Bool)

theorem costBlock_flatten (o : Option Stmt) :
    costBlock (flatten o) + (isBlock o).toNat ≤ costOpt o := by
  cases o with
  | none => exact le_refl _
  | some s =>
    cases s with
    | block ss => simp only [flatten, isBlock, costOpt, costS, Bool.toNat_true]; omega
    | _ => exact le_refl _

theorem costS_ofBlock (ss : List Stmt) : costS ((ofBlock ss).getD .null) ≤ 1 + costBlock ss := by
  rcases ss with _ | ⟨s, _ | ⟨t, ss⟩⟩
  · exact le_refl _
  · simp only [ofBlock, Option.getD_some, costBlock]
    omega
  · exact le_refl _

/-- What is deleted counts as the null statement that may have to stand in its place. -/
theorem costOpt_le_getD (o : Option Stmt) : costOpt o ≤ costS (o.getD .null) := by
  cases o with
  | none => exact zero_le _
  | some s => exact le_refl _

mutual

theorem costS_deadS (s : Stmt) :
    costS ((deadS sess vars s).getD .null) + deletions sess vars s ≤ costS s := by
  cases s <;> simp only [deadS, deletions, costS]
  case null | embeddedcode | returnStmt | deleteStmt | next | breakStmt | continueStmt =>
    exact le_refl _
  case block ss =>
    have hss := costBlock_deadBlock ss
    have hof := costS_ofBlock (deadBlock sess vars ss)
    omega
  case tryBlock b v h =>
    have hb := costOpt_deadOpt b
    have hh := costOpt_deadOpt h
    split
    next hn =>
      rw [hn, costOpt] at hb
      rw [Option.getD_none, costS]
      omega
    next b' hn =>
      rw [hn] at hb
      rw [Option.getD_some, costS]
      omega
  case ifStmt e t o =>
    have ht := costS_deadS t
    have ho := costOpt_deadOpt o
    have he := costE_pos e
    split
    next hn hn' =>
      rw [hn, Option.getD_none, costS] at ht
      split
      · rw [Option.getD_none, costS]
        omega
      · rw [Option.getD_some, costS]
        omega
    next o' hn hn' =>
      -- the `!` is paid for by the statement that is gone
      rw [hn, Option.getD_none, costS] at ht
      rw [hn', costOpt] at ho
      rw [Option.getD_some, costS, costE, costOpt]
      omega
    next t' hn =>
      rw [hn, Option.getD_some] at ht
      rw [Option.getD_some, costS]
      omega
  case foreachLoop _ _ _ _ b | foreachHist _ _ _ _ b =>
    have hb := costS_deadS b
    split
    next hn =>
      rw [hn, Option.getD_none, costS] at hb
      rw [Option.getD_none, costS]
      omega
    next b' hn =>
      rw [hn, Option.getD_some] at hb
      rw [Option.getD_some, costS]
      omega
  case forLoop i e o b =>
    have hb := costS_deadS b
    split
    next hn =>
      rw [hn, Option.getD_none, costS] at hb
      split
      · rw [Option.getD_none, costS]
        omega
      · rw [Option.getD_some, costS, costS]
        omega
    next b' hn =>
      rw [hn, Option.getD_some] at hb
      rw [Option.getD_some, costS]
      omega
  case expr e =>
    have he := costE_pos e
    split
    · rw [Option.getD_none, costS]
      omega
    · rw [Option.getD_some, costS]
      omega

theorem costOpt_deadOpt : ∀ o : Option Stmt,
    costOpt (deadOpt sess vars o) + deletionsOpt sess vars o ≤ costOpt o
  | none => le_refl _
  | some s => by
    have hs := costS_deadS s
    have hle := costOpt_le_getD (deadS sess vars s)
    simp only [deadOpt, deletionsOpt, costOpt]
    omega

theorem costBlock_deadBlock : ∀ ss : List Stmt,
    costBlock (deadBlock sess vars ss) + deletionsBlock sess vars ss ≤ costBlock ss
  | [] => le_refl _
  | s :: ss => by
    have hs := costS_deadS s
    have hss := costBlock_deadBlock ss
    have hle := costOpt_le_getD (deadS sess vars s)
    have hflat := costBlock_flatten (deadS sess vars s)
    simp only [deadBlock, deletionsBlock, costBlock, costBlock_append]
    omega

end

end Statements

/-! ### Statements whose value is not used -/

section Values

variable (sess : Session)

mutual

theorem costS_reduceV (e : Expr) :
    costS (reduceV sess e) + (breaksUp sess e).toNat ≤ 1 + costE e := by
  cases e <;> simp only [reduceV, breaksUp, costS, costE, costOpt, costBlock, Bool.toNat_true]
  case literalString | literalNumber | crement | arrayIn | assignment | symbol | arrayindex
    | histindex | printHist | statOp => exact le_refl _
  case logicalOr _ l r | logicalAnd _ l r =>
    have hr := costS_reduceV r
    omega
  case ternary _ _ l r | binary _ _ l r | comparison _ _ l r | concatenation _ l r =>
    have hl := costS_reduceV l
    have hr := costS_reduceV r
    omega
  case unary _ _ e =>
    have he := costS_reduceV e
    omega
  case definedOp _ e =>
    have he := costE_pos e
    omega
  case castOp _ _ e es =>
    have he := costS_reduceV e
    have hes := costBlock_reduceArgs es
    omega
  case functioncall _ _ es | printFormat _ _ es | targetSymbol _ _ es =>
    have hes := costBlock_reduceArgs es
    split
    next h => simp [h, costS, costE]
    next h =>
      simp only [h, costS, Bool.not_false, Bool.toNat_true]
      omega

theorem costBlock_reduceArgs : ∀ es : List Expr,
    costBlock (reduceArgs sess es) ≤ costArgs es
  | [] => le_refl _
  | e :: es => by
    have he := costS_reduceV e
    have hes := costBlock_reduceArgs es
    simp only [reduceArgs, costBlock, costArgs]
    omega

end

mutual

theorem costS_reduceS (s : Stmt) : costS (reduceS sess s) + reductions sess s ≤ costS s := by
  cases s <;> simp only [reduceS, reductions, costS]
  case embeddedcode | null | returnStmt | deleteStmt | next | breakStmt | continueStmt =>
    exact le_refl _
  case block ss =>
    have hss := costBlock_reduceBlock ss
    omega
  case tryBlock b v h =>
    have hb := costOpt_reduceOpt b
    have hh := costOpt_reduceOpt h
    omega
  case expr e => exact costS_reduceV sess e
  case ifStmt e t o =>
    have ht := costS_reduceS t
    have ho := costOpt_reduceOpt o
    omega
  case forLoop _ _ _ b | foreachLoop _ _ _ _ b | foreachHist _ _ _ _ b =>
    have hb := costS_reduceS b
    omega

theorem costOpt_reduceOpt : ∀ o : Option Stmt,
    costOpt (reduceOpt sess o) + reductionsOpt sess o ≤ costOpt o
  | none => le_refl _
  | some s => costS_reduceS s

theorem costBlock_reduceBlock : ∀ ss : List Stmt,
    costBlock (reduceBlock sess ss) + reductionsBlock sess ss ≤ costBlock ss
  | [] => le_refl _
  | s :: ss => by
    have hs := costS_reduceS s
    have hss := costBlock_reduceBlock ss
    simp only [reduceBlock, reductionsBlock, costBlock]
    omega

end

end Values

/-! ### Constants -/

section Constants

variable (sess : Session)

/-- A node that is kept costs what it did; `relaxed_p` stays as it is. -/
theorem costE_keep {e : Expr} {n : Nat} (h : costE e ≤ n) :
    costE (Folded.keep e).expr + false.toNat ≤ n := h

/-- A literal costs less than any operator. -/
theorem costE_lit (v : I64) {n : Nat} (h : 2 ≤ n) :
    costE (Folded.lit v).expr + true.toNat ≤ n := h

/-- An operator that becomes a literal exactly where `p` holds. -/
theorem costE_decided {p : Prop} [Decidable p] {c : Bool} (hc : c = true ↔ p) {v : I64} {e : Expr}
    {n : Nat} (he : costE e ≤ n) (hn : 2 ≤ n) :
    costE (if p then Folded.lit v else Folded.keep e).expr + c.toNat ≤ n := by
  by_cases hp : p
  · rw [if_pos hp, hc.mpr hp]
    exact costE_lit v hn
  · rw [if_neg hp, Bool.eq_false_iff.mpr fun h => hp (hc.mp h)]
    exact costE_keep he

/-- A binary operator with one literal, which absorbs the other side or leaves it alone. -/
theorem costE_oneLiteral {absorbs free identity : Bool} {v : I64} {e : Expr} {other : Folded}
    {n : Nat} (he : costE e ≤ n) (ho : costE other.expr + 1 ≤ n) (hn : 2 ≤ n) :
    costE (if absorbs then if free then Folded.lit v else Folded.keep e
      else if identity then other else Folded.keep e).expr +
      (if absorbs then free else identity).toNat ≤ n := by
  cases absorbs with
  | true =>
    cases free with
    | true => exact costE_lit v hn
    | false => exact costE_keep he
  | false =>
    cases identity with
    | true => exact ho
    | false => exact costE_keep he

theorem costE_foldBinary (t : ExpType) (op : ArithOp) (l r : Folded) :
    costE (foldBinary sess t op l r).expr + (collapsesBinary sess op l r).toNat ≤
      3 + costE l.expr + costE r.expr := by
  unfold foldBinary collapsesBinary
  split
  · exact costE_keep (le_refl _)
  · cases l.number <;> cases r.number
    case none.none => exact costE_keep (le_refl _)
    case some.some => exact costE_lit _ (by omega)
    all_goals exact costE_oneLiteral (le_refl _) (by omega) (by omega)

theorem costE_foldUnary (t : ExpType) (op : UnOp) (e : Folded) :
    costE (foldUnary t op e).expr + e.number.isSome.toNat ≤ 1 + costE e.expr := by
  have he := costE_pos e.expr
  unfold foldUnary
  cases e.number with
  | none => exact costE_keep (le_refl _)
  | some n => exact costE_lit _ (by omega)

theorem costE_foldLogicalOr (t : ExpType) (l r : Folded) :
    costE (foldLogicalOr sess t l r).expr + (collapsesLogical sess (· ≠ 0) l r).toNat ≤
      3 + costE l.expr + costE r.expr := by
  unfold foldLogicalOr collapsesLogical
  cases l.number <;> cases r.number
  case none.none => exact costE_keep (le_refl _)
  case some.some => exact costE_lit _ (by omega)
  all_goals exact costE_decided (by simp) (le_refl _) (by omega)

theorem costE_foldLogicalAnd (t : ExpType) (l r : Folded) :
    costE (foldLogicalAnd sess t l r).expr + (collapsesLogical sess (· = 0) l r).toNat ≤
      3 + costE l.expr + costE r.expr := by
  unfold foldLogicalAnd collapsesLogical
  cases l.number <;> cases r.number
  case none.none => exact costE_keep (le_refl _)
  case some.some => exact costE_lit _ (by omega)
  all_goals exact costE_decided (by simp) (le_refl _) (by omega)

theorem costE_foldComparison (t : ExpType) (op : CmpOp) (l r : Folded) :
    costE (foldComparison sess t op l r).expr + (collapsesComparison sess op l r).toNat ≤
      3 + costE l.expr + costE r.expr := by
  unfold foldComparison collapsesComparison
  rcases hl : l.string with _ | v <;> rcases hr : r.string with _ | w
  case some.some => exact costE_lit _ (by omega)
  all_goals
    cases l.number <;> cases r.number
    case none.none => exact costE_keep (le_refl _)
    case some.some => exact costE_lit _ (by omega)
    all_goals exact costE_decided (by simp) (le_refl _) (by omega)

theorem costE_foldConcatenation (t : ExpType) (l r : Folded) :
    costE (foldConcatenation t l r).expr + (collapsesConcatenation l r).toNat ≤
      3 + costE l.expr + costE r.expr := by
  -- an empty literal leaves the other side
  have hempty : ∀ (c : Bool) (other : Folded), costE other.expr + 1 ≤ 3 + costE l.expr +
      costE r.expr → costE (if c then other else Folded.keep
        (.concatenation t l.expr r.expr)).expr + c.toNat ≤ 3 + costE l.expr + costE r.expr := by
    intro c other ho
    cases c with
    | true => exact ho
    | false => exact costE_keep (le_refl _)
  unfold foldConcatenation collapsesConcatenation
  cases l.string with
  | none =>
    cases r.string with
    | none => exact costE_keep (le_refl _)
    | some w => exact hempty _ _ (by omega)
  | some v =>
    cases r.string with
    | none => exact hempty _ _ (by omega)
    | some w =>
      change 1 + 1 ≤ _
      omega

variable (skip : Bool)

/-- An operator that costs no more than its operands did, and three. -/
theorem costE_operands {l r e l' r' : Expr} {n m k : Nat} (hl : costE l' + n ≤ costE l)
    (hr : costE r' + m ≤ costE r) (h : costE e + k ≤ 3 + costE l' + costE r') :
    costE e + (n + m + k) ≤ 3 + costE l + costE r := by
  omega

mutual

theorem costE_foldE (e : Expr) :
    costE (foldE sess skip e).expr + collapses sess skip e ≤ costE e := by
  cases e <;> simp only [foldE, collapses, Folded.keep, Folded.lit, costE]
  case literalString | literalNumber | symbol => exact le_refl _
  case binary t op l r =>
    exact costE_operands (costE_foldE l) (costE_foldE r) (costE_foldBinary sess t op _ _)
  case logicalOr t l r =>
    exact costE_operands (costE_foldE l) (costE_foldE r) (costE_foldLogicalOr sess t _ _)
  case logicalAnd t l r =>
    exact costE_operands (costE_foldE l) (costE_foldE r) (costE_foldLogicalAnd sess t _ _)
  case comparison t op l r =>
    exact costE_operands (costE_foldE l) (costE_foldE r) (costE_foldComparison sess t op _ _)
  case concatenation t l r =>
    exact costE_operands (costE_foldE l) (costE_foldE r) (costE_foldConcatenation t _ _)
  case unary t op e =>
    have he := costE_foldE e
    have h := costE_foldUnary t op (foldE sess skip e)
    omega
  case ternary t e l r =>
    have he := costE_foldE e
    have hl := costE_foldE l
    have hr := costE_foldE r
    cases (foldE sess skip e).number with
    | none =>
      simp only [costE]
      omega
    | some n =>
      dsimp only
      split <;> omega
  case definedOp _ e =>
    have he := costE_pos e
    omega
  case targetSymbol _ _ es =>
    have hes := costArgs_foldList es
    split
    · simp only [costE]
      omega
    · simp only [costE]
      omega
  case castOp _ _ e es | histindex _ _ e es =>
    have he := costE_foldE e
    have hes := costArgs_foldList es
    omega
  case crement _ _ _ e | arrayIn _ e | printHist _ _ _ e | statOp _ _ e =>
    have he := costE_foldE e
    omega
  case assignment _ _ l r =>
    have hl := costE_foldE l
    have hr := costE_foldE r
    omega
  case arrayindex _ _ es | functioncall _ _ es | printFormat _ _ es =>
    have hes := costArgs_foldList es
    omega

theorem costArgs_foldList : ∀ es : List Expr,
    costArgs (foldList sess skip es) + collapsesList sess skip es ≤ costArgs es
  | [] => le_refl _
  | e :: es => by
    have he := costE_foldE e
    have hes := costArgs_foldList es
    simp only [foldList, collapsesList, costArgs]
    omega

end

theorem costMaybe_foldMaybe (o : Option Expr) :
    costMaybe (foldMaybe sess skip o) + collapsesMaybe sess skip o ≤ costMaybe o := by
  cases o with
  | none => exact le_refl _
  | some e => exact costE_foldE sess skip e

theorem foldS_forLoop (i : Option Expr) (e : Expr) (o : Option Expr) (b : Stmt) :
    foldS sess skip (.forLoop i e o b) =
      if (foldE sess skip e).number = some 0 then
        ((foldMaybe sess skip i).map Stmt.expr).getD .null
      else .forLoop (foldMaybe sess skip i) (foldE sess skip e).expr (foldMaybe sess skip o)
        (foldS sess skip b) := by
  rw [foldS]
  split
  next h => exact (if_pos h).symm
  next h => exact (if_neg h).symm

theorem foldS_foreachLoop (idx : List Symbol) (base : Var) (sort : Option SortOrder)
    (l : Option Expr) (b : Stmt) :
    foldS sess skip (.foreachLoop idx base sort l b) =
      if limitsOut sess skip l then .null
      else .foreachLoop idx base sort (foldMaybe sess skip l) (foldS sess skip b) := by
  rw [foldS, limitsOut]
  cases limitNumber sess skip l <;> rfl

theorem foldS_foreachHist (idx : List Symbol) (h : Hist) (e : Expr) (l : Option Expr) (b : Stmt) :
    foldS sess skip (.foreachHist idx h e l b) =
      if limitsOut sess skip l then .null
      else .foreachHist idx h (foldE sess skip e).expr (foldMaybe sess skip l)
        (foldS sess skip b) := by
  rw [foldS, limitsOut]
  cases limitNumber sess skip l <;> rfl

mutual

theorem costS_foldS (s : Stmt) : costS (foldS sess skip s) + collapsesS sess skip s ≤ costS s := by
  cases s <;> rw [collapsesS, costS]
  case embeddedcode | null | next | breakStmt | continueStmt => exact le_refl _
  case block ss =>
    have hss := costBlock_foldBlock ss
    rw [foldS, costS]
    omega
  case tryBlock b v h =>
    have hb := costOpt_foldOpt b
    have hh := costOpt_foldOpt h
    rw [foldS, costS]
    omega
  case expr e | returnStmt e | deleteStmt e =>
    have he := costE_foldE sess skip e
    rw [foldS, costS]
    omega
  case ifStmt e t o =>
    have he := costE_foldE sess skip e
    have hpos := costE_pos (foldE sess skip e).expr
    have ht := costS_foldS t
    have ho := costOpt_foldOpt o
    have htpos := costS_pos t
    rw [foldS]
    cases (foldE sess skip e).number with
    | none =>
      simp only [costS]
      omega
    | some n =>
      dsimp only
      split
      · omega
      · cases o with
        | none =>
          simp only [foldOpt, Option.getD_none, collapsesOpt, costS, costOpt]
          omega
        | some s =>
          simp only [foldOpt, Option.getD_some, collapsesOpt, costOpt] at ho ⊢
          omega
  case forLoop i e o b =>
    have he := costE_foldE sess skip e
    have hpos := costE_pos (foldE sess skip e).expr
    have hi := costMaybe_foldMaybe sess skip i
    have ho := costMaybe_foldMaybe sess skip o
    have hb := costS_foldS b
    rw [foldS_forLoop]
    split
    · cases i with
      | none =>
        simp only [foldMaybe, Option.map_none, Option.getD_none, collapsesMaybe, costS, costMaybe]
        omega
      | some i =>
        simp only [foldMaybe, Option.map_some, Option.getD_some, collapsesMaybe, costS,
          costMaybe] at hi ⊢
        omega
    · rw [costS]
      omega
  case foreachLoop idx base sort l b =>
    have hl := costMaybe_foldMaybe sess skip l
    have hb := costS_foldS b
    have hpos := costS_pos b
    rw [foldS_foreachLoop]
    split <;> rw [costS] <;> omega
  case foreachHist idx h e l b =>
    have he := costE_foldE sess skip e
    have hl := costMaybe_foldMaybe sess skip l
    have hb := costS_foldS b
    have hpos := costS_pos b
    rw [foldS_foreachHist]
    split <;> rw [costS] <;> omega

theorem costOpt_foldOpt : ∀ o : Option Stmt,
    costOpt (foldOpt sess skip o) + collapsesOpt sess skip o ≤ costOpt o
  | none => le_refl _
  | some s => costS_foldS s

theorem costBlock_foldBlock : ∀ ss : List Stmt,
    costBlock (foldBlock sess skip ss) + collapsesBlock sess skip ss ≤ costBlock ss
  | [] => le_refl _
  | s :: ss => by
    have hs := costS_foldS s
    have hss := costBlock_foldBlock ss
    simp only [foldBlock, collapsesBlock, costBlock]
    omega

end

end Constants

/-! ## Rounds -/

/-- The cost of all bodies, also of those that are out. -/
def bodyCost (sess : Session) : Nat :=
  (sess.probes.map fun p => costS p.body).sum + (sess.functions.map fun fd => costS fd.body).sum

/-- How many locals are declared. -/
def localCount (sess : Session) : Nat :=
  (sess.probes.map fun p => p.locals.length).sum +
    (sess.functions.map fun fd => fd.locals.length).sum

theorem bodyCost_setBody {sess : Session} {o : Owner} {b : Stmt} (hb : bodyOf sess o = some b)
    (b' : Stmt) : bodyCost (setBody sess b' o) + costS b = bodyCost sess + costS b' := by
  cases o with
  | probe i =>
    obtain ⟨p, hp, rfl⟩ := Option.map_eq_some_iff.mp hb
    have h := sum_map_modify (fun p : Probe => costS p.body)
      (f := fun p => { p with body := b' }) hp
    simp only [bodyCost, setBody] at h ⊢
    omega
  | function f =>
    obtain ⟨fd, hfd, rfl⟩ := Option.map_eq_some_iff.mp hb
    have h := sum_map_modify (fun fd : Functiondecl => costS fd.body)
      (f := fun fd => { fd with body := b' }) hfd
    simp only [bodyCost, setBody] at h ⊢
    omega

theorem map_modify_of_eq {α β : Type} (f : α → β) {g : α → α} (h : ∀ x, f (g x) = f x) :
    ∀ (xs : List α) (i : Nat), (xs.modify i g).map f = xs.map f
  | [], i => by simp
  | x :: xs, 0 => by simp [h]
  | x :: xs, i + 1 => by simp [map_modify_of_eq f h xs i]

theorem localCount_setBody (sess : Session) (b : Stmt) (o : Owner) :
    localCount (setBody sess b o) = localCount sess := by
  cases o with
  | probe i =>
    have h := map_modify_of_eq (fun p : Probe => p.locals.length)
      (g := fun p => { p with body := b }) (fun _ => rfl) sess.probes i
    simp only [localCount, setBody, h]
  | function f =>
    have h := map_modify_of_eq (fun fd : Functiondecl => fd.locals.length)
      (g := fun fd => { fd with body := b }) (fun _ => rfl) sess.functions f
    simp only [localCount, setBody, h]

/-- The step pays for every time it sets `relaxed_p`. -/
def Step.Pays (step : Step) : Prop :=
  ∀ sess o b r, step sess o b = some r → costS r.1 + r.2 ≤ costS b

theorem stepAt_pays {step : Step} (hstep : step.Pays) {x y : Session × Nat} {o : Owner}
    (h : stepAt step x o = some y) :
    bodyCost y.1 + y.2 ≤ bodyCost x.1 + x.2 ∧ localCount y.1 = localCount x.1 := by
  unfold stepAt at h
  split at h
  next b hb =>
    obtain ⟨r, hr, rfl⟩ := Option.map_eq_some_iff.mp h
    have hcost := hstep _ _ _ _ hr
    have hset := bodyCost_setBody hb r.1
    exact ⟨by dsimp only; omega, localCount_setBody _ _ _⟩
  next =>
    obtain rfl := Option.some.inj h
    exact ⟨le_refl _, rfl⟩

theorem foldlM_stepAt_pays {step : Step} (hstep : step.Pays) :
    ∀ (os : List Owner) {x y : Session × Nat}, os.foldlM (stepAt step) x = some y →
      bodyCost y.1 + y.2 ≤ bodyCost x.1 + x.2 ∧ localCount y.1 = localCount x.1
  | [], x, y, h => by
    obtain rfl := Option.some.inj h
    exact ⟨le_refl _, rfl⟩
  | o :: os, x, y, h => by
    obtain ⟨z, hz, h⟩ := Option.bind_eq_some_iff.mp h
    have hfirst := stepAt_pays hstep hz
    have hrest := foldlM_stepAt_pays hstep os h
    exact ⟨hrest.1.trans hfirst.1, hrest.2.trans hfirst.2⟩

namespace Stage

/-- What the rounds use up: bodies, declared locals, and the functions and globals that are
left. -/
def cost (st : Stage) : Nat :=
  bodyCost st.session + localCount st.session + st.functions.length + st.globals.length

/-- What a filter lets through and what it stops. -/
theorem length_filter_add_countP {α : Type} {p q : α → Bool} (hq : ∀ x, q x = !p x)
    (xs : List α) : (xs.filter p).length + xs.countP q = xs.length := by
  rw [← countP_eq_length_filter, funext hq, length_eq_countP_add_countP p]
  simp

theorem opt1_pays (st : Stage) : st.opt1.1.cost + st.opt1.2 ≤ st.cost := by
  have h := length_filter_add_countP (p := fun f => decide (.call f ∈ st.vut))
    (q := fun f => decide (.call f ∉ st.vut)) (by simp) st.functions
  simp only [opt1, cost]
  omega

theorem length_usedLocals (st : Stage) (ks : List Nat) :
    (st.usedLocals ks).length + st.unusedLocals ks = ks.length :=
  length_filter_add_countP (by simp) ks

/-- What is taken out of each place in turn is missing in the sum. -/
theorem sum_mapIdx_add {α : Type} {w : α → Nat} :
    ∀ {g : Nat → α → α} {c : Nat → α → Nat} (_ : ∀ i x, w (g i x) + c i x = w x) (xs : List α),
      ((xs.mapIdx g).map w).sum + (xs.mapIdx c).sum = (xs.map w).sum
  | _, _, _, [] => rfl
  | g, c, h, x :: xs => by
    have ih := sum_mapIdx_add (g := fun i => g (i + 1)) (c := fun i => c (i + 1))
      (fun i => h (i + 1)) xs
    have hx := h 0 x
    simp only [mapIdx_cons, map_cons, sum_cons]
    omega

theorem bodyCost_opt2 (st : Stage) : bodyCost st.opt2.1.session = bodyCost st.session := by
  have hfunctions : st.opt2.1.session.functions.map (fun fd => costS fd.body) =
      st.session.functions.map fun fd => costS fd.body := by
    refine ext_getElem (by simp [opt2]) fun f hf _ => ?_
    simp only [opt2, getElem_map, getElem_mapIdx]
    split <;> rfl
  simp only [bodyCost, hfunctions]
  simp only [opt2, map_map]
  rfl

theorem opt2_pays (st : Stage) : st.opt2.1.cost + st.opt2.2 ≤ st.cost := by
  have hglobals := length_filter_add_countP (p := fun k => !st.unused (.global k))
    (q := fun k => st.unused (.global k)) (by simp) st.globals
  have hprobes := sum_map_add (f := fun p : Probe => (st.usedLocals p.locals).length)
    (g := fun p => st.unusedLocals p.locals) (l := st.session.probes)
  have hfunctions := sum_mapIdx_add (w := fun fd : Functiondecl => fd.locals.length)
    (g := fun f fd =>
      if f ∈ st.functions then { fd with locals := st.usedLocals fd.locals } else fd)
    (c := fun f fd => if f ∈ st.functions then st.unusedLocals fd.locals else 0)
    (fun f fd => by
      split
      · exact st.length_usedLocals fd.locals
      · rfl) st.session.functions
  have hbody := st.bodyCost_opt2
  simp only [length_usedLocals] at hprobes
  simp only [cost, localCount, hbody]
  simp only [opt2, map_map, Function.comp_def]
  omega

variable {r : Stage × Nat} {st : Stage}

/-- A pass from body to body pays if its step does. -/
theorem sweep_pays {step : Step} (hstep : step.Pays)
    (h : st.sweep step = some r) : r.1.cost + r.2 ≤ st.cost := by
  obtain ⟨x, hx, rfl⟩ := Option.map_eq_some_iff.mp h
  have hfold := foldlM_stepAt_pays hstep _ hx
  simp only [cost] at hfold ⊢
  omega

theorem opt3_pays (h : st.opt3 = some r) : r.1.cost + r.2 ≤ st.cost := by
  refine sweep_pays (fun sess o b x hx => ?_) h
  obtain rfl := Option.some.inj hx
  exact costS_removeS _ _ b

theorem opt4_pays (h : st.opt4 = some r) : r.1.cost + r.2 ≤ st.cost := by
  refine sweep_pays (fun sess o b x hx => ?_) h
  obtain rfl := Option.some.inj hx
  exact costS_deadS sess (focalVars sess o) b

theorem opt5_pays (h : st.opt5 = some r) : r.1.cost + r.2 ≤ st.cost := by
  refine sweep_pays (fun sess o b x hx => ?_) h
  obtain ⟨b', hb', rfl⟩ := Option.map_eq_some_iff.mp hx
  rw [reduceBody_eq] at hb'
  split at hb'
  · obtain rfl := Option.some.inj hb'
    exact costS_reduceS sess b
  · cases hb'

theorem constFold_pays {skip : Bool}
    (h : st.constFold skip = some r) : r.1.cost + r.2 ≤ st.cost := by
  refine sweep_pays (fun sess o b x hx => ?_) h
  obtain rfl := Option.some.inj hx
  exact costS_foldS sess skip b

/-- Passes in a row pay if each does. -/
theorem andThen_pays {n : Nat} {r0 : Option (Stage × Nat)} {pass : Stage → Option (Stage × Nat)}
    (h0 : ∀ r, r0 = some r → r.1.cost + r.2 ≤ n)
    (hpass : ∀ {st r}, pass st = some r → r.1.cost + r.2 ≤ st.cost) (r : Stage × Nat)
    (h : andThen r0 pass = some r) : r.1.cost + r.2 ≤ n := by
  obtain ⟨x, hx, h⟩ := Option.bind_eq_some_iff.mp h
  obtain ⟨y, hy, h⟩ := Option.bind_eq_some_iff.mp h
  obtain rfl := Option.some.inj h
  have hfirst := h0 x hx
  have hsecond := hpass hy
  dsimp only
  omega

/-- **A round costs at least one for each time it sets `relaxed_p`.** -/
theorem round_pays {unoptimized skip : Bool}
    (h : st.round unoptimized skip = some r) : r.1.cost + r.2 ≤ st.cost := by
  unfold round at h
  split at h
  · exact constFold_pays h
  · refine andThen_pays (andThen_pays (andThen_pays (andThen_pays (andThen_pays ?_ ?_) opt3_pays)
      opt4_pays) opt5_pays) constFold_pays r h
    · intro r hr
      obtain rfl := Option.some.inj hr
      exact opt1_pays st
    · intro st r hr
      obtain rfl := Option.some.inj hr
      exact opt2_pays st

end Stage

/-- The loop is over: it was left, or a pass failed. -/
def Relaxation.Over : Relaxation → Prop
  | .running _ => False
  | .relaxed _ | .failed => True

theorem relax_over (unoptimized skip : Bool) : ∀ (n : Nat) (st : Stage), st.cost < n →
    (relax unoptimized skip n st).Over
  | 0, st, h => absurd h (not_lt_zero _)
  | n + 1, st, h => by
    rw [relax]
    split
    · trivial
    · trivial
    next st' m hr =>
      have hpays := Stage.round_pays hr
      exact relax_over unoptimized skip n st' (by dsimp only at hpays; omega)

/-- **The relaxation loop of `semantic_pass_optimize1` stops**, after at most as many rounds as the
session costs. -/
theorem semanticPassOptimize1_stops (unoptimized skip : Bool) (sess : Session) :
    ∃ n ≤ (Stage.start sess).cost + 1, (relax unoptimized skip n (.start sess)).Over :=
  ⟨_, le_refl _, relax_over unoptimized skip _ _ (lt_succ_self _)⟩

end Systemtap.Opt
