import Systemtap.Tree.VarUse

/-!
# Gathering facts from a tree

`Expr.gather f` lists what `f` says of an expression and of everything under
it, and `Stmt.gather f top` does so for the expressions of a statement, with
`top` for an expression that is a statement by itself, whose value nobody
uses.

`Touch` lists how a local is touched that the use collector does not see as a
read: it is assigned, or its value is taken by `++`, by `--` or by the loop
over the buckets of a histogram. Embedded code can look at every formal of the
function it stands in.
-/

namespace Systemtap.Tree

variable {α : Type}

mutual

/-- What `f` says of an expression and of its parts. -/
def Expr.gather (f : Expr → List α) : Expr → List α
  | .literalString t v => f (.literalString t v)
  | .literalNumber t n => f (.literalNumber t n)
  | .binary t op l r => f (.binary t op l r) ++ (l.gather f ++ r.gather f)
  | .logicalOr t l r => f (.logicalOr t l r) ++ (l.gather f ++ r.gather f)
  | .logicalAnd t l r => f (.logicalAnd t l r) ++ (l.gather f ++ r.gather f)
  | .comparison t op l r => f (.comparison t op l r) ++ (l.gather f ++ r.gather f)
  | .concatenation t l r => f (.concatenation t l r) ++ (l.gather f ++ r.gather f)
  | .unary t op e => f (.unary t op e) ++ e.gather f
  | .crement t post op e => f (.crement t post op e) ++ e.gather f
  | .arrayIn t e => f (.arrayIn t e) ++ e.gather f
  | .ternary t e l r => f (.ternary t e l r) ++ (e.gather f ++ (l.gather f ++ r.gather f))
  | .assignment t op l r => f (.assignment t op l r) ++ (l.gather f ++ r.gather f)
  | .symbol s => f (.symbol s)
  | .targetSymbol t tgt es => f (.targetSymbol t tgt es) ++ gatherList f es
  | .castOp t tgt e es => f (.castOp t tgt e es) ++ (e.gather f ++ gatherList f es)
  | .definedOp t e => f (.definedOp t e) ++ e.gather f
  | .arrayindex t v es => f (.arrayindex t v es) ++ gatherList f es
  | .histindex t h e es => f (.histindex t h e es) ++ (e.gather f ++ gatherList f es)
  | .functioncall t g es => f (.functioncall t g es) ++ gatherList f es
  | .printFormat t g es => f (.printFormat t g es) ++ gatherList f es
  | .printHist t g h e => f (.printHist t g h e) ++ e.gather f
  | .statOp t ct e => f (.statOp t ct e) ++ e.gather f

def gatherList (f : Expr → List α) : List Expr → List α
  | [] => []
  | e :: es => e.gather f ++ gatherList f es

end

def gatherLimit (f : Expr → List α) : Option Expr → List α
  | none => []
  | some e => e.gather f

def gatherTop (top : Expr → List α) : Option Expr → List α
  | none => []
  | some e => top e

mutual

/-- What `f` says of the expressions of a statement, `top` of those that are
statements themselves, and `g` of the statements. -/
def Stmt.gather (f top : Expr → List α) (g : Stmt → List α) : Stmt → List α
  | .block ss => gatherBlock f top g ss
  | .tryBlock b v h => g (.tryBlock b v h) ++ (gatherOpt f top g b ++ gatherOpt f top g h)
  | .embeddedcode code => g (.embeddedcode code)
  | .null => g .null
  | .expr e => top e
  | .ifStmt e t o => e.gather f ++ (t.gather f top g ++ gatherOpt f top g o)
  | .forLoop i e o b =>
    gatherTop top i ++ (e.gather f ++ (gatherTop top o ++ b.gather f top g))
  | .foreachLoop idx base sort l b =>
    g (.foreachLoop idx base sort l b) ++ (gatherLimit f l ++ b.gather f top g)
  | .foreachHist idx h e l b =>
    g (.foreachHist idx h e l b) ++ (e.gather f ++ (gatherLimit f l ++ b.gather f top g))
  | .returnStmt e => e.gather f
  | .deleteStmt e => e.gather f
  | .next => g .next
  | .breakStmt => g .breakStmt
  | .continueStmt => g .continueStmt

def gatherOpt (f top : Expr → List α) (g : Stmt → List α) : Option Stmt → List α
  | none => []
  | some s => s.gather f top g

def gatherBlock (f top : Expr → List α) (g : Stmt → List α) : List Stmt → List α
  | [] => []
  | s :: ss => s.gather f top g ++ gatherBlock f top g ss

end

/-- How a variable is touched. -/
inductive Touch where
  | assigned (v : Var)
  | observed (v : Var)
  | embedded
deriving DecidableEq, Repr

/-- A plain symbol under an assignment, or under `++` and `--`. -/
def touchAt : Expr → List Touch
  | .assignment _ _ (.symbol s) _ => [.assigned s.referent]
  | .crement _ _ _ (.symbol s) => [.observed s.referent]
  | _ => []

/-- `x++;` as a statement of its own lets nobody see what `x` was. -/
def touchTop : Expr → List Touch
  | .crement _ _ _ (.symbol _) => []
  | e => e.gather touchAt

/-- The loop over a histogram compares its bucket variable in every round. -/
def touchStmt : Stmt → List Touch
  | .foreachHist idx _ _ _ _ => idx.map fun s => .observed s.referent
  | .embeddedcode _ => [.embedded]
  | _ => []

def Stmt.touches (s : Stmt) : List Touch := s.gather touchAt touchTop touchStmt

/-- What a function touches. -/
def Functiondecl.touches (fd : Functiondecl) : List Touch :=
  fd.body.touches ++
    if .embedded ∈ fd.body.touches then fd.formalArgs.map fun k => .observed (.loc k) else []

end Systemtap.Tree
