import Systemtap.Opt.Bodies

/-!
# Constant folding

`const_folder`: operators on literals are computed, and some operators are with
one literal operand. The folder knows a literal by pointer: `get_number` takes
an expression for a number only if it is the literal the folder visited last.
`Folded.noted` says so; the literal 0 that stands for a bad context variable is
not noted.

An operand is thrown away only where the use collector finds it free of side
effects. A `foreach` whose limit folds to a number below 1 is thrown away as
well, although it would still have sorted its array, or have set the bucket
variable of its histogram.
-/

namespace Systemtap.Opt

open Systemtap.Tree Sem Lib

/-! ## The folder -/

/-- A folded expression. -/
structure Folded where
  expr : Expr
  noted : Bool

namespace Folded

/-- `const_folder::get_number` -/
def number (r : Folded) : Option I64 :=
  match r.expr, r.noted with
  | .literalNumber _ n, true => some n
  | _, _ => none

/-- `const_folder::get_string` -/
def string (r : Folded) : Option Str :=
  match r.expr, r.noted with
  | .literalString _ v, true => some v
  | _, _ => none

/-- A new literal, which is visited at once. -/
def lit (n : I64) : Folded := ⟨.literalNumber .long n, true⟩

def keep (e : Expr) : Folded := ⟨e, false⟩

end Folded

open Folded

def longMin : I64 := BitVec.intMin 64

def longMax : I64 := BitVec.intMax 64

/-- The operator on two literals. -/
def foldArith (op : ArithOp) (l r : I64) : I64 :=
  match op with
  | .add => l + r
  | .sub => l - r
  | .mul => l * r
  | .band => l &&& r
  | .bor => l ||| r
  | .bxor => l ^^^ r
  | .shr => l.sshiftRight (shiftCount r)
  | .shl => l <<< shiftCount r
  | .div => if l = longMin ∧ r = -1 then longMin else l.sdiv r
  | .mod => if l = longMin ∧ r = -1 then 0 else l.srem r

/-- A literal on the left that fixes the result. -/
def absorbsLeft (op : ArithOp) (n : I64) : Bool :=
  match op with
  | .mul | .band | .shl => n = 0
  | .shr => n = 0 ∨ n = -1
  | .bor => n = -1
  | _ => false

/-- A literal on the right that fixes the result. -/
def absorbsRight (op : ArithOp) (n : I64) : Bool :=
  match op with
  | .mul | .band => n = 0
  | .mod => n = 1 ∨ n = -1
  | .bor => n = -1
  | _ => false

/-- A literal on the left that leaves the right side as it is. -/
def identityLeft (op : ArithOp) (n : I64) : Bool :=
  match op with
  | .add | .bor | .bxor => n = 0
  | .mul => n = 1
  | .band => n = -1
  | _ => false

/-- A literal on the right that leaves the left side as it is. -/
def identityRight (op : ArithOp) (n : I64) : Bool :=
  match op with
  | .add | .sub | .bor | .bxor => n = 0
  | .mul | .div => n = 1
  | .band => n = -1
  | .shl | .shr => n.sle 0
  | _ => false

/-- `varuse_collecting_visitor::side_effect_free` of one expression. -/
def freeExpr (sess : Session) (e : Expr) : Bool := sess.sideEffectFree (e.uses .none)

/-- `const_folder::visit_binary_expression` -/
def foldBinary (sess : Session) (t : ExpType) (op : ArithOp) (l r : Folded) : Folded :=
  if r.number = some 0 ∧ (op = .div ∨ op = .mod) then keep (.binary t op l.expr r.expr)
  else match l.number, r.number with
  | some a, some b => lit (foldArith op a b)
  | some a, none =>
    if absorbsLeft op a then
      if freeExpr sess r.expr then lit a else keep (.binary t op l.expr r.expr)
    else if identityLeft op a then r
    else keep (.binary t op l.expr r.expr)
  | none, some b =>
    if absorbsRight op b then
      if freeExpr sess l.expr then lit (if op = .mod then 0 else b)
      else keep (.binary t op l.expr r.expr)
    else if identityRight op b then l
    else keep (.binary t op l.expr r.expr)
  | none, none => keep (.binary t op l.expr r.expr)

/-- `const_folder::visit_unary_expression` -/
def foldUnary (t : ExpType) (op : UnOp) (e : Folded) : Folded :=
  match e.number with
  | some n => lit (unary op n)
  | none => keep (.unary t op e.expr)

def ofBit (b : Bool) : I64 := if b then 1 else 0

/-- `const_folder::visit_logical_or_expr` -/
def foldLogicalOr (sess : Session) (t : ExpType) (l r : Folded) : Folded :=
  match l.number, r.number with
  | some a, some b => lit (ofBit (a ≠ 0 ∨ b ≠ 0))
  | some a, none => if a ≠ 0 then lit 1 else keep (.logicalOr t l.expr r.expr)
  | none, some b =>
    if b ≠ 0 ∧ freeExpr sess l.expr then lit 1 else keep (.logicalOr t l.expr r.expr)
  | none, none => keep (.logicalOr t l.expr r.expr)

/-- `const_folder::visit_logical_and_expr` -/
def foldLogicalAnd (sess : Session) (t : ExpType) (l r : Folded) : Folded :=
  match l.number, r.number with
  | some a, some b => lit (ofBit (a ≠ 0 ∧ b ≠ 0))
  | some a, none => if a = 0 then lit 0 else keep (.logicalAnd t l.expr r.expr)
  | none, some b =>
    if b = 0 ∧ freeExpr sess l.expr then lit 0 else keep (.logicalAnd t l.expr r.expr)
  | none, none => keep (.logicalAnd t l.expr r.expr)

/-- `std::string::compare` -/
def compareStr : Str → Str → Ordering
  | [], [] => .eq
  | [], _ :: _ => .lt
  | _ :: _, [] => .gt
  | a :: as, b :: bs => if a < b then .lt else if b < a then .gt else compareStr as bs

/-- A limit of `int64_t` on the left decides the comparison. -/
def boundaryLeft (op : CmpOp) (n : I64) : Bool :=
  match op with
  | .le | .gt => n = longMin
  | .ge | .lt => n = longMax
  | _ => false

/-- A limit of `int64_t` on the right decides the comparison. -/
def boundaryRight (op : CmpOp) (n : I64) : Bool :=
  match op with
  | .ge | .lt => n = longMin
  | .le | .gt => n = longMax
  | _ => false

/-- The operator is written with two characters. -/
def twoChars : CmpOp → Bool
  | .lt | .gt => false
  | _ => true

/-- `const_folder::visit_comparison` -/
def foldComparison (sess : Session) (t : ExpType) (op : CmpOp) (l r : Folded) : Folded :=
  match l.string, r.string with
  | some v, some w => lit (ofBit (Lex.holds op (compareStr v w)))
  | _, _ =>
    match l.number, r.number with
    | some a, some b => lit (ofBit (Lex.holds op (compareLong a b)))
    | some a, none =>
      if boundaryLeft op a ∧ freeExpr sess r.expr then lit (ofBit (twoChars op))
      else keep (.comparison t op l.expr r.expr)
    | none, some b =>
      if boundaryRight op b ∧ freeExpr sess l.expr then lit (ofBit (twoChars op))
      else keep (.comparison t op l.expr r.expr)
    | none, none => keep (.comparison t op l.expr r.expr)

/-- `const_folder::visit_concatenation` -/
def foldConcatenation (t : ExpType) (l r : Folded) : Folded :=
  match l.string, r.string with
  | some v, some w => ⟨.literalString .string (v ++ w), true⟩
  | some v, none => if v.isEmpty then r else keep (.concatenation t l.expr r.expr)
  | none, some w => if w.isEmpty then l else keep (.concatenation t l.expr r.expr)
  | none, none => keep (.concatenation t l.expr r.expr)

mutual

/-- `const_folder` on an expression; `skip` is `skip_badvars`. -/
def foldE (sess : Session) (skip : Bool) : Expr → Folded
  | .literalString t v => ⟨.literalString t v, true⟩
  | .literalNumber t n => ⟨.literalNumber t n, true⟩
  | .binary t op l r => foldBinary sess t op (foldE sess skip l) (foldE sess skip r)
  | .logicalOr t l r => foldLogicalOr sess t (foldE sess skip l) (foldE sess skip r)
  | .logicalAnd t l r => foldLogicalAnd sess t (foldE sess skip l) (foldE sess skip r)
  | .comparison t op l r => foldComparison sess t op (foldE sess skip l) (foldE sess skip r)
  | .concatenation t l r => foldConcatenation t (foldE sess skip l) (foldE sess skip r)
  | .unary t op e => foldUnary t op (foldE sess skip e)
  | .ternary t e l r =>
    match (foldE sess skip e).number with
    | some n => if n ≠ 0 then foldE sess skip l else foldE sess skip r
    | none => keep (.ternary t (foldE sess skip e).expr (foldE sess skip l).expr
        (foldE sess skip r).expr)
  -- if it makes it this far, it is undefined
  | .definedOp _ _ => lit 0
  | .targetSymbol t tgt es =>
    if skip && tgt.probeContextVar.isEmpty then keep (.literalNumber .long 0)
    else keep (.targetSymbol t tgt (foldList sess skip es))
  | .castOp t tgt e es => keep (.castOp t tgt (foldE sess skip e).expr (foldList sess skip es))
  | .crement t post op e => keep (.crement t post op (foldE sess skip e).expr)
  | .arrayIn t e => keep (.arrayIn t (foldE sess skip e).expr)
  | .assignment t op l r =>
    keep (.assignment t op (foldE sess skip l).expr (foldE sess skip r).expr)
  | .symbol s => keep (.symbol s)
  | .arrayindex t base es => keep (.arrayindex t base (foldList sess skip es))
  | .histindex t h e es => keep (.histindex t h (foldE sess skip e).expr (foldList sess skip es))
  | .functioncall t f es => keep (.functioncall t f (foldList sess skip es))
  | .printFormat t f es => keep (.printFormat t f (foldList sess skip es))
  | .printHist t f h e => keep (.printHist t f h (foldE sess skip e).expr)
  | .statOp t ct e => keep (.statOp t ct (foldE sess skip e).expr)

def foldList (sess : Session) (skip : Bool) : List Expr → List Expr
  | [] => []
  | e :: es => (foldE sess skip e).expr :: foldList sess skip es

end

/-- An expression that may be missing. -/
def foldMaybe (sess : Session) (skip : Bool) (o : Option Expr) : Option Expr :=
  o.map fun e => (foldE sess skip e).expr

/-- The number a limit folds to. -/
def limitNumber (sess : Session) (skip : Bool) (l : Option Expr) : Option I64 :=
  l.bind fun e => (foldE sess skip e).number

mutual

/-- `const_folder` on a statement. -/
def foldS (sess : Session) (skip : Bool) : Stmt → Stmt
  | .block ss => .block (foldBlock sess skip ss)
  | .tryBlock b v h => .tryBlock (foldOpt sess skip b) v (foldOpt sess skip h)
  | .embeddedcode code => .embeddedcode code
  | .null => .null
  | .expr e => .expr (foldE sess skip e).expr
  | .ifStmt e t o =>
    match (foldE sess skip e).number with
    | none => .ifStmt (foldE sess skip e).expr (foldS sess skip t) (foldOpt sess skip o)
    | some n => if n ≠ 0 then foldS sess skip t else (foldOpt sess skip o).getD .null
  | .forLoop i e o b =>
    match (foldE sess skip e).number with
    | some 0 => ((foldMaybe sess skip i).map Stmt.expr).getD .null
    | _ => .forLoop (foldMaybe sess skip i) (foldE sess skip e).expr (foldMaybe sess skip o)
        (foldS sess skip b)
  | .foreachLoop idx base sort l b =>
    match limitNumber sess skip l with
    | some n =>
      if n.sle 0 then .null
      else .foreachLoop idx base sort (foldMaybe sess skip l) (foldS sess skip b)
    | none => .foreachLoop idx base sort (foldMaybe sess skip l) (foldS sess skip b)
  | .foreachHist idx h e l b =>
    match limitNumber sess skip l with
    | some n =>
      if n.sle 0 then .null
      else .foreachHist idx h (foldE sess skip e).expr (foldMaybe sess skip l) (foldS sess skip b)
    | none =>
      .foreachHist idx h (foldE sess skip e).expr (foldMaybe sess skip l) (foldS sess skip b)
  | .returnStmt e => .returnStmt (foldE sess skip e).expr
  | .deleteStmt e => .deleteStmt (foldE sess skip e).expr
  | .next => .next
  | .breakStmt => .breakStmt
  | .continueStmt => .continueStmt

def foldOpt (sess : Session) (skip : Bool) : Option Stmt → Option Stmt
  | none => none
  | some s => some (foldS sess skip s)

def foldBlock (sess : Session) (skip : Bool) : List Stmt → List Stmt
  | [] => []
  | s :: ss => foldS sess skip s :: foldBlock sess skip ss

end

def foldStep (skip : Bool) (sess : Session) (_ : Owner) (b : Stmt) : Stmt := foldS sess skip b

def semanticPassConstFold (skip : Bool) (sess : Session) : Session :=
  rewriteAll (foldStep skip) sess

end Systemtap.Opt
