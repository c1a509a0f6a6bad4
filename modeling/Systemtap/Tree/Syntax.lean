import Mathlib

/-!
# The script tree

The expressions and statements of `staptree.h`, after symbol resolution: a
`symbol` holds the variable it refers to, a `functioncall` the function.
Every expression carries the type that inference assigns to it
(`expression::type`), since the optimisers copy it and inference reads it
back on its next pass.

A variable is known by its declaration, as in the source, where a symbol
points to its `vardecl`: `Var.loc k` is one local or formal of one function or
probe, and no other function shares the number `k`.

Three classes of the source that hold an `indexable` (`arrayindex`,
`foreach_loop`, `print_format`) are two constructors each here, one for an
array and one for a histogram, since every visitor starts by telling the two
apart (`classify_indexable`). Source positions are left out.
-/

namespace Systemtap.Tree

/-- `exp_type`. -/
inductive ExpType where
  | unknown
  | long
  | string
  | stats
deriving DecidableEq, Repr

/-- The bytes of a script string, in the spelling the lexer keeps. -/
abbrev Str := List UInt8

/-- `int64_t`. -/
abbrev I64 := BitVec 64

/-- A `vardecl`. -/
inductive Var where
  | global (k : Nat)
  | loc (k : Nat)
deriving DecidableEq, Repr

/-- A `functiondecl`, by its place in the session. -/
abbrev FnId := Nat

/-- A symbol with its referent. -/
structure Symbol where
  type : ExpType
  referent : Var
deriving DecidableEq, Repr

/-- The operators of `binary_expression` proper. -/
inductive ArithOp where
  | add | sub | mul | div | mod | band | bor | bxor | shl | shr
deriving DecidableEq, Repr

/-- The operators of `comparison`. -/
inductive CmpOp where
  | eq | ne | lt | gt | le | ge
deriving DecidableEq, Repr

/-- The operators of `unary_expression`. -/
inductive UnOp where
  | plus | minus | not | compl
deriving DecidableEq, Repr

/-- `++` and `--`. -/
inductive CremOp where
  | inc | dec
deriving DecidableEq, Repr

/-- The operators of `assignment`: `=`, `<<<`, `.=` and the numeric ones. -/
inductive AssignOp where
  | set
  | stat
  | concat
  | arith (op : ArithOp)
deriving DecidableEq, Repr

/-- `stat_component_type`. -/
inductive StatComponent where
  | average | count | sum | min | max
deriving DecidableEq, Repr

/-- `hist_op` without its operand: `@hist_linear(low, high, step)` or `@hist_log`. -/
inductive Hist where
  | linear (low high step : I64)
  | log
deriving DecidableEq, Repr

/-- `print_format::conversion_type`. -/
inductive ConversionType where
  | unspecified | signedDecimal | unsignedDecimal | unsignedOctal | unsignedPtr
  | unsignedUppercaseHex | unsignedLowercaseHex | string | char | memory | memoryHex
  | literal | binary
deriving DecidableEq, Repr

/-- `width_type` and `precision_type`. -/
inductive Extent where
  | unspecified
  | static (n : Nat)
  | dynamic
deriving DecidableEq, Repr

/-- `print_format::format_component`. -/
structure FormatComponent where
  flags : Nat
  width : Extent
  precision : Extent
  type : ConversionType
  literalString : Str
deriving DecidableEq, Repr

/-- The flags and components of a `print_format`; `rawComponents` is the format
string as the script has it. -/
structure Format where
  printToStream : Bool
  printWithFormat : Bool
  printWithDelim : Bool
  printWithNewline : Bool
  printChar : Bool
  rawComponents : Str
  components : List FormatComponent
  delimiter : FormatComponent
deriving DecidableEq, Repr

/-- One `->member`, `[3]` or `[expr]` of a target symbol; the expressions
themselves stand in the tree, in the order of their components. -/
inductive TargetComponent where
  | structMember (member : Str)
  | literalArrayIndex (num : I64)
  | expressionArrayIndex
deriving DecidableEq, Repr

/-- A `target_symbol` or `cast_op` without its sub-expressions. -/
structure Target where
  addressof : Bool
  baseName : Str
  components : List TargetComponent
  probeContextVar : Str
  castType : Str
  castModule : Str
deriving DecidableEq, Repr

/-- Expressions. A `pre_crement` or `post_crement` is a `crement` with `post`
saying which. -/
inductive Expr where
  | literalString (type : ExpType) (value : Str)
  | literalNumber (type : ExpType) (value : I64)
  | binary (type : ExpType) (op : ArithOp) (left right : Expr)
  | logicalOr (type : ExpType) (left right : Expr)
  | logicalAnd (type : ExpType) (left right : Expr)
  | comparison (type : ExpType) (op : CmpOp) (left right : Expr)
  | concatenation (type : ExpType) (left right : Expr)
  | unary (type : ExpType) (op : UnOp) (operand : Expr)
  | crement (type : ExpType) (post : Bool) (op : CremOp) (operand : Expr)
  | arrayIn (type : ExpType) (operand : Expr)
  | ternary (type : ExpType) (cond truevalue falsevalue : Expr)
  | assignment (type : ExpType) (op : AssignOp) (left right : Expr)
  | symbol (sym : Symbol)
  | targetSymbol (type : ExpType) (target : Target) (indexes : List Expr)
  | castOp (type : ExpType) (target : Target) (operand : Expr) (indexes : List Expr)
  | definedOp (type : ExpType) (operand : Expr)
  | arrayindex (type : ExpType) (base : Var) (indexes : List Expr)
  | histindex (type : ExpType) (hist : Hist) (stat : Expr) (indexes : List Expr)
  | functioncall (type : ExpType) (referent : FnId) (args : List Expr)
  | printFormat (type : ExpType) (format : Format) (args : List Expr)
  | printHist (type : ExpType) (format : Format) (hist : Hist) (stat : Expr)
  | statOp (type : ExpType) (ctype : StatComponent) (stat : Expr)

/-- `sort_direction` of a `foreach_loop`, where it sorts at all. -/
inductive SortDirection where
  | ascending | descending
deriving DecidableEq, Repr

/-- `sort_direction` and `sort_column`. -/
structure SortOrder where
  direction : SortDirection
  column : Nat
deriving DecidableEq, Repr

/-- Statements. `none` stands for a null pointer where the source allows one. -/
inductive Stmt where
  | block (statements : List Stmt)
  | tryBlock (body : Option Stmt) (catchErrorVar : Option Symbol) (catchBlock : Option Stmt)
  | embeddedcode (code : Str)
  | null
  | expr (value : Expr)
  | ifStmt (condition : Expr) (thenblock : Stmt) (elseblock : Option Stmt)
  | forLoop (init : Option Expr) (cond : Expr) (incr : Option Expr) (block : Stmt)
  | foreachLoop (indexes : List Symbol) (base : Var) (sort : Option SortOrder) (limit : Option Expr)
      (block : Stmt)
  | foreachHist (indexes : List Symbol) (hist : Hist) (stat : Expr) (limit : Option Expr)
      (block : Stmt)
  | returnStmt (value : Expr)
  | deleteStmt (value : Expr)
  | next
  | breakStmt
  | continueStmt

/-- `expression::type`. -/
def Expr.type : Expr → ExpType
  | .literalString t _ | .literalNumber t _ | .binary t _ _ _ | .logicalOr t _ _
  | .logicalAnd t _ _ | .comparison t _ _ _ | .concatenation t _ _ | .unary t _ _
  | .crement t _ _ _ | .arrayIn t _ | .ternary t _ _ _ | .assignment t _ _ _
  | .targetSymbol t _ _ | .castOp t _ _ _ | .definedOp t _ | .arrayindex t _ _
  | .histindex t _ _ _ | .functioncall t _ _ | .printFormat t _ _ | .printHist t _ _ _
  | .statOp t _ _ => t
  | .symbol sym => sym.type

/-- An `arrayindex` whose base is a histogram. -/
def Expr.isHist : Expr → Bool
  | .histindex _ _ _ _ => true
  | _ => false

/-- A `vardecl`: `indexTypes` is empty for a scalar. -/
structure Vardecl where
  name : Str
  type : ExpType
  indexTypes : List ExpType
deriving DecidableEq, Repr

/-- A `functiondecl`. Formals and locals are given by the numbers of their
variables. -/
structure Functiondecl where
  name : Str
  type : ExpType
  formalArgs : List Nat
  locals : List Nat
  body : Stmt

/-- A `derived_probe`. `semantic_pass_conditions` has put the condition of its
point to the front of the body; type inference still visits the point as well. -/
structure Probe where
  name : Str
  locals : List Nat
  body : Stmt
  condition : Option Expr

/-- The part of `systemtap_session` that the middle passes work on. The
declaration of `Var.global k` is `globals[k]`, that of `Var.loc k` is
`locals[k]`, and function `f` is `functions[f]`, in the order in which the
source walks its map of functions. -/
structure Session where
  globals : List Vardecl
  locals : List Vardecl
  functions : List Functiondecl
  probes : List Probe

namespace Session

/-- The declaration a variable stands for. -/
def decl (s : Session) : Var → Option Vardecl
  | .global k => s.globals[k]?
  | .loc k => s.locals[k]?

/-- The declared type of a local, which fixes the value it starts with. -/
def locType (s : Session) (k : Nat) : ExpType :=
  ((s.locals[k]?).map Vardecl.type).getD .unknown

end Session

end Systemtap.Tree
