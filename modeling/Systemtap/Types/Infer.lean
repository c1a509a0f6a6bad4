import Systemtap.Tree.Syntax
import Systemtap.Lib.Trace

/-!
# Type inference

`semantic_pass_types` and `typeresolution_info`. A pass walks every function,
probe and probe condition and pushes an expected type `t` down to each
expression; types are stored in the nodes, in the declarations and in the
functions, and each time one is found `resolved` counts it. The passes are
repeated until one of them resolves nothing.

A visitor here returns the node with its new types. A `semantic_error` leaves
the types that were set before it where they are, so a visitor that is left by
one returns the node as far as it got, with `thrown` set, and the parents hand
it on; `visit_block` catches it. The declarations are the state, and the log
holds the calls of `resolved`, `unresolved`, `invalid` and `mismatch` and the
errors that are caught. Failed assertions about missing referents are errors of
their own here; there are none after symbol resolution.
-/

namespace Systemtap.Types

open Systemtap.Tree Lib Trace

/-! ## State and log -/

/-- The `semantic_error`s of the visitors. -/
inductive SemanticError where
  | unresolvedTarget
  | unexpectedDefined
  | castTypeNotFound
  | unspecifiedConversion
  | wrongNumberOfArgs
  | invalidDeleteOperand
  | noReferent
deriving DecidableEq, Repr

/-- What is logged. `forced` is a call of `resolved` as well: the one that
`check_arg_type` makes for a print without a format string. -/
inductive Event where
  | resolved
  | forced
  | unresolved
  | invalid (t : ExpType)
  | mismatch (t₁ t₂ : ExpType)
  | error (e : SemanticError)
deriving DecidableEq, Repr

/-- The types outside the tree. -/
structure Decls where
  globals : List Vardecl
  locals : List Vardecl
  functions : List ExpType
deriving DecidableEq, Repr

/-- A type outside the tree: of a variable, of an index of an array, of a function. -/
inductive Slot where
  | decl (v : Var)
  | index (v : Var) (i : Nat)
  | function (f : FnId)
deriving DecidableEq, Repr

namespace Decls

def vardecl (d : Decls) : Var → Option Vardecl
  | .global k => d.globals[k]?
  | .loc k => d.locals[k]?

def modify (d : Decls) (v : Var) (f : Vardecl → Vardecl) : Decls :=
  match v with
  | .global k => { d with globals := d.globals.modify k f }
  | .loc k => { d with locals := d.locals.modify k f }

def get (d : Decls) : Slot → Option ExpType
  | .decl v => (d.vardecl v).map Vardecl.type
  | .index v i => (d.vardecl v).bind fun x => x.indexTypes[i]?
  | .function f => d.functions[f]?

def set (d : Decls) (s : Slot) (t : ExpType) : Decls :=
  match s with
  | .decl v => d.modify v fun x => { x with type := t }
  | .index v i => d.modify v fun x => { x with indexTypes := x.indexTypes.modify i fun _ => t }
  | .function f => { d with functions := d.functions.modify f fun _ => t }

end Decls

abbrev M := Trace Event Decls

/-- A visited node, and whether a `semantic_error` left its visitor. -/
structure Visited (α : Type) where
  node : α
  thrown : Bool

/-- A visitor, waiting for the expected type. -/
abbrev Visit := ExpType → M (Visited Expr)

def fine {α : Type} (node : α) : M (Visited α) := pure ⟨node, false⟩

def failed {α : Type} (e : SemanticError) (node : α) : M (Visited α) := do
  tell (.error e)
  pure ⟨node, true⟩

/-- Record `e` where `c` holds. -/
def flag (c : Prop) [Decidable c] (e : Event) : M Unit := if c then tell e else pure ()

/-- Give `t` to what has no type yet. -/
def settle (ty t : ExpType) : M ExpType :=
  if ty = .unknown then do
    tell .resolved
    pure t
  else pure ty

def checkSame (t₁ t₂ : ExpType) : M Unit :=
  flag (t₁ ≠ .unknown ∧ t₂ ≠ .unknown ∧ t₁ ≠ t₂) (.mismatch t₁ t₂)

/-! ## Visiting children in order -/

/-- Go on after a visit, unless an error has left it: then `stop` is the node so far. -/
def andGo {α β : Type} (m : M (Visited α)) (stop : α → β) (go : α → M (Visited β)) :
    M (Visited β) := do
  let a ← m
  if a.thrown then pure ⟨stop a.node, true⟩ else go a.node

theorem andGo_apply {α β : Type} (m : M (Visited α)) (stop : α → β) (go : α → M (Visited β))
    (d : Decls) :
    andGo m stop go d = (do
      let a ← m
      if a.thrown then pure ⟨stop a.node, true⟩ else go a.node : M (Visited β)) d := rfl

/-- After the last visit there is nothing to go on with. -/
theorem andGo_fine {α β : Type} (m : M (Visited α)) (mk : α → β) (d : Decls) :
    andGo m mk (fun a => fine (mk a)) d =
      ⟨⟨mk (m d).val.node, (m d).val.thrown⟩, (m d).state, (m d).log⟩ := by
  rw [andGo_apply, bind_apply]
  rcases m d with ⟨⟨a, thrown⟩, d', l⟩
  cases thrown <;> simp [fine]

/-- One child; `fin` finds the type of the node after its visit. -/
def visitOne (mk : ExpType → Expr → Expr) (ty : ExpType) (v : M (Visited Expr))
    (fin : Expr → M ExpType) : M (Visited Expr) :=
  andGo v (mk ty) fun e => do
    let ty' ← fin e
    fine (mk ty' e)

/-- Two children; the second visit may look at the first. -/
def visitTwo (mk : ExpType → Expr → Expr → Expr) (ty : ExpType) (r : Expr)
    (vl : M (Visited Expr)) (vr : Expr → M (Visited Expr)) (fin : Expr → Expr → M ExpType) :
    M (Visited Expr) :=
  andGo vl (fun l' => mk ty l' r) fun l' =>
    visitOne (fun ty r' => mk ty l' r') ty (vr l') (fin l')

/-- Three children. -/
def visitThree (mk : ExpType → Expr → Expr → Expr → Expr) (ty : ExpType) (l r : Expr)
    (vc vl vr : M (Visited Expr)) (fin : Expr → Expr → M ExpType) : M (Visited Expr) :=
  andGo vc (fun e => mk ty e l r) fun e =>
    visitTwo (fun ty l' r' => mk ty e l' r') ty r vl (fun _ => vr) fin

/-! ## The visitors of expressions -/

/-- `visit_binary_expression` -/
def visitBinaryExpression (mk : ExpType → Expr → Expr → Expr) (ty : ExpType) (r : Expr)
    (vl vr : Visit) (t : ExpType) : M (Visited Expr) := do
  flag (t = .stats ∨ t = .string) (.invalid t)
  visitTwo mk ty r (vl .long) (fun _ => vr .long) fun l' r' => do
    checkSame l'.type r'.type
    settle ty .long

/-- `visit_comparison` -/
def visitComparison (mk : ExpType → Expr → Expr → Expr) (ty : ExpType) (r : Expr)
    (vl vr : Visit) (t : ExpType) : M (Visited Expr) := do
  flag (t = .stats ∨ t = .string) (.invalid t)
  visitTwo mk ty r (vl r.type) (fun l' => vr l'.type) fun l' r' => do
    checkSame l'.type r'.type
    settle ty .long

/-- The two sides of `.` and `.=`, which are strings. -/
def visitStrings (mk : ExpType → Expr → Expr → Expr) (ty : ExpType) (r : Expr)
    (vl vr : Visit) : M (Visited Expr) :=
  visitTwo mk ty r (vl .string) (fun _ => vr .string) fun _ _ => settle ty .string

/-- `visit_concatenation` -/
def visitConcatenation (mk : ExpType → Expr → Expr → Expr) (ty : ExpType) (r : Expr)
    (vl vr : Visit) (t : ExpType) : M (Visited Expr) := do
  flag (t ≠ .unknown ∧ t ≠ .string) (.invalid t)
  visitStrings mk ty r vl vr

/-- `visit_unary_expression` -/
def visitUnaryExpression (mk : ExpType → Expr → Expr) (ty : ExpType) (v : Visit) (t : ExpType) :
    M (Visited Expr) := do
  flag (t = .stats ∨ t = .string) (.invalid t)
  visitOne mk ty (v .long) fun _ => settle ty .long

/-- `sub_type` of an assignment or a ternary: the expected type, or else the one at hand. -/
def subType (ty t : ExpType) : ExpType := if t = .unknown then ty else t

/-- The type of a `<<<`. -/
def aggregationType (ty : ExpType) : M ExpType :=
  if ty = .unknown ∨ ty = .stats then do
    tell .resolved
    pure .long
  else pure ty

/-- `visit_assignment` with `<<<`. -/
def visitAggregation (mk : ExpType → Expr → Expr → Expr) (ty : ExpType) (r : Expr)
    (vl vr : Visit) (t : ExpType) : M (Visited Expr) := do
  flag (t = .string) (.invalid t)
  visitTwo mk ty r (vl .stats) (fun _ => vr .long) fun _ _ => aggregationType ty

/-- `visit_assignment` with `.=`. -/
def visitAppend (mk : ExpType → Expr → Expr → Expr) (ty : ExpType) (r : Expr)
    (vl vr : Visit) (t : ExpType) : M (Visited Expr) := do
  flag (t = .long ∨ t = .stats) (.invalid t)
  visitStrings mk ty r vl vr

/-- The type of `l = r` from the expected type and that of its left side. -/
def assignedType (ty sub left : ExpType) : M ExpType :=
  if sub ≠ .unknown then settle ty sub
  else if left ≠ .unknown then do
    tell .resolved
    pure left
  else pure ty

/-- `visit_assignment` with `=`. -/
def visitSet (mk : ExpType → Expr → Expr → Expr) (ty : ExpType) (r : Expr)
    (vl vr : Visit) (t : ExpType) : M (Visited Expr) :=
  visitTwo mk ty r (vl (subType r.type (subType ty t)))
    (fun l' => vr (subType l'.type (subType ty t))) fun l' r' => do
    let ty' ← assignedType ty (subType ty t) l'.type
    checkSame l'.type r'.type
    pure ty'

/-- Where a side of an assignment is an aggregate it is not visited at all. -/
def unlessStats (e l r : Expr) (m : M (Visited Expr)) : M (Visited Expr) :=
  if l.type = .stats then do
    tell (.invalid l.type)
    fine e
  else if r.type = .stats then do
    tell (.invalid r.type)
    fine e
  else m

/-- `visit_assignment` -/
def visitAssignment (ty : ExpType) (op : AssignOp) (l r : Expr) (vl vr : Visit) (t : ExpType) :
    M (Visited Expr) := do
  flag (t = .stats) (.invalid t)
  match op with
  | .stat => visitAggregation (fun ty l r => .assignment ty .stat l r) ty r vl vr t
  | .arith a =>
    unlessStats (.assignment ty (.arith a) l r) l r
      (visitBinaryExpression (fun ty l r => .assignment ty (.arith a) l r) ty r vl vr t)
  | .concat =>
    unlessStats (.assignment ty .concat l r) l r
      (visitAppend (fun ty l r => .assignment ty .concat l r) ty r vl vr t)
  | .set =>
    unlessStats (.assignment ty .set l r) l r
      (visitSet (fun ty l r => .assignment ty .set l r) ty r vl vr t)

/-- The type of a ternary from the expected type and those of its arms. -/
def ternaryType (ty sub l r : ExpType) : M ExpType :=
  if sub ≠ .unknown then
    if ty = .unknown then do
      tell .resolved
      pure sub
    else do
      flag (ty ≠ sub) (.mismatch sub ty)
      pure ty
  else if l ≠ .unknown then do
    tell .resolved
    pure l
  else if r ≠ .unknown then do
    tell .resolved
    pure r
  else pure ty

/-- `visit_ternary_expression` -/
def visitTernaryExpression (ty : ExpType) (l r : Expr) (vc vl vr : Visit) (t : ExpType) :
    M (Visited Expr) :=
  visitThree .ternary ty l r (vc .long) (vl (subType ty t)) (vr (subType ty t))
    fun l' r' => ternaryType ty (subType ty t) l'.type r'.type

/-- The type of `[..] in a`. -/
def arrayInType (ty t : ExpType) : M ExpType :=
  if t = .unknown ∧ ty ≠ .unknown then pure ty
  else if t = .string ∨ t = .stats then do
    tell (.mismatch t .long)
    pure ty
  else settle ty .long

/-- `visit_array_in` -/
def visitArrayIn (ty : ExpType) (v : Visit) (t : ExpType) : M (Visited Expr) :=
  visitOne .arrayIn ty (v .unknown) fun _ => arrayInType ty t

/-- `resolve_2types`: `re` is the type of the referrer, `s` the place of the referent's. -/
def resolve2types (re : ExpType) (s : Slot) (t : ExpType) (acceptUnknown : Bool) :
    M (Visited ExpType) := do
  match ← read (Decls.get · s) with
  | none => failed .noReferent re
  | some te =>
    if t ≠ .unknown ∧ re = t ∧ re = te then fine re
    else if t = .unknown ∧ re ≠ .unknown ∧ re = te then fine re
    else if re ≠ .unknown ∧ te ≠ .unknown ∧ re ≠ te then do
      tell (.mismatch re te)
      fine re
    else if re ≠ .unknown ∧ t ≠ .unknown ∧ re ≠ t then do
      tell (.mismatch re t)
      fine re
    else if te ≠ .unknown ∧ t ≠ .unknown ∧ te ≠ t then do
      tell (.mismatch te t)
      fine re
    else if re = .unknown ∧ t ≠ .unknown then do
      tell .resolved
      fine t
    else if re = .unknown ∧ te ≠ .unknown then do
      tell .resolved
      fine te
    else if re ≠ .unknown ∧ te = .unknown then do
      update (Decls.set · s re)
      tell .resolved
      fine re
    else do
      flag (acceptUnknown = false) .unresolved
      fine re

/-- `visit_symbol` -/
def visitSymbol (sym : Symbol) (t : ExpType) : M (Visited Symbol) := do
  let ty ← resolve2types sym.type (.decl sym.referent) t false
  pure ⟨{ sym with type := ty.node }, ty.thrown⟩

/-- What follows the visit of an argument or an index: its type meets that of its slot. -/
def matchSlot (s : Slot) (ty : ExpType) : M Unit := do
  match ← read (Decls.get · s) with
  | none => pure ()
  | some ft =>
    if (ty = .string ∨ ty = .long) ∧ ft = .unknown then do
      update (Decls.set · s ty)
      tell .resolved
    else do
      flag (ty = .stats) (.invalid ty)
      flag (ft = .stats) (.invalid ft)
      flag (ty ≠ .unknown ∧ ft ≠ .unknown ∧ ft ≠ ty) (.mismatch ty ft)
      flag (ty = .unknown) .unresolved

/-- The type of an indexed histogram. -/
def histindexType (ty : ExpType) : M ExpType :=
  if ty ≠ .long then do
    tell .resolved
    pure .long
  else pure ty

/-- `visit_arrayindex` on a `hist_op`, with `visit_hist_op`. -/
def visitHistindex (mk : ExpType → Expr → Expr → Expr) (ty : ExpType) (stat : Expr) (more : Bool)
    (vi vs : Visit) : M (Visited Expr) := do
  flag (more = true) .unresolved
  visitTwo mk ty stat (vi .long)
    (fun e => do
      flag (e.type ≠ .long) .unresolved
      vs .stats)
    fun _ _ => histindexType ty

/-- `visit_stat_op` -/
def visitStatOp (ty : ExpType) (ct : StatComponent) (v : Visit) : M (Visited Expr) :=
  visitOne (fun ty e => .statOp ty ct e) ty (v .stats) fun _ => do
    flag (ty ≠ .unknown ∧ ty ≠ .long) (.mismatch ty .long)
    settle ty .long

/-! ### Prints -/

/-- The type that a conversion wants, if it wants an argument. -/
def ofConversion : ConversionType → Option ExpType
  | .string => some .string
  | .unspecified | .literal => none
  | _ => some .long

/-- The types of the arguments of one component: width, precision, value. -/
def ofComponent (k : FormatComponent) : List ExpType :=
  match ofConversion k.type with
  | none => []
  | some t =>
    (if k.width = .dynamic then [.long] else []) ++
      (if k.precision = .dynamic then [.long] else []) ++ [t]

/-- The types that a format string wants, in the order of the arguments. -/
def conversions (ks : List FormatComponent) : Except SemanticError (List ExpType) :=
  if ks.any fun k => k.type = .unspecified then .error .unspecifiedConversion
  else .ok (ks.flatMap ofComponent)

/-- The type of a print that has all its arguments. -/
def printType (f : Format) : ExpType := if f.printToStream then .long else .string

/-- A print without a format string. -/
def isPlainPrint : Expr → Bool
  | .printFormat _ f _ => !f.printWithFormat
  | _ => false

def setType (t : ExpType) : Expr → Expr
  | .literalString _ v => .literalString t v
  | .literalNumber _ n => .literalNumber t n
  | .binary _ op l r => .binary t op l r
  | .logicalOr _ l r => .logicalOr t l r
  | .logicalAnd _ l r => .logicalAnd t l r
  | .comparison _ op l r => .comparison t op l r
  | .concatenation _ l r => .concatenation t l r
  | .unary _ op e => .unary t op e
  | .crement _ post op e => .crement t post op e
  | .arrayIn _ e => .arrayIn t e
  | .ternary _ e l r => .ternary t e l r
  | .assignment _ op l r => .assignment t op l r
  | .symbol s => .symbol { s with type := t }
  | .targetSymbol _ tgt es => .targetSymbol t tgt es
  | .castOp _ tgt e es => .castOp t tgt e es
  | .definedOp _ e => .definedOp t e
  | .arrayindex _ base es => .arrayindex t base es
  | .histindex _ h e es => .histindex t h e es
  | .functioncall _ f es => .functioncall t f es
  | .printFormat _ f es => .printFormat t f es
  | .printHist _ f h e => .printHist t f h e
  | .statOp _ ct e => .statOp t ct e

/-- `check_arg_type` after the visit of its argument. -/
def checkArgType (wanted : ExpType) (arg : Expr) : M Expr :=
  if arg.type = .unknown then do
    tell (if isPlainPrint arg then .forced else .resolved)
    pure (setType wanted arg)
  else do
    flag (arg.type ≠ wanted) (.mismatch arg.type wanted)
    pure arg

/-- The type of a print: with untyped arguments it loses the one it has. -/
def printedType (f : Format) (ty : ExpType) (unresolvedArgs : Nat) : M ExpType :=
  if unresolvedArgs = 0 then settle ty (printType f)
  else do
    tell .unresolved
    pure .unknown

/-! ### Expressions -/

/-- What a visitor knows besides the declarations: the formals of the functions and
`current_function`. -/
structure Ctx where
  formals : FnId → Option (List Nat)
  current : Option FnId

/-- A symbol in the place of an expression. -/
def symbolNode (s : Visited Symbol) : Visited Expr := ⟨.symbol s.node, s.thrown⟩

mutual

/-- `typeresolution_info` on an expression; the last argument is the expected type. -/
def visitE (c : Ctx) : Expr → ExpType → M (Visited Expr)
  | .literalNumber ty n, t => do
    flag (t ≠ ty ∧ t ≠ .unknown) (.mismatch ty t)
    fine (.literalNumber ty n)
  | .literalString ty v, t => do
    flag (t ≠ ty ∧ t ≠ .unknown) (.mismatch ty t)
    fine (.literalString ty v)
  | .binary ty op l r, t =>
    visitBinaryExpression (fun ty l r => .binary ty op l r) ty r (visitE c l) (visitE c r) t
  | .logicalOr ty l r, t => visitBinaryExpression .logicalOr ty r (visitE c l) (visitE c r) t
  | .logicalAnd ty l r, t => visitBinaryExpression .logicalAnd ty r (visitE c l) (visitE c r) t
  | .comparison ty op l r, t =>
    visitComparison (fun ty l r => .comparison ty op l r) ty r (visitE c l) (visitE c r) t
  | .concatenation ty l r, t => visitConcatenation .concatenation ty r (visitE c l) (visitE c r) t
  | .unary ty op e, t => visitUnaryExpression (fun ty e => .unary ty op e) ty (visitE c e) t
  | .crement ty post op e, t =>
    visitUnaryExpression (fun ty e => .crement ty post op e) ty (visitE c e) t
  | .arrayIn ty e, t => visitArrayIn ty (visitE c e) t
  | .ternary ty e l r, t => visitTernaryExpression ty l r (visitE c e) (visitE c l) (visitE c r) t
  | .assignment ty op l r, t => visitAssignment ty op l r (visitE c l) (visitE c r) t
  | .symbol sym, t => do
    let s ← visitSymbol sym t
    pure (symbolNode s)
  | .targetSymbol ty tgt es, _ =>
    if tgt.probeContextVar.isEmpty then failed .unresolvedTarget (.targetSymbol ty tgt es)
    else fine (.targetSymbol ty tgt es)
  | .castOp ty tgt e es, _ => failed .castTypeNotFound (.castOp ty tgt e es)
  | .definedOp ty e, _ => failed .unexpectedDefined (.definedOp ty e)
  | .arrayindex ty base es, t =>
    andGo (resolve2types ty (.decl base) t false) (fun ty' => .arrayindex ty' base es) fun ty' => do
      let arity ← read fun d => ((d.vardecl base).map fun x => x.indexTypes.length).getD 0
      if es.length ≠ arity then do
        tell .unresolved
        fine (.arrayindex ty' base es)
      else
        andGo (visitSlots c es ((List.range es.length).map (Slot.index base)))
          (fun es' => .arrayindex ty' base es') fun es' => fine (.arrayindex ty' base es')
  -- the index of a histogram is read without a look at how many there are
  | .histindex ty h stat [], _ => failed .noReferent (.histindex ty h stat [])
  | .histindex ty h stat (e :: es), _ =>
    visitHistindex (fun ty e s => .histindex ty h s (e :: es)) ty stat (!es.isEmpty)
      (visitE c e) (visitE c stat)
  | .functioncall ty f es, t =>
    andGo (resolve2types ty (.function f) t true) (fun ty' => .functioncall ty' f es) fun ty' => do
      flag (ty' = .stats) (.invalid ty')
      match c.formals f with
      | none => failed .noReferent (.functioncall ty' f es)
      | some ks =>
        if es.length ≠ ks.length then do
          tell .unresolved
          fine (.functioncall ty' f es)
        else
          andGo (visitSlots c es (ks.map fun k => .decl (.loc k)))
            (fun es' => .functioncall ty' f es') fun es' => fine (.functioncall ty' f es')
  | .printFormat ty f es, _ =>
    if f.printWithFormat then
      match conversions f.components with
      | .error err => failed err (.printFormat ty f es)
      | .ok wanted =>
        if wanted.length ≠ es.length then failed .wrongNumberOfArgs (.printFormat ty f es)
        else
          andGo (visitWanted c es wanted) (fun es' => .printFormat ty f es') fun es' => do
            let ty' ← printedType f ty 0
            fine (.printFormat ty' f es')
    else
      andGo (visitArgs c es) (fun es' => .printFormat ty f es') fun es' => do
        let ty' ← printedType f ty (es'.countP fun e => e.type = .unknown)
        fine (.printFormat ty' f es')
  | .printHist ty f h stat, _ =>
    visitOne (fun ty s => .printHist ty f h s) ty (visitE c stat .stats) fun _ =>
      settle ty (printType f)
  | .statOp ty ct stat, _ => visitStatOp ty ct (visitE c stat)

/-- Arguments or indexes, each with its slot. -/
def visitSlots (c : Ctx) : List Expr → List Slot → M (Visited (List Expr))
  | e :: es, s :: ss => do
    match ← read (Decls.get · s) with
    | none => failed .noReferent (e :: es)
    | some ft =>
      andGo (visitE c e ft) (fun e' => e' :: es) fun e' => do
        matchSlot s e'.type
        andGo (visitSlots c es ss) (fun es' => e' :: es') fun es' => fine (e' :: es')
  | es, _ => fine es

/-- The arguments of a print with a format string. -/
def visitWanted (c : Ctx) : List Expr → List ExpType → M (Visited (List Expr))
  | e :: es, t :: ts =>
    andGo (visitE c e t) (fun e' => e' :: es) fun e' => do
      let e'' ← checkArgType t e'
      andGo (visitWanted c es ts) (fun es' => e'' :: es') fun es' => fine (e'' :: es')
  | es, _ => fine es

/-- The arguments of a print without one. -/
def visitArgs (c : Ctx) : List Expr → M (Visited (List Expr))
  | [] => fine []
  | e :: es =>
    andGo (visitE c e .unknown) (fun e' => e' :: es) fun e' => do
      flag (e'.type = .unknown) .unresolved
      andGo (visitArgs c es) (fun es' => e' :: es') fun es' => fine (e' :: es')

end

/-! ## The visitors of statements -/

/-- An expression that may be missing. -/
def visitMaybe (c : Ctx) (t : ExpType) : Option Expr → M (Visited (Option Expr))
  | none => fine none
  | some e => andGo (visitE c e t) some fun e' => fine (some e')

/-- The indexes of a `foreach_loop` over an array, each with its slot. -/
def visitIndexes : List Symbol → List Slot → M (Visited (List Symbol))
  | e :: es, s :: ss => do
    match ← read (Decls.get · s) with
    | none => failed .noReferent (e :: es)
    | some ft =>
      andGo (visitSymbol e ft) (fun e' => e' :: es) fun e' => do
        matchSlot s e'.type
        andGo (visitIndexes es ss) (fun es' => e' :: es') fun es' => fine (e' :: es')
  | es, _ => fine es

/-- The indexes of a `foreach_loop` over an array, if they are as many as it has. -/
def visitForeachIndexes (base : Var) (idx : List Symbol) : M (Visited (List Symbol)) := do
  let arity ← read fun d => ((d.vardecl base).map fun x => x.indexTypes.length).getD 0
  if idx.length ≠ arity then do
    tell .unresolved
    fine idx
  else visitIndexes idx ((List.range idx.length).map (Slot.index base))

/-- The index of a `foreach_loop` over a histogram. -/
def visitBucket : List Symbol → M (Visited (List Symbol))
  | [] => failed .noReferent []
  | e :: es => do
    flag (es ≠ []) .unresolved
    andGo (visitSymbol e .long) (fun e' => e' :: es) fun e' => do
      flag (e'.type ≠ .long) .unresolved
      fine (e' :: es)

/-- `visit_delete_statement`: `delete_statement_typeresolution_info` throws for every
operand but an array, an element or a variable. -/
def visitDelete (c : Ctx) (e : Expr) : M (Visited Expr) :=
  match e with
  | .symbol _ | .arrayindex _ _ _ | .histindex _ _ _ _ => visitE c e .unknown
  | _ => failed .invalidDeleteOperand e

/-- `visit_return_statement` after the visit of its value. -/
def matchReturn (f : FnId) (ty : ExpType) : M Unit := do
  match ← read (Decls.get · (.function f)) with
  | none => pure ()
  | some ft =>
    if ft = .unknown ∧ (ty = .long ∨ ty = .string) then do
      update (Decls.set · (.function f) ty)
      tell .resolved
    else do
      flag (ft ≠ .unknown ∧ ty ≠ .unknown ∧ ft ≠ ty) (.mismatch ft ty)
      flag (ty = .stats) (.invalid ty)

/-- `visit_return_statement` -/
def visitReturn (c : Ctx) (e : Expr) : M (Visited Stmt) :=
  match c.current with
  | none => fine (.returnStmt e)
  | some f => do
    match ← read (Decls.get · (.function f)) with
    | none => failed .noReferent (.returnStmt e)
    | some ft =>
      andGo (visitE c e ft) .returnStmt fun e' => do
        matchReturn f e'.type
        fine (.returnStmt e')

/-- The symbol that a `catch` sets. -/
def visitCatchVar : Option Symbol → M (Visited (Option Symbol))
  | none => fine none
  | some s => andGo (visitSymbol s .string) some fun s' => fine (some s')

mutual

/-- `typeresolution_info` on a statement. -/
def visitS (c : Ctx) : Stmt → M (Visited Stmt)
  | .block ss => do
    let ss' ← visitBlock c ss
    fine (.block ss')
  | .tryBlock b v h =>
    andGo (visitOpt c b) (fun b' => .tryBlock b' v h) fun b' =>
    andGo (visitCatchVar v) (fun v' => .tryBlock b' v' h) fun v' =>
    andGo (visitOpt c h) (fun h' => .tryBlock b' v' h') fun h' => fine (.tryBlock b' v' h')
  | .embeddedcode code => fine (.embeddedcode code)
  | .null => fine .null
  | .expr e => andGo (visitE c e .unknown) .expr fun e' => fine (.expr e')
  | .ifStmt e s o =>
    andGo (visitE c e .long) (fun e' => .ifStmt e' s o) fun e' =>
    andGo (visitS c s) (fun s' => .ifStmt e' s' o) fun s' =>
    andGo (visitOpt c o) (fun o' => .ifStmt e' s' o') fun o' => fine (.ifStmt e' s' o')
  | .forLoop i e o b =>
    andGo (visitMaybe c .unknown i) (fun i' => .forLoop i' e o b) fun i' =>
    andGo (visitE c e .long) (fun e' => .forLoop i' e' o b) fun e' =>
    andGo (visitMaybe c .unknown o) (fun o' => .forLoop i' e' o' b) fun o' =>
    andGo (visitS c b) (fun b' => .forLoop i' e' o' b') fun b' => fine (.forLoop i' e' o' b')
  | .foreachLoop idx base sort l b =>
    andGo (visitForeachIndexes base idx) (fun x => .foreachLoop x base sort l b) fun x =>
    andGo (visitMaybe c .long l) (fun l' => .foreachLoop x base sort l' b) fun l' =>
    andGo (visitS c b) (fun b' => .foreachLoop x base sort l' b') fun b' =>
    fine (.foreachLoop x base sort l' b')
  | .foreachHist idx h e l b =>
    andGo (visitBucket idx) (fun x => .foreachHist x h e l b) fun x =>
    andGo (visitE c e .stats) (fun e' => .foreachHist x h e' l b) fun e' =>
    andGo (visitMaybe c .long l) (fun l' => .foreachHist x h e' l' b) fun l' =>
    andGo (visitS c b) (fun b' => .foreachHist x h e' l' b') fun b' =>
    fine (.foreachHist x h e' l' b')
  | .returnStmt e => visitReturn c e
  | .deleteStmt e => andGo (visitDelete c e) .deleteStmt fun e' => fine (.deleteStmt e')
  | .next => fine .next
  | .breakStmt => fine .breakStmt
  | .continueStmt => fine .continueStmt

def visitOpt (c : Ctx) : Option Stmt → M (Visited (Option Stmt))
  | none => fine none
  | some s => andGo (visitS c s) some fun s' => fine (some s')

/-- `visit_block`: an error ends its statement only. -/
def visitBlock (c : Ctx) : List Stmt → M (List Stmt)
  | [] => pure []
  | s :: ss => do
    let s' ← visitS c s
    let ss' ← visitBlock c ss
    pure (s'.node :: ss')

end

/-! ## The types that inference starts from -/

mutual

/-- The types of a tree as the parser and the tapsets leave it: literals have theirs, calls and
target variables may have one, the rest has none. -/
def asParsed : Expr → Prop
  | .literalString t _ => t = .string
  | .literalNumber t _ => t = .long
  | .binary t _ l r => t = .unknown ∧ asParsed l ∧ asParsed r
  | .logicalOr t l r => t = .unknown ∧ asParsed l ∧ asParsed r
  | .logicalAnd t l r => t = .unknown ∧ asParsed l ∧ asParsed r
  | .comparison t _ l r => t = .unknown ∧ asParsed l ∧ asParsed r
  | .concatenation t l r => t = .unknown ∧ asParsed l ∧ asParsed r
  | .unary t _ e => t = .unknown ∧ asParsed e
  | .crement t _ _ e => t = .unknown ∧ asParsed e
  | .arrayIn t e => t = .unknown ∧ asParsed e
  | .ternary t e l r => t = .unknown ∧ asParsed e ∧ asParsed l ∧ asParsed r
  | .assignment t _ l r => t = .unknown ∧ asParsed l ∧ asParsed r
  | .symbol _ => True
  | .targetSymbol _ _ es => asParsedAll es
  | .castOp _ _ e es => asParsed e ∧ asParsedAll es
  | .definedOp _ e => asParsed e
  | .arrayindex t _ es => t = .unknown ∧ asParsedAll es
  | .histindex t _ s es => t = .unknown ∧ asParsed s ∧ asParsedAll es
  | .functioncall _ _ es => asParsedAll es
  | .printFormat t _ es => t = .unknown ∧ asParsedAll es
  | .printHist t _ _ s => t = .unknown ∧ asParsed s
  | .statOp t _ s => t = .unknown ∧ asParsed s

def asParsedAll : List Expr → Prop
  | [] => True
  | e :: es => asParsed e ∧ asParsedAll es

end

def asParsedMaybe (o : Option Expr) : Prop := ∀ e ∈ o, asParsed e

mutual

def asParsedS : Stmt → Prop
  | .block ss => asParsedBlock ss
  | .tryBlock b _ h => asParsedOpt b ∧ asParsedOpt h
  | .expr e => asParsed e
  | .ifStmt e s o => asParsed e ∧ asParsedS s ∧ asParsedOpt o
  | .forLoop i e o b => asParsedMaybe i ∧ asParsed e ∧ asParsedMaybe o ∧ asParsedS b
  | .foreachLoop _ _ _ l b => asParsedMaybe l ∧ asParsedS b
  | .foreachHist _ _ e l b => asParsed e ∧ asParsedMaybe l ∧ asParsedS b
  | .returnStmt e => asParsed e
  | .deleteStmt e => asParsed e
  | .embeddedcode _ | .null | .next | .breakStmt | .continueStmt => True

def asParsedOpt : Option Stmt → Prop
  | none => True
  | some s => asParsedS s

def asParsedBlock : List Stmt → Prop
  | [] => True
  | s :: ss => asParsedS s ∧ asParsedBlock ss

end

/-! ## Passes -/

def visitFunctions (formals : FnId → Option (List Nat)) :
    FnId → List Functiondecl → M (Visited (List Functiondecl))
  | _, [] => fine []
  | f, fd :: fds =>
    andGo (visitS ⟨formals, some f⟩ fd.body) (fun b => { fd with body := b } :: fds) fun b =>
    andGo (visitFunctions formals (f + 1) fds) (fun fds' => { fd with body := b } :: fds')
      fun fds' => fine ({ fd with body := b } :: fds')

def visitProbes (formals : FnId → Option (List Nat)) :
    List Probe → M (Visited (List Probe))
  | [] => fine []
  | p :: ps =>
    andGo (visitS ⟨formals, none⟩ p.body) (fun b => { p with body := b } :: ps) fun b =>
    andGo (visitMaybe ⟨formals, none⟩ .long p.condition)
      (fun k => { p with body := b, condition := k } :: ps) fun k =>
    andGo (visitProbes formals ps) (fun ps' => { p with body := b, condition := k } :: ps')
      fun ps' => fine ({ p with body := b, condition := k } :: ps')

/-- The globals without a type. -/
def visitGlobals : List Vardecl → M Unit
  | [] => pure ()
  | g :: gs => do
    flag (g.type = .unknown) .unresolved
    visitGlobals gs

/-- A pass over functions, probes and globals. -/
def visitAll (formals : FnId → Option (List Nat)) (fs : List Functiondecl) (ps : List Probe) :
    M (Visited (List Functiondecl × List Probe)) :=
  andGo (visitFunctions formals 0 fs) (fun fs' => (fs', ps)) fun fs' =>
  andGo (visitProbes formals ps) (fun ps' => (fs', ps')) fun ps' => do
    let gs ← read Decls.globals
    visitGlobals gs
    fine (fs', ps')

/-- The types outside the bodies. -/
def declsOf (s : Session) : Decls := ⟨s.globals, s.locals, s.functions.map Functiondecl.type⟩

/-- What passes change: the declarations and the bodies. -/
structure Program where
  decls : Decls
  functions : List Functiondecl
  probes : List Probe

namespace Program

def ofSession (s : Session) : Program := ⟨declsOf s, s.functions, s.probes⟩

def formals (p : Program) (f : FnId) : Option (List Nat) :=
  p.functions[f]?.map Functiondecl.formalArgs

/-- No pass has been made yet. -/
def AsParsed (p : Program) : Prop :=
  (∀ fd ∈ p.functions, asParsedS fd.body) ∧
    ∀ pr ∈ p.probes, asParsedS pr.body ∧ asParsedMaybe pr.condition

/-- One round of `semantic_pass_types`. -/
def visited (p : Program) : Traced Event Decls (Visited (List Functiondecl × List Probe)) :=
  visitAll p.formals p.functions p.probes p.decls

/-- The program after a round. -/
def next (p : Program) : Program :=
  ⟨p.visited.state, p.visited.val.node.1, p.visited.val.node.2⟩

end Program

/-- `num_newly_resolved` -/
def newlyResolved (log : List Event) : Nat := log.countP fun e => e = .resolved ∨ e = .forced

/-- The events that `num_still_unresolved` counts. -/
def isUnresolved : Event → Bool
  | .unresolved | .invalid _ | .mismatch _ _ => true
  | _ => false

/-- `num_still_unresolved` -/
def stillUnresolved (log : List Event) : Nat := log.countP isUnresolved

def isError : Event → Bool
  | .error _ => true
  | _ => false

/-- The calls of `print_error`: errors that are caught, and once `assert_resolvability` is set
also what stays unresolved. -/
def printed (assertResolvability : Bool) (log : List Event) : Nat :=
  log.countP isError + if assertResolvability then stillUnresolved log else 0

/-- The loop of `semantic_pass_types` between two passes. -/
structure LoopState where
  program : Program
  assertResolvability : Bool
  errors : Nat

/-- How the loop is left: with a return code, or by an error that no block caught. -/
inductive LoopEnd where
  | returned (rc : Nat) (program : Program)
  | thrown (program : Program)

/-- One turn of the loop. -/
def turn (st : LoopState) : LoopState ⊕ LoopEnd :=
  let log := st.program.visited.log
  let errors := st.errors + printed st.assertResolvability log
  if st.program.visited.val.thrown then .inr (.thrown st.program.next)
  else if newlyResolved log = 0 then
    if stillUnresolved log = 0 then .inr (.returned errors st.program.next)
    else if st.assertResolvability = false then .inl ⟨st.program.next, true, errors⟩
    else .inr (.returned (1 + errors) st.program.next)
  else .inl ⟨st.program.next, st.assertResolvability, errors⟩

/-- The first `n` turns. -/
def turns : Nat → LoopState → LoopState ⊕ LoopEnd
  | 0, st => .inl st
  | n + 1, st =>
    match turn st with
    | .inl st' => turns n st'
    | .inr r => .inr r

/-- The loop before its first pass. -/
def start (s : Session) : LoopState := ⟨Program.ofSession s, false, 0⟩

/-- `semantic_pass_types` comes to an end. -/
def Exits (s : Session) : Prop := ∃ n r, turns n (start s) = .inr r

/-- `semantic_pass_types` returns `rc` and leaves the program `p`. -/
def Returns (s : Session) (rc : Nat) (p : Program) : Prop :=
  ∃ n, turns n (start s) = .inr (.returned rc p)

end Systemtap.Types
