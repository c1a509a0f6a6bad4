import Systemtap.Sem.Eval

/-!
# What expressions can do

The uses that `varuse_collecting_visitor` notes bound what any evaluation can do. The argument is made once,
for an arbitrary property of computations that sequencing keeps (`ExprLaw`): if it lets a computation fail and
look at the kernel, and lets it do what the uses in `P` stand for, then every expression whose uses are in `P`
has it, by a walk over the syntax.
-/

namespace Systemtap.Sem

open Systemtap.Tree Systemtap.Lex Lib List

variable {W α : Type}

/-- The global that an event tells of a change of. -/
def Event.global : Event → Option Nat
  | .set (.global k) _ => some k
  | .addStat k _ => some k
  | .clearStat k => some k
  | .mutate a _ _ => some a
  | _ => none

/-- A property of computations that expressions keep where the uses in `P` are allowed. -/
structure ExprLaw (W : Type) (P : Use → Prop) where
  Holds : ∀ {α : Type}, M W α → Prop
  pure : ∀ {α : Type} (a : α), Holds (Pure.pure a : M W α)
  halt : ∀ {α : Type}, Holds (Run.halt : M W α)
  bind : ∀ {α β : Type} {m : M W α} {f : α → M W β}, Holds m → (∀ a, Holds (f a)) → Holds (m >>= f)
  raises : ∀ {α : Type} (m : CStr), Holds (raise m : M W α)
  locals : ∀ k, P (.read (.loc k)) ∨ P (.write (.loc k)) → Holds (readVar (.loc k) : M W Value)
  looks : Holds (Run.read fun s : State W => s.world)
  reads : ∀ k, P (.read (.global k)) ∨ P (.write (.global k)) → Holds (readGlobal k)
  assigns : ∀ k x, P (.write (.loc k)) → Holds (writeVar (.loc k) x)
  sets : ∀ k g, P (.write (.global k)) → Holds (setGlobal k g)
  tells : ∀ {k : Nat} (e : Event), e.global = some k → P (.write (.global k)) → Holds (Run.emit e)
  prints : ∀ e : Event, e.global = none → P .embedded → Holds (Run.emit e)
  acts : ∀ w : W, P .embedded → Holds (Run.update fun s : State W => { s with world := w })

/-! ## The primitive steps -/

section Prim

variable {P : Use → Prop} (E : ExprLaw W P)

theorem ofArith_law (r : Arith) : E.Holds (ofArith r : M W I64) := by
  cases r with
  | ok n => exact E.pure n
  | divisionByZero => exact E.raises _
  | undefined => exact E.halt

theorem asLong_law (a : Value) : E.Holds (asLong a : M W I64) := by
  cases a with
  | long n => exact E.pure n
  | str s => exact E.halt

theorem asStr_law (a : Value) : E.Holds (asStr a : M W CStr) := by
  cases a with
  | str s => exact E.pure s
  | long n => exact E.halt

theorem ofOption_law (o : Option α) : E.Holds (ofOption o : M W α) := by
  cases o with
  | some a => exact E.pure a
  | none => exact E.halt

theorem binaryOp_law (op : ArithOp) (a b : Value) : E.Holds (binaryOp op a b : M W Value) :=
  E.bind (asLong_law E a) fun _ => E.bind (asLong_law E b) fun _ =>
    E.bind (ofArith_law E _) fun _ => E.pure _

theorem comparisonOp_law (op : CmpOp) (a b : Value) : E.Holds (comparisonOp op a b : M W Value) :=
  E.bind (ofOption_law E _) fun _ => E.pure _

theorem concatenationOp_law (a b : Value) : E.Holds (concatenationOp a b : M W Value) :=
  E.bind (asStr_law E a) fun _ => E.bind (asStr_law E b) fun _ => E.pure _

theorem unaryOp_law (op : UnOp) (a : Value) : E.Holds (unaryOp op a : M W Value) :=
  E.bind (asLong_law E a) fun _ => E.pure _

/-- A variable may be read where it is noted as read, and where it is noted as written. -/
def MayLook (P : Use → Prop) (v : Var) : Prop := P (.read v) ∨ P (.write v)

theorem readVar_law {v : Var} (h : MayLook P v) : E.Holds (readVar v : M W Value) := by
  cases v with
  | loc k => exact E.locals k h
  | global k =>
    refine E.bind (E.reads k h) fun g => ?_
    cases g with
    | scalar v => exact E.pure v
    | stat | array | statArray => exact E.halt

theorem writeVar_law {v : Var} (h : P (.write v)) (x : Value) :
    E.Holds (writeVar v x : M W Unit) := by
  cases v with
  | loc k => exact E.assigns k x h
  | global k =>
    refine E.bind (E.reads k (.inr h)) fun g => ?_
    cases g with
    | scalar v => exact E.bind (E.tells _ rfl h) fun _ => E.sets k _ h
    | stat | array | statArray => exact E.halt

theorem putEntry_law {β : Type} (c : Ctx W) {a : Nat} (h : P (.write (.global a))) (m : Mutation)
    (keys : List Value) (x : β) (es : List (List Value × β))
    (wrap : List (List Value × β) → Global) : E.Holds (putEntry c a m keys x es wrap) := by
  unfold putEntry
  split
  · exact E.bind (E.tells _ rfl h) fun _ => E.sets a _ h
  · exact E.raises _

/-- A place may be read. -/
def Place.Readable (P : Use → Prop) : Place → Prop
  | .var v => MayLook P v
  | .elem a _ => MayLook P (.global a)
  | .target _ _ => True

/-- A place may be written. -/
def Place.Writable (P : Use → Prop) : Place → Prop
  | .var v => P (.write v)
  | .elem a _ => P (.write (.global a))
  | .target _ _ => P .embedded

variable {p : Place}

theorem Place.Writable.readable (h : p.Writable P) : p.Readable P := by
  cases p with
  | var | elem => exact .inr h
  | target t args => trivial

theorem load_law (c : Ctx W) (h : p.Readable P) : E.Holds (load c p) := by
  cases p with
  | var v => exact readVar_law E h
  | elem a keys =>
    refine E.bind (E.reads a h) fun g => ?_
    cases g with
    | array d es => exact E.pure _
    | scalar | stat | statArray => exact E.halt
  | target t args =>
    refine E.bind E.looks fun w => ?_
    split
    · exact E.pure _
    · exact E.raises _

theorem store_law (c : Ctx W) (h : p.Writable P) (x : Value) : E.Holds (store c p x) := by
  cases p with
  | var v => exact writeVar_law E h x
  | elem a keys =>
    refine E.bind (E.reads a (.inr h)) fun g => ?_
    cases g with
    | array d es => exact putEntry_law E c h _ _ _ _ _
    | scalar | stat | statArray => exact E.halt
  | target t args =>
    refine E.bind E.looks fun w => ?_
    split
    · exact E.bind (E.prints _ rfl h) fun _ => E.acts _ h
    · exact E.raises _

theorem addStat_law (c : Ctx W) (h : p.Writable P) (x : I64) : E.Holds (addStat c p x) := by
  cases p with
  | var v =>
    cases v with
    | loc k => exact E.halt
    | global k =>
      refine E.bind (E.reads k (.inr h)) fun g => ?_
      cases g with
      | stat xs => exact E.bind (E.tells _ rfl h) fun _ => E.sets k _ h
      | scalar | array | statArray => exact E.halt
  | elem a keys =>
    refine E.bind (E.reads a (.inr h)) fun g => ?_
    cases g with
    | statArray es => exact putEntry_law E c h _ _ _ _ _
    | scalar | stat | array => exact E.halt
  | target t args => exact E.halt

theorem loadAggregate_law (c : Ctx W) (h : p.Readable P) : E.Holds (loadAggregate c p) := by
  cases p with
  | var v =>
    cases v with
    | loc k => exact E.halt
    | global k =>
      refine E.bind (E.reads k h) fun g => ?_
      cases g with
      | stat xs => exact E.pure _
      | scalar | array | statArray => exact E.halt
  | elem a keys =>
    refine E.bind (E.reads a h) fun g => ?_
    cases g with
    | statArray es => exact E.pure _
    | scalar | stat | array => exact E.halt
  | target t args => exact E.halt

theorem deletePlace_law (c : Ctx W) (h : p.Writable P) : E.Holds (deletePlace c p) := by
  cases p with
  | var v =>
    cases v with
    | loc k => exact E.bind (E.locals k (.inr h)) fun _ => E.assigns k _ h
    | global k =>
      refine E.bind (E.reads k (.inr h)) fun g => ?_
      cases g with
      | scalar v => exact writeVar_law E h _
      | stat | array | statArray => exact E.bind (E.tells _ rfl h) fun _ => E.sets k _ h
  | elem a keys =>
    refine E.bind (E.reads a (.inr h)) fun g => ?_
    cases g with
    | array | statArray => exact E.bind (E.tells _ rfl h) fun _ => E.sets a _ h
    | scalar | stat => exact E.halt
  | target t args => exact E.halt

theorem assignOp_law (c : Ctx W) (op : AssignOp) (h : p.Writable P) (r : Value) :
    E.Holds (assignOp c op p r) := by
  cases op with
  | set => exact E.bind (store_law E c h r) fun _ => E.pure _
  | stat => exact E.bind (asLong_law E r) fun _ => E.bind (addStat_law E c h _) fun _ => E.pure _
  | concat =>
    exact E.bind (load_law E c h.readable) fun _ => E.bind (concatenationOp_law E _ _) fun _ =>
      E.bind (store_law E c h _) fun _ => E.pure _
  | arith op =>
    exact E.bind (load_law E c h.readable) fun _ => E.bind (asLong_law E _) fun _ =>
      E.bind (asLong_law E _) fun _ => E.bind (ofArith_law E _) fun _ =>
        E.bind (store_law E c h _) fun _ => E.pure _

theorem crementOp_law (c : Ctx W) (post : Bool) (op : CremOp) (h : p.Writable P) :
    E.Holds (crementOp c post op p) :=
  E.bind (load_law E c h.readable) fun _ => E.bind (store_law E c h _) fun _ => E.pure _

theorem arrayInOp_law (h : p.Readable P) : E.Holds (arrayInOp p : M W Value) := by
  cases p with
  | elem a keys =>
    refine E.bind (E.reads a h) fun g => ?_
    cases g with
    | array | statArray => exact E.pure _
    | scalar | stat => exact E.halt
  | var | target => exact E.halt

theorem statOp_law (ctype : StatComponent) (samples : Option (List I64)) :
    E.Holds (statOp ctype samples : M W Value) := by
  unfold statOp
  split <;> first | exact E.pure _ | exact E.raises _

theorem bucketOp_law (c : Ctx W) (idx : List Value) (agg : Nat × Option (List I64)) :
    E.Holds (bucketOp c idx agg) := by
  unfold bucketOp
  split
  · split
    · exact E.pure _
    · exact E.raises _
  · exact E.raises _
  · exact E.halt

/-- Printing to the stream is noted as embedded code is. -/
theorem printText_law {toStream : Bool} (h : ∀ u ∈ (if toStream then [Use.embedded] else []), P u)
    (text : Str) : E.Holds (printText toStream text : M W Value) := by
  cases toStream with
  | true => exact E.bind (E.prints _ rfl (h _ (mem_singleton.mpr rfl))) fun _ => E.pure _
  | false => exact E.pure _

theorem printOp_law (c : Ctx W) {f : Format}
    (h : ∀ u ∈ (if f.printToStream then [Use.embedded] else []), P u) (args : List Value) :
    E.Holds (printOp c f args) := by
  refine E.bind E.looks fun w => ?_
  split
  · exact printText_law E h _
  · exact E.raises _

theorem printHistOp_law (c : Ctx W) {f : Format}
    (h : ∀ u ∈ (if f.printToStream then [Use.embedded] else []), P u) (hist : Hist)
    (samples : Option (List I64)) : E.Holds (printHistOp c f hist samples) := by
  unfold printHistOp
  split
  · exact printText_law E h _
  · exact E.raises _

end Prim

/-! ## Expressions -/

section Expr

variable {P : Use → Prop} {c : Ctx W}

/-- What a mark asks of the place under it. -/
def Place.Allowed (P : Use → Prop) : Mark → Place → Prop
  | .none, p => p.Readable P
  | _, p => p.Writable P

theorem Place.Allowed.writable {m : Mark} (hm : m ≠ .none) {p : Place} (h : p.Allowed P m) :
    p.Writable P := by
  cases m with
  | none => exact absurd rfl hm
  | lvalue | lrvalue => exact h

theorem Place.allowed_var {m : Mark} {v : Var} (h : ∀ u ∈ symbolUses m v, P u) :
    (Place.var v).Allowed P m := by
  cases m with
  | none => exact .inl (h _ (mem_singleton.mpr rfl))
  | lvalue | lrvalue => exact h _ mem_cons_self

theorem Place.allowed_elem {m : Mark} {a : Nat} (keys : List Value)
    (h : ∀ u ∈ symbolUses m (.global a), P u) : (Place.elem a keys).Allowed P m := by
  have hv := Place.allowed_var h
  cases m with
  | none | lvalue | lrvalue => exact hv

theorem Place.allowed_target {m : Mark} (h : ∀ u ∈ targetUses m, P u) (t : Target)
    (args : List Value) : (Place.target t args).Allowed P m := by
  cases m with
  | none => trivial
  | lvalue | lrvalue => exact h _ (mem_singleton.mpr rfl)

/-- The law allows the calls that are noted. -/
def CallsAllowed (E : ExprLaw W P) (c : Ctx W) : Prop :=
  ∀ f, P (.call f) → ∀ iter args, E.Holds (c.call f iter args)

set_option linter.unusedSectionVars false

section Walk

variable (E : ExprLaw W P) (hc : CallsAllowed E c)
include hc

mutual

theorem eval_law (e : Expr) (hu : ∀ u ∈ e.uses .none, P u) : E.Holds (eval c e) := by
  cases e <;> simp only [Expr.uses, forall_mem_append] at hu
  case literalString => exact ofOption_law E _
  case literalNumber | definedOp => exact E.pure _
  case binary t op l r =>
    exact E.bind (eval_law l hu.1) fun a => E.bind (eval_law r hu.2) fun b => binaryOp_law E op a b
  case logicalOr t l r =>
    refine E.bind (E.bind (eval_law l hu.1) (asLong_law E)) fun x => ?_
    split
    · exact E.pure _
    · exact E.bind (E.bind (eval_law r hu.2) (asLong_law E)) fun y => E.pure _
  case logicalAnd t l r =>
    refine E.bind (E.bind (eval_law l hu.1) (asLong_law E)) fun x => ?_
    split
    · exact E.bind (E.bind (eval_law r hu.2) (asLong_law E)) fun y => E.pure _
    · exact E.pure _
  case comparison t op l r =>
    exact E.bind (eval_law l hu.1) fun a => E.bind (eval_law r hu.2) fun b =>
      comparisonOp_law E op a b
  case concatenation t l r =>
    exact E.bind (eval_law l hu.1) fun a => E.bind (eval_law r hu.2) fun b =>
      concatenationOp_law E a b
  case unary t op e => exact E.bind (eval_law e hu) fun a => unaryOp_law E op a
  case crement t post op e =>
    exact place_law e (m := .lvalue) hu fun _ hp =>
      crementOp_law E c post op (hp.writable (m := .lvalue) nofun)
  case arrayIn t e =>
    rw [eval]
    split
    · exact eval_law e hu
    · exact place_law e (m := .none) hu fun _ hp => arrayInOp_law E hp
  case ternary t e l r =>
    refine E.bind (E.bind (eval_law e hu.1.1) (asLong_law E)) fun x => ?_
    split
    · exact eval_law l hu.1.2
    · exact eval_law r hu.2
  case assignment t op l r =>
    refine place_law l (m := assignMark op) hu.1 fun p hp =>
      E.bind (eval_law r hu.2) fun v => assignOp_law E c op (hp.writable ?_) v
    cases op <;> nofun
  case symbol s => exact readVar_law E (.inl (hu _ (mem_singleton.mpr rfl)))
  case targetSymbol t tgt es => exact E.bind (evalArgs_law es hu.2) fun _ => load_law E c trivial
  case castOp t tgt e es =>
    exact E.bind (eval_law e hu.1.2) fun _ => E.bind (evalArgs_law es hu.2) fun _ =>
      load_law E c trivial
  case arrayindex t base es =>
    cases base with
    | global a =>
      exact E.bind (evalArgs_law es hu.1) fun args =>
        load_law E c (Place.allowed_elem (m := .none) args hu.2)
    | loc j => exact E.halt
  case histindex t h e es =>
    exact E.bind (evalArgs_law es hu.1) fun args => place_law e (m := .none) hu.2 fun p hp =>
      E.bind (loadAggregate_law E c hp) fun agg => bucketOp_law E c args agg
  case functioncall t f es =>
    exact E.bind (evalArgs_law es hu.1) fun args => hc f (hu.2 _ (mem_singleton.mpr rfl)) _ args
  case printFormat t f es =>
    exact E.bind (evalArgs_law es hu.2) fun args => printOp_law E c hu.1 args
  case printHist t f h e =>
    exact place_law e (m := .none) hu.2 fun p hp =>
      E.bind (loadAggregate_law E c hp) fun agg => printHistOp_law E c hu.1 h agg.2
  case statOp t ct e =>
    exact place_law e (m := .none) hu fun p hp => E.bind (loadAggregate_law E c hp) fun agg =>
      statOp_law E ct agg.2

/-- Find the place, and go on with what the mark allows to be done to it. -/
theorem place_law {β : Type} {k : Place → M W β} (e : Expr) {m : Mark} (hu : ∀ u ∈ e.uses m, P u)
    (hk : ∀ p : Place, p.Allowed P m → E.Holds (k p)) : E.Holds (place c e >>= k) := by
  cases e <;> simp only [Expr.uses, forall_mem_append] at hu
  case symbol s => exact hk _ (Place.allowed_var hu)
  case targetSymbol t tgt es =>
    rw [place, bind_assoc]
    exact E.bind (evalArgs_law es hu.2) fun args => hk _ (Place.allowed_target hu.1 tgt args)
  case castOp t tgt e es =>
    rw [place, bind_assoc]
    refine E.bind (eval_law e hu.1.2) fun v => ?_
    rw [bind_assoc]
    exact E.bind (evalArgs_law es hu.2) fun args => hk _ (Place.allowed_target hu.1.1 tgt _)
  case arrayindex t base es =>
    cases base with
    | global a =>
      rw [place, bind_assoc]
      exact E.bind (evalArgs_law es hu.1) fun args => hk _ (Place.allowed_elem args hu.2)
    | loc j => exact E.halt
  all_goals exact E.halt

theorem evalArgs_law (es : List Expr) (hu : ∀ u ∈ usesList es, P u) : E.Holds (evalArgs c es) := by
  cases es with
  | nil => exact E.pure _
  | cons e es =>
    simp only [usesList, forall_mem_append] at hu
    exact E.bind (eval_law e hu.1) fun _ => E.bind (evalArgs_law es hu.2) fun _ => E.pure _

end

theorem placeValue_law {e : Expr} {m : Mark} (hu : ∀ u ∈ e.uses m, P u) : E.Holds (place c e) := by
  have h : E.Holds (place c e >>= Pure.pure) := place_law E hc e hu fun _ _ => E.pure _
  rwa [bind_pure] at h

theorem evalLong_law {e : Expr} (hu : ∀ u ∈ e.uses .none, P u) : E.Holds (eval c e >>= asLong) :=
  E.bind (eval_law E hc e hu) (asLong_law E)

theorem evalLimit_law (l : Option Expr) (hu : ∀ u ∈ usesMaybe l, P u) : E.Holds (evalLimit c l) := by
  cases l with
  | none => exact E.pure _
  | some e => exact E.bind (evalLong_law E hc hu) fun _ => E.pure _

theorem evalVoid_law (i : Option Expr) (hu : ∀ u ∈ usesMaybe i, P u) : E.Holds (evalVoid c i) := by
  cases i with
  | none => exact E.pure _
  | some e => exact E.bind (eval_law E hc e hu) fun _ => E.pure _

end Walk

theorem assignIndexes_law (E : ExprLaw W P) (idx : List Symbol) (keys : List Value)
    (h : ∀ u ∈ usesIndexes idx, P u) : E.Holds (assignIndexes idx keys : M W Unit) := by
  induction idx generalizing keys with
  | nil => exact E.pure _
  | cons s ss ih =>
    cases keys with
    | nil => exact E.pure _
    | cons x xs =>
      simp only [usesIndexes, map_cons, forall_mem_cons] at h
      exact E.bind (writeVar_law E h.1 x) fun _ => ih xs h.2

theorem nextLive_law (E : ExprLaw W P) {a : Nat} (h : E.Holds (readGlobal a))
    (k : Option (List Value)) : E.Holds (nextLive a k : M W (Option (List Value))) := by
  cases k with
  | none => exact E.pure _
  | some keys =>
    refine E.bind h fun g => ?_
    cases g with
    | array d es => exact ofOption_law E _
    | scalar | stat | statArray => exact E.halt

end Expr

end Systemtap.Sem
