import Systemtap.Sem.Value
import Systemtap.Tree.VarUse

/-!
# The primitive steps of a handler

What one emitted C expression does once its operands are evaluated: reading
and writing variables and array elements, arithmetic with its checks,
statistics, prints, embedded C. Everything that can fail at run time goes
through `raise`, which is what the emitted `c->last_error = ...; goto out;`
does. Operands of the wrong type have no meaning here (`halt`): the
translator refuses such programs.
-/

namespace Systemtap.Sem

open Systemtap.Tree Systemtap.Lex Lib Run

variable {W α : Type}

/-- The text of an error message. -/
def message (s : String) : CStr := CStr.ofBytes (s.toList.map fun c => UInt8.ofNat c.toNat)

/-- `c->last_error = ...; goto out;` -/
def raise (m : CStr) : M W α := do
  update fun s => { s with lastError := some m }
  emit (.error m)
  out

def asLong : Value → M W I64
  | .long n => pure n
  | .str _ => halt

def asStr : Value → M W CStr
  | .str s => pure s
  | .long _ => halt

def ofArith : Arith → M W I64
  | .ok n => pure n
  | .divisionByZero => raise (message "division by 0")
  | .undefined => halt

/-- A result that may have no meaning. -/
def ofOption : Option α → M W α
  | some a => pure a
  | none => halt

def literal (v : Str) : M W Value := ofOption ((CStr.ofLiteral v).map .str)

def binaryOp (op : ArithOp) (a b : Value) : M W Value := do
  let x ← asLong a
  let y ← asLong b
  let n ← ofArith (arith op x y)
  pure (.long n)

def comparisonOp (op : CmpOp) (a b : Value) : M W Value := do
  let o ← ofOption (compare a b)
  pure (.ofBool (holds op o))

def concatenationOp (a b : Value) : M W Value := do
  let x ← asStr a
  let y ← asStr b
  pure (.str (x.append y))

def unaryOp (op : UnOp) (a : Value) : M W Value := do
  let x ← asLong a
  pure (.long (unary op x))

/-! ## Variables -/

def readGlobal (k : Nat) : M W Global := read fun s => s.globals k

def setGlobal (k : Nat) (g : Global) : M W Unit :=
  update fun s => { s with globals := Function.update s.globals k g }

def readVar : Var → M W Value
  | .loc k => read fun s => s.frame k
  | .global k => do
    match ← readGlobal k with
    | .scalar v => pure v
    | _ => halt

def writeVar (v : Var) (x : Value) : M W Unit :=
  match v with
  | .loc k => do
    emit (.set (.loc k) x)
    update fun s => { s with frame := Function.update s.frame k x }
  | .global k => do
    match ← readGlobal k with
    | .scalar _ =>
      emit (.set (.global k) x)
      setGlobal k (.scalar x)
    | _ => halt

/-- What an lvalue stands for. -/
inductive Place where
  | var (v : Var)
  | elem (a : Nat) (keys : List Value)
  | target (t : Target) (args : List Value)
deriving DecidableEq

/-- What the evaluation of an expression depends on besides the state: the
runtime, the meaning of calls, the bound on loops, the arrays under iteration
with the calls made since their loop began, the aggregates that
`aggregations_active` says are at hand, and the formals that embedded C can
see. -/
structure Ctx (W : Type) where
  rt : Runtime W
  call : FnId → List (Nat × Nat) → List Value → M W Value
  fuel : Nat
  iter : List (Nat × Nat)
  agg : List (Nat × List (List Value × List I64))
  formals : List Nat

/-- Note a change of array `a`. -/
def noteMutation (c : Ctx W) (a : Nat) (m : Mutation) : M W Unit :=
  emit (.mutate a m (c.iter.lookup a))

/-- `_stp_map_set`: an existing node keeps its place, a new one goes last. -/
def setEntry {β : Type} (keys : List Value) (x : β) (es : List (List Value × β)) :
    List (List Value × β) :=
  if (es.lookup keys).isSome then es.map fun e => if e.1 = keys then (keys, x) else e
  else es ++ [(keys, x)]

/-- `_stp_map_del`. -/
def delEntry {β : Type} (keys : List Value) (es : List (List Value × β)) :
    List (List Value × β) :=
  es.filter fun e => e.1 ≠ keys

/-- Put a node into an array, where there is room for one more. -/
def putEntry {β : Type} (c : Ctx W) (a : Nat) (m : Mutation) (keys : List Value) (x : β)
    (es : List (List Value × β)) (wrap : List (List Value × β) → Global) : M W Unit :=
  if (es.lookup keys).isSome ∨ es.length < c.rt.maxEntries a then do
    noteMutation c a m
    setGlobal a (wrap (setEntry keys x es))
  else raise (message "Array overflow, check MAXMAPENTRIES")

def load (c : Ctx W) : Place → M W Value
  | .var v => readVar v
  | .elem a keys => do
    match ← readGlobal a with
    | .array d es => pure ((es.lookup keys).getD d)
    | _ => halt
  | .target t args => do
    match c.rt.target t args (← read fun s => s.world) with
    | .ok v => pure v
    | .error m => raise m

def store (c : Ctx W) (p : Place) (x : Value) : M W Unit :=
  match p with
  | .var v => writeVar v x
  | .elem a keys => do
    match ← readGlobal a with
    | .array d es => putEntry c a (.set keys x) keys x es (.array d)
    | _ => halt
  | .target t args => do
    match c.rt.setTarget t args x (← read fun s => s.world) with
    | .ok w =>
      emit (.setTarget t args x)
      update fun s => { s with world := w }
    | .error m => raise m

/-- `_stp_stat_add`, or `mapvar::add` for an element. -/
def addStat (c : Ctx W) (p : Place) (x : I64) : M W Unit :=
  match p with
  | .var (.global k) => do
    match ← readGlobal k with
    | .stat xs =>
      emit (.addStat k x)
      setGlobal k (.stat (xs ++ [x]))
    | _ => halt
  | .elem a keys => do
    match ← readGlobal a with
    | .statArray es =>
      putEntry c a (.add keys x) keys ((es.lookup keys).getD [] ++ [x]) es .statArray
    | _ => halt
  | _ => halt

/-- `c_unparser::load_aggregate`: the global and its samples, if there is a node.
Inside a `foreach` over the array the samples are those the loop began with. -/
def loadAggregate (c : Ctx W) (p : Place) : M W (Nat × Option (List I64)) :=
  match p with
  | .var (.global k) => do
    match ← readGlobal k with
    | .stat xs => pure (k, some xs)
    | _ => halt
  | .elem a keys => do
    match ← readGlobal a with
    | .statArray es => pure (a, ((c.agg.lookup a).getD es).lookup keys)
    | _ => halt
  | _ => halt

/-- `delete_statement_operand_visitor`. -/
def deletePlace (c : Ctx W) (p : Place) : M W Unit :=
  match p with
  | .var (.loc k) => do
    let x ← readVar (.loc k)
    writeVar (.loc k) x.cleared
  | .var (.global k) => do
    match ← readGlobal k with
    | .scalar v => writeVar (.global k) v.cleared
    | .stat _ =>
      emit (.clearStat k)
      setGlobal k (.stat [])
    | .array d _ =>
      noteMutation c k .clear
      setGlobal k (.array d [])
    | .statArray _ =>
      noteMutation c k .clear
      setGlobal k (.statArray [])
  | .elem a keys => do
    match ← readGlobal a with
    | .array d es =>
      noteMutation c a (.del keys)
      setGlobal a (.array d (delEntry keys es))
    | .statArray es =>
      noteMutation c a (.del keys)
      setGlobal a (.statArray (delEntry keys es))
    | _ => halt
  | _ => halt

/-- `c_unparser_assignment::c_assignop` after the right side is evaluated. -/
def assignOp (c : Ctx W) (op : AssignOp) (p : Place) (r : Value) : M W Value :=
  match op with
  | .set => do
    store c p r
    pure r
  | .stat => do
    let n ← asLong r
    addStat c p n
    pure r
  | .concat => do
    let x ← load c p
    let y ← concatenationOp x r
    store c p y
    pure y
  | .arith op => do
    let x ← load c p
    let l ← asLong x
    let n ← asLong r
    let y ← ofArith (assignArith op l n)
    store c p (.long y)
    pure (.long y)

/-- The number in a variable that is stepped; inference makes it a number. -/
def Value.toLong : Value → I64
  | .long n => n
  | .str _ => 0

def crementBy (op : CremOp) (x : I64) : I64 :=
  match op with
  | .inc => x + 1
  | .dec => x - 1

def crementOp (c : Ctx W) (post : Bool) (op : CremOp) (p : Place) : M W Value := do
  let x ← load c p
  store c p (.long (crementBy op x.toLong))
  pure (.long (if post then x.toLong else crementBy op x.toLong))

/-- `c_unparser::visit_array_in`. -/
def arrayInOp : Place → M W Value
  | .elem a keys => do
    match ← readGlobal a with
    | .array _ es => pure (.ofBool (es.lookup keys).isSome)
    | .statArray es => pure (.ofBool (es.lookup keys).isSome)
    | _ => halt
  | _ => halt

/-! ## Statistics, prints, embedded code -/

def maxLong (x y : I64) : I64 := if x.slt y then y else x

def minLong (x y : I64) : I64 := if x.slt y then x else y

def statOp (ctype : StatComponent) (samples : Option (List I64)) : M W Value :=
  match ctype, samples with
  | .count, none => pure (.long 0)
  | .count, some xs => pure (.long (BitVec.ofNat 64 xs.length))
  | _, none | _, some [] => raise (message "empty aggregate")
  | .average, some xs => pure (.long ((xs.foldl (· + ·) 0).sdiv (BitVec.ofNat 64 xs.length)))
  | .sum, some xs => pure (.long (xs.foldl (· + ·) 0))
  | .min, some (x :: xs) => pure (.long (xs.foldl minLong x))
  | .max, some (x :: xs) => pure (.long (xs.foldl maxLong x))

/-- A bucket of a histogram (`c_unparser::visit_arrayindex`). -/
def bucketOp (c : Ctx W) (idx : List Value) (agg : Nat × Option (List I64)) : M W Value :=
  match idx, agg.2 with
  | [.long i], some (x :: xs) =>
    if 0 ≤ i.toInt ∧ i.slt (c.rt.buckets agg.1) then
      pure (.long (c.rt.bucket agg.1 (x :: xs) i))
    else raise (message "histogram index out of range")
  | [.long _], _ => raise (message "empty aggregate")
  | _, _ => halt

/-- `print` and `sprint` of a text. -/
def printText (toStream : Bool) (text : Str) : M W Value :=
  if toStream then do
    emit (.print text)
    pure (.long 0)
  else pure (.str (CStr.ofBytes text))

def printOp (c : Ctx W) (f : Format) (args : List Value) : M W Value := do
  match c.rt.render f args (← read fun s => s.world) with
  | .ok text => printText f.printToStream text
  | .error m => raise m

def printHistOp (c : Ctx W) (f : Format) (h : Hist) (samples : Option (List I64)) : M W Value :=
  match samples with
  | some (x :: xs) => printText f.printToStream (c.rt.renderHist f h (x :: xs))
  | _ => raise (message "empty aggregate")

/-- An impure block is an effect by itself. -/
def noteEmbedded (code : Str) (args : List Value) : M W Unit :=
  if isPure code then pure () else emit (.embedded code args)

def notePrinted : Option Str → M W Unit
  | some text => emit (.print text)
  | none => pure ()

/-- An error that embedded C sets does not jump by itself; the call that ran the
code looks at `last_error`. -/
def noteError : Option CStr → M W Unit
  | some m => do
    emit (.error m)
    update fun s => { s with lastError := some m }
  | none => pure ()

def leaveEmbedded (r : Embedded W) : M W Unit :=
  update fun s => { s with world := r.world, ret := r.ret.getD s.ret }

/-- A block of embedded C. -/
def embeddedOp (c : Ctx W) (code : Str) : M W Unit := do
  let args ← read fun s => c.formals.map s.frame
  let r ← read fun s => c.rt.embedded code args s.world
  noteEmbedded code args
  notePrinted r.printed
  noteError r.error
  leaveEmbedded r

end Systemtap.Sem
