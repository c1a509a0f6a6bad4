import Systemtap.Lex.CString
import Systemtap.Lib.Sim

/-!
# Values, arithmetic and the state of a handler

What the C emitted by `translate.cxx` computes with. A script string is a
buffer of `MAXSTRINGLEN` bytes that ends at its first zero byte; `CStr` holds
both facts, so that a copy (`strlcpy`) of one string into another never cuts
it again. Numbers are 64-bit two's complement with wraparound.

The parts of a run that are not in this tree, or that no pass looks into, are
the fields of `Runtime`: the meaning of embedded C and of target variables,
the text a print makes, the order a sort gives an array, how per-cpu
statistics are merged, the buckets of a histogram.
-/

namespace Systemtap.Sem

open Systemtap.Tree Systemtap.Lex Lib

/-- `MAXSTRINGLEN` on a 64-bit target, unless it is set by hand. -/
def maxStringLen : Nat := 512

/-- A string at run time. -/
structure CStr where
  bytes : Str
  nonzero : 0 ∉ bytes
  short : bytes.length < maxStringLen
deriving DecidableEq

namespace CStr

theorem zero_notMem_cString (bs : Str) : 0 ∉ cString bs := by
  intro h
  have := List.mem_takeWhile_imp h
  simp at this

/-- `strlcpy` of any bytes into a string buffer. -/
def ofBytes (bs : Str) : CStr where
  bytes := (cString bs).take (maxStringLen - 1)
  nonzero := fun h => zero_notMem_cString bs (List.mem_of_mem_take h)
  short := by
    rw [List.length_take]
    unfold maxStringLen
    omega

/-- A string literal, where its decoded bytes fit a string buffer. A longer
literal is a `char` array that some uses cut and others do not, so it has no
single value; the model gives it none. -/
def ofLiteral (v : Str) : Option CStr :=
  match decode v with
  | none => none
  | some bs =>
    if h : (cString bs).length < maxStringLen then
      some ⟨cString bs, zero_notMem_cString bs, h⟩
    else none

/-- `strlcpy` then `strlcat`. -/
def append (a b : CStr) : CStr := ofBytes (a.bytes ++ b.bytes)

def empty : CStr := ofBytes []

end CStr

/-- A script value. -/
inductive Value where
  | long (n : I64)
  | str (s : CStr)
deriving DecidableEq

namespace Value

/-- What a variable of this type starts with (`var::init`). -/
def init : ExpType → Value
  | .string => .str CStr.empty
  | _ => .long 0

/-- What `delete` puts into a scalar. -/
def cleared : Value → Value
  | .long _ => .long 0
  | .str _ => .str CStr.empty

/-- `true` and `false` of C. -/
def ofBool (b : Bool) : Value := .long (if b then 1 else 0)

end Value

/-- How an arithmetic operator can end. C leaves a shift by 64 or more open. -/
inductive Arith where
  | ok (n : I64)
  | divisionByZero
  | undefined
deriving DecidableEq

/-- `max(min(r, 64), 0)`: the shift count `c_unparser` emits. -/
def shiftCount (r : I64) : Nat := min r.toInt.toNat 64

/-- `c_unparser::visit_binary_expression`. -/
def arith (op : ArithOp) (l r : I64) : Arith :=
  match op with
  | .add => .ok (l + r)
  | .sub => .ok (l - r)
  | .mul => .ok (l * r)
  | .band => .ok (l &&& r)
  | .bor => .ok (l ||| r)
  | .bxor => .ok (l ^^^ r)
  | .div => if r = 0 then .divisionByZero else .ok (l.sdiv r)
  | .mod => if r = 0 then .divisionByZero else .ok (l.srem r)
  | .shl => if shiftCount r < 64 then .ok (l <<< shiftCount r) else .undefined
  | .shr => if shiftCount r < 64 then .ok (l.sshiftRight (shiftCount r)) else .undefined

/-- `c_unparser_assignment::c_assignop` for the numeric operators: a shift is
emitted as it stands, with no clamp on its count. -/
def assignArith (op : ArithOp) (l r : I64) : Arith :=
  match op with
  | .shl | .shr => if r.toInt < 0 then .undefined else arith op l r
  | _ => arith op l r

/-- `c_unparser::visit_unary_expression`. -/
def unary (op : UnOp) (x : I64) : I64 :=
  match op with
  | .plus => x
  | .minus => -x
  | .not => if x = 0 then 1 else 0
  | .compl => ~~~x

/-- The sign of a comparison of two numbers. -/
def compareLong (l r : I64) : Ordering :=
  if l.slt r then .lt else if r.slt l then .gt else .eq

/-- `c_unparser::visit_comparison`; values of two types do not compare. -/
def compare : Value → Value → Option Ordering
  | .long l, .long r => some (compareLong l r)
  | .str l, .str r => some (strncmp maxStringLen l.bytes r.bytes)
  | _, _ => none

/-- A global variable. The nodes of an array stand in the order of its list. -/
inductive Global where
  | scalar (v : Value)
  | stat (samples : List I64)
  | array (default : Value) (entries : List (List Value × Value))
  | statArray (entries : List (List Value × List I64))
deriving DecidableEq

/-- What is done to an array. -/
inductive Mutation where
  | set (keys : List Value) (x : Value)
  | add (keys : List Value) (x : I64)
  | del (keys : List Value)
  | clear
  | reorder
deriving DecidableEq

/-- What a run does that can be seen. A change of an array notes how many calls
below the nearest running `foreach` over that array it was made, if there is
one. -/
inductive Event where
  | print (text : Str)
  | embedded (code : Str) (args : List Value)
  | set (v : Var) (x : Value)
  | addStat (k : Nat) (x : I64)
  | clearStat (k : Nat)
  | mutate (a : Nat) (m : Mutation) (under : Option Nat)
  | setTarget (t : Target) (args : List Value) (x : Value)
  | error (message : CStr)
deriving DecidableEq

namespace Event

/-- A runtime error. -/
def isError : Event → Bool
  | .error _ => true
  | _ => false

/-- Assignments to locals stay inside the function that owns them. -/
def leavesCall : Event → Bool
  | .set (.loc _) _ => false
  | _ => true

/-- The text that goes to the output. -/
def printed : Event → Option Str
  | .print text => some text
  | _ => none

end Event

/-- What a run of embedded C leaves behind. -/
structure Embedded (W : Type) where
  world : W
  ret : Option Value
  printed : Option Str
  error : Option CStr

/-- The meaning of what lies outside the script; `W` is the kernel's state. -/
structure Runtime (W : Type) where
  embedded : Str → List Value → W → Embedded W
  render : Format → List Value → W → Except CStr Str
  renderHist : Format → Hist → List I64 → Str
  target : Target → List Value → W → Except CStr Value
  setTarget : Target → List Value → Value → W → Except CStr W
  sort : SortOrder → Option I64 → List (List Value × Value) → List (List Value × Value)
  sortStat : SortOrder → Option I64 → List (List Value × List I64) → List (List Value × List I64)
  aggregate : List (List Value × List I64) → Option (List (List Value × List I64))
  buckets : Nat → I64
  bucket : Nat → List I64 → I64 → I64
  maxEntries : Nat → Nat

/-- `struct context`, as far as the script can tell: the globals, the locals of
the running function or probe, its `__retvalue`, and `last_error`. -/
structure State (W : Type) where
  globals : Nat → Global
  world : W
  frame : Nat → Value
  ret : Value
  lastError : Option CStr

abbrev M (W : Type) := Run Event (State W)

end Systemtap.Sem
