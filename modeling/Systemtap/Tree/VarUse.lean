import Systemtap.Tree.Syntax
import Systemtap.Lib.Explore

/-!
# Which variables a piece of script uses

`varuse_collecting_visitor` of `staptree.cxx`. It walks a tree, notes reads
and writes of variables and anything it takes for an unknown side effect
(`embedded_seen`), and follows each function that is called, once.

The visitor leaves a mark at the expression that is being assigned to, and
`visit_symbol` compares itself with that mark. Here the mark is passed down
(`Mark`). Two of its rules decide most of what follows in the optimisers:
`++` and `--` mark their operand as a pure write, and the operand of
`delete` counts as read and written.
-/

namespace Systemtap.Tree

open Lib

/-- One thing the visitor notes. -/
inductive Use where
  | read (v : Var)
  | write (v : Var)
  | embedded
  | call (f : FnId)
deriving DecidableEq, Repr

/-- `current_lvalue` or `current_lrvalue` points at this expression, or neither does. -/
inductive Mark where
  | none
  | lvalue
  | lrvalue
deriving DecidableEq, Repr

/-- `varuse_collecting_visitor::visit_symbol`. -/
def symbolUses (m : Mark) (v : Var) : List Use :=
  match m with
  | .none => [.read v]
  | .lvalue => [.write v]
  | .lrvalue => [.write v, .read v]

/-- Target variables and casts that are assigned to count as a side effect. -/
def targetUses (m : Mark) : List Use :=
  match m with
  | .none => []
  | _ => [.embedded]

/-- The mark `varuse_collecting_visitor::visit_assignment` leaves. -/
def assignMark : AssignOp → Mark
  | .set | .stat => .lvalue
  | _ => .lrvalue

/-- The magic string that marks embedded C without side effects. -/
def pureMark : Str := [47, 42, 32, 112, 117, 114, 101, 32, 42, 47]

def isPure (code : Str) : Bool := decide (pureMark <:+: code)

mutual

/-- What the visitor notes in an expression, calls not yet followed. -/
def Expr.uses (m : Mark) : Expr → List Use
  | .literalString _ _ | .literalNumber _ _ => []
  | .binary _ _ l r | .logicalOr _ l r | .logicalAnd _ l r | .comparison _ _ l r
  | .concatenation _ l r => l.uses .none ++ r.uses .none
  | .unary _ _ e | .arrayIn _ e | .definedOp _ e | .statOp _ _ e => e.uses .none
  | .crement _ _ _ e => e.uses .lvalue
  | .ternary _ e t f => e.uses .none ++ t.uses .none ++ f.uses .none
  | .assignment _ op l r => l.uses (assignMark op) ++ r.uses .none
  | .symbol s => symbolUses m s.referent
  | .targetSymbol _ _ idx => targetUses m ++ usesList idx
  | .castOp _ _ e idx => targetUses m ++ e.uses .none ++ usesList idx
  | .arrayindex _ base idx => usesList idx ++ symbolUses m base
  | .histindex _ _ stat idx => usesList idx ++ stat.uses m
  | .functioncall _ f es => usesList es ++ [.call f]
  | .printFormat _ f es => (if f.printToStream then [.embedded] else []) ++ usesList es
  | .printHist _ f _ stat => (if f.printToStream then [.embedded] else []) ++ stat.uses .none

def usesList : List Expr → List Use
  | [] => []
  | e :: es => e.uses .none ++ usesList es

end

def usesMaybe : Option Expr → List Use
  | none => []
  | some e => e.uses .none

def usesIndexes (idx : List Symbol) : List Use := idx.map fun s => .write s.referent

mutual

/-- What the visitor notes in a statement, calls not yet followed. -/
def Stmt.uses : Stmt → List Use
  | .block ss => usesBlock ss
  | .tryBlock body var handler =>
    usesOpt body ++ usesIndexes var.toList ++ usesOpt handler
  | .embeddedcode code => if isPure code then [] else [.embedded]
  | .null | .next | .breakStmt | .continueStmt => []
  | .expr e | .returnStmt e => e.uses .none
  | .ifStmt e t f => e.uses .none ++ t.uses ++ usesOpt f
  | .forLoop init cond incr body =>
    usesMaybe init ++ cond.uses .none ++ usesMaybe incr ++ body.uses
  | .foreachLoop idx base sort limit body =>
    -- a sorted loop writes the array as well
    [.read base] ++ (if sort.isSome then [.write base] else []) ++ usesIndexes idx ++
      usesMaybe limit ++ body.uses
  | .foreachHist idx _ stat limit body =>
    stat.uses .none ++ usesIndexes idx ++ usesMaybe limit ++ body.uses
  | .deleteStmt e => e.uses .lrvalue

def usesOpt : Option Stmt → List Use
  | none => []
  | some s => s.uses

def usesBlock : List Stmt → List Use
  | [] => []
  | s :: ss => s.uses ++ usesBlock ss

end

/-- The function an item calls. -/
def Use.callee : Use → Option FnId
  | .call f => some f
  | _ => none

namespace Session

/-- What the body of a function notes. -/
def fnUses (s : Session) (f : FnId) : List Use :=
  match s.functions[f]? with
  | some fd => fd.body.uses
  | none => []

/-- Everything the visitor notes from a start, with calls followed. -/
def varuse (s : Session) (start : List Use) : List Use :=
  (explore s.fnUses Use.callee (s.functions.length + 1) start ⟨[], []⟩).seen

/-- **The collected uses hold their start and what every called function uses.** -/
theorem varuse_spec (s : Session) (start : List Use) :
    start ⊆ s.varuse start ∧ ∀ f, .call f ∈ s.varuse start → s.fnUses f ⊆ s.varuse start := by
  have hnodes : ∀ f, f ∉ List.range s.functions.length → s.fnUses f = [] := by
    intro f hf
    rw [List.mem_range] at hf
    unfold fnUses
    rw [List.getElem?_eq_none (Nat.le_of_not_lt hf)]
  have h := @explore_spec _ _ s.fnUses Use.callee _ _ hnodes start
  rw [List.length_range] at h
  exact ⟨h.1, fun f hf => h.2 _ hf f rfl⟩

/-- Nothing is collected that need not be. -/
theorem varuse_subset (s : Session) {start us : List Use} (hstart : start ⊆ us)
    (hclosed : ∀ f, .call f ∈ us → s.fnUses f ⊆ us) : s.varuse start ⊆ us := by
  intro u hu
  refine explore_subset (X := {u | u ∈ us}) (fun i hi f hf => ?_) _ start ⟨[], []⟩
    (fun _ h => hstart h) nofun u hu
  cases i with
  | call g =>
    obtain rfl : g = f := Option.some.inj hf
    exact fun j hj => hclosed g hi hj
  | read | write | embedded => exact nomatch hf

/-- `varuse_collecting_visitor::side_effect_free`. -/
def sideEffectFree (s : Session) (start : List Use) : Bool :=
  (s.varuse start).all fun u =>
    match u with
    | .write _ | .embedded => false
    | _ => true

/-- `varuse_collecting_visitor::side_effect_free_wrt`. -/
def sideEffectFreeWrt (s : Session) (vars : Var → Bool) (start : List Use) : Bool :=
  (s.varuse start).all fun u =>
    match u with
    | .write v => !vars v
    | .embedded => false
    | _ => true

end Session

end Systemtap.Tree
