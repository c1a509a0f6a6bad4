import Systemtap.Sem.Prim

/-!
# Running a script

`eval` and `exec` give the expressions and statements of a script the meaning
of the C that `c_unparser` emits for them, operands from left to right.

* A statement ends normally, or asks the nearest loop to stop or go on
  (`Ctl`). `return` and `next` are the emitted `goto out`, and so is every
  error: inside a `try` the label is the one of the `try`, which is why its
  catch block also runs after a `return` in the body.
* A `foreach` over an array walks the list of nodes as it is now, by the node
  it stands on; one over an array of statistics walks the aggregate it made
  before it began. A `foreach` over a histogram is a C `for` over the bucket
  variable itself, and `break` and `continue` in it mean the loop around it.
* What the translator refuses has no meaning: an array that is no global, a
  histogram bucket that is assigned to.
* Loops have fuel, calls have `MAXNESTING`: the one bounds what the model
  looks at, the other is in the code.
-/

namespace Systemtap.Sem

open Systemtap.Tree Systemtap.Lex Lib Run

variable {W : Type}

/-! ## Expressions -/

mutual

/-- The value of an expression. -/
def eval (c : Ctx W) : Expr → M W Value
  | .literalString _ v => literal v
  | .literalNumber _ n => pure (.long n)
  | .binary _ op l r => do
    let a ← eval c l
    let b ← eval c r
    binaryOp op a b
  | .logicalOr _ l r => do
    let x ← eval c l >>= asLong
    if x ≠ 0 then pure (.ofBool true)
    else do
      let y ← eval c r >>= asLong
      pure (.ofBool (y ≠ 0))
  | .logicalAnd _ l r => do
    let x ← eval c l >>= asLong
    if x ≠ 0 then do
      let y ← eval c r >>= asLong
      pure (.ofBool (y ≠ 0))
    else pure (.ofBool false)
  | .comparison _ op l r => do
    let a ← eval c l
    let b ← eval c r
    comparisonOp op a b
  | .concatenation _ l r => do
    let a ← eval c l
    let b ← eval c r
    concatenationOp a b
  | .unary _ op e => do
    let a ← eval c e
    unaryOp op a
  | .crement _ post op e => do
    let p ← place c e
    crementOp c post op p
  | .arrayIn _ e =>
    -- `x in @hist(..)` is the bucket itself
    if e.isHist then eval c e
    else do
      let p ← place c e
      arrayInOp p
  | .ternary _ e t f => do
    let x ← eval c e >>= asLong
    if x ≠ 0 then eval c t else eval c f
  | .assignment _ op l r => do
    let p ← place c l
    let v ← eval c r
    assignOp c op p v
  | .symbol s => readVar s.referent
  | .targetSymbol _ t idx => do
    let args ← evalArgs c idx
    load c (.target t args)
  | .castOp _ t e idx => do
    let v ← eval c e
    let args ← evalArgs c idx
    load c (.target t (v :: args))
  | .definedOp _ _ => pure (.long 0)
  | .arrayindex _ base idx =>
    match base with
    | .global a => do
      let args ← evalArgs c idx
      load c (.elem a args)
    | .loc _ => halt
  | .histindex _ _ stat idx => do
    let args ← evalArgs c idx
    let p ← place c stat
    let agg ← loadAggregate c p
    bucketOp c args agg
  | .functioncall _ f es => do
    let args ← evalArgs c es
    c.call f c.iter args
  | .printFormat _ f es => do
    let args ← evalArgs c es
    printOp c f args
  | .printHist _ f h stat => do
    let p ← place c stat
    let agg ← loadAggregate c p
    printHistOp c f h agg.2
  | .statOp _ ctype stat => do
    let p ← place c stat
    let agg ← loadAggregate c p
    statOp ctype agg.2

/-- What an expression stands for on the left of an assignment, under `++` and
`--`, in `delete`, or as the operand of a statistic. -/
def place (c : Ctx W) : Expr → M W Place
  | .symbol s => pure (.var s.referent)
  | .arrayindex _ base idx =>
    match base with
    | .global a => do
      let args ← evalArgs c idx
      pure (.elem a args)
    | .loc _ => halt
  | .targetSymbol _ t idx => do
    let args ← evalArgs c idx
    pure (.target t args)
  | .castOp _ t e idx => do
    let v ← eval c e
    let args ← evalArgs c idx
    pure (.target t (v :: args))
  | _ => halt

/-- Arguments and indexes, from left to right. -/
def evalArgs (c : Ctx W) : List Expr → M W (List Value)
  | [] => pure []
  | e :: es => do
    let v ← eval c e
    let vs ← evalArgs c es
    pure (v :: vs)

end

/-! ## Loops -/

/-- How a statement ends that does not leave the handler. -/
inductive Ctl where
  | norm | brk | cont
deriving DecidableEq

/-- One round of `c_unparser::visit_for_loop`. -/
def forStep (cond : M W Value) (incr : M W Ctl) (body : M W Ctl) : Unit → M W (Unit ⊕ Ctl) :=
  fun _ => do
    let x ← cond >>= asLong
    if x ≠ 0 then do
      let r ← body
      match r with
      | .brk => pure (.inr .norm)
      | _ => do
        let _ ← incr
        pure (.inl ())
    else pure (.inr .norm)

/-- The limit counter has reached its limit. -/
def limitReached (limit : Option I64) (n : I64) : Bool :=
  match limit with
  | some l => l.sle n
  | none => false

/-- Copy the keys of a node into the index variables. -/
def assignIndexes : List Symbol → List Value → M W Unit
  | s :: ss, x :: xs => do
    writeVar s.referent x
    assignIndexes ss xs
  | _, _ => pure ()

/-- The node after the one with these keys, or `none` past the end. A node that
is gone has no next one. -/
def nextKey {β : Type} (keys : List Value) : List (List Value × β) → Option (Option (List Value))
  | [] => none
  | e :: es => if e.1 = keys then some (es.head?.map Prod.fst) else nextKey keys es

/-- `_stp_map_iter` on an array of values. -/
def mapIter (a : Nat) (keys : List Value) : M W (Option (List Value)) := do
  match ← readGlobal a with
  | .array _ es => ofOption (nextKey keys es)
  | _ => halt

/-- One round of `c_unparser::visit_foreach_loop` over an array. `next` moves
the cursor on; its head is the node the loop stands on. -/
def foreachStep {κ : Type} (idx : List Symbol) (limit : Option I64) (key : κ → Option (List Value))
    (next : κ → M W κ) (body : M W Ctl) : κ × I64 → M W ((κ × I64) ⊕ Ctl) := fun st =>
  match key st.1 with
  | none => pure (.inr .norm)
  | some keys =>
    if limitReached limit st.2 then pure (.inr .norm)
    else do
      assignIndexes idx keys
      let r ← body
      match r with
      | .brk => pure (.inr .norm)
      | _ => do
        let k ← next st.1
        pure (.inl (k, st.2 + 1))

/-- Move to the next node of the list as it is now. -/
def nextLive (a : Nat) : Option (List Value) → M W (Option (List Value))
  | some keys => mapIter a keys
  | none => pure none

/-- Move to the next node of an aggregate. -/
def nextSnap : List (List Value × List I64) → M W (List (List Value × List I64)) :=
  fun es => pure es.tail

/-- Sort the nodes of an array before the loop, where the script asks for it. -/
def sortNodes (c : Ctx W) (a : Nat) (sort : Option SortOrder) (limit : Option I64) (d : Value)
    (es : List (List Value × Value)) : M W (List (List Value × Value)) :=
  match sort with
  | none => pure es
  | some o => do
    noteMutation c a .reorder
    setGlobal a (.array d (c.rt.sort o limit es))
    pure (c.rt.sort o limit es)

/-- Enter the body of a loop over `a`. -/
def Ctx.entering (c : Ctx W) (a : Nat) : Ctx W := { c with iter := (a, 0) :: c.iter }

/-- Enter the body of a loop over an array of statistics. -/
def Ctx.aggregating (c : Ctx W) (a : Nat) (es : List (List Value × List I64)) : Ctx W :=
  { c with iter := (a, 0) :: c.iter, agg := (a, es) :: c.agg }

/-- `c_unparser::visit_foreach_loop` over an array, after its limit. Making the
aggregate of an array of statistics rebuilds its list of nodes. -/
def foreachOp (c : Ctx W) (idx : List Symbol) (base : Var) (sort : Option SortOrder)
    (limit : Option I64) (body : Ctx W → M W Ctl) : M W Ctl :=
  match base with
  | .loc _ => halt
  | .global a => do
    match ← readGlobal a with
    | .array d es => do
      let es ← sortNodes c a sort limit d es
      iterate (foreachStep idx limit id (nextLive a) (body (c.entering a))) c.fuel
        (es.head?.map Prod.fst, 0)
    | .statArray es =>
      match c.rt.aggregate es with
      | none => raise (message "aggregation overflow")
      | some es => do
        noteMutation c a .reorder
        let es := match sort with
          | some o => c.rt.sortStat o limit es
          | none => es
        iterate (foreachStep idx limit (fun l => l.head?.map Prod.fst) nextSnap
          (body (c.aggregating a es))) c.fuel (es, 0)
    | _ => halt

/-- One round of the loop over the buckets of a histogram. -/
def foreachHistStep (b : Var) (limit : Option I64) (buckets : I64) (body : M W Ctl) :
    I64 → M W (I64 ⊕ Ctl) := fun n => do
  let x ← readVar b >>= asLong
  if x.slt buckets then
    if limitReached limit n then pure (.inr .norm)
    else do
      let r ← body
      match r with
      | .norm => do
        let y ← readVar b >>= asLong
        writeVar b (.long (y + 1))
        pure (.inl (n + 1))
      | r => pure (.inr r)
  else pure (.inr .norm)

/-- `c_unparser::visit_foreach_loop` over a histogram, after its limit. -/
def foreachHistOp (c : Ctx W) (idx : List Symbol) (agg : Nat × Option (List I64))
    (limit : Option I64) (body : M W Ctl) : M W Ctl :=
  match idx with
  | [b] => do
    writeVar b.referent (.long 0)
    iterate (foreachHistStep b.referent limit (c.rt.buckets agg.1) body) c.fuel 0
  | _ => halt

/-! ## Statements -/

def readError : M W (Option CStr) := read fun s => s.lastError

def clearError : M W Unit := update fun s => { s with lastError := none }

/-- Copy the message into the variable of a `catch`. There is none to copy
after a `return`. -/
def copyError : Option Symbol → Option CStr → M W Unit
  | some s, some m => writeVar s.referent (.str m)
  | some _, none => halt
  | none, _ => pure ()

/-- After the body of a `try` has left by `goto out`: copy the message, clear
it, run the catch block. -/
def catchOp (catchVar : Option Symbol) (handler : M W Ctl) : M W Ctl := do
  let m ← readError
  copyError catchVar m
  clearError
  handler

/-- The body of a `try` ended: normally, unless embedded C left a message. -/
def tryEnd (r : Ctl) : M W Ctl := do
  let m ← readError
  match r, m with
  | .norm, some _ => out
  | r, _ => pure r

/-- `l->__retvalue = v` -/
def setRet (v : Value) : M W Unit := update fun s => { s with ret := v }

def evalLimit (c : Ctx W) : Option Expr → M W (Option I64)
  | none => pure none
  | some e => do
    let n ← eval c e >>= asLong
    pure (some n)

/-- An `expr_statement`, or none: the value is not used. -/
def evalVoid (c : Ctx W) : Option Expr → M W Ctl
  | none => pure .norm
  | some e => do
    let _ ← eval c e
    pure .norm

mutual

def exec (c : Ctx W) : Stmt → M W Ctl
  | .block ss => execBlock c ss
  | .tryBlock body var handler =>
    onOut (execOpt c body >>= tryEnd) (catchOp var (execOpt c handler))
  | .embeddedcode code => do
    embeddedOp c code
    pure .norm
  | .null => pure .norm
  | .expr e => evalVoid c (some e)
  | .ifStmt e t f => do
    let x ← eval c e >>= asLong
    if x ≠ 0 then exec c t else execOpt c f
  | .forLoop init cond incr body => do
    let _ ← evalVoid c init
    iterate (forStep (eval c cond) (evalVoid c incr) (exec c body)) c.fuel ()
  | .foreachLoop idx base sort limit body => do
    let l ← evalLimit c limit
    foreachOp c idx base sort l (fun c' => exec c' body)
  | .foreachHist idx _ stat limit body => do
    let p ← place c stat
    let agg ← loadAggregate c p
    let l ← evalLimit c limit
    foreachHistOp c idx agg l (exec c body)
  | .returnStmt e => do
    let v ← eval c e
    setRet v
    out
  | .deleteStmt e => do
    let p ← place c e
    deletePlace c p
    pure .norm
  | .next => out
  | .breakStmt => pure .brk
  | .continueStmt => pure .cont

/-- A statement that may be missing. -/
def execOpt (c : Ctx W) : Option Stmt → M W Ctl
  | none => pure .norm
  | some s => exec c s

/-- Statements in order, until one asks for something else. -/
def execBlock (c : Ctx W) : List Stmt → M W Ctl
  | [] => pure .norm
  | s :: ss => do
    let r ← exec c s
    match r with
    | .norm => execBlock c ss
    | r => pure r

end

/-! ## Functions and probes -/

/-- The locals of a function or probe when it starts. -/
def initFrame (sess : Session) : Nat → Value := fun k => Value.init (sess.locType k)

/-- Copy the arguments into the formals. -/
def bindFormals : List Nat → List Value → (Nat → Value) → Nat → Value
  | k :: ks, x :: xs, f => bindFormals ks xs (Function.update f k x)
  | _, _, f => f

/-- The end of an emitted function: `out:` is reached either way, and the
caller looks at `last_error`. -/
def finishCall (body : M W Ctl) : M W Value := do
  let _ ← onOut body (pure .norm)
  let m ← readError
  match m with
  | some _ => out
  | none => read fun s => s.ret

/-- A call, with `n` levels left below `MAXNESTING`. -/
def callFn (sess : Session) (rt : Runtime W) (fuel : Nat) :
    Nat → FnId → List (Nat × Nat) → List Value → M W Value
  | 0, _, _, _ => raise (message "MAXNESTING exceeded")
  | n + 1, f, iter, args =>
    match sess.functions[f]? with
    | none => halt
    | some fd =>
      if args.length = fd.formalArgs.length then
        inScope
          (fun s => { s with
            frame := bindFormals fd.formalArgs args (initFrame sess), ret := Value.init fd.type })
          (fun s s' => { s' with frame := s.frame, ret := s.ret })
          Event.leavesCall
          (finishCall (exec
            { rt, call := callFn sess rt fuel n, fuel, iter := iter.map fun p => (p.1, p.2 + 1),
              agg := [], formals := fd.formalArgs } fd.body))
      else halt

/-- The context in which the body of a probe runs. -/
def probeCtx (sess : Session) (rt : Runtime W) (fuel nesting : Nat) : Ctx W :=
  { rt, call := callFn sess rt fuel nesting, fuel, iter := [], agg := [], formals := [] }

/-- The state in which a probe handler starts. -/
def startState (sess : Session) (globals : Nat → Global) (world : W) : State W :=
  { globals, world, frame := initFrame sess, ret := .long 0, lastError := none }

/-- A probe handler: `out:` is its end. -/
def runProbe (sess : Session) (rt : Runtime W) (fuel nesting : Nat) (p : Probe) : M W Ctl :=
  onOut (exec (probeCtx sess rt fuel nesting) p.body) (pure .norm)

end Systemtap.Sem
