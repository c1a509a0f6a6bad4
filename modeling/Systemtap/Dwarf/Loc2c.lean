import Mathlib

/-!
# DWARF expressions in C

`translate` of `loc2c.c` turns a DWARF expression into C. It keeps no values, only the depth of the
stack: the entry at depth `i` is the C variable `s<i>`, of type `uintptr_t`, and an operation becomes an
assignment to the variable its result will be in. A `DW_OP_reg` only notes the register, which is
fetched when an operation pops it.

Beside the translator stand the two machines that it is to bring together: the stack machine of DWARF
(`dwarf`), and C (`exec`), where an operation can also be undefined.

The operations `DW_OP_implicit_value` and `DW_OP_bit_piece` are not here.
-/

namespace Systemtap.Dwarf

abbrev Word : Type := BitVec 64

/-! ## Expressions -/

inductive UnOp where
  | abs
  | neg
  | not
deriving DecidableEq, Repr

inductive BinOp where
  | and
  | minus
  | mod
  | mul
  | or
  | plus
  | shl
  | shr
  | xor
  | le
  | ge
  | eq
  | lt
  | gt
  | ne
  | shra
  | div
deriving DecidableEq, Repr

inductive DwOp where
  | nop
  | dup
  | drop
  | pick (n : Fin 256)
  | overEntry
  | swap
  | rot
  | skip (number : Word)
  | bra
  | deref
  | derefSize (n : Nat)
  | xderef
  | xderefSize (n : Nat)
  | addr (number : Word)
  | lit (n : Fin 32)
  /-- `DW_OP_const1u` to `DW_OP_consts`, with the operand extended to a word. -/
  | const (number : Word)
  | un (op : UnOp)
  | bin (op : BinOp)
  | plusUconst (number : Word)
  /-- `DW_OP_breg0` to `DW_OP_breg31` and `DW_OP_bregx` -/
  | breg (reg : Nat) (offset : Word)
  | fbreg (offset : Word)
  /-- `DW_OP_reg0` to `DW_OP_reg31` and `DW_OP_regx` -/
  | reg (reg : Nat)
  | piece (size : Nat)
  | stackValue
  | callFrameCfa
  | pushObjectAddress
  | unrecognized
deriving DecidableEq, Repr

/-- `Dwarf_Op` -/
structure DwInsn where
  offset : Word
  op : DwOp
deriving DecidableEq, Repr

/-- What the expression starts from. -/
inductive Input where
  | none
  | address
  | value
  | register (reg : Nat)
deriving DecidableEq, Repr

/-! ## C -/

inductive CExpr where
  | slot (i : Nat)
  /-- `fetch_register (reg)` -/
  | fetch (reg : Nat)
  | const (w : Word)
  /-- What `emit_address` writes for an address. -/
  | address (a : Word)
  /-- The variable `addr`. -/
  | input
  | register (reg : Nat) (offset : Word)
  | frameBase (offset : Word)
  | deref (size : Nat) (addr : Nat)
  | xderef (size : Nat) (addr as : Nat)
  | un (op : UnOp) (tos : Nat)
  | bin (op : BinOp) (a b : Nat)
  | plusU (x : Nat) (number : Word)
deriving DecidableEq, Repr

inductive CStmt where
  /-- `s<i> = e` -/
  | assign (i : Nat) (e : CExpr)
  /-- The comment that is left for a `DW_OP_drop`. -/
  | comment (i : Nat)
deriving DecidableEq, Repr

/-- Where a value is found. -/
inductive Located where
  /-- A program that leaves it in `s0`, with the number of slots it declares. -/
  | program (isValue : Bool) (code : List CStmt) (slots : Nat) (usedDeref : Bool)
  | register (reg : Nat)
deriving DecidableEq, Repr

/-! ## The translator -/

inductive Failure where
  /-- "stack underflow" -/
  | underflow
  /-- "operations follow DW_OP_stack_value" -/
  | followsStackValue
  /-- "invalid skip target" -/
  | invalidSkip
  /-- The target of a skip is looked for behind the last operation. -/
  | outOfBounds
  /-- "conditional branches not supported" -/
  | branch
  /-- "DW_OP_fbreg from DW_AT_frame_base" -/
  | fbreg
  /-- "multiple values left on stack" -/
  | multipleValues
  /-- "register value must stand alone in location expression" -/
  | registerNotAlone
  /-- "DW_OP_piece left multiple values on stack" -/
  | pieceMultiple
  /-- "DW_OP_stack_value left multiple values on stack" -/
  | valueMultiple
  /-- "extra operations after last DW_OP_piece" -/
  | extraOperations
  /-- "DW_OP_call_frame_cfa while processing frame base" and "... not expected outside ..." -/
  | callFrameCfa
  /-- "XXX DW_OP_push_object_address" -/
  | pushObjectAddress
  /-- "unrecognized operation" -/
  | unrecognized
deriving DecidableEq, Repr

structure TState where
  stackDepth : Nat
  maxStack : Nat
  tosRegister : Option Nat
  tosValue : Bool
  usedDeref : Bool
  /-- What is on the obstack. -/
  program : List CStmt
  pieces : List (Located × Nat)
  /-- `piece_expr_start` is the next operation. -/
  pieceStart : Bool
deriving DecidableEq, Repr

namespace TState

/-- `emit` -/
def emit (st : TState) (code : List CStmt) : TState := { st with program := st.program ++ code }

/-- `deepen`; the depths are of type `unsigned int`. -/
def deepen (st : TState) : TState :=
  if st.stackDepth = st.maxStack then { st with maxStack := (st.maxStack + 1) % 2 ^ 32 } else st

/-- `PUSH` -/
def raise (st : TState) : TState :=
  { st.deepen with stackDepth := (st.stackDepth + 1) % 2 ^ 32 }

/-- `push` -/
def push (st : TState) (e : CExpr) : TState := st.raise.emit [.assign st.stackDepth e]

/-- `POP`: the slot of the entry that is taken off. -/
def pop (st : TState) : Except Failure (Nat × TState) :=
  if 0 < st.stackDepth then .ok (st.stackDepth - 1, { st with stackDepth := st.stackDepth - 1 })
  else
    match st.tosRegister with
    | none => .error .underflow
    | some reg =>
      let st' := st.deepen.emit [.assign st.stackDepth (.fetch reg)]
      .ok (st.stackDepth, { st' with tosRegister := none })

/-- `STACK` -/
def stack (st : TState) (idx : Int) : Nat := ((st.stackDepth - 1 - idx) % 2 ^ 32).toNat

/-- `op_pick`; `sp` is a `uint_fast8_t`. -/
def pick (st : TState) (sp : Nat) : Except Failure TState :=
  if st.stackDepth ≤ sp then .error .underflow
  else .ok (st.push (.slot (st.stack sp % 2 ^ 8)))

def swap (st : TState) : Except Failure TState :=
  if st.stackDepth < 2 then .error .underflow
  else
    .ok (st.deepen.emit [.assign (st.stack (-1)) (.slot (st.stack 0)),
      .assign (st.stack 0) (.slot (st.stack 1)), .assign (st.stack 1) (.slot (st.stack (-1)))])

def rot (st : TState) : Except Failure TState :=
  if st.stackDepth < 3 then .error .underflow
  else
    .ok (st.deepen.emit [.assign (st.stack (-1)) (.slot (st.stack 0)),
      .assign (st.stack 0) (.slot (st.stack 1)), .assign (st.stack 1) (.slot (st.stack 2)),
      .assign (st.stack 3) (.slot (st.stack (-1)))])

/-- An operation that takes one entry. -/
def unary (st : TState) (e : Nat → CExpr) : Except Failure TState := do
  let (tos, st) ← st.pop
  return st.push (e tos)

/-- An operation that takes two entries, the top one first. -/
def binary (st : TState) (e : Nat → Nat → CExpr) : Except Failure TState := do
  let (b, st) ← st.pop
  let (a, st) ← st.pop
  return st.push (e a b)

def dereferenced (st : TState) : TState := { st with usedDeref := true }

/-- `finish` -/
def finish (st : TState) : Except Failure Located :=
  if 1 < st.stackDepth then .error .multipleValues
  else if st.stackDepth = 1 then .ok (.program st.tosValue st.program st.maxStack st.usedDeref)
  else
    match st.tosRegister with
    | none => .error .underflow
    | some reg => if st.program ≠ [] then .error .registerNotAlone else .ok (.register reg)

/-- What `translate` does after its loop. -/
def locations (st : TState) : Except Failure (List Located) :=
  if st.pieces = [] then st.finish.map ([·])
  else if st.pieceStart then .ok (st.pieces.map Prod.fst)
  else .error .extraOperations

end TState

section Translate

variable (input : Input) (bias : Word) (needFb : Bool)

/-- `reset`, with what does not belong to a piece. The program of the last piece has been taken. -/
def reset (maxStack : Nat) (pieces : List (Located × Nat)) : TState :=
  let st : TState := ⟨0, maxStack, none, false, false, [], pieces, true⟩
  match input with
  | .none => st
  | .address => st.push .input
  | .value => { st.push .input with tosValue := true }
  | .register reg => { st with tosRegister := some reg }

/-- `more_ops` -/
def moreOps : DwOp → Bool
  | .nop | .piece _ => false
  | _ => true

/-- The `switch` over the operation. -/
def translateOp (st : TState) : DwOp → Except Failure TState
  | .nop => .ok st
  | .dup => if st.stackDepth < 1 then .error .underflow else .ok (st.push (.slot (st.stack 0)))
  | .drop => do
    let (ignore, st) ← st.pop
    return st.emit [.comment ignore]
  | .pick n => st.pick n
  | .overEntry => st.pick 1
  | .swap => st.swap
  | .rot => st.rot
  -- the loop over the operations deals with a skip
  | .skip _ => .ok st
  | .bra => .error .branch
  | .deref => (st.unary (.deref 8)).map TState.dereferenced
  | .derefSize n => (st.unary (.deref n)).map TState.dereferenced
  | .xderef => (st.binary fun as addr => .xderef 8 addr as).map TState.dereferenced
  | .xderefSize n => (st.binary fun as addr => .xderef n addr as).map TState.dereferenced
  | .addr number => .ok (st.push (.address (bias + number)))
  | .lit n => .ok (st.push (.const (BitVec.ofNat 64 n)))
  | .const number => .ok (st.push (.const number))
  | .un op => st.unary (.un op)
  | .bin op => st.binary (.bin op)
  | .plusUconst number => st.unary fun x => .plusU x number
  | .breg reg offset => .ok (st.push (.register reg offset))
  | .fbreg offset => if needFb then .ok (st.push (.frameBase offset)) else .error .fbreg
  | .reg reg => .ok { st with tosRegister := some reg }
  | .piece size =>
    if 1 < st.stackDepth then .error .pieceMultiple
    else do
      let piece ← st.finish
      return reset input st.maxStack (st.pieces ++ [(piece, size)])
  | .stackValue =>
    if 1 < st.stackDepth then .error .valueMultiple
    else do
      let (_, st) ← st.pop
      return { st.raise with tosValue := true }
  | .callFrameCfa => .error .callFrameCfa
  | .pushObjectAddress => .error .pushObjectAddress
  | .unrecognized => .error .unrecognized

def DwOp.isPiece : DwOp → Bool
  | .piece _ => true
  | _ => false

/-- One operation, with the check before the `switch`. -/
def translateStep (st : TState) (op : DwOp) : Except Failure TState :=
  if st.tosValue && moreOps op then .error .followsStackValue
  else do
    let st' ← translateOp input bias needFb st op
    return { st' with pieceStart := op.isPiece }

/-- Where a skip goes. -/
def DwInsn.target (insn : DwInsn) : Option Word :=
  match insn.op with
  | .skip number => some (insn.offset + 3 + number)
  | _ => none

/-- The loop over the operations. After a skip, those before its target are passed over. -/
def translateLoop (st : TState) : Option Word → List DwInsn → Except Failure TState
  | none, [] => .ok st
  | some _, [] => .error .outOfBounds
  | skipTo, insn :: rest =>
    match skipTo with
    | some target =>
      if insn.offset < target then translateLoop st skipTo rest
      else if insn.offset ≠ target then .error .invalidSkip
      else do
        let st ← translateStep input bias needFb st insn.op
        translateLoop st insn.target rest
    | none => do
      let st ← translateStep input bias needFb st insn.op
      translateLoop st insn.target rest

/-- `translate`: the pieces of a location, or the location as a whole. -/
def translate (expr : List DwInsn) : Except Failure (List Located) := do
  let st ← translateLoop input bias needFb (reset input 0 []) none expr
  st.locations

end Translate

/-! ## The machine of DWARF -/

/-- What an expression is evaluated in. -/
structure Env where
  reg : Nat → Word
  frameBase : Word
  /-- The bytes at an address, if they can be read. -/
  mem : Nat → Word → Option Word
  /-- The same in an address space. -/
  xmem : Nat → Word → Word → Option Word
  /-- Where an address of the object file is at run time. -/
  address : Word → Word
  /-- The address or value that the expression starts from. -/
  input : Word

def ofBool (b : Bool) : Word := if b then 1 else 0

def UnOp.dwarf : UnOp → Word → Word
  | .abs, v => if v.msb then -v else v
  | .neg, v => -v
  | .not, v => ~~~v

/-- `a` is the former second entry and `b` the former top. -/
def BinOp.dwarf : BinOp → Word → Word → Option Word
  | .and, a, b => some (a &&& b)
  | .minus, a, b => some (a - b)
  | .mod, a, b => if b = 0 then none else some (a.umod b)
  | .mul, a, b => some (a * b)
  | .or, a, b => some (a ||| b)
  | .plus, a, b => some (a + b)
  | .shl, a, b => some (a <<< b.toNat)
  | .shr, a, b => some (a >>> b.toNat)
  | .xor, a, b => some (a ^^^ b)
  | .le, a, b => some (ofBool (a.sle b))
  | .ge, a, b => some (ofBool (b.sle a))
  | .eq, a, b => some (ofBool (a = b))
  | .lt, a, b => some (ofBool (a.slt b))
  | .gt, a, b => some (ofBool (b.slt a))
  | .ne, a, b => some (ofBool (a ≠ b))
  | .shra, a, b => some (a.sshiftRight b.toNat)
  | .div, a, b => if b = 0 then none else some (a.sdiv b)

section Machine

variable (env : Env) (bias : Word)

/-- One operation on a stack with its top first. -/
def dwarfOp : DwOp → List Word → Option (List Word)
  | .nop, s => some s
  | .dup, a :: s => some (a :: a :: s)
  | .drop, _ :: s => some s
  | .pick n, s => s[n.val]?.map (· :: s)
  | .overEntry, a :: b :: s => some (b :: a :: b :: s)
  | .swap, a :: b :: s => some (b :: a :: s)
  | .rot, a :: b :: c :: s => some (b :: c :: a :: s)
  | .skip _, s => some s
  | .deref, a :: s => (env.mem 8 a).map (· :: s)
  | .derefSize n, a :: s => (env.mem n a).map (· :: s)
  | .xderef, a :: as :: s => (env.xmem 8 a as).map (· :: s)
  | .xderefSize n, a :: as :: s => (env.xmem n a as).map (· :: s)
  | .addr number, s => some (env.address (bias + number) :: s)
  | .lit n, s => some (BitVec.ofNat 64 n :: s)
  | .const number, s => some (number :: s)
  | .un op, a :: s => some (op.dwarf a :: s)
  | .bin op, b :: a :: s => (op.dwarf a b).map (· :: s)
  | .plusUconst number, a :: s => some ((a + number) :: s)
  | .breg reg offset, s => some ((env.reg reg + offset) :: s)
  | .fbreg offset, s => some ((env.frameBase + offset) :: s)
  | .reg reg, s => some (env.reg reg :: s)
  | .stackValue, a :: s => some (a :: s)
  | _, _ => none

/-- The stack that an expression starts with. -/
def Input.stack : Input → List Word
  | .none => []
  | .address | .value => [env.input]
  | .register reg => [env.reg reg]

/-- One operation, with the values of the pieces that are complete. -/
def dwarfStep (input : Input) (values s : List Word) : DwOp → Option (List Word × List Word)
  | .piece _ => s.head?.map fun v => (values ++ [v], input.stack env)
  | op => (dwarfOp env bias op s).map fun s' => (values, s')

/-- An expression: the entry on top at each `DW_OP_piece`, or at the end if there is none. A skip goes
forward to an operation. -/
def dwarfLoop (input : Input) (values s : List Word) :
    Option Word → List DwInsn → Option (List Word)
  | _, [] => if values = [] then s.head?.map ([·]) else some values
  | skipTo, insn :: rest =>
    if skipTo.any (insn.offset < ·) then dwarfLoop input values s skipTo rest
    else if skipTo.any (insn.offset ≠ ·) then none
    else
      match dwarfStep env bias input values s insn.op with
      | none => none
      | some (values, s) => dwarfLoop input values s insn.target rest

def dwarf (input : Input) (expr : List DwInsn) : Option (List Word) :=
  dwarfLoop env bias input [] (input.stack env) none expr

end Machine

/-! ## The machine of C -/

/-- The slots, which hold nothing at first. -/
abbrev Slots : Type := Nat → Option Word

/-- An operator of C on `uintptr_t`, if it is defined there. -/
def UnOp.c : UnOp → Word → Word
  -- `op_abs(x)` is `(x < 0 ? -x : x)`, and no `uintptr_t` is negative
  | .abs, v => if v.ult 0 then -v else v
  | .neg, v => -v
  | .not, v => ~~~v

def intMin : Word := BitVec.intMin 64

/-- The operands of `DW_OP_shra` and `DW_OP_div` are cast to `intptr_t`. -/
def BinOp.c : BinOp → Word → Word → Option Word
  | .and, a, b => some (a &&& b)
  | .minus, a, b => some (a - b)
  | .mod, a, b => if b = 0 then none else some (a.umod b)
  | .mul, a, b => some (a * b)
  | .or, a, b => some (a ||| b)
  | .plus, a, b => some (a + b)
  | .shl, a, b => if b.toNat < 64 then some (a <<< b.toNat) else none
  | .shr, a, b => if b.toNat < 64 then some (a >>> b.toNat) else none
  | .xor, a, b => some (a ^^^ b)
  | .le, a, b => some (ofBool (a.ule b))
  | .ge, a, b => some (ofBool (b.ule a))
  | .eq, a, b => some (ofBool (a = b))
  | .lt, a, b => some (ofBool (a.ult b))
  | .gt, a, b => some (ofBool (b.ult a))
  | .ne, a, b => some (ofBool (a ≠ b))
  | .shra, a, b => if b.toNat < 64 then some (a.sshiftRight b.toNat) else none
  | .div, a, b => if b = 0 ∨ (a = intMin ∧ b = -1) then none else some (a.sdiv b)

section Exec

variable (env : Env)

def CExpr.eval (σ : Slots) : CExpr → Option Word
  | .slot i => σ i
  | .fetch reg => some (env.reg reg)
  | .const w => some w
  | .address a => some (env.address a)
  | .input => some env.input
  | .register reg offset => some (env.reg reg + offset)
  | .frameBase offset => some (env.frameBase + offset)
  | .deref size addr => do env.mem size (← σ addr)
  | .xderef size addr as => do env.xmem size (← σ addr) (← σ as)
  | .un op tos => (σ tos).map op.c
  | .bin op a b => do op.c (← σ a) (← σ b)
  | .plusU x number => (σ x).map (· + number)

/-- A statement, with `slots` variables declared. -/
def CStmt.exec (slots : Nat) (σ : Slots) : CStmt → Option Slots
  | .assign i e => if i < slots then (e.eval env σ).map fun v => Function.update σ i (some v) else none
  | .comment _ => some σ

def exec (slots : Nat) : List CStmt → Slots → Option Slots
  | [], σ => some σ
  | c :: code, σ => (c.exec env slots σ).bind (exec slots code)

/-- What is found in a place: `emit_loc_address` takes `s0`, and `emit_loc_register` the register. -/
def Located.value : Located → Option Word
  | .program _ code slots _ => (exec env slots code fun _ => none).bind (· 0)
  | .register reg => some (env.reg reg)

end Exec

/-- If the expression is accepted and has a value, the C code has that value. -/
def Computes (env : Env) (bias : Word) (input : Input) (needFb : Bool) (expr : List DwInsn) : Prop :=
  ∀ locs, translate input bias needFb expr = .ok locs → ∀ values, dwarf env bias input expr = some values →
    locs.map (Located.value env) = values.map some

instance (env : Env) (bias : Word) (input : Input) (needFb : Bool) (expr : List DwInsn) :
    Decidable (Computes env bias input needFb expr) :=
  match hlocs : translate input bias needFb expr, hvalues : dwarf env bias input expr with
  | .ok locs, some values =>
    decidable_of_iff (locs.map (Located.value env) = values.map some) (by simp [Computes, hlocs, hvalues])
  | .error e, _ => isTrue (by simp [Computes, hlocs])
  | _, none => isTrue (by simp [Computes, hvalues])

end Systemtap.Dwarf
