import Systemtap.Tree.Syntax

/-!
# String literals on their way to C

A `literal_string` keeps the spelling of the script: the lexer passes the
escapes `\a \b \t \n \v \f \r \\` and `\0 .. \7` through unread, and
`c_unparser::visit_literal_string` writes that spelling into the C file
between double quotes, escaping only a double quote. What the string *is* is
decided by the C compiler. This file models the two steps: what is emitted,
and how C reads it.

C reads an octal escape greedily, one to three digits, so the reader needs a
state between bytes: `CState.octal n v` stands after `n` digits that have
the value `v` so far. `cRead` is a transducer over that state, and
`cRun_append` says where reading may be cut in two.

At run time a string is a buffer that ends at its first zero byte, and
`strncmp` looks at `n` bytes of two of them, as unsigned.
-/

namespace Systemtap.Lex

open Systemtap.Tree

def backslash : UInt8 := 92
def quote : UInt8 := 34
def newline : UInt8 := 10

def isOctal (c : UInt8) : Bool := 48 ≤ c && c ≤ 55

def octalDigit (c : UInt8) : Nat := c.toNat - 48

/-- `c_unparser::visit_literal_string`, less the quotes around it. -/
def visitLiteralString (v : Str) : Str :=
  v.flatMap fun c => if c = quote then [backslash, quote] else [c]

/-- The C escapes of one letter that reach the C file. -/
def cEscape (c : UInt8) : Option UInt8 :=
  match c.toNat with
  | 97 => some 7     -- \a
  | 98 => some 8     -- \b
  | 116 => some 9    -- \t
  | 110 => some 10   -- \n
  | 118 => some 11   -- \v
  | 102 => some 12   -- \f
  | 114 => some 13   -- \r
  | 92 => some 92    -- \\
  | 34 => some 34    -- \"
  | _ => none

/-- Where the C compiler stands inside a literal. -/
inductive CState where
  | plain
  | escape
  | octal (digits value : Nat)
deriving DecidableEq, Repr

/-- Read one byte between escapes: a bare quote would end the literal and a
bare line end is refused, so neither is a byte of it. -/
def cPlain (c : UInt8) : Option (Str × CState) :=
  if c = backslash then some ([], .escape)
  else if c = quote ∨ c = newline then none
  else some ([c], .plain)

/-- One byte of the literal: what it yields and the state after it. -/
def cStep : CState → UInt8 → Option (Str × CState)
  | .plain, c => cPlain c
  | .escape, c =>
    if isOctal c then some ([], .octal 1 (octalDigit c))
    else (cEscape c).map fun b => ([b], .plain)
  | .octal n v, c =>
    if n < 3 ∧ isOctal c then some ([], .octal (n + 1) (v * 8 + octalDigit c))
    else (cPlain c).map fun r => (UInt8.ofNat v :: r.1, r.2)

/-- The closing quote. -/
def cFinish : CState → Option Str
  | .plain => some []
  | .escape => none
  | .octal _ v => some [UInt8.ofNat v]

/-- The bytes of the rest of a literal; `none` when C refuses it. -/
def cRead : CState → Str → Option Str
  | q, [] => cFinish q
  | q, c :: cs => do
    let (o, q') ← cStep q c
    let r ← cRead q' cs
    pure (o ++ r)

/-- What the emitted literal denotes in C. -/
def decode (v : Str) : Option Str := cRead .plain (visitLiteralString v)

/-- A buffer as C's string functions see it: up to the first zero byte. -/
def cString (bytes : Str) : Str := bytes.takeWhile (· ≠ 0)

/-- `strncmp` over at most `n` bytes; past its end a list reads as zero. -/
def strncmp : Nat → Str → Str → Ordering
  | 0, _, _ => .eq
  | n + 1, a, b =>
    if a.headD 0 = b.headD 0 then
      if a.headD 0 = 0 then .eq else strncmp n a.tail b.tail
    else if a.headD 0 < b.headD 0 then .lt else .gt

/-- The truth of a comparison, from the sign of `strncmp` or of a subtraction. -/
def holds : CmpOp → Ordering → Bool
  | .eq, o => o == .eq
  | .ne, o => o != .eq
  | .lt, o => o == .lt
  | .gt, o => o == .gt
  | .le, o => o != .gt
  | .ge, o => o != .lt

end Systemtap.Lex
