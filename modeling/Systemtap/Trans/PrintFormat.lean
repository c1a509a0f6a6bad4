import Systemtap.Lex.Decode
import Systemtap.Runtime.FormatItems

/-!
# Format strings

A format string of the script is taken apart by `print_format::string_to_components` and written into
the C file by `components_to_string`. There the C compiler reads it as a string literal, and at run
time `_stp_vsnprintf` takes it apart again. `Element` is what both ends are asked for: a literal byte,
or a conversion with its flags, its width and its precision.

A literal stays spelled as in the script all the way, so an escape is read by the C compiler, after
`components_to_string` has doubled the `%`. A width or a precision is a C `unsigned` on the way and a C
`int` at the end, and zero is not written out.
-/

namespace Systemtap.Trans

open Systemtap.Tree Systemtap.Lex Systemtap.Runtime

/-! ## Components -/

/-- `conversion_type` -/
inductive ConvType where
  | binary
  | char
  | signedDecimal
  | unsignedDecimal
  | unsignedOctal
  | unsignedPtr
  | unsignedUppercaseHex
  | unsignedLowercaseHex
  | string
  | memory
  | memoryHex
deriving DecidableEq, Repr

/-- `format_flag` -/
structure FormatFlags where
  zeropad : Bool
  plus : Bool
  space : Bool
  left : Bool
  special : Bool
deriving DecidableEq, Repr

def FormatFlags.none : FormatFlags := ⟨false, false, false, false, false⟩

/-- A `format_component` other than a literal. -/
structure Conversion (α : Type) where
  flags : FormatFlags
  width : FormatField α
  precision : FormatField α
  type : ConvType
deriving DecidableEq, Repr

def Conversion.map {α β : Type} (f : α → β) (c : Conversion α) : Conversion β :=
  ⟨c.flags, c.width.map f, c.precision.map f, c.type⟩

/-- `format_component` -/
inductive Component (α : Type) where
  | literal (s : Str)
  | conversion (c : Conversion α)
deriving DecidableEq, Repr

def Component.map {α β : Type} (f : α → β) : Component α → Component β
  | .literal s => .literal s
  | .conversion c => .conversion (c.map f)

/-! ## From the string -/

inductive FormatError where
  /-- "invalid or missing conversion specifier" -/
  | invalid
  /-- "trailing incomplete print format conversion" -/
  | trailing
  /-- A `%` is the last byte, and the iterator is moved past the end. -/
  | pastEnd
deriving DecidableEq, Repr

/-- One flag, if there is one. -/
def takeFlag : Str → FormatFlags × Str
  | [] => (.none, [])
  | c :: s =>
    if c = chr '0' then ({ FormatFlags.none with zeropad := true }, s)
    else if c = chr '+' then ({ FormatFlags.none with plus := true }, s)
    else if c = chr '-' then ({ FormatFlags.none with left := true }, s)
    else if c = chr ' ' then ({ FormatFlags.none with space := true }, s)
    else if c = chr '#' then ({ FormatFlags.none with special := true }, s)
    else (.none, c :: s)

/-- The optional width, as the digits of it. -/
def takeWidthDigits (s : Str) : FormatField Str × Str :=
  match s with
  | [] => (.unspecified, [])
  | c :: rest =>
    if c = chr '*' then (.dynamic, rest)
    else if isdigit c then (.static (s.takeWhile isdigit), s.dropWhile isdigit)
    else (.unspecified, s)

/-- The optional precision. -/
def takePrecisionDigits (s : Str) : FormatField Str × Str :=
  match s with
  | [] => (.unspecified, [])
  | c :: rest => if c = chr '.' then takeWidthDigits rest else (.unspecified, s)

/-- The conversion specifier. -/
def takeType (c : UInt8) : Option ConvType :=
  if c = chr 'b' then some .binary
  else if c = chr 'c' then some .char
  else if c = chr 's' then some .string
  else if c = chr 'm' then some .memory
  else if c = chr 'M' then some .memoryHex
  else if c = chr 'd' ∨ c = chr 'i' then some .signedDecimal
  else if c = chr 'o' then some .unsignedOctal
  else if c = chr 'u' then some .unsignedDecimal
  else if c = chr 'p' then some .unsignedPtr
  else if c = chr 'X' then some .unsignedUppercaseHex
  else if c = chr 'x' then some .unsignedLowercaseHex
  else none

/-- What follows a `%`. If the string ends there, nothing is wrong as long as `curr` is empty. -/
def takeConversion (s : Str) : Except FormatError (Option (Conversion Str) × Str) :=
  let f := takeFlag s
  let w := takeWidthDigits f.2
  let p := takePrecisionDigits w.2
  match p.2 with
  | [] =>
    if f.1 = .none ∧ w.1 = .unspecified ∧ p.1 = .unspecified then .ok (none, []) else .error .trailing
  | c :: rest =>
    match takeType c with
    | none => .error .invalid
    | some t => .ok (some ⟨f.1, w.1, p.1, t⟩, rest)

/-- `res.push_back(curr)` for a literal, if there is one -/
def flushLiteral {α : Type} (lit : Str) : List (Component α) := if lit = [] then [] else [.literal lit]

/-- The loop of `string_to_components`, with the literal so far. -/
def componentsLoop : Nat → Str → Str → Except FormatError (List (Component Str))
  | 0, lit, _ => .ok (flushLiteral lit)
  | _ + 1, lit, [] => .ok (flushLiteral lit)
  | fuel + 1, lit, c :: s =>
    if c ≠ chr '%' then componentsLoop fuel (lit ++ [c]) s
    else
      match s with
      | [] => .error .pastEnd
      | d :: s' =>
        if d = chr '%' then componentsLoop fuel (lit ++ [chr '%']) s'
        else
          match takeConversion s with
          | .error e => .error e
          | .ok (none, _) => .ok (flushLiteral lit)
          | .ok (some c, rest) => do
            let cs ← componentsLoop fuel [] rest
            return flushLiteral lit ++ .conversion c :: cs

/-- The components of a format string, with their numbers as digits. -/
def digitComponents (v : Str) : Except FormatError (List (Component Str)) :=
  componentsLoop v.length [] v

/-- The number that digits spell. -/
def natValue (digits : Str) : Nat := digits.foldl (fun n d => n * 10 + (d.toNat - 48)) 0

/-- The number as the loop computes it, in an `unsigned`. -/
def unsignedValue (digits : Str) : Nat :=
  digits.foldl (fun n d => (n * 10 + (d.toNat - 48)) % 2 ^ 32) 0

/-- `print_format::string_to_components` -/
def stringToComponents (v : Str) : Except FormatError (List (Component Nat)) :=
  (digitComponents v).map fun cs => cs.map (Component.map unsignedValue)

/-! ## To the C file -/

/-- A literal in the C file. -/
def literalToString (s : Str) : Str :=
  s.flatMap fun c =>
    if c = chr '%' then [chr '%', chr '%'] else if c = quote then [backslash, quote] else [c]

def FormatFlags.toStr (f : FormatFlags) : Str :=
  (if f.zeropad then [chr '0'] else []) ++ (if f.plus then [chr '+'] else []) ++
    (if f.space then [chr ' '] else []) ++ (if f.left then [chr '-'] else []) ++
    (if f.special then [chr '#'] else [])

/-- `oss << n` -/
def decimal (n : Nat) : Str := (Nat.digits 10 n).reverse.map fun d => UInt8.ofNat (48 + d)

def widthToString : FormatField Nat → Str
  | .unspecified => []
  | .static n => if 0 < n then decimal n else []
  | .dynamic => [chr '*']

def precisionToString : FormatField Nat → Str
  | .unspecified => []
  | .static n => if 0 < n then chr '.' :: decimal n else []
  | .dynamic => [chr '.', chr '*']

def ConvType.toStr : ConvType → Str
  | .binary => [chr 'b']
  | .char => [chr 'l', chr 'l', chr 'c']
  | .signedDecimal => [chr 'l', chr 'l', chr 'd']
  | .unsignedDecimal => [chr 'l', chr 'l', chr 'u']
  | .unsignedOctal => [chr 'l', chr 'l', chr 'o']
  | .unsignedPtr => [chr 'p']
  | .unsignedUppercaseHex => [chr 'l', chr 'l', chr 'X']
  | .unsignedLowercaseHex => [chr 'l', chr 'l', chr 'x']
  | .string => [chr 's']
  | .memory => [chr 'm']
  | .memoryHex => [chr 'M']

/-- A conversion in the C file, after its `%`. -/
def Conversion.toStr (c : Conversion Nat) : Str :=
  c.flags.toStr ++ (widthToString c.width ++ (precisionToString c.precision ++ c.type.toStr))

def Component.toStr : Component Nat → Str
  | .literal s => literalToString s
  | .conversion c => chr '%' :: c.toStr

/-- `print_format::components_to_string` -/
def componentsToString (cs : List (Component Nat)) : Str := cs.flatMap Component.toStr

/-! ## What a format asks for -/

inductive Element where
  | byte (c : UInt8)
  | conversion (c : Conversion Int)
  /-- A directive that the script does not have: of an unknown type, or not of 64 bits. -/
  | other
deriving DecidableEq

/-- A component of the script. The bytes of a literal are what its spelling denotes. -/
def Component.elements : Component Str → Option (List Element)
  | .literal s => (decode s).map (·.map .byte)
  | .conversion c => some [.conversion (c.map fun digits => (natValue digits : Int))]

/-- All components of the script. -/
def allElements : List (Component Str) → Option (List Element)
  | [] => some []
  | c :: cs => do
    let es ← c.elements
    let rest ← allElements cs
    return es ++ rest

/-- The type of a directive at run time. -/
def runType (q : Qualifier) (c : UInt8) : Option ConvType :=
  if c = chr 'b' then some .binary
  else if c = chr 's' then some .string
  else if c = chr 'M' then some .memoryHex
  else if c = chr 'm' then some .memory
  else if c = chr 'p' then some .unsignedPtr
  else if c = chr 'c' then some .char
  else if q = .L then
    if c = chr 'X' then some .unsignedUppercaseHex
    else if c = chr 'x' then some .unsignedLowercaseHex
    else if c = chr 'd' ∨ c = chr 'i' then some .signedDecimal
    else if c = chr 'u' then some .unsignedDecimal
    else if c = chr 'o' then some .unsignedOctal
    else none
  else none

/-- An item of the run time. -/
def itemElement : Item → Element
  | .byte c => .byte c
  | .directive s c =>
    if c = chr '%' then .byte c
    else
      match runType s.qualifier c with
      | none => .other
      | some t =>
        .conversion ⟨⟨s.flags.zeropad, s.flags.plus, s.flags.space, s.flags.left, s.flags.special⟩,
          s.width.map BitVec.toInt, s.precision.map BitVec.toInt, t⟩
  | .unfinished _ => .other

/-- What the run time finds in the C literal. -/
def runElements (literal : Str) : Option (List Element) :=
  (cRead .plain literal).map fun fmt => (items fmt).map itemElement

/-- What the script asks for. -/
def scriptElements (v : Str) : Option (List Element) :=
  match digitComponents v with
  | .ok cs => allElements cs
  | .error _ => none

/-- The format string, if it is accepted, asks for the same at both ends. -/
def Survives (v : Str) : Prop :=
  ∀ cs, stringToComponents v = .ok cs →
    ∃ es, scriptElements v = some es ∧ runElements (componentsToString cs) = some es

end Systemtap.Trans
