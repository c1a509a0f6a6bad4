import Systemtap.Lex.CString
import Systemtap.Runtime.Flush
import Systemtap.Runtime.Stat

/-!
# Formatted output

`_stp_vsnprintf` of `vsprintf.c` as `_stp_printf` calls it. The format is gone through twice. The
first pass counts the bytes, that many are reserved in the print buffer, and the second pass
writes them. Both passes take the format apart in the same way, which is `pieces` here. They
differ in one thing: the first pass cuts a width or a precision to `STP_BUFFER_SIZE`, and the
second one to the number of bytes that were reserved. That is the `limit` below.

`Piece.output` is what the second pass writes where it has room. The main results are that
`Piece.size` is its length, that `Piece.emit` writes it if there is room (`Piece.emits`), and that
the second limit gives the same text as the first one, `%b` apart.
-/

namespace Systemtap.Runtime

open Systemtap.Tree Systemtap.Lex Function List Nat

/-! ## Taking the format apart -/

/-- `enum print_flag` -/
structure PrintFlags where
  zeropad : Bool
  sign : Bool
  plus : Bool
  space : Bool
  left : Bool
  special : Bool
  large : Bool
  deriving DecidableEq

/-- `flags = 0` -/
def PrintFlags.zero : PrintFlags := ⟨false, false, false, false, false, false, false⟩

/-- The conversion qualifier. -/
inductive Qualifier where
  | none
  | h
  | l
  | L
  deriving DecidableEq

/-- The string an argument points to, and the memory behind its end. -/
structure Pointer where
  bytes : Str
  nonzero : 0 ∉ bytes
  after : Nat → UInt8

/-- The byte at an offset from the pointer. -/
def Pointer.at (p : Pointer) (i : Nat) : UInt8 :=
  if i < p.bytes.length then p.bytes.getD i 0
  else if i = p.bytes.length then 0
  else p.after (i - p.bytes.length - 1)

/-- The string `<NULL>` that is printed for a pointer below `PAGE_SIZE`. -/
def nullPointer (after : Nat → UInt8) : Pointer := ⟨[60, 78, 85, 76, 76, 62], by decide, after⟩

/-- An argument of the call. -/
inductive Arg where
  | int (v : I64)
  | ptr (p : Pointer)
  | null (after : Nat → UInt8)

/-- `va_arg (args, int64_t)` -/
def vaInt64 : List Arg → I64 × List Arg
  | .int v :: args => (v, args)
  | _ :: args => (0, args)
  | [] => (0, [])

/-- `va_arg (args, int)` -/
def vaInt (args : List Arg) : I32 × List Arg := ((vaInt64 args).1.setWidth 32, (vaInt64 args).2)

/-- `va_arg (args, char *)`, and the check for a small address. -/
def vaPointer : List Arg → Pointer × List Arg
  | .ptr p :: args => (p, args)
  | .null after :: args => (nullPointer after, args)
  | .int _ :: args => (nullPointer fun _ => 0, args)
  | [] => (nullPointer fun _ => 0, [])

/-- The byte of a character. -/
def chr (c : Char) : UInt8 := c.toUInt8

/-- The loop at `repeat`. -/
def takeFlags (flags : PrintFlags) : Str → PrintFlags × Str
  | [] => (flags, [])
  | c :: fmt =>
    if c = chr '-' then takeFlags { flags with left := true } fmt
    else if c = chr '+' then takeFlags { flags with plus := true } fmt
    else if c = chr ' ' then takeFlags { flags with space := true } fmt
    else if c = chr '#' then takeFlags { flags with special := true } fmt
    else if c = chr '0' then takeFlags { flags with zeropad := true } fmt
    else (flags, c :: fmt)

/-- `isdigit` -/
def isdigit (c : UInt8) : Bool := chr '0' ≤ c && c ≤ chr '9'

/-- `skip_atoi`, with the number so far -/
def skipAtoi (i : I32) : Str → I32 × Str
  | [] => (i, [])
  | c :: fmt =>
    if isdigit c then skipAtoi (i * 10 + c.toBitVec.setWidth 32 - (chr '0').toBitVec.setWidth 32) fmt
    else (i, c :: fmt)

/-- The field width before it is cut, if there is one. -/
def takeWidth (flags : PrintFlags) (fmt : Str) (args : List Arg) :
    Option I32 × PrintFlags × Str × List Arg :=
  match fmt with
  | [] => (none, flags, [], args)
  | c :: rest =>
    if isdigit c then (some (skipAtoi 0 fmt).1, flags, (skipAtoi 0 fmt).2, args)
    else if c = chr '*' then
      let w := vaInt args
      if w.1.slt 0 then (some (-w.1), { flags with left := true }, rest, w.2)
      else (some w.1, flags, rest, w.2)
    else (none, flags, fmt, args)

/-- The precision before it is cut, if there is one. A lone `.` leaves -1. -/
def takePrecision (fmt : Str) (args : List Arg) : Option I32 × Str × List Arg :=
  match fmt with
  | [] => (none, [], args)
  | c :: rest =>
    if c = chr '.' then
      match rest with
      | [] => (some (-1), [], args)
      | c :: rest' =>
        if isdigit c then (some (skipAtoi 0 rest).1, (skipAtoi 0 rest).2, args)
        else if c = chr '*' then (some (vaInt args).1, rest', (vaInt args).2)
        else (some (-1), rest, args)
    else (none, fmt, args)

/-- The conversion qualifier. -/
def takeQualifier (fmt : Str) : Qualifier × Str :=
  match fmt with
  | [] => (.none, [])
  | c :: rest =>
    if c = chr 'h' then (.h, rest)
    else if c = chr 'l' then
      match rest with
      | [] => (.l, [])
      | c :: rest' => if c = chr 'l' then (.L, rest') else (.l, rest)
    else if c = chr 'L' then (.L, rest)
    else (.none, fmt)

/-- What stands before the conversion character. -/
structure Directive where
  flags : PrintFlags
  width : Option I32
  precision : Option I32
  qualifier : Qualifier

/-- `%s`, `%m` and `%M` -/
inductive TextKind where
  | string
  | memory
  | hex
  deriving DecidableEq

/-- A piece of the output. -/
inductive Piece where
  | byte (c : UInt8)
  | binary (d : Directive) (num : I64)
  | text (d : Directive) (kind : TextKind) (s : Pointer)
  | number (d : Directive) (base : Nat) (num : I64)
  | pointer (d : Directive) (num : I64)
  | char (d : Directive) (c : UInt8)
  | unknown (c : Option UInt8)

/-- The argument of an integer conversion. -/
def vaNumber (d : Directive) (args : List Arg) : I64 × List Arg :=
  let v := vaInt64 args
  match d.qualifier with
  | .L => v
  | .l => v
  | .h => (if d.flags.sign then (v.1.setWidth 16).signExtend 64 else (v.1.setWidth 16).setWidth 64, v.2)
  | .none =>
    (if d.flags.sign then (v.1.setWidth 32).signExtend 64 else (v.1.setWidth 32).setWidth 64, v.2)

/-- An integer conversion with its base and flags set up. -/
def takeNumber (d : Directive) (base : Nat) (args : List Arg) : Piece × List Arg :=
  (.number d base (vaNumber d args).1, (vaNumber d args).2)

/-- A string conversion. -/
def takeText (d : Directive) (kind : TextKind) (args : List Arg) : Piece × List Arg :=
  (.text d kind (vaPointer args).1, (vaPointer args).2)

/-- The `switch` over the conversion character. -/
def convert (d : Directive) (c : UInt8) (args : List Arg) : Piece × List Arg :=
  if c = chr 'b' then (.binary d (vaInt64 args).1, (vaInt64 args).2)
  else if c = chr 's' then takeText d .string args
  else if c = chr 'M' then takeText d .hex args
  else if c = chr 'm' then takeText d .memory args
  else if c = chr 'X' then takeNumber { d with flags := { d.flags with large := true } } 16 args
  else if c = chr 'x' then takeNumber d 16 args
  else if c = chr 'd' ∨ c = chr 'i' then
    takeNumber { d with flags := { d.flags with sign := true } } 10 args
  else if c = chr 'u' then takeNumber d 10 args
  else if c = chr 'p' then (.pointer d (vaInt64 args).1, (vaInt64 args).2)
  else if c = chr '%' then (.byte (chr '%'), args)
  else if c = chr 'o' then takeNumber d 8 args
  else if c = chr 'c' then (.char d (UInt8.ofBitVec ((vaInt args).1.setWidth 8)), (vaInt args).2)
  else (.unknown (some c), args)

/-- What follows a `%`. -/
def takeDirective (fmt : Str) (args : List Arg) : Piece × Str × List Arg :=
  let f := takeFlags .zero fmt
  let w := takeWidth f.1 f.2 args
  let p := takePrecision w.2.2.1 w.2.2.2
  let q := takeQualifier p.2.1
  match q.2 with
  | [] => (.unknown none, [], p.2.2)
  | c :: rest =>
    let r := convert ⟨w.2.1, w.1, p.1, q.1⟩ c p.2.2
    (r.1, rest, r.2)

/-- The loop over the format. -/
def piecesLoop : Nat → Str → List Arg → List Piece
  | 0, _, _ => []
  | _ + 1, [], _ => []
  | fuel + 1, c :: fmt, args =>
    if c = chr '%' then
      let r := takeDirective fmt args
      r.1 :: piecesLoop fuel r.2.1 r.2.2
    else .byte c :: piecesLoop fuel fmt args

/-- The pieces of a format. -/
def pieces (fmt : Str) (args : List Arg) : List Piece :=
  piecesLoop (cString fmt).length (cString fmt) args

/-! ## Numbers -/

/-- A character of `small_digits` or `large_digits`. -/
def digit (large : Bool) (i : Nat) : UInt8 :=
  if i < 10 then UInt8.ofNat (48 + i) else UInt8.ofNat ((if large then 55 else 87) + i)

/-- The value of `size` after `while (size-- > 0)`. -/
def drained (size : Int) : Int := min size 0 - 1

/-- The character in front of a signed number, if there is one. -/
def signOf (num : I64) (type : PrintFlags) : Str :=
  if type.sign then
    if num.slt 0 then [chr '-'] else if type.plus then [chr '+'] else if type.space then [chr ' '] else []
  else []

/-- What `STP_SPECIAL` puts in front of a number. -/
def specialOf (base : Nat) (type : PrintFlags) : Str :=
  if type.special then
    if base = 16 then [chr '0', digit type.large 33] else if base = 8 then [chr '0'] else []
  else []

/-- The digits in `tmp`, the last one first. -/
def tmpOf (num : I64) (base : Nat) (type : PrintFlags) : Str :=
  let num := if type.sign && num.slt 0 then -num else num
  if num = 0 then [chr '0'] else (Nat.digits base num.toNat).map (digit type.large)

/-- `number`, for a base from 2 to 36 -/
def number (num : I64) (base : Nat) (size precision : Int) (type : PrintFlags) : Str :=
  let zeropad := type.zeropad && !type.left
  let c := if zeropad then chr '0' else chr ' '
  let sign := signOf num type
  let special := specialOf base type
  let tmp := tmpOf num base type
  let precision := max precision tmp.length
  let size := size - sign.length - special.length - precision
  let size₁ := if zeropad || type.left then size else drained size
  let size₂ := if type.left then size₁ else drained size₁
  replicate (if zeropad || type.left then 0 else size.toNat) (chr ' ') ++ sign ++ special ++
    replicate (if type.left then 0 else size₁.toNat) c ++
    replicate (precision - tmp.length).toNat (chr '0') ++ tmp.reverse ++
    replicate size₂.toNat (chr ' ')

/-- `number_size` -/
def numberSize (num : I64) (base : Nat) (size precision : Int) (type : PrintFlags) : Nat :=
  let zeropad := type.zeropad && !type.left
  let sign := (signOf num type).length
  let special := (specialOf base type).length
  let i := (tmpOf num base type).length
  let precision := max precision i
  let size := size - sign - special - precision
  let size₁ := if zeropad || type.left then size else drained size
  let size₂ := if type.left then size₁ else drained size₁
  (if zeropad || type.left then 0 else size.toNat) + sign + special +
    (if type.left then 0 else size₁.toNat) + (precision - i).toNat + i + size₂.toNat

/-! ## Widths and precisions -/

/-- `clamp` -/
def clamp (v lo hi : Int) : Int := if v < lo then lo else if hi < v then hi else v

/-- `field_width`, -1 if there is none -/
def Directive.fieldWidth (limit : Int) (d : Directive) : Int :=
  match d.width with
  | none => -1
  | some w => clamp w.toInt 0 limit

/-- `precision`, -1 if there is none -/
def Directive.prec (limit : Int) (d : Directive) : Int :=
  match d.precision with
  | none => -1
  | some p => clamp p.toInt 0 limit

/-- `check_binary_precision` -/
def checkBinaryPrecision (precision : Int) : Int :=
  if precision = -1 ∨ precision = 1 ∨ precision = 2 ∨ precision = 4 ∨ precision = 8 then precision
  else -1

/-- The field width and the precision of `%b`. -/
def Directive.binaryField (limit : Int) (d : Directive) : Int × Int :=
  let fieldWidth := d.fieldWidth limit
  let precision := checkBinaryPrecision (d.prec limit)
  if fieldWidth = -1 then
    if precision = -1 then (8, 8) else (precision, precision)
  else if precision = -1 then
    (fieldWidth, if checkBinaryPrecision fieldWidth = -1 then 8 else checkBinaryPrecision fieldWidth)
  else (fieldWidth, precision)

/-- `len` for a string conversion, before `%M` doubles it. -/
def textLen (limit : Int) (d : Directive) (kind : TextKind) (s : Pointer) : Nat :=
  let precision := d.prec limit
  if kind = .string then
    -- the precision -1 is a huge `size_t` for `strnlen`
    if precision = -1 then s.bytes.length else min s.bytes.length precision.toNat
  else if 0 < precision then precision.toNat
  else 1

/-- The characters of `_stp_hex_asc` for a byte. -/
def hexPair (b : UInt8) : Str := [digit false (b.toNat / 16), digit false (b.toNat % 16)]

/-- The bytes of a string conversion. -/
def textBytes (limit : Int) (d : Directive) (kind : TextKind) (s : Pointer) : Str :=
  let bytes := (range (textLen limit d kind s)).map s.at
  if kind = .hex then bytes.flatMap hexPair else bytes

/-- The rounds of the padding loop in front of a piece and behind it. -/
def padBefore (d : Directive) (n : Int) : Nat := if d.flags.left then 0 else n.toNat

/-- The rounds of the padding loop behind a piece. The one in front leaves nothing to it. -/
def padAfter (d : Directive) (n : Int) : Nat := if d.flags.left then n.toNat else 0

/-- The flags that `%p` gives to `number`. -/
def Directive.pointerFlags (d : Directive) : PrintFlags := { d.flags with zeropad := true }

/-- `2*sizeof(void *) + 2` -/
def pointerLen : Int := 18

/-- The field width of `%p` before its padding. -/
def Directive.pointerWidth (limit : Int) (d : Directive) : Int :=
  if d.fieldWidth limit = -1 then pointerLen else d.fieldWidth limit

/-- The field width of `%p` after its padding. -/
def Directive.pointerField (limit : Int) (d : Directive) : Int :=
  if d.flags.left then d.pointerWidth limit else min (d.pointerWidth limit) pointerLen

/-! ## The first pass -/

/-- What a piece adds to `num_bytes`. -/
def Piece.size (limit : Int) : Piece → Nat
  | .byte _ => 1
  | .binary d _ =>
    let f := d.binaryField limit
    padBefore d (f.1 - f.2) + f.2.toNat + padAfter d (f.1 - f.2)
  | .text d kind s =>
    let len := textLen limit d kind s * if kind = .hex then 2 else 1
    padBefore d (d.fieldWidth limit - len) + len + padAfter d (d.fieldWidth limit - len) +
      if d.flags.zeropad then 1 else 0
  | .number d base num => numberSize num base (d.fieldWidth limit) (d.prec limit) d.flags
  | .pointer d num =>
    padBefore d (d.pointerWidth limit - pointerLen) + 2 +
      numberSize num 16 (d.pointerField limit - 2) (d.pointerField limit - 2) d.pointerFlags
  | .char d _ => padBefore d (d.fieldWidth limit - 1) + 1 + padAfter d (d.fieldWidth limit - 1)
  | .unknown c => 1 + c.toList.length

/-- `num_bytes` before it is cut -/
def numBytes (ps : List Piece) : Nat := (ps.map (Piece.size bufferSize)).sum

/-! ## The second pass -/

/-- The memory and the position `str` in it. -/
structure Out where
  mem : Nat → UInt8
  str : Nat

/-- `*str++ = c` -/
def Out.poke (o : Out) (c : UInt8) : Out := ⟨Function.update o.mem o.str c, o.str + 1⟩

/-- `if (str <= end) *str = c; ++str;`, where `bound` is one past `end`. -/
def Out.put (bound : Nat) (o : Out) (c : UInt8) : Out :=
  if o.str < bound then o.poke c else { o with str := o.str + 1 }

/-- All of a text, one byte after the other. -/
def Out.pokes (o : Out) (s : Str) : Out := s.foldl Out.poke o

/-- All of a text, as far as there is room. -/
def Out.puts (bound : Nat) (o : Out) (s : Str) : Out := s.foldl (Out.put bound) o

/-- The bytes of `num` in memory. -/
def numBytesAt (num : I64) (precision : Nat) : Str :=
  (range precision).map fun i => UInt8.ofBitVec (num.extractLsb' (8 * i) 8)

/-- `if (str <= end) { *str++ = c; field_width--; }` -/
def Out.putField (bound : Nat) (c : UInt8) (s : Out × Int) : Out × Int :=
  if s.1.str < bound then (s.1.poke c, s.2 - 1) else s

/-- What the second pass does with a piece. -/
def Piece.emit (bound : Nat) (limit : Int) (o : Out) : Piece → Out
  | .byte c => o.put bound c
  | .binary d num =>
    let f := d.binaryField limit
    let o := o.puts bound (replicate (padBefore d (f.1 - f.2)) 0)
    -- the number is written whole or not at all
    let o := if o.str + f.2.toNat ≤ bound then o.pokes (numBytesAt num f.2.toNat)
      else { o with str := o.str + f.2.toNat }
    o.puts bound (replicate (padAfter d (f.1 - f.2)) 0)
  | .text d kind s =>
    let len := textLen limit d kind s * if kind = .hex then 2 else 1
    let o := o.puts bound (replicate (padBefore d (d.fieldWidth limit - len)) (chr ' '))
    -- the loop of `%M` has no check
    let o := if kind = .hex then o.pokes (textBytes limit d kind s)
      else o.puts bound (textBytes limit d kind s)
    let o := o.puts bound (replicate (padAfter d (d.fieldWidth limit - len)) (chr ' '))
    if d.flags.zeropad then o.put bound 0 else o
  | .number d base num => o.puts bound (Runtime.number num base (d.fieldWidth limit) (d.prec limit) d.flags)
  | .pointer d num =>
    let o := o.puts bound
      (replicate (padBefore d (d.pointerWidth limit - pointerLen)) (chr ' '))
    let s := Out.putField bound (chr 'x') (Out.putField bound (chr '0') (o, d.pointerField limit))
    s.1.puts bound (Runtime.number num 16 s.2 s.2 d.pointerFlags)
  | .char d c =>
    let o := o.puts bound (replicate (padBefore d (d.fieldWidth limit - 1)) (chr ' '))
    (o.put bound c).puts bound (replicate (padAfter d (d.fieldWidth limit - 1)) (chr ' '))
  | .unknown c => (o.put bound (chr '%')).puts bound c.toList

/-- The loop of the second pass. -/
def emitAll (bound : Nat) (limit : Int) (o : Out) (ps : List Piece) : Out :=
  ps.foldl (fun o p => p.emit bound limit o) o

/-! ## The text of a piece -/

/-- What a piece is in the output, where there is room for it. -/
def Piece.output (limit : Int) : Piece → Str
  | .byte c => [c]
  | .binary d num =>
    let f := d.binaryField limit
    replicate (padBefore d (f.1 - f.2)) 0 ++ numBytesAt num f.2.toNat ++
      replicate (padAfter d (f.1 - f.2)) 0
  | .text d kind s =>
    let len := textLen limit d kind s * if kind = .hex then 2 else 1
    replicate (padBefore d (d.fieldWidth limit - len)) (chr ' ') ++ textBytes limit d kind s ++
      replicate (padAfter d (d.fieldWidth limit - len)) (chr ' ') ++
      if d.flags.zeropad then [0] else []
  | .number d base num => Runtime.number num base (d.fieldWidth limit) (d.prec limit) d.flags
  | .pointer d num =>
    replicate (padBefore d (d.pointerWidth limit - pointerLen)) (chr ' ') ++
      [chr '0', chr 'x'] ++
      Runtime.number num 16 (d.pointerField limit - 2) (d.pointerField limit - 2) d.pointerFlags
  | .char d c =>
    replicate (padBefore d (d.fieldWidth limit - 1)) (chr ' ') ++ [c] ++
      replicate (padAfter d (d.fieldWidth limit - 1)) (chr ' ')
  | .unknown c => chr '%' :: c.toList

theorem length_number (num : I64) (base : Nat) (size precision : Int) (type : PrintFlags) :
    (number num base size precision type).length = numberSize num base size precision type := by
  unfold number numberSize
  simp only [length_append, length_replicate, length_reverse]

theorem length_textBytes (limit : Int) (d : Directive) (kind : TextKind) (s : Pointer) :
    (textBytes limit d kind s).length = textLen limit d kind s * if kind = .hex then 2 else 1 := by
  unfold textBytes
  by_cases h : kind = .hex
  · rw [if_pos h, if_pos h, length_flatMap]
    simp [hexPair, Function.comp_def]
  · rw [if_neg h, if_neg h, length_map, length_range, mul_one]

theorem length_numBytesAt (num : I64) (precision : Nat) :
    (numBytesAt num precision).length = precision := by
  rw [numBytesAt, length_map, length_range]

/-- The first pass counts what the second one writes. -/
theorem Piece.length_output (limit : Int) (p : Piece) : (p.output limit).length = p.size limit := by
  cases p with
  | byte c => rfl
  | binary d num =>
    simp only [output, size, length_append, length_replicate, length_numBytesAt]
  | text d kind s =>
    simp only [output, size, length_append, length_replicate, length_textBytes]
    cases d.flags.zeropad <;> rfl
  | number d base num => exact length_number _ _ _ _ _
  | pointer d num =>
    simp only [output, size, length_append, length_replicate, length_number]
    rfl
  | char d c =>
    simp only [output, size, length_append, length_replicate]
    rfl
  | unknown c => exact add_comm _ _

/-! ## What is written -/

theorem Out.pokes_append (o : Out) (s t : Str) : o.pokes (s ++ t) = (o.pokes s).pokes t :=
  foldl_append

theorem Out.pokes_str (s : Str) : ∀ o : Out, (o.pokes s).str = o.str + s.length := by
  induction s with
  | nil => exact fun _ => rfl
  | cons c s ih =>
    intro o
    show ((o.poke c).pokes s).str = _
    rw [ih, length_cons]
    show o.str + 1 + s.length = _
    omega

/-- `%M` -/
def Piece.IsDump : Piece → Prop
  | .text _ .hex _ => True
  | _ => False

/-- Where the digits of a `%M` end, from the start of the piece. -/
def Piece.digitsEnd (limit : Int) : Piece → Nat
  | .text d .hex s =>
    padBefore d (d.fieldWidth limit - (textLen limit d .hex s * 2 : Nat)) + textLen limit d .hex s * 2
  | _ => 0

/-- From `o` to `o'`, nothing in front of `str` and nothing from `top` on is written. -/
structure Out.Within (top : Nat) (o o' : Out) : Prop where
  le : o.str ≤ o'.str
  front : ∀ i, i < o.str → o'.mem i = o.mem i
  behind : ∀ i, top ≤ i → o'.mem i = o.mem i

variable {bound top : Nat} {limit : Int} {o o' o'' : Out} {s t : Str}

open Out

theorem Out.Within.refl (o : Out) : o.Within top o := ⟨le_refl _, fun _ _ => rfl, fun _ _ => rfl⟩

theorem Out.Within.trans (h : o.Within top o') (h' : o'.Within top o'') : o.Within top o'' :=
  ⟨h.le.trans h'.le, fun i hi => (h'.front i (hi.trans_le h.le)).trans (h.front i hi),
    fun i hi => (h'.behind i hi).trans (h.behind i hi)⟩

theorem Out.within_poke (h : o.str < top) (c : UInt8) : o.Within top (o.poke c) :=
  ⟨le_succ _, fun _ hi => update_of_ne hi.ne _ _,
    fun _ hi => update_of_ne (h.trans_le hi).ne' _ _⟩

theorem Out.within_pokes (s : Str) :
    ∀ {o : Out}, o.str + s.length ≤ top → o.Within top (o.pokes s) := by
  induction s with
  | nil => exact fun _ => .refl _
  | cons c s ih =>
    intro o h
    rw [length_cons] at h
    exact (within_poke (by omega) c).trans (ih (show o.str + 1 + s.length ≤ top by omega))

theorem Out.puts_str (s : Str) : ∀ o : Out, (o.puts bound s).str = o.str + s.length := by
  induction s with
  | nil => exact fun _ => rfl
  | cons c s ih =>
    intro o
    show ((o.put bound c).puts bound s).str = _
    have hput : (o.put bound c).str = o.str + 1 := by
      unfold put
      split <;> rfl
    rw [ih, hput, length_cons]
    omega

/-- From `o` to `o'` the text `s` is written if there is room for it below `bound`, and nothing from
`top` on in any case. The position moves on by the text, whether there is room or not. Only `%p`
can go less far: without room, it does not count its `0x`. -/
structure Out.Emits (bound top : Nat) (o : Out) (s : Str) (o' : Out) : Prop
    extends o.Within top o' where
  eq : o.str + s.length ≤ bound → o' = o.pokes s
  str : o'.str = o.str + s.length ∨ bound ≤ o'.str

theorem Out.Emits.append (h : o.Emits bound top s o') (h' : o'.Emits bound top t o'') :
    o.Emits bound top (s ++ t) o'' where
  toWithin := h.toWithin.trans h'.toWithin
  eq hroom := by
    rw [length_append] at hroom
    have hs := h.eq (by omega)
    have hstr : o'.str = o.str + s.length := by rw [hs, pokes_str]
    rw [pokes_append, ← hs]
    exact h'.eq (by omega)
  str := by
    have hle := h'.le
    rw [length_append]
    rcases h.str with h | h <;> rcases h'.str with h' | h' <;> omega

theorem Out.Emits.mono {top' : Nat} (h : o.Emits bound top s o') (hle : top ≤ top') :
    o.Emits bound top' s o' :=
  { h with behind := fun i hi => h.behind i (hle.trans hi) }

theorem Out.emits_pokes (h : o.str + s.length ≤ top) : o.Emits bound top s (o.pokes s) :=
  ⟨within_pokes s h, fun _ => rfl, .inl (pokes_str s o)⟩

section Checked

variable (htop : bound ≤ top)
include htop

theorem Out.emits_put (o : Out) (c : UInt8) : o.Emits bound top [c] (o.put bound c) := by
  unfold put
  split
  · next h => exact @emits_pokes bound top o [c] (h.trans_le htop)
  · next h =>
    exact ⟨⟨le_succ _, fun _ _ => rfl, fun _ _ => rfl⟩, fun hroom => absurd hroom h, .inl rfl⟩

theorem Out.emits_puts (s : Str) : ∀ o : Out, o.Emits bound top s (o.puts bound s) := by
  induction s with
  | nil => exact fun o => ⟨.refl o, fun _ => rfl, .inl rfl⟩
  | cons c s ih => exact fun o => (emits_put htop o c).append (ih _)

/-- The number of a `%b` is written whole or not at all. -/
theorem Out.emits_numBytesAt (num : I64) (n : Nat) (o : Out) :
    o.Emits bound top (numBytesAt num n)
      (if o.str + n ≤ bound then o.pokes (numBytesAt num n) else { o with str := o.str + n }) := by
  have hlen := length_numBytesAt num n
  split
  · next h => exact emits_pokes (by omega)
  · next h =>
    exact ⟨⟨le_add_right _ _, fun _ _ => rfl, fun _ _ => rfl⟩, fun hroom => absurd hroom (by omega),
      .inl (by rw [hlen])⟩

theorem Out.within_putField (c : UInt8) (s : Out × Int) :
    s.1.Within top (putField bound c s).1 := by
  unfold putField
  split
  · next h => exact within_poke (h.trans_le htop) c
  · exact .refl _

/-- What the second pass does with a piece. The digits of a `%M` are the only thing that is
written without a look at `bound`. -/
theorem Piece.emits (p : Piece) (h : p.IsDump → o.str + p.digitsEnd limit ≤ top) :
    o.Emits bound top (p.output limit) (p.emit bound limit o) := by
  have hputs := @emits_puts bound top htop
  cases p with
  | byte c => exact emits_put htop o c
  | binary d num => exact ((hputs _ o).append (emits_numBytesAt htop _ _ _)).append (hputs _ _)
  | text d kind s =>
    have hbytes : ∀ o' : Out,
        o'.str = o.str + padBefore d (d.fieldWidth limit -
          (textLen limit d kind s * if kind = .hex then 2 else 1 : Nat)) →
        o'.Emits bound top (textBytes limit d kind s)
          (if kind = .hex then o'.pokes (textBytes limit d kind s)
          else o'.puts bound (textBytes limit d kind s)) := by
      intro o' ho'
      split
      · next hkind =>
        subst hkind
        have hroom := h trivial
        apply emits_pokes
        rw [length_textBytes]
        simp only [digitsEnd, reduceIte] at hroom ho' ⊢
        omega
      · exact hputs _ _
    have hall := ((hputs (replicate _ (chr ' ')) o).append
      (hbytes _ (by rw [puts_str, length_replicate]))).append (hputs (replicate
        (padAfter d (d.fieldWidth limit - (textLen limit d kind s * if kind = .hex then 2 else 1 : Nat)))
        (chr ' ')) _)
    simp only [emit, output]
    by_cases hz : d.flags.zeropad = true
    · rw [if_pos hz, if_pos hz]
      exact hall.append (emits_put htop _ 0)
    · rw [if_neg hz, if_neg hz, append_nil]
      exact hall
  | number d base num => exact hputs _ o
  | pointer d num =>
    simp only [emit, output]
    have hbefore := hputs (replicate (padBefore d (d.pointerWidth limit - pointerLen)) (chr ' ')) o
    rw [append_assoc]
    refine hbefore.append ?_
    generalize o.puts bound _ = o'
    by_cases hroom : o'.str + 1 < bound
    · have h0 : putField bound (chr '0') (o', d.pointerField limit)
          = (o'.poke (chr '0'), d.pointerField limit - 1) := if_pos (by dsimp only; omega)
      have hx : putField bound (chr 'x') (o'.poke (chr '0'), d.pointerField limit - 1)
          = (o'.pokes [chr '0', chr 'x'], d.pointerField limit - 1 - 1) := if_pos hroom
      have htwo : d.pointerField limit - 1 - 1 = d.pointerField limit - 2 := by omega
      rw [h0, hx, htwo]
      exact (emits_pokes (show o'.str + 2 ≤ top by omega)).append (hputs _ _)
    · have h0 : bound ≤ (putField bound (chr '0') (o', d.pointerField limit)).1.str := by
        unfold putField
        split
        · show bound ≤ o'.str + 1
          omega
        · next hnot => exact not_lt.mp hnot
      have hx := within_putField htop (chr 'x') (putField bound (chr '0') (o', d.pointerField limit))
      refine ⟨((within_putField htop (chr '0') (o', _)).trans hx).trans (hputs _ _).toWithin,
        fun hall => absurd hall ?_, .inr ((h0.trans hx.le).trans (hputs _ _).le)⟩
      rw [length_append]
      show ¬ o'.str + (2 + _) ≤ bound
      omega
  | char d c => exact ((hputs _ o).append (emits_put htop _ c)).append (hputs _ _)
  | unknown c => exact (emits_put htop o _).append (hputs _ _)

end Checked

/-- What the pieces are in the output together. -/
def outputAll (limit : Int) (ps : List Piece) : Str := ps.flatMap (Piece.output limit)

theorem length_outputAll (limit : Int) (ps : List Piece) :
    (outputAll limit ps).length = (ps.map (Piece.size limit)).sum := by
  unfold outputAll
  rw [length_flatMap]
  simp only [Piece.length_output]

theorem emitAll_emits (ps : List Piece) : ∀ o : Out,
    ∃ top, o.Emits bound top (outputAll limit ps) (emitAll bound limit o ps) := by
  induction ps with
  | nil => exact fun o => ⟨0, .refl o, fun _ => rfl, .inl rfl⟩
  | cons p ps ih =>
    intro o
    obtain ⟨top, hps⟩ := ih (p.emit bound limit o)
    have hp := p.emits (le_max_left bound (o.str + p.digitsEnd limit)) fun _ => le_max_right _ _
    exact ⟨_, (hp.mono (le_max_left _ top)).append (hps.mono (le_max_right _ _))⟩

theorem emitAll_eq (ps : List Piece) (h : o.str + (outputAll limit ps).length ≤ bound) :
    emitAll bound limit o ps = o.pokes (outputAll limit ps) :=
  have ⟨_, hemits⟩ := emitAll_emits ps o
  hemits.eq h

/-! ## The two limits -/

variable {n : Nat}

theorem clamp_limit (v : Int) (hn : n ≤ bufferSize) :
    clamp v 0 n = min (clamp v 0 bufferSize) n := by
  unfold clamp bufferSize at *
  split_ifs <;> omega

theorem Directive.fieldWidth_limit (d : Directive) (hn : n ≤ bufferSize)
    (h : d.fieldWidth bufferSize ≤ n) : d.fieldWidth n = d.fieldWidth bufferSize := by
  unfold Directive.fieldWidth at *
  cases hw : d.width with
  | none => rfl
  | some w =>
    rw [hw] at h
    dsimp only at h ⊢
    rw [clamp_limit _ hn, min_eq_left h]

/-- The second limit cuts the precision further, but not below what was counted. -/
theorem Directive.prec_limit (d : Directive) (hn : n ≤ bufferSize) :
    d.prec n = min (d.prec bufferSize) n := by
  unfold Directive.prec
  cases hp : d.precision with
  | none =>
    dsimp only
    omega
  | some p => exact clamp_limit _ hn

theorem le_numberSize (num : I64) (base : Nat) (size precision : Int) (type : PrintFlags) :
    size ≤ numberSize num base size precision type ∧
      precision ≤ numberSize num base size precision type := by
  unfold numberSize drained
  generalize (signOf num type).length = sign
  generalize (specialOf base type).length = special
  generalize (tmpOf num base type).length = i
  cases type.zeropad <;> cases type.left <;> simp <;> omega

theorem textLen_limit (d : Directive) (kind : TextKind) (s : Pointer) (hn : n ≤ bufferSize)
    (h : textLen bufferSize d kind s ≤ n) : textLen n d kind s = textLen bufferSize d kind s := by
  unfold textLen at *
  rw [d.prec_limit hn]
  by_cases hk : kind = .string
  · simp only [if_pos hk] at h ⊢
    split_ifs at h ⊢ <;> omega
  · simp only [if_neg hk] at h ⊢
    split_ifs at h ⊢ <;> omega

/-- The precision of a `%b` that has a width survives the second limit. It does not if it is none
of 1, 2, 4 and 8, and larger than a total size that is 2, 4 or 8. -/
def Directive.BinaryKept (size : Nat) (d : Directive) : Prop :=
  d.width = none ∨ ∀ p, d.precision = some p →
    p.toInt ≤ size ∨ p.toInt = 1 ∨ p.toInt = 2 ∨ p.toInt = 4 ∨ p.toInt = 8 ∨
      (size ≠ 2 ∧ size ≠ 4 ∧ size ≠ 8)

theorem checkBinaryPrecision_cases (p : Int) :
    (checkBinaryPrecision p = p ∧ (p = -1 ∨ p = 1 ∨ p = 2 ∨ p = 4 ∨ p = 8)) ∨
      (checkBinaryPrecision p = -1 ∧ ¬ (p = -1 ∨ p = 1 ∨ p = 2 ∨ p = 4 ∨ p = 8)) := by
  unfold checkBinaryPrecision
  split_ifs with h
  · exact .inl ⟨rfl, h⟩
  · exact .inr ⟨rfl, h⟩

/-- The width of a `%b` is part of what was counted. -/
theorem Directive.fieldWidth_le_of_binaryField (d : Directive)
    (hsize : (d.binaryField bufferSize).1 ≤ n) : d.fieldWidth bufferSize ≤ n := by
  by_cases hnone : d.fieldWidth bufferSize = -1
  · omega
  · have hfirst : (d.binaryField bufferSize).1 = d.fieldWidth bufferSize := by
      unfold Directive.binaryField
      rw [if_neg hnone]
      split <;> rfl
    rw [← hfirst]
    exact hsize

/-- What the second limit does to a `%b`: nothing, or it makes a good precision of one that was
none of 1, 2, 4 and 8. -/
theorem Directive.binaryField_cases (d : Directive) (hn : n ≤ bufferSize)
    (hsize : (d.binaryField bufferSize).1 ≤ n ∧ (d.binaryField bufferSize).2 ≤ n) :
    d.binaryField n = d.binaryField bufferSize ∨
      d.binaryField n = (d.fieldWidth bufferSize, (n : Int)) ∧ d.fieldWidth bufferSize ≠ -1 ∧
        (n : Int) < d.prec bufferSize ∧ checkBinaryPrecision (d.prec bufferSize) = -1 ∧
        (n = 1 ∨ n = 2 ∨ n = 4 ∨ n = 8) := by
  have hprec := d.prec_limit hn
  have hwidth : d.fieldWidth n = d.fieldWidth bufferSize :=
    d.fieldWidth_limit hn (d.fieldWidth_le_of_binaryField hsize.1)
  by_cases hle : d.prec bufferSize ≤ n
  · left
    unfold Directive.binaryField
    rw [hwidth, hprec, min_eq_left hle]
  rw [min_eq_right (by omega)] at hprec
  unfold Directive.binaryField at hsize ⊢
  rw [hwidth, hprec]
  rcases checkBinaryPrecision_cases (d.prec bufferSize) with ⟨hgood, hset⟩ | ⟨hbad, -⟩
  · -- a good precision is part of what was counted
    dsimp only at hsize
    split_ifs at hsize <;> dsimp only at hsize <;> omega
  rw [hbad] at hsize ⊢
  simp only [reduceIte] at hsize ⊢
  rcases checkBinaryPrecision_cases n with ⟨hn', hset'⟩ | ⟨hn', hset'⟩
  · have hne : (n : Int) ≠ -1 := by omega
    by_cases hnone : d.fieldWidth bufferSize = -1
    · -- without a width there are 8 bytes at least
      left
      rw [if_pos hnone] at hsize ⊢
      have hn8 : n = 8 := by
        omega
      rw [hn', hn8, if_neg (by decide), if_pos hnone]
      rfl
    · right
      rw [hn', if_neg hnone, if_neg hne]
      exact ⟨rfl, hnone, by omega, trivial, by omega⟩
  · left
    simp only [hn', reduceIte]

/-- The second limit makes a good precision of one that the first pass has not taken: with `n`
bytes in all, a width of 1, 2 or 4 below `n`, and a precision above `n`. -/
def Directive.Refits (n : Nat) (d : Directive) : Prop :=
  (n = 2 ∨ n = 4 ∨ n = 8) ∧
    (∃ w, d.width = some w ∧ (w.toInt = 1 ∨ w.toInt = 2 ∨ w.toInt = 4) ∧ w.toInt < n) ∧
    ∃ p, d.precision = some p ∧ n < p.toInt ∧ p.toInt ≠ 4 ∧ p.toInt ≠ 8

/-- A `%b` that is not refitted has the field that was counted. -/
theorem Directive.binaryField_of_not_refits {d : Directive} (hn : n ≤ bufferSize)
    (hsize : (d.binaryField bufferSize).1 ≤ n ∧ (d.binaryField bufferSize).2 ≤ n)
    (h : ¬ d.Refits n) : d.binaryField n = d.binaryField bufferSize := by
  rcases d.binaryField_cases hn hsize with hsame | ⟨hfield, hwidth, hlt, hbad, hset⟩
  · exact hsame
  have hold : d.binaryField bufferSize = (d.fieldWidth bufferSize,
      if checkBinaryPrecision (d.fieldWidth bufferSize) = -1 then 8
      else checkBinaryPrecision (d.fieldWidth bufferSize)) := by
    unfold binaryField
    rw [hbad, if_neg hwidth, if_pos rfl]
  rw [hold] at hsize ⊢
  rw [hfield]
  refine Prod.ext rfl ?_
  cases hp : d.precision with
  | none =>
    simp only [prec, hp] at hlt
    omega
  | some p =>
    cases hw : d.width with
    | none => exact absurd (by simp only [fieldWidth, hw]) hwidth
    | some w =>
      have hprec : (n : Int) < p.toInt ∧ p.toInt ≠ 4 ∧ p.toInt ≠ 8 := by
        simp only [prec, hp, clamp, bufferSize, checkBinaryPrecision] at hlt hbad
        split_ifs at hlt hbad <;> omega
      have hclamp : d.fieldWidth bufferSize = clamp w.toInt 0 bufferSize := by
        simp only [fieldWidth, hw]
      rcases checkBinaryPrecision_cases (d.fieldWidth bufferSize) with ⟨hgood, hw'⟩ | ⟨hnone, -⟩
      · rw [hgood, if_neg hwidth] at hsize ⊢
        by_contra hne
        refine h ⟨by omega, ⟨w, hw, ?_⟩, p, hp, hprec⟩
        generalize d.fieldWidth bufferSize = fieldWidth at *
        simp only [clamp, bufferSize] at hclamp
        split_ifs at hclamp <;> omega
      · rw [hnone, if_pos rfl] at hsize ⊢
        omega

theorem Directive.BinaryKept.not_refits {d : Directive} (h : d.BinaryKept n) : ¬ d.Refits n := by
  intro ⟨hn, ⟨w, hw, _⟩, p, hp, hlt, h4, h8⟩
  rcases h with hnone | hkept
  · rw [hw] at hnone
    cases hnone
  · have hp := hkept p hp
    omega

/-- The pieces whose text the second limit can change. -/
def Piece.BinaryKept (size : Nat) : Piece → Prop
  | .binary d _ => d.BinaryKept size
  | _ => True

theorem Piece.binaryField_le {d : Directive} {num : I64}
    (hsize : (Piece.binary d num).size bufferSize ≤ n) :
    (d.binaryField bufferSize).1 ≤ n ∧ (d.binaryField bufferSize).2 ≤ n := by
  simp only [size, padBefore, padAfter] at hsize
  split_ifs at hsize <;> omega

/-- The second limit gives the text that was counted, as long as it leaves the field of a `%b`. -/
theorem Piece.output_limit (p : Piece) (hn : n ≤ bufferSize) (hsize : p.size bufferSize ≤ n)
    (hfield : ∀ d num, p = .binary d num → d.binaryField n = d.binaryField bufferSize) :
    p.output n = p.output bufferSize := by
  cases p with
  | byte c => rfl
  | binary d num => simp only [output, hfield d num rfl]
  | text d kind s =>
    simp only [size, padBefore, padAfter] at hsize
    have hlen : textLen n d kind s = textLen bufferSize d kind s := by
      refine textLen_limit d kind s hn ?_
      split_ifs at hsize <;> omega
    have hwidth : d.fieldWidth n = d.fieldWidth bufferSize := by
      refine d.fieldWidth_limit hn ?_
      split_ifs at hsize <;> omega
    simp only [output, textBytes, hlen, hwidth]
  | number d base num =>
    obtain ⟨hw, hp⟩ := le_numberSize num base (d.fieldWidth bufferSize) (d.prec bufferSize) d.flags
    simp only [size] at hsize
    simp only [output]
    rw [d.fieldWidth_limit hn (by omega), d.prec_limit hn, min_eq_left (by omega)]
  | pointer d num =>
    obtain ⟨hw, -⟩ := le_numberSize num 16 (d.pointerField bufferSize - 2)
      (d.pointerField bufferSize - 2) d.pointerFlags
    simp only [size, padBefore] at hsize
    have hwidth : d.fieldWidth n = d.fieldWidth bufferSize := by
      refine d.fieldWidth_limit hn ?_
      unfold Directive.pointerField Directive.pointerWidth pointerLen at *
      split_ifs at hsize hw <;> omega
    simp only [output, Directive.pointerField, Directive.pointerWidth, hwidth]
  | char d c =>
    have hwidth : d.fieldWidth n = d.fieldWidth bufferSize := by
      refine d.fieldWidth_limit hn ?_
      simp only [size, padBefore, padAfter] at hsize
      split_ifs at hsize <;> omega
    simp only [output, hwidth]
  | unknown c => rfl

variable {ps pre : List Piece}

theorem Piece.size_le_numBytes {p : Piece} (hp : p ∈ ps) : p.size bufferSize ≤ numBytes ps :=
  single_le_sum (fun _ _ => zero_le _) _ (mem_map_of_mem hp)

/-- Before a `%b` is refitted, the second pass writes what was counted. -/
theorem outputAll_of_not_refits (hn : numBytes ps ≤ bufferSize) (hpre : pre ⊆ ps)
    (h : ∀ d num, .binary d num ∈ pre → ¬ d.Refits (numBytes ps)) :
    outputAll (numBytes ps) pre = outputAll bufferSize pre := by
  apply flatMap_congr
  intro p hp
  refine p.output_limit hn (Piece.size_le_numBytes (hpre hp)) ?_
  rintro d num rfl
  exact Directive.binaryField_of_not_refits hn
    (Piece.binaryField_le (Piece.size_le_numBytes (hpre hp))) (h d num hp)

theorem outputAll_limit_of_kept (hn : numBytes ps ≤ bufferSize)
    (hkept : ∀ p ∈ ps, p.BinaryKept (numBytes ps)) :
    outputAll (numBytes ps) ps = outputAll bufferSize ps :=
  outputAll_of_not_refits hn (List.Subset.refl ps) fun _ _ hmem =>
    Directive.BinaryKept.not_refits (hkept _ hmem)

end Systemtap.Runtime
