import Systemtap.Opt.Literals

/-!
# Comparing strings

`c_unparser::visit_comparison` emits `strncmp (L, R, MAXSTRINGLEN) op 0`, where
`L` and `R` are the C expressions of the operands. A C string is a pointer, so
what is compared is what the two pointers lead to *after* both operands have
been evaluated. Literals and variables lead to themselves, and array elements,
concatenations and `sprint` to a temporary of the caller's own. The result of a
call, though, stays where the callee left it, in
`c->locals[c->nesting+1].function_f.__retvalue`, and the locals of all functions
of one nesting level share one union: the next call writes there again.

The operands are emitted as three-address code, with the numbers that `gensym`
gives to the temporaries. The order in which C evaluates the two arguments of
`strncmp` is open, so both are looked at. What the functions of the script
return, and what they leave in their locals, is a parameter (`Script`); they
change no variable.
-/

namespace Systemtap.Trans

open Systemtap.Tree Systemtap.Lex Sem Opt List Nat CStr

/-- The operands of a string comparison. `string` tells text from numbers; a
literal is given by the bytes that C reads in it. -/
inductive Operand where
  | literalString (text : Str)
  | literalNumber (value : I64)
  | symbol (string : Bool) (v : Nat)
  | arrayindex (string : Bool) (a : Nat) (indexes : List Operand)
  | concatenation (left right : Operand)
  | sprint (format : Format) (args : List Operand)
  | functioncall (f : FnId) (args : List Operand)

/-- Where the functions keep their results: `before f` bytes of
`struct function_f_locals` stand in front of `__retvalue`, its last field. -/
structure Layout where
  string : FnId → Bool
  before : FnId → Nat

/-- The size of `struct function_f_locals`. -/
def Layout.size (L : Layout) (f : FnId) : Nat :=
  L.before f + if L.string f then maxStringLen else 8

/-- What an expression evaluates to: a number, or the bytes up to the zero byte. -/
inductive Datum where
  | long (n : I64)
  | text (bytes : Str)
deriving DecidableEq

namespace Datum

def bytes : Datum → Str
  | .long _ => []
  | .text bs => bs

/-- `c_assign` into a variable: a string is cut to fit. -/
def copied : Datum → Value
  | .long n => .long n
  | .text bs => .str (ofBytes bs)

/-- What a variable holds. -/
def ofValue : Value → Datum
  | .long n => .long n
  | .str s => .text s.bytes

end Datum

/-- The rest of the script, and the state of the kernel `W` that its functions
look at: variables, elements, formatted output, and of each call what it
returns, what comes after it, and what it leaves in its locals. -/
structure Script (W : Type) where
  str : Nat → CStr
  num : Nat → I64
  strElem : Nat → List Datum → CStr
  numElem : Nat → List Datum → I64
  sprint : Format → List Datum → CStr
  returnsStr : FnId → List Value → W → CStr
  returnsNum : FnId → List Value → W → I64
  after : FnId → List Value → W → W
  leaves : FnId → List Value → W → Nat → UInt8

variable {W : Type}

def Script.var (S : Script W) (string : Bool) (v : Nat) : Datum :=
  if string then .text (S.str v).bytes else .long (S.num v)

def Script.elem (S : Script W) (string : Bool) (a : Nat) (keys : List Datum) : Datum :=
  if string then .text (S.strElem a keys).bytes else .long (S.numElem a keys)

def Script.returns (S : Script W) (L : Layout) (f : FnId) (args : List Value) (w : W) : Datum :=
  if L.string f then .text (S.returnsStr f args w).bytes else .long (S.returnsNum f args w)

mutual

/-- The value of an expression, parts from left to right. -/
def Operand.value (S : Script W) (L : Layout) : Operand → W → Datum × W
  | .literalString text, w => (.text (cString text), w)
  | .literalNumber n, w => (.long n, w)
  | .symbol string v, w => (S.var string v, w)
  | .arrayindex string a idx, w =>
    let (keys, w) := valueArgs S L idx w
    (S.elem string a keys, w)
  | .concatenation l r, w =>
    let (x, w) := l.value S L w
    let (y, w) := r.value S L w
    (.text ((ofBytes x.bytes).append (ofBytes y.bytes)).bytes, w)
  | .sprint format args, w =>
    let (xs, w) := valueArgs S L args w
    (.text (S.sprint format xs).bytes, w)
  | .functioncall f args, w =>
    let (xs, w) := valueArgs S L args w
    (S.returns L f (xs.map Datum.copied) w, S.after f (xs.map Datum.copied) w)

def valueArgs (S : Script W) (L : Layout) : List Operand → W → List Datum × W
  | [], w => ([], w)
  | e :: es, w =>
    let (x, w) := e.value S L w
    let (xs, w) := valueArgs S L es w
    (x :: xs, w)

end

/-- The expression is of type string. -/
def Operand.isString (L : Layout) : Operand → Bool
  | .literalString _ | .concatenation _ _ | .sprint _ _ => true
  | .literalNumber _ => false
  | .symbol string _ | .arrayindex string _ _ => string
  | .functioncall f _ => L.string f

/-! ## Emitted code -/

/-- A C expression without side effects: a literal, a variable, a temporary, or
the result of the last call, which is a pointer into the locals of the callee
if it is a string. -/
inductive CVal where
  | text (bytes : Str)
  | number (n : I64)
  | var (string : Bool) (v : Nat)
  | tmp (t : Nat)
  | retvalue (f : FnId)
  | retnumber
deriving DecidableEq

/-- A C statement. -/
inductive Instr where
  /-- `c_assign` to a temporary. -/
  | assign (t : Nat) (src : CVal)
  /-- `c_strcat` to a temporary. -/
  | strcat (t : Nat) (src : CVal)
  /-- `c_assign` of `mapvar::get` to a temporary. -/
  | mapGet (t : Nat) (string : Bool) (a : Nat) (idx : List CVal)
  | snprintf (t : Nat) (format : Format) (args : List CVal)
  /-- Copy the arguments into the formals of the next nesting level and call. -/
  | call (f : FnId) (args : List CVal)

/-- What a visit emits: statements, the expression that stands for the value,
and `tmpvar_counter` after it. -/
structure Emitted (α : Type) where
  code : List Instr
  val : α
  next : Nat

/-- Numeric and string constants take the place of their temporary. -/
def Operand.literal? : Operand → Option CVal
  | .literalString text => some (.text (cString text))
  | .literalNumber n => some (.number n)
  | _ => none

mutual

/-- The visitors of `c_unparser`, from temporary `k` on. -/
def Operand.visit (L : Layout) : Operand → Nat → Emitted CVal
  | .literalString text, k => ⟨[], .text (cString text), k⟩
  | .literalNumber n, k => ⟨[], .number n, k⟩
  | .symbol string v, k => ⟨[], .var string v, k⟩
  | .arrayindex string a idx, k =>
    let i := visitArgs L idx k
    ⟨i.code ++ [.mapGet i.next string a i.val], .tmp i.next, i.next + 1⟩
  | .concatenation l r, k =>
    let x := l.visit L (k + 1)
    let y := r.visit L x.next
    ⟨x.code ++ [.assign k x.val] ++ y.code ++ [.strcat k y.val], .tmp k, y.next⟩
  | .sprint format args, k =>
    let i := visitArgs L args k
    ⟨i.code ++ [.snprintf i.next format i.val], .tmp i.next, i.next + 1⟩
  | .functioncall f args, k =>
    let i := visitArgs L args k
    ⟨i.code ++ [.call f i.val], if L.string f then .retvalue f else .retnumber, i.next⟩

/-- Arguments and indexes: each has a temporary, which a constant replaces. -/
def visitArgs (L : Layout) : List Operand → Nat → Emitted (List CVal)
  | [], k => ⟨[], [], k⟩
  | e :: es, k =>
    match e.literal? with
    | some v =>
      let ys := visitArgs L es (k + 1)
      ⟨ys.code, v :: ys.val, ys.next⟩
    | none =>
      let x := e.visit L (k + 1)
      let ys := visitArgs L es x.next
      ⟨x.code ++ [.assign k x.val] ++ ys.code, .tmp k :: ys.val, ys.next⟩

end

/-! ## Running it -/

/-- The caller's temporaries, the bytes of `c->locals[c->nesting+1]`, the last
number that a call returned, and the kernel. -/
structure Machine (W : Type) where
  tmp : Nat → Value
  locals : Nat → UInt8
  number : I64
  world : W

/-- The string that starts at a byte, as far as `MAXSTRINGLEN` reaches. -/
def textAt (locals : Nat → UInt8) (off : Nat) : Str :=
  cString ((List.range maxStringLen).map fun i => locals (off + i))

/-- What a C expression evaluates to now. -/
def CVal.load (S : Script W) (L : Layout) (m : Machine W) : CVal → Datum
  | .text bs => .text bs
  | .number n => .long n
  | .var string v => S.var string v
  | .tmp t => .ofValue (m.tmp t)
  | .retvalue f => .text (textAt m.locals (L.before f))
  | .retnumber => .long m.number

/-- The union after a call of `f`: its result is in `__retvalue`, the rest of its
struct is as the body left it, and bytes past its struct are not touched. -/
def leaveCall (L : Layout) (f : FnId) (result : CStr) (leaves locals : Nat → UInt8) :
    Nat → UInt8 := fun i =>
  if i < L.size f then
    if L.string f ∧ L.before f ≤ i ∧ i ≤ L.before f + result.bytes.length then
      result.bytes.getD (i - L.before f) 0
    else leaves i
  else locals i

def Machine.setTmp (m : Machine W) (t : Nat) (x : Value) : Machine W :=
  { m with tmp := Function.update m.tmp t x }

theorem Machine.setTmp_self (m : Machine W) (t : Nat) (x : Value) : (m.setTmp t x).tmp t = x :=
  Function.update_self ..

def Instr.step (S : Script W) (L : Layout) (m : Machine W) : Instr → Machine W
  | .assign t src => m.setTmp t (src.load S L m).copied
  | .strcat t src =>
    m.setTmp t (.str (ofBytes ((Datum.ofValue (m.tmp t)).bytes ++ (src.load S L m).bytes)))
  | .mapGet t string a idx =>
    m.setTmp t (S.elem string a (idx.map (CVal.load S L m))).copied
  | .snprintf t format args =>
    m.setTmp t (.str (S.sprint format (args.map (CVal.load S L m))))
  | .call f args =>
    let xs := args.map fun v => (v.load S L m).copied
    { m with
      locals := leaveCall L f (S.returnsStr f xs m.world) (S.leaves f xs m.world) m.locals
      number := S.returnsNum f xs m.world
      world := S.after f xs m.world }

def runCode (S : Script W) (L : Layout) (code : List Instr) (m : Machine W) : Machine W :=
  code.foldl (Instr.step S L) m

/-! ## The comparison -/

/-- `c_unparser::visit_comparison` on strings: run both operands, in the order
that the C compiler chose, then look at what the pointers lead to. -/
def emittedCompare (S : Script W) (L : Layout) (leftFirst : Bool) (op : CmpOp) (l r : Operand)
    (m : Machine W) : Bool :=
  let x := l.visit L 0
  let y := r.visit L x.next
  let m := runCode S L (if leftFirst then x.code ++ y.code else y.code ++ x.code) m
  holds op (strncmp maxStringLen (x.val.load S L m).bytes (y.val.load S L m).bytes)

/-- The comparison of the values, evaluated in the same order. -/
def valueCompare (S : Script W) (L : Layout) (leftFirst : Bool) (op : CmpOp) (l r : Operand)
    (w : W) : Bool :=
  if leftFirst then
    let (x, w) := l.value S L w
    let (y, _) := r.value S L w
    holds op (compareStr x.bytes y.bytes)
  else
    let (y, w) := r.value S L w
    let (x, _) := l.value S L w
    holds op (compareStr x.bytes y.bytes)

/-! ## Strings in buffers -/

theorem cString_of_notMem {bs : Str} (h : 0 ∉ bs) : cString bs = bs :=
  takeWhile_eq_self_iff.mpr fun b hb => by simpa using fun h0 : b = 0 => h (h0 ▸ hb)

/-- A string that is copied again is not cut again. -/
@[simp] theorem CStr.ofBytes_bytes (s : CStr) : ofBytes s.bytes = s := by
  have hshort := s.short
  have htake : s.bytes.take (maxStringLen - 1) = s.bytes :=
    take_of_length_le (by omega)
  have hbytes : (ofBytes s.bytes).bytes = s.bytes := by
    change (cString s.bytes).take (maxStringLen - 1) = s.bytes
    rw [cString_of_notMem s.nonzero, htake]
  exact mk.injEq .. ▸ hbytes

/-- What is copied into a variable is what the variable then holds, if it fits. -/
def Datum.Fits (x : Datum) : Prop := Datum.ofValue x.copied = x

@[simp] theorem Datum.fits_text (s : CStr) : (Datum.text s.bytes).Fits := by
  simp [Datum.Fits, Datum.copied, Datum.ofValue]

@[simp] theorem Datum.fits_long (n : I64) : (Datum.long n).Fits := rfl

theorem Datum.Fits.bytes_eq {x : Datum} (h : x.Fits) : (ofBytes x.bytes).bytes = x.bytes := by
  cases x with
  | long n => rfl
  | text bs => exact congrArg Datum.bytes h

/-- The bytes of a buffer up to the first zero byte. -/
theorem cString_map_range {n : Nat} {s : Str} (g : Nat → UInt8) (hlen : s.length < n)
    (hs : 0 ∉ s) (hg : ∀ i, i < s.length → g i = s.getD i 0) (hend : g s.length = 0) :
    cString ((range n).map g) = s := by
  induction s generalizing n g with
  | nil =>
    cases n with
    | zero => exact absurd hlen (not_lt_zero _)
    | succ n =>
      have h0 : g 0 = 0 := hend
      simp [range_succ_eq_map, cString, h0]
  | cons b bs ih =>
    cases n with
    | zero => exact absurd hlen (not_lt_zero _)
    | succ n =>
      rw [mem_cons, not_or] at hs
      have h0 : g 0 = b := hg 0 (zero_lt_succ _)
      have hb : b ≠ 0 := Ne.symm hs.1
      rw [range_succ_eq_map, map_cons, map_map, h0]
      have htail := ih (fun i => g (i + 1)) (lt_of_succ_lt_succ hlen) hs.2
        (fun i hi => hg (i + 1) (succ_lt_succ hi)) hend
      unfold cString at htail ⊢
      rw [takeWhile_cons_of_pos (by simpa using hb)]
      exact congrArg (b :: ·) htail

/-- The result of a string function is where the caller looks for it. -/
theorem textAt_leaveCall {L : Layout} {f : FnId} (hf : L.string f = true) (s : CStr)
    (leaves locals : Nat → UInt8) :
    textAt (leaveCall L f s leaves locals) (L.before f) = s.bytes := by
  have hsize : L.size f = L.before f + maxStringLen := by simp [Layout.size, hf]
  have hshort := s.short
  refine cString_map_range _ s.short s.nonzero (fun i hi => ?_) ?_
  · unfold leaveCall
    rw [if_pos (by omega), if_pos ⟨hf, by omega, by omega⟩, Nat.add_sub_cancel_left]
  · unfold leaveCall
    rw [if_pos (by omega), if_pos ⟨hf, by omega, by omega⟩, Nat.add_sub_cancel_left]
    simp

/-- A string is what its bytes are. -/
theorem textAt_congr {locals locals' : Nat → UInt8} {off : Nat}
    (h : ∀ i, off ≤ i → locals' i = locals i) : textAt locals' off = textAt locals off := by
  unfold textAt
  rw [map_congr_left fun i _ => h (off + i) (le_add_right off i)]

/-! ## Operands are evaluated right -/

mutual

/-- The functions that an expression calls, at the next nesting level. -/
def Operand.calls : Operand → List FnId
  | .literalString _ | .literalNumber _ | .symbol _ _ => []
  | .arrayindex _ _ idx => callsArgs idx
  | .concatenation l r => l.calls ++ r.calls
  | .sprint _ args => callsArgs args
  | .functioncall f args => callsArgs args ++ [f]

def callsArgs : List Operand → List FnId
  | [] => []
  | e :: es => e.calls ++ callsArgs es

end

/-- Between `m` and `m'` only temporaries from `k` to `n` were written, and only
the locals of functions in `fs`. -/
structure Touches (L : Layout) (k n : Nat) (fs : List FnId) (m m' : Machine W) : Prop where
  tmp : ∀ t, t < k ∨ n ≤ t → m'.tmp t = m.tmp t
  locals : ∀ i, (∀ f ∈ fs, L.size f ≤ i) → m'.locals i = m.locals i

namespace Touches

variable {L : Layout} {k n : Nat} {fs gs : List FnId} {m m' m'' : Machine W}

theorem refl (m : Machine W) : Touches L k n fs m m := ⟨fun _ _ => rfl, fun _ _ => rfl⟩

theorem trans (h : Touches L k n fs m m') (h' : Touches L k n gs m' m'') :
    Touches L k n (fs ++ gs) m m'' where
  tmp t ht := (h'.tmp t ht).trans (h.tmp t ht)
  locals i hi := (h'.locals i fun f hf => hi f (mem_append_right _ hf)).trans
    (h.locals i fun f hf => hi f (mem_append_left _ hf))

theorem widen {k' n' : Nat} (h : Touches L k n fs m m') (hk : k' ≤ k) (hn : n ≤ n') :
    Touches L k' n' fs m m' where
  tmp t ht := h.tmp t (by omega)
  locals := h.locals

/-- One temporary more. -/
theorem setTmp (h : Touches L k n fs m m') {t : Nat} (hk : k ≤ t) (hn : t < n) (x : Value) :
    Touches L k n fs m (m'.setTmp t x) where
  tmp u hu := (Function.update_of_ne (by omega) _ _).trans (h.tmp u hu)
  locals := h.locals

end Touches

/-- The expression keeps its value as long as the temporaries from `k` to `n` do. -/
def CVal.Kept (k n : Nat) : CVal → Prop
  | .text _ | .number _ | .var _ _ => True
  | .tmp t => k ≤ t ∧ t < n
  | .retvalue _ | .retnumber => False

theorem CVal.Kept.widen {k n k' n' : Nat} {v : CVal} (h : v.Kept k n) (hk : k' ≤ k) (hn : n ≤ n') :
    v.Kept k' n' := by
  cases v with
  | text | number | var => trivial
  | tmp t => exact ⟨hk.trans h.1, h.2.trans_le hn⟩
  | retvalue | retnumber => exact h

theorem CVal.Kept.load_eq {S : Script W} {L : Layout} {k n : Nat} {v : CVal} (h : v.Kept k n)
    {m m' : Machine W} (ht : ∀ t, k ≤ t → t < n → m'.tmp t = m.tmp t) :
    v.load S L m' = v.load S L m := by
  cases v with
  | text | number | var => rfl
  | tmp t => exact congrArg Datum.ofValue (ht t h.1 h.2)
  | retvalue | retnumber => exact h.elim

theorem CVal.load_tmp (S : Script W) (L : Layout) (m : Machine W) (t : Nat) :
    (CVal.tmp t).load S L m = Datum.ofValue (m.tmp t) := rfl

@[simp] theorem runCode_append (S : Script W) (L : Layout) (c c' : List Instr) (m : Machine W) :
    runCode S L (c ++ c') m = runCode S L c' (runCode S L c m) := foldl_append ..

@[simp] theorem runCode_singleton (S : Script W) (L : Layout) (i : Instr) (m : Machine W) :
    runCode S L [i] m = i.step S L m := rfl

/-- What the code of an expression does, from temporary `k` on. -/
structure Evaluates (S : Script W) (L : Layout) (e : Operand) (k : Nat) (m : Machine W) : Prop where
  next : k ≤ (e.visit L k).next
  touches : Touches L k (e.visit L k).next e.calls m (runCode S L (e.visit L k).code m)
  world : (runCode S L (e.visit L k).code m).world = (e.value S L m.world).2
  val : (e.visit L k).val.load S L (runCode S L (e.visit L k).code m) = (e.value S L m.world).1
  kept : (e.visit L k).val.Kept k (e.visit L k).next ∨ ∃ f args, e = .functioncall f args

/-- The same of a list of arguments, which all end up in temporaries. -/
structure EvaluatesArgs (S : Script W) (L : Layout) (es : List Operand) (k : Nat)
    (m : Machine W) : Prop where
  next : k ≤ (visitArgs L es k).next
  touches : Touches L k (visitArgs L es k).next (callsArgs es) m
    (runCode S L (visitArgs L es k).code m)
  world : (runCode S L (visitArgs L es k).code m).world = (valueArgs S L es m.world).2
  val : (visitArgs L es k).val.map (CVal.load S L (runCode S L (visitArgs L es k).code m)) =
    (valueArgs S L es m.world).1
  kept : ∀ v ∈ (visitArgs L es k).val, v.Kept k (visitArgs L es k).next

/-- Only a literal may be too long for a variable. -/
theorem Operand.fits (S : Script W) (L : Layout) {e : Operand} (h : e.literal? = none) (w : W) :
    (e.value S L w).1.Fits := by
  cases e with
  | literalString | literalNumber => exact nomatch h
  | symbol string v => cases string <;> simp [Operand.value, Script.var]
  | arrayindex string a idx => cases string <;> simp [Operand.value, Script.elem]
  | concatenation | sprint => simp [Operand.value]
  | functioncall f args => cases hf : L.string f <;> simp [Operand.value, Script.returns, hf]

theorem Operand.calls_of_literal {e : Operand} {v : CVal} (h : e.literal? = some v) :
    e.calls = [] := by
  cases e with
  | literalString | literalNumber => rfl
  | _ => exact nomatch h

theorem Operand.value_of_literal {S : Script W} {L : Layout} {e : Operand} {v : CVal}
    (h : e.literal? = some v) (w : W) (m : Machine W) :
    e.value S L w = (v.load S L m, w) ∧ e.calls = [] ∧ ∀ k n, v.Kept k n := by
  cases e with
  | literalString text | literalNumber n =>
    obtain rfl := Option.some.inj h
    exact ⟨rfl, rfl, fun _ _ => trivial⟩
  | _ => exact nomatch h

theorem CStr.ext_bytes {s t : CStr} (h : s.bytes = t.bytes) : s = t := by
  exact mk.injEq .. ▸ h

/-- `strlcat` of a string that is too long for a variable cuts it where a copy
would have been cut. -/
theorem CStr.append_ofBytes (a : CStr) (b : Str) :
    a.append (ofBytes b) = ofBytes (a.bytes ++ b) := by
  have hcut : ∀ c : Str, cString (a.bytes ++ c) = a.bytes ++ cString c := by
    intro c
    refine takeWhile_append_of_pos fun x hx => ?_
    simpa using fun h0 : x = 0 => a.nonzero (h0 ▸ hx)
  refine ext_bytes ?_
  change (cString (a.bytes ++ (cString b).take (maxStringLen - 1))).take (maxStringLen - 1) =
    (cString (a.bytes ++ b)).take (maxStringLen - 1)
  have hnul : 0 ∉ (cString b).take (maxStringLen - 1) := (ofBytes b).nonzero
  rw [hcut, hcut, cString_of_notMem hnul, take_append, take_append, take_take,
    min_eq_left (sub_le _ _)]

theorem Datum.bytes_copied (x : Datum) :
    (Datum.ofValue x.copied).bytes = (ofBytes x.bytes).bytes := by
  cases x <;> rfl

section Evaluates

variable {S : Script W} {L : Layout} {k : Nat} {m : Machine W} {es : List Operand}

/-- A construct that fills one more temporary from its arguments. -/
theorem EvaluatesArgs.fill (h : EvaluatesArgs S L es k m) {e : Operand} {ins : Instr} {x : Datum}
    (hvisit : e.visit L k = ⟨(visitArgs L es k).code ++ [ins], .tmp (visitArgs L es k).next,
      (visitArgs L es k).next + 1⟩) (hcalls : e.calls = callsArgs es)
    (hstep : ins.step S L (runCode S L (visitArgs L es k).code m) =
      (runCode S L (visitArgs L es k).code m).setTmp (visitArgs L es k).next x.copied) (hx : x.Fits)
    (hvalue : e.value S L m.world = (x, (valueArgs S L es m.world).2)) : Evaluates S L e k m := by
  have hrun := congrArg (fun v => runCode S L v.code m) hvisit
  simp only [runCode_append, runCode_singleton, hstep] at hrun
  have hnext : (e.visit L k).next = (visitArgs L es k).next + 1 := by rw [hvisit]
  have hval : (e.visit L k).val = .tmp (visitArgs L es k).next := by rw [hvisit]
  constructor
  · rw [hnext]
    exact h.next.trans (le_succ _)
  · rw [hrun, hnext, hcalls]
    exact (h.touches.widen (le_refl _) (le_succ _)).setTmp h.next (lt_succ_self _) _
  · rw [hrun, hvalue]
    exact h.world
  · rw [hrun, hval, hvalue, CVal.load_tmp, Machine.setTmp_self]
    exact hx
  · rw [hval, hnext]
    exact .inl ⟨h.next, lt_succ_self _⟩

theorem evaluates_arrayindex {string : Bool} {a : Nat} {idx : List Operand}
    (h : EvaluatesArgs S L idx k m) : Evaluates S L (.arrayindex string a idx) k m := by
  refine h.fill rfl rfl (x := S.elem string a (valueArgs S L idx m.world).1) ?_ ?_ rfl
  · rw [← h.val]
    rfl
  · cases string <;> simp [Script.elem]

theorem evaluates_sprint {format : Format} {args : List Operand}
    (h : EvaluatesArgs S L args k m) : Evaluates S L (.sprint format args) k m := by
  refine h.fill rfl rfl (x := .text (S.sprint format (valueArgs S L args m.world).1).bytes) ?_
    (Datum.fits_text _) rfl
  rw [← h.val, Datum.copied, CStr.ofBytes_bytes]
  rfl

theorem evaluates_functioncall {f : FnId} {args : List Operand}
    (h : EvaluatesArgs S L args k m) : Evaluates S L (.functioncall f args) k m := by
  have hargs : ((visitArgs L args k).val.map fun v =>
      (v.load S L (runCode S L (visitArgs L args k).code m)).copied) =
      (valueArgs S L args m.world).1.map Datum.copied := by
    rw [← h.val, map_map]
    rfl
  refine ⟨h.next, ?_, ?_, ?_, .inr ⟨f, args, rfl⟩⟩
  · simp only [Operand.visit, runCode_append, runCode_singleton]
    refine h.touches.trans ⟨fun _ _ => rfl, fun i hi => ?_⟩
    exact if_neg (not_lt.mpr (hi f (mem_singleton.mpr rfl)))
  · simp only [Operand.visit, runCode_append, runCode_singleton, Instr.step, hargs, h.world]
    rfl
  · simp only [Operand.visit, runCode_append, runCode_singleton, Instr.step, hargs, h.world]
    cases hf : L.string f with
    | true =>
      simp only [CVal.load, if_true, textAt_leaveCall hf]
      simp only [Operand.value, Script.returns, hf, if_true]
    | false => simp only [CVal.load, Operand.value, Script.returns, hf, Bool.false_eq_true, if_false]

theorem evaluates_concatenation {l r : Operand} (hl : Evaluates S L l (k + 1) m)
    (hr : ∀ m', Evaluates S L r (l.visit L (k + 1)).next m') :
    Evaluates S L (.concatenation l r) k m := by
  let m1 := runCode S L (l.visit L (k + 1)).code m
  let x := (l.value S L m.world).1
  have hr := hr (m1.setTmp k x.copied)
  have hk := hl.next
  have hk' := hr.next
  -- the left part stays in its temporary while the right part is evaluated
  have htmp := hr.touches.tmp k (.inl (by omega))
  have hself : (m1.setTmp k x.copied).tmp k = x.copied := m1.setTmp_self k _
  have hassign : Instr.step S L m1 (.assign k (l.visit L (k + 1)).val) = m1.setTmp k x.copied :=
    congrArg (fun d : Datum => m1.setTmp k d.copied) hl.val
  refine ⟨by simp only [Operand.visit]; omega, ?_, ?_, ?_, .inl ⟨le_refl _, ?_⟩⟩
  · simp only [Operand.visit, runCode_append, runCode_singleton]
    rw [hassign]
    refine Touches.setTmp ?_ (le_refl _) (by omega) _
    refine Touches.trans ?_ (hr.touches.widen (by omega) (le_refl _))
    exact (hl.touches.widen (by omega) hk').setTmp (le_refl _) (by omega) _
  · simp only [Operand.visit, runCode_append, runCode_singleton]
    rw [hassign]
    exact hr.world.trans (congrArg (fun w => (r.value S L w).2) hl.world)
  · simp only [Operand.visit, runCode_append, runCode_singleton]
    rw [hassign]
    have hworld : (m1.setTmp k x.copied).world = (l.value S L m.world).2 := hl.world
    rw [CVal.load_tmp, Instr.step, hr.val, htmp, hself, hworld, Datum.bytes_copied,
      ← CStr.append_ofBytes, Machine.setTmp_self]
    rfl
  · simp only [Operand.visit]
    omega

theorem evaluatesArgs_literal {e : Operand} {v : CVal} (hv : e.literal? = some v)
    (h : EvaluatesArgs S L es (k + 1) m) : EvaluatesArgs S L (e :: es) k m := by
  have hvisit : visitArgs L (e :: es) k = ⟨(visitArgs L es (k + 1)).code,
      v :: (visitArgs L es (k + 1)).val, (visitArgs L es (k + 1)).next⟩ := by
    rw [visitArgs, hv]
  obtain ⟨hvalue, hcalls, hkept⟩ := Operand.value_of_literal (S := S) (L := L) hv m.world
    (runCode S L (visitArgs L es (k + 1)).code m)
  have hargs : valueArgs S L (e :: es) m.world =
      (v.load S L (runCode S L (visitArgs L es (k + 1)).code m) ::
        (valueArgs S L es m.world).1, (valueArgs S L es m.world).2) := by
    rw [valueArgs, hvalue]
  have hk := h.next
  refine ⟨?_, ?_, ?_, ?_, ?_⟩
  · rw [hvisit]
    exact (le_succ k).trans hk
  · rw [hvisit, callsArgs, hcalls]
    exact h.touches.widen (le_succ k) (le_refl _)
  · rw [hvisit, hargs]
    exact h.world
  · rw [hvisit, hargs]
    exact congrArg _ h.val
  · rw [hvisit]
    refine forall_mem_cons.mpr ⟨hkept _ _, fun u hu => ?_⟩
    exact (h.kept u hu).widen (le_succ k) (le_refl _)

theorem evaluatesArgs_cons {e : Operand} (he : e.literal? = none) (h : Evaluates S L e (k + 1) m)
    (hs : ∀ m', EvaluatesArgs S L es (e.visit L (k + 1)).next m') :
    EvaluatesArgs S L (e :: es) k m := by
  let m1 := runCode S L (e.visit L (k + 1)).code m
  let x := (e.value S L m.world).1
  have hvisit : visitArgs L (e :: es) k = ⟨(e.visit L (k + 1)).code ++
      [.assign k (e.visit L (k + 1)).val] ++ (visitArgs L es (e.visit L (k + 1)).next).code,
      .tmp k :: (visitArgs L es (e.visit L (k + 1)).next).val,
      (visitArgs L es (e.visit L (k + 1)).next).next⟩ := by
    rw [visitArgs, he]
  have hs := hs (m1.setTmp k x.copied)
  have hk := h.next
  have hk' := hs.next
  have hassign : Instr.step S L m1 (.assign k (e.visit L (k + 1)).val) = m1.setTmp k x.copied :=
    congrArg (fun d : Datum => m1.setTmp k d.copied) h.val
  have hrun : runCode S L (visitArgs L (e :: es) k).code m =
      runCode S L (visitArgs L es (e.visit L (k + 1)).next).code (m1.setTmp k x.copied) := by
    rw [hvisit, runCode_append, runCode_append, runCode_singleton, ← hassign]
  have hargs : valueArgs S L (e :: es) m.world =
      (x :: (valueArgs S L es (m1.setTmp k x.copied).world).1,
        (valueArgs S L es (m1.setTmp k x.copied).world).2) := by
    have hworld : (m1.setTmp k x.copied).world = (e.value S L m.world).2 := h.world
    rw [valueArgs, hworld]
  refine ⟨?_, ?_, ?_, ?_, ?_⟩
  · rw [hvisit]
    change k ≤ (visitArgs L es (e.visit L (k + 1)).next).next
    omega
  · rw [hrun, hvisit, callsArgs]
    refine Touches.trans ?_ (hs.touches.widen (by omega) (le_refl _))
    exact (h.touches.widen (by omega) hk').setTmp (le_refl _)
      (show k < (visitArgs L es (e.visit L (k + 1)).next).next by omega) _
  · rw [hrun, hargs]
    exact hs.world
  · rw [hrun, hargs, hvisit, map_cons, hs.val]
    -- the later arguments are evaluated in temporaries of their own
    have htmp := hs.touches.tmp k (.inl (by omega))
    have hself : (m1.setTmp k x.copied).tmp k = x.copied := m1.setTmp_self k _
    simp only [CVal.load]
    rw [htmp, hself, Operand.fits S L he m.world]
  · rw [hvisit]
    refine forall_mem_cons.mpr ⟨⟨le_refl _, ?_⟩, fun u hu => ?_⟩
    · change k < (visitArgs L es (e.visit L (k + 1)).next).next
      omega
    · exact (hs.kept u hu).widen (by omega) (le_refl _)

end Evaluates

mutual

/-- **The emitted code of an operand evaluates it**, at once after it has run. -/
theorem Operand.evaluates (S : Script W) (L : Layout) :
    ∀ (e : Operand) (k : Nat) (m : Machine W), Evaluates S L e k m
  | .literalString _, _, m | .literalNumber _, _, m | .symbol _ _, _, m =>
    ⟨le_refl _, .refl m, rfl, rfl, .inl trivial⟩
  | .arrayindex _ _ idx, k, m => evaluates_arrayindex (evaluatesArgs S L idx k m)
  | .concatenation l r, k, m =>
    evaluates_concatenation (l.evaluates S L (k + 1) m) fun m' => r.evaluates S L _ m'
  | .sprint _ args, k, m => evaluates_sprint (evaluatesArgs S L args k m)
  | .functioncall _ args, k, m => evaluates_functioncall (evaluatesArgs S L args k m)

theorem evaluatesArgs (S : Script W) (L : Layout) :
    ∀ (es : List Operand) (k : Nat) (m : Machine W), EvaluatesArgs S L es k m
  | [], _, m => ⟨le_refl _, .refl m, rfl, rfl, fun _ h => absurd h not_mem_nil⟩
  | e :: es, k, m => by
    cases he : e.literal? with
    | some v => exact evaluatesArgs_literal he (evaluatesArgs S L es (k + 1) m)
    | none =>
      exact evaluatesArgs_cons he (e.evaluates S L (k + 1) m) fun m' => evaluatesArgs S L es _ m'

end

/-! ## What `strncmp` tells -/

theorem compareStr_take {n : Nat} {a b : Str} (h : a.take n ≠ b.take n) :
    compareStr (a.take n) (b.take n) = compareStr a b := by
  induction n generalizing a b with
  | zero => exact absurd rfl h
  | succ n ih =>
    cases a with
    | nil =>
      cases b with
      | nil => exact absurd rfl h
      | cons y ys => rfl
    | cons x xs =>
      cases b with
      | nil => rfl
      | cons y ys =>
        simp only [take_succ_cons, compareStr]
        by_cases hxy : x = y
        · rw [ih fun heq => h (by rw [take_succ_cons, take_succ_cons, hxy, heq])]
        · by_cases hlt : x < y
          · rw [if_pos hlt, if_pos hlt]
          · have hgt : y < x := UInt8.lt_of_le_of_ne (UInt8.not_lt.1 hlt) (Ne.symm hxy)
            rw [if_neg hlt, if_pos hgt, if_neg hlt, if_pos hgt]

/-- `strncmp` gives the order of two strings unless they differ only where it
does not look. -/
theorem strncmp_eq_compareStr_iff {n : Nat} {a b : Str} (ha : 0 ∉ a) (hb : 0 ∉ b) :
    strncmp n a b = compareStr a b ↔ a = b ∨ a.take n ≠ b.take n := by
  rw [strncmp_eq_compareStr, cString_of_notMem ha, cString_of_notMem hb]
  constructor
  · intro h
    by_cases heq : a.take n = b.take n
    · rw [heq, (compareStr_eq_eq _ _).mpr rfl] at h
      exact .inl ((compareStr_eq_eq a b).mp h.symm)
    · exact .inr heq
  · rintro (rfl | h)
    · rw [(compareStr_eq_eq _ _).mpr rfl, (compareStr_eq_eq _ _).mpr rfl]
    · exact compareStr_take h

theorem eq_or_take_ne {n : Nat} {a b : Str} (h : a.length < n ∨ b.length < n) :
    a = b ∨ a.take n ≠ b.take n := by
  by_cases heq : a.take n = b.take n
  · -- one of them is not cut, so neither is the other
    have hlen := congrArg length heq
    rw [length_take, length_take] at hlen
    rw [take_of_length_le (by omega), take_of_length_le (by omega)] at heq
    exact .inl heq
  · exact .inr heq

/-- All six operators together tell the order. -/
theorem eq_of_holds_eq {o o' : Ordering} (h : ∀ op, holds op o = holds op o') : o = o' := by
  have hlt := h .lt
  have hgt := h .gt
  cases o <;> cases o' <;> simp_all [holds]

theorem Datum.Fits.nonzero {x : Datum} (h : x.Fits) : 0 ∉ x.bytes := by
  rw [← h.bytes_eq]
  exact (ofBytes x.bytes).nonzero

theorem Datum.Fits.short {x : Datum} (h : x.Fits) : x.bytes.length < maxStringLen := by
  rw [← h.bytes_eq]
  exact (ofBytes x.bytes).short

theorem Operand.nonzero (S : Script W) (L : Layout) (e : Operand) (w : W) :
    0 ∉ (e.value S L w).1.bytes := by
  cases e with
  | literalString text => exact zero_notMem_cString text
  | literalNumber n => exact not_mem_nil
  | _ =>
    exact (Operand.fits S L rfl w).nonzero

/-! ## When the comparison is right -/

/-- The pointer to `x` survives the evaluation of `y`: unless `x` is a call, and
`y` calls a function whose locals reach into the result of that call. -/
def Undisturbed (L : Layout) (x y : Operand) : Prop :=
  ∀ f args, x = .functioncall f args → ∀ g ∈ y.calls, L.size g ≤ L.before f

/-- Two literals that differ do so within `MAXSTRINGLEN` bytes. -/
def LiteralsTold (l r : Operand) : Prop :=
  ∀ a b, l = .literalString a → r = .literalString b →
    cString a = cString b ∨ (cString a).take maxStringLen ≠ (cString b).take maxStringLen

section Right

variable {L : Layout} {l r x y : Operand}

/-- After `x` and then `y`, the pointer to `x` leads to the value of `x`. -/
theorem load_first {S : Script W} {m : Machine W} {kx ky : Nat} (hx : x.isString L = true)
    (hdisj : (x.visit L kx).next ≤ ky ∨ (y.visit L ky).next ≤ kx) (hu : Undisturbed L x y) :
    (x.visit L kx).val.load S L
      (runCode S L (y.visit L ky).code (runCode S L (x.visit L kx).code m)) =
      (x.value S L m.world).1 := by
  have ex := x.evaluates S L kx m
  have ey := y.evaluates S L ky (runCode S L (x.visit L kx).code m)
  refine Eq.trans ?_ ex.val
  rcases ex.kept with hkept | ⟨f, args, rfl⟩
  · exact hkept.load_eq fun t hk hn => ey.touches.tmp t (by omega)
  · have hf : L.string f = true := hx
    have hval : ((Operand.functioncall f args).visit L kx).val = .retvalue f := by
      simp only [Operand.visit, hf, if_true]
    rw [hval]
    refine congrArg Datum.text (textAt_congr fun i hi => ey.touches.locals i fun g hg => ?_)
    exact (hu f args rfl g hg).trans hi

/-- After `x` and then `y`, the pointer to `y` leads to the value of `y`. -/
theorem load_second {S : Script W} {m : Machine W} (kx ky : Nat) :
    (y.visit L ky).val.load S L
      (runCode S L (y.visit L ky).code (runCode S L (x.visit L kx).code m)) =
      (y.value S L (x.value S L m.world).2).1 := by
  have hworld := (x.evaluates S L kx m).world
  rw [(y.evaluates S L ky (runCode S L (x.visit L kx).code m)).val, hworld]

/-- What is not a literal on both sides is told apart by `strncmp`. -/
theorem strncmp_value {S : Script W} (hl : l.isString L = true) (hr : r.isString L = true)
    (hlit : LiteralsTold l r) (w w' : W) :
    strncmp maxStringLen (l.value S L w).1.bytes (r.value S L w').1.bytes =
      compareStr (l.value S L w).1.bytes (r.value S L w').1.bytes := by
  rw [strncmp_eq_compareStr_iff (l.nonzero S L w) (r.nonzero S L w')]
  cases hl' : l.literal? with
  | none => exact eq_or_take_ne (.inl (Operand.fits S L hl' w).short)
  | some v =>
    cases hr' : r.literal? with
    | none => exact eq_or_take_ne (.inr (Operand.fits S L hr' w').short)
    | some v' =>
      cases l with
      | literalString a =>
        cases r with
        | literalString b => exact hlit a b rfl rfl
        | literalNumber => exact nomatch hr
        | _ => exact nomatch hr'
      | literalNumber => exact nomatch hl
      | _ => exact nomatch hl'

theorem emittedCompare_of_undisturbed {leftFirst : Bool} (hl : l.isString L = true)
    (hr : r.isString L = true) (hu : if leftFirst then Undisturbed L l r else Undisturbed L r l)
    (hlit : LiteralsTold l r) (S : Script W) (op : CmpOp) (m : Machine W) :
    emittedCompare S L leftFirst op l r m = valueCompare S L leftFirst op l r m.world := by
  unfold emittedCompare valueCompare
  cases leftFirst with
  | true =>
    simp only [if_true, runCode_append] at hu ⊢
    rw [load_first hl (.inl (le_refl _)) hu, load_second, strncmp_value hl hr hlit]
  | false =>
    simp only [Bool.false_eq_true, if_false, runCode_append] at hu ⊢
    rw [load_first hr (.inr (le_refl _)) hu, load_second, strncmp_value hl hr hlit]

end Right

/-! ## When it is not

A script whose functions return the texts of a list, one after the other, and
the empty string after that. They leave their locals full of zeros. -/

def inTurn : Script (List CStr) where
  str _ := .empty
  num _ := 0
  strElem _ _ := .empty
  numElem _ _ := 0
  sprint _ _ := .empty
  returnsStr _ _ w := w.headD .empty
  returnsNum _ _ _ := 0
  after _ _ w := w.tail
  leaves _ _ _ _ := 0

section Wrong

variable {L : Layout}

mutual

theorem inTurn_world : ∀ (e : Operand) (w : List CStr),
    (e.value inTurn L w).2 = w.drop e.calls.length
  | .literalString _, _ | .literalNumber _, _ | .symbol _ _, _ => rfl
  | .arrayindex _ _ es, w | .sprint _ es, w => inTurnArgs_world es w
  | .concatenation l r, w => by
    change (r.value inTurn L (l.value inTurn L w).2).2 = _
    rw [inTurn_world r, inTurn_world l, Operand.calls, length_append, drop_drop]
  | .functioncall f args, w => by
    change (valueArgs inTurn L args w).2.tail = _
    rw [inTurnArgs_world args, Operand.calls, length_append, tail_drop]
    rfl

theorem inTurnArgs_world : ∀ (es : List Operand) (w : List CStr),
    (valueArgs inTurn L es w).2 = w.drop (callsArgs es).length
  | [], _ => rfl
  | e :: es, w => by
    change (valueArgs inTurn L es (e.value inTurn L w).2).2 = _
    rw [inTurnArgs_world es, inTurn_world e, callsArgs, length_append, drop_drop]

end

variable {m : Machine (List CStr)}

/-- After the last text a call makes all bytes of its struct zero, and leaves the others. -/
theorem call_zero (hw : m.world = []) {f : FnId} {args : List CVal} {j : Nat}
    (hj : m.locals j = 0 ∨ j < L.size f) :
    ((Instr.call f args).step inTurn L m).locals j = 0 := by
  simp only [Instr.step, inTurn, hw, leaveCall]
  split
  next hsize =>
    split
    · exact getD_eq_default _ _ (zero_le _)
    · rfl
  next hsize => exact hj.resolve_right hsize

/-- The byte is zero, or lies in the locals of one of the functions. -/
def Wiped (L : Layout) (j : Nat) (fs : List FnId) (m : Machine (List CStr)) : Prop :=
  m.locals j = 0 ∨ ∃ g ∈ fs, j < L.size g

theorem Wiped.left {j : Nat} {fs gs : List FnId} (h : Wiped L j (fs ++ gs) m) :
    Wiped L j fs m ∨ ∃ g ∈ gs, j < L.size g := by
  rcases h with h | ⟨g, hg, hj⟩
  · exact .inl (.inl h)
  · rcases mem_append.mp hg with hg | hg
    · exact .inl (.inr ⟨g, hg, hj⟩)
    · exact .inr ⟨g, hg, hj⟩

mutual

/-- After the last text the code of an expression keeps zero bytes, and its calls make more of
them. -/
theorem Operand.visit_zero {j : Nat} : ∀ (e : Operand) (k : Nat) (m : Machine (List CStr)),
    m.world = [] → Wiped L j e.calls m → (runCode inTurn L (e.visit L k).code m).locals j = 0
  | .literalString _, _, _, _, h | .literalNumber _, _, _, _, h | .symbol _ _, _, _, _, h =>
    h.resolve_right fun ⟨_, hg, _⟩ => not_mem_nil hg
  | .arrayindex _ _ es, k, m, hw, h | .sprint _ es, k, m, hw, h => by
    simp only [Operand.visit, runCode_append, runCode_singleton]
    exact visitArgs_zero es k m hw h
  | .concatenation l r, k, m, hw, h => by
    simp only [Operand.visit, runCode_append, runCode_singleton]
    refine r.visit_zero _ (Machine.setTmp _ _ _) ?_ ?_
    · change (runCode _ L (l.visit L (k + 1)).code m).world = []
      rw [(l.evaluates _ L (k + 1) m).world, inTurn_world, hw, drop_nil]
    · exact h.left.imp_left (l.visit_zero (k + 1) m hw)
  | .functioncall f args, k, m, hw, h => by
    simp only [Operand.visit, runCode_append, runCode_singleton]
    refine call_zero ?_ ?_
    · rw [(evaluatesArgs _ L args k m).world, inTurnArgs_world, hw, drop_nil]
    · refine h.left.imp (visitArgs_zero args k m hw) fun ⟨g, hg, hj⟩ => ?_
      rwa [mem_singleton.mp hg] at hj

theorem visitArgs_zero {j : Nat} : ∀ (es : List Operand) (k : Nat) (m : Machine (List CStr)),
    m.world = [] → Wiped L j (callsArgs es) m →
      (runCode inTurn L (visitArgs L es k).code m).locals j = 0
  | [], _, _, _, h => h.resolve_right fun ⟨_, hg, _⟩ => not_mem_nil hg
  | e :: es, k, m, hw, h => by
    rw [visitArgs]
    cases he : e.literal? with
    | some v =>
      rw [callsArgs, Operand.calls_of_literal he] at h
      exact visitArgs_zero es (k + 1) m hw h
    | none =>
      simp only [runCode_append, runCode_singleton]
      refine visitArgs_zero es _ (Machine.setTmp _ _ _) ?_ ?_
      · change (runCode _ L (e.visit L (k + 1)).code m).world = []
        rw [(e.evaluates _ L (k + 1) m).world, inTurn_world, hw, drop_nil]
      · exact h.left.imp_left (e.visit_zero (k + 1) m hw)

end

/-- An answer that differs from the empty string exactly if `ρ` does not. -/
def tellingAnswer (ρ : Str) : CStr := ofBytes (if ρ = [] then [98] else ρ)

theorem compareStr_tellingAnswer {x : Datum} (hx : x.Fits) :
    compareStr [] x.bytes ≠ compareStr (tellingAnswer x.bytes).bytes x.bytes ∧
      compareStr x.bytes [] ≠ compareStr x.bytes (tellingAnswer x.bytes).bytes := by
  unfold tellingAnswer
  by_cases h : x.bytes = []
  · rw [if_pos h, h]
    decide
  · rw [if_neg h, hx.bytes_eq, (compareStr_eq_eq _ _).mpr rfl]
    exact ⟨fun he => h ((compareStr_eq_eq _ _).mp he).symm,
      fun he => h ((compareStr_eq_eq _ _).mp he)⟩

theorem strncmp_nil_left {ρ : Str} (hρ : 0 ∉ ρ) : strncmp maxStringLen [] ρ = compareStr [] ρ :=
  (strncmp_eq_compareStr_iff not_mem_nil hρ).mpr (eq_or_take_ne (.inl (by decide)))

theorem strncmp_nil_right {ρ : Str} (hρ : 0 ∉ ρ) : strncmp maxStringLen ρ [] = compareStr ρ [] :=
  (strncmp_eq_compareStr_iff hρ not_mem_nil).mpr (eq_or_take_ne (.inr (by decide)))

/-- Temporaries and locals before anything has run. -/
def Machine.fresh (answers : List CStr) : Machine (List CStr) := ⟨fun _ => .long 0, fun _ => 0, 0, answers⟩

/-- A call is the one that gets the last text, and then a call in `y` wipes its result out: the
values differ from what `strncmp` is given. -/
theorem exists_disturbed {f g : FnId} {args : List Operand} {y : Operand} (hf : L.string f = true)
    (hg : g ∈ y.calls) (hsize : L.before f < L.size g) (kx ky : Nat) :
    let x := Operand.functioncall f args
    ∃ w, ∃ ρ : Datum, ρ.Fits ∧
      (x.value inTurn L w).1.bytes = (tellingAnswer ρ.bytes).bytes ∧
      (y.value inTurn L (x.value inTurn L w).2).1 = ρ ∧
      ((x.visit L kx).val.load inTurn L (runCode inTurn L (y.visit L ky).code
        (runCode inTurn L (x.visit L kx).code (.fresh w)))) = .text [] := by
  intro x
  let ρ := (y.value inTurn L []).1
  let w := replicate (callsArgs args).length .empty ++ [tellingAnswer ρ.bytes]
  have hargs : (valueArgs inTurn L args w).2 = [tellingAnswer ρ.bytes] := by
    rw [inTurnArgs_world, drop_left' (length_replicate ..)]
  have hx : x.value inTurn L w = (.text (tellingAnswer ρ.bytes).bytes, []) := by
    simp only [x, Operand.value, hargs, Script.returns, hf, if_true]
    rfl
  have hy : y.literal? = none := by
    cases hy : y.literal? with
    | none => rfl
    | some v => exact absurd (Operand.calls_of_literal hy ▸ hg) not_mem_nil
  refine ⟨w, ρ, Operand.fits _ L hy [], by rw [hx]; rfl, by rw [hx], ?_⟩
  have hval : (x.visit L kx).val = .retvalue f := by
    simp only [x, Operand.visit, hf, if_true]
  have hworld : (runCode inTurn L (x.visit L kx).code (.fresh w)).world = [] := by
    rw [(x.evaluates inTurn L kx (.fresh w)).world]
    exact congrArg Prod.snd hx
  have hzero := y.visit_zero ky _ hworld (.inr ⟨g, hg, hsize⟩)
  rw [hval]
  exact congrArg Datum.text (cString_map_range _ (by decide) not_mem_nil
    (fun i hi => absurd hi (not_lt_zero i)) hzero)

end Wrong

section Iff

variable {L : Layout} {l r : Operand}

theorem undisturbed_of_right {x y : Operand} (hx : x.isString L = true)
    (h : ∀ f args g, x = .functioncall f args → L.string f = true → g ∈ y.calls →
      ¬ L.before f < L.size g) : Undisturbed L x y := by
  rintro f args rfl g hg
  exact not_lt.mp (h f args g rfl hx hg)

theorem literalsTold_of_right {leftFirst : Bool}
    (h : ∀ (S : Script (List CStr)) (op : CmpOp) (m : Machine (List CStr)),
      emittedCompare S L leftFirst op l r m = valueCompare S L leftFirst op l r m.world) :
    LiteralsTold l r := by
  rintro a b rfl rfl
  refine (strncmp_eq_compareStr_iff (zero_notMem_cString a) (zero_notMem_cString b)).mp
    (eq_of_holds_eq fun op => ?_)
  have h := h inTurn op (.fresh [])
  cases leftFirst <;> exact h

/-- **A string comparison is right, whatever the functions return, exactly if**
the operand that is evaluated first is not a call that a call in the other one
writes over, and two literals do not differ only past `MAXSTRINGLEN`. -/
theorem comparison_right_iff (leftFirst : Bool) (hl : l.isString L = true)
    (hr : r.isString L = true) :
    (∀ (W : Type) (S : Script W) (op : CmpOp) (m : Machine W),
      emittedCompare S L leftFirst op l r m = valueCompare S L leftFirst op l r m.world) ↔
    (if leftFirst then Undisturbed L l r else Undisturbed L r l) ∧ LiteralsTold l r := by
  constructor
  · intro h
    refine ⟨?_, literalsTold_of_right (h _)⟩
    cases leftFirst with
    | true =>
      refine undisturbed_of_right hl ?_
      rintro f args g rfl hf hg hsize
      obtain ⟨w, ρ, hρ, hσ, hval, hload⟩ :=
        @exists_disturbed L f g args _ hf hg hsize 0
          ((Operand.functioncall f args).visit L 0).next
      have h := fun op => h _ inTurn op (.fresh w)
      simp only [emittedCompare, valueCompare, if_true, runCode_append, hload, load_second] at h
      have h := eq_of_holds_eq h
      rw [show (Machine.fresh w).world = w from rfl, hσ, hval] at h
      exact (compareStr_tellingAnswer hρ).1 ((strncmp_nil_left hρ.nonzero).symm.trans h)
    | false =>
      refine undisturbed_of_right hr ?_
      rintro f args g rfl hf hg hsize
      obtain ⟨w, ρ, hρ, hσ, hval, hload⟩ :=
        @exists_disturbed L f g args _ hf hg hsize (l.visit L 0).next 0
      have h := fun op => h _ inTurn op (.fresh w)
      simp only [emittedCompare, valueCompare, Bool.false_eq_true, if_false, runCode_append, hload,
        load_second] at h
      have h := eq_of_holds_eq h
      rw [show (Machine.fresh w).world = w from rfl, hσ, hval] at h
      exact (compareStr_tellingAnswer hρ).2 ((strncmp_nil_right hρ.nonzero).symm.trans h)
  · rintro ⟨hu, hlit⟩ W S op m
    exact emittedCompare_of_undisturbed hl hr hu hlit S op m

/-- `a . b == g (a)`, where `g` takes and returns a string, is right. -/
theorem comparison_right_concatenation :
    let L : Layout := ⟨fun _ => true, fun _ => maxStringLen⟩
    let l := Operand.concatenation (.symbol true 0) (.symbol true 1)
    let r := Operand.functioncall 0 [.symbol true 0]
    l.isString L = true ∧ r.isString L = true ∧
      ∀ (W : Type) (S : Script W) (op : CmpOp) (m : Machine W),
        emittedCompare S L true op l r m = valueCompare S L true op l r m.world := by
  intro L l r
  refine ⟨rfl, rfl, (comparison_right_iff true rfl rfl).mpr ⟨?_, ?_⟩⟩
  · intro f args h
    exact Operand.noConfusion h
  · intro a b h
    exact Operand.noConfusion h

/-- `function f (s) { return s }`: the one formal is in front of `__retvalue`. -/
def identityScript : Script Unit where
  str _ := .empty
  num _ := 0
  strElem _ _ := .empty
  numElem _ _ := 0
  sprint _ _ := .empty
  returnsStr _ args _ :=
    match args with
    | [.str s] => s
    | _ => .empty
  returnsNum _ _ _ := 0
  after _ _ w := w
  leaves _ _ _ _ := 0

/-- `f ("a") == f ("b")` is true: both pointers lead to the result of the call
that came last. -/
theorem comparison_wrong_of_two_calls :
    let L : Layout := ⟨fun _ => true, fun _ => maxStringLen⟩
    let l := Operand.functioncall 0 [.literalString [97]]
    let r := Operand.functioncall 0 [.literalString [98]]
    let m : Machine Unit := ⟨fun _ => .long 0, fun _ => 0, 0, ()⟩
    ∀ leftFirst,
      emittedCompare identityScript L leftFirst .eq l r m = true ∧
        valueCompare identityScript L leftFirst .eq l r m.world = false := by
  decide +kernel

end Iff

end Systemtap.Trans
