import Systemtap.Lex.Decode

/-!
# Command line arguments as strings

`lexer::scan` replaces `@N` by argument `N`, quoted by `lex_cast_qstring`, and scans on from there. So an
argument passes through three sets of rules: `lex_cast_qstring` writes a byte that is not printable as
three octal digits and puts a backslash before a quote and a backslash; the string branch of the scanner
reads that; and `visit_literal_string` writes the token into the C file, where C reads it.

Byte by byte the three agree (`cRun_argToken`), so the token denotes the argument. But the scanner also
joins string literals that stand next to each other, so the token goes on past the argument if the script
has one there: `keepsValue_iff`.
-/

namespace Systemtap.Lex

open Systemtap.Tree List

/-! ## The code -/

/-- `isprint`, in the locale that the translator runs in. -/
def isPrint (c : UInt8) : Bool := 32 ≤ c && c ≤ 126

def isDigit (c : UInt8) : Bool := 48 ≤ c && c ≤ 57

/-- `"01234567" [n & 0x07]` -/
def octalChar (n : UInt8) : UInt8 := 48 + (n &&& 7)

/-- What `lex_cast_qstring` writes for one byte. -/
def quoteByte (c : UInt8) : Str :=
  if !isPrint c then [backslash, octalChar (c >>> 6), octalChar (c >>> 3), octalChar c]
  else if c = quote ∨ c = backslash then [backslash, c]
  else [c]

/-- `lex_cast_qstring`, which reads its argument as a C string. -/
def lexCastQstring (s : Str) : Str := quote :: ((cString s).flatMap quoteByte ++ [quote])

inductive ArgError where
  /-- "invalid nested substitution of command line arguments" -/
  | nested
  /-- "command line argument index ... out of range [1-...]" -/
  | outOfRange (idx size : Nat)
deriving DecidableEq, Repr

/-- The digits behind the `@`, with the index so far and the number of arguments. -/
def argIndex (size : Nat) : Nat → Str → Nat × Str
  | idx, [] => (idx, [])
  | idx, c :: cs =>
    -- no more digits are read once the index is out of range
    if isDigit c ∧ idx ≤ size then argIndex size (idx * 10 + (c.toNat - 48)) cs else (idx, c :: cs)

/-- The input after `@` and a digit, with the argument put in its place. `suspended` says that the `@`
comes out of an argument itself. -/
def pasteArg (args : List Str) (suspended : Bool) (input : Str) : Except ArgError Str :=
  let idx := (argIndex args.length 0 input).1
  let rest := (argIndex args.length 0 input).2
  if suspended then .error .nested
  else if idx = 0 then .error (.outOfRange idx args.length)
  else
    match args[idx - 1]? with
    | none => .error (.outOfRange idx args.length)
    | some arg => .ok (lexCastQstring arg ++ rest)

/-- `lexer::scan` at `@` and a digit: it starts again at the argument, which opens with a quote. -/
def scanArg (args : List Str) (suspended : Bool) (input : Str) : Except ArgError (Token × Str) :=
  (pasteArg args suspended input).map fun s => scanString s.tail

/-- The argument is one string token, which ends where `rest` starts and denotes the argument. -/
def KeepsValue (args : List Str) (input arg rest : Str) : Prop :=
  ∃ v, scanArg args false input = .ok (⟨.string, v⟩, rest) ∧ decode v = some arg

/-- Another string literal comes next. -/
def opensString (rest : Str) : Bool := (rest.dropWhile isSpace).head? = some quote

/-! ## One byte -/

/-- What a byte of the argument leaves in the token. -/
def argToken (c : UInt8) : Str := if c = quote then [quote] else quoteByte c

theorem toNat_octalChar (n : UInt8) : (octalChar n).toNat = 48 + n.toNat % 8 := by
  have hand : (n &&& 7).toNat = n.toNat % 8 := Nat.and_two_pow_sub_one_eq_mod n.toNat 3
  show (48 + (n &&& 7)).toNat = 48 + n.toNat % 8
  rw [UInt8.toNat_add, hand, show (48 : UInt8).toNat = 48 from rfl]
  omega

theorem isOctal_octalChar (n : UInt8) : isOctal (octalChar n) = true := by
  have h := toNat_octalChar n
  have h48 : (48 : UInt8) ≤ octalChar n := by
    rw [UInt8.le_iff_toNat_le, h, show (48 : UInt8).toNat = 48 from rfl]
    omega
  have h55 : octalChar n ≤ 55 := by
    rw [UInt8.le_iff_toNat_le, h, show (55 : UInt8).toNat = 55 from rfl]
    omega
  simp [isOctal, h48, h55]

theorem passes_octalChar (n : UInt8) : passes (octalChar n) = true := by
  simp [passes, isOctal_octalChar]

/-- Three digits are enough for a byte. -/
theorem octalChars_value (c : UInt8) :
    (octalDigit (octalChar (c >>> 6)) * 8 + octalDigit (octalChar (c >>> 3))) * 8
      + octalDigit (octalChar c) = c.toNat := by
  have h6 : (c >>> 6).toNat = c.toNat / 64 := by
    exact Nat.shiftRight_eq_div_pow c.toNat 6
  have h3 : (c >>> 3).toNat = c.toNat / 8 := by
    exact Nat.shiftRight_eq_div_pow c.toNat 3
  have hlt : c.toNat < 256 := c.toNat_lt
  simp only [octalDigit, toNat_octalChar, h6, h3]
  omega

variable {c : UInt8}

/-- The scanner takes a digit as it is. -/
theorem scanBody_octal (n : Token) (hc : isOctal c = true) (s : Str) :
    scanBody n (c :: s) = scanBody (n.push [c]) s := by
  have hn : c ≠ newline := isOctal_ne hc (by decide)
  have hq : c ≠ quote := isOctal_ne hc (by decide)
  have hb : c ≠ backslash := isOctal_ne hc (by decide)
  rw [scanBody_cons, if_neg hn, if_neg hq, if_neg hb]

theorem scanBody_escape (n : Token) (d : UInt8) (s : Str) :
    scanBody n (backslash :: d :: s) = scanBody (n.push (escaped d)) s := by
  rw [scanBody_cons, if_neg (by decide), if_neg (by decide), if_pos rfl]

theorem Token.push_push (n : Token) (v w : Str) : (n.push v).push w = n.push (v ++ w) := by
  simp [Token.push]

/-- The bytes that `lex_cast_qstring` leaves as they are. -/
def IsPlain (c : UInt8) : Prop := isPrint c = true ∧ c ≠ quote ∧ c ≠ backslash

theorem IsPlain.quoteByte (h : IsPlain c) : quoteByte c = [c] := by
  simp [Lex.quoteByte, h.1, h.2.1, h.2.2]

theorem IsPlain.ne_newline (h : IsPlain c) : c ≠ newline := by
  intro hc
  have hprint := h.1
  rw [hc] at hprint
  exact absurd hprint (by decide)

/-- What can become of a byte. -/
theorem quoteByte_cases (c : UInt8) :
    (isPrint c = false ∧ quoteByte c = [backslash, octalChar (c >>> 6), octalChar (c >>> 3), octalChar c]) ∨
      c = quote ∨ c = backslash ∨ IsPlain c := by
  cases hprint : isPrint c with
  | false => exact .inl ⟨rfl, by simp [Lex.quoteByte, hprint]⟩
  | true =>
    by_cases hq : c = quote
    · exact .inr (.inl hq)
    · by_cases hb : c = backslash
      · exact .inr (.inr (.inl hb))
      · exact .inr (.inr (.inr ⟨hprint, hq, hb⟩))

theorem argToken_of_ne (h : c ≠ quote) : argToken c = quoteByte c := if_neg h

theorem ne_quote_of_not_isPrint (h : isPrint c = false) : c ≠ quote := by
  intro hc
  rw [hc] at h
  exact absurd h (by decide)

theorem scanBody_quoteByte (n : Token) (c : UInt8) (s : Str) :
    scanBody n (quoteByte c ++ s) = scanBody (n.push (argToken c)) s := by
  rcases quoteByte_cases c with ⟨hprint, hbyte⟩ | rfl | rfl | hplain
  · rw [argToken_of_ne (ne_quote_of_not_isPrint hprint), hbyte]
    show scanBody n (backslash :: octalChar (c >>> 6) :: octalChar (c >>> 3) :: octalChar c :: s) = _
    rw [scanBody_escape, scanBody_octal _ (isOctal_octalChar _), scanBody_octal _ (isOctal_octalChar _),
      escaped, if_pos (passes_octalChar _), Token.push_push, Token.push_push]
    rfl
  · exact scanBody_escape n quote s
  · exact scanBody_escape n backslash s
  · rw [argToken_of_ne hplain.2.1, hplain.quoteByte]
    show scanBody n (c :: s) = _
    rw [scanBody_cons, if_neg hplain.ne_newline, if_neg hplain.2.1, if_neg hplain.2.2]

/-- C reads the byte back, from any state in which a digit starts nothing that is there already. -/
theorem cRun_argToken {q : CState} (hq : q ≠ .escape) (hsated : ¬q.Hungry) (c : UInt8) :
    ∃ o q', cRun q (visitLiteralString (argToken c)) = some (o, q') ∧ q' ≠ .escape ∧ ¬q'.Hungry ∧
      o ++ q'.flush = q.flush ++ [c] := by
  rcases quoteByte_cases c with ⟨hprint, hbyte⟩ | rfl | rfl | hplain
  · have hrun : cRun q (visitLiteralString (argToken c)) = some (q.flush, .octal 3 c.toNat) := by
      rw [argToken_of_ne (ne_quote_of_not_isPrint hprint), hbyte]
      show cRun q (visitLiteralString
        ([backslash, octalChar (c >>> 6)] ++ ([octalChar (c >>> 3)] ++ [octalChar c]))) = _
      rcases cRun_escape hq (passes_octalChar (c >>> 6)) with ⟨-, h1⟩ | ⟨hno, -⟩
      · rw [visitLiteralString_append, cRun_append_of_some h1, visitLiteralString_append,
          cRun_append_of_some (cRun_digit (by decide) (isOctal_octalChar _)),
          cRun_digit (by decide) (isOctal_octalChar _), octalChars_value]
        simp
      · rw [isOctal_octalChar] at hno
        cases hno
    refine ⟨_, _, hrun, by simp, by simp [CState.Hungry], ?_⟩
    simp [CState.flush]
  · refine ⟨_, _, cRun_byte hq (by decide) (by decide) (fun h => hsated h.1), by simp, id, ?_⟩
    simp [CState.flush]
  · have hrun : cRun q (visitLiteralString [backslash, backslash]) = some (q.flush ++ [backslash], .plain) := by
      rw [visitLiteralString_escape (by decide), cRun, cStep_backslash hq]
      rfl
    refine ⟨_, _, hrun, by simp, id, ?_⟩
    simp [CState.flush]
  · rw [argToken_of_ne hplain.2.1, hplain.quoteByte]
    refine ⟨_, _, cRun_byte hq hplain.2.2 hplain.ne_newline (fun h => hsated h.1), by simp, id, ?_⟩
    simp [CState.flush]

/-! ## A whole argument -/

theorem scanBody_quoted (n : Token) (s rest : Str) :
    scanBody n (s.flatMap quoteByte ++ rest) = scanBody (n.push (s.flatMap argToken)) rest := by
  induction s generalizing n with
  | nil => simp [Token.push]
  | cons c s ih =>
    rw [flatMap_cons, append_assoc, scanBody_quoteByte, ih, Token.push_push, flatMap_cons]

theorem cRun_argTokens (s : Str) :
    ∀ {q : CState}, q ≠ .escape → ¬q.Hungry →
      ∃ o q', cRun q (visitLiteralString (s.flatMap argToken)) = some (o, q') ∧ q' ≠ .escape ∧
        o ++ q'.flush = q.flush ++ s := by
  induction s with
  | nil =>
    intro q hq hsated
    exact ⟨[], q, rfl, hq, by simp⟩
  | cons c s ih =>
    intro q hq hsated
    obtain ⟨o, q1, hrun, hq1, hsated1, ho⟩ := cRun_argToken hq hsated c
    obtain ⟨o', q2, hrun', hq2, ho'⟩ := ih hq1 hsated1
    refine ⟨o ++ o', q2, ?_, hq2, ?_⟩
    · rw [flatMap_cons, visitLiteralString_append, cRun_append_of_some hrun, hrun']
      rfl
    · rw [append_assoc, ho', ← append_assoc, ho, append_assoc]
      rfl

/-- The token that an argument becomes denotes it. -/
theorem decode_argTokens (s : Str) : decode (s.flatMap argToken) = some s := by
  obtain ⟨o, q, hrun, hq, ho⟩ := cRun_argTokens s (q := .plain) (by decide) id
  rw [decode_of_cRun hq hrun, ho]
  rfl

theorem cString_of_notMem {s : Str} (h : (0 : UInt8) ∉ s) : cString s = s := by
  unfold cString
  rw [takeWhile_eq_self_iff]
  intro c hc
  have hne : c ≠ 0 := fun h0 => h (h0 ▸ hc)
  simpa using hne

/-! ## What stands behind it -/

mutual

/-- A token takes its text from the front of the input. -/
theorem scanBody_length (n : Token) : ∀ s : Str, (scanBody n s).2.length ≤ s.length
  | [] => le_refl _
  | c :: cs => by
    rw [scanBody_cons, length_cons]
    split
    · exact (scanGap_length n.spoil cs cs le_rfl).trans (Nat.le_succ _)
    · split
      · exact (scanGap_length n cs cs le_rfl).trans (Nat.le_succ _)
      · split
        · match cs with
          | [] => exact Nat.zero_le _
          | d :: ds =>
            refine (scanBody_length (n.push (escaped d)) ds).trans ?_
            rw [length_cons]
            omega
        · exact (scanBody_length (n.push [c]) cs).trans (Nat.le_succ _)

theorem scanGap_length (n : Token) (rest : Str) :
    ∀ s : Str, s.length ≤ rest.length → (scanGap n rest s).2.length ≤ rest.length
  | [], _ => le_refl _
  | c :: cs, h => by
    rw [length_cons] at h
    rw [scanGap]
    split
    · exact (scanBody_length n cs).trans (by omega)
    · split
      · exact scanGap_length n rest cs (by omega)
      · exact le_refl _

end

theorem scanGap_of_not_opensString (n : Token) (rest s : Str) (h : opensString s = false) :
    scanGap n rest s = (n, rest) := by
  induction s with
  | nil => rfl
  | cons c s ih =>
    rw [scanGap]
    cases hc : isSpace c with
    | true =>
      have hq : c ≠ quote := by
        intro hq
        rw [hq] at hc
        exact absurd hc (by decide)
      have hs : opensString s = false := by
        rw [opensString, dropWhile_cons_of_pos hc] at h
        exact h
      rw [if_neg hq, if_pos rfl]
      exact ih hs
    | false =>
      have hq : c ≠ quote := by
        rw [opensString, dropWhile_cons_of_neg (by simp [hc])] at h
        simpa using h
      rw [if_neg hq, if_neg (by simp)]

/-- A literal that comes next is taken into the token, so less is left than stood behind it. -/
theorem scanGap_of_opensString (n : Token) {rest : Str} (h : opensString rest = true) :
    (scanGap n rest rest).2.length < rest.length := by
  obtain ⟨t, ht⟩ := head?_eq_some_iff.mp (of_decide_eq_true h)
  have hsplit : rest = rest.takeWhile isSpace ++ quote :: t := by
    rw [← ht, takeWhile_append_dropWhile]
  have hspace : ∀ c ∈ rest.takeWhile isSpace, isSpace c = true := fun c hc => mem_takeWhile_imp hc
  have hlen : rest.length = (rest.takeWhile isSpace).length + (t.length + 1) := by
    conv_lhs => rw [hsplit]
    rw [length_append, length_cons]
  have hscan : scanGap n rest rest = scanBody n t := by
    conv_lhs => rw [hsplit]
    rw [scanGap_space hspace]
  rw [hscan]
  have := scanBody_length n t
  omega

/-- The scanner at the end of an argument. -/
theorem scanArg_eq {args : List Str} {input rest arg : Str} {N : Nat}
    (hindex : argIndex args.length 0 input = (N, rest)) (hN : 0 < N) (harg : args[N - 1]? = some arg)
    (hnul : (0 : UInt8) ∉ arg) :
    scanArg args false input = .ok (scanGap ⟨.string, arg.flatMap argToken⟩ rest rest) := by
  have hpaste : pasteArg args false input = .ok (lexCastQstring arg ++ rest) := by
    simp [pasteArg, hindex, hN.ne', harg]
  rw [scanArg, hpaste]
  show Except.ok (scanString ((lexCastQstring arg ++ rest).tail)) = _
  have htail : (lexCastQstring arg ++ rest).tail = arg.flatMap quoteByte ++ (quote :: rest) := by
    rw [lexCastQstring, cString_of_notMem hnul]
    simp
  rw [htail, scanString, scanBody_quoted, scanBody_cons, if_neg (by decide), if_pos rfl]
  rfl

end Systemtap.Lex
