import Systemtap.Lex.CString

/-!
# Scanning string literals

The string branch of `lexer::scan`. Between its quotes a literal is taken byte
by byte: a backslash before a letter or digit that C would read as an escape
stays in the token, before any other byte it is dropped. A line end or the end
of the input makes the token junk, and it stays junk. After a closing quote the
scanner looks past white space for another opening quote, and if there is one
it goes on filling the same token.

So a token is a string of units: a byte that is no backslash, or a backslash
and one of the bytes that pass. `lexed_iff` says that these are all the strings
the scanner can produce and that it can produce each of them.
-/

namespace Systemtap.Lex

open Systemtap.Tree List

/-- The two types of token that an opening quote can start. -/
inductive TokenType where
  | string
  | junk
deriving DecidableEq, Repr

structure Token where
  type : TokenType
  content : Str
deriving DecidableEq, Repr

namespace Token

def push (n : Token) (cs : Str) : Token := { n with content := n.content ++ cs }

def spoil (n : Token) : Token := { n with type := .junk }

end Token

/-- `isspace` -/
def isSpace (c : UInt8) : Bool := c = 32 ∨ (9 ≤ c ∧ c ≤ 13)

/-- The bytes before which the scanner leaves a backslash: `abtnvfr`, the octal
digits and the backslash. -/
def passes (c : UInt8) : Bool := c ∈ [97, 98, 116, 110, 118, 102, 114, 92] ∨ isOctal c

/-- What the byte after a backslash adds to the token. -/
def escaped (c : UInt8) : Str := if passes c then [backslash, c] else [c]

mutual

/-- The loop between two quotes, with the token so far. -/
def scanBody (n : Token) : Str → Token × Str
  | [] => (n.spoil, [])
  | c :: cs =>
    if c = newline then scanGap n.spoil cs cs
    else if c = quote then scanGap n cs cs
    else if c = backslash then
      match cs with
      -- the end of the input is the byte -1, and the loop finds it again
      | [] => ((n.push [255]).spoil, [])
      | d :: ds => scanBody (n.push (escaped d)) ds
    else scanBody (n.push [c]) cs

/-- After a closing quote: `rest` is the input there, the third argument what
follows the white space looked at so far. -/
def scanGap (n : Token) (rest : Str) : Str → Token × Str
  | [] => (n, rest)
  | c :: cs =>
    if c = quote then scanBody n cs
    else if isSpace c then scanGap n rest cs
    else (n, rest)

end

theorem scanBody_cons (n : Token) (c : UInt8) (cs : Str) :
    scanBody n (c :: cs) =
      if c = newline then scanGap n.spoil cs cs
      else if c = quote then scanGap n cs cs
      else if c = backslash then
        match cs with
        | [] => ((n.push [255]).spoil, [])
        | d :: ds => scanBody (n.push (escaped d)) ds
      else scanBody (n.push [c]) cs :=
  scanBody.eq_def n (c :: cs)

/-- `lexer::scan` past an opening quote: the token and the input after it. -/
def scanString (s : Str) : Token × Str := scanBody ⟨.string, []⟩ s

/-- `s` is, past its opening quote, the text of one string token. -/
def Spells (s v : Str) : Prop := scanString s = (⟨.string, v⟩, [])

instance (s v : Str) : Decidable (Spells s v) := inferInstanceAs (Decidable (_ = _))

/-- The string literals that the lexer can produce. -/
def Lexed (v : Str) : Prop := ∃ s rest, scanString s = (⟨.string, v⟩, rest)

/-- Every backslash stands before a byte that passes. -/
def wellEscaped : Str → Bool
  | [] => true
  | c :: cs =>
    if c = backslash then
      match cs with
      | [] => false
      | d :: ds => passes d && wellEscaped ds
    else wellEscaped cs

theorem wellEscaped_cons (c : UInt8) (cs : Str) :
    wellEscaped (c :: cs) =
      if c = backslash then
        match cs with
        | [] => false
        | d :: ds => passes d && wellEscaped ds
      else wellEscaped cs :=
  wellEscaped.eq_def (c :: cs)

/-! ## Units -/

/-- One unit of a token. -/
inductive IsUnit : Str → Prop
  | byte {c : UInt8} : c ≠ backslash → IsUnit [c]
  | escape {d : UInt8} : passes d = true → IsUnit [backslash, d]

theorem isUnit_escaped (d : UInt8) : IsUnit (escaped d) := by
  unfold escaped
  split
  · next h => exact .escape h
  · next h =>
    refine .byte fun hd => h ?_
    rw [hd]
    decide

theorem wellEscaped_unit_append {u : Str} (hu : IsUnit u) (v : Str) :
    wellEscaped (u ++ v) = wellEscaped v := by
  cases hu with
  | byte h => rw [singleton_append, wellEscaped_cons, if_neg h]
  | escape h => simp [wellEscaped_cons, h]

/-- Induction over the units of a token. -/
@[elab_as_elim]
theorem wellEscaped_induction {P : Str → Prop} (nil : P [])
    (unit : ∀ u v, IsUnit u → wellEscaped v = true → P v → P (u ++ v)) :
    ∀ v, wellEscaped v = true → P v := by
  intro v
  -- a unit has one or two bytes, so the induction is on the length
  induction hn : v.length using Nat.strongRecOn generalizing v with
  | _ n ih =>
    subst hn
    intro hv
    match v, hv with
    | [], _ => exact nil
    | c :: cs, hv =>
      by_cases hc : c = backslash
      · subst hc
        match cs, hv with
        | d :: ds, hv =>
          simp only [wellEscaped_cons, if_true, Bool.and_eq_true] at hv
          exact unit [backslash, d] ds (.escape hv.1) hv.2
            (ih ds.length (by simp only [length_cons]; omega) ds rfl hv.2)
      · rw [wellEscaped_cons, if_neg hc] at hv
        exact unit [c] cs (.byte hc) hv (ih cs.length (by simp) cs rfl hv)

theorem wellEscaped_append {v : Str} (hv : wellEscaped v = true) (w : Str) :
    wellEscaped (v ++ w) = wellEscaped w := by
  refine wellEscaped_induction rfl ?_ v hv
  intro u v hu _ ih
  rw [append_assoc, wellEscaped_unit_append hu, ih]

/-! ## What the scanner produces -/

section Invariant

variable {P : Token → Prop} (hspoil : ∀ n, P n → P n.spoil)
  (hpush : ∀ n u, IsUnit u → P n → P (n.push u))

include hspoil hpush

mutual

/-- What is kept when a token is spoilt, and when a unit is added to it, the scanner keeps. -/
theorem scanBody_keeps (n : Token) (hn : P n) : ∀ s, P (scanBody n s).1
  | [] => hspoil n hn
  | c :: cs => by
    rw [scanBody_cons]
    split
    · exact scanGap_keeps n.spoil (hspoil n hn) cs cs
    · split
      · exact scanGap_keeps n hn cs cs
      · split
        · match cs with
          | [] => exact hspoil _ (hpush n [255] (.byte (by decide)) hn)
          | d :: ds => exact scanBody_keeps _ (hpush n _ (isUnit_escaped d) hn) ds
        · next hc => exact scanBody_keeps _ (hpush n [c] (.byte hc) hn) cs

theorem scanGap_keeps (n : Token) (hn : P n) (rest : Str) : ∀ s, P (scanGap n rest s).1
  | [] => hn
  | c :: cs => by
    rw [scanGap]
    split
    · exact scanBody_keeps n hn cs
    · split
      · exact scanGap_keeps n hn rest cs
      · exact hn

end

end Invariant

theorem scanGap_junk (n : Token) (hn : n.type = .junk) (rest s : Str) :
    (scanGap n rest s).1.type = .junk :=
  scanGap_keeps (P := fun n => n.type = .junk) (fun _ _ => rfl) (fun _ _ _ h => h) n hn rest s

/-- A string token keeps what it has and is filled with units. -/
theorem scanBody_wellEscaped (n : Token) (hn : wellEscaped n.content = true) (s : Str) :
    (scanBody n s).1.type = .string → wellEscaped (scanBody n s).1.content = true := by
  refine scanBody_keeps (P := fun n => n.type = .string → wellEscaped n.content = true)
    (fun _ _ h => by cases h) (fun n u hu hn h => ?_) n (fun _ => hn) s
  show wellEscaped (n.content ++ u) = true
  rw [wellEscaped_append (hn h), ← append_nil u, wellEscaped_unit_append hu]
  rfl

/-- A text that scans to `v`: quotes and line ends get a backslash, which the
scanner drops. -/
def respell (v : Str) : Str :=
  v.flatMap fun c => if c = quote ∨ c = newline then [backslash, c] else [c]

theorem respell_append (v w : Str) : respell (v ++ w) = respell v ++ respell w :=
  flatMap_append

theorem passes_ne {c d : UInt8} (hd : passes d = true) (hc : passes c = false) : d ≠ c := by
  rintro rfl
  rw [hd] at hc
  cases hc

theorem respell_escape {d : UInt8} (hd : passes d = true) :
    respell [backslash, d] = [backslash, d] := by
  have hq : d ≠ quote := passes_ne hd (by decide)
  have hn : d ≠ newline := passes_ne hd (by decide)
  simp [respell, hq, hn, show backslash ≠ quote by decide, show backslash ≠ newline by decide]

theorem scanBody_respell_unit (n : Token) {u : Str} (hu : IsUnit u) (s : Str) :
    scanBody n (respell u ++ s) = scanBody (n.push u) s := by
  cases hu with
  | @byte c hc =>
    by_cases hq : c = quote ∨ c = newline
    · have hp : escaped c = [c] := by rcases hq with rfl | rfl <;> rfl
      simp [respell, hq, scanBody_cons, hp, show backslash ≠ quote by decide,
        show backslash ≠ newline by decide]
    · rw [not_or] at hq
      simp [respell, hq, scanBody_cons, hc]
  | @escape d hd =>
    rw [respell_escape hd]
    simp [scanBody_cons, escaped, hd, show backslash ≠ quote by decide,
      show backslash ≠ newline by decide]

theorem scanBody_respell {v : Str} (hv : wellEscaped v = true) (n : Token) (s : Str) :
    scanBody n (respell v ++ s) = scanBody (n.push v) s := by
  revert n
  refine wellEscaped_induction ?_ ?_ v hv
  · intro n
    simp [respell, Token.push]
  · intro u v hu _ ih n
    rw [respell_append, append_assoc, scanBody_respell_unit n hu, ih]
    simp [Token.push]

theorem spells_respell {v : Str} (hv : wellEscaped v = true) : Spells (respell v ++ [quote]) v := by
  unfold Spells scanString
  rw [scanBody_respell hv]
  rfl

/-- The lexer produces the well-escaped strings and no others. -/
theorem lexed_iff (v : Str) : Lexed v ↔ wellEscaped v = true := by
  constructor
  · rintro ⟨s, rest, h⟩
    have hw := scanBody_wellEscaped ⟨.string, []⟩ rfl s
    rw [show scanBody ⟨.string, []⟩ s = (⟨.string, v⟩, rest) from h] at hw
    exact hw rfl
  · exact fun hv => ⟨_, [], spells_respell hv⟩

theorem Spells.lexed {s v : Str} (h : Spells s v) : Lexed v := ⟨s, [], h⟩

/-! ## Adjacent literals -/

/-- White space and an opening quote. -/
theorem scanGap_space {ws : Str} (hws : ∀ c ∈ ws, isSpace c = true) (n : Token) (rest t : Str) :
    scanGap n rest (ws ++ quote :: t) = scanBody n t := by
  induction ws with
  | nil => simp [scanGap]
  | cons c ws ih =>
    have hc : isSpace c = true := hws c (mem_cons_self ..)
    have hq : c ≠ quote := by
      rintro rfl
      exact absurd hc (by decide)
    rw [cons_append, scanGap, if_neg hq, if_pos hc]
    exact ih fun d hd => hws d (mem_cons_of_mem _ hd)

mutual

/-- A text that ends with its token goes on with the literal after it. -/
theorem scanBody_adjacent {ws t : Str} (hws : ∀ c ∈ ws, isSpace c = true) {m : Token}
    (hm : m.type = .string) (n : Token) :
    ∀ s, scanBody n s = (m, []) → scanBody n (s ++ (ws ++ quote :: t)) = scanBody m t
  | [] => by
    intro h
    cases h
    cases hm
  | c :: cs => by
    intro h
    rw [cons_append, scanBody_cons]
    rw [scanBody_cons] at h
    split at h
    · have hj := scanGap_junk n.spoil rfl cs cs
      rw [h] at hj
      cases hm.symm.trans hj
    · next hn =>
      split at h
      · next hq =>
        rw [if_neg hn, if_pos hq]
        exact scanGap_adjacent hws hm n cs cs (Nat.le_refl _) h
      · next hq =>
        split at h
        · next hb =>
          rw [if_neg hn, if_neg hq, if_pos hb]
          match cs, h with
          | [], h =>
            cases h
            cases hm
          | d :: ds, h => exact scanBody_adjacent hws hm (n.push (escaped d)) ds h
        · next hb =>
          rw [if_neg hn, if_neg hq, if_neg hb]
          exact scanBody_adjacent hws hm (n.push [c]) cs h

theorem scanGap_adjacent {ws t : Str} (hws : ∀ c ∈ ws, isSpace c = true) {m : Token}
    (hm : m.type = .string) (n : Token) (rest : Str) :
    ∀ s, s.length ≤ rest.length → scanGap n rest s = (m, []) →
      scanGap n (rest ++ (ws ++ quote :: t)) (s ++ (ws ++ quote :: t)) = scanBody m t
  | [] => by
    intro _ h
    cases h
    exact scanGap_space hws m _ t
  | c :: cs => by
    intro hl h
    rw [cons_append, scanGap]
    rw [scanGap] at h
    split at h
    · next hq =>
      rw [if_pos hq]
      exact scanBody_adjacent hws hm n cs h
    · next hq =>
      split at h
      · next hc =>
        rw [if_neg hq, if_pos hc]
        exact scanGap_adjacent hws hm n rest cs (Nat.le_of_succ_le hl) h
      · -- the token would leave input behind
        cases h
        cases hl

end

mutual

theorem scanBody_push (t : TokenType) (v w : Str) :
    ∀ s, scanBody ⟨t, v ++ w⟩ s =
      (⟨(scanBody ⟨t, w⟩ s).1.type, v ++ (scanBody ⟨t, w⟩ s).1.content⟩, (scanBody ⟨t, w⟩ s).2)
  | [] => rfl
  | c :: cs => by
    rw [scanBody_cons, scanBody_cons]
    split
    · exact scanGap_push .junk v w cs cs
    · split
      · exact scanGap_push t v w cs cs
      · split
        · match cs with
          | [] => simp [Token.push, Token.spoil]
          | d :: ds =>
            simp only [Token.push, append_assoc]
            exact scanBody_push t v (w ++ escaped d) ds
        · simp only [Token.push, append_assoc]
          exact scanBody_push t v (w ++ [c]) cs

theorem scanGap_push (t : TokenType) (v w rest : Str) :
    ∀ s, scanGap ⟨t, v ++ w⟩ rest s =
      (⟨(scanGap ⟨t, w⟩ rest s).1.type, v ++ (scanGap ⟨t, w⟩ rest s).1.content⟩,
        (scanGap ⟨t, w⟩ rest s).2)
  | [] => rfl
  | c :: cs => by
    rw [scanGap, scanGap]
    split
    · exact scanBody_push t v w cs
    · split
      · exact scanGap_push t v w rest cs
      · rfl

end

/-- Two adjacent literals are one token, with the second content after the first. -/
theorem Spells.adjacent {s t v w ws : Str} (hs : Spells s v) (ht : Spells t w)
    (hws : ∀ c ∈ ws, isSpace c = true) : Spells (s ++ (ws ++ quote :: t)) (v ++ w) := by
  unfold Spells scanString at hs ht ⊢
  rw [scanBody_adjacent hws rfl _ s hs, ← append_nil v, scanBody_push, ht, append_nil]

end Systemtap.Lex
