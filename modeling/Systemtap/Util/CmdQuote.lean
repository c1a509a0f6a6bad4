import Mathlib

/-!
# Quoting a string for the shell

`cmdstr_quoted` puts a string between single quotes. Nothing has a meaning for the shell there but
the single quote itself, which ends the quotation. So each single quote of the string is written
between double quotes, outside of the single ones: `'"'"'`.

The shell is here as far as it takes words apart: it removes quotes, and separates words at blanks.
Text that it would expand, or take for an operator, a comment or the like, is no list of words
(`shellWords` is `none`), and neither is text with an open quotation or with a NUL.
-/

namespace Systemtap.Util

/-! ## The code -/

/-- `replace` in `cmdstr_quoted` -/
def quotedQuote : List Char := ['\'', '"', '\'', '"', '\'']

/-- The loop of `cmdstr_quoted`, on what is left of the string from `pos` on. -/
def quoteLoop (cmd : List Char) : List Char :=
  if _h : '\'' ∈ cmd then
    let quotePos := cmd.idxOf '\''
    cmd.take quotePos ++ quotedQuote ++ quoteLoop (cmd.drop (quotePos + 1))
  else cmd
termination_by cmd.length
decreasing_by
  have := List.length_pos_of_mem _h
  rw [List.length_drop]
  omega

/-- `cmdstr_quoted` -/
def cmdstrQuoted (cmd : List Char) : List Char := ['\''] ++ quoteLoop cmd ++ ['\'']

/-! ## The shell -/

/-- Where the shell is in the text. -/
inductive Mode where
  | between
  | word
  | single
  | double
deriving DecidableEq

/-- What has a meaning outside quotes. -/
def special : List Char := "|&;<>()$`\\\"' \t\n*?[]#~=%!\x7b\x7d^".toList

/-- The words from here on, where `w` is what there is of the one that has begun. -/
def words : Mode → List Char → List Char → Option (List (List Char))
  | .between, _, [] => some []
  | .word, w, [] => some [w]
  | .single, _, [] | .double, _, [] => none
  | mode, w, c :: cs =>
    if c = '\x00' then none
    else match mode with
    | .single => if c = '\'' then words .word w cs else words .single (w ++ [c]) cs
    | .double =>
      if c = '"' then words .word w cs
      else if c ∈ ['$', '`', '\\'] then none
      else words .double (w ++ [c]) cs
    | .between | .word =>
      if c = ' ' ∧ mode = .word then (words .between [] cs).map (w :: ·)
      else if c = ' ' then words .between [] cs
      else if c = '\'' then words .single w cs
      else if c = '"' then words .double w cs
      else if c ∈ special then none
      else words .word (w ++ [c]) cs

/-- The words of a command. -/
def shellWords (text : List Char) : Option (List (List Char)) := words .between [] text

/-! ## Quoted words are words -/

variable {s cs w : List Char}

theorem quoteLoop_cons (c : Char) (cmd : List Char) :
    quoteLoop (c :: cmd) = if c = '\'' then quotedQuote ++ quoteLoop cmd else c :: quoteLoop cmd := by
  rw [quoteLoop]
  by_cases hc : c = '\''
  · simp [hc]
  · rw [quoteLoop.eq_def cmd]
    by_cases hmem : '\'' ∈ cmd <;> simp [hc, Ne.symm hc, hmem, List.idxOf_cons_ne]

/-- The quotation, after its first quote: the shell has the whole string when it is over. -/
theorem words_quoteLoop (hs : '\x00' ∉ s) :
    words .single w (quoteLoop s ++ '\'' :: cs) = words .word (w ++ s) cs := by
  induction s generalizing w with
  | nil => simp [quoteLoop, words]
  | cons c s ih =>
    rw [List.mem_cons, not_or] at hs
    rw [quoteLoop_cons]
    by_cases hc : c = '\''
    · -- out of the single quotes, the quote in double ones, and in again
      have hin : words .single w (quotedQuote ++ quoteLoop s ++ '\'' :: cs) =
          words .single (w ++ ['\'']) (quoteLoop s ++ '\'' :: cs) := rfl
      rw [if_pos hc, hin, ih hs.2, hc, List.append_assoc]
      rfl
    · rw [if_neg hc, List.cons_append, words, if_neg (Ne.symm hs.1)]
      simp only [if_neg hc]
      rw [ih hs.2, List.append_assoc]
      rfl

theorem words_cmdstrQuoted (hs : '\x00' ∉ s) :
    words .between [] (cmdstrQuoted s ++ cs) = words .word s cs := by
  have hquote : words .between [] (cmdstrQuoted s ++ cs) =
      words .single [] (quoteLoop s ++ '\'' :: cs) := by
    rw [cmdstrQuoted, List.append_assoc, List.append_assoc]
    rfl
  rw [hquote, words_quoteLoop hs, List.nil_append]

/-- The shell takes a quoted string for one word, the string, and the quoted forms of several
strings with blanks between them for just these strings. -/
theorem shellWords_quoted :
    (∀ s : List Char, '\x00' ∉ s → shellWords (cmdstrQuoted s) = some [s]) ∧
      ∀ ss : List (List Char), (∀ s ∈ ss, '\x00' ∉ s) →
        shellWords ([' '].intercalate (ss.map cmdstrQuoted)) = some ss := by
  refine ⟨fun s hs => ?_, fun ss hss => ?_⟩
  · rw [shellWords, ← List.append_nil (cmdstrQuoted s), words_cmdstrQuoted hs, words]
  · unfold shellWords
    induction ss with
    | nil => rfl
    | cons s ss ih =>
      rw [List.forall_mem_cons] at hss
      cases ss with
      | nil =>
        rw [List.map_singleton, List.intercalate_singleton, ← List.append_nil (cmdstrQuoted s),
          words_cmdstrQuoted hss.1, words]
      | cons t ss =>
        have hblank : ∀ text, words .word s (' ' :: text) = (words .between [] text).map (s :: ·) :=
          fun _ => rfl
        rw [List.map_cons, List.map_cons, List.intercalate_cons_cons, List.append_assoc,
          words_cmdstrQuoted hss.1, List.singleton_append, hblank, ← List.map_cons, ih hss.2]
        rfl

theorem shellWords_quoted_apostrophe :
    shellWords (cmdstrQuoted "it's".toList) = some ["it's".toList] :=
  shellWords_quoted.1 _ (by decide)

end Systemtap.Util
