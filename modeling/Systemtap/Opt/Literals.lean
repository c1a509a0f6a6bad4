import Systemtap.Lex.Decode
import Systemtap.Opt.ConstFold

/-!
# Folding string literals

The folder sees a literal as it is spelled in the script, the emitted code as C
reads it. `visit_comparison` compares two spellings with `std::string::compare`
where the emitted code calls `strncmp` on at most `MAXSTRINGLEN` bytes of what
they denote. `visit_concatenation` appends one spelling to another, as the lexer
does for adjacent literals, and C then reads the result as one literal.
-/

namespace Systemtap.Opt

open Systemtap.Tree Systemtap.Lex List

/-- A literal of the script, as the folder visits it. -/
def strLit (v : Str) : Folded := ⟨.literalString .string v, true⟩

/-! ## Comparison -/

/-- `c_unparser::visit_comparison` on two literals, with `MAXSTRINGLEN` for `n`; there is no
value where C refuses one of the literals. -/
def emittedComparison (n : Nat) (op : CmpOp) (v w : Str) : Option Bool := do
  let x ← decode v
  let y ← decode w
  pure (holds op (strncmp n x y))

/-- What `strncmp` can see of a literal. -/
def seen (n : Nat) (v : Str) : Str := (cString ((decode v).getD [])).take n

/-- The spellings tell `op` the same as the strings: different spellings are different
strings for `==` and `!=`, and come in the same order for the rest. -/
def SpellingTells (n : Nat) (op : CmpOp) (v w : Str) : Prop :=
  match op with
  | .eq | .ne => seen n v = seen n w → v = w
  | .lt | .ge => v < w ↔ seen n v < seen n w
  | .gt | .le => w < v ↔ seen n w < seen n v

instance (n : Nat) (op : CmpOp) (v w : Str) : Decidable (SpellingTells n op v w) := by
  cases op <;> unfold SpellingTells <;> infer_instance

theorem compareStr_spec (v w : Str) :
    (v < w ∧ compareStr v w = .lt) ∨ (v = w ∧ compareStr v w = .eq) ∨
      (w < v ∧ compareStr v w = .gt) := by
  induction v generalizing w with
  | nil =>
    cases w with
    | nil => exact .inr (.inl ⟨rfl, rfl⟩)
    | cons b bs => exact .inl ⟨nil_lt_cons b bs, rfl⟩
  | cons a as ih =>
    cases w with
    | nil => exact .inr (.inr ⟨nil_lt_cons a as, rfl⟩)
    | cons b bs =>
      rw [compareStr]
      by_cases hab : a < b
      · exact .inl ⟨cons_lt_cons_iff.2 (.inl hab), if_pos hab⟩
      · by_cases hba : b < a
        · refine .inr (.inr ⟨cons_lt_cons_iff.2 (.inl hba), ?_⟩)
          rw [if_neg hab, if_pos hba]
        · have he : a = b := UInt8.le_antisymm (UInt8.not_lt.1 hba) (UInt8.not_lt.1 hab)
          subst he
          simpa [hab] using ih bs

theorem compareStr_eq_lt (v w : Str) : compareStr v w = .lt ↔ v < w := by
  rcases compareStr_spec v w with ⟨h, e⟩ | ⟨rfl, e⟩ | ⟨h, e⟩ <;> rw [e]
  · simp [h]
  · simp
  · simp [List.lt_asymm h]

theorem compareStr_eq_gt (v w : Str) : compareStr v w = .gt ↔ w < v := by
  rcases compareStr_spec v w with ⟨h, e⟩ | ⟨rfl, e⟩ | ⟨h, e⟩ <;> rw [e]
  · simp [List.lt_asymm h]
  · simp
  · simp [h]

theorem compareStr_eq_eq (v w : Str) : compareStr v w = .eq ↔ v = w := by
  rcases compareStr_spec v w with ⟨h, e⟩ | ⟨rfl, e⟩ | ⟨h, e⟩ <;> rw [e]
  · simp only [reduceCtorEq, false_iff]
    rintro rfl
    exact List.lt_irrefl _ h
  · simp
  · simp only [reduceCtorEq, false_iff]
    rintro rfl
    exact List.lt_irrefl _ h

theorem take_cString_cons {c : UInt8} (hc : c ≠ 0) (n : Nat) (cs : Str) :
    (cString (c :: cs)).take (n + 1) = c :: (cString cs).take n := by
  simp [cString, hc]

theorem cString_of_headD {s : Str} (hs : s.headD 0 = 0) : cString s = [] := by
  cases s with
  | nil => rfl
  | cons c cs =>
    have hc : c = 0 := hs
    simp [cString, hc]

theorem strncmp_cons (n : Nat) (c d : UInt8) (cs ds : Str) :
    strncmp (n + 1) (c :: cs) (d :: ds) =
      if c = d then if c = 0 then .eq else strncmp n cs ds
      else if c < d then .lt else .gt := rfl

/-- `strncmp` is `compare` on what it sees. -/
theorem strncmp_eq_compareStr (n : Nat) (a b : Str) :
    strncmp n a b = compareStr ((cString a).take n) ((cString b).take n) := by
  induction n generalizing a b with
  | zero => simp [strncmp, compareStr]
  | succ n ih =>
    -- which of the two strings ends here
    by_cases ha : a.headD 0 = 0
    · rw [cString_of_headD ha, strncmp, ha]
      by_cases hb : b.headD 0 = 0
      · rw [cString_of_headD hb, hb, if_pos rfl, if_pos rfl]
        rfl
      · cases b with
        | nil => exact absurd rfl hb
        | cons d ds =>
          have hd : d ≠ 0 := hb
          rw [take_cString_cons hd, if_neg (Ne.symm hb)]
          exact if_pos (UInt8.pos_iff_ne_zero.2 hd)
    · cases a with
      | nil => exact absurd rfl ha
      | cons c cs =>
        have hc : c ≠ 0 := ha
        rw [take_cString_cons hc]
        by_cases hb : b.headD 0 = 0
        · rw [cString_of_headD hb, strncmp, hb, if_neg ha, if_neg UInt8.not_lt_zero]
          rfl
        · cases b with
          | nil => exact absurd rfl hb
          | cons d ds =>
            have hd : d ≠ 0 := hb
            rw [take_cString_cons hd, strncmp_cons, compareStr]
            by_cases hcd : c = d
            · subst hcd
              have hi : ¬ c < c := UInt8.lt_irrefl c
              rw [if_pos rfl, if_neg hc, if_neg hi, if_neg hi, ih]
            · rw [if_neg hcd]
              by_cases hlt : c < d
              · rw [if_pos hlt, if_pos hlt]
              · have hgt : d < c := UInt8.lt_of_le_of_ne (UInt8.not_lt.1 hlt) (Ne.symm hcd)
                rw [if_neg hlt, if_neg hlt, if_pos hgt]

/-- Two truth values agree where the spellings tell what the strings do. -/
theorem holds_eq_holds_iff (n : Nat) (op : CmpOp) (v w : Str) :
    holds op (compareStr v w) = holds op (compareStr (seen n v) (seen n w)) ↔
      SpellingTells n op v w := by
  have beq_iff (o o' x : Ordering) : ((o == x) = (o' == x)) ↔ (o = x ↔ o' = x) := by
    rw [Bool.eq_iff_iff, beq_iff_eq, beq_iff_eq]
  have eqs : (v = w ↔ seen n v = seen n w) ↔ (seen n v = seen n w → v = w) :=
    ⟨fun h => h.2, fun h => ⟨fun e => e ▸ rfl, h⟩⟩
  cases op <;>
    simp only [holds, SpellingTells, bne_eq, Bool.not_inj_iff, beq_iff, compareStr_eq_lt,
      compareStr_eq_gt, compareStr_eq_eq, eqs]

theorem ofBit_inj {a b : Bool} : ofBit a = ofBit b ↔ a = b := by
  revert a b
  decide

/-- `parser::parse_literal` on the token of a string; junk is refused before it. -/
def parseLiteral (t : Token) : Option Expr :=
  match t.type with
  | .string => some (.literalString .string t.content)
  | .junk => none

/-- The bytes that C reads from an emitted literal. -/
def literalBytes : Expr → Option Str
  | .literalString _ v => decode v
  | _ => none

/-- The literal is emitted as the bytes of `a`, then those of `b`. -/
def DenotesJoin (e : Option Expr) (a b : Str) : Prop :=
  ∃ x y, decode a = some x ∧ decode b = some y ∧ e.bind literalBytes = some (x ++ y)

/-- Adjacent literals and folded concatenations denote the two strings one after the other
exactly where C takes both literals and no octal escape at the end of the first, of fewer than
three digits, meets an octal digit at the start of the second. -/
theorem joinedLiteral_denotes_iff {s t ws a b : Str} (hs : Spells s a) (ht : Spells t b)
    (hws : ∀ c ∈ ws, isSpace c = true) (ty : ExpType) :
    (DenotesJoin (parseLiteral (scanString (s ++ (ws ++ quote :: t))).1) a b ↔
      newline ∉ a ∧ newline ∉ b ∧ ¬ (EndsOctal a ∧ StartsOctal b)) ∧
    (DenotesJoin (some (foldConcatenation ty (strLit a) (strLit b)).expr) a b ↔
      newline ∉ a ∧ newline ∉ b ∧ ¬ (EndsOctal a ∧ StartsOctal b)) := by
  have ha := (lexed_iff a).1 hs.lexed
  have hb := (lexed_iff b).1 ht.lexed
  have hjoin : scanString (s ++ (ws ++ quote :: t)) = (⟨.string, a ++ b⟩, []) :=
    hs.adjacent ht hws
  constructor
  · rw [hjoin]
    exact decode_append_iff ha hb
  · exact decode_append_iff ha hb

/-- `"\1" "x"` is a byte 1 and an `x`, joined by the lexer or by the folder. -/
theorem joinedLiteral_denotes_octalX :
    DenotesJoin (parseLiteral (scanString ([92, 49, 34] ++ ([32] ++ quote :: [120, 34]))).1)
        [92, 49] [120] ∧
      DenotesJoin (some (foldConcatenation .string (strLit [92, 49]) (strLit [120])).expr)
        [92, 49] [120] := by
  have hws : ∀ c ∈ [32], isSpace c = true := by
    intro c hc
    rw [mem_singleton.1 hc]
    rfl
  have h := joinedLiteral_denotes_iff (s := [92, 49, 34]) (t := [120, 34]) (a := [92, 49])
    (b := [120]) (show Spells _ _ from rfl) (show Spells _ _ from rfl) hws
    .string
  have hc : newline ∉ ([92, 49] : Str) ∧ newline ∉ ([120] : Str) ∧
      ¬ (EndsOctal [92, 49] ∧ StartsOctal [120]) := by
    refine ⟨by decide, by decide, ?_⟩
    rintro ⟨-, c, hc, ho⟩
    cases hc
    exact absurd ho (by decide)
  exact ⟨h.1.2 hc, h.2.2 hc⟩

/-- `"\1" "2"` is one line end, whichever way it is joined, and not a byte 1 and a `2`. -/
theorem joinedLiteral_octalTwo_fails :
    Spells [92, 49, 34] [92, 49] ∧ Spells [50, 34] [50] ∧
      decode [92, 49] = some [1] ∧ decode [50] = some [50] ∧
      (parseLiteral (scanString ([92, 49, 34] ++ ([32] ++ quote :: [50, 34]))).1).bind
        literalBytes = some [10] ∧
      literalBytes (foldConcatenation .string (strLit [92, 49]) (strLit [50])).expr =
        some [10] := by
  decide

end Systemtap.Opt
