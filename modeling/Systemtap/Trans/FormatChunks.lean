import Systemtap.Trans.PrintFormat

/-!
# The C literal of a format string, chunk by chunk

The C literal of a format is cut into chunks: a byte of a literal, or a conversion. A byte is a `Cell`,
which remembers whether an escape wrote it, because `components_to_string` doubles a `%` of the script
and not one that an escape denotes. `Chunked` says that the C compiler and the script agree on the
chunks, and `Laid.chunked` that the components of a token have them.

The run time takes a conversion for what it was, up to its numbers (`itemDirective_toStr`).
-/

namespace Systemtap.Trans

open Systemtap.Tree Systemtap.Lex Systemtap.Runtime List Nat

/-! ## Numbers -/

theorem isdigit_ofNat {d : Nat} (hd : d < 10) : isdigit (UInt8.ofNat (48 + d)) = true := by
  interval_cases d <;> decide

theorem toNat_ofNat_digit {d : Nat} (hd : d < 10) : (UInt8.ofNat (48 + d)).toNat - 48 = d := by
  interval_cases d <;> decide

theorem isdigit_decimal (n : Nat) : ∀ c ∈ decimal n, isdigit c = true := by
  intro c hc
  obtain ⟨d, hd, rfl⟩ := mem_map.1 hc
  exact isdigit_ofNat (digits_lt_base (by decide) (mem_reverse.1 hd))

theorem natValue_decimal (n : Nat) : natValue (decimal n) = n := by
  have hfold (l : List Nat) (hl : ∀ d ∈ l, d < 10) :
      l.foldr (fun d n => n * 10 + ((UInt8.ofNat (48 + d)).toNat - 48)) 0 = ofDigits 10 l := by
    induction l with
    | nil => rfl
    | cons d l ih =>
      rw [foldr_cons, ih fun d' h => hl d' (mem_cons_of_mem _ h), ofDigits_cons,
        toNat_ofNat_digit (hl d mem_cons_self)]
      ring
  unfold natValue decimal
  rw [foldl_map, foldl_reverse, hfold _ fun d hd => digits_lt_base (by decide) hd,
    ofDigits_digits]

/-- A number that is not zero does not begin with a zero. -/
theorem decimal_cons {n : Nat} (hn : 0 < n) :
    ∃ c ds, decimal n = c :: ds ∧ isdigit c = true ∧ c ≠ chr '0' := by
  have hne : digits 10 n ≠ [] := digits_ne_nil_iff_ne_zero.2 hn.ne'
  have hlast := getLast_digit_ne_zero 10 hn.ne'
  have hrev : (digits 10 n).reverse = (digits 10 n).getLast hne ::
      (digits 10 n).dropLast.reverse := by
    conv_lhs => rw [← dropLast_append_getLast hne]
    rw [reverse_append]
    rfl
  have hlt : (digits 10 n).getLast hne < 10 := digits_lt_base (by decide) (getLast_mem hne)
  refine ⟨_, _, by rw [decimal, hrev, map_cons], isdigit_ofNat hlt, ?_⟩
  generalize (digits 10 n).getLast hne = d at hlast hlt
  interval_cases d <;> first | exact absurd rfl hlast | decide

theorem unsignedValue_eq (digits : Str) : unsignedValue digits = natValue digits % 2 ^ 32 := by
  suffices ∀ m n, m = n % 2 ^ 32 →
      digits.foldl (fun n d => (n * 10 + (d.toNat - 48)) % 2 ^ 32) m =
        digits.foldl (fun n d => n * 10 + (d.toNat - 48)) n % 2 ^ 32 from this 0 0 rfl
  induction digits with
  | nil => exact fun m n h => h
  | cons d digits ih =>
    intro m n h
    refine ih _ _ ?_
    dsimp only
    omega

/-- The rest does not go on with a digit. -/
def NoDigit (rest : Str) : Prop := ∀ c, rest.head? = some c → isdigit c = false

variable {rest : Str}

theorem skipAtoi_digits (ds : Str) (hds : ∀ c ∈ ds, isdigit c = true) (m : Nat)
    (hrest : NoDigit rest) :
    skipAtoi (BitVec.ofNat 32 m) (ds ++ rest) =
      (BitVec.ofNat 32 (ds.foldl (fun n d => n * 10 + (d.toNat - 48)) m), rest) := by
  induction ds generalizing m with
  | nil =>
    cases rest with
    | nil => rfl
    | cons c rest =>
      have hc := hrest c rfl
      rw [nil_append, skipAtoi, hc]
      rfl
  | cons d ds ih =>
    have hd := hds d mem_cons_self
    have hge : 48 ≤ d.toNat := by
      have : chr '0' ≤ d := by
        unfold isdigit at hd
        simp only [Bool.and_eq_true, decide_eq_true_eq] at hd
        exact hd.1
      exact this
    have hstep : BitVec.ofNat 32 m * 10 + d.toBitVec.setWidth 32 - (chr '0').toBitVec.setWidth 32 =
        BitVec.ofNat 32 (m * 10 + (d.toNat - 48)) := by
      have hlt : d.toNat < 256 := d.toNat_lt
      have hbv : (d.toBitVec.setWidth 32).toNat = d.toNat := by
        rw [BitVec.toNat_setWidth]
        exact mod_eq_of_lt (by show d.toNat < _; omega)
      refine BitVec.eq_of_toNat_eq ?_
      rw [BitVec.toNat_sub, BitVec.toNat_add, BitVec.toNat_mul, hbv, BitVec.toNat_ofNat, BitVec.toNat_ofNat]
      show (2 ^ 32 - 48 + (m % 2 ^ 32 * 10 % 2 ^ 32 + d.toNat) % 2 ^ 32) % 2 ^ 32 = _
      omega
    rw [cons_append, skipAtoi, hd, if_pos rfl, hstep,
      ih (fun c hc => hds c (mem_cons_of_mem _ hc))]
    rfl

theorem skipAtoi_decimal (n : Nat) (hrest : NoDigit rest) :
    skipAtoi 0 (decimal n ++ rest) = (BitVec.ofNat 32 n, rest) := by
  have h := skipAtoi_digits (decimal n) (isdigit_decimal n) 0 hrest
  have hvalue := natValue_decimal n
  unfold natValue at hvalue
  rw [hvalue] at h
  exact h

/-! ## A conversion at run time -/

/-- The rest does not go on with a flag. -/
def NoFlag (rest : Str) : Prop :=
  ∀ c, rest.head? = some c → c ∉ [chr '-', chr '+', chr ' ', chr '#', chr '0']

theorem takeFlags_noFlag (h : NoFlag rest) (flags : PrintFlags) :
    takeFlags flags rest = (flags, rest) := by
  cases rest with
  | nil => rfl
  | cons c rest =>
    have hc := h c rfl
    simp only [mem_cons, not_mem_nil, or_false, not_or] at hc
    simp only [takeFlags, hc, if_false]

/-- The flags of a conversion at run time. -/
def FormatFlags.run (f : FormatFlags) : PrintFlags :=
  { PrintFlags.zero with
    zeropad := f.zeropad, plus := f.plus, space := f.space, left := f.left, special := f.special }

theorem takeFlags_toStr (f : FormatFlags) (h : NoFlag rest) :
    takeFlags .zero (f.toStr ++ rest) = (f.run, rest) := by
  have hrest := takeFlags_noFlag h
  obtain ⟨zeropad, plus, space, left, special⟩ := f
  cases zeropad <;> cases plus <;> cases space <;> cases left <;> cases special <;>
    exact hrest _

/-- A width or a precision at run time. -/
def runField : FormatField Nat → FormatField I32
  | .unspecified => .unspecified
  | .static n => if 0 < n then .static (BitVec.ofNat 32 n) else .unspecified
  | .dynamic => .dynamic

/-- The rest does not go on with a number, a `*` or a flag. -/
structure AfterWidth (rest : Str) : Prop where
  noDigit : NoDigit rest
  noStar : ∀ c, rest.head? = some c → c ≠ chr '*'
  noFlag : NoFlag rest

theorem widthField_toString (w : FormatField Nat) (h : AfterWidth rest) :
    widthField (widthToString w ++ rest) = (runField w, rest) := by
  have hrest : widthField rest = (.unspecified, rest) := by
    cases rest with
    | nil => rfl
    | cons c rest =>
      unfold widthField
      simp only [h.noDigit c rfl, h.noStar c rfl, if_false, Bool.false_eq_true]
  cases w with
  | unspecified => exact hrest
  | dynamic => rfl
  | static n =>
    unfold widthToString runField
    dsimp only
    split
    · next hn =>
      obtain ⟨c, ds, hcons, hc, -⟩ := decimal_cons hn
      have hskip := skipAtoi_decimal n h.noDigit
      rw [hcons] at hskip ⊢
      unfold widthField
      rw [cons_append] at hskip ⊢
      simp only [hc, if_true, hskip]
    · exact hrest

theorem precisionField_toString (p : FormatField Nat) (hdigit : NoDigit rest)
    (hdot : ∀ c, rest.head? = some c → c ≠ chr '.') :
    precisionField (precisionToString p ++ rest) = (runField p, rest) := by
  have hrest : precisionField rest = (.unspecified, rest) := by
    cases rest with
    | nil => rfl
    | cons c rest =>
      unfold precisionField
      simp only [hdot c rfl, if_false]
  cases p with
  | unspecified => exact hrest
  | dynamic => rfl
  | static n =>
    unfold precisionToString runField
    dsimp only
    split
    · next hn =>
      obtain ⟨c, ds, hcons, hc, -⟩ := decimal_cons hn
      have hskip := skipAtoi_decimal n hdigit
      rw [hcons] at hskip ⊢
      unfold precisionField
      rw [cons_append] at hskip
      simp only [cons_append, if_true, hc, hskip]
    · exact hrest

/-- The qualifier and the character that stand for a type. -/
def ConvType.run : ConvType → Qualifier × UInt8
  | .binary => (.none, chr 'b')
  | .char => (.L, chr 'c')
  | .signedDecimal => (.L, chr 'd')
  | .unsignedDecimal => (.L, chr 'u')
  | .unsignedOctal => (.L, chr 'o')
  | .unsignedPtr => (.none, chr 'p')
  | .unsignedUppercaseHex => (.L, chr 'X')
  | .unsignedLowercaseHex => (.L, chr 'x')
  | .string => (.none, chr 's')
  | .memory => (.none, chr 'm')
  | .memoryHex => (.none, chr 'M')

theorem takeQualifier_toStr (t : ConvType) (rest : Str) :
    takeQualifier (t.toStr ++ rest) = (t.run.1, t.run.2 :: rest) := by
  cases t <;> rfl

theorem runType_run (t : ConvType) : runType t.run.1 t.run.2 = some t := by
  cases t <;> rfl

/-- What a type begins with is no digit, no flag, no `*` and no `.`. -/
theorem head_toStr (t : ConvType) (rest : Str) :
    ∃ c, (t.toStr ++ rest).head? = some c ∧ isdigit c = false ∧ c ≠ chr '.' ∧ c ≠ chr '*' ∧
      c ∉ [chr '-', chr '+', chr ' ', chr '#', chr '0'] := by
  cases t <;> exact ⟨_, rfl, by decide, by decide, by decide, by decide⟩

theorem afterWidth_of_head {s : Str} {c : UInt8} (h : s.head? = some c) (hd : isdigit c = false)
    (hs : c ≠ chr '*') (hf : c ∉ [chr '-', chr '+', chr ' ', chr '#', chr '0']) : AfterWidth s := by
  refine ⟨fun c' h' => ?_, fun c' h' => ?_, fun c' h' => ?_⟩ <;>
  · rw [h] at h'
    cases h'
    assumption

theorem noFlag_widthToString (w : FormatField Nat) (h : NoFlag rest) :
    NoFlag (widthToString w ++ rest) := by
  cases w with
  | unspecified => exact h
  | dynamic =>
    intro c hc
    cases hc
    decide
  | static n =>
    unfold widthToString
    dsimp only
    split
    · next hn =>
      obtain ⟨c, ds, hcons, hc, hzero⟩ := decimal_cons hn
      rw [hcons]
      intro c' h'
      cases h'
      simp only [mem_cons, not_mem_nil, or_false, not_or]
      exact ⟨isdigit_ne hc (by decide), isdigit_ne hc (by decide), isdigit_ne hc (by decide),
        isdigit_ne hc (by decide), hzero⟩
    · exact h

/-- The run time takes a conversion of the C file and leaves the rest. -/
theorem itemDirective_toStr (c : Conversion Nat) (rest : Str) :
    itemDirective (c.toStr ++ rest) =
      (.directive ⟨c.flags.run, runField c.width, runField c.precision, c.type.run.1⟩ c.type.run.2,
        rest) := by
  obtain ⟨h, hhead, hdigit, hdot, hstar, hflag⟩ := head_toStr c.type rest
  have htype := afterWidth_of_head hhead hdigit hstar hflag
  have hprec : AfterWidth (precisionToString c.precision ++ (c.type.toStr ++ rest)) := by
    cases c.precision with
    | unspecified => exact htype
    | dynamic => exact afterWidth_of_head rfl (by decide) (by decide) (by decide)
    | static n =>
      unfold precisionToString
      dsimp only
      split
      · exact afterWidth_of_head rfl (by decide) (by decide) (by decide)
      · exact htype
  have hdot' : ∀ d, (c.type.toStr ++ rest).head? = some d → d ≠ chr '.' := by
    intro d hd
    rw [hhead] at hd
    cases hd
    exact hdot
  have hflags := takeFlags_toStr c.flags (noFlag_widthToString c.width hprec.noFlag)
  unfold itemDirective Conversion.toStr
  simp only [append_assoc]
  rw [hflags]
  rw [widthField_toString c.width hprec]
  rw [precisionField_toString c.precision htype.noDigit hdot']
  rw [takeQualifier_toStr]

/-! ## The bytes of a literal -/

/-- A byte of a literal, and whether an escape wrote it. -/
structure Cell where
  byte : UInt8
  escaped : Bool

/-- A byte in the format. -/
def Cell.bytes (x : Cell) : Str :=
  if x.byte = chr '%' ∧ x.escaped = false then [chr '%', chr '%'] else [x.byte]

/-- The `%` of a literal that no escape wrote. -/
def rawPercents (cells : List Cell) : Nat :=
  cells.countP fun x => x.byte = chr '%' && !x.escaped

/-- The byte of an octal escape that has not been put out. -/
def flushCells (q : CState) : List Cell := q.flush.map fun c => ⟨c, true⟩

theorem map_flushCells (q : CState) : (flushCells q).map Cell.byte = q.flush := by
  unfold flushCells
  rw [map_map]
  exact map_id _

theorem flatMap_flushCells (q : CState) : (flushCells q).flatMap Cell.bytes = q.flush := by
  unfold flushCells
  induction q.flush with
  | nil => rfl
  | cons c cs ih =>
    rw [map_cons, flatMap_cons, ih]
    simp [Cell.bytes]

theorem rawPercents_append (xs ys : List Cell) :
    rawPercents (xs ++ ys) = rawPercents xs + rawPercents ys :=
  countP_append

theorem rawPercents_flushCells (q : CState) : rawPercents (flushCells q) = 0 := by
  unfold rawPercents flushCells
  rw [countP_eq_zero]
  intro x hx
  obtain ⟨c, -, rfl⟩ := mem_map.1 hx
  simp

/-- `components_to_string` doubles each `%`. -/
def double (s : Str) : Str := s.flatMap fun c => if c = chr '%' then [chr '%', chr '%'] else [c]

theorem literalToString_eq (s : Str) : literalToString s = visitLiteralString (double s) := by
  unfold literalToString visitLiteralString double
  rw [flatMap_assoc]
  refine congrArg (fun f => flatMap f s) (funext fun c => ?_)
  by_cases hc : c = chr '%'
  · rw [if_pos hc, if_pos hc]
    rfl
  · rw [if_neg hc, if_neg hc, flatMap_cons, flatMap_nil, append_nil]

theorem double_append (s t : Str) : double (s ++ t) = double s ++ double t := flatMap_append

/-- What C reads in a literal as it is, and in the literal with each `%` doubled. -/
structure Reading (q : CState) (s : Str) (cells : List Cell) (q' : CState) : Prop where
  plain : cRun q (visitLiteralString s) = some (cells.map Cell.byte, q')
  doubled : cRun q (visitLiteralString (double s)) = some (cells.flatMap Cell.bytes, q')
  percents : rawPercents cells = s.count (chr '%')
  settled : q' ≠ .escape

theorem Reading.append {q q1 q2 : CState} {s t : Str} {xs ys : List Cell} (hs : Reading q s xs q1)
    (ht : Reading q1 t ys q2) : Reading q (s ++ t) (xs ++ ys) q2 where
  plain := by
    rw [visitLiteralString_append, cRun_append_of_some hs.plain, ht.plain, map_append]
    rfl
  doubled := by
    rw [double_append, visitLiteralString_append, cRun_append_of_some hs.doubled, ht.doubled,
      flatMap_append]
    rfl
  percents := by rw [rawPercents_append, hs.percents, ht.percents, count_append]
  settled := ht.settled

theorem double_of_ne {c : UInt8} (hc : c ≠ chr '%') : double [c] = [c] := by
  simp [double, hc]

/-- A byte that is taken as it is. -/
theorem reading_byte {q : CState} (hq : q ≠ .escape) {c : UInt8} (hb : c ≠ backslash)
    (hn : c ≠ newline) (hc : ¬ (q.Hungry ∧ isOctal c = true)) :
    Reading q [c] (flushCells q ++ [⟨c, false⟩]) .plain where
  plain := by
    rw [cRun_byte hq hb hn hc, map_append, map_flushCells]
    rfl
  doubled := by
    rw [flatMap_append, flatMap_flushCells]
    by_cases hp : c = chr '%'
    · subst hp
      -- the first of the two ends an octal escape, the second stands alone
      have h1 := cRun_byte hq hb hn hc
      have h2 : cRun .plain (visitLiteralString [chr '%']) = some ([chr '%'], .plain) := by decide
      show cRun q (visitLiteralString ([chr '%'] ++ [chr '%'])) = _
      rw [visitLiteralString_append, cRun_append_of_some h1, h2, Option.map_some, append_assoc]
      rfl
    · rw [double_of_ne hp, cRun_byte hq hb hn hc]
      simp [Cell.bytes, hp]
  percents := by
    rw [rawPercents_append, rawPercents_flushCells, zero_add]
    by_cases hp : c = chr '%'
    · rw [hp]
      rfl
    · simp [rawPercents, hp]
  settled := nofun

theorem reading_unit {u : Str} (hu : IsUnit u) (hn : newline ∉ u) {q : CState} (hq : q ≠ .escape) :
    ∃ cells q', Reading q u cells q' := by
  cases hu with
  | @byte c hb =>
    have hcn : c ≠ newline := fun h => hn (h ▸ mem_singleton_self _)
    by_cases hc : q.Hungry ∧ isOctal c = true
    · have hp : c ≠ chr '%' := isOctal_ne hc.2 (by decide)
      cases q with
      | octal n v =>
        refine ⟨[], _, cRun_digit hc.1 hc.2, ?_, ?_, nofun⟩
        · rw [double_of_ne hp]
          exact cRun_digit hc.1 hc.2
        · rw [count_singleton]
          simp [rawPercents, hp]
      | _ => exact hc.1.elim
    · exact ⟨_, _, reading_byte hq hb hcn hc⟩
  | @escape d hd =>
    have hp : d ≠ chr '%' := passes_ne hd (by decide)
    have hdouble : double [backslash, d] = [backslash, d] := by
      simp [double, hp, show backslash ≠ chr '%' by decide]
    have hcount : count (chr '%') [backslash, d] = 0 := by
      simp [hp, show backslash ≠ chr '%' by decide]
    rcases cRun_escape hq hd with ⟨-, h⟩ | ⟨-, b, h⟩
    · refine ⟨flushCells q, .octal 1 (octalDigit d), ?_, ?_, ?_, nofun⟩
      · rw [h, map_flushCells]
      · rw [hdouble, h, flatMap_flushCells]
      · rw [rawPercents_flushCells, hcount]
    · refine ⟨flushCells q ++ [⟨b, true⟩], .plain, ?_, ?_, ?_, nofun⟩
      · rw [h, map_append, map_flushCells]
        rfl
      · rw [hdouble, h, flatMap_append, flatMap_flushCells]
        simp [Cell.bytes]
      · rw [rawPercents_append, rawPercents_flushCells, hcount]
        simp [rawPercents]

theorem reading_token {s : Str} (hs : wellEscaped s = true) (hn : newline ∉ s) {q : CState}
    (hq : q ≠ .escape) : ∃ cells q', Reading q s cells q' := by
  revert hn q
  refine wellEscaped_induction ?_ ?_ s hs
  · intro _ q hq
    exact ⟨[], q, rfl, rfl, rfl, hq⟩
  · intro u s hu _ ih hn q hq
    rw [mem_append, not_or] at hn
    obtain ⟨xs, q1, h1⟩ := reading_unit hu hn.1 hq
    obtain ⟨ys, q2, h2⟩ := ih hn.2 h1.settled
    exact ⟨xs ++ ys, q2, h1.append h2⟩

/-! ## The bytes of a conversion -/

/-- A byte that is only itself, in a C literal and in a format. -/
def Inert (c : UInt8) : Prop := c ∉ [backslash, quote, newline, 0, chr '%']

instance : DecidablePred Inert := fun c => inferInstanceAs (Decidable (c ∉ _))

theorem Inert.ne {c d : UInt8} (h : Inert c) (hd : d ∈ [backslash, quote, newline, 0, chr '%']) : c ≠ d := by
  rintro rfl
  exact h hd

theorem inert_decimal (n : Nat) : ∀ c ∈ decimal n, Inert c := by
  intro c hc hmem
  have hdigit := isdigit_decimal n c hc
  simp only [mem_cons, not_mem_nil, or_false] at hmem
  rcases hmem with rfl | rfl | rfl | rfl | rfl <;> cases hdigit

theorem inert_flags (f : FormatFlags) : ∀ c ∈ f.toStr, Inert c := by
  obtain ⟨zeropad, plus, space, left, special⟩ := f
  cases zeropad <;> cases plus <;> cases space <;> cases left <;> cases special <;> decide +kernel

theorem inert_width (w : FormatField Nat) : ∀ c ∈ widthToString w, Inert c := by
  cases w with
  | unspecified => exact nofun
  | dynamic => decide +kernel
  | static n =>
    unfold widthToString
    dsimp only
    split
    · exact inert_decimal n
    · exact nofun

theorem inert_precision (p : FormatField Nat) : ∀ c ∈ precisionToString p, Inert c := by
  cases p with
  | unspecified => exact nofun
  | dynamic => decide +kernel
  | static n =>
    unfold precisionToString
    dsimp only
    split
    · intro c hc
      rcases mem_cons.1 hc with rfl | hc
      · decide
      · exact inert_decimal n c hc
    · exact nofun

theorem inert_type (t : ConvType) : ∀ c ∈ t.toStr, Inert c := by
  cases t <;> decide +kernel

theorem inert_toStr (c : Conversion Nat) : ∀ d ∈ c.toStr, Inert d := by
  intro d hd
  unfold Conversion.toStr at hd
  simp only [mem_append] at hd
  rcases hd with h | h | h | h
  · exact inert_flags c.flags d h
  · exact inert_width c.width d h
  · exact inert_precision c.precision d h
  · exact inert_type c.type d h

theorem cRun_inert {s : Str} (hs : ∀ c ∈ s, Inert c) : cRun .plain s = some (s, .plain) := by
  induction s with
  | nil => rfl
  | cons c s ih =>
    have hc := hs c mem_cons_self
    have hbyte : cRun .plain (visitLiteralString [c]) = some ([c], .plain) :=
      cRun_byte (by decide) (hc.ne (by decide)) (hc.ne (by decide)) fun h => False.elim h.1
    rw [visitLiteralString_of_ne (hc.ne (by decide))] at hbyte
    rw [← singleton_append, cRun_append_of_some hbyte,
      ih fun d hd => hs d (mem_cons_of_mem _ hd)]
    rfl

/-- A conversion ends an octal escape before it, and leaves nothing open. -/
theorem cRun_conversion (c : Conversion Nat) {q : CState} (hq : q ≠ .escape) :
    cRun q (chr '%' :: c.toStr) = some (q.flush ++ chr '%' :: c.toStr, .plain) := by
  have hpercent : cRun q (visitLiteralString [chr '%']) = some (q.flush ++ [chr '%'], .plain) :=
    cRun_byte hq (by decide) (by decide) fun h => absurd h.2 (by decide)
  rw [visitLiteralString_of_ne (by decide)] at hpercent
  rw [← singleton_append, cRun_append_of_some hpercent, cRun_inert (inert_toStr c)]
  simp

/-! ## Chunks -/

/-- A piece of a format: a byte of a literal, or a conversion. -/
inductive Chunk where
  | cell (x : Cell)
  | conversion (c : Conversion Str)

namespace Chunk

/-- In the format that the run time sees. -/
def bytes : Chunk → Str
  | cell x => x.bytes
  | conversion c => chr '%' :: (c.map unsignedValue).toStr

/-- In the script. -/
def element : Chunk → Element
  | cell x => .byte x.byte
  | conversion c => .conversion (c.map fun digits => (natValue digits : Int))

end Chunk

/-- A number that is not zero and fits into an `int`. -/
def Fits : FormatField Str → Prop
  | .static digits => 0 < natValue digits ∧ natValue digits < 2 ^ 31
  | .unspecified | .dynamic => True

/-- A literal that C accepts, where no escape denotes a zero or a `%`; a conversion whose numbers fit.
-/
def Component.Intact : Component Str → Prop
  | .literal s => ∃ o, decode s = some o ∧ 0 ∉ o ∧ o.count (chr '%') = s.count (chr '%')
  | .conversion c => Fits c.width ∧ Fits c.precision

def Chunk.Intact : Chunk → Prop
  | .cell x => x.byte ≠ 0 ∧ ¬ (x.byte = chr '%' ∧ x.escaped = true)
  | .conversion c => Fits c.width ∧ Fits c.precision

/-- The C literal, read from the state `q` on, and the script have these chunks. -/
structure Chunked (q : CState) (cs : List (Component Str)) (chunks : List Chunk) : Prop where
  read : cRead q (componentsToString (cs.map (Component.map unsignedValue))) =
    some (q.flush ++ chunks.flatMap Chunk.bytes)
  elements : allElements cs = some (chunks.map Chunk.element)
  intact : (∀ c ∈ cs, c.Intact) ↔ ∀ x ∈ chunks, x.Intact

variable {cs : List (Component Str)} {q : CState}

theorem chunked_nil (hq : q ≠ .escape) : Chunked q [] [] where
  read := by
    rw [flatMap_nil, append_nil]
    exact cFinish_eq_flush hq
  elements := rfl
  intact := ⟨fun _ => nofun, fun _ => nofun⟩

theorem chunked_conversion {chunks : List Chunk} (hq : q ≠ .escape) (h : Chunked .plain cs chunks)
    (c : Conversion Str) : Chunked q (.conversion c :: cs) (.conversion c :: chunks) where
  read := by
    have hread := h.read
    show cRead q ((chr '%' :: (c.map unsignedValue).toStr) ++
      componentsToString (cs.map (Component.map unsignedValue))) = _
    rw [cRead_append_of_some (cRun_conversion _ hq), hread, Option.map_some, append_assoc]
    rfl
  elements := by
    rw [allElements, h.elements]
    rfl
  intact := by
    rw [forall_mem_cons, forall_mem_cons, h.intact]
    rfl

theorem Reading.decode {s : Str} {cells : List Cell} (h : Reading .plain s cells q) :
    Lex.decode s = some ((cells ++ flushCells q).map Cell.byte) := by
  rw [decode_of_cRun h.settled h.plain, map_append, map_flushCells]

/-- The cells of a literal, with the byte that its last escape leaves open. -/
theorem intact_literal {s : Str} {cells : List Cell} (h : Reading .plain s cells q) :
    (Component.literal s : Component Str).Intact ↔
      ∀ x ∈ (cells ++ flushCells q).map Chunk.cell, x.Intact := by
  have hdecode := h.decode
  have hraw : rawPercents (cells ++ flushCells q) = s.count (chr '%') := by
    rw [rawPercents_append, rawPercents_flushCells, h.percents, add_zero]
  generalize cells ++ flushCells q = xs at hdecode hraw
  -- the count of all `%` exceeds the count of the raw ones by the escaped ones
  have hcount : (xs.map Cell.byte).count (chr '%') =
      rawPercents xs + xs.countP fun x => x.byte = chr '%' && x.escaped := by
    rw [List.count, countP_map, countP_eq_countP_filter_add _ _ (·.escaped), countP_filter, countP_filter,
      Nat.add_comm]
    rfl
  have hzero : countP (fun x : Cell => x.byte = chr '%' && x.escaped) xs = 0 ↔
      ∀ x ∈ xs, ¬ (x.byte = chr '%' ∧ x.escaped = true) := by
    rw [countP_eq_zero]
    simp only [Bool.and_eq_true, decide_eq_true_eq]
  constructor
  · rintro ⟨o, ho, hnul, hpercent⟩ x hx
    rw [hdecode] at ho
    cases ho
    obtain ⟨y, hy, rfl⟩ := mem_map.1 hx
    refine ⟨fun h0 => hnul (mem_map.2 ⟨y, hy, h0⟩), hzero.1 ?_ y hy⟩
    omega
  · intro hall
    refine ⟨_, hdecode, fun hnul => ?_, ?_⟩
    · obtain ⟨y, hy, h0⟩ := mem_map.1 hnul
      exact (hall _ (mem_map_of_mem hy)).1 h0
    · rw [hcount, hzero.2 fun x hx => (hall _ (mem_map_of_mem hx)).2, hraw, add_zero]

/-- A literal, where what comes next ends an octal escape. -/
theorem chunked_literal {s : Str} {cells : List Cell} (h : Reading .plain s cells q) {chunks : List Chunk}
    (hcs : Chunked q cs chunks) :
    Chunked .plain (.literal s :: cs) ((cells ++ flushCells q).map Chunk.cell ++ chunks) where
  read := by
    have hread := hcs.read
    have hcells : ((cells ++ flushCells q).map Chunk.cell).flatMap Chunk.bytes =
        cells.flatMap Cell.bytes ++ q.flush := by
      rw [flatMap_map, ← flatMap_flushCells, ← flatMap_append]
      rfl
    show cRead .plain (literalToString s ++ componentsToString (cs.map (Component.map unsignedValue))) = _
    rw [literalToString_eq, cRead_append_of_some h.doubled, hread, flatMap_append, hcells, append_assoc]
    rfl
  elements := by
    show ((Lex.decode s).map (·.map Element.byte)).bind (fun es => (allElements cs).bind fun rest =>
      some (es ++ rest)) = _
    rw [h.decode, hcs.elements, Option.map_some, map_append (f := Chunk.element), map_map, map_map]
    rfl
  intact := by rw [forall_mem_cons, intact_literal h, hcs.intact, forall_mem_append]

/-! ## The components of a string -/

/-- How the components of a token follow each other: a literal is a token itself, and after it comes a
conversion. The first component is a literal only if `first` allows it. -/
inductive Laid : (first : Bool) → List (Component Str) → Prop
  | nil {first : Bool} : Laid first []
  | literal {s : Str} {cs : List (Component Str)} : wellEscaped s = true → Laid false cs →
      Laid true (.literal s :: cs)
  | conversion {first : Bool} (c : Conversion Str) {cs : List (Component Str)} : Laid true cs →
      Laid first (.conversion c :: cs)

/-- A `%` is no part of an escape. -/
theorem wellEscaped_percent (a b : Str) :
    wellEscaped (a ++ chr '%' :: b) = (wellEscaped a && wellEscaped b) := by
  fun_induction wellEscaped a with
  | case1 => rw [nil_append, wellEscaped_cons, if_neg (by decide), Bool.true_and]
  | case2 => rfl
  | case3 d ds ih =>
    rw [cons_append, cons_append, wellEscaped_cons, if_pos rfl]
    dsimp only
    rw [ih, Bool.and_assoc]
  | case4 c cs hc ih => rw [cons_append, wellEscaped_cons, if_neg hc, ih]

theorem wellEscaped_of_passes {s rest : Str} (hs : wellEscaped s = true)
    (h : Passes backslash s rest) : wellEscaped rest = true := by
  obtain ⟨skipped, rfl, hskip⟩ := h
  induction skipped with
  | nil => exact hs
  | cons c skipped ih =>
    rw [mem_cons, not_or] at hskip
    rw [cons_append, wellEscaped_cons, if_neg (Ne.symm hskip.1)] at hs
    exact ih hskip.2 hs

theorem takeFlag_passes (s : Str) : Passes backslash s (takeFlag s).2 := by
  cases s with
  | nil => exact .refl _
  | cons c s =>
    unfold takeFlag
    dsimp only
    split_ifs with h h h h h
    all_goals first
      | exact .cons (by rw [h]; decide) (.refl _)
      | exact .refl _

theorem dropWhile_passes (s : Str) : Passes backslash s (s.dropWhile isdigit) := by
  refine ⟨s.takeWhile isdigit, (takeWhile_append_dropWhile).symm, fun h => ?_⟩
  have hdigit := mem_takeWhile_imp h
  cases hdigit

theorem takeWidthDigits_passes (s : Str) : Passes backslash s (takeWidthDigits s).2 := by
  cases s with
  | nil => exact .refl _
  | cons c rest =>
    unfold takeWidthDigits
    dsimp only
    split_ifs with hs hd
    · exact .cons (by rw [hs]; decide) (.refl _)
    · exact dropWhile_passes _
    · exact .refl _

theorem takePrecisionDigits_passes (s : Str) : Passes backslash s (takePrecisionDigits s).2 := by
  cases s with
  | nil => exact .refl _
  | cons c rest =>
    unfold takePrecisionDigits
    dsimp only
    split
    · next hc => exact .cons (by rw [hc]; decide) (takeWidthDigits_passes rest)
    · exact .refl _

theorem takeConversion_passes {s rest : Str} {c : Conversion Str}
    (h : takeConversion s = .ok (some c, rest)) : Passes backslash s rest := by
  have hpass : Passes backslash s (takePrecisionDigits (takeWidthDigits (takeFlag s).2).2).2 :=
    (takeFlag_passes s).trans <| (takeWidthDigits_passes _).trans (takePrecisionDigits_passes _)
  unfold takeConversion at h
  dsimp only at h
  cases hp : (takePrecisionDigits (takeWidthDigits (takeFlag s).2).2).2 with
  | nil =>
    rw [hp] at h
    dsimp only at h
    split at h <;> cases h
  | cons d rest' =>
    rw [hp] at h hpass
    dsimp only at h
    cases ht : takeType d with
    | none =>
      rw [ht] at h
      cases h
    | some t =>
      rw [ht] at h
      cases h
      refine hpass.trans (.cons ?_ (.refl _))
      rintro rfl
      cases ht

theorem laid_flush {lit : Str} (h : wellEscaped lit = true) (hcs : Laid false cs) :
    Laid true (flushLiteral lit ++ cs) := by
  unfold flushLiteral
  split
  · cases hcs with
    | nil => exact .nil
    | conversion c hcs => exact .conversion c hcs
  · exact .literal h hcs

theorem componentsLoop_laid (fuel : Nat) (lit s : Str) (hlit : wellEscaped (lit ++ s) = true)
    (hfuel : s.length ≤ fuel) (h : componentsLoop fuel lit s = .ok cs) : Laid true cs := by
  have hflush {lit : Str} (hlit : wellEscaped lit = true) : Laid true (flushLiteral lit) := by
    simpa using laid_flush hlit .nil
  induction fuel generalizing lit s cs with
  | zero =>
    rw [eq_nil_of_length_eq_zero (le_zero.1 hfuel), append_nil] at hlit
    cases h
    exact hflush hlit
  | succ fuel ih =>
    cases s with
    | nil =>
      rw [append_nil] at hlit
      cases h
      exact hflush hlit
    | cons c s =>
      have hle : s.length ≤ fuel := le_of_succ_le_succ hfuel
      unfold componentsLoop at h
      by_cases hc : c = chr '%'
      · subst hc
        rw [wellEscaped_percent, Bool.and_eq_true] at hlit
        obtain ⟨hl, hs⟩ := hlit
        cases s with
        | nil => cases h
        | cons d s' =>
          dsimp only at h
          by_cases hd : d = chr '%'
          · subst hd
            refine ih _ s' ?_ (le_of_succ_le hle) h
            rw [append_assoc, wellEscaped_append hl]
            exact hs
          · rw [if_neg hd] at h
            cases ht : takeConversion (d :: s') with
            | error e =>
              rw [ht] at h
              cases h
            | ok r =>
              rw [ht] at h
              obtain ⟨oc, rest⟩ := r
              cases oc with
              | none =>
                cases h
                exact hflush hl
              | some conv =>
                have hpass := takeConversion_passes ht
                dsimp only at h
                cases hrec : componentsLoop fuel [] rest with
                | error e =>
                  rw [hrec] at h
                  cases h
                | ok cs' =>
                  rw [hrec] at h
                  cases h
                  exact laid_flush hl (.conversion conv
                    (ih [] rest (wellEscaped_of_passes hs hpass) (hpass.length_le.trans hle) hrec))
      · rw [if_pos hc] at h
        refine ih _ s ?_ hle h
        rw [append_assoc]
        exact hlit

theorem digitComponents_laid {v : Str} (hv : wellEscaped v = true)
    (h : digitComponents v = .ok cs) : Laid true cs :=
  componentsLoop_laid _ [] v hv (le_refl _) h

/-- Without a line end in a literal there are chunks. -/
theorem Laid.chunked {first : Bool} (h : Laid first cs) (hn : ∀ s, .literal s ∈ cs → newline ∉ s) :
    ∀ {q : CState}, q ≠ .escape → (first = true → q = .plain) → ∃ chunks, Chunked q cs chunks := by
  induction h with
  | nil => exact fun hq _ => ⟨[], chunked_nil hq⟩
  | @literal s cs hs _ ih =>
    intro q _ hplain
    cases hplain rfl
    obtain ⟨cells, q, hread⟩ := reading_token hs (hn s mem_cons_self) (q := .plain) (by decide)
    obtain ⟨chunks, hcs⟩ := ih (fun s hs => hn s (mem_cons_of_mem _ hs)) hread.settled nofun
    exact ⟨_, chunked_literal hread hcs⟩
  | @conversion _ c cs _ ih =>
    intro q hq _
    obtain ⟨chunks, hcs⟩ := ih (fun s hs => hn s (mem_cons_of_mem _ hs)) (q := .plain) (by decide) fun _ => rfl
    exact ⟨_, chunked_conversion hq hcs c⟩

end Systemtap.Trans
