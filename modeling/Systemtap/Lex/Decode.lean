import Systemtap.Lex.Scan

/-!
# What a scanned literal denotes

The C reader on the tokens of the lexer. A token is a string of units, and the
reader meets each of them outside an escape: `cRun_byte`, `cRun_digit`,
`cRun_escape` and `cRun_newline` are all that can happen. Hence C refuses a
token just where it holds a line end (`decode_isSome_iff`), and two tokens can
be read one after the other just where the first does not leave the reader in an
octal escape that still takes digits (`decode_append_iff`).
-/

namespace Systemtap.Lex

open Systemtap.Tree List Option

/-! ## Reading in two parts -/

/-- Read some bytes: what they yield and the state after them. -/
def cRun : CState → Str → Option (Str × CState)
  | q, [] => some ([], q)
  | q, c :: cs => do
    let (o, q') ← cStep q c
    let (r, q'') ← cRun q' cs
    pure (o ++ r, q'')

theorem cRun_append (q : CState) (s t : Str) :
    cRun q (s ++ t) =
      (cRun q s).bind fun r => (cRun r.2 t).map fun r' => (r.1 ++ r'.1, r'.2) := by
  induction s generalizing q with
  | nil =>
    show cRun q t = (cRun q t).map id
    rw [Option.map_id, id_eq]
  | cons c cs ih =>
    rw [cons_append, cRun, cRun]
    cases cStep q c with
    | none => rfl
    | some r =>
      simp only [Option.bind_eq_bind, Option.bind_some, Option.pure_def, ih]
      cases cRun r.2 cs with
      | none => rfl
      | some r' =>
        simp only [Option.bind_some]
        cases cRun r'.2 t <;> simp

/-- The whole of a literal is read, and then the quote. -/
theorem cRead_eq (q : CState) (s : Str) :
    cRead q s = (cRun q s).bind fun r => (cFinish r.2).map (r.1 ++ ·) := by
  induction s generalizing q with
  | nil => exact Option.map_id'.symm
  | cons c cs ih =>
    rw [cRead, cRun]
    cases cStep q c with
    | none => rfl
    | some r =>
      simp only [Option.bind_eq_bind, Option.bind_some, Option.pure_def, ih]
      cases cRun r.2 cs with
      | none => rfl
      | some r' =>
        simp only [Option.bind_some]
        cases cFinish r'.2 <;> simp

theorem cRun_append_of_some {q q' : CState} {s o : Str} (h : cRun q s = some (o, q')) (t : Str) :
    cRun q (s ++ t) = (cRun q' t).map fun r => (o ++ r.1, r.2) := by
  rw [cRun_append, h]
  rfl

theorem cRead_append_of_some {q q' : CState} {s o : Str} (h : cRun q s = some (o, q')) (t : Str) :
    cRead q (s ++ t) = (cRead q' t).map (o ++ ·) := by
  rw [cRead_eq, cRun_append_of_some h, cRead_eq, map_bind, bind_map]
  simp [Function.comp_def]

/-! ## One unit -/

namespace CState

/-- The byte of an octal escape that has not been put out. -/
def flush : CState → Str
  | .octal _ v => [UInt8.ofNat v]
  | _ => []

/-- Inside an octal escape that takes another digit. -/
def Hungry : CState → Prop
  | .octal n _ => n < 3
  | _ => False

instance : DecidablePred Hungry
  | .octal n _ => inferInstanceAs (Decidable (n < 3))
  | .plain => isFalse id
  | .escape => isFalse id

end CState

open CState

theorem cFinish_eq_flush {q : CState} (hq : q ≠ .escape) : cFinish q = some q.flush := by
  cases q with
  | escape => exact absurd rfl hq
  | _ => rfl

variable {c : UInt8}

theorem cStep_settled {q : CState} (hq : q ≠ .escape) (hc : ¬ (q.Hungry ∧ isOctal c = true)) :
    cStep q c = (cPlain c).map fun r => (q.flush ++ r.1, r.2) := by
  cases q with
  | escape => exact absurd rfl hq
  | plain =>
    show cPlain c = _
    cases cPlain c <;> rfl
  | octal n v =>
    exact if_neg hc

theorem cStep_backslash {q : CState} (hq : q ≠ .escape) :
    cStep q backslash = some (q.flush, .escape) := by
  rw [cStep_settled hq (fun h => absurd h.2 (by decide))]
  simp [cPlain]

theorem isOctal_ne {c d : UInt8} (hc : isOctal c = true) (hd : isOctal d = false) : c ≠ d := by
  rintro rfl
  rw [hc] at hd
  cases hd

theorem cPlain_of_isOctal (hc : isOctal c = true) : cPlain c = some ([c], .plain) := by
  have hb : c ≠ backslash := isOctal_ne hc (by decide)
  have hq : c ≠ quote := isOctal_ne hc (by decide)
  have hn : c ≠ newline := isOctal_ne hc (by decide)
  simp [cPlain, hb, hq, hn]

theorem visitLiteralString_append (v w : Str) :
    visitLiteralString (v ++ w) = visitLiteralString v ++ visitLiteralString w :=
  flatMap_append

theorem visitLiteralString_of_ne (hc : c ≠ quote) : visitLiteralString [c] = [c] := by
  simp [visitLiteralString, hc]

theorem visitLiteralString_cons_of_ne (hc : c ≠ quote) (v : Str) :
    visitLiteralString (c :: v) = c :: visitLiteralString v := by
  simp [visitLiteralString, hc]

theorem visitLiteralString_escape {d : UInt8} (hd : passes d = true) :
    visitLiteralString [backslash, d] = [backslash, d] := by
  have hq : d ≠ quote := passes_ne hd (by decide)
  rw [visitLiteralString_cons_of_ne (by decide), visitLiteralString_of_ne hq]

theorem passes_cases {d : UInt8} (hd : passes d = true) :
    isOctal d = true ∨ (isOctal d = false ∧ ∃ b, cEscape d = some b) := by
  by_cases ho : isOctal d = true
  · exact .inl ho
  · have hm : d ∈ [97, 98, 116, 110, 118, 102, 114, 92] := by
      have := of_decide_eq_true hd
      exact this.resolve_right ho
    refine .inr ⟨Bool.eq_false_iff.2 ho, ?_⟩
    simp only [mem_cons, not_mem_nil, or_false] at hm
    rcases hm with rfl | rfl | rfl | rfl | rfl | rfl | rfl | rfl <;> exact ⟨_, rfl⟩

section Unit

variable {q : CState} {c : UInt8} (hq : q ≠ .escape)
include hq

/-- A byte that is taken as it is. -/
theorem cRun_byte (hb : c ≠ backslash) (hn : c ≠ newline) (hc : ¬ (q.Hungry ∧ isOctal c = true)) :
    cRun q (visitLiteralString [c]) = some (q.flush ++ [c], .plain) := by
  by_cases hquote : c = quote
  · subst hquote
    show (do let (o, q') ← cStep q backslash; _) = _
    rw [cStep_backslash hq]
    rfl
  · rw [visitLiteralString_of_ne hquote, cRun, cStep_settled hq hc]
    simp [cPlain, hb, hquote, hn, cRun]

/-- An escape, in any settled state. -/
theorem cRun_escape (hd : passes c = true) :
    (isOctal c = true ∧ cRun q (visitLiteralString [backslash, c]) =
      some (q.flush, .octal 1 (octalDigit c))) ∨
    (isOctal c = false ∧ ∃ b, cRun q (visitLiteralString [backslash, c]) =
      some (q.flush ++ [b], .plain)) := by
  rw [visitLiteralString_escape hd]
  rcases passes_cases hd with ho | ⟨ho, b, hb⟩
  · refine .inl ⟨ho, ?_⟩
    rw [cRun, cStep_backslash hq]
    simp [cRun, cStep, ho]
  · refine .inr ⟨ho, b, ?_⟩
    rw [cRun, cStep_backslash hq]
    simp [cRun, cStep, ho, hb]

theorem cRun_newline : cRun q (visitLiteralString [newline]) = none := by
  rw [visitLiteralString_of_ne (by decide), cRun, cStep_settled hq (fun h => absurd h.2 (by decide))]
  rfl

end Unit

/-- A digit that an octal escape takes. -/
theorem cRun_digit {n v : Nat} {c : UInt8} (hn : n < 3) (hc : isOctal c = true) :
    cRun (.octal n v) (visitLiteralString [c]) =
      some ([], .octal (n + 1) (v * 8 + octalDigit c)) := by
  rw [visitLiteralString_of_ne (isOctal_ne hc (by decide)), cRun, cStep, if_pos ⟨hn, hc⟩]
  rfl

/-- A unit other than a line end is read, and not into the middle of an escape. -/
theorem cRun_unit {u : Str} (hu : IsUnit u) (hn : newline ∉ u) {q : CState} (hq : q ≠ .escape) :
    ∃ o q', cRun q (visitLiteralString u) = some (o, q') ∧ q' ≠ .escape := by
  cases hu with
  | @byte c hb =>
    have hcn : c ≠ newline := fun h => hn (h ▸ mem_singleton_self _)
    by_cases hc : q.Hungry ∧ isOctal c = true
    · cases q with
      | octal n v => exact ⟨_, _, cRun_digit hc.1 hc.2, by simp⟩
      | _ => exact hc.1.elim
    · exact ⟨_, _, cRun_byte hq hb hcn hc, by simp⟩
  | escape hd =>
    rcases cRun_escape hq hd with ⟨_, h⟩ | ⟨_, b, h⟩
    · exact ⟨_, _, h, by simp⟩
    · exact ⟨_, _, h, by simp⟩

/-! ## A whole token -/

variable {v : Str}

theorem cRun_token (hv : wellEscaped v = true) (hn : newline ∉ v) {q : CState} (hq : q ≠ .escape) :
    ∃ o q', cRun q (visitLiteralString v) = some (o, q') ∧ q' ≠ .escape := by
  revert hn q
  refine wellEscaped_induction ?_ ?_ v hv
  · intro _ q hq
    exact ⟨[], q, rfl, hq⟩
  · intro u v hu _ ih hn q hq
    rw [mem_append, not_or] at hn
    obtain ⟨o, q1, h1, hq1⟩ := cRun_unit hu hn.1 hq
    obtain ⟨o', q2, h2, hq2⟩ := ih hn.2 hq1
    refine ⟨o ++ o', q2, ?_, hq2⟩
    rw [visitLiteralString_append, cRun_append_of_some h1, h2]
    rfl

theorem cRun_token_newline (hv : wellEscaped v = true) (hn : newline ∈ v) {q : CState}
    (hq : q ≠ .escape) : cRun q (visitLiteralString v) = none := by
  revert hn q
  refine wellEscaped_induction ?_ ?_ v hv
  · intro h
    cases h
  · intro u v hu _ ih hn q hq
    rw [visitLiteralString_append]
    by_cases hnu : newline ∈ u
    · -- an escape never passes a line end
      have hu' : u = [newline] := by
        cases hu with
        | byte _ => rw [mem_singleton.1 hnu]
        | escape hd =>
          have hne := passes_ne hd (show passes newline = false by decide)
          simp [hne.symm, show newline ≠ backslash by decide] at hnu
      rw [hu', cRun_append, cRun_newline hq]
      rfl
    · obtain ⟨o, q1, h1, hq1⟩ := cRun_unit hu hnu hq
      rw [cRun_append_of_some h1, ih ((mem_append.1 hn).resolve_left hnu) hq1]
      rfl

theorem decode_of_cRun {v o : Str} {q : CState} (hq : q ≠ .escape)
    (h : cRun .plain (visitLiteralString v) = some (o, q)) : decode v = some (o ++ q.flush) := by
  rw [decode, cRead_eq, h, bind_some, cFinish_eq_flush hq]
  rfl

theorem decode_eq_none (hv : wellEscaped v = true) (hn : newline ∈ v) : decode v = none := by
  rw [decode, cRead_eq, cRun_token_newline hv hn (by decide)]
  rfl

/-- C takes a token unless a line end stands in it. -/
theorem decode_isSome_iff (hv : wellEscaped v = true) : (decode v).isSome ↔ newline ∉ v := by
  constructor
  · intro h hn
    rw [decode_eq_none hv hn] at h
    cases h
  · intro hn
    obtain ⟨o, q, h, hq⟩ := cRun_token hv hn (q := .plain) (by decide)
    rw [decode_of_cRun hq h]
    rfl

/-! ## Two tokens -/

/-- The first byte is an octal digit. -/
def StartsOctal (s : Str) : Prop := ∃ c, s.head? = some c ∧ isOctal c = true

/-- The last escape is an octal one that ends the token with fewer than three digits. -/
def EndsOctal (v : Str) : Prop :=
  ∃ p ds, v = p ++ backslash :: ds ∧ wellEscaped p = true ∧ ds ≠ [] ∧ ds.length < 3 ∧
    ∀ d ∈ ds, isOctal d = true

theorem startsOctal_visitLiteralString (v : Str) :
    StartsOctal (visitLiteralString v) ↔ StartsOctal v := by
  cases v with
  | nil => rfl
  | cons c cs =>
    by_cases hc : c = quote
    · subst hc
      simp [StartsOctal, visitLiteralString, show isOctal quote = false by decide,
        show isOctal backslash = false by decide]
    · rw [visitLiteralString_cons_of_ne hc]
      simp [StartsOctal]

/-- A reader that takes no digit from `s` reads it as from the start. -/
theorem cRead_settled {q : CState} (hq : q ≠ .escape) {s : Str}
    (hs : ¬ (q.Hungry ∧ StartsOctal s)) : cRead q s = (cRead .plain s).map (q.flush ++ ·) := by
  cases s with
  | nil =>
    rw [cRead, cFinish_eq_flush hq]
    simp [cRead, cFinish]
  | cons c cs =>
    have hc : ¬ (q.Hungry ∧ isOctal c = true) := fun h => hs ⟨h.1, c, rfl, h.2⟩
    rw [cRead, cRead, cStep_settled hq hc]
    show _ = Option.map _ ((cPlain c).bind _)
    cases cPlain c with
    | none => rfl
    | some r =>
      show (do let r' ← cRead r.2 cs; _) = Option.map _ ((cRead r.2 cs).bind _)
      cases cRead r.2 cs <;> simp

theorem cRead_octal {n v : Nat} (hc : n < 3 ∧ isOctal c = true) (cs : Str) :
    cRead (.octal n v) (c :: cs) = cRead (.octal (n + 1) (v * 8 + octalDigit c)) cs := by
  rw [cRead, cStep, if_pos hc]
  exact bind_fun_some _

theorem cRead_plain (hc : isOctal c = true) (cs : Str) :
    cRead .plain (c :: cs) = (cRead .plain cs).map (c :: ·) := by
  rw [cRead, cStep, cPlain_of_isOctal hc]
  exact map_eq_bind.symm

/-- An octal escape takes digits away, it never adds a byte. -/
theorem length_cRead_octal {s y r : Str} {n v : Nat} (hy : cRead .plain s = some y)
    (hr : cRead (.octal n v) s = some r) : r.length ≤ y.length + 1 := by
  induction s generalizing y r n v with
  | nil =>
    cases hr
    simp
  | cons c cs ih =>
    by_cases hc : n < 3 ∧ isOctal c = true
    · rw [cRead_octal hc] at hr
      rw [cRead_plain hc.2, map_eq_some_iff] at hy
      obtain ⟨y', hy', rfl⟩ := hy
      have := ih hy' hr
      rw [length_cons]
      omega
    · have hs : ¬ ((CState.octal n v).Hungry ∧ StartsOctal (c :: cs)) := by
        rintro ⟨hn, d, hd, ho⟩
        cases hd
        exact hc ⟨hn, ho⟩
      rw [cRead_settled (by simp) hs, hy] at hr
      cases hr
      simp [flush]

theorem cRead_hungry_ne {s y : Str} {q : CState} (hq : q.Hungry) (hs : StartsOctal s)
    (hy : cRead .plain s = some y) : cRead q s ≠ some (q.flush ++ y) := by
  cases q with
  | plain => exact hq.elim
  | escape => exact hq.elim
  | octal n v =>
    obtain ⟨c, hc, ho⟩ := hs
    cases s with
    | nil => cases hc
    | cons d cs =>
      cases hc
      intro hr
      rw [cRead_octal ⟨hq, ho⟩] at hr
      rw [cRead_plain ho, map_eq_some_iff] at hy
      obtain ⟨y', hy', rfl⟩ := hy
      have hl := length_cRead_octal hy' hr
      simp only [flush, length_append, length_cons, length_nil] at hl
      omega

/-- Where a token leaves the reader hungry. The induction carries the digits that an
escape before the token has taken already. -/
theorem endsOctal_of_cRun (hv : wellEscaped v = true) :
    ∀ (q : CState) (o : Str) (k x : Nat), q ≠ .escape →
      cRun q (visitLiteralString v) = some (o, .octal k x) → k < 3 →
      EndsOctal v ∨ ∃ m u, q = .octal m u ∧ m + v.length = k ∧ ∀ d ∈ v, isOctal d = true := by
  refine wellEscaped_induction ?_ ?_ v hv
  · intro q o k x _ h _
    cases h
    exact .inr ⟨k, x, rfl, rfl, fun d hd => absurd hd not_mem_nil⟩
  · intro u v hu _ ih q o k x hq h hk
    -- a unit in front of a token that ends in an octal escape
    have cons : EndsOctal v → EndsOctal (u ++ v) := by
      rintro ⟨p, ds, rfl, hp, hds⟩
      refine ⟨u ++ p, ds, by rw [append_assoc], ?_, hds⟩
      rw [wellEscaped_unit_append hu, hp]
    have rest : ∀ {o1 : Str} {q1 : CState}, cRun q (visitLiteralString u) = some (o1, q1) →
        q1 ≠ .escape → EndsOctal v ∨ ∃ m u', q1 = .octal m u' ∧ m + v.length = k ∧
          ∀ d ∈ v, isOctal d = true := by
      intro o1 q1 h1 hq1
      rw [visitLiteralString_append, cRun_append_of_some h1, map_eq_some_iff] at h
      obtain ⟨⟨o2, q2⟩, h2, he⟩ := h
      cases he
      exact ih _ _ _ _ hq1 h2 hk
    cases hu with
    | @byte c hb =>
      by_cases hc : q.Hungry ∧ isOctal c = true
      · cases q with
        | octal n w =>
          rcases rest (cRun_digit hc.1 hc.2) (by simp) with he | ⟨m, u', hm, hl, hd⟩
          · exact .inl (cons he)
          · cases hm
            refine .inr ⟨n, w, rfl, ?_, ?_⟩
            · rw [singleton_append, length_cons]
              omega
            · rintro d (_ | ⟨_, hd'⟩)
              · exact hc.2
              · exact hd d hd'
        | _ => exact hc.1.elim
      · by_cases hn : c = newline
        · subst hn
          rw [visitLiteralString_append, cRun_append, cRun_newline hq] at h
          cases h
        · rcases rest (cRun_byte hq hb hn hc) (by simp) with he | ⟨m, u', hm, _⟩
          · exact .inl (cons he)
          · cases hm
    | @escape d hd =>
      rcases cRun_escape hq hd with ⟨ho, h1⟩ | ⟨_, b, h1⟩
      · rcases rest h1 (by simp) with he | ⟨m, u', hm, hl, hds⟩
        · exact .inl (cons he)
        · cases hm
          refine .inl ⟨[], d :: v, rfl, rfl, cons_ne_nil _ _, ?_, ?_⟩
          · rw [length_cons]
            omega
          · rintro e (_ | ⟨_, he⟩)
            · exact ho
            · exact hds e he
      · rcases rest h1 (by simp) with he | ⟨m, u', hm, _⟩
        · exact .inl (cons he)
        · cases hm

theorem cRun_digits {ds : Str} (hds : ∀ d ∈ ds, isOctal d = true) :
    ∀ {n v : Nat}, n + ds.length < 3 →
      ∃ x, cRun (.octal n v) (visitLiteralString ds) = some ([], .octal (n + ds.length) x) := by
  induction ds with
  | nil =>
    intro n v _
    exact ⟨v, rfl⟩
  | cons d ds ih =>
    intro n v hn
    rw [length_cons] at hn
    obtain ⟨x, hx⟩ := ih (fun e he => hds e (mem_cons_of_mem _ he)) (n := n + 1)
      (v := v * 8 + octalDigit d) (by omega)
    rw [← singleton_append, visitLiteralString_append,
      cRun_append_of_some (cRun_digit (by omega) (hds d (mem_cons_self ..))), hx]
    simp
    omega

theorem hungry_of_endsOctal {v o : Str} {q : CState} (hv : EndsOctal v)
    (h : cRun .plain (visitLiteralString v) = some (o, q)) : q.Hungry := by
  obtain ⟨p, ds, rfl, hp, hne, hl, hds⟩ := hv
  have hn : newline ∉ p := by
    intro hn
    rw [visitLiteralString_append, cRun_append, cRun_token_newline hp hn (by decide)] at h
    cases h
  obtain ⟨o1, q1, h1, hq1⟩ := cRun_token hp hn (q := .plain) (by decide)
  match ds, hne with
  | d :: ds, _ =>
    have ho : isOctal d = true := hds d (mem_cons_self ..)
    have hd : passes d = true := by simp [passes, ho]
    obtain ⟨x, hx⟩ := cRun_digits (fun e he => hds e (mem_cons_of_mem _ he)) (n := 1)
      (v := octalDigit d) (by rw [length_cons] at hl; omega)
    rcases cRun_escape hq1 hd with ⟨_, h2⟩ | ⟨hf, _⟩
    · rw [visitLiteralString_append, cRun_append_of_some h1, map_eq_some_iff] at h
      obtain ⟨r, hr, he⟩ := h
      rw [show backslash :: d :: ds = [backslash, d] ++ ds from rfl, visitLiteralString_append,
        cRun_append_of_some h2, hx] at hr
      cases hr
      cases he
      rw [length_cons] at hl
      show 1 + ds.length < 3
      omega
    · rw [ho] at hf
      cases hf

/-- Two tokens written as one denote the two strings one after the other, unless C refuses
one of them or an octal escape runs from the first into the second. -/
theorem decode_append_iff {a b : Str} (ha : wellEscaped a = true) (hb : wellEscaped b = true) :
    (∃ x y, decode a = some x ∧ decode b = some y ∧ decode (a ++ b) = some (x ++ y)) ↔
      newline ∉ a ∧ newline ∉ b ∧ ¬ (EndsOctal a ∧ StartsOctal b) := by
  have key : newline ∉ a → newline ∉ b → ∃ x y, decode a = some x ∧ decode b = some y ∧
      (decode (a ++ b) = some (x ++ y) ↔ ¬ (EndsOctal a ∧ StartsOctal b)) := by
    intro hna hnb
    obtain ⟨o, q, h, hq⟩ := cRun_token ha hna (q := .plain) (by decide)
    obtain ⟨y, hy⟩ := isSome_iff_exists.1 ((decode_isSome_iff hb).2 hnb)
    refine ⟨o ++ q.flush, y, decode_of_cRun hq h, hy, ?_⟩
    have hab : decode (a ++ b) = (cRead q (visitLiteralString b)).map (o ++ ·) := by
      rw [decode, visitLiteralString_append, cRead_append_of_some h]
    rw [hab]
    constructor
    · rintro hr ⟨he, hs⟩
      rw [map_eq_some_iff] at hr
      obtain ⟨r, hr, hor⟩ := hr
      rw [append_assoc, append_cancel_left_eq] at hor
      rw [hor] at hr
      exact cRead_hungry_ne (hungry_of_endsOctal he h)
        ((startsOctal_visitLiteralString b).2 hs) hy hr
    · intro hno
      have hs : ¬ (q.Hungry ∧ StartsOctal (visitLiteralString b)) := by
        rintro ⟨hh, hs⟩
        cases q with
        | octal k x =>
          rcases endsOctal_of_cRun ha _ _ _ _ (by decide) h hh with he | ⟨m, u, hm, _⟩
          · exact hno ⟨he, (startsOctal_visitLiteralString b).1 hs⟩
          · cases hm
        | _ => exact hh.elim
      rw [cRead_settled hq hs, show cRead .plain (visitLiteralString b) = some y from hy]
      simp
  constructor
  · rintro ⟨x, y, hx, hy, hxy⟩
    have hna : newline ∉ a := (decode_isSome_iff ha).1 (by rw [hx]; rfl)
    have hnb : newline ∉ b := (decode_isSome_iff hb).1 (by rw [hy]; rfl)
    obtain ⟨x', y', hx', hy', hiff⟩ := key hna hnb
    rw [hx] at hx'
    rw [hy] at hy'
    cases hx'
    cases hy'
    exact ⟨hna, hnb, hiff.1 hxy⟩
  · rintro ⟨hna, hnb, hno⟩
    obtain ⟨x, y, hx, hy, hiff⟩ := key hna hnb
    exact ⟨x, y, hx, hy, hiff.2 hno⟩

end Systemtap.Lex
