import Systemtap.Opt.ConstFold
import Systemtap.Opt.DeadStmt

/-!
# Constant folding keeps values and effects

Every operator that the folder computes or collapses gives what the emitted
code computes, in 64-bit two's complement arithmetic. The lemma for an operator
speaks of any two operands that fold well (`FoldsTo`); the walk over the tree
then only has to cite it.

Two things stand in the way. Strings are compared and joined in their escaped
spelling (see the modules on literals). And a `foreach` with a limit below 1 is
dropped together with what it does before its first round.
-/

namespace Systemtap.Opt

open Systemtap.Tree Sem Lib Folded List BitVec Idle

/-! ## Arithmetic -/

theorem neg_one_eq : (-1 : I64) = allOnes 64 := by decide

theorem sshiftRight_neg_one (k : Nat) : (-1 : I64).sshiftRight k = -1 := by
  rw [neg_one_eq]
  refine eq_of_getElem_eq fun i hi => ?_
  rw [getElem_sshiftRight]
  simp only [getElem_allOnes, msb_allOnes (show 0 < 64 by decide)]
  split <;> rfl

theorem srem_neg_one (x : I64) : x.srem (-1) = 0 := by
  have h : (-1 : I64).msb = true := by decide
  rw [srem_eq, h]
  cases x.msb <;> simp

theorem shiftCount_of_nonpos {n : I64} (h : n.sle 0 = true) : shiftCount n = 0 := by
  have hn : n.toInt ≤ 0 := by simpa [sle_eq_decide] using h
  unfold shiftCount
  omega

variable {op : ArithOp}

/-- The folder computes what runs. -/
theorem arith_foldArith {l r n : I64} (h : arith op l r = .ok n) : foldArith op l r = n := by
  have hmin : longMin.sdiv (-1) = longMin ∧ longMin.srem (-1) = 0 := by decide
  cases op with
  | add | sub | mul | band | bor | bxor => exact Arith.ok.inj h
  | div | mod =>
    rw [arith] at h
    rw [foldArith]
    split at h
    · exact nomatch h
    · split
      next hlr => simp only [← Arith.ok.inj h, hlr, hmin]
      next => exact Arith.ok.inj h
  | shl | shr =>
    rw [arith] at h
    split at h
    · exact Arith.ok.inj h
    · exact nomatch h

/-- The shift of a number by `r` places, and by none if `r` is negative. -/
def mathShift (op : ArithOp) (l r : I64) : Int :=
  match op with
  | .shl => l.toInt * 2 ^ r.toInt.toNat
  | _ => l.toInt / 2 ^ r.toInt.toNat

/-- The count is one that C allows, and the folder and the emitted code both give the shifted
number modulo 2 ^ 64. -/
structure ShiftsRight (sess : Session) (op : ArithOp) (l r : I64) : Prop where
  count : shiftCount r ≤ 63
  folded : ∀ t, foldBinary sess t op (lit l) (lit r) = lit (BitVec.ofInt 64 (mathShift op l r))
  emitted : arith op l r = .ok (BitVec.ofInt 64 (mathShift op l r))

theorem foldArith_shift (hop : op = .shl ∨ op = .shr) (l : I64) {r : I64}
    (hr : r.toInt < 64) : foldArith op l r = BitVec.ofInt 64 (mathShift op l r) := by
  have hcount : shiftCount r = r.toInt.toNat := by
    unfold shiftCount
    omega
  rcases hop with rfl | rfl
  · rw [foldArith, mathShift, hcount, BitVec.shiftLeft_eq_mul_twoPow, BitVec.ofInt_mul,
      ofInt_toInt, twoPow_eq]
    congr 1
    apply eq_of_toInt_eq
    simp [Int.shiftLeft_eq]
  · have hdiv : l.toInt >>> r.toInt.toNat = l.toInt / 2 ^ r.toInt.toNat := by
      rw [Int.shiftRight_eq_div_pow]
      rfl
    show l.sshiftRight (shiftCount r) = BitVec.ofInt 64 (l.toInt / 2 ^ r.toInt.toNat)
    rw [hcount, ← hdiv, ← toInt_sshiftRight, ofInt_toInt]

theorem shiftsRight_op (hop : op = .shl ∨ op = .shr) (sess : Session) (l r : I64) :
    ShiftsRight sess op l r ↔ r.toInt < 64 := by
  constructor
  · intro h
    have hcount := h.count
    unfold shiftCount at hcount
    omega
  · intro hr
    have hcount : shiftCount r < 64 := by
      unfold shiftCount
      omega
    refine ⟨by omega, fun t => ?_, ?_⟩
    · rw [← foldArith_shift hop l hr]
      rcases hop with rfl | rfl <;> simp [foldBinary, lit, number]
    · rw [← foldArith_shift hop l hr]
      rcases hop with rfl | rfl <;> exact if_pos hcount

/-- Both shifts are right up to a count of 63, and at no greater one. -/
theorem shiftsRight_iff (sess : Session) (l r : I64) :
    (ShiftsRight sess .shl l r ↔ r.toInt < 64) ∧ (ShiftsRight sess .shr l r ↔ r.toInt < 64) :=
  ⟨shiftsRight_op (.inl rfl) sess l r, shiftsRight_op (.inr rfl) sess l r⟩

/-- The count 64 of `1 << 64` and `1 >> 64` is left as it is. -/
theorem shift_count_64 : shiftCount 64 = 64 ∧
    ∀ sess, ¬ ShiftsRight sess .shl 1 64 ∧ ¬ ShiftsRight sess .shr 1 64 :=
  ⟨by decide, fun _ => ⟨fun h => absurd h.count (by decide), fun h => absurd h.count (by decide)⟩⟩

theorem arith_absorbsLeft {a y n : I64} (ha : absorbsLeft op a = true)
    (h : arith op a y = .ok n) : n = a := by
  rw [← arith_foldArith h]
  cases op with
  | mul | band | shl =>
    obtain rfl : a = 0 := by simpa [absorbsLeft] using ha
    simp [foldArith]
  | shr =>
    have ha : a = 0 ∨ a = -1 := by simpa [absorbsLeft] using ha
    rcases ha with rfl | rfl
    · simp [foldArith]
    · exact sshiftRight_neg_one _
  | bor =>
    obtain rfl : a = -1 := by simpa [absorbsLeft] using ha
    rw [foldArith, neg_one_eq]
    exact allOnes_or
  | _ => exact nomatch ha

theorem arith_absorbsRight {x b n : I64} (hb : absorbsRight op b = true)
    (h : arith op x b = .ok n) : n = if op = .mod then 0 else b := by
  cases op with
  | mul | band =>
    obtain rfl : b = 0 := by simpa [absorbsRight] using hb
    rw [← arith_foldArith h]
    simp [foldArith]
  | mod =>
    have hb : b = 1 ∨ b = -1 := by simpa [absorbsRight] using hb
    have hn : x.srem b = n := by
      rw [arith] at h
      split at h
      · exact nomatch h
      · exact Arith.ok.inj h
    rw [← hn, if_pos rfl]
    rcases hb with rfl | rfl
    · simp
    · exact srem_neg_one x
  | bor =>
    obtain rfl : b = -1 := by simpa [absorbsRight] using hb
    rw [← arith_foldArith h, if_neg nofun, foldArith, neg_one_eq]
    exact or_allOnes
  | _ => exact nomatch hb

theorem arith_identityLeft {a y : I64} (ha : identityLeft op a = true) : arith op a y = .ok y := by
  cases op with
  | add | bor | bxor | mul =>
    have ha := of_decide_eq_true ha
    subst ha
    simp [arith]
  | band =>
    obtain rfl : a = -1 := of_decide_eq_true ha
    rw [arith, neg_one_eq]
    exact congrArg Arith.ok allOnes_and
  | _ => exact nomatch ha

theorem arith_identityRight {x b : I64} (hb : identityRight op b = true) :
    arith op x b = .ok x := by
  cases op with
  | add | sub | bor | bxor | mul | div =>
    have hb := of_decide_eq_true hb
    subst hb
    simp [arith]
  | band =>
    obtain rfl : b = -1 := of_decide_eq_true hb
    rw [arith, neg_one_eq]
    exact congrArg Arith.ok and_allOnes
  | shl | shr => simp [arith, shiftCount_of_nonpos hb]
  | mod => exact nomatch hb

theorem slt_longMin (x : I64) : x.slt longMin = false := by
  have hmin : longMin.toInt = -9223372036854775808 := by decide
  have h := le_toInt x
  rw [slt_eq_decide, hmin]
  simpa using h

theorem longMax_slt (x : I64) : longMax.slt x = false := by
  have hmax : longMax.toInt = 9223372036854775807 := by decide
  have h := toInt_lt (x := x)
  rw [slt_eq_decide, hmax, decide_eq_false_iff_not]
  omega

/-- A limit of `int64_t` compares alike with every number. -/
theorem holds_boundaryLeft {op : CmpOp} {a : I64} (h : boundaryLeft op a = true) (y : I64) :
    Lex.holds op (compareLong a y) = twoChars op := by
  cases op with
  | le | gt =>
    obtain rfl : a = longMin := of_decide_eq_true h
    unfold compareLong
    rw [slt_longMin]
    split <;> rfl
  | ge | lt =>
    obtain rfl : a = longMax := of_decide_eq_true h
    unfold compareLong
    rw [longMax_slt]
    cases y.slt longMax <;> rfl
  | eq | ne => exact nomatch h

theorem holds_boundaryRight {op : CmpOp} {b : I64} (h : boundaryRight op b = true) (x : I64) :
    Lex.holds op (compareLong x b) = twoChars op := by
  cases op with
  | ge | lt =>
    obtain rfl : b = longMin := of_decide_eq_true h
    unfold compareLong
    rw [slt_longMin]
    cases longMin.slt x <;> rfl
  | le | gt =>
    obtain rfl : b = longMax := of_decide_eq_true h
    unfold compareLong
    rw [longMax_slt]
    split <;> rfl
  | eq | ne => exact nomatch h

/-! ## Operators -/

section Operators

variable {W : Type} {sess : Session} {c : Ctx W}
variable {k : Calls W}

/-- The folded expression matches the old one, and where it is free of side
effects the old one was idle. -/
structure FoldsTo (sess : Session) (c : Ctx W)
    (k : FnId → List (Nat × Nat) → List Value → M W Value) (e : Expr) (r : Folded) : Prop where
  sim : Sim (offView noLocal) (eval c e) (eval (c.withCall k) r.expr)
  idle : freeExpr sess r.expr = true → Idle (offView noLocal) Flow.IsVal (eval c e)

theorem number_eq {r : Folded} {n : I64} (h : r.number = some n) :
    ∃ t, r.expr = .literalNumber t n := by
  unfold Folded.number at h
  split at h
  next t m he _ =>
    obtain rfl := Option.some.inj h
    exact ⟨t, he⟩
  next => exact nomatch h

/-- What folds to a number does nothing but yield that number. -/
theorem FoldsTo.number {e : Expr} {r : Folded} (h : FoldsTo sess c k e r) {n : I64}
    (hn : r.number = some n) : Idle (offView noLocal) (· = .val (.long n)) (eval c e) := by
  obtain ⟨t, ht⟩ := number_eq hn
  have hs := h.sim
  rw [ht] at hs
  exact Sim.idle hs

/-- The number an idle condition yields. -/
theorem idle_asLong {m : M W Value} {n : I64} (h : Idle (offView noLocal) (· = .val (.long n)) m) :
    Idle (offView noLocal) (· = .val n) (m >>= asLong) :=
  h.bind_val (pure rfl)

theorem binaryOp_result {op : ArithOp} {a b n : I64} (h : ∀ m, arith op a b = .ok m → m = n) :
    Idle (offView noLocal) (· = .val (.long n)) (binaryOp op (.long a) (.long b) : M W Value) := by
  simp only [binaryOp, asLong, pure_bind]
  cases harith : arith op a b with
  | ok m =>
    rw [ofArith, pure_bind, h m harith]
    exact pure rfl
  | divisionByZero => exact bind (Q := fun _ => False) (raise_idle rfl _) nofun nofun
  | undefined => exact halt_bind

/-- A string has no place in arithmetic. -/
theorem binaryOp_str_left {V : View Event (State W)} {Q : Flow Value → Prop} (op : ArithOp)
    (x : CStr) (w : Value) : Idle V Q (binaryOp op (.str x) w : M W Value) :=
  halt_bind

theorem binaryOp_str_right {V : View Event (State W)} {Q : Flow Value → Prop} (op : ArithOp)
    (n : I64) (y : CStr) : Idle V Q (binaryOp op (.long n) (.str y) : M W Value) :=
  seq (pure trivial) fun _ => halt_bind

variable {lf rf : Folded} {l r : Expr}

theorem foldBinary_sim (hl : FoldsTo sess c k l lf)
    (hr : FoldsTo sess c k r rf) (t : ExpType) (op : ArithOp) :
    Matches noLocal c k eval (.binary t op l r) (foldBinary sess t op lf rf).expr := by
  have hkeep : Matches noLocal c k eval (.binary t op l r) (.binary t op lf.expr rf.expr) :=
    binary_sim hl.sim hr.sim
  unfold foldBinary
  split
  next => exact hkeep
  next =>
    rw [Matches, eval]
    cases ha : lf.number with
    | none =>
      cases hb : rf.number with
      | none => exact hkeep
      | some b =>
        dsimp only
        split
        next habs =>
          split
          next hfree =>
            -- the left side is thrown away
            refine sim (seq (hl.idle hfree) fun x => (hr.number hb).bind_val ?_)
            cases x with
            | long x => exact binaryOp_result fun m hm => arith_absorbsRight habs hm
            | str x => exact binaryOp_str_left op x _
          next => exact hkeep
        next =>
          split
          next hid =>
            refine hl.sim.bind_idle fun x => (hr.number hb).bind_val ?_
            cases x with
            | long x =>
              exact binaryOp_result fun m hm => Arith.ok.inj (hm.symm.trans (arith_identityRight hid))
            | str x => exact binaryOp_str_left op x _
          next => exact hkeep
    | some a =>
      cases hb : rf.number with
      | some b =>
        refine sim ((hl.number ha).bind_val ((hr.number hb).bind_val ?_))
        exact binaryOp_result fun m hm => (arith_foldArith hm).symm
      | none =>
        dsimp only
        split
        next habs =>
          split
          next hfree =>
            refine sim ((hl.number ha).bind_val (seq (hr.idle hfree) fun y => ?_))
            cases y with
            | long y => exact binaryOp_result fun m hm => arith_absorbsLeft habs hm
            | str y => exact binaryOp_str_right op a y
          next => exact hkeep
        next =>
          split
          next hid =>
            refine (hl.number ha).val_sim (hr.sim.bind_idle fun y => ?_)
            cases y with
            | long y =>
              exact binaryOp_result fun m hm => Arith.ok.inj (hm.symm.trans (arith_identityLeft hid))
            | str y => exact binaryOp_str_right op a y
          next => exact hkeep

theorem foldUnary_sim {e : Expr} {ef : Folded} (he : FoldsTo sess c k e ef) (t : ExpType)
    (op : UnOp) : Matches noLocal c k eval (.unary t op e) (foldUnary t op ef).expr := by
  unfold foldUnary
  split
  next n hn =>
    exact sim ((he.number hn).bind_val (pure rfl))
  next => exact unary_sim he.sim

theorem ofBool_eq {p q : Bool} (h : p = q) :
    Flow.val (Value.ofBool p) = .val (.long (ofBit q)) := by
  rw [h]
  rfl

/-- Both logical operators: the right side counts where `p` does not hold of the left one, and the
result is `v` where it holds of either. -/
theorem foldLogical_sim {p : I64 → Prop} [DecidablePred p] {v : Bool} {q : I64 → I64 → Bool}
    {kept : Expr} {m : M W Value} (hl : FoldsTo sess c k l lf) (hr : FoldsTo sess c k r rf)
    (hkeep : Sim (offView noLocal) m (eval (c.withCall k) kept))
    (hm : m = eval c l >>= asLong >>= fun x => if p x then pure (.ofBool v)
      else eval c r >>= asLong >>= fun y => pure (.ofBool (y ≠ 0)))
    (hv : ∀ n, p n → decide (n ≠ 0) = v) (hq : ∀ a b, (if p a then v else decide (b ≠ 0)) = q a b) :
    Sim (offView noLocal) m (eval (c.withCall k) (match lf.number, rf.number with
      | some a, some b => lit (ofBit (q a b))
      | some a, none => if p a then lit (ofBit v) else keep kept
      | none, some b => if p b ∧ freeExpr sess lf.expr then lit (ofBit v) else keep kept
      | none, none => keep kept).expr) := by
  subst hm
  cases ha : lf.number with
  | none =>
    cases hb : rf.number with
    | none => exact hkeep
    | some b =>
      dsimp only
      split
      next hfree =>
        refine sim (((hl.idle hfree.2).seq asLong_idle).seq fun x => ?_)
        split
        · exact pure rfl
        · exact (idle_asLong (hr.number hb)).bind_val (pure (ofBool_eq (hv b hfree.1)))
      next => exact hkeep
  | some a =>
    have hcond := idle_asLong (hl.number ha)
    cases hb : rf.number with
    | none =>
      dsimp only
      split
      next hp =>
        refine sim (hcond.bind_val ?_)
        rw [if_pos hp]
        exact pure rfl
      next => exact hkeep
    | some b =>
      refine sim (hcond.bind_val ?_)
      rw [← hq]
      split
      · exact pure rfl
      · exact (idle_asLong (hr.number hb)).bind_val (pure rfl)

theorem foldLogicalOr_sim (hl : FoldsTo sess c k l lf) (hr : FoldsTo sess c k r rf) (t : ExpType) :
    Matches noLocal c k eval (.logicalOr t l r) (foldLogicalOr sess t lf rf).expr := by
  refine foldLogical_sim (p := (· ≠ 0)) hl hr (logicalOr_sim hl.sim hr.sim) rfl
    (fun _ => decide_eq_true) fun a b => ?_
  by_cases ha : a = 0 <;> simp [ha]

theorem foldLogicalAnd_sim (hl : FoldsTo sess c k l lf) (hr : FoldsTo sess c k r rf) (t : ExpType) :
    Matches noLocal c k eval (.logicalAnd t l r) (foldLogicalAnd sess t lf rf).expr := by
  refine foldLogical_sim (p := (· = 0)) hl hr (logicalAnd_sim hl.sim hr.sim) ?_
    (fun _ h => decide_eq_false (not_not.mpr h)) fun a b => ?_
  · rw [eval]
    simp only [ne_eq, ite_not]
  · by_cases ha : a = 0 <;> simp [ha]

theorem comparisonOp_result {op : CmpOp} {a b n : I64}
    (h : ofBit (Lex.holds op (compareLong a b)) = n) :
    Idle (offView noLocal) (· = .val (.long n)) (comparisonOp op (.long a) (.long b) : M W Value) := by
  exact pure (congrArg (fun m => Flow.val (Value.long m)) h)

/-- The comparison of numbers; that of string literals is another matter. -/
theorem foldComparison_sim (hl : FoldsTo sess c k l lf)
    (hr : FoldsTo sess c k r rf) (hstr : lf.string = none ∨ rf.string = none) (t : ExpType)
    (op : CmpOp) :
    Matches noLocal c k eval (.comparison t op l r) (foldComparison sess t op lf rf).expr := by
  have hkeep : Matches noLocal c k eval (.comparison t op l r) (.comparison t op lf.expr rf.expr) :=
    comparison_sim hl.sim hr.sim
  unfold foldComparison
  split
  next v w hv hw => simp [hv, hw] at hstr
  next =>
    cases ha : lf.number with
    | none =>
      cases hb : rf.number with
      | none => exact hkeep
      | some b =>
        dsimp only
        split
        next hfree =>
          refine sim (seq (hl.idle hfree.2) fun x => (hr.number hb).bind_val ?_)
          cases x with
          | long x => exact comparisonOp_result (congrArg ofBit (holds_boundaryRight hfree.1 x))
          | str x => exact halt_bind
        next => exact hkeep
    | some a =>
      cases hb : rf.number with
      | none =>
        dsimp only
        split
        next hfree =>
          refine sim ((hl.number ha).bind_val (seq (hr.idle hfree.2) fun y => ?_))
          cases y with
          | long y => exact comparisonOp_result (congrArg ofBit (holds_boundaryLeft hfree.1 y))
          | str y => exact halt_bind
        next => exact hkeep
      | some b =>
        refine sim ((hl.number ha).bind_val ((hr.number hb).bind_val ?_))
        exact comparisonOp_result rfl

end Operators

/-! ## What stands in the way -/

/-- An operator on strings, or a context variable that is replaced by 0. -/
inductive Issue where
  | stringOperand
  | badVariable
deriving DecidableEq

/-- A string literal. -/
def stringAt : Expr → List Str
  | .literalString _ v => [v]
  | _ => []

def issueAt (skip : Bool) : Expr → List Issue
  | .concatenation _ _ _ => [.stringOperand]
  | .comparison _ _ l r =>
    if l.gather stringAt = [] ∧ r.gather stringAt = [] then [] else [.stringOperand]
  | .targetSymbol _ tgt _ =>
    if skip && tgt.probeContextVar.isEmpty then [.badVariable] else []
  | _ => []

def Stmt.issues (skip : Bool) (s : Stmt) : List Issue :=
  s.gather (issueAt skip) (fun e => e.gather (issueAt skip)) fun _ => []

/-- The limit of a loop that does something even if it has no round. -/
def limitAt : Stmt → List Expr
  | .foreachLoop _ _ (some _) (some l) _ => [l]
  | .foreachHist _ _ _ (some l) _ => [l]
  | _ => []

def Stmt.limits (s : Stmt) : List Expr := s.gather (fun _ => []) (fun _ => []) limitAt

/-- Some evaluation of this limit, without an error, gives a positive number. -/
def CanBePositive (sess : Session) (l : Expr) : Prop :=
  ∃ (W : Type) (rt : Runtime W) (c : Ctx W) (s : State W) (n : I64),
    PureRuntime W rt ∧ (∃ fuel m, c.call = callFn sess rt fuel m) ∧ s.lastError = none ∧
      Clean (eval c l s) ∧ (eval c l s).flow = .val (.long n) ∧ 0 < n.toInt

/-! ## Expressions -/

section Expressions

variable {W : Type} {sess : Session} {skip : Bool} {c : Ctx W}

theorem string_keep (e : Expr) : (keep e).string = none := by
  cases e <;> rfl

theorem string_lit (n : I64) : (lit n).string = none := rfl

theorem foldBinary_string {t : ExpType} {op : ArithOp} {l r : Folded} (hl : l.string = none)
    (hr : r.string = none) : (foldBinary sess t op l r).string = none := by
  unfold foldBinary
  repeat' split
  all_goals first | exact hl | exact hr | exact string_keep _ | exact string_lit _

/-- No string comes from where there is none. -/
theorem foldE_string : ∀ {e : Expr}, e.gather stringAt = [] → (foldE sess skip e).string = none
  | .literalString _ _, h => nomatch h
  | .literalNumber _ _, _ => rfl
  | .binary _ _ l r, h => by
    simp only [Expr.gather, append_eq_nil_iff] at h
    exact foldBinary_string (foldE_string h.2.1) (foldE_string h.2.2)
  | .logicalOr _ _ _, _ | .logicalAnd _ _ _, _ | .comparison _ _ _ _, _ | .unary _ _ _, _ => by
    simp only [foldE, foldLogicalOr, foldLogicalAnd, foldComparison, foldUnary]
    repeat' split
    all_goals first | exact string_keep _ | exact string_lit _
  | .concatenation _ l r, h => by
    simp only [Expr.gather, append_eq_nil_iff] at h
    rw [foldE, foldConcatenation, foldE_string h.2.1, foldE_string h.2.2]
    exact string_keep _
  | .ternary _ e l r, h => by
    simp only [Expr.gather, append_eq_nil_iff] at h
    rw [foldE]
    repeat' split
    · exact foldE_string h.2.2.1
    · exact foldE_string h.2.2.2
    · exact string_keep _
  | .definedOp _ _, _ => rfl
  | .targetSymbol _ _ _, _ => by
    rw [foldE]
    split <;> exact string_keep _
  | .castOp _ _ _ _, _ | .crement _ _ _ _, _ | .arrayIn _ _, _ | .assignment _ _ _ _, _
  | .symbol _, _ | .arrayindex _ _ _, _ | .histindex _ _ _ _, _ | .functioncall _ _ _, _
  | .printFormat _ _ _, _ | .printHist _ _ _ _, _ | .statOp _ _ _, _ => string_keep _

/-- What a context must offer: its calls match themselves, and those without side
effects are idle. -/
structure FoldCtx (sess : Session) (c : Ctx W) : Prop where
  same : CallsSame c c.call
  idle : CallsIdle sess noLocal (fun _ => true) c

theorem freeExpr_idle (hc : FoldCtx sess c) {e : Expr} (h : freeExpr sess e = true) :
    Idle (offView noLocal) Flow.IsVal (eval c e) := by
  have hfree := sideEffectFreeWrt_of_sideEffectFree (fun _ => true) h
  refine eval_idle (quietView_offView noLocal) (hc.idle _ hfree) e fun u hu => ?_
  have hq := useQuiet_of_sideEffectFreeWrt (fun _ => rfl) hfree u ((sess.varuse_spec _).1 hu)
  exact hq.mono (fun _ h => nomatch h) fun _ h => h

/-- The pieces the walk needs, from a match under any calls. -/
theorem foldsTo_of_sim (hc : FoldCtx sess c) {k : Calls W} (hk : CallsSame c k) {e : Expr}
    {r : Folded} (h : ∀ {k : Calls W}, CallsSame c k → Matches noLocal c k eval e r.expr) :
    FoldsTo sess c k e r where
  sim := h hk
  idle := fun hfree => idle_of_sim (h hc.same) (freeExpr_idle hc hfree)

mutual

theorem foldE_sim (hc : FoldCtx sess c) (e : Expr) (h : e.gather (issueAt skip) = []) {k : Calls W}
    (hk : CallsSame c k) : Matches noLocal c k eval e (foldE sess skip e).expr := by
  cases e <;> simp only [Expr.gather, append_eq_nil_iff] at h
  case literalString t v => exact ofOption_law (offLaw _) _
  case literalNumber | definedOp => exact Sim.pure _
  case binary t op l r =>
    exact foldBinary_sim (foldsTo_of_sim hc hk (foldE_sim hc l h.2.1))
      (foldsTo_of_sim hc hk (foldE_sim hc r h.2.2)) t op
  case logicalOr t l r =>
    exact foldLogicalOr_sim (foldsTo_of_sim hc hk (foldE_sim hc l h.2.1))
      (foldsTo_of_sim hc hk (foldE_sim hc r h.2.2)) t
  case logicalAnd t l r =>
    exact foldLogicalAnd_sim (foldsTo_of_sim hc hk (foldE_sim hc l h.2.1))
      (foldsTo_of_sim hc hk (foldE_sim hc r h.2.2)) t
  case comparison t op l r =>
    have hstr : l.gather stringAt = [] := by
      have hat := h.1
      rw [issueAt] at hat
      split at hat
      next hs => exact hs.1
      next => exact nomatch hat
    exact foldComparison_sim (foldsTo_of_sim hc hk (foldE_sim hc l h.2.1))
      (foldsTo_of_sim hc hk (foldE_sim hc r h.2.2)) (.inl (foldE_string hstr)) t op
  case concatenation => exact nomatch h.1
  case unary t op e => exact foldUnary_sim (foldsTo_of_sim hc hk (foldE_sim hc e h.2)) t op
  case ternary t e l r =>
    have he := foldsTo_of_sim hc hk (foldE_sim hc e h.2.1)
    have hl := foldE_sim hc l h.2.2.1 hk
    have hr := foldE_sim hc r h.2.2.2 hk
    rw [foldE]
    split
    next n hn =>
      rw [Matches, eval]
      refine (idle_asLong (he.number hn)).val_sim ?_
      split
      · exact hl
      · exact hr
    next => exact ternary_sim he.sim hl hr
  case targetSymbol t tgt es =>
    rw [foldE]
    split
    next hbad => simp [issueAt, hbad] at h
    next => exact targetSymbol_sim (foldList_sim hc es h.2 hk)
  case castOp t tgt e es => exact castOp_sim (foldE_sim hc e h.2.1 hk) (foldList_sim hc es h.2.2 hk)
  case crement t op post e => exact crement_sim (foldPlace_sim hc e h.2 hk) (placeAvoids_noLocal e)
  case arrayIn t e =>
    have he := foldE_sim hc e h.2 hk
    have hp := foldPlace_sim hc e h.2 hk
    cases e with
    | histindex | arrayindex | symbol | castOp => exact arrayIn_sim rfl he hp
    | targetSymbol t tgt es =>
      have hhist : (foldE sess skip (.targetSymbol t tgt es)).expr.isHist = false := by
        rw [foldE]
        split <;> rfl
      exact arrayIn_sim hhist he hp
    | _ => exact Sim.halt _
  case assignment t op l r =>
    exact assignment_sim (foldPlace_sim hc l h.2.1 hk) (foldE_sim hc r h.2.2 hk)
      (.inr (.inr (placeAvoids_noLocal l)))
  case symbol s => exact symbol_sim rfl (avoids_noLocal _)
  case arrayindex t base es => exact arrayindex_sim (foldList_sim hc es h.2 hk)
  case histindex t hist e es =>
    exact histindex_sim (foldPlace_sim hc e h.2.1 hk) (foldList_sim hc es h.2.2 hk)
  case functioncall t f es =>
    exact functioncall_sim (foldList_sim hc es h.2 hk) fun args => hk f _ args
  case printFormat t f es => exact printFormat_sim (foldList_sim hc es h.2 hk)
  case printHist t hist n e => exact printHist_sim (foldPlace_sim hc e h.2 hk)
  case statOp t op e => exact statOp_eval_sim (foldPlace_sim hc e h.2 hk)

theorem foldPlace_sim (hc : FoldCtx sess c) (e : Expr) (h : e.gather (issueAt skip) = [])
    {k : Calls W} (hk : CallsSame c k) : Matches noLocal c k place e (foldE sess skip e).expr := by
  cases e <;> simp only [Expr.gather, append_eq_nil_iff] at h
  case symbol => exact place_symbol_sim rfl
  case arrayindex t base es => exact place_arrayindex_sim (foldList_sim hc es h.2 hk)
  case targetSymbol t tgt es =>
    rw [foldE]
    split
    next hbad => simp [issueAt, hbad] at h
    next => exact place_targetSymbol_sim (foldList_sim hc es h.2 hk)
  case castOp t tgt e es =>
    exact place_castOp_sim (foldE_sim hc e h.2.1 hk) (foldList_sim hc es h.2.2 hk)
  all_goals exact Sim.halt _

theorem foldList_sim (hc : FoldCtx sess c) (es : List Expr) (h : gatherList (issueAt skip) es = [])
    {k : Calls W} (hk : CallsSame c k) : Matches noLocal c k evalArgs es (foldList sess skip es) := by
  cases es with
  | nil => exact evalArgs_nil_sim
  | cons e es =>
    simp only [gatherList, append_eq_nil_iff] at h
    exact evalArgs_cons_sim (foldE_sim hc e h.1 hk) (foldList_sim hc es h.2 hk)

end

variable {k : Calls W}

theorem foldLimit_sim (hc : FoldCtx sess c) (l : Option Expr)
    (h : gatherLimit (issueAt skip) l = []) (hk : CallsSame c k) :
    Matches noLocal c k evalLimit l (foldMaybe sess skip l) := by
  cases l with
  | none => exact Sim.pure _
  | some e => exact ((foldE_sim hc e h hk).bind asLong_sim).bind fun _ => Sim.pure _

theorem foldVoid_sim (hc : FoldCtx sess c) (i : Option Expr)
    (h : gatherTop (fun e => e.gather (issueAt skip)) i = []) (hk : CallsSame c k) :
    Matches noLocal c k evalVoid i (foldMaybe sess skip i) := by
  cases i with
  | none => exact Sim.pure _
  | some e => exact expr_sim (foldE_sim hc e h hk)

/-- A limit that folds to a number. -/
theorem limit_idle (hc : FoldCtx sess c) {l : Option Expr} {n : I64}
    (h : gatherLimit (issueAt skip) l = []) (hn : limitNumber sess skip l = some n) :
    Idle (offView noLocal) (· = .val (some n)) (evalLimit c l) := by
  cases l with
  | none => exact nomatch hn
  | some e =>
    have he := foldsTo_of_sim hc hc.same (foldE_sim hc e h)
    exact (idle_asLong (he.number hn)).bind_val (pure rfl)

theorem evalVoid_bind (c : Ctx W) (i : Option Expr) :
    (evalVoid c i >>= fun _ => pure Ctl.norm) = evalVoid c i := by
  cases i with
  | none => exact pure_bind _ _
  | some e => simp only [evalVoid, bind_assoc, pure_bind]

/-- A `for` whose condition is constantly false. -/
theorem forLoop_gone {i o : Option Expr} {e : Expr} {b s : Stmt}
    (hi : Sim (offView noLocal) (evalVoid c i) (exec (c.withCall k) s))
    (he : Idle (offView noLocal) (· = .val (.long 0)) (eval c e)) :
    Matches noLocal c k exec (.forLoop i e o b) s := by
  rw [← evalVoid_bind] at hi
  rw [Matches, exec]
  refine Sim.void_idle hi fun _ => iterate_once ?_ _
  exact (idle_asLong he).bind_val (pure rfl)

/-- A loop over an array that is not sorted and has no round. -/
theorem foreachLoop_empty {idx : List Symbol} {base : Var} {l : Option Expr} {b : Stmt} {n : I64}
    (hl : Idle (offView noLocal) (· = .val (some n)) (evalLimit c l)) (hn : n.sle 0 = true) :
    Sim (offView noLocal) (exec c (.foreachLoop idx base none l b)) (pure .norm) := by
  refine sim (hl.bind_val ?_)
  have hstop : limitReached (some n) 0 = true := hn
  cases base with
  | loc j => exact halt
  | global a =>
    refine (readGlobal_idle a).seq fun g => ?_
    cases g with
    | array d es =>
      refine seq (pure trivial) fun es => iterate_once ?_ _
      unfold foreachStep
      split
      · exact pure rfl
      · rw [if_pos hstop]
        exact pure rfl
    | statArray es =>
      dsimp only
      split
      · exact raise_idle rfl _
      · refine seq (emit (fun _ => rfl) trivial) fun _ => iterate_once ?_ _
        unfold foreachStep
        split
        · exact pure rfl
        · rw [if_pos hstop]
          exact pure rfl
    | scalar | stat => exact halt

end Expressions

/-! ## Contexts -/

section Contexts

variable {W : Type} {sess : Session}

theorem callsSame_callFn {rt : Runtime W} {c : Ctx W}
    (hc : ∃ fuel n, c.call = callFn sess rt fuel n) : CallsSame c c.call := by
  obtain ⟨fuel, n, hcall⟩ := hc
  have hfns : FunctionsSim (fun _ => noLocal) (fun _ => True) rt sess sess :=
    ⟨fun _ => rfl, fun f _ fd hfd => ⟨fd, hfd, rfl, rfl, bodySim_same sess rt _ _⟩⟩
  intro f iter args
  rw [hcall]
  exact callFn_sim hfns fuel n noLocal f trivial iter args

theorem foldCtx_callFn {rt : Runtime W} (hrt : PureRuntime W rt) {c : Ctx W}
    (hc : ∃ fuel n, c.call = callFn sess rt fuel n) : FoldCtx sess c where
  same := callsSame_callFn hc
  idle := callsIdle_callFn hrt noLocal (fun _ => rfl) hc

/-- A limit that can be positive does not fold to a number below 1. -/
theorem limit_pos {skip : Bool} {l : Expr} (h : CanBePositive sess l)
    (hissue : l.gather (issueAt skip) = []) {n : I64} (hn : (foldE sess skip l).number = some n) :
    n.sle 0 = false := by
  obtain ⟨W, rt, c, s, m, hrt, hcall, herr, hclean, hval, hpos⟩ := h
  have hc := foldCtx_callFn hrt hcall
  have hidle := (foldsTo_of_sim hc hc.same (foldE_sim hc l hissue)).number hn
  have hrefl : Off noLocal s s := ⟨rfl, rfl, fun _ _ => rfl, rfl, herr, herr⟩
  have hflow := (hidle s s hrefl hclean).1
  rw [hval] at hflow
  obtain rfl : m = n := Value.long.inj (Flow.val.inj hflow)
  rw [sle_eq_decide, decide_eq_false_iff_not]
  have hzero : (0 : I64).toInt = 0 := by decide
  omega

/-- So a loop with such a limit is not dropped. -/
theorem limit_open {skip : Bool} {l : Option Expr} (h : ∀ e, l = some e → CanBePositive sess e)
    (hissue : gatherLimit (issueAt skip) l = []) {n : I64} (hn : limitNumber sess skip l = some n) :
    ¬ n.sle 0 = true := by
  cases l with
  | none => exact nomatch hn
  | some e => exact Bool.eq_false_iff.mp (limit_pos (h e rfl) hissue hn)

end Contexts

/-! ## Statements -/

section Statements

variable {W : Type} {sess : Session} {skip : Bool}

/-- The sorted or histogram loops of this statement have limits that may let
them run. -/
def LimitsOpen (sess : Session) (s : Stmt) : Prop := ∀ l ∈ Stmt.limits s, CanBePositive sess l

mutual

theorem foldS_sim (s : Stmt) {c : Ctx W} {k : Calls W} (hc : FoldCtx sess c) (hk : CallsSame c k)
    (h : Stmt.issues skip s = []) (hl : LimitsOpen sess s) :
    Matches noLocal c k exec s (foldS sess skip s) := by
  cases s <;> simp only [Stmt.issues, Stmt.gather, append_eq_nil_iff] at h <;>
    simp only [LimitsOpen, Stmt.limits, Stmt.gather, forall_mem_append] at hl
  case block ss => exact foldBlock_sim ss hc hk h hl
  case tryBlock b v hd =>
    exact tryBlock_sim (.inl rfl) (foldOpt_sim b hc hk h.2.1 hl.2.1)
      (foldOpt_sim hd hc hk h.2.2 hl.2.2)
  case embeddedcode | null | next | breakStmt | continueStmt => exact exec_same _ hk
  case expr e => exact expr_sim (foldE_sim hc e h hk)
  case ifStmt e t o =>
    have he := foldsTo_of_sim hc hk (foldE_sim hc e h.1)
    have ht := foldS_sim t hc hk h.2.1 hl.2.1
    have ho := foldOpt_sim o hc hk h.2.2 hl.2.2
    rw [foldS]
    split
    next => exact ifStmt_sim he.sim ht ho
    next n hn =>
      refine (idle_asLong (he.number hn)).val_sim ?_
      split
      · exact ht
      · cases o with
        | none => exact ho
        | some s => exact ho
  case forLoop i e o b =>
    have he := foldsTo_of_sim hc hk (foldE_sim hc e h.2.1)
    have hi := foldVoid_sim hc i h.1 hk
    rw [foldS]
    split
    next hn =>
      refine forLoop_gone ?_ (he.number hn)
      cases i with
      | none => exact hi
      | some e => exact hi
    next =>
      exact forLoop_sim hi he.sim (foldVoid_sim hc o h.2.2.1 hk)
        (foldS_sim b hc hk h.2.2.2 hl.2.2.2)
  case foreachLoop idx base sort l b =>
    have hkeep : Matches noLocal c k exec (.foreachLoop idx base sort l b)
        (.foreachLoop idx base sort (foldMaybe sess skip l) (foldS sess skip b)) :=
      foreachLoop_sim (foldLimit_sim hc l h.2.1 hk) fun _ _ =>
        foldS_sim b ⟨hc.same, hc.idle⟩ hk h.2.2 hl.2.2
    rw [foldS]
    split
    next n hn =>
      split
      next hle =>
        cases sort with
        | none => exact foreachLoop_empty (limit_idle hc h.2.1 hn) hle
        | some o =>
          -- a sorted loop, so its limit may be positive
          refine absurd hle (limit_open (fun e he => ?_) h.2.1 hn)
          exact hl.1 e (by rw [he]; exact mem_singleton_self e)
      next => exact hkeep
    next => exact hkeep
  case foreachHist idx hist e l b =>
    have hkeep : Matches noLocal c k exec (.foreachHist idx hist e l b)
        (.foreachHist idx hist (foldE sess skip e).expr (foldMaybe sess skip l) (foldS sess skip b)) :=
      foreachHist_sim (foldPlace_sim hc e h.2.1 hk) (foldLimit_sim hc l h.2.2.1 hk)
        (fun _ _ => avoids_noLocal _) (foldS_sim b hc hk h.2.2.2 hl.2.2.2)
    rw [foldS]
    split
    next n hn =>
      split
      next hle =>
        refine absurd hle (limit_open (fun e' he' => ?_) h.2.2.1 hn)
        exact hl.1 e' (by rw [he']; exact mem_singleton_self e')
      next => exact hkeep
    next => exact hkeep
  case returnStmt e => exact returnStmt_sim (foldE_sim hc e h hk)
  case deleteStmt e => exact deleteStmt_sim (foldPlace_sim hc e h hk) (placeAvoids_noLocal e)

theorem foldOpt_sim (o : Option Stmt) {c : Ctx W} {k : Calls W} (hc : FoldCtx sess c)
    (hk : CallsSame c k)
    (h : gatherOpt (issueAt skip) (fun e => e.gather (issueAt skip)) (fun _ => []) o = [])
    (hl : ∀ l ∈ gatherOpt (fun _ => []) (fun _ => []) limitAt o, CanBePositive sess l) :
    Matches noLocal c k execOpt o (foldOpt sess skip o) := by
  cases o with
  | none => exact Sim.pure _
  | some s => exact foldS_sim s hc hk h hl

theorem foldBlock_sim (ss : List Stmt) {c : Ctx W} {k : Calls W} (hc : FoldCtx sess c)
    (hk : CallsSame c k)
    (h : gatherBlock (issueAt skip) (fun e => e.gather (issueAt skip)) (fun _ => []) ss = [])
    (hl : ∀ l ∈ gatherBlock (fun _ => []) (fun _ => []) limitAt ss, CanBePositive sess l) :
    Matches noLocal c k execBlock ss (foldBlock sess skip ss) := by
  cases ss with
  | nil => exact Sim.pure _
  | cons s ss =>
    simp only [gatherBlock, append_eq_nil_iff] at h
    simp only [gatherBlock, forall_mem_append] at hl
    exact execBlock_cons_sim (foldS_sim s hc hk h.1 hl.1) (foldBlock_sim ss hc hk h.2 hl.2)

end

end Statements

/-! ## The whole pass -/

theorem foldS_bodySim {W : Type} {rt : Runtime W} (hrt : PureRuntime W rt) {sess : Session}
    {skip : Bool} {b : Stmt} (hissue : Stmt.issues skip b = []) (hlimits : LimitsOpen sess b)
    (formals : List Nat) : BodySim sess noLocal (fun _ => True) rt formals b (foldS sess skip b) :=
  fun _ _ _ _ hcall hk => foldS_sim b (foldCtx_callFn hrt hcall) (fun f => hk f trivial) hissue
    hlimits

/-- `foreach (k in a+ limit 1 + 1) g = 2 * 3` -/
def sortedLoop : Stmt := .foreachLoop [⟨.long, .loc 0⟩] (.global 1) (some ⟨.ascending, 0⟩)
  (some (.binary .long .add (.literalNumber .long 1) (.literalNumber .long 1)))
  (.expr (.assignment .long .set symG
    (.binary .long .mul (.literalNumber .long 2) (.literalNumber .long 3))))

def sortedScript : Session := loopProbe sortedLoop

/-- `probe begin { b = 7; foreach (b in @hist_log(s) limit 0) {} g = b }`: the loop
goes, and `g` ends up as 7 where it was 0. -/
def bucketScript : Session where
  globals := [⟨[103], .long, []⟩, ⟨[115], .stats, []⟩]
  locals := [⟨[98], .long, []⟩]
  functions := []
  probes := [⟨[], [0], .block [
    .expr (.assignment .long .set symX (.literalNumber .long 7)),
    .foreachHist [⟨.long, .loc 0⟩] .log (.symbol ⟨.stats, .global 1⟩)
      (some (.literalNumber .long 0)) .null,
    .expr (.assignment .long .set symG symX)], none⟩]

end Systemtap.Opt
