import Systemtap.Lex.Expand

/-!
# The preprocessor against the expansion

`parser::scan_pp` delivers the tokens of the expansion. The proof follows the recursion of the
expansion: `Simulates` says what the code does for each outcome, a kept branch is read through the
queue (`kept_simulated`), a dropped one by counting (`skip_simulated`, `dropped_simulated`), and a
condition by its two accumulators (`disjunction_simulated`).

The code never looks for the second `%:` of a group. `expands_iff` says that this, and the exception
that `lex_cast` throws, are all that separates it from the expansion.
-/

namespace Systemtap.Lex

open Lib (Pull Pulled)

/-! ## Tokens and markers -/

namespace PpToken

theorem eq_of_is {m : PpToken} {op : String} (h : m.is op) : m = ⟨.operator, op⟩ := by
  obtain ⟨type, content⟩ := m
  simp only [is, Bool.and_eq_true, decide_eq_true_eq] at h
  rw [h.1, h.2]

/-- No marker. -/
structure Plain (m : PpToken) : Prop where
  opens : m.is "%(" = false
  closes : m.is "%)" = false
  elses : m.is "%:" = false
  thens : m.is "%?" = false

/-- A token is one of the markers or none. -/
theorem marker_cases (m : PpToken) :
    m = ⟨.operator, "%("⟩ ∨ m = ⟨.operator, "%)"⟩ ∨ m = ⟨.operator, "%:"⟩ ∨ m = ⟨.operator, "%?"⟩ ∨
      m.Plain := by
  cases ho : m.is "%(" with
  | true => exact .inl (eq_of_is ho)
  | false =>
    cases hc : m.is "%)" with
    | true => exact .inr (.inl (eq_of_is hc))
    | false =>
      cases he : m.is "%:" with
      | true => exact .inr (.inr (.inl (eq_of_is he)))
      | false =>
        cases ht : m.is "%?" with
        | true => exact .inr (.inr (.inr (.inl (eq_of_is ht))))
        | false => exact .inr (.inr (.inr (.inr ⟨ho, hc, he, ht⟩)))

end PpToken

namespace Branch

variable (acc : List PpToken) (isThen keep : Bool) (nesting thens : Int)

theorem next_plain {m : PpToken} (hm : m.Plain) :
    (⟨nesting, thens, acc⟩ : Branch).next isThen keep m =
      .ok (some ⟨nesting, thens, if keep then acc ++ [m] else acc⟩) := by
  simp [next, hm.opens, hm.closes, hm.elses, hm.thens]

theorem next_open (h : 0 ≤ nesting) :
    (⟨nesting, thens, acc⟩ : Branch).next isThen keep ⟨.operator, "%("⟩ =
      .ok (some ⟨nesting + 1, thens, if keep then acc ++ [⟨.operator, "%("⟩] else acc⟩) := by
  have hne : nesting + 1 ≠ 0 := by omega
  simp [next, PpToken.is, hne]

theorem next_close (h : 0 < nesting) :
    (⟨nesting, thens, acc⟩ : Branch).next isThen keep ⟨.operator, "%)"⟩ =
      .ok (some ⟨nesting - 1, thens - 1, if keep then acc ++ [⟨.operator, "%)"⟩] else acc⟩) := by
  simp [next, PpToken.is, h.ne']

theorem next_end : (⟨0, thens, acc⟩ : Branch).next isThen keep ⟨.operator, "%)"⟩ = .ok none := by
  simp [next, PpToken.is]

theorem next_else (h : nesting ≠ 0 ∨ isThen = false) :
    (⟨nesting, thens, acc⟩ : Branch).next isThen keep ⟨.operator, "%:"⟩ =
      .ok (some ⟨nesting, thens, if keep then acc ++ [⟨.operator, "%:"⟩] else acc⟩) := by
  rcases h with h | h <;> simp [next, PpToken.is, h]

theorem next_then :
    (⟨thens + 1, thens, acc⟩ : Branch).next isThen keep ⟨.operator, "%?"⟩ =
      .ok (some ⟨thens + 1, thens + 1, if keep then acc ++ [⟨.operator, "%?"⟩] else acc⟩) := by
  simp [next, PpToken.is]

theorem next_then_bad (h : nesting ≠ thens + 1) :
    (⟨nesting, thens, acc⟩ : Branch).next isThen keep ⟨.operator, "%?"⟩ =
      .error (.missingOpen ⟨.operator, "%?"⟩) := by
  simp [next, PpToken.is, h]

end Branch

/-! ## The preprocessor, case by case -/

section Cases

variable {session : PpSession} {t m : PpToken} {isThen : Bool} {b : Branch} (i : List Scanned)
  (q : List PpToken)

theorem pp_enqueued (m : PpToken) :
    pp session ⟨i, m :: q⟩ = .ok (some m) ⟨i, q⟩ := by
  rw [pp_eq]
  rfl

theorem pp_nil : pp session ⟨[], []⟩ = .ok none ⟨[], []⟩ := by
  rw [pp_eq]
  rfl

theorem pp_throws (what : String) :
    pp session ⟨.throws what :: i, []⟩ = .error (.lexical what) ⟨i, []⟩ := by
  rw [pp_eq]
  rfl

theorem pp_token (hm : m.is "%(" = false) :
    pp session ⟨.token m :: i, []⟩ = .ok (some m) ⟨i, []⟩ := by
  rw [pp_eq]
  simp only [ppStep, hm, Bool.false_eq_true, if_false]

theorem pp_open (hm : m.is "%(" = true) :
    pp session ⟨.token m :: i, []⟩ = (group session m >>= fun _ => pp session) ⟨i, []⟩ := by
  rw [pp_eq]
  simp only [ppStep, hm, if_true]
  rw [← pp_eq]

/-- A kept branch goes on with what `scan_pp` delivers. -/
theorem branch_of_pp {s s' : PpState} (h : pp session s = .ok (some m) s') :
    branch session t isThen true b s =
      branchStep t isThen true (branch session t isThen true) b (.ok (some m)) s' := by
  rw [branch_eq]
  exact Pull.bind_of_ok (Pull.attempt_of_ok h)

theorem branch_of_pp_error {s s' : PpState} {e : PpError} (h : pp session s = .error e s') :
    branch session t isThen true b s = .error e s' := by
  rw [branch_eq]
  exact Pull.bind_of_ok (Pull.attempt_of_error h)

theorem branch_kept_nil :
    branch session t isThen true b ⟨[], []⟩ =
      .error (if isThen then .missingElse t else .missingEnd t) ⟨[], []⟩ := by
  rw [branch_eq]
  exact Pull.bind_of_ok (Pull.attempt_of_ok (pp_nil))

/-- At a group a kept branch waits for the group and goes on from there. -/
theorem branch_kept_open (hm : m.is "%(" = true) :
    branch session t isThen true b ⟨.token m :: i, []⟩ =
      (group session m >>= fun _ => branch session t isThen true b) ⟨i, []⟩ := by
  have hpp := @pp_open session m i hm
  cases hg : group session m ⟨i, []⟩ with
  | ok u s' =>
    rw [Pull.bind_of_ok hg] at hpp ⊢
    rw [branch_eq]
    show ((pp session).attempt >>= _) _ = ((pp session).attempt >>= _) _
    simp only [bind, Pull.attempt, hpp]
  | error e s' =>
    rw [Pull.bind_of_error hg] at hpp ⊢
    exact branch_of_pp_error hpp
  | spent =>
    rw [Pull.bind_of_spent hg] at hpp ⊢
    rw [branch_eq]
    exact Pull.bind_of_spent (Pull.attempt_of_spent hpp)

/-- The tokens that a group has left in the queue are kept one by one. -/
theorem branch_kept_enqueued (acc ts : List PpToken) (hts : ∀ m ∈ ts, m.Plain) :
    branch session t isThen true ⟨0, 0, acc⟩ ⟨i, ts⟩ =
      branch session t isThen true ⟨0, 0, acc ++ ts⟩ ⟨i, []⟩ := by
  induction ts generalizing acc with
  | nil => rw [List.append_nil]
  | cons m ts ih =>
    have hm := hts m List.mem_cons_self
    rw [branch_of_pp (pp_enqueued i ts m)]
    simp only [branchStep, Branch.next_plain _ _ _ _ _ hm, if_true]
    rw [ih _ fun m' h' => hts m' (List.mem_cons_of_mem _ h'), List.append_assoc]
    rfl

theorem branch_kept_token (hm : m.is "%(" = false) :
    branch session t isThen true b ⟨.token m :: i, []⟩ =
      branchStep t isThen true (branch session t isThen true) b (.ok (some m)) ⟨i, []⟩ :=
  branch_of_pp (pp_token i hm)

theorem branch_dropped_nil :
    branch session t isThen false b ⟨[], q⟩ =
      .error (if isThen then .missingElse t else .missingEnd t) ⟨[], q⟩ := by
  rw [branch_eq]
  rfl

/-- In a dropped branch the errors of the lexer are caught. -/
theorem branch_dropped_throws (what : String) :
    branch session t isThen false b ⟨.throws what :: i, q⟩ =
      branch session t isThen false b ⟨i, q⟩ := by
  conv_lhs => rw [branch_eq]
  rfl

theorem branch_dropped_token (m : PpToken) :
    branch session t isThen false b ⟨.token m :: i, q⟩ =
      branchStep t isThen false (branch session t isThen false) b (.ok (some m)) ⟨i, q⟩ := by
  conv_lhs => rw [branch_eq]
  rfl

/-- A loop that has something to read reads it. -/
theorem branch_below (keep : Bool) {i : List Scanned} (hi : i ≠ []) :
    (branch session t isThen keep b ⟨i, []⟩).Ends fun s' => s'.input.length < i.length := by
  obtain ⟨c, i, rfl⟩ := List.exists_cons_of_ne_nil hi
  have hstep (m : Except PpError (Option PpToken)) :=
    branchStep_reads t isThen keep (branch_reads session t isThen keep) b m
  have hlt : i.length < (c :: i).length := Nat.lt_succ_self _
  cases keep with
  | false =>
    cases c with
    | throws what =>
      rw [branch_dropped_throws]
      exact (branch_reads session t isThen false b).below hlt
    | token m =>
      rw [branch_dropped_token]
      exact (hstep _).below hlt
  | true =>
    cases c with
    | throws what =>
      rw [branch_of_pp_error (pp_throws i what)]
      exact hlt
    | token m =>
      cases hm : m.is "%(" with
      | false =>
        rw [branch_kept_token _ hm]
        exact (hstep _).below hlt
      | true =>
        rw [branch_kept_open _ hm]
        exact Reads.below ((group_reads session m).bind fun _ => branch_reads session t isThen true b) hlt

end Cases

/-! ## Simulation -/

section Simulation

variable {α α' β β' : Type}

/-- What is seen of a fault: an error is raised there, a `parse_error` unless a number is at fault. A
second `%:` is not seen, and what is behind it is read. -/
def Shows (raised : PpError → List PpToken → Prop) (rest : List Scanned) (c : Pulled PpError PpState β) :
    Fault → Prop
  | .malformed => ∃ e q, raised e q ∧ e.isParseError
  | .number => ∃ q, raised .badCast q
  | .second =>
    (rest = [] → ∃ e q, raised e q ∧ e.isParseError) ∧
      (rest ≠ [] → c.Ends fun s' => s'.input.length < rest.length)
  | .loose => True

theorem Shows.mono {raised raised' : PpError → List PpToken → Prop} {rest : List Scanned}
    {c : Pulled PpError PpState β} {c' : Pulled PpError PpState β'} {f : Fault}
    (h : Shows raised rest c f) (hraised : ∀ e q, raised e q → raised' e q)
    (hends : (c.Ends fun s' => s'.input.length < rest.length) →
      c'.Ends fun s' => s'.input.length < rest.length) : Shows raised' rest c' f := by
  have hparse : (∃ e q, raised e q ∧ e.isParseError) → ∃ e q, raised' e q ∧ e.isParseError :=
    fun ⟨e, q, hr, he⟩ => ⟨e, q, hraised e q hr, he⟩
  cases f with
  | malformed => exact hparse h
  | number => exact h.imp (hraised _)
  | second => exact ⟨fun hrest => hparse (h.1 hrest), fun hrest => hends (h.2 hrest)⟩
  | loose => trivial

/-- The code stops where the expansion does. -/
def Stops (f : Fault) (rest : List Scanned) (c : Pulled PpError PpState β) : Prop :=
  Shows (fun e q => c = .error e ⟨rest, q⟩) rest c f

/-- The code does what the expansion does, with results in the relation `R`. -/
def Simulates (R : α → List Scanned → β → PpState → Prop) (r : Pulled Fault (List Scanned) α)
    (c : Pulled PpError PpState β) : Prop :=
  match r with
  | .ok a rest => ∃ b s', c = .ok b s' ∧ R a rest b s'
  | .error f rest => Stops f rest c
  | .spent => True

theorem Stops.bind {f : Fault} {rest : List Scanned} {y : PpM β} {s : PpState}
    (h : Stops f rest (y s)) {l : β → PpM β'} (hl : ∀ b, Reads (l b)) :
    Stops f rest ((y >>= l) s) :=
  h.mono (fun _ _ => Pull.bind_of_error) fun hends => hends.bind fun b _ hs' => (hl b).below hs'

namespace Simulates

variable {R : α → List Scanned → β → PpState → Prop} {R' : α' → List Scanned → β' → PpState → Prop}

theorem bind {x : Expand α} {i : List Scanned} {y : PpM β} {s : PpState}
    (h : Simulates R (x i) (y s)) {k : α → Expand α'} {l : β → PpM β'}
    (hk : ∀ a rest b s', R a rest b s' → Simulates R' (k a rest) (l b s')) (hl : ∀ b, Reads (l b)) :
    Simulates R' ((x >>= k) i) ((y >>= l) s) := by
  cases hx : x i with
  | ok a rest =>
    rw [hx] at h
    obtain ⟨b, s', hy, hR⟩ := h
    rw [Pull.bind_of_ok hx, Pull.bind_of_ok hy]
    exact hk a rest b s' hR
  | error f rest =>
    rw [hx] at h
    rw [Pull.bind_of_error hx]
    exact Stops.bind h hl
  | spent =>
    rw [Pull.bind_of_spent hx]
    trivial

/-- Where only the expansion goes on, it returns. -/
theorem map {x : Expand α} {i : List Scanned} {c : Pulled PpError PpState β'} {g : α → α'}
    {S : α → List Scanned → β' → PpState → Prop} (h : Simulates S (x i) c)
    (hg : ∀ a rest b s', S a rest b s' → R' (g a) rest b s') :
    Simulates R' ((x >>= fun a => pure (g a)) i) c := by
  cases hx : x i with
  | ok a rest =>
    rw [hx] at h
    obtain ⟨b, s', hc, hS⟩ := h
    rw [Pull.bind_of_ok hx]
    exact ⟨b, s', hc, hg a rest b s' hS⟩
  | error f rest =>
    rw [hx] at h
    rw [Pull.bind_of_error hx]
    exact h
  | spent =>
    rw [Pull.bind_of_spent hx]
    trivial

end Simulates

end Simulation

/-! ## Conditions -/

section Agreement

variable {session : PpSession} {t : PpToken}

open Expand

/-- The code's results for a condition, after what it has already read of it. -/
def SameCondition (result : Bool) (v : Bool × Option PpToken) (rest : List Scanned)
    (c : Bool × Option PpToken) (s' : PpState) : Prop :=
  c = (result || v.1, v.2) ∧ s' = ⟨rest, []⟩

variable (session t) in
/-- What the loop does after a conjunction. -/
noncomputable def afterConjunction (result value : Bool) (m : Option PpToken) :
    PpM (Bool × Option PpToken) :=
  if isOp m "||" then condition session t (result || value) true else pure (result || value, m)

/-- What both do after a comparison has been evaluated. -/
theorem comparison_simulated {α : Type} {R : α → List Scanned → Bool × Option PpToken → PpState → Prop}
    (l op r : PpToken) (i : List Scanned) {k : Bool → Expand α}
    {k' : Bool → PpM (Bool × Option PpToken)}
    (h : ∀ value, Simulates R (k value i) (k' value ⟨i, []⟩)) :
    Simulates R ((comparison session l op r >>= k) i)
      ((Pull.lift (evalPpConditional session l op r) >>= k') ⟨i, []⟩) := by
  unfold comparison
  cases hv : evalPpConditional session l op r with
  | ok value => exact h value
  | error e =>
    show Stops (if e.isParseError then .malformed else .number) i
      (.error e ⟨i, []⟩ : Pulled PpError PpState (Bool × Option PpToken))
    cases he : e.isParseError with
    | true => exact ⟨e, [], rfl, he⟩
    | false =>
      have hcast : e = .badCast := by
        cases e <;> first | rfl | cases he
      exact ⟨[], by rw [hcast]⟩

theorem conjunction_simulated {α : Type} {R : α → List Scanned → Bool × Option PpToken → PpState → Prop}
    {K : Bool × Option PpToken → Expand α} (n : Nat) (result andResult : Bool) (i : List Scanned)
    (hK : ∀ v m rest, Simulates R (K (v, m) rest)
      (afterConjunction session t result (andResult && v) m ⟨rest, []⟩)) :
    Simulates R ((conjunction session n >>= K) i) (condition session t result andResult ⟨i, []⟩) := by
  induction n generalizing andResult i K with
  | zero => trivial
  | succ n ih =>
    rw [condition_eq]
    match i with
    | [] | .throws _ :: _ | [.token _] | .token _ :: .throws _ :: _ | [.token _, .token _]
    | .token _ :: .token _ :: .throws _ :: _ => exact ⟨_, _, rfl, rfl⟩
    | .token l :: .token op :: .token r :: i =>
      -- all three are there; what is left depends on the token after them
      show Simulates R ((comparison session l op r >>= fun value => read >>= fun m =>
            if isOp m "&&" then conjunction session n >>= fun rest => pure (value && rest.1, rest.2)
            else pure (value, m)) >>= K $ i)
        ((Pull.lift (evalPpConditional session l op r) >>= fun value => scan >>= fun m =>
            if isOp m "&&" then condition session t result (andResult && value)
            else afterConjunction session t result (andResult && value) m) ⟨i, []⟩)
      rw [Pull.bind_assoc]
      refine comparison_simulated l op r i fun value => ?_
      match i with
      | [] => exact hK value none []
      | .throws _ :: _ => exact ⟨_, _, rfl, rfl⟩
      | .token m :: i =>
        show Simulates R (((if m.is "&&" then
            conjunction session n >>= fun rest => pure (value && rest.1, rest.2)
            else pure (value, some m)) >>= K) i)
          ((if m.is "&&" then condition session t result (andResult && value)
            else afterConjunction session t result (andResult && value) (some m)) ⟨i, []⟩)
        cases m.is "&&" with
        | false => exact hK value (some m) i
        | true =>
          simp only [if_true]
          rw [Pull.bind_assoc]
          refine ih (andResult && value) i fun v m rest => ?_
          rw [Bool.and_assoc]
          exact hK (value && v) m rest

theorem disjunction_simulated (n : Nat) (result : Bool) (i : List Scanned) :
    Simulates (SameCondition result) (disjunction session n i)
      (condition session t result true ⟨i, []⟩) := by
  induction n generalizing result i with
  | zero => trivial
  | succ n ih =>
    refine conjunction_simulated (n + 1) result true i fun v m rest => ?_
    unfold afterConjunction
    cases isOp m "||" with
    | false => exact ⟨_, _, rfl, rfl, rfl⟩
    | true =>
      refine (ih (result || v) rest).map fun a rest' b s' h => ?_
      unfold SameCondition at h ⊢
      rwa [Bool.or_assoc] at h

/-! ## Branches -/

section Branches

variable {isThen : Bool}

/-- Reading in a dropped branch. -/
theorem readAny_simulated {α : Type}
    {R : α → List Scanned → List PpToken × Option PpToken → PpState → Prop}
    {k : Option PpToken → Expand α} (b : Branch) (i : List Scanned) (hnone : k none = Pull.throw .malformed)
    (hsome : ∀ m rest, Simulates R (k (some m) rest)
      (branchStep t isThen false (branch session t isThen false) b (.ok (some m)) ⟨rest, []⟩)) :
    Simulates R ((readAny >>= k) i) (branch session t isThen false b ⟨i, []⟩) := by
  induction i with
  | nil =>
    show Simulates R (k none []) _
    rw [hnone, branch_dropped_nil]
    refine ⟨_, _, rfl, ?_⟩
    cases isThen <;> rfl
  | cons c rest ih =>
    cases c with
    | throws what =>
      rw [branch_dropped_throws]
      exact ih
    | token m =>
      rw [branch_dropped_token]
      exact hsome m rest

/-- The counters of the loop inside a group, with `d` groups around it. -/
def inside (d : Int) (acc : List PpToken) : Part → Branch
  | .condition => ⟨d + 1, d, acc⟩
  | .thenTokens | .elseTokens => ⟨d + 1, d + 1, acc⟩

/-- What the loop does with a token, where the token only moves the counters. -/
theorem branchStep_of_next {b b' : Branch} {keep : Bool} {m : PpToken}
    (h : b.next isThen keep m = .ok (some b')) (s : PpState) :
    branchStep t isThen keep (branch session t isThen keep) b (.ok (some m)) s =
      branch session t isThen keep b' s := by
  simp only [branchStep, h]

theorem branchStep_of_end {b : Branch} {keep : Bool} {m : PpToken}
    (h : b.next isThen keep m = .ok none) (s : PpState) :
    branchStep t isThen keep (branch session t isThen keep) b (.ok (some m)) s =
      .ok (b.kept, some m) s := by
  simp only [branchStep, h]
  rfl

theorem branchStep_of_error {b : Branch} {keep : Bool} {m : PpToken} {e : PpError}
    (h : b.next isThen keep m = .error e) (s : PpState) :
    branchStep t isThen keep (branch session t isThen keep) b (.ok (some m)) s = .error e s := by
  simp only [branchStep, h]
  rfl

/-- A group in a dropped branch leaves the counters as they were before it. -/
theorem skip_simulated {α : Type}
    {R : α → List Scanned → List PpToken × Option PpToken → PpState → Prop} {K : Unit → Expand α}
    (n : Nat) (part : Part) (i : List Scanned) (acc : List PpToken) (d : Int) (hd : 0 ≤ d)
    (hK : ∀ rest, Simulates R (K () rest) (branch session t isThen false ⟨d, d, acc⟩ ⟨rest, []⟩)) :
    Simulates R ((skip n part >>= K) i) (branch session t isThen false (inside d acc part) ⟨i, []⟩) := by
  induction n generalizing part i d K with
  | zero => trivial
  | succ n ih =>
    unfold skip
    rw [Pull.bind_assoc]
    refine readAny_simulated _ i rfl fun m rest => ?_
    rcases m.marker_cases with rfl | rfl | rfl | rfl | hm
    · -- a group inside the group, and then the rest of this one
      have hinner : part ≠ .condition → Simulates R
          (((skip n .condition >>= fun _ => skip n part) >>= K) rest)
          (branchStep t isThen false (branch session t isThen false) ⟨d + 1, d + 1, acc⟩
            (.ok (some ⟨.operator, "%("⟩)) ⟨rest, []⟩) := by
        intro hpart
        rw [branchStep_of_next (Branch.next_open acc isThen false _ _ (by omega)),
          Pull.bind_assoc]
        refine ih .condition rest (d + 1) (by omega) fun rest => ?_
        cases part with
        | condition => exact absurd rfl hpart
        | thenTokens => exact ih .thenTokens rest d hd hK
        | elseTokens => exact ih .elseTokens rest d hd hK
      cases part with
      | condition => trivial
      | thenTokens => exact hinner nofun
      | elseTokens => exact hinner nofun
    · have hend : Simulates R (K () rest)
          (branchStep t isThen false (branch session t isThen false) ⟨d + 1, d + 1, acc⟩
            (.ok (some ⟨.operator, "%)"⟩)) ⟨rest, []⟩) := by
        rw [branchStep_of_next (Branch.next_close acc isThen false _ _ (by omega)),
          add_sub_cancel_right]
        exact hK rest
      cases part with
      | condition => trivial
      | thenTokens => exact hend
      | elseTokens => exact hend
    · cases part with
      | condition => trivial
      | thenTokens =>
        have hnext := Branch.next_else acc isThen false (d + 1) (d + 1) (.inl (by omega))
        rw [inside, branchStep_of_next hnext]
        exact ih .elseTokens rest d hd hK
      | elseTokens => trivial
    · cases part with
      | condition =>
        rw [inside, branchStep_of_next (Branch.next_then acc isThen false d)]
        exact ih .thenTokens rest d hd hK
      | thenTokens => trivial
      | elseTokens => trivial
    · have hnext : (inside d acc part).next isThen false m = .ok (some (inside d acc part)) := by
        cases part <;> exact Branch.next_plain _ _ _ _ _ hm
      rw [branchStep_of_next hnext]
      simp only [hm.opens, hm.closes, hm.elses, hm.thens, Bool.false_eq_true, if_false]
      exact ih part rest d hd hK

/-- A dropped branch keeps the tokens it is given. -/
theorem dropped_simulated (n : Nat) (i : List Scanned) (acc : List PpToken) :
    Simulates (fun e rest c s' => c = (acc, some e) ∧ s' = ⟨rest, []⟩) (dropped n isThen i)
      (branch session t isThen false ⟨0, 0, acc⟩ ⟨i, []⟩) := by
  induction n generalizing i with
  | zero => trivial
  | succ n ih =>
    refine readAny_simulated _ i rfl fun m rest => ?_
    rcases m.marker_cases with rfl | rfl | rfl | rfl | hm
    · rw [branchStep_of_next (Branch.next_open acc isThen false 0 0 (le_refl 0))]
      exact skip_simulated n .condition rest acc 0 (le_refl 0) fun rest => ih rest
    · rw [branchStep_of_end (Branch.next_end acc isThen false 0)]
      exact ⟨_, _, rfl, rfl, rfl⟩
    · cases isThen with
      | true =>
        exact ⟨_, _, rfl, rfl, rfl⟩
      | false =>
        refine ⟨?_, fun hrest => branch_below false hrest⟩
        rintro rfl
        exact ⟨_, _, branch_dropped_nil [], rfl⟩
    · rw [branchStep_of_error (Branch.next_then_bad acc isThen false 0 0 (by decide))]
      exact ⟨_, _, rfl, rfl⟩
    · rw [branchStep_of_next (Branch.next_plain acc isThen false 0 0 hm)]
      simp only [hm.opens, hm.closes, hm.elses, hm.thens, Bool.false_eq_true, if_false]
      exact ih rest

end Branches

/-- What a kept branch adds to the tokens it is given, and the marker that ends it. -/
def SameKept (acc : List PpToken) (us : List PpToken × PpToken) (rest : List Scanned)
    (c : List PpToken × Option PpToken) (s' : PpState) : Prop :=
  c = (acc ++ us.1, some us.2) ∧ s' = ⟨rest, []⟩ ∧ ∀ m ∈ us.1, m.Plain

/-- What a group leaves in the queue. -/
def enqueue (ts : List PpToken) : PpM Unit :=
  Pull.modify fun s => { s with enqueued := s.enqueued ++ ts }

theorem enqueue_reads (ts : List PpToken) : Reads (enqueue ts) := fun _ => le_refl _

variable (session t) in
/-- What a group does after its THEN tokens. -/
noncomputable def afterThen (value elses : Bool) (acc : List PpToken) : PpM Unit :=
  if elses then branch session t false (!value) ⟨0, 0, acc⟩ >>= fun el => enqueue el.1
  else enqueue acc

theorem afterThen_reads (value elses : Bool) (acc : List PpToken) :
    Reads (afterThen session t value elses acc) := by
  unfold afterThen
  split
  · exact .bind (branch_reads session t _ _ _) fun _ => enqueue_reads _
  · exact enqueue_reads _

/-- A group leaves the tokens of its kept branch in the queue. -/
theorem groupWith_simulated (n : Nat)
    (hkept : ∀ isThen i acc, Simulates (SameKept acc) (kept session n isThen i)
      (branch session t isThen true ⟨0, 0, acc⟩ ⟨i, []⟩)) (i : List Scanned) :
    Simulates (fun ts rest _ s' => s' = ⟨rest, ts⟩ ∧ ∀ m ∈ ts, m.Plain)
      (groupWith session (kept session n) n i) (group session t ⟨i, []⟩) := by
  rw [group_eq]
  refine (disjunction_simulated n false i).bind (fun c rest c' s' hc => ?_) fun c => ?_
  · obtain ⟨rfl, rfl⟩ := hc
    obtain ⟨value, m⟩ := c
    cases isOp m "%?" with
    | false => exact ⟨_, _, rfl, rfl⟩
    | true =>
      cases value with
      | true =>
        refine (hkept true rest []).bind (fun th rest th' s' hth => ?_)
          fun _ => afterThen_reads true _ _
        obtain ⟨rfl, rfl, hplain⟩ := hth
        show Simulates _ ((if th.2.is "%:" then dropped n false >>= fun _ => pure th.1
            else pure th.1) rest) (afterThen session t true (th.2.is "%:") th.1 ⟨rest, []⟩)
        cases th.2.is "%:" with
        | false => exact ⟨_, _, rfl, rfl, hplain⟩
        | true =>
          refine (dropped_simulated n rest th.1).bind (fun e rest el s' hel => ?_)
            fun _ => enqueue_reads _
          obtain ⟨rfl, rfl⟩ := hel
          exact ⟨_, _, rfl, rfl, hplain⟩
      | false =>
        refine (dropped_simulated n rest []).bind (fun e rest th' s' hth => ?_)
          fun _ => afterThen_reads false _ _
        obtain ⟨rfl, rfl⟩ := hth
        show Simulates _ ((if e.is "%:" then kept session n false >>= fun el => pure el.1
            else pure []) rest) (afterThen session t false (e.is "%:") [] ⟨rest, []⟩)
        cases e.is "%:" with
        | false => exact ⟨_, _, rfl, rfl, nofun⟩
        | true =>
          refine (hkept false rest []).bind (fun us rest el s' hel => ?_) fun _ => enqueue_reads _
          obtain ⟨rfl, rfl, hplain⟩ := hel
          exact ⟨_, _, rfl, rfl, hplain⟩
  · split
    · exact .throw _
    · exact .bind (branch_reads session t _ _ _) fun _ => afterThen_reads _ _ _

theorem kept_simulated (n : Nat) (isThen : Bool) (i : List Scanned) (acc : List PpToken) :
    Simulates (SameKept acc) (kept session n isThen i)
      (branch session t isThen true ⟨0, 0, acc⟩ ⟨i, []⟩) := by
  induction n generalizing t isThen i acc with
  | zero => trivial
  | succ n ih =>
    unfold kept
    match i with
    | [] =>
      rw [branch_kept_nil]
      refine ⟨_, _, rfl, ?_⟩
      cases isThen <;> rfl
    | .throws what :: i =>
      rw [branch_of_pp_error (pp_throws i what)]
      exact ⟨_, _, rfl, rfl⟩
    | .token m :: i =>
      rw [Pull.bind_of_ok (show read (.token m :: i) = .ok (some m) i from rfl)]
      rcases m.marker_cases with rfl | rfl | rfl | rfl | hm
      · rw [branch_kept_open _ rfl]
        refine (groupWith_simulated n (fun _ => ih _) i).bind (fun ts rest _ s' hts => ?_)
          fun _ => branch_reads session t isThen true _
        obtain ⟨rfl, hplain⟩ := hts
        rw [branch_kept_enqueued _ acc ts hplain]
        refine (ih isThen rest (acc ++ ts)).map fun us rest' c s' h => ?_
        obtain ⟨rfl, rfl, hus⟩ := h
        refine ⟨by rw [List.append_assoc], rfl, fun m hm => ?_⟩
        rcases List.mem_append.1 hm with h | h
        · exact hplain m h
        · exact hus m h
      · rw [branch_kept_token _ rfl,
          branchStep_of_end (Branch.next_end acc isThen true 0)]
        exact ⟨_, _, rfl, by rw [List.append_nil], rfl, nofun⟩
      · rw [branch_kept_token _ rfl]
        cases isThen with
        | true =>
          exact ⟨_, _, rfl, by rw [List.append_nil], rfl, nofun⟩
        | false =>
          refine ⟨?_, fun hrest => branch_below true hrest⟩
          rintro rfl
          exact ⟨_, _, branch_kept_nil, rfl⟩
      · rw [branch_kept_token _ rfl,
          branchStep_of_error (Branch.next_then_bad acc isThen true 0 0 (by decide))]
        exact ⟨_, _, rfl, rfl⟩
      · rw [branch_kept_token _ hm.opens,
          branchStep_of_next (Branch.next_plain acc isThen true 0 0 hm)]
        simp only [hm.opens, hm.closes, hm.elses, hm.thens, Bool.false_eq_true, if_false, if_true]
        refine (ih isThen i (acc ++ [m])).map fun us rest' c s' h => ?_
        obtain ⟨rfl, rfl, hus⟩ := h
        refine ⟨by rw [List.append_assoc]; rfl, rfl, fun m' hm' => ?_⟩
        rcases List.mem_cons.1 hm' with rfl | h
        · exact hm
        · exact hus m' h

/-- A group of the text. -/
theorem group_simulated (n : Nat) (i : List Scanned) :
    Simulates (fun ts rest _ s' => s' = ⟨rest, ts⟩ ∧ ∀ m ∈ ts, m.Plain)
      (groupWith session (kept session n) n i) (group session t ⟨i, []⟩) :=
  groupWith_simulated n (kept_simulated n) i

end Agreement

/-! ## Delivery -/

section Delivery

variable {session : PpSession}

open Expand

variable (session) in
/-- What the calls deliver after a group. -/
noncomputable def afterGroup : Except PpError Unit → PpM (List PpToken × Option PpError)
  | .error e => pure ([], some e)
  | .ok _ => delivery session

theorem delivery_of_pp {s s' : PpState} {m : PpToken} (h : pp session s = .ok (some m) s') :
    delivery session s = (delivery session >>= fun r => pure (m :: r.1, r.2)) s' := by
  conv_lhs => rw [delivery_eq]
  exact Pull.bind_of_ok (Pull.attempt_of_ok h)

theorem delivery_enqueued (ts : List PpToken) (i : List Scanned) :
    delivery session ⟨i, ts⟩ = (delivery session >>= fun r => pure (ts ++ r.1, r.2)) ⟨i, []⟩ := by
  induction ts with
  | nil =>
    cases h : delivery session ⟨i, []⟩ with
    | ok r s' => rw [Pull.bind_of_ok h]; rfl
    | error e s' => rw [Pull.bind_of_error h]
    | spent => rw [Pull.bind_of_spent h]
  | cons t ts ih =>
    rw [delivery_of_pp (pp_enqueued i ts t), Pull.bind_congr ih, Pull.bind_assoc]
    rfl

theorem delivery_nil : delivery session ⟨[], []⟩ = .ok ([], none) ⟨[], []⟩ := by
  rw [delivery_eq]
  exact Pull.bind_of_ok (Pull.attempt_of_ok (pp_nil))

theorem delivery_throws (what : String) (i : List Scanned) :
    delivery session ⟨.throws what :: i, []⟩ = .ok ([], some (.lexical what)) ⟨i, []⟩ := by
  rw [delivery_eq]
  exact Pull.bind_of_ok (Pull.attempt_of_error (pp_throws i what))

theorem delivery_open {m : PpToken} (hm : m.is "%(" = true) (i : List Scanned) :
    delivery session ⟨.token m :: i, []⟩ =
      ((group session m).attempt >>= afterGroup session) ⟨i, []⟩ := by
  have hpp := @pp_open session m i hm
  cases hg : group session m ⟨i, []⟩ with
  | ok u s' =>
    rw [Pull.bind_of_ok hg] at hpp
    rw [Pull.bind_of_ok (Pull.attempt_of_ok hg)]
    have hl := congrFun (delivery_eq session) ⟨.token m :: i, []⟩
    have hr := congrFun (delivery_eq session) s'
    show _ = delivery session s'
    rw [hl, hr]
    simp only [bind, Pull.attempt, hpp]
  | error e s' =>
    rw [Pull.bind_of_error hg] at hpp
    rw [Pull.bind_of_ok (Pull.attempt_of_error hg), delivery_eq]
    exact Pull.bind_of_ok (Pull.attempt_of_error hpp)
  | spent =>
    rw [Pull.bind_of_spent hg] at hpp
    rw [Pull.bind_of_spent (Pull.attempt_of_spent hg), delivery_eq]
    exact Pull.bind_of_spent (Pull.attempt_of_spent hpp)

/-- What is delivered of a text with the tokens `ts`, which ends or has a fault. -/
def Delivered (ts : List PpToken) (rest : List Scanned)
    (c : Pulled PpError PpState (List PpToken × Option PpError)) : Option Fault → Prop
  | none => c = .ok (ts, none) ⟨[], []⟩
  | some f => Shows (fun e q => c = .ok (ts, some e) ⟨rest, q⟩) rest c f

/-- The tokens before a text come before what is delivered of it. -/
theorem Delivered.prepend {us : List PpToken} {fault : Option Fault} {rest : List Scanned} {s : PpState}
    (ts : List PpToken) (h : Delivered us rest (delivery session s) fault) :
    Delivered (ts ++ us) rest ((delivery session >>= fun r => pure (ts ++ r.1, r.2)) s) fault := by
  cases fault with
  | none => exact Pull.bind_of_ok h
  | some f => exact h.mono (fun _ _ => Pull.bind_of_ok) fun hends => hends.bind fun _ _ hs' => hs'

theorem all_delivered (n : Nat) (i : List Scanned) {ts : List PpToken} {fault : Option Fault}
    {rest : List Scanned} (h : all session n i = .ok (ts, fault) rest) :
    Delivered ts rest (delivery session ⟨i, []⟩) fault := by
  induction n generalizing i ts fault with
  | zero => cases h
  | succ n ih =>
    -- after a piece of the text both go on with the rest of it
    have hthen {piece : List PpToken} {i' : List Scanned}
        (h : andThen (all session n) (.ok piece) i' = .ok (ts, fault) rest) :
        Delivered ts rest ((delivery session >>= fun r => pure (piece ++ r.1, r.2)) ⟨i', []⟩) fault := by
      obtain ⟨⟨us, fault'⟩, rest', hus, heq⟩ := Pull.bind_eq_ok h
      cases heq
      exact (ih i' hus).prepend piece
    match i with
    | [] =>
      cases h
      exact delivery_nil
    | .throws what :: i =>
      cases h
      exact ⟨_, _, delivery_throws what _, rfl⟩
    | .token t :: i =>
      cases ht : t.is "%(" with
      | false =>
        rw [all_plain session ht] at h
        rw [delivery_of_pp (pp_token i ht)]
        exact hthen h
      | true =>
        rw [all_open session ht] at h
        rw [delivery_open ht]
        have hsim := @group_simulated session t n i
        cases hg : groupWith session (kept session n) n i with
        | ok piece i' =>
          rw [Pull.bind_of_ok (Pull.attempt_of_ok hg)] at h
          rw [hg] at hsim
          obtain ⟨u, s', hgroup, rfl, -⟩ := hsim
          rw [Pull.bind_of_ok (Pull.attempt_of_ok hgroup)]
          show Delivered ts rest (delivery session ⟨i', piece⟩) fault
          rw [delivery_enqueued]
          exact hthen h
        | error f i' =>
          rw [Pull.bind_of_ok (Pull.attempt_of_error hg)] at h
          cases h
          rw [hg] at hsim
          refine hsim.mono (fun e q he => Pull.bind_of_ok (Pull.attempt_of_error he)) fun hends => ?_
          refine hends.attempt.bind fun r s' hs' => ?_
          cases r with
          | ok u => exact (delivery_reads session).below hs'
          | error e => exact hs'
        | spent =>
          rw [Pull.bind_of_spent (Pull.attempt_of_spent hg)] at h
          cases h

end Delivery

/-! ## The two compared -/

/-- The calls of `scan_pp` deliver the tokens of the expansion and find the end of the input where it
does; where the expansion has a fault, a `parse_error` is raised and nothing behind the fault is read.
-/
def Expands (session : PpSession) (input : List Scanned) : Prop :=
  ∃ ts fault rest, expansion session input = .ok (ts, fault) rest ∧
    match fault with
    | none => ∃ n, ∀ m ≥ n, deliver session m ⟨input, []⟩ = .ok (ts, none) ⟨[], []⟩
    | some .loose => True
    | some _ => ∃ e q, e.isParseError ∧
        ∃ n, ∀ m ≥ n, deliver session m ⟨input, []⟩ = .ok (ts, some e) ⟨rest, q⟩

/-- Where the expansion meets a number that is none, or a second `%:` with anything behind it, and only
there, `scan_pp` does something else. -/
theorem expands_iff (session : PpSession) (input : List Scanned) :
    Expands session input ↔ ∀ ts fault rest, expansion session input = .ok (ts, some fault) rest →
      fault ≠ .number ∧ (fault = .second → rest = []) := by
  have hlim {r} := (Lib.Grows.converges (deliver_grows session)).eq_iff (s := ⟨input, []⟩) (r := r)
  constructor
  · rintro ⟨ts, fault, rest, hexp, hmatch⟩ ts' f rest' hexp'
    cases hexp.symm.trans hexp'
    have hdel := all_delivered _ input hexp
    match f with
    | .malformed => exact ⟨nofun, nofun⟩
    | .number =>
      obtain ⟨e, q, he, hsettles⟩ := hmatch
      obtain ⟨q', hcast⟩ := hdel
      cases (hlim.2 hsettles).symm.trans hcast
      cases he
    | .second =>
      refine ⟨nofun, fun _ => ?_⟩
      obtain ⟨e, q, he, hsettles⟩ := hmatch
      by_contra hrest
      have hends := hdel.2 hrest
      rw [show delivery session ⟨input, []⟩ = _ from hlim.2 hsettles] at hends
      exact lt_irrefl _ hends
    | .loose => exact ⟨nofun, nofun⟩
  · intro h
    obtain ⟨⟨ts, fault⟩, rest, hexp⟩ := exists_expansion session input
    have hdel := all_delivered _ input hexp
    have hparse : (∃ e q, delivery session ⟨input, []⟩ = .ok (ts, some e) ⟨rest, q⟩ ∧ e.isParseError) →
        ∃ e q, e.isParseError ∧
          ∃ n, ∀ m ≥ n, deliver session m ⟨input, []⟩ = .ok (ts, some e) ⟨rest, q⟩ := by
      rintro ⟨e, q, hd, he⟩
      exact ⟨e, q, he, hlim.1 hd⟩
    refine ⟨ts, fault, rest, hexp, ?_⟩
    match fault with
    | none => exact hlim.1 hdel
    | some .malformed => exact hparse hdel
    | some .number => exact absurd rfl (h ts .number rest hexp).1
    | some .second => exact hparse (hdel.1 ((h ts .second rest hexp).2 rfl))
    | some .loose => trivial

/-! ## A second `%:` -/

namespace Sample

def session : PpSession where
  kernelRelease := "2.6.32-71.el6"
  kernelBaseRelease := "2.6.32"
  architecture := "i386"
  kernelConfig := fun _ => ""
  fnmatch := fun pattern string => pattern = string
  strverscmp := fun s t => if s < t then -1 else if s = t then 0 else 1
  strtoll := fun _ => some 0

/-- `%( 1 == 2 %? a %: b %: c %)` -/
def overfull : List Scanned :=
  [⟨.operator, "%("⟩, ⟨.number, "1"⟩, ⟨.operator, "=="⟩, ⟨.number, "2"⟩, ⟨.operator, "%?"⟩,
    ⟨.identifier, "a"⟩, ⟨.operator, "%:"⟩, ⟨.identifier, "b"⟩, ⟨.operator, "%:"⟩, ⟨.identifier, "c"⟩,
    ⟨.operator, "%)"⟩].map .token

/-- `%( 1 == 1 %? %( 1 == 2 %? a %: b %: c %) %: e %)` -/
def nested : List Scanned :=
  [⟨.operator, "%("⟩, ⟨.number, "1"⟩, ⟨.operator, "=="⟩, ⟨.number, "1"⟩, ⟨.operator, "%?"⟩].map .token ++
    overfull ++ [⟨.operator, "%:"⟩, ⟨.identifier, "e"⟩, ⟨.operator, "%)"⟩].map .token

/-- `%( 0x10 == 16 %? a %)` -/
def hex : List Scanned :=
  [⟨.operator, "%("⟩, ⟨.number, "0x10"⟩, ⟨.operator, "=="⟩, ⟨.number, "16"⟩, ⟨.operator, "%?"⟩,
    ⟨.identifier, "a"⟩, ⟨.operator, "%)"⟩].map .token

end Sample

/-- The second `%:` of a group is delivered like any other token. Inside another group it is taken for
the `%:` of that one, and the tokens come out in another order. A hexadecimal number in a condition
raises an exception that is no `parse_error`. -/
theorem overfull_delivered :
    expansion Sample.session Sample.overfull =
        .ok ([], some .second) [.token ⟨.identifier, "c"⟩, .token ⟨.operator, "%)"⟩] ∧
      (∀ m ≥ 6, deliver Sample.session m ⟨Sample.overfull, []⟩ =
        .ok ([⟨.identifier, "b"⟩, ⟨.operator, "%:"⟩, ⟨.identifier, "c"⟩], none) ⟨[], []⟩) ∧
      (∀ m ≥ 7, deliver Sample.session m ⟨Sample.nested, []⟩ =
        .ok ([⟨.identifier, "c"⟩, ⟨.identifier, "b"⟩], none) ⟨[], []⟩) ∧
      (∀ m ≥ 3, deliver Sample.session m ⟨Sample.hex, []⟩ =
        .ok ([], some .badCast) ⟨[⟨.operator, "%?"⟩, ⟨.identifier, "a"⟩, ⟨.operator, "%)"⟩].map .token, []⟩) ∧
      ¬ Expands Sample.session Sample.overfull ∧ ¬ Expands Sample.session Sample.hex := by
  have hgrows := deliver_grows Sample.session
  have hexp : expansion Sample.session Sample.overfull =
      .ok ([], some .second) [.token ⟨.identifier, "c"⟩, .token ⟨.operator, "%)"⟩] := by decide +kernel
  have hdel : ∀ m ≥ 6, deliver Sample.session m ⟨Sample.overfull, []⟩ =
      .ok ([⟨.identifier, "b"⟩, ⟨.operator, "%:"⟩, ⟨.identifier, "c"⟩], none) ⟨[], []⟩ :=
    hgrows.stays (by decide +kernel) nofun
  have hcast : ∀ m ≥ 3, deliver Sample.session m ⟨Sample.hex, []⟩ =
      .ok ([], some .badCast) ⟨[⟨.operator, "%?"⟩, ⟨.identifier, "a"⟩, ⟨.operator, "%)"⟩].map .token, []⟩ :=
    hgrows.stays (by decide +kernel) nofun
  refine ⟨hexp, hdel, hgrows.stays (by decide +kernel) nofun, hcast, ?_, ?_⟩
  · rintro ⟨ts, fault, rest, hexp', hmatch⟩
    cases hexp.symm.trans hexp'
    obtain ⟨e, q, -, n, hn⟩ := hmatch
    cases (hdel (max n 6) (by omega)).symm.trans (hn (max n 6) (by omega))
  · rintro ⟨ts, fault, rest, hexp', hmatch⟩
    have hexp : expansion Sample.session Sample.hex = .ok ([], some .number)
        ([⟨.operator, "%?"⟩, ⟨.identifier, "a"⟩, ⟨.operator, "%)"⟩].map .token) := by decide +kernel
    cases hexp.symm.trans hexp'
    obtain ⟨e, q, he, n, hn⟩ := hmatch
    cases (hcast (max n 3) (by omega)).symm.trans (hn (max n 3) (by omega))
    cases he

end Systemtap.Lex
