import Systemtap.Lib.Pull

/-!
# The preprocessor

`parser::scan_pp` stands between the lexer and the parser and expands `%( CONDITION %? THEN-TOKENS
%: ELSE-TOKENS %)` on the fly. A call returns the head of `enqueued_pp` if there is one, and otherwise
scans. At `%(` it reads the condition, three tokens at a time, then the tokens of both branches: the
kept branch through `scan_pp` itself, which expands the groups inside, the other through the lexer,
with only the nesting counted. The kept tokens go to the end of `enqueued_pp`, and the call starts
over.

The lexer is a list: what `input.scan` would deliver, call by call, with the calls that throw. It
does so for an argument `$1` that the command line does not have, and in a branch that is not kept
such an error is dropped with the tokens.
-/

namespace Systemtap.Lex

open Lib (Pull Pulled Grows lim)

/-- `token_type` -/
inductive PpType where
  | junk
  | identifier
  | operator
  | string
  | number
  | embedded
  | keyword
deriving DecidableEq, Repr

structure PpToken where
  type : PpType
  content : String
deriving DecidableEq, Repr

namespace PpToken

/-- `t->type == tok_operator && t->content == op` -/
def is (t : PpToken) (op : String) : Bool := t.type = .operator && t.content = op

end PpToken

/-- `m && m->type == tok_operator && m->content == op` -/
def isOp (m : Option PpToken) (op : String) : Bool := m.any (·.is op)

inductive PpError where
  /-- Thrown by the lexer. -/
  | lexical (what : String)
  | expectedString (r : PpToken)
  | expectedComparison (op : PpToken)
  | wildcardOrder (op : PpToken)
  | expectedEquality (op : PpToken)
  | configNotNumber (l : PpToken)
  | expectedConfigValue (r : PpToken)
  | expectedStringRight (r : PpToken)
  | expectedNumberRight (r : PpToken)
  | unknownCondition (l : PpToken)
  | incompleteCondition (t : PpToken)
  | expectedThen (t : PpToken)
  | missingOpen (m : PpToken)
  | missingElse (t : PpToken)
  | missingEnd (t : PpToken)
  /-- The `runtime_error` of `lex_cast`, which is no `parse_error`. -/
  | badCast
deriving DecidableEq, Repr

namespace PpError

def what : PpError → String
  | lexical what => what
  | expectedString _ => "expected string literal"
  | expectedComparison _ => "expected comparison operator"
  | wildcardOrder _ => "wildcard not allowed with order comparison operators"
  | expectedEquality _ => "expected '==' or '!='"
  | configNotNumber _ => "Config option value not a number"
  | expectedConfigValue _ => "expected string, number literal or other CONFIG_... as right value"
  | expectedStringRight _ => "expected string literal as right value"
  | expectedNumberRight _ => "expected number literal as right value"
  | unknownCondition _ => "expected 'arch' or 'kernel_v' or 'kernel_vr' or 'CONFIG_...'\n" ++
      "             or comparison between strings or integers"
  | incompleteCondition _ => "incomplete condition after '%('"
  | expectedThen _ => "expected '%?' marker for conditional"
  | missingOpen _ => "incomplete conditional - missing '%('"
  | missingElse _ => "incomplete conditional - missing '%:' or '%)'"
  | missingEnd _ => "incomplete conditional - missing %)"
  | badCast => "bad lexical cast"

def isParseError : PpError → Bool
  | badCast => false
  | _ => true

end PpError

/-! ## Conditions -/

/-- What a condition can ask of the session, with the functions of the C library it is asked by. -/
structure PpSession where
  kernelRelease : String
  kernelBaseRelease : String
  architecture : String
  /-- Empty for an option that is not set. -/
  kernelConfig : String → String
  /-- The string matches the pattern. -/
  fnmatch : String → String → Bool
  strverscmp : String → String → Int
  /-- `strtoll` in base 0, if it takes the whole string. -/
  strtoll : String → Option Int

/-- `lex_cast<int64_t>` of a number token, which begins with a digit and goes on with digits and
letters. -/
def lexCast (content : String) : Except PpError Int :=
  let digits := content.toList
  if digits ≠ [] ∧ digits.all (·.isDigit) then
    let value := digits.foldl (fun n c => 10 * n + (c.toNat - '0'.toNat)) 0
    if value < 2 ^ 63 then .ok value else .error .badCast
  else .error .badCast

/-- `eval_comparison` -/
def evalComparison {α : Type} [LE α] [LT α] [DecidableEq α] [DecidableLE α] [DecidableLT α] (lhs : α)
    (op : PpToken) (rhs : α) : Except PpError Bool :=
  if op.is "<=" then .ok (lhs ≤ rhs)
  else if op.is ">=" then .ok (lhs ≥ rhs)
  else if op.is "<" then .ok (lhs < rhs)
  else if op.is ">" then .ok (lhs > rhs)
  else if op.is "==" then .ok (lhs = rhs)
  else if op.is "!=" then .ok (lhs ≠ rhs)
  else .error (.expectedComparison op)

/-- The results of `strverscmp` that an operator accepts, and whether it allows wildcards. -/
def acceptable (op : PpToken) : Except PpError (List Int × Bool) :=
  if op.is "<=" then .ok ([-1, 0], false)
  else if op.is ">=" then .ok ([1, 0], false)
  else if op.is "<" then .ok ([-1, -1], false)
  else if op.is ">" then .ok ([1, 1], false)
  else if op.is "==" then .ok ([0, 0], true)
  else if op.is "!=" then .ok ([-1, 1], true)
  else .error (.expectedComparison op)

/-- The comparisons that are made by `fnmatch` only. -/
def evalMatch (matched : Bool) (op : PpToken) : Except PpError Bool :=
  if op.is "==" then .ok matched
  else if op.is "!=" then .ok !matched
  else .error (.expectedEquality op)

/-- `startswith (content, "CONFIG_")` -/
def isConfig (content : String) : Bool := "CONFIG_".toList.isPrefixOf content.toList

section

variable (session : PpSession)

/-- The comparison of `kernel_v` or `kernel_vr` with a string. -/
def evalVersion (target : String) (op r : PpToken) : Except PpError Bool :=
  if r.type ≠ .string then .error (.expectedString r)
  else do
    let query := r.content
    let rhsWildcard := query.toList.any (· ∈ ['*', '?', '['])
    let (rvcOk, wcOk) ← acceptable op
    if !wcOk && rhsWildcard then .error (.wildcardOrder op)
    else if rhsWildcard then
      let badness := session.fnmatch query target ^^ op.content = "=="
      return !badness
    else
      return (session.strverscmp target query).sign ∈ rvcOk

/-- The comparison of an option with a string, a number or another option. -/
def evalConfig (l op r : PpToken) : Except PpError Bool :=
  if r.type = .string then
    evalMatch (session.fnmatch r.content (session.kernelConfig l.content)) op
  else if r.type = .number then
    match session.strtoll (session.kernelConfig l.content) with
    | none => .error (.configNotNumber l)
    | some lhs => do
      let rhs ← lexCast r.content
      evalComparison lhs op rhs
  else if r.type = .identifier && isConfig r.content then
    -- as numbers if both are, otherwise as strings
    match session.strtoll (session.kernelConfig l.content),
      session.strtoll (session.kernelConfig r.content) with
    | some lhs, some rhs => evalComparison lhs op rhs
    | _, _ => evalComparison (session.kernelConfig l.content) op (session.kernelConfig r.content)
  else .error (.expectedConfigValue r)

/-- `eval_pp_conditional` -/
def evalPpConditional (l op r : PpToken) : Except PpError Bool :=
  if l.type = .identifier && (l.content = "kernel_v" || l.content = "kernel_vr") then
    evalVersion session
      (if l.content = "kernel_vr" then session.kernelRelease else session.kernelBaseRelease) op r
  else if l.type = .identifier && l.content = "arch" then
    if r.type ≠ .string then .error (.expectedString r)
    else evalMatch (session.fnmatch r.content session.architecture) op
  else if l.type = .identifier && isConfig l.content then evalConfig session l op r
  else if l.type = .string && r.type = .string then evalComparison l.content op r.content
  else if l.type = .number && r.type = .number then do
    let lhs ← lexCast l.content
    let rhs ← lexCast r.content
    evalComparison lhs op rhs
  else if l.type = .string && r.type = .number && op.type = .operator then
    .error (.expectedStringRight r)
  else if l.type = .number && r.type = .string && op.type = .operator then
    .error (.expectedNumberRight r)
  else .error (.unknownCondition l)

/-! ## Scanning -/

/-- What one call of `input.scan` does. -/
inductive Scanned where
  | token (t : PpToken)
  | throws (what : String)
deriving DecidableEq, Repr

structure PpState where
  input : List Scanned
  /-- `enqueued_pp` -/
  enqueued : List PpToken
deriving DecidableEq, Repr

abbrev PpM (α : Type) : Type := Pull PpError PpState α

/-- `input.scan` -/
def scan : PpM (Option PpToken) := fun s =>
  match s.input with
  | [] => .ok none s
  | .token t :: rest => .ok (some t) { s with input := rest }
  | .throws what :: rest => .error (.lexical what) { s with input := rest }

/-- One pass of the loop over the comparisons of a condition. -/
def conditionStep (t : PpToken) (loop : Bool → Bool → PpM (Bool × Option PpToken))
    (result andResult : Bool) : PpM (Bool × Option PpToken) := do
  let l ← scan
  let op ← scan
  let r ← scan
  match l, op, r with
  | some l, some op, some r => do
    let value ← Pull.lift (evalPpConditional session l op r)
    let n ← scan
    if isOp n "&&" then loop result (andResult && value)
    else if isOp n "||" then loop (result || (andResult && value)) true
    else return (result || (andResult && value), n)
  | _, _, _ => Pull.throw (.incompleteCondition t)

/-- The condition after the `%(` that is `t`, and the token after it. -/
def scanCondition (t : PpToken) : Nat → Bool → Bool → PpM (Bool × Option PpToken)
  | 0 => fun _ _ => Pull.spent
  | fuel + 1 => conditionStep session t (scanCondition t fuel)

/-- Where a loop over the tokens of a branch stands: the groups open inside it, how many of them have
had their `%?`, and the tokens kept. -/
structure Branch where
  nesting : Int
  thens : Int
  kept : List PpToken
deriving DecidableEq, Repr

/-- Where the token `m` leaves the loop, if it does not end the branch. -/
def Branch.next (b : Branch) (isThen keep : Bool) (m : PpToken) : Except PpError (Option Branch) :=
  let nesting := if m.is "%(" then b.nesting + 1 else b.nesting
  let thens := if m.is "%?" then b.thens + 1 else b.thens
  if m.is "%?" && nesting ≠ thens then .error (.missingOpen m)
  else if nesting = 0 && ((isThen && m.is "%:") || m.is "%)") then .ok none
  else
    let closes := nesting ≠ 0 && m.is "%)"
    .ok (some {
      nesting := if closes then nesting - 1 else nesting
      thens := if closes then thens - 1 else thens
      kept := if keep then b.kept ++ [m] else b.kept })

/-- One pass of the loop over the THEN tokens, or over the ELSE tokens, with what the scan gave. -/
def branchStep (t : PpToken) (isThen keep : Bool) (loop : Branch → PpM (List PpToken × Option PpToken))
    (b : Branch) : Except PpError (Option PpToken) → PpM (List PpToken × Option PpToken)
  | .error e => if keep then Pull.throw e else loop b
  | .ok none => Pull.throw (if isThen then .missingElse t else .missingEnd t)
  | .ok (some m) =>
    match b.next isThen keep m with
    | .error e => Pull.throw e
    | .ok none => pure (b.kept, some m)
    | .ok (some b) => loop b

/-- The loop over the tokens of a branch: `pull` is `scan_pp`. -/
def scanBranch (pull : PpM (Option PpToken)) (t : PpToken) (isThen keep : Bool) :
    Nat → Branch → PpM (List PpToken × Option PpToken)
  | 0 => fun _ => Pull.spent
  | fuel + 1 => fun b =>
    (if keep then pull else scan).attempt >>=
      branchStep t isThen keep (scanBranch pull t isThen keep fuel) b

/-- Everything after the `%(` that is `t`, up to its `%)`. -/
def groupStep (t : PpToken) (condition : PpM (Bool × Option PpToken))
    (branch : Bool → Bool → Branch → PpM (List PpToken × Option PpToken)) : PpM Unit :=
  condition >>= fun c =>
    if !isOp c.2 "%?" then Pull.throw (.expectedThen t)
    else branch true c.1 ⟨0, 0, []⟩ >>= fun th =>
      if isOp th.2 "%:" then
        branch false (!c.1) ⟨0, 0, th.1⟩ >>= fun el =>
          Pull.modify fun s => { s with enqueued := s.enqueued ++ el.1 }
      else Pull.modify fun s => { s with enqueued := s.enqueued ++ th.1 }

def scanGroup (pull : PpM (Option PpToken)) (fuel : Nat) (t : PpToken) : PpM Unit :=
  groupStep t (scanCondition session t fuel false true) fun isThen keep =>
    scanBranch pull t isThen keep fuel

/-- One pass of `scan_pp`, with the work at a `%(` and the passes after it. -/
def ppStep (group : PpToken → PpM Unit) (again : PpM (Option PpToken)) : PpM (Option PpToken) := fun s =>
  match s.enqueued, s.input with
  | t :: rest, _ => .ok (some t) { s with enqueued := rest }
  | [], [] => .ok none s
  | [], .throws what :: rest => .error (.lexical what) { s with input := rest }
  | [], .token t :: rest =>
    if t.is "%(" then (group t >>= fun _ => again) { s with input := rest }
    else .ok (some t) { s with input := rest }

/-- `parser::scan_pp` -/
def scanPp : Nat → PpM (Option PpToken)
  | 0 => Pull.spent
  | fuel + 1 => ppStep (scanGroup session (scanPp fuel) fuel) (scanPp fuel)

/-- What the caller does with one token, and with the rest of them. -/
def deliverStep (rest : PpM (List PpToken × Option PpError)) :
    Except PpError (Option PpToken) → PpM (List PpToken × Option PpError)
  | .error e => pure ([], some e)
  | .ok none => pure ([], none)
  | .ok (some t) => rest >>= fun r => pure (t :: r.1, r.2)

/-- The tokens that the calls of `scan_pp` deliver up to the end of the input or to an error. -/
def deliver : Nat → PpM (List PpToken × Option PpError)
  | 0 => Pull.spent
  | fuel + 1 => (scanPp session fuel).attempt >>= deliverStep (deliver fuel)

/-! ## More fuel

Each function with more fuel, or with a `pull` that has more, does the same wherever it does anything.
-/

section Grows

theorem conditionStep_le (t : PpToken) {loop loop' : Bool → Bool → PpM (Bool × Option PpToken)}
    (h : ∀ r a, (loop r a).Le (loop' r a)) (result andResult : Bool) :
    (conditionStep session t loop result andResult).Le
      (conditionStep session t loop' result andResult) := by
  refine .bind (.refl _) fun l => .bind (.refl _) fun op => .bind (.refl _) fun r => ?_
  split
  · refine .bind (.refl _) fun value => .bind (.refl _) fun n => ?_
    split
    · exact h _ _
    · split
      · exact h _ _
      · exact .refl _
  · exact .refl _

theorem scanCondition_grows (t : PpToken) (result andResult : Bool) :
    Grows fun n => scanCondition session t n result andResult := by
  intro n
  induction n generalizing result andResult with
  | zero => exact .spent _
  | succ n ih => exact conditionStep_le session t ih result andResult

theorem branchStep_le (t : PpToken) (isThen keep : Bool)
    {loop loop' : Branch → PpM (List PpToken × Option PpToken)} (h : ∀ b, (loop b).Le (loop' b))
    (b : Branch) (m : Except PpError (Option PpToken)) :
    (branchStep t isThen keep loop b m).Le (branchStep t isThen keep loop' b m) := by
  unfold branchStep
  split
  · split
    · exact .refl _
    · exact h b
  · exact .refl _
  · split
    · exact .refl _
    · exact .refl _
    · exact h _

theorem scanBranch_grows (pull : PpM (Option PpToken)) (t : PpToken) (isThen keep : Bool) (b : Branch) :
    Grows fun n => scanBranch pull t isThen keep n b := by
  intro n
  induction n generalizing b with
  | zero => exact .spent _
  | succ n ih => exact .bind (.refl _) (branchStep_le t isThen keep ih b)

theorem scanBranch_le {pull pull' : PpM (Option PpToken)} (h : pull.Le pull') (t : PpToken)
    (isThen keep : Bool) (n : Nat) (b : Branch) :
    (scanBranch pull t isThen keep n b).Le (scanBranch pull' t isThen keep n b) := by
  induction n generalizing b with
  | zero => exact .refl _
  | succ n ih =>
    refine .bind ?_ (branchStep_le t isThen keep ih b)
    cases keep with
    | true => exact h.attempt
    | false => exact .refl _

theorem scanBranch_scanPp_le {m n : Nat} (hpp : (scanPp session m).Le (scanPp session n)) (t : PpToken)
    (isThen keep : Bool) (k : Nat) (b : Branch) :
    (scanBranch (scanPp session m) t isThen keep k b).Le
      (scanBranch (scanPp session n) t isThen keep (k + 1) b) :=
  (scanBranch_le hpp t isThen keep k b).trans (scanBranch_grows _ t isThen keep b k)

theorem groupStep_le (t : PpToken) {condition condition' : PpM (Bool × Option PpToken)}
    {branch branch' : Bool → Bool → Branch → PpM (List PpToken × Option PpToken)}
    (hc : condition.Le condition')
    (hb : ∀ isThen keep b, (branch isThen keep b).Le (branch' isThen keep b)) :
    (groupStep t condition branch).Le (groupStep t condition' branch') := by
  refine .bind hc fun c => ?_
  split
  · exact .refl _
  · refine .bind (hb _ _ _) fun th => ?_
    split
    · exact .bind (hb _ _ _) fun _ => .refl _
    · exact .refl _

theorem scanGroup_le {m n : Nat} (hpp : (scanPp session m).Le (scanPp session n)) (k : Nat)
    (t : PpToken) :
    (scanGroup session (scanPp session m) k t).Le (scanGroup session (scanPp session n) (k + 1) t) :=
  groupStep_le t (scanCondition_grows session t false true k) fun isThen keep b =>
    scanBranch_scanPp_le session hpp t isThen keep k b

theorem ppStep_le {group group' : PpToken → PpM Unit} {again again' : PpM (Option PpToken)}
    (hg : ∀ t, (group t).Le (group' t)) (ha : again.Le again') :
    (ppStep group again).Le (ppStep group' again') := by
  intro s
  unfold ppStep
  split
  · exact .refl _
  · exact .refl _
  · exact .refl _
  · split
    · exact Pull.Le.bind (hg _) (fun _ => ha) _
    · exact .refl _

theorem scanPp_grows : Grows (scanPp session) := by
  intro n
  induction n with
  | zero => exact .spent _
  | succ n ih => exact ppStep_le (scanGroup_le session ih n) ih

theorem deliverStep_le {rest rest' : PpM (List PpToken × Option PpError)} (h : rest.Le rest')
    (m : Except PpError (Option PpToken)) : (deliverStep rest m).Le (deliverStep rest' m) := by
  unfold deliverStep
  split
  · exact .refl _
  · exact .refl _
  · exact .bind h fun _ => .refl _

theorem deliver_grows : Grows (deliver session) := by
  intro n
  induction n with
  | zero => exact .spent _
  | succ n ih => exact .bind (scanPp_grows session n).attempt (deliverStep_le ih)

end Grows

/-! ## Without fuel

The limits of the functions above, and the equations that are theirs.
-/

noncomputable def condition (t : PpToken) (result andResult : Bool) : PpM (Bool × Option PpToken) :=
  lim fun n => scanCondition session t n result andResult

noncomputable def pp : PpM (Option PpToken) := lim (scanPp session)

noncomputable def branch (t : PpToken) (isThen keep : Bool) (b : Branch) :
    PpM (List PpToken × Option PpToken) :=
  lim fun n => scanBranch (scanPp session n) t isThen keep n b

noncomputable def group (t : PpToken) : PpM Unit :=
  lim fun n => scanGroup session (scanPp session n) n t

noncomputable def delivery : PpM (List PpToken × Option PpError) := lim (deliver session)

section Limit

open Lib

theorem condition_eq (t : PpToken) (result andResult : Bool) :
    condition session t result andResult =
      conditionStep session t (condition session t) result andResult := by
  have hloop (r a : Bool) := (scanCondition_grows session t r a).converges
  refine (hloop result andResult).shift.unique ?_
  refine .bind (.const _) fun l => .bind (.const _) fun op => .bind (.const _) fun r => ?_
  split
  · refine .bind (.const _) fun value => .bind (.const _) fun n => ?_
    split
    · exact hloop _ _
    · split
      · exact hloop _ _
      · exact .const _
  · exact .const _

theorem branchStep_converges (t : PpToken) (isThen keep : Bool)
    {loop : Nat → Branch → PpM (List PpToken × Option PpToken)}
    {loop' : Branch → PpM (List PpToken × Option PpToken)}
    (h : ∀ b, Converges (fun n => loop n b) (loop' b)) (b : Branch)
    (m : Except PpError (Option PpToken)) :
    Converges (fun n => branchStep t isThen keep (loop n) b m) (branchStep t isThen keep loop' b m) := by
  unfold branchStep
  split
  · split
    · exact .const _
    · exact h b
  · exact .const _
  · split
    · exact .const _
    · exact .const _
    · exact h _

theorem scanPp_converges : Converges (scanPp session) (pp session) := (scanPp_grows session).converges

theorem scanBranch_converges (t : PpToken) (isThen keep : Bool) (b : Branch) :
    Converges (fun n => scanBranch (scanPp session n) t isThen keep n b)
      (branch session t isThen keep b) :=
  Grows.converges fun n => scanBranch_scanPp_le session (scanPp_grows session n) t isThen keep n b

theorem scanGroup_converges (t : PpToken) :
    Converges (fun n => scanGroup session (scanPp session n) n t) (group session t) :=
  Grows.converges fun n => scanGroup_le session (scanPp_grows session n) n t

theorem branch_eq (t : PpToken) (isThen keep : Bool) (b : Branch) :
    branch session t isThen keep b = (if keep then pp session else scan).attempt >>=
      branchStep t isThen keep (branch session t isThen keep) b := by
  refine (scanBranch_converges session t isThen keep b).shift.unique ?_
  refine .bind ?_ (branchStep_converges t isThen keep (fun b => ?_) b)
  · cases keep with
    | true => exact (scanPp_converges session).shift.attempt
    | false => exact .const (Pull.attempt scan)
  · -- the loop has used fuel that its calls still have
    refine (scanBranch_converges session t isThen keep b).between (fun n => ?_) fun n => ?_
    · exact scanBranch_le (scanPp_grows session n) t isThen keep n b
    · exact scanBranch_grows _ t isThen keep b n

theorem group_eq (t : PpToken) :
    group session t = groupStep t (condition session t false true) (branch session t) := by
  refine (scanGroup_converges session t).unique ?_
  refine .bind (scanCondition_grows session t false true).converges fun c => ?_
  split
  · exact .const _
  · refine .bind (scanBranch_converges session t true _ _) fun th => ?_
    split
    · exact .bind (scanBranch_converges session t false _ _) fun _ => .const _
    · exact .const _

theorem pp_eq : pp session = ppStep (group session) (pp session) := by
  refine (scanPp_converges session).shift.unique fun s => ?_
  obtain ⟨input, enqueued⟩ := s
  cases enqueued with
  | cons t rest => exact ⟨0, fun _ _ => rfl⟩
  | nil =>
    cases input with
    | nil => exact ⟨0, fun _ _ => rfl⟩
    | cons c rest =>
      cases c with
      | throws what => exact ⟨0, fun _ _ => rfl⟩
      | token t =>
        by_cases ht : t.is "%("
        · obtain ⟨n, hn⟩ := Converges.bind (scanGroup_converges session t)
            (fun _ => scanPp_converges session) ⟨rest, []⟩
          refine ⟨n, fun m hm => ?_⟩
          simp only [scanPp, ppStep, ht, if_true]
          exact hn m hm
        · refine ⟨0, fun m _ => ?_⟩
          simp only [scanPp, ppStep, ht]
          rfl

theorem delivery_eq : delivery session = (pp session).attempt >>= deliverStep (delivery session) := by
  have hdeliver := (deliver_grows session).converges
  refine hdeliver.shift.unique (.bind (scanPp_converges session).attempt fun m => ?_)
  unfold deliverStep
  split
  · exact .const _
  · exact .const _
  · exact .bind hdeliver fun _ => .const _

end Limit

/-! ## What is read -/

/-- Reading takes away from the input. -/
def Reads {α : Type} (x : PpM α) : Prop :=
  ∀ s, (x s).Ends fun s' => s'.input.length ≤ s.input.length

namespace Reads

variable {α β : Type}

theorem pure (a : α) : Reads (Pure.pure a) := fun _ => le_refl _

theorem throw (e : PpError) : Reads (Pull.throw e : PpM α) := fun _ => le_refl _

theorem spent : Reads (Pull.spent : PpM α) := fun _ => trivial

theorem lift (x : Except PpError α) : Reads (Pull.lift x) := by
  intro s
  cases x with
  | ok a => exact le_refl _
  | error e => exact le_refl _

theorem bind {x : PpM β} {k : β → PpM α} (hx : Reads x) (hk : ∀ b, Reads (k b)) : Reads (x >>= k) :=
  fun s => Pulled.Ends.bind (hx s) fun b s' hs' => (hk b s').mono fun _ h => h.trans hs'

theorem attempt {x : PpM α} (hx : Reads x) : Reads x.attempt := fun s => (hx s).attempt

/-- What has been read less stays read. -/
theorem below {x : PpM α} (hx : Reads x) {k : Nat} {s : PpState} (hs : s.input.length < k) :
    (x s).Ends fun s' => s'.input.length < k :=
  (hx s).mono fun _ h => h.trans_lt hs

theorem converges {f : Nat → PpM α} {x : PpM α} (hx : Lib.Converges f x) (hf : ∀ n, Reads (f n)) :
    Reads x := by
  intro s
  obtain ⟨n, hn⟩ := hx s
  rw [← hn n (le_refl n)]
  exact hf n s

end Reads

theorem scan_reads : Reads scan := by
  intro s
  unfold scan
  split
  · exact le_refl _
  all_goals
    rename_i h
    simp only [Pulled.Ends, h, List.length_cons]
    omega

theorem scanCondition_reads (t : PpToken) (n : Nat) (result andResult : Bool) :
    Reads (scanCondition session t n result andResult) := by
  induction n generalizing result andResult with
  | zero => exact .spent
  | succ n ih =>
    refine .bind scan_reads fun l => .bind scan_reads fun op => .bind scan_reads fun r => ?_
    split
    · refine .bind (.lift _) fun value => .bind scan_reads fun n => ?_
      split
      · exact ih _ _
      · split
        · exact ih _ _
        · exact .pure _
    · exact .throw _

theorem branchStep_reads (t : PpToken) (isThen keep : Bool)
    {loop : Branch → PpM (List PpToken × Option PpToken)} (h : ∀ b, Reads (loop b)) (b : Branch)
    (m : Except PpError (Option PpToken)) : Reads (branchStep t isThen keep loop b m) := by
  unfold branchStep
  split
  · split
    · exact .throw _
    · exact h b
  · exact .throw _
  · split
    · exact .throw _
    · exact .pure _
    · exact h _

theorem scanBranch_reads {pull : PpM (Option PpToken)} (hpull : Reads pull) (t : PpToken)
    (isThen keep : Bool) (n : Nat) (b : Branch) : Reads (scanBranch pull t isThen keep n b) := by
  induction n generalizing b with
  | zero => exact .spent
  | succ n ih =>
    refine .bind (.attempt ?_) (branchStep_reads t isThen keep ih b)
    cases keep with
    | true => exact hpull
    | false => exact scan_reads

theorem scanGroup_reads {pull : PpM (Option PpToken)} (hpull : Reads pull) (n : Nat) (t : PpToken) :
    Reads (scanGroup session pull n t) := by
  refine .bind (scanCondition_reads session t n false true) fun c => ?_
  split
  · exact .throw _
  · refine .bind (scanBranch_reads hpull t _ _ n _) fun th => ?_
    split
    · exact .bind (scanBranch_reads hpull t _ _ n _) fun _ _ => le_refl _
    · exact fun _ => le_refl _

theorem ppStep_reads {group : PpToken → PpM Unit} {again : PpM (Option PpToken)}
    (hg : ∀ t, Reads (group t)) (ha : Reads again) : Reads (ppStep group again) := by
  intro s
  obtain ⟨input, enqueued⟩ := s
  cases enqueued with
  | cons t rest => exact le_refl _
  | nil =>
    cases input with
    | nil => exact le_refl _
    | cons c rest =>
      cases c with
      | throws what => exact Nat.le_succ _
      | token t =>
        show Pulled.Ends _ (if t.is "%(" then (group t >>= fun _ => again) ⟨rest, []⟩
          else .ok (some t) ⟨rest, []⟩)
        split
        · exact ((hg t).bind (fun _ => ha) ⟨rest, []⟩).mono fun _ h => Nat.le_succ_of_le h
        · exact Nat.le_succ _

theorem scanPp_reads (n : Nat) : Reads (scanPp session n) := by
  induction n with
  | zero => exact .spent
  | succ n ih => exact ppStep_reads (scanGroup_reads session ih n) ih

theorem branch_reads (t : PpToken) (isThen keep : Bool) (b : Branch) :
    Reads (branch session t isThen keep b) :=
  .converges (scanBranch_converges session t isThen keep b) fun n =>
    scanBranch_reads (scanPp_reads session n) t isThen keep n b

theorem group_reads (t : PpToken) : Reads (group session t) :=
  .converges (scanGroup_converges session t) fun n => scanGroup_reads session (scanPp_reads session n) n t

theorem delivery_reads : Reads (delivery session) := by
  refine .converges (deliver_grows session).converges fun n => ?_
  induction n with
  | zero => exact .spent
  | succ n ih =>
    refine .bind (scanPp_reads session n).attempt fun m => ?_
    unfold deliverStep
    split
    · exact .pure _
    · exact .pure _
    · exact .bind ih fun _ => .pure _

end

end Systemtap.Lex
