import Systemtap.Lex.Preprocess

/-!
# What the preprocessor is for

The expansion of a token stream, by recursion over its groups. A group is `%( CONDITION %?`, the tokens
of its first branch, perhaps `%:` and the tokens of a second, and `%)`; the condition is a disjunction
of conjunctions of comparisons. Of a group in the text the tokens of one branch remain, with the groups
among them expanded; nothing inside the other branch is looked at, except to find where it ends.

A group that is not of this form stops the expansion, and so does a comparison whose number is none.
Only a group inside a branch that is dropped may have any form; what is made of it is left open.

The functions recurse on fuel, and the length of the input is enough of it (`exists_expansion`).
-/

namespace Systemtap.Lex

open Nat

open Lib (Pull Pulled)

/-- Why an expansion stops. -/
inductive Fault where
  /-- The text is not a group. -/
  | malformed
  /-- A group has a `%:` after its `%:`. -/
  | second
  /-- A number is not a decimal number of 64 bits. -/
  | number
  /-- A group in a dropped branch is malformed. -/
  | loose
deriving DecidableEq, Repr

abbrev Expand (α : Type) : Type := Pull Fault (List Scanned) α

namespace Expand

def read : Expand (Option PpToken)
  | [] => .ok none []
  | .token t :: rest => .ok (some t) rest
  | .throws _ :: rest => .error .malformed rest

/-- In a dropped branch the errors of the lexer are dropped too. -/
def readAny : Expand (Option PpToken)
  | [] => .ok none []
  | .token t :: rest => .ok (some t) rest
  | .throws _ :: rest => readAny rest

variable (session : PpSession)

def comparison (l op r : PpToken) : Expand Bool :=
  match evalPpConditional session l op r with
  | .ok value => pure value
  | .error e => Pull.throw (if e.isParseError then .malformed else .number)

/-- A conjunction, and the token after it. -/
def conjunction : Nat → Expand (Bool × Option PpToken)
  | 0 => Pull.spent
  | fuel + 1 => do
    let some l ← read | Pull.throw .malformed
    let some op ← read | Pull.throw .malformed
    let some r ← read | Pull.throw .malformed
    let value ← comparison session l op r
    let m ← read
    if isOp m "&&" then
      let rest ← conjunction fuel
      return (value && rest.1, rest.2)
    else return (value, m)

/-- A disjunction, and the token after it. -/
def disjunction : Nat → Expand (Bool × Option PpToken)
  | 0 => Pull.spent
  | fuel + 1 => do
    let first ← conjunction session (fuel + 1)
    if isOp first.2 "||" then
      let rest ← disjunction fuel
      return (first.1 || rest.1, rest.2)
    else return first

/-- The parts of a group. -/
inductive Part where
  | condition
  | thenTokens
  | elseTokens
deriving DecidableEq, Repr

/-- A group inside a dropped branch, from somewhere in the given part up to its `%)`. -/
def skip : Nat → Part → Expand Unit
  | 0, _ => Pull.spent
  | fuel + 1, part => do
    let some m ← readAny | Pull.throw .malformed
    if m.is "%(" then
      if part = .condition then Pull.throw .loose
      else do
        skip fuel .condition
        skip fuel part
    else if m.is "%)" then
      if part = .condition then Pull.throw .loose else return ()
    else if m.is "%:" then
      if part = .thenTokens then skip fuel .elseTokens else Pull.throw .loose
    else if m.is "%?" then
      if part = .condition then skip fuel .thenTokens else Pull.throw .loose
    else skip fuel part

/-- A dropped branch, up to the marker that ends it. -/
def dropped : Nat → Bool → Expand PpToken
  | 0, _ => Pull.spent
  | fuel + 1, isThen => do
    let some m ← readAny | Pull.throw .malformed
    if m.is "%(" then do
      skip fuel .condition
      dropped fuel isThen
    else if m.is "%)" then return m
    else if m.is "%:" then if isThen then return m else Pull.throw .second
    else if m.is "%?" then Pull.throw .malformed
    else dropped fuel isThen

/-- A group in the text, after its `%(`, with what a branch that is kept expands to. -/
def groupWith (kept : Bool → Expand (List PpToken × PpToken)) (fuel : Nat) : Expand (List PpToken) := do
  let c ← disjunction session fuel
  if !isOp c.2 "%?" then Pull.throw .malformed
  else if c.1 then
    let th ← kept true
    if th.2.is "%:" then
      let _ ← dropped fuel false
      return th.1
    else return th.1
  else
    let m ← dropped fuel true
    if m.is "%:" then
      let el ← kept false
      return el.1
    else return []

/-- The expansion of a branch that is kept, and the marker that ends it. -/
def kept : Nat → Bool → Expand (List PpToken × PpToken)
  | 0, _ => Pull.spent
  | fuel + 1, isThen => do
    let some m ← read | Pull.throw .malformed
    if m.is "%(" then
      let ts ← groupWith session (kept fuel) fuel
      let us ← kept fuel isThen
      return (ts ++ us.1, us.2)
    else if m.is "%)" then return ([], m)
    else if m.is "%:" then if isThen then return ([], m) else Pull.throw .second
    else if m.is "%?" then Pull.throw .malformed
    else
      let us ← kept fuel isThen
      return (m :: us.1, us.2)

/-- The tokens of a text, after a piece of it. -/
def andThen (rest : Expand (List PpToken × Option Fault)) :
    Except Fault (List PpToken) → Expand (List PpToken × Option Fault)
  | .error f => pure ([], some f)
  | .ok ts => do
    let us ← rest
    return (ts ++ us.1, us.2)

/-- The tokens of a text up to its end, or up to the fault that stops it. -/
def all : Nat → Expand (List PpToken × Option Fault)
  | 0 => Pull.spent
  | fuel + 1 => fun i =>
    match i with
    | [] => .ok ([], none) []
    | .throws _ :: rest => .ok ([], some .malformed) rest
    | .token t :: rest =>
      if t.is "%(" then
        ((groupWith session (kept session fuel) fuel).attempt >>= andThen (all fuel)) rest
      else andThen (all fuel) (.ok [t]) rest

/-! ## The length of the input is enough fuel -/

/-- On an input shorter than `n` there is an outcome, and it leaves no more than there was. -/
def Covers {α : Type} (n : Nat) (x : Expand α) : Prop :=
  ∀ i, i.length < n → x i ≠ .spent ∧ (x i).Ends fun i' => i'.length ≤ i.length

namespace Covers

variable {α β : Type} {n : Nat}

theorem pure (a : α) : Covers n (Pure.pure a) := fun _ _ => ⟨nofun, le_refl _⟩

theorem throw (f : Fault) : Covers n (Pull.throw f : Expand α) := fun _ _ => ⟨nofun, le_refl _⟩

theorem bind {x : Expand β} {k : β → Expand α} (hx : Covers n x) (hk : ∀ b, Covers n (k b)) :
    Covers n (x >>= k) := by
  intro i hi
  obtain ⟨hne, hends⟩ := hx i hi
  cases hxi : x i with
  | ok b i' =>
    rw [hxi] at hends
    have hle : i'.length ≤ i.length := hends
    obtain ⟨hne', hends'⟩ := hk b i' (by omega)
    rw [Pull.bind_of_ok hxi]
    exact ⟨hne', hends'.mono fun _ h => h.trans hle⟩
  | error f i' =>
    rw [Pull.bind_of_error hxi]
    rw [hxi] at hends
    exact ⟨nofun, hends⟩
  | spent => exact absurd hxi hne

variable {k : Option PpToken → Expand α}

/-- A token that has been read leaves the rest with one unit of fuel less. -/
theorem read_bind (hnone : Covers (n + 1) (k none))
    (hsome : ∀ m, Covers n (k (some m))) : Covers (n + 1) (read >>= k) := by
  intro i hi
  cases i with
  | nil => exact hnone [] hi
  | cons c rest =>
    cases c with
    | throws what => exact ⟨nofun, le_succ _⟩
    | token m =>
      obtain ⟨hne, hends⟩ := hsome m rest (lt_of_succ_lt_succ hi)
      exact ⟨hne, hends.mono fun _ h => le_succ_of_le h⟩

theorem readAny_bind (hnone : Covers (n + 1) (k none))
    (hsome : ∀ m, Covers n (k (some m))) : Covers (n + 1) (readAny >>= k) := by
  intro i hi
  induction i with
  | nil => exact hnone [] hi
  | cons c rest ih =>
    cases c with
    | throws what =>
      obtain ⟨hne, hends⟩ := ih (lt_of_succ_lt hi)
      exact ⟨hne, hends.mono fun _ h => le_succ_of_le h⟩
    | token m =>
      obtain ⟨hne, hends⟩ := hsome m rest (lt_of_succ_lt_succ hi)
      exact ⟨hne, hends.mono fun _ h => le_succ_of_le h⟩

/-- Where the end of the input is a fault, an outcome leaves less than there was. -/
theorem read_bind_lt {f : Fault} (hnone : k none = Pull.throw f)
    (hsome : ∀ m, Covers n (k (some m))) : Covers (n + 1) (read >>= k) ∧
      ∀ i a i', i.length < n + 1 → (read >>= k) i = .ok a i' → i'.length < i.length := by
  refine ⟨read_bind (hnone ▸ .throw f) hsome, fun i a i' hi h => ?_⟩
  cases i with
  | nil => cases (congrFun hnone []).symm.trans h
  | cons c rest =>
    cases c with
    | throws what => cases h
    | token m =>
      have hends := (hsome m rest (lt_of_succ_lt_succ hi)).2
      rw [show k (some m) rest = .ok a i' from h] at hends
      exact lt_succ_of_le hends

end Covers

theorem covers_read (n : Nat) : Covers n read := by
  intro i _
  cases i with
  | nil => exact ⟨nofun, le_refl _⟩
  | cons c rest =>
    cases c with
    | throws what => exact ⟨nofun, le_succ _⟩
    | token m => exact ⟨nofun, le_succ _⟩

theorem covers_comparison (n : Nat) (l op r : PpToken) : Covers n (comparison session l op r) := by
  unfold comparison
  split
  · exact .pure _
  · exact .throw _

theorem covers_conjunction (n : Nat) : Covers n (conjunction session n) ∧
    ∀ i a i', i.length < n → conjunction session n i = .ok a i' → i'.length < i.length := by
  induction n with
  | zero =>
    exact ⟨fun _ hi => absurd hi (not_lt_zero _), fun _ _ _ hi => absurd hi (not_lt_zero _)⟩
  | succ n ih =>
    refine Covers.read_bind_lt rfl fun l => .bind (covers_read n) fun op => ?_
    split
    · refine .bind (covers_read n) fun r => ?_
      split
      · refine .bind (covers_comparison session n _ _ _) fun value => ?_
        refine .bind (covers_read n) fun m => ?_
        split
        · exact .bind ih.1 fun _ => .pure _
        · exact .pure _
      · exact .throw _
    · exact .throw _

theorem covers_disjunction (n : Nat) : Covers n (disjunction session n) := by
  induction n with
  | zero => exact fun i hi => absurd hi (not_lt_zero _)
  | succ n ih =>
    intro i hi
    obtain ⟨hcovers, hlt⟩ := covers_conjunction session (n + 1)
    obtain ⟨hne, hends⟩ := hcovers i hi
    unfold disjunction
    cases hc : conjunction session (n + 1) i with
    | ok a i' =>
      have hless : i'.length < i.length := hlt i a i' hi hc
      have hrest : Covers n (if isOp a.2 "||" then (do
          let rest ← disjunction session n
          return (a.1 || rest.1, rest.2)) else return a) := by
        split
        · exact .bind ih fun _ => .pure _
        · exact .pure _
      obtain ⟨hne', hends'⟩ := hrest i' (by omega)
      rw [Pull.bind_of_ok hc]
      exact ⟨hne', hends'.mono fun _ h => h.trans hless.le⟩
    | error f i' =>
      rw [Pull.bind_of_error hc]
      rw [hc] at hends
      exact ⟨nofun, hends⟩
    | spent => exact absurd hc hne

theorem covers_skip (n : Nat) (part : Part) : Covers n (skip n part) := by
  induction n generalizing part with
  | zero => exact fun i hi => absurd hi (not_lt_zero _)
  | succ n ih =>
    refine .readAny_bind (.throw _) fun m => ?_
    dsimp only
    split_ifs
    · exact .throw _
    · exact .bind (ih _) fun _ => ih _
    · exact .throw _
    · exact .pure _
    · exact ih _
    · exact .throw _
    · exact ih _
    · exact .throw _
    · exact ih _

theorem covers_dropped (n : Nat) (isThen : Bool) : Covers n (dropped n isThen) := by
  induction n with
  | zero => exact fun i hi => absurd hi (not_lt_zero _)
  | succ n ih =>
    refine .readAny_bind (.throw _) fun m => ?_
    dsimp only
    split_ifs
    · exact .bind (covers_skip n _) fun _ => ih
    · exact .pure _
    · exact .pure _
    · exact .throw _
    · exact .throw _
    · exact ih

theorem covers_groupWith {n : Nat} {kept : Bool → Expand (List PpToken × PpToken)}
    (hkept : ∀ isThen, Covers n (kept isThen)) : Covers n (groupWith session kept n) := by
  refine .bind (covers_disjunction session n) fun c => ?_
  split
  · exact .throw _
  · split
    · refine .bind (hkept true) fun th => ?_
      split
      · exact .bind (covers_dropped n false) fun _ => .pure _
      · exact .pure _
    · refine .bind (covers_dropped n true) fun m => ?_
      split
      · exact .bind (hkept false) fun _ => .pure _
      · exact .pure _

theorem covers_kept (n : Nat) (isThen : Bool) : Covers n (kept session n isThen) := by
  induction n generalizing isThen with
  | zero => exact fun i hi => absurd hi (not_lt_zero _)
  | succ n ih =>
    refine .read_bind (.throw _) fun m => ?_
    dsimp only
    split_ifs
    · exact .bind (covers_groupWith session ih) fun _ => .bind (ih isThen) fun _ => .pure _
    · exact .pure _
    · exact .pure _
    · exact .throw _
    · exact .throw _
    · exact .bind (ih isThen) fun _ => .pure _

theorem all_plain {t : PpToken} (ht : t.is "%(" = false) (n : Nat) (rest : List Scanned) :
    all session (n + 1) (.token t :: rest) = andThen (all session n) (.ok [t]) rest := by
  simp only [all, ht, Bool.false_eq_true, if_false]

theorem all_open {t : PpToken} (ht : t.is "%(" = true) (n : Nat) (rest : List Scanned) :
    all session (n + 1) (.token t :: rest) =
      ((groupWith session (kept session n) n).attempt >>= andThen (all session n)) rest := by
  simp only [all, ht, if_true]

theorem exists_all (n : Nat) (i : List Scanned) (hi : i.length < n) :
    ∃ r rest, all session n i = .ok r rest := by
  induction n generalizing i with
  | zero => exact absurd hi (not_lt_zero _)
  | succ n ih =>
    have hthen (ts : List PpToken) (rest : List Scanned) (hrest : rest.length < n) :
        ∃ r rest', andThen (all session n) (.ok ts) rest = .ok r rest' := by
      obtain ⟨r, rest', hr⟩ := ih rest hrest
      exact ⟨_, _, Pull.bind_of_ok hr⟩
    cases i with
    | nil => exact ⟨_, _, rfl⟩
    | cons c rest =>
      cases c with
      | throws what => exact ⟨_, _, rfl⟩
      | token t =>
        have hrest : rest.length < n := lt_of_succ_lt_succ hi
        cases ht : t.is "%(" with
        | false =>
          rw [all_plain session ht]
          exact hthen [t] rest hrest
        | true =>
          rw [all_open session ht]
          obtain ⟨hne, hends⟩ := covers_groupWith session (covers_kept session n) rest hrest
          cases hg : groupWith session (kept session n) n rest with
          | ok ts rest' =>
            rw [hg] at hends
            rw [Pull.bind_of_ok (Pull.attempt_of_ok hg)]
            exact hthen ts rest' (lt_of_le_of_lt hends hrest)
          | error f rest' =>
            rw [Pull.bind_of_ok (Pull.attempt_of_error hg)]
            exact ⟨_, _, rfl⟩
          | spent => exact absurd hg hne

end Expand

/-- The expansion of a token stream. -/
def expansion (session : PpSession) (input : List Scanned) :
    Pulled Fault (List Scanned) (List PpToken × Option Fault) :=
  Expand.all session (input.length + 1) input

theorem exists_expansion (session : PpSession) (input : List Scanned) :
    ∃ r rest, expansion session input = .ok r rest :=
  Expand.exists_all session _ input (lt_succ_self _)

end Systemtap.Lex
