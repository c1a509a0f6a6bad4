import Systemtap.Tree.Syntax

/-!
# Alias expansion

`derive_probes` looks up each location of a probe in the tree of probe point patterns and calls the
builders that are bound there. The builder of an alias makes a new probe from the locations of the
alias and derives that one in turn. What stops it is `checkForRecursiveExpansion`: a probe whose
alias has been used before in its chain of derivations is not expanded any more. So one alias can
occur twice in a chain, and it is at the next one that an error is reported.

The tree of patterns is arbitrary here, with any builders at any node, and so is `fnmatch`. The
builders other than those of aliases return without calling `derive_probes`, and what they give
depends on the components of the probe point only. There are no interrupts.
-/

namespace Systemtap.Elab

open Systemtap.Tree List Nat

/-! ## The code -/

inductive Literal where
  | number (value : I64)
  | string (value : Str)

/-- `probe_point::component` -/
structure Component where
  functor : String
  arg : Option Literal

structure ProbePoint where
  components : List Component
  optional : Bool
  sufficient : Bool
  condition : Option Expr

structure ProbeAlias where
  locations : List ProbePoint
  body : Stmt
  epilogueStyle : Bool

/-- `probe`, and `alias_derived_probe` with what it was derived from. -/
inductive UseProbe (α : Type) where
  | script (locations : List ProbePoint) (body : Stmt)
  | derived (base : UseProbe α) (a : α) (locations : List ProbePoint) (body : Stmt)

structure MatchKey where
  name : String
  haveParameter : Bool
  parameterType : ExpType
deriving DecidableEq

/-- `match_key (probe_point::component const &)` -/
def MatchKey.ofComponent (c : Component) : MatchKey where
  name := c.functor
  haveParameter := c.arg.isSome
  parameterType :=
    match c.arg with
    | none => .unknown
    | some (.number _) => .long
    | some (.string _) => .string

/-- `derived_probe_builder`: `alias_expansion_builder` for an alias, or another one. -/
inductive Builder (α β : Type) where
  | expansion (a : α)
  | other (b : β)

inductive MatchNode (α β : Type) where
  | mk (unprivilegedOk : Bool) (ends : List (Builder α β)) (sub : List (MatchKey × MatchNode α β))

def MatchNode.unprivilegedOk {α β : Type} : MatchNode α β → Bool
  | .mk ok _ _ => ok

def MatchNode.ends {α β : Type} : MatchNode α β → List (Builder α β)
  | .mk _ ends _ => ends

def MatchNode.sub {α β : Type} : MatchNode α β → List (MatchKey × MatchNode α β)
  | .mk _ _ sub => sub

/-- The errors that are thrown or printed. -/
inductive SemanticError where
  /-- `probe point truncated at position .. (follow: ..)` -/
  | truncated (pos : Nat) (follow : List MatchKey)
  /-- `probe point is not allowed for unprivileged users` -/
  | unprivileged
  /-- `probe point mismatch at position .. (alternatives: ..) didn't find any wildcard matches` -/
  | noWildcardMatch (pos : Nat) (alternatives : List MatchKey)
  /-- `probe point mismatch at position .. (alternatives: ..)` -/
  | mismatch (pos : Nat) (alternatives : List MatchKey)
  /-- `no match` -/
  | noMatch
  /-- `Recursive loop in alias expansion of ..` -/
  | recursiveLoop (location : ProbePoint)
  /-- What another builder throws. -/
  | builder (msg : String)

/-- An error that is printed, with the location if it is `while resolving probe point`. -/
structure Reported where
  error : SemanticError
  resolving : Option ProbePoint

/-- What another builder does with a probe point: the number of probes that it derives, and what it
throws. -/
structure Outcome where
  results : Nat
  error : Option String

structure DerivedProbe (α β : Type) where
  builder : β
  use : UseProbe α
  location : ProbePoint

/-- The part of `systemtap_session` that is used. -/
structure Patterns (α β : Type) where
  unprivileged : Bool
  patternRoot : MatchNode α β
  aliases : α → ProbeAlias
  fnmatch : String → String → Bool
  outcome : β → List Component → Outcome

/-- The vector of results, the errors that were printed, and all chains of nested expansions that
there have been. -/
structure Derivation (α β : Type) where
  results : List (DerivedProbe α β)
  errors : List Reported
  chains : List (List α)

namespace UseProbe

variable {α : Type}

def locations : UseProbe α → List ProbePoint
  | .script locations _ | .derived _ _ locations _ => locations

def body : UseProbe α → Stmt
  | .script _ body | .derived _ _ _ body => body

def getAlias : UseProbe α → Option α
  | .script _ _ => none
  | .derived _ a _ _ => some a

/-- `collect_derivation_chain` -/
def derivationChain : UseProbe α → List (UseProbe α)
  | .script locations body => [.script locations body]
  | .derived base a locations body => .derived base a locations body :: base.derivationChain

/-- The aliases of the chain, the last one first. -/
def chain (use : UseProbe α) : List α := use.derivationChain.filterMap getAlias

def checkForRecursiveExpansion [DecidableEq α] (use : UseProbe α) : Bool :=
  (use.derivationChain.drop 1).any fun d => use.getAlias = d.getAlias

end UseProbe

/-- `add_condition` -/
def addCondition : Option Expr → Option Expr → Option Expr
  | none, none => none
  | none, some b => some b
  | some a, none => some a
  | some a, some b => some (.logicalAnd .unknown a b)

/-- `isglob` -/
def isglob (str : String) : Bool := str.toList.contains '*'

namespace Derivation

variable {α β : Type}

def empty : Derivation α β := ⟨[], [], []⟩

/-- `print_error` -/
def report (d : Derivation α β) (r : Reported) : Derivation α β := { d with errors := d.errors ++ [r] }

def derive (d : Derivation α β) (ps : List (DerivedProbe α β)) : Derivation α β :=
  { d with results := d.results ++ ps }

def log (d : Derivation α β) (chain : List α) : Derivation α β :=
  { d with chains := d.chains ++ [chain] }

end Derivation

namespace Patterns

variable {α β : Type} [DecidableEq α] (s : Patterns α β)

/-- `match_key::globmatch` -/
def globmatch (key other : MatchKey) : Bool :=
  s.fnmatch key.name other.name && key.haveParameter = other.haveParameter &&
    key.parameterType = other.parameterType

/-- The new probe of `alias_expansion_builder::build`. -/
def expand (a : α) (use : UseProbe α) (location : ProbePoint) : UseProbe α :=
  .derived use a
    ((s.aliases a).locations.map fun pp =>
      { pp with condition := addCondition pp.condition location.condition })
    (if (s.aliases a).epilogueStyle then .block [use.body, (s.aliases a).body]
      else .block [(s.aliases a).body, use.body])

/-- `alias_expansion_builder::build`, where `derive` is `derive_probes` -/
def aliasBuild (derive : UseProbe α → Bool → Derivation α β → Option (Derivation α β))
    (use : UseProbe α) (a : α) (location : ProbePoint) (d : Derivation α β) :
    Option (Derivation α β) :=
  if use.checkForRecursiveExpansion then some (d.report ⟨.recursiveLoop location, none⟩)
  else derive (s.expand a use location) location.optional (d.log (s.expand a use location).chain)

section Traversal

variable (build : α → ProbePoint → Derivation α β → Option (Derivation α β)) (use : UseProbe α)

/-- The loop over the builders at a node. -/
def buildEnds (loc : ProbePoint) : List (Builder α β) → Derivation α β →
    Option (Derivation α β × Option SemanticError)
  | [], d => some (d, none)
  | .expansion a :: ends, d =>
    match build a loc d with
    | none => none
    | some d => buildEnds loc ends d
  | .other b :: ends, d =>
    let o := s.outcome b loc.components
    let d := d.derive (List.replicate o.results ⟨b, use, loc⟩)
    match o.error with
    | some msg => some (d, some (.builder msg))
    | none => buildEnds loc ends d

/-- The loop over the nodes that a wildcard can stand for; errors are dropped. -/
def globLoop (find : ProbePoint → MatchNode α β → Derivation α β →
    Option (Derivation α β × Option SemanticError)) (loc : ProbePoint) (pos : Nat) (c : Component) :
    List (MatchKey × MatchNode α β) → Derivation α β → Option (Derivation α β)
  | [], d => some d
  | (subkey, subnode) :: sub, d =>
    if s.globmatch (.ofComponent c) subkey then
      let component := { c with functor := subkey.name }
      match find { loc with components := loc.components.set pos component } subnode d with
      | none => none
      | some (d, _) => globLoop find loc pos c sub d
    else globLoop find loc pos c sub d

/-- `match_node::find_and_build`, with the components from `pos` on -/
def findAndBuild : List Component → Nat → ProbePoint → MatchNode α β → Derivation α β →
    Option (Derivation α β × Option SemanticError)
  | [], pos, loc, node, d =>
    if node.ends.isEmpty then some (d, some (.truncated pos (node.sub.map Prod.fst)))
    else if s.unprivileged && !node.unprivilegedOk then some (d, some .unprivileged)
    else s.buildEnds build use loc node.ends d
  | c :: rest, pos, loc, node, d =>
    if isglob c.functor then
      match s.globLoop (findAndBuild rest (pos + 1)) loc pos c node.sub d with
      | none => none
      | some d' =>
        if !loc.optional && d.results.length = d'.results.length then
          some (d', some (.noWildcardMatch pos (node.sub.map Prod.fst)))
        else some (d', none)
    else
      match node.sub.find? fun sub => sub.1 = .ofComponent c with
      | none => some (d, some (.mismatch pos (node.sub.map Prod.fst)))
      | some (_, subnode) => findAndBuild rest (pos + 1) loc subnode d

/-- The loop of `derive_probes` over the locations. -/
def deriveLocations (optional : Bool) : List ProbePoint → Derivation α β → Option (Derivation α β)
  | [], d => some d
  | loc :: locs, d =>
    let loc' := { loc with optional := loc.optional || optional }
    match s.findAndBuild build use loc.components 0 loc' s.patternRoot d with
    | none => none
    | some (d', some e) =>
      if loc'.optional then deriveLocations optional locs d'
      else deriveLocations optional locs (d'.report ⟨e, some loc⟩)
    | some (d', none) =>
      if !loc'.optional && d.results.length = d'.results.length then
        deriveLocations optional locs (d'.report ⟨.noMatch, some loc⟩)
      else if loc.sufficient && d.results.length < d'.results.length then some d'
      else deriveLocations optional locs d'

end Traversal

/-- `derive_probes`; the first argument bounds the depth of nested calls -/
def deriveProbes : Nat → UseProbe α → Bool → Derivation α β → Option (Derivation α β)
  | 0, _, _, _ => none
  | fuel + 1, use, optional, d =>
    s.deriveLocations (s.aliasBuild (deriveProbes fuel) use) use optional use.locations d

end Patterns

/-! ## Chains -/

section Chain

variable {α β : Type}

@[simp]
theorem Derivation.length_report (d : Derivation α β) (r : Reported) :
    (d.report r).errors.length = d.errors.length + 1 := length_append

variable {use : UseProbe α}

theorem UseProbe.mem_chain {a : α} :
    a ∈ use.chain ↔ ∃ d ∈ use.derivationChain, d.getAlias = some a := mem_filterMap

/-- The check finds an alias that comes again. -/
theorem UseProbe.check_iff [DecidableEq α] :
    use.checkForRecursiveExpansion = true ↔ ∃ a c, use.chain = a :: c ∧ a ∈ c := by
  cases use with
  | script locations body =>
    refine iff_of_false (fun h => ?_) ?_
    · cases h
    · rintro ⟨a, c, h, -⟩
      cases h
  | derived base a locations body =>
    constructor
    · intro h
      obtain ⟨d, hd, heq⟩ := any_eq_true.mp h
      exact ⟨a, base.chain, rfl, mem_chain.mpr ⟨d, hd, (of_decide_eq_true heq).symm⟩⟩
    · rintro ⟨a', c, h, hmem⟩
      obtain ⟨rfl, rfl⟩ := cons.inj h
      obtain ⟨d, hd, heq⟩ := mem_chain.mp hmem
      exact any_eq_true.mpr ⟨d, hd, decide_eq_true heq.symm⟩

theorem Patterns.chain_expand (s : Patterns α β) (a : α) (use : UseProbe α) (loc : ProbePoint) :
    (s.expand a use loc).chain = a :: use.chain := rfl

theorem UseProbe.check_of_nodup [DecidableEq α] (h : use.chain.Nodup) :
    ¬ use.checkForRecursiveExpansion = true := by
  rw [UseProbe.check_iff]
  rintro ⟨a, c, hchain, hmem⟩
  rw [hchain] at h
  exact (nodup_cons.mp h).1 hmem

end Chain

/-! ## Invariants of the traversal -/

/-- What a builder of aliases does. -/
abbrev AliasBuilder (α β : Type) := α → ProbePoint → Derivation α β → Option (Derivation α β)

section Invariant

variable {α β : Type} {build : AliasBuilder α β} {Inv : Derivation α β → Prop}

/-- The parts of the traversal keep `Inv`, and the builders of aliases return. -/
structure Kept (build : α → ProbePoint → Derivation α β → Option (Derivation α β))
    (Inv : Derivation α β → Prop) : Prop where
  derive : ∀ d ps, Inv d → Inv (d.derive ps)
  report : ∀ d r, Inv d → Inv (d.report r)
  build : ∀ a loc d, Inv d → ∃ d', build a loc d = some d' ∧ Inv d'

namespace Kept

variable (s : Patterns α β) (use : UseProbe α)

theorem buildEnds (h : Kept build Inv) (loc : ProbePoint) : ∀ (ends : List (Builder α β))
    {d : Derivation α β}, Inv d → ∃ r, s.buildEnds build use loc ends d = some r ∧ Inv r.1 := by
  intro ends
  induction ends with
  | nil => exact fun {d} hd => ⟨(d, none), rfl, hd⟩
  | cons b ends ih =>
    intro d hd
    cases b with
    | expansion a =>
      obtain ⟨d', hbuild, hd'⟩ := h.build a loc d hd
      obtain ⟨r, hr, hinv⟩ := ih hd'
      exact ⟨r, by rw [Patterns.buildEnds, hbuild]; exact hr, hinv⟩
    | other b =>
      have hd' := h.derive d (replicate (s.outcome b loc.components).results ⟨b, use, loc⟩) hd
      rw [Patterns.buildEnds]
      cases (s.outcome b loc.components).error with
      | some msg => exact ⟨_, rfl, hd'⟩
      | none => exact ih hd'

theorem globLoop {find : ProbePoint → MatchNode α β → Derivation α β →
      Option (Derivation α β × Option SemanticError)} (loc : ProbePoint) (pos : Nat) (c : Component)
    (hfind : ∀ loc node d, Inv d → ∃ r, find loc node d = some r ∧ Inv r.1) :
    ∀ (sub : List (MatchKey × MatchNode α β)) {d : Derivation α β}, Inv d →
      ∃ d', s.globLoop find loc pos c sub d = some d' ∧ Inv d' := by
  intro sub
  induction sub with
  | nil => exact fun {d} hd => ⟨d, rfl, hd⟩
  | cons x sub ih =>
    obtain ⟨subkey, subnode⟩ := x
    intro d hd
    rw [Patterns.globLoop]
    split
    · obtain ⟨⟨d', e⟩, hr, hd'⟩ := hfind _ subnode d hd
      dsimp only
      rw [hr]
      exact ih hd'
    · exact ih hd

theorem findAndBuild (h : Kept build Inv) : ∀ (rest : List Component) (pos : Nat)
    (loc : ProbePoint) (node : MatchNode α β) {d : Derivation α β}, Inv d →
    ∃ r, s.findAndBuild build use rest pos loc node d = some r ∧ Inv r.1 := by
  intro rest
  induction rest with
  | nil =>
    intro pos loc node d hd
    rw [Patterns.findAndBuild]
    split
    · exact ⟨_, rfl, hd⟩
    · split
      · exact ⟨_, rfl, hd⟩
      · exact h.buildEnds s use loc node.ends hd
  | cons c rest ih =>
    intro pos loc node d hd
    rw [Patterns.findAndBuild]
    split
    · obtain ⟨d', hd', hinv⟩ := globLoop s loc pos c
        (fun loc node d hd => ih (pos + 1) loc node hd) node.sub hd
      rw [hd']
      dsimp only
      split
      · exact ⟨_, rfl, hinv⟩
      · exact ⟨_, rfl, hinv⟩
    · split
      · exact ⟨_, rfl, hd⟩
      · exact ih _ _ _ hd

theorem deriveLocations (h : Kept build Inv) (optional : Bool) : ∀ (locs : List ProbePoint)
    {d : Derivation α β}, Inv d →
    ∃ d', s.deriveLocations build use optional locs d = some d' ∧ Inv d' := by
  intro locs
  induction locs with
  | nil => exact fun {d} hd => ⟨d, rfl, hd⟩
  | cons loc locs ih =>
    intro d hd
    obtain ⟨⟨d', e⟩, hr, hd'⟩ := h.findAndBuild s use loc.components 0
      { loc with optional := loc.optional || optional } s.patternRoot hd
    rw [Patterns.deriveLocations]
    rw [hr]
    cases e with
    | some e =>
      dsimp only
      split
      · exact ih hd'
      · exact ih (h.report _ _ hd')
    | none =>
      dsimp only
      split
      · exact ih (h.report _ _ hd')
      · split
        · exact ⟨d', rfl, hd'⟩
        · exact ih hd'

end Kept

end Invariant

/-! ## Two runs in step

A run in which the builders of aliases only report an error is compared with another one over the
same locations. Until the first such builder is called the two are in step, so if no error is
reported in the first run, no builder of an alias is called in the other one. -/

section InStep

/-- The conditions aside, and whether it is optional. -/
structure SamePoint (p q : ProbePoint) : Prop where
  components : p.components = q.components
  sufficient : p.sufficient = q.sufficient

variable {α β : Type} {build : AliasBuilder α β} {d d' : Derivation α β}

/-- Every call of the builder of an alias reports an error. -/
def Alarm (build : α → ProbePoint → Derivation α β → Option (Derivation α β)) : Prop :=
  ∀ a loc d, ∃ r, build a loc d = some (d.report r)

theorem Alarm.kept (h : Alarm build) (n : Nat) : Kept build fun d => n ≤ d.errors.length where
  derive _ _ hd := hd
  report d r hd := by
    rw [Derivation.length_report]
    omega
  build a loc d hd := by
    obtain ⟨r, hr⟩ := h a loc d
    refine ⟨_, hr, ?_⟩
    rw [Derivation.length_report]
    omega

/-- From `d` to `e` as many results are added as from `d'` to `e'`, and no chain is. -/
structure InStep (d d' e e' : Derivation α β) : Prop where
  results : e.results.length + d'.results.length = e'.results.length + d.results.length
  chains : e.chains = d.chains
  errors : d.errors.length ≤ e.errors.length

theorem InStep.refl (d d' : Derivation α β) : InStep d d' d d' := ⟨add_comm _ _, rfl, le_refl _⟩

theorem InStep.trans {e e' f f' : Derivation α β} (h : InStep d d' e e') (h' : InStep e e' f f') :
    InStep d d' f f' := by
  have h1 := h.results
  have h2 := h'.results
  exact ⟨by omega, h'.chains.trans h.chains, h.errors.trans h'.errors⟩

/-- The errors that are printed do not change the pace. -/
theorem InStep.report {e e' : Derivation α β} (h : InStep d d' e e') (r : Reported) :
    InStep d d' (e.report r) e' := by
  refine ⟨h.results, h.chains, h.errors.trans ?_⟩
  rw [Derivation.length_report]
  omega

theorem inStep_derive (d d' : Derivation α β) (ps ps' : List (DerivedProbe α β))
    (h : ps.length = ps'.length) : InStep d d' (d.derive ps) (d'.derive ps') := by
  refine ⟨?_, rfl, le_refl _⟩
  show (d.results ++ ps).length + _ = (d'.results ++ ps').length + _
  rw [length_append, length_append]
  omega

section

variable {s : Patterns α β} {build' : AliasBuilder α β} {use' : UseProbe α}
  (build : AliasBuilder α β) (use : UseProbe α) (halarm : Alarm build')
include halarm

theorem Alarm.buildEnds {loc loc' : ProbePoint} (hloc : loc.components = loc'.components) :
    ∀ (ends : List (Builder α β)) (d : Derivation α β) {d' : Derivation α β} {r'},
    s.buildEnds build' use' loc' ends d' = some r' → r'.1.errors.length ≤ d'.errors.length →
    ∃ r, s.buildEnds build use loc ends d = some r ∧ InStep d d' r.1 r'.1 ∧
      r.2.isSome = r'.2.isSome := by
  intro ends
  induction ends with
  | nil =>
    intro d d' r' hr' _
    cases hr'
    exact ⟨(d, none), rfl, .refl d d', rfl⟩
  | cons b ends ih =>
    intro d d' r' hr' hquiet
    cases b with
    | expansion a =>
      -- the alarm is heard
      obtain ⟨r, hr⟩ := halarm a loc' d'
      rw [Patterns.buildEnds, hr] at hr'
      obtain ⟨r'', hr'', hle⟩ := (halarm.kept (d'.errors.length + 1)).buildEnds s use' loc' ends
        (d := d'.report r) (Derivation.length_report _ _).ge
      cases hr'.symm.trans hr''
      omega
    | other b =>
      have hstep := inStep_derive d d'
        (replicate (s.outcome b loc'.components).results ⟨b, use, loc⟩)
        (replicate (s.outcome b loc'.components).results ⟨b, use', loc'⟩)
        (by rw [length_replicate, length_replicate])
      rw [Patterns.buildEnds] at hr' ⊢
      rw [hloc]
      cases herror : (s.outcome b loc'.components).error with
      | some msg =>
        rw [herror] at hr'
        cases hr'
        exact ⟨_, rfl, hstep, rfl⟩
      | none =>
        rw [herror] at hr'
        obtain ⟨r, hr, hstep', hsome⟩ := ih (d.derive (replicate
          (s.outcome b loc'.components).results ⟨b, use, loc⟩)) hr' hquiet
        exact ⟨r, hr, hstep.trans hstep', hsome⟩

omit halarm in
theorem InStep.globLoop {find find' : ProbePoint → MatchNode α β → Derivation α β →
      Option (Derivation α β × Option SemanticError)} {loc loc' : ProbePoint} {pos : Nat}
    {c : Component} (hloc : loc.components = loc'.components)
    (hmono : ∀ n loc node d, n ≤ d.errors.length →
      ∃ r, find' loc node d = some r ∧ n ≤ r.1.errors.length)
    (hfind : ∀ loc loc' node d d' r', loc.components = loc'.components →
      find' loc' node d' = some r' → r'.1.errors.length ≤ d'.errors.length →
      ∃ r, find loc node d = some r ∧ InStep d d' r.1 r'.1) :
    ∀ (sub : List (MatchKey × MatchNode α β)) (d : Derivation α β) {d' e' : Derivation α β},
      s.globLoop find' loc' pos c sub d' = some e' → e'.errors.length ≤ d'.errors.length →
      ∃ e, s.globLoop find loc pos c sub d = some e ∧ InStep d d' e e' := by
  intro sub
  induction sub with
  | nil =>
    intro d d' e' he' _
    cases he'
    exact ⟨d, rfl, .refl d d'⟩
  | cons x sub ih =>
    obtain ⟨subkey, subnode⟩ := x
    intro d d' e' he' hquiet
    rw [Patterns.globLoop] at he' ⊢
    split at he'
    · next hmatch =>
      rw [if_pos hmatch]
      dsimp only at he' ⊢
      obtain ⟨⟨f', err⟩, hf', hle⟩ := hmono d'.errors.length _ subnode d' (le_refl _)
      rw [hf'] at he'
      dsimp only at he' hle
      -- the rest of the loop does not take errors back
      obtain ⟨e'', he'', hle'⟩ := Kept.globLoop s loc' pos c (hmono f'.errors.length) sub
        (le_refl _)
      obtain rfl := Option.some.inj (he'.symm.trans he'')
      obtain ⟨⟨f, err1⟩, hf, hstep⟩ := hfind
        { loc with components := loc.components.set pos { c with functor := subkey.name } } _ subnode
        d d' _ (by rw [hloc]) hf' (by dsimp only; omega)
      rw [hf]
      dsimp only at hstep ⊢
      obtain ⟨e, he, hstep'⟩ := ih f he' (by omega)
      exact ⟨e, he, hstep.trans hstep'⟩
    · next hmatch =>
      rw [if_neg hmatch]
      exact ih d he' hquiet

/-- Where the two disagree about an error, there are no results. -/
def SameError (d' : Derivation α β) (r r' : Derivation α β × Option SemanticError) : Prop :=
  r.2.isSome = r'.2.isSome ∨ r'.1.results.length = d'.results.length

theorem Alarm.findAndBuild : ∀ (rest : List Component) {pos : Nat} (loc : ProbePoint)
    {loc' : ProbePoint} {node : MatchNode α β} (d : Derivation α β) {d' : Derivation α β} {r'},
    loc.components = loc'.components →
    s.findAndBuild build' use' rest pos loc' node d' = some r' →
    r'.1.errors.length ≤ d'.errors.length →
    ∃ r, s.findAndBuild build use rest pos loc node d = some r ∧ InStep d d' r.1 r'.1 ∧
      SameError d' r r' := by
  intro rest
  induction rest with
  | nil =>
    intro pos loc loc' node d d' r' hloc hr' hquiet
    rw [Patterns.findAndBuild] at hr' ⊢
    split at hr'
    · next hends =>
      rw [if_pos hends]
      cases hr'
      exact ⟨_, rfl, .refl d d', .inl rfl⟩
    · next hends =>
      rw [if_neg hends]
      split at hr'
      · next hpriv =>
        rw [if_pos hpriv]
        cases hr'
        exact ⟨_, rfl, .refl d d', .inl rfl⟩
      · next hpriv =>
        rw [if_neg hpriv]
        obtain ⟨r, hr, hstep, hsome⟩ := halarm.buildEnds build use hloc node.ends d hr' hquiet
        exact ⟨r, hr, hstep, .inl hsome⟩
  | cons c rest ih =>
    intro pos loc loc' node d d' r' hloc hr' hquiet
    rw [Patterns.findAndBuild] at hr' ⊢
    split at hr'
    · next hglob =>
      rw [if_pos hglob]
      cases hloop : s.globLoop (s.findAndBuild build' use' rest (pos + 1)) loc' pos c node.sub d' with
      | none => rw [hloop] at hr'; cases hr'
      | some e' =>
        rw [hloop] at hr'
        have hr1 : r'.1 = e' := by
          dsimp only at hr'
          split at hr' <;> cases hr' <;> rfl
        obtain ⟨e, he, hstep⟩ := InStep.globLoop hloc
          (fun n loc node d hn => (halarm.kept n).findAndBuild s use' rest (pos + 1) loc node hn)
          (fun loc loc' node d d' r' hloc hr' hquiet => by
            obtain ⟨r, hr, hstep, -⟩ := ih loc d hloc hr' hquiet
            exact ⟨r, hr, hstep⟩) node.sub d hloop (hr1 ▸ hquiet)
        rw [he]
        have hgrowth := hstep.results
        dsimp only at hr' ⊢
        by_cases hnone : d'.results.length = e'.results.length
        · -- without results it does not matter which of the two throws
          have hsame : ∀ r, SameError d' r r' := fun r => .inr (by rw [hr1]; exact hnone.symm)
          split
          · exact ⟨_, rfl, hr1 ▸ hstep, hsame _⟩
          · exact ⟨_, rfl, hr1 ▸ hstep, hsame _⟩
        · rw [if_neg (by simp [hnone])] at hr'
          cases hr'
          have hnone' : d.results.length ≠ e.results.length := by omega
          rw [if_neg (by simp [hnone'])]
          exact ⟨_, rfl, hstep, .inl rfl⟩
    · next hglob =>
      rw [if_neg hglob]
      cases hfind : node.sub.find? fun sub => sub.1 = .ofComponent c with
      | none =>
        rw [hfind] at hr'
        cases hr'
        exact ⟨_, rfl, .refl d d', .inl rfl⟩
      | some sub =>
        rw [hfind] at hr'
        exact ih loc d hloc hr' hquiet

variable {locs' : List ProbePoint} {optional' : Bool}

/-- What comes after an error that was printed has that error too. -/
theorem Alarm.not_quiet {d' e' f' : Derivation α β}
    {r : Reported} (he' : s.deriveLocations build' use' optional' locs' (f'.report r) = some e')
    (hle : d'.errors.length ≤ f'.errors.length) : d'.errors.length < e'.errors.length := by
  obtain ⟨e'', he'', hle'⟩ := (halarm.kept (d'.errors.length + 1)).deriveLocations s use' optional'
    locs' (d := f'.report r) (by
      rw [Derivation.length_report]
      omega)
  cases he'.symm.trans he''
  exact hle'

theorem Alarm.errors_le {e' f' : Derivation α β}
    (he' : s.deriveLocations build' use' optional' locs' f' = some e') :
    f'.errors.length ≤ e'.errors.length := by
  obtain ⟨e'', he'', hle⟩ := (halarm.kept f'.errors.length).deriveLocations s use' optional' locs'
    (d := f') (le_refl _)
  cases he'.symm.trans he''
  exact hle

/-- A run without errors stops after a location, or goes on with the others. -/
theorem Alarm.next_cases {loc' : ProbePoint}
    {d' e' f' : Derivation α β} {err' : Option SemanticError}
    (hf' : s.findAndBuild build' use' loc'.components 0
      { loc' with optional := loc'.optional || optional' } s.patternRoot d' = some (f', err'))
    (hle : d'.errors.length ≤ f'.errors.length)
    (he' : s.deriveLocations build' use' optional' (loc' :: locs') d' = some e')
    (hquiet : e'.errors.length ≤ d'.errors.length) :
    (err' = none ∧ loc'.sufficient = true ∧ d'.results.length < f'.results.length ∧ e' = f') ∨
      ((err' = none → loc'.sufficient = true → f'.results.length ≤ d'.results.length) ∧
        s.deriveLocations build' use' optional' locs' f' = some e') := by
  rw [Patterns.deriveLocations] at he'
  rw [hf'] at he'
  cases err' with
  | some e =>
    dsimp only at he'
    split at he'
    · refine .inr ⟨fun hnone => ?_, he'⟩
      cases hnone
    · exact absurd (halarm.not_quiet he' hle) (by omega)
  | none =>
    dsimp only at he'
    split at he'
    · exact absurd (halarm.not_quiet he' hle) (by omega)
    · split at he'
      · next hstop =>
        rw [Bool.and_eq_true, decide_eq_true_iff] at hstop
        exact .inl ⟨rfl, hstop.1, hstop.2, (Option.some.inj he').symm⟩
      · next hstop =>
        refine .inr ⟨fun _ hsufficient => ?_, he'⟩
        rw [hsufficient, Bool.true_and, decide_eq_true_iff] at hstop
        omega

theorem Alarm.deriveLocations {optional optional' : Bool} {locs locs' : List ProbePoint}
    (hsame : List.Forall₂ SamePoint locs locs') : ∀ (d : Derivation α β) {d' e' : Derivation α β},
    s.deriveLocations build' use' optional' locs' d' = some e' →
    e'.errors.length ≤ d'.errors.length →
    ∃ e, s.deriveLocations build use optional locs d = some e ∧ InStep d d' e e' := by
  induction hsame with
  | nil =>
    intro d d' e' he' _
    cases he'
    exact ⟨d, rfl, .refl d d'⟩
  | @cons loc loc' locs locs' hloc _ ih =>
    intro d d' e' he' hquiet
    -- both go on with the other locations
    have hgo : ∀ {f f' : Derivation α β}, InStep d d' f f' →
        d'.errors.length ≤ f'.errors.length →
        s.deriveLocations build' use' optional' locs' f' = some e' →
        ∃ e, s.deriveLocations build use optional locs f = some e ∧ InStep d d' e e' := by
      intro f f' hstep hle hf'
      obtain ⟨e, he, hstep'⟩ := ih f hf' (hquiet.trans hle)
      exact ⟨e, he, hstep.trans hstep'⟩
    obtain ⟨⟨f', err'⟩, hf', hle⟩ := (halarm.kept d'.errors.length).findAndBuild s use'
      loc'.components 0 { loc' with optional := loc'.optional || optional' } s.patternRoot (d := d')
      (le_refl _)
    have hcases := halarm.next_cases hf' hle he' hquiet
    have hf'quiet : f'.errors.length ≤ d'.errors.length := by
      rcases hcases with ⟨-, -, -, rfl⟩ | ⟨-, hgoes⟩
      · exact hquiet
      · exact (halarm.errors_le hgoes).trans hquiet
    obtain ⟨⟨f, err⟩, hf, hstep, herr⟩ := halarm.findAndBuild build use loc'.components
      { loc with optional := loc.optional || optional } d (by exact hloc.components) hf' hf'quiet
    have hgrowth := hstep.results
    rw [← hloc.components] at hf
    rw [Patterns.deriveLocations]
    dsimp only at hf ⊢ hgrowth hstep
    rw [hf]
    rcases hcases with ⟨rfl, hsufficient, hgrew, rfl⟩ | ⟨hstays, hgoes⟩
    · -- both stop here
      rcases herr with hsome | hnone
      · cases err with
        | some e => cases hsome
        | none =>
          have hgrew' : d.results.length < f.results.length := by omega
          dsimp only
          rw [if_neg (by simp [hgrew'.ne]), if_pos (by simp [hgrew', hloc.sufficient, hsufficient])]
          exact ⟨f, rfl, hstep⟩
      · dsimp only at hnone
        omega
    · cases err with
      | some e =>
        dsimp only
        split
        · exact hgo hstep hle hgoes
        · exact hgo (hstep.report _) hle hgoes
      | none =>
        dsimp only
        split
        · exact hgo (hstep.report _) hle hgoes
        · split
          · next hstop =>
            rw [Bool.and_eq_true, decide_eq_true_iff, hloc.sufficient] at hstop
            rcases herr with hsome | hnone
            · have hzero := hstays (Option.isSome_eq_false_iff.mp hsome.symm |> Option.isNone_iff_eq_none.mp)
                hstop.1
              omega
            · dsimp only at hnone
              omega
          · exact hgo hstep hle hgoes

end

end InStep

/-! ## An alias that comes again -/

section Heard

variable {α β : Type} {s : Patterns α β}

/-- Whoever derives the alias again, with nothing but alarms in it, hears one. -/
def Heard (s : Patterns α β) (a : α) : Prop :=
  ∀ base location build optional d d', Alarm build →
    s.deriveLocations build (s.expand a base location) optional (s.expand a base location).locations d
      = some d' → d.errors.length < d'.errors.length

theorem samePoint_expand (a : α) (base base' : UseProbe α) (location location' : ProbePoint) :
    List.Forall₂ SamePoint (s.expand a base location).locations
      (s.expand a base' location').locations := by
  show List.Forall₂ SamePoint (map _ _) (map _ _)
  rw [forall₂_map_left_iff, forall₂_map_right_iff, forall₂_same]
  exact fun pp _ => ⟨rfl, rfl⟩

/-- If it is not heard, no builder of an alias is called. -/
theorem quiet_of_not_heard {a : α} (h : ¬ Heard s a) (base : UseProbe α) (location : ProbePoint)
    (build : AliasBuilder α β) (optional : Bool) (d : Derivation α β) :
    ∃ e, s.deriveLocations build (s.expand a base location) optional
      (s.expand a base location).locations d = some e ∧ e.chains = d.chains ∧
      d.errors.length ≤ e.errors.length := by
  unfold Heard at h
  push Not at h
  obtain ⟨base', location', build', optional', d', e', halarm, he', hquiet⟩ := h
  obtain ⟨e, he, hstep⟩ := halarm.deriveLocations build (s.expand a base location)
    (samePoint_expand a base base' location location') d he' hquiet
  exact ⟨e, he, hstep.chains, hstep.errors⟩

theorem alarm_of_check [DecidableEq α] {use : UseProbe α} (h : use.checkForRecursiveExpansion = true)
    (derive : UseProbe α → Bool → Derivation α β → Option (Derivation α β)) :
    Alarm (s.aliasBuild derive use) := by
  intro a loc d
  exact ⟨_, if_pos h⟩

end Heard

/-! ## Whole derivations -/

section Sound

variable {α β : Type} [Fintype α]

/-- No chain is longer than one more than there are aliases, and if there is one with the same alias
twice, an error has been printed. -/
structure Sound (d : Derivation α β) : Prop where
  length : ∀ c ∈ d.chains, c.length ≤ Fintype.card α + 1
  error : (∃ c ∈ d.chains, ¬ c.Nodup) → d.errors ≠ []

theorem Sound.of_le {d e : Derivation α β} (h : Sound d) (hchains : e.chains = d.chains)
    (herrors : d.errors.length ≤ e.errors.length) : Sound e := by
  refine ⟨hchains ▸ h.length, fun hdup => ?_⟩
  have hne := length_pos_iff.mpr (h.error (hchains ▸ hdup))
  exact length_pos_iff.mp (hne.trans_le herrors)

theorem Sound.report {d : Derivation α β} (h : Sound d) (r : Reported) : Sound (d.report r) := by
  refine h.of_le rfl ?_
  rw [Derivation.length_report]
  omega

theorem kept_sound {build : AliasBuilder α β}
    (h : ∀ a loc d, Sound d → ∃ d', build a loc d = some d' ∧ Sound d') : Kept build Sound :=
  ⟨fun _ _ hd => hd.of_le rfl (le_refl _), fun _ r hd => hd.report r, h⟩

end Sound

section Derivation

variable {α β : Type} [DecidableEq α] [Fintype α] {s : Patterns α β}

/-- The probe is not expanded any more, or there is fuel for the aliases that are not in its
chain. -/
def Fuelled (fuel : Nat) (use : UseProbe α) : Prop :=
  (use.checkForRecursiveExpansion = true ∧ 1 ≤ fuel) ∨
    (use.chain.Nodup ∧ Fintype.card α + 2 ≤ fuel + use.chain.length)

variable {use : UseProbe α}

theorem Fuelled.pos {fuel : Nat} (h : Fuelled fuel use) : 1 ≤ fuel := by
  rcases h with ⟨-, hpos⟩ | ⟨hnodup, hle⟩
  · exact hpos
  · have hcard := hnodup.length_le_card
    omega

/-- One level down, there is still enough. -/
theorem Fuelled.expand {fuel : Nat} (h : Fuelled (fuel + 1) use)
    (hcheck : ¬ use.checkForRecursiveExpansion = true) (a : α) (loc : ProbePoint) :
    Fuelled fuel (s.expand a use loc) := by
  obtain ⟨hnodup, hle⟩ := h.resolve_left fun h => hcheck h.1
  have hcard := hnodup.length_le_card
  by_cases ha : a ∈ use.chain
  · exact .inl ⟨UseProbe.check_iff.mpr ⟨a, use.chain, rfl, ha⟩, by omega⟩
  · refine .inr ⟨nodup_cons.mpr ⟨ha, hnodup⟩, ?_⟩
    rw [Patterns.chain_expand, length_cons]
    omega

/-- With enough fuel, more of it changes nothing. -/
theorem deriveProbes_succ : ∀ (fuel : Nat) {use : UseProbe α}, Fuelled fuel use →
    s.deriveProbes (fuel + 1) use = s.deriveProbes fuel use := by
  intro fuel
  induction fuel with
  | zero => exact fun h => absurd h.pos (by omega)
  | succ fuel ih =>
    intro use h
    have hbuild : s.aliasBuild (s.deriveProbes (fuel + 1)) use =
        s.aliasBuild (s.deriveProbes fuel) use := by
      funext a loc d
      unfold Patterns.aliasBuild
      split
      · rfl
      · next hcheck => rw [ih (h.expand hcheck a loc)]
    funext optional d
    rw [Patterns.deriveProbes, hbuild, Patterns.deriveProbes]

theorem deriveProbes_of_le {fuel fuel' : Nat} (h : Fuelled fuel use)
    (hle : fuel ≤ fuel') : s.deriveProbes fuel' use = s.deriveProbes fuel use := by
  induction hle with
  | refl => rfl
  | @step fuel' hle ih =>
    have h' : Fuelled fuel' use := by
      rcases h with ⟨hcheck, hpos⟩ | ⟨hnodup, hcard⟩
      · exact .inl ⟨hcheck, hpos.trans hle⟩
      · exact .inr ⟨hnodup, hcard.trans (Nat.add_le_add_right hle _)⟩
    exact (deriveProbes_succ fuel' h').trans ih

/-- A builder of an alias that is called from a probe of a chain of aliases that are heard. -/
theorem aliasBuild_sound {fuel : Nat} (hnodup : use.chain.Nodup)
    (hfuel : Fintype.card α + 1 ≤ fuel + use.chain.length) (hheard : ∀ x ∈ use.chain, Heard s x)
    (ih : ∀ a location optional d, Fuelled fuel (s.expand a use location) → Sound d →
      ∃ d', s.deriveProbes fuel (s.expand a use location) optional d = some d' ∧ Sound d')
    (a : α) (location : ProbePoint) {d : Derivation α β} (hd : Sound d) :
    ∃ d', s.aliasBuild (s.deriveProbes fuel) use a location d = some d' ∧ Sound d' := by
  have hcheck := UseProbe.check_of_nodup hnodup
  have hcard := hnodup.length_le_card
  have hlength : ∀ c ∈ (d.log (s.expand a use location).chain).chains,
      c.length ≤ Fintype.card α + 1 := by
    intro c hc
    rcases mem_append.mp hc with hc | hc
    · exact hd.length c hc
    · rw [mem_singleton.mp hc, Patterns.chain_expand, length_cons]
      omega
  rw [Patterns.aliasBuild, if_neg hcheck]
  by_cases ha : a ∈ use.chain
  · -- the alias comes for the second time: it is derived once more, with an alarm
    have hagain : (s.expand a use location).checkForRecursiveExpansion = true :=
      UseProbe.check_iff.mpr ⟨a, use.chain, rfl, ha⟩
    obtain ⟨fuel, rfl⟩ : ∃ k, fuel = k + 1 := ⟨fuel - 1, by omega⟩
    have halarm := alarm_of_check (s := s) hagain (s.deriveProbes fuel)
    have hkept : Kept (s.aliasBuild (s.deriveProbes fuel) (s.expand a use location)) fun e =>
        e.chains = (d.log (s.expand a use location).chain).chains :=
      ⟨fun _ _ h => h, fun _ _ h => h, fun b loc e h => by
        obtain ⟨r, hr⟩ := halarm b loc e
        exact ⟨_, hr, h⟩⟩
    obtain ⟨d', hd', hchains⟩ := hkept.deriveLocations s (s.expand a use location) location.optional
      (s.expand a use location).locations rfl
    have hgrew := hheard a ha use location _ _ _ _ halarm hd'
    refine ⟨d', hd', hchains ▸ hlength, fun _ => ?_⟩
    exact length_pos_iff.mp (zero_lt_of_lt hgrew)
  · have hnew : (s.expand a use location).chain.Nodup := nodup_cons.mpr ⟨ha, hnodup⟩
    refine ih a location _ _ (.inr ⟨hnew, ?_⟩) ⟨hlength, ?_⟩
    · rw [Patterns.chain_expand, length_cons]
      omega
    · rintro ⟨c, hc, hdup⟩
      rcases mem_append.mp hc with hc | hc
      · exact hd.error ⟨c, hc, hdup⟩
      · exact absurd (mem_singleton.mp hc ▸ hnew) hdup

/-- The probe of an alias is derived, below a chain of aliases that are heard. -/
theorem deriveProbes_expand : ∀ (fuel : Nat) (base : UseProbe α), (∀ x ∈ base.chain, Heard s x) →
    ∀ (a : α) (location : ProbePoint) (optional : Bool) (d : Derivation α β),
      Fuelled fuel (s.expand a base location) → Sound d →
      ∃ d', s.deriveProbes fuel (s.expand a base location) optional d = some d' ∧ Sound d' := by
  intro fuel
  induction fuel with
  | zero => exact fun _ _ _ _ _ _ h => absurd h.pos (by omega)
  | succ fuel ih =>
    intro base hheard a location optional d hfuel hd
    rcases hfuel with ⟨hcheck, -⟩ | ⟨hnodup, hle⟩
    · refine (kept_sound fun b loc e he => ?_).deriveLocations s _ optional _ hd
      obtain ⟨r, hr⟩ := alarm_of_check (s := s) hcheck (s.deriveProbes fuel) b loc e
      exact ⟨_, hr, he.report r⟩
    · by_cases ha : Heard s a
      · have hall : ∀ x ∈ (s.expand a base location).chain, Heard s x :=
          forall_mem_cons.mpr ⟨ha, hheard⟩
        refine (kept_sound fun b loc e he => ?_).deriveLocations s _ optional _ hd
        exact aliasBuild_sound hnodup (by omega) hall (ih _ hall) b loc he
      · obtain ⟨e, he, hchains, herrors⟩ := quiet_of_not_heard ha base location
          (s.aliasBuild (s.deriveProbes fuel) (s.expand a base location)) optional d
        exact ⟨e, he, hd.of_le hchains herrors⟩

/-- `derive_probes` returns for every probe: a depth of two more than there are aliases is enough.
No chain of nested expansions is longer than one more than there are aliases, and if the same alias
is twice in a chain, an error is reported. -/
theorem alias_expansion_ends (s : Patterns α β) (locations : List ProbePoint) (body : Stmt)
    (optional : Bool) :
    ∃ d, (∀ fuel, Fintype.card α + 2 ≤ fuel →
        s.deriveProbes fuel (.script locations body) optional .empty = some d) ∧
      (∀ c ∈ d.chains, c.length ≤ Fintype.card α + 1) ∧
      ((∃ c ∈ d.chains, ¬ c.Nodup) → d.errors ≠ []) := by
  have hempty : Sound (Derivation.empty : Derivation α β) :=
    ⟨fun c hc => absurd hc not_mem_nil, fun ⟨c, hc, _⟩ => absurd hc not_mem_nil⟩
  have hfuelled : Fuelled (Fintype.card α + 2) (.script locations body : UseProbe α) :=
    .inr ⟨nodup_nil, le_refl _⟩
  have hnil : (UseProbe.script locations body : UseProbe α).chain.Nodup := nodup_nil
  have hnone : ∀ x ∈ (UseProbe.script locations body : UseProbe α).chain, Heard s x :=
    fun x hx => absurd hx not_mem_nil
  have hkept : Kept (s.aliasBuild (s.deriveProbes (Fintype.card α + 1)) (.script locations body))
      Sound := kept_sound fun a loc e he =>
    aliasBuild_sound hnil (le_refl _) hnone (deriveProbes_expand _ _ hnone) a loc he
  obtain ⟨d, hd, hsound⟩ := hkept.deriveLocations s (.script locations body) optional locations hempty
  refine ⟨d, fun fuel hle => ?_, hsound.length, hsound.error⟩
  rw [deriveProbes_of_le hfuelled hle]
  exact hd

end Derivation

/-- `probe a = a`, with nothing else to match. -/
def selfAlias : Patterns Unit Empty where
  unprivileged := false
  patternRoot := .mk true [] [(⟨"a", false, .unknown⟩, .mk true [.expansion ()] [])]
  aliases _ := ⟨[⟨[⟨"a", none⟩], false, false, none⟩], .null, false⟩
  fnmatch name other := name = other
  outcome b _ := b.elim

example : (selfAlias.deriveProbes 3 (.script [⟨[⟨"a", none⟩], false, false, none⟩] .null) false
    .empty).map (fun d => (d.chains, d.errors.length)) = some ([[()], [(), ()]], 4) := by
  decide

end Systemtap.Elab
