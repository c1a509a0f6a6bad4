import Mathlib

/-!
# Members of structures

`find_struct_member` looks for a member by its name, and goes into members without a name and into
base classes. The locations of the members it went through are put in front of each other while
the recursion unwinds.
-/

namespace Systemtap.Dwarf

open List

/-! ## The code -/

inductive DieTag where
  | structType | classType | unionType | member | inheritance | other
deriving DecidableEq

/-- A DIE, with the attributes that are looked at; `loc` is its `DW_AT_data_member_location`. -/
structure Die (α : Type) where
  tag : DieTag
  name : Option String
  type : Option (Die α)
  loc : Option α
  children : List (Die α)

variable {α : Type}

/-- A member or a base class. -/
def Die.isField (die : Die α) : Bool := die.tag = .member ∨ die.tag = .inheritance

/-- Where the search recurses. -/
def Die.isNested (die : Die α) : Bool := die.name = none ∨ die.tag = .inheritance

/-- The two results of a search, `memberdie` and `locs`. -/
structure Found (α : Type) where
  memberdie : Option (Die α)
  locs : List α

section Code

variable (member : String)

/-- The end of a search that was successful. -/
def success (parent : DieTag) (die : Die α) (st : Found α) : Except String (Bool × Found α) :=
  match die.loc with
  | some attr => .ok (true, { st with locs := attr :: st.locs })
  | none =>
    if parent = .unionType then .ok (true, st)
    -- and what libdw says
    else .error ("no location for field '" ++ member ++ "': ")

mutual

/-- `dwflpp::find_struct_member` -/
def findStructMember : Die α → Found α → Except String (Bool × Found α)
  | ⟨tag, _, _, _, children⟩, st => searchFields tag children st

/-- The loop over the children. -/
def searchFields (parent : DieTag) : List (Die α) → Found α → Except String (Bool × Found α)
  | [], st => .ok (false, st)
  | ⟨tag, name, type, loc, children⟩ :: dies, st =>
    let die : Die α := ⟨tag, name, type, loc, children⟩
    if !die.isField then searchFields parent dies st
    else if die.isNested then
      match type with
      | none => searchFields parent dies st
      | some subdie =>
        match findStructMember subdie st with
        | .error e => .error e
        | .ok (true, st) => success member parent die st
        | .ok (false, st) => searchFields parent dies st
    else if name = some member then success member parent die { st with memberdie := some die }
    else searchFields parent dies st

end

end Code

/-! ## What it is for -/

mutual

/-- All members with a name that can be reached, in depth-first order of declaration, each with the
members without a name and the base classes on the way to it, the outermost first. -/
def routes : Die α → List (List (Die α) × Die α)
  | ⟨_, _, _, _, children⟩ => routesAll children

def routesAll : List (Die α) → List (List (Die α) × Die α)
  | [] => []
  | ⟨tag, name, type, loc, children⟩ :: dies =>
    let die : Die α := ⟨tag, name, type, loc, children⟩
    (if !die.isField then []
    else if die.isNested then
      match type with
      | none => []
      | some subdie => (routes subdie).map fun r => (die :: r.1, r.2)
    else [([], die)]) ++ routesAll dies

end

/-- Every member has a location, unless it is one of a union. -/
inductive WellLocated : Die α → Prop
  | intro {t : Die α} (hloc : ∀ die ∈ t.children, die.isField → t.tag = .unionType ∨ die.loc.isSome)
      (hsub : ∀ die ∈ t.children, die.isField → die.isNested → ∀ sub ∈ die.type, WellLocated sub) :
      WellLocated t

/-- What a search is to answer. -/
def answer (member : String) (rs : List (List (Die α) × Die α)) (st : Found α) : Bool × Found α :=
  match rs.find? fun r => r.2.name = some member with
  | none => (false, st)
  | some r => (true, ⟨some r.2, (r.1 ++ [r.2]).flatMap (fun die => die.loc.toList) ++ st.locs⟩)

/-! ## The search -/

theorem success_of_located {parent : DieTag} {die : Die α}
    (h : parent = .unionType ∨ die.loc.isSome) (member : String) (st : Found α) :
    success member parent die st = .ok (true, ⟨st.memberdie, die.loc.toList ++ st.locs⟩) := by
  unfold success
  cases hloc : die.loc with
  | some attr => rfl
  | none =>
    rw [hloc] at h
    exact if_pos (h.resolve_right Bool.false_ne_true)

/-- The loop over the children of a DIE, if the searches in their types are right. -/
theorem searchFields_eq {member : String} {parent : DieTag} {dies : List (Die α)}
    (hloc : ∀ die ∈ dies, die.isField → parent = .unionType ∨ die.loc.isSome)
    (htype : ∀ die ∈ dies, die.isField → die.isNested → ∀ sub ∈ die.type, ∀ st,
      findStructMember member sub st = .ok (answer member (routes sub) st))
    (st : Found α) :
    searchFields member parent dies st = .ok (answer member (routesAll dies) st) := by
  induction dies with
  | nil => rfl
  | cons die dies ih =>
    obtain ⟨hdie, hloc⟩ := forall_mem_cons.mp hloc
    obtain ⟨hin, htype⟩ := forall_mem_cons.mp htype
    have hrest := ih hloc htype
    unfold answer at *
    obtain ⟨tag, name, type, loc, children⟩ := die
    unfold searchFields routesAll
    generalize hd : (⟨tag, name, type, loc, children⟩ : Die α) = die at *
    obtain rfl : die.name = name := by rw [← hd]
    obtain rfl : die.type = type := by rw [← hd]
    cases hfield : die.isField with
    | false => simpa [hfield] using hrest
    | true =>
      have hend := success_of_located (hdie hfield) member
      cases hnested : die.isNested with
      | true =>
        cases htype : die.type with
        | none => simpa [hfield, hnested] using hrest
        | some sub =>
          have hsub := hin hfield hnested sub htype st
          -- a search that fails has changed nothing
          cases hfind : (routes sub).find? fun r => r.2.name = some member with
          | none => simpa [hfield, hnested, hsub, hfind, find?_map] using hrest
          | some r => simp [hfield, hnested, hsub, hfind, find?_map, hend]
      | false =>
        by_cases hname : die.name = some member
        · simp [hfield, hnested, hname, hend]
        · simpa [hfield, hnested, hname] using hrest

/-- **The search finds the first member of the name**, and the locations on the way to it. -/
theorem findStructMember_eq_answer (member : String) {t : Die α} (h : WellLocated t) :
    ∀ st, findStructMember member t st = .ok (answer member (routes t) st) := by
  induction h with
  | @intro t hloc _ ih =>
    obtain ⟨tag, name, type, loc, children⟩ := t
    exact searchFields_eq hloc ih

/-- `struct { union { int x; }; }` -/
def unionInStruct : Die Nat :=
  ⟨.structType, none, none, none, [⟨.member, none, some ⟨.unionType, none, none, none,
    [⟨.member, some "x", none, none, []⟩]⟩, some 4, []⟩]⟩

theorem findStructMember_unionInStruct : WellLocated unionInStruct ∧
    findStructMember "x" unionInStruct ⟨none, []⟩ =
      .ok (true, ⟨some ⟨.member, some "x", none, none, []⟩, [4]⟩) := by
  have h : WellLocated unionInStruct := by
    refine ⟨by simp [unionInStruct], ?_⟩
    rintro die hdie - - sub hsub
    obtain rfl := mem_singleton.mp hdie
    obtain rfl := Option.mem_some.mp hsub
    exact ⟨by simp, by simp⟩
  exact ⟨h, findStructMember_eq_answer "x" h ⟨none, []⟩⟩

end Systemtap.Dwarf
