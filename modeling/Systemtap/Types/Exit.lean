import Systemtap.Lib.Steps
import Systemtap.Types.Infer

/-!
# Type inference comes to an end

Each call of `resolved` brings a type closer to `pe_long` or away from
`pe_unknown`, and nothing takes a type back but `visit_print_format`: a print
without a format string that has an untyped argument loses its own type. Where
such a print is converted by another print (`printf("%s", sprint(x))`),
`check_arg_type` gives it the wanted type back and calls `resolved`, in every
pass, and the loop never sees a pass that resolves nothing.

`weight` is the number of steps that the types of a tree can still make. A
visit never raises it unless it forces a print (`visitE_progress`), because
elsewhere a print that has a type has typed arguments (`calm`), and these keep
their types. So the loop comes to an end exactly if only finitely many of its
passes force a print.
-/

namespace Systemtap.Types

open Systemtap.Tree Lib List Nat Trace

/-! ## Weights -/

/-- How far a type is from where it can end. -/
def rank : ExpType → Nat
  | .unknown => 2
  | .long => 0
  | _ => 1

theorem rank_lt {t : ExpType} (ht : t ≠ .unknown) : rank t < rank .unknown := by
  cases t <;> simp_all [rank]

theorem ne_unknown_of_rank_le {t u : ExpType} (ht : t ≠ .unknown) (h : rank u ≤ rank t) :
    u ≠ .unknown := by
  rintro rfl
  have := rank_lt ht
  omega

mutual

/-- The ranks of all types that a visit of the expression may set. -/
def weight : Expr → Nat
  | .literalString t _ => rank t
  | .literalNumber t _ => rank t
  | .binary t _ l r => rank t + weight l + weight r
  | .logicalOr t l r => rank t + weight l + weight r
  | .logicalAnd t l r => rank t + weight l + weight r
  | .comparison t _ l r => rank t + weight l + weight r
  | .concatenation t l r => rank t + weight l + weight r
  | .unary t _ e => rank t + weight e
  | .crement t _ _ e => rank t + weight e
  | .arrayIn t e => rank t + weight e
  | .ternary t e l r => rank t + weight e + weight l + weight r
  | .assignment t _ l r => rank t + weight l + weight r
  | .symbol s => rank s.type
  | .targetSymbol t _ _ => rank t
  | .castOp t _ _ _ => rank t
  | .definedOp t _ => rank t
  | .arrayindex t _ es => rank t + weightAll es
  | .histindex t _ s es => rank t + weightAll es + weight s
  | .functioncall t _ es => rank t + weightAll es
  | .printFormat t _ es => rank t + weightAll es
  | .printHist t _ _ s => rank t + weight s
  | .statOp t _ s => rank t + weight s

def weightAll : List Expr → Nat
  | [] => 0
  | e :: es => weight e + weightAll es

end

def weightMaybe : Option Expr → Nat
  | none => 0
  | some e => weight e

def weightIndexes (es : List Symbol) : Nat := (es.map fun e => rank e.type).sum

theorem weightIndexes_cons (e : Symbol) (es : List Symbol) :
    weightIndexes (e :: es) = rank e.type + weightIndexes es := by
  simp [weightIndexes]

def weightSymbol : Option Symbol → Nat
  | none => 0
  | some s => rank s.type

mutual

def weightS : Stmt → Nat
  | .block ss => weightBlock ss
  | .tryBlock b v h => weightOpt b + (weightSymbol v + weightOpt h)
  | .expr e => weight e
  | .ifStmt e s o => weight e + (weightS s + weightOpt o)
  | .forLoop i e o b => weightMaybe i + (weight e + (weightMaybe o + weightS b))
  | .foreachLoop idx _ _ l b => weightIndexes idx + (weightMaybe l + weightS b)
  | .foreachHist idx _ e l b => weightIndexes idx + (weight e + (weightMaybe l + weightS b))
  | .returnStmt e => weight e
  | .deleteStmt e => weight e
  | .embeddedcode _ | .null | .next | .breakStmt | .continueStmt => 0

def weightOpt : Option Stmt → Nat
  | none => 0
  | some s => weightS s

def weightBlock : List Stmt → Nat
  | [] => 0
  | s :: ss => weightS s + weightBlock ss

end

def weightFunctions : List Functiondecl → Nat
  | [] => 0
  | fd :: fds => weightS fd.body + weightFunctions fds

def weightProbes : List Probe → Nat
  | [] => 0
  | p :: ps => weightS p.body + (weightMaybe p.condition + weightProbes ps)

/-- The weight of a node with another type on top. -/
theorem weight_setType (t : ExpType) (e : Expr) :
    weight (setType t e) + rank e.type = weight e + rank t := by
  cases e <;> simp only [setType, weight, Expr.type] <;> omega

def declWeight (x : Vardecl) : Nat := rank x.type + (x.indexTypes.map rank).sum

namespace Decls

def weight (d : Decls) : Nat :=
  (d.globals.map declWeight).sum + (d.locals.map declWeight).sum + (d.functions.map rank).sum

theorem weight_modify {d : Decls} {v : Var} {f : Vardecl → Vardecl} {x : Vardecl}
    (hv : d.vardecl v = some x) (hf : declWeight (f x) < declWeight x) :
    (d.modify v f).weight < d.weight := by
  cases v with
  | global k | loc k =>
    have := sum_map_modify declWeight (f := f) hv
    simp only [modify, weight]
    omega

/-- Giving a type to a declaration that has none. -/
theorem weight_set {d : Decls} {s : Slot} {t : ExpType} (hs : d.get s = some .unknown)
    (ht : t ≠ .unknown) : (d.set s t).weight < d.weight := by
  cases s with
  | decl v =>
    obtain ⟨x, hv, hx⟩ := Option.map_eq_some_iff.1 hs
    refine weight_modify hv ?_
    simp only [declWeight, hx]
    exact Nat.add_lt_add_right (rank_lt ht) _
  | index v i =>
    obtain ⟨x, hv, hx⟩ := Option.bind_eq_some_iff.1 hs
    refine weight_modify hv ?_
    simp only [declWeight]
    have := sum_map_modify rank (f := fun _ => t) hx
    have := rank_lt ht
    omega
  | function f =>
    have := sum_map_modify rank (f := fun _ => t) hs
    have := rank_lt ht
    simp only [set, weight]
    omega

end Decls

/-! ## What a step may do to the weights -/

theorem newlyResolved_append (l1 l2 : List Event) :
    newlyResolved (l1 ++ l2) = newlyResolved l1 + newlyResolved l2 := countP_append

/-- From weight `w` and declarations `d` to `w'` and `d'`: unless a print was forced, every
call of `resolved` is paid for. -/
def Down (w : Nat) (d : Decls) (w' : Nat) (d' : Decls) (log : List Event) : Prop :=
  Event.forced ∉ log → w' + d'.weight + newlyResolved log ≤ w + d.weight

namespace Down

variable {w w1 w2 k : Nat} {d d1 d2 : Decls} {l l1 l2 : List Event}

theorem refl (w : Nat) (d : Decls) : Down w d w d [] := fun _ => le_refl _

theorem trans (h1 : Down w d w1 d1 l1) (h2 : Down w1 d1 w2 d2 l2) : Down w d w2 d2 (l1 ++ l2) := by
  intro hf
  rw [mem_append, not_or] at hf
  have := h1 hf.1
  have := h2 hf.2
  rw [newlyResolved_append]
  omega

theorem quiet (h : newlyResolved l = 0) (w : Nat) (d : Decls) : Down w d w d l := by
  intro _
  rw [h]
  exact le_refl _

/-- What goes down is a part of a node. -/
theorem part (h : Down w d w1 d1 l) (hw : w2 + w = k + w1) : Down k d w2 d1 l := by
  intro hf
  have := h hf
  omega

theorem frame (h : Down w d w1 d1 l) (k : Nat) : Down (k + w) d (k + w1) d1 l := h.part (by omega)

theorem frame_right (h : Down w d w1 d1 l) (k : Nat) : Down (w + k) d (w1 + k) d1 l :=
  h.part (by omega)

end Down

/-- A flag resolves nothing and leaves the declarations alone. -/
theorem quiet_flag (c : Prop) [Decidable c] {e : Event} (he : newlyResolved [e] = 0) (d : Decls) :
    (flag c e d).state = d ∧ newlyResolved (flag c e d).log = 0 := by
  unfold flag
  split
  · exact ⟨rfl, he⟩
  · exact ⟨rfl, rfl⟩

/-- The type of a node is looked for, and every call of `resolved` brings it down. -/
def Retypes (ty : ExpType) (m : M ExpType) : Prop :=
  ∀ d, (m d).state = d ∧ rank (m d).val + newlyResolved (m d).log ≤ rank ty

namespace Retypes

variable {ty t : ExpType} {m : M ExpType}

theorem keep : Retypes ty (pure ty) := fun _ => ⟨rfl, le_refl _⟩

theorem lower (h : rank t < rank ty) : Retypes ty (do tell .resolved; pure t) := fun _ => ⟨rfl, h⟩

theorem settle (h : t ≠ .unknown := by simp) : Retypes ty (Types.settle ty t) := by
  unfold Types.settle
  split
  · next hty =>
    subst hty
    exact lower (rank_lt h)
  · exact keep

theorem flag_bind (hm : Retypes ty m) (c : Prop) [Decidable c] {e : Event}
    (he : newlyResolved [e] = 0 := by rfl) : Retypes ty (do flag c e; m) := by
  intro d
  obtain ⟨hs, hl⟩ := quiet_flag c he d
  obtain ⟨h1, h2⟩ := hm d
  rw [bind_apply, hs]
  refine ⟨h1, ?_⟩
  rw [newlyResolved_append, hl, Nat.zero_add]
  exact h2

theorem bind_flag (hm : Retypes ty m) (c : Prop) [Decidable c] {e : Event}
    (he : newlyResolved [e] = 0 := by rfl) : Retypes ty (do let t ← m; flag c e; pure t) := by
  intro d
  obtain ⟨h1, h2⟩ := hm d
  obtain ⟨hs, hl⟩ := quiet_flag c he d
  simp only [bind_apply, pure_apply, h1, hs, append_nil, newlyResolved_append, hl]
  exact ⟨trivial, h2⟩

theorem subType_cases (ty t : ExpType) :
    (subType ty t = .unknown ∧ ty = .unknown) ∨ subType ty t ≠ .unknown := by
  unfold subType
  split
  · next ht => tauto
  · next ht => exact .inr ht

theorem ternaryType (ty t l r : ExpType) :
    Retypes ty (Types.ternaryType ty (subType ty t) l r) := by
  unfold Types.ternaryType
  rcases subType_cases ty t with ⟨hsub, hty⟩ | hsub
  · subst hty
    rw [hsub, if_neg (by simp)]
    split
    · next h => exact lower (rank_lt h)
    · split
      · next h => exact lower (rank_lt h)
      · exact keep
  · rw [if_pos hsub]
    split
    · next hty =>
      rw [hty] at hsub ⊢
      exact lower (rank_lt hsub)
    · exact keep.flag_bind _

theorem assignedType (ty t left : ExpType) :
    Retypes ty (Types.assignedType ty (subType ty t) left) := by
  unfold Types.assignedType
  rcases subType_cases ty t with ⟨hsub, hty⟩ | hsub
  · subst hty
    rw [hsub, if_neg (by simp)]
    split
    · next h => exact lower (rank_lt h)
    · exact keep
  · rw [if_pos hsub]
    exact settle hsub

theorem arrayInType (ty t : ExpType) : Retypes ty (Types.arrayInType ty t) := by
  unfold Types.arrayInType
  split
  · exact keep
  · split
    · exact fun _ => ⟨rfl, by simp [newlyResolved]⟩
    · exact settle

theorem aggregationType (ty : ExpType) : Retypes ty (Types.aggregationType ty) := by
  unfold Types.aggregationType
  split
  · next h => rcases h with rfl | rfl <;> exact lower (by decide)
  · exact keep

theorem histindexType (ty : ExpType) : Retypes ty (Types.histindexType ty) := by
  unfold Types.histindexType
  split
  · next h => exact lower (by cases ty <;> simp_all [rank])
  · exact keep

end Retypes

/-! ## Calm trees -/

/-- A print without a format string that has a type has typed arguments. -/
def headCalm : Expr → Prop
  | .printFormat t f es => f.printWithFormat = false → t ≠ .unknown → ∀ e ∈ es, e.type ≠ .unknown
  | _ => True

mutual

/-- Every print below is `headCalm`, except where it is the argument of a print with a format
string. -/
def calm : Expr → Prop
  | .literalString _ _ => True
  | .literalNumber _ _ => True
  | .binary _ _ l r => (headCalm l ∧ calm l) ∧ headCalm r ∧ calm r
  | .logicalOr _ l r => (headCalm l ∧ calm l) ∧ headCalm r ∧ calm r
  | .logicalAnd _ l r => (headCalm l ∧ calm l) ∧ headCalm r ∧ calm r
  | .comparison _ _ l r => (headCalm l ∧ calm l) ∧ headCalm r ∧ calm r
  | .concatenation _ l r => (headCalm l ∧ calm l) ∧ headCalm r ∧ calm r
  | .unary _ _ e => headCalm e ∧ calm e
  | .crement _ _ _ e => headCalm e ∧ calm e
  | .arrayIn _ e => headCalm e ∧ calm e
  | .ternary _ e l r => (headCalm e ∧ calm e) ∧ (headCalm l ∧ calm l) ∧ headCalm r ∧ calm r
  | .assignment _ _ l r => (headCalm l ∧ calm l) ∧ headCalm r ∧ calm r
  | .symbol _ => True
  | .targetSymbol _ _ _ => True
  | .castOp _ _ _ _ => True
  | .definedOp _ _ => True
  | .arrayindex _ _ es => calmAll es
  | .histindex _ _ s es => calmAll es ∧ headCalm s ∧ calm s
  | .functioncall _ _ es => calmAll es
  | .printFormat _ f es => if f.printWithFormat then calmWanted es else calmAll es
  | .printHist _ _ _ s => headCalm s ∧ calm s
  | .statOp _ _ s => headCalm s ∧ calm s

def calmAll : List Expr → Prop
  | [] => True
  | e :: es => (headCalm e ∧ calm e) ∧ calmAll es

def calmWanted : List Expr → Prop
  | [] => True
  | e :: es => calm e ∧ calmWanted es

end

variable {e : Expr}

theorem headCalm_of_not_plain (h : isPlainPrint e = false) : headCalm e := by
  cases e with
  | printFormat t f es =>
    intro hf
    simp [isPlainPrint, hf] at h
  | _ => trivial

theorem calm_setType (t : ExpType) (e : Expr) : calm (setType t e) ↔ calm e := by
  cases e <;> simp only [setType, calm]

/-! ## Expressions -/

def isCalm (e : Expr) : Prop := headCalm e ∧ calm e

/-- A visit that keeps `P` and goes down from weight `w`, where a node weighs `W`. -/
def Goes {α : Type} (w : Nat) (P : α → Prop) (W : α → Nat) (d : Decls)
    (r : Traced Event Decls (Visited α)) : Prop :=
  P r.val.node ∧ Down w d (W r.val.node) r.state r.log

/-- A change of the declarations that pays for its calls of `resolved`. -/
def Pays {α : Type} (m : M α) : Prop := ∀ d, Down 0 d 0 (m d).state (m d).log

theorem pays_flag (c : Prop) [Decidable c] {e : Event} (he : newlyResolved [e] = 0 := by rfl) :
    Pays (flag c e) := by
  intro d
  obtain ⟨hs, hl⟩ := quiet_flag c he d
  rw [hs]
  exact .quiet hl _ _

theorem Pays.bind {m m' : M Unit} (h : Pays m) (h' : Pays m') : Pays (do m; m') :=
  fun d => (h d).trans (h' _)

section Goes

variable {α β : Type} {w k : Nat} {P : α → Prop} {W : α → Nat} {Q : β → Prop} {V : β → Nat}
  {d : Decls}

theorem goes_quiet {a : α} (ha : P a) {thrown : Bool} {log : List Event}
    (h : newlyResolved log = 0) : Goes (W a) P W d ⟨⟨a, thrown⟩, d, log⟩ := ⟨ha, .quiet h _ _⟩

/-- One visit and what follows it; `hw` says that the node changes in this child only. -/
theorem Goes.andGo {m : M (Visited α)} {stop : α → β} {go : α → M (Visited β)}
    (hm : Goes w P W d (m d)) (hstop : ∀ a, P a → Q (stop a))
    (hgo : ∀ a d, P a → Goes (V (stop a)) Q V d (go a d)) (hw : ∀ a, V (stop a) + w = k + W a := by
      intro; simp only [weight, weightAll, weightMaybe, weightSymbol, weightIndexes_cons, weightS,
        weightOpt, weightFunctions, weightProbes]; omega) :
    Goes k Q V d (Types.andGo m stop go d) := by
  rw [andGo_apply, bind_apply]
  generalize m d = r at hm ⊢
  obtain ⟨⟨a, thrown⟩, d', log⟩ := r
  obtain ⟨ha, hd⟩ := hm
  have hd' : Down k d (V (stop a)) d' log := hd.part (hw a)
  cases thrown with
  | true => exact ⟨hstop a ha, hd'.trans (.refl _ _)⟩
  | false =>
    obtain ⟨hq, hd''⟩ := hgo a d' ha
    exact ⟨hq, hd'.trans hd''⟩

/-- The last visit of a node. -/
theorem Goes.last {m : M (Visited α)} {f : α → β} (hm : Goes w P W d (m d))
    (hf : ∀ a, P a → Q (f a)) (hw : ∀ a, V (f a) + w = k + W a := by
      intro; simp only [weight, weightAll, weightMaybe, weightSymbol, weightIndexes_cons, weightS,
        weightOpt, weightFunctions, weightProbes]; omega) :
    Goes k Q V d (Types.andGo m f (fun a => fine (f a)) d) :=
  hm.andGo hf (fun _ _ ha => goes_quiet (hf _ ha) rfl) hw

/-- A payment before a visit. -/
theorem Goes.pays_bind {p : M Unit} {m : M (Visited α)} (hp : Pays p)
    (h : ∀ d, Goes w P W d (m d)) : Goes w P W d ((do p; m : M (Visited α)) d) :=
  ⟨(h _).1, ((hp d).frame w).trans (h _).2⟩

end Goes

/-- A node of type `t` at most that is no print without a format string. -/
def Ordinary (t : ExpType) (e : Expr) : Prop :=
  isPlainPrint e = false ∧ calm e ∧ rank e.type ≤ rank t

/-- The type of a node is found after the visits of its children. -/
theorem Retypes.goes {ty : ExpType} {m : M ExpType} (hm : Retypes ty m) {f : ExpType → Expr} {k : Nat}
    (hw : ∀ t, weight (f t) = rank t + k) (hf : ∀ t, rank t ≤ rank ty → Ordinary ty (f t))
    (d : Decls) :
    Goes (weight (f ty)) (Ordinary ty) weight d ((do let t ← m; fine (f t) : M (Visited Expr)) d) := by
  obtain ⟨hs, hr⟩ := hm d
  refine ⟨hf _ (le_of_add_right_le hr), fun _ => ?_⟩
  simp only [fine, bind_apply, pure_apply, append_nil, hw, hs]
  omega

/-- What a visit of `e` does to the tree and the declarations. -/
structure Progress (e : Expr) (d : Decls) (r : Traced Event Decls (Visited Expr)) : Prop where
  calm : calm r.val.node
  plain : isPlainPrint r.val.node = isPlainPrint e
  /-- Where a print cannot be forced. -/
  strict : headCalm e → headCalm r.val.node ∧ rank r.val.node.type ≤ rank e.type ∧
    Down (weight e) d (weight r.val.node) r.state r.log
  /-- Where it can: either it keeps its type or it will be forced. -/
  loose : (isPlainPrint e = true → r.val.thrown = false → r.val.node.type ≠ .unknown) →
    Down (weight e) d (weight r.val.node) r.state r.log

theorem Progress.of_goes {d : Decls} {r : Traced Event Decls (Visited Expr)}
    (hp : isPlainPrint e = false) (h : Goes (weight e) (Ordinary e.type) weight d r) : Progress e d r where
  calm := h.1.2.1
  plain := h.1.1.trans hp.symm
  strict _ := ⟨headCalm_of_not_plain h.1.1, h.1.2.2, h.2⟩
  loose _ := h.2

/-- The node stays as it is, and nothing is resolved. -/
theorem Progress.stay {d : Decls} {thrown : Bool} {log : List Event} (hp : isPlainPrint e = false)
    (hc : Types.calm e) (hl : newlyResolved log = 0) : Progress e d ⟨⟨e, thrown⟩, d, log⟩ :=
  .of_goes hp (goes_quiet ⟨hp, hc, le_refl _⟩ hl)

theorem Progress.goes {d : Decls} {r : Traced Event Decls (Visited Expr)} (h : Progress e d r)
    (hh : headCalm e) :
    Goes (weight e) (fun e' => isCalm e' ∧ rank e'.type ≤ rank e.type) weight d r :=
  ⟨⟨⟨(h.strict hh).1, h.calm⟩, (h.strict hh).2.1⟩, (h.strict hh).2.2⟩

theorem goes_child {v : Visit} (h : ∀ t d, calm e → Progress e d (v t d)) (t : ExpType) (d : Decls)
    (he : isCalm e) : Goes (weight e) isCalm weight d (v t d) := by
  obtain ⟨he', hd⟩ := (h t d he.2).goes he.1
  exact ⟨he'.1, hd⟩

section Shapes

variable {d : Decls} {ty : ExpType} {k : Nat} {K : Prop}

/-- The nodes that a constructor makes around one visited child, the rest of the node being of
weight `k` and calm if `K`. -/
structure Around (mk : ExpType → Expr → Expr) (k : Nat) (K : Prop) : Prop where
  weight : ∀ t e, weight (mk t e) = rank t + k + weight e
  type : ∀ t e, (mk t e).type = t
  plain : ∀ t e, isPlainPrint (mk t e) = false
  calm : ∀ t e, calm (mk t e) ↔ K ∧ headCalm e ∧ calm e

/-- A node that has nothing but its child. -/
theorem around_bare (mk : ExpType → Expr → Expr)
    (hw : ∀ t e, weight (mk t e) = rank t + weight e := by exact fun _ _ => rfl)
    (ht : ∀ t e, (mk t e).type = t := by exact fun _ _ => rfl)
    (hp : ∀ t e, isPlainPrint (mk t e) = false := by exact fun _ _ => rfl)
    (hc : ∀ t e, calm (mk t e) ↔ headCalm e ∧ calm e := by exact fun _ _ => .rfl) :
    Around mk 0 True :=
  ⟨hw, ht, hp, fun t e => (hc t e).trans (and_iff_right trivial).symm⟩

theorem visitOne_goes {mk : ExpType → Expr → Expr} (hmk : Around mk k K) {e : Expr}
    {v : M (Visited Expr)} {fin : Expr → M ExpType}
    (hv : isCalm e → Goes (weight e) isCalm weight d (v d))
    (hfin : ∀ e, Retypes ty (fin e)) (hc : calm (mk ty e)) :
    Goes (weight (mk ty e)) (Ordinary ty) weight d (visitOne mk ty v fin d) := by
  rw [hmk.calm] at hc
  obtain ⟨hK, he⟩ := hc
  have hlike {t : ExpType} {e' : Expr} (ht : rank t ≤ rank ty) (he' : isCalm e') :
      Ordinary ty (mk t e') :=
    ⟨hmk.plain t e', (hmk.calm t e').2 ⟨hK, he'⟩, (hmk.type t e').symm ▸ ht⟩
  refine (hv he).andGo (fun _ => hlike (le_refl _)) (fun e' d' he' => ?_) fun _ => ?_
  · refine (hfin e').goes (k := k + weight e') (fun t => ?_) (fun _ ht => hlike ht he') d'
    rw [hmk.weight, add_assoc]
  · rw [hmk.weight, hmk.weight]
    omega

/-- The same around two children. -/
structure Around2 (mk : ExpType → Expr → Expr → Expr) (k : Nat) (K : Prop) : Prop where
  weight : ∀ t l r, weight (mk t l r) = rank t + k + weight l + weight r
  type : ∀ t l r, (mk t l r).type = t
  plain : ∀ t l r, isPlainPrint (mk t l r) = false
  calm : ∀ t l r, calm (mk t l r) ↔ K ∧ (headCalm l ∧ calm l) ∧ headCalm r ∧ calm r

variable {mk : ExpType → Expr → Expr → Expr}

/-- A node that has nothing but its two children. -/
theorem around2_bare (mk : ExpType → Expr → Expr → Expr)
    (hw : ∀ t l r, weight (mk t l r) = rank t + weight l + weight r := by exact fun _ _ _ => rfl)
    (ht : ∀ t l r, (mk t l r).type = t := by exact fun _ _ _ => rfl)
    (hp : ∀ t l r, isPlainPrint (mk t l r) = false := by exact fun _ _ _ => rfl)
    (hc : ∀ t l r, calm (mk t l r) ↔ (headCalm l ∧ calm l) ∧ headCalm r ∧ calm r := by
      exact fun _ _ _ => .rfl) : Around2 mk 0 True :=
  ⟨hw, ht, hp, fun t l r => (hc t l r).trans (and_iff_right trivial).symm⟩

theorem Around2.fix (h : Around2 mk k K) (l : Expr) :
    Around (fun t r => mk t l r) (k + Types.weight l) (K ∧ headCalm l ∧ Types.calm l) where
  weight t r := by rw [h.weight, add_assoc (rank t) k]
  type t r := h.type t l r
  plain t r := h.plain t l r
  calm t r := by rw [h.calm]; tauto

variable {l r : Expr}

theorem visitTwo_goes (hmk : Around2 mk k K)
    {vl : M (Visited Expr)} {vr : Expr → M (Visited Expr)} {fin : Expr → Expr → M ExpType}
    (hl : isCalm l → Goes (weight l) isCalm weight d (vl d))
    (hr : ∀ l' d, isCalm r → Goes (weight r) isCalm weight d (vr l' d))
    (hfin : ∀ l' r', Retypes ty (fin l' r')) (hc : calm (mk ty l r)) :
    Goes (weight (mk ty l r)) (Ordinary ty) weight d (visitTwo mk ty r vl vr fin d) := by
  rw [hmk.calm] at hc
  obtain ⟨hK, hcl, hcr⟩ := hc
  have hc' (l' : Expr) (hl' : isCalm l') : calm (mk ty l' r) := (hmk.calm _ _ _).2 ⟨hK, hl', hcr⟩
  refine (hl hcl).andGo
    (fun l' hl' => ⟨hmk.plain ty l' r, hc' l' hl', (congrArg rank (hmk.type ty l' r)).le⟩)
    (fun l' d' hl' => visitOne_goes (hmk.fix l') (hr l' d') (hfin l') (hc' l' hl')) fun _ => ?_
  rw [hmk.weight, hmk.weight]
  omega

variable {vl vr : Visit} (hl : ∀ t d, isCalm l → Goes (weight l) isCalm weight d (vl t d))
  (hr : ∀ t d, isCalm r → Goes (weight r) isCalm weight d (vr t d))
include hl hr

theorem visitTernaryExpression_goes {e : Expr} {vc : Visit} {t : ExpType}
    (he : ∀ t d, isCalm e → Goes (weight e) isCalm weight d (vc t d)) (hc : calm (.ternary ty e l r)) :
    Goes (weight (.ternary ty e l r)) (Ordinary ty) weight d
      (visitTernaryExpression ty l r vc vl vr t d) := by
  obtain ⟨hce, hlr⟩ := hc
  refine (he .long d hce).andGo (fun _ he' => ⟨rfl, ⟨he', hlr⟩, le_refl _⟩) fun e' d' he' => ?_
  have hmk : Around2 (fun t l r => .ternary t e' l r) (weight e') (headCalm e' ∧ calm e') :=
    ⟨fun _ _ _ => rfl, fun _ _ _ => rfl, fun _ _ _ => rfl, fun _ _ _ => Iff.rfl⟩
  exact visitTwo_goes hmk (hl _ d') (fun _ => hr _) (fun _ _ => .ternaryType _ _ _ _) ⟨he', hlr⟩

theorem visitBinaryExpression_goes (hmk : Around2 mk k K) (t : ExpType) (hc : calm (mk ty l r)) :
    Goes (weight (mk ty l r)) (Ordinary ty) weight d (visitBinaryExpression mk ty r vl vr t d) :=
  .pays_bind (pays_flag _) fun d => visitTwo_goes hmk (hl _ d) (fun _ => hr _)
    (fun _ _ => (Retypes.settle).flag_bind _) hc

theorem visitStrings_goes (hmk : Around2 mk k K) (hc : calm (mk ty l r)) :
    Goes (weight (mk ty l r)) (Ordinary ty) weight d (visitStrings mk ty r vl vr d) :=
  visitTwo_goes hmk (hl _ d) (fun _ => hr _) (fun _ _ => .settle) hc

omit hl hr in
theorem unlessStats_goes {e l r : Expr} {m : M (Visited Expr)} (he : Ordinary ty e)
    (hm : ∀ d, Goes (weight e) (Ordinary ty) weight d (m d)) :
    Goes (weight e) (Ordinary ty) weight d (unlessStats e l r m d) := by
  unfold unlessStats
  split
  · exact goes_quiet he rfl
  · split
    · exact goes_quiet he rfl
    · exact hm d

theorem visitAssignment_goes {op : AssignOp} (t : ExpType) (hc : calm (.assignment ty op l r)) :
    Goes (weight (.assignment ty op l r)) (Ordinary ty) weight d
      (visitAssignment ty op l r vl vr t d) := by
  have hmk := around2_bare (.assignment · op)
  have hnode : Ordinary ty (.assignment ty op l r) := ⟨rfl, hc, le_refl _⟩
  refine .pays_bind (pays_flag _) fun d => ?_
  cases op with
  | stat =>
    exact .pays_bind (pays_flag _) fun d => visitTwo_goes hmk (hl _ d) (fun _ => hr _)
      (fun _ _ => .aggregationType ty) hc
  | arith a =>
    exact unlessStats_goes hnode fun d => visitBinaryExpression_goes hl hr hmk t hc
  | concat =>
    exact unlessStats_goes hnode fun d =>
      .pays_bind (pays_flag _) fun d => visitStrings_goes hl hr hmk hc
  | set =>
    exact unlessStats_goes hnode fun d => visitTwo_goes hmk (hl _ d) (fun _ => hr _)
      (fun _ _ => (Retypes.assignedType _ _ _).bind_flag _) hc

end Shapes

/-! ### Referents and slots -/

theorem resolve2types_down (re : ExpType) (s : Slot) (t : ExpType) (acc : Bool) (d : Decls) :
    Goes (rank re) (rank · ≤ rank re) rank d (resolve2types re s t acc d) := by
  have quiet {thrown : Bool} {log : List Event} (h : newlyResolved log = 0) :
      Goes (rank re) (rank · ≤ rank re) rank d ⟨⟨re, thrown⟩, d, log⟩ := ⟨le_refl _, .quiet h _ _⟩
  have lower {u : ExpType} (hre : re = .unknown) (hu : u ≠ .unknown) :
      Goes (rank re) (rank · ≤ rank re) rank d ⟨⟨u, false⟩, d, [.resolved]⟩ := by
    have := rank_lt hu
    rw [← hre] at this
    refine ⟨le_of_lt this, fun _ => ?_⟩
    show rank u + d.weight + 1 ≤ rank re + d.weight
    omega
  rw [resolve2types, read_bind]
  rcases hs : d.get s with _ | te
  · exact quiet rfl
  · dsimp only
    split_ifs with h1 h2 h3 h4 h5 h6 h7 h8
    · exact quiet rfl
    · exact quiet rfl
    · exact quiet rfl
    · exact quiet rfl
    · exact quiet rfl
    · exact lower h6.1 h6.2
    · exact lower h7.1 h7.2
    · refine ⟨le_refl _, fun _ => ?_⟩
      rw [h8.2] at hs
      have := Decls.weight_set hs h8.1
      show rank re + (d.set s re).weight + 1 ≤ rank re + d.weight
      omega
    · cases acc <;> exact quiet rfl

theorem visitSymbol_down (sym : Symbol) (t : ExpType) (d : Decls) :
    Goes (rank sym.type) (rank ·.type ≤ rank sym.type) (rank ·.type) d (visitSymbol sym t d) := by
  have h := resolve2types_down sym.type (.decl sym.referent) t false d
  unfold visitSymbol
  simpa [Goes] using h

theorem pays_set {d : Decls} {s : Slot} {t : ExpType} (hs : d.get s = some .unknown)
    (ht : t ≠ .unknown) : Down 0 d 0 (d.set s t) [.resolved] := by
  intro _
  have := Decls.weight_set hs ht
  show 0 + (d.set s t).weight + 1 ≤ 0 + d.weight
  omega

theorem matchSlot_pays (s : Slot) (ty : ExpType) : Pays (matchSlot s ty) := by
  intro d
  rw [matchSlot, read_bind]
  rcases hs : d.get s with _ | ft
  · exact .refl _ _
  · dsimp only
    split_ifs with h
    · rw [h.2] at hs
      exact pays_set hs (by rcases h.1 with rfl | rfl <;> simp)
    · exact ((pays_flag _).bind ((pays_flag _).bind
        ((pays_flag _).bind (pays_flag _)))) d

theorem matchReturn_pays (f : FnId) (ty : ExpType) : Pays (matchReturn f ty) := by
  intro d
  rw [matchReturn, read_bind]
  rcases hs : d.get (.function f) with _ | ft
  · exact .refl _ _
  · dsimp only
    split_ifs with h
    · rw [h.1] at hs
      exact pays_set hs (by rcases h.2 with rfl | rfl <;> simp)
    · exact ((pays_flag _).bind (pays_flag _)) d

/-! ### Prints -/

theorem conversions_ne_unknown {ks : List FormatComponent} {ts : List ExpType}
    (h : conversions ks = .ok ts) : ∀ t ∈ ts, t ≠ .unknown := by
  unfold conversions at h
  split at h
  · cases h
  · cases h
    intro t ht
    obtain ⟨k, _, hk⟩ := mem_flatMap.1 ht
    unfold ofComponent at hk
    rcases hc : ofConversion k.type with _ | u
    · simp [hc] at hk
    · have hu : u ≠ .unknown := by
        revert hc
        cases k.type <;> simp [ofConversion] <;> rintro rfl <;> simp
      simp only [hc, mem_append, mem_singleton] at hk
      rcases hk with (hk | hk) | rfl
      · split at hk <;> simp_all
      · split at hk <;> simp_all
      · exact hu

/-- Arguments in place of `es`. -/
def CalmFor (es es' : List Expr) : Prop :=
  calmAll es' ∧ ((∀ e ∈ es, e.type ≠ .unknown) → ∀ e ∈ es', e.type ≠ .unknown)

theorem CalmFor.cons {e e' : Expr} {es es' : List Expr}
    (he : isCalm e' ∧ rank e'.type ≤ rank e.type) (hes : CalmFor es es') :
    CalmFor (e :: es) (e' :: es') := by
  refine ⟨⟨he.1, hes.1⟩, fun ht => forall_mem_cons.2 ⟨?_, ?_⟩⟩
  · exact ne_unknown_of_rank_le (ht e mem_cons_self) he.2
  · exact hes.2 fun x hx => ht x (mem_cons_of_mem _ hx)

/-- The visit of an argument, what is done after it, and the visits of the rest. -/
theorem CalmFor.andGo {e : Expr} {es : List Expr} {d : Decls} {v : M (Visited Expr)}
    {step : Expr → M Unit} {rest : M (Visited (List Expr))} (hv : Progress e d (v d))
    (hc : calmAll (e :: es)) (hstep : ∀ e', Pays (step e'))
    (hrest : ∀ d, Goes (weightAll es) (CalmFor es) weightAll d (rest d)) :
    Goes (weightAll (e :: es)) (CalmFor (e :: es)) weightAll d (Types.andGo v (· :: es) (fun e' => do
      step e'
      Types.andGo rest (e' :: ·) fun es' => fine (e' :: es')) d) := by
  refine (hv.goes hc.1.1).andGo (fun e' he' => .cons he' ⟨hc.2, id⟩) fun e' d' he' => ?_
  refine .pays_bind (hstep e') fun d' => ?_
  exact (hrest d').last fun es' hes' => .cons he' hes'

theorem printType_ne_unknown (f : Format) : printType f ≠ .unknown := by
  unfold printType
  split <;> simp

theorem countP_unknown_eq_zero {es : List Expr} :
    (es.countP fun e => e.type = .unknown) = 0 ↔ ∀ e ∈ es, e.type ≠ .unknown := by
  simp [countP_eq_zero]

/-- A print without a format string, after the visits of its arguments. -/
theorem plainPrint_progress (ty : ExpType) {f : Format} (hf : f.printWithFormat = false)
    {es es' : List Expr} {d d' : Decls} {log : List Event}
    (h : Goes (weightAll es) (CalmFor es) weightAll d ⟨⟨es', false⟩, d', log⟩) :
    Progress (.printFormat ty f es) d
      ⟨⟨.printFormat (printedType f ty (es'.countP fun e => e.type = .unknown) d').val f es',
        false⟩, (printedType f ty (es'.countP fun e => e.type = .unknown) d').state,
        log ++ (printedType f ty (es'.countP fun e => e.type = .unknown) d').log⟩ := by
  obtain ⟨⟨hcalm, htypes⟩, hdown⟩ := h
  have hcalm (t : ExpType) : calm (.printFormat t f es') := by
    simpa only [calm, hf, Bool.false_eq_true, if_false] using hcalm
  replace hdown := hdown.frame (rank ty)
  by_cases hz : (es'.countP fun e => e.type = .unknown) = 0
  · have htyped := countP_unknown_eq_zero.1 hz
    obtain ⟨hs, hr⟩ := (Retypes.settle (printType_ne_unknown f) : Retypes ty _) d'
    have hd : Down (weight (.printFormat ty f es)) d
        (weight (.printFormat (settle ty (printType f) d').val f es'))
        (settle ty (printType f) d').state (log ++ (settle ty (printType f) d').log) := by
      refine hdown.trans fun _ => ?_
      rw [hs]
      simp only [weight]
      omega
    rw [printedType, if_pos hz]
    exact ⟨hcalm _, rfl, fun _ => ⟨fun _ _ => htyped, le_of_add_right_le hr, hd⟩, fun _ => hd⟩
  · rw [printedType, if_neg hz]
    refine ⟨hcalm _, rfl, ?_, ?_⟩
    · intro hh
      -- a type would mean typed arguments, before the visit and so after it
      have hty : ty = .unknown := by
        by_contra hty
        exact hz (countP_unknown_eq_zero.2 (htypes (hh hf hty)))
      subst hty
      exact ⟨fun _ hu => absurd rfl hu, le_refl _, hdown.trans (.quiet rfl _ _)⟩
    · intro hl
      exact absurd rfl (hl (by simp [isPlainPrint, hf]) rfl)

/-- `check_arg_type` after its visit: a print that has lost its type is forced. -/
theorem checkArgType_progress {e e' : Expr} {d d' : Decls} {log : List Event} {t : ExpType}
    (h : Progress e d ⟨⟨e', false⟩, d', log⟩) (ht : t ≠ .unknown) :
    calm (checkArgType t e' d').val ∧
      Down (weight e) d (weight (checkArgType t e' d').val) (checkArgType t e' d').state
        (log ++ (checkArgType t e' d').log) := by
  unfold checkArgType
  split
  · next hu =>
    refine ⟨(calm_setType t e').2 h.calm, ?_⟩
    by_cases hp : isPlainPrint e' = true
    · intro hf
      simp [hp] at hf
    · have hd := h.loose fun hpe _ => absurd (h.plain.trans hpe) hp
      refine hd.trans fun _ => ?_
      have hw := weight_setType t e'
      have := rank_lt ht
      rw [hu] at hw
      simp only [hp, Bool.false_eq_true, if_false, bind_apply, tell_apply,
        pure_apply, append_nil]
      show weight (setType t e') + d'.weight + 1 ≤ weight e' + d'.weight
      omega
  · next hk =>
    have hd := h.loose fun _ _ => hk
    obtain ⟨hs, hl⟩ := quiet_flag (e'.type ≠ t) (e := .mismatch e'.type t) rfl d'
    simp only [bind_apply, pure_apply, hs, append_nil]
    exact ⟨h.calm, hd.trans (.quiet hl _ _)⟩

/-! ### All expressions -/

variable (c : Ctx)

mutual

theorem visitE_progress : ∀ (e : Expr) (t : ExpType) (d : Decls), calm e →
    Progress e d (visitE c e t d)
  | .literalNumber ty n, t, d, hc | .literalString ty n, t, d, hc =>
    .of_goes rfl (.pays_bind (pays_flag _) fun _ => goes_quiet ⟨rfl, hc, le_refl _⟩ rfl)
  | .binary ty op l r, t, d, hc => by
    have hmk := around2_bare (.binary · op)
    exact .of_goes rfl (visitBinaryExpression_goes (goes_child (visitE_progress l))
      (goes_child (visitE_progress r)) hmk t hc)
  | .logicalOr ty l r, t, d, hc => by
    have hmk := around2_bare .logicalOr
    exact .of_goes rfl (visitBinaryExpression_goes (goes_child (visitE_progress l))
      (goes_child (visitE_progress r)) hmk t hc)
  | .logicalAnd ty l r, t, d, hc => by
    have hmk := around2_bare .logicalAnd
    exact .of_goes rfl (visitBinaryExpression_goes (goes_child (visitE_progress l))
      (goes_child (visitE_progress r)) hmk t hc)
  | .comparison ty op l r, t, d, hc => by
    have hmk := around2_bare (.comparison · op)
    exact .of_goes rfl (.pays_bind (pays_flag _) fun d => visitTwo_goes hmk (goes_child (visitE_progress l) _ d)
      (fun _ => goes_child (visitE_progress r) _) (fun _ _ => (Retypes.settle).flag_bind _) hc)
  | .concatenation ty l r, t, d, hc => by
    have hmk := around2_bare .concatenation
    exact .of_goes rfl (.pays_bind (pays_flag _) fun d =>
      visitStrings_goes (goes_child (visitE_progress l)) (goes_child (visitE_progress r)) hmk hc)
  | .unary ty op e, t, d, hc => by
    have hmk := around_bare (.unary · op)
    exact .of_goes rfl (.pays_bind (pays_flag _) fun d =>
      visitOne_goes hmk (goes_child (visitE_progress e) _ d) (fun _ => .settle) hc)
  | .crement ty post op e, t, d, hc => by
    have hmk := around_bare (.crement · post op)
    exact .of_goes rfl (.pays_bind (pays_flag _) fun d =>
      visitOne_goes hmk (goes_child (visitE_progress e) _ d) (fun _ => .settle) hc)
  | .arrayIn ty e, t, d, hc => by
    have hmk := around_bare .arrayIn
    exact .of_goes rfl (visitOne_goes hmk (goes_child (visitE_progress e) _ d) (fun _ => .arrayInType ty t) hc)
  | .ternary ty e l r, t, d, hc =>
    .of_goes rfl (visitTernaryExpression_goes (goes_child (visitE_progress l))
      (goes_child (visitE_progress r)) (goes_child (visitE_progress e)) hc)
  | .assignment ty op l r, t, d, hc =>
    .of_goes rfl (visitAssignment_goes (goes_child (visitE_progress l)) (goes_child (visitE_progress r)) t hc)
  | .symbol sym, t, d, hc => by
    have h := visitSymbol_down sym t d
    rw [visitE, bind_apply]
    exact .of_goes rfl ⟨⟨rfl, trivial, h.1⟩, by simpa [weight, symbolNode] using h.2⟩
  | .targetSymbol ty tgt es, t, d, hc => by
    rw [visitE]
    split
    · exact .stay rfl hc rfl
    · exact .stay rfl hc rfl
  | .castOp ty tgt e es, t, d, hc => .stay rfl hc rfl
  | .definedOp ty e, t, d, hc => .stay rfl hc rfl
  | .arrayindex ty base es, t, d, hc => by
    refine .of_goes rfl ((resolve2types_down ty (.decl base) t false d).andGo
      (fun _ hr => ⟨rfl, hc, hr⟩) fun ty' d' hr => ?_)
    rw [read_bind]
    split
    · exact goes_quiet ⟨rfl, hc, hr⟩ rfl
    · exact (visitSlots_goes es _ d' hc).last fun es' hes' => ⟨rfl, hes'.1, hr⟩
  | .histindex ty h stat [], t, d, hc => .stay rfl hc rfl
  | .histindex ty h stat (e :: es), t, d, hc => by
    have hmk : Around2 (fun t e s => .histindex t h s (e :: es)) (weightAll es) (calmAll es) := by
      refine ⟨fun t e s => ?_, fun _ _ _ => rfl, fun _ _ _ => rfl, fun t e s => ?_⟩
      · simp only [weight, weightAll]
        omega
      · simp only [calm, calmAll]
        tauto
    refine .of_goes rfl (.pays_bind (pays_flag _) fun d => ?_)
    exact visitTwo_goes hmk (goes_child (visitE_progress e) _ d)
      (fun _ d hs => .pays_bind (pays_flag _) fun d => goes_child (visitE_progress stat) _ d hs)
      (fun _ _ => .histindexType ty) hc
  | .functioncall ty f es, t, d, hc => by
    refine .of_goes rfl ((resolve2types_down ty (.function f) t true d).andGo
      (fun _ hr => ⟨rfl, hc, hr⟩) fun ty' d' hr => .pays_bind (pays_flag _) fun d' => ?_)
    cases c.formals f with
    | none => exact goes_quiet ⟨rfl, hc, hr⟩ rfl
    | some ks =>
      dsimp only
      split
      · exact goes_quiet ⟨rfl, hc, hr⟩ rfl
      · exact (visitSlots_goes es _ d' hc).last fun es' hes' => ⟨rfl, hes'.1, hr⟩
  | .printFormat ty f es, t, d, hc => by
    rw [visitE]
    cases hf : f.printWithFormat with
    | true =>
      have hp (t : ExpType) (es : List Expr) : isPlainPrint (.printFormat t f es) = false := by
        simp [isPlainPrint, hf]
      have hcw : calmWanted es := by simpa [calm, hf] using hc
      rw [if_pos rfl]
      cases hw : conversions f.components with
      | error err => exact .stay (hp _ _) hc rfl
      | ok wanted =>
        dsimp only
        split
        · exact .stay (hp _ _) hc rfl
        · have hnode {t : ExpType} {es : List Expr} (ht : rank t ≤ rank ty) (h : calmWanted es) :
              Ordinary ty (.printFormat t f es) := ⟨hp t es, by simpa [calm, hf] using h, ht⟩
          refine .of_goes (hp _ _) ((visitWanted_goes es wanted d hcw
            (conversions_ne_unknown hw)).andGo (fun _ => hnode (le_refl _)) fun es' d' hes' => ?_)
          rw [printedType, if_pos rfl]
          exact (Retypes.settle (printType_ne_unknown f)).goes (f := (.printFormat · f es'))
            (fun _ => rfl) (fun _ ht => hnode ht hes') d'
    | false =>
      have hca : calmAll es := by simpa [calm, hf] using hc
      rw [if_neg Bool.false_ne_true, andGo_apply, bind_apply]
      have h := visitArgs_goes es d hca
      generalize visitArgs c es d = r at h ⊢
      obtain ⟨⟨es', thrown⟩, d', log⟩ := r
      cases thrown with
      | true =>
        obtain ⟨⟨hcalm, htypes⟩, hd⟩ := h
        replace hd : Down (weight (.printFormat ty f es)) d (weight (.printFormat ty f es')) d'
            (log ++ []) := by
          rw [append_nil]
          exact hd.frame (rank ty)
        refine ⟨by simpa [calm, hf] using hcalm, rfl, fun hh => ⟨?_, le_refl _, hd⟩, fun _ => hd⟩
        exact fun _ hty => htypes (hh hf hty)
      | false =>
        rw [if_neg Bool.false_ne_true]
        simpa [fine] using plainPrint_progress ty hf h
  | .printHist ty f h stat, t, d, hc => by
    have hmk := around_bare (.printHist · f h)
    exact .of_goes rfl (visitOne_goes hmk (goes_child (visitE_progress stat) _ d)
      (fun _ => .settle (printType_ne_unknown f)) hc)
  | .statOp ty ct stat, t, d, hc => by
    have hmk := around_bare (.statOp · ct)
    exact .of_goes rfl (visitOne_goes hmk (goes_child (visitE_progress stat) _ d)
      (fun _ => (Retypes.settle).flag_bind _) hc)

theorem visitSlots_goes : ∀ (es : List Expr) (ss : List Slot) (d : Decls), calmAll es →
    Goes (weightAll es) (CalmFor es) weightAll d (visitSlots c es ss d)
  | [], _, d, hc | _ :: _, [], d, hc => by
    rw [visitSlots]
    · exact goes_quiet ⟨hc, id⟩ rfl
    · simp
  | e :: es, s :: ss, d, hc => by
    rw [visitSlots, read_bind]
    rcases hs : d.get s with _ | ft
    · exact goes_quiet ⟨hc, id⟩ rfl
    · exact CalmFor.andGo (visitE_progress e ft d hc.1.2) hc (fun e' => matchSlot_pays s e'.type)
        fun d => visitSlots_goes es ss d hc.2

theorem visitWanted_goes : ∀ (es : List Expr) (ts : List ExpType) (d : Decls),
    calmWanted es → (∀ t ∈ ts, t ≠ .unknown) →
      Goes (weightAll es) calmWanted weightAll d (visitWanted c es ts d)
  | [], _, d, hc, _ | _ :: _, [], d, hc, _ => by
    rw [visitWanted]
    · exact ⟨hc, .refl _ _⟩
    · simp
  | e :: es, t :: ts, d, hc, ht => by
    have hp := visitE_progress e t d hc.1
    rw [visitWanted, andGo_apply, bind_apply]
    generalize visitE c e t d = r at hp ⊢
    obtain ⟨⟨e', thrown⟩, d', log⟩ := r
    cases thrown with
    | true =>
      refine ⟨⟨hp.calm, hc.2⟩, ?_⟩
      have := (hp.loose fun _ h => nomatch h).frame_right (weightAll es)
      simpa [weightAll] using this
    | false =>
      rw [if_neg Bool.false_ne_true, bind_apply, andGo_fine]
      obtain ⟨hc', hd'⟩ := checkArgType_progress hp (ht t (mem_cons_self ..))
      obtain ⟨hcs, hds⟩ := visitWanted_goes es ts (checkArgType t e' d').state hc.2
        fun u hu => ht u (mem_cons_of_mem _ hu)
      refine ⟨⟨hc', hcs⟩, ?_⟩
      have := (hd'.frame_right (weightAll es)).trans (hds.frame (weight (checkArgType t e' d').val))
      simpa [weightAll] using this

theorem visitArgs_goes : ∀ (es : List Expr) (d : Decls), calmAll es →
    Goes (weightAll es) (CalmFor es) weightAll d (visitArgs c es d)
  | [], d, hc => goes_quiet ⟨hc, id⟩ rfl
  | e :: es, d, hc => by
    exact CalmFor.andGo (visitE_progress e .unknown d hc.1.2) hc (fun _ => pays_flag _)
      fun d => visitArgs_goes es d hc.2

end

/-! ## Statements -/

def calmMaybe (o : Option Expr) : Prop := ∀ e ∈ o, isCalm e

mutual

def calmS : Stmt → Prop
  | .block ss => calmBlock ss
  | .tryBlock b _ h => calmOpt b ∧ calmOpt h
  | .expr e => isCalm e
  | .ifStmt e s o => isCalm e ∧ calmS s ∧ calmOpt o
  | .forLoop i e o b => calmMaybe i ∧ isCalm e ∧ calmMaybe o ∧ calmS b
  | .foreachLoop _ _ _ l b => calmMaybe l ∧ calmS b
  | .foreachHist _ _ e l b => isCalm e ∧ calmMaybe l ∧ calmS b
  | .returnStmt e => isCalm e
  | .deleteStmt e => isCalm e
  | .embeddedcode _ | .null | .next | .breakStmt | .continueStmt => True

def calmOpt : Option Stmt → Prop
  | none => True
  | some s => calmS s

def calmBlock : List Stmt → Prop
  | [] => True
  | s :: ss => calmS s ∧ calmBlock ss

end

theorem visitE_goes (t : ExpType) {e : Expr} (h : isCalm e) (d : Decls) :
    Goes (weight e) isCalm weight d (visitE c e t d) :=
  goes_child (visitE_progress c e) t d h

theorem visitMaybe_goes (t : ExpType) {o : Option Expr} (h : calmMaybe o) (d : Decls) :
    Goes (weightMaybe o) calmMaybe weightMaybe d (visitMaybe c t o d) := by
  cases o with
  | none => exact goes_quiet h rfl
  | some e =>
    refine (visitE_goes c t (h e rfl) d).last fun e' he' => ?_
    rintro x ⟨⟩
    exact he'

theorem visitSymbol_goes (e : Symbol) (t : ExpType) (d : Decls) :
    Goes (rank e.type) (fun _ => True) (fun e => rank e.type) d (visitSymbol e t d) :=
  ⟨trivial, (visitSymbol_down e t d).2⟩

theorem visitIndexes_goes : ∀ (es : List Symbol) (ss : List Slot) (d : Decls),
    Goes (weightIndexes es) (fun _ => True) weightIndexes d (visitIndexes es ss d)
  | [], _, d | _ :: _, [], d => by
    rw [visitIndexes]
    · exact goes_quiet trivial rfl
    · simp
  | e :: es, s :: ss, d => by
    rw [visitIndexes, read_bind]
    rcases d.get s with _ | ft
    · exact goes_quiet trivial rfl
    · dsimp only
      refine (visitSymbol_goes e ft d).andGo (fun _ _ => trivial) fun e' d' _ => ?_
      refine .pays_bind (matchSlot_pays s e'.type) fun d'' => ?_
      exact (visitIndexes_goes es ss d'').last fun _ _ => trivial

theorem visitForeachIndexes_goes (base : Var) (es : List Symbol) (d : Decls) :
    Goes (weightIndexes es) (fun _ => True) weightIndexes d (visitForeachIndexes base es d) := by
  rw [visitForeachIndexes, read_bind]
  split
  · exact goes_quiet trivial rfl
  · exact visitIndexes_goes es _ d

theorem visitBucket_goes (es : List Symbol) (d : Decls) :
    Goes (weightIndexes es) (fun _ => True) weightIndexes d (visitBucket es d) := by
  cases es with
  | nil => exact goes_quiet trivial rfl
  | cons e es =>
    refine .pays_bind (pays_flag _) fun d => ?_
    refine (visitSymbol_goes e .long d).andGo (fun _ _ => trivial) fun e' d' _ => ?_
    exact .pays_bind (pays_flag _) fun d' => goes_quiet trivial rfl

theorem visitDelete_goes {e : Expr} (h : isCalm e) (d : Decls) :
    Goes (weight e) isCalm weight d (visitDelete c e d) := by
  cases e with
  | symbol | arrayindex | histindex => exact visitE_goes c .unknown h d
  | _ => exact goes_quiet h rfl

theorem visitCatchVar_goes (v : Option Symbol) (d : Decls) :
    Goes (weightSymbol v) (fun _ => True) weightSymbol d (visitCatchVar v d) := by
  cases v with
  | none => exact goes_quiet trivial rfl
  | some s => exact (visitSymbol_goes s .string d).last fun _ _ => trivial

theorem visitReturn_goes {e : Expr} (h : isCalm e) (d : Decls) :
    Goes (weight e) calmS weightS d (visitReturn c e d) := by
  unfold visitReturn
  cases c.current with
  | none => exact goes_quiet (a := Stmt.returnStmt e) h rfl
  | some f =>
    dsimp only
    rw [read_bind]
    rcases d.get (.function f) with _ | ft
    · exact goes_quiet (a := Stmt.returnStmt e) h rfl
    · dsimp only
      refine (visitE_goes c ft h d).andGo (fun e' he' => he') fun e' d' he' => ?_
      refine .pays_bind (matchReturn_pays f e'.type) fun d'' => ?_
      exact goes_quiet (a := Stmt.returnStmt e') he' rfl

mutual

theorem visitS_goes : ∀ (s : Stmt) (d : Decls), calmS s →
    Goes (weightS s) calmS weightS d (visitS c s d)
  | .block ss, d, h => by
    obtain ⟨hc, hd⟩ := visitBlock_goes ss d h
    exact ⟨hc, by simpa [visitS, fine, weightS] using hd⟩
  | .tryBlock b v h, d, hc => by
    refine (visitOpt_goes b d hc.1).andGo (fun b' hb => ⟨hb, hc.2⟩) fun b' d hb => ?_
    refine (visitCatchVar_goes v d).andGo (fun v' _ => ⟨hb, hc.2⟩) fun v' d _ => ?_
    refine (visitOpt_goes h d hc.2).last fun h' hh => ⟨hb, hh⟩
  | .expr e, d, h => (visitE_goes c .unknown h d).last fun _ he => he
  | .ifStmt e s o, d, h => by
    obtain ⟨he, hs, ho⟩ := h
    refine (visitE_goes c .long he d).andGo (fun e' he => ⟨he, hs, ho⟩) fun e' d he => ?_
    refine (visitS_goes s d hs).andGo (fun s' hs => ⟨he, hs, ho⟩) fun s' d hs => ?_
    refine (visitOpt_goes o d ho).last fun o' ho => ⟨he, hs, ho⟩
  | .forLoop i e o b, d, h => by
    obtain ⟨hi, he, ho, hb⟩ := h
    refine (visitMaybe_goes c .unknown hi d).andGo (fun i' hi => ⟨hi, he, ho, hb⟩) fun i' d hi => ?_
    refine (visitE_goes c .long he d).andGo (fun e' he => ⟨hi, he, ho, hb⟩) fun e' d he => ?_
    refine (visitMaybe_goes c .unknown ho d).andGo (fun o' ho => ⟨hi, he, ho, hb⟩) fun o' d ho => ?_
    refine (visitS_goes b d hb).last fun b' hb => ⟨hi, he, ho, hb⟩
  | .foreachLoop idx base sort l b, d, h => by
    obtain ⟨hl, hb⟩ := h
    refine (visitForeachIndexes_goes base idx d).andGo (fun x _ => ⟨hl, hb⟩) fun x d _ => ?_
    refine (visitMaybe_goes c .long hl d).andGo (fun l' hl => ⟨hl, hb⟩) fun l' d hl => ?_
    refine (visitS_goes b d hb).last fun b' hb => ⟨hl, hb⟩
  | .foreachHist idx hist e l b, d, h => by
    obtain ⟨he, hl, hb⟩ := h
    refine (visitBucket_goes idx d).andGo (fun x _ => ⟨he, hl, hb⟩) fun x d _ => ?_
    refine (visitE_goes c .stats he d).andGo (fun e' he => ⟨he, hl, hb⟩) fun e' d he => ?_
    refine (visitMaybe_goes c .long hl d).andGo (fun l' hl => ⟨he, hl, hb⟩) fun l' d hl => ?_
    refine (visitS_goes b d hb).last fun b' hb => ⟨he, hl, hb⟩
  | .returnStmt e, d, h => visitReturn_goes c h d
  | .deleteStmt e, d, h => (visitDelete_goes c h d).last fun _ he => he
  | .embeddedcode _, d, h | .null, d, h | .next, d, h | .breakStmt, d, h | .continueStmt, d, h =>
    goes_quiet h rfl

theorem visitOpt_goes : ∀ (o : Option Stmt) (d : Decls), calmOpt o →
    Goes (weightOpt o) calmOpt weightOpt d (visitOpt c o d)
  | none, _, h => goes_quiet h rfl
  | some s, d, h => (visitS_goes s d h).last fun _ hs => hs

theorem visitBlock_goes : ∀ (ss : List Stmt) (d : Decls), calmBlock ss →
    calmBlock (visitBlock c ss d).val ∧
      Down (weightBlock ss) d (weightBlock (visitBlock c ss d).val) (visitBlock c ss d).state
        (visitBlock c ss d).log
  | [], d, h => ⟨h, .refl _ _⟩
  | s :: ss, d, h => by
    obtain ⟨hc, hd⟩ := visitS_goes s d h.1
    obtain ⟨hc', hd'⟩ := visitBlock_goes ss (visitS c s d).state h.2
    refine ⟨⟨hc, hc'⟩, ?_⟩
    have := (hd.frame_right (weightBlock ss)).trans (hd'.frame (weightS (visitS c s d).val.node))
    simpa [visitBlock, weightBlock] using this

end

/-! ## Passes -/

def calmFunctions (fds : List Functiondecl) : Prop := ∀ fd ∈ fds, calmS fd.body

def calmProbes (ps : List Probe) : Prop := ∀ p ∈ ps, calmS p.body ∧ calmMaybe p.condition

theorem calmFunctions_cons {fd : Functiondecl} {fds : List Functiondecl} :
    calmFunctions (fd :: fds) ↔ calmS fd.body ∧ calmFunctions fds := forall_mem_cons

theorem calmProbes_cons {p : Probe} {ps : List Probe} :
    calmProbes (p :: ps) ↔ (calmS p.body ∧ calmMaybe p.condition) ∧ calmProbes ps :=
  forall_mem_cons

theorem visitFunctions_goes (g : FnId → Option (List Nat)) :
    ∀ (fds : List Functiondecl) (f : FnId) (d : Decls), calmFunctions fds →
      Goes (weightFunctions fds) calmFunctions weightFunctions d (visitFunctions g f fds d)
  | [], f, d, h => goes_quiet h rfl
  | fd :: fds, f, d, h => by
    rw [calmFunctions_cons] at h
    refine (visitS_goes _ fd.body d h.1).andGo (fun b hb => calmFunctions_cons.2 ⟨hb, h.2⟩)
      fun b d hb => ?_
    exact (visitFunctions_goes g fds (f + 1) d h.2).last fun _ hf => calmFunctions_cons.2 ⟨hb, hf⟩

theorem visitProbes_goes (g : FnId → Option (List Nat)) :
    ∀ (ps : List Probe) (d : Decls), calmProbes ps →
      Goes (weightProbes ps) calmProbes weightProbes d (visitProbes g ps d)
  | [], d, h => goes_quiet h rfl
  | p :: ps, d, h => by
    rw [calmProbes_cons] at h
    obtain ⟨⟨hb, hk⟩, hps⟩ := h
    refine (visitS_goes _ p.body d hb).andGo (fun b hb => calmProbes_cons.2 ⟨⟨hb, hk⟩, hps⟩)
      fun b d hb => ?_
    refine (visitMaybe_goes _ .long hk d).andGo (fun k hk => calmProbes_cons.2 ⟨⟨hb, hk⟩, hps⟩)
      fun k d hk => ?_
    exact (visitProbes_goes g ps d hps).last fun ps' hps => calmProbes_cons.2 ⟨⟨hb, hk⟩, hps⟩

theorem visitGlobals_pays : ∀ gs : List Vardecl, Pays (visitGlobals gs)
  | [] => fun _ => .refl _ _
  | _ :: gs => (pays_flag _).bind (visitGlobals_pays gs)

namespace Program

def weight (p : Program) : Nat :=
  weightFunctions p.functions + weightProbes p.probes + p.decls.weight

def Calm (p : Program) : Prop := calmFunctions p.functions ∧ calmProbes p.probes

/-- A pass over a calm program leaves a calm one, and one of less weight if it resolves
something and forces no print. -/
theorem next_spec {p : Program} (h : p.Calm) :
    p.next.Calm ∧ (Event.forced ∉ p.visited.log →
      p.next.weight + newlyResolved p.visited.log ≤ p.weight) := by
  have key : Goes (weightFunctions p.functions + weightProbes p.probes)
      (fun x => calmFunctions x.1 ∧ calmProbes x.2)
      (fun x => weightFunctions x.1 + weightProbes x.2) p.decls p.visited := by
    rw [visited, visitAll]
    refine (visitFunctions_goes p.formals p.functions 0 p.decls h.1).andGo
      (fun fs hfs => ⟨hfs, h.2⟩) fun fs d hfs => ?_
    refine (visitProbes_goes p.formals p.probes d h.2).andGo (fun ps hps => ⟨hfs, hps⟩)
      fun ps d hps => ?_
    exact .pays_bind (visitGlobals_pays d.globals) fun _ => ⟨⟨hfs, hps⟩, .refl _ _⟩
  refine ⟨key.1, fun hf => ?_⟩
  have := key.2 hf
  simpa [weight, next] using this

end Program

/-! ## A tree as it is parsed is calm -/

mutual

theorem isCalm_of_asParsed : ∀ {e : Expr}, asParsed e → isCalm e
  | .literalString _ _, _ | .literalNumber _ _, _ | .symbol _, _ | .targetSymbol _ _ _, _
  | .castOp _ _ _ _, _ | .definedOp _ _, _ => ⟨trivial, trivial⟩
  | .binary _ _ _ _, h | .logicalOr _ _ _, h | .logicalAnd _ _ _, h | .comparison _ _ _ _, h
  | .concatenation _ _ _, h | .assignment _ _ _ _, h =>
    ⟨trivial, isCalm_of_asParsed h.2.1, isCalm_of_asParsed h.2.2⟩
  | .unary _ _ _, h | .crement _ _ _ _, h | .arrayIn _ _, h | .printHist _ _ _ _, h
  | .statOp _ _ _, h => ⟨trivial, isCalm_of_asParsed h.2⟩
  | .ternary _ _ _ _, h => ⟨trivial, isCalm_of_asParsed h.2.1, isCalm_of_asParsed h.2.2.1,
      isCalm_of_asParsed h.2.2.2⟩
  | .arrayindex _ _ _, h => ⟨trivial, calmAll_of_asParsed h.2⟩
  | .histindex _ _ _ _, h => ⟨trivial, calmAll_of_asParsed h.2.2, isCalm_of_asParsed h.2.1⟩
  | .functioncall _ _ _, h => ⟨trivial, calmAll_of_asParsed h⟩
  | .printFormat _ f es, h => by
    refine ⟨fun _ ht => absurd h.1 ht, ?_⟩
    rw [calm]
    split
    · exact calmWanted_of_asParsed h.2
    · exact calmAll_of_asParsed h.2

theorem calmAll_of_asParsed : ∀ {es : List Expr}, asParsedAll es → calmAll es
  | [], _ => trivial
  | _ :: _, h => ⟨isCalm_of_asParsed h.1, calmAll_of_asParsed h.2⟩

theorem calmWanted_of_asParsed : ∀ {es : List Expr}, asParsedAll es → calmWanted es
  | [], _ => trivial
  | _ :: _, h => ⟨(isCalm_of_asParsed h.1).2, calmWanted_of_asParsed h.2⟩

end

theorem calmMaybe_of_asParsed {o : Option Expr} (h : asParsedMaybe o) : calmMaybe o :=
  fun e he => isCalm_of_asParsed (h e he)

mutual

theorem calmS_of_asParsed : ∀ {s : Stmt}, asParsedS s → calmS s
  | .block _, h => calmBlock_of_asParsed h
  | .tryBlock _ _ _, h => ⟨calmOpt_of_asParsed h.1, calmOpt_of_asParsed h.2⟩
  | .expr _, h | .returnStmt _, h | .deleteStmt _, h => isCalm_of_asParsed h
  | .ifStmt _ _ _, h => ⟨isCalm_of_asParsed h.1, calmS_of_asParsed h.2.1, calmOpt_of_asParsed h.2.2⟩
  | .forLoop _ _ _ _, h => ⟨calmMaybe_of_asParsed h.1, isCalm_of_asParsed h.2.1,
      calmMaybe_of_asParsed h.2.2.1, calmS_of_asParsed h.2.2.2⟩
  | .foreachLoop _ _ _ _ _, h => ⟨calmMaybe_of_asParsed h.1, calmS_of_asParsed h.2⟩
  | .foreachHist _ _ _ _ _, h => ⟨isCalm_of_asParsed h.1, calmMaybe_of_asParsed h.2.1,
      calmS_of_asParsed h.2.2⟩
  | .embeddedcode _, _ | .null, _ | .next, _ | .breakStmt, _ | .continueStmt, _ => trivial

theorem calmOpt_of_asParsed : ∀ {o : Option Stmt}, asParsedOpt o → calmOpt o
  | none, _ => trivial
  | some _, h => calmS_of_asParsed h

theorem calmBlock_of_asParsed : ∀ {ss : List Stmt}, asParsedBlock ss → calmBlock ss
  | [], _ => trivial
  | _ :: _, h => ⟨calmS_of_asParsed h.1, calmBlock_of_asParsed h.2⟩

end

theorem Program.AsParsed.calm {p : Program} (h : p.AsParsed) : p.Calm :=
  ⟨fun fd hfd => calmS_of_asParsed (h.1 fd hfd),
    fun pr hpr => ⟨calmS_of_asParsed (h.2 pr hpr).1, calmMaybe_of_asParsed (h.2 pr hpr).2⟩⟩

/-! ## The loop -/

/-- The loop comes to its `n`-th pass, and this pass forces a print. -/
def ForcedIn (s : Session) (n : Nat) : Prop :=
  ∃ st, turns n (start s) = .inl st ∧ Event.forced ∈ st.program.visited.log

/-- How far a state of the loop is from its end, if no print is forced. -/
def LoopState.weight (st : LoopState) : Nat :=
  st.program.weight + if st.assertResolvability then 0 else 1

theorem turns_succ (n : Nat) (st : LoopState) : turns (n + 1) st = (turns n st).elim turn .inr := by
  induction n generalizing st with
  | zero =>
    rw [turns]
    rcases h : turn st with st' | r <;> simp [turns, h]
  | succ n ih =>
    rw [turns]
    rcases h : turn st with st' | r
    · dsimp only
      rw [ih st', turns, h]
    · simp [turns, h]

theorem turn_spec {st st' : LoopState} (hc : st.program.Calm) (h : turn st = .inl st') :
    st'.program.Calm ∧ (Event.forced ∉ st.program.visited.log → st'.weight < st.weight) := by
  obtain ⟨hcalm, hw⟩ := Program.next_spec hc
  unfold turn at h
  dsimp only at h
  split_ifs at h with h1 h2 h3 h4
  · -- nothing was resolved, and the next pass is the one with error messages
    cases h
    refine ⟨hcalm, fun hf => ?_⟩
    have := hw hf
    simp only [LoopState.weight, h4, Bool.false_eq_true, if_false, if_true]
    omega
  · cases h
    refine ⟨hcalm, fun hf => ?_⟩
    have := hw hf
    simp only [LoopState.weight]
    omega

theorem turns_calm {s : Session} (h : (Program.ofSession s).Calm) :
    ∀ {n : Nat} {st : LoopState}, turns n (start s) = .inl st → st.program.Calm := by
  intro n
  induction n with
  | zero =>
    intro st hst
    cases hst
    exact h
  | succ n ih =>
    intro st hst
    rw [turns_succ] at hst
    rcases hn : turns n (start s) with st0 | r
    · rw [hn] at hst
      exact (turn_spec (ih hn) hst).1
    · rw [hn] at hst
      cases hst

theorem turns_mono {n m : Nat} {st : LoopState} {r : LoopEnd} (h : turns n st = .inr r)
    (hm : n ≤ m) : turns m st = .inr r := by
  induction m, hm using le_induction with
  | base => exact h
  | succ m _ ih => rw [turns_succ, ih, Sum.elim_inr]

/-- The format of `printf("%s", ..)`. -/
def printfString : Format :=
  ⟨true, true, false, false, false, [37, 115], [⟨0, .unspecified, .unspecified, .string, []⟩],
    ⟨0, .unspecified, .unspecified, .unspecified, []⟩⟩

/-- The format of `sprint(..)`. -/
def sprintPlain : Format :=
  ⟨false, false, false, false, false, [], [], ⟨0, .unspecified, .unspecified, .unspecified, []⟩⟩

/-- A local `x` that has no type. -/
def untypedX : Expr := .symbol ⟨.unknown, .loc 0⟩

/-- `printf("%s", sprint(x))` -/
def printSprint : Stmt :=
  .expr (.printFormat .unknown printfString [.printFormat .unknown sprintPlain [untypedX]])

/-- A script of one probe with one local `x`. -/
def probeOf (ss : List Stmt) : Session :=
  ⟨[], [⟨[120], .unknown, []⟩], [], [⟨[], [0], .block ss, none⟩]⟩

theorem probeOf_asParsed {ss : List Stmt} (h : asParsedBlock ss) :
    (Program.ofSession (probeOf ss)).AsParsed := by
  refine ⟨fun fd hfd => absurd hfd not_mem_nil, fun pr hpr => ?_⟩
  rw [mem_singleton.1 hpr]
  exact ⟨h, nofun⟩

/-- `probe begin { printf("%s", sprint(x)); x = 1 }`: the first pass forces the `sprint`, the
second finds its argument typed. -/
def laterTyped : Session :=
  probeOf [printSprint, .expr (.assignment .unknown .set untypedX (.literalNumber .long 1))]

/-- `probe begin { printf("%s", sprint(x)) }` -/
def neverTyped : Session := probeOf [printSprint]

/-- The loop after the first pass over `neverTyped`; every further pass leads back here. -/
def neverTypedAgain : LoopState :=
  ⟨⟨declsOf neverTyped, [], [⟨[], [0], .block [.expr (.printFormat .long printfString
    [.printFormat .string sprintPlain [untypedX]])], none⟩]⟩, false, 0⟩

end Systemtap.Types
