import Systemtap.Sem.Handler
import Systemtap.Tree.Gather

/-!
# Dead assignments

`semantic_pass_opt3`: an assignment to a variable that is never read is
replaced by its right side, and the variable of a `catch` that is never read
is forgotten. "Never read" is the verdict of the use collector over all
probes, with calls followed.

The collector counts `x++` as a pure write, and it does not count the
comparison that a loop over a histogram makes of its bucket variable. Both
look at the variable, so a dropped assignment can be seen through them.
-/

namespace Systemtap.Opt

open Systemtap.Tree Sem Lib List Sim

/-! ## The pass -/

/-- `get_symbol_within_expression`, as far as its referent goes: a target
variable has none. -/
def symbolWithin : Expr → Option Var
  | .symbol s => some s.referent
  | .arrayindex _ base _ => some base
  | .histindex _ _ stat _ => symbolWithin stat
  | _ => none

/-- Some global has the name of this variable. A global itself is on that list. -/
def namedGlobal (sess : Session) : Var → Bool
  | .global _ => true
  | .loc k =>
    match sess.locals[k]? with
    | some d => sess.globals.any fun g => g.name = d.name
    | none => false

/-- The left side of an assignment that may be dropped. -/
def deadLeft (sess : Session) (vut : List Use) (left : Expr) : Bool :=
  match symbolWithin left with
  | none => false
  | some v =>
    decide (.read v ∉ vut) && (sess.sideEffectFree (left.uses .none) && !namedGlobal sess v)

mutual

/-- `dead_assignment_remover` on an expression. -/
def removeE (dead : Expr → Bool) : Expr → Expr
  | .literalString t v => .literalString t v
  | .literalNumber t n => .literalNumber t n
  | .binary t op l r => .binary t op (removeE dead l) (removeE dead r)
  | .logicalOr t l r => .logicalOr t (removeE dead l) (removeE dead r)
  | .logicalAnd t l r => .logicalAnd t (removeE dead l) (removeE dead r)
  | .comparison t op l r => .comparison t op (removeE dead l) (removeE dead r)
  | .concatenation t l r => .concatenation t (removeE dead l) (removeE dead r)
  | .unary t op e => .unary t op (removeE dead e)
  | .crement t post op e => .crement t post op (removeE dead e)
  | .arrayIn t e => .arrayIn t (removeE dead e)
  | .ternary t e l r => .ternary t (removeE dead e) (removeE dead l) (removeE dead r)
  | .assignment t op l r =>
    -- goodbye assignment
    if dead (removeE dead l) then removeE dead r
    else .assignment t op (removeE dead l) (removeE dead r)
  | .symbol s => .symbol s
  | .targetSymbol t tgt es => .targetSymbol t tgt (removeList dead es)
  | .castOp t tgt e es => .castOp t tgt (removeE dead e) (removeList dead es)
  | .definedOp t e => .definedOp t (removeE dead e)
  | .arrayindex t base es => .arrayindex t base (removeList dead es)
  | .histindex t h e es => .histindex t h (removeE dead e) (removeList dead es)
  | .functioncall t f es => .functioncall t f (removeList dead es)
  | .printFormat t f es => .printFormat t f (removeList dead es)
  | .printHist t f h e => .printHist t f h (removeE dead e)
  | .statOp t ct e => .statOp t ct (removeE dead e)

def removeList (dead : Expr → Bool) : List Expr → List Expr
  | [] => []
  | e :: es => removeE dead e :: removeList dead es

end

/-- `dead_assignment_remover::visit_try_block`: forget a catch variable that is
never read. -/
def removeCatch (vut : List Use) (v : Option Symbol) : Option Symbol :=
  v.filter fun s => .read s.referent ∈ vut

mutual

/-- `dead_assignment_remover` on a statement. -/
def removeS (dead : Expr → Bool) (vut : List Use) : Stmt → Stmt
  | .block ss => .block (removeBlock dead vut ss)
  | .tryBlock b v h => .tryBlock (removeOpt dead vut b) (removeCatch vut v) (removeOpt dead vut h)
  | .embeddedcode code => .embeddedcode code
  | .null => .null
  | .expr e => .expr (removeE dead e)
  | .ifStmt e t o => .ifStmt (removeE dead e) (removeS dead vut t) (removeOpt dead vut o)
  | .forLoop i e o b =>
    .forLoop (i.map (removeE dead)) (removeE dead e) (o.map (removeE dead)) (removeS dead vut b)
  | .foreachLoop idx base sort l b =>
    .foreachLoop idx base sort (l.map (removeE dead)) (removeS dead vut b)
  | .foreachHist idx h e l b =>
    .foreachHist idx h (removeE dead e) (l.map (removeE dead)) (removeS dead vut b)
  | .returnStmt e => .returnStmt (removeE dead e)
  | .deleteStmt e => .deleteStmt (removeE dead e)
  | .next => .next
  | .breakStmt => .breakStmt
  | .continueStmt => .continueStmt

def removeOpt (dead : Expr → Bool) (vut : List Use) : Option Stmt → Option Stmt
  | none => none
  | some s => some (removeS dead vut s)

def removeBlock (dead : Expr → Bool) (vut : List Use) : List Stmt → List Stmt
  | [] => []
  | s :: ss => removeS dead vut s :: removeBlock dead vut ss

end

/-- What all probes use, with calls followed. -/
def probeUses (sess : Session) : List Use :=
  sess.varuse (sess.probes.flatMap fun p => p.body.uses)

/-- `semantic_pass_opt3`. -/
def semanticPassOpt3 (sess : Session) : Session :=
  let vut := probeUses sess
  let remove := removeS (deadLeft sess vut) vut
  { sess with
    probes := sess.probes.map fun p => { p with body := remove p.body }
    functions := sess.functions.map fun fd => { fd with body := remove fd.body } }

/-! ## Matching, node by node

`D` holds the locals whose assignments are dropped. `UseOk` says that the
collector's verdict is respected: no read of a local in `D`, and no call of a
function the collector did not follow. `TouchOk` says the rest: no local in
`D` is looked at through `++`, `--` or a histogram loop, and every assigned
local that counts as dead is in `D`. -/

section Match

variable {W : Type} {D : Nat → Bool} {R : FnId → Prop} {dead : Expr → Bool}

def UseOk (D : Nat → Bool) (R : FnId → Prop) : Use → Prop
  | .read v => Avoids D v
  | .call f => R f
  | _ => True

def TouchOk (D : Nat → Bool) (dead : Expr → Bool) : Touch → Prop
  | .observed v => Avoids D v
  | .assigned v => ∀ t, dead (.symbol ⟨t, v⟩) = true → ∃ k, v = .loc k ∧ D k = true
  | .embedded => True

/-- What the proof needs to know of `dead`: it never drops an assignment to an
element of a global array or to a target variable. -/
structure DeadOk (dead : Expr → Bool) : Prop where
  arrayindex : ∀ t a es, dead (.arrayindex t (.global a) es) = false
  targetSymbol : ∀ t tgt es, dead (.targetSymbol t tgt es) = false
  castOp : ∀ t tgt e es, dead (.castOp t tgt e es) = false

theorem placeAvoids_of_observed {e : Expr} {t : ExpType} {post : Bool} {op : CremOp}
    (h : ∀ x ∈ touchAt (.crement t post op e), TouchOk D dead x) : PlaceAvoids D e := by
  cases e <;> first | exact h _ (mem_singleton.mpr rfl) | trivial

theorem placeAvoids_of_read {e : Expr} (h : ∀ u ∈ e.uses .lrvalue, UseOk D R u) :
    PlaceAvoids D e := by
  cases e with
  | symbol s => exact h (.read s.referent) (by simp [Expr.uses, symbolUses])
  | _ => trivial

/-- A local that is read and written at once is not in `D`. -/
theorem not_dropped {s : Symbol} {j : Nat} (hs : s.referent = .loc j)
    (h : ∀ u ∈ (Expr.symbol s).uses .lrvalue, UseOk D R u) : ¬ D j = true := by
  have hD : Avoids D s.referent := placeAvoids_of_read h
  rw [hs] at hD
  simp [show D j = false from hD]

/-- The operand of a compound assignment is read; that of a plain one need not be. -/
theorem placeAvoids_of_mark {op : AssignOp} {e : Expr}
    (h : ∀ u ∈ e.uses (assignMark op), UseOk D R u) : op = .set ∨ op = .stat ∨ PlaceAvoids D e := by
  cases op with
  | set => exact .inl rfl
  | stat => exact .inr (.inl rfl)
  | concat | arith op => exact .inr (.inr (placeAvoids_of_read h))

/-- A variable in `D` may be written on one side only. -/
theorem writeVar_idle {k : Nat} (hk : D k = true) (x : Value) :
    Idle (offView D) (· = .val ()) (writeVar (.loc k) x : M W Unit) := by
  refine Idle.bind (Q := (· = .val ())) (Idle.emit (fun _ => ?_) rfl) (fun _ _ => ?_) nofun
  · simp [offView, Event.shownOff, hk]
  · refine Idle.update (fun s t h => ?_) rfl
    refine ⟨h.globals, h.world, fun j hj => ?_, h.ret, h.left, h.right⟩
    have hjk : j ≠ k := fun hjk => by simp [hjk, hk] at hj
    exact (Function.update_of_ne hjk _ _).trans (h.frame j hj)

/-- `x++;` on a local in `D`: nobody sees the value, and both sides may differ. -/
theorem crement_void_sim {k : Nat} (hk : D k = true) (c : Ctx W) (post : Bool) (op : CremOp) :
    Sim (offView D) (crementOp c post op (.var (.loc k)) >>= fun _ => pure Ctl.norm)
      (crementOp c post op (.var (.loc k)) >>= fun _ => pure Ctl.norm) := by
  intro s t hr _
  refine ⟨rfl, hr.update fun h => by simp [hk] at h, ?_, ?_⟩
  · have hide : ∀ x, Event.shownOff D (.set (.loc k) x) = false := fun x => by
      simp [Event.shownOff, hk]
    exact (filter_eq_nil_iff.mpr fun e he => by
      obtain rfl := mem_singleton.mp he; simp [offView, hide]).trans
      (filter_eq_nil_iff.mpr fun e he => by
        obtain rfl := mem_singleton.mp he; simp [offView, hide]).symm
  · intro e he
    obtain rfl := mem_singleton.mp he
    rfl

variable {k : Calls W}

/-- The dropped assignment: its right side is all that is left. -/
theorem drop_assign_sim {c : Ctx W} {t : ExpType} {s : Symbol} {j : Nat} {r r' : Expr}
    (hs : s.referent = .loc j) (hj : D j = true) (hr : Matches D c k eval r r') :
    Matches D c k eval (.assignment t .set (.symbol s) r) r' := by
  have heq : eval c (.assignment t .set (.symbol s) r)
      = eval c r >>= fun v => writeVar (.loc j) v >>= fun _ => pure v := by
    rw [← hs]
    exact pure_bind _ _
  rw [Matches, heq]
  exact hr.bind_idle fun v =>
    (writeVar_idle hj v).bind (fun _ _ => Idle.pure rfl) fun h => absurd h (by simp)

/-- A local holds no statistic, so this one never gets past its right side. -/
theorem drop_stat_sim {c : Ctx W} {t : ExpType} {s : Symbol} {j : Nat} {r r' : Expr}
    (hs : s.referent = .loc j) (hr : Matches D c k eval r r') :
    Matches D c k eval (.assignment t .stat (.symbol s) r) r' := by
  have heq : eval c (.assignment t .stat (.symbol s) r)
      = eval c r >>= fun v => assignOp c .stat (.var (.loc j)) v := by
    rw [← hs]
    exact pure_bind _ _
  rw [Matches, heq, ← bind_pure (eval (c.withCall k) r')]
  refine hr.bind fun v => ?_
  cases v with
  | long n => exact halt _
  | str s => exact halt _

variable {c : Ctx W} {k : Calls W}

set_option linter.unusedSectionVars false

section Walk

variable (hdead : DeadOk dead) (hk : CallsMatch D R c k)
include hdead hk

mutual

theorem removeE_sim (e : Expr) (hu : ∀ u ∈ e.uses .none, UseOk D R u)
    (ht : ∀ x ∈ e.gather touchAt, TouchOk D dead x) : Matches D c k eval e (removeE dead e) := by
  cases e <;> simp only [Expr.uses, Expr.gather, forall_mem_append] at hu ht
  case literalString t v => exact ofOption_law (offLaw _) _
  case literalNumber => exact pure _
  case binary t op l r => exact binary_sim (removeE_sim l hu.1 ht.2.1) (removeE_sim r hu.2 ht.2.2)
  case logicalOr t l r => exact logicalOr_sim (removeE_sim l hu.1 ht.2.1) (removeE_sim r hu.2 ht.2.2)
  case logicalAnd t l r =>
    exact logicalAnd_sim (removeE_sim l hu.1 ht.2.1) (removeE_sim r hu.2 ht.2.2)
  case comparison t op l r =>
    exact comparison_sim (removeE_sim l hu.1 ht.2.1) (removeE_sim r hu.2 ht.2.2)
  case concatenation t l r =>
    exact concatenation_sim (removeE_sim l hu.1 ht.2.1) (removeE_sim r hu.2 ht.2.2)
  case unary t op e => exact unary_sim (removeE_sim e hu ht.2)
  case crement t post op e =>
    exact crement_sim (removePlace_sim e hu ht.2) (placeAvoids_of_observed ht.1)
  case arrayIn t e =>
    have he := removeE_sim e hu ht.2
    have hp := removePlace_sim e hu ht.2
    cases e <;> first | exact arrayIn_sim rfl he hp | exact halt _
  case ternary t e l r =>
    exact ternary_sim (removeE_sim e hu.1.1 ht.2.1) (removeE_sim l hu.1.2 ht.2.2.1)
      (removeE_sim r hu.2 ht.2.2.2)
  case assignment t op l r =>
    have hl := removePlace_sim l hu.1 ht.2.1
    have hr := removeE_sim r hu.2 ht.2.2
    rw [removeE]
    split
    next hd =>
      -- only a plain assignment to a local in `D` is really dropped
      cases l with
      | symbol s =>
        obtain ⟨j, hj, hD⟩ := ht.1 _ (mem_singleton.mpr rfl) s.type hd
        cases op with
        | set => exact drop_assign_sim hj hD hr
        | stat => exact drop_stat_sim hj hr
        | concat | arith op => exact absurd hD (not_dropped hj hu.1)
      | arrayindex t' base es =>
        cases base with
        | global a => exact absurd hd (by rw [removeE, hdead.arrayindex]; nofun)
        | loc j => exact halt _
      | targetSymbol t' tgt es => exact absurd hd (by rw [removeE, hdead.targetSymbol]; nofun)
      | castOp t' tgt e es => exact absurd hd (by rw [removeE, hdead.castOp]; nofun)
      | _ => exact halt _
    next hd => exact assignment_sim hl hr (placeAvoids_of_mark hu.1)
  case symbol s => exact symbol_sim rfl (hu _ (mem_singleton.mpr rfl))
  case targetSymbol t tgt es => exact targetSymbol_sim (removeList_sim es hu.2 ht.2)
  case castOp t tgt e es =>
    exact castOp_sim (removeE_sim e hu.1.2 ht.2.1) (removeList_sim es hu.2 ht.2.2)
  case definedOp => exact definedOp_sim
  case arrayindex t base es => exact arrayindex_sim (removeList_sim es hu.1 ht.2)
  case histindex t h e es =>
    exact histindex_sim (removePlace_sim e hu.2 ht.2.1) (removeList_sim es hu.1 ht.2.2)
  case functioncall t f es =>
    exact functioncall_sim (removeList_sim es hu.1 ht.2)
      (fun args => hk f (hu.2 _ (mem_singleton.mpr rfl)) _ args)
  case printFormat t f es => exact printFormat_sim (removeList_sim es hu.2 ht.2)
  case printHist t f h e => exact printHist_sim (removePlace_sim e hu.2 ht.2)
  case statOp t ct e => exact statOp_eval_sim (removePlace_sim e hu ht.2)

theorem removePlace_sim (e : Expr) {m : Mark} (hu : ∀ u ∈ e.uses m, UseOk D R u)
    (ht : ∀ x ∈ e.gather touchAt, TouchOk D dead x) : Matches D c k place e (removeE dead e) := by
  cases e <;> simp only [Expr.uses, Expr.gather, forall_mem_append] at hu ht
  case symbol => exact place_symbol_sim rfl
  case targetSymbol t tgt es => exact place_targetSymbol_sim (removeList_sim es hu.2 ht.2)
  case castOp t tgt e es =>
    exact place_castOp_sim (removeE_sim e hu.1.2 ht.2.1) (removeList_sim es hu.2 ht.2.2)
  case arrayindex t base es => exact place_arrayindex_sim (removeList_sim es hu.1 ht.2)
  all_goals exact halt _

theorem removeList_sim (es : List Expr) (hu : ∀ u ∈ usesList es, UseOk D R u)
    (ht : ∀ x ∈ gatherList touchAt es, TouchOk D dead x) :
    Matches D c k evalArgs es (removeList dead es) := by
  cases es with
  | nil => exact evalArgs_nil_sim
  | cons e es =>
    simp only [usesList, gatherList, forall_mem_append] at hu ht
    exact evalArgs_cons_sim (removeE_sim e hu.1 ht.1) (removeList_sim es hu.2 ht.2)

end

/-- A limit that may be missing. -/
theorem removeLimit_sim (l : Option Expr) (hu : ∀ u ∈ usesMaybe l, UseOk D R u)
    (ht : ∀ x ∈ gatherLimit touchAt l, TouchOk D dead x) :
    Matches D c k evalLimit l (l.map (removeE dead)) := by
  cases l with
  | none => exact pure _
  | some e => exact ((removeE_sim hdead hk e hu ht).bind asLong_sim).bind fun _ => pure _

/-- An expression that is a statement: `x++;` apart, its value may matter to
nothing but its parts do. -/
theorem removeTop_sim (e : Expr) (hu : ∀ u ∈ e.uses .none, UseOk D R u)
    (ht : ∀ x ∈ touchTop e, TouchOk D dead x) :
    Matches D c k exec (.expr e) (.expr (removeE dead e)) := by
  by_cases hc : ∃ t post op s, e = .crement t post op (.symbol s)
  · obtain ⟨t, post, op, s, rfl⟩ := hc
    by_cases hD : Avoids D s.referent
    · exact expr_sim (crement_sim (place_symbol_sim rfl) hD)
    · cases hs : s.referent with
      | global j =>
        rw [hs] at hD
        exact absurd trivial hD
      | loc j =>
        have hj : D j = true := by
          rw [hs] at hD
          simpa [Avoids] using hD
        have heq : ∀ c : Ctx W, exec c (.expr (.crement t post op (.symbol s)))
            = crementOp c post op (.var (.loc j)) >>= fun _ => pure Ctl.norm := by
          intro c
          rw [← hs]
          exact congrArg (· >>= fun _ => pure Ctl.norm) (pure_bind _ _)
        rw [removeE, removeE, Matches, heq, heq]
        exact crement_void_sim hj c post op
  · have htop : touchTop e = e.gather touchAt := by
      cases e with
      | crement t post op e' =>
        cases e' with
        | symbol s => exact absurd ⟨_, _, _, _, rfl⟩ hc
        | _ => rfl
      | _ => rfl
    rw [htop] at ht
    exact expr_sim (removeE_sim hdead hk e hu ht)

/-- The first and the last part of a `for`. -/
theorem removeVoid_sim (i : Option Expr) (hu : ∀ u ∈ usesMaybe i, UseOk D R u)
    (ht : ∀ x ∈ gatherTop touchTop i, TouchOk D dead x) :
    Matches D c k evalVoid i (i.map (removeE dead)) := by
  cases i with
  | none => exact pure _
  | some e => exact removeTop_sim hdead hk e hu ht

end Walk

/-- Where the catch variable is forgotten, nothing would have been copied. -/
theorem removeCatch_eq (vut : List Use) (v : Option Symbol) :
    removeCatch vut v = v ∨ removeCatch vut v = none := by
  cases v with
  | none => exact .inl rfl
  | some s =>
    unfold removeCatch
    by_cases h : Use.read s.referent ∈ vut
    · exact .inl (by simp [h])
    · exact .inr (by simp [h])

variable (hdead : DeadOk dead) (vut : List Use)
include hdead

mutual

theorem removeS_sim (s : Stmt) {c : Ctx W} {k : Calls W} (hk : CallsMatch D R c k)
    (hf : .embedded ∈ s.touches → ∀ j ∈ c.formals, D j = false)
    (hu : ∀ u ∈ s.uses, UseOk D R u) (ht : ∀ x ∈ s.touches, TouchOk D dead x) :
    Matches D c k exec s (removeS dead vut s) := by
  cases s <;> simp only [Stmt.uses, Stmt.touches, Stmt.gather, forall_mem_append] at hu ht <;>
    simp only [Stmt.touches, Stmt.gather, mem_append] at hf
  case block ss => exact removeBlock_sim ss hk hf hu ht
  case tryBlock b v h =>
    exact tryBlock_sim (removeCatch_eq vut v)
      (removeOpt_sim b hk (fun h => hf (.inr (.inl h))) hu.1.1 ht.2.1)
      (removeOpt_sim h hk (fun h => hf (.inr (.inr h))) hu.2 ht.2.2)
  case embeddedcode code => exact embeddedcode_sim (hf (mem_singleton.mpr rfl))
  case null | breakStmt | continueStmt => exact pure _
  case expr e => exact removeTop_sim hdead hk e hu ht
  case ifStmt e t o =>
    exact ifStmt_sim (removeE_sim hdead hk e hu.1.1 ht.1)
      (removeS_sim t hk (fun h => hf (.inr (.inl h))) hu.1.2 ht.2.1)
      (removeOpt_sim o hk (fun h => hf (.inr (.inr h))) hu.2 ht.2.2)
  case forLoop i e o b =>
    exact forLoop_sim (removeVoid_sim hdead hk i hu.1.1.1 ht.1)
      (removeE_sim hdead hk e hu.1.1.2 ht.2.1) (removeVoid_sim hdead hk o hu.1.2 ht.2.2.1)
      (removeS_sim b hk (fun h => hf (.inr (.inr (.inr h)))) hu.2 ht.2.2.2)
  case foreachLoop idx base sort l b =>
    exact foreachLoop_sim (removeLimit_sim hdead hk l hu.1.2 ht.2.1)
      (fun _ _ => removeS_sim b hk (fun h => hf (.inr (.inr h))) hu.2 ht.2.2)
  case foreachHist idx h e l b =>
    refine foreachHist_sim (removePlace_sim hdead hk e hu.1.1.1 ht.2.1)
      (removeLimit_sim hdead hk l hu.1.2 ht.2.2.1) (fun s hs => ?_)
      (removeS_sim b hk (fun h => hf (.inr (.inr (.inr h)))) hu.2 ht.2.2.2)
    exact ht.1 _ (mem_map.mpr ⟨s, hs, rfl⟩)
  case returnStmt e => exact returnStmt_sim (removeE_sim hdead hk e hu ht)
  case deleteStmt e =>
    exact deleteStmt_sim (removePlace_sim hdead hk e hu ht) (placeAvoids_of_read hu)
  case next => exact out

theorem removeOpt_sim (o : Option Stmt) {c : Ctx W} {k : Calls W} (hk : CallsMatch D R c k)
    (hf : .embedded ∈ gatherOpt touchAt touchTop touchStmt o → ∀ j ∈ c.formals, D j = false)
    (hu : ∀ u ∈ usesOpt o, UseOk D R u)
    (ht : ∀ x ∈ gatherOpt touchAt touchTop touchStmt o, TouchOk D dead x) :
    Matches D c k execOpt o (removeOpt dead vut o) := by
  cases o with
  | none => exact pure _
  | some s => exact removeS_sim s hk hf hu ht

theorem removeBlock_sim (ss : List Stmt) {c : Ctx W} {k : Calls W} (hk : CallsMatch D R c k)
    (hf : .embedded ∈ gatherBlock touchAt touchTop touchStmt ss → ∀ j ∈ c.formals, D j = false)
    (hu : ∀ u ∈ usesBlock ss, UseOk D R u)
    (ht : ∀ x ∈ gatherBlock touchAt touchTop touchStmt ss, TouchOk D dead x) :
    Matches D c k execBlock ss (removeBlock dead vut ss) := by
  cases ss with
  | nil => exact pure _
  | cons s ss =>
    simp only [usesBlock, gatherBlock, forall_mem_append] at hu ht
    simp only [gatherBlock, mem_append] at hf
    exact execBlock_cons_sim (removeS_sim s hk (fun h => hf (.inl h)) hu.1 ht.1)
      (removeBlock_sim ss hk (fun h => hf (.inr h)) hu.2 ht.2)

end

end Match

/-! ## The whole pass -/

/-- What the bodies touch that a probe can reach. -/
def reachTouches (sess : Session) : List Touch :=
  (sess.probes.flatMap fun p => p.body.touches) ++
    (probeUses sess).flatMap fun u =>
      match u with
      | .call f => (sess.functions[f]?).elim [] Functiondecl.touches
      | _ => []

/-- A local that is assigned and counts as never read, so that its assignments
are dropped, although something the collector does not see looks at it. -/
def SeenThrough (sess : Session) (v : Var) : Prop :=
  .assigned v ∈ reachTouches sess ∧ .read v ∉ probeUses sess ∧ namedGlobal sess v = false ∧
    .observed v ∈ reachTouches sess

/-- The locals whose assignments are dropped. -/
def dropped (sess : Session) (k : Nat) : Bool :=
  decide (.assigned (.loc k) ∈ reachTouches sess) &&
    (decide (.read (.loc k) ∉ probeUses sess) && !namedGlobal sess (.loc k))

section Pass

variable {sess : Session}

theorem deadOk_deadLeft : DeadOk (deadLeft sess (probeUses sess)) where
  arrayindex := fun t a es => by simp [deadLeft, symbolWithin, namedGlobal]
  targetSymbol := fun t tgt es => rfl
  castOp := fun t tgt e es => rfl

theorem useOk_probeUses :
    ∀ u ∈ probeUses sess, UseOk (dropped sess) (fun f => .call f ∈ probeUses sess) u := by
  intro u hu
  cases u with
  | read v =>
    cases v with
    | global j => trivial
    | loc j => simp [UseOk, Avoids, dropped, hu]
  | call f => exact hu
  | write | embedded => trivial

theorem touchOk_reachTouches (h : ∀ v, ¬ SeenThrough sess v) :
    ∀ x ∈ reachTouches sess, TouchOk (dropped sess) (deadLeft sess (probeUses sess)) x := by
  intro x hx
  cases x with
  | observed v =>
    cases v with
    | global j => trivial
    | loc j =>
      change dropped sess j = false
      by_contra hd
      simp only [dropped, Bool.not_eq_false, Bool.and_eq_true, decide_eq_true_eq,
        Bool.not_eq_true'] at hd
      exact h _ ⟨hd.1, hd.2.1, hd.2.2, hx⟩
  | assigned v =>
    intro t hd
    simp only [deadLeft, symbolWithin, Bool.and_eq_true, decide_eq_true_eq, Bool.not_eq_true']
      at hd
    cases v with
    | global j => exact absurd hd.2.2 (by simp [namedGlobal])
    | loc j => exact ⟨j, rfl, by simp [dropped, hx, hd.1, hd.2.2]⟩
  | embedded => trivial

theorem fnUses_subset {f : FnId} {fd : Functiondecl} (hf : .call f ∈ probeUses sess)
    (hfd : sess.functions[f]? = some fd) : fd.body.uses ⊆ probeUses sess := by
  have h := (sess.varuse_spec _).2 f hf
  rwa [Session.fnUses, hfd] at h

theorem fnTouches_subset {f : FnId} {fd : Functiondecl} (hf : .call f ∈ probeUses sess)
    (hfd : sess.functions[f]? = some fd) : fd.touches ⊆ reachTouches sess := by
  intro x hx
  refine mem_append_right _ (mem_flatMap.mpr ⟨.call f, hf, ?_⟩)
  simpa [hfd] using hx

/-- **Dead-assignment elimination preserves behaviour** wherever no assigned
local that counts as never read is looked at through `++`, `--`, a histogram
loop or embedded code. -/
theorem semanticPassOpt3_preserves (h : ∀ v, ¬ SeenThrough sess v) :
    Preserves (fun _ _ => True) sess (semanticPassOpt3 sess) := by
  have htouch := touchOk_reachTouches h
  intro i p hp
  have hmem : p ∈ sess.probes := mem_of_getElem? hp
  refine ⟨{ p with body := removeS (deadLeft sess (probeUses sess)) (probeUses sess) p.body }, ?_,
    fun W rt _ fuel nesting globals world hc => ?_⟩
  · simp [semanticPassOpt3, hp]
  have hfns : FunctionsSim (fun _ => dropped sess) (fun f => .call f ∈ probeUses sess) rt sess
      (semanticPassOpt3 sess) := by
    refine ⟨fun _ => rfl, fun f hf fd hfd => ?_⟩
    refine ⟨{ fd with body := removeS (deadLeft sess (probeUses sess)) (probeUses sess) fd.body },
      by simp [semanticPassOpt3, hfd], rfl, rfl, fun c k _ hformals _ hk => ?_⟩
    have hsub := fnTouches_subset hf hfd
    refine removeS_sim deadOk_deadLeft _ fd.body hk (fun he j hj => ?_)
      (fun u hu => useOk_probeUses u (fnUses_subset hf hfd hu))
      (fun x hx => htouch x (hsub (mem_append_left _ hx)))
    -- embedded code may look at the formals, so none of them was dropped
    refine htouch (.observed (.loc j)) (hsub (mem_append_right _ ?_))
    rw [if_pos he]
    exact mem_map.mpr ⟨j, hformals ▸ hj, rfl⟩
  refine Matches.sameBehaviour (D := dropped sess) hc
    (handle_matches hfns (fun c k _ hformals _ hk => ?_) fuel nesting globals world hc)
  refine removeS_sim deadOk_deadLeft _ p.body hk (fun _ j hj => ?_) (fun u hu => ?_)
    (fun x hx => ?_)
  · rw [hformals] at hj
    exact nomatch hj
  · exact useOk_probeUses u ((sess.varuse_spec _).1 (mem_flatMap.mpr ⟨p, hmem, hu⟩))
  · exact htouch x (mem_append_left _ (mem_flatMap.mpr ⟨p, hmem, hx⟩))

end Pass

/-! ## Where the pass goes wrong -/

/-- A script of one probe over `global g` with one local `x`. -/
def oneProbe (body : Stmt) : Session where
  globals := [⟨[103], .long, []⟩]
  locals := [⟨[120], .long, []⟩]
  functions := []
  probes := [⟨[], [0], body, none⟩]

def symG : Expr := .symbol ⟨.long, .global 0⟩

def symX : Expr := .symbol ⟨.long, .loc 0⟩

/-- `probe begin { x = 5; x++; g = 7 }`: here `x = 5` may go. -/
def steppedScript : Session := oneProbe (.block [
  .expr (.assignment .long .set symX (.literalNumber .long 5)),
  .expr (.crement .long true .inc symX),
  .expr (.assignment .long .set symG (.literalNumber .long 7))])

theorem semanticPassOpt3_preserves_steppedScript :
    (∀ v, ¬ SeenThrough steppedScript v) ∧
      Preserves (fun _ _ => True) steppedScript (semanticPassOpt3 steppedScript) := by
  have h : ∀ v, ¬ SeenThrough steppedScript v := by
    have htouches : reachTouches steppedScript = [.assigned (.loc 0), .assigned (.global 0)] := by
      decide
    intro v hv
    have hobserved := hv.2.2.2
    rw [htouches] at hobserved
    simp at hobserved
  exact ⟨h, semanticPassOpt3_preserves h⟩

/-- `probe begin { x = 5; g = x++ }`: `x` counts as never read, `x = 5` goes, and
`g` ends up as 0 where it was 5. -/
def crementScript : Session := oneProbe (.block [
  .expr (.assignment .long .set symX (.literalNumber .long 5)),
  .expr (.assignment .long .set symG (.crement .long true .inc symX))])

theorem crementScript_not_preserved :
    ¬ Preserves (fun _ _ => True) crementScript (semanticPassOpt3 crementScript) := by
  intro h
  obtain ⟨p', hp', hs⟩ := h 0 _ rfl
  obtain rfl := Option.some.inj hp'
  have hsame := hs Unit plainRuntime trivial 1 1 (fun _ => .scalar (.long 0)) ()
    ⟨by decide, by decide⟩
  exact absurd (congrFun hsame.globals 0) (by decide)

end Systemtap.Opt
