import Systemtap.Opt.Bodies

/-!
# Dead statements

`semantic_pass_opt4`: statements without an effect are deleted, and so are the
blocks, conditionals and loops that are left empty. An expression statement
goes when it writes nothing its body can see, a conditional or a `for` when its
controls have no side effect at all.

A `foreach` goes as soon as its body does. Nothing is asked of its limit, of
its index variables or of the order it sorts the array into, although running
it would have evaluated, assigned and sorted them.
-/

namespace Systemtap.Opt

open Systemtap.Tree Sem Lib List

/-! ## The pass -/

/-- The locals of a body: those of its probe, or the locals and formals of its
function. -/
def ownLocals (sess : Session) : Owner → List Nat
  | .probe i => (sess.probes[i]?.map Probe.locals).getD []
  | .function f => (sess.functions[f]?.map fun fd => fd.locals ++ fd.formalArgs).getD []

/-- `focal_vars`: the globals and the locals of the body. -/
def focalVars (sess : Session) (o : Owner) : Var → Bool
  | .global _ => true
  | .loc k => decide (k ∈ ownLocals sess o)

/-- A nested block gives its statements to the block around it. -/
def flatten : Option Stmt → List Stmt
  | none => []
  | some (.block ss) => ss
  | some s => [s]

/-- An empty block is none, a block of one statement is that statement. -/
def ofBlock : List Stmt → Option Stmt
  | [] => none
  | [s] => some s
  | ss => some (.block ss)

mutual

/-- `dead_stmtexpr_remover`; `none` is the null pointer it provides. -/
def deadS (sess : Session) (vars : Var → Bool) : Stmt → Option Stmt
  | .null => none
  | .block ss => ofBlock (deadBlock sess vars ss)
  | .tryBlock b v h =>
    match deadOpt sess vars b with
    | none => none
    | some b' => some (.tryBlock (some b') v (deadOpt sess vars h))
  | .ifStmt e t o =>
    match deadS sess vars t, deadOpt sess vars o with
    | none, none => if sess.sideEffectFree (e.uses .none) then none else some (.expr e)
    -- if (c) {} else stmt  becomes  if (!c) stmt
    | none, some o' => some (.ifStmt (.unary .unknown .not e) o' none)
    | some t', o' => some (.ifStmt e t' o')
  | .foreachLoop idx base sort l b =>
    match deadS sess vars b with
    | none => none
    | some b' => some (.foreachLoop idx base sort l b')
  | .foreachHist idx h e l b =>
    match deadS sess vars b with
    | none => none
    | some b' => some (.foreachHist idx h e l b')
  | .forLoop i e o b =>
    match deadS sess vars b with
    | none =>
      if sess.sideEffectFree (usesMaybe i ++ e.uses .none ++ usesMaybe o) then none
      else some (.forLoop i e o .null)
    | some b' => some (.forLoop i e o b')
  | .expr e => if sess.sideEffectFreeWrt vars (e.uses .none) then none else some (.expr e)
  | .embeddedcode code => some (.embeddedcode code)
  | .returnStmt e => some (.returnStmt e)
  | .deleteStmt e => some (.deleteStmt e)
  | .next => some .next
  | .breakStmt => some .breakStmt
  | .continueStmt => some .continueStmt

def deadOpt (sess : Session) (vars : Var → Bool) : Option Stmt → Option Stmt
  | none => none
  | some s => deadS sess vars s

def deadBlock (sess : Session) (vars : Var → Bool) : List Stmt → List Stmt
  | [] => []
  | s :: ss => flatten (deadS sess vars s) ++ deadBlock sess vars ss

end

/-- A body that is gone altogether becomes a null statement. -/
def deadBody (sess : Session) (o : Owner) (b : Stmt) : Stmt :=
  (deadS sess (focalVars sess o) b).getD .null

def semanticPassOpt4 (sess : Session) : Session := rewriteAll deadBody sess

/-! ## What is deleted

`vanishes` says in advance which statements the pass deletes. -/

mutual

def vanishes (sess : Session) (vars : Var → Bool) : Stmt → Bool
  | .null => true
  | .block ss => vanishesAll sess vars ss
  | .tryBlock b _ _ => vanishesOpt sess vars b
  | .ifStmt e t o =>
    vanishes sess vars t && (vanishesOpt sess vars o && sess.sideEffectFree (e.uses .none))
  | .foreachLoop _ _ _ _ b | .foreachHist _ _ _ _ b => vanishes sess vars b
  | .forLoop i e o b =>
    vanishes sess vars b && sess.sideEffectFree (usesMaybe i ++ e.uses .none ++ usesMaybe o)
  | .expr e => sess.sideEffectFreeWrt vars (e.uses .none)
  | .embeddedcode _ | .returnStmt _ | .deleteStmt _ | .next | .breakStmt | .continueStmt => false

def vanishesOpt (sess : Session) (vars : Var → Bool) : Option Stmt → Bool
  | none => true
  | some s => vanishes sess vars s

def vanishesAll (sess : Session) (vars : Var → Bool) : List Stmt → Bool
  | [] => true
  | s :: ss => vanishes sess vars s && vanishesAll sess vars ss

end

/-- A `foreach` that is deleted because its body is. -/
def deletedAt (sess : Session) (vars : Var → Bool) : Stmt → List Stmt
  | .foreachLoop idx base sort l b =>
    if vanishes sess vars b then [.foreachLoop idx base sort l b] else []
  | .foreachHist idx h e l b => if vanishes sess vars b then [.foreachHist idx h e l b] else []
  | _ => []

def deletedLoops (sess : Session) (vars : Var → Bool) (s : Stmt) : List Stmt :=
  s.gather (fun _ => []) (fun _ => []) (deletedAt sess vars)

def loopIndexes : Stmt → List Symbol
  | .foreachLoop idx _ _ _ _ | .foreachHist idx _ _ _ _ => idx
  | _ => []

/-- The loop does nothing but assign its index variables, which are locals. -/
def Harmless (sess : Session) (vars : Var → Bool) : Stmt → Prop
  | .foreachLoop idx _ sort l _ => sort = none ∧
    sess.sideEffectFreeWrt vars (usesMaybe l) = true ∧ ∀ s ∈ idx, ∃ k, s.referent = .loc k
  | .foreachHist idx _ e l _ => sess.sideEffectFreeWrt vars (e.uses .none) = true ∧
    sess.sideEffectFreeWrt vars (usesMaybe l) = true ∧ ∀ s ∈ idx, ∃ k, s.referent = .loc k
  | _ => True

/-- What the loops over histograms that stay compare, and the embedded code. -/
def keptTouch (sess : Session) (vars : Var → Bool) : Stmt → List Touch
  | .foreachHist idx _ _ _ b =>
    if vanishes sess vars b then [] else idx.map fun s => .observed s.referent
  | .embeddedcode _ => [.embedded]
  | _ => []

def keptTouches (sess : Session) (vars : Var → Bool) (s : Stmt) : List Touch :=
  s.gather touchAt touchTop (keptTouch sess vars)

/-- An index variable of a deleted loop. -/
def orphaned (sess : Session) (vars : Var → Bool) (b : Stmt) (k : Nat) : Bool :=
  (deletedLoops sess vars b).any fun s => (loopIndexes s).any fun i => i.referent = .loc k

/-- The deleted loops of this body cannot be missed. -/
structure LoopsHarmless (sess : Session) (o : Owner) (b : Stmt) : Prop where
  loops : ∀ s ∈ deletedLoops sess (focalVars sess o) b, Harmless sess (focalVars sess o) s
  unread : ∀ k, orphaned sess (focalVars sess o) b k = true → .read (.loc k) ∉ b.uses
  unseen : ∀ k, orphaned sess (focalVars sess o) b k = true →
    .observed (.loc k) ∉ keptTouches sess (focalVars sess o) b
  unpassed : .embedded ∈ keptTouches sess (focalVars sess o) b → ∀ k ∈ formalsOf sess o,
    orphaned sess (focalVars sess o) b k = false

/-- Symbol resolution: a body writes no locals but its own. -/
def Owned (sess : Session) : Prop :=
  ∀ o b, bodyOf sess o = some b → ∀ k, .write (.loc k) ∈ b.uses → k ∈ ownLocals sess o

section Shape

variable {sess : Session} {vars : Var → Bool}

theorem usesBlock_append : ∀ ss ts : List Stmt, usesBlock (ss ++ ts) = usesBlock ss ++ usesBlock ts
  | [], _ => rfl
  | s :: ss, ts => by
    rw [cons_append, usesBlock, usesBlock, usesBlock_append ss ts, append_assoc]

theorem flatten_some (s : Stmt) :
    (∃ ss, s = .block ss) ∨ flatten (some s) = [s] ∧ ∀ ys, s ≠ .block ys := by
  cases s with
  | block ss => exact .inl ⟨ss, rfl⟩
  | _ => exact .inr ⟨rfl, nofun⟩

theorem usesBlock_flatten (o : Option Stmt) : usesBlock (flatten o) = usesOpt o := by
  cases o with
  | none => rfl
  | some s =>
    obtain ⟨ss, rfl⟩ | ⟨h, -⟩ := flatten_some s
    · rfl
    · rw [h]
      exact append_nil _

/-- A block that is left has statements, none of them a block. -/
def Flat (s : Stmt) : Prop :=
  ∀ ss, s = .block ss → ss ≠ [] ∧ ∀ x ∈ ss, ∀ ys, x ≠ .block ys

theorem flatten_ne_nil {s : Stmt} (h : Flat s) : flatten (some s) ≠ [] := by
  obtain ⟨ss, rfl⟩ | ⟨hs, -⟩ := flatten_some s
  · exact (h ss rfl).1
  · simp [hs]

theorem ofBlock_flat {ss : List Stmt} (h : ∀ x ∈ ss, ∀ ys, x ≠ .block ys) {s : Stmt}
    (hs : ofBlock ss = some s) : Flat s := by
  rcases ss with _ | ⟨x, _ | ⟨y, ss⟩⟩
  · exact nomatch hs
  · obtain rfl := Option.some.inj hs
    exact fun ys hy => absurd hy (h _ (mem_singleton.mpr rfl) ys)
  · obtain rfl := Option.some.inj hs
    rintro _ ⟨rfl⟩
    exact ⟨nofun, h⟩

mutual

theorem deadS_flat : ∀ {s s' : Stmt}, deadS sess vars s = some s' → Flat s'
  | .block ss, s', h => by
    rw [deadS] at h
    exact ofBlock_flat (fun _ hx => deadBlock_flat hx) h
  | .null, _, h | .tryBlock _ _ _, _, h | .ifStmt _ _ _, _, h | .foreachLoop _ _ _ _ _, _, h
  | .foreachHist _ _ _ _ _, _, h | .forLoop _ _ _ _, _, h | .expr _, _, h | .embeddedcode _, _, h
  | .returnStmt _, _, h | .deleteStmt _, _, h | .next, _, h | .breakStmt, _, h
  | .continueStmt, _, h => by
    -- whatever comes out, it is not a block
    rw [deadS] at h
    repeat' split at h
    all_goals cases h <;> exact nofun

theorem deadBlock_flat : ∀ {ss : List Stmt} {x : Stmt}, x ∈ deadBlock sess vars ss →
    ∀ ys, x ≠ .block ys
  | [], _, h => nomatch h
  | s :: ss, x, h => by
    rw [deadBlock, mem_append] at h
    rcases h with h | h
    · cases hs : deadS sess vars s with
      | none =>
        rw [hs] at h
        exact nomatch h
      | some s' =>
        rw [hs] at h
        obtain ⟨ys, rfl⟩ | ⟨h', hs'⟩ := flatten_some s'
        · exact (deadS_flat hs ys rfl).2 x h
        · rw [h', mem_singleton] at h
          exact h ▸ hs'
    · exact deadBlock_flat h

end

theorem flatten_deadS (s : Stmt) : flatten (deadS sess vars s) = [] ↔ deadS sess vars s = none := by
  cases hd : deadS sess vars s with
  | none => exact iff_of_true rfl rfl
  | some s' => exact iff_of_false (flatten_ne_nil (deadS_flat hd)) nofun

theorem ofBlock_eq_none {ss : List Stmt} : ofBlock ss = none ↔ ss = [] := by
  rcases ss with _ | ⟨x, _ | ⟨y, ys⟩⟩ <;> simp [ofBlock]

mutual

/-- The pass deletes what was said to vanish. -/
theorem deadS_eq_none (s : Stmt) : deadS sess vars s = none ↔ vanishes sess vars s = true := by
  cases s <;> rw [deadS, vanishes]
  case null => exact iff_of_true rfl rfl
  case block ss => rw [ofBlock_eq_none, deadBlock_eq_nil]
  case tryBlock b v hd =>
    rw [← deadOpt_eq_none]
    cases deadOpt sess vars b <;> simp
  case ifStmt e t o =>
    rw [Bool.and_eq_true, Bool.and_eq_true, ← deadS_eq_none t, ← deadOpt_eq_none o]
    cases deadS sess vars t <;> cases deadOpt sess vars o <;> simp
  case foreachLoop idx base sort l b | foreachHist idx base sort l b =>
    rw [← deadS_eq_none b]
    cases deadS sess vars b <;> simp
  case forLoop i e o b =>
    rw [Bool.and_eq_true, ← deadS_eq_none b]
    cases deadS sess vars b <;> simp
  all_goals simp

theorem deadOpt_eq_none (o : Option Stmt) :
    deadOpt sess vars o = none ↔ vanishesOpt sess vars o = true := by
  cases o with
  | none => exact iff_of_true rfl rfl
  | some s => exact deadS_eq_none s

theorem deadBlock_eq_nil (ss : List Stmt) :
    deadBlock sess vars ss = [] ↔ vanishesAll sess vars ss = true := by
  cases ss with
  | nil => exact iff_of_true rfl rfl
  | cons s ss =>
    rw [deadBlock, vanishesAll, append_eq_nil_iff, flatten_deadS, deadS_eq_none s,
      deadBlock_eq_nil ss, Bool.and_eq_true]

end

mutual

/-- The pass makes no new use of anything. -/
theorem uses_deadS : ∀ (s : Stmt), ∀ u ∈ usesOpt (deadS sess vars s), u ∈ s.uses
  | .null, u, h => nomatch h
  | .block ss, u, h => by
    refine uses_deadBlock ss u ?_
    rw [deadS] at h
    rcases hb : deadBlock sess vars ss with _ | ⟨x, _ | ⟨y, ys⟩⟩ <;> rw [hb] at h
    · exact nomatch h
    · simpa [usesBlock, ofBlock, usesOpt] using h
    · exact h
  | .tryBlock b v hd, u, h => by
    have hb := uses_deadOpt b u
    have hh := uses_deadOpt hd u
    rw [deadS] at h
    cases hdb : deadOpt sess vars b with
    | none =>
      rw [hdb] at h
      exact nomatch h
    | some b' =>
      rw [hdb] at h hb
      simp only [usesOpt, Stmt.uses, mem_append] at h hb ⊢
      tauto
  | .ifStmt e t o, u, h => by
    have ht := uses_deadS t u
    have ho := uses_deadOpt o u
    rw [deadS] at h
    cases hdt : deadS sess vars t <;> cases hdo : deadOpt sess vars o <;> rw [hdt, hdo] at h <;>
      rw [hdt] at ht <;> rw [hdo] at ho <;> dsimp only at h
    · split at h
      · exact nomatch h
      · simp only [usesOpt, Stmt.uses, mem_append] at h ⊢
        tauto
    all_goals
      simp only [usesOpt, Stmt.uses, Expr.uses, mem_append] at h ht ho ⊢
      tauto
  | .foreachLoop idx base sort l b, u, h | .foreachHist idx base sort l b, u, h => by
    have hb := uses_deadS b u
    rw [deadS] at h
    cases hdb : deadS sess vars b <;> rw [hdb] at h hb
    · exact nomatch h
    · simp only [usesOpt, Stmt.uses, mem_append] at h hb ⊢
      tauto
  | .forLoop i e o b, u, h => by
    have hb := uses_deadS b u
    rw [deadS] at h
    cases hdb : deadS sess vars b <;> rw [hdb] at h hb <;> dsimp only at h
    · split at h
      · exact nomatch h
      · simp only [usesOpt, Stmt.uses, mem_append] at h ⊢
        tauto
    · simp only [usesOpt, Stmt.uses, mem_append] at h hb ⊢
      tauto
  | .expr e, u, h => by
    rw [deadS] at h
    split at h
    · exact nomatch h
    · exact h
  | .embeddedcode _, _, h | .returnStmt _, _, h | .deleteStmt _, _, h | .next, _, h
  | .breakStmt, _, h | .continueStmt, _, h => h

theorem uses_deadOpt : ∀ (o : Option Stmt), ∀ u ∈ usesOpt (deadOpt sess vars o), u ∈ usesOpt o
  | none, _, h => nomatch h
  | some s, u, h => uses_deadS s u h

theorem uses_deadBlock : ∀ (ss : List Stmt), ∀ u ∈ usesBlock (deadBlock sess vars ss),
    u ∈ usesBlock ss
  | [], _, h => nomatch h
  | s :: ss, u, h => by
    rw [deadBlock, usesBlock_append, mem_append, usesBlock_flatten] at h
    rw [usesBlock, mem_append]
    exact h.imp (uses_deadS s u) (uses_deadBlock ss u)

end

end Shape

/-! ## Matching, statement by statement -/

section Match

variable {W : Type} {D : Nat → Bool} {sess : Session} {vars : Var → Bool}

/-- A use in a body that writes its own locals only and does not look at those
in `D`. -/
def UseFine (D : Nat → Bool) (vars : Var → Bool) : Use → Prop
  | .read v => Avoids D v
  | .write v => vars v = true
  | .embedded | .call _ => True

theorem useOk_of_fine {us : List Use} (h : ∀ u ∈ us, UseFine D vars u) :
    ∀ u ∈ us, UseOk D (fun _ => True) u := by
  intro u hu
  cases u <;> first | exact h _ hu | trivial

/-- A deleted loop assigns to locals in `D`, and that is all. -/
def LoopFine (sess : Session) (D : Nat → Bool) (vars : Var → Bool) (s : Stmt) : Prop :=
  Harmless sess vars s ∧ ∀ i ∈ loopIndexes s, ∀ k, i.referent = .loc k → D k = true

/-- Functions without side effects are idle when called. -/
def CallsIdle (sess : Session) (D : Nat → Bool) (vars : Var → Bool) (c : Ctx W) : Prop :=
  ∀ us, sess.sideEffectFreeWrt vars us = true → ∀ f, .call f ∈ sess.varuse us → ∀ iter args,
    Idle (offView D) Flow.IsVal (c.call f iter args)

variable {c : Ctx W} {k : Calls W}

/-- Code of the body that the collector finds free of side effects is quiet. -/
theorem useQuiet_of_free (hglobal : ∀ j, vars (.global j) = true) {us : List Use}
    (hfree : sess.sideEffectFreeWrt vars us = true) (hu : ∀ u ∈ us, UseFine D vars u) :
    ∀ u ∈ us, UseQuiet (D · = true) (fun f => .call f ∈ sess.varuse us) u := by
  intro u hmem
  have hq := useQuiet_of_sideEffectFreeWrt hglobal hfree u ((sess.varuse_spec us).1 hmem)
  cases u with
  | write v =>
    cases v with
    | loc j =>
      -- the body owns what it writes, and what it owns is focal
      have hown : vars (.loc j) = true := hu _ hmem
      exact absurd (hown.symm.trans hq) nofun
    | global j => exact hq
  | read | embedded | call => exact hq

theorem eval_free_idle (hglobal : ∀ j, vars (.global j) = true) (hi : CallsIdle sess D vars c)
    {e : Expr} (hfree : sess.sideEffectFreeWrt vars (e.uses .none) = true)
    (hu : ∀ u ∈ e.uses .none, UseFine D vars u) : Idle (offView D) Flow.IsVal (eval c e) :=
  eval_idle (quietView_offView D) (hi _ hfree) e (useQuiet_of_free hglobal hfree hu)

/-- The index variables of a deleted loop. -/
theorem useQuiet_indexes {s : Stmt} (hl : LoopFine sess D vars s)
    (hloc : ∀ i ∈ loopIndexes s, ∃ j, i.referent = .loc j) (R : FnId → Prop) :
    ∀ u ∈ usesIndexes (loopIndexes s), UseQuiet (D · = true) R u := by
  intro u hu
  obtain ⟨i, hi, rfl⟩ := mem_map.mp hu
  obtain ⟨j, hj⟩ := hloc i hi
  rw [hj]
  exact hl.2 i hi j hj

theorem execBlock_flatten (c : Ctx W) (o : Option Stmt) : execBlock c (flatten o) = execOpt c o := by
  cases o with
  | none => rfl
  | some s =>
    obtain ⟨ss, rfl⟩ | ⟨h, -⟩ := flatten_some s
    · rfl
    · rw [h]
      exact execBlock_singleton c s

theorem execOpt_ofBlock (c : Ctx W) (ss : List Stmt) : execOpt c (ofBlock ss) = execBlock c ss := by
  rcases ss with _ | ⟨s, _ | ⟨t, ss⟩⟩
  · rfl
  · exact (execBlock_singleton c s).symm
  · rfl

/-- A `try` whose body does nothing. -/
theorem tryBlock_gone {b h : Option Stmt} {v : Option Symbol}
    (hb : Idle (offView D) (· = .val .norm) (execOpt c b)) :
    Sim (offView D) (exec c (.tryBlock b v h)) (pure .norm) := by
  have htry : Idle (offView D) (· = .val .norm) (execOpt c b >>= tryEnd) := by
    refine hb.bind_val ?_
    exact Idle.read_const (fun _ _ h => h.left) (Idle.pure rfl)
  exact (htry.onOut (fun _ h => h) (by simp)).sim

/-- A `foreach` whose body does nothing. -/
theorem foreachLoop_gone (hi : CallsIdle sess D vars c) (hglobal : ∀ j, vars (.global j) = true)
    {idx : List Symbol} {base : Var} {sort : Option SortOrder} {l : Option Expr} {b : Stmt}
    (hl : LoopFine sess D vars (.foreachLoop idx base sort l b))
    (hu : ∀ u ∈ usesMaybe l, UseFine D vars u)
    (hb : ∀ iter agg, Idle (offView D) (· = .val .norm) (exec { c with iter, agg } b)) :
    Sim (offView D) (exec c (.foreachLoop idx base sort l b)) (pure .norm) := by
  obtain ⟨rfl, hfree, hloc⟩ := hl.1
  refine Idle.sim (Idle.seq (evalLimit_idle (quietView_offView D) (hi _ hfree) l
    (useQuiet_of_free hglobal hfree hu)) fun _ => ?_)
  exact foreachOp_idle (quietView_offView D) (useQuiet_indexes hl hloc fun _ => True) hb rfl

theorem foreachHist_gone (hi : CallsIdle sess D vars c) (hglobal : ∀ j, vars (.global j) = true)
    {idx : List Symbol} {h : Hist} {e : Expr} {l : Option Expr} {b : Stmt}
    (hl : LoopFine sess D vars (.foreachHist idx h e l b))
    (he : ∀ u ∈ e.uses .none, UseFine D vars u) (hu : ∀ u ∈ usesMaybe l, UseFine D vars u)
    (hb : Idle (offView D) (· = .val .norm) (exec c b)) :
    Sim (offView D) (exec c (.foreachHist idx h e l b)) (pure .norm) := by
  obtain ⟨hstat, hfree, hloc⟩ := hl.1
  rw [exec, ← bind_assoc]
  refine Idle.sim (Idle.seq (aggregate_idle (quietView_offView D) (hi _ hstat)
    (useQuiet_of_free hglobal hstat he)) fun _ => Idle.seq (evalLimit_idle (quietView_offView D)
      (hi _ hfree) l (useQuiet_of_free hglobal hfree hu)) fun _ => ?_)
  exact foreachHistOp_idle (quietView_offView D) (useQuiet_indexes hl hloc fun _ => True) hb rfl

/-- What stays does not look at a local in `D`. -/
def TouchFine (D : Nat → Bool) (formals : List Nat) : Touch → Prop
  | .observed v => Avoids D v
  | .assigned _ => True
  | .embedded => ∀ j ∈ formals, D j = false

theorem touchOk_of_fine {formals : List Nat} {xs : List Touch}
    (h : ∀ x ∈ xs, TouchFine D formals x) : ∀ x ∈ xs, TouchOk D (fun _ => false) x := by
  intro x hx
  cases x with
  | observed v => exact h _ hx
  | assigned v => exact nofun
  | embedded => trivial

/-- Calls match in the comparison that sets `D` apart. -/
def CallsSim (D : Nat → Bool) (c : Ctx W)
    (k : FnId → List (Nat × Nat) → List Value → M W Value) : Prop :=
  ∀ f, True → ∀ iter args, Sim (offView D) (c.call f iter args) (k f iter args)

set_option linter.unusedSectionVars false

variable (hglobal : ∀ j, vars (.global j) = true)
include hglobal

mutual

theorem deadS_sim (s : Stmt) {c : Ctx W} {k : Calls W} (hk : CallsSim D c k)
    (hi : CallsIdle sess D vars c) (hu : ∀ u ∈ s.uses, UseFine D vars u)
    (ht : ∀ x ∈ keptTouches sess vars s, TouchFine D c.formals x)
    (hl : ∀ x ∈ deletedLoops sess vars s, LoopFine sess D vars x) :
    Sim (offView D) (exec c s) (execOpt (c.withCall k) (deadS sess vars s)) := by
  have hok := useOk_of_fine hu
  have hto := touchOk_of_fine ht
  cases s <;> rw [deadS] <;> simp only [Stmt.uses, keptTouches, deletedLoops, Stmt.gather,
    forall_mem_append] at hu ht hl hok hto
  case null | breakStmt | continueStmt => exact Sim.pure _
  case block ss =>
    rw [execOpt_ofBlock]
    exact deadBlock_sim ss hk hi hu ht hl
  case tryBlock b v h =>
    have hb := deadOpt_sim b hk hi hu.1.1 ht.2.1 hl.2.1
    have hh := deadOpt_sim h hk hi hu.2 ht.2.2 hl.2.2
    cases hd : deadOpt sess vars b with
    | none =>
      rw [hd] at hb
      exact tryBlock_gone (Sim.idle hb)
    | some b' =>
      rw [hd] at hb
      exact tryBlock_sim (.inl rfl) hb hh
  case ifStmt e t o =>
    have he := eval_keep hk e hok.1.1 hto.1
    have hthen := deadS_sim t hk hi hu.1.2 ht.2.1 hl.2.1
    have helse := deadOpt_sim o hk hi hu.2 ht.2.2 hl.2.2
    cases hdt : deadS sess vars t with
    | some t' =>
      rw [hdt] at hthen
      exact ifStmt_sim he hthen helse
    | none =>
      rw [hdt] at hthen
      cases hdo : deadOpt sess vars o with
      | some o' =>
        -- if (c) {} else stmt  becomes  if (!c) stmt
        rw [hdo] at helse
        rw [execOpt, exec_ifNot]
        refine (he.bind asLong_sim).bind fun x => ?_
        split
        · exact hthen
        · exact helse
      | none =>
        rw [hdo] at helse
        have hboth : ∀ x : I64, Sim (offView D) (if x ≠ 0 then exec c t else execOpt c o)
            (pure .norm) := by
          intro x
          split
          · exact hthen
          · exact helse
        dsimp only
        split
        next hfree =>
          exact (eval_free_idle hglobal hi (sideEffectFreeWrt_of_sideEffectFree vars hfree)
            hu.1.1).seq asLong_idle |>.bind_sim id fun x _ => hboth x
        next =>
          rw [execOpt, exec, exec, evalVoid, bind_assoc]
          refine he.bind fun a => ?_
          cases a with
          | long n => exact hboth n
          | str a => exact Sim.halt _
  case foreachLoop idx base sort l b =>
    have hb : ∀ iter agg, _ := fun iter agg =>
      deadS_sim b (c := { c with iter, agg }) (k := k) hk hi hu.2 ht.2.2 hl.2.2
    cases hd : deadS sess vars b with
    | none =>
      rw [hd] at hb
      have hfine := hl.1 _ (by
        rw [deletedAt, if_pos ((deadS_eq_none b).mp hd)]
        exact mem_singleton.mpr rfl)
      exact foreachLoop_gone hi hglobal hfine hu.1.2 fun iter agg => Sim.idle (hb iter agg)
    | some b' =>
      rw [hd] at hb
      exact foreachLoop_sim (evalLimit_keep hk l hok.1.2 hto.2.1) hb
  case foreachHist idx h e l b =>
    have hb := deadS_sim b hk hi hu.2 ht.2.2.2 hl.2.2.2
    cases hd : deadS sess vars b with
    | none =>
      rw [hd] at hb
      have hfine := hl.1 _ (by
        rw [deletedAt, if_pos ((deadS_eq_none b).mp hd)]
        exact mem_singleton.mpr rfl)
      exact foreachHist_gone hi hglobal hfine hu.1.1.1 hu.1.2 (Sim.idle hb)
    | some b' =>
      rw [hd] at hb
      have hstays : ¬ vanishes sess vars b = true := by
        rw [← deadS_eq_none, hd]
        exact nofun
      refine foreachHist_sim (place_keep hk e hok.1.1.1 hto.2.1)
        (evalLimit_keep hk l hok.1.2 hto.2.2.1) (fun s hs => ?_) hb
      refine ht.1 (.observed s.referent) ?_
      rw [keptTouch, if_neg hstays]
      exact mem_map.mpr ⟨s, hs, rfl⟩
  case forLoop i e o b =>
    have hb := deadS_sim b hk hi hu.2 ht.2.2.2 hl.2.2.2
    have hinit := evalVoid_keep hk i hok.1.1.1 hto.1
    have hcond := eval_keep hk e hok.1.1.2 hto.2.1
    have hincr := evalVoid_keep hk o hok.1.2 hto.2.2.1
    cases hd : deadS sess vars b with
    | some b' =>
      rw [hd] at hb
      exact forLoop_sim hinit hcond hincr hb
    | none =>
      rw [hd] at hb
      dsimp only
      split
      next hfree =>
        have hq := useQuiet_of_free hglobal (sideEffectFreeWrt_of_sideEffectFree vars hfree)
          (by simpa only [forall_mem_append] using hu.1)
        have hcalls := hi _ (sideEffectFreeWrt_of_sideEffectFree vars hfree)
        simp only [forall_mem_append] at hq
        refine Idle.sim (Idle.bind (evalVoid_idle (quietView_offView D) hcalls i hq.1.1)
          (fun _ _ => Idle.iterate (forStep_idle (eval_idle (quietView_offView D) hcalls e hq.1.2)
            (evalVoid_idle (quietView_offView D) hcalls o hq.2) (Sim.idle hb) rfl) _ _) nofun)
      next =>
        have hnull : Matches D c k exec b .null := hb
        exact forLoop_sim hinit hcond hincr hnull
  case expr e =>
    split
    next hfree =>
      exact Idle.sim ((eval_free_idle hglobal hi hfree hu).seq fun _ => Idle.pure rfl)
    next => exact evalVoid_keep hk (some e) hok hto
  case embeddedcode code => exact embeddedcode_sim (ht .embedded (mem_singleton.mpr rfl))
  case returnStmt e => exact returnStmt_sim (eval_keep hk e hok hto)
  case deleteStmt e =>
    exact deleteStmt_sim (place_keep hk e hok hto) (placeAvoids_of_read hok)
  case next => exact Sim.out

theorem deadOpt_sim (o : Option Stmt) {c : Ctx W} {k : Calls W} (hk : CallsSim D c k)
    (hi : CallsIdle sess D vars c) (hu : ∀ u ∈ usesOpt o, UseFine D vars u)
    (ht : ∀ x ∈ gatherOpt touchAt touchTop (keptTouch sess vars) o, TouchFine D c.formals x)
    (hl : ∀ x ∈ gatherOpt (fun _ => []) (fun _ => []) (deletedAt sess vars) o,
      LoopFine sess D vars x) : Matches D c k execOpt o (deadOpt sess vars o) := by
  cases o with
  | none => exact Sim.pure _
  | some s => exact deadS_sim s hk hi hu ht hl

theorem deadBlock_sim (ss : List Stmt) {c : Ctx W} {k : Calls W} (hk : CallsSim D c k)
    (hi : CallsIdle sess D vars c) (hu : ∀ u ∈ usesBlock ss, UseFine D vars u)
    (ht : ∀ x ∈ gatherBlock touchAt touchTop (keptTouch sess vars) ss, TouchFine D c.formals x)
    (hl : ∀ x ∈ gatherBlock (fun _ => []) (fun _ => []) (deletedAt sess vars) ss,
      LoopFine sess D vars x) : Matches D c k execBlock ss (deadBlock sess vars ss) := by
  cases ss with
  | nil => exact Sim.pure _
  | cons s ss =>
    simp only [usesBlock, gatherBlock, forall_mem_append] at hu ht hl
    rw [deadBlock, Matches, execBlock_append, execBlock_flatten]
    refine (deadS_sim s hk hi hu.1 ht.1 hl.1).bind fun r => ?_
    cases r with
    | norm => exact deadBlock_sim ss hk hi hu.2 ht.2 hl.2
    | brk | cont => exact Sim.pure _

end

end Match

/-! ## The whole pass -/

section Pass

variable {sess : Session}

/-- Calls that the collector finds free of side effects are idle. -/
theorem callsIdle_callFn {W : Type} {rt : Runtime W} (hrt : PureRuntime W rt) (D : Nat → Bool)
    {vars : Var → Bool} (hglobal : ∀ j, vars (.global j) = true) {c : Ctx W}
    (hc : ∃ fuel n, c.call = callFn sess rt fuel n) : CallsIdle sess D vars c := by
  obtain ⟨fuel, n, hcall⟩ := hc
  intro us hfree f hf iter args
  rw [hcall]
  refine callFn_idle (R := fun f => .call f ∈ sess.varuse us) hrt (fun g hg u hu => ?_) fuel n
    (callView_offView D) f hf iter args
  have hq := useQuiet_of_sideEffectFreeWrt hglobal hfree u ((sess.varuse_spec us).2 g hg hu)
  exact hq.mono (fun _ _ => trivial) fun _ h => h

theorem orphaned_of_mem {vars : Var → Bool} {b s : Stmt} (hs : s ∈ deletedLoops sess vars b)
    {i : Symbol} (hi : i ∈ loopIndexes s) {k : Nat} (hk : i.referent = .loc k) :
    orphaned sess vars b k = true :=
  any_eq_true.mpr ⟨s, hs, any_eq_true.mpr ⟨i, hi, by simpa using hk⟩⟩

variable {o : Owner}

theorem useFine_of_harmless (hown : Owned sess) {b : Stmt}
    (hb : bodyOf sess o = some b) (h : LoopsHarmless sess o b) {u : Use} (hu : u ∈ b.uses) :
    UseFine (orphaned sess (focalVars sess o) b) (focalVars sess o) u := by
  cases u with
  | read v =>
    cases v with
    | global j => trivial
    | loc j =>
      by_contra hj
      exact h.unread j (by simpa [UseFine, Avoids] using hj) hu
  | write v =>
    cases v with
    | global j => rfl
    | loc j => exact decide_eq_true (hown o b hb j hu)
  | embedded | call => trivial

theorem touchFine_of_harmless {b : Stmt} (h : LoopsHarmless sess o b)
    {formals : List Nat} (hformals : formals = formalsOf sess o) {x : Touch}
    (hx : x ∈ keptTouches sess (focalVars sess o) b) :
    TouchFine (orphaned sess (focalVars sess o) b) formals x := by
  cases x with
  | observed v =>
    cases v with
    | global j => trivial
    | loc j =>
      by_contra hj
      exact h.unseen j (by simpa [TouchFine, Avoids] using hj) hx
  | assigned v => trivial
  | embedded =>
    intro j hj
    rw [hformals] at hj
    exact h.unpassed hx j hj

/-- One body: the new one matches the old, with the index variables of the
deleted loops set apart. -/
theorem deadBody_bodySim {W : Type} {rt : Runtime W} (hrt : PureRuntime W rt) (hown : Owned sess)
    {b : Stmt} (hb : bodyOf sess o = some b) (h : LoopsHarmless sess o b) :
    BodySim sess (orphaned sess (focalVars sess o) b) (fun _ => True) rt (formalsOf sess o) b
      (deadBody sess o b) := by
  intro c k _ hformals hcall hk
  have hglobal : ∀ j, focalVars sess o (.global j) = true := fun _ => rfl
  have hsim : Sim (offView (orphaned sess (focalVars sess o) b)) (exec c b)
      (execOpt (c.withCall k) (deadS sess (focalVars sess o) b)) := by
    refine deadS_sim hglobal b hk (callsIdle_callFn hrt _ hglobal hcall) (fun u hu => ?_)
      (fun x hx => ?_) (fun s hs => ⟨h.loops s hs, fun i hi j hj => orphaned_of_mem hs hi hj⟩)
    · exact useFine_of_harmless hown hb h hu
    · exact touchFine_of_harmless h hformals hx
  unfold deadBody
  cases hd : deadS sess (focalVars sess o) b with
  | none | some b' =>
    rw [hd] at hsim
    exact hsim

theorem ownLocals_setBody (b' : Stmt) (o o' : Owner) :
    ownLocals (setBody sess b' o) o' = ownLocals sess o' := by
  cases o with
  | probe i =>
    cases o' with
    | probe j =>
      by_cases hij : i = j
      · subst hij
        cases hp : sess.probes[i]? <;> simp [ownLocals, setBody, hp]
      · simp [ownLocals, setBody, hij]
    | function f => rfl
  | function g =>
    cases o' with
    | probe j => rfl
    | function f =>
      by_cases hgf : g = f
      · subst hgf
        cases hp : sess.functions[g]? <;> simp [ownLocals, setBody, hp]
      · simp [ownLocals, setBody, hgf]

/-- The pass keeps to the locals that symbol resolution has given each body. -/
theorem owned_setBody (hown : Owned sess) {b : Stmt} (hb : bodyOf sess o = some b) :
    Owned (setBody sess (deadBody sess o b) o) := by
  intro o' b' hb' k hk
  rw [ownLocals_setBody]
  by_cases ho : o' = o
  · subst ho
    rw [bodyOf_setBody_self hb] at hb'
    obtain rfl := Option.some.inj hb'
    have hsub : .write (.loc k) ∈ usesOpt (deadS sess (focalVars sess o') b) := by
      unfold deadBody at hk
      cases hd : deadS sess (focalVars sess o') b with
      | none =>
        rw [hd] at hk
        exact nomatch hk
      | some s =>
        rw [hd] at hk
        exact hk
    exact hown o' b hb k (uses_deadS b _ hsub)
  · rw [bodyOf_setBody_ne _ ho] at hb'
    exact hown o' b' hb' k hk

end Pass

/-! ## Where the pass goes wrong -/

/-- A script of one probe over `global g, a` with one local `k`. -/
def loopProbe (body : Stmt) : Session where
  globals := [⟨[103], .long, []⟩, ⟨[97], .long, [.long]⟩]
  locals := [⟨[107], .long, []⟩]
  functions := []
  probes := [⟨[], [0], body, none⟩]

/-- `foreach (k in a) {}` -/
def emptyLoop : Stmt := .foreachLoop [⟨.long, .loc 0⟩] (.global 1) none none .null

/-- `g = 7` -/
def setSeven : Stmt := .expr (.assignment .long .set symG (.literalNumber .long 7))

/-- `probe begin { foreach (k in a) {} g = 7 }`: nobody looks at `k`. -/
def emptyLoopScript : Session := loopProbe (.block [emptyLoop, setSeven])

/-- `probe begin { foreach (k in a) {} g = k }`: the loop goes, and `g` ends up as
0 where it was the last key of `a`. -/
def lastKeyScript : Session := loopProbe (.block [emptyLoop,
  .expr (.assignment .long .set symG symX)])

end Systemtap.Opt
