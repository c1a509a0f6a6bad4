import Systemtap.Sem.Off

/-!
# Constructs match when their parts do

One lemma for each construct of the script, in the comparison `offView D`.
The two runs may call functions differently (`Ctx.withCall`): the function
bodies have been rewritten too, and that calls match is a hypothesis here.

Only a few constructs look at a variable by themselves: a symbol, a compound
assignment, `++` and `--`, `delete`, and the loop over the buckets of a
histogram, whose condition reads the bucket variable. Their lemmas ask that
the variable is not in `D`.
-/

namespace Systemtap.Sem

open Systemtap.Tree Systemtap.Lex Lib Sim Run.Yields

variable {W : Type} {D : Nat → Bool}

/-- The same context with another meaning for calls. -/
def Ctx.withCall (c : Ctx W) (k : FnId → List (Nat × Nat) → List Value → M W Value) : Ctx W :=
  { c with call := k }

abbrev Calls (W : Type) := FnId → List (Nat × Nat) → List Value → M W Value

/-- `f`, the evaluation of some kind of construct, does the same for `x` and, with the other calls,
for `x'`. -/
abbrev Matches (D : Nat → Bool) (c : Ctx W) (k : Calls W) {α β : Type} (f : Ctx W → α → M W β)
    (x x' : α) : Prop :=
  Sim (offView D) (f c x) (f (c.withCall k) x')

/-- The calls of the functions with `R` match. -/
abbrev CallsMatch (D : Nat → Bool) (R : FnId → Prop) (c : Ctx W) (k : Calls W) : Prop :=
  ∀ f, R f → ∀ iter args, Sim (offView D) (c.call f iter args) (k f iter args)

/-- The expression is no symbol that stands for a local in `D`. -/
def PlaceAvoids (D : Nat → Bool) : Expr → Prop
  | .symbol s => Avoids D s.referent
  | _ => True

/-- Only a symbol stands for a variable. -/
theorem place_avoids {e : Expr} (h : PlaceAvoids D e) (c : Ctx W) :
    Run.Yields (Place.avoids D) (place c e) := by
  cases e with
  | symbol s => exact pure h
  | arrayindex t base idx =>
    cases base with
    | global a => exact bind fun _ => pure trivial
    | loc k => exact halt
  | targetSymbol t tgt idx => exact bind fun _ => pure trivial
  | castOp t tgt e idx =>
    exact bind fun _ => bind fun _ => pure trivial
  | _ => exact halt

section Expressions

variable {c : Ctx W} {k : Calls W}
variable {t t' : ExpType} {l l' r r' e e' : Expr} {es es' : List Expr}

theorem binary_sim {op : ArithOp} (hl : Matches D c k eval l l') (hr : Matches D c k eval r r') :
    Matches D c k eval (.binary t op l r) (.binary t' op l' r') :=
  hl.bind fun a => hr.bind fun b => binaryOp_law (offLaw D) op a b

theorem logicalOr_sim (hl : Matches D c k eval l l') (hr : Matches D c k eval r r') :
    Matches D c k eval (.logicalOr t l r) (.logicalOr t' l' r') := by
  simp only [Matches, eval]
  refine (hl.bind asLong_sim).bind fun x => ?_
  split
  · exact pure _
  · exact (hr.bind asLong_sim).bind fun y => pure _

theorem logicalAnd_sim (hl : Matches D c k eval l l') (hr : Matches D c k eval r r') :
    Matches D c k eval (.logicalAnd t l r) (.logicalAnd t' l' r') := by
  simp only [Matches, eval]
  refine (hl.bind asLong_sim).bind fun x => ?_
  split
  · exact (hr.bind asLong_sim).bind fun y => pure _
  · exact pure _

theorem comparison_sim {op : CmpOp} (hl : Matches D c k eval l l') (hr : Matches D c k eval r r') :
    Matches D c k eval (.comparison t op l r) (.comparison t' op l' r') :=
  hl.bind fun a => hr.bind fun b => comparisonOp_law (offLaw D) op a b

theorem concatenation_sim (hl : Matches D c k eval l l') (hr : Matches D c k eval r r') :
    Matches D c k eval (.concatenation t l r) (.concatenation t' l' r') :=
  hl.bind fun a => hr.bind fun b => concatenationOp_law (offLaw D) a b

theorem unary_sim {op : UnOp} (he : Matches D c k eval e e') :
    Matches D c k eval (.unary t op e) (.unary t' op e') :=
  he.bind fun a => unaryOp_law (offLaw D) op a

theorem crement_sim {post : Bool} {op : CremOp} (he : Matches D c k place e e')
    (hD : PlaceAvoids D e) : Matches D c k eval (.crement t post op e) (.crement t' post op e') :=
  he.bind_yields (place_avoids hD c) fun _ hp => crementOp_law (offLaw D) c post op hp.writable

theorem arrayIn_sim (hh : e'.isHist = e.isHist) (he : Matches D c k eval e e')
    (hp : Matches D c k place e e') : Matches D c k eval (.arrayIn t e) (.arrayIn t' e') := by
  rw [Matches, eval, eval, hh]
  split
  · exact he
  · exact hp.bind fun p => arrayInOp_sim p

theorem ternary_sim (he : Matches D c k eval e e') (hl : Matches D c k eval l l')
    (hr : Matches D c k eval r r') :
    Matches D c k eval (.ternary t e l r) (.ternary t' e' l' r') := by
  simp only [Matches, eval]
  refine (he.bind asLong_sim).bind fun x => ?_
  split
  · exact hl
  · exact hr

theorem assignment_sim {op : AssignOp} (hl : Matches D c k place l l')
    (hr : Matches D c k eval r r') (hD : op = .set ∨ op = .stat ∨ PlaceAvoids D l) :
    Matches D c k eval (.assignment t op l r) (.assignment t' op l' r') := by
  simp only [Matches, eval]
  by_cases hop : op = .set ∨ op = .stat
  · exact hl.bind fun p => hr.bind fun v => assignOp_sim c v (or_assoc.mp (.inl hop))
  · have hD : PlaceAvoids D l := (or_assoc.mpr hD).resolve_left hop
    exact hl.bind_yields (place_avoids hD c) fun p hp => hr.bind fun v =>
      assignOp_sim c v (.inr (.inr hp))

theorem symbol_sim {s s' : Symbol} (hs : s'.referent = s.referent) (hD : Avoids D s.referent) :
    Matches D c k eval (.symbol s) (.symbol s') := by
  simp only [Matches, eval, hs]
  exact readVar_sim hD

variable {tgt : Target}

theorem targetSymbol_sim (h : Matches D c k evalArgs es es') :
    Matches D c k eval (.targetSymbol t tgt es) (.targetSymbol t' tgt es') :=
  h.bind fun _ => load_law (offLaw D) c trivial

theorem castOp_sim (he : Matches D c k eval e e') (h : Matches D c k evalArgs es es') :
    Matches D c k eval (.castOp t tgt e es) (.castOp t' tgt e' es') :=
  he.bind fun _ => h.bind fun _ => load_law (offLaw D) c trivial

theorem definedOp_sim : Matches D c k eval (.definedOp t e) (.definedOp t' e') :=
  pure _

theorem arrayindex_sim {base : Var} (h : Matches D c k evalArgs es es') :
    Matches D c k eval (.arrayindex t base es) (.arrayindex t' base es') := by
  cases base with
  | global a => exact h.bind fun _ => load_law (offLaw D) c (.inl trivial)
  | loc k => exact halt _

theorem histindex_sim {h : Hist} (he : Matches D c k place e e')
    (hs : Matches D c k evalArgs es es') :
    Matches D c k eval (.histindex t h e es) (.histindex t' h e' es') :=
  hs.bind fun args => he.bind fun p => (loadAggregate_sim c p).bind fun agg =>
    bucketOp_law (offLaw D) c args agg

theorem functioncall_sim {f : FnId} (h : Matches D c k evalArgs es es')
    (hk : ∀ args, Sim (offView D) (c.call f c.iter args) (k f c.iter args)) :
    Matches D c k eval (.functioncall t f es) (.functioncall t' f es') :=
  h.bind fun args => hk args

theorem printFormat_sim {f : Format} (h : Matches D c k evalArgs es es') :
    Matches D c k eval (.printFormat t f es) (.printFormat t' f es') :=
  h.bind fun args => printOp_law (offLaw D) c useOff_print args

theorem printHist_sim {f : Format} {h : Hist} (he : Matches D c k place e e') :
    Matches D c k eval (.printHist t f h e) (.printHist t' f h e') :=
  he.bind fun p => (loadAggregate_sim c p).bind fun agg => printHistOp_law (offLaw D) c useOff_print h agg.2

theorem statOp_eval_sim {ctype : StatComponent} (he : Matches D c k place e e') :
    Matches D c k eval (.statOp t ctype e) (.statOp t' ctype e') :=
  he.bind fun p => (loadAggregate_sim c p).bind fun agg => statOp_law (offLaw D) ctype agg.2

theorem evalArgs_nil_sim : Matches D c k evalArgs [] [] :=
  pure _

theorem evalArgs_cons_sim (he : Matches D c k eval e e') (h : Matches D c k evalArgs es es') :
    Matches D c k evalArgs (e :: es) (e' :: es') :=
  he.bind fun _ => h.bind fun _ => pure _

/-! ## Places -/

theorem place_symbol_sim {s s' : Symbol} (hs : s'.referent = s.referent) :
    Matches D c k place (.symbol s) (.symbol s') := by
  simp only [Matches, place, hs]
  exact pure _

theorem place_arrayindex_sim {base : Var} (h : Matches D c k evalArgs es es') :
    Matches D c k place (.arrayindex t base es) (.arrayindex t' base es') := by
  cases base with
  | global a => exact h.bind fun _ => pure _
  | loc k => exact halt _

theorem place_targetSymbol_sim (h : Matches D c k evalArgs es es') :
    Matches D c k place (.targetSymbol t tgt es) (.targetSymbol t' tgt es') :=
  h.bind fun _ => pure _

theorem place_castOp_sim (he : Matches D c k eval e e') (h : Matches D c k evalArgs es es') :
    Matches D c k place (.castOp t tgt e es) (.castOp t' tgt e' es') :=
  he.bind fun _ => h.bind fun _ => pure _

end Expressions

/-! ## Loops -/

section Loops

theorem assignIndexes_sim :
    ∀ (idx : List Symbol) (keys : List Value),
      Sim (offView D) (assignIndexes idx keys : M W Unit) (assignIndexes idx keys)
  | [], _ => pure ()
  | _ :: _, [] => pure ()
  | s :: ss, x :: xs => (writeVar_sim s.referent x).bind fun _ => assignIndexes_sim ss xs

theorem mapIter_sim (a : Nat) (keys : List Value) :
    Sim (offView D) (mapIter a keys : M W (Option (List Value))) (mapIter a keys) := by
  refine (readGlobal_sim a).bind fun g => ?_
  cases g with
  | array d es => exact ofOption_law (offLaw D) _
  | scalar | stat | statArray => exact halt _

theorem nextLive_sim (a : Nat) (k : Option (List Value)) :
    Sim (offView D) (nextLive a k : M W (Option (List Value))) (nextLive a k) := by
  cases k with
  | none => exact pure none
  | some keys => exact mapIter_sim a keys

theorem forStep_sim {cond cond' : M W Value} {incr incr' body body' : M W Ctl}
    (hc : Sim (offView D) cond cond') (hi : Sim (offView D) incr incr')
    (hb : Sim (offView D) body body') (u : Unit) :
    Sim (offView D) (forStep cond incr body u) (forStep cond' incr' body' u) := by
  refine (hc.bind asLong_sim).bind fun x => ?_
  split
  · refine hb.bind fun r => ?_
    cases r with
    | brk => exact pure _
    | norm | cont => exact hi.bind fun _ => pure _
  · exact pure _

variable {limit : Option I64} {body body' : M W Ctl} {idx : List Symbol}

theorem foreachStep_sim {κ : Type} {key : κ → Option (List Value)} {next next' : κ → M W κ}
    (hn : ∀ x, Sim (offView D) (next x) (next' x)) (hb : Sim (offView D) body body')
    (st : κ × I64) :
    Sim (offView D) (foreachStep idx limit key next body st)
      (foreachStep idx limit key next' body' st) := by
  unfold foreachStep
  split
  · exact pure _
  · split
    · exact pure _
    · refine (assignIndexes_sim _ _).bind fun _ => hb.bind fun r => ?_
      cases r with
      | brk => exact pure _
      | norm | cont => exact (hn st.1).bind fun _ => pure _

theorem sortNodes_sim (c : Ctx W) (a : Nat) (sort : Option SortOrder) (limit : Option I64)
    (d : Value) (es : List (List Value × Value)) :
    Sim (offView D) (sortNodes c a sort limit d es) (sortNodes c a sort limit d es) := by
  cases sort with
  | none => exact pure _
  | some o =>
    exact (noteMutation_sim c a _).bind fun _ => (setGlobal_sim a _).bind fun _ => pure _

variable {c : Ctx W} {k : Calls W}

theorem foreachOp_sim {base : Var} {sort : Option SortOrder} {body body' : Ctx W → M W Ctl}
    (hb : ∀ iter agg, Sim (offView D) (body { c with iter, agg })
      (body' ({ c with iter, agg }.withCall k))) :
    Sim (offView D) (foreachOp c idx base sort limit body)
      (foreachOp (c.withCall k) idx base sort limit body') := by
  cases base with
  | loc j => exact halt _
  | global a =>
    refine (readGlobal_sim a).bind fun g => ?_
    cases g with
    | array d es =>
      exact (sortNodes_sim c a sort limit d es).bind fun es =>
        iterate (foreachStep_sim (nextLive_sim a) (hb _ _)) _ _
    | statArray es =>
      dsimp only
      split
      next h =>
        exact raise_sim _ _
      next es' h =>
        have hk : (c.withCall k).rt.aggregate es = some es' := h
        simp only [hk]
        exact (noteMutation_sim c a _).bind fun _ =>
          iterate (foreachStep_sim (fun _ => pure _) (hb _ _)) _ _
    | scalar | stat => exact halt _

theorem foreachHistStep_sim {b : Var} {buckets : I64}
    (hD : Avoids D b) (hb : Sim (offView D) body body') (n : I64) :
    Sim (offView D) (foreachHistStep b limit buckets body n)
      (foreachHistStep b limit buckets body' n) := by
  refine ((readVar_sim hD).bind asLong_sim).bind fun x => ?_
  split
  · split
    · exact pure _
    · refine hb.bind fun r => ?_
      cases r with
      | norm =>
        exact ((readVar_sim hD).bind asLong_sim).bind fun y => (writeVar_sim b _).bind fun _ =>
          pure _
      | brk | cont => exact pure _
  · exact pure _

theorem foreachHistOp_sim {agg : Nat × Option (List I64)} (hD : ∀ s ∈ idx, Avoids D s.referent)
    (hb : Sim (offView D) body body') :
    Sim (offView D) (foreachHistOp c idx agg limit body)
      (foreachHistOp (c.withCall k) idx agg limit body') := by
  unfold foreachHistOp
  split
  next b =>
    exact (writeVar_sim b.referent _).bind fun _ =>
      iterate (foreachHistStep_sim (hD b (List.mem_singleton.mpr rfl)) hb) _ _
  next => exact halt _

end Loops

/-! ## Statements -/

theorem execBlock_append (c : Ctx W) :
    ∀ ss ts : List Stmt, execBlock c (ss ++ ts) = execBlock c ss >>= fun r =>
      match r with
      | .norm => execBlock c ts
      | r => pure r
  | [], ts => (pure_bind _ _).symm
  | s :: ss, ts => by
    rw [List.cons_append, execBlock, execBlock, bind_assoc]
    refine congrArg (exec c s >>= ·) (funext fun r => ?_)
    cases r with
    | norm => exact execBlock_append c ss ts
    | brk | cont => exact (pure_bind _ _).symm

theorem execBlock_singleton (c : Ctx W) (s : Stmt) : execBlock c [s] = exec c s := by
  rw [execBlock]
  conv_rhs => rw [← bind_pure (exec c s)]
  refine congrArg (exec c s >>= ·) (funext fun r => ?_)
  cases r <;> rfl

/-- `!e` as a condition. -/
theorem eval_not (c : Ctx W) (t : ExpType) (e : Expr) :
    eval c (.unary t .not e) >>= asLong
      = (eval c e >>= asLong) >>= fun x => pure (unary .not x) := by
  rw [eval]
  simp only [bind_assoc]
  refine congrArg (eval c e >>= ·) (funext fun a => ?_)
  cases a <;> rfl

theorem exec_ifNot (c : Ctx W) (t : ExpType) (e : Expr) (s : Stmt) :
    exec c (.ifStmt (.unary t .not e) s none)
      = (eval c e >>= asLong) >>= fun x => if x ≠ 0 then pure .norm else exec c s := by
  rw [exec, eval_not, bind_assoc]
  refine congrArg (_ >>= ·) (funext fun x => ?_)
  simp [unary, execOpt]

section Statements

variable {c : Ctx W} {k : Calls W}
variable {s s' : Stmt} {ss ss' : List Stmt} {o o' i i' : Option Stmt} {e e' : Expr}

theorem execBlock_cons_sim (hs : Matches D c k exec s s') (hss : Matches D c k execBlock ss ss') :
    Matches D c k execBlock (s :: ss) (s' :: ss') := by
  refine hs.bind fun r => ?_
  cases r with
  | norm => exact hss
  | brk | cont => exact pure _

theorem tryEnd_sim (r : Ctl) : Sim (offView D) (tryEnd r : M W Ctl) (tryEnd r) := by
  refine readError_sim ?_
  cases r <;> exact pure _

/-- A catch block that runs without an error in sight has no message to copy,
so it does not matter whether it would. -/
theorem catchOp_sim {v v' : Option Symbol} {h h' : M W Ctl} (hv : v' = v ∨ v' = none)
    (hh : Sim (offView D) h h') : Sim (offView D) (catchOp v h) (catchOp v' h') := by
  refine readError_sim ?_
  cases v with
  | some x => exact halt _
  | none =>
    obtain rfl : v' = none := by simpa using hv
    exact (pure ()).bind fun _ => clearError_sim.bind fun _ => hh

theorem tryBlock_sim {v v' : Option Symbol} (hv : v' = v ∨ v' = none)
    (hb : Matches D c k execOpt o o') (hh : Matches D c k execOpt i i') :
    Matches D c k exec (.tryBlock o v i) (.tryBlock o' v' i') :=
  onOut (hb.bind tryEnd_sim) (catchOp_sim hv hh)

theorem embeddedOp_sim {code : Str} (hD : ∀ j ∈ c.formals, D j = false) :
    Matches D c k embeddedOp code code := by
  have hargs : Sim (offView D) (Run.read fun s : State W => c.formals.map s.frame)
      (Run.read fun s => c.formals.map s.frame) :=
    read fun s t h => List.map_congr_left fun j hj => (h.frame j (hD j hj)).symm
  have hrun : ∀ args, Sim (offView D) (Run.read fun s : State W => c.rt.embedded code args s.world)
      (Run.read fun s => c.rt.embedded code args s.world) := fun args =>
    read fun s t h => congrArg (c.rt.embedded code args) h.world.symm
  exact hargs.bind fun args => (hrun args).bind fun r => (noteEmbedded_sim code args).bind fun _ =>
    (notePrinted_sim r.printed).bind fun _ => (noteError_sim r.error).bind fun _ =>
      leaveEmbedded_sim r

theorem embeddedcode_sim {code : Str} (hD : ∀ j ∈ c.formals, D j = false) :
    Matches D c k exec (.embeddedcode code) (.embeddedcode code) :=
  (embeddedOp_sim hD).bind fun _ => pure _

theorem expr_sim (he : Matches D c k eval e e') : Matches D c k exec (.expr e) (.expr e') :=
  he.bind fun _ => pure _

theorem ifStmt_sim (he : Matches D c k eval e e') (hs : Matches D c k exec s s')
    (ho : Matches D c k execOpt o o') : Matches D c k exec (.ifStmt e s o) (.ifStmt e' s' o') := by
  refine (he.bind asLong_sim).bind fun x => ?_
  split
  · exact hs
  · exact ho

theorem forLoop_sim {i i' o o' : Option Expr} (hi : Matches D c k evalVoid i i')
    (he : Matches D c k eval e e') (ho : Matches D c k evalVoid o o')
    (hs : Matches D c k exec s s') : Matches D c k exec (.forLoop i e o s) (.forLoop i' e' o' s') :=
  hi.bind fun _ => iterate (forStep_sim he ho hs) _ _

theorem foreachLoop_sim {idx : List Symbol} {base : Var} {sort : Option SortOrder}
    {l l' : Option Expr} (hl : Matches D c k evalLimit l l')
    (hs : ∀ iter agg, Sim (offView D) (exec { c with iter, agg } s)
      (exec ({ c with iter, agg }.withCall k) s')) :
    Matches D c k exec (.foreachLoop idx base sort l s) (.foreachLoop idx base sort l' s') :=
  hl.bind fun _ => foreachOp_sim hs

theorem foreachHist_sim {idx : List Symbol} {h : Hist} {l l' : Option Expr}
    (he : Matches D c k place e e') (hl : Matches D c k evalLimit l l')
    (hD : ∀ s ∈ idx, Avoids D s.referent) (hs : Matches D c k exec s s') :
    Matches D c k exec (.foreachHist idx h e l s) (.foreachHist idx h e' l' s') :=
  he.bind fun p => (loadAggregate_sim c p).bind fun _ => hl.bind fun _ => foreachHistOp_sim hD hs

theorem returnStmt_sim (he : Matches D c k eval e e') :
    Matches D c k exec (.returnStmt e) (.returnStmt e') :=
  he.bind fun v => (setRet_sim v).bind fun _ => out

theorem deleteStmt_sim (he : Matches D c k place e e') (hD : PlaceAvoids D e) :
    Matches D c k exec (.deleteStmt e) (.deleteStmt e') :=
  he.bind_yields (place_avoids hD c) fun _ hp =>
    Sim.bind (deletePlace_law (offLaw D) c hp.writable) fun _ => pure _

end Statements

end Systemtap.Sem
