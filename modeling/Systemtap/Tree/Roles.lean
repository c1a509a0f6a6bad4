import Systemtap.Tree.VarUse

/-!
# What a script does with a variable

The role in which each variable stands in a piece of script, as the language
has it: its value is used, it is assigned to by some operator, stepped by `++`
or `--`, deleted, walked over, or filled in by a loop or a `catch`. Unlike the
uses that `varuse_collecting_visitor` notes, roles keep the operator, so that
`v <<< x` can be told from `v = x`.

A role is followed through calls by `CodeOf`, the bodies that a handler can
reach.
-/

namespace Systemtap.Tree

/-- The role a variable stands in. -/
inductive Role where
  | value
  | assign (op : AssignOp)
  | step
  | delete
  | iterate
  | index
  | caught
deriving DecidableEq, Repr

/-- A variable in its role, or a call. -/
inductive Access where
  | var (v : Var) (r : Role)
  | call (f : FnId)
deriving DecidableEq, Repr

/-- The roles that a statistics variable can stand in. What else is done to a
variable is done to numbers and strings only. -/
def Role.onStats : Role → Bool
  | .value | .delete | .iterate => true
  | .assign op => op = .stat
  | .step | .index | .caught => false

mutual

/-- The variables of an expression that stands in role `r`. -/
def Expr.accesses (r : Role) : Expr → List Access
  | .literalString _ _ | .literalNumber _ _ => []
  | .binary _ _ e f | .logicalOr _ e f | .logicalAnd _ e f | .comparison _ _ e f
  | .concatenation _ e f => e.accesses .value ++ f.accesses .value
  | .unary _ _ e | .arrayIn _ e | .definedOp _ e | .statOp _ _ e => e.accesses .value
  | .crement _ _ _ e => e.accesses .step
  | .ternary _ e t f => e.accesses .value ++ t.accesses .value ++ f.accesses .value
  | .assignment _ op e f => e.accesses (.assign op) ++ f.accesses .value
  | .symbol s => [.var s.referent r]
  | .targetSymbol _ _ idx => accessesList idx
  | .castOp _ _ e idx => e.accesses .value ++ accessesList idx
  | .arrayindex _ base idx => accessesList idx ++ [.var base r]
  | .histindex _ _ stat idx => accessesList idx ++ stat.accesses r
  | .functioncall _ f es => accessesList es ++ [.call f]
  | .printFormat _ _ es => accessesList es
  | .printHist _ _ _ stat => stat.accesses .value

def accessesList : List Expr → List Access
  | [] => []
  | e :: es => e.accesses .value ++ accessesList es

end

def accessesMaybe : Option Expr → List Access
  | none => []
  | some e => e.accesses .value

mutual

/-- The variables of a statement. -/
def Stmt.accesses : Stmt → List Access
  | .block ss => accessesBlock ss
  | .tryBlock body var handler =>
    accessesOpt body ++ var.toList.map (fun s => .var s.referent .caught) ++ accessesOpt handler
  | .embeddedcode _ | .null | .next | .breakStmt | .continueStmt => []
  | .expr e | .returnStmt e => e.accesses .value
  | .ifStmt e t f => e.accesses .value ++ t.accesses ++ accessesOpt f
  | .forLoop init cond incr body =>
    accessesMaybe init ++ cond.accesses .value ++ accessesMaybe incr ++ body.accesses
  | .foreachLoop idx base _ limit body =>
    [.var base .iterate] ++ idx.map (fun s => .var s.referent .index) ++ accessesMaybe limit ++
      body.accesses
  | .foreachHist idx _ stat limit body =>
    stat.accesses .value ++ idx.map (fun s => .var s.referent .index) ++ accessesMaybe limit ++
      body.accesses
  | .deleteStmt e => e.accesses .delete

def accessesOpt : Option Stmt → List Access
  | none => []
  | some s => s.accesses

def accessesBlock : List Stmt → List Access
  | [] => []
  | s :: ss => s.accesses ++ accessesBlock ss

end

/-! ## Roles and noted uses -/

/-- The mark under which `varuse_collecting_visitor` meets a variable in a role. -/
def Role.mark : Role → Mark
  | .value | .iterate => .none
  | .assign op => assignMark op
  | .step | .index | .caught => .lvalue
  | .delete => .lrvalue

/-- What the visitor notes of an access. -/
def Access.noted : Access → List Use
  | .var v r => symbolUses r.mark v
  | .call f => [.call f]

/-- Everything the visitor notes of these accesses is among `us`. -/
def Noted (as : List Access) (us : List Use) : Prop := ∀ a ∈ as, ∀ u ∈ a.noted, u ∈ us

namespace Noted

variable {as bs : List Access} {us vs : List Use}

theorem nil : Noted [] us := nofun

theorem append (h : Noted as us) (h' : Noted bs vs) : Noted (as ++ bs) (us ++ vs) := by
  intro a ha u hu
  rcases List.mem_append.mp ha with ha | ha
  · exact List.mem_append_left _ (h a ha u hu)
  · exact List.mem_append_right _ (h' a ha u hu)

theorem left (h : Noted as us) : Noted as (us ++ vs) :=
  fun a ha u hu => List.mem_append_left _ (h a ha u hu)

theorem right (h : Noted as vs) : Noted as (us ++ vs) :=
  fun a ha u hu => List.mem_append_right _ (h a ha u hu)

theorem single {a : Access} (h : a.noted = us) : Noted [a] us := by
  intro b hb u hu
  obtain rfl := List.mem_singleton.mp hb
  exact h ▸ hu

theorem indexes (idx : List Symbol) (r : Role) (hr : r.mark = .lvalue) :
    Noted (idx.map fun s => .var s.referent r) (usesIndexes idx) := by
  intro a ha u hu
  obtain ⟨s, hs, rfl⟩ := List.mem_map.mp ha
  rw [Access.noted, hr] at hu
  obtain rfl := List.mem_singleton.mp hu
  exact List.mem_map_of_mem hs

end Noted

mutual

theorem Expr.noted : ∀ (e : Expr) (r : Role), Noted (e.accesses r) (e.uses r.mark)
  | .literalString _ _, _ | .literalNumber _ _, _ => .nil
  | .binary _ _ e f, _ | .logicalOr _ e f, _ | .logicalAnd _ e f, _ | .comparison _ _ e f, _
  | .concatenation _ e f, _ => (e.noted .value).append (f.noted .value)
  | .unary _ _ e, _ | .arrayIn _ e, _ | .definedOp _ e, _ | .statOp _ _ e, _ => e.noted .value
  | .crement _ _ _ e, _ => e.noted .step
  | .ternary _ e t f, _ => ((e.noted .value).append (t.noted .value)).append (f.noted .value)
  | .assignment _ op e f, _ => (e.noted (.assign op)).append (f.noted .value)
  | .symbol _, _ => .single rfl
  | .targetSymbol _ _ idx, _ => (accessesList_noted idx).right
  | .castOp _ _ e idx, _ => (e.noted .value).right.append (accessesList_noted idx)
  | .arrayindex _ _ idx, _ => (accessesList_noted idx).append (.single rfl)
  | .histindex _ _ stat idx, r => (accessesList_noted idx).append (stat.noted r)
  | .functioncall _ _ es, _ => (accessesList_noted es).append (.single rfl)
  | .printFormat _ _ es, _ => (accessesList_noted es).right
  | .printHist _ _ _ stat, _ => (stat.noted .value).right

theorem accessesList_noted : ∀ es : List Expr, Noted (accessesList es) (usesList es)
  | [] => .nil
  | e :: es => (e.noted .value).append (accessesList_noted es)

end

theorem accessesMaybe_noted (o : Option Expr) : Noted (accessesMaybe o) (usesMaybe o) := by
  cases o with
  | none => exact .nil
  | some e => exact e.noted .value

mutual

/-- **Every access of a statement is noted**, under the mark of its role. -/
theorem Stmt.noted : ∀ s : Stmt, Noted s.accesses s.uses
  | .block ss => accessesBlock_noted ss
  | .tryBlock body var handler =>
    ((accessesOpt_noted body).append (.indexes var.toList .caught rfl)).append
      (accessesOpt_noted handler)
  | .embeddedcode _ | .null | .next | .breakStmt | .continueStmt => .nil
  | .expr e | .returnStmt e => e.noted .value
  | .ifStmt e t f => ((e.noted .value).append t.noted).append (accessesOpt_noted f)
  | .forLoop init cond incr body =>
    (((accessesMaybe_noted init).append (cond.noted .value)).append
      (accessesMaybe_noted incr)).append body.noted
  | .foreachLoop idx _ _ limit body =>
    (((Noted.single rfl).left.append (.indexes idx .index rfl)).append
      (accessesMaybe_noted limit)).append body.noted
  | .foreachHist idx _ stat limit body =>
    (((stat.noted .value).append (.indexes idx .index rfl)).append
      (accessesMaybe_noted limit)).append body.noted
  | .deleteStmt e => e.noted .delete

theorem accessesOpt_noted : ∀ o : Option Stmt, Noted (accessesOpt o) (usesOpt o)
  | none => .nil
  | some s => s.noted

theorem accessesBlock_noted : ∀ ss : List Stmt, Noted (accessesBlock ss) (usesBlock ss)
  | [] => .nil
  | s :: ss => s.noted.append (accessesBlock_noted ss)

end

/-! ## Through calls -/

/-- The bodies that a handler reaches. -/
inductive CodeOf (sess : Session) (p : Probe) : Stmt → Prop
  | body : CodeOf sess p p.body
  | call {s : Stmt} {f : FnId} {fd : Functiondecl} (hs : CodeOf sess p s)
      (hf : .call f ∈ s.accesses) (hfd : sess.functions[f]? = some fd) : CodeOf sess p fd.body

/-- In everything the handler reaches, the one thing done to the statistics
variable `v` is `<<<`. -/
def OnlyAdds (sess : Session) (p : Probe) (v : Var) : Prop :=
  ∀ s, CodeOf sess p s → ∀ r, .var v r ∈ s.accesses → r.onStats = true → r = .assign .stat

theorem CodeOf.uses_subset {sess : Session} {p : Probe} {s : Stmt} (h : CodeOf sess p s) :
    s.uses ⊆ sess.varuse p.body.uses := by
  obtain ⟨hstart, hclosed⟩ := sess.varuse_spec p.body.uses
  induction h with
  | body => exact hstart
  | call hs hf hfd ih =>
    rename_i s f fd
    have hcall : .call f ∈ sess.varuse p.body.uses :=
      ih (s.noted _ hf _ (List.mem_singleton.mpr rfl))
    have hfn : sess.fnUses f = fd.body.uses := by
      unfold Session.fnUses
      rw [hfd]
    rw [← hfn]
    exact hclosed f hcall

/-- What is done to a statistics variable, other than `<<<`, reads it. -/
theorem read_of_onStats {r : Role} (v : Var) (h : r.onStats = true) (hr : r ≠ .assign .stat) :
    .read v ∈ symbolUses r.mark v := by
  cases r with
  | value | iterate | delete => simp [Role.mark, symbolUses]
  | assign op =>
    have hop : op = .stat := by simpa [Role.onStats] using h
    exact absurd (congrArg Role.assign hop) hr
  | step | index | caught => exact nomatch h

/-- **Where no read is noted, `<<<` is all that is done to a statistic.** -/
theorem onlyAdds_of_not_read {sess : Session} {p : Probe} {v : Var}
    (h : .read v ∉ sess.varuse p.body.uses) : OnlyAdds sess p v := by
  intro s hs r hr hstats
  by_contra hne
  exact h (hs.uses_subset (s.noted _ hr _ (read_of_onStats v hstats hne)))

end Systemtap.Tree
