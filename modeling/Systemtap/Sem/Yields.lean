import Systemtap.Sem.Congr

/-!
# Runs that end with a value

`Yields m s a s'` says that `m` runs from `s` to its end, with the value `a` and without an error, and leaves
the state `s'`. It is what a handler is followed with step by step: there is a rule for sequencing, and one
for each primitive that generated code is made of.
-/

namespace Systemtap.Sem

open Systemtap.Tree Lib

variable {W α β : Type}

/-- The run ends with the value `a` in `s'`, and no event of it is an error. -/
def Yields (m : M W α) (s : State W) (a : α) (s' : State W) : Prop :=
  ∃ es, m s = ⟨.val a, s', es⟩ ∧ ∀ e ∈ es, e.isError = false

/-- `s` with the array `a` holding `es`. -/
def State.setArray (s : State W) (a : Nat) (d : Value) (es : List (List Value × Value)) : State W :=
  { s with globals := Function.update s.globals a (.array d es) }

namespace Yields

variable {c : Ctx W} {s s' s'' : State W} {a : Nat} {keys : List Value} {d : Value}
  {es : List (List Value × Value)}

theorem pure (a : α) (s : State W) : Yields (Pure.pure a) s a s := ⟨[], rfl, by simp⟩

theorem bind {m : M W α} {f : α → M W β} {a : α} {b : β} (h : Yields m s a s') (hf : Yields (f a) s' b s'') :
    Yields (m >>= f) s b s'' := by
  obtain ⟨es, hm, hes⟩ := h
  obtain ⟨fs, hfa, hfs⟩ := hf
  refine ⟨es ++ fs, ?_, ?_⟩
  · rw [Run.bind_apply, hm, Run.andThen_val, hfa]
  · intro e he
    rcases List.mem_append.1 he with he | he
    · exact hes e he
    · exact hfs e he

theorem read (f : State W → α) (s : State W) : Yields (Run.read f) s (f s) s := ⟨[], rfl, by simp⟩

theorem update (f : State W → State W) (s : State W) : Yields (Run.update f) s () (f s) :=
  ⟨[], rfl, by simp⟩

theorem emit {e : Event} (h : e.isError = false) (s : State W) : Yields (Run.emit e) s () s :=
  ⟨[e], rfl, by simpa using h⟩

theorem onOut {m h : M W α} {a : α} (hm : Yields m s a s') : Yields (Run.onOut m h) s a s' := by
  obtain ⟨es, hm, hes⟩ := hm
  refine ⟨es, ?_, hes⟩
  simp only [Run.onOut, hm]

theorem inScope {enter : State W → State W} {leave : State W → State W → State W} {keep : Event → Bool}
    {m : M W α} {a : α} (hm : Yields m (enter s) a s') (hleave : leave s s' = s'') :
    Yields (Run.inScope enter leave keep m) s a s'' := by
  obtain ⟨es, hm, hes⟩ := hm
  refine ⟨es.filter keep, ?_, fun e he => hes e (List.mem_of_mem_filter he)⟩
  simp only [Run.inScope, hm, hleave]

/-! ## Variables and elements of arrays -/

theorem readVar_loc (k : Nat) (s : State W) : Yields (readVar (.loc k)) s (s.frame k) s :=
  Yields.read _ s

theorem writeVar_loc (k : Nat) (x : Value) (s : State W) :
    Yields (writeVar (.loc k) x) s () { s with frame := Function.update s.frame k x } :=
  (Yields.emit rfl s).bind (Yields.update _ s)

theorem load_elem (keys : List Value) (h : s.globals a = .array d es) :
    Yields (load c (.elem a keys)) s ((es.lookup keys).getD d) s := by
  refine (Yields.read _ s).bind ?_
  rw [h]
  exact Yields.pure _ s

theorem store_elem (keys : List Value) (x : Value) (h : s.globals a = .array d es)
    (hroom : (es.lookup keys).isSome ∨ es.length < c.rt.maxEntries a) :
    Yields (store c (.elem a keys) x) s () (s.setArray a d (setEntry keys x es)) := by
  refine (Yields.read _ s).bind ?_
  rw [h]
  show Yields (putEntry c a (.set keys x) keys x es (.array d)) s () _
  rw [putEntry, if_pos hroom]
  exact (Yields.emit rfl s).bind (Yields.update _ s)

theorem deletePlace_elem (keys : List Value) (h : s.globals a = .array d es) :
    Yields (deletePlace c (.elem a keys)) s () (s.setArray a d (delEntry keys es)) := by
  refine (Yields.read _ s).bind ?_
  rw [h]
  exact (Yields.emit rfl s).bind (Yields.update _ s)

theorem crementOp_elem (post : Bool) (op : CremOp) (keys : List Value) (h : s.globals a = .array d es)
    (hroom : (es.lookup keys).isSome ∨ es.length < c.rt.maxEntries a) :
    Yields (crementOp c post op (.elem a keys)) s
      (.long (if post then ((es.lookup keys).getD d).toLong
        else crementBy op ((es.lookup keys).getD d).toLong))
      (s.setArray a d (setEntry keys (.long (crementBy op ((es.lookup keys).getD d).toLong)) es)) :=
  (load_elem keys h).bind ((store_elem keys _ h hroom).bind (Yields.pure _ _))

/-! ## Expressions and statements -/

theorem symbol_loc (t : ExpType) (k : Nat) (s : State W) :
    Yields (eval c (.symbol ⟨t, .loc k⟩)) s (s.frame k) s := by
  rw [eval]
  exact readVar_loc k s

theorem args_nil (s : State W) : Yields (evalArgs c []) s [] s := by
  rw [evalArgs]
  exact Yields.pure _ s

variable {e : Expr} {v : Value}

theorem args_cons {rest : List Expr} {vs : List Value} (h : Yields (eval c e) s v s')
    (hrest : Yields (evalArgs c rest) s' vs s'') : Yields (evalArgs c (e :: rest)) s (v :: vs) s'' := by
  rw [evalArgs]
  exact h.bind (hrest.bind (Yields.pure _ _))

variable {t : ExpType}

theorem arrayindex {idx : List Expr} (hidx : Yields (evalArgs c idx) s keys s')
    (h : s'.globals a = .array d es) :
    Yields (eval c (.arrayindex t (.global a) idx)) s ((es.lookup keys).getD d) s' := by
  rw [eval]
  exact hidx.bind (load_elem keys h)

theorem place_arrayindex {idx : List Expr} (hidx : Yields (evalArgs c idx) s keys s') :
    Yields (place c (.arrayindex t (.global a) idx)) s (.elem a keys) s' := by
  rw [place]
  exact hidx.bind (Yields.pure _ _)

theorem place_symbol (t : ExpType) (v : Var) (s : State W) :
    Yields (place c (.symbol ⟨t, v⟩)) s (.var v) s := by
  rw [place]
  exact Yields.pure _ s

theorem crement {post : Bool} {op : CremOp} {p : Place}
    (hp : Yields (place c e) s p s') (h : Yields (crementOp c post op p) s' v s'') :
    Yields (eval c (.crement t post op e)) s v s'' := by
  rw [eval]
  exact hp.bind h

theorem unary {op : UnOp} {n : I64} (h : Yields (eval c e) s (.long n) s') :
    Yields (eval c (.unary t op e)) s (.long (Sem.unary op n)) s' := by
  rw [eval]
  exact h.bind ((Yields.pure _ _).bind (Yields.pure _ _))

theorem assign {l r : Expr} {p : Place} {s1 s2 : State W}
    (hl : Yields (place c l) s p s1) (hr : Yields (eval c r) s1 v s2) (hs : Yields (store c p v) s2 () s') :
    Yields (eval c (.assignment t .set l r)) s v s' := by
  rw [eval]
  exact hl.bind (hr.bind (hs.bind (Yields.pure _ _)))

theorem delete {p : Place} (hp : Yields (place c e) s p s')
    (h : Yields (deletePlace c p) s' () s'') : Yields (exec c (.deleteStmt e)) s .norm s'' := by
  rw [exec]
  exact hp.bind (h.bind (Yields.pure _ _))

theorem ifTrue {n : I64} {p : Stmt} {q : Option Stmt} {r : Ctl} (hn : n ≠ 0)
    (he : Yields (eval c e) s (.long n) s') (h : Yields (exec c p) s' r s'') :
    Yields (exec c (.ifStmt e p q)) s r s'' := by
  rw [exec]
  refine (he.bind (Yields.pure n _)).bind ?_
  rw [if_pos hn]
  exact h

theorem ifFalse {n : I64} {p : Stmt} {q : Option Stmt} {r : Ctl} (hn : n = 0)
    (he : Yields (eval c e) s (.long n) s') (h : Yields (execOpt c q) s' r s'') :
    Yields (exec c (.ifStmt e p q)) s r s'' := by
  rw [exec]
  refine (he.bind (Yields.pure n _)).bind ?_
  rw [if_neg (not_not.2 hn)]
  exact h

theorem expr (h : Yields (eval c e) s v s') : Yields (exec c (.expr e)) s .norm s' := by
  rw [exec]
  exact h.bind (Yields.pure _ _)

theorem block_nil (s : State W) : Yields (execBlock c []) s .norm s := by
  rw [execBlock]
  exact Yields.pure _ s

theorem block_cons {p : Stmt} {rest : List Stmt} (h : Yields (exec c p) s .norm s')
    (hrest : Yields (execBlock c rest) s' .norm s'') : Yields (execBlock c (p :: rest)) s .norm s'' := by
  rw [execBlock]
  exact h.bind hrest

theorem block_append {ps rest : List Stmt} (h : Yields (execBlock c ps) s .norm s')
    (hrest : Yields (execBlock c rest) s' .norm s'') : Yields (execBlock c (ps ++ rest)) s .norm s'' := by
  rw [execBlock_append]
  exact h.bind hrest

end Yields

end Systemtap.Sem
