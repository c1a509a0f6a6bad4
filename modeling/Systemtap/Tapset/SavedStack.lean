import Systemtap.Tapset.SavedReturn

/-!
# An array with a counter is a stack

What the statements of `SavedReturn.lean` do to the arrays of their variable, by the interpreter of `Sem`.
`Holds` says that an array with its counter is the stack of the active calls, thread by thread: the counter of
a thread is the depth of its calls, and the array has the value of each call at its depth. It is kept by the
statement that the entry handler has for the variable (`entryStmt_yields`) and by the three statements of the
return handler (`returnStmts_yields`), which do not look at the arrays of the other variables; so the
handlers, which go through all of them, are inductions over the variables.
-/

namespace Systemtap.Tapset

open Systemtap.Tree Sem Lib List Yields Option

/-! ## Arrays as maps -/

theorem lookup_cons_if {β : Type} (k : List Value) (e : List Value × β) (es : List (List Value × β)) :
    (e :: es).lookup k = if e.1 = k then some e.2 else es.lookup k := by
  by_cases h : e.1 = k
  · rw [lookup_cons, h, beq_self_eq_true, if_pos rfl]
  · rw [lookup_cons, beq_eq_false_iff_ne.2 (Ne.symm h), if_neg h]

theorem lookup_setEntry {β : Type} (keys k : List Value) (x : β) (es : List (List Value × β)) :
    (setEntry keys x es).lookup k = if k = keys then some x else es.lookup k := by
  have hmap : (es.map fun e => if e.1 = keys then (keys, x) else e).lookup k =
      if k = keys then (es.lookup k).map fun _ => x else es.lookup k := by
    induction es with
    | nil => simp
    | cons e es ih =>
      rw [map_cons, lookup_cons_if, lookup_cons_if, ih]
      grind
  rw [setEntry]
  split_ifs with hmem hk hk
  · obtain ⟨y, hy⟩ := isSome_iff_exists.1 hmem
    rw [hmap, if_pos hk, hk, hy, map_some]
  · rw [hmap, if_neg hk]
  · rw [lookup_append, hk, not_isSome_iff_eq_none.1 hmem, none_or, lookup_cons_if, if_pos rfl]
  · rw [lookup_append, lookup_cons_if, if_neg (Ne.symm hk), lookup_nil, or_none]

theorem lookup_delEntry {β : Type} (keys k : List Value) (es : List (List Value × β)) :
    (delEntry keys es).lookup k = if k = keys then none else es.lookup k := by
  rw [delEntry]
  induction es with
  | nil => simp
  | cons e es ih =>
    by_cases he : e.1 = keys
    · rw [filter_cons_of_neg (by simpa using he), ih, lookup_cons_if]
      grind
    · rw [filter_cons_of_pos (by simpa using he), lookup_cons_if, lookup_cons_if, ih]
      grind
theorem isSome_lookup_iff {β : Type} {k : List Value} {es : List (List Value × β)} :
    (es.lookup k).isSome ↔ k ∈ es.map Prod.fst := by
  rw [lookup_isSome_iff]
  simp

/-! ## A stack for each thread -/

/-- What the array of a variable has at a key: the thread and the depth of the call, from 1 on. -/
def savedAt (stack : I64 → List Value) : List Value → Option Value
  | [.long t, .long n] => if n = 0 then none else (stack t).reverse[n.toNat - 1]?
  | _ => none

/-- What its counter has: the depth, for the threads that have an active call. -/
def countAt (stack : I64 → List Value) : List Value → Option Value
  | [.long t] => if stack t = [] then none else some (.long (BitVec.ofNat 64 (stack t).length))
  | _ => none

/-- The array `a` and the counter `c` hold the stacks. -/
structure Holds (stack : I64 → List Value) (globals : Nat → Global) (a c : Nat) : Prop where
  arr : ∃ d es, globals a = .array d es ∧ ∀ k, es.lookup k = savedAt stack k
  ctr : ∃ es, globals c = .array (.long 0) es ∧ ∀ k, es.lookup k = countAt stack k
  small : ∀ t, (stack t).length < 2 ^ 31

variable {stack : I64 → List Value}

theorem Holds.congr {globals globals' : Nat → Global} {a c : Nat} (h : Holds stack globals a c)
    (ha : globals' a = globals a) (hc : globals' c = globals c) : Holds stack globals' a c :=
  ⟨ha ▸ h.arr, hc ▸ h.ctr, h.small⟩

/-- The depth that the counter shows. -/
theorem toLong_countAt (stack : I64 → List Value) (t : I64) :
    ((countAt stack [.long t]).getD (.long 0)).toLong = BitVec.ofNat 64 (stack t).length := by
  rw [countAt]
  split_ifs with h
  · rw [h]
    rfl
  · rfl

theorem toNat_ofNat_small {n : Nat} (h : n < 2 ^ 32) : (BitVec.ofNat 64 n).toNat = n := by
  exact Nat.mod_eq_of_lt (by omega)

variable {rest : List Value} {v : Value}

/-- The element of the innermost call. -/
theorem savedAt_top {t : I64} (h : stack t = v :: rest) (hsmall : (stack t).length < 2 ^ 31) :
    savedAt stack [.long t, .long (BitVec.ofNat 64 (stack t).length)] = some v := by
  have hnat := toNat_ofNat_small (n := (stack t).length) (by omega)
  have hne : BitVec.ofNat 64 (stack t).length ≠ 0 := by
    intro h0
    rw [h0] at hnat
    rw [h] at hnat
    simp at hnat
  rw [savedAt, if_neg hne, hnat, h]
  simp

/-- The elements of one thread are as many as its calls, so the array has room for no more calls than it has
entries. -/
theorem Holds.depth_le {globals : Nat → Global} {a c : Nat} {d : Value}
    {es : List (List Value × Value)} (h : Holds stack globals a c) (ha : globals a = .array d es) (t : I64) :
    (stack t).length ≤ es.length := by
  obtain ⟨d', es', ha', hes⟩ := h.arr
  rw [ha] at ha'
  obtain ⟨-, rfl⟩ := Global.array.inj ha'
  have hsmall := h.small t
  let key (j : Nat) : List Value := [.long t, .long (BitVec.ofNat 64 (j + 1))]
  have hnat {j : Nat} (hj : j < (stack t).length) : (BitVec.ofNat 64 (j + 1)).toNat = j + 1 :=
    toNat_ofNat_small (by omega)
  have hsub : (range (stack t).length).map key ⊆ es.map Prod.fst := by
    intro k hk
    obtain ⟨j, hj, rfl⟩ := mem_map.1 hk
    rw [mem_range] at hj
    rw [← isSome_lookup_iff, hes]
    have hne : BitVec.ofNat 64 (j + 1) ≠ 0 := by
      intro h0
      have := hnat hj
      rw [h0] at this
      simp at this
    show (savedAt stack [.long t, .long (BitVec.ofNat 64 (j + 1))]).isSome
    rw [savedAt, if_neg hne, hnat hj]
    simpa using hj
  have hnd : ((range (stack t).length).map key).Nodup := by
    refine nodup_range.map_on ?_
    intro i hi j hj hE
    rw [mem_range] at hi hj
    have hval : BitVec.ofNat 64 (i + 1) = BitVec.ofNat 64 (j + 1) := by simpa [key] using hE
    have := congrArg BitVec.toNat hval
    rw [hnat hi, hnat hj] at this
    omega
  have hlen := (hnd.subperm hsub).length_le
  simpa using hlen

/-! ## Entering and leaving a call -/

/-- The thread `t` enters a call with the value `v`. -/
def push (stack : I64 → List Value) (t : I64) (v : Value) : I64 → List Value :=
  Function.update stack t (v :: stack t)

/-- The key of the call that is entered. -/
def pushKey (stack : I64 → List Value) (t : I64) : List Value :=
  [.long t, .long (BitVec.ofNat 64 ((stack t).length + 1))]

theorem savedAt_push (stack : I64 → List Value) (t : I64) (hsmall : (stack t).length < 2 ^ 31) (v : Value)
    (k : List Value) :
    savedAt (push stack t v) k = if k = pushKey stack t then some v else savedAt stack k := by
  have hnat := toNat_ofNat_small (n := (stack t).length + 1) (by omega)
  unfold savedAt
  split
  next u n =>
    by_cases hu : u = t
    · subst hu
      have hkey : ([Value.long u, Value.long n] = pushKey stack u) ↔ n.toNat = (stack u).length + 1 := by
        simp only [pushKey, cons.injEq, Value.long.injEq, true_and, and_true]
        constructor
        · rintro rfl
          exact hnat
        · intro hE
          exact BitVec.eq_of_toNat_eq (by rw [hE, hnat])
      have hzero : n = 0 ↔ n.toNat = 0 := by
        constructor
        · rintro rfl
          rfl
        · intro hE
          exact BitVec.eq_of_toNat_eq (by simpa using hE)
      simp only [push, Function.update_self, reverse_cons, hkey, hzero]
      by_cases hn : n.toNat = 0
      · rw [if_pos hn, if_neg (by omega), if_pos hn]
      · rw [if_neg hn, if_neg hn]
        by_cases hE : n.toNat = (stack u).length + 1
        · simp [hE]
        · rw [if_neg hE, getElem?_append]
          split_ifs with hlt
          · rfl
          · rw [length_reverse] at hlt
            rw [getElem?_eq_none (by simp; omega), getElem?_eq_none (by simp; omega)]
    · have hkey : [Value.long u, Value.long n] ≠ pushKey stack t := by
        intro hE
        exact hu (by simpa using (cons.inj hE).1)
      rw [if_neg hkey, push, Function.update_of_ne hu]
  next hk =>
    have hkey : k ≠ pushKey stack t := by
      rintro rfl
      exact hk _ _ rfl
    rw [if_neg hkey]

theorem countAt_push (stack : I64 → List Value) (t : I64) (v : Value) (k : List Value) :
    countAt (push stack t v) k
      = if k = [.long t] then some (.long (BitVec.ofNat 64 ((stack t).length + 1))) else countAt stack k := by
  unfold countAt
  split
  next u =>
    by_cases hu : u = t
    · subst hu
      simp [push]
    · have hkey : [Value.long u] ≠ [Value.long t] := by simpa using hu
      rw [if_neg hkey, push, Function.update_of_ne hu]
  next hk =>
    have hkey : k ≠ [.long t] := by
      rintro rfl
      exact hk _ rfl
    rw [if_neg hkey]

/-- The thread `t` leaves its innermost call. -/
def pop (stack : I64 → List Value) (t : I64) : I64 → List Value := Function.update stack t (stack t).tail

theorem push_pop {t : I64} (h : stack t = v :: rest) : push (pop stack t) t v = stack := by
  funext u
  by_cases hu : u = t
  · subst hu
    simp [push, pop, h]
  · simp [push, pop, Function.update_of_ne hu]

theorem savedAt_pop {t : I64}
    (h : stack t = v :: rest) (hsmall : (stack t).length < 2 ^ 31) (k : List Value) :
    savedAt (pop stack t) k
      = if k = [.long t, .long (BitVec.ofNat 64 (stack t).length)] then none else savedAt stack k := by
  have hpop : pop stack t t = rest := by simp [pop, h]
  have hlen : (stack t).length = rest.length + 1 := by simp [h]
  have hpush := savedAt_push (pop stack t) t (by rw [hpop]; omega) v k
  rw [push_pop h, pushKey, hpop, ← hlen] at hpush
  split_ifs at hpush ⊢ with hk
  · rw [hk, savedAt]
    have hnat := toNat_ofNat_small (n := (stack t).length) (by omega)
    split_ifs
    · rfl
    · rw [hpop, hnat]
      exact getElem?_eq_none (by simp; omega)
  · exact hpush.symm

theorem countAt_pop {t : I64} (h : stack t = v :: rest) (k : List Value) :
    countAt (pop stack t) k
      = if k = [.long t] then (if rest = [] then none else some (.long (BitVec.ofNat 64 rest.length)))
        else countAt stack k := by
  have hpop : pop stack t t = rest := by simp [pop, h]
  have hpush := countAt_push (pop stack t) t v k
  rw [push_pop h] at hpush
  split_ifs at hpush ⊢ with hk hrest
  · rw [hk, countAt, hpop, if_pos hrest]
  · rw [hk, countAt, hpop, if_neg hrest]
  · exact hpush.symm

/-! ## The handlers -/

section Handlers

variable {W : Type} {cx : Ctx W} {R : Resolution} {s s' : State W} {g : Gen} {stack : I64 → List Value}
  {t : I64} {v : Value} {rest : List Value}

/-- The run has changed no globals but these two, and nothing outside. -/
structure Within (a c : Nat) (s s' : State W) : Prop where
  globals : ∀ k, k ≠ a → k ≠ c → s'.globals k = s.globals k
  world : s'.world = s.world
  lastError : s'.lastError = s.lastError

/-- There is room for one more element in the array and in its counter. -/
def Room (rt : Runtime W) (globals : Nat → Global) (a c : Nat) : Prop :=
  (∀ d es, globals a = .array d es → es.length < rt.maxEntries a)
    ∧ ∀ d es, globals c = .array d es → es.length < rt.maxEntries c

/-- The value of an expression that depends on nothing but the world. -/
def Reads (cx : Ctx W) (e : Expr) (w : W) (v : Value) : Prop :=
  ∀ s : State W, s.world = w → s.lastError = none → Yields (eval cx e) s v s

theorem ofNat_add_one (n : Nat) : BitVec.ofNat 64 n + 1 = BitVec.ofNat 64 (n + 1) := by
  rw [BitVec.ofNat_add]
  rfl

@[simp] theorem setArray_globals (s : State W) (a k : Nat) (d : Value) (es : List (List Value × Value)) :
    (s.setArray a d es).globals k = if k = a then .array d es else s.globals k := Function.update_apply ..

/-- The place of the counter. -/
theorem place_ctrIndex {loc : Nat} (htid : s.frame loc = .long t) :
    Yields (place cx (ctrIndex R g.aname loc)) s (.elem (g.ctr R) [.long t]) s := by
  have hsym := symbol_loc (c := cx) .unknown loc s
  rw [htid] at hsym
  exact place_arrayindex (args_cons hsym (args_nil s))

/-- The place of an element of the array, where `e` is its second index. -/
theorem place_tvarIndex {loc : Nat} {e : Expr} {n : Value} (htid : s.frame loc = .long t)
    (he : Yields (eval cx e) s n s') :
    Yields (place cx (tvarIndex R g.aname loc e)) s (.elem (g.arr R) [.long t, n]) s' := by
  have hsym := symbol_loc (c := cx) .unknown loc s
  rw [htid] at hsym
  exact place_arrayindex (args_cons hsym (args_cons he (args_nil s')))

/-- The statement of the entry handler puts the value of the variable on the stack of the thread. -/
theorem entryStmt_yields {w : W} (hholds : Holds stack s.globals (g.arr R) (g.ctr R))
    (htid : s.frame (R.entryLoc tidName) = .long t) (hw : s.world = w) (herr : s.lastError = none)
    (hroom : Room cx.rt s.globals (g.arr R) (g.ctr R)) (hmax : cx.rt.maxEntries (g.arr R) < 2 ^ 31)
    (hread : Reads cx g.use.expr w v) :
    ∃ s', Yields (exec cx (entryStmt R g.aname g.use.expr)) s .norm s'
      ∧ Holds (push stack t v) s'.globals (g.arr R) (g.ctr R) ∧ Within (g.arr R) (g.ctr R) s s'
      ∧ s'.frame = s.frame := by
  obtain ⟨d, ae, harr, hae⟩ := hholds.arr
  obtain ⟨ce, hctr, hce⟩ := hholds.ctr
  have hne : g.arr R ≠ g.ctr R := g.arr_ne_ctr R g
  have hdepth := hholds.depth_le harr t
  have hlen := hroom.1 d ae harr
  -- `++ctr[tid]`
  let s1 := s.setArray (g.ctr R) (.long 0)
    (setEntry [.long t] (.long (BitVec.ofNat 64 ((stack t).length + 1))) ce)
  have hcount : Yields (eval cx (.crement .unknown false .inc (ctrIndex R g.aname (R.entryLoc tidName)))) s
      (.long (BitVec.ofNat 64 ((stack t).length + 1))) s1 := by
    have hcrem := crementOp_elem (c := cx) false .inc [.long t] hctr
      (Or.inr (hroom.2 _ _ hctr))
    rw [hce, toLong_countAt] at hcrem
    simp only [crementBy, ofNat_add_one, Bool.false_eq_true, if_false] at hcrem
    exact crement (place_ctrIndex htid) hcrem
  have harr1 : s1.globals (g.arr R) = .array d ae := by simp [s1, hne, harr]
  have hstore := store_elem (c := cx) (pushKey stack t) v harr1 (Or.inr hlen)
  refine ⟨_, expr (assign (place_tvarIndex htid hcount) (hread s1 hw herr) hstore), ?_, ?_, rfl⟩
  · refine ⟨⟨d, setEntry (pushKey stack t) v ae, by simp, fun k => ?_⟩,
      ⟨setEntry [.long t] (.long (BitVec.ofNat 64 ((stack t).length + 1))) ce, by simp [s1, hne.symm], fun k => ?_⟩, ?_⟩
    · rw [lookup_setEntry, hae, savedAt_push stack t (hholds.small t)]
    · rw [lookup_setEntry, hce, countAt_push]
    · intro u
      by_cases hu : u = t
      · subst hu
        simp only [push, Function.update_self, length_cons]
        omega
      · rw [push, Function.update_of_ne hu]
        exact hholds.small u
  · exact ⟨fun k hka hkc => by simp [s1, hka, hkc], rfl, rfl⟩

theorem ofNat_succ_sub_one (n : Nat) : BitVec.ofNat 64 (n + 1) - 1 = BitVec.ofNat 64 n := by
  rw [← ofNat_add_one]
  exact add_sub_cancel_right _ _

/-- The value of the counter. -/
theorem eval_ctrIndex {loc : Nat} {ce : List (List Value × Value)} (htid : s.frame loc = .long t)
    (hctr : s.globals (g.ctr R) = .array (.long 0) ce) :
    Yields (eval cx (ctrIndex R g.aname loc)) s ((ce.lookup [.long t]).getD (.long 0)) s := by
  have hsym := symbol_loc (c := cx) .unknown loc s
  rw [htid] at hsym
  exact arrayindex (args_cons hsym (args_nil s)) hctr

theorem countAt_top (h : stack t = v :: rest) :
    countAt stack [.long t] = some (.long (BitVec.ofNat 64 (rest.length + 1))) := by
  rw [countAt, if_neg (by simp [h]), h, length_cons]

/-- `tmp = array[tid, ctr[tid]]` gets the value of the innermost call. -/
theorem readSaved_yields (hholds : Holds stack s.globals (g.arr R) (g.ctr R))
    (htid : s.frame (R.returnLoc tidName) = .long t) (hstack : stack t = v :: rest) :
    Yields (exec cx (.expr (.assignment .unknown .set (tmpSym R g.aname)
        (tvarIndex R g.aname (R.returnLoc tidName) (ctrIndex R g.aname (R.returnLoc tidName)))))) s .norm
      { s with frame := Function.update s.frame (g.tmp R) v } := by
  obtain ⟨d, ae, harr, hae⟩ := hholds.arr
  obtain ⟨ce, hctr, hce⟩ := hholds.ctr
  have hcount : Yields (eval cx (ctrIndex R g.aname (R.returnLoc tidName))) s _ s := eval_ctrIndex htid hctr
  rw [hce, countAt_top hstack, getD_some] at hcount
  have hsym := symbol_loc (c := cx) .unknown (R.returnLoc tidName) s
  rw [htid] at hsym
  have hvalue := arrayindex (t := .unknown)
    (args_cons hsym (args_cons hcount (args_nil s))) harr
  have htop := savedAt_top hstack (hholds.small t)
  rw [hstack, length_cons] at htop
  rw [hae, htop, getD_some] at hvalue
  exact expr (assign (place_symbol _ _ s) hvalue (writeVar_loc _ _ s))

/-- `delete array[tid, ctr[tid]--]` takes the element off. -/
theorem deleteSaved_yields {d : Value} {ae ce : List (List Value × Value)}
    (harr : s.globals (g.arr R) = .array d ae) (hctr : s.globals (g.ctr R) = .array (.long 0) ce)
    (hce : ce.lookup [.long t] = some (.long (BitVec.ofNat 64 (rest.length + 1))))
    (htid : s.frame (R.returnLoc tidName) = .long t) :
    Yields (exec cx (.deleteStmt (tvarIndex R g.aname (R.returnLoc tidName)
        (.crement .unknown true .dec (ctrIndex R g.aname (R.returnLoc tidName)))))) s .norm
      ((s.setArray (g.ctr R) (.long 0) (setEntry [.long t] (.long (BitVec.ofNat 64 rest.length)) ce)).setArray
        (g.arr R) d (delEntry [.long t, .long (BitVec.ofNat 64 (rest.length + 1))] ae)) := by
  have hcrem := crementOp_elem (c := cx) true .dec [.long t] hctr (Or.inl (by rw [hce]; rfl))
  rw [hce, getD_some] at hcrem
  simp only [crementBy, Value.toLong, ofNat_succ_sub_one, if_true] at hcrem
  refine delete (place_tvarIndex htid (crement (place_ctrIndex htid) hcrem)) ?_
  exact deletePlace_elem _ (by simp [g.arr_ne_ctr R g, harr])

/-- `if (! ctr[tid]) delete ctr[tid]` takes the counter away with the last call. -/
theorem deleteCtr_yields {ce : List (List Value × Value)} (hctr : s.globals (g.ctr R) = .array (.long 0) ce)
    (hce : ce.lookup [.long t] = some (.long (BitVec.ofNat 64 rest.length))) (hsmall : rest.length < 2 ^ 31)
    (htid : s.frame (R.returnLoc tidName) = .long t) :
    Yields (exec cx (.ifStmt (.unary .unknown .not (ctrIndex R g.aname (R.returnLoc tidName)))
        (.deleteStmt (ctrIndex R g.aname (R.returnLoc tidName))) none)) s .norm
      (if rest = [] then s.setArray (g.ctr R) (.long 0) (delEntry [.long t] ce) else s) := by
  have hcount : Yields (eval cx (ctrIndex R g.aname (R.returnLoc tidName))) s _ s := eval_ctrIndex htid hctr
  rw [hce, getD_some] at hcount
  have hnot : Yields (eval cx (.unary .unknown .not _)) s _ s := unary hcount
  split_ifs with hrest
  · refine ifTrue ?_ hnot (delete (place_ctrIndex htid) (deletePlace_elem _ hctr))
    rw [hrest]
    decide
  · have hne : BitVec.ofNat 64 rest.length ≠ 0 := by
      intro h0
      have hnat := toNat_ofNat_small (n := rest.length) (by omega)
      rw [h0] at hnat
      exact hrest (length_eq_zero_iff.1 (by simpa using hnat.symm))
    refine ifFalse ?_ hnot (pure _ s)
    exact if_neg hne

/-- The statements of the return handler take the value of the call off the stack of the thread and put it
into the temporary. -/
theorem returnStmts_yields (hholds : Holds stack s.globals (g.arr R) (g.ctr R))
    (htid : s.frame (R.returnLoc tidName) = .long t) (hstack : stack t = v :: rest) :
    ∃ s', Yields (execBlock cx (returnStmts R g.aname)) s .norm s'
      ∧ Holds (pop stack t) s'.globals (g.arr R) (g.ctr R) ∧ Within (g.arr R) (g.ctr R) s s'
      ∧ s'.frame = Function.update s.frame (g.tmp R) v := by
  obtain ⟨d, ae, harr, hae⟩ := hholds.arr
  obtain ⟨ce, hctr, hce⟩ := hholds.ctr
  have hne : g.arr R ≠ g.ctr R := g.arr_ne_ctr R g
  have hsmall := hholds.small t
  have hlen : (stack t).length = rest.length + 1 := by rw [hstack, length_cons]
  let s1 : State W := { s with frame := Function.update s.frame (g.tmp R) v }
  have htid1 : s1.frame (R.returnLoc tidName) = .long t := by
    show Function.update s.frame (g.tmp R) v _ = _
    rw [Function.update_of_ne (g.tmp_ne_tid R).symm, htid]
  let ce' := setEntry [.long t] (.long (BitVec.ofNat 64 rest.length)) ce
  let ae' := delEntry [.long t, .long (BitVec.ofNat 64 (rest.length + 1))] ae
  let s2 := (s1.setArray (g.ctr R) (.long 0) ce').setArray (g.arr R) d ae'
  have hctr2 : s2.globals (g.ctr R) = .array (.long 0) ce' := by simp [s2, hne.symm]
  have hce' : ce'.lookup [.long t] = some (.long (BitVec.ofNat 64 rest.length)) := by
    rw [lookup_setEntry, if_pos rfl]
  have hce1 : ce.lookup [.long t] = some (.long (BitVec.ofNat 64 (rest.length + 1))) := by
    rw [hce, countAt_top hstack]
  have hdel : Yields (exec cx _) s1 .norm s2 := deleteSaved_yields harr hctr hce1 htid1
  have hctrDel : Yields (exec cx _) s2 .norm _ := deleteCtr_yields hctr2 hce' (by omega) htid1
  refine ⟨_, block_cons (readSaved_yields hholds htid hstack)
    (block_cons hdel (block_cons hctrDel (block_nil _))), ?_, ?_, ?_⟩
  · have hsaved : ∀ k, ae'.lookup k = savedAt (pop stack t) k := by
      intro k
      rw [lookup_delEntry, hae, savedAt_pop hstack hsmall, hlen]
    have hsmall' : ∀ u, (pop stack t u).length < 2 ^ 31 := by
      intro u
      by_cases hu : u = t
      · subst hu
        simp only [pop, Function.update_self, hstack, tail_cons]
        omega
      · rw [pop, Function.update_of_ne hu]
        exact hholds.small u
    split_ifs with hrest
    · refine ⟨⟨d, ae', by simp [s2, hne], hsaved⟩, ⟨delEntry [.long t] ce', by simp, fun k => ?_⟩, hsmall'⟩
      rw [lookup_delEntry, lookup_setEntry, hce, countAt_pop hstack, if_pos hrest]
      split_ifs <;> rfl
    · refine ⟨⟨d, ae', by simp [s2], hsaved⟩, ⟨ce', hctr2, fun k => ?_⟩, hsmall'⟩
      rw [lookup_setEntry, hce, countAt_pop hstack, if_neg hrest]
  · split_ifs with hrest
    · exact ⟨fun k hka hkc => by simp [s2, s1, hka, hkc], rfl, rfl⟩
    · exact ⟨fun k hka hkc => by simp [s2, s1, hka, hkc], rfl, rfl⟩
  · split_ifs <;> rfl

/-- The context gives `tid()` its meaning, the number of the running thread. -/
def TidCall (cx : Ctx W) (f : FnId) (tid : W → I64) : Prop :=
  ∀ (iter : List (Nat × Nat)) (s : State W), s.lastError = none →
    Yields (cx.call f iter []) s (.long (tid s.world)) s

theorem tidAssign_yields {tid : W → I64} (h : TidCall cx R.tid tid) (loc : Nat) (herr : s.lastError = none) :
    Yields (exec cx (tidAssign R loc)) s .norm
      { s with frame := Function.update s.frame loc (.long (tid s.world)) } := by
  have hcall : Yields (eval cx (.functioncall .unknown R.tid [])) s (.long (tid s.world)) s := by
    rw [eval]
    exact (args_nil s).bind (h cx.iter s herr)
  exact expr (assign (place_symbol _ _ s) hcall (writeVar_loc _ _ s))

/-- The code of one variable leaves the stack of another alone. -/
theorem Within.others {g' : Gen} (h : Within (g.arr R) (g.ctr R) s s') (hA : Apart R g g') :
    s'.globals (g'.arr R) = s.globals (g'.arr R) ∧ s'.globals (g'.ctr R) = s.globals (g'.ctr R) :=
  ⟨h.globals _ hA.arr_arr.symm hA.ctr_arr.symm, h.globals _ hA.arr_ctr.symm hA.ctr_ctr.symm⟩

/-- What leaves all globals alone but those of `gens` leaves the stack of another variable alone. -/
theorem Holds.of_others {gens : List Gen} (h : Holds stack s.globals (g.arr R) (g.ctr R))
    (hg : ∀ g' ∈ gens, Apart R g g')
    (hother : ∀ k, (∀ g' ∈ gens, k ≠ g'.arr R ∧ k ≠ g'.ctr R) → s'.globals k = s.globals k) :
    Holds stack s'.globals (g.arr R) (g.ctr R) :=
  h.congr (hother _ fun g' hg' => ⟨(hg g' hg').arr_arr, (hg g' hg').arr_ctr⟩)
    (hother _ fun g' hg' => ⟨(hg g' hg').ctr_arr, (hg g' hg').ctr_ctr⟩)

variable {stackOf : Gen → I64 → List Value} (val : Gen → Value)

/-- The entry handler from one of its variables on. The code of the variables before it is `p`. -/
theorem addEntry_yields {w : W} (hmax : ∀ a, cx.rt.maxEntries a < 2 ^ 31) (gens : List Gen) :
    ∀ {p : Stmt} {s0 s : State W}, Yields (exec cx p) s0 .norm s → gens.Pairwise (Apart R) →
      (∀ g ∈ gens, Holds (stackOf g) s.globals (g.arr R) (g.ctr R)) →
      (∀ g ∈ gens, Room cx.rt s.globals (g.arr R) (g.ctr R)) →
      (∀ g ∈ gens, Reads cx g.use.expr w (val g)) →
      s.frame (R.entryLoc tidName) = .long t → s.world = w → s.lastError = none →
      ∃ s', Yields (exec cx (gens.foldl (addEntry R) p)) s0 .norm s'
        ∧ (∀ g ∈ gens, Holds (push (stackOf g) t (val g)) s'.globals (g.arr R) (g.ctr R))
        ∧ ∀ k, (∀ g ∈ gens, k ≠ g.arr R ∧ k ≠ g.ctr R) → s'.globals k = s.globals k := by
  induction gens with
  | nil => exact fun hp _ _ _ _ _ _ _ => ⟨_, hp, by simp, fun _ _ => rfl⟩
  | cons g gens ih =>
    intro p s0 s hp hapart hholds hroom hreads htid hw herr
    obtain ⟨hg, hapart⟩ := pairwise_cons.1 hapart
    obtain ⟨s1, hentry, hheld, hwithin, hframe⟩ := entryStmt_yields (hholds g mem_cons_self) htid hw herr
      (hroom g mem_cons_self) (hmax _) (hreads g mem_cons_self)
    have hblock : Yields (exec cx (addEntry R p g)) s0 .norm s1 := by
      rw [addEntry, exec]
      exact block_cons hp (block_cons hentry (block_nil _))
    -- the other variables are as they were
    have hsame := fun g' hg' => hwithin.others (hg g' hg')
    obtain ⟨s', hrest, hheld', hother⟩ := ih hblock hapart
      (fun g' hg' => (hholds g' (mem_cons_of_mem _ hg')).congr (hsame g' hg').1 (hsame g' hg').2)
      (fun g' hg' => by
        have hr := hroom g' (mem_cons_of_mem _ hg')
        rw [Room, (hsame g' hg').1, (hsame g' hg').2]
        exact hr)
      (fun g' hg' => hreads g' (mem_cons_of_mem _ hg')) (by rw [hframe, htid])
      (by rw [hwithin.world, hw]) (by rw [hwithin.lastError, herr])
    refine ⟨s', hrest, ?_, ?_⟩
    · intro g' hg'
      rcases mem_cons.1 hg' with rfl | hg'
      · exact hheld.of_others hg hother
      · exact hheld' g' hg'
    · intro k hk
      obtain ⟨hka, hkc⟩ := hk g mem_cons_self
      rw [hother k fun g' hg' => hk g' (mem_cons_of_mem _ hg'), hwithin.globals k hka hkc]

/-- The statements of the return handler, variable by variable. -/
theorem returnBlock_yields (gens : List Gen) :
    ∀ {s : State W}, gens.Pairwise (Apart R) →
      (∀ g ∈ gens, Holds (stackOf g) s.globals (g.arr R) (g.ctr R)) →
      (∀ g ∈ gens, ∃ rest, stackOf g t = val g :: rest) →
      s.frame (R.returnLoc tidName) = .long t →
      ∃ s', Yields (execBlock cx (gens.flatMap fun g => returnStmts R g.aname)) s .norm s'
        ∧ (∀ g ∈ gens, Holds (pop (stackOf g) t) s'.globals (g.arr R) (g.ctr R))
        ∧ (∀ k, (∀ g ∈ gens, k ≠ g.arr R ∧ k ≠ g.ctr R) → s'.globals k = s.globals k)
        ∧ (∀ g ∈ gens, s'.frame (g.tmp R) = val g)
        ∧ ∀ k, (∀ g ∈ gens, k ≠ g.tmp R) → s'.frame k = s.frame k := by
  induction gens with
  | nil => exact fun _ _ _ _ => ⟨_, block_nil _, by simp, fun _ _ => rfl, by simp, fun _ _ => rfl⟩
  | cons g gens ih =>
    intro s hapart hholds hstacks htid
    obtain ⟨hg, hapart⟩ := pairwise_cons.1 hapart
    obtain ⟨rest, hstack⟩ := hstacks g mem_cons_self
    obtain ⟨s1, hreturn, hheld, hwithin, hframe⟩ :=
      returnStmts_yields (hholds g mem_cons_self) htid hstack
    have hsame := fun g' hg' => hwithin.others (hg g' hg')
    obtain ⟨s', hrest, hheld', hother, htmp, hlocal⟩ := ih hapart
      (fun g' hg' => (hholds g' (mem_cons_of_mem _ hg')).congr (hsame g' hg').1 (hsame g' hg').2)
      (fun g' hg' => hstacks g' (mem_cons_of_mem _ hg'))
      (by rw [hframe, Function.update_of_ne (g.tmp_ne_tid R).symm, htid])
    refine ⟨s', ?_, ?_, ?_, ?_, ?_⟩
    · rw [flatMap_cons]
      exact block_append hreturn hrest
    · intro g' hg'
      rcases mem_cons.1 hg' with rfl | hg'
      · exact hheld.of_others hg hother
      · exact hheld' g' hg'
    · intro k hk
      obtain ⟨hka, hkc⟩ := hk g mem_cons_self
      rw [hother k fun g' hg' => hk g' (mem_cons_of_mem _ hg'), hwithin.globals k hka hkc]
    · intro g' hg'
      rcases mem_cons.1 hg' with rfl | hg'
      · rw [hlocal _ fun g1 hg1 => (hg g1 hg1).tmp_tmp, hframe, Function.update_self]
      · exact htmp g' hg'
    · intro k hk
      rw [hlocal k fun g' hg' => hk g' (mem_cons_of_mem _ hg'), hframe,
        Function.update_of_ne (hk g mem_cons_self)]

end Handlers

end Systemtap.Tapset
