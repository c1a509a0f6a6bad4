import Systemtap.Sem.Yields

/-!
# Target variables in return probes

A target variable has its value at the entry of a function, and a return probe runs at the exit.
`gen_mapped_saved_return` of `tapsets.cxx` makes up for that with code: for every variable it declares an array
and a counter, puts statements in front of the return handler that take the value out, and statements into
a sibling entry handler that put it in. The array with its counter is a stack for each thread.

The code is generated here as the source does it, as trees with their symbols resolved; `SavedStack.lean` and
`SavedRuns.lean` run it. What that needs to know is at the end: which statements there are for which variables (`Built`), and that
no two variables share an array, a counter or a temporary (`Built.apart`).
-/

namespace Systemtap.Tapset

open Systemtap.Tree Sem Lib List Function Nat

/-! ## The generated code -/

/-- The bytes of a text of the source. -/
def text (s : String) : Str := s.toUTF8.toList

/-- `lex_cast` of an `unsigned` -/
def lexCast (n : Nat) : Str :=
  if n = 0 then [48] else (digits 10 n).reverse.map fun d => UInt8.ofNat (48 + d)

/-- `aname`, with the first character of the base name, a `$`, cut off -/
def arrayName (baseName : Str) (tick : Nat) : Str :=
  text "_dwarf_tvar_" ++ baseName.drop 1 ++ text "_" ++ lexCast tick

/-- `ctrname` -/
def ctrName (aname : Str) : Str := aname ++ text "_ctr"

/-- The name of the temporary. -/
def tmpName (aname : Str) : Str := aname ++ text "_tmp"

def tidName : Str := text "_dwarf_tvar_tid"

/-- What the names stand for once the symbols are resolved: the globals of the session, the locals of the
entry handler and of the return handler, and the function `tid`. -/
structure Resolution where
  glob : Str → Nat
  entryLoc : Str → Nat
  returnLoc : Str → Nat
  tid : FnId
  glob_injective : Injective glob
  returnLoc_injective : Injective returnLoc

/-- The members of `dwarf_var_expanding_visitor` that the generation works on, and `q.sess.globals` by their
names. `addBlock` has the statements of the block. -/
structure Visitor where
  tick : Nat
  globals : List Str
  addBlock : Option (List Stmt)
  addCallProbe : Option Stmt
  returnTsMap : List (Str × Expr)

/-- `_dwarf_tvar_tid = tid()` -/
def tidAssign (R : Resolution) (loc : Nat) : Stmt :=
  .expr (.assignment .unknown .set (.symbol ⟨.unknown, .loc loc⟩) (.functioncall .unknown R.tid []))

/-- `ai_ctr`: the counter of the thread -/
def ctrIndex (R : Resolution) (aname : Str) (loc : Nat) : Expr :=
  .arrayindex .unknown (.global (R.glob (ctrName aname))) [.symbol ⟨.unknown, .loc loc⟩]

/-- `ai_tvar_base` with its second index -/
def tvarIndex (R : Resolution) (aname : Str) (loc : Nat) (second : Expr) : Expr :=
  .arrayindex .unknown (.global (R.glob aname)) [.symbol ⟨.unknown, .loc loc⟩, second]

/-- `tmpsym` -/
def tmpSym (R : Resolution) (aname : Str) : Expr := .symbol ⟨.unknown, .loc (R.returnLoc (tmpName aname))⟩

/-- The statements of (2b), (2c) and (2d) -/
def returnStmts (R : Resolution) (aname : Str) : List Stmt :=
  let loc := R.returnLoc tidName
  let ctr := ctrIndex R aname loc
  [ .expr (.assignment .unknown .set (tmpSym R aname) (tvarIndex R aname loc ctr)),
    .deleteStmt (tvarIndex R aname loc (.crement .unknown true .dec ctr)),
    .ifStmt (.unary .unknown .not ctr) (.deleteStmt ctr) none ]

/-- The statement of (3) that saves the value -/
def entryStmt (R : Resolution) (aname : Str) (e : Expr) : Stmt :=
  let loc := R.entryLoc tidName
  .expr (.assignment .unknown .set
    (tvarIndex R aname loc (.crement .unknown false .inc (ctrIndex R aname loc))) e)

/-- The entry handler before its first variable. -/
def entryStart (R : Resolution) : Stmt := .block [.block [], tidAssign R (R.entryLoc tidName)]

/-- `gen_mapped_saved_return` -/
def genMappedSavedReturn (R : Resolution) (v : Visitor) (e : Expr) (baseName : Str) : Expr × Visitor :=
  let aname := arrayName baseName v.tick
  (tmpSym R aname,
    { v with
      tick := v.tick + 1
      globals := v.globals ++ [aname, ctrName aname]
      addBlock := some (v.addBlock.getD [tidAssign R (R.returnLoc tidName)] ++ returnStmts R aname)
      addCallProbe := some (.block [v.addCallProbe.getD (entryStart R), entryStmt R aname e]) })

/-- A target variable in the body of the probe: how it prints, its base name, and what the variable is
expanded to outside of a return probe. -/
structure Use where
  tsName : Str
  baseName : Str
  expr : Expr

/-- `visit_target_symbol_saved_return`, with the mapped variant -/
def visitSavedReturn (R : Resolution) (v : Visitor) (u : Use) : Expr × Visitor :=
  match v.returnTsMap.lookup u.tsName with
  | some e => (e, v)
  | none =>
    let r := genMappedSavedReturn R v u.expr u.baseName
    (r.1, { r.2 with returnTsMap := (u.tsName, r.1) :: r.2.returnTsMap })

/-- A visitor before it has seen the probe; `tick` is shared with the others. -/
def Visitor.start (tick : Nat) (globals : List Str) : Visitor := ⟨tick, globals, none, none, []⟩

/-- The variables of a return probe, in the order in which they are visited. -/
def visitAll (R : Resolution) (v : Visitor) (uses : List Use) : Visitor :=
  uses.foldl (fun v u => (visitSavedReturn R v u).2) v

/-- What runs before the body of the return probe. -/
def Visitor.returnBlock (v : Visitor) : Stmt := .block (v.addBlock.getD [])

/-- The body of the sibling entry probe. -/
def Visitor.entryBody (v : Visitor) : Stmt := v.addCallProbe.getD .null

/-! ## The names are different -/

theorem toNat_digit {d : Nat} (h : d < 10) : (UInt8.ofNat (48 + d)).toNat = 48 + d := by
  interval_cases d <;> rfl

theorem digit_of_mem_lexCast {n : Nat} {x : UInt8} (h : x ∈ lexCast n) : 48 ≤ x.toNat ∧ x.toNat ≤ 57 := by
  rw [lexCast] at h
  split_ifs at h with hn
  · obtain rfl : x = 48 := by simpa using h
    decide
  · simp only [mem_map, mem_reverse] at h
    obtain ⟨d, hd, rfl⟩ := h
    have hlt : d < 10 := digits_lt_base (by decide) hd
    rw [toNat_digit hlt]
    omega

/-- The number that the digits stand for. -/
def digitsValue (s : Str) : Nat := ofDigits 10 (s.reverse.map fun x => x.toNat - 48)

theorem digitsValue_lexCast (n : Nat) : digitsValue (lexCast n) = n := by
  rw [lexCast]
  split_ifs with hn
  · rw [hn]
    rfl
  · have hdigits : (digits 10 n).map (fun d => (UInt8.ofNat (48 + d)).toNat - 48) = digits 10 n := by
      refine (map_congr_left fun d hd => ?_).trans (map_id _)
      have hlt : d < 10 := digits_lt_base (by decide) hd
      rw [toNat_digit hlt]
      simp
    rw [digitsValue, ← map_reverse, reverse_reverse, map_map]
    show ofDigits 10 ((digits 10 n).map fun d => (UInt8.ofNat (48 + d)).toNat - 48) = n
    rw [hdigits, ofDigits_digits]

theorem lexCast_injective : Injective lexCast :=
  LeftInverse.injective digitsValue_lexCast

theorem lexCast_ne_nil (n : Nat) : lexCast n ≠ [] := by
  rw [lexCast]
  split_ifs with hn
  · simp
  · simpa using digits_ne_nil_iff_ne_zero.2 hn

/-- A list splits in one way at the last place of an element. -/
theorem eq_of_append_cons {α : Type} {x : α} {xs xs' ys ys' : List α} (hy : x ∉ ys) (hy' : x ∉ ys')
    (h : xs ++ x :: ys = xs' ++ x :: ys') : ys = ys' := by
  rcases append_eq_append_iff.1 h with ⟨as, -, has⟩ | ⟨as, -, has⟩
  · cases as with
    | nil => simpa using has
    | cons a as =>
      obtain ⟨-, hE⟩ := cons.inj has
      exact absurd (by rw [hE]; simp) hy
  · cases as with
    | nil => simpa using has.symm
    | cons a as =>
      obtain ⟨-, hE⟩ := cons.inj has
      exact absurd (by rw [hE]; simp) hy'

/-- The names of two arrays differ if their ticks do. -/
theorem arrayName_tick {b b' : Str} {t t' : Nat} (h : arrayName b t = arrayName b' t') : t = t' := by
  have hnot (n : Nat) : (95 : UInt8) ∉ lexCast n := by
    intro hmem
    exact absurd (digit_of_mem_lexCast hmem).2 (by decide)
  have hunderscore : text "_" = [95] := by decide +kernel
  simp only [arrayName, hunderscore, append_assoc, singleton_append] at h
  rw [← append_assoc, ← append_assoc] at h
  exact lexCast_injective (eq_of_append_cons (hnot t) (hnot t') h)

theorem arrayName_ne_ctrName (b : Str) (t : Nat) (n : Str) : arrayName b t ≠ ctrName n := by
  intro h
  have hlast := congrArg getLast? h
  have hctr : text "_ctr" = [95, 99, 116, 114] := by decide +kernel
  rw [arrayName, ctrName, getLast?_append_of_ne_nil _ (lexCast_ne_nil t), hctr,
    getLast?_append_of_ne_nil _ (by simp)] at hlast
  have hmem : (114 : UInt8) ∈ lexCast t := mem_of_getLast? (by simpa using hlast)
  exact absurd (digit_of_mem_lexCast hmem).2 (by decide)

theorem ctrName_injective : Injective ctrName := fun _ _ h => append_cancel_right h

theorem tmpName_injective : Injective tmpName := fun _ _ h => append_cancel_right h

theorem tmpName_ne_tidName (n : Str) : tmpName n ≠ tidName := by
  intro h
  have hlast := congrArg getLast? h
  have htmp : text "_tmp" = [95, 116, 109, 112] := by decide +kernel
  have htid : tidName.getLast? = some 100 := by decide +kernel
  rw [htid, tmpName, htmp, getLast?_append_of_ne_nil _ (by simp)] at hlast
  exact absurd hlast (by decide)

/-! ## What the visitor has made -/

/-- A variable that code was generated for, with its tick. -/
structure Gen where
  use : Use
  tick : Nat

namespace Gen

def aname (g : Gen) : Str := arrayName g.use.baseName g.tick

/-- The array of the variable. -/
def arr (R : Resolution) (g : Gen) : Nat := R.glob g.aname

/-- Its counter. -/
def ctr (R : Resolution) (g : Gen) : Nat := R.glob (ctrName g.aname)

/-- The temporary of the return handler. -/
def tmp (R : Resolution) (g : Gen) : Nat := R.returnLoc (tmpName g.aname)

end Gen

/-- The entry handler goes on with the statement of one more variable. -/
def addEntry (R : Resolution) (p : Stmt) (g : Gen) : Stmt :=
  .block [p, entryStmt R g.aname g.use.expr]

/-- The visitor has generated the code of `gens`. -/
structure Built (R : Resolution) (names : List Str) (v : Visitor) (gens : List Gen) : Prop where
  block : v.addBlock.getD [tidAssign R (R.returnLoc tidName)]
    = tidAssign R (R.returnLoc tidName) :: gens.flatMap fun g => returnStmts R g.aname
  call : v.addCallProbe.getD (entryStart R) = gens.foldl (addEntry R) (entryStart R)
  made : gens ≠ [] → v.addBlock.isSome ∧ v.addCallProbe.isSome
  unmade : gens = [] → v.addBlock = none ∧ v.addCallProbe = none
  map : ∀ ts, v.returnTsMap.lookup ts
    = (gens.find? fun g => g.use.tsName = ts).map fun g => tmpSym R g.aname
  globals : v.globals = names ++ gens.flatMap fun g => [g.aname, ctrName g.aname]
  ticks : ∀ g ∈ gens, g.tick < v.tick
  nodup : (gens.map Gen.tick).Nodup

theorem built_start (R : Resolution) (tick : Nat) (names : List Str) :
    Built R names (Visitor.start tick names) [] where
  block := rfl
  call := rfl
  made := fun h => absurd rfl h
  unmade := fun _ => ⟨rfl, rfl⟩
  map := fun _ => rfl
  globals := (append_nil _).symm
  ticks := by simp
  nodup := nodup_nil

variable {R : Resolution} {names : List Str}

/-- A variable that is new gets code of its own, one that was seen before gets its old replacement. -/
theorem Built.visit {v : Visitor} {gens : List Gen} (h : Built R names v gens) (u : Use) :
    ∃ gens', Built R names (visitSavedReturn R v u).2 gens' ∧ (∀ g ∈ gens, g ∈ gens')
      ∧ (∀ g ∈ gens', g ∈ gens ∨ g.use = u) ∧ ∃ g ∈ gens', g.use.tsName = u.tsName := by
  rw [visitSavedReturn, h.map]
  cases hfind : gens.find? (fun g => g.use.tsName = u.tsName) with
  | some g =>
    refine ⟨gens, h, fun _ hg => hg, fun _ hg => Or.inl hg, g, mem_of_find?_eq_some hfind, ?_⟩
    simpa using find?_some hfind
  | none =>
    refine ⟨gens ++ [⟨u, v.tick⟩], ?_, fun g hg => mem_append_left _ hg, ?_, ⟨u, v.tick⟩, by simp, rfl⟩
    swap
    · intro g hg
      rcases mem_append.1 hg with hg | hg
      · exact Or.inl hg
      · exact Or.inr (by rw [mem_singleton.1 hg])
    refine ⟨?_, ?_, fun _ => ⟨rfl, rfl⟩, by simp, ?_, ?_, ?_, ?_⟩
    · show v.addBlock.getD [tidAssign R (R.returnLoc tidName)] ++ _ = _
      rw [h.block]
      simp [Gen.aname]
    · show Stmt.block [v.addCallProbe.getD (entryStart R), _] = _
      rw [h.call, foldl_append]
      rfl
    · intro ts
      show lookup ts ((u.tsName, _) :: v.returnTsMap) = _
      rw [find?_append, lookup_cons, h.map]
      by_cases hts : ts = u.tsName
      · subst hts
        rw [hfind]
        simp [Gen.aname, genMappedSavedReturn]
      · have hne : (ts == u.tsName) = false := by simpa using hts
        have hne' : ¬ u.tsName = ts := fun hE => hts hE.symm
        rw [hne]
        simp [hne']
    · show v.globals ++ _ = _
      rw [h.globals]
      simp [Gen.aname]
    · intro g hg
      show g.tick < v.tick + 1
      rcases mem_append.1 hg with hg | hg
      · exact (h.ticks g hg).trans (lt_succ_self _)
      · rw [mem_singleton.1 hg]
        exact lt_succ_self _
    · rw [map_append, map_singleton]
      refine nodup_append.2 ⟨h.nodup, nodup_singleton _, ?_⟩
      intro t ht t' ht'
      obtain ⟨g, hg, rfl⟩ := mem_map.1 ht
      rw [mem_singleton.1 ht']
      exact (h.ticks g hg).ne

theorem Built.visitAll (uses : List Use) :
    ∀ {v : Visitor} {gens : List Gen}, Built R names v gens →
      ∃ gens', Built R names (visitAll R v uses) gens' ∧ (∀ g ∈ gens, g ∈ gens')
        ∧ (∀ g ∈ gens', g ∈ gens ∨ g.use ∈ uses) ∧ ∀ u ∈ uses, ∃ g ∈ gens', g.use.tsName = u.tsName := by
  induction uses with
  | nil => exact fun h => ⟨_, h, fun _ hg => hg, fun _ hg => Or.inl hg, by simp⟩
  | cons u uses ih =>
    intro v gens h
    obtain ⟨gens1, h1, hsub1, hfrom1, g1, hg1, hname1⟩ := h.visit u
    obtain ⟨gens', h', hsub', hfrom', huses⟩ := ih h1
    refine ⟨gens', h', fun g hg => hsub' g (hsub1 g hg), ?_, ?_⟩
    · intro g hg
      rcases hfrom' g hg with hg | hg
      · rcases hfrom1 g hg with hg | hE
        · exact Or.inl hg
        · exact Or.inr (hE ▸ mem_cons_self)
      · exact Or.inr (mem_cons_of_mem _ hg)
    · intro u' hu'
      rcases mem_cons.1 hu' with rfl | hu'
      · exact ⟨g1, hsub' g1 hg1, hname1⟩
      · exact huses u' hu'

/-- The variables of two names do not meet. -/
structure Apart (R : Resolution) (g g' : Gen) : Prop where
  arr_arr : g.arr R ≠ g'.arr R
  arr_ctr : g.arr R ≠ g'.ctr R
  ctr_arr : g.ctr R ≠ g'.arr R
  ctr_ctr : g.ctr R ≠ g'.ctr R
  tmp_tmp : g.tmp R ≠ g'.tmp R

theorem Gen.arr_ne_ctr (R : Resolution) (g g' : Gen) : g.arr R ≠ g'.ctr R :=
  fun h => arrayName_ne_ctrName _ _ _ (R.glob_injective h)

theorem Gen.tmp_ne_tid (R : Resolution) (g : Gen) : g.tmp R ≠ R.returnLoc tidName :=
  fun h => tmpName_ne_tidName _ (R.returnLoc_injective h)

theorem apart_of_tick {g g' : Gen} (h : g.tick ≠ g'.tick) : Apart R g g' where
  arr_arr := fun hE => h (arrayName_tick (R.glob_injective hE))
  arr_ctr := g.arr_ne_ctr R g'
  ctr_arr := fun hE => g'.arr_ne_ctr R g hE.symm
  ctr_ctr := fun hE => h (arrayName_tick (ctrName_injective (R.glob_injective hE)))
  tmp_tmp := fun hE => h (arrayName_tick (tmpName_injective (R.returnLoc_injective hE)))

theorem Built.apart {v : Visitor} {gens : List Gen}
    (h : Built R names v gens) : gens.Pairwise (Apart R) :=
  (pairwise_map.1 h.nodup).imp fun hne => apart_of_tick hne

end Systemtap.Tapset
