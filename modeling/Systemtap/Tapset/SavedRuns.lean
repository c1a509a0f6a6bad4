import Systemtap.Tapset.SavedStack
import Systemtap.Lib.Steps

/-!
# Runs of calls and returns with saved variables

The handlers of `SavedReturn.lean` for any number of threads. A configuration has the globals and, for every
thread, its active calls of the probed function with what each variable was at their entry, the innermost
call first. Calls, returns and anything that leaves the generated arrays alone follow each other in any order.
`savedReturn_matches` is about all such runs.
-/

namespace Systemtap.Tapset

open Systemtap.Tree Sem Lib List Yields Option

/-! ## Runs -/

section Runs

variable {W : Type}

/-- The function `tid` of the tapset: it is embedded C that looks up the running thread. -/
structure TidFunction (sess : Session) (rt : Runtime W) (f : FnId) (tid : W → I64) : Prop where
  decl : ∃ fd code, sess.functions[f]? = some fd ∧ fd.formalArgs = [] ∧ fd.body = .embeddedcode code
    ∧ ∀ w, rt.embedded code [] w = ⟨w, some (.long (tid w)), none, none⟩

theorem TidFunction.tidCall {sess : Session} {rt : Runtime W} {f : FnId} {tid : W → I64}
    (h : TidFunction sess rt f tid) (fuel nesting : Nat) :
    TidCall (probeCtx sess rt fuel (nesting + 1)) f tid := by
  intro iter s herr
  obtain ⟨fd, code, hfd, hformals, hbody, hcode⟩ := h.decl
  show Yields (callFn sess rt fuel (nesting + 1) f iter []) s _ s
  rw [callFn, hfd]
  simp only [hformals, hbody, length_nil, if_true]
  -- the state inside of the call, and after the embedded C
  let s1 : State W := { s with frame := bindFormals [] [] (initFrame sess), ret := Value.init fd.type }
  let s2 : State W := { s1 with ret := .long (tid s.world) }
  have hcall (c : Ctx W) (hc : c.rt = rt) (hf : c.formals = []) :
      Yields (finishCall (exec c (.embeddedcode code))) s1 (.long (tid s.world)) s2 := by
    have hop : Yields (embeddedOp c code) s1 () s2 := by
      refine (read _ s1).bind ((read _ s1).bind ?_)
      simp only [hc, hf, map_nil, hcode]
      have hnote : Yields (noteEmbedded code []) s1 () s1 := by
        rw [noteEmbedded]
        split_ifs
        · exact pure _ s1
        · exact emit rfl s1
      exact hnote.bind ((pure _ s1).bind ((pure _ s1).bind (update _ s1)))
    have hexec : Yields (exec c (.embeddedcode code)) s1 .norm s2 := by
      rw [exec]
      exact hop.bind (pure _ s2)
    refine hexec.onOut.bind ((read _ s2).bind ?_)
    have hnone : s2.lastError = none := herr
    rw [hnone]
    exact read _ s2
  exact inScope (hcall _ rfl rfl) rfl

/-- A session with a return probe: the target variables of its body, and how the generated names are
resolved. `tick` and `names` are what the visitors before this one have left. -/
structure Setup (W : Type) where
  sess : Session
  rt : Runtime W
  fuel : Nat
  nesting : Nat
  R : Resolution
  tid : W → I64
  uses : List Use
  tick : Nat
  names : List Str
  tidFunction : TidFunction sess rt R.tid tid
  /-- `MAXMAPENTRIES` is an `int`. -/
  maxEntries_lt : ∀ a, rt.maxEntries a < 2 ^ 31

namespace Setup

variable (S : Setup W)

def visitor : Visitor := visitAll S.R (Visitor.start S.tick S.names) S.uses

def ctx : Ctx W := probeCtx S.sess S.rt S.fuel (S.nesting + 1)

/-- The globals that the visitor has declared. -/
def declared : List Str := S.visitor.globals.drop S.names.length

/-- Two states of the globals agree on the generated arrays. -/
def Agree (g g' : Nat → Global) : Prop := ∀ n ∈ S.declared, g' (S.R.glob n) = g (S.R.glob n)

/-- What the variables are when a call is entered in `w`. -/
def Snapshot (w : W) (ρ : Str → Value) : Prop := ∀ u ∈ S.uses, Reads S.ctx u.expr w (ρ u.tsName)

/-- No generated array is full. -/
def HasRoom (g : Nat → Global) : Prop :=
  ∀ n ∈ S.declared, ∀ d es, g (S.R.glob n) = .array d es → es.length < S.rt.maxEntries (S.R.glob n)

end Setup

/-- The globals, and for each thread its active calls, the innermost first, with what the variables were
when they were entered. -/
structure Config where
  globals : Nat → Global
  calls : I64 → List (Str → Value)

/-- What happens next. The world says which thread runs. -/
inductive Happens (W : Type) where
  | enter (w : W)
  | leave (w : W)
  | other

namespace Setup

variable (S : Setup W)

/-- Before the first call the arrays are there and empty; the counters are arrays of numbers. -/
structure Start (cfg : Config) : Prop where
  calls : ∀ t, cfg.calls t = []
  empty : ∀ n ∈ S.declared, ∃ d, cfg.globals (S.R.glob n) = .array d []
  counters : ∀ n, ctrName n ∈ S.declared → cfg.globals (S.R.glob (ctrName n)) = .array (.long 0) []

/-- A thread enters a call and the entry handler runs, or it leaves its innermost call and the return handler
runs. What the rest of the return handler, other handlers and the kernel do leaves the generated arrays
alone. -/
inductive Step : Config → Happens W → Config → Prop
  | enter {cfg : Config} {w : W} {ρ : Str → Value} {g' : Nat → Global} (hread : S.Snapshot w ρ)
      (hroom : S.HasRoom cfg.globals)
      (hagree : S.Agree
        (exec S.ctx S.visitor.entryBody (startState S.sess cfg.globals w)).state.globals g') :
      Step cfg (.enter w) ⟨g', Function.update cfg.calls (S.tid w) (ρ :: cfg.calls (S.tid w))⟩
  | leave {cfg : Config} {w : W} {ρ : Str → Value} {rest : List (Str → Value)} {g' : Nat → Global}
      (hactive : cfg.calls (S.tid w) = ρ :: rest)
      (hagree : S.Agree
        (exec S.ctx S.visitor.returnBlock (startState S.sess cfg.globals w)).state.globals g') :
      Step cfg (.leave w) ⟨g', Function.update cfg.calls (S.tid w) rest⟩
  | other {cfg : Config} {g' : Nat → Global} (hagree : S.Agree cfg.globals g') :
      Step cfg .other ⟨g', cfg.calls⟩

/-- In a configuration the handlers do what they are for: they run to their end; the temporary of a
variable has what the variable was when the call was entered that is left now; and the arrays have nothing
for a thread without an active call. -/
structure Matches (cfg : Config) : Prop where
  enters : ∀ w ρ, S.Snapshot w ρ → S.HasRoom cfg.globals →
    ∃ s', Yields (exec S.ctx S.visitor.entryBody) (startState S.sess cfg.globals w) .norm s'
  returns : ∀ w ρ rest, cfg.calls (S.tid w) = ρ :: rest →
    ∃ s', Yields (exec S.ctx S.visitor.returnBlock) (startState S.sess cfg.globals w) .norm s'
      ∧ ∀ u ∈ S.uses, ∃ k, S.visitor.returnTsMap.lookup u.tsName = some (.symbol ⟨.unknown, .loc k⟩)
        ∧ s'.frame k = ρ u.tsName
  idle : ∀ t, cfg.calls t = [] → ∀ n ∈ S.declared, ∀ d es, cfg.globals (S.R.glob n) = .array d es →
    ∀ e ∈ es, e.1.head? ≠ some (.long t)

/-! ## Every run -/

variable {S} {cfg : Config} {gens : List Gen}

/-- The stack of one variable. -/
def stackOf (cfg : Config) (g : Gen) (t : I64) : List Value := (cfg.calls t).map fun ρ => ρ g.use.tsName

/-- The arrays of all variables hold their stacks. -/
def Inv (S : Setup W) (gens : List Gen) (cfg : Config) : Prop :=
  ∀ g ∈ gens, Holds (stackOf cfg g) cfg.globals (g.arr S.R) (g.ctr S.R)

variable (hbuilt : Built S.R S.names S.visitor gens)
include hbuilt

theorem declared_eq :
    S.declared = gens.flatMap fun g => [g.aname, ctrName g.aname] := by
  rw [declared, hbuilt.globals, drop_left]

theorem mem_declared {g : Gen} (hg : g ∈ gens) :
    g.aname ∈ S.declared ∧ ctrName g.aname ∈ S.declared := by
  rw [declared_eq hbuilt]
  exact ⟨mem_flatMap.2 ⟨g, hg, by simp⟩, mem_flatMap.2 ⟨g, hg, by simp⟩⟩

theorem Inv.agree {stack : Gen → I64 → List Value}
    {g g' : Nat → Global} (h : ∀ x ∈ gens, Holds (stack x) g (x.arr S.R) (x.ctr S.R))
    (hagree : S.Agree g g') : ∀ x ∈ gens, Holds (stack x) g' (x.arr S.R) (x.ctr S.R) := by
  intro x hx
  obtain ⟨ha, hc⟩ := mem_declared hbuilt hx
  exact (h x hx).congr (hagree _ ha) (hagree _ hc)

theorem inv_start (h : S.Start cfg) : Inv S gens cfg := by
  intro g hg
  obtain ⟨ha, hc⟩ := mem_declared hbuilt hg
  have hstack (t : I64) : stackOf cfg g t = [] := by simp [stackOf, h.calls t]
  obtain ⟨d, hd⟩ := h.empty _ ha
  refine ⟨⟨d, [], hd, fun k => ?_⟩, ⟨[], h.counters _ hc, fun k => ?_⟩, fun t => by simp [hstack]⟩
  · unfold savedAt
    split <;> simp [hstack]
  · unfold countAt
    split <;> simp [hstack]

omit hbuilt

/-- A handler after `_dwarf_tvar_tid = tid()`. -/
def withTid (S : Setup W) (cfg : Config) (w : W) (loc : Nat) : State W :=
  { startState S.sess cfg.globals w with
    frame := Function.update (initFrame S.sess) loc (.long (S.tid w)) }

theorem tid_yields (cfg : Config) (w : W) (loc : Nat) :
    Yields (exec S.ctx (tidAssign S.R loc)) (startState S.sess cfg.globals w) .norm (S.withTid cfg w loc) :=
  tidAssign_yields (S.tidFunction.tidCall S.fuel S.nesting) loc rfl

variable {ρ : Str → Value}

/-- The entry handler runs to its end and puts the call on the stacks. -/
theorem entry_yields (hbuilt : Built S.R S.names S.visitor gens) (hfrom : ∀ g ∈ gens, g.use ∈ S.uses)
    (hinv : Inv S gens cfg) {w : W} (hread : S.Snapshot w ρ) (hroom : S.HasRoom cfg.globals) :
    ∃ s', Yields (exec S.ctx S.visitor.entryBody) (startState S.sess cfg.globals w) .norm s'
      ∧ ∀ g ∈ gens, Holds (push (stackOf cfg g) (S.tid w) (ρ g.use.tsName)) s'.globals (g.arr S.R)
        (g.ctr S.R) := by
  by_cases hgens : gens = []
  · obtain ⟨-, hnone⟩ := hbuilt.unmade hgens
    refine ⟨startState S.sess cfg.globals w, ?_, by simp [hgens]⟩
    rw [Visitor.entryBody, hnone]
    show Yields (exec S.ctx .null) _ .norm _
    rw [exec]
    exact pure _ _
  · obtain ⟨body, hbody⟩ := isSome_iff_exists.1 (hbuilt.made hgens).2
    have hcall := hbuilt.call
    rw [hbody, getD_some] at hcall
    rw [Visitor.entryBody, hbody, getD_some, hcall]
    have hstart : Yields (exec S.ctx (entryStart S.R)) (startState S.sess cfg.globals w) .norm
        (S.withTid cfg w (S.R.entryLoc tidName)) := by
      rw [entryStart, exec]
      refine block_cons ?_ (block_cons (tid_yields cfg w _) (block_nil _))
      rw [exec]
      exact block_nil _
    obtain ⟨s', hyields, hholds, -⟩ := addEntry_yields (fun g => ρ g.use.tsName) S.maxEntries_lt
      gens hstart hbuilt.apart hinv
      (fun g hg => ⟨hroom _ (mem_declared hbuilt hg).1, hroom _ (mem_declared hbuilt hg).2⟩)
      (fun g hg => hread g.use (hfrom g hg)) (Function.update_self ..) rfl rfl
    exact ⟨s', hyields, hholds⟩

/-- The return handler runs to its end, takes the call off the stacks and has its values in the temporaries. -/
theorem return_yields (hbuilt : Built S.R S.names S.visitor gens) (hinv : Inv S gens cfg) {w : W}
    {rest : List (Str → Value)} (hactive : cfg.calls (S.tid w) = ρ :: rest) :
    ∃ s', Yields (exec S.ctx S.visitor.returnBlock) (startState S.sess cfg.globals w) .norm s'
      ∧ (∀ g ∈ gens, Holds (pop (stackOf cfg g) (S.tid w)) s'.globals (g.arr S.R) (g.ctr S.R))
      ∧ ∀ g ∈ gens, s'.frame (g.tmp S.R) = ρ g.use.tsName := by
  by_cases hgens : gens = []
  · obtain ⟨hnone, -⟩ := hbuilt.unmade hgens
    refine ⟨startState S.sess cfg.globals w, ?_, by simp [hgens], by simp [hgens]⟩
    rw [Visitor.returnBlock, hnone, exec]
    exact block_nil _
  · obtain ⟨body, hbody⟩ := isSome_iff_exists.1 (hbuilt.made hgens).1
    have hblock := hbuilt.block
    rw [hbody, getD_some] at hblock
    rw [Visitor.returnBlock, hbody, getD_some, hblock]
    have hstart : ∀ g ∈ gens, Holds (stackOf cfg g) (S.withTid cfg w (S.R.returnLoc tidName)).globals
        (g.arr S.R) (g.ctr S.R) := hinv
    have hstacks : ∀ g ∈ gens, ∃ l, stackOf cfg g (S.tid w) = ρ g.use.tsName :: l := by
      intro g _
      exact ⟨rest.map fun ρ => ρ g.use.tsName, by simp [stackOf, hactive]⟩
    obtain ⟨s', hyields, hholds, -, htmp, -⟩ := returnBlock_yields (fun g => ρ g.use.tsName) gens
      hbuilt.apart hstart hstacks (Function.update_self ..)
    refine ⟨s', ?_, hholds, htmp⟩
    rw [exec]
    exact block_cons (tid_yields cfg w _) hyields

theorem stackOf_enter (cfg : Config) (g' : Nat → Global) (g : Gen) (t : I64) (ρ : Str → Value) :
    stackOf ⟨g', Function.update cfg.calls t (ρ :: cfg.calls t)⟩ g
      = push (stackOf cfg g) t (ρ g.use.tsName) := by
  funext u
  by_cases hu : u = t
  · subst hu
    simp [stackOf, push]
  · simp [stackOf, push, Function.update_of_ne hu]

theorem stackOf_leave {cfg : Config} {rest : List (Str → Value)} {t : I64}
    (h : cfg.calls t = ρ :: rest) (g' : Nat → Global) (g : Gen) :
    stackOf ⟨g', Function.update cfg.calls t rest⟩ g = pop (stackOf cfg g) t := by
  funext u
  by_cases hu : u = t
  · subst hu
    simp [stackOf, pop, h]
  · simp [stackOf, pop, Function.update_of_ne hu]

/-- The outcome of a run that yields. -/
theorem state_of_yields {m : M W Ctl} {s s' : State W} {r : Ctl} (h : Yields m s r s') :
    (m s).state = s' := by
  obtain ⟨es, hm, -⟩ := h
  rw [hm]

/-- Every step keeps the arrays and the stacks together. -/
theorem inv_step (hbuilt : Built S.R S.names S.visitor gens) (hfrom : ∀ g ∈ gens, g.use ∈ S.uses)
    {cfg' : Config} {e : Happens W} (hinv : Inv S gens cfg) (hstep : S.Step cfg e cfg') :
    Inv S gens cfg' := by
  cases hstep with
  | @enter w ρ g' hread hroom hagree =>
    obtain ⟨s', hyields, hholds⟩ := entry_yields hbuilt hfrom hinv hread hroom
    rw [state_of_yields hyields] at hagree
    intro g hg
    rw [stackOf_enter]
    exact Inv.agree hbuilt hholds hagree g hg
  | @leave w ρ rest g' hactive hagree =>
    obtain ⟨s', hyields, hholds, -⟩ := return_yields hbuilt hinv hactive
    rw [state_of_yields hyields] at hagree
    intro g hg
    rw [stackOf_leave hactive]
    exact Inv.agree hbuilt hholds hagree g hg
  | other hagree => exact Inv.agree hbuilt hinv hagree

/-- The arrays of a thread without an active call are empty. -/
theorem head_ne_of_idle {g : Gen} {t : I64} (hholds : Holds (stackOf cfg g) cfg.globals (g.arr S.R) (g.ctr S.R))
    (hidle : cfg.calls t = []) :
    (∀ d es, cfg.globals (g.arr S.R) = .array d es → ∀ e ∈ es, e.1.head? ≠ some (.long t))
      ∧ ∀ d es, cfg.globals (g.ctr S.R) = .array d es → ∀ e ∈ es, e.1.head? ≠ some (.long t) := by
  have hstack : stackOf cfg g t = [] := by simp [stackOf, hidle]
  constructor
  · intro d es hd e he hhead
    obtain ⟨d', es', hd', hes⟩ := hholds.arr
    rw [hd] at hd'
    obtain ⟨-, rfl⟩ := Global.array.inj hd'
    have hsome : (savedAt (stackOf cfg g) e.1).isSome := by
      rw [← hes, isSome_lookup_iff]
      exact mem_map_of_mem he
    unfold savedAt at hsome
    split at hsome
    next u n hkey =>
      rw [hkey] at hhead
      obtain rfl : u = t := by simpa using hhead
      simp [hstack] at hsome
    next => simp at hsome
  · intro d es hd e he hhead
    obtain ⟨es', hd', hes⟩ := hholds.ctr
    rw [hd] at hd'
    obtain ⟨-, rfl⟩ := Global.array.inj hd'
    have hsome : (countAt (stackOf cfg g) e.1).isSome := by
      rw [← hes, isSome_lookup_iff]
      exact mem_map_of_mem he
    unfold countAt at hsome
    split at hsome
    next u hkey =>
      rw [hkey] at hhead
      obtain rfl : u = t := by simpa using hhead
      simp [hstack] at hsome
    next => simp at hsome

end Setup

/-- A target variable without indexes reads nothing but the world. -/
theorem reads_targetSymbol {cx : Ctx W} {T : Target} {w : W} {v : Value} (h : cx.rt.target T [] w = .ok v) :
    Reads cx (.targetSymbol .unknown T []) w v := by
  intro s hw _
  rw [eval]
  refine (args_nil s).bind ((read _ s).bind ?_)
  rw [hw, h]
  exact pure _ s

end Runs

/-! ## A probe with one variable -/

/-- The running thread and what `$x` is. -/
structure World where
  thread : I64
  x : I64

def sampleRuntime : Runtime World where
  embedded := fun _ _ w => ⟨w, some (.long w.thread), none, none⟩
  render := fun _ _ _ => .ok []
  renderHist := fun _ _ _ => []
  target := fun _ _ w => .ok (.long w.x)
  setTarget := fun _ _ _ w => .ok w
  sort := fun _ _ es => es
  sortStat := fun _ _ es => es
  aggregate := some
  buckets := fun _ => 0
  bucket := fun _ _ _ => 0
  maxEntries := fun _ => 2048

/-- A number for every name. -/
def nameCode (n : Str) : Nat := Encodable.encode (n.map UInt8.toNat)

theorem nameCode_injective : Function.Injective nameCode :=
  Encodable.encode_injective.comp (map_injective_iff.2 fun _ _ h => UInt8.toNat_inj.1 h)

/-- `$x`, used twice in the body of the probe. -/
def sampleUse : Use where
  tsName := text "$x"
  baseName := text "$x"
  expr := .targetSymbol .unknown ⟨false, text "$x", [], [], [], []⟩ []

def sampleSetup : Setup World where
  sess :=
    { globals := [], locals := [], probes := []
      functions := [⟨text "tid", .long, [], [], .embeddedcode (text "THIS->__retvalue = current->pid;")⟩] }
  rt := sampleRuntime
  fuel := 0
  nesting := 0
  R := ⟨nameCode, nameCode, nameCode, 0, nameCode_injective, nameCode_injective⟩
  tid := World.thread
  uses := [sampleUse, sampleUse]
  tick := 0
  names := []
  tidFunction := ⟨⟨_, _, rfl, rfl, rfl, fun _ => rfl⟩⟩
  maxEntries_lt := fun _ => by
    show 2048 < 2 ^ 31
    decide

def sampleStart : Config := ⟨fun _ => .array (.long 0) [], fun _ => []⟩

theorem sampleStart_start : sampleSetup.Start sampleStart where
  calls := fun _ => rfl
  empty := fun _ _ => ⟨_, rfl⟩
  counters := fun _ _ => rfl

/-- Thread 7 has entered a call with `$x` being 5. -/
def sampleEntered : Config where
  globals := (exec sampleSetup.ctx sampleSetup.visitor.entryBody
    (startState sampleSetup.sess sampleStart.globals ⟨7, 5⟩)).state.globals
  calls := Function.update (fun _ => []) 7 [fun _ => .long 5]

end Systemtap.Tapset
