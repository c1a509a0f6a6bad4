import Systemtap.Opt.DeadAssign
import Systemtap.Sem.Idle

/-!
# Passes that go from body to body

The optimisers that follow take the probes one after the other, then the
functions, and rewrite each body on the spot. What they ask about a call they
ask the session as it stands at that moment, with the earlier bodies already
rewritten, so a pass is a fold over the owners of bodies (`rewriteAll`), and a
condition on it is one on the session before each step.

A single step changes one body. If the new body matches the old one, then every
handler does, because all other bodies match themselves.
-/

namespace Systemtap.Opt

open Systemtap.Tree Sem Lib List

/-! ## Code that is left as it is -/

section Keep

variable {W : Type} {D : Nat → Bool} {R : FnId → Prop}

mutual

/-- A remover for which nothing is dead. -/
theorem removeE_none : ∀ e : Expr, removeE (fun _ => false) e = e
  | .literalString _ _ | .literalNumber _ _ | .symbol _ => rfl
  | .binary _ _ l r | .logicalOr _ l r | .logicalAnd _ l r | .comparison _ _ l r
  | .concatenation _ l r => by rw [removeE, removeE_none l, removeE_none r]
  | .unary _ _ e | .crement _ _ _ e | .arrayIn _ e | .definedOp _ e | .printHist _ _ _ e
  | .statOp _ _ e => by rw [removeE, removeE_none e]
  | .ternary _ e l r => by rw [removeE, removeE_none e, removeE_none l, removeE_none r]
  | .assignment _ _ l r => by
    rw [removeE, if_neg nofun, removeE_none l, removeE_none r]
  | .targetSymbol _ _ es | .arrayindex _ _ es | .functioncall _ _ es | .printFormat _ _ es => by
    rw [removeE, removeList_none es]
  | .castOp _ _ e es | .histindex _ _ e es => by rw [removeE, removeE_none e, removeList_none es]

theorem removeList_none : ∀ es : List Expr, removeList (fun _ => false) es = es
  | [] => rfl
  | e :: es => by rw [removeList, removeE_none e, removeList_none es]

end

theorem deadOk_none : DeadOk (fun _ => false) where
  arrayindex := fun _ _ _ => rfl
  targetSymbol := fun _ _ _ => rfl
  castOp := fun _ _ _ _ => rfl

variable {c : Ctx W} {k : Calls W}

theorem eval_keep (hk : CallsMatch D R c k) (e : Expr) (hu : ∀ u ∈ e.uses .none, UseOk D R u)
    (ht : ∀ x ∈ e.gather touchAt, TouchOk D (fun _ => false) x) : Matches D c k eval e e := by
  simpa only [removeE_none] using removeE_sim deadOk_none hk e hu ht

theorem place_keep (hk : CallsMatch D R c k) (e : Expr) {m : Mark}
    (hu : ∀ u ∈ e.uses m, UseOk D R u) (ht : ∀ x ∈ e.gather touchAt, TouchOk D (fun _ => false) x) :
    Matches D c k place e e := by
  simpa only [removeE_none] using removePlace_sim deadOk_none hk e hu ht

theorem evalLimit_keep (hk : CallsMatch D R c k) (l : Option Expr)
    (hu : ∀ u ∈ usesMaybe l, UseOk D R u)
    (ht : ∀ x ∈ gatherLimit touchAt l, TouchOk D (fun _ => false) x) :
    Matches D c k evalLimit l l := by
  have hid : l.map (removeE fun _ => false) = l := by cases l <;> simp [removeE_none]
  simpa only [hid] using removeLimit_sim deadOk_none hk l hu ht

theorem evalVoid_keep (hk : CallsMatch D R c k) (i : Option Expr)
    (hu : ∀ u ∈ usesMaybe i, UseOk D R u)
    (ht : ∀ x ∈ gatherTop touchTop i, TouchOk D (fun _ => false) x) :
    Matches D c k evalVoid i i := by
  have hid : i.map (removeE fun _ => false) = i := by cases i <;> simp [removeE_none]
  simpa only [hid] using removeVoid_sim deadOk_none hk i hu ht

end Keep

/-! ## A body matches itself

With no local set apart there is nothing to ask of the code. -/

section Same

variable {W : Type}

/-- Calls match with no local set apart. -/
def CallsSame (c : Ctx W) (k : FnId → List (Nat × Nat) → List Value → M W Value) : Prop :=
  ∀ f iter args, Sim (offView noLocal) (c.call f iter args) (k f iter args)

theorem avoids_noLocal (v : Var) : Avoids noLocal v := by
  cases v <;> trivial

theorem useOk_noLocal (u : Use) : UseOk noLocal (fun _ => True) u := by
  cases u <;> first | trivial | exact avoids_noLocal _

theorem touchOk_noLocal (x : Touch) : TouchOk noLocal (fun _ => false) x := by
  cases x <;> first | trivial | exact avoids_noLocal _ | exact nofun

theorem Off.trans_same {s t u : State W} (h : Off noLocal s t) (h' : Off noLocal t u) :
    Off noLocal s u :=
  ⟨h.globals.trans h'.globals, h.world.trans h'.world,
    fun k hk => (h.frame k hk).trans (h'.frame k hk), h.ret.trans h'.ret, h.left, h'.right⟩

/-- A run that is matched by an idle one is idle. -/
theorem idle_of_sim {α : Type} {Q : Flow α → Prop} {m m' : M W α} (h : Sim (offView noLocal) m m')
    (hi : Idle (offView noLocal) Q m') : Idle (offView noLocal) Q m := by
  intro s t hr ok
  have hm := h s t hr ok
  have hrefl : Off noLocal t t := ⟨rfl, rfl, fun _ _ => rfl, rfl, hr.right, hr.right⟩
  obtain ⟨hq, hst, hev⟩ := hi t t hrefl ⟨by rw [hm.flow]; exact ok.1, hm.fatal⟩
  exact ⟨hm.flow ▸ hq, Off.trans_same hm.state hst, hm.events ▸ hev⟩

variable {c : Ctx W} {k : Calls W}

theorem eval_same (hk : CallsSame c k) (e : Expr) : Matches noLocal c k eval e e :=
  eval_keep (fun f _ => hk f) e (fun u _ => useOk_noLocal u) fun x _ => touchOk_noLocal x

theorem place_same (hk : CallsSame c k) (e : Expr) : Matches noLocal c k place e e :=
  place_keep (fun f _ => hk f) e (m := .none) (fun u _ => useOk_noLocal u)
    fun x _ => touchOk_noLocal x

theorem evalLimit_same (hk : CallsSame c k) (l : Option Expr) : Matches noLocal c k evalLimit l l :=
  evalLimit_keep (fun f _ => hk f) l (fun u _ => useOk_noLocal u) fun x _ => touchOk_noLocal x

theorem evalVoid_same (hk : CallsSame c k) (i : Option Expr) : Matches noLocal c k evalVoid i i :=
  evalVoid_keep (fun f _ => hk f) i (fun u _ => useOk_noLocal u) fun x _ => touchOk_noLocal x

theorem placeAvoids_noLocal (e : Expr) : PlaceAvoids noLocal e := by
  cases e <;> first | trivial | exact avoids_noLocal _

mutual

theorem exec_same :
    ∀ (s : Stmt) {c : Ctx W} {k : Calls W},
      CallsSame c k → Matches noLocal c k exec s s
  | .block ss, _, _, hk => execBlock_same ss hk
  | .tryBlock b _ h, _, _, hk => tryBlock_sim (.inl rfl) (execOpt_same b hk) (execOpt_same h hk)
  | .embeddedcode _, _, _, _ => embeddedcode_sim fun _ _ => rfl
  | .null, _, _, _ => Sim.pure _
  | .expr e, _, _, hk => evalVoid_same hk (some e)
  | .ifStmt e t o, _, _, hk => ifStmt_sim (eval_same hk e) (exec_same t hk) (execOpt_same o hk)
  | .forLoop i e o b, _, _, hk =>
    forLoop_sim (evalVoid_same hk i) (eval_same hk e) (evalVoid_same hk o) (exec_same b hk)
  | .foreachLoop _ _ _ l b, _, _, hk =>
    foreachLoop_sim (evalLimit_same hk l) fun _ _ => exec_same b hk
  | .foreachHist _ _ e l b, _, _, hk =>
    foreachHist_sim (place_same hk e) (evalLimit_same hk l) (fun _ _ => avoids_noLocal _)
      (exec_same b hk)
  | .returnStmt e, _, _, hk => returnStmt_sim (eval_same hk e)
  | .deleteStmt e, _, _, hk => deleteStmt_sim (place_same hk e) (placeAvoids_noLocal e)
  | .next, _, _, _ => Sim.out
  | .breakStmt, _, _, _ => Sim.pure _
  | .continueStmt, _, _, _ => Sim.pure _

theorem execOpt_same :
    ∀ (o : Option Stmt) {c : Ctx W} {k : Calls W},
      CallsSame c k → Matches noLocal c k execOpt o o
  | none, _, _, _ => Sim.pure _
  | some s, _, _, hk => exec_same s hk

theorem execBlock_same :
    ∀ (ss : List Stmt) {c : Ctx W} {k : Calls W},
      CallsSame c k → Matches noLocal c k execBlock ss ss
  | [], _, _, _ => Sim.pure _
  | s :: ss, _, _, hk => execBlock_cons_sim (exec_same s hk) (execBlock_same ss hk)

end

end Same

/-! ## One body after the other -/

/-- What a body belongs to. -/
inductive Owner where
  | probe (i : Nat)
  | function (f : FnId)
deriving DecidableEq, Repr

def bodyOf (sess : Session) : Owner → Option Stmt
  | .probe i => sess.probes[i]?.map Probe.body
  | .function f => sess.functions[f]?.map Functiondecl.body

/-- The formals that embedded code of this body can see. -/
def formalsOf (sess : Session) : Owner → List Nat
  | .probe _ => []
  | .function f => (sess.functions[f]?.map Functiondecl.formalArgs).getD []

def setBody (sess : Session) (b : Stmt) : Owner → Session
  | .probe i => { sess with probes := sess.probes.modify i fun p => { p with body := b } }
  | .function f => { sess with functions := sess.functions.modify f fun fd => { fd with body := b } }

/-- Probes first, then functions. -/
def owners (sess : Session) : List Owner :=
  (List.range sess.probes.length).map .probe ++ (List.range sess.functions.length).map .function

/-- One step of a pass: rewrite the body of `o`. -/
def rewriteAt (f : Session → Owner → Stmt → Stmt) (sess : Session) (o : Owner) : Session :=
  match bodyOf sess o with
  | some b => setBody sess (f sess o b) o
  | none => sess

/-- The session before the `i`-th body is rewritten. -/
def beforeStep (f : Session → Owner → Stmt → Stmt) (sess : Session) (i : Nat) : Session :=
  ((owners sess).take i).foldl (rewriteAt f) sess

def rewriteAll (f : Session → Owner → Stmt → Stmt) (sess : Session) : Session :=
  (owners sess).foldl (rewriteAt f) sess

/-- A relation between sessions that every step keeps holds for the whole pass. -/
theorem rewriteAll_rel {r : Session → Session → Prop} (refl : ∀ s, r s s)
    (trans : ∀ s t u, r s t → r t u → r s u) {f : Session → Owner → Stmt → Stmt}
    {sess : Session} (step : ∀ i o, (owners sess)[i]? = some o →
      r sess (beforeStep f sess i) →
      r (beforeStep f sess i) (rewriteAt f (beforeStep f sess i) o)) :
    r sess (rewriteAll f sess) := by
  have hrun : ∀ n, r sess (beforeStep f sess n) := by
    intro n
    induction n with
    | zero => exact refl _
    | succ n ih =>
      cases ho : (owners sess)[n]? with
      | none =>
        have hlen : (owners sess).length ≤ n := List.getElem?_eq_none_iff.mp ho
        have heq : beforeStep f sess (n + 1) = beforeStep f sess n := by
          unfold beforeStep
          rw [take_of_length_le hlen, take_of_length_le (by omega)]
        rw [heq]
        exact ih
      | some o =>
        have heq : beforeStep f sess (n + 1) = rewriteAt f (beforeStep f sess n) o := by
          unfold beforeStep
          rw [take_add_one, ho, foldl_append]
          rfl
        rw [heq]
        exact trans _ _ _ ih (step n o ho ih)
  have h := hrun (owners sess).length
  unfold beforeStep at h
  rwa [take_length] at h

section BodyOf

variable {sess : Session}

theorem bodyOf_setBody_self {o : Owner} {b b' : Stmt} (hb : bodyOf sess o = some b) :
    bodyOf (setBody sess b' o) o = some b' := by
  cases o with
  | probe i =>
    cases hp : sess.probes[i]? with
    | none => simp [bodyOf, hp] at hb
    | some p => simp [bodyOf, setBody, hp]
  | function f =>
    cases hf : sess.functions[f]? with
    | none => simp [bodyOf, hf] at hb
    | some fd => simp [bodyOf, setBody, hf]

theorem bodyOf_setBody_ne {o o' : Owner} (b' : Stmt) (h : o' ≠ o) :
    bodyOf (setBody sess b' o) o' = bodyOf sess o' := by
  cases o with
  | probe i =>
    cases o' with
    | probe j =>
      have hij : i ≠ j := fun hij => h (by rw [hij])
      simp [bodyOf, setBody, hij]
    | function f => rfl
  | function g =>
    cases o' with
    | probe j => rfl
    | function f =>
      have hgf : g ≠ f := fun hgf => h (by rw [hgf])
      simp [bodyOf, setBody, hgf]

/-- No body has two owners. -/
theorem owners_nodup (sess : Session) : (owners sess).Nodup := by
  refine List.Nodup.append (nodup_range.map fun _ _ h => Owner.probe.inj h)
    (nodup_range.map fun _ _ h => Owner.function.inj h) fun o h h' => ?_
  obtain ⟨i, -, rfl⟩ := mem_map.mp h
  obtain ⟨f, -, hf⟩ := mem_map.mp h'
  exact nomatch hf

variable {f : Session → Owner → Stmt → Stmt}

/-- Until its turn comes, a body stays as it was. -/
theorem bodyOf_foldl {o : Owner} :
    ∀ (os : List Owner) (sess : Session), o ∉ os →
      bodyOf (os.foldl (rewriteAt f) sess) o = bodyOf sess o
  | [], _, _ => rfl
  | p :: os, sess, h => by
    rw [foldl_cons, bodyOf_foldl os _ fun hm => h (mem_cons_of_mem _ hm)]
    unfold rewriteAt
    split
    · exact bodyOf_setBody_ne _ fun he => h (he ▸ mem_cons_self)
    · rfl

theorem bodyOf_beforeStep {i : Nat} {o : Owner}
    (ho : (owners sess)[i]? = some o) : bodyOf (beforeStep f sess i) o = bodyOf sess o := by
  refine bodyOf_foldl _ sess fun hm => ?_
  obtain ⟨j, hj, hjo⟩ := mem_take_iff_getElem.mp hm
  obtain ⟨hi, hio⟩ := List.getElem?_eq_some_iff.mp ho
  have heq := (List.Nodup.getElem_inj_iff (owners_nodup sess)).mp (hjo.trans hio.symm)
  omega

end BodyOf

/-- A fold that may fail: it succeeds when every step is allowed where it is
taken. -/
theorem foldlM_eq_some_iff {σ ω : Type} {g : σ → ω → Option σ} {h : σ → ω → σ} {ok : σ → ω → Bool}
    (hg : ∀ s o, g s o = if ok s o then some (h s o) else none) :
    ∀ (os : List ω) (s s' : σ), os.foldlM g s = some s' ↔
      s' = os.foldl h s ∧ ∀ i o, os[i]? = some o → ok ((os.take i).foldl h s) o = true
  | [], s, s' => by
    constructor
    · rintro ⟨⟩
      exact ⟨rfl, nofun⟩
    · rintro ⟨rfl, -⟩
      rfl
  | o :: os, s, s' => by
    rw [foldlM_cons, hg]
    by_cases hok : ok s o = true
    · rw [if_pos hok]
      refine (foldlM_eq_some_iff hg os (h s o) s').trans (and_congr_right fun _ => ?_)
      constructor
      · rintro hall (_ | i) p hp
        · obtain rfl := Option.some.inj hp
          exact hok
        · exact hall i p hp
      · exact fun hall i p hp => hall (i + 1) p hp
    · rw [if_neg hok]
      refine iff_of_false nofun fun hall => hok ?_
      exact hall.2 0 o rfl

/-! ## One rewritten body -/

section Step

variable {W : Type} {D : Nat → Bool}

/-- Where no local is set apart, any set of locals may be. -/
theorem Matches.weaken {o o' : Outcome Event (State W) Ctl} (h : (offView noLocal).Matches o o') :
    (offView D).Matches o o' where
  flow := h.flow
  state := ⟨h.state.globals, h.state.world, fun k _ => h.state.frame k rfl, h.state.ret,
    h.state.left, h.state.right⟩
  events := by
    have hsub : ∀ es : List Event, es.filter (offView (W := W) D).shown
        = (es.filter (offView (W := W) noLocal).shown).filter (offView (W := W) D).shown := by
      intro es
      rw [filter_filter]
      refine filter_congr fun e _ => ?_
      cases e with
      | set v x => cases v <;> simp [offView, Event.shownOff, noLocal]
      | mutate a m u => cases m <;> simp [offView, Event.shownOff]
      | _ => rfl
    rw [hsub, hsub o.events, h.events]
  fatal := h.fatal

theorem bodySim_same (sess : Session) (rt : Runtime W) (formals : List Nat) (b : Stmt) :
    BodySim sess noLocal (fun _ => True) rt formals b b :=
  fun _ _ _ _ _ hk => exec_same b fun f => hk f trivial

/-- The locals that are set apart in each function, when `o` is rewritten. -/
def apartIn (D : Nat → Bool) (o : Owner) (f : FnId) : Nat → Bool :=
  if o = .function f then D else noLocal

/-- **Rewriting one body keeps every handler**, if the new body matches the old. -/
theorem setBody_matches {sess : Session} {o : Owner} {b b' : Stmt} {rt : Runtime W}
    (hb : bodyOf sess o = some b) (hsim : BodySim sess D (fun _ => True) rt (formalsOf sess o) b b')
    {i : Nat} {p p' : Probe} (hp : sess.probes[i]? = some p)
    (hp' : (setBody sess b' o).probes[i]? = some p') {fuel nesting : Nat} {globals : Nat → Global}
    {world : W} (hc : Clean (handle sess rt fuel nesting p globals world)) :
    (offView D).Matches (handle sess rt fuel nesting p globals world)
      (handle (setBody sess b' o) rt fuel nesting p' globals world) := by
  have hfns : FunctionsSim (apartIn D o) (fun _ => True) rt sess (setBody sess b' o) := by
    refine ⟨fun k => by cases o <;> rfl, fun f _ fd hfd => ?_⟩
    cases o with
    | probe j =>
      exact ⟨fd, hfd, rfl, rfl, bodySim_same sess rt _ _⟩
    | function g =>
      by_cases hg : g = f
      · subst hg
        refine ⟨{ fd with body := b' }, by simp [setBody, hfd], rfl, rfl, ?_⟩
        have hbody : fd.body = b := by simpa [bodyOf, hfd] using hb
        simpa [apartIn, formalsOf, hfd, hbody] using hsim
      · refine ⟨fd, by simp [setBody, hfd, hg], rfl, rfl, ?_⟩
        have hne : ¬ Owner.function g = Owner.function f := fun h => hg (Owner.function.inj h)
        simpa [apartIn, hne] using bodySim_same sess rt _ fd.body
  have hother := bodySim_same sess rt [] p.body
  cases o with
  | function g =>
    obtain rfl : p = p' := Option.some.inj (hp.symm.trans hp')
    exact Matches.weaken (handle_matches hfns hother fuel nesting globals world hc)
  | probe j =>
    by_cases hj : j = i
    · subst hj
      obtain rfl : { p with body := b' } = p' := by simpa [setBody, hp] using hp'
      have hbody : p.body = b := by simpa [bodyOf, hp] using hb
      have hnew : BodySim sess D (fun _ => True) rt [] p.body { p with body := b' }.body := by
        rw [hbody]
        exact hsim
      exact handle_matches hfns hnew fuel nesting globals world hc
    · obtain rfl : p = p' := by simpa [setBody, hp, hj] using hp'
      exact Matches.weaken (handle_matches hfns hother fuel nesting globals world hc)

/-- The handlers before and after a step stand in any relation that a match of
their runs implies. -/
theorem setBody_keeps {Good : ∀ W : Type, Runtime W → Prop}
    {Same : ∀ W : Type, Outcome Event (State W) Ctl → Outcome Event (State W) Ctl → Prop}
    {sess : Session} {o : Owner} {b b' : Stmt} (hb : bodyOf sess o = some b)
    (hsim : ∀ (W : Type) (rt : Runtime W), Good W rt →
      BodySim sess D (fun _ => True) rt (formalsOf sess o) b b')
    (hsame : ∀ W o o', Clean o → (offView (W := W) D).Matches o o' → Same W o o') :
    Keeps Same Good sess (setBody sess b' o) := by
  intro i p hp
  have hlen : (setBody sess b' o).probes.length = sess.probes.length := by
    cases o <;> simp [setBody]
  have hi : i < (setBody sess b' o).probes.length := by
    rw [hlen]
    exact (List.getElem?_eq_some_iff.mp hp).1
  have hp' := List.getElem?_eq_getElem hi
  exact ⟨_, hp', fun W rt hrt fuel nesting globals world hc =>
    hsame W _ _ hc (setBody_matches hb (hsim W rt hrt) hp hp' hc)⟩

end Step

end Systemtap.Opt
