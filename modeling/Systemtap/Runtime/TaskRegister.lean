import Systemtap.Lib.Steps

/-!
# Which processes a target is registered with

The task finder tells a target when a process begins to run the target's executable (its callbacks
are called to register) and when it stops to do so (they are called to unregister). It has an engine
in each process that reports `clone` and `exec`, and a further engine for each target that is
registered with the process, which reports its death.

After an `exec` the old path of the process is no longer known. The handler takes the current path of
the process's parent for it (`parentPath`). That is right for a shell that clones and execs; it is
wrong when a process execs twice, or when its parent has execed or died in the meantime. Then a
target is told to unregister that never registered, or is not told at all. `exec` is the only
event with this weakness, and the registrations follow the executables over a whole history exactly
if at each `exec` the parent's path and the old path agree as far as the targets go
(`registrations_follow_iff`). Init has no engine, and so have the processes that it clones.
-/

namespace Systemtap.Runtime

open Lib Function List

/-! ## The code -/

/-- What the task finder sees of a process. -/
structure TaskProc (ι π : Type) where
  realParent : ι
  path : π
  /-- It has an engine that reports `clone` and `exec`. -/
  watched : Bool
  /-- How many engines it has for each target. -/
  engines : π → Nat

inductive TaskStatus (ι π : Type) where
  | unborn
  | live (q : TaskProc ι π)
  | dead

/-- `__stp_call_callbacks`: all callbacks of the target are called, with the same arguments. -/
structure CallbackCall (ι π : Type) where
  tgt : π
  tsk : ι
  register : Bool
deriving DecidableEq

structure Tasks (ι π : Type) where
  status : ι → TaskStatus ι π
  calls : List (CallbackCall ι π)

/-- The processes have pids, and one of them is init. The targets are those on
`__stp_task_finder_list`, which has each procname once. -/
structure TaskWorld (ι π : Type) where
  pid : ι → Int
  init : ι
  pid_init : pid init = 1
  targets : List π
  nodup : targets.Nodup

inductive TaskEvent (ι π : Type) where
  | clone (parent child : ι) (cloneParent : Bool)
  | exec (tsk : ι) (path : π)
  | exit (tsk : ι)

namespace Tasks

variable {ι π : Type} [DecidableEq ι] [DecidableEq π] (W : TaskWorld ι π)

def set (s : Tasks ι π) (tsk : ι) (st : TaskStatus ι π) : Tasks ι π :=
  { s with status := Function.update s.status tsk st }

/-- A process is changed, if it lives. -/
def modify (s : Tasks ι π) (tsk : ι) (f : TaskProc ι π → TaskProc ι π) : Tasks ι π :=
  match s.status tsk with
  | .live q => s.set tsk (.live (f q))
  | .unborn | .dead => s

def call (s : Tasks ι π) (tgt : π) (tsk : ι) (register : Bool) : Tasks ι π :=
  { s with calls := s.calls ++ [⟨tgt, tsk, register⟩] }

/-- `__stp_utrace_attach` of an engine for the target, which makes a new one each time, and
`__stp_utrace_task_finder_target_quiesce` right after it. -/
def attach (s : Tasks ι π) (tgt : π) (tsk : ι) : Tasks ι π :=
  if W.pid tsk ≤ 1 then s
  else
    (s.modify tsk fun q => { q with engines := Function.update q.engines tgt (q.engines tgt + 1) }).call
      tgt tsk true

/-- `stap_utrace_detach`; it is no error if there is no engine. -/
def detach (s : Tasks ι π) (tgt : π) (tsk : ι) : Tasks ι π :=
  if W.pid tsk ≤ 1 then s
  else s.modify tsk fun q => { q with engines := Function.update q.engines tgt (q.engines tgt - 1) }

/-- `__stp_utrace_attach_match_filename` -/
def attachMatchFilename (s : Tasks ι π) (tsk : ι) (filename : π) (register : Bool) : Tasks ι π :=
  W.targets.foldl (fun s tgt =>
    if tgt = filename then
      if register then s.attach W tgt tsk else (s.call tgt tsk false).detach W tgt tsk
    else s) s

/-- The path of a task with an `mm`. -/
def path? (s : Tasks ι π) (tsk : ι) : Option π :=
  match s.status tsk with
  | .live q => some q.path
  | .unborn | .dead => none

/-- `__stp_utrace_attach_match_tsk` -/
def attachMatchTsk (s : Tasks ι π) (pathTsk matchTsk : ι) (register : Bool) : Tasks ι π :=
  if W.pid pathTsk ≤ 1 ∨ W.pid matchTsk ≤ 1 then s
  else
    match s.path? pathTsk with
    | none => s
    | some mmpath => s.attachMatchFilename W matchTsk mmpath register

/-- `__stp_utrace_task_finder_report_clone` -/
def reportClone (s : Tasks ι π) (parent child : ι) : Tasks ι π :=
  let s := if W.pid child ≤ 1 then s else s.modify child fun q => { q with watched := true }
  s.attachMatchTsk W parent child true

/-- `__stp_utrace_task_finder_report_exec` -/
def reportExec (s : Tasks ι π) (tsk : ι) : Tasks ι π :=
  let s :=
    match s.status tsk with
    | .live q => if W.pid q.realParent > 1 then s.attachMatchTsk W q.realParent tsk false else s
    | .unborn | .dead => s
  s.attachMatchTsk W tsk tsk true

/-- `__stp_utrace_task_finder_target_death`, for each engine -/
def targetDeath (s : Tasks ι π) (tsk : ι) (q : TaskProc ι π) : Tasks ι π :=
  { s with calls := s.calls ++
      W.targets.flatMap fun tgt => List.replicate (q.engines tgt) ⟨tgt, tsk, false⟩ }

/-- The children of a process that exits become children of init. -/
def reparent (s : Tasks ι π) (tsk : ι) : Tasks ι π :=
  { s with status := fun p =>
      match s.status p with
      | .live q => .live { q with realParent := if q.realParent = tsk then W.init else q.realParent }
      | st => st }

/-- An event that cannot be has no effect. -/
def step (s : Tasks ι π) : TaskEvent ι π → Tasks ι π
  | .clone parent child cloneParent =>
    match s.status parent, s.status child with
    | .live q, .unborn =>
      if W.pid child ≤ 1 then s
      else
        let realParent := if cloneParent then q.realParent else parent
        let s := s.set child (.live ⟨realParent, q.path, false, fun _ => 0⟩)
        if q.watched then s.reportClone W parent child else s
    | _, _ => s
  | .exec tsk path =>
    match s.status tsk with
    | .live q =>
      let s := s.set tsk (.live { q with path := path })
      if q.watched then s.reportExec W tsk else s
    | .unborn | .dead => s
  | .exit tsk =>
    match s.status tsk with
    | .live q =>
      if W.pid tsk ≤ 1 then s
      else ((s.targetDeath W tsk q).set tsk .dead).reparent W tsk
    | .unborn | .dead => s

/-- `stap_start_task_finder`, for a process that it finds -/
def startTask (s : Tasks ι π) (tsk realParent : ι) (path : π) : Tasks ι π :=
  let s := s.set tsk (.live ⟨realParent, path, false, fun _ => 0⟩)
  if W.pid tsk ≤ 1 then s
  else
    (s.modify tsk fun q => { q with watched := true }).attachMatchFilename W tsk path true

end Tasks

/-- The processes that there are when the task finder is started, with parent and path. -/
structure FirstTasks (ι π : Type) where
  tasks : List (ι × ι × π)
  nodup : (tasks.map Prod.fst).Nodup

namespace Tasks

variable {ι π : Type} [DecidableEq ι] [DecidableEq π] (W : TaskWorld ι π)

/-- `stap_start_task_finder` -/
def started (first : FirstTasks ι π) : Tasks ι π :=
  first.tasks.foldl (fun s t => s.startTask W t.1 t.2.1 t.2.2) ⟨fun _ => .unborn, []⟩

/-! ## What should hold -/

/-- What the callbacks of a target were called with for a process. -/
def told (s : Tasks ι π) (tgt : π) (tsk : ι) : List Bool :=
  (s.calls.filter fun c => c.tgt = tgt ∧ c.tsk = tsk).map CallbackCall.register

end Tasks

/-- `b` and its opposite in turn. -/
def AlternatesFrom (b : Bool) : List Bool → Prop
  | [] => True
  | c :: l => c = b ∧ AlternatesFrom (!b) l

/-- The last call was to register. -/
def registered (l : List Bool) : Bool := l.getLast?.getD false

namespace Tasks

variable {ι π : Type} [DecidableEq ι] [DecidableEq π] (W : TaskWorld ι π)

/-- The callbacks were called to register and to unregister in turn, and a live process is registered
with the target of its executable. -/
def FollowsAt (s : Tasks ι π) (tsk : ι) : Prop :=
  ∀ tgt ∈ W.targets, AlternatesFrom true (s.told tgt tsk) ∧
    ∀ q, s.status tsk = .live q → (registered (s.told tgt tsk) = true ↔ q.path = tgt)

def Follows (s : Tasks ι π) : Prop := ∀ tsk, s.FollowsAt W tsk

/-- So it is now and after each event. -/
def AllFollow : Tasks ι π → List (TaskEvent ι π) → Prop
  | s, [] => s.Follows W
  | s, e :: es => s.Follows W ∧ AllFollow (s.step W e) es

/-! ## When it does -/

/-- The path that is taken for the old path. -/
def parentPath (s : Tasks ι π) (q : TaskProc ι π) : Option π :=
  if W.pid q.realParent ≤ 1 then none else s.path? q.realParent

/-- The event is one that the task finder can follow. -/
def Fits (s : Tasks ι π) : TaskEvent ι π → Prop
  | .exec tsk path => ∀ q, s.status tsk = .live q → ∀ tgt ∈ W.targets,
    if q.watched then
      (s.set tsk (.live { q with path := path })).parentPath W q = some tgt ↔ q.path = tgt
    else path ≠ tgt
  | .clone _ _ _ | .exit _ => True

def AllFit : Tasks ι π → List (TaskEvent ι π) → Prop
  | _, [] => True
  | s, e :: es => s.Fits W e ∧ AllFit (s.step W e) es

end Tasks

/-! ## Calls in turn -/

/-- What has to come next. -/
def nextTurn (b : Bool) (l : List Bool) : Bool := l.foldl (fun b _ => !b) b

theorem alternatesFrom_snoc (l : List Bool) (c : Bool) :
    ∀ b, AlternatesFrom b (l ++ [c]) ↔ AlternatesFrom b l ∧ c = nextTurn b l := by
  induction l with
  | nil => simp [AlternatesFrom, nextTurn]
  | cons a l ih =>
    intro b
    show a = b ∧ AlternatesFrom (!b) (l ++ [c]) ↔ (a = b ∧ AlternatesFrom (!b) l) ∧ _
    rw [ih, and_assoc]
    rfl

theorem nextTurn_eq (l : List Bool) :
    ∀ b, AlternatesFrom b l → nextTurn b l = !(l.getLast?.getD (!b)) := by
  induction l with
  | nil => simp [nextTurn]
  | cons a l ih =>
    intro b ⟨hab, hl⟩
    have hnext : nextTurn b (a :: l) = nextTurn (!b) l := rfl
    rw [hnext, ih (!b) hl, getLast?_cons, hab]
    simp

/-- A call is in turn if it changes the registration. -/
theorem alternates_snoc {l : List Bool} {c : Bool} :
    AlternatesFrom true (l ++ [c]) ↔ AlternatesFrom true l ∧ c = !registered l := by
  rw [alternatesFrom_snoc]
  refine and_congr_right fun hl => ?_
  rw [nextTurn_eq l true hl]
  rfl

theorem registered_snoc (l : List Bool) (c : Bool) : registered (l ++ [c]) = c := by
  simp [registered]

/-- To unregister if `u` and then to register if `v` is right exactly if `u` is how it was. -/
theorem alternates_exec {l : List Bool} (hl : AlternatesFrom true l) (u v : Prop) [Decidable u]
    [Decidable v] :
    (AlternatesFrom true (l ++ (if u then [false] else []) ++ if v then [true] else []) ∧
      (registered (l ++ (if u then [false] else []) ++ if v then [true] else []) = true ↔ v)) ↔
        (u ↔ registered l = true) := by
  by_cases hu : u
  · by_cases hv : v
    · rw [if_pos hu, if_pos hv, alternates_snoc, alternates_snoc, registered_snoc, registered_snoc]
      simp [hu, hv, hl]
    · simp [hu, hv, alternates_snoc, registered_snoc, hl]
  · by_cases hv : v
    · simp [hu, hv, alternates_snoc, registered_snoc, hl]
    · simp [hu, hv, hl]

/-! ## What the handlers do -/

/-- The targets have different names, so one matches at most. -/
theorem foldl_match {σ π : Type} [DecidableEq π] {names : List π} (hnames : names.Nodup)
    (f : σ → π → σ) (filename : π) :
    ∀ s, names.foldl (fun s tgt => if tgt = filename then f s tgt else s) s =
      if filename ∈ names then f s filename else s := by
  induction names with
  | nil => simp
  | cons a names ih =>
    obtain ⟨ha, hnames⟩ := nodup_cons.mp hnames
    intro s
    rw [foldl_cons, ih hnames]
    by_cases h : a = filename
    · subst h
      simp [ha]
    · simp [h, Ne.symm h]

namespace Tasks

variable {ι π : Type} [DecidableEq ι] [DecidableEq π] {W : TaskWorld ι π} {s s' : Tasks ι π}
  {q : TaskProc ι π} {tsk p : ι} {tgt t : π}

theorem told_append (cs : List (CallbackCall ι π)) :
    told ⟨s.status, s.calls ++ cs⟩ tgt p =
      s.told tgt p ++ told ⟨s.status, cs⟩ tgt p := by
  simp [told]

theorem told_call (register : Bool) :
    (s.call t tsk register).told tgt p =
      s.told tgt p ++ if t = tgt ∧ tsk = p then [register] else [] := by
  unfold call
  by_cases h : t = tgt ∧ tsk = p
  · simp [told, h]
  · simp [told, h]

theorem attachMatchFilename_eq (filename : π) (register : Bool) :
    s.attachMatchFilename W tsk filename register =
      if filename ∈ W.targets then
        if register then s.attach W filename tsk else (s.call filename tsk false).detach W filename tsk
      else s :=
  foldl_match W.nodup (fun (s : Tasks ι π) tgt =>
    if register then s.attach W tgt tsk else (s.call tgt tsk false).detach W tgt tsk) filename s

/-- The state after a handler: one process and what was told about it. -/
structure Becomes (W : TaskWorld ι π) (s : Tasks ι π) (tsk : ι) (q : TaskProc ι π)
    (news : π → List Bool) (s' : Tasks ι π) : Prop where
  status : s'.status = Function.update s.status tsk (.live q)
  told : ∀ tgt ∈ W.targets, s'.told tgt tsk = s.told tgt tsk ++ news tgt
  other : ∀ tgt p, p ≠ tsk → s'.told tgt p = s.told tgt p

theorem Becomes.trans {s1 s2 : Tasks ι π} {q1 q2 : TaskProc ι π} {news1 news2 : π → List Bool}
    (h1 : Becomes W s tsk q1 news1 s1) (h2 : Becomes W s1 tsk q2 news2 s2) :
    Becomes W s tsk q2 (fun tgt => news1 tgt ++ news2 tgt) s2 where
  status := by rw [h2.status, h1.status, update_idem]
  told tgt ht := by rw [h2.told tgt ht, h1.told tgt ht, append_assoc]
  other tgt p hp := by rw [h2.other tgt p hp, h1.other tgt p hp]

theorem becomes_set (q : TaskProc ι π) : Becomes W s tsk q (fun _ => []) (s.set tsk (.live q)) where
  status := rfl
  told _ _ := (append_nil _).symm
  other _ _ _ := rfl

omit [DecidableEq π] in
theorem modify_of_live (hq : s.status tsk = .live q) (f : TaskProc ι π → TaskProc ι π) :
    s.modify tsk f = s.set tsk (.live (f q)) := by
  unfold modify
  rw [hq]

theorem becomes_call (hq : s.status tsk = .live q) (t : π) (register : Bool) :
    Becomes W s tsk q (fun tgt => if t = tgt then [register] else []) (s.call t tsk register) where
  status := by
    rw [← hq, update_eq_self]
    rfl
  told tgt _ := by
    rw [told_call]
    simp
  other tgt p hp := by
    rw [told_call]
    simp [Ne.symm hp]

theorem becomes_same (hq : s.status tsk = .live q) : Becomes W s tsk q (fun _ => []) s where
  status := by rw [← hq, update_eq_self]
  told _ _ := (append_nil _).symm
  other _ _ _ := rfl

/-- The target whose name is the path is told, and gets one engine or loses one. -/
theorem becomes_match (hq : s.status tsk = .live q) (hpid : ¬ W.pid tsk ≤ 1) (path : π)
    (register : Bool) :
    ∃ engines, Becomes W s tsk { q with engines := engines }
        (fun tgt => if path = tgt then [register] else [])
        (s.attachMatchFilename W tsk path register) ∧
      ∀ tgt ∈ W.targets, engines tgt = if path = tgt then
        if register then q.engines tgt + 1 else q.engines tgt - 1 else q.engines tgt := by
  rw [attachMatchFilename_eq]
  by_cases hmem : path ∈ W.targets
  · rw [if_pos hmem]
    refine ⟨update q.engines path (if register then q.engines path + 1 else q.engines path - 1), ?_,
      fun tgt _ => ?_⟩
    · cases register with
      | true =>
        rw [if_pos rfl, if_pos rfl, attach, if_neg hpid, modify_of_live hq]
        exact (becomes_set _).trans (becomes_call (update_self _ _ _) path true)
      | false =>
        have hq' : (s.call path tsk false).status tsk = .live q := hq
        rw [if_neg Bool.false_ne_true, if_neg Bool.false_ne_true, detach, if_neg hpid,
          modify_of_live hq']
        simpa using (becomes_call (W := W) hq path false).trans (becomes_set _)
    · by_cases h : path = tgt
      · subst h
        simp
      · simp [h, Ne.symm h]
  · rw [if_neg hmem]
    have hne : ∀ tgt ∈ W.targets, path ≠ tgt := fun tgt ht h => hmem (h ▸ ht)
    refine ⟨q.engines, ⟨(becomes_same (W := W) hq).status, fun tgt ht => ?_, fun _ _ _ => rfl⟩,
      fun tgt ht => ?_⟩
    · rw [if_neg (hne tgt ht), append_nil]
    · rw [if_neg (hne tgt ht)]

theorem becomes_reportExec (hq : s.status tsk = .live q) (hpid : ¬ W.pid tsk ≤ 1) :
    ∃ engines, Becomes W s tsk { q with engines := engines }
        (fun tgt => (if s.parentPath W q = some tgt then [false] else []) ++
          if q.path = tgt then [true] else []) (s.reportExec W tsk) ∧
      ∀ tgt ∈ W.targets, engines tgt =
        q.engines tgt - (if s.parentPath W q = some tgt then 1 else 0) +
          if q.path = tgt then 1 else 0 := by
  have hfirst : ∃ engines s1, Becomes W s tsk { q with engines := engines }
      (fun tgt => if s.parentPath W q = some tgt then [false] else []) s1 ∧
      (∀ tgt ∈ W.targets, engines tgt =
        q.engines tgt - if s.parentPath W q = some tgt then 1 else 0) ∧
      s.reportExec W tsk = s1.attachMatchTsk W tsk tsk true := by
    unfold reportExec
    rw [hq]
    unfold parentPath
    by_cases hparent : W.pid q.realParent ≤ 1
    · refine ⟨q.engines, s, by simpa [hparent] using becomes_same hq, by simp [hparent], ?_⟩
      simp [not_lt.mpr hparent]
    · have hgt : W.pid q.realParent > 1 := not_le.mp hparent
      simp only [hparent, hgt, if_true, if_false, attachMatchTsk, hpid, or_self]
      cases hpath : s.path? q.realParent with
      | none => exact ⟨q.engines, s, by simpa using becomes_same hq, by simp, rfl⟩
      | some mmpath =>
        obtain ⟨engines, hbecomes, hengines⟩ := becomes_match hq hpid mmpath false
        refine ⟨engines, _, by simpa using hbecomes, fun tgt ht => ?_, rfl⟩
        rw [hengines tgt ht]
        by_cases h : mmpath = tgt <;> simp [h]
  obtain ⟨engines1, s1, hbecomes1, hengines1, heq⟩ := hfirst
  have hq1 : s1.status tsk = .live { q with engines := engines1 } := by
    rw [hbecomes1.status, update_self]
  have hpath : s1.path? tsk = some q.path := by
    unfold path?
    rw [hq1]
  obtain ⟨engines, hbecomes, hengines⟩ := becomes_match hq1 hpid q.path true
  rw [heq, attachMatchTsk, if_neg (by simpa using hpid), hpath]
  refine ⟨engines, hbecomes1.trans hbecomes, fun tgt ht => ?_⟩
  rw [hengines tgt ht, ← hengines1 tgt ht]
  by_cases h : q.path = tgt <;> simp [h]

/-! ## The invariant -/

/-- What was told about a process: nothing before it is there, and nothing while it is not watched. One
that is watched has an engine for the target of its executable, which is registered. -/
def SoundAt (tgt : π) (told : List Bool) : TaskStatus ι π → Prop
  | .unborn => told = []
  | .dead => AlternatesFrom true told
  | .live q => AlternatesFrom true told ∧ (q.watched = false → told = []) ∧
    (registered told = true ↔ q.watched = true ∧ q.path = tgt) ∧
    q.engines tgt = if q.watched = true ∧ q.path = tgt then 1 else 0

structure Sound (W : TaskWorld ι π) (s : Tasks ι π) : Prop where
  pid : ∀ tsk q, s.status tsk = .live q → q.watched = true → ¬ W.pid tsk ≤ 1
  told : ∀ tsk, ∀ tgt ∈ W.targets, SoundAt tgt (s.told tgt tsk) (s.status tsk)

theorem Sound.live (h : s.Sound W) (hq : s.status tsk = .live q) (ht : tgt ∈ W.targets) :
    SoundAt tgt (s.told tgt tsk) (.live q) := hq ▸ h.told tsk tgt ht

/-- A process that is not watched runs no target. -/
theorem Sound.follows_iff (h : s.Sound W) : s.Follows W ↔
    ∀ tsk q, s.status tsk = .live q → q.watched = false → q.path ∉ W.targets := by
  constructor
  · intro hfollows tsk q hq hw hmem
    have hreg := ((hfollows tsk q.path hmem).2 q hq).mpr rfl
    rw [(h.live hq hmem).2.1 hw] at hreg
    cases hreg
  · intro hnone tsk tgt ht
    have hat := h.told tsk tgt ht
    cases hst : s.status tsk with
    | unborn =>
      rw [hst] at hat
      rw [hat]
      exact ⟨trivial, fun q hq => by cases hq⟩
    | dead =>
      rw [hst] at hat
      exact ⟨hat, fun q hq => by cases hq⟩
    | live q =>
      rw [hst] at hat
      refine ⟨hat.1, fun q' hq' => ?_⟩
      obtain rfl := TaskStatus.live.inj hq'
      rw [hat.2.2.1]
      exact and_iff_right_of_imp fun hpath =>
        Bool.of_not_eq_false fun hw => hnone tsk q hst hw (hpath ▸ ht)

structure Good (W : TaskWorld ι π) (s : Tasks ι π) : Prop where
  sound : s.Sound W
  follows : s.Follows W

variable {news : π → List Bool}

/-- A handler concerns its own process only. -/
theorem Becomes.live_cases (h : Becomes W s tsk q news s') {q' : TaskProc ι π}
    (hq' : s'.status p = .live q') : p = tsk ∧ q' = q ∨ s.status p = .live q' := by
  rw [h.status] at hq'
  by_cases hp : p = tsk
  · subst hp
    rw [update_self] at hq'
    exact .inl ⟨rfl, (TaskStatus.live.inj hq').symm⟩
  · rw [update_of_ne hp] at hq'
    exact .inr hq'

theorem Becomes.follows_iff (h : Becomes W s tsk q news s') (hs : s.Follows W) :
    s'.Follows W ↔ ∀ tgt ∈ W.targets, AlternatesFrom true (s.told tgt tsk ++ news tgt) ∧
      (registered (s.told tgt tsk ++ news tgt) = true ↔ q.path = tgt) := by
  have hself : s'.status tsk = .live q := by rw [h.status, update_self]
  constructor
  · intro hs' tgt ht
    obtain ⟨halt, hreg⟩ := hs' tsk tgt ht
    rw [h.told tgt ht] at halt hreg
    exact ⟨halt, hreg q hself⟩
  · intro hown p tgt ht
    by_cases hp : p = tsk
    · subst hp
      obtain ⟨halt, hreg⟩ := hown tgt ht
      rw [h.told tgt ht]
      refine ⟨halt, fun q' hq' => ?_⟩
      obtain rfl := TaskStatus.live.inj (hself.symm.trans hq')
      exact hreg
    · rw [h.other tgt p hp, h.status, update_of_ne hp]
      exact hs p tgt ht

theorem Becomes.sound (h : Becomes W s tsk q news s') (hs : s.Sound W)
    (hpid : q.watched = true → ¬ W.pid tsk ≤ 1)
    (hnew : ∀ tgt ∈ W.targets, SoundAt tgt (s.told tgt tsk ++ news tgt) (.live q)) :
    s'.Sound W := by
  constructor
  · intro p q' hq'
    rcases h.live_cases hq' with ⟨rfl, rfl⟩ | hq
    · exact hpid
    · exact hs.pid p q' hq
  · intro p tgt ht
    by_cases hp : p = tsk
    · subst hp
      rw [h.status, update_self, h.told tgt ht]
      exact hnew tgt ht
    · rw [h.status, update_of_ne hp, h.other tgt p hp]
      exact hs.told p tgt ht

/-! ## The events -/

/-- The registrations follow the event exactly if it fits, and then all stays good. -/
def Tracks (W : TaskWorld ι π) (s : Tasks ι π) (e : TaskEvent ι π) : Prop :=
  ((s.step W e).Follows W ↔ s.Fits W e) ∧ (s.Fits W e → (s.step W e).Good W)

omit [DecidableEq π] in
theorem fits_exec_iff (hq : s.status tsk = .live q) (path : π) :
    s.Fits W (.exec tsk path) ↔ ∀ tgt ∈ W.targets,
      if q.watched then
        (s.set tsk (.live { q with path := path })).parentPath W q = some tgt ↔ q.path = tgt
      else path ≠ tgt := by
  constructor
  · exact fun h => h q hq
  · intro h q' hq'
    obtain rfl := TaskStatus.live.inj (hq.symm.trans hq')
    exact h

/-- The `exec` of a process that is watched. -/
theorem Good.exec_watched (hs : s.Good W) (hq : s.status tsk = .live q) (hw : q.watched = true)
    (path : π) : s.Tracks W (.exec tsk path) := by
  have hpid := hs.sound.pid tsk q hq
  have hstep : s.step W (.exec tsk path) =
      (s.set tsk (.live { q with path := path })).reportExec W tsk := by simp [step, hq, hw]
  have hset : Becomes W s tsk { q with path := path } _ _ := becomes_set _
  obtain ⟨engines, hreport, hengines⟩ := becomes_reportExec (W := W)
    (s := s.set tsk (.live { q with path := path })) (update_self _ _ _) (hpid hw)
  have hboth := hset.trans hreport
  rw [← hstep] at hboth
  have hpp : ∀ tgt, (s.set tsk (.live { q with path := path })).parentPath W { q with path := path } =
      some tgt ↔ (s.set tsk (.live { q with path := path })).parentPath W q = some tgt :=
    fun tgt => Iff.rfl
  have hiff : (s.step W (.exec tsk path)).Follows W ↔ s.Fits W (.exec tsk path) := by
    rw [hboth.follows_iff hs.follows, fits_exec_iff hq]
    refine forall₂_congr fun tgt ht => ?_
    obtain ⟨halt, hreg⟩ := hs.follows tsk tgt ht
    rw [nil_append, ← append_assoc, alternates_exec halt, if_pos hw, hreg q hq, hpp]
  refine ⟨hiff, fun hfits => ⟨hboth.sound hs.sound hpid fun tgt ht => ?_, hiff.mpr hfits⟩⟩
  obtain ⟨halt, hreg⟩ := (hboth.follows_iff hs.follows).mp (hiff.mpr hfits) tgt ht
  refine ⟨halt, fun hnot => absurd hw (Bool.eq_false_iff.mp hnot), ?_, ?_⟩
  · simpa only [hw, true_and] using hreg
  · have hfit := (fits_exec_iff hq path).mp hfits tgt ht
    rw [if_pos hw] at hfit
    have hold := (hs.sound.live hq ht).2.2.2
    simp only [hw, true_and] at hold ⊢
    rw [hengines tgt ht]
    rw [hold]
    -- one engine goes for the old path, and one comes for the new path
    by_cases hpath : q.path = tgt
    · rw [if_pos hpath, if_pos ((hpp tgt).mpr (hfit.mpr hpath)), Nat.sub_self, Nat.zero_add]
    · rw [if_neg hpath, if_neg fun h => hpath (hfit.mp ((hpp tgt).mp h)), Nat.sub_zero, Nat.zero_add]

/-- The `exec` of a process that is not watched goes unnoticed. -/
theorem Good.exec_unwatched (hs : s.Good W) (hq : s.status tsk = .live q) (hw : q.watched = false)
    (path : π) : s.Tracks W (.exec tsk path) := by
  have hstep : s.step W (.exec tsk path) = s.set tsk (.live { q with path := path }) := by
    simp [step, hq, hw]
  have hset : Becomes W s tsk { q with path := path } _ _ := becomes_set _
  rw [← hstep] at hset
  have hiff : (s.step W (.exec tsk path)).Follows W ↔ s.Fits W (.exec tsk path) := by
    rw [hset.follows_iff hs.follows, fits_exec_iff hq]
    refine forall₂_congr fun tgt ht => ?_
    rw [(hs.sound.live hq ht).2.1 hw, hw]
    simp [AlternatesFrom, registered]
  refine ⟨hiff, fun hfits => ⟨hset.sound hs.sound (hs.sound.pid tsk q hq) fun tgt ht => ?_,
    hiff.mpr hfits⟩⟩
  have hold := hs.sound.live hq ht
  simpa [SoundAt, hw] using hold

theorem Good.exec_iff (hs : s.Good W) (tsk : ι) (path : π) : s.Tracks W (.exec tsk path) := by
  cases hq : s.status tsk with
  | unborn | dead =>
    have hstep : s.step W (.exec tsk path) = s := by simp [step, hq]
    have hfits : s.Fits W (.exec tsk path) := by simp [Fits, hq]
    rw [Tracks, hstep]
    exact ⟨iff_of_true hs.follows hfits, fun _ => hs⟩
  | live q =>
    cases hw : q.watched with
    | true => exact hs.exec_watched hq hw path
    | false => exact hs.exec_unwatched hq hw path

/-- A new process. If it gets an engine, it gets one for the target of its executable too. -/
theorem newborn (s' : Tasks ι π) (hs : s.Sound W) (hunborn : s.status tsk = .unborn)
    (realParent : ι) (path : π) (w : Bool) (hpid : w = true → ¬ W.pid tsk ≤ 1) (hs' : s' =
      if w then ((s.set tsk (.live ⟨realParent, path, false, fun _ => 0⟩)).modify tsk
        fun q => { q with watched := true }).attachMatchFilename W tsk path true
      else s.set tsk (.live ⟨realParent, path, false, fun _ => 0⟩)) :
    ∃ engines news, Becomes W s tsk ⟨realParent, path, w, engines⟩ news s' ∧ s'.Sound W := by
  have hset : Becomes W s tsk ⟨realParent, path, false, fun _ => 0⟩ _ _ := becomes_set _
  have htold := fun tgt (ht : tgt ∈ W.targets) => hs.told tsk tgt ht
  rw [hunborn] at htold
  cases w with
  | false =>
    subst hs'
    refine ⟨_, _, hset, hset.sound hs (by simp) fun tgt ht => ?_⟩
    rw [htold tgt ht]
    simp [SoundAt, AlternatesFrom, registered]
  | true =>
    rw [if_pos rfl, modify_of_live (update_self _ _ _)] at hs'
    have hwatch : Becomes W _ tsk ⟨realParent, path, true, fun _ => 0⟩ _ _ :=
      becomes_set (s := s.set tsk (.live ⟨realParent, path, false, fun _ => 0⟩)) _
    have hlive := congrFun hwatch.status tsk
    rw [update_self] at hlive
    obtain ⟨engines, hregister, hengines⟩ := becomes_match hlive (hpid rfl) path true
    have hnew := (hset.trans hwatch).trans hregister
    rw [← show s' = _ from hs'] at hnew
    refine ⟨_, _, hnew, hnew.sound hs hpid fun tgt ht => ?_⟩
    have hengine := hengines tgt ht
    rw [htold tgt ht]
    by_cases h : path = tgt <;> simpa [SoundAt, AlternatesFrom, registered, h] using hengine

/-- A child begins as what its parent is. -/
theorem Good.clone (hs : s.Good W) (parent child : ι) (cloneParent : Bool) :
    (s.step W (.clone parent child cloneParent)).Good W := by
  by_cases hcan : ∃ q, s.status parent = .live q ∧ s.status child = .unborn ∧ ¬ W.pid child ≤ 1
  · obtain ⟨q, hq, hchild, hpid⟩ := hcan
    have hne : parent ≠ child := by
      intro heq
      rw [heq, hchild] at hq
      cases hq
    generalize hrp : (if cloneParent then q.realParent else parent) = realParent
    have hpath : ((s.set child (.live ⟨realParent, q.path, false, fun _ => 0⟩)).modify child
        fun q => { q with watched := true }).path? parent = some q.path := by
      rw [modify_of_live (update_self _ _ _)]
      simp [path?, set, hne, hq]
    obtain ⟨engines, news, hnew, hsound⟩ := newborn (s.step W (.clone parent child cloneParent))
      hs.sound hchild realParent q.path q.watched (fun _ => hpid) (by
        have hparent := hs.sound.pid parent q hq
        cases hw : q.watched with
        | false => simp [step, hq, hchild, hpid, hw, hrp]
        | true => simp [step, hq, hchild, hpid, hw, hrp, reportClone, attachMatchTsk, hparent hw, hpath])
    refine ⟨hsound, hsound.follows_iff.mpr fun p q' hq' hw => ?_⟩
    have hnone := hs.sound.follows_iff.mp hs.follows
    rcases hnew.live_cases hq' with ⟨-, rfl⟩ | hold
    · exact hnone parent q hq hw
    · exact hnone p q' hold hw
  · have hstep : s.step W (.clone parent child cloneParent) = s := by
      unfold step
      dsimp only
      split
      · next q hq hchild => exact if_pos (by_contra fun hpid => hcan ⟨q, hq, hchild, hpid⟩)
      · rfl
    rw [hstep]
    exact hs

/-- The death of a process is told once for each engine. -/
theorem told_targetDeath (q : TaskProc ι π) (ht : tgt ∈ W.targets) :
    (s.targetDeath W tsk q).told tgt p =
      s.told tgt p ++ if p = tsk then replicate (q.engines tgt) false else [] := by
  have hpart : ∀ t, ∀ c ∈ replicate (q.engines t) (⟨t, tsk, false⟩ : CallbackCall ι π),
      c.tgt = t := fun t c hc => by rw [eq_of_mem_replicate hc]
  have hkey := filter_flatMap_key hpart tgt W.nodup
  rw [if_pos ht] at hkey
  unfold targetDeath
  rw [told_append]
  congr 1
  unfold told
  simp only [and_comm (a := _ = tgt), Bool.decide_and, ← filter_filter]
  rw [hkey]
  by_cases hp : p = tsk
  · simp [hp]
  · simp [hp, Ne.symm hp]

theorem Good.exit (hs : s.Good W) (tsk : ι) : (s.step W (.exit tsk)).Good W := by
  by_cases hcan : ∃ q, s.status tsk = .live q ∧ ¬ W.pid tsk ≤ 1
  · obtain ⟨q, hq, hpid⟩ := hcan
    have hstep : s.step W (.exit tsk) = ((s.targetDeath W tsk q).set tsk .dead).reparent W tsk := by
      simp [step, hq, hpid]
    rw [hstep]
    have hdead : (((s.targetDeath W tsk q).set tsk .dead).reparent W tsk).status tsk = .dead := by
      simp [reparent, set]
    -- the others only get another parent
    have hother : ∀ p, p ≠ tsk → ((s.targetDeath W tsk q).set tsk .dead).status p = s.status p :=
      fun p hp => update_of_ne hp _ _
    have hlive : ∀ p q', (((s.targetDeath W tsk q).set tsk .dead).reparent W tsk).status p = .live q' →
        ∃ q, s.status p = .live q ∧ q'.path = q.path ∧ q'.watched = q.watched := by
      intro p q' hq'
      have hp : p ≠ tsk := fun hp => by
        rw [hp, hdead] at hq'
        cases hq'
      simp only [reparent, hother p hp] at hq'
      cases hst : s.status p <;> rw [hst] at hq' <;> cases hq'
      exact ⟨_, rfl, rfl, rfl⟩
    have hsound : (((s.targetDeath W tsk q).set tsk .dead).reparent W tsk).Sound W := by
      refine ⟨fun p q' hq' hw => ?_, fun p tgt ht => ?_⟩
      · obtain ⟨q0, hq0, -, hwatched⟩ := hlive p q' hq'
        exact hs.sound.pid p q0 hq0 (hwatched ▸ hw)
      · have htold : (((s.targetDeath W tsk q).set tsk .dead).reparent W tsk).told tgt p =
            s.told tgt p ++ if p = tsk then replicate (q.engines tgt) false else [] :=
          told_targetDeath q ht
        rw [htold]
        by_cases hp : p = tsk
        · subst hp
          obtain ⟨halt, -, hreg, hengines⟩ := hs.sound.live hq ht
          rw [hdead, if_pos rfl, hengines]
          by_cases hpath : q.watched = true ∧ q.path = tgt
          · rw [if_pos hpath]
            exact alternates_snoc.mpr ⟨halt, by rw [hreg.mpr hpath]; rfl⟩
          · rw [if_neg hpath]
            exact (append_nil _).symm ▸ halt
        · have hold := hs.sound.told p tgt ht
          rw [if_neg hp, append_nil]
          simp only [reparent, hother p hp]
          cases hst : s.status p <;> rw [hst] at hold <;> exact hold
    refine ⟨hsound, hsound.follows_iff.mpr fun p q' hq' hw => ?_⟩
    obtain ⟨q0, hq0, hpath, hwatched⟩ := hlive p q' hq'
    rw [hpath]
    exact hs.sound.follows_iff.mp hs.follows p q0 hq0 (hwatched ▸ hw)
  · have hstep : s.step W (.exit tsk) = s := by
      unfold step
      dsimp only
      split
      · next q hq => exact if_pos (by_contra fun hpid => hcan ⟨q, hq, hpid⟩)
      · rfl
      · rfl
    rw [hstep]
    exact hs

/-! ## The start -/

/-- How it is while the task finder starts. -/
structure Begun (W : TaskWorld ι π) (s : Tasks ι π) : Prop where
  sound : s.Sound W
  watched : ∀ tsk q, s.status tsk = .live q → ¬ W.pid tsk ≤ 1 → q.watched = true

theorem Begun.startTask (hs : s.Begun W) (hunborn : s.status tsk = .unborn) (realParent : ι)
    (path : π) : (s.startTask W tsk realParent path).Begun W ∧
      ∀ p, p ≠ tsk → (s.startTask W tsk realParent path).status p = s.status p := by
  obtain ⟨engines, news, hnew, hsound⟩ := newborn (s.startTask W tsk realParent path) hs.sound
    hunborn realParent path (!decide (W.pid tsk ≤ 1)) (by simp) (by
      by_cases hpid : W.pid tsk ≤ 1 <;> simp [Tasks.startTask, hpid])
  refine ⟨⟨hsound, fun p q hq hpid => ?_⟩, fun p hp => by rw [hnew.status, update_of_ne hp]⟩
  rcases hnew.live_cases hq with ⟨rfl, rfl⟩ | hold
  · simpa using hpid
  · exact hs.watched p q hold hpid

theorem begun_started (first : FirstTasks ι π) : (started W first).Begun W := by
  have hfold : ∀ (l : List (ι × ι × π)) {s : Tasks ι π}, (l.map Prod.fst).Nodup → s.Begun W →
      (∀ t ∈ l, s.status t.1 = .unborn) →
      (l.foldl (fun s t => s.startTask W t.1 t.2.1 t.2.2) s).Begun W := by
    intro l
    induction l with
    | nil => exact fun _ hs _ => hs
    | cons t l ih =>
      intro s hnodup hs hunborn
      obtain ⟨ht, hnodup⟩ := nodup_cons.mp hnodup
      obtain ⟨hbegun, hother⟩ := hs.startTask (hunborn t mem_cons_self) t.2.1 t.2.2
      refine ih hnodup hbegun fun t' ht' => ?_
      rw [hother t'.1 fun heq => ht (heq ▸ mem_map_of_mem ht')]
      exact hunborn t' (mem_cons_of_mem _ ht')
  have hempty : Begun W (⟨fun _ => .unborn, []⟩ : Tasks ι π) :=
    ⟨⟨fun _ _ h => (by cases h), fun _ _ _ => rfl⟩, fun _ _ h => (by cases h)⟩
  exact hfold first.tasks first.nodup hempty fun _ _ => rfl

/-- No process is left out that runs a target. -/
def NoneMissed (W : TaskWorld ι π) (s : Tasks ι π) : Prop :=
  ∀ tsk q, s.status tsk = .live q → W.pid tsk ≤ 1 → q.path ∉ W.targets

theorem Begun.follows_iff (hs : s.Begun W) : s.Follows W ↔ s.NoneMissed W := by
  rw [hs.sound.follows_iff]
  refine forall₃_congr fun tsk q hq => imp_congr_left ?_
  rw [← Bool.not_eq_true, ← not_iff_not, not_not]
  exact ⟨hs.sound.pid tsk q hq, hs.watched tsk q hq⟩

/-! ## Histories -/

theorem Good.step_iff (hs : s.Good W) (e : TaskEvent ι π) : s.Tracks W e := by
  cases e with
  | clone parent child cloneParent =>
    have hgood := hs.clone parent child cloneParent
    exact ⟨iff_of_true hgood.follows trivial, fun _ => hgood⟩
  | exec tsk path => exact hs.exec_iff tsk path
  | exit tsk =>
    have hgood := hs.exit tsk
    exact ⟨iff_of_true hgood.follows trivial, fun _ => hgood⟩

theorem allFollow_follows {es : List (TaskEvent ι π)} (h : s.AllFollow W es) : s.Follows W := by
  cases es with
  | nil => exact h
  | cons e es => exact h.1

theorem Good.allFollow_iff (es : List (TaskEvent ι π)) :
    ∀ {s : Tasks ι π}, s.Good W → (s.AllFollow W es ↔ s.AllFit W es) := by
  induction es with
  | nil => exact fun hs => iff_of_true hs.follows trivial
  | cons e es ih =>
    intro s hs
    obtain ⟨hiff, hgood⟩ := hs.step_iff e
    constructor
    · intro ⟨_, hrest⟩
      have hfits := hiff.mp (allFollow_follows hrest)
      exact ⟨hfits, (ih (hgood hfits)).mp hrest⟩
    · intro ⟨hfits, hrest⟩
      exact ⟨hs.follows, (ih (hgood hfits)).mpr hrest⟩

/-- From the start of the task finder and through every history, the callbacks of each target and
process come in turn and the registrations are those of the executables, if and only if init does
not run a target and at each `exec` of a process with an engine its parent's path is a target's
exactly if its own old path was, while a process without an engine execs no target. -/
theorem registrations_follow_iff (W : TaskWorld ι π) (first : FirstTasks ι π)
    (es : List (TaskEvent ι π)) :
    (started W first).AllFollow W es ↔
      (started W first).NoneMissed W ∧ (started W first).AllFit W es := by
  have hbegun := begun_started (W := W) first
  constructor
  · intro h
    have hnone := hbegun.follows_iff.mp (allFollow_follows h)
    exact ⟨hnone, (Good.allFollow_iff es ⟨hbegun.sound, allFollow_follows h⟩).mp h⟩
  · intro ⟨hnone, hfit⟩
    exact (Good.allFollow_iff es ⟨hbegun.sound, hbegun.follows_iff.mpr hnone⟩).mpr hfit

/-- Init and a shell; the target is `ls`. -/
def lsWorld : TaskWorld Nat String where
  pid p := p
  init := 1
  pid_init := rfl
  targets := ["/bin/ls"]
  nodup := by decide

def initAndShell : FirstTasks Nat String where
  tasks := [(1, 0, "/sbin/init"), (2, 1, "/bin/sh")]
  nodup := by decide

/-- A child of the shell execs `ls` and then `cat`, and stays registered. -/
theorem exec_twice_registered : ¬ (started lsWorld initAndShell).AllFollow lsWorld
    [.clone 2 3 false, .exec 3 "/bin/ls", .exec 3 "/bin/cat"] := by
  intro h
  obtain ⟨-, -, -, hlast⟩ := h
  have hreg := (hlast 3 "/bin/ls" (by decide)).2 _ rfl
  exact absurd (hreg.mp (by decide)) (by decide)

end Tasks

end Systemtap.Runtime
