import Systemtap.Lib.Slots
import Systemtap.Lib.Steps

/-!
# The callbacks for memory maps

A target of the task finder can ask to be called when a task that it is attached to calls `mmap`,
`munmap` or `mprotect`. When such a call begins, the entry handler of each target that has callbacks
for it saves the arguments, in an entry that all targets of the task share and that has a usage
count (`task_finder_map.c`). When the call is done, the exit handler of each target runs the
target's callbacks with what is saved and gives one usage back.

The entry handler asks whether the target has callbacks for this kind of call. The exit handler
does not: it takes the entry to be its own whenever there is one. So an exit handler that has
nothing to call uses up the share of another one, and with `k` interested targets it is the
first `k` exit handlers, whoever's they are, that run their callbacks. All interested targets are
served exactly when their exit handlers come first (`mapCallbacks_delivered_iff`). In any case the
entry is gone when the call is over, so one call does not disturb the next.

The callbacks for `mmap` are called only if there is an area with a file at the address that the
call has returned.
-/

namespace Systemtap.Runtime

open Lib Function List Option

/-! ## The code -/

inductive MapKind where
  | mmap
  | munmap
  | mprotect
deriving DecidableEq, Repr

inductive SyscallNo where
  | mmap
  | mmap2
  | mprotect
  | munmap
  | other (n : Nat)
deriving DecidableEq, Repr

/-- The kind of callbacks for a system call. -/
def SyscallNo.kind? : SyscallNo → Option MapKind
  | .mmap | .mmap2 => some .mmap
  | .mprotect => some .mprotect
  | .munmap => some .munmap
  | .other _ => none

/-- A `struct stap_task_finder_target` as it is registered: whom it is for, and which callbacks are
not `NULL`. -/
structure StapTarget where
  procname : String
  pid : BitVec 32
  has : MapKind → Bool

/-- A target on `__stp_task_finder_list`, with all that were registered for the same procname or
pid; the `events` bits say what there is in the callback list. -/
structure TargetNode where
  procname : String
  pid : BitVec 32
  callbacks : List StapTarget
  events : MapKind → Bool
  marked : ∀ k, events k = callbacks.any fun cb => cb.has k

/-- The test of `stap_register_task_finder_target` for an existing entry. -/
def TargetNode.isFor (tgt : TargetNode) (new : StapTarget) : Bool :=
  (new.procname ≠ "" && tgt.procname = new.procname) ||
    (new.procname = "" && tgt.procname = "" && tgt.pid = new.pid)

/-- `list_add_tail (&new_tgt->callback_list, &tgt->callback_list_head)`, and the `events` bits -/
def TargetNode.addCallbacks (tgt : TargetNode) (new : StapTarget) : TargetNode where
  procname := tgt.procname
  pid := tgt.pid
  callbacks := tgt.callbacks ++ [new]
  events k := tgt.events k || new.has k
  marked k := by simp [tgt.marked k]

/-- `stap_register_task_finder_target` -/
def stapRegisterTaskFinderTarget (new : StapTarget) : List TargetNode → List TargetNode :=
  fun tgts =>
    match tgts.findIdx? fun tgt => tgt.isFor new with
    | some i => tgts.modify i fun tgt => tgt.addCallbacks new
    | none =>
      TargetNode.addCallbacks ⟨new.procname, new.pid, [], fun _ => false, fun _ => rfl⟩ new :: tgts

/-- `__STP_ATTACHED_TASK_BASE_EVENTS` has the events of system calls. -/
def TargetNode.isVm (tgt : TargetNode) : Bool :=
  tgt.events .mmap || tgt.events .munmap || tgt.events .mprotect

/-- What is known of an area for its callbacks. -/
structure MappedArea where
  path : String
  addr : BitVec 64
  length : BitVec 64
  offset : BitVec 64
  vmFlags : BitVec 64
deriving DecidableEq, Repr

/-- A system call: its arguments, and the area with a file that is found at the address it has
returned. -/
structure Syscall where
  no : SyscallNo
  arg0 : BitVec 64
  arg1 : BitVec 64
  arg2 : BitVec 64
  area : Option MappedArea
deriving DecidableEq, Repr

/-- What a callback is called with. -/
inductive CallbackArgs where
  | mmap (a : MappedArea)
  | munmap (addr length : BitVec 64)
  | mprotect (addr length : BitVec 64) (prot : BitVec 32)
deriving DecidableEq, Repr

def CallbackArgs.kind : CallbackArgs → MapKind
  | .mmap _ => .mmap
  | .munmap _ _ => .munmap
  | .mprotect _ _ _ => .mprotect

/-- `struct __stp_tf_map_entry` -/
structure MapEntry where
  usage : Int
  pid : BitVec 32
  no : SyscallNo
  arg0 : BitVec 64
  arg1 : BitVec 64
  arg2 : BitVec 64
deriving DecidableEq, Repr

/-- The items, the free list and the hash table of `task_finder_map.c`, for `N` items. -/
structure MapTables (N : Nat) where
  items : Fin N → MapEntry
  free : List (Fin N)
  table : Fin 16 → List (Fin N)

inductive AddMapResult where
  | ok
  | enomem
deriving DecidableEq, Repr

/-- A callback that was run, by the exit handler of the target `tgt`. -/
structure Ran (τ : Type) where
  tgt : τ
  cb : StapTarget
  args : CallbackArgs

namespace MapTables

variable {N : Nat}

/-- The static data after `__stp_tf_map_initialize`. -/
def initial : MapTables N where
  items _ := ⟨0, 0, .other 0, 0, 0, 0⟩
  free := (List.finRange N).reverse
  table _ := []

section Hash

/- `__stp_tf_map_hash` -/
variable (hash : BitVec 32 → Fin 16)

/-- `__stp_tf_get_map_entry` -/
def getMapEntry (s : MapTables N) (pid : BitVec 32) : Option (Fin N) :=
  (s.table (hash pid)).find? fun p => pid = (s.items p).pid

/-- `__stp_tf_add_map` -/
def addMap (s : MapTables N) (pid : BitVec 32) (no : SyscallNo) (arg0 arg1 arg2 : BitVec 64) :
    AddMapResult × MapTables N :=
  match s.getMapEntry hash pid with
  | some p =>
    let e := { s.items p with usage := (s.items p).usage + 1 }
    (.ok, { s with items := Function.update s.items p e })
  | none =>
    match s.free with
    | [] => (.enomem, s)
    | p :: free =>
      (.ok, {
        items := Function.update s.items p ⟨1, pid, no, arg0, arg1, arg2⟩
        free := free
        table := Function.update s.table (hash pid) (p :: s.table (hash pid)) })

/-- `__stp_tf_remove_map_entry` -/
def removeMapEntry (s : MapTables N) (p : Fin N) : MapTables N :=
  let e := { s.items p with usage := (s.items p).usage - 1 }
  let h := hash (s.items p).pid
  if e.usage = 0 then
    { items := Function.update s.items p e
      free := p :: s.free
      table := Function.update s.table h ((s.table h).erase p) }
  else
    { s with items := Function.update s.items p e }

/-- `__stp_utrace_task_finder_target_syscall_entry` -/
def syscallEntry (s : MapTables N) (tgt : TargetNode) (pid : BitVec 32) (call : Syscall) :
    AddMapResult × MapTables N :=
  match call.no.kind? with
  | none => (.ok, s)
  | some k =>
    if tgt.events k then
      match k with
      | .munmap => s.addMap hash pid call.no call.arg0 call.arg1 0
      | .mmap => s.addMap hash pid call.no 0 0 0
      | .mprotect => s.addMap hash pid call.no call.arg0 call.arg1 call.arg2
    else (.ok, s)

/-- `__stp_call_mmap_callbacks`, `__stp_call_munmap_callbacks`, `__stp_call_mprotect_callbacks` -/
def callCallbacks {τ : Type} (t : τ) (tgt : TargetNode) (args : CallbackArgs) : List (Ran τ) :=
  (tgt.callbacks.filter fun cb => cb.has args.kind).map fun cb => ⟨t, cb, args⟩

/-- `__stp_utrace_task_finder_target_syscall_exit` of the target `t`. -/
def syscallExit {τ : Type} (s : MapTables N) (t : τ) (tgt : TargetNode) (pid : BitVec 32)
    (call : Syscall) : List (Ran τ) × MapTables N :=
  match s.getMapEntry hash pid with
  | none => ([], s)
  | some p =>
    let e := s.items p
    let log := match e.no with
      | .munmap => callCallbacks t tgt (.munmap e.arg0 e.arg1)
      -- `__stp_call_mmap_callbacks_with_addr`
      | .mmap | .mmap2 =>
        match call.area with
        | none => []
        | some a => callCallbacks t tgt (.mmap a)
      | .mprotect | .other _ =>
        callCallbacks t tgt (.mprotect e.arg0 e.arg1 (e.arg2.setWidth 32))
    (log, s.removeMapEntry hash p)

end Hash

end MapTables

/-! ## The entries of the tasks -/

namespace MapTables

variable {N : Nat} {hash : BitVec 32 → Fin 16} {s s' : MapTables N} {pid q : BitVec 32} {p : Fin N}

/-- The chains have the items that are not free, and each task has at most one of them. -/
def Wf (hash : BitVec 32 → Fin 16) (s : MapTables N) : Prop :=
  ∃ used, Stores (fun p => hash (s.items p).pid) s.free s.table used ∧
    (used.map fun p => (s.items p).pid).Nodup

/-- What is saved for the task. -/
def entryOf (hash : BitVec 32 → Fin 16) (s : MapTables N) (pid : BitVec 32) : Option MapEntry :=
  (s.getMapEntry hash pid).map s.items

/-- The entry of `pid` becomes `e`; the other tasks do not notice. -/
structure Sets (hash : BitVec 32 → Fin 16) (pid : BitVec 32) (e : Option MapEntry)
    (s s' : MapTables N) : Prop where
  wf : s'.Wf hash
  own : s'.entryOf hash pid = e
  frame : ∀ q, q ≠ pid → s'.entryOf hash q = s.entryOf hash q

theorem wf_initial : (initial : MapTables N).Wf hash :=
  ⟨[], .initial N _, nodup_nil⟩

variable {used : List (Fin N)}

theorem getMapEntry_eq (h : Stores (fun p => hash (s.items p).pid) s.free s.table used)
    (q : BitVec 32) : s.getMapEntry hash q = used.find? fun p => q = (s.items p).pid :=
  h.find?_chain fun _ hp => congrArg hash (of_decide_eq_true hp).symm

theorem entryOf_eq (h : Stores (fun p => hash (s.items p).pid) s.free s.table used)
    (q : BitVec 32) : s.entryOf hash q = (used.map s.items).find? fun e => q = e.pid := by
  rw [entryOf, getMapEntry_eq h, List.find?_map]
  rfl

theorem pid_of_getMapEntry (h : s.getMapEntry hash q = some p) : (s.items p).pid = q := by
  have hpid := find?_some h
  exact (of_decide_eq_true hpid).symm

variable {e : MapEntry}

/-- An entry is given another usage count. -/
theorem Wf.sets_update (h : s.Wf hash) (hp : s.getMapEntry hash pid = some p)
    (he : e.pid = (s.items p).pid) : Sets hash pid (some e) s { s with items := update s.items p e } := by
  have hpids : ∀ x, (update s.items p e x).pid = (s.items x).pid := by
    intro x
    by_cases hx : x = p <;> simp [hx, he]
  have hget : ∀ q, getMapEntry hash { s with items := update s.items p e } q =
      s.getMapEntry hash q := by simp [getMapEntry, hpids]
  refine ⟨?_, by simp [entryOf, hget, hp], fun q hq => ?_⟩
  · simpa [Wf, hpids] using h
  · rw [entryOf, hget]
    refine map_congr fun x hx => update_of_ne ?_ _ _
    rintro rfl
    exact hq ((pid_of_getMapEntry hx).symm.trans (pid_of_getMapEntry hp))

/-- A free item becomes the entry of a task that has none. -/
theorem Wf.sets_insert (h : s.Wf hash) (hnone : s.getMapEntry hash pid = none) {free : List (Fin N)}
    (hfree : s.free = p :: free) (he : e.pid = pid) :
    Sets hash pid (some e) s {
      items := update s.items p e
      free := free
      table := update s.table (hash pid) (p :: s.table (hash pid)) } := by
  subst he
  obtain ⟨used, hstores, hnodup⟩ := h
  rw [getMapEntry_eq hstores, find?_eq_none] at hnone
  have hkept : ∀ x ∈ used, update s.items p e x = s.items x := fun x hx =>
    update_of_ne ((hfree ▸ hstores).ne_of_mem hx) _ _
  have htake := (hfree ▸ hstores).take (fun x => hash (update s.items p e x).pid)
    fun x hx => by simp [hx]
  simp only [update_self] at htake
  have hentry := entryOf_eq (s := ⟨update s.items p e, free, _⟩) htake
  simp only [map_cons, update_self, map_congr_left hkept] at hentry
  refine ⟨⟨p :: used, htake, ?_⟩, ?_, fun q hq => ?_⟩
  · simp only [map_cons, update_self]
    rw [map_congr_left fun x hx => congrArg MapEntry.pid (hkept x hx)]
    refine nodup_cons.mpr ⟨fun hmem => ?_, hnodup⟩
    obtain ⟨x, hx, hpid⟩ := mem_map.mp hmem
    exact hnone x hx (decide_eq_true hpid.symm)
  · exact (hentry _).trans (find?_cons_of_pos (by simp))
  · refine (hentry q).trans ?_
    rw [entryOf_eq hstores, find?_cons_of_neg (by simpa using hq)]

/-- An entry goes back to the free list. -/
theorem Wf.sets_release (h : s.Wf hash) (hp : s.getMapEntry hash pid = some p) (e : MapEntry) :
    Sets hash pid none s {
      items := update s.items p e
      free := p :: s.free
      table := update s.table (hash pid) ((s.table (hash pid)).erase p) } := by
  obtain ⟨used, hstores, hnodup⟩ := h
  obtain rfl := pid_of_getMapEntry hp
  have hmem := (hstores.mem_chain.mp (mem_of_find?_eq_some hp)).1
  have hput := hstores.put hmem (fun x => hash (update s.items p e x).pid) fun x hx => by simp [hx]
  have herase := erase_eq_filter_key hnodup hmem
  have hkept : ∀ x ∈ used.erase p, update s.items p e x = s.items x := fun x hx =>
    update_of_ne (fun heq => (hnodup.of_map _).not_mem_erase (heq ▸ hx)) _ _
  have hentry := entryOf_eq (s := ⟨update s.items p e, p :: s.free, _⟩) hput
  rw [map_congr_left hkept, herase] at hentry
  refine ⟨⟨used.erase p, hput, ?_⟩, ?_, fun q hq => ?_⟩
  · rw [map_congr_left fun x hx => congrArg MapEntry.pid (hkept x hx)]
    exact hnodup.sublist ((erase_sublist ..).map _)
  · refine (hentry _).trans (find?_eq_none.mpr fun x hx => ?_)
    obtain ⟨y, hy, rfl⟩ := mem_map.mp hx
    have hne := (mem_filter.mp hy).2
    simpa using Ne.symm (of_decide_eq_true hne)
  · refine (hentry q).trans ?_
    rw [entryOf_eq hstores, List.find?_map, List.find?_map, List.find?_filter]
    congr 2
    funext x
    by_cases hx : q = (s.items x).pid
    · simpa [← hx] using hq
    · simp [hx]

/-- `__stp_tf_add_map` fails without effect, or counts one more usage. -/
theorem Wf.addMap_spec (h : s.Wf hash) (pid : BitVec 32) (no : SyscallNo)
    (arg0 arg1 arg2 : BitVec 64) :
    s.addMap hash pid no arg0 arg1 arg2 = (.enomem, s) ∨
      (s.addMap hash pid no arg0 arg1 arg2).1 = .ok ∧
        Sets hash pid (some (match s.entryOf hash pid with
          | some e => { e with usage := e.usage + 1 }
          | none => ⟨1, pid, no, arg0, arg1, arg2⟩)) s
          (s.addMap hash pid no arg0 arg1 arg2).2 := by
  unfold addMap entryOf
  cases hf : s.getMapEntry hash pid with
  | some p => exact .inr ⟨rfl, h.sets_update hf rfl⟩
  | none =>
    cases hfree : s.free with
    | nil => exact .inl rfl
    | cons p free => exact .inr ⟨rfl, h.sets_insert hf hfree rfl⟩

/-- `__stp_tf_remove_map_entry` counts one usage less, and the last one ends the entry. -/
theorem Wf.removeMapEntry_sets (h : s.Wf hash) (hp : s.getMapEntry hash pid = some p) :
    Sets hash pid (if (s.items p).usage - 1 = 0 then none
      else some { s.items p with usage := (s.items p).usage - 1 }) s (s.removeMapEntry hash p) := by
  unfold removeMapEntry
  dsimp only
  rw [pid_of_getMapEntry hp]
  split
  · exact h.sets_release hp _
  · exact h.sets_update hp (pid_of_getMapEntry hp).symm

end MapTables

/-! ## Runs -/

section Runs

variable {N : Nat} {τ : Type} (hash : BitVec 32 → Fin 16) (node : τ → TargetNode)
  (pid : BitVec 32)

/-- What the handlers do for other tasks. -/
inductive OtherTask : MapTables N → MapTables N → Prop
  | add {s} (q : BitVec 32) (hq : q ≠ pid) (no : SyscallNo) (arg0 arg1 arg2 : BitVec 64) :
      OtherTask s (s.addMap hash q no arg0 arg1 arg2).2
  | remove {s p} (q : BitVec 32) (hq : q ≠ pid) (hp : s.getMapEntry hash q = some p) :
      OtherTask s (s.removeMapEntry hash p)

/-- The entry handlers of the targets, in this order, with other tasks in between; there is a free
entry when one is needed. -/
inductive EntryHandlers (call : Syscall) : MapTables N → List τ → MapTables N → Prop
  | nil {s} : EntryHandlers call s [] s
  | other {s s₁ s' ts} (ho : OtherTask hash pid s s₁) (h : EntryHandlers call s₁ ts s') :
      EntryHandlers call s ts s'
  | cons {s s₁ s' t ts} (ht : s.syscallEntry hash (node t) pid call = (.ok, s₁))
      (h : EntryHandlers call s₁ ts s') : EntryHandlers call s (t :: ts) s'

/-- The exit handlers, and the callbacks that they have run. -/
inductive ExitHandlers (call : Syscall) :
    MapTables N → List τ → List (Ran τ) → MapTables N → Prop
  | nil {s} : ExitHandlers call s [] [] s
  | other {s s₁ s' ts log} (ho : OtherTask hash pid s s₁) (h : ExitHandlers call s₁ ts log s') :
      ExitHandlers call s ts log s'
  | cons {s s₁ s' t ts log₁ log} (ht : s.syscallExit hash t (node t) pid call = (log₁, s₁))
      (h : ExitHandlers call s₁ ts log s') : ExitHandlers call s (t :: ts) (log₁ ++ log) s'

/-- A system call with its handlers in the order in which they ran. -/
structure HandledCall (τ : Type) where
  call : Syscall
  enter : List τ
  exit : List τ
  log : List (Ran τ)

/-- The task makes a system call, or other tasks do something. -/
inductive CallStep (attached : List τ) : MapTables N → Option (HandledCall τ) → MapTables N → Prop
  | other {s s'} (ho : OtherTask hash pid s s') : CallStep attached s none s'
  | call {s s₁ s'} (r : HandledCall τ)
      (henter : r.enter.Perm (attached.filter fun t => (node t).isVm))
      (hexit : r.exit.Perm (attached.filter fun t => (node t).isVm))
      (h₁ : EntryHandlers hash node pid r.call s r.enter s₁)
      (h₂ : ExitHandlers hash node pid r.call s₁ r.exit r.log s') : CallStep attached s (some r) s'

end Runs

/-! ## What should happen -/

/-- What the callbacks for a call are to be called with. -/
def Syscall.callbackArgs (call : Syscall) : Option CallbackArgs :=
  match call.no with
  | .mmap | .mmap2 => call.area.map .mmap
  | .munmap => some (.munmap call.arg0 call.arg1)
  | .mprotect => some (.mprotect call.arg0 call.arg1 (call.arg2.setWidth 32))
  | .other _ => none

/-- The target has callbacks for this kind of call. -/
def TargetNode.interested (tgt : TargetNode) (call : Syscall) : Bool :=
  call.no.kind?.any fun k => tgt.callbacks.any fun cb => cb.has k

namespace HandledCall

variable {τ : Type} [DecidableEq τ] (node : τ → TargetNode) (attached : List τ) (r : HandledCall τ)

/-- Every interested target has run each of its callbacks for the call once, in their order, with
the arguments of the call. -/
def Delivered : Prop :=
  ∀ t ∈ attached, (node t).interested r.call = true → ∃ args, r.call.callbackArgs = some args ∧
    (r.log.filter fun x => x.tgt = t) = MapTables.callCallbacks t (node t) args

/-- No target without callbacks for the call has its exit handler run before one that has some. -/
def InterestedFirst : Prop :=
  r.exit.Pairwise fun t u => (node u).interested r.call = true → (node t).interested r.call = true

/-- If somebody is to hear of it, there is something to tell. -/
def Told : Prop :=
  ∀ t ∈ attached, (node t).interested r.call = true → r.call.callbackArgs ≠ none

end HandledCall

/-! ## One call -/

section OneCall

variable {N : Nat} {τ : Type} {hash : BitVec 32 → Fin 16} {node : τ → TargetNode} {pid : BitVec 32}
  {call : Syscall} {n : Nat} {s s1 s' : MapTables N} {tgt : TargetNode}

/-- What the entry handlers save. -/
def Syscall.saved (call : Syscall) (pid : BitVec 32) (usage : Int) : MapEntry :=
  match call.no with
  | .munmap => ⟨usage, pid, call.no, call.arg0, call.arg1, 0⟩
  | .mmap | .mmap2 | .other _ => ⟨usage, pid, call.no, 0, 0, 0⟩
  | .mprotect => ⟨usage, pid, call.no, call.arg0, call.arg1, call.arg2⟩

/-- `n` usages of the task's entry are left. -/
structure Holding (hash : BitVec 32 → Fin 16) (pid : BitVec 32) (call : Syscall) (n : Nat)
    (s : MapTables N) : Prop where
  wf : s.Wf hash
  entry : s.entryOf hash pid = if n = 0 then none else some (call.saved pid n)
  known : n ≠ 0 → call.no.kind? ≠ none

/-- What the exit handler of the target `t` should run. -/
def Syscall.ranBy (call : Syscall) (t : τ) (tgt : TargetNode) : List (Ran τ) :=
  match call.callbackArgs with
  | none => []
  | some args => MapTables.callCallbacks t tgt args

theorem TargetNode.interested_eq {k : MapKind} (hk : call.no.kind? = some k) :
    tgt.interested call = tgt.events k := by
  rw [interested, hk, tgt.marked k]
  rfl

theorem TargetNode.interested_of_none (hk : call.no.kind? = none) :
    tgt.interested call = false := by
  rw [interested, hk]
  rfl

theorem TargetNode.isVm_of_interested (h : tgt.interested call = true) : tgt.isVm = true := by
  cases hk : call.no.kind? with
  | none =>
    rw [interested_of_none hk] at h
    cases h
  | some k =>
    rw [interested_eq hk] at h
    cases k <;> simp [isVm, h]

theorem OtherTask.entryOf_eq (ho : OtherTask hash pid s s') (h : s.Wf hash) :
    s'.Wf hash ∧ s'.entryOf hash pid = s.entryOf hash pid := by
  cases ho with
  | add q hq no arg0 arg1 arg2 =>
    rcases h.addMap_spec q no arg0 arg1 arg2 with hfail | ⟨-, hsets⟩
    · rw [hfail]
      exact ⟨h, rfl⟩
    · exact ⟨hsets.wf, hsets.frame pid hq.symm⟩
  | remove q hq hp =>
    have hsets := h.removeMapEntry_sets hp
    exact ⟨hsets.wf, hsets.frame pid hq.symm⟩

theorem Holding.other (h : Holding hash pid call n s) (ho : OtherTask hash pid s s') :
    Holding hash pid call n s' := by
  obtain ⟨hwf, hentry⟩ := ho.entryOf_eq h.wf
  exact ⟨hwf, hentry.trans h.entry, h.known⟩

theorem Holding.addMap {arg0 arg1 arg2 : BitVec 64} (h : Holding hash pid call n s)
    (hk : call.no.kind? ≠ none)
    (hsaved : ∀ u, call.saved pid u = ⟨u, pid, call.no, arg0, arg1, arg2⟩)
    (ht : s.addMap hash pid call.no arg0 arg1 arg2 = (.ok, s1)) :
    Holding hash pid call (n + 1) s1 := by
  have hspec := h.wf.addMap_spec pid call.no arg0 arg1 arg2
  rw [ht] at hspec
  rcases hspec with hfail | ⟨-, hsets⟩
  · cases hfail
  · refine ⟨hsets.wf, ?_, fun _ => hk⟩
    rw [hsets.own, h.entry, if_neg (Nat.succ_ne_zero n), hsaved]
    by_cases hn : n = 0 <;> simp [hn, hsaved]

/-- The entry handler of an interested target adds one usage. -/
theorem Holding.syscallEntry (h : Holding hash pid call n s)
    (ht : s.syscallEntry hash tgt pid call = (.ok, s1)) :
    Holding hash pid call (n + if tgt.interested call then 1 else 0) s1 := by
  unfold MapTables.syscallEntry at ht
  cases hk : call.no.kind? with
  | none =>
    rw [hk] at ht
    obtain rfl : s = s1 := (Prod.mk.inj ht).2
    simpa [TargetNode.interested_of_none hk] using h
  | some k =>
    have hne : call.no.kind? ≠ none := by simp [hk]
    rw [hk] at ht
    rw [TargetNode.interested_eq hk]
    by_cases hev : tgt.events k = true
    · rw [if_pos hev]
      simp only [hev, if_true] at ht
      -- the arguments that are saved depend on the kind of the call
      cases k with
      | mmap | munmap | mprotect =>
        refine h.addMap hne (fun u => ?_) ht
        cases hno : call.no <;> simp_all [SyscallNo.kind?, Syscall.saved]
    · rw [if_neg hev]
      simp only [hev] at ht
      obtain rfl : s = s1 := (Prod.mk.inj ht).2
      exact h

/-- The entry handlers together add as many usages as there are interested targets. -/
theorem EntryHandlers.holding {ts : List τ} (hrun : EntryHandlers hash node pid call s ts s') :
    ∀ {n}, Holding hash pid call n s →
      Holding hash pid call (n + ts.countP fun t => (node t).interested call) s' := by
  induction hrun with
  | nil => exact fun h => h
  | other ho _ ih => exact fun h => ih (h.other ho)
  | @cons s s1 s' t ts ht _ ih =>
    intro n h
    have hrest := ih (h.syscallEntry ht)
    rw [countP_cons]
    rwa [show n + (ts.countP (fun t => (node t).interested call) +
      if (node t).interested call = true then 1 else 0) =
      n + (if (node t).interested call = true then 1 else 0) +
        ts.countP fun t => (node t).interested call by omega]

theorem Holding.syscallExit_zero (h : Holding hash pid call 0 s) (t : τ) :
    s.syscallExit hash t tgt pid call = ([], s) := by
  have hnone : s.getMapEntry hash pid = none := by
    simpa [MapTables.entryOf] using h.entry
  unfold MapTables.syscallExit
  rw [hnone]

/-- An exit handler that finds the entry runs what its target has, and uses the entry up. -/
theorem Holding.syscallExit_succ (h : Holding hash pid call (n + 1) s) (t : τ) (tgt : TargetNode) :
    (s.syscallExit hash t tgt pid call).1 = call.ranBy t tgt ∧
      Holding hash pid call n (s.syscallExit hash t tgt pid call).2 := by
  have hentry := h.entry
  rw [if_neg (Nat.succ_ne_zero n), MapTables.entryOf, map_eq_some_iff] at hentry
  obtain ⟨p, hp, hitem⟩ := hentry
  have hsets := h.wf.removeMapEntry_sets hp
  have hknown := h.known (Nat.succ_ne_zero n)
  unfold MapTables.syscallExit
  rw [hp]
  refine ⟨?_, hsets.wf, ?_, fun _ => hknown⟩
  · dsimp only
    rw [hitem]
    unfold Syscall.ranBy Syscall.callbackArgs Syscall.saved
    cases hno : call.no with
    | mmap | mmap2 => cases call.area <;> rfl
    | munmap | mprotect => rfl
    | other m =>
      rw [hno] at hknown
      exact absurd rfl hknown
  · rw [hsets.own, hitem]
    have husage : ∀ u, (call.saved pid u).usage = u := by
      intro u
      unfold Syscall.saved
      cases call.no <;> rfl
    have hless : ∀ u v, { call.saved pid u with usage := v } = call.saved pid v := by
      intro u v
      unfold Syscall.saved
      cases call.no <;> rfl
    rw [husage, hless]
    push_cast
    rw [add_sub_cancel_right]
    simp only [Nat.cast_eq_zero]

/-- With `n` usages left, the first `n` exit handlers run their callbacks, and no other one. -/
theorem ExitHandlers.log_eq {ts : List τ} {log : List (Ran τ)}
    (hrun : ExitHandlers hash node pid call s ts log s') :
    ∀ {n}, Holding hash pid call n s →
      log = (ts.take n).flatMap (fun t => call.ranBy t (node t)) ∧
        Holding hash pid call (n - ts.length) s' := by
  induction hrun with
  | nil => exact fun h => ⟨by simp, h⟩
  | other ho _ ih => exact fun h => ih (h.other ho)
  | @cons s s1 s' t ts log1 log ht _ ih =>
    intro n h
    cases n with
    | zero =>
      rw [h.syscallExit_zero t] at ht
      obtain ⟨rfl, rfl⟩ := Prod.mk.inj ht
      obtain ⟨hlog, hrest⟩ := ih h
      refine ⟨?_, by simpa using hrest⟩
      rw [hlog]
      simp
    | succ n =>
      obtain ⟨hran, hnext⟩ := h.syscallExit_succ t (node t)
      rw [ht] at hran hnext
      obtain ⟨hlog, hrest⟩ := ih hnext
      refine ⟨?_, ?_⟩
      · rw [take_succ_cons, flatMap_cons, ← hlog, ← hran]
      · rwa [length_cons, Nat.add_sub_add_right]

/-- When the call begins the task has no entry, and so it is when the call is over. -/
theorem CallStep.spec {attached : List τ} {e : Option (HandledCall τ)}
    (hstep : CallStep hash node pid attached s e s') (h : s.Wf hash ∧ s.entryOf hash pid = none) :
    (s'.Wf hash ∧ s'.entryOf hash pid = none) ∧ ∀ r, e = some r →
      r.exit.Perm (attached.filter fun t => (node t).isVm) ∧
      r.log = (r.exit.take (r.exit.countP fun t => (node t).interested r.call)).flatMap
        fun t => r.call.ranBy t (node t) := by
  cases hstep with
  | other ho =>
    obtain ⟨hwf, hentry⟩ := ho.entryOf_eq h.1
    exact ⟨⟨hwf, hentry.trans h.2⟩, fun r hr => by cases hr⟩
  | call r henter hexit h1 h2 =>
    have hstart : Holding hash pid r.call 0 s := ⟨h.1, by simpa using h.2, fun hn => absurd rfl hn⟩
    have hheld := h1.holding hstart
    rw [Nat.zero_add, (henter.trans hexit.symm).countP_eq] at hheld
    obtain ⟨hlog, hend⟩ := h2.log_eq hheld
    have hzero : (r.exit.countP fun t => (node t).interested r.call) - r.exit.length = 0 :=
      Nat.sub_eq_zero_of_le countP_le_length
    rw [hzero] at hend
    refine ⟨⟨hend.wf, by simpa using hend.entry⟩, fun r' hr => ?_⟩
    obtain rfl := some.inj hr
    exact ⟨hexit, hlog⟩

end OneCall

/-! ## Who is served -/

section Served

variable {τ : Type}

/-- The first handlers, as many as there are with `P`, include all with `P` only if those with `P`
come first. -/
theorem forall_mem_take_countP_iff {P : τ → Bool} {ts : List τ} (hts : ts.Nodup) :
    (∀ t ∈ ts, P t = true → t ∈ ts.take (ts.countP P)) ↔
      ts.Pairwise fun t u => P u = true → P t = true := by
  have hsplit := take_append_drop (ts.countP P) ts
  constructor
  · intro h
    -- no more handlers with `P` come later, so all of the first have `P`
    have hlater : ∀ t ∈ ts.drop (ts.countP P), ¬ P t = true := fun t ht hP =>
      disjoint_take_drop hts (Nat.le_refl _) (h t (mem_of_mem_drop ht) hP) ht
    have hfirst : ∀ t ∈ ts.take (ts.countP P), P t = true := by
      refine countP_eq_length.mp (Nat.le_antisymm countP_le_length ?_)
      have hcount := congrArg (countP P) hsplit
      rw [countP_append, countP_eq_zero.mpr hlater] at hcount
      rw [length_take]
      omega
    rw [← hsplit]
    refine pairwise_append.mpr ⟨?_, ?_, fun t ht u _ _ => hfirst t ht⟩
    · exact pairwise_of_forall_mem_list fun t ht _ _ _ => hfirst t ht
    · exact pairwise_of_forall_mem_list fun _ _ u hu hP => absurd hP (hlater u hu)
  · intro h t ht hP
    rw [← hsplit] at h ht
    by_contra hnot
    -- a handler with `P` that comes later: then all of the first have `P`, and it is one too many
    have hlate := (mem_append.mp ht).resolve_left hnot
    have hfirst := countP_eq_length.mpr fun u hu => (pairwise_append.mp h).2.2 u hu t hlate hP
    have hcount := congrArg (countP P) hsplit
    have hpos : 0 < (ts.drop (ts.countP P)).countP P := countP_pos_iff.mpr ⟨t, hlate, hP⟩
    rw [countP_append, hfirst, length_take, min_eq_left countP_le_length] at hcount
    omega

/-- What a target has run, of all that was run. -/
theorem filter_flatMap_ranBy [DecidableEq τ] (node : τ → TargetNode) (call : Syscall) (t : τ)
    {ts : List τ} (hts : ts.Nodup) :
    ((ts.flatMap fun u => call.ranBy u (node u)).filter fun x => x.tgt = t) =
      if t ∈ ts then call.ranBy t (node t) else [] := by
  have hown : ∀ u, ∀ x ∈ call.ranBy u (node u), x.tgt = u := by
    intro u x hx
    unfold Syscall.ranBy at hx
    cases hargs : call.callbackArgs with
    | none =>
      rw [hargs] at hx
      exact absurd hx not_mem_nil
    | some args =>
      rw [hargs] at hx
      obtain ⟨cb, -, rfl⟩ := mem_map.mp hx
      rfl
  exact filter_flatMap_key hown t hts

theorem callCallbacks_ne_nil {tgt : TargetNode} {call : Syscall} {args : CallbackArgs} (t : τ)
    (hargs : call.callbackArgs = some args) (h : tgt.interested call = true) :
    MapTables.callCallbacks t tgt args ≠ [] := by
  have hkind : call.no.kind? = some args.kind := by
    unfold Syscall.callbackArgs at hargs
    cases hno : call.no with
    | mmap | mmap2 =>
      rw [hno] at hargs
      obtain ⟨a, -, rfl⟩ := map_eq_some_iff.mp hargs
      rfl
    | munmap | mprotect =>
      rw [hno] at hargs
      obtain rfl := some.inj hargs
      rfl
    | other n =>
      rw [hno] at hargs
      cases hargs
  rw [TargetNode.interested_eq hkind, tgt.marked] at h
  obtain ⟨cb, hcb, hhas⟩ := any_eq_true.mp h
  exact ne_nil_of_mem (mem_map_of_mem (mem_filter.mpr ⟨hcb, hhas⟩))

end Served

/-- Whatever the task and the others did before, all targets that have callbacks for a call have run
them once with its arguments when it returns, if and only if the exit handlers of these targets
came before those of the others, and, for `mmap`, there is an area with a file to tell of. -/
theorem mapCallbacks_delivered_iff {N : Nat} {τ : Type} [DecidableEq τ]
    {hash : BitVec 32 → Fin 16} {node : τ → TargetNode} {pid : BitVec 32} {attached : List τ}
    (hattached : attached.Nodup) {es : List (Option (HandledCall τ))} {s : MapTables N}
    (h : RunsTo (CallStep hash node pid attached) MapTables.initial es s)
    (r : HandledCall τ) (hr : some r ∈ es) :
    r.Delivered node attached ↔ r.InterestedFirst node ∧ r.Told node attached := by
  have hrun : (s.Wf hash ∧ s.entryOf hash pid = none) ∧ ∀ r, some r ∈ es →
      r.exit.Perm (attached.filter fun t => (node t).isVm) ∧
      r.log = (r.exit.take (r.exit.countP fun t => (node t).interested r.call)).flatMap
        fun t => r.call.ranBy t (node t) := by
    refine h.invariant ?_ ?_
    · exact ⟨⟨MapTables.wf_initial, rfl⟩, fun r hr => absurd hr not_mem_nil⟩
    · intro es s e s' ⟨hs, hcalls⟩ hstep
      obtain ⟨hs', hcall⟩ := hstep.spec hs
      refine ⟨hs', fun r hr => ?_⟩
      rcases mem_append.mp hr with hr | hr
      · exact hcalls r hr
      · exact hcall r (mem_singleton.mp hr).symm
  obtain ⟨hexit, hlog⟩ := hrun.2 r hr
  have hnodup : r.exit.Nodup := hexit.nodup_iff.mpr (hattached.filter _)
  have hmem : ∀ t, (node t).interested r.call = true → (t ∈ r.exit ↔ t ∈ attached) := by
    intro t ht
    rw [hexit.mem_iff, mem_filter]
    exact and_iff_left (TargetNode.isVm_of_interested ht)
  have hran := fun t => filter_flatMap_ranBy node r.call t
    (hnodup.sublist (take_sublist (r.exit.countP fun t => (node t).interested r.call) r.exit))
  unfold HandledCall.InterestedFirst
  rw [← forall_mem_take_countP_iff hnodup]
  constructor
  · intro hdel
    refine ⟨fun t ht hint => ?_, fun t ht hint hnone => ?_⟩
    · obtain ⟨args, hargs, heq⟩ := hdel t ((hmem t hint).mp ht) hint
      by_contra hnot
      rw [hlog, hran t, if_neg hnot] at heq
      exact callCallbacks_ne_nil t hargs hint heq.symm
    · obtain ⟨args, hargs, -⟩ := hdel t ht hint
      rw [hnone] at hargs
      cases hargs
  · intro ⟨hfirst, htold⟩ t ht hint
    obtain ⟨args, hargs⟩ := ne_none_iff_exists'.mp (htold t ht hint)
    refine ⟨args, hargs, ?_⟩
    rw [hlog, hran t, if_pos (hfirst t ((hmem t hint).mpr ht) hint), Syscall.ranBy, hargs]

/-- Two targets that differ in what they have callbacks for: `true` for `munmap`, `false` for
`mmap`. -/
def unlikeTargets (t : Bool) : TargetNode :=
  TargetNode.addCallbacks ⟨"/bin/ls", 0, [], fun _ => false, fun _ => rfl⟩
    ⟨"/bin/ls", 0, fun k => k = if t then .munmap else .mmap⟩

/-- A call of `munmap`, with the order of the exit handlers and what they have run. -/
def munmapCall (exit : List Bool) (log : List (Ran Bool)) : HandledCall Bool :=
  ⟨⟨.munmap, 4096, 4096, 0, none⟩, [true, false], exit, log⟩

/-- The exit handlers can run in any order. -/
theorem exists_munmapCall (exit : List Bool) (hexit : exit.Perm [true, false]) :
    ∃ log, ∃ s : MapTables 1, CallStep (fun _ => 0) unlikeTargets 7 [true, false]
      MapTables.initial (some (munmapCall exit log)) s := by
  have hrun : ∀ (ts : List Bool) (s : MapTables 1), ∃ log s',
      ExitHandlers (fun _ => 0) unlikeTargets 7 (munmapCall exit []).call s ts log s' := by
    intro ts
    induction ts with
    | nil => exact fun s => ⟨[], s, .nil⟩
    | cons t ts ih =>
      intro s
      rcases heq : s.syscallExit (fun _ => 0) t (unlikeTargets t) 7 (munmapCall exit []).call with
        ⟨log1, s1⟩
      obtain ⟨log, s', h⟩ := ih s1
      exact ⟨log1 ++ log, s', .cons heq h⟩
  have henter : EntryHandlers (fun _ => 0) unlikeTargets 7 (munmapCall exit []).call
      (MapTables.initial : MapTables 1) [true, false] _ := .cons rfl (.cons rfl .nil)
  obtain ⟨log, s, h⟩ := hrun exit _
  exact ⟨log, s, .call (munmapCall exit log) (.refl _) hexit henter h⟩

/-- The interested target comes first. -/
theorem munmap_delivered : ∃ log, ∃ s : MapTables 1,
    RunsTo (CallStep (fun _ => 0) unlikeTargets 7 [true, false]) MapTables.initial
      [some (munmapCall [true, false] log)] s ∧
    (munmapCall [true, false] log).Delivered unlikeTargets [true, false] := by
  obtain ⟨log, s, hstep⟩ := exists_munmapCall [true, false] (.refl _)
  refine ⟨log, s, .step .start hstep, ?_⟩
  refine (mapCallbacks_delivered_iff (by decide) (.step .start hstep) _ (by simp)).mpr ⟨?_, ?_⟩
  · simp [HandledCall.InterestedFirst, munmapCall, unlikeTargets, TargetNode.interested,
      TargetNode.addCallbacks, SyscallNo.kind?]
  · simp [HandledCall.Told, munmapCall, Syscall.callbackArgs]

/-- The target without callbacks for `munmap` comes first, and takes the entry away. -/
theorem munmap_lost : ∃ log, ∃ s : MapTables 1,
    RunsTo (CallStep (fun _ => 0) unlikeTargets 7 [true, false]) MapTables.initial
      [some (munmapCall [false, true] log)] s ∧
    ¬ (munmapCall [false, true] log).Delivered unlikeTargets [true, false] := by
  obtain ⟨log, s, hstep⟩ := exists_munmapCall [false, true] (.swap _ _ _)
  refine ⟨log, s, .step .start hstep, fun hdel => ?_⟩
  have hint : (unlikeTargets true).interested (munmapCall [false, true] log).call = true := rfl
  obtain ⟨args, hargs, heq⟩ := hdel true (by decide) hint
  obtain ⟨-, hlog⟩ := (hstep.spec ⟨MapTables.wf_initial, rfl⟩).2 _ rfl
  rw [hlog] at heq
  exact callCallbacks_ne_nil true hargs hint heq.symm

end Systemtap.Runtime
