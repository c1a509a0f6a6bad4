import Systemtap.Lib.Slots
import Systemtap.Tree.Syntax

/-!
# The control channel

Messages to the user go through `_stp_ctl_write`, which takes a buffer from the pool, fills it and
puts it at the end of the ready list, and `_stp_ctl_read_cmd`, which takes the first buffer from
the ready list, copies it to the user and gives it back to the pool. The pool and the ready list
have a lock each; what happens under a lock is one step, and any number of threads can be
between two steps. With `procfs`, `_stp_ctl_write_fs` can add the data to the last buffer of the
ready list instead.

If the user's buffer is too small or `copy_to_user` fails, the read returns with the buffer off the
list, and neither the message nor the buffer is ever seen again.

Lengths are taken to be far below the range of `unsigned`.
-/

namespace Systemtap.Runtime

open Systemtap.Tree Lib Function List

/-! ## The code -/

/-- A message, or what a `struct _stp_buffer` has in it. -/
structure CtlMsg where
  type : Int
  data : Str

/-- `STP_REALTIME_DATA` -/
def realtimeData : Int := 12

/-- Where a thread is. -/
inductive CtlCall (N : Nat) where
  | idle
  /-- In `_stp_ctl_write`, behind `_stp_ctl_write_fs`. -/
  | writing (m : CtlMsg)
  /-- In `_stp_ctl_write`, with a buffer from the pool. -/
  | filling (p : Fin N) (m : CtlMsg)
  /-- In `_stp_ctl_read_cmd`, with a buffer from the ready list; it is the `k`-th one that was
  taken from there. -/
  | copying (p : Fin N) (count : Nat) (k : Nat)
  /-- In `_stp_ctl_read_cmd`, after the copy. -/
  | freeing (p : Fin N)

/-- What has become of a buffer that was taken from the ready list. -/
inductive Fate where
  | pending
  | delivered
  | failed
deriving DecidableEq

/-- A buffer that was taken from the ready list, and the messages that were written to it. -/
structure Taken where
  sent : CtlMsg
  msgs : List CtlMsg
  fate : Fate

/-- The pool and the ready list with `N` buffers, and the threads. The last four fields are
history: the messages that are in each buffer, all messages that were queued, the buffers that
were taken from the ready list, and those that have been dropped. -/
structure Ctl (N : Nat) (τ : Type) where
  freeList : List (Fin N)
  ready : List (Fin N)
  buffers : Fin N → CtlMsg
  call : τ → CtlCall N
  inside : Fin N → List CtlMsg
  queued : List CtlMsg
  taken : List Taken
  lost : List (Fin N)

/-- What a step shows. -/
inductive CtlEvent (τ : Type) where
  | queued (t : τ) (m : CtlMsg)
  | delivered (t : τ) (m : CtlMsg)
  | failed (t : τ)
  | other

/-- The build: whether `_stp_ctl_write_fs` is the one of `procfs`, and `STP_CTL_BUFFER_SIZE`. -/
structure CtlBuild where
  aggregates : Bool
  bufferSize : Nat

namespace Ctl

variable {N : Nat} {τ : Type} [DecidableEq τ]

def initial : Ctl N τ where
  freeList := (List.finRange N).reverse
  ready := []
  buffers _ := ⟨0, []⟩
  call _ := .idle
  inside _ := []
  queued := []
  taken := []
  lost := []

def setCall (s : Ctl N τ) (t : τ) (c : CtlCall N) : Ctl N τ :=
  { s with call := Function.update s.call t c }

/-- `_stp_ctl_write_fs` adds the data to the buffer `p`. -/
def Appends (b : CtlBuild) (s : Ctl N τ) (m : CtlMsg) (p : Fin N) : Prop :=
  b.aggregates = true ∧ s.ready.getLast? = some p ∧
    (s.buffers p).data.length + m.data.length ≤ b.bufferSize ∧ m.type = realtimeData ∧
    (s.buffers p).type = realtimeData ∧ 0 < m.data.length

def append (s : Ctl N τ) (m : CtlMsg) (p : Fin N) : Ctl N τ :=
  { s with
    buffers := Function.update s.buffers p ⟨(s.buffers p).type, (s.buffers p).data ++ m.data⟩
    inside := Function.update s.inside p (s.inside p ++ [m])
    queued := s.queued ++ [m] }

def alloc (s : Ctl N τ) (t : τ) (m : CtlMsg) (p : Fin N) (free : List (Fin N)) : Ctl N τ :=
  { s.setCall t (.filling p m) with freeList := free }

def enqueue (s : Ctl N τ) (t : τ) (m : CtlMsg) (p : Fin N) : Ctl N τ :=
  { s.setCall t .idle with
    buffers := Function.update s.buffers p m
    ready := s.ready ++ [p]
    inside := Function.update s.inside p [m]
    queued := s.queued ++ [m] }

def dequeue (s : Ctl N τ) (t : τ) (count : Nat) (p : Fin N) (ready : List (Fin N)) : Ctl N τ :=
  { s.setCall t (.copying p count s.taken.length) with
    ready := ready
    taken := s.taken ++ [⟨s.buffers p, s.inside p, .pending⟩] }

def setFate (taken : List Taken) (k : Nat) (fate : Fate) : List Taken :=
  taken.modify k fun x => { x with fate := fate }

/-- The read returns without giving the buffer back. -/
def drop (s : Ctl N τ) (t : τ) (p : Fin N) (k : Nat) : Ctl N τ :=
  { s.setCall t .idle with taken := setFate s.taken k .failed, lost := p :: s.lost }

def deliver (s : Ctl N τ) (t : τ) (p : Fin N) (k : Nat) : Ctl N τ :=
  { s.setCall t (.freeing p) with taken := setFate s.taken k .delivered }

def free (s : Ctl N τ) (t : τ) (p : Fin N) : Ctl N τ :=
  { s.setCall t .idle with freeList := p :: s.freeList }

/-- `len > count || copy_to_user (..)` -/
def CopyFails (s : Ctl N τ) (p : Fin N) (count : Nat) (fault : Bool) : Prop :=
  count < (s.buffers p).data.length + 4 ∨ fault = true

/-- One step of a thread. -/
inductive Step (b : CtlBuild) : Ctl N τ → CtlEvent τ → Ctl N τ → Prop
  | append {s t m p} (ht : s.call t = .idle) (hm : s.Appends b m p) :
      Step b s (.queued t m) (s.append m p)
  | write {s t m} (ht : s.call t = .idle) (hm : ∀ p, ¬ s.Appends b m p) :
      Step b s .other (s.setCall t (.writing m))
  /-- `return 0` -/
  | tooLong {s t m} (ht : s.call t = .writing m) (hm : b.bufferSize < m.data.length) :
      Step b s .other (s.setCall t .idle)
  /-- `return -ENOMEM` -/
  | noMemory {s t m} (ht : s.call t = .writing m) (hm : m.data.length ≤ b.bufferSize)
      (hfree : s.freeList = []) : Step b s .other (s.setCall t .idle)
  | alloc {s t m p free} (ht : s.call t = .writing m) (hm : m.data.length ≤ b.bufferSize)
      (hfree : s.freeList = p :: free) : Step b s .other (s.alloc t m p free)
  | enqueue {s t m p} (ht : s.call t = .filling p m) : Step b s (.queued t m) (s.enqueue t m p)
  /-- `return -EAGAIN`, or wait -/
  | again {s t} (ht : s.call t = .idle) (hready : s.ready = []) : Step b s .other s
  | dequeue {s t count p ready} (ht : s.call t = .idle) (hready : s.ready = p :: ready) :
      Step b s .other (s.dequeue t count p ready)
  /-- `return -EFAULT` -/
  | fail {s t p count k fault} (ht : s.call t = .copying p count k)
      (hfail : s.CopyFails p count fault) : Step b s (.failed t) (s.drop t p k)
  | deliver {s t p count k fault} (ht : s.call t = .copying p count k)
      (hfail : ¬ s.CopyFails p count fault) :
      Step b s (.delivered t (s.buffers p)) (s.deliver t p k)
  | free {s t p} (ht : s.call t = .freeing p) : Step b s .other (s.free t p)

/-- The runs from the start, with what they have shown. -/
inductive Runs (b : CtlBuild) : List (CtlEvent τ) → Ctl N τ → Prop
  | start : Runs b [] initial
  | step {es s e s'} (h : Runs b es s) (hs : Step b s e s') : Runs b (es ++ [e]) s'

/-! ## What it is for -/

/-- The bytes and the type of the messages. -/
def Carries (m : CtlMsg) (ms : List CtlMsg) : Prop :=
  m.data = ms.flatMap CtlMsg.data ∧ ∀ x ∈ ms, x.type = m.type

/-- All messages that were queued have gone, in their order, to the reads that have not failed, in
the order in which they took them, or are still in the ready list. -/
structure InOrder (s : Ctl N τ) : Prop where
  fifo : ((s.taken.filter fun x => x.fate ≠ .failed).flatMap Taken.msgs) ++
    s.ready.flatMap s.inside = s.queued
  sent : ∀ x ∈ s.taken, Carries x.sent x.msgs

/-- No buffer is lost. -/
def Conserved (s : Ctl N τ) : Prop :=
  (∀ t, s.call t = .idle) → s.freeList.length + s.ready.length = N

/-! ## Where the buffers are -/

end Ctl

/-- The lists that a buffer can be in, if it is not in the hands of a thread. -/
inductive CtlList where
  | free
  | ready
  | lost
deriving DecidableEq

def CtlCall.held {N : Nat} : CtlCall N → List (Fin N)
  | .idle | .writing _ => []
  | .filling p _ | .copying p _ _ | .freeing p => [p]

namespace Ctl

variable {N : Nat} {τ : Type} [DecidableEq τ]

def place (s : Ctl N τ) : CtlList ⊕ τ → List (Fin N)
  | .inl .free => s.freeList
  | .inl .ready => s.ready
  | .inl .lost => s.lost
  | .inr t => (s.call t).held

section Placed

variable {b : CtlBuild} {s s' : Ctl N τ} {e : CtlEvent τ}

omit [DecidableEq τ] in
theorem placed_initial : Placed (initial : Ctl N τ).place := by
  refine ⟨fun k => ?_, fun p => ⟨.inl .free, ?_, fun k hk => ?_⟩⟩
  · rcases k with l | t
    · cases l with
      | free => exact nodup_reverse.mpr (nodup_finRange N)
      | ready | lost => exact nodup_nil
    · exact nodup_nil
  · exact mem_reverse.mpr (mem_finRange p)
  · rcases k with l | t
    · cases l with
      | free => rfl
      | ready | lost => exact absurd hk not_mem_nil
    · exact absurd hk not_mem_nil

attribute [local simp] place CtlCall.held setCall append alloc enqueue dequeue drop deliver Ctl.free update_apply

/-- A thread takes a buffer from a list or puts it into one, or goes on with what it has. -/
theorem Step.placed (hs : Step b s e s') (h : Placed s.place) : Placed s'.place := by
  cases hs with
  | append | again => exact h
  | @write t m ht | @tooLong t m ht | @noMemory t m ht | @deliver t p count k fault ht =>
    convert h using 1
    funext k
    rcases k with (_ | _ | _) | u <;> simp
    grind
  | @alloc t m p free ht hm hfree =>
    refine h.move (p := p) (.inl .free) (.inr t) Sum.inl_ne_inr (by simp [hfree]) (by simp [hfree]) (by simp [ht]) ?_
    rintro ((_ | _ | _) | u) <;> simp +contextual
  | @dequeue t count p ready ht hready =>
    refine h.move (p := p) (.inl .ready) (.inr t) Sum.inl_ne_inr (by simp [hready]) (by simp [hready]) (by simp [ht]) ?_
    rintro ((_ | _ | _) | u) <;> simp +contextual
  | @enqueue t m p ht =>
    refine h.move (p := p) (.inr t) (.inl .ready) Sum.inr_ne_inl (by simp [ht]) (by simp [ht]) (by simp) ?_
    rintro ((_ | _ | _) | u) <;> simp +contextual
  | @fail t p count k fault ht =>
    refine h.move (p := p) (.inr t) (.inl .lost) Sum.inr_ne_inl (by simp [ht]) (by simp [ht]) (by simp) ?_
    rintro ((_ | _ | _) | u) <;> simp +contextual
  | @free t p ht =>
    refine h.move (p := p) (.inr t) (.inl .free) Sum.inr_ne_inl (by simp [ht]) (by simp [ht]) (by simp) ?_
    rintro ((_ | _ | _) | u) <;> simp +contextual

end Placed

/-! ## What is in them -/

section Content

variable {b : CtlBuild} {s s' : Ctl N τ} {e : CtlEvent τ}

/-- The messages that were queued are those of the buffers that were taken and of the ready list. -/
structure Content (s : Ctl N τ) : Prop where
  fifo : s.taken.flatMap Taken.msgs ++ s.ready.flatMap s.inside = s.queued
  ready : ∀ p ∈ s.ready, s.inside p ≠ [] ∧ Carries (s.buffers p) (s.inside p)
  taken : ∀ x ∈ s.taken, x.msgs ≠ [] ∧ Carries x.sent x.msgs

omit [DecidableEq τ] in
theorem content_initial : Content (initial : Ctl N τ) where
  fifo := rfl
  ready _ hp := absurd hp not_mem_nil
  taken _ hx := absurd hx not_mem_nil

theorem getElem?_setFate (taken : List Taken) (k i : Nat) (fate : Fate) :
    (setFate taken k fate)[i]? =
      taken[i]?.map fun x => if k = i then { x with fate := fate } else x :=
  List.getElem?_modify ..

theorem map_setFate {β : Type} {f : Taken → β} (hf : ∀ x fate, f { x with fate := fate } = f x) (taken : List Taken)
    (k : Nat) (fate : Fate) : (setFate taken k fate).map f = taken.map f := by
  refine ext_getElem? fun i => ?_
  rw [List.getElem?_map, List.getElem?_map, getElem?_setFate]
  cases taken[i]? with
  | none => rfl
  | some x => by_cases hk : k = i <;> simp [hk, hf]

theorem map_fate_setFate (taken : List Taken) (k : Nat) (fate : Fate) :
    (setFate taken k fate).map Taken.fate = (taken.map Taken.fate).set k fate := by
  refine ext_getElem? fun i => ?_
  rw [List.getElem?_map, getElem?_setFate, List.getElem?_set]
  by_cases hk : k = i <;> cases hi : taken[i]? <;> grind

variable {p : Fin N}

/-- A buffer that is not in the ready list can be written. -/
theorem flatMap_update_of_notMem {l : List (Fin N)} (hp : p ∉ l) (inside : Fin N → List CtlMsg)
    (ms : List CtlMsg) : l.flatMap (update inside p ms) = l.flatMap inside := by
  refine flatMap_congr fun q hq => ?_
  have hne : q ≠ p := fun heq => hp (heq ▸ hq)
  exact update_of_ne hne _ _

theorem Carries.append {m x : CtlMsg} {ms : List CtlMsg} (h : Carries m ms) (hx : x.type = m.type) :
    Carries ⟨m.type, m.data ++ x.data⟩ (ms ++ [x]) := by
  refine ⟨?_, fun y hy => ?_⟩
  · rw [flatMap_append, ← h.1, flatMap_singleton]
  · rcases mem_append.mp hy with hy | hy
    · exact h.2 y hy
    · rw [mem_singleton.mp hy]
      exact hx

omit [DecidableEq τ] in
theorem Content.append (h : Content s) (hnodup : s.ready.Nodup) {m : CtlMsg}
    (hm : s.Appends b m p) : Content (s.append m p) := by
  obtain ⟨-, hlast, -, htype, htype', -⟩ := hm
  obtain ⟨rest, hrest⟩ := getLast?_eq_some_iff.mp hlast
  have hp : p ∉ rest := by
    rw [hrest] at hnodup
    exact fun hp => (nodup_append.mp hnodup).2.2 p hp p (mem_singleton_self p) rfl
  refine ⟨?_, fun q hq => ?_, h.taken⟩
  · change s.taken.flatMap Taken.msgs ++
      s.ready.flatMap (update s.inside p (s.inside p ++ [m])) = s.queued ++ [m]
    rw [← h.fifo, hrest, flatMap_append, flatMap_append, flatMap_update_of_notMem hp,
      flatMap_singleton, flatMap_singleton, update_self]
    simp only [append_assoc]
  · change update s.inside p (s.inside p ++ [m]) q ≠ [] ∧
      Carries (update s.buffers p ⟨(s.buffers p).type, (s.buffers p).data ++ m.data⟩ q)
        (update s.inside p (s.inside p ++ [m]) q)
    by_cases hqp : q = p
    · subst hqp
      rw [update_self, update_self]
      exact ⟨append_ne_nil_of_right_ne_nil _ (cons_ne_nil _ _),
        (h.ready q hq).2.append (htype.trans htype'.symm)⟩
    · rw [update_of_ne hqp, update_of_ne hqp]
      exact h.ready q hq

theorem Content.enqueue (h : Content s) {t : τ} {m : CtlMsg} (hp : p ∉ s.ready) :
    Content (s.enqueue t m p) := by
  refine ⟨?_, fun q hq => ?_, h.taken⟩
  · change s.taken.flatMap Taken.msgs ++ (s.ready ++ [p]).flatMap (update s.inside p [m]) =
      s.queued ++ [m]
    rw [← h.fifo, flatMap_append, flatMap_update_of_notMem hp, flatMap_singleton,
      update_self, append_assoc]
  · change update s.inside p [m] q ≠ [] ∧
      Carries (update s.buffers p m q) (update s.inside p [m] q)
    by_cases hqp : q = p
    · subst hqp
      rw [update_self, update_self]
      refine ⟨cons_ne_nil _ _, (flatMap_singleton ..).symm, fun x hx => ?_⟩
      rw [mem_singleton.mp hx]
    · rw [update_of_ne hqp, update_of_ne hqp]
      refine h.ready q ((mem_append.mp hq).resolve_right fun hq' => ?_)
      exact hqp (mem_singleton.mp hq')

theorem Content.dequeue (h : Content s) {t : τ} {count : Nat} {ready : List (Fin N)}
    (hready : s.ready = p :: ready) : Content (s.dequeue t count p ready) := by
  have hp := h.ready p (hready ▸ mem_cons_self)
  refine ⟨?_, fun q hq => h.ready q (hready ▸ mem_cons_of_mem p hq), fun x hx => ?_⟩
  · change (s.taken ++ [(⟨s.buffers p, s.inside p, .pending⟩ : Taken)]).flatMap Taken.msgs ++
      ready.flatMap s.inside = s.queued
    rw [← h.fifo, hready, flatMap_append, flatMap_singleton, flatMap_cons,
      append_assoc]
  · rcases mem_append.mp hx with hx | hx
    · exact h.taken x hx
    · rw [mem_singleton.mp hx]
      exact hp

omit [DecidableEq τ] in
/-- What becomes of a read does not change what it took. -/
theorem Content.setFate (h : Content s) {k : Nat} {fate : Fate}
    (hsame : s'.ready = s.ready ∧ s'.inside = s.inside ∧ s'.buffers = s.buffers ∧
      s'.queued = s.queued) (htaken : s'.taken = Ctl.setFate s.taken k fate) : Content s' := by
  obtain ⟨hready, hinside, hbuffers, hqueued⟩ := hsame
  refine ⟨?_, ?_, ?_⟩
  · rw [htaken, hready, hinside, hqueued, flatMap_def, map_setFate fun _ _ => rfl, ← flatMap_def]
    exact h.fifo
  · rw [hready, hinside, hbuffers]
    exact h.ready
  · have hsent := map_setFate (f := fun x => (x.sent, x.msgs)) (fun _ _ => rfl) s.taken k fate
    rw [htaken]
    intro x hx
    obtain ⟨y, hy, hyx⟩ := mem_map.mp (hsent ▸ mem_map_of_mem hx)
    obtain ⟨hy1, hy2⟩ := Prod.mk.inj hyx
    rw [← hy1, ← hy2]
    exact h.taken y hy

theorem Step.content (hs : Step b s e s') (hplaced : Placed s.place) (h : Content s) :
    Content s' := by
  cases hs with
  | append ht hm => exact h.append (hplaced.nodup (.inl .ready)) hm
  | write ht hm | tooLong ht hm | noMemory ht hm hfree | alloc ht hm hfree | free ht =>
    exact ⟨h.fifo, h.ready, h.taken⟩
  | @enqueue t m p ht =>
    have hp : p ∈ s.place (.inr t) := by
      change p ∈ (s.call t).held
      rw [ht]
      exact mem_singleton_self p
    have hnot : p ∉ s.place (.inl .ready) := hplaced.notMem hp Sum.inl_ne_inr
    exact h.enqueue hnot
  | again ht hready => exact h
  | dequeue ht hready => exact h.dequeue hready
  | fail ht hfail | deliver ht hfail => exact h.setFate ⟨rfl, rfl, rfl, rfl⟩ rfl

end Content

/-! ## What becomes of a read -/

section Reads

variable {b : CtlBuild} {s s' : Ctl N τ} {e : CtlEvent τ}

/-- A read that is going on has its own place among those that took a buffer, and buffers are
lost by failed reads only. -/
structure Reads (s : Ctl N τ) : Prop where
  pending : ∀ t p count k, s.call t = .copying p count k → (s.taken.map Taken.fate)[k]? = some .pending
  apart : ∀ t u p q count count' k, s.call t = .copying p count k →
    s.call u = .copying q count' k → t = u
  lost : s.lost = [] ↔ .failed ∉ s.taken.map Taken.fate

omit [DecidableEq τ] in
theorem reads_initial : Reads (initial : Ctl N τ) where
  pending _ _ _ _ h := by cases h
  apart _ _ _ _ _ _ _ h := by cases h
  lost := iff_of_true rfl not_mem_nil

theorem Step.reads (hs : Step b s e s') (h : Reads s) : Reads s' := by
  obtain ⟨pending, apart, lost⟩ := h
  have hlt : ∀ u q count' k, s.call u = .copying q count' k → k < (s.taken.map Taken.fate).length :=
    fun u q count' k hu => (List.getElem?_eq_some_iff.mp (pending u q count' k hu)).1
  cases hs with
  | append | again => exact ⟨pending, apart, lost⟩
  | write | tooLong | noMemory | alloc | enqueue | free =>
    refine ⟨?_, ?_, lost⟩ <;> simp only [setCall, Ctl.alloc, Ctl.enqueue, Ctl.free, update_apply] <;> grind
  | @dequeue t count p ready ht hready =>
    -- the new read comes behind all others
    refine ⟨?_, ?_, ?_⟩ <;> simp only [setCall, Ctl.dequeue, update_apply, map_append, map_singleton]
    · grind
    · grind
    · grind
  | @fail t p count k fault ht hfail =>
    have hk := hlt t p count k ht
    refine ⟨?_, ?_, ?_⟩ <;> simp only [setCall, Ctl.drop, update_apply, map_fate_setFate]
    · grind
    · grind
    · exact iff_of_false (cons_ne_nil _ _) (not_not.mpr (mem_set hk _))
  | @deliver t p count k fault ht hfail =>
    have hk := pending t p count k ht
    refine ⟨?_, ?_, ?_⟩ <;> simp only [setCall, Ctl.deliver, update_apply, map_fate_setFate]
    · grind
    · grind
    · rw [lost, mem_iff_getElem?, mem_iff_getElem?]
      refine not_congr (exists_congr fun i => ?_)
      grind

/-- A buffer is lost exactly by a read that fails. -/
theorem Step.lost_eq_nil_iff (hs : Step b s e s') :
    s'.lost = [] ↔ s.lost = [] ∧ ∀ t, e ≠ .failed t := by
  cases hs with
  | fail ht hfail => exact iff_of_false (cons_ne_nil _ _) fun hnot => hnot.2 _ rfl
  | append | write | tooLong | noMemory | alloc | enqueue | again | dequeue | deliver | free =>
    refine ⟨fun hlost => ⟨hlost, fun t heq => ?_⟩, fun hlost => hlost.1⟩
    cases heq

end Reads

/-! ## Runs -/

section Runs

variable {b : CtlBuild} {es : List (CtlEvent τ)} {s : Ctl N τ}

theorem Runs.invariants (h : Runs b es s) : Placed s.place ∧ Content s ∧ Reads s := by
  induction h with
  | start => exact ⟨placed_initial, content_initial, reads_initial⟩
  | step h hs ih => exact ⟨hs.placed ih.1, hs.content ih.1 ih.2.1, hs.reads ih.2.2⟩

theorem Runs.lost_eq_nil_iff (h : Runs b es s) : s.lost = [] ↔ ∀ t, .failed t ∉ es := by
  induction h with
  | start => exact iff_of_true rfl fun t ht => absurd ht not_mem_nil
  | step h hs ih =>
    rw [hs.lost_eq_nil_iff, ih]
    constructor
    · rintro ⟨hbefore, hnow⟩ t ht
      rcases mem_append.mp ht with ht | ht
      · exact hbefore t ht
      · exact hnow t (mem_singleton.mp ht).symm
    · intro hall
      refine ⟨fun t ht => hall t (mem_append_left _ ht), fun t heq => hall t ?_⟩
      exact mem_append_right _ (heq ▸ mem_singleton_self _)

/-- With no thread in a call, the buffers are in the three lists. -/
theorem length_of_idle (h : Placed s.place) (hidle : ∀ t, s.call t = .idle) :
    s.freeList.length + s.ready.length + s.lost.length = N := by
  have hsum := h.sum_length (S := {.inl .free, .inl .ready, .inl .lost}) fun k hk => by
    rcases k with l | t
    · cases l <;> simp at hk
    · change (s.call t).held = []
      rw [hidle t]
      rfl
  simpa [place, add_assoc] using hsum

/-- The channel delivers what is queued, in order, and keeps its buffers, exactly if no read has
failed. -/
theorem control_right_iff (h : Runs b es s) : (InOrder s ∧ Conserved s) ↔ ∀ t, .failed t ∉ es := by
  obtain ⟨hplaced, hcontent, hreads⟩ := h.invariants
  rw [← h.lost_eq_nil_iff]
  constructor
  · rintro ⟨hinOrder, -⟩
    refine hreads.lost.mpr fun hmem => ?_
    obtain ⟨x, hx, hfailed⟩ := mem_map.mp hmem
    -- what was taken by the failed reads would be missing
    have hall := ((filter_append_perm (fun x => decide (x.fate ≠ .failed)) s.taken).flatMap_right Taken.msgs).length_eq
    have heq := congrArg length (hinOrder.fifo.trans hcontent.fifo.symm)
    rw [flatMap_append, length_append] at hall
    rw [length_append, length_append] at heq
    have hnil := length_eq_zero_iff.mp (Nat.add_eq_left.mp (hall.trans (by omega)))
    exact (hcontent.taken x hx).1 (flatMap_eq_nil_iff.mp hnil x (mem_filter.mpr ⟨hx, by simp [hfailed]⟩))
  · intro hlost
    refine ⟨⟨?_, fun x hx => (hcontent.taken x hx).2⟩, fun hidle => ?_⟩
    · have hnone : ∀ x ∈ s.taken, x.fate ≠ .failed :=
        fun x hx hfailed => hreads.lost.mp hlost (hfailed ▸ mem_map_of_mem hx)
      rw [filter_eq_self.mpr fun x hx => decide_eq_true (hnone x hx)]
      exact hcontent.fifo
    · have hlength := length_of_idle hplaced hidle
      rwa [hlost, length_nil, Nat.add_zero] at hlength

end Runs

/-! ## A message, written and read -/

/-- One message is written, and a read takes it. -/
def oneTaken (m : CtlMsg) (count : Nat) : Ctl 1 Unit :=
  (((initial.setCall () (.writing m)).alloc () m (Fin.last 0) []).enqueue () m (Fin.last 0)).dequeue
    () count (Fin.last 0) []

theorem runs_oneTaken {b : CtlBuild} {m : CtlMsg} (hm : m.data.length ≤ b.bufferSize) (count : Nat) :
    Runs b [.other, .other, .queued () m, .other] (oneTaken m count) := by
  have hwrite : ∀ p : Fin 1, ¬ (initial : Ctl 1 Unit).Appends b m p := by
    rintro p ⟨-, hlast, -⟩
    cases hlast
  exact (((Runs.start.step (.write rfl hwrite)).step (.alloc rfl hm rfl)).step (.enqueue rfl)).step
    (.dequeue rfl rfl)

theorem control_right_oneMessage :
    let s : Ctl 1 Unit := ((oneTaken ⟨1, []⟩ 4).deliver () (Fin.last 0) 0).free () (Fin.last 0)
    InOrder s ∧ Conserved s := by
  have hcopy : ¬ (oneTaken ⟨1, []⟩ 4).CopyFails (Fin.last 0) 4 false := by
    rintro (hlt | hfault)
    · exact absurd hlt (Nat.lt_irrefl 4)
    · cases hfault
  have hruns : Runs ⟨false, 0⟩ [.other, .other, .queued () ⟨1, []⟩, .other,
      .delivered () ⟨1, []⟩, .other]
      (((oneTaken ⟨1, []⟩ 4).deliver () (Fin.last 0) 0).free () (Fin.last 0)) :=
    ((runs_oneTaken (m := ⟨1, []⟩) (Nat.le_refl 0) 4).step (.deliver rfl hcopy)).step (.free rfl)
  refine (control_right_iff hruns).mpr fun t ht => ?_
  simp at ht

/-- A message of no bytes needs four bytes in the user's buffer. With three, the read returns
`-EFAULT`: the message is neither delivered nor in the ready list, and the pool of one buffer has
none left. -/
theorem control_wrong_of_short_read :
    ∃ (es : List (CtlEvent Unit)) (s : Ctl 1 Unit), Runs ⟨false, 0⟩ es s ∧
      (∀ t, s.call t = .idle) ∧ ¬ InOrder s ∧ ¬ Conserved s := by
  have hfail : (oneTaken ⟨1, []⟩ 3).CopyFails (Fin.last 0) 3 false := .inl (Nat.lt_succ_self 3)
  have hruns := (runs_oneTaken (b := ⟨false, 0⟩) (m := ⟨1, []⟩) (Nat.le_refl 0) 3).step
    (.fail (t := ()) (k := 0) rfl hfail)
  refine ⟨_, _, hruns, fun t => rfl, ?_, ?_⟩
  · intro h
    have hlength := congrArg length h.fifo
    exact absurd hlength (by decide)
  · intro h
    exact absurd (h fun t => rfl) (by decide)

end Ctl

end Systemtap.Runtime
