import Systemtap.Lib.RwLock
import Systemtap.Tree.Roles
import Systemtap.Sem.Access

/-!
# Global locks

`c_unparser::emit_lock_decls` gives each probe handler a table of the locks it
takes, and `stp_lock_probe` of the runtime takes them, with a bounded number of
attempts, before the body runs. Here both are put together: the tables, from
the uses that `varuse_collecting_visitor` notes, and the steps of any number of
threads that run handlers and share the locks.

The table is not simply "write lock what is written, read lock what is read".
For statistics the two are swapped, because `<<<` works on the copy of its own
processor and a look at the value gathers all copies; and a variable that no
handler under locks writes is not locked to be read.
-/

namespace Systemtap.Trans

open Systemtap.Tree Lib Sem Function List Option

/-! ## The tables -/

/-- `struct stp_probe_lock`: the lock of a global, and how it is taken. -/
@[ext] structure ProbeLock where
  lock : Nat
  writeP : Bool
deriving DecidableEq, Repr

/-- `read_p` and `write_p` after the swap for statistics. -/
def flipStats (type : ExpType) (readP writeP : Bool) : Bool × Bool :=
  if type = .stats then
    if writeP && !readP then (true, false)
    else if readP && !writeP then (false, true)
    else (readP, writeP)
  else (readP, writeP)

/-- How a handler locks a global, if it does. `shared` says whether some handler
under locks writes it. -/
def lockDecl (type : ExpType) (readP writeP shared : Bool) : Option Bool :=
  if !readP && !writeP then none
  else
    let (readP, writeP) := flipStats type readP writeP
    if readP && !writeP && !shared then none else some writeP

/-- `c_unparser::emit_lock_decls`. -/
def emitLockDecls (sess : Session) (vcvNeedsGlobalLocks vut : List Use) : List ProbeLock :=
  sess.globals.zipIdx.filterMap fun (v, i) =>
    (lockDecl v.type (.read (.global i) ∈ vut) (.write (.global i) ∈ vut)
      (.write (.global i) ∈ vcvNeedsGlobalLocks)).map (ProbeLock.mk i)

/-- What the visitor notes in the body of a probe. -/
def bodyUses (sess : Session) (i : Nat) : List Use :=
  match sess.probes[i]? with
  | some p => p.body.uses
  | none => []

/-- `vcv_needs_global_locks`: one visitor over the bodies of all probes that need
locks. -/
def vcvNeedsGlobalLocks (sess : Session) (needs : Nat → Bool) : List Use :=
  sess.varuse ((List.range sess.probes.length).flatMap fun i =>
    if needs i then bodyUses sess i else [])

/-- The table of a probe; one that needs no locks has none. -/
def lockTable (sess : Session) (needs : Nat → Bool) (i : Nat) : List ProbeLock :=
  if needs i then
    emitLockDecls sess (vcvNeedsGlobalLocks sess needs) (sess.varuse (bodyUses sess i))
  else []

section Tables

variable {sess : Session} {needs : Nat → Bool}

theorem mem_emitLockDecls {vcv vut : List Use} {v : Nat} {d : Vardecl} {w : Bool}
    (hd : sess.globals[v]? = some d)
    (h : lockDecl d.type (.read (.global v) ∈ vut) (.write (.global v) ∈ vut)
      (.write (.global v) ∈ vcv) = some w) :
    ⟨v, w⟩ ∈ emitLockDecls sess vcv vut := by
  refine mem_filterMap.mpr ⟨(d, v), mk_mem_zipIdx_iff_getElem?.mpr hd, ?_⟩
  simp only [h, map_some]

/-- Each lock stands once in a table, in the order of the globals. -/
theorem emitLockDecls_nodup (sess : Session) (vcv vut : List Use) :
    ((emitLockDecls sess vcv vut).map ProbeLock.lock).Nodup := by
  have hsub : ((emitLockDecls sess vcv vut).map ProbeLock.lock).Sublist
      (sess.globals.zipIdx.map Prod.snd) := by
    unfold emitLockDecls
    induction sess.globals.zipIdx with
    | nil => exact List.Sublist.slnil
    | cons x xs ih =>
      rw [filterMap_cons]
      split
      next => exact ih.cons _
      next e he =>
        obtain ⟨w, -, rfl⟩ := map_eq_some_iff.mp he
        exact ih.cons_cons _
  refine hsub.nodup ?_
  rw [zipIdx_map_snd]
  exact nodup_range'

theorem lockTable_nodup (sess : Session) (needs : Nat → Bool) (i : Nat) :
    ((lockTable sess needs i).map ProbeLock.lock).Nodup := by
  unfold lockTable
  split
  · exact emitLockDecls_nodup _ _ _
  · exact nodup_nil

theorem bodyUses_eq {i : Nat} {p : Probe} (hp : sess.probes[i]? = some p) :
    bodyUses sess i = p.body.uses := by
  unfold bodyUses
  rw [hp]

/-- What one probe under locks uses is part of what they all use. -/
theorem varuse_subset_vcv {i : Nat} {p : Probe} (hp : sess.probes[i]? = some p)
    (hi : needs i = true) : sess.varuse p.body.uses ⊆ vcvNeedsGlobalLocks sess needs := by
  obtain ⟨hstart, hclosed⟩ := sess.varuse_spec ((range sess.probes.length).flatMap fun i =>
    if needs i then bodyUses sess i else [])
  refine sess.varuse_subset (fun u hu => hstart ?_) hclosed
  have hlt : i < sess.probes.length := (List.getElem?_eq_some_iff.mp hp).1
  refine mem_flatMap.mpr ⟨i, mem_range.mpr hlt, ?_⟩
  rw [if_pos hi, bodyUses_eq hp]
  exact hu

/-- A statistic is locked for writing by whoever looks at it. -/
theorem lockDecl_stats {readP writeP shared : Bool} (hused : (readP || writeP) = true)
    (hshared : writeP = true → shared = true) :
    lockDecl .stats readP writeP shared = some readP := by
  cases readP with
  | true => cases writeP <;> rfl
  | false =>
    have hw : writeP = true := hused
    rw [hw, hshared hw]
    rfl

/-- Anything else is locked for writing by whoever writes it. -/
theorem lockDecl_plain {type : ExpType} (htype : type ≠ .stats) {readP writeP shared : Bool}
    (hused : (readP || writeP) = true) (hshared : shared = true) :
    lockDecl type readP writeP shared = some writeP := by
  cases readP <;> cases writeP <;> simp_all [lockDecl, flipStats]

variable {v : Nat} {d : Vardecl} {i : Nat} {p : Probe}

/-- The entry of a probe for a global. -/
theorem mem_lockTable {w : Bool} (hp : sess.probes[i]? = some p) (hi : needs i = true)
    (hd : sess.globals[v]? = some d)
    (h : lockDecl d.type (.read (.global v) ∈ sess.varuse p.body.uses)
      (.write (.global v) ∈ sess.varuse p.body.uses)
      (.write (.global v) ∈ vcvNeedsGlobalLocks sess needs) = some w) :
    ⟨v, w⟩ ∈ lockTable sess needs i := by
  unfold lockTable
  rw [if_pos hi, bodyUses_eq hp]
  exact mem_emitLockDecls hd h

end Tables

/-! ## Taking the locks -/

/-- Where a thread stands. -/
inductive Pc where
  | idle
  /-- In `stp_lock_probe`, about to try lock `i`. -/
  | locking (p i retries : Nat)
  | body (p : Nat)
  /-- In `stp_unlock_probe` with the first `left` locks still to release, called
  from `stp_lock_probe` where it gives up, or from the end of the handler. -/
  | unlocking (p left : Nat) (skipped : Bool)
deriving DecidableEq, Repr

/-- The threads, the locks of the globals and `skipped_count`. `held` is not in
the code: it records in which mode each thread was given each lock. -/
structure System (ι : Type) where
  pc : ι → Pc
  lock : Nat → RwLock
  held : ι → Nat → Option Bool
  skippedCount : Nat

variable {ι : Type} [DecidableEq ι]

namespace System

/-- Thread `t` goes on at `pc`. -/
def goto (st : System ι) (t : ι) (pc : Pc) : System ι :=
  { st with pc := Function.update st.pc t pc }

/-- Thread `t` is given a lock. -/
def acquire (st : System ι) (t : ι) (e : ProbeLock) : System ι :=
  { st with
    lock := Function.update st.lock e.lock ((st.lock e.lock).lock e.writeP)
    held := Function.update st.held t (Function.update (st.held t) e.lock (some e.writeP)) }

/-- Thread `t` gives a lock back. -/
def release (st : System ι) (t : ι) (e : ProbeLock) : System ι :=
  { st with
    lock := Function.update st.lock e.lock ((st.lock e.lock).unlock e.writeP)
    held := Function.update st.held t (Function.update (st.held t) e.lock none) }

end System

/-- One step of thread `t`, with the tables of the probes and `MAXTRYLOCK`. An
attempt to take a lock may fail for reasons of its own; it succeeds only if the
lock admits it. -/
inductive Step (table : Nat → List ProbeLock) (maxTryLock : Nat) (t : ι) :
    System ι → System ι → Prop
  | enter {st : System ι} (p : Nat) (hpc : st.pc t = .idle) :
      Step table maxTryLock t st (st.goto t (.locking p 0 0))
  | trylock {st : System ι} {p i retries : Nat} {e : ProbeLock}
      (hpc : st.pc t = .locking p i retries) (he : (table p)[i]? = some e)
      (hadmits : (st.lock e.lock).admits e.writeP = true) :
      Step table maxTryLock t st ((st.acquire t e).goto t (.locking p (i + 1) retries))
  | retry {st : System ι} {p i retries : Nat} (hpc : st.pc t = .locking p i retries)
      (hi : i < (table p).length) (htry : retries + 1 ≤ maxTryLock) :
      Step table maxTryLock t st (st.goto t (.locking p i (retries + 1)))
  | skip {st : System ι} {p i retries : Nat} (hpc : st.pc t = .locking p i retries)
      (hi : i < (table p).length) (htry : maxTryLock < retries + 1) :
      Step table maxTryLock t st
        { st.goto t (.unlocking p i true) with skippedCount := st.skippedCount + 1 }
  | locked {st : System ι} {p i retries : Nat} (hpc : st.pc t = .locking p i retries)
      (hi : i = (table p).length) : Step table maxTryLock t st (st.goto t (.body p))
  | leave {st : System ι} {p : Nat} (hpc : st.pc t = .body p) :
      Step table maxTryLock t st (st.goto t (.unlocking p (table p).length false))
  | unlock {st : System ι} {p i : Nat} {skipped : Bool} {e : ProbeLock}
      (hpc : st.pc t = .unlocking p (i + 1) skipped) (he : (table p)[i]? = some e) :
      Step table maxTryLock t st ((st.release t e).goto t (.unlocking p i skipped))
  | exit {st : System ι} {p : Nat} {skipped : Bool} (hpc : st.pc t = .unlocking p 0 skipped) :
      Step table maxTryLock t st (st.goto t .idle)

/-- Every thread idle and every lock free. -/
def System.start (ι : Type) : System ι where
  pc _ := .idle
  lock _ := .free
  held _ _ := none
  skippedCount := 0

/-- The states that some interleaving of the threads leads to. -/
def Reachable (table : Nat → List ProbeLock) (maxTryLock : Nat) (st : System ι) : Prop :=
  Relation.ReflTransGen (fun st st' => ∃ t, Step table maxTryLock t st st') (System.start ι) st

theorem Reachable.step {table : Nat → List ProbeLock} {maxTryLock : Nat} {st st' : System ι}
    (h : Reachable table maxTryLock st) {t : ι} (hs : Step table maxTryLock t st st') :
    Reachable table maxTryLock st' :=
  Relation.ReflTransGen.tail h ⟨t, hs⟩

/-! ## What the threads hold -/

/-- The entries whose locks a thread should have. -/
def Pc.taken (table : Nat → List ProbeLock) : Pc → List ProbeLock
  | .idle => []
  | .locking p i _ => (table p).take i
  | .body p => table p
  | .unlocking p left _ => (table p).take left

variable {es : List ProbeLock} {e : ProbeLock}

/-- Entry `i` of a table is not among those before it. -/
theorem lock_notMem_take (h : (es.map ProbeLock.lock).Nodup) {i : Nat} (he : es[i]? = some e)
    (w : Bool) : ⟨e.lock, w⟩ ∉ es.take i := by
  obtain ⟨hi, rfl⟩ := List.getElem?_eq_some_iff.mp he
  rw [← take_append_drop i es, map_append, drop_eq_getElem_cons hi] at h
  intro hmem
  exact (nodup_append.mp h).2.2 _ (mem_map_of_mem hmem) _ mem_cons_self rfl

/-- The record of who holds what agrees with the locks, and with where each
thread stands. -/
structure Inv [Fintype ι] (table : Nat → List ProbeLock) (st : System ι) : Prop where
  guards : ∀ k, Guards (st.lock k) fun t => st.held t k
  held : ∀ t k w, st.held t k = some w ↔ ⟨k, w⟩ ∈ (st.pc t).taken table

section Runs

variable [Fintype ι] {table : Nat → List ProbeLock} {maxTryLock : Nat}

omit [DecidableEq ι] in
theorem Inv.start : Inv table (System.start ι) where
  guards _ := .free
  held _ _ _ := by simp [System.start, Pc.taken]

variable {st : System ι} {t : ι}

/-- A step that takes and releases nothing. -/
theorem Inv.goto (h : Inv table st) {pc : Pc} (n : Nat)
    (hpc : pc.taken table = (st.pc t).taken table) :
    Inv table { st.goto t pc with skippedCount := n } where
  guards := h.guards
  held u k w := by
    change st.held u k = some w ↔ ⟨k, w⟩ ∈ (update st.pc t pc u).taken table
    by_cases hu : u = t
    · rw [hu, update_self, hpc]
      exact h.held t k w
    · rw [update_of_ne hu]
      exact h.held u k w

/-- A step after which thread `t` holds lock `k` in mode `x`. -/
theorem Inv.change (h : Inv table st) {k : Nat} {x : Option Bool} {l : RwLock} {pc : Pc}
    (hl : Guards l (update (fun u => st.held u k) t x))
    (hpc : ∀ j w, ⟨j, w⟩ ∈ pc.taken table ↔
      if j = k then x = some w else ⟨j, w⟩ ∈ (st.pc t).taken table) :
    Inv table
      { st with
        pc := update st.pc t pc
        lock := update st.lock k l
        held := update st.held t (update (st.held t) k x) } where
  guards j := by
    by_cases hj : j = k
    · subst hj
      simp only [update_self]
      convert hl using 1
      funext u
      by_cases hu : u = t <;> simp [hu]
    · simp only [update_of_ne hj]
      convert h.guards j using 1
      funext u
      by_cases hu : u = t <;> simp [hu, hj]
  held u j w := by
    by_cases hu : u = t
    · subst hu
      simp only [update_self, hpc, update_apply, ← h.held]
      split <;> rfl
    · simp only [update_of_ne hu, h.held]

/-- The entry that is taken next, or has been taken last. -/
theorem mem_take_succ (hnodup : (es.map ProbeLock.lock).Nodup) {i : Nat} (he : es[i]? = some e)
    (j : Nat) (w : Bool) :
    ⟨j, w⟩ ∈ es.take (i + 1) ↔ if j = e.lock then e.writeP = w else ⟨j, w⟩ ∈ es.take i := by
  rw [take_add_one, he, mem_append, mem_toList, some_inj]
  split
  next hj =>
    subst hj
    rw [or_iff_right (lock_notMem_take hnodup he w), ProbeLock.ext_iff]
    exact and_iff_right rfl
  next hj => exact or_iff_left fun heq => hj (congrArg ProbeLock.lock heq.symm)

/-- **Every step of every thread keeps the record right.** -/
theorem Inv.step (hnodup : ∀ p, ((table p).map ProbeLock.lock).Nodup) {st st' : System ι} {t : ι}
    (h : Inv table st) (hs : Step table maxTryLock t st st') : Inv table st' := by
  cases hs with
  | enter p hpc | retry hpc hi htry | exit hpc => exact h.goto st.skippedCount (by rw [hpc]; rfl)
  | skip hpc hi htry => exact h.goto (st.skippedCount + 1) (by rw [hpc]; rfl)
  | @locked p i retries hpc hi =>
    refine h.goto st.skippedCount ?_
    rw [hpc, hi]
    exact take_length.symm
  | @leave p hpc =>
    refine h.goto st.skippedCount ?_
    rw [hpc]
    exact take_length
  | @trylock p i retries e hpc he hadmits =>
    have hfree : st.held t e.lock = none := eq_none_iff_forall_ne_some.mpr fun w hw => by
      rw [h.held, hpc] at hw
      exact lock_notMem_take (hnodup p) he w hw
    refine h.change ((h.guards e.lock).lock hfree hadmits) fun j w => ?_
    rw [hpc, some_inj]
    exact mem_take_succ (hnodup p) he j w
  | @unlock p i skipped e hpc he =>
    have hheld : st.held t e.lock = some e.writeP := by
      rw [h.held, hpc]
      exact (mem_take_succ (hnodup p) he _ _).mpr (by simp)
    refine h.change ((h.guards e.lock).unlock hheld) fun j w => ?_
    rw [hpc]
    show ⟨j, w⟩ ∈ (table p).take i ↔ if j = e.lock then _ else ⟨j, w⟩ ∈ (table p).take (i + 1)
    rw [mem_take_succ (hnodup p) he]
    split
    next hj => simpa [hj] using lock_notMem_take (hnodup p) he w
    next => rfl

/-- **The record is right along every interleaving.** -/
theorem Inv.of_reachable (hnodup : ∀ p, ((table p).map ProbeLock.lock).Nodup)
    (h : Reachable table maxTryLock st) : Inv table st := by
  induction h with
  | refl => exact Inv.start
  | tail _ hs ih =>
    obtain ⟨t, hs⟩ := hs
    exact ih.step hnodup hs

omit [DecidableEq ι] in
/-- Two handlers inside their bodies lock what both list for reading. -/
theorem Inv.both_read (h : Inv table st) {u : ι} (htu : t ≠ u) {p q : Nat} (ht : st.pc t = .body p)
    (hu : st.pc u = .body q) {k : Nat} {w x : Bool} (hw : ⟨k, w⟩ ∈ table p)
    (hx : ⟨k, x⟩ ∈ table q) : w = false ∧ x = false :=
  (h.guards k).both_read htu ((h.held t k w).mpr (ht ▸ hw)) ((h.held u k x).mpr (hu ▸ hx))

end Runs

/-! ## `stp_lock_probe` returns -/

/-- The thread is inside `stp_lock_probe`. -/
def Pc.inLockProbe : Pc → Bool
  | .locking _ _ _ => true
  | .unlocking _ _ skipped => skipped
  | .idle | .body _ => false

/-- A bound on the steps a thread still makes inside `stp_lock_probe`. -/
def Pc.lockWork (table : Nat → List ProbeLock) (maxTryLock : Nat) : Pc → Nat
  | .locking p i retries =>
    ((table p).length - i) + (maxTryLock + 1 - retries) + (table p).length + 2
  | .unlocking _ left _ => left + 1
  | .idle | .body _ => 0

section Returns

variable {table : Nat → List ProbeLock} {maxTryLock : Nat}

/-- The entries a thread stands at are in its table. -/
def Pc.Within (table : Nat → List ProbeLock) : Pc → Prop
  | .locking p i _ => i ≤ (table p).length
  | .unlocking p left _ => left ≤ (table p).length
  | .idle | .body _ => True

/-- What a step does to where a thread stands: inside `stp_lock_probe` it brings the end nearer,
which is 1, in the body that it was called for, or 0, back outside. -/
structure Pc.Advances (table : Nat → List ProbeLock) (maxTryLock : Nat) (pc pc' : Pc) : Prop where
  within : pc.Within table → pc'.Within table
  work : pc.inLockProbe = true → pc'.lockWork table maxTryLock < pc.lockWork table maxTryLock
  returns : pc.inLockProbe = true → pc'.inLockProbe = false → (∃ p, pc' = .body p) ∨ pc' = .idle

variable {st st' : System ι} {t : ι}

attribute [local simp] Pc.Within Pc.lockWork Pc.inLockProbe

theorem Step.advances (hs : Step table maxTryLock t st st') :
    ∃ pc, st'.pc = update st.pc t pc ∧ (st.pc t).Advances table maxTryLock pc := by
  cases hs with
  | enter p hpc | leave hpc => exact ⟨_, rfl, by constructor <;> simp [hpc]⟩
  | trylock hpc he hadmits | unlock hpc he =>
    have hi := (List.getElem?_eq_some_iff.mp he).1
    exact ⟨_, rfl, by constructor <;> simp [hpc] <;> omega⟩
  | retry hpc hi htry | skip hpc hi htry | locked hpc hi | exit hpc =>
    exact ⟨_, rfl, by constructor <;> simp [hpc] <;> omega⟩

theorem Reachable.within {st : System ι} (h : Reachable table maxTryLock st) :
    ∀ u, (st.pc u).Within table := by
  induction h with
  | refl => exact fun _ => trivial
  | tail _ hs ih =>
    obtain ⟨t, hs⟩ := hs
    obtain ⟨pc, hpc, hnext⟩ := hs.advances
    intro u
    rw [hpc]
    by_cases hu : u = t
    · rw [hu, update_self]
      exact hnext.within (ih t)
    · rw [update_of_ne hu]
      exact ih u

/-- A thread inside `stp_lock_probe` is never stuck: an attempt may always fail. -/
theorem Reachable.can_step {st : System ι} (h : Reachable table maxTryLock st) {t : ι}
    (hin : (st.pc t).inLockProbe = true) : ∃ st', Step table maxTryLock t st st' := by
  have hw := h.within t
  cases hpc : st.pc t with
  | idle | body => simp [hpc, Pc.inLockProbe] at hin
  | locking p i retries =>
    rw [hpc] at hw
    rcases Nat.lt_or_eq_of_le hw with hi | hi
    · rcases Nat.lt_or_ge maxTryLock (retries + 1) with htry | htry
      · exact ⟨_, .skip hpc hi htry⟩
      · exact ⟨_, .retry hpc hi htry⟩
    · exact ⟨_, .locked hpc hi⟩
  | unlocking p left skipped =>
    rw [hpc] at hw
    cases left with
    | zero => exact ⟨_, .exit hpc⟩
    | succ i => exact ⟨_, .unlock hpc (List.getElem?_eq_getElem (Nat.lt_of_succ_le hw))⟩

end Returns

/-! ## Exclusion -/

/-- Handler `p` writes `v` in some execution and handler `q` accesses it in some
execution: then their tables agree on `v` for reading only if `v` is a
statistic to which both only add. -/
theorem onlyAdds_of_shared {sess : Session} {needs : Nat → Bool} {i j v : Nat} {p q : Probe}
    {d : Vardecl} (hp : sess.probes[i]? = some p) (hq : sess.probes[j]? = some q)
    (hi : needs i = true) (hj : needs j = true) (hd : sess.globals[v]? = some d)
    (hw : Writes sess p v) (ha : Accesses sess q v)
    (hshared : ∀ w x, ⟨v, w⟩ ∈ lockTable sess needs i → ⟨v, x⟩ ∈ lockTable sess needs j →
      w = false ∧ x = false) :
    d.type = .stats ∧ OnlyAdds sess p (.global v) ∧ OnlyAdds sess q (.global v) := by
  have hpused := noted_of_writes hw
  have hqused := noted_of_accesses ha
  by_cases hstats : d.type = .stats
  · have hentry {k : Nat} {r : Probe} (hr : sess.probes[k]? = some r) (hk : needs k = true)
        (hused : .read (.global v) ∈ sess.varuse r.body.uses ∨
          .write (.global v) ∈ sess.varuse r.body.uses) :
        ⟨v, decide (.read (.global v) ∈ sess.varuse r.body.uses)⟩ ∈ lockTable sess needs k := by
      refine mem_lockTable hr hk hd ?_
      rw [hstats]
      refine lockDecl_stats (by simpa using hused) fun hw => ?_
      exact decide_eq_true (varuse_subset_vcv hr hk (of_decide_eq_true hw))
    obtain ⟨hpread, hqread⟩ := hshared _ _ (hentry hp hi hpused) (hentry hq hj hqused)
    exact ⟨hstats, onlyAdds_of_not_read (of_decide_eq_false hpread),
      onlyAdds_of_not_read (of_decide_eq_false hqread)⟩
  · -- the writer holds such a global for writing
    have hpwrite := written_of_writes hd hstats hw
    have hvcv := decide_eq_true (varuse_subset_vcv hp hi hpwrite)
    obtain ⟨hpread, -⟩ := hshared _ _
      (mem_lockTable hp hi hd (lockDecl_plain hstats (by simpa using hpused) hvcv))
      (mem_lockTable hq hj hd (lockDecl_plain hstats (by simpa using hqused) hvcv))
    exact absurd hpwrite (of_decide_eq_false hpread)

/-- **Global locks exclude conflicting handlers.** In every interleaving of any
number of threads, while one is inside a handler that can write `v` no other is
inside a handler that can access it, unless `v` is a statistic to which both only
add. And `stp_lock_probe` comes to an end, with all the locks of the table and
the body to run, or with none. -/
theorem locks_exclude [Fintype ι] (sess : Session) (needs : Nat → Bool) (maxTryLock : Nat)
    {st : System ι} (h : Reachable (lockTable sess needs) maxTryLock st) :
    (∀ (t u : ι) (i j v : Nat) (p q : Probe) (d : Vardecl), t ≠ u →
      sess.probes[i]? = some p → sess.probes[j]? = some q → needs i = true → needs j = true →
      sess.globals[v]? = some d → Writes sess p v → Accesses sess q v →
      st.pc t = .body i → st.pc u = .body j →
      d.type = .stats ∧ OnlyAdds sess p (.global v) ∧ OnlyAdds sess q (.global v)) ∧
    (∀ t : ι, (st.pc t).inLockProbe = true →
      (∃ st', Step (lockTable sess needs) maxTryLock t st st') ∧
      ∀ st', Step (lockTable sess needs) maxTryLock t st st' →
        (st'.pc t).lockWork (lockTable sess needs) maxTryLock <
          (st.pc t).lockWork (lockTable sess needs) maxTryLock ∧
        ((st'.pc t).inLockProbe = false →
          (∃ i, st'.pc t = .body i ∧
            ∀ e ∈ lockTable sess needs i, st'.held t e.lock = some e.writeP) ∨
          (st'.pc t = .idle ∧ ∀ k, st'.held t k = none))) := by
  have hnodup := lockTable_nodup sess needs
  have hinv := Inv.of_reachable hnodup h
  refine ⟨?_, ?_⟩
  · intro t u i j v p q d htu hp hq hi hj hd hw ha ht hu
    exact onlyAdds_of_shared hp hq hi hj hd hw ha fun w x hwi hxj =>
      hinv.both_read htu ht hu hwi hxj
  · intro t hin
    refine ⟨h.can_step hin, fun st' hs => ?_⟩
    have hinv' := hinv.step hnodup hs
    obtain ⟨pc, hpc, hnext⟩ := hs.advances
    have hpc : st'.pc t = pc := (congrFun hpc t).trans (update_self ..)
    rw [hpc]
    refine ⟨hnext.work hin, fun hout => ?_⟩
    rcases hnext.returns hin hout with ⟨i, rfl⟩ | rfl
    · refine .inl ⟨i, rfl, fun e he => (hinv'.held t _ _).mpr ?_⟩
      rw [hpc]
      exact he
    · refine .inr ⟨rfl, fun k => eq_none_iff_forall_ne_some.mpr fun w hw => ?_⟩
      rw [hinv'.held, hpc] at hw
      exact not_mem_nil hw

/-- `probe p { v <<< 1 }` -/
def adder (name : Str) : Probe where
  name := name
  locals := []
  body := .expr (.assignment .long .stat (.symbol ⟨.stats, .global 0⟩) (.literalNumber .long 1))
  condition := none

/-- `global v  probe p { v <<< 1 }  probe q { v <<< 1 }` -/
def adders : Session where
  globals := [⟨[118], .stats, []⟩]
  locals := []
  functions := []
  probes := [adder [112], adder [113]]

/-- One thread after the other takes its locks and enters its body. -/
def bothInside : System Bool :=
  let st := (System.start Bool).goto false (.locking 0 0 0)
  let st := ((st.acquire false ⟨0, false⟩).goto false (.locking 0 1 0)).goto false (.body 0)
  let st := st.goto true (.locking 1 0 0)
  ((st.acquire true ⟨0, false⟩).goto true (.locking 1 1 0)).goto true (.body 1)

theorem bothInside_reachable : Reachable (lockTable adders fun _ => true) 10 bothInside := by
  have h0 : Reachable (lockTable adders fun _ => true) 10 (System.start Bool) := .refl
  have h1 := h0.step (.enter (t := false) 0 rfl)
  have h2 := h1.step (.trylock (t := false) (e := ⟨0, false⟩) rfl rfl rfl)
  have h3 := h2.step (.locked (t := false) (i := 1) rfl rfl)
  have h4 := h3.step (.enter (t := true) 1 rfl)
  have h5 := h4.step (.trylock (t := true) (e := ⟨0, false⟩) rfl rfl rfl)
  exact h5.step (.locked (t := true) (i := 1) rfl rfl)

theorem adder_writes (name : Str) : Writes adders (adder name) 0 := by
  refine ⟨Unit, plainRuntime, 1, 1, fun _ => .stat [], (), ?_, .addStat 0 1, ?_, rfl⟩
  · intro k d hd
    cases k with
    | zero =>
      obtain rfl := some.inj hd
      rfl
    | succ k => exact nomatch hd
  · exact mem_singleton.mpr rfl

theorem adder_accesses (name : Str) : Accesses adders (adder name) 0 := by
  refine ⟨Unit, plainRuntime, 1, 1, fun _ => .stat [], (), .scalar (.long 0), fun h => ?_⟩
  have hflow : Flow.halt = Flow.val Ctl.norm := congrArg Outcome.flow h
  exact nomatch hflow

theorem locks_exclude_adders :
    bothInside.pc false = .body 0 ∧ bothInside.pc true = .body 1 ∧
      OnlyAdds adders (adder [112]) (.global 0) ∧ OnlyAdds adders (adder [113]) (.global 0) :=
  have h := (locks_exclude adders (fun _ => true) 10 bothInside_reachable).1 false true 0 1 0 _ _ _
    (by decide) rfl rfl rfl rfl rfl (adder_writes _) (adder_accesses _) rfl rfl
  ⟨rfl, rfl, h.2⟩

/-- **No lock is lost.** In every interleaving, a lock counts the threads that stand where they have
it for reading, and has a writer exactly if one stands where it has it for writing: in a handler, on
the way into it, or on the way out, also after giving up. -/
theorem lock_counts_threads [Fintype ι] (sess : Session) (needs : Nat → Bool) (maxTryLock : Nat)
    {st : System ι} (h : Reachable (lockTable sess needs) maxTryLock st) (k : Nat) :
    (st.lock k).readers =
        (∑ t, if ⟨k, false⟩ ∈ (st.pc t).taken (lockTable sess needs) then 1 else 0) ∧
      ((st.lock k).writer = true ↔ ∃ t, ⟨k, true⟩ ∈ (st.pc t).taken (lockTable sess needs)) := by
  have hinv := Inv.of_reachable (lockTable_nodup sess needs) h
  simp only [← hinv.held]
  exact ⟨(hinv.guards k).readers, (hinv.guards k).writer⟩

theorem lock_counts_adders : (bothInside.lock 0).readers = 2 :=
  (lock_counts_threads _ _ _ bothInside_reachable 0).1.trans (by decide)

end Systemtap.Trans
