import Mathlib

/-!
# The finders of the user-space probes

`uprobe_derived_probe_group::emit_module_decls` of `tapsets.cxx`, as far as the tables `stap_uprobe_finders`
and `stap_uprobe_specs` go. The row of a probe names by its `tfi` the finder that looks for its process.
Finders are shared. `make_pbm_key` makes a text of some fields, and the first probe with a key makes the
finder for all that have it.

The key has to say everything the finder is made of, and it does not: the `procname` of a library probe with
a semaphore is not in it. And a bar in a name makes the same key of different names.
-/

namespace Systemtap.Tapset.Finders

open List Option

/-! ## The program -/

/-- `uprobe_derived_probe`, the fields that are read here -/
structure Probe where
  moduleName : String
  sectionName : String
  /-- 0 is for any process. -/
  pid : Int
  hasLibrary : Bool
  path : String
  sdtSemaphoreAddr : BitVec 64
  addr : BitVec 64
  hasReturn : Bool

inductive Callback where
  | processFound
  | processMunmap
  | mmapFound
  | munmapFound
deriving DecidableEq

/-- An initialiser of `stap_uprobe_finders`. A field that is not there is `none`. -/
structure Finder where
  pid : Option Int := none
  procname : Option String := none
  callback : Option Callback := none
  mmapCallback : Option Callback := none
  munmapCallback : Option Callback := none
  pathname : String
deriving DecidableEq

structure Spec where
  tfi : Nat
  address : BitVec 64
  sdtSemOffset : BitVec 64
  returnP : Bool

def Probe.makePbmKey (p : Probe) : String :=
  p.moduleName ++ "|" ++ p.sectionName ++ "|" ++ toString p.pid

/-- What is emitted for a probe that has no finder yet. -/
def Probe.finder (p : Probe) : Finder :=
  let f : Finder := { pathname := p.moduleName }
  let f :=
    if p.pid ≠ 0 then { f with pid := some p.pid }
    else if p.sectionName = ".absolute" then
      { f with procname := some p.moduleName, callback := some .processFound }
    else f
  if p.sectionName ≠ ".absolute" then
    let f := if p.hasLibrary ∧ p.sdtSemaphoreAddr ≠ 0 then { f with procname := some p.path } else f
    { f with
      mmapCallback := some .mmapFound, munmapCallback := some .munmapFound, callback := some .processMunmap }
  else f

/-- `module_index`, and the finders in the order of their indices -/
structure Table where
  moduleIndex : List (String × Nat)
  finders : List Finder

/-- The first loop, for one probe. The counter is the number of the finders so far. -/
def Table.add (t : Table) (p : Probe) : Table :=
  match t.moduleIndex.lookup p.makePbmKey with
  | none => ⟨(p.makePbmKey, t.finders.length) :: t.moduleIndex, t.finders ++ [p.finder]⟩
  | some _ => t

def emitFinders (probes : List Probe) : Table := probes.foldl Table.add ⟨[], []⟩

/-- The second loop, for one probe. A `tfi` of 0 is left to the default. -/
def Table.spec (t : Table) (p : Probe) : Spec :=
  ⟨(t.moduleIndex.lookup p.makePbmKey).getD 0, p.addr, p.sdtSemaphoreAddr, p.hasReturn⟩

/-- The row of every probe refers to the finder that would be emitted for that probe. -/
def UseOwnFinders (probes : List Probe) : Prop :=
  ∀ p ∈ probes, (emitFinders probes).finders[((emitFinders probes).spec p).tfi]? = some p.finder

/-! ## Which finder it is -/

/-- The finder of a key is that of the first probe that has it. -/
theorem emitFinders_lookup (probes : List Probe) (key : String) :
    ((emitFinders probes).moduleIndex.lookup key).map ((emitFinders probes).finders[·]?) =
      (probes.find? (·.makePbmKey = key)).map (some ·.finder) := by
  induction probes using List.reverseRecOn with
  | nil => rfl
  | append_singleton probes p ih =>
    have hadd : emitFinders (probes ++ [p]) = (emitFinders probes).add p := by
      rw [emitFinders, foldl_append]
      rfl
    rw [hadd, find?_append]
    generalize emitFinders probes = t at ih ⊢
    by_cases hkey : p.makePbmKey = key
    · subst hkey
      rw [find?_singleton, if_pos (decide_eq_true rfl), Table.add]
      cases hfirst : probes.find? (·.makePbmKey = p.makePbmKey) with
      | none =>
        rw [hfirst, map_none, map_eq_none_iff] at ih
        simp [ih]
      | some q =>
        rw [hfirst] at ih
        obtain ⟨i, hi, hq⟩ := map_eq_some_iff.mp ih
        simp [hi, hq]
    · rw [find?_singleton, if_neg (by simpa using hkey), or_none, ← ih, Table.add]
      split
      · rw [lookup_cons, beq_eq_false_iff_ne.mpr (Ne.symm hkey)]
        cases hi : t.moduleIndex.lookup key with
        | none => rfl
        | some i =>
          rw [hi] at ih
          obtain ⟨q, -, hq⟩ := map_eq_some_iff.mp ih.symm
          show some (t.finders ++ _)[i]? = some t.finders[i]?
          rw [getElem?_append_left (List.getElem?_eq_some_iff.mp hq.symm).1]
      · rfl

/-- The `procname` that the key does not say: that of a library probe with a semaphore. -/
def Probe.libraryPath (p : Probe) : Option String :=
  if p.sectionName ≠ ".absolute" ∧ p.hasLibrary ∧ p.sdtSemaphoreAddr ≠ 0 then some p.path else none

theorem Probe.finder_eq (p : Probe) :
    p.finder = ⟨if p.pid = 0 then none else some p.pid,
      if p.sectionName = ".absolute" then if p.pid = 0 then some p.moduleName else none else p.libraryPath,
      if p.sectionName = ".absolute" then if p.pid = 0 then some .processFound else none
        else some .processMunmap,
      if p.sectionName = ".absolute" then none else some .mmapFound,
      if p.sectionName = ".absolute" then none else some .munmapFound, p.moduleName⟩ := by
  unfold finder libraryPath
  split_ifs <;> simp_all

theorem Probe.finder_eq_iff {p q : Probe} (hkey : p.makePbmKey = q.makePbmKey) :
    p.finder = q.finder ↔
      p.moduleName = q.moduleName ∧ p.pid = q.pid ∧ p.libraryPath = q.libraryPath := by
  rw [p.finder_eq, q.finder_eq, Finder.mk.injEq]
  constructor
  · intro ⟨hpid, hproc, _, hmmap, _, hmodule⟩
    refine ⟨hmodule, by split_ifs at hpid <;> simp_all, ?_⟩
    split_ifs at hmmap with hp hq
    · rw [libraryPath, libraryPath, if_neg (by simp [hp]), if_neg (by simp [hq])]
    · rwa [if_neg hp, if_neg ‹_›] at hproc
  · intro ⟨hmodule, hpid, hlib⟩
    have hsection : p.sectionName = q.sectionName := by
      simpa [makePbmKey, hmodule, hpid, String.append_right_inj, String.append_left_inj] using hkey
    rw [hmodule, hpid, hsection, hlib]
    simp only [and_self]

/-- Every probe uses its own finder just if probes with the same key have the same module and process, and
the same library path if they need one. -/
theorem useOwnFinders_iff (probes : List Probe) :
    UseOwnFinders probes ↔ ∀ p ∈ probes, ∀ q ∈ probes, p.makePbmKey = q.makePbmKey →
      p.moduleName = q.moduleName ∧ p.pid = q.pid ∧ p.libraryPath = q.libraryPath := by
  constructor
  · intro h p hp q hq hkey
    have hfinder := h p hp
    -- the same key is the same row of the index
    rw [Table.spec, hkey] at hfinder
    exact (Probe.finder_eq_iff hkey).mp (some.inj (hfinder.symm.trans (h q hq)))
  · intro h p hp
    obtain ⟨q, hq⟩ := isSome_iff_exists.mp
      (find?_isSome (p := (·.makePbmKey = p.makePbmKey)).mpr ⟨p, hp, decide_eq_true rfl⟩)
    have hkey : q.makePbmKey = p.makePbmKey := by simpa using find?_some hq
    have hlookup := emitFinders_lookup probes p.makePbmKey
    rw [hq] at hlookup
    obtain ⟨i, hi, hfinder⟩ := map_eq_some_iff.mp hlookup
    rw [Table.spec, hi, ← (Probe.finder_eq_iff hkey).mpr (h q (mem_of_find?_eq_some hq) p hp hkey)]
    exact hfinder

/-- Two programs that use one library, each probed at a marker with a semaphore: the second row refers to the
finder that looks for the first program. -/
theorem not_useOwnFinders :
    ¬ UseOwnFinders [⟨"/lib/libm.so", ".dynamic", 0, true, "/bin/a", 64, 32, false⟩,
      ⟨"/lib/libm.so", ".dynamic", 0, true, "/bin/b", 64, 32, false⟩] := by
  intro h
  have := h _ (mem_cons_of_mem _ mem_cons_self)
  exact absurd this (by decide)

end Systemtap.Tapset.Finders
