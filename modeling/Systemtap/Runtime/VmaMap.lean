import Systemtap.Lib.Slots

/-!
# The map of memory areas

The functions of `task_finder_vma.c` that keep, for each task, the memory areas that are of
interest, with the user data that belongs to them. The entries are items of a fixed array. They
are in a free list or in the chain of their task in a hash table, and keep their fields when
they go from one to the other.

An entry is looked up by its field `addr`. `stap_add_vma_map_info` fills in all other fields and
leaves this one out, so it stays what it was in the beginning, which is 0. The lookup of an area
that starts at 0 therefore ends at the first entry of the task, and that of any other area ends
with nothing.
-/

namespace Systemtap.Runtime

open Lib Function List

/-! ## The code -/

/-- `struct __stp_tf_vma_entry` -/
structure VmaEntry where
  pid : BitVec 32
  addr : BitVec 64
  vmStart : BitVec 64
  vmEnd : BitVec 64
  vmPgoff : BitVec 64
  user : BitVec 64

/-- A memory area of a task, as it is added. -/
structure Vma where
  pid : BitVec 32
  vmStart : BitVec 64
  vmEnd : BitVec 64
  vmPgoff : BitVec 64
  user : BitVec 64
deriving DecidableEq

def VmaEntry.vma (e : VmaEntry) : Vma := ⟨e.pid, e.vmStart, e.vmEnd, e.vmPgoff, e.user⟩

/-- The address is in the area. -/
def Vma.Has (v : Vma) (vmAddr : BitVec 64) : Prop := v.vmStart ≤ vmAddr ∧ vmAddr < v.vmEnd

instance (v : Vma) (vmAddr : BitVec 64) : Decidable (v.Has vmAddr) :=
  inferInstanceAs (Decidable (_ ∧ _))

/-- The items, the free list and the hash table, for `N` items. -/
structure VmaTables (N : Nat) where
  items : Fin N → VmaEntry
  free : List (Fin N)
  map : Fin 16 → List (Fin N)

/-- What the functions return. -/
inductive VmaResult where
  | ok
  | found (v : Vma)
  | ebusy
  | enomem
  | esrch
deriving DecidableEq

namespace VmaTables

variable {N : Nat}

/-- The static data after `__stp_tf_vma_initialize`. -/
def initial : VmaTables N where
  items _ := ⟨0, 0, 0, 0, 0, 0⟩
  free := (List.finRange N).reverse
  map _ := []

/-- `__stp_tf_vma_get_free_entry` -/
def getFreeEntry (s : VmaTables N) : Option (Fin N × VmaTables N) :=
  match s.free with
  | [] => none
  | p :: free => some (p, { s with free := free })

/-- `hlist_del` in a chain, and `__stp_tf_vma_put_free_entry` -/
def release (s : VmaTables N) (h : Fin 16) (p : Fin N) : VmaTables N :=
  { s with map := Function.update s.map h ((s.map h).erase p), free := p :: s.free }

section Hash

/- `__stp_tf_vma_map_hash` -/
variable (hash : BitVec 32 → Fin 16)

/-- `__stp_tf_get_vma_map_entry_internal` -/
def getMapEntry (s : VmaTables N) (pid : BitVec 32) (vmStart : BitVec 64) : Option (Fin N) :=
  (s.map (hash pid)).find? fun p => pid = (s.items p).pid ∧ vmStart = (s.items p).addr

/-- `stap_add_vma_map_info` -/
def addVmaMapInfo (s : VmaTables N) (v : Vma) : VmaResult × VmaTables N :=
  match s.getMapEntry hash v.pid v.vmStart with
  | some _ => (.ebusy, s)
  | none =>
    match s.getFreeEntry with
    | none => (.enomem, s)
    | some (p, s) =>
      -- `addr` is left as it is
      let e := { s.items p with
        pid := v.pid, vmStart := v.vmStart, vmEnd := v.vmEnd, vmPgoff := v.vmPgoff, user := v.user }
      (.ok, { s with
        items := Function.update s.items p e
        map := Function.update s.map (hash v.pid) (p :: s.map (hash v.pid)) })

/-- `stap_remove_vma_map_info`; the last two arguments are not looked at. -/
def removeVmaMapInfo (s : VmaTables N) (pid : BitVec 32) (vmStart _vmEnd _vmPgoff : BitVec 64) :
    VmaResult × VmaTables N :=
  match s.getMapEntry hash pid vmStart with
  | none => (.esrch, s)
  | some p => (.ok, s.release (hash pid) p)

/-- `stap_find_vma_map_info` -/
def findVmaMapInfo (s : VmaTables N) (pid : BitVec 32) (vmAddr : BitVec 64) : VmaResult :=
  match (s.map (hash pid)).find? fun p => pid = (s.items p).pid ∧ (s.items p).vma.Has vmAddr with
  | none => .esrch
  | some p => .found (s.items p).vma

/-- The loop of `stap_drop_vma_maps` over the chain. -/
def dropLoop (pid : BitVec 32) : List (Fin N) → VmaTables N → VmaTables N
  | [], s => s
  | p :: ps, s =>
    if pid = (s.items p).pid then dropLoop pid ps (s.release (hash pid) p) else dropLoop pid ps s

/-- `stap_drop_vma_maps` -/
def dropVmaMaps (s : VmaTables N) (pid : BitVec 32) : VmaResult × VmaTables N :=
  (.ok, dropLoop hash pid (s.map (hash pid)) s)

end Hash

end VmaTables

inductive VmaOp where
  | add (v : Vma)
  | remove (pid : BitVec 32) (vmStart vmEnd vmPgoff : BitVec 64)
  | find (pid : BitVec 32) (vmAddr : BitVec 64)
  | drop (pid : BitVec 32)

def VmaTables.step {N : Nat} (hash : BitVec 32 → Fin 16) (s : VmaTables N) :
    VmaOp → VmaResult × VmaTables N
  | .add v => s.addVmaMapInfo hash v
  | .remove pid vmStart vmEnd vmPgoff => s.removeVmaMapInfo hash pid vmStart vmEnd vmPgoff
  | .find pid vmAddr => (s.findVmaMapInfo hash pid vmAddr, s)
  | .drop pid => s.dropVmaMaps hash pid

/-! ## The keyed store -/

def Vma.key (v : Vma) : BitVec 32 × BitVec 64 := (v.pid, v.vmStart)

/-- What is in the store, the latest first; a key is there once. -/
structure VmaStore where
  live : List Vma
  nodup : (live.map Vma.key).Nodup

namespace VmaStore

def empty : VmaStore := ⟨[], List.nodup_nil⟩

def filter (m : VmaStore) (keep : Vma → Bool) : VmaStore :=
  ⟨m.live.filter keep, m.nodup.sublist (List.filter_sublist.map _)⟩

/-- The entry of a task that has the address; the areas of a task do not overlap, so there is no
other one. -/
def find? (m : VmaStore) (pid : BitVec 32) (vmAddr : BitVec 64) : Option Vma :=
  m.live.find? fun v => pid = v.pid ∧ v.Has vmAddr

def step (m : VmaStore) : VmaOp → VmaResult × VmaStore
  | .add v =>
    if h : v.key ∈ m.live.map Vma.key then (.ebusy, m)
    else (.ok, ⟨v :: m.live, List.nodup_cons.mpr ⟨h, m.nodup⟩⟩)
  | .remove pid vmStart _ _ =>
    if (pid, vmStart) ∈ m.live.map Vma.key then (.ok, m.filter fun v => v.key ≠ (pid, vmStart))
    else (.esrch, m)
  | .find pid vmAddr =>
    match m.find? pid vmAddr with
    | none => (.esrch, m)
    | some v => (.found v, m)
  | .drop pid => (.ok, m.filter fun v => v.pid ≠ pid)

end VmaStore

/-- The entries that are in the table. -/
def VmaTables.live {N : Nat} (s : VmaTables N) : List Vma :=
  (List.finRange 16).flatMap fun h => (s.map h).map fun p => (s.items p).vma

/-- Along the run, every call returns what the store does, and has in the table what the store
has. -/
def RunsRight {N : Nat} (hash : BitVec 32 → Fin 16) : VmaTables N → VmaStore → List VmaOp → Prop
  | _, _, [] => True
  | s, m, op :: ops =>
    (s.step hash op).1 = (m.step op).1 ∧
      (s.step hash op).2.live.Perm (m.step op).2.live ∧
      RunsRight hash (s.step hash op).2 (m.step op).2 ops

/-- No call adds an area to a store that has `N` already. -/
def VmaRoom (N : Nat) : VmaStore → List VmaOp → Prop
  | _, [] => True
  | m, op :: ops =>
    (∀ v, op = .add v → v.key ∉ m.live.map Vma.key → m.live.length < N) ∧ VmaRoom N (m.step op).2 ops

/-! ## When it is one -/

/-- The call does not need `addr`. -/
def Tellable (m : VmaStore) : VmaOp → Prop
  | .add v =>
    if v.vmStart = 0 then (∃ w ∈ m.live, w.pid = v.pid) → v.key ∈ m.live.map Vma.key
    else v.key ∉ m.live.map Vma.key
  | .remove pid vmStart _ _ =>
    if vmStart = 0 then ∀ w, m.live.find? (·.pid = pid) = some w → w.vmStart = 0
    else (pid, vmStart) ∉ m.live.map Vma.key
  | .find _ _ | .drop _ => True

def AllTellable : VmaStore → List VmaOp → Prop
  | _, [] => True
  | m, op :: ops => Tellable m op ∧ AllTellable (m.step op).2 ops

/-! ## Simulation -/

namespace VmaTables

variable {N : Nat} {hash : BitVec 32 → Fin 16} {s : VmaTables N} {live : List Vma}

/-- The tables hold the areas of `live`, each chain in the same order. -/
structure Holds (hash : BitVec 32 → Fin 16) (s : VmaTables N) (live : List Vma) : Prop where
  addr_zero : ∀ p, (s.items p).addr = 0
  stores : ∃ used, Stores (fun p => hash (s.items p).pid) s.free s.map used ∧
    (used.map fun p => (s.items p).vma) = live

theorem holds_initial : Holds hash (initial : VmaTables N) [] :=
  ⟨fun _ => rfl, [], .initial N _, rfl⟩

/-- The areas in the table are those of the list. -/
theorem Holds.live_perm (h : Holds hash s live) : s.live.Perm live := by
  obtain ⟨used, hstores, rfl⟩ := h.stores
  rw [VmaTables.live, ← map_flatMap]
  exact (hstores.flatMap_perm (nodup_finRange 16) mem_finRange).map _

theorem Holds.free_length (h : Holds hash s live) : s.free.length + live.length = N := by
  obtain ⟨used, hstores, rfl⟩ := h.stores
  rw [length_map, hstores.length_eq, Fintype.card_fin]

/-- A search in the chain of a task is a search in the list. -/
theorem Holds.find?_map (h : Holds hash s live) (pid : BitVec 32) (P : Vma → Prop) [DecidablePred P]
    (hP : ∀ v, P v → v.pid = pid) :
    ((s.map (hash pid)).find? fun p => P (s.items p).vma).map (fun p => (s.items p).vma) =
      live.find? fun v => P v := by
  obtain ⟨used, hstores, rfl⟩ := h.stores
  rw [hstores.find?_chain fun p hp => congrArg hash (hP _ (of_decide_eq_true hp)), List.find?_map]
  rfl

/-- Only areas that start at 0 are found, and the first entry of the task is taken for them. -/
theorem Holds.getMapEntry_eq (h : Holds hash s live) (pid : BitVec 32) (vmStart : BitVec 64) :
    (s.getMapEntry hash pid vmStart).map (fun p => (s.items p).vma) =
      if vmStart = 0 then live.find? (·.pid = pid) else none := by
  unfold getMapEntry
  simp only [h.addr_zero]
  by_cases hzero : vmStart = 0
  · rw [if_pos hzero, ← h.find?_map pid (fun v => v.pid = pid) fun v hv => hv]
    congr 1
    congr 1
    funext p
    simp [hzero, VmaEntry.vma, eq_comm]
  · rw [if_neg hzero]
    have hnone : ((s.map (hash pid)).find? fun p => pid = (s.items p).pid ∧ vmStart = 0) = none := by
      refine List.find?_eq_none.mpr fun p _ => ?_
      simpa using fun _ => hzero
    rw [hnone]
    rfl

variable {i : Fin 16} {p : Fin N}

/-- Taking an entry out of its chain takes its area out of the list. -/
theorem Holds.release (h : Holds hash s live) (hkeys : (live.map Vma.key).Nodup)
    (hp : p ∈ s.map i) :
    Holds hash (s.release i p) (live.filter fun v => v.key ≠ (s.items p).vma.key) := by
  obtain ⟨used, hstores, rfl⟩ := h.stores
  obtain ⟨hmem, rfl⟩ := hstores.mem_chain.mp hp
  refine ⟨h.addr_zero, used.erase p, hstores.put hmem _ fun _ _ => rfl, ?_⟩
  rw [map_map] at hkeys
  rw [erase_eq_filter_key hkeys hmem, filter_map]
  rfl

/-- A free item takes up an area. -/
theorem Holds.add (h : Holds hash s live) {free : List (Fin N)} (hfree : s.free = p :: free)
    (v : Vma) :
    Holds hash
      { items := update s.items p
          ⟨v.pid, (s.items p).addr, v.vmStart, v.vmEnd, v.vmPgoff, v.user⟩
        free := free
        map := update s.map (hash v.pid) (p :: s.map (hash v.pid)) } (v :: live) := by
  obtain ⟨used, hstores, rfl⟩ := h.stores
  rw [hfree] at hstores
  refine ⟨fun q => ?_, p :: used, ?_, ?_⟩
  · by_cases hq : q = p <;> simp [hq, h.addr_zero]
  · have htake := hstores.take (fun q => hash (update s.items p
      ⟨v.pid, (s.items p).addr, v.vmStart, v.vmEnd, v.vmPgoff, v.user⟩ q).pid) fun q hq => by simp [hq]
    simpa only [update_self] using htake
  · -- the entries in the chains are not touched
    simp only [map_cons, update_self]
    exact congrArg (v :: ·) (map_congr_left fun q hq => by rw [update_of_ne (hstores.ne_of_mem hq)])

/-- The loop of `stap_drop_vma_maps` takes out what it comes to and is of the task. -/
theorem dropLoop_stores (pid : BitVec 32) : ∀ (ps : List (Fin N)) {s : VmaTables N}
    {used : List (Fin N)}, Stores (fun p => hash (s.items p).pid) s.free s.map used → ps.Nodup →
      (∀ p ∈ ps, p ∈ used) → (dropLoop hash pid ps s).items = s.items ∧
        Stores (fun p => hash (s.items p).pid) (dropLoop hash pid ps s).free
          (dropLoop hash pid ps s).map (used.filter fun p => ¬ (p ∈ ps ∧ (s.items p).pid = pid))
  | [], s, used, h, _, _ => ⟨rfl, by simpa [dropLoop] using h⟩
  | p :: ps, s, used, h, hnodup, hmem => by
    obtain ⟨hp, hps⟩ := nodup_cons.mp hnodup
    rw [forall_mem_cons] at hmem
    rw [dropLoop]
    by_cases hpid : pid = (s.items p).pid
    · rw [if_pos hpid]
      have hput := h.put hmem.1 _ fun _ _ => rfl
      rw [← hpid] at hput
      have hleft : ∀ q ∈ ps, q ∈ used.erase p := fun q hq =>
        (mem_erase_of_ne fun heq : q = p => hp (heq ▸ hq)).mpr (hmem.2 q hq)
      obtain ⟨hitems, hrest⟩ := @dropLoop_stores pid ps (s.release (hash pid) p) _ hput hps hleft
      have hsame : (used.filter fun q => ¬ (q ∈ p :: ps ∧ (s.items q).pid = pid)) =
          (used.erase p).filter fun q => ¬ (q ∈ ps ∧ (s.items q).pid = pid) := by
        rw [(nodup_append.mp h.nodup).2.1.erase_eq_filter, filter_filter]
        exact filter_congr fun q _ => by by_cases hq : q = p <;> simp [hq, hpid]
      rw [hsame]
      exact ⟨hitems, hrest⟩
    · rw [if_neg hpid]
      have hsame : (used.filter fun q => ¬ (q ∈ p :: ps ∧ (s.items q).pid = pid)) =
          used.filter fun q => ¬ (q ∈ ps ∧ (s.items q).pid = pid) :=
        filter_congr fun q _ => by by_cases hq : q = p <;> simp [hq, Ne.symm hpid]
      rw [hsame]
      exact dropLoop_stores pid ps h hps hmem.2

theorem Holds.drop (h : Holds hash s live) (pid : BitVec 32) :
    Holds hash (s.dropVmaMaps hash pid).2 (live.filter fun v => v.pid ≠ pid) := by
  obtain ⟨used, hstores, rfl⟩ := h.stores
  obtain ⟨hitems, hrest⟩ := dropLoop_stores pid (s.map (hash pid)) hstores
    (hstores.placed.nodup (some (hash pid))) fun p hp => (hstores.mem_chain.mp hp).1
  unfold dropVmaMaps
  refine ⟨fun p => by rw [hitems]; exact h.addr_zero p, _, hitems ▸ hrest, ?_⟩
  rw [hitems, filter_map]
  refine congrArg _ (filter_congr fun p hp => ?_)
  -- an entry of the task is in its chain
  simp [hstores.mem_chain, hp, VmaEntry.vma]
  tauto

end VmaTables

/-! ## One call -/

section Step

variable {N : Nat} {hash : BitVec 32 → Fin 16} {s : VmaTables N} {m : VmaStore} {pid : BitVec 32}

/-- A task has an area in the store. -/
theorem key_mem_iff {vmStart : BitVec 64} :
    (pid, vmStart) ∈ m.live.map Vma.key ↔ ∃ w ∈ m.live, w.pid = pid ∧ w.vmStart = vmStart := by
  simp [Vma.key]

theorem pid_of_find? {live : List Vma} {w : Vma}
    (h : live.find? (·.pid = pid) = some w) : w.pid = pid := by
  have hw := List.find?_some h
  exact of_decide_eq_true hw

/-- What the lookup comes to. -/
theorem getMapEntry_cases (h : s.Holds hash m.live) (pid : BitVec 32) (vmStart : BitVec 64) :
    (∃ p w, s.getMapEntry hash pid vmStart = some p ∧ (s.items p).vma = w ∧
      p ∈ s.map (hash pid) ∧ vmStart = 0 ∧ m.live.find? (·.pid = pid) = some w) ∨
    (s.getMapEntry hash pid vmStart = none ∧
      (vmStart = 0 → ∀ w ∈ m.live, w.pid ≠ pid)) := by
  have hget := h.getMapEntry_eq pid vmStart
  cases hentry : s.getMapEntry hash pid vmStart with
  | some p =>
    rw [hentry, Option.map_some] at hget
    refine .inl ⟨p, _, rfl, rfl, mem_of_find?_eq_some hentry, ?_⟩
    by_cases hzero : vmStart = 0
    · rw [if_pos hzero] at hget
      exact ⟨hzero, hget.symm⟩
    · rw [if_neg hzero] at hget
      cases hget
  | none =>
    rw [hentry, Option.map_none] at hget
    refine .inr ⟨rfl, fun hzero w hw hpid => ?_⟩
    rw [if_pos hzero] at hget
    have hnone := List.find?_eq_none.mp hget.symm w hw
    exact hnone (decide_eq_true hpid)

/-- The call does what the store does. -/
def StepRight (hash : BitVec 32 → Fin 16) (s : VmaTables N) (m : VmaStore) (op : VmaOp) : Prop :=
  (s.step hash op).1 = (m.step op).1 ∧ (s.step hash op).2.live.Perm (m.step op).2.live

theorem add_spec (h : s.Holds hash m.live) (v : Vma)
    (hroom : v.key ∉ m.live.map Vma.key → m.live.length < N) :
    (StepRight hash s m (.add v) ↔ Tellable m (.add v)) ∧
      (Tellable m (.add v) → (s.step hash (.add v)).2.Holds hash (m.step (.add v)).2.live) := by
  unfold StepRight
  simp only [VmaTables.step, VmaTables.addVmaMapInfo, VmaStore.step]
  rcases getMapEntry_cases h v.pid v.vmStart with ⟨p, w, hget, -, -, hzero, hfind⟩ | ⟨hget, hnone⟩
  · have ht : Tellable m (.add v) ↔ v.key ∈ m.live.map Vma.key := by
      rw [Tellable, if_pos hzero]
      exact imp_iff_right ⟨w, mem_of_find?_eq_some hfind, pid_of_find? hfind⟩
    rw [ht, hget]
    by_cases hkey : v.key ∈ m.live.map Vma.key
    · rw [dif_pos hkey]
      exact ⟨iff_of_true ⟨rfl, h.live_perm⟩ hkey, fun _ => h⟩
    · rw [dif_neg hkey]
      exact ⟨iff_of_false (fun heq => VmaResult.noConfusion heq.1) hkey, fun hin => absurd hin hkey⟩
  · have ht : Tellable m (.add v) ↔ v.key ∉ m.live.map Vma.key := by
      rw [Tellable]
      split
      · next hzero =>
        have hno : ¬ ∃ w ∈ m.live, w.pid = v.pid := fun ⟨w, hw, hpid⟩ => hnone hzero w hw hpid
        exact iff_of_true (fun hex => absurd hex hno) fun hmem =>
          hno ((key_mem_iff.mp hmem).imp fun w hw => ⟨hw.1, hw.2.1⟩)
      · rfl
    rw [ht, hget]
    by_cases hkey : v.key ∈ m.live.map Vma.key
    · rw [dif_pos hkey]
      refine ⟨iff_of_false (fun heq => ?_) fun hout => hout hkey, fun hout => absurd hkey hout⟩
      revert heq
      cases s.getFreeEntry <;> exact fun heq => VmaResult.noConfusion heq.1
    · rw [dif_neg hkey]
      have hlen := h.free_length
      have hlt := hroom hkey
      cases hfree : s.free with
      | nil =>
        rw [hfree, length_nil] at hlen
        omega
      | cons p free =>
        have hfirst : s.getFreeEntry = some (p, { s with free := free }) := by
          rw [VmaTables.getFreeEntry, hfree]
        have hadd := h.add hfree v
        rw [hfirst]
        exact ⟨iff_of_true ⟨rfl, hadd.live_perm⟩ hkey, fun _ => hadd⟩

theorem remove_spec (h : s.Holds hash m.live) (pid : BitVec 32) (vmStart vmEnd vmPgoff : BitVec 64) :
    (StepRight hash s m (.remove pid vmStart vmEnd vmPgoff) ↔
        Tellable m (.remove pid vmStart vmEnd vmPgoff)) ∧
      (Tellable m (.remove pid vmStart vmEnd vmPgoff) →
        (s.step hash (.remove pid vmStart vmEnd vmPgoff)).2.Holds hash
          (m.step (.remove pid vmStart vmEnd vmPgoff)).2.live) := by
  unfold StepRight
  simp only [VmaTables.step, VmaTables.removeVmaMapInfo, VmaStore.step]
  rcases getMapEntry_cases h pid vmStart with ⟨p, w, hget, hw, hp, rfl, hfind⟩ | ⟨hget, hnone⟩
  · have ht : Tellable m (.remove pid 0 vmEnd vmPgoff) ↔ w.vmStart = 0 := by
      rw [Tellable, if_pos rfl, hfind]
      simp
    have hpid := pid_of_find? hfind
    have hrelease := h.release m.nodup hp
    rw [ht, hget]
    by_cases hzero : w.vmStart = 0
    · have hkey : w.key = (pid, 0) := Prod.ext hpid hzero
      have hmem : (pid, 0) ∈ m.live.map Vma.key :=
        hkey ▸ mem_map_of_mem (mem_of_find?_eq_some hfind)
      rw [if_pos hmem]
      rw [hw, hkey] at hrelease
      exact ⟨iff_of_true ⟨rfl, hrelease.live_perm⟩ hzero, fun _ => hrelease⟩
    · refine ⟨iff_of_false ?_ hzero, fun hin => absurd hin hzero⟩
      by_cases hmem : (pid, 0) ∈ m.live.map Vma.key
      · rw [if_pos hmem]
        intro ⟨_, hperm⟩
        -- `w` is gone, though another area was to be removed
        have hlive := hrelease.live_perm.symm.trans hperm
        have hw' : w ∈ m.live.filter fun v => v.key ≠ (pid, 0) := by
          refine mem_filter.mpr ⟨mem_of_find?_eq_some hfind, decide_eq_true ?_⟩
          exact fun heq => hzero (congrArg Prod.snd heq)
        have hgone := (mem_filter.mp (hlive.mem_iff.mpr hw')).2
        rw [hw] at hgone
        exact of_decide_eq_true hgone rfl
      · rw [if_neg hmem]
        exact fun heq => VmaResult.noConfusion heq.1
  · have ht : Tellable m (.remove pid vmStart vmEnd vmPgoff) ↔
        (pid, vmStart) ∉ m.live.map Vma.key := by
      rw [Tellable]
      split
      · next hzero =>
        refine iff_of_true (fun w hfind => ?_) fun hmem => ?_
        · exact absurd (pid_of_find? hfind) (hnone hzero w (mem_of_find?_eq_some hfind))
        · obtain ⟨w, hw, hpid, -⟩ := key_mem_iff.mp hmem
          exact hnone hzero w hw hpid
      · rfl
    rw [ht, hget]
    by_cases hkey : (pid, vmStart) ∈ m.live.map Vma.key
    · rw [if_pos hkey]
      exact ⟨iff_of_false (fun heq => VmaResult.noConfusion heq.1) (not_not.mpr hkey),
        fun hout => absurd hkey hout⟩
    · rw [if_neg hkey]
      exact ⟨iff_of_true ⟨rfl, h.live_perm⟩ hkey, fun _ => h⟩

theorem find_right (h : s.Holds hash m.live) (pid : BitVec 32) (vmAddr : BitVec 64) :
    (s.step hash (.find pid vmAddr)).1 = (m.step (.find pid vmAddr)).1 ∧
      (s.step hash (.find pid vmAddr)).2.Holds hash (m.step (.find pid vmAddr)).2.live := by
  have hfind := h.find?_map pid (fun v => pid = v.pid ∧ v.Has vmAddr) fun v hv => hv.1.symm
  simp only [VmaTables.step, VmaTables.findVmaMapInfo, VmaStore.step, VmaStore.find?]
  change (List.find? (fun p => decide (pid = (s.items p).pid ∧ (s.items p).vma.Has vmAddr))
    (s.map (hash pid))).map _ = _ at hfind
  rw [← hfind]
  cases List.find? (fun p => decide (pid = (s.items p).pid ∧ (s.items p).vma.Has vmAddr))
    (s.map (hash pid)) with
  | none => exact ⟨rfl, h⟩
  | some p => exact ⟨rfl, h⟩

/-- A call is right if and only if it does not need `addr`. -/
theorem step_spec (h : s.Holds hash m.live) {op : VmaOp}
    (hroom : ∀ v, op = .add v → v.key ∉ m.live.map Vma.key → m.live.length < N) :
    (StepRight hash s m op ↔ Tellable m op) ∧
      (Tellable m op → (s.step hash op).2.Holds hash (m.step op).2.live) := by
  cases op with
  | add v => exact add_spec h v (hroom v rfl)
  | remove pid vmStart vmEnd vmPgoff => exact remove_spec h pid vmStart vmEnd vmPgoff
  | find pid vmAddr =>
    obtain ⟨hresult, hholds⟩ := find_right h pid vmAddr
    exact ⟨iff_of_true ⟨hresult, hholds.live_perm⟩ trivial, fun _ => hholds⟩
  | drop pid =>
    have hholds := h.drop pid
    exact ⟨iff_of_true ⟨rfl, hholds.live_perm⟩ trivial, fun _ => hholds⟩

end Step

/-! ## Whole runs -/

theorem runsRight_iff {N : Nat} {hash : BitVec 32 → Fin 16} (ops : List VmaOp) :
    ∀ {s : VmaTables N} {m : VmaStore}, s.Holds hash m.live → VmaRoom N m ops →
      (RunsRight hash s m ops ↔ AllTellable m ops) := by
  induction ops with
  | nil => exact fun _ _ => Iff.rfl
  | cons op ops ih =>
    intro s m h hroom
    obtain ⟨hnow, hlater⟩ := hroom
    obtain ⟨hright, hholds⟩ := step_spec h hnow
    rw [RunsRight, AllTellable, ← and_assoc]
    exact (and_congr_left' hright).trans (and_congr_right fun ht => ih (hholds ht) hlater)

/-- The functions are a keyed store along a run exactly if no call of the run needs to find an
area by its start: an area is added only if it is not there, or starts at 0 and is there, with no
other area of the task in the way; and an area is removed only if it is not there, or starts at 0
and is the latest one of its task. -/
theorem vma_runsRight_iff {N : Nat} (hash : BitVec 32 → Fin 16) (ops : List VmaOp)
    (hroom : VmaRoom N .empty ops) :
    RunsRight hash (VmaTables.initial : VmaTables N) .empty ops ↔ AllTellable .empty ops :=
  runsRight_iff ops VmaTables.holds_initial hroom

/-- Add an area, find an address in it, and drop the task. -/
def quietOps : List VmaOp :=
  [.add ⟨7, 0x1000, 0x2000, 0, 1⟩, .find 7 0x1800, .drop 7]

theorem vma_runsRight_quietOps :
    VmaRoom 100 .empty quietOps ∧
      RunsRight (fun _ => 0) (VmaTables.initial : VmaTables 100) .empty quietOps := by
  have hroom : VmaRoom 100 .empty quietOps :=
    ⟨fun _ _ _ => by decide, fun _ h => VmaOp.noConfusion h, fun _ h => VmaOp.noConfusion h, trivial⟩
  refine ⟨hroom, (vma_runsRight_iff _ _ hroom).mpr ⟨?_, trivial, trivial, trivial⟩⟩
  exact not_mem_nil

/-- Adding an area twice succeeds, and removing it fails. -/
theorem vma_not_runsRight :
    let v : Vma := ⟨7, 0x1000, 0x2000, 0, 1⟩
    VmaRoom 100 .empty [.add v, .add v] ∧
      ¬ RunsRight (fun _ => 0) (VmaTables.initial : VmaTables 100) .empty [.add v, .add v] ∧
      ¬ RunsRight (fun _ => 0) (VmaTables.initial : VmaTables 100) .empty
        [.add v, .remove 7 0x1000 0x2000 0] := by
  refine ⟨⟨fun _ _ _ => by decide, fun _ _ _ => by decide, trivial⟩, ?_, ?_⟩
  · intro h
    exact absurd h.2.2.1 (by decide +kernel)
  · intro h
    exact absurd h.2.2.1 (by decide +kernel)

/-- Whatever is called, and whether or not it is right: each item is free or in the chain of its
task, and only once. -/
theorem vma_run_holds {N : Nat} (hash : BitVec 32 → Fin 16) (ops : List VmaOp) :
    ∃ live, (ops.foldl (fun s op => (s.step hash op).2) (.initial : VmaTables N)).Holds hash live := by
  refine foldlRecOn (motive := fun s : VmaTables N => ∃ live, s.Holds hash live) ops _
    ⟨[], VmaTables.holds_initial⟩ fun s ⟨live, h⟩ op _ => ?_
  cases op with
  | add v =>
    simp only [VmaTables.step, VmaTables.addVmaMapInfo, VmaTables.getFreeEntry]
    cases s.getMapEntry hash v.pid v.vmStart with
    | some p => exact ⟨live, h⟩
    | none =>
      cases hfree : s.free with
      | nil => exact ⟨live, h⟩
      | cons p free => exact ⟨_, h.add hfree v⟩
  | remove pid vmStart vmEnd vmPgoff =>
    simp only [VmaTables.step, VmaTables.removeVmaMapInfo]
    cases hget : s.getMapEntry hash pid vmStart with
    | none => exact ⟨live, h⟩
    | some p =>
      obtain ⟨used, hstores, -⟩ := h.stores
      obtain ⟨hmem, hpid⟩ := hstores.mem_chain.mp (mem_of_find?_eq_some hget)
      exact ⟨_, h.addr_zero, _, hpid ▸ hstores.put hmem _ fun _ _ => rfl, rfl⟩
  | find => exact ⟨live, h⟩
  | drop pid => exact ⟨_, h.drop pid⟩

end Systemtap.Runtime
