import Systemtap.Runtime.UprobeSlots

/-!
# The semaphores of static probes

A static probe may have a semaphore, a 16-bit counter in the memory of the process that says how many probes
listen. `stap_uprobe_change_semaphore_plus` counts it up for each slot that has its address, when the area it
lies in appears; the code of `emit_module_exit` counts it down for each slot that is left. Taking a slot and
freeing one do not touch it.

So the semaphores are right after an event exactly if the event has changed the number of slots by as much as
it has counted (`Sound`). They are not when the executable part of a library appears, whose slots are counted
only with its writable part; when a process is found again, whose slots are counted again; and when
an area is unmapped in a process that goes on.

A process is its `tgid`. Semaphores do not overlap, and reading or writing one works.
-/

namespace Systemtap.Runtime

open List Uprobes

/-! ## The code -/

/-- What the task finder tells the callbacks. -/
inductive ProbeEvent (n : Nat) where
  /-- `stap_uprobe_process_found` with `register_p`, for a target that is an executable -/
  | found (tgid : BitVec 32) (tfi : Nat) (rc : Fin n → Int)
  /-- `stap_uprobe_mmap_found`; `samePath` is whether the path is that of the target -/
  | mmap (call : PlusCall n) (samePath : Bool)
  /-- `stap_uprobe_munmap_found` -/
  | munmap (call : MinusCall)
  /-- `stap_uprobe_process_found` or `stap_uprobe_process_munmap` without `register_p` -/
  | exit (tgid : BitVec 32)

/-- The semaphores in the memory of each process. -/
abbrev SemMemory := BitVec 32 → BitVec 64 → BitVec 16

/-- A semaphore is read, changed by `d` and written back. -/
def SemMemory.change (m : SemMemory) (tgid : BitVec 32) (a : BitVec 64) (d : BitVec 16) : SemMemory :=
  fun pid b => if pid = tgid ∧ b = a then m pid b + d else m pid b

variable {N n : Nat}

/-- An iteration of the loop of `stap_uprobe_change_semaphore_plus`. -/
def StapUprobe.semaphorePlus (sup : StapUprobe n) (tgid : BitVec 32) (relocation length : BitVec 64)
    (m : SemMemory) : SemMemory :=
  if sup.specIndex = none then m
  else if sup.sdtSemAddress ≠ 0 ∧ ¬ (sup.pid = tgid ∧ sup.sdtSemAddress ≥ relocation ∧
      sup.sdtSemAddress < relocation + length) then m
  else if sup.sdtSemAddress ≠ 0 then m.change tgid sup.sdtSemAddress 1
  else m

/-- `stap_uprobe_change_semaphore_plus` -/
def Uprobes.changeSemaphorePlus (s : Uprobes N n) (tgid : BitVec 32) (relocation length : BitVec 64)
    (m : SemMemory) : SemMemory :=
  (List.finRange (N + 1)).foldl (fun m i => (s.slots i).semaphorePlus tgid relocation length m) m

/-- The slots, the semaphores, and the processes that have exited. -/
structure Semaphores (N n : Nat) where
  uprobes : Uprobes N n
  mem : SemMemory
  gone : List (BitVec 32)

/-- The arguments of `stap_uprobe_change_plus` for an executable; `taskSize` is `TASK_SIZE`. -/
def foundCall (taskSize : BitVec 64) (tgid : BitVec 32) (tfi : Nat) (rc : Fin n → Int) : PlusCall n :=
  ⟨tgid, 0, taskSize, tfi, 0, ⟨false, false, false⟩, rc⟩

namespace Semaphores

variable (specs : Fin n → UprobeSpec) (taskSize : BitVec 64)

def initial (mem : SemMemory) : Semaphores N n := ⟨.initial, mem, []⟩

def step (s : Semaphores N n) : ProbeEvent n → Semaphores N n
  | .found tgid tfi rc =>
    let uprobes := s.uprobes.changePlus specs (foundCall taskSize tgid tfi rc)
    ⟨uprobes, uprobes.changeSemaphorePlus tgid 0 taskSize s.mem, s.gone⟩
  | .mmap call samePath =>
    if samePath = false then s
    else if call.vmFlags.exec then { s with uprobes := s.uprobes.changePlus specs call }
    else if call.vmFlags.write then
      { s with mem := s.uprobes.changeSemaphorePlus call.tgid call.relocation call.length s.mem }
    else s
  | .munmap call => { s with uprobes := s.uprobes.changeMinus specs call }
  | .exit tgid => ⟨s.uprobes.changeMinus specs ⟨tgid, 0, taskSize⟩, s.mem, tgid :: s.gone⟩

/-- An iteration of the loop of the code of `emit_module_exit`. -/
def exitSlot (s : Semaphores N n) (i : Fin (N + 1)) : Semaphores N n :=
  let sup := s.uprobes.slots i
  match sup.specIndex with
  | none => s
  | some k =>
    -- `pid_task` finds no process that is gone
    ⟨s.uprobes.unmap i k, if sup.sdtSemAddress ≠ 0 ∧ sup.pid ∉ s.gone then
      s.mem.change sup.pid sup.sdtSemAddress (-1) else s.mem, s.gone⟩

def moduleExit (s : Semaphores N n) : Semaphores N n := (List.finRange (N + 1)).foldl exitSlot s

end Semaphores

/-! ## What should hold -/

/-- The slot is busy, and its semaphore is the one at `a` in `pid`. -/
def StapUprobe.counts (sup : StapUprobe n) (pid : BitVec 32) (a : BitVec 64) : Bool :=
  sup.specIndex.isSome && sup.pid = pid && sup.sdtSemAddress = a

/-- The number of such slots, as far as a semaphore counts. -/
def Uprobes.semCount (s : Uprobes N n) (pid : BitVec 32) (a : BitVec 64) : BitVec 16 :=
  BitVec.ofNat 16 ((List.finRange (N + 1)).countP fun i => (s.slots i).counts pid a)

namespace Semaphores

variable (specs : Fin n → UprobeSpec) (taskSize : BitVec 64)

/-- Each semaphore of a process that is there exceeds its first value by the number of its slots. -/
def Balanced (s : Semaphores N n) (start : SemMemory) : Prop :=
  ∀ pid a, pid ∉ s.gone → a ≠ 0 → s.mem pid a = start pid a + s.uprobes.semCount pid a

/-- After each event they are balanced, and after the exit of the module they have their first values. -/
def AllBalanced (start : SemMemory) : Semaphores N n → List (ProbeEvent n) → Prop
  | s, [] => ∀ pid a, pid ∉ s.gone → a ≠ 0 → s.moduleExit.mem pid a = start pid a
  | s, e :: es => (s.step specs taskSize e).Balanced start ∧ AllBalanced start (s.step specs taskSize e) es

/-- The slots of each semaphore in a process that is there are as many as in `u`. -/
def SameCounts (s : Semaphores N n) (u : Uprobes N n) : Prop :=
  ∀ pid a, pid ∉ s.gone → a ≠ 0 → u.semCount pid a = s.uprobes.semCount pid a

/-- The event changes the number of slots by as much as it counts. What is counted are all slots of
the process in the area, so those that were there before have to be none. -/
def Sound (s : Semaphores N n) : ProbeEvent n → Prop
  | .found tgid tfi rc => ∀ pid a, pid ∉ s.gone → a ≠ 0 →
    if pid = tgid ∧ a < taskSize then s.uprobes.semCount pid a = 0
    else (s.uprobes.changePlus specs (foundCall taskSize tgid tfi rc)).semCount pid a =
      s.uprobes.semCount pid a
  | .mmap call samePath => samePath = true →
    if call.vmFlags.exec then s.SameCounts (s.uprobes.changePlus specs call)
    else call.vmFlags.write → call.tgid ∉ s.gone → ∀ a, a ≠ 0 → call.relocation ≤ a →
      a < call.relocation + call.length → s.uprobes.semCount call.tgid a = 0
  | .munmap call => s.SameCounts (s.uprobes.changeMinus specs call)
  | .exit _ => True

def AllSound : Semaphores N n → List (ProbeEvent n) → Prop
  | _, [] => True
  | s, e :: es => s.Sound specs taskSize e ∧ AllSound (s.step specs taskSize e) es

end Semaphores

/-! ## What the loops count -/

/-- One slot is counted if it is in the area. -/
theorem StapUprobe.semaphorePlus_apply (sup : StapUprobe n) (tgid pid : BitVec 32)
    (relocation length : BitVec 64) (m : SemMemory) {a : BitVec 64} (ha : a ≠ 0) :
    sup.semaphorePlus tgid relocation length m pid a = m pid a +
      if (pid = tgid ∧ relocation ≤ a ∧ a < relocation + length) ∧ sup.counts pid a then 1 else 0 := by
  simp only [semaphorePlus, counts, SemMemory.change, ite_apply]
  by_cases hk : sup.specIndex = none
  · simp [hk]
  · have hbusy : sup.specIndex.isSome := Option.isSome_iff_ne_none.2 hk
    grind

theorem Uprobes.changeSemaphorePlus_apply (s : Uprobes N n) (tgid pid : BitVec 32)
    (relocation length : BitVec 64) (m : SemMemory) {a : BitVec 64} (ha : a ≠ 0) :
    s.changeSemaphorePlus tgid relocation length m pid a = m pid a +
      if pid = tgid ∧ relocation ≤ a ∧ a < relocation + length then s.semCount pid a else 0 := by
  have hfold : ∀ (is : List (Fin (N + 1))) (m : SemMemory),
      is.foldl (fun m i => (s.slots i).semaphorePlus tgid relocation length m) m pid a = m pid a +
        if pid = tgid ∧ relocation ≤ a ∧ a < relocation + length then
          BitVec.ofNat 16 (is.countP fun i => (s.slots i).counts pid a) else 0 := by
    intro is
    induction is with
    | nil => simp
    | cons i is ih =>
      intro m
      rw [foldl_cons, ih, StapUprobe.semaphorePlus_apply _ _ _ _ _ _ ha, countP_cons]
      by_cases harea : pid = tgid ∧ relocation ≤ a ∧ a < relocation + length
      · cases (s.slots i).counts pid a with
        | false => simp [harea]
        | true =>
          simp only [harea, and_self, if_true]
          rw [BitVec.ofNat_add, BitVec.add_assoc, BitVec.add_comm 1]
          rfl
      · simp [harea]
  exact hfold _ m

namespace Semaphores

variable {specs : Fin n → UprobeSpec} {taskSize : BitVec 64} {s : Semaphores N n} {start : SemMemory}

theorem slots_exitSlot {i j : Fin (N + 1)} (h : j ≠ i) :
    (s.exitSlot i).uprobes.slots j = s.uprobes.slots j := by
  unfold exitSlot
  dsimp only
  split
  · rfl
  · exact Function.update_of_ne h _ _

theorem gone_exitSlot (i : Fin (N + 1)) : (s.exitSlot i).gone = s.gone := by
  unfold exitSlot
  dsimp only
  split <;> rfl

variable {pid : BitVec 32}

theorem mem_exitSlot (i : Fin (N + 1)) {a : BitVec 64} (hpid : pid ∉ s.gone)
    (ha : a ≠ 0) : (s.exitSlot i).mem pid a +
      (if (s.uprobes.slots i).counts pid a then 1 else 0) = s.mem pid a := by
  unfold exitSlot StapUprobe.counts
  generalize s.uprobes.slots i = sup
  cases hk : sup.specIndex with
  | none => simp [hk]
  | some k =>
    simp only [hk, SemMemory.change, ite_apply]
    grind

/-- The loop counts down once for each slot. -/
theorem mem_moduleExit {a : BitVec 64} (hpid : pid ∉ s.gone) (ha : a ≠ 0) :
    s.moduleExit.mem pid a + s.uprobes.semCount pid a = s.mem pid a := by
  -- a slot is as it was until the loop comes to it
  have hfold : ∀ (is : List (Fin (N + 1))), is.Nodup → ∀ t : Semaphores N n, t.gone = s.gone →
      (∀ i ∈ is, t.uprobes.slots i = s.uprobes.slots i) → (is.foldl exitSlot t).mem pid a +
        BitVec.ofNat 16 (is.countP fun i => (s.uprobes.slots i).counts pid a) = t.mem pid a := by
    intro is
    induction is with
    | nil => exact fun _ t _ _ => BitVec.add_zero _
    | cons i is ih =>
      intro hnd t hgone hslots
      obtain ⟨hi, hnd⟩ := nodup_cons.1 hnd
      have hrest := ih hnd (t.exitSlot i) ((gone_exitSlot i).trans hgone) fun j hj => by
        have hne : j ≠ i := fun hji => hi (hji ▸ hj)
        rw [slots_exitSlot hne]
        exact hslots j (mem_cons_of_mem _ hj)
      have hfirst := mem_exitSlot (s := t) i (by rwa [hgone]) ha
      rw [hslots i (mem_cons_self ..)] at hfirst
      rw [foldl_cons, countP_cons, BitVec.ofNat_add, ← BitVec.add_assoc, hrest, ← hfirst]
      congr 1
      split <;> rfl
  exact hfold _ (nodup_finRange _) s rfl fun _ _ => rfl

/-! ## Events -/

/-- Unmapping leaves the slots of the other processes alone. -/
theorem semCount_changeMinus {u : Uprobes N n} {call : MinusCall} (h : pid ≠ call.tgid)
    (a : BitVec 64) : (u.changeMinus specs call).semCount pid a = u.semCount pid a := by
  have hslot : ∀ (u : Uprobes N n) (i j : Fin (N + 1)),
      ((minusSlot specs call u i).slots j).counts pid a = (u.slots j).counts pid a := by
    intro u i j
    have hunmap : ∀ k, (u.slots i).pid = call.tgid →
        ((u.unmap i k).slots j).counts pid a = (u.slots j).counts pid a := by
      intro k hpid
      unfold unmap
      by_cases hj : j = i
      · subst hj
        simp [StapUprobe.counts, hpid, h.symm]
      · simp [hj]
    unfold minusSlot
    dsimp only
    split
    · rfl
    · split_ifs with hret hnot
      · exact hunmap _ hret.2.1
      · exact hunmap _ hnot.2.1
      · rfl
  have hfold : ∀ (is : List (Fin (N + 1))) (u : Uprobes N n) (j : Fin (N + 1)),
      ((is.foldl (minusSlot specs call) u).slots j).counts pid a = (u.slots j).counts pid a := by
    intro is
    induction is with
    | nil => exact fun _ _ => rfl
    | cons i is ih =>
      intro u j
      rw [foldl_cons, ih, hslot]
  unfold semCount changeMinus
  simp only [hfold]

/-- A change of the slots that counts nothing. -/
theorem Balanced.slots_iff (hs : s.Balanced start) (u : Uprobes N n) :
    Balanced { s with uprobes := u } start ↔ s.SameCounts u := by
  refine forall₄_congr fun pid a hpid ha => ?_
  rw [hs pid a hpid ha]
  constructor
  · intro h
    bv_omega
  · intro h
    rw [h]

/-- From balanced semaphores an event leads to balanced ones exactly if it is sound. -/
theorem Balanced.step_iff (hs : s.Balanced start) (e : ProbeEvent n) :
    (s.step specs taskSize e).Balanced start ↔ s.Sound specs taskSize e := by
  cases e with
  | found tgid tfi rc =>
    refine forall₄_congr fun pid a hpid ha => ?_
    show changeSemaphorePlus _ _ _ _ _ pid a = _ ↔ _
    rw [changeSemaphorePlus_apply _ _ _ _ _ _ ha, hs pid a hpid ha]
    show start pid a + s.uprobes.semCount pid a + _ = start pid a +
      (s.uprobes.changePlus specs (foundCall taskSize tgid tfi rc)).semCount pid a ↔ _
    have harea : (0 ≤ a ∧ a < 0 + taskSize) ↔ a < taskSize := by
      rw [zero_add]
      exact and_iff_right (Nat.zero_le _)
    simp only [harea]
    generalize (s.uprobes.changePlus specs (foundCall taskSize tgid tfi rc)).semCount pid a = after
    split_ifs
    · constructor <;> intro h <;> bv_omega
    · constructor <;> intro h <;> bv_omega
  | mmap call samePath =>
    cases samePath with
    | false => simpa [step, Sound] using hs
    | true =>
      simp only [step, Sound, Bool.true_eq_false, if_false, forall_const]
      split_ifs with hexec hwrite
      · exact hs.slots_iff _
      · simp only [hwrite, forall_const]
        constructor
        · intro h hgone a ha hle hlt
          have hmem : changeSemaphorePlus _ _ _ _ _ call.tgid a = _ := h call.tgid a hgone ha
          rw [changeSemaphorePlus_apply _ _ _ _ _ _ ha, hs _ a hgone ha,
            if_pos ⟨rfl, hle, hlt⟩] at hmem
          bv_omega
        · intro h pid a hpid ha
          show changeSemaphorePlus _ _ _ _ _ pid a = _
          rw [changeSemaphorePlus_apply _ _ _ _ _ _ ha, hs pid a hpid ha]
          split_ifs with harea
          · obtain ⟨rfl, hle, hlt⟩ := harea
            rw [h hpid a ha hle hlt, add_zero]
          · exact BitVec.add_zero _
      · simpa [hwrite] using hs
  | munmap call => exact hs.slots_iff _
  | exit tgid =>
    refine ⟨fun _ => trivial, fun _ pid a hpid ha => ?_⟩
    obtain ⟨hne, hpid⟩ := not_or.1 (mt mem_cons.2 hpid)
    show s.mem pid a = _
    rw [hs pid a hpid ha]
    have hcount : (s.uprobes.changeMinus specs ⟨tgid, 0, taskSize⟩).semCount pid a = _ :=
      semCount_changeMinus hne a
    exact congrArg _ hcount.symm

theorem Balanced.allBalanced_iff (es : List (ProbeEvent n)) : ∀ {s : Semaphores N n},
    s.Balanced start → (AllBalanced specs taskSize start s es ↔ AllSound specs taskSize s es) := by
  induction es with
  | nil =>
    intro s hs
    refine ⟨fun _ => trivial, fun _ pid a hpid ha => ?_⟩
    have hmem := mem_moduleExit hpid ha
    rw [hs pid a hpid ha] at hmem
    bv_omega
  | cons e es ih =>
    intro s hs
    have hstep : (s.step specs taskSize e).Balanced start ↔ _ := hs.step_iff e
    constructor
    · exact fun ⟨he, hes⟩ => ⟨hstep.1 he, (ih he).1 hes⟩
    · exact fun ⟨he, hes⟩ => ⟨hstep.2 he, (ih (hstep.2 he)).2 hes⟩

theorem balanced_initial (start : SemMemory) : (initial start : Semaphores N n).Balanced start := by
  intro pid a _ _
  have hnone : (finRange (N + 1)).countP
      (fun i => ((Uprobes.initial : Uprobes N n).slots i).counts pid a) = 0 :=
    countP_eq_zero.2 fun _ _ => Bool.false_ne_true
  show start pid a = start pid a + BitVec.ofNat 16 (countP
    (fun i => ((Uprobes.initial : Uprobes N n).slots i).counts pid a) _)
  rw [hnone]
  exact (BitVec.add_zero _).symm

open Uprobes (semSpec mapped)

end Semaphores

end Systemtap.Runtime
