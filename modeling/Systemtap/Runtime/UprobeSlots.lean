import Mathlib

/-!
# The slots for uprobes

`stap_uprobe_change_plus` is called when an area with probes in it appears in a process. For each
probe of the area it looks for a slot in `stap_uprobes`, marks it with the probe's index and
registers a uprobe from it. `stap_uprobe_change_minus` is called when an area goes away; it unmaps
what is registered there and frees the slots.

The busy slots should be the live registrations. One account says what an iteration of the loop
does to both (`plusSpec_account`): it adds the same to the slots and to the registrations,
except that a registration is lost whose slot was taken although it was busy. This
happens to a probe with a semaphore when the area is writable: a slot that has the index of the
probe counts as usable, whosever it is. A registration that has no slot is never found again.

When there is no usable slot, the search ends with `sup` at the last slot, and the address of the
semaphore is written there. So the table stays as it is exactly if this write does no harm
(`SemKept`).
-/

namespace Systemtap.Runtime

open Function List

/-! ## The code -/

/-- `struct stap_uprobe_spec`, without what is only used when the probe is hit. -/
structure UprobeSpec where
  tfi : Nat
  returnP : Bool
  address : BitVec 64
  sdtSemOffset : BitVec 64

/-- `struct stap_uprobe`; `up` and `urp.u` are the same memory. A free slot has no index. -/
structure StapUprobe (n : Nat) where
  pid : BitVec 32
  vaddr : BitVec 64
  specIndex : Option (Fin n)
  sdtSemAddress : BitVec 64
deriving DecidableEq

structure Registration (n : Nat) where
  spec : Fin n
  tgid : BitVec 32
  vaddr : BitVec 64
deriving DecidableEq

/-- `MAXUPROBES` is `N + 1`; `live` is what has been registered and not been unmapped. -/
structure Uprobes (N n : Nat) where
  slots : Fin (N + 1) → StapUprobe n
  live : Multiset (Registration n)

/-- The bits of `vm_flags` that are looked at. -/
structure VmFlags where
  write : Bool
  exec : Bool
  executable : Bool

/-- The arguments of `stap_uprobe_change_plus`, and what the registrations will return. -/
structure PlusCall (n : Nat) where
  tgid : BitVec 32
  relocation : BitVec 64
  length : BitVec 64
  tfi : Nat
  offset : BitVec 64
  vmFlags : VmFlags
  rc : Fin n → Int

/-- The arguments of `stap_uprobe_change_minus`. -/
structure MinusCall where
  tgid : BitVec 32
  relocation : BitVec 64
  length : BitVec 64

inductive UprobeCall (n : Nat) where
  | plus (c : PlusCall n)
  | minus (c : MinusCall)

/-- The loop does not `continue` at this probe. -/
def PlusCall.wants {n : Nat} (call : PlusCall n) (sups : UprobeSpec) : Bool :=
  sups.tfi = call.tfi && !(call.vmFlags.exec && sups.address ≥ call.length)

/-- The address of the probe's semaphore. -/
def PlusCall.semAddress {n : Nat} (call : PlusCall n) (sups : UprobeSpec) : BitVec 64 :=
  if call.vmFlags.executable then call.relocation + sups.sdtSemOffset
  else (call.relocation - call.offset) + sups.sdtSemOffset

def StapUprobe.setSem {n : Nat} (sup : StapUprobe n) (call : PlusCall n) (sups : UprobeSpec) :
    StapUprobe n :=
  if sups.sdtSemOffset ≠ 0 ∧ (sup.pid ≠ call.tgid ∨ sup.sdtSemAddress = 0) then
    { sup with sdtSemAddress := call.semAddress sups }
  else sup

namespace Uprobes

variable {N n : Nat} (specs : Fin n → UprobeSpec)

/-- After `emit_module_init`. -/
def initial : Uprobes N n := ⟨fun _ => ⟨0, 0, none, 0⟩, 0⟩

/-- The search for a slot. -/
def findSlot (s : Uprobes N n) (call : PlusCall n) (k : Fin n) : Option (Fin (N + 1)) :=
  (List.finRange (N + 1)).find? fun i =>
    (s.slots i).specIndex = none ∨
      ((specs k).sdtSemOffset ≠ 0 ∧ call.vmFlags.write ∧ (s.slots i).specIndex = some k)

/-- An iteration of the loop of `stap_uprobe_change_plus`. -/
def plusSpec (call : PlusCall n) (s : Uprobes N n) (k : Fin n) : Uprobes N n :=
  if call.wants (specs k) then
    match s.findSlot specs call k with
    | some i =>
      let sup := { s.slots i with specIndex := some k }.setSem call (specs k)
      let vaddr := call.relocation + (specs k).address
      let sup := { sup with pid := call.tgid, vaddr := vaddr }
      -- `register_uretprobe` or `register_uprobe`
      if call.rc k ≠ 0 then
        ⟨Function.update s.slots i { sup with specIndex := none }, s.live⟩
      else
        ⟨Function.update s.slots i sup, s.live + {⟨k, call.tgid, vaddr⟩}⟩
    | none =>
      -- `sup` is still at the last slot
      let i := Fin.last N
      { s with slots := Function.update s.slots i ((s.slots i).setSem call (specs k)) }
  else s

/-- `stap_uprobe_change_plus` -/
def changePlus (s : Uprobes N n) (call : PlusCall n) : Uprobes N n :=
  (List.finRange n).foldl (plusSpec specs call) s

/-- `unmap_uretprobe` or `unmap_uprobe`, and `sup->spec_index = -1` -/
def unmap (s : Uprobes N n) (i : Fin (N + 1)) (k : Fin n) : Uprobes N n :=
  ⟨Function.update s.slots i { s.slots i with specIndex := none },
    s.live.erase ⟨k, (s.slots i).pid, (s.slots i).vaddr⟩⟩

/-- An iteration of the loop of `stap_uprobe_change_minus`. -/
def minusSlot (call : MinusCall) (s : Uprobes N n) (i : Fin (N + 1)) : Uprobes N n :=
  let sup := s.slots i
  match sup.specIndex with
  | none => s
  | some k =>
    if (specs k).returnP = true ∧ sup.pid = call.tgid ∧ sup.vaddr ≥ call.relocation ∧
        sup.vaddr < call.relocation + call.length then s.unmap i k
    else if (specs k).returnP = false ∧ sup.pid = call.tgid ∧ sup.vaddr ≥ call.relocation ∧
        sup.vaddr < call.relocation + call.length then s.unmap i k
    else s

/-- `stap_uprobe_change_minus` -/
def changeMinus (s : Uprobes N n) (call : MinusCall) : Uprobes N n :=
  (List.finRange (N + 1)).foldl (minusSlot specs call) s

def step (s : Uprobes N n) : UprobeCall n → Uprobes N n
  | .plus call => s.changePlus specs call
  | .minus call => s.changeMinus specs call

end Uprobes

/-! ## What should hold -/

/-- What the slot stands for. -/
def StapUprobe.registrations {n : Nat} (sup : StapUprobe n) : Multiset (Registration n) :=
  match sup.specIndex with
  | none => 0
  | some k => {⟨k, sup.pid, sup.vaddr⟩}

namespace Uprobes

variable {N n : Nat} (specs : Fin n → UprobeSpec)

/-- What the slots stand for together. -/
def busy (s : Uprobes N n) : Multiset (Registration n) := ∑ i, (s.slots i).registrations

/-- Each busy slot stands for one live registration, and each live registration has one slot. -/
def Mirrors (s : Uprobes N n) : Prop := s.busy = s.live

/-- The call finds no usable slot for any probe. -/
def FindsNone (s : Uprobes N n) (call : PlusCall n) : Prop :=
  ∀ k, call.wants (specs k) = true → s.findSlot specs call k = none

/-- After each call the slots mirror the registrations, and a call that finds no slot has left them
as they were. -/
def AllRight : Uprobes N n → List (UprobeCall n) → Prop
  | _, [] => True
  | s, c :: cs =>
    (s.step specs c).Mirrors ∧
      (∀ call, c = .plus call → s.FindsNone specs call → (s.step specs c).slots = s.slots) ∧
      AllRight (s.step specs c) cs

/-! ## When it does -/

/-- The slot that is taken for the probe is free. -/
def TakesFree (s : Uprobes N n) (call : PlusCall n) (k : Fin n) : Prop :=
  call.wants (specs k) = true → ∀ i, s.findSlot specs call k = some i → (s.slots i).specIndex = none

/-- So it is for each probe of the loop, in the state it is reached in. -/
def TakeFree (call : PlusCall n) : Uprobes N n → List (Fin n) → Prop
  | _, [] => True
  | s, k :: ks => s.TakesFree specs call k ∧ TakeFree call (plusSpec specs call s k) ks

/-- The addresses of semaphores that a call computes. -/
def semWrites (call : PlusCall n) : List (BitVec 64) :=
  ((List.finRange n).filter fun k => call.wants (specs k) ∧ (specs k).sdtSemOffset ≠ 0).map
    fun k => call.semAddress (specs k)

/-- Writing them to the last slot changes nothing. A slot of the same process takes an address only
as long as it has none; that of another process takes them all, and the last one stays. -/
def SemKept (s : Uprobes N n) (call : PlusCall n) : Prop :=
  let sup := s.slots (Fin.last N)
  if sup.pid = call.tgid then sup.sdtSemAddress ≠ 0 ∨ ∀ a ∈ semWrites specs call, a = 0
  else ∀ a, (semWrites specs call).getLast? = some a → a = sup.sdtSemAddress

/-- Each call takes free slots only, and does no harm if it finds none. -/
def AllSound : Uprobes N n → List (UprobeCall n) → Prop
  | _, [] => True
  | s, c :: cs =>
    (∀ call, c = .plus call → TakeFree specs call s (List.finRange n) ∧
      (s.FindsNone specs call → s.SemKept specs call)) ∧
      AllSound (s.step specs c) cs

end Uprobes

/-! ## The account -/

section Account

variable {N n : Nat} {specs : Fin n → UprobeSpec} {s : Uprobes N n} {call : PlusCall n} {k : Fin n}

theorem StapUprobe.registrations_setSem (sup : StapUprobe n) (call : PlusCall n)
    (sups : UprobeSpec) : (sup.setSem call sups).registrations = sup.registrations := by
  unfold setSem
  split <;> rfl

theorem StapUprobe.specIndex_setSem (sup : StapUprobe n) (call : PlusCall n) (sups : UprobeSpec) :
    (sup.setSem call sups).specIndex = sup.specIndex := by
  unfold setSem
  split <;> rfl

theorem StapUprobe.registrations_of_some {sup : StapUprobe n} (h : sup.specIndex = some k) :
    sup.registrations = {⟨k, sup.pid, sup.vaddr⟩} := by
  rw [registrations, h]

/-- A slot is rewritten. -/
theorem sum_registrations_update (slots : Fin (N + 1) → StapUprobe n) (i : Fin (N + 1))
    (sup : StapUprobe n) :
    (∑ j, (update slots i sup j).registrations) + (slots i).registrations =
      (∑ j, (slots j).registrations) + sup.registrations := by
  have hrest : ∑ j ∈ Finset.univ.erase i, (update slots i sup j).registrations =
      ∑ j ∈ Finset.univ.erase i, (slots j).registrations := by
    refine Finset.sum_congr rfl fun j hj => ?_
    rw [update_of_ne (Finset.ne_of_mem_erase hj)]
  rw [← Finset.add_sum_erase _ _ (Finset.mem_univ i), hrest, update_self,
    ← Finset.add_sum_erase _ (fun j => (slots j).registrations) (Finset.mem_univ i)]
  abel

namespace Uprobes

/-- What the slot that is taken for the probe stood for. -/
def overwritten (specs : Fin n → UprobeSpec) (s : Uprobes N n) (call : PlusCall n) (k : Fin n) :
    Multiset (Registration n) :=
  if call.wants (specs k) then
    match s.findSlot specs call k with
    | some i => (s.slots i).registrations
    | none => 0
  else 0

theorem takesFree_iff : s.TakesFree specs call k ↔ s.overwritten specs call k = 0 := by
  unfold TakesFree overwritten
  by_cases hw : call.wants (specs k) = true
  · rw [if_pos hw]
    cases s.findSlot specs call k with
    | none => simp
    | some i =>
      cases hi : (s.slots i).specIndex with
      | none => simp [StapUprobe.registrations, hi]
      | some j => simp [StapUprobe.registrations, hi, hw]
  · simp [hw]

/-- An iteration adds the same to the slots and to the registrations, and the slots lose what was
overwritten. -/
theorem plusSpec_account (specs : Fin n → UprobeSpec) (s : Uprobes N n) (call : PlusCall n)
    (k : Fin n) : ∃ gain,
      (plusSpec specs call s k).busy + s.overwritten specs call k = s.busy + gain ∧
        (plusSpec specs call s k).live = s.live + gain := by
  unfold plusSpec overwritten
  by_cases hw : call.wants (specs k) = true
  · rw [if_pos hw, if_pos hw]
    cases s.findSlot specs call k with
    | none =>
      have hsum := sum_registrations_update s.slots (Fin.last N)
        ((s.slots (Fin.last N)).setSem call (specs k))
      rw [StapUprobe.registrations_setSem] at hsum
      simpa [busy] using add_right_cancel hsum
    | some i =>
      dsimp only
      split
      · exact ⟨0, sum_registrations_update _ _ _, (add_zero _).symm⟩
      · refine ⟨{⟨k, call.tgid, call.relocation + (specs k).address⟩}, ?_, rfl⟩
        refine (sum_registrations_update _ _ _).trans ?_
        rw [StapUprobe.registrations_of_some (k := k)]
        · rfl
        · exact StapUprobe.specIndex_setSem _ _ _
  · rw [if_neg hw, if_neg hw]
    exact ⟨0, rfl, (add_zero _).symm⟩

/-- An iteration that takes a free slot keeps the mirror. -/
theorem Mirrors.plusSpec (hs : s.Mirrors) (h : s.TakesFree specs call k) :
    (plusSpec specs call s k).Mirrors := by
  obtain ⟨gain, hbusy, hlive⟩ := plusSpec_account specs s call k
  rw [takesFree_iff.mp h, add_zero] at hbusy
  unfold Mirrors
  rw [hbusy, hlive, hs]

/-- How many registrations have no slot. -/
def strays (s : Uprobes N n) : Int := s.live.card - s.busy.card

theorem Mirrors.strays_eq_zero (hs : s.Mirrors) : s.strays = 0 := by
  unfold strays
  rw [hs, sub_self]

theorem strays_plusSpec (specs : Fin n → UprobeSpec) (s : Uprobes N n) (call : PlusCall n)
    (k : Fin n) :
    (plusSpec specs call s k).strays = s.strays + (s.overwritten specs call k).card := by
  obtain ⟨gain, hbusy, hlive⟩ := plusSpec_account specs s call k
  have hcard := congrArg Multiset.card hbusy
  rw [Multiset.card_add, Multiset.card_add] at hcard
  unfold strays
  rw [hlive, Multiset.card_add]
  omega

/-- Strays only get more, and with each slot that is taken from another registration they do. -/
theorem strays_le_foldl (ks : List (Fin n)) : ∀ {s : Uprobes N n},
    s.strays ≤ (ks.foldl (Uprobes.plusSpec specs call) s).strays ∧
      (¬ TakeFree specs call s ks →
        s.strays < (ks.foldl (Uprobes.plusSpec specs call) s).strays) := by
  induction ks with
  | nil => exact ⟨le_refl _, fun h => absurd trivial h⟩
  | cons k ks ih =>
    intro s
    have hstep := strays_plusSpec specs s call k
    obtain ⟨hle, hlt⟩ := ih (s := Uprobes.plusSpec specs call s k)
    rw [foldl_cons]
    refine ⟨by omega, fun hnot => ?_⟩
    by_cases hk : s.TakesFree specs call k
    · have := hlt fun hks => hnot ⟨hk, hks⟩
      omega
    · rw [takesFree_iff] at hk
      have := Multiset.card_pos.mpr hk
      omega

theorem Mirrors.foldl_plusSpec (ks : List (Fin n)) : ∀ {s : Uprobes N n}, s.Mirrors →
    TakeFree specs call s ks → (ks.foldl (Uprobes.plusSpec specs call) s).Mirrors := by
  induction ks with
  | nil => exact fun hs _ => hs
  | cons k ks ih => exact fun hs h => ih (hs.plusSpec h.1) h.2

theorem Mirrors.changePlus_iff (hs : s.Mirrors) :
    (s.changePlus specs call).Mirrors ↔ TakeFree specs call s (finRange n) := by
  constructor
  · intro h
    by_contra hnot
    have hlt := (strays_le_foldl (finRange n)).2 hnot
    rw [hs.strays_eq_zero] at hlt
    have hzero : ((finRange n).foldl (Uprobes.plusSpec specs call) s).strays = 0 :=
      h.strays_eq_zero
    omega
  · exact hs.foldl_plusSpec _

/-! ## Unmapping -/

theorem Mirrors.unmap (hs : s.Mirrors) {i : Fin (N + 1)} (hi : (s.slots i).specIndex = some k) :
    (s.unmap i k).Mirrors := by
  have hsum := sum_registrations_update s.slots i { s.slots i with specIndex := none }
  rw [StapUprobe.registrations_of_some hi] at hsum
  have hlive : s.live = (s.unmap i k).busy + {⟨k, (s.slots i).pid, (s.slots i).vaddr⟩} := by
    rw [← show s.busy = s.live from hs]
    exact (hsum.trans (add_zero _)).symm
  show (s.unmap i k).busy = s.live.erase _
  rw [hlive, add_comm, Multiset.singleton_add, Multiset.erase_cons_head]

theorem Mirrors.minusSlot (hs : s.Mirrors) (c : MinusCall) (i : Fin (N + 1)) :
    (minusSlot specs c s i).Mirrors := by
  unfold Uprobes.minusSlot
  dsimp only
  split
  · exact hs
  · next k hk =>
    split
    · exact hs.unmap hk
    · split
      · exact hs.unmap hk
      · exact hs

theorem Mirrors.changeMinus (hs : s.Mirrors) (c : MinusCall) : (s.changeMinus specs c).Mirrors := by
  have hfold : ∀ (is : List (Fin (N + 1))) {s : Uprobes N n}, s.Mirrors →
      (is.foldl (Uprobes.minusSlot specs c) s).Mirrors := by
    intro is
    induction is with
    | nil => exact fun hs => hs
    | cons i is ih => exact fun hs => ih (hs.minusSlot c i)
  exact hfold _ hs

/-! ## The last slot -/

/-- The last slot has another address of a semaphore. -/
def withSem (s : Uprobes N n) (a : BitVec 64) : Uprobes N n :=
  let sup := s.slots (Fin.last N)
  { s with slots := Function.update s.slots (Fin.last N) { sup with sdtSemAddress := a } }

theorem withSem_self (s : Uprobes N n) : s.withSem (s.slots (Fin.last N)).sdtSemAddress = s := by
  show (⟨update s.slots (Fin.last N) (s.slots (Fin.last N)), s.live⟩ : Uprobes N n) = s
  rw [update_eq_self]

theorem slots_withSem_iff {a : BitVec 64} :
    (s.withSem a).slots = s.slots ↔ a = (s.slots (Fin.last N)).sdtSemAddress := by
  unfold withSem
  rw [update_eq_self_iff]
  constructor
  · exact fun h => congrArg StapUprobe.sdtSemAddress h
  · intro h
    rw [h]

theorem findSlot_withSem (a : BitVec 64) :
    (s.withSem a).findSlot specs call k = s.findSlot specs call k := by
  have hindex : ∀ i, ((s.withSem a).slots i).specIndex = (s.slots i).specIndex := by
    intro i
    unfold withSem
    by_cases hi : i = Fin.last N
    · subst hi
      simp
    · simp [hi]
  unfold findSlot
  simp only [hindex]

/-- What the address becomes when `a'` is to be written; `own` says that the slot is of the same
process. -/
def semNext (own : Prop) [Decidable own] (a a' : BitVec 64) : BitVec 64 :=
  if ¬ own ∨ a = 0 then a' else a

/-- An iteration that finds no slot writes at most the address of a semaphore. -/
theorem plusSpec_withSem (hnone : s.FindsNone specs call) (a : BitVec 64) :
    plusSpec specs call (s.withSem a) k =
      s.withSem (if call.wants (specs k) ∧ (specs k).sdtSemOffset ≠ 0 then
        semNext ((s.slots (Fin.last N)).pid = call.tgid) a (call.semAddress (specs k)) else a) := by
  unfold plusSpec
  by_cases hw : call.wants (specs k) = true
  · rw [if_pos hw, findSlot_withSem, hnone k hw]
    simp only [hw, true_and, withSem, update_self, update_idem,
      StapUprobe.setSem, semNext]
    by_cases hsem : (specs k).sdtSemOffset = 0
    · simp [hsem]
    · by_cases hnext : (s.slots (Fin.last N)).pid ≠ call.tgid ∨ a = 0
      · rw [if_pos ⟨hsem, hnext⟩, if_pos hsem, if_pos hnext]
      · rw [if_neg fun h => hnext h.2, if_pos hsem, if_neg hnext]
  · simp [hw]

/-- So the whole call writes them one after the other. -/
theorem changePlus_of_findsNone (hnone : s.FindsNone specs call) :
    s.changePlus specs call = s.withSem ((semWrites specs call).foldl
      (semNext ((s.slots (Fin.last N)).pid = call.tgid)) (s.slots (Fin.last N)).sdtSemAddress) := by
  have hfold : ∀ (ks : List (Fin n)) (a : BitVec 64),
      ks.foldl (plusSpec specs call) (s.withSem a) = s.withSem
        (((ks.filter fun k => call.wants (specs k) ∧ (specs k).sdtSemOffset ≠ 0).map
          fun k => call.semAddress (specs k)).foldl
            (semNext ((s.slots (Fin.last N)).pid = call.tgid)) a) := by
    intro ks
    induction ks with
    | nil => exact fun a => rfl
    | cons k ks ih =>
      intro a
      rw [foldl_cons, plusSpec_withSem hnone, ih, filter_cons]
      by_cases hk : call.wants (specs k) = true ∧ (specs k).sdtSemOffset ≠ 0
      · rw [if_pos hk, if_pos (decide_eq_true hk), map_cons, foldl_cons]
      · rw [if_neg hk, if_neg (by simpa using hk)]
  have hcall := hfold (finRange n) (s.slots (Fin.last N)).sdtSemAddress
  rw [withSem_self] at hcall
  exact hcall

/-- A slot of the same process keeps the first address that is not 0. -/
theorem foldl_semNext_own {own : Prop} [Decidable own] (hown : own) (as : List (BitVec 64)) :
    ∀ a, as.foldl (semNext own) a = a ↔ a ≠ 0 ∨ ∀ a' ∈ as, a' = 0 := by
  have hkeep : ∀ (as : List (BitVec 64)) a, a ≠ 0 → as.foldl (semNext own) a = a := by
    intro as
    induction as with
    | nil => exact fun a _ => rfl
    | cons a' as ih =>
      intro a ha
      have hnext : semNext own a a' = a := if_neg fun h => h.elim (fun h => h hown) ha
      rw [foldl_cons, hnext]
      exact ih a ha
  intro a
  by_cases ha : a = 0
  · subst ha
    simp only [ne_eq, not_true_eq_false, false_or]
    induction as with
    | nil => simp
    | cons a' as ih =>
      have hnext : semNext own 0 a' = a' := by simp [semNext]
      rw [foldl_cons, hnext, forall_mem_cons]
      by_cases ha' : a' = 0
      · rw [ha', ih]
        simp
      · rw [hkeep as a' ha']
        exact ⟨fun h => absurd h ha', And.left⟩
  · exact ⟨fun _ => .inl ha, fun _ => hkeep as a ha⟩

/-- A slot of another process takes the last one. -/
theorem foldl_semNext_other {own : Prop} [Decidable own] (hown : ¬ own) (as : List (BitVec 64))
    (a : BitVec 64) : as.foldl (semNext own) a = a ↔ ∀ a', as.getLast? = some a' → a' = a := by
  rcases eq_nil_or_concat' as with rfl | ⟨as, a', rfl⟩
  · simp
  · simp [semNext, hown]

theorem slots_changePlus_iff (hnone : s.FindsNone specs call) :
    (s.changePlus specs call).slots = s.slots ↔ s.SemKept specs call := by
  rw [changePlus_of_findsNone hnone, slots_withSem_iff]
  unfold SemKept
  by_cases hown : (s.slots (Fin.last N)).pid = call.tgid
  · rw [if_pos hown]
    exact foldl_semNext_own hown _ _
  · rw [if_neg hown]
    exact foldl_semNext_other hown _ _

end Uprobes

end Account

namespace Uprobes

variable {N n : Nat}

theorem mirrors_initial : (initial : Uprobes N n).Mirrors := by
  show ∑ i : Fin (N + 1), (0 : Multiset (Registration n)) = 0
  exact Finset.sum_const_zero

theorem Mirrors.allRight_iff (specs : Fin n → UprobeSpec) (calls : List (UprobeCall n)) :
    ∀ {s : Uprobes N n}, s.Mirrors → (s.AllRight specs calls ↔ s.AllSound specs calls) := by
  induction calls with
  | nil => exact fun _ => Iff.rfl
  | cons c cs ih =>
    intro s hs
    cases c with
    | plus call =>
      have hfirst : (s.step specs (.plus call)).Mirrors ↔
          TakeFree specs call s (finRange n) := hs.changePlus_iff
      constructor
      · intro ⟨hmirror, hkept, hrest⟩
        refine ⟨fun call' heq => ?_, (ih hmirror).mp hrest⟩
        obtain rfl := UprobeCall.plus.inj heq
        exact ⟨hfirst.mp hmirror, fun hnone => (slots_changePlus_iff hnone).mp (hkept _ rfl hnone)⟩
      · intro ⟨hcall, hrest⟩
        obtain ⟨hfree, hsem⟩ := hcall call rfl
        refine ⟨hfirst.mpr hfree, fun call' heq hnone => ?_, (ih (hfirst.mpr hfree)).mpr hrest⟩
        obtain rfl := UprobeCall.plus.inj heq
        exact (slots_changePlus_iff hnone).mpr (hsem hnone)
    | minus c =>
      have hmirror : (s.step specs (.minus c)).Mirrors := hs.changeMinus c
      constructor
      · exact fun h => ⟨fun call heq => (by cases heq), (ih hmirror).mp h.2.2⟩
      · exact fun h => ⟨hmirror, fun call heq => (by cases heq), (ih hmirror).mpr h.2⟩

/-- Over every sequence of calls, the slots mirror the live registrations after each of them, and a
call that finds no slot leaves the slots alone, if and only if each call takes free slots only and
writes no new address to the last slot when it finds none. -/
theorem slots_mirror_iff (specs : Fin n → UprobeSpec) (calls : List (UprobeCall n)) :
    (initial : Uprobes N n).AllRight specs calls ↔ (initial : Uprobes N n).AllSound specs calls :=
  mirrors_initial.allRight_iff specs calls

/-- A probe with a semaphore. -/
def semSpec (_ : Fin 1) : UprobeSpec := ⟨0, false, 16, 32⟩

/-- An area appears at `base` in the process `tgid`, and the registration succeeds. -/
def mapped (tgid : BitVec 32) (base : BitVec 64) (write : Bool) : PlusCall 1 :=
  ⟨tgid, base, 64, 0, 0, ⟨write, true, false⟩, fun _ => 0⟩

/-- With one slot and a writable area the second process takes the slot of the first one; with an
area that is not writable it finds no slot, but writes the address of its semaphore. -/
theorem slots_not_mirrored :
    ¬ (initial : Uprobes 0 1).AllRight semSpec
        [.plus (mapped 1 4096 true), .plus (mapped 2 8192 true)] ∧
      ¬ (initial : Uprobes 0 1).AllRight semSpec
        [.plus (mapped 1 4096 false), .plus (mapped 2 8192 false)] := by
  constructor
  · intro ⟨_, _, hmirror, _⟩
    have hcard := congrArg Multiset.card hmirror
    exact absurd hcard (by decide)
  · intro ⟨_, _, _, hkept, _⟩
    have hnone : ((initial : Uprobes 0 1).step semSpec (.plus (mapped 1 4096 false))).FindsNone
        semSpec (mapped 2 8192 false) := by
      intro k _
      revert k
      decide
    have hslot := congrArg (fun slots => (slots 0).sdtSemAddress) (hkept _ rfl hnone)
    exact absurd hslot (by decide)

end Uprobes

end Systemtap.Runtime
