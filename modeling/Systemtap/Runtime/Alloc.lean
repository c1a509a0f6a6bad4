import Mathlib

/-!
# The memory limit of a module

`_stp_kmalloc`, `_stp_kzalloc`, `_stp_vmalloc` and `_stp_alloc_percpu` of `alloc.c` in a build with
`STP_MAXMEMORY`. Each of them refuses a request that would take the size of the module and
`_stp_allocated_memory` past the limit, and adds what it hands out to `_stp_allocated_memory`. The
functions that free memory do not subtract anything, so the counter holds all that was ever handed out.

The counter and the limit are of type `int`, the size of the module is an `unsigned int` and the size of
a request a `size_t`: the check adds the first two in 32 bits and the rest in 64.
-/

namespace Systemtap.Runtime.Alloc

/-! ## The code -/

/-- What does not change while the module is loaded. -/
structure Config where
  /-- `_STP_MODULE_CORE_SIZE` -/
  coreSize : BitVec 32
  /-- `STP_MAXMEMORY`, in KiB -/
  maxMemory : Nat
  /-- `num_online_cpus ()` -/
  cpus : BitVec 32
  /-- `_STP_MAX_PERCPU_SIZE` -/
  maxPercpuSize : Nat

/-- The functions that hand out memory. -/
inductive Allocator where
  | kmalloc
  | kzalloc
  | vmalloc
  | allocPercpu
deriving DecidableEq, Repr

/-- A block that was handed out and not freed. -/
structure Block where
  addr : Nat
  bytes : Nat
deriving DecidableEq, Repr

structure State where
  /-- `_stp_allocated_memory` -/
  allocatedMemory : BitVec 32
  live : List Block
  /-- The address of the next block. -/
  fresh : Nat
  /-- The bytes that were freed; the code does not know them. -/
  freed : Nat
deriving DecidableEq, Repr

def State.start : State := ⟨0, [], 0, 0⟩

def State.liveBytes (s : State) : Nat := (s.live.map Block.bytes).sum

section Code

variable (cfg : Config)

/-- `STP_MAXMEMORY * 1024`, computed as an `int` and compared as a `size_t`. -/
def Config.limit : BitVec 64 := (BitVec.ofNat 32 (cfg.maxMemory * 1024)).signExtend 64

/-- `_STP_MODULE_CORE_SIZE + _stp_allocated_memory + size > STP_MAXMEMORY * 1024` -/
def overLimit (s : State) (bytes : Nat) : Bool :=
  cfg.limit < (cfg.coreSize + s.allocatedMemory).setWidth 64 + BitVec.ofNat 64 bytes

/-- The memory of a request is handed out, if the kernel has it. -/
def handOut (s : State) (bytes : Nat) (kernel : Bool) : Option Nat × State :=
  if kernel then
    (some s.fresh, { s with
      allocatedMemory := s.allocatedMemory + BitVec.ofNat 32 bytes
      live := ⟨s.fresh, bytes⟩ :: s.live
      fresh := s.fresh + 1 })
  else (none, s)

/-- `_stp_kmalloc`; `kernel` says whether the allocator of the kernel succeeds. -/
def kmalloc (s : State) (size : Nat) (kernel : Bool) : Option Nat × State :=
  if overLimit cfg s size then (none, s) else handOut s size kernel

/-- `_stp_kzalloc` -/
def kzalloc (s : State) (size : Nat) (kernel : Bool) : Option Nat × State := kmalloc cfg s size kernel

/-- `_stp_vmalloc` -/
def vmalloc (s : State) (size : Nat) (kernel : Bool) : Option Nat × State := kmalloc cfg s size kernel

/-- `_stp_alloc_percpu` -/
def allocPercpu (s : State) (size : Nat) (kernel : Bool) : Option Nat × State :=
  if cfg.maxPercpuSize < size then (none, s)
  else kmalloc cfg s (size * cfg.cpus.toNat) kernel

def Allocator.run (a : Allocator) (s : State) (size : Nat) (kernel : Bool) : Option Nat × State :=
  match a with
  | .kmalloc => Alloc.kmalloc cfg s size kernel
  | .kzalloc => Alloc.kzalloc cfg s size kernel
  | .vmalloc => Alloc.vmalloc cfg s size kernel
  | .allocPercpu => Alloc.allocPercpu cfg s size kernel

/-- `_stp_kfree`, `_stp_vfree` and `_stp_free_percpu`: the block goes back to the kernel. -/
def release (s : State) (addr : Nat) : State :=
  match s.live.find? (·.addr = addr) with
  | none => s
  | some b => { s with live := s.live.erase b, freed := s.freed + b.bytes }

/-- A call of the runtime. The sizes are below `2 ^ 30`. -/
inductive Call where
  | alloc (allocator : Allocator) (size : Fin (2 ^ 30)) (kernel : Bool)
  | free (addr : Nat)
deriving DecidableEq, Repr

def step (s : State) : Call → State
  | .alloc allocator size kernel => (allocator.run cfg s size kernel).2
  | .free addr => release s addr

/-! ## What the limit is for -/

/-- The limit in bytes. -/
def Config.maxBytes : Nat := cfg.maxMemory * 1024

/-- The bytes that a request is for. -/
def Allocator.bytes (a : Allocator) (size : Nat) : Nat :=
  match a with
  | .allocPercpu => size * cfg.cpus.toNat
  | _ => size

/-- The request is too large for the allocator of the kernel. -/
def Allocator.oversize (a : Allocator) (size : Nat) : Bool :=
  match a with
  | .allocPercpu => cfg.maxPercpuSize < size
  | _ => false

/-- The module and what it has allocated is within the limit, with some more bytes. -/
def Within (s : State) (bytes : Nat) : Prop := cfg.coreSize.toNat + s.liveBytes + bytes ≤ cfg.maxBytes

/-- A request within the limit is refused only for the kernel's reasons. -/
def Justified (s : State) : Call → Prop
  | .alloc a size kernel =>
    Within cfg s (a.bytes cfg size) → (a.run cfg s size kernel).1 = none →
      kernel = false ∨ a.oversize cfg size = true
  | .free _ => True

/-- The limit counts live memory in a run of calls. -/
def CountsLive (s : State) : List Call → Prop
  | [] => Within cfg s 0
  | c :: calls => Within cfg s 0 ∧ Justified cfg s c ∧ CountsLive (step cfg s c) calls

/-- What has been freed does not push a request past the limit. -/
def Unhindered (s : State) : Call → Prop
  | .alloc a size kernel =>
    kernel = true → a.oversize cfg size = false → Within cfg s (a.bytes cfg size) →
      Within cfg s (a.bytes cfg size + s.freed)
  | .free _ => True

def NeverHindered (s : State) : List Call → Prop
  | [] => True
  | c :: calls => Unhindered cfg s c ∧ NeverHindered (step cfg s c) calls

instance (s : State) (bytes : Nat) : Decidable (Within cfg s bytes) := inferInstanceAs (Decidable (_ ≤ _))

instance (s : State) : DecidablePred (Justified cfg s)
  | .alloc _ _ _ => inferInstanceAs (Decidable (_ → _ → _ ∨ _))
  | .free _ => isTrue trivial

instance (s : State) : DecidablePred (Unhindered cfg s)
  | .alloc _ _ _ => inferInstanceAs (Decidable (_ → _ → _ → _))
  | .free _ => isTrue trivial

instance decidableCountsLive : (s : State) → DecidablePred (CountsLive cfg s)
  | s, [] => inferInstanceAs (Decidable (Within cfg s 0))
  | s, c :: calls =>
    have := decidableCountsLive (step cfg s c) calls
    inferInstanceAs (Decidable (_ ∧ _ ∧ _))

instance decidableNeverHindered : (s : State) → DecidablePred (NeverHindered cfg s)
  | _, [] => isTrue trivial
  | s, c :: calls =>
    have := decidableNeverHindered (step cfg s c) calls
    inferInstanceAs (Decidable (_ ∧ _))

end Code

/-! ## The counter -/

/-- What the counter holds. -/
structure Counted (cfg : Config) (s : State) : Prop where
  total : s.allocatedMemory.toNat = s.liveBytes + s.freed
  within : Within cfg s s.freed

variable {cfg : Config} {s : State}

theorem limit_toNat (h : cfg.maxBytes < 2 ^ 31) : cfg.limit.toNat = cfg.maxBytes := by
  have hlt : cfg.maxMemory * 1024 < 2 ^ 31 := h
  have hmsb : (BitVec.ofNat 32 (cfg.maxMemory * 1024)).msb = false := by
    rw [BitVec.msb_eq_decide, BitVec.toNat_ofNat, decide_eq_false_iff_not]
    omega
  show ((BitVec.ofNat 32 (cfg.maxMemory * 1024)).signExtend 64).toNat = cfg.maxMemory * 1024
  rw [BitVec.signExtend_eq_setWidth_of_msb_false hmsb, BitVec.toNat_setWidth, BitVec.toNat_ofNat]
  omega

/-- The check is right about all that was ever handed out. -/
theorem overLimit_iff (h : cfg.maxBytes < 2 ^ 31) (hs : Counted cfg s) {bytes : Nat} (hb : bytes < 2 ^ 62) :
    overLimit cfg s bytes = false ↔ Within cfg s (bytes + s.freed) := by
  have htotal := hs.total
  have hwithin : cfg.coreSize.toNat + s.liveBytes + s.freed ≤ cfg.maxBytes := hs.within
  have hsum : ((cfg.coreSize + s.allocatedMemory).setWidth 64 + BitVec.ofNat 64 bytes).toNat
      = cfg.coreSize.toNat + (s.liveBytes + s.freed) + bytes := by
    rw [BitVec.toNat_add, BitVec.toNat_setWidth, BitVec.toNat_add, BitVec.toNat_ofNat, htotal]
    omega
  unfold overLimit Within
  rw [decide_eq_false_iff_not, BitVec.lt_def, hsum, limit_toNat h]
  omega

theorem bytes_lt (cfg : Config) (a : Allocator) (size : Fin (2 ^ 30)) : a.bytes cfg size < 2 ^ 62 := by
  have hsize := size.isLt
  have hcpus := cfg.cpus.isLt
  cases a with
  | allocPercpu =>
    show (size : Nat) * cfg.cpus.toNat < 2 ^ 62
    calc (size : Nat) * cfg.cpus.toNat ≤ size * 2 ^ 32 := Nat.mul_le_mul_left _ hcpus.le
      _ < 2 ^ 30 * 2 ^ 32 := by omega
      _ = 2 ^ 62 := by norm_num
  | kmalloc | kzalloc | vmalloc => exact hsize.trans (by norm_num)

/-- The two outcomes of a request. -/
theorem run_cases (cfg : Config) (a : Allocator) (s : State) (size : Nat) (kernel : Bool) :
    (a.run cfg s size kernel = (none, s) ∧
        (kernel = false ∨ a.oversize cfg size = true ∨ overLimit cfg s (a.bytes cfg size) = true)) ∨
      (a.run cfg s size kernel = handOut s (a.bytes cfg size) true ∧
        overLimit cfg s (a.bytes cfg size) = false) := by
  have hplain : ∀ bytes, kmalloc cfg s bytes kernel = (none, s) ∧
        (kernel = false ∨ overLimit cfg s bytes = true) ∨
      kmalloc cfg s bytes kernel = handOut s bytes true ∧ overLimit cfg s bytes = false := by
    intro bytes
    cases hover : overLimit cfg s bytes with
    | true => exact .inl ⟨by simp [kmalloc, hover], .inr rfl⟩
    | false =>
      cases kernel with
      | false => exact .inl ⟨by simp [kmalloc, hover, handOut], .inl rfl⟩
      | true => exact .inr ⟨by simp [kmalloc, hover], rfl⟩
  have hshared : ∀ bytes, kmalloc cfg s bytes kernel = (none, s) ∧
        (kernel = false ∨ a.oversize cfg size = true ∨ overLimit cfg s bytes = true) ∨
      kmalloc cfg s bytes kernel = handOut s bytes true ∧ overLimit cfg s bytes = false := by
    intro bytes
    rcases hplain bytes with ⟨hrun, hk | hover⟩ | hok
    · exact .inl ⟨hrun, .inl hk⟩
    · exact .inl ⟨hrun, .inr (.inr hover)⟩
    · exact .inr hok
  cases a with
  | kmalloc => exact hshared size
  | kzalloc => exact hshared size
  | vmalloc => exact hshared size
  | allocPercpu =>
    by_cases hbig : cfg.maxPercpuSize < size
    · refine .inl ⟨if_pos hbig, .inr (.inl (decide_eq_true hbig))⟩
    · have hrun : Allocator.allocPercpu.run cfg s size kernel = kmalloc cfg s (size * cfg.cpus.toNat) kernel :=
        if_neg hbig
      rw [hrun]
      exact hshared _

theorem Counted.handOut (h : cfg.maxBytes < 2 ^ 31) (hs : Counted cfg s) {bytes : Nat}
    (hw : Within cfg s (bytes + s.freed)) : Counted cfg (handOut s bytes true).2 := by
  have htotal := hs.total
  have hlive : (Alloc.handOut s bytes true).2.liveBytes = bytes + s.liveBytes := rfl
  have hw' : cfg.coreSize.toNat + s.liveBytes + (bytes + s.freed) ≤ cfg.maxBytes := hw
  constructor
  · show (s.allocatedMemory + BitVec.ofNat 32 bytes).toNat = _ + s.freed
    rw [hlive, BitVec.toNat_add, BitVec.toNat_ofNat, htotal]
    omega
  · show cfg.coreSize.toNat + _ + s.freed ≤ cfg.maxBytes
    omega

theorem Counted.release (hs : Counted cfg s) (addr : Nat) : Counted cfg (release s addr) := by
  unfold Alloc.release
  cases hfind : s.live.find? (·.addr = addr) with
  | none => exact hs
  | some b =>
    have hmem : b ∈ s.live := List.mem_of_find?_eq_some hfind
    have hsum : ((s.live.erase b).map Block.bytes).sum + b.bytes = s.liveBytes := by
      have hperm : (s.live.map Block.bytes).Perm ((b :: s.live.erase b).map Block.bytes) :=
        (List.perm_cons_erase hmem).map _
      rw [State.liveBytes, hperm.sum_eq, List.map_cons, List.sum_cons]
      omega
    have htotal := hs.total
    have hwithin : cfg.coreSize.toNat + s.liveBytes + s.freed ≤ cfg.maxBytes := hs.within
    constructor
    · show s.allocatedMemory.toNat = ((s.live.erase b).map Block.bytes).sum + (s.freed + b.bytes)
      omega
    · show cfg.coreSize.toNat + ((s.live.erase b).map Block.bytes).sum + (s.freed + b.bytes) ≤ cfg.maxBytes
      omega

theorem Counted.step (h : cfg.maxBytes < 2 ^ 31) (hs : Counted cfg s) (c : Call) :
    Counted cfg (step cfg s c) := by
  cases c with
  | free addr => exact hs.release addr
  | alloc a size kernel =>
    show Counted cfg (a.run cfg s size kernel).2
    rcases run_cases cfg a s size kernel with ⟨hrun, -⟩ | ⟨hrun, hover⟩
    · rw [hrun]
      exact hs
    · rw [hrun]
      exact hs.handOut h ((overLimit_iff h hs (bytes_lt cfg a size)).mp hover)

/-- A call is treated as the live memory demands exactly if what has been freed does not matter. -/
theorem justified_iff (h : cfg.maxBytes < 2 ^ 31) (hs : Counted cfg s) (c : Call) :
    Justified cfg s c ↔ Unhindered cfg s c := by
  cases c with
  | free addr => exact Iff.rfl
  | alloc a size kernel =>
    have hlimit := overLimit_iff h hs (bytes_lt cfg a size)
    show (Within cfg s (a.bytes cfg size) → (a.run cfg s size kernel).1 = none →
        kernel = false ∨ a.oversize cfg size = true) ↔
      (kernel = true → a.oversize cfg size = false → Within cfg s (a.bytes cfg size) →
        Within cfg s (a.bytes cfg size + s.freed))
    rcases run_cases cfg a s size kernel with ⟨hrun, hwhy⟩ | ⟨hrun, hover⟩
    · rw [hrun]
      constructor
      · intro hj hk hsize hw
        rcases hj hw rfl with hk' | hsize'
        · rw [hk] at hk'
          cases hk'
        · rw [hsize] at hsize'
          cases hsize'
      · intro hu hw _
        rcases hwhy with hk | hsize | hover
        · exact .inl hk
        · exact .inr hsize
        · -- a request within the limit was refused for the sake of the counter
          by_contra hno
          rw [not_or, Bool.not_eq_false, Bool.not_eq_true] at hno
          rw [hlimit.mpr (hu hno.1 hno.2 hw)] at hover
          cases hover
    · rw [hrun]
      constructor
      · intro _ _ _ _
        exact hlimit.mp hover
      · intro _ _ hnone
        cases hnone

theorem within_of_counted (hs : Counted cfg s) : Within cfg s 0 := by
  have hwithin : cfg.coreSize.toNat + s.liveBytes + s.freed ≤ cfg.maxBytes := hs.within
  show cfg.coreSize.toNat + s.liveBytes + 0 ≤ cfg.maxBytes
  omega

theorem countsLive_iff_of_counted (h : cfg.maxBytes < 2 ^ 31) (calls : List Call) (s : State)
    (hs : Counted cfg s) : CountsLive cfg s calls ↔ NeverHindered cfg s calls := by
  induction calls generalizing s with
  | nil =>
    constructor
    · intro _
      trivial
    · intro _
      exact within_of_counted hs
  | cons c calls ih =>
    show Within cfg s 0 ∧ Justified cfg s c ∧ CountsLive cfg (step cfg s c) calls ↔
      Unhindered cfg s c ∧ NeverHindered cfg (step cfg s c) calls
    rw [justified_iff h hs, ih _ (hs.step h c)]
    constructor
    · intro hall
      exact hall.2
    · intro hrest
      exact ⟨within_of_counted hs, hrest⟩

/-- For a limit that an `int` can hold: it counts live memory in a run of calls exactly if the module
itself is within it and no request finds room for itself but not for what has been freed before. -/
theorem countsLive_iff (h : cfg.maxBytes < 2 ^ 31) (calls : List Call) :
    CountsLive cfg .start calls ↔
      cfg.coreSize.toNat ≤ cfg.maxBytes ∧ NeverHindered cfg .start calls := by
  constructor
  · intro hcounts
    have hwithin : Within cfg .start 0 := by
      cases calls with
      | nil => exact hcounts
      | cons c calls => exact hcounts.1
    have hcore : cfg.coreSize.toNat ≤ cfg.maxBytes := hwithin
    exact ⟨hcore, (countsLive_iff_of_counted h calls .start ⟨rfl, hcore⟩).mp hcounts⟩
  · intro hall
    exact (countsLive_iff_of_counted h calls .start ⟨rfl, hall.1⟩).mpr hall.2

/-- A module of 100 bytes with a limit of 1 KiB and two processors. -/
def smallConfig : Config := ⟨100, 1, 2, 131072⟩

/-- Two requests that fit together with what was freed between them. -/
theorem countsLive_small :
    CountsLive smallConfig .start [.alloc .kmalloc 300 true, .free 0, .alloc .allocPercpu 200 true] := by
  exact (countsLive_iff (by decide) _).mpr (by decide +kernel)

/-- A block of 600 bytes is freed, and the next one of that size is refused with nothing allocated. A
limit of 2 GiB does not fit an `int`, so nothing is refused. -/
theorem freed_counts :
    ¬CountsLive smallConfig .start [.alloc .kmalloc 600 true, .free 0, .alloc .kmalloc 600 true] ∧
      ¬CountsLive ⟨100, 2097152, 2, 131072⟩ .start
        [.alloc .vmalloc 1073741823 true, .alloc .vmalloc 1073741823 true, .alloc .vmalloc 1073741823 true] := by
  decide +kernel

end Systemtap.Runtime.Alloc
