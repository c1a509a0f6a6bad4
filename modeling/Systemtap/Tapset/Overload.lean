import Mathlib

/-!
# The overload watchdog

What `common_probe_entryfn_prologue` and `common_probe_entryfn_epilogue` of `tapsets.cxx` emit for `STP_OVERLOAD`. The
cycles of a handler are a signed number of 32 bits, and both branches of the conditional compute the same
difference. From 2^31 cycles on it is negative and is taken off the sum. The kernel is compiled with signed
arithmetic that wraps.
-/

namespace Systemtap.Tapset.Overload

/-! ## The program -/

/-- The counters of `struct context` -/
structure Context where
  cyclesBase : BitVec 64
  cyclesSum : BitVec 64

/-- `get_cycles ()` at the beginning and at the end of a handler -/
structure Handler where
  atstart : BitVec 64
  atend : BitVec 64

def cyclesElapsed (h : Handler) : BitVec 32 :=
  let atstart := h.atstart.setWidth 32
  let atend := h.atend.setWidth 32
  if atstart.slt atend then atend - atstart else ~~~0 - atstart + atend + 1

/-- The counters behind the epilogue, and whether it puts the session in the error state. -/
def epilogue (interval threshold : BitVec 64) (c : Context) (h : Handler) : Context × Bool :=
  let passed := if c.cyclesBase < h.atend then h.atend - c.cyclesBase else interval + 1
  let sum := c.cyclesSum + (cyclesElapsed h).signExtend 64
  if interval < passed then (⟨h.atend, 0⟩, threshold < sum) else ({ c with cyclesSum := sum }, false)

/-! ## What it is for -/

def Handler.cycles (h : Handler) : Nat := h.atend.toNat - h.atstart.toNat

/-- Handlers of fewer than 2^32 cycles, one after the other. -/
def Increasing (since : Nat) : List Handler → Prop
  | [] => True
  | h :: hs => since ≤ h.atstart.toNat ∧ h.atstart.toNat < h.atend.toNat ∧ h.cycles < 2 ^ 32 ∧
      Increasing h.atend.toNat hs

/-- Every epilogue leaves the number of cycles since the last reset, and fails if these are too many at the end of an
interval. `total` are those before. -/
def Measures (interval threshold : BitVec 64) (c : Context) (total : Nat) : List Handler → Prop
  | [] => True
  | h :: hs =>
    let reset := interval.toNat < h.atend.toNat - c.cyclesBase.toNat
    let total' := if reset then 0 else total + h.cycles
    let (c', error) := epilogue interval threshold c h
    (error = true ↔ reset ∧ threshold.toNat < total + h.cycles) ∧ c'.cyclesSum.toNat = total' ∧
      Measures interval threshold c' total' hs

/-! ## When it measures -/

variable {interval threshold : BitVec 64} {c : Context} {h : Handler} {hs : List Handler} {since total : Nat}

theorem cyclesElapsed_eq (h : Handler) : cyclesElapsed h = (h.atend - h.atstart).setWidth 32 := by
  unfold cyclesElapsed
  dsimp only
  split <;> bv_omega

theorem toNat_cyclesElapsed (hlt : h.atstart.toNat < h.atend.toNat) (hd : h.cycles < 2 ^ 32) :
    ((cyclesElapsed h).signExtend 64).toNat = h.cycles + if h.cycles < 2 ^ 31 then 0 else 2 ^ 64 - 2 ^ 32 := by
  have hcycles : (cyclesElapsed h).toNat = h.cycles := by
    unfold Handler.cycles at *
    rw [cyclesElapsed_eq]
    bv_omega
  rw [BitVec.toNat_signExtend, BitVec.toNat_setWidth, BitVec.msb_eq_decide, hcycles]
  split <;> split <;> simp_all <;> omega

theorem epilogue_eq (hbase : c.cyclesBase.toNat ≤ h.atstart.toNat) (hlt : h.atstart.toNat < h.atend.toNat) :
    epilogue interval threshold c h =
      if interval.toNat < h.atend.toNat - c.cyclesBase.toNat then
        (⟨h.atend, 0⟩, decide (threshold < c.cyclesSum + (cyclesElapsed h).signExtend 64))
      else ({ c with cyclesSum := c.cyclesSum + (cyclesElapsed h).signExtend 64 }, false) := by
  have hpassed : c.cyclesBase < h.atend := by bv_omega
  have hsub : (h.atend - c.cyclesBase).toNat = h.atend.toNat - c.cyclesBase.toNat := by bv_omega
  unfold epilogue
  simp only [if_pos hpassed]
  simp only [BitVec.lt_def, hsub]

/-- Short handlers are measured. The cycles since the last reset are below the count, so that their sum fits. -/
theorem measures (hrun : Increasing since hs) (hshort : ∀ h ∈ hs, h.cycles < 2 ^ 31)
    (hsum : c.cyclesSum.toNat = total) (hbase : c.cyclesBase.toNat + total ≤ since) :
    Measures interval threshold c total hs := by
  induction hs generalizing c since total with
  | nil => trivial
  | cons h hs ih =>
    obtain ⟨hsince, hlt, hd, hrun⟩ := hrun
    have hcycles : h.atstart.toNat + h.cycles = h.atend.toNat := by unfold Handler.cycles; omega
    have hnew : (c.cyclesSum + (cyclesElapsed h).signExtend 64).toNat = total + h.cycles := by
      rw [BitVec.toNat_add, toNat_cyclesElapsed hlt hd, if_pos (hshort h List.mem_cons_self)]
      omega
    have hrest := fun h' hmem => hshort h' (List.mem_cons_of_mem h hmem)
    rw [Measures, epilogue_eq (by omega) hlt]
    by_cases hreset : interval.toNat < h.atend.toNat - c.cyclesBase.toNat
    · simp only [if_pos hreset]
      exact ⟨by simp [BitVec.lt_def, hnew, hreset], rfl, ih hrun hrest rfl le_rfl⟩
    · simp only [if_neg hreset]
      exact ⟨by simp [hreset], hnew, ih hrun hrest hnew (by dsimp only; omega)⟩

/-- With an interval that does not end, the sum behind every handler shows whether it was short. -/
theorem short_of_measures (hrun : Increasing since hs) (hsum : c.cyclesSum.toNat = total)
    (hbase : c.cyclesBase.toNat + total ≤ since) (hm : Measures (-1) 0 c total hs) :
    ∀ h ∈ hs, h.cycles < 2 ^ 31 := by
  induction hs generalizing c since total with
  | nil => exact fun _ hmem => absurd hmem List.not_mem_nil
  | cons h hs ih =>
    obtain ⟨hsince, hlt, hd, hrun⟩ := hrun
    have hcycles : h.atstart.toNat + h.cycles = h.atend.toNat := by unfold Handler.cycles; omega
    have hreset : ¬ (-1 : BitVec 64).toNat < h.atend.toNat - c.cyclesBase.toNat := by bv_omega
    rw [Measures, epilogue_eq (by omega) hlt] at hm
    simp only [if_neg hreset] at hm
    obtain ⟨-, hnew, hm⟩ := hm
    intro h' hmem
    rcases List.mem_cons.1 hmem with rfl | hmem
    · rw [BitVec.toNat_add, toNat_cyclesElapsed hlt hd] at hnew
      by_contra hlong
      rw [if_neg hlong] at hnew
      omega
    · exact ih hrun hnew (by dsimp only; omega) hm h' hmem

/-- The handlers are measured, whatever the interval and the threshold, if all take fewer than 2^31 cycles. -/
theorem measures_iff (hs : List Handler) (hrun : Increasing 0 hs) :
    (∀ interval threshold, Measures interval threshold ⟨0, 0⟩ 0 hs) ↔ ∀ h ∈ hs, h.cycles < 2 ^ 31 :=
  ⟨fun hm => short_of_measures hrun rfl le_rfl (hm _ _), fun hshort _ _ => measures hrun hshort rfl le_rfl⟩

theorem measures_iff_pair :
    (∀ interval threshold, Measures interval threshold ⟨0, 0⟩ 0 [⟨1, 5⟩, ⟨7, 8⟩]) ↔
      ∀ h ∈ [⟨1, 5⟩, (⟨7, 8⟩ : Handler)], h.cycles < 2 ^ 31 :=
  measures_iff _ (by simp [Increasing, Handler.cycles])

/-- With the defaults: after a handler of one cycle, one of 2^32 - 1 cycles makes the sum zero. It has taken more than the
whole interval, and there is no error. -/
theorem not_measures :
    Increasing 0 [⟨1, 2⟩, ⟨3, 0x100000002⟩] ∧
      ¬ Measures 1000000000 500000000 ⟨0, 0⟩ 0 [⟨1, 2⟩, ⟨3, 0x100000002⟩] := by
  refine ⟨by simp [Increasing, Handler.cycles], fun hm => ?_⟩
  exact absurd (hm.2.2.1.2 (by decide)) (by decide)

end Systemtap.Tapset.Overload
