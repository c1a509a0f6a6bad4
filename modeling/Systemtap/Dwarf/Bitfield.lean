import Mathlib

/-!
# Bit fields in target memory

The macros of `loc2c-runtime.h` with which the generated code reads and writes a bit field. A word
of `w` bits is in memory, and the field has `nbits` bits of it, with `higherbits` bits of the word
above it.

What matters of a store is which bit of the result comes from where (`getLsbD_storeBitfield`): the
bits of the field are those of the new value, and all others are those of the old word. A fetch of
the field then has the value back, and two stores to fields that have no bit in common do not
notice each other.
-/

namespace Systemtap.Dwarf

/-! ## The code -/

/-- The operators compute with `int` at least. -/
abbrev promoted (w : Nat) : Nat := max w 32

/-- `((__typeof (base)) 1 << (nbits)) - 1` -/
def fieldMask (w nbits : Nat) : BitVec (promoted w) :=
  ((1 : BitVec (promoted w)) <<< nbits) - 1

/-- `fetch_bitfield` -/
def fetchBitfield {w : Nat} (base : BitVec w) (higherbits nbits : Nat) : BitVec w :=
  ((base.setWidth (promoted w) >>> (w - higherbits - nbits)) &&& fieldMask w nbits).setWidth w

/-- `store_bitfield` -/
def storeBitfield {w : Nat} (target base : BitVec w) (higherbits nbits : Nat) : BitVec w :=
  ((target.setWidth (promoted w) &&& ~~~ (fieldMask w nbits <<< (w - higherbits - nbits))) |||
    ((base.setWidth (promoted w) &&& fieldMask w nbits) <<< (w - higherbits - nbits))).setWidth w

/-! ## Bit by bit -/

variable {w h n i : Nat}

theorem getLsbD_fieldMask (hn : n < w) : (fieldMask w n).getLsbD i = decide (i < n) := by
  have hlt : n < promoted w := lt_max_of_lt_left hn
  have hshift : (1 : BitVec (promoted w)) <<< n = BitVec.ofNat (promoted w) (2 ^ n) := by
    apply BitVec.eq_of_toNat_eq
    rw [BitVec.toNat_ofNat, ← BitVec.toNat_twoPow]
    rfl
  have hmask : fieldMask w n = BitVec.ofNat (promoted w) (2 ^ n - 1) := by
    rw [fieldMask, hshift]
    exact BitVec.ofNat_sub_ofNat_of_le _ _ (Nat.one_lt_two_pow (by omega)) Nat.one_le_two_pow
  rw [hmask, BitVec.getLsbD_ofNat, Nat.testBit_two_pow_sub_one]
  by_cases hi : i < n
  · simp [hi, hi.trans hlt]
  · simp [hi]

theorem getLsbD_fetchBitfield (base : BitVec w) (hn : n < w) :
    (fetchBitfield base h n).getLsbD i = (decide (i < n) && base.getLsbD (w - h - n + i)) := by
  simp only [fetchBitfield, BitVec.getLsbD_setWidth, BitVec.getLsbD_and, BitVec.getLsbD_ushiftRight,
    getLsbD_fieldMask hn]
  have hwide : base.getLsbD (w - h - n + i) = true → w - h - n + i < promoted w := fun hbit =>
    lt_max_of_lt_left (BitVec.lt_of_getLsbD hbit)
  grind

/-- The field has the bits of the new value, and the rest of the word those of the old one. -/
theorem getLsbD_storeBitfield (target base : BitVec w) (hn : n < w) (hfit : h + n ≤ w) :
    (storeBitfield target base h n).getLsbD i =
      if w - h - n ≤ i ∧ i < w - h then base.getLsbD (i - (w - h - n)) else target.getLsbD i := by
  simp only [storeBitfield, BitVec.getLsbD_setWidth, BitVec.getLsbD_or, BitVec.getLsbD_and,
    BitVec.getLsbD_not, BitVec.getLsbD_shiftLeft, getLsbD_fieldMask hn]
  have hwide : w ≤ promoted w := le_max_left w 32
  have htarget : target.getLsbD i = true → i < w := BitVec.lt_of_getLsbD
  grind

/-- For every width and every field that is not the whole word: a fetch has back what was stored,
cut to the size of the field; a store leaves all other bits alone; so the order of stores to fields
without a common bit does not matter. -/
theorem storeBitfield_lens (hn : 1 ≤ n) (hw : n < w) (hfit : h + n ≤ w) (t v : BitVec w) :
    (fetchBitfield (storeBitfield t v h n) h n).toNat = v.toNat % 2 ^ n ∧
      (∀ i, ¬ (w - h - n ≤ i ∧ i < w - h) → (storeBitfield t v h n).getLsbD i = t.getLsbD i) ∧
      ∀ (v' : BitVec w) (h' n' : Nat), 1 ≤ n' → n' < w → h' + n' ≤ w → h + n ≤ h' ∨ h' + n' ≤ h →
        storeBitfield (storeBitfield t v h n) v' h' n' =
          storeBitfield (storeBitfield t v' h' n') v h n := by
  refine ⟨?_, fun i hi => ?_, fun v' h' n' _ hw' hfit' hdisj => ?_⟩
  · apply Nat.eq_of_testBit_eq
    intro i
    rw [Nat.testBit_mod_two_pow, BitVec.testBit_toNat, BitVec.testBit_toNat,
      getLsbD_fetchBitfield _ hw, getLsbD_storeBitfield t v hw hfit]
    by_cases hi : i < n
    · rw [if_pos (by omega), Nat.add_sub_cancel_left]
    · simp [hi]
  · rw [getLsbD_storeBitfield t v hw hfit, if_neg hi]
  · apply BitVec.eq_of_getLsbD_eq
    intro i _
    rw [getLsbD_storeBitfield _ _ hw' hfit', getLsbD_storeBitfield _ _ hw hfit,
      getLsbD_storeBitfield _ _ hw hfit, getLsbD_storeBitfield _ _ hw' hfit']
    -- a bit is in one of the fields at most
    by_cases hi : w - h - n ≤ i ∧ i < w - h
    · have hother : ¬ (w - h' - n' ≤ i ∧ i < w - h') := by omega
      rw [if_neg hother, if_pos hi, if_pos hi]
    · rw [if_neg hi, if_neg hi]

/-- Three bits of a byte, two below the top. -/
theorem storeBitfield_lens_byte :
    (fetchBitfield (storeBitfield 0xff#8 0x0a#8 2 3) 2 3).toNat = (0x0a#8).toNat % 2 ^ 3 :=
  (storeBitfield_lens (by decide) (by decide) (by decide) 0xff#8 0x0a#8).1

end Systemtap.Dwarf
