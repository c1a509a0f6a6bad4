import Mathlib

/-!
# LEB128 numbers

`get_uleb128` and `get_sleb128` of `unwind.c` read a number in groups of seven bits, the lowest one
first; bit 7 of a byte says that another byte follows. The loops differ in what the last byte
adds, a sign or nothing, and in one thing more: where another byte follows, the signed one leaves
its cursor where it is. So it reads that byte again and again, and never comes to the next one.

`unsigned long` has 64 bits and `unsigned` 32. A shift by too many places is taken modulo
the width, as the processor does.
-/

namespace Systemtap.Runtime.Unwind

/-! ## The code -/

/-- What a reader gives back, where it leaves the cursor, and the addresses that it read. -/
structure Leb where
  value : BitVec 64
  cur : Nat
  reads : List Nat
deriving DecidableEq

/-- `1U << (8 * sizeof(value) - shift)` -/
def groupLimit (shift : BitVec 32) : BitVec 32 :=
  1 <<< ((64 - shift.setWidth 64 : BitVec 64).toNat % 32)

/-- The loop of both readers. Where another byte follows, the cursor moves on by `stride`; the last
byte adds `sign`. -/
def lebLoop (mem : Nat → BitVec 8) (stop stride : Nat) (sign : BitVec 8 → BitVec 32 → BitVec 64) :
    Nat → Nat → BitVec 32 → BitVec 64 → Option Leb
  | 0, _, _, _ => none
  | fuel + 1, cur, shift, value =>
    if cur < stop then
      let group := mem cur &&& 0x7f
      if 64 < shift + 7 ∧ groupLimit shift ≤ group.setWidth 32 then some ⟨value, stop + 1, [cur]⟩
      else
        let value := value ||| group.setWidth 64 <<< (shift.toNat % 64)
        if mem cur &&& 0x80 = 0 then some ⟨value ||| sign (mem cur) shift, cur + 1, [cur]⟩
        else (lebLoop mem stop stride sign fuel (cur + stride) (shift + 7) value).map fun r =>
          { r with reads := cur :: r.reads }
    else some ⟨value, cur, []⟩

/-- `get_uleb128` -/
def getUleb128 (mem : Nat → BitVec 8) (stop fuel cur : Nat) : Option Leb :=
  lebLoop mem stop 1 (fun _ _ => 0#64) fuel cur 0 0

/-- `get_sleb128`; the sign is an `int` when it is shifted. -/
def getSleb128 (mem : Nat → BitVec 8) (stop fuel cur : Nat) : Option Leb :=
  lebLoop mem stop 0
    (fun byte shift => ((-(byte &&& 0x40).setWidth 32) <<< (shift.toNat % 32)).signExtend 64)
    fuel cur 0 0

/-! ## The encodings -/

/-- The canonical ULEB128 encoding. -/
def ulebOf (n : Nat) : List (BitVec 8) :=
  if n < 128 then [BitVec.ofNat 8 n] else BitVec.ofNat 8 (n % 128 + 128) :: ulebOf (n / 128)

/-- The canonical SLEB128 encoding. -/
def slebOf (n : Int) : List (BitVec 8) :=
  if -64 ≤ n ∧ n < 64 then [BitVec.ofInt 8 (n % 128)]
  else BitVec.ofInt 8 (n % 128 + 128) :: slebOf (n / 128)
termination_by n.natAbs

/-- The memory holds the bytes from `cur` on. -/
def Holds (mem : Nat → BitVec 8) (cur : Nat) (bytes : List (BitVec 8)) : Prop :=
  ∀ i (hi : i < bytes.length), mem (cur + i) = bytes[i]

theorem Holds.head {mem : Nat → BitVec 8} {cur : Nat} {b : BitVec 8} {bytes : List (BitVec 8)}
    (h : Holds mem cur (b :: bytes)) : mem cur = b := h 0 (Nat.succ_pos _)

theorem Holds.tail {mem : Nat → BitVec 8} {cur : Nat} {b : BitVec 8} {bytes : List (BitVec 8)}
    (h : Holds mem cur (b :: bytes)) : Holds mem (cur + 1) bytes := by
  intro i hi
  rw [Nat.add_assoc, Nat.add_comm 1 i]
  exact h (i + 1) (Nat.succ_lt_succ hi)

theorem and_low_toNat (b : BitVec 8) : (b &&& 0x7f).toNat = b.toNat % 128 := by
  rw [BitVec.toNat_and]
  exact Nat.and_two_pow_sub_one_eq_mod b.toNat 7

theorem and_high_eq_zero_iff : ∀ b : BitVec 8, b &&& 0x80 = 0 ↔ b.toNat < 128 := by decide

/-! ## Unsigned numbers -/

section Unsigned

variable {mem : Nat → BitVec 8} {stop : Nat} {sign : BitVec 8 → BitVec 32 → BitVec 64}

/-- The unsigned reader looks at `end` before it reads a byte, and moves on with each one. -/
theorem lebLoop_ends : ∀ {fuel cur : Nat} (shift : BitVec 32) (value : BitVec 64),
    stop - cur < fuel → ∃ r, lebLoop mem stop 1 sign fuel cur shift value = some r ∧
      ∀ a ∈ r.reads, a < stop := by
  intro fuel
  induction fuel with
  | zero => exact fun _ _ h => absurd h (Nat.not_lt_zero _)
  | succ fuel ih =>
    intro cur shift value h
    rw [lebLoop]
    dsimp only
    split
    · next hcur =>
      have hread : ∀ a ∈ [cur], a < stop := List.forall_mem_singleton.mpr hcur
      split
      · exact ⟨_, rfl, hread⟩
      split
      · exact ⟨_, rfl, hread⟩
      · obtain ⟨r, hr, hreads⟩ := ih (shift + 7)
          (value ||| (mem cur &&& 0x7f).setWidth 64 <<< (shift.toNat % 64))
          (show stop - (cur + 1) < fuel by omega)
        exact ⟨_, congrArg _ hr, List.forall_mem_cons.mpr ⟨hcur, hreads⟩⟩
    · exact ⟨_, rfl, fun a ha => absurd ha List.not_mem_nil⟩

/-- A group goes above the bits that are there. -/
theorem toNat_or_group {value : BitVec 64} {group : BitVec 8} {s : Nat} (hs : s < 64)
    (hvalue : value.toNat < 2 ^ s) (hgroup : group.toNat < 2 ^ (64 - s)) :
    (value ||| group.setWidth 64 <<< (s % 64)).toNat = value.toNat + group.toNat * 2 ^ s := by
  have hfits : group.toNat * 2 ^ s < 2 ^ 64 := by
    calc group.toNat * 2 ^ s < 2 ^ (64 - s) * 2 ^ s := by gcongr
      _ = 2 ^ 64 := by rw [← pow_add, Nat.sub_add_cancel hs.le]
  have hwide : group.toNat < 2 ^ 64 := group.isLt.trans (by norm_num)
  rw [BitVec.toNat_or, BitVec.toNat_shiftLeft, BitVec.toNat_setWidth, Nat.mod_eq_of_lt hs,
    Nat.mod_eq_of_lt hwide, Nat.shiftLeft_eq, Nat.mod_eq_of_lt hfits, Nat.or_comm, Nat.mul_comm,
    ← Nat.two_pow_add_eq_or_of_lt hvalue, Nat.add_comm]

/-- One round, at the place `7 * k`, on a byte of a number that fits: the number's lowest group is
added, and the test for too large groups is passed. -/
theorem lebLoop_group {n k cur fuel : Nat} {value : BitVec 64} (hk : k ≤ 9)
    (hn : n < 2 ^ (64 - 7 * k)) (hvalue : value.toNat < 2 ^ (7 * k)) (hcur : cur < stop)
    (hbyte : (mem cur).toNat % 128 = n % 128) :
    ∃ v : BitVec 64, v.toNat = value.toNat + n % 128 * 2 ^ (7 * k) ∧
      lebLoop mem stop 1 (fun _ _ => 0#64) (fuel + 1) cur (BitVec.ofNat 32 (7 * k)) value =
        if (mem cur).toNat < 128 then some ⟨v, cur + 1, [cur]⟩
        else (lebLoop mem stop 1 (fun _ _ => 0#64) fuel (cur + 1) (BitVec.ofNat 32 (7 * (k + 1))) v).map
          fun r => { r with reads := cur :: r.reads } := by
  have hshift : (BitVec.ofNat 32 (7 * k)).toNat = 7 * k := Nat.mod_eq_of_lt (by omega)
  have hgroup : (mem cur &&& 0x7f).toNat = n % 128 := (and_low_toNat _).trans hbyte
  have hnext : BitVec.ofNat 32 (7 * k) + 7 = BitVec.ofNat 32 (7 * (k + 1)) :=
    (BitVec.ofNat_add _ 7).symm
  have hlarge : ¬(64 < BitVec.ofNat 32 (7 * k) + 7 ∧
      groupLimit (BitVec.ofNat 32 (7 * k)) ≤ (mem cur &&& 0x7f).setWidth 32) := by
    rintro ⟨hlast, hlimit⟩
    -- only the tenth group goes over the end, and of the number one bit is left there
    have hlast' : 64 < 7 * (k + 1) % 2 ^ 32 := by
      rw [hnext, BitVec.lt_def, BitVec.toNat_ofNat] at hlast
      exact hlast
    rw [Nat.mod_eq_of_lt (by omega)] at hlast'
    obtain rfl : k = 9 := by omega
    rw [show groupLimit (BitVec.ofNat 32 (7 * 9)) = 2 from rfl, BitVec.le_def,
      BitVec.toNat_setWidth] at hlimit
    change 2 ≤ _ at hlimit
    omega
  refine ⟨value ||| (mem cur &&& 0x7f).setWidth 64 <<< (7 * k % 64), ?_, ?_⟩
  · rw [toNat_or_group (by omega) hvalue (by omega), hgroup]
  · rw [lebLoop, if_pos hcur]
    dsimp only
    rw [if_neg hlarge, hshift, hnext, BitVec.or_zero]
    exact if_congr (and_high_eq_zero_iff _) rfl rfl

/-- From the place `7 * k` on, the loop adds what is left of the number. -/
theorem ulebLoop_decodes (n : Nat) : ∀ {k cur fuel : Nat} {value : BitVec 64}, k ≤ 9 →
    n < 2 ^ (64 - 7 * k) → value.toNat < 2 ^ (7 * k) → Holds mem cur (ulebOf n) →
    cur + (ulebOf n).length ≤ stop → stop - cur < fuel →
    ∃ r, lebLoop mem stop 1 (fun _ _ => 0#64) fuel cur (BitVec.ofNat 32 (7 * k)) value = some r ∧
      r.value.toNat = value.toNat + n * 2 ^ (7 * k) ∧ r.cur = cur + (ulebOf n).length := by
  induction n using ulebOf.induct with
  | case1 n hn =>
    intro k cur fuel value hk hfits hvalue hmem hstop hfuel
    obtain ⟨fuel, rfl⟩ : ∃ f, fuel = f + 1 := Nat.exists_eq_add_one.mpr (by omega)
    rw [ulebOf, if_pos hn] at hmem hstop ⊢
    have hbyte : (mem cur).toNat = n := by
      rw [hmem.head, BitVec.toNat_ofNat]
      omega
    obtain ⟨v, hv, hloop⟩ := @lebLoop_group mem stop n k cur fuel value hk hfits hvalue hstop (by omega)
    rw [if_pos (by omega)] at hloop
    refine ⟨_, hloop, ?_, rfl⟩
    rwa [Nat.mod_eq_of_lt hn] at hv
  | case2 n hn ih =>
    intro k cur fuel value hk hfits hvalue hmem hstop hfuel
    obtain ⟨fuel, rfl⟩ : ∃ f, fuel = f + 1 := Nat.exists_eq_add_one.mpr (by omega)
    rw [ulebOf, if_neg hn] at hmem hstop ⊢
    rw [List.length_cons] at hstop ⊢
    have hbyte : (mem cur).toNat = n % 128 + 128 := by
      rw [hmem.head, BitVec.toNat_ofNat]
      omega
    obtain ⟨v, hv, hloop⟩ := @lebLoop_group mem stop n k cur fuel value hk hfits hvalue (by omega) (by omega)
    rw [if_neg (by omega)] at hloop
    have hplaces : 64 - 7 * k = 7 + (64 - 7 * (k + 1)) := by
      have hpow := (Nat.pow_lt_pow_iff_right (a := 2) (by decide)).mp
        ((show 2 ^ 7 ≤ n by omega).trans_lt hfits)
      omega
    rw [hplaces, pow_add] at hfits
    have hpow : 2 ^ (7 * (k + 1)) = 2 ^ (7 * k) * 128 := pow_add 2 (7 * k) 7
    have hgroup := Nat.mul_le_mul_right (2 ^ (7 * k)) (show n % 128 ≤ 127 by omega)
    obtain ⟨r, hr, hvalue', hcur'⟩ := @ih (k + 1) (cur + 1) fuel v (by omega)
      (Nat.div_lt_of_lt_mul hfits) (by omega) hmem.tail (by omega) (by omega)
    rw [hr] at hloop
    refine ⟨_, hloop, ?_, ?_⟩
    · show r.value.toNat = _
      rw [hvalue', hv, hpow, Nat.add_assoc, ← Nat.mul_assoc, Nat.mul_right_comm, ← Nat.add_mul,
        Nat.mul_comm _ 128, Nat.mod_add_div]
    · show r.cur = _
      omega

/-- The unsigned reader returns, reads nothing from `end` on, and decodes every canonical encoding. -/
theorem getUleb128_right (mem : Nat → BitVec 8) {stop fuel cur : Nat} (hfuel : stop - cur < fuel) :
    ∃ r, getUleb128 mem stop fuel cur = some r ∧ (∀ a ∈ r.reads, a < stop) ∧
      ∀ n < 2 ^ 64, Holds mem cur (ulebOf n) → cur + (ulebOf n).length ≤ stop →
        r.value.toNat = n ∧ r.cur = cur + (ulebOf n).length := by
  obtain ⟨r, hr, hreads⟩ := @lebLoop_ends mem stop (fun _ _ => 0#64) fuel cur 0 0 hfuel
  refine ⟨r, hr, hreads, fun n hn hmem hstop => ?_⟩
  obtain ⟨r', hr', hvalue, hcur⟩ := @ulebLoop_decodes mem stop n 0 cur fuel 0 (by decide) hn
    (by decide) hmem hstop hfuel
  obtain rfl : r = r' := Option.some.inj (hr.symm.trans hr')
  exact ⟨by simpa using hvalue, hcur⟩

end Unsigned

/-- 624485 is read from its three bytes. -/
theorem getUleb128_right_624485 : ∃ r, getUleb128 (fun a => [0xe5, 0x8e, 0x26].getD a 0) 3 4 0 = some r ∧
    r.value.toNat = 624485 ∧ r.cur = 3 := by
  have hbytes : ulebOf 624485 = [0xe5, 0x8e, 0x26] := by simp [ulebOf]
  obtain ⟨r, hr, -, hdecodes⟩ := getUleb128_right (fun a => [0xe5, 0x8e, 0x26].getD a 0)
    (show 3 - 0 < 4 by decide)
  have h := hdecodes 624485 (by decide)
  rw [hbytes] at h
  exact ⟨r, hr, h (by unfold Holds; decide) (by decide)⟩

/-! ## Signed numbers -/

/-- The signed reader reads the number from its encoding, whatever follows. -/
def DecodesSleb (n : Int) : Prop :=
  ∀ mem cur stop, Holds mem cur (slebOf n) → cur + (slebOf n).length ≤ stop →
    ∃ fuel r, getSleb128 mem stop fuel cur = some r ∧ r.value.toInt = n ∧
      r.cur = cur + (slebOf n).length

section Signed

variable {mem : Nat → BitVec 8} {stop cur : Nat} {sign : BitVec 8 → BitVec 32 → BitVec 64}

/-- From a byte that is followed by another, a cursor that stays there goes nowhere but behind the
end. -/
theorem lebLoop_stays (hnext : mem cur &&& 0x80 ≠ 0) (hcur : cur < stop) :
    ∀ {fuel : Nat} {shift : BitVec 32} {value : BitVec 64} {r : Leb},
      lebLoop mem stop 0 sign fuel cur shift value = some r → r.cur = stop + 1 := by
  intro fuel
  induction fuel with
  | zero =>
    intro _ _ _ h
    cases h
  | succ fuel ih =>
    intro shift value r h
    rw [lebLoop, if_pos hcur] at h
    dsimp only at h
    split at h
    · cases h
      rfl
    · obtain ⟨r', hr', rfl⟩ := Option.map_eq_some_iff.mp h
      show r'.cur = _
      exact ih hr'

/-- If the byte has no other bit set, the cursor stays there forever. -/
theorem lebLoop_endless (hbyte : mem cur = 0x80) (hcur : cur < stop) :
    ∀ {fuel : Nat} {shift : BitVec 32} {value : BitVec 64},
      lebLoop mem stop 0 sign fuel cur shift value = none := by
  intro fuel
  induction fuel with
  | zero => exact rfl
  | succ fuel ih =>
    intro shift value
    have hone : ∀ places : Fin 32, ¬ (1 : BitVec 32) <<< places.val ≤ 0 := by decide
    have hlimit : ¬ groupLimit shift ≤ (mem cur &&& 0x7f).setWidth 32 := by
      rw [hbyte]
      exact hone ⟨_, Nat.mod_lt _ (by decide)⟩
    rw [lebLoop, if_pos hcur]
    dsimp only
    rw [if_neg fun h => hlimit h.2, if_neg (by rw [hbyte]; decide)]
    exact Option.map_eq_none_iff.mpr ih

end Signed

/-- The number that a single byte stands for. -/
theorem signed_byte : ∀ b : BitVec 8, b.toNat < 128 →
    (0 ||| (b &&& 0x7f).setWidth 64 <<< 0 |||
      ((-(b &&& 0x40).setWidth 32) <<< 0).signExtend 64 : BitVec 64).toInt =
      if b.toNat < 64 then (b.toNat : Int) else b.toNat - 128 := by
  decide +kernel

/-- The signed reader is right about the numbers that have one byte, and about no others. -/
theorem decodesSleb_iff (n : Int) : DecodesSleb n ↔ -64 ≤ n ∧ n < 64 := by
  constructor
  · intro hright
    by_contra hn
    have hbytes : slebOf n = BitVec.ofInt 8 (n % 128 + 128) :: slebOf (n / 128) := by
      rw [slebOf, if_neg hn]
    have hnext : (slebOf n).getD 0 0 &&& 0x80 ≠ 0 := by
      rw [hbytes, List.getD_cons_zero, Ne, and_high_eq_zero_iff, BitVec.toNat_ofInt]
      omega
    obtain ⟨fuel, r, hr, -, hcur⟩ := hright (fun a => (slebOf n).getD a 0) 0 (slebOf n).length
      (fun i hi => by simp [hi]) (by omega)
    have hstays := lebLoop_stays hnext (by rw [hbytes]; exact Nat.succ_pos _) hr
    omega
  · intro hn mem cur stop hmem hstop
    rw [slebOf, if_pos hn] at hmem hstop ⊢
    have hbyte : ((mem cur).toNat : Int) = n % 128 := by
      rw [hmem.head, BitVec.toNat_ofInt]
      omega
    have hlast := (and_high_eq_zero_iff (mem cur)).mpr (by omega)
    refine ⟨1, ?_⟩
    rw [getSleb128, lebLoop, if_pos (show cur < stop from hstop)]
    dsimp only
    rw [if_neg fun h => absurd h.1 (by decide), if_pos hlast]
    exact ⟨_, rfl, (signed_byte _ (by omega)).trans (by split <;> omega), rfl⟩

/-- From the bytes of 128, nothing is ever returned. -/
theorem getSleb128_endless : slebOf 128 = [0x80, 0x01] ∧
    ∀ fuel, getSleb128 (fun a => [0x80, 0x01].getD a 0) 2 fuel 0 = none := by
  refine ⟨by simp [slebOf], fun fuel => ?_⟩
  exact lebLoop_endless rfl (by decide)

end Systemtap.Runtime.Unwind
