import Mathlib

/-!
# Looking for the FDE of an address

`_stp_search_unwind_hdr` of `unwind.c` searches the table of an `.eh_frame_hdr`: pairs of a start address and a pointer
to the FDE, sorted by the address. The loop halves a window of pairs, and rounds its size down on one branch and up
on the other (`Window`). `unwind_frame` looks at the end of the FDE that was found, but takes it also for the address
just behind it, where the linear scan of the section does not. The pointers are bytes of one of four encodings; `loc` and `fdeAt` are what `read_ptr_sect`
and `adjustStartLoc` make of the bytes at a place, whatever the encoding and the relocation. Addresses are only
compared here.
-/

namespace Systemtap.Runtime.Unwind

/-! ## The program -/

/-- `switch (hdr[3] & DW_EH_PE_FORM)` -/
def tableSize (enc : BitVec 8) : Option Nat :=
  match (enc &&& 7).toNat with
  | 0 => some 8
  | 2 => some 2
  | 3 => some 4
  | 4 => some 8
  | _ => none

/-- The table, as far as it has been checked. `unwind_hdr_len` is a `uint32_t`. -/
structure Table where
  bytes : List UInt8
  enc : BitVec 8
  size : Nat
  num : Nat
  known : tableSize enc = some size
  whole : bytes.length = num * (2 * size)
  short : bytes.length < 2 ^ 32

variable {α : Type} (t : Table) (loc : Nat → List UInt8 → Nat) (fdeAt : Nat → List UInt8 → α) (pc : Nat)

/-- A pointer of the table; outside of it there is none. -/
def Table.read {β : Type} (f : Nat → List UInt8 → β) (ptr : Nat) : Option β :=
  if ptr + t.size ≤ t.bytes.length then some (f ptr ((t.bytes.drop ptr).take t.size)) else none

/-- The loop, with `ptr` counted from the beginning of the table. -/
def searchLoop (ptr num : Nat) : Option (Nat × Nat) := do
  let cur := ptr + num / 2 * (2 * t.size) % 2 ^ 32
  let startLoc ← t.read loc cur
  let next := if pc < startLoc then (ptr, num / 2) else (cur, (num + 1) % 2 ^ 32 / 2)
  if startLoc ≠ 0 ∧ 1 < next.2 then searchLoop next.1 next.2 else some next
termination_by num
decreasing_by grind

/-- `_stp_search_unwind_hdr` after its checks of the header -/
def searchUnwindHdr : Option (Option α) := do
  let (ptr, num) ← searchLoop t loc pc 0 t.num
  if num = 1 then
    let startLoc ← t.read loc ptr
    if startLoc ≠ 0 ∧ startLoc ≤ pc then
      let fde ← t.read fdeAt (ptr + t.size)
      some (some fde)
    else some none
  else some none

structure Fde where
  startLoc : Nat
  endLoc : Nat
deriving DecidableEq

/-- The linear search of `unwind_frame`, over the FDEs in the order of the section -/
def scan (fdes : List Fde) : Option Fde :=
  fdes.find? fun fde => fde.startLoc ≠ 0 ∧ fde.startLoc ≤ pc ∧ pc < fde.endLoc

/-- The FDE that `unwind_frame` goes on with. -/
def select (fdeAt : Nat → List UInt8 → Fde) (fdes : List Fde) : Option (Option Fde) := do
  match ← searchUnwindHdr t loc fdeAt pc with
  | some fde =>
    -- `if (pc > endLoc) goto done`
    some (if fde.endLoc < pc then none else some fde)
  | none => some (scan pc fdes)

/-! ## What it is for -/

/-- The address of a pair -/
def Table.start (i : Nat) : Nat :=
  loc (i * (2 * t.size)) ((t.bytes.drop (i * (2 * t.size))).take t.size)

/-- The FDE of a pair -/
def Table.fde (i : Nat) : α :=
  fdeAt (i * (2 * t.size) + t.size) ((t.bytes.drop (i * (2 * t.size) + t.size)).take t.size)

structure Table.Sorted : Prop where
  first : 0 < t.num
  nonzero : ∀ i, i < t.num → t.start loc i ≠ 0
  increasing : ∀ i j, i < j → j < t.num → t.start loc i < t.start loc j

/-- The table is that of the section, and the FDEs do not overlap. -/
structure Fits (fdeAt : Nat → List UInt8 → Fde) (fdes : List Fde) : Prop where
  sorted : t.Sorted loc
  start : ∀ i, i < t.num → (t.fde fdeAt i).startLoc = t.start loc i
  mem : ∀ fde, fde ∈ fdes ↔ ∃ i, i < t.num ∧ t.fde fdeAt i = fde
  nonempty : ∀ fde ∈ fdes, fde.startLoc < fde.endLoc
  disjoint : ∀ fde ∈ fdes, ∀ fde' ∈ fdes, fde ≠ fde' → fde.endLoc ≤ fde'.startLoc ∨ fde'.endLoc ≤ fde.startLoc

/-- Both searches select the FDE that has `pc` in its range. -/
def Agree (fdeAt : Nat → List UInt8 → Fde) (fdes : List Fde) : Prop :=
  select t loc pc fdeAt fdes = some (scan pc fdes) ∧
    ∀ fde, scan pc fdes = some fde ↔ fde ∈ fdes ∧ fde.startLoc ≤ pc ∧ pc < fde.endLoc

/-! ## The search -/

variable {t loc fdeAt pc} {k num : Nat}

theorem Table.size_pos (t : Table) : 0 < t.size := by
  have h := t.known
  unfold tableSize at h
  split at h <;> simp_all <;> omega

theorem Table.pair_le (t : Table) {i : Nat} (hi : i < t.num) : i * (2 * t.size) + 2 * t.size ≤ t.bytes.length := by
  rw [t.whole, ← Nat.succ_mul]
  exact Nat.mul_le_mul_right _ hi

theorem Table.read_start {i : Nat} (hi : i < t.num) : t.read loc (i * (2 * t.size)) = some (t.start loc i) := by
  have := t.pair_le hi
  exact if_pos (by omega)

theorem Table.read_fde {i : Nat} (hi : i < t.num) :
    t.read fdeAt (i * (2 * t.size) + t.size) = some (t.fde fdeAt i) := by
  have := t.pair_le hi
  exact if_pos (by omega)

theorem Table.Sorted.start_le (hs : t.Sorted loc) {i j : Nat} (hij : i ≤ j) (hj : j < t.num) :
    t.start loc i ≤ t.start loc j := by
  rcases hij.eq_or_lt with rfl | hij
  · exact le_rfl
  · exact (hs.increasing i j hij hj).le

/-- The pairs behind the window are above `pc`, and its first one is not, unless it is the first of all. -/
structure Window (t : Table) (loc : Nat → List UInt8 → Nat) (pc : Nat) (k num : Nat) : Prop where
  inside : k < t.num
  fits : k + num ≤ t.num
  above : ∀ j, k + num ≤ j → j < t.num → pc < t.start loc j
  below : k = 0 ∨ t.start loc k ≤ pc

theorem Window.lower (h : Window t loc pc k num) (hs : t.Sorted loc) (hlt : pc < t.start loc (k + num / 2)) :
    Window t loc pc k (num / 2) := by
  exact ⟨h.inside, by have := h.fits; omega, fun j hj hjn => hlt.trans_le (hs.start_le hj hjn), h.below⟩

theorem Window.upper (h : Window t loc pc k num) (hnum : 0 < num) (hle : t.start loc (k + num / 2) ≤ pc) :
    Window t loc pc (k + num / 2) ((num + 1) / 2) := by
  have := h.fits
  exact ⟨by omega, by omega, fun j hj => h.above j (by omega), .inr hle⟩

/-- The induction is on the size of the window. -/
theorem Window.searchLoop (h : Window t loc pc k num) (hs : t.Sorted loc) (hnum : 0 < num) :
    ∃ k' num', searchLoop t loc pc (k * (2 * t.size)) num = some (k' * (2 * t.size), num') ∧ num' ≤ 1 ∧
      Window t loc pc k' num' := by
  induction num using Nat.strong_induction_on generalizing k with
  | _ num ih =>
    have hfits := h.fits
    have hmid : k + num / 2 < t.num := by omega
    have hmul : num ≤ num * t.size := Nat.le_mul_of_pos_right _ t.size_pos
    have hlen : num * (2 * t.size) < 2 ^ 32 := by
      refine lt_of_le_of_lt (Nat.mul_le_mul_right _ (?_ : num ≤ t.num)) (t.whole ▸ t.short)
      omega
    have hcur : k * (2 * t.size) + num / 2 * (2 * t.size) % 2 ^ 32 = (k + num / 2) * (2 * t.size) := by
      have := Nat.mul_le_mul_right (2 * t.size) (Nat.div_le_self num 2)
      rw [Nat.mod_eq_of_lt (by omega), Nat.add_mul]
    have hup : (num + 1) % 2 ^ 32 / 2 = (num + 1) / 2 := by
      rw [Nat.mod_eq_of_lt]
      have : num * (2 * t.size) = 2 * (num * t.size) := by ring
      omega
    rw [Unwind.searchLoop, hcur, hup, Table.read_start hmid]
    by_cases hlt : pc < t.start loc (k + num / 2)
    · simp only [Option.bind_eq_bind, Option.bind_some, if_pos hlt]
      have hwin := h.lower hs hlt
      split
      next hmore => exact ih _ (by omega) hwin (by omega)
      next hstop => exact ⟨k, num / 2, rfl, by have := hs.nonzero _ hmid; grind, hwin⟩
    · simp only [Option.bind_eq_bind, Option.bind_some, if_neg hlt]
      have hwin := h.upper hnum (not_lt.1 hlt)
      split
      next hmore => exact ih _ (by omega) hwin (by omega)
      next hstop => exact ⟨_, _, rfl, by have := hs.nonzero _ hmid; grind, hwin⟩

/-- The search yields the FDE of the last pair that is not above `pc`. No read is outside of the table. -/
theorem searchUnwindHdr_spec (hs : t.Sorted loc) :
    (pc < t.start loc 0 ∧ searchUnwindHdr t loc fdeAt pc = some none) ∨
      ∃ i, i < t.num ∧ t.start loc i ≤ pc ∧ (∀ j, i < j → j < t.num → pc < t.start loc j) ∧
        searchUnwindHdr t loc fdeAt pc = some (some (t.fde fdeAt i)) := by
  have hall : Window t loc pc 0 t.num := ⟨hs.first, by omega, fun j hj hjn => by omega, .inl rfl⟩
  obtain ⟨k, num, hloop, hnum, hwin⟩ := hall.searchLoop hs hs.first
  rw [Nat.zero_mul] at hloop
  unfold searchUnwindHdr
  rw [hloop, Option.bind_eq_bind, Option.bind_some]
  dsimp only
  by_cases hone : num = 1
  · subst hone
    rw [if_pos rfl, Table.read_start hwin.inside, Option.bind_eq_bind, Option.bind_some]
    by_cases hle : t.start loc k ≤ pc
    · right
      refine ⟨k, hwin.inside, hle, fun j hj => hwin.above j hj, ?_⟩
      rw [if_pos ⟨hs.nonzero k hwin.inside, hle⟩, Table.read_fde hwin.inside]
      rfl
    · left
      obtain rfl := hwin.below.resolve_right hle
      exact ⟨not_le.1 hle, if_neg fun h => hle h.2⟩
  · left
    have hlt := hwin.above k (by omega) hwin.inside
    obtain rfl := hwin.below.resolve_right (not_le.2 hlt)
    exact ⟨hlt, if_neg hone⟩

/-- The search yields the FDE with the greatest start that is not above `pc`. -/
theorem searchUnwindHdr_finds (t : Table) (loc : Nat → List UInt8 → Nat) (fdeAt : Nat → List UInt8 → α) (pc : Nat)
    (hs : t.Sorted loc) :
    if pc < t.start loc 0 then searchUnwindHdr t loc fdeAt pc = some none
    else ∃ i, i < t.num ∧ t.start loc i ≤ pc ∧
      (∀ j, j < t.num → t.start loc j ≤ pc → t.start loc j ≤ t.start loc i) ∧
      searchUnwindHdr t loc fdeAt pc = some (some (t.fde fdeAt i)) := by
  rcases searchUnwindHdr_spec hs with ⟨hlt, heq⟩ | ⟨i, hi, hle, hlater, heq⟩
  · rw [if_pos hlt]
    exact heq
  · rw [if_neg (by have := hs.start_le (Nat.zero_le i) hi; omega)]
    refine ⟨i, hi, hle, fun j hj hjle => ?_, heq⟩
    by_cases hij : i < j
    · exact absurd (hlater j hij hj) (by omega)
    · exact hs.start_le (by omega) hi

/-- One pair, (4, 1), as `DW_EH_PE_data2` -/
def onePair : Table := ⟨[4, 0, 1, 0], 2, 2, 1, rfl, rfl, by decide⟩

def firstByte (_ : Nat) (bytes : List UInt8) : Nat := (bytes.headD 0).toNat

theorem onePair_sorted : onePair.Sorted firstByte := by
  refine ⟨by decide, ?_, fun i j hij hj => ?_⟩
  · show ∀ i, i < 1 → _
    decide
  · exact absurd (show j < 1 from hj) (by omega)

theorem searchUnwindHdr_finds_onePair :
    if 5 < onePair.start firstByte 0 then searchUnwindHdr onePair firstByte firstByte 5 = some none
    else ∃ i, i < onePair.num ∧ onePair.start firstByte i ≤ 5 ∧
      (∀ j, j < onePair.num → onePair.start firstByte j ≤ 5 → onePair.start firstByte j ≤ onePair.start firstByte i) ∧
      searchUnwindHdr onePair firstByte firstByte 5 = some (some (onePair.fde firstByte i)) :=
  searchUnwindHdr_finds onePair firstByte firstByte 5 onePair_sorted

/-! ## The two searches -/

section Agree

variable {fdeAt : Nat → List UInt8 → Fde} {fdes : List Fde}

theorem Fits.scan_iff (h : Fits t loc fdeAt fdes) (fde : Fde) :
    scan pc fdes = some fde ↔ fde ∈ fdes ∧ fde.startLoc ≤ pc ∧ pc < fde.endLoc := by
  constructor
  · intro hscan
    have hrange := List.find?_some hscan
    simp only [decide_eq_true_eq] at hrange
    exact ⟨List.mem_of_find?_eq_some hscan, hrange.2⟩
  · intro ⟨hmem, hrange⟩
    have hnonzero : fde.startLoc ≠ 0 := by
      obtain ⟨i, hi, rfl⟩ := (h.mem fde).1 hmem
      rw [h.start i hi]
      exact h.sorted.nonzero i hi
    cases hscan : scan pc fdes with
    | none => exact absurd (List.find?_eq_none.1 hscan fde hmem) (by simp [hnonzero, hrange])
    | some fde' =>
      have hrange' := List.find?_some hscan
      simp only [decide_eq_true_eq] at hrange'
      by_contra hne
      have := h.disjoint fde hmem fde' (List.mem_of_find?_eq_some hscan) fun heq => hne (heq ▸ rfl)
      omega

/-- A range that begins up to `pc` is that of the last pair not above it, or ends before it. -/
theorem Fits.eq_or_before (h : Fits t loc fdeAt fdes) {i : Nat} (hi : i < t.num)
    (hlater : ∀ j, i < j → j < t.num → pc < t.start loc j) {fde : Fde} (hmem : fde ∈ fdes)
    (hle : fde.startLoc ≤ pc) : fde = t.fde fdeAt i ∨ fde.endLoc ≤ (t.fde fdeAt i).startLoc := by
  by_contra hnot
  rw [not_or] at hnot
  have hdisjoint := h.disjoint fde hmem _ ((h.mem _).2 ⟨i, hi, rfl⟩) hnot.1
  obtain ⟨j, hj, rfl⟩ := (h.mem fde).1 hmem
  have hmin := h.nonempty _ ((h.mem _).2 ⟨i, hi, rfl⟩)
  rw [h.start j hj] at *
  rw [h.start i hi] at *
  by_cases hij : i < j
  · have := hlater j hij hj
    omega
  · have := h.sorted.start_le (by omega : j ≤ i) hi
    omega

/-- They agree about `pc` unless it is just behind a range and no other range begins there. -/
theorem agree_iff (t : Table) (loc : Nat → List UInt8 → Nat) (pc : Nat) (fdeAt : Nat → List UInt8 → Fde)
    (fdes : List Fde) (h : Fits t loc fdeAt fdes) :
    Agree t loc pc fdeAt fdes ↔ ∀ fde ∈ fdes, fde.endLoc = pc → ∃ fde' ∈ fdes, fde'.startLoc = pc := by
  unfold Agree select
  rw [and_iff_left h.scan_iff]
  rcases searchUnwindHdr_spec h.sorted with ⟨hlt, heq⟩ | ⟨i, hi, hle, hlater, heq⟩
  · rw [heq]
    refine iff_of_true rfl fun fde hmem hend => ?_
    have hnonempty := h.nonempty fde hmem
    obtain ⟨j, hj, rfl⟩ := (h.mem fde).1 hmem
    have hstart := h.start j hj
    have := h.sorted.start_le (Nat.zero_le j) hj
    omega
  · have hmem := (h.mem _).2 ⟨i, hi, rfl⟩
    have hother : ∀ fde ∈ fdes, fde.startLoc ≤ pc → _ := fun _ => h.eq_or_before hi hlater
    have hstart := h.start i hi
    have hnonempty := h.nonempty
    rw [heq]
    generalize t.fde fdeAt i = found at *
    by_cases hlt : pc < found.endLoc
    · rw [(h.scan_iff found).2 ⟨hmem, by omega, hlt⟩]
      refine iff_of_true (by simp [hlt.le]) fun fde hfde hend => ⟨found, hmem, ?_⟩
      have := hnonempty fde hfde
      rcases hother fde hfde (by omega) with rfl | hbefore <;> omega
    · have hnone : scan pc fdes = none := by
        cases hscan : scan pc fdes with
        | none => rfl
        | some fde =>
          obtain ⟨hfde, hrange⟩ := (h.scan_iff fde).1 hscan
          rcases hother fde hfde hrange.1 with rfl | hbefore <;> omega
      rw [hnone]
      rcases (not_lt.1 hlt).eq_or_lt with hend | hend
      · -- the scan does not take `pc`, and a range that begins there would have been found
        refine iff_of_false (by simp [hend]) fun hall => ?_
        obtain ⟨fde, hfde, hbegins⟩ := hall found hmem hend
        have := hnonempty fde hfde
        rcases hother fde hfde hbegins.le with rfl | hbefore <;> omega
      · refine iff_of_true (by simp [hend]) fun fde hfde hends => ?_
        have := hnonempty fde hfde
        have := hnonempty found hmem
        rcases hother fde hfde (by omega) with rfl | hbefore <;> omega

theorem onePair_fits : Fits onePair firstByte (fun _ _ => ⟨4, 6⟩) [⟨4, 6⟩] where
  sorted := onePair_sorted
  start := by
    show ∀ i, i < 1 → _
    decide
  mem fde := by
    rw [List.mem_singleton]
    exact ⟨fun h => ⟨0, by decide, h.symm⟩, fun ⟨_, _, h⟩ => h.symm⟩
  nonempty := by decide
  disjoint := by simp

theorem agree_iff_onePair :
    Agree onePair firstByte 5 (fun _ _ => ⟨4, 6⟩) [⟨4, 6⟩] ↔
      ∀ fde ∈ [(⟨4, 6⟩ : Fde)], fde.endLoc = 5 → ∃ fde' ∈ [(⟨4, 6⟩ : Fde)], fde'.startLoc = 5 :=
  agree_iff onePair firstByte 5 _ _ onePair_fits

/-- The only FDE is for the addresses from 4 to 5, but the search of the table selects it for 6, too. -/
theorem not_agree : Fits onePair firstByte (fun _ _ => ⟨4, 6⟩) [⟨4, 6⟩] ∧
    ¬ Agree onePair firstByte 6 (fun _ _ => ⟨4, 6⟩) [⟨4, 6⟩] := by
  refine ⟨onePair_fits, fun ⟨hselect, _⟩ => ?_⟩
  rcases @searchUnwindHdr_spec Fde _ _ (fun _ _ => ⟨4, 6⟩) 6 onePair_sorted with ⟨hlt, _⟩ | ⟨_, _, _, _, heq⟩
  · exact absurd hlt (by decide)
  · rw [select, heq] at hselect
    have hfound : some (⟨4, 6⟩ : Fde) = none := Option.some.inj hselect
    cases hfound

end Agree

end Systemtap.Runtime.Unwind
