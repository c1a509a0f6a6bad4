import Systemtap.Tree.Syntax

/-!
# Addresses that must not be touched

`lookup_bad_addr` of `addr-map.c`, which stands in front of every dereference. It refuses empty
and wrapping ranges, in a build without `STP_PRIVILEGED` also everything that is not the memory
of the user's own process, and then looks for a black-listed range that overlaps the given one,
by binary search in the sorted map.

The tests are made with `addr + size`, the address behind the range. For a range that ends with
the last address of all, this is 0.

The map is an array of 16 byte entries in memory, so the sum of two indexes does not overflow;
an index that does not fit in the `int entry_idx` is taken to be an error.
-/

namespace Systemtap.Runtime

open List

/-! ## The code -/

/-- `struct addr_map_entry` -/
structure AddrMapEntry where
  min : BitVec 64
  max : BitVec 64

/-- `struct addr_map`, sorted and disjoint. -/
structure AddrMap where
  entries : List AddrMapEntry
  proper : ∀ e ∈ entries, e.min ≤ e.max
  sorted : entries.Pairwise fun d e => d.max ≤ e.min

/-- What the functions look at besides the map: whether the build has `STP_PRIVILEGED`,
`is_myproc ()`, and `TASK_SIZE`. -/
structure AddrContext where
  privileged : Bool
  isMyproc : Bool
  taskSize : BitVec 64

/-- The loop of `lookup_addr_aux`. The result is `none` if an entry is read that is not there. -/
def lookupLoop (addr size : BitVec 64) (entries : List AddrMapEntry) (start stop : Nat) :
    Option (Option AddrMapEntry) :=
  if _h : start < stop then
    match entries[start]?, entries[stop - 1]? with
    | some first, some last =>
      if addr + size ≤ first.min ∨ last.max ≤ addr then some none
      else
        let entryIdx := (stop + start) / 2
        if 2 ^ 31 ≤ entryIdx then none
        else
          match entries[entryIdx]? with
          | none => none
          | some entry =>
            if entry.min < addr + size ∧ addr < entry.max then some (some entry)
            else if addr + size ≤ entry.min then lookupLoop addr size entries start entryIdx
            else lookupLoop addr size entries (entryIdx + 1) stop
    | _, _ => none
  else some none
termination_by stop - start

def lookupAddrAux (addr size : BitVec 64) (map : Option AddrMap) : Option (Option AddrMapEntry) :=
  match map with
  | none => some none
  | some map => lookupLoop addr size map.entries 0 map.entries.length

/-- The tests of `lookup_bad_addr` in front of the search. -/
def refuses (c : AddrContext) (addr size : BitVec 64) : Bool :=
  size = 0 ∨ BitVec.allOnes 64 - addr < size - 1 ∨
    !c.privileged ∧ (!c.isMyproc ∨ c.taskSize < addr + size)

/-- `lookup_bad_addr` -/
def lookupBadAddr (c : AddrContext) (map : Option AddrMap) (addr size : BitVec 64) : Option Nat :=
  if refuses c addr size then some 1
  else
    match lookupAddrAux addr size map with
    | none => none
    | some none => some 0
    | some (some _) => some 1

/-! ## What it is for -/

/-- The address is in the range of the entry. -/
def AddrMapEntry.Has (e : AddrMapEntry) (a : Nat) : Prop := e.min.toNat ≤ a ∧ a < e.max.toNat

/-- The entry and the range have an address in common. -/
def AddrMapEntry.Overlaps (e : AddrMapEntry) (lo hi : Nat) : Prop :=
  e.min.toNat < hi ∧ lo < e.max.toNat

/-- The entries of the map, if there is one. -/
def entriesOf (map : Option AddrMap) : List AddrMapEntry :=
  match map with
  | none => []
  | some map => map.entries

/-- The range may be read. -/
structure MayAccess (c : AddrContext) (map : Option AddrMap) (addr size : BitVec 64) : Prop where
  nonempty : 1 ≤ size.toNat
  no_wrap : addr.toNat + size.toNat - 1 < 2 ^ 64
  not_black : ∀ e ∈ entriesOf map, ∀ a, addr.toNat ≤ a → a < addr.toNat + size.toNat → ¬ e.Has a
  own : c.privileged = false → c.isMyproc = true ∧
    ∀ a, addr.toNat ≤ a → a < addr.toNat + size.toNat → a < c.taskSize.toNat

/-- The guard gives an answer, and what it lets pass may be read. -/
def GuardSound (c : AddrContext) (map : Option AddrMap) (addr size : BitVec 64) : Prop :=
  ∃ r, lookupBadAddr c map addr size = some r ∧ (r = 0 → MayAccess c map addr size)

/-! ## The search -/

/-- The indexes in the middle that the search comes to. -/
def probes (addr size : BitVec 64) (entries : List AddrMapEntry) (start stop : Nat) : List Nat :=
  if _h : start < stop then
    match entries[start]?, entries[stop - 1]? with
    | some first, some last =>
      if addr + size ≤ first.min ∨ last.max ≤ addr then []
      else
        let entryIdx := (stop + start) / 2
        entryIdx ::
          match entries[entryIdx]? with
          | none => []
          | some entry =>
            if entry.min < addr + size ∧ addr < entry.max then []
            else if addr + size ≤ entry.min then probes addr size entries start entryIdx
            else probes addr size entries (entryIdx + 1) stop
    | _, _ => []
  else []
termination_by stop - start

section Search

variable {addr size : BitVec 64} {map : AddrMap}

/-- The range is not in the entry. -/
def Apart (addr size : BitVec 64) (e : AddrMapEntry) : Prop := e.max ≤ addr ∨ addr + size ≤ e.min

/-- The answer is an entry that the range is in, or none if there is no such entry. -/
def Answers (addr size : BitVec 64) (entries : List AddrMapEntry) : Option AddrMapEntry → Prop
  | some e => e ∈ entries ∧ ¬ Apart addr size e
  | none => ∀ e ∈ entries, Apart addr size e

/-- What is known when `start` and `stop` are left to search: the entries in front of them are
below the range, and those behind them are above it. -/
structure Culled (addr size : BitVec 64) (map : AddrMap) (start stop : Nat) : Prop where
  stop_le : stop ≤ map.entries.length
  below : ∀ i e, i < start → map.entries[i]? = some e → e.max ≤ addr
  above : ∀ i e, stop ≤ i → map.entries[i]? = some e → addr + size ≤ e.min

theorem AddrMap.le_of_le (map : AddrMap) {i j : Nat} {d e : AddrMapEntry} (hij : i ≤ j)
    (hi : map.entries[i]? = some d) (hj : map.entries[j]? = some e) : d.min ≤ e.min ∧ d.max ≤ e.max := by
  rcases Nat.eq_or_lt_of_le hij with rfl | hlt
  · rw [Option.some.inj (hi.symm.trans hj)]
    exact ⟨BitVec.le_refl _, BitVec.le_refl _⟩
  · obtain ⟨hi', rfl⟩ := List.getElem?_eq_some_iff.mp hi
    obtain ⟨hj', rfl⟩ := List.getElem?_eq_some_iff.mp hj
    have hle := pairwise_iff_getElem.mp map.sorted i j hi' hj' hlt
    exact ⟨BitVec.le_trans (map.proper _ (getElem_mem hi')) hle,
      BitVec.le_trans hle (map.proper _ (getElem_mem hj'))⟩

namespace Culled

variable {start stop : Nat}

/-- Nothing is left. -/
theorem apart_of_le (h : Culled addr size map start stop) (hle : stop ≤ start) :
    ∀ e ∈ map.entries, Apart addr size e := by
  intro e he
  obtain ⟨i, hi⟩ := mem_iff_getElem?.mp he
  by_cases hlt : i < start
  · exact .inl (h.below i e hlt hi)
  · exact .inr (h.above i e (by omega) hi)

theorem cull_above (h : Culled addr size map start stop) {mid : Nat} {entry : AddrMapEntry}
    (hmid : map.entries[mid]? = some entry) (hle : addr + size ≤ entry.min) :
    Culled addr size map start mid where
  stop_le := (List.getElem?_eq_some_iff.mp hmid).1.le
  below := h.below
  above _ _ hi he := BitVec.le_trans hle (map.le_of_le hi hmid he).1

theorem cull_below (h : Culled addr size map start stop) {mid : Nat} {entry : AddrMapEntry}
    (hmid : map.entries[mid]? = some entry) (hle : entry.max ≤ addr) :
    Culled addr size map (mid + 1) stop where
  stop_le := h.stop_le
  below i e hi he := BitVec.le_trans (map.le_of_le (by omega) he hmid).2 hle
  above := h.above

theorem all : Culled addr size map 0 map.entries.length where
  stop_le := le_rfl
  below i _ hi := absurd hi (Nat.not_lt_zero i)
  above _ _ hi he := absurd (List.getElem?_eq_some_iff.mp he).1 (not_lt.mpr hi)

end Culled

/-- The search answers, or comes to an index that is too great. The induction is on how many entries are left. -/
theorem lookupLoop_spec {start stop : Nat} (h : Culled addr size map start stop) :
    (∃ r, lookupLoop addr size map.entries start stop = some r ∧ Answers addr size map.entries r ∧
      ∀ i ∈ probes addr size map.entries start stop, i < 2 ^ 31) ∨
    (lookupLoop addr size map.entries start stop = none ∧
      ∃ i ∈ probes addr size map.entries start stop, 2 ^ 31 ≤ i ∧ i < map.entries.length) := by
  induction hn : stop - start using Nat.strong_induction_on generalizing start stop with
  | _ n ih =>
    unfold probes lookupLoop
    by_cases hlt : start < stop
    swap
    · rw [dif_neg hlt, dif_neg hlt]
      exact .inl ⟨none, rfl, h.apart_of_le (by omega), by simp⟩
    rw [dif_pos hlt, dif_pos hlt]
    have hstop := h.stop_le
    have hget : ∀ i, i < stop → ∃ e, map.entries[i]? = some e := fun i hi =>
      ⟨_, List.getElem?_eq_getElem (by omega)⟩
    obtain ⟨first, hfirst⟩ := hget start hlt
    obtain ⟨last, hlast⟩ := hget (stop - 1) (by omega)
    obtain ⟨entry, hentry⟩ := hget ((stop + start) / 2) (by omega)
    simp only [hfirst, hlast, hentry]
    by_cases hout : addr + size ≤ first.min ∨ last.max ≤ addr
    · rw [if_pos hout, if_pos hout]
      refine .inl ⟨none, rfl, ?_, by simp⟩
      rcases hout with hle | hle
      · exact (h.cull_above hfirst hle).apart_of_le le_rfl
      · exact (h.cull_below hlast hle).apart_of_le (by omega)
    rw [if_neg hout, if_neg hout]
    by_cases hidx : 2 ^ 31 ≤ (stop + start) / 2
    · rw [if_pos hidx]
      exact .inr ⟨rfl, _, mem_cons_self, hidx, by omega⟩
    rw [if_neg hidx]
    simp only [forall_mem_cons, exists_mem_cons_iff, hidx, false_and, false_or, not_le.mp hidx, true_and]
    by_cases hfound : entry.min < addr + size ∧ addr < entry.max
    · rw [if_pos hfound, if_pos hfound]
      refine .inl ⟨some entry, rfl, ⟨List.mem_of_getElem? hentry, fun hapart => ?_⟩, by simp⟩
      rcases hapart with hmax | hmin
      · exact BitVec.not_le.mpr hfound.2 hmax
      · exact BitVec.not_le.mpr hfound.1 hmin
    rw [if_neg hfound, if_neg hfound]
    by_cases hle : addr + size ≤ entry.min
    · rw [if_pos hle, if_pos hle]
      exact ih _ (by omega) (h.cull_above hentry hle) rfl
    · rw [if_neg hle, if_neg hle]
      have hmax : entry.max ≤ addr :=
        BitVec.not_lt.mp fun hlt => hfound ⟨BitVec.not_le.mp hle, hlt⟩
      exact ih _ (by omega) (h.cull_below hentry hmax) rfl

/-- A range that ends with the last address is in front of everything. -/
theorem lookupLoop_wrap (hwrap : addr + size = 0) (stop : Nat) (hstop : stop ≤ map.entries.length) :
    lookupLoop addr size map.entries 0 stop = some none ∧
      probes addr size map.entries 0 stop = [] := by
  unfold lookupLoop probes
  by_cases hlt : 0 < stop
  · rw [dif_pos hlt, dif_pos hlt]
    have hget : ∀ i, i < stop → ∃ e, map.entries[i]? = some e := fun i hi =>
      ⟨_, List.getElem?_eq_getElem (by omega)⟩
    obtain ⟨first, hfirst⟩ := hget 0 hlt
    obtain ⟨last, hlast⟩ := hget (stop - 1) (by omega)
    have hout : addr + size ≤ first.min ∨ last.max ≤ addr := by
      rw [hwrap]
      exact .inl (BitVec.le_def.mpr (Nat.zero_le _))
    simp only [hfirst, hlast]
    rw [if_pos hout, if_pos hout]
    exact ⟨rfl, rfl⟩
  · rw [dif_neg hlt, dif_neg hlt]
    exact ⟨rfl, rfl⟩

end Search

/-! ## The guard -/

/-- The indexes that the search in the map comes to. -/
def probesOf (addr size : BitVec 64) (map : Option AddrMap) : List Nat :=
  match map with
  | none => []
  | some map => probes addr size map.entries 0 map.entries.length

section Guard

variable {c : AddrContext} {map : Option AddrMap} {addr size : BitVec 64}

theorem lookupAddrAux_spec (addr size : BitVec 64) (map : Option AddrMap) :
    (∃ r, lookupAddrAux addr size map = some r ∧ Answers addr size (entriesOf map) r ∧
      ∀ i ∈ probesOf addr size map, i < 2 ^ 31) ∨
    (lookupAddrAux addr size map = none ∧
      ∃ i ∈ probesOf addr size map, 2 ^ 31 ≤ i ∧ i < (entriesOf map).length) := by
  cases map with
  | none => exact .inl ⟨none, rfl, fun e he => absurd he not_mem_nil, fun i hi => absurd hi not_mem_nil⟩
  | some map => exact lookupLoop_spec .all

theorem probesOf_lt (h : (entriesOf map).length ≤ 2 ^ 31) : ∀ i ∈ probesOf addr size map, i < 2 ^ 31 := by
  rcases lookupAddrAux_spec addr size map with ⟨r, -, -, hprobes⟩ | ⟨-, i, -, hle, hlt⟩
  · exact hprobes
  · omega

theorem lookupAddrAux_wrap (map : Option AddrMap) (hwrap : addr + size = 0) :
    lookupAddrAux addr size map = some none ∧ probesOf addr size map = [] := by
  cases map with
  | none => exact ⟨rfl, rfl⟩
  | some map => exact lookupLoop_wrap hwrap map.entries.length le_rfl

theorem refuses_eq_false_iff : refuses c addr size = false ↔
    1 ≤ size.toNat ∧ addr.toNat + size.toNat ≤ 2 ^ 64 ∧
      (c.privileged = false → c.isMyproc = true ∧ addr + size ≤ c.taskSize) := by
  have hwrap : size ≠ 0 →
      (¬ BitVec.allOnes 64 - addr < size - 1 ↔ addr.toNat + size.toNat ≤ 2 ^ 64) := by
    intro hsize
    have hones : (BitVec.allOnes 64).toNat = 2 ^ 64 - 1 := rfl
    bv_omega
  have hsize : size ≠ 0 ↔ 1 ≤ size.toNat := by bv_omega
  unfold refuses
  rw [decide_eq_false_iff_not, not_or, not_or, ← hsize]
  refine and_congr_right fun hne => and_congr (hwrap hne) ?_
  cases c.privileged <;> cases c.isMyproc <;> simp

theorem apart_iff (hsum : addr.toNat + size.toNat < 2 ^ 64) (e : AddrMapEntry) :
    Apart addr size e ↔ ¬ e.Overlaps addr.toNat (addr.toNat + size.toNat) := by
  unfold Apart AddrMapEntry.Overlaps
  rw [BitVec.le_def, BitVec.le_def, BitVec.toNat_add, Nat.mod_eq_of_lt hsum]
  omega

/-- What is apart from the range has no address of it. -/
theorem Apart.not_has (hsum : addr.toNat + size.toNat < 2 ^ 64) {e : AddrMapEntry}
    (h : Apart addr size e) {a : Nat} (hle : addr.toNat ≤ a) (hlt : a < addr.toNat + size.toNat) :
    ¬ e.Has a := by
  intro ⟨hmin, hmax⟩
  exact (apart_iff hsum e).mp h ⟨Nat.lt_of_le_of_lt hmin hlt, Nat.lt_of_le_of_lt hle hmax⟩

/-- What passes the first tests and is apart from all entries may be read. -/
theorem mayAccess_of_apart (href : refuses c addr size = false)
    (hsum : addr.toNat + size.toNat < 2 ^ 64) (hapart : ∀ e ∈ entriesOf map, Apart addr size e) :
    MayAccess c map addr size := by
  obtain ⟨hpos, -, hown⟩ := refuses_eq_false_iff.mp href
  refine ⟨hpos, by omega, fun e he a hle hlt => (hapart e he).not_has hsum hle hlt, fun hpriv => ?_⟩
  obtain ⟨hproc, htask⟩ := hown hpriv
  refine ⟨hproc, fun a _ hlt => ?_⟩
  have htask := BitVec.le_def.mp htask
  rw [BitVec.toNat_add, Nat.mod_eq_of_lt hsum] at htask
  omega

/-- A range that ends with the last address may be read by the privileged, if no entry is there. -/
theorem mayAccess_wrap_iff (hpos : 1 ≤ size.toNat) (hwrap : addr.toNat + size.toNat = 2 ^ 64) :
    MayAccess c map addr size ↔
      c.privileged = true ∧ ∀ e ∈ entriesOf map, e.min < e.max → e.max ≤ addr := by
  constructor
  · intro hmay
    refine ⟨?_, fun e he hlt => ?_⟩
    · cases hpriv : c.privileged with
      | true => rfl
      | false =>
        -- the last address is not below `TASK_SIZE`
        have htask := (hmay.own hpriv).2 (2 ^ 64 - 1) (by omega) (by omega)
        omega
    · by_contra hle
      have hlt := BitVec.lt_def.mp hlt
      have hgt := BitVec.lt_def.mp (BitVec.not_le.mp hle)
      refine hmay.not_black e he (max addr.toNat e.min.toNat) (le_max_left _ _) ?_ ⟨?_, ?_⟩
      · omega
      · exact le_max_right _ _
      · omega
  · rintro ⟨hpriv, hentries⟩
    refine ⟨hpos, by omega, fun e he a hle _ hhas => ?_, fun hnot => ?_⟩
    · obtain ⟨hmin, hmax⟩ := hhas
      have hend := BitVec.le_def.mp (hentries e he (BitVec.lt_def.mpr (by omega)))
      omega
    · rw [hpriv] at hnot
      cases hnot

/-- The guard is right about a range exactly if it refuses it by its first tests, or the range
does not end with the last address of all (or does so in a privileged build, and the map has
nothing up there), and the search has no index that is not an `int`. -/
theorem guardSound_iff (c : AddrContext) (map : Option AddrMap) (addr size : BitVec 64) :
    GuardSound c map addr size ↔
      (refuses c addr size = false →
        (addr.toNat + size.toNat = 2 ^ 64 → c.privileged = true ∧
          ∀ e ∈ entriesOf map, e.min < e.max → e.max ≤ addr) ∧
        ∀ i ∈ probesOf addr size map, i < 2 ^ 31) := by
  cases href : refuses c addr size with
  | true =>
    refine iff_of_true ⟨1, ?_, fun h => absurd h Nat.one_ne_zero⟩ fun h => ?_
    · rw [lookupBadAddr, href, if_pos rfl]
    · exact absurd h.symm Bool.false_ne_true
  | false =>
    by_cases hwrap : addr.toNat + size.toNat = 2 ^ 64
    · -- the sum is 0, and nothing is found
      have hzero : addr + size = 0 := by bv_omega
      obtain ⟨hlookup, hprobes⟩ := lookupAddrAux_wrap map hzero
      have hpos := (refuses_eq_false_iff.mp href).1
      rw [GuardSound, lookupBadAddr, href, if_neg Bool.false_ne_true, hlookup, hprobes,
        ← mayAccess_wrap_iff hpos hwrap]
      constructor
      · rintro ⟨r, hr, hmay⟩ -
        cases hr
        exact ⟨fun _ => hmay rfl, fun i hi => absurd hi not_mem_nil⟩
      · exact fun h => ⟨0, rfl, fun _ => (h rfl).1 hwrap⟩
    · have hle := (refuses_eq_false_iff.mp href).2.1
      rw [GuardSound, lookupBadAddr, href, if_neg Bool.false_ne_true]
      rcases lookupAddrAux_spec addr size map with ⟨r, hlookup, hanswers, hprobes⟩ | ⟨hlookup, i, hi, hge, -⟩
      · rw [hlookup]
        refine iff_of_true ?_ fun _ => ⟨fun h => absurd h hwrap, hprobes⟩
        cases r with
        | some e => exact ⟨1, rfl, fun h => absurd h Nat.one_ne_zero⟩
        | none => exact ⟨0, rfl, fun _ => mayAccess_of_apart href (by omega) hanswers⟩
      · rw [hlookup]
        exact iff_of_false (by simp) fun h => absurd ((h rfl).2 i hi) (not_lt.mpr hge)

/-- `lookup_addr_aux` returns, and with an overlapping entry if there is one. -/
def LookupRight (addr size : BitVec 64) (map : AddrMap) : Prop :=
  ∃ r, lookupAddrAux addr size (some map) = some r ∧
    (∀ e, r = some e → e ∈ map.entries ∧ e.Overlaps addr.toNat (addr.toNat + size.toNat)) ∧
    (r = none → ∀ e ∈ map.entries, ¬ e.Overlaps addr.toNat (addr.toNat + size.toNat))

/-- Entries of one byte each, with one byte between them. -/
def spacedMap (n : Nat) (hn : n ≤ 2 ^ 62) : AddrMap where
  entries := (List.range n).map fun i => ⟨BitVec.ofNat 64 (2 * i), BitVec.ofNat 64 (2 * i + 1)⟩
  proper := by
    intro e he
    obtain ⟨i, hi, rfl⟩ := mem_map.mp he
    exact BitVec.le_def.mpr (by simp only [BitVec.toNat_ofNat]; omega)
  sorted := by
    refine pairwise_map.mpr (pairwise_lt_range.imp_of_mem fun {i j} _ hj hij => ?_)
    have hj := mem_range.mp hj
    exact BitVec.le_def.mpr (by simp only [BitVec.toNat_ofNat]; omega)

/-- The search in a great map begins with an index that is not an `int`. -/
theorem lookup_spacedMap {n : Nat} (hn : n ≤ 2 ^ 62) (hgreat : 2 ^ 32 ≤ n) :
    lookupAddrAux 1 1 (some (spacedMap n hn)) = none := by
  have hget : ∀ i, i < n → (spacedMap n hn).entries[i]? =
      some ⟨BitVec.ofNat 64 (2 * i), BitVec.ofNat 64 (2 * i + 1)⟩ := by
    intro i hi
    simp [spacedMap, hi]
  have hlen : (spacedMap n hn).entries.length = n := by simp [spacedMap]
  show lookupLoop 1 1 (spacedMap n hn).entries 0 (spacedMap n hn).entries.length = none
  unfold lookupLoop
  rw [hlen, dif_pos (by omega), hget 0 (by omega), hget (n - 1) (by omega)]
  have hin : ¬ ((1 : BitVec 64) + 1 ≤ BitVec.ofNat 64 (2 * 0) ∨
      BitVec.ofNat 64 (2 * (n - 1) + 1) ≤ (1 : BitVec 64)) := by
    have hone : (1 : BitVec 64).toNat = 1 := rfl
    simp only [BitVec.le_def, BitVec.toNat_ofNat, BitVec.toNat_add, hone]
    omega
  dsimp only
  rw [if_neg hin, if_pos (by omega)]

/-- In an unprivileged build, the guard lets the last 8 bytes of the address space pass, which
belong to the kernel. -/
theorem guard_lets_last_pass :
    let c : AddrContext := ⟨false, true, 0x7ffffffff000⟩
    lookupBadAddr c none 0xfffffffffffffff8 8 = some 0 ∧
      ¬ GuardSound c none 0xfffffffffffffff8 8 := by
  intro c
  have hzero : lookupBadAddr c none 0xfffffffffffffff8 8 = some 0 := by decide
  refine ⟨hzero, ?_⟩
  rintro ⟨r, hr, hmay⟩
  have hown := (hmay (Option.some.inj (hr.symm.trans hzero))).own rfl
  exact absurd (hown.2 (2 ^ 64 - 1) (by decide) (by decide)) (by decide)

end Guard

end Systemtap.Runtime
