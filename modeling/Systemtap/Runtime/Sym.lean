import Systemtap.Tree.Syntax

/-!
# The symbol lookup

`_stp_kallsyms_lookup` finds the section of an address and searches the section's table of symbols
for the last one that is not above it. The search is a `do .. while`: it reads a row before it
looks at the number of rows.

`_stp_module_relocate` goes the other way, from a section and an offset to an address.

`unsigned long` has 64 bits and `unsigned` 32. What lies behind the rows of a table is not known;
`behind` says what would be read there.
-/

namespace Systemtap.Runtime

open List BitVec

/-! ## The code -/

/-- `struct _stp_symbol` -/
structure StpSymbol where
  addr : BitVec 64
  symbol : String
deriving DecidableEq

/-- `struct _stp_section`; `symbols` has the rows that are there, `numSymbols` says how many there
should be. -/
structure StpSection where
  name : String
  staticAddr : BitVec 64
  size : BitVec 64
  symbols : List StpSymbol
  numSymbols : BitVec 32

/-- `struct _stp_module` -/
structure StpModule where
  name : String
  sections : List StpSection

/-- What `stap_find_vma_map_info` finds for a task: the module, its `sections[0]` and
`vm_start`. -/
structure UserArea where
  module : StpModule
  section0 : StpSection
  vmStart : BitVec 64

/-- `_stp_mod_sec_lookup` -/
def modSecLookup (modules : List StpModule) (task : Option UserArea) (addr : BitVec 64) :
    Option (StpModule × StpSection × BitVec 64) :=
  match task with
  | some area =>
    some (area.module, area.section0,
      if area.section0.name = ".dynamic" then addr - area.vmStart else addr)
  | none =>
    modules.findSome? fun m =>
      m.sections.findSome? fun sec =>
        if sec.staticAddr ≤ addr ∧ addr < sec.staticAddr + sec.size then
          some (m, sec, addr - sec.staticAddr)
        else none

/-- `symbols[i].addr` -/
def StpSection.addrAt (sec : StpSection) (behind : Nat → BitVec 64) (i : Nat) : BitVec 64 :=
  match sec.symbols[i]? with
  | some s => s.addr
  | none => behind i

/-- `(begin + end) / 2` -/
def middle (begin stop : BitVec 32) : BitVec 32 := (begin + stop) / 2

/-- One round of the search: the new `begin` and `end`. -/
def StpSection.narrow (sec : StpSection) (behind : Nat → BitVec 64) (addr : BitVec 64)
    (begin stop : BitVec 32) : BitVec 32 × BitVec 32 :=
  if addr < sec.addrAt behind (middle begin stop).toNat then (begin, middle begin stop)
  else (middle begin stop, stop)

/-- The loop of `_stp_kallsyms_lookup`: the rows that it reads, and the `begin` that it ends
with. -/
def StpSection.search (sec : StpSection) (behind : Nat → BitVec 64) (addr : BitVec 64) :
    Nat → BitVec 32 → BitVec 32 → List Nat × Option (BitVec 32)
  | 0, _, _ => ([], none)
  | fuel + 1, begin, stop =>
    let next := sec.narrow behind addr begin stop
    if next.1 + 1 < next.2 then
      let later := sec.search behind addr fuel next.1 next.2
      ((middle begin stop).toNat :: later.1, later.2)
    else ([(middle begin stop).toNat], some next.1)

/-- What `_stp_kallsyms_lookup` gives back: the row with the name, `*offset` and `*symbolsize`. -/
structure FoundSymbol where
  row : Nat
  offset : BitVec 64
  symbolsize : BitVec 64
deriving DecidableEq

/-- `_stp_kallsyms_lookup` behind `_stp_mod_sec_lookup`: the rows that it reads, and what it gives
back, if the search ends within `fuel` rounds. -/
def StpSection.lookup (sec : StpSection) (behind : Nat → BitVec 64) (fuel : Nat) (addr : BitVec 64) :
    List Nat × Option (Option FoundSymbol) :=
  let found := sec.search behind addr fuel 0 sec.numSymbols
  match found.2 with
  | none => (found.1, none)
  | some begin =>
    let at0 := sec.addrAt behind begin.toNat
    if at0 ≤ addr then
      if begin + 1 < sec.numSymbols then
        (found.1 ++ [begin.toNat, (begin + 1).toNat],
          some (some ⟨begin.toNat, addr - at0, sec.addrAt behind (begin + 1).toNat - at0⟩))
      else (found.1 ++ [begin.toNat], some (some ⟨begin.toNat, addr - at0, 0⟩))
    else (found.1 ++ [begin.toNat], some none)

/-- `_stp_kallsyms_lookup` -/
def kallsymsLookup (modules : List StpModule) (task : Option UserArea) (behind : Nat → BitVec 64)
    (fuel : Nat) (addr : BitVec 64) : List Nat × Option (Option FoundSymbol) :=
  match modSecLookup modules task addr with
  | none => ([], some none)
  | some (_, sec, relAddr) => sec.lookup behind fuel relAddr

/-! ## The rows that are read -/

section Reads

variable {sec : StpSection} {behind : Nat → BitVec 64} {addr : BitVec 64}

/-- The middle is a row if `begin` is one, also where the sum runs over. -/
theorem middle_lt {begin stop : BitVec 32} {n : Nat} (hbegin : begin.toNat < n)
    (hstop : stop.toNat ≤ n) : (middle begin stop).toNat < n := by
  rw [middle, toNat_udiv, toNat_add]
  change _ / 2 < n
  omega

theorem narrow_lt {begin stop : BitVec 32} {n : Nat} (hbegin : begin.toNat < n)
    (hstop : stop.toNat ≤ n) :
    (sec.narrow behind addr begin stop).1.toNat < n ∧
      (sec.narrow behind addr begin stop).2.toNat ≤ n := by
  have hmid := middle_lt hbegin hstop
  rw [StpSection.narrow]
  split
  · exact ⟨hbegin, hmid.le⟩
  · exact ⟨hmid, hstop⟩

theorem search_lt {n : Nat} : ∀ (fuel : Nat) {begin stop : BitVec 32}, begin.toNat < n →
    stop.toNat ≤ n → (∀ i ∈ (sec.search behind addr fuel begin stop).1, i < n) ∧
      ∀ b, (sec.search behind addr fuel begin stop).2 = some b → b.toNat < n := by
  intro fuel
  induction fuel with
  | zero =>
    intro begin stop _ _
    refine ⟨fun i hi => absurd hi not_mem_nil, fun b hb => ?_⟩
    cases hb
  | succ fuel ih =>
    intro begin stop hbegin hstop
    have hmid := middle_lt hbegin hstop
    obtain ⟨hfirst, hsecond⟩ := narrow_lt hbegin hstop
    rw [StpSection.search]
    split
    · obtain ⟨hreads, hresult⟩ := ih hfirst hsecond
      exact ⟨forall_mem_cons.mpr ⟨hmid, hreads⟩, hresult⟩
    · refine ⟨forall_mem_singleton.mpr hmid, fun b hb => ?_⟩
      rw [← Option.some.inj hb]
      exact hfirst

/-- Of a table that should have a row, the lookup reads only rows that should be there. -/
theorem lookup_reads_lt (hpos : 0 < sec.numSymbols.toNat) (fuel : Nat) :
    ∀ i ∈ (sec.lookup behind fuel addr).1, i < sec.numSymbols.toNat := by
  obtain ⟨hreads, hresult⟩ :=
    @search_lt sec behind addr sec.numSymbols.toNat fuel 0 sec.numSymbols hpos (Nat.le_refl _)
  rw [StpSection.lookup]
  dsimp only
  split
  · exact hreads
  · next begin hbegin =>
    have hlt := hresult begin hbegin
    split
    · split
      · next hone =>
        refine forall_mem_append.mpr ⟨hreads, forall_mem_cons.mpr ⟨hlt, ?_⟩⟩
        exact forall_mem_singleton.mpr (lt_def.mp hone)
      · exact forall_mem_append.mpr ⟨hreads, forall_mem_singleton.mpr hlt⟩
    · exact forall_mem_append.mpr ⟨hreads, forall_mem_singleton.mpr hlt⟩

end Reads

/-! ## What is found -/

/-- The table of a section is in order and has the rows that it should have. -/
structure StpSection.WellFormed (sec : StpSection) : Prop where
  count : sec.numSymbols.toNat = sec.symbols.length
  nonempty : sec.symbols ≠ []
  sorted : (sec.symbols.map StpSymbol.addr).Pairwise (· < ·)

section Found

variable {sec : StpSection} {behind : Nat → BitVec 64} {addr : BitVec 64}

theorem StpSection.addrAt_eq {i : Nat} {s : StpSymbol} (hi : sec.symbols[i]? = some s) :
    sec.addrAt behind i = s.addr := by
  rw [StpSection.addrAt, hi]

theorem StpSection.WellFormed.le_of_le (h : sec.WellFormed) {i j : Nat} {s s' : StpSymbol}
    (hij : i ≤ j) (hi : sec.symbols[i]? = some s) (hj : sec.symbols[j]? = some s') :
    s.addr ≤ s'.addr := by
  rcases Nat.eq_or_lt_of_le hij with rfl | hlt
  · rw [Option.some.inj (hi.symm.trans hj)]
    exact BitVec.le_refl _
  · have hpair := pairwise_iff_getElem.mp (pairwise_map.mp h.sorted)
    obtain ⟨hilt, rfl⟩ := List.getElem?_eq_some_iff.mp hi
    obtain ⟨hjlt, rfl⟩ := List.getElem?_eq_some_iff.mp hj
    exact BitVec.le_of_lt (hpair i j hilt hjlt hlt)

/-- What is known in each round: the symbol at `begin` is not above the address, if it is not the
first one, and the one at `end` is, if there is one. -/
structure Narrowed (sec : StpSection) (behind : Nat → BitVec 64) (addr : BitVec 64)
    (begin stop : BitVec 32) : Prop where
  le : begin.toNat ≤ stop.toNat
  lt : begin.toNat < sec.numSymbols.toNat
  stop_le : stop.toNat ≤ sec.numSymbols.toNat
  below : begin.toNat = 0 ∨ sec.addrAt behind begin.toNat ≤ addr
  above : stop = sec.numSymbols ∨ addr < sec.addrAt behind stop.toNat

variable {begin stop : BitVec 32}

theorem toNat_middle {n : Nat} (hn : n ≤ 2 ^ 31) (hbegin : begin.toNat < n)
    (hstop : stop.toNat ≤ n) : (middle begin stop).toNat = (begin.toNat + stop.toNat) / 2 := by
  rw [middle, toNat_udiv, toNat_add, Nat.mod_eq_of_lt (by omega)]
  rfl

theorem toNat_add_one {b n : BitVec 32} (h : b.toNat < n.toNat) : (b + 1).toNat = b.toNat + 1 := by
  bv_omega

theorem Narrowed.narrow (h : Narrowed sec behind addr begin stop)
    (hsmall : sec.numSymbols.toNat ≤ 2 ^ 31) :
    Narrowed sec behind addr (sec.narrow behind addr begin stop).1
      (sec.narrow behind addr begin stop).2 := by
  have hmid := toNat_middle hsmall h.lt h.stop_le
  have hle := h.le
  have hlt := middle_lt h.lt h.stop_le
  rw [StpSection.narrow]
  split
  · next habove =>
    refine ⟨?_, h.lt, hlt.le, h.below, .inr habove⟩
    show begin.toNat ≤ (middle begin stop).toNat
    omega
  · next hbelow =>
    refine ⟨?_, hlt, h.stop_le, .inr (BitVec.not_lt.mp hbelow), h.above⟩
    show (middle begin stop).toNat ≤ stop.toNat
    omega

/-- As long as two rows are left, a round leaves fewer. -/
theorem Narrowed.narrow_lt (h : Narrowed sec behind addr begin stop)
    (hsmall : sec.numSymbols.toNat ≤ 2 ^ 31) (htwo : begin.toNat + 1 < stop.toNat) :
    (sec.narrow behind addr begin stop).2.toNat - (sec.narrow behind addr begin stop).1.toNat <
      stop.toNat - begin.toNat := by
  have hmid := toNat_middle hsmall h.lt h.stop_le
  rw [StpSection.narrow]
  split <;> dsimp only <;> omega

/-- The search ends, with one row left at the most. -/
theorem search_ends (hsmall : sec.numSymbols.toNat ≤ 2 ^ 31) : ∀ (fuel : Nat)
    {begin stop : BitVec 32}, Narrowed sec behind addr begin stop → 0 < fuel →
    stop.toNat - begin.toNat ≤ fuel → ∃ b stop' : BitVec 32, stop'.toNat ≤ b.toNat + 1 ∧
      Narrowed sec behind addr b stop' ∧ (sec.search behind addr fuel begin stop).2 = some b := by
  intro fuel
  induction fuel with
  | zero => exact fun _ hpos => absurd hpos (Nat.lt_irrefl 0)
  | succ fuel ih =>
    intro begin stop h _ hfuel
    have hnext := h.narrow hsmall
    have hone : ((sec.narrow behind addr begin stop).1 + 1).toNat =
        (sec.narrow behind addr begin stop).1.toNat + 1 := toNat_add_one hnext.lt
    rw [StpSection.search]
    split
    · next hmore =>
      have hmore' := lt_def.mp hmore
      rw [hone] at hmore'
      by_cases htwo : begin.toNat + 1 < stop.toNat
      · have hfewer := h.narrow_lt hsmall htwo
        exact ih hnext (by omega) (by omega)
      · have hmid := toNat_middle hsmall h.lt h.stop_le
        rw [StpSection.narrow] at hmore'
        split at hmore' <;> dsimp only at hmore' <;> omega
    · next hdone =>
      refine ⟨_, _, ?_, hnext, rfl⟩
      have hdone' := BitVec.not_lt.mp hdone
      rw [le_def, hone] at hdone'
      exact hdone'

/-- The last symbol that is not above the address. -/
structure LastBelow (sec : StpSection) (addr : BitVec 64) (i : Nat) (s : StpSymbol) : Prop where
  row : sec.symbols[i]? = some s
  le : s.addr ≤ addr
  later : ∀ j s', i < j → sec.symbols[j]? = some s' → addr < s'.addr

/-- The distance to the next symbol, 0 behind the last one. -/
def StpSection.sizeOf (sec : StpSection) (i : Nat) (s : StpSymbol) : BitVec 64 :=
  match sec.symbols[i + 1]? with
  | some s' => s'.addr - s.addr
  | none => 0

/-- What the lookup should give back: the last symbol that is not above the address with its offset
and size, or nothing if the address is below the first symbol. -/
def Finds (sec : StpSection) (addr : BitVec 64) (result : Option (Option FoundSymbol)) : Prop :=
  result = some none ∧ (∀ s ∈ sec.symbols, addr < s.addr) ∨
    ∃ i s, LastBelow sec addr i s ∧ result = some (some ⟨i, addr - s.addr, sec.sizeOf i s⟩)

/-- The lookup ends, and finds what it should. -/
def StpSection.LookupRight (sec : StpSection) : Prop :=
  ∀ behind addr, ∃ fuel, Finds sec addr (sec.lookup behind fuel addr).2

/-- A well-formed table of up to 2³¹ rows is searched to the end, and the right symbol is found. -/
theorem finds_lookup (h : sec.WellFormed) (hsmall : sec.symbols.length ≤ 2 ^ 31) {fuel : Nat}
    (hfuel : sec.symbols.length ≤ fuel) : Finds sec addr (sec.lookup behind fuel addr).2 := by
  have hcount := h.count
  have hpos := length_pos_iff.mpr h.nonempty
  have hstart : Narrowed sec behind addr 0 sec.numSymbols :=
    ⟨Nat.zero_le _, by rw [hcount]; exact hpos, Nat.le_refl _, .inl rfl, .inl rfl⟩
  obtain ⟨b, stop, hstop, hb, hsearch⟩ := search_ends (hcount ▸ hsmall) fuel hstart
    (by omega) (by rw [hcount]; exact (Nat.sub_le _ _).trans hfuel)
  have hblt := hb.lt
  obtain ⟨s, hs⟩ : ∃ s, sec.symbols[b.toNat]? = some s :=
    ⟨_, List.getElem?_eq_getElem (hcount ▸ hblt)⟩
  have haddr : sec.addrAt behind b.toNat = s.addr := StpSection.addrAt_eq hs
  have hone : (b + 1).toNat = b.toNat + 1 := toNat_add_one hblt
  rw [StpSection.lookup]
  dsimp only
  rw [hsearch]
  dsimp only
  rw [haddr]
  by_cases hle : s.addr ≤ addr
  · right
    have hlast : LastBelow sec addr b.toNat s := by
      refine ⟨hs, hle, fun j s' hj hs' => ?_⟩
      have hjlt : j < sec.symbols.length := (List.getElem?_eq_some_iff.mp hs').1
      rcases hb.above with rfl | habove
      · omega
      · have hrow := List.getElem?_eq_getElem (l := sec.symbols) (i := stop.toNat) (by omega)
        rw [StpSection.addrAt_eq hrow] at habove
        have hmono := h.le_of_le (by omega) hrow hs'
        bv_omega
    refine ⟨b.toNat, s, hlast, ?_⟩
    rw [if_pos hle]
    by_cases hnext : b + 1 < sec.numSymbols
    · have hnext' := lt_def.mp hnext
      rw [hone, hcount] at hnext'
      have hrow := List.getElem?_eq_getElem hnext'
      rw [if_pos hnext, hone, StpSection.addrAt_eq hrow, StpSection.sizeOf, hrow]
    · have hnext' := BitVec.not_lt.mp hnext
      rw [le_def, hone, hcount] at hnext'
      rw [if_neg hnext, StpSection.sizeOf, List.getElem?_eq_none hnext']
  · left
    rw [if_neg hle]
    refine ⟨rfl, fun s' hs' => ?_⟩
    -- not the first row would be below the address
    have hzero : b.toNat = 0 := by
      refine hb.below.resolve_right fun hbelow => hle ?_
      rwa [haddr] at hbelow
    obtain ⟨j, hj⟩ := mem_iff_getElem?.mp hs'
    have hmono := h.le_of_le (by omega) hs hj
    bv_omega

/-- In a larger table the sum of `begin` and `end` runs over before the last row is reached, and
`begin` falls back: an address above all symbols is searched for without an end. -/
theorem search_eq_none (hlarge : 2 ^ 31 < sec.numSymbols.toNat) : ∀ (fuel : Nat) (begin : BitVec 32),
    (sec.search behind (allOnes 64) fuel begin sec.numSymbols).2 = none := by
  intro fuel
  induction fuel with
  | zero => exact fun _ => rfl
  | succ fuel ih =>
    intro begin
    have hnext : sec.narrow behind (allOnes 64) begin sec.numSymbols =
        (middle begin sec.numSymbols, sec.numSymbols) := by
      exact if_neg BitVec.not_allOnes_lt
    -- half of a 32-bit number is a row in front of the last one
    have hmore : middle begin sec.numSymbols + 1 < sec.numSymbols := by
      have hmid : (middle begin sec.numSymbols).toNat = (begin + sec.numSymbols).toNat / 2 := by
        rfl
      bv_omega
    rw [StpSection.search, hnext]
    rw [if_pos hmore]
    exact ih _

end Found

/-- A table with the symbols 0, 1, 2, ... -/
def evenTable (n : Nat) : StpSection :=
  ⟨".text", 0, 0, (range n).map fun i => ⟨BitVec.ofNat 64 i, "f"⟩, BitVec.ofNat 32 n⟩

theorem evenTable_wellFormed {n : Nat} (hpos : 0 < n) (hlt : n < 2 ^ 32) :
    (evenTable n).WellFormed where
  count := by simpa [evenTable] using hlt
  nonempty := by
    refine ne_nil_of_length_pos ?_
    simpa [evenTable] using hpos
  sorted := by
    show (((range n).map _).map _).Pairwise _
    rw [map_map, pairwise_map]
    refine pairwise_lt_range.imp_of_mem fun hi hj hij => ?_
    rw [mem_range] at hi hj
    show BitVec.ofNat 64 _ < BitVec.ofNat 64 _
    rw [BitVec.lt_def, BitVec.toNat_ofNat, BitVec.toNat_ofNat]
    omega

/-- `_stp_module_relocate`. For a task, `vma` says where `stap_find_vma_map_info_user` finds a module. -/
def moduleRelocate (modules : List StpModule) (modName : Option String) (secName : String)
    (offset : BitVec 64) (vma : Option (StpModule → Option (BitVec 64))) : BitVec 64 :=
  match modName with
  | none => offset
  | some modName =>
    if secName = "" ∨ modules.length = 0 then offset
    else
      let found := modules.findSome? fun m =>
        if m.name = modName then
          m.sections.findSome? fun s =>
            if s.name = secName then
              if s.staticAddr ≠ 0 then some (offset + s.staticAddr)
              else
                match vma with
                -- a static section that is not in memory yet
                | none => some 0
                | some find =>
                  -- an internal error, unless the section is dynamic
                  if s.name ≠ ".dynamic" then some 0
                  else some (((find m).map (offset + ·)).getD 0)
            else none
        else none
      found.getD 0

/-- Modules have different names, and so have the sections of a module. -/
structure WellNamed (modules : List StpModule) : Prop where
  names : (modules.map StpModule.name).Nodup
  sections : ∀ m ∈ modules, (m.sections.map StpSection.name).Nodup
  nonempty : ∀ m ∈ modules, ∀ s ∈ m.sections, s.name ≠ ""

/-- Of a list with different keys one element is looked at. -/
theorem findSome?_key {α β κ : Type} [DecidableEq κ] {key : α → κ} {l : List α}
    (hl : (l.map key).Nodup) {a : α} (ha : a ∈ l) (f : α → Option β) :
    (l.findSome? fun x => if key x = key a then f x else none) = f a := by
  induction l with
  | nil => cases ha
  | cons x l ih =>
    obtain ⟨hx, hl⟩ := nodup_cons.mp hl
    rw [findSome?_cons]
    by_cases heq : key x = key a
    · have hxa : x = a := (mem_cons.mp ha).elim Eq.symm fun ha => absurd (heq ▸ mem_map_of_mem ha) hx
      have hnone : (l.findSome? fun y => if key y = key a then f y else none) = none :=
        findSome?_eq_none_iff.mpr fun y hy =>
          if_neg fun hy' : key y = key a => hx (heq.trans hy'.symm ▸ mem_map_of_mem hy)
      rw [if_pos heq, hnone, hxa]
      cases f a <;> rfl
    · rw [if_neg heq]
      exact ih hl ((mem_cons.mp ha).resolve_left fun h => heq (h ▸ rfl))

/-- What `_stp_mod_sec_lookup` finds is relocated to the address, unless the section is not loaded:
the lookup takes the 0 of such a section for its address. -/
theorem moduleRelocate_lookup_iff {modules : List StpModule} (h : WellNamed modules) {addr : BitVec 64}
    {m : StpModule} {sec : StpSection} {relAddr : BitVec 64}
    (hfound : modSecLookup modules none addr = some (m, sec, relAddr)) :
    moduleRelocate modules (some m.name) sec.name relAddr none = addr ↔
      sec.staticAddr ≠ 0 ∨ addr = 0 := by
  obtain ⟨m', hm, hsections⟩ := exists_of_findSome?_eq_some hfound
  obtain ⟨sec', hsec, hmatch⟩ := exists_of_findSome?_eq_some hsections
  split at hmatch
  · obtain ⟨rfl, rfl, rfl⟩ : m' = m ∧ sec' = sec ∧ addr - sec'.staticAddr = relAddr := by
      simpa using hmatch
    rw [moduleRelocate]
    dsimp only
    rw [if_neg fun hnone => hnone.elim (h.nonempty m' hm sec' hsec) (length_pos_of_mem hm).ne']
    rw [findSome?_key h.names hm, findSome?_key (h.sections m' hm) hsec]
    by_cases hloaded : sec'.staticAddr = 0
    · simp [hloaded, eq_comm (a := addr)]
    · rw [if_pos hloaded, Option.getD_some, BitVec.sub_add_cancel]
      exact iff_of_true rfl (.inl hloaded)
  · cases hmatch

/-- A module with one section of 16 bytes. -/
def oneSection (staticAddr : BitVec 64) : StpModule := ⟨"m", [⟨".text", staticAddr, 16, [], 0⟩]⟩

theorem oneSection_wellNamed (staticAddr : BitVec 64) : WellNamed [oneSection staticAddr] where
  names := nodup_singleton _
  sections m hm := by
    rw [mem_singleton.mp hm]
    exact nodup_singleton _
  nonempty m hm s hs := by
    rw [mem_singleton.mp hm] at hs
    rw [mem_singleton.mp hs]
    exact of_decide_eq_true rfl

theorem moduleRelocate_lookup_loaded :
    moduleRelocate [oneSection 4096] (some "m") ".text" 5 none = 4101 :=
  have hfound : modSecLookup [oneSection 4096] none 4101
      = some (oneSection 4096, ⟨".text", 4096, 16, [], 0⟩, 5) := rfl
  (moduleRelocate_lookup_iff (oneSection_wellNamed 4096) hfound).mpr (.inl (by decide))

/-- A section that is not loaded is found for the address 5, and relocated to 0. -/
theorem moduleRelocate_lookup_unloaded : WellNamed [oneSection 0] ∧
    modSecLookup [oneSection 0] none 5 = some (oneSection 0, ⟨".text", 0, 16, [], 0⟩, 5) ∧
    moduleRelocate [oneSection 0] (some "m") ".text" 5 none = 0 :=
  ⟨oneSection_wellNamed 0, rfl, rfl⟩

end Systemtap.Runtime
