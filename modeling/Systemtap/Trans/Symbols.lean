import Systemtap.Runtime.Sym

/-!
# The symbol tables

`dump_unwindsyms` goes through the symbols of a module, sorts them into sections and, by address,
into one `std::map` for each section, and writes a table of rows for each section that it has met.
For the kernel, addresses in the table are relative to `_stext` (`extra_offset`), and a symbol
below it is left out of the rows, but not out of `.num_symbols`. Without `STP_NEED_SYMBOL_DATA`
there are no rows at all.

What `libdwfl` says about the module is given. The unwind data and the address of the `kretprobe`
trampoline, which the function writes too, are not followed here.
-/

namespace Systemtap.Trans

open Systemtap.Runtime List Std.TreeMap

/-! ## The code -/

/-- `GELF_ST_TYPE`, `STT_..` -/
inductive SymType where
  | func
  | notype
  | object
  | other
deriving DecidableEq

/-- `st_shndx`, `SHN_..` -/
inductive SymShndx where
  | undef
  | abs
  | other
deriving DecidableEq

/-- What `dwfl_module_getsym` gives; `allocated` if `shndxp` is not -1. -/
structure ElfSym where
  name : String
  type : SymType
  shndx : SymShndx
  allocated : Bool
  value : BitVec 64

/-- A module as `libdwfl` shows it. The number of symbols is an `int`. -/
structure DwflModule where
  name : String
  base : BitVec 64
  start : BitVec 64
  stop : BitVec 64
  /-- `dwfl_module_relocations` -/
  relocations : Nat
  /-- `dwfl_module_getsym`, with no value for one without a name. -/
  syms : List (Option ElfSym)
  syms_lt : syms.length < 2 ^ 31
  /-- `dwfl_module_relocate_address`: the base and the new address. -/
  relocate : BitVec 64 → Option (Nat × BitVec 64)
  /-- `dwfl_module_relocation_info` -/
  relocationInfo : Nat → Option String
  /-- `sh_size` of `dwfl_module_address_section` -/
  sectionSize : BitVec 64 → Option (BitVec 64)

/-- The ways in which the function does not return. -/
inductive DumpError where
  /-- `dwfl_assert ("dwfl_module_relocate_address extra_offset", ki >= 0)` -/
  | relocateExtraOffset
  /-- `dwfl_assert ("dwfl_module_relocate_address", ki >= 0)` -/
  | relocateAddress
  /-- `assert (secname != NULL)` -/
  | secname
  /-- `assert (scn != NULL)` -/
  | scn

/-- `addrmap_t` -/
abbrev SymAddrMap := Std.TreeMap (BitVec 64) String

/-- An entry of `seclist` and its `addrmap`. -/
structure DumpSection where
  name : String
  size : BitVec 32
  addrmap : SymAddrMap

structure Collected where
  sections : List DumpSection
  extraOffset : BitVec 64

namespace DwflModule

variable (m : DwflModule)

def isStext (sym : ElfSym) : Bool := m.name = "kernel" ∧ sym.name = "_stext"

def stextOffset (extra : BitVec 64) (sym : ElfSym) : Except DumpError (BitVec 64) :=
  if m.isStext sym then
    match m.relocate sym.value with
    | none => .error .relocateExtraOffset
    | some _ => .ok (sym.value - m.base)
  else .ok extra

/-- A "real" symbol with an address that is not suspicious. -/
def wanted (sym : ElfSym) : Bool :=
  (sym.type = .func ∨ sym.type = .notype ∨ sym.type = .object) ∧
    ¬ (sym.shndx = .undef ∨ sym.allocated = false ∨ m.stop ≤ sym.value ∨ sym.value < m.base)

/-- The address after relocation, and the name of the section if there are relocation bases. -/
def relocated (sym : ElfSym) : Except DumpError (BitVec 64 × Option String) :=
  if 0 < m.relocations then
    match m.relocate sym.value with
    | none => .error .relocateAddress
    | some (ki, addr) =>
      .ok (if ki = 0 ∧ m.relocationInfo ki = some "" then sym.value - m.base else addr,
        m.relocationInfo ki)
  else .ok (sym.value, none)

/-- `secname` and `sym_addr` of a symbol, or none if it is passed over. -/
def resolve (sym : ElfSym) : Except DumpError (Option (String × BitVec 64)) := do
  let (symAddr, secname) ← m.relocated sym
  if m.relocations = 1 ∧ m.name = "kernel" then
    if sym.type = .func ∧ sym.shndx = .abs then .ok none else .ok (some ("_stext", symAddr))
  else if 0 < m.relocations then
    match secname with
    | none => .error .secname
    | some name => .ok (some (if name = "" then ".dynamic" else name, symAddr))
  else .ok (some (".absolute", symAddr))

/-- The size of a new section. -/
def newSize (saveAddr : BitVec 64) : Except DumpError (BitVec 32) :=
  if m.relocations ≤ 1 then .ok ((m.stop - m.start).setWidth 32)
  else
    match m.sectionSize saveAddr with
    | none => .error .scn
    | some size => .ok (size.setWidth 32)

/-- `(addrmap[secidx])[sym_addr] = name`, with a new section if there is none of the name. -/
def addSymbol (secname : String) (saveAddr symAddr : BitVec 64) (name : String) :
    List DumpSection → Except DumpError (List DumpSection)
  | [] => do
    let size ← m.newSize saveAddr
    .ok [⟨secname, size, (∅ : SymAddrMap).insert symAddr name⟩]
  | sec :: secs =>
    if sec.name = secname then
      .ok ({ sec with addrmap := sec.addrmap.insert symAddr name } :: secs)
    else do
      let secs' ← addSymbol secname saveAddr symAddr name secs
      .ok (sec :: secs')

/-- One round of the loop over the symbols. -/
def collect (c : Collected) : Option ElfSym → Except DumpError Collected
  | none => .ok c
  | some sym => do
    let extra ← m.stextOffset c.extraOffset sym
    if m.wanted sym then
      match ← m.resolve sym with
      | none => .ok ⟨c.sections, extra⟩
      | some (secname, symAddr) =>
        let secs ← m.addSymbol secname sym.value symAddr sym.name c.sections
        .ok ⟨secs, extra⟩
    else .ok ⟨c.sections, extra⟩

end DwflModule

/-- The rows that are written for a section. -/
def symbolRows (needSymbolData : Bool) (extra : BitVec 64) (addrmap : SymAddrMap) : List StpSymbol :=
  if needSymbolData then
    addrmap.toList.filterMap fun it => if it.1 < extra then none else some ⟨it.1 - extra, it.2⟩
  else []

def DumpSection.emit (needSymbolData : Bool) (extra : BitVec 64) (sec : DumpSection) : StpSection where
  name := sec.name
  staticAddr := 0
  size := sec.size.setWidth 64
  symbols := symbolRows needSymbolData extra sec.addrmap
  numSymbols := BitVec.ofNat 32 sec.addrmap.size

/-- The sections that `dump_unwindsyms` writes. -/
def DwflModule.dumpUnwindsyms (m : DwflModule) (needSymbolData : Bool) :
    Except DumpError (List StpSection) := do
  let c ← m.syms.foldlM m.collect ⟨[], 0⟩
  .ok (c.sections.map (DumpSection.emit needSymbolData c.extraOffset))

/-! ## What it is for -/

namespace DwflModule

variable (m : DwflModule)

/-- The address and the name of a symbol, if it is one of the section. -/
def symbolIn (secname : String) (sym : ElfSym) : Option (BitVec 64 × String) :=
  if m.wanted sym then
    match m.resolve sym with
    | .ok (some (name, symAddr)) => if name = secname then some (symAddr, sym.name) else none
    | _ => none
  else none

def symbolsIn (secname : String) (syms : List (Option ElfSym)) : List (BitVec 64 × String) :=
  syms.filterMap fun sym => sym.bind (m.symbolIn secname)

/-- The symbols of a section. -/
def symbolsOf (secname : String) : List (BitVec 64 × String) := m.symbolsIn secname m.syms

def extraOffsetIn (syms : List (Option ElfSym)) : BitVec 64 :=
  syms.reduceOption.foldl (fun extra sym => if m.isStext sym then sym.value - m.base else extra) 0

/-- The offset of `_stext`, for the kernel. -/
def extraOffset : BitVec 64 := m.extraOffsetIn m.syms

end DwflModule

/-- The table of a section is right for its symbols. -/
structure TableRight (syms : List (BitVec 64 × String)) (extra : BitVec 64) (sec : StpSection) :
    Prop where
  /-- It has `.num_symbols` rows. -/
  count : sec.numSymbols.toNat = sec.symbols.length
  /-- Each row is a symbol that is not below `extra_offset`. -/
  row : ∀ s ∈ sec.symbols, ∃ x ∈ syms, extra ≤ x.1 ∧ s = ⟨x.1 - extra, x.2⟩
  /-- Each such address has a row. -/
  all : ∀ x ∈ syms, extra ≤ x.1 → ∃ s ∈ sec.symbols, s.addr = x.1 - extra
  sorted : (sec.symbols.map StpSymbol.addr).Pairwise (· < ·)
  /-- The lookup of any address reads only rows of the table. -/
  inside : ∀ behind fuel addr, ∀ i ∈ (sec.lookup behind fuel addr).1, i < sec.symbols.length

/-! ## One table -/

/-- The map after the symbols have been put in, one after the other. -/
def addrmapOf (syms : List (BitVec 64 × String)) : SymAddrMap :=
  syms.foldl (fun t x => t.insert x.1 x.2) ∅

theorem addrmapOf_concat (syms : List (BitVec 64 × String)) (x : BitVec 64 × String) :
    addrmapOf (syms ++ [x]) = (addrmapOf syms).insert x.1 x.2 := by
  rw [addrmapOf, foldl_append, foldl_cons, foldl_nil, addrmapOf]

variable {syms : List (BitVec 64 × String)}

theorem mem_addrmapOf {a : BitVec 64} : a ∈ addrmapOf syms ↔ ∃ x ∈ syms, x.1 = a := by
  induction syms using reverseRecOn with
  | nil => exact iff_of_false not_mem_emptyc fun ⟨x, hx, _⟩ => not_mem_nil hx
  | append_singleton syms x ih =>
    rw [addrmapOf_concat, mem_insert, ih, Std.LawfulEqOrd.compare_eq_iff_eq]
    constructor
    · rintro (rfl | ⟨y, hy, rfl⟩)
      · exact ⟨x, mem_append_right _ (mem_singleton_self x), rfl⟩
      · exact ⟨y, mem_append_left _ hy, rfl⟩
    · rintro ⟨y, hy, rfl⟩
      rcases mem_append.mp hy with hy | hy
      · exact .inr ⟨y, hy, rfl⟩
      · exact .inl (mem_singleton.mp hy ▸ rfl)

/-- A name in the map is the one of a symbol with the address. -/
theorem mem_of_addrmapOf {a : BitVec 64} {name : String}
    (h : (addrmapOf syms)[a]? = some name) : (a, name) ∈ syms := by
  induction syms using reverseRecOn with
  | nil => rw [addrmapOf, foldl_nil, Std.TreeMap.getElem?_emptyc] at h; cases h
  | append_singleton syms x ih =>
    rw [addrmapOf_concat, Std.TreeMap.getElem?_insert] at h
    split at h
    · next heq =>
      have ha : x.1 = a := Std.LawfulEqOrd.compare_eq_iff_eq.mp heq
      have hx : x = (a, name) := Prod.ext ha (Option.some.inj h)
      exact mem_append_right _ (hx ▸ mem_singleton_self x)
    · exact mem_append_left _ (ih h)

theorem size_addrmapOf_le (syms : List (BitVec 64 × String)) :
    (addrmapOf syms).size ≤ syms.length := by
  induction syms using reverseRecOn with
  | nil => exact Nat.le_refl 0
  | append_singleton syms x ih =>
    rw [addrmapOf_concat, length_append, length_singleton]
    exact size_insert_le.trans (Nat.succ_le_succ ih)

section Table

variable {syms : List (BitVec 64 × String)} {extra : BitVec 64} {sec : DumpSection}

theorem mem_symbolRows {t : SymAddrMap} {s : StpSymbol} :
    s ∈ symbolRows true extra t ↔
      ∃ a, t[a]? = some s.symbol ∧ extra ≤ a ∧ s.addr = a - extra := by
  rw [symbolRows, if_pos rfl, mem_filterMap]
  constructor
  · rintro ⟨⟨a, name⟩, hmem, hrow⟩
    split at hrow
    · cases hrow
    · next hnot =>
      obtain rfl := Option.some.inj hrow
      exact ⟨a, mem_toList_iff_getElem?_eq_some.mp hmem, BitVec.not_lt.mp hnot, rfl⟩
  · rintro ⟨a, hget, hle, haddr⟩
    refine ⟨(a, s.symbol), mem_toList_iff_getElem?_eq_some.mpr hget, ?_⟩
    rw [if_neg (BitVec.not_lt.mpr hle), ← haddr]

theorem sorted_symbolRows (needSymbolData : Bool) (t : SymAddrMap) :
    ((symbolRows needSymbolData extra t).map StpSymbol.addr).Pairwise (· < ·) := by
  rw [symbolRows]
  split
  · rw [pairwise_map]
    refine List.Pairwise.filterMap _ ?_ ordered_keys_toList
    intro x y hlt s hs s' hs'
    have hlt' : x.1 < y.1 := compareOfLessAndEq_eq_lt.mp hlt
    split at hs <;> cases hs
    split at hs' <;> cases hs'
    next hx hy =>
      show x.1 - extra < y.1 - extra
      bv_omega
  · exact List.Pairwise.nil

/-- All symbols are written if none is below `extra_offset`. -/
theorem length_symbolRows_iff (t : SymAddrMap) :
    (symbolRows true extra t).length = t.size ↔ ∀ a ∈ t, extra ≤ a := by
  rw [symbolRows, if_pos rfl, length_filterMap_eq_countP, ← length_toList,
    countP_eq_length]
  constructor
  · intro hall a ha
    have hsome := hall (a, t[a]) (mem_toList_iff_getElem?_eq_some.mpr
      (Std.TreeMap.getElem?_eq_some_getElem ha))
    by_contra hnot
    rw [if_pos (BitVec.not_le.mp hnot)] at hsome
    cases hsome
  · rintro hall ⟨a, name⟩ hmem
    have hget := mem_toList_iff_getElem?_eq_some.mp hmem
    have hle := hall a (mem_iff_isSome_getElem?.mpr (by rw [hget]; rfl))
    rw [if_neg (BitVec.not_lt.mpr hle)]
    rfl

theorem numSymbols_emit (hlength : syms.length < 2 ^ 32) (hmap : sec.addrmap = addrmapOf syms)
    (needSymbolData : Bool) :
    (sec.emit needSymbolData extra).numSymbols.toNat = (addrmapOf syms).size := by
  have hle := size_addrmapOf_le syms
  rw [DumpSection.emit, hmap, BitVec.toNat_ofNat, Nat.mod_eq_of_lt (by omega)]

theorem size_addrmapOf_pos (hsyms : syms ≠ []) : 0 < (addrmapOf syms).size := by
  obtain ⟨x, hx⟩ := exists_mem_of_ne_nil _ hsyms
  have hmem : x.1 ∈ addrmapOf syms := mem_addrmapOf.mpr ⟨x, hx, rfl⟩
  refine Nat.pos_of_ne_zero fun hzero => ?_
  have hempty : (addrmapOf syms).isEmpty = true := by
    rw [isEmpty_eq_size_eq_zero, hzero]
    rfl
  exact isEmpty_iff_forall_not_mem.mp hempty x.1 hmem

theorem emit_right_iff (hsyms : syms ≠ []) (hlength : syms.length < 2 ^ 32)
    (hmap : sec.addrmap = addrmapOf syms) (needSymbolData : Bool) :
    TableRight syms extra (sec.emit needSymbolData extra) ↔
      needSymbolData = true ∧ ∀ x ∈ syms, extra ≤ x.1 := by
  have hnum : (sec.emit needSymbolData extra).numSymbols.toNat = (addrmapOf syms).size :=
    numSymbols_emit hlength hmap needSymbolData
  have hpos := size_addrmapOf_pos hsyms
  have hrows : (sec.emit needSymbolData extra).symbols =
      symbolRows needSymbolData extra (addrmapOf syms) := by rw [DumpSection.emit, hmap]
  constructor
  · intro h
    have hcount := h.count
    rw [hnum, hrows] at hcount
    cases needSymbolData with
    | false => exact absurd hcount (by rw [symbolRows]; exact hpos.ne')
    | true =>
      have hall := (length_symbolRows_iff _).mp hcount.symm
      exact ⟨rfl, fun x hx => hall x.1 (mem_addrmapOf.mpr ⟨x, hx, rfl⟩)⟩
  · rintro ⟨rfl, hall⟩
    have hcount : (sec.emit true extra).numSymbols.toNat = (sec.emit true extra).symbols.length := by
      rw [hnum, hrows]
      refine ((length_symbolRows_iff _).mpr fun a ha => ?_).symm
      obtain ⟨x, hx, rfl⟩ := mem_addrmapOf.mp ha
      exact hall x hx
    refine ⟨hcount, fun s hs => ?_, fun x hx hle => ?_, hrows ▸ sorted_symbolRows _ _,
      fun behind fuel addr i hi => ?_⟩
    · rw [hrows] at hs
      obtain ⟨a, hget, hle, haddr⟩ := mem_symbolRows.mp hs
      exact ⟨(a, s.symbol), mem_of_addrmapOf hget, hle, by rw [← haddr]⟩
    · have hmem : x.1 ∈ addrmapOf syms := mem_addrmapOf.mpr ⟨x, hx, rfl⟩
      rw [hrows]
      exact ⟨⟨x.1 - extra, (addrmapOf syms)[x.1]⟩, mem_symbolRows.mpr
        ⟨x.1, Std.TreeMap.getElem?_eq_some_getElem hmem, hle, rfl⟩, rfl⟩
    · rw [← hcount]
      exact lookup_reads_lt (by rw [hnum]; exact hpos) fuel i hi

end Table

/-! ## The loop over the symbols -/

section Loop

variable {m : DwflModule} {done : List (Option ElfSym)} {c c' : Collected}

/-- The map of the first section of the name. -/
def tableOf (name : String) : List DumpSection → SymAddrMap
  | [] => ∅
  | sec :: secs => if sec.name = name then sec.addrmap else tableOf name secs

theorem tableOf_of_mem {secs : List DumpSection} {sec : DumpSection} (hnodup : (secs.map DumpSection.name).Nodup)
    (hsec : sec ∈ secs) : tableOf sec.name secs = sec.addrmap := by
  induction secs with
  | nil => exact absurd hsec not_mem_nil
  | cons d secs ih =>
    rw [map_cons, nodup_cons] at hnodup
    rcases mem_cons.mp hsec with rfl | hsec
    · exact if_pos rfl
    · have hne : d.name ≠ sec.name := fun heq => hnodup.1 (heq ▸ mem_map_of_mem hsec)
      rw [tableOf, if_neg hne, ih hnodup.2 hsec]

/-- What has been collected from the symbols so far. -/
structure Collects (m : DwflModule) (done : List (Option ElfSym)) (c : Collected) : Prop where
  names : (c.sections.map DumpSection.name).Nodup
  addrmap : ∀ name, tableOf name c.sections = addrmapOf (m.symbolsIn name done)
  nonempty : ∀ name ∈ c.sections.map DumpSection.name, m.symbolsIn name done ≠ []
  extraOffset : c.extraOffset = m.extraOffsetIn done

theorem collects_nil : Collects m [] ⟨[], 0⟩ where
  names := nodup_nil
  addrmap _ := rfl
  nonempty _ hname := absurd hname not_mem_nil
  extraOffset := rfl

theorem symbolsIn_concat (name : String) (sym : Option ElfSym) :
    m.symbolsIn name (done ++ [sym]) =
      m.symbolsIn name done ++ (sym.bind (m.symbolIn name)).toList := by
  rw [DwflModule.symbolsIn, filterMap_append]
  rfl

theorem extraOffsetIn_none : m.extraOffsetIn (done ++ [none]) = m.extraOffsetIn done := by
  rw [DwflModule.extraOffsetIn, reduceOption_append, foldl_append]
  rfl

theorem extraOffsetIn_some (sym : ElfSym) :
    m.extraOffsetIn (done ++ [some sym]) =
      if m.isStext sym then sym.value - m.base else m.extraOffsetIn done := by
  rw [DwflModule.extraOffsetIn, reduceOption_append, foldl_append]
  rfl

/-- A symbol that goes into no section leaves them as they are. -/
theorem Collects.skip (h : Collects m done c) {sym : Option ElfSym} {extra : BitVec 64}
    (hskip : ∀ name, sym.bind (m.symbolIn name) = none)
    (hextra : extra = m.extraOffsetIn (done ++ [sym])) :
    Collects m (done ++ [sym]) ⟨c.sections, extra⟩ := by
  have hsame : ∀ name, m.symbolsIn name (done ++ [sym]) = m.symbolsIn name done := fun name => by
    rw [symbolsIn_concat, hskip name, Option.toList_none, append_nil]
  refine ⟨h.names, fun name => ?_, fun name hname => ?_, hextra⟩
  · rw [hsame]
    exact h.addrmap name
  · rw [hsame]
    exact h.nonempty name hname

theorem except_bind_eq_ok {ε α β : Type} {x : Except ε α} {f : α → Except ε β} {b : β} :
    (x >>= f) = .ok b ↔ ∃ a, x = .ok a ∧ f a = .ok b := by
  cases x <;> simp [bind, Except.bind]

/-- The symbol is put into the map of its section, which is a new one if there was none. -/
theorem addSymbol_spec {secname name : String} {saveAddr symAddr : BitVec 64} {secs secs' : List DumpSection}
    (h : m.addSymbol secname saveAddr symAddr name secs = .ok secs') :
    (∀ n, tableOf n secs' = if n = secname then (tableOf n secs).insert symAddr name else tableOf n secs) ∧
      (∀ n ∈ secs'.map DumpSection.name, n = secname ∨ n ∈ secs.map DumpSection.name) ∧
      ((secs.map DumpSection.name).Nodup → (secs'.map DumpSection.name).Nodup) := by
  induction secs generalizing secs' with
  | nil =>
    obtain ⟨size, -, h⟩ := except_bind_eq_ok.mp h
    cases h
    exact ⟨fun n => by simp [tableOf, eq_comm], by simp, fun _ => nodup_singleton _⟩
  | cons sec secs ih =>
    rw [DwflModule.addSymbol] at h
    split at h
    next hname =>
      cases h
      refine ⟨fun n => ?_, fun n hn => .inr hn, id⟩
      subst hname
      by_cases hn : n = sec.name
      · simp [tableOf, hn]
      · simp [tableOf, hn, Ne.symm hn]
    next hname =>
      obtain ⟨secs'', hrest, h⟩ := except_bind_eq_ok.mp h
      cases h
      obtain ⟨htable, hnames, hnodup⟩ := ih hrest
      refine ⟨fun n => ?_, fun n hn => ?_, fun hcons => ?_⟩
      · by_cases hn : sec.name = n
        · simp [tableOf, hn, hn ▸ hname]
        · simp [tableOf, hn, htable]
      · rcases mem_cons.mp hn with rfl | hn
        · exact .inr mem_cons_self
        · exact (hnames n hn).imp_right (mem_cons_of_mem _)
      · rw [map_cons, nodup_cons] at hcons ⊢
        exact ⟨fun hmem => (hnames _ hmem).elim hname hcons.1, hnodup hcons.2⟩

/-- A symbol goes into its section. -/
theorem Collects.add (h : Collects m done c) {sym : ElfSym} {extra symAddr : BitVec 64}
    {secname : String} {secs : List DumpSection}
    (hin : ∀ name, m.symbolIn name sym = if secname = name then some (symAddr, sym.name) else none)
    (hadd : m.addSymbol secname sym.value symAddr sym.name c.sections = .ok secs)
    (hextra : extra = m.extraOffsetIn (done ++ [some sym])) :
    Collects m (done ++ [some sym]) ⟨secs, extra⟩ := by
  have hsyms : ∀ name, m.symbolsIn name (done ++ [some sym]) =
      m.symbolsIn name done ++ (if secname = name then some (symAddr, sym.name) else none).toList := fun name => by
    rw [symbolsIn_concat, Option.bind_some, hin]
  obtain ⟨htable, hnames, hnodup⟩ := addSymbol_spec hadd
  refine ⟨hnodup h.names, fun name => ?_, fun name hname => ?_, hextra⟩
  · rw [htable, hsyms, h.addrmap]
    by_cases hn : secname = name
    · rw [if_pos hn.symm, if_pos hn, Option.toList_some, addrmapOf_concat]
    · rw [if_neg (Ne.symm hn), if_neg hn, Option.toList_none, append_nil]
  · rw [hsyms]
    rcases hnames name hname with rfl | hname
    · simp
    · exact append_ne_nil_of_left_ne_nil (h.nonempty name hname) _

theorem stextOffset_ok {extra extra' : BitVec 64} {sym : ElfSym}
    (h : m.stextOffset extra sym = .ok extra') :
    extra' = if m.isStext sym then sym.value - m.base else extra := by
  rw [DwflModule.stextOffset] at h
  split at h
  · next hstext =>
    rw [if_pos hstext]
    split at h <;> cases h
    rfl
  · next hstext =>
    rw [if_neg hstext]
    cases h
    rfl

theorem Collects.collect (h : Collects m done c) {sym : Option ElfSym}
    (hc : m.collect c sym = .ok c') : Collects m (done ++ [sym]) c' := by
  cases sym with
  | none =>
    cases hc
    exact h.skip (fun name => rfl) (h.extraOffset.trans extraOffsetIn_none.symm)
  | some sym =>
    obtain ⟨extra, hstext, hc⟩ := except_bind_eq_ok.mp hc
    have hextra : extra = m.extraOffsetIn (done ++ [some sym]) := by
      rw [extraOffsetIn_some, ← h.extraOffset]
      exact stextOffset_ok hstext
    by_cases hwanted : m.wanted sym = true
    · rw [if_pos hwanted] at hc
      obtain ⟨r, hresolve, hc⟩ := except_bind_eq_ok.mp hc
      cases r with
      | none =>
        cases hc
        refine h.skip (fun name => ?_) hextra
        rw [Option.bind_some, DwflModule.symbolIn, if_pos hwanted, hresolve]
      | some r =>
        obtain ⟨secs, hadd, hc⟩ := except_bind_eq_ok.mp hc
        cases hc
        refine h.add (fun name => ?_) hadd hextra
        rw [DwflModule.symbolIn, if_pos hwanted, hresolve]
    · rw [if_neg hwanted] at hc
      cases hc
      refine h.skip (fun name => ?_) hextra
      rw [Option.bind_some, DwflModule.symbolIn, if_neg hwanted]

theorem Collects.foldlM : ∀ (syms : List (Option ElfSym)) {done : List (Option ElfSym)}
    {c c' : Collected}, Collects m done c → syms.foldlM m.collect c = .ok c' →
    Collects m (done ++ syms) c' := by
  intro syms
  induction syms with
  | nil =>
    intro done c c' h hc
    cases hc
    rw [append_nil]
    exact h
  | cons sym syms ih =>
    intro done c c' h hc
    obtain ⟨c1, hsym, hc⟩ := except_bind_eq_ok.mp hc
    rw [append_cons]
    exact ih (h.collect hsym) hc

end Loop

/-! ## The tables of a module -/

/-- Where the function returns, the table that it writes for a section is right exactly if the
module is compiled with `STP_NEED_SYMBOL_DATA` and no symbol of the section is below `_stext`. -/
theorem symbol_table_right_iff (m : DwflModule) (needSymbolData : Bool) {secs : List StpSection}
    (h : m.dumpUnwindsyms needSymbolData = .ok secs) {sec : StpSection} (hsec : sec ∈ secs) :
    TableRight (m.symbolsOf sec.name) m.extraOffset sec ↔
      needSymbolData = true ∧ ∀ x ∈ m.symbolsOf sec.name, m.extraOffset ≤ x.1 := by
  obtain ⟨c, hc, h⟩ := except_bind_eq_ok.mp h
  cases h
  have hcollects := collects_nil.foldlM m.syms hc
  obtain ⟨d, hd, rfl⟩ := mem_map.mp hsec
  have hextra : c.extraOffset = m.extraOffset := hcollects.extraOffset
  have hsyms : m.symbolsOf d.name ≠ [] := hcollects.nonempty d.name (mem_map_of_mem hd)
  have hmap : d.addrmap = addrmapOf (m.symbolsOf d.name) :=
    (tableOf_of_mem hcollects.names hd).symm.trans (hcollects.addrmap d.name)
  have hlength : (m.symbolsOf d.name).length < 2 ^ 32 := by
    have hle : (m.symbolsOf d.name).length ≤ m.syms.length := length_filterMap_le _ _
    have hlt := m.syms_lt
    omega
  rw [hextra]
  exact emit_right_iff hsyms hlength hmap needSymbolData

/-- An executable with one function. -/
def oneFunction : DwflModule where
  name := "a.out"
  base := 0x1000
  start := 0x1000
  stop := 0x2000
  relocations := 0
  syms := [some ⟨"main", .func, .other, true, 0x1000⟩]
  syms_lt := by decide
  relocate _ := none
  relocationInfo _ := none
  sectionSize _ := none

theorem symbol_table_right_oneFunction :
    TableRight (oneFunction.symbolsOf ".absolute") oneFunction.extraOffset
      ⟨".absolute", 0, 0x1000, [⟨0x1000, "main"⟩], 1⟩ := by
  have hdump : oneFunction.dumpUnwindsyms true =
      .ok [⟨".absolute", 0, 0x1000, [⟨0x1000, "main"⟩], 1⟩] := rfl
  refine (symbol_table_right_iff oneFunction true hdump (mem_singleton_self _)).mpr
    ⟨rfl, fun x _ => ?_⟩
  show (0 : BitVec 64) ≤ x.1
  bv_omega

/-- A kernel with a symbol below `_stext`. -/
def earlySymbol : DwflModule where
  name := "kernel"
  base := 0x1000
  start := 0x1000
  stop := 0x2000
  relocations := 1
  syms := [some ⟨"phys_startup", .notype, .other, true, 0x1000⟩,
    some ⟨"_stext", .func, .other, true, 0x1010⟩]
  syms_lt := by decide
  relocate addr := some (0, addr - 0x1000)
  relocationInfo _ := some ""
  sectionSize _ := none

/-- One row is written, `.num_symbols` is 2, and a lookup reads the row behind it. -/
theorem symbol_table_wrong_earlySymbol :
    ∃ sec, earlySymbol.dumpUnwindsyms true = .ok [sec] ∧
      sec.symbols = [⟨0, "_stext"⟩] ∧ sec.numSymbols = 2 ∧
      1 ∈ (sec.lookup (fun _ => 0) 2 0).1 ∧
      ¬ TableRight (earlySymbol.symbolsOf sec.name) earlySymbol.extraOffset sec := by
  refine ⟨⟨"_stext", 0, 0x1000, [⟨0, "_stext"⟩], 2⟩, rfl, rfl, rfl, by decide, fun h => ?_⟩
  exact absurd h.count (by decide)

end Systemtap.Trans
