import Mathlib

/-!
# Looking for the `.probes` section

`sdt_query::init_probe_scn` of `tapsets.cxx`. The section can be in the main file or, with older versions, in the
debuginfo file, where the main file has one without contents. Both files are looked through with the same
variables. In the second loop the `break` is not inside the `if`, so only the first section is looked at; and
the flag of the first loop is still set there, so that this section is taken whatever its name.
-/

namespace Systemtap.Tapset.ProbeScn

open List

/-! ## The program -/

/-- `GElf_Shdr`, with the name that `sh_name` stands for -/
structure Shdr where
  name : String
  /-- `sh_type == SHT_NOBITS` -/
  nobits : Bool
  addr : BitVec 64
  offset : Nat
  size : Nat

/-- A file: its sections in the order of `elf_nextscn`, and its bytes. -/
structure Elf where
  sections : List Shdr
  image : List UInt8

/-- `elf_getdata_rawchunk` -/
def Elf.rawchunk (elf : Elf) (offset size : Nat) : Option (List UInt8) :=
  if offset + size ≤ elf.image.length then some ((elf.image.drop offset).take size) else none

/-- The variables at the end, if it returns true. -/
structure Found where
  elf : Elf
  shdr : Shdr

def Found.pdata (found : Found) : Option (List UInt8) := found.elf.rawchunk found.shdr.offset found.shdr.size

def Found.probeScnAddr (found : Found) : BitVec 64 := found.shdr.addr

/-- `have_probes` and `shdr` after the loop over the main file -/
def scanMain (shdr : Option Shdr) : List Shdr → Bool × Option Shdr
  | [] => (false, shdr)
  | s :: rest => if s.name = ".probes" then (true, some s) else scanMain (some s) rest

/-- The loop over the debuginfo file, with the `break` where it is. -/
def scanDebuginfo (haveProbes : Bool) (shdr : Option Shdr) : List Shdr → Bool × Option Shdr
  | [] => (haveProbes, shdr)
  | s :: _ => (if s.name = ".probes" then true else haveProbes, some s)

def initProbeScn (main : Elf) (debuginfo : Option Elf) : Option Found :=
  let (haveProbes, shdr) := scanMain none main.sections
  if !haveProbes || shdr.any (·.nobits) then
    debuginfo.bind fun elf =>
      let (haveProbes, shdr) := scanDebuginfo haveProbes shdr elf.sections
      if haveProbes then shdr.map (⟨elf, ·⟩) else none
  else shdr.map (⟨main, ·⟩)

/-! ## What it is for -/

/-- A `.probes` section that has contents -/
def Shdr.IsProbes (s : Shdr) : Prop := s.name = ".probes" ∧ s.nobits = false

/-- True is returned if a file has such a section, and what was found is one, of the main file if that has any. -/
def FindsProbes (main : Elf) (debuginfo : Option Elf) : Prop :=
  match initProbeScn main debuginfo with
  | none => (∀ s ∈ main.sections, ¬ s.IsProbes) ∧ ∀ elf ∈ debuginfo, ∀ s ∈ elf.sections, ¬ s.IsProbes
  | some ⟨elf, s⟩ => s.IsProbes ∧ s ∈ elf.sections ∧
      (elf = main ∨ elf ∈ debuginfo ∧ ∀ s ∈ main.sections, ¬ s.IsProbes)

/-! ## When it is found -/

theorem scanMain_eq (sections : List Shdr) : ∀ shdr, scanMain shdr sections =
    ((sections.find? (·.name = ".probes")).isSome,
      (sections.find? (·.name = ".probes")).or (sections.getLast?.or shdr)) := by
  induction sections with
  | nil => exact fun _ => rfl
  | cons t rest ih =>
    intro shdr
    rw [scanMain, ih, getLast?_cons]
    by_cases ht : t.name = ".probes" <;> simp [ht]

/-- Where the main file's first `.probes` has contents, it is found. Otherwise no other of the main file may have
them, and the first section of the debuginfo file decides: it is a `.probes` with contents, or it is no `.probes`
and there are none with contents. -/
theorem findsProbes_iff (main : Elf) (debuginfo : Option Elf) :
    FindsProbes main debuginfo ↔
      (∃ s, main.sections.find? (·.name = ".probes") = some s ∧ s.nobits = false) ∨
      (∀ s ∈ main.sections, ¬ s.IsProbes) ∧ ∀ elf ∈ debuginfo,
        (∃ s ∈ elf.sections.head?, s.IsProbes) ∨
        (∀ s ∈ main.sections, s.name ≠ ".probes") ∧ (∀ s ∈ elf.sections.head?, s.name ≠ ".probes") ∧
          ∀ s ∈ elf.sections, ¬ s.IsProbes := by
  unfold FindsProbes initProbeScn
  rw [scanMain_eq]
  cases hfind : main.sections.find? (·.name = ".probes") with
  | some s =>
    have hname : s.name = ".probes" := by simpa using find?_some hfind
    have hmem := mem_of_find?_eq_some hfind
    cases hbits : s.nobits with
    | false => simp [hbits, hmem, hname, Shdr.IsProbes]
    | true =>
      -- the flag is set already: the first section of the debuginfo file is taken as it is
      cases debuginfo with
      | none => simp [hbits]
      | some elf =>
        cases hsections : elf.sections with
        | nil => grind [scanDebuginfo, Shdr.IsProbes]
        | cons t rest => grind [scanDebuginfo, Shdr.IsProbes]
  | none =>
    have hnone : ∀ s ∈ main.sections, s.name ≠ ".probes" := by simpa using hfind
    -- nothing is taken unless the first section of the debuginfo file is a `.probes`
    cases debuginfo with
    | none => grind [Shdr.IsProbes]
    | some elf =>
      cases hsections : elf.sections with
      | nil => grind [scanDebuginfo, Shdr.IsProbes]
      | cons t rest => grind [scanDebuginfo, Shdr.IsProbes]

/-- The main file has a `.probes` without contents, and the debuginfo file has one behind another section: that other
section is taken. -/
theorem not_findsProbes :
    let main : Elf := ⟨[⟨".probes", true, 8, 0, 4⟩], []⟩
    let debuginfo : Elf := ⟨[⟨".text", false, 0, 0, 1⟩, ⟨".probes", false, 8, 1, 2⟩], [144, 80, 82]⟩
    (initProbeScn main (some debuginfo)).map (fun found => (found.pdata, found.probeScnAddr)) =
        some (some [144], 0) ∧
      ¬ FindsProbes main (some debuginfo) :=
  ⟨by decide, fun ⟨hprobes, _⟩ => absurd hprobes.1 (by decide)⟩

end Systemtap.Tapset.ProbeScn
