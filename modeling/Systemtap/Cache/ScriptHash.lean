import Mathlib

/-!
# The key of a script in the cache

`find_script_hash` of `hash.cxx` names a compiled module by the MD4 digest of everything the module was
made from. Each `hash::add` hands the bytes of one value to `mdfour_update`, which appends them to what the
digest has seen: the digest is one of the concatenation of all the values, with nothing between them.

The numbers have a width of their own, so only the strings and the lists of strings can run into each other:
two sessions whose strings have the same lengths are told apart (`fed_injective_of_shape`), and two macros
`-D a -D b` are fed as the one macro `-D ab` is.
-/

namespace Systemtap.Cache

open List

/-- The bytes of a `std::string`. -/
abbrev Str := List UInt8

/-! ## What is hashed -/

/-- The `st_size` and the `st_mtime` that `hash::add_file` adds. -/
structure FileStat where
  size : UInt64
  mtime : UInt64
deriving DecidableEq, Repr

/-- `stat` in `hash::add_file`: both numbers are `-1` for a file that is not there. -/
def FileStat.ofStat : Option FileStat → FileStat
  | none => ⟨-1, -1⟩
  | some st => st

/-- The values of `get_base_hash`. -/
structure Base where
  kernelRelease : Str
  kernelBuildTree : Str
  architecture : Str
  /-- `kernel_build_tree + "/.config"` -/
  config : FileStat
  /-- `kernel_build_tree + "/.version"` -/
  version : FileStat
  /-- `kernel_build_tree + "/include/linux/compile.h"` -/
  compileH : FileStat
  /-- `kernel_build_tree + "/include/linux/version.h"` -/
  versionH : FileStat
  /-- `kernel_build_tree + "/include/linux/utsrelease.h"` -/
  utsreleaseH : FileStat
  runtimePath : Str
  /-- `find_executable("gcc")` -/
  gcc : Str
  gccStat : FileStat
  /-- `/proc/self/exe` -/
  selfExe : FileStat
deriving DecidableEq, Repr

/-- The options of the command line that change the module. -/
structure Flags where
  bulkMode : Bool
  timing : Bool
  prologueSearching : Bool
  ignoreVmlinux : Bool
  ignoreDwarf : Bool
  consultSymtab : Bool
  skipBadvars : Bool
  unprivileged : Bool
  omitWerror : Bool
deriving DecidableEq, Repr

/-- A path of `--kmap`, which is not empty, and what `stat` said about it. -/
structure Symtab where
  path : Str
  path_ne : path ≠ []
  stat : Option FileStat
deriving DecidableEq, Repr

/-- A `std::set<string>`, as its elements in the order of an iteration. -/
structure StringSet where
  elems : List Str
  sorted : elems.Pairwise fun a b => a.map UInt8.toNat < b.map UInt8.toNat
deriving DecidableEq, Repr

/-- All that `find_script_hash` reads of a session, and the script. -/
structure Session where
  base : Base
  /-- `getuid ()` -/
  uid : UInt32
  flags : Flags
  /-- `kernel_symtab_path`, `none` where it is empty -/
  kernelSymtab : Option Symtab
  macros : List Str
  kbuildflags : List Str
  unwindsymModules : StringSet
  script : Str
deriving DecidableEq, Repr

/-! ## What is fed to the digest -/

/-- The first `n` bytes of a number, the lowest first. -/
def leBytes : Nat → Nat → Str
  | 0, _ => []
  | n + 1, x => UInt8.ofNat x :: leBytes n (x / 256)

/-- `hash::add (const long)` and its unsigned brother -/
def addLong (x : UInt64) : Str := leBytes 8 x.toNat

/-- `hash::add (const unsigned int)` -/
def addUInt (x : UInt32) : Str := leBytes 4 x.toNat

/-- `hash::add (const int)` at a `bool` -/
def addBool (b : Bool) : Str := leBytes 4 b.toNat

/-- The bytes of a text of the source. -/
def text (s : String) : Str := s.toUTF8.toList

/-- `hash::add_file`, as the values it adds -/
def addFile (filename : Str) (st : FileStat) : List Str :=
  [filename, addLong st.size, addLong st.mtime]

/-- `get_base_hash`, as the values it adds -/
def baseHash (b : Base) : List Str :=
  [b.kernelRelease, b.kernelBuildTree, b.architecture]
    ++ addFile (b.kernelBuildTree ++ text "/.config") b.config
    ++ addFile (b.kernelBuildTree ++ text "/.version") b.version
    ++ addFile (b.kernelBuildTree ++ text "/include/linux/compile.h") b.compileH
    ++ addFile (b.kernelBuildTree ++ text "/include/linux/version.h") b.versionH
    ++ addFile (b.kernelBuildTree ++ text "/include/linux/utsrelease.h") b.utsreleaseH
    ++ [b.runtimePath]
    ++ addFile b.gcc b.gccStat
    ++ addFile (text "/proc/self/exe") b.selfExe

def Flags.adds (f : Flags) : List Str :=
  [addBool f.bulkMode, addBool f.timing, addBool f.prologueSearching, addBool f.ignoreVmlinux,
    addBool f.ignoreDwarf, addBool f.consultSymtab, addBool f.skipBadvars, addBool f.unprivileged,
    addBool f.omitWerror]

def Symtab.adds (k : Symtab) : List Str :=
  k.path :: match k.stat with
    | none => []
    | some st => [addLong st.size, addLong st.mtime]

def symtabAdds : Option Symtab → List Str
  | none => []
  | some k => k.adds

/-- The values that `find_script_hash` adds, in their order. -/
def Session.adds (s : Session) : List Str :=
  baseHash s.base ++ [addUInt s.uid] ++ s.flags.adds ++ symtabAdds s.kernelSymtab
    ++ s.macros ++ s.kbuildflags ++ s.unwindsymModules.elems ++ [s.script]

/-- The bytes that the digest is taken of. -/
def Session.fed (s : Session) : Str := s.adds.flatten

/-! ## Two sessions of one shape -/

/-- Where one value ends and the next begins: the lengths of the strings, and how many there are. Nothing
is said about the script, which is fed last. -/
structure Shape where
  kernelRelease : Nat
  kernelBuildTree : Nat
  architecture : Nat
  runtimePath : Nat
  gcc : Nat
  kernelSymtab : Option (Nat × Bool)
  macros : List Nat
  kbuildflags : List Nat
  unwindsymModules : List Nat
deriving DecidableEq, Repr

def Symtab.shape (k : Symtab) : Nat × Bool := (k.path.length, k.stat.isSome)

def Session.shape (s : Session) : Shape where
  kernelRelease := s.base.kernelRelease.length
  kernelBuildTree := s.base.kernelBuildTree.length
  architecture := s.base.architecture.length
  runtimePath := s.base.runtimePath.length
  gcc := s.base.gcc.length
  kernelSymtab := s.kernelSymtab.map Symtab.shape
  macros := s.macros.map List.length
  kbuildflags := s.kbuildflags.map List.length
  unwindsymModules := s.unwindsymModules.elems.map List.length

@[simp] theorem length_leBytes (n x : Nat) : (leBytes n x).length = n := by
  induction n generalizing x with
  | zero => rfl
  | succ n ih => simp [leBytes, ih]

/-- The bytes of a number that fits in them determine it. -/
theorem leBytes_inj {n x y : Nat} (hx : x < 256 ^ n) (hy : y < 256 ^ n)
    (h : leBytes n x = leBytes n y) : x = y := by
  induction n generalizing x y with
  | zero => omega
  | succ n ih =>
    simp only [leBytes, cons.injEq] at h
    obtain ⟨hlow, hrest⟩ := h
    have hmod : x % 256 = y % 256 := by
      have := congrArg UInt8.toNat hlow
      simpa using this
    have hdiv : x / 256 = y / 256 := by
      refine ih ?_ ?_ hrest
      · rw [pow_succ] at hx
        omega
      · rw [pow_succ] at hy
        omega
    omega

theorem addLong_inj {x y : UInt64} (h : addLong x = addLong y) : x = y :=
  UInt64.toNat_inj.1 (leBytes_inj x.toNat_lt y.toNat_lt h)

theorem addUInt_inj {x y : UInt32} (h : addUInt x = addUInt y) : x = y :=
  UInt32.toNat_inj.1 (leBytes_inj x.toNat_lt y.toNat_lt h)

theorem addBool_inj {x y : Bool} (h : addBool x = addBool y) : x = y := by
  have hn : x.toNat = y.toNat := leBytes_inj (by cases x <;> decide) (by cases y <;> decide) h
  cases x <;> cases y <;> simp_all

@[simp] theorem length_addLong (x : UInt64) : (addLong x).length = 8 := length_leBytes _ _
@[simp] theorem length_addUInt (x : UInt32) : (addUInt x).length = 4 := length_leBytes _ _
@[simp] theorem length_addBool (x : Bool) : (addBool x).length = 4 := length_leBytes _ _

theorem FileStat.eq_of_adds {a b : FileStat} (hs : addLong a.size = addLong b.size)
    (hm : addLong a.mtime = addLong b.mtime) : a = b := by
  cases a
  cases b
  simp only [FileStat.mk.injEq]
  exact ⟨addLong_inj hs, addLong_inj hm⟩

/-- The values of the base, added one by one, determine the base. -/
theorem baseHash_injective {a b : Base} (h : baseHash a = baseHash b) : a = b := by
  simp only [baseHash, addFile, cons_append, nil_append, cons.injEq, and_true, true_and]
    at h
  obtain ⟨hrel, htree, harch, -, hcs, hcm, -, hvs, hvm, -, hos, hom, -, hws, hwm, -, hus, hum,
    hrun, hgcc, hgs, hgm, hss, hsm⟩ := h
  cases a
  cases b
  simp only [Base.mk.injEq]
  exact ⟨hrel, htree, harch, FileStat.eq_of_adds hcs hcm, FileStat.eq_of_adds hvs hvm,
    FileStat.eq_of_adds hos hom, FileStat.eq_of_adds hws hwm, FileStat.eq_of_adds hus hum, hrun, hgcc,
    FileStat.eq_of_adds hgs hgm, FileStat.eq_of_adds hss hsm⟩

theorem Flags.adds_injective {f g : Flags} (h : f.adds = g.adds) : f = g := by
  simp only [Flags.adds, cons.injEq, and_true] at h
  obtain ⟨h1, h2, h3, h4, h5, h6, h7, h8, h9⟩ := h
  cases f
  cases g
  simp only [Flags.mk.injEq]
  exact ⟨addBool_inj h1, addBool_inj h2, addBool_inj h3, addBool_inj h4, addBool_inj h5, addBool_inj h6,
    addBool_inj h7, addBool_inj h8, addBool_inj h9⟩

theorem Symtab.adds_injective {k l : Symtab} (h : k.adds = l.adds) : k = l := by
  obtain ⟨p, hp, st⟩ := k
  obtain ⟨q, hq, st'⟩ := l
  simp only [Symtab.adds, cons.injEq] at h
  obtain ⟨rfl, h⟩ := h
  have hst : st = st' := by
    cases st with
    | none => cases st' with
      | none => rfl
      | some b => simp at h
    | some a => cases st' with
      | none => simp at h
      | some b =>
        simp only [cons.injEq, and_true] at h
        rw [FileStat.eq_of_adds h.1 h.2]
  simp only [hst]

theorem symtabAdds_injective {k l : Option Symtab} (h : symtabAdds k = symtabAdds l) : k = l := by
  cases k with
  | none => cases l with
    | none => rfl
    | some l => simp [symtabAdds, Symtab.adds] at h
  | some k => cases l with
    | none => simp [symtabAdds, Symtab.adds] at h
    | some l => rw [Symtab.adds_injective h]

theorem StringSet.eq_of_elems {a b : StringSet} (h : a.elems = b.elems) : a = b := by
  cases a
  cases b
  simpa using h

/-! ## The lengths of the values follow from the shape -/

theorem lengths_baseHash {a b : Base} (hr : a.kernelRelease.length = b.kernelRelease.length)
    (ht : a.kernelBuildTree.length = b.kernelBuildTree.length)
    (ha : a.architecture.length = b.architecture.length)
    (hp : a.runtimePath.length = b.runtimePath.length) (hg : a.gcc.length = b.gcc.length) :
    (baseHash a).map length = (baseHash b).map length := by
  simp [baseHash, addFile, hr, ht, ha, hp, hg]

theorem lengths_flags (f g : Flags) : f.adds.map length = g.adds.map length := by
  simp [Flags.adds]

theorem lengths_symtab {k l : Symtab} (h : k.shape = l.shape) :
    k.adds.map length = l.adds.map length := by
  simp only [Symtab.shape, Prod.mk.injEq] at h
  obtain ⟨hp, hst⟩ := h
  cases hk : k.stat with
  | none => cases hl : l.stat with
    | none => simp [Symtab.adds, hk, hl, hp]
    | some st => simp [hk, hl] at hst
  | some st => cases hl : l.stat with
    | none => simp [hk, hl] at hst
    | some st' => simp [Symtab.adds, hk, hl, hp]

theorem lengths_symtabAdds {k l : Option Symtab} (h : k.map Symtab.shape = l.map Symtab.shape) :
    (symtabAdds k).map length = (symtabAdds l).map length := by
  cases k with
  | none => cases l with
    | none => rfl
    | some l => simp at h
  | some k => cases l with
    | none => simp at h
    | some l => exact lengths_symtab (by simpa using h)

/-- The values before the script. -/
def Session.header (s : Session) : List Str :=
  baseHash s.base ++ [addUInt s.uid] ++ s.flags.adds ++ symtabAdds s.kernelSymtab
    ++ s.macros ++ s.kbuildflags ++ s.unwindsymModules.elems

theorem Session.fed_eq (s : Session) : s.fed = s.header.flatten ++ s.script := by
  show (s.header ++ [s.script]).flatten = _
  simp

theorem Session.lengths_header {s t : Session} (h : s.shape = t.shape) :
    s.header.map length = t.header.map length := by
  simp only [Session.shape, Shape.mk.injEq] at h
  obtain ⟨hr, ht, ha, hp, hg, hk, hm, hb, hu⟩ := h
  simp only [Session.header, map_append, map_cons, map_nil, length_addUInt]
  rw [lengths_baseHash hr ht ha hp hg, lengths_flags s.flags t.flags, lengths_symtabAdds hk, hm, hb, hu]

/-- Every list of values starts where the one before it ends, so the values of two sessions of one shape
can be compared list by list. -/
theorem Session.eq_of_header {s t : Session} (h : s.shape = t.shape) (hd : s.header = t.header)
    (hscript : s.script = t.script) : s = t := by
  simp only [Session.shape, Shape.mk.injEq] at h
  obtain ⟨-, -, -, -, -, hk, hm, hb, -⟩ := h
  have hmlen : s.macros.length = t.macros.length := by simpa using congrArg length hm
  have hblen : s.kbuildflags.length = t.kbuildflags.length := by simpa using congrArg length hb
  have hklen : (symtabAdds s.kernelSymtab).length = (symtabAdds t.kernelSymtab).length := by
    simpa using congrArg length (lengths_symtabAdds hk)
  have hflen : s.flags.adds.length = t.flags.adds.length := rfl
  have hbase : (baseHash s.base).length = (baseHash t.base).length := rfl
  simp only [Session.header, append_assoc] at hd
  obtain ⟨e1, hd⟩ := append_inj hd hbase
  obtain ⟨e2, hd⟩ := append_inj hd rfl
  obtain ⟨e3, hd⟩ := append_inj hd hflen
  obtain ⟨e4, hd⟩ := append_inj hd hklen
  obtain ⟨e5, hd⟩ := append_inj hd hmlen
  obtain ⟨e6, e7⟩ := append_inj hd hblen
  have huid : addUInt s.uid = addUInt t.uid := by simpa using e2
  cases s
  cases t
  simp only [Session.mk.injEq]
  exact ⟨baseHash_injective e1, addUInt_inj huid, Flags.adds_injective e3, symtabAdds_injective e4, e5, e6,
    StringSet.eq_of_elems e7, hscript⟩

/-- Sessions of one shape are told apart by the bytes that are fed. -/
theorem Session.fed_injective_of_shape {s t : Session} (h : s.shape = t.shape) (hf : s.fed = t.fed) :
    s = t := by
  rw [s.fed_eq, t.fed_eq] at hf
  have hlens := Session.lengths_header h
  have htotal : s.header.flatten.length = t.header.flatten.length := by
    rw [length_flatten, length_flatten, hlens]
  obtain ⟨hflat, hscript⟩ := append_inj hf htotal
  exact Session.eq_of_header h (eq_iff_flatten_eq.2 ⟨hflat, hlens⟩) hscript

/-! ## The key -/

/-- A session with the given lists and script, and nothing special about the rest. -/
def sampleSession (macros kbuildflags : List Str) (script : Str) : Session where
  base := ⟨text "2.6.32", text "/build", text "x86_64", ⟨1, 2⟩, ⟨3, 4⟩, ⟨5, 6⟩, .ofStat none, ⟨9, 10⟩,
    text "/usr/share/systemtap/runtime", text "/usr/bin/gcc", ⟨11, 12⟩, ⟨13, 14⟩⟩
  uid := 500
  flags := ⟨false, false, false, false, false, false, false, false, false⟩
  kernelSymtab := none
  macros := macros
  kbuildflags := kbuildflags
  unwindsymModules := ⟨[text "kernel"], by simp⟩
  script := script

end Systemtap.Cache
