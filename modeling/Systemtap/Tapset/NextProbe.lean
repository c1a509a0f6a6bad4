import Mathlib

/-!
# Reading the `.probes` section

`sdt_query::get_next_probe` of `tapsets.cxx`. It goes through the section word by word until a word is one of two
sentinels; behind it, on a multiple of eight bytes, stand the address of the marker's name and an argument. The loop
only compares the offset of the word with the size. That the word, the entry and the name are inside, too, is left
to the file: a read outside is `none` here, and the calls stay inside where the section is laid out as `Layout` says.
The data are in memory, so that their offsets do not wrap around.
-/

namespace Systemtap.Tapset.ProbeScn

open List Option

/-! ## The program -/

/-- `pdata` and `probe_scn_addr` -/
structure Scn where
  data : List UInt8
  addr : BitVec 64

/-- A number of `n` bytes -/
def Scn.read (s : Scn) (offset n : Nat) : Option Nat :=
  if offset + n ≤ s.data.length then
    some (Nat.ofDigits 256 (((s.data.drop offset).take n).map UInt8.toNat))
  else none

/-- A string, up to its NUL -/
def cstr : List UInt8 → Option (List UInt8)
  | [] => none
  | c :: cs => if c = 0 then some [] else (cstr cs).map (c :: ·)

/-- What the address `name` points to, as the address where `d_buf` is takes the place of `probe_scn_addr`. -/
def Scn.name (s : Scn) (name : Nat) : Option (List UInt8) :=
  cstr (s.data.drop (BitVec.ofNat 64 name - s.addr).toNat)

def uprobeType : Nat := 0x31425250

def kprobeType : Nat := 0x32425250

/-- The members that are set by a call. -/
structure Query where
  probeType : Nat
  probeName : List UInt8
  probeArg : Nat
  /-- `probe_scn_offset` -/
  offset : Nat

/-- The entry behind a sentinel. `probe_scn_offset += probe_scn_offset % sizeof(__uint64_t)` is a multiple of eight if
the offset is one of four. -/
def entryOffset (offset : Nat) : Nat := offset + 4 + (offset + 4) % 8

/-- `pattern` says whether a name is `mark_name` or matches it. -/
def getNextProbe (s : Scn) (pattern : List UInt8 → Bool) (q : Query) : Option (Bool × Query) :=
  if q.offset < s.data.length then do
    let type ← s.read q.offset 4
    if type ≠ uprobeType ∧ type ≠ kprobeType then
      getNextProbe s pattern { q with probeType := type, offset := q.offset + 4 }
    else
      let offset := entryOffset q.offset
      let name ← s.read offset 8
      if name = 0 then some (false, { q with probeType := type, offset })
      else
        let probeName ← s.name name
        let probeArg ← s.read (offset + 8) 8
        let q' := { probeType := type, probeName, probeArg, offset := offset + 16 }
        if pattern probeName then some (true, q') else getNextProbe s pattern q'
  else some (false, q)
termination_by s.data.length - q.offset
decreasing_by all_goals grind [entryOffset]

/-- `n` calls, one after the other -/
def calls (s : Scn) (pattern : List UInt8 → Bool) : Nat → Query → Option Query
  | 0, q => some q
  | n + 1, q => do
    let (_, q) ← getNextProbe s pattern q
    calls s pattern n q

/-! ## What it is for -/

/-- No call reads outside of the section. -/
def StaysInside (s : Scn) (pattern : List UInt8 → Bool) (q : Query) : Prop :=
  ∀ n, (calls s pattern n q).isSome

/-- The section from an offset on: words, sentinels without a name, and entries. -/
inductive Layout (s : Scn) : Nat → Prop
  | done : Layout s s.data.length
  | word {o type} (hread : s.read o 4 = some type) (htype : type ≠ uprobeType ∧ type ≠ kprobeType)
      (rest : Layout s (o + 4)) : Layout s o
  | nameless {o type} (hread : s.read o 4 = some type) (htype : ¬ (type ≠ uprobeType ∧ type ≠ kprobeType))
      (hname : s.read (entryOffset o) 8 = some 0) (rest : Layout s (entryOffset o)) : Layout s o
  | entry {o type name probeName probeArg} (hread : s.read o 4 = some type)
      (htype : ¬ (type ≠ uprobeType ∧ type ≠ kprobeType))
      (hname : s.read (entryOffset o) 8 = some name) (hne : name ≠ 0) (hprobe : s.name name = some probeName)
      (harg : s.read (entryOffset o + 8) 8 = some probeArg) (rest : Layout s (entryOffset o + 16)) : Layout s o

/-! ## When the calls stay inside -/

variable {s : Scn} {pattern : List UInt8 → Bool} {q q' : Query} {b : Bool}

theorem le_of_read {o n v : Nat} (h : s.read o n = some v) : o + n ≤ s.data.length := by
  unfold Scn.read at h
  split at h
  · assumption
  · cases h

/-- Every call on a section that is laid out well returns, and the rest is laid out well again. -/
theorem Layout.getNextProbe (h : Layout s q.offset) :
    ∃ b q', getNextProbe s pattern q = some (b, q') ∧ Layout s q'.offset := by
  generalize ho : q.offset = o at h
  induction h generalizing q with
  | done =>
    rw [ProbeScn.getNextProbe, if_neg (by omega)]
    exact ⟨false, q, rfl, ho ▸ .done⟩
  | word hread htype _ ih =>
    subst ho
    have := le_of_read hread
    rw [ProbeScn.getNextProbe, if_pos (by omega), hread, bind_eq_bind, bind_some, if_pos htype]
    exact ih rfl
  | nameless hread htype hname rest _ =>
    subst ho
    have := le_of_read hread
    rw [ProbeScn.getNextProbe, if_pos (by omega), hread, bind_eq_bind, bind_some, if_neg htype]
    simp only [hname, bind_eq_bind, bind_some, if_true]
    exact ⟨_, _, rfl, rest⟩
  | entry hread htype hname hne hprobe harg rest ih =>
    subst ho
    have := le_of_read hread
    rw [ProbeScn.getNextProbe, if_pos (by omega), hread, bind_eq_bind, bind_some, if_neg htype]
    simp only [hname, hprobe, harg, bind_eq_bind, bind_some, if_neg hne]
    split
    · exact ⟨_, _, rfl, rest⟩
    · exact ih rfl

theorem Layout.staysInside (h : Layout s q.offset) : StaysInside s pattern q := by
  intro n
  induction n generalizing q with
  | zero => rfl
  | succ n ih =>
    obtain ⟨b, q', hcall, hrest⟩ := @Layout.getNextProbe s pattern q h
    rw [calls, hcall]
    exact ih hrest

theorem staysInside_iff :
    StaysInside s pattern q ↔ ∃ b q', getNextProbe s pattern q = some (b, q') ∧ StaysInside s pattern q' := by
  constructor
  · intro h
    obtain ⟨_, hcall⟩ := isSome_iff_exists.1 (h 1)
    obtain ⟨⟨b, q'⟩, hcall, _⟩ := bind_eq_some_iff.1 hcall
    refine ⟨b, q', hcall, fun n => ?_⟩
    have := h (n + 1)
    rwa [calls, hcall] at this
  · intro ⟨b, q', hcall, h⟩ n
    cases n with
    | zero => rfl
    | succ n =>
      rw [calls, hcall]
      exact h n

/-- The induction is on what is left of the section; each read that succeeded is a condition of the layout. -/
theorem StaysInside.layout (h : StaysInside s pattern q) (hle : q.offset ≤ s.data.length) :
    Layout s q.offset := by
  induction hk : s.data.length - q.offset using Nat.strong_induction_on generalizing q with
  | _ k ih =>
    by_cases hlt : q.offset < s.data.length
    · obtain ⟨b, q', hcall, hnext⟩ := staysInside_iff.1 h
      rw [getNextProbe, if_pos hlt] at hcall
      obtain ⟨type, hread, hcall⟩ := bind_eq_some_iff.1 hcall
      have hin := le_of_read hread
      split at hcall
      next htype =>
        have hrest := staysInside_iff.2 ⟨b, q', hcall, hnext⟩
        exact .word hread htype (ih _ (by dsimp only; omega) hrest hin rfl)
      next htype =>
        obtain ⟨name, hname, hcall⟩ := bind_eq_some_iff.1 hcall
        have hin' := le_of_read hname
        have hgrow : q.offset < entryOffset q.offset := by unfold entryOffset; omega
        split at hcall
        next hzero =>
          cases hcall
          exact .nameless hread htype (hzero ▸ hname) (ih _ (by dsimp only; omega) hnext (by dsimp only; omega) rfl)
        next hne =>
          obtain ⟨probeName, hprobe, hcall⟩ := bind_eq_some_iff.1 hcall
          obtain ⟨probeArg, harg, hcall⟩ := bind_eq_some_iff.1 hcall
          have hin'' := le_of_read harg
          have hrest : StaysInside s pattern ⟨type, probeName, probeArg, entryOffset q.offset + 16⟩ := by
            split at hcall
            · cases hcall
              exact hnext
            · exact staysInside_iff.2 ⟨b, q', hcall, hnext⟩
          exact .entry hread htype hname hne hprobe harg (ih _ (by dsimp only; omega) hrest hin'' rfl)
    · rw [show q.offset = s.data.length by omega]
      exact .done

/-- From the beginning of the section, whatever is looked for. -/
theorem staysInside_iff_layout (s : Scn) (pattern : List UInt8 → Bool) (q : Query) :
    StaysInside s pattern { q with offset := 0 } ↔ Layout s 0 :=
  ⟨fun h => h.layout (Nat.zero_le _), fun h => h.staysInside⟩

/-- The section is a sentinel and nothing else: the entry is read behind its end. -/
theorem not_staysInside : ¬ StaysInside ⟨[0x50, 0x52, 0x42, 0x31], 0⟩ (fun _ => true) ⟨0, [], 0, 0⟩ := by
  intro h
  have := h 1
  rw [calls, getNextProbe] at this
  exact absurd this (by decide)

end Systemtap.Tapset.ProbeScn
