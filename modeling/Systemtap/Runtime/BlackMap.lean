import Systemtap.Lib.Steps
import Systemtap.Runtime.AddrMap

/-!
# How the black list grows

`add_bad_addr_entry` of `addr-map.c` puts a range into the map that `lookup_bad_addr` searches. Two
searches for one address each, the first address of the range and the one behind its last, are to
tell whether the range overlaps an entry; `upper_bound` gives the place for it.

The two addresses do not tell that. A range around an entry has neither of them in it, so it gets
in, and the map is no longer disjoint. A range that ends where an entry begins overlaps nothing,
but the address behind its last is in that entry, so it does not get in. Everything else is right
(`black_list_right_iff`).
-/

namespace Systemtap.Runtime

open Lib List

/-! ## The code -/

/-- The loop of `upper_bound`; `idx` is the index of `entry`. -/
def upperBoundLoop (addr : BitVec 64) (entries : List AddrMapEntry) (start stop idx : Nat) :
    Option Nat :=
  if _h : start < stop then
    match entries[start]?, entries[stop - 1]? with
    | some first, some last =>
      if addr < first.min then some start
      else if last.max ≤ addr then some stop
      else
        let newIdx := (stop + start) / 2
        match entries[newIdx]? with
        | none => none
        | some entry =>
          if addr < entry.min then upperBoundLoop addr entries start newIdx newIdx
          else upperBoundLoop addr entries (newIdx + 1) stop newIdx
    | _, _ => none
  else some idx
termination_by stop - start

/-- `upper_bound` -/
def upperBound (addr : BitVec 64) (entries : List AddrMapEntry) : Option Nat :=
  if entries.length = 0 then some 0 else upperBoundLoop addr entries 0 entries.length 0

/-- `lookup_addr_aux` for a map of any entries. -/
def lookupEntries (addr size : BitVec 64) (entries : List AddrMapEntry) :
    Option (Option AddrMapEntry) :=
  lookupLoop addr size entries 0 entries.length

/-- What `add_bad_addr_entry` returns: `-ENOMEM`, 1 and the two entries found, or 0. -/
inductive AddResult where
  | noMemory
  | existing (existingMin existingMax : Option AddrMapEntry)
  | added

/-- A call, with whether `_stp_kmalloc` gives memory for it. -/
structure AddCall where
  min : BitVec 64
  max : BitVec 64
  lt : min < max
  alloc : Bool

/-- `add_bad_addr_entry`; no result if an entry is read that is not there. -/
def addBadAddrEntry (blackmap : Option (List AddrMapEntry)) (c : AddCall) :
    Option (AddResult × Option (List AddrMapEntry)) :=
  if c.alloc = false then some (.noMemory, blackmap)
  else
    match blackmap with
    | none => some (.added, some [⟨c.min, c.max⟩])
    | some entries =>
      match lookupEntries c.min 1 entries, lookupEntries c.max 1 entries with
      | some minEntry, some maxEntry =>
        if minEntry.isSome ∨ maxEntry.isSome then some (.existing minEntry maxEntry, blackmap)
        else
          match upperBound c.min entries with
          | none => none
          | some existing =>
            some (.added, some (entries.take existing ++ ⟨c.min, c.max⟩ :: entries.drop existing))
      | _, _ => none

/-! ## What should hold -/

structure SortedDisjoint (entries : List AddrMapEntry) : Prop where
  proper : ∀ e ∈ entries, e.min < e.max
  sorted : entries.Pairwise fun d e => d.max ≤ e.min

def AddCall.OverlapsAny (c : AddCall) (entries : List AddrMapEntry) : Prop :=
  ∃ e ∈ entries, e.Overlaps c.min.toNat c.max.toNat

/-- The call returns 1 exactly if the range overlaps an entry. The map stays sorted and disjoint and
keeps its entries, and a range that overlaps none of them is put among them. -/
def AddsRight (blackmap : Option (List AddrMapEntry)) (c : AddCall) : Prop :=
  ∃ r new, addBadAddrEntry blackmap c = some (r, new) ∧ SortedDisjoint (new.getD []) ∧
    (∀ e ∈ blackmap.getD [], e ∈ new.getD []) ∧
    (c.alloc = true →
      ((∃ d e, r = .existing d e) ↔ c.OverlapsAny (blackmap.getD [])) ∧
      (¬ c.OverlapsAny (blackmap.getD []) → ∃ k,
        new.getD [] = (blackmap.getD []).take k ++ ⟨c.min, c.max⟩ :: (blackmap.getD []).drop k))

/-- The map after a call. -/
def blackmapAfter (blackmap : Option (List AddrMapEntry)) (c : AddCall) :
    Option (Option (List AddrMapEntry)) :=
  (addBadAddrEntry blackmap c).map Prod.snd

/-- An entry has one of the two addresses exactly if one overlaps the range, and the searches have no
index that is not an `int`. -/
def TwoTell (blackmap : Option (List AddrMapEntry)) (c : AddCall) : Prop :=
  c.alloc = true → ∀ entries, blackmap = some entries →
    (∀ addr ∈ [c.min, c.max], ∀ i ∈ probes addr 1 entries 0 entries.length, i < 2 ^ 31) ∧
    ((∃ e ∈ entries, e.Has c.min.toNat ∨ e.Has c.max.toNat) ↔ c.OverlapsAny entries)

/-! ## The searches -/

namespace SortedDisjoint

variable {entries : List AddrMapEntry} {addr : BitVec 64}

def map (h : SortedDisjoint entries) : AddrMap where
  entries := entries
  proper e he := BitVec.le_of_lt (h.proper e he)
  sorted := h.sorted

/-- The search for one address. -/
theorem lookup_spec (h : SortedDisjoint entries)
    (hprobes : ∀ i ∈ probes addr 1 entries 0 entries.length, i < 2 ^ 31) :
    ∃ r, lookupEntries addr 1 entries = some r ∧ (r.isSome ↔ ∃ e ∈ entries, e.Has addr.toNat) := by
  by_cases hsum : addr.toNat + (1 : BitVec 64).toNat < 2 ^ 64
  · have hapart : ∀ e, Apart addr 1 e ↔ ¬ e.Has addr.toNat := fun e =>
      (apart_iff hsum e).trans (not_congr (and_congr_left' Nat.lt_succ_iff))
    obtain ⟨r, hr, hanswers, -⟩ := (lookupAddrAux_spec addr 1 (some h.map)).resolve_right
      fun ⟨_, i, hi, hge, _⟩ => absurd (hprobes i hi) (not_lt.mpr hge)
    refine ⟨r, hr, ?_⟩
    cases r with
    | some e =>
      exact iff_of_true rfl ⟨e, hanswers.1, not_not.mp ((hapart e).not.mp hanswers.2)⟩
    | none =>
      refine iff_of_false Bool.false_ne_true ?_
      intro ⟨e, he, hhas⟩
      exact (hapart e).mp (hanswers e he) hhas
  · -- the last address of all, which no entry has
    have hone : (1 : BitVec 64).toNat = 1 := rfl
    have hzero : addr + 1 = 0 := by bv_omega
    refine ⟨none, (lookupAddrAux_wrap (some h.map) hzero).1, iff_of_false Bool.false_ne_true ?_⟩
    intro ⟨e, _, _, hlt⟩
    omega

/-- The induction is on how many entries are left; the loop ends in its first two tests. -/
theorem upperBoundLoop_spec (h : SortedDisjoint entries) (hnone : ∀ e ∈ entries, ¬ e.Has addr.toNat)
    (haddr : addr.toNat + 1 < 2 ^ 64) : ∀ (start stop idx : Nat), start < stop →
      Culled addr 1 h.map start stop →
      ∃ k, upperBoundLoop addr entries start stop idx = some k ∧ Culled addr 1 h.map k k := by
  intro start stop
  have hsucc : ∀ e : AddrMapEntry, addr < e.min → addr + 1 ≤ e.min := fun e he => by bv_omega
  induction hn : stop - start using Nat.strong_induction_on generalizing start stop with
  | _ n ih =>
    intro idx hlt hculled
    have hstop : stop ≤ entries.length := hculled.stop_le
    have hget : ∀ i, i < stop → ∃ e, entries[i]? = some e := fun i hi =>
      ⟨_, List.getElem?_eq_getElem (by omega)⟩
    obtain ⟨first, hfirst⟩ := hget start hlt
    obtain ⟨last, hlast⟩ := hget (stop - 1) (by omega)
    obtain ⟨entry, hentry⟩ := hget ((stop + start) / 2) (by omega)
    unfold upperBoundLoop
    simp only [hlt, hfirst, hlast, hentry, dite_true]
    by_cases hbelow : addr < first.min
    · rw [if_pos hbelow]
      exact ⟨start, rfl, hculled.cull_above hfirst (hsucc first hbelow)⟩
    rw [if_neg hbelow]
    by_cases habove : last.max ≤ addr
    · rw [if_pos habove]
      have hend := hculled.cull_below hlast habove
      rw [Nat.sub_add_cancel (by omega)] at hend
      exact ⟨stop, rfl, hend⟩
    rw [if_neg habove]
    by_cases hmid : addr < entry.min
    · rw [if_pos hmid]
      have hne : (stop + start) / 2 ≠ start := by
        intro heq
        rw [heq] at hentry
        exact hbelow (Option.some.inj (hentry.symm.trans hfirst) ▸ hmid)
      exact ih _ (by omega) _ _ rfl _ (by omega) (hculled.cull_above hentry (hsucc entry hmid))
    · rw [if_neg hmid]
      have hmax : entry.max ≤ addr := by
        refine BitVec.not_lt.mp fun hlt => hnone entry (mem_of_getElem? hentry) ⟨?_, hlt⟩
        exact BitVec.le_def.mp (BitVec.not_lt.mp hmid)
      have hne : (stop + start) / 2 ≠ stop - 1 := by
        intro heq
        rw [heq] at hentry
        exact habove (Option.some.inj (hentry.symm.trans hlast) ▸ hmax)
      exact ih _ (by omega) _ _ rfl _ (by omega) (hculled.cull_below hentry hmax)

theorem upperBound_spec (h : SortedDisjoint entries) (hnone : ∀ e ∈ entries, ¬ e.Has addr.toNat)
    (haddr : addr.toNat + 1 < 2 ^ 64) :
    ∃ k, upperBound addr entries = some k ∧ Culled addr 1 h.map k k := by
  have hstart : Culled addr 1 h.map 0 entries.length := by
    refine ⟨le_rfl, fun i e hi => absurd hi (Nat.not_lt_zero i), fun i e hi he => ?_⟩
    exact absurd (List.getElem?_eq_some_iff.mp he).1 (not_lt.mpr hi)
  unfold upperBound
  by_cases hlen : entries.length = 0
  · rw [if_pos hlen]
    rw [hlen] at hstart
    exact ⟨0, rfl, hstart⟩
  · rw [if_neg hlen]
    exact h.upperBoundLoop_spec hnone haddr _ _ _ (by omega) hstart

/-- The new range lies between the entries below it and those above it. -/
theorem insert (h : SortedDisjoint entries) {c : AddCall} {k : Nat}
    (hculled : Culled c.min 1 h.map k k) (hnone : ¬ c.OverlapsAny entries) :
    SortedDisjoint (entries.take k ++ ⟨c.min, c.max⟩ :: entries.drop k) := by
  have hlt := BitVec.lt_def.mp c.lt
  have hbelow : ∀ e ∈ entries.take k, e.max ≤ c.min := by
    intro e he
    obtain ⟨i, hi, rfl⟩ := mem_take_iff_getElem.mp he
    exact hculled.below i _ (by omega) (List.getElem?_eq_getElem _)
  have habove : ∀ e ∈ entries.drop k, c.max ≤ e.min := by
    intro e he
    obtain ⟨i, hi, rfl⟩ := mem_drop_iff_getElem.mp he
    have hi : k + i < entries.length := by omega
    have hmem : entries[k + i] ∈ entries := getElem_mem hi
    have hmin := hculled.above (k + i) _ (by omega) (List.getElem?_eq_getElem hi)
    have hproper := BitVec.lt_def.mp (h.proper _ hmem)
    by_contra hle
    refine hnone ⟨_, hmem, BitVec.lt_def.mp (BitVec.not_le.mp hle), ?_⟩
    have hone : (1 : BitVec 64).toNat = 1 := rfl
    rw [BitVec.le_def, BitVec.toNat_add, hone, Nat.mod_eq_of_lt (by omega)] at hmin
    omega
  refine ⟨fun e he => ?_, ?_⟩
  · rcases mem_append.mp he with he | he
    · exact h.proper e (mem_of_mem_take he)
    · rcases mem_cons.mp he with rfl | he
      · exact c.lt
      · exact h.proper e (mem_of_mem_drop he)
  · refine pairwise_append.mpr ⟨h.sorted.sublist (take_sublist k _),
      pairwise_cons.mpr ⟨habove, h.sorted.sublist (drop_sublist k _)⟩, fun d hd e he => ?_⟩
    rcases mem_cons.mp he with rfl | he
    · exact hbelow d hd
    · exact BitVec.le_trans (hbelow d hd) (BitVec.le_trans (BitVec.le_of_lt c.lt) (habove e he))

/-- A call on a map, with the searches spelled out. -/
theorem add_cases (h : SortedDisjoint entries) {c : AddCall} (halloc : c.alloc = true)
    (hprobes : ∀ addr ∈ [c.min, c.max], ∀ i ∈ probes addr 1 entries 0 entries.length, i < 2 ^ 31) :
    (∃ d e, addBadAddrEntry (some entries) c = some (.existing d e, some entries) ∧
      ∃ e ∈ entries, e.Has c.min.toNat ∨ e.Has c.max.toNat) ∨
    (∃ k, addBadAddrEntry (some entries) c =
        some (.added, some (entries.take k ++ ⟨c.min, c.max⟩ :: entries.drop k)) ∧
      Culled c.min 1 h.map k k ∧ ¬ ∃ e ∈ entries, e.Has c.min.toNat ∨ e.Has c.max.toNat) := by
  obtain ⟨d, hd, hdiff⟩ := h.lookup_spec (hprobes c.min mem_cons_self)
  obtain ⟨e, he, hediff⟩ := h.lookup_spec (hprobes c.max (mem_cons_of_mem _ mem_cons_self))
  have hany : (∃ e ∈ entries, e.Has c.min.toNat ∨ e.Has c.max.toNat) ↔ d.isSome ∨ e.isSome := by
    rw [hdiff, hediff, ← exists_or]
    exact exists_congr fun _ => and_or_left
  rw [hany]
  simp only [addBadAddrEntry, halloc, hd, he, Bool.true_eq_false, if_false]
  by_cases hfound : d.isSome ∨ e.isSome
  · exact .inl ⟨d, e, if_pos hfound, hfound⟩
  · have hno : ∀ e ∈ entries, ¬ e.Has c.min.toNat := fun e he hhas =>
      hfound (.inl (hdiff.mpr ⟨e, he, hhas⟩))
    have hlt := BitVec.lt_def.mp c.lt
    obtain ⟨k, hk, hculled⟩ := h.upperBound_spec hno (by have := c.max.isLt; omega)
    refine .inr ⟨k, ?_, hculled, hfound⟩
    simp only [if_neg hfound, hk]

end SortedDisjoint

/-! ## Calls -/

variable {blackmap : Option (List AddrMapEntry)} {c : AddCall}

/-- A search with an index that is too great has no result. -/
theorem add_eq_none {entries : List AddrMapEntry} (h : SortedDisjoint entries)
    (halloc : c.alloc = true) {addr : BitVec 64} (haddr : addr ∈ [c.min, c.max])
    (hprobes : ¬ ∀ i ∈ probes addr 1 entries 0 entries.length, i < 2 ^ 31) :
    addBadAddrEntry (some entries) c = none := by
  have hlookup : lookupEntries addr 1 entries = none :=
    ((lookupAddrAux_spec addr 1 (some h.map)).resolve_left fun ⟨_, _, _, hlt⟩ => hprobes hlt).1
  unfold addBadAddrEntry
  rw [if_neg (by simp [halloc])]
  dsimp only
  rcases mem_cons.mp haddr with rfl | haddr
  · rw [hlookup]
  · obtain rfl := mem_singleton.mp haddr
    rw [hlookup]
    cases lookupEntries c.min 1 entries <;> rfl

theorem not_overlapsAny_nil : ¬ c.OverlapsAny [] := by
  intro ⟨e, he, _⟩
  exact not_mem_nil he

/-- One call, on a map that is as it should be. -/
theorem addsRight_iff (h : SortedDisjoint (blackmap.getD [])) :
    AddsRight blackmap c ↔ TwoTell blackmap c := by
  cases halloc : c.alloc with
  | false =>
    refine iff_of_true ⟨.noMemory, blackmap, ?_, h, fun _ he => he, ?_⟩ ?_
    · simp [addBadAddrEntry, halloc]
    · exact fun htrue => absurd (halloc.symm.trans htrue) Bool.false_ne_true
    · exact fun htrue => absurd (halloc.symm.trans htrue) Bool.false_ne_true
  | true =>
    cases blackmap with
    | none =>
      refine iff_of_true ⟨.added, some [⟨c.min, c.max⟩], ?_, ?_, ?_, fun _ =>
        ⟨?_, fun _ => ⟨0, rfl⟩⟩⟩ ?_
      · simp [addBadAddrEntry, halloc]
      · exact ⟨fun e he => mem_singleton.mp he ▸ c.lt, pairwise_singleton _ _⟩
      · exact fun e he => absurd he not_mem_nil
      · exact iff_of_false (by simp) not_overlapsAny_nil
      · exact fun _ entries hnone => absurd hnone.symm (Option.some_ne_none entries)
    | some entries =>
      have h : SortedDisjoint entries := h
      constructor
      · intro ⟨r, new, hr, _, _, hret⟩ _ entries' hentries
        obtain rfl := Option.some.inj hentries
        have hprobes : ∀ addr ∈ [c.min, c.max], ∀ i ∈ probes addr 1 entries 0 entries.length,
            i < 2 ^ 31 := by
          intro addr haddr
          by_contra hgreat
          rw [add_eq_none h halloc haddr hgreat] at hr
          cases hr
        refine ⟨hprobes, ?_⟩
        have hret : (∃ d e, r = .existing d e) ↔ c.OverlapsAny entries := (hret halloc).1
        rw [← hret]
        rcases h.add_cases halloc hprobes with ⟨d, e, hadd, hhas⟩ | ⟨k, hadd, -, hhas⟩
        · rw [hadd] at hr
          cases hr
          exact iff_of_true hhas ⟨d, e, rfl⟩
        · rw [hadd] at hr
          cases hr
          exact iff_of_false hhas (by simp)
      · intro htell
        obtain ⟨hprobes, htell⟩ := htell halloc entries rfl
        rcases h.add_cases halloc hprobes with ⟨d, e, hadd, hhas⟩ | ⟨k, hadd, hculled, hhas⟩
        · have hoverlaps := htell.mp hhas
          exact ⟨_, _, hadd, h, fun _ he => he, fun _ =>
            ⟨iff_of_true ⟨d, e, rfl⟩ hoverlaps, fun hnot => absurd hoverlaps hnot⟩⟩
        · have hoverlaps := htell.not.mp hhas
          refine ⟨_, _, hadd, h.insert hculled hoverlaps, fun e he => ?_, fun _ =>
            ⟨iff_of_false (by simp) hoverlaps, fun _ => ⟨k, rfl⟩⟩⟩
          have he : e ∈ entries.take k ++ entries.drop k := (take_append_drop k entries).symm ▸ he
          exact (mem_append.mp he).elim (mem_append_left _) fun he =>
            mem_append_right _ (mem_cons_of_mem _ he)

/-- From the empty list on, every call does what it should if and only if at each of them the two
addresses tell whether the range overlaps an entry. -/
theorem black_list_right_iff (calls : List AddCall) :
    Along blackmapAfter AddsRight none calls ↔ Along blackmapAfter TwoTell none calls := by
  refine along_congr (I := fun m => SortedDisjoint (m.getD [])) (fun _ _ => addsRight_iff) ?_ calls
    none ⟨fun e he => absurd he not_mem_nil, Pairwise.nil⟩
  intro m c m' hm htell hnext
  obtain ⟨r, new, hr, hnew, -⟩ := (addsRight_iff hm).mpr htell
  rw [blackmapAfter, hr] at hnext
  exact Option.some.inj hnext ▸ hnew

/-- A range around the only entry gets in, and a range right in front of it does not. -/
theorem black_list_wrong :
    let first : AddCall := ⟨10, 20, by decide, true⟩
    ¬ Along blackmapAfter AddsRight none [first, ⟨5, 25, by decide, true⟩] ∧
      ¬ Along blackmapAfter AddsRight none [first, ⟨5, 10, by decide, true⟩] := by
  intro first
  have hfirst : SortedDisjoint [⟨10, 20⟩] :=
    ⟨fun e he => mem_singleton.mp he ▸ first.lt, pairwise_singleton _ _⟩
  have hsecond : ∀ c, ¬ TwoTell (some [⟨10, 20⟩]) c →
      ¬ Along blackmapAfter AddsRight none [first, c] := fun c htell h =>
    htell ((@addsRight_iff (some [⟨10, 20⟩]) c hfirst).mp (h.2 _ rfl).1)
  refine ⟨hsecond _ fun h => ?_, hsecond _ fun h => ?_⟩
  · have htell := (h rfl _ rfl).2
    simp [AddCall.OverlapsAny, AddrMapEntry.Has, AddrMapEntry.Overlaps] at htell
  · have htell := (h rfl _ rfl).2
    simp [AddCall.OverlapsAny, AddrMapEntry.Has, AddrMapEntry.Overlaps] at htell

end Systemtap.Runtime
