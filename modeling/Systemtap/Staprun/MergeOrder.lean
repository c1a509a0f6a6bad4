import Systemtap.Lib.KMerge
import Systemtap.Staprun.Merge

/-!
# Putting the records in order

`stap_merge` on any number of files of whole records. The sequence numbers are `uint32_t` where
they are written and `int` where they are read, so the loop merges by the order of the numbers
as signed ones, and prints the drops as an `int`.

The arrays `num` and `fp` have room for `NR_CPUS` files. The report goes to `stdout`, which is
closed by then if it was the output file.
-/

namespace Systemtap.Staprun

open Systemtap.Tree Systemtap.Runtime Lib Function List Merge Prod Nat

/-! ## The program -/

def nrCpus : Nat := 256

/-- How `main` ends. -/
inductive Exit (n : Nat) where
  | usage
  /-- `num` and `fp` are written past their end. -/
  | undefined
  | failed
  /-- What went to the output file, the lines of `-v`, and the drops that were reported. -/
  | done (ofp : Str) (lines : List (Fin n × BitVec 64 × BitVec 32)) (drops : Option Int)

/-- `main`; `outfile` says whether there is an option `-o`. -/
def main (outfile : Bool) : {n : Nat} → (Fin n → Str) → Nat → Option (Exit n)
  | 0, _, _ => some .usage
  | n + 1, files, fuel =>
    if nrCpus < n + 1 then some .undefined
    else
      match (start files).loop fuel with
      | none => none
      | some (_, false) => some .failed
      | some (s, true) =>
        -- `fclose (ofp)` comes before the report
        some (.done s.ofp s.lines (if outfile then some s.dropped.toInt else none))

/-! ## What it is for -/

/-- A record of a file, with what `struct _stp_trace` can say about it. -/
structure Record where
  sequence : BitVec 32
  payload : Str
  sequence_pos : sequence ≠ 0
  length_lt : payload.length < 2 ^ 32

def Record.bytes (x : Record) : Str :=
  traceHeader x.sequence (BitVec.ofNat 32 x.payload.length) ++ x.payload

/-- The number that was written. -/
def Record.number (x : Record) : Nat := x.sequence.toNat

variable {n : Nat}

/-- All records, with the file that each is in. -/
def records (files : Fin n → List Record) : List (Fin n × Record) :=
  (List.finRange n).flatMap fun i => (files i).map (i, ·)

def inOrder (files : Fin n → List Record) : List (Fin n × Record) :=
  (records files).insertionSort fun a b => a.2.number ≤ b.2.number

def numbers (files : Fin n → List Record) : Finset Nat :=
  ((records files).map fun a => a.2.number).toFinset

/-- How many numbers below the largest one are missing. -/
def missing (files : Fin n → List Record) : Nat :=
  (Finset.Ico 1 ((numbers files).sup id) \ numbers files).card

/-- The program ends, has written all records in the order of their numbers, and reports how many
are missing. -/
def Merges (outfile : Bool) (files : Fin n → List Record) : Prop :=
  ∃ F, ∀ fuel, F ≤ fuel → ∃ lines,
    main outfile (fun i => (files i).flatMap Record.bytes) fuel =
        some (.done ((inOrder files).flatMap fun a => a.2.payload) lines (some (missing files))) ∧
      lines.map fst = (inOrder files).map fst

/-! ## When it does so -/

/-- The order in which records are taken. -/
def SignedLe (x y : Record) : Prop := x.sequence.toInt ≤ y.sequence.toInt

/-- No record is empty, and there is room for each in the buffer, which grows with them. -/
def Fits : BitVec 32 → List Nat → Prop
  | _, [] => True
  | bufsize, len :: lens =>
    0 < len ∧ ∃ b, Merge.roomFor bufsize (BitVec.ofNat 32 len) = some b ∧ Fits b lens

def lengths (out : List (Fin n × Record)) : List Nat := out.map fun a => a.2.payload.length

theorem fits_of_lt {lens : List Nat} (h : ∀ len ∈ lens, 0 < len ∧ len < 2 ^ 30) :
    ∀ bufsize, Fits bufsize lens := by
  induction lens with
  | nil => exact fun _ => trivial
  | cons len lens ih =>
    intro bufsize
    obtain ⟨⟨hpos, hlt⟩, hrest⟩ := forall_mem_cons.mp h
    obtain ⟨b, hb⟩ := roomFor_of_lt hlt bufsize
    exact ⟨hpos, b, hb, ih hrest b⟩

/-- There is no room for a length that is negative as an `int`. -/
theorem lt_of_roomFor {bufsize b : BitVec 32} {len : Nat} (hlen : len < 2 ^ 32)
    (h : Merge.roomFor bufsize (BitVec.ofNat 32 len) = some b) : len < 2 ^ 31 := by
  by_contra hge
  have hneg : (BitVec.ofNat 32 len).slt 0 := by
    rw [BitVec.slt_iff_toInt_lt, BitVec.toInt_eq_toNat_cond, BitVec.toNat_ofNat,
      mod_eq_of_lt hlen, if_neg (by omega)]
    change ((len : Int) - 2 ^ 32) < 0
    omega
  unfold Merge.roomFor at h
  rw [if_pos hneg] at h
  cases h

theorem toInt_eq_number {x : Record} (h : x.number < 2 ^ 31) : x.sequence.toInt = x.number :=
  BitVec.toInt_eq_toNat_of_lt (by unfold Record.number at h; omega)

/-- Numbers below `2 ^ 31` are compared as they should be. -/
theorem heldBack_of_lt {files : Fin n → List Record} (h : ∀ i, ∀ x ∈ files i, x.number < 2 ^ 31) :
    HeldBack Record.number SignedLe files := by
  intro i j x hx y hy hlt hnot
  refine absurd ?_ hnot
  unfold SignedLe
  rw [toInt_eq_number (h i x hx), toInt_eq_number (h j y hy)]
  omega

/-! ## Choosing the file -/

namespace Merge

/-- What the loop over the files has found so far. -/
structure Found (s : Merge n) (seen : List (Fin (n + 1))) (r : BitVec 64 × Fin (n + 1)) : Prop where
  num_eq : s.num r.2 = r.1
  least : ∀ i ∈ seen, s.num i ≠ 0 → r.1 ≠ 0 ∧ r.1.toInt ≤ (s.num i).toInt

theorem Found.next {s : Merge n} {seen : List (Fin (n + 1))} {r : BitVec 64 × Fin (n + 1)}
    (h : s.Found seen r) (i : Fin (n + 1)) :
    s.Found (i :: seen)
      (if r.1 = 0 ∨ s.num i ≠ 0 ∧ (s.num i).slt r.1 then (s.num i, i) else r) := by
  by_cases htake : r.1 = 0 ∨ s.num i ≠ 0 ∧ (s.num i).slt r.1
  · rw [if_pos htake]
    refine ⟨rfl, forall_mem_cons.mpr ⟨fun hi => ⟨hi, le_rfl⟩, fun k hk hne => ?_⟩⟩
    obtain ⟨hr, hle⟩ := h.least k hk hne
    rcases htake with hzero | ⟨hi, hlt⟩
    · exact absurd hzero hr
    · have hlt := BitVec.slt_iff_toInt_lt.mp hlt
      exact ⟨hi, by dsimp only; omega⟩
  · rw [if_neg htake]
    obtain ⟨hr, hnot⟩ := not_or.mp htake
    refine ⟨h.num_eq, forall_mem_cons.mpr ⟨fun hi => ⟨hr, ?_⟩, h.least⟩⟩
    by_contra hlt
    exact hnot ⟨hi, BitVec.slt_iff_toInt_lt.mpr (by omega)⟩

theorem Found.foldl {s : Merge n} (is : List (Fin (n + 1))) :
    ∀ {seen r}, s.Found seen r → ∃ seen', (∀ i, i ∈ seen ∨ i ∈ is → i ∈ seen') ∧
      s.Found seen' (is.foldl
        (fun r i => if r.1 = 0 ∨ s.num i ≠ 0 ∧ (s.num i).slt r.1 then (s.num i, i) else r) r) := by
  induction is with
  | nil =>
    intro seen r h
    exact ⟨seen, fun i hi => hi.elim id fun h => absurd h not_mem_nil, h⟩
  | cons i is ih =>
    intro seen r h
    obtain ⟨seen', hmem, hfound⟩ := ih (h.next i)
    refine ⟨seen', fun k hk => hmem k ?_, hfound⟩
    rcases hk with hk | hk
    · exact .inl (mem_cons_of_mem i hk)
    · rcases mem_cons.mp hk with rfl | hk
      · exact .inl mem_cons_self
      · exact .inr hk

/-- The file with the least number, if any file has one. -/
theorem found_pick (s : Merge n) : s.Found (finRange (n + 1)) s.pick := by
  have hstart : s.Found [0] (s.num 0, 0) :=
    ⟨rfl, fun i hi hne => by rw [mem_singleton.mp hi] at hne ⊢; exact ⟨hne, le_rfl⟩⟩
  obtain ⟨seen, hmem, hfound⟩ := hstart.foldl (finRange (n + 1)).tail
  refine ⟨hfound.num_eq, fun i hi => hfound.least i (hmem i ?_)⟩
  rw [finRange_succ] at hi ⊢
  exact (mem_cons.mp hi).imp mem_singleton.mpr id

end Merge

/-! ## One round -/

/-- The records that are still to come are those of `q`. -/
def Rest (s : Merge n) (q : Fin (n + 1) → List Record) : Prop :=
  ∀ i, (s.num i, s.fp i) = readNum ((q i).flatMap Record.bytes)

namespace Rest

variable {s : Merge n} {q : Fin (n + 1) → List Record} {i : Fin (n + 1)}

theorem nil (h : Rest s q) (hi : q i = []) : s.num i = 0 ∧ s.fp i = [] := by
  have hrest := h i
  rw [hi] at hrest
  exact mk.inj hrest

variable {xs : List Record}

theorem cons (h : Rest s q) {x : Record} (hi : q i = x :: xs) :
    s.num i = x.sequence.signExtend 64 ∧
      s.fp i = intBytes (BitVec.ofNat 32 x.payload.length) ++
        (x.payload ++ xs.flatMap Record.bytes) := by
  have hrest := h i
  rw [hi, flatMap_cons, Record.bytes, append_assoc, readNum_header] at hrest
  exact mk.inj hrest

theorem num_ne_zero (h : Rest s q) {x : Record} (hi : q i = x :: xs) : s.num i ≠ 0 := by
  rw [(h.cons hi).1]
  exact fun h0 => x.sequence_pos ((signExtend_eq_zero_iff _).mp h0)

theorem toInt_num (h : Rest s q) {x : Record} (hi : q i = x :: xs) :
    (s.num i).toInt = x.sequence.toInt := by
  rw [(h.cons hi).1, BitVec.toInt_signExtend_of_le (by decide)]

/-- At the end of all files the loop ends. -/
theorem loop_done (h : Rest s q) (hq : ∀ i, q i = []) (fuel : Nat) :
    ∃ s', s.loop (fuel + 1) = some (s', true) ∧ s'.ofp = s.ofp ∧ s'.lines = s.lines ∧
      s'.dropped = s.dropped := by
  have hzero : s.pick.1 = 0 := by
    rw [← s.found_pick.num_eq]
    exact (h.nil (hq _)).1
  have hcopy : s.copy s.pick.1 s.pick.2 =
      ({ s with fp := update s.fp s.pick.2 [] }, true) := by
    unfold copy
    rw [(h.nil (hq _)).2]
    rfl
  refine ⟨Merge.next { s with fp := update s.fp s.pick.2 [] } s.pick.2, ?_, rfl, rfl, rfl⟩
  rw [Merge.loop]
  rw [hcopy, if_pos rfl, if_pos hzero, hzero, tally, if_pos rfl]

/-- The file that is chosen, if one is not at its end. -/
theorem pick_cons (h : Rest s q) (hq : ¬ ∀ i, q i = []) :
    ∃ x xs, q s.pick.2 = x :: xs ∧ s.pick.1 = x.sequence.signExtend 64 ∧ s.pick.1 ≠ 0 ∧
      ∀ j y ys, q j = y :: ys → SignedLe x y := by
  obtain ⟨k, hk⟩ := not_forall.mp hq
  have hfound := s.found_pick
  cases hqk : q k with
  | nil => exact absurd hqk hk
  | cons z zs =>
    have hne := (hfound.least k (mem_finRange k) (h.num_ne_zero hqk)).1
    cases hqj : q s.pick.2 with
    | nil => exact absurd (hfound.num_eq.symm.trans (h.nil hqj).1) hne
    | cons x xs =>
      refine ⟨x, xs, rfl, hfound.num_eq.symm.trans (h.cons hqj).1, hne, fun j y ys hj => ?_⟩
      have hle := (hfound.least j (mem_finRange j) (h.num_ne_zero hj)).2
      rwa [← hfound.num_eq, h.toInt_num hqj, h.toInt_num hj] at hle

end Rest

namespace Merge

/-- The two branches of the count do the same. -/
theorem tally_of_ne {min : BitVec 64} (h : min ≠ 0) (s : Merge n) :
    s.tally min =
      { s with dropped := s.dropped + (min - (s.count + 1)).setWidth 32, count := min } := by
  unfold tally
  rw [if_neg h]
  by_cases heq : s.count + 1 = min
  · rw [if_pos heq, heq, BitVec.sub_self]
    simp
  · rw [if_neg heq]

theorem setWidth_signExtend (x : BitVec 32) : (x.signExtend 64).setWidth 32 = x := by
  ext i hi
  simp [hi, BitVec.getLsbD_signExtend]
  omega

/-- The drops of one round, as an `int`. -/
theorem setWidth_drop (x : BitVec 32) (count : BitVec 64) :
    (x.signExtend 64 - (count + 1)).setWidth 32 = x - count.setWidth 32 - 1 := by
  have hsub : ∀ a b : BitVec 64, (a - b).setWidth 32 = a.setWidth 32 - b.setWidth 32 := by
    intro a b
    apply BitVec.eq_of_toNat_eq
    rw [BitVec.toNat_setWidth, BitVec.toNat_sub, BitVec.toNat_sub, BitVec.toNat_setWidth,
      BitVec.toNat_setWidth]
    omega
  rw [hsub, setWidth_signExtend, BitVec.setWidth_add _ _ (by decide),
    show (1 : BitVec 64).setWidth 32 = 1 from rfl]
  ring

end Merge

/-- The number of the last record. -/
def lastNumber (count : BitVec 32) (out : List (Fin n × Record)) : BitVec 32 :=
  out.foldl (fun _ a => a.2.sequence) count

/-- What the loop has done when it ends. -/
structure Ended (s : Merge n) (out : List (Fin (n + 1) × Record)) (s' : Merge n) : Prop where
  ofp : s'.ofp = s.ofp ++ out.flatMap fun a => a.2.payload
  lines : s'.lines.map fst = s.lines.map fst ++ out.map fst
  dropped : s'.dropped = s.dropped + lastNumber (s.count.setWidth 32) out - s.count.setWidth 32 -
    BitVec.ofNat 32 out.length

namespace Rest

variable {s : Merge n} {q : Fin (n + 1) → List Record}

/-- The state after the record `x` of file `j`. -/
def after (s : Merge n) (j : Fin (n + 1)) (x : Record) (xs : List Record) (bufsize : BitVec 32) :
    Merge n where
  num := Function.update s.num j (readNum (xs.flatMap Record.bytes)).1
  fp := Function.update s.fp j (readNum (xs.flatMap Record.bytes)).2
  bufsize := bufsize
  count := x.sequence.signExtend 64
  dropped := s.dropped + (x.sequence - s.count.setWidth 32 - 1)
  ofp := s.ofp ++ x.payload
  lines := s.lines ++ [(j, x.sequence.signExtend 64, BitVec.ofNat 32 x.payload.length)]

theorem after_rest (h : Rest s q) (j : Fin (n + 1)) (x : Record) (xs : List Record)
    (bufsize : BitVec 32) : Rest (after s j x xs bufsize) (update q j xs) := by
  intro i
  by_cases hi : i = j
  · subst hi
    simp only [after, update_self]
  · simp only [after, update_of_ne hi]
    exact h i

/-- A record that fits is copied. -/
theorem loop_copied (h : Rest s q) {x : Record} {xs : List Record} (hq : q s.pick.2 = x :: xs)
    (hmin : s.pick.1 = x.sequence.signExtend 64) (hne : s.pick.1 ≠ 0) {bufsize : BitVec 32}
    (hpos : 0 < x.payload.length)
    (hroom : Merge.roomFor s.bufsize (BitVec.ofNat 32 x.payload.length) = some bufsize) (fuel : Nat) :
    s.loop (fuel + 1) = (after s s.pick.2 x xs bufsize).loop fuel := by
  have hcopy := Merge.copy_record s.pick.1 hpos (lt_of_roomFor x.length_lt hroom) hroom (h.cons hq).2
  rw [Merge.loop]
  rw [hcopy, if_pos rfl, if_neg hne, Merge.tally_of_ne hne, hmin, Merge.setWidth_drop]
  simp only [Merge.next, update_self, update_idem]
  rfl

/-- A record that does not fit ends the program. -/
theorem loop_failed (h : Rest s q) {x : Record} {xs : List Record} (hq : q s.pick.2 = x :: xs)
    (hnot : ∀ b, 0 < x.payload.length →
      Merge.roomFor s.bufsize (BitVec.ofNat 32 x.payload.length) ≠ some b) (fuel : Nat) :
    ∃ s', s.loop (fuel + 1) = some (s', false) := by
  have hcopy : (s.copy s.pick.1 s.pick.2).2 = false := by
    unfold copy
    rw [(h.cons hq).2, fread_append (length_intBytes _) (by decide)]
    dsimp only
    rw [intAt_intBytes]
    cases hroom : Merge.roomFor s.bufsize (BitVec.ofNat 32 x.payload.length) with
    | none => rfl
    | some b =>
      -- nothing is read of an empty record, and that is taken for an error
      have hempty : x.payload.length = 0 := by
        by_contra hpos
        exact hnot b (pos_of_ne_zero hpos) hroom
      rw [hempty]
      rfl
  refine ⟨(s.copy s.pick.1 s.pick.2).1, ?_⟩
  rw [Merge.loop]
  rw [hcopy, if_neg Bool.false_ne_true]
  exact congrArg some (Prod.ext rfl hcopy)

end Rest

/-! ## All rounds -/

theorem Ended.cons {s s' : Merge n} {j : Fin (n + 1)} {x : Record} {xs : List Record}
    {bufsize : BitVec 32} {out : List (Fin (n + 1) × Record)}
    (h : Ended (Rest.after s j x xs bufsize) out s') : Ended s ((j, x) :: out) s' := by
  refine ⟨?_, ?_, ?_⟩
  · rw [h.ofp, flatMap_cons]
    exact append_assoc _ _ _
  · rw [h.lines, map_cons]
    simp [Rest.after]
  · have hdropped := h.dropped
    simp only [Rest.after, setWidth_signExtend] at hdropped
    have hlast : lastNumber (s.count.setWidth 32) ((j, x) :: out) = lastNumber x.sequence out := rfl
    have hlen : BitVec.ofNat 32 ((j, x) :: out).length = BitVec.ofNat 32 out.length + 1 := by
      rw [length_cons, BitVec.ofNat_add]
      rfl
    rw [hdropped, hlast, hlen]
    ring

/-- The loop empties the files; the induction is on how many records are left. -/
theorem loop_merges : ∀ (N : Nat) (s : Merge n) (q : Fin (n + 1) → List Record),
    ∑ i, (q i).length ≤ N → Rest s q → ∃ out, KMerge SignedLe q out ∧
      ∀ k, ∃ s', (Fits s.bufsize (lengths out) →
          s.loop (k + out.length + 1) = some (s', true) ∧ Ended s out s') ∧
        (¬ Fits s.bufsize (lengths out) → s.loop (k + out.length + 1) = some (s', false)) := by
  intro N
  induction N with
  | zero =>
    intro s q hN h
    have hq : ∀ i, q i = [] := fun i =>
      length_eq_zero_iff.mp (Finset.sum_eq_zero_iff.mp (le_zero.mp hN) i (Finset.mem_univ i))
    refine ⟨[], .done hq, fun k => ?_⟩
    obtain ⟨s', hloop, hofp, hlines, hdropped⟩ := h.loop_done hq k
    refine ⟨s', fun _ => ⟨hloop, ?_, ?_, ?_⟩, fun hnot => absurd trivial hnot⟩
    · simp [hofp]
    · simp [hlines]
    · simp [hdropped, lastNumber]
  | succ N ih =>
    intro s q hN h
    by_cases hq : ∀ i, q i = []
    · exact ih s q (by simp [hq]) h
    · obtain ⟨x, xs, hx, hmin, hne, hle⟩ := h.pick_cons hq
      have hsum : ∑ i, (update q s.pick.2 xs i).length ≤ N := by
        have hlt : ∑ i, (update q s.pick.2 xs i).length < ∑ i, (q i).length := by
          refine Finset.sum_lt_sum (fun i _ => ?_) ⟨s.pick.2, Finset.mem_univ _, ?_⟩
          · by_cases hi : i = s.pick.2
            · rw [hi, update_self, hx]
              exact le_succ _
            · rw [update_of_ne hi]
          · rw [update_self, hx]
            exact lt_succ_self _
        omega
      have hrest := fun b => ih _ _ hsum (h.after_rest s.pick.2 x xs b)
      by_cases hroom : 0 < x.payload.length ∧
          ∃ b, Merge.roomFor s.bufsize (BitVec.ofNat 32 x.payload.length) = some b
      · obtain ⟨hpos, b, hroom⟩ := hroom
        obtain ⟨out, hmerge, hloop⟩ := hrest b
        refine ⟨_, .take hx hle hmerge, fun k => ?_⟩
        obtain ⟨s', hfits, hnot⟩ := hloop k
        have hiff : Fits s.bufsize (lengths ((s.pick.2, x) :: out)) ↔ Fits b (lengths out) := by
          constructor
          · rintro ⟨-, b', hroom', hrest⟩
            obtain rfl := Option.some.inj (hroom.symm.trans hroom')
            exact hrest
          · exact fun hrest => ⟨hpos, b, hroom, hrest⟩
        rw [hiff, h.loop_copied hx hmin hne hpos hroom]
        exact ⟨s', fun hf => ⟨(hfits hf).1, (hfits hf).2.cons⟩, hnot⟩
      · obtain ⟨out, hmerge, -⟩ := hrest s.bufsize
        refine ⟨_, .take hx hle hmerge, fun k => ?_⟩
        obtain ⟨s', hloop⟩ := h.loop_failed hx (fun b hpos hb => hroom ⟨hpos, b, hb⟩) _
        refine ⟨s', fun hfits => absurd ?_ hroom, fun _ => hloop⟩
        obtain ⟨hpos, b, hb, -⟩ := hfits
        exact ⟨hpos, b, hb⟩

/-! ## The records in order -/

section InOrder

variable {files : Fin n → List Record}

theorem mem_records {i : Fin n} {x : Record} : (i, x) ∈ records files ↔ x ∈ files i := by
  simp [records]

theorem mem_inOrder {i : Fin n} {x : Record} : (i, x) ∈ inOrder files ↔ x ∈ files i :=
  (perm_insertionSort _ _).mem_iff.trans mem_records

theorem nodup_records (h : Increasing Record.number files) :
    (records files).Pairwise fun a b => a.2.number ≠ b.2.number := by
  refine pairwise_flatMap.mpr ⟨fun i _ => ?_, ?_⟩
  · exact pairwise_map.mpr ((h.pairwise i).imp fun hlt => hlt.ne)
  · refine (nodup_finRange n).imp fun hne => ?_
    intro a ha b hb heq
    obtain ⟨x, hx, rfl⟩ := mem_map.mp ha
    obtain ⟨y, hy, rfl⟩ := mem_map.mp hb
    exact hne (h.apart _ _ x y hx hy heq)

theorem pairwise_inOrder (h : Increasing Record.number files) :
    (inOrder files).Pairwise fun a b => a.2.number < b.2.number := by
  have hle : (inOrder files).Pairwise fun a b => a.2.number ≤ b.2.number :=
    haveI : Std.Total fun a b : Fin n × Record => a.2.number ≤ b.2.number :=
      ⟨fun a b => le_total _ _⟩
    haveI : IsTrans (Fin n × Record) fun a b => a.2.number ≤ b.2.number :=
      ⟨fun a b c => le_trans⟩
    pairwise_insertionSort _ _
  have hne : (inOrder files).Pairwise fun a b => a.2.number ≠ b.2.number :=
    (perm_insertionSort _ _).symm.pairwise (nodup_records h) fun hab => hab.symm
  exact hle.imp₂ (fun _ _ hab hab' => lt_of_le_of_ne hab hab') hne

/-- Two lists in order that have the same records are the same. -/
theorem eq_of_pairwise {l l' : List (Fin n × Record)}
    (hl : l.Pairwise fun a b => a.2.number < b.2.number)
    (hl' : l'.Pairwise fun a b => a.2.number < b.2.number) (hmem : ∀ a, a ∈ l ↔ a ∈ l') : l = l' :=
  haveI : Std.Antisymm fun a b : Fin n × Record => a.2.number < b.2.number :=
    ⟨fun _ _ hab hba => absurd hab hba.not_gt⟩
  haveI : Std.Irrefl fun a b : Fin n × Record => a.2.number < b.2.number :=
    ⟨fun _ => lt_irrefl _⟩
  hl.eq_of_mem_iff hl' hmem

theorem filter_inOrder (h : Increasing Record.number files) (i : Fin n) :
    (inOrder files).filter (·.1 = i) = (files i).map (i, ·) := by
  refine eq_of_pairwise ((pairwise_inOrder h).filter _) (pairwise_map.mpr (h.pairwise i)) ?_
  rintro ⟨k, x⟩
  rw [mem_filter, mem_inOrder, decide_eq_true_eq, mem_map]
  constructor
  · rintro ⟨hx, rfl⟩
    exact ⟨x, hx, rfl⟩
  · rintro ⟨y, hy, heq⟩
    obtain ⟨rfl, rfl⟩ := mk.inj heq
    exact ⟨hy, rfl⟩

theorem lastNumber_toNat (out : List (Fin n × Record)) (count : BitVec 32) :
    (lastNumber count out).toNat = (out.map fun a => a.2.number).getLastD count.toNat := by
  induction out generalizing count with
  | nil => rfl
  | cons a out ih =>
    rw [map_cons, getLastD_cons]
    exact ih a.2.sequence

/-- Of the numbers up to the last one of an increasing list, those that are not in it. -/
theorem card_missing {l : List Nat} (hl : l.Pairwise (· < ·)) (hpos : ∀ x ∈ l, 1 ≤ x) :
    (Finset.Ico 1 (l.toFinset.sup id) \ l.toFinset).card + l.length = l.getLastD 0 := by
  rcases eq_nil_or_concat l with rfl | ⟨l', L, rfl⟩
  · rfl
  · rw [concat_eq_append] at *
    have hlast : ∀ x ∈ l' ++ [L], x ≤ L := by
      intro x hx
      rcases mem_append.mp hx with hx | hx
      · exact ((pairwise_append.mp hl).2.2 x hx L (mem_singleton_self L)).le
      · exact (mem_singleton.mp hx).le
    have hL : L ∈ (l' ++ [L]).toFinset := by simp
    have hsup : (l' ++ [L]).toFinset.sup id = L := by
      refine le_antisymm (Finset.sup_le fun x hx => hlast x (mem_toFinset.mp hx)) ?_
      exact Finset.le_sup (f := id) hL
    have hsub : (l' ++ [L]).toFinset ⊆ Finset.Icc 1 L := fun x hx =>
      Finset.mem_Icc.mpr ⟨hpos x (mem_toFinset.mp hx), hlast x (mem_toFinset.mp hx)⟩
    -- the last number is not missing
    have hsdiff : Finset.Ico 1 L \ (l' ++ [L]).toFinset = Finset.Icc 1 L \ (l' ++ [L]).toFinset := by
      ext x
      simp only [Finset.mem_sdiff, Finset.mem_Ico, Finset.mem_Icc]
      refine ⟨fun hx => ⟨⟨hx.1.1, hx.1.2.le⟩, hx.2⟩, fun hx => ⟨⟨hx.1.1, ?_⟩, hx.2⟩⟩
      exact lt_of_le_of_ne hx.1.2 fun heq => hx.2 (heq ▸ hL)
    have hcard := Finset.card_le_card hsub
    have hnodup : (l' ++ [L]).Nodup := hl.imp fun hlt => hlt.ne
    rw [hsup, hsdiff, Finset.card_sdiff_of_subset hsub, card_Icc,
      toFinset_card_of_nodup hnodup, getLastD_concat]
    rw [card_Icc, toFinset_card_of_nodup hnodup] at hcard
    omega

theorem number_pos (x : Record) : 1 ≤ x.number := by
  refine Nat.pos_of_ne_zero fun h0 => x.sequence_pos ?_
  exact BitVec.eq_of_toNat_eq h0

/-- The records take up all numbers up to the last one but the missing ones. -/
theorem missing_add_length (h : Increasing Record.number files) :
    missing files + (inOrder files).length = (lastNumber 0 (inOrder files)).toNat := by
  have hnumbers : numbers files = ((inOrder files).map fun a => a.2.number).toFinset :=
    (toFinset_eq_of_perm _ _ ((perm_insertionSort _ _).map _)).symm
  have hcard := card_missing (l := (inOrder files).map fun a => a.2.number)
    (pairwise_map.mpr (pairwise_inOrder h)) (by
      intro x hx
      obtain ⟨a, -, rfl⟩ := mem_map.mp hx
      exact number_pos a.2)
  rw [length_map] at hcard
  rw [missing, hnumbers, hcard, lastNumber_toNat]
  rfl

end InOrder

/-- What the loop ends with if the records came in order. -/
theorem dropped_eq {files : Fin (n + 1) → List Record} (h : Increasing Record.number files)
    {s' : Merge n} (hend : Ended (start fun i => (files i).flatMap Record.bytes)
      (inOrder files) s') : s'.dropped = BitVec.ofNat 32 (missing files) := by
  have hcount := missing_add_length h
  have hdropped := hend.dropped
  rw [show (start fun i => (files i).flatMap Record.bytes).dropped = 0 from rfl,
    show (start fun i => (files i).flatMap Record.bytes).count.setWidth 32 = 0 from rfl]
    at hdropped
  have hlast : lastNumber 0 (inOrder files) =
      BitVec.ofNat 32 (missing files + (inOrder files).length) := by
    rw [hcount, BitVec.ofNat_toNat, BitVec.setWidth_eq]
  rw [hdropped, hlast, BitVec.ofNat_add]
  ring

theorem toInt_ofNat_eq_iff (k : Nat) : (BitVec.ofNat 32 k).toInt = k ↔ k < 2 ^ 31 := by
  refine ⟨fun h => ?_, toInt_ofNat_of_lt⟩
  have hlt := (BitVec.ofNat 32 k).toInt_lt
  omega

theorem number_eq_of_signedLe (x y : Record) (hxy : SignedLe x y) (hyx : SignedLe y x) :
    x.number = y.number :=
  congrArg BitVec.toNat (BitVec.eq_of_toInt_eq (le_antisymm hxy hyx))

theorem main_succ {outfile : Bool} {files : Fin (n + 1) → Str} {fuel : Nat} (hn : n + 1 ≤ nrCpus)
    {s : Merge n} {ok : Bool} (hloop : (start files).loop fuel = some (s, ok)) :
    main outfile files fuel = some (if ok then
      .done s.ofp s.lines (if outfile then some s.dropped.toInt else none) else .failed) := by
  rw [main, if_neg (not_lt.mpr hn), hloop]
  cases ok <;> rfl

/-- `stap_merge` puts the records in order and counts what is missing exactly if the report has
somewhere to go, there are files and not more than `NR_CPUS`, no file has a number above
`INT_MAX` at its head while another file has a smaller one, all records fit in the buffer, and
the count is an `int`. -/
theorem merges_iff (outfile : Bool) (files : Fin n → List Record)
    (h : Increasing Record.number files) :
    Merges outfile files ↔
      outfile = true ∧ 1 ≤ n ∧ n ≤ nrCpus ∧ HeldBack Record.number SignedLe files ∧
        Fits 65536 (lengths (inOrder files)) ∧ missing files < 2 ^ 31 := by
  cases n with
  | zero =>
    refine iff_of_false ?_ fun hright => absurd hright.2.1 (by decide)
    rintro ⟨F, hF⟩
    obtain ⟨lines, hmain, -⟩ := hF F le_rfl
    cases hmain
  | succ n =>
    by_cases hn : n + 1 ≤ nrCpus
    swap
    · refine iff_of_false ?_ fun hright => hn hright.2.2.1
      rintro ⟨F, hF⟩
      obtain ⟨lines, hmain, -⟩ := hF F le_rfl
      rw [main, if_pos (not_le.mp hn)] at hmain
      cases hmain
    · obtain ⟨out, hmerge, hloop⟩ := loop_merges _ (start fun i => (files i).flatMap Record.bytes)
        files le_rfl fun i => rfl
      have horder := hmerge.pairwise_iff h number_eq_of_signedLe
      constructor
      · rintro ⟨F, hF⟩
        obtain ⟨lines, hmain, htags⟩ := hF (F + out.length + 1) (by omega)
        obtain ⟨s', hfits, hnot⟩ := hloop F
        by_cases hf : Fits 65536 (lengths out)
        swap
        · rw [main_succ hn (hnot hf)] at hmain
          cases hmain
        · obtain ⟨hloop', hend⟩ := hfits hf
          rw [main_succ hn hloop', if_pos rfl, Option.some_inj, Exit.done.injEq] at hmain
          obtain ⟨-, rfl, hdrops⟩ := hmain
          -- the files were read in the right order, so the records were
          have hlines : out.map fst = (inOrder files).map fst := hend.lines.symm.trans htags
          obtain rfl := eq_of_tags_of_filter hlines fun i =>
            (hmerge.filter_eq i).trans (filter_inOrder h i).symm
          rw [dropped_eq h hend] at hdrops
          cases outfile with
          | false => cases hdrops
          | true =>
            refine ⟨rfl, succ_pos n, hn, horder.mp (pairwise_inOrder h), hf, ?_⟩
            exact (toInt_ofNat_eq_iff _).mp (Option.some.inj hdrops)
      · rintro ⟨rfl, -, -, hheld, hf, hmissing⟩
        obtain rfl := eq_of_pairwise (horder.mpr hheld) (pairwise_inOrder h) fun a =>
          hmerge.mem_iff.trans mem_inOrder.symm
        refine ⟨(inOrder files).length + 1, fun fuel hfuel => ?_⟩
        obtain ⟨k, rfl⟩ := Nat.exists_eq_add_of_le' hfuel
        obtain ⟨s', hfits, -⟩ := hloop k
        obtain ⟨hloop', hend⟩ := hfits hf
        refine ⟨s'.lines, ?_, hend.lines⟩
        rw [← add_assoc, main_succ hn hloop', if_pos rfl, hend.ofp, dropped_eq h hend,
          (toInt_ofNat_eq_iff _).mpr hmissing]
        rfl

/-- Two files with the numbers 1, 3 and 2. -/
def twoFiles (i : Fin 2) : List Record :=
  if i.val = 0 then [⟨1, [97], by decide, by decide⟩, ⟨3, [99], by decide, by decide⟩]
  else [⟨2, [98], by decide, by decide⟩]

theorem merges_twoFiles : Increasing Record.number twoFiles ∧ Merges true twoFiles := by
  have hpairwise : ∀ i, (twoFiles i).Pairwise fun x y => x.number < y.number := by decide
  have hapart : ∀ i j, ∀ x ∈ twoFiles i, ∀ y ∈ twoFiles j, x.number = y.number → i = j := by
    decide
  have h : Increasing Record.number twoFiles :=
    ⟨hpairwise, fun i j x y hx hy => hapart i j x hx y hy⟩
  refine ⟨h, (merges_iff true twoFiles h).mpr ⟨rfl, by decide, by decide, ?_, ?_, ?_⟩⟩
  · exact heldBack_of_lt (by decide)
  · exact fits_of_lt (by decide) _
  · decide +kernel

/-- One file has the number 1, and the other one the number `2 ^ 31`. -/
def wrappedFiles (i : Fin 2) : List Record :=
  if i.val = 0 then [⟨1, [97], by decide, by decide⟩]
  else [⟨0x80000000, [98], by decide, by decide⟩]

/-- The record with the number `2 ^ 31` is written first. -/
theorem not_merges_wrappedFiles :
    Increasing Record.number wrappedFiles ∧ ¬ Merges true wrappedFiles := by
  have hpairwise : ∀ i, (wrappedFiles i).Pairwise fun x y => x.number < y.number := by decide
  have hapart : ∀ i j, ∀ x ∈ wrappedFiles i, ∀ y ∈ wrappedFiles j, x.number = y.number → i = j := by
    decide
  refine ⟨⟨hpairwise, fun i j x y hx hy => hapart i j x hx y hy⟩, ?_⟩
  rintro ⟨F, hF⟩
  obtain ⟨lines, hmain, -⟩ := hF (F + 3) (by omega)
  have hrun : ∃ lines drops, main true (fun i => (wrappedFiles i).flatMap Record.bytes) (F + 3) =
      some (.done [98, 97] lines drops) := ⟨_, _, rfl⟩
  obtain ⟨lines', drops, hrun⟩ := hrun
  rw [hrun, Option.some_inj, Exit.done.injEq] at hmain
  exact absurd hmain.1 (by decide)

end Systemtap.Staprun
