import Systemtap.Runtime.Flush

/-!
# Reading the streams back

The loop of `stap_merge`, which puts the records of the per-CPU files in order. The sequence
number of the next record of every file is read ahead; the record with the least one is
copied. A number 0 stands for the end of a file.

For one file the loop is the reader of what `stp_print_flush` writes on one CPU.
-/

namespace Systemtap.Staprun

open Systemtap.Tree Systemtap.Runtime Function List Written

/-! ## The code -/

/-- `fread (.., size, 1, fp)`: the item if all of it is there, and what is left to read. -/
def fread (size : Nat) (fp : Str) : Option Str × Str :=
  if size = 0 then (none, fp)
  else if size ≤ fp.length then (some (fp.take size), fp.drop size)
  else (none, [])

/-- `*((int *)buf)` -/
def intAt (buf : Str) : BitVec 32 :=
  BitVec.ofNat 32 ((buf.getD 0 0).toNat + 256 * (buf.getD 1 0).toNat + 65536 * (buf.getD 2 0).toNat +
    16777216 * (buf.getD 3 0).toNat)

/-- The variables of `main`, for `n + 1` files, and the lines `[CPU:%d, seq=%ld, length=%d]` that
`-v` prints. -/
structure Merge (n : Nat) where
  num : Fin (n + 1) → BitVec 64
  fp : Fin (n + 1) → Str
  bufsize : BitVec 32
  count : BitVec 64
  dropped : BitVec 32
  ofp : Str
  lines : List (Fin (n + 1) × BitVec 64 × BitVec 32)

/-- Reads a sequence number. -/
def readNum (fp : Str) : BitVec 64 × Str :=
  match fread 4 fp with
  | (some buf, fp) => ((intAt buf).signExtend 64, fp)
  | (none, fp) => (0, fp)

namespace Merge

variable {n : Nat}

/-- The state before the loop. -/
def start (files : Fin (n + 1) → Str) : Merge n where
  num i := (readNum (files i)).1
  fp i := (readNum (files i)).2
  bufsize := 65536
  count := 0
  dropped := 0
  ofp := []
  lines := []

/-- The `for` loop that finds `min` and `j`. -/
def pick (s : Merge n) : BitVec 64 × Fin (n + 1) :=
  (List.finRange (n + 1)).tail.foldl
    (fun r i => if r.1 = 0 ∨ s.num i ≠ 0 ∧ (s.num i).slt r.1 then (s.num i, i) else r) (s.num 0, 0)

/-- `if (len > bufsize) bufsize = len * 2`: the size of the buffer that is to hold `len` bytes. The
product must be an `int`; the memory is taken to be there. -/
def roomFor (bufsize len : BitVec 32) : Option (BitVec 32) :=
  -- not greater than `bufsize`, but as a `size_t` greater than any buffer
  if len.slt 0 then none
  else if bufsize.slt len then
    if len.toInt * 2 < 2 ^ 31 then some (len * 2) else none
  else some bufsize

/-- Copies the bytes of a record; `false` stands for `exit`. -/
def copy (s : Merge n) (min : BitVec 64) (j : Fin (n + 1)) : Merge n × Bool :=
  match fread 4 (s.fp j) with
  | (none, fp) => ({ s with fp := Function.update s.fp j fp }, true)
  | (some buf, fp) =>
    let len := intAt buf
    let s := { s with lines := s.lines ++ [(j, min, len)] }
    match roomFor s.bufsize len with
    | none => ({ s with fp := Function.update s.fp j fp }, false)
    | some bufsize =>
      -- the length is an `int`, and the size a `size_t`
      match fread (len.signExtend 64).toNat fp with
      | (none, fp) => ({ s with fp := Function.update s.fp j fp }, false)
      | (some buf, fp) =>
        ({ s with fp := Function.update s.fp j fp, bufsize := bufsize, ofp := s.ofp ++ buf }, true)

/-- `if (min && ++count != min)` -/
def tally (s : Merge n) (min : BitVec 64) : Merge n :=
  if min = 0 then s
  else if s.count + 1 = min then { s with count := s.count + 1 }
  else { s with dropped := s.dropped + (min - (s.count + 1)).setWidth 32, count := min }

/-- The next sequence number of the file. -/
def next (s : Merge n) (j : Fin (n + 1)) : Merge n :=
  { s with
    num := Function.update s.num j (readNum (s.fp j)).1
    fp := Function.update s.fp j (readNum (s.fp j)).2 }

/-- The loop `do .. while (min)`. -/
def loop : Nat → Merge n → Option (Merge n × Bool)
  | 0, _ => none
  | fuel + 1, s =>
    let m := s.pick
    let r := s.copy m.1 m.2
    if r.2 then
      let s := (r.1.tally m.1).next m.2
      if m.1 = 0 then some (s, true) else loop fuel s
    else some r

end Merge

/-! ## One file -/

theorem intAt_intBytes (v : BitVec 32) : intAt (intBytes v) = v := by
  apply BitVec.eq_of_toNat_eq
  simp only [intAt, intBytes, getD_cons_zero, getD_cons_succ, UInt8.toNat_ofBitVec,
    BitVec.extractLsb'_toNat, BitVec.toNat_ofNat, Nat.shiftRight_eq_div_pow]
  omega

theorem fread_append {size : Nat} {item rest : Str} (hlen : item.length = size) (hpos : 0 < size) :
    fread size (item ++ rest) = (some item, rest) := by
  subst hlen
  rw [fread, if_neg (by omega), if_pos (by rw [length_append]; omega), take_left,
    drop_left]

theorem fread_short {size : Nat} {fp : Str} (h : fp.length < size) : fread size fp = (none, []) := by
  rw [fread, if_neg (by omega), if_neg (by omega)]

theorem signExtend_eq_zero_iff (v : BitVec 32) : v.signExtend 64 = 0 ↔ v = 0 := by
  constructor
  · intro h
    have hint := congrArg BitVec.toInt h
    rw [BitVec.toInt_signExtend_of_le (by decide)] at hint
    exact BitVec.eq_of_toInt_eq hint
  · rintro rfl
    rfl

theorem toNat_signExtend_ofNat {len : Nat} (h : len < 2 ^ 31) :
    ((BitVec.ofNat 32 len).signExtend 64).toNat = len := by
  have hmsb : (BitVec.ofNat 32 len).msb = false := by
    rw [BitVec.msb_eq_false_iff_two_mul_lt, BitVec.toNat_ofNat]
    omega
  rw [BitVec.signExtend_eq_setWidth_of_msb_false hmsb, BitVec.toNat_setWidth, BitVec.toNat_ofNat]
  omega

theorem toInt_ofNat_of_lt {l : Nat} (h : l < 2 ^ 31) : (BitVec.ofNat 32 l).toInt = l := by
  have hnat : (BitVec.ofNat 32 l).toNat = l := by
    rw [BitVec.toNat_ofNat]
    omega
  rw [BitVec.toInt_eq_toNat_of_lt (by omega), hnat]

theorem readNum_header (seq len : BitVec 32) (rest : Str) :
    readNum (traceHeader seq len ++ rest) = (seq.signExtend 64, intBytes len ++ rest) := by
  unfold readNum traceHeader
  rw [append_assoc, fread_append (length_intBytes seq) (by decide)]
  dsimp only
  rw [intAt_intBytes]

namespace Merge

theorem loop_succ (fuel : Nat) (s : Merge 0) :
    s.loop (fuel + 1) =
      if (s.copy (s.num 0) 0).2 then
        if s.num 0 = 0 then some ((((s.copy (s.num 0) 0).1.tally (s.num 0)).next 0), true)
        else loop fuel (((s.copy (s.num 0) 0).1.tally (s.num 0)).next 0)
      else some (s.copy (s.num 0) 0) := rfl

theorem tally_fp {n : Nat} (s : Merge n) (min : BitVec 64) : (s.tally min).fp = s.fp := by
  unfold tally
  split
  · rfl
  · split <;> rfl

theorem tally_ofp {n : Nat} (s : Merge n) (min : BitVec 64) : (s.tally min).ofp = s.ofp := by
  unfold tally
  split
  · rfl
  · split <;> rfl

/-- A record that is there whole is copied if the buffer has room for it. -/
theorem copy_record {n : Nat} {s : Merge n} {j : Fin (n + 1)} {buf rest : Str}
    {bufsize : BitVec 32} (min : BitVec 64) (hpos : 0 < buf.length) (hlt : buf.length < 2 ^ 31)
    (hroom : roomFor s.bufsize (BitVec.ofNat 32 buf.length) = some bufsize)
    (hfp : s.fp j = intBytes (BitVec.ofNat 32 buf.length) ++ (buf ++ rest)) :
    s.copy min j =
      ({ s with
        lines := s.lines ++ [(j, min, BitVec.ofNat 32 buf.length)]
        fp := update s.fp j rest
        bufsize := bufsize
        ofp := s.ofp ++ buf }, true) := by
  unfold copy
  rw [hfp, fread_append (length_intBytes _) (by decide)]
  dsimp only
  rw [intAt_intBytes, hroom]
  dsimp only
  rw [toNat_signExtend_ofNat hlt, fread_append rfl hpos]

/-- There is room for less than half of what an `int` can count. -/
theorem roomFor_of_lt {len : Nat} (h : len < 2 ^ 30) (bufsize : BitVec 32) :
    ∃ b, roomFor bufsize (BitVec.ofNat 32 len) = some b := by
  have hint := toInt_ofNat_of_lt (l := len) (by omega)
  have hneg : ¬ (BitVec.ofNat 32 len).slt 0 := by
    rw [BitVec.slt_iff_toInt_lt, hint]
    exact not_lt.mpr (Int.natCast_nonneg len)
  unfold roomFor
  rw [if_neg hneg, hint, if_pos (show (len : Int) * 2 < 2 ^ 31 by omega)]
  split
  · exact ⟨_, rfl⟩
  · exact ⟨_, rfl⟩

/-- What is left of a file without a length in it is nothing. -/
theorem loop_short {s : Merge 0} (h : (s.fp 0).length < 4) (fuel : Nat) :
    ∃ r, s.loop (fuel + 2) = some r ∧ r.1.ofp = s.ofp := by
  have hcopy : ∀ s : Merge 0, (s.fp 0).length < 4 →
      s.copy (s.num 0) 0 = ({ s with fp := update s.fp 0 [] }, true) := by
    intro s h
    unfold copy
    rw [fread_short h]
  rw [loop_succ, hcopy s h, if_pos rfl]
  by_cases hnum : s.num 0 = 0
  · rw [if_pos hnum]
    exact ⟨_, rfl, tally_ofp _ _⟩
  · rw [if_neg hnum]
    -- the file is at its end
    generalize hs' : next (tally { s with fp := update s.fp 0 [] } (s.num 0)) 0 = s'
    have hfp : (s'.fp 0).length < 4 := by
      subst hs'
      simp [next, tally_fp, readNum, fread]
    have hnum' : s'.num 0 = 0 := by
      subst hs'
      simp [next, tally_fp, readNum, fread]
    have hofp : s'.ofp = s.ofp := by
      subst hs'
      exact tally_ofp _ _
    rw [loop_succ, hcopy s' hfp, if_pos rfl, if_pos hnum']
    exact ⟨_, rfl, (tally_ofp _ _).trans hofp⟩

end Merge

/-- The records that are read: nothing is read behind one with the number 0. -/
def untilZero : List Written → List Written
  | [] => []
  | w :: ws => w :: if w.sequence = 0 then [] else untilZero ws

/-- A part of a record: at most the header, or the header and not all of what it announces. -/
def PartOfRecord (part : Str) : Prop :=
  part.length < 8 ∨ ∃ (seq : BitVec 32) (len : Nat) (sent : Str),
    part = traceHeader seq (BitVec.ofNat 32 len) ++ sent ∧ sent.length < len ∧ len ≤ bufferSize

/-- The reader copies the records one by one; the induction is on those that are complete. -/
theorem loop_decodes {part : Str} (hpart : PartOfRecord part) (ws : List Written)
    (hok : ∀ w ∈ ws, w.Ok) :
    ∀ s : Merge 0, (s.num 0, s.fp 0) = readNum (ws.flatMap record ++ part) →
      ∃ F, ∀ k, ∃ r, s.loop (k + F) = some r ∧ r.1.ofp = s.ofp ++ (untilZero ws).flatMap buf := by
  induction ws with
  | nil =>
    intro s hs
    rw [flatMap_nil, nil_append] at hs
    simp only [untilZero, flatMap_nil, append_nil]
    rcases hpart with hshort | ⟨seq, len, sent, rfl, hsent, hlen⟩
    · have hfp : (s.fp 0).length < 4 := by
        rw [show s.fp 0 = (readNum part).2 from congrArg Prod.snd hs]
        unfold readNum
        by_cases h4 : 4 ≤ part.length
        · rw [fread, if_neg (by decide), if_pos h4]
          rw [length_drop]
          omega
        · rw [fread_short (by omega)]
          decide
      exact ⟨2, Merge.loop_short hfp⟩
    · rw [readNum_header] at hs
      refine ⟨1, fun k => ?_⟩
      have hcopy : (s.copy (s.num 0) 0).2 = false ∧ (s.copy (s.num 0) 0).1.ofp = s.ofp := by
        obtain ⟨bufsize, hroom⟩ := Merge.roomFor_of_lt (lt_of_le_of_lt hlen (by decide)) s.bufsize
        unfold Merge.copy
        rw [(Prod.mk.inj hs).2, fread_append (length_intBytes _) (by decide)]
        dsimp only
        rw [intAt_intBytes, hroom]
        dsimp only
        unfold bufferSize at hlen
        rw [toNat_signExtend_ofNat (by omega), fread_short hsent]
        exact ⟨rfl, rfl⟩
      rw [Merge.loop_succ, hcopy.1, if_neg Bool.false_ne_true]
      exact ⟨_, rfl, hcopy.2⟩
  | cons w ws ih =>
    intro s hs
    have hw := hok w mem_cons_self
    rw [flatMap_cons, append_assoc, record, append_assoc, readNum_header] at hs
    obtain ⟨hnum, hfp⟩ := Prod.mk.inj hs
    obtain ⟨bufsize, hroom⟩ := Merge.roomFor_of_lt (lt_of_le_of_lt hw.buf_le (by decide)) s.bufsize
    have hlt : w.buf.length < 2 ^ 31 := lt_of_le_of_lt hw.buf_le (by decide)
    have hcopy := Merge.copy_record (s.num 0) hw.buf_pos hlt hroom hfp
    generalize hs' : Merge.next (Merge.tally (s.copy (s.num 0) 0).1 (s.num 0)) 0 = s'
    have hofp : s'.ofp = s.ofp ++ w.buf := by
      subst hs'
      rw [hcopy]
      exact Merge.tally_ofp _ _
    have hstep : ∀ fuel, s.loop (fuel + 1) = if s.num 0 = 0 then some (s', true) else s'.loop fuel := by
      intro fuel
      rw [Merge.loop_succ, hs', hcopy, if_pos rfl]
    by_cases hseq : w.sequence = 0
    · refine ⟨1, fun k => ?_⟩
      rw [hstep, if_pos (hnum.trans ((signExtend_eq_zero_iff _).2 hseq))]
      refine ⟨_, rfl, ?_⟩
      rw [untilZero, if_pos hseq, flatMap_singleton]
      exact hofp
    · have hnext : (s'.num 0, s'.fp 0) = readNum (ws.flatMap record ++ part) := by
        subst hs'
        rw [hcopy]
        simp [Merge.next, Merge.tally_fp]
      obtain ⟨F, hF⟩ := ih (fun w' hw' => hok w' (mem_cons_of_mem w hw')) s' hnext
      refine ⟨F + 1, fun k => ?_⟩
      obtain ⟨r, hr, hout⟩ := hF k
      rw [← Nat.add_assoc, hstep, if_neg fun h0 => hseq ((signExtend_eq_zero_iff _).1 (hnum.symm.trans h0))]
      refine ⟨r, hr, ?_⟩
      rw [hout, hofp, untilZero, if_neg hseq, flatMap_cons, append_assoc]

/-! ## What a CPU writes -/

/-- The reader ends on the channel of a CPU and has the bytes of every complete record. -/
def Decodes (ws : List Written) : Prop :=
  ∃ F, ∀ fuel, F ≤ fuel → ∃ r, (Merge.start fun _ : Fin 1 => channel ws).loop fuel = some r ∧
    r.1.ofp = (ws.filter fun w => w.Complete).flatMap buf

variable {ws : List Written}

/-- The reader misses nothing exactly if no number is 0 but the last one. -/
theorem untilZero_eq_iff (hok : ∀ w ∈ ws, w.Ok) :
    (untilZero ws).flatMap buf = ws.flatMap buf ↔
      ∀ w ∈ ws.dropLast, w.sequence ≠ 0 := by
  induction ws with
  | nil => exact iff_of_true rfl fun w hw => absurd hw not_mem_nil
  | cons w ws ih =>
    have hih := ih fun w' hw' => hok w' (mem_cons_of_mem w hw')
    rw [untilZero, flatMap_cons, flatMap_cons, append_right_inj]
    cases ws with
    | nil =>
      refine iff_of_true ?_ fun w hw => absurd hw not_mem_nil
      rw [untilZero, ite_self]
    | cons w' ws =>
      rw [dropLast_cons_cons, forall_mem_cons]
      by_cases hseq : w.sequence = 0
      · -- the bytes of the next record are missing
        have hpos := (hok w' (mem_cons_of_mem w mem_cons_self)).buf_pos
        rw [if_pos hseq]
        refine iff_of_false (fun heq => ?_) fun h => h.1 hseq
        have hlen := congrArg length heq
        rw [flatMap_nil, flatMap_cons, length_append, length_nil] at hlen
        omega
      · rw [if_neg hseq, hih]
        exact ⟨fun h => ⟨hseq, h⟩, fun h => h.2⟩

/-- A record that is begun and not complete. -/
theorem partOfRecord_committed {w : Written} (hw : w.Ok) (hpart : w.committed <+: w.record)
    (hnot : ¬ w.Complete) : PartOfRecord w.committed := by
  by_cases hlen : w.committed.length < 8
  · exact .inl hlen
  · refine .inr ⟨w.sequence, w.buf.length, w.committed.drop 8, ?_, ?_, hw.buf_le⟩
    · have htake : w.committed.take 8 = traceHeader w.sequence (BitVec.ofNat 32 w.buf.length) := by
        rw [prefix_iff_eq_take.1 hpart, take_take, min_eq_left (by omega), record,
          take_left' (length_traceHeader _ _)]
      rw [← htake, take_append_drop]
    · have hle := hw.length_le
      have hne : w.committed.length ≠ w.record.length := fun h => hnot (hw.complete_of_length h)
      rw [length_record] at hle hne
      rw [length_drop]
      omega

/-- The complete records of a framed channel, and what is behind them. -/
theorem framed_split (hok : ∀ w ∈ ws, w.Ok) (h : Framed ws) :
    ∃ part, PartOfRecord part ∧
      channel ws = (ws.filter fun w => w.Complete).flatMap record ++ part := by
  obtain ⟨hcomplete, hlast⟩ := (framed_iff hok).1 h
  have hchannel := h.1
  rcases eq_nil_or_concat ws with rfl | ⟨ws, w, rfl⟩
  · exact ⟨[], .inl (by decide), rfl⟩
  · rw [concat_eq_append] at *
    rw [dropLast_concat] at hcomplete hchannel
    rw [getLast?_concat, Option.toList_some, flatMap_singleton] at hchannel
    have hfilter : ws.filter (fun w => w.Complete) = ws :=
      filter_eq_self.2 fun w' hw' => decide_eq_true (hcomplete w' hw')
    rw [hchannel, filter_append, hfilter]
    by_cases hw : w.Complete
    · refine ⟨[], .inl (by decide), ?_⟩
      rw [filter_singleton, decide_eq_true hw, cond_true, flatMap_append,
        flatMap_singleton, hw.committed_eq, append_nil]
    · refine ⟨w.committed, partOfRecord_committed (hok w (by simp)) (hlast w (by simp)) hw, ?_⟩
      rw [filter_singleton, decide_eq_false hw, cond_false, append_nil]

/-- The reader gets the bytes of the complete records exactly if none of them has the number 0
but the last one. -/
theorem decodes_iff (hok : ∀ w ∈ ws, w.Ok) (h : Framed ws) :
    Decodes ws ↔ ∀ w ∈ (ws.filter fun w => w.Complete).dropLast, w.sequence ≠ 0 := by
  obtain ⟨part, hpart, hchannel⟩ := framed_split hok h
  have hok' : ∀ w ∈ ws.filter fun w => w.Complete, w.Ok := fun w hw => hok w (mem_of_mem_filter hw)
  obtain ⟨F, hF⟩ := loop_decodes hpart _ hok' (Merge.start fun _ : Fin 1 => channel ws)
    (by rw [← hchannel]; rfl)
  rw [← untilZero_eq_iff hok']
  constructor
  · rintro ⟨F', hF'⟩
    obtain ⟨r, hr, hout⟩ := hF F'
    obtain ⟨r', hr', hout'⟩ := hF' (F' + F) (Nat.le_add_right _ _)
    rw [hr, Option.some_inj] at hr'
    subst hr'
    rw [hout] at hout'
    exact hout'
  · intro heq
    refine ⟨F, fun fuel hfuel => ?_⟩
    obtain ⟨k, rfl⟩ := Nat.exists_eq_add_of_le' hfuel
    obtain ⟨r, hr, hout⟩ := hF k
    exact ⟨r, hr, hout.trans heq⟩

/-- The header of the first flush is granted and its byte is not; the second flush has all it
needs. -/
def tornCalls : List FlushCall :=
  [⟨[65], by decide, true, 0, [8]⟩, ⟨[66], by decide, true, 0, [8, 1]⟩]

end Systemtap.Staprun
