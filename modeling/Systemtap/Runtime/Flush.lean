import Systemtap.Tree.Syntax

/-!
# Sending the print buffer in bulk mode

`stp_print_flush` of `print_flush.c` in a build with `STP_BULKMODE` and per-CPU headers. A flush
writes a record: `struct _stp_trace` with the sequence number and the length, and behind it the
bytes of the print buffer. Room in the channel is reserved for the header first, and then
for the bytes in as many pieces as it takes. A reservation can be refused, and it can be
granted for fewer bytes than were asked for.

If the header is refused nothing is written. If one of the pieces is refused, the record is
left as it is and the next flush writes its own header behind it.
-/

namespace Systemtap.Runtime

open Systemtap.Tree List

/-! ## The code -/

/-- `STP_BUFFER_SIZE` -/
def bufferSize : Nat := 8192

/-- An `int` or `uint32_t` in memory. -/
def intBytes (v : BitVec 32) : Str :=
  [UInt8.ofBitVec (v.extractLsb' 0 8), UInt8.ofBitVec (v.extractLsb' 8 8),
    UInt8.ofBitVec (v.extractLsb' 16 8), UInt8.ofBitVec (v.extractLsb' 24 8)]

/-- `struct _stp_trace` in memory. -/
def traceHeader (sequence pduLen : BitVec 32) : Str := intBytes sequence ++ intBytes pduLen

/-- A call of `stp_print_flush` on the CPU: what is in the buffer, whether the transport is
running, how often other CPUs have incremented `_stp_seq` since the last call, and what the
reservations grant in turn. A reservation beyond the list is refused. -/
structure FlushCall where
  buf : Str
  buf_le : buf.length ≤ bufferSize
  running : Bool
  others : Nat
  grants : List Nat

/-- The loop `while (len > 0)`: the bytes that are committed. -/
def commitLoop : List Nat → Str → Str
  | [], _ => []
  | g :: grants, bufp =>
    let bytesReserved := min g bufp.length
    if bytesReserved = 0 then []
    else bufp.take bytesReserved ++ commitLoop grants (bufp.drop bytesReserved)

/-- A record that has its header in the channel: the bytes of the header that there was room
for, and the bytes behind it. -/
structure Written where
  sequence : BitVec 32
  buf : Str
  headerRoom : Nat
  sent : Str

/-- The record as it should be. -/
def Written.record (w : Written) : Str :=
  traceHeader w.sequence (BitVec.ofNat 32 w.buf.length) ++ w.buf

/-- The record as it is in the channel. The header is copied whole, and the next piece goes to
the end of what was reserved. -/
def Written.committed (w : Written) : Str :=
  (traceHeader w.sequence (BitVec.ofNat 32 w.buf.length)).take w.headerRoom ++ w.sent

/-- `stp_print_flush`, with the value of `_stp_seq` -/
def printFlush (seq : BitVec 32) (c : FlushCall) : BitVec 32 × Option Written :=
  let seq := seq + BitVec.ofNat 32 c.others
  if c.buf.length = 0 then (seq, none)
  else if !c.running then (seq, none)
  else
    match c.grants with
    | [] => (seq + 1, none)
    | g :: grants =>
      let bytesReserved := min g 8
      if bytesReserved = 0 then (seq + 1, none)
      else (seq + 1, some ⟨seq + 1, c.buf, bytesReserved, commitLoop grants c.buf⟩)

/-- The records of a sequence of flushes. -/
def flushAll (seq : BitVec 32) : List FlushCall → List Written
  | [] => []
  | c :: cs => (printFlush seq c).2.toList ++ flushAll (printFlush seq c).1 cs

/-- The bytes in the channel of the CPU. -/
def channel (ws : List Written) : Str := ws.flatMap Written.committed

/-! ## Records -/

/-- All that was asked for was granted. -/
def Written.Complete (w : Written) : Prop := w.headerRoom = 8 ∧ w.sent = w.buf

instance (w : Written) : Decidable w.Complete := inferInstanceAs (Decidable (_ ∧ _))

/-- The channel has the records one after the other, up to what there is of the last one; that
may be a part of it only. -/
def Framed (ws : List Written) : Prop :=
  channel ws = ws.dropLast.flatMap Written.record ++ ws.getLast?.toList.flatMap Written.committed ∧
    ∀ w ∈ ws.getLast?, w.committed <+: w.record

/-- What `printFlush` makes. -/
structure Written.Ok (w : Written) : Prop where
  headerRoom_pos : 0 < w.headerRoom
  headerRoom_le : w.headerRoom ≤ 8
  sent_le : w.sent.length ≤ w.buf.length
  buf_pos : 0 < w.buf.length
  buf_le : w.buf.length ≤ bufferSize
  eq_of_length : w.sent.length = w.buf.length → w.sent = w.buf

theorem length_intBytes (v : BitVec 32) : (intBytes v).length = 4 := rfl

theorem length_traceHeader (s l : BitVec 32) : (traceHeader s l).length = 8 := rfl

theorem commitLoop_isPrefix (grants : List Nat) : ∀ bufp, commitLoop grants bufp <+: bufp := by
  induction grants with
  | nil => exact fun bufp => nil_prefix
  | cons g grants ih =>
    intro bufp
    rw [commitLoop]
    by_cases hr : min g bufp.length = 0
    · rw [if_pos hr]
      exact nil_prefix
    · rw [if_neg hr]
      have h := (prefix_append_right_inj (bufp.take (min g bufp.length))).2
        (ih (bufp.drop (min g bufp.length)))
      rwa [take_append_drop] at h

/-- If every reservation is granted in full, all is committed. -/
theorem commitLoop_full {g : Nat} {grants : List Nat} {bufp : Str} (h : bufp.length ≤ g) :
    commitLoop (g :: grants) bufp = bufp := by
  rw [commitLoop, min_eq_right h]
  by_cases hr : bufp.length = 0
  · rw [if_pos hr, length_eq_zero_iff.1 hr]
  · rw [if_neg hr, take_length, drop_length]
    cases grants with
    | nil => exact append_nil _
    | cons g' grants => rw [commitLoop, length_nil, Nat.min_zero, if_pos rfl, append_nil]

theorem printFlush_ok {seq : BitVec 32} {c : FlushCall} {w : Written}
    (h : (printFlush seq c).2 = some w) : w.Ok := by
  unfold printFlush at h
  by_cases hlen : c.buf.length = 0
  · rw [if_pos hlen] at h
    cases h
  rw [if_neg hlen] at h
  by_cases hrun : (!c.running) = true
  · rw [if_pos hrun] at h
    cases h
  rw [if_neg hrun] at h
  cases hg : c.grants with
  | nil =>
    rw [hg] at h
    cases h
  | cons g grants =>
    rw [hg] at h
    dsimp only at h
    by_cases hr : min g 8 = 0
    · rw [if_pos hr] at h
      cases h
    rw [if_neg hr] at h
    obtain rfl := Option.some.inj h
    have hsent := commitLoop_isPrefix grants c.buf
    exact ⟨Nat.pos_of_ne_zero hr, min_le_right _ _, hsent.length_le, Nat.pos_of_ne_zero hlen,
      c.buf_le, hsent.eq_of_length⟩

theorem flushAll_ok (cs : List FlushCall) : ∀ seq, ∀ w ∈ flushAll seq cs, w.Ok := by
  induction cs with
  | nil => exact fun _ w hw => absurd hw not_mem_nil
  | cons c cs ih =>
    intro seq w hw
    rw [flushAll, mem_append, Option.mem_toList] at hw
    rcases hw with hw | hw
    · exact printFlush_ok hw
    · exact ih _ w hw

namespace Written

variable {w : Written}

theorem length_record (w : Written) : w.record.length = 8 + w.buf.length := by
  rw [record, length_append, length_traceHeader]

theorem Ok.length_committed (h : w.Ok) : w.committed.length = w.headerRoom + w.sent.length := by
  rw [committed, length_append, length_take, length_traceHeader,
    min_eq_left h.headerRoom_le]

theorem Ok.length_le (h : w.Ok) : w.committed.length ≤ w.record.length := by
  rw [h.length_committed, length_record]
  exact Nat.add_le_add h.headerRoom_le h.sent_le

theorem Complete.committed_eq (h : w.Complete) : w.committed = w.record := by
  rw [committed, record, h.1, h.2, take_of_length_le (length_traceHeader _ _).le]

/-- A record in the channel is complete if it is long enough. -/
theorem Ok.complete_of_length (h : w.Ok) (hlen : w.committed.length = w.record.length) :
    w.Complete := by
  have hle := h.headerRoom_le
  have hsent := h.sent_le
  rw [h.length_committed, length_record] at hlen
  exact ⟨by omega, h.eq_of_length (by omega)⟩

end Written

variable {ws : List Written}

/-- The lengths tell whether the records are complete. -/
theorem complete_of_length (hok : ∀ w ∈ ws, w.Ok)
    (hlen : (ws.flatMap Written.record).length ≤ (channel ws).length) : ∀ w ∈ ws, w.Complete := by
  induction ws with
  | nil => exact fun w hw => absurd hw not_mem_nil
  | cons w ws ih =>
    have hw := hok w mem_cons_self
    have hws := fun w' hw' => hok w' (mem_cons_of_mem w hw')
    have hrest : (channel ws).length ≤ (ws.flatMap Written.record).length := by
      unfold channel
      rw [length_flatMap, length_flatMap]
      exact sum_le_sum fun w' hw' => (hws w' hw').length_le
    have hle := hw.length_le
    unfold channel at hlen hrest ih
    rw [flatMap_cons, flatMap_cons, length_append, length_append] at hlen
    intro w' hw'
    rcases mem_cons.1 hw' with rfl | hw'
    · exact hw.complete_of_length (by omega)
    · exact ih hws (by omega) w' hw'

theorem channel_of_complete (h : ∀ w ∈ ws, w.Complete) : channel ws = ws.flatMap Written.record :=
  flatMap_congr fun w hw => (h w hw).committed_eq

/-- The channel is framed exactly if every record but the last one is complete, and what there
is of the last one begins it. -/
theorem framed_iff (hok : ∀ w ∈ ws, w.Ok) :
    Framed ws ↔ (∀ w ∈ ws.dropLast, w.Complete) ∧ ∀ w ∈ ws.getLast?, w.committed <+: w.record := by
  refine and_congr_left fun _ => ?_
  rcases eq_nil_or_concat ws with rfl | ⟨ws, w, rfl⟩
  · exact iff_of_true rfl fun w hw => absurd hw not_mem_nil
  · have hws : ∀ w' ∈ ws, w'.Ok := fun w' hw' => hok w' (by simp [hw'])
    have hchannel : channel (ws ++ [w]) = channel ws ++ w.committed := by
      unfold channel
      rw [flatMap_append, flatMap_singleton]
    rw [concat_eq_append, dropLast_concat, getLast?_concat, hchannel,
      Option.toList_some, flatMap_singleton, append_left_inj]
    constructor
    · intro heq
      exact complete_of_length hws (congrArg length heq).ge
    · exact channel_of_complete

end Systemtap.Runtime
