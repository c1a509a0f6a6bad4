import Systemtap.Runtime.Format

/-!
# The print buffer

The functions of `print.c` that put output into the print buffer of a CPU. Each of them looks for
room in its own way, and sends the buffer when there is not enough. `_stp_print_binary` and
`_stp_printf` reserve the bytes they need first; `_stp_print` starts to copy, and starts again
in an empty buffer when it does not come to the end; `_stp_print_char` leaves the last byte of the
buffer unused.

`_stp_print_binary` writes 127 numbers at most, and a count below zero makes it take bytes from
the buffer.
-/

namespace Systemtap.Runtime

open Systemtap.Tree Systemtap.Lex Function List Nat

/-! ## The code -/

/-- `_stp_pbuf`; the memory goes on behind the buffer. -/
structure Pbuf where
  len : BitVec 32
  buf : Nat → UInt8

/-- The bytes that are in the buffer. -/
def Pbuf.contents (pb : Pbuf) : Str := (List.range pb.len.toNat).map pb.buf

/-- The print buffer, and what every flush has handed to the transport. -/
structure Printer where
  pb : Pbuf
  sent : List Str

namespace Printer

/-- `stp_print_flush`, with a transport that grants all that is asked for -/
def flush (s : Printer) : Printer :=
  if s.pb.len = 0 then s
  else ⟨{ s.pb with len := 0 }, s.sent ++ [commitLoop [s.pb.contents.length] s.pb.contents]⟩

/-- `int size = STP_BUFFER_SIZE - pb->len` -/
def room (s : Printer) : I32 := BitVec.ofNat 32 bufferSize - s.pb.len

/-- `_stp_reserve_bytes`: the offset of the reserved bytes in the buffer -/
def reserveBytes (s : Printer) (numbytes : I32) : Printer × Option Nat :=
  if numbytes = 0 ∨ (BitVec.ofNat 32 bufferSize).slt numbytes then (s, none)
  else
    let s := if s.room.slt numbytes then s.flush else s
    ({ s with pb := { s.pb with len := s.pb.len + numbytes } }, some s.pb.len.toNat)

/-- `STP_MAXBINARYARGS` -/
def maxBinaryArgs : I32 := 127

/-- Writes bytes to the memory of the buffer. -/
def write (s : Printer) (start : Nat) (bytes : Str) : Printer :=
  { s with pb := { s.pb with buf := (Out.pokes ⟨s.pb.buf, start⟩ bytes).mem } }

/-- Argument number `i` of `_stp_print_binary`. -/
def binaryArg (args : List I64) (i : Nat) : Str := numBytesAt (args.getD i 0) 8

/-- `_stp_print_binary` -/
def printBinary (s : Printer) (num : I32) (args : List I64) : Printer :=
  let num := if maxBinaryArgs.slt num then maxBinaryArgs else num
  let r := s.reserveBytes (num * 8)
  match r.2 with
  | none => r.1
  | some start => r.1.write start ((List.range num.toInt.toNat).flatMap (binaryArg args))

/-- The loop `while (ptr < end && *instr)`. -/
def copyLoop : Str → Out → Out × Str
  | [], o => (o, [])
  | c :: instr, o => if o.str < bufferSize then copyLoop instr (o.poke c) else (o, c :: instr)

/-- `_stp_print` -/
def print (s : Printer) (str : Str) : Printer :=
  let r := copyLoop (cString str) ⟨s.pb.buf, s.pb.len.toNat⟩
  if r.2.isEmpty then { s with pb := ⟨BitVec.ofNat 32 r.1.str, r.1.mem⟩ }
  else
    let s := ({ s with pb := { s.pb with buf := r.1.mem } } : Printer).flush
    let r := copyLoop (cString str) ⟨s.pb.buf, s.pb.len.toNat⟩
    { s with pb := ⟨BitVec.ofNat 32 r.1.str, r.1.mem⟩ }

/-- `_stp_print_char` -/
def printChar (s : Printer) (c : UInt8) : Printer :=
  let s := if s.room.sle 1 then s.flush else s
  { s with pb := ⟨s.pb.len + 1, Function.update s.pb.buf s.pb.len.toNat c⟩ }

/-- `_stp_printf` -/
def printf (s : Printer) (fmt : Str) (args : List Arg) : Printer :=
  let ps := pieces fmt args
  if numBytes ps = 0 then s
  else
    let size := min (numBytes ps) bufferSize
    let r := s.reserveBytes (BitVec.ofNat 32 size)
    match r.2 with
    | none => r.1
    | some start =>
      { r.1 with pb := { r.1.pb with buf := (emitAll (start + size) size ⟨r.1.pb.buf, start⟩ ps).mem } }

end Printer

/-- A call on the print buffer. -/
inductive PrintCall where
  | print (str : Str)
  | char (c : UInt8)
  | binary (num : I32) (args : List I64)
  | printf (fmt : Str) (args : List Arg)
  | flush

/-- One call. -/
def Printer.exec (s : Printer) : PrintCall → Printer
  | .print str => s.print str
  | .char c => s.printChar c
  | .binary num args => s.printBinary num args
  | .printf fmt args => s.printf fmt args
  | .flush => s.flush

/-- What a call is to add to the output. -/
def PrintCall.item : PrintCall → Str
  | .print str => cString str
  | .char c => [c]
  | .binary num args => (List.range num.toInt.toNat).flatMap (Printer.binaryArg args)
  | .printf fmt args => outputAll bufferSize (pieces fmt args)
  | .flush => []

/-- The calls in turn. -/
def Printer.run (s : Printer) (calls : List PrintCall) : Printer := calls.foldl Printer.exec s

/-! ## What it is for -/

/-- What was sent and what is in the buffer are whole items: every flush has sent some of them,
in order, and the buffer has the rest. -/
structure Tidy (s : Printer) (items : List Str) : Prop where
  len_le : s.pb.len.toNat ≤ bufferSize
  whole : ∃ (groups : List (List Str)) (last : List Str), items = groups.flatten ++ last ∧ s.sent = groups.map List.flatten ∧
    s.pb.contents = last.flatten

/-- The calls that add their item as it is. -/
def PrintCall.Sound : PrintCall → Prop
  | .binary num _ => 0 ≤ num.toInt ∧ num.toInt ≤ 127
  | .printf fmt args => ∀ p ∈ pieces fmt args, p.BinaryKept (numBytes (pieces fmt args))
  | _ => True

/-! ## The buffer -/

theorem map_range_pokes (bytes : Str) : ∀ (n : Nat) (mem : Nat → UInt8),
    (range (n + bytes.length)).map (Out.pokes ⟨mem, n⟩ bytes).mem =
      (range n).map mem ++ bytes := by
  induction bytes with
  | nil =>
    intro n mem
    rw [length_nil, add_zero, List.append_nil]
    rfl
  | cons c bytes ih =>
    intro n mem
    show (range (n + (bytes.length + 1))).map
      (Out.pokes ⟨update mem n c, n + 1⟩ bytes).mem = _
    have hfront : (range n).map (update mem n c) = (range n).map mem := by
      apply map_congr_left
      intro i hi
      exact update_of_ne (Nat.ne_of_lt (mem_range.1 hi)) _ _
    rw [show n + (bytes.length + 1) = n + 1 + bytes.length by omega, ih, range_succ,
      map_append, hfront, append_assoc]
    simp

/-- Bytes that are written at the end of the contents. -/
theorem contents_pokes (pb : Pbuf) (bytes : Str) (h : pb.len.toNat + bytes.length ≤ bufferSize) :
    (⟨pb.len + BitVec.ofNat 32 bytes.length, (Out.pokes ⟨pb.buf, pb.len.toNat⟩ bytes).mem⟩ :
      Pbuf).contents = pb.contents ++ bytes ∧
    (pb.len + BitVec.ofNat 32 bytes.length).toNat = pb.len.toNat + bytes.length := by
  have hlen : (pb.len + BitVec.ofNat 32 bytes.length).toNat = pb.len.toNat + bytes.length := by
    unfold bufferSize at h
    rw [BitVec.toNat_add, BitVec.toNat_ofNat]
    omega
  refine ⟨?_, hlen⟩
  unfold Pbuf.contents
  rw [hlen, map_range_pokes]

theorem slt_ofNat {a b : Nat} (ha : a ≤ bufferSize) (hb : b ≤ bufferSize) :
    (BitVec.ofNat 32 a).slt (BitVec.ofNat 32 b) = true ↔ a < b := by
  have hint : ∀ n : Nat, n ≤ 8192 → (BitVec.ofNat 32 n).toInt = n := by
    intro n hn
    rw [BitVec.toInt_eq_toNat_of_lt] <;> rw [BitVec.toNat_ofNat] <;> omega
  rw [BitVec.slt, decide_eq_true_eq, hint a ha, hint b hb]
  omega

theorem Printer.room_eq {s : Printer} (h : s.pb.len.toNat ≤ bufferSize) :
    s.room = BitVec.ofNat 32 (bufferSize - s.pb.len.toNat) := by
  apply BitVec.eq_of_toNat_eq
  unfold Printer.room bufferSize at *
  rw [BitVec.toNat_sub, BitVec.toNat_ofNat, BitVec.toNat_ofNat]
  omega

namespace Tidy

variable {s : Printer} {items : List Str} (h : Tidy s items)
include h

theorem flush : Tidy s.flush items ∧ s.flush.pb.len = 0 := by
  unfold Printer.flush
  by_cases hlen : s.pb.len = 0
  · rw [if_pos hlen]
    exact ⟨h, hlen⟩
  · rw [if_neg hlen]
    obtain ⟨groups, last, hitems, hsent, hlast⟩ := h.whole
    refine ⟨⟨zero_le _, groups ++ [last], [], ?_, ?_, rfl⟩, rfl⟩
    · rw [List.flatten_append, List.flatten_singleton, List.append_nil, hitems]
    · rw [map_append, hsent, commitLoop_full le_rfl, hlast]
      rfl

/-- A call that adds its item behind what is in the buffer. -/
theorem append {item : Str} (hroom : s.pb.len.toNat + item.length ≤ bufferSize) :
    Tidy ⟨⟨s.pb.len + BitVec.ofNat 32 item.length, (Out.pokes ⟨s.pb.buf, s.pb.len.toNat⟩ item).mem⟩,
      s.sent⟩ (items ++ [item]) := by
  obtain ⟨groups, last, hitems, hsent, hlast⟩ := h.whole
  obtain ⟨hcontents, hlen⟩ := contents_pokes s.pb item hroom
  refine ⟨hlen.trans_le hroom, groups, last ++ [item], ?_, hsent, ?_⟩
  · rw [hitems, append_assoc]
  · rw [hcontents, hlast, List.flatten_append, List.flatten_singleton]

theorem append_nil : Tidy s (items ++ [[]]) := by
  obtain ⟨groups, last, hitems, hsent, hlast⟩ := h.whole
  refine ⟨h.len_le, groups, last ++ [[]], ?_, hsent, ?_⟩
  · rw [hitems, append_assoc]
  · rw [hlast, List.flatten_append, List.flatten_singleton, List.append_nil]

/-- What is behind the contents does not matter. -/
theorem congr {buf : Nat → UInt8}
    (hbuf : ∀ i, i < s.pb.len.toNat → buf i = s.pb.buf i) : Tidy ⟨⟨s.pb.len, buf⟩, s.sent⟩ items := by
  obtain ⟨groups, last, hitems, hsent, hlast⟩ := h.whole
  refine ⟨h.len_le, groups, last, hitems, hsent, ?_⟩
  rw [← hlast]
  exact map_congr_left fun i hi => hbuf i (mem_range.1 hi)

/-- A reservation finds room behind the contents, after a flush if need be. -/
theorem reserveBytes {n : Nat} (hpos : 0 < n) (hn : n ≤ bufferSize) :
    ∃ s1 : Printer, Tidy s1 items ∧ s1.pb.len.toNat + n ≤ bufferSize ∧
      s.reserveBytes (BitVec.ofNat 32 n) =
        (⟨⟨s1.pb.len + BitVec.ofNat 32 n, s1.pb.buf⟩, s1.sent⟩, some s1.pb.len.toNat) := by
  have hok : ¬ (BitVec.ofNat 32 n = 0 ∨
      (BitVec.ofNat 32 bufferSize).slt (BitVec.ofNat 32 n) = true) := by
    rw [slt_ofNat le_rfl hn]
    rintro (h0 | h0)
    · have := congrArg BitVec.toNat h0
      unfold bufferSize at hn
      change n % 2 ^ 32 = 0 at this
      omega
    · omega
  have hlen := h.len_le
  unfold Printer.reserveBytes
  rw [if_neg hok, Printer.room_eq hlen]
  by_cases hroom : (BitVec.ofNat 32 (bufferSize - s.pb.len.toNat)).slt (BitVec.ofNat 32 n) = true
  · rw [if_pos hroom]
    refine ⟨s.flush, h.flush.1, ?_, rfl⟩
    rw [h.flush.2]
    exact (zero_add n).trans_le hn
  · rw [if_neg hroom]
    rw [slt_ofNat (by omega) hn] at hroom
    exact ⟨s, h, by omega, rfl⟩

end Tidy

/-! ## The calls -/

theorem length_flatMap_binaryArg (args : List I64) (k : Nat) :
    ((range k).flatMap (Printer.binaryArg args)).length = 8 * k := by
  simp [Printer.binaryArg, length_numBytesAt, mul_comm]

theorem copyLoop_of_le (instr : Str) :
    ∀ {o : Out}, o.str + instr.length ≤ bufferSize → Printer.copyLoop instr o = (o.pokes instr, []) := by
  induction instr with
  | nil => exact fun _ => rfl
  | cons c instr ih =>
    intro o h
    rw [length_cons] at h
    rw [Printer.copyLoop, if_pos (by omega)]
    exact ih (show o.str + 1 + instr.length ≤ bufferSize by omega)

/-- A copy that does not come to its end leaves the contents as they are. -/
theorem copyLoop_of_lt (instr : Str) : ∀ {o : Out}, bufferSize < o.str + instr.length →
    o.str ≤ bufferSize → (Printer.copyLoop instr o).2.isEmpty = false ∧
      ∀ i, i < o.str → (Printer.copyLoop instr o).1.mem i = o.mem i := by
  induction instr with
  | nil =>
    intro o h hle
    rw [length_nil] at h
    omega
  | cons c instr ih =>
    intro o h hle
    rw [length_cons] at h
    rw [Printer.copyLoop]
    by_cases hroom : o.str < bufferSize
    · rw [if_pos hroom]
      obtain ⟨h1, h2⟩ := ih (o := o.poke c) (show bufferSize < o.str + 1 + instr.length by omega) hroom
      refine ⟨h1, fun i hi => (h2 i (lt_succ_of_lt hi)).trans ?_⟩
      exact update_of_ne (Nat.ne_of_lt hi) _ _
    · rw [if_neg hroom]
      exact ⟨rfl, fun _ _ => rfl⟩

namespace Tidy

variable {s : Printer} {items : List Str} (h : Tidy s items)
include h

/-- The copy of a string that there is room for. -/
theorem copied {item : Str} (hroom : s.pb.len.toNat + item.length ≤ bufferSize) :
    (Printer.copyLoop item ⟨s.pb.buf, s.pb.len.toNat⟩).2.isEmpty = true ∧
      Tidy ⟨⟨BitVec.ofNat 32 (Printer.copyLoop item ⟨s.pb.buf, s.pb.len.toNat⟩).1.str,
        (Printer.copyLoop item ⟨s.pb.buf, s.pb.len.toNat⟩).1.mem⟩, s.sent⟩ (items ++ [item]) := by
  have happend := h.append hroom
  rw [copyLoop_of_le item hroom, Out.pokes_str]
  refine ⟨rfl, ?_⟩
  have hlen : BitVec.ofNat 32 (s.pb.len.toNat + item.length) =
      s.pb.len + BitVec.ofNat 32 item.length := by
    rw [BitVec.ofNat_add, BitVec.ofNat_toNat, BitVec.setWidth_eq]
  rw [hlen]
  exact happend

theorem print {str : Str} (hsize : (cString str).length ≤ bufferSize) :
    Tidy (s.print str) (items ++ [cString str]) := by
  have hlen := h.len_le
  unfold Printer.print
  by_cases hroom : s.pb.len.toNat + (cString str).length ≤ bufferSize
  · obtain ⟨hend, htidy⟩ := h.copied hroom
    rw [if_pos hend]
    exact htidy
  · obtain ⟨hend, hmem⟩ := copyLoop_of_lt (cString str) (o := ⟨s.pb.buf, s.pb.len.toNat⟩)
      (by dsimp only; omega) hlen
    rw [if_neg (by rw [hend]; decide)]
    obtain ⟨hflush, hzero⟩ := (h.congr hmem).flush
    refine (hflush.copied ?_).2
    rw [hzero]
    exact (zero_add _).trans_le hsize

theorem printChar (c : UInt8) : Tidy (s.printChar c) (items ++ [[c]]) := by
  have hput : ∀ s' : Printer, Tidy s' items → s'.pb.len.toNat + 1 ≤ bufferSize →
      Tidy ⟨⟨s'.pb.len + 1, update s'.pb.buf s'.pb.len.toNat c⟩, s'.sent⟩ (items ++ [[c]]) :=
    fun s' h' hroom => (show Tidy _ _ from h'.append (show s'.pb.len.toNat + [c].length ≤ bufferSize from hroom))
  have hlen := h.len_le
  unfold Printer.printChar
  by_cases hroom : s.room.sle 1 = true
  · rw [if_pos hroom]
    obtain ⟨hflush, hzero⟩ := h.flush
    refine hput _ hflush ?_
    rw [hzero]
    decide
  · rw [if_neg hroom]
    refine hput s h ?_
    rw [Printer.room_eq hlen, BitVec.sle_eq_not_slt, Bool.not_eq_true', Bool.not_eq_false] at hroom
    have h1 := (slt_ofNat (show 1 ≤ bufferSize by decide) (sub_le _ _)).1 hroom
    omega

theorem printBinary {num : I32} (hnum : 0 ≤ num.toInt ∧ num.toInt ≤ 127)
    (args : List I64) :
    Tidy (s.printBinary num args)
      (items ++ [(range num.toInt.toNat).flatMap (Printer.binaryArg args)]) := by
  obtain ⟨k, hk⟩ : ∃ k : Nat, num.toInt = k := ⟨num.toInt.toNat, by omega⟩
  have hmax : ¬ Printer.maxBinaryArgs.slt num = true := by
    rw [BitVec.slt, decide_eq_true_eq, hk]
    show ¬ (127 : Int) < k
    omega
  have hbytes : num * 8 = BitVec.ofNat 32 (8 * k) := by
    have hnum' : num = BitVec.ofNat 32 k := by
      apply BitVec.eq_of_toInt_eq
      rw [hk, BitVec.toInt_eq_toNat_of_lt] <;> rw [BitVec.toNat_ofNat] <;> omega
    rw [hnum', mul_comm, BitVec.ofNat_mul]
    rfl
  have hitem : ((range k).flatMap (Printer.binaryArg args)).length = 8 * k :=
    length_flatMap_binaryArg args k
  unfold Printer.printBinary
  rw [if_neg hmax]
  dsimp only
  rw [hbytes, hk, Int.toNat_natCast]
  rcases Nat.eq_zero_or_pos k with rfl | hpos
  · exact h.append_nil
  · obtain ⟨s1, h1, hroom, hreserve⟩ := h.reserveBytes (n := 8 * k) (by omega)
      (by unfold bufferSize; omega)
    rw [hreserve]
    rw [← hitem] at hroom ⊢
    exact h1.append hroom

theorem printf {fmt : Str} {args : List Arg}
    (hsize : (outputAll bufferSize (pieces fmt args)).length ≤ bufferSize)
    (hkept : ∀ p ∈ pieces fmt args, p.BinaryKept (numBytes (pieces fmt args))) :
    Tidy (s.printf fmt args) (items ++ [outputAll bufferSize (pieces fmt args)]) := by
  have hlen : _ = numBytes (pieces fmt args) := length_outputAll bufferSize (pieces fmt args)
  rw [hlen] at hsize
  unfold Printer.printf
  dsimp only
  by_cases hzero : numBytes (pieces fmt args) = 0
  · rw [if_pos hzero]
    rw [hzero] at hlen
    rw [length_eq_zero_iff.1 hlen]
    exact h.append_nil
  · rw [if_neg hzero, min_eq_left hsize]
    obtain ⟨s1, h1, hroom, hreserve⟩ := h.reserveBytes (pos_of_ne_zero hzero) hsize
    rw [hreserve]
    dsimp only
    rw [emitAll_eq, outputAll_limit_of_kept hsize hkept]
    · rw [← hlen] at hroom ⊢
      exact h1.append hroom
    · rw [outputAll_limit_of_kept hsize hkept, hlen]

/-- One call adds its item. -/
theorem exec {c : PrintCall} (hsize : c.item.length ≤ bufferSize)
    (hsound : c.Sound) : Tidy (s.exec c) (items ++ [c.item]) := by
  cases c with
  | print str => exact h.print hsize
  | char c => exact h.printChar c
  | binary num args => exact h.printBinary hsound args
  | printf fmt args => exact h.printf hsize hsound
  | flush => exact h.flush.1.append_nil

omit h

theorem run (calls : List PrintCall) : ∀ {s : Printer} {items : List Str}, Tidy s items →
    (∀ c ∈ calls, c.item.length ≤ bufferSize) → (∀ c ∈ calls, c.Sound) →
      Tidy (s.run calls) (items ++ calls.map PrintCall.item) := by
  induction calls with
  | nil =>
    intro s items h _ _
    rw [List.map_nil, List.append_nil]
    exact h
  | cons c calls ih =>
    intro s items h hsize hsound
    have hstep := h.exec (hsize c mem_cons_self) (hsound c mem_cons_self)
    have := ih hstep (fun c' hc' => hsize c' (mem_cons_of_mem c hc'))
      fun c' hc' => hsound c' (mem_cons_of_mem c hc')
    rw [append_assoc] at this
    exact this

/-- Together, the bytes that were sent and the ones in the buffer are the items. -/
theorem flatten_eq (h : Tidy s items) : s.sent.flatten ++ s.pb.contents = items.flatten := by
  obtain ⟨groups, last, hitems, hsent, hlast⟩ := h.whole
  rw [hitems, hsent, hlast, List.flatten_append, flatten_flatten]

end Tidy

/-- From an empty buffer on, the calls put their items into the output whole and in order. -/
theorem print_run_tidy (buf : Nat → UInt8) (calls : List PrintCall)
    (hsize : ∀ c ∈ calls, c.item.length ≤ bufferSize) (hsound : ∀ c ∈ calls, c.Sound) :
    Tidy (Printer.run ⟨⟨0, buf⟩, []⟩ calls) (calls.map PrintCall.item) ∧
      (Printer.run ⟨⟨0, buf⟩, []⟩ calls).sent.flatten ++
        (Printer.run ⟨⟨0, buf⟩, []⟩ calls).pb.contents = (calls.map PrintCall.item).flatten := by
  have hstart : Tidy ⟨⟨0, buf⟩, []⟩ [] := ⟨zero_le _, [], [], rfl, rfl, rfl⟩
  have h := hstart.run calls hsize hsound
  exact ⟨h, h.flatten_eq⟩

/-- A string, a number and a character. -/
def greetingCalls : List PrintCall :=
  [.print [104, 105, 32], .printf [37, 48, 52, 100] [.int 42], .char 10, .binary 1 [7], .flush]

theorem print_run_tidy_greeting :
    ((∀ c ∈ greetingCalls, c.item.length ≤ bufferSize) ∧ ∀ c ∈ greetingCalls, c.Sound) ∧
      Tidy (Printer.run ⟨⟨0, fun _ => 0⟩, []⟩ greetingCalls) (greetingCalls.map PrintCall.item) := by
  have hpieces : pieces [37, 48, 52, 100] [.int 42] =
      [.number ⟨⟨true, true, false, false, false, false, false⟩, some 4, none, .none⟩ 10 42] := rfl
  have hsize : ∀ c ∈ greetingCalls, c.item.length ≤ bufferSize := by
    decide
  have hsound : ∀ c ∈ greetingCalls, c.Sound := by
    intro c hc
    simp only [greetingCalls, mem_cons, not_mem_nil, or_false] at hc
    rcases hc with rfl | rfl | rfl | rfl | rfl
    · exact trivial
    · intro p hp
      rw [hpieces, mem_singleton] at hp
      subst hp
      exact trivial
    · exact trivial
    · exact ⟨by decide, by decide⟩
    · exact trivial
  exact ⟨⟨hsize, hsound⟩, (print_run_tidy _ _ hsize hsound).1⟩

/-- The format `x%1.100b` -/
def stalePrintf : PrintCall := .printf [120, 37, 49, 46, 49, 48, 48, 98] [.int 65]

example : stalePrintf.item = [120, 65] := by decide

/-- A number of `_stp_print_binary` too many, a count below zero, and a `%b` that is not written. -/
theorem print_run_untidy :
    ¬ Tidy (Printer.run ⟨⟨0, fun _ => 0⟩, []⟩ [.binary 128 []]) [PrintCall.item (.binary 128 [])] ∧
      ¬ Tidy (Printer.run ⟨⟨0, fun _ => 0⟩, []⟩ [.binary (-1) []]) [PrintCall.item (.binary (-1) [])] ∧
      ¬ Tidy (Printer.run ⟨⟨0, fun _ => 0⟩, []⟩ [stalePrintf]) [stalePrintf.item] := by
  refine ⟨fun h => ?_, fun h => ?_, fun h => ?_⟩
  · have hlen := congrArg length h.flatten_eq
    have hcontents : (Printer.run ⟨⟨0, fun _ => 0⟩, []⟩ [.binary 128 []]).pb.contents.length = 1016 := by
      rw [Pbuf.contents, length_map, length_range]
      rfl
    have hitem : (PrintCall.item (.binary 128 [])).length = 1024 := by
      rw [PrintCall.item, length_flatMap_binaryArg]
      rfl
    rw [length_append, hcontents, List.flatten_singleton, hitem] at hlen
    exact absurd hlen (by decide)
  · exact absurd h.len_le (by decide)
  · exact absurd h.flatten_eq (by decide)

end Systemtap.Runtime
