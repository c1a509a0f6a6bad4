import Systemtap.Runtime.Format

/-!
# Where `_stp_vsnprintf` writes

With a null buffer, the second pass writes into the bytes that were reserved after the first one,
and the two must agree on their number. With a buffer of the caller, `size` bytes are there for
the text and a zero byte behind it. Every loop of the second pass looks at `end` before it writes,
with one exception: the loop of `%M`.
-/

namespace Systemtap.Runtime

open Systemtap.Tree Systemtap.Lex Function List Nat Out Directive

/-! ## The code -/

/-- `(int) size` -/
def intSize (size : BitVec 64) : Int := (size.setWidth 32).toInt

/-- The zero byte at the end, and the value that is returned. -/
def terminate (size : Nat) (o : Out) : (Nat → UInt8) × I32 :=
  (if o.str < size then Function.update o.mem o.str 0
    else if 0 < size then Function.update o.mem (size - 1) 0 else o.mem,
    BitVec.ofNat 32 o.str)

/-- `_stp_vsnprintf` with a buffer of the caller: the memory from `buf` on, and the value that is
returned. -/
def vsnprintf (buf : Nat → UInt8) (size : BitVec 64) (fmt : Str) (args : List Arg) :
    (Nat → UInt8) × I32 :=
  if intSize size < 0 then (buf, 0)
  else terminate size.toNat (emitAll size.toNat (intSize size) ⟨buf, 0⟩ (pieces fmt args))

/-! ## What it is for -/

/-- The second pass writes as many bytes as were counted: it leaves the memory as if a text of
that length had been written to the reserved bytes, and nothing else. -/
def PrintsAsSized (fmt : Str) (args : List Arg) : Prop :=
  let n := numBytes (pieces fmt args)
  ∃ text : Str, text.length = n ∧ ∀ mem start,
    (emitAll (start + n) n ⟨mem, start⟩ (pieces fmt args)).mem = (pokes ⟨mem, start⟩ text).mem

/-- Nothing behind the buffer is written, and there is a zero byte in it. -/
def StaysInside (size : BitVec 64) (fmt : Str) (args : List Arg) : Prop :=
  ∀ buf, (∀ i, size.toNat ≤ i → (vsnprintf buf size fmt args).1 i = buf i) ∧
    ∃ i, i < size.toNat ∧ (vsnprintf buf size fmt args).1 i = 0

/-! ## The digits of `%M` -/

section Written

variable {bound : Nat} {limit : Int}

theorem Out.pokes_mem (s : Str) : ∀ {o : Out} {j : Nat} (hj : j < s.length),
    (o.pokes s).mem (o.str + j) = s[j] := by
  induction s with
  | nil => exact fun hj => absurd hj (not_lt_zero _)
  | cons c s ih =>
    intro o j hj
    show ((o.poke c).pokes s).mem (o.str + j) = _
    cases j with
    | zero =>
      have hwithin := within_pokes s (o := o.poke c) (le_refl _)
      rw [add_zero, hwithin.front _ (lt_succ_self _)]
      exact update_self _ _ _
    | succ j =>
      have hnext : o.str + (j + 1) = (o.poke c).str + j := by
        show _ = o.str + 1 + j
        omega
      rw [hnext, ih (lt_of_succ_lt_succ hj), getElem_cons_succ]

theorem textLen_hex_pos (limit : Int) (d : Directive) (s : Pointer) :
    0 < textLen limit d .hex s := by
  unfold textLen
  rw [if_neg fun h => TextKind.noConfusion h]
  split <;> omega

theorem emitAll_append (pre post : List Piece) (o : Out) :
    emitAll bound limit o (pre ++ post) =
      emitAll bound limit (emitAll bound limit o pre) post := foldl_append

/-- If all `%M` have room, everything does, or is cut at `bound`. -/
theorem within_emitAll (ps : List Piece) : ∀ {o : Out},
    (∀ pre p post, ps = pre ++ p :: post → p.IsDump →
      o.str + (pre.map (Piece.size limit)).sum + p.digitsEnd limit ≤ bound) →
    o.Within bound (emitAll bound limit o ps) := by
  induction ps with
  | nil => exact fun _ => .refl _
  | cons p ps ih =>
    intro o h
    have hp := p.emits (le_refl bound) (h [] p ps rfl)
    refine hp.toWithin.trans (ih fun pre q post hps hq => ?_)
    have hroom := h (p :: pre) q post (by rw [hps]; rfl) hq
    rw [map_cons, sum_cons] at hroom
    have hstr : (p.emit bound limit o).str = o.str + p.size limit := by
      rw [hp.eq (by rw [p.length_output]; omega), pokes_str, p.length_output]
    omega

theorem digit_ne_zero {large : Bool} {i : Nat} (hi : i < 16) : digit large i ≠ 0 := by
  have hall : ∀ b : Bool, ∀ i : Fin 16, digit b i ≠ 0 := by decide
  exact hall large ⟨i, hi⟩

theorem textBytes_hex_ne_zero {d : Directive} {s : Pointer} :
    ∀ c ∈ textBytes limit d .hex s, c ≠ 0 := by
  intro c hc
  obtain ⟨b, -, hb⟩ := mem_flatMap.mp hc
  have hlt := b.toNat_lt
  rcases mem_cons.mp hb with rfl | hb
  · exact digit_ne_zero (by omega)
  · obtain rfl := mem_singleton.mp hb
    exact digit_ne_zero (by omega)

/-- The last digit of a `%M` is written, wherever it is. -/
theorem Piece.emit_lastDigit {p : Piece} (hp : p.IsDump) (o : Out) :
    0 < p.digitsEnd limit ∧ ∀ i, i + 1 = o.str + p.digitsEnd limit →
      (p.emit bound limit o).mem i ≠ 0 ∧ i < (p.emit bound limit o).str := by
  obtain ⟨d, s, rfl⟩ : ∃ d s, p = .text d .hex s := by
    cases p with
    | text d kind s =>
      cases kind with
      | hex => exact ⟨d, s, rfl⟩
      | string | memory => exact hp.elim
    | _ => exact hp.elim
  have hlen : 0 < textLen limit d .hex s := textLen_hex_pos limit d s
  have hbytes := length_textBytes limit d .hex s
  simp only [digitsEnd]
  refine ⟨by omega, fun i hi => ?_⟩
  simp only [reduceIte] at hbytes
  simp only [emit, reduceIte]
  generalize ho' : o.puts bound (replicate _ (chr ' ')) = o'
  have hstr : o'.str = o.str + padBefore d (d.fieldWidth limit - (textLen limit d .hex s * 2 : Nat)) := by
    rw [← ho', puts_str, length_replicate]
  -- what comes behind the digits leaves them
  have hrest : (o'.pokes (textBytes limit d .hex s)).Within bound
      (if d.flags.zeropad = true then
        ((o'.pokes (textBytes limit d .hex s)).puts bound (replicate
          (padAfter d (d.fieldWidth limit - (textLen limit d .hex s * 2 : Nat))) (chr ' '))).put bound 0
      else (o'.pokes (textBytes limit d .hex s)).puts bound (replicate
          (padAfter d (d.fieldWidth limit - (textLen limit d .hex s * 2 : Nat))) (chr ' '))) := by
    split
    · exact ((emits_puts (le_refl _) _ _).append (emits_put (le_refl _) _ _)).toWithin
    · exact (emits_puts (le_refl _) _ _).toWithin
  have hend : i < (o'.pokes (textBytes limit d .hex s)).str := by
    rw [pokes_str]
    omega
  refine ⟨?_, hend.trans_le hrest.le⟩
  rw [hrest.front i hend]
  have hj : textLen limit d .hex s * 2 - 1 < (textBytes limit d .hex s).length := by omega
  have hi' : i = o'.str + (textLen limit d .hex s * 2 - 1) := by omega
  rw [hi', pokes_mem _ hj]
  exact textBytes_hex_ne_zero _ (getElem_mem hj)

/-- So there is a byte at the end of the digits after the whole pass. -/
theorem emitAll_lastDigit {pre post : List Piece} {p : Piece} (hp : p.IsDump) (o : Out) :
    ∃ i, (emitAll bound limit o pre).str ≤ i ∧
      i + 1 = (emitAll bound limit o pre).str + p.digitsEnd limit ∧
      (emitAll bound limit o (pre ++ p :: post)).mem i ≠ 0 := by
  obtain ⟨hpos, hlast⟩ := @Piece.emit_lastDigit bound limit p hp
    (emitAll bound limit o pre)
  obtain ⟨hne, hlt⟩ := hlast ((emitAll bound limit o pre).str + p.digitsEnd limit - 1) (by omega)
  refine ⟨(emitAll bound limit o pre).str + p.digitsEnd limit - 1, by omega, by omega, ?_⟩
  rw [emitAll_append]
  obtain ⟨_, hpost⟩ := @emitAll_emits bound limit post (p.emit bound limit (emitAll bound limit o pre))
  show (emitAll bound limit (p.emit bound limit _) post).mem _ ≠ 0
  rw [hpost.front _ hlt]
  exact hne

end Written

/-! ## A buffer of the caller -/

/-- The digits of every `%M` end in front of `size`, in the text as it would be without a bound. -/
def DumpsFit (size : BitVec 64) (fmt : Str) (args : List Arg) : Prop :=
  ∀ pre p post, pieces fmt args = pre ++ p :: post → p.IsDump →
    (pre.map (Piece.size (intSize size))).sum + p.digitsEnd (intSize size) ≤ size.toNat

theorem terminate_of_le {size i : Nat} (o : Out) (hi : size ≤ i) : (terminate size o).1 i = o.mem i := by
  unfold terminate
  split
  · next hlt => exact update_of_ne (by omega) _ _
  · split
    · exact update_of_ne (by omega) _ _
    · rfl

theorem exists_terminate {size : Nat} (o : Out) (hsize : 1 ≤ size) :
    ∃ i, i < size ∧ (terminate size o).1 i = 0 := by
  unfold terminate
  split
  · next hlt => exact ⟨o.str, hlt, update_self _ _ _⟩
  · rw [if_pos (show 0 < size by omega)]
    exact ⟨size - 1, by omega, update_self _ _ _⟩

/-- `_stp_vsnprintf` stays in the caller's buffer, and leaves a zero byte there, exactly if the
size is not negative as an `int` and the digits of every `%M` have room. -/
theorem vsnprintf_staysInside_iff {size : BitVec 64} (hsize : 1 ≤ size.toNat) (fmt : Str)
    (args : List Arg) :
    StaysInside size fmt args ↔ 0 ≤ intSize size ∧ DumpsFit size fmt args := by
  unfold StaysInside vsnprintf
  constructor
  · intro h
    have hint : 0 ≤ intSize size := by
      by_contra hneg
      obtain ⟨-, i, -, hzero⟩ := h fun _ => 1
      rw [if_pos (by omega)] at hzero
      change (1 : UInt8) = 0 at hzero
      exact absurd hzero (by decide)
    refine ⟨hint, fun pre p post hps hp => ?_⟩
    by_contra hroom
    obtain ⟨hkeep, -⟩ := h fun _ => 0
    rw [if_neg (by omega), hps] at hkeep
    obtain ⟨i, hle, hi, hne⟩ :=
      @emitAll_lastDigit size.toNat (intSize size) pre post p hp ⟨fun _ => 0, 0⟩
    have hbound : size.toNat ≤ i := by
      obtain ⟨_, hpre⟩ := @emitAll_emits size.toNat (intSize size) pre ⟨fun _ => 0, 0⟩
      rcases hpre.str with hstr | hstr
      · rw [length_outputAll] at hstr
        dsimp only at hstr
        omega
      · omega
    have hkeep := hkeep i hbound
    rw [terminate_of_le _ hbound] at hkeep
    exact hne hkeep
  · rintro ⟨hint, hfit⟩ buf
    rw [if_neg (by omega)]
    refine ⟨fun i hi => ?_, exists_terminate _ hsize⟩
    have hwithin := @within_emitAll size.toNat (intSize size) (pieces fmt args) ⟨buf, 0⟩
      fun pre p post hps hp => by
        have hroom := hfit pre p post hps hp
        dsimp only
        omega
    rw [terminate_of_le _ hi]
    exact hwithin.behind i hi

/-- The string `A`. -/
def pointerToA : Pointer := ⟨[65], by decide, fun _ => 0⟩

theorem vsnprintf_staysInside_dump : StaysInside 3 [37, 77] [.ptr pointerToA] := by
  have hps : pieces [37, 77] [.ptr pointerToA] =
      [.text ⟨.zero, none, none, .none⟩ .hex pointerToA] := rfl
  refine (vsnprintf_staysInside_iff (by decide) _ _).mpr ⟨by decide, fun pre p post hsplit hp => ?_⟩
  rw [hps] at hsplit
  cases pre with
  | nil =>
    obtain ⟨rfl, -⟩ := cons.inj hsplit
    decide
  | cons q pre => exact absurd (congrArg length hsplit) (by simp)

/-- `%M` in a buffer of one byte: two digits are written, the second one behind the buffer. -/
theorem vsnprintf_outside :
    ¬ StaysInside 1 [37, 77] [.ptr pointerToA] := by
  intro h
  have hkeep := (h fun _ => 0).1 1 (by decide)
  exact absurd hkeep (by decide)

/-! ## The reserved bytes -/

/-- What refitting is in the field: all bytes go to the number. -/
theorem Directive.binaryField_of_refits {d : Directive} {n : Nat} (h : d.Refits n) :
    d.binaryField n = (d.fieldWidth n, (n : Int)) ∧ d.fieldWidth n < n := by
  obtain ⟨hn, ⟨w, hw, hw', hlt⟩, p, hp, hgt, -, -⟩ := h
  have hwidth : d.fieldWidth n = w.toInt := by
    simp only [fieldWidth, hw, clamp]
    split_ifs <;> omega
  have hprec : d.prec n = n := by
    simp only [prec, hp, clamp]
    split_ifs <;> omega
  have hcheck : checkBinaryPrecision n = n := by
    rcases checkBinaryPrecision_cases n with ⟨h, -⟩ | ⟨-, h⟩
    · exact h
    · omega
  refine ⟨?_, by omega⟩
  unfold binaryField
  rw [hprec, hcheck, hwidth, if_neg (by omega), if_neg (by omega)]

theorem one_le_binaryField (limit : Int) (d : Directive) : 1 ≤ (d.binaryField limit).2 := by
  unfold binaryField
  dsimp only
  rcases checkBinaryPrecision_cases (d.prec limit) with ⟨h, hset⟩ | ⟨h, -⟩ <;>
    rcases checkBinaryPrecision_cases (d.fieldWidth limit) with ⟨h', hset'⟩ | ⟨h', -⟩ <;>
    rw [h, h'] <;> split_ifs <;> dsimp only <;> omega

section Reserved

variable {ps pre post : List Piece} {d : Directive} {num : I64}

theorem Piece.size_binary_pos (limit : Int) : 0 < (Piece.binary d num).size limit := by
  have hone := one_le_binaryField limit d
  simp only [size]
  omega

/-- A refitted `%b` takes all of the reserved bytes, if it is at their start, and none otherwise. -/
theorem Piece.emit_of_refits {n bound : Nat} (h : d.Refits n) (o : Out) :
    (Piece.binary d num).emit bound n o =
      if o.str + n ≤ bound then o.pokes (numBytesAt num n) else { o with str := o.str + n } := by
  obtain ⟨hfield, hlt⟩ := binaryField_of_refits h
  have hbefore : padBefore d (d.fieldWidth n - n) = 0 := by
    unfold padBefore
    split <;> omega
  have hafter : padAfter d (d.fieldWidth n - n) = 0 := by
    unfold padAfter
    split <;> omega
  simp only [emit, hfield, hbefore, hafter, replicate_zero, Int.toNat_natCast]
  rfl

/-- The first `%b` that is refitted. -/
structure FirstRefit (ps pre : List Piece) (d : Directive) (num : I64) (post : List Piece) : Prop where
  split : ps = pre ++ .binary d num :: post
  refits : d.Refits (numBytes ps)
  first : ∀ d num, .binary d num ∈ pre → ¬ d.Refits (numBytes ps)

theorem FirstRefit.exists_or (ps : List Piece) :
    (∃ pre d num post, FirstRefit ps pre d num post) ∨
      ∀ d num, .binary d num ∈ ps → ¬ d.Refits (numBytes ps) := by
  classical
  by_cases h : ∃ d num, .binary d num ∈ ps ∧ d.Refits (numBytes ps)
  · left
    let refits : Piece → Bool := fun p => ∃ d num, p = .binary d num ∧ d.Refits (numBytes ps)
    obtain ⟨d, num, hmem, hd⟩ := h
    obtain ⟨p, hp⟩ := Option.isSome_iff_exists.mp
      (find?_isSome (p := refits).mpr ⟨_, hmem, decide_eq_true ⟨d, num, rfl, hd⟩⟩)
    obtain ⟨hrefits, pre, post, hsplit, hfirst⟩ := find?_eq_some_iff_append.mp hp
    obtain ⟨d, num, rfl, hd⟩ := of_decide_eq_true hrefits
    refine ⟨pre, d, num, post, hsplit, hd, fun d' num' hmem' hd' => ?_⟩
    have hnot := hfirst _ hmem'
    rw [Bool.not_eq_true'] at hnot
    exact of_decide_eq_false hnot ⟨d', num', rfl, hd'⟩
  · exact .inr fun d num hmem hd => h ⟨d, num, hmem, hd⟩

theorem FirstRefit.lt (h : FirstRefit ps pre d num post) : numBytes pre < numBytes ps := by
  have hpos := @Piece.size_binary_pos d num bufferSize
  rw [h.split]
  unfold numBytes
  rw [map_append, sum_append_nat, map_cons, sum_cons]
  omega

/-- The pass up to the first `%b` that is refitted. -/
theorem FirstRefit.emitAll_pre (h : FirstRefit ps pre d num post) (hn : numBytes ps ≤ bufferSize)
    (mem : Nat → UInt8) (start : Nat) :
    emitAll (start + numBytes ps) (numBytes ps) ⟨mem, start⟩ pre =
      pokes ⟨mem, start⟩ (outputAll bufferSize pre) := by
  have hsub : pre ⊆ ps := by
    rw [h.split]
    exact subset_append_left _ _
  have hout := outputAll_of_not_refits hn hsub h.first
  have hlen : (outputAll bufferSize pre).length = numBytes pre := length_outputAll bufferSize pre
  have hlt := h.lt
  rw [emitAll_eq pre, hout]
  rw [hout, hlen]
  dsimp only
  omega

theorem FirstRefit.emitAll_eq (h : FirstRefit ps pre d num post) (hn : numBytes ps ≤ bufferSize)
    (mem : Nat → UInt8) (start : Nat) :
    emitAll (start + numBytes ps) (numBytes ps) ⟨mem, start⟩ ps =
      emitAll (start + numBytes ps) (numBytes ps) ((Piece.binary d num).emit (start + numBytes ps)
        (numBytes ps) (pokes ⟨mem, start⟩ (outputAll bufferSize pre))) post := by
  rw [← h.emitAll_pre hn]
  generalize numBytes ps = n
  rw [h.split, emitAll_append]
  rfl

/-- A refitted `%b` behind other output leaves a reserved byte as it is. -/
theorem FirstRefit.skips (h : FirstRefit ps pre d num post) (hn : numBytes ps ≤ bufferSize)
    (hpos : 0 < numBytes pre) (mem : Nat → UInt8) (start : Nat) :
    (emitAll (start + numBytes ps) (numBytes ps) ⟨mem, start⟩ ps).mem (start + numBytes pre) =
      mem (start + numBytes pre) := by
  have hlen : (outputAll bufferSize pre).length = numBytes pre := length_outputAll bufferSize pre
  have hlt := h.lt
  have hstr : (pokes ⟨mem, start⟩ (outputAll bufferSize pre)).str = start + numBytes pre := by
    rw [pokes_str, hlen]
  rw [h.emitAll_eq hn, Piece.emit_of_refits h.refits, if_neg (by rw [hstr]; omega)]
  obtain ⟨_, hpost⟩ := @emitAll_emits (start + numBytes ps) (numBytes ps) post
    { pokes ⟨mem, start⟩ (outputAll bufferSize pre) with str := _ + numBytes ps }
  rw [hpost.front]
  · exact (within_pokes (outputAll bufferSize pre) (o := ⟨mem, start⟩) (le_refl _)).behind _
      (by rw [hlen])
  · dsimp only
    omega

/-- One at the start of the output takes all of the reserved bytes. -/
theorem FirstRefit.takesAll (h : FirstRefit ps pre d num post) (hn : numBytes ps ≤ bufferSize)
    (hzero : numBytes pre = 0) (mem : Nat → UInt8) (start : Nat) :
    emitAll (start + numBytes ps) (numBytes ps) ⟨mem, start⟩ ps =
      emitAll (start + numBytes ps) (numBytes ps)
        (pokes ⟨mem, start⟩ (numBytesAt num (numBytes ps))) post := by
  have hlen : (outputAll bufferSize pre).length = numBytes pre := length_outputAll bufferSize pre
  have hnil : outputAll bufferSize pre = [] := length_eq_zero_iff.mp (hlen.trans hzero)
  rw [h.emitAll_eq hn, hnil, Piece.emit_of_refits h.refits]
  exact congrArg (emitAll _ _ · post) (if_pos (le_refl _))

end Reserved

/-- The second pass writes exactly the bytes that were counted if and only if no `%b` is refitted,
or the first one that is has no output in front of it and no `%M` behind it. -/
theorem prints_as_sized_iff (fmt : Str) (args : List Arg)
    (hn : numBytes (pieces fmt args) ≤ bufferSize) :
    PrintsAsSized fmt args ↔ ∀ pre d num post, FirstRefit (pieces fmt args) pre d num post →
      numBytes pre = 0 ∧ ∀ p ∈ post, ¬ p.IsDump := by
  unfold PrintsAsSized
  generalize pieces fmt args = ps at *
  constructor
  · rintro ⟨text, hlen, htext⟩ pre d num post hfirst
    have hzero : numBytes pre = 0 := by
      by_contra hne
      have hlt := hfirst.lt
      -- the byte that is left cannot be that of the text for every memory
      have hbyte : ∀ c : UInt8, c = text[numBytes pre] := fun c => by
        have hskip := hfirst.skips hn (pos_of_ne_zero hne) (fun _ => c) 0
        rw [htext, pokes_mem text (o := ⟨fun _ => c, 0⟩) (by omega)] at hskip
        exact hskip.symm
      exact absurd ((hbyte 0).trans (hbyte 1).symm) (by decide)
    refine ⟨hzero, fun p hp hdump => ?_⟩
    obtain ⟨post₁, post₂, rfl⟩ := append_of_mem hp
    have hmem := congrFun (htext (fun _ => 0) 0)
    rw [hfirst.takesAll hn hzero] at hmem
    have hfull : (pokes ⟨fun _ => 0, 0⟩ (numBytesAt num (numBytes ps))).str = numBytes ps := by
      rw [pokes_str, length_numBytesAt]
      exact zero_add _
    obtain ⟨i, hle, -, hne⟩ :=
      @emitAll_lastDigit (0 + numBytes ps) (numBytes ps) post₁ post₂ _ hdump
      (pokes ⟨fun _ => 0, 0⟩ (numBytesAt num (numBytes ps)))
    obtain ⟨_, hpost⟩ := @emitAll_emits (0 + numBytes ps) (numBytes ps) post₁
      (pokes ⟨fun _ => 0, 0⟩ (numBytesAt num (numBytes ps)))
    have hfar := hpost.le
    rw [hmem i] at hne
    refine hne ((within_pokes text (o := ⟨fun _ => 0, 0⟩) (le_refl _)).behind i ?_)
    dsimp only
    omega
  · intro h
    rcases FirstRefit.exists_or ps with ⟨pre, d, num, post, hfirst⟩ | hnone
    · obtain ⟨hzero, hdumps⟩ := h pre d num post hfirst
      refine ⟨numBytesAt num (numBytes ps), length_numBytesAt _ _, fun mem start => funext fun i => ?_⟩
      rw [hfirst.takesAll hn hzero]
      generalize ho : pokes ⟨mem, start⟩ (numBytesAt num (numBytes ps)) = o
      have hstr : o.str = start + numBytes ps := by
        rw [← ho, pokes_str, length_numBytesAt]
      have hwithin := @within_emitAll (start + numBytes ps) (numBytes ps) post o
        fun pre' p post' hsplit hp => absurd hp (hdumps p (by rw [hsplit]; simp))
      rcases lt_or_ge i (start + numBytes ps) with hi | hi
      · exact hwithin.front i (by omega)
      · exact hwithin.behind i hi
    · have hlen : (outputAll bufferSize ps).length = numBytes ps := length_outputAll bufferSize ps
      have hout := outputAll_of_not_refits hn (List.Subset.refl ps) hnone
      refine ⟨outputAll bufferSize ps, hlen, fun mem start => ?_⟩
      rw [emitAll_eq ps, hout]
      rw [hout, hlen]

theorem prints_as_sized_number : PrintsAsSized [120, 37, 100] [.int 7] := by
  refine (prints_as_sized_iff _ _ (by decide)).mpr fun pre d num post h => ?_
  have hps : pieces [120, 37, 100] [.int 7] = [.byte 120, .number
      ⟨⟨false, true, false, false, false, false, false⟩, none, none, .none⟩ 10 7] := rfl
  have hmem : .binary d num ∈ pieces [120, 37, 100] [.int 7] := by
    rw [h.split]
    exact mem_append_right _ mem_cons_self
  rw [hps] at hmem
  simp at hmem

/-- `x%1.100b`: the first pass counts two bytes; the second one takes a precision of 2, for which
there is no room behind the `x`. -/
theorem not_prints_as_sized :
    numBytes (pieces [120, 37, 49, 46, 49, 48, 48, 98] [.int 65]) = 2 ∧
      ¬ PrintsAsSized [120, 37, 49, 46, 49, 48, 48, 98] [.int 65] := by
  refine ⟨by decide, ?_⟩
  rintro ⟨text, hlen, htext⟩
  have htwo : text.length = 2 := hlen.trans (by decide)
  have hbyte : ∀ c : UInt8, (emitAll 2 2 ⟨fun _ => c, 0⟩
      (pieces [120, 37, 49, 46, 49, 48, 48, 98] [.int 65])).mem 1 = text[1] := by
    intro c
    rw [← pokes_mem text (o := ⟨fun _ => c, 0⟩) (j := 1) (by omega)]
    exact congrFun (htext (fun _ => c) 0) 1
  exact absurd ((hbyte 0).trans (hbyte 1).symm) (by decide)

end Systemtap.Runtime
