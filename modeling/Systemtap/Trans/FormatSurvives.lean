import Systemtap.Trans.FormatChunks

/-!
# What becomes of a format string

The run time finds the chunks of a format one by one if no escape wrote a `%` or a zero
(`itemsOf_chunks`). That nothing else will do is seen by counting the `%`: where the elements agree,
each literal `%` has taken two of them from the format (`sum_element_percents`), and one that an escape
wrote has only one to give.
-/

namespace Systemtap.Trans

open Systemtap.Tree Systemtap.Lex Systemtap.Runtime List Chunk

/-! ## The chunks at run time -/

/-- A conversion as the run time finds it. -/
def runConversion (c : Conversion Str) : Element :=
  .conversion ⟨c.flags, (runField (c.width.map unsignedValue)).map BitVec.toInt,
    (runField (c.precision.map unsignedValue)).map BitVec.toInt, c.type⟩

theorem itemElement_conversion (c : Conversion Str) :
    itemElement (.directive ⟨c.flags.run, runField (c.width.map unsignedValue),
      runField (c.precision.map unsignedValue), c.type.run.1⟩ c.type.run.2) = runConversion c := by
  have hne : c.type.run.2 ≠ chr '%' := by
    cases c.type <;> decide
  unfold itemElement
  simp only [hne, if_false, runType_run]
  rfl

def Chunk.runElement : Chunk → Element
  | .cell x => .byte x.byte
  | .conversion c => runConversion c

theorem itemDirective_percent (rest : Str) :
    itemDirective (chr '%' :: rest) =
      (.directive ⟨.zero, .unspecified, .unspecified, .none⟩ (chr '%'), rest) := by
  rfl

/-- Without escaped `%` the run time finds the chunks one by one. -/
theorem itemsOf_chunks (chunks : List Chunk)
    (h : ∀ x, .cell x ∈ chunks → ¬ (x.byte = chr '%' ∧ x.escaped = true)) :
    (itemsOf (chunks.flatMap bytes)).map itemElement = chunks.map runElement := by
  induction chunks with
  | nil => rfl
  | cons x chunks ih =>
    have hrest := ih fun y hy => h y (mem_cons_of_mem _ hy)
    rw [flatMap_cons, map_cons, ← hrest]
    cases x with
    | cell x =>
      have hx := h x mem_cons_self
      obtain ⟨c, escaped⟩ := x
      by_cases hc : c = chr '%'
      · subst hc
        cases escaped with
        | true => exact absurd ⟨rfl, rfl⟩ hx
        | false =>
          show (itemsOf (chr '%' :: chr '%' :: _)).map itemElement = _
          rw [itemsOf_percent, itemDirective_percent]
          rfl
      · have hbytes : bytes (.cell ⟨c, escaped⟩) = [c] := by
          simp [bytes, Cell.bytes, hc]
        rw [hbytes, singleton_append, itemsOf_byte hc]
        rfl
    | conversion c =>
      show (itemsOf (chr '%' :: ((c.map unsignedValue).toStr ++ _))).map itemElement = _
      rw [itemsOf_percent, itemDirective_toStr, map_cons]
      exact congrArg (· :: _) (itemElement_conversion c)

/-- A number arrives if it is not zero and fits into an `int`. -/
theorem runField_iff (f : FormatField Str) :
    (runField (f.map unsignedValue)).map BitVec.toInt = f.map (fun digits => (natValue digits : Int)) ↔
      Fits f := by
  cases f with
  | unspecified | dynamic => exact ⟨fun _ => trivial, fun _ => rfl⟩
  | static digits =>
    show (if 0 < unsignedValue digits then FormatField.static (BitVec.ofNat 32 (unsignedValue digits))
        else .unspecified).map BitVec.toInt = .static (natValue digits : Int) ↔
      0 < natValue digits ∧ natValue digits < 2 ^ 31
    rw [unsignedValue_eq]
    generalize natValue digits = n
    by_cases hpos : 0 < n % 2 ^ 32
    · rw [if_pos hpos, FormatField.map, FormatField.static.injEq, BitVec.toInt_eq_toNat_cond,
        BitVec.toNat_ofNat]
      split <;> omega
    · rw [if_neg hpos]
      refine ⟨nofun, fun h => ?_⟩
      omega

theorem runConversion_iff (c : Conversion Str) :
    element (.conversion c) = runConversion c ↔ Fits c.width ∧ Fits c.precision := by
  rw [← runField_iff, ← runField_iff]
  unfold element runConversion Conversion.map
  simp only [Element.conversion.injEq, Conversion.mk.injEq, true_and, and_true]
  exact ⟨fun h => ⟨h.1.symm, h.2.symm⟩, fun h => ⟨h.1.symm, h.2.symm⟩⟩

/-! ## Counting -/

/-- The `%` in the format that an element stands for. -/
def Element.percents : Element → Nat
  | .byte c => if c = chr '%' then 2 else 0
  | .conversion _ | .other => 1

theorem percents_itemElement {i : Item} (hi : i ≠ .byte (chr '%')) :
    (itemElement i).percents = i.percents := by
  cases i with
  | byte c =>
    have hc : c ≠ chr '%' := fun h => hi (by rw [h])
    simp [itemElement, Element.percents, Item.percents, hc]
  | unfinished s => rfl
  | directive s c =>
    unfold itemElement Item.percents
    dsimp only
    by_cases hc : c = chr '%'
    · rw [if_pos hc, if_pos hc, hc]
      rfl
    · rw [if_neg hc, if_neg hc]
      split <;> rfl

theorem percent_not_mem_itemsOf (fmt : Str) : .byte (chr '%') ∉ itemsOf fmt := by
  induction fmt using itemsOf_induction with
  | nil => exact not_mem_nil
  | byte c fmt hc ih =>
    rw [itemsOf_byte hc, mem_cons]
    rintro (h | h)
    · cases h
      exact hc rfl
    · exact ih h
  | percent fmt ih =>
    rw [itemsOf_percent, mem_cons]
    rintro (h | h)
    · rcases itemDirective_cases fmt with ⟨s, hi, -⟩ | ⟨s, c, rest, hi, -⟩ <;>
      · rw [hi] at h
        cases h
    · exact ih h

/-- The elements of a format count its `%`. -/
theorem sum_element_percents (fmt : Str) :
    (((itemsOf fmt).map itemElement).map Element.percents).sum = fmt.count (chr '%') := by
  rw [← sum_percents, map_map]
  refine congrArg sum (map_congr_left fun i hi => percents_itemElement ?_)
  rintro rfl
  exact percent_not_mem_itemsOf fmt hi

/-- The escaped `%` of a format. -/
def Chunk.escapes : Chunk → Nat
  | .cell x => if x.byte = chr '%' ∧ x.escaped = true then 1 else 0
  | .conversion _ => 0

theorem percents_chunk (x : Chunk) : x.element.percents = x.bytes.count (chr '%') + x.escapes := by
  cases x with
  | cell x =>
    obtain ⟨c, escaped⟩ := x
    by_cases hc : c = chr '%'
    · subst hc
      cases escaped <;> rfl
    · simp [element, Element.percents, bytes, Cell.bytes, escapes, hc]
  | conversion c =>
    have hinert : count (chr '%') (c.map unsignedValue).toStr = 0 :=
      count_eq_zero_of_not_mem fun h => (inert_toStr _ _ h).ne (by decide) rfl
    show 1 = count (chr '%') (chr '%' :: (c.map unsignedValue).toStr) + 0
    rw [count_cons_self, hinert]

theorem sum_chunk_percents (chunks : List Chunk) :
    ((chunks.map element).map Element.percents).sum =
      (chunks.flatMap bytes).count (chr '%') + (chunks.map escapes).sum := by
  induction chunks with
  | nil => rfl
  | cons x chunks ih =>
    rw [map_cons, map_cons, sum_cons, ih, percents_chunk, flatMap_cons,
      count_append, map_cons, sum_cons]
    omega

/-! ## The condition -/

theorem zero_mem_chunks {chunks : List Chunk} (h : 0 ∈ chunks.flatMap bytes) :
    ∃ x, .cell x ∈ chunks ∧ x.byte = 0 := by
  obtain ⟨x, hx, h0⟩ := mem_flatMap.1 h
  cases x with
  | cell x =>
    refine ⟨x, hx, ?_⟩
    have hmem : 0 ∈ x.bytes := h0
    unfold Cell.bytes at hmem
    split at hmem
    · exact absurd hmem (by decide)
    · exact (mem_singleton.1 hmem).symm
  | conversion c =>
    rcases mem_cons.1 h0 with h0 | h0
    · exact absurd h0 (by decide)
    · exact absurd rfl ((inert_toStr _ _ h0).ne (by decide))

theorem zero_not_mem_cString (fmt : Str) : 0 ∉ cString fmt := by
  intro h
  have hne := mem_takeWhile_imp h
  simp at hne

/-- The run time finds no zero byte. -/
theorem zero_not_mem_items (fmt : Str) : .byte 0 ∉ (items fmt).map itemElement := by
  intro h
  obtain ⟨i, hi, heq⟩ := mem_map.1 h
  cases i with
  | byte c =>
    cases heq
    exact zero_not_mem_cString fmt (byte_mem_items hi)
  | unfinished s => cases heq
  | directive s c =>
    unfold itemElement at heq
    dsimp only at heq
    split at heq
    · next hc =>
      cases heq
      exact absurd hc (by decide)
    · split at heq <;> cases heq

theorem chunks_survive_iff (chunks : List Chunk) :
    (items (chunks.flatMap bytes)).map itemElement = chunks.map element ↔
      ∀ x ∈ chunks, x.Intact := by
  constructor
  · intro h
    have hzero : ∀ x, .cell x ∈ chunks → x.byte ≠ 0 := by
      intro x hx h0
      refine zero_not_mem_items (chunks.flatMap bytes) ?_
      rw [h]
      exact mem_map.2 ⟨_, hx, by rw [element, h0]⟩
    have hfmt : 0 ∉ chunks.flatMap bytes := by
      intro h0
      obtain ⟨x, hx, hx0⟩ := zero_mem_chunks h0
      exact hzero x hx hx0
    rw [items_eq_itemsOf hfmt] at h
    -- each literal `%` took two from the format, so none of them was written by an escape
    have hescapes : (chunks.map escapes).sum = 0 := by
      have hrun := sum_element_percents (chunks.flatMap bytes)
      rw [h, sum_chunk_percents] at hrun
      omega
    have hclean : ∀ x, .cell x ∈ chunks → ¬ (x.byte = chr '%' ∧ x.escaped = true) := by
      intro x hx hesc
      have hx0 : (if x.byte = chr '%' ∧ x.escaped = true then 1 else 0) = 0 :=
        sum_eq_zero_iff.1 hescapes _ (mem_map_of_mem hx)
      rw [if_pos hesc] at hx0
      cases hx0
    rw [itemsOf_chunks chunks hclean] at h
    intro x hx
    cases x with
    | cell x => exact ⟨hzero x hx, hclean x hx⟩
    | conversion c => exact (runConversion_iff c).1 (map_inj_left.1 h _ hx).symm
  · intro h
    have hclean : ∀ x, .cell x ∈ chunks → ¬ (x.byte = chr '%' ∧ x.escaped = true) :=
      fun x hx => (h _ hx).2
    have hfmt : 0 ∉ chunks.flatMap bytes := by
      intro h0
      obtain ⟨x, hx, hx0⟩ := zero_mem_chunks h0
      exact (h _ hx).1 hx0
    rw [items_eq_itemsOf hfmt, itemsOf_chunks chunks hclean]
    refine map_congr_left fun x hx => ?_
    cases x with
    | cell x => rfl
    | conversion c => exact ((runConversion_iff c).2 (h _ hx)).symm

variable {cs : List (Component Str)}

theorem Laid.wellEscaped {first : Bool} (h : Laid first cs) {s : Str} (hs : .literal s ∈ cs) :
    Lex.wellEscaped s = true := by
  induction h with
  | nil => cases hs
  | literal h _ ih =>
    rcases mem_cons.1 hs with hs | hs
    · cases hs
      exact h
    · exact ih hs
  | conversion c _ ih =>
    rcases mem_cons.1 hs with hs | hs
    · cases hs
    · exact ih hs

theorem allElements_eq_none {c : Component Str} (hc : c ∈ cs)
    (h : c.elements = none) : allElements cs = none := by
  induction cs with
  | nil => cases hc
  | cons d cs ih =>
    unfold allElements
    rcases mem_cons.1 hc with rfl | hc
    · rw [h]
      rfl
    · rw [ih hc]
      cases d.elements <;> rfl

/-- The components of a format string arrive if and only if each of them is intact. -/
theorem laid_survives_iff (h : Laid true cs) :
    (∃ es, allElements cs = some es ∧
      runElements (componentsToString (cs.map (Component.map unsignedValue))) = some es) ↔
        ∀ c ∈ cs, c.Intact := by
  by_cases hn : ∀ s, .literal s ∈ cs → newline ∉ s
  · obtain ⟨chunks, hchunks⟩ := h.chunked hn (q := .plain) (by decide) fun _ => rfl
    rw [hchunks.intact, ← chunks_survive_iff, hchunks.elements]
    unfold runElements
    rw [hchunks.read, show CState.plain.flush = [] from rfl, nil_append]
    constructor
    · rintro ⟨es, hes, hrun⟩
      cases hes
      exact Option.some.inj hrun
    · intro heq
      exact ⟨_, rfl, congrArg some heq⟩
  · -- C refuses a literal with a line end
    simp only [not_forall, not_not] at hn
    obtain ⟨s, hs, hline⟩ := hn
    have hdecode := decode_eq_none (h.wellEscaped hs) hline
    constructor
    · rintro ⟨es, hes, -⟩
      have hnone : (Component.literal s : Component Str).elements = none := by
        rw [Component.elements, hdecode]
        rfl
      rw [allElements_eq_none hs hnone] at hes
      cases hes
    · intro hall
      obtain ⟨o, ho, -⟩ := hall _ hs
      rw [hdecode] at ho
      cases ho

/-- A format string survives if and only if C accepts its literals, no escape in them denotes a zero or
a `%`, and its static widths and precisions are not zero and fit into an `int`. -/
theorem survives_iff {v : Str} (hv : Lexed v) :
    Survives v ↔ ∀ cs, digitComponents v = .ok cs → ∀ c ∈ cs, c.Intact := by
  unfold Survives stringToComponents scriptElements
  cases hcs : digitComponents v with
  | error e => exact ⟨fun _ => nofun, fun _ => nofun⟩
  | ok cs =>
    have hlaid := digitComponents_laid ((lexed_iff v).1 hv) hcs
    constructor
    · intro h cs' heq
      cases heq
      exact (laid_survives_iff hlaid).1 (h _ rfl)
    · intro h cs' heq
      cases heq
      exact (laid_survives_iff hlaid).2 (h cs rfl)

/-- `a %-5.3d 100%%` -/
def sampleFormat : Str := "a %-5.3d 100%%".toList.map chr

/-- A format with a flag, a width and a precision, and with a `%`. -/
theorem sampleFormat_survives : Lexed sampleFormat ∧ Survives sampleFormat := by
  have hlexed : Lexed sampleFormat := (lexed_iff _).2 (by decide +kernel)
  have hcs : digitComponents sampleFormat = .ok [.literal ("a ".toList.map chr),
      .conversion ⟨{ FormatFlags.none with left := true }, .static [chr '5'], .static [chr '3'],
        .signedDecimal⟩, .literal (" 100%".toList.map chr)] := by decide +kernel
  refine ⟨hlexed, (survives_iff hlexed).2 fun cs h => ?_⟩
  rw [hcs] at h
  cases h
  simp only [forall_mem_cons, not_mem_nil, false_imp_iff, implies_true, and_true]
  refine ⟨⟨"a ".toList.map chr, ?_⟩, ⟨?_, ?_⟩, ⟨" 100%".toList.map chr, ?_⟩⟩
  · decide +kernel
  · show 0 < natValue [chr '5'] ∧ natValue [chr '5'] < 2 ^ 31
    decide +kernel
  · show 0 < natValue [chr '3'] ∧ natValue [chr '3'] < 2 ^ 31
    decide +kernel
  · decide +kernel

/-! ## Formats that do not survive -/

theorem not_survives {v : Str} {cs : List (Component Nat)} {es es' : List Element}
    (hcs : stringToComponents v = .ok cs) (hscript : scriptElements v = some es)
    (hrun : runElements (componentsToString cs) = some es') (hne : es ≠ es') : ¬ Survives v := by
  intro h
  obtain ⟨es'', hs, hr⟩ := h cs hcs
  rw [hscript] at hs
  rw [hrun] at hr
  cases hs
  cases hr
  exact hne rfl

/-- `%.0d` -/
def zeroPrecision : Str := "%.0d".toList.map chr

/-- `\045s`, an escape that denotes `%`, and an `s` -/
def octalPercent : Str := "\\045s".toList.map chr

/-- The precision of `%.0d` is lost on the way, and of the literal `\045s` the run time makes a
conversion. -/
theorem formats_lost :
    Lexed zeroPrecision ∧ Lexed octalPercent ∧
      (∃ cs, stringToComponents zeroPrecision = .ok cs ∧
        scriptElements zeroPrecision =
          some [.conversion ⟨.none, .unspecified, .static 0, .signedDecimal⟩] ∧
        runElements (componentsToString cs) =
          some [.conversion ⟨.none, .unspecified, .unspecified, .signedDecimal⟩]) ∧
      (∃ cs, stringToComponents octalPercent = .ok cs ∧
        scriptElements octalPercent = some [.byte (chr '%'), .byte (chr 's')] ∧
        runElements (componentsToString cs) =
          some [.conversion ⟨.none, .unspecified, .unspecified, .string⟩]) ∧
      ¬ Survives zeroPrecision ∧ ¬ Survives octalPercent := by
  have hcs : stringToComponents zeroPrecision =
      .ok [.conversion ⟨.none, .unspecified, .static 0, .signedDecimal⟩] := by decide +kernel
  have hscript : scriptElements zeroPrecision =
      some [.conversion ⟨.none, .unspecified, .static 0, .signedDecimal⟩] := by decide +kernel
  have hrun : runElements (componentsToString
      [.conversion ⟨.none, .unspecified, .static 0, .signedDecimal⟩]) =
        some [.conversion ⟨.none, .unspecified, .unspecified, .signedDecimal⟩] := by decide +kernel
  have hcs' : stringToComponents octalPercent = .ok [.literal octalPercent] := by decide +kernel
  have hscript' : scriptElements octalPercent = some [.byte (chr '%'), .byte (chr 's')] := by
    decide +kernel
  have hrun' : runElements (componentsToString [.literal octalPercent]) =
      some [.conversion ⟨.none, .unspecified, .unspecified, .string⟩] := by decide +kernel
  refine ⟨(lexed_iff _).2 (by decide +kernel), (lexed_iff _).2 (by decide +kernel),
    ⟨_, hcs, hscript, hrun⟩, ⟨_, hcs', hscript', hrun'⟩, ?_, ?_⟩
  · exact not_survives hcs hscript hrun nofun
  · exact not_survives hcs' hscript' hrun' nofun

end Systemtap.Trans
