import Systemtap.Runtime.Format

/-!
# What a format says

`_stp_vsnprintf` takes a format apart and fetches the arguments in one go. Here is the first of the two
alone: `items` is what stands in the format, and `pieces_eq_fetch` says that `pieces` is this with the
arguments put in.
-/

namespace Systemtap.Runtime

open Systemtap.Tree Systemtap.Lex List Nat

/-- A width or a precision: none, a number, or `*`. -/
inductive FormatField (α : Type) where
  | unspecified
  | static (a : α)
  | dynamic
deriving DecidableEq, Repr

namespace FormatField

variable {α β : Type}

def map (f : α → β) : FormatField α → FormatField β
  | unspecified => unspecified
  | static a => static (f a)
  | dynamic => dynamic

end FormatField

/-- `get field width` -/
def widthField (fmt : Str) : FormatField I32 × Str :=
  match fmt with
  | [] => (.unspecified, [])
  | c :: rest =>
    if isdigit c then (.static (skipAtoi 0 fmt).1, (skipAtoi 0 fmt).2)
    else if c = chr '*' then (.dynamic, rest)
    else (.unspecified, fmt)

/-- `get the precision` -/
def precisionField (fmt : Str) : FormatField I32 × Str :=
  match fmt with
  | [] => (.unspecified, [])
  | c :: rest =>
    if c = chr '.' then
      match rest with
      | [] => (.static (-1), [])
      | c :: rest' =>
        if isdigit c then (.static (skipAtoi 0 rest).1, (skipAtoi 0 rest).2)
        else if c = chr '*' then (.dynamic, rest')
        else (.static (-1), rest)
    else (.unspecified, fmt)

/-- What stands between a `%` and its conversion character. -/
structure Spec where
  flags : PrintFlags
  width : FormatField I32
  precision : FormatField I32
  qualifier : Qualifier
deriving DecidableEq

inductive Item where
  | byte (c : UInt8)
  | directive (s : Spec) (c : UInt8)
  /-- The format ends before the conversion character. -/
  | unfinished (s : Spec)
deriving DecidableEq

/-- What follows a `%`. -/
def itemDirective (fmt : Str) : Item × Str :=
  let f := takeFlags .zero fmt
  let w := widthField f.2
  let p := precisionField w.2
  let q := takeQualifier p.2
  match q.2 with
  | [] => (.unfinished ⟨f.1, w.1, p.1, q.1⟩, [])
  | c :: rest => (.directive ⟨f.1, w.1, p.1, q.1⟩ c, rest)

def itemsLoop : Nat → Str → List Item
  | 0, _ => []
  | _ + 1, [] => []
  | fuel + 1, c :: fmt =>
    if c = chr '%' then
      let r := itemDirective fmt
      r.1 :: itemsLoop fuel r.2
    else .byte c :: itemsLoop fuel fmt

/-- What stands in a format. -/
def items (fmt : Str) : List Item := itemsLoop (cString fmt).length (cString fmt)

/-! ## The arguments put in -/

/-- The width and the flags, and the arguments left. -/
def FormatField.fetchWidth (flags : PrintFlags) (args : List Arg) :
    FormatField I32 → Option I32 × PrintFlags × List Arg
  | .unspecified => (none, flags, args)
  | .static w => (some w, flags, args)
  | .dynamic =>
    let w := vaInt args
    if w.1.slt 0 then (some (-w.1), { flags with left := true }, w.2) else (some w.1, flags, w.2)

def FormatField.fetchPrecision (args : List Arg) : FormatField I32 → Option I32 × List Arg
  | .unspecified => (none, args)
  | .static p => (some p, args)
  | .dynamic => (some (vaInt args).1, (vaInt args).2)

def Item.fetch (args : List Arg) : Item → Piece × List Arg
  | .byte c => (.byte c, args)
  | .directive s c =>
    let w := s.width.fetchWidth s.flags args
    let p := s.precision.fetchPrecision w.2.2
    convert ⟨w.2.1, w.1, p.1, s.qualifier⟩ c p.2
  | .unfinished s =>
    let w := s.width.fetchWidth s.flags args
    (.unknown none, (s.precision.fetchPrecision w.2.2).2)

def fetchAll : List Item → List Arg → List Piece
  | [], _ => []
  | i :: is, args => (i.fetch args).1 :: fetchAll is (i.fetch args).2

theorem takeWidth_eq (flags : PrintFlags) (fmt : Str) (args : List Arg) :
    takeWidth flags fmt args =
      let w := (widthField fmt).1.fetchWidth flags args
      (w.1, w.2.1, (widthField fmt).2, w.2.2) := by
  cases fmt with
  | nil => rfl
  | cons c rest =>
    unfold takeWidth widthField
    dsimp only
    split
    · rfl
    · split
      · unfold FormatField.fetchWidth
        dsimp only
        split <;> rfl
      · rfl

theorem takePrecision_eq (fmt : Str) (args : List Arg) :
    takePrecision fmt args =
      let p := (precisionField fmt).1.fetchPrecision args
      (p.1, (precisionField fmt).2, p.2) := by
  cases fmt with
  | nil => rfl
  | cons c rest =>
    unfold takePrecision precisionField
    dsimp only
    split
    · cases rest with
      | nil => rfl
      | cons d rest' =>
        dsimp only
        split
        · rfl
        · split <;> rfl
    · rfl

theorem takeDirective_eq (fmt : Str) (args : List Arg) :
    takeDirective fmt args =
      let i := (itemDirective fmt).1.fetch args
      (i.1, (itemDirective fmt).2, i.2) := by
  unfold takeDirective itemDirective
  simp only [takeWidth_eq, takePrecision_eq]
  cases (takeQualifier (precisionField (widthField (takeFlags .zero fmt).2).2).2).2 <;> rfl

theorem piecesLoop_eq (fuel : Nat) (fmt : Str) (args : List Arg) :
    piecesLoop fuel fmt args = fetchAll (itemsLoop fuel fmt) args := by
  induction fuel generalizing fmt args with
  | zero => rfl
  | succ fuel ih =>
    cases fmt with
    | nil => rfl
    | cons c fmt =>
      unfold piecesLoop itemsLoop
      split
      · dsimp only
        rw [takeDirective_eq, ih]
        rfl
      · rw [ih]
        rfl

/-- `pieces` are the items of the format, with the arguments put in. -/
theorem pieces_eq_fetch (fmt : Str) (args : List Arg) : pieces fmt args = fetchAll (items fmt) args :=
  piecesLoop_eq _ _ args

/-! ## What is read

Everything between a `%` and its conversion character is passed over. `Passes b fmt rest` says that
`rest` is what is left of `fmt` after bytes that are not `b`.
-/

/-- `rest` is the end of `fmt`, and no `b` stands before it. -/
def Passes (b : UInt8) (fmt rest : Str) : Prop := ∃ skipped, fmt = skipped ++ rest ∧ b ∉ skipped

namespace Passes

variable {b : UInt8}

theorem refl (fmt : Str) : Passes b fmt fmt := ⟨[], rfl, not_mem_nil⟩

theorem trans {r s t : Str} (hrs : Passes b r s) (hst : Passes b s t) : Passes b r t := by
  obtain ⟨u, rfl, hu⟩ := hrs
  obtain ⟨w, rfl, hw⟩ := hst
  refine ⟨u ++ w, (append_assoc _ _ _).symm, ?_⟩
  rw [mem_append]
  exact fun h => h.elim hu hw

variable {fmt rest : Str}

theorem cons {c : UInt8} (hc : c ≠ b) (h : Passes b fmt rest) : Passes b (c :: fmt) rest := by
  obtain ⟨s, rfl, hs⟩ := h
  refine ⟨c :: s, rfl, ?_⟩
  rw [mem_cons]
  exact fun h => h.elim (fun h => hc h.symm) hs

theorem length_le (h : Passes b fmt rest) : rest.length ≤ fmt.length := by
  obtain ⟨s, rfl, -⟩ := h
  rw [length_append]
  exact le_add_left _ _

theorem count_eq (h : Passes b fmt rest) : rest.count b = fmt.count b := by
  obtain ⟨s, rfl, hs⟩ := h
  rw [count_append, count_eq_zero_of_not_mem hs, zero_add]

theorem subset (h : Passes b fmt rest) : rest ⊆ fmt := by
  obtain ⟨s, rfl, -⟩ := h
  exact subset_append_right s rest

end Passes

theorem takeFlags_passes (flags : PrintFlags) (fmt : Str) : Passes (chr '%') fmt (takeFlags flags fmt).2 := by
  induction fmt generalizing flags with
  | nil => exact .refl _
  | cons c fmt ih =>
    unfold takeFlags
    split_ifs with h h h h h
    all_goals first
      | exact .cons (by rw [h]; decide) (ih _)
      | exact .refl _

theorem isdigit_ne {c d : UInt8} (hc : isdigit c = true) (hd : isdigit d = false) : c ≠ d := by
  rintro rfl
  rw [hc] at hd
  cases hd

theorem skipAtoi_passes (i : I32) (fmt : Str) : Passes (chr '%') fmt (skipAtoi i fmt).2 := by
  induction fmt generalizing i with
  | nil => exact .refl _
  | cons c fmt ih =>
    unfold skipAtoi
    split
    · next h => exact .cons (isdigit_ne h (by decide)) (ih _)
    · exact .refl _

theorem widthField_passes (fmt : Str) : Passes (chr '%') fmt (widthField fmt).2 := by
  cases fmt with
  | nil => exact .refl _
  | cons c rest =>
    unfold widthField
    dsimp only
    split_ifs with hd hs
    · exact skipAtoi_passes 0 _
    · exact .cons (by rw [hs]; decide) (.refl _)
    · exact .refl _

theorem precisionField_passes (fmt : Str) : Passes (chr '%') fmt (precisionField fmt).2 := by
  cases fmt with
  | nil => exact .refl _
  | cons c rest =>
    unfold precisionField
    dsimp only
    split
    · next hc =>
      refine .cons (by rw [hc]; decide) ?_
      cases rest with
      | nil => exact .refl _
      | cons d rest' =>
        dsimp only
        split_ifs with hd hs
        · exact skipAtoi_passes 0 _
        · exact .cons (by rw [hs]; decide) (.refl _)
        · exact .refl _
    · exact .refl _

theorem takeQualifier_passes (fmt : Str) : Passes (chr '%') fmt (takeQualifier fmt).2 := by
  cases fmt with
  | nil => exact .refl _
  | cons c rest =>
    unfold takeQualifier
    dsimp only
    split_ifs with hh hl hL
    · exact .cons (by rw [hh]; decide) (.refl _)
    · refine .cons (by rw [hl]; decide) ?_
      cases rest with
      | nil => exact .refl _
      | cons d rest' =>
        dsimp only
        split_ifs with hd
        · exact .cons (by rw [hd]; decide) (.refl _)
        · exact .refl _
    · exact .cons (by rw [hL]; decide) (.refl _)
    · exact .refl _

/-- A directive ends with the format, or at its conversion character. -/
theorem itemDirective_cases (fmt : Str) :
    (∃ s, itemDirective fmt = (.unfinished s, []) ∧ Passes (chr '%') fmt []) ∨
      ∃ s c rest, itemDirective fmt = (.directive s c, rest) ∧ Passes (chr '%') fmt (c :: rest) := by
  have hpass : Passes (chr '%') fmt (takeQualifier (precisionField (widthField (takeFlags .zero fmt).2).2).2).2 :=
    (takeFlags_passes .zero fmt).trans <| (widthField_passes _).trans <|
      (precisionField_passes _).trans (takeQualifier_passes _)
  unfold itemDirective
  dsimp only
  cases hq : (takeQualifier (precisionField (widthField (takeFlags .zero fmt).2).2).2).2 with
  | nil => exact .inl ⟨_, rfl, hq ▸ hpass⟩
  | cons c rest => exact .inr ⟨_, c, rest, rfl, hq ▸ hpass⟩

theorem itemDirective_length_le (fmt : Str) : (itemDirective fmt).2.length ≤ fmt.length := by
  rcases itemDirective_cases fmt with ⟨s, h, -⟩ | ⟨s, c, rest, h, hpass⟩
  · rw [h]
    exact zero_le _
  · rw [h]
    exact (le_succ _).trans hpass.length_le

/-- The items of a format without a zero byte. -/
def itemsOf (fmt : Str) : List Item := itemsLoop fmt.length fmt

theorem itemsLoop_eq (fuel : Nat) (fmt : Str) (h : fmt.length ≤ fuel) :
    itemsLoop fuel fmt = itemsOf fmt := by
  -- the fuel of both is used up together
  suffices ∀ m n fmt, fmt.length ≤ m → fmt.length ≤ n → itemsLoop m fmt = itemsLoop n fmt from
    this _ _ fmt h (le_refl _)
  clear h fmt fuel
  intro m
  induction m with
  | zero =>
    intro n fmt hm hn
    rw [eq_nil_of_length_eq_zero (le_zero.1 hm)]
    cases n <;> rfl
  | succ m ih =>
    intro n fmt hm hn
    cases fmt with
    | nil => cases n <;> rfl
    | cons c fmt =>
      cases n with
      | zero => exact absurd hn (not_succ_le_zero _)
      | succ n =>
        have hm' : fmt.length ≤ m := le_of_succ_le_succ hm
        have hn' : fmt.length ≤ n := le_of_succ_le_succ hn
        have hle := itemDirective_length_le fmt
        unfold itemsLoop
        dsimp only
        rw [ih n fmt hm' hn', ih n _ (hle.trans hm') (hle.trans hn')]

/-- The loop of the code comes to the end of the format: more rounds change nothing. -/
theorem piecesLoop_of_le {fuel fuel' : Nat} {fmt : Str} (args : List Arg) (h : fmt.length ≤ fuel)
    (h' : fmt.length ≤ fuel') : piecesLoop fuel fmt args = piecesLoop fuel' fmt args := by
  rw [piecesLoop_eq, piecesLoop_eq, itemsLoop_eq _ _ h, itemsLoop_eq _ _ h']

theorem itemsOf_byte {c : UInt8} (hc : c ≠ chr '%') (fmt : Str) :
    itemsOf (c :: fmt) = .byte c :: itemsOf fmt := by
  show (if c = chr '%' then (itemDirective fmt).1 :: itemsLoop fmt.length (itemDirective fmt).2
    else .byte c :: itemsLoop fmt.length fmt) = _
  rw [if_neg hc]
  rfl

theorem itemsOf_percent (fmt : Str) :
    itemsOf (chr '%' :: fmt) = (itemDirective fmt).1 :: itemsOf (itemDirective fmt).2 := by
  show (if chr '%' = chr '%' then (itemDirective fmt).1 :: itemsLoop fmt.length (itemDirective fmt).2
    else .byte (chr '%') :: itemsLoop fmt.length fmt) = _
  rw [if_pos rfl, itemsLoop_eq _ _ (itemDirective_length_le fmt)]

theorem items_eq_itemsOf {fmt : Str} (h : 0 ∉ fmt) : items fmt = itemsOf fmt := by
  have hc : cString fmt = fmt := by
    unfold cString
    rw [takeWhile_eq_self_iff]
    intro c hc
    rw [decide_eq_true_eq]
    rintro rfl
    exact h hc
  unfold items
  rw [hc]
  rfl

/-- Induction over the items of a format. -/
theorem itemsOf_induction {P : Str → Prop} (nil : P [])
    (byte : ∀ c fmt, c ≠ chr '%' → P fmt → P (c :: fmt))
    (percent : ∀ fmt, P (itemDirective fmt).2 → P (chr '%' :: fmt)) (fmt : Str) : P fmt := by
  induction hn : fmt.length using Nat.strongRecOn generalizing fmt with
  | _ n ih =>
    subst hn
    cases fmt with
    | nil => exact nil
    | cons c fmt =>
      by_cases hc : c = chr '%'
      · rw [hc]
        refine percent fmt (ih _ ?_ _ rfl)
        exact lt_succ_of_le (itemDirective_length_le fmt)
      · exact byte c fmt hc (ih _ (lt_succ_self _) _ rfl)

/-- The `%` that an item has taken from the format. -/
def Item.percents : Item → Nat
  | .byte _ => 0
  | .directive _ c => if c = chr '%' then 2 else 1
  | .unfinished _ => 1

theorem sum_percents (fmt : Str) : ((itemsOf fmt).map Item.percents).sum = fmt.count (chr '%') := by
  induction fmt using itemsOf_induction with
  | nil => rfl
  | byte c fmt hc ih =>
    rw [itemsOf_byte hc, map_cons, sum_cons, ih, count_cons_of_ne hc]
    exact zero_add _
  | percent fmt ih =>
    rw [itemsOf_percent, map_cons, sum_cons, ih, count_cons_self]
    rcases itemDirective_cases fmt with ⟨s, h, hpass⟩ | ⟨s, c, rest, h, hpass⟩
    · rw [h, ← hpass.count_eq]
      rfl
    · rw [h, ← hpass.count_eq]
      unfold Item.percents
      dsimp only
      split
      · next hc => rw [hc, count_cons_self]; omega
      · next hc => rw [count_cons_of_ne hc]; omega

theorem byte_mem_items {c : UInt8} {fmt : Str} (h : .byte c ∈ itemsOf fmt) : c ∈ fmt := by
  induction fmt using itemsOf_induction with
  | nil => cases h
  | byte d fmt hd ih =>
    rw [itemsOf_byte hd] at h
    rcases mem_cons.1 h with h | h
    · cases h
      exact mem_cons_self
    · exact mem_cons_of_mem _ (ih h)
  | percent fmt ih =>
    rw [itemsOf_percent] at h
    rcases itemDirective_cases fmt with ⟨s, hi, hpass⟩ | ⟨s, d, rest, hi, hpass⟩
    · rw [hi] at h
      rcases mem_cons.1 h with h | h
      · cases h
      · cases h
    · rw [hi] at h ih
      rcases mem_cons.1 h with h | h
      · cases h
      · exact mem_cons_of_mem _ (hpass.subset (mem_cons_of_mem _ (ih h)))

end Systemtap.Runtime
