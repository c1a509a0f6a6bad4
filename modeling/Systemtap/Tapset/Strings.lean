import Systemtap.Tapset.NextProbe

/-!
# The string tapset

`tokenize` and `str_replace` of `string.stp`. A string is the list of its bytes without the NUL, and `size` is
`MAXSTRINGLEN`. The pointers of `tokenize` are offsets into its static buffer.
-/

namespace Systemtap.Tapset.Strings

open List ProbeScn Option

/-! ## `str_replace` -/

/-- `strlcat (dest, src, size)` -/
def strlcat (size : Nat) (dest src : List UInt8) : List UInt8 :=
  dest ++ src.take (size - dest.length - 1)

def strstr (srch : List UInt8) : List UInt8 → Option Nat
  | [] => if srch = [] then some 0 else none
  | c :: text => if srch <+: c :: text then some 0 else (strstr srch text).map (· + 1)

theorem strstr_le {srch : List UInt8} :
    ∀ {text : List UInt8} {i : Nat}, strstr srch text = some i → i + srch.length ≤ text.length
  | [], i, h => by
    simp only [strstr, ite_none_right_eq_some, some.injEq] at h
    simp [h.1, ← h.2]
  | c :: text, i, h => by
    simp only [strstr] at h
    split at h
    next hp => cases h; simpa using hp.length_le
    next =>
      obtain ⟨j, hj, rfl⟩ := map_eq_some_iff.1 h
      have := strstr_le hj
      simp only [length_cons]
      omega

/-- The loop, where `text` is what `ptr_base` points to. Its first `i` bytes are left of it once `*ptr` is cut. -/
def replaceLoop (size : Nat) (srch rplc : List UInt8) (hs : srch ≠ []) (retvalue text : List UInt8) :
    List UInt8 :=
  match _h : strstr srch text with
  | none => strlcat size retvalue text
  | some i =>
    replaceLoop size srch rplc hs (strlcat size (strlcat size retvalue (text.take i)) rplc)
      (text.drop (i + srch.length))
termination_by text.length
decreasing_by
  have h1 := strstr_le _h
  have h2 := length_pos_iff.2 hs
  simp only [length_drop]
  omega

def strReplace (size : Nat) (prnt srch rplc : List UInt8) : List UInt8 :=
  if hs : srch = [] then strlcat size [] prnt else replaceLoop size srch rplc hs [] prnt

/-- Every occurrence that does not overlap one before it is replaced. -/
def replaceAll (srch rplc : List UInt8) : List UInt8 → List UInt8
  | [] => []
  | c :: text =>
    if _h : srch ≠ [] ∧ srch <+: c :: text then rplc ++ replaceAll srch rplc ((c :: text).drop srch.length)
    else c :: replaceAll srch rplc text
termination_by text => text.length
decreasing_by
  · have := length_pos_iff.2 _h.1
    simp only [length_drop, length_cons]
    omega
  · simp

theorem replaceAll_nil (rplc text : List UInt8) : replaceAll [] rplc text = text := by
  induction text with
  | nil => rw [replaceAll]
  | cons c text ih => rw [replaceAll, dif_neg (by simp), ih]

/-- The leftmost occurrence is replaced first. -/
theorem replaceAll_eq {srch : List UInt8} (hs : srch ≠ []) (rplc text : List UInt8) :
    replaceAll srch rplc text = (strstr srch text).elim text
      fun i => text.take i ++ rplc ++ replaceAll srch rplc (text.drop (i + srch.length)) := by
  induction text with
  | nil => simp [replaceAll, strstr, hs]
  | cons c text ih =>
    by_cases hp : srch <+: c :: text
    · rw [replaceAll, dif_pos ⟨hs, hp⟩]
      simp [strstr, hp]
    · rw [replaceAll, dif_neg (fun h => hp h.2), ih]
      cases h : strstr srch text <;> simp [strstr, hp, h, Nat.add_right_comm]

theorem strlcat_take (size : Nat) (full src : List UInt8) :
    strlcat size (full.take (size - 1)) src = (full ++ src).take (size - 1) := by
  rw [strlcat, take_append, length_take]
  congr 2
  omega

/-- What stands in `__retvalue` is the beginning of `full`, the replacement of what is passed. -/
theorem replaceLoop_eq (size : Nat) (srch rplc : List UInt8) (hs : srch ≠ []) :
    ∀ full text : List UInt8, replaceLoop size srch rplc hs (full.take (size - 1)) text =
      (full ++ replaceAll srch rplc text).take (size - 1)
  | full, text => by
    unfold replaceLoop
    split
    next h => rw [strlcat_take, replaceAll_eq hs, h, elim_none]
    next i h =>
      have h1 := strstr_le h
      have h2 := length_pos_iff.2 hs
      rw [strlcat_take, strlcat_take, replaceLoop_eq, replaceAll_eq hs rplc text, h, elim_some]
      simp only [append_assoc]
  termination_by _ text => text.length
  decreasing_by
    simp only [length_drop]
    omega

theorem strReplace_eq_take (size : Nat) (prnt srch rplc : List UInt8) :
    strReplace size prnt srch rplc = (replaceAll srch rplc prnt).take (size - 1) := by
  unfold strReplace
  split
  next hs =>
    subst hs
    rw [replaceAll_nil]
    simpa using strlcat_take size [] prnt
  next hs => simpa using replaceLoop_eq size srch rplc hs [] prnt

/-! ## `tokenize` -/

/-- The static data. `strStart` is `none` for `NULL`. -/
structure Tokens where
  str : List UInt8
  strStart : Option Nat
  strEnd : Nat

/-- `strsep (&str_start, delim)` -/
def strsep (delim : List UInt8) (t : Tokens) : Option Nat × Tokens :=
  match t.strStart with
  | none => (none, t)
  | some s =>
    match ((t.str.drop s).takeWhile (· ≠ 0)).findIdx? (· ∈ delim) with
    | none => (some s, { t with strStart := none })
    | some k => (some s, { t with str := t.str.set (s + k) 0, strStart := some (s + k + 1) })

def Tokens.left (t : Tokens) : Nat := t.strStart.elim 0 fun s => t.str.length - s + 1

theorem strsep_left {delim : List UInt8} {t : Tokens} (h : (strsep delim t).1 ≠ none) :
    (strsep delim t).2.left < t.left := by
  revert h
  unfold strsep
  split
  next => simp
  next s hs =>
    split
    next => simp [Tokens.left, hs]
    next k hk =>
      have h1 := (findIdx?_eq_some_iff_findIdx_eq.1 hk).1
      have h2 := (takeWhile_sublist (l := t.str.drop s) (· ≠ 0)).length_le
      simp only [length_drop] at h2
      simp [Tokens.left, hs]
      omega

/-- The loop: `token` is taken again while it is empty. -/
def separate (delim : List UInt8) (t : Tokens) : Option Nat × Tokens :=
  if _h : (strsep delim t).1.bind ((strsep delim t).2.str[·]?) = some 0 then separate delim (strsep delim t).2
  else strsep delim t
termination_by t.left
decreasing_by exact strsep_left fun h => by simp [h] at _h

def Tokens.tokenEnd (t : Tokens) : Nat := t.strStart.elim t.strEnd (· - 1)

/-- The string in `__retvalue`, if what is copied there has its NUL. -/
def retvalue : Option Nat × Tokens → Option (List UInt8)
  | (none, _) => some []
  | (some token, t) => cstr ((t.str.drop token).take (t.tokenEnd + 1 - token))

/-- A string of the script -/
structure Str (size : Nat) where
  bytes : List UInt8
  nul : 0 ∉ bytes
  short : bytes.length < size

variable {size : Nat}

def tokenize (input delim : Str size) (t : Tokens) : Option (List UInt8) × Tokens :=
  let str := (input.bytes ++ replicate size 0).take size
  let t := if input.bytes = [] then t else ⟨str, some 0, (str.takeWhile (· ≠ 0)).length⟩
  let r := separate delim.bytes t
  (retvalue r, r.2)

/-- What the calls return one after the other. -/
def tokenizeAll : Tokens → List (Str size × Str size) → List (Option (List UInt8))
  | _, [] => []
  | t, (input, delim) :: calls =>
    (tokenize input delim t).1 :: tokenizeAll (tokenize input delim t).2 calls

def Tokens.zero (size : Nat) : Tokens := ⟨replicate size 0, none, 0⟩

/-- The next token of `rest` and what it leaves, its own delimiter taken off. -/
def nextToken (delim rest : List UInt8) : List UInt8 × List UInt8 :=
  let text := rest.dropWhile (· ∈ delim)
  (text.takeWhile (· ∉ delim), (text.dropWhile (· ∉ delim)).tail)

/-- The tokens that calls are to return. `rest` is what the calls before left of the last input. -/
def tokensOf (rest : List UInt8) : List (Str size × Str size) → List (List UInt8)
  | [] => []
  | (input, delim) :: calls =>
    let next := nextToken delim.bytes (if input.bytes = [] then rest else input.bytes)
    next.1 :: tokensOf next.2 calls

/-- The buffer holds `rest` and its NUL from `str_start` on. -/
def Rest (t : Tokens) (rest : List UInt8) : Prop :=
  0 ∉ rest ∧ t.strStart.elim (rest = []) fun s =>
    (∃ post, t.str.drop s = rest ++ 0 :: post) ∧ t.strEnd = s + rest.length

theorem cstr_append {text : List UInt8} (h : 0 ∉ text) (post : List UInt8) :
    cstr (text ++ 0 :: post) = some text := by
  induction text with
  | nil => simp [cstr]
  | cons c text ih =>
    have hc : c ≠ 0 := fun hc => h (by simp [hc])
    simp [cstr, hc, ih (fun h' => h (by simp [h']))]

theorem takeWhile_nul {rest : List UInt8} (h : 0 ∉ rest) (post : List UInt8) :
    (rest ++ 0 :: post).takeWhile (· ≠ 0) = rest := by
  have hr : ∀ c ∈ rest, c ≠ 0 := fun c hc h0 => h (h0 ▸ hc)
  rw [takeWhile_append_of_pos (by simpa using hr)]
  simp

/-- The token of one `strsep` stands in the buffer with its NUL at `token_end`. -/
theorem strsep_spec (delim : List UInt8) {rest : List UInt8} {t : Tokens} {s : Nat} (h : Rest t rest)
    (hs : t.strStart = some s) :
    (strsep delim t).1 = some s ∧ Rest (strsep delim t).2 (rest.dropWhile (· ∉ delim)).tail ∧
      (∃ post, (strsep delim t).2.str.drop s = rest.takeWhile (· ∉ delim) ++ 0 :: post) ∧
      (strsep delim t).2.tokenEnd = s + (rest.takeWhile (· ∉ delim)).length := by
  obtain ⟨h0, hr⟩ := h
  simp only [hs, elim_some] at hr
  obtain ⟨⟨post, hp⟩, he⟩ := hr
  simp only [strsep, hs, hp, takeWhile_nul h0]
  simp only [takeWhile_eq_take_findIdx_not, dropWhile_eq_drop_findIdx_not, decide_not, Bool.not_not]
  split
  next hk =>
    rw [findIdx?_eq_none_iff_findIdx_eq] at hk
    rw [hk]
    exact ⟨rfl, by simp [Rest], ⟨post, by simpa using hp⟩, by simpa [Tokens.tokenEnd] using he⟩
  next k hk =>
    obtain ⟨hk, rfl⟩ := findIdx?_eq_some_iff_findIdx_eq.1 hk
    generalize rest.findIdx _ = k at *
    have hcut : (t.str.set (s + k) 0).drop s = rest.take k ++ 0 :: (rest.drop (k + 1) ++ 0 :: post) := by
      rw [drop_set, if_neg (by omega), hp, Nat.add_sub_cancel_left, set_append_left _ _ hk,
        set_eq_take_append_cons_drop, if_pos hk, append_assoc, cons_append]
    refine ⟨rfl, ⟨fun h => h0 ?_, ⟨post, ?_⟩, ?_⟩, ⟨_, hcut⟩, ?_⟩
    · exact mem_of_mem_drop (mem_of_mem_tail h)
    · rw [tail_drop, Nat.add_assoc, ← drop_drop, hcut, append_cons, drop_left' (by simp [hk.le])]
    · show t.strEnd = s + k + 1 + _
      rw [tail_drop, length_drop]
      omega
    · show s + k + 1 - 1 = s + (rest.take k).length
      rw [length_take]
      omega

/-- An empty token comes from a delimiter, or from the end. -/
theorem nextToken_eq (delim rest : List UInt8) :
    nextToken delim rest = if rest.takeWhile (· ∉ delim) = [] then nextToken delim rest.tail
      else (rest.takeWhile (· ∉ delim), (rest.dropWhile (· ∉ delim)).tail) := by
  cases rest with
  | nil => rfl
  | cons c rest => by_cases hc : c ∈ delim <;> simp [nextToken, hc]

/-- By induction on what is left of the buffer. -/
theorem separate_spec {delim rest : List UInt8} {t : Tokens} (h : Rest t rest) :
    retvalue (separate delim t) = some (nextToken delim rest).1 ∧
      Rest (separate delim t).2 (nextToken delim rest).2 := by
  cases hs : t.strStart with
  | none =>
    simp only [Rest, hs, elim_none] at h
    rw [separate]
    simp [strsep, hs, retvalue, Rest, h.2, nextToken]
  | some s =>
    obtain ⟨h1, h2, ⟨post, h3⟩, h4⟩ := strsep_spec delim h hs
    have hget : (strsep delim t).2.str[s]? = (rest.takeWhile (· ∉ delim) ++ 0 :: post)[0]? := by
      rw [← h3, getElem?_drop, Nat.add_zero]
    rw [separate, h1, bind_some, hget, nextToken_eq]
    cases htoken : rest.takeWhile (· ∉ delim) with
    | nil =>
      have hrest : rest.dropWhile (· ∉ delim) = rest := by
        rw [← nil_append (rest.dropWhile _), ← htoken, takeWhile_append_dropWhile]
      rw [dif_pos (by simp), if_pos rfl]
      exact separate_spec (hrest ▸ h2)
    | cons c token =>
      have htoken0 : 0 ∉ c :: token := fun h0 => h.1 ((takeWhile_sublist _).subset (htoken ▸ h0))
      have hc : c ≠ 0 := fun hc => htoken0 (by simp [hc])
      rw [dif_neg (by simpa using hc), if_neg (cons_ne_nil _ _)]
      refine ⟨?_, h2⟩
      rw [show strsep delim t = (some s, (strsep delim t).2) from Prod.ext h1 rfl, retvalue, h3, h4, htoken,
        Nat.add_assoc, Nat.add_sub_cancel_left, take_length_add_append, take_succ_cons, take_zero,
        cstr_append htoken0]
termination_by t.left
decreasing_by exact strsep_left (by simp [h1])

theorem tokenize_spec {rest : List UInt8} {t : Tokens} (h : Rest t rest) (input delim : Str size) :
    (tokenize input delim t).1 = some (nextToken delim.bytes (if input.bytes = [] then rest else input.bytes)).1 ∧
      Rest (tokenize input delim t).2
        (nextToken delim.bytes (if input.bytes = [] then rest else input.bytes)).2 := by
  apply separate_spec
  split
  next => exact h
  next =>
    have hstr : (input.bytes ++ replicate size 0).take size =
        input.bytes ++ 0 :: replicate (size - input.bytes.length - 1) 0 := by
      have := input.short
      rw [← replicate_succ, take_append, take_of_length_le (by omega), take_replicate]
      congr 2
      omega
    rw [hstr, takeWhile_nul input.nul]
    exact ⟨input.nul, ⟨_, rfl⟩, by simp⟩

theorem tokenizeAll_eq {rest : List UInt8} {t : Tokens} (h : Rest t rest) (calls : List (Str size × Str size)) :
    tokenizeAll t calls = (tokensOf rest calls).map some := by
  induction calls generalizing rest t with
  | nil => rfl
  | cons call calls ih =>
    obtain ⟨h1, h2⟩ := tokenize_spec h call.1 call.2
    rw [tokenizeAll, h1, ih h2]
    rfl

theorem tokenizeAll_zero (calls : List (Str size × Str size)) :
    tokenizeAll (.zero size) calls = (tokensOf [] calls).map some :=
  tokenizeAll_eq (t := .zero size) ⟨by simp, rfl⟩ calls

end Systemtap.Tapset.Strings
