import Systemtap.Lib.Stable
import Systemtap.Runtime.Stat

/-!
# Sorting a map

`_stp_cmp`, `_stp_map_sort` and `_stp_map_sortn` of `map.c`, and the loop that the
translator emits for a sorted `foreach` with a limit.

`cmp a b` says that `a` has to go behind `b`. The nodes stand in a list here, as the
`list_head` ring has them from its head on. `_stp_map_sort` is a merge sort from the bottom
up: every pass merges neighbouring runs of `insize` nodes. `_stp_map_sortn` sorts the first
`n` nodes by exchanging neighbours, and then inserts every later node that belongs there,
so that only the first `n` nodes are in order afterwards; where `n` is 0 or above 30 it
leaves the work to `_stp_map_sort`.

The limit of a `foreach` is an `int64_t`, and `n` is an `int`.
-/

namespace Systemtap.Runtime

open Systemtap.Tree Lib List Nat

/-! ## The code -/

section Code

variable {α : Type} (cmp : α → α → Bool)

/-- The loop `while (p)` of `_stp_map_sort`: each round takes a run of `insize` nodes and the
one behind it, and puts their merge on the tail. Returns the list and `nmerges`. -/
def mergeRuns (insize : Nat) : Nat → List α → List α × Nat
  | 0, xs => (xs, 0)
  | rounds + 1, xs =>
    if xs.isEmpty then ([], 0)
    else
      let rest := mergeRuns insize rounds (xs.drop (2 * insize))
      -- the left run gives its node unless the right one has to go first
      (((xs.take insize).merge ((xs.drop insize).take insize) fun a b => !cmp a b) ++ rest.1,
        rest.2 + 1)

/-- The loop `do .. while (nmerges > 1)` of `_stp_map_sort`. -/
def sortPasses : Nat → Nat → List α → Option (List α)
  | 0, _, _ => none
  | fuel + 1, insize, xs =>
    let pass := mergeRuns cmp insize xs.length xs
    if 1 < pass.2 then sortPasses fuel (insize + insize) pass.1 else some pass.1

/-- `_stp_map_sort` -/
def mapSort (fuel : Nat) (xs : List α) : Option (List α) :=
  if xs.isEmpty then some [] else sortPasses cmp fuel 1 xs

/-- One pass of the modified bubble sort: from `a` on, as long as there is a next node and
`--num > 0`. Returns the nodes up to the last one looked at, those behind it, and `swaps`. -/
def bubbleFrom (a : α) : List α → I32 → List α × List α × Nat
  | [], _ => ([a], [], 0)
  | b :: xs, num =>
    if (0 : I32).slt (num - 1) then
      if cmp a b then
        let r := bubbleFrom a xs (num - 1)
        (b :: r.1, r.2.1, r.2.2 + 1)
      else
        let r := bubbleFrom b xs (num - 1)
        (a :: r.1, r.2.1, r.2.2)
    else ([a], b :: xs, 0)

/-- The loop `while (swaps)` of `_stp_map_sortn`. -/
def bubbleLoop (n : I32) : Nat → List α → Option (List α × List α)
  | 0, _ => none
  | _ + 1, [] => some ([], [])
  | fuel + 1, a :: xs =>
    let r := bubbleFrom cmp a xs n
    if r.2.2 = 0 then some (r.1, r.2.1) else bubbleLoop n fuel (r.1 ++ r.2.1)

/-- A node `a` behind the first ones: `top` ends at `last`, and `below` is what stands
between `last` and `a`. A node that belongs to the first ones pushes `last` out. -/
def insertTop (s : List α × List α) (a : α) : List α × List α :=
  let passed := s.1.rtakeWhile (cmp · a)
  if passed.isEmpty then (s.1, s.2 ++ [a])
  else
    let top := s.1.rdropWhile (cmp · a) ++ a :: passed
    (top.dropLast, top.getLast?.toList ++ s.2)

/-- `_stp_map_sortn` -/
def mapSortn (fuel : Nat) (n : I32) (xs : List α) : Option (List α) :=
  if n = 0 ∨ (30 : I32).slt n then mapSort cmp fuel xs
  else
    (bubbleLoop cmp n fuel xs).map fun s =>
      let s' := s.2.foldl (insertTop cmp) (s.1, [])
      s'.1 ++ s'.2

end Code

/-- `key_data` with its type -/
inductive KeyData where
  | int64 (val : I64)
  | str (strp : Str)
  deriving DecidableEq

/-- What a node of a map stores, by the type of the map. -/
inductive MapValue (buckets : Nat) where
  | int64 (val : I64)
  | str (s : Str)
  | stat (sd : StatData buckets)

/-- The keys and the value of a `map_node`. -/
structure Node (buckets : Nat) where
  keys : List KeyData
  value : MapValue buckets

section Cmp

variable {buckets : Nat}

/-- The text `bad type` -/
def badType : Str := [98, 97, 100, 32, 116, 121, 112, 101]

/-- `get_key`, for key numbers from 1 on -/
def Node.getKey (m : Node buckets) (n : Int) : Option KeyData := m.keys[n.toNat - 1]?

/-- `_stp_key_get_int64` -/
def Node.keyGetInt64 (m : Node buckets) (n : Int) : I64 :=
  match m.getKey n with
  | some (.int64 v) => v
  | _ => 0

/-- `_stp_key_get_str` -/
def Node.keyGetStr (m : Node buckets) (n : Int) : Str :=
  match m.getKey n with
  | some (.str s) => s
  | _ => badType

/-- `_stp_get_int64` -/
def Node.getInt64 (m : Node buckets) : I64 :=
  match m.value with
  | .int64 v => v
  | _ => 0

/-- `_stp_get_str` -/
def Node.getStr (m : Node buckets) : Str :=
  match m.value with
  | .str s => s
  | _ => badType

/-- The column of a statistic that a negative `keynum` stands for. -/
def Node.statColumn (m : Node buckets) (keynum : Int) : I64 :=
  match m.value with
  | .stat sd =>
    if keynum = -5 then sd.count
    else if keynum = -4 then sd.sum
    else if keynum = -3 then sd.min
    else if keynum = -2 then sd.max
    else if keynum = -1 then sd.sum.sdiv sd.count
    else 0
  | _ => 0

/-- Whether `type` is `STRING` for a list that starts with `first`. -/
def sortsStrings (keynum : Int) (first : Node buckets) : Bool :=
  if 0 < keynum then
    match first.getKey keynum with
    | some (.str _) => true
    | _ => false
  else if keynum < 0 then false
  else
    match first.value with
    | .str _ => true
    | _ => false

/-- The text that `_stp_cmp` compares. -/
def Node.sortStr (keynum : Int) (m : Node buckets) : Str :=
  if keynum = 0 then m.getStr else m.keyGetStr keynum

/-- The number that `_stp_cmp` compares. -/
def Node.sortInt64 (keynum : Int) (m : Node buckets) : I64 :=
  if 0 < keynum then m.keyGetInt64 keynum
  else if keynum < 0 then m.statColumn keynum
  else m.getInt64

/-- `strcmp (s, t) < 0` -/
def strBefore (s t : Str) : Bool := decide (s.map UInt8.toNat < t.map UInt8.toNat)

/-- `_stp_cmp` -/
def stpCmp (keynum dir : Int) (strings : Bool) (a b : Node buckets) : Bool :=
  if strings then
    (strBefore (a.sortStr keynum) (b.sortStr keynum) && decide (0 < dir)) ||
      (strBefore (b.sortStr keynum) (a.sortStr keynum) && decide (dir < 0))
  else
    ((a.sortInt64 keynum).slt (b.sortInt64 keynum) && decide (0 < dir)) ||
      ((b.sortInt64 keynum).slt (a.sortInt64 keynum) && decide (dir < 0))

/-- The comparison for a list of nodes; `type` is taken from the first one. -/
def listCmp (keynum dir : Int) (xs : List (Node buckets)) (a b : Node buckets) : Bool :=
  stpCmp keynum dir ((xs.head?.map (sortsStrings keynum)).getD false) a b

end Cmp

/-- The nodes that the emitted loop runs its body on: `if (limitv++ >= limit) goto break`. -/
def visitUpTo {α : Type} (limit : Int) : Int → List α → List α
  | _, [] => []
  | limitv, a :: xs => if limit ≤ limitv then [] else a :: visitUpTo limit (limitv + 1) xs

/-- The column that `visit_foreach_loop` sorts by: statistics are sorted by their count where
the script asks for the value. -/
def sortColumn (parallel : Bool) (column : Int) : Int :=
  if parallel && column = 0 then -5 else column

/-- The direction that `visit_foreach_loop` emits; its sense is opposite in the runtime. -/
def sortDir (increasing : Bool) : Int := if increasing then -1 else 1

/-- What `foreach (.. in a+ limit L)`, or `a-`, runs its body on: the array's list is sorted by
`_stp_map_sortn`, whose `n` gets the limit, and then walked. -/
def foreachLimit {buckets : Nat} (fuel : Nat) (parallel : Bool) (column : Int) (increasing : Bool)
    (limit : I64) (xs : List (Node buckets)) : Option (List (Node buckets)) :=
  (mapSortn (listCmp (sortColumn parallel column) (sortDir increasing) xs) fuel
    (limit.setWidth 32) xs).map (visitUpTo limit.toInt 0)

/-! ## The merge sort -/

section Sorting

variable {α κ : Type} [LinearOrder κ] {key : α → κ} {cmp : α → α → Bool}

/-- `cmp` compares keys. -/
def Compares (key : α → κ) (cmp : α → α → Bool) : Prop := ∀ a b, cmp a b = decide (key b < key a)

theorem Compares.not_eq (h : Compares key cmp) :
    (fun a b => !cmp a b) = fun a b => decide (key a ≤ key b) := by
  funext a b
  rw [h, ← decide_not]
  simp only [not_lt]

variable {m : Nat} {xs : List α}

/-- Nothing is left to merge only in the last round. -/
theorem mergeRuns_step (rounds : Nat) (hxs : xs ≠ []) :
    mergeRuns cmp m (rounds + 1) xs =
      (((xs.take m).merge ((xs.drop m).take m) fun a b => !cmp a b) ++
          (mergeRuns cmp m rounds (xs.drop (2 * m))).1,
        (mergeRuns cmp m rounds (xs.drop (2 * m))).2 + 1) := by
  rw [mergeRuns, if_neg (by simpa using hxs)]

theorem mergeRuns_nil (m rounds : Nat) : mergeRuns cmp m rounds [] = ([], 0) := by
  cases rounds <;> rfl

/-- Every run of `m` nodes is sorted. -/
def RunsSorted (key : α → κ) (m : Nat) (xs : List α) : Prop :=
  ∀ i, SortedBy key ((xs.drop (i * m)).take m)

theorem RunsSorted.of_sorted (h : SortedBy key xs) : RunsSorted key m xs :=
  fun _ => h.sublist ((take_sublist _ _).trans (drop_sublist _ _))

theorem RunsSorted.first (h : RunsSorted key m xs) : SortedBy key (xs.take m) := by
  have := h 0
  rwa [zero_mul, drop_zero] at this

theorem RunsSorted.drop (h : RunsSorted key m xs) (j : Nat) : RunsSorted key m (xs.drop (j * m)) := by
  intro i
  rw [drop_drop, ← add_mul]
  exact h _

/-- A run in front of others. -/
theorem RunsSorted.append {ys : List α} (hlen : xs.length = m) (hx : SortedBy key xs)
    (hy : RunsSorted key m ys) : RunsSorted key m (xs ++ ys) := by
  intro i
  cases i with
  | zero =>
    rw [zero_mul, drop_zero, take_left' hlen]
    exact hx
  | succ i =>
    rw [succ_mul, add_comm, ← drop_drop, drop_left' hlen]
    exact hy i

/-- A pass: every run of the new size is a merge of two old ones, and the nodes of a key stay in
order. The induction takes the runs off in front. -/
theorem RunsSorted.mergeRuns (hc : Compares key cmp) (hm : 0 < m) (rounds : Nat) :
    ∀ xs : List α, xs.length ≤ rounds → RunsSorted key m xs →
      RunsSorted key (2 * m) (mergeRuns cmp m rounds xs).1 ∧
        ∀ k, keyClass key k (Runtime.mergeRuns cmp m rounds xs).1 = keyClass key k xs := by
  induction rounds with
  | zero =>
    intro xs hlen _
    rw [length_eq_zero_iff.1 (le_zero.1 hlen)]
    exact ⟨.of_sorted .nil, fun _ => rfl⟩
  | succ rounds ih =>
    intro xs hlen hruns
    by_cases hxs : xs = []
    · rw [hxs, mergeRuns_nil]
      exact ⟨.of_sorted .nil, fun _ => rfl⟩
    have hpos : 0 < xs.length := length_pos_of_ne_nil hxs
    have hsecond : SortedBy key ((xs.drop m).take m) := by
      have := hruns 1
      rwa [one_mul] at this
    obtain ⟨hsorted, hclass⟩ := ih (xs.drop (2 * m)) (by rw [length_drop]; omega) (hruns.drop 2)
    rw [mergeRuns_step rounds hxs, hc.not_eq]
    constructor
    · have hfirst := hruns.first.merge hsecond
      by_cases hshort : xs.length ≤ 2 * m
      · -- one merge is the whole pass
        rw [drop_eq_nil_of_le hshort, mergeRuns_nil, append_nil]
        exact .of_sorted hfirst
      · refine .append ?_ hfirst hsorted
        rw [length_merge, length_take, length_take, length_drop]
        omega
    · intro k
      rw [keyClass_append, keyClass_merge hruns.first, hclass, append_assoc, ← keyClass_append,
        ← keyClass_append, two_mul, ← drop_drop, take_append_drop, take_append_drop]

theorem length_mergeRuns (rounds : Nat) :
    ∀ xs : List α, (mergeRuns cmp m rounds xs).1.length = xs.length := by
  induction rounds with
  | zero => exact fun _ => rfl
  | succ rounds ih =>
    intro xs
    by_cases hxs : xs = []
    · rw [hxs, mergeRuns_nil]
    rw [mergeRuns_step rounds hxs, length_append, ih, length_merge, length_take, length_take,
      length_drop, length_drop]
    omega

/-- `nmerges` is at most 1 where two runs hold the whole list. -/
theorem nmerges_le_one_iff (hm : 0 < m) (xs : List α) :
    (mergeRuns cmp m xs.length xs).2 ≤ 1 ↔ xs.length ≤ 2 * m := by
  cases hlen : xs.length with
  | zero =>
    rw [length_eq_zero_iff.1 hlen, mergeRuns_nil]
    simp
  | succ n =>
    have hxs : xs ≠ [] := ne_nil_of_length_pos (by omega)
    rw [mergeRuns_step n hxs]
    constructor
    · intro h
      by_contra hlong
      have hrest : xs.drop (2 * m) ≠ [] := by
        apply ne_nil_of_length_pos
        rw [length_drop]
        omega
      obtain ⟨n', rfl⟩ : ∃ n', n = n' + 1 := ⟨n - 1, by omega⟩
      rw [mergeRuns_step n' hrest] at h
      simp at h
    · intro h
      rw [drop_eq_nil_of_le (i := 2 * m) (by omega), mergeRuns_nil]

/-- The last pass: the two runs it merges are the whole list. -/
theorem mergeRuns_stable (hc : Compares key cmp) (hm : 0 < m) (hruns : RunsSorted key m xs)
    (hle : xs.length ≤ 2 * m) : Stable key xs (mergeRuns cmp m xs.length xs).1 := by
  obtain ⟨hsorted, hclass⟩ := RunsSorted.mergeRuns hc hm _ _ le_rfl hruns
  refine ⟨?_, hclass⟩
  have := hsorted.first
  rwa [take_of_length_le (by rwa [length_mergeRuns])] at this

/-- The run size doubles with every pass, so `fuel` passes are enough for `m * 2 ^ fuel`
nodes. -/
theorem sortPasses_stable (hc : Compares key cmp) (fuel : Nat) :
    ∀ (m : Nat) (xs : List α), 0 < m → xs.length ≤ m * 2 ^ fuel → 0 < fuel →
      RunsSorted key m xs → ∃ ys, sortPasses cmp fuel m xs = some ys ∧ Stable key xs ys := by
  induction fuel with
  | zero => exact fun _ _ _ _ h _ => absurd h (lt_irrefl 0)
  | succ fuel ih =>
    intro m xs hm hlen _ hruns
    by_cases hle : xs.length ≤ 2 * m
    · refine ⟨(mergeRuns cmp m xs.length xs).1, ?_, mergeRuns_stable hc hm hruns hle⟩
      rw [sortPasses, if_neg (not_lt.2 ((nmerges_le_one_iff hm xs).2 hle))]
    · have hagain : 1 < (mergeRuns cmp m xs.length xs).2 := by
        by_contra h
        exact hle ((nmerges_le_one_iff hm xs).1 (not_lt.1 h))
      have hlen' : (mergeRuns cmp m xs.length xs).1.length ≤ (m + m) * 2 ^ fuel := by
        rw [length_mergeRuns]
        calc xs.length ≤ m * 2 ^ (fuel + 1) := hlen
          _ = (m + m) * 2 ^ fuel := by ring
      have hfuel : 0 < fuel := by
        rcases Nat.eq_zero_or_pos fuel with rfl | h
        · omega
        · exact h
      obtain ⟨hsorted, hclass⟩ := RunsSorted.mergeRuns hc hm _ _ le_rfl hruns
      rw [two_mul] at hsorted
      obtain ⟨ys, hys, hstable⟩ := ih (m + m) (mergeRuns cmp m xs.length xs).1 (by omega) hlen' hfuel
        hsorted
      refine ⟨ys, ?_, hstable.trans hclass⟩
      rw [sortPasses, if_pos hagain]
      exact hys

/-- `_stp_map_sort` ends, and sorts. -/
theorem mapSort_stable (hc : Compares key cmp) (xs : List α) {fuel : Nat} (h : xs.length ≤ fuel) :
    ∃ ys, mapSort cmp fuel xs = some ys ∧ Stable key xs ys := by
  unfold mapSort
  by_cases hxs : xs = []
  · subst hxs
    exact ⟨[], rfl, .nil⟩
  · rw [if_neg (by simpa using hxs)]
    have hpos : 0 < xs.length := length_pos_of_ne_nil hxs
    refine sortPasses_stable hc fuel 1 xs one_pos ?_ (by omega) fun i => ?_
    · rw [one_mul]
      exact h.trans Nat.lt_two_pow_self.le
    · -- a run of one node
      have hlen : ((xs.drop (i * 1)).take 1).length ≤ 1 := length_take_le _ _
      generalize (xs.drop (i * 1)).take 1 = run at hlen
      cases run with
      | nil => exact .nil
      | cons a run =>
        rw [length_cons] at hlen
        rw [length_eq_zero_iff.1 (by omega : run.length = 0)]
        exact pairwise_singleton _ _

/-! ## The first `n` nodes -/

/-- How many nodes a pass of the bubble sort looks at. For a `num` that is not positive
`--num > 0` fails at once, unless it wraps. -/
def window (n : I32) : Nat := if n = BitVec.intMin 32 then 2 ^ 31 else (max n.toInt 1).toNat

theorem window_pos (n : I32) : 0 < window n := by
  unfold window
  split
  · exact Nat.two_pow_pos 31
  · omega

theorem toInt_sub_one {n : I32} (h : n ≠ BitVec.intMin 32) : (n - 1).toInt = n.toInt - 1 := by
  have hlo : -2 ^ 31 ≤ n.toInt := by simpa using BitVec.le_toInt n
  have hhi : n.toInt < 2 ^ 31 := by simpa using BitVec.toInt_lt (x := n)
  have hne : n.toInt ≠ -2 ^ 31 := by
    intro hE
    apply h
    apply BitVec.eq_of_toInt_eq
    rw [hE]
    rfl
  rw [BitVec.toInt_sub]
  have h1 : (1 : I32).toInt = 1 := rfl
  rw [h1, Int.bmod_eq_of_le] <;> omega

/-- The step of the counter: the pass goes on exactly if the window has more than one node
left. -/
theorem window_sub_one (n : I32) :
    ((0 : I32).slt (n - 1) = true ↔ 1 < window n) ∧
      ((0 : I32).slt (n - 1) = true → window (n - 1) + 1 = window n) := by
  by_cases hn : n = BitVec.intMin 32
  · subst hn
    decide
  · have hsub := toInt_sub_one hn
    have hslt : (0 : I32).slt (n - 1) = true ↔ 1 < n.toInt := by
      rw [BitVec.slt, decide_eq_true_eq, hsub]
      have h0 : (0 : I32).toInt = 0 := rfl
      omega
    have hw : window n = (max n.toInt 1).toNat := if_neg hn
    rw [hslt, hw]
    refine ⟨by omega, fun h => ?_⟩
    have hn' : n - 1 ≠ BitVec.intMin 32 := by
      intro hE
      rw [hE] at hsub
      have hmin : (BitVec.intMin 32).toInt = -2 ^ 31 := rfl
      omega
    rw [window, if_neg hn', hsub]
    omega

/-- The pairs of nodes that stand the wrong way round. -/
def inversions (key : α → κ) : List α → Nat
  | [] => 0
  | a :: xs => xs.countP (fun b => decide (key b < key a)) + inversions key xs

theorem inversions_le (key : α → κ) (xs : List α) : inversions key xs ≤ xs.length * xs.length := by
  induction xs with
  | nil => exact le_rfl
  | cons a xs ih =>
    have hcount := countP_le_length (p := fun b => decide (key b < key a)) (l := xs)
    rw [inversions, length_cons]
    nlinarith

/-- What a pass does: it works on the nodes of the window, keeps those of a key in order, and
every exchange removes one inversion. -/
structure BubbleSpec (key : α → κ) (w : Nat) (xs : List α) (r : List α × List α × Nat) : Prop where
  rest : r.2.1 = xs.drop w
  length : r.1.length = min w xs.length
  perm : (r.1 ++ r.2.1).Perm xs
  keyClass_eq : ∀ k, keyClass key k r.1 = keyClass key k (xs.take w)
  inversions_eq : inversions key (r.1 ++ r.2.1) + r.2.2 = inversions key xs
  sorted : r.2.2 = 0 → SortedBy key r.1 ∧ r.1 = xs.take w

variable (hc : Compares key cmp)
include hc

theorem bubbleFrom_spec (xs : List α) :
    ∀ (a : α) (n : I32), BubbleSpec key (window n) (a :: xs) (bubbleFrom cmp a xs n) := by
  induction xs with
  | nil =>
    intro a n
    have hw := window_pos n
    obtain ⟨w, hw'⟩ : ∃ w, window n = w + 1 := ⟨window n - 1, by omega⟩
    rw [hw', bubbleFrom]
    refine ⟨?_, ?_, .refl _, fun k => ?_, rfl, fun _ => ⟨pairwise_singleton _ _, ?_⟩⟩
    · simp
    · simp
    · simp
    · simp
  | cons b xs ih =>
    intro a n
    obtain ⟨hgo, hnext⟩ := window_sub_one n
    rw [bubbleFrom]
    by_cases hn : (0 : I32).slt (n - 1) = true
    · rw [if_pos hn, ← hnext hn, hc a b]
      obtain ⟨w, hw⟩ : ∃ w, window (n - 1) = w + 1 :=
        ⟨window (n - 1) - 1, by have := window_pos (n - 1); omega⟩
      by_cases hab : key b < key a
      · rw [if_pos (decide_eq_true hab)]
        have hspec := ih a (n - 1)
        rw [hw] at hspec ⊢
        generalize bubbleFrom cmp a xs (n - 1) = r at hspec
        obtain ⟨hrest, hlen, hperm, hclass, hinv, -⟩ := hspec
        refine ⟨hrest, ?_, (hperm.cons b).trans (.swap a b xs), fun k => ?_, ?_,
          fun h => absurd h (succ_ne_zero _)⟩
        · simp only [length_cons] at hlen ⊢
          omega
        · exact (keyClass_cons_congr (hclass k)).trans (keyClass_swap hab.ne' k)
        · have hcount := hperm.countP_eq fun c => decide (key c < key b)
          rw [countP_cons_of_neg (by simpa using hab.le)] at hcount
          simp only [cons_append, inversions] at hinv ⊢
          rw [countP_cons_of_pos (by simpa using hab)]
          omega
      · rw [if_neg (by simpa using hab)]
        have hspec := ih b (n - 1)
        rw [hw] at hspec ⊢
        generalize bubbleFrom cmp b xs (n - 1) = r at hspec
        obtain ⟨hrest, hlen, hperm, hclass, hinv, hsorted⟩ := hspec
        refine ⟨hrest, ?_, hperm.cons a, fun k => keyClass_cons_congr (hclass k), ?_, fun h => ?_⟩
        · simp only [length_cons] at hlen ⊢
          omega
        · have hcount := hperm.countP_eq fun c => decide (key c < key a)
          simp only [cons_append, inversions] at hinv hcount ⊢
          omega
        · obtain ⟨hs, htake⟩ := hsorted h
          refine ⟨?_, congrArg (a :: ·) htake⟩
          rw [htake, take_succ_cons] at hs
          show SortedBy key (a :: r.1)
          rw [htake, take_succ_cons]
          refine pairwise_cons.2 ⟨fun c hmem => ?_, hs⟩
          rcases mem_cons.1 hmem with rfl | hmem
          · exact not_lt.1 hab
          · exact (not_lt.1 hab).trans ((pairwise_cons.1 hs).1 c hmem)
    · rw [if_neg hn]
      have hw : window n = 1 := by
        have := window_pos n
        rw [hgo] at hn
        omega
      rw [hw]
      refine ⟨rfl, ?_, .refl _, fun k => rfl, rfl, fun _ => ⟨pairwise_singleton _ _, rfl⟩⟩
      simp

/-- The bubble sort ends, with the nodes of the window sorted and the others untouched. -/
theorem bubbleLoop_stable (n : I32) (fuel : Nat) :
    ∀ xs : List α, inversions key xs < fuel →
      ∃ top, bubbleLoop cmp n fuel xs = some (top, xs.drop (window n)) ∧
        Stable key (xs.take (window n)) top := by
  induction fuel with
  | zero => exact fun _ h => absurd h (not_lt_zero _)
  | succ fuel ih =>
    intro xs hfuel
    cases xs with
    | nil => exact ⟨[], by rw [bubbleLoop, drop_nil], by rw [take_nil]; exact .nil⟩
    | cons a xs =>
      have hspec := bubbleFrom_spec hc xs a n
      rw [bubbleLoop]
      generalize bubbleFrom cmp a xs n = r at hspec
      obtain ⟨hrest, hlen, hperm, hclass, hinv, hsorted⟩ := hspec
      by_cases hr : r.2.2 = 0
      · obtain ⟨hs, htake⟩ := hsorted hr
        refine ⟨r.1, ?_, hs, hclass⟩
        rw [← hrest]
        exact if_pos hr
      · obtain ⟨top, htop, hstable⟩ := ih (r.1 ++ r.2.1) (by omega)
        -- the window of the next pass is what this one worked on
        have hsplit : (r.1 ++ r.2.1).drop (window n) = r.2.1 ∧
            (r.1 ++ r.2.1).take (window n) = r.1 := by
          by_cases hshort : (a :: xs).length ≤ window n
          · rw [drop_eq_nil_of_le hshort] at hrest
            rw [hrest, append_nil, drop_eq_nil_of_le (by omega),
              take_of_length_le (by omega)]
            exact ⟨rfl, rfl⟩
          · have hlen' : r.1.length = window n := by omega
            rw [← hlen', drop_left, take_left]
            exact ⟨rfl, rfl⟩
        rw [hsplit.1] at htop
        rw [hsplit.2] at hstable
        refine ⟨top, ?_, hstable.trans hclass⟩
        rw [← hrest, ← htop]
        exact if_neg hr

/-- One node of the second part: the first nodes of what is sorted so far are kept. -/
theorem insertTop_spec {top : List α} (below : List α) {w : Nat}
    (hw : top.length = w) (hpos : 0 < w) (a : α) :
    (insertTop cmp (top, below) a).1 = (insertLast key a top).take w ∧
      ((insertTop cmp (top, below) a).1 ++ (insertTop cmp (top, below) a).2).Perm
        (top ++ below ++ [a]) := by
  have hcmp : (fun c => cmp c a) = fun c => decide (key a < key c) := by
    funext c
    exact hc c a
  have hlen : (insertLast key a top).length = top.length + 1 := length_insertLast a top
  unfold insertTop
  rw [hcmp]
  by_cases hpass : top.rtakeWhile (fun c => decide (key a < key c)) = []
  · have hall : insertLast key a top = top ++ [a] := by
      have := rdropWhile_append_rtakeWhile (p := fun c => decide (key a < key c)) (l := top)
      rw [hpass, append_nil] at this
      rw [insertLast, hpass, this]
    rw [hpass, if_pos isEmpty_nil, hall, take_append_of_le_length hw.ge, take_of_length_le hw.le]
    refine ⟨rfl, ?_⟩
    rw [append_assoc]
  · rw [if_neg (by simpa using hpass)]
    change (insertLast key a top).dropLast = _ ∧
      ((insertLast key a top).dropLast ++ ((insertLast key a top).getLast?.toList ++ below)).Perm _
    have hne : insertLast key a top ≠ [] := ne_nil_of_length_pos (by omega)
    refine ⟨?_, ?_⟩
    · rw [dropLast_eq_take, hlen, hw]
      rfl
    · rw [getLast?_eq_some_getLast hne, Option.toList_some, ← append_assoc,
        dropLast_append_getLast hne]
      have hperm : (insertLast key a top).Perm (top ++ [a]) := by
        have := rdropWhile_append_rtakeWhile (p := fun c => decide (key a < key c)) (l := top)
        conv_rhs => rw [← this]
        rw [insertLast, append_assoc]
        exact (List.Perm.refl _).append (perm_append_singleton a _).symm
      refine (hperm.append_right below).trans ?_
      rw [append_assoc, append_assoc]
      exact (List.Perm.refl _).append perm_append_comm

/-- The second part: from the first nodes of `done` in order to the first nodes of all. -/
theorem foldl_insertTop_spec {w : Nat} (hpos : 0 < w) (todo : List α) :
    ∀ (done top below : List α), w ≤ done.length →
      top = (done.mergeSort fun a b => decide (key a ≤ key b)).take w → (top ++ below).Perm done →
      (todo.foldl (insertTop cmp) (top, below)).1
          = ((done ++ todo).mergeSort fun a b => decide (key a ≤ key b)).take w ∧
        ((todo.foldl (insertTop cmp) (top, below)).1 ++
          (todo.foldl (insertTop cmp) (top, below)).2).Perm (done ++ todo) := by
  induction todo with
  | nil =>
    intro done top below _ htop hperm
    rw [append_nil]
    exact ⟨htop, hperm⟩
  | cons a todo ih =>
    intro done top below hlen htop hperm
    have hsort : Stable key done (done.mergeSort fun a b => decide (key a ≤ key b)) :=
      stable_mergeSort done
    have hw : top.length = w := by
      rw [htop, length_take, length_mergeSort]
      omega
    obtain ⟨h1, h2⟩ := insertTop_spec hc below hw hpos a
    rw [foldl_cons, append_cons]
    generalize insertTop cmp (top, below) a = s at h1 h2 ⊢
    obtain ⟨top', below'⟩ := s
    dsimp only at h1 h2
    refine ih (done ++ [a]) top' below' ?_ ?_ ?_
    · rw [length_append]
      omega
    · rw [h1, htop, take_insertLast hsort.sorted, ← (hsort.insertLast a).eq_mergeSort]
    · exact h2.trans (hperm.append_right [a])

/-- `_stp_map_sortn` for the `n` it does not leave to `_stp_map_sort`: it ends, and the nodes
of the window are the first ones of the sorted list. -/
theorem mapSortn_top {n : I32} (hn : ¬ (n = 0 ∨ (30 : I32).slt n))
    (xs : List α) {fuel : Nat} (hfuel : inversions key xs < fuel) :
    ∃ ys, mapSortn cmp fuel n xs = some ys ∧ ys.Perm xs ∧
      ys.take (window n) = (xs.mergeSort fun a b => decide (key a ≤ key b)).take (window n) := by
  obtain ⟨top, htop, hstable⟩ := bubbleLoop_stable hc n fuel xs hfuel
  have hpos := window_pos n
  unfold mapSortn
  rw [if_neg hn, htop, Option.map_some]
  refine ⟨_, rfl, ?_⟩
  by_cases hshort : xs.length ≤ window n
  · rw [take_of_length_le hshort] at hstable
    rw [drop_eq_nil_of_le hshort, foldl_nil, append_nil, hstable.eq_mergeSort]
    exact ⟨mergeSort_perm _ _, rfl⟩
  · have hlen : (xs.take (window n)).length = window n := by
      rw [length_take]
      omega
    have hall : top = ((xs.take (window n)).mergeSort fun a b => decide (key a ≤ key b)).take
        (window n) := by
      rw [← hstable.eq_mergeSort, take_of_length_le]
      rw [hstable.perm.length_eq]
      omega
    obtain ⟨h1, h2⟩ := foldl_insertTop_spec hc hpos (xs.drop (window n)) (xs.take (window n)) top []
      (by omega) hall (by rw [append_nil]; exact hstable.perm)
    rw [take_append_drop] at h1 h2
    refine ⟨h2, ?_⟩
    have htoplen : ((xs.drop (window n)).foldl (insertTop cmp) (top, [])).1.length = window n := by
      rw [h1, length_take, length_mergeSort]
      omega
    rw [take_append_of_le_length htoplen.ge, take_of_length_le htoplen.le]
    exact h1

end Sorting

/-! ## The limit of a sorted `foreach` -/

theorem stpCmp_compares {buckets : Nat} (keynum dir : Int) (strings : Bool) :
    ∃ (κ : Type) (_ : LinearOrder κ) (key : Node buckets → κ),
      Compares key (stpCmp keynum dir strings) := by
  rcases lt_trichotomy dir 0 with hdir | rfl | hdir
  · have hpos : ¬ 0 < dir := by omega
    cases strings with
    | true =>
      refine ⟨List Nat, inferInstance, fun m => (m.sortStr keynum).map UInt8.toNat, fun a b => ?_⟩
      simp [stpCmp, strBefore, hdir, hpos]
    | false =>
      refine ⟨Int, inferInstance, fun m => (m.sortInt64 keynum).toInt, fun a b => ?_⟩
      simp [stpCmp, hdir, hpos, BitVec.slt]
  · refine ⟨Unit, inferInstance, fun _ => (), fun a b => ?_⟩
    cases strings <;> simp [stpCmp]
  · have hneg : ¬ dir < 0 := by omega
    cases strings with
    | true =>
      refine ⟨(List Nat)ᵒᵈ, inferInstance,
        fun m => OrderDual.toDual ((m.sortStr keynum).map UInt8.toNat), fun a b => ?_⟩
      simp [stpCmp, strBefore, hdir, hneg]
    | false =>
      refine ⟨Intᵒᵈ, inferInstance, fun m => OrderDual.toDual (m.sortInt64 keynum).toInt,
        fun a b => ?_⟩
      simp [stpCmp, hdir, hneg, BitVec.slt]

theorem visitUpTo_eq_take {α : Type} (limit : Int) (xs : List α) :
    ∀ limitv : Int, visitUpTo limit limitv xs = xs.take (limit - limitv).toNat := by
  induction xs with
  | nil => exact fun _ => take_nil.symm
  | cons a xs ih =>
    intro limitv
    rw [visitUpTo]
    by_cases h : limit ≤ limitv
    · rw [if_pos h, show (limit - limitv).toNat = 0 by omega, take_zero]
    · rw [if_neg h, ih, show (limit - limitv).toNat = (limit - (limitv + 1)).toNat + 1 by omega,
        take_succ_cons]

/-- The body runs on the first nodes of the sorted list, which `_stp_map_sort` makes from the
same list. -/
def VisitsSorted {buckets : Nat} (parallel : Bool) (column : Int) (increasing : Bool) (limit : I64)
    (xs : List (Node buckets)) : Prop :=
  let cmp := listCmp (sortColumn parallel column) (sortDir increasing) xs
  ∃ (N : Nat) (sorted : List (Node buckets)), sorted.Perm xs ∧
    sorted.Pairwise (fun a b => cmp a b = false) ∧
    ∀ fuel, N ≤ fuel → mapSort cmp fuel xs = some sorted ∧
      foreachLimit fuel parallel column increasing limit xs
        = some (sorted.take (min (max limit.toInt 0).toNat xs.length))

/-- The limit, cut to an `int`, has the nodes that are visited sorted. -/
def LimitKept (limit : I64) (size : Nat) : Prop :=
  let n : I32 := limit.setWidth 32
  n = 0 ∨ (30 : I32).slt n ∨ limit.toInt ≤ window n ∨ size ≤ window n + 1

/-- If all but one of the nodes are in place, all are. -/
theorem eq_of_take_eq {α : Type} {xs ys : List α} {w : Nat} (hperm : xs.Perm ys)
    (htake : xs.take w = ys.take w) (hlen : xs.length ≤ w + 1) : xs = ys := by
  rw [← take_append_drop w xs, ← take_append_drop w ys, htake,
    perm_append_left_iff] at hperm
  have hshort : (xs.drop w).length ≤ 1 := by
    rw [length_drop]
    omega
  have hdrop : xs.drop w = ys.drop w := by
    cases hx : xs.drop w with
    | nil =>
      rw [hx] at hperm
      exact hperm.nil_eq
    | cons a r =>
      rw [hx, length_cons] at hshort
      rw [hx, length_eq_zero_iff.1 (by omega : r.length = 0)] at hperm
      rw [length_eq_zero_iff.1 (by omega : r.length = 0), perm_singleton.1 hperm.symm]
  rw [← take_append_drop w xs, ← take_append_drop w ys, htake, hdrop]

theorem listCmp_compares {buckets : Nat} (keynum dir : Int) (xs : List (Node buckets)) :
    ∃ (κ : Type) (_ : LinearOrder κ) (key : Node buckets → κ), Compares key (listCmp keynum dir xs) :=
  stpCmp_compares keynum dir _

/-- `_stp_map_sortn` leaves the visited nodes as the sorted list has them. -/
theorem mapSortn_visits {α κ : Type} [LinearOrder κ] {key : α → κ} {cmp : α → α → Bool}
    (hc : Compares key cmp) {limit : I64} {xs : List α} (h : LimitKept limit xs.length) {fuel : Nat}
    (hlen : xs.length ≤ fuel) (hinv : inversions key xs < fuel) :
    ∃ ys, mapSortn cmp fuel (limit.setWidth 32) xs = some ys ∧
      ys.take limit.toInt.toNat
        = (xs.mergeSort fun a b => decide (key a ≤ key b)).take limit.toInt.toNat := by
  by_cases hfull : (limit.setWidth 32 : I32) = 0 ∨ (30 : I32).slt (limit.setWidth 32)
  · obtain ⟨ys, hys, hstable⟩ := mapSort_stable hc xs hlen
    refine ⟨ys, ?_, by rw [hstable.eq_mergeSort]⟩
    rw [mapSortn, if_pos hfull, hys]
  · obtain ⟨ys, hys, hperm, htake⟩ := mapSortn_top hc hfull xs hinv
    refine ⟨ys, hys, ?_⟩
    rcases h with h | h | h | h
    · exact absurd (.inl h) hfull
    · exact absurd (.inr h) hfull
    · -- only nodes of the window are visited
      have := congrArg (take limit.toInt.toNat) htake
      rwa [take_take, take_take, min_eq_left (by omega)] at this
    · rw [eq_of_take_eq (hperm.trans (mergeSort_perm xs _).symm) htake
        (by rw [hperm.length_eq]; exact h)]

theorem visitsSorted_of_limitKept {buckets : Nat} (parallel : Bool) (column : Int)
    (increasing : Bool) {limit : I64} {xs : List (Node buckets)} (h : LimitKept limit xs.length) :
    VisitsSorted parallel column increasing limit xs := by
  unfold VisitsSorted foreachLimit
  obtain ⟨κ, _, key, hc⟩ := listCmp_compares (sortColumn parallel column) (sortDir increasing) xs
  generalize listCmp (sortColumn parallel column) (sortDir increasing) xs = cmp at hc
  have hsort : Stable key xs (xs.mergeSort fun a b => decide (key a ≤ key b)) := stable_mergeSort xs
  refine ⟨max xs.length (inversions key xs + 1), _, hsort.perm, hsort.sorted.imp fun hab => ?_,
    fun fuel hfuel => ?_⟩
  · rw [hc, decide_eq_false_iff_not, not_lt]
    exact hab
  · obtain ⟨ys, hys, hstable⟩ := mapSort_stable hc xs (show xs.length ≤ fuel by omega)
    obtain ⟨zs, hzs, htake⟩ := mapSortn_visits hc h (show xs.length ≤ fuel by omega)
      (by omega)
    rw [hys, hzs, hstable.eq_mergeSort, Option.map_some, visitUpTo_eq_take, sub_zero, htake]
    refine ⟨rfl, congrArg some ?_⟩
    -- beyond its length a list has nothing more to take
    rw [← hsort.perm.length_eq, min_comm, take_eq_take_min, min_comm]
    congr 2
    omega

/-! ### A limit that is cut -/

/-- Node number `i` of an array of numbers, with value `v`. -/
def numberNode (v : I64) (i : Nat) : Node 0 := ⟨[.int64 (BitVec.ofNat 64 i)], .int64 v⟩

/-- `size` nodes of which the two behind the first `w` stand the wrong way round. -/
def swappedNodes (w size : Nat) : List (Node 0) :=
  (List.range w).map (numberNode 0) ++
    (numberNode 2 w :: numberNode 1 (w + 1) :: (List.range (size - w - 2)).map fun i =>
      numberNode 2 (w + 2 + i))

/-- What the nodes are sorted by. -/
def numberKey (m : Node 0) : Int := (m.sortInt64 0).toInt

theorem numberKey_numberNode (v : I64) (i : Nat) : numberKey (numberNode v i) = v.toInt := rfl

theorem numberKey_compares : Compares numberKey (stpCmp 0 (-1) false) := by
  intro a b
  simp only [stpCmp, BitVec.slt, numberKey]
  simp
  exact decide_eq_decide.2 Iff.rfl

theorem length_swappedNodes {w size : Nat} (h : w + 2 ≤ size) :
    (swappedNodes w size).length = size := by
  simp only [swappedNodes, length_append, length_map, length_range, length_cons]
  omega

theorem listCmp_swappedNodes {w : Nat} (hw : 0 < w) (size : Nat) :
    listCmp (sortColumn false 0) (sortDir true) (swappedNodes w size) = stpCmp 0 (-1) false := by
  obtain ⟨w, rfl⟩ : ∃ w', w = w' + 1 := ⟨w - 1, by omega⟩
  rw [swappedNodes, range_succ_eq_map]
  rfl

theorem foldl_insertTop_skip {α κ : Type} [LinearOrder κ] {key : α → κ} {cmp : α → α → Bool}
    (hc : Compares key cmp) (todo : List α) {top : List α} :
    ∀ below, (∀ a ∈ todo, ∀ c ∈ top, key c ≤ key a) →
      todo.foldl (insertTop cmp) (top, below) = (top, below ++ todo) := by
  induction todo with
  | nil =>
    intro below _
    rw [foldl_nil, append_nil]
  | cons a todo ih =>
    intro below h
    have hpass : top.rtakeWhile (fun c => cmp c a) = [] := by
      rw [rtakeWhile_eq_nil_iff]
      intro hne
      rw [hc, decide_eq_true_eq, not_lt]
      exact h a mem_cons_self _ (getLast_mem hne)
    rw [foldl_cons, insertTop]
    rw [hpass, if_pos isEmpty_nil, ih _ fun b hb => h b (mem_cons_of_mem a hb),
      append_assoc]
    rfl

/-- Nodes behind the window that do not belong into it stay where they are. -/
theorem mapSortn_of_below {α κ : Type} [LinearOrder κ] {key : α → κ} {cmp : α → α → Bool}
    (hc : Compares key cmp) {n : I32} (hn : ¬ (n = 0 ∨ (30 : I32).slt n)) {top rest : List α}
    (hlen : top.length = window n) (hs : SortedBy key top)
    (hbelow : ∀ a ∈ rest, ∀ c ∈ top, key c ≤ key a) {fuel : Nat}
    (hfuel : inversions key (top ++ rest) < fuel) :
    mapSortn cmp fuel n (top ++ rest) = some (top ++ rest) := by
  obtain ⟨top', htop, hstable⟩ := bubbleLoop_stable hc n fuel (top ++ rest) hfuel
  rw [← hlen, take_left] at hstable
  rw [← hlen, drop_left, hstable.unique (.of_sorted hs)] at htop
  rw [mapSortn, if_neg hn, htop, Option.map_some]
  rw [foldl_insertTop_skip hc rest [] hbelow, nil_append]

/-- The nodes behind the window stay the wrong way round. -/
theorem mapSortn_swappedNodes {n : I32} (hn : ¬ (n = 0 ∨ (30 : I32).slt n)) {size fuel : Nat}
    (hfuel : inversions numberKey (swappedNodes (window n) size) < fuel) :
    mapSortn (stpCmp 0 (-1) false) fuel n (swappedNodes (window n) size)
      = some (swappedNodes (window n) size) := by
  refine mapSortn_of_below numberKey_compares hn ?_ ?_ ?_ hfuel
  · rw [length_map, length_range]
  · exact pairwise_map.2 (pairwise_of_forall fun i j => le_rfl)
  · intro a ha c hc
    obtain ⟨i, -, rfl⟩ := mem_map.1 hc
    rw [numberKey_numberNode]
    rw [mem_cons, mem_cons, mem_map] at ha
    obtain rfl | rfl | ⟨j, -, rfl⟩ := ha <;> rw [numberKey_numberNode] <;> decide

theorem take_swappedNodes (w size : Nat) :
    (swappedNodes w size).take (w + 1) = (range w).map (numberNode 0) ++ [numberNode 2 w] := by
  rw [swappedNodes, append_cons, take_left']
  rw [length_append, length_map, length_range, length_singleton]

/-- A sorted list of these nodes starts otherwise: the node of value 1 would come behind the
one of value 2. -/
theorem take_ne_of_sorted {w size : Nat} {sorted : List (Node 0)}
    (hperm : sorted.Perm (swappedNodes w size))
    (hsorted : sorted.Pairwise fun a b => stpCmp 0 (-1) false a b = false) :
    sorted.take (w + 1) ≠ (swappedNodes w size).take (w + 1) := by
  intro hhead
  rw [take_swappedNodes] at hhead
  have hmem : numberNode 1 (w + 1) ∈ sorted := by
    rw [hperm.mem_iff, swappedNodes]
    simp
  rw [← take_append_drop (w + 1) sorted, hhead] at hmem hsorted
  have hearly : ∀ m ∈ (range w).map (numberNode 0) ++ [numberNode 2 w], numberKey m ≠ 1 := by
    intro m hm
    rcases mem_append.1 hm with hm | hm
    · obtain ⟨i, -, rfl⟩ := mem_map.1 hm
      rw [numberKey_numberNode]
      decide
    · rw [mem_singleton.1 hm, numberKey_numberNode]
      decide
  rcases mem_append.1 hmem with hE | hlate
  · exact hearly _ hE (numberKey_numberNode 1 (w + 1))
  · have hwrong := (pairwise_append.1 hsorted).2.2 (numberNode 2 w) (by simp) _ hlate
    rw [numberKey_compares, numberKey_numberNode, numberKey_numberNode] at hwrong
    exact absurd hwrong (by decide)

theorem limitKept_of_visitsSorted {limit : I64} {size : Nat}
    (h : VisitsSorted false 0 true limit (swappedNodes (window (limit.setWidth 32)) size)) :
    LimitKept limit size := by
  by_contra hkept
  unfold LimitKept at hkept
  obtain ⟨N, sorted, hperm, hsorted, hrun⟩ := h
  unfold foreachLimit at hrun
  generalize (limit.setWidth 32 : I32) = n at *
  have hpos := window_pos n
  rw [listCmp_swappedNodes hpos] at hsorted hrun
  rw [not_or, not_or, not_or] at hkept
  obtain ⟨hzero, hsmall, hvisit, hsize⟩ := hkept
  obtain ⟨-, hvisited⟩ := hrun (max N (inversions numberKey (swappedNodes (window n) size) + 1))
    (le_max_left _ _)
  rw [mapSortn_swappedNodes (by rw [not_or]; exact ⟨hzero, hsmall⟩) (by omega), Option.map_some,
    visitUpTo_eq_take, sub_zero, Option.some_inj] at hvisited
  -- the loop walks past the window, so it shows the two nodes as they stand
  have hlong := length_swappedNodes (show window n + 2 ≤ size by omega)
  have hhead := congrArg (take (window n + 1)) hvisited
  rw [take_take, take_take, hlong, min_eq_left (by omega), min_eq_left (by omega)] at hhead
  exact take_ne_of_sorted hperm hsorted hhead.symm

/-- `foreach (k in a+ limit L)` over the arrays of a size: the body runs on the first `L`
elements of the sorted array, for every such array, column and direction, exactly if the
limit survives being cut to an `int`. -/
theorem foreachLimit_visitsSorted_iff (limit : I64) (size : Nat) :
    (∀ (buckets : Nat) (parallel : Bool) (column : Int) (increasing : Bool)
        (xs : List (Node buckets)), xs.length = size →
        VisitsSorted parallel column increasing limit xs) ↔
      LimitKept limit size := by
  constructor
  · intro h
    by_cases hsize : size ≤ window (limit.setWidth 32) + 1
    · exact .inr (.inr (.inr hsize))
    · apply limitKept_of_visitsSorted
      exact h _ _ _ _ _ (length_swappedNodes (by omega))
  · rintro h buckets parallel column increasing xs rfl
    exact visitsSorted_of_limitKept parallel column increasing h

/-- The limit `2 ^ 32 + 1` over an array with the values 0, 2, 1: `n` is 1, so only the least
element has to be in front, but all are visited. -/
theorem foreachLimit_cut :
    ¬ VisitsSorted false 0 true 0x100000001#64 [numberNode 0 0, numberNode 2 1, numberNode 1 2] := by
  intro h
  have hkept : LimitKept 0x100000001#64 3 := limitKept_of_visitsSorted h
  unfold LimitKept at hkept
  revert hkept
  decide

end Systemtap.Runtime
