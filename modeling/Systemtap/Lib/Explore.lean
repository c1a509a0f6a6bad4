import Mathlib

/-!
# Collecting items through calls

A collector walks over a list of items. Some items call a node, and the first
time a node is called its own items are collected too. `explore` is that
walk, with the nodes already entered in `visited` and everything met so far in
`seen`. Its fuel is the depth of calls, and `explore_spec` shows that one more
than the number of nodes is always enough: the outcome holds the items it
started with and is closed under calls.
-/

namespace Systemtap.Lib

open List

variable {ι ν : Type}

/-- What a walk has met. -/
structure Found (ι ν : Type) where
  seen : List ι
  visited : List ν

variable (next : ν → List ι) (calls : ι → Option ν)

/-- Meet one item; `enter` walks the items of a node that is new. -/
def meet [DecidableEq ν] (enter : List ι → Found ι ν → Found ι ν) (u : Found ι ν) (i : ι) :
    Found ι ν :=
  match calls i with
  | none => ⟨i :: u.seen, u.visited⟩
  | some n =>
    if n ∈ u.visited then ⟨i :: u.seen, u.visited⟩
    else enter (next n) ⟨i :: u.seen, n :: u.visited⟩

/-- Walk over `is`, entering nodes at most `k` calls deep. -/
def explore [DecidableEq ν] : Nat → List ι → Found ι ν → Found ι ν
  | 0 => fun _ u => u
  | k + 1 => fun is u => is.foldl (meet next calls (explore k)) u

/-- `u'` is `u` after a walk over `is`: nothing is lost, every item of `is` is
met, and what is new is closed under calls. -/
structure Walked (is : List ι) (u u' : Found ι ν) : Prop where
  seen : u.seen ⊆ u'.seen
  visited : u.visited ⊆ u'.visited
  items : is ⊆ u'.seen
  called : ∀ i ∈ u'.seen, i ∈ u.seen ∨ ∀ n, calls i = some n → n ∈ u'.visited
  entered : ∀ n ∈ u'.visited, n ∈ u.visited ∨ next n ⊆ u'.seen

variable {next calls}

theorem Walked.nil (u : Found ι ν) : Walked next calls [] u u where
  seen := fun _ h => h
  visited := fun _ h => h
  items := nil_subset _
  called := fun _ h => .inl h
  entered := fun _ h => .inl h

theorem Walked.trans {is js : List ι} {u v w : Found ι ν} (h : Walked next calls is u v)
    (h' : Walked next calls js v w) : Walked next calls (is ++ js) u w where
  seen := fun _ hi => h'.seen (h.seen hi)
  visited := fun _ hn => h'.visited (h.visited hn)
  items := append_subset.mpr ⟨fun _ hi => h'.seen (h.items hi), h'.items⟩
  called := by
    intro i hi
    rcases h'.called i hi with hv | hc
    · rcases h.called i hv with hu | hc
      · exact .inl hu
      · exact .inr fun n hn => h'.visited (hc n hn)
    · exact .inr hc
  entered := by
    intro n hn
    rcases h'.entered n hn with hv | hs
    · rcases h.entered n hv with hu | hs
      · exact .inl hu
      · exact .inr fun _ hj => h'.seen (hs hj)
    · exact .inr hs

/-- An item that calls nothing new is only noted. -/
theorem Walked.noted {i : ι} {u : Found ι ν} (h : ∀ n, calls i = some n → n ∈ u.visited) :
    Walked next calls [i] u ⟨i :: u.seen, u.visited⟩ where
  seen := subset_cons_self _ _
  visited := fun _ hn => hn
  items := by simp
  called := by
    intro j hj
    rcases mem_cons.mp hj with rfl | hj
    · exact .inr h
    · exact .inl hj
  entered := fun _ hn => .inl hn

/-- An item that calls a new node, whose items are walked next. -/
theorem Walked.enter {i : ι} {n : ν} {u u' : Found ι ν} (hi : calls i = some n)
    (h : Walked next calls (next n) ⟨i :: u.seen, n :: u.visited⟩ u') :
    Walked next calls [i] u u' where
  seen := fun _ hj => h.seen (mem_cons_of_mem _ hj)
  visited := fun _ hm => h.visited (mem_cons_of_mem _ hm)
  items := by
    intro j hj
    obtain rfl := mem_singleton.mp hj
    exact h.seen mem_cons_self
  called := by
    intro j hj
    rcases h.called j hj with hu | hc
    · rcases mem_cons.mp hu with rfl | hu
      · refine .inr fun m hm => ?_
        obtain rfl : n = m := Option.some.inj (hi.symm.trans hm)
        exact h.visited mem_cons_self
      · exact .inl hu
    · exact .inr hc
  entered := by
    intro m hm
    rcases h.entered m hm with hu | hs
    · rcases mem_cons.mp hu with rfl | hu
      · exact .inr h.items
      · exact .inl hu
    · exact .inr hs

section Fuel

variable [DecidableEq ν]

/-- The nodes that are still to be entered. -/
def unvisited (nodes : List ν) (u : Found ι ν) : List ν := nodes.filter fun n => n ∉ u.visited

variable {nodes : List ν}

theorem unvisited_length_le {u u' : Found ι ν} (h : u.visited ⊆ u'.visited) :
    (unvisited nodes u').length ≤ (unvisited nodes u).length := by
  refine List.Sublist.length_le (monotone_filter_right nodes fun n hn => ?_)
  simp only [decide_eq_true_eq] at hn ⊢
  exact fun hu => hn (h hu)

theorem unvisited_length_lt {u : Found ι ν} {n : ν} (hn : n ∈ nodes)
    (hu : n ∉ u.visited) (is : List ι) :
    (unvisited nodes ⟨is, n :: u.visited⟩ : List ν).length < (unvisited nodes u).length := by
  have hle : (unvisited nodes (⟨is, n :: u.visited⟩ : Found ι ν)).length
      ≤ (unvisited nodes u).length := unvisited_length_le (subset_cons_self _ _)
  refine Nat.lt_of_le_of_ne hle fun heq => ?_
  -- a sublist of the same length is the list itself, but `n` was filtered out
  have hsub : (unvisited nodes (⟨is, n :: u.visited⟩ : Found ι ν)).Sublist (unvisited nodes u) :=
    monotone_filter_right nodes fun m hm => by
      simp only [decide_eq_true_eq, mem_cons, not_or] at hm ⊢
      exact hm.2
  have hmem : n ∈ unvisited nodes (⟨is, n :: u.visited⟩ : Found ι ν) := by
    rw [hsub.eq_of_length heq]
    exact mem_filter.mpr ⟨hn, by simpa using hu⟩
  have := (mem_filter.mp hmem).2
  simp at this

/-- With fuel for every node that is left, a walk misses nothing. -/
theorem explore_walked (hnodes : ∀ n, n ∉ nodes → next n = []) :
    ∀ (k : Nat) (is : List ι) (u : Found ι ν), (unvisited nodes u).length < k →
      Walked next calls is u (explore next calls k is u)
  | 0, _, _, h => absurd h (Nat.not_lt_zero _)
  | k + 1, is, u, h => by
    change Walked next calls is u (is.foldl (meet next calls (explore next calls k)) u)
    induction is generalizing u with
    | nil => exact Walked.nil u
    | cons i is ih =>
      have hi : Walked next calls [i] u (meet next calls (explore next calls k) u i) := by
        unfold meet
        split
        next hc => exact Walked.noted fun n hn => by simp [hc] at hn
        next n hc =>
          split
          next hv =>
            refine Walked.noted fun m hm => ?_
            obtain rfl : n = m := Option.some.inj (hc.symm.trans hm)
            exact hv
          next hv =>
            refine Walked.enter hc ?_
            by_cases hn : n ∈ nodes
            · have hlt := unvisited_length_lt hn hv (i :: u.seen)
              exact explore_walked hnodes k _ _ (by omega)
            · -- a node without items needs no fuel
              rw [hnodes n hn]
              cases k <;> exact Walked.nil _
      exact hi.trans (ih _ (Nat.lt_of_le_of_lt (unvisited_length_le hi.visited) h))

/-- **The walk from nothing holds its start and is closed under calls.** -/
theorem explore_spec (hnodes : ∀ n, n ∉ nodes → next n = []) (is : List ι) :
    is ⊆ (explore next calls (nodes.length + 1) is ⟨[], []⟩).seen ∧
      ∀ i ∈ (explore next calls (nodes.length + 1) is ⟨[], []⟩).seen, ∀ n, calls i = some n →
        next n ⊆ (explore next calls (nodes.length + 1) is ⟨[], []⟩).seen := by
  have h : Walked next calls is ⟨[], []⟩ (explore next calls (nodes.length + 1) is ⟨[], []⟩) :=
    explore_walked hnodes _ is _ (Nat.lt_succ_of_le (length_filter_le _ _))
  refine ⟨h.items, fun i hi n hn => ?_⟩
  rcases h.called i hi with h0 | hc
  · simp at h0
  · rcases h.entered n (hc n hn) with h0 | hs
    · simp at h0
    · exact hs

/-- A walk meets nothing outside a set that is closed under calls. -/
theorem explore_subset {X : Set ι} (hX : ∀ i ∈ X, ∀ n, calls i = some n → ∀ j ∈ next n, j ∈ X)
    (k : Nat) :
    ∀ (is : List ι) (u : Found ι ν), (∀ i ∈ is, i ∈ X) → (∀ i ∈ u.seen, i ∈ X) →
      ∀ i ∈ (explore next calls k is u).seen, i ∈ X := by
  induction k with
  | zero => exact fun is u _ hu => hu
  | succ k ih =>
    intro is
    change ∀ u : Found ι ν, _ → _ →
      ∀ i ∈ (is.foldl (meet next calls (explore next calls k)) u).seen, i ∈ X
    induction is with
    | nil => exact fun u _ hu => hu
    | cons i is ihs =>
      intro u his hu
      have hi : i ∈ X := his i mem_cons_self
      have hnoted : ∀ j ∈ i :: u.seen, j ∈ X := forall_mem_cons.mpr ⟨hi, hu⟩
      refine ihs _ (fun j hj => his j (mem_cons_of_mem _ hj)) ?_
      unfold meet
      split
      next => exact hnoted
      next n hc =>
        split
        next => exact hnoted
        next => exact ih _ _ (hX i hi n hc) hnoted

end Fuel

end Systemtap.Lib
