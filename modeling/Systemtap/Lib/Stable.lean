import Mathlib

/-!
# Stable sorting by a key

`Stable key xs ys` says that `ys` is `xs` sorted by `key`, with elements of equal key in the
order they have in `xs`. That fixes `ys`, so an algorithm is correct once each of its steps
is shown to keep the order within every class of equal keys: swapping neighbours of
different keys does, merging two sorted lists does, and so does inserting a later element
behind those that are not greater.
-/

namespace Systemtap.Lib

open List

variable {α κ : Type*} [LinearOrder κ] {key : α → κ} {xs ys zs : List α}

/-- The elements of key `k`, in order. -/
def keyClass (key : α → κ) (k : κ) (xs : List α) : List α := xs.filter fun a => key a = k

theorem keyClass_cons_self (a : α) : keyClass key (key a) (a :: xs) = a :: keyClass key (key a) xs := by
  rw [keyClass, filter_cons_of_pos (by simp)]
  rfl

theorem keyClass_cons_of_ne {a : α} {k : κ} (h : key a ≠ k) :
    keyClass key k (a :: xs) = keyClass key k xs := by
  rw [keyClass, filter_cons_of_neg (by simpa using h)]
  rfl

theorem keyClass_append (k : κ) :
    keyClass key k (xs ++ ys) = keyClass key k xs ++ keyClass key k ys := filter_append ..

theorem keyClass_eq_nil {k : κ} (h : ∀ a ∈ xs, key a ≠ k) : keyClass key k xs = [] := by
  rw [keyClass, filter_eq_nil_iff]
  intro a ha
  simpa using h a ha

theorem mem_keyClass {a : α} : a ∈ keyClass key (key a) xs ↔ a ∈ xs := by
  simp [keyClass]

/-- Sorted by the key. -/
def SortedBy (key : α → κ) (xs : List α) : Prop := xs.Pairwise fun a b => key a ≤ key b

theorem sortedBy_iff : SortedBy key xs ↔ xs.Pairwise fun a b => decide (key a ≤ key b) = true := by
  simp only [SortedBy, decide_eq_true_eq]

theorem decide_le_trans (a b c : α) (hab : decide (key a ≤ key b) = true)
    (hbc : decide (key b ≤ key c) = true) : decide (key a ≤ key c) = true := by
  rw [decide_eq_true_eq] at *
  exact hab.trans hbc

theorem decide_le_total (a b : α) : (decide (key a ≤ key b) || decide (key b ≤ key a)) = true := by
  rw [Bool.or_eq_true, decide_eq_true_eq, decide_eq_true_eq]
  exact le_total _ _

structure Stable (key : α → κ) (xs ys : List α) : Prop where
  sorted : SortedBy key ys
  keyClass_eq : ∀ k, keyClass key k ys = keyClass key k xs

/-- A sorted list is fixed by its classes. -/
theorem eq_of_keyClass_eq (hy : SortedBy key ys) (hz : SortedBy key zs)
    (h : ∀ k, keyClass key k ys = keyClass key k zs) : ys = zs := by
  induction ys generalizing zs with
  | nil =>
    cases zs with
    | nil => rfl
    | cons z zs =>
      have := h (key z)
      exact absurd this (by simp [keyClass])
  | cons y ys ih =>
    cases zs with
    | nil =>
      have := h (key y)
      exact absurd this (by simp [keyClass])
    | cons z zs =>
      rw [SortedBy, pairwise_cons] at hy hz
      -- each head is in the other list, so neither key is the smaller one
      have hzy : key y ≤ key z := by
        have hmem : z ∈ keyClass key (key z) (y :: ys) := by
          rw [h, mem_keyClass]
          exact mem_cons_self
        rcases mem_cons.1 (mem_keyClass.1 hmem) with hE | hT
        · rw [hE]
        · exact hy.1 z hT
      have hyz : key z ≤ key y := by
        have hmem : y ∈ keyClass key (key y) (z :: zs) := by
          rw [← h, mem_keyClass]
          exact mem_cons_self
        rcases mem_cons.1 (mem_keyClass.1 hmem) with hE | hT
        · rw [hE]
        · exact hz.1 y hT
      have hkey : key y = key z := le_antisymm hzy hyz
      have hhead := h (key y)
      rw [keyClass_cons_self, hkey, keyClass_cons_self] at hhead
      obtain ⟨rfl, htail⟩ := cons.inj hhead
      congr 1
      refine ih hy.2 hz.2 fun k => ?_
      by_cases hk : key y = k
      · rw [← hk]
        exact htail
      · have := h k
        rwa [keyClass_cons_of_ne hk, keyClass_cons_of_ne hk] at this

theorem Stable.unique (h : Stable key xs ys) (h' : Stable key xs zs) : ys = zs :=
  eq_of_keyClass_eq h.sorted h'.sorted fun k => (h.keyClass_eq k).trans (h'.keyClass_eq k).symm

theorem Stable.of_sorted (h : SortedBy key xs) : Stable key xs xs := ⟨h, fun _ => rfl⟩

theorem Stable.nil : Stable key [] [] := .of_sorted .nil

theorem Stable.trans (h : Stable key ys zs) (hk : ∀ k, keyClass key k ys = keyClass key k xs) :
    Stable key xs zs := ⟨h.sorted, fun k => (h.keyClass_eq k).trans (hk k)⟩

/-- `List.mergeSort` is the stable sort. -/
theorem stable_mergeSort (xs : List α) :
    Stable key xs (xs.mergeSort fun a b => decide (key a ≤ key b)) := by
  refine ⟨sortedBy_iff.2 (pairwise_mergeSort decide_le_trans decide_le_total xs), fun k => ?_⟩
  -- a class is sorted, so it is still a sublist; the lengths are the same
  have hclass : SortedBy key (keyClass key k xs) := by
    refine pairwise_iff_forall_sublist.2 fun {a b} hab => ?_
    have ha := hab.subset (mem_cons_self)
    have hb := hab.subset (mem_cons_of_mem _ mem_cons_self)
    simp only [keyClass, mem_filter, decide_eq_true_eq] at ha hb
    rw [ha.2, hb.2]
  have hsub := sublist_mergeSort decide_le_trans decide_le_total (sortedBy_iff.1 hclass)
    filter_sublist
  have hsub' := hsub.filter fun a => decide (key a = k)
  rw [keyClass, filter_filter] at hsub'
  simp only [Bool.and_self] at hsub'
  have hlen := ((mergeSort_perm xs fun a b => decide (key a ≤ key b)).filter
    fun a => decide (key a = k)).length_eq
  exact (hsub'.eq_of_length hlen.symm).symm

theorem Stable.eq_mergeSort (h : Stable key xs ys) :
    ys = xs.mergeSort fun a b => decide (key a ≤ key b) := h.unique (stable_mergeSort xs)

theorem Stable.perm (h : Stable key xs ys) : ys.Perm xs := by
  rw [h.eq_mergeSort]
  exact mergeSort_perm _ _

/-! ## Steps that keep the classes -/

/-- Neighbours of different keys may be swapped. -/
theorem keyClass_swap {a b : α} (h : key a ≠ key b) (k : κ) :
    keyClass key k (b :: a :: xs) = keyClass key k (a :: b :: xs) := by
  by_cases ha : key a = k
  · have hb : key b ≠ k := fun hb => h (ha.trans hb.symm)
    subst ha
    rw [keyClass_cons_of_ne hb, keyClass_cons_self, keyClass_cons_self, keyClass_cons_of_ne hb]
  · rw [keyClass_cons_of_ne ha]
    by_cases hb : key b = k
    · subst hb
      rw [keyClass_cons_self, keyClass_cons_of_ne ha, keyClass_cons_self]
    · rw [keyClass_cons_of_ne hb, keyClass_cons_of_ne hb, keyClass_cons_of_ne ha]

theorem keyClass_cons_congr {a : α} {k : κ} (h : keyClass key k xs = keyClass key k ys) :
    keyClass key k (a :: xs) = keyClass key k (a :: ys) := by
  by_cases ha : key a = k
  · subst ha
    rw [keyClass_cons_self, keyClass_cons_self, h]
  · rw [keyClass_cons_of_ne ha, keyClass_cons_of_ne ha, h]

/-- Merging sorted lists, the left one first where the keys are equal. -/
theorem keyClass_merge (hx : SortedBy key xs) (k : κ) :
    keyClass key k (xs.merge ys fun a b => decide (key a ≤ key b))
      = keyClass key k xs ++ keyClass key k ys := by
  induction xs generalizing ys with
  | nil =>
    rw [nil_merge]
    rfl
  | cons a xs ihx =>
    rw [SortedBy, pairwise_cons] at hx
    induction ys with
    | nil =>
      rw [merge_right]
      exact (append_nil _).symm
    | cons b ys ihy =>
      rw [cons_merge_cons]
      by_cases hab : key a ≤ key b
      · rw [if_pos (by simpa using hab), ← keyClass_append]
        exact keyClass_cons_congr ((ihx hx.2).trans (keyClass_append k).symm)
      · rw [if_neg (by simpa using hab)]
        by_cases hb : key b = k
        · -- everything on the left is greater
          subst hb
          have hnone : keyClass key (key b) (a :: xs) = [] := by
            refine keyClass_eq_nil fun c hc hE => ?_
            rcases mem_cons.1 hc with rfl | hc
            · exact hab hE.le
            · exact hab ((hx.1 c hc).trans hE.le)
          rw [keyClass_cons_self, keyClass_cons_self, ihy, hnone, nil_append, nil_append]
        · rw [keyClass_cons_of_ne hb, keyClass_cons_of_ne hb, ihy]

theorem SortedBy.merge (hx : SortedBy key xs) (hy : SortedBy key ys) :
    SortedBy key (xs.merge ys fun a b => decide (key a ≤ key b)) := by
  rw [sortedBy_iff] at *
  exact pairwise_merge decide_le_trans decide_le_total xs ys hx hy

/-! ## Inserting a later element -/

/-- `a` behind the elements that are not greater, found from the end of the list. -/
def insertLast (key : α → κ) (a : α) (ys : List α) : List α :=
  ys.rdropWhile (fun c => decide (key a < key c)) ++
    a :: ys.rtakeWhile (fun c => decide (key a < key c))

theorem length_insertLast (a : α) (ys : List α) : (insertLast key a ys).length = ys.length + 1 := by
  have := congrArg length
    (rdropWhile_append_rtakeWhile (p := fun c => decide (key a < key c)) (l := ys))
  rw [length_append] at this
  rw [insertLast, length_append, length_cons]
  omega

theorem insertLast_concat_of_lt {a y : α} (h : key a < key y) :
    insertLast key a (ys ++ [y]) = insertLast key a ys ++ [y] := by
  unfold insertLast
  rw [rdropWhile_concat_pos _ _ _ (by simpa using h),
    rtakeWhile_concat_pos _ _ _ (by simpa using h), ← cons_append, ← append_assoc]

/-- Nothing is passed where the last element is not greater. -/
theorem insertLast_of_last_le {a : α} (h : ∀ hne : ys ≠ [], ¬ key a < key (ys.getLast hne)) :
    insertLast key a ys = ys ++ [a] := by
  unfold insertLast
  have hdrop : ys.rdropWhile (fun c => decide (key a < key c)) = ys := by
    rw [rdropWhile_eq_self_iff]
    exact fun hne => by simpa using h hne
  have htake : ys.rtakeWhile (fun c => decide (key a < key c)) = [] := by
    rw [rtakeWhile_eq_nil_iff]
    exact fun hne => by simpa using h hne
  rw [hdrop, htake]

/-- In a sorted list what is left in front is not greater. -/
theorem SortedBy.le_of_mem_rdropWhile (h : SortedBy key ys) {a c : α}
    (hc : c ∈ ys.rdropWhile fun c => decide (key a < key c)) : key c ≤ key a := by
  have hne : ys.rdropWhile (fun c => decide (key a < key c)) ≠ [] := ne_nil_of_mem hc
  have hlast := rdropWhile_last_not (fun c => decide (key a < key c)) ys hne
  rw [decide_eq_true_eq, not_lt] at hlast
  have hsorted : SortedBy key (ys.rdropWhile fun c => decide (key a < key c)) :=
    h.sublist ( rdropWhile_prefix _ _).sublist
  rw [← dropLast_append_getLast hne] at hc hsorted
  rw [SortedBy, pairwise_append] at hsorted
  rcases mem_append.1 hc with hc | hc
  · exact (hsorted.2.2 c hc _ (mem_singleton.2 rfl)).trans hlast
  · rw [mem_singleton.1 hc]
    exact hlast

theorem lt_of_mem_rtakeWhile {a c : α}
    (hc : c ∈ ys.rtakeWhile fun c => decide (key a < key c)) : key a < key c := by
  simpa using mem_rtakeWhile_imp hc

theorem Stable.insertLast (h : Stable key xs ys) (a : α) :
    Stable key (xs ++ [a]) (insertLast key a ys) := by
  have hsplit := rdropWhile_append_rtakeWhile (p := fun c => decide (key a < key c)) (l := ys)
  have hfront := fun c => h.sorted.le_of_mem_rdropWhile (a := a) (c := c)
  have hback : ∀ c ∈ ys.rtakeWhile fun c => decide (key a < key c), key a < key c :=
    fun c hc => lt_of_mem_rtakeWhile hc
  have hsorted := h.sorted
  have hclass := h.keyClass_eq
  rw [← hsplit] at hsorted hclass
  unfold Lib.insertLast
  generalize ys.rdropWhile (fun c => decide (key a < key c)) = front at *
  generalize ys.rtakeWhile (fun c => decide (key a < key c)) = back at *
  rw [SortedBy, pairwise_append] at hsorted
  obtain ⟨hsf, hsb, hcross⟩ := hsorted
  constructor
  · rw [SortedBy, pairwise_append, pairwise_cons]
    refine ⟨hsf, ⟨fun c hc => (hback c hc).le, hsb⟩, fun c hc d hd => ?_⟩
    rcases mem_cons.1 hd with rfl | hd
    · exact hfront c hc
    · exact hcross c hc d hd
  · intro k
    rw [keyClass_append, keyClass_append, ← hclass, keyClass_append, append_assoc]
    congr 1
    by_cases ha : key a = k
    · -- what stands behind `a` is greater
      subst ha
      have hnone : keyClass key (key a) back = [] :=
        keyClass_eq_nil fun c hc hE => absurd hE (hback c hc).ne'
      rw [keyClass_cons_self, hnone, keyClass_cons_self]
      rfl
    · rw [keyClass_cons_of_ne ha, keyClass_cons_of_ne ha]
      exact (append_nil _).symm

/-- The first elements after an insertion need only the first elements before it. -/
theorem take_insertLast (h : SortedBy key ys) (a : α) (n : Nat) :
    (insertLast key a (ys.take n)).take n = (insertLast key a ys).take n := by
  induction ys using reverseRecOn with
  | nil => rw [take_nil]
  | append_singleton ys y ih =>
    by_cases hn : n ≤ ys.length
    · have hs : SortedBy key ys := h.sublist (sublist_append_left _ _)
      rw [take_append_of_le_length hn, ih hs]
      by_cases hy : key a < key y
      · rw [insertLast_concat_of_lt hy, take_append_of_le_length]
        rw [length_insertLast]
        omega
      · -- `a` stands behind the whole list in both
        have hle : ∀ c ∈ ys, ¬ key a < key c := by
          intro c hc hlt
          rw [SortedBy, pairwise_append] at h
          exact hy (hlt.trans_le (h.2.2 c hc y (mem_singleton.2 rfl)))
        rw [insertLast_of_last_le fun hne => hle _ (getLast_mem hne), insertLast_of_last_le]
        · rw [take_append_of_le_length hn, append_assoc, take_append_of_le_length hn]
        · intro hne
          rwa [getLast_append_singleton]
    · have hall : (ys ++ [y]).take n = ys ++ [y] := by
        apply take_of_length_le
        rw [length_append, length_singleton]
        omega
      rw [hall]

end Systemtap.Lib
