import Mathlib

/-!
# Circular doubly linked lists

The lists of `linux/list.h`: every node has a `next` and a `prev`, and the ring is closed by a head, which is
a node without data. `Circular s head xs` says that the links `s` run from `head` through `xs` back to `head`,
both ways. An operation changes a few links around one place of the ring; `Circular.splice` says what has to be
shown there for the whole to be a ring again, and `Circular.del`, `Circular.add` and `Circular.swap` are its uses.
-/

namespace Systemtap.Lib

open List

/-- The links of all nodes. -/
structure Links (π : Type) where
  next : π → π
  prev : π → π

variable {π : Type}

/-- Neighbours in `xs` are linked both ways. -/
def Linked (s : Links π) (xs : List π) : Prop := xs.IsChain fun a b => s.next a = b ∧ s.prev b = a

/-- The ring of `head` with the nodes `xs`, in the order of `next`. -/
structure Circular (s : Links π) (head : π) (xs : List π) : Prop where
  nodup : (head :: xs).Nodup
  linked : Linked s (head :: xs ++ [head])

instance [DecidableEq π] (s : Links π) (head : π) (xs : List π) : Decidable (Circular s head xs) :=
  have : Decidable (Linked s (head :: xs ++ [head])) := by
    unfold Linked
    infer_instance
  decidable_of_iff ((head :: xs).Nodup ∧ Linked s (head :: xs ++ [head]))
    ⟨fun h => ⟨h.1, h.2⟩, fun h => ⟨h.nodup, h.linked⟩⟩

/-! ## Reading -/

/-- The node in front of a cut through the ring, where `xs` are the nodes before it. -/
def lastOf (head : π) (xs : List π) : π := xs.getLastD head

/-- The node behind a cut through the ring, where `ys` are the nodes after it. -/
def firstOf (head : π) (ys : List π) : π := ys.headD head

@[simp] theorem lastOf_nil (head : π) : lastOf head [] = head := rfl

@[simp] theorem lastOf_concat (head x : π) (xs : List π) : lastOf head (xs ++ [x]) = x := by
  simp [lastOf]

theorem lastOf_append {xs ys : List π} (head : π) (h : ys ≠ []) : lastOf head (xs ++ ys) = lastOf head ys := by
  obtain ⟨zs, z, rfl⟩ := (eq_nil_or_concat' ys).resolve_left h
  rw [← append_assoc, lastOf_concat, lastOf_concat]

@[simp] theorem firstOf_nil (head : π) : firstOf head [] = head := rfl

@[simp] theorem firstOf_cons (head y : π) (ys : List π) : firstOf head (y :: ys) = y := rfl

theorem exists_front (head : π) (xs : List π) : ∃ front, head :: xs = front ++ [lastOf head xs] := by
  rcases eq_nil_or_concat xs with rfl | ⟨ys, y, rfl⟩
  · exact ⟨[], rfl⟩
  · exact ⟨head :: ys, by simp⟩

theorem exists_back (head : π) (ys : List π) : ∃ back, ys ++ [head] = firstOf head ys :: back := by
  cases ys with
  | nil => exact ⟨[], rfl⟩
  | cons y ys => exact ⟨ys ++ [head], rfl⟩

variable {s t : Links π} {head e a b : π} {xs ys mid mid' : List π}

theorem linked_append {c : π} : Linked s (xs ++ c :: ys) ↔ Linked s (xs ++ [c]) ∧ Linked s (c :: ys) :=
  isChain_split

theorem linked_cons_cons : Linked s (a :: b :: xs) ↔ (s.next a = b ∧ s.prev b = a) ∧ Linked s (b :: xs) :=
  isChain_cons_cons

/-- The two links at a cut through the ring. -/
theorem Circular.link (h : Circular s head (xs ++ ys)) :
    s.next (lastOf head xs) = firstOf head ys ∧ s.prev (firstOf head ys) = lastOf head xs := by
  obtain ⟨front, hfront⟩ := exists_front head xs
  obtain ⟨back, hback⟩ := exists_back head ys
  have hlinked := h.linked
  have hlist : head :: (xs ++ ys) ++ [head] = front ++ lastOf head xs :: firstOf head ys :: back := by
    rw [← hback, ← cons_append, hfront]
    simp
  rw [hlist, linked_append, linked_cons_cons] at hlinked
  exact hlinked.2.1

theorem Circular.next_eq (h : Circular s head (xs ++ ys)) : s.next (lastOf head xs) = firstOf head ys := h.link.1

theorem Circular.prev_eq (h : Circular s head (xs ++ ys)) : s.prev (firstOf head ys) = lastOf head xs := h.link.2

/-- `next` of a node. -/
theorem Circular.next_node (h : Circular s head (xs ++ e :: ys)) : s.next e = firstOf head ys := by
  rw [append_cons] at h
  simpa using h.next_eq

theorem Circular.prev_node (h : Circular s head (xs ++ e :: ys)) : s.prev e = lastOf head xs := by
  simpa using h.prev_eq

theorem Circular.next_head (h : Circular s head xs) : s.next head = firstOf head xs := by
  have hcut : Circular s head ([] ++ xs) := h
  simpa using hcut.next_eq

theorem Circular.head_notMem (h : Circular s head xs) : head ∉ xs := (nodup_cons.1 h.nodup).1

theorem Circular.ne_head (h : Circular s head xs) (ha : a ∈ xs) : a ≠ head := by
  intro hE
  exact h.head_notMem (hE ▸ ha)

/-- The list is empty exactly if the head is its own successor. -/
theorem Circular.next_head_eq_iff (h : Circular s head xs) : s.next head = head ↔ xs = [] := by
  rw [h.next_head]
  cases xs with
  | nil => simp
  | cons x xs => simpa using h.ne_head mem_cons_self

/-- The last node of the front is not one of the back. -/
theorem Circular.lastOf_notMem (h : Circular s head (xs ++ ys)) : lastOf head xs ∉ ys := by
  intro hmem
  obtain ⟨front, hfront⟩ := exists_front head xs
  have hnd := h.nodup
  rw [← cons_append, hfront] at hnd
  exact (nodup_append.1 hnd).2.2 _ (by simp) _ hmem rfl

theorem Circular.firstOf_notMem (h : Circular s head (xs ++ ys)) : firstOf head ys ∉ xs := by
  intro hmem
  cases ys with
  | nil => exact h.ne_head (mem_append_left _ hmem) rfl
  | cons y ys =>
    exact (nodup_append.1 (nodup_cons.1 h.nodup).2).2.2 y hmem y mem_cons_self rfl

/-! ## Changing a place of the ring -/

/-- Links that are the same for all nodes but the last (`next`) and all but the first (`prev`). -/
theorem Linked.congr (h : Linked s xs) (hnext : ∀ c ∈ xs.dropLast, t.next c = s.next c)
    (hprev : ∀ c ∈ xs.tail, t.prev c = s.prev c) : Linked t xs := by
  induction xs with
  | nil => exact List.IsChain.nil
  | cons x xs ih => cases xs with
    | nil => exact List.IsChain.singleton x
    | cons y xs =>
      obtain ⟨⟨hx, hy⟩, hrest⟩ := linked_cons_cons.1 h
      refine linked_cons_cons.2 ⟨⟨?_, ?_⟩, ih hrest ?_ ?_⟩
      · rw [hnext x mem_cons_self, hx]
      · rw [hprev y mem_cons_self, hy]
      · exact fun c hc => hnext c (mem_cons_of_mem _ hc)
      · exact fun c hc => hprev c (mem_cons_of_mem _ hc)

/-- The nodes `mid` between two neighbours are replaced by `mid'`. Only the links of these nodes, the `next`
of the neighbour in front and the `prev` of the one behind may change. -/
theorem Circular.splice (h : Circular s head (xs ++ mid ++ ys)) (hnodup : (head :: (xs ++ mid' ++ ys)).Nodup)
    (hmid : Linked t (lastOf head xs :: mid' ++ [firstOf head ys]))
    (hnext : ∀ c, c ≠ lastOf head xs → c ∉ mid → c ∉ mid' → t.next c = s.next c)
    (hprev : ∀ c, c ≠ firstOf head ys → c ∉ mid → c ∉ mid' → t.prev c = s.prev c) :
    Circular t head (xs ++ mid' ++ ys) := by
  obtain ⟨front, hfront⟩ := exists_front head xs
  obtain ⟨back, hback⟩ := exists_back head ys
  have hsplit (m : List π) : head :: (xs ++ m ++ ys) ++ [head]
      = front ++ (lastOf head xs :: (m ++ firstOf head ys :: back)) := by
    rw [← hback, append_cons front, ← hfront]
    simp
  have hparts (r : Links π) (m : List π) : Linked r (head :: (xs ++ m ++ ys) ++ [head])
      ↔ Linked r (front ++ [lastOf head xs]) ∧ Linked r (lastOf head xs :: m ++ [firstOf head ys])
        ∧ Linked r (firstOf head ys :: back) := by
    have hrest : Linked r ((lastOf head xs :: m) ++ firstOf head ys :: back)
        ↔ Linked r ((lastOf head xs :: m) ++ [firstOf head ys]) ∧ Linked r (firstOf head ys :: back) :=
      linked_append
    rw [hsplit, linked_append]
    exact and_congr_right' hrest
  obtain ⟨hleft, -, hright⟩ := (hparts s mid).1 h.linked
  -- a node is on one side of the cut only, and none of those in the middle
  have hapart (m : List π) (hnd : (head :: (xs ++ m ++ ys)).Nodup) :
      ((∀ c ∈ front, c ≠ lastOf head xs ∧ c ∉ m) ∧ ∀ c ∈ ys, c ≠ lastOf head xs ∧ c ∉ m) ∧
        (∀ c ∈ xs, c ≠ firstOf head ys ∧ c ∉ m) ∧ ∀ c ∈ back, c ≠ firstOf head ys ∧ c ∉ m := by
    have hfronts : (front ++ [lastOf head xs] ++ m ++ ys).Nodup := by
      rw [← hfront]
      simpa using hnd
    have hbacks : (xs ++ m ++ firstOf head ys :: back).Nodup := by
      rw [← hback, ← append_assoc]
      exact nodup_append_comm.1 hnd
    clear * - hfronts hbacks
    grind
  obtain ⟨⟨h1, h2⟩, h3, h4⟩ := hapart mid h.nodup
  obtain ⟨⟨h1', h2'⟩, h3', h4'⟩ := hapart mid' hnodup
  refine ⟨hnodup, (hparts t mid').2 ⟨hleft.congr ?_ ?_, hmid, hright.congr ?_ ?_⟩⟩
  · intro c hc
    rw [dropLast_concat] at hc
    exact hnext c (h1 c hc).1 (h1 c hc).2 (h1' c hc).2
  · intro c hc
    rw [← hfront, tail_cons] at hc
    exact hprev c (h3 c hc).1 (h3 c hc).2 (h3' c hc).2
  · intro c hc
    rw [← hback, dropLast_concat] at hc
    exact hnext c (h2 c hc).1 (h2 c hc).2 (h2' c hc).2
  · intro c hc
    exact hprev c (h4 c hc).1 (h4 c hc).2 (h4' c hc).2

/-! ## The operations -/

section Operations

variable [DecidableEq π]

def Links.setNext (s : Links π) (p v : π) : Links π := { s with next := Function.update s.next p v }

def Links.setPrev (s : Links π) (p v : π) : Links π := { s with prev := Function.update s.prev p v }

@[simp] theorem Links.setNext_next (s : Links π) (p v c : π) :
    (s.setNext p v).next c = if c = p then v else s.next c := Function.update_apply ..

@[simp] theorem Links.setNext_prev (s : Links π) (p v : π) : (s.setNext p v).prev = s.prev := rfl

@[simp] theorem Links.setPrev_prev (s : Links π) (p v c : π) :
    (s.setPrev p v).prev c = if c = p then v else s.prev c := Function.update_apply ..

@[simp] theorem Links.setPrev_next (s : Links π) (p v : π) : (s.setPrev p v).next = s.next := rfl

/-- `list_del`. The links of the node itself are poisoned. -/
def listDel (poison : π × π) (s : Links π) (e : π) : Links π :=
  (((s.setPrev (s.next e) (s.prev e)).setNext (s.prev e) (s.next e)).setNext e poison.1).setPrev e poison.2

/-- `list_add`: `e` is put behind `p`. -/
def listAdd (s : Links π) (e p : π) : Links π :=
  (((s.setPrev (s.next p) e).setNext e (s.next p)).setPrev e p).setNext p e

theorem Circular.del (poison : π × π) (h : Circular s head (xs ++ e :: ys)) :
    Circular (listDel poison s e) head (xs ++ ys) := by
  have hnext := h.next_node
  have hprev := h.prev_node
  -- the neighbours are not the node itself
  have hp : lastOf head xs ≠ e := fun hE => h.lastOf_notMem (hE ▸ mem_cons_self)
  have hcut : Circular s head ((xs ++ [e]) ++ ys) := by simpa using h
  have hn : firstOf head ys ≠ e := fun hE => hcut.firstOf_notMem (hE ▸ by simp)
  have hspl : Circular s head (xs ++ [e] ++ ys) := hcut
  have hnd : (head :: (xs ++ [] ++ ys)).Nodup := by
    refine h.nodup.sublist ?_
    simp
  have hres := hspl.splice (t := listDel poison s e) hnd ?_ ?_ ?_
  · simpa using hres
  · refine linked_cons_cons.2 ⟨⟨?_, ?_⟩, List.IsChain.singleton _⟩
    · simp [listDel, hnext, hprev, hp]
    · simp [listDel, hnext, hprev, hn]
  · intro c hcp hce _
    have hne : c ≠ e := by simpa using hce
    simp [listDel, hprev, hcp, hne]
  · intro c hcn hce _
    have hne : c ≠ e := by simpa using hce
    simp [listDel, hnext, hcn, hne]

theorem Circular.add (h : Circular s head (xs ++ ys)) (he : e ≠ head) (hmem : e ∉ xs ++ ys) :
    Circular (listAdd s e (lastOf head xs)) head (xs ++ e :: ys) := by
  have hnext := h.next_eq
  rw [mem_append, not_or] at hmem
  have hp : lastOf head xs ≠ e := by
    intro hE
    rcases eq_nil_or_concat xs with rfl | ⟨zs, z, rfl⟩
    · exact he (by simpa using hE.symm)
    · exact hmem.1 (by rw [← hE]; simp)
  have hn : firstOf head ys ≠ e := by
    intro hE
    cases ys with
    | nil => exact he (by simpa using hE.symm)
    | cons y ys => exact hmem.2 (by rw [← hE]; simp)
  have hspl : Circular s head (xs ++ [] ++ ys) := by simpa using h
  have hnd : (head :: (xs ++ [e] ++ ys)).Nodup := by
    have hperm : (head :: (xs ++ [e] ++ ys)).Perm (e :: head :: (xs ++ ys)) := by
      rw [append_assoc, singleton_append]
      exact (perm_middle.cons head).trans (List.Perm.swap e head _)
    refine hperm.nodup_iff.2 (nodup_cons.2 ⟨?_, h.nodup⟩)
    simp [he, hmem.1, hmem.2]
  have hres := hspl.splice (t := listAdd s e (lastOf head xs)) hnd ?_ ?_ ?_
  · simpa using hres
  · refine linked_cons_cons.2 ⟨⟨?_, ?_⟩, linked_cons_cons.2 ⟨⟨?_, ?_⟩, List.IsChain.singleton _⟩⟩
    · simp [listAdd]
    · simp [listAdd]
    · simp [listAdd, hnext, hp.symm]
    · simp [listAdd, hnext, hn]
  · intro c hcp _ hce
    have hne : c ≠ e := by simpa using hce
    simp [listAdd, hcp, hne]
  · intro c hcn _ hce
    have hne : c ≠ e := by simpa using hce
    simp [listAdd, hnext, hcn, hne]

/-- Taking a node out and putting it behind an earlier one. -/
theorem Circular.move (poison : π × π) (h : Circular s head (xs ++ mid ++ e :: ys)) :
    Circular (listAdd (listDel poison s e) e (lastOf head xs)) head (xs ++ e :: mid ++ ys) := by
  have hdel : Circular (listDel poison s e) head (xs ++ (mid ++ ys)) := by
    have := h.del poison
    rwa [append_assoc] at this
  have hnd := (nodup_cons.1 h.nodup).2
  have hmem : e ∉ xs ++ (mid ++ ys) := by
    have hperm : (xs ++ mid ++ e :: ys).Perm (e :: (xs ++ mid ++ ys)) := perm_middle
    rw [← append_assoc]
    exact (nodup_cons.1 (hperm.nodup_iff.1 hnd)).1
  have hadd := hdel.add (h.ne_head (by simp)) hmem
  simpa using hadd

end Operations

end Systemtap.Lib
