import Systemtap.Lib.Ring
import Systemtap.Runtime.Sort

/-!
# Sorting the ring of a map

`_stp_map_sort`, `_stp_swap` and `_stp_map_sortn` of `map.c` on the links of the nodes. `Sort.lean` has what
they do to the list of the nodes; here the nodes are taken out and put in one by one, while the loops
hold pointers into the ring they change. Each loop is shown to leave a ring whose nodes are the list of its
counterpart in `Sort.lean`.

A pointer that may be `NULL` is an `Option`, and following `NULL` stops the sort without a result. A map has at
most `INT_MAX` nodes, so no counter that is compared leaves `int`; the last doubling of `insize` is not read.
-/

namespace Systemtap.Runtime

open Systemtap.Tree Lib List Nat

/-! ## The code -/

section Code

variable {π : Type} [DecidableEq π] (poison : π × π) (cmp : π → π → Bool) (head : π)

/-- `p->next == head ? NULL : p->next` -/
def nextOrNull (s : Links π) (p : π) : Option π := if s.next p = head then none else some (s.next p)

/-- The loop `for (i = 0; i < insize; i++)`, with what is left of it; returns `psize` and `q`. -/
def skipRun (s : Links π) : Nat → Nat → π → Nat × Option π
  | 0, psize, q => (psize, some q)
  | i + 1, psize, q =>
    match nextOrNull head s q with
    | none => (psize + 1, none)
    | some q => skipRun s i (psize + 1) q

/-- `list_del(e); list_add(e, tail);` -/
def putOnTail (s : Links π) (e tail : π) : Links π := listAdd (listDel poison s e) e tail

/-- `_stp_cmp(p, q)` -/
def cmpPtr : Option π → Option π → Bool
  | some p, some q => cmp p q
  | _, _ => false

/-- The loop `while (psize > 0 || (qsize > 0 && q))`; returns the links, `tail` and `q`. -/
def mergeLoop : Nat → Nat → Nat → Option π → Option π → π → Links π → Option (Links π × π × Option π)
  | 0, _, _, _, _, _, _ => none
  | fuel + 1, psize, qsize, p, q, tail, s =>
    if 0 < psize ∨ (0 < qsize ∧ q.isSome) then
      if 0 < psize ∧ (qsize = 0 ∨ q.isNone ∨ cmpPtr cmp p q = false) then
        p.bind fun e =>
          mergeLoop fuel (psize - 1) qsize (nextOrNull head s e) q e (putOnTail poison s e tail)
      else
        q.bind fun e =>
          mergeLoop fuel psize (qsize - 1) p (nextOrNull head s e) e (putOnTail poison s e tail)
    else some (s, tail, q)

/-- The loop `while (p)`; returns the links and `nmerges`. -/
def passLoop (insize : Nat) : Nat → Option π → π → Nat → Links π → Option (Links π × Nat)
  | 0, _, _, _, _ => none
  | _ + 1, none, _, nmerges, s => some (s, nmerges)
  | fuel + 1, some p, tail, nmerges, s =>
    let run := skipRun head s insize 0 p
    (mergeLoop poison cmp head (run.1 + insize + 1) run.1 insize (some p) run.2 tail s).bind fun r =>
      passLoop insize fuel r.2.2 r.2.1 (nmerges + 1) r.1

/-- The loop `do .. while (nmerges > 1)` -/
def ringPasses (rounds : Nat) : Nat → Nat → Links π → Option (Links π)
  | 0, _, _ => none
  | fuel + 1, insize, s =>
    (passLoop poison cmp head insize rounds (some (s.next head)) head 0 s).bind fun r =>
      if 1 < r.2 then ringPasses rounds fuel (insize + insize) r.1 else some r.1

/-- `_stp_map_sort`, where `cmp` has the `keynum`, the `dir` and the `type` -/
def ringSort (fuel : Nat) (s : Links π) : Option (Links π) :=
  if s.next head = head then some s else ringPasses poison cmp head fuel fuel 1 s

/-- `_stp_swap` -/
def stpSwap (s : Links π) (a b : π) : Links π :=
  let s := s.setNext (s.prev a) b
  let s := s.setPrev (s.next b) a
  let s := s.setNext a (s.next b)
  let s := s.setPrev b (s.prev a)
  let s := s.setPrev a b
  s.setNext b a

/-- The loop `while ((a->next != head) && (--num > 0))`; returns the links, `a` and `swaps`. -/
def bubblePass : Nat → I32 → π → π → Nat → Links π → Option (Links π × π × Nat)
  | 0, _, _, _, _, _ => none
  | fuel + 1, num, a, c, swaps, s =>
    if s.next a = head then some (s, a, swaps)
    else if (0 : I32).slt (num - 1) then
      if cmp a (s.next a) then
        let s := stpSwap s a (s.next a)
        bubblePass fuel (num - 1) (s.prev c) (s.next c) (swaps + 1) s
      else bubblePass fuel (num - 1) (s.prev c) (s.next c) swaps s
    else some (s, a, swaps)

/-- The loop `while (swaps)`; returns the links and `a`. -/
def bubblePasses (rounds : Nat) (n : I32) : Nat → Links π → Option (Links π × π)
  | 0, _ => none
  | fuel + 1, s =>
    let a := s.next head
    (bubblePass cmp head rounds n a (s.next (s.next a)) 0 s).bind fun r =>
      if r.2.2 = 0 then some (r.1, r.2.1) else bubblePasses rounds n fuel r.1

/-- The loop `while (c != head && _stp_cmp(c, a, ..)) c = c->prev;` -/
def findPlace (s : Links π) (a : π) : Nat → π → Option π
  | 0, _ => none
  | fuel + 1, c => if c = head then some c else if cmp c a then findPlace s a fuel (s.prev c) else some c

/-- The loop `while (a != head)` -/
def insertLoop (rounds : Nat) : Nat → π → π → Links π → Option (Links π)
  | 0, _, _, _ => none
  | fuel + 1, last, a, s =>
    if a = head then some s
    else
      let tmp := s.next a
      (findPlace cmp head s a rounds last).bind fun c =>
        if c ≠ last then
          let s := listAdd (listDel poison s a) a c
          insertLoop rounds fuel (s.prev last) tmp s
        else insertLoop rounds fuel last tmp s

/-- `_stp_map_sortn` -/
def ringSortn (fuel : Nat) (n : I32) (s : Links π) : Option (Links π) :=
  if n = 0 ∨ (30 : I32).slt n then ringSort poison cmp head fuel s
  else if s.next head = head then some s
  else
    (bubblePasses cmp head fuel n fuel s).bind fun r =>
      insertLoop poison cmp head fuel fuel r.2 (r.1.next r.2) r.1

end Code

/-! ## The merge sort -/

section Merge

variable {π : Type} [DecidableEq π] {poison : π × π} {cmp : π → π → Bool} {head : π} {s : Links π}
  {xs ys : List π}

theorem nextOrNull_eq {e : π} (h : Circular s head (xs ++ e :: ys)) :
    nextOrNull head s e = ys.head? := by
  rw [nextOrNull, h.next_node]
  cases ys with
  | nil => simp
  | cons y ys =>
    have hy : y ≠ head := h.ne_head (by simp)
    simp [hy]

/-- The counting loop stops behind a run or at the end of the list. -/
theorem skipRun_eq {q : π} (i psize : Nat) (h : Circular s head (xs ++ q :: ys)) :
    skipRun head s i psize q = (psize + ((q :: ys).take i).length, ((q :: ys).drop i).head?) := by
  induction i generalizing xs ys q psize with
  | zero => rfl
  | succ i ih =>
    rw [skipRun, nextOrNull_eq h]
    cases ys with
    | nil => simp
    | cons y ys =>
      have hnext : Circular s head ((xs ++ [q]) ++ y :: ys) := by simpa using h
      show skipRun head s i (psize + 1) y = _
      rw [ih (psize + 1) hnext]
      simp only [take_succ_cons, drop_succ_cons, length_cons]
      rw [add_assoc, add_comm 1]

variable (head) in
/-- A merge ends with `merged` up to its tail and `later` behind it. -/
def Merges (r : Option (Links π × π × Option π)) (merged later : List π) : Prop :=
  ∃ s', r = some (s', lastOf head merged, later.head?) ∧ Circular s' head (merged ++ later)

variable (poison cmp) in
/-- What one merge does to the ring: `done` stands before the tail, then come what is left of the run of `p`,
and the nodes from `q` on. -/
theorem mergeLoop_spec (fuel : Nat) :
    ∀ {s : Links π} {done run later : List π} {p : Option π} {qsize : Nat},
      Circular s head (done ++ run ++ later) → run.length + qsize < fuel → (run ≠ [] → p = run.head?) →
      Merges head (mergeLoop poison cmp head fuel run.length qsize p later.head? (lastOf head done) s)
        (done ++ run.merge (later.take qsize) fun a b => !cmp a b) (later.drop qsize) := by
  induction fuel with
  | zero => exact fun _ h _ => absurd h (not_lt_zero _)
  | succ fuel ih =>
    intro s done run later p qsize hring hfuel hp
    -- the node of `p` goes to the tail, where it is already
    have takeP {e : π} {run' : List π} (hrun : run = e :: run') :
        Merges head (mergeLoop poison cmp head fuel run'.length qsize (nextOrNull head s e) later.head? e
          (putOnTail poison s e (lastOf head done)))
          (done ++ e :: (run'.merge (later.take qsize) fun a b => !cmp a b)) (later.drop qsize) := by
      subst hrun
      have hcut : Circular s head (done ++ [] ++ e :: (run' ++ later)) := by simpa using hring
      have hmoved : Circular (putOnTail poison s e (lastOf head done)) head
          ((done ++ [e]) ++ run' ++ later) := by
        simpa [putOnTail] using hcut.move poison
      have hnext : run' ≠ [] → nextOrNull head s e = run'.head? := by
        intro hne
        rw [nextOrNull_eq hcut]
        cases run' with
        | nil => exact absurd rfl hne
        | cons x xs => rfl
      have hless : run'.length + qsize < fuel := by
        rw [length_cons] at hfuel
        omega
      simpa using ih hmoved hless hnext
    -- the node of `q` goes in front of the run of `p`
    have takeQ {e : π} {later' : List π} {k : Nat} (hlater : later = e :: later') (hk : qsize = k + 1) :
        Merges head (mergeLoop poison cmp head fuel run.length k p (nextOrNull head s e) e
          (putOnTail poison s e (lastOf head done)))
          (done ++ e :: (run.merge (later'.take k) fun a b => !cmp a b)) (later'.drop k) := by
      subst hlater hk
      have hmoved : Circular (putOnTail poison s e (lastOf head done)) head
          ((done ++ [e]) ++ run ++ later') := by
        simpa [putOnTail] using hring.move poison
      have hless : run.length + k < fuel := by omega
      rw [nextOrNull_eq hring]
      simpa using ih hmoved hless hp
    cases run with
    | nil =>
      cases qsize with
      | zero => exact ⟨s, by simp [mergeLoop], by simpa using hring⟩
      | succ k => cases later with
        | nil => exact ⟨s, by simp [mergeLoop], by simpa using hring⟩
        | cons e later => simpa [mergeLoop] using takeQ rfl rfl
    | cons e run =>
      have hpe : p = some e := hp (cons_ne_nil _ _)
      cases qsize with
      | zero => simpa [mergeLoop, hpe] using takeP rfl
      | succ k => cases later with
        | nil => simpa [mergeLoop, hpe] using takeP rfl
        | cons f later =>
          have htakeP := takeP rfl
          rw [take_succ_cons, drop_succ_cons] at htakeP ⊢
          by_cases hcmp : cmp e f = true
          · simpa [mergeLoop, hpe, cmpPtr, hcmp, cons_merge_cons] using takeQ rfl rfl
          · rw [Bool.not_eq_true] at hcmp
            simpa [mergeLoop, hpe, cmpPtr, hcmp, cons_merge_cons] using htakeP

variable (poison cmp) in
/-- A pass: `done` is merged, and `p` is the first node of the rest. -/
theorem passLoop_spec {insize : Nat} (hpos : 0 < insize) (fuel : Nat) :
    ∀ {s : Links π} {done xs : List π} {rounds : Nat} (nmerges : Nat), Circular s head (done ++ xs) →
      xs.length < fuel → xs.length ≤ rounds →
      ∃ s', passLoop poison cmp head insize fuel xs.head? (lastOf head done) nmerges s
          = some (s', nmerges + (mergeRuns cmp insize rounds xs).2)
        ∧ Circular s' head (done ++ (mergeRuns cmp insize rounds xs).1) := by
  induction fuel with
  | zero => exact fun _ _ h _ => absurd h (not_lt_zero _)
  | succ fuel ih =>
    intro s done xs rounds nmerges hring hfuel hrounds
    cases xs with
    | nil => exact ⟨s, by simp [passLoop, mergeRuns_nil], by simpa [mergeRuns_nil] using hring⟩
    | cons p xs =>
      obtain ⟨rounds, rfl⟩ : ∃ r, rounds = r + 1 := ⟨rounds - 1, by simp at hrounds; omega⟩
      have hruns : (p :: xs).take insize ++ (p :: xs).drop insize = p :: xs := take_append_drop _ _
      have hcut : Circular s head (done ++ (p :: xs).take insize ++ (p :: xs).drop insize) := by
        rw [append_assoc, hruns]
        exact hring
      have hfirst : (p :: xs).take insize ≠ [] → some p = ((p :: xs).take insize).head? := by
        intro _
        rw [head?_take, if_neg (by omega)]
        rfl
      obtain ⟨s1, hloop, hring1⟩ := mergeLoop_spec poison cmp _ hcut
        (lt_succ_self (((p :: xs).take insize).length + insize)) hfirst
      rw [drop_drop, ← two_mul] at hloop hring1
      -- the next run starts at the `q` that the merge leaves
      have hrest : ((p :: xs).drop (2 * insize)).length < fuel := by
        simp only [length_drop, length_cons] at hfuel ⊢
        omega
      have hless : ((p :: xs).drop (2 * insize)).length ≤ rounds := by
        simp only [length_drop, length_cons] at hrounds ⊢
        omega
      obtain ⟨s', hpass, hring'⟩ := ih (nmerges + 1) hring1 hrest hless
      refine ⟨s', ?_, ?_⟩
      · rw [head?_cons, passLoop, skipRun_eq insize 0 hring]
        dsimp only
        rw [zero_add, hloop, Option.bind_some]
        dsimp only
        rw [hpass, mergeRuns]
        simp [add_assoc, add_comm 1]
      · rw [mergeRuns]
        simpa using hring'

/-- The merge sort of the ring is the merge sort of the list of its nodes. -/
theorem ringPasses_spec {rounds : Nat} (fuel : Nat) :
    ∀ {s : Links π} {insize : Nat} {xs ys : List π}, Circular s head xs → xs ≠ [] → 0 < insize →
      xs.length < rounds → sortPasses cmp fuel insize xs = some ys →
      ∃ s', ringPasses poison cmp head rounds fuel insize s = some s' ∧ Circular s' head ys := by
  induction fuel with
  | zero => exact fun _ _ _ _ h => absurd h (by simp [sortPasses])
  | succ fuel ih =>
    intro s insize xs ys hring hne hpos hlen hsort
    have hring0 : Circular s head ([] ++ xs) := hring
    obtain ⟨s1, hpass, hring1⟩ := passLoop_spec poison cmp hpos rounds 0 hring0 hlen le_rfl
    rw [zero_add, lastOf_nil] at hpass
    rw [nil_append] at hring1
    have hfirst : some (s.next head) = xs.head? := by
      rw [hring.next_head]
      cases xs with
      | nil => exact absurd rfl hne
      | cons x xs => rfl
    rw [sortPasses] at hsort
    rw [ringPasses, hfirst, hpass, Option.bind_some]
    split_ifs at hsort ⊢ with hmore
    · refine ih hring1 ?_ (by omega) ?_ hsort
      · exact ne_nil_of_length_pos (by rw [length_mergeRuns]; exact length_pos_of_ne_nil hne)
      · rwa [length_mergeRuns]
    · exact ⟨s1, rfl, Option.some_inj.1 hsort ▸ hring1⟩

theorem ringSort_spec {fuel : Nat} (hring : Circular s head xs) (hlen : xs.length < fuel)
    (hsort : mapSort cmp fuel xs = some ys) :
    ∃ s', ringSort poison cmp head fuel s = some s' ∧ Circular s' head ys := by
  rw [mapSort] at hsort
  by_cases hne : xs = []
  · subst hne
    obtain rfl : ys = [] := by simpa using hsort.symm
    exact ⟨s, if_pos (hring.next_head_eq_iff.2 rfl), hring⟩
  · rw [if_neg (by simpa using hne)] at hsort
    rw [ringSort, if_neg (fun h => hne (hring.next_head_eq_iff.1 h))]
    exact ringPasses_spec fuel hring hne one_pos hlen hsort

end Merge

/-! ## The first `n` nodes -/

theorem bubbleFrom_ne_nil {α : Type} {cmp : α → α → Bool} (a : α) (xs : List α) (num : I32) :
    (bubbleFrom cmp a xs num).1 ≠ [] := by
  cases xs with
  | nil => simp [bubbleFrom]
  | cons b xs =>
    rw [bubbleFrom]
    split_ifs <;> simp

theorem length_bubbleFrom {α : Type} (cmp : α → α → Bool) (a : α) (xs : List α) (num : I32) :
    ((bubbleFrom cmp a xs num).1 ++ (bubbleFrom cmp a xs num).2.1).length = (a :: xs).length := by
  induction xs generalizing a num with
  | nil => rfl
  | cons b xs ih =>
    rw [bubbleFrom]
    split_ifs
    · simpa using ih a (num - 1)
    · simpa using ih b (num - 1)
    · rfl

section Top

variable {π : Type} [DecidableEq π] {poison : π × π} {cmp : π → π → Bool} {head : π} {s : Links π}

theorem stpSwap_spec {xs ys : List π} {a b : π} (h : Circular s head (xs ++ a :: b :: ys)) :
    Circular (stpSwap s a b) head (xs ++ b :: a :: ys) := by
  have hspl : Circular s head (xs ++ [a, b] ++ ys) := by simpa using h
  have hcut : Circular s head ((xs ++ [a]) ++ b :: ys) := by simpa using h
  have hprev : s.prev a = lastOf head xs := h.prev_node
  have hnext : s.next b = firstOf head ys := hcut.next_node
  have hp : lastOf head xs ∉ a :: b :: ys := h.lastOf_notMem
  have hn : firstOf head ys ∉ xs ++ [a, b] := hspl.firstOf_notMem
  have hab : a ≠ b := by
    intro hE
    subst hE
    simpa using hcut.lastOf_notMem
  simp only [mem_cons, not_or] at hp
  simp only [mem_append, mem_cons, not_mem_nil, or_false, not_or] at hn
  have hnd : (head :: (xs ++ [b, a] ++ ys)).Nodup := by
    have hperm : (head :: (xs ++ [b, a] ++ ys)).Perm (head :: (xs ++ [a, b] ++ ys)) :=
      (((List.Perm.swap a b []).append_left xs).append_right ys).cons head
    exact hperm.nodup_iff.2 hspl.nodup
  have hres := hspl.splice (t := stpSwap s a b) hnd ?_ ?_ ?_
  · simpa using hres
  · refine linked_cons_cons.2 ⟨⟨?_, ?_⟩, linked_cons_cons.2 ⟨⟨?_, ?_⟩,
      linked_cons_cons.2 ⟨⟨?_, ?_⟩, List.IsChain.singleton _⟩⟩⟩
    · simp [stpSwap, hprev, hp]
    · simp [stpSwap, hprev, hnext, hab.symm, Ne.symm hp.2.1, Ne.symm hn.2.1]
    · simp [stpSwap]
    · simp [stpSwap]
    · simp [stpSwap, hprev, hnext, hab, Ne.symm hp.2.1]
    · simp [stpSwap, hprev, hnext, hn, Ne.symm hp.2.1]
  · intro c hc hcm _
    simp only [mem_cons, not_mem_nil, or_false, not_or] at hcm
    simp [stpSwap, hprev, hc, hcm]
  · intro c hc hcm _
    simp only [mem_cons, not_mem_nil, or_false, not_or] at hcm
    simp [stpSwap, hprev, hnext, hc, hcm, Ne.symm hp.2.1]

variable (head) in
/-- A pass from `done` on ends, where `b` has what the list's pass gives. -/
def Sweeps (r : Option (Links π × π × Nat)) (done : List π) (swaps : Nat) (b : List π × List π × Nat) :
    Prop :=
  ∃ s', r = some (s', lastOf head b.1, swaps + b.2.2) ∧ Circular s' head (done ++ (b.1 ++ b.2.1))

omit [DecidableEq π] in
/-- One node more in front of a pass. -/
theorem Sweeps.cons {r : Option (Links π × π × Nat)} {done : List π} {x : π} {swaps k : Nat}
    {b : List π × List π × Nat} (h : Sweeps head r (done ++ [x]) (swaps + k) b) (hne : b.1 ≠ []) :
    Sweeps head r done swaps (x :: b.1, b.2.1, b.2.2 + k) := by
  obtain ⟨s', hr, hring⟩ := h
  refine ⟨s', ?_, by simpa using hring⟩
  show _ = some (s', lastOf head ([x] ++ b.1), _)
  rw [hr, lastOf_append head hne, add_right_comm, add_assoc]

variable (cmp) in
/-- A pass of the bubble sort. `c` is the node behind the pair that is looked at, which is where `a` and its
neighbour are found again when they have changed places. -/
theorem bubblePass_spec (fuel : Nat) :
    ∀ {s : Links π} {done xs : List π} {a c : π} (num : I32) (swaps : Nat),
      Circular s head (done ++ a :: xs) → xs.length < fuel →
      (∀ b ys, xs = b :: ys → c = firstOf head ys) →
      Sweeps head (bubblePass cmp head fuel num a c swaps s) done swaps (bubbleFrom cmp a xs num) := by
  induction fuel with
  | zero => exact fun _ _ _ h _ => absurd h (not_lt_zero _)
  | succ fuel ih =>
    intro s done xs a c num swaps hring hfuel hc
    cases xs with
    | nil =>
      refine ⟨s, ?_, by simpa [bubbleFrom] using hring⟩
      have hnext : s.next a = head := hring.next_node
      rw [bubblePass, if_pos hnext]
      rfl
    | cons b ys =>
      have hnext : s.next a = b := hring.next_node
      have hne : b ≠ head := hring.ne_head (by simp)
      have hcE : c = firstOf head ys := hc b ys rfl
      rw [bubblePass, if_neg (by rwa [hnext]), hnext]
      by_cases hnum : (0 : I32).slt (num - 1) = true
      · rw [if_pos hnum]
        -- where the next pair is, whichever of the two nodes is first now
        have step {t : Links π} {x y : π} (sw : Nat) (ht : Circular t head (done ++ x :: y :: ys)) :
            Sweeps head (bubblePass cmp head fuel (num - 1) (t.prev c) (t.next c) sw t) (done ++ [x]) sw
              (bubbleFrom cmp y ys (num - 1)) := by
          have hy : Circular t head ((done ++ [x]) ++ y :: ys) := by simpa using ht
          have hcut : Circular t head ((done ++ [x] ++ [y]) ++ ys) := by simpa using ht
          have hprev : t.prev c = y := by
            rw [hcE, hcut.prev_eq, lastOf_concat]
          rw [hprev]
          refine ih (num - 1) sw hy (by simp at hfuel; omega) ?_
          intro z zs hzs
          subst hzs
          rw [hcE, firstOf_cons]
          exact hcut.next_node
        rw [bubbleFrom, if_pos hnum]
        by_cases hcmp : cmp a b = true
        · rw [if_pos hcmp, if_pos hcmp]
          exact (step (swaps + 1) (stpSwap_spec hring)).cons (bubbleFrom_ne_nil _ _ _)
        · rw [if_neg hcmp, if_neg hcmp]
          exact (step swaps hring).cons (k := 0) (bubbleFrom_ne_nil _ _ _)
      · rw [if_neg hnum, bubbleFrom, if_neg hnum]
        exact ⟨s, rfl, by simpa using hring⟩

theorem bubblePasses_spec {rounds : Nat} {n : I32} (fuel : Nat) :
    ∀ {s : Links π} {xs top rest : List π}, Circular s head xs → xs ≠ [] → xs.length ≤ rounds →
      bubbleLoop cmp n fuel xs = some (top, rest) →
      ∃ s', bubblePasses cmp head rounds n fuel s = some (s', lastOf head top)
        ∧ Circular s' head (top ++ rest) ∧ top ≠ [] ∧ (top ++ rest).length = xs.length := by
  induction fuel with
  | zero => exact fun _ _ _ h => absurd h (by simp [bubbleLoop])
  | succ fuel ih =>
    intro s xs top rest hring hne hrounds hloop
    cases xs with
    | nil => exact absurd rfl hne
    | cons a xs =>
      have hfirst : s.next head = a := hring.next_head
      have hring0 : Circular s head ([] ++ a :: xs) := hring
      have hthird : ∀ b ys, xs = b :: ys → s.next (s.next a) = firstOf head ys := by
        intro b ys hxs
        subst hxs
        have hb : Circular s head ([a] ++ b :: ys) := hring
        rw [hring0.next_node, firstOf_cons, hb.next_node]
      obtain ⟨s1, hpass, hring1⟩ := bubblePass_spec cmp rounds n 0 hring0 (by simpa using hrounds) hthird
      rw [bubbleLoop] at hloop
      rw [bubblePasses, hfirst, hpass, Option.bind_some]
      simp only [zero_add]
      split_ifs at hloop ⊢ with hswaps
      · obtain ⟨htop, hrest⟩ := Prod.mk.inj (Option.some_inj.1 hloop)
        subst htop hrest
        exact ⟨s1, rfl, hring1, bubbleFrom_ne_nil a xs n, length_bubbleFrom cmp a xs n⟩
      · have hlength : _ = (a :: xs).length := length_bubbleFrom cmp a xs n
        rw [← hlength] at hrounds ⊢
        exact ih hring1 (by simp [bubbleFrom_ne_nil a xs n]) hrounds hloop

variable (cmp) in
/-- The place of a node among the first ones: behind the last one that does not have to go behind it. -/
theorem findPlace_spec (a : π) (fuel : Nat) :
    ∀ {top rest : List π}, Circular s head (top ++ rest) → top.length < fuel →
      findPlace cmp head s a fuel (lastOf head top)
        = some (lastOf head (top.rdropWhile fun c => cmp c a)) := by
  induction fuel with
  | zero => exact fun _ h => absurd h (not_lt_zero _)
  | succ fuel ih =>
    intro top rest hring hfuel
    rcases eq_nil_or_concat' top with rfl | ⟨front, x, rfl⟩
    · rw [lastOf_nil, findPlace, if_pos rfl]
      rfl
    · have hx : x ≠ head := hring.ne_head (by simp)
      have hcut : Circular s head (front ++ x :: rest) := by simpa using hring
      rw [lastOf_concat, findPlace, if_neg hx]
      by_cases hcmp : cmp x a = true
      · rw [if_pos hcmp, hcut.prev_node, rdropWhile_concat_pos (fun c => cmp c a) _ _ hcmp]
        exact ih hcut (by simp at hfuel; omega)
      · rw [if_neg hcmp, rdropWhile_concat_neg (fun c => cmp c a) _ _ hcmp, lastOf_concat]

variable (poison cmp) in
/-- The second part: `top` ends at `last`, and `below` is what stands between `last` and `a`. -/
theorem insertLoop_spec {rounds : Nat} (fuel : Nat) :
    ∀ {s : Links π} {top below todo : List π}, Circular s head (top ++ below ++ todo) → top ≠ [] →
      top.length < rounds → todo.length < fuel →
      ∃ s', insertLoop poison cmp head rounds fuel (lastOf head top) (firstOf head todo) s = some s'
        ∧ Circular s' head ((todo.foldl (insertTop cmp) (top, below)).1
          ++ (todo.foldl (insertTop cmp) (top, below)).2) := by
  induction fuel with
  | zero => exact fun _ _ _ h => absurd h (not_lt_zero _)
  | succ fuel ih =>
    intro s top below todo hring hne hrounds hfuel
    cases todo with
    | nil => exact ⟨s, by simp [insertLoop], by simpa using hring⟩
    | cons a todo =>
      have ha : a ≠ head := hring.ne_head (by simp)
      have htmp : s.next a = firstOf head todo := hring.next_node
      have hcut : Circular s head (top ++ (below ++ a :: todo)) := by simpa using hring
      have hplace := findPlace_spec cmp a rounds hcut hrounds
      have hsplit : top.rdropWhile (fun c => cmp c a) ++ top.rtakeWhile (fun c => cmp c a) = top :=
        rdropWhile_append_rtakeWhile
      rw [firstOf_cons, insertLoop, if_neg ha, hplace, Option.bind_some, htmp, foldl_cons, insertTop]
      dsimp only
      generalize top.rdropWhile (fun c => cmp c a) = kept at hsplit ⊢
      generalize top.rtakeWhile (fun c => cmp c a) = passed at hsplit ⊢
      rcases eq_nil_or_concat' passed with rfl | ⟨front, last, rfl⟩
      · -- the node stays behind the first ones
        rw [append_nil] at hsplit
        subst hsplit
        rw [if_neg (by simp), if_pos isEmpty_nil]
        exact ih (by simpa using hring) hne hrounds (by simpa using hfuel)
      · subst hsplit
        have hkept : Circular s head (kept ++ (front ++ [last] ++ (below ++ a :: todo))) := by
          simpa using hring
        have hlast : lastOf head (kept ++ (front ++ [last])) = last := by
          rw [← append_assoc, lastOf_concat]
        have hother : lastOf head kept ≠ lastOf head (kept ++ (front ++ [last])) := by
          intro hE
          exact hkept.lastOf_notMem (by rw [hE, hlast]; simp)
        have hmoved : Circular (listAdd (listDel poison s a) a (lastOf head kept)) head
            ((kept ++ a :: front) ++ last :: (below ++ todo)) := by
          have hmid : Circular s head (kept ++ (front ++ [last] ++ below) ++ a :: todo) := by
            simpa using hring
          simpa using hmid.move poison
        rw [if_pos hother, hlast, hmoved.prev_node, if_neg (by simp)]
        have htop : kept ++ a :: (front ++ [last]) = (kept ++ a :: front) ++ [last] := by simp
        rw [htop, dropLast_concat, getLast?_concat]
        refine ih (by simpa using hmoved) (by simp) ?_ (by simpa using hfuel)
        simp only [length_append, length_cons, length_nil] at hrounds ⊢
        omega

/-- `_stp_map_sortn` on the ring is `_stp_map_sortn` on the list of its nodes. -/
theorem ringSortn_spec {fuel : Nat} {n : I32} (hn : ¬ (n = 0 ∨ (30 : I32).slt n)) {xs ys : List π}
    (hring : Circular s head xs) (hlen : xs.length < fuel) (hsort : mapSortn cmp fuel n xs = some ys) :
    ∃ s', ringSortn poison cmp head fuel n s = some s' ∧ Circular s' head ys := by
  rw [mapSortn, if_neg hn] at hsort
  rw [ringSortn, if_neg hn]
  obtain ⟨⟨top, rest⟩, hbubble, hys⟩ := Option.map_eq_some_iff.1 hsort
  by_cases hne : xs = []
  · subst hne
    obtain ⟨fuel, rfl⟩ : ∃ k, fuel = k + 1 := ⟨fuel - 1, by omega⟩
    obtain ⟨htop, hrest⟩ := Prod.mk.inj (Option.some_inj.1 hbubble)
    subst htop hrest hys
    exact ⟨s, if_pos (hring.next_head_eq_iff.2 rfl), hring⟩
  · rw [if_neg (fun h => hne (hring.next_head_eq_iff.1 h))]
    obtain ⟨s1, hpasses, hring1, htop, hlength⟩ := bubblePasses_spec fuel hring hne hlen.le hbubble
    rw [hpasses, Option.bind_some]
    rw [hring1.next_eq]
    rw [length_append] at hlength
    have hshort : top.length < fuel := by omega
    obtain ⟨s', hinsert, hring'⟩ := insertLoop_spec poison cmp fuel
      (by simpa using hring1 : Circular s1 head (top ++ [] ++ rest)) htop hshort (by omega)
    exact ⟨s', hinsert, hys ▸ hring'⟩

end Top

/-! ## The map -/

section Map

variable {π : Type} {buckets : Nat}

/-- `_stp_cmp` on the nodes of a ring; the `type` is that of the first node before the sort. -/
def ringCmp (keynum dir : Int) (node : π → Node buckets) (head : π) (s : Links π) (a b : π) : Bool :=
  stpCmp keynum dir (sortsStrings keynum (node (s.next head))) (node a) (node b)

/-- `_stp_map_sort (map, keynum, dir)`, for the map with the list head `head` and the nodes `node` -/
def stpMapSort [DecidableEq π] (poison : π × π) (node : π → Node buckets) (head : π) (keynum dir : Int) (fuel : Nat)
    (s : Links π) : Option (Links π) :=
  ringSort poison (ringCmp keynum dir node head s) head fuel s

/-- `_stp_map_sortn (map, n, keynum, dir)` -/
def stpMapSortn [DecidableEq π] (poison : π × π) (node : π → Node buckets) (head : π) (n : I32) (keynum dir : Int)
    (fuel : Nat) (s : Links π) : Option (Links π) :=
  ringSortn poison (ringCmp keynum dir node head s) head fuel n s

/-- The order of the selected key or value. -/
def Node.sortLe (keynum : Int) (strings : Bool) (a b : Node buckets) : Prop :=
  if strings then (a.sortStr keynum).map UInt8.toNat ≤ (b.sortStr keynum).map UInt8.toNat
  else (a.sortInt64 keynum).toInt ≤ (b.sortInt64 keynum).toInt

/-- `ys` has the nodes of `xs` in the order of the selected key or value, and those that compare equal in
the order of `xs`. -/
structure SortedStably (keynum dir : Int) (strings : Bool) (node : π → Node buckets) (xs ys : List π) :
    Prop where
  perm : ys.Perm xs
  highToLow : 0 < dir → ys.Pairwise fun a b => (node b).sortLe keynum strings (node a)
  lowToHigh : dir < 0 → ys.Pairwise fun a b => (node a).sortLe keynum strings (node b)
  stable : ∀ c, ys.filter (fun a => !stpCmp keynum dir strings (node a) (node c)
      && !stpCmp keynum dir strings (node c) (node a))
    = xs.filter (fun a => !stpCmp keynum dir strings (node a) (node c)
      && !stpCmp keynum dir strings (node c) (node a))

theorem sortLe_of_not_stpCmp {keynum dir : Int} {strings : Bool} {a b : Node buckets}
    (h : stpCmp keynum dir strings a b = false) :
    (0 < dir → b.sortLe keynum strings a) ∧ (dir < 0 → a.sortLe keynum strings b) := by
  cases strings with
  | true =>
    simp only [stpCmp, strBefore, Node.sortLe, if_true, Bool.or_eq_false_iff, Bool.and_eq_false_iff,
      decide_eq_false_iff_not, not_lt] at h ⊢
    exact ⟨fun hd => h.1.resolve_right (not_le.2 hd), fun hd => h.2.resolve_right (not_le.2 hd)⟩
  | false =>
    simp only [stpCmp, BitVec.slt, Node.sortLe, Bool.false_eq_true, if_false, Bool.or_eq_false_iff,
      Bool.and_eq_false_iff, decide_eq_false_iff_not, not_lt] at h ⊢
    exact ⟨fun hd => h.1.resolve_right (not_le.2 hd), fun hd => h.2.resolve_right (not_le.2 hd)⟩

theorem sortedStably_of_stable {κ : Type} [LinearOrder κ] {key : Node buckets → κ} {keynum dir : Int}
    {strings : Bool} {node : π → Node buckets} {xs ys : List π}
    (hc : Compares key (stpCmp keynum dir strings)) (h : Stable (fun a => key (node a)) xs ys) :
    SortedStably keynum dir strings node xs ys := by
  have hpair : ys.Pairwise fun a b => stpCmp keynum dir strings (node a) (node b) = false := by
    refine h.sorted.imp fun hab => ?_
    rw [hc, decide_eq_false_iff_not, not_lt]
    exact hab
  have hsame (c a : π) : (!stpCmp keynum dir strings (node a) (node c)
      && !stpCmp keynum dir strings (node c) (node a)) = decide (key (node a) = key (node c)) := by
    rw [hc, hc, ← decide_not, ← decide_not, ← Bool.decide_and, decide_eq_decide, not_lt, not_lt]
    exact ⟨fun ⟨h1, h2⟩ => le_antisymm h1 h2, fun hE => ⟨hE.le, hE.ge⟩⟩
  refine ⟨h.perm, fun hd => hpair.imp fun hab => (sortLe_of_not_stpCmp hab).1 hd,
    fun hd => hpair.imp fun hab => (sortLe_of_not_stpCmp hab).2 hd, fun c => ?_⟩
  simp only [hsame]
  exact h.keyClass_eq (key (node c))

/-- What `_stp_cmp` compares, at the nodes of the ring. -/
theorem ringCmp_compares (node : π → Node buckets) (head : π) (s : Links π) (keynum dir : Int) :
    ∃ (κ : Type) (_ : LinearOrder κ) (key : Node buckets → κ),
      Compares key (stpCmp keynum dir (sortsStrings keynum (node (s.next head))))
        ∧ Compares (fun a => key (node a)) (ringCmp keynum dir node head s) := by
  obtain ⟨κ, inst, key, hc⟩ :=
    stpCmp_compares keynum dir (sortsStrings keynum (node (s.next head)))
  exact ⟨κ, inst, key, hc, fun a b => hc (node a) (node b)⟩

variable [DecidableEq π] {s : Links π} {head : π} {xs : List π}

/-- `_stp_map_sort` ends, and leaves the nodes linked both ways, sorted, in a stable order. -/
theorem stpMapSort_sorts (poison : π × π) (node : π → Node buckets) (keynum dir : Int)
    (h : Circular s head xs) :
    ∃ ys, SortedStably keynum dir (sortsStrings keynum (node (s.next head))) node xs ys ∧
      ∀ fuel, xs.length < fuel →
        ∃ s', stpMapSort poison node head keynum dir fuel s = some s' ∧ Circular s' head ys := by
  obtain ⟨κ, _, key, hc, hring⟩ := ringCmp_compares node head s keynum dir
  obtain ⟨ys, -, hstable⟩ := mapSort_stable hring xs le_rfl
  refine ⟨ys, sortedStably_of_stable hc hstable, fun fuel hfuel => ?_⟩
  obtain ⟨zs, hzs, hsorted⟩ := mapSort_stable hring xs hfuel.le
  rw [← hsorted.unique hstable]
  exact ringSort_spec h hfuel hzs

/-- The ring of head 0 with the nodes 2, 1 and 3. -/
def sampleRing : Links Nat where
  next p := if p = 0 then 2 else if p = 2 then 1 else if p = 1 then 3 else 0
  prev p := if p = 0 then 3 else if p = 2 then 0 else if p = 1 then 2 else 1

theorem sampleRing_circular : Circular sampleRing 0 [2, 1, 3] := by decide

/-- Node `p` has the value `p`, but node 3 has the value 1 too. -/
def sampleNode (p : Nat) : Node 0 := numberNode (if p = 3 then 1 else BitVec.ofNat 64 p) p

/-- From low to high the ring is 1, 3, 2. -/
theorem sampleRing_sorts :
    (∃ ys, SortedStably 0 (-1) (sortsStrings 0 (sampleNode (sampleRing.next 0))) sampleNode [2, 1, 3] ys ∧
      ∀ fuel, [2, 1, 3].length < fuel →
        ∃ s', stpMapSort (7, 8) sampleNode 0 0 (-1) fuel sampleRing = some s' ∧ Circular s' 0 ys)
      ∧ (stpMapSort (7, 8) sampleNode 0 0 (-1) 4 sampleRing).map
        (fun s' => ([0, 1, 3, 2].map s'.next, [0, 1, 3, 2].map s'.prev))
          = some ([1, 3, 2, 0], [2, 0, 1, 3]) :=
  ⟨stpMapSort_sorts (7, 8) sampleNode 0 (-1) sampleRing_circular, by decide +kernel⟩

/-- `_stp_map_sortn` ends for an `n` from 1 to 30, and leaves the nodes linked both ways, with the first `n`
of them those of `_stp_map_sort`. -/
theorem stpMapSortn_sorts (poison : π × π) (node : π → Node buckets) (keynum dir : Int) {n : I32}
    (hlow : 1 ≤ n.toInt) (hhigh : n.toInt ≤ 30) (h : Circular s head xs) :
    ∃ sorted, ∀ fuel, xs.length * xs.length + xs.length < fuel →
      (∃ s', stpMapSort poison node head keynum dir fuel s = some s' ∧ Circular s' head sorted) ∧
      ∃ s' ys, stpMapSortn poison node head n keynum dir fuel s = some s' ∧ Circular s' head ys ∧
        ys.Perm xs ∧ ys.take (min n.toNat xs.length) = sorted.take (min n.toNat xs.length) := by
  obtain ⟨κ, _, key, hc, hring⟩ := ringCmp_compares node head s keynum dir
  have hsmall : ¬ (n = 0 ∨ (30 : I32).slt n) := by
    rintro (rfl | hn)
    · exact absurd hlow (by decide)
    · rw [BitVec.slt, decide_eq_true_eq] at hn
      have h30 : (30 : I32).toInt = 30 := rfl
      omega
  have hwindow : window n = n.toNat := by
    have hmin : n ≠ BitVec.intMin 32 := by
      rintro rfl
      exact absurd hlow (by decide)
    have hnat : n.toInt.toNat = n.toNat := by
      have := BitVec.toInt_eq_toNat_cond n
      split_ifs at * <;> omega
    rw [window, if_neg hmin]
    omega
  obtain ⟨sorted, -, hstable⟩ := mapSort_stable hring xs le_rfl
  refine ⟨sorted, fun fuel hfuel => ⟨?_, ?_⟩⟩
  · obtain ⟨zs, hzs, hsorted⟩ := mapSort_stable hring xs (by omega : xs.length ≤ fuel)
    rw [← hsorted.unique hstable]
    exact ringSort_spec h (by omega) hzs
  · have hinv := inversions_le (fun a => key (node a)) xs
    obtain ⟨ys, hys, hperm, htake⟩ := mapSortn_top hring hsmall xs (by omega : _ < fuel)
    obtain ⟨s', hs', hring'⟩ := ringSortn_spec hsmall h (by omega) hys
    refine ⟨s', ys, hs', hring', hperm, ?_⟩
    rw [hwindow, ← hstable.eq_mergeSort] at htake
    have hcut := congrArg (take (min n.toNat xs.length)) htake
    rwa [take_take, take_take, min_eq_left (min_le_left _ _)] at hcut

/-- From high to low, the first node of the ring is 2. -/
theorem sampleRing_sortsTop :
    (∃ sorted, ∀ fuel, [2, 1, 3].length * [2, 1, 3].length + [2, 1, 3].length < fuel →
      (∃ s', stpMapSort (7, 8) sampleNode 0 0 1 fuel sampleRing = some s' ∧ Circular s' 0 sorted) ∧
      ∃ s' ys, stpMapSortn (7, 8) sampleNode 0 1 0 1 fuel sampleRing = some s' ∧ Circular s' 0 ys ∧
        ys.Perm [2, 1, 3] ∧ ys.take (min (1 : I32).toNat [2, 1, 3].length)
          = sorted.take (min (1 : I32).toNat [2, 1, 3].length))
      ∧ (stpMapSortn (7, 8) sampleNode 0 2 0 (-1) 5 sampleRing).map
        (fun s' => ([0, 1, 3, 2].map s'.next, [0, 1, 3, 2].map s'.prev))
          = some ([1, 3, 2, 0], [2, 0, 1, 3]) :=
  ⟨stpMapSortn_sorts (7, 8) sampleNode 0 1 (by decide) (by decide) sampleRing_circular,
    by decide +kernel⟩

end Map

end Systemtap.Runtime
