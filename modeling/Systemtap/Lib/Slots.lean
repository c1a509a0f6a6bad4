import Mathlib

/-!
# Slots that move between lists

A fixed set of slots is kept in a number of lists: a free list, the chains of a table, a queue,
what a thread has in its hands. Each slot is in one list, once. Taking a slot out of one list and
putting it into another one keeps this, so no slot is in use twice, and none is lost.
-/

namespace Systemtap.Lib

variable {κ σ : Type*}

/-- Every slot has one place. -/
structure Placed (place : κ → List σ) : Prop where
  nodup : ∀ k, (place k).Nodup
  unique : ∀ p, ∃! k, p ∈ place k

namespace Placed

variable {place place' : κ → List σ}

theorem eq_of_mem (h : Placed place) {p : σ} {k k' : κ} (hk : p ∈ place k) (hk' : p ∈ place k') :
    k = k' :=
  (h.unique p).unique hk hk'

theorem notMem (h : Placed place) {p : σ} {k k' : κ} (hk : p ∈ place k) (hne : k' ≠ k) :
    p ∉ place k' :=
  fun hk' => hne (h.eq_of_mem hk' hk)

/-- A slot that is moved from `k` to `k'`. -/
theorem move [DecidableEq σ] (h : Placed place) {p : σ} (k k' : κ) (hne : k ≠ k') (hp : p ∈ place k)
    (hfrom : place' k = (place k).erase p) (hto : (place' k').Perm (p :: place k'))
    (hother : ∀ j, j ≠ k → j ≠ k' → place' j = place j) : Placed place' := by
  have hmem_from : ∀ q, q ∈ place' k ↔ q ≠ p ∧ q ∈ place k := fun q => by
    rw [hfrom, (h.nodup k).mem_erase_iff]
  have hmem_to : ∀ q, q ∈ place' k' ↔ q = p ∨ q ∈ place k' := fun q => by
    rw [hto.mem_iff, List.mem_cons]
  refine ⟨fun j => ?_, fun q => ?_⟩
  · by_cases hj : j = k
    · subst hj
      rw [hfrom]
      exact (h.nodup j).erase p
    · by_cases hj' : j = k'
      · subst hj'
        exact hto.nodup_iff.mpr (List.nodup_cons.mpr ⟨h.notMem hp hj, h.nodup j⟩)
      · rw [hother j hj hj']
        exact h.nodup j
  · by_cases hq : q = p
    · subst hq
      refine ⟨k', (hmem_to q).mpr (.inl rfl), fun j (hj : q ∈ place' j) => ?_⟩
      by_contra hjk'
      by_cases hjk : j = k
      · subst hjk
        exact ((hmem_from q).mp hj).1 rfl
      · rw [hother j hjk hjk'] at hj
        exact hjk (h.eq_of_mem hj hp)
    · have hmem : ∀ j, q ∈ place' j ↔ q ∈ place j := by
        intro j
        by_cases hjk : j = k
        · subst hjk
          rw [hmem_from]
          exact ⟨fun hq' => hq'.2, fun hq' => ⟨hq, hq'⟩⟩
        · by_cases hjk' : j = k'
          · subst hjk'
            rw [hmem_to]
            exact ⟨fun hq' => hq'.resolve_left hq, .inr⟩
          · rw [hother j hjk hjk']
      obtain ⟨j, hj, huniq⟩ := h.unique q
      exact ⟨j, (hmem j).mpr hj, fun i hi => huniq i ((hmem i).mp hi)⟩

/-- The lists that are not empty have as many slots as there are. -/
theorem sum_length [Fintype σ] (h : Placed place) {S : Finset κ} (hS : ∀ k, k ∉ S → place k = []) :
    ∑ k ∈ S, (place k).length = Fintype.card σ := by
  classical
  have hcover : (Finset.univ : Finset σ) = S.biUnion fun k => (place k).toFinset := by
    ext p
    obtain ⟨k, hk, -⟩ := h.unique p
    simp only [Finset.mem_univ, Finset.mem_biUnion, List.mem_toFinset, true_iff]
    refine ⟨k, ?_, hk⟩
    by_contra hkS
    rw [hS k hkS] at hk
    exact List.not_mem_nil hk
  have hdisj : ∀ k ∈ S, ∀ k' ∈ S, k ≠ k' → Disjoint (place k).toFinset (place k').toFinset := by
    intro k _ k' _ hne
    refine Finset.disjoint_left.mpr fun p hp hp' => ?_
    exact hne (h.eq_of_mem (List.mem_toFinset.mp hp) (List.mem_toFinset.mp hp'))
  calc ∑ k ∈ S, (place k).length
      = ∑ k ∈ S, (place k).toFinset.card :=
        Finset.sum_congr rfl fun k _ => (List.toFinset_card_of_nodup (h.nodup k)).symm
    _ = (S.biUnion fun k => (place k).toFinset).card := (Finset.card_biUnion hdisj).symm
    _ = Fintype.card σ := by rw [← hcover, Finset.card_univ]

end Placed

/-! ## Hash tables -/

/-- A free list, and the chains of a table. -/
def chains (free : List σ) (table : κ → List σ) : Option κ → List σ
  | none => free
  | some k => table k

/-- The slots in use, the latest first: each chain has its own ones in this order, and all other
slots are free. -/
structure Stores (bucket : σ → κ) [DecidableEq κ] (free : List σ) (table : κ → List σ)
    (used : List σ) : Prop where
  chain : ∀ k, table k = used.filter fun p => bucket p = k
  nodup : (free ++ used).Nodup
  mem : ∀ p, p ∈ free ++ used

/-- The slot with a key is the one that goes, if no other one has the key. -/
theorem erase_eq_filter_key {α : Type*} [DecidableEq σ] [DecidableEq α] {key : σ → α} {used : List σ}
    {p : σ} (h : (used.map key).Nodup) (hp : p ∈ used) :
    used.erase p = used.filter fun q => key q ≠ key p := by
  rw [(h.of_map _).erase_eq_filter]
  refine List.filter_congr fun q hq => ?_
  rw [Bool.eq_iff_iff, bne_iff_ne, decide_eq_true_iff]
  exact not_congr ⟨fun heq => by rw [heq], List.inj_on_of_nodup_map h hq hp⟩

namespace Stores

variable [DecidableEq κ] {bucket : σ → κ} {free used : List σ} {table : κ → List σ} {p : σ}

theorem initial (N : Nat) (bucket : Fin N → κ) :
    Stores bucket (List.finRange N).reverse (fun _ => []) [] where
  chain _ := rfl
  nodup := by simpa using List.nodup_finRange N
  mem p := by simp

variable (h : Stores bucket free table used)
include h

theorem mem_chain {k : κ} :
    p ∈ table k ↔ p ∈ used ∧ bucket p = k := by
  rw [h.chain, List.mem_filter, decide_eq_true_iff]

theorem placed : Placed (chains free table) := by
  obtain ⟨hfree, hused, hdisj⟩ := List.nodup_append.mp h.nodup
  refine ⟨fun k => ?_, fun p => ?_⟩
  · cases k with
    | none => exact hfree
    | some k =>
      rw [chains, h.chain]
      exact hused.filter _
  · rcases List.mem_append.mp (h.mem p) with hp | hp
    · refine ⟨none, hp, fun k hk => ?_⟩
      cases k with
      | none => rfl
      | some k => exact absurd rfl (hdisj p hp p (h.mem_chain.mp hk).1)
    · refine ⟨some (bucket p), h.mem_chain.mpr ⟨hp, rfl⟩, fun k hk => ?_⟩
      cases k with
      | none => exact absurd rfl (hdisj p hk p hp)
      | some k => rw [(h.mem_chain.mp hk).2]

theorem length_eq [Fintype σ] :
    free.length + used.length = Fintype.card σ := by
  classical
  rw [← List.length_append, ← List.toFinset_card_of_nodup h.nodup]
  congr 1
  ext p
  simpa using h.mem p

/-- A search in the chain of what is looked for is a search among all slots in use. -/
theorem find?_chain {k : κ} {P : σ → Bool}
    (hP : ∀ p, P p = true → bucket p = k) : (table k).find? P = used.find? P := by
  rw [h.chain, List.find?_filter]
  congr 1
  funext p
  by_cases hp : P p = true <;> simp [hp, hP]

/-- All chains together have the slots in use. -/
theorem flatMap_perm {ks : List κ} (hks : ks.Nodup)
    (hall : ∀ k, k ∈ ks) : (ks.flatMap table).Perm used := by
  have hplaced := h.placed
  refine (List.perm_ext_iff_of_nodup ?_ (List.nodup_append.mp h.nodup).2.1).mpr fun p => ?_
  · refine List.nodup_flatMap.mpr ⟨fun k _ => hplaced.nodup (some k), hks.imp fun hne p hp hp' => ?_⟩
    exact hne ((h.mem_chain.mp hp).2.symm.trans (h.mem_chain.mp hp').2)
  · simp [h.mem_chain, hall]

omit h

theorem ne_of_mem (h : Stores bucket (p :: free) table used) {q : σ} (hq : q ∈ used) : q ≠ p := by
  rintro rfl
  exact (List.nodup_cons.mp h.nodup).1 (List.mem_append_right _ hq)

/-- The first free slot goes into the chain that it is now for. -/
theorem take (h : Stores bucket (p :: free) table used) (bucket' : σ → κ)
    (hother : ∀ q, q ≠ p → bucket' q = bucket q) :
    Stores bucket' free (Function.update table (bucket' p) (p :: table (bucket' p))) (p :: used) := by
  have hperm : (free ++ p :: used).Perm (p :: free ++ used) := List.perm_middle
  refine ⟨fun k => ?_, hperm.nodup_iff.mpr h.nodup, fun q => hperm.mem_iff.mpr (h.mem q)⟩
  have hrest : table k = used.filter fun q => bucket' q = k := by
    rw [h.chain]
    exact List.filter_congr fun q hq => by rw [hother q (h.ne_of_mem hq)]
  by_cases hk : k = bucket' p
  · subst hk
    rw [Function.update_self, hrest, List.filter_cons_of_pos (by simp)]
  · rw [Function.update_of_ne hk, hrest, List.filter_cons_of_neg (by simpa using Ne.symm hk)]

/-- A slot goes back from its chain. -/
theorem put [DecidableEq σ] (h : Stores bucket free table used) (hp : p ∈ used) (bucket' : σ → κ)
    (hother : ∀ q, q ≠ p → bucket' q = bucket q) :
    Stores bucket' (p :: free) (Function.update table (bucket p) ((table (bucket p)).erase p))
      (used.erase p) := by
  have hperm : (p :: free ++ used.erase p).Perm (free ++ used) :=
    List.perm_middle.symm.trans ((List.perm_cons_erase hp).symm.append_left free)
  refine ⟨fun k => ?_, hperm.nodup_iff.mpr h.nodup, fun q => hperm.mem_iff.mpr (h.mem q)⟩
  have hused := (List.nodup_append.mp h.nodup).2.1
  have hrest : ((used.erase p).filter fun q => bucket' q = k) =
      (used.filter fun q => bucket q = k).erase p := by
    rw [List.erase_filter]
    refine List.filter_congr fun q hq => ?_
    rw [hother q fun hqp => hused.not_mem_erase (hqp ▸ hq)]
  rw [hrest, ← h.chain]
  by_cases hk : k = bucket p
  · rw [hk, Function.update_self]
  · rw [Function.update_of_ne hk, List.erase_of_not_mem]
    exact fun hmem => hk (h.mem_chain.mp hmem).2.symm

end Stores

end Systemtap.Lib
