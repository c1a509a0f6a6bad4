import Mathlib

/-!
# Merging queues by their heads

A family of queues is emptied from the front: at each step some queue whose head `r` relates
to all other heads gives that head away. The result is tagged with the queues the elements
came from.

The elements have keys, and the keys of each queue increase. If `r` is the order of the keys,
the result is in order. For any other `r` it is in order exactly if `r` is never asked to
choose wrongly: whenever it would put an element `x` in front of a smaller `y`, there is an
element in the queue of `x` that keeps `x` back until `y` is gone.
-/

namespace Systemtap.Lib

open Function List

variable {ι α β : Type*} [DecidableEq ι]

inductive KMerge (r : α → α → Prop) : (ι → List α) → List (ι × α) → Prop
  | done {q : ι → List α} (hq : ∀ i, q i = []) : KMerge r q []
  | take {q : ι → List α} {i : ι} {x : α} {xs : List α} {out : List (ι × α)} (hq : q i = x :: xs)
      (hr : ∀ j y ys, q j = y :: ys → r x y) (h : KMerge r (Function.update q i xs) out) :
      KMerge r q ((i, x) :: out)

namespace KMerge

variable {r : α → α → Prop} {q : ι → List α} {out : List (ι × α)}

/-- What comes from one queue is the queue. -/
theorem filter_eq (h : KMerge r q out) (i : ι) : out.filter (·.1 = i) = (q i).map (i, ·) := by
  induction h with
  | done hq => rw [hq i]; rfl
  | @take q j x xs out hq hr h ih =>
    by_cases hij : j = i
    · subst hij
      rw [update_self] at ih
      rw [filter_cons_of_pos (by simp), ih, hq, map_cons]
    · rw [update_of_ne (Ne.symm hij)] at ih
      rw [filter_cons_of_neg (by simpa using hij), ih]

theorem mem_iff (h : KMerge r q out) {i : ι} {x : α} : (i, x) ∈ out ↔ x ∈ q i := by
  have hfilter : (i, x) ∈ out.filter (·.1 = i) ↔ (i, x) ∈ out := by
    rw [mem_filter, decide_eq_true_eq]
    exact ⟨fun h => h.1, fun h => ⟨h, rfl⟩⟩
  rw [← hfilter, h.filter_eq, mem_map_of_injective (Prod.mk_right_injective i)]

end KMerge

/-- A tagged list is known from its tags and what each tag has. -/
theorem eq_of_tags_of_filter {l l' : List (ι × α)} (htags : l.map Prod.fst = l'.map Prod.fst)
    (hfilter : ∀ i, l.filter (·.1 = i) = l'.filter (·.1 = i)) : l = l' := by
  induction l generalizing l' with
  | nil => exact (map_eq_nil_iff.mp htags.symm).symm
  | cons a l ih =>
    cases l' with
    | nil => exact absurd htags (cons_ne_nil _ _)
    | cons b l' =>
      obtain ⟨hab, htail⟩ := cons.inj htags
      have hhead := hfilter a.1
      rw [filter_cons_of_pos (by simp), filter_cons_of_pos (by simp [hab])] at hhead
      obtain ⟨rfl, -⟩ := cons.inj hhead
      refine congrArg _ (ih htail fun i => ?_)
      have hi := hfilter i
      rw [filter_cons, filter_cons] at hi
      split at hi
      · exact (cons.inj hi).2
      · exact hi

/-! ## The order of the result -/

section Order

variable [LinearOrder β] {key : α → β} {r : α → α → Prop} {q : ι → List α} {out : List (ι × α)}

/-- The keys increase in each queue and no two queues share one. -/
structure Increasing (key : α → β) (q : ι → List α) : Prop where
  pairwise : ∀ i, (q i).Pairwise fun x y => key x < key y
  apart : ∀ i j x y, x ∈ q i → y ∈ q j → key x = key y → i = j

/-- No queue can put an element in front of a smaller one of another queue. -/
def HeldBack (key : α → β) (r : α → α → Prop) (q : ι → List α) : Prop :=
  ∀ i j, ∀ x ∈ q i, ∀ y ∈ q j, key y < key x → ¬ r y x → ∃ x' ∈ q i, key y ≤ key x' ∧ key x' < key x

variable {xs : List α}

theorem mem_of_mem_update {i k : ι} {x y : α} (hq : q i = x :: xs)
    (h : y ∈ Function.update q i xs k) : y ∈ q k := by
  by_cases hk : k = i
  · subst hk
    rw [update_self] at h
    rw [hq]
    exact mem_cons_of_mem x h
  · rwa [update_of_ne hk] at h

theorem mem_update_or {i k : ι} {x y : α} (hq : q i = x :: xs) (h : y ∈ q k) :
    (k = i ∧ y = x) ∨ y ∈ Function.update q i xs k := by
  by_cases hk : k = i
  · subst hk
    rw [hq] at h
    rw [update_self]
    exact (mem_cons.mp h).imp (fun h => ⟨rfl, h⟩) id
  · rw [update_of_ne hk]
    exact .inr h

theorem Increasing.update {i : ι} {x : α} (h : Increasing key q)
    (hq : q i = x :: xs) : Increasing key (Function.update q i xs) := by
  refine ⟨fun k => ?_, fun k l y z hy hz => ?_⟩
  · by_cases hk : k = i
    · subst hk
      rw [update_self]
      exact (hq ▸ h.pairwise k).of_cons
    · rw [update_of_ne hk]
      exact h.pairwise k
  · exact h.apart k l y z (mem_of_mem_update hq hy) (mem_of_mem_update hq hz)

/-- What is left has another key than what is taken. -/
theorem Increasing.ne_of_mem {i k : ι} {x y : α} (h : Increasing key q)
    (hq : q i = x :: xs) (hy : y ∈ Function.update q i xs k) : key y ≠ key x := by
  intro heq
  have hx : x ∈ q i := hq ▸ mem_cons_self
  obtain rfl := h.apart k i y x (mem_of_mem_update hq hy) hx heq
  rw [update_self] at hy
  have hlt := (pairwise_cons.mp (hq ▸ h.pairwise k)).1 y hy
  exact absurd heq hlt.ne'

omit [DecidableEq ι] in
/-- The head of a queue is the least of it. -/
theorem Increasing.head_le {i : ι} {x y : α} (h : Increasing key q)
    (hq : q i = x :: xs) (hy : y ∈ q i) : key x ≤ key y := by
  have hpw := pairwise_cons.mp (hq ▸ h.pairwise i)
  rw [hq] at hy
  rcases mem_cons.mp hy with rfl | hy
  · exact le_rfl
  · exact (hpw.1 y hy).le

omit [DecidableEq ι] in
/-- If all queues are held back, the chosen head is the least of all that there is. -/
theorem HeldBack.head_le (hheld : HeldBack key r q) (hinc : Increasing key q)
    (hanti : ∀ x y, r x y → r y x → key x = key y) {i : ι} {x : α} (hq : q i = x :: xs)
    (hr : ∀ j y ys, q j = y :: ys → r x y) {j : ι} {y : α} (hy : y ∈ q j) : key x ≤ key y := by
  cases hj : q j with
  | nil => exact absurd (hj ▸ hy) not_mem_nil
  | cons z zs =>
    refine le_trans ?_ (hinc.head_le hj hy)
    by_contra hlt
    rw [not_le] at hlt
    -- `x` would go first although `z` is smaller, so something in front of `x` holds it back
    have hrz : ¬ r z x := fun hzx => hlt.ne (hanti z x hzx (hr j z zs hj))
    obtain ⟨x', hx', -, hlt'⟩ :=
      hheld i j x (hq ▸ mem_cons_self) z (hj ▸ mem_cons_self) hlt hrz
    exact absurd (hinc.head_le hq hx') (not_le.mpr hlt')

theorem HeldBack.update (hheld : HeldBack key r q) (hinc : Increasing key q)
    {i : ι} {x : α} (hq : q i = x :: xs) (hle : ∀ j, ∀ y ∈ q j, key x ≤ key y) :
    HeldBack key r (Function.update q i xs) := by
  intro k l y hy z hz hlt hrz
  obtain ⟨y', hy', hle', hlt'⟩ :=
    hheld k l y (mem_of_mem_update hq hy) z (mem_of_mem_update hq hz) hlt hrz
  rcases mem_update_or hq hy' with ⟨rfl, rfl⟩ | hy'
  · -- `y'` was taken, but `z` is left and greater
    have hle := hle l z (mem_of_mem_update hq hz)
    exact absurd (le_antisymm hle' hle) (hinc.ne_of_mem hq hz)
  · exact ⟨y', hy', hle', hlt'⟩

/-- The result is in order exactly if all queues are held back. -/
theorem KMerge.pairwise_iff (h : KMerge r q out) (hinc : Increasing key q)
    (hanti : ∀ x y, r x y → r y x → key x = key y) :
    out.Pairwise (fun a b => key a.2 < key b.2) ↔ HeldBack key r q := by
  induction h with
  | done hq =>
    refine iff_of_true .nil fun i j x hx => ?_
    exact absurd (hq i ▸ hx) not_mem_nil
  | @take q i x xs out hq hr h ih =>
    rw [pairwise_cons, ih (hinc.update hq)]
    constructor
    · rintro ⟨hfirst, hheld⟩ k l y hy z hz hlt hrz
      rcases mem_update_or hq hy with ⟨rfl, rfl⟩ | hy'
      · -- `y` comes first, so it is not greater than `z`
        rcases mem_update_or hq hz with ⟨rfl, rfl⟩ | hz'
        · exact absurd hlt (lt_irrefl _)
        · exact absurd hlt (hfirst (l, z) (h.mem_iff.mpr hz')).not_gt
      · rcases mem_update_or hq hz with ⟨rfl, rfl⟩ | hz'
        · -- `z` was chosen over the head of the queue of `y`, which is not `y` then
          cases hk : q k with
          | nil => exact absurd (hk ▸ hy) not_mem_nil
          | cons g gs =>
            have hrg := hr k g gs hk
            have hgy : key g < key y := by
              rcases mem_cons.mp (hk ▸ hy) with rfl | hmem
              · exact absurd hrg hrz
              · exact (pairwise_cons.mp (hk ▸ hinc.pairwise k)).1 y hmem
            have hg : g ∈ q k := by rw [hk]; exact mem_cons_self
            refine ⟨g, mem_cons_self, ?_, hgy⟩
            rcases mem_update_or hq hg with ⟨-, rfl⟩ | hg'
            · exact le_rfl
            · exact (hfirst (k, g) (h.mem_iff.mpr hg')).le
        · obtain ⟨y', hy'', hrest⟩ := hheld k l y hy' z hz' hlt hrz
          exact ⟨y', mem_of_mem_update hq hy'', hrest⟩
    · intro hheld
      have hle : ∀ j, ∀ y ∈ q j, key x ≤ key y := fun j y hy => hheld.head_le hinc hanti hq hr hy
      refine ⟨?_, hheld.update hinc hq hle⟩
      rintro ⟨j, y⟩ hy
      have hy := h.mem_iff.mp hy
      exact lt_of_le_of_ne (hle j y (mem_of_mem_update hq hy)) (hinc.ne_of_mem hq hy).symm

end Order

end Systemtap.Lib
