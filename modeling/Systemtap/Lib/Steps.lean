import Mathlib

/-!
# Runs of a step relation

A system is a relation `Step s e s'` between a state, the label of a step and the next state.
`RunsTo Step s₀ es s` says that the steps `es` lead from `s₀` to `s`. An invariant may speak of the
labels so far as well as of the state (`RunsTo.invariant`). A condition on every step of a run is
a smaller step relation; of a run that the labels determine it is said with `Along`.

The second part is about the labels of a run: how often one occurs, and what comes before and
after it; and what a log has for one key that was put together from a part for each key.
-/

namespace Systemtap.Lib

open List

variable {σ ε : Type*}

/-- The runs of `Step` from `s₀`, with the labels of their steps. -/
inductive RunsTo (Step : σ → ε → σ → Prop) (s₀ : σ) : List ε → σ → Prop
  | start : RunsTo Step s₀ [] s₀
  | step {es : List ε} {s s' : σ} {e : ε} (h : RunsTo Step s₀ es s) (hs : Step s e s') :
      RunsTo Step s₀ (es ++ [e]) s'

namespace RunsTo

variable {Step Step' : σ → ε → σ → Prop} {s0 s : σ} {es : List ε}

/-- What holds at the start and is kept by every step holds along every run. -/
@[elab_as_elim]
theorem invariant {P : List ε → σ → Prop} (h : RunsTo Step s0 es s) (hstart : P [] s0)
    (hstep : ∀ {es s e s'}, P es s → Step s e s' → P (es ++ [e]) s') : P es s := by
  induction h with
  | start => exact hstart
  | step h hs ih => exact hstep ih hs

theorem mono (h : RunsTo Step s0 es s) (hle : ∀ s e s', Step s e s' → Step' s e s') :
    RunsTo Step' s0 es s :=
  h.invariant .start fun ih hs => ih.step (hle _ _ _ hs)

/-- The last step of a run. -/
theorem of_snoc {e : ε} (h : RunsTo Step s0 (es ++ [e]) s) :
    ∃ s1, RunsTo Step s0 es s1 ∧ Step s1 e s := by
  generalize hl : es ++ [e] = l at h
  cases h with
  | start => simp at hl
  | step h hs =>
    obtain ⟨rfl, he⟩ := append_inj' hl rfl
    obtain rfl := singleton_inj.mp he
    exact ⟨_, h, hs⟩

/-- One step, and a run after it. -/
theorem cons {s1 : σ} {e : ε} (hs : Step s0 e s1) (h : RunsTo Step s1 es s) :
    RunsTo Step s0 (e :: es) s :=
  h.invariant (.step .start hs) fun ih hs => ih.step hs

end RunsTo

/-- `P` holds of each state and the label that comes next. A label without a next state ends the
run. -/
def Along (next : σ → ε → Option σ) (P : σ → ε → Prop) : σ → List ε → Prop
  | _, [] => True
  | s, e :: es => P s e ∧ ∀ s', next s e = some s' → Along next P s' es

/-- Two conditions that are the same under an invariant are the same along a run, if the invariant is
kept where they hold. -/
theorem along_congr {next : σ → ε → Option σ} {P Q : σ → ε → Prop} {I : σ → Prop}
    (hiff : ∀ s e, I s → (P s e ↔ Q s e))
    (hkeep : ∀ s e s', I s → Q s e → next s e = some s' → I s') (es : List ε) :
    ∀ s, I s → (Along next P s es ↔ Along next Q s es) := by
  induction es with
  | nil => exact fun _ _ => Iff.rfl
  | cons e es ih =>
    intro s hs
    refine (and_congr_left' (hiff s e hs)).trans (and_congr_right fun hq => ?_)
    exact forall₂_congr fun s' hs' => ih s' (hkeep s e s' hs hq hs')

/-! ## Labels -/

/-- Before every occurrence of `e` there is a label with `P`. -/
def Precedes (P : ε → Prop) (e : ε) (es : List ε) : Prop :=
  ∀ pre post, es = pre ++ e :: post → ∃ x ∈ pre, P x

/-- After the first label with `P` there is none with `Q`. -/
def NeverAfter (P Q : ε → Prop) (es : List ε) : Prop :=
  ∀ pre e post, es = pre ++ e :: post → P e → ∀ x ∈ post, ¬ Q x

/-- A list with one more label, cut in two. -/
theorem append_singleton_eq_append_cons {es pre post : List ε} {e x : ε}
    (h : es ++ [e] = pre ++ x :: post) :
    (pre = es ∧ x = e ∧ post = []) ∨ ∃ post', post = post' ++ [e] ∧ es = pre ++ x :: post' := by
  rcases eq_nil_or_concat' post with rfl | ⟨post', y, rfl⟩
  · obtain ⟨rfl, hx⟩ := append_inj' h rfl
    exact .inl ⟨rfl, (singleton_inj.mp hx).symm, rfl⟩
  · rw [← cons_append, ← append_assoc] at h
    obtain ⟨hes, hy⟩ := append_inj' h rfl
    obtain rfl := singleton_inj.mp hy
    exact .inr ⟨post', rfl, hes⟩

theorem Precedes.nil {P : ε → Prop} {e : ε} : Precedes P e [] := by
  intro pre post h
  simp at h

theorem Precedes.snoc {P : ε → Prop} {e x : ε} {es : List ε} (h : Precedes P e es)
    (hx : x = e → ∃ y ∈ es, P y) : Precedes P e (es ++ [x]) := by
  intro pre post heq
  rcases append_singleton_eq_append_cons heq with ⟨rfl, rfl, -⟩ | ⟨post', -, rfl⟩
  · exact hx rfl
  · exact h pre post' rfl

theorem NeverAfter.nil {P Q : ε → Prop} : NeverAfter P Q [] := by
  intro pre e post h
  simp at h

theorem NeverAfter.snoc {P Q : ε → Prop} {x : ε} {es : List ε} (h : NeverAfter P Q es)
    (hx : Q x → ∀ y ∈ es, ¬ P y) : NeverAfter P Q (es ++ [x]) := by
  intro pre e post heq he y hy
  rcases append_singleton_eq_append_cons heq with ⟨-, -, rfl⟩ | ⟨post', rfl, rfl⟩
  · exact absurd hy not_mem_nil
  · rcases mem_append.mp hy with hy | hy
    · exact h pre e post' rfl he y hy
    · obtain rfl := mem_singleton.mp hy
      exact fun hq => hx hq e (mem_append_right _ mem_cons_self) he

theorem count_snoc_le_one [DecidableEq ε] {e x : ε} {es : List ε} (h : es.count e ≤ 1) (hx : x = e → e ∉ es) :
    (es ++ [x]).count e ≤ 1 := by
  by_cases he : x = e
  · rw [count_append, count_eq_zero.mpr (hx he), he, count_singleton_self]
  · rw [count_append, count_singleton, if_neg (by simpa using he)]
    exact h

theorem filter_flatMap_key {κ : Type*} [DecidableEq κ] {key : ε → κ} {part : κ → List ε}
    (hpart : ∀ k, ∀ x ∈ part k, key x = k) (k : κ) {ks : List κ} (hks : ks.Nodup) :
    ((ks.flatMap part).filter fun x => key x = k) = if k ∈ ks then part k else [] := by
  induction ks with
  | nil => rfl
  | cons k' ks ih =>
    obtain ⟨hk', hks⟩ := nodup_cons.mp hks
    rw [flatMap_cons, filter_append, ih hks]
    by_cases hk : k = k'
    · subst hk
      rw [if_neg hk', if_pos mem_cons_self, append_nil]
      exact filter_eq_self.mpr fun x hx => decide_eq_true (hpart k x hx)
    · have hnil : ((part k').filter fun x => key x = k) = [] := by
        refine filter_eq_nil_iff.mpr fun x hx hxk => hk ?_
        exact (of_decide_eq_true hxk).symm.trans (hpart k' x hx)
      rw [hnil, nil_append]
      simp [hk]

/-- A sum changes by as much as the element that is modified. -/
theorem sum_map_modify {α : Type} (cost : α → Nat) {f : α → α} :
    ∀ {xs : List α} {i : Nat} {x : α}, xs[i]? = some x →
      ((xs.modify i f).map cost).sum + cost x = (xs.map cost).sum + cost (f x)
  | [], _, _, h => by simp at h
  | x :: xs, 0, _, h => by
    obtain rfl := Option.some.inj h
    simp only [modify_zero_cons, map_cons, sum_cons]
    omega
  | y :: xs, i + 1, _, h => by
    have ih := sum_map_modify cost (f := f) (i := i) h
    simp only [modify_succ_cons, map_cons, sum_cons]
    omega

end Systemtap.Lib
