import Systemtap.Tree.Syntax

/-!
# Statistics

`stat.c` and the parts of `stat-common.c` it uses. A statistic has one `stat_data` for each
CPU; `_stp_stat_add` works on the one of the CPU it runs on, and `_stp_stat_get` merges them.
Both take `count == 0` to mean that `sum`, `min` and `max` hold nothing yet.

`Summarises` says what a `stat_data` is for: the count, the sum, the least, the greatest and
the tally of a list of values. It does not depend on the order of the list, and it fixes the
`stat_data`; adding and merging keep it as long as the count has not come round to 0. The
run of a whole history of calls is compared with a machine that only keeps the values.
-/

namespace Systemtap.Runtime

open Systemtap.Tree Function List

abbrev I32 := BitVec 32

/-! ## The code -/

inductive HistType where
  | none | log | linear
  deriving DecidableEq, Repr

/-- `struct _Hist`. `_stp_stat_init` leaves 0 buckets where there is no histogram. -/
structure Hist where
  type : HistType
  start : I32
  stop : I32
  interval : I32
  buckets : Nat
  flat : type = .none → buckets = 0

def histLogBuckets : Int := 128

def histLogBucket0 : Int := 64

/-- A step of `_stp_val_to_bucket`: `if (!(val & mask)) { val <<= k; res -= k; }`. -/
def shiftUnless (mask : I64) (k : Nat) (p : I64 × Int) : I64 × Int :=
  if p.1 &&& mask = 0 then (p.1 <<< k, p.2 - k) else p

/-- `_stp_val_to_bucket` -/
def valToBucket (val : I64) : Int :=
  if val = 0 then histLogBucket0 else
    let neg := val.slt 0
    let v := if neg then -val else val
    let p :=
      if v &&& 0xffffffffffff0000#64 = 0 then (v <<< 48, histLogBuckets - 48)
      else shiftUnless 0xffff000000000000#64 16
        (shiftUnless 0xffffffff00000000#64 32 (v, histLogBuckets))
    let p := shiftUnless 0xff00000000000000#64 8 p
    let p := shiftUnless 0xf000000000000000#64 4 p
    let p := shiftUnless 0xc000000000000000#64 2 p
    let p := shiftUnless 0x8000000000000000#64 1 p
    if neg then histLogBuckets - p.2 else p.2

/-- The index that `__stp_stat_add` counts `val` under. -/
def Hist.index (st : Hist) (val : I64) : Option Int :=
  match st.type with
  | .none => none
  | .log =>
    let n := valToBucket val
    some (if (st.buckets : Int) ≤ n then st.buckets - 1 else n)
  | .linear =>
    let val := val - st.start.signExtend 64
    -- `do_div` takes its base as an unsigned 32-bit number
    let val := if val.slt 0 then 0 else val / st.interval.zeroExtend 64 + 1
    some (if (st.buckets : Int) - 1 ≤ val.toInt then st.buckets - 1 else val.toInt)

/-- `struct stat_data` with a histogram of `n` entries. -/
@[ext]
structure StatData (n : Nat) where
  count : I64
  sum : I64
  min : I64
  max : I64
  histogram : Fin n → I64

/-- `histogram[i]++`; an index outside of the array changes none of its entries. -/
def bump {n : Nat} (i : Int) (histogram : Fin n → I64) : Fin n → I64 :=
  fun j => if (j : Int) = i then histogram j + 1 else histogram j

/-- `__stp_stat_add` -/
def StatData.add (st : Hist) (sd : StatData st.buckets) (val : I64) : StatData st.buckets :=
  let sd :=
    if sd.count = 0 then { sd with count := 1, sum := val, min := val, max := val }
    else
      { sd with
        count := sd.count + 1
        sum := sd.sum + val
        max := if sd.max.slt val then val else sd.max
        min := if val.slt sd.min then val else sd.min }
  match st.index val with
  | none => sd
  | some i => { sd with histogram := bump i sd.histogram }

/-- `_stp_stat_clear_data` -/
def StatData.clearData (st : Hist) (sd : StatData st.buckets) : StatData st.buckets :=
  ⟨0, 0, 0, 0, if st.type = .none then sd.histogram else fun _ => 0⟩

/-- What `_stp_stat_get` does for a CPU that has values. -/
def StatData.aggregate (st : Hist) (agg sd : StatData st.buckets) : StatData st.buckets :=
  let agg := if agg.count = 0 then { agg with min := sd.min, max := sd.max } else agg
  { count := agg.count + sd.count
    sum := agg.sum + sd.sum
    max := if agg.max.slt sd.max then sd.max else agg.max
    min := if sd.min.slt agg.min then sd.min else agg.min
    histogram := if st.type = .none then agg.histogram
      else fun j => agg.histogram j + sd.histogram j }

/-- `struct _Stat` on `cpus` CPUs. -/
structure Stat (st : Hist) (cpus : Nat) where
  sd : Fin cpus → StatData st.buckets
  agg : StatData st.buckets

/-- The body of the loop over the CPUs in `_stp_stat_get`. -/
def getCpu (st : Hist) {cpus : Nat} (clear : Bool) (s : Stat st cpus) (i : Fin cpus) :
    Stat st cpus :=
  if (s.sd i).count = 0 then s
  else
    { agg := s.agg.aggregate st (s.sd i)
      sd := if clear then Function.update s.sd i ((s.sd i).clearData st) else s.sd }

namespace Stat

variable {st : Hist} {cpus : Nat}

/-- The state `_stp_stat_init` leaves: the memory of the CPUs is zeroed, that of `agg` is
not. -/
def init (agg : StatData st.buckets) : Stat st cpus := ⟨fun _ => ⟨0, 0, 0, 0, fun _ => 0⟩, agg⟩

/-- `_stp_stat_add` on CPU `i` -/
def add (s : Stat st cpus) (i : Fin cpus) (val : I64) : Stat st cpus :=
  { s with sd := Function.update s.sd i ((s.sd i).add st val) }

/-- `_stp_stat_get`; the statistic it returns a pointer to is `agg`. -/
def get (s : Stat st cpus) (clear : Bool) : Stat st cpus :=
  (List.finRange cpus).foldl (getCpu st clear) { s with agg := s.agg.clearData st }

/-- `_stp_stat_clear` -/
def clear (s : Stat st cpus) : Stat st cpus :=
  { s with sd := fun i => (s.sd i).clearData st }

theorem add_sd (s : Stat st cpus) (i : Fin cpus) (val : I64) :
    (s.add i val).sd = update s.sd i ((s.sd i).add st val) := rfl

end Stat

/-- A call on a statistic. -/
inductive StatCall (cpus : Nat) where
  | add (cpu : Fin cpus) (val : I64)
  | get (clear : Bool)
  | clear

/-- What the calls of `_stp_stat_get` in a history return, with their argument `clear`. -/
def Stat.run {st : Hist} {cpus : Nat} (s : Stat st cpus) :
    List (StatCall cpus) → List (Bool × StatData st.buckets)
  | [] => []
  | .add i val :: cs => (s.add i val).run cs
  | .get clear :: cs => (clear, (s.get clear).agg) :: (s.get clear).run cs
  | .clear :: cs => s.clear.run cs

/-! ## What it is for -/

/-- No histogram. -/
def noHist : Hist := ⟨.none, 0, 0, 0, 0, fun _ => rfl⟩

/-- A new statistic whose memory was all zeroed. -/
def emptyStat (st : Hist) {cpus : Nat} : Stat st cpus := .init ⟨0, 0, 0, 0, fun _ => 0⟩

/-- One sequential statistic to which the values are added in turn. -/
def sequential (st : Hist) (vs : List I64) : StatData st.buckets :=
  vs.foldl (StatData.add st) ⟨0, 0, 0, 0, fun _ => 0⟩

/-- The values each `_stp_stat_get` answers for, when `held` is what was added since the
last call that cleared. -/
def answers {cpus : Nat} (held : Multiset I64) :
    List (StatCall cpus) → List (Bool × Multiset I64)
  | [] => []
  | .add _ val :: cs => answers (val ::ₘ held) cs
  | .get clear :: cs => (clear, held) :: answers (if clear then 0 else held) cs
  | .clear :: cs => answers 0 cs

/-- The values that no clearing `_stp_stat_get` answers for: those a `_stp_stat_clear` throws
away and those still held at the end. -/
def unread {cpus : Nat} (held : Multiset I64) : List (StatCall cpus) → Multiset I64
  | [] => held
  | .add _ val :: cs => unread (val ::ₘ held) cs
  | .get clear :: cs => unread (if clear then 0 else held) cs
  | .clear :: cs => held + unread 0 cs

/-- The values of a history. -/
def added {cpus : Nat} : List (StatCall cpus) → Multiset I64
  | [] => 0
  | .add _ val :: cs => val ::ₘ added cs
  | .get _ :: cs => added cs
  | .clear :: cs => added cs

/-- At no time have `2 ^ 64` values been added since the last call that cleared. -/
def CountFits {cpus : Nat} (held : Multiset I64) : List (StatCall cpus) → Prop
  | [] => True
  | .add _ val :: cs => (val ::ₘ held).card < 2 ^ 64 ∧ CountFits (val ::ₘ held) cs
  | .get clear :: cs => CountFits (if clear then 0 else held) cs
  | .clear :: cs => CountFits 0 cs

/-- What the clearing ones among some answers hold together. -/
def clearedTotal (rs : List (Bool × Multiset I64)) : Multiset I64 :=
  ((rs.filter (·.1)).map (·.2)).sum

/-! ## Summaries of values -/

/-- `m` is one of the values `vs`, if there are any, and `f` is least there. -/
structure Least (f : I64 → Int) (vs : Multiset I64) (m : I64) : Prop where
  mem : vs ≠ 0 → m ∈ vs
  le : ∀ v ∈ vs, f m ≤ f v

/-- How often the values fall under each index. -/
def Hist.tally (st : Hist) (vs : Multiset I64) : Fin st.buckets → I64 :=
  fun j => BitVec.ofNat 64 (vs.countP fun v => st.index v = some (j : Int))

/-- `sd` holds what there is to say about the values `vs`. -/
structure Summarises (st : Hist) (vs : Multiset I64) (sd : StatData st.buckets) : Prop where
  count : sd.count = BitVec.ofNat 64 vs.card
  sum : sd.sum = vs.sum
  nothing : vs = 0 → sd.min = 0 ∧ sd.max = 0
  min : Least BitVec.toInt vs sd.min
  max : Least (fun v => -v.toInt) vs sd.max
  histogram : sd.histogram = st.tally vs

variable {st : Hist} {vs ws : Multiset I64}

theorem ofNat_eq_zero_iff {n : Nat} (h : n < 2 ^ 64) : BitVec.ofNat 64 n = 0 ↔ n = 0 := by
  constructor
  · intro hn
    have := congrArg BitVec.toNat hn
    rw [BitVec.toNat_ofNat, Nat.mod_eq_of_lt h] at this
    exact this
  · rintro rfl
    rfl

theorem slt_iff_neg (a b : I64) : a.slt b = true ↔ -b.toInt < -a.toInt := by
  rw [BitVec.slt_iff_toInt_lt]
  omega

namespace Least

variable {f : I64 → Int} {a b : I64}

theorem singleton (f : I64 → Int) (v : I64) : Least f {v} v where
  mem _ := Multiset.mem_singleton_self v
  le w hw := by rw [Multiset.mem_singleton.1 hw]

theorem unique (hf : ∀ v w, f v = f w → v = w) (ha : Least f vs a) (hb : Least f vs b)
    (hne : vs ≠ 0) : a = b := by
  apply hf
  have h1 := ha.le _ (hb.mem hne)
  have h2 := hb.le _ (ha.mem hne)
  omega

/-- The comparison that both `__stp_stat_add` and `_stp_stat_get` make. -/
theorem add {c : Bool} (hc : c = true ↔ f b < f a) (ha : Least f vs a) (hb : Least f ws b)
    (hvs : vs ≠ 0) (hws : ws ≠ 0) : Least f (vs + ws) (if c then b else a) := by
  by_cases h : c = true
  · rw [if_pos h]
    rw [hc] at h
    refine ⟨fun _ => Multiset.mem_add.2 (.inr (hb.mem hws)), fun v hv => ?_⟩
    rcases Multiset.mem_add.1 hv with hv | hv
    · have := ha.le v hv
      omega
    · exact hb.le v hv
  · rw [if_neg h]
    rw [hc] at h
    refine ⟨fun _ => Multiset.mem_add.2 (.inl (ha.mem hvs)), fun v hv => ?_⟩
    rcases Multiset.mem_add.1 hv with hv | hv
    · exact ha.le v hv
    · have := hb.le v hv
      omega

end Least

theorem Hist.not_flat (j : Fin st.buckets) : st.type ≠ .none := by
  intro ht
  have := st.flat ht
  have := j.isLt
  omega

theorem StatData.add_eq (sd : StatData st.buckets) (v : I64) :
    sd.add st v =
      { count := sd.count + 1
        sum := if sd.count = 0 then v else sd.sum + v
        min := if sd.count = 0 then v else if v.slt sd.min then v else sd.min
        max := if sd.count = 0 then v else if sd.max.slt v then v else sd.max
        histogram := fun j => sd.histogram j + st.tally {v} j } := by
  have hhist : sd.histogram + st.tally {v} =
      match st.index v with
      | none => sd.histogram
      | some i => bump i sd.histogram := by
    funext j
    show sd.histogram j + BitVec.ofNat 64 (Multiset.countP _ {v}) = _
    cases hv : st.index v with
    | none => simp [Multiset.countP_eq_card_filter, Multiset.filter_singleton, hv]
    | some i =>
      by_cases hj : i = (j : Int) <;>
        simp [Multiset.countP_eq_card_filter, Multiset.filter_singleton, hv, hj, eq_comm, bump]
  show _ = (⟨_, _, _, _, sd.histogram + st.tally {v}⟩ : StatData st.buckets)
  rw [hhist, StatData.add]
  by_cases hc : sd.count = 0 <;> cases st.index v <;> grind

namespace Summarises

variable {sd sd' agg r : StatData st.buckets}

/-- A summary is fixed by the values. -/
theorem unique (h : Summarises st vs sd) (h' : Summarises st vs sd') : sd = sd' := by
  have hends : sd.min = sd'.min ∧ sd.max = sd'.max := by
    by_cases hvs : vs = 0
    · rw [(h.nothing hvs).1, (h.nothing hvs).2, (h'.nothing hvs).1, (h'.nothing hvs).2]
      exact ⟨rfl, rfl⟩
    · refine ⟨h.min.unique (fun v w => BitVec.eq_of_toInt_eq) h'.min hvs,
        h.max.unique (fun v w hvw => BitVec.eq_of_toInt_eq (by omega)) h'.max hvs⟩
  refine StatData.ext ?_ ?_ hends.1 hends.2 ?_
  · rw [h.count, h'.count]
  · rw [h.sum, h'.sum]
  · rw [h.histogram, h'.histogram]

theorem count_eq_zero_iff (h : Summarises st vs sd) (hlen : vs.card < 2 ^ 64) :
    sd.count = 0 ↔ vs = 0 := by
  rw [h.count, ofNat_eq_zero_iff hlen, Multiset.card_eq_zero]

theorem zero : Summarises st 0 ⟨0, 0, 0, 0, fun _ => 0⟩ where
  count := rfl
  sum := rfl
  nothing _ := ⟨rfl, rfl⟩
  min := ⟨fun h => absurd rfl h, fun _ h => absurd h (Multiset.notMem_zero _)⟩
  max := ⟨fun h => absurd rfl h, fun _ h => absurd h (Multiset.notMem_zero _)⟩
  histogram := rfl

theorem clearData (sd : StatData st.buckets) : Summarises st 0 (sd.clearData st) := by
  have hzero : sd.clearData st = ⟨0, 0, 0, 0, fun _ => 0⟩ := by
    unfold StatData.clearData
    congr 1
    funext j
    rw [if_neg (Hist.not_flat j)]
  rw [hzero]
  exact zero

/-- Two summaries become one where the counts and the sums are added and the bounds compared, unless
the first has no values. -/
theorem join (h : Summarises st vs agg) (h' : Summarises st ws sd) (hlen : vs.card < 2 ^ 64) (hws : ws ≠ 0)
    (hcount : r.count = agg.count + sd.count) (hsum : r.sum = agg.sum + sd.sum)
    (hmin : r.min = if agg.count = 0 then sd.min else if sd.min.slt agg.min then sd.min else agg.min)
    (hmax : r.max = if agg.count = 0 then sd.max else if agg.max.slt sd.max then sd.max else agg.max)
    (hhist : ∀ j, r.histogram j = agg.histogram j + sd.histogram j) : Summarises st (vs + ws) r := by
  have hends : Least BitVec.toInt (vs + ws) r.min ∧ Least (fun v => -v.toInt) (vs + ws) r.max := by
    rw [hmin, hmax]
    by_cases hvs : vs = 0
    · subst hvs
      rw [if_pos (show agg.count = 0 from h.count), if_pos (show agg.count = 0 from h.count), zero_add]
      exact ⟨h'.min, h'.max⟩
    · have hc : agg.count ≠ 0 := mt (h.count_eq_zero_iff hlen).1 hvs
      rw [if_neg hc, if_neg hc]
      exact ⟨h.min.add BitVec.slt_iff_toInt_lt h'.min hvs hws,
        h.max.add (slt_iff_neg _ _) h'.max hvs hws⟩
  refine ⟨?_, ?_, fun hn => absurd (add_eq_zero.1 hn).2 hws, hends.1, hends.2, funext fun j => ?_⟩
  · rw [hcount, h.count, h'.count, Multiset.card_add, BitVec.ofNat_add]
  · rw [hsum, h.sum, h'.sum, Multiset.sum_add]
  · rw [hhist, h.histogram, h'.histogram, Hist.tally, Hist.tally, ← BitVec.ofNat_add, ← Multiset.countP_add]
    rfl

/-- The step: `__stp_stat_add` adds the value to the summary. -/
theorem add (h : Summarises st vs sd) (v : I64) (hlen : vs.card < 2 ^ 64) :
    Summarises st (v ::ₘ vs) (sd.add st v) := by
  have hone : Summarises st {v} ⟨1, v, v, v, st.tally {v}⟩ :=
    ⟨rfl, (Multiset.sum_singleton v).symm, fun hn => absurd hn (Multiset.singleton_ne_zero v),
      .singleton _ v, .singleton _ v, rfl⟩
  rw [← Multiset.singleton_add, add_comm, StatData.add_eq]
  refine h.join hone hlen (Multiset.singleton_ne_zero v) rfl ?_ rfl rfl fun _ => rfl
  dsimp only
  split
  · next hc => rw [h.sum, (h.count_eq_zero_iff hlen).1 hc, Multiset.sum_zero, zero_add]
  · rfl

/-- Merging the summary of a CPU that has values. -/
theorem aggregate (h : Summarises st vs agg) (h' : Summarises st ws sd) (hlen : vs.card < 2 ^ 64)
    (hws : ws ≠ 0) : Summarises st (vs + ws) (agg.aggregate st sd) := by
  unfold StatData.aggregate
  -- without values, the bounds of the CPU stand in for those of `agg` and are compared with themselves
  refine h.join h' hlen hws ?_ ?_ ?_ ?_ fun j => ?_
  case refine_5 =>
    dsimp only
    rw [if_neg (Hist.not_flat j)]
    split <;> rfl
  all_goals grind

end Summarises

theorem sequential_snoc (vs : List I64) (v : I64) :
    sequential st (vs ++ [v]) = (sequential st vs).add st v := by
  unfold sequential
  rw [foldl_append]
  rfl

/-- The sequential statistic summarises its values; the induction adds them one by one. -/
theorem sequential_summarises {vs : List I64} (h : vs.length ≤ 2 ^ 64) :
    Summarises st vs (sequential st vs) := by
  induction vs using reverseRecOn with
  | nil => exact .zero
  | append_singleton vs v ih =>
    rw [length_append, length_singleton] at h
    rw [sequential_snoc, ← Multiset.coe_add, add_comm]
    exact (ih (by omega)).add v (by rw [Multiset.coe_card]; omega)

/-! ## Whole histories -/

section Run

variable {cpus : Nat} {held : Fin cpus → Multiset I64}

/-- What the CPUs hold together. -/
def total (held : Fin cpus → Multiset I64) : Multiset I64 := ∑ i, held i

theorem total_update (i : Fin cpus) (v : I64) :
    total (update held i (v ::ₘ held i)) = v ::ₘ total held := by
  unfold total
  rw [Finset.sum_update_of_mem (Finset.mem_univ i), Multiset.cons_add,
    ← Finset.add_sum_erase Finset.univ held (Finset.mem_univ i), Finset.erase_eq]

/-- One CPU of the loop in `_stp_stat_get`. -/
theorem getCpu_summarises {s : Stat st cpus} (clear : Bool) (i : Fin cpus)
    (hagg : Summarises st vs s.agg) (hs : ∀ j, Summarises st (held j) (s.sd j))
    (hlen : (vs + held i).card < 2 ^ 64) :
    Summarises st (vs + held i) (getCpu st clear s i).agg ∧
      ∀ j, Summarises st (if clear = true ∧ j = i then 0 else held j)
        ((getCpu st clear s i).sd j) := by
  rw [Multiset.card_add] at hlen
  unfold getCpu
  by_cases hc : (s.sd i).count = 0
  · have hempty : held i = 0 := ((hs i).count_eq_zero_iff (by omega)).1 hc
    rw [if_pos hc, hempty, add_zero]
    refine ⟨hagg, fun j => ?_⟩
    by_cases hj : clear = true ∧ j = i
    · rw [if_pos hj, hj.2, ← hempty]
      exact hs i
    · rw [if_neg hj]
      exact hs j
  · have hne : held i ≠ 0 := fun h => hc (((hs i).count_eq_zero_iff (by omega)).2 h)
    rw [if_neg hc]
    refine ⟨hagg.aggregate (hs i) (by omega) hne, fun j => ?_⟩
    cases clear with
    | false => simpa using hs j
    | true =>
      by_cases hj : j = i
      · subst hj
        simp only [if_true, update_self]
        exact .clearData _
      · rw [if_neg fun h => hj h.2]
        simp only [if_true, update_of_ne hj]
        exact hs j

/-- The loop: the induction is on the CPUs still to visit, `vs` being what `agg` has got. -/
theorem foldl_getCpu_summarises (clear : Bool) (is : List (Fin cpus)) :
    ∀ (s : Stat st cpus) (held : Fin cpus → Multiset I64) (vs : Multiset I64), is.Nodup →
      Summarises st vs s.agg → (∀ j, Summarises st (held j) (s.sd j)) →
      (vs + (is.map held).sum).card < 2 ^ 64 →
      Summarises st (vs + (is.map held).sum) (is.foldl (getCpu st clear) s).agg ∧
        ∀ j, Summarises st (if clear = true ∧ j ∈ is then 0 else held j)
          ((is.foldl (getCpu st clear) s).sd j) := by
  induction is with
  | nil =>
    intro s held vs _ hagg hs _
    rw [map_nil, sum_nil, add_zero]
    exact ⟨hagg, fun j => by simpa using hs j⟩
  | cons i is ih =>
    intro s held vs hnd hagg hs hlen
    rw [nodup_cons] at hnd
    rw [map_cons, sum_cons, ← add_assoc] at hlen ⊢
    obtain ⟨hagg', hs'⟩ := getCpu_summarises clear i hagg hs (by
      rw [Multiset.card_add] at hlen
      omega)
    -- the CPUs still to visit hold what they held
    have hrest : (is.map fun j => if clear = true ∧ j = i then 0 else held j) = is.map held := by
      refine map_congr_left fun j hj => ?_
      rw [if_neg]
      rintro ⟨-, rfl⟩
      exact hnd.1 hj
    obtain ⟨h1, h2⟩ := ih _ _ _ hnd.2 hagg' hs' (by rw [hrest]; exact hlen)
    rw [hrest] at h1
    refine ⟨h1, fun j => ?_⟩
    have := h2 j
    by_cases hc : clear = true
    · by_cases hj : j = i <;> by_cases hmem : j ∈ is <;> simp_all
    · simp_all

theorem Stat.get_summarises {s : Stat st cpus} (clear : Bool)
    (hs : ∀ j, Summarises st (held j) (s.sd j)) (hcard : (total held).card < 2 ^ 64) :
    Summarises st (total held) (s.get clear).agg ∧
      ∀ j, Summarises st (if clear then 0 else held j) ((s.get clear).sd j) := by
  rw [total, Fin.sum_univ_def] at hcard ⊢
  have := foldl_getCpu_summarises clear (finRange cpus) { s with agg := s.agg.clearData st }
    held 0 (nodup_finRange cpus) (.clearData _) hs (by rwa [zero_add])
  rw [zero_add] at this
  refine ⟨this.1, fun j => ?_⟩
  have hj := this.2 j
  simp only [mem_finRange, and_true] at hj
  exact hj

/-- What a history returns, from any state that holds what `held` says. -/
theorem Stat.run_answers (cs : List (StatCall cpus)) :
    ∀ (s : Stat st cpus) (held : Fin cpus → Multiset I64),
      (∀ j, Summarises st (held j) (s.sd j)) → (total held).card < 2 ^ 64 →
      CountFits (total held) cs →
      List.Forall₂ (fun r a => r.1 = a.1 ∧ ∀ vs : List I64, (vs : Multiset I64) = a.2 →
        r.2 = sequential st vs) (s.run cs) (answers (total held) cs) := by
  induction cs with
  | nil => exact fun _ _ _ _ _ => .nil
  | cons c cs ih =>
    intro s held hs hcard hfit
    cases c with
    | add i v =>
      have hstep : ∀ j, Summarises st (update held i (v ::ₘ held i) j)
          ((s.add i v).sd j) := by
        intro j
        by_cases hj : j = i
        · subst hj
          have hle : held j ≤ total held :=
            Finset.single_le_sum (fun _ _ => Multiset.zero_le _) (Finset.mem_univ j)
          have hlt : (held j).card < 2 ^ 64 := lt_of_le_of_lt (Multiset.card_le_card hle) hcard
          rw [update_self, Stat.add_sd, update_self]
          exact (hs j).add v hlt
        · rw [update_of_ne hj, Stat.add_sd, update_of_ne hj]
          exact hs j
      have := ih (s.add i v) _ hstep (by rw [total_update]; exact hfit.1)
        (by rw [total_update]; exact hfit.2)
      rwa [total_update] at this
    | get clear =>
      obtain ⟨hagg, hrest⟩ := Stat.get_summarises clear hs hcard
      have hheld : total (fun j => if clear then 0 else held j)
          = if clear then 0 else total held := by
        cases clear with
        | true => exact Finset.sum_const_zero
        | false => rfl
      refine .cons ⟨rfl, fun vs hvs => ?_⟩ ?_
      · replace hvs : (vs : Multiset I64) = total held := hvs
        have hlen : vs.length ≤ 2 ^ 64 := by
          rw [← hvs] at hcard
          exact hcard.le
        rw [← hvs] at hagg
        exact hagg.unique (sequential_summarises hlen)
      · have := ih (s.get clear) _ hrest (by
          rw [hheld]
          split
          · exact Nat.two_pow_pos 64
          · exact hcard) (by rw [hheld]; exact hfit)
        rwa [hheld] at this
    | clear =>
      have hheld : total (fun _ : Fin cpus => 0) = 0 := Finset.sum_const_zero
      have := ih s.clear (fun _ => 0) (fun j => .clearData _)
        (by rw [hheld]; exact Nat.two_pow_pos 64) (by rw [hheld]; exact hfit)
      rwa [hheld] at this

/-- Every value is answered for by one clearing `_stp_stat_get`, or it is left unread. -/
theorem clearedTotal_answers (cs : List (StatCall cpus)) (held : Multiset I64) :
    clearedTotal (answers held cs) + unread held cs = held + added cs := by
  induction cs generalizing held with
  | nil =>
    rw [answers, unread, added, add_zero]
    exact zero_add _
  | cons c cs ih =>
    cases c with
    | add i v =>
      rw [answers, unread, added, ih, Multiset.cons_add, Multiset.add_cons]
    | get clear =>
      rw [answers, unread, added]
      cases clear with
      | true =>
        have := ih 0
        rw [zero_add] at this
        rw [clearedTotal, filter_cons_of_pos rfl, map_cons, sum_cons, add_assoc]
        exact congrArg (held + ·) this
      | false => exact ih held
    | clear =>
      have := ih 0
      rw [zero_add] at this
      rw [answers, unread, added, ← this]
      exact add_left_comm _ _ _

/-- A history of calls, from a new statistic: every `_stp_stat_get` returns what one
sequential statistic holds to which the values it answers for are added in any order, and
the clearing ones split the values between them, up to those that `_stp_stat_clear` throws
away and those added after the last of them. -/
theorem stat_run_refines (agg : StatData st.buckets) (cs : List (StatCall cpus))
    (h : CountFits 0 cs) :
    List.Forall₂ (fun r a => r.1 = a.1 ∧ ∀ vs : List I64, (vs : Multiset I64) = a.2 →
        r.2 = sequential st vs) ((Stat.init agg).run cs) (answers 0 cs) ∧
      clearedTotal (answers 0 cs) + unread 0 cs = added cs := by
  constructor
  · have hheld : total (fun _ : Fin cpus => 0) = 0 := Finset.sum_const_zero
    have := Stat.run_answers cs (Stat.init agg) (fun _ => 0) (fun _ => .zero)
      (by rw [hheld]; exact Nat.two_pow_pos 64) (by rw [hheld]; exact h)
    rwa [hheld] at this
  · rw [clearedTotal_answers, zero_add]

theorem stat_run_refines_two :
    CountFits 0 [StatCall.add (0 : Fin 2) 5, .add 1 7, .get true] ∧
      List.Forall₂ (fun r a => r.1 = a.1 ∧ ∀ vs : List I64, (vs : Multiset I64) = a.2 →
          r.2 = sequential noHist vs)
        ((emptyStat noHist).run [StatCall.add (0 : Fin 2) 5, .add 1 7, .get true])
        (answers 0 [StatCall.add (0 : Fin 2) 5, .add 1 7, .get true]) := by
  have hfit : CountFits 0 [StatCall.add (0 : Fin 2) 5, .add 1 7, .get true] := by
    refine ⟨?_, ?_, trivial⟩
    · rw [Multiset.card_cons, Multiset.card_zero]
      norm_num
    · rw [Multiset.card_cons, Multiset.card_cons, Multiset.card_zero]
      norm_num
  exact ⟨hfit, (stat_run_refines _ _ hfit).1⟩

/-! ## Where it does not hold -/

/-- A value that `_stp_stat_clear` throws away is in no answer, although a clearing
`_stp_stat_get` follows. -/
theorem clear_loses_value :
    ¬ ∃ parts : List (List I64), (parts.flatten : Multiset I64) =
        added [StatCall.add (0 : Fin 1) 5, .clear, .get true] ∧
      ((emptyStat noHist).run
        [StatCall.add (0 : Fin 1) 5, .clear, .get true]).map (·.2) = parts.map (sequential noHist) := by
  rintro ⟨parts, hflat, hrun⟩
  have hlen : parts.length = 1 := by
    rw [← length_map (f := sequential noHist), ← hrun]
    rfl
  obtain ⟨vs, rfl⟩ := length_eq_one_iff.1 hlen
  rw [flatten_singleton] at hflat
  obtain rfl : vs = [5] := Multiset.coe_eq_singleton.1 hflat
  have hcount := congrArg (map StatData.count) hrun
  exact absurd hcount (by decide)

theorem Stat.run_replicate_add (i : Fin cpus) (v : I64) (cs : List (StatCall cpus)) (k : Nat) :
    ∀ s : Stat st cpus, s.run (replicate k (.add i v) ++ cs)
      = { s with sd := update s.sd i ((replicate k v).foldl (StatData.add st) (s.sd i)) }.run
          cs := by
  induction k with
  | zero =>
    intro s
    rw [replicate_zero, replicate_zero, foldl_nil, update_eq_self]
    rfl
  | succ k ih =>
    intro s
    rw [replicate_succ, replicate_succ, cons_append, Stat.run, ih, foldl_cons]
    simp only [Stat.add, update_self, update_idem]

/-- Once a CPU has counted `2 ^ 64` values its count is 0 again. -/
theorem sequential_count_of_full {vs : List I64} (h : vs.length = 2 ^ 64) :
    (sequential st vs).count = 0 := by
  rw [(sequential_summarises h.le).count, Multiset.coe_card, h]
  rfl

theorem full_cpu_skipped {k : Nat} (hk : k = 2 ^ 64) :
    ∃ r, (emptyStat noHist).run
        (.add (1 : Fin 2) 5 :: (replicate k (.add 0 7) ++ [.get false])) = [(false, r)] ∧
      r ≠ sequential noHist (5 :: replicate k 7) := by
  have hfull : (foldl (StatData.add noHist) ⟨0, 0, 0, 0, fun _ => 0⟩
      (replicate k (7 : I64))).count = 0 :=
    sequential_count_of_full (length_replicate.trans hk)
  refine ⟨_, by rw [Stat.run, Stat.run_replicate_add]; rfl, fun hr => ?_⟩
  -- on CPU 0 nothing is found, so the greatest value is the 5 of CPU 1
  have hget := congrArg StatData.max hr
  have hseq : (sequential noHist (5 :: replicate k 7)).max = 7 := by
    obtain ⟨j, rfl⟩ : ∃ j, k = j + 1 := ⟨k - 1, by omega⟩
    rw [replicate_succ', ← cons_append, sequential_snoc, StatData.add_eq]
    refine if_pos (sequential_count_of_full ?_)
    rw [length_cons, length_replicate]
    exact hk
  rw [hseq] at hget
  have hskip : ∀ s : Stat noHist 2, (s.sd 0).count = 0 → (s.sd 1).count = 1 → (s.sd 1).max = 5 →
      (s.get false).agg.max = 5 := by
    intro s h0 h1 hmax
    have hagg : (s.get false).agg = (s.agg.clearData noHist).aggregate noHist (s.sd 1) := by
      unfold Stat.get
      rw [show finRange 2 = [0, 1] from rfl, foldl_cons, foldl_cons, foldl_nil]
      unfold getCpu
      rw [if_pos h0, if_neg (by rw [h1]; decide)]
    rw [hagg, ← hmax]
    unfold StatData.aggregate
    rw [if_pos (show (s.agg.clearData noHist).count = 0 from rfl)]
    simp only [ite_self]
  exact absurd ((hskip _ hfull rfl rfl).symm.trans hget) (by decide)

/-- Both ways in which the clearing answers fail to split the values or an answer differs
from the sequential statistic. -/
theorem stat_run_not_partition :
    (¬ ∃ parts : List (List I64), (parts.flatten : Multiset I64) =
        added [StatCall.add (0 : Fin 1) 5, .clear, .get true] ∧
      ((emptyStat noHist).run
        [StatCall.add (0 : Fin 1) 5, .clear, .get true]).map (·.2) = parts.map (sequential noHist)) ∧
    ∃ r, (emptyStat noHist).run
        (.add (1 : Fin 2) 5 :: (List.replicate (2 ^ 64) (.add 0 7) ++ [.get false])) = [(false, r)] ∧
      r ≠ sequential noHist (5 :: List.replicate (2 ^ 64) 7) :=
  ⟨clear_loses_value, full_cpu_skipped rfl⟩

end Run

end Systemtap.Runtime
