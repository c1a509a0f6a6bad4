import Systemtap.Runtime.Stat

/-!
# Histogram buckets

Which bucket of a histogram a value is counted in (`stat-common.c`). In a logarithmic histogram
the bucket is found by shifting the value left, by 32 places, then 16, and so on down to 1,
as long as no bit is lost; how far it went tells the highest bit. Each step halves the number of
top places among which that bit lies, which is the invariant `Raised`. With it the bucket is a
logarithm, and the laws of the two conversions are laws of powers of two.

In a linear histogram the offset from `start` is taken in 64 bits and divided by the interval
as an unsigned number of 32 bits. `Countable` says for which values that is the division
it is meant to be; every value is counted in some bucket all the same.
-/

namespace Systemtap.Runtime

open Systemtap.Tree Nat

/-! ## Logarithmic histograms -/

/-- `_stp_bucket_to_val` -/
def bucketToVal (num : Int) : I64 :=
  if num = histLogBucket0 then 0
  else if num < histLogBucket0 then (0x8000000000000000#64).sshiftRight num.toNat
  else 1#64 <<< (num - histLogBucket0 - 1).toNat

/-- `r` is `n` rounded toward zero to a signed power of two, or 0 for 0. -/
def RoundsToPower (n r : Int) : Prop :=
  (n = 0 ∧ r = 0) ∨ ∃ k : Nat, r = n.sign * 2 ^ k ∧ 2 ^ k ≤ n.natAbs ∧ n.natAbs < 2 ^ (k + 1)

theorem and_topBits_eq_zero {v mask : I64} {n : Nat} (hm : mask = BitVec.allOnes 64 <<< n) :
    v &&& mask = 0 ↔ v.toNat < 2 ^ n := by
  have hbit (i : Nat) : (v &&& mask).getLsbD i = (v.toNat.testBit i && decide (n ≤ i)) := by
    rw [hm, BitVec.getLsbD_and, BitVec.getLsbD_shiftLeft, BitVec.getLsbD_allOnes, BitVec.getLsbD]
    by_cases hi : i < 64
    · simp [hi, show i - n < 64 by omega, ← decide_not]
    · rw [Nat.testBit_lt_two_pow (v.isLt.trans_le (Nat.pow_le_pow_right two_pos (by omega)))]
      rfl
  constructor
  · intro h
    apply lt_pow_two_of_testBit
    intro i hi
    have := hbit i
    rw [h] at this
    simpa [hi] using this.symm
  · intro h
    apply BitVec.eq_of_getLsbD_eq
    intro i _
    rw [hbit]
    by_cases hi : n ≤ i
    · rw [Nat.testBit_lt_two_pow (h.trans_le (Nat.pow_le_pow_right two_pos hi))]
      simp
    · simp [hi]

/-- `p` is `x` shifted left by the number of places counted down from 128, and the highest bit is
among the `k` top ones. -/
def Raised (x k : Nat) (p : I64 × Int) : Prop :=
  ∃ s : Nat, p.1.toNat = x * 2 ^ s ∧ p.2 = histLogBuckets - s ∧ 2 ^ (64 - k) ≤ p.1.toNat

theorem toNat_shiftLeft_of_lt {v : I64} {k : Nat} (hk : k ≤ 64) (h : v.toNat < 2 ^ (64 - k)) :
    (v <<< k).toNat = v.toNat * 2 ^ k := by
  rw [BitVec.toNat_shiftLeft, shiftLeft_eq]
  apply mod_eq_of_lt
  calc v.toNat * 2 ^ k < 2 ^ (64 - k) * 2 ^ k := Nat.mul_lt_mul_of_pos_right h (Nat.two_pow_pos k)
    _ = 2 ^ 64 := by rw [← Nat.pow_add, Nat.sub_add_cancel hk]

theorem Raised.shiftUnless {x j : Nat} {p : I64 × Int} (h : Raised x j p) (mask : I64) (k : Nat)
    (hm : mask = BitVec.allOnes 64 <<< (64 - k) := by rfl) (hj : j = k + k := by rfl)
    (hk : j ≤ 64 := by decide) : Raised x k (shiftUnless mask k p) := by
  obtain ⟨s, hv, hres, hlow⟩ := h
  unfold Runtime.shiftUnless
  split <;> rw [and_topBits_eq_zero hm] at *
  · next hlt =>
    have hshift := toNat_shiftLeft_of_lt (by omega) hlt
    refine ⟨s + k, ?_, ?_, ?_⟩
    · rw [hshift, hv, Nat.pow_add, mul_assoc]
    · rw [hres]
      omega
    · rw [hshift]
      calc 2 ^ (64 - k) = 2 ^ (64 - j) * 2 ^ k := by rw [← Nat.pow_add]; congr 1; omega
        _ ≤ p.1.toNat * 2 ^ k := mul_le_mul_right _ hlow
  · next hge => exact ⟨s, hv, hres, Nat.le_of_not_lt hge⟩

/-- One top place left: the count is the logarithm. -/
theorem Raised.res_eq {x : Nat} {p : I64 × Int} (h : Raised x 1 p) (hx : x ≠ 0) :
    p.2 = 65 + Nat.log 2 x := by
  obtain ⟨s, hv, hres, hlow⟩ := h
  have hlt := p.1.isLt
  rw [hv] at hlow hlt
  have hs : s ≤ 63 := by
    by_contra hs
    have : 2 ^ 64 ≤ 2 ^ s := Nat.pow_le_pow_right two_pos (by omega)
    have := Nat.le_mul_of_pos_left (2 ^ s) (Nat.pos_of_ne_zero hx)
    omega
  have hpos := Nat.two_pow_pos s
  have hsplit (n : Nat) (hn : s ≤ n) : 2 ^ n = 2 ^ (n - s) * 2 ^ s := by
    rw [← Nat.pow_add, Nat.sub_add_cancel hn]
  rw [hsplit 64 (by omega)] at hlt
  rw [hsplit _ hs] at hlow
  have hlog : Nat.log 2 x = 63 - s := by
    apply log_eq_of_pow_le_of_lt_pow (le_of_mul_le_mul_right hlow hpos)
    rw [show 63 - s + 1 = 64 - s by omega]
    exact Nat.lt_of_mul_lt_mul_right hlt
  rw [hres, hlog, histLogBuckets]
  omega

/-- The bucket of an integer. -/
def logBucket (n : Int) : Int :=
  if n = 0 then 64 else if n < 0 then 63 - Nat.log 2 n.natAbs else 65 + Nat.log 2 n.natAbs

theorem toNat_abs (val : I64) : (if val.slt 0 then -val else val).toNat = val.toInt.natAbs := by
  have hint := BitVec.toInt_eq_toNat_cond val
  have hzero : (0 : I64).toInt = 0 := rfl
  split <;> rw [BitVec.slt_iff_toInt_lt, hzero] at *
  · rw [BitVec.toNat_neg]
    omega
  · omega

theorem valToBucket_eq (val : I64) : valToBucket val = logBucket val.toInt := by
  unfold valToBucket logBucket
  by_cases h0 : val = 0
  · simp [h0, histLogBucket0]
  have hint : val.toInt ≠ 0 := fun h => h0 (BitVec.eq_of_toInt_eq h)
  have hv := toNat_abs val
  rw [if_neg h0, if_neg hint]
  have hx : val.toInt.natAbs ≠ 0 := Int.natAbs_ne_zero.2 hint
  dsimp only
  set v := if val.slt 0 then -val else val
  generalize val.toInt.natAbs = x at *
  -- both ways into the common steps leave the highest bit among the 16 top ones
  have h16 : Raised x 16
      (if v &&& 0xffffffffffff0000#64 = 0 then (v <<< 48, histLogBuckets - 48)
      else shiftUnless 0xffff000000000000#64 16
        (shiftUnless 0xffffffff00000000#64 32 (v, histLogBuckets))) := by
    have hmask : 0xffffffffffff0000#64 = BitVec.allOnes 64 <<< 16 := rfl
    split
    · next hlt =>
      rw [and_topBits_eq_zero hmask] at hlt
      have hshift := toNat_shiftLeft_of_lt (by decide) (show v.toNat < 2 ^ (64 - 48) from hlt)
      refine ⟨48, ?_, rfl, ?_⟩ <;> simp only [hshift] <;> omega
    · have h64 : Raised x 64 (v, histLogBuckets) := ⟨0, by simpa using hv, by simp, by simp; omega⟩
      exact (h64.shiftUnless _ 32).shiftUnless _ 16
  have h8 := h16.shiftUnless 0xff00000000000000#64 8
  have h4 := h8.shiftUnless 0xf000000000000000#64 4
  have h2 := h4.shiftUnless 0xc000000000000000#64 2
  have h1 := h2.shiftUnless 0x8000000000000000#64 1
  have hres := h1.res_eq hx
  have hsign : val.slt 0 = true ↔ val.toInt < 0 := BitVec.slt_iff_toInt_lt
  rw [hres]
  by_cases hneg : val.toInt < 0
  · rw [if_pos hneg, if_pos (hsign.2 hneg), histLogBuckets]
    omega
  · rw [if_neg hneg, if_neg (hneg ∘ hsign.1)]

theorem monotone_logBucket : Monotone logBucket := by
  intro m n hmn
  unfold logBucket
  have hup (h : m.natAbs ≤ n.natAbs) := log_mono_right (b := 2) h
  have hdown (h : n.natAbs ≤ m.natAbs) := log_mono_right (b := 2) h
  split_ifs <;> omega

theorem log_natAbs_le {val : I64} (h : val.toInt ≠ 0) :
    Nat.log 2 val.toInt.natAbs ≤ 63 ∧ (0 < val.toInt → Nat.log 2 val.toInt.natAbs ≤ 62) := by
  have hlow := BitVec.le_toInt val
  have hhigh := BitVec.toInt_lt (x := val)
  refine ⟨Nat.lt_succ_iff.1 (Nat.log_lt_of_lt_pow (by omega) ?_), fun hpos =>
    Nat.lt_succ_iff.1 (Nat.log_lt_of_lt_pow (by omega) ?_)⟩ <;> norm_num at * <;> omega

theorem toInt_bucketToVal_low {k : Nat} (hk : k ≤ 63) : (bucketToVal (63 - k)).toInt = -2 ^ k := by
  have hmin : (0x8000000000000000#64).toInt = -2 ^ 63 := rfl
  have hnum : (63 - k : Int).toNat = 63 - k := by omega
  rw [bucketToVal, histLogBucket0, if_neg (by omega), if_pos (by omega), hnum,
    BitVec.toInt_sshiftRight, hmin, Int.shiftRight_eq_div_pow]
  apply Int.ediv_eq_of_eq_mul_left (by positivity)
  rw [neg_mul, Nat.cast_pow, Nat.cast_two, ← pow_add, Nat.add_sub_cancel' hk]

theorem toInt_bucketToVal_high {k : Nat} (hk : k ≤ 62) : (bucketToVal (65 + k)).toInt = 2 ^ k := by
  have hpow : 2 ^ k ≤ 2 ^ 62 := Nat.pow_le_pow_right two_pos hk
  have hnum : (65 + k - 64 - 1 : Int).toNat = k := by omega
  have hnat : (1#64 <<< k).toNat = 2 ^ k := by
    rw [BitVec.toNat_shiftLeft, shiftLeft_eq, BitVec.toNat_ofNat, one_mod, one_mul]
    exact mod_eq_of_lt (by omega)
  rw [bucketToVal, histLogBucket0, if_neg (by omega), if_neg (by omega), hnum,
    BitVec.toInt_eq_toNat_cond, hnat, if_pos (by omega), Nat.cast_pow, Nat.cast_two]

/-- What makes the log buckets a partition of the numbers by sign and magnitude. -/
structure LogBucketLaws : Prop where
  range : ∀ val, 0 ≤ valToBucket val ∧ valToBucket val ≤ histLogBuckets - 1
  rounded : ∀ val, RoundsToPower val.toInt (bucketToVal (valToBucket val)).toInt
  zero : bucketToVal (valToBucket 0) = 0
  least : bucketToVal (valToBucket (BitVec.intMin 64)) = BitVec.intMin 64
  inverse : ∀ b : Int, 0 ≤ b → b ≤ 127 → valToBucket (bucketToVal b) = b
  mono : ∀ val1 val2 : I64, val1.sle val2 → valToBucket val1 ≤ valToBucket val2

theorem valToBucket_range (val : I64) :
    0 ≤ valToBucket val ∧ valToBucket val ≤ histLogBuckets - 1 := by
  rw [valToBucket_eq, logBucket, histLogBuckets]
  by_cases h0 : val.toInt = 0
  · rw [if_pos h0]
    omega
  · have := log_natAbs_le h0
    split_ifs <;> omega

theorem bucketToVal_rounds (val : I64) :
    RoundsToPower val.toInt (bucketToVal (valToBucket val)).toInt := by
  rw [valToBucket_eq, logBucket]
  split_ifs with h0 hneg
  · exact .inl ⟨h0, rfl⟩
  all_goals
    obtain ⟨hk, hk'⟩ := log_natAbs_le h0
    refine .inr ⟨Nat.log 2 val.toInt.natAbs, ?_, pow_log_le_self 2 (Int.natAbs_ne_zero.2 h0),
      lt_pow_succ_log_self (by decide) _⟩
  · rw [toInt_bucketToVal_low hk, Int.sign_eq_neg_one_of_neg hneg, neg_one_mul]
  · have hpos : 0 < val.toInt := by omega
    rw [toInt_bucketToVal_high (hk' hpos), Int.sign_eq_one_of_pos hpos, one_mul]

theorem valToBucket_bucketToVal {b : Int} (hlow : 0 ≤ b) (hhigh : b ≤ 127) :
    valToBucket (bucketToVal b) = b := by
  have hpow (k : Nat) : (0 : Int) < 2 ^ k := by positivity
  have hlog (k : Nat) : Nat.log 2 ((2 : Int) ^ k).natAbs = k := by
    exact log_pow (by decide) k
  rw [valToBucket_eq]
  obtain hb | rfl | hb := lt_trichotomy b 64
  · obtain ⟨k, rfl⟩ : ∃ k : Nat, b = 63 - k := ⟨(63 - b).toNat, by omega⟩
    have := hpow k
    rw [toInt_bucketToVal_low (by omega), logBucket, if_neg (by omega), if_pos (by omega),
      Int.natAbs_neg, hlog]
  · rfl
  · obtain ⟨k, rfl⟩ : ∃ k : Nat, b = 65 + k := ⟨(b - 65).toNat, by omega⟩
    have := hpow k
    rw [toInt_bucketToVal_high (by omega), logBucket, if_neg (by omega), if_neg (by omega), hlog]

theorem logBucketLaws : LogBucketLaws where
  range := valToBucket_range
  rounded := bucketToVal_rounds
  zero := rfl
  least := by decide
  inverse _ := valToBucket_bucketToVal
  mono val1 val2 h := by
    rw [valToBucket_eq, valToBucket_eq]
    apply monotone_logBucket
    rwa [BitVec.sle, decide_eq_true_eq] at h

/-! ## Linear histograms -/

/-- `_stp_stat_calc_buckets`, with 128 for `STP_MAX_BUCKETS` -/
def calcBuckets (stop start interval : I32) : Nat :=
  if interval = 0 then 0
  else
    -- buckets for underflow and overflow included
    let buckets := ((stop - start).sdiv interval + 3).toInt
    if buckets > 128 ∨ buckets < 3 then 0 else buckets.toNat

/-- The histogram `_stp_stat_init` sets up for `HIST_LINEAR`. -/
def linearHist (start stop interval : I32) : Hist :=
  ⟨.linear, start, stop, interval, calcBuckets stop start interval, fun h => absurd h (by simp)⟩

/-- The bucket of the interval that `v` is in. -/
def Hist.intervalOf (st : Hist) (v : I64) : Int :=
  if v.toInt < st.start.toInt then 0
  else min (1 + (v.toInt - st.start.toInt).tdiv st.interval.toInt) (st.buckets - 1)

/-- Each of the values in turn adds one to the bucket of its interval, and the buckets sum to the
count. -/
structure CountsIntervals (st : Hist) (vs : List I64) : Prop where
  each : ∀ pre v post, vs = pre ++ v :: post →
    (sequential st (pre ++ [v])).histogram = bump (st.intervalOf v) (sequential st pre).histogram
  total : ∑ j, (sequential st vs).histogram j = (sequential st vs).count

/-- The offset of `v` is a number of 64 bits, neither a negative interval nor the increment after
the division spoils the index. -/
structure Placeable (start interval : I32) (v : I64) : Prop where
  fits : -2 ^ 63 ≤ v.toInt - start.toInt ∧ v.toInt - start.toInt < 2 ^ 63
  forward : 0 < interval.toInt ∨ v.toInt - start.toInt < -interval.toInt
  last : ¬ (v.toInt - start.toInt = 2 ^ 63 - 1 ∧ interval = 1)

/-- What an accepted linear histogram has. -/
structure Hist.Linear (st : Hist) : Prop where
  type : st.type = .linear
  interval : st.interval ≠ 0
  buckets : 3 ≤ st.buckets

theorem linear_of_calcBuckets {start stop interval : I32}
    (h : calcBuckets stop start interval ≠ 0) : (linearHist start stop interval).Linear := by
  refine ⟨rfl, fun (h0 : interval = 0) => h (if_pos h0), ?_⟩
  change 3 ≤ calcBuckets stop start interval
  unfold calcBuckets at *
  by_cases h0 : interval = 0
  · exact absurd (if_pos h0) h
  · rw [if_neg h0] at *
    dsimp only at *
    split_ifs at * with hout
    · exact absurd rfl h
    · omega

variable {st : Hist}

/-- The quotient the code takes, of the wrapped offset `d` by the interval as an unsigned number. -/
theorem Hist.Linear.index_eq (hst : st.Linear) (v : I64) {d q : Int}
    (hd : d = (v - st.start.signExtend 64).toInt) (hq : q = d / st.interval.toNat) :
    st.index v = some (if d < 0 then 0 else
      if q + 1 = 2 ^ 63 then -2 ^ 63 else min (q + 1) (st.buckets - 1)) := by
  have hbuckets := hst.buckets
  have hslt : (v - st.start.signExtend 64).slt 0 = true ↔ d < 0 := hd ▸ BitVec.slt_iff_toInt_lt
  simp only [Hist.index, hst.type]
  generalize v - st.start.signExtend 64 = x at *
  by_cases hneg : d < 0
  · rw [if_pos (hslt.2 hneg), if_pos hneg]
    have hzero : (0 : I64).toInt = 0 := rfl
    rw [hzero, if_neg (by omega)]
  rw [if_neg (hneg ∘ hslt.1), if_neg hneg]
  have hlt := BitVec.toInt_lt (x := x)
  have hnat : (x.toNat : Int) = d := by
    rw [BitVec.toInt_eq_toNat_cond] at hd
    split_ifs at hd <;> omega
  have hle := div_le_self x.toNat st.interval.toNat
  have hquot : (x / st.interval.zeroExtend 64 + 1).toNat = x.toNat / st.interval.toNat + 1 := by
    have hwide : st.interval.toNat % 2 ^ 64 = st.interval.toNat :=
      mod_eq_of_lt (st.interval.isLt.trans (by norm_num))
    have hone : (1 : I64).toNat = 1 := rfl
    rw [BitVec.toNat_add, BitVec.toNat_udiv, BitVec.toNat_setWidth, hwide, hone]
    exact mod_eq_of_lt (by omega)
  have hq' : ((x.toNat / st.interval.toNat : Nat) : Int) = q := by
    rw [hq, ← hnat, Int.natCast_ediv]
  have hint : (x / st.interval.zeroExtend 64 + 1).toInt =
      if q + 1 = 2 ^ 63 then -2 ^ 63 else q + 1 := by
    rw [BitVec.toInt_eq_toNat_cond, hquot]
    split_ifs <;> omega
  congr 1
  split_ifs <;> omega

theorem wrapped_offset (v : I64) (start : I32) {d w : Int} (hd : d = v.toInt - start.toInt)
    (hw : w = (v - start.signExtend 64).toInt) :
    -2 ^ 63 ≤ w ∧ w < 2 ^ 63 ∧
      (w = d ∨ 2 ^ 63 ≤ d ∧ w < 0 ∨ d < -2 ^ 63 ∧ 0 ≤ w) := by
  have hs := BitVec.toInt_lt (x := start)
  have hs' := BitVec.le_toInt start
  have hv := BitVec.toInt_lt (x := v)
  have hv' := BitVec.le_toInt v
  rw [BitVec.toInt_sub, BitVec.toInt_signExtend_of_le (by decide), ← hd, Int.bmod_def] at hw
  split_ifs at hw <;> omega

/-- The index is the interval of the value exactly where it is placeable, and one of the two is
an index of the array. -/
theorem Hist.Linear.index_eq_intervalOf_iff (hst : st.Linear) (v : I64) :
    ∃ i, st.index v = some i ∧ (i = st.intervalOf v ↔ Placeable st.start st.interval v) ∧
      (0 ≤ i ∧ i < st.buckets ∨ 0 ≤ st.intervalOf v ∧ st.intervalOf v < st.buckets) := by
  refine ⟨_, hst.index_eq v rfl rfl, ?_⟩
  have hbuckets := hst.buckets
  obtain ⟨d, hd⟩ : ∃ d, d = v.toInt - st.start.toInt := ⟨_, rfl⟩
  obtain ⟨w, hw⟩ : ∃ w, w = (v - st.start.signExtend 64).toInt := ⟨_, rfl⟩
  have hwrap := wrapped_offset v st.start hd hw
  have hplace : Placeable st.start st.interval v ↔ (-2 ^ 63 ≤ d ∧ d < 2 ^ 63) ∧
      (0 < st.interval.toInt ∨ d < -st.interval.toInt) ∧
      ¬ (d = 2 ^ 63 - 1 ∧ st.interval.toInt = 1) := by
    have hone : st.interval = 1 ↔ st.interval.toInt = 1 :=
      (BitVec.toInt_inj (y := (1 : I32))).symm
    rw [hd, ← hone]
    exact ⟨fun h => ⟨h.fits, h.forward, h.last⟩, fun h => ⟨h.1, h.2.1, h.2.2⟩⟩
  rw [hplace, Hist.intervalOf, ← hw, ← hd]
  have hbase := BitVec.toInt_eq_toNat_cond st.interval
  have hlt := st.interval.isLt
  have hne : st.interval.toInt ≠ 0 := fun h => hst.interval (BitVec.eq_of_toInt_eq h)
  generalize st.interval.toInt = i at *
  generalize st.interval.toNat = b at *
  have hq (h : 0 ≤ w) : 0 ≤ w / b := Int.ediv_nonneg h (by omega)
  have hquot (h : 0 ≤ d) : d.tdiv i = d / i := Int.tdiv_eq_ediv_of_nonneg h
  rcases lt_or_gt_of_ne hne with hi | hi
  · -- the unsigned base is so great that the quotient is 0 where the one meant is
    have hcap : w / b < 2 ^ 62 := Int.ediv_lt_of_lt_mul (by omega) (by omega)
    have hzero (h : 0 ≤ w) (h' : w < -i) : w / b = 0 := Int.ediv_eq_zero_of_lt h (by omega)
    have hmeant : d / i = -(d / -i) := by rw [Int.ediv_neg, neg_neg]
    have hmeant0 (h : 0 ≤ d) (h' : d < -i) : d / -i = 0 := Int.ediv_eq_zero_of_lt h h'
    have hmeant1 (h : -i ≤ d) : 1 ≤ d / -i := (Int.le_ediv_iff_mul_le (by omega)).2 (by omega)
    have hmeant2 (h : 2 * -i ≤ d) : 2 ≤ d / -i := (Int.le_ediv_iff_mul_le (by omega)).2 (by omega)
    generalize w / (b : Int) = q at *
    generalize d / -i = r at *
    split_ifs <;> omega
  · have hb : (b : Int) = i := by split_ifs at hbase <;> omega
    have hq0 (h : 0 ≤ d) : 0 ≤ d / i := Int.ediv_nonneg h (by omega)
    have hlast : w / i + 1 = 2 ^ 63 ↔ w = 2 ^ 63 - 1 ∧ i = 1 := by
      by_cases h1 : i = 1
      · rw [h1, Int.ediv_one]
        omega
      · have : w / i < 2 ^ 62 := Int.ediv_lt_of_lt_mul hi (by omega)
        omega
    rw [hb] at hq ⊢
    clear hbase hlt hplace hw
    obtain ⟨hlow, hhigh, rfl | ⟨hd', hw'⟩ | ⟨hd', hw'⟩⟩ := hwrap
    · generalize w / i = q at *
      split_ifs <;> omega
    · rw [if_pos hw', if_neg (by omega)]
      omega
    · rw [if_neg (Int.not_lt.2 hw')]
      split_ifs <;> omega

theorem bump_self {n : Nat} {i : Int} (h : Fin n → I64) (h0 : 0 ≤ i) (hn : i < n) :
    bump i h = Function.update h ⟨i.toNat, by omega⟩ (h ⟨i.toNat, by omega⟩ + 1) := by
  funext j
  have hj : (j : Int) = i ↔ j = ⟨i.toNat, by omega⟩ := by
    exact ⟨fun h => by simp [← h], fun h => by rw [h]; exact Int.toNat_of_nonneg h0⟩
  by_cases hji : (j : Int) = i
  · rw [bump, if_pos hji, hj.1 hji, Function.update_self]
  · rw [bump, if_neg hji, Function.update_of_ne (hji ∘ hj.2)]

theorem bump_ne {n : Nat} {i j : Int} (h : Fin n → I64) (h0 : 0 ≤ i) (hn : i < n) (hne : i ≠ j) :
    bump i h ≠ bump j h := by
  intro heq
  have hk : ((⟨i.toNat, by omega⟩ : Fin n) : Int) = i := Int.toNat_of_nonneg h0
  have := congrFun heq ⟨i.toNat, by omega⟩
  rw [bump, bump, if_pos hk, if_neg (hk.symm ▸ hne), add_eq_left] at this
  exact absurd this (by decide)

theorem sum_bump {n : Nat} {i : Int} (h : Fin n → I64) (h0 : 0 ≤ i) (hn : i < n) :
    ∑ j, bump i h j = ∑ j, h j + 1 := by
  rw [bump_self h h0 hn, Finset.sum_update_of_mem (Finset.mem_univ _), add_right_comm,
    ← Finset.sum_eq_add_sum_sdiff_singleton_of_mem (Finset.mem_univ _)]

theorem StatData.add_count (sd : StatData st.buckets) (v : I64) :
    (sd.add st v).count = sd.count + 1 := by
  rw [StatData.add_eq]

theorem StatData.add_histogram_eq {v : I64} {i : Int} (hv : st.index v = some i)
    (sd : StatData st.buckets) : (sd.add st v).histogram = bump i sd.histogram := by
  unfold StatData.add
  rw [hv]
  split <;> rfl

theorem sum_sequential (vs : List I64)
    (h : ∀ v ∈ vs, ∃ i, st.index v = some i ∧ 0 ≤ i ∧ i < st.buckets) :
    ∑ j, (sequential st vs).histogram j = (sequential st vs).count := by
  induction vs using List.reverseRecOn with
  | nil => exact Finset.sum_eq_zero fun _ _ => rfl
  | append_singleton vs v ih =>
    obtain ⟨i, hi, h0, hn⟩ := h v (by simp)
    rw [sequential_snoc, StatData.add_count, StatData.add_histogram_eq hi, sum_bump _ h0 hn,
      ih fun w hw => h w (by simp [hw])]

theorem CountsIntervals.placeable (hst : st.Linear) {vs : List I64} (h : CountsIntervals st vs) :
    ∀ v ∈ vs, Placeable st.start st.interval v := by
  intro v hv
  obtain ⟨pre, post, rfl⟩ := List.append_of_mem hv
  obtain ⟨i, hi, hplace, hin⟩ := hst.index_eq_intervalOf_iff v
  have heach := h.each pre v post rfl
  rw [sequential_snoc, StatData.add_histogram_eq hi] at heach
  refine hplace.1 (by_contra fun hne => ?_)
  exact hin.elim (fun hin => bump_ne _ hin.1 hin.2 hne heach)
    fun hin => bump_ne _ hin.1 hin.2 (Ne.symm hne) heach.symm

end Systemtap.Runtime
