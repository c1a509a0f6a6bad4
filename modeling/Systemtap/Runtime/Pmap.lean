import Systemtap.Runtime.Map

/-!
# Per-CPU maps

The maps of `pmap-gen.c` and `_stp_pmap_agg` of `map.c`. A per-CPU map is one map for every CPU
and one more, `agg`, with as many nodes as each of them. Values are stored on the CPU that
runs the code. What all CPUs hold together is put into `agg`: for all keys by
`_stp_pmap_agg`, which empties `agg` first, and for one key by `_stp_pmap_get`, which does not.

So `agg` remembers every key that was looked up, also after the key is deleted everywhere,
and where it has no free node `_stp_pmap_get` finds nothing. And `_stp_pmap_del` takes the key
from the map of its own CPU only.
-/

namespace Systemtap.Runtime

open Systemtap.Tree Function List MapRoot

/-! ## The code -/

/-- A value type of `pmap-gen.c`, with what the values of a key on several CPUs amount to. -/
structure PmapType (env : MapEnv) extends ValueType env where
  /-- `_new_map_clear_node` -/
  clearNode : Val → Val
  /-- The value in `_stp_new_agg`: the memory of the node is overwritten. -/
  newAgg : Val → Val → Val
  /-- `_stp_add_agg` -/
  addAgg : Val → Val → Val
  /-- The values of the first CPU that has the key, and of the others in turn, as one. -/
  merge : Val → List Val → Val
  foldl_newAgg : ∀ old v vs, vs.foldl addAgg (newAgg old v) = merge v vs
  foldl_clearNode : ∀ old v vs, vs.foldl addAgg (addAgg (clearNode old) v) = merge v vs

section Values

variable (env : MapEnv)

theorem foldl_add_eq (vs : List I64) : ∀ v : I64, vs.foldl (· + ·) v = v + vs.sum := by
  induction vs with
  | nil => exact fun v => (add_zero v).symm
  | cons w vs ih =>
    intro v
    rw [foldl_cons, ih, sum_cons, add_assoc]

/-- Per-CPU maps of `INT64`: the values are added up. -/
def int64Pmap : PmapType env where
  toValueType := int64Values env
  clearNode _ := (0 : I64)
  newAgg _ v := v
  addAgg (w v : I64) := w + v
  merge (v : I64) vs := v + List.sum (α := I64) vs
  foldl_newAgg _ v vs := foldl_add_eq vs v
  foldl_clearNode _ (v : I64) vs := by
    rw [zero_add]
    exact foldl_add_eq vs v

theorem strAdd_strCopy (s t : Str) : strAdd env (strCopy env s) t = strCopy env (s ++ t) := by
  unfold strAdd strCopy
  rw [take_append, take_append, take_take, min_self, length_take]
  congr 2
  omega

theorem foldl_strAdd (vs : List Str) :
    ∀ s, vs.foldl (strAdd env) (strCopy env s) = strCopy env (s ++ vs.flatten) := by
  induction vs with
  | nil =>
    intro s
    rw [foldl_nil, flatten_nil, append_nil]
  | cons t vs ih =>
    intro s
    rw [foldl_cons, strAdd_strCopy, ih, flatten_cons, append_assoc]

/-- Per-CPU maps of `STRING`: the values are put one behind the other. -/
def strPmap : PmapType env where
  toValueType := strValues env
  clearNode _ := ([] : Str)
  newAgg _ v := strCopy env v
  addAgg := strAdd env
  merge (v : Str) vs := strCopy env (v ++ List.flatten (α := UInt8) vs)
  foldl_newAgg _ v vs := foldl_strAdd env vs v
  foldl_clearNode _ v vs := foldl_strAdd env vs v

/-- `_stp_add_agg` for statistics -/
def StatData.addAgg (st : Hist) (sd1 sd2 : StatData st.buckets) : StatData st.buckets :=
  let sd1 :=
    if sd1.count = 0 then
      { sd1 with count := sd2.count, min := sd2.min, max := sd2.max, sum := sd2.sum }
    else
      { sd1 with
        count := sd1.count + sd2.count
        sum := sd1.sum + sd2.sum
        min := if sd2.min.slt sd1.min then sd2.min else sd1.min
        max := if sd1.max.slt sd2.max then sd2.max else sd1.max }
  { sd1 with
    histogram := if st.type = .none then sd1.histogram
      else fun j => sd1.histogram j + sd2.histogram j }

/-- `_new_map_clear_node` for statistics -/
def StatData.clearNode (st : Hist) (sd : StatData st.buckets) : StatData st.buckets :=
  { sd with
    count := 0
    histogram := if st.type = .none then sd.histogram else fun _ => 0 }

theorem StatData.addAgg_clearNode (st : Hist) (old sd : StatData st.buckets) :
    (old.clearNode st).addAgg st sd = sd := by
  unfold StatData.addAgg StatData.clearNode
  dsimp only
  congr 1
  funext j
  simp [Hist.not_flat j]

/-- Per-CPU maps of `STAT` -/
def statPmap (st : Hist) : PmapType env where
  toValueType := statValues env st
  clearNode := StatData.clearNode st
  newAgg (old sd : StatData st.buckets) :=
    { sd with histogram := if st.type = .none then old.histogram else sd.histogram }
  addAgg := StatData.addAgg st
  merge (sd : StatData st.buckets) sds := sds.foldl (StatData.addAgg st) sd
  foldl_newAgg old sd sds := by
    congr 1
    congr 1
    funext j
    rw [if_neg (Hist.not_flat j)]
  foldl_clearNode old sd sds :=
    congrArg (fun sd => List.foldl (StatData.addAgg st) sd sds) (StatData.addAgg_clearNode st old sd)

/-- Merging statistics is putting their values together. -/
theorem Summarises.addAgg {st : Hist} {vs ws : Multiset I64} {sd1 sd2 : StatData st.buckets}
    (h : Summarises st vs sd1) (h' : Summarises st ws sd2) (hlen : vs.card < 2 ^ 64)
    (hws : ws ≠ 0) : Summarises st (vs + ws) (sd1.addAgg st sd2) := by
  have hsum : sd1.count = 0 → sd1.sum = 0 := by
    intro hc
    rw [h.sum, (h.count_eq_zero_iff hlen).1 hc, Multiset.sum_zero]
  unfold StatData.addAgg
  refine h.join h' hlen hws ?_ ?_ ?_ ?_ fun j => ?_
  case refine_5 =>
    dsimp only
    rw [if_neg (Hist.not_flat j)]
    split <;> rfl
  all_goals grind

end Values

/-- `struct pmap` -/
structure Pmap {env : MapEnv} (pt : PmapType env) (cpus : Nat) where
  map : Fin cpus → MapRoot pt.Val
  agg : MapRoot pt.Val

section Code

variable {env : MapEnv} {pt : PmapType env} {cpus : Nat}

/-- `_stp_pmap_new` -/
def Pmap.new (pt : PmapType env) (cpus maxEntries : Nat)
    (memory : Option (Fin cpus) → NodeId → Entry pt.Val) : Pmap pt cpus where
  map i := MapRoot.new maxEntries (memory (some i))
  agg := MapRoot.new maxEntries (memory none)

/-- `_stp_new_agg`, with `ahead` the chain number `hv` -/
def newAgg (agg : MapRoot pt.Val) (hv : Nat) (ptr : Entry pt.Val) :
    Option (NodeId × MapRoot pt.Val) :=
  match agg.create hv with
  | none => none
  | some (n, agg) =>
    some (n, agg.write n ⟨ptr.keys.map (cutKey env), pt.newAgg (agg.node n).val ptr.val⟩)

/-- Adds a value to a node of the aggregation map. -/
def addTo (agg : MapRoot pt.Val) (n : NodeId) (v : pt.Val) : MapRoot pt.Val :=
  agg.write n ⟨(agg.node n).keys, pt.addAgg (agg.node n).val v⟩

/-- The variables of `_stp_pmap_get`. -/
structure Totals (pt : PmapType env) where
  agg : MapRoot pt.Val
  anode : Option NodeId
  clearAgg : Bool

/-- What `_stp_pmap_get` does with a node that has the keys. -/
def Totals.take (hv : Nat) (s : Totals pt) (ptr : Entry pt.Val) : Totals pt :=
  match s.anode with
  | none =>
    match newAgg s.agg hv ptr with
    | none => s
    | some (n, agg) => { s with agg := agg, anode := some n }
  | some n =>
    let agg :=
      if s.clearAgg then
        s.agg.write n ⟨(s.agg.node n).keys, pt.clearNode (s.agg.node n).val⟩
      else s.agg
    { s with agg := addTo agg n ptr.val, clearAgg := false }

/-- The nodes of a chain that have the keys. -/
def MapRoot.matching (m : MapRoot pt.Val) (keys : List KeyData) : List (Entry pt.Val) :=
  ((m.hashes (keysHash env keys)).filter fun n => keysEqP env (m.node n).keys keys).map m.node

/-- The loop `stp_for_each_cpu` of `_stp_pmap_get`. -/
def Pmap.totals (p : Pmap pt cpus) (keys : List KeyData) : Totals pt :=
  (List.finRange cpus).foldl
    (fun s i => ((p.map i).matching keys).foldl (Totals.take (keysHash env keys)) s)
    ⟨p.agg, p.agg.find keys, (p.agg.find keys).isSome⟩

/-- The end of `_stp_pmap_get`. -/
def Totals.result (s : Totals pt) : pt.Ret :=
  match s.anode with
  | some n => if s.clearAgg then pt.null else pt.get (s.agg.node n).val
  | none => pt.null

/-- `_stp_pmap_get` -/
def Pmap.get (p : Pmap pt cpus) (keys : List KeyData) : Pmap pt cpus × pt.Ret :=
  ({ p with agg := (p.totals keys).agg }, (p.totals keys).result)

/-- One node in the loops of `_stp_pmap_agg`, from the chain number `hash`. -/
def aggNode (agg : MapRoot pt.Val) (hash : Nat) (ptr : Entry pt.Val) : Option (MapRoot pt.Val) :=
  match (agg.hashes hash).find? fun n => keysEqP env ptr.keys (agg.node n).keys with
  | some n => some (addTo agg n ptr.val)
  | none => (newAgg agg hash ptr).map Prod.snd

/-- The loops of `_stp_pmap_agg`, which stop where there is no node left. -/
def aggNodes : List (Nat × Entry pt.Val) → MapRoot pt.Val → MapRoot pt.Val × Bool
  | [], agg => (agg, true)
  | (hash, ptr) :: rest, agg =>
    match aggNode agg hash ptr with
    | none => (agg, false)
    | some agg => aggNodes rest agg

/-- The nodes of a map as `_stp_pmap_agg` walks them, chain by chain. -/
def MapRoot.walk {V : Type} (m : MapRoot V) : List (Nat × Entry V) :=
  (List.range hashTableSize).flatMap fun hash => (m.hashes hash).map fun n => (hash, m.node n)

/-- `_stp_pmap_agg` -/
def Pmap.aggregate (p : Pmap pt cpus) : Pmap pt cpus × Option (MapRoot pt.Val) :=
  let r := aggNodes ((List.finRange cpus).flatMap fun i => (p.map i).walk) p.agg.clear
  ({ p with agg := r.1 }, if r.2 then some r.1 else none)

/-- `_stp_pmap_set` and `_stp_pmap_add` -/
def Pmap.setWith (add : Bool) (p : Pmap pt cpus) (cpu : Fin cpus) (keys : List KeyData)
    (val : pt.Arg) : Pmap pt cpus × Int :=
  let r := (p.map cpu).setWith add keys val
  ({ p with map := Function.update p.map cpu r.1 }, r.2)

/-- `_stp_pmap_del` -/
def Pmap.del (p : Pmap pt cpus) (cpu : Fin cpus) (keys : List KeyData) : Pmap pt cpus :=
  { p with map := Function.update p.map cpu ((p.map cpu).del keys) }

/-- `_stp_pmap_clear` -/
def Pmap.clear (p : Pmap pt cpus) : Pmap pt cpus where
  map i := (p.map i).clear
  agg := p.agg.clear

/-- A call on a per-CPU map, with the CPU where it matters. -/
inductive PmapCall (cpus : Nat) (A : Type) where
  | set (cpu : Fin cpus) (keys : List KeyData) (val : A)
  | add (cpu : Fin cpus) (keys : List KeyData) (val : A)
  | del (cpu : Fin cpus) (keys : List KeyData)
  | get (keys : List KeyData)
  | agg
  | clear

/-- What a call returns. -/
inductive PmapResult (V R : Type) where
  | rc (n : Int)
  | val (v : R)
  | map (m : Option (MapRoot V))
  | nothing

/-- One call. -/
def Pmap.exec (p : Pmap pt cpus) : PmapCall cpus pt.Arg → Pmap pt cpus × PmapResult pt.Val pt.Ret
  | .set cpu keys val => ((p.setWith false cpu keys val).1, .rc (p.setWith false cpu keys val).2)
  | .add cpu keys val => ((p.setWith true cpu keys val).1, .rc (p.setWith true cpu keys val).2)
  | .del cpu keys => (p.del cpu keys, .rc 0)
  | .get keys => ((p.get keys).1, .val (p.get keys).2)
  | .agg => (p.aggregate.1, .map p.aggregate.2)
  | .clear => (p.clear, .nothing)

end Code

/-! ## What it is for -/

section Spec

variable {env : MapEnv} {pt : PmapType env} {cpus : Nat}

/-- What every CPU holds. -/
abbrev CpuMaps (pt : PmapType env) (cpus : Nat) := Fin cpus → KeyMap pt.Val

/-- The values of a key as one, if there are any. -/
def mergeAll : List pt.Val → Option pt.Val
  | [] => none
  | v :: vs => some (pt.merge v vs)

/-- The merge of what the CPUs hold under a key. -/
def mergedAt (F : CpuMaps pt cpus) (k : List KeyData) : Option pt.Val :=
  mergeAll ((List.finRange cpus).filterMap fun i => (F i).lookup k)

/-- What a get has to return. -/
def mergedGet (F : CpuMaps pt cpus) (keys : List KeyData) : pt.Ret :=
  ((mergedAt F (keys.map (cutKey env))).map pt.get).getD pt.null

/-- The keys that are present on at least one CPU. -/
def presentKeys (F : CpuMaps pt cpus) : Finset (List KeyData) :=
  Finset.univ.biUnion fun i => (F i).keys

/-- The map has exactly the nodes that `g` has values for. -/
def Shows {V : Type} (m : MapRoot V) (g : List KeyData → Option V) : Prop :=
  ∀ k v, g k = some v ↔ ∃ n ∈ m.head, (m.node n).keys = k ∧ (m.node n).val = v

/-- What a call does to the contents. -/
def stepSpec (N : Nat) (F : CpuMaps pt cpus) : PmapCall cpus pt.Arg → CpuMaps pt cpus
  | .set cpu keys val => Function.update F cpu (storeIn N false (F cpu) keys val).1
  | .add cpu keys val => Function.update F cpu (storeIn N true (F cpu) keys val).1
  | .del cpu keys => Function.update F cpu ((F cpu).erase (keys.map (cutKey env)))
  | .get _ => F
  | .agg => F
  | .clear => fun _ => ∅

/-- The result that a call has to have. -/
def AnswerRight (N : Nat) (F : CpuMaps pt cpus) :
    PmapCall cpus pt.Arg → PmapResult pt.Val pt.Ret → Prop
  | .set cpu keys val, r => r = .rc (storeIn N false (F cpu) keys val).2
  | .add cpu keys val, r => r = .rc (storeIn N true (F cpu) keys val).2
  | .del _ _, r => r = .rc 0
  | .get keys, r => r = .val (mergedGet F keys)
  | .agg, r => ∃ m, r = .map (some m) ∧ Shows m (mergedAt F)
  | .clear, r => r = .nothing

/-- Every call of the history gets the right result. -/
def RunRight (N : Nat) (p : Pmap pt cpus) (F : CpuMaps pt cpus) :
    List (PmapCall cpus pt.Arg) → Prop
  | [] => True
  | c :: cs => AnswerRight N F c (p.exec c).2 ∧ RunRight N (p.exec c).1 (stepSpec N F c) cs

/-- There are never more than `N` keys on all CPUs together. -/
def KeysFit (N : Nat) (F : CpuMaps pt cpus) : List (PmapCall cpus pt.Arg) → Prop
  | [] => (presentKeys F).card ≤ N
  | c :: cs => (presentKeys F).card ≤ N ∧ KeysFit N (stepSpec N F c) cs

instance decidableKeysFit (N : Nat) (cs : List (PmapCall cpus pt.Arg)) :
    ∀ F : CpuMaps pt cpus, Decidable (KeysFit N F cs) := by
  induction cs with
  | nil => exact fun F => inferInstanceAs (Decidable ((presentKeys F).card ≤ N))
  | cons c cs ih =>
    intro F
    exact inferInstanceAs (Decidable ((presentKeys F).card ≤ N ∧ KeysFit N (stepSpec N F c) cs))

/-- A get finds a node for the key in the aggregation map: the node of the key or a free one.
It does not need one where the right result is the null value. -/
def HasRoom (p : Pmap pt cpus) (F : CpuMaps pt cpus) (keys : List KeyData) : Prop :=
  (p.agg.find keys).isSome ∨ p.agg.pool ≠ [] ∨ mergedGet F keys = pt.null

/-- Every get of the history has room. -/
def GetsHaveRoom (N : Nat) (p : Pmap pt cpus) (F : CpuMaps pt cpus) :
    List (PmapCall cpus pt.Arg) → Prop
  | [] => True
  | c :: cs => (∀ keys, c = .get keys → HasRoom p F keys) ∧
      GetsHaveRoom N (p.exec c).1 (stepSpec N F c) cs

end Spec

/-! ## One map -/

section OneMap

variable {env : MapEnv} {pt : PmapType env} {N : Nat} {m : MapRoot pt.Val} {f : KeyMap pt.Val}

theorem cutKey_cutKey (k : KeyData) : cutKey env (cutKey env k) = cutKey env k := by
  cases k with
  | int64 v => rfl
  | str s => rw [cutKey, cutKey, strCopy, strCopy, take_take, min_self]

theorem map_cutKey_cutKey (keys : List KeyData) :
    (keys.map (cutKey env)).map (cutKey env) = keys.map (cutKey env) := by
  rw [map_map]
  exact map_congr_left fun k _ => cutKey_cutKey k

/-- The keys of a node are not cut again. -/
theorem MapInv.cut_keys (h : MapInv pt.toValueType N m) {n : NodeId} (hn : n ∈ m.head) :
    (m.node n).keys.map (cutKey env) = (m.node n).keys := by
  obtain ⟨keys, hkeys⟩ := h.cut n hn
  rw [hkeys, map_cutKey_cutKey]

/-- Of the nodes in a list, one at most has given keys. -/
theorem MapInv.filter_keys (h : MapInv pt.toValueType N m) (hr : Represents m f)
    {ids : List NodeId} (hnodup : ids.Nodup) (hsub : ∀ n ∈ ids, n ∈ m.head) {k : List KeyData}
    (hall : ∀ n ∈ m.head, (m.node n).keys = k → n ∈ ids) :
    ((ids.filter fun n => (m.node n).keys = k).map fun n => (m.node n).val) =
      (f.lookup k).toList := by
  cases hf : f.lookup k with
  | none =>
    have hnone : ids.filter (fun n => (m.node n).keys = k) = [] := by
      rw [filter_eq_nil_iff]
      intro n hn hk
      have := (hr k (m.node n).val).2 ⟨n, hsub n hn, by simpa using hk, rfl⟩
      rw [hf] at this
      cases this
    rw [hnone]
    rfl
  | some v =>
    obtain ⟨n, hn, hk, hv⟩ := (hr k v).1 hf
    have hone : ids.filter (fun n => (m.node n).keys = k) = [n] := by
      apply perm_singleton.1
      rw [perm_ext_iff_of_nodup (hnodup.filter _) (nodup_singleton n)]
      intro n'
      rw [mem_filter, mem_singleton, decide_eq_true_eq]
      constructor
      · rintro ⟨hn', hk'⟩
        exact h.distinct n' (hsub n' hn') n hn (hk'.trans hk.symm)
      · rintro rfl
        exact ⟨hall n' hn hk, hk⟩
    rw [hone, map_singleton, hv]
    rfl

/-- What a CPU adds to a get. -/
theorem MapInv.matching_eq (h : MapInv pt.toValueType N m) (hr : Represents m f)
    (keys : List KeyData) :
    (m.matching keys).map Entry.val = (f.lookup (keys.map (cutKey env))).toList ∧
      ∀ e ∈ m.matching keys, e.keys = keys.map (cutKey env) := by
  have hmatch : ∀ n ∈ m.hashes (keysHash env keys), keysEqP env (m.node n).keys keys =
      decide ((m.node n).keys = keys.map (cutKey env)) := by
    intro n hn
    obtain ⟨stored, hstored⟩ := h.cut n ((h.chain _ _).1 hn).1
    rw [Bool.eq_iff_iff, decide_eq_true_eq, hstored]
    exact keysEqP_cutKey stored keys
  unfold matching
  rw [filter_congr hmatch]
  constructor
  · rw [map_map]
    refine h.filter_keys hr (h.chain_nodup _) (fun n hn => ((h.chain _ _).1 hn).1) fun n hn hk => ?_
    rw [h.chain, hk, keysHash_cutKey]
    exact ⟨hn, rfl⟩
  · intro e he
    obtain ⟨n, hn, rfl⟩ := mem_map.1 he
    rw [mem_filter, decide_eq_true_eq] at hn
    exact hn.2

/-- The chains hold the nodes of the list. -/
theorem MapInv.chains (h : MapInv pt.toValueType N m) :
    ((range hashTableSize).flatMap m.hashes).Nodup ∧
      ∀ n, n ∈ (range hashTableSize).flatMap m.hashes ↔ n ∈ m.head := by
  constructor
  · rw [nodup_flatMap]
    refine ⟨fun b _ => h.chain_nodup b, nodup_range.imp fun hne n hn hn' => hne ?_⟩
    exact ((h.chain _ _).1 hn).2.symm.trans ((h.chain _ _).1 hn').2
  · intro n
    rw [mem_flatMap]
    constructor
    · rintro ⟨b, -, hn⟩
      exact ((h.chain b n).1 hn).1
    · intro hn
      exact ⟨keysHash env (m.node n).keys, mem_range.2 (keysHash_lt _), (h.chain _ _).2 ⟨hn, rfl⟩⟩

theorem MapRoot.walk_map_snd {V : Type} (m : MapRoot V) :
    m.walk.map Prod.snd = ((range hashTableSize).flatMap m.hashes).map m.node := by
  unfold walk
  rw [map_flatMap, map_flatMap]
  simp only [map_map]
  rfl

/-- What a CPU adds to the aggregation, key by key. -/
theorem MapInv.walk_eq (h : MapInv pt.toValueType N m) (hr : Represents m f) (k : List KeyData) :
    ((m.walk.map Prod.snd).filter fun e => e.keys = k).map Entry.val = (f.lookup k).toList := by
  rw [walk_map_snd, filter_map, map_map]
  exact h.filter_keys hr h.chains.1 (fun n hn => (h.chains.2 n).1 hn)
    fun n hn _ => (h.chains.2 n).2 hn

/-- The nodes that are walked are in their own chain, and have cut keys. -/
theorem MapInv.mem_walk (h : MapInv pt.toValueType N m) (hr : Represents m f)
    {x : Nat × Entry pt.Val} (hx : x ∈ m.walk) :
    x.1 = keysHash env x.2.keys ∧ x.2.keys.map (cutKey env) = x.2.keys ∧ x.2.keys ∈ f.keys := by
  unfold walk at hx
  rw [mem_flatMap] at hx
  obtain ⟨b, -, hx⟩ := hx
  obtain ⟨n, hn, rfl⟩ := mem_map.1 hx
  obtain ⟨hhead, hb⟩ := (h.chain b n).1 hn
  refine ⟨hb.symm, h.cut_keys hhead, ?_⟩
  rw [Finmap.mem_keys, ← Finmap.lookup_isSome, (hr _ _).2 ⟨n, hhead, rfl, rfl⟩]
  rfl

end OneMap

/-! ## The aggregation map -/

section Aggregation

variable {env : MapEnv} {pt : PmapType env} {N : Nat} {agg : MapRoot pt.Val} {g : KeyMap pt.Val}

theorem write_self {V : Type} (m : MapRoot V) (n : NodeId) :
    m.write n ⟨(m.node n).keys, (m.node n).val⟩ = m := by
  unfold write
  rw [update_eq_self]

theorem write_write {V : Type} (m : MapRoot V) (n : NodeId) (e e' : Entry V) :
    (m.write n e).write n e' = m.write n e' := by
  unfold write
  rw [update_idem]

theorem write_node {V : Type} (m : MapRoot V) (n : NodeId) (e : Entry V) :
    (m.write n e).node n = e := update_self _ _ _

theorem newAgg_grown {n : NodeId} {pool : List NodeId} (hpool : agg.pool = n :: pool)
    (e : Entry pt.Val) :
    newAgg agg (keysHash env e.keys) e =
      some (n, agg.grown n pool e.keys (pt.newAgg (agg.node n).val e.val)) := by
  unfold newAgg create
  rw [hpool]
  rfl

theorem newAgg_full (hpool : agg.pool = []) (hv : Nat) (e : Entry pt.Val) :
    newAgg agg hv e = none := by
  unfold newAgg create
  rw [hpool]

/-! ### One key -/

/-- Once there is a node that counts, the values of the other CPUs are added to it. -/
theorem foldl_take_some (hv : Nat) (n : NodeId) (es : List (Entry pt.Val)) :
    ∀ agg : MapRoot pt.Val, es.foldl (Totals.take hv) ⟨agg, some n, false⟩ =
      ⟨agg.write n ⟨(agg.node n).keys, (es.map Entry.val).foldl pt.addAgg (agg.node n).val⟩,
        some n, false⟩ := by
  induction es with
  | nil =>
    intro agg
    rw [foldl_nil, map_nil, foldl_nil, write_self]
  | cons e es ih =>
    intro agg
    show es.foldl (Totals.take hv) ⟨addTo agg n e.val, some n, false⟩ = _
    rw [ih]
    unfold addTo
    rw [write_write, write_node, map_cons, foldl_cons]

/-- Without a free node nothing is counted. -/
theorem foldl_take_full (hpool : agg.pool = []) (hv : Nat) (es : List (Entry pt.Val)) :
    es.foldl (Totals.take hv) ⟨agg, none, false⟩ = ⟨agg, none, false⟩ := by
  induction es with
  | nil => rfl
  | cons e es ih =>
    rw [foldl_cons, Totals.take]
    rw [newAgg_full hpool]
    exact ih

/-- What the nodes with the keys amount to, with `agg` in any state. -/
theorem foldl_take_spec (h : MapInv pt.toValueType N agg) {keys : List KeyData}
    {es : List (Entry pt.Val)} (hes : ∀ e ∈ es, e.keys = keys.map (cutKey env)) :
    MapInv pt.toValueType N (es.foldl (Totals.take (keysHash env keys))
        ⟨agg, agg.find keys, (agg.find keys).isSome⟩).agg ∧
      (es.foldl (Totals.take (keysHash env keys))
          ⟨agg, agg.find keys, (agg.find keys).isSome⟩).result =
        if (agg.find keys).isSome ∨ agg.pool ≠ [] then
          ((mergeAll (es.map Entry.val)).map pt.get).getD pt.null
        else pt.null := by
  cases es with
  | nil =>
    refine ⟨h, ?_⟩
    cases agg.find keys <;> simp [Totals.result, mergeAll]
  | cons e es =>
    cases hf : agg.find keys with
    | some n =>
      -- the node of the key is used again
      have hstart : (e :: es).foldl (Totals.take (keysHash env keys))
          ⟨agg, some n, (some n).isSome⟩ = es.foldl (Totals.take (keysHash env keys))
            ⟨addTo (agg.write n ⟨(agg.node n).keys, pt.clearNode (agg.node n).val⟩) n e.val,
              some n, false⟩ := rfl
      rw [hstart, foldl_take_some]
      refine ⟨((h.write_val _).write_val _).write_val _, ?_⟩
      rw [if_pos (.inl rfl)]
      unfold addTo
      simp only [Totals.result, write_node, Bool.false_eq_true, if_false, map_cons, mergeAll,
        Option.map_some, Option.getD_some, pt.foldl_clearNode]
    | none =>
      have hkeys := hes e mem_cons_self
      have hhash : keysHash env keys = keysHash env e.keys := by rw [hkeys, keysHash_cutKey]
      cases hpool : agg.pool with
      | nil =>
        have hfull := foldl_take_full hpool (keysHash env keys) (e :: es)
        rw [show (none : Option NodeId).isSome = false from rfl, hfull, if_neg (by simp)]
        exact ⟨h, rfl⟩
      | cons n pool =>
        -- a new node
        have hstart : (e :: es).foldl (Totals.take (keysHash env keys))
            ⟨agg, none, (none : Option NodeId).isSome⟩ = es.foldl (Totals.take (keysHash env keys))
              ⟨agg.grown n pool e.keys (pt.newAgg (agg.node n).val e.val), some n, false⟩ := by
          rw [foldl_cons, Totals.take]
          rw [hhash, newAgg_grown hpool]
          rfl
        have hnew : ∀ n' ∈ agg.head, (agg.node n').keys ≠ e.keys.map (cutKey env) := by
          rw [hkeys, map_cutKey_cutKey]
          exact (h.find_eq_none_iff keys).1 hf
        have hnode : ((agg.grown n pool e.keys (pt.newAgg (agg.node n).val e.val)).node n).val =
            pt.newAgg (agg.node n).val e.val := by
          simp [grown]
        rw [hstart, foldl_take_some]
        refine ⟨(h.grown hpool hnew _).write_val _, ?_⟩
        rw [if_pos (.inr (cons_ne_nil _ _))]
        simp only [Totals.result, write_node, Bool.false_eq_true, if_false, map_cons, mergeAll,
          Option.map_some, Option.getD_some, hnode, pt.foldl_newAgg]

/-! ### All keys -/

theorem keysEqP_comm (ks ls : List KeyData) : keysEqP env ks ls = keysEqP env ls ks := by
  induction ks generalizing ls with
  | nil => cases ls <;> rfl
  | cons k ks ih =>
    cases ls with
    | nil => rfl
    | cons l ls =>
      have hkey : keyEqP env k l = keyEqP env l k := by
        cases k <;> cases l <;> simp [keyEqP, eq_comm]
      rw [keysEqP, keysEqP, ih, hkey]

/-- A value that joins what is there under its key. -/
def joinValue (o : Option pt.Val) (v : pt.Val) : pt.Val :=
  match o with
  | some w => pt.addAgg w v
  | none => pt.merge v []

/-- A node that joins the aggregation. -/
def joinNode (g : KeyMap pt.Val) (e : Entry pt.Val) : KeyMap pt.Val :=
  g.insert e.keys (joinValue (g.lookup e.keys) e.val)

theorem lookup_foldl_joinNode (es : List (Entry pt.Val)) (k : List KeyData) :
    ∀ g : KeyMap pt.Val, (es.foldl joinNode g).lookup k =
      ((es.filter fun e => e.keys = k).map Entry.val).foldl (fun o v => some (joinValue o v))
        (g.lookup k) := by
  induction es with
  | nil => exact fun _ => rfl
  | cons e es ih =>
    intro g
    rw [foldl_cons, ih, joinNode]
    by_cases hk : e.keys = k
    · rw [filter_cons_of_pos (by simpa using hk), map_cons, foldl_cons, hk,
        Finmap.lookup_insert]
    · rw [filter_cons_of_neg (by simpa using hk), Finmap.lookup_insert_of_ne _ (Ne.symm hk)]

theorem foldl_joinValue (vs : List pt.Val) :
    vs.foldl (fun o v => some (joinValue o v)) none = mergeAll vs := by
  have hsome : ∀ (vs : List pt.Val) (w : pt.Val),
      vs.foldl (fun o v => some (joinValue o v)) (some w) = some (vs.foldl pt.addAgg w) := by
    intro vs
    induction vs with
    | nil => exact fun _ => rfl
    | cons v vs ih => exact fun w => ih (pt.addAgg w v)
  cases vs with
  | nil => rfl
  | cons v vs =>
    rw [foldl_cons, hsome, mergeAll]
    show some (vs.foldl pt.addAgg (pt.merge v [])) = _
    rw [← pt.foldl_newAgg v v [], foldl_nil, pt.foldl_newAgg]

theorem aggNode_spec (h : MapInv pt.toValueType N agg) (hr : Represents agg g) {e : Entry pt.Val}
    (hcut : e.keys.map (cutKey env) = e.keys) :
    (∀ agg', aggNode agg (keysHash env e.keys) e = some agg' →
        MapInv pt.toValueType N agg' ∧ Represents agg' (joinNode g e)) ∧
      (e.keys ∈ g.keys ∨ g.keys.card < N → (aggNode agg (keysHash env e.keys) e).isSome) := by
  have hlookup := hr.lookup h e.keys
  rw [hcut] at hlookup
  have hfind : ((agg.hashes (keysHash env e.keys)).find? fun n =>
      keysEqP env e.keys (agg.node n).keys) = agg.find e.keys := by
    unfold find
    simp only [keysEqP_comm e.keys]
  unfold aggNode joinNode
  rw [hfind, hlookup]
  cases hf : agg.find e.keys with
  | some n =>
    obtain ⟨hn, hk⟩ := (h.find_eq_some_iff e.keys n).1 hf
    rw [hcut] at hk
    refine ⟨?_, fun _ => rfl⟩
    rintro agg' ⟨⟩
    refine ⟨h.write_val _, ?_⟩
    have := hr.write_val h hn (pt.addAgg (agg.node n).val e.val)
    rw [hk] at this
    unfold addTo
    rw [hk]
    exact this
  | none =>
    cases hpool : agg.pool with
    | nil =>
      rw [newAgg_full hpool]
      refine ⟨fun agg' hagg' => (by cases hagg'), fun hroom => ?_⟩
      have hlen := h.length_add
      rw [hpool, length_nil, ← hr.card_keys h] at hlen
      rw [hf, Option.map_none, Finmap.lookup_eq_none] at hlookup
      rcases hroom with hmem | hlt
      · exact absurd (Finmap.mem_keys.1 hmem) hlookup
      · omega
    | cons n pool =>
      rw [newAgg_grown hpool]
      refine ⟨?_, fun _ => rfl⟩
      rintro agg' ⟨⟩
      have hnew := (h.find_eq_none_iff e.keys).1 hf
      refine ⟨h.grown hpool hnew _, ?_⟩
      have := hr.written (h.written hpool hnew (pt.newAgg (agg.node n).val e.val))
      rw [hcut] at this
      rw [Option.map_none, joinValue, ← pt.foldl_newAgg (agg.node n).val e.val [], foldl_nil]
      exact this

/-- The loops of `_stp_pmap_agg`; they end early only where there are more keys than nodes. -/
theorem aggNodes_spec (es : List (Nat × Entry pt.Val)) :
    ∀ {agg : MapRoot pt.Val} {g : KeyMap pt.Val}, MapInv pt.toValueType N agg → Represents agg g →
      (∀ x ∈ es, x.1 = keysHash env x.2.keys ∧ x.2.keys.map (cutKey env) = x.2.keys) →
      MapInv pt.toValueType N (aggNodes es agg).1 ∧
        ((aggNodes es agg).2 = true →
          Represents (aggNodes es agg).1 ((es.map Prod.snd).foldl joinNode g)) ∧
        ∀ P : Finset (List KeyData), P.card ≤ N → g.keys ⊆ P → (∀ x ∈ es, x.2.keys ∈ P) →
          (aggNodes es agg).2 = true := by
  induction es with
  | nil => exact fun h hr _ => ⟨h, fun _ => hr, fun _ _ _ _ => rfl⟩
  | cons x es ih =>
    intro agg g h hr hes
    obtain ⟨hash, e⟩ := x
    obtain ⟨hhash, hcut⟩ := hes _ mem_cons_self
    dsimp only at hhash hcut
    subst hhash
    obtain ⟨hsome, hroom⟩ := aggNode_spec h hr hcut
    rw [aggNodes]
    cases hagg : aggNode agg (keysHash env e.keys) e with
    | none =>
      refine ⟨h, fun hf => (by cases hf), fun P hP hsub hmem => ?_⟩
      rw [hagg] at hroom
      have he : e.keys ∈ P := hmem _ mem_cons_self
      by_cases hin : e.keys ∈ g.keys
      · cases hroom (.inl hin)
      · -- the new key is one more of those in `P`
        have hcard : (insert e.keys g.keys).card ≤ P.card :=
          Finset.card_le_card (Finset.insert_subset he hsub)
        rw [Finset.card_insert_of_notMem hin] at hcard
        cases hroom (.inr (by omega))
    | some agg' =>
      obtain ⟨hinv, hrep⟩ := hsome agg' hagg
      obtain ⟨h1, h2, h3⟩ := ih hinv hrep fun x hx => hes x (mem_cons_of_mem _ hx)
      refine ⟨h1, h2, fun P hP hsub hmem => h3 P hP ?_ fun x hx => hmem x (mem_cons_of_mem _ hx)⟩
      intro k hk
      rw [Finmap.mem_keys, joinNode, Finmap.mem_insert] at hk
      rcases hk with rfl | hk
      · exact hmem _ mem_cons_self
      · exact hsub (Finmap.mem_keys.2 hk)

end Aggregation

/-! ## The calls -/

section Calls

variable {env : MapEnv} {pt : PmapType env} {cpus N : Nat} {p : Pmap pt cpus} {F : CpuMaps pt cpus}

/-- Every map is in order, and the CPUs hold `F`. The contents of `agg` do not matter. -/
structure PmapInv (N : Nat) (p : Pmap pt cpus) (F : CpuMaps pt cpus) : Prop where
  map : ∀ i, MapInv pt.toValueType N (p.map i)
  represents : ∀ i, Represents (p.map i) (F i)
  agg : MapInv pt.toValueType N p.agg

theorem PmapInv.new (N : Nat) (memory : Option (Fin cpus) → NodeId → Entry pt.Val) :
    PmapInv N (Pmap.new pt cpus N memory) fun _ => ∅ where
  map _ := MapInv.new N _
  represents _ := represents_new N _
  agg := MapInv.new N _

/-- A change on one CPU. -/
theorem PmapInv.update (h : PmapInv N p F) (cpu : Fin cpus) {m : MapRoot pt.Val}
    {f : KeyMap pt.Val} (hm : MapInv pt.toValueType N m) (hf : Represents m f) :
    PmapInv N { p with map := Function.update p.map cpu m } (Function.update F cpu f) := by
  refine ⟨fun i => ?_, fun i => ?_, h.agg⟩
  · by_cases hi : i = cpu
    · subst hi
      simpa using hm
    · simpa [hi] using h.map i
  · by_cases hi : i = cpu
    · subst hi
      simpa using hf
    · simpa [hi] using h.represents i

theorem PmapInv.with_agg (h : PmapInv N p F) {agg : MapRoot pt.Val}
    (hagg : MapInv pt.toValueType N agg) : PmapInv N { p with agg } F :=
  ⟨h.map, h.represents, hagg⟩

/-- The nodes that a get runs over. -/
theorem Pmap.totals_eq (p : Pmap pt cpus) (keys : List KeyData) :
    p.totals keys = ((finRange cpus).flatMap fun i => (p.map i).matching keys).foldl
      (Totals.take (keysHash env keys)) ⟨p.agg, p.agg.find keys, (p.agg.find keys).isSome⟩ := by
  rw [Pmap.totals, foldl_flatMap]

theorem PmapInv.get_spec (h : PmapInv N p F) (keys : List KeyData) :
    PmapInv N (p.get keys).1 F ∧
      (p.get keys).2 = if (p.agg.find keys).isSome ∨ p.agg.pool ≠ [] then mergedGet F keys
        else pt.null := by
  have hes : ∀ e ∈ (finRange cpus).flatMap fun i => (p.map i).matching keys,
      e.keys = keys.map (cutKey env) := by
    intro e he
    obtain ⟨i, -, hi⟩ := mem_flatMap.1 he
    exact ((h.map i).matching_eq (h.represents i) keys).2 e hi
  have hvals : ((finRange cpus).flatMap fun i => (p.map i).matching keys).map Entry.val =
      (finRange cpus).filterMap fun i => (F i).lookup (keys.map (cutKey env)) := by
    rw [map_flatMap, filterMap_eq_flatMap_toList]
    exact flatMap_congr fun i _ => ((h.map i).matching_eq (h.represents i) keys).1
  obtain ⟨hinv, hres⟩ := foldl_take_spec h.agg hes
  unfold Pmap.get mergedGet mergedAt
  rw [Pmap.totals_eq, hres, hvals]
  exact ⟨h.with_agg hinv, rfl⟩

/-- A get is right exactly if it has room. -/
theorem PmapInv.get_eq_iff (h : PmapInv N p F) (keys : List KeyData) :
    (p.get keys).2 = mergedGet F keys ↔ HasRoom p F keys := by
  rw [(h.get_spec keys).2]
  unfold HasRoom
  by_cases hroom : (p.agg.find keys).isSome ∨ p.agg.pool ≠ []
  · rw [if_pos hroom, ← or_assoc]
    exact iff_of_true rfl (.inl hroom)
  · rw [if_neg hroom, ← or_assoc, or_iff_right hroom]
    exact eq_comm

theorem mem_presentKeys {k : List KeyData} : k ∈ presentKeys F ↔ ∃ i, k ∈ F i := by
  simp [presentKeys, Finmap.mem_keys]

theorem PmapInv.aggregate_spec (h : PmapInv N p F) :
    PmapInv N p.aggregate.1 F ∧
      (∀ m, p.aggregate.2 = some m → Shows m (mergedAt F)) ∧
      ((presentKeys F).card ≤ N → p.aggregate.2.isSome) := by
  have hes : ∀ x ∈ (finRange cpus).flatMap fun i => (p.map i).walk,
      ∃ i, x.1 = keysHash env x.2.keys ∧ x.2.keys.map (cutKey env) = x.2.keys ∧
        x.2.keys ∈ (F i).keys := by
    intro x hx
    obtain ⟨i, -, hi⟩ := mem_flatMap.1 hx
    exact ⟨i, (h.map i).mem_walk (h.represents i) hi⟩
  have hvals : ∀ k, (((((finRange cpus).flatMap fun i => (p.map i).walk).map Prod.snd).filter
      fun e => e.keys = k).map Entry.val) =
        (finRange cpus).filterMap fun i => (F i).lookup k := by
    intro k
    rw [map_flatMap, filter_flatMap, map_flatMap, filterMap_eq_flatMap_toList]
    exact flatMap_congr fun i _ => (h.map i).walk_eq (h.represents i) k
  obtain ⟨hinv, hrep, hall⟩ := aggNodes_spec _ h.agg.clear (represents_clear p.agg)
    fun x hx => ⟨(hes x hx).choose_spec.1, (hes x hx).choose_spec.2.1⟩
  unfold Pmap.aggregate
  refine ⟨h.with_agg hinv, fun m hm => ?_, fun hcard => ?_⟩
  · dsimp only at hm
    by_cases hok : (aggNodes ((finRange cpus).flatMap fun i => (p.map i).walk) p.agg.clear).2 = true
    · rw [if_pos hok, Option.some_inj] at hm
      subst hm
      intro k v
      rw [← hrep hok, lookup_foldl_joinNode, hvals, Finmap.lookup_empty, foldl_joinValue, mergedAt]
    · rw [if_neg hok] at hm
      cases hm
  · dsimp only
    rw [if_pos (hall (presentKeys F) hcard (by simp) fun x hx => ?_)]
    · rfl
    · obtain ⟨i, -, -, hk⟩ := hes x hx
      exact mem_presentKeys.2 ⟨i, Finmap.mem_keys.1 hk⟩

theorem PmapInv.setWith (h : PmapInv N p F) (add : Bool) (cpu : Fin cpus) (keys : List KeyData)
    (val : pt.Arg) :
    PmapInv N (p.setWith add cpu keys val).1 (Function.update F cpu (storeIn N add (F cpu) keys val).1) ∧
      (p.setWith add cpu keys val).2 = (storeIn N add (F cpu) keys val).2 := by
  obtain ⟨hinv, hrep, hrc⟩ := setWith_refines (h.map cpu) (h.represents cpu) add keys val
  exact ⟨h.update cpu hinv hrep, hrc⟩

/-- One call: the CPUs hold what they have to, and the result is right exactly if a get has
room. -/
theorem PmapInv.exec_spec (h : PmapInv N p F) (hfit : (presentKeys F).card ≤ N)
    (c : PmapCall cpus pt.Arg) :
    PmapInv N (p.exec c).1 (stepSpec N F c) ∧
      (AnswerRight N F c (p.exec c).2 ↔ ∀ keys, c = .get keys → HasRoom p F keys) := by
  cases c with
  | set cpu keys val | add cpu keys val =>
    obtain ⟨hinv, hrc⟩ := h.setWith _ cpu keys val
    exact ⟨hinv, iff_of_true (congrArg PmapResult.rc hrc) (by rintro _ ⟨⟩)⟩
  | del cpu keys =>
    obtain ⟨hinv, hrep⟩ := del_refines (h.map cpu) (h.represents cpu) keys
    exact ⟨h.update cpu hinv hrep, iff_of_true rfl (by rintro _ ⟨⟩)⟩
  | get keys =>
    refine ⟨(h.get_spec keys).1, ?_⟩
    show PmapResult.val (p.get keys).2 = .val (mergedGet F keys) ↔ _
    rw [PmapResult.val.injEq, h.get_eq_iff]
    constructor
    · rintro hroom _ ⟨⟩
      exact hroom
    · exact fun hroom => hroom keys rfl
  | agg =>
    obtain ⟨hinv, hshows, hsome⟩ := h.aggregate_spec
    refine ⟨hinv, iff_of_true ?_ (by rintro _ ⟨⟩)⟩
    obtain ⟨m, hm⟩ := Option.isSome_iff_exists.1 (hsome hfit)
    exact ⟨m, congrArg PmapResult.map hm, hshows m hm⟩
  | clear =>
    refine ⟨⟨fun i => (h.map i).clear, fun i => represents_clear _, h.agg.clear⟩,
      iff_of_true rfl (by rintro _ ⟨⟩)⟩

theorem KeysFit.card_le {cs : List (PmapCall cpus pt.Arg)} (h : KeysFit N F cs) :
    (presentKeys F).card ≤ N := by
  cases cs with
  | nil => exact h
  | cons c cs => exact h.1

theorem PmapInv.run_spec (cs : List (PmapCall cpus pt.Arg)) :
    ∀ {p : Pmap pt cpus} {F : CpuMaps pt cpus}, PmapInv N p F → KeysFit N F cs →
      (RunRight N p F cs ↔ GetsHaveRoom N p F cs) := by
  induction cs with
  | nil => exact fun _ _ => Iff.rfl
  | cons c cs ih =>
    intro p F h hfit
    obtain ⟨hinv, hright⟩ := h.exec_spec hfit.card_le c
    exact and_congr hright (ih hinv hfit.2)

/-- One call, also on maps that are full. -/
theorem PmapInv.exec (h : PmapInv N p F) (c : PmapCall cpus pt.Arg) :
    PmapInv N (p.exec c).1 (stepSpec N F c) := by
  cases c with
  | set cpu keys val | add cpu keys val => exact (h.setWith _ cpu keys val).1
  | del cpu keys =>
    obtain ⟨hinv, hrep⟩ := del_refines (h.map cpu) (h.represents cpu) keys
    exact h.update cpu hinv hrep
  | get keys => exact (h.get_spec keys).1
  | agg => exact h.aggregate_spec.1
  | clear => exact ⟨fun i => (h.map i).clear, fun i => represents_clear _, h.agg.clear⟩

/-- After every run, also one in which maps overflow, the nodes are where they belong and the CPUs
hold what they have to. A get then returns the merge of it or nothing, and so does an aggregation. -/
theorem pmap_run_merges (memory : Option (Fin cpus) → NodeId → Entry pt.Val)
    (cs : List (PmapCall cpus pt.Arg)) :
    let p := cs.foldl (fun p c => (p.exec c).1) (Pmap.new pt cpus N memory)
    let F := cs.foldl (stepSpec N) fun _ => ∅
    PmapInv N p F ∧ (∀ keys, (p.get keys).2 = mergedGet F keys ∨ (p.get keys).2 = pt.null) ∧
      ∀ m, p.aggregate.2 = some m → Shows m (mergedAt F) := by
  intro p F
  have h : PmapInv N p F := by
    induction cs using reverseRecOn with
    | nil => exact .new N memory
    | append_singleton cs c ih =>
      simp only [p, F, foldl_append]
      exact ih.exec c
  refine ⟨h, fun keys => ?_, h.aggregate_spec.2.1⟩
  rw [(h.get_spec keys).2]
  exact ite_eq_or_eq _ _ _

end Calls

/-- From a new per-CPU map on, all results are right exactly if every get has room. -/
theorem pmap_run_right_iff {env : MapEnv} (pt : PmapType env) (cpus N : Nat)
    (memory : Option (Fin cpus) → NodeId → Entry pt.Val) (calls : List (PmapCall cpus pt.Arg))
    (h : KeysFit N (fun _ => ∅) calls) :
    RunRight N (Pmap.new pt cpus N memory) (fun _ => ∅) calls ↔
      GetsHaveRoom N (Pmap.new pt cpus N memory) (fun _ => ∅) calls :=
  (PmapInv.new N memory).run_spec calls h

/-- A build with `MAP_STRING_LENGTH` 128. -/
def plainEnv : MapEnv where
  stringLength := 128
  six_le := by decide
  hashLong v := v.toNat % 256
  hashLong_lt v := Nat.mod_lt _ (by decide)

/-- Number arrays as they are before anything is stored. -/
def blankMemory {cpus : Nat} (_ : Option (Fin cpus)) (_ : NodeId) : Entry (int64Pmap plainEnv).Val :=
  ⟨[], (0 : I64)⟩

/-- Two CPUs add to one key. -/
def sumCalls : List (PmapCall 2 (int64Pmap plainEnv).Arg) :=
  [.add 0 [.int64 1] (5 : I64), .add 1 [.int64 1] (7 : I64), .get [.int64 1], .agg]

theorem pmap_run_right_iff_sum :
    KeysFit 1 (fun _ => ∅) sumCalls ∧
      (RunRight 1 (Pmap.new (int64Pmap plainEnv) 2 1 blankMemory) (fun _ => ∅) sumCalls ↔
        GetsHaveRoom 1 (Pmap.new (int64Pmap plainEnv) 2 1 blankMemory) (fun _ => ∅) sumCalls) := by
  have h : KeysFit 1 (fun _ => ∅) sumCalls := by decide
  exact ⟨h, pmap_run_right_iff _ _ _ _ _ h⟩

/-- The first key is looked up and deleted, and then the second one is stored. -/
def forgetCalls : List (PmapCall 1 (int64Pmap plainEnv).Arg) :=
  [.set 0 [.int64 1] (5 : I64), .get [.int64 1], .del 0 [.int64 1], .set 0 [.int64 2] (7 : I64),
    .get [.int64 2]]

theorem pmap_get_loses_value :
    KeysFit 1 (fun _ => ∅) forgetCalls ∧
      ¬ RunRight 1 (Pmap.new (int64Pmap plainEnv) 1 1 blankMemory) (fun _ => ∅) forgetCalls := by
  constructor
  · decide
  · rintro ⟨-, -, -, -, hget, -⟩
    have hval : (0 : I64) = 7 := PmapResult.val.inj hget
    exact absurd hval (by decide)

/-! ## Deleting an element of an array of statistics -/

section Delete

variable {env : MapEnv} {st : Hist} {cpus N : Nat} {p : Pmap (statPmap env st) cpus}
  {F : CpuMaps (statPmap env st) cpus}

/-- The statistic that the code for `a[k]` works on, `NULL` where there is none. -/
def Pmap.stat (p : Pmap (statPmap env st) cpus) (keys : List KeyData) :
    Option (StatData st.buckets) := (p.get keys).2

/-- `k in a`, from `mapvar::exists` -/
def Pmap.contains (p : Pmap (statPmap env st) cpus) (keys : List KeyData) : Bool :=
  (p.stat keys).isSome

/-- `@count(a[k])`, from `visit_stat_op` -/
def Pmap.count (p : Pmap (statPmap env st) cpus) (keys : List KeyData) : I64 :=
  match p.stat keys with
  | none => 0
  | some agg => agg.count

/-- The elements that a `foreach` visits; there are none where the aggregation overflows. -/
def Pmap.visited (p : Pmap (statPmap env st) cpus) : List (Entry (statPmap env st).Val) :=
  match p.aggregate.2 with
  | none => []
  | some m => m.head.map m.node

/-- `a[k] <<< v`, one after the other. -/
def Pmap.addAll (p : Pmap (statPmap env st) cpus) (adds : List (Fin cpus × List KeyData × I64)) :
    Pmap (statPmap env st) cpus :=
  adds.foldl (fun p a => (p.setWith true a.1 a.2.1 a.2.2).1) p

/-- The element is gone from `p'`, and the others are as they are in `p`. -/
structure Deleted (p p' : Pmap (statPmap env st) cpus) (keys : List KeyData) : Prop where
  not_contains : p'.contains keys = false
  count_eq_zero : p'.count keys = 0
  not_visited : ∀ e ∈ p'.visited, e.keys ≠ keys.map (cutKey env)
  stat_eq : ∀ keys', keys'.map (cutKey env) ≠ keys.map (cutKey env) → p'.stat keys' = p.stat keys'
  visited_iff : p.aggregate.2.isSome → p'.aggregate.2.isSome ∧
    ∀ e : Entry (statPmap env st).Val, e.keys ≠ keys.map (cutKey env) →
      (e ∈ p'.visited ↔ e ∈ p.visited)

theorem mergedAt_eq_none_iff {pt : PmapType env} {F : CpuMaps pt cpus} {k : List KeyData} :
    mergedAt F k = none ↔ ∀ i, k ∉ F i := by
  have hnil : mergedAt F k = none ↔
      (finRange cpus).filterMap (fun i => (F i).lookup k) = [] := by
    unfold mergedAt
    cases (finRange cpus).filterMap fun i => (F i).lookup k <;> simp [mergeAll]
  rw [hnil, filterMap_eq_nil_iff]
  simp [Finmap.lookup_eq_none]

theorem mergedAt_update_ne {pt : PmapType env} {F : CpuMaps pt cpus} (cpu : Fin cpus)
    {k k' : List KeyData} (hne : k' ≠ k) :
    mergedAt (Function.update F cpu ((F cpu).erase k)) k' = mergedAt F k' := by
  unfold mergedAt
  congr 1
  apply filterMap_congr
  intro i _
  by_cases hi : i = cpu
  · subst hi
    rw [update_self, Finmap.lookup_erase_ne hne]
  · rw [update_of_ne hi]

theorem PmapInv.del (h : PmapInv N p F) (cpu : Fin cpus) (keys : List KeyData) :
    PmapInv N (p.del cpu keys)
      (Function.update F cpu ((F cpu).erase (keys.map (cutKey env)))) := by
  obtain ⟨hinv, hrep⟩ := del_refines (h.map cpu) (h.represents cpu) keys
  exact h.update cpu hinv hrep

theorem PmapInv.mem_visited (h : PmapInv N p F) (hok : p.aggregate.2.isSome)
    (e : Entry (statPmap env st).Val) : e ∈ p.visited ↔ mergedAt F e.keys = some e.val := by
  obtain ⟨m, hm⟩ := Option.isSome_iff_exists.1 hok
  unfold Pmap.visited
  rw [hm, h.aggregate_spec.2.1 m hm]
  rw [mem_map]
  refine exists_congr fun n => and_congr_right fun _ => ?_
  constructor
  · rintro rfl
    exact ⟨rfl, rfl⟩
  · rintro ⟨hk, hv⟩
    exact congrArg₂ Entry.mk hk hv

/-- The aggregation has room for all keys if it comes to its end. -/
theorem PmapInv.aggregate_isSome_iff (h : PmapInv N p F) :
    p.aggregate.2.isSome ↔ (presentKeys F).card ≤ N := by
  refine ⟨fun hok => ?_, h.aggregate_spec.2.2⟩
  obtain ⟨m, hm⟩ := Option.isSome_iff_exists.1 hok
  have hagg : m = p.aggregate.1.agg := by
    unfold Pmap.aggregate at hm ⊢
    dsimp only at hm ⊢
    split at hm
    · exact (Option.some.inj hm).symm
    · cases hm
  have hinv := h.aggregate_spec.1.agg
  rw [← hagg] at hinv
  have hsub : presentKeys F ⊆ (m.head.map fun n => (m.node n).keys).toFinset := by
    intro k hk
    obtain ⟨i, hi⟩ := mem_presentKeys.1 hk
    have hne : mergedAt F k ≠ none := fun hnone => mergedAt_eq_none_iff.1 hnone i hi
    obtain ⟨v, hv⟩ := Option.ne_none_iff_exists'.1 hne
    obtain ⟨n, hn, hkeys, -⟩ := (h.aggregate_spec.2.1 m hm k v).1 hv
    rw [mem_toFinset, mem_map]
    exact ⟨n, hn, hkeys⟩
  calc (presentKeys F).card ≤ ((m.head.map fun n => (m.node n).keys).toFinset).card :=
        Finset.card_le_card hsub
    _ ≤ (m.head.map fun n => (m.node n).keys).length := toFinset_card_le _
    _ ≤ N := by
      rw [length_map]
      have := hinv.length_add
      omega

/-- In any state: an element that no other CPU holds is deleted. -/
theorem PmapInv.deleted (h : PmapInv N p F) {cpu : Fin cpus} {keys : List KeyData}
    (halone : ∀ i, i ≠ cpu → keys.map (cutKey env) ∉ F i) : Deleted p (p.del cpu keys) keys := by
  have h' := h.del cpu keys
  have hnone : mergedAt (Function.update F cpu ((F cpu).erase (keys.map (cutKey env))))
      (keys.map (cutKey env)) = none := by
    rw [mergedAt_eq_none_iff]
    intro i
    by_cases hi : i = cpu
    · subst hi
      rw [update_self]
      exact Finmap.notMem_erase_self
    · rw [update_of_ne hi]
      exact halone i hi
  have hstat : (p.del cpu keys).stat keys = none := by
    unfold Pmap.stat
    rw [(h'.get_spec keys).2, mergedGet, hnone]
    exact ite_self _
  refine ⟨?_, ?_, fun e he hk => ?_, fun keys' hne => ?_, fun hok => ?_⟩
  · rw [Pmap.contains, hstat, Option.isSome_none]
  · rw [Pmap.count, hstat]
  · cases hok : (p.del cpu keys).aggregate.2 with
    | none =>
      rw [Pmap.visited, hok] at he
      cases he
    | some m =>
      rw [h'.mem_visited (by rw [hok]; rfl), hk, hnone] at he
      cases he
  · unfold Pmap.stat
    rw [(h'.get_spec keys').2, (h.get_spec keys').2, mergedGet, mergedGet, mergedAt_update_ne cpu hne]
    rfl
  · have hok' : (p.del cpu keys).aggregate.2.isSome := by
      rw [h.aggregate_isSome_iff] at hok
      rw [h'.aggregate_isSome_iff]
      refine (Finset.card_le_card fun k hk => ?_).trans hok
      obtain ⟨i, hi⟩ := mem_presentKeys.1 hk
      refine mem_presentKeys.2 ⟨i, ?_⟩
      by_cases hcpu : i = cpu
      · subst hcpu
        rw [update_self] at hi
        exact (Finmap.mem_erase.1 hi).2
      · rwa [update_of_ne hcpu] at hi
    refine ⟨hok', fun e hne => ?_⟩
    rw [h'.mem_visited hok', h.mem_visited hok, mergedAt_update_ne cpu hne]

/-- Additions leave the aggregation map as it is. -/
theorem addAll_spec (adds : List (Fin cpus × List KeyData × I64)) :
    ∀ {p : Pmap (statPmap env st) cpus} {F : CpuMaps (statPmap env st) cpus}, PmapInv N p F →
      (∃ F', PmapInv N (p.addAll adds) F') ∧ (p.addAll adds).agg = p.agg := by
  induction adds with
  | nil => exact fun h => ⟨⟨_, h⟩, rfl⟩
  | cons a adds ih =>
    intro p F h
    exact ih (h.setWith true a.1 a.2.1 a.2.2).1

/-- `delete a[k]` deletes the element exactly if no other CPU has added to it. -/
theorem delete_deletes_iff (memory : Option (Fin cpus) → NodeId → Entry (statPmap env st).Val)
    (adds : List (Fin cpus × List KeyData × I64)) (cpu : Fin cpus) (keys : List KeyData) :
    let p := (Pmap.new (statPmap env st) cpus N memory).addAll adds
    Deleted p (p.del cpu keys) keys ↔ ∀ i, i ≠ cpu → (p.map i).find keys = none := by
  intro p
  obtain ⟨⟨F, h⟩, hagg⟩ := addAll_spec adds (PmapInv.new N memory)
  have hfind : ∀ i, (p.map i).find keys = none ↔ keys.map (cutKey env) ∉ F i := by
    intro i
    have := (h.represents i).lookup (h.map i) keys
    rw [← Finmap.lookup_eq_none, this, Option.map_eq_none_iff]
  constructor
  · intro hdel i hi
    by_contra hstored
    -- a new aggregation map has a free node
    have hroom : (p.del cpu keys).agg.pool ≠ [] := by
      obtain ⟨n, hn⟩ := Option.ne_none_iff_exists'.1 hstored
      have hlt := ((h.map i).mem_iff n).1
        (mem_append_left _ (((h.map i).find_eq_some_iff keys n).1 hn).1)
      show p.agg.pool ≠ []
      rw [show p.agg = _ from hagg]
      apply ne_nil_of_length_pos
      simp only [Pmap.new, MapRoot.new, length_reverse, length_range]
      exact Nat.zero_lt_of_lt hlt
    have hmem : mergedAt (Function.update F cpu ((F cpu).erase (keys.map (cutKey env))))
        (keys.map (cutKey env)) ≠ none := by
      intro hnone
      have := mergedAt_eq_none_iff.1 hnone i
      rw [update_of_ne hi] at this
      exact hstored ((hfind i).2 this)
    obtain ⟨v, hv⟩ := Option.ne_none_iff_exists'.1 hmem
    have hgone := hdel.not_contains
    unfold Pmap.contains Pmap.stat at hgone
    rw [((h.del cpu keys).get_spec keys).2, if_pos (.inr hroom), mergedGet, hv] at hgone
    cases hgone
  · exact fun halone => h.deleted fun i hi => (hfind i).1 (halone i hi)

end Delete

/-- One CPU adds to an element, and another one deletes it. -/
theorem delete_on_other_cpu :
    let p := (Pmap.new (statPmap plainEnv noHist) 2 1 fun _ _ => ⟨[], ⟨0, 0, 0, 0, fun _ => 0⟩⟩).addAll
      [(0, [.int64 1], 5)]
    ¬ Deleted p (p.del 1 [.int64 1]) [.int64 1] := by
  intro p hdel
  exact absurd hdel.not_contains (by decide)

end Systemtap.Runtime
