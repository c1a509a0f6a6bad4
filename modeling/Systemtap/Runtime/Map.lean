import Systemtap.Runtime.Sort

/-!
# Maps

The hash table of `map.c` and the operations that `map-gen.c` generates for each key and value
type. All nodes are made with the map. A node is in the list `head` and in the chain of its
hash value while it holds a key, and in the list `pool` otherwise; the chains and the lists
run through the nodes themselves, so that taking a node out of its chain needs no more than
the node.

String keys are cut to `MAP_STRING_LENGTH - 1` bytes when they are stored, but what is hashed
and compared is the key as it is passed. The map is compared with a finite function on the
cut keys.
-/

namespace Systemtap.Runtime

open Systemtap.Tree Function List

/-! ## The code -/

/-- The build's constants: `MAP_STRING_LENGTH` and the kernel's `hash_long`. -/
structure MapEnv where
  stringLength : Nat
  six_le : 6 ≤ stringLength
  hashLong : BitVec 64 → Nat
  hashLong_lt : ∀ v, hashLong v < 256

/-- `HASH_TABLE_SIZE` -/
def hashTableSize : Nat := 256

/-- One of the value types that `map-gen.c` is included for: what a node stores, what is
passed, and what is returned. -/
structure ValueType (env : MapEnv) where
  Val : Type
  Arg : Type
  Ret : Type
  /-- `MAP_SET_VAL` with its argument `add` -/
  put : Bool → Val → Arg → Val
  /-- What `MAP_SET_VAL` stores without `add`, whatever the memory of the node held. -/
  fresh : Arg → Val
  put_false : ∀ v a, put false v a = fresh a
  /-- `MAP_GET_VAL` -/
  get : Val → Ret
  /-- `NULLRET` -/
  null : Ret
  buckets : Nat
  /-- What `_stp_cmp` finds in the node. -/
  value : Val → MapValue buckets

section Values

variable (env : MapEnv)

/-- `str_copy` -/
def strCopy (src : Str) : Str := src.take (env.stringLength - 1)

/-- `str_add` -/
def strAdd (dest val : Str) : Str := (dest ++ val).take (env.stringLength - 1)

/-- Maps of `INT64` -/
def int64Values : ValueType env where
  Val := I64
  Arg := I64
  Ret := I64
  put add v a := if add then v + a else a
  fresh a := a
  put_false _ _ := rfl
  get v := v
  null := 0
  buckets := 0
  value v := .int64 v

/-- Maps of `STRING` -/
def strValues : ValueType env where
  Val := Str
  Arg := Str
  Ret := Str
  put add v a := if add then strAdd env v a else strCopy env a
  fresh a := strCopy env a
  put_false _ _ := rfl
  get v := v
  null := []
  buckets := 0
  value v := .str v

/-- `_new_map_set_stat` -/
def newMapSetStat (st : Hist) (add : Bool) (sd : StatData st.buckets) (val : I64) :
    StatData st.buckets :=
  let sd := if add then sd
    else
      { sd with
        count := 0
        histogram := if st.type = .none then sd.histogram else fun _ => 0 }
  sd.add st val

theorem newMapSetStat_false (st : Hist) (sd : StatData st.buckets) (val : I64) :
    newMapSetStat st false sd val = StatData.add st ⟨0, 0, 0, 0, fun _ => 0⟩ val := by
  have hhist : (if st.type = .none then sd.histogram else fun _ => 0) = fun _ => 0 := by
    funext j
    rw [if_neg (Hist.not_flat j)]
  unfold newMapSetStat StatData.add
  rw [if_neg Bool.false_ne_true, hhist]
  dsimp only
  rw [if_pos rfl, if_pos rfl]

/-- Maps of `STAT` -/
def statValues (st : Hist) : ValueType env where
  Val := StatData st.buckets
  Arg := I64
  Ret := Option (StatData st.buckets)
  put add := newMapSetStat st add
  fresh val := StatData.add st ⟨0, 0, 0, 0, fun _ => 0⟩ val
  put_false := newMapSetStat_false st
  get := some
  null := none
  buckets := st.buckets
  value sd := .stat sd

end Values

section Keys

variable (env : MapEnv)

/-- `str_hash`: the sum of the first five characters, which are signed. -/
def strHash (s : Str) : Nat :=
  env.hashLong (((s.take 5).foldl (fun (h : I32) c => h + c.toBitVec.signExtend 32) 0).signExtend 64)

/-- `KEYn_HASH` -/
def keyHash : KeyData → Nat
  | .int64 v => env.hashLong v
  | .str s => strHash env s

/-- The generated function `hash` -/
def keysHash (keys : List KeyData) : Nat := keys.foldl (fun h k => h ^^^ keyHash env k) 0

/-- `KEYn_EQ_P`: `int64_eq_p`, or `str_eq_p` with its `strncmp`. -/
def keyEqP : KeyData → KeyData → Bool
  | .int64 v, .int64 w => v = w
  | .str s, .str t => s.take (env.stringLength - 1) = t.take (env.stringLength - 1)
  | _, _ => false

/-- The comparison of all keys of a node with those passed. -/
def keysEqP : List KeyData → List KeyData → Bool
  | [], [] => true
  | k :: ks, l :: ls => keyEqP env k l && keysEqP ks ls
  | _, _ => false

/-- A key as `KEYCPY` stores it. -/
def cutKey : KeyData → KeyData
  | .int64 v => .int64 v
  | .str s => .str (strCopy env s)

end Keys

abbrev NodeId := Nat

/-- The memory of a `map_node`. -/
structure Entry (V : Type) where
  keys : List KeyData
  val : V

/-- `struct map_root`, with the memory of the nodes. -/
structure MapRoot (V : Type) where
  num : Int
  head : List NodeId
  pool : List NodeId
  hashes : Nat → List NodeId
  node : NodeId → Entry V

/-- `_stp_map_init`: `list_add` puts each new node in front of the pool. -/
def MapRoot.new {V : Type} (maxEntries : Nat) (memory : NodeId → Entry V) : MapRoot V where
  num := 0
  head := []
  pool := (List.range maxEntries).reverse
  hashes := fun _ => []
  node := memory

/-- `hlist_del_init` -/
def hlistDel (n : NodeId) (hashes : Nat → List NodeId) : Nat → List NodeId :=
  fun b => (hashes b).erase n

/-- `hlist_add_head` -/
def hlistAddHead (n : NodeId) (hv : Nat) (hashes : Nat → List NodeId) : Nat → List NodeId :=
  Function.update hashes hv (n :: hashes hv)

namespace MapRoot

variable {env : MapEnv} {vt : ValueType env}

/-- The loops `hlist_for_each` over a chain, up to the first node with the keys. -/
def find (m : MapRoot vt.Val) (keys : List KeyData) : Option NodeId :=
  (m.hashes (keysHash env keys)).find? fun n => keysEqP env (m.node n).keys keys

/-- `_new_map_create` with `wrap` 0 -/
def create {V : Type} (m : MapRoot V) (hv : Nat) : Option (NodeId × MapRoot V) :=
  match m.pool with
  | [] => none
  | n :: pool =>
    some (n, { m with
      num := m.num + 1
      pool := pool
      head := m.head ++ [n]
      hashes := hlistAddHead n hv m.hashes })

/-- Writes the memory of a node. -/
def write {V : Type} (m : MapRoot V) (n : NodeId) (e : Entry V) : MapRoot V :=
  { m with node := Function.update m.node n e }

/-- `__stp_map_set` -/
def setWith (add : Bool) (m : MapRoot vt.Val) (keys : List KeyData) (val : vt.Arg) :
    MapRoot vt.Val × Int :=
  match m.find keys with
  | some n => (m.write n ⟨(m.node n).keys, vt.put add (m.node n).val val⟩, 0)
  | none =>
    match m.create (keysHash env keys) with
    | none => (m, -1)
    | some (n, m) => (m.write n ⟨keys.map (cutKey env), vt.put false (m.node n).val val⟩, 0)

/-- `_stp_map_get` -/
def get (m : MapRoot vt.Val) (keys : List KeyData) : vt.Ret :=
  match m.find keys with
  | some n => vt.get (m.node n).val
  | none => vt.null

/-- `_stp_map_exists` -/
def exists' (m : MapRoot vt.Val) (keys : List KeyData) : Int :=
  match m.find keys with
  | some _ => 1
  | none => 0

/-- `_new_map_del_node` -/
def delNode {V : Type} (m : MapRoot V) (n : NodeId) : MapRoot V :=
  { m with
    hashes := hlistDel n m.hashes
    head := m.head.erase n
    pool := n :: m.pool
    num := m.num - 1 }

/-- `_stp_map_del` -/
def del (m : MapRoot vt.Val) (keys : List KeyData) : MapRoot vt.Val :=
  match m.find keys with
  | some n => m.delNode n
  | none => m

/-- The loop of `_stp_map_clear` over the nodes of `head`. -/
def clearFrom {V : Type} : List NodeId → MapRoot V → MapRoot V
  | [], m => { m with head := [] }
  | n :: head, m => clearFrom head { m with hashes := hlistDel n m.hashes, pool := n :: m.pool }

/-- `_stp_map_clear` -/
def clear {V : Type} (m : MapRoot V) : MapRoot V := clearFrom m.head { m with num := 0 }

/-- A node as the sorts see it. -/
def sortNode (m : MapRoot vt.Val) (n : NodeId) : Node vt.buckets :=
  ⟨(m.node n).keys, vt.value (m.node n).val⟩

/-- The comparison that the sorts of a map use. -/
def cmp (m : MapRoot vt.Val) (keynum dir : Int) (a b : NodeId) : Bool :=
  listCmp keynum dir (m.head.map m.sortNode) (m.sortNode a) (m.sortNode b)

end MapRoot

/-- A call on a map. -/
inductive MapCall (A : Type) where
  | set (keys : List KeyData) (val : A)
  | add (keys : List KeyData) (val : A)
  | get (keys : List KeyData)
  | exists (keys : List KeyData)
  | del (keys : List KeyData)
  | clear
  | sort (keynum dir : Int)
  | sortn (n : I32) (keynum dir : Int)

/-- What a call returns. -/
inductive MapResult (R : Type) where
  | rc (n : Int)
  | val (v : R)
  | nothing

/-- One call; `fuel` is for the loops of the sorts. -/
def MapRoot.exec {env : MapEnv} {vt : ValueType env} (fuel : Nat) (m : MapRoot vt.Val) :
    MapCall vt.Arg → Option (MapRoot vt.Val × MapResult vt.Ret)
  | .set keys val => some ((m.setWith false keys val).1, .rc (m.setWith false keys val).2)
  | .add keys val => some ((m.setWith true keys val).1, .rc (m.setWith true keys val).2)
  | .get keys => some (m, .val (m.get keys))
  | .exists keys => some (m, .rc (m.exists' keys))
  | .del keys => some (m.del keys, .rc 0)
  | .clear => some (m.clear, .nothing)
  | .sort keynum dir =>
    (mapSort (m.cmp keynum dir) fuel m.head).map fun head => ({ m with head }, .nothing)
  | .sortn n keynum dir =>
    (mapSortn (m.cmp keynum dir) fuel n m.head).map fun head => ({ m with head }, .nothing)

/-- The calls of a history in turn. -/
def MapRoot.run {env : MapEnv} {vt : ValueType env} (fuel : Nat) (m : MapRoot vt.Val) :
    List (MapCall vt.Arg) → Option (MapRoot vt.Val × List (MapResult vt.Ret))
  | [] => some (m, [])
  | c :: cs => do
    let (m, r) ← m.exec fuel c
    let (m, rs) ← m.run fuel cs
    pure (m, r :: rs)

/-! ## What it is for -/

/-- A finite function from cut keys to values. -/
abbrev KeyMap (V : Type) := Finmap fun _ : List KeyData => V

section Spec

variable {env : MapEnv} {vt : ValueType env}

/-- Storing under a key in a function of at most `N` keys. -/
def storeIn (N : Nat) (add : Bool) (f : KeyMap vt.Val) (keys : List KeyData)
    (val : vt.Arg) : KeyMap vt.Val × Int :=
  match f.lookup (keys.map (cutKey env)) with
  | some v => (f.insert (keys.map (cutKey env)) (vt.put add v val), 0)
  | none =>
    if f.keys.card = N then (f, -1) else (f.insert (keys.map (cutKey env)) (vt.fresh val), 0)

/-- One call on the finite function. -/
def specExec (N : Nat) (f : KeyMap vt.Val) :
    MapCall vt.Arg → KeyMap vt.Val × MapResult vt.Ret
  | .set keys val => ((storeIn N false f keys val).1, .rc (storeIn N false f keys val).2)
  | .add keys val => ((storeIn N true f keys val).1, .rc (storeIn N true f keys val).2)
  | .get keys => (f, .val (((f.lookup (keys.map (cutKey env))).map vt.get).getD vt.null))
  | .exists keys => (f, .rc (if keys.map (cutKey env) ∈ f then 1 else 0))
  | .del keys => (f.erase (keys.map (cutKey env)), .rc 0)
  | .clear => (∅, .nothing)
  | .sort _ _ => (f, .nothing)
  | .sortn _ _ _ => (f, .nothing)

/-- What the calls of a history return. -/
def specRun (N : Nat) (f : KeyMap vt.Val) :
    List (MapCall vt.Arg) → List (MapResult vt.Ret)
  | [] => []
  | c :: cs => (specExec N f c).2 :: specRun N (specExec N f c).1 cs

end Spec

/-! ## Keys -/

section KeyLemmas

variable {env : MapEnv}

theorem strHash_strCopy (s : Str) : strHash env (strCopy env s) = strHash env s := by
  have := env.six_le
  unfold strHash strCopy
  rw [take_take, min_eq_left (by omega)]

theorem keyHash_cutKey (k : KeyData) : keyHash env (cutKey env k) = keyHash env k := by
  cases k with
  | int64 v => rfl
  | str s => exact strHash_strCopy s

/-- Cutting the keys does not change where they are looked for. -/
theorem keysHash_cutKey (keys : List KeyData) :
    keysHash env (keys.map (cutKey env)) = keysHash env keys := by
  unfold keysHash
  rw [foldl_map]
  simp only [keyHash_cutKey]

theorem keyHash_lt (k : KeyData) : keyHash env k < hashTableSize := by
  cases k with
  | int64 v => exact env.hashLong_lt v
  | str s => exact env.hashLong_lt _

/-- The index into the table of chains is in range. -/
theorem keysHash_lt (keys : List KeyData) : keysHash env keys < hashTableSize := by
  have hfold : ∀ h, h < 2 ^ 8 → keys.foldl (fun h k => h ^^^ keyHash env k) h < 2 ^ 8 := by
    induction keys with
    | nil => exact fun _ h => h
    | cons k keys ih => exact fun h hh => ih _ (Nat.xor_lt_two_pow hh (keyHash_lt k))
  exact hfold 0 (by decide)

/-- Comparing stored keys with those passed is comparing with the cut ones. -/
theorem keysEqP_cutKey (stored keys : List KeyData) :
    keysEqP env (stored.map (cutKey env)) keys = true ↔
      stored.map (cutKey env) = keys.map (cutKey env) := by
  induction stored generalizing keys with
  | nil => cases keys <;> simp [keysEqP]
  | cons k stored ih =>
    cases keys with
    | nil => simp [keysEqP]
    | cons l keys =>
      have hkey : keyEqP env (cutKey env k) l = true ↔ cutKey env k = cutKey env l := by
        cases k <;> cases l <;> simp [keyEqP, cutKey, strCopy, take_take]
      rw [map_cons, map_cons, keysEqP, Bool.and_eq_true, ih, hkey, cons.injEq]

end KeyLemmas

/-! ## The invariant -/

section Invariant

variable {env : MapEnv} {vt : ValueType env} {N : Nat} {m : MapRoot vt.Val} {f : KeyMap vt.Val}

/-- Every one of the `N` nodes is in `head` or in `pool`, and only once; a node of `head` is
in the chain of its keys and in no other one, and no two have the same keys. -/
structure MapInv (vt : ValueType env) (N : Nat) (m : MapRoot vt.Val) : Prop where
  nodup : (m.head ++ m.pool).Nodup
  mem_iff : ∀ n, n ∈ m.head ++ m.pool ↔ n < N
  num_eq : m.num = m.head.length
  chain : ∀ b n, n ∈ m.hashes b ↔ n ∈ m.head ∧ keysHash env (m.node n).keys = b
  chain_nodup : ∀ b, (m.hashes b).Nodup
  cut : ∀ n ∈ m.head, ∃ keys : List KeyData, (m.node n).keys = keys.map (cutKey env)
  distinct : ∀ n ∈ m.head, ∀ n' ∈ m.head, (m.node n).keys = (m.node n').keys → n = n'

/-- The nodes of `head` hold the function `f`. -/
def Represents (m : MapRoot vt.Val) (f : KeyMap vt.Val) : Prop :=
  ∀ k v, f.lookup k = some v ↔ ∃ n ∈ m.head, (m.node n).keys = k ∧ (m.node n).val = v

theorem MapInv.new (N : Nat) (memory : NodeId → Entry vt.Val) :
    MapInv vt N (MapRoot.new N memory) where
  nodup := by
    rw [MapRoot.new, nil_append, nodup_reverse]
    exact nodup_range
  mem_iff n := by
    rw [MapRoot.new, nil_append, mem_reverse, mem_range]
  num_eq := rfl
  chain b n := by simp [MapRoot.new]
  chain_nodup b := nodup_nil
  cut n hn := absurd hn not_mem_nil
  distinct n hn := absurd hn not_mem_nil

theorem represents_new (N : Nat) (memory : NodeId → Entry vt.Val) :
    Represents (MapRoot.new N memory) (∅ : KeyMap vt.Val) := by
  intro k v
  simp [MapRoot.new]

variable {n : NodeId}

variable (h : MapInv vt N m)
include h

theorem MapInv.not_mem_pool (hn : n ∈ m.head) : n ∉ m.pool :=
  fun hp => (nodup_append.1 h.nodup).2.2 n hn n hp rfl

/-- Looking a key up finds the node that holds the cut key. -/
theorem MapInv.find_eq_some_iff (keys : List KeyData) (n : NodeId) :
    m.find keys = some n ↔ n ∈ m.head ∧ (m.node n).keys = keys.map (cutKey env) := by
  have hmatch : ∀ n ∈ m.head, keysEqP env (m.node n).keys keys = true ↔
      (m.node n).keys = keys.map (cutKey env) := by
    intro n hn
    obtain ⟨stored, hstored⟩ := h.cut n hn
    rw [hstored]
    exact keysEqP_cutKey stored keys
  have hfound : ∀ n', m.find keys = some n' →
      n' ∈ m.head ∧ (m.node n').keys = keys.map (cutKey env) := by
    intro n' hf
    have hhead := ((h.chain _ _).1 (mem_of_find?_eq_some hf)).1
    have hp := find?_some hf
    exact ⟨hhead, (hmatch n' hhead).1 hp⟩
  constructor
  · exact hfound n
  · rintro ⟨hn, hk⟩
    cases hf : m.find keys with
    | none =>
      -- the node is in the chain that was searched
      have hchain : n ∈ m.hashes (keysHash env keys) := by
        rw [h.chain, hk, keysHash_cutKey]
        exact ⟨hn, rfl⟩
      exact absurd ((hmatch n hn).2 hk) (find?_eq_none.1 hf n hchain)
    | some n' =>
      obtain ⟨hn', hk'⟩ := hfound n' hf
      rw [h.distinct n' hn' n hn (hk'.trans hk.symm)]

theorem MapInv.find_eq_none_iff (keys : List KeyData) :
    m.find keys = none ↔ ∀ n ∈ m.head, (m.node n).keys ≠ keys.map (cutKey env) := by
  constructor
  · intro hf n hn hk
    rw [(h.find_eq_some_iff keys n).2 ⟨hn, hk⟩] at hf
    cases hf
  · intro hall
    cases hf : m.find keys with
    | none => rfl
    | some n =>
      obtain ⟨hn, hk⟩ := (h.find_eq_some_iff keys n).1 hf
      exact absurd hk (hall n hn)

/-- The lookup in the finite function, read off the map. -/
theorem Represents.lookup (hr : Represents m f) (keys : List KeyData) :
    f.lookup (keys.map (cutKey env)) = (m.find keys).map fun n => (m.node n).val := by
  cases hf : m.find keys with
  | some n =>
    obtain ⟨hn, hk⟩ := (h.find_eq_some_iff keys n).1 hf
    exact (hr _ _).2 ⟨n, hn, hk, rfl⟩
  | none =>
    rw [h.find_eq_none_iff] at hf
    cases hl : f.lookup (keys.map (cutKey env)) with
    | none => rfl
    | some v =>
      obtain ⟨n, hn, hk, -⟩ := (hr _ _).1 hl
      exact absurd hk (hf n hn)

theorem MapInv.length_add : m.head.length + m.pool.length = N := by
  have hperm : (m.head ++ m.pool).Perm (range N) := by
    rw [perm_ext_iff_of_nodup h.nodup nodup_range]
    intro n
    rw [h.mem_iff, mem_range]
  rw [← length_append, hperm.length_eq, length_range]

/-- There are as many keys as nodes in `head`. -/
theorem Represents.card_keys (hr : Represents m f) :
    f.keys.card = m.head.length := by
  have hkeys : f.keys = (m.head.map fun n => (m.node n).keys).toFinset := by
    ext k
    rw [Finmap.mem_keys, ← Finmap.lookup_isSome, Option.isSome_iff_exists, mem_toFinset,
      mem_map]
    constructor
    · rintro ⟨v, hv⟩
      obtain ⟨n, hn, hk, -⟩ := (hr _ _).1 hv
      exact ⟨n, hn, hk⟩
    · rintro ⟨n, hn, hk⟩
      exact ⟨_, (hr _ _).2 ⟨n, hn, hk, rfl⟩⟩
  have hnodup : (m.head.map fun n => (m.node n).keys).Nodup :=
    (nodup_map_iff_inj_on (nodup_append.1 h.nodup).1).2 h.distinct
  rw [hkeys, toFinset_card_of_nodup hnodup, length_map]

omit h

/-! ## The steps -/

/-- The map `m'` is `m` but for the node `n`, which has the keys `k` there; no other one has them. -/
structure Rewritten (m m' : MapRoot vt.Val) (n : NodeId) (k : List KeyData) (v : vt.Val) : Prop where
  mem : n ∈ m'.head
  node : m'.node n = ⟨k, v⟩
  mem_iff : ∀ n' ≠ n, n' ∈ m'.head ↔ n' ∈ m.head
  node_eq : ∀ n' ≠ n, m'.node n' = m.node n'
  old : ∀ n' ∈ m.head, (m.node n').keys = k ↔ n' = n

theorem Represents.written {m' : MapRoot vt.Val} {k : List KeyData} {v : vt.Val} (hr : Represents m f)
    (hw : Rewritten m m' n k v) : Represents m' (f.insert k v) := by
  intro k' w
  by_cases hk : k' = k
  · subst hk
    rw [Finmap.lookup_insert, Option.some_inj]
    constructor
    · rintro rfl
      exact ⟨n, hw.mem, by rw [hw.node], by rw [hw.node]⟩
    · rintro ⟨n', hn', hk', hv'⟩
      by_cases hE : n' = n
      · rw [hE, hw.node] at hv'
        exact hv'
      · rw [hw.node_eq n' hE] at hk'
        exact absurd ((hw.old n' ((hw.mem_iff n' hE).1 hn')).1 hk') hE
  · rw [Finmap.lookup_insert_of_ne _ hk, hr]
    refine exists_congr fun n' => ?_
    by_cases hE : n' = n
    · -- neither before nor after does the node have the keys `k'`
      subst hE
      constructor
      · exact fun ⟨hn', hk', _⟩ => absurd (hk'.symm.trans ((hw.old _ hn').2 rfl)) hk
      · rintro ⟨-, hk', -⟩
        rw [hw.node] at hk'
        exact absurd hk'.symm hk
    · rw [hw.mem_iff n' hE, hw.node_eq n' hE]

/-- Writing the value of a node that is in use. -/
theorem MapInv.write_val (h : MapInv vt N m) (v : vt.Val) :
    MapInv vt N (m.write n ⟨(m.node n).keys, v⟩) := by
  have hkeys : ∀ n', ((m.write n ⟨(m.node n).keys, v⟩).node n').keys = (m.node n').keys := by
    intro n'
    unfold MapRoot.write
    by_cases hn : n' = n
    · subst hn
      simp
    · simp [update_of_ne hn]
  refine ⟨h.nodup, h.mem_iff, h.num_eq, fun b n' => ?_, h.chain_nodup, fun n' hn' => ?_,
    fun n' hn' n'' hn'' hE => ?_⟩
  · rw [hkeys]
    exact h.chain b n'
  · rw [hkeys]
    exact h.cut n' hn'
  · rw [hkeys, hkeys] at hE
    exact h.distinct n' hn' n'' hn'' hE

theorem Represents.write_val (hr : Represents m f) (h : MapInv vt N m) (hn : n ∈ m.head)
    (v : vt.Val) : Represents (m.write n ⟨(m.node n).keys, v⟩) (f.insert (m.node n).keys v) :=
  hr.written ⟨hn, update_self .., fun _ _ => .rfl, fun _ hE => update_of_ne hE ..,
    fun n' hn' => ⟨h.distinct n' hn' n hn, fun hE => by rw [hE]⟩⟩

/-- The map after a node was taken from the pool for some keys. -/
def MapRoot.grown (m : MapRoot vt.Val) (n : NodeId) (pool : List NodeId) (keys : List KeyData)
    (v : vt.Val) : MapRoot vt.Val :=
  { m with
    num := m.num + 1
    pool := pool
    head := m.head ++ [n]
    hashes := hlistAddHead n (keysHash env keys) m.hashes
    node := Function.update m.node n ⟨keys.map (cutKey env), v⟩ }

theorem MapInv.written (h : MapInv vt N m) {pool : List NodeId} (hpool : m.pool = n :: pool)
    {keys : List KeyData} (hnew : ∀ n' ∈ m.head, (m.node n').keys ≠ keys.map (cutKey env))
    (v : vt.Val) : Rewritten m (m.grown n pool keys v) n (keys.map (cutKey env)) v := by
  have hn : n ∉ m.head := fun hn => h.not_mem_pool hn (by rw [hpool]; exact mem_cons_self)
  refine ⟨by simp [MapRoot.grown], update_self .., fun n' hE => by simp [MapRoot.grown, hE],
    fun n' hE => update_of_ne hE .., fun n' hn' => ⟨fun hk => absurd hk (hnew n' hn'), ?_⟩⟩
  rintro rfl
  exact absurd hn' hn

theorem MapInv.grown (h : MapInv vt N m) {pool : List NodeId} (hpool : m.pool = n :: pool)
    {keys : List KeyData} (hnew : ∀ n' ∈ m.head, (m.node n').keys ≠ keys.map (cutKey env))
    (v : vt.Val) : MapInv vt N (m.grown n pool keys v) := by
  have hn : n ∉ m.head := fun hn => h.not_mem_pool hn (by rw [hpool]; exact mem_cons_self)
  have hperm : (m.head ++ [n] ++ pool).Perm (m.head ++ m.pool) := by
    rw [hpool, append_assoc]
    exact .refl _
  have hw := h.written hpool hnew v
  refine ⟨hperm.nodup_iff.2 h.nodup, fun n' => ?_, ?_, fun b n' => ?_, fun b => ?_, fun n' hn' => ?_,
    fun n' hn' n'' hn'' hE => ?_⟩
  · exact hperm.mem_iff.trans (h.mem_iff n')
  · show m.num + 1 = ((m.head ++ [n]).length : Int)
    rw [h.num_eq, length_append, length_singleton]
    rfl
  · show n' ∈ hlistAddHead n (keysHash env keys) m.hashes b ↔ _
    unfold hlistAddHead
    by_cases hE : n' = n
    · subst hE
      rw [hw.node, keysHash_cutKey, and_iff_right hw.mem]
      by_cases hb : b = keysHash env keys
      · subst hb
        simp
      · rw [update_of_ne hb, h.chain]
        exact iff_of_false (fun hc => hn hc.1) (Ne.symm hb)
    · rw [hw.mem_iff n' hE, hw.node_eq n' hE, ← h.chain]
      by_cases hb : b = keysHash env keys
      · subst hb
        simp [hE]
      · rw [update_of_ne hb]
  · show (hlistAddHead n (keysHash env keys) m.hashes b).Nodup
    unfold hlistAddHead
    by_cases hb : b = keysHash env keys
    · subst hb
      rw [update_self, nodup_cons]
      exact ⟨fun hc => hn ((h.chain _ _).1 hc).1, h.chain_nodup _⟩
    · rw [update_of_ne hb]
      exact h.chain_nodup b
  · by_cases hE : n' = n
    · exact ⟨keys, by rw [hE, hw.node]⟩
    · rw [hw.node_eq n' hE]
      exact h.cut n' ((hw.mem_iff n' hE).1 hn')
  · by_cases hE' : n' = n <;> by_cases hE'' : n'' = n
    · rw [hE', hE'']
    · rw [hE', hw.node, hw.node_eq n'' hE''] at hE
      exact absurd hE.symm (hnew n'' ((hw.mem_iff n'' hE'').1 hn''))
    · rw [hE'', hw.node, hw.node_eq n' hE'] at hE
      exact absurd hE (hnew n' ((hw.mem_iff n' hE').1 hn'))
    · rw [hw.node_eq n' hE', hw.node_eq n'' hE''] at hE
      exact h.distinct n' ((hw.mem_iff n' hE').1 hn') n'' ((hw.mem_iff n'' hE'').1 hn'') hE

theorem MapInv.delNode (h : MapInv vt N m) (hn : n ∈ m.head) : MapInv vt N (m.delNode n) := by
  have hnd := (nodup_append.1 h.nodup).1
  have hmem : ∀ n', n' ∈ (m.delNode n).head ↔ n' ≠ n ∧ n' ∈ m.head := fun n' => hnd.mem_erase_iff
  have hperm : (m.head.erase n ++ n :: m.pool).Perm (m.head ++ m.pool) := by
    refine perm_middle.trans ?_
    exact (perm_cons_erase hn).symm.append_right _
  refine ⟨hperm.nodup_iff.2 h.nodup, fun n' => hperm.mem_iff.trans (h.mem_iff n'), ?_,
    fun b n' => ?_, fun b => (h.chain_nodup b).erase n, fun n' hn' => h.cut n' ((hmem n').1 hn').2,
    fun n' hn' n'' hn'' => h.distinct n' ((hmem n').1 hn').2 n'' ((hmem n'').1 hn'').2⟩
  · show m.num - 1 = ((m.head.erase n).length : Int)
    have hpos : 0 < m.head.length := length_pos_of_mem hn
    rw [h.num_eq, length_erase_of_mem hn]
    omega
  · rw [hmem, and_assoc]
    exact (h.chain_nodup b).mem_erase_iff.trans (and_congr_right fun _ => h.chain b n')

theorem Represents.delNode (hr : Represents m f) (h : MapInv vt N m)
    (hn : n ∈ m.head) : Represents (m.delNode n) (f.erase (m.node n).keys) := by
  have hmem : ∀ n', n' ∈ (m.delNode n).head ↔ n' ≠ n ∧ n' ∈ m.head :=
    fun n' => (nodup_append.1 h.nodup).1.mem_erase_iff
  intro k w
  show _ ↔ ∃ n' ∈ (m.delNode n).head, (m.node n').keys = k ∧ (m.node n').val = w
  by_cases hk : k = (m.node n).keys
  · subst hk
    rw [Finmap.lookup_erase]
    constructor
    · rintro ⟨⟩
    · rintro ⟨n', hn', hk', -⟩
      rw [hmem] at hn'
      exact absurd (h.distinct n' hn'.2 n hn hk') hn'.1
  · rw [Finmap.lookup_erase_ne hk, hr]
    constructor
    · rintro ⟨n', hn', hk', hv'⟩
      refine ⟨n', (hmem n').2 ⟨?_, hn'⟩, hk', hv'⟩
      rintro rfl
      exact hk hk'.symm
    · rintro ⟨n', hn', hk', hv'⟩
      exact ⟨n', ((hmem n').1 hn').2, hk', hv'⟩

/-- The loop of `_stp_map_clear`, by induction on the nodes still in the list. -/
theorem clearFrom_eq {V : Type} (head : List NodeId) : ∀ m : MapRoot V,
    MapRoot.clearFrom head m =
      { m with head := [], pool := head.reverse ++ m.pool, hashes := fun b => (m.hashes b).diff head } := by
  induction head with
  | nil =>
    intro m
    rfl
  | cons n head ih =>
    intro m
    rw [MapRoot.clearFrom, ih]
    simp [hlistDel, diff_cons]

theorem MapInv.clear (h : MapInv vt N m) : MapInv vt N m.clear := by
  have hchains : ∀ b, (m.hashes b).diff m.head = [] := by
    intro b
    rw [eq_nil_iff_forall_not_mem]
    intro n hn
    rw [(h.chain_nodup b).mem_sdiff_iff, h.chain] at hn
    exact hn.2 hn.1.1
  have hperm : (m.head.reverse ++ m.pool).Perm (m.head ++ m.pool) :=
    (reverse_perm _).append_right _
  unfold MapRoot.clear
  rw [clearFrom_eq]
  refine ⟨hperm.nodup_iff.2 h.nodup, fun n => hperm.mem_iff.trans (h.mem_iff n), rfl,
    fun b n => ?_, fun b => ?_, fun n hn => absurd hn not_mem_nil,
    fun n hn => absurd hn not_mem_nil⟩
  · dsimp only
    rw [hchains]
    simp
  · dsimp only
    rw [hchains]
    exact nodup_nil

theorem represents_clear (m : MapRoot vt.Val) : Represents m.clear (∅ : KeyMap vt.Val) := by
  intro k v
  unfold MapRoot.clear
  rw [clearFrom_eq]
  simp

/-- The sorts only change the order of the nodes. -/
theorem MapInv.permute (h : MapInv vt N m) {head : List NodeId} (hp : head.Perm m.head) :
    MapInv vt N { m with head } where
  nodup := (hp.append_right _).nodup_iff.2 h.nodup
  mem_iff n := (hp.append_right _).mem_iff.trans (h.mem_iff n)
  num_eq := h.num_eq.trans (by rw [hp.length_eq])
  chain b n := (h.chain b n).trans (and_congr_left fun _ => hp.mem_iff.symm)
  chain_nodup := h.chain_nodup
  cut n hn := h.cut n (hp.mem_iff.1 hn)
  distinct n hn n' hn' := h.distinct n (hp.mem_iff.1 hn) n' (hp.mem_iff.1 hn')

theorem Represents.permute (hr : Represents m f) {head : List NodeId} (hp : head.Perm m.head) :
    Represents { m with head } f := by
  intro k v
  rw [hr]
  exact exists_congr fun n => and_congr_left fun _ => hp.mem_iff.symm

/-! ## The calls -/

variable (hr : Represents m f)
include h hr

theorem setWith_refines (add : Bool)
    (keys : List KeyData) (val : vt.Arg) :
    MapInv vt N (m.setWith add keys val).1 ∧
      Represents (m.setWith add keys val).1 (storeIn N add f keys val).1 ∧
      (m.setWith add keys val).2 = (storeIn N add f keys val).2 := by
  unfold MapRoot.setWith storeIn
  rw [hr.lookup h]
  cases hf : m.find keys with
  | some n =>
    obtain ⟨hn, hk⟩ := (h.find_eq_some_iff keys n).1 hf
    refine ⟨h.write_val _, ?_, rfl⟩
    rw [← hk]
    exact hr.write_val h hn (vt.put add (m.node n).val val)
  | none =>
    rw [h.find_eq_none_iff] at hf
    have hlen := h.length_add
    have hcard := hr.card_keys h
    unfold MapRoot.create
    cases hpool : m.pool with
    | nil =>
      rw [hpool, length_nil] at hlen
      rw [if_pos (by omega)]
      exact ⟨h, hr, rfl⟩
    | cons n pool =>
      rw [hpool, length_cons] at hlen
      rw [if_neg (by omega)]
      dsimp only
      rw [vt.put_false]
      exact ⟨h.grown hpool hf (vt.fresh val), hr.written (h.written hpool hf _), rfl⟩

theorem get_refines (keys : List KeyData) :
    m.get keys = ((f.lookup (keys.map (cutKey env))).map vt.get).getD vt.null := by
  rw [hr.lookup h, MapRoot.get]
  cases m.find keys <;> rfl

theorem exists_refines (keys : List KeyData) :
    m.exists' keys = if keys.map (cutKey env) ∈ f then 1 else 0 := by
  have hfound : keys.map (cutKey env) ∈ f ↔ (m.find keys).isSome := by
    rw [← Finmap.lookup_isSome, hr.lookup h, Option.isSome_map]
  simp only [hfound, MapRoot.exists']
  cases m.find keys <;> rfl

theorem del_refines (keys : List KeyData) :
    MapInv vt N (m.del keys) ∧ Represents (m.del keys) (f.erase (keys.map (cutKey env))) := by
  have hlookup := hr.lookup h keys
  unfold MapRoot.del
  cases hf : m.find keys with
  | some n =>
    obtain ⟨hn, hk⟩ := (h.find_eq_some_iff keys n).1 hf
    rw [← hk]
    exact ⟨h.delNode hn, hr.delNode h hn⟩
  | none =>
    rw [hf, Option.map_none] at hlookup
    have hsame : f.erase (keys.map (cutKey env)) = f := by
      apply Finmap.ext_lookup
      intro k
      by_cases hk : k = keys.map (cutKey env)
      · rw [hk, Finmap.lookup_erase, hlookup]
      · rw [Finmap.lookup_erase_ne hk]
    rw [hsame]
    exact ⟨h, hr⟩

omit h hr

variable {fuel : Nat}

/-- The sorts end, and keep the nodes. -/
theorem sort_perm (m : MapRoot vt.Val) (keynum dir : Int)
    (hfuel : m.head.length * m.head.length < fuel) :
    ∃ head, mapSort (m.cmp keynum dir) fuel m.head = some head ∧ head.Perm m.head := by
  obtain ⟨κ, _, key, hc⟩ := listCmp_compares keynum dir (m.head.map m.sortNode)
  have hc' : Compares (fun n => key (m.sortNode n)) (m.cmp keynum dir) := fun a b => hc _ _
  obtain ⟨ys, hys, hstable⟩ := mapSort_stable hc' m.head ((Nat.le_mul_self _).trans hfuel.le)
  exact ⟨ys, hys, hstable.perm⟩

theorem sortn_perm (m : MapRoot vt.Val) (n : I32) (keynum dir : Int)
    (hfuel : m.head.length * m.head.length < fuel) :
    ∃ head, mapSortn (m.cmp keynum dir) fuel n m.head = some head ∧ head.Perm m.head := by
  by_cases hn : n = 0 ∨ (30 : I32).slt n
  · unfold mapSortn
    rw [if_pos hn]
    exact sort_perm m keynum dir hfuel
  · obtain ⟨κ, _, key, hc⟩ := listCmp_compares keynum dir (m.head.map m.sortNode)
    have hc' : Compares (fun n => key (m.sortNode n)) (m.cmp keynum dir) := fun a b => hc _ _
    obtain ⟨ys, hys, hperm, -⟩ := mapSortn_top hc' hn m.head ((inversions_le _ _).trans_lt hfuel)
    exact ⟨ys, hys, hperm⟩

/-- One call on the map is one call on the function it holds. -/
theorem exec_refines (hr : Represents m f) (h : MapInv vt N m) (hfuel : N * N < fuel)
    (c : MapCall vt.Arg) :
    ∃ m', m.exec fuel c = some (m', (specExec N f c).2) ∧ MapInv vt N m' ∧
      Represents m' (specExec N f c).1 := by
  have hlen : m.head.length * m.head.length < fuel := by
    have hle : m.head.length ≤ N := by
      have := h.length_add
      omega
    exact (Nat.mul_le_mul hle hle).trans_lt hfuel
  cases c with
  | set keys val =>
    obtain ⟨hinv, hrep, hrc⟩ := setWith_refines h hr false keys val
    exact ⟨_, by rw [MapRoot.exec, hrc, specExec], hinv, hrep⟩
  | add keys val =>
    obtain ⟨hinv, hrep, hrc⟩ := setWith_refines h hr true keys val
    exact ⟨_, by rw [MapRoot.exec, hrc, specExec], hinv, hrep⟩
  | get keys =>
    refine ⟨m, ?_, h, hr⟩
    rw [MapRoot.exec, specExec, get_refines h hr]
  | «exists» keys =>
    refine ⟨m, ?_, h, hr⟩
    rw [MapRoot.exec, specExec, exists_refines h hr]
  | del keys =>
    obtain ⟨hinv, hrep⟩ := del_refines h hr keys
    exact ⟨m.del keys, rfl, hinv, hrep⟩
  | clear => exact ⟨m.clear, rfl, h.clear, represents_clear m⟩
  | sort keynum dir =>
    obtain ⟨head, hhead, hperm⟩ := sort_perm m keynum dir hlen
    exact ⟨_, by rw [MapRoot.exec, hhead]; rfl, h.permute hperm, hr.permute hperm⟩
  | sortn n keynum dir =>
    obtain ⟨head, hhead, hperm⟩ := sortn_perm m n keynum dir hlen
    exact ⟨_, by rw [MapRoot.exec, hhead]; rfl, h.permute hperm, hr.permute hperm⟩

theorem run_refines (hfuel : N * N < fuel) (calls : List (MapCall vt.Arg)) :
    ∀ {m : MapRoot vt.Val} {f : KeyMap vt.Val}, Represents m f → MapInv vt N m →
      ∃ m', m.run fuel calls = some (m', specRun N f calls) ∧ MapInv vt N m' := by
  induction calls with
  | nil => exact fun _ h => ⟨_, rfl, h⟩
  | cons c calls ih =>
    intro m f hr h
    obtain ⟨m1, hexec, hinv, hrep⟩ := exec_refines hr h hfuel c
    obtain ⟨m', hrun, hinv'⟩ := ih hrep hinv
    refine ⟨m', ?_, hinv'⟩
    rw [MapRoot.run, hexec, specRun]
    dsimp only [bind, Option.bind]
    rw [hrun]
    rfl

end Invariant

/-- A new map is a partial function with room for `N` keys: whatever is called, in whatever
order, all results are those of the finite function, and the nodes are where they belong
after every call. -/
theorem map_run_refines {env : MapEnv} (vt : ValueType env) (N : Nat)
    (memory : NodeId → Entry vt.Val) :
    ∃ F, ∀ fuel, F ≤ fuel → ∀ calls : List (MapCall vt.Arg),
      ∃ m, (MapRoot.new N memory : MapRoot vt.Val).run fuel calls = some (m, specRun N ∅ calls) ∧
        MapInv vt N m :=
  ⟨N * N + 1, fun _ hfuel calls =>
    run_refines hfuel calls (represents_new N memory) (MapInv.new N memory)⟩

end Systemtap.Runtime
