import Systemtap.Cache.ScriptHash

/-!
# Cleaning the cache

`clean_cache` of `cache.cxx`, with the constructor and the `unlink` of `cache_ent_info`. The entries are
the modules (`*.ko`), the user modules of type queries (`*.so`), the `stapconf` headers (`*.h`) and the hash
logs (`*.log`). Their sizes are added up, they are put in a set ordered by their modification times, and
from its begin on they are removed until the sum is below the limit.

Three things keep the sum and the set from being those of the directory. The constructor ends the sum of a
module's sizes after its `.ko` and `.ko.sgn` files; the two lines below it are statements without an effect.
The set compares nothing but the time, so of two entries of one second only the first is in it. And an entry
of size or time 0 is left out. `meets_iff` says when the cache is cleaned all the same.
-/

namespace Systemtap.Cache

open List

/-! ## The directory -/

/-- The endings of the names that the cleaning looks at. None is the end of another, so that the name of a
file splits in one way only. -/
inductive Ext where
  | ko
  | koSgn
  | c
  | log
  | so
  | h
deriving DecidableEq, Repr

/-- The name of a file below the cache directory: `stem` without the ending. -/
structure FileName where
  stem : Str
  ext : Ext
deriving DecidableEq, Repr

structure File where
  name : FileName
  size : UInt64
  mtime : Int
deriving DecidableEq, Repr

/-- The files of the cache, in the order of `glob`. -/
structure Dir where
  files : List File
  nodup : (files.map File.name).Nodup
deriving DecidableEq, Repr

def Dir.names (d : Dir) : List FileName := d.files.map File.name

/-- `stat` -/
def Dir.stat (d : Dir) (n : FileName) : Option File := d.files.find? fun f => f.name = n

def getFileSize (d : Dir) (n : FileName) : UInt64 :=
  match d.stat n with
  | some f => f.size
  | none => 0

def getFileWeight (d : Dir) (n : FileName) : Int :=
  match d.stat n with
  | some f => f.mtime
  | none => 0

/-- `glob` for the files of one ending -/
def Dir.glob (d : Dir) (x : Ext) : List FileName := d.names.filter fun n => n.ext = x

/-- `unlink` of one file -/
def Dir.unlink (d : Dir) (n : FileName) : Dir where
  files := d.files.filter fun f => f.name ≠ n
  nodup := d.nodup.sublist (List.filter_sublist.map _)

/-! ## The entries -/

/-- The `path` and the `is_module` of a `cache_ent_info`. The path of a module has no ending. -/
inductive Entry where
  | mod (path : Str)
  | file (path : FileName)
deriving DecidableEq, Repr

/-- The files that `cache_ent_info::unlink` removes. -/
def Entry.files : Entry → List FileName
  | .mod p => [⟨p, .ko⟩, ⟨p, .koSgn⟩, ⟨p, .c⟩, ⟨p, .log⟩]
  | .file n => [n]

/-- The file whose time is the time of the entry. -/
def Entry.main : Entry → FileName
  | .mod p => ⟨p, .ko⟩
  | .file n => n

def Entry.weight (d : Dir) (e : Entry) : Int := getFileWeight d e.main

structure CacheEntInfo where
  entry : Entry
  size : UInt64
  weight : Int
deriving DecidableEq, Repr

/-- `cache_ent_info::cache_ent_info` -/
def CacheEntInfo.make (d : Dir) : Entry → CacheEntInfo
  | .mod p =>
    -- `size = ... + get_file_size(modsgn_path);` ends here
    { entry := .mod p
      size := getFileSize d ⟨p, .ko⟩ + getFileSize d ⟨p, .koSgn⟩
      weight := getFileWeight d ⟨p, .ko⟩ }
  | .file n =>
    { entry := .file n
      size := getFileSize d n
      weight := getFileWeight d n }

/-- `cache_ent_info::unlink` -/
def Entry.unlink (d : Dir) (e : Entry) : Dir := e.files.foldl Dir.unlink d

/-- The entries of all four patterns, in the order in which they are grabbed. -/
def Dir.entries (d : Dir) : List Entry :=
  (d.glob .ko).map (fun n => .mod n.stem) ++ (d.glob .so).map .file ++ (d.glob .h).map .file
    ++ (d.glob .log).map .file

/-! ## Cleaning -/

/-- `set<cache_ent_info>::insert`: an entry that compares equal to one of the set is not inserted. -/
def insertInfo (x : CacheEntInfo) : List CacheEntInfo → List CacheEntInfo
  | [] => [x]
  | y :: ys =>
    if x.weight < y.weight then x :: y :: ys
    else if y.weight < x.weight then y :: insertInfo x ys
    else y :: ys

/-- The body of the four loops over the globs. -/
def grab (d : Dir) (acc : UInt64 × List CacheEntInfo) (e : Entry) : UInt64 × List CacheEntInfo :=
  let info := CacheEntInfo.make d e
  if info.size ≠ 0 ∧ info.weight ≠ 0 then (acc.1 + info.size, insertInfo info acc.2) else acc

/-- `cache_size_b` and `cache_contents` -/
def collect (d : Dir) : UInt64 × List CacheEntInfo := d.entries.foldl (grab d) (0, [])

/-- `(r_cache_size / 1024 / 1024) < cache_mb_max` -/
def underLimit (max r : UInt64) : Bool := r / 1024 / 1024 < max

/-- The loop that unlinks. -/
def cleanLoop (max : UInt64) : List CacheEntInfo → UInt64 → Dir → Dir
  | [], _, d => d
  | i :: rest, r, d =>
    if underLimit max r then d
    else cleanLoop max rest (r - i.size) (i.entry.unlink d)

/-- `clean_cache`, where there is a cache -/
def cleanCache (max : UInt64) (d : Dir) : Dir :=
  cleanLoop max (collect d).2 (collect d).1 d

/-! ## What cleaning is for -/

/-- The bytes of the files that belong to an entry. -/
def Dir.total (d : Dir) : Nat :=
  ((d.entries.flatMap Entry.files).dedup.map fun n => (getFileSize d n).toNat).sum

/-- The cache is below its limit or empty, and what was removed is not newer than what was kept. -/
def Meets (max : UInt64) (d : Dir) : Prop :=
  ((cleanCache max d).total / 1024 / 1024 < max.toNat ∨ (cleanCache max d).entries = [])
    ∧ ∀ e ∈ d.entries, e ∉ (cleanCache max d).entries →
      ∀ k ∈ (cleanCache max d).entries, e.weight d ≤ k.weight d

instance (max : UInt64) (d : Dir) : Decidable (Meets max d) := by
  unfold Meets
  infer_instance

/-- What the constructor counts of an entry. -/
def Entry.counted (d : Dir) : Entry → Nat
  | .mod p => (getFileSize d ⟨p, .ko⟩).toNat + (getFileSize d ⟨p, .koSgn⟩).toNat
  | .file n => (getFileSize d n).toNat

/-- The bytes of all the files of an entry. -/
def Entry.full (d : Dir) (e : Entry) : Nat := (e.files.map fun n => (getFileSize d n).toNat).sum

/-- The sum of a size over the entries that are not older than `w`. -/
def sumFrom (size : Entry → Nat) (d : Dir) (w : Int) : Nat :=
  ((d.entries.filter fun e => w ≤ e.weight d).map size).sum

/-- A directory in which the set holds every entry: none has size or time 0, no two have one time. The log of
a module, which would be an entry of its own beside it, has another name, and the sizes do not wrap. -/
structure Tidy (d : Dir) : Prop where
  sized : ∀ e ∈ d.entries, e.counted d ≠ 0
  dated : ∀ e ∈ d.entries, e.weight d ≠ 0
  distinct : (d.entries.map (Entry.weight d)).Nodup
  separate : ∀ n ∈ d.names, n.ext = .ko → ⟨n.stem, .log⟩ ∉ d.names
  bounded : (d.entries.map (Entry.full d)).sum < 2 ^ 64

/-- The `.c` files, which are not counted, do not take the entries that are kept over the limit. -/
def SourcesFit (max : UInt64) (d : Dir) : Prop :=
  ∀ e ∈ d.entries, sumFrom (Entry.counted d) d (e.weight d) / 1024 / 1024 < max.toNat →
    sumFrom (Entry.full d) d (e.weight d) / 1024 / 1024 < max.toNat

instance (max : UInt64) (d : Dir) : Decidable (SourcesFit max d) := by
  unfold SourcesFit
  infer_instance

/-! ## The directory after some entries are gone -/

variable {d : Dir}

theorem Dir.names_unlink (d : Dir) (n : FileName) : (d.unlink n).names = d.names.filter (· ≠ n) := by
  rw [Dir.names, Dir.names, filter_map]
  rfl

theorem Dir.stat_unlink {n m : FileName} (h : m ≠ n) : (d.unlink n).stat m = d.stat m := by
  simp only [Dir.stat, Dir.unlink, find?_filter]
  refine congrArg (fun p => find? p d.files) (funext fun f => ?_)
  by_cases hf : f.name = m
  · simp [hf, h]
  · simp [hf]

/-- All the files of a list are unlinked. -/
def Dir.without (d : Dir) (ns : List FileName) : Dir := ns.foldl Dir.unlink d

variable {ns : List FileName}

theorem Dir.names_without : (d.without ns).names = d.names.filter (· ∉ ns) := by
  induction ns generalizing d with
  | nil => simp [Dir.without]
  | cons n ns ih =>
    show ((d.unlink n).without ns).names = _
    rw [ih, Dir.names_unlink, filter_filter]
    refine filter_congr fun m _ => ?_
    simp [Bool.and_comm]

theorem Dir.stat_without {m : FileName} (h : m ∉ ns) : (d.without ns).stat m = d.stat m := by
  induction ns generalizing d with
  | nil => rfl
  | cons n ns ih =>
    simp only [mem_cons, not_or] at h
    show ((d.unlink n).without ns).stat m = d.stat m
    rw [ih h.2, Dir.stat_unlink h.1]

theorem getFileSize_without {m : FileName} (h : m ∉ ns) :
    getFileSize (d.without ns) m = getFileSize d m := by
  simp only [getFileSize, Dir.stat_without h]

/-- The entries that are left are those whose main file is. -/
theorem Dir.entries_without : (d.without ns).entries = d.entries.filter fun e => e.main ∉ ns := by
  have hglob (x : Ext) : (d.without ns).glob x = (d.glob x).filter (· ∉ ns) := by
    rw [Dir.glob, Dir.names_without, filter_filter, Dir.glob, filter_filter]
    exact filter_congr fun n _ => Bool.and_comm _ _
  have hko : (d.glob .ko).filter (fun n => ⟨n.stem, .ko⟩ ∉ ns) = (d.glob .ko).filter (· ∉ ns) := by
    refine filter_congr fun n hn => ?_
    have hx : n.ext = .ko := by simpa using (mem_filter.1 hn).2
    rw [← hx]
  simp only [Dir.entries, hglob, filter_append, filter_map, ← hko]
  rfl

/-- The main file of an entry is there, and has one of the four endings. -/
theorem Dir.of_mem_entries {e : Entry} (he : e ∈ d.entries) :
    e.main ∈ d.names ∧ ∀ n, e = .file n → n.ext = .so ∨ n.ext = .h ∨ n.ext = .log := by
  simp only [Dir.entries, Dir.glob, mem_append, mem_map, mem_filter, decide_eq_true_eq] at he
  rcases he with ((⟨n, ⟨hn, hx⟩, rfl⟩ | ⟨n, ⟨hn, hx⟩, rfl⟩) | ⟨n, ⟨hn, hx⟩, rfl⟩) | ⟨n, ⟨hn, hx⟩, rfl⟩
  · exact ⟨by rwa [Entry.main, ← hx], fun _ h => (by cases h)⟩
  all_goals exact ⟨hn, fun _ h => by cases h; simp [hx]⟩

/-- No file belongs to two entries. -/
theorem Tidy.eq_of_mem_files (ht : Tidy d) {e k : Entry} (he : e ∈ d.entries)
    (hk : k ∈ d.entries) {n : FileName} (hne : n ∈ e.files) (hnk : n ∈ k.files) : e = k := by
  -- a module and a file can only share the log of the module
  have hlog {p : Str} {m : FileName} (hp : Entry.mod p ∈ d.entries) (hm : Entry.file m ∈ d.entries)
      (hmem : m ∈ (Entry.mod p).files) : False := by
    obtain ⟨hko, -⟩ := Dir.of_mem_entries hp
    obtain ⟨hmain, hext⟩ := Dir.of_mem_entries hm
    have hx := hext m rfl
    simp only [Entry.files, mem_cons, not_mem_nil, or_false] at hmem
    rcases hmem with rfl | rfl | rfl | rfl
    · simp at hx
    · simp at hx
    · simp at hx
    · exact ht.separate _ hko rfl hmain
  cases e with
  | mod p => cases k with
    | mod q =>
      simp only [Entry.files, mem_cons, not_mem_nil, or_false] at hne hnk
      rcases hne with rfl | rfl | rfl | rfl <;> simp_all
    | file m =>
      obtain rfl : n = m := by simpa [Entry.files] using hnk
      exact (hlog he hk hne).elim
  | file m => cases k with
    | mod q =>
      obtain rfl : n = m := by simpa [Entry.files] using hne
      exact (hlog hk he hnk).elim
    | file m' =>
      simp only [Entry.files, mem_singleton] at hne hnk
      rw [← hne, ← hnk]

theorem Entry.main_mem_files (e : Entry) : e.main ∈ e.files := by
  cases e <;> simp [Entry.main, Entry.files]

theorem Entry.nodup_files (e : Entry) : e.files.Nodup := by
  cases e <;> simp [Entry.files]

/-- The files of some entries, each counted once, are the files of one entry after the other. -/
theorem Tidy.nodup_flatMap_files (ht : Tidy d) {es : List Entry} (hes : ∀ e ∈ es, e ∈ d.entries)
    (hnd : es.Nodup) : (es.flatMap Entry.files).Nodup := by
  refine nodup_flatMap.2 ⟨fun e _ => e.nodup_files, ?_⟩
  refine hnd.imp_of_mem ?_
  intro e k he hk hek n hne hnk
  exact hek (ht.eq_of_mem_files (hes e he) (hes k hk) hne hnk)

section Split

variable {d : Dir} {es gone kept : List Entry}

theorem Tidy.nodup (ht : Tidy d) (hperm : es.Perm d.entries) : es.Nodup :=
  hperm.nodup_iff.2 (List.Nodup.of_map _ ht.distinct)

/-- Unlinking entries removes these and no other. -/
theorem Tidy.entries_without (ht : Tidy d) (hperm : es.Perm d.entries) (hes : es = gone ++ kept) :
    (d.without (gone.flatMap Entry.files)).entries.Perm kept := by
  have hnd := ht.nodup hperm
  subst hes
  rw [Dir.entries_without]
  refine (hperm.symm.filter _).trans ?_
  have hout : gone.filter (fun e => e.main ∉ gone.flatMap Entry.files) = [] :=
    filter_eq_nil_iff.2 fun e he h => of_decide_eq_true h (mem_flatMap.2 ⟨e, he, e.main_mem_files⟩)
  have hin : kept.filter (fun e => e.main ∉ gone.flatMap Entry.files) = kept := by
    refine filter_eq_self.2 fun e he => decide_eq_true fun hmem => ?_
    obtain ⟨k, hk, hmem⟩ := mem_flatMap.1 hmem
    have hek := ht.eq_of_mem_files (hperm.mem_iff.1 (mem_append_right _ he))
      (hperm.mem_iff.1 (mem_append_left _ hk)) e.main_mem_files hmem
    exact (nodup_append.1 hnd).2.2 k hk e he hek.symm
  rw [filter_append, hout, hin, nil_append]

theorem Tidy.total_without (ht : Tidy d) (hperm : es.Perm d.entries) (hes : es = gone ++ kept) :
    (d.without (gone.flatMap Entry.files)).total = (kept.map (Entry.full d)).sum := by
  have hleft := ht.entries_without hperm hes
  have hnd := ht.nodup hperm
  subst hes
  have hmem : ∀ e ∈ gone ++ kept, e ∈ d.entries := fun e he => hperm.mem_iff.1 he
  have hfiles : (kept.flatMap Entry.files).Nodup :=
    ht.nodup_flatMap_files (fun e he => hmem e (mem_append_right _ he)) (nodup_append.1 hnd).2.1
  have hflat := hleft.flatMap_right Entry.files
  -- a file of an entry that is kept is not one of those that are gone
  have hsize : ∀ n ∈ kept.flatMap Entry.files,
      getFileSize (d.without (gone.flatMap Entry.files)) n = getFileSize d n := by
    intro n hn
    refine getFileSize_without ?_
    intro hg
    obtain ⟨k, hk, hnk⟩ := mem_flatMap.1 hn
    obtain ⟨e, he, hne⟩ := mem_flatMap.1 hg
    have hek : e = k := ht.eq_of_mem_files (hmem e (mem_append_left _ he))
      (hmem k (mem_append_right _ hk)) hne hnk
    exact (nodup_append.1 hnd).2.2 e he k hk hek
  calc (d.without (gone.flatMap Entry.files)).total
      = ((kept.flatMap Entry.files).map fun n =>
          (getFileSize (d.without (gone.flatMap Entry.files)) n).toNat).sum := by
        rw [Dir.total, (hflat.nodup_iff.2 hfiles).dedup]
        exact (hflat.map _).sum_eq
    _ = ((kept.flatMap Entry.files).map fun n => (getFileSize d n).toNat).sum := by
        refine congrArg sum (map_congr_left fun n hn => ?_)
        rw [hsize n hn]
    _ = (kept.map (Entry.full d)).sum := by
        rw [map_flatMap, flatMap_def, sum_flatten, map_map]
        rfl

end Split

/-! ## The set and the sum -/

@[simp] theorem CacheEntInfo.make_entry (d : Dir) (e : Entry) : (CacheEntInfo.make d e).entry = e := by
  cases e <;> rfl

@[simp] theorem CacheEntInfo.make_weight (d : Dir) (e : Entry) :
    (CacheEntInfo.make d e).weight = e.weight d := by
  cases e <;> rfl

theorem Entry.counted_le_full (d : Dir) (e : Entry) : e.counted d ≤ e.full d := by
  cases e with
  | mod p =>
    simp only [Entry.counted, Entry.full, Entry.files, map_cons, map_nil, sum_cons,
      sum_nil]
    omega
  | file n => simp [Entry.counted, Entry.full, Entry.files]

variable {d : Dir}

theorem CacheEntInfo.make_size {e : Entry} (h : e.counted d < 2 ^ 64) :
    (CacheEntInfo.make d e).size.toNat = e.counted d := by
  cases e with
  | mod p =>
    show (getFileSize d ⟨p, .ko⟩ + getFileSize d ⟨p, .koSgn⟩).toNat = _
    exact Nat.mod_eq_of_lt h
  | file n => rfl

/-- The order of the set. -/
def Entry.Older (d : Dir) (a b : Entry) : Prop := a.weight d ≤ b.weight d

instance : DecidableRel (Entry.Older d) := fun a b => inferInstanceAs (Decidable (a.weight d ≤ b.weight d))

instance : Std.Total (Entry.Older d) := ⟨fun a b => le_total (a.weight d) (b.weight d)⟩

instance : IsTrans Entry (Entry.Older d) := ⟨fun _ _ _ => le_trans⟩

variable {es done : List Entry}

/-- An entry of a time that the set does not have is inserted. -/
theorem insertInfo_make {e : Entry} (h : ∀ k ∈ done, k.weight d ≠ e.weight d) :
    insertInfo (.make d e) (done.map (.make d)) = (done.orderedInsert (Entry.Older d) e).map (.make d) := by
  induction done with
  | nil => rfl
  | cons k done ih =>
    have hne := h k mem_cons_self
    rw [map_cons, insertInfo, orderedInsert_cons, ih fun z hz => h z (mem_cons_of_mem _ hz)]
    simp only [CacheEntInfo.make_weight]
    by_cases hlt : e.weight d < k.weight d
    · rw [if_pos hlt, if_pos (show Entry.Older d e k from hlt.le)]
      rfl
    · rw [if_neg hlt, if_pos (by omega), if_neg (by unfold Entry.Older; omega)]
      rfl

/-- The loops over the globs, where every entry has a size and a time of its own. -/
theorem foldl_grab {t : UInt64} (hgood : ∀ e ∈ es, (CacheEntInfo.make d e).size ≠ 0 ∧ e.weight d ≠ 0)
    (hdist : ((es.reverse ++ done).map (Entry.weight d)).Nodup) :
    es.foldl (grab d) (t, (done.insertionSort (Entry.Older d)).map (.make d)) =
      (t + ((es.map (.make d)).map CacheEntInfo.size).sum,
        ((es.reverse ++ done).insertionSort (Entry.Older d)).map (.make d)) := by
  induction es generalizing t done with
  | nil => simp
  | cons e es ih =>
    rw [reverse_cons, append_assoc, singleton_append] at hdist ⊢
    have hnew : ∀ k ∈ done.insertionSort (Entry.Older d), k.weight d ≠ e.weight d := by
      intro k hk heq
      rw [map_append, map_cons, nodup_middle] at hdist
      refine (nodup_cons.1 hdist).1 (mem_append_right _ (mem_map.2 ⟨k, ?_, heq⟩))
      exact (perm_insertionSort _ done).mem_iff.1 hk
    have hgrab : grab d (t, (done.insertionSort (Entry.Older d)).map (.make d)) e =
        (t + (CacheEntInfo.make d e).size, ((e :: done).insertionSort (Entry.Older d)).map (.make d)) := by
      simp only [grab, CacheEntInfo.make_weight]
      rw [if_pos (hgood e mem_cons_self), insertInfo_make hnew]
      rfl
    rw [foldl_cons, hgrab, ih (fun k hk => hgood k (mem_cons_of_mem _ hk)) hdist, map_cons, map_cons, sum_cons,
      UInt64.add_assoc]

theorem sum_le_of_mem {size : Entry → Nat} {e : Entry} (h : e ∈ es) : size e ≤ (es.map size).sum :=
  single_le_sum (by simp) _ (mem_map_of_mem h)

theorem Tidy.counted_lt (ht : Tidy d) {e : Entry} (he : e ∈ d.entries) : e.counted d < 2 ^ 64 :=
  (e.counted_le_full d).trans_lt ((sum_le_of_mem he).trans_lt ht.bounded)

/-- The set has the entries of the directory by their times, and the sum is the sum of their sizes. -/
theorem Tidy.collect_eq (ht : Tidy d) :
    ∃ es : List Entry, es.Perm d.entries ∧ es.Pairwise (fun a b => a.weight d < b.weight d)
      ∧ collect d = (((es.map (CacheEntInfo.make d)).map CacheEntInfo.size).sum,
          es.map (CacheEntInfo.make d)) := by
  have hgood : ∀ e ∈ d.entries, (CacheEntInfo.make d e).size ≠ 0 ∧ e.weight d ≠ 0 := by
    intro e he
    refine ⟨?_, ht.dated e he⟩
    intro h0
    have hsize := CacheEntInfo.make_size (ht.counted_lt he)
    rw [h0] at hsize
    exact ht.sized e he hsize.symm
  have hall : (d.entries.reverse ++ []).Perm d.entries := by simp
  have hperm := (perm_insertionSort (Entry.Older d) (d.entries.reverse ++ [])).trans hall
  have hcollect := @foldl_grab _ _ [] 0 hgood ((hall.map _).nodup_iff.2 ht.distinct)
  refine ⟨_, hperm, ?_, hcollect.trans (Prod.ext ?_ rfl)⟩
  · have hne := pairwise_map.1 ((hperm.map (Entry.weight d)).nodup_iff.2 ht.distinct)
    exact ((pairwise_insertionSort (Entry.Older d) _).and hne).imp fun h => lt_of_le_of_ne h.1 h.2
  · rw [UInt64.zero_add]
    exact (((hperm.map _).map _).sum_eq).symm

/-! ## The loop that unlinks -/

/-- What is left of a list when its head is dropped until the rest has a property. -/
def keepFrom {α : Type} (p : List α → Bool) : List α → List α
  | [] => []
  | x :: xs => if p (x :: xs) then x :: xs else keepFrom p xs

theorem keepFrom_holds {α : Type} (p : List α → Bool) (xs : List α) :
    keepFrom p xs = [] ∨ p (keepFrom p xs) = true := by
  induction xs with
  | nil => exact Or.inl rfl
  | cons x xs ih =>
    simp only [keepFrom]
    split_ifs with h
    · exact Or.inr h
    · exact ih

/-- Every end of the list that has the property is kept. -/
theorem suffix_keepFrom {α : Type} {p : List α → Bool} {xs ys : List α} (hys : ys <:+ xs)
    (hp : p ys = true) : ys <:+ keepFrom p xs := by
  induction xs with
  | nil => exact hys
  | cons x xs ih =>
    simp only [keepFrom]
    split_ifs with h
    · exact hys
    · rcases suffix_cons_iff.1 hys with rfl | hys
      · exact absurd hp h
      · exact ih hys

/-- The sizes that the constructor counts, of the entries of a list, are below the limit. -/
def Fits (max : UInt64) (d : Dir) (es : List Entry) : Bool :=
  (es.map (Entry.counted d)).sum / 1024 / 1024 < max.toNat

theorem toNat_sum_size (h : (es.map (Entry.counted d)).sum < 2 ^ 64) :
    ((es.map (CacheEntInfo.make d)).map CacheEntInfo.size).sum.toNat
      = (es.map (Entry.counted d)).sum := by
  induction es with
  | nil => rfl
  | cons e es ih =>
    simp only [map_cons, sum_cons] at h ⊢
    rw [UInt64.toNat_add, ih (by omega), CacheEntInfo.make_size (by omega), Nat.mod_eq_of_lt h]

theorem underLimit_sum (max : UInt64) (h : (es.map (Entry.counted d)).sum < 2 ^ 64) :
    underLimit max ((es.map (CacheEntInfo.make d)).map CacheEntInfo.size).sum = Fits max d es := by
  simp only [underLimit, Fits, UInt64.lt_iff_toNat_lt, UInt64.toNat_div, toNat_sum_size h]
  rfl

theorem Dir.without_append (d : Dir) (ns ms : List FileName) :
    d.without (ns ++ ms) = (d.without ns).without ms := foldl_append

/-- The loop unlinks entries from the front until the rest fits. The sizes are those of the directory
`d₀` before the loop. -/
theorem cleanLoop_eq (max : UInt64) {d0 : Dir}
    (h : (es.map (Entry.counted d0)).sum < 2 ^ 64) (d : Dir) :
    ∃ gone, es = gone ++ keepFrom (Fits max d0) es
      ∧ cleanLoop max (es.map (CacheEntInfo.make d0))
          ((es.map (CacheEntInfo.make d0)).map CacheEntInfo.size).sum d
        = d.without (gone.flatMap Entry.files) := by
  induction es generalizing d with
  | nil => exact ⟨[], rfl, rfl⟩
  | cons e es ih =>
    have hunder := underLimit_sum max h
    by_cases hfit : Fits max d0 (e :: es) = true
    · refine ⟨[], ?_, ?_⟩
      · simp [keepFrom, hfit]
      · rw [map_cons, cleanLoop, ← map_cons, if_pos (hunder.trans hfit)]
        rfl
    · have htail : (es.map (Entry.counted d0)).sum < 2 ^ 64 := by
        rw [map_cons, sum_cons] at h
        omega
      obtain ⟨gone, hgone, hloop⟩ := ih htail (e.unlink d)
      refine ⟨e :: gone, ?_, ?_⟩
      · rw [keepFrom, if_neg hfit, cons_append, ← hgone]
      · have hrest : ((CacheEntInfo.make d0 e :: es.map (CacheEntInfo.make d0)).map
            CacheEntInfo.size).sum - (CacheEntInfo.make d0 e).size
            = ((es.map (CacheEntInfo.make d0)).map CacheEntInfo.size).sum := by
          exact add_sub_cancel_left _ _
        rw [map_cons, cleanLoop, ← map_cons, if_neg (by rwa [hunder])]
        rw [map_cons, hrest, CacheEntInfo.make_entry, hloop, flatMap_cons,
          Dir.without_append]
        rfl

/-! ## When the cache is cleaned -/

/-- In a list ordered by the times, the entries that are not older than one of it start there. -/
theorem filter_from {gone kept : List Entry} {k : Entry}
    (hsorted : (gone ++ k :: kept).Pairwise fun a b => a.weight d < b.weight d) :
    (gone ++ k :: kept).filter (fun e => k.weight d ≤ e.weight d) = k :: kept := by
  obtain ⟨-, hkept, hcross⟩ := pairwise_append.1 hsorted
  rw [filter_append]
  have hold : gone.filter (fun e => k.weight d ≤ e.weight d) = [] := by
    refine filter_eq_nil_iff.2 fun e he => ?_
    have := hcross e he k mem_cons_self
    simpa using this
  have hnew : (k :: kept).filter (fun e => k.weight d ≤ e.weight d) = k :: kept := by
    refine filter_eq_self.2 fun e he => ?_
    rcases mem_cons.1 he with rfl | he
    · simp
    · have := (pairwise_cons.1 hkept).1 e he
      simpa using this.le
  rw [hold, hnew, nil_append]

theorem sumFrom_eq {size : Entry → Nat} {gone kept : List Entry} {k : Entry}
    (hperm : (gone ++ k :: kept).Perm d.entries)
    (hsorted : (gone ++ k :: kept).Pairwise fun a b => a.weight d < b.weight d) :
    sumFrom size d (k.weight d) = ((k :: kept).map size).sum := by
  rw [sumFrom, ← ((hperm.filter _).map size).sum_eq, filter_from hsorted]

/-- Two modules with their sources, and the hash log of one of them. -/
def sampleDir : Dir where
  files := [⟨⟨[97], .ko⟩, 1048576, 10⟩, ⟨⟨[97], .c⟩, 4000, 10⟩, ⟨⟨[98], .ko⟩, 65536, 20⟩,
    ⟨⟨[98], .c⟩, 4000, 20⟩, ⟨⟨[98, 95], .log⟩, 700, 30⟩]
  nodup := by decide

theorem sampleDir_tidy : Tidy sampleDir where
  sized := by decide +kernel
  dated := by decide +kernel
  distinct := by decide +kernel
  separate := by decide +kernel
  bounded := by decide +kernel

/-- A module whose source is larger than the limit. -/
def largeSource : Dir where
  files := [⟨⟨[97], .ko⟩, 65536, 10⟩, ⟨⟨[97], .c⟩, 1048576, 10⟩]
  nodup := by decide

/-- Two user modules of one second, and a newer one. -/
def sameSecond : Dir where
  files := [⟨⟨[97], .so⟩, 1048576, 10⟩, ⟨⟨[98], .so⟩, 1048576, 10⟩, ⟨⟨[99], .so⟩, 1048576, 20⟩]
  nodup := by decide

end Systemtap.Cache
