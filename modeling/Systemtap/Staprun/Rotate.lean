import Mathlib

/-!
# Rotating the output files

`switch_outfile` of `relay.c` with `init_backlog`, `write_backlog`, `read_backlog` and `open_outfile`, for
the reader of one CPU. A file's name has the time of its opening in it, so the times of the last `fnum_max`
openings are kept in a ring: without them the oldest file could not be named when it is to go.

The ring is right at every limit. What ends the rotation is the number of the file, an `int`: once it is
negative it is below `fnum_max`, and no file is removed any more.
-/

namespace Systemtap.Staprun.Rotate

open List Function Nat Option

/-! ## The program -/

/-- The name that `make_outfile_name` leaves in `buf`: the text, and the number that follows it and a dot. -/
structure Name where
  text : String
  num : Option (BitVec 32)
deriving DecidableEq, Repr

def Name.path (x : Name) : String :=
  x.text ++ x.num.elim "" fun n => "." ++ toString n.toInt

/-- What the options, the system and the clock give the reader. -/
structure Env where
  fnumMax : BitVec 32
  outfileName : String
  /-- The number of the CPU in bulk mode. -/
  bulk : Option Nat
  /-- `stap_strfloctime` on `outfile_name` -/
  strfloctime : Int → Option String
  /-- The time of the nth opening. -/
  time : Nat → Int
  /-- Whether `open` and `set_clexec` succeed. -/
  opens : String → Bool

/-- The lists have the newest name first; `files` are the opened ones that are still there. -/
structure Reader where
  fnum : BitVec 32
  /-- `time_backlog[cpu]` -/
  backlog : Nat → Int
  opened : List Name
  removed : List Name
  files : List Name

/-- `while (fnum_max >> order) order++` -/
def orderLoop (m order : Nat) : Nat :=
  if m >>> order = 0 then order else orderLoop m (order + 1)
termination_by m >>> order
decreasing_by exact div_lt_self (pos_of_ne_zero ‹_›) one_lt_two

def backlogOrder (m : Nat) : Nat :=
  let order := orderLoop m 0
  if m = 1 <<< (order - 1) then order - 1 else order

/-- `fnum & BACKLOG_MASK` -/
def slot (env : Env) (fnum : BitVec 32) : Nat :=
  fnum.toNat &&& (1 <<< backlogOrder env.fnumMax.toNat - 1)

def makeOutfileName (env : Env) (fnum : BitVec 32) (t : Int) : Option Name :=
  (env.strfloctime t).bind fun buf =>
    if env.outfileName = "/dev/null" then some ⟨"/dev/null", none⟩
    else
      let name : Name := ⟨buf ++ env.bulk.elim "" fun cpu => "_cpu" ++ toString cpu, some fnum⟩
      if name.path.length < 4096 then some name else none

/-- What `open_outfile` does for `fnum_max`: the oldest file goes, then its time is written over. -/
def shiftBacklog (env : Env) (s : Reader) (t : Int) (removeFile : Bool) : Option Reader :=
  let s' := { s with backlog := update s.backlog (slot env s.fnum) t }
  if removeFile then
    let oldest := s.fnum - env.fnumMax
    (makeOutfileName env oldest (s.backlog (slot env oldest))).map fun old =>
      { s' with removed := old :: s.removed, files := s.files.erase old }
  else some s'

def openOutfile (env : Env) (s : Reader) (removeFile : Bool) : Option Reader :=
  let t := env.time s.opened.length
  (if env.fnumMax = 0 then some s else shiftBacklog env s t removeFile).bind fun s' =>
    (makeOutfileName env s.fnum t).bind fun name =>
      if env.opens name.path then
        some { s' with opened := name :: s.opened, files := s'.files.insert name }
      else none

def switchOutfile (env : Env) (s : Reader) : Option Reader :=
  let fnum := s.fnum + 1
  openOutfile env { s with fnum } (env.fnumMax ≠ 0 && env.fnumMax.sle fnum)

/-- The reader after `n` switches. The first file is opened by `init_relayfs`. -/
def switches (env : Env) : Nat → Option Reader
  | 0 => openOutfile env ⟨0, fun _ => 0, [], [], []⟩ false
  | n + 1 => (switches env n).bind (switchOutfile env)

/-- The files that were removed are those opened `fnum_max` openings before, and as many as wanted remain. -/
def Keeps (m : Nat) (s : Reader) : Prop :=
  s.removed = s.opened.drop m ∧ s.files.length = min s.opened.length m

/-! ## The ring -/

theorem le_orderLoop (m order : Nat) : m < 2 ^ orderLoop m order := by
  fun_induction orderLoop m order with
  | case1 order h =>
    rw [shiftRight_eq_div_pow] at h
    exact (Nat.div_eq_zero_iff_lt (Nat.two_pow_pos order)).mp h
  | case2 order h ih => exact ih

/-- The ring has room for the last `m` openings. -/
theorem le_two_pow_backlogOrder (m : Nat) : m ≤ 2 ^ backlogOrder m := by
  have := le_orderLoop m 0
  unfold backlogOrder
  dsimp only
  split
  case isTrue h => rw [one_shiftLeft] at h; omega
  case isFalse => omega

variable {env : Env}

theorem slot_ofNat {i : Nat} (hi : i < 2 ^ 31) :
    slot env (BitVec.ofNat 32 i) = i % 2 ^ backlogOrder env.fnumMax.toNat := by
  rw [slot, one_shiftLeft, and_two_pow_sub_one_eq_mod, BitVec.toNat_ofNat,
    mod_eq_of_lt (by omega : i < 2 ^ 32)]

/-- Openings less than `fnum_max` apart have different slots. -/
theorem slot_ne {i j : Nat} (hij : i < j) (hj : j < i + env.fnumMax.toNat) (h31 : j < 2 ^ 31) :
    slot env (BitVec.ofNat 32 i) ≠ slot env (BitVec.ofNat 32 j) := by
  rw [slot_ofNat (by omega), slot_ofNat h31]
  intro h
  have := le_of_dvd (by omega) (dvd_of_mod_eq_zero (sub_mod_eq_zero_of_mod_eq h.symm))
  have := le_two_pow_backlogOrder env.fnumMax.toNat
  omega

/-! ## One opening -/

theorem makeOutfileName_some {fnum : BitVec 32} {t : Int} {x : Name}
    (h : makeOutfileName env fnum t = some x) :
    if env.outfileName = "/dev/null" then x = ⟨"/dev/null", none⟩ else x.num = some fnum := by
  obtain ⟨buf, -, h⟩ := bind_eq_some_iff.mp h
  split
  case isTrue hd => rw [if_pos hd] at h; cases h; rfl
  case isFalse hd =>
    rw [if_neg hd] at h
    dsimp only at h
    split at h
    · cases h; rfl
    · cases h

/-- What a successful opening does, with `gone` for the file that is removed. -/
theorem openOutfile_some {s s' : Reader} {removeFile : Bool} (hm : env.fnumMax ≠ 0)
    (h : openOutfile env s removeFile = some s') :
    ∃ x gone, makeOutfileName env s.fnum (env.time s.opened.length) = some x ∧
      (if removeFile then ∃ old, gone = some old ∧
        makeOutfileName env (s.fnum - env.fnumMax) (s.backlog (slot env (s.fnum - env.fnumMax))) = some old
        else gone = none) ∧
      s' = ⟨s.fnum, update s.backlog (slot env s.fnum) (env.time s.opened.length), x :: s.opened,
        gone.toList ++ s.removed, (gone.elim s.files s.files.erase).insert x⟩ := by
  obtain ⟨s1, hs1, h⟩ := bind_eq_some_iff.mp h
  obtain ⟨x, hx, h⟩ := bind_eq_some_iff.mp h
  split at h
  case isFalse => cases h
  cases h
  rw [if_neg hm, shiftBacklog] at hs1
  cases removeFile with
  | false =>
    cases hs1
    exact ⟨x, none, hx, rfl, rfl⟩
  | true =>
    obtain ⟨old, hold, rfl⟩ := map_eq_some_iff.mp hs1
    exact ⟨x, some old, hx, ⟨old, rfl, hold⟩, rfl⟩

/-! ## Every switch -/

/-- The reader after `k` switches, as long as the number has not wrapped around. -/
structure Rotated (env : Env) (k : Nat) (s : Reader) : Prop where
  fnum : s.fnum = BitVec.ofNat 32 k
  count : s.opened.length = k + 1
  backlog : ∀ i ≤ k, k < i + env.fnumMax.toNat → s.backlog (slot env (BitVec.ofNat 32 i)) = env.time i
  name : ∀ j ≤ k, ∃ x, s.opened[j]? = some x ∧
    makeOutfileName env (BitVec.ofNat 32 (k - j)) (env.time (k - j)) = some x
  removed : s.removed = s.opened.drop env.fnumMax.toNat
  files : s.files = s.opened.take env.fnumMax.toNat

variable {k c : Nat} {s s' : Reader}

/-- A number that none of the newest `c` files has makes a name that none of them has. -/
theorem Rotated.fresh (h : Rotated env k s) {i : Nat} {t : Int} {x : Name}
    (hd : env.outfileName = "/dev/null" → c = 0)
    (hx : makeOutfileName env (BitVec.ofNat 32 i) t = some x) (hi : i < 2 ^ 31) (hk : k < 2 ^ 31)
    (hic : k < i ∨ i + c ≤ k) : x ∉ s.opened.take c := by
  intro hmem
  obtain ⟨j, hj, hjx⟩ := mem_take_iff_getElem.mp hmem
  have hcount := h.count
  obtain ⟨y, hy, hyname⟩ := h.name j (by omega)
  rw [getElem?_eq_getElem (by omega), hjx] at hy
  cases hy
  have hxnum := makeOutfileName_some hx
  have hynum := makeOutfileName_some hyname
  rw [if_neg (fun hnull => by have := hd hnull; omega)] at hxnum hynum
  have := congrArg BitVec.toNat (some.inj (hxnum.symm.trans hynum))
  rw [BitVec.toNat_ofNat, BitVec.toNat_ofNat] at this
  omega

section

variable (hc : env.fnumMax.toNat = c + 1)
include hc

theorem fnumMax_ne_zero : env.fnumMax ≠ 0 := by
  intro h
  rw [h] at hc
  cases hc

theorem Rotated.start (h : switches env 0 = some s) : Rotated env 0 s := by
  obtain ⟨x, _, hx, rfl, rfl⟩ := openOutfile_some (fnumMax_ne_zero hc) h
  refine ⟨rfl, rfl, ?_, ?_, by rw [hc]; exact drop_nil.symm, by rw [hc]; exact congrArg _ take_nil.symm⟩
  · intro i hi _
    rw [le_zero.mp hi]
    exact update_self ..
  · intro j hj
    rw [le_zero.mp hj]
    exact ⟨x, rfl, hx⟩

variable (h30 : env.fnumMax.toNat ≤ 2 ^ 30)
include h30

/-- A file is removed from the `fnum_max`th switch on, until the number is negative. -/
theorem Rotated.switch (h : Rotated env k s) (hk : k + 1 ≤ 2 ^ 31) (hs : switchOutfile env s = some s') :
    openOutfile env { s with fnum := BitVec.ofNat 32 (k + 1) } (decide (c ≤ k ∧ k + 1 < 2 ^ 31)) = some s' := by
  have hnum : s.fnum + 1 = BitVec.ofNat 32 (k + 1) := by rw [h.fnum, BitVec.ofNat_add]; rfl
  have hsle : env.fnumMax.sle (BitVec.ofNat 32 (k + 1)) = decide (c ≤ k ∧ k + 1 < 2 ^ 31) := by
    rw [Bool.eq_iff_iff, BitVec.sle_iff_toInt_le, BitVec.toInt_eq_toNat_cond, BitVec.toInt_eq_toNat_cond,
      BitVec.toNat_ofNat, decide_eq_true_eq]
    omega
  rwa [switchOutfile, hnum, hsle, decide_eq_true (fnumMax_ne_zero hc)] at hs

theorem Rotated.step (h : Rotated env k s) (hd : env.outfileName = "/dev/null" → c = 0)
    (hk : k + 1 < 2 ^ 31) (hs : switchOutfile env s = some s') : Rotated env (k + 1) s' := by
  have hcount := h.count
  obtain ⟨x, gone, hx, hgone, rfl⟩ :=
    openOutfile_some (fnumMax_ne_zero hc) (h.switch hc h30 (by omega) hs)
  dsimp only at hx hgone ⊢
  rw [hcount] at hx ⊢
  -- Both ways the newest `fnum_max - 1` files are there when the new one is opened.
  have hrest : gone.toList ++ s.removed = s.opened.drop c ∧
      gone.elim s.files s.files.erase = s.opened.take c := by
    rw [h.removed, h.files, hc]
    by_cases hle : c ≤ k
    · rw [if_pos (decide_eq_true ⟨hle, hk⟩)] at hgone
      obtain ⟨old, rfl, hold⟩ := hgone
      have hnum : BitVec.ofNat 32 (k + 1) - env.fnumMax = BitVec.ofNat 32 (k - c) := by
        apply BitVec.eq_of_toNat_eq
        rw [BitVec.toNat_sub, BitVec.toNat_ofNat, BitVec.toNat_ofNat]
        omega
      rw [hnum, h.backlog _ (by omega) (by omega)] at hold
      obtain ⟨y, hy, hyname⟩ := h.name c hle
      cases hold.symm.trans hyname
      have hfresh := h.fresh hd hold (by omega) (by omega) (by omega)
      rw [@drop_eq_getElem?_toList_append _ s.opened c, take_add_one, hy]
      refine ⟨rfl, ?_⟩
      show (take c s.opened ++ [old]).erase old = _
      rw [erase_append_right _ hfresh, erase_cons_head, append_nil]
    · rw [if_neg (by simp [hle])] at hgone
      subst hgone
      show drop (c + 1) s.opened = _ ∧ take (c + 1) s.opened = _
      rw [drop_eq_nil_of_le (by omega), drop_eq_nil_of_le (by omega), take_of_length_le (by omega),
        take_of_length_le (by omega)]
      exact ⟨rfl, rfl⟩
  rw [hrest.1, hrest.2, insert_of_not_mem (h.fresh hd hx hk (by omega) (by omega))]
  refine ⟨rfl, congrArg (· + 1) hcount, ?_, ?_, by rw [hc]; rfl, by rw [hc]; rfl⟩
  · intro i hi hik
    rcases lt_or_eq_of_le hi with hlt | rfl
    · exact (update_of_ne (slot_ne hlt hik hk) ..).trans (h.backlog i (by omega) (by omega))
    · exact update_self ..
  · intro j hj
    cases j with
    | zero => exact ⟨x, rfl, hx⟩
    | succ j =>
      rw [Nat.add_sub_add_right]
      exact h.name j (by omega)

theorem switches_rotated (hd : env.outfileName = "/dev/null" → c = 0) :
    ∀ {n : Nat} {s : Reader}, n < 2 ^ 31 → switches env n = some s → Rotated env n s
  | 0, _, _, h => Rotated.start hc h
  | _ + 1, _, hn, h => by
    obtain ⟨s1, hs1, h⟩ := bind_eq_some_iff.mp h
    exact (switches_rotated hd (by omega) hs1).step hc h30 hd hn h

/-- A switch that removes nothing leaves a file too many, or opens the same one again. -/
theorem Rotated.not_keeps (h : Rotated env k s) (hs : switchOutfile env s = some s')
    (hlost : k + 1 = 2 ^ 31 ∨ k = 0 ∧ 0 < c ∧ env.outfileName = "/dev/null") : ¬ Keeps env.fnumMax.toNat s' := by
  have hcount := h.count
  obtain ⟨x, gone, hx, hgone, rfl⟩ :=
    openOutfile_some (fnumMax_ne_zero hc) (h.switch hc h30 (by omega) hs)
  rw [if_neg (by simp; omega)] at hgone
  subst hgone
  intro ⟨hremoved, hlength⟩
  rcases hlost with hk | ⟨rfl, hpos, hnull⟩
  · have := congrArg length hremoved
    simp [h.removed, hcount] at this
    omega
  · obtain ⟨y, hy, hyname⟩ := h.name 0 (le_refl 0)
    have hxnull := makeOutfileName_some hx
    have hynull := makeOutfileName_some hyname
    rw [if_pos hnull] at hxnull hynull
    obtain ⟨z, hz⟩ := length_eq_one_iff.mp hcount
    rw [hz] at hy
    cases hy
    simp [h.files, hz, hc, hxnull, hynull] at hlength
    omega

end

/-- Where no switch fails, the newest files are kept through `n` switches just if the names differ and the
number of the file stays positive. -/
theorem keeps_iff (env : Env) (n : Nat) (h1 : 1 ≤ env.fnumMax.toNat) (h30 : env.fnumMax.toNat ≤ 2 ^ 30)
    (hn : ∀ k ≤ n, switches env k ≠ none) :
    (∀ k ≤ n, ∀ s, switches env k = some s → Keeps env.fnumMax.toNat s) ↔
      n = 0 ∨ (env.outfileName = "/dev/null" → env.fnumMax.toNat = 1) ∧ n < 2 ^ 31 := by
  obtain ⟨c, hc⟩ := Nat.exists_eq_add_of_le' h1
  constructor
  · intro h
    -- No reader that is still right can have made a switch that is not.
    have hright : ∀ k < n, ∀ s, switches env k = some s → Rotated env k s →
        ¬ (k + 1 = 2 ^ 31 ∨ k = 0 ∧ 0 < c ∧ env.outfileName = "/dev/null") := by
      intro k hk s hs hr hlost
      obtain ⟨s', hs'⟩ := ne_none_iff_exists'.mp (hn (k + 1) hk)
      have hswitch : switchOutfile env s = some s' := by rwa [switches, hs] at hs'
      exact hr.not_keeps hc h30 hswitch hlost (h (k + 1) hk s' hs')
    refine or_iff_not_imp_left.mpr fun hpos => ?_
    have hd : env.outfileName = "/dev/null" → c = 0 := by
      intro hnull
      obtain ⟨s, hs⟩ := ne_none_iff_exists'.mp (hn 0 (by omega))
      have := hright 0 (by omega) s hs (Rotated.start hc hs)
      by_contra hne
      exact this (.inr ⟨rfl, by omega, hnull⟩)
    refine ⟨fun hnull => by rw [hc, hd hnull], Nat.lt_of_not_le fun hle => ?_⟩
    obtain ⟨k, hk⟩ : ∃ k, k + 1 = 2 ^ 31 := ⟨2147483647, rfl⟩
    obtain ⟨s, hs⟩ := ne_none_iff_exists'.mp (hn k (by omega))
    exact hright k (by omega) s hs (switches_rotated hc h30 hd (by omega) hs) (.inl hk)
  · intro h k hk s hs
    suffices Rotated env k s from ⟨this.removed, by rw [this.files, length_take, Nat.min_comm]⟩
    rcases h with rfl | ⟨hd, hlt⟩
    · cases Nat.le_zero.mp hk
      exact Rotated.start hc hs
    · exact switches_rotated hc h30 (fun hnull => by have := hd hnull; omega) (by omega) hs

/-- At most `m` files of a name without the time in it. -/
def namedEnv (m : BitVec 32) (name : String) : Env :=
  ⟨m, name, none, fun _ => some name, fun _ => 0, fun _ => true⟩

theorem keeps_two : ∃ s, switches (namedEnv 2 "out") 1 = some s ∧ Keeps 2 s :=
  ⟨_, rfl, (keeps_iff (namedEnv 2 "out") 1 (by decide) (by decide) (by decide)).mpr
    (.inr (by decide)) 1 (le_refl 1) _ rfl⟩

theorem keeps_not_devNull : ∃ s, switches (namedEnv 2 "/dev/null") 1 = some s ∧ ¬ Keeps 2 s :=
  ⟨_, rfl, by simp [Keeps]⟩

end Systemtap.Staprun.Rotate
