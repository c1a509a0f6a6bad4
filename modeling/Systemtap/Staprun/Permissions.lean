import Systemtap.Tree.Syntax

/-!
# Who may load a module

`staprun` runs with root's rights, so it decides itself whether the user may load a module.
Root and the members of `stapdev` may load any; the members of `stapusr` only a module with a
trusted signature, or one in `/lib/modules/KVER/systemtap`. Nobody may load a module that does
not match its signature.

`check_groups` looks at the effective group first and goes through the other groups only if that
is not `stapusr`. Someone whose effective group is `stapusr` and who is in `stapdev` as well is
therefore treated as a member of `stapusr` alone (`overlooked`), and this is the only case in
which the decision is not the one above (`assertStapModulePermissions_iff`).

The system calls are an argument: what they report is in `Account` and `PathEnv`. The real ids
that root can set with `SYSTEMTAP_REAL_UID` and the messages are left out.
-/

namespace Systemtap.Staprun

open Systemtap.Tree

/-! ## The path of the module -/

/-- What `check_path` reads of a `struct stat`. -/
structure StatBuf where
  isDir : Bool
  uid : BitVec 32
  worldWritable : Bool
deriving DecidableEq, Repr

/-- What `uname`, `realpath`, `stat` and `fstat (module_fd)` report; `none` where they fail. -/
structure PathEnv where
  release : Option Str
  realpath : Str → Option Str
  stat : Str → Option StatBuf
  fstat : Option StatBuf

/-- `PATH_MAX` -/
def pathMax : Nat := 4096

def slash : UInt8 := 47

/-- `/lib/modules/%s/systemtap` -/
def staplibDirPath (release : Str) : Str :=
  ("/lib/modules/".toList.map fun c => UInt8.ofNat c.toNat) ++ release ++
    ("/systemtap".toList.map fun c => UInt8.ofNat c.toNat)

/-- The directory is one, is root's, and not everybody can write to it. -/
def StatBuf.isRootDir (sb : StatBuf) : Bool := sb.isDir && sb.uid == 0 && !sb.worldWritable

/-- The last part of `check_stap_module_path`: the module itself. -/
def checkModuleFile (sb : StatBuf) : Int :=
  let rc := if sb.uid ≠ 0 then -1 else 1
  if sb.worldWritable then -1 else rc

/-- `check_stap_module_path` -/
def checkStapModulePath (env : PathEnv) (modulePath : Str) : Int :=
  match env.release with
  | none => -1
  | some release =>
    -- `sprintf_chk`
    if pathMax ≤ (staplibDirPath release).length then -1
    else
      match env.realpath (staplibDirPath release) with
      | none => -1
      | some real =>
        if ¬ real.length < pathMax - 1 then -1
        else
          match env.stat (staplibDirPath release) with
          | none => -1
          | some sb =>
            if !sb.isRootDir then -1
            -- the slash keeps out `/lib/modules/KVER/systemtapmod.ko`
            else if ¬ (real ++ [slash]) <+: modulePath then -1
            else
              match env.fstat with
              | none => -1
              | some sb => checkModuleFile sb

/-- `check_uprobes_module_path`: the uprobes module comes from a fixed place. -/
def checkUprobesModulePath : Int := 1

/-- The module is root's, in root's directory, and nobody else can write to either. -/
structure Blessed (env : PathEnv) (modulePath : Str) (release real : Str) (dir file : StatBuf) :
    Prop where
  uname_eq : env.release = some release
  length_lt : (staplibDirPath release).length < pathMax
  realpath_eq : env.realpath (staplibDirPath release) = some real
  real_lt : real.length < pathMax - 1
  stat_eq : env.stat (staplibDirPath release) = some dir
  rootDir : dir.isRootDir = true
  inside : (real ++ [slash]) <+: modulePath
  fstat_eq : env.fstat = some file
  owner : file.uid = 0
  readOnly : file.worldWritable = false

theorem checkModuleFile_eq_one {sb : StatBuf} :
    checkModuleFile sb = 1 ↔ sb.uid = 0 ∧ sb.worldWritable = false := by
  unfold checkModuleFile
  by_cases huid : sb.uid = 0 <;> cases hw : sb.worldWritable <;> simp [huid]

/-- **The path check passes exactly the blessed modules.** -/
theorem checkStapModulePath_eq_one {env : PathEnv} {modulePath : Str} :
    checkStapModulePath env modulePath = 1 ↔
      ∃ release real dir file, Blessed env modulePath release real dir file := by
  constructor
  · intro h
    unfold checkStapModulePath at h
    -- each call and each test but the last ends the check if it fails
    iterate 8
      split at h
      · cases h
    rename_i _ release hrelease hfits _ real hreal hlen _ dir hdir hroot hinside _ file hfile
    obtain ⟨howner, hreadOnly⟩ := checkModuleFile_eq_one.mp h
    exact ⟨release, real, dir, file, hrelease, Nat.lt_of_not_le hfits, hreal, not_not.mp hlen, hdir,
      by simpa using hroot, not_not.mp hinside, hfile, howner, hreadOnly⟩
  · rintro ⟨release, real, dir, file, h⟩
    unfold checkStapModulePath
    simp only [h.uname_eq, h.realpath_eq, h.stat_eq, h.fstat_eq, h.rootDir, h.inside, h.real_lt,
      Nat.not_le.mpr h.length_lt, if_false, not_true_eq_false, Bool.not_true, Bool.false_eq_true]
    exact checkModuleFile_eq_one.mpr ⟨h.owner, h.readOnly⟩

/-! ## The groups of the user -/

/-- `(gid_t) -1`. It is the id of no group: the calls that set one take it for "leave it". -/
def noGid : BitVec 32 := -1

/-- The id of a group that a process can be in. -/
structure Gid where
  val : BitVec 32
  valid : val ≠ noGid
deriving DecidableEq

/-- What `getuid`, `getegid`, `getgroups` and `getgrnam` report. -/
structure Account where
  uid : BitVec 32
  egid : Gid
  groups : List Gid
  stapdev : Option (BitVec 32)
  stapusr : Option (BitVec 32)

/-- The values of `check_signature`. -/
inductive Signature where
  | ok
  | untrusted
  | checkError
  | altered
deriving DecidableEq, Repr

/-- How `check_groups` ends; `aborted` is a failed assertion. -/
inductive GroupCheck where
  | returned (rc : Int) (unprivilegedUser : Bool)
  | aborted
deriving DecidableEq, Repr

/-- The gid of a group, or an invalid number if there is none. -/
def groupGid (group : Option (BitVec 32)) : BitVec 32 := group.getD noGid

/-- The loop of `check_groups`; `none` if it returns 1. -/
def scanGroups (stapdevGid stapusrGid : BitVec 32) : BitVec 32 → List Gid → Option (BitVec 32)
  | gid, [] => some gid
  | gid, g :: gs =>
    if g.val = stapdevGid then none
    else scanGroups stapdevGid stapusrGid (if g.val = stapusrGid then stapusrGid else gid) gs

/-- The end of `check_groups`, for members of `stapusr`. -/
def checkStapusr (signature : Signature) (checkPath : Int) : GroupCheck :=
  match signature with
  | .ok => .returned 1 false
  | .untrusted | .checkError => .returned checkPath false
  | .altered => .aborted

/-- `check_groups` -/
def checkGroups (a : Account) (signature : Signature) (checkPath : Int) : GroupCheck :=
  let stapdevGid := groupGid a.stapdev
  let stapusrGid := groupGid a.stapusr
  if stapdevGid = noGid ∧ stapusrGid = noGid then .returned (-2) false
  else if a.egid.val = stapdevGid then .returned 1 false
  else if a.egid.val ≠ stapusrGid then
    match scanGroups stapdevGid stapusrGid a.egid.val a.groups with
    | none => .returned 1 false
    | some gid => if gid ≠ stapusrGid then .returned 0 true else checkStapusr signature checkPath
  else checkStapusr signature checkPath

/-! ## The decision -/

/-- How `assert_.._permissions` ends. -/
inductive Decision where
  | returned
  | exited
  | aborted
deriving DecidableEq, Repr

/-- What the two `assert_.._permissions` have in common. -/
def assertPermissions (a : Account) (signature : Signature) (checkPath : Int) : Decision :=
  if signature = .altered then .exited
  else if a.uid = 0 then .returned
  else
    match checkGroups a signature checkPath with
    | .returned rc _ => if rc = 1 then .returned else .exited
    | .aborted => .aborted

/-- `assert_stap_module_permissions`. Without NSS there is no signature, and the module is
untrusted. -/
def assertStapModulePermissions (a : Account) (nss : Option Signature) (env : PathEnv)
    (modulePath : Str) : Decision :=
  assertPermissions a (nss.getD .untrusted) (checkStapModulePath env modulePath)

/-- `assert_uprobes_module_permissions`. Without NSS the module is trusted. -/
def assertUprobesModulePermissions (a : Account) (nss : Option Signature) : Decision :=
  assertPermissions a (nss.getD .ok) checkUprobesModulePath

/-! ## The policy -/

/-- The user is in a group that exists. -/
def Account.memberOf (a : Account) (group : Option (BitVec 32)) : Prop :=
  group = some a.egid.val ∨ ∃ g ∈ a.groups, group = some g.val

instance (a : Account) (group : Option (BitVec 32)) : Decidable (a.memberOf group) :=
  inferInstanceAs (Decidable (_ ∨ _))

/-- Who may load a module. -/
def Allowed (a : Account) (signature : Signature) (checkPath : Int) : Prop :=
  signature ≠ .altered ∧ (a.uid = 0 ∨ a.memberOf a.stapdev ∨
    a.memberOf a.stapusr ∧ (signature = .ok ∨ checkPath = 1))

/-- Somebody whose effective group is `stapusr` is in `stapdev` too, and would need it. -/
def overlooked (a : Account) (signature : Signature) (checkPath : Int) : Prop :=
  a.uid ≠ 0 ∧ a.stapusr = some a.egid.val ∧ a.stapdev ≠ some a.egid.val ∧
    (∃ g ∈ a.groups, a.stapdev = some g.val) ∧
    (signature = .untrusted ∨ signature = .checkError) ∧ checkPath ≠ 1

/-- A process is never in the group that stands for "none". -/
theorem Gid.val_eq_groupGid {g : Gid} {group : Option (BitVec 32)} :
    g.val = groupGid group ↔ group = some g.val := by
  cases group with
  | none => exact ⟨fun h => absurd h g.valid, fun h => by cases h⟩
  | some x => exact ⟨fun h => congrArg some h.symm, fun h => (Option.some.inj h).symm⟩

theorem scanGroups_eq_none {dev usr gid : BitVec 32} {gs : List Gid} :
    scanGroups dev usr gid gs = none ↔ ∃ g ∈ gs, g.val = dev := by
  induction gs generalizing gid with
  | nil => simp [scanGroups]
  | cons g gs ih =>
    rw [scanGroups]
    split
    next hg => simp [hg]
    next hg => simp [ih, hg]

/-- Once `stapusr` is found, the loop keeps it. -/
theorem scanGroups_eq_usr {dev usr gid gid' : BitVec 32} {gs : List Gid}
    (h : scanGroups dev usr gid gs = some gid') : gid' = usr ↔ gid = usr ∨ ∃ g ∈ gs, g.val = usr := by
  induction gs generalizing gid with
  | nil =>
    obtain rfl := Option.some.inj h
    simp
  | cons g gs ih =>
    rw [scanGroups] at h
    split at h
    · cases h
    · rw [ih h]
      by_cases hg : g.val = usr <;> simp [hg]

/-- `check_groups` returns 1. -/
def GroupCheck.granted : GroupCheck → Prop
  | .returned rc _ => rc = 1
  | .aborted => False

/-- For members of `stapusr` alone the signature or the path decides. -/
theorem checkStapusr_granted {signature : Signature} {checkPath : Int} (h : signature ≠ .altered) :
    (checkStapusr signature checkPath).granted ↔ signature = .ok ∨ checkPath = 1 := by
  cases signature with
  | altered => exact absurd rfl h
  | ok => simp [checkStapusr, GroupCheck.granted]
  | untrusted | checkError => simp [checkStapusr, GroupCheck.granted]

/-- If neither group exists, the user is in neither. -/
theorem Account.not_memberOf_of_noGid {a : Account} {group : Option (BitVec 32)}
    (h : groupGid group = noGid) : ¬ a.memberOf group := by
  rintro (hg | ⟨g, -, hg⟩)
  · exact a.egid.valid ((Gid.val_eq_groupGid.mpr hg).trans h)
  · exact g.valid ((Gid.val_eq_groupGid.mpr hg).trans h)

/-- What `check_groups` finds: `stapdev` among the other groups counts only for those whose
effective group is not `stapusr`. -/
theorem checkGroups_granted (a : Account) {signature : Signature} {checkPath : Int}
    (h : signature ≠ .altered) : (checkGroups a signature checkPath).granted ↔
      a.stapdev = some a.egid.val ∨
      (a.stapusr ≠ some a.egid.val ∧ ∃ g ∈ a.groups, a.stapdev = some g.val) ∨
      (a.memberOf a.stapusr ∧ (signature = .ok ∨ checkPath = 1)) := by
  unfold checkGroups
  simp only [Gid.val_eq_groupGid, ne_eq]
  split
  next hnone =>
    have hdev := a.not_memberOf_of_noGid hnone.1
    have husr := a.not_memberOf_of_noGid hnone.2
    have hrc : ¬ GroupCheck.granted (.returned (-2) false) := by simp [GroupCheck.granted]
    refine iff_of_false hrc ?_
    rintro (hd | ⟨-, hd⟩ | ⟨hu, -⟩)
    · exact hdev (.inl hd)
    · exact hdev (.inr hd)
    · exact husr hu
  next =>
    split
    next hdev => exact iff_of_true rfl (.inl hdev)
    next hdev =>
      split
      next husr =>
        split
        next hscan =>
          -- the loop has met `stapdev`
          obtain ⟨g, hg, hval⟩ := scanGroups_eq_none.mp hscan
          exact iff_of_true rfl (.inr (.inl ⟨husr, g, hg, Gid.val_eq_groupGid.mp hval⟩))
        next gid hscan =>
          have hnodev : ¬ ∃ g ∈ a.groups, a.stapdev = some g.val := by
            rintro ⟨g, hg, hval⟩
            have hnone : scanGroups (groupGid a.stapdev) (groupGid a.stapusr) a.egid.val a.groups =
                none := scanGroups_eq_none.mpr ⟨g, hg, Gid.val_eq_groupGid.mpr hval⟩
            rw [hnone] at hscan
            cases hscan
          have hmember : gid = groupGid a.stapusr ↔ a.memberOf a.stapusr := by
            rw [scanGroups_eq_usr hscan]
            simp only [Gid.val_eq_groupGid, Account.memberOf]
          split
          next hgid =>
            have hrc : ¬ GroupCheck.granted (.returned 0 true) := by simp [GroupCheck.granted]
            refine iff_of_false hrc ?_
            rintro (hd | ⟨-, hd⟩ | ⟨hu, -⟩)
            · exact hdev hd
            · exact hnodev hd
            · exact hgid (hmember.mpr hu)
          next hgid =>
            rw [checkStapusr_granted h]
            have hmem := hmember.mp (not_not.mp hgid)
            constructor
            · exact fun hok => .inr (.inr ⟨hmem, hok⟩)
            · rintro (hd | ⟨-, hd⟩ | ⟨-, hok⟩)
              · exact absurd hd hdev
              · exact absurd hd hnodev
              · exact hok
      next husr =>
        rw [checkStapusr_granted h]
        have husr := not_not.mp husr
        constructor
        · exact fun hok => .inr (.inr ⟨.inl husr, hok⟩)
        · rintro (hd | ⟨hu, -⟩ | ⟨-, hok⟩)
          · exact absurd hd hdev
          · exact absurd husr hu
          · exact hok

theorem assertPermissions_eq_returned (a : Account) (signature : Signature) (checkPath : Int) :
    assertPermissions a signature checkPath = .returned ↔
      signature ≠ .altered ∧ (a.uid = 0 ∨ (checkGroups a signature checkPath).granted) := by
  unfold assertPermissions
  split
  next h => simp [h]
  next h =>
    split
    next huid => simp [h, huid]
    next huid =>
      rw [and_iff_right h, or_iff_right huid]
      cases checkGroups a signature checkPath with
      | returned rc b => by_cases hrc : rc = 1 <;> simp [hrc, GroupCheck.granted]
      | aborted => simp [GroupCheck.granted]

/-- Where the decision and the policy part. -/
theorem assertPermissions_iff (a : Account) (signature : Signature) (checkPath : Int) :
    (assertPermissions a signature checkPath = .returned ↔ Allowed a signature checkPath) ↔
      ¬ overlooked a signature checkPath := by
  rw [assertPermissions_eq_returned]
  unfold Allowed
  by_cases halt : signature = .altered
  · simp [halt, overlooked]
  · rw [checkGroups_granted a halt]
    unfold overlooked
    by_cases huid : a.uid = 0
    · simp [huid]
    · -- what is left is a question about the two groups
      have hsig : signature = .untrusted ∨ signature = .checkError ↔ signature ≠ .ok := by
        cases signature with
        | altered => exact absurd rfl halt
        | ok | untrusted | checkError => simp
      by_cases hdev : a.stapdev = some a.egid.val
      · simp [hdev, Account.memberOf]
      · by_cases husr : a.stapusr = some a.egid.val
        · by_cases hothers : ∃ g ∈ a.groups, a.stapdev = some g.val
          · simp only [halt, huid, hdev, husr, hothers, Account.memberOf, ne_eq, not_true_eq_false,
              not_false_eq_true, true_and, false_or, true_or, and_true, not_and, not_not,
              iff_true]
            tauto
          · simp only [halt, huid, hdev, husr, hothers, Account.memberOf, ne_eq, not_true_eq_false,
              not_false_eq_true, true_and, false_and, false_or, and_false, true_or]
        · simp only [halt, huid, hdev, husr, Account.memberOf, ne_eq, not_false_eq_true, true_and,
            false_and, false_or, and_false]

/-- **The decision is the policy**, except for the members of `stapdev` whose effective group is
`stapusr`. -/
theorem assertStapModulePermissions_iff (a : Account) (nss : Option Signature) (env : PathEnv)
    (modulePath : Str) :
    (assertStapModulePermissions a nss env modulePath = .returned ↔
      Allowed a (nss.getD .untrusted) (checkStapModulePath env modulePath)) ↔
    ¬ overlooked a (nss.getD .untrusted) (checkStapModulePath env modulePath) :=
  assertPermissions_iff a _ _

/-- An unsigned module, and a user who is in `stapusr` (10) first and in `stapdev` (11) second. -/
def bothGroups : Account where
  uid := 1000
  egid := ⟨10, by decide⟩
  groups := [⟨10, by decide⟩, ⟨11, by decide⟩]
  stapdev := some 11
  stapusr := some 10

/-- `uname` fails. -/
def noPath : PathEnv := ⟨none, fun _ => none, fun _ => none, none⟩

theorem stapdev_refused :
    Allowed bothGroups .untrusted (checkStapModulePath noPath []) ∧
      assertStapModulePermissions bothGroups (some .untrusted) noPath [] = .exited :=
  ⟨⟨by decide, .inr (.inl (.inr ⟨⟨11, by decide⟩, by simp [bothGroups], rfl⟩))⟩, by decide⟩

/-- For the uprobes module no path is asked for, and the decision is the policy. -/
theorem assertUprobesModulePermissions_eq_returned (a : Account) (nss : Option Signature) :
    assertUprobesModulePermissions a nss = .returned ↔
      Allowed a (nss.getD .ok) checkUprobesModulePath :=
  (assertPermissions_iff a _ _).mpr fun h => h.2.2.2.2.2 rfl

end Systemtap.Staprun
