import Mathlib.Data.Rat.Defs
import OxenClaw.Lib.Dict

/-!
# Installing and updating a skill

`SkillInstaller.install` (`clawhub/installer.py`) downloads and unpacks an archive into a staging
directory, looks through it, removes the directory of the skill, copies the new one into place,
writes `.clawhub/origin.json` into it and records the version in `lock.json`. `update` is `install`
with `force`, from the registry the skill came from.

A step is a function `Disk → Except Disk Disk`; one that raises says what it leaves. `Faults` has
for each step whether it raises and how far it got. `install_consistent_iff` says for which faults
the skill is afterwards one complete version with both records naming it.
-/

namespace OxenClaw.Clawhub

/-- A path below a directory, part by part. -/
abbrev Path := List String

/-- `OriginMetadata`. -/
structure OriginMetadata where
  registry : String
  registryName : Option String
  trust : Option String
  slug : String
  installedVersion : String
  installedAt : ℚ
  integrity : Option String
  deriving DecidableEq

/-- A file, as far as it matters whether `OriginMetadata.load` can read it. -/
inductive FileContent where
  | origin (o : OriginMetadata)
  | other (text : String)
  deriving DecidableEq

/-- The files of a directory. -/
abbrev Tree := Dict Path FileContent

/-- `LockEntry`. -/
structure LockEntry where
  version : String
  installedAt : ℚ
  deriving DecidableEq

/-- `Lockfile`, its skills. -/
abbrev Lockfile := Dict String LockEntry

/-- What the installer of one skill finds on disk. The lockfile is `some none` where it does not
parse. -/
structure Disk where
  skill : Option Tree
  staging : Option Tree
  lock : Option (Option Lockfile)

/-- A version in a registry, with what the client says about it. `sourceDir` is the directory of
the `SKILL.md` that `_find_skill_md` finds in the archive. -/
structure Release where
  registry : String
  registryName : Option String
  trust : Option String
  version : String
  integrity : String
  archive : Tree
  sourceDir : Option Path

/-- The files below a directory. -/
def below (dir : Path) (t : Tree) : Tree :=
  t.filterMap fun e => if dir.isPrefixOf e.1 then some (e.1.drop dir.length, e.2) else none

/-- The files that are copied into place. -/
def Release.files (r : Release) : Tree :=
  (r.sourceDir.map (below · r.archive)).getD []

/-- How far `shutil.copytree` got. It goes on after an error and raises at its end. -/
inductive CopyFault where
  /-- `target.parent.mkdir` raised. -/
  | mkdir
  /-- What was written for each file. -/
  | copying (written : Path → FileContent → Option FileContent)

/-- How far a write to a temporary file and `os.replace` got. -/
inductive SaveFault where
  | mkdir
  | writing (written : FileContent)
  | replacing

/-- For each step whether it raises, and how far it got. -/
structure Faults where
  /-- `rmtree` of an old staging directory raised, having removed these files. -/
  clearStaging : Option (Path → Bool) := none
  /-- Unpacking raised, having unpacked this. -/
  extract : Option Tree := none
  /-- The `SKILL.md` does not parse, or the scan has critical findings. -/
  rejected : Bool := false
  /-- `rmtree` of the skill's directory raised, having removed these files. -/
  removeTarget : Option (Path → Bool) := none
  copyTarget : Option CopyFault := none
  saveOrigin : Option SaveFault := none
  loadLock : Bool := false
  saveLock : Option SaveFault := none
  /-- What `rmtree(staging, ignore_errors=True)` leaves. -/
  leftStaging : Option Tree := none
  /-- What `enrich_skill_description` writes, if it gets to it. -/
  enrichment : Option FileContent := none

/-- `.clawhub/origin.json`. -/
def originPath : Path :=
  [".clawhub", "origin.json"]

def originTmpPath : Path :=
  [".clawhub", "origin.json.tmp"]

/-- `cache_path_for_skill`. -/
def enrichedPath : Path :=
  [".clawhub", "llm_desc.json"]

/-- What `rmtree` leaves. -/
def remains (removed : Path → Bool) (t : Tree) : Tree :=
  t.filter fun e => !removed e.1

/-- What `copytree` has written. -/
def copied (written : Path → FileContent → Option FileContent) (t : Tree) : Tree :=
  t.filterMap fun e => (written e.1 e.2).map (e.1, ·)

/-! ## The steps -/

def clearStaging (faults : Faults) (d : Disk) : Except Disk Disk :=
  match d.staging, faults.clearStaging with
  | some t, some removed => .error { d with staging := some (remains removed t) }
  | some _, none => .ok { d with staging := none }
  | none, _ => .ok d

/-- `_extract_zip_to`. -/
def extract (faults : Faults) (r : Release) (d : Disk) : Except Disk Disk :=
  match faults.extract, r.sourceDir with
  | some t, _ => .error { d with staging := some t }
  | none, none => .error { d with staging := some r.archive }
  | none, some _ => .ok { d with staging := some r.archive }

def inspect (faults : Faults) (d : Disk) : Except Disk Disk :=
  if faults.rejected then .error d else .ok d

/-- `shutil.rmtree(target)`. -/
def removeTarget (faults : Faults) (d : Disk) : Except Disk Disk :=
  match d.skill, faults.removeTarget with
  | some t, some removed => .error { d with skill := some (remains removed t) }
  | some _, none => .ok { d with skill := none }
  | none, _ => .ok d

/-- `shutil.copytree(source_dir, target)`. -/
def copyTarget (faults : Faults) (r : Release) (d : Disk) : Except Disk Disk :=
  match faults.copyTarget with
  | some .mkdir => .error d
  | some (.copying written) => .error { d with skill := some (copied written r.files) }
  | none => .ok { d with skill := some r.files }

/-- A file is put into the skill's directory. -/
def Disk.put (d : Disk) (p : Path) (c : FileContent) : Disk :=
  { d with skill := d.skill.map (·.set p c) }

/-- `OriginMetadata.save`. -/
def saveOrigin (faults : Faults) (o : OriginMetadata) (d : Disk) : Except Disk Disk :=
  match faults.saveOrigin with
  | some .mkdir => .error d
  | some (.writing written) => .error (d.put originTmpPath written)
  | some .replacing => .error (d.put originTmpPath (.origin o))
  | none => .ok { d with
      skill := d.skill.map fun t => (t.erase originTmpPath).set originPath (.origin o) }

/-- `Lockfile.load`, `upsert` and `save`. The temporary file is not in the skill's directory. -/
def recordLock (faults : Faults) (slug : String) (entry : LockEntry) (d : Disk) :
    Except Disk Disk :=
  if faults.loadLock then .error d
  else
    match faults.saveLock with
    | some _ => .error d
    | none =>
      let lock := (d.lock.bind id).getD []
      .ok { d with lock := some (some (lock.set slug entry)) }

/-- `enrich_skill_description`, which never raises. -/
def enrich (faults : Faults) (d : Disk) : Disk :=
  match faults.enrichment with
  | some c => d.put enrichedPath c
  | none => d

/-- `try: .. finally: shutil.rmtree(staging, ignore_errors=True)`. -/
def withStaging (faults : Faults) : Except Disk Disk → Except Disk Disk
  | .ok d => .ok { d with staging := faults.leftStaging }
  | .error d => .error { d with staging := faults.leftStaging }

/-- The staging directory is filled, looked through and copied into place. -/
def place (faults : Faults) (r : Release) (d : Disk) : Except Disk Disk := do
  let d ← extract faults r d
  let d ← inspect faults d
  let d ← removeTarget faults d
  copyTarget faults r d

/-- `SkillInstaller.install`. The release is `none` where the client raises. -/
def install (slug : String) (force : Bool) (release : Option Release) (now : ℚ) (faults : Faults)
    (d : Disk) : Except Disk Disk :=
  if d.skill.isSome && !force then .error d
  else
    match release with
    | none => .error d
    | some r => do
      let d ← clearStaging faults d
      let d ← withStaging faults (place faults r d)
      let d ← saveOrigin faults {
        registry := r.registry
        registryName := r.registryName
        trust := r.trust
        slug := slug
        installedVersion := r.version
        installedAt := now
        integrity := some r.integrity } d
      let d ← recordLock faults slug ⟨r.version, now⟩ d
      return enrich faults d

/-- `OriginMetadata.load` of the skill's directory. -/
def loadOrigin (t : Tree) : Option OriginMetadata :=
  match t.get? originPath with
  | some (.origin o) => some o
  | _ => none

/-- The registry `update` goes to : the one on record, if it is among the known ones. -/
def registryFor (names : Option (List String)) (d : Disk) : Option String := do
  let known ← names
  let o ← d.skill.bind loadOrigin
  let name ← o.registryName
  if name ≠ "" ∧ name ∈ known then some name else none

/-- `SkillInstaller.update`. -/
def update (slug : String) (names : Option (List String)) (fetch : Option String → Option Release)
    (now : ℚ) (faults : Faults) (d : Disk) : Except Disk Disk :=
  if (d.skill.bind (·.get? ["SKILL.md"])).isSome then
    install slug true (fetch (registryFor names d)) now faults d
  else .error d

/-- What is on disk when the call has returned or raised. -/
def left : Except Disk Disk → Disk
  | .ok d => d
  | .error d => d

/-! ## Versions -/

/-- A version of a skill, with the files of its archive. -/
structure Version where
  name : String
  files : Tree

def Release.toVersion (r : Release) : Version :=
  ⟨r.version, r.files⟩

/-- A file the installer keeps in the skill's directory. -/
def isRecord (p : Path) : Bool :=
  p = originPath || p = originTmpPath || p = enrichedPath

/-- The directory has the files of the version, beside the installer's own. -/
def Complete (v : Version) (t : Tree) : Prop :=
  ∀ p, isRecord p = false → t.get? p = v.files.get? p

/-- The version in `origin.json`. -/
def originVersion (t : Tree) : Option String :=
  (loadOrigin t).map OriginMetadata.installedVersion

/-- The version in the lockfile. -/
def lockVersion (slug : String) (d : Disk) : Option String :=
  (((d.lock.bind id).getD []).get? slug).map LockEntry.version

/-- The version is on disk, and both records say so. -/
def Holds (slug : String) (v : Version) (d : Disk) : Prop :=
  ∃ t, d.skill = some t ∧ Complete v t ∧ originVersion t = some v.name ∧
    lockVersion slug d = some v.name

/-- One of the two versions is complete, and both records name it. -/
def Consistent (slug : String) (old : Version) (release : Option Release) (d : Disk) : Prop :=
  Holds slug old d ∨ ∃ r ∈ release, Holds slug r.toVersion d

/-- The call raises before it gets to the skill's directory. -/
def Early (faults : Faults) (r : Release) (d : Disk) : Prop :=
  (d.staging.isSome = true ∧ faults.clearStaging.isSome = true) ∨ faults.extract.isSome = true ∨
    r.sourceDir = none ∨ faults.rejected = true

/-- `origin.json` names the old version, and the files are all of it, or all of a new version that
has its name. -/
def KeepsName (old : Version) (r : Release) (t : Tree) : Prop :=
  originVersion t = some old.name ∧
    (Complete old t ∨ r.version = old.name ∧ Complete r.toVersion t)

/-- Nothing is removed but the temporary file or the cache. -/
def Spares (removed : Path → Bool) (t : Tree) : Prop :=
  ∀ p ∈ t.keys, removed p = true → p = originTmpPath ∨ p = enrichedPath

/-- The faults that do no harm. -/
def Harmless (old : Version) (faults : Faults) (d : Disk) : Option Release → Prop
  | none => True
  | some r => Early faults r d ∨
    match faults.removeTarget, faults.copyTarget, faults.saveOrigin with
    | some removed, _, _ => Spares removed (d.skill.getD []) ∨
        r.version = old.name ∧ removed originPath = false ∧
          Complete r.toVersion (remains removed (d.skill.getD []))
    | none, some .mkdir, _ => False
    -- the archive may bring an `origin.json` of its own
    | none, some (.copying written), _ => KeepsName old r (copied written r.files)
    | none, none, some _ => KeepsName old r r.files
    | none, none, none =>
        faults.loadLock = true ∨ faults.saveLock.isSome = true → r.version = old.name

/-! ## What the steps leave -/

variable {slug : String} {old : Version} {r : Release} {faults : Faults} {d d' : Disk} {t : Tree}

theorem complete_set (v : Version) (t : Tree) {p : Path} (hp : isRecord p = true)
    (c : FileContent) : Complete v (t.set p c) ↔ Complete v t := by
  refine forall₂_congr fun q hq => ?_
  rw [Dict.get?_set_of_ne]
  rintro rfl
  rw [hp] at hq
  cases hq

theorem complete_erase (v : Version) (t : Tree) {p : Path} (hp : isRecord p = true) :
    Complete v (t.erase p) ↔ Complete v t := by
  refine forall₂_congr fun q hq => ?_
  rw [Dict.get?_erase_of_ne]
  rintro rfl
  rw [hp] at hq
  cases hq

theorem complete_files (r : Release) : Complete r.toVersion r.files :=
  fun _ _ => rfl

theorem originVersion_set_of_ne (t : Tree) {p : Path} (hp : originPath ≠ p) (c : FileContent) :
    originVersion (t.set p c) = originVersion t := by
  rw [originVersion, loadOrigin, Dict.get?_set_of_ne hp, originVersion, loadOrigin]

theorem originVersion_set_origin (t : Tree) (o : OriginMetadata) :
    originVersion (t.set originPath (.origin o)) = some o.installedVersion := by
  rw [originVersion, loadOrigin, Dict.get?_set_self]
  rfl

theorem get?_remains (removed : Path → Bool) (t : Tree) (p : Path) :
    (remains removed t).get? p = if removed p then none else t.get? p := by
  rw [remains, Dict.get?_filter (fun p => !removed p)]
  rcases removed p <;> rfl

theorem isRecord_originPath : isRecord originPath = true := by decide

theorem isRecord_originTmpPath : isRecord originTmpPath = true := by decide

theorem isRecord_enrichedPath : isRecord enrichedPath = true := by decide

/-- While the lockfile names the old version. -/
theorem consistent_iff_keepsName (hlock : lockVersion slug d' = some old.name)
    (hskill : d'.skill = some t) : Consistent slug old (some r) d' ↔ KeepsName old r t := by
  simp only [Consistent, Option.mem_def, Option.some.injEq, exists_eq_left', Holds, hskill, hlock,
    Release.toVersion, KeepsName]
  constructor
  · rintro (⟨hcomplete, horigin, -⟩ | ⟨hcomplete, horigin, hname⟩)
    · exact ⟨horigin, Or.inl hcomplete⟩
    · exact ⟨horigin.trans (congrArg some hname.symm), Or.inr ⟨hname.symm, hcomplete⟩⟩
  · rintro ⟨horigin, hcomplete | ⟨hname, hcomplete⟩⟩
    · exact Or.inl ⟨hcomplete, horigin, trivial⟩
    · exact Or.inr ⟨hcomplete, horigin.trans (congrArg some hname.symm), hname.symm⟩

theorem not_consistent_of_none {release : Option Release} (hskill : d'.skill = none) :
    ¬Consistent slug old release d' := by
  rintro (⟨t, ht, -⟩ | ⟨r, -, t, ht, -⟩) <;> rw [hskill] at ht <;> cases ht

/-- A removal that was broken off. -/
theorem keepsName_remains (hcomplete : Complete old t) (horigin : originVersion t = some old.name)
    (removed : Path → Bool) : KeepsName old r (remains removed t) ↔ Spares removed t ∨
      r.version = old.name ∧ removed originPath = false ∧
        Complete r.toVersion (remains removed t) := by
  have hkept : originVersion (remains removed t) = some old.name ↔ removed originPath = false := by
    rw [originVersion, loadOrigin, get?_remains]
    rcases hremoved : removed originPath with _ | _
    · rw [if_neg Bool.false_ne_true]
      exact iff_of_true horigin rfl
    · simp
  have hspares : removed originPath = false ∧ Complete old (remains removed t) ↔
      Spares removed t := by
    constructor
    · rintro ⟨hfalse, hall⟩ p hp hremoved
      by_cases hrecord : isRecord p = true
      · simp only [isRecord, Bool.or_eq_true, decide_eq_true_eq, or_assoc] at hrecord
        rcases hrecord with rfl | hrest
        · rw [hfalse] at hremoved
          cases hremoved
        · exact hrest
      · have hget := hall p (by simpa using hrecord)
        rw [get?_remains, if_pos hremoved, ← hcomplete p (by simpa using hrecord)] at hget
        exact absurd hp (Dict.get?_eq_none_iff.1 hget.symm)
    · intro hsp
      refine ⟨?_, fun p hp => ?_⟩
      · by_contra hremoved
        have hmem : originPath ∈ t.keys := by
          rw [Dict.mem_keys_iff]
          rw [originVersion, loadOrigin] at horigin
          rcases hget : t.get? originPath with _ | c
          · simp [hget] at horigin
          · exact ⟨c, rfl⟩
        rcases hsp originPath hmem (by simpa using hremoved) with h | h <;> exact absurd h (by decide)
      · rw [get?_remains, ← hcomplete p hp]
        split_ifs with hremoved
        · by_contra hne
          have hmem : p ∈ t.keys := by
            by_contra hnot
            exact hne (Dict.get?_eq_none_iff.2 hnot).symm
          rcases hsp p hmem hremoved with rfl | rfl
          · rw [isRecord_originTmpPath] at hp
            cases hp
          · rw [isRecord_enrichedPath] at hp
            cases hp
        · rfl
  rw [KeepsName, hkept, ← hspares, and_or_left]
  refine or_congr_right ?_
  rw [and_left_comm]

/-- The disks differ in the staging directory only. -/
def SameSkill (d d' : Disk) : Prop :=
  d'.skill = d.skill ∧ d'.lock = d.lock

theorem SameSkill.consistent_iff (h : SameSkill d d') {release : Option Release} :
    Consistent slug old release d' ↔ Consistent slug old release d := by
  simp only [Consistent, Holds, lockVersion, h.1, h.2]

/-- The old staging directory is cleared, or the call is over. -/
theorem clearStaging_cases (faults : Faults) (d : Disk) :
    (∃ d', clearStaging faults d = .error d' ∧ SameSkill d d' ∧
      d.staging.isSome = true ∧ faults.clearStaging.isSome = true) ∨
    ∃ d', clearStaging faults d = .ok d' ∧ SameSkill d d' ∧
      ¬(d.staging.isSome = true ∧ faults.clearStaging.isSome = true) := by
  unfold clearStaging
  rcases hstaging : d.staging with _ | t
  · exact Or.inr ⟨d, rfl, ⟨rfl, rfl⟩, by simp⟩
  · rcases hfault : faults.clearStaging with _ | removed
    · exact Or.inr ⟨_, rfl, ⟨rfl, rfl⟩, by simp⟩
    · exact Or.inl ⟨_, rfl, ⟨rfl, rfl⟩, by simp⟩

/-- The archive is unpacked and passes, or the call is over. -/
theorem place_cases (faults : Faults) (r : Release) (d : Disk) :
    (∃ d', place faults r d = .error d' ∧ SameSkill d d' ∧
      (faults.extract.isSome = true ∨ r.sourceDir = none ∨ faults.rejected = true)) ∨
    ∃ d', place faults r d = (removeTarget faults d').bind (copyTarget faults r) ∧ SameSkill d d' ∧
      ¬(faults.extract.isSome = true ∨ r.sourceDir = none ∨ faults.rejected = true) := by
  unfold place extract inspect
  rcases hextract : faults.extract with _ | t
  · rcases hsource : r.sourceDir with _ | dir
    · exact Or.inl ⟨_, rfl, ⟨rfl, rfl⟩, by simp⟩
    · rcases hrejected : faults.rejected with _ | _
      · exact Or.inr ⟨_, rfl, ⟨rfl, rfl⟩, by simp⟩
      · exact Or.inl ⟨_, rfl, ⟨rfl, rfl⟩, by simp⟩
  · exact Or.inl ⟨_, rfl, ⟨rfl, rfl⟩, by simp⟩

theorem lockVersion_congr (h : d'.lock = d.lock) : lockVersion slug d' = lockVersion slug d := by
  rw [lockVersion, h, lockVersion]

theorem ok_bind (d : Disk) (f : Disk → Except Disk Disk) : (Except.ok d >>= f) = f d := rfl

theorem withStaging_error (faults : Faults) (d : Disk) :
    withStaging faults (.error d) = .error { d with staging := faults.leftStaging } := rfl

theorem withStaging_ok (faults : Faults) (d : Disk) :
    withStaging faults (.ok d) = .ok { d with staging := faults.leftStaging } := rfl

/-- The cache of the enrichment does not matter. -/
theorem holds_enrich (faults : Faults) {v : Version} (hskill : d.skill = some t)
    (hcomplete : Complete v t) (horigin : originVersion t = some v.name)
    (hlock : lockVersion slug d' = some v.name) (hsame : d'.skill = d.skill) :
    Holds slug v (enrich faults d') := by
  unfold enrich
  rcases faults.enrichment with _ | c
  · exact ⟨t, hsame.trans hskill, hcomplete, horigin, hlock⟩
  · refine ⟨t.set enrichedPath c, ?_, ?_, ?_, hlock⟩
    · exact (congrArg (Option.map (·.set enrichedPath c)) (hsame.trans hskill))
    · rw [complete_set _ _ isRecord_enrichedPath]
      exact hcomplete
    · rw [originVersion_set_of_ne _ (by decide)]
      exact horigin

/-- What follows once the new files are in place. -/
theorem record_consistent_iff (hlock : lockVersion slug d = some old.name)
    (hskill : d.skill = some r.files) (o : OriginMetadata) (ho : o.installedVersion = r.version)
    (now : ℚ) : Consistent slug old (some r) (left (do
      let d ← saveOrigin faults o d
      let d ← recordLock faults slug ⟨r.version, now⟩ d
      return enrich faults d)) ↔
    match faults.saveOrigin with
    | some _ => KeepsName old r r.files
    | none => faults.loadLock = true ∨ faults.saveLock.isSome = true → r.version = old.name := by
  have hput (p : Path) (c : FileContent) : (d.put p c).skill = some (r.files.set p c) := by
    rw [Disk.put, hskill]
    rfl
  have htmp (c : FileContent) : KeepsName old r (r.files.set originTmpPath c) ↔
      KeepsName old r r.files := by
    rw [KeepsName, originVersion_set_of_ne _ (by decide), complete_set _ _ isRecord_originTmpPath,
      complete_set _ _ isRecord_originTmpPath, KeepsName]
  unfold saveOrigin
  rcases hsave : faults.saveOrigin with _ | _ | written | _
  · -- the new origin is in place
    generalize hd : ({ d with skill := d.skill.map fun t =>
      (t.erase originTmpPath).set originPath (.origin o) } : Disk) = d₁
    have hskill₁ : d₁.skill = some ((r.files.erase originTmpPath).set originPath (.origin o)) := by
      rw [← hd, hskill]
      rfl
    have hcomplete : Complete r.toVersion
        ((r.files.erase originTmpPath).set originPath (.origin o)) := by
      rw [complete_set _ _ isRecord_originPath, complete_erase _ _ isRecord_originTmpPath]
      exact complete_files r
    have hlock₁ : lockVersion slug d₁ = some old.name := by
      rw [← hlock, ← hd]
      rfl
    have hkeeps : Consistent slug old (some r) d₁ ↔ r.version = old.name := by
      rw [consistent_iff_keepsName hlock₁ hskill₁, KeepsName, originVersion_set_origin, ho]
      constructor
      · exact fun h => Option.some.inj h.1
      · exact fun h => ⟨congrArg some h, Or.inr ⟨h, hcomplete⟩⟩
    simp only [ok_bind, recordLock]
    rcases hload : faults.loadLock with _ | _
    · rcases hrecord : faults.saveLock with _ | fault
      · -- both records name the new version
        simp only [Bool.false_eq_true, if_false, ok_bind, Option.isSome_none, or_self,
          false_implies, iff_true]
        refine Or.inr ⟨r, rfl, ?_⟩
        exact holds_enrich faults hskill₁ hcomplete (by rw [originVersion_set_origin, ho]; rfl)
          (by simp [lockVersion, Release.toVersion]) rfl
      · simp only [Bool.false_eq_true, if_false, Option.isSome_some, or_true, true_implies]
        exact hkeeps
    · simp only [if_true, true_or, true_implies]
      exact hkeeps
  · exact consistent_iff_keepsName hlock hskill
  · have hlock' : lockVersion slug (d.put originTmpPath written) = some old.name := hlock
    exact (consistent_iff_keepsName hlock' (hput _ _)).trans (htmp written)
  · have hlock' : lockVersion slug (d.put originTmpPath (.origin o)) = some old.name := hlock
    exact (consistent_iff_keepsName hlock' (hput _ _)).trans (htmp _)

theorem install_consistent {release : Option Release} (h : Holds slug old d) (now : ℚ)
    (faults : Faults) : Consistent slug old release (left (install slug true release now faults d)) ↔
      Harmless old faults d release := by
  obtain ⟨t, hskill, hcomplete, horigin, hlock⟩ := h
  have hold : Consistent slug old release d := Or.inl ⟨t, hskill, hcomplete, horigin, hlock⟩
  rcases release with _ | r
  · simp only [install, Bool.not_true, Bool.and_false, Bool.false_eq_true, if_false, Harmless,
      iff_true]
    exact hold
  · simp only [install, Bool.not_true, Bool.and_false, Bool.false_eq_true, if_false, Harmless]
    rcases clearStaging_cases faults d with ⟨d₁, hclear, hsame₁, hcause⟩ | ⟨d₁, hclear, hsame₁, hnot₁⟩
    · rw [hclear]
      exact iff_of_true (hsame₁.consistent_iff.2 hold) (Or.inl (Or.inl hcause))
    · rw [hclear]
      simp only [ok_bind]
      rcases place_cases faults r d₁ with ⟨d₂, hplace, hsame₂, hcause⟩ | ⟨d₂, hplace, hsame₂, hnot₂⟩
      · rw [hplace, withStaging_error]
        refine iff_of_true ?_ (Or.inl (Or.inr hcause))
        have hsame : SameSkill d { d₂ with staging := faults.leftStaging } :=
          ⟨hsame₂.1.trans hsame₁.1, hsame₂.2.trans hsame₁.2⟩
        exact hsame.consistent_iff.2 hold
      · have hearly : ¬Early faults r d := by
          rintro (h | h)
          · exact hnot₁ h
          · exact hnot₂ h
        have hskill₂ : d₂.skill = some t := hsame₂.1.trans (hsame₁.1.trans hskill)
        have hlock₂ : lockVersion slug d₂ = some old.name :=
          (lockVersion_congr (hsame₂.2.trans hsame₁.2)).trans hlock
        rw [hplace, or_iff_right hearly, removeTarget, hskill₂, hskill, Option.getD_some]
        rcases hremove : faults.removeTarget with _ | removed
        · simp only [Except.bind, copyTarget]
          rcases hcopy : faults.copyTarget with _ | _ | written
          · -- the new files are in place
            simp only [withStaging_ok, ok_bind]
            have hlock₃ : lockVersion slug
                { d₂ with skill := some r.files, staging := faults.leftStaging } = some old.name :=
              hlock₂
            refine (record_consistent_iff (r := r) hlock₃ rfl _ (by rfl) now).trans ?_
            rcases faults.saveOrigin <;> rfl
          · exact iff_of_false (not_consistent_of_none rfl) id
          · exact consistent_iff_keepsName ((lockVersion_congr rfl).trans hlock₂) rfl
        · have hlock₃ : lockVersion slug
              { d₂ with skill := some (remains removed t), staging := faults.leftStaging } =
              some old.name := hlock₂
          exact (consistent_iff_keepsName hlock₃ rfl).trans
            (keepsName_remains hcomplete horigin removed)

/-- After `install` with `force`, and after `update`, the skill is one complete version with both
records naming it, exactly if the faults do no harm. -/
theorem install_consistent_iff (slug : String) (old : Version) (d : Disk) (h : Holds slug old d)
    (release : Option Release) (names : Option (List String))
    (fetch : Option String → Option Release) (now : ℚ) (faults : Faults) :
    (Consistent slug old release (left (install slug true release now faults d)) ↔
      Harmless old faults d release) ∧
    (Consistent slug old (fetch (registryFor names d))
        (left (update slug names fetch now faults d)) ↔
      ((d.skill.bind (·.get? ["SKILL.md"])).isSome = true →
        Harmless old faults d (fetch (registryFor names d)))) := by
  refine ⟨install_consistent h now faults, ?_⟩
  unfold update
  split_ifs with hinstalled
  · exact (install_consistent h now faults).trans ⟨fun hharmless _ => hharmless, fun h => h hinstalled⟩
  · exact iff_of_true (Or.inl h) fun hnot => absurd hnot hinstalled

/-- A skill at version 1.0. -/
def installedDisk : Disk where
  skill := some [(["SKILL.md"], .other "one"), (originPath, .origin {
    registry := "hub", registryName := none, trust := none, slug := "s"
    installedVersion := "1.0", installedAt := 0, integrity := none })]
  staging := none
  lock := some (some [("s", ⟨"1.0", 0⟩)])

def oldVersion : Version :=
  ⟨"1.0", [(["SKILL.md"], .other "one")]⟩

/-- The archive of version 1.1. -/
def newRelease : Release where
  registry := "hub"
  registryName := none
  trust := none
  version := "1.1"
  integrity := "sha256-0"
  archive := [(["SKILL.md"], .other "two")]
  sourceDir := some []

theorem holds_installedDisk : Holds "s" oldVersion installedDisk := by
  refine ⟨_, rfl, fun p hp => ?_, rfl, rfl⟩
  have hne : originPath ≠ p := by
    rintro rfl
    rw [isRecord_originPath] at hp
    cases hp
  rw [oldVersion, Dict.get?_cons, Dict.get?_cons, if_neg hne]
  rfl

/-- The faults that leave `lock.json` unwritten, or the new directory uncreated. -/
theorem install_inconsistent : Holds "s" oldVersion installedDisk ∧
    ¬Consistent "s" oldVersion (some newRelease)
      (left (install "s" true (some newRelease) 1 { saveLock := some .replacing } installedDisk)) ∧
    ¬Consistent "s" oldVersion (some newRelease)
      (left (install "s" true (some newRelease) 1 { copyTarget := some .mkdir } installedDisk)) := by
  refine ⟨holds_installedDisk, ?_, not_consistent_of_none rfl⟩
  have hrecords : ∀ v, ¬Holds "s" v
      (left (install "s" true (some newRelease) 1 { saveLock := some .replacing } installedDisk)) := by
    rintro v ⟨t, ht, -, horigin, hlock⟩
    obtain rfl := Option.some.inj ht
    have hname : some "1.1" = some v.name := horigin
    rw [← hname] at hlock
    exact absurd hlock (by decide)
  rintro (h | ⟨r, -, h⟩)
  · exact hrecords _ h
  · exact hrecords _ h

/-- An update of that skill that fails while it unpacks the archive. -/
theorem install_consistent_iff_installedDisk :
    Consistent "s" oldVersion (some newRelease)
      (left (install "s" true (some newRelease) 1 { extract := some [] } installedDisk)) ↔
    Harmless oldVersion { extract := some [] } installedDisk (some newRelease) :=
  (install_consistent_iff "s" oldVersion installedDisk holds_installedDisk (some newRelease) none
    (fun _ => some newRelease) 1 { extract := some [] }).1

end OxenClaw.Clawhub
