import OxenClaw.Backup.Archive

/-!
# Where a restore writes

Any tar file can be given to `restore_backup`. What `verify_backup` accepts has a member with the
right checksum for every name of its manifest, and nothing is asked of the names. Each is joined to
the home and opened, so that a name that is absolute or has `..` in it may lead anywhere.

The files a restore creates and overwrites are beneath the home exactly if the names of the
manifest lead there, up to the first that cannot be opened (`written_beneath_iff`). Everything else
on the disk stays as it is (`get?_restoreBackup`), and names without `..` that are relative lead
beneath the home (`beneath_resolve_of_plain`).

The disk has no symbolic links.
-/

namespace OxenClaw.Backup

open OxenClaw

/-- What a member of a tar file is, a link with what is found through it. -/
inductive Member where
  | regular (c : Content)
  | link (found : Option Content)
  | other
  deriving DecidableEq

/-- `tar.extractfile(member)`, `none` where it raises. -/
def Member.extractfile : Member → Option (Option Content)
  | .regular c => some (some c)
  | .link found => found.map some
  | .other => some none

/-- A tar file, by the names and the kinds of its members. -/
structure TarFile where
  members : List (Name × Member)

namespace TarFile

/-- `tar.getmember(name)` : the last member of the name. -/
def getmember (a : TarFile) (name : Name) : Option Member :=
  (a.members.reverse.find? fun e => e.1 = rstripSlash name).map Prod.snd

/-- The content of a regular member. -/
def content (a : TarFile) (rel : Name) : Option Content :=
  ((a.getmember (memberName rel)).bind Member.extractfile).join

/-- `_read_manifest_from_archive`. -/
def readManifest (a : TarFile) : Option BackupManifest :=
  match a.content manifestName with
  | some (.manifest m) => some m
  | _ => none

/-- `verify_backup`, `none` where it raises. -/
def verifyBackup (sha256 : Content → String) (a : TarFile) : Option BackupManifest :=
  a.readManifest.filter fun m => m.files.all fun e =>
    (a.content e.1).any fun c => sha256 c = e.2

end TarFile

/-! ## The disk -/

def dotdot : Name :=
  lit ".."

/-- The home directory, and what the operating system and the hash function do. -/
structure System where
  home : Path
  /-- A file or a directory may be made at the path. -/
  permits : Path → Bool
  sha256 : Content → String
  home_plain : dotdot ∉ home

/-- Where one part of a path leads. -/
def enter (p : Path) (n : Name) : Path :=
  if n = dotdot then p.dropLast else p ++ [n]

/-- Where a path leads from the root. -/
def resolve (parts : List Name) : Path :=
  parts.foldl enter []

/-- The directories on the way. -/
def locations (parts : List Name) : List Path :=
  parts.inits.map resolve

/-- The parts of `target / rel`. -/
def destParts (home : Path) (rel : Name) : List Name :=
  if rel.head? = some 47 then pathOf rel else home ++ pathOf rel

/-- `path.mkdir(parents=True, exist_ok=True)`, `none` where it raises. -/
def mkdirs (s : System) (disk : Target) (parts : List Name) : Option Target :=
  if (locations parts).all fun p =>
      !(disk.files.keys.contains p) && (disk.isDir p || s.permits p) then
    some { disk with dirs := disk.dirs ++ locations parts }
  else none

/-- `dst.parent.mkdir(..)` and `dst.open("wb")`, `none` where one of them raises. -/
def openWb (s : System) (disk : Target) (parts : List Name) : Option Target := do
  let disk ← mkdirs s disk parts.dropLast
  if disk.isDir (resolve parts) || !s.permits (resolve parts) then none else return disk

/-- There is something in the directory. -/
def hasEntries (disk : Target) (p : Path) : Bool :=
  (disk.files.keys ++ disk.dirs).any fun q => p.isPrefixOf q && p ≠ q

/-! ## Restoring -/

/-- `RestoreResult` on its way, with the disk and the files that were opened. -/
structure Restoring where
  disk : Target
  written : List Path := []
  restoredFiles : List Name := []
  skippedFiles : List Name := []
  raised : Bool := false

/-- One round of the loop of `restore_backup`. -/
def restoreFile (s : System) (a : TarFile) (r : Restoring) (rel : Name) : Restoring :=
  if r.raised then r
  else
    match (a.getmember (memberName rel)).map Member.extractfile with
    | none => { r with skippedFiles := r.skippedFiles ++ [rel] }
    | some none => { r with raised := true }
    | some (some none) => { r with skippedFiles := r.skippedFiles ++ [rel] }
    | some (some (some c)) =>
      let dst := resolve (destParts s.home rel)
      match openWb s r.disk (destParts s.home rel) with
      | none => { r with raised := true }
      | some disk =>
        { r with
          disk := { disk with files := disk.files.set dst c }
          written := r.written ++ [dst]
          restoredFiles := r.restoredFiles ++ [rel] }

namespace TarFile

/-- `restore_backup`. -/
def restoreBackup (s : System) (a : TarFile) (disk : Target) (dryRun overwrite : Bool) :
    Restoring :=
  match a.verifyBackup s.sha256 with
  | none => { disk, raised := true }
  | some manifest =>
    if hasEntries disk s.home && !overwrite && !dryRun then { disk, raised := true }
    else if dryRun then { disk, restoredFiles := manifest.files.keys }
    else
      match mkdirs s disk s.home with
      | none => { disk, raised := true }
      | some disk => manifest.files.keys.foldl (restoreFile s a) { disk }

end TarFile

/-! ## Where the names lead -/

/-- Beneath a directory. -/
def Beneath (home p : Path) : Prop :=
  home <+: p ∧ p ≠ home

instance (home p : Path) : Decidable (Beneath home p) :=
  inferInstanceAs (Decidable (_ ∧ _))

/-- The disk with a file where the name leads. -/
def laid (s : System) (disk : Target) (rel : Name) : Target where
  files := disk.files.set (resolve (destParts s.home rel)) (.bytes [])
  dirs := disk.dirs ++ locations (destParts s.home rel).dropLast

/-- The names lead beneath the home, up to the first that cannot be opened with the files of those
before it in their places. -/
def LeadBeneath (s : System) : Target → List Name → Prop
  | _, [] => True
  | disk, rel :: rels => (openWb s disk (destParts s.home rel)).isSome →
      Beneath s.home (resolve (destParts s.home rel)) ∧ LeadBeneath s (laid s disk rel) rels

/-- A directory in which to restore. -/
def Restorable (s : System) (disk : Target) (dryRun overwrite : Bool) : Prop :=
  dryRun = false ∧ (hasEntries disk s.home = true → overwrite = true)

/-- A relative name without `..` leads beneath the home, unless it has no parts. -/
theorem beneath_resolve_of_plain {s : System} {rel : Name} (hrel : rel.head? ≠ some 47)
    (hparts : dotdot ∉ pathOf rel) (hne : pathOf rel ≠ []) :
    Beneath s.home (resolve (destParts s.home rel)) := by
  have hplain : ∀ (parts p : Path), dotdot ∉ parts → parts.foldl enter p = p ++ parts := by
    intro parts
    induction parts with
    | nil => simp
    | cons n parts ih =>
      intro p h
      obtain ⟨hn, hparts⟩ := not_or.1 (mt List.mem_cons.2 h)
      rw [List.foldl_cons, ih _ hparts, enter, if_neg (Ne.symm hn), List.append_assoc,
        List.singleton_append]
  rw [destParts, if_neg hrel, resolve, hplain _ _ (by simp [s.home_plain, hparts]), List.nil_append]
  exact ⟨List.prefix_append _ _, fun h => hne (by simpa using h)⟩

/-! ## The disk and the names -/

section Disk

variable {s : System} {a : TarFile} {disk disk' : Target}

/-- Files at the same paths, whatever they hold, and the same directories. -/
structure Target.Alike (disk disk' : Target) : Prop where
  keys : disk.files.keys = disk'.files.keys
  dirs : disk.dirs = disk'.dirs

theorem Target.Alike.isDir (h : disk.Alike disk') (p : Path) : disk.isDir p = disk'.isDir p := by
  have hfiles (t : Target) : (t.files.any fun e => p.isPrefixOf e.1 && decide (p ≠ e.1)) =
      t.files.keys.any fun q => p.isPrefixOf q && decide (p ≠ q) := by
    rw [Dict.keys, List.any_map]
    rfl
  rw [Target.isDir, Target.isDir, hfiles, hfiles, h.keys, h.dirs]

theorem Target.Alike.openWb (h : disk.Alike disk') (parts : List Name) :
    (openWb s disk parts).isSome = (Backup.openWb s disk' parts).isSome := by
  have hdirs : ({ disk with dirs := disk.dirs ++ locations parts.dropLast } : Target).Alike
      { disk' with dirs := disk'.dirs ++ locations parts.dropLast } :=
    ⟨h.keys, congrArg (· ++ _) h.dirs⟩
  rw [Backup.openWb, Backup.openWb, mkdirs, mkdirs, h.keys]
  simp only [h.isDir]
  split_ifs
  · simp only [Option.bind_eq_bind, Option.bind_some, hdirs.isDir]
    split_ifs <;> rfl
  · rfl

theorem openWb_eq_some {disk' : Target} {parts : List Name} (h : openWb s disk parts = some disk') :
    disk' = { disk with dirs := disk.dirs ++ locations parts.dropLast } := by
  obtain ⟨d, hd, h⟩ := Option.bind_eq_some_iff.1 h
  rw [mkdirs] at hd
  split_ifs at hd h
  rw [← Option.some.inj h, ← Option.some.inj hd]

theorem foldl_restoreFile_of_raised {r : Restoring} (h : r.raised = true) (rels : List Name) :
    rels.foldl (restoreFile s a) r = r := by
  induction rels with
  | nil => rfl
  | cons rel rels ih => rw [List.foldl_cons, restoreFile, if_pos h, ih]

/-- What a round writes, when the archive has the file. -/
theorem restoreFile_of_content {r : Restoring} {rel : Name} {c : Content}
    (hr : r.raised = false) (hc : a.content rel = some c) :
    restoreFile s a r rel =
      match openWb s r.disk (destParts s.home rel) with
      | none => { r with raised := true }
      | some disk =>
        { r with
          disk := { disk with files := disk.files.set (resolve (destParts s.home rel)) c }
          written := r.written ++ [resolve (destParts s.home rel)]
          restoredFiles := r.restoredFiles ++ [rel] } := by
  have hmember : (a.getmember (memberName rel)).map Member.extractfile = some (some (some c)) := by
    obtain ⟨m, hm, hex⟩ := Option.bind_eq_some_iff.1 (Option.join_eq_some_iff.1 hc)
    rw [hm, Option.map_some, hex]
  rw [restoreFile, if_neg (by simp [hr]), hmember]

/-- The loop writes beneath the home as long as the names lead there. -/
theorem foldl_written_beneath_iff {rels : List Name} {r : Restoring} (halike : r.disk.Alike disk)
    (hr : r.raised = false) (hcontent : ∀ rel ∈ rels, (a.content rel).isSome) :
    (∀ p ∈ (rels.foldl (restoreFile s a) r).written, Beneath s.home p) ↔
      (∀ p ∈ r.written, Beneath s.home p) ∧ LeadBeneath s disk rels := by
  induction rels generalizing r disk with
  | nil => simp [LeadBeneath]
  | cons rel rels ih =>
    obtain ⟨hrel, hrels⟩ := List.forall_mem_cons.1 hcontent
    obtain ⟨c, hc⟩ := Option.isSome_iff_exists.1 hrel
    rw [List.foldl_cons, restoreFile_of_content hr hc, LeadBeneath, ← halike.openWb]
    cases hopen : openWb s r.disk (destParts s.home rel) with
    | none =>
      rw [foldl_restoreFile_of_raised rfl]
      simp
    | some d =>
      have hlaid : (⟨d.files.set (resolve (destParts s.home rel)) c, d.dirs⟩ : Target).Alike
          (laid s disk rel) := by
        rw [openWb_eq_some hopen]
        refine ⟨?_, congrArg (· ++ _) halike.dirs⟩
        rw [laid, Dict.keys_set, Dict.keys_set, halike.keys]
      refine Iff.trans (ih (show Target.Alike _ (laid s disk rel) from hlaid) hr hrels) ?_
      simp [or_imp, forall_and, and_assoc]

/-- What a round leaves as it is. -/
theorem get?_restoreFile {r : Restoring} {rel : Name} {p : Path}
    (h : p ∉ (restoreFile s a r rel).written) :
    (restoreFile s a r rel).disk.files.get? p = r.disk.files.get? p ∧ p ∉ r.written := by
  rw [restoreFile] at h ⊢
  split at h
  · simp_all
  · split at h <;> try simp_all
    split at h
    · simp_all
    · rename_i d hopen
      rw [openWb_eq_some hopen]
      simp only [List.mem_append, List.mem_singleton, not_or] at h ⊢
      exact ⟨Dict.get?_set_of_ne h.2 _ _, h.1⟩

theorem get?_foldl_restoreFile {p : Path} (rels : List Name) :
    ∀ {r : Restoring}, p ∉ (rels.foldl (restoreFile s a) r).written →
      (rels.foldl (restoreFile s a) r).disk.files.get? p = r.disk.files.get? p := by
  have hboth : ∀ {r : Restoring}, p ∉ (rels.foldl (restoreFile s a) r).written →
      (rels.foldl (restoreFile s a) r).disk.files.get? p = r.disk.files.get? p ∧
        p ∉ r.written := by
    induction rels with
    | nil => exact fun h => ⟨rfl, h⟩
    | cons rel rels ih =>
      intro r h
      obtain ⟨hget, hwritten⟩ := ih h
      obtain ⟨hget', hwritten'⟩ := get?_restoreFile hwritten
      exact ⟨hget.trans hget', hwritten'⟩
  exact fun {r} h => (hboth h).1

theorem files_mkdirs {parts : List Name} (h : mkdirs s disk parts = some disk') :
    disk'.files = disk.files := by
  rw [mkdirs] at h
  split_ifs at h
  rw [← Option.some.inj h]

/-- A restore changes what it writes, and nothing else. -/
theorem get?_restoreBackup {dryRun overwrite : Bool} {p : Path}
    (h : p ∉ (a.restoreBackup s disk dryRun overwrite).written) :
    (a.restoreBackup s disk dryRun overwrite).disk.files.get? p = disk.files.get? p := by
  rw [TarFile.restoreBackup] at h ⊢
  split at h
  · rfl
  · split_ifs at h ⊢
    · rfl
    · rfl
    · split at h
      · rfl
      · rename_i hmk
        rw [get?_foldl_restoreFile _ h, files_mkdirs hmk]

/-- What is verified has every file of its manifest. -/
theorem isSome_content_of_verifyBackup {m : BackupManifest} {sha256 : Content → String}
    (h : a.verifyBackup sha256 = some m) : ∀ rel ∈ m.files.keys, (a.content rel).isSome := by
  intro rel hrel
  obtain ⟨e, he, rfl⟩ := List.mem_map.1 hrel
  have hall := List.all_eq_true.1 (Option.filter_eq_some_iff.1 h).2 e he
  obtain ⟨c, hc, -⟩ := (Option.any_eq_true _ _).1 hall
  rw [hc]
  rfl

end Disk

/-- **Confinement.** An accepted archive is restored into files beneath the home exactly if nothing
is to be restored, the home cannot be made, or the names of its manifest lead there. -/
theorem written_beneath_iff (s : System) (a : TarFile) (disk : Target) (dryRun overwrite : Bool)
    {m : BackupManifest} (h : a.verifyBackup s.sha256 = some m) :
    (∀ p ∈ (a.restoreBackup s disk dryRun overwrite).written, Beneath s.home p) ↔
      (Restorable s disk dryRun overwrite →
        ∀ disk' ∈ mkdirs s disk s.home, LeadBeneath s disk' m.files.keys) := by
  rw [TarFile.restoreBackup, h, Restorable]
  dsimp only
  cases dryRun with
  | true => simp
  | false =>
    by_cases hentries : hasEntries disk s.home = true ∧ overwrite = false
    · rw [if_pos (by simp [hentries])]
      simp [hentries]
    · have hstart : hasEntries disk s.home = true → overwrite = true := by simpa using hentries
      rw [if_neg (by simpa using hentries), if_neg Bool.false_ne_true]
      cases hmk : mkdirs s disk s.home with
      | none => simp
      | some d =>
        dsimp only
        rw [foldl_written_beneath_iff ⟨rfl, rfl⟩ rfl (isSome_content_of_verifyBackup h)]
        simp only [true_and, Option.mem_def, Option.some.injEq, forall_eq', List.not_mem_nil,
          false_implies, implies_true]
        exact ⟨fun hlead _ => hlead, fun hlead => hlead hstart⟩

/-- The checksum of no bytes. -/
def emptySha256 : String :=
  "e3b0c44298fc1c149afbf4c8996fb92427ae41e4649b934ca495991b7852b855"

def plainSystem : System where
  home := [lit "root", lit ".oxenclaw"]
  permits _ := true
  sha256 c := if c = .bytes [] then emptySha256 else ""
  home_plain := by decide

/-- A backup of one empty file. -/
def TarFile.single (rel : Name) : TarFile where
  members :=
    [(memberName manifestName,
        .regular (.manifest ⟨1, "2026-01-01", lit "/root/.oxenclaw", [(rel, emptySha256)]⟩)),
      (memberName rel, .regular (.bytes []))]

/-- Within the home `..` is no matter. -/
theorem written_beneath_single :
    List.Forall (Beneath plainSystem.home)
      ((TarFile.single (lit "a/../b")).restoreBackup plainSystem {} false false).written := by
  refine List.forall_iff_forall_mem.2 ((written_beneath_iff plainSystem _ {} false false
    (m := ⟨1, "2026-01-01", lit "/root/.oxenclaw", [(lit "a/../b", emptySha256)]⟩)
    (by decide +kernel)).2 fun _ disk hdisk => ?_)
  obtain rfl := Option.some.inj (hdisk.symm.trans (rfl : _ = some _))
  exact fun _ => ⟨by decide +kernel, trivial⟩

/-- A name with `..` is written beside the home. -/
theorem written_beside_home :
    ¬∀ (s : System) (a : TarFile) (disk : Target) (dryRun overwrite : Bool) (m : BackupManifest),
      a.verifyBackup s.sha256 = some m →
        ∀ p ∈ (a.restoreBackup s disk dryRun overwrite).written, Beneath s.home p := by
  intro h
  have hbeneath := h plainSystem (TarFile.single (lit "../.bashrc")) {} false false
    ⟨1, "2026-01-01", lit "/root/.oxenclaw", [(lit "../.bashrc", emptySha256)]⟩
    (by decide +kernel) [lit "root", lit ".bashrc"] (by decide +kernel)
  exact absurd hbeneath (by decide +kernel)

end OxenClaw.Backup
