import Mathlib.Algebra.Order.Ring.Int
import Mathlib.Data.List.Lex
import OxenClaw.Lib.Dict
import OxenClaw.Lib.Lines

/-!
# Backups

`create_backup` (`backup/archive.py`) copies the files of the home directory that `_walk_home` keeps
into a staging directory, a database as a snapshot of it, puts `MANIFEST.json` with their names and
checksums beside them, and packs the directory into a tar file. `restore_backup` checks every
checksum and writes the files of the manifest into a home.

A name is the list of its code points, since a file name may have lone surrogates. What SQLite and
the hash function compute are parameters (`Host`).
-/

namespace OxenClaw.Backup

/-- A `str`, by its code points. -/
abbrev Name := List ℕ

/-- A path below a directory, part by part. -/
abbrev Path := List Name

def lit (s : String) : Name :=
  s.toList.map Char.toNat

/-- `BackupManifest`. -/
structure BackupManifest where
  version : ℕ
  createdAt : String
  home : Name
  files : Dict Name String
  deriving DecidableEq

/-- What a file holds : the JSON text of a manifest, or anything else. -/
inductive Content where
  | manifest (m : BackupManifest)
  | bytes (b : List UInt8)
  deriving DecidableEq

/-- The files of a directory. -/
abbrev Files := Dict Path Content

/-- What `src_conn.backup(dst_conn)` does. When it raises it may have begun to write. -/
inductive Snapshot where
  | done (c : Content)
  | failed (left : Option Content)
  deriving DecidableEq

/-- What the functions depend on besides their arguments. -/
structure Host where
  sha256 : Content → String
  /-- The snapshot of the database at a path. -/
  snapshot : Files → Path → Snapshot
  /-- The parts of the path of the home directory. -/
  homeParts : Path
  home : Name
  now : String

/-! ## Which files are kept -/

/-- `path.name`. -/
def nameOf (p : Path) : Name :=
  p.getLast?.getD []

/-- `path.suffix` of a name : from its last dot on, unless that is its first or last character. -/
def suffixOf (n : Name) : Name :=
  let tail := n.reverse.takeWhile (· ≠ 46)
  if tail = [] ∨ n.length ≤ tail.length + 1 then [] else 46 :: tail.reverse

/-- `s.lower()`, on what can be equal to ASCII afterwards. -/
def lowerAscii (n : Name) : Name :=
  n.map fun c => if 65 ≤ c ∧ c ≤ 90 then c + 32 else c

/-- `b"SQLite format 3"`. -/
def sqliteMagic : List UInt8 :=
  "SQLite format 3".toList.map fun c => c.toNat.toUInt8

/-- `_is_sqlite`. -/
def isSqlite (p : Path) : Content → Bool
  | .manifest _ => false
  | .bytes b =>
    [lit ".db", lit ".sqlite", lit ".sqlite3"].contains (lowerAscii (suffixOf (nameOf p))) &&
      sqliteMagic.isPrefixOf (b.take 16)

def transientSuffixes : List Name :=
  [lit "-wal", lit "-shm", lit "-journal"]

def pycache : Name :=
  lit "__pycache__"

/-- The tests of `_walk_home`. The last one is about the whole path of the file. -/
def keeps (host : Host) (p : Path) : Bool :=
  !([lit ".DS_Store", pycache].contains (nameOf p)) &&
    !transientSuffixes.any (·.isSuffixOf (nameOf p)) &&
    !(host.homeParts ++ p).contains pycache

/-- `_walk_home`. -/
def walkHome (host : Host) (home : Files) : Files :=
  (home.filter fun e => keeps host e.1).mergeSort fun a b => decide (a.1 ≤ b.1)

/-! ## The archive -/

/-- `str(rel)`. -/
def relName (p : Path) : Name :=
  [47].intercalate p

/-- `str(rel).replace("\\", "/")`. -/
def manifestKey (p : Path) : Name :=
  (relName p).map fun c => if c = 92 then 47 else c

/-- `MANIFEST.json`. -/
def manifestName : Name :=
  lit "MANIFEST.json"

/-- The staging directory, and the files of the manifest. -/
structure Staging where
  files : Files := []
  manifestFiles : Dict Name String := []

/-- What is staged for a file. -/
def stagedContent (host : Host) (home : Files) (e : Path × Content) : Snapshot :=
  if isSqlite e.1 e.2 then host.snapshot home e.1 else .done e.2

/-- One round of the loop of `create_backup`. -/
def stage (host : Host) (home : Files) (s : Staging) (e : Path × Content) : Staging :=
  match stagedContent host home e with
  | .done c => {
      files := s.files.set e.1 c
      manifestFiles := s.manifestFiles.set (manifestKey e.1) (host.sha256 c) }
  | .failed (some c) => { s with files := s.files.set e.1 c }
  | .failed none => s

/-- A tar file, with the directories it has. -/
structure Archive where
  files : Files
  dirs : List Path

/-- The directories a path is in, within its root. -/
def parents (p : Path) : List Path :=
  p.dropLast.inits

/-- `json.dumps(.., sort_keys=True)` of the files. -/
def sortKeys (files : Dict Name String) : Dict Name String :=
  files.mergeSort fun a b => decide (a.1 ≤ b.1)

/-- The manifest that is written, as it is read again. -/
def manifestOf (host : Host) (manifestFiles : Dict Name String) : BackupManifest where
  version := 1
  createdAt := host.now
  home := host.home
  files := sortKeys manifestFiles

/-- `create_backup`, `none` where it raises. `write_text` of the manifest raises where there is a
directory of that name. -/
def createBackup (host : Host) (home : Files) : Option Archive :=
  let sources := walkHome host home
  let staged := sources.foldl (stage host home) {}
  if sources.any fun e => (parents e.1).contains [manifestName] then none
  else some {
    files := staged.files.set [manifestName] (.manifest (manifestOf host staged.manifestFiles))
    dirs := sources.flatMap fun e => parents e.1 }

/-- The name of a member. -/
def memberName (rel : Name) : Name :=
  lit "oxenclaw-backup/" ++ rel

/-- `name.rstrip("/")`. -/
def rstripSlash (n : Name) : Name :=
  (n.reverse.dropWhile (· = 47)).reverse

/-- `tar.getmember(name)` with `tar.extractfile`, which is `none` for a directory. -/
def Archive.getmember (a : Archive) (name : Name) : Option (Option Content) :=
  match a.files.find? fun e => memberName (relName e.1) = rstripSlash name with
  | some e => some (some e.2)
  | none =>
    if rstripSlash name = lit "oxenclaw-backup" ∨
      a.dirs.any (fun p => memberName (relName p) = rstripSlash name) then some none
    else none

/-- `_read_manifest_from_archive`. -/
def readManifest (a : Archive) : Option BackupManifest :=
  match a.getmember (memberName manifestName) with
  | some (some (.manifest m)) => some m
  | _ => none

/-- The checksum of a file of the manifest. -/
def checks (host : Host) (a : Archive) (e : Name × String) : Bool :=
  match a.getmember (memberName e.1) with
  | some (some c) => host.sha256 c = e.2
  | _ => false

/-- `verify_backup`. -/
def verifyBackup (host : Host) (a : Archive) : Option BackupManifest :=
  (readManifest a).filter fun m => m.files.all (checks host a)

/-! ## Restoring -/

/-- A directory : its files, and its directories with none. -/
structure Target where
  files : Files := []
  dirs : List Path := []

/-- There is a directory at the path. -/
def Target.isDir (t : Target) (p : Path) : Bool :=
  t.dirs.any (p.isPrefixOf ·) || t.files.any fun e => p.isPrefixOf e.1 && p ≠ e.1

/-- `dst.parent.mkdir(..)`, which raises where a parent is a file, and `dst.open("wb")`, which
raises where `dst` is a directory. -/
def Target.write (t : Target) (p : Path) (c : Content) : Option Target :=
  if (t.files.any fun e => e.1.isPrefixOf p && e.1 ≠ p) || t.isDir p then none
  else some { t with files := t.files.set p c }

/-- `target / rel`, below the target. -/
def pathOf (rel : Name) : Path :=
  (rel.splitOn 47).filter fun n => n ≠ [] && n ≠ lit "."

/-- `RestoreResult`. -/
structure RestoreResult where
  restoredFiles : List Name := []
  skippedFiles : List Name := []
  target : Target

/-- One round of the loop of `restore_backup`. -/
def restoreOne (a : Archive) (r : RestoreResult) (e : Name × String) : Option RestoreResult :=
  match a.getmember (memberName e.1) with
  | some (some c) => do
    let target ← r.target.write (pathOf e.1) c
    return { r with restoredFiles := r.restoredFiles ++ [e.1], target }
  | _ => some { r with skippedFiles := r.skippedFiles ++ [e.1] }

/-- `restore_backup`, `none` where it raises. -/
def restoreBackup (host : Host) (a : Archive) (target : Target) (dryRun overwrite : Bool) :
    Option RestoreResult := do
  let manifest ← verifyBackup host a
  if !(target.files.isEmpty && target.dirs.isEmpty) && !overwrite && !dryRun then none
  else if dryRun then return { restoredFiles := manifest.files.keys, target }
  else manifest.files.foldlM (restoreOne a) { target }

end OxenClaw.Backup
