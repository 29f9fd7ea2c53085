import Mathlib.Algebra.Order.Ring.Rat
import Mathlib.Data.List.Pairwise
import OxenClaw.Lib.Dict

/-!
# The file state registry

`FileStateRegistry` keeps the last writer of each path, and for each task and path the stamp of the
task's last read or write. What it keeps is the end of the history (`get?_lastWriter_run`,
`get?_reads_run`), and with increasing time stamps that is enough : `check_stale` reports a sibling
exactly if one of the operations since the task's last read or write is another task's write
(`checkStale_run`). A read whose modification time cannot be taken is not recorded, and does not
count (`unrecorded_read_stale`).
-/

namespace OxenClaw.FileState

/-- What Python and the file system answer : `str(Path(path).resolve())`, and `repr`. -/
structure FileEnv where
  resolve : String → String
  repr : String → String

inductive StaleKind where
  | siblingWrote
  | mtimeDrift
  | writeWithoutRead
  deriving DecidableEq

structure StaleWarning where
  kind : StaleKind
  message : String
  lastWriter : Option String := none
  lastWriterAt : Option ℚ := none
  deriving DecidableEq

/-- `_ReadStamp`. -/
structure ReadStamp where
  lastReadAt : ℚ
  lastReadMtime : ℚ
  partialRead : Bool

structure FileStateRegistry where
  reads : Dict (String × String) ReadStamp := []
  lastWriter : Dict String (String × ℚ) := []

/-- An operation. `disk` is the modification time of the file, where it can be taken, and `now` what
`time.time()` gives. -/
inductive FileOp where
  | read (task path : String) (mtime disk : Option ℚ) (partialRead : Bool) (now : ℚ)
  | write (task path : String) (mtime disk : Option ℚ) (now : ℚ)
  | check (task path : String)

namespace FileStateRegistry

variable (env : FileEnv) (s : FileStateRegistry)

/-- `register_read`. -/
def registerRead (task path : String) (mtime disk : Option ℚ) (partialRead : Bool) (now : ℚ) :
    FileStateRegistry :=
  match mtime.or disk with
  | none => s
  | some m => { s with reads := s.reads.set (task, env.resolve path) ⟨now, m, partialRead⟩ }

/-- `register_write`. -/
def registerWrite (task path : String) (mtime disk : Option ℚ) (now : ℚ) : FileStateRegistry where
  lastWriter := s.lastWriter.set (env.resolve path) (task, now)
  reads := s.reads.set (task, env.resolve path) ⟨now, (mtime.or disk).getD now, false⟩

/-- The warning that a sibling wrote the file. -/
def siblingWarning (writer : String) (wroteAt : ℚ) (resolved ending : String) : StaleWarning where
  kind := .siblingWrote
  message := "another agent (" ++ env.repr writer ++ ") wrote to " ++ resolved ++ ending
  lastWriter := some writer
  lastWriterAt := some wroteAt

/-- The warning that the file is not as it was read. -/
def drift (stamp : Option ReadStamp) (resolved : String) (disk : Option ℚ) :
    Option StaleWarning :=
  match stamp with
  | none => none
  | some r =>
    if disk.any (· ≠ r.lastReadMtime) then
      some ⟨.mtimeDrift, resolved ++ " was modified on disk after this agent's last read", none,
        none⟩
    else if r.partialRead then
      some ⟨.mtimeDrift, resolved ++ " was last read with offset/limit pagination", none, none⟩
    else none

/-- The warning that the file was never read. -/
def unread (stamp : Option ReadStamp) (resolved : String) (present : Bool) :
    Option StaleWarning :=
  if stamp.isNone ∧ present then
    some ⟨.writeWithoutRead, resolved ++ " exists but was not read by this agent", none, none⟩
  else none

/-- `check_stale`. `disk` is the modification time of the file, `present` whether it exists. -/
def checkStale (task path : String) (disk : Option ℚ) (present : Bool) : Option StaleWarning :=
  let resolved := env.resolve path
  let stamp := s.reads.get? (task, resolved)
  let sibling : Option StaleWarning :=
    match s.lastWriter.get? resolved with
    | none => none
    | some (writer, writerAt) =>
      if writer = task then none
      else
        match stamp with
        | none => some (siblingWarning env writer writerAt resolved " but this agent never read it")
        | some r =>
          if r.lastReadAt < writerAt then
            some (siblingWarning env writer writerAt resolved " after this agent's last read")
          else none
  sibling.or ((drift stamp resolved disk).or (unread stamp resolved present))

/-- `writes_since`. -/
def writesSince (task : String) (pathsRead : List String) : List String :=
  (pathsRead.map env.resolve).filter fun p =>
    match s.lastWriter.get? p with
    | none => false
    | some (writer, writerAt) =>
      writer ≠ task && (s.reads.get? (task, p)).all (·.lastReadAt < writerAt)

def step : FileOp → FileStateRegistry
  | .read task path mtime disk partialRead now =>
    s.registerRead env task path mtime disk partialRead now
  | .write task path mtime disk now => s.registerWrite env task path mtime disk now
  | .check _ _ => s

end FileStateRegistry

def run (env : FileEnv) (ops : List FileOp) : FileStateRegistry :=
  ops.foldl (FileStateRegistry.step env) {}

/-! ## The history -/

namespace FileOp

/-- The time stamp of an operation that takes one. -/
def now? : FileOp → Option ℚ
  | read _ _ _ _ _ now => some now
  | write _ _ _ _ now => some now
  | check _ _ => none

variable (env : FileEnv)

/-- When and by whom the operation writes the path. -/
def writes (p : String) : FileOp → Option (String × ℚ)
  | write task path _ _ now => if env.resolve path = p then some (task, now) else none
  | _ => none

/-- When the task reads or writes the path with the operation. -/
def accesses (task p : String) : FileOp → Option ℚ
  | read task' path _ _ _ now => if (task', env.resolve path) = (task, p) then some now else none
  | write task' path _ _ now => if (task', env.resolve path) = (task, p) then some now else none
  | check _ _ => none

/-- Not a read whose modification time cannot be taken. -/
def recorded : FileOp → Bool
  | read _ _ mtime disk _ _ => (mtime.or disk).isSome
  | write _ _ _ _ _ => true
  | check _ _ => true

end FileOp

/-- One of the operations since the task's last access to the path is another task's write. -/
def siblingWrote (env : FileEnv) (counts : FileOp → Bool) (ops : List FileOp) (task p : String) :
    Bool :=
  (ops.reverse.takeWhile fun op => !(counts op && (op.accesses env task p).isSome)).any fun op =>
    (op.writes env p).any fun w => w.1 ≠ task

/-- Operations in time. -/
def InTime (ops : List FileOp) : Prop :=
  (ops.filterMap FileOp.now?).Pairwise (· < ·)

instance (ops : List FileOp) : Decidable (InTime ops) :=
  inferInstanceAs (Decidable (List.Pairwise _ _))

section History

variable {env : FileEnv} {ops : List FileOp} {op : FileOp} {task p : String}

theorem run_append : run env (ops ++ [op]) = (run env ops).step env op := by
  rw [run, List.foldl_append]
  rfl

/-- The last writer of a path is that of the last write. -/
theorem get?_lastWriter_run (ops : List FileOp) (p : String) :
    (run env ops).lastWriter.get? p = ops.reverse.findSome? (FileOp.writes env p) := by
  induction ops using List.reverseRecOn with
  | nil => rfl
  | append_singleton ops op ih =>
    rw [run_append, List.reverse_append, List.reverse_singleton, List.singleton_append,
      List.findSome?_cons, ← ih]
    rcases op with ⟨task, path, mtime, disk, partialRead, now⟩ | ⟨task, path, mtime, disk, now⟩ |
      ⟨task, path⟩
    · rw [FileStateRegistry.step, FileStateRegistry.registerRead]
      rcases mtime.or disk with _ | m <;> rfl
    · rw [FileStateRegistry.step, FileStateRegistry.registerWrite, Dict.get?_set, FileOp.writes]
      by_cases hp : p = env.resolve path
      · rw [if_pos hp, if_pos hp.symm]
      · rw [if_neg hp, if_neg (Ne.symm hp)]
    · rfl

/-- The stamp of a task and a path is that of the last access that counts. -/
theorem get?_reads_run (ops : List FileOp) (task p : String) :
    ((run env ops).reads.get? (task, p)).map ReadStamp.lastReadAt =
      ops.reverse.findSome? fun op => if op.recorded then op.accesses env task p else none := by
  induction ops using List.reverseRecOn with
  | nil => rfl
  | append_singleton ops op ih =>
    rw [run_append, List.reverse_append, List.reverse_singleton, List.singleton_append,
      List.findSome?_cons, ← ih]
    rcases op with ⟨task', path, mtime, disk, partialRead, now⟩ | ⟨task', path, mtime, disk, now⟩ |
      ⟨task', path⟩
    · rw [FileStateRegistry.step, FileStateRegistry.registerRead, FileOp.recorded]
      rcases mtime.or disk with _ | m
      · rfl
      · rw [Dict.get?_set, FileOp.accesses]
        by_cases hp : (task, p) = (task', env.resolve path)
        · rw [if_pos hp, if_pos hp.symm]
          rfl
        · rw [if_neg hp, if_neg (Ne.symm hp)]
          rfl
    · rw [FileStateRegistry.step, FileStateRegistry.registerWrite, Dict.get?_set, FileOp.recorded,
        FileOp.accesses]
      by_cases hp : (task, p) = (task', env.resolve path)
      · rw [if_pos hp, if_pos hp.symm]
        rfl
      · rw [if_neg hp, if_neg (Ne.symm hp)]
        rfl
    · rfl

theorem now?_of_writes {w : String × ℚ} (h : op.writes env p = some w) : op.now? = some w.2 := by
  rcases op with _ | ⟨task, path, mtime, disk, now⟩ | _
  · cases h
  · rw [FileOp.writes] at h
    split_ifs at h
    cases h
    rfl
  · cases h

theorem now?_of_accesses {t : ℚ} (h : op.accesses env task p = some t) : op.now? = some t := by
  rcases op with ⟨task', path, mtime, disk, partialRead, now⟩ | ⟨task', path, mtime, disk, now⟩ | _
  · rw [FileOp.accesses] at h
    split_ifs at h
    exact h
  · rw [FileOp.accesses] at h
    split_ifs at h
    exact h
  · cases h

/-- A write is the access of the task that writes. -/
theorem accesses_of_writes (task : String) {w : String × ℚ} (h : op.writes env p = some w) :
    op.recorded = true ∧ op.accesses env task p = if w.1 = task then some w.2 else none := by
  rcases op with _ | ⟨task', path, mtime, disk, now⟩ | _
  · cases h
  · rw [FileOp.writes] at h
    split_ifs at h with hpath
    cases h
    refine ⟨rfl, ?_⟩
    rw [FileOp.accesses, hpath]
    by_cases htask : task' = task
    · rw [if_pos (by rw [htask]), if_pos htask]
    · rw [if_neg fun he => htask (Prod.mk.inj he).1, if_neg htask]
  · cases h

theorem InTime.before (h : InTime (ops ++ [op])) {t : ℚ} (ht : op.now? = some t) :
    InTime ops ∧ ∀ op' ∈ ops, ∀ t' ∈ op'.now?, t' < t := by
  rw [InTime, List.filterMap_append, List.pairwise_append] at h
  refine ⟨h.1, fun op' hop' t' ht' => h.2.2 t' (List.mem_filterMap.2 ⟨op', hop', ht'⟩) t ?_⟩
  simp [ht]

theorem InTime.of_append (h : InTime (ops ++ [op])) : InTime ops := by
  rw [InTime, List.filterMap_append, List.pairwise_append] at h
  exact h.1

/-- When the task last accesses the path, if that counts. -/
def lastAccess (env : FileEnv) (ops : List FileOp) (task p : String) : Option ℚ :=
  ops.reverse.findSome? fun op => if op.recorded then op.accesses env task p else none

/-- The last write of the path. -/
def lastWrite (env : FileEnv) (ops : List FileOp) (p : String) : Option (String × ℚ) :=
  ops.reverse.findSome? (FileOp.writes env p)

/-- The last write against the last access that counts. -/
theorem siblingWrote_eq (h : InTime ops) (task p : String) :
    siblingWrote env FileOp.recorded ops task p = (lastWrite env ops p).any fun w =>
      w.1 ≠ task && (lastAccess env ops task p).all (· < w.2) := by
  induction ops using List.reverseRecOn with
  | nil => rfl
  | append_singleton ops op ih =>
    have hprev := ih h.of_append
    rw [siblingWrote, lastWrite, lastAccess, List.reverse_append, List.reverse_singleton,
      List.singleton_append, List.findSome?_cons, List.findSome?_cons, List.takeWhile_cons]
    rw [siblingWrote, lastWrite, lastAccess] at hprev
    rcases hwrites : op.writes env p with _ | w
    · by_cases hcounts : op.recorded = true ∧ (op.accesses env task p).isSome
      · -- the task has seen what was written before
        obtain ⟨t, ht⟩ := Option.isSome_iff_exists.1 hcounts.2
        have hbefore := (h.before (now?_of_accesses ht)).2
        rw [if_neg (by simp [hcounts.1, ht]), if_pos hcounts.1, ht]
        rcases hlast : ops.reverse.findSome? (FileOp.writes env p) with _ | w
        · rfl
        · obtain ⟨op', hop', hw⟩ := List.exists_of_findSome?_eq_some hlast
          have hlt := hbefore op' (by simpa using hop') w.2 (now?_of_writes hw)
          simp [hlt.le]
      · have hnone : (if op.recorded = true then op.accesses env task p else none) = none := by
          split_ifs with hrecorded
          · simpa [hrecorded] using hcounts
          · rfl
        have hkeep : (!(op.recorded && (op.accesses env task p).isSome)) = true := by
          rw [Bool.not_eq_true', ← Bool.not_eq_true, Bool.and_eq_true]
          exact hcounts
        rw [if_pos hkeep, List.any_cons, hwrites, hnone, hprev]
        rfl
    · obtain ⟨hrecorded, haccess⟩ := accesses_of_writes task hwrites
      by_cases htask : w.1 = task
      · rw [haccess, if_pos htask, if_neg (by simp [hrecorded])]
        simp [htask]
      · have hbefore := (h.before (now?_of_writes hwrites)).2
        rw [haccess, if_neg htask, if_pos (by simp [hrecorded]), List.any_cons, hwrites,
          if_pos hrecorded]
        have hold : (ops.reverse.findSome? fun op =>
            if op.recorded then op.accesses env task p else none).all (· < w.2) = true := by
          rw [Option.all_eq_true]
          intro t hlast
          obtain ⟨op', hop', ht⟩ := List.exists_of_findSome?_eq_some hlast
          split_ifs at ht
          simpa using hbefore op' (by simpa using hop') t (now?_of_accesses ht)
        simp [htask, hold]

end History

/-! ## What is reported -/

section Reports

variable {env : FileEnv} {ops : List FileOp}

theorem kind_checkStale (s : FileStateRegistry) (task path : String) (disk : Option ℚ)
    (present : Bool) :
    (s.checkStale env task path disk present).map StaleWarning.kind = some .siblingWrote ↔
      ((s.lastWriter.get? (env.resolve path)).any fun w => w.1 ≠ task &&
        ((s.reads.get? (task, env.resolve path)).map ReadStamp.lastReadAt).all (· < w.2)) =
          true := by
  have hother (stamp : Option ReadStamp) (resolved : String) :
      ((FileStateRegistry.drift stamp resolved disk).or
        (FileStateRegistry.unread stamp resolved present)).map StaleWarning.kind ≠
          some .siblingWrote := by
    rcases stamp with _ | r
    · rw [FileStateRegistry.drift, FileStateRegistry.unread]
      split_ifs <;> simp
    · rw [FileStateRegistry.drift, FileStateRegistry.unread]
      split_ifs <;> simp
  rw [FileStateRegistry.checkStale]
  rcases hlast : s.lastWriter.get? (env.resolve path) with _ | ⟨writer, writerAt⟩
  · simpa using hother _ _
  · by_cases hwriter : writer = task
    · simpa [hwriter] using hother _ _
    · rcases hstamp : s.reads.get? (task, env.resolve path) with _ | r
      · simp [hwriter, FileStateRegistry.siblingWarning]
      · by_cases hlt : r.lastReadAt < writerAt
        · simp [hwriter, hlt, FileStateRegistry.siblingWarning]
        · simpa [hwriter, hlt] using hother _ _

/-- In every history in time, a sibling is reported exactly if another task has written the path
since the task's last recorded access, and the paths listed are those of which this is so. -/
theorem checkStale_run (env : FileEnv) {ops : List FileOp} (h : InTime ops) (task : String) :
    (∀ path disk present, ((run env ops).checkStale env task path disk present).map
      StaleWarning.kind = some .siblingWrote ↔
        siblingWrote env FileOp.recorded ops task (env.resolve path) = true) ∧
    ∀ paths, (run env ops).writesSince env task paths =
      (paths.map env.resolve).filter (siblingWrote env FileOp.recorded ops task) := by
  have hsummary (p : String) : siblingWrote env FileOp.recorded ops task p =
      (((run env ops).lastWriter.get? p).any fun w => w.1 ≠ task &&
        (((run env ops).reads.get? (task, p)).map ReadStamp.lastReadAt).all (· < w.2)) := by
    rw [siblingWrote_eq h, get?_lastWriter_run, get?_reads_run, lastWrite, lastAccess]
  refine ⟨fun path disk present => ?_, fun paths => ?_⟩
  · rw [hsummary, kind_checkStale]
  · rw [FileStateRegistry.writesSince]
    refine List.filter_congr fun p _ => ?_
    rw [hsummary]
    rcases (run env ops).lastWriter.get? p with _ | ⟨writer, writerAt⟩
    · rfl
    · simp [Option.all_map]

end Reports

/-- Paths that are resolved, and names without a quote. -/
def plainEnv : FileEnv where
  resolve path := path
  repr s := "'" ++ s ++ "'"

/-- A read, a write by another task, and a read of another file. -/
def sharedOps : List FileOp :=
  [.read "A" "/notes" none (some 5) false 1, .write "B" "/notes" none (some 7) 2,
    .check "B" "/notes", .read "A" "/todo" none (some 3) true 3]

theorem checkStale_run_shared :
    (∀ path disk present, ((run plainEnv sharedOps).checkStale plainEnv "A" path disk present).map
      StaleWarning.kind = some .siblingWrote ↔
        siblingWrote plainEnv FileOp.recorded sharedOps "A" path = true) ∧
    ∀ paths, (run plainEnv sharedOps).writesSince plainEnv "A" paths =
      (paths.map plainEnv.resolve).filter
        (siblingWrote plainEnv FileOp.recorded sharedOps "A") :=
  have hops : InTime sharedOps := by decide
  checkStale_run plainEnv hops "A"

/-- A file that is gone when it is read again leaves the sibling's write reported. -/
theorem unrecorded_read_stale : ¬∀ (env : FileEnv) (ops : List FileOp), InTime ops →
    ∀ task path disk present, ((run env ops).checkStale env task path disk present).map
      StaleWarning.kind = some .siblingWrote ↔
        siblingWrote env (fun _ => true) ops task (env.resolve path) = true := by
  intro h
  have hgone := h plainEnv
    [.write "B" "/notes" none (some 7) 1, .read "A" "/notes" none none false 2]
    (by decide) "A" "/notes" none false
  revert hgone
  decide

end OxenClaw.FileState
