import Mathlib.Algebra.Order.Field.Rat
import Mathlib.Data.List.Sort
import OxenClaw.Lib.SqliteScript

/-!
# Migrations of the session store

`apply_migrations` runs each migration's script with `executescript`, records its version and
commits, and rolls back what raises. `executescript` runs the script in autocommit : there is
nothing to roll back of the statements that went before the one that raises, unless the script
has opened a transaction of its own. A failed migration leaves the store as it was exactly where
those statements have committed no change (`applyMigrations_recoverable_iff`).

The tables of the sessions are a parameter, and a migration's script is its statements, with what
each does to the tables.
-/

namespace OxenClaw

open Sqlite

/-- A row of `store_migrations`. -/
structure MigrationRow where
  version : ℤ
  appliedAt : ℚ
  description : String
  deriving DecidableEq

/-- The store : its tables, and the rows of `store_migrations` once that is created. -/
structure MigratedStore (D : Type*) where
  tables : D
  storeMigrations : Option (List MigrationRow)
  deriving DecidableEq

structure Migration (D : Type*) where
  version : ℤ
  description : String
  sql : List (ScriptStatement (MigratedStore D))

/-- What a migration meets : the clock, and the number of the statement that is made to raise,
counted through its script, the `INSERT` and the `commit`. -/
structure Attempt where
  time : ℚ
  fault : Option ℕ := none

variable {D : Type*}

namespace MigratedStore

/-- `MIGRATIONS_TABLE`. -/
def createTable (s : MigratedStore D) : MigratedStore D :=
  { s with storeMigrations := some (s.storeMigrations.getD []) }

/-- `SELECT version FROM store_migrations`. -/
def versions (s : MigratedStore D) : List ℤ :=
  (s.storeMigrations.getD []).map MigrationRow.version

/-- `INSERT INTO store_migrations`, whose primary key is the version. -/
def insert (row : MigrationRow) (s : MigratedStore D) : Option (MigratedStore D) :=
  match s.storeMigrations with
  | none => none
  | some rows =>
    if row.version ∈ rows.map MigrationRow.version then none
    else some { s with storeMigrations := some (rows ++ [row]) }

end MigratedStore

/-- The body of the loop, and whether it returns. -/
def Migration.apply (m : Migration D) (a : Attempt) (conn : Connection (MigratedStore D)) :
    Connection (MigratedStore D) × Bool :=
  let script := conn.executescript m.sql a.fault
  if script.2 then
    let recorded := script.1.run
      [.write (MigratedStore.insert ⟨m.version, a.time, m.description⟩), .commit]
      (a.fault.map (· - m.sql.length))
    if recorded.2 then recorded else (recorded.1.rollback, false)
  else (script.1.rollback, false)

/-- The loop over the migrations that are not recorded, with the versions applied if it
returns. -/
def migrate : (attempts : ℕ → Attempt) → Connection (MigratedStore D) → List (Migration D) →
    Connection (MigratedStore D) × Option (List ℤ)
  | _, conn, [] => (conn, some [])
  | attempts, conn, m :: ms =>
    let applied := m.apply (attempts 0) conn
    if applied.2 then
      (migrate (fun k => attempts (k + 1)) applied.1 ms).map id (Option.map (m.version :: ·))
    else (applied.1, none)

/-- The migrations whose version is not recorded, in the order of their versions. -/
def pendingMigrations (s : MigratedStore D) (migrations : List (Migration D)) :
    List (Migration D) :=
  (migrations.insertionSort fun m m' => m.version ≤ m'.version).filter fun m =>
    m.version ∉ s.versions

/-- The connection after `conn.executescript(MIGRATIONS_TABLE)`. -/
def prepared (conn : Connection (MigratedStore D)) : Connection (MigratedStore D) :=
  (conn.executescript [.sql fun s => some s.createTable] none).1

def applyMigrations (attempts : ℕ → Attempt) (conn : Connection (MigratedStore D))
    (migrations : List (Migration D)) : Connection (MigratedStore D) × Option (List ℤ) :=
  migrate attempts (prepared conn) (pendingMigrations (prepared conn).working migrations)

/-- The migration fails past the first `n` statements of its script : at the next one, or if
there is none while it is recorded. -/
structure Migration.FailsAt (m : Migration D) (a : Attempt)
    (conn : Connection (MigratedStore D)) (n : ℕ) : Prop where
  raises : (m.apply a conn).2 = false
  ahead : (conn.executescript (m.sql.take n) a.fault).2 = true
  refused : n < m.sql.length → (conn.executescript (m.sql.take (n + 1)) a.fault).2 = false

/-- A failed run has left the store as it was before the migration, and a later run in which what
is pending there goes through does go through. -/
def Recoverable (before after : Connection (MigratedStore D)) : Prop :=
  after = before ∧ ∀ attempts migrations,
    (migrate attempts before (pendingMigrations before.committed migrations)).2.isSome →
      (applyMigrations attempts after migrations).2.isSome

variable {m : Migration D} {a : Attempt} {s : MigratedStore D} {n : ℕ}

/-! ## One migration -/

/-- A migration that fails leaves what the statements ahead have made durable. -/
theorem Migration.apply_of_failsAt (h : m.FailsAt a (.idle s) n) :
    m.apply a (.idle s) = (.idle (durable none s (m.sql.take n)), false) := by
  obtain ⟨hraises, hahead, hrefused⟩ := h
  rw [Connection.executescript_idle] at hahead
  have hdurable : ((Connection.idle s).runScript (m.sql.take n) a.fault).1.committed =
      durable none s (m.sql.take n) :=
    Connection.committed_runScript (Connection.settled_idle s) hahead
  rcases Nat.lt_or_ge n m.sql.length with hn | hn
  · have hscript := Connection.runScript_of_raisesAt hn hahead (hrefused hn)
    rw [Migration.apply, Connection.executescript_idle, hscript, ← hdurable]
    rfl
  · rw [List.take_of_length_le hn] at hahead hdurable ⊢
    have hscript : (Connection.idle s).executescript m.sql a.fault =
        (((Connection.idle s).runScript m.sql a.fault).1, true) := Prod.ext rfl hahead
    rw [Migration.apply, hscript] at hraises ⊢
    dsimp only at hraises ⊢
    rw [if_pos rfl] at hraises ⊢
    split_ifs at hraises ⊢ with hrecorded
    · rw [hraises] at hrecorded
      cases hrecorded
    · rw [Connection.rollback_eq_idle, ← hdurable]
      refine congrArg (fun t => (Connection.idle t, false)) ?_
      have hinner : ∀ s ∈ [Statement.write
          (MigratedStore.insert (D := D) ⟨m.version, a.time, m.description⟩)],
          s.inner = true := by
        simp [Statement.inner]
      exact Connection.committed_run_of_raises hinner (Bool.not_eq_true _ ▸ hrecorded)

/-- A migration that fails does so somewhere. -/
theorem Migration.exists_failsAt (h : (m.apply a (.idle s)).2 = false) :
    ∃ n ≤ m.sql.length, m.FailsAt a (.idle s) n := by
  rcases hscript : ((Connection.idle s).runScript m.sql a.fault).2 with _ | _
  · obtain ⟨n, hn, hahead, hrefused⟩ := Connection.exists_raisesAt hscript
    exact ⟨n, hn.le, h, hahead, fun _ => hrefused⟩
  · exact ⟨m.sql.length, le_rfl, h, by rwa [List.take_length], fun hn => absurd hn (lt_irrefl _)⟩

/-- A migration that succeeds leaves its version recorded. -/
theorem Migration.apply_of_returns (h : (m.apply a (.idle s)).2 = true) :
    ∃ s', (m.apply a (.idle s)).1 = .idle s' ∧ s'.storeMigrations.isSome := by
  rw [Migration.apply] at h ⊢
  dsimp only at h ⊢
  split_ifs at h ⊢ with hscript hrecorded
  rw [← List.singleton_append] at hrecorded ⊢
  obtain ⟨s', hs', hidle⟩ := Connection.run_commit_of_returns hrecorded
  refine ⟨s', hidle, ?_⟩
  obtain ⟨t, ht, hts⟩ := Option.bind_eq_some_iff.1 hs'
  cases hts
  rw [MigratedStore.insert] at ht
  split at ht
  · cases ht
  · split_ifs at ht
    cases ht
    rfl

/-! ## A run -/

theorem migrate_cons (attempts : ℕ → Attempt) (conn : Connection (MigratedStore D))
    (ms : List (Migration D)) : migrate attempts conn (m :: ms) =
      if (m.apply (attempts 0) conn).2 = true then
        (migrate (fun k => attempts (k + 1)) (m.apply (attempts 0) conn).1 ms).map id
          (Option.map (m.version :: ·))
      else ((m.apply (attempts 0) conn).1, none) := by
  rw [migrate]

/-- A run that returns leaves the connection idle, and the table it writes to there. -/
theorem migrate_of_returns {attempts : ℕ → Attempt} {ms : List (Migration D)}
    (hs : s.storeMigrations.isSome) (h : (migrate attempts (.idle s) ms).2.isSome) :
    ∃ s', (migrate attempts (.idle s) ms).1 = .idle s' ∧ s'.storeMigrations.isSome := by
  induction ms generalizing attempts s with
  | nil => exact ⟨s, rfl, hs⟩
  | cons m ms ih =>
    rw [migrate_cons] at h ⊢
    split_ifs at h ⊢ with happly
    · obtain ⟨s₁, hs₁, htable⟩ := Migration.apply_of_returns happly
      rw [hs₁] at h ⊢
      exact ih htable (by simpa using h)
    · cases h

/-- A run that returns from the first migrations goes on with the others. -/
theorem migrate_append {attempts : ℕ → Attempt} {conn : Connection (MigratedStore D)}
    {ms : List (Migration D)} (h : (migrate attempts conn ms).2.isSome) (ms' : List (Migration D)) :
    (migrate attempts conn (ms ++ ms')).1 =
      (migrate (fun k => attempts (k + ms.length)) (migrate attempts conn ms).1 ms').1 := by
  induction ms generalizing attempts conn with
  | nil => rfl
  | cons m ms ih =>
    rw [List.cons_append, migrate_cons] at *
    rw [migrate_cons]
    split_ifs at h ⊢ with happly
    · have hrest := ih (by simpa using h)
      simpa [Nat.add_assoc, Nat.add_comm 1] using hrest
    · cases h

/-- `executescript(MIGRATIONS_TABLE)` commits what is open and creates the table. -/
theorem prepared_eq_idle (conn : Connection (MigratedStore D)) :
    prepared conn = .idle conn.working.createTable := by
  rfl

theorem createTable_of_isSome (hs : s.storeMigrations.isSome) : s.createTable = s := by
  obtain ⟨rows, hrows⟩ := Option.isSome_iff_exists.1 hs
  rcases s with ⟨tables, storeMigrations⟩
  cases hrows
  rfl

/-- On a store with the table a run starts with what is pending. -/
theorem applyMigrations_idle (hs : s.storeMigrations.isSome) (attempts : ℕ → Attempt)
    (migrations : List (Migration D)) : applyMigrations attempts (.idle s) migrations =
      migrate attempts (.idle s) (pendingMigrations s migrations) := by
  rw [applyMigrations, prepared_eq_idle]
  change migrate attempts (.idle s.createTable) (pendingMigrations s.createTable migrations) = _
  rw [createTable_of_isSome hs]

/-- What a failed run leaves is recoverable exactly if it is what was there. -/
theorem recoverable_idle_iff {s s' : MigratedStore D} (hs : s.storeMigrations.isSome) :
    Recoverable (.idle s) (.idle s') ↔ s' = s := by
  constructor
  · rintro ⟨hafter, -⟩
    exact congrArg Connection.committed hafter
  · rintro rfl
    refine ⟨rfl, fun attempts migrations hsome => ?_⟩
    rwa [applyMigrations_idle hs]

section Failure

variable {attempts : ℕ → Attempt} {conn before : Connection (MigratedStore D)}
  {migrations earlier later : List (Migration D)} {applied : List ℤ}

/-- The connection a migration starts on. -/
theorem before_eq_idle
    (hearlier : migrate attempts (prepared conn) earlier = (before, some applied)) :
    before = .idle before.committed ∧ before.committed.storeMigrations.isSome := by
  obtain ⟨s, hs, htable⟩ := migrate_of_returns (s := conn.working.createTable) rfl
    (by rw [← prepared_eq_idle, hearlier]; rfl)
  rw [← prepared_eq_idle, hearlier] at hs
  change before = _ at hs
  subst hs
  exact ⟨rfl, htable⟩

/-- What a run in which a migration fails leaves. -/
theorem applyMigrations_of_failsAt
    (hpending : pendingMigrations (prepared conn).working migrations = earlier ++ m :: later)
    (hearlier : migrate attempts (prepared conn) earlier = (before, some applied))
    (hfails : m.FailsAt (attempts earlier.length) before n) :
    (applyMigrations attempts conn migrations).1 =
      .idle (durable none before.committed (m.sql.take n)) := by
  rw [(before_eq_idle hearlier).1] at hfails
  rw [applyMigrations, hpending, migrate_append (by rw [hearlier]; rfl), hearlier,
    (before_eq_idle hearlier).1, migrate_cons]
  simp only [Nat.zero_add]
  rw [Migration.apply_of_failsAt hfails]
  rfl

/-- A run in which a migration fails after the first `n` statements of its script leaves the store
as it was before that migration, for a later run to take up, exactly where these have made no
change durable : with `durable none` each statement outside of a transaction is, and those
inside of one are with the script's own `COMMIT`. -/
theorem applyMigrations_recoverable_iff
    (hpending : pendingMigrations (prepared conn).working migrations = earlier ++ m :: later)
    (hearlier : migrate attempts (prepared conn) earlier = (before, some applied))
    (hfails : m.FailsAt (attempts earlier.length) before n) :
    Recoverable before (applyMigrations attempts conn migrations).1 ↔
      durable none before.committed (m.sql.take n) = before.committed := by
  obtain ⟨hidle, htable⟩ := before_eq_idle hearlier
  rw [applyMigrations_of_failsAt hpending hearlier hfails]
  conv_lhs => rw [hidle]
  exact recoverable_idle_iff htable

/-- A script that opens a transaction and leaves it open is recoverable wherever it fails. -/
theorem recoverable_of_transaction {body : List (ScriptStatement (MigratedStore D))}
    (hsql : m.sql = .begin :: body) (hbody : ∀ s ∈ body, s.inner = true)
    (hpending : pendingMigrations (prepared conn).working migrations = earlier ++ m :: later)
    (hearlier : migrate attempts (prepared conn) earlier = (before, some applied))
    (hraises : (m.apply (attempts earlier.length) before).2 = false) :
    Recoverable before (applyMigrations attempts conn migrations).1 := by
  obtain ⟨hidle, htable⟩ := before_eq_idle hearlier
  rw [hidle] at hraises
  obtain ⟨n, -, hfails⟩ := Migration.exists_failsAt hraises
  rw [← hidle] at hfails
  rw [applyMigrations_of_failsAt hpending hearlier hfails]
  conv_lhs => rw [hidle]
  refine (recoverable_idle_iff htable).2 ?_
  rw [hsql]
  rcases n with _ | n
  · rfl
  · exact durable_of_inner _ _ fun s hs => hbody s (List.mem_of_mem_take hs)

end Failure

/-- `CREATE TABLE name`, on a store of which only the names of the tables are kept. -/
def createNamed (name : String) : ScriptStatement (MigratedStore (List String)) :=
  .sql fun s => if name ∈ s.tables then none else some { s with tables := s.tables ++ [name] }

/-- In a transaction of its own a script that fails at its third statement leaves nothing. -/
theorem applyMigrations_recoverable_begin :
    Recoverable (.idle ⟨[], some []⟩)
      (applyMigrations (fun _ => ⟨0, some 2⟩) (.idle ⟨[], none⟩)
        [⟨1, "two tables", [.begin, createNamed "runs", createNamed "turns"]⟩]).1 :=
  (applyMigrations_recoverable_iff (n := 2) (rfl : pendingMigrations _ _ = [] ++ _ :: []) rfl
    ⟨by decide, by decide, fun _ => by decide⟩).2 (by decide)

/-- Without one its first table is left, and the next run fails on it. -/
theorem applyMigrations_leaves_table :
    let m : Migration (List String) := ⟨1, "two tables", [createNamed "runs", createNamed "turns"]⟩
    let failed := applyMigrations (fun _ => ⟨0, some 1⟩) (.idle ⟨[], none⟩) [m]
    m.FailsAt ⟨0, some 1⟩ (.idle ⟨[], some []⟩) 1 ∧ ¬ Recoverable (.idle ⟨[], some []⟩) failed.1 ∧
      (applyMigrations (fun _ => ⟨0, none⟩) failed.1 [m]).2 = none := by
  refine ⟨⟨by decide, by decide, fun _ => by decide⟩, fun h => ?_, by decide⟩
  have htables := congrArg (fun c => c.committed.tables) h.1
  exact absurd htables (by decide)

end OxenClaw
