import Mathlib.Algebra.Order.Field.Rat
import Mathlib.Data.NNRat.Defs
import OxenClaw.Lib.Dict
import OxenClaw.Lib.Runs

/-!
# The advisory store lock

`StoreLock` is a row of `store_locks` that every process on the database sees. `acquire` reads
the row in one statement and overwrites it in the next; only the second opens a transaction,
so another process may have claimed the row in between.

A run interleaves the statements of any number of processes. What the processes hold is kept
beside the table (`LockSystem.holds`) : since when `acquire` or `renew` returned with success,
until `release` or until another holder takes the lock by force.
-/

namespace OxenClaw

/-- A row of `store_locks`. -/
structure LockRow where
  holder : String
  acquiredAt : ℚ
  expiresAt : ℚ

/-- `store_locks`, by name. -/
abbrev LockTable := Dict String LockRow

structure StoreLock where
  name : String
  holder : String
  ttlSeconds : ℚ := 60

namespace StoreLock

/-- Whether the row `acquire` read is another holder's and has not expired. -/
def isBusy (l : StoreLock) (now : ℚ) (row : Option LockRow) : Bool :=
  row.any fun r => decide (now < r.expiresAt ∧ r.holder ≠ l.holder)

/-- `INSERT INTO store_locks .. ON CONFLICT(name) DO UPDATE ..`. -/
def upsert (l : StoreLock) (now : ℚ) (rows : LockTable) : LockTable :=
  rows.set l.name ⟨l.holder, now, now + l.ttlSeconds⟩

/-- Whether `WHERE name = ? AND holder = ?` finds a row. -/
def owns (l : StoreLock) (rows : LockTable) : Bool :=
  (rows.get? l.name).any fun r => decide (r.holder = l.holder)

/-- `UPDATE store_locks SET expires_at = ? WHERE name = ? AND holder = ?`. -/
def extend (l : StoreLock) (now : ℚ) (rows : LockTable) : LockTable :=
  rows.map fun e => (e.1, if e.1 = l.name ∧ e.2.holder = l.holder then
    { e.2 with expiresAt := now + l.ttlSeconds } else e.2)

/-- `DELETE FROM store_locks WHERE name = ? AND holder = ?`. -/
def delete (l : StoreLock) (rows : LockTable) : LockTable :=
  if l.owns rows then rows.erase l.name else rows

end StoreLock

inductive LockOp where
  | acquire (force : Bool)
  | renew
  | release
  deriving DecidableEq

/-- A call of `acquire`, `renew` or `release`, with the clock it read first. -/
structure LockCall where
  lock : StoreLock
  op : LockOp
  now : ℚ

namespace LockCall

/-- The statement that writes : the rows after it, and what the call returns once they are
committed. -/
def write (c : LockCall) (rows : LockTable) : LockTable × Bool :=
  match c.op with
  | .acquire _ => (c.lock.upsert c.now rows, true)
  | .renew => (c.lock.extend c.now rows, c.lock.owns rows)
  | .release => (c.lock.delete rows, c.lock.owns rows)

/-- What the holders hold after a call has returned. -/
def settle (c : LockCall) (result : Bool) (holds : Dict (String × String) ℚ) :
    Dict (String × String) ℚ :=
  match c.op with
  | .acquire force =>
    let kept : Dict (String × String) ℚ :=
      if force then holds.filter fun h => h.1.2 ≠ c.lock.name else holds
    kept.set (c.lock.holder, c.lock.name) (c.now + c.lock.ttlSeconds)
  | .renew =>
    if result then holds.set (c.lock.holder, c.lock.name) (c.now + c.lock.ttlSeconds) else holds
  | .release => holds.erase (c.lock.holder, c.lock.name)

/-- An `acquire` without force overwrites no row of another holder that has not expired. -/
def Clear (c : LockCall) (rows : LockTable) (now : ℚ) : Prop :=
  c.op = .acquire false →
    ∀ r ∈ rows.get? c.lock.name, r.holder = c.lock.holder ∨ r.expiresAt ≤ now

instance (c : LockCall) (rows : LockTable) (now : ℚ) : Decidable (c.Clear rows now) :=
  inferInstanceAs (Decidable (_ → _))

end LockCall

/-- The one open write transaction : whose it is, and the rows as it sees them. -/
structure LockWrite where
  process : ℕ
  call : LockCall
  working : LockTable
  result : Bool

/-- What an open transaction has made of the rows, and that it was free to. -/
structure LockWrite.Pending (w : LockWrite) (rows : LockTable) (now : ℚ) : Prop where
  write : (w.working, w.result) = w.call.write rows
  clear : w.call.Clear rows now

/-- The processes on one database. A call that has not written yet is in `calls`, with whether
its `SELECT` is still to come. -/
structure LockSystem where
  now : ℚ
  rows : LockTable
  calls : Dict ℕ (LockCall × Bool) := []
  transaction : Option LockWrite := none
  holds : Dict (String × String) ℚ := []

inductive LockEvent where
  | wait (time : ℚ≥0)
  | call (process : ℕ) (lock : StoreLock) (op : LockOp)
  /-- The next statement of a process. -/
  | statement (process : ℕ)
  /-- The statement raises instead, or the process ends. -/
  | raises (process : ℕ)

namespace LockSystem

/-- Whether a process has a call under way. -/
def inCall (s : LockSystem) (process : ℕ) : Bool :=
  (s.calls.get? process).isSome || s.transaction.any fun w => w.process = process

def commit (s : LockSystem) (w : LockWrite) : LockSystem :=
  { s with
    rows := w.working
    transaction := none
    holds := w.call.settle w.result s.holds }

/-- The `SELECT` of `acquire`, which returns if the lock is busy. -/
def select (s : LockSystem) (process : ℕ) (c : LockCall) : LockSystem :=
  if c.op = .acquire false ∧ c.lock.isBusy c.now (s.rows.get? c.lock.name) then
    { s with calls := s.calls.erase process }
  else { s with calls := s.calls.set process (c, false) }

/-- The statement that writes. It raises while another process has a transaction open. -/
def write (s : LockSystem) (process : ℕ) (c : LockCall) : LockSystem :=
  match s.transaction with
  | some _ => { s with calls := s.calls.erase process }
  | none =>
    { s with
      calls := s.calls.erase process
      transaction := some ⟨process, c, (c.write s.rows).1, (c.write s.rows).2⟩ }

/-- The next statement of a process : its `COMMIT`, its `SELECT` or the one that writes. -/
def statement (s : LockSystem) (process : ℕ) : LockSystem :=
  match s.transaction.filter fun w => w.process = process with
  | some w => s.commit w
  | none =>
    match s.calls.get? process with
    | none => s
    | some (c, true) => s.select process c
    | some (c, false) => s.write process c

def step (s : LockSystem) : LockEvent → LockSystem
  | .wait time => { s with now := s.now + time }
  | .call process lock op =>
    if s.inCall process then s
    else { s with calls := s.calls.set process (⟨lock, op, s.now⟩, op matches .acquire _) }
  | .statement process => s.statement process
  | .raises process =>
    { s with
      calls := s.calls.erase process
      transaction := s.transaction.filter fun w => w.process ≠ process }

/-- No two holders hold the same lock. -/
def Exclusive (s : LockSystem) : Prop :=
  ∀ name holder holder' until₁ until₂, s.holds.get? (holder, name) = some until₁ →
    s.holds.get? (holder', name) = some until₂ → s.now < until₁ → s.now < until₂ →
      holder = holder'

/-- A statement that writes finds the row no other holder's : the `SELECT` still tells the
truth. -/
def Unraced (s : LockSystem) : LockEvent → Prop
  | .statement process => ∀ c ∈ s.calls.get? process, c.2 = false → s.transaction.isNone →
      c.1.Clear s.rows s.now
  | _ => True

instance (s : LockSystem) : (e : LockEvent) → Decidable (s.Unraced e)
  | .statement process => inferInstanceAs (Decidable (∀ c ∈ s.calls.get? process, _))
  | .wait _ | .call _ _ _ | .raises _ => .isTrue trivial

/-- What a holder holds, its row says. -/
def Recorded (s : LockSystem) : Prop :=
  ∀ holder name expiry, s.holds.get? (holder, name) = some expiry → s.now < expiry →
    ∃ r, s.rows.get? name = some r ∧ r.holder = holder ∧ r.expiresAt = expiry

/-- The invariant of unraced runs. -/
structure Ok (s : LockSystem) : Prop where
  recorded : s.Recorded
  pending : ∀ w ∈ s.transaction, w.Pending s.rows s.now

theorem Recorded.exclusive {s : LockSystem} (h : s.Recorded) : s.Exclusive := by
  intro name holder holder' until₁ until₂ h₁ h₂ hlt₁ hlt₂
  obtain ⟨r, hr, rfl, -⟩ := h holder name until₁ h₁ hlt₁
  obtain ⟨r', hr', rfl, -⟩ := h holder' name until₂ h₂ hlt₂
  rw [Option.some.inj (hr.symm.trans hr')]

end LockSystem

/-! ## What a committed call leaves -/

namespace StoreLock

theorem owns_eq_true {l : StoreLock} {rows : LockTable} :
    l.owns rows = true ↔ ∃ r, rows.get? l.name = some r ∧ r.holder = l.holder := by
  simp [owns, Option.any_eq_true]

/-- The rows a lock does not own stay as they are. -/
theorem get?_extend_of_ne {l : StoreLock} {now : ℚ} {rows : LockTable} {name : String}
    {r : LockRow} (h : rows.get? name = some r) (hr : ¬(name = l.name ∧ r.holder = l.holder)) :
    (l.extend now rows).get? name = some r := by
  rw [extend, Dict.get?_map fun (n : String) (r : LockRow) =>
    if n = l.name ∧ r.holder = l.holder then { r with expiresAt := now + l.ttlSeconds } else r]
  rw [h, Option.map_some, if_neg hr]

/-- Its own is extended. -/
theorem get?_extend_self {l : StoreLock} {rows : LockTable} (now : ℚ) (h : l.owns rows = true) :
    ∃ r, (l.extend now rows).get? l.name = some r ∧ r.holder = l.holder ∧
      r.expiresAt = now + l.ttlSeconds := by
  obtain ⟨r, hr, hholder⟩ := owns_eq_true.1 h
  rw [extend, Dict.get?_map fun (n : String) (r : LockRow) =>
    if n = l.name ∧ r.holder = l.holder then { r with expiresAt := now + l.ttlSeconds } else r]
  rw [hr, Option.map_some, if_pos ⟨rfl, hholder⟩]
  exact ⟨_, rfl, hholder, rfl⟩

theorem get?_delete_of_ne {l : StoreLock} {rows : LockTable} {name : String} {r : LockRow}
    (h : rows.get? name = some r) (hr : ¬(name = l.name ∧ r.holder = l.holder)) :
    (l.delete rows).get? name = some r := by
  unfold delete
  split_ifs with howns
  · obtain ⟨r', hr', hholder⟩ := owns_eq_true.1 howns
    have hname : name ≠ l.name := by
      rintro rfl
      rw [Option.some.inj (h.symm.trans hr')] at hr
      exact hr ⟨rfl, hholder⟩
    rwa [Dict.get?_erase_of_ne hname]
  · exact h

end StoreLock

namespace LockSystem

variable {s : LockSystem} {holder name : String} {expiry : ℚ}

/-- A hold that `acquire` commits is its own, or one of before on another lock. -/
theorem Recorded.acquire (h : s.Recorded) {l : StoreLock} {force : Bool} {now : ℚ}
    (hclear : LockCall.Clear ⟨l, .acquire force, now⟩ s.rows s.now)
    (hhold : (LockCall.settle ⟨l, .acquire force, now⟩ true s.holds).get? (holder, name) =
      some expiry) (hlt : s.now < expiry) :
    ∃ r, (l.upsert now s.rows).get? name = some r ∧ r.holder = holder ∧ r.expiresAt = expiry := by
  rw [LockCall.settle, Dict.get?_set] at hhold
  rw [StoreLock.upsert, Dict.get?_set]
  by_cases hown : (holder, name) = (l.holder, l.name)
  · obtain ⟨rfl, rfl⟩ := Prod.mk.inj hown
    rw [if_pos rfl] at hhold
    exact ⟨_, if_pos rfl, rfl, Option.some.inj hhold⟩
  · rw [if_neg hown] at hhold
    cases force with
    | true =>
      rw [if_pos rfl, Dict.get?_filter fun k : String × String => decide (k.2 ≠ l.name)] at hhold
      split_ifs at hhold with hname
      obtain ⟨r, hr, hholder, hexpiry⟩ := h holder name expiry hhold hlt
      exact ⟨r, by rwa [if_neg (of_decide_eq_true hname)], hholder, hexpiry⟩
    | false =>
      obtain ⟨r, hr, hholder, hexpiry⟩ := h holder name expiry hhold hlt
      have hname : name ≠ l.name := by
        rintro rfl
        rcases hclear rfl r hr with hsame | hpast
        · exact hown (Prod.ext (hholder.symm.trans hsame) rfl)
        · exact absurd (hexpiry ▸ hpast) (not_le.2 hlt)
      exact ⟨r, by rwa [if_neg hname], hholder, hexpiry⟩

theorem Recorded.renew (h : s.Recorded) {l : StoreLock} {now : ℚ}
    (hhold : (LockCall.settle ⟨l, .renew, now⟩ (l.owns s.rows) s.holds).get? (holder, name) =
      some expiry) (hlt : s.now < expiry) :
    ∃ r, (l.extend now s.rows).get? name = some r ∧ r.holder = holder ∧ r.expiresAt = expiry := by
  rw [LockCall.settle] at hhold
  by_cases hown : (holder, name) = (l.holder, l.name) ∧ l.owns s.rows = true
  · obtain ⟨hkey, howns⟩ := hown
    obtain ⟨rfl, rfl⟩ := Prod.mk.inj hkey
    rw [if_pos howns, Dict.get?_set_self] at hhold
    rw [← Option.some.inj hhold]
    exact StoreLock.get?_extend_self now howns
  · have hold : s.holds.get? (holder, name) = some expiry := by
      split_ifs at hhold with howns
      · rwa [Dict.get?_set_of_ne fun hkey => hown ⟨hkey, howns⟩] at hhold
      · exact hhold
    obtain ⟨r, hr, rfl, rfl⟩ := h holder name expiry hold hlt
    refine ⟨r, StoreLock.get?_extend_of_ne hr ?_, rfl, rfl⟩
    rintro ⟨rfl, hholder⟩
    exact hown ⟨Prod.ext hholder rfl, StoreLock.owns_eq_true.2 ⟨r, hr, hholder⟩⟩

theorem Recorded.release (h : s.Recorded) {l : StoreLock} {now : ℚ}
    (hhold : (LockCall.settle ⟨l, .release, now⟩ (l.owns s.rows) s.holds).get? (holder, name) =
      some expiry) (hlt : s.now < expiry) :
    ∃ r, (l.delete s.rows).get? name = some r ∧ r.holder = holder ∧ r.expiresAt = expiry := by
  obtain ⟨hkey, hold⟩ := Dict.get?_of_get?_erase hhold
  obtain ⟨r, hr, rfl, rfl⟩ := h holder name expiry hold hlt
  refine ⟨r, StoreLock.get?_delete_of_ne hr ?_, rfl, rfl⟩
  rintro ⟨rfl, hholder⟩
  exact hkey (Prod.ext hholder rfl)

/-! ## Steps and runs -/

theorem Ok.commit (h : s.Ok) {w : LockWrite} (hw : w ∈ s.transaction) : (s.commit w).Ok where
  recorded := by
    intro holder name expiry hhold hlt
    obtain ⟨hwrite, hclear⟩ := h.pending w hw
    obtain ⟨process, ⟨l, op, now⟩, working, result⟩ := w
    have hworking : working = (LockCall.write ⟨l, op, now⟩ s.rows).1 := congrArg Prod.fst hwrite
    have hresult : result = (LockCall.write ⟨l, op, now⟩ s.rows).2 := congrArg Prod.snd hwrite
    subst hworking hresult
    cases op with
    | acquire force => exact h.recorded.acquire hclear hhold hlt
    | renew => exact h.recorded.renew hhold hlt
    | release => exact h.recorded.release hhold hlt
  pending := nofun

theorem Ok.statement (h : s.Ok) {process : ℕ} (hraced : s.Unraced (.statement process)) :
    (s.statement process).Ok := by
  unfold LockSystem.statement
  split
  · rename_i w hw
    exact h.commit (Option.eq_some_of_filter_eq_some hw)
  · split
    · exact h
    · unfold select
      split_ifs
      · exact ⟨h.recorded, h.pending⟩
      · exact ⟨h.recorded, h.pending⟩
    · rename_i c hc
      unfold LockSystem.write
      split
      · exact ⟨h.recorded, h.pending⟩
      · rename_i hnone
        refine ⟨h.recorded, fun w hw => ?_⟩
        obtain rfl := Option.mem_some.1 hw
        exact ⟨rfl, hraced (c, false) hc rfl (by rw [hnone]; rfl)⟩

theorem Ok.wait (h : s.Ok) (time : ℚ≥0) : (s.step (.wait time)).Ok where
  recorded := by
    intro holder name expiry hhold hlt
    have hnow : s.now ≤ s.now + time := le_add_of_nonneg_right time.2
    exact h.recorded holder name expiry hhold (hnow.trans_lt hlt)
  pending := by
    intro w hw
    obtain ⟨hwrite, hclear⟩ := h.pending w hw
    have hnow : s.now ≤ s.now + time := le_add_of_nonneg_right time.2
    exact ⟨hwrite, fun hop r hr => (hclear hop r hr).imp_right hnow.trans'⟩

theorem Ok.step (h : s.Ok) {e : LockEvent} (hraced : s.Unraced e) : (s.step e).Ok := by
  cases e with
  | wait time => exact h.wait time
  | call process lock op =>
    simp only [LockSystem.step]
    split_ifs
    · exact h
    · exact ⟨h.recorded, h.pending⟩
  | statement process => exact h.statement hraced
  | raises process =>
    exact ⟨h.recorded, fun w hw => h.pending w (Option.eq_some_of_filter_eq_some hw)⟩

/-- Where every statement that writes finds what its `SELECT` read, no two holders ever hold
one lock. -/
theorem exclusive_of_unraced (rows : LockTable) (now : ℚ) (es : List LockEvent)
    (h : EachStep LockSystem.step Unraced { now, rows } es) :
    ∀ s ∈ trail LockSystem.step { now, rows } es, s.Exclusive := by
  have hstart : Ok { now, rows } := ⟨nofun, nofun⟩
  intro s hs
  exact (h.forall_mem_trail (fun _ _ hok hraced => hok.step hraced) hstart s hs).recorded.exclusive

/-- Two processes after the maintenance lock. -/
def maintenanceLock (holder : String) : StoreLock :=
  { name := "maint", holder }

/-- The second takes the lock over when the first has let it expire. -/
def takenOver : List LockEvent :=
  [.call 1 (maintenanceLock "A") (.acquire false), .statement 1, .statement 1, .statement 1,
    .wait 61, .call 2 (maintenanceLock "B") (.acquire false), .statement 2, .statement 2,
    .statement 2]

theorem exclusive_of_unraced_takenOver :
    (takenOver.foldl LockSystem.step { now := 0, rows := [] }).Exclusive :=
  exclusive_of_unraced [] 0 takenOver (by decide +kernel) _ (foldl_mem_trail takenOver _)

/-- Both read that the row is free before either writes. -/
def bothRead : List LockEvent :=
  [.call 1 (maintenanceLock "A") (.acquire false), .statement 1,
    .call 2 (maintenanceLock "B") (.acquire false), .statement 2,
    .statement 1, .statement 1, .statement 2, .statement 2]

theorem bothRead_not_exclusive : ¬∀ (rows : LockTable) (now : ℚ) (es : List LockEvent),
    ∀ s ∈ trail LockSystem.step { now, rows } es, s.Exclusive := by
  intro h
  have hlast := h [] 0 bothRead _ (foldl_mem_trail bothRead _)
  have hsame : "A" = "B" := hlast "maint" "A" "B" 60 60 (by decide +kernel) (by decide +kernel)
    (by decide +kernel) (by decide +kernel)
  exact absurd hsame (by decide)

end LockSystem

end OxenClaw
