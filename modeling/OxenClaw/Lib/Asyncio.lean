import Mathlib.Data.List.Basic
import Mathlib.Data.List.Nodup
import Mathlib.Tactic.TypeStar

/-!
# The lock and the semaphore of asyncio

A task that cannot take a lock or a slot at once is queued with a future and suspends. The
future is `pending` until it is resolved (`woken`) or cancelled with its task, and the task
finds out only when it is scheduled again : it resumes (`resume`) or its await raises
(`abandon`). Everything between two awaits of a task is one operation here.

A lock wakes its first waiter only, so a taken lock has no woken waiter and a free one has no
pending waiter in front (`Lock.Ok`). A semaphore hands a slot to the waiter it wakes : free
slots and slots handed over make up its budget, which only taking and releasing change
(`budget_acquire`, `budget_resume`, `budget_abandon`, `budget_release`), and while a slot is
free no waiter is pending unless one has been woken (`Semaphore.Ok`).
-/

set_option linter.unusedSectionVars false

namespace Asyncio

variable {τ : Type*} [DecidableEq τ]

/-- A waiter's future. -/
inductive Wait where
  | pending
  | woken
  | cancelled
  deriving DecidableEq

/-- Waiting tasks with their futures, first come first. -/
abbrev Waiters (τ : Type*) := List (τ × Wait)

namespace Waiters

/-- The future task `t` waits for. -/
def wait (ws : Waiters τ) (t : τ) : Option Wait :=
  (ws.find? fun w => w.1 = t).map Prod.snd

/-- `waiters.remove(fut)` of task `t`. -/
def remove (ws : Waiters τ) (t : τ) : Waiters τ :=
  ws.filter fun w => w.1 ≠ t

/-- `fut.cancel()` of task `t` : only a pending future is cancelled. -/
def cancel (ws : Waiters τ) (t : τ) : Waiters τ :=
  ws.map fun w => if w = (t, .pending) then (t, .cancelled) else w

/-- Resolve the first pending future. -/
def wakeNext : Waiters τ → Option (Waiters τ)
  | [] => none
  | (t, .pending) :: ws => some ((t, .woken) :: ws)
  | (t, .woken) :: ws => (wakeNext ws).map ((t, .woken) :: ·)
  | (t, .cancelled) :: ws => (wakeNext ws).map ((t, .cancelled) :: ·)

/-- The tasks that wait. -/
def tasks (ws : Waiters τ) : List τ :=
  ws.map Prod.fst

/-- Futures that are resolved, their task not yet resumed. -/
def woken (ws : Waiters τ) : ℕ :=
  ws.countP fun w => w.2 = .woken

/-- No waiter's future is pending. -/
def NonePending (ws : Waiters τ) : Prop :=
  ∀ w ∈ ws, w.2 ≠ .pending

@[simp] theorem tasks_remove (ws : Waiters τ) (t : τ) :
    tasks (remove ws t) = (tasks ws).filter (· ≠ t) := by
  rw [tasks, tasks, List.filter_map]
  rfl

@[simp] theorem tasks_cancel (ws : Waiters τ) (t : τ) : tasks (cancel ws t) = tasks ws := by
  rw [tasks, tasks, cancel, List.map_map]
  refine List.map_congr_left fun w _ => ?_
  by_cases h : w = (t, .pending) <;> simp [h]

@[simp] theorem tasks_append (ws ws' : Waiters τ) : tasks (ws ++ ws') = tasks ws ++ tasks ws' :=
  List.map_append

theorem mem_of_wait {ws : Waiters τ} {t : τ} {f : Wait} (h : wait ws t = some f) :
    (t, f) ∈ ws := by
  obtain ⟨w, hw, rfl⟩ := Option.map_eq_some_iff.1 h
  have hname : w.1 = t := by simpa using List.find?_some hw
  rw [← hname]
  exact List.mem_of_find?_eq_some hw

theorem mem_tasks_of_wait {ws : Waiters τ} {t : τ} {f : Wait} (h : wait ws t = some f) :
    t ∈ tasks ws :=
  List.mem_map_of_mem (mem_of_wait h)

theorem mem_of_mem_remove {ws : Waiters τ} {t : τ} {w : τ × Wait} (h : w ∈ remove ws t) :
    w ∈ ws :=
  List.mem_of_mem_filter h

/-- A waiter after a cancellation was there before, unless it is the cancelled one. -/
theorem mem_cancel {ws : Waiters τ} {t : τ} {w : τ × Wait} (h : w ∈ cancel ws t) :
    w ∈ ws ∨ w.2 = .cancelled := by
  obtain ⟨w', hw', rfl⟩ := List.mem_map.1 h
  split_ifs
  · exact .inr rfl
  · exact .inl hw'

theorem woken_cancel (ws : Waiters τ) (t : τ) : woken (cancel ws t) = woken ws := by
  rw [woken, woken, cancel, List.countP_map]
  refine List.countP_congr fun w _ => ?_
  by_cases h : w = (t, .pending) <;> simp [h]

theorem woken_pos_iff {ws : Waiters τ} : 0 < woken ws ↔ ∃ w ∈ ws, w.2 = .woken := by
  simp [woken, List.countP_pos_iff]

/-- Removing a waiter removes its future : the names are distinct. -/
theorem woken_remove {ws : Waiters τ} (h : (tasks ws).Nodup) (t : τ) :
    woken (remove ws t) + (if wait ws t = some .woken then 1 else 0) = woken ws := by
  induction ws with
  | nil => rfl
  | cons w ws ih =>
    obtain ⟨hw, hnodup⟩ := List.nodup_cons.1 h
    by_cases ht : w.1 = t
    · have hrest : remove ws t = ws := by
        refine List.filter_eq_self.2 fun w' hw' => ?_
        have hne : w'.1 ≠ t := by
          rintro rfl
          exact hw (ht ▸ List.mem_map_of_mem hw')
        simpa using hne
      have hremove : remove (w :: ws) t = ws := by
        simpa [remove, ht] using hrest
      rw [hremove]
      by_cases hf : w.2 = .woken <;> simp [wait, woken, ht, hf]
    · have hwait : wait (w :: ws) t = wait ws t := by simp [wait, ht]
      have hremove : remove (w :: ws) t = w :: remove ws t := by simp [remove, ht]
      have ih := ih hnodup
      rw [hwait, hremove]
      simp only [woken, List.countP_cons] at ih ⊢
      omega

/-- Waking the next waiter resolves one future, and is impossible only with none pending. -/
theorem wakeNext_eq_some {ws ws' : Waiters τ} (h : wakeNext ws = some ws') :
    tasks ws' = tasks ws ∧ woken ws' = woken ws + 1 := by
  induction ws generalizing ws' with
  | nil => simp [wakeNext] at h
  | cons w ws ih =>
    obtain ⟨t, _ | _ | _⟩ := w
    · obtain rfl : (t, .woken) :: ws = ws' := by simpa [wakeNext] using h
      simp [tasks, woken]
    all_goals
      obtain ⟨rest, hrest, rfl⟩ := Option.map_eq_some_iff.1 h
      obtain ⟨htasks, hwoken⟩ := ih hrest
      simp only [tasks, List.map_cons, woken, List.countP_cons] at htasks hwoken ⊢
      exact ⟨by rw [htasks], by omega⟩

theorem nonePending_of_wakeNext {ws : Waiters τ} (h : wakeNext ws = none) :
    NonePending ws := by
  induction ws with
  | nil => simp [NonePending]
  | cons w ws ih =>
    obtain ⟨t, _ | _ | _⟩ := w
    · simp [wakeNext] at h
    all_goals
      have hrest : wakeNext ws = none := by simpa [wakeNext] using h
      rintro w' hw'
      rcases List.mem_cons.1 hw' with rfl | hw'
      · simp
      · exact ih hrest w' hw'

end Waiters

/-! ## The lock -/

/-- `asyncio.Lock`. -/
structure Lock (τ : Type*) where
  locked : Bool := false
  waiters : Waiters τ := []

namespace Lock

/-- The lock can be taken without waiting : it is free and every waiter is cancelled. -/
def isFree (l : Lock τ) : Bool :=
  !l.locked && l.waiters.all fun w => w.2 = .cancelled

/-- `_wake_up_first`. -/
def wakeUpFirst (l : Lock τ) : Lock τ :=
  match l.waiters with
  | (t, .pending) :: ws => { l with waiters := (t, .woken) :: ws }
  | _ => l

/-- `acquire` of a free lock. -/
def take (l : Lock τ) : Lock τ :=
  { l with locked := true }

/-- `acquire` up to its await, where the lock is not free. -/
def enqueue (l : Lock τ) (t : τ) : Lock τ :=
  { l with waiters := l.waiters ++ [(t, .pending)] }

/-- `acquire` from its await on, the future resolved. -/
def resume (l : Lock τ) (t : τ) : Lock τ :=
  { locked := true, waiters := Waiters.remove l.waiters t }

/-- `acquire` from its await on, the await raising. -/
def abandon (l : Lock τ) (t : τ) : Lock τ :=
  if l.locked then { l with waiters := Waiters.remove l.waiters t }
  else wakeUpFirst { l with waiters := Waiters.remove l.waiters t }

def cancel (l : Lock τ) (t : τ) : Lock τ :=
  { l with waiters := Waiters.cancel l.waiters t }

/-- `release`. It raises where the lock is not taken. -/
def release (l : Lock τ) : Lock τ :=
  if l.locked then wakeUpFirst { l with locked := false } else l

/-- Only the first waiter is woken, and only while the lock is free; the first waiter of a
free lock is on its way. -/
structure Ok (l : Lock τ) : Prop where
  tail : ∀ w ∈ l.waiters.tail, w.2 ≠ .woken
  taken : l.locked = true → ∀ w ∈ l.waiters, w.2 ≠ .woken
  front : l.locked = false → ∀ w ∈ l.waiters.head?, w.2 ≠ .pending

@[simp] theorem locked_wakeUpFirst (l : Lock τ) : l.wakeUpFirst.locked = l.locked := by
  unfold wakeUpFirst
  split <;> rfl

@[simp] theorem tasks_wakeUpFirst (l : Lock τ) :
    Waiters.tasks l.wakeUpFirst.waiters = Waiters.tasks l.waiters := by
  unfold wakeUpFirst
  split
  · next h => simp [Waiters.tasks, h]
  · rfl

/-- Waking the first waiter is what a free lock owes. -/
theorem ok_wakeUpFirst {l : Lock τ} (hfree : l.locked = false)
    (htail : ∀ w ∈ l.waiters.tail, w.2 ≠ .woken) : l.wakeUpFirst.Ok := by
  obtain ⟨locked, _ | ⟨⟨t, _ | _ | _⟩, ws⟩⟩ := l
  · exact ⟨by simp [wakeUpFirst], by simp [wakeUpFirst], by simp [wakeUpFirst]⟩
  all_goals
    refine ⟨by simpa [wakeUpFirst] using htail, fun h => ?_, by simp [wakeUpFirst]⟩
    rw [locked_wakeUpFirst, hfree] at h
    exact absurd h (by simp)

theorem ok_new : Ok ({} : Lock τ) :=
  ⟨by simp, by simp, by simp⟩

theorem ok_take {l : Lock τ} (h : l.isFree = true) : l.take.Ok := by
  have hcancelled : ∀ w ∈ l.waiters, w.2 = .cancelled := by
    intro w hw
    have hall := (Bool.and_eq_true_iff.1 h).2
    simpa using List.all_eq_true.1 hall w hw
  refine ⟨fun w hw => ?_, fun _ w hw => ?_, fun hl => by simp [take] at hl⟩
  · rw [hcancelled w (List.mem_of_mem_tail hw)]
    simp
  · rw [hcancelled w hw]
    simp

@[simp] theorem tasks_enqueue (l : Lock τ) (t : τ) :
    Waiters.tasks (l.enqueue t).waiters = Waiters.tasks l.waiters ++ [t] :=
  List.map_append

theorem ok_enqueue {l : Lock τ} (h : l.Ok) (hfree : l.isFree = false) (t : τ) :
    (l.enqueue t).Ok := by
  obtain ⟨locked, _ | ⟨w, ws⟩⟩ := l
  · obtain rfl : locked = true := by simpa [isFree] using hfree
    exact ⟨by simp [enqueue], by simp [enqueue], by simp [enqueue]⟩
  · refine ⟨fun w' hw' => ?_, fun hl w' hw' => ?_, fun hl => by simpa [enqueue] using h.front hl⟩
    · have hw' : w' ∈ ws ∨ w' = (t, .pending) := by simpa [enqueue] using hw'
      rcases hw' with hw' | rfl
      · exact h.tail w' hw'
      · simp
    · have hw' : w' ∈ w :: ws ∨ w' = (t, .pending) := by simpa [enqueue, or_assoc] using hw'
      rcases hw' with hw' | rfl
      · exact h.taken hl w' hw'
      · simp

/-- A lock whose waiter was woken is free. -/
theorem Ok.locked_eq_false {l : Lock τ} (h : l.Ok) {t : τ}
    (hw : Waiters.wait l.waiters t = some .woken) : l.locked = false := by
  by_contra hl
  exact h.taken (by simpa using hl) _ (Waiters.mem_of_wait hw) rfl

theorem mem_tail_filter {α : Type*} {p : α → Bool} {l : List α} {a : α}
    (h : a ∈ (l.filter p).tail) : a ∈ l.tail := by
  cases l with
  | nil => exact h
  | cons b l =>
    by_cases hb : p b = true
    · rw [List.filter_cons_of_pos hb] at h
      exact List.mem_of_mem_filter h
    · rw [List.filter_cons_of_neg hb] at h
      exact List.mem_of_mem_filter (List.mem_of_mem_tail h)

theorem ok_resume {l : Lock τ} (h : l.Ok) {t : τ}
    (hw : Waiters.wait l.waiters t = some .woken) : (l.resume t).Ok := by
  have hnone : ∀ w ∈ Waiters.remove l.waiters t, w.2 ≠ .woken := by
    intro w hmem
    obtain ⟨hmem, hne⟩ := List.mem_filter.1 hmem
    -- the woken waiter is the first one, so the others are behind it
    rcases hl : l.waiters with _ | ⟨v, ws⟩
    · simp [hl] at hmem
    · have htail := h.tail
      rw [hl] at htail hmem
      have hv : v.1 = t := by
        by_contra hv
        have := Waiters.mem_of_wait hw
        rw [hl] at this
        rcases List.mem_cons.1 this with rfl | hin
        · exact hv rfl
        · exact htail _ hin rfl
      rcases List.mem_cons.1 hmem with rfl | hin
      · simp [hv] at hne
      · exact htail w hin
  exact ⟨fun w hmem => hnone w (List.mem_of_mem_tail hmem), fun _ => hnone,
    fun hl => by simp [resume] at hl⟩

@[simp] theorem tasks_resume (l : Lock τ) (t : τ) :
    Waiters.tasks (l.resume t).waiters = (Waiters.tasks l.waiters).filter (· ≠ t) :=
  Waiters.tasks_remove _ _

@[simp] theorem tasks_lockCancel (l : Lock τ) (t : τ) :
    Waiters.tasks (l.cancel t).waiters = Waiters.tasks l.waiters :=
  Waiters.tasks_cancel _ _

@[simp] theorem locked_abandon (l : Lock τ) (t : τ) : (l.abandon t).locked = l.locked := by
  unfold abandon
  split_ifs <;> simp

@[simp] theorem tasks_abandon (l : Lock τ) (t : τ) :
    Waiters.tasks (l.abandon t).waiters = (Waiters.tasks l.waiters).filter (· ≠ t) := by
  unfold abandon
  split_ifs <;> simp

theorem ok_abandon {l : Lock τ} (h : l.Ok) (t : τ) : (l.abandon t).Ok := by
  have htail : ∀ w ∈ (Waiters.remove l.waiters t).tail, w.2 ≠ .woken :=
    fun w hw => h.tail w (mem_tail_filter hw)
  unfold abandon
  split_ifs with hl
  · refine ⟨htail, fun _ w hw => h.taken hl w (Waiters.mem_of_mem_remove hw), fun hl' => ?_⟩
    exact absurd hl (by simpa using hl')
  · exact ok_wakeUpFirst (by simpa using hl) htail

theorem ok_cancel {l : Lock τ} (h : l.Ok) (t : τ) : (l.cancel t).Ok := by
  have hkeep : ∀ {ws : Waiters τ} {f : Wait}, f ≠ .cancelled → (∀ w ∈ ws, w.2 ≠ f) →
      ∀ w ∈ Waiters.cancel ws t, w.2 ≠ f := by
    intro ws f hf hws w hw
    rcases Waiters.mem_cancel hw with hw | hw
    · exact hws w hw
    · rw [hw]
      exact hf.symm
  refine ⟨?_, fun hl => hkeep (by simp) (h.taken hl), fun hl w hw => ?_⟩
  · have htail : (l.cancel t).waiters.tail = Waiters.cancel l.waiters.tail t := by
      simp [cancel, Waiters.cancel, List.map_tail]
    rw [htail]
    exact hkeep (by simp) h.tail
  · rcases hv : l.waiters with _ | ⟨v, ws⟩
    · simp [cancel, Waiters.cancel, hv] at hw
    · have hfront : v.2 ≠ .pending := h.front hl v (by simp [hv])
      have hw : w = if v = (t, .pending) then (t, .cancelled) else v := by
        simpa [cancel, Waiters.cancel, hv, eq_comm] using hw
      rw [hw]
      split_ifs
      · simp
      · exact hfront

@[simp] theorem tasks_release (l : Lock τ) :
    Waiters.tasks l.release.waiters = Waiters.tasks l.waiters := by
  unfold release
  split_ifs <;> simp

theorem locked_release {l : Lock τ} (h : l.locked = true) : l.release.locked = false := by
  simp [release, h]

theorem ok_release {l : Lock τ} (h : l.Ok) : l.release.Ok := by
  unfold release
  split_ifs
  · exact ok_wakeUpFirst rfl h.tail
  · exact h

/-- With no future resolved or cancelled, who waits, waits for a holder. -/
theorem Ok.locked_of_pending {l : Lock τ} (h : l.Ok) (hall : ∀ w ∈ l.waiters, w.2 = .pending)
    (hne : l.waiters ≠ []) : l.locked = true := by
  by_contra hl
  obtain ⟨w, ws, hw⟩ := List.exists_cons_of_ne_nil hne
  have hfront := h.front (by simpa using hl) w (by simp [hw])
  exact hfront (hall w (by simp [hw]))

end Lock

/-! ## The semaphore -/

/-- `asyncio.Semaphore`. -/
structure Semaphore (τ : Type*) where
  value : ℕ
  waiters : Waiters τ := []

namespace Semaphore

/-- `locked()` : no slot is free, or a waiter comes first. -/
def locked (s : Semaphore τ) : Bool :=
  s.value == 0 || s.waiters.any fun w => w.2 ≠ .cancelled

/-- `_wake_up_next` : a waiter it wakes has its slot already. -/
def wakeUpNext (s : Semaphore τ) : Option (Semaphore τ) :=
  (Waiters.wakeNext s.waiters).map fun ws => { value := s.value - 1, waiters := ws }

/-- Wake the next waiter at most `n` times. -/
def wakeUp : ℕ → Semaphore τ → Semaphore τ
  | 0, s => s
  | n + 1, s =>
    match s.wakeUpNext with
    | some s' => wakeUp n s'
    | none => s

/-- `while self._value > 0` : wake the next waiter, until there is none. -/
def drain (s : Semaphore τ) : Semaphore τ :=
  wakeUp s.value s

/-- `acquire` where a slot is free. -/
def take (s : Semaphore τ) : Semaphore τ :=
  { s with value := s.value - 1 }

/-- `acquire` up to its await, where no slot is free. -/
def enqueue (s : Semaphore τ) (t : τ) : Semaphore τ :=
  { s with waiters := s.waiters ++ [(t, .pending)] }

/-- `acquire` from its await on, the future resolved. -/
def resume (s : Semaphore τ) (t : τ) : Semaphore τ :=
  drain { s with waiters := Waiters.remove s.waiters t }

/-- `acquire` from its await on, the await raising : a slot handed over is put back. -/
def abandon (s : Semaphore τ) (t : τ) : Semaphore τ :=
  let value := if Waiters.wait s.waiters t = some .woken then s.value + 1 else s.value
  drain { value, waiters := Waiters.remove s.waiters t }

def cancel (s : Semaphore τ) (t : τ) : Semaphore τ :=
  { s with waiters := Waiters.cancel s.waiters t }

/-- `release`. -/
def release (s : Semaphore τ) : Semaphore τ :=
  let s' := { s with value := s.value + 1 }
  s'.wakeUpNext.getD s'

/-- Slots that are free or handed to a waiter. -/
def budget (s : Semaphore τ) : ℕ :=
  s.value + Waiters.woken s.waiters

/-- While a slot is free no waiter is pending, unless one is on its way. -/
def Ok (s : Semaphore τ) : Prop :=
  s.value = 0 ∨ Waiters.NonePending s.waiters ∨ 0 < Waiters.woken s.waiters

theorem ok_new (value : ℕ) : Ok ({ value } : Semaphore τ) :=
  .inr (.inl (by simp [Waiters.NonePending]))

theorem wakeUpNext_eq_some {s s' : Semaphore τ} (h : s.wakeUpNext = some s') :
    Waiters.tasks s'.waiters = Waiters.tasks s.waiters ∧ s'.value = s.value - 1 ∧
      Waiters.woken s'.waiters = Waiters.woken s.waiters + 1 := by
  obtain ⟨ws, hws, rfl⟩ := Option.map_eq_some_iff.1 h
  obtain ⟨htasks, hwoken⟩ := Waiters.wakeNext_eq_some hws
  exact ⟨htasks, rfl, hwoken⟩

theorem wakeUp_spec (n : ℕ) (s : Semaphore τ) (hn : s.value = n) :
    Waiters.tasks (wakeUp n s).waiters = Waiters.tasks s.waiters ∧
      (wakeUp n s).budget = s.budget ∧
      ((wakeUp n s).value = 0 ∨ Waiters.NonePending (wakeUp n s).waiters) := by
  induction n generalizing s with
  | zero => exact ⟨rfl, rfl, .inl hn⟩
  | succ n ih =>
    cases hw : s.wakeUpNext with
    | none =>
      have hstop : wakeUp (n + 1) s = s := by rw [wakeUp, hw]
      have hnone : Waiters.wakeNext s.waiters = none := by simpa [wakeUpNext] using hw
      rw [hstop]
      exact ⟨rfl, rfl, .inr (Waiters.nonePending_of_wakeNext hnone)⟩
    | some s' =>
      have hgo : wakeUp (n + 1) s = wakeUp n s' := by rw [wakeUp, hw]
      obtain ⟨htasks, hvalue, hwoken⟩ := wakeUpNext_eq_some hw
      obtain ⟨htasks', hbudget', hdone⟩ := ih s' (by omega)
      rw [hgo]
      refine ⟨htasks'.trans htasks, hbudget'.trans ?_, hdone⟩
      unfold budget
      omega

@[simp] theorem tasks_drain (s : Semaphore τ) :
    Waiters.tasks s.drain.waiters = Waiters.tasks s.waiters :=
  (wakeUp_spec _ s rfl).1

/-- Draining hands slots over. -/
theorem budget_drain (s : Semaphore τ) : s.drain.budget = s.budget :=
  (wakeUp_spec _ s rfl).2.1

/-- Draining leaves no slot free with a waiter pending. -/
theorem ok_drain (s : Semaphore τ) : s.drain.Ok := by
  obtain ⟨-, -, h | h⟩ := wakeUp_spec _ s rfl
  · exact .inl h
  · exact .inr (.inl h)

theorem value_pos_of_not_locked {s : Semaphore τ} (h : s.locked = false) : 0 < s.value := by
  have hvalue := (Bool.or_eq_false_iff.1 h).1
  have : s.value ≠ 0 := by simpa using hvalue
  omega

theorem ok_take {s : Semaphore τ} (h : s.locked = false) : s.take.Ok := by
  have hany := (Bool.or_eq_false_iff.1 h).2
  refine .inr (.inl fun w hw => ?_)
  have hcancelled : w.2 = .cancelled := by simpa using List.any_eq_false.1 hany w hw
  rw [hcancelled]
  simp

theorem budget_take {s : Semaphore τ} (h : s.locked = false) : s.take.budget + 1 = s.budget := by
  have := value_pos_of_not_locked h
  simp only [take, budget]
  omega

theorem ok_enqueue {s : Semaphore τ} (h : s.Ok) (hlocked : s.locked = true) (t : τ) :
    (s.enqueue t).Ok := by
  have hwoken : Waiters.woken (s.enqueue t).waiters = Waiters.woken s.waiters := by
    simp [enqueue, Waiters.woken]
  rcases Nat.eq_zero_or_pos s.value with hvalue | hvalue
  · exact .inl hvalue
  · obtain ⟨w, hw, hlive⟩ : ∃ w ∈ s.waiters, w.2 ≠ .cancelled := by
      have hany := (Bool.or_eq_true_iff.1 hlocked).resolve_left (by simpa using by omega)
      simpa using hany
    refine .inr (.inr ?_)
    rw [hwoken]
    rcases h with h | h | h
    · omega
    · refine Waiters.woken_pos_iff.2 ⟨w, hw, ?_⟩
      have := h w hw
      rcases hf : w.2 <;> simp_all
    · exact h

@[simp] theorem tasks_enqueue (s : Semaphore τ) (t : τ) :
    Waiters.tasks (s.enqueue t).waiters = Waiters.tasks s.waiters ++ [t] :=
  List.map_append

theorem budget_enqueue (s : Semaphore τ) (t : τ) : (s.enqueue t).budget = s.budget := by
  simp [enqueue, budget, Waiters.woken]

theorem tasks_resume (s : Semaphore τ) (t : τ) :
    Waiters.tasks (s.resume t).waiters = (Waiters.tasks s.waiters).filter (· ≠ t) := by
  rw [resume, tasks_drain, Waiters.tasks_remove]

theorem ok_resume (s : Semaphore τ) (t : τ) : (s.resume t).Ok :=
  ok_drain _

/-- A resumed waiter takes the slot it was handed. -/
theorem budget_resume {s : Semaphore τ} (hnodup : (Waiters.tasks s.waiters).Nodup) {t : τ}
    (h : Waiters.wait s.waiters t = some .woken) : (s.resume t).budget + 1 = s.budget := by
  have hwoken := Waiters.woken_remove hnodup t
  rw [if_pos h] at hwoken
  rw [resume, budget_drain]
  simp only [budget]
  omega

theorem tasks_abandon (s : Semaphore τ) (t : τ) :
    Waiters.tasks (s.abandon t).waiters = (Waiters.tasks s.waiters).filter (· ≠ t) := by
  rw [abandon, tasks_drain, Waiters.tasks_remove]

theorem ok_abandon (s : Semaphore τ) (t : τ) : (s.abandon t).Ok :=
  ok_drain _

/-- A waiter that gives up puts the slot back that it was handed. -/
theorem budget_abandon {s : Semaphore τ} (hnodup : (Waiters.tasks s.waiters).Nodup) (t : τ) :
    (s.abandon t).budget = s.budget := by
  have hwoken := Waiters.woken_remove hnodup t
  rw [abandon, budget_drain]
  simp only [budget]
  split_ifs at hwoken ⊢ <;> omega

theorem ok_cancel {s : Semaphore τ} (h : s.Ok) (t : τ) : (s.cancel t).Ok := by
  rcases h with h | h | h
  · exact .inl h
  · refine .inr (.inl fun w hw => ?_)
    rcases Waiters.mem_cancel hw with hw | hw
    · exact h w hw
    · rw [hw]
      simp
  · exact .inr (.inr (by rwa [cancel, Waiters.woken_cancel]))

theorem budget_cancel (s : Semaphore τ) (t : τ) : (s.cancel t).budget = s.budget := by
  rw [budget, budget, cancel, Waiters.woken_cancel]

/-- Releasing adds a slot, free or handed over. -/
theorem release_spec (s : Semaphore τ) :
    Waiters.tasks s.release.waiters = Waiters.tasks s.waiters ∧
      s.release.budget = s.budget + 1 ∧ s.release.Ok := by
  cases hw : Semaphore.wakeUpNext { s with value := s.value + 1 } with
  | none =>
    have hrelease : s.release = { s with value := s.value + 1 } := by simp [release, hw]
    have hnone : Waiters.wakeNext s.waiters = none := by simpa [wakeUpNext] using hw
    rw [hrelease]
    refine ⟨rfl, ?_, .inr (.inl (Waiters.nonePending_of_wakeNext hnone))⟩
    simp only [budget]
    omega
  | some s' =>
    have hrelease : s.release = s' := by simp [release, hw]
    obtain ⟨htasks, hvalue, hwoken⟩ := wakeUpNext_eq_some hw
    rw [hrelease]
    refine ⟨htasks, ?_, .inr (.inr (by omega))⟩
    simp only [budget] at *
    omega

/-- With no future resolved or cancelled, a waiter means that no slot is free. -/
theorem Ok.budget_eq_zero {s : Semaphore τ} (h : s.Ok) (hall : ∀ w ∈ s.waiters, w.2 = .pending)
    (hne : s.waiters ≠ []) : s.budget = 0 := by
  obtain ⟨w, hw⟩ := List.exists_mem_of_ne_nil _ hne
  have hwoken : Waiters.woken s.waiters = 0 := by
    by_contra hpos
    obtain ⟨v, hv, hf⟩ := Waiters.woken_pos_iff.1 (by omega : 0 < Waiters.woken s.waiters)
    simp [hall v hv] at hf
  have hvalue : s.value = 0 := by
    rcases h with h | h | h
    · exact h
    · exact absurd (hall w hw) (h w hw)
    · omega
  unfold budget
  omega

end Semaphore

end Asyncio
