import Mathlib.Algebra.Order.Ring.Rat
import OxenClaw.Lib.Dict
import OxenClaw.Lib.Python
import OxenClaw.Lib.Runs

/-!
# The reconnect watcher

`ChannelRouter` keeps what failed of each channel, and a watcher retries the channels that are due :
it takes down which are, and probes one after the other, while others report failures and
recoveries. What is kept of a channel is what was reported of it since it last recovered, so the
watcher retries it no more than twenty times, waits as the ladder says, and does not retry it after
an error of its credentials (`watch_spec`).
-/

namespace OxenClaw.Channels

/-- A channel id and an account id. -/
abbrev Key := String × String

/-- `_RECONNECT_BACKOFF_S`. -/
def reconnectBackoffS : List ℕ := [30, 60, 120, 240, 300]

/-- `_MAX_RECONNECT_ATTEMPTS`. -/
def maxReconnectAttempts : ℕ := 20

/-- `is_auth_error`, with `str.lower`. -/
def isAuthError (lower : String → String) (message : String) : Bool :=
  message ≠ "" && ["401", "unauthor", "forbidden", "403"].any fun token =>
    Py.contains token (lower message)

/-- `FailedChannelState`. -/
structure FailedChannelState where
  attempts : ℕ := 0
  nextRetry : ℚ := 0
  lastError : String := ""
  authError : Bool := false
  lastAttempt : ℚ := 0

/-- How long to wait after so many attempts. -/
def backoff (attempts : ℕ) : ℕ :=
  reconnectBackoffS.getD (min (attempts - 1) (reconnectBackoffS.length - 1)) 0

/-- The channels that have failed, and those the pass of the watcher that is under way has still to
probe. -/
structure ChannelRouter where
  failedChannels : Dict Key FailedChannelState := []
  due : List Key := []

/-- What a probe comes back with. -/
inductive ProbeResult where
  | ok
  | failed (error : Option String)
  | raised (error : String)

/-- The state of a channel that fails once more. -/
def FailedChannelState.fail (lower : String → String) (state : FailedChannelState) (error : String)
    (now : ℚ) : FailedChannelState :=
  let attempts := state.attempts + 1
  if isAuthError lower error then
    { attempts, nextRetry := 0, lastError := error, authError := true, lastAttempt := now }
  else
    { attempts, nextRetry := now + backoff attempts, lastError := error
      authError := state.authError, lastAttempt := now }

namespace ChannelRouter

/-- `mark_failed`. -/
def markFailed (lower : String → String) (r : ChannelRouter) (key : Key) (error : String)
    (now : ℚ) : ChannelRouter :=
  let state := (r.failedChannels.get? key).getD {}
  { r with failedChannels := r.failedChannels.set key (state.fail lower error now) }

/-- `mark_recovered`. -/
def markRecovered (r : ChannelRouter) (key : Key) : ChannelRouter :=
  { r with failedChannels := r.failedChannels.erase key }

/-- A channel is retried in a pass that begins now. -/
def isDue (now : ℚ) (state : FailedChannelState) : Bool :=
  !state.authError && decide (state.attempts < maxReconnectAttempts) &&
    decide (state.nextRetry ≤ now)

/-- The channels that `_tick_reconnect_watcher` takes down. -/
def dueAt (r : ChannelRouter) (now : ℚ) : List Key :=
  Dict.keys (r.failedChannels.filter fun e => isDue now e.2)

/-- What happens to the router. There is one watcher, and a pass begins when none is under way. -/
inductive Event where
  | markFailed (key : Key) (error : String) (now : ℚ)
  | markRecovered (key : Key)
  | tick (now : ℚ)
  /-- The probe of the first channel that is due comes back. -/
  | probed (result : ProbeResult) (now : ℚ)
  /-- `stop_reconnect_watcher`. -/
  | stop

def step (lower : String → String) (r : ChannelRouter) : Event → ChannelRouter
  | .markFailed key error now => r.markFailed lower key error now
  | .markRecovered key => r.markRecovered key
  | .tick now => if r.due = [] then { r with due := r.dueAt now } else r
  | .probed result now =>
    match r.due with
    | [] => r
    | key :: due =>
      let r := { r with due }
      match result with
      | .ok => r.markRecovered key
      | .failed error => r.markFailed lower key (error.getD "") now
      | .raised error => r.markFailed lower key error now
  | .stop => { r with due := [] }

end ChannelRouter

open ChannelRouter (Event)

/-! ## What is reported -/

/-- A failure of a channel. -/
structure Failure where
  error : String
  now : ℚ
  /-- The watcher has found it. -/
  retry : Bool

/-- What is reported of a channel : a failure, or that it has recovered. -/
abbrev Report := Key × Option Failure

/-- What an event reports. -/
def ChannelRouter.report (r : ChannelRouter) : Event → Option Report
  | .markFailed key error now => some (key, some ⟨error, now, false⟩)
  | .markRecovered key => some (key, none)
  | .probed result now => r.due.head?.map fun key =>
    match result with
    | .ok => (key, none)
    | .failed error => (key, some ⟨error.getD "", now, true⟩)
    | .raised error => (key, some ⟨error, now, true⟩)
  | _ => none

/-- The failures of a channel since it last recovered, the last one first, where `reports` are given
so. -/
def failures (key : Key) : List Report → List Failure
  | [] => []
  | (key', report) :: reports =>
    if key' = key then
      match report with
      | some failure => failure :: failures key reports
      | none => []
    else failures key reports

/-- How often the watcher has retried a channel in vain since it last recovered. -/
def retries (key : Key) (reports : List Report) : ℕ :=
  (failures key reports).countP Failure.retry

/-- The state of a channel with these failures. -/
def summary (lower : String → String) : List Failure → Option FailedChannelState
  | [] => none
  | f :: fs => some {
      attempts := fs.length + 1
      nextRetry := if isAuthError lower f.error then 0 else f.now + backoff (fs.length + 1)
      lastError := f.error
      authError := (f :: fs).any fun f => isAuthError lower f.error
      lastAttempt := f.now }

/-- A router, and what was reported, the last first. -/
structure Watch where
  router : ChannelRouter := {}
  reports : List Report := []

def Watch.step (lower : String → String) (w : Watch) (e : Event) : Watch :=
  { router := w.router.step lower e, reports := (w.router.report e).toList ++ w.reports }

/-- A run from the start of the router. -/
def watch (lower : String → String) (events : List Event) : Watch :=
  events.foldl (Watch.step lower) {}

variable {lower : String → String} {w : Watch} {key : Key}

theorem summary_cons (f : Failure) (fs : List Failure) :
    summary lower (f :: fs) = some (((summary lower fs).getD {}).fail lower f.error f.now) := by
  by_cases hauth : isAuthError lower f.error
  · rcases fs with _ | ⟨g, fs⟩
    · simp [summary, FailedChannelState.fail, hauth]
    · simp [summary, FailedChannelState.fail, hauth]
  · rcases fs with _ | ⟨g, fs⟩
    · simp [summary, FailedChannelState.fail, hauth]
    · simp [summary, FailedChannelState.fail, hauth]

/-- What is kept is what was reported. -/
def Agrees (lower : String → String) (failed : Dict Key FailedChannelState)
    (reports : List Report) : Prop :=
  (Dict.keys failed).Nodup ∧ ∀ key, failed.get? key = summary lower (failures key reports)

theorem Agrees.fail {r : ChannelRouter} {reports : List Report}
    (h : Agrees lower r.failedChannels reports) (key : Key) (f : Failure) :
    Agrees lower (r.markFailed lower key f.error f.now).failedChannels
      ((key, some f) :: reports) := by
  refine ⟨Dict.nodup_keys_set h.1 _ _, fun key' => ?_⟩
  rw [ChannelRouter.markFailed, Dict.get?_set, failures]
  by_cases heq : key' = key
  · subst heq
    rw [if_pos rfl, if_pos rfl, summary_cons, h.2]
  · rw [if_neg heq, if_neg (Ne.symm heq), h.2]

theorem Agrees.recover {r : ChannelRouter} {reports : List Report}
    (h : Agrees lower r.failedChannels reports) (key : Key) :
    Agrees lower (r.markRecovered key).failedChannels ((key, none) :: reports) := by
  refine ⟨Dict.nodup_keys_erase h.1 _, fun key' => ?_⟩
  rw [ChannelRouter.markRecovered, failures]
  by_cases heq : key' = key
  · subst heq
    rw [if_pos rfl]
    exact Dict.get?_erase_self _ _
  · rw [if_neg (Ne.symm heq), Dict.get?_erase_of_ne heq, h.2]

/-! ## How often a channel is retried -/

theorem retries_of_ne {key' : Key} (h : key' ≠ key) (report : Option Failure)
    (reports : List Report) : retries key ((key', report) :: reports) = retries key reports := by
  rcases report with _ | f
  · rw [retries, failures, if_neg h, retries]
  · rw [retries, failures, if_neg h, retries]

theorem retries_recovered (key : Key) (reports : List Report) :
    retries key ((key, none) :: reports) = 0 := by
  rw [retries, failures, if_pos rfl]
  rfl

theorem retries_failed (key : Key) (f : Failure) (reports : List Report) :
    retries key ((key, some f) :: reports) = retries key reports + f.retry.toNat := by
  rw [retries, failures, if_pos rfl, List.countP_cons, retries]
  rcases f.retry with _ | _
  · rfl
  · rfl

/-- A report that is no retry makes no channel be retried more. -/
theorem retries_le_of_report {report : Option Failure} (h : ∀ f ∈ report, f.retry = false)
    (key key' : Key) (reports : List Report) :
    retries key ((key', report) :: reports) ≤ retries key reports := by
  by_cases heq : key' = key
  · subst heq
    rcases report with _ | f
    · rw [retries_recovered]
      exact Nat.zero_le _
    · rw [retries_failed, h f rfl]
      exact le_rfl
  · rw [retries_of_ne heq]

/-- The watcher has retried no channel too often, and those it still has to probe less than that. -/
structure Ok (lower : String → String) (w : Watch) : Prop where
  agrees : Agrees lower w.router.failedChannels w.reports
  nodup : w.router.due.Nodup
  lt_of_due : ∀ key ∈ w.router.due, retries key w.reports < maxReconnectAttempts
  le : ∀ key, retries key w.reports ≤ maxReconnectAttempts

/-- The state of a channel with failures. -/
theorem summary_eq_some {fs : List Failure} {state : FailedChannelState}
    (h : summary lower fs = some state) :
    state.attempts = fs.length ∧ state.authError = fs.any (fun f => isAuthError lower f.error) := by
  rcases fs with _ | ⟨f, fs⟩
  · cases h
  · obtain rfl := Option.some.inj h
    exact ⟨rfl, rfl⟩

theorem mem_dueAt_iff (h : Agrees lower w.router.failedChannels w.reports) (now : ℚ) :
    key ∈ w.router.dueAt now ↔
      ∃ state, summary lower (failures key w.reports) = some state ∧
        ChannelRouter.isDue now state = true := by
  rw [← h.2, ChannelRouter.dueAt, Dict.keys, List.mem_map]
  constructor
  · rintro ⟨⟨key', state⟩, hmem, rfl⟩
    obtain ⟨hentry, hdue⟩ := List.mem_filter.1 hmem
    exact ⟨state, Dict.get?_of_mem h.1 hentry, hdue⟩
  · rintro ⟨state, hstate, hdue⟩
    exact ⟨(key, state), List.mem_filter.2 ⟨Dict.mem_of_get? hstate, hdue⟩, rfl⟩

theorem retries_lt_of_mem_dueAt (h : Agrees lower w.router.failedChannels w.reports) {now : ℚ}
    (hmem : key ∈ w.router.dueAt now) : retries key w.reports < maxReconnectAttempts := by
  obtain ⟨state, hstate, hdue⟩ := (mem_dueAt_iff h now).1 hmem
  rw [ChannelRouter.isDue, Bool.and_eq_true, Bool.and_eq_true, decide_eq_true_iff] at hdue
  refine (List.countP_le_length.trans_eq ?_).trans_lt hdue.1.2
  exact (summary_eq_some hstate).1.symm

/-- A channel that the watcher has probed is no longer due, and the others are. -/
theorem Ok.after {due : List Key} (h : Ok lower w) (hdue : w.router.due = key :: due)
    {failed : Dict Key FailedChannelState} {report : Option Failure}
    (hagrees : Agrees lower failed ((key, report) :: w.reports)) :
    Ok lower ⟨⟨failed, due⟩, (key, report) :: w.reports⟩ := by
  have hnodup := h.nodup
  rw [hdue] at hnodup
  obtain ⟨hnotMem, hrest⟩ := List.nodup_cons.1 hnodup
  have hkey := h.lt_of_due key (hdue ▸ List.mem_cons_self)
  refine ⟨hagrees, hrest, fun key' hkey' => ?_, fun key' => ?_⟩
  · have hne : key ≠ key' := by
      rintro rfl
      exact hnotMem hkey'
    rw [retries_of_ne hne]
    exact h.lt_of_due key' (hdue ▸ List.mem_cons_of_mem _ hkey')
  · by_cases heq : key = key'
    · subst heq
      rcases report with _ | f
      · rw [retries_recovered]
        exact Nat.zero_le _
      · rw [retries_failed]
        have := Bool.toNat_le f.retry
        omega
    · rw [retries_of_ne heq]
      exact h.le key'

theorem Ok.probed (h : Ok lower w) (result : ProbeResult) (now : ℚ) :
    Ok lower (w.step lower (.probed result now)) := by
  rcases hdue : w.router.due with _ | ⟨key, due⟩
  · have hstep : w.step lower (.probed result now) = w := by
      rw [Watch.step, ChannelRouter.step, ChannelRouter.report, hdue]
      rfl
    rw [hstep]
    exact h
  · have hfail := h.agrees.fail key
    have hstep : w.step lower (.probed result now) =
        match result with
        | .ok => ⟨({ w.router with due }).markRecovered key, (key, none) :: w.reports⟩
        | .failed error => ⟨({ w.router with due }).markFailed lower key (error.getD "") now,
            (key, some ⟨error.getD "", now, true⟩) :: w.reports⟩
        | .raised error => ⟨({ w.router with due }).markFailed lower key error now,
            (key, some ⟨error, now, true⟩) :: w.reports⟩ := by
      rw [Watch.step, ChannelRouter.step, ChannelRouter.report, hdue]
      rcases result with _ | error | error
      · rfl
      · rfl
      · rfl
    rw [hstep]
    rcases result with _ | error | error
    · exact h.after hdue (h.agrees.recover key)
    · exact h.after hdue (hfail ⟨error.getD "", now, true⟩)
    · exact h.after hdue (hfail ⟨error, now, true⟩)

theorem Ok.step (h : Ok lower w) (e : Event) : Ok lower (w.step lower e) := by
  rcases e with ⟨key, error, now⟩ | key | now | ⟨result, now⟩ | _
  · have hmark : ∀ f ∈ some (Failure.mk error now false), f.retry = false := by
      rintro f ⟨⟩
      rfl
    have hle (key') := retries_le_of_report hmark key' key w.reports
    exact ⟨h.agrees.fail key ⟨error, now, false⟩, h.nodup,
      fun key' hkey' => (hle key').trans_lt (h.lt_of_due key' hkey'),
      fun key' => (hle key').trans (h.le key')⟩
  · have hmark : ∀ f ∈ (none : Option Failure), f.retry = false := nofun
    have hle (key') := retries_le_of_report hmark key' key w.reports
    exact ⟨h.agrees.recover key, h.nodup,
      fun key' hkey' => (hle key').trans_lt (h.lt_of_due key' hkey'),
      fun key' => (hle key').trans (h.le key')⟩
  · have hsame : (w.step lower (.tick now)).reports = w.reports := rfl
    by_cases hidle : w.router.due = []
    · have hstep : (w.step lower (.tick now)).router =
          { w.router with due := w.router.dueAt now } := if_pos hidle
      refine ⟨?_, ?_, fun key' hkey' => ?_, h.le⟩
      · rw [hstep]
        exact h.agrees
      · rw [hstep]
        exact (List.filter_sublist.map Prod.fst).nodup h.agrees.1
      · rw [hstep] at hkey'
        exact retries_lt_of_mem_dueAt (w := w) h.agrees hkey'
    · have hstep : (w.step lower (.tick now)).router = w.router := if_neg hidle
      refine ⟨?_, ?_, fun key' hkey' => ?_, h.le⟩
      · rw [hstep]
        exact h.agrees
      · rw [hstep]
        exact h.nodup
      · rw [hstep] at hkey'
        exact h.lt_of_due key' hkey'
  · exact h.probed result now
  · exact ⟨h.agrees, List.nodup_nil, nofun, h.le⟩

/-- In every order in which failures, recoveries, passes and their probes follow one another, the
watcher has retried a channel in vain at most twenty times since it last recovered. It takes a
channel down exactly if that has failed since it last recovered, fewer than twenty times and never
with an error of its credentials, and the wait for so many failures is over. -/
theorem watch_spec (lower : String → String) (events : List Event) (key : Key) :
    retries key (watch lower events).reports ≤ maxReconnectAttempts ∧
    (watch lower events).router.failedChannels.get? key =
      summary lower (failures key (watch lower events).reports) ∧
    ∀ now, key ∈ (watch lower events).router.dueAt now ↔
      ∃ f fs, failures key (watch lower events).reports = f :: fs ∧
        fs.length + 1 < maxReconnectAttempts ∧ (∀ g ∈ f :: fs, isAuthError lower g.error = false) ∧
        f.now + backoff (fs.length + 1) ≤ now := by
  have hok : Ok lower (watch lower events) :=
    foldl_invariant (fun _ e h => h.step e)
      ⟨⟨List.nodup_nil, fun _ => rfl⟩, List.nodup_nil, nofun, fun _ => Nat.zero_le _⟩ events
  refine ⟨hok.le key, hok.agrees.2 key, fun now => (mem_dueAt_iff hok.agrees now).trans ?_⟩
  rcases failures key (watch lower events).reports with _ | ⟨f, fs⟩
  · constructor
    · rintro ⟨state, hstate, -⟩
      cases hstate
    · rintro ⟨f, fs, hcons, -⟩
      cases hcons
  · have hauth : (f :: fs).any (fun g => isAuthError lower g.error) = false ↔
        ∀ g ∈ f :: fs, isAuthError lower g.error = false := by
      rw [List.any_eq_false]
      exact forall₂_congr fun g _ => Iff.of_eq (Bool.not_eq_true _)
    constructor
    · rintro ⟨state, hstate, hdue⟩
      obtain rfl := Option.some.inj hstate
      rw [ChannelRouter.isDue, Bool.and_eq_true, Bool.and_eq_true, Bool.not_eq_true',
        decide_eq_true_iff, decide_eq_true_iff] at hdue
      obtain ⟨⟨hnone, hlt⟩, hle⟩ := hdue
      have hall := hauth.1 hnone
      dsimp only at hle
      rw [if_neg (Bool.eq_false_iff.1 (hall f List.mem_cons_self))] at hle
      exact ⟨f, fs, rfl, hlt, hall, hle⟩
    · rintro ⟨f', fs', hcons, hlt, hall, hle⟩
      obtain ⟨rfl, rfl⟩ := List.cons.inj hcons
      refine ⟨_, rfl, ?_⟩
      rw [ChannelRouter.isDue, Bool.and_eq_true, Bool.and_eq_true, Bool.not_eq_true',
        decide_eq_true_iff, decide_eq_true_iff]
      dsimp only
      rw [if_neg (Bool.eq_false_iff.1 (hall f List.mem_cons_self))]
      exact ⟨⟨hauth.2 hall, hlt⟩, hle⟩

end OxenClaw.Channels
