import Mathlib.Algebra.Order.Field.Rat
import Mathlib.Tactic.Linarith
import OxenClaw.Lib.Runs

/-!
# The runner of a channel

`ChannelRunner.run_forever` calls the channel's monitor again and again, and sleeps between two
calls. The backoff doubles from call to call up to its maximum, and begins anew behind a call that
went on for long. How long each sleep is follows from how long the calls before it went on
(`run_sleeps`), whatever comes back, raises, is stopped or cancelled, and at what times.
-/

namespace OxenClaw.Channels

/-- What a `ChannelRunner` is made with. The fields are what its constructor checks. -/
structure RunnerSettings where
  initialBackoff : ℚ := 1
  maxBackoff : ℚ := 60
  jitter : ℚ := 3 / 10
  maxRestarts : Option ℕ := none
  stableReset : ℚ := 60
  initial_pos : 0 < initialBackoff := by norm_num
  initial_le : initialBackoff ≤ maxBackoff := by norm_num
  jitter_nonneg : 0 ≤ jitter := by norm_num
  jitter_lt : jitter < 1 := by norm_num

/-- What `random.random` gives. -/
abbrev Draw := { u : ℚ // 0 ≤ u ∧ u < 1 }

/-- `random.uniform`. -/
def uniform (a b : ℚ) (u : Draw) : ℚ :=
  a + (b - a) * u.1

/-- How long a call of the monitor went on, and how long the sleep behind it is. -/
structure Sleep where
  ranFor : ℚ
  wait : ℚ

/-- Where `run_forever` is. -/
inductive RunnerPhase where
  | created
  | monitoring (startedAt : ℚ)
  | sleeping
  | ended

/-- A runner, with the sleeps it has begun and how often it has called the monitor. -/
structure ChannelRunner where
  phase : RunnerPhase := .created
  backoff : ℚ
  restartCount : ℕ := 0
  stopped : Bool := false
  gaveUp : Bool := false
  sleeps : List Sleep := []
  calls : ℕ := 0

inductive RunnerEvent where
  /-- `run_forever` is called. -/
  | start (now : ℚ)
  | monitorReturns (now : ℚ) (u : Draw)
  | monitorRaises (now : ℚ) (u : Draw)
  | slept (now : ℚ)
  | stop
  /-- The task is cancelled where it suspends. -/
  | cancel

namespace ChannelRunner

variable (c : RunnerSettings)

def new : ChannelRunner where
  backoff := c.initialBackoff

/-- The head of the loop. -/
def loop (r : ChannelRunner) (now : ℚ) : ChannelRunner :=
  if r.stopped then { r with phase := .ended }
  else { r with phase := .monitoring now, calls := r.calls + 1 }

/-- How long to sleep, before `max` with zero. -/
def jittered (backoff : ℚ) (u : Draw) : ℚ :=
  if c.jitter = 0 then backoff else backoff * (1 + uniform (-c.jitter) c.jitter u)

/-- `restart_count >= max_restarts`, where there is a maximum. -/
def exhausted (r : ChannelRunner) : Bool :=
  c.maxRestarts.any fun n => decide (n ≤ r.restartCount)

/-- The backoff begins anew behind a call that went on for long. -/
def resetBackoff (r : ChannelRunner) (ranFor : ℚ) : ℚ :=
  if c.stableReset ≤ ranFor then c.initialBackoff else r.backoff

/-- The body of the loop behind the monitor, up to the sleep. -/
def restart (r : ChannelRunner) (ranFor : ℚ) (u : Draw) : ChannelRunner :=
  let backoff := r.resetBackoff c ranFor
  if r.exhausted c then { r with phase := .ended, backoff, gaveUp := true }
  else
    { r with
      phase := .sleeping
      backoff
      sleeps := r.sleeps ++ [⟨ranFor, max 0 (jittered c backoff u)⟩] }

/-- The end of the loop's body, behind the sleep. -/
def countRestart (r : ChannelRunner) : ChannelRunner :=
  { r with
    restartCount := r.restartCount + 1
    backoff := min (r.backoff * 2) c.maxBackoff }

/-- One event. An event that does not belong to where the runner is changes nothing. -/
def step (r : ChannelRunner) : RunnerEvent → ChannelRunner
  | .start now =>
    match r.phase with
    | .created => r.loop now
    | _ => r
  | .monitorReturns now u =>
    match r.phase with
    | .monitoring startedAt =>
      if r.stopped then { r with phase := .ended } else r.restart c (now - startedAt) u
    | _ => r
  | .monitorRaises now u =>
    match r.phase with
    | .monitoring startedAt => r.restart c (now - startedAt) u
    | _ => r
  | .slept now =>
    match r.phase with
    | .sleeping => (r.countRestart c).loop now
    | _ => r
  | .stop => { r with stopped := true }
  | .cancel => { r with phase := .ended }

def run (events : List RunnerEvent) : ChannelRunner :=
  events.foldl (step c) (new c)

/-! ## The backoff -/

/-- The backoff after it was doubled so often. -/
def ladder (n : ℕ) : ℚ :=
  min (c.initialBackoff * 2 ^ n) c.maxBackoff

/-- How many of the last calls did not go on for long. -/
def streak (runs : List ℚ) : ℕ :=
  (runs.reverse.takeWhile fun ranFor => decide (ranFor < c.stableReset)).length

/-- How often the backoff was doubled behind the last call : once for each call of the streak, but
not for the first of all. -/
def doublings (runs : List ℚ) : ℕ :=
  min (streak c runs) (runs.length - 1)

/-- How often it is doubled when the next call is due. -/
def doublingsNext (runs : List ℚ) : ℕ :=
  min (streak c runs + 1) runs.length

variable {c} {r : ChannelRunner}

theorem streak_snoc (runs : List ℚ) (ranFor : ℚ) :
    streak c (runs ++ [ranFor]) = if c.stableReset ≤ ranFor then 0 else streak c runs + 1 := by
  rw [streak, List.reverse_append, List.reverse_singleton, List.singleton_append,
    List.takeWhile_cons]
  split_ifs with hran hstable hstable
  · exact absurd hstable (not_le.2 (of_decide_eq_true hran))
  · rfl
  · rfl
  · exact absurd (decide_eq_true (not_le.1 hstable)) hran

theorem doublings_snoc (runs : List ℚ) (ranFor : ℚ) :
    doublings c (runs ++ [ranFor]) = if c.stableReset ≤ ranFor then 0
      else doublingsNext c runs := by
  rw [doublings, doublingsNext, streak_snoc, List.length_append, List.length_singleton]
  split_ifs
  · exact Nat.zero_min _
  · rfl

theorem doublingsNext_of_ne_nil {runs : List ℚ} (h : runs ≠ []) :
    doublingsNext c runs = doublings c runs + 1 := by
  have hpos := List.length_pos_iff.2 h
  rw [doublingsNext, doublings]
  omega

theorem ladder_zero : ladder c 0 = c.initialBackoff := by
  rw [ladder, pow_zero, mul_one, min_eq_left c.initial_le]

/-- Doubling a step of the ladder, up to the maximum, is the next step. -/
theorem ladder_succ (n : ℕ) : ladder c (n + 1) = min (ladder c n * 2) c.maxBackoff := by
  have hmax : 0 < c.maxBackoff := c.initial_pos.trans_le c.initial_le
  rw [ladder, ladder, pow_succ, ← mul_assoc, min_mul_of_nonneg _ _ zero_le_two, min_assoc,
    min_eq_right (by linarith : c.maxBackoff ≤ c.maxBackoff * 2)]

theorem ladder_pos (n : ℕ) : 0 < ladder c n :=
  lt_min (mul_pos c.initial_pos (pow_pos two_pos n)) (c.initial_pos.trans_le c.initial_le)

/-- The jitter takes from the backoff, or adds to it, at most its share. -/
theorem jittered_mem {backoff : ℚ} (hpos : 0 < backoff) (u : Draw) :
    backoff * (1 - c.jitter) ≤ jittered c backoff u ∧
      jittered c backoff u ≤ backoff * (1 + c.jitter) := by
  obtain ⟨u, hu, hu'⟩ := u
  have hj := c.jitter_nonneg
  rw [jittered]
  split_ifs with hzero
  · rw [hzero, sub_zero, add_zero, mul_one]
    exact ⟨le_refl _, le_refl _⟩
  · have hspread : 0 ≤ c.jitter * u := mul_nonneg hj hu
    have hspread' : c.jitter * u ≤ c.jitter := mul_le_of_le_one_right hj hu'.le
    have hlow : -c.jitter ≤ uniform (-c.jitter) c.jitter ⟨u, hu, hu'⟩ := by
      rw [uniform]
      linarith
    have hhigh : uniform (-c.jitter) c.jitter ⟨u, hu, hu'⟩ ≤ c.jitter := by
      rw [uniform]
      linarith
    exact ⟨mul_le_mul_of_nonneg_left (by linarith) hpos.le,
      mul_le_mul_of_nonneg_left (by linarith) hpos.le⟩

/-- The sleep behind calls that went on for so long is as long as the ladder says. -/
def Fits (c : RunnerSettings) (runs : List ℚ) (wait : ℚ) : Prop :=
  0 < wait ∧ ladder c (doublings c runs) * (1 - c.jitter) ≤ wait ∧
    wait ≤ ladder c (doublings c runs) * (1 + c.jitter)

theorem fits_jittered (runs : List ℚ) (u : Draw) :
    Fits c runs (max 0 (jittered c (ladder c (doublings c runs)) u)) := by
  have hpos := ladder_pos (c := c) (doublings c runs)
  obtain ⟨hlow, hhigh⟩ := jittered_mem (c := c) hpos u
  have hwait : 0 < jittered c (ladder c (doublings c runs)) u :=
    (mul_pos hpos (sub_pos.2 c.jitter_lt)).trans_le hlow
  rw [max_eq_right hwait.le]
  exact ⟨hwait, hlow, hhigh⟩

/-- How long the calls went on that a sleep followed. -/
def runs (r : ChannelRunner) : List ℚ :=
  r.sleeps.map Sleep.ranFor

/-! ## Every event -/

/-- How often the monitor was called, and what the backoff is, where the runner is. -/
def At (c : RunnerSettings) (r : ChannelRunner) : RunnerPhase → Prop
  | .created => r.sleeps = [] ∧ r.restartCount = 0 ∧ r.calls = 0 ∧ r.backoff = c.initialBackoff
  | .monitoring _ => r.restartCount = r.sleeps.length ∧ r.calls = r.sleeps.length + 1 ∧
      r.backoff = ladder c (doublingsNext c r.runs)
  | .sleeping => r.restartCount + 1 = r.sleeps.length ∧ r.calls = r.sleeps.length ∧
      r.backoff = ladder c (doublings c r.runs)
  | .ended => r.sleeps.length ≤ r.calls ∧ r.calls ≤ r.sleeps.length + 1

structure Ok (c : RunnerSettings) (r : ChannelRunner) : Prop where
  here : At c r r.phase
  fits : ∀ before s after, r.sleeps = before ++ s :: after →
    Fits c ((before ++ [s]).map Sleep.ranFor) s.wait
  few : ∀ n, c.maxRestarts = some n → r.sleeps.length ≤ n
  gaveUp : r.gaveUp = true →
    c.maxRestarts = some r.sleeps.length ∧ r.calls = r.sleeps.length + 1 ∧ r.phase = .ended

theorem Ok.not_gaveUp (h : Ok c r) (hphase : r.phase ≠ .ended) : r.gaveUp = false := by
  by_contra hgave
  exact hphase (h.gaveUp (Bool.not_eq_false _ ▸ hgave)).2.2

theorem Ok.calls_le (h : Ok c r) : r.sleeps.length ≤ r.calls ∧ r.calls ≤ r.sleeps.length + 1 := by
  have hhere := h.here
  rcases hphase : r.phase with _ | startedAt | _ | _
  · rw [hphase] at hhere
    obtain ⟨hsleeps, -, hcalls, -⟩ := hhere
    rw [hsleeps, hcalls]
    exact ⟨Nat.le_refl 0, Nat.zero_le 1⟩
  · rw [hphase] at hhere
    obtain ⟨-, hcalls, -⟩ := hhere
    omega
  · rw [hphase] at hhere
    obtain ⟨-, hcalls, -⟩ := hhere
    omega
  · rw [hphase] at hhere
    exact hhere

theorem Ok.end (h : Ok c r) : Ok c { r with phase := .ended } where
  here := h.calls_le
  fits := h.fits
  few := h.few
  gaveUp hgave := ⟨(h.gaveUp hgave).1, (h.gaveUp hgave).2.1, rfl⟩

/-- A runner that goes on to the head of the loop, its backoff the one that is due. -/
theorem Ok.loop (h : Ok c r) {q : ChannelRunner} (hsleeps : q.sleeps = r.sleeps)
    (hcount : q.restartCount = q.sleeps.length) (hcalls : q.calls = q.sleeps.length)
    (hbackoff : q.backoff = ladder c (doublingsNext c q.runs)) (hgave : q.gaveUp = false)
    (now : ℚ) : Ok c (q.loop now) := by
  have hfits := h.fits
  have hfew := h.few
  rw [← hsleeps] at hfits hfew
  rw [ChannelRunner.loop]
  split_ifs
  · exact ⟨⟨hcalls.ge, hcalls.le.trans (Nat.le_succ _)⟩, hfits, hfew, fun hg =>
      absurd (hgave.symm.trans hg) Bool.false_ne_true⟩
  · exact ⟨⟨hcount, congrArg (· + 1) hcalls, hbackoff⟩, hfits, hfew, fun hg =>
      absurd (hgave.symm.trans hg) Bool.false_ne_true⟩

theorem exhausted_iff :
    r.exhausted c = true ↔ ∃ n, c.maxRestarts = some n ∧ n ≤ r.restartCount := by
  rw [exhausted]
  rcases c.maxRestarts with _ | n
  · simp
  · simp

theorem Ok.restart (h : Ok c r) {startedAt : ℚ} (hphase : r.phase = .monitoring startedAt)
    (ranFor : ℚ) (u : Draw) : Ok c (r.restart c ranFor u) := by
  have hhere := h.here
  rw [hphase] at hhere
  obtain ⟨hcount, hcalls, hbackoff⟩ := hhere
  have hgave : r.gaveUp = false := h.not_gaveUp (by rw [hphase]; exact RunnerPhase.noConfusion)
  have hdue : r.resetBackoff c ranFor = ladder c (doublings c (r.runs ++ [ranFor])) := by
    rw [resetBackoff, doublings_snoc]
    split_ifs
    · exact ladder_zero.symm
    · exact hbackoff
  by_cases hexhausted : r.exhausted c = true
  · obtain ⟨n, hn, hle⟩ := exhausted_iff.1 hexhausted
    have heq : n = r.sleeps.length := Nat.le_antisymm (hle.trans_eq hcount) (h.few n hn)
    rw [ChannelRunner.restart, if_pos hexhausted]
    exact ⟨⟨(Nat.le_succ _).trans hcalls.ge, hcalls.le⟩, h.fits, h.few, fun _ =>
      ⟨heq ▸ hn, hcalls, rfl⟩⟩
  · rw [ChannelRunner.restart, if_neg hexhausted]
    refine ⟨⟨?_, ?_, ?_⟩, fun before s after hsplit => ?_, fun n hn => ?_, fun hg =>
      absurd (hgave.symm.trans hg) Bool.false_ne_true⟩
    · simpa using hcount
    · simpa using hcalls
    · rw [runs, List.map_append]
      exact hdue
    · rcases List.eq_nil_or_concat' after with rfl | ⟨after', last, rfl⟩
      · obtain ⟨rfl, hlast⟩ := List.append_inj' hsplit rfl
        obtain rfl := List.singleton_inj.1 hlast
        rw [List.map_append, hdue]
        exact fits_jittered (r.runs ++ [ranFor]) u
      · have hsplit' : r.sleeps ++ [⟨ranFor, max 0 (jittered c (r.resetBackoff c ranFor) u)⟩] =
            (before ++ s :: after') ++ [last] := by
          rw [List.append_assoc, List.cons_append]
          exact hsplit
        exact h.fits before s after' (List.append_inj' hsplit' rfl).1
    · have hroom : r.restartCount < n := by
        by_contra hfull
        exact hexhausted (exhausted_iff.2 ⟨n, hn, not_lt.1 hfull⟩)
      rw [List.length_append, List.length_singleton]
      omega

theorem Ok.start (h : Ok c r) (hphase : r.phase = .created) (now : ℚ) : Ok c (r.loop now) := by
  have hhere := h.here
  rw [hphase] at hhere
  obtain ⟨hsleeps, hcount, hcalls, hbackoff⟩ := hhere
  refine h.loop rfl ?_ ?_ ?_ (h.not_gaveUp (by rw [hphase]; exact RunnerPhase.noConfusion)) now
  · rw [hsleeps, hcount, List.length_nil]
  · rw [hsleeps, hcalls, List.length_nil]
  · rw [runs, hsleeps, hbackoff]
    exact ladder_zero.symm

theorem Ok.slept (h : Ok c r) (hphase : r.phase = .sleeping) (now : ℚ) :
    Ok c ((r.countRestart c).loop now) := by
  have hhere := h.here
  rw [hphase] at hhere
  obtain ⟨hcount, hcalls, hbackoff⟩ := hhere
  have hgave : r.gaveUp = false := h.not_gaveUp (by rw [hphase]; exact RunnerPhase.noConfusion)
  have hne : r.runs ≠ [] := by
    rw [runs, Ne, List.map_eq_nil_iff, ← List.length_eq_zero_iff]
    omega
  have hdue : min (r.backoff * 2) c.maxBackoff = ladder c (doublingsNext c r.runs) := by
    rw [doublingsNext_of_ne_nil hne, ladder_succ, hbackoff]
  exact h.loop (q := r.countRestart c) rfl hcount hcalls hdue hgave now

theorem Ok.step (h : Ok c r) (event : RunnerEvent) : Ok c (r.step c event) := by
  rcases event with now | ⟨now, u⟩ | ⟨now, u⟩ | now | _ | _
  · rw [ChannelRunner.step]
    split
    · next hphase => exact h.start hphase now
    · exact h
  · rw [ChannelRunner.step]
    split
    · next startedAt hphase =>
      split_ifs
      · exact h.end
      · exact h.restart hphase (now - startedAt) u
    · exact h
  · rw [ChannelRunner.step]
    split
    · next startedAt hphase => exact h.restart hphase (now - startedAt) u
    · exact h
  · rw [ChannelRunner.step]
    split
    · next hphase => exact h.slept hphase now
    · exact h
  · exact ⟨h.here, h.fits, h.few, h.gaveUp⟩
  · exact h.end

/-- A runner that was told to stop does not call the monitor again. -/
theorem calls_step_of_stopped (hstopped : r.stopped = true) (event : RunnerEvent) :
    (r.step c event).stopped = true ∧ (r.step c event).calls = r.calls := by
  have hloop (q : ChannelRunner) (hstopped' : q.stopped = true) (now : ℚ) :
      (q.loop now).stopped = true ∧ (q.loop now).calls = q.calls := by
    rw [ChannelRunner.loop, if_pos hstopped']
    exact ⟨hstopped', rfl⟩
  have hrestart (ranFor : ℚ) (u : Draw) : (r.restart c ranFor u).stopped = true ∧
      (r.restart c ranFor u).calls = r.calls := by
    rw [ChannelRunner.restart]
    split_ifs
    · exact ⟨hstopped, rfl⟩
    · exact ⟨hstopped, rfl⟩
  rcases event with now | ⟨now, u⟩ | ⟨now, u⟩ | now | _ | _
  · rw [ChannelRunner.step]
    split
    · exact hloop r hstopped now
    · exact ⟨hstopped, rfl⟩
  · rw [ChannelRunner.step]
    split
    · rw [if_pos hstopped]
      exact ⟨hstopped, rfl⟩
    · exact ⟨hstopped, rfl⟩
  · rw [ChannelRunner.step]
    split
    · exact hrestart _ u
    · exact ⟨hstopped, rfl⟩
  · rw [ChannelRunner.step]
    split
    · exact hloop (r.countRestart c) hstopped now
    · exact ⟨hstopped, rfl⟩
  · exact ⟨rfl, rfl⟩
  · exact ⟨hstopped, rfl⟩

theorem calls_run_stop (before later : List RunnerEvent) :
    (run c (before ++ .stop :: later)).calls = (run c before).calls := by
  have hstop : ((run c before).step c .stop).stopped = true ∧
      ((run c before).step c .stop).calls = (run c before).calls := ⟨rfl, rfl⟩
  have hstays : ∀ (q : ChannelRunner) (event : RunnerEvent),
      q.stopped = true ∧ q.calls = (run c before).calls →
        (q.step c event).stopped = true ∧ (q.step c event).calls = (run c before).calls := by
    rintro q event ⟨hstopped, hcalls⟩
    obtain ⟨hstopped', hcalls'⟩ := calls_step_of_stopped (c := c) hstopped event
    exact ⟨hstopped', hcalls'.trans hcalls⟩
  rw [run, List.foldl_append, List.foldl_cons]
  exact (foldl_invariant hstays hstop later).2

/-- Whenever the monitor returns or raises, and the runner is stopped or cancelled, each sleep is as
long as the backoff that was doubled for each of the last calls that did not go on for long, give or
take the jitter; between two calls of the monitor there is one sleep; the monitor is restarted no
more often than allowed, and the runner gives up when it is to be restarted once more; and it is
not called again after `stop`. -/
theorem run_sleeps (c : RunnerSettings) (events : List RunnerEvent) :
    (∀ before s after, (run c events).sleeps = before ++ s :: after →
      Fits c ((before ++ [s]).map Sleep.ranFor) s.wait) ∧
    (run c events).sleeps.length ≤ (run c events).calls ∧
    (run c events).calls ≤ (run c events).sleeps.length + 1 ∧
    (∀ n, c.maxRestarts = some n → (run c events).sleeps.length ≤ n) ∧
    ((run c events).gaveUp = true → c.maxRestarts = some (run c events).sleeps.length ∧
      (run c events).calls = (run c events).sleeps.length + 1) ∧
    ∀ later, (run c (events ++ .stop :: later)).calls = (run c events).calls := by
  have hnew : Ok c (new c) := by
    refine ⟨⟨rfl, rfl, rfl, rfl⟩, fun before s after hsplit => ?_, fun n _ => Nat.zero_le n,
      fun hg => absurd hg Bool.false_ne_true⟩
    exact absurd hsplit.symm (List.append_ne_nil_of_right_ne_nil _ (List.cons_ne_nil _ _))
  have hok : Ok c (run c events) := foldl_invariant (fun _ event h => h.step event) hnew events
  exact ⟨hok.fits, hok.calls_le.1, hok.calls_le.2, hok.few, fun hgave =>
    ⟨(hok.gaveUp hgave).1, (hok.gaveUp hgave).2.1⟩, calls_run_stop events⟩

end ChannelRunner

end OxenClaw.Channels
