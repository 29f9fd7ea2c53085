import OxenClaw.Pi.Run.Loop

/-!
# The run loop makes finitely many model calls

`potential` counts the model calls a state can still lead to : the iterations left, each
with its retries and silent retries, and the failover steps left. A failover step uses
neither retry counter, but it moves the cursor down the chain or uses up a cycle
(`failoverLeft_lt`). Every model call lowers the potential (`attemptStep_lowers`), so every
turn ends after at most `attemptBound` calls (`runAgentTurn_bounded`).
-/

namespace OxenClaw.Run

open OxenClaw

/-- The failover steps left : positions down the chain, and a chain for each cycle. -/
def failoverLeft (n cyclesUsed cursor : ℕ) : ℕ :=
  (n - cyclesUsed) * n + (n - 1 - cursor)

/-- Every step of `resolve_next_model` uses up at least one. -/
theorem failoverLeft_lt {n cyclesUsed cursor idx : ℕ} (hidx : idx < n)
    (h : cursor < idx ∨ cyclesUsed < n ∧ idx < cursor) :
    failoverLeft n (if idx < cursor then cyclesUsed + 1 else cyclesUsed) idx <
      failoverLeft n cyclesUsed cursor := by
  unfold failoverLeft
  rcases h with hfwd | ⟨hcycles, hback⟩
  · rw [if_neg (by omega)]
    omega
  · rw [if_pos hback]
    have hcycle : n - cyclesUsed = (n - (cyclesUsed + 1)) + 1 := by omega
    rw [hcycle, Nat.succ_mul]
    omega

section Bounds

variable (call : TurnCall)

/-- The retries and silent retries of one iteration, and its first attempt. -/
def attemptsPerIteration : ℕ :=
  call.config.maxRetries.toNat + call.maxSilentRetries.toNat + 1

/-- The model calls a turn can make. -/
def attemptBound : ℕ :=
  call.config.maxToolIterations.toNat * attemptsPerIteration call +
    failoverLeft call.failoverChainFull.length 0 0

/-- The model calls a state can still lead to. -/
def potential (s : LoopState) : ℕ :=
  let chain := failoverLeft call.failoverChainFull.length s.failoverCyclesUsed s.failoverCursor
  if s.atHead then
    (call.config.maxToolIterations.toNat - s.iteration) * attemptsPerIteration call + chain
  else
    (call.config.maxToolIterations.toNat - (s.iteration + 1)) * attemptsPerIteration call +
      (call.config.maxRetries.toNat - s.retry) +
      (call.maxSilentRetries.toNat - s.silentRetries) + 1 + chain

end Bounds

variable {call : TurnCall} {s s' : LoopState}

/-- The counters that tell how far a turn is. -/
structure Progress where
  iteration : ℕ
  cursor : ℕ
  cyclesUsed : ℕ
  calls : ℕ

def LoopState.progress (s : LoopState) : Progress :=
  ⟨s.iteration, s.failoverCursor, s.failoverCyclesUsed, s.calls⟩

/-- A pass goes on to the next iteration or ends, without a model call or a failover. -/
def Settles (p : Progress) : Next LoopState Exit → Prop
  | .more s' => s'.atHead = true ∧ s'.progress = { p with iteration := p.iteration + 1 }
  | .done e => e.final.calls = p.calls

/-- One model call less is left, or the turn ends with this call. -/
def Lowers (call : TurnCall) (s : LoopState) : Next LoopState Exit → Prop
  | .more s' => s'.calls = s.calls + 1 ∧ potential call s' < potential call s
  | .done e => e.final.calls = s.calls + 1

/-! ## What follows a model call -/

theorem afterTools_settles (call : TurnCall) (s : LoopState) (toolUses : List ToolUseBlock)
    (results : List ToolExecutionResult) :
    Settles s.progress (afterTools call s toolUses results) := by
  unfold afterTools
  dsimp only
  split_ifs
  · exact ⟨rfl, rfl⟩
  · exact rfl
  · split
    · exact rfl
    · exact ⟨rfl, rfl⟩

theorem toolRound_settles (call : TurnCall) (s : LoopState) (msg : AssistantMessage) :
    Settles s.progress (toolRound call s msg) := by
  unfold toolRound
  rcases runTools call.toolRunner call.config.parallelTools call.round s.calls msg.toolUses with
    ⟨begun, results⟩
  cases results with
  | none => exact rfl
  | some results => exact afterTools_settles call (LoopState.push _ _) msg.toolUses _

theorem stopStep_settles (call : TurnCall) (s : LoopState) (msg : AssistantMessage) :
    Settles s.progress (stopStep call s msg) := by
  unfold stopStep
  dsimp only
  split_ifs
  · exact ⟨rfl, rfl⟩
  · exact ⟨rfl, rfl⟩
  · exact rfl

theorem messageStep_settles (call : TurnCall) (s : LoopState) (result : AttemptResult) :
    Settles s.progress (messageStep call s result) := by
  unfold messageStep
  split_ifs
  · exact toolRound_settles call (s.addUsage result.usage) result.message
  · exact stopStep_settles call (s.addUsage result.usage) result.message

/-! ## Every model call lowers the potential -/

theorem potential_of_attempt (h : s.atHead = false) :
    potential call s =
      (call.config.maxToolIterations.toNat - (s.iteration + 1)) * attemptsPerIteration call +
        (call.config.maxRetries.toNat - s.retry) +
        (call.maxSilentRetries.toNat - s.silentRetries) + 1 +
        failoverLeft call.failoverChainFull.length s.failoverCyclesUsed s.failoverCursor := by
  rw [potential, h]
  rfl

theorem potential_of_head (h : s.atHead = true) :
    potential call s =
      (call.config.maxToolIterations.toNat - s.iteration) * attemptsPerIteration call +
        failoverLeft call.failoverChainFull.length s.failoverCyclesUsed s.failoverCursor := by
  rw [potential, h]
  rfl

/-- The next iteration has fewer calls left than this one. -/
theorem potential_lt_of_settles (hs : s.atHead = false) (h : Settles s.progress (.more s')) :
    potential call s' < potential call s := by
  obtain ⟨hhead, hprogress⟩ := h
  obtain ⟨hiteration, hcursor, hcycles, -⟩ :
      s'.iteration = s.iteration + 1 ∧ s'.failoverCursor = s.failoverCursor ∧
        s'.failoverCyclesUsed = s.failoverCyclesUsed ∧ s'.calls = s.calls := by
    simpa [LoopState.progress] using hprogress
  rw [potential_of_head hhead, potential_of_attempt hs, hiteration, hcursor, hcycles]
  omega

/-- The failover target is further down the chain, or before the cursor on an unused cycle. -/
theorem failoverTarget_forward_or_wrap {result : AttemptResult} {classified : ClassifiedError}
    {next : Model} {idx : ℕ} (h : failoverTarget call s result classified = some (next, idx)) :
    idx < call.failoverChainFull.length ∧ (s.failoverCursor < idx ∨
      s.failoverCyclesUsed < call.failoverChainFull.length ∧ idx < s.failoverCursor) := by
  unfold failoverTarget at h
  cases hreg : call.config.failoverRegistry with
  | none => simp [hreg] at h
  | some require =>
    simp only [hreg] at h
    split_ifs at h
    split at h
    · next next' idx' hresolve =>
      obtain ⟨rfl, rfl⟩ := Prod.mk.inj (Option.some.inj h)
      exact resolveNextModel_forward_or_wrap hresolve
    · cases h

/-- What the choice of a remedy says about the counters. -/
theorem errorAction_spec (call : TurnCall) (s : LoopState) (result : AttemptResult) (error : ErrorEvent) :
    match errorAction call s result error with
    | .silentRetry => s.silentRetries < call.maxSilentRetries
    | .failover _ idx => idx < call.failoverChainFull.length ∧ (s.failoverCursor < idx ∨
        s.failoverCyclesUsed < call.failoverChainFull.length ∧ idx < s.failoverCursor)
    | .compress => True
    | .terminal => True
    | .retry => s.retry < call.config.maxRetries := by
  unfold errorAction
  by_cases hsilent : error.retryable = true ∧ result.textEmitted = false ∧
      s.silentRetries < call.maxSilentRetries
  · rw [if_pos hsilent]
    exact hsilent.2.2
  · rw [if_neg hsilent]
    dsimp only
    cases htarget : failoverTarget call s result (call.classifyApiError error) with
    | some target => exact failoverTarget_forward_or_wrap htarget
    | none =>
      dsimp only
      split_ifs with hcompress hterminal
      · trivial
      · trivial
      · exact not_le.1 fun hle => hterminal (Or.inr hle)

theorem errorStep_lowers {result : AttemptResult} (error : ErrorEvent) (hs : s.atHead = false) :
    Lowers call s (errorStep call (s.record result) result error) := by
  have hspec := errorAction_spec call (s.record result) result error
  unfold errorStep
  cases haction : errorAction call (s.record result) result error with
  | silentRetry =>
    rw [haction] at hspec
    have hlt : (s.silentRetries : ℤ) < call.maxSilentRetries := hspec
    refine ⟨rfl, ?_⟩
    rw [potential_of_attempt (s := s) hs, potential_of_attempt (by exact hs)]
    dsimp only [LoopState.record]
    omega
  | failover next idx =>
    rw [haction] at hspec
    have hleft := failoverLeft_lt hspec.1 hspec.2
    refine ⟨rfl, ?_⟩
    rw [potential_of_attempt (s := s) hs, potential_of_attempt (by exact hs)]
    exact Nat.add_lt_add_left hleft _
  | compress =>
    have hlt : potential call (LoopState.nextIteration { s.record result with
        compressionSelfHeals := (s.record result).compressionSelfHeals + 1 }) <
          potential call (s.record result) := potential_lt_of_settles hs ⟨rfl, rfl⟩
    exact ⟨rfl, hlt⟩
  | terminal => exact rfl
  | retry =>
    rw [haction] at hspec
    have hlt : (s.retry : ℤ) < call.config.maxRetries := hspec
    refine ⟨rfl, ?_⟩
    rw [potential_of_attempt (s := s) hs, potential_of_attempt (by exact hs)]
    dsimp only [LoopState.record]
    omega

/-- A model call uses up at least one of those left. -/
theorem attemptStep_lowers (call : TurnCall) (hs : s.atHead = false) : Lowers call s (attemptStep call s) := by
  unfold attemptStep
  cases hresult : call.runAttempt s.calls with
  | none => exact rfl
  | some result =>
    dsimp only
    cases result.error with
    | some error => exact errorStep_lowers error hs
    | none =>
      have hsettles := messageStep_settles call (s.record result) result
      dsimp only
      cases hstep : messageStep call (s.record result) result with
      | more s' =>
        rw [hstep] at hsettles
        have hcalls : s'.calls = s.calls + 1 := congrArg Progress.calls hsettles.2
        have hlt : potential call s' < potential call (s.record result) :=
          potential_lt_of_settles hs hsettles
        exact ⟨hcalls, hlt⟩
      | done e =>
        rw [hstep] at hsettles
        exact hsettles

/-- Compaction touches no counter. -/
theorem compact_progress (h : compact call s = some s') : s'.progress = s.progress := by
  obtain rfl | ⟨working, history, appended, -, -, -, rfl⟩ := compact_cases h
  · rfl
  · rfl

/-- The head of an iteration makes no call, and leads to no more than before. -/
theorem headStep_keeps (call : TurnCall) (hs : s.atHead = true) :
    match headStep call s with
    | .more s' => s'.atHead = false ∧ s'.calls = s.calls ∧ potential call s' ≤ potential call s
    | .done e => e.final.calls = s.calls := by
  unfold headStep
  split_ifs with hcap habort
  · exact rfl
  · show (abortExit s).final.calls = s.calls
    unfold abortExit
    split <;> rfl
  · cases hc : compact call s with
    | none => exact rfl
    | some t =>
      obtain ⟨hiteration, hcursor, hcycles, hcalls⟩ :
          t.iteration = s.iteration ∧ t.failoverCursor = s.failoverCursor ∧
            t.failoverCyclesUsed = s.failoverCyclesUsed ∧ t.calls = s.calls := by
        simpa [LoopState.progress] using compact_progress hc
      refine ⟨rfl, hcalls, ?_⟩
      have hleft : call.config.maxToolIterations.toNat - s.iteration =
          call.config.maxToolIterations.toNat - (s.iteration + 1) + 1 := by omega
      rw [potential_of_head hs, potential_of_attempt (by exact rfl), hleft, Nat.succ_mul]
      dsimp only
      rw [hiteration, hcursor, hcycles]
      unfold attemptsPerIteration
      omega

/-! ## The whole turn -/

/-- The passes left : each model call may have a head of an iteration before it. -/
def passesLeft (call : TurnCall) (s : LoopState) : ℕ :=
  2 * potential call s + if s.atHead then 1 else 0

/-- A pass keeps the calls made and the calls left within the bound, and is one less. -/
theorem step_more (h : step call s = .more s') :
    s'.calls + potential call s' ≤ s.calls + potential call s ∧
      passesLeft call s' < passesLeft call s := by
  unfold step at h
  unfold passesLeft
  split_ifs at h with hhead
  · have hkeeps := headStep_keeps call hhead
    rw [h] at hkeeps
    obtain ⟨hhead', hcalls, hle⟩ := hkeeps
    rw [hhead, hhead', hcalls]
    simp only [if_true, Bool.false_eq_true, if_false]
    omega
  · rw [Bool.not_eq_true] at hhead
    have hlowers := attemptStep_lowers call hhead
    rw [h] at hlowers
    obtain ⟨hcalls, hlt⟩ := hlowers
    rw [hhead, hcalls]
    split_ifs <;> omega

theorem step_done {e : Exit} (h : step call s = .done e) :
    e.final.calls ≤ s.calls + potential call s := by
  unfold step at h
  split_ifs at h with hhead
  · have hkeeps := headStep_keeps call hhead
    rw [h] at hkeeps
    exact hkeeps.le.trans (Nat.le_add_right _ _)
  · rw [Bool.not_eq_true] at hhead
    have hlowers := attemptStep_lowers call hhead
    rw [h] at hlowers
    have hfinal : e.final.calls = s.calls + 1 := hlowers
    rw [hfinal, potential_of_attempt hhead]
    omega

theorem potential_init (call : TurnCall) : potential call (init call) = attemptBound call :=
  rfl

/-- Every turn ends, and its model calls are at most `attemptBound`. -/
theorem runAgentTurn_bounded (call : TurnCall) :
    ∃ e, runAgentTurn call (2 * attemptBound call + 2) = some e ∧
      e.final.calls ≤ attemptBound call := by
  have hsome : (runAgentTurn call (2 * attemptBound call + 2)).isSome := by
    refine Machine.run_isSome (fun _ => True) (passesLeft call)
      (fun a b _ hab => ⟨trivial, (step_more hab).2⟩) trivial ?_
    rw [passesLeft, potential_init]
    split_ifs <;> omega
  obtain ⟨e, he⟩ := Option.isSome_iff_exists.1 hsome
  obtain ⟨last, hlast, hdone⟩ := Machine.exists_reaches_of_run he
  have hinv : last.calls + potential call last ≤ attemptBound call :=
    hlast.invariant (I := fun s => s.calls + potential call s ≤ attemptBound call)
      (by rw [potential_init]; exact (Nat.zero_add _).le)
      fun a b ha hab => (step_more hab).1.trans ha
  exact ⟨e, he, (step_done hdone).trans hinv⟩

end OxenClaw.Run
