import OxenClaw.Lib.Machine
import OxenClaw.Pi.ToolRuntime
import OxenClaw.Pi.Run.Failover
import OxenClaw.Pi.Run.PreemptiveCompaction
import OxenClaw.Pi.Run.Recovery
import OxenClaw.Pi.Run.RunTools
import OxenClaw.Pi.Run.ToolResultTruncation

/-!
# The run loop

`run_agent_turn` as a machine. A state is at the head of an iteration or before a model
call of its retry loop. `headStep` checks the cap and the abort event and compacts,
`attemptStep` makes one model call. Its error is handled as `errorAction` says; its message
is added to the transcript, and either ends the turn, is asked for again, or has its tools
run (`toolRound`).

The model call, the clock of the abort event, the error classifier, the tools and what is
spilled to disk are parameters of a `TurnCall` : each may answer in any way.
-/

namespace OxenClaw.Run

open OxenClaw

/-- `RuntimeConfig`, the fields the loop reads. Hooks are part of the `TurnCall`. -/
structure RuntimeConfig where
  maxTokens : Option ℤ := none
  maxRetries : ℤ := 3
  maxToolIterations : ℤ := 25
  parallelTools : Bool := true
  softIterationCap : Bool := true
  unknownToolThreshold : ℤ := 10
  argLoopThreshold : ℤ := 4
  stopReasonRecoveryAttempts : ℤ := 1
  lengthRecoveryAttempts : ℤ := 1
  lengthRecoveryGrowth : ℚ := 2
  failoverChain : List String := []
  failoverEmptyStreakThreshold : ℤ := 3
  failoverRegistry : Option (String → Option Model) := none
  failoverCycle : Bool := false
  compactionThresholdRatio : ℚ := 17 / 20
  preemptiveCompaction : Bool := true
  maxCompressionSelfHeals : ℤ := 3
  compressThenRetry : Bool := true
  toolPolicy : Option EffectiveToolPolicy := none

/-- The arguments of `run_agent_turn` and everything it depends on. -/
structure TurnCall where
  model : Model
  system : Option String := none
  history : List Message
  tools : List AgentTool
  config : RuntimeConfig := {}
  text : PyText
  hookRunner : Option HookRunner := none
  hookContext : HookContext := {}
  /-- Which round of the agent's turn this call is. -/
  round : ℕ := 0
  /-- What the `n`-th model call returns; `none` when it, or the wait before it, raises. -/
  runAttempt : ℕ → Option AttemptResult
  /-- Whether the abort event is set at the head of an iteration. -/
  abortSet : ℕ → Bool
  classifyApiError : ErrorEvent → ClassifiedError
  hasImportantTail : String → Bool
  /-- The digest of a call's arguments. -/
  digest : Args → String
  /-- The output of the `i`-th result after what is over budget is spilled to disk. -/
  spill : Option (List ToolExecutionResult → ℕ → String) := none

/-- `TurnResult`. `finalAppended` : the final message is the last appended one itself. -/
structure TurnResult where
  finalMessage : AssistantMessage
  finalAppended : Bool
  appendedMessages : List Message
  attempts : List AttemptResult
  toolExecutions : List ToolExecutionResult
  usageTotal : Dict String ℤ
  stoppedReason : String

/-- The local variables of `run_agent_turn`. `working` holds the objects of `history`, so
compaction changes both. -/
structure LoopState where
  iteration : ℕ := 0
  atHead : Bool := true
  history : List Message
  working : List Message
  appended : List Message := []
  attempts : List AttemptResult := []
  executions : List ToolExecutionResult := []
  usageTotal : Dict String ℤ := []
  consecutiveUnknownTools : ℕ := 0
  unknownToolReinjectUsed : Bool := false
  argLoop : ArgLoopDetector
  recoveriesUsed : ℕ := 0
  lengthRecoveriesUsed : ℕ := 0
  lengthMaxTokensOverride : Option ℤ := none
  overloadFailoverAttempts : ℕ := 0
  compressionSelfHeals : ℕ := 0
  failoverCursor : ℕ := 0
  failoverEmptyStreak : ℕ := 0
  failoverCyclesUsed : ℕ := 0
  activeModel : Model
  retry : ℕ := 0
  silentRetries : ℕ := 0
  /-- The model calls made so far. -/
  calls : ℕ := 0
  /-- The tool calls begun so far. -/
  begun : List BatchedCall := []

/-- How a turn ends : `none` when an exception leaves the loop. -/
structure Exit where
  final : LoopState
  result : Option TurnResult

section Definitions

variable (call : TurnCall)

/-- The tools the model is shown. -/
def TurnCall.shownTools : List AgentTool :=
  match call.config.toolPolicy with
  | some policy => policy.resolve call.tools
  | none => call.tools

/-- What every tool call of the turn is run with. -/
def TurnCall.toolRunner : ToolRunner where
  text := call.text
  toolsByName := toolsByName call.shownTools
  hookRunner := call.hookRunner
  hookContext := call.hookContext

/-- `failover_chain_full`. -/
def TurnCall.failoverChainFull : List String :=
  call.model.id :: call.config.failoverChain

/-- `max(1, config.max_compression_self_heals)`. -/
def TurnCall.maxCompressionSelfHeals : ℤ :=
  max 1 call.config.maxCompressionSelfHeals

/-- `max(2, config.max_retries // 2)`. -/
def TurnCall.maxSilentRetries : ℤ :=
  max 2 (call.config.maxRetries / 2)

/-- The state before the first iteration. -/
def init : LoopState where
  history := call.history
  working := call.history
  argLoop := { threshold := call.config.argLoopThreshold }
  activeModel := call.model

end Definitions

/-! ## Small steps on the state -/

namespace LoopState

/-- Append to `appended` and `working`. -/
def push (s : LoopState) (messages : List Message) : LoopState :=
  { s with appended := s.appended ++ messages, working := s.working ++ messages }

/-- `continue` of the outer loop. -/
def nextIteration (s : LoopState) : LoopState :=
  { s with iteration := s.iteration + 1, atHead := true }

/-- The result with `appended` extended by `messages`. -/
def exit (s : LoopState) (messages : List Message) (final : AssistantMessage)
    (stoppedReason : String) : Exit :=
  { final := s
    result := some {
      finalMessage := final
      finalAppended := !messages.isEmpty
      appendedMessages := s.appended ++ messages
      attempts := s.attempts
      toolExecutions := s.executions
      usageTotal := s.usageTotal
      stoppedReason := stoppedReason } }

/-- An exception leaves the loop. -/
def raise (s : LoopState) : Exit :=
  { final := s, result := none }

end LoopState

/-- `_accumulate_usage`, for one entry. -/
def accumulateEntry (total : Dict String ℤ) (entry : String × Json) : Dict String ℤ :=
  match entry.2 with
  | .int n => total.set entry.1 ((total.get? entry.1).getD 0 + n)
  | .float x => total.set entry.1 (Py.int ((total.get? entry.1).getD 0 + x))
  | _ => total

/-- `_accumulate_usage`. -/
def accumulateUsage (total : Dict String ℤ) (delta : Option Args) : Dict String ℤ :=
  (delta.getD []).foldl accumulateEntry total

/-- An assistant message the loop makes up itself. -/
def textMessage (text stopReason : String) : AssistantMessage :=
  { content := [.text text], stopReason := some stopReason }

/-- The `ToolResultMessage` with one block for each result. -/
def toolResultMessage (results : List ToolExecutionResult) : Message :=
  .toolResult (results.map fun r => ⟨r.id, .text r.output, r.isError⟩)

/-! ## The head of an iteration -/

section Head

variable (call : TurnCall) (s : LoopState)

/-- `getattr(active_model, "context_window", 8192) or 8192`. -/
def Model.window (model : Model) : ℤ :=
  if model.contextWindow = 0 then 8192 else model.contextWindow

/-- Preemptive compaction, `none` when cutting the results raises. -/
def compact : Option LoopState :=
  if call.config.preemptiveCompaction = false then some s
  else
    let decision := PreemptiveCompaction.decide call.system s.working
      (Model.window s.activeModel) call.config.compactionThresholdRatio (PreemptiveCompaction.charsPerTokenFor call.text s.activeModel.id)
    if decision.route = .noop then some s
    else do
      let working ← PreemptiveCompaction.truncateToolResults s.working
      let history ← PreemptiveCompaction.truncateToolResults s.history
      let appended ← PreemptiveCompaction.truncateToolResults s.appended
      some { s with working, history, appended }

/-- Compaction leaves the state as it is, or cuts the results of its three lists. -/
theorem compact_cases {call : TurnCall} {s s' : LoopState} (h : compact call s = some s') :
    s' = s ∨ ∃ working history appended,
      PreemptiveCompaction.truncateToolResults s.working = some working ∧
      PreemptiveCompaction.truncateToolResults s.history = some history ∧
      PreemptiveCompaction.truncateToolResults s.appended = some appended ∧
      s' = { s with working, history, appended } := by
  unfold compact at h
  dsimp only at h
  split_ifs at h
  · exact Or.inl (Option.some.inj h).symm
  · exact Or.inl (Option.some.inj h).symm
  · obtain ⟨working, hworking, h⟩ := Option.bind_eq_some_iff.1 h
    obtain ⟨history, hhistory, h⟩ := Option.bind_eq_some_iff.1 h
    obtain ⟨appended, happended, h⟩ := Option.bind_eq_some_iff.1 h
    exact Or.inr ⟨working, history, appended, hworking, hhistory, happended,
      (Option.some.inj h).symm⟩

/-- The exit at an abort event : a yield when a tool asked for one. -/
def abortExit : Exit :=
  match (s.executions.filter (·.name = "sessions_yield")).getLast? with
  | some r =>
    let reason := Py.stripString (if r.output = "" then "yielded" else r.output)
    let yieldMsg := textMessage reason "yielded"
    s.exit [.assistant yieldMsg] yieldMsg "yielded"
  | none => s.exit [] (textMessage "(aborted)" "abort") "abort"

/-- The exit at the iteration cap. -/
def capExit : Exit :=
  let capMsg := textMessage "(stopped: reached max tool iterations without a final answer)"
    "iteration_cap"
  s.exit (if call.config.softIterationCap then [.assistant capMsg] else []) capMsg
    "iteration_cap"

/-- The start of one outer iteration. -/
def headStep : Next LoopState Exit :=
  if call.config.maxToolIterations ≤ s.iteration then .done (capExit call s)
  else if call.abortSet s.iteration then .done (abortExit s)
  else
    match compact call s with
    | none => .done s.raise
    | some s => .more { s with atHead := false, retry := 0, silentRetries := 0 }

end Head

/-! ## Errors -/

/-- What the loop does about a failed attempt. -/
inductive ErrorAction where
  | silentRetry
  | failover (next : Model) (cursor : ℕ)
  | compress
  | terminal
  | retry

section Errors

variable (call : TurnCall) (s : LoopState)

/-- The model to fail over to, if the failure asks for one and the chain has one. -/
def failoverTarget (result : AttemptResult) (classified : ClassifiedError) :
    Option (Model × ℕ) :=
  match call.config.failoverRegistry with
  | none => none
  | some require =>
    if call.failoverChainFull.length ≤ 1 then none
    else if shouldFailover result call.failoverChainFull s.failoverCursor s.failoverEmptyStreak
        call.config.failoverEmptyStreakThreshold call.config.failoverCycle
        s.failoverCyclesUsed || classified.shouldFallback then
      match resolveNextModel call.failoverChainFull s.failoverCursor require
          call.config.failoverCycle s.failoverCyclesUsed with
      | (some next, cursor) => some (next, cursor)
      | (none, _) => none
    else none

/-- The dispatch on an error, in the order the loop tries its remedies. -/
def errorAction (result : AttemptResult) (error : ErrorEvent) : ErrorAction :=
  if error.retryable = true ∧ result.textEmitted = false ∧
      s.silentRetries < call.maxSilentRetries then .silentRetry
  else
    let classified := call.classifyApiError error
    match failoverTarget call s result classified with
    | some (next, cursor) => .failover next cursor
    | none =>
      if classified.shouldCompress = true ∧
          (classified.reason = .contextOverflow ∨ classified.reason = .payloadTooLarge) ∧
          call.config.compressThenRetry = true ∧
          s.compressionSelfHeals < call.maxCompressionSelfHeals then .compress
      else if classified.retryable = false ∨ call.config.maxRetries ≤ s.retry then .terminal
      else .retry

/-- Swap to the next model of the chain. -/
def failoverTo (reason : FailoverReason) (next : Model) (cursor : ℕ) : LoopState :=
  { s with
    failoverCyclesUsed :=
      if cursor < s.failoverCursor then s.failoverCyclesUsed + 1 else s.failoverCyclesUsed
    overloadFailoverAttempts :=
      if reason = .rateLimit ∨ reason = .server then s.overloadFailoverAttempts + 1
      else s.overloadFailoverAttempts
    activeModel := next
    failoverCursor := cursor
    failoverEmptyStreak := 0 }

/-- One pass of the retry loop after a failed attempt. -/
def errorStep (result : AttemptResult) (error : ErrorEvent) : Next LoopState Exit :=
  match errorAction call s result error with
  | .silentRetry => .more { s with silentRetries := s.silentRetries + 1 }
  | .failover next cursor =>
    .more (failoverTo s (call.classifyApiError error).reason next cursor)
  | .compress =>
    .more { s with compressionSelfHeals := s.compressionSelfHeals + 1 }.nextIteration
  | .terminal => .done (s.exit [.assistant result.message] result.message "error")
  | .retry => .more { s with retry := s.retry + 1 }

end Errors

/-! ## Messages without tools to run -/

section Messages

variable (call : TurnCall) (s : LoopState)

/-- The output budget after a length cut-off. -/
def grownMaxTokens : ℤ :=
  let base := match s.lengthMaxTokensOverride with
    | some base => base
    | none => call.config.maxTokens.getD (max 256 s.activeModel.maxOutputTokens)
  min (Py.int (base * max 1 call.config.lengthRecoveryGrowth)) s.activeModel.maxOutputTokens

/-- The empty replies in a row, this message included. -/
def emptyStreak (msg : AssistantMessage) : ℕ :=
  if isRecoverableEmpty msg then s.failoverEmptyStreak + 1 else 0

/-- `msg.stop_reason or "end_turn"`. -/
def stoppedReason (msg : AssistantMessage) : String :=
  (msg.stopReason.filter (· ≠ "")).getD "end_turn"

/-- A message whose tools are not run : it is asked for again or ends the turn. The state
does not have it yet. -/
def stopStep (msg : AssistantMessage) : Next LoopState Exit :=
  if s.lengthRecoveriesUsed < call.config.lengthRecoveryAttempts ∧
      isLengthTruncation msg = true then
    .more { s with
      lengthRecoveriesUsed := s.lengthRecoveriesUsed + 1
      lengthMaxTokensOverride := some (grownMaxTokens call s) }.nextIteration
  else
    let s := { s with failoverEmptyStreak := emptyStreak s msg }
    if s.recoveriesUsed < call.config.stopReasonRecoveryAttempts ∧
        isRecoverableEmpty msg = true then
      .more ({ s with recoveriesUsed := s.recoveriesUsed + 1 }.push
        [.assistant msg, buildRecoveryNudge msg.stopReason]).nextIteration
    else
      .done (s.exit [.assistant msg] msg (stoppedReason msg))

end Messages

/-! ## Tool rounds -/

section Tools

variable (call : TurnCall) (s : LoopState)

/-- The clamp on one result's output. -/
def capResult (activeModel : Model) (r : ToolExecutionResult) : ToolExecutionResult :=
  let ctxShareCap := calculateMaxToolResultChars activeModel.contextWindow
  let cap : ℤ := match call.config.toolPolicy with
    | some policy =>
      if 0 < policy.maxCharsFor r.name then min ctxShareCap (policy.maxCharsFor r.name)
      else ctxShareCap
    | none => ctxShareCap
  if cap < r.output.length then
    { r with output := truncateToolResultText call.hasImportantTail r.output cap }
  else r

/-- The results as they enter the transcript. -/
def finishResults (activeModel : Model) (results : List ToolExecutionResult) :
    List ToolExecutionResult :=
  let capped := results.map (capResult call activeModel)
  match call.spill with
  | none => capped
  | some spill => capped.mapIdx fun i r => { r with output := spill capped i }

/-- The result reports a tool that is not registered. -/
def isUnknownTool (r : ToolExecutionResult) : Bool :=
  r.isError && Py.contains "is not registered" r.output

/-- `sorted(names)`. -/
def sortedNames (names : List String) : List String :=
  names.mergeSort fun a b => decide (a ≤ b)

/-- The `repr` of a list of names. -/
def reprNames (names : List String) : String :=
  call.text.repr (.arr (names.map .str))

/-- `unknown_names`. -/
def unknownNames (results : List ToolExecutionResult) : List String :=
  sortedNames ((results.filter ToolExecutionResult.isError).map ToolExecutionResult.name).dedup

/-- The nudge with the registered names. -/
def unknownToolNudge (results : List ToolExecutionResult) : Message :=
  .user <| .text <|
    s!"You called unknown tool(s) {reprNames call (unknownNames results)}. The exact " ++
      "registered tool names are: " ++
      s!"{reprNames call (sortedNames call.toolRunner.toolsByName.keys)}. Re-emit the call using " ++
      "ONE of those names exactly as written, or answer in plain " ++
      "language if no tool fits."

/-- The message that ends a turn of unknown tools. -/
def unknownToolAbort (results : List ToolExecutionResult) (streak : ℕ) : AssistantMessage :=
  textMessage
    ("(loop-detection abort: model called unknown tool(s) " ++
      s!"{reprNames call (unknownNames results)} {streak} times in a row. " ++
      "Available tools: " ++
      s!"{reprNames call ((sortedNames call.toolRunner.toolsByName.keys).take 20)}...)")
    "loop_detection"

/-- The message that ends a turn of repeated arguments. -/
def argLoopAbort (key : String × String) (streak : ℕ) : AssistantMessage :=
  textMessage
    (s!"(loop-detection abort: tool {call.text.repr (.str key.1)} called with the " ++
      s!"same arguments (digest={key.2}) {streak} " ++
      "times in a row. Vary the arguments or answer from existing " ++ "context.)")
    "loop_detection"

/-- The rounds in a row, this one included, whose calls were all of unknown tools. -/
def unknownStreak (results : List ToolExecutionResult) : ℕ :=
  let unknownInIter := results.countP isUnknownTool
  if unknownInIter ≠ 0 ∧ unknownInIter = results.length then s.consecutiveUnknownTools + 1 else 0

/-- What follows the results of a tool round. The state has the message with the calls. -/
def afterTools (toolUses : List ToolUseBlock) (results : List ToolExecutionResult) :
    Next LoopState Exit :=
  let trMsg := toolResultMessage results
  let streak := unknownStreak s results
  let s := { s with
    executions := s.executions ++ results
    consecutiveUnknownTools := streak }
  if call.config.unknownToolThreshold ≤ streak then
    if s.unknownToolReinjectUsed = false then
      .more ({ s with unknownToolReinjectUsed := true, consecutiveUnknownTools := 0 }.push
        [trMsg, unknownToolNudge call results]).nextIteration
    else
      let abortMsg := unknownToolAbort call results streak
      .done (s.exit [trMsg, .assistant abortMsg] abortMsg "loop_detection")
  else
    let (argLoop, hit) := s.argLoop.observeAll call.digest toolUses
    let s := { s with argLoop }
    match hit, argLoop.lastKey with
    | true, some key =>
      let abortMsg := argLoopAbort call key argLoop.streak
      .done (s.exit [trMsg, .assistant abortMsg] abortMsg "loop_detection")
    | _, _ => .more (s.push [trMsg]).nextIteration

/-- A message whose tools are run. The state does not have it yet. -/
def toolRound (msg : AssistantMessage) : Next LoopState Exit :=
  let (begun, results) := runTools call.toolRunner call.config.parallelTools call.round
    s.calls msg.toolUses
  let s := { s with begun := s.begun ++ begun }.push [.assistant msg]
  match results with
  | none => .done s.raise
  | some results => afterTools call s msg.toolUses (finishResults call s.activeModel results)

end Tools

/-! ## The machine -/

/-- The stop reasons after which the tools of a message are run. -/
def toolStopReasons : List String :=
  ["tool_use", "tool_calls"]

/-- Whether the tools of a message are run. -/
def runsTools (msg : AssistantMessage) : Bool :=
  !msg.toolUses.isEmpty && msg.stopReason.any (· ∈ toolStopReasons)

section Machine

variable (call : TurnCall) (s : LoopState)

/-- The state after a model call that returned. -/
def LoopState.record (result : AttemptResult) : LoopState :=
  { s with calls := s.calls + 1, attempts := s.attempts ++ [result] }

/-- The state with an attempt's usage added. -/
def LoopState.addUsage (usage : Option Args) : LoopState :=
  { s with usageTotal := accumulateUsage s.usageTotal usage }

/-- What follows an attempt without error. -/
def messageStep (result : AttemptResult) : Next LoopState Exit :=
  if runsTools result.message then toolRound call (s.addUsage result.usage) result.message
  else stopStep call (s.addUsage result.usage) result.message

/-- One model call and what follows it. -/
def attemptStep : Next LoopState Exit :=
  match call.runAttempt s.calls with
  | none => .done { s with calls := s.calls + 1 }.raise
  | some result =>
    match result.error with
    | some error => errorStep call (s.record result) result error
    | none => messageStep call (s.record result) result

/-- One pass of `run_agent_turn`. -/
def step : Next LoopState Exit :=
  if s.atHead then headStep call s else attemptStep call s

end Machine

/-- `run_agent_turn`, `none` when `fuel` passes did not suffice. -/
def runAgentTurn (call : TurnCall) (fuel : ℕ) : Option Exit :=
  Machine.run (step call) fuel (init call)

end OxenClaw.Run
