import OxenClaw.Agents.PseudoTool
import OxenClaw.Agents.ToolPolicy
import OxenClaw.Pi.Run.Calls

/-!
# A user turn of the agent

`handle` makes one `run_agent_turn` and up to three auto-fire rounds : while the final
message has a call written as text, the tool is executed and the turn is run again. The log
has every structured call that was begun and every call that was fired.

A policy among the hooks is asked about structured calls, by the name the model wrote. What
it denies under a tool's registered name is executed exactly where a call `Slips` by or a
fired call is of a denied tool (`handle_runs_no_denied_iff`).
-/

namespace OxenClaw.PiAgent

open OxenClaw OxenClaw.Run

/-- A user turn, with what happens around it. -/
structure UserTurn where
  registry : ToolRegistry
  /-- The arguments of the first `run_agent_turn`, up to the tools. -/
  base : TurnCall
  /-- What the `n`-th model call of a round returns. -/
  runAttempt : ℕ → ℕ → Option AttemptResult
  /-- Whether the abort event is set at the head of an iteration of a round. -/
  abortSet : ℕ → ℕ → Bool
  /-- `json.loads`. -/
  loads : String → Option Json
  /-- The id of the call fired after a round. -/
  fakeId : ℕ → String

/-- What happened : a structured call was begun, or a call written as text was fired. -/
inductive Entry where
  | called (call : BatchedCall)
  | fired (pseudo : PseudoToolCall) (executed : Executed)

/-- The tool an entry executed. -/
def Entry.executed : Entry → Option Executed
  | .called call => call.outcome.executed
  | .fired _ executed => some executed

/-- Between two rounds. -/
structure Progress where
  /-- The history `handle` holds, which compaction changes in place. -/
  history : List Message
  result : TurnResult
  calls : ℕ
  log : List Entry

/-- The result, unless an exception left the turn, and the log. -/
structure Handled where
  result : Option TurnResult
  log : List Entry

/-- What one auto-fire round does. -/
inductive Round where
  /-- The result stays, nothing was fired or the rerun raised. -/
  | unchanged (log : List Entry)
  | rerun (p : Progress)
  /-- The fired tool was cancelled. -/
  | cancelled (log : List Entry)

section
variable (t : UserTurn)

/-- The `run_agent_turn` of a round. -/
def UserTurn.roundCall (round : ℕ) (history : List Message) : TurnCall :=
  { t.base with
    history, round
    tools := t.registry.tools.map Prod.snd
    runAttempt := t.runAttempt round
    abortSet := t.abortSet round }

/-- What every structured call of the turn is run with. -/
def UserTurn.toolRunner : ToolRunner :=
  (t.roundCall 0 []).toolRunner

/-- The text of a message. -/
def messageText (msg : AssistantMessage) : String :=
  String.join <| msg.content.filterMap fun
    | .text text => some text
    | _ => none

/-- The call written in a final message, and its tool. -/
def pseudoCall (final : AssistantMessage) : Option (PseudoToolCall × AgentTool) :=
  if final.toolUses.isEmpty = false then none
  else do
    let toolSchemas := Dict.ofList
      (t.registry.tools.map fun e => (e.2.name, e.2.inputSchema))
    let pseudo ← PseudoTool.extractPseudoToolCall t.loads (messageText final)
      (fun n => (t.registry.get t.base.text n).isSome) toolSchemas
    let tool ← t.registry.get t.base.text pseudo.name
    some (pseudo, tool)

/-- The messages that stand for a fired call and its output. -/
def syntheticRound (round : ℕ) (final : AssistantMessage) (pseudo : PseudoToolCall)
    (tool : AgentTool) (output : String) (isError : Bool) : List Message :=
  let text := messageText final
  [.assistant {
      content := [.text (if text = "" then "(pseudo-tool auto-fired)" else text),
        .toolUse ⟨t.fakeId round, tool.name, pseudo.args⟩]
      stopReason := some "tool_use" },
    .toolResult [⟨t.fakeId round, .text output, isError⟩]]

/-- The appended messages without the final one, if it is the last of them. -/
def originalAppended (result : TurnResult) : List Message :=
  if result.finalAppended then result.appendedMessages.dropLast else result.appendedMessages

/-- The rerun's result with what came before it. -/
def stitch (prior rerun : TurnResult) (before : List Message) : TurnResult :=
  { rerun with
    appendedMessages := before ++ rerun.appendedMessages
    usageTotal := rerun.usageTotal.foldl
      (fun total e => total.set e.1 ((total.get? e.1).getD 0 + e.2)) prior.usageTotal
    toolExecutions := prior.toolExecutions ++ rerun.toolExecutions }

/-- The rerun of a round, after a fired call. -/
def rerunTurn (fuel round : ℕ) (p : Progress) (synthetic : List Message) (log : List Entry) :
    Option Round :=
  let original := originalAppended p.result
  (runAgentTurn (t.roundCall (round + 1) (p.history ++ original ++ synthetic)) fuel).map fun e =>
    let log := log ++ e.final.begun.map .called
    match e.result with
    | none => .unchanged log
    | some rerun =>
      .rerun {
        history := e.final.history.take p.history.length
        result := stitch p.result rerun (e.final.history.drop p.history.length)
        calls := e.final.calls
        log := log }

/-- `_auto_fire_pseudo_tool_once`. -/
def autoFirePseudoToolOnce (fuel round : ℕ) (p : Progress) : Option Round :=
  match pseudoCall t p.result.finalMessage with
  | none => some (.unchanged p.log)
  | some (pseudo, tool) =>
    let log := p.log ++ [.fired pseudo ⟨tool.name, pseudo.args⟩]
    let synthetic := syntheticRound t round p.result.finalMessage pseudo tool
    match tool.execute ⟨round, p.calls + 1, 0⟩ pseudo.args with
    | .output output => rerunTurn t fuel round p (synthetic output false) log
    | .raised exc => rerunTurn t fuel round p (synthetic s!"(auto-fire error: {exc})" true) log
    | .cancelled => some (.cancelled log)

/-- `_maybe_auto_fire_pseudo_tool`, with the rounds that are left. -/
def maybeAutoFirePseudoTool (fuel : ℕ) : ℕ → ℕ → Progress → Option Handled
  | 0, _, p => some ⟨some p.result, p.log⟩
  | roundsLeft + 1, round, p =>
    match autoFirePseudoToolOnce t fuel round p with
    | none => none
    | some (.unchanged log) => some ⟨some p.result, log⟩
    | some (.cancelled log) => some ⟨none, log⟩
    | some (.rerun p) => maybeAutoFirePseudoTool fuel roundsLeft (round + 1) p

/-- The turn of `PiAgent.handle`, `none` when `fuel` did not suffice for a round. -/
def handle (fuel : ℕ) : Option Handled :=
  (runAgentTurn (t.roundCall 0 t.base.history) fuel).bind fun e =>
    let log := e.final.begun.map .called
    match e.result with
    | none => some ⟨none, log⟩
    | some result =>
      maybeAutoFirePseudoTool t fuel 3 0 ⟨e.final.history, result, e.final.calls, log⟩

end

/-! ## What the log says -/

/-- A structured call is what `runOneTool` made of it, a fired one executed the tool the
registry has for its name. -/
def Entry.Sound (t : UserTurn) : Entry → Prop
  | .called call => call.outcome = runOneTool t.toolRunner call.moment call.request
  | .fired pseudo executed => ∃ tool, t.registry.get t.base.text pseudo.name = some tool ∧
      executed = ⟨tool.name, pseudo.args⟩

/-- Every entry of the log is sound. -/
def LogSound (t : UserTurn) (log : List Entry) : Prop :=
  ∀ entry ∈ log, entry.Sound t

section
variable {t : UserTurn} {fuel round : ℕ}

theorem LogSound.append {log log' : List Entry} (h : LogSound t log) (h' : LogSound t log') :
    LogSound t (log ++ log') := fun entry hmem =>
  (List.mem_append.1 hmem).elim (h entry) (h' entry)

/-- A round's structured calls are sound, whatever its history. -/
theorem logSound_of_runAgentTurn {history : List Message} {e : Exit}
    (h : runAgentTurn (t.roundCall round history) fuel = some e) :
    LogSound t (e.final.begun.map .called) := by
  intro entry hmem
  obtain ⟨c, hc, rfl⟩ := List.mem_map.1 hmem
  exact begun_of_runAgentTurn h c hc

theorem pseudoCall_eq_some {final : AssistantMessage} {pseudo : PseudoToolCall}
    {tool : AgentTool} (h : pseudoCall t final = some (pseudo, tool)) :
    t.registry.get t.base.text pseudo.name = some tool := by
  unfold pseudoCall at h
  split_ifs at h
  obtain ⟨p, -, h⟩ := Option.bind_eq_some_iff.1 h
  obtain ⟨tool', htool, h⟩ := Option.bind_eq_some_iff.1 h
  obtain ⟨rfl, rfl⟩ := Prod.mk.inj (Option.some.inj h)
  exact htool

/-- The log after a round. -/
def Round.log : Round → List Entry
  | .unchanged log => log
  | .rerun p => p.log
  | .cancelled log => log

theorem rerunTurn_sound {p : Progress} {synthetic : List Message} {log : List Entry} {r : Round}
    (hlog : LogSound t log) (h : rerunTurn t fuel round p synthetic log = some r) :
    LogSound t r.log := by
  obtain ⟨e, he, hr⟩ := Option.map_eq_some_iff.1 h
  have hboth := hlog.append (logSound_of_runAgentTurn he)
  rcases hresult : e.result with _ | rerun
  · rw [hresult] at hr
    obtain rfl := hr
    exact hboth
  · rw [hresult] at hr
    obtain rfl := hr
    exact hboth

theorem autoFirePseudoToolOnce_sound {p : Progress} {r : Round} (hp : LogSound t p.log)
    (h : autoFirePseudoToolOnce t fuel round p = some r) : LogSound t r.log := by
  unfold autoFirePseudoToolOnce at h
  split at h
  · obtain rfl := Option.some.inj h
    exact hp
  · next pseudo tool hpseudo =>
    have hfired : LogSound t (p.log ++ [.fired pseudo ⟨tool.name, pseudo.args⟩]) :=
      hp.append fun entry hmem => by
        obtain rfl := List.mem_singleton.1 hmem
        exact ⟨tool, pseudoCall_eq_some hpseudo, rfl⟩
    dsimp only at h
    split at h
    · exact rerunTurn_sound hfired h
    · exact rerunTurn_sound hfired h
    · obtain rfl := Option.some.inj h
      exact hfired

theorem maybeAutoFirePseudoTool_sound {handled : Handled} :
    ∀ {roundsLeft round : ℕ} {p : Progress}, LogSound t p.log →
      maybeAutoFirePseudoTool t fuel roundsLeft round p = some handled → LogSound t handled.log
  | 0, _, p, hp, h => by
    obtain rfl := Option.some.inj h
    exact hp
  | roundsLeft + 1, round, p, hp, h => by
    rw [maybeAutoFirePseudoTool] at h
    rcases hround : autoFirePseudoToolOnce t fuel round p with _ | r
    · rw [hround] at h
      cases h
    have hr := autoFirePseudoToolOnce_sound hp hround
    rw [hround] at h
    rcases r with log | p' | log
    · obtain rfl := Option.some.inj h
      exact hr
    · exact maybeAutoFirePseudoTool_sound hr h
    · obtain rfl := Option.some.inj h
      exact hr

/-- Nothing else is executed in a turn. -/
theorem handle_sound {handled : Handled} (h : handle t fuel = some handled) :
    LogSound t handled.log := by
  obtain ⟨e, he, h⟩ := Option.bind_eq_some_iff.1 h
  have hlog := logSound_of_runAgentTurn he
  dsimp only at h
  rcases hresult : e.result with _ | result
  · rw [hresult] at h
    obtain rfl := Option.some.inj h
    exact hlog
  · rw [hresult] at h
    exact maybeAutoFirePseudoTool_sound hlog h

end

end OxenClaw.PiAgent
