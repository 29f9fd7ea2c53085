import OxenClaw.Pi.Run.Loop

/-!
# The tool calls of a turn

Every call a turn logs is what `runOneTool` made of its request : nothing else executes a
tool (`begun_of_runAgentTurn`).
-/

namespace OxenClaw.Run

open OxenClaw

/-- `P` of the state after a pass, or of the last one. -/
def Ends (P : LoopState → Prop) : Next LoopState Exit → Prop
  | .more s => P s
  | .done e => P e.final

/-- Every logged call was made through the hooks and the lookup of names. -/
def Dispatched (call : TurnCall) (s : LoopState) : Prop :=
  ∀ c ∈ s.begun, c.outcome = runOneTool call.toolRunner c.moment c.request

section
variable {call : TurnCall} {s : LoopState}

theorem compact_begun {s' : LoopState} (h : compact call s = some s') : s'.begun = s.begun := by
  obtain rfl | ⟨working, history, appended, -, -, -, rfl⟩ := compact_cases h
  · rfl
  · rfl

theorem headStep_dispatched (hs : Dispatched call s) :
    Ends (Dispatched call) (headStep call s) := by
  unfold headStep
  split_ifs
  · exact hs
  · unfold abortExit
    split
    · exact hs
    · exact hs
  · rcases hc : compact call s with _ | s'
    · exact hs
    · have hbegun := compact_begun hc
      exact fun c hmem => hs c (hbegun ▸ hmem)

theorem errorStep_dispatched {result : AttemptResult} {error : ErrorEvent}
    (hs : Dispatched call s) : Ends (Dispatched call) (errorStep call s result error) := by
  unfold errorStep
  rcases errorAction call s result error with _ | ⟨next, cursor⟩ | _ | _ | _ <;> exact hs

theorem stopStep_dispatched {msg : AssistantMessage} (hs : Dispatched call s) :
    Ends (Dispatched call) (stopStep call s msg) := by
  unfold stopStep
  dsimp only
  split_ifs <;> exact hs

theorem afterTools_dispatched {toolUses : List ToolUseBlock}
    {results : List ToolExecutionResult} (hs : Dispatched call s) :
    Ends (Dispatched call) (afterTools call s toolUses results) := by
  unfold afterTools
  dsimp only
  split_ifs
  · exact hs
  · exact hs
  · split <;> exact hs

/-- The calls of a batch are logged as `runOneTool` leaves them. -/
theorem toolRound_dispatched {msg : AssistantMessage} (hs : Dispatched call s) :
    Ends (Dispatched call) (toolRound call s msg) := by
  unfold toolRound
  rcases hrun : runTools call.toolRunner call.config.parallelTools call.round s.calls
    msg.toolUses with ⟨begun, results⟩
  have hbatch : ∀ c ∈ begun, c.outcome = runOneTool call.toolRunner c.moment c.request :=
    fun c hmem => outcome_of_runTools hrun hmem
  have hboth : ∀ c ∈ s.begun ++ begun,
      c.outcome = runOneTool call.toolRunner c.moment c.request := fun c hmem =>
    (List.mem_append.1 hmem).elim (hs c) (hbatch c)
  rcases results with _ | results
  · exact hboth
  · exact afterTools_dispatched hboth

theorem step_dispatched (hs : Dispatched call s) : Ends (Dispatched call) (step call s) := by
  unfold step
  split_ifs
  · exact headStep_dispatched hs
  · unfold attemptStep
    rcases call.runAttempt s.calls with _ | result
    · exact hs
    · dsimp only
      rcases result.error with _ | error
      · dsimp only
        unfold messageStep
        split_ifs
        · exact toolRound_dispatched hs
        · exact stopStep_dispatched hs
      · exact errorStep_dispatched hs

end

/-- Every tool call of a turn was made through the hooks and the lookup of names. -/
theorem begun_of_runAgentTurn {call : TurnCall} {fuel : ℕ} {e : Exit}
    (h : runAgentTurn call fuel = some e) : Dispatched call e.final := by
  obtain ⟨last, hlast, hdone⟩ := Machine.exists_reaches_of_run h
  have hs : Dispatched call last := by
    refine hlast.invariant (fun c hc => nomatch hc) fun a b ha hab => ?_
    have hends := step_dispatched ha
    rwa [hab] at hends
  have hends := step_dispatched hs
  rwa [hdone] at hends

end OxenClaw.Run
