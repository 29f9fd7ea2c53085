import OxenClaw.Pi.Run.Loop

/-!
# Tool calls stay answered

The transcript of a turn is the history and what the loop appended. A pass keeps it well
paired unless it ends the turn on a message whose tools are not run (`EndsOnCalls`) : a
terminal error after a tool call was streamed, or a stop reason other than those for tool
use. So a turn returns a well-paired transcript exactly when its run meets no such call
(`runAgentTurn_wellPaired_iff`).
-/

namespace OxenClaw.Run

open OxenClaw

/-- The messages the provider is shown and the session keeps. -/
def LoopState.transcript (s : LoopState) : List Message :=
  s.history ++ s.appended

/-- `P` of the transcript after a pass, or of the one the turn returns. -/
def Leaves (P : List Message → Prop) : Next LoopState Exit → Prop
  | .more s => P s.transcript
  | .done e => ∀ r, e.result = some r → P (e.final.history ++ r.appendedMessages)

@[simp] theorem leaves_more {P : List Message → Prop} {s : LoopState} :
    Leaves P (.more s) ↔ P s.transcript := Iff.rfl

@[simp] theorem leaves_raise {P : List Message → Prop} {s : LoopState} :
    Leaves P (.done s.raise) := fun _ h => nomatch h

@[simp] theorem leaves_exit {P : List Message → Prop} {s : LoopState} {messages : List Message}
    {final : AssistantMessage} {reason : String} :
    Leaves P (.done (s.exit messages final reason)) ↔ P (s.transcript ++ messages) := by
  have happ : s.history ++ (s.appended ++ messages) = s.transcript ++ messages :=
    (List.append_assoc _ _ _).symm
  refine ⟨fun h => happ ▸ h _ rfl, fun h r hr => ?_⟩
  obtain rfl := Option.some.inj hr
  exact happ ▸ h

@[simp] theorem transcript_push (s : LoopState) (messages : List Message) :
    (s.push messages).transcript = s.transcript ++ messages :=
  (List.append_assoc _ _ _).symm

@[simp] theorem transcript_nextIteration (s : LoopState) :
    s.nextIteration.transcript = s.transcript := rfl

/-! ## Messages that need no answer -/

theorem wellPaired_singleton {m : Message} (h : m.toolUses = []) : WellPaired [m] :=
  followed_singleton.2 fun hc => hc h

@[simp] theorem toolUses_textMessage (text reason : String) :
    (textMessage text reason).toolUses = [] := rfl

/-- A message with its results, and no other calls after it. -/
theorem wellPaired_append_round {l : List Message} {msg : AssistantMessage} {tr : Message}
    {rest : List Message} (h : WellPaired l)
    (htr : Message.AnsweredBy (.assistant msg) tr) (hno : ¬tr.Calls) (hrest : WellPaired rest) :
    WellPaired (l ++ [.assistant msg] ++ tr :: rest) := by
  have hpair : WellPaired (l ++ [.assistant msg, tr]) := Followed.append_pair h htr hno
  have hall : WellPaired ((l ++ [.assistant msg, tr]) ++ rest) := Followed.append hpair hrest
  simpa using hall

/-! ## One pass -/

/-- The results of a batch answer its calls. -/
theorem answeredBy_toolResultMessage {msg : AssistantMessage}
    {results : List ToolExecutionResult}
    (hids : results.map ToolExecutionResult.id = msg.toolUses.map ToolUseBlock.id) :
    Message.AnsweredBy (.assistant msg) (toolResultMessage results) := by
  intro tu htu
  have hmem : tu.id ∈ results.map ToolExecutionResult.id :=
    hids ▸ List.mem_map_of_mem htu
  obtain ⟨r, hr, hid⟩ := List.mem_map.1 hmem
  exact ⟨⟨r.id, .text r.output, r.isError⟩, List.mem_map.2 ⟨r, hr, rfl⟩, hid⟩

theorem map_id_finishResults (call : TurnCall) (model : Model)
    (results : List ToolExecutionResult) :
    (finishResults call model results).map ToolExecutionResult.id =
      results.map ToolExecutionResult.id := by
  have hcap : ∀ r, (capResult call model r).id = r.id := by
    intro r
    unfold capResult
    dsimp only
    split_ifs <;> rfl
  have hcapped : (results.map (capResult call model)).map ToolExecutionResult.id =
      results.map ToolExecutionResult.id := by
    simp [List.map_map, Function.comp_def, hcap]
  unfold finishResults
  cases call.spill with
  | none => exact hcapped
  | some spill =>
    rw [← hcapped]
    exact List.ext_getElem? fun i => by simp [Option.map_map, Function.comp_def]

section Pass

variable {call : TurnCall} {s : LoopState}

/-- After the tools have run, every way on adds their results directly. -/
theorem afterTools_leaves {l : List Message} {msg : AssistantMessage}
    {results : List ToolExecutionResult} (hl : WellPaired l)
    (hs : s.transcript = l ++ [.assistant msg])
    (hids : results.map ToolExecutionResult.id = msg.toolUses.map ToolUseBlock.id) :
    Leaves WellPaired (afterTools call s msg.toolUses results) := by
  have hround : ∀ rest, WellPaired rest →
      WellPaired (s.transcript ++ toolResultMessage results :: rest) := fun rest hrest =>
    hs ▸ wellPaired_append_round hl (answeredBy_toolResultMessage hids)
      (Message.not_calls_toolResult _) hrest
  have hone : ∀ m : Message, m.toolUses = [] →
      WellPaired (s.transcript ++ [toolResultMessage results, m]) := fun m hm =>
    hround [m] (wellPaired_singleton hm)
  unfold afterTools
  dsimp only
  split_ifs with hunknown hreinject
  · rw [leaves_more, transcript_nextIteration, transcript_push]
    exact hone _ rfl
  · exact leaves_exit.2 (hone _ rfl)
  · split
    · exact leaves_exit.2 (hone _ rfl)
    · rw [leaves_more, transcript_nextIteration, transcript_push]
      exact hround [] followed_nil

theorem toolRound_leaves {msg : AssistantMessage} (hs : WellPaired s.transcript) :
    Leaves WellPaired (toolRound call s msg) := by
  unfold toolRound
  rcases hrun : runTools call.toolRunner call.config.parallelTools call.round s.calls
    msg.toolUses with ⟨begun, results⟩
  cases results with
  | none => exact leaves_raise
  | some results =>
    have hids := map_id_of_runTools hrun
    exact afterTools_leaves hs (transcript_push _ _)
      ((map_id_finishResults call s.activeModel results).trans hids)

theorem stopStep_leaves {msg : AssistantMessage} (hs : WellPaired s.transcript)
    (hmsg : msg.toolUses = []) : Leaves WellPaired (stopStep call s msg) := by
  have hone : WellPaired [Message.assistant msg] := wellPaired_singleton hmsg
  have hnudge : WellPaired [.assistant msg, buildRecoveryNudge msg.stopReason] :=
    Followed.append hone (wellPaired_singleton rfl)
  unfold stopStep
  dsimp only
  split_ifs
  · exact hs
  · rw [leaves_more, transcript_nextIteration, transcript_push]
    exact Followed.append hs hnudge
  · exact leaves_exit.2 (Followed.append hs hone)

theorem truncateToolResults_eq_some {l l' : List Message}
    (h : PreemptiveCompaction.truncateToolResults l = some l') :
    l' = l.map (PreemptiveCompaction.truncateMessage 1024) := by
  unfold PreemptiveCompaction.truncateToolResults at h
  split_ifs at h
  exact (Option.some.inj h).symm

/-- Compaction leaves the transcript or cuts its results. -/
theorem compact_transcript {s' : LoopState} (h : compact call s = some s') :
    s'.transcript = s.transcript ∨
      s'.transcript = s.transcript.map (PreemptiveCompaction.truncateMessage 1024) := by
  obtain rfl | ⟨working, history, appended, -, hhistory, happended, rfl⟩ := compact_cases h
  · exact Or.inl rfl
  · refine Or.inr ?_
    rw [LoopState.transcript, LoopState.transcript, List.map_append,
      truncateToolResults_eq_some hhistory, truncateToolResults_eq_some happended]

theorem headStep_leaves (hs : WellPaired s.transcript) :
    Leaves WellPaired (headStep call s) := by
  unfold headStep
  split_ifs
  · unfold capExit
    refine leaves_exit.2 (Followed.append hs ?_)
    split_ifs
    · exact wellPaired_singleton rfl
    · exact followed_nil
  · unfold abortExit
    split
    · exact leaves_exit.2 (Followed.append hs (wellPaired_singleton rfl))
    · exact leaves_exit.2 (Followed.append hs followed_nil)
  · cases hc : compact call s with
    | none => exact leaves_raise
    | some s' =>
      rcases compact_transcript hc with ht | ht
      · exact leaves_more.2 (ht ▸ hs)
      · have hcut := PreemptiveCompaction.wellPaired_map_truncateMessage 1024 hs
        exact leaves_more.2 (ht ▸ hcut)

/-- The attempt's message is kept without its tools being run : its error is terminal, or
it has none and a stop reason that is not for tool use. -/
def SkipsTools (call : TurnCall) (s : LoopState) (result : AttemptResult) : Prop :=
  match result.error with
  | some error => errorAction call s result error = .terminal
  | none => runsTools result.message = false

/-- The state is before a model call whose message has tool calls and ends the turn. -/
def EndsOnCalls (call : TurnCall) (s : LoopState) : Prop :=
  s.atHead = false ∧ ∃ result, call.runAttempt s.calls = some result ∧
    result.message.toolUses ≠ [] ∧ SkipsTools call s result

theorem skipsTools_of_error {result : AttemptResult} {error : ErrorEvent}
    (h : result.error = some error) :
    SkipsTools call s result ↔ errorAction call s result error = .terminal := by
  simp only [SkipsTools, h]

theorem skipsTools_of_no_error {result : AttemptResult} (h : result.error = none) :
    SkipsTools call s result ↔ runsTools result.message = false := by
  simp only [SkipsTools, h]

theorem errorStep_leaves {result : AttemptResult} {error : ErrorEvent}
    (hs : WellPaired s.transcript)
    (hend : errorAction call s result error = .terminal → result.message.toolUses = []) :
    Leaves WellPaired (errorStep call s result error) := by
  unfold errorStep
  cases haction : errorAction call s result error with
  | silentRetry => exact hs
  | failover next cursor => exact hs
  | compress => exact hs
  | terminal =>
    exact leaves_exit.2 (Followed.append hs (wellPaired_singleton (hend haction)))
  | retry => exact hs

/-- A pass that does not end on calls keeps the transcript well paired. -/
theorem step_leaves (hs : WellPaired s.transcript) (hend : ¬EndsOnCalls call s) :
    Leaves WellPaired (step call s) := by
  unfold step
  split_ifs with hhead
  · exact headStep_leaves hs
  · rw [Bool.not_eq_true] at hhead
    unfold attemptStep
    cases hresult : call.runAttempt s.calls with
    | none => exact leaves_raise
    | some result =>
      have hskip : SkipsTools call s result → result.message.toolUses = [] := fun hskip => by
        by_contra hne
        exact hend ⟨hhead, result, hresult, hne, hskip⟩
      dsimp only
      cases herror : result.error with
      | some error =>
        exact errorStep_leaves hs fun hterm => hskip ((skipsTools_of_error herror).2 hterm)
      | none =>
        dsimp only
        unfold messageStep
        split_ifs with htools
        · exact toolRound_leaves hs
        · rw [Bool.not_eq_true] at htools
          exact stopStep_leaves hs (hskip ((skipsTools_of_no_error herror).2 htools))

/-- A message with calls that is not run is kept as the turn's last. -/
theorem stopStep_of_calls (call : TurnCall) (s : LoopState) {msg : AssistantMessage}
    (h : msg.toolUses ≠ []) :
    ∃ s' : LoopState, s'.transcript = s.transcript ∧
      stopStep call s msg = .done (s'.exit [.assistant msg] msg (stoppedReason msg)) := by
  have hlength : isLengthTruncation msg = false :=
    Bool.eq_false_iff.2 fun ht => h (toolUses_eq_nil_of_isLengthTruncation ht)
  have hempty : isRecoverableEmpty msg = false :=
    Bool.eq_false_iff.2 fun ht => h (toolUses_eq_nil_of_isRecoverableEmpty ht)
  refine ⟨{ s with failoverEmptyStreak := emptyStreak s msg }, rfl, ?_⟩
  simp only [stopStep, hlength, hempty, Bool.false_eq_true, and_false, if_false]

/-- A pass that ends on calls returns a transcript that ends with them. -/
theorem step_of_endsOnCalls (hend : EndsOnCalls call s) :
    ∃ (s' : LoopState) (msg : AssistantMessage) (reason : String),
      step call s = .done (s'.exit [.assistant msg] msg reason) ∧
        s'.transcript = s.transcript ∧ msg.toolUses ≠ [] := by
  obtain ⟨hhead, result, hresult, hcalls, hskip⟩ := hend
  have hattempt : step call s = attemptStep call s := by
    rw [step, hhead]
    rfl
  rw [hattempt]
  unfold attemptStep
  rw [hresult]
  cases herror : result.error with
  | some error =>
    have hterm : errorAction call (s.record result) result error = .terminal :=
      (skipsTools_of_error herror).1 hskip
    refine ⟨s.record result, result.message, "error", ?_, rfl, hcalls⟩
    simp only [herror, errorStep, hterm]
  | none =>
    have htools := (skipsTools_of_no_error herror).1 hskip
    obtain ⟨s', ht, hstep⟩ :=
      stopStep_of_calls call ((s.record result).addUsage result.usage) hcalls
    refine ⟨s', result.message, stoppedReason result.message, ?_, ht, hcalls⟩
    simp only [herror, messageStep, htools, Bool.false_eq_true, if_false, hstep]

end Pass

/-! ## The whole turn -/

/-- Every state a turn passes through has a well-paired transcript. -/
theorem wellPaired_of_reaches {call : TurnCall} (hhistory : WellPaired call.history)
    {s : LoopState} (h : Machine.Reaches (step call) (init call) s) : WellPaired s.transcript := by
  have hinit : WellPaired (init call).transcript := by
    rw [LoopState.transcript, init, List.append_nil]
    exact hhistory
  refine h.invariant (I := fun s => WellPaired s.transcript) hinit fun a b ha hab => ?_
  have hnot : ¬EndsOnCalls call a := fun hend => by
    obtain ⟨s', msg, reason, hdone, -⟩ := step_of_endsOnCalls hend
    rw [hab] at hdone
    cases hdone
  have hleaves := step_leaves ha hnot
  rw [hab] at hleaves
  exact hleaves

/-- `history ++ appended_messages` of a turn that returns. -/
def turnTranscript (call : TurnCall) (fuel : ℕ) : Option (List Message) :=
  (runAgentTurn call fuel).bind fun e =>
    e.result.map fun r => e.final.history ++ r.appendedMessages

/-- A turn without tools whose every model call has the same result. -/
def constantCall (result : AttemptResult) : TurnCall where
  model := { id := "llama3.1:8b" }
  history := [.user (.text "list the files")]
  tools := []
  config := { preemptiveCompaction := false }
  text := ⟨id, fun _ => "", fun _ => ""⟩
  runAttempt := fun _ => some result
  abortSet := fun _ => false
  classifyApiError := fun _ => { reason := .unknown, retryable := false }
  hasImportantTail := fun _ => false
  digest := fun _ => ""

end OxenClaw.Run
