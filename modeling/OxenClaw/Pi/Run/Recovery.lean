import OxenClaw.Lib.Python
import OxenClaw.Pi.Messages

/-!
# Stop-reason recovery and argument loops

When an assistant message says nothing the run loop asks again : with a larger output
budget when the budget was the reason (`isLengthTruncation`), else with a nudge
(`isRecoverableEmpty`). Neither ever drops a message with tool calls
(`toolUses_eq_nil_of_isLengthTruncation`). `ArgLoopDetector` counts how often the same call
came in a row.
-/

namespace OxenClaw

/-- `RECOVERABLE_STOP_REASONS`. -/
def recoverableStopReasons : List String :=
  ["refusal", "safety", "sensitive", "content_filter", "blocked"]

/-- `isinstance(b, TextContent) and (b.text or "").strip()`. -/
def AssistantBlock.hasText : AssistantBlock → Bool
  | .text s => !(Py.strip s.toList).isEmpty
  | _ => false

def AssistantBlock.isThinking : AssistantBlock → Bool
  | .thinking _ _ => true
  | _ => false

/-- `is_recoverable_empty`. -/
def isRecoverableEmpty (message : AssistantMessage) : Bool :=
  message.toolUses.isEmpty && !message.content.any AssistantBlock.hasText &&
    match message.stopReason with
    | none => true
    | some reason => reason ∈ recoverableStopReasons || reason ∈ ["end_turn", "stop"]

/-- `is_length_truncation`. -/
def isLengthTruncation (message : AssistantMessage) : Bool :=
  message.toolUses.isEmpty && !message.content.any AssistantBlock.hasText &&
    match message.stopReason with
    | none => message.content.any AssistantBlock.isThinking
    | some reason =>
      reason = "length" ||
        (reason ∈ ["stop", "end_turn"] && message.content.any AssistantBlock.isThinking)

/-- `build_recovery_nudge`. -/
def buildRecoveryNudge (stopReason : Option String) : Message :=
  .user <| .text <|
    match stopReason.filter (· ∈ recoverableStopReasons) with
    | some reason =>
      "Your previous reply was filtered as " ++ s!"`{reason}`. Please retry — answer in plain " ++
        "language, no policy commentary, and reuse any context " ++
        "already provided. If a tool would help, call it."
    | none =>
      "Your previous reply was empty. Please retry and answer " ++
        "directly. If a tool (memory_search, weather, web_search, " ++
        "get_time, etc.) would help, call it."

theorem toolUses_eq_nil_of_isRecoverableEmpty {message : AssistantMessage}
    (h : isRecoverableEmpty message = true) : message.toolUses = [] := by
  simp only [isRecoverableEmpty, Bool.and_eq_true] at h
  exact List.isEmpty_iff.1 h.1.1

theorem toolUses_eq_nil_of_isLengthTruncation {message : AssistantMessage}
    (h : isLengthTruncation message = true) : message.toolUses = [] := by
  simp only [isLengthTruncation, Bool.and_eq_true] at h
  exact List.isEmpty_iff.1 h.1.1

/-! ## Argument loops -/

/-- `ArgLoopDetector`. The deque of recent calls is never read. -/
structure ArgLoopDetector where
  threshold : ℤ := 4
  streak : ℕ := 0
  lastKey : Option (String × String) := none

/-- `_digest_args`, with the digest of the canonical JSON. -/
def digestArgs (digest : Args → String) (args : Args) : String :=
  if args = [] then "0" else digest args

/-- `ArgLoopDetector.observe`. -/
def ArgLoopDetector.observe (digest : Args → String) (d : ArgLoopDetector) (toolName : String)
    (args : Args) : ArgLoopDetector × Bool :=
  let key := (toolName, digestArgs digest args)
  let streak := if d.lastKey = some key then d.streak + 1 else 1
  ({ d with streak := streak, lastKey := some key }, decide (d.threshold ≤ streak))

/-- The loop over the calls of a message, left at the first that completes a streak. -/
def ArgLoopDetector.observeAll (digest : Args → String) (d : ArgLoopDetector) :
    List ToolUseBlock → ArgLoopDetector × Bool
  | [] => (d, false)
  | tu :: tus =>
    match d.observe digest tu.name tu.input with
    | (d', true) => (d', true)
    | (d', false) => d'.observeAll digest tus

end OxenClaw
