import Mathlib.Data.Int.Order.Basic
import OxenClaw.Lib.Slots
import OxenClaw.Pi.Streaming

/-!
# The OpenAI-compatible stream

`stream_openai_compatible` from the decoded `data:` events on. A chunk is what the loop
reads of one event; lines the loop skips (comments, bad JSON) and those after `[DONE]`
have none.
-/

namespace OxenClaw

/-- `tc["function"]` of a delta. -/
structure FunctionDelta where
  name : Option String := none
  arguments : Option String := none

/-- One of `delta["tool_calls"]`. -/
structure ToolCallDelta where
  index : ℤ := 0
  id : Option String := none
  type : Option String := none
  function : FunctionDelta := {}

/-- `choices[0]` of an event. -/
structure Choice where
  reasoning : Option String := none
  thinking : Option String := none
  content : Option String := none
  toolCalls : List ToolCallDelta := []
  finishReason : Option String := none

/-- One `data:` event. -/
structure Chunk where
  usage : Option Args := none
  choice : Option Choice := none

/-- A delta's id, name and arguments go into the slot of its index. -/
def ToolCall.merge (slot : ToolCall) (tc : ToolCallDelta) : ToolCall where
  id := if given tc.id = "" then slot.id else given tc.id
  name := slot.name ++ given tc.function.name
  arguments := slot.arguments ++ given tc.function.arguments

/-- A slot that can be announced. -/
def ToolCall.Complete (slot : ToolCall) : Prop :=
  slot.id ≠ "" ∧ slot.name ≠ ""

instance : DecidablePred ToolCall.Complete := fun slot =>
  inferInstanceAs (Decidable (slot.id ≠ "" ∧ slot.name ≠ ""))

namespace OpenaiShared

/-- The variables of the loop. -/
structure StreamState where
  toolBuf : Dict ℤ ToolCall := []
  toolStarted : List ℤ := []
  emittedStop : Bool := false

/-- `slot["id"] and slot["name"]`, for an index not in `tool_started`. -/
def StreamState.Starts (s : StreamState) (idx : ℤ) (slot : ToolCall) : Prop :=
  idx ∉ s.toolStarted ∧ slot.Complete

instance (s : StreamState) (idx : ℤ) (slot : ToolCall) : Decidable (s.Starts idx slot) :=
  inferInstanceAs (Decidable (idx ∉ s.toolStarted ∧ slot.Complete))

/-- The body of `for tc in delta["tool_calls"]`. -/
def StreamState.onToolCall (s : StreamState) (tc : ToolCallDelta) :
    StreamState × List AssistantMessageEvent :=
  let slot := ((s.toolBuf.get? tc.index).getD {}).merge tc
  let started := if s.Starts tc.index slot then s.toolStarted ++ [tc.index] else s.toolStarted
  ({ s with toolBuf := s.toolBuf.update tc.index {} (·.merge tc), toolStarted := started },
    (if s.Starts tc.index slot then [.toolUseStart slot.id slot.name] else []) ++
    (if tc.index ∈ started ∧ given tc.function.arguments ≠ "" then
      [.toolUseInputDelta slot.id (given tc.function.arguments)] else []))

/-- `for tc in delta["tool_calls"]`. -/
def StreamState.onToolCalls :
    StreamState → List ToolCallDelta → StreamState × List AssistantMessageEvent
  | s, [] => (s, [])
  | s, tc :: tcs =>
    let rest := onToolCalls (s.onToolCall tc).1 tcs
    (rest.1, (s.onToolCall tc).2 ++ rest.2)

/-- The end events of the open calls, by index. -/
def StreamState.ends (s : StreamState) : List AssistantMessageEvent :=
  (s.toolStarted.insertionSort (· ≤ ·)).map fun idx =>
    .toolUseEnd ((s.toolBuf.get? idx).getD {}).id

/-- `finish_reason` : the open calls end, then the stream stops. -/
def StreamState.onFinish (s : StreamState) (finish : String) :
    StreamState × List AssistantMessageEvent :=
  if finish = "" then (s, [])
  else ({ s with toolStarted := [], emittedStop := true }, s.ends ++ [.stop finish])

/-- `delta.get("reasoning") or delta.get("thinking")`. -/
def Choice.reasoningText (choice : Choice) : String :=
  if given choice.reasoning = "" then given choice.thinking else given choice.reasoning

/-- The part of the loop's body after the usage. -/
def StreamState.onChoice (s : StreamState) (choice : Choice) :
    StreamState × List AssistantMessageEvent :=
  let calls := s.onToolCalls choice.toolCalls
  let finish := calls.1.onFinish (given choice.finishReason)
  (finish.1,
    textEvent (.thinkingDelta · none) (Choice.reasoningText choice) ++
      textEvent .textDelta (given choice.content) ++ calls.2 ++ finish.2)

/-- The body of the loop. -/
def StreamState.onChunk (s : StreamState) (chunk : Chunk) :
    StreamState × List AssistantMessageEvent :=
  let usage := (chunk.usage.map AssistantMessageEvent.usage).toList
  match chunk.choice with
  | none => (s, usage)
  | some choice => ((s.onChoice choice).1, usage ++ (s.onChoice choice).2)

/-- The loop, and the end events of a stream that never said why it ended. -/
def StreamState.run : StreamState → List Chunk → List AssistantMessageEvent
  | s, [] => if s.emittedStop then [] else s.ends ++ [.stop "end_turn"]
  | s, chunk :: chunks => (s.onChunk chunk).2 ++ run (s.onChunk chunk).1 chunks

/-- `stream_openai_compatible`. -/
def streamOpenaiCompatible (chunks : List Chunk) : List AssistantMessageEvent :=
  StreamState.run {} chunks

end OpenaiShared

end OxenClaw
