import OxenClaw.Pi.Providers.OpenaiShared

/-!
# The local agent's reading of the same stream

`LocalAgent._consume_sse` : the deltas of a stream collapsed into one response.
-/

namespace OxenClaw.LocalAgent

/-- A slot of `tool_buf`. -/
structure Slot where
  id : String := ""
  type : String := "function"
  name : String := ""
  arguments : String := ""

/-- The body of `for tc in delta["tool_calls"]`. -/
def Slot.merge (slot : Slot) (tc : ToolCallDelta) : Slot where
  id := if given tc.id = "" then slot.id else given tc.id
  type := if given tc.type = "" then slot.type else given tc.type
  name := slot.name ++ given tc.function.name
  arguments := slot.arguments ++ given tc.function.arguments

/-- The id, name and arguments of a slot. -/
def Slot.call (slot : Slot) : ToolCall where
  id := slot.id
  name := slot.name
  arguments := slot.arguments

/-- The variables of the loop. -/
structure SseState where
  contentParts : List String := []
  toolBuf : Dict ℤ Slot := []
  finishReason : Option String := none
  usage : Option Args := none

/-- `for tc in delta["tool_calls"]`. -/
def SseState.onToolCalls (s : SseState) (tcs : List ToolCallDelta) : SseState :=
  { s with toolBuf := tcs.foldl (fun d tc => d.update tc.index {} (·.merge tc)) s.toolBuf }

/-- The part of the loop's body after the usage. -/
def SseState.onChoice (s : SseState) (choice : Choice) : SseState :=
  let s := if given choice.finishReason = "" then s
    else { s with finishReason := choice.finishReason }
  let s := { s with contentParts := s.contentParts ++ choice.content.toList }
  s.onToolCalls choice.toolCalls

/-- The body of the loop. -/
def SseState.onChunk (s : SseState) (chunk : Chunk) : SseState :=
  let s := { s with usage := chunk.usage.or s.usage }
  match chunk.choice with
  | none => s
  | some choice => s.onChoice choice

/-- The response envelope. -/
structure Envelope where
  content : Option String
  toolCalls : List Slot
  finishReason : String
  usage : Option Args

/-- `_consume_sse`. -/
def consumeSse (chunks : List Chunk) : Envelope :=
  let s := chunks.foldl SseState.onChunk {}
  let content := "".intercalate s.contentParts
  let default := if s.toolBuf.isEmpty then "stop" else "tool_calls"
  { content := if content = "" then none else some content
    toolCalls := s.toolBuf.inOrder.map fun i => (s.toolBuf.get? i).getD {}
    finishReason := if given s.finishReason = "" then default else given s.finishReason
    usage := s.usage }

/-! ## The slots -/

/-- The deltas of the stream. -/
def deltasOf (chunks : List Chunk) : List ToolCallDelta :=
  chunks.flatMap fun chunk => (chunk.choice.map Choice.toolCalls).getD []

theorem toolBuf_onChoice (s : SseState) (choice : Choice) :
    (s.onChoice choice).toolBuf =
      choice.toolCalls.foldl (fun d tc => d.update tc.index {} (·.merge tc)) s.toolBuf := by
  unfold SseState.onChoice
  split_ifs <;> rfl

/-- The buffer is gathered by index, whatever else the chunks hold. -/
theorem toolBuf_foldl (chunks : List Chunk) (s : SseState) :
    (chunks.foldl SseState.onChunk s).toolBuf =
      (deltasOf chunks).foldl (fun d tc => d.update tc.index {} (·.merge tc)) s.toolBuf := by
  induction chunks generalizing s with
  | nil => rfl
  | cons chunk chunks ih =>
    rw [List.foldl_cons, ih, deltasOf, deltasOf, List.flatMap_cons, List.foldl_append]
    congr 1
    obtain ⟨usage, choice⟩ := chunk
    cases choice with
    | none => rfl
    | some choice => exact toolBuf_onChoice _ choice

theorem Slot.call_foldl (tcs : List ToolCallDelta) (slot : Slot) :
    (tcs.foldl Slot.merge slot).call = tcs.foldl ToolCall.merge slot.call := by
  induction tcs generalizing slot with
  | nil => rfl
  | cons tc tcs ih => exact ih (slot.merge tc)

/-- The calls are what the deltas of each index make of its slot, by index. -/
theorem calls_consumeSse (chunks : List Chunk) :
    (consumeSse chunks).toolCalls.map Slot.call =
      (keysInOrder ToolCallDelta.index (deltasOf chunks)).map
        (slotOf ToolCallDelta.index {} ToolCall.merge (deltasOf chunks)) := by
  have hbuf : (chunks.foldl SseState.onChunk {}).toolBuf =
      gather ToolCallDelta.index {} Slot.merge (deltasOf chunks) := toolBuf_foldl chunks {}
  rw [consumeSse, hbuf, inOrder_gather, List.map_map]
  refine List.map_congr_left fun i _ => ?_
  rw [Function.comp, getD_gather, slotOf, Slot.call_foldl]
  rfl

end OxenClaw.LocalAgent
