import OxenClaw.Pi.Run.Attempt

/-!
# Streaming events

The union every provider translates its wire format into, and the two places a tool call
passes through on the way : the events about it, and the call as it is put together.
-/

namespace OxenClaw

/-- `AssistantMessageEvent`. -/
inductive AssistantMessageEvent where
  | textDelta (delta : String)
  | thinkingDelta (delta : String) (signature : Option String)
  | toolUseStart (id name : String)
  | toolUseInputDelta (id inputDelta : String)
  | toolUseEnd (id : String)
  | usage (usage : Args)
  | stop (reason : String)
  | error (error : ErrorEvent)

namespace AssistantMessageEvent

/-- The event ends the stream. -/
def isError : AssistantMessageEvent → Bool
  | .error _ => true
  | _ => false

end AssistantMessageEvent

/-- A tool call as it is put together, the arguments in their JSON text. -/
structure ToolCall where
  id : String := ""
  name : String := ""
  arguments : String := ""
  deriving DecidableEq

/-- `x.get(key) or ""`. -/
def given (x : Option String) : String :=
  x.getD ""

/-- An event for a text that is there. -/
def textEvent (event : String → AssistantMessageEvent) (text : String) :
    List AssistantMessageEvent :=
  if text = "" then [] else [event text]

end OxenClaw
