import OxenClaw.Pi.Messages

/-!
# Tools and tool hooks

The tool protocol of `pi/tools.py` and the `before_tool_use` part of `pi/hooks.py`.

A tool or a hook may answer the same call differently each time, so each is a function
of the `Moment` it is called at. `runBeforeToolUse` takes the first hook that aborts or
rewrites; one that raises is passed over like one that has no opinion.
-/

namespace OxenClaw

/-- The built-ins of the language that read Unicode tables or print any value. -/
structure PyText where
  /-- `s.lower()`. -/
  lower : String → String
  /-- `repr(value)`. -/
  repr : Json → String
  /-- `str(value)`. -/
  str : Json → String

/-- When something is called : the turn's round, the model call of that round and the
position in the batch. -/
structure Moment where
  round : ℕ
  call : ℕ
  index : ℕ
  deriving DecidableEq

/-- What one `execute` does. An output that is no string is its JSON text. -/
inductive ToolOutcome where
  | output (text : String)
  | raised (message : String)
  | cancelled

/-- What is read of a tool's JSON input schema. -/
structure InputSchema where
  properties : List String := []
  required : List String := []
  additionalProperties : Bool := false

/-- `AgentTool`. -/
structure AgentTool where
  name : String
  inputSchema : InputSchema := {}
  execute : Moment → Args → ToolOutcome

/-- `ToolExecutionResult`, without its duration. -/
structure ToolExecutionResult where
  id : String
  name : String
  output : String
  isError : Bool := false

/-! ## Hooks -/

/-- Identity passed to every hook. -/
structure HookContext where
  runId : Option String := none
  agentId : Option String := none
  sessionId : Option String := none
  sessionKey : Option String := none
  workspaceDir : Option String := none
  modelProvider : Option String := none
  modelId : Option String := none
  trigger : Option String := none
  channel : Option String := none

/-- `BeforeToolUseResult`. -/
structure BeforeToolUseResult where
  abort : Bool := false
  substituteOutput : Option String := none
  rewriteArgs : Option Args := none

/-- `none` when it has no opinion or raises. -/
abbrev BeforeToolUseHook := Moment → String → Args → HookContext → Option BeforeToolUseResult

/-- `HookRunner`, the hooks that decide about a tool call. -/
structure HookRunner where
  beforeToolUse : List BeforeToolUseHook := []

/-- The result is one `run_before_tool_use` stops at. -/
def BeforeToolUseResult.decides (r : BeforeToolUseResult) : Bool :=
  r.abort || r.rewriteArgs.isSome

/-- `HookRunner.run_before_tool_use`. -/
def HookRunner.runBeforeToolUse (runner : HookRunner) (moment : Moment) (toolName : String)
    (args : Args) (ctx : HookContext) : Option BeforeToolUseResult :=
  runner.beforeToolUse.findSome? fun h =>
    (h moment toolName args ctx).filter BeforeToolUseResult.decides

/-- A hook that stops the call alone decides when it comes first. -/
theorem HookRunner.runBeforeToolUse_cons_of_decides {h : BeforeToolUseHook}
    {hooks : List BeforeToolUseHook} {moment : Moment} {toolName : String} {args : Args}
    {ctx : HookContext} {r : BeforeToolUseResult} (hr : h moment toolName args ctx = some r)
    (hd : r.decides = true) :
    (HookRunner.mk (h :: hooks)).runBeforeToolUse moment toolName args ctx = some r := by
  simp [HookRunner.runBeforeToolUse, hr, hd, Option.filter]

end OxenClaw
