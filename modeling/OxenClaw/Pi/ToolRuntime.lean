import OxenClaw.Lib.Glob
import OxenClaw.Pi.Tools

/-!
# The effective tool policy

Which tools the model is shown, and how long a result of each may be.
-/

namespace OxenClaw

/-- `DEFAULT_MAX_TOOL_RESULT_CHARS`. -/
def defaultMaxToolResultChars : ℤ := 32000

/-- `ToolNameAllowlist` : an empty `allow` allows all that `deny` does not match. -/
structure ToolNameAllowlist where
  allow : List String := []
  deny : List String := []

/-- `ToolNameAllowlist.is_allowed`. -/
def ToolNameAllowlist.isAllowed (l : ToolNameAllowlist) (name : String) : Bool :=
  !l.deny.any (fnmatchcase name) && (l.allow.isEmpty || l.allow.any (fnmatchcase name))

/-- Per-tool policy override. -/
structure ToolOverride where
  name : String
  enabled : Bool := true
  maxResultChars : Option ℤ := none

/-- `EffectiveToolPolicy`. -/
structure EffectiveToolPolicy where
  allowlist : ToolNameAllowlist := {}
  overrides : List ToolOverride := []
  defaultMaxResultChars : ℤ := defaultMaxToolResultChars

/-- `EffectiveToolPolicy._override_for`. -/
def EffectiveToolPolicy.overrideFor (policy : EffectiveToolPolicy) (name : String) :
    Option ToolOverride :=
  policy.overrides.find? (·.name = name)

/-- `EffectiveToolPolicy.resolve`. -/
def EffectiveToolPolicy.resolve (policy : EffectiveToolPolicy) (tools : List AgentTool) :
    List AgentTool :=
  tools.filter fun t =>
    policy.allowlist.isAllowed t.name && (policy.overrideFor t.name).all ToolOverride.enabled

/-- `EffectiveToolPolicy.max_chars_for`. -/
def EffectiveToolPolicy.maxCharsFor (policy : EffectiveToolPolicy) (name : String) : ℤ :=
  ((policy.overrideFor name).bind ToolOverride.maxResultChars).getD policy.defaultMaxResultChars

end OxenClaw
