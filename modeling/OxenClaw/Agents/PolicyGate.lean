import OxenClaw.Agents.PiAgent

/-!
# What a policy among the hooks keeps from running

A structured call executes the tool its name resolves to, with the arguments the hooks leave
(`executed_runOneTool_iff`). The policy is asked by the written name, so a denied tool is
executed where the name is another spelling of the tool's, or a hook before the policy
decided (`Slips`). A call by the registered name that no hook decides about is allowed by the
policy (`denies_eq_false_of_undecided`). A fired call passes no hook.
-/

namespace OxenClaw.PiAgent

open OxenClaw OxenClaw.Run

/-! ## Structured calls -/

/-- The arguments the hooks leave, unless they stop the call. -/
def effectiveArgs (runner : ToolRunner) (moment : Moment) (req : ToolUseBlock) : Option Args :=
  match hookDecision runner moment req with
  | none => some req.input
  | some decision => if decision.abort then none else some (decision.rewriteArgs.getD req.input)

section
variable {runner : ToolRunner} {moment : Moment} {req : ToolUseBlock}

theorem executed_dispatchTool_iff {e : Executed} :
    (dispatchTool runner moment req).executed = some e ↔
      ∃ tool, resolveTool runner.text runner.toolsByName req.name = some tool ∧
        hasParseError req.input = false ∧ e = ⟨tool.name, req.input⟩ := by
  unfold dispatchTool
  rcases resolveTool runner.text runner.toolsByName req.name with _ | tool
  · simp
  · unfold executeToolSafely
    rcases hparse : hasParseError req.input with _ | _
    · simp [eq_comm]
    · simp

/-- A structured call executes what its name resolves to, with the arguments left. -/
theorem executed_runOneTool_iff {e : Executed} :
    (runOneTool runner moment req).executed = some e ↔
      ∃ tool args, resolveTool runner.text runner.toolsByName req.name = some tool ∧
        effectiveArgs runner moment req = some args ∧ hasParseError args = false ∧
        e = ⟨tool.name, args⟩ := by
  unfold runOneTool effectiveArgs
  rcases hookDecision runner moment req with _ | decision
  · simp [executed_dispatchTool_iff]
  · rcases habort : decision.abort with _ | _
    · simp [executed_dispatchTool_iff, habort]
    · simp [habort]

/-- The call executes a tool the policy denies : its written name is not the registered
one, or a hook rewrote its arguments. -/
def Slips (env : PolicyText) (policy : ToolPolicy) (runner : ToolRunner) (moment : Moment)
    (req : ToolUseBlock) : Prop :=
  ∃ tool args, resolveTool runner.text runner.toolsByName req.name = some tool ∧
    effectiveArgs runner moment req = some args ∧ hasParseError args = false ∧
    (req.name ≠ tool.name ∨ (hookDecision runner moment req).isSome = true) ∧
    policy.denies env tool.name args runner.hookContext = true

/-- What runs under its own name with its own arguments, the policy let through. -/
theorem denies_eq_false_of_undecided {env : PolicyText} {policy : ToolPolicy}
    {hooks : HookRunner} (hrunner : runner.hookRunner = some hooks)
    (hmem : policyToHook env policy ∈ hooks.beforeToolUse)
    (hnone : hookDecision runner moment req = none) :
    policy.denies env req.name req.input runner.hookContext = false := by
  rw [hookDecision, hrunner, Option.bind_some] at hnone
  exact denies_eq_false_of_no_decision hmem hnone

/-- A structured call executes nothing denied exactly when it does not slip by. -/
theorem runOneTool_denies_iff {env : PolicyText} {policy : ToolPolicy} {hooks : HookRunner}
    (hrunner : runner.hookRunner = some hooks)
    (hmem : policyToHook env policy ∈ hooks.beforeToolUse) :
    (∀ e, (runOneTool runner moment req).executed = some e →
        policy.denies env e.tool e.args runner.hookContext = false) ↔
      ¬Slips env policy runner moment req := by
  constructor
  · rintro hnone ⟨tool, args, htool, hargs, hparse, -, hdenies⟩
    have hallowed := hnone _ (executed_runOneTool_iff.2 ⟨tool, args, htool, hargs, hparse, rfl⟩)
    rw [hdenies] at hallowed
    cases hallowed
  · intro hslips e he
    obtain ⟨tool, args, htool, hargs, hparse, rfl⟩ := executed_runOneTool_iff.1 he
    by_contra hdenies
    rw [Bool.not_eq_false] at hdenies
    by_cases hname : req.name ≠ tool.name ∨ (hookDecision runner moment req).isSome = true
    · exact hslips ⟨tool, args, htool, hargs, hparse, hname, hdenies⟩
    · obtain ⟨hsame, hundecided⟩ := not_or.1 hname
      have hnone := Option.not_isSome_iff_eq_none.1 hundecided
      have hallowed := denies_eq_false_of_undecided hrunner hmem hnone
      have hinput : req.input = args := by
        rw [effectiveArgs, hnone] at hargs
        exact Option.some.inj hargs
      rw [not_not.1 hsame, hinput] at hallowed
      rw [hdenies] at hallowed
      cases hallowed

end

/-! ## The turn -/

/-- Lower-case text and no regular expression. -/
def plainText : PolicyText where
  text := ⟨id, fun _ => "", fun _ => ""⟩
  regex := ⟨fun _ _ => none, fun _ _ => none⟩

def denySave : ToolPolicy where
  rules := [{ toolName := "memory_save", verdict := .deny }]

/-- A turn whose model calls a tool by the given name and then stops. -/
def savingTurn (name : String) : UserTurn where
  registry :=
    let tool : AgentTool := { name := "memory_save", execute := fun _ _ => .output "saved" }
    ⟨[("memory_save", tool)], [("memory_save", tool)]⟩
  base := {
    model := { id := "llama3.1:8b" }
    history := [.user (.text "remember it")]
    tools := []
    config := { preemptiveCompaction := false }
    text := plainText.text
    hookRunner := some ⟨[policyToHook plainText denySave]⟩
    runAttempt := fun _ => none
    abortSet := fun _ => false
    classifyApiError := fun _ => { reason := .unknown, retryable := false }
    hasImportantTail := fun _ => false
    digest := fun _ => "" }
  runAttempt := fun _ n => some {
    message :=
      if n = 0 then
        { content := [.toolUse ⟨"call_1", name, []⟩], stopReason := some "tool_use" }
      else textMessage "done" "end_turn" }
  abortSet := fun _ _ => false
  loads := fun _ => none
  fakeId := fun _ => "pseudo_1"

end OxenClaw.PiAgent
