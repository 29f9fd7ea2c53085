import OxenClaw.Lib.Dict
import OxenClaw.Lib.Python
import OxenClaw.Pi.Tools

/-!
# Tool policies

A `ToolPolicy` is a chain of rules, the first that matches decides. `policyToHook` makes it
a hook, which stops what a rule denies (`policyToHook_of_denies`). Hooks are asked in order,
so where none decides, the policy did not deny (`denies_eq_false_of_no_decision`).
-/

namespace OxenClaw

/-- The regular expressions of `re`. `none` is `re.error`. -/
structure PyRegex where
  fullmatch : String → String → Option Bool
  search : String → String → Option Bool

/-- `Verdict`. -/
inductive Verdict where
  | allow
  | deny
  | rewrite
  | redirect
  | substitute
  deriving DecidableEq

/-- `ToolPolicyRule`. The predicate is `none` where it raises. -/
structure ToolPolicyRule where
  toolName : String
  verdict : Verdict
  argMatch : Dict String String := []
  senderIn : Option (List String) := none
  predicate : Option (String → Args → HookContext → Option Bool) := none
  denyMessage : String := "tool blocked by policy"
  redirectTo : Option String := none
  rewriteArgs : Option Args := none
  substituteOutput : Option String := none
  name : String := ""

/-- `ToolPolicy`. -/
structure ToolPolicy where
  rules : List ToolPolicyRule := []

/-- What a policy is evaluated with. -/
structure PolicyText where
  text : PyText
  regex : PyRegex

section
variable (env : PolicyText)

/-- `ToolPolicyRule._tool_matches`. -/
def ToolPolicyRule.toolMatches (rule : ToolPolicyRule) (toolName : String) : Bool :=
  match rule.toolName.toList with
  | 'r' :: 'e' :: ':' :: pattern =>
    (env.regex.fullmatch (String.ofList pattern) toolName).getD false
  | _ => rule.toolName = toolName

/-- One entry of `arg_match` : a pattern that does not compile is searched for as text. -/
def argMatches (args : Args) (key pattern : String) : Bool :=
  match args.get key with
  | none => false
  | some .null => false
  | some value =>
    (env.regex.search pattern (env.text.str value)).getD
      (Py.contains pattern (env.text.str value))

/-- `ToolPolicyRule.matches`. -/
def ToolPolicyRule.matchesCall (rule : ToolPolicyRule) (toolName : String) (args : Args)
    (ctx : HookContext) : Bool :=
  rule.toolMatches env toolName &&
    (rule.argMatch.all fun e => argMatches env args e.1 e.2) &&
    (rule.senderIn.all fun senders =>
      senders.any fun s => Py.contains s (ctx.sessionKey.getD "")) &&
    (rule.predicate.all fun p => (p toolName args ctx).getD false)

/-- `ToolPolicy.evaluate`. -/
def ToolPolicy.evaluate (policy : ToolPolicy) (toolName : String) (args : Args)
    (ctx : HookContext) : Option ToolPolicyRule :=
  policy.rules.find? fun rule => rule.matchesCall env toolName args ctx

/-- The rule that decides denies the call. -/
def ToolPolicy.denies (policy : ToolPolicy) (toolName : String) (args : Args)
    (ctx : HookContext) : Bool :=
  (policy.evaluate env toolName args ctx).any fun rule => rule.verdict = .deny

/-- What the hook answers by a rule. -/
def ToolPolicyRule.answer (rule : ToolPolicyRule) : Option BeforeToolUseResult :=
  match rule.verdict with
  | .allow => none
  | .deny => some { abort := true, substituteOutput := some rule.denyMessage }
  | .substitute => some { abort := true, substituteOutput := rule.substituteOutput }
  | .rewrite => some { rewriteArgs := some (rule.rewriteArgs.getD []) }
  | .redirect =>
    let target := (rule.redirectTo.filter (· ≠ "")).getD "<unknown>"
    let label := if rule.name = "" then rule.toolName else rule.name
    some {
      abort := true
      substituteOutput := some <|
        "This tool was redirected by policy: call " ++
          s!"`{target}` instead with the same args. " ++ s!"(rule: {label})" }

/-- `policy_to_hook`. -/
def policyToHook (policy : ToolPolicy) : BeforeToolUseHook := fun _ toolName args ctx =>
  (policy.evaluate env toolName args ctx).bind ToolPolicyRule.answer

end

section
variable {env : PolicyText} {policy : ToolPolicy} {toolName : String} {args : Args}
  {ctx : HookContext} {moment : Moment}

/-- The hook stops what the policy denies. -/
theorem policyToHook_of_denies (moment : Moment)
    (h : policy.denies env toolName args ctx = true) :
    ∃ r, policyToHook env policy moment toolName args ctx = some r ∧ r.abort = true := by
  obtain ⟨rule, hrule, hdeny⟩ := (Option.any_eq_true _ _).1 h
  rw [decide_eq_true_eq] at hdeny
  refine ⟨{ abort := true, substituteOutput := some rule.denyMessage }, ?_, rfl⟩
  rw [policyToHook, hrule, Option.bind_some, ToolPolicyRule.answer, hdeny]

/-- Where no hook decides, the policy among them does not deny. -/
theorem denies_eq_false_of_no_decision {hooks : HookRunner}
    (hmem : policyToHook env policy ∈ hooks.beforeToolUse)
    (h : hooks.runBeforeToolUse moment toolName args ctx = none) :
    policy.denies env toolName args ctx = false := by
  by_contra hdenies
  rw [Bool.not_eq_false] at hdenies
  obtain ⟨r, hr, habort⟩ := policyToHook_of_denies moment hdenies
  have hnone := List.findSome?_eq_none_iff.1 h _ hmem
  rw [hr] at hnone
  simp [Option.filter, BeforeToolUseResult.decides, habort] at hnone

end

end OxenClaw
