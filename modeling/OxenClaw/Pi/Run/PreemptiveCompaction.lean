import OxenClaw.Lib.Dict
import OxenClaw.Lib.Python
import OxenClaw.Pi.Tools

/-!
# Preemptive compaction

Before a model call the run loop estimates the prompt. When it does not fit, every tool
result is cut to its first characters in place (`truncateToolResults`). Cutting changes
contents only, so no call loses its answer (`wellPaired_map_truncateMessage`).

A result of more than `keep_chars` content blocks makes the cut raise, since a list and a
string are added.
-/

namespace OxenClaw.PreemptiveCompaction

open OxenClaw

/-- `CompactionRoute`. -/
inductive CompactionRoute where
  | noop
  | truncateToolResults
  | compactThenSend
  deriving DecidableEq

/-- `CompactionDecision`. -/
structure CompactionDecision where
  route : CompactionRoute
  estimatedPromptTokens : ℤ
  promptBudgetTokens : ℤ
  overflowTokens : ℤ
  toolResultReducibleChars : ℤ

/-- `_FAMILY_RATIOS`, without its default. -/
def familyRatios : Dict String ℚ :=
  [("anthropic", 3), ("claude", 3), ("qwen", 5 / 2), ("llama", 3), ("gemma", 14 / 5),
    ("mistral", 3), ("phi", 3), ("deepseek", 14 / 5)]

/-- `chars_per_token_for`. -/
def charsPerTokenFor (text : PyText) (modelId : String) : ℚ :=
  if modelId = "" then 7 / 2
  else ((familyRatios.find? fun e => Py.contains e.1 (text.lower modelId)).map Prod.snd).getD
    (7 / 2)

/-- `_estimate_tokens_from_text`, of something with `len` items. -/
def estimateTokensFromLength (len : ℕ) (charsPerToken : ℚ) : ℤ :=
  if len = 0 then 0 else max 1 (Py.int (len / charsPerToken))

/-- `len(content)` : characters of a text, blocks of a list. -/
def contentLength : Content → ℕ
  | .text s => s.length
  | .blocks bs => bs.length

/-- `_estimate_message_tokens`. -/
def estimateMessageTokens (charsPerToken : ℚ) : Message → ℤ
  | .user (.text s) => estimateTokensFromLength s.length charsPerToken
  | .user (.blocks bs) => (bs.map fun
      | .text s => estimateTokensFromLength s.length charsPerToken
      | .image _ _ => 0).sum
  | .assistant msg => (msg.content.map fun
      | .text s => estimateTokensFromLength s.length charsPerToken
      | _ => 16).sum
  | .toolResult rs =>
    (rs.map fun r => estimateTokensFromLength (contentLength r.content) charsPerToken).sum
  | .system _ => 0

/-- `estimate_prompt_tokens`. -/
def estimatePromptTokens (system : Option String) (messages : List Message)
    (charsPerToken : ℚ) : ℤ :=
  estimateTokensFromLength (system.getD "").length charsPerToken +
    (messages.map (estimateMessageTokens charsPerToken)).sum

/-- `_tool_result_reducible_chars`. -/
def toolResultReducibleChars (messages : List Message) : ℤ :=
  (messages.map fun m => (m.results.map fun r =>
    if 1024 < contentLength r.content then (contentLength r.content : ℤ) - 1024 else 0).sum).sum

/-- `decide`. -/
def decide (system : Option String) (messages : List Message) (contextWindow : ℤ)
    (thresholdRatio : ℚ) (charsPerToken : ℚ) (reserveTokens : ℤ := 1024) : CompactionDecision :=
  let estimated := estimatePromptTokens system messages charsPerToken
  let budget := max 1 (Py.int (contextWindow * thresholdRatio) - reserveTokens)
  if estimated ≤ budget then ⟨.noop, estimated, budget, 0, 0⟩
  else
    let overflow := estimated - budget
    let reducible := toolResultReducibleChars messages
    let reducibleTokens := Py.int (reducible / charsPerToken)
    if overflow ≤ reducibleTokens then
      ⟨.truncateToolResults, estimated, budget, overflow, reducible⟩
    else ⟨.compactThenSend, estimated, budget, overflow, reducible⟩

/-! ## Cutting tool results -/

/-- The content one result is left with; a list too long to cut stays. -/
def truncateContent (keepChars : ℕ) : Content → Content
  | .text s =>
    if keepChars < s.length then
      .text (String.ofList (s.toList.take keepChars) ++ "\n[...truncated]")
    else .text s
  | .blocks bs => .blocks bs

def truncateMessage (keepChars : ℕ) : Message → Message
  | .toolResult rs =>
    .toolResult (rs.map fun r => { r with content := truncateContent keepChars r.content })
  | m => m

/-- Cutting this content raises. -/
def cutRaises (keepChars : ℕ) : Content → Bool
  | .text _ => false
  | .blocks bs => keepChars < bs.length

/-- `truncate_tool_results` : what the messages become, `none` when it raises. -/
def truncateToolResults (messages : List Message) (keepChars : ℕ := 1024) :
    Option (List Message) :=
  if messages.any fun m => m.results.any fun r => cutRaises keepChars r.content then none
  else some (messages.map (truncateMessage keepChars))

@[simp] theorem toolUses_truncateMessage (k : ℕ) (m : Message) :
    (truncateMessage k m).toolUses = m.toolUses := by
  cases m <;> rfl

theorem map_toolUseId_results_truncateMessage (k : ℕ) (m : Message) :
    (truncateMessage k m).results.map ToolResultBlock.toolUseId =
      m.results.map ToolResultBlock.toolUseId := by
  cases m with
  | toolResult rs => simp [truncateMessage, Function.comp_def]
  | system _ => rfl
  | user _ => rfl
  | assistant _ => rfl

/-- Cutting results keeps a transcript well paired. -/
theorem wellPaired_map_truncateMessage {messages : List Message} (k : ℕ)
    (h : WellPaired messages) : WellPaired (messages.map (truncateMessage k)) := by
  refine Followed.map (truncateMessage k) (fun m hm => ?_) (fun m n hmn tu htu => ?_) h
  · simpa [Message.Calls] using hm
  · rw [toolUses_truncateMessage] at htu
    obtain ⟨r, hr, hid⟩ := hmn tu htu
    have hmem : tu.id ∈ (truncateMessage k n).results.map ToolResultBlock.toolUseId := by
      rw [map_toolUseId_results_truncateMessage, ← hid]
      exact List.mem_map_of_mem hr
    simpa using hmem

end OxenClaw.PreemptiveCompaction
