import Mathlib.Data.Nat.Digits.Defs
import OxenClaw.Lib.Dict
import OxenClaw.Lib.Trace
import OxenClaw.Pi.Compaction

/-!
# The structured summarizer pipeline

`structured_summarizer_pipeline` of `pi/compaction.py`. It copies the list of messages, not the
messages, and its first passes write into them : the transcript of the caller is a state that every
pass updates (`PipelineRun.messages`). Messages and blocks are distinct objects.

When no cut is found or the summarizer raises, the transcript is what it was exactly if the passes
had nothing to write (`Quiet`, `pipeline_unchanged_iff`).

The digest, the text of a JSON value, the token estimate and `llm_structured_summarizer`, which only
reads the messages, are parameters.
-/

namespace OxenClaw.Compaction

open OxenClaw Message

/-- What the pipeline is called with. -/
structure PipelineConfig where
  /-- `hashlib.md5(..).hexdigest()[:12]`. -/
  digest : String → String
  /-- `json.dumps`. -/
  dumps : Json → String
  estimateTokens : List Message → ℤ
  /-- `llm_structured_summarizer`, of the messages, the prior summary and the insights. -/
  summarizer : List Message → Option String → Option String → Option String
  priorSummary : Option String := none
  guard : Option CompactionGuard := none
  guardThresholdRatio : ℚ := 1 / 10
  keepTailTurns : ℤ := 6
  insights : Option String := none

/-- `CompactionGuard.record`. -/
def CompactionGuard.record (guard : CompactionGuard) (before after : ℤ) : CompactionGuard :=
  let history := guard.history ++ [(before, after)]
  ⟨history.drop (history.length - 3)⟩

/-- `CompactionGuard.should_skip`. -/
def CompactionGuard.shouldSkip (guard : CompactionGuard) (thresholdRatio : ℚ) : Bool :=
  if guard.history.length < 2 then false
  else (guard.history.drop (guard.history.length - 2)).all (ineffective thresholdRatio)

/-! ## Tool results -/

/-- `_tool_result_body`. -/
def toolResultBody (block : ToolResultBlock) : String :=
  match block.content with
  | .text s => s
  | .blocks bs => "\n".intercalate (bs.filterMap fun
    | .text s => some s
    | .image .. => none)

/-- `_set_tool_result_content`. -/
def setToolResultContent (block : ToolResultBlock) (content : String) : ToolResultBlock :=
  { block with content := .text content }

/-- What stands in for a result that a newer one repeats. -/
def backReference (anchor : String) : String :=
  "[dedup: same as earlier tool_result " ++ anchor ++ "]"

/-- One block of the walk, with the digests `seen` before. -/
def dedupBlock (digest : String → String) (seen : Dict String String) (block : ToolResultBlock) :
    Dict String String × ToolResultBlock :=
  let body := toolResultBody block
  if body.length < 200 then (seen, block)
  else
    match seen.get? (digest body) with
    | some anchor => (seen, setToolResultContent block (backReference anchor))
    | none => (seen.set (digest body) block.toolUseId, block)

def dedupBlocks (digest : String → String) :
    Dict String String → List ToolResultBlock → Dict String String × List ToolResultBlock
  | seen, [] => (seen, [])
  | seen, block :: blocks =>
    let first := dedupBlock digest seen block
    let rest := dedupBlocks digest first.1 blocks
    (rest.1, first.2 :: rest.2)

/-- The walk over the messages, from the last one on. -/
def dedupFrom (digest : String → String) : Dict String String → List Message → List Message
  | _, [] => []
  | seen, .toolResult results :: rest =>
    let walked := dedupBlocks digest seen results
    .toolResult walked.2 :: dedupFrom digest walked.1 rest
  | seen, m :: rest => m :: dedupFrom digest seen rest

/-- `_dedup_tool_results_by_md5`. -/
def dedupToolResults (digest : String → String) (messages : List Message) : List Message :=
  (dedupFrom digest [] messages.reverse).reverse

/-- `f"{n:,}"`. -/
def thousands (n : ℕ) : String :=
  if n < 1000 then n.repr
  else thousands (n / 1000) ++ "," ++ String.ofList ((1000 + n % 1000).repr.toList.drop 1)

/-- `_summarize_tool_result("unknown", body)`, a name that has no line of its own. -/
def summarizeToolResult (body : String) : String :=
  "[unknown] tool result (" ++ thousands body.length ++ " chars)"

/-- One result of the prefix. -/
def pruneResult (block : ToolResultBlock) : ToolResultBlock :=
  let body := toolResultBody block
  if 200 < body.length then setToolResultContent block (summarizeToolResult body) else block

/-! ## Tool calls -/

mutual

/-- `_shrink`, which cuts the strings of a value. -/
def shrink (budget : ℕ) : Json → Json
  | .str s => if budget < s.length then .str ((s.take budget).toString ++ "...(truncated)") else .str s
  | .arr xs => .arr (shrinkList budget xs)
  | .obj fields => .obj (shrinkFields budget fields)
  | j => j

def shrinkList (budget : ℕ) : List Json → List Json
  | [] => []
  | x :: xs => shrink budget x :: shrinkList budget xs

def shrinkFields (budget : ℕ) : List (String × Json) → List (String × Json)
  | [] => []
  | (k, v) :: fields => (k, shrink budget v) :: shrinkFields budget fields

end

/-- One tool call of the prefix. `_truncate_tool_call_args_json` parses the arguments, shrinks their
strings to a quarter of the 4000 characters and dumps them again. -/
def pruneCall (dumps : Json → String) (call : ToolUseBlock) : ToolUseBlock :=
  if 4000 < (dumps (.obj call.input)).length then
    { call with input := shrinkFields (max 64 (4000 / 4)) call.input }
  else call

def pruneAssistantBlock (dumps : Json → String) : AssistantBlock → AssistantBlock
  | .toolUse call => .toolUse (pruneCall dumps call)
  | block => block

/-- One message of the prefix. -/
def pruneMessage (dumps : Json → String) : Message → Message
  | .toolResult results => .toolResult (results.map pruneResult)
  | .assistant msg => .assistant { msg with content := msg.content.map (pruneAssistantBlock dumps) }
  | m => m

def prunePrefix (dumps : Json → String) (cut : ℕ) (messages : List Message) : List Message :=
  (messages.take cut).map (pruneMessage dumps) ++ messages.drop cut

/-! ## The cut -/

def isToolResult : Message → Bool
  | .toolResult _ => true
  | _ => false

/-- `_align_boundary_backward`. -/
def alignBoundaryBackward (messages : List Message) (cut : ℕ) : ℕ :=
  if cut = 0 ∨ messages.length ≤ cut then cut
  else
    match (messages.take cut).reverse.dropWhile isToolResult with
    | m :: before => if m.toolUses = [] then cut else before.length
    | [] => cut

/-- `_ensure_last_user_message_in_tail`. -/
def ensureLastUserMessageInTail (messages : List Message) (cut : ℕ) : ℕ :=
  if messages.length ≤ cut then cut
  else
    match messages.reverse.dropWhile (!·.isUser) with
    | _ :: before => if cut ≤ before.length then cut else before.length
    | [] => cut

/-- Where the pipeline cuts. -/
def cutIndex (keepTailTurns : ℤ) (messages : List Message) : ℕ :=
  let start := (max 1 (messages.length - keepTailTurns)).toNat
  alignBoundaryBackward messages
    (ensureLastUserMessageInTail messages (alignBoundaryBackward messages start))

/-! ## Orphans -/

/-- The results whose call survives, unless none does. -/
def repairResults (surviving : List String) : Message → Message
  | .toolResult results =>
    let kept := results.filter fun r => r.toolUseId ∈ surviving
    if kept.isEmpty then .toolResult results else .toolResult kept
  | m => m

/-- A message that has results, none of them of a call that survives. -/
def orphaned (surviving : List String) (m : Message) : Bool :=
  !m.results.isEmpty && m.results.all fun r => r.toolUseId ∉ surviving

/-- A stub message after each message with calls that have no result. -/
def insertStubs : List String → List Message → List Message
  | _, [] => []
  | missing, m :: rest =>
    let pending := m.toolUses.filter fun b => b.id ∈ missing
    if pending.isEmpty then m :: insertStubs missing rest
    else m :: .toolResult (pending.map fun b =>
        { toolUseId := b.id, isError := false
          content := .text "[tool_result missing — call did not complete in this view]" }) ::
      insertStubs (missing.filter fun i => i ∉ pending.map ToolUseBlock.id) rest

def callIds (messages : List Message) : List String :=
  (messages.flatMap toolUses).map ToolUseBlock.id

/-- `_sanitize_tool_pairs`, of the list. Of the messages themselves it changes the results that are
left of a message (`repairResults`). -/
def sanitizeToolPairs (messages : List Message) : List Message :=
  let surviving := callIds messages
  let resultIds := (messages.flatMap results).map ToolResultBlock.toolUseId
  insertStubs (surviving.filter fun i => i ∉ resultIds)
    ((messages.filter fun m => !orphaned surviving m).map (repairResults surviving))

/-! ## The pipeline -/

/-- How a call ends. -/
inductive Outcome where
  | skipped (messages : List Message)
  | noCut (messages : List Message)
  /-- A cut after the end, `IndexError`. -/
  | outOfRange
  | summarizerRaised
  | compacted (messages : List Message) (priorSummary : Option String)

/-- The transcript of the caller and the guard after the call, and how it ended. -/
structure PipelineRun where
  messages : List Message
  guard : Option CompactionGuard
  outcome : Outcome

/-- `structured_summarizer_pipeline`. -/
def pipeline (cfg : PipelineConfig) (messages : List Message) : PipelineRun :=
  if cfg.guard.any (CompactionGuard.shouldSkip · cfg.guardThresholdRatio) then
    ⟨messages, cfg.guard, .skipped messages⟩
  else if messages.isEmpty then ⟨messages, cfg.guard, .skipped []⟩
  else
    let tokensBefore := cfg.estimateTokens messages
    let deduped := dedupToolResults cfg.digest messages
    let cut := cutIndex cfg.keepTailTurns deduped
    if cut = 0 then
      ⟨deduped, cfg.guard.map (·.record tokensBefore tokensBefore), .noCut deduped⟩
    else
      let pruned := prunePrefix cfg.dumps cut deduped
      if messages.length < cut then ⟨pruned, cfg.guard, .outOfRange⟩
      else
        match cfg.summarizer (pruned.take cut) cfg.priorSummary cfg.insights with
        | none => ⟨pruned, cfg.guard, .summarizerRaised⟩
        | some summary =>
          let tail := pruned.drop cut
          let view := if summary = "" then tail else .system summary :: tail
          let newMessages := sanitizeToolPairs view
          ⟨pruned.take cut ++ tail.map (repairResults (callIds view)),
            cfg.guard.map (·.record tokensBefore (cfg.estimateTokens newMessages)),
            .compacted newMessages (if summary = "" then cfg.priorSummary else some summary)⟩

/-! ## When the passes write nothing -/

/-- The first of the blocks that has the digest, of those long enough to get one. -/
def firstWith (digest : String → String) (blocks : List ToolResultBlock) (d : String) :
    Option ToolResultBlock :=
  blocks.find? fun a => 200 ≤ (toolResultBody a).length && digest (toolResultBody a) = d

/-- A block of the walk, with whether it is in the prefix, which the passes leave as it is. It is
short, or no block before it has its digest and it is not pruned, or it is already what is written
over a repeated block. -/
def Stays (digest : String → String) (before : List (Bool × ToolResultBlock))
    (e : Bool × ToolResultBlock) : Prop :=
  200 ≤ (toolResultBody e.2).length →
    match firstWith digest (before.map Prod.snd) (digest (toolResultBody e.2)) with
    | some a => e.2.content = .text (
        if e.1 = true ∧ 200 < (backReference a.toolUseId).length then
          summarizeToolResult (backReference a.toolUseId)
        else backReference a.toolUseId)
    | none => e.1 = true → (toolResultBody e.2).length = 200

/-- The blocks in the order of the walk, those of the prefix marked. -/
def walked (cut : ℕ) (messages : List Message) : List (Bool × ToolResultBlock) :=
  (messages.drop cut).reverse.flatMap (fun m => m.results.map (false, ·)) ++
    (messages.take cut).reverse.flatMap (fun m => m.results.map (true, ·))

/-- No call of the message has arguments that are shortened. -/
def CallsStay (dumps : Json → String) (m : Message) : Prop :=
  ∀ call ∈ m.toolUses, 4000 < (dumps (.obj call.input)).length →
    shrinkFields (max 64 (4000 / 4)) call.input = call.input

/-- The passes find nothing to write : no tool result is repeated or long, and no call of the prefix
has arguments that are shortened. -/
structure Quiet (cfg : PipelineConfig) (cut : ℕ) (messages : List Message) : Prop where
  results : Justified (Stays cfg.digest) (walked cut messages)
  calls : ∀ m ∈ messages.take cut, CallsStay cfg.dumps m

/-! ### One block -/

theorem length_thousands (n : ℕ) : (thousands n).length ≤ n / 100 + 3 := by
  induction n using Nat.strong_induction_on with
  | _ n ih =>
    rw [thousands]
    split_ifs with hn
    · have := Nat.repr_length n 3 (by omega) (by omega)
      omega
    · have hrest := ih (n / 1000) (by omega)
      have hpad : (String.ofList ((1000 + n % 1000).repr.toList.drop 1)).length ≤ 3 := by
        have := Nat.repr_length (1000 + n % 1000) 4 (by omega) (by omega)
        rw [String.length_ofList, List.length_drop, String.length_toList]
        omega
      have hcomma : ",".length = 1 := by decide +kernel
      rw [String.length_append, String.length_append, hcomma]
      omega

theorem length_enclosed {before after : String} {m n : ℕ} (hbefore : before.length = m)
    (hafter : after.length = n) (s : String) : (before ++ s ++ after).length = m + s.length + n := by
  rw [String.length_append, String.length_append, hbefore, hafter]

theorem length_summarizeToolResult (body : String) :
    (summarizeToolResult body).length = 23 + (thousands body.length).length + 7 :=
  length_enclosed (by decide +kernel) (by decide +kernel) _

/-- A line is not the long body it stands in for. -/
theorem summarizeToolResult_ne {body : String} (h : 200 < body.length) :
    summarizeToolResult body ≠ body := by
  intro heq
  have hthousands := length_thousands body.length
  have hline := length_summarizeToolResult body
  rw [heq] at hline
  omega

theorem setToolResultContent_eq_self {block : ToolResultBlock} {content : String} :
    setToolResultContent block content = block ↔ block.content = .text content := by
  obtain ⟨id, old, isError⟩ := block
  simp [setToolResultContent, eq_comm]

/-- A long body that a block before it has too is not left as it is. -/
theorem not_stays_of_repeated {digest : String → String} {body first second : String}
    (hlong : 200 ≤ body.length) (hline : body ≠ backReference first)
    (hshort : (backReference first).length ≤ 200) :
    ¬Stays digest [(true, ⟨first, .text body, false⟩)] (true, ⟨second, .text body, false⟩) := by
  intro hstays
  have hcontent := hstays hlong
  have hfirst : firstWith digest [⟨first, .text body, false⟩] (digest body)
      = some ⟨first, .text body, false⟩ := by
    simp [firstWith, toolResultBody, hlong]
  simp only [List.map_cons, List.map_nil, toolResultBody, hfirst, hshort.not_gt, and_false,
    if_false] at hcontent
  exact hline (by injection hcontent)

/-- What a block is pruned to, in the prefix or not. -/
def pruneIf (inPrefix : Bool) (block : ToolResultBlock) : ToolResultBlock :=
  if inPrefix then pruneResult block else block

theorem pruneIf_eq_self {inPrefix : Bool} {block : ToolResultBlock}
    (h : 200 ≤ (toolResultBody block).length) :
    pruneIf inPrefix block = block ↔ (inPrefix = true → (toolResultBody block).length = 200) := by
  rw [pruneIf, pruneResult]
  split_ifs with hp hlong
  · rw [setToolResultContent_eq_self]
    refine iff_of_false (fun hcontent => summarizeToolResult_ne hlong ?_) fun himp => ?_
    · conv_rhs => rw [toolResultBody, hcontent]
    · have := himp hp
      omega
  · exact iff_of_true rfl fun _ => by omega
  · exact iff_of_true rfl fun hp' => absurd hp' hp

theorem pruneIf_setToolResultContent (inPrefix : Bool) (block : ToolResultBlock)
    (content : String) : pruneIf inPrefix (setToolResultContent block content)
      = setToolResultContent block (if inPrefix = true ∧ 200 < content.length then
          summarizeToolResult content else content) := by
  have hbody : toolResultBody (setToolResultContent block content) = content := rfl
  rw [pruneIf, pruneResult, hbody]
  split_ifs <;> first | rfl | tauto

/-- The digests seen are those of the blocks, each with the first of its blocks. -/
def Indexes (digest : String → String) (seen : Dict String String)
    (blocks : List ToolResultBlock) : Prop :=
  ∀ d, seen.get? d = (firstWith digest blocks d).map ToolResultBlock.toolUseId

section

variable {digest : String → String} {seen : Dict String String} {before : List ToolResultBlock}

theorem Indexes.dedupBlock (h : Indexes digest seen before) (block : ToolResultBlock) :
    Indexes digest (dedupBlock digest seen block).1 (before ++ [block]) := by
  intro d
  have hsingle : firstWith digest [block] d = if 200 ≤ (toolResultBody block).length ∧
      digest (toolResultBody block) = d then some block else none := by
    rw [firstWith, List.find?_singleton]
    simp only [Bool.and_eq_true, decide_eq_true_eq]
  have happend : firstWith digest (before ++ [block]) d
      = (firstWith digest before d).or (firstWith digest [block] d) :=
    List.find?_append
  rw [happend, Option.map_or, ← h d, hsingle, Compaction.dedupBlock]
  by_cases hshort : (toolResultBody block).length < 200
  · rw [if_pos hshort, if_neg fun hand => absurd hand.1 (not_le.2 hshort), Option.map_none,
      Option.or_none]
  · rw [if_neg hshort]
    cases hseen : seen.get? (digest (toolResultBody block)) with
    | some anchor =>
      by_cases hd : digest (toolResultBody block) = d
      · rw [← hd, hseen, Option.some_or]
      · rw [if_neg fun hand => hd hand.2, Option.map_none, Option.or_none]
    | none =>
      rw [Dict.get?_set]
      by_cases hd : digest (toolResultBody block) = d
      · rw [if_pos hd.symm, if_pos ⟨not_lt.1 hshort, hd⟩, ← hd, hseen]
        rfl
      · rw [if_neg (Ne.symm hd), if_neg fun hand => hd hand.2, Option.map_none, Option.or_none]

/-- A block is left as it is by the walk and by the pruning exactly if it stays. -/
theorem stays_iff (h : Indexes digest seen before) {flagged : List (Bool × ToolResultBlock)}
    (hflagged : flagged.map Prod.snd = before) (inPrefix : Bool) (block : ToolResultBlock) :
    pruneIf inPrefix (Compaction.dedupBlock digest seen block).2 = block ↔
      Stays digest flagged (inPrefix, block) := by
  rw [Stays, hflagged, Compaction.dedupBlock]
  by_cases hshort : (toolResultBody block).length < 200
  · have hkeep : pruneIf inPrefix block = block := by
      have hlong : ¬200 < (toolResultBody block).length := by omega
      rw [pruneIf, pruneResult, if_neg hlong, ite_self]
    simp [hshort, hkeep, Nat.not_le.2 hshort]
  · have hlong := not_lt.1 hshort
    rw [if_neg hshort, h]
    simp only [hlong, true_imp_iff]
    cases firstWith digest before (digest (toolResultBody block)) with
    | none => exact pruneIf_eq_self hlong
    | some a =>
      simp only [Option.map_some]
      rw [pruneIf_setToolResultContent, setToolResultContent_eq_self]

/-- The results of one message. -/
theorem dedupBlocks_iff (h : Indexes digest seen before) {flagged : List (Bool × ToolResultBlock)}
    (hflagged : flagged.map Prod.snd = before) (inPrefix : Bool) (blocks : List ToolResultBlock) :
    Indexes digest (dedupBlocks digest seen blocks).1 (before ++ blocks) ∧
      ((dedupBlocks digest seen blocks).2.map (pruneIf inPrefix) = blocks ↔
        Justified (fun b e => Stays digest (flagged ++ b) e) (blocks.map (inPrefix, ·))) := by
  induction blocks generalizing seen before flagged with
  | nil =>
    refine ⟨?_, iff_of_true rfl justified_nil⟩
    rwa [List.append_nil]
  | cons block blocks ih =>
    have hnext : (flagged ++ [(inPrefix, block)]).map Prod.snd = before ++ [block] := by
      rw [List.map_append, hflagged]
      rfl
    obtain ⟨hindexes, hiff⟩ := ih (h.dedupBlock block) hnext
    rw [List.append_assoc, List.singleton_append] at hindexes
    refine ⟨hindexes, ?_⟩
    simp only [List.append_assoc, List.singleton_append] at hiff
    rw [dedupBlocks, List.map_cons, List.cons_eq_cons, stays_iff h hflagged, hiff, List.map_cons,
      justified_cons, List.append_nil]

/-- What a message of the walk is pruned to, in the prefix or not. -/
def pruneMessageIf (dumps : Json → String) (inPrefix : Bool) (m : Message) : Message :=
  if inPrefix then pruneMessage dumps m else m

theorem pruneMessageIf_toolResult (dumps : Json → String) (inPrefix : Bool)
    (blocks : List ToolResultBlock) : pruneMessageIf dumps inPrefix (.toolResult blocks)
      = .toolResult (blocks.map (pruneIf inPrefix)) := by
  cases inPrefix with
  | true => rfl
  | false => exact congrArg Message.toolResult (List.map_id blocks).symm

theorem pruneCall_eq_self {dumps : Json → String} {call : ToolUseBlock} :
    pruneCall dumps call = call ↔ (4000 < (dumps (.obj call.input)).length →
      shrinkFields (max 64 (4000 / 4)) call.input = call.input) := by
  obtain ⟨id, name, input⟩ := call
  rw [pruneCall]
  split_ifs with hlong
  · simp [hlong]
  · exact iff_of_true rfl fun hlong' => absurd hlong' hlong

/-- A message without results is left as it is exactly if its calls are. -/
theorem pruneMessageIf_eq_self {dumps : Json → String} {inPrefix : Bool} {m : Message}
    (hm : isToolResult m = false) :
    pruneMessageIf dumps inPrefix m = m ↔ (inPrefix = true → CallsStay dumps m) := by
  rw [pruneMessageIf]
  split_ifs with hp
  · simp only [hp, true_imp_iff]
    cases m with
    | toolResult results => exact absurd hm (by simp [isToolResult])
    | system content | user content => exact iff_of_true rfl fun call hcall => by cases hcall
    | assistant msg =>
      obtain ⟨content, stopReason, usage⟩ := msg
      have hmap : content.map (pruneAssistantBlock dumps) = content ↔
          ∀ block ∈ content, pruneAssistantBlock dumps block = block := by
        conv_lhs => rhs; rw [← List.map_id content]
        rw [List.map_inj_left]
        rfl
      simp only [pruneMessage, Message.assistant.injEq, AssistantMessage.mk.injEq, and_true, hmap,
        CallsStay, toolUses, AssistantMessage.toolUses, List.mem_filterMap]
      constructor
      · rintro hall call ⟨block, hblock, hcall⟩
        cases block with
        | toolUse call' =>
          obtain rfl : call' = call := Option.some.inj hcall
          exact pruneCall_eq_self.1 (AssistantBlock.toolUse.inj (hall _ hblock))
        | text s | thinking s signature => cases hcall
      · intro hall block hblock
        cases block with
        | toolUse call =>
          exact congrArg AssistantBlock.toolUse (pruneCall_eq_self.2 (hall call ⟨_, hblock, rfl⟩))
        | text s | thinking s signature => rfl
  · exact iff_of_true rfl fun hp' => absurd hp' hp

theorem dedupFrom_cons_of_not_toolResult {m : Message} (hm : isToolResult m = false)
    (rest : List Message) :
    dedupFrom digest seen (m :: rest) = m :: dedupFrom digest seen rest := by
  cases m with
  | toolResult results => exact absurd hm (by simp [isToolResult])
  | system content | user content | assistant msg => rfl

theorem results_of_not_toolResult {m : Message} (hm : isToolResult m = false) :
    m.results = [] := by
  cases m with
  | toolResult results => exact absurd hm (by simp [isToolResult])
  | system content | user content | assistant msg => rfl

/-- A stretch of the walk is left as it is exactly if its blocks and its calls are, and the walk
goes on with what it has seen. -/
theorem dedupFrom_iff (h : Indexes digest seen before) {flagged : List (Bool × ToolResultBlock)}
    (hflagged : flagged.map Prod.snd = before) (dumps : Json → String) (inPrefix : Bool)
    (messages : List Message) :
    ((dedupFrom digest seen messages).map (pruneMessageIf dumps inPrefix) = messages ↔
      Justified (fun b e => Stays digest (flagged ++ b) e)
          (messages.flatMap fun m => m.results.map (inPrefix, ·)) ∧
        (inPrefix = true → ∀ m ∈ messages, CallsStay dumps m)) ∧
      ∃ seen', Indexes digest seen' (before ++ messages.flatMap results) ∧ ∀ rest,
        dedupFrom digest seen (messages ++ rest)
          = dedupFrom digest seen messages ++ dedupFrom digest seen' rest := by
  induction messages generalizing seen before flagged with
  | nil =>
    refine ⟨iff_of_true rfl ⟨justified_nil, fun _ m hm => absurd hm List.not_mem_nil⟩,
      seen, ?_, fun rest => rfl⟩
    rwa [List.flatMap_nil, List.append_nil]
  | cons m messages ih =>
    cases hm : isToolResult m with
    | false =>
      obtain ⟨hiff, seen', hseen', hrest⟩ := ih h hflagged
      have hresults := results_of_not_toolResult hm
      constructor
      · rw [dedupFrom_cons_of_not_toolResult hm, List.map_cons, List.cons_eq_cons, hiff,
          pruneMessageIf_eq_self hm, List.flatMap_cons, hresults, List.map_nil, List.nil_append]
        simp only [List.forall_mem_cons]
        tauto
      · refine ⟨seen', ?_, fun rest => ?_⟩
        · rwa [List.flatMap_cons, hresults, List.nil_append]
        · rw [List.cons_append, dedupFrom_cons_of_not_toolResult hm, hrest,
            dedupFrom_cons_of_not_toolResult hm, List.cons_append]
    | true =>
      cases m with
      | system content | user content | assistant msg => cases hm
      | toolResult blocks =>
        obtain ⟨hindexes, hblocks⟩ := dedupBlocks_iff h hflagged inPrefix blocks
        have hnext : (flagged ++ blocks.map (inPrefix, ·)).map Prod.snd = before ++ blocks := by
          rw [List.map_append, hflagged, List.map_map]
          exact congrArg (before ++ ·) (List.map_id blocks)
        obtain ⟨hiff, seen', hseen', hrest⟩ := ih hindexes hnext
        simp only [List.append_assoc] at hiff hseen'
        have hcalls : CallsStay dumps (.toolResult blocks) := fun call hcall => by cases hcall
        constructor
        · rw [dedupFrom, List.map_cons, List.cons_eq_cons, pruneMessageIf_toolResult,
            Message.toolResult.injEq, hblocks, hiff, List.flatMap_cons, results_toolResult,
            justified_append]
          simp only [List.forall_mem_cons, hcalls, true_and]
          exact and_assoc.symm
        · refine ⟨seen', ?_, fun rest => ?_⟩
          · rwa [List.flatMap_cons]
          · rw [List.cons_append, dedupFrom, hrest, dedupFrom, List.cons_append]

end

/-! ### The cut stays where it is -/

/-- What the cut reads of a message. -/
def SameKind (m m' : Message) : Prop :=
  isToolResult m = isToolResult m' ∧ m.isUser = m'.isUser ∧ m.toolUses = m'.toolUses

theorem SameKind.refl (m : Message) : SameKind m m :=
  ⟨rfl, rfl, rfl⟩

theorem forall₂_dropWhile {α : Type} {R : α → α → Prop} {p : α → Bool} {l l' : List α}
    (h : List.Forall₂ R l l') (hp : ∀ a b, R a b → p a = p b) :
    List.Forall₂ R (l.dropWhile p) (l'.dropWhile p) := by
  induction h with
  | nil => exact .nil
  | cons hab htail ih =>
    rw [List.dropWhile_cons, List.dropWhile_cons, hp _ _ hab]
    split_ifs
    · exact ih
    · exact .cons hab htail

theorem forall₂_dedupFrom (digest : String → String) (seen : Dict String String)
    (messages : List Message) :
    List.Forall₂ SameKind (dedupFrom digest seen messages) messages := by
  induction messages generalizing seen with
  | nil => exact .nil
  | cons m messages ih =>
    cases m with
    | toolResult results => exact .cons ⟨rfl, rfl, rfl⟩ (ih _)
    | system content | user content | assistant msg => exact .cons (SameKind.refl _) (ih _)

theorem forall₂_dedupToolResults (digest : String → String) (messages : List Message) :
    List.Forall₂ SameKind (dedupToolResults digest messages) messages := by
  have h := List.rel_reverse (forall₂_dedupFrom digest [] messages.reverse)
  rwa [List.reverse_reverse] at h

section

variable {ms ms' : List Message}

theorem alignBoundaryBackward_congr (h : List.Forall₂ SameKind ms ms') (cut : ℕ) :
    alignBoundaryBackward ms cut = alignBoundaryBackward ms' cut := by
  have hdrop := forall₂_dropWhile (p := isToolResult)
    (List.rel_reverse (List.forall₂_take cut h)) fun _ _ hab => hab.1
  rw [alignBoundaryBackward, alignBoundaryBackward, h.length_eq]
  generalize (ms.take cut).reverse.dropWhile isToolResult = before,
    (ms'.take cut).reverse.dropWhile isToolResult = before' at hdrop ⊢
  cases hdrop with
  | nil => rfl
  | cons hab htail => simp only [hab.2.2, htail.length_eq]

theorem ensureLastUserMessageInTail_congr (h : List.Forall₂ SameKind ms ms') (cut : ℕ) :
    ensureLastUserMessageInTail ms cut = ensureLastUserMessageInTail ms' cut := by
  have hdrop := forall₂_dropWhile (p := fun m => !m.isUser) (List.rel_reverse h)
    fun _ _ hab => congrArg (!·) hab.2.1
  rw [ensureLastUserMessageInTail, ensureLastUserMessageInTail, h.length_eq]
  generalize ms.reverse.dropWhile (fun m => !m.isUser) = before,
    ms'.reverse.dropWhile (fun m => !m.isUser) = before' at hdrop ⊢
  cases hdrop with
  | nil => rfl
  | cons hab htail => simp only [htail.length_eq]

theorem cutIndex_congr (h : List.Forall₂ SameKind ms ms') (keepTailTurns : ℤ) :
    cutIndex keepTailTurns ms = cutIndex keepTailTurns ms' := by
  simp only [cutIndex, alignBoundaryBackward_congr h, ensureLastUserMessageInTail_congr h,
    h.length_eq]

end

/-! ### The whole transcript -/

/-- The passes leave the transcript as it is exactly if they find nothing to write. -/
theorem prunePrefix_dedup_eq_self_iff (cfg : PipelineConfig) {cut : ℕ} {messages : List Message}
    (hcut : cut ≤ messages.length) :
    prunePrefix cfg.dumps cut (dedupToolResults cfg.digest messages) = messages ↔
      Quiet cfg cut messages := by
  have hempty : Indexes cfg.digest [] [] := fun d => rfl
  have hnone : ([] : List (Bool × ToolResultBlock)).map Prod.snd = [] := rfl
  obtain ⟨htail, seen, hseen, hrest⟩ :=
    dedupFrom_iff hempty hnone cfg.dumps false (messages.drop cut).reverse
  have hflagged : ((messages.drop cut).reverse.flatMap fun m => m.results.map (false, ·)).map
      Prod.snd = [] ++ (messages.drop cut).reverse.flatMap results := by
    rw [List.nil_append, List.map_flatMap]
    simp [Function.comp_def]
  obtain ⟨hhead, -⟩ := dedupFrom_iff hseen hflagged cfg.dumps true (messages.take cut).reverse
  have hwalk : dedupToolResults cfg.digest messages
      = (dedupFrom cfg.digest seen (messages.take cut).reverse).reverse ++
        (dedupFrom cfg.digest [] (messages.drop cut).reverse).reverse := by
    rw [dedupToolResults, ← List.reverse_append, ← hrest, ← List.reverse_append,
      List.take_append_drop]
  have hlen : (dedupFrom cfg.digest seen (messages.take cut).reverse).reverse.length = cut := by
    rw [List.length_reverse, (forall₂_dedupFrom _ _ _).length_eq, List.length_reverse,
      List.length_take, min_eq_left hcut]
  have hfalse : (dedupFrom cfg.digest [] (messages.drop cut).reverse).map
      (pruneMessageIf cfg.dumps false) = dedupFrom cfg.digest [] (messages.drop cut).reverse :=
    List.map_id _
  rw [prunePrefix, hwalk, List.take_left' hlen, List.drop_left' hlen]
  conv_lhs => rhs; rw [← List.take_append_drop cut messages]
  have hsplit : ((dedupFrom cfg.digest seen (messages.take cut).reverse).reverse.map
        (pruneMessage cfg.dumps) ++ (dedupFrom cfg.digest [] (messages.drop cut).reverse).reverse
      = messages.take cut ++ messages.drop cut) ↔
      (dedupFrom cfg.digest seen (messages.take cut).reverse).map (pruneMessageIf cfg.dumps true)
          = (messages.take cut).reverse ∧
        (dedupFrom cfg.digest [] (messages.drop cut).reverse).map (pruneMessageIf cfg.dumps false)
          = (messages.drop cut).reverse := by
    rw [hfalse]
    constructor
    · intro heq
      obtain ⟨hfront, hback⟩ := List.append_inj heq (by
        rw [List.length_map, hlen, List.length_take, min_eq_left hcut])
      exact ⟨List.reverse_injective ((List.map_reverse.symm.trans hfront).trans
        (List.reverse_reverse _).symm), List.reverse_injective (hback.trans
          (List.reverse_reverse _).symm)⟩
    · rintro ⟨hfront, hback⟩
      have hmap : (pruneMessageIf cfg.dumps true : Message → Message) = pruneMessage cfg.dumps :=
        rfl
      rw [List.map_reverse, ← hmap, hfront, hback, List.reverse_reverse, List.reverse_reverse]
  rw [hsplit, hhead, htail]
  simp only [List.nil_append, true_imp_iff, List.mem_reverse, Bool.false_eq_true, false_imp_iff,
    and_true]
  constructor
  · rintro ⟨⟨hfirst, hcalls⟩, hresults⟩
    exact ⟨justified_append.2 ⟨hresults, hfirst⟩, hcalls⟩
  · rintro ⟨hresults, hcalls⟩
    exact ⟨⟨(justified_append.1 hresults).2, hcalls⟩, (justified_append.1 hresults).1⟩

/-- When no cut is found or the summarizer raises, the transcript of the caller is what it was
exactly if the passes found nothing to write. -/
theorem pipeline_unchanged_iff {cfg : PipelineConfig} {messages : List Message}
    (h : (∃ view, (pipeline cfg messages).outcome = .noCut view) ∨
      (pipeline cfg messages).outcome = .summarizerRaised) :
    (pipeline cfg messages).messages = messages ↔
      Quiet cfg (cutIndex cfg.keepTailTurns messages) messages := by
  have hcutIndex := cutIndex_congr (forall₂_dedupToolResults cfg.digest messages) cfg.keepTailTurns
  simp only [pipeline] at h ⊢
  split_ifs at h ⊢ with hskip hnil hcut hrange
  · simp at h
  · simp at h
  · rw [hcutIndex] at hcut
    have hsame := prunePrefix_dedup_eq_self_iff cfg (Nat.zero_le messages.length)
    rw [hcut]
    exact hsame
  · simp at h
  · have hle := not_lt.1 hrange
    rw [hcutIndex] at hle h ⊢
    generalize hsummary : cfg.summarizer _ _ _ = summary at h ⊢
    cases summary with
    | none => exact prunePrefix_dedup_eq_self_iff cfg hle
    | some text => simp at h

/-- A summarizer that raises. -/
def raising : PipelineConfig where
  digest := id
  dumps := fun _ => ""
  estimateTokens := fun _ => 0
  summarizer := fun _ _ _ => none
  keepTailTurns := 1

theorem pipeline_unchanged_iff_raising :
    (pipeline raising [.user (.text "hi"), .user (.text "go on")]).messages
        = [.user (.text "hi"), .user (.text "go on")] ↔
      Quiet raising (cutIndex 1 [.user (.text "hi"), .user (.text "go on")])
        [.user (.text "hi"), .user (.text "go on")] :=
  pipeline_unchanged_iff (.inr rfl)

/-- A tool called twice with one result, and a last turn. -/
def sameResultTwice : List Message :=
  let output := String.ofList (List.replicate 200 'x')
  let call (id : String) : Message := .assistant { content := [.toolUse { id, name := "grep" }] }
  let answer (id : String) : Message :=
    .toolResult [{ toolUseId := id, content := .text output, isError := false }]
  [.user (.text "hi"), call "t1", answer "t1", call "t2", answer "t2",
    .assistant { content := [.text "done"] }, .user (.text "go on")]

/-- The older of two equal results is gone after a call whose summarizer raised. -/
theorem pipeline_loses_result :
    ¬∀ (cfg : PipelineConfig) (messages : List Message),
      (∃ view, (pipeline cfg messages).outcome = .noCut view) ∨
        (pipeline cfg messages).outcome = .summarizerRaised →
      (pipeline cfg messages).messages = messages := by
  intro hall
  have hquiet : Quiet raising 6 sameResultTwice :=
    (prunePrefix_dedup_eq_self_iff raising (by decide)).1 (hall raising sameResultTwice (.inr rfl))
  have hlong : 200 ≤ (String.ofList (List.replicate 200 'x')).length := by
    rw [String.length_ofList, List.length_replicate]
  have hwalked : Justified (Stays id)
      [(true, ⟨"t2", .text (String.ofList (List.replicate 200 'x')), false⟩),
        (true, ⟨"t1", .text (String.ofList (List.replicate 200 'x')), false⟩)] := hquiet.results
  generalize hbody : String.ofList (List.replicate 200 'x') = body at hlong hwalked
  have hline : body ≠ backReference "t2" := by
    rw [← hbody]
    decide +kernel
  have hrepeated := (justified_cons.1 (justified_cons.1 hwalked).2).1
  exact not_stays_of_repeated hlong hline (by decide +kernel) hrepeated

end OxenClaw.Compaction
