import OxenClaw.Lib.Exchange
import OxenClaw.Lib.Python
import OxenClaw.Pi.Messages

/-!
# Repair of a transcript at session load

`repairIncompleteTurn` drops trailing user messages and answers what is unanswered in one
message at the end. `sanitizeReplayToolCalls` then drops the tool calls a provider would
refuse. `load` is the two in the order a session load applies them.

A provider `Accepts` a transcript when every call is answered before the next user or
assistant message and every result refers to an earlier call. `accepts_load_iff` says of
which transcripts the repair makes one : the synthetic results only help calls that no
user or kept assistant message follows, and the results of a dropped call stay.
-/

namespace OxenClaw.Repair

open OxenClaw Message Exchange

/-- `_INTERRUPTED_TOOL_RESULT_TEXT`. -/
def interruptedToolResultText : String :=
  "(tool execution interrupted: previous turn aborted before this " ++
    "tool finished. Re-emit the call if you still need the result.)"

/-- The counters `repair_incomplete_turn` returns. -/
structure RepairCounters where
  trailingUsersDropped : ℕ := 0
  syntheticToolResultsAdded : ℕ := 0

/-- The ids of all results in the transcript. -/
def resultIds (messages : List Message) : List String :=
  messages.flatMap fun m => m.results.map ToolResultBlock.toolUseId

/-- The ids of all tool calls in the transcript. -/
def callIds (messages : List Message) : List String :=
  messages.flatMap fun m => m.toolUses.map ToolUseBlock.id

/-- A synthetic result for each call whose id is not `answered` yet, once per id. -/
def pendingBlocks : List String → List ToolUseBlock → List ToolResultBlock
  | _, [] => []
  | answered, b :: bs =>
    if b.id ∈ answered then pendingBlocks answered bs
    else ⟨b.id, .text interruptedToolResultText, true⟩ :: pendingBlocks (b.id :: answered) bs

/-- `repair_incomplete_turn`. -/
def repairIncompleteTurn (messages : List Message) : List Message × RepairCounters :=
  let kept := messages.rdropWhile isUser
  let pending := pendingBlocks (resultIds kept) (kept.flatMap toolUses)
  (if pending = [] then kept else kept ++ [.toolResult pending],
    ⟨messages.length - kept.length, pending.length⟩)

/-- `_REPLAY_TOOL_NAME_MAX`. -/
def replayToolNameMax : ℕ := 64

/-- `_is_well_formed`. The type of `input` makes it a dict. -/
def isWellFormed (allowedToolNames : Option (List String)) (block : ToolUseBlock) : Bool :=
  let name := Py.strip block.name.toList
  !(Py.strip block.id.toList).isEmpty && !name.isEmpty && name.length ≤ replayToolNameMax &&
    !name.any Py.isSpace &&
    match allowedToolNames with
    | none => true
    | some allowed => allowed.isEmpty || String.ofList name ∈ allowed

/-- The blocks the sanitiser keeps. -/
def keepsBlock (allowedToolNames : Option (List String)) : AssistantBlock → Bool
  | .toolUse b => isWellFormed allowedToolNames b
  | _ => true

/-- What the sanitiser leaves of one message : nothing of an assistant message that loses
all its blocks. -/
def sanitizeMessage (allowedToolNames : Option (List String)) : Message → Option Message
  | .assistant msg =>
    let newContent := msg.content.filter (keepsBlock allowedToolNames)
    if newContent.length ≠ msg.content.length then
      if newContent = [] then none else some (.assistant { msg with content := newContent })
    else some (.assistant msg)
  | m => some m

/-- `ReplaySanitizeReport`. -/
structure ReplaySanitizeReport where
  droppedBlocks : ℕ
  droppedAssistantMessages : ℕ

/-- `sanitize_replay_tool_calls`. -/
def sanitizeReplayToolCalls (allowedToolNames : Option (List String))
    (messages : List Message) : List Message × ReplaySanitizeReport :=
  (messages.filterMap (sanitizeMessage allowedToolNames),
    ⟨(messages.flatMap toolUses).countP (!isWellFormed allowedToolNames ·),
      messages.countP fun m => (sanitizeMessage allowedToolNames m).isNone⟩)

/-- The end of `_ensure_session`, with the names the registry has. -/
def load (registered : List String) (messages : List Message) : List Message :=
  (sanitizeReplayToolCalls (some registered) (repairIncompleteTurn messages).1).1

/-! ## What a provider accepts -/

/-- User and assistant messages close the window in which calls can be answered. -/
def closes : Message → Bool
  | .user _ => true
  | .assistant _ => true
  | _ => false

def idsOfCalls (m : Message) : List String := m.toolUses.map ToolUseBlock.id
def idsOfResults (m : Message) : List String := m.results.map ToolResultBlock.toolUseId

/-- Every tool call is answered before the next user or assistant message, and every
result refers to a call that occurs earlier. -/
def Accepts (messages : List Message) : Prop :=
  Answered idsOfCalls idsOfResults closes messages ∧ Refers idsOfCalls idsOfResults [] messages

instance (messages : List Message) : Decidable (Accepts messages) :=
  inferInstanceAs (Decidable (_ ∧ _))

/-- A whole turn : a user message and what followed it, every call answered at once. -/
structure Turn where
  messages : List Message
  starts : messages.head?.any isUser
  balanced : Balanced messages
  refers : Refers idsOfCalls idsOfResults [] messages

/-- Turns in a row, each cut off after any of its messages. -/
def Damaged (messages : List Message) : Prop :=
  ∃ cuts : List (Turn × ℕ), messages = cuts.flatMap fun c => c.1.messages.take c.2

/-! ## The condition on the stored transcript -/

section Condition

variable (registered : List String)

/-- The ids of the calls the sanitiser keeps. -/
def keptCallIds (m : Message) : List String :=
  (m.toolUses.filter (isWellFormed (some registered))).map ToolUseBlock.id

/-- A user message, or an assistant message that some block is kept of or that had none. -/
def closesKept : Message → Bool
  | .user _ => true
  | .assistant msg => msg.content.isEmpty || msg.content.any (keepsBlock (some registered))
  | _ => false

/-- What the stored transcript, its trailing user messages apart, must be like. -/
structure Repairable (messages : List Message) : Prop where
  /-- A result refers to an earlier call that is well formed. -/
  refers : Refers (keptCallIds registered) idsOfResults [] (messages.rdropWhile isUser)
  /-- An id that is never answered is the id of a well-formed call. -/
  unanswered : ∀ id ∈ callIds (messages.rdropWhile isUser),
    id ∉ resultIds (messages.rdropWhile isUser) →
      id ∈ (messages.rdropWhile isUser).flatMap (keptCallIds registered)
  /-- A well-formed call is answered in place, or nowhere and then nothing that is kept
  follows it but results. -/
  answered : AnsweredWith (keptCallIds registered) idsOfResults (closesKept registered)
    (· ∉ resultIds (messages.rdropWhile isUser)) (messages.rdropWhile isUser)

end Condition

/-! ## What the two repairs leave -/

theorem mem_pendingBlocks {id : String} :
    ∀ {answered : List String} {bs : List ToolUseBlock},
      id ∈ (pendingBlocks answered bs).map ToolResultBlock.toolUseId ↔
        id ∈ bs.map ToolUseBlock.id ∧ id ∉ answered
  | _, [] => by simp [pendingBlocks]
  | answered, b :: bs => by
    rw [pendingBlocks]
    split_ifs with h
    · rw [mem_pendingBlocks, List.map_cons, List.mem_cons]
      exact ⟨fun ⟨h₁, h₂⟩ => ⟨.inr h₁, h₂⟩, fun ⟨h₁, h₂⟩ =>
        ⟨h₁.resolve_left fun he => h₂ (he ▸ h), h₂⟩⟩
    · rw [List.map_cons, List.mem_cons, mem_pendingBlocks, List.map_cons, List.mem_cons,
        List.mem_cons]
      by_cases he : id = b.id
      · simp [he, h]
      · simp [he]

/-- The ids of the synthetic results : those of calls that nothing answers. -/
theorem mem_pendingBlocks_of_transcript {messages : List Message} {id : String} :
    id ∈ (pendingBlocks (resultIds messages) (messages.flatMap toolUses)).map
        ToolResultBlock.toolUseId ↔
      id ∈ callIds messages ∧ id ∉ resultIds messages := by
  rw [mem_pendingBlocks, callIds, List.map_flatMap]

theorem toolUse?_keepsBlock (allowed : Option (List String)) {b : AssistantBlock}
    {tu : ToolUseBlock} (h : b.toolUse? = some tu) :
    keepsBlock allowed b = isWellFormed allowed tu := by
  cases b with
  | toolUse b => rw [← Option.some.inj h]; rfl
  | text _ => cases h
  | thinking _ _ => cases h

/-- Dropping blocks from a message drops its calls that are not well formed. -/
theorem filterMap_toolUse?_filter (allowed : Option (List String)) :
    ∀ content : List AssistantBlock,
      (content.filter (keepsBlock allowed)).filterMap AssistantBlock.toolUse? =
        (content.filterMap AssistantBlock.toolUse?).filter (isWellFormed allowed)
  | [] => rfl
  | b :: content => by
    have ih := filterMap_toolUse?_filter allowed content
    cases hb : b.toolUse? with
    | none =>
      cases hk : keepsBlock allowed b with
      | true => rw [List.filter_cons_of_pos hk, List.filterMap_cons_none hb, ih,
          List.filterMap_cons_none hb]
      | false => rw [List.filter_cons_of_neg (by simp [hk]), ih, List.filterMap_cons_none hb]
    | some tu =>
      have hk := toolUse?_keepsBlock allowed hb
      cases hw : isWellFormed allowed tu with
      | true => rw [List.filter_cons_of_pos (hk.trans hw), List.filterMap_cons_some hb, ih,
          List.filterMap_cons_some hb, List.filter_cons_of_pos hw]
      | false => rw [List.filter_cons_of_neg (by simp [hk, hw]), ih,
          List.filterMap_cons_some hb, List.filter_cons_of_neg (by simp [hw])]

/-- An assistant message after the sanitiser. -/
theorem sanitizeMessage_assistant (allowed : Option (List String)) (msg : AssistantMessage) :
    sanitizeMessage allowed (.assistant msg) =
      if msg.content ≠ [] ∧ msg.content.filter (keepsBlock allowed) = [] then none
      else some (.assistant { msg with content := msg.content.filter (keepsBlock allowed) }) := by
  rw [sanitizeMessage]
  by_cases hlen : (msg.content.filter (keepsBlock allowed)).length = msg.content.length
  · have hall : msg.content.filter (keepsBlock allowed) = msg.content :=
      List.filter_sublist.eq_of_length hlen
    simp [hall]
  · have hne : msg.content ≠ [] := fun h => hlen (by simp [h])
    simp [hlen, hne]

section Sanitized

variable (registered : List String)

theorem through_idsOfCalls (m : Message) :
    through (sanitizeMessage (some registered)) idsOfCalls m = keptCallIds registered m := by
  cases m with
  | assistant msg =>
    have hids : idsOfCalls (.assistant { msg with
        content := msg.content.filter (keepsBlock (some registered)) }) =
          keptCallIds registered (.assistant msg) :=
      congrArg (List.map ToolUseBlock.id) (filterMap_toolUse?_filter _ msg.content)
    rw [through, sanitizeMessage_assistant]
    split_ifs with h
    · rw [← hids, h.2]
      rfl
    · exact hids
  | system _ => rfl
  | user _ => rfl
  | toolResult _ => rfl

theorem through_idsOfResults (m : Message) :
    through (sanitizeMessage (some registered)) idsOfResults m = idsOfResults m := by
  cases m with
  | assistant msg =>
    rw [through, sanitizeMessage_assistant]
    split_ifs <;> rfl
  | system _ => rfl
  | user _ => rfl
  | toolResult _ => rfl

theorem any_closes_sanitizeMessage (m : Message) :
    (sanitizeMessage (some registered) m).any closes = closesKept registered m := by
  cases m with
  | assistant msg =>
    rw [sanitizeMessage_assistant, closesKept]
    split_ifs with h
    · have hkept : ∀ b ∈ msg.content, ¬keepsBlock (some registered) b = true :=
        List.filter_eq_nil_iff.1 h.2
      simpa [h.1] using hkept
    · by_cases hnil : msg.content = []
      · simp [hnil, closes]
      · obtain ⟨b, hb⟩ := List.exists_mem_of_ne_nil _ fun hf => h ⟨hnil, hf⟩
        have hany : msg.content.any (keepsBlock (some registered)) = true :=
          List.any_eq_true.2 ⟨b, List.mem_filter.1 hb⟩
        simp [hany, closes]
  | system _ => rfl
  | user _ => rfl
  | toolResult _ => rfl

/-- The sanitised transcript, judged by the blocks it keeps. -/
theorem accepts_filterMap_iff (messages : List Message) :
    Accepts (messages.filterMap (sanitizeMessage (some registered))) ↔
      Answered (keptCallIds registered) idsOfResults (closesKept registered) messages ∧
        Refers (keptCallIds registered) idsOfResults [] messages := by
  have hcalls := funext (through_idsOfCalls registered)
  have hresults := funext (through_idsOfResults registered)
  have hcloses := funext (any_closes_sanitizeMessage registered)
  rw [Accepts, Answered, answeredWith_filterMap, refers_filterMap, hcalls, hresults, hcloses]

end Sanitized

theorem mem_callIds_of_mem_keptCallIds {registered : List String} {messages : List Message}
    {m : Message} (hm : m ∈ messages) {id : String} (hid : id ∈ keptCallIds registered m) :
    id ∈ callIds messages := by
  obtain ⟨tu, htu, rfl⟩ := List.mem_map.1 hid
  exact List.mem_flatMap.2 ⟨m, hm, List.mem_map_of_mem (List.mem_of_mem_filter htu)⟩

/-- Exactly the repairable transcripts are loaded as one a provider accepts. -/
theorem accepts_load_iff (registered : List String) (messages : List Message) :
    Accepts (load registered messages) ↔ Repairable registered messages := by
  set kept := messages.rdropWhile isUser with hkept
  set pending := pendingBlocks (resultIds kept) (kept.flatMap toolUses) with hpending
  have hmem : ∀ id, id ∈ pending.map ToolResultBlock.toolUseId ↔
      id ∈ callIds kept ∧ id ∉ resultIds kept := fun _ => mem_pendingBlocks_of_transcript
  -- calls that stay can be answered late exactly when no result has their id
  have hlate : AnsweredWith (keptCallIds registered) idsOfResults (closesKept registered)
        (· ∈ pending.map ToolResultBlock.toolUseId) kept ↔
      AnsweredWith (keptCallIds registered) idsOfResults (closesKept registered)
        (· ∉ resultIds kept) kept :=
    AnsweredWith.congr fun m hm id hid => by
      rw [hmem, and_iff_right (mem_callIds_of_mem_keptCallIds hm hid)]
  have hcond : Repairable registered messages ↔
      Refers (keptCallIds registered) idsOfResults [] kept ∧
        (∀ id ∈ pending.map ToolResultBlock.toolUseId,
          id ∈ kept.flatMap (keptCallIds registered)) ∧
        AnsweredWith (keptCallIds registered) idsOfResults (closesKept registered)
          (· ∈ pending.map ToolResultBlock.toolUseId) kept := by
    rw [hlate]
    refine ⟨fun h => ⟨h.refers, fun id hid => ?_, h.answered⟩,
      fun ⟨h₁, h₂, h₃⟩ => ⟨h₁, fun id h h' => h₂ id ((hmem id).2 ⟨h, h'⟩), h₃⟩⟩
    exact h.unanswered id ((hmem id).1 hid).1 ((hmem id).1 hid).2
  rw [hcond]
  by_cases hnil : pending = []
  · have hload : load registered messages =
        kept.filterMap (sanitizeMessage (some registered)) := by
      simp [load, repairIncompleteTurn, sanitizeReplayToolCalls, ← hkept, ← hpending, hnil]
    rw [hload, accepts_filterMap_iff, hnil]
    simp [and_comm]
  · have hload : load registered messages =
        (kept ++ [Message.toolResult pending]).filterMap (sanitizeMessage (some registered)) := by
      simp [load, repairIncompleteTurn, sanitizeReplayToolCalls, ← hkept, ← hpending, hnil]
    rw [hload, accepts_filterMap_iff, answered_append_replies rfl rfl, refers_append_replies]
    simp only [List.not_mem_nil, or_false]
    tauto

/-- A turn that asks for a tool, gets its result and ends with a text. -/
def toolTurn (call : ToolUseBlock) : Turn where
  messages := [.user (.text "go"), .assistant { content := [.toolUse call] },
    .toolResult [⟨call.id, .text "done", false⟩], .assistant { content := [.text "ok"] }]
  starts := rfl
  balanced := by
    have hpair : BalancedBy (.assistant { content := [.toolUse call] })
        (.toolResult [⟨call.id, .text "done", false⟩]) :=
      ⟨_, rfl, fun id => by simp [AssistantMessage.toolUses, AssistantBlock.toolUse?]⟩
    simp [Balanced, followed_cons_of_not, followed_cons_cons, hpair,
      AssistantMessage.toolUses, AssistantBlock.toolUse?]
  refers := by
    simp [Refers, idsOfResults, idsOfCalls, AssistantMessage.toolUses, AssistantBlock.toolUse?]

/-- A turn cut off before its result and followed by another one stays refused : the
synthetic result comes after the later turn. -/
theorem damaged_not_accepts :
    ¬∀ registered messages, Damaged messages → Accepts (load registered messages) := by
  intro h
  let cuts : List (Turn × ℕ) := [(toolTurn ⟨"t1", "ls", []⟩, 2), (toolTurn ⟨"t2", "ls", []⟩, 4)]
  have haccepts := h ["ls"] _ ⟨cuts, rfl⟩
  have hrefused : ¬Accepts (load ["ls"] (cuts.flatMap fun c => c.1.messages.take c.2)) := by
    decide
  exact hrefused haccepts

end OxenClaw.Repair
