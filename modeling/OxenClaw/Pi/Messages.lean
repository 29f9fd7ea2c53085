import Mathlib.Data.Rat.Defs
import OxenClaw.Lib.Followed

/-!
# Agent messages

The content blocks and the message union of `pi/messages.py`. JSON values that tools
take as input are `Json`, a Python `dict` with string keys is a list of fields in
insertion order (`Args`).

Two readings of "every tool call is answered" are used. `WellPaired` : the message that
directly follows a tool call has a result for it. `Balanced` : the message that directly
follows has results for exactly the calls made. Both are instances of `Followed`, so
well-paired transcripts can be appended and cut at the front.
-/

namespace OxenClaw

/-- A JSON value. A `float` is the rational it stands for. -/
inductive Json where
  | null
  | bool (b : Bool)
  | int (n : ℤ)
  | float (x : ℚ)
  | str (s : String)
  | arr (xs : List Json)
  | obj (fields : List (String × Json))

/-- A Python `dict[str, Any]`, in insertion order. -/
abbrev Args := List (String × Json)

/-- `d.get(key)`. -/
def Args.get (d : Args) (key : String) : Option Json :=
  (d.find? fun e => e.1 = key).map Prod.snd

/-- Python's truth value of a JSON value. -/
def Json.truthy : Json → Bool
  | .null => false
  | .bool b => b
  | .int n => n ≠ 0
  | .float x => x ≠ 0
  | .str s => s ≠ ""
  | .arr xs => !xs.isEmpty
  | .obj fields => !fields.isEmpty

/-! ## Content blocks -/

/-- `TextContent | ImageContent`. -/
inductive UserBlock where
  | text (text : String)
  | image (mediaType data : String)

/-- A tool the assistant asks for. `id` correlates with the result. -/
structure ToolUseBlock where
  id : String
  name : String
  input : Args := []

/-- `TextContent | ToolUseBlock | ThinkingBlock`. -/
inductive AssistantBlock where
  | text (text : String)
  | toolUse (block : ToolUseBlock)
  | thinking (thinking : String) (signature : Option String)

/-- `str | list[block]`. -/
inductive Content where
  | text (text : String)
  | blocks (blocks : List UserBlock)

/-- The output of one tool call. -/
structure ToolResultBlock where
  toolUseId : String
  content : Content
  isError : Bool := false

/-! ## Messages -/

structure AssistantMessage where
  content : List AssistantBlock
  stopReason : Option String := none
  usage : Option Args := none

/-- The `AgentMessage` union, by role. -/
inductive Message where
  | system (content : String)
  | user (content : Content)
  | assistant (msg : AssistantMessage)
  | toolResult (results : List ToolResultBlock)

/-- The tool call a content block carries. -/
def AssistantBlock.toolUse? : AssistantBlock → Option ToolUseBlock
  | .toolUse b => some b
  | _ => none

/-- `[b for b in msg.content if isinstance(b, ToolUseBlock)]`. -/
def AssistantMessage.toolUses (msg : AssistantMessage) : List ToolUseBlock :=
  msg.content.filterMap AssistantBlock.toolUse?

namespace Message

/-- The tool calls of a message; only assistant messages have some. -/
def toolUses : Message → List ToolUseBlock
  | .assistant msg => msg.toolUses
  | _ => []

/-- The tool results of a message; only tool-result messages have some. -/
def results : Message → List ToolResultBlock
  | .toolResult results => results
  | _ => []

def isUser : Message → Bool
  | .user _ => true
  | _ => false

@[simp] theorem toolUses_system (c : String) : (system c).toolUses = [] := rfl
@[simp] theorem toolUses_user (c : Content) : (user c).toolUses = [] := rfl
@[simp] theorem toolUses_toolResult (rs : List ToolResultBlock) :
    (toolResult rs).toolUses = [] := rfl
@[simp] theorem toolUses_assistant (msg : AssistantMessage) :
    (assistant msg).toolUses = msg.toolUses := rfl

@[simp] theorem results_system (c : String) : (system c).results = [] := rfl
@[simp] theorem results_user (c : Content) : (user c).results = [] := rfl
@[simp] theorem results_assistant (msg : AssistantMessage) : (assistant msg).results = [] := rfl
@[simp] theorem results_toolResult (rs : List ToolResultBlock) : (toolResult rs).results = rs := rfl

/-- The message asks for a tool. -/
def Calls (m : Message) : Prop :=
  m.toolUses ≠ []

instance : DecidablePred Calls := fun m => inferInstanceAs (Decidable (m.toolUses ≠ []))

@[simp] theorem not_calls_system (c : String) : ¬(system c).Calls := by simp [Calls]
@[simp] theorem not_calls_user (c : Content) : ¬(user c).Calls := by simp [Calls]
@[simp] theorem not_calls_toolResult (rs : List ToolResultBlock) : ¬(toolResult rs).Calls := by
  simp [Calls]
@[simp] theorem calls_assistant (msg : AssistantMessage) :
    (assistant msg).Calls ↔ msg.toolUses ≠ [] := Iff.rfl

/-- Each call of `m` has a result in `n`. -/
def AnsweredBy (m n : Message) : Prop :=
  ∀ tu ∈ m.toolUses, ∃ r ∈ n.results, r.toolUseId = tu.id

instance : DecidableRel AnsweredBy := fun m n =>
  inferInstanceAs (Decidable (∀ tu ∈ m.toolUses, ∃ r ∈ n.results, r.toolUseId = tu.id))

/-- `n` is the tool-result message with results for exactly the calls of `m`. -/
def BalancedBy (m n : Message) : Prop :=
  ∃ rs, n = .toolResult rs ∧
    ∀ id, id ∈ rs.map ToolResultBlock.toolUseId ↔ id ∈ m.toolUses.map ToolUseBlock.id

theorem BalancedBy.answeredBy {m n : Message} (h : BalancedBy m n) : AnsweredBy m n := by
  obtain ⟨rs, rfl, hids⟩ := h
  intro tu htu
  simpa using (hids tu.id).2 (List.mem_map_of_mem htu)

end Message

/-- Every tool call is answered in the message that directly follows it. -/
def WellPaired (messages : List Message) : Prop :=
  Followed Message.Calls Message.AnsweredBy messages

instance (messages : List Message) : Decidable (WellPaired messages) :=
  inferInstanceAs (Decidable (Followed Message.Calls Message.AnsweredBy messages))

/-- Every message with tool calls is directly followed by the results of exactly those. -/
def Balanced (messages : List Message) : Prop :=
  Followed Message.Calls Message.BalancedBy messages

theorem Balanced.wellPaired {messages : List Message} (h : Balanced messages) :
    WellPaired messages :=
  Followed.mono (fun _ _ => Message.BalancedBy.answeredBy) h

end OxenClaw
