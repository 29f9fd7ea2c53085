import OxenClaw.Lib.Slots
import OxenClaw.Lib.Traverse
import OxenClaw.Pi.Run.JsonRepair
import OxenClaw.Pi.Streaming

/-!
# From the events of a stream to the message

`run_attempt` : what it collects while the stream runs (`Collected`), and the message it
assembles at the end (`Collected.message`). Tool calls are buffered by their id
(`ToolBuffer`) and come out in the order of their start events.

`json.loads`, `str.lower` and the regular expressions' IGNORECASE are parameters. `none` is
the `ValidationError` of a `ToolUseBlock` whose input is no object.
-/

namespace OxenClaw

/-- A slot of `tool_buf`. -/
structure ToolSlot where
  name : String := ""
  args : String := ""

/-- `tool_buf` and `tool_order`. -/
structure ToolBuffer where
  toolBuf : Dict String ToolSlot := []
  toolOrder : List String := []

/-- What `run_attempt` collects. -/
structure Collected where
  textParts : List String := []
  thinkingParts : List String := []
  thinkingSignature : Option String := none
  tools : ToolBuffer := {}
  usage : Option Args := none
  error : Option ErrorEvent := none
  stopReason : Option String := none
  textEmitted : Bool := false

/-- The tool events of the loop. -/
def ToolBuffer.read (b : ToolBuffer) : AssistantMessageEvent → ToolBuffer
  | .toolUseStart id name =>
    { toolBuf := b.toolBuf.set id { name := name }, toolOrder := b.toolOrder ++ [id] }
  | .toolUseInputDelta id inputDelta =>
    { b with toolBuf := b.toolBuf.update id {} fun slot =>
        { slot with args := slot.args ++ inputDelta } }
  | _ => b

/-- One event of the loop. -/
def Collected.read (c : Collected) : AssistantMessageEvent → Collected
  | .textDelta delta =>
    { c with
      textParts := c.textParts ++ [delta]
      textEmitted := c.textEmitted || delta ≠ "" }
  | .thinkingDelta delta signature =>
    { c with
      thinkingParts := if delta = "" then c.thinkingParts else c.thinkingParts ++ [delta]
      thinkingSignature := if given signature = "" then c.thinkingSignature else signature }
  | .usage usage => { c with usage := some usage }
  | .stop reason => { c with stopReason := some reason }
  | .error error => { c with error := some error }
  | event => { c with tools := c.tools.read event }

/-- The loop of `run_attempt` : an error event ends it. -/
def collect : Collected → List AssistantMessageEvent → Collected
  | c, [] => c
  | c, event :: events => if event.isError then c.read event else collect (c.read event) events

/-! ## Thinking tags in the text -/

/-- A literal of a regular expression matches here. -/
def literalAt (sameLetter : Char → Char → Bool) (literal s : List Char) : Bool :=
  literal.length ≤ s.length && (literal.zip s).all fun p => sameLetter p.1 p.2

/-- How far the first `</think>` reaches. -/
def closeEnd (sameLetter : Char → Char → Bool) : List Char → Option ℕ
  | [] => none
  | c :: cs =>
    if literalAt sameLetter "</think>".toList (c :: cs) then some 8
    else (closeEnd sameLetter cs).map (· + 1)

/-- The length of a match of `_THINK_TAG_RE` at the front. -/
def tagLength (sameLetter : Char → Char → Bool) (s : List Char) : Option ℕ :=
  if literalAt sameLetter "<think>".toList s then (closeEnd sameLetter (s.drop 7)).map (· + 7)
  else none

/-- The text outside of the matches, and the matches. The number counts what is left of the
match the scan is in. -/
def splitTags (sameLetter : Char → Char → Bool) : ℕ → List Char → List Char × List (List Char)
  | _, [] => ([], [])
  | n + 1, _ :: cs => splitTags sameLetter n cs
  | 0, c :: cs =>
    match tagLength sameLetter (c :: cs) with
    | some n =>
      let rest := splitTags sameLetter (n - 1) cs
      (rest.1, (c :: cs).take n :: rest.2)
    | none =>
      let rest := splitTags sameLetter 0 cs
      (c :: rest.1, rest.2)

/-- `_split_thinking_tags`. -/
def splitThinkingTags (lower : String → String) (sameLetter : Char → Char → Bool)
    (text : String) : String × String :=
  if Py.contains "<think" (lower text) then
    let parts := splitTags sameLetter 0 text.toList
    (Py.stripString (String.ofList parts.1), "\n".intercalate (parts.2.map String.ofList))
  else (text, "")

/-! ## The message -/

/-- The calls in the order of their start events. A start event stores the slot, so the
lookup finds it (`ToolBuffer.mem_keys_of_mem_toolOrder`). -/
def ToolBuffer.calls (b : ToolBuffer) : List ToolCall :=
  b.toolOrder.map fun tid =>
    let slot := (b.toolBuf.get? tid).getD {}
    { id := tid, name := slot.name, arguments := slot.args }

/-- `ToolUseBlock(id=…, name=…, input=…)`. -/
def toolUseBlock (id name : String) : Json → Option ToolUseBlock
  | .obj fields => some { id := id, name := name, input := fields }
  | _ => none

/-- The block of one call. -/
def toolBlock (loads : String → Option Json) (call : ToolCall) : Option ToolUseBlock :=
  let flagged : Args := [("_raw", .str call.arguments), ("_parse_error", .bool true)]
  if call.name = "" then toolUseBlock call.id "_unknown" (.obj flagged)
  else if call.arguments = "" then toolUseBlock call.id call.name (.obj [])
  else
    match (JsonRepair.repairAndParse loads call.arguments).1 with
    | .null => toolUseBlock call.id call.name (.obj flagged)
    | parsed => toolUseBlock call.id call.name parsed

/-- The blocks before the tool calls. -/
def Collected.spoken (lower : String → String) (sameLetter : Char → Char → Bool)
    (c : Collected) : List AssistantBlock :=
  let thinking := "".intercalate c.thinkingParts
  let thought := if c.thinkingParts = [] then []
    else [AssistantBlock.thinking thinking c.thinkingSignature]
  if c.textParts = [] then thought
  else
    let (visible, leaked) := splitThinkingTags lower sameLetter ("".intercalate c.textParts)
    let thought := if leaked = "" then thought
      else if c.thinkingParts = [] then [.thinking leaked none]
      else [.thinking (Py.stripString (thinking ++ "\n" ++ leaked)) c.thinkingSignature]
    if visible = "" then thought else thought ++ [.text visible]

/-- The assembled message. -/
def Collected.message (lower : String → String) (sameLetter : Char → Char → Bool)
    (loads : String → Option Json) (c : Collected) : Option AssistantMessage := do
  let blocks ← c.tools.calls.mapM (toolBlock loads)
  let content := c.spoken lower sameLetter ++ blocks.map .toolUse
  return {
    content := if content.isEmpty then [.text ""] else content
    stopReason := some (if given c.stopReason = "" then
        (if c.error.isSome then "error" else "end_turn") else given c.stopReason)
    usage := c.usage }

/-- `run_attempt`, over the events of the provider's stream. -/
def runAttempt (lower : String → String) (sameLetter : Char → Char → Bool)
    (loads : String → Option Json) (events : List AssistantMessageEvent) :
    Option AttemptResult := do
  let c := collect {} events
  let message ← c.message lower sameLetter loads
  return { message, usage := c.usage, error := c.error, textEmitted := c.textEmitted }

/-! ## What becomes of the tool calls -/

section

variable {loads : String → Option Json} {lower : String → String}
  {sameLetter : Char → Char → Bool}

/-- No event is an error. -/
def NoError (events : List AssistantMessageEvent) : Prop :=
  ∀ event ∈ events, event.isError = false

theorem noError_append {es fs : List AssistantMessageEvent} :
    NoError (es ++ fs) ↔ NoError es ∧ NoError fs :=
  List.forall_mem_append

theorem noError_singleton {event : AssistantMessageEvent} (h : event.isError = false) :
    NoError [event] :=
  List.forall_mem_singleton.2 h

theorem noError_ite {p : Prop} [Decidable p] {event : AssistantMessageEvent}
    (h : event.isError = false) : NoError (if p then [event] else []) := by
  split_ifs
  · exact noError_singleton h
  · exact List.forall_mem_nil _

theorem noError_textEvent {event : String → AssistantMessageEvent}
    (hevent : ∀ text, (event text).isError = false) (text : String) :
    NoError (textEvent event text) := by
  rw [textEvent]
  split_ifs
  · exact List.forall_mem_nil _
  · exact noError_singleton (hevent text)

/-- Text and thinking leave the calls alone. -/
theorem foldl_textEvent (event : String → AssistantMessageEvent)
    (hevent : ∀ text (b : ToolBuffer), b.read (event text) = b) (text : String)
    (b : ToolBuffer) : (textEvent event text).foldl ToolBuffer.read b = b := by
  rw [textEvent]
  split_ifs
  · rfl
  · exact hevent text b

/-- Only tool events change the buffer. -/
theorem tools_collect {events : List AssistantMessageEvent} (h : NoError events) (c : Collected) :
    (collect c events).tools = events.foldl ToolBuffer.read c.tools := by
  induction events generalizing c with
  | nil => rfl
  | cons event events ih =>
    have herror := h event List.mem_cons_self
    rw [collect, herror, if_neg Bool.false_ne_true, List.foldl_cons,
      ih fun e he => h e (List.mem_cons_of_mem _ he)]
    cases event <;> rfl

/-- Every started call has its slot. -/
theorem ToolBuffer.mem_keys_of_mem_toolOrder (events : List AssistantMessageEvent) :
    ∀ tid ∈ (events.foldl ToolBuffer.read {}).toolOrder,
      tid ∈ (events.foldl ToolBuffer.read {}).toolBuf.keys := by
  induction events using List.reverseRecOn with
  | nil => exact fun _ h => h
  | append_singleton events event ih =>
    intro tid h
    rw [List.foldl_append] at h ⊢
    have hset : ∀ {d : Dict String ToolSlot} {k : String} {slot : ToolSlot},
        tid ∈ d.keys ∨ tid = k → tid ∈ (d.set k slot).keys := by
      intro d k slot hd
      rw [Dict.keys_set]
      split_ifs with hk
      · exact hd.elim id fun he => he ▸ hk
      · exact List.mem_append.2 (hd.imp_right List.mem_singleton.2)
    cases event with
    | toolUseStart id name =>
      exact hset ((List.mem_append.1 h).imp (ih tid) List.mem_singleton.1)
    | toolUseInputDelta id inputDelta => exact hset (Or.inl (ih tid h))
    | _ => exact ih tid h

/-- The event for a fragment of arguments. -/
def fragment (id args : String) : List AssistantMessageEvent :=
  if args ≠ "" then [.toolUseInputDelta id args] else []

/-- A fragment goes to the slot of its id. -/
theorem read_fragment {b : ToolBuffer} {id : String} (args : String) {held : ToolSlot}
    (h : b.toolBuf.get? id = some held) :
    ((fragment id args).foldl ToolBuffer.read b).toolOrder = b.toolOrder ∧
      ∀ x, ((fragment id args).foldl ToolBuffer.read b).toolBuf.get? x =
        if x = id then some { held with args := held.args ++ args } else b.toolBuf.get? x := by
  rw [fragment]
  split_ifs with hargs
  · refine ⟨rfl, fun x => ?_⟩
    rw [List.foldl_cons, List.foldl_nil, ToolBuffer.read, Dict.get?_update, h, Option.getD_some]
  · refine ⟨rfl, fun x => ?_⟩
    obtain rfl : args = "" := not_not.1 hargs
    rw [String.append_empty]
    split_ifs with hx
    · rw [hx, ← h]
      rfl
    · rfl

theorem toolUseBlock_eq {id name : String} {input : Json} {block : ToolUseBlock}
    (h : toolUseBlock id name input = some block) : block.id = id ∧ block.name = name := by
  cases input with
  | obj fields =>
    obtain rfl := Option.some.inj h
    exact ⟨rfl, rfl⟩
  | _ => cases h

/-- A call of a name becomes a block of that id and name. -/
theorem toolBlock_eq {call : ToolCall} {block : ToolUseBlock} (hname : call.name ≠ "")
    (h : toolBlock loads call = some block) : block.id = call.id ∧ block.name = call.name := by
  rw [toolBlock, if_neg hname] at h
  split_ifs at h
  · exact toolUseBlock_eq h
  · split at h <;> exact toolUseBlock_eq h

/-- Arguments that parse are taken as they are. -/
theorem toolBlock_of_loads {call : ToolCall} {v : Json} (hname : call.name ≠ "")
    (hblank : Py.strip call.arguments.toList ≠ []) (hloads : loads call.arguments = some v)
    (hnull : v ≠ .null) : toolBlock loads call = toolUseBlock call.id call.name v := by
  have hargs : call.arguments ≠ "" := by
    intro h
    rw [h] at hblank
    exact hblank rfl
  rw [toolBlock, if_neg hname, if_neg hargs, JsonRepair.repairAndParse_of_loads hblank hloads]
  cases v with
  | null => exact absurd rfl hnull
  | _ => rfl

/-- What a block has of a call, its id apart. -/
theorem toolBlock_congr {call call' : ToolCall} (hname : call.name = call'.name)
    (hargs : call.arguments = call'.arguments) :
    (toolBlock loads call).map (fun b => (b.name, b.input)) =
      (toolBlock loads call').map fun b => (b.name, b.input) := by
  have hblock : ∀ (name : String) (input : Json) (id id' : String),
      (toolUseBlock id name input).map (fun b => (b.name, b.input)) =
        (toolUseBlock id' name input).map fun b => (b.name, b.input) := by
    intro name input id id'
    cases input <;> rfl
  rw [toolBlock, toolBlock, hname, hargs]
  split_ifs
  · exact hblock _ _ _ _
  · exact hblock _ _ _ _
  · split <;> exact hblock _ _ _ _

/-- Only calls become tool-use blocks. -/
theorem toolUse?_spoken (c : Collected) :
    (c.spoken lower sameLetter).filterMap AssistantBlock.toolUse? = [] := by
  unfold Collected.spoken
  generalize splitThinkingTags lower sameLetter ("".intercalate c.textParts) = parts
  obtain ⟨visible, leaked⟩ := parts
  by_cases hthinking : c.thinkingParts = [] <;> by_cases htext : c.textParts = [] <;>
    by_cases hvisible : visible = "" <;> by_cases hleaked : leaked = "" <;>
    simp [hthinking, htext, hvisible, hleaked, AssistantBlock.toolUse?]

/-- The tool-use blocks of an assembled content are those of the calls. -/
theorem toolUse?_content (c : Collected) (blocks : List ToolUseBlock) :
    (if (c.spoken lower sameLetter ++ blocks.map AssistantBlock.toolUse).isEmpty then
        [AssistantBlock.text ""]
      else c.spoken lower sameLetter ++ blocks.map .toolUse).filterMap AssistantBlock.toolUse? =
      blocks := by
  generalize hcontent : c.spoken lower sameLetter ++ blocks.map AssistantBlock.toolUse = content
  have huses : content.filterMap AssistantBlock.toolUse? = blocks := by
    rw [← hcontent, List.filterMap_append, toolUse?_spoken, List.nil_append, List.filterMap_map]
    exact List.filterMap_some
  cases content with
  | nil => exact huses
  | cons block content => exact huses

/-- The tool calls of the message are the blocks of the calls. -/
theorem toolUses_message {c : Collected} {message : AssistantMessage}
    (h : c.message lower sameLetter loads = some message) :
    c.tools.calls.map (toolBlock loads) = message.toolUses.map some := by
  obtain ⟨blocks, hblocks, hmessage⟩ := Option.bind_eq_some_iff.1 h
  obtain rfl := Option.some.inj hmessage
  rw [Traverse.mapM_eq_some_iff.1 hblocks]
  exact congrArg (List.map some) (toolUse?_content c blocks).symm

/-- There is a message exactly if there is a block for every call. -/
theorem exists_message_iff {c : Collected} :
    (∃ message, c.message lower sameLetter loads = some message) ↔
      ∃ blocks : List ToolUseBlock, c.tools.calls.map (toolBlock loads) = blocks.map some := by
  constructor
  · rintro ⟨message, h⟩
    exact ⟨_, toolUses_message h⟩
  · rintro ⟨blocks, h⟩
    exact ⟨_, Option.bind_eq_some_iff.2 ⟨blocks, Traverse.mapM_eq_some_iff.2 h, rfl⟩⟩

end

end OxenClaw
