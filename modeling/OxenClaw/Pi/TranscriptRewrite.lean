import OxenClaw.Lib.Holes
import OxenClaw.Pi.Persistence

/-!
# Redaction of a transcript

`rewrite_transcript` replaces secrets in a copy of a transcript that is to be shared. It rewrites
the plain text of user messages and the text blocks of assistant messages, and passes the others
on : blocks of user messages, thinking, tool calls and results, system messages. Nothing of a
token is left exactly where those have none of it and, in the texts it rewrites, no token with a
bracket is spelled with a `[REDACTED]` (`rewriteTranscript_hides_iff`).
-/

namespace OxenClaw

def redactedMark : String := "[REDACTED]"

/-- `_redact_str`. -/
def redactStr (s : String) (tokens : List String) : String :=
  if tokens.isEmpty then s
  else tokens.foldl (fun out tok =>
    if tok ≠ "" ∧ Py.contains tok out = true then
      String.ofList (Holes.replaceAll tok.toList redactedMark.toList out.toList)
    else out) s

/-- `_redact_block`. -/
def redactBlock (block : Json) (tokens : List String) : Json :=
  if tokens.isEmpty then block
  else
    match block with
    | .obj d =>
      match Args.read d "type" Json.str?, Args.read d "text" Json.str? with
      | some "text", some text => .obj (Dict.set d "text" (.str (redactStr text tokens)))
      | _, _ => block
    | _ => block

/-- `block.get("type") == "thinking"`. -/
def isThinking (block : Json) : Bool :=
  (block.obj?.bind fun d => Args.read d "type" Json.str?) = some "thinking"

/-- The body of the loop, up to the validation. -/
def rewriteDumped (redactTokens : List String) (dropThinking : Bool) (dumped : Json) : Json :=
  match dumped with
  | .obj d =>
    match Args.read d "role" Json.str?, Args.get d "content" with
    | some "assistant", content =>
      let blocks := match content with
        | some (.arr blocks) => blocks
        | _ => []
      .obj (Dict.set d "content" (.arr ((blocks.filter fun block =>
        !(dropThinking && isThinking block)).map fun block => redactBlock block redactTokens)))
    | some "user", some (.str content) =>
      .obj (Dict.set d "content" (.str (redactStr content redactTokens)))
    | _, _ => dumped
  | _ => dumped

def rewriteTranscript (messages : List Message) (redactTokens : List String)
    (dropThinking : Bool) : Option (List Message) :=
  messages.mapM fun msg => Message.validate (rewriteDumped redactTokens dropThinking msg.dump)

/-! ## The texts of a transcript -/

mutual

/-- Every string of a JSON value, keys among them. -/
def Json.texts : Json → List String
  | .str s => [s]
  | .arr xs => Json.textsItems xs
  | .obj fields => Json.textsFields fields
  | _ => []

def Json.textsItems : List Json → List String
  | [] => []
  | x :: xs => x.texts ++ Json.textsItems xs

def Json.textsFields : Args → List String
  | [] => []
  | (key, x) :: fields => key :: x.texts ++ Json.textsFields fields

end

def UserBlock.texts : UserBlock → List String
  | .text s => [s]
  | .image _ _ => []

def Content.texts : Content → List String
  | .text s => [s]
  | .blocks bs => bs.flatMap UserBlock.texts

def AssistantBlock.texts : AssistantBlock → List String
  | .text s => [s]
  | .toolUse b => Json.textsFields b.input
  | .thinking s _ => [s]

def Message.texts : Message → List String
  | .system s => [s]
  | .user content => content.texts
  | .assistant msg => msg.content.flatMap AssistantBlock.texts
  | .toolResult results => results.flatMap fun r => r.content.texts

/-- No token is in the text, but those that are in the replacement. -/
def Hides (tokens : List String) (text : List Char) : Prop :=
  ∀ tok ∈ tokens, ¬tok.toList <:+: redactedMark.toList → ¬tok.toList <:+: text

/-! ## What is rewritten and what is not -/

/-- The text that a block has redacted. -/
def AssistantBlock.redacted : AssistantBlock → List String
  | .text s => [s]
  | _ => []

def AssistantBlock.passedOn : AssistantBlock → List String
  | .text _ => []
  | b => b.texts

/-- The blocks that are not dropped. -/
def AssistantBlock.isKept (dropThinking : Bool) : AssistantBlock → Bool
  | .thinking _ _ => !dropThinking
  | _ => true

/-- The texts that a message has redacted. -/
def Message.redacted : Message → List String
  | .user (.text s) => [s]
  | .assistant msg => msg.content.flatMap AssistantBlock.redacted
  | _ => []

/-- The texts that a message has passed on as they are. -/
def Message.passedOn (dropThinking : Bool) : Message → List String
  | .user (.text _) => []
  | .assistant msg =>
    (msg.content.filter (AssistantBlock.isKept dropThinking)).flatMap AssistantBlock.passedOn
  | m => m.texts

/-- What replacing the tokens one after the other makes of a text. -/
def ReplacesAll : List String → List Char → List Char → Prop
  | [], s, u => u = s
  | tok :: tokens, s, u =>
    if tok = "" then ReplacesAll tokens s u
    else ∃ s', Holes.Replaces tok.toList redactedMark.toList s s' ∧ ReplacesAll tokens s' u

/-- No token with a bracket is spelled where tokens are replaced, but those that are in the
replacement. -/
def SpellsNone (tokens : List String) (text : List Char) : Prop :=
  ∀ u, ReplacesAll tokens text u → ∀ tok ∈ tokens, '[' ∈ tok.toList ∨ ']' ∈ tok.toList →
    ¬tok.toList <:+: redactedMark.toList → ¬tok.toList <:+: u

/-! ## Redacting a text -/

variable {tokens : List String} {tok : String} {s u : List Char}

/-- One token. -/
theorem toList_redactOne (out : String) (tok : String) (htok : tok ≠ "") :
    (if tok ≠ "" ∧ Py.contains tok out = true then
      String.ofList (Holes.replaceAll tok.toList redactedMark.toList out.toList)
    else out).toList = Holes.replaceAll tok.toList redactedMark.toList out.toList := by
  split_ifs with h
  · rw [String.toList_ofList]
  · have hnone : ¬tok.toList <:+: out.toList := fun hin => h ⟨htok, decide_eq_true hin⟩
    rw [Holes.replaceAll_of_absent hnone]

theorem toList_ne_nil (htok : tok ≠ "") : tok.toList ≠ [] := by
  rwa [Ne, String.toList_eq_nil_iff]

theorem replacesAll_iff (s : String) :
    ReplacesAll tokens s.toList u ↔ (redactStr s tokens).toList = u := by
  have hfold (s : String) : ReplacesAll tokens s.toList u ↔ (tokens.foldl (fun out tok =>
      if tok ≠ "" ∧ Py.contains tok out = true then
        String.ofList (Holes.replaceAll tok.toList redactedMark.toList out.toList)
      else out) s).toList = u := by
    induction tokens generalizing s with
    | nil => exact eq_comm
    | cons tok tokens ih =>
      rw [ReplacesAll, List.foldl_cons, ← ih]
      split_ifs with hempty h h
      · exact absurd hempty h.1
      · rfl
      · simp only [Holes.replaces_iff (toList_ne_nil hempty), exists_eq_left',
          String.toList_ofList]
      · have hone := toList_redactOne s tok hempty
        rw [if_neg h] at hone
        simp only [Holes.replaces_iff (toList_ne_nil hempty), exists_eq_left', ← hone]
  rw [hfold, redactStr]
  split_ifs with hempty
  · rw [List.isEmpty_iff.1 hempty]
    rfl
  · rfl

/-- A token without a bracket is gone once it is replaced, and does not come back. -/
theorem not_infix_of_replacesAll (h : ReplacesAll tokens s u)
    (hbrackets : ¬('[' ∈ tok.toList ∨ ']' ∈ tok.toList))
    (hout : ¬tok.toList <:+: redactedMark.toList) (htok : tok ∈ tokens ∨ ¬tok.toList <:+: s) :
    ¬tok.toList <:+: u := by
  obtain ⟨hopen, hclose⟩ := not_or.1 hbrackets
  induction tokens generalizing s with
  | nil =>
    rw [ReplacesAll] at h
    rw [h]
    exact htok.resolve_left List.not_mem_nil
  | cons tok' tokens ih =>
    rw [ReplacesAll] at h
    split_ifs at h with hempty
    · refine ih h (htok.imp_left fun hmem => ?_)
      refine (List.mem_cons.1 hmem).resolve_left fun heq => hout ?_
      rw [heq, hempty]
      exact List.nil_infix
    · have hmark : redactedMark.toList = '[' :: ("REDACTED".toList ++ [']']) := by decide
      obtain ⟨s', hs', hrest⟩ := h
      refine ih hrest (or_iff_not_imp_left.2 fun hnone hin => ?_)
      obtain ⟨hs, hne⟩ := hs'.infix_of_notMem (toList_ne_nil hempty) hmark hopen hclose
        hout hin
      rcases htok with hmem | habsent
      · rcases List.mem_cons.1 hmem with heq | hmem
        · exact hne (heq ▸ rfl)
        · exact hnone hmem
      · exact habsent hs

/-- A redacted text hides the tokens exactly if none with a bracket is spelled. -/
theorem hides_redactStr_iff (s : String) :
    Hides tokens (redactStr s tokens).toList ↔ SpellsNone tokens s.toList := by
  constructor
  · intro h u hu tok htok _ hout
    rw [← (replacesAll_iff s).1 hu]
    exact h tok htok hout
  · intro h tok htok hout
    have hu : ReplacesAll tokens s.toList (redactStr s tokens).toList := (replacesAll_iff s).2 rfl
    by_cases hbrackets : '[' ∈ tok.toList ∨ ']' ∈ tok.toList
    · exact h _ hu tok htok hbrackets hout
    · exact not_infix_of_replacesAll hu hbrackets hout (Or.inl htok)

/-! ## Rewriting a message -/

/-- A block after the redaction. -/
def AssistantBlock.rewritten (tokens : List String) : AssistantBlock → AssistantBlock
  | .text s => .text (redactStr s tokens)
  | b => b

/-- A message after the rewriting. -/
def Message.rewritten (tokens : List String) (dropThinking : Bool) : Message → Message
  | .user (.text s) => .user (.text (redactStr s tokens))
  | .assistant msg => .assistant { msg with
      content := (msg.content.filter (AssistantBlock.isKept dropThinking)).map
        (AssistantBlock.rewritten tokens) }
  | m => m

theorem redactBlock_dump (b : AssistantBlock) :
    redactBlock b.dump tokens = (b.rewritten tokens).dump := by
  unfold redactBlock
  split_ifs with hempty
  · rcases b with s | b | ⟨s, signature⟩
    · rw [AssistantBlock.rewritten, redactStr, if_pos hempty]
    · rfl
    · rfl
  · rcases b with s | b | ⟨s, signature⟩
    all_goals rfl

theorem isThinking_dump (dropThinking : Bool) (b : AssistantBlock) :
    (!(dropThinking && isThinking b.dump)) = b.isKept dropThinking := by
  rcases b with s | b | ⟨s, signature⟩
  all_goals simp [isThinking, AssistantBlock.dump, UserBlock.dump, ToolUseBlock.dump, Json.obj?,
    Args.read, Args.get, Json.str?, AssistantBlock.isKept]

/-- The dumped message is rewritten as the message. -/
theorem rewriteDumped_dump (dropThinking : Bool) (m : Message) :
    rewriteDumped tokens dropThinking m.dump = (m.rewritten tokens dropThinking).dump := by
  rcases m with s | (s | bs) | msg | results
  · rfl
  · rfl
  · rfl
  · have hblocks : ((msg.content.map AssistantBlock.dump).filter fun block =>
        !(dropThinking && isThinking block)).map (fun block => redactBlock block tokens) =
        ((msg.content.filter (AssistantBlock.isKept dropThinking)).map
          (AssistantBlock.rewritten tokens)).map AssistantBlock.dump := by
      rw [List.filter_map, List.map_map, List.map_map]
      simp only [Function.comp_def, isThinking_dump, redactBlock_dump]
    change Json.obj [("role", .str "assistant"),
      ("content", .arr (((msg.content.map AssistantBlock.dump).filter fun block =>
        !(dropThinking && isThinking block)).map fun block => redactBlock block tokens)),
      ("stop_reason", _), ("usage", _)] = _
    rw [hblocks]
    rfl
  · rfl

theorem rewriteTranscript_eq (messages : List Message) (dropThinking : Bool) :
    rewriteTranscript messages tokens dropThinking =
      some (messages.map (Message.rewritten tokens dropThinking)) := by
  have hmessage (m : Message) : Message.validate (rewriteDumped tokens dropThinking m.dump) =
      some (m.rewritten tokens dropThinking) := by
    rw [rewriteDumped_dump, Message.validate_dump]
  rw [rewriteTranscript, Traverse.mapM_eq_some_iff, List.map_map]
  exact List.map_congr_left fun m _ => hmessage m

/-- The texts of a rewritten block. -/
theorem forall_texts_rewritten_iff {P : String → Prop} (b : AssistantBlock) :
    (∀ text ∈ (b.rewritten tokens).texts, P text) ↔
      (∀ text ∈ b.passedOn, P text) ∧ ∀ text ∈ b.redacted, P (redactStr text tokens) := by
  rcases b with s | b | ⟨s, signature⟩
  all_goals simp [AssistantBlock.rewritten, AssistantBlock.texts, AssistantBlock.passedOn,
    AssistantBlock.redacted]

/-- A dropped block has nothing redacted. -/
theorem redacted_of_not_isKept {dropThinking : Bool} {b : AssistantBlock}
    (h : b.isKept dropThinking = false) : b.redacted = [] := by
  rcases b with s | b | ⟨s, signature⟩
  · cases h
  · rfl
  · rfl

/-- The texts of a rewritten message are those passed on and those redacted. -/
theorem Message.forall_texts_rewritten_iff {P : String → Prop} (dropThinking : Bool) (m : Message) :
    (∀ text ∈ (m.rewritten tokens dropThinking).texts, P text) ↔
      (∀ text ∈ m.passedOn dropThinking, P text) ∧
        ∀ text ∈ m.redacted, P (redactStr text tokens) := by
  rcases m with s | (s | bs) | msg | results
  · simp [rewritten, passedOn, redacted]
  · simp [rewritten, passedOn, redacted, texts, Content.texts]
  · simp [rewritten, passedOn, redacted]
  · simp only [rewritten, passedOn, redacted, texts, List.forall_mem_flatMap, List.forall_mem_map,
      OxenClaw.forall_texts_rewritten_iff, forall_and]
    refine and_congr_right fun _ => ⟨fun h b hb => ?_, fun h b hb => ?_⟩
    · cases hkept : b.isKept dropThinking with
      | true => exact h b (List.mem_filter.2 ⟨hb, hkept⟩)
      | false =>
        rw [redacted_of_not_isKept hkept]
        exact fun _ hnone => absurd hnone List.not_mem_nil
    · exact h b (List.mem_of_mem_filter hb)
  · simp [rewritten, passedOn, redacted]

/-- The rewritten transcript hides the tokens exactly if no text that is passed on has one of
them and none with a bracket is spelled where a text is redacted. -/
theorem rewriteTranscript_hides_iff (messages : List Message) (tokens : List String)
    (dropThinking : Bool) :
    (∃ out, rewriteTranscript messages tokens dropThinking = some out ∧
      ∀ m ∈ out, ∀ text ∈ m.texts, Hides tokens text.toList) ↔
    ∀ m ∈ messages, (∀ text ∈ m.passedOn dropThinking, Hides tokens text.toList) ∧
      ∀ text ∈ m.redacted, SpellsNone tokens text.toList := by
  rw [rewriteTranscript_eq]
  simp only [Option.some.injEq, exists_eq_left', List.forall_mem_map,
    Message.forall_texts_rewritten_iff, hides_redactStr_iff]

/-- A block of a user message, and the input of a tool call, are shared with the secret. -/
theorem rewriteTranscript_shows_block :
    ¬∃ out, rewriteTranscript [.user (.blocks [.text "key sk-1"]),
        .assistant ⟨[.toolUse ⟨"1", "login", [("key", .str "sk-1")]⟩], none, none⟩] ["sk-1"] true =
          some out ∧ ∀ m ∈ out, ∀ text ∈ m.texts, Hides ["sk-1"] text.toList := by
  rintro ⟨out, hout, hhides⟩
  rw [rewriteTranscript_eq] at hout
  cases hout
  exact hhides _ List.mem_cons_self "key sk-1" (by decide) "sk-1" List.mem_cons_self (by decide)
    (by decide)

end OxenClaw
