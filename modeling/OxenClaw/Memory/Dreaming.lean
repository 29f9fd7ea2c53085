import Mathlib.Data.List.Lex
import OxenClaw.Lib.Binary64
import OxenClaw.Lib.Cuts
import OxenClaw.Lib.JsonValue
import OxenClaw.Pi.Run.JsonRepair

/-!
# Dreaming

After a session a small model is asked for the durable facts of the transcript. Its answer is
read as JSON, leniently (`parseFactsJson`), and each fact is saved in the inbox; one of high
confidence is also promoted to the curated tier (`dreamSession`).

The answer may have any JSON value anywhere. A text, a confidence or tags of the wrong kind are
replaced where the code looks at the kind, and raise where it does not : a text that is a number,
a confidence too large for a float, a tag that is no text. One such fact ends the pass, and the
facts behind it are lost (`dreams_iff`).

`json.loads`, `float` of a text, the model call and the memory are parameters.
-/

namespace OxenClaw.Dreaming

open OxenClaw Py

/-! ## The values of an answer -/

/-- What `json.loads` gives. A `dict` is the list of its items. -/
inductive Value where
  | null
  | bool (b : Bool)
  | int (n : ℤ)
  | float (x : Binary64)
  | str (s : CodePoints)
  | arr (xs : List Value)
  | obj (fields : List (CodePoints × Value))

/-- `bool(v)`. -/
def Value.truthy : Value → Bool
  | .null => false
  | .bool b => b
  | .int n => n ≠ 0
  | .float x => x ≠ .fin 0
  | .str s => !s.isEmpty
  | .arr xs => !xs.isEmpty
  | .obj fields => !fields.isEmpty

/-- A fact, as the items of its `dict`. -/
abbrev Fact := List (CodePoints × Value)

/-- `fact.get(key)`. -/
def Fact.get (fact : Fact) (key : String) : Option Value :=
  (fact.find? fun e => e.1 = CodePoints.lit key).map Prod.snd

/-- `isinstance(f, dict)`. -/
def Value.asDict : Value → Option Fact
  | .obj fields => some fields
  | _ => none

/-- `isinstance(v, str)`. -/
def Value.asStr : Value → Option CodePoints
  | .str s => some s
  | _ => none

/-- How `json.loads` can end. -/
inductive Loaded where
  | value (v : Value)
  | decodeError
  /-- A `ValueError` that is no `JSONDecodeError` : an integer of too many digits. -/
  | valueError
  /-- Any other exception : a document that is nested too deep. -/
  | error

/-- What leaves a reader. -/
inductive LoadError where
  | valueError
  | other
  deriving DecidableEq

/-! ## Reading the answer -/

/-- A text is tried if it differs from the one before. -/
def changed (before after : List Char) : List (List Char) :=
  if after = before then [] else [after]

/-- The texts that `repair_and_parse` loads, until one can be read. -/
def tried (raw : List Char) : List (List Char) :=
  let candidate := JsonRepair.stripCodeFence raw
  let repaired := JsonRepair.repairSteps candidate
  let quoted := JsonRepair.singleToDoubleQuotes repaired
  raw :: (changed raw candidate ++ changed candidate repaired ++ changed repaired quoted ++
    changed quoted (JsonRepair.balanceBraces quoted))

variable (loads : List Char → Loaded)

/-- The first value; only a `JSONDecodeError` is caught. -/
def firstLoaded : List (List Char) → Except LoadError Value
  | [] => .ok .null
  | s :: rest =>
    match loads s with
    | .value v => .ok v
    | .decodeError => firstLoaded rest
    | .valueError => .error .valueError
    | .error => .error .other

/-- `repair_and_parse`, without the label of the repair. -/
def repairAndParse (raw : List Char) : Except LoadError Value :=
  if strip raw = [] then .ok .null else firstLoaded loads (tried raw)

/-- The facts of what was parsed, where it has some : an object with a list `facts`, or a list. -/
def factsOf : Value → Option (List Fact)
  | .obj fields =>
    match Fact.get fields "facts" with
    | some (.arr xs) => some (xs.filterMap Value.asDict)
    | _ => none
  | .arr xs => some (xs.filterMap Value.asDict)
  | _ => none

/-- `raw[raw.index("{") : raw.rindex("}") + 1]`, `none` for the `ValueError`. -/
def rescan (raw : List Char) : Option (List Char) :=
  if '\x7b' ∈ raw ∧ '\x7d' ∈ raw then
    some ((raw.dropWhile (· ≠ '\x7b')).rdropWhile (· ≠ '\x7d'))
  else none

theorem rescan_length {raw candidate : List Char} (h : rescan raw = some candidate) :
    candidate = raw ∨ candidate.length < raw.length := by
  rw [rescan] at h
  split_ifs at h
  obtain rfl := Option.some.inj h
  have hinfix : (raw.dropWhile (· ≠ '\x7b')).rdropWhile (· ≠ '\x7d') <:+: raw :=
    (List.rdropWhile_prefix _ _).isInfix.trans (List.dropWhile_suffix _).isInfix
  exact (Nat.lt_or_ge _ raw.length).symm.imp_left fun hge =>
    hinfix.eq_of_length (le_antisymm hinfix.length_le hge)

/-- `_parse_facts_json`. -/
def parseFactsJson (raw : List Char) : Except LoadError (List Fact) :=
  match repairAndParse loads raw with
  | .error e => .error e
  | .ok parsed =>
    match factsOf parsed with
    | some facts => .ok facts
    | none =>
      match _h : rescan raw with
      | none => .ok []
      | some candidate =>
        if _hsame : candidate = raw then .ok []
        else
          match parseFactsJson candidate with
          | .error .valueError => .ok []
          | result => result
termination_by raw.length
decreasing_by exact (rescan_length _h).resolve_left _hsame

/-! ## Reading a fact -/

/-- `DreamingConfig`. -/
structure DreamingConfig where
  enabled : Bool
  maxFactsPerSession : ℤ
  autoPromoteThreshold : Binary64
  inboxTag : CodePoints
  minSessionTurns : ℤ

/-- White space, by its code point. -/
def isSpacePoint (n : ℕ) : Bool :=
  (9 ≤ n && n ≤ 13) || (28 ≤ n && n ≤ 32) || n == 0x85 || n == 0xA0 || n == 0x1680 ||
    (0x2000 ≤ n && n ≤ 0x200A) || n == 0x2028 || n == 0x2029 || n == 0x202F || n == 0x205F ||
    n == 0x3000

/-- `s.strip()`. -/
def stripPoints (s : CodePoints) : CodePoints :=
  (s.dropWhile isSpacePoint).rdropWhile isSpacePoint

/-- `(fact.get("text") or "").strip()`, `none` where what is there has no `strip`. -/
def textOf (fact : Fact) : Option CodePoints :=
  match fact.get "text" with
  | some v => if v.truthy then v.asStr.map stripPoints else some []
  | none => some []

/-- The confidence of a fact that has none. -/
def defaultConfidence : Binary64 :=
  .fin (1 / 2)

/-- `float(fact.get("confidence", 0.5))` with its handlers, `none` for an `OverflowError`. -/
def confidenceOf (floatOf : CodePoints → Option Binary64) (fact : Fact) : Option Binary64 :=
  match fact.get "confidence" with
  | some (.bool b) => some (.fin (if b then 1 else 0))
  | some (.int n) =>
    match Binary64.ofRat n with
    | .fin q => some (.fin q)
    | _ => none
  | some (.float x) => some x
  | some (.str s) => some ((floatOf s).getD defaultConfidence)
  | _ => some defaultConfidence

/-- `fact.get("tags") or []`, of a list only. -/
def tagsOf (fact : Fact) : List Value :=
  match fact.get "tags" with
  | some (.arr xs) => xs
  | _ => []

/-- What one fact is saved and promoted with; `tags` has the tag of the inbox. -/
structure Call where
  text : CodePoints
  tags : List CodePoints
  confidence : Binary64

/-- `sorted({*tags, inbox_tag})`. -/
def Call.allTags (call : Call) : List CodePoints :=
  call.tags.dedup.mergeSort fun a b => decide (a ≤ b)

/-- The body of the loop up to `memory.save` : `none` where it raises, `some none` without text. A
list or a `dict` among the tags cannot be in a set, and what else is no text cannot be sorted with
the tag of the inbox. -/
def readFact (floatOf : CodePoints → Option Binary64) (inboxTag : CodePoints) (fact : Fact) :
    Option (Option Call) := do
  let text ← textOf fact
  if text = [] then some none
  else do
    let confidence ← confidenceOf floatOf fact
    let tags ← (tagsOf fact).mapM Value.asStr
    some (some ⟨text, tags ++ [inboxTag], confidence⟩)

/-! ## Keeping the facts -/

/-- `DreamingResult`. -/
structure DreamingResult where
  sessionKey : String
  factsExtracted : ℕ := 0
  factsPromoted : ℕ := 0
  factTexts : List CodePoints := []
  error : Option String := none
  skippedReason : Option String := none

/-- The memory, and whether a call returned. -/
structure Memory (σ : Type*) where
  save : σ → CodePoints → List CodePoints → σ × Bool
  shortTermAdd : σ → CodePoints → List CodePoints → Binary64 → σ × Bool

/-- What became of one call. -/
inductive Outcome where
  | failed
  | saved
  | promoted
  deriving DecidableEq

variable {σ : Type*} (memory : Memory σ) (threshold : Binary64)

/-- The body of the loop from `memory.save` on. -/
def record (s : σ) (call : Call) : σ × Outcome :=
  let saved := memory.save s call.text call.allTags
  if saved.2 then
    if threshold.le call.confidence then
      let added := memory.shortTermAdd saved.1 call.text call.tags call.confidence
      (added.1, if added.2 then .promoted else .saved)
    else (saved.1, .saved)
  else (saved.1, .failed)

/-- What the result counts. -/
def DreamingResult.count (result : DreamingResult) (call : Call) : Outcome → DreamingResult
  | .failed => result
  | .saved =>
    { result with
      factsExtracted := result.factsExtracted + 1
      factTexts := result.factTexts ++ [call.text] }
  | .promoted =>
    { result with
      factsExtracted := result.factsExtracted + 1
      factTexts := result.factTexts ++ [call.text]
      factsPromoted := result.factsPromoted + 1 }

/-- The loop over the facts, `none` where it raises. -/
def dreamFacts (floatOf : CodePoints → Option Binary64) (inboxTag : CodePoints) :
    List Fact → σ → DreamingResult → σ × Option DreamingResult
  | [], s, result => (s, some result)
  | fact :: facts, s, result =>
    match readFact floatOf inboxTag fact with
    | none => (s, none)
    | some none => dreamFacts floatOf inboxTag facts s result
    | some (some call) =>
      let recorded := record memory threshold s call
      dreamFacts floatOf inboxTag facts recorded.1 (result.count call recorded.2)

/-! ## The pass -/

/-- `_DREAM_PROMPT`. -/
def dreamPrompt : String :=
  "You are the **dreaming sub-agent** for oxenClaw. Read the session " ++
    "transcript below and extract DURABLE FACTS the user established " ++
    "or decisions they made — things worth remembering across future " ++
    "sessions.\n" ++
    "\n" ++
    "Output JSON only — a single object with one key \x60facts\x60 whose " ++
    "value is an array. Each fact has:\n" ++
    "  - \"text\": natural-language complete sentence (≤ 240 chars)\n" ++
    "  - \"confidence\": 0.0..1.0 — how durable / unambiguous the fact is\n" ++
    "  - \"tags\": array of short labels (e.g. [\"location\", \"preference\"])\n" ++
    "\n" ++
    "Rules:\n" ++
    "- Skip ephemeral chatter (greetings, tool-call results, transient " ++
    "state). Only what should survive past this conversation.\n" ++
    "- Confidence ≥ 0.7 only when the user stated it directly or " ++
    "confirmed it. Otherwise ≤ 0.5.\n" ++
    "- Use the user's language; if they switched mid-session, prefer " ++
    "their dominant one.\n" ++
    "- Empty array is fine when nothing durable was said.\n" ++
    "\n" ++
    "Output format:\n" ++
    "\x7b\"facts\": [\x7b\"text\": \"...\", \"confidence\": 0.8, \"tags\": [\"...\"]\x7d]\x7d"

/-- `_render_transcript`, of the roles and contents of the messages. -/
def renderTranscript (upper : String → String) (messages : List (String × String))
    (charLimit : ℕ := 12000) : String :=
  let lines := messages.filterMap fun m =>
    if stripString m.2 = "" then none else some (upper m.1 ++ ": " ++ stripString m.2)
  let blob := String.intercalate "\n\n" lines
  if charLimit < blob.length then
    String.ofList (blob.toList.take (charLimit / 2)) ++ "\n\n[... transcript trimmed ...]\n\n" ++
      String.ofList (blob.toList.drop (blob.length - (charLimit + 1) / 2))
  else blob

/-- How `run_attempt` ends. -/
inductive Attempt where
  | failed (exc : String)
  | noMessage
  | message (message : AssistantMessage)

/-- What is outside : the model call on a prompt, and the tables and readers of Python. -/
structure World where
  attempt : String → Attempt
  loads : List Char → Loaded
  floatOf : CodePoints → Option Binary64
  upper : String → String

/-- What `dream_session` is called with. -/
structure Session where
  agentId : String
  sessionKey : String
  messages : List (String × String)

def Session.prompt (session : Session) (upper : String → String) : String :=
  dreamPrompt ++ "\n\n## Session: " ++ session.agentId ++ "/" ++ session.sessionKey ++
    "\n\n## Transcript\n" ++ renderTranscript upper session.messages

/-- The texts of a message, joined and stripped. -/
def rawText (message : AssistantMessage) : List Char :=
  strip (message.content.flatMap fun
    | .text s => s.toList
    | _ => [])

/-- What the pass makes of an answer. -/
def dreamText (world : World) (config : DreamingConfig) (raw : List Char) (s : σ)
    (result : DreamingResult) : σ × Option DreamingResult :=
  match parseFactsJson world.loads raw with
  | .error _ => (s, none)
  | .ok facts =>
    if facts = [] then (s, some { result with skippedReason := some "no durable facts extracted" })
    else
      dreamFacts memory config.autoPromoteThreshold world.floatOf config.inboxTag
        (sliceTo facts config.maxFactsPerSession) s result

/-- `dream_session`. -/
def dreamSession (world : World) (config : DreamingConfig) (session : Session) (s : σ) :
    σ × Option DreamingResult :=
  let result : DreamingResult := { sessionKey := session.sessionKey }
  if !config.enabled then (s, some { result with skippedReason := some "dreaming disabled" })
  else if (session.messages.length : ℤ) < config.minSessionTurns then
    (s, some { result with
      skippedReason := some ("session has " ++ toString session.messages.length ++
        " turns (min " ++ toString config.minSessionTurns ++ ")") })
  else
    match world.attempt (session.prompt world.upper) with
    | .failed exc => (s, some { result with error := some ("run_attempt failed: " ++ exc) })
    | .noMessage => (s, some { result with error := some "no assistant message" })
    | .message message =>
      if rawText message = [] then
        (s, some { result with error := some "empty model output" })
      else dreamText memory world config (rawText message) s result

/-! ## Which answers can be read -/

variable {loads} {raw candidate : List Char}

/-- What a rescan leaves, a rescan leaves alone. -/
theorem rescan_rescan (h : rescan raw = some candidate) {again : List Char}
    (hagain : rescan candidate = some again) : again = candidate := by
  rw [rescan] at h hagain
  split_ifs at h hagain with hraw hcandidate
  obtain rfl := Option.some.inj h
  obtain rfl := Option.some.inj hagain
  have hhead : ∀ c ∈ ((raw.dropWhile (· ≠ '\x7b')).rdropWhile (· ≠ '\x7d')).head?,
      decide (c ≠ '\x7b') = false := by
    intro c hc
    have hne : raw.dropWhile (· ≠ '\x7b') ≠ [] := by
      intro hnil
      rw [hnil, List.rdropWhile_nil] at hc
      cases hc
    obtain ⟨rest, hrest⟩ := List.rdropWhile_prefix (· ≠ '\x7d') (raw.dropWhile (· ≠ '\x7b'))
    rcases hleft : (raw.dropWhile (· ≠ '\x7b')).rdropWhile (· ≠ '\x7d') with _ | ⟨d, left⟩
    · rw [hleft] at hc
      cases hc
    · rw [hleft] at hc hrest
      cases hc
      have hfirst := List.head_dropWhile_not (fun c => decide (c ≠ '\x7b')) hne
      simp only [← hrest, List.cons_append, List.head_cons] at hfirst
      exact hfirst
  rw [dropWhile_of_head hhead, List.rdropWhile_idempotent]

/-- The answer can be read : nothing but a `JSONDecodeError` is raised where it is repaired, and
where it has no facts, nothing but a `ValueError` where the rest of it is. -/
def Readable (loads : List Char → Loaded) (raw : List Char) : Prop :=
  ∃ parsed, repairAndParse loads raw = .ok parsed ∧ (factsOf parsed = none →
    ∀ candidate, rescan raw = some candidate →
      repairAndParse loads candidate ≠ .error .other)

theorem parseFactsJson_of_error {e : LoadError} (h : repairAndParse loads raw = .error e) :
    parseFactsJson loads raw = .error e := by
  rw [parseFactsJson, h]

theorem parseFactsJson_of_facts {parsed : Value} {facts : List Fact}
    (h : repairAndParse loads raw = .ok parsed) (hfacts : factsOf parsed = some facts) :
    parseFactsJson loads raw = .ok facts := by
  rw [parseFactsJson, h]
  dsimp only
  rw [hfacts]

/-- Nothing to rescan. -/
theorem parseFactsJson_of_same {parsed : Value} (h : repairAndParse loads raw = .ok parsed)
    (hfacts : factsOf parsed = none) (hsame : ∀ candidate, rescan raw = some candidate →
      candidate = raw) : parseFactsJson loads raw = .ok [] := by
  rw [parseFactsJson, h]
  dsimp only
  rw [hfacts]
  dsimp only
  split
  · rfl
  · rename_i candidate hcandidate
    rw [dif_pos (hsame candidate hcandidate)]

theorem parseFactsJson_of_rescan {parsed : Value} (h : repairAndParse loads raw = .ok parsed)
    (hfacts : factsOf parsed = none) (hcandidate : rescan raw = some candidate)
    (hne : candidate ≠ raw) : parseFactsJson loads raw =
      match parseFactsJson loads candidate with
      | .error .valueError => .ok []
      | result => result := by
  rw [parseFactsJson, h]
  dsimp only
  rw [hfacts]
  dsimp only
  split
  · rename_i hnone
    cases hcandidate.symm.trans hnone
  · rename_i candidate' hcandidate'
    obtain rfl := Option.some.inj (hcandidate.symm.trans hcandidate')
    rw [dif_neg hne]

theorem exists_parseFactsJson_iff :
    (∃ facts, parseFactsJson loads raw = .ok facts) ↔ Readable loads raw := by
  rcases hparse : repairAndParse loads raw with e | parsed
  · refine iff_of_false ?_ ?_
    · rintro ⟨facts, hfacts⟩
      cases (parseFactsJson_of_error hparse).symm.trans hfacts
    · rintro ⟨parsed, hparsed, -⟩
      cases hparse.symm.trans hparsed
  have hreadable : Readable loads raw ↔ (factsOf parsed = none → ∀ candidate,
      rescan raw = some candidate → repairAndParse loads candidate ≠ .error .other) := by
    constructor
    · rintro ⟨parsed', hparsed', h⟩
      cases hparse.symm.trans hparsed'
      exact h
    · exact fun h => ⟨parsed, hparse, h⟩
  rw [hreadable]
  rcases hfacts : factsOf parsed with _ | facts
  · by_cases hsame : ∀ candidate, rescan raw = some candidate → candidate = raw
    · refine iff_of_true ⟨[], parseFactsJson_of_same hparse hfacts hsame⟩ ?_
      intro _ candidate hcandidate hother
      cases hsame candidate hcandidate
      cases hparse.symm.trans hother
    · push Not at hsame
      obtain ⟨candidate, hcandidate, hne⟩ := hsame
      rw [parseFactsJson_of_rescan hparse hfacts hcandidate hne]
      have honly : ((none : Option (List Fact)) = none → ∀ c, rescan raw = some c →
          repairAndParse loads c ≠ .error .other) ↔
          repairAndParse loads candidate ≠ .error .other := by
        refine ⟨fun h => h rfl candidate hcandidate, fun h _ c hc => ?_⟩
        obtain rfl := Option.some.inj (hcandidate.symm.trans hc)
        exact h
      rw [honly]
      rcases hinner : repairAndParse loads candidate with (_ | _) | value
      · rw [parseFactsJson_of_error hinner]
        exact iff_of_true ⟨[], rfl⟩ (by simp)
      · rw [parseFactsJson_of_error hinner]
        refine iff_of_false ?_ (by simp)
        rintro ⟨facts, h⟩
        cases h
      · refine iff_of_true ?_ (by simp)
        rcases hvalue : factsOf value with _ | facts
        · rw [parseFactsJson_of_same hinner hvalue fun again => rescan_rescan hcandidate]
          exact ⟨[], rfl⟩
        · rw [parseFactsJson_of_facts hinner hvalue]
          exact ⟨facts, rfl⟩
  · exact iff_of_true ⟨facts, parseFactsJson_of_facts hparse hfacts⟩
      fun h => absurd h (Option.some_ne_none _)

/-! ## Which facts can be kept -/

/-- Nothing in a fact raises : a text that is there is one, and beside a text that is not blank an
integer confidence fits a float, and the tags of a list are texts. -/
structure Sound (fact : Fact) : Prop where
  text : ∀ v, fact.get "text" = some v → v.truthy = true → ∃ s, v = .str s
  confidence : ∀ s, fact.get "text" = some (.str s) → stripPoints s ≠ [] →
    ∀ n : ℤ, fact.get "confidence" = some (.int n) → ∃ q, Binary64.ofRat n = .fin q
  tags : ∀ s, fact.get "text" = some (.str s) → stripPoints s ≠ [] →
    ∀ xs, fact.get "tags" = some (.arr xs) → ∀ x ∈ xs, ∃ t, x = .str t

/-- The text of a fact, if it is a text and not blank. -/
def factText (fact : Fact) : Option CodePoints :=
  match fact.get "text" with
  | some (.str s) => if stripPoints s = [] then none else some (stripPoints s)
  | _ => none

/-- What a fact is saved with. -/
def callOf (floatOf : CodePoints → Option Binary64) (inboxTag : CodePoints) (fact : Fact) :
    Option Call :=
  (readFact floatOf inboxTag fact).join

variable {floatOf : CodePoints → Option Binary64} {inboxTag : CodePoints} {fact : Fact}

theorem asStr_eq_some_iff {v : Value} {s : CodePoints} : v.asStr = some s ↔ v = .str s := by
  cases v <;> simp [Value.asStr]

theorem exists_mapM_asStr_iff {xs : List Value} :
    (∃ tags, xs.mapM Value.asStr = some tags) ↔ ∀ x ∈ xs, ∃ t, x = .str t := by
  induction xs with
  | nil => exact iff_of_true ⟨[], rfl⟩ (by simp)
  | cons x xs ih =>
    rw [List.forall_mem_cons, ← ih, List.mapM_cons]
    rcases hx : x.asStr with _ | t
    · refine iff_of_false (by simp) ?_
      rintro ⟨⟨t, rfl⟩, -⟩
      cases hx
    · rw [asStr_eq_some_iff] at hx
      subst hx
      rcases xs.mapM Value.asStr with _ | tags
      · simp
      · simp

theorem mem_tagsOf_iff {x : Value} :
    x ∈ tagsOf fact ↔ ∃ xs, fact.get "tags" = some (.arr xs) ∧ x ∈ xs := by
  rw [tagsOf]
  split
  · rename_i xs heq
    simp [heq]
  · rename_i hne
    exact iff_of_false List.not_mem_nil fun ⟨xs, heq, _⟩ => hne xs heq

/-- A text that is there, and no text. -/
theorem textOf_cases (fact : Fact) :
    (∃ s, fact.get "text" = some (.str s) ∧ textOf fact = some (stripPoints s)) ∨
    ((∀ s, fact.get "text" ≠ some (.str s)) ∧
      (∀ v, fact.get "text" = some v → v.truthy = false) ∧ textOf fact = some []) ∨
    ∃ v, fact.get "text" = some v ∧ v.truthy = true ∧ (∀ s, v ≠ .str s) ∧ textOf fact = none := by
  rcases hget : fact.get "text" with _ | v
  · exact .inr (.inl ⟨by simp, by simp, by rw [textOf, hget]⟩)
  rcases htext : v.asStr with _ | s
  · have hne : ∀ s, v ≠ .str s := fun s hs => by
      rw [asStr_eq_some_iff.2 hs] at htext
      cases htext
    rcases htruthy : v.truthy with _ | _
    · refine .inr (.inl ⟨by simpa using hne, by simpa using htruthy, ?_⟩)
      rw [textOf, hget]
      dsimp only
      rw [htruthy, if_neg Bool.false_ne_true]
    · refine .inr (.inr ⟨v, rfl, htruthy, hne, ?_⟩)
      rw [textOf, hget]
      dsimp only
      rw [htruthy, if_pos rfl, htext, Option.map_none]
  · obtain rfl := asStr_eq_some_iff.1 htext
    refine .inl ⟨s, rfl, ?_⟩
    rw [textOf, hget]
    dsimp only
    split_ifs with htruthy
    · rfl
    · have hempty : s = [] := by simpa [Value.truthy] using htruthy
      subst hempty
      rfl

theorem exists_confidenceOf_iff : (∃ c, confidenceOf floatOf fact = some c) ↔
    ∀ n : ℤ, fact.get "confidence" = some (.int n) → ∃ q, Binary64.ofRat n = .fin q := by
  rw [confidenceOf]
  split
  · simp_all
  · rename_i n hget
    simp only [hget, Option.some.injEq, Value.int.injEq, forall_eq']
    split
    · rename_i q hq
      simp [hq]
    · rename_i hne
      exact iff_of_false (by simp) fun ⟨q, hq⟩ => hne q hq
  · simp_all
  · simp_all
  · rename_i hint _ _
    exact iff_of_true ⟨_, rfl⟩ fun n hn => absurd hn (hint n)

/-- What is read of a fact is its text. -/
theorem readFact_text {read : Option Call} (h : readFact floatOf inboxTag fact = some read) :
    read.map Call.text = factText fact := by
  obtain ⟨text, htext, h⟩ := Option.bind_eq_some_iff.1 h
  rcases textOf_cases fact with ⟨s, hget, hs⟩ | ⟨hno, -, hs⟩ | ⟨v, -, -, -, hs⟩
  · obtain rfl := Option.some.inj (hs.symm.trans htext)
    rw [factText, hget]
    dsimp only
    split_ifs at h ⊢ with hblank
    · obtain rfl := Option.some.inj h
      rfl
    · obtain ⟨confidence, -, h⟩ := Option.bind_eq_some_iff.1 h
      obtain ⟨tags, -, h⟩ := Option.bind_eq_some_iff.1 h
      obtain rfl := Option.some.inj h
      rfl
  · obtain rfl := Option.some.inj (hs.symm.trans htext)
    rw [if_pos rfl] at h
    obtain rfl := Option.some.inj h
    rw [factText]
    split
    · rename_i s hget
      exact absurd hget (hno s)
    · rfl
  · cases hs.symm.trans htext

theorem exists_readFact_iff :
    (∃ read, readFact floatOf inboxTag fact = some read) ↔ Sound fact := by
  rcases textOf_cases fact with ⟨s, hget, hs⟩ | ⟨hno, hfalsy, hs⟩ | ⟨v, hget, htruthy, hne, hs⟩
  · have hsound : Sound fact ↔ (stripPoints s ≠ [] → (∃ c, confidenceOf floatOf fact = some c) ∧
        ∀ x ∈ tagsOf fact, ∃ t, x = .str t) := by
      rw [exists_confidenceOf_iff]
      constructor
      · intro h hblank
        refine ⟨h.confidence s hget hblank, fun x hx => ?_⟩
        obtain ⟨xs, hxs, hx⟩ := mem_tagsOf_iff.1 hx
        exact h.tags s hget hblank xs hxs x hx
      · intro h
        have hsame {s'} (hs' : fact.get "text" = some (.str s')) : s' = s :=
          (Value.str.inj (Option.some.inj (hget.symm.trans hs'))).symm
        refine ⟨fun v hv _ => ⟨s, Option.some.inj (hv.symm.trans hget)⟩, fun s' hs' hblank => ?_,
          fun s' hs' hblank xs hxs x hx => ?_⟩
        · exact (h (hsame hs' ▸ hblank)).1
        · exact (h (hsame hs' ▸ hblank)).2 x (mem_tagsOf_iff.2 ⟨xs, hxs, hx⟩)
    rw [hsound, ← exists_mapM_asStr_iff, readFact, hs]
    dsimp only [Option.bind_eq_bind, Option.bind_some]
    split_ifs with hblank
    · exact iff_of_true ⟨none, rfl⟩ fun h => absurd hblank h
    · rcases confidenceOf floatOf fact with _ | confidence
      · exact iff_of_false (by simp) fun h => by simpa using (h hblank).1
      · rcases (tagsOf fact).mapM Value.asStr with _ | tags
        · exact iff_of_false (by simp) fun h => by simpa using (h hblank).2
        · exact iff_of_true ⟨_, rfl⟩ fun _ => ⟨⟨_, rfl⟩, ⟨_, rfl⟩⟩
  · refine iff_of_true ⟨none, ?_⟩ ⟨fun v hv htruthy => ?_, fun s hs' => absurd hs' (hno s),
      fun s hs' => absurd hs' (hno s)⟩
    · rw [readFact, hs]
      rfl
    · exact absurd ((hfalsy v hv).symm.trans htruthy) Bool.false_ne_true
  · refine iff_of_false ?_ fun h => ?_
    · rintro ⟨read, hread⟩
      rw [readFact, hs] at hread
      cases hread
    · obtain ⟨s, rfl⟩ := h.text v hget htruthy
      exact hne s rfl

/-! ## The loop -/

/-- `memory.save` returns each time, for calls that are made one after the other. -/
def SavesEach : σ → List Call → Prop
  | _, [] => True
  | s, call :: calls => (memory.save s call.text call.allTags).2 = true ∧
      SavesEach (record memory threshold s call).1 calls

variable {memory threshold} {s : σ} {result result' : DreamingResult} {facts : List Fact}

theorem record_snd_eq_failed_iff {call : Call} : (record memory threshold s call).2 = .failed ↔
    (memory.save s call.text call.allTags).2 = false := by
  rw [record]
  split_ifs with hsaved hconfidence
  · dsimp only
    split_ifs
    · simp [hsaved]
    · simp [hsaved]
  · simp [hsaved]
  · simpa using hsaved

theorem factTexts_count (result : DreamingResult) (call : Call) (outcome : Outcome) :
    (result.count call outcome).factTexts =
      result.factTexts ++ if outcome = .failed then [] else [call.text] := by
  cases outcome
  · exact (List.append_nil _).symm
  · rfl
  · rfl

/-- A pass that ends has kept no more texts than the facts have. -/
theorem exists_factTexts_dreamFacts
    (h : (dreamFacts memory threshold floatOf inboxTag facts s result).2 = some result') :
    ∃ kept, result'.factTexts = result.factTexts ++ kept ∧
      kept.length ≤ (facts.filterMap factText).length := by
  induction facts generalizing s result with
  | nil =>
    obtain rfl := Option.some.inj h
    exact ⟨[], (List.append_nil _).symm, le_rfl⟩
  | cons fact facts ih =>
    rw [dreamFacts] at h
    rcases hread : readFact floatOf inboxTag fact with _ | _ | call
    · rw [hread] at h
      cases h
    · rw [hread] at h
      have htext : none = factText fact := readFact_text hread
      rw [List.filterMap_cons_none htext.symm]
      exact ih h
    · rw [hread] at h
      have htext : some call.text = factText fact := readFact_text hread
      rw [List.filterMap_cons_some htext.symm]
      obtain ⟨kept, hkept, hlength⟩ := ih h
      rw [factTexts_count, List.append_assoc] at hkept
      refine ⟨_, hkept, ?_⟩
      rw [List.length_append, List.length_cons]
      split_ifs
      · rw [List.length_nil]
        omega
      · rw [List.length_singleton]
        omega

/-- A pass ends and has kept every text exactly if all facts are sound and can be saved. -/
theorem dreamFacts_keeps_iff (result : DreamingResult) :
    (∃ result', (dreamFacts memory threshold floatOf inboxTag facts s result).2 = some result' ∧
      result'.factTexts = result.factTexts ++ facts.filterMap factText) ↔
    (∀ fact ∈ facts, Sound fact) ∧
      SavesEach memory threshold s (facts.filterMap (callOf floatOf inboxTag)) := by
  induction facts generalizing s result with
  | nil => exact iff_of_true ⟨result, rfl, (List.append_nil _).symm⟩ ⟨by simp, trivial⟩
  | cons fact facts ih =>
    have hsound : (∃ read, readFact floatOf inboxTag fact = some read) ↔ Sound fact :=
      exists_readFact_iff
    rw [dreamFacts, List.forall_mem_cons, and_assoc]
    rcases hread : readFact floatOf inboxTag fact with _ | _ | call
    · refine iff_of_false (by simp) fun h => ?_
      obtain ⟨read, hsome⟩ := hsound.2 h.1
      cases hread.symm.trans hsome
    · have htext : none = factText fact := readFact_text hread
      have hcall : callOf floatOf inboxTag fact = none := by rw [callOf, hread, Option.join_some]
      rw [List.filterMap_cons_none htext.symm, List.filterMap_cons_none hcall,
        and_iff_right (hsound.1 ⟨_, hread⟩)]
      exact ih result
    · have htext : some call.text = factText fact := readFact_text hread
      have hcall : callOf floatOf inboxTag fact = some call := by
        rw [callOf, hread, Option.join_some]
      rw [List.filterMap_cons_some htext.symm, List.filterMap_cons_some hcall, SavesEach,
        and_iff_right (hsound.1 ⟨_, hread⟩)]
      dsimp only
      by_cases hsaved : (memory.save s call.text call.allTags).2 = true
      · have houtcome : (record memory threshold s call).2 ≠ .failed := fun hfailed =>
          Bool.false_ne_true ((record_snd_eq_failed_iff.1 hfailed).symm.trans hsaved)
        rw [and_iff_right hsaved, ← ih (result.count call _), factTexts_count,
          if_neg houtcome, List.append_assoc, List.singleton_append]
      · have houtcome : (record memory threshold s call).2 = .failed :=
          record_snd_eq_failed_iff.2 (by simpa using hsaved)
        refine iff_of_false ?_ fun h => hsaved h.2.1
        rintro ⟨result', hresult, htexts⟩
        obtain ⟨kept, hkept, hlength⟩ := exists_factTexts_dreamFacts hresult
        rw [factTexts_count, if_pos houtcome, List.append_nil, htexts,
          List.append_cancel_left_eq] at hkept
        have := congrArg List.length hkept
        rw [List.length_cons] at this
        omega

/-! ## The pass -/

/-- The model answers with a text. -/
def Answers (world : World) (config : DreamingConfig) (session : Session) (raw : List Char) :
    Prop :=
  config.enabled = true ∧ config.minSessionTurns ≤ session.messages.length ∧ raw ≠ [] ∧
    ∃ message, world.attempt (session.prompt world.upper) = .message message ∧
      rawText message = raw

/-- The pass returns, and where the model answers, the texts it has saved are those of the facts
of the answer, up to the maximum, each fact's once and in order. -/
def Dreams (memory : Memory σ) (world : World) (config : DreamingConfig) (session : Session)
    (s : σ) : Prop :=
  ∃ result, (dreamSession memory world config session s).2 = some result ∧
    ∀ raw, Answers world config session raw → ∃ facts,
      parseFactsJson world.loads raw = .ok facts ∧
      result.factTexts = (sliceTo facts config.maxFactsPerSession).filterMap factText

variable {world : World} {config : DreamingConfig} {session : Session}

theorem dreamSession_of_answers (h : Answers world config session raw) :
    dreamSession memory world config session s =
      dreamText memory world config raw s { sessionKey := session.sessionKey } := by
  obtain ⟨henabled, hturns, hraw, message, hmessage, rfl⟩ := h
  unfold dreamSession
  rw [henabled, if_neg (by simp), if_neg (not_lt.2 hturns), hmessage]
  exact if_neg hraw

theorem exists_dreamSession_of_not (h : ∀ raw, ¬Answers world config session raw) :
    ∃ result, (dreamSession memory world config session s).2 = some result := by
  unfold dreamSession
  dsimp only
  split_ifs with henabled hturns
  · exact ⟨_, rfl⟩
  · exact ⟨_, rfl⟩
  · split
    · exact ⟨_, rfl⟩
    · exact ⟨_, rfl⟩
    · rename_i message hmessage
      split_ifs with hraw
      · exact ⟨_, rfl⟩
      · exact absurd ⟨by simpa using henabled, not_lt.1 hturns, hraw, message, hmessage, rfl⟩
          (h (rawText message))

/-- What the pass makes of an answer keeps every text exactly if all can be read and saved. -/
theorem dreamText_keeps_iff (memory : Memory σ) (world : World) (config : DreamingConfig)
    (raw : List Char) (s : σ) (result : DreamingResult) (hempty : result.factTexts = []) :
    (∃ result', (dreamText memory world config raw s result).2 = some result' ∧ ∃ facts,
      parseFactsJson world.loads raw = .ok facts ∧
      result'.factTexts = (sliceTo facts config.maxFactsPerSession).filterMap factText) ↔
    Readable world.loads raw ∧ ∀ facts, parseFactsJson world.loads raw = .ok facts →
      (∀ fact ∈ sliceTo facts config.maxFactsPerSession, Sound fact) ∧
      SavesEach memory config.autoPromoteThreshold s
        ((sliceTo facts config.maxFactsPerSession).filterMap
          (callOf world.floatOf config.inboxTag)) := by
  rw [← exists_parseFactsJson_iff, dreamText]
  rcases hparse : parseFactsJson world.loads raw with e | facts
  · refine iff_of_false ?_ ?_
    · rintro ⟨result', hresult, -⟩
      cases hresult
    · rintro ⟨⟨facts, hfacts⟩, -⟩
      cases hfacts
  · have hall {P : List Fact → Prop} : (∀ facts', (Except.ok facts : Except LoadError _) =
        .ok facts' → P facts') ↔ P facts := by
      refine ⟨fun h => h facts rfl, fun h facts' heq => ?_⟩
      cases heq
      exact h
    rw [hall, and_iff_right ⟨facts, rfl⟩, ← dreamFacts_keeps_iff result, hempty]
    dsimp only
    split_ifs with hnone
    · subst hnone
      have hslice : sliceTo ([] : List Fact) config.maxFactsPerSession = [] := List.take_nil
      rw [hslice]
      exact iff_of_true ⟨_, rfl, [], rfl, by rw [hslice]; exact List.filterMap_nil.symm⟩
        ⟨_, rfl, hempty⟩
    · simp

/-- The pass returns and every fact with a text is saved, exactly if for every answer that the
model gives : it can be read, none of its facts up to the maximum raises, and the memory can save
their texts. -/
theorem dreams_iff (memory : Memory σ) (world : World) (config : DreamingConfig)
    (session : Session) (s : σ) : Dreams memory world config session s ↔
    ∀ raw, Answers world config session raw → Readable world.loads raw ∧
      ∀ facts, parseFactsJson world.loads raw = .ok facts →
        (∀ fact ∈ sliceTo facts config.maxFactsPerSession, Sound fact) ∧
        SavesEach memory config.autoPromoteThreshold s
          ((sliceTo facts config.maxFactsPerSession).filterMap
            (callOf world.floatOf config.inboxTag)) := by
  by_cases hany : ∃ raw, Answers world config session raw
  · obtain ⟨raw, hraw⟩ := hany
    have honly {raw'} (h : Answers world config session raw') : raw' = raw := by
      obtain ⟨-, -, -, message, hmessage, rfl⟩ := hraw
      obtain ⟨-, -, -, message', hmessage', rfl⟩ := h
      cases hmessage.symm.trans hmessage'
      rfl
    have hkeeps := dreamText_keeps_iff memory world config raw s
      { sessionKey := session.sessionKey } rfl
    rw [← dreamSession_of_answers hraw] at hkeeps
    constructor
    · rintro ⟨result, hresult, htexts⟩ raw' hraw'
      obtain rfl := honly hraw'
      exact hkeeps.1 ⟨result, hresult, htexts raw' hraw'⟩
    · intro h
      obtain ⟨result, hresult, htexts⟩ := hkeeps.2 (h raw hraw)
      refine ⟨result, hresult, fun raw' hraw' => ?_⟩
      obtain rfl := honly hraw'
      exact htexts
  · push Not at hany
    obtain ⟨result, hresult⟩ := exists_dreamSession_of_not hany
    exact iff_of_true ⟨result, hresult, fun raw hraw => absurd hraw (hany raw)⟩
      fun raw hraw => absurd hraw (hany raw)

/-! ## Answers at hand -/

/-- A model that gives one answer, which loads as a list. -/
def answerWorld (raw : List Char) (values : List Value) : World where
  attempt _ := .message ⟨[.text (String.ofList raw)], some "end_turn", none⟩
  loads s := if s = raw then .value (.arr values) else .decodeError
  floatOf _ := none
  upper := id

theorem rawText_answer (raw : List Char) :
    rawText ⟨[.text (String.ofList raw)], some "end_turn", none⟩ = strip raw := by
  have hchars : rawText ⟨[.text (String.ofList raw)], some "end_turn", none⟩ =
      strip ((String.ofList raw).toList ++ []) := rfl
  rw [hchars, String.toList_ofList, List.append_nil]

theorem parseFactsJson_answerWorld {raw : List Char} (hblank : strip raw ≠ [])
    (values : List Value) : parseFactsJson (answerWorld raw values).loads raw =
      .ok (values.filterMap Value.asDict) := by
  refine parseFactsJson_of_facts (?_ : repairAndParse _ raw = .ok (.arr values)) rfl
  have hloads : (answerWorld raw values).loads raw = .value (.arr values) := by
    change (if raw = raw then Loaded.value (.arr values) else Loaded.decodeError) = _
    rw [if_pos rfl]
  rw [repairAndParse, if_neg hblank, tried, firstLoaded, hloads]

/-- `[{"text":5},{"text":"a"}]`. -/
def numberAnswer : List Char :=
  ['[', '\x7b', '"', 't', 'e', 'x', 't', '"', ':', '5', '\x7d', ',',
    '\x7b', '"', 't', 'e', 'x', 't', '"', ':', '"', 'a', '"', '\x7d', ']']

/-- A fact whose text is a number, and one with a text. -/
def numberFacts : List Value :=
  [.obj [(CodePoints.lit "text", .int 5)],
    .obj [(CodePoints.lit "text", .str (CodePoints.lit "a"))]]

/-- The number has no `strip`, and the fact behind it is not saved. -/
theorem numberAnswer_not_dreams : ¬Dreams (σ := Unit) ⟨fun s _ _ => (s, true),
    fun s _ _ _ => (s, true)⟩ (answerWorld numberAnswer numberFacts)
    ⟨true, 10, .fin 1, CodePoints.lit "dreaming", 0⟩ ⟨"a", "s", []⟩ () := by
  rintro ⟨result, hresult, -⟩
  have hanswers : Answers (answerWorld numberAnswer numberFacts)
      ⟨true, 10, .fin 1, CodePoints.lit "dreaming", 0⟩ ⟨"a", "s", []⟩ numberAnswer :=
    ⟨rfl, le_rfl, by decide, _, rfl, rawText_answer numberAnswer⟩
  rw [dreamSession_of_answers hanswers, dreamText, parseFactsJson_answerWorld (by decide)]
    at hresult
  cases hresult

end OxenClaw.Dreaming
