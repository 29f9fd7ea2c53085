import OxenClaw.Agents.Tools

/-!
# Tool calls written as text

A model that has no structured tool calls writes them as JSON into its reply.
`extractPseudoToolCall` finds the first object, in a fenced block or bare, whose name is a
known tool's or whose keys fit one tool's schema.
-/

namespace OxenClaw

/-- `PseudoToolCall`. -/
structure PseudoToolCall where
  name : String
  args : Args
  rawBlock : String

namespace PseudoTool

/-! ## Candidate texts -/

def fence : List Char := "```".toList

/-- `(?:json|JSON)?\s*` -/
def dropLanguage (s : List Char) : List Char :=
  let rest := if "json".toList.isPrefixOf s || "JSON".toList.isPrefixOf s then s.drop 4 else s
  rest.dropWhile Py.isSpace

/-- The groups of `_FENCED_BLOCK.finditer`, of which there are at most `fuel`. A fence that
nothing closes ends the search. -/
def fencedBlocks : ℕ → List Char → List (List Char)
  | 0, _ => []
  | fuel + 1, s =>
    match Py.partition fence s with
    | none => []
    | some (_, rest) =>
      match Py.partition fence (dropLanguage rest) with
      | none => []
      | some (block, rest) => block :: fencedBlocks fuel rest

/-- The locals of `_bare_top_level_objects`, with the text since the opening brace. -/
structure Scan where
  depth : ℕ := 0
  current : List Char := []
  inString : Bool := false
  escape : Bool := false

/-- One character, and the object it closes. -/
def Scan.next (s : Scan) (c : Char) : Scan × Option (List Char) :=
  let s := if s.depth = 0 then s else { s with current := s.current ++ [c] }
  if s.inString then
    if s.escape then ({ s with escape := false }, none)
    else if c = '\\' then ({ s with escape := true }, none)
    else ({ s with inString := c ≠ '"' }, none)
  else if c = '"' then ({ s with inString := true }, none)
  else if c = '{' then
    ({ s with depth := s.depth + 1, current := if s.depth = 0 then [c] else s.current }, none)
  else if c = '}' then
    match s.depth with
    | 0 => (s, none)
    | 1 => ({ s with depth := 0, current := [] }, some s.current)
    | depth + 1 => ({ s with depth }, none)
  else (s, none)

/-- `_bare_top_level_objects`, from the state `s` on. -/
def bareTopLevelObjects : Scan → List Char → List (List Char)
  | _, [] => []
  | s, c :: cs =>
    match s.next c with
    | (s, none) => bareTopLevelObjects s cs
    | (s, some found) => found :: bareTopLevelObjects s cs

/-- The texts that may be a call : the fenced blocks, or the bare objects if there are none. -/
def candidates (text : List Char) : List (List Char) :=
  let blocks := ((fencedBlocks text.length text).map Py.strip).filter (· ≠ [])
  if blocks = [] then bareTopLevelObjects {} text else blocks

/-! ## Candidate objects -/

/-- The object under a key. -/
def objectAt (o : Args) (key : String) : List Args :=
  match o.get key with
  | some (.obj inner) => [inner]
  | _ => []

/-- An object of `tool_calls` and its function. -/
def flattenToolCall : Json → List Args
  | .obj tc => tc :: objectAt tc "function"
  | _ => []

def flattenObject (o : Args) : List Args :=
  o :: objectAt o "function" ++
    match o.get "tool_calls" with
    | some (.arr tcs) => tcs.flatMap flattenToolCall
    | _ => []

/-- `_flatten_call_candidates`. -/
def flattenCallCandidates : Json → List Args
  | .obj o => flattenObject o
  | .arr items => items.flatMap fun
    | .obj o => flattenObject o
    | _ => []
  | _ => []

/-- `_NAME_KEYS`. -/
def nameKeys : List String := ["tool", "tool_name", "name", "function_name"]

/-- `_ARGS_KEYS`. -/
def argsKeys : List String := ["arguments", "args", "input", "parameters", "params", "inputs"]

/-- The name under a key, if it is not blank. -/
def nameAt (o : Args) (key : String) : Option String :=
  match o.get key with
  | some (.str v) => some (Py.stripString v) |>.filter (· ≠ "")
  | _ => none

/-- The arguments under a key, which may be JSON text. -/
def argsAt (loads : String → Option Json) (o : Args) (key : String) : Option Args :=
  match o.get key with
  | some (.obj v) => some v
  | some (.str v) =>
    match loads v with
    | some (.obj inner) => some inner
    | _ => none
  | _ => none

/-- `_coerce_to_call`. -/
def coerceToCall (loads : String → Option Json) (o : Args) : Option (String × Args) :=
  (nameKeys.findSome? (nameAt o)).map fun name =>
    let flatArgs := o.filter fun e => e.1 ∉ nameKeys && e.1 ∉ argsKeys
    (name, (argsKeys.findSome? (argsAt loads o)).getD flatArgs)

/-- How well the keys fit a schema, `none` if they do not. -/
def specificity (keys : List String) (schema : InputSchema) : Option ℕ :=
  let required := schema.required.dedup
  if required = [] then none
  else if ¬required.all (· ∈ keys) then none
  else if ¬schema.additionalProperties ∧ ¬keys.all (· ∈ schema.properties) then none
  else some (required.length + (keys.filter (· ∈ schema.properties)).length)

/-- One schema's turn, where a tie leaves no name. -/
def betterMatch (keys : List String) (best : Option (ℕ × String))
    (entry : String × InputSchema) : Option (ℕ × String) :=
  match specificity keys entry.2, best with
  | none, best => best
  | some n, none => some (n, entry.1)
  | some n, some (m, name) =>
    if m < n then some (n, entry.1) else if n = m then some (n, "") else some (m, name)

/-- `_match_to_schema`. -/
def matchToSchema (o : Args) (schemas : Dict String InputSchema) : Option String :=
  if o = [] then none
  else
    let keys := (o.map Prod.fst).dedup
    ((schemas.foldl (betterMatch keys) none).map Prod.snd).filter (· ≠ "")

/-! ## The call -/

/-- The name and the arguments of a candidate object, if its tool is known. -/
def callOf (loads : String → Option Json) (isKnownTool : String → Bool)
    (toolSchemas : Dict String InputSchema) (o : Args) : Option (String × Args) :=
  let call :=
    match coerceToCall loads o with
    | some call => some call
    | none => (matchToSchema o toolSchemas).map fun name => (name, o)
  call.filter fun c => isKnownTool c.1

/-- `extract_pseudo_tool_call`. -/
def extractPseudoToolCall (loads : String → Option Json) (text : String)
    (isKnownTool : String → Bool) (toolSchemas : Dict String InputSchema) :
    Option PseudoToolCall :=
  (candidates text.toList).findSome? fun raw => do
    let parsed ← loads (String.ofList raw)
    let call ← (flattenCallCandidates parsed).findSome? (callOf loads isKnownTool toolSchemas)
    some ⟨call.1, call.2, String.ofList (raw.take 200)⟩

/-- What is extracted names a known tool. -/
theorem known_of_extract {loads : String → Option Json} {text : String}
    {isKnownTool : String → Bool} {toolSchemas : Dict String InputSchema} {p : PseudoToolCall}
    (h : extractPseudoToolCall loads text isKnownTool toolSchemas = some p) :
    isKnownTool p.name = true := by
  obtain ⟨raw, -, hraw⟩ := List.exists_of_findSome?_eq_some h
  obtain ⟨parsed, -, hparsed⟩ := Option.bind_eq_some_iff.1 hraw
  obtain ⟨call, hcall, hp⟩ := Option.bind_eq_some_iff.1 hparsed
  obtain ⟨o, -, ho⟩ := List.exists_of_findSome?_eq_some hcall
  obtain rfl := Option.some.inj hp
  exact (Option.filter_eq_some_iff.1 ho).2

end PseudoTool

end OxenClaw
