import OxenClaw.Pi.Run.Assemble

/-!
# Exceptions of `run_attempt`

`repair_and_parse` catches `JSONDecodeError` only. `json.loads` raises other exceptions too, for a
text that is nested too deeply or has an integer of too many digits, and then the ladder raises.
`ToolUseBlock` raises for an input that is no object. Here the ladder is climbed rung by rung with
what `json.loads` does (`Loaded`), and `none` is an exception.

Without those exceptions it is the ladder of `repairAndParse` (`climb_eq`). A stream is assembled
exactly if every call with a name and a text has one that is repaired to an object or not at all
(`assembles_iff`).
-/

namespace OxenClaw

/-- What `json.loads` does. -/
inductive Loaded where
  | value (v : Json)
  | decodeError
  /-- Another exception. -/
  | raises

/-- The value, where nothing is raised. -/
def Loaded.value? : Loaded → Option Json
  | .value v => some v
  | _ => none

namespace JsonRepair

/-- A rung for a text the repair has changed. -/
def rung (before after : List Char) (label : String) : List (String × String) :=
  if after = before then [] else [(String.ofList after, label)]

/-- The texts `repair_and_parse` tries, with their labels. -/
def rungs (raw : String) : List (String × String) :=
  let s := raw.toList
  let candidate := stripCodeFence s
  let repaired := repairSteps candidate
  let quoted := singleToDoubleQuotes repaired
  (raw, "") :: rung s candidate "code-fence" ++ rung candidate repaired "regex-cleanup" ++
    rung repaired quoted "single-quotes" ++ rung quoted (balanceBraces quoted) "balance-braces"

/-- The first text that parses. -/
def climb (loads : String → Loaded) : List (String × String) → Option (Json × String)
  | [] => some (.null, "")
  | (text, label) :: rest =>
    match loads text with
    | .value v => some (v, label)
    | .decodeError => climb loads rest
    | .raises => none

/-- `repair_and_parse`. -/
def tryRepairs (loads : String → Loaded) (raw : String) : Option (Json × String) :=
  if Py.strip raw.toList = [] then some (.null, "") else climb loads (rungs raw)

variable {loads : String → Loaded}

/-- A rung is tried, and the rest where it does not parse. -/
theorem climb_rung (hraises : ∀ text, loads text ≠ .raises) (before after : List Char)
    (label : String) (rest : List (String × String)) :
    climb loads (rung before after label ++ rest) =
      (tryParse (fun text => (loads text).value?) before after label).elim
        (climb loads rest) some := by
  unfold rung tryParse
  split_ifs
  · rfl
  · rcases h : loads (String.ofList after) with v | _ | _
    · simp [climb, h, Loaded.value?]
    · simp [climb, h, Loaded.value?]
    · exact absurd h (hraises _)

/-- Where `json.loads` raises nothing else, this is the ladder. -/
theorem tryRepairs_eq (hraises : ∀ text, loads text ≠ .raises) (raw : String) :
    tryRepairs loads raw = some (repairAndParse (fun text => (loads text).value?) raw) := by
  have helim : ∀ (o : Option (Json × String)) (o' : Option (Json × String)) (d : Json × String),
      o.elim (some (o'.getD d)) some = some ((o.or o').getD d) := by
    rintro (_ | v) o' d <;> rfl
  have hlast (before after : List Char) (label : String) :
      climb loads (rung before after label) = some
        ((tryParse (fun text => (loads text).value?) before after label).getD (.null, "")) := by
    have hrest := climb_rung hraises before after label []
    rw [List.append_nil] at hrest
    rw [hrest]
    exact (helim _ none _).trans (by rw [Option.or_none])
  unfold tryRepairs repairAndParse
  simp only
  split_ifs
  · rfl
  · unfold rungs
    simp only [List.cons_append, List.append_assoc]
    rw [climb]
    rcases h : loads raw with v | _ | _
    · rfl
    · rw [show (Loaded.decodeError).value? = none from rfl, Option.map_none, Option.none_or,
        climb_rung hraises, climb_rung hraises, climb_rung hraises, hlast, helim, helim, helim]
    · exact absurd h (hraises raw)

end JsonRepair

/-! ## The message -/

/-- The block of one call. -/
def raisingBlock (loads : String → Loaded) (call : ToolCall) : Option ToolUseBlock :=
  let flagged : Args := [("_raw", .str call.arguments), ("_parse_error", .bool true)]
  if call.name = "" then toolUseBlock call.id "_unknown" (.obj flagged)
  else if call.arguments = "" then toolUseBlock call.id call.name (.obj [])
  else
    match JsonRepair.tryRepairs loads call.arguments with
    | none => none
    | some (.null, _) => toolUseBlock call.id call.name (.obj flagged)
    | some (parsed, _) => toolUseBlock call.id call.name parsed

/-- `run_attempt`, over the events of the provider's stream. -/
def raisingAttempt (lower : String → String) (sameLetter : Char → Char → Bool)
    (loads : String → Loaded) (events : List AssistantMessageEvent) : Option AttemptResult := do
  let c := collect {} events
  let blocks ← c.tools.calls.mapM (raisingBlock loads)
  let content := c.spoken lower sameLetter ++ blocks.map .toolUse
  return {
    message := {
      content := if content.isEmpty then [.text ""] else content
      stopReason := some (if given c.stopReason = "" then
          (if c.error.isSome then "error" else "end_turn") else given c.stopReason)
      usage := c.usage }
    usage := c.usage
    error := c.error
    textEmitted := c.textEmitted }

variable {loads : String → Loaded} {lower : String → String} {sameLetter : Char → Char → Bool}
  {events : List AssistantMessageEvent}

/-- Where `json.loads` raises nothing else, this is `runAttempt`. -/
theorem raisingAttempt_eq (hraises : ∀ text, loads text ≠ .raises) :
    raisingAttempt lower sameLetter loads events =
      runAttempt lower sameLetter (fun text => (loads text).value?) events := by
  have hblock : raisingBlock loads = toolBlock fun text => (loads text).value? := by
    funext call
    unfold raisingBlock toolBlock
    rw [JsonRepair.tryRepairs_eq hraises]
    generalize JsonRepair.repairAndParse _ call.arguments = parsed
    obtain ⟨v, label⟩ := parsed
    rcases v with _ | _ | _ | _ | _ | _ | _ <;> rfl
  unfold raisingAttempt runAttempt Collected.message
  rw [hblock]
  simp [Option.bind_assoc]

/-- What `run_attempt` may give a call for its text : the decoded object, or a flag. A call without
text has no arguments. -/
def InputOf (loads : String → Loaded) (call : ToolCall) (input : Args) : Prop :=
  input = [("_raw", .str call.arguments), ("_parse_error", .bool true)] ∨
    call.arguments = "" ∧ input = [] ∨
    ∃ label, JsonRepair.tryRepairs loads call.arguments = some (.obj input, label)

/-- The stream is assembled, and the input of every block is one of these. -/
def Assembles (lower : String → String) (sameLetter : Char → Char → Bool)
    (loads : String → Loaded) (events : List AssistantMessageEvent) : Prop :=
  ∃ result, raisingAttempt lower sameLetter loads events = some result ∧
    List.Forall₂ (fun (call : ToolCall) (block : ToolUseBlock) =>
        block.id = call.id ∧ InputOf loads call block.input)
      (collect {} events).tools.calls result.message.toolUses

/-- The text of the call is repaired to an object, or to nothing, without an exception. -/
def Repairs (loads : String → Loaded) (call : ToolCall) : Prop :=
  call.name = "" ∨ call.arguments = "" ∨ ∃ v label,
    JsonRepair.tryRepairs loads call.arguments = some (v, label) ∧
      (v = .null ∨ ∃ fields, v = .obj fields)

theorem isSome_toolUseBlock (id name : String) (v : Json) :
    (toolUseBlock id name v).isSome = true ↔ ∃ fields, v = .obj fields := by
  rcases v with _ | _ | _ | _ | _ | _ | fields <;> simp [toolUseBlock]

/-- A call has a block exactly if it repairs, and the block has an input of its text. -/
theorem raisingBlock_spec (loads : String → Loaded) (call : ToolCall) :
    ((raisingBlock loads call).isSome = true ↔ Repairs loads call) ∧
      ∀ block, raisingBlock loads call = some block →
        block.id = call.id ∧ InputOf loads call block.input := by
  unfold raisingBlock Repairs
  simp only
  split_ifs with hname hargs
  · refine ⟨by simp [toolUseBlock, hname], fun block h => ?_⟩
    obtain rfl := Option.some.inj h
    exact ⟨rfl, Or.inl rfl⟩
  · refine ⟨by simp [toolUseBlock, hargs], fun block h => ?_⟩
    obtain rfl := Option.some.inj h
    exact ⟨rfl, Or.inr (Or.inl ⟨hargs, rfl⟩)⟩
  · split
    · next hrepairs => simp [hname, hargs, hrepairs]
    · next label hrepairs =>
      refine ⟨by simp [toolUseBlock, hrepairs], fun block h => ?_⟩
      obtain rfl := Option.some.inj h
      exact ⟨rfl, Or.inl rfl⟩
    · next parsed label hnull hrepairs =>
      have hnot : parsed ≠ .null := hnull
      rw [isSome_toolUseBlock]
      refine ⟨by simp [hname, hargs, hrepairs, hnot], fun block h => ?_⟩
      obtain ⟨fields, rfl⟩ := (isSome_toolUseBlock call.id call.name parsed).1 (by rw [h]; rfl)
      obtain rfl := Option.some.inj h
      exact ⟨rfl, Or.inr (Or.inr ⟨label, hrepairs⟩)⟩

theorem assembles_iff (lower : String → String) (sameLetter : Char → Char → Bool)
    (loads : String → Loaded) (events : List AssistantMessageEvent) :
    Assembles lower sameLetter loads events ↔
      ∀ call ∈ (collect {} events).tools.calls, Repairs loads call := by
  have hspec := raisingBlock_spec loads
  constructor
  · rintro ⟨result, hresult, -⟩ call hcall
    obtain ⟨blocks, hblocks, -⟩ := Option.bind_eq_some_iff.1 hresult
    have hmap : raisingBlock loads call ∈ blocks.map some := by
      rw [← Traverse.mapM_eq_some_iff.1 hblocks]
      exact List.mem_map_of_mem hcall
    obtain ⟨block, -, hblock⟩ := List.mem_map.1 hmap
    exact (hspec call).1.1 (by rw [← hblock]; rfl)
  · intro hrepairs
    have hblocks : (collect {} events).tools.calls.map (raisingBlock loads) =
        ((collect {} events).tools.calls.filterMap (raisingBlock loads)).map some := by
      rw [List.map_filterMap]
      rw [← List.filterMap_eq_map]
      refine List.filterMap_congr fun call hcall => ?_
      obtain ⟨block, hblock⟩ := Option.isSome_iff_exists.1 ((hspec call).1.2 (hrepairs call hcall))
      simp [hblock]
    refine ⟨_, Option.bind_eq_some_iff.2 ⟨_, Traverse.mapM_eq_some_iff.2 hblocks, rfl⟩, ?_⟩
    have heach : List.Forall₂ (fun call block => raisingBlock loads call = some block)
        (collect {} events).tools.calls
        ((collect {} events).tools.calls.filterMap (raisingBlock loads)) := by
      rw [← List.forall₂_map_right_iff, ← List.forall₂_map_left_iff, hblocks]
      exact List.forall₂_refl _
    rw [AssistantMessage.toolUses, toolUse?_content]
    exact heach.imp fun call block h => (hspec call).2 block h

/-- `json.loads` of a text that is the array `[1]`. -/
def loadsArray (text : String) : Loaded :=
  if text = "[1]" then .value (.arr [.int 1]) else .decodeError

/-- Arguments that are an array are no object, and `ToolUseBlock` raises. -/
theorem array_not_assembles :
    ¬Assembles id (· = ·) loadsArray [.toolUseStart "a" "shell", .toolUseInputDelta "a" "[1]"] := by
  have hattempt : raisingAttempt id (· = ·) loadsArray
      [.toolUseStart "a" "shell", .toolUseInputDelta "a" "[1]"] = none := by decide
  rintro ⟨result, hresult, -⟩
  rw [hattempt] at hresult
  cases hresult

end OxenClaw
