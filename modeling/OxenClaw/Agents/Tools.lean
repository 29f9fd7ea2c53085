import OxenClaw.Lib.Dict
import OxenClaw.Lib.Python
import OxenClaw.Pi.Tools

/-!
# Tool names

`canonicaliseToolName` folds the spellings of one name together and `toolNameAliases`
maps what models invent to what is registered. `resolveTool` is the run loop's lookup and
`ToolRegistry.get` the registry's : first the exact name, then the canonical one, then
the alias.
-/

namespace OxenClaw

/-- `s.replace(":", "_").replace(".", "_").replace("-", "_")`, for one character. -/
def underscored (c : Char) : Char :=
  if c = ':' ∨ c = '.' ∨ c = '-' then '_' else c

/-- `_canonicalise_tool_name`. -/
def canonicaliseToolName (text : PyText) (name : String) : String :=
  String.ofList ((text.lower (Py.stripString name)).toList.map underscored)

/-- `_TOOL_NAME_ALIASES`. -/
def toolNameAliases : Dict String String :=
  [("memory_set_fact", "memory_save"), ("set_fact", "memory_save"),
    ("remember", "memory_save"), ("remember_fact", "memory_save"),
    ("save_memory", "memory_save"), ("memory_set", "memory_save"),
    ("memory_add", "memory_save"), ("memory_save_fact", "memory_save"),
    ("memory_save_to_inbox", "memory_save"), ("store_memory", "memory_save"),
    ("memory_remember", "memory_save"), ("memory_recall", "memory_search"),
    ("recall", "memory_search"), ("memory_query", "memory_search"),
    ("memory_lookup", "memory_search"), ("memory_find", "memory_search"),
    ("memory_get_fact", "memory_search"), ("memory_read", "memory_get"),
    ("memory_fetch", "memory_get"), ("wiki_create", "wiki_save"), ("wiki_update", "wiki_save"),
    ("wiki_edit", "wiki_save"), ("wiki_query", "wiki_search"), ("wiki_lookup", "wiki_search"),
    ("skill_install", "skill_resolver"), ("skill_find", "skill_resolver"),
    ("find_skill", "skill_resolver"), ("install_skill", "skill_resolver"),
    ("message_send_message", "message"), ("message_send", "message"),
    ("send_message", "message"), ("send", "message"), ("message_post", "message"),
    ("post_message", "message"), ("message_reply", "message"), ("reply", "message"),
    ("weather_lookup", "weather"), ("get_weather", "weather"), ("weather_get", "weather"),
    ("weather_now", "weather"), ("current_weather", "weather"), ("search_web", "web_search"),
    ("websearch", "web_search"), ("google_search", "web_search"),
    ("google_search_search", "web_search"), ("google", "web_search"),
    ("google_search_", "web_search"), ("ddg_search", "web_search"),
    ("duckduckgo", "web_search"), ("duckduckgo_search", "web_search"), ("bing", "web_search"),
    ("bing_search", "web_search"), ("search_engine", "web_search"),
    ("internet_search", "web_search"), ("online_search", "web_search"),
    ("fetch_url", "web_fetch"), ("fetch_web", "web_fetch"), ("url_fetch", "web_fetch"),
    ("http_get", "web_fetch"), ("browse", "web_fetch"), ("browse_url", "web_fetch"),
    ("open_url", "web_fetch"), ("visit_url", "web_fetch"), ("github_get", "github"),
    ("github_query", "github"), ("gh", "github"), ("cron_create", "cron"), ("cron_add", "cron"),
    ("schedule", "cron"), ("schedule_job", "cron"), ("now", "get_time"),
    ("current_time", "get_time"), ("time_now", "get_time"), ("time_get", "get_time"),
    ("sessions_create", "sessions_spawn"), ("subagent_spawn", "sessions_spawn"),
    ("spawn_subagent", "sessions_spawn"), ("spawn_session", "sessions_spawn"),
    ("yield_session", "sessions_yield"), ("yield", "sessions_yield"),
    ("plan_update", "update_plan"), ("update_planning", "update_plan"),
    ("health_check", "healthcheck"), ("health", "healthcheck")]

/-- `{t.name: t for t in tools}`. -/
def toolsByName (tools : List AgentTool) : Dict String AgentTool :=
  Dict.ofList (tools.map fun t => (t.name, t))

/-- The lookup of `_run_tools` : exact, canonical, alias. -/
def resolveTool (text : PyText) (tools : Dict String AgentTool) (name : String) :
    Option AgentTool :=
  match tools.get? name with
  | some tool => some tool
  | none =>
    let canon := canonicaliseToolName text name
    match tools.find? fun e => canonicaliseToolName text e.1 = canon with
    | some (_, tool) => some tool
    | none => (toolNameAliases.get? canon).bind tools.get?

/-- `ToolRegistry`, whose second index is keyed by the canonical names. -/
structure ToolRegistry where
  tools : Dict String AgentTool := []
  byCanon : Dict String AgentTool := []

/-- `ToolRegistry.register`, `none` when the name is taken. -/
def ToolRegistry.register (text : PyText) (registry : ToolRegistry) (tool : AgentTool) :
    Option ToolRegistry :=
  match registry.tools.get? tool.name with
  | some _ => none
  | none => some ⟨registry.tools.set tool.name tool,
      registry.byCanon.set (canonicaliseToolName text tool.name) tool⟩

/-- `ToolRegistry.get`. -/
def ToolRegistry.get (text : PyText) (registry : ToolRegistry) (name : String) :
    Option AgentTool :=
  match registry.tools.get? name with
  | some tool => some tool
  | none =>
    let canon := canonicaliseToolName text name
    match registry.byCanon.get? canon with
    | some tool => some tool
    | none => (toolNameAliases.get? canon).bind registry.tools.get?

/-- What a name resolves to is one of the tools. -/
theorem mem_of_resolveTool {text : PyText} {tools : Dict String AgentTool} {name : String}
    {tool : AgentTool} (h : resolveTool text tools name = some tool) :
    ∃ key, (key, tool) ∈ tools := by
  unfold resolveTool at h
  cases hexact : tools.get? name with
  | some t =>
    rw [hexact] at h
    obtain rfl : t = tool := Option.some.inj h
    exact ⟨name, Dict.mem_of_get? hexact⟩
  | none =>
    rw [hexact] at h
    dsimp only at h
    cases hcanon : tools.find? fun e =>
        canonicaliseToolName text e.1 = canonicaliseToolName text name with
    | some e =>
      rw [hcanon] at h
      obtain rfl : e.2 = tool := Option.some.inj h
      exact ⟨e.1, List.mem_of_find?_eq_some hcanon⟩
    | none =>
      rw [hcanon] at h
      obtain ⟨aliased, -, hget⟩ := Option.bind_eq_some_iff.1 h
      exact ⟨aliased, Dict.mem_of_get? hget⟩

end OxenClaw
