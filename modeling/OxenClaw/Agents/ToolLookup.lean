import OxenClaw.Agents.Tools

/-!
# The two lookups of a tool

The registry keeps the last tool registered under a canonical name, the run loop takes the
first that has it. Both read the same tools (`toolsByName_tools`), so that they disagree on a
name exactly when it is not a tool's own and two tools share its canonical form
(`get_eq_resolveTool_iff`).
-/

namespace OxenClaw

variable {text : PyText}

/-- `registry.register(tool)`, which changes nothing where it raises. -/
def ToolRegistry.registering (text : PyText) (registry : ToolRegistry) (tool : AgentTool) :
    ToolRegistry :=
  (registry.register text tool).getD registry

/-- The registry after a sequence of calls of `register`. -/
def ToolRegistry.ofCalls (text : PyText) (calls : List AgentTool) : ToolRegistry :=
  calls.foldl (ToolRegistry.registering text) {}

/-- The two indexes hold the same tools : under each canonical name the last one. -/
structure ToolRegistry.Indexed (text : PyText) (registry : ToolRegistry) : Prop where
  nodup : (Dict.keys registry.tools).Nodup
  name_eq : ∀ e ∈ registry.tools, e.1 = e.2.name
  byCanon : ∀ canon, registry.byCanon.get? canon =
    (registry.tools.reverse.find? fun e => canonicaliseToolName text e.1 = canon).map Prod.snd

namespace ToolRegistry

/-- A call either finds its name taken or adds its tool at the end. -/
theorem registering_cases (registry : ToolRegistry) (tool : AgentTool) :
    (tool.name ∈ Dict.keys registry.tools ∧ registry.registering text tool = registry) ∨
      (tool.name ∉ Dict.keys registry.tools ∧ registry.registering text tool =
        ⟨registry.tools ++ [(tool.name, tool)],
          registry.byCanon.set (canonicaliseToolName text tool.name) tool⟩) := by
  unfold registering register
  cases hget : registry.tools.get? tool.name with
  | some t => exact Or.inl ⟨Dict.mem_keys_iff.2 ⟨t, hget⟩, rfl⟩
  | none =>
    have hnew := Dict.get?_eq_none_iff.1 hget
    exact Or.inr ⟨hnew, by rw [← Dict.set_of_notMem_keys tool hnew]; rfl⟩

theorem Indexed.registering {registry : ToolRegistry} (h : registry.Indexed text)
    (tool : AgentTool) : (registry.registering text tool).Indexed text := by
  obtain ⟨-, heq⟩ | ⟨hnew, heq⟩ := @registering_cases text registry tool
  · rwa [heq]
  · rw [heq]
    refine ⟨?_, fun e he => ?_, fun canon => ?_⟩
    · rw [Dict.keys, List.map_append]
      exact h.nodup.append (List.nodup_singleton _) (by simpa using hnew)
    · rcases List.mem_append.1 he with he | he
      · exact h.name_eq e he
      · rw [List.mem_singleton.1 he]
    · rw [Dict.get?_set, List.reverse_append, List.reverse_singleton, List.singleton_append,
        List.find?_cons, h.byCanon]
      by_cases hc : canonicaliseToolName text tool.name = canon
      · simp [hc]
      · simp [hc, Ne.symm hc]

theorem indexed_ofCalls (calls : List AgentTool) : (ofCalls text calls).Indexed text := by
  induction calls using List.reverseRecOn with
  | nil => exact ⟨List.nodup_nil, fun e he => absurd he List.not_mem_nil, fun _ => rfl⟩
  | append_singleton calls tool ih =>
    rw [ofCalls, List.foldl_append]
    exact ih.registering tool

/-- The names of the tools are those the calls gave. -/
theorem mem_keys_ofCalls {calls : List AgentTool} {name : String} :
    name ∈ Dict.keys (ofCalls text calls).tools ↔ name ∈ calls.map AgentTool.name := by
  induction calls using List.reverseRecOn with
  | nil => exact Iff.rfl
  | append_singleton calls tool ih =>
    rw [ofCalls, List.foldl_append, List.foldl_cons, List.foldl_nil, ← ofCalls, List.map_append,
      List.mem_append, ← ih, List.map_singleton, List.mem_singleton]
    obtain ⟨htaken, heq⟩ | ⟨-, heq⟩ := @registering_cases text (ofCalls text calls) tool
    · rw [heq]
      exact ⟨Or.inl, fun h => h.elim id fun hname => hname ▸ htaken⟩
    · rw [heq, Dict.keys, List.map_append, List.mem_append, List.map_singleton,
        List.mem_singleton]
      rfl

/-- The run loop's table of the registry's tools is the registry's own. -/
theorem Indexed.toolsByName_tools {registry : ToolRegistry} (h : registry.Indexed text) :
    toolsByName (registry.tools.map Prod.snd) = registry.tools := by
  have hself : (registry.tools.map Prod.snd).map (fun t => (t.name, t)) = registry.tools := by
    rw [List.map_map]
    refine (List.map_congr_left fun e he => ?_).trans (List.map_id _)
    exact Prod.ext (h.name_eq e he).symm rfl
  rw [toolsByName, hself, Dict.ofList_of_nodup h.nodup]

/-- For a name of no tool the lookups agree when its first and its last tool by canonical name
do. -/
theorem Indexed.get_eq_resolveTool_iff_find {registry : ToolRegistry} (h : registry.Indexed text)
    {name : String} (hname : name ∉ Dict.keys registry.tools) :
    registry.get text name = resolveTool text registry.tools name ↔
      (registry.tools.find? fun e =>
          canonicaliseToolName text e.1 = canonicaliseToolName text name) =
        registry.tools.reverse.find? fun e =>
          canonicaliseToolName text e.1 = canonicaliseToolName text name := by
  unfold get resolveTool
  rw [Dict.get?_eq_none_iff.2 hname]
  dsimp only
  rw [h.byCanon]
  cases hlast : registry.tools.reverse.find? fun e =>
      canonicaliseToolName text e.1 = canonicaliseToolName text name with
  | none =>
    have hfirst : (registry.tools.find? fun e =>
        canonicaliseToolName text e.1 = canonicaliseToolName text name) = none := by
      rw [List.find?_eq_none] at hlast ⊢
      exact fun e he => hlast e (List.mem_reverse.2 he)
    rw [hfirst]
    exact iff_of_true rfl rfl
  | some last =>
    cases hfirst : registry.tools.find? fun e =>
        canonicaliseToolName text e.1 = canonicaliseToolName text name with
    | none =>
      have hmem := List.mem_reverse.1 (List.mem_of_find?_eq_some hlast)
      exact absurd (List.find?_some hlast) (List.find?_eq_none.1 hfirst last hmem)
    | some first =>
      have hkey (e : String × AgentTool) (he : e ∈ registry.tools) : e = (e.2.name, e.2) :=
        Prod.ext (h.name_eq e he) rfl
      have hl := hkey last (List.mem_reverse.1 (List.mem_of_find?_eq_some hlast))
      have hf := hkey first (List.mem_of_find?_eq_some hfirst)
      simp only [Option.map_some, Option.some.injEq]
      refine ⟨fun heq => ?_, fun heq => by rw [heq]⟩
      rw [hf, hl, heq]

end ToolRegistry

/-- The registry and the run loop resolve a name to one tool exactly when the name is a
tool's own, or no two tools with different names have its canonical form. -/
theorem get_eq_resolveTool_iff (text : PyText) (calls : List AgentTool) (name : String) :
    (ToolRegistry.ofCalls text calls).get text name =
        resolveTool text (toolsByName ((ToolRegistry.ofCalls text calls).tools.map Prod.snd))
          name ↔
      name ∈ calls.map AgentTool.name ∨
        ∀ s ∈ calls, ∀ t ∈ calls,
          canonicaliseToolName text s.name = canonicaliseToolName text name →
          canonicaliseToolName text t.name = canonicaliseToolName text name →
          s.name = t.name := by
  have hindexed := @ToolRegistry.indexed_ofCalls text calls
  rw [hindexed.toolsByName_tools, ← @ToolRegistry.mem_keys_ofCalls text]
  by_cases hname : name ∈ Dict.keys (ToolRegistry.ofCalls text calls).tools
  · obtain ⟨tool, htool⟩ := Dict.mem_keys_iff.1 hname
    refine iff_of_true ?_ (Or.inl hname)
    simp only [ToolRegistry.get, resolveTool, htool]
  · rw [or_iff_right hname, hindexed.get_eq_resolveTool_iff_find hname,
      Dict.find?_eq_find?_reverse_iff hindexed.nodup]
    have hkeys (p : String → Prop) : (∀ e ∈ (ToolRegistry.ofCalls text calls).tools, p e.1) ↔
        ∀ s ∈ calls, p s.name := by
      rw [← List.forall_mem_map (f := AgentTool.name) (P := p),
        ← List.forall_mem_map (f := Prod.fst) (P := p)]
      exact forall_congr' fun k => imp_congr_left ToolRegistry.mem_keys_ofCalls
    simp only [decide_eq_true_eq]
    refine (hkeys fun k => ∀ e' ∈ (ToolRegistry.ofCalls text calls).tools,
      canonicaliseToolName text k = canonicaliseToolName text name →
        canonicaliseToolName text e'.1 = canonicaliseToolName text name → k = e'.1).trans ?_
    refine forall₂_congr fun s _ => ?_
    exact hkeys fun k => canonicaliseToolName text s.name = canonicaliseToolName text name →
      canonicaliseToolName text k = canonicaliseToolName text name → s.name = k

/-- With `a.b` registered before `a_b`, the name `a:b` is the second for the registry and the
first for the run loop. -/
theorem get_ne_resolveTool_of_two_spellings :
    ¬∀ (text : PyText) (calls : List AgentTool) (name : String),
      (ToolRegistry.ofCalls text calls).get text name =
        resolveTool text (toolsByName ((ToolRegistry.ofCalls text calls).tools.map Prod.snd))
          name := by
  intro h
  let text : PyText := ⟨id, fun _ => "", fun _ => ""⟩
  let tool (name : String) : AgentTool := { name, execute := fun _ _ => .output name }
  have hnames := congrArg (Option.map AgentTool.name) (h text [tool "a.b", tool "a_b"] "a:b")
  revert hnames
  decide

end OxenClaw
