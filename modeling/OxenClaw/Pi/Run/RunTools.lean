import OxenClaw.Agents.Tools

/-!
# Running the tool calls of one message

`runOneTool` passes a call through the hooks, resolves its name and executes it. Whatever
happens there is one result, with the id of the call, unless the tool is cancelled
(`id_of_runOneTool`). `runTools` is the whole batch : with one result for each call in
order (`map_id_of_runTools`), and with the log of the calls that were begun, each of which is
what `runOneTool` made of its request (`outcome_of_runTools`).
-/

namespace OxenClaw

/-- What the run loop hands to every tool call. -/
structure ToolRunner where
  text : PyText
  toolsByName : Dict String AgentTool
  hookRunner : Option HookRunner := none
  hookContext : HookContext := {}

/-- A tool that was executed, by the name it is registered under, and its arguments. -/
structure Executed where
  tool : String
  args : Args

/-- What became of one call : the tool it executed and its result, `none` when it was
cancelled. -/
structure OneCall where
  executed : Option Executed
  result : Option ToolExecutionResult

/-- The arguments stand for JSON that did not parse. -/
def hasParseError (args : Args) : Bool :=
  (args.get "_parse_error").any Json.truthy

/-- `_execute_tool_safely`. -/
def executeToolSafely (text : PyText) (moment : Moment) (tool : AgentTool)
    (request : ToolUseBlock) : OneCall :=
  if hasParseError request.input then
    let raw := text.repr ((Args.get request.input "_raw").getD (.str ""))
    ⟨none, some {
      id := request.id
      name := request.name
      output := "tool error: arguments were not valid JSON. " ++
        s!"Raw payload: {raw}. " ++ "Re-emit with a JSON object literal."
      isError := true }⟩
  else
    ⟨some ⟨tool.name, request.input⟩,
      match tool.execute moment request.input with
      | .output out => some { id := request.id, name := request.name, output := out }
      | .raised exc => some {
          id := request.id, name := request.name, output := s!"tool error: {exc}",
          isError := true }
      | .cancelled => none⟩

/-- Resolve the name and execute. -/
def dispatchTool (runner : ToolRunner) (moment : Moment) (req : ToolUseBlock) : OneCall :=
  match resolveTool runner.text runner.toolsByName req.name with
  | none => ⟨none, some {
      id := req.id
      name := req.name
      output := s!"tool {runner.text.repr (.str req.name)} is not registered"
      isError := true }⟩
  | some tool => executeToolSafely runner.text moment tool req

/-- What the hooks decide about a call, by the name the model used. -/
def hookDecision (runner : ToolRunner) (moment : Moment) (req : ToolUseBlock) :
    Option BeforeToolUseResult :=
  runner.hookRunner.bind fun hooks =>
    hooks.runBeforeToolUse moment req.name req.input runner.hookContext

/-- `_one` : the hooks first, then the tool. -/
def runOneTool (runner : ToolRunner) (moment : Moment) (req : ToolUseBlock) : OneCall :=
  match hookDecision runner moment req with
  | none => dispatchTool runner moment req
  | some decision =>
    if decision.abort then
      let outText := (decision.substituteOutput.filter (· ≠ "")).getD
        s!"tool {runner.text.repr (.str req.name)} aborted by hook"
      ⟨none, some { id := req.id, name := req.name, output := outText, isError := true }⟩
    else dispatchTool runner moment { req with input := decision.rewriteArgs.getD req.input }

/-- A call of a batch, when it was made and what became of it. -/
structure BatchedCall where
  moment : Moment
  request : ToolUseBlock
  outcome : OneCall

/-- The calls of a batch, from position `index` on. -/
def runBatch (runner : ToolRunner) (round call : ℕ) : ℕ → List ToolUseBlock → List BatchedCall
  | _, [] => []
  | index, req :: requests =>
    ⟨⟨round, call, index⟩, req, runOneTool runner ⟨round, call, index⟩ req⟩ ::
      runBatch runner round call (index + 1) requests

/-- The calls of a batch that are begun : all of them in parallel, else up to the first
that is cancelled. -/
def begun (parallel : Bool) : List BatchedCall → List BatchedCall
  | [] => []
  | c :: cs => if parallel = false ∧ c.outcome.result.isNone then [c] else c :: begun parallel cs

/-- `_run_tools` : the calls begun, and the results unless one was cancelled. -/
def runTools (runner : ToolRunner) (parallel : Bool) (round call : ℕ)
    (requests : List ToolUseBlock) : List BatchedCall × Option (List ToolExecutionResult) :=
  let calls := runBatch runner round call 0 requests
  (begun parallel calls, calls.mapM fun c => c.outcome.result)

/-! ## One result for each call -/

/-- The result carries the id and the name the model used. -/
theorem id_of_executeToolSafely {text : PyText} {moment : Moment} {tool : AgentTool}
    {req : ToolUseBlock} {r : ToolExecutionResult}
    (h : (executeToolSafely text moment tool req).result = some r) :
    r.id = req.id ∧ r.name = req.name := by
  unfold executeToolSafely at h
  split_ifs at h
  · obtain rfl := Option.some.inj h
    exact ⟨rfl, rfl⟩
  · dsimp only at h
    cases hout : tool.execute moment req.input with
    | output out =>
      rw [hout] at h
      obtain rfl := Option.some.inj h
      exact ⟨rfl, rfl⟩
    | raised exc =>
      rw [hout] at h
      obtain rfl := Option.some.inj h
      exact ⟨rfl, rfl⟩
    | cancelled =>
      rw [hout] at h
      cases h

theorem id_of_dispatchTool {runner : ToolRunner} {moment : Moment} {req : ToolUseBlock}
    {r : ToolExecutionResult} (h : (dispatchTool runner moment req).result = some r) :
    r.id = req.id ∧ r.name = req.name := by
  unfold dispatchTool at h
  split at h
  · obtain rfl := Option.some.inj h
    exact ⟨rfl, rfl⟩
  · exact id_of_executeToolSafely h

theorem id_of_runOneTool {runner : ToolRunner} {moment : Moment} {req : ToolUseBlock}
    {r : ToolExecutionResult} (h : (runOneTool runner moment req).result = some r) :
    r.id = req.id ∧ r.name = req.name := by
  unfold runOneTool at h
  split at h
  · exact id_of_dispatchTool h
  · split_ifs at h
    · obtain rfl := Option.some.inj h
      exact ⟨rfl, rfl⟩
    · obtain ⟨hid, hname⟩ := id_of_dispatchTool h
      exact ⟨hid, hname⟩

theorem map_id_of_runBatch {runner : ToolRunner} {round call : ℕ} :
    ∀ {requests : List ToolUseBlock} {index : ℕ} {rs : List ToolExecutionResult},
      ((runBatch runner round call index requests).mapM fun c => c.outcome.result) = some rs →
      rs.map ToolExecutionResult.id = requests.map ToolUseBlock.id
  | [], _, rs, h => by
    obtain rfl : [] = rs := by simpa [runBatch] using h
    rfl
  | req :: requests, index, rs, h => by
    rw [runBatch, List.mapM_cons] at h
    obtain ⟨r, hr, h⟩ := Option.bind_eq_some_iff.1 h
    obtain ⟨rs', hrs', h⟩ := Option.bind_eq_some_iff.1 h
    obtain rfl : r :: rs' = rs := by simpa using h
    rw [List.map_cons, List.map_cons, (id_of_runOneTool hr).1, map_id_of_runBatch hrs']

/-- The results of a batch have the ids of its calls, in order. -/
theorem map_id_of_runTools {runner : ToolRunner} {parallel : Bool} {round call : ℕ}
    {requests : List ToolUseBlock} {ran : List BatchedCall} {rs : List ToolExecutionResult}
    (h : runTools runner parallel round call requests = (ran, some rs)) :
    rs.map ToolExecutionResult.id = requests.map ToolUseBlock.id :=
  map_id_of_runBatch (congrArg Prod.snd h)

theorem mem_of_mem_begun {parallel : Bool} {c : BatchedCall} :
    ∀ {cs : List BatchedCall}, c ∈ begun parallel cs → c ∈ cs
  | [], h => h
  | d :: ds, h => by
    rw [begun] at h
    split_ifs at h
    · exact List.mem_cons.2 (Or.inl (List.mem_singleton.1 h))
    · rcases List.mem_cons.1 h with rfl | h
      · exact List.mem_cons_self
      · exact List.mem_cons_of_mem _ (mem_of_mem_begun h)

theorem outcome_of_mem_runBatch {runner : ToolRunner} {round call : ℕ} {c : BatchedCall} :
    ∀ {requests : List ToolUseBlock} {index : ℕ}, c ∈ runBatch runner round call index requests →
      c.outcome = runOneTool runner c.moment c.request
  | req :: requests, index, h => by
    rcases List.mem_cons.1 h with rfl | h
    · rfl
    · exact outcome_of_mem_runBatch h

/-- What is logged of a batch are its calls. -/
theorem outcome_of_runTools {runner : ToolRunner} {parallel : Bool} {round call : ℕ}
    {requests : List ToolUseBlock} {ran : List BatchedCall}
    {rs : Option (List ToolExecutionResult)}
    (h : runTools runner parallel round call requests = (ran, rs)) {c : BatchedCall}
    (hc : c ∈ ran) : c.outcome = runOneTool runner c.moment c.request := by
  obtain rfl : begun parallel (runBatch runner round call 0 requests) = ran :=
    congrArg Prod.fst h
  exact outcome_of_mem_runBatch (mem_of_mem_begun hc)

end OxenClaw
