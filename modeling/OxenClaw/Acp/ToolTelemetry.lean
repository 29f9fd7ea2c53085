import OxenClaw.Lib.Numbered
import OxenClaw.Lib.Runs
import OxenClaw.Pi.Run.RunTools

/-!
# Tool telemetry of an ACP turn

`_ToolTelemetry` (`acp/pi_agent_runtime.py`) taps the hooks of an agent for one turn. Its
`before_tool_use` tap makes an id and emits a `tool_call`, its `after_tool_use` tap takes the oldest
id out and emits a `tool_call_update`. `_one` (`pi/run/run.py`) runs the hooks of one call, and the
calls of a message run at once.

A `TurnEvent` is one call getting to a tap, or the turn yielding what is queued. Hooks registered
ahead of the tap may decide about a call, which then passes the first tap by, but not the second.
Every update is of the call its id was made for exactly if every call that ends finds the oldest
open call to be of its own tool and outcome (`updates_match_iff`).
-/

namespace OxenClaw.Acp

open OxenClaw

/-- `AcpEventToolCall`. Its text and its title are the name of the tool. -/
structure AcpEventToolCall where
  text : String
  tag : String
  toolCallId : String
  status : String
  title : String
  deriving DecidableEq

/-- `_ToolTelemetry`. -/
structure ToolTelemetry where
  sessionKey : String
  queue : List AcpEventToolCall := []
  counter : ℕ := 0
  pendingIds : List String := []

/-- The id the `n`-th call gets. -/
def toolCallId (n : ℕ) : String :=
  s!"acp-tc-{n}"

/-- The id of an update with no call open, after `n` calls. -/
def orphanId (n : ℕ) : String :=
  s!"acp-tc-orphan-{n}"

def statusOf (isError : Bool) : String :=
  if isError then "failed" else "completed"

namespace ToolTelemetry

/-- The `before_tool_use` tap. -/
def before (t : ToolTelemetry) (toolName : String) (ctx : HookContext) : ToolTelemetry :=
  if ctx.sessionKey ≠ some t.sessionKey then t
  else { t with
    counter := t.counter + 1
    pendingIds := t.pendingIds ++ [toolCallId (t.counter + 1)]
    queue := t.queue ++ [{
      text := toolName, tag := "tool_call", toolCallId := toolCallId (t.counter + 1)
      status := "pending", title := toolName }] }

/-- The `after_tool_use` tap. -/
def after (t : ToolTelemetry) (toolName : String) (isError : Bool) (ctx : HookContext) :
    ToolTelemetry :=
  if ctx.sessionKey ≠ some t.sessionKey then t
  else { t with
    pendingIds := t.pendingIds.tail
    queue := t.queue ++ [{
      text := toolName, tag := "tool_call_update"
      toolCallId := t.pendingIds.head?.getD (orphanId t.counter)
      status := statusOf isError, title := toolName }] }

end ToolTelemetry

/-- The tool calls of an agent while a turn goes on, by number, and the hooks they pass through. The
tap is registered behind `earlier` and ahead of `later`, and decides nothing. -/
structure TurnCalls where
  text : PyText
  toolsByName : Dict String AgentTool
  earlier : List BeforeToolUseHook
  later : List BeforeToolUseHook
  moment : ℕ → Moment
  request : ℕ → ToolUseBlock
  context : ℕ → HookContext

namespace TurnCalls

/-- The name `_one` hands to the hooks. -/
def name (t : TurnCalls) (call : ℕ) : String :=
  (t.request call).name

/-- What `_one` makes of a call. -/
def result (t : TurnCalls) (call : ℕ) : Option ToolExecutionResult :=
  (runOneTool {
    text := t.text
    toolsByName := t.toolsByName
    hookRunner := some ⟨t.earlier ++ t.later⟩
    hookContext := t.context call } (t.moment call) (t.request call)).result

/-- The hooks ahead of the tap leave a call to it. -/
def reachesTap (t : TurnCalls) (call : ℕ) : Bool :=
  ((HookRunner.mk t.earlier).runBeforeToolUse (t.moment call) (t.name call) (t.request call).input
    (t.context call)).isNone

end TurnCalls

/-- A turn with its telemetry. -/
structure AcpTurn where
  telemetry : ToolTelemetry
  yielded : List AcpEventToolCall := []
  /-- The calls that have passed the `before_tool_use` hooks. -/
  begun : List ℕ
  /-- The calls that have passed the `after_tool_use` hooks. -/
  finished : List ℕ := []
  /-- The ids that were made, with the calls they were made for. -/
  started : List (String × ℕ) := []
  /-- The calls that were announced, less the oldest one for each that has ended since. -/
  awaited : List ℕ := []

inductive TurnEvent where
  /-- A call passes the `before_tool_use` hooks. -/
  | before (call : ℕ)
  /-- A call with a result passes the `after_tool_use` hooks. -/
  | after (call : ℕ)
  /-- The turn yields the queued events. -/
  | drain

namespace AcpTurn

/-- What the turn has emitted so far. -/
def events (s : AcpTurn) : List AcpEventToolCall :=
  s.yielded ++ s.telemetry.queue

/-- The `tool_call_update` events. -/
def updates (s : AcpTurn) : List AcpEventToolCall :=
  s.events.filter (·.tag = "tool_call_update")

/-- The tap sees the call. -/
def taps (s : AcpTurn) (t : TurnCalls) (call : ℕ) : Bool :=
  (t.context call).sessionKey = some s.telemetry.sessionKey

def step (t : TurnCalls) (s : AcpTurn) : TurnEvent → AcpTurn
  | .before call =>
    if call ∈ s.begun then s
    else if t.reachesTap call && s.taps t call then
      { s with
        begun := call :: s.begun
        telemetry := s.telemetry.before (t.name call) (t.context call)
        started := s.started ++ [(toolCallId (s.telemetry.counter + 1), call)]
        awaited := s.awaited ++ [call] }
    else { s with begun := call :: s.begun }
  | .after call =>
    match t.result call with
    | some r =>
      if call ∈ s.begun ∧ call ∉ s.finished then
        { s with
          finished := call :: s.finished
          telemetry := s.telemetry.after (t.name call) r.isError (t.context call)
          awaited := if s.taps t call then s.awaited.tail else s.awaited }
      else s
    | none => s
  | .drain => { s with
      yielded := s.yielded ++ s.telemetry.queue
      telemetry := { s.telemetry with queue := [] } }

/-- A turn that starts while the calls of `begun` are under way. -/
def new (sessionKey : String) (begun : List ℕ) : AcpTurn where
  telemetry := { sessionKey }
  begun := begun

/-- The update is of the call whose `tool_call` has its id : it names the same tool, and has the
status of what came of that call. -/
def Matches (t : TurnCalls) (s : AcpTurn) (u : AcpEventToolCall) : Prop :=
  ∃ call r, (u.toolCallId, call) ∈ s.started ∧ t.result call = some r ∧
    (∃ e ∈ s.events, e.tag = "tool_call" ∧ e.toolCallId = u.toolCallId ∧ e.title = u.title) ∧
    u.title = t.name call ∧ u.status = statusOf r.isError

/-- Every update is of the call its id was made for, and no two have one id. -/
def UpdatesMatch (t : TurnCalls) (s : AcpTurn) : Prop :=
  (∀ u ∈ s.updates, s.Matches t u) ∧ (s.updates.map AcpEventToolCall.toolCallId).Nodup

/-- A call that ends finds the oldest open call to be of its own tool and outcome. -/
def InOrder (t : TurnCalls) (s : AcpTurn) : TurnEvent → Prop
  | .after call => ∀ r, t.result call = some r → call ∈ s.begun → call ∉ s.finished →
      s.taps t call = true → ∃ oldest r', s.awaited.head? = some oldest ∧
        t.result oldest = some r' ∧ t.name oldest = t.name call ∧ r'.isError = r.isError
  | _ => True

/-! ## Ids -/

theorem toList_toolCallId (n : ℕ) :
    (toolCallId n).toList = "acp-tc".toList ++ Numbered.suffix n := by
  simp [toolCallId, Numbered.suffix, Nat.repr]
  rfl

theorem toList_orphanId (n : ℕ) :
    (orphanId n).toList = "acp-tc-orphan".toList ++ Numbered.suffix n := by
  simp [orphanId, Numbered.suffix, Nat.repr]
  rfl

theorem toolCallId_inj {m n : ℕ} (h : toolCallId m = toolCallId n) : m = n := by
  have hlist := congrArg String.toList h
  rw [toList_toolCallId, toList_toolCallId] at hlist
  exact Numbered.suffix_inj hlist

/-- No call has the id of an update with no call open. -/
theorem toolCallId_ne_orphanId (m n : ℕ) : toolCallId m ≠ orphanId n := by
  intro h
  have hlist := congrArg String.toList h
  rw [toList_toolCallId, toList_orphanId] at hlist
  obtain rfl := Numbered.suffix_inj hlist
  have hlength := congrArg List.length (List.append_cancel_right hlist)
  exact absurd hlength (by decide)

theorem statusOf_inj {a b : Bool} : statusOf a = statusOf b ↔ a = b := by
  rcases a <;> rcases b <;> decide

/-! ## The invariant -/

variable {t : TurnCalls} {s s' : AcpTurn} {call : ℕ} {u : AcpEventToolCall}

/-- What holds in every state of a turn. -/
structure Inv (t : TurnCalls) (s : AcpTurn) : Prop where
  ids : s.started.map Prod.fst = (List.range s.telemetry.counter).map fun k => toolCallId (k + 1)
  /-- The open ids are the youngest ones, one for each awaited call. -/
  pending : ∃ waiting : List (String × ℕ), waiting.Sublist s.started ∧
    s.telemetry.pendingIds = waiting.map Prod.fst ∧ s.awaited = waiting.map Prod.snd
  fresh : ∀ u ∈ s.updates, u.toolCallId ∉ s.telemetry.pendingIds
  known : ∀ u ∈ s.updates, u.toolCallId ∈ s.started.map Prod.fst ∨
    ∃ n, u.toolCallId = orphanId n
  announced : ∀ e ∈ s.started, ∃ ev ∈ s.events, ev.tag = "tool_call" ∧ ev.toolCallId = e.1 ∧
    ev.title = t.name e.2

theorem Inv.nodup_ids (h : Inv t s) : (s.started.map Prod.fst).Nodup := by
  rw [h.ids]
  refine List.Nodup.map (fun a b hab => ?_) List.nodup_range
  have := toolCallId_inj hab
  omega

theorem Inv.next_notMem (h : Inv t s) :
    toolCallId (s.telemetry.counter + 1) ∉ s.started.map Prod.fst := by
  rw [h.ids]
  intro hmem
  obtain ⟨k, hk, heq⟩ := List.mem_map.1 hmem
  have := toolCallId_inj heq
  have := List.mem_range.1 hk
  omega

theorem Inv.orphan_notMem (h : Inv t s) (n : ℕ) : orphanId n ∉ s.started.map Prod.fst := by
  rw [h.ids]
  intro hmem
  obtain ⟨k, -, heq⟩ := List.mem_map.1 hmem
  exact toolCallId_ne_orphanId _ _ heq

/-- An id was made for one call. -/
theorem Inv.call_unique (h : Inv t s) {id : String} {c d : ℕ} (hc : (id, c) ∈ s.started)
    (hd : (id, d) ∈ s.started) : c = d :=
  (Prod.mk.inj (List.inj_on_of_nodup_map h.nodup_ids hc hd rfl)).2

theorem inv_new (t : TurnCalls) (sessionKey : String) (begun : List ℕ) :
    Inv t (new sessionKey begun) where
  ids := rfl
  pending := ⟨[], List.Sublist.refl _, rfl, rfl⟩
  fresh := nofun
  known := nofun
  announced := nofun

theorem updatesMatch_new (t : TurnCalls) (sessionKey : String) (begun : List ℕ) :
    UpdatesMatch t (new sessionKey begun) :=
  ⟨nofun, List.nodup_nil⟩

/-- What is emitted, where only the queue grows. -/
theorem events_of_queue {queue : List AcpEventToolCall} (hyielded : s'.yielded = s.yielded)
    (hqueue : s'.telemetry.queue = s.telemetry.queue ++ queue) : s'.events = s.events ++ queue := by
  rw [events, events, hyielded, hqueue, List.append_assoc]

theorem Matches.mono (h : s.Matches t u) (hstarted : s.started ⊆ s'.started)
    (hevents : s.events ⊆ s'.events) : s'.Matches t u := by
  obtain ⟨call, r, hmem, hr, ⟨e, he, htag, hid, htitle⟩, hname, hstatus⟩ := h
  exact ⟨call, r, hstarted hmem, hr, ⟨e, hevents he, htag, hid, htitle⟩, hname, hstatus⟩

/-! ## The taps -/

/-- A call is announced. -/
theorem Inv.announce (h : Inv t s) (hs : UpdatesMatch t s) (htaps : s.taps t call = true) :
    Inv t { s with
      begun := call :: s.begun
      telemetry := s.telemetry.before (t.name call) (t.context call)
      started := s.started ++ [(toolCallId (s.telemetry.counter + 1), call)]
      awaited := s.awaited ++ [call] } ∧
    UpdatesMatch t { s with
      begun := call :: s.begun
      telemetry := s.telemetry.before (t.name call) (t.context call)
      started := s.started ++ [(toolCallId (s.telemetry.counter + 1), call)]
      awaited := s.awaited ++ [call] } := by
  have hkey : (t.context call).sessionKey = some s.telemetry.sessionKey := by
    simpa [taps] using htaps
  have htap : s.telemetry.before (t.name call) (t.context call) = { s.telemetry with
      counter := s.telemetry.counter + 1
      pendingIds := s.telemetry.pendingIds ++ [toolCallId (s.telemetry.counter + 1)]
      queue := s.telemetry.queue ++ [{
        text := t.name call, tag := "tool_call"
        toolCallId := toolCallId (s.telemetry.counter + 1)
        status := "pending", title := t.name call }] } :=
    if_neg (not_not.2 hkey)
  rw [htap]
  generalize hs' : AcpTurn.mk _ _ _ _ _ _ = s'
  have hevents : s'.events = s.events ++ [{
      text := t.name call, tag := "tool_call"
      toolCallId := toolCallId (s.telemetry.counter + 1)
      status := "pending", title := t.name call }] := by
    subst hs'
    exact events_of_queue rfl rfl
  have hupdates : s'.updates = s.updates := by
    rw [updates, hevents, List.filter_append]
    simp [updates]
  have hstarted : s'.started = s.started ++ [(toolCallId (s.telemetry.counter + 1), call)] := by
    subst hs'
    rfl
  refine ⟨⟨?_, ?_, ?_, ?_, ?_⟩, ?_, ?_⟩
  · subst hs'
    simp [h.ids, List.range_succ]
  · obtain ⟨waiting, hsub, hids, hawaited⟩ := h.pending
    refine ⟨waiting ++ [(toolCallId (s.telemetry.counter + 1), call)], ?_, ?_, ?_⟩
    · rw [hstarted]
      exact hsub.append_right _
    · subst hs'
      simp [hids]
    · subst hs'
      simp [hawaited]
  · rw [hupdates]
    intro u hu hmem
    have hmem : u.toolCallId ∈ s.telemetry.pendingIds ∨
        u.toolCallId = toolCallId (s.telemetry.counter + 1) := by
      subst hs'
      simpa using hmem
    rcases hmem with hmem | heq
    · exact h.fresh u hu hmem
    · rcases h.known u hu with hin | ⟨n, horphan⟩
      · exact h.next_notMem (heq ▸ hin)
      · exact toolCallId_ne_orphanId _ _ (heq.symm.trans horphan)
  · rw [hupdates, hstarted, List.map_append]
    exact fun u hu => (h.known u hu).imp_left (List.mem_append_left _)
  · rw [hstarted, hevents]
    intro e he
    rcases List.mem_append.1 he with he | he
    · obtain ⟨ev, hev, hrest⟩ := h.announced e he
      exact ⟨ev, List.mem_append_left _ hev, hrest⟩
    · obtain rfl := List.mem_singleton.1 he
      exact ⟨_, List.mem_append_right _ (List.mem_singleton.2 rfl), rfl, rfl, rfl⟩
  · rw [hupdates]
    intro u hu
    refine (hs.1 u hu).mono ?_ ?_
    · rw [hstarted]
      exact List.subset_append_left _ _
    · rw [hevents]
      exact List.subset_append_left _ _
  · rw [hupdates]
    exact hs.2

/-- An update matches the call of its id, and no other. -/
theorem Inv.matches_iff (h : Inv t s) {oldest : ℕ} (hmem : (u.toolCallId, oldest) ∈ s.started) :
    s.Matches t u ↔ ∃ r, t.result oldest = some r ∧ u.title = t.name oldest ∧
      u.status = statusOf r.isError := by
  constructor
  · rintro ⟨c, r, hc, hr, -, hname, hstatus⟩
    obtain rfl := h.call_unique hmem hc
    exact ⟨r, hr, hname, hstatus⟩
  · rintro ⟨r, hr, hname, hstatus⟩
    obtain ⟨e, he, htag, hid, htitle⟩ := h.announced _ hmem
    exact ⟨oldest, r, hmem, hr, ⟨e, he, htag, hid, htitle.trans hname.symm⟩, hname, hstatus⟩

/-- A call has ended and the oldest id is taken out. -/
theorem Inv.complete (h : Inv t s) (hs : UpdatesMatch t s) (htaps : s.taps t call = true)
    {r : ToolExecutionResult} :
    Inv t { s with
      finished := call :: s.finished
      telemetry := s.telemetry.after (t.name call) r.isError (t.context call)
      awaited := s.awaited.tail } ∧
    (UpdatesMatch t { s with
      finished := call :: s.finished
      telemetry := s.telemetry.after (t.name call) r.isError (t.context call)
      awaited := s.awaited.tail } ↔
      ∃ oldest r', s.awaited.head? = some oldest ∧ t.result oldest = some r' ∧
        t.name oldest = t.name call ∧ r'.isError = r.isError) := by
  have hkey : (t.context call).sessionKey = some s.telemetry.sessionKey := by
    simpa [taps] using htaps
  obtain ⟨u, hu⟩ : ∃ u : AcpEventToolCall, u = {
      text := t.name call, tag := "tool_call_update"
      toolCallId := s.telemetry.pendingIds.head?.getD (orphanId s.telemetry.counter)
      status := statusOf r.isError, title := t.name call } := ⟨_, rfl⟩
  have htap : s.telemetry.after (t.name call) r.isError (t.context call) = { s.telemetry with
      pendingIds := s.telemetry.pendingIds.tail, queue := s.telemetry.queue ++ [u] } := by
    rw [hu]
    exact if_neg (not_not.2 hkey)
  rw [htap]
  generalize hs' : AcpTurn.mk _ _ _ _ _ _ = s'
  have hevents : s'.events = s.events ++ [u] := by
    subst hs'
    exact events_of_queue rfl rfl
  have hupdates : s'.updates = s.updates ++ [u] := by
    have htag : u.tag = "tool_call_update" := by rw [hu]
    rw [updates, hevents, List.filter_append]
    simp [updates, htag]
  have hstarted : s'.started = s.started := by
    subst hs'
    rfl
  have hpending : s'.telemetry.pendingIds = s.telemetry.pendingIds.tail := by
    subst hs'
    rfl
  obtain ⟨waiting, hsub, hids, hawaited⟩ := h.pending
  have hnodup : s.telemetry.pendingIds.Nodup := by
    rw [hids]
    exact (hsub.map Prod.fst).nodup h.nodup_ids
  have hinv : Inv t s' := by
    refine ⟨?_, ⟨waiting.tail, ?_, ?_, ?_⟩, ?_, ?_, ?_⟩
    · subst hs'
      exact h.ids
    · rw [hstarted]
      exact (List.tail_sublist _).trans hsub
    · rw [hpending, hids, List.map_tail]
    · subst hs'
      simp [hawaited, List.map_tail]
    · rw [hupdates, hpending]
      intro v hv hmem
      rcases List.mem_append.1 hv with hv | hv
      · exact h.fresh v hv (List.mem_of_mem_tail hmem)
      · obtain rfl := List.mem_singleton.1 hv
        rcases hlist : s.telemetry.pendingIds with _ | ⟨id, rest⟩
        · simp [hlist] at hmem
        · rw [hlist] at hnodup hmem
          rw [hu, hlist] at hmem
          exact (List.nodup_cons.1 hnodup).1 (by simpa using hmem)
    · rw [hupdates, hstarted]
      intro v hv
      rcases List.mem_append.1 hv with hv | hv
      · exact h.known v hv
      · obtain rfl := List.mem_singleton.1 hv
        rw [hu, hids]
        rcases waiting with _ | ⟨e, rest⟩
        · exact Or.inr ⟨_, rfl⟩
        · exact Or.inl (List.mem_map_of_mem (hsub.subset List.mem_cons_self))
    · rw [hstarted, hevents]
      intro e he
      obtain ⟨ev, hev, hrest⟩ := h.announced e he
      exact ⟨ev, List.mem_append_left _ hev, hrest⟩
  refine ⟨hinv, ?_⟩
  -- what was emitted before still matches, so it is the new update that matters
  have hnew : UpdatesMatch t s' ↔ s'.Matches t u ∧ u.toolCallId ∉
      s.updates.map AcpEventToolCall.toolCallId := by
    rw [UpdatesMatch, hupdates, List.map_append, List.nodup_append]
    constructor
    · rintro ⟨hmatch, -, -, hne⟩
      exact ⟨hmatch u (by simp), fun hmem => hne _ hmem _ (by simp) rfl⟩
    · rintro ⟨hmatch, hfresh⟩
      refine ⟨fun v hv => ?_, hs.2, by simp, fun a ha b hb hab => ?_⟩
      · rcases List.mem_append.1 hv with hv | hv
        · exact (hs.1 v hv).mono (by rw [hstarted]; exact List.Subset.refl _)
            (by rw [hevents]; exact List.subset_append_left _ _)
        · obtain rfl := List.mem_singleton.1 hv
          exact hmatch
      · obtain rfl : b = u.toolCallId := by simpa using hb
        exact hfresh (hab ▸ ha)
  rw [hnew, hawaited]
  rcases waiting with _ | ⟨⟨id, oldest⟩, rest⟩
  · refine iff_of_false (fun hboth => ?_) (by simp)
    obtain ⟨c, r', hmem, -⟩ := hboth.1
    rw [hstarted, hu, hids] at hmem
    exact h.orphan_notMem _ (List.mem_map_of_mem hmem)
  · have hid : u.toolCallId = id := by
      rw [hu, hids]
      rfl
    have hmem : (u.toolCallId, oldest) ∈ s'.started := by
      rw [hid, hstarted]
      exact hsub.subset List.mem_cons_self
    have hfresh : u.toolCallId ∉ s.updates.map AcpEventToolCall.toolCallId := by
      intro hin
      obtain ⟨v, hv, heq⟩ := List.mem_map.1 hin
      refine h.fresh v hv ?_
      rw [heq, hid, hids]
      exact List.mem_cons_self
    rw [and_iff_left hfresh, hinv.matches_iff hmem, hu]
    simp only [List.map_cons, List.head?_cons, Option.some.injEq, statusOf_inj]
    constructor
    · rintro ⟨r', hr, hname, herror⟩
      exact ⟨oldest, r', rfl, hr, hname.symm, herror.symm⟩
    · rintro ⟨_, r', rfl, hr, hname, herror⟩
      exact ⟨r', hr, hname.symm, herror.symm⟩

/-! ## Runs -/

/-- What each event does to a turn whose updates match. -/
theorem Inv.step (h : Inv t s) (hs : UpdatesMatch t s) (event : TurnEvent) :
    Inv t (s.step t event) ∧ (UpdatesMatch t (s.step t event) ↔ s.InOrder t event) := by
  rcases event with call | call | _
  · simp only [AcpTurn.step, InOrder, iff_true]
    split_ifs with hbegun htap
    · exact ⟨h, hs⟩
    · exact h.announce hs (Bool.and_eq_true_iff.1 htap).2
    · exact ⟨⟨h.ids, h.pending, h.fresh, h.known, h.announced⟩, hs⟩
  · simp only [AcpTurn.step, InOrder]
    split
    · next r hr =>
      simp only [hr, Option.some.injEq, forall_eq']
      split_ifs with hcall htaps
      · obtain ⟨hinv, hiff⟩ := h.complete hs htaps (r := r)
        exact ⟨hinv, hiff.trans (by simp [hcall, htaps])⟩
      · -- a call of another session
        have htap : s.telemetry.after (t.name call) r.isError (t.context call) = s.telemetry :=
          if_pos (by simpa [taps] using htaps)
        rw [htap]
        refine ⟨⟨h.ids, h.pending, h.fresh, h.known, h.announced⟩, ?_⟩
        exact iff_of_true hs fun _ _ h' => absurd h' htaps
      · exact ⟨h, iff_of_true hs fun hb hf => absurd ⟨hb, hf⟩ hcall⟩
    · next hr => exact ⟨h, iff_of_true hs fun r hr' => by simp [hr] at hr'⟩
  · have hevents : (s.step t .drain).events = s.events := by simp [AcpTurn.step, events]
    have hupdates : (s.step t .drain).updates = s.updates := by rw [updates, hevents, updates]
    refine ⟨⟨h.ids, h.pending, ?_, ?_, ?_⟩, ?_⟩
    · rw [hupdates]
      exact h.fresh
    · rw [hupdates]
      exact h.known
    · rw [hevents]
      exact h.announced
    · refine iff_of_true ⟨fun u hu => ?_, ?_⟩ trivial
      · rw [hupdates] at hu
        exact (hs.1 u hu).mono (List.Subset.refl _) (by rw [hevents]; exact List.Subset.refl _)
      · rw [hupdates]
        exact hs.2

/-- In every state of a turn every update matches the call of its id, and no two have one id,
exactly if every call that ends finds the oldest open call to be of its own tool and outcome. -/
theorem updates_match_iff (t : TurnCalls) (sessionKey : String) (begun : List ℕ)
    (es : List TurnEvent) :
    (∀ s ∈ trail (step t) (new sessionKey begun) es, UpdatesMatch t s) ↔
      EachStep (step t) (InOrder t) (new sessionKey begun) es :=
  forall_mem_trail_iff_of_keeps (fun _ e h hs => (h.step hs e).1) (fun _ e h hs => (h.step hs e).2)
    (inv_new t sessionKey begun) (updatesMatch_new t sessionKey begun) es

/-- Two calls of one message, to `read` and to `write`, with one hook registered ahead of the tap. -/
def readAndWrite (hook : BeforeToolUseHook) : TurnCalls where
  text := ⟨id, fun _ => "", fun _ => ""⟩
  toolsByName := [("read", ⟨"read", {}, fun _ _ => .output "text"⟩),
    ("write", ⟨"write", {}, fun _ _ => .output "ok"⟩)]
  earlier := [hook]
  later := []
  moment call := ⟨0, 0, call⟩
  request call := if call = 0 then ⟨"t0", "read", []⟩ else ⟨"t1", "write", []⟩
  context _ := { sessionKey := some "s" }

/-- The second call ends first, and its update has the id of the first one. A hook that aborts every
call leaves two updates with one id, which no `tool_call` has. -/
theorem updates_mismatch :
    (¬∀ s ∈ trail (step (readAndWrite fun _ _ _ _ => none)) (new "s" [])
      [.before 0, .before 1, .after 1, .after 0],
      UpdatesMatch (readAndWrite fun _ _ _ _ => none) s) ∧
    ¬∀ s ∈ trail (step (readAndWrite fun _ _ _ _ => some { abort := true })) (new "s" [])
      [.before 0, .before 1, .after 0, .after 1],
      UpdatesMatch (readAndWrite fun _ _ _ _ => some { abort := true }) s := by
  refine ⟨fun h => ?_, fun h => ?_⟩
  · obtain ⟨call, r, hmem, -, -, hname, -⟩ := (h _ (foldl_mem_trail _ _)).1
      ⟨"write", "tool_call_update", "acp-tc-1", "completed", "write"⟩ (by decide +kernel)
    have hstarted : (List.foldl (step (readAndWrite fun _ _ _ _ => none)) (new "s" [])
        [.before 0, .before 1, .after 1, .after 0]).started =
        [("acp-tc-1", 0), ("acp-tc-2", 1)] := by decide +kernel
    rw [hstarted] at hmem
    have hcall : call = 0 := by simpa using hmem
    rw [hcall] at hname
    exact absurd hname (by decide)
  · have hnodup := (h _ (foldl_mem_trail _ _)).2
    exact absurd hnodup (by decide +kernel)

end AcpTurn

end OxenClaw.Acp
