import OxenClaw.Agents.Registry
import OxenClaw.Lib.Runs

/-!
# Dispatching

The dispatcher finds the agent of an envelope, lets it answer, and hands each answer on. Turns of
different sessions go on side by side, and those of one session one after the other, in its lane.

An envelope reaches an agent exactly if the routing says so (`resolveAgentId_eq_some_iff`), so never
one that does not allow the sender. In every order in which turns start, answer and end, the history
of a session is its turns, one after the other, each with its own answers (`run_histories`).
-/

namespace OxenClaw.Agents

/-- What the dispatcher reads of an `InboundEnvelope`. -/
structure InboundEnvelope where
  channel : Name
  target : ChannelTarget
  senderId : Name
  text : Option Name := none
  agentId : Option Name := none

/-- What it reads of `SendParams`. -/
structure SendParams where
  target : ChannelTarget
  text : Name

/-- `AgentChannelRouting`. -/
structure AgentChannelRouting where
  allowFrom : List Name := []

/-- `AgentConfig`. -/
structure AgentConfig where
  channels : Dict Name AgentChannelRouting := []

/-- What the dispatcher is made with : `agents` of the config, and the ids of the registry, each
once. -/
structure Dispatcher where
  config : Dict Name AgentConfig
  registered : List Name
  nodup : registered.Nodup

namespace Dispatcher

/-! ## Which agent -/

/-- `not routing.allow_from or sender in routing.allow_from`. -/
def allows (routing : AgentChannelRouting) (sender : Name) : Bool :=
  routing.allowFrom.isEmpty || routing.allowFrom.any fun allowed => allowed = sender

/-- The loop over the agents : one that is routed to, or whether the sender was blocked. -/
def routeFrom (channel sender : Name) : Dict Name AgentConfig → Bool → Name ⊕ Bool
  | [], senderBlocked => .inr senderBlocked
  | (agentId, agentCfg) :: rest, senderBlocked =>
    match agentCfg.channels.get? channel with
    | none => routeFrom channel sender rest senderBlocked
    | some routing =>
      if allows routing sender then .inl agentId else routeFrom channel sender rest true

/-- The agent that the caller has chosen. -/
def pinned (e : InboundEnvelope) : Option Name :=
  e.agentId.filter (· ≠ [])

/-- The registry has the agent. -/
def Registered (d : Dispatcher) (agentId : Name) : Prop :=
  agentId ∈ d.registered

instance (d : Dispatcher) (agentId : Name) : Decidable (d.Registered agentId) :=
  decidable_of_iff ((d.registered.any fun agent => agent = agentId) = true) (by simp [Registered])

/-- `_resolve_agent_id`. -/
def resolveAgentId (d : Dispatcher) (e : InboundEnvelope) : Option Name :=
  match pinned e with
  | some agentId => if d.Registered agentId then some agentId else none
  | none =>
    match routeFrom e.channel e.senderId d.config false with
    | .inl agentId => some agentId
    | .inr true => none
    | .inr false =>
      match d.registered with
      | [agentId] => some agentId
      | _ => none

/-- Why no agent gets an envelope. -/
inductive DropReason where
  | noAgents
  | pinnedUnknown (agentId : Name)
  | senderBlocked (agentId channel sender : Name)
  | undeclared (channel : Name)
  | unmatched (channel : Name)
  /-- The routing refers to an agent that is not registered. -/
  | unregistered (agentId : Name)
  deriving DecidableEq

/-- The first agent that declares the channel and blocks the sender. -/
def blocking (config : Dict Name AgentConfig) (channel sender : Name) : Option Name :=
  config.findSome? fun (agentId, agentCfg) =>
    match agentCfg.channels.get? channel with
    | none => none
    | some routing => if allows routing sender then none else some agentId

/-- `_explain_no_agent`. -/
def explainNoAgent (d : Dispatcher) (e : InboundEnvelope) : DropReason :=
  if d.registered = [] then .noAgents
  else
    match (pinned e).filter (¬d.Registered ·) with
    | some agentId => .pinnedUnknown agentId
    | none =>
      match blocking d.config e.channel e.senderId with
      | some agentId => .senderBlocked agentId e.channel e.senderId
      | none =>
        if d.config.any fun (_, agentCfg) => (agentCfg.channels.get? e.channel).isSome then
          .unmatched e.channel
        else .undeclared e.channel

/-! ## Turns -/

/-- What becomes of an answer that is sent. -/
inductive Sent (ρ : Type*) where
  | ok (result : ρ)
  /-- `UserVisibleError`. -/
  | undeliverable (error : Name)
  /-- Any other exception, which ends the turn. -/
  | raised

/-- The turn goes on with the next answer. -/
def Sent.goesOn {ρ : Type*} : Sent ρ → Bool
  | .ok _ => true
  | .undeliverable _ => true
  | .raised => false

/-- A warning that an answer was not delivered. -/
structure DeliveryWarning where
  channel : Name
  accountId : Name
  error : Name

/-- `DispatchOutcome` of a turn in which an agent runs. -/
structure DispatchOutcome (ρ : Type*) where
  results : List ρ := []
  agentYielded : ℕ := 0
  deliveryWarnings : List DeliveryWarning := []

/-- An entry of the history of an `AgentContext`. -/
inductive Entry where
  | inbound (e : InboundEnvelope)
  | outbound (p : SendParams)

/-- A turn : its lane, what has come of it so far, and whether it goes on. -/
structure Turn (ρ : Type*) where
  lane : Name × Name
  envelope : InboundEnvelope
  answers : List (SendParams × Sent ρ) := []
  outcome : DispatchOutcome ρ := {}
  running : Bool := true

/-- The histories of the sessions, the turns in the order of their start, and the envelopes that no
agent got. -/
structure Dispatching (ρ : Type*) where
  sessions : Dict (Name × Name) (List Entry) := []
  turns : List (Turn ρ) := []
  dropped : List (InboundEnvelope × DropReason) := []

/-- What happens between two awaits. -/
inductive Event (ρ : Type*) where
  /-- A turn gets its lane. -/
  | start (e : InboundEnvelope)
  /-- The agent of the `i`-th turn answers, and the answer is sent. -/
  | answer (i : ℕ) (p : SendParams) (sent : Sent ρ)
  /-- The agent of the `i`-th turn is done, or raises. -/
  | finish (i : ℕ)

variable {ρ : Type*}

/-- An answer is counted, and its result kept or the failure warned of. -/
def DispatchOutcome.add (o : DispatchOutcome ρ) (p : SendParams) : Sent ρ → DispatchOutcome ρ
  | .ok result => { o with results := o.results ++ [result], agentYielded := o.agentYielded + 1 }
  | .undeliverable error =>
    { o with
      agentYielded := o.agentYielded + 1
      deliveryWarnings :=
        o.deliveryWarnings ++ [⟨p.target.channel, p.target.accountId, error⟩] }
  | .raised => { o with agentYielded := o.agentYielded + 1 }

/-- The turn once it has answered. -/
def Turn.answer (t : Turn ρ) (p : SendParams) (sent : Sent ρ) : Turn ρ :=
  { t with
    answers := t.answers ++ [(p, sent)]
    outcome := t.outcome.add p sent
    running := sent.goesOn }

/-- The history of a session. -/
def Dispatching.history (s : Dispatching ρ) (lane : Name × Name) : List Entry :=
  (s.sessions.get? lane).getD []

/-- `ctx.history.append`, where `ctx` is there or is made. -/
def Dispatching.append (s : Dispatching ρ) (lane : Name × Name) (entry : Entry) :
    Dict (Name × Name) (List Entry) :=
  s.sessions.set lane (s.history lane ++ [entry])

/-- Some turn has the lane. -/
def Dispatching.locked (s : Dispatching ρ) (lane : Name × Name) : Bool :=
  s.turns.any fun t => t.running && t.lane = lane

/-- `_dispatch_locked`, up to the first answer : a turn waits for its lane. -/
def Dispatching.start (d : Dispatcher) (s : Dispatching ρ) (e : InboundEnvelope) : Dispatching ρ :=
  match d.resolveAgentId e with
  | none => { s with dropped := s.dropped ++ [(e, d.explainNoAgent e)] }
  | some agentId =>
    let lane := (agentId, sessionKeyFor e.target)
    if ¬d.Registered agentId then
      { s with dropped := s.dropped ++ [(e, .unregistered agentId)] }
    else if s.locked lane then s
    else
      { s with
        sessions := s.append lane (.inbound e)
        turns := s.turns ++ [{ lane, envelope := e }] }

/-- The loop over the answers of the agent. -/
def Dispatching.step (d : Dispatcher) (s : Dispatching ρ) : Event ρ → Dispatching ρ
  | .start e => s.start d e
  | .answer i p sent =>
    match s.turns[i]? with
    | some t =>
      if t.running then
        { s with
          sessions := s.append t.lane (.outbound p)
          turns := s.turns.modify i fun t => t.answer p sent }
      else s
    | none => s
  | .finish i => { s with turns := s.turns.modify i fun t => { t with running := false } }

def run (d : Dispatcher) (events : List (Event ρ)) : Dispatching ρ :=
  events.foldl (Dispatching.step d) {}

variable {d : Dispatcher} {e : InboundEnvelope} {channel sender agentId : Name}
  {config : Dict Name AgentConfig} {s : Dispatching ρ} {lane : Name × Name}

/-! ## Who gets an envelope -/

/-- The agent declares the channel and allows the sender. -/
def Takes (channel sender : Name) (cfg : AgentConfig) : Prop :=
  ∃ routing, cfg.channels.get? channel = some routing ∧ allows routing sender = true

/-- What the routing says : the agent that the caller has chosen gets the envelope, else the first
that takes it, else the only one there is, if none declares the channel. -/
def Routed (d : Dispatcher) (e : InboundEnvelope) (agentId : Name) : Prop :=
  (pinned e = some agentId ∧ agentId ∈ d.registered) ∨
  (pinned e = none ∧
    ((∃ before cfg after, d.config = before ++ (agentId, cfg) :: after ∧
      Takes e.channel e.senderId cfg ∧ ∀ x ∈ before, ¬Takes e.channel e.senderId x.2) ∨
    ((∀ x ∈ d.config, x.2.channels.get? e.channel = none) ∧ d.registered = [agentId])))

theorem routeFrom_of_takes {before after : Dict Name AgentConfig} {cfg : AgentConfig}
    (hbefore : ∀ x ∈ before, ¬Takes channel sender x.2) (hcfg : Takes channel sender cfg)
    (senderBlocked : Bool) :
    routeFrom channel sender (before ++ (agentId, cfg) :: after) senderBlocked = .inl agentId := by
  induction before generalizing senderBlocked with
  | nil =>
    obtain ⟨routing, hget, hallows⟩ := hcfg
    rw [List.nil_append, routeFrom, hget]
    exact if_pos hallows
  | cons x before ih =>
    obtain ⟨hx, hrest⟩ := List.forall_mem_cons.1 hbefore
    rw [List.cons_append, routeFrom]
    rcases hget : x.2.channels.get? channel with _ | routing
    · exact ih hrest senderBlocked
    · dsimp only
      rw [if_neg fun hallows => hx ⟨routing, hget, hallows⟩]
      exact ih hrest true

theorem routeFrom_of_none (h : ∀ x ∈ config, ¬Takes channel sender x.2) (senderBlocked : Bool) :
    routeFrom channel sender config senderBlocked =
      .inr (senderBlocked || config.any fun x => (x.2.channels.get? channel).isSome) := by
  induction config generalizing senderBlocked with
  | nil => rw [routeFrom, List.any_nil, Bool.or_false]
  | cons x config ih =>
    obtain ⟨hx, hrest⟩ := List.forall_mem_cons.1 h
    rw [routeFrom, List.any_cons]
    rcases hget : x.2.channels.get? channel with _ | routing
    · rw [Option.isSome_none, Bool.false_or]
      exact ih hrest senderBlocked
    · dsimp only
      rw [if_neg fun hallows => hx ⟨routing, hget, hallows⟩, ih hrest true, Option.isSome_some,
        Bool.true_or, Bool.or_true]

/-- There is a first that takes the envelope, or none. -/
theorem exists_first_or (channel sender : Name) (config : Dict Name AgentConfig) :
    (∀ x ∈ config, ¬Takes channel sender x.2) ∨
      ∃ before agentId cfg after, config = before ++ (agentId, cfg) :: after ∧
        Takes channel sender cfg ∧ ∀ x ∈ before, ¬Takes channel sender x.2 := by
  induction config with
  | nil => exact .inl nofun
  | cons x config ih =>
    by_cases hx : Takes channel sender x.2
    · exact .inr ⟨[], x.1, x.2, config, rfl, hx, nofun⟩
    · rcases ih with hnone | ⟨before, agentId, cfg, after, rfl, hcfg, hbefore⟩
      · exact .inl (List.forall_mem_cons.2 ⟨hx, hnone⟩)
      · exact .inr ⟨x :: before, agentId, cfg, after, rfl, hcfg,
          List.forall_mem_cons.2 ⟨hx, hbefore⟩⟩

theorem not_takes_of_get? (h : ∀ x ∈ config, x.2.channels.get? channel = none) :
    ∀ x ∈ config, ¬Takes channel sender x.2 := by
  rintro x hx ⟨routing, hget, -⟩
  rw [h x hx] at hget
  cases hget

/-- The routing, where the caller has chosen no agent. -/
theorem resolveAgentId_of_unpinned (hpinned : pinned e = none) :
    d.resolveAgentId e = some agentId ↔
      (∃ before cfg after, d.config = before ++ (agentId, cfg) :: after ∧
        Takes e.channel e.senderId cfg ∧ ∀ x ∈ before, ¬Takes e.channel e.senderId x.2) ∨
      ((∀ x ∈ d.config, x.2.channels.get? e.channel = none) ∧ d.registered = [agentId]) := by
  rw [resolveAgentId, hpinned]
  dsimp only
  rcases exists_first_or e.channel e.senderId d.config with
    hnone | ⟨before, a, cfg, after, hconfig, hcfg, hbefore⟩
  · have hfirst : ¬∃ before cfg after, d.config = before ++ (agentId, cfg) :: after ∧
        Takes e.channel e.senderId cfg ∧ ∀ x ∈ before, ¬Takes e.channel e.senderId x.2 := by
      rintro ⟨before, cfg, after, hconfig, hcfg, -⟩
      exact hnone _ (hconfig ▸ List.mem_append_right _ List.mem_cons_self) hcfg
    rw [routeFrom_of_none hnone, Bool.false_or, or_iff_right hfirst]
    rcases hany : d.config.any fun x => (x.2.channels.get? e.channel).isSome with _ | _
    · have hundeclared : ∀ x ∈ d.config, x.2.channels.get? e.channel = none := by
        intro x hx
        exact Option.not_isSome_iff_eq_none.1 (List.any_eq_false.1 hany x hx)
      rw [and_iff_right hundeclared]
      rcases d.registered with _ | ⟨a, _ | ⟨b, rest⟩⟩
      · exact ⟨nofun, nofun⟩
      · exact ⟨fun h => congrArg (fun a => [a]) (Option.some.inj h),
          fun h => congrArg some (List.cons.inj h).1⟩
      · exact ⟨nofun, nofun⟩
    · obtain ⟨x, hx, hsome⟩ := List.any_eq_true.1 hany
      refine ⟨nofun, fun h => ?_⟩
      rw [h.1 x hx] at hsome
      cases hsome
  · rw [hconfig, routeFrom_of_takes hbefore hcfg]
    constructor
    · intro h
      obtain rfl := Option.some.inj h
      exact .inl ⟨before, cfg, after, rfl, hcfg, hbefore⟩
    · rintro (⟨before', cfg', after', heq, hcfg', hbefore'⟩ | ⟨hundeclared, -⟩)
      · have hsame : routeFrom e.channel e.senderId (before' ++ (agentId, cfg') :: after') false =
            .inl agentId := routeFrom_of_takes hbefore' hcfg' false
        rw [← heq, routeFrom_of_takes hbefore hcfg] at hsame
        exact congrArg some (Sum.inl.inj hsame)
      · exact absurd hcfg (not_takes_of_get? hundeclared _
          (List.mem_append_right _ List.mem_cons_self))

/-- An envelope gets to an agent exactly if the routing says so. -/
theorem resolveAgentId_eq_some_iff : d.resolveAgentId e = some agentId ↔ Routed d e agentId := by
  rw [Routed]
  rcases hpinned : pinned e with _ | p
  · rw [resolveAgentId_of_unpinned hpinned]
    exact ⟨fun h => .inr ⟨rfl, h⟩, fun h => (h.resolve_left nofun).2⟩
  · rw [resolveAgentId, hpinned]
    dsimp only
    constructor
    · intro h
      split_ifs at h with hmem
      obtain rfl := Option.some.inj h
      exact .inl ⟨rfl, hmem⟩
    · rintro (⟨heq, hmem⟩ | ⟨hnone, -⟩)
      · obtain rfl := Option.some.inj heq
        exact if_pos hmem
      · cases hnone

/-! ## What the histories are -/

/-- What a turn adds to the history of its session. -/
def Turn.entries (t : Turn ρ) : List Entry :=
  .inbound t.envelope :: t.answers.map fun answer => .outbound answer.1

/-- What a turn with these answers comes to. -/
def outcomeOf (answers : List (SendParams × Sent ρ)) : DispatchOutcome ρ where
  results := answers.filterMap fun
    | (_, .ok result) => some result
    | _ => none
  agentYielded := answers.length
  deliveryWarnings := answers.filterMap fun
    | (p, .undeliverable error) => some ⟨p.target.channel, p.target.accountId, error⟩
    | _ => none

/-- The turn is one of an agent that the routing names, in the session of its target, and its
outcome is that of its answers. -/
structure Proper (d : Dispatcher) (t : Turn ρ) : Prop where
  routed : Routed d t.envelope t.lane.1
  registered : t.lane.1 ∈ d.registered
  session : t.lane.2 = sessionKeyFor t.envelope.target
  outcome : t.outcome = outcomeOf t.answers

/-- The histories are the turns, and no turn starts behind one that goes on in its lane. -/
structure Ok (d : Dispatcher) (s : Dispatching ρ) : Prop where
  history : ∀ lane, s.history lane =
    (s.turns.filter fun t => decide (t.lane = lane)).flatMap Turn.entries
  proper : ∀ t ∈ s.turns, Proper d t
  last : s.turns.Pairwise fun t t' => t.running = true → t'.lane ≠ t.lane
  dropped : ∀ x ∈ s.dropped, ∀ agentId ∈ d.registered, ¬Routed d x.1 agentId

theorem history_append (s : Dispatching ρ) (lane : Name × Name) (entry : Entry)
    (turns : List (Turn ρ)) (lane' : Name × Name) :
    ({ s with sessions := s.append lane entry, turns } : Dispatching ρ).history lane' =
      s.history lane' ++ if lane = lane' then [entry] else [] := by
  rw [Dispatching.history, Dispatching.append, Dict.get?_set]
  by_cases h : lane' = lane
  · rw [if_pos h, if_pos h.symm, h]
    rfl
  · rw [if_neg h, if_neg (Ne.symm h), List.append_nil]
    rfl

theorem flatMap_filter_append_cons (lane : Name × Name) (before after : List (Turn ρ))
    (t : Turn ρ) :
    ((before ++ t :: after).filter fun t => decide (t.lane = lane)).flatMap Turn.entries =
      (before.filter fun t => decide (t.lane = lane)).flatMap Turn.entries ++
        ((if t.lane = lane then t.entries else []) ++
          (after.filter fun t => decide (t.lane = lane)).flatMap Turn.entries) := by
  rw [List.filter_append, List.flatMap_append, List.filter_cons]
  by_cases h : t.lane = lane
  · rw [if_pos (decide_eq_true h), if_pos h, List.flatMap_cons]
  · rw [if_neg (by rwa [decide_eq_true_iff]), if_neg h, List.nil_append]

theorem Ok.start (h : Ok d s) (e : InboundEnvelope) : Ok d (s.start d e) := by
  rw [Dispatching.start]
  rcases hagent : d.resolveAgentId e with _ | agentId
  · refine ⟨h.history, h.proper, h.last, fun x hx => ?_⟩
    rcases List.mem_append.1 hx with hx | hx
    · exact h.dropped x hx
    · obtain rfl := List.mem_singleton.1 hx
      intro agentId _ hrouted
      cases hagent.symm.trans (resolveAgentId_eq_some_iff.2 hrouted)
  · dsimp only
    split_ifs with hmem hlocked
    · exact h
    · have hrouted := resolveAgentId_eq_some_iff.1 hagent
      refine ⟨fun lane => ?_, fun t ht => ?_, List.pairwise_append.2
        ⟨h.last, List.pairwise_singleton _ _, fun t ht t' ht' hrunning hsame => ?_⟩, h.dropped⟩
      · rw [history_append, h.history, flatMap_filter_append_cons, List.filter_nil,
          List.flatMap_nil, List.append_nil]
        rfl
      · rcases List.mem_append.1 ht with ht | ht
        · exact h.proper t ht
        · obtain rfl := List.mem_singleton.1 ht
          exact ⟨hrouted, hmem, rfl, rfl⟩
      · obtain rfl := List.mem_singleton.1 ht'
        refine hlocked (List.any_eq_true.2 ⟨t, ht, ?_⟩)
        rw [hrunning, Bool.true_and, decide_eq_true_iff]
        exact hsame.symm
    · refine ⟨h.history, h.proper, h.last, fun x hx => ?_⟩
      rcases List.mem_append.1 hx with hx | hx
      · exact h.dropped x hx
      · obtain rfl := List.mem_singleton.1 hx
        intro agentId' hmem' hrouted
        obtain rfl := Option.some.inj (hagent.symm.trans (resolveAgentId_eq_some_iff.2 hrouted))
        exact hmem hmem'

/-- What a turn becomes that goes on or ends. -/
theorem Ok.modify (h : Ok d s) {before after : List (Turn ρ)} {t t' : Turn ρ}
    {sessions : Dict (Name × Name) (List Entry)} (hturns : s.turns = before ++ t :: after)
    (hlane : t'.lane = t.lane) (hproper : Proper d t')
    (hrunning : t'.running = true → t.running = true)
    (hhistory : ∀ lane, ({ s with sessions } : Dispatching ρ).history lane =
      ((before ++ t' :: after).filter fun t => decide (t.lane = lane)).flatMap Turn.entries) :
    Ok d { s with sessions, turns := before ++ t' :: after } := by
  refine ⟨hhistory, fun u hu => ?_, ?_, h.dropped⟩
  · rcases List.mem_append.1 hu with hu | hu
    · exact h.proper u (hturns ▸ List.mem_append_left _ hu)
    · rcases List.mem_cons.1 hu with rfl | hu
      · exact hproper
      · exact h.proper u (hturns ▸ List.mem_append_right _ (List.mem_cons_of_mem _ hu))
  · have hlast := h.last
    rw [hturns, List.pairwise_append, List.pairwise_cons] at hlast
    obtain ⟨hbefore, ⟨hhead, hafter⟩, hacross⟩ := hlast
    refine List.pairwise_append.2 ⟨hbefore, List.pairwise_cons.2 ⟨fun u hu hgoes => ?_, hafter⟩,
      fun u hu v hv hgoes => ?_⟩
    · rw [hlane]
      exact hhead u hu (hrunning hgoes)
    · rcases List.mem_cons.1 hv with rfl | hv
      · rw [hlane]
        exact hacross u hu t List.mem_cons_self hgoes
      · exact hacross u hu v (List.mem_cons_of_mem _ hv) hgoes

theorem add_eq_outcomeOf (answers : List (SendParams × Sent ρ)) (p : SendParams) (sent : Sent ρ) :
    (outcomeOf answers).add p sent = outcomeOf (answers ++ [(p, sent)]) := by
  rw [outcomeOf, outcomeOf, List.filterMap_append, List.filterMap_append, List.length_append]
  rcases sent with result | error | _
  · simp [DispatchOutcome.add]
  · simp [DispatchOutcome.add]
  · simp [DispatchOutcome.add]

theorem exists_modify {i : ℕ} {turns : List (Turn ρ)} {t : Turn ρ} (h : turns[i]? = some t)
    (f : Turn ρ → Turn ρ) : ∃ before after, turns = before ++ t :: after ∧
      turns.modify i f = before ++ f t :: after := by
  induction turns generalizing i with
  | nil => cases h
  | cons u turns ih =>
    rcases i with _ | i
    · obtain rfl := Option.some.inj h
      exact ⟨[], turns, rfl, rfl⟩
    · obtain ⟨before, after, rfl, hmodify⟩ := ih h
      exact ⟨u :: before, after, rfl, congrArg (u :: ·) hmodify⟩

theorem Ok.answer (h : Ok d s) (i : ℕ) (p : SendParams) (sent : Sent ρ) :
    Ok d (s.step d (.answer i p sent)) := by
  rw [Dispatching.step]
  rcases hget : s.turns[i]? with _ | t
  · exact h
  · dsimp only
    split_ifs with hrunning
    · obtain ⟨before, after, hturns, hmodify⟩ := exists_modify hget fun t => t.answer p sent
      have ht := h.proper t (hturns ▸ List.mem_append_right _ List.mem_cons_self)
      rw [hmodify]
      refine h.modify hturns rfl ⟨ht.routed, ht.registered, ht.session, ?_⟩ (fun _ => hrunning) ?_
      · rw [Turn.answer, ht.outcome]
        exact add_eq_outcomeOf _ _ _
      · intro lane
        have hentries : (t.answer p sent).entries = t.entries ++ [.outbound p] := by
          rw [Turn.entries, Turn.answer, List.map_append]
          rfl
        have hlast := h.last
        rw [hturns, List.pairwise_append, List.pairwise_cons] at hlast
        rw [history_append, h.history, hturns, flatMap_filter_append_cons,
          flatMap_filter_append_cons]
        have hlane : (t.answer p sent).lane = t.lane := rfl
        rw [hlane]
        by_cases heq : t.lane = lane
        · have hnone : after.filter (fun u => decide (u.lane = lane)) = [] := by
            refine List.filter_eq_nil_iff.2 fun u hu hsame => ?_
            exact hlast.2.1.1 u hu hrunning ((of_decide_eq_true hsame).trans heq.symm)
          rw [if_pos heq, if_pos heq, if_pos heq, hnone, List.flatMap_nil, List.append_nil,
            List.append_nil, hentries, List.append_assoc]
        · rw [if_neg heq, if_neg heq, if_neg heq, List.append_nil]
    · exact h

theorem Ok.finish (h : Ok d s) (i : ℕ) : Ok d (s.step d (.finish i)) := by
  rw [Dispatching.step]
  rcases hget : s.turns[i]? with _ | t
  · rw [List.modify_eq_self (List.getElem?_eq_none_iff.1 hget)]
    exact h
  · obtain ⟨before, after, hturns, hmodify⟩ :=
      exists_modify hget fun t => { t with running := false }
    have ht := h.proper t (hturns ▸ List.mem_append_right _ List.mem_cons_self)
    rw [hmodify]
    refine h.modify hturns rfl ⟨ht.routed, ht.registered, ht.session, ht.outcome⟩
      (fun hgoes => absurd hgoes Bool.false_ne_true) ?_
    intro lane
    have hhistory := h.history lane
    rw [hturns, flatMap_filter_append_cons] at hhistory
    rw [flatMap_filter_append_cons]
    exact hhistory

theorem length_le_one_of_pairwise {α : Type*} {l : List α} (h : l.Pairwise fun _ _ => False) :
    l.length ≤ 1 := by
  rcases l with _ | ⟨x, _ | ⟨y, l⟩⟩
  · exact Nat.zero_le 1
  · exact Nat.le_refl 1
  · exact ((List.pairwise_cons.1 h).1 y List.mem_cons_self).elim

/-- In every order in which turns start, answer and end, the history of a session is the turns of
its lane one after the other, each an envelope and then its own answers; a turn is that of an agent
that the routing names for the envelope, in the session of its target; what has come of it are the
results and the warnings of its answers, in order; no two turns go on in one lane; and an envelope
is dropped only if the routing names no agent that is registered. -/
theorem run_histories (d : Dispatcher) (events : List (Event ρ)) :
    (∀ lane, (run d events).history lane =
      ((run d events).turns.filter fun t => decide (t.lane = lane)).flatMap Turn.entries) ∧
    (∀ t ∈ (run d events).turns, Proper d t) ∧
    (∀ lane,
      ((run d events).turns.filter fun t => t.running && decide (t.lane = lane)).length ≤ 1) ∧
    ∀ x ∈ (run d events).dropped, ∀ agentId ∈ d.registered, ¬Routed d x.1 agentId := by
  have hok : Ok d (run d events) := by
    refine foldl_invariant (I := Ok d) (fun s e h => ?_) ?_ events
    · rcases e with e | ⟨i, p, sent⟩ | i
      · exact h.start e
      · exact h.answer i p sent
      · exact h.finish i
    · exact ⟨fun _ => rfl, fun _ ht => absurd ht List.not_mem_nil, List.Pairwise.nil,
        fun _ hx => absurd hx List.not_mem_nil⟩
  refine ⟨hok.history, hok.proper, fun lane => ?_, hok.dropped⟩
  have hlane (t : Turn ρ)
      (ht : t ∈ (run d events).turns.filter fun t => t.running && decide (t.lane = lane)) :
      t.running = true ∧ t.lane = lane := by
    have hboth := (List.mem_filter.1 ht).2
    rwa [Bool.and_eq_true, decide_eq_true_iff] at hboth
  have hpairwise := hok.last.filter fun t => t.running && decide (t.lane = lane)
  exact length_le_one_of_pairwise (hpairwise.imp_of_mem fun ht ht' hnext =>
    hnext (hlane _ ht).1 ((hlane _ ht').2.trans (hlane _ ht).2.symm))

end Dispatcher

end OxenClaw.Agents
