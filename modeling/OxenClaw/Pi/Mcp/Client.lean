import OxenClaw.Lib.Dict
import OxenClaw.Lib.Runs
import OxenClaw.Pi.Messages

/-!
# The MCP client

`MCPClient` numbers its requests, keeps a table of those that await their response and has
one reader that hands every message to the request it names. A request suspends in the
transport's `send` and at its future; the reader suspends in `receive`, `close` in the reader
and the transport. `MCPClient.step` is what happens between two of these points, with the
server free to send anything.

`Correct` is what the client owes its callers : a request returns what a response to it
carried, a response completes one request, and none is left pending on a client that is closed
or whose transport has ended. The client keeps it along every run whose events are `Sound`
(`correct_of_sound`).
-/

namespace OxenClaw.Mcp

/-- How a request fails : with the `error` of its response, with what the transport raised, or
before either. -/
inductive Failure where
  | mcp (err : Json)
  | transport
  | timeout
  | cancelled

/-- The future of a request. -/
inductive Future where
  | pending
  | result (r : Json)
  | exception (f : Failure)
  | cancelled

/-- Where `_request` is. -/
inductive Phase where
  | sending
  | waiting
  | returned (r : Json)
  | raised (f : Failure)

structure Request where
  timeout : Option ℚ
  future : Future := .pending
  phase : Phase := .sending

/-- The task that drains incoming messages. -/
inductive Reader where
  | running
  | ended
  | cancelled
  deriving DecidableEq

/-- A client with the requests made of it. `pending` has the keys of `_pending`; the future
under a key is that of the request with this id. `closing` is `_closed`, `closed` that `close`
has returned. `received` and `completions` are what the server sent so far and which of these
messages completed which request. -/
structure MCPClient where
  nextId : ℤ := 1
  pending : List ℤ := []
  requests : Dict ℤ Request := []
  reader : Reader := .running
  closing : Bool := false
  closed : Bool := false
  sent : List Args := []
  received : List Json := []
  completions : List (ℕ × ℤ) := []

/-- What happens between two awaits. -/
inductive MCPEvent where
  /-- `_request` is called. -/
  | request (method : String) (params : Option Args) (timeout : Option ℚ)
  /-- The transport has sent a request. -/
  | sent (id : ℤ)
  /-- The transport raised on sending a request. -/
  | sendFails (id : ℤ)
  /-- A request goes on from its future, which is done. -/
  | resume (id : ℤ)
  /-- The wait for a response takes too long. -/
  | timeout (id : ℤ)
  /-- The task of a request is cancelled. -/
  | cancel (id : ℤ)
  /-- The reader gets a message. -/
  | receive (message : Json)
  /-- The reader finds the transport closed, or its `receive` raises otherwise. -/
  | transportEnds
  /-- `close` is called, up to its first await. -/
  | close
  /-- `close` returns. -/
  | closeReturns

/-- `key in d`. -/
def has (d : Args) (key : String) : Bool :=
  (d.get key).isSome

/-- The `int` a JSON value is; a `bool` is one in Python. -/
def asInt : Json → Option ℤ
  | .int n => some n
  | .bool b => some (if b then 1 else 0)
  | _ => none

def Future.isPending : Future → Bool
  | .pending => true
  | _ => false

def Phase.isSending : Phase → Bool
  | .sending => true
  | _ => false

def Phase.isWaiting : Phase → Bool
  | .waiting => true
  | _ => false

namespace MCPClient

/-- The future under a key of `_pending` is not done. -/
def awaits (c : MCPClient) (id : ℤ) : Bool :=
  decide (id ∈ c.pending) && ((c.requests.get? id).any fun q => q.future.isPending)

def update (c : MCPClient) (id : ℤ) (f : Request → Request) : MCPClient :=
  match c.requests.get? id with
  | some q => { c with requests := c.requests.set id (f q) }
  | none => c

/-- `self._pending.pop(id, None)`. -/
def pop (c : MCPClient) (id : ℤ) : MCPClient :=
  { c with pending := c.pending.filter (· ≠ id) }

/-- What a response makes of the future it completes. -/
def outcome (message : Args) : Future :=
  match message.get "error" with
  | some err => .exception (.mcp err)
  | none => .result ((message.get "result").getD .null)

/-- `_dispatch` of the message with number `k`. -/
def dispatch (c : MCPClient) (k : ℕ) (message : Json) : MCPClient :=
  match message with
  | .obj fields =>
    if has fields "method" && !has fields "id" then c
    else
      match (Args.get fields "id").bind asInt with
      | none => c
      | some id =>
        if c.awaits id then
          { (c.pop id).update id fun q => { q with future := outcome fields } with
            completions := c.completions ++ [(k, id)] }
        else c.pop id
  | _ => c

/-- `_fail_all_pending`. -/
def failAllPending (c : MCPClient) : MCPClient :=
  { c with
    requests := c.requests.map fun e =>
      (e.1,
        if e.1 ∈ c.pending ∧ e.2.future.isPending then
          { e.2 with future := .exception .transport }
        else e.2)
    pending := [] }

/-- The envelope of a request. -/
def envelope (id : ℤ) (method : String) (params : Option Args) : Args :=
  [("jsonrpc", .str "2.0"), ("id", .int id), ("method", .str method)] ++
    (params.map fun p => ("params", Json.obj p)).toList

/-- `_request` up to its first await. On a closed client it raises. -/
def request (c : MCPClient) (method : String) (params : Option Args) (timeout : Option ℚ) :
    MCPClient :=
  if c.closing then c
  else
    { c with
      nextId := c.nextId + 1
      pending := c.pending ++ [c.nextId]
      requests := c.requests.set c.nextId { timeout }
      sent := c.sent ++ [envelope c.nextId method params] }

/-- A request that goes on from its done future returns or raises. -/
def Request.resume (q : Request) : Request :=
  match q.phase, q.future with
  | .waiting, .result r => { q with phase := .returned r }
  | .waiting, .exception f => { q with phase := .raised f }
  | _, _ => q

/-- A request that is cancelled, its future with it where it waits for it. -/
def Request.cancel (q : Request) : Request :=
  match q.phase, q.future with
  | .sending, _ => { q with phase := .raised .cancelled }
  | .waiting, .pending => { q with phase := .raised .cancelled, future := .cancelled }
  | .waiting, _ => { q with phase := .raised .cancelled }
  | _, _ => q

/-- A request whose wait is over. -/
def Request.expire (q : Request) : Request :=
  match q.future with
  | .pending => { q with phase := .raised .timeout, future := .cancelled }
  | _ => { q with phase := .raised .timeout }

/-- The request is at this point of `_request`. -/
def isAt (c : MCPClient) (id : ℤ) (p : Request → Bool) : Bool :=
  (c.requests.get? id).any p

/-- One event. An event of a request that is not at that point changes nothing. -/
def step (c : MCPClient) : MCPEvent → MCPClient
  | .request method params timeout => c.request method params timeout
  | .sent id =>
    if c.isAt id (·.phase.isSending) then c.update id fun q => { q with phase := .waiting } else c
  | .sendFails id =>
    if c.isAt id (·.phase.isSending) then
      (c.update id fun q => { q with phase := .raised .transport }).pop id
    else c
  | .resume id => c.update id Request.resume
  | .timeout id =>
    if c.isAt id fun q => q.phase.isWaiting && q.timeout.isSome then
      (c.update id Request.expire).pop id
    else c
  | .cancel id => c.update id Request.cancel
  | .receive message =>
    if c.reader = .running then
      { c with received := c.received ++ [message] }.dispatch c.received.length message
    else c
  | .transportEnds =>
    if c.reader = .running then { c.failAllPending with reader := .ended } else c
  | .close =>
    if c.closing then c
    else
      { c with
        closing := true
        reader := if c.reader = .running then .cancelled else c.reader }
  | .closeReturns => if c.closing then { c with closed := true } else c

/-! ## What the client owes its callers -/

/-- A message without a method that has the request's id and carries `r`. -/
def IsResponse (message : Json) (id : ℤ) (r : Json) : Prop :=
  ∃ fields : Args, message = .obj fields ∧ has fields "method" = false ∧
    Args.get fields "id" = some (.int id) ∧ outcome fields = .result r

/-- The request waits for its future, which is not done. -/
def leftPending (c : MCPClient) (id : ℤ) : Bool :=
  c.isAt id fun q => q.phase.isWaiting && q.future.isPending

/-- A request returns what a response to it carried, a message completes at most one request,
and on a client that is closed or whose transport has ended none is left pending. -/
structure Correct (c : MCPClient) : Prop where
  own : ∀ id r, (∃ q, c.requests.get? id = some q ∧ q.phase = .returned r) →
    ∃ message ∈ c.received, IsResponse message id r
  once : (c.completions.map Prod.fst).Nodup
  settled : c.closed = true ∨ c.reader = .ended → ∀ id, c.leftPending id = false

/-- The message completes a request it is no response to : it has a method, or a `bool` for
an id. -/
def misread (c : MCPClient) (message : Json) : Bool :=
  match message with
  | .obj fields =>
    match Args.get fields "id" with
    | some (.int id) => c.awaits id && has fields "method" && !has fields "error"
    | some (.bool b) => c.awaits (if b then 1 else 0) && !has fields "error"
    | _ => false
  | _ => false

/-- An event that does not reach a message the client misreads, does not close it on a waiting
request and does not set a request waiting after its end. -/
def Sound (c : MCPClient) : MCPEvent → Prop
  | .receive message => c.reader = .running → c.misread message = false
  | .closeReturns => c.closing = true → ∀ e ∈ c.requests, c.leftPending e.1 = false
  | .sent id => c.closed = true ∨ c.reader = .ended →
      c.isAt id (fun q => q.phase.isSending && q.future.isPending) = false
  | _ => True

/-- What carries `Correct` along a run : a request that waits is in the table, what completes
or leaves it came with a response to it, and completions are numbered by messages. -/
structure Inv (c : MCPClient) : Prop where
  table : ∀ id q, c.requests.get? id = some q → q.future.isPending = true →
    q.phase.isSending = true ∨ q.phase.isWaiting = true → id ∈ c.pending
  own : ∀ id q r, c.requests.get? id = some q → q.future = .result r ∨ q.phase = .returned r →
    ∃ message ∈ c.received, IsResponse message id r
  once : (c.completions.map Prod.fst).Nodup
  numbered : ∀ e ∈ c.completions, e.1 < c.received.length

theorem get?_update (c : MCPClient) (id id' : ℤ) (f : Request → Request) :
    (c.update id f).requests.get? id' =
      if id' = id then (c.requests.get? id).map f else c.requests.get? id' := by
  unfold update
  cases h : c.requests.get? id with
  | none =>
    split_ifs with hid
    · rw [hid, h]
      rfl
    · rfl
  | some q =>
    rw [Dict.get?_set]
    rfl

/-- An update of a request that resolves nothing keeps the invariant. -/
theorem Inv.update {c : MCPClient} (h : Inv c) (id : ℤ) {f : Request → Request}
    (htable : ∀ q, c.requests.get? id = some q → (f q).future.isPending = true →
      (f q).phase.isSending = true ∨ (f q).phase.isWaiting = true →
      q.future.isPending = true ∧ (q.phase.isSending = true ∨ q.phase.isWaiting = true))
    (hown : ∀ q r, c.requests.get? id = some q →
      (f q).future = .result r ∨ (f q).phase = .returned r →
      q.future = .result r ∨ q.phase = .returned r) :
    Inv (c.update id f) := by
  have hfields : (c.update id f).pending = c.pending ∧
      (c.update id f).received = c.received ∧ (c.update id f).completions = c.completions := by
    unfold MCPClient.update
    split <;> exact ⟨rfl, rfl, rfl⟩
  obtain ⟨hpending, hreceived, hcompletions⟩ := hfields
  refine ⟨fun id' q hq hf hp => ?_, fun id' q r hq hr => ?_, ?_, ?_⟩
  · rw [hpending]
    rw [get?_update] at hq
    split_ifs at hq with hid
    · obtain ⟨q', hq', rfl⟩ := Option.map_eq_some_iff.1 hq
      obtain ⟨hf', hp'⟩ := htable q' hq' hf hp
      exact hid ▸ h.table id q' hq' hf' hp'
    · exact h.table id' q hq hf hp
  · rw [hreceived]
    rw [get?_update] at hq
    split_ifs at hq with hid
    · obtain ⟨q', hq', rfl⟩ := Option.map_eq_some_iff.1 hq
      exact hid ▸ h.own id q' r hq' (hown q' r hq' hr)
    · exact h.own id' q r hq hr
  · rw [hcompletions]
    exact h.once
  · rw [hcompletions, hreceived]
    exact h.numbered

/-- A request that awaits nothing leaves the table. -/
theorem Inv.pop {c : MCPClient} (h : Inv c) (id : ℤ)
    (hdone : ∀ q, c.requests.get? id = some q → q.future.isPending = true →
      ¬(q.phase.isSending = true ∨ q.phase.isWaiting = true)) : Inv (c.pop id) := by
  refine ⟨fun id' q hq hf hp => ?_, h.own, h.once, h.numbered⟩
  have hne : id' ≠ id := by
    rintro rfl
    exact hdone q hq hf hp
  exact List.mem_filter.2 ⟨h.table id' q hq hf hp, by simpa using hne⟩

theorem pop_update (c : MCPClient) (id : ℤ) (f : Request → Request) :
    (c.pop id).update id f = (c.update id f).pop id := by
  unfold update
  change (match c.requests.get? id with | some q => _ | none => _) = _
  cases c.requests.get? id <;> rfl

theorem isAt_eq_true_iff {c : MCPClient} {id : ℤ} {p : Request → Bool} :
    c.isAt id p = true ↔ ∃ q, c.requests.get? id = some q ∧ p q = true := by
  rw [isAt, Option.any_eq_true]

/-- A message more makes no difference to what was carried before. -/
theorem Inv.received {c : MCPClient} (h : Inv c) (message : Json) :
    Inv { c with received := c.received ++ [message] } where
  table := h.table
  own id q r hq hr := by
    obtain ⟨m, hm, hresponse⟩ := h.own id q r hq hr
    exact ⟨m, List.mem_append_left _ hm, hresponse⟩
  once := h.once
  numbered e he := by
    have := h.numbered e he
    simp only [List.length_append, List.length_singleton]
    omega

/-- The message that completes a request is a response to it, unless it is misread. -/
theorem isResponse_of_not_misread {c : MCPClient} {fields : Args} {id : ℤ} {r : Json}
    (hid : (Args.get fields "id").bind asInt = some id) (hawaits : c.awaits id = true)
    (hmisread : c.misread (.obj fields) = false) (hr : outcome fields = .result r) :
    IsResponse (.obj fields) id r := by
  have herror : has fields "error" = false := by
    unfold outcome at hr
    cases he : Args.get fields "error" with
    | none => simp [has, he]
    | some err => simp [he] at hr
  obtain ⟨j, hj, hint⟩ := Option.bind_eq_some_iff.1 hid
  have hjid : j = .int id ∧ has fields "method" = false := by
    simp only [misread, hj] at hmisread
    cases j with
    | int n =>
      obtain rfl : n = id := by simpa [asInt] using hint
      exact ⟨rfl, by simpa [hawaits, herror] using hmisread⟩
    | bool b =>
      have hb : (if b then 1 else 0) = id := by simpa [asInt] using hint
      simp only [hb, hawaits, herror] at hmisread
      simp at hmisread
    | _ => simp [asInt] at hint
  exact ⟨fields, rfl, hjid.2, hjid.1 ▸ hj, hr⟩

/-- The future a response completes, and the entry that is popped for it. -/
theorem Inv.complete {c : MCPClient} (h : Inv c) {id : ℤ} {future : Future}
    (hdone : future.isPending = false)
    (hresponse : ∀ r, future = .result r → ∃ m ∈ c.received, IsResponse m id r)
    {k : ℕ} (hk : k < c.received.length) (hfresh : ∀ e ∈ c.completions, e.1 ≠ k) :
    Inv { (c.pop id).update id fun q => { q with future } with
      completions := c.completions ++ [(k, id)] } := by
  have hfields : ((c.pop id).update id fun q => { q with future }).pending =
        c.pending.filter (· ≠ id) ∧
      ((c.pop id).update id fun q => { q with future }).received = c.received := by
    rw [pop_update]
    unfold MCPClient.update
    split <;> exact ⟨rfl, rfl⟩
  obtain ⟨hpending, hreceived⟩ := hfields
  refine ⟨fun id' q hq hf hp => ?_, fun id' q r hq hr => ?_, ?_, fun e he => ?_⟩
  · change _ ∈ ((c.pop id).update id _).pending
    change ((c.pop id).update id _).requests.get? id' = some q at hq
    rw [hpending]
    rw [get?_update] at hq
    split_ifs at hq with hid
    · obtain ⟨q', -, rfl⟩ := Option.map_eq_some_iff.1 hq
      simp [hdone] at hf
    · exact List.mem_filter.2 ⟨h.table id' q hq hf hp, by simpa using hid⟩
  · change ∃ m ∈ ((c.pop id).update id _).received, _
    change ((c.pop id).update id _).requests.get? id' = some q at hq
    rw [hreceived]
    rw [get?_update] at hq
    split_ifs at hq with hid
    · obtain ⟨q', hq', rfl⟩ := Option.map_eq_some_iff.1 hq
      rcases hr with hr | hr
      · exact hid ▸ hresponse r hr
      · exact hid ▸ h.own id q' r hq' (.inr hr)
    · exact h.own id' q r hq hr
  · change ((c.completions ++ [(k, id)]).map Prod.fst).Nodup
    rw [List.map_append, List.nodup_append]
    refine ⟨h.once, List.nodup_singleton _, fun i hi j hj => ?_⟩
    obtain ⟨e, he, rfl⟩ := List.mem_map.1 hi
    obtain rfl : j = k := by simpa using hj
    exact hfresh e he
  · change e.1 < ((c.pop id).update id _).received.length
    rw [hreceived]
    rcases List.mem_append.1 he with he | he
    · exact h.numbered e he
    · rw [List.mem_singleton.1 he]
      exact hk

theorem outcome_isPending (fields : Args) : (outcome fields).isPending = false := by
  unfold outcome
  split <;> rfl

/-- What a message that is not misread does to the table. -/
theorem Inv.dispatch {c : MCPClient} (h : Inv c) {message : Json}
    (hsound : c.misread message = false) :
    Inv ({ c with received := c.received ++ [message] }.dispatch c.received.length message) := by
  have h' := h.received message
  unfold MCPClient.dispatch
  cases message with
  | obj fields =>
    dsimp only
    split_ifs with hnotification
    · exact h'
    · cases hid : (Args.get fields "id").bind asInt with
      | none => exact h'
      | some id =>
        dsimp only
        split_ifs with hawaits
        · refine h'.complete (outcome_isPending fields) (fun r hr => ?_) (by simp) ?_
          · refine ⟨.obj fields, by simp, ?_⟩
            exact isResponse_of_not_misread hid hawaits hsound hr
          · intro e he heq
            exact absurd (h.numbered e he) (by omega)
        · refine h'.pop id fun q hq hf hp => hawaits ?_
          have hmem := h'.table id q hq hf hp
          have hany : c.requests.get? id = some q := hq
          simpa [awaits, hany, hf] using hmem
  | _ => exact h'

theorem get?_failAllPending (c : MCPClient) (id : ℤ) :
    c.failAllPending.requests.get? id = (c.requests.get? id).map fun q =>
      if id ∈ c.pending ∧ q.future.isPending then { q with future := .exception .transport }
      else q :=
  Dict.get?_map (fun (id : ℤ) (q : Request) =>
    if id ∈ c.pending ∧ q.future.isPending then
      ({ q with future := .exception .transport } : Request)
    else q) id c.requests

theorem Inv.failAllPending {c : MCPClient} (h : Inv c) : Inv c.failAllPending := by
  refine ⟨fun id q hq hf hp => ?_, fun id q r hq hr => ?_, h.once, h.numbered⟩
  · rw [get?_failAllPending] at hq
    obtain ⟨q', hq', rfl⟩ := Option.map_eq_some_iff.1 hq
    split_ifs at hf hp with hin
    · simp [Future.isPending] at hf
    · exact absurd ⟨h.table id q' hq' hf hp, hf⟩ hin
  · rw [get?_failAllPending] at hq
    obtain ⟨q', hq', rfl⟩ := Option.map_eq_some_iff.1 hq
    refine h.own id q' r hq' ?_
    split_ifs at hr with hin
    · exact .inr (hr.resolve_left (by simp))
    · exact hr

/-- A sound event keeps the invariant. -/
theorem Inv.step {c : MCPClient} (h : Inv c) {e : MCPEvent} (hsound : c.Sound e) :
    Inv (c.step e) := by
  cases e with
  | request method params timeout =>
    simp only [MCPClient.step, request]
    split_ifs with hclosing
    · exact h
    · refine ⟨fun id q hq hf hp => ?_, fun id q r hq hr => ?_, h.once, h.numbered⟩
      · change (c.requests.set _ _).get? id = _ at hq
        rw [Dict.get?_set] at hq
        split_ifs at hq with hid
        · exact List.mem_append_right _ (by simp [hid])
        · exact List.mem_append_left _ (h.table id q hq hf hp)
      · change (c.requests.set _ _).get? id = _ at hq
        rw [Dict.get?_set] at hq
        split_ifs at hq with hid
        · obtain rfl := Option.some.inj hq
          simp at hr
        · exact h.own id q r hq hr
  | sent id =>
    simp only [MCPClient.step]
    split_ifs with hat
    · obtain ⟨q, hq, hsending⟩ := isAt_eq_true_iff.1 hat
      refine h.update id (fun q' hq' hf _ => ?_) (fun q' r _ hr => .inl (by simpa using hr))
      obtain rfl : q = q' := Option.some.inj (hq.symm.trans hq')
      exact ⟨hf, .inl hsending⟩
    · exact h
  | sendFails id =>
    simp only [MCPClient.step]
    split_ifs with hat
    · refine (h.update id (fun q _ _ hp => ?_) fun q r _ hr => .inl (by simpa using hr)).pop id
        fun q hq _ => ?_
      · simp [Phase.isSending, Phase.isWaiting] at hp
      · rw [get?_update, if_pos rfl] at hq
        obtain ⟨q', -, rfl⟩ := Option.map_eq_some_iff.1 hq
        simp [Phase.isSending, Phase.isWaiting]
    · exact h
  | resume id =>
    refine h.update id (fun q _ hf hp => ?_) fun q r _ hr => ?_
    · unfold Request.resume at hf hp
      split at hf <;> simp_all [Phase.isSending, Phase.isWaiting]
    · unfold Request.resume at hr
      split at hr <;> simp_all
  | timeout id =>
    simp only [MCPClient.step]
    split_ifs with hat
    · refine (h.update id (fun q _ _ hp => ?_) fun q r _ hr => ?_).pop id fun q hq _ => ?_
      · unfold Request.expire at hp
        split at hp <;> simp [Phase.isSending, Phase.isWaiting] at hp
      · unfold Request.expire at hr
        split at hr <;> simp_all
      · rw [get?_update, if_pos rfl] at hq
        obtain ⟨q', -, rfl⟩ := Option.map_eq_some_iff.1 hq
        unfold Request.expire
        split <;> simp [Phase.isSending, Phase.isWaiting]
    · exact h
  | cancel id =>
    refine h.update id (fun q _ hf hp => ?_) fun q r _ hr => ?_
    · unfold Request.cancel at hf hp
      split at hf <;> simp_all [Phase.isSending, Phase.isWaiting]
    · unfold Request.cancel at hr
      split at hr <;> simp_all
  | receive message =>
    simp only [MCPClient.step]
    split_ifs with hrunning
    · exact h.dispatch (hsound hrunning)
    · exact h
  | transportEnds =>
    simp only [MCPClient.step]
    split_ifs
    · exact ⟨h.failAllPending.table, h.failAllPending.own, h.once, h.numbered⟩
    · exact h
  | close =>
    simp only [MCPClient.step]
    split_ifs
    · exact h
    all_goals exact ⟨h.table, h.own, h.once, h.numbered⟩
  | closeReturns =>
    simp only [MCPClient.step]
    split_ifs
    · exact ⟨h.table, h.own, h.once, h.numbered⟩
    · exact h

/-- No request is left pending on a client at its end. -/
def Settled (c : MCPClient) : Prop :=
  c.closed = true ∨ c.reader = .ended → ∀ id, c.leftPending id = false

/-- An event that changes no request to wait for a future that is not done. -/
theorem Settled.of_le {c c' : MCPClient} (h : c.Settled)
    (hend : c'.closed = true ∨ c'.reader = .ended → c.closed = true ∨ c.reader = .ended)
    (hle : ∀ id, c'.leftPending id = true → c.leftPending id = true) : c'.Settled := by
  intro hend' id
  by_contra hpending
  have hpending := hle id (by simpa using hpending)
  rw [h (hend hend') id] at hpending
  exact absurd hpending (by simp)

theorem leftPending_update {c : MCPClient} {id id' : ℤ} {f : Request → Request}
    (hf : ∀ q, c.requests.get? id = some q →
      ((f q).phase.isWaiting && (f q).future.isPending) = true →
      (q.phase.isWaiting && q.future.isPending) = true)
    (h : (c.update id f).leftPending id' = true) : c.leftPending id' = true := by
  obtain ⟨q, hq, hwaits⟩ := isAt_eq_true_iff.1 h
  rw [get?_update] at hq
  split_ifs at hq with hid
  · obtain ⟨q', hq', rfl⟩ := Option.map_eq_some_iff.1 hq
    exact isAt_eq_true_iff.2 ⟨q', hid ▸ hq', hf q' hq' hwaits⟩
  · exact isAt_eq_true_iff.2 ⟨q, hq, hwaits⟩

theorem leftPending_iff {c : MCPClient} {id : ℤ} :
    c.leftPending id = true ↔ ∃ q, c.requests.get? id = some q ∧
      q.phase.isWaiting = true ∧ q.future.isPending = true := by
  rw [leftPending, isAt_eq_true_iff]
  simp only [Bool.and_eq_true]

/-- What the reader leaves pending when its transport ends : nothing. -/
theorem leftPending_failAllPending {c : MCPClient} (h : Inv c) (id : ℤ) :
    c.failAllPending.leftPending id = false := by
  by_contra hpending
  obtain ⟨q, hq, hwaiting, hlive⟩ := leftPending_iff.1 (by simpa using hpending)
  rw [get?_failAllPending] at hq
  obtain ⟨q', hq', rfl⟩ := Option.map_eq_some_iff.1 hq
  split_ifs at hwaiting hlive with hin
  · simp [Future.isPending] at hlive
  · exact hin ⟨h.table id q' hq' hlive (.inr hwaiting), hlive⟩

theorem update_fields (c : MCPClient) (id : ℤ) (f : Request → Request) :
    (c.update id f).closed = c.closed ∧ (c.update id f).reader = c.reader := by
  unfold MCPClient.update
  split <;> exact ⟨rfl, rfl⟩

/-- An update of a request that does not start to wait. -/
theorem Settled.update {c : MCPClient} (h : c.Settled) (id : ℤ) {f : Request → Request}
    (hf : ∀ q, c.requests.get? id = some q →
      ((f q).phase.isWaiting && (f q).future.isPending) = true →
      (q.phase.isWaiting && q.future.isPending) = true) : (c.update id f).Settled := by
  refine h.of_le (fun hend => ?_) fun id' => leftPending_update hf
  rwa [(update_fields c id f).1, (update_fields c id f).2] at hend

/-- A message starts no wait and does not end the client. -/
theorem dispatch_waits (c : MCPClient) (k : ℕ) (message : Json) :
    ((c.dispatch k message).closed = c.closed ∧ (c.dispatch k message).reader = c.reader) ∧
      ∀ id, (c.dispatch k message).leftPending id = true → c.leftPending id = true := by
  unfold dispatch
  cases message with
  | obj fields =>
    dsimp only
    split_ifs with hnotification
    · exact ⟨⟨rfl, rfl⟩, fun _ => id⟩
    · cases (Args.get fields "id").bind asInt with
      | none => exact ⟨⟨rfl, rfl⟩, fun _ => id⟩
      | some id =>
        dsimp only
        split_ifs with hawaits
        · refine ⟨update_fields (c.pop id) id _, fun id' hpending => ?_⟩
          refine leftPending_update (c := c.pop id) (fun q _ hwaits => ?_) hpending
          simp [outcome_isPending] at hwaits
        · exact ⟨⟨rfl, rfl⟩, fun _ hpending => hpending⟩
  | _ => exact ⟨⟨rfl, rfl⟩, fun _ => id⟩

/-- A sound event leaves no request pending on a client at its end. -/
theorem Settled.step {c : MCPClient} (h : c.Settled) (hinv : Inv c) {e : MCPEvent}
    (hsound : c.Sound e) : (c.step e).Settled := by
  cases e with
  | request method params timeout =>
    simp only [MCPClient.step, request]
    split_ifs with hclosing
    · exact h
    · refine h.of_le id fun id' hpending => ?_
      obtain ⟨q, hq, hwaits⟩ := isAt_eq_true_iff.1 hpending
      change (c.requests.set _ _).get? id' = _ at hq
      rw [Dict.get?_set] at hq
      split_ifs at hq with hid
      · obtain rfl := Option.some.inj hq
        simp [Phase.isWaiting] at hwaits
      · exact isAt_eq_true_iff.2 ⟨q, hq, hwaits⟩
  | sent id =>
    simp only [MCPClient.step]
    split_ifs with hat
    · intro hend id'
      rw [(update_fields c id _).1, (update_fields c id _).2] at hend
      by_contra hpending
      obtain ⟨q, hq, hwaiting, hlive⟩ := leftPending_iff.1 (by simpa using hpending)
      rw [get?_update] at hq
      split_ifs at hq with hid
      · -- the request that starts to wait is the one the condition is about
        obtain ⟨q', hq', rfl⟩ := Option.map_eq_some_iff.1 hq
        obtain ⟨q'', hq'', hsending⟩ := isAt_eq_true_iff.1 hat
        obtain rfl : q'' = q' := Option.some.inj (hq''.symm.trans hq')
        have hresolved := hsound hend
        have hat : c.isAt id (fun q => q.phase.isSending && q.future.isPending) = true :=
          isAt_eq_true_iff.2 ⟨q'', hq', Bool.and_eq_true_iff.2 ⟨hsending, hlive⟩⟩
        rw [hresolved] at hat
        exact absurd hat (by simp)
      · have hleft : c.leftPending id' = true := leftPending_iff.2 ⟨q, hq, hwaiting, hlive⟩
        rw [h hend id'] at hleft
        exact absurd hleft (by simp)
    · exact h
  | sendFails id =>
    simp only [MCPClient.step]
    split_ifs with hat
    · exact h.update id fun q _ hwaits => by simp [Phase.isWaiting] at hwaits
    · exact h
  | resume id =>
    refine h.update id fun q _ hwaits => ?_
    unfold Request.resume at hwaits
    split at hwaits <;> simp_all [Phase.isWaiting]
  | timeout id =>
    simp only [MCPClient.step]
    split_ifs with hat
    · refine h.update id fun q _ hwaits => ?_
      unfold Request.expire at hwaits
      split at hwaits <;> simp [Phase.isWaiting] at hwaits
    · exact h
  | cancel id =>
    refine h.update id fun q _ hwaits => ?_
    unfold Request.cancel at hwaits
    split at hwaits <;> simp_all [Phase.isWaiting]
  | receive message =>
    simp only [MCPClient.step]
    split_ifs with hrunning
    · obtain ⟨hend, hle⟩ := dispatch_waits { c with received := c.received ++ [message] }
        c.received.length message
      exact h.of_le (fun hend' => by rwa [hend.1, hend.2] at hend') hle
    · exact h
  | transportEnds =>
    simp only [MCPClient.step]
    split_ifs
    · exact fun _ => leftPending_failAllPending hinv
    · exact h
  | close =>
    simp only [MCPClient.step]
    split_ifs with hclosing hrunning
    · exact h
    · refine h.of_le (fun hend => ?_) fun _ => id
      exact .inl (by simpa using hend)
    · exact h.of_le id fun _ => id
  | closeReturns =>
    simp only [MCPClient.step]
    split_ifs with hclosing
    · intro _ id
      by_contra hpending
      obtain ⟨q, hq, hwaits⟩ := leftPending_iff.1 (by simpa using hpending)
      have hnone := hsound hclosing (id, q) (Dict.mem_of_get? hq)
      have hleft : c.leftPending id = true := leftPending_iff.2 ⟨q, hq, hwaits⟩
      rw [hnone] at hleft
      exact absurd hleft (by simp)
    · exact h

/-- Along every run of sound events the client is correct. -/
theorem correct_of_sound (es : List MCPEvent) (h : EachStep step Sound {} es) :
    ∀ c ∈ trail step {} es, Correct c := by
  have hnew : Inv {} ∧ Settled {} :=
    ⟨⟨by simp, by simp, List.nodup_nil, by simp⟩, by simp [Settled]⟩
  have hall := h.forall_mem_trail (I := fun c => Inv c ∧ c.Settled)
    (fun c e hc he => ⟨hc.1.step he, hc.2.step hc.1 he⟩) hnew
  intro c hc
  obtain ⟨hinv, hsettled⟩ := hall c hc
  refine ⟨?_, hinv.once, hsettled⟩
  rintro id r ⟨q, hq, hreturned⟩
  exact hinv.own id q r hq (.inr hreturned)

instance (c : MCPClient) : (e : MCPEvent) → Decidable (c.Sound e)
  | .receive _ | .sent _ => inferInstanceAs (Decidable (_ → _))
  | .closeReturns => inferInstanceAs (Decidable (_ → _))
  | .request _ _ _ | .sendFails _ | .resume _ | .timeout _ | .cancel _ | .transportEnds
  | .close => .isTrue trivial

/-- A request, its response, and the end of the client. -/
def oneCall : List MCPEvent :=
  [.request "tools/list" none none, .sent 1,
    .receive (.obj [("jsonrpc", .str "2.0"), ("id", .int 1), ("result", .obj [])]),
    .resume 1, .close, .closeReturns]

theorem correct_oneCall : Correct (oneCall.foldl step {}) :=
  correct_of_sound oneCall (by decide) _ (foldl_mem_trail oneCall _)

/-- The server asks something of the client, under the number the client's request has. -/
def serverAsks : List MCPEvent :=
  [.request "tools/list" none none, .sent 1,
    .receive (.obj [("jsonrpc", .str "2.0"), ("id", .int 1), ("method", .str "ping")]),
    .resume 1]

theorem serverAsks_not_correct :
    ¬ ∀ es : List MCPEvent, ∀ c ∈ trail step {} es, Correct c := by
  intro h
  have hlast := h serverAsks _ (foldl_mem_trail serverAsks _)
  obtain ⟨message, hmem, fields, hfields, hmethod, -⟩ :=
    hlast.own 1 .null ⟨⟨none, .result .null, .returned .null⟩, rfl, rfl⟩
  have hreceived : (serverAsks.foldl step {}).received =
      [.obj [("jsonrpc", .str "2.0"), ("id", .int 1), ("method", .str "ping")]] := rfl
  rw [hreceived, List.mem_singleton] at hmem
  obtain rfl := Json.obj.inj (hmem.symm.trans hfields)
  exact absurd hmethod (by decide)

end MCPClient

end OxenClaw.Mcp
