import Mathlib.Tactic.Linarith
import OxenClaw.Canvas.Store

/-!
# Canvas events

Agents present and hide canvases, and what they do is published to the dashboards, each of which
has a queue of its own that may be full. An eval is published with a request id, and waits for the
result that a dashboard sends back, until it times out or is cancelled.

Whatever the order, an agent that the store knows looks to one who has read all events as it does to
the store; a dashboard reads events in the order they were published, and all of them while its
queue has had room; and each eval takes the first result that reaches it, which no other eval takes
(`run_published`).
-/

namespace OxenClaw.Canvas

variable {V : Type*}

/-- The `kind` of an event with its payload. -/
inductive Push where
  | present (html title : String) (version : ℕ)
  | hide
  | navigate (url : String)
  | eval (expression requestId : String)

/-- `CanvasEvent`. -/
structure CanvasEvent where
  agentId : String
  push : Push

/-- A subscriber's queue, what it has taken out of it, and how many events had been published when
it came. -/
structure Subscriber where
  queue : List CanvasEvent := []
  taken : List CanvasEvent := []
  since : ℕ

/-- What a dashboard sends back for an eval. -/
inductive Reply (V : Type*) where
  | value (v : V)
  | error (message : String)

/-- What the future of an eval is resolved with. -/
inductive Outcome (V : Type*) where
  | answered (reply : Reply V)
  | timedOut
  | cancelled

/-- A call of `canvas.eval` that waits, or has waited. -/
structure EvalCall (V : Type*) where
  requestId : String
  outcome : Option (Outcome V) := none

/-- A call of `canvas.eval_result`, and the eval that took it. -/
structure EvalResult (V : Type*) where
  requestId : String
  reply : Reply V
  taker : Option ℕ

/-- The store and the bus, with all events, evals and results so far. A waiter is the number of its
eval. -/
structure CanvasBus (V : Type*) where
  store : CanvasStore
  queueSize : ℤ := 64
  subs : Dict ℕ Subscriber := []
  subscribed : ℕ := 0
  waiters : Dict String ℕ := []
  published : List CanvasEvent := []
  evals : List (EvalCall V) := []
  results : List (EvalResult V) := []

inductive BusEvent (V : Type*) where
  /-- `canvas.present`, or the tool with a cap of its own. -/
  | present (cap : ℕ) (agentId html title : String) (now : ℚ)
  | hide (agentId : String) (now : ℚ)
  | navigate (agentId url : String)
  | getState (agentId : String)
  | eval (agentId expression requestId : String)
  | evalResult (requestId : String) (reply : Reply V)
  /-- The wait of an eval is over. -/
  | timeout (n : ℕ)
  /-- The task of an eval is cancelled. -/
  | cancel (n : ℕ)
  | subscribe
  | unsubscribe (k : ℕ)
  /-- A subscriber takes the next event. -/
  | take (k : ℕ)

/-- `put_nowait`, which drops the event where the queue is full. -/
def Subscriber.offer (queueSize : ℤ) (event : CanvasEvent) (sub : Subscriber) : Subscriber :=
  if 0 < queueSize ∧ queueSize ≤ sub.queue.length then sub
  else { sub with queue := sub.queue ++ [event] }

def Subscriber.take (sub : Subscriber) : Subscriber :=
  match sub.queue with
  | [] => sub
  | event :: queue => { sub with queue, taken := sub.taken ++ [event] }

/-- The future of an eval is resolved. -/
def settle (evals : List (EvalCall V)) (n : ℕ) (outcome : Outcome V) : List (EvalCall V) :=
  evals.modify n fun call => { call with outcome := some outcome }

/-- `not fut.done()`. -/
def pending (evals : List (EvalCall V)) (n : ℕ) : Bool :=
  evals[n]?.any fun call => call.outcome.isNone

namespace CanvasBus

/-- `publish`. -/
def publish (s : CanvasBus V) (event : CanvasEvent) : CanvasBus V :=
  { s with
    subs := s.subs.map fun e => (e.1, e.2.offer s.queueSize event)
    published := s.published ++ [event] }

/-- `canvas.present` : a page that is too large is refused. -/
def present (s : CanvasBus V) (cap : ℕ) (agentId html title : String) (now : ℚ) : CanvasBus V :=
  if cap < html.utf8ByteSize then s
  else
    let shown := s.store.present agentId html title now
    { s with store := shown.1 }.publish ⟨agentId, .present html title shown.2.version⟩

/-- `canvas.hide`. -/
def hide (s : CanvasBus V) (agentId : String) (now : ℚ) : CanvasBus V :=
  { s with store := (s.store.hide agentId now).1 }.publish ⟨agentId, .hide⟩

/-- `canvas.navigate`, where `_is_dashboard_only_url` is a parameter. -/
def navigate (isDashboardOnlyUrl : String → Bool) (s : CanvasBus V) (agentId url : String) :
    CanvasBus V :=
  if isDashboardOnlyUrl url then s.publish ⟨agentId, .navigate url⟩ else s

/-- `register_eval_waiter`. -/
def registerEvalWaiter (s : CanvasBus V) (requestId : String) : CanvasBus V :=
  { s with
    waiters := s.waiters.set requestId s.evals.length
    evals := s.evals ++ [⟨requestId, none⟩] }

/-- `canvas.eval` up to its wait : it is refused where nothing is shown. -/
def eval (s : CanvasBus V) (agentId expression requestId : String) : CanvasBus V :=
  let read := s.store.get agentId
  let s := { s with store := read.1 }
  if read.2.all (·.hidden) then s
  else (s.registerEvalWaiter requestId).publish ⟨agentId, .eval expression requestId⟩

/-- `canvas.eval_result`, by `resolve_eval` or `reject_eval`. -/
def evalResult (s : CanvasBus V) (requestId : String) (reply : Reply V) : CanvasBus V :=
  match s.waiters.get? requestId with
  | none => { s with results := s.results ++ [⟨requestId, reply, none⟩] }
  | some n =>
    if pending s.evals n then
      { s with
        waiters := s.waiters.erase requestId
        evals := settle s.evals n (.answered reply)
        results := s.results ++ [⟨requestId, reply, some n⟩] }
    else
      { s with
        waiters := s.waiters.erase requestId
        results := s.results ++ [⟨requestId, reply, none⟩] }

/-- `reject_eval` with the error of a timeout. -/
def rejectTimeout (s : CanvasBus V) (requestId : String) : CanvasBus V :=
  match s.waiters.get? requestId with
  | none => s
  | some n =>
    { s with
      waiters := s.waiters.erase requestId
      evals := if pending s.evals n then settle s.evals n .timedOut else s.evals }

/-- The wait of an eval is over : its future is cancelled, and its waiter is taken out. -/
def timeout (s : CanvasBus V) (n : ℕ) : CanvasBus V :=
  match s.evals[n]? with
  | some call =>
    if pending s.evals n then
      { s with evals := settle s.evals n .timedOut }.rejectTimeout call.requestId
    else s
  | none => s

/-- One event. -/
def step (isDashboardOnlyUrl : String → Bool) (s : CanvasBus V) : BusEvent V → CanvasBus V
  | .present cap agentId html title now => s.present cap agentId html title now
  | .hide agentId now => s.hide agentId now
  | .navigate agentId url => s.navigate isDashboardOnlyUrl agentId url
  | .getState agentId => { s with store := (s.store.get agentId).1 }
  | .eval agentId expression requestId => s.eval agentId expression requestId
  | .evalResult requestId reply => s.evalResult requestId reply
  | .timeout n => s.timeout n
  | .cancel n =>
    if pending s.evals n then { s with evals := settle s.evals n .cancelled } else s
  | .subscribe =>
    { s with
      subs := s.subs.set s.subscribed { since := s.published.length }
      subscribed := s.subscribed + 1 }
  | .unsubscribe k => { s with subs := s.subs.erase k }
  | .take k =>
    match s.subs.get? k with
    | some sub => { s with subs := s.subs.set k sub.take }
    | none => s

def run (isDashboardOnlyUrl : String → Bool) (capacity : ℕ) (hpos : 0 < capacity)
    (queueSize : ℤ) (events : List (BusEvent V)) : CanvasBus V :=
  events.foldl (step isDashboardOnlyUrl) { store := .empty capacity hpos, queueSize }

end CanvasBus

/-! ## What the events show -/

/-- What a dashboard shows of an agent. -/
structure View where
  html : String
  title : String
  version : ℕ
  hidden : Bool

def View.next (agentId : String) (view : Option View) (event : CanvasEvent) : Option View :=
  if event.agentId = agentId then
    match event.push with
    | .present html title version => some ⟨html, title, version, false⟩
    | .hide => view.map fun v => { v with hidden := true }
    | .navigate _ => view
    | .eval _ _ => view
  else view

/-- What a dashboard shows of an agent after some events. -/
def viewOf (agentId : String) (events : List CanvasEvent) : Option View :=
  events.foldl (View.next agentId) none

def CanvasState.view (state : CanvasState) : View :=
  ⟨state.html, state.title, state.version, state.hidden⟩

/-- What the store knows is what the events show. -/
def Shows (c : CanvasStore) (events : List CanvasEvent) : Prop :=
  ∀ agentId state, c.states.get? agentId = some state → viewOf agentId events = some state.view

theorem viewOf_snoc (agentId : String) (events : List CanvasEvent) (event : CanvasEvent) :
    viewOf agentId (events ++ [event]) = View.next agentId (viewOf agentId events) event := by
  rw [viewOf, List.foldl_append]
  rfl

variable {c : CanvasStore} {events : List CanvasEvent} {agentId : String}

/-- An event that shows no other page. -/
theorem Shows.snoc (h : Shows c events) {event : CanvasEvent}
    (hview : ∀ agentId view, View.next agentId view event = view) :
    Shows c (events ++ [event]) := by
  intro agentId state hget
  rw [viewOf_snoc, hview]
  exact h agentId state hget

/-- A call about another agent, with an event about that agent. -/
theorem Shows.of_ne (h : Shows c events) (hok : c.Ok) (call : CanvasStore.Call) {push : Push}
    {other : String} {state : CanvasState} (hkey : call.op.key = agentId) (hne : agentId ≠ other)
    (hget : (c.step call).states.get? other = some state) :
    viewOf other (events ++ [⟨agentId, push⟩]) = some state.view := by
  rw [viewOf_snoc, View.next, if_neg hne]
  exact h other state (CanvasStore.get?_of_step hok (hkey.trans_ne hne) hget)

theorem Shows.present (h : Shows c events) (hok : c.Ok) (agentId html title : String) (now : ℚ) :
    Shows (c.present agentId html title now).1
      (events ++ [⟨agentId, .present html title (c.nextVersion agentId)⟩]) := by
  intro other state hget
  by_cases hother : agentId = other
  · rw [← hother, CanvasStore.get?_present] at hget
    obtain rfl := Option.some.inj hget
    rw [viewOf_snoc, View.next, if_pos hother]
    rfl
  · exact h.of_ne hok (.present agentId html title now) rfl hother hget

theorem Shows.hide (h : Shows c events) (hok : c.Ok) (agentId : String) (now : ℚ) :
    Shows (c.hide agentId now).1 (events ++ [⟨agentId, .hide⟩]) := by
  intro other state hget
  by_cases hother : agentId = other
  · rw [viewOf_snoc, View.next, if_pos hother]
    rw [CanvasStore.hide] at hget
    rcases hbefore : c.states.get? agentId with _ | before
    · rw [hbefore, ← hother] at hget
      cases hbefore.symm.trans hget
    · rw [hbefore] at hget
      dsimp only at hget
      rw [CanvasStore.moveToEnd_set, ← hother] at hget
      rcases CanvasStore.get?_erase_append hget with ⟨-, hstate⟩ | ⟨hne, -⟩
      · rw [← hother, h agentId before hbefore, ← hstate]
        rfl
      · exact absurd rfl hne
  · exact h.of_ne hok (.hide agentId now) rfl hother hget

/-- Looking at an agent shows nothing new. -/
theorem Shows.get (h : Shows c events) (agentId : String) :
    Shows (c.get agentId).1 events := by
  intro other state hget
  rw [CanvasStore.get] at hget
  rcases hbefore : c.states.get? agentId with _ | before
  · rw [hbefore] at hget
    exact h other state hget
  · rw [hbefore] at hget
    dsimp only at hget
    rw [← CanvasStore.set_self_of_get? hbefore, CanvasStore.moveToEnd_set] at hget
    rcases CanvasStore.get?_erase_append hget with ⟨rfl, rfl⟩ | ⟨-, hother⟩
    · exact h agentId before hbefore
    · exact h other state hother

/-! ## What a subscriber hears -/

/-- A subscriber has what was published since it came, in order and each event once, all of it
while its queue could not be full. -/
structure Heard (queueSize : ℤ) (published : List CanvasEvent) (sub : Subscriber) : Prop where
  since_le : sub.since ≤ published.length
  sublist : (sub.taken ++ sub.queue).Sublist (published.drop sub.since)
  room : 0 < queueSize → sub.queue.length ≤ queueSize
  all : queueSize ≤ 0 ∨ published.length ≤ sub.since + queueSize →
    sub.taken ++ sub.queue = published.drop sub.since

variable {queueSize : ℤ} {published : List CanvasEvent} {sub : Subscriber}

theorem Heard.offer (h : Heard queueSize published sub) (event : CanvasEvent) :
    Heard queueSize (published ++ [event]) (sub.offer queueSize event) := by
  have hdrop : (published ++ [event]).drop sub.since = published.drop sub.since ++ [event] :=
    List.drop_append_of_le_length h.since_le
  have hsince : sub.since ≤ (published ++ [event]).length := by
    rw [List.length_append]
    exact h.since_le.trans (Nat.le_add_right _ _)
  rw [Subscriber.offer]
  split_ifs with hfull
  · refine ⟨hsince, ?_, h.room, fun hfew => ?_⟩
    · rw [hdrop]
      exact h.sublist.trans (List.sublist_append_left _ _)
    · -- a full queue is as long as there are events, so there is no room for one more
      rw [List.length_append, List.length_singleton] at hfew
      have hbefore := h.all (hfew.imp_right fun hle => by omega)
      have hlength := congrArg List.length hbefore
      rw [List.length_append, List.length_drop] at hlength
      have hpos := hfull.1
      have hlong := hfull.2
      omega
  · have happend : sub.taken ++ (sub.queue ++ [event]) = sub.taken ++ sub.queue ++ [event] :=
      (List.append_assoc _ _ _).symm
    refine ⟨hsince, ?_, fun hpos => ?_, fun hfew => ?_⟩
    · change (sub.taken ++ (sub.queue ++ [event])).Sublist ((published ++ [event]).drop sub.since)
      rw [happend, hdrop]
      exact h.sublist.append (List.Sublist.refl _)
    · have hshort := not_and.1 hfull hpos
      rw [List.length_append, List.length_singleton]
      omega
    · change sub.taken ++ (sub.queue ++ [event]) = (published ++ [event]).drop sub.since
      rw [List.length_append, List.length_singleton] at hfew
      have hbefore := hfew.imp_right fun (hle : _ ≤ (sub.since : ℤ) + queueSize) =>
        (by omega : (published.length : ℤ) ≤ sub.since + queueSize)
      rw [happend, hdrop, h.all hbefore]

theorem Heard.take (h : Heard queueSize published sub) : Heard queueSize published sub.take := by
  rcases hqueue : sub.queue with _ | ⟨event, queue⟩
  · rw [Subscriber.take, hqueue]
    exact h
  · have hsame : sub.take.taken ++ sub.take.queue = sub.taken ++ sub.queue := by
      rw [Subscriber.take, hqueue, List.append_assoc]
      rfl
    have hsince : sub.take.since = sub.since := by
      rw [Subscriber.take, hqueue]
    have hlength : sub.take.queue.length ≤ sub.queue.length := by
      rw [Subscriber.take, hqueue]
      exact Nat.le_succ _
    refine ⟨?_, ?_, fun hpos => ?_, ?_⟩
    · rw [hsince]
      exact h.since_le
    · rw [hsame, hsince]
      exact h.sublist
    · exact (Int.ofNat_le.2 hlength).trans (h.room hpos)
    · rw [hsame, hsince]
      exact h.all

theorem Heard.subscribe (queueSize : ℤ) (published : List CanvasEvent) :
    Heard queueSize published { since := published.length } where
  since_le := Nat.le_refl _
  sublist := List.nil_sublist _
  room hpos := hpos.le
  all _ := (List.drop_length).symm

/-! ## Who takes a result -/

variable {evals : List (EvalCall V)} {n m : ℕ} {outcome : Outcome V} {call : EvalCall V}

theorem pending_iff : pending evals n = true ↔
    ∃ call, evals[n]? = some call ∧ call.outcome = none := by
  rw [pending]
  rcases evals[n]? with _ | call
  · simp
  · simp

theorem getElem?_settle_self (h : evals[n]? = some call) :
    (settle evals n outcome)[n]? = some { call with outcome := some outcome } := by
  rw [settle, List.getElem?_modify, h]
  simp

theorem getElem?_settle_of_ne (h : n ≠ m) : (settle evals n outcome)[m]? = evals[m]? := by
  rw [settle, List.getElem?_modify]
  simp [h]

theorem requestId_settle (evals : List (EvalCall V)) (n : ℕ) (outcome : Outcome V) :
    (settle evals n outcome).map EvalCall.requestId = evals.map EvalCall.requestId := by
  refine List.ext_getElem? fun m => ?_
  rw [settle, List.getElem?_map, List.getElem?_map, List.getElem?_modify]
  split_ifs
  · rcases evals[m]? with _ | call
    · rfl
    · rfl
  · rcases evals[m]? with _ | call
    · rfl
    · rfl

/-- A call after a call is settled is another, or that one. -/
theorem eq_of_getElem?_settle (h : (settle evals n outcome)[m]? = some call) :
    evals[m]? = some call ∧ n ≠ m ∨
      n = m ∧ ∃ before, evals[m]? = some before ∧
        call = { before with outcome := some outcome } := by
  by_cases hnm : n = m
  · rw [← hnm] at h
    rcases hbefore : evals[n]? with _ | before
    · rw [settle, List.getElem?_modify, hbefore] at h
      cases h
    · rw [getElem?_settle_self hbefore] at h
      exact Or.inr ⟨hnm, before, hnm ▸ hbefore, (Option.some.inj h).symm⟩
  · rw [getElem?_settle_of_ne hnm] at h
    exact Or.inl ⟨h, hnm⟩

/-- An eval and the result that it took are about one request, no result is taken twice, and an eval
that waits can be reached where its request id is its own. -/
structure Taken (waiters : Dict String ℕ) (evals : List (EvalCall V))
    (results : List (EvalResult V)) : Prop where
  waiting : ∀ requestId n, waiters.get? requestId = some n →
    ∃ call, evals[n]? = some call ∧ call.requestId = requestId
  answered : ∀ n call reply, evals[n]? = some call → call.outcome = some (.answered reply) →
    ⟨call.requestId, reply, some n⟩ ∈ results
  taken : ∀ result ∈ results, ∀ n, result.taker = some n → ∃ call, evals[n]? = some call ∧
    call.requestId = result.requestId ∧ call.outcome = some (.answered result.reply)
  once : (results.filterMap EvalResult.taker).Nodup
  reachable : (evals.map EvalCall.requestId).Nodup → ∀ n call, evals[n]? = some call →
    call.outcome = none → waiters.get? call.requestId = some n

variable {waiters : Dict String ℕ} {results : List (EvalResult V)}

theorem Taken.register (h : Taken waiters evals results) (requestId : String) :
    Taken (waiters.set requestId evals.length) (evals ++ [⟨requestId, none⟩]) results where
  waiting requestId' n hget := by
    rw [Dict.get?_set] at hget
    split_ifs at hget with heq
    · obtain rfl := Option.some.inj hget
      exact ⟨⟨requestId, none⟩, List.getElem?_concat_length, heq.symm⟩
    · obtain ⟨call, hcall, hid⟩ := h.waiting requestId' n hget
      have hlt := (List.getElem?_eq_some_iff.1 hcall).1
      exact ⟨call, (List.getElem?_append_left hlt).trans hcall, hid⟩
  answered n call reply hcall houtcome := by
    rcases Nat.lt_or_ge n evals.length with hlt | hge
    · rw [List.getElem?_append_left hlt] at hcall
      exact h.answered n call reply hcall houtcome
    · rw [List.getElem?_append_right hge] at hcall
      obtain rfl := List.mem_singleton.1 (List.mem_of_getElem? hcall)
      cases houtcome
  taken result hresult n htaker := by
    obtain ⟨call, hcall, hid, houtcome⟩ := h.taken result hresult n htaker
    have hlt := (List.getElem?_eq_some_iff.1 hcall).1
    exact ⟨call, (List.getElem?_append_left hlt).trans hcall, hid, houtcome⟩
  once := h.once
  reachable hnodup n call hcall houtcome := by
    rw [List.map_append, List.nodup_append'] at hnodup
    obtain ⟨hbefore, -, hnew⟩ := hnodup
    rcases Nat.lt_or_ge n evals.length with hlt | hge
    · rw [List.getElem?_append_left hlt] at hcall
      have hne : call.requestId ≠ requestId := fun heq =>
        hnew (List.mem_map_of_mem (List.mem_of_getElem? hcall)) (List.mem_singleton.2 heq)
      rw [Dict.get?_set_of_ne hne]
      exact h.reachable hbefore n call hcall houtcome
    · rw [List.getElem?_append_right hge] at hcall
      obtain rfl := List.mem_singleton.1 (List.mem_of_getElem? hcall)
      have hn : n = evals.length := by
        have hlt := (List.getElem?_eq_some_iff.1 hcall).1
        rw [List.length_singleton] at hlt
        omega
      rw [Dict.get?_set_self, hn]

/-- A call that waits is settled, and if it is answered the result is written down. -/
theorem Taken.settle (h : Taken waiters evals results) (hpending : pending evals n = true)
    {results' : List (EvalResult V)}
    (hold : ∀ result ∈ results, result ∈ results')
    (hnew : ∀ call reply, evals[n]? = some call → outcome = .answered reply →
      ⟨call.requestId, reply, some n⟩ ∈ results')
    (htaken : ∀ result ∈ results', result ∈ results ∨ ∃ call, evals[n]? = some call ∧
      result.requestId = call.requestId ∧ result.taker = some n ∧ outcome = .answered result.reply)
    (honce : (results'.filterMap EvalResult.taker).Nodup) :
    Taken waiters (settle evals n outcome) results' := by
  obtain ⟨before, hbefore, hnone⟩ := pending_iff.1 hpending
  refine ⟨fun requestId m hget => ?_, fun m call reply hcall houtcome => ?_,
    fun result hresult m htaker => ?_, honce, fun hnodup m call hcall houtcome => ?_⟩
  · obtain ⟨call, hcall, hid⟩ := h.waiting requestId m hget
    by_cases hnm : n = m
    · refine ⟨{ before with outcome := some outcome }, hnm ▸ getElem?_settle_self hbefore, ?_⟩
      rw [← hnm, hbefore] at hcall
      rw [Option.some.inj hcall]
      exact hid
    · exact ⟨call, (getElem?_settle_of_ne hnm).trans hcall, hid⟩
  · rcases eq_of_getElem?_settle hcall with ⟨hother, -⟩ | ⟨rfl, before', hbefore', rfl⟩
    · exact hold _ (h.answered m call reply hother houtcome)
    · exact hnew before' reply hbefore' (Option.some.inj houtcome)
  · rcases htaken result hresult with hmem | ⟨call, hcall, hid, htaker', houtcome⟩
    · obtain ⟨call, hcall, hid, houtcome⟩ := h.taken result hmem m htaker
      have hnm : n ≠ m := by
        rintro rfl
        rw [hbefore] at hcall
        rw [← Option.some.inj hcall, hnone] at houtcome
        cases houtcome
      exact ⟨call, (getElem?_settle_of_ne hnm).trans hcall, hid, houtcome⟩
    · obtain rfl := Option.some.inj (htaker'.symm.trans htaker)
      exact ⟨_, getElem?_settle_self hcall, hid.symm, congrArg some houtcome⟩
  · rw [requestId_settle] at hnodup
    rcases eq_of_getElem?_settle hcall with ⟨hother, -⟩ | ⟨rfl, before', -, rfl⟩
    · exact h.reachable hnodup m call hother houtcome
    · cases houtcome

/-- A waiter whose eval does not wait any more is taken out. -/
theorem Taken.pop (h : Taken waiters evals results) {requestId : String}
    (hget : waiters.get? requestId = some n) (hpending : pending evals n = false) :
    Taken (waiters.erase requestId) evals results := by
  refine { h with
    waiting := fun requestId' m hget' => h.waiting requestId' m (Dict.get?_of_get?_erase hget').2
    reachable := fun hnodup m call hcall houtcome => ?_ }
  have hbefore := h.reachable hnodup m call hcall houtcome
  have hne : call.requestId ≠ requestId := by
    rintro rfl
    obtain rfl := Option.some.inj (hbefore.symm.trans hget)
    exact Bool.false_ne_true (hpending.symm.trans (pending_iff.2 ⟨call, hcall, houtcome⟩))
  rw [Dict.get?_erase_of_ne hne]
  exact hbefore

/-- A result that no eval takes. -/
theorem Taken.miss (h : Taken waiters evals results) (requestId : String) (reply : Reply V) :
    Taken waiters evals (results ++ [⟨requestId, reply, none⟩]) where
  waiting := h.waiting
  answered n call reply' hcall houtcome :=
    List.mem_append_left _ (h.answered n call reply' hcall houtcome)
  taken result hresult n htaker := by
    rcases List.mem_append.1 hresult with hmem | hmem
    · exact h.taken result hmem n htaker
    · obtain rfl := List.mem_singleton.1 hmem
      cases htaker
  once := by
    rw [List.filterMap_append]
    simpa using h.once
  reachable := h.reachable

/-! ## Every event -/

namespace CanvasBus

structure Ok (s : CanvasBus V) : Prop where
  store : s.store.Ok
  shows : Shows s.store s.published
  heard : ∀ k sub, s.subs.get? k = some sub → Heard s.queueSize s.published sub
  taken : Taken s.waiters s.evals s.results

variable {s : CanvasBus V}

/-- An event is published, the store and the evals being what they are by then. -/
theorem Ok.publish (h : s.Ok) {store : CanvasStore} {waiters : Dict String ℕ}
    {evals : List (EvalCall V)} {event : CanvasEvent} (hstore : store.Ok)
    (hshows : Shows store (s.published ++ [event])) (htaken : Taken waiters evals s.results) :
    ({ s with store, waiters, evals }.publish event).Ok where
  store := hstore
  shows := hshows
  heard k sub hget := by
    change Dict.get? (s.subs.map fun e => (e.1, e.2.offer s.queueSize event)) k = some sub at hget
    rw [Dict.get?_map (fun _ (sub : Subscriber) => sub.offer s.queueSize event)] at hget
    obtain ⟨before, hbefore, rfl⟩ := Option.map_eq_some_iff.1 hget
    exact (h.heard k before hbefore).offer event
  taken := htaken

theorem Ok.present (h : s.Ok) (cap : ℕ) (agentId html title : String) (now : ℚ) :
    (s.present cap agentId html title now).Ok := by
  rw [CanvasBus.present]
  split_ifs
  · exact h
  · exact h.publish (h.store.step (.present agentId html title now))
      (h.shows.present h.store agentId html title now) h.taken

theorem Ok.hide (h : s.Ok) (agentId : String) (now : ℚ) : (s.hide agentId now).Ok :=
  h.publish (h.store.step (.hide agentId now)) (h.shows.hide h.store agentId now) h.taken

theorem Ok.navigate (h : s.Ok) (isDashboardOnlyUrl : String → Bool) (agentId url : String) :
    (s.navigate isDashboardOnlyUrl agentId url).Ok := by
  rw [CanvasBus.navigate]
  split_ifs
  · refine h.publish h.store (h.shows.snoc fun other view => ?_) h.taken
    rw [View.next]
    split_ifs
    · rfl
    · rfl
  · exact h

/-- Looking at the canvas of an agent. -/
theorem Ok.get (h : s.Ok) (agentId : String) : Ok { s with store := (s.store.get agentId).1 } where
  store := h.store.step (.get agentId)
  shows := h.shows.get agentId
  heard := h.heard
  taken := h.taken

theorem Ok.eval (h : s.Ok) (agentId expression requestId : String) :
    (s.eval agentId expression requestId).Ok := by
  have hget := h.get agentId
  rw [CanvasBus.eval]
  split_ifs
  · exact hget
  · refine hget.publish hget.store (hget.shows.snoc fun other view => ?_)
      (hget.taken.register requestId)
    rw [View.next]
    split_ifs
    · rfl
    · rfl

theorem Ok.evalResult (h : s.Ok) (requestId : String) (reply : Reply V) :
    (s.evalResult requestId reply).Ok := by
  rcases hget : s.waiters.get? requestId with _ | n
  · simp only [CanvasBus.evalResult, hget]
    exact { h with taken := h.taken.miss requestId reply }
  · rcases hpending : pending s.evals n with _ | _
    · simp only [CanvasBus.evalResult, hget, hpending]
      exact { h with taken := (h.taken.pop hget hpending).miss requestId reply }
    · simp only [CanvasBus.evalResult, hget, hpending]
      obtain ⟨call, hcall, hid⟩ := h.taken.waiting requestId n hget
      have hsettled : Taken s.waiters (settle s.evals n (.answered reply))
          (s.results ++ [⟨requestId, reply, some n⟩]) := by
        refine h.taken.settle hpending (fun result hresult => List.mem_append_left _ hresult)
          (fun call' reply' hcall' houtcome => ?_) (fun result hresult => ?_) ?_
        · obtain rfl := Option.some.inj (hcall.symm.trans hcall')
          cases houtcome
          exact List.mem_append_right _ (List.mem_singleton.2 (by rw [hid]))
        · rcases List.mem_append.1 hresult with hmem | hmem
          · exact Or.inl hmem
          · obtain rfl := List.mem_singleton.1 hmem
            exact Or.inr ⟨call, hcall, hid.symm, rfl, rfl⟩
        · rw [List.filterMap_append]
          refine List.nodup_append'.2 ⟨h.taken.once, List.nodup_singleton n, fun m hm hn => ?_⟩
          obtain rfl := List.mem_singleton.1 hn
          obtain ⟨result, hresult, htaker⟩ := List.mem_filterMap.1 hm
          obtain ⟨call', hcall', -, houtcome⟩ := h.taken.taken result hresult m htaker
          obtain ⟨before, hbefore, hnone⟩ := pending_iff.1 hpending
          obtain rfl := Option.some.inj (hbefore.symm.trans hcall')
          cases hnone.symm.trans houtcome
      have hdone : pending (settle s.evals n (.answered reply)) n = false := by
        rw [pending, getElem?_settle_self hcall]
        rfl
      exact { h with taken := hsettled.pop hget hdone }

/-- An eval that waits ends without a result. -/
theorem Ok.settle (h : s.Ok) {n : ℕ} (outcome : Outcome V) (hpending : pending s.evals n = true)
    (hunanswered : ∀ reply, outcome ≠ .answered reply) :
    Ok { s with evals := Canvas.settle s.evals n outcome } where
  store := h.store
  shows := h.shows
  heard := h.heard
  taken := h.taken.settle hpending (fun _ hresult => hresult)
    (fun _ reply _ houtcome => absurd houtcome (hunanswered reply))
    (fun _ hresult => Or.inl hresult) h.taken.once

theorem Ok.rejectTimeout (h : s.Ok) (requestId : String) : (s.rejectTimeout requestId).Ok := by
  rcases hget : s.waiters.get? requestId with _ | n
  · simp only [CanvasBus.rejectTimeout, hget]
    exact h
  · rcases hpending : pending s.evals n with _ | _
    · simp only [CanvasBus.rejectTimeout, hget, hpending]
      exact { h with taken := h.taken.pop hget hpending }
    · simp only [CanvasBus.rejectTimeout, hget, hpending]
      have hsettled := h.settle .timedOut hpending fun _ houtcome => by cases houtcome
      obtain ⟨call, hcall, -⟩ := h.taken.waiting requestId n hget
      have hdone : pending (Canvas.settle s.evals n .timedOut) n = false := by
        rw [pending, getElem?_settle_self hcall]
        rfl
      exact { hsettled with taken := hsettled.taken.pop hget hdone }

theorem Ok.timeout (h : s.Ok) (n : ℕ) : (s.timeout n).Ok := by
  rw [CanvasBus.timeout]
  split
  · split_ifs with hpending
    · exact (h.settle .timedOut hpending fun _ houtcome => by cases houtcome).rejectTimeout _
    · exact h
  · exact h

theorem Ok.step (h : s.Ok) (isDashboardOnlyUrl : String → Bool) (event : BusEvent V) :
    (s.step isDashboardOnlyUrl event).Ok := by
  rcases event with ⟨cap, agentId, html, title, now⟩ | ⟨agentId, now⟩ | ⟨agentId, url⟩ | agentId |
    ⟨agentId, expression, requestId⟩ | ⟨requestId, reply⟩ | n | n | _ | k | k
  · exact h.present cap agentId html title now
  · exact h.hide agentId now
  · exact h.navigate isDashboardOnlyUrl agentId url
  · exact h.get agentId
  · exact h.eval agentId expression requestId
  · exact h.evalResult requestId reply
  · exact h.timeout n
  · rw [CanvasBus.step]
    split_ifs with hpending
    · exact h.settle .cancelled hpending fun _ houtcome => by cases houtcome
    · exact h
  · refine { h with heard := fun k sub hget => ?_ }
    change Dict.get? (s.subs.set s.subscribed { since := s.published.length }) k = some sub at hget
    rw [Dict.get?_set] at hget
    split_ifs at hget
    · rw [← Option.some.inj hget]
      exact Heard.subscribe s.queueSize s.published
    · exact h.heard k sub hget
  · exact { h with heard := fun k' sub hget => h.heard k' sub (Dict.get?_of_get?_erase hget).2 }
  · rw [CanvasBus.step]
    rcases hsub : s.subs.get? k with _ | sub
    · exact h
    · refine { h with heard := fun k' sub' hget => ?_ }
      change Dict.get? (s.subs.set k sub.take) k' = some sub' at hget
      rw [Dict.get?_set] at hget
      split_ifs at hget
      · rw [← Option.some.inj hget]
        exact (h.heard k sub hsub).take
      · exact h.heard k' sub' hget

variable (isDashboardOnlyUrl : String → Bool)

/-- The bound of the queues stays. -/
theorem queueSize_step (s : CanvasBus V) (event : BusEvent V) :
    (s.step isDashboardOnlyUrl event).queueSize = s.queueSize := by
  have hreject (s : CanvasBus V) (requestId : String) :
      (s.rejectTimeout requestId).queueSize = s.queueSize := by
    rw [CanvasBus.rejectTimeout]
    split <;> rfl
  rcases event with ⟨cap, agentId, html, title, now⟩ | ⟨agentId, now⟩ | ⟨agentId, url⟩ | agentId |
    ⟨agentId, expression, requestId⟩ | ⟨requestId, reply⟩ | n | n | _ | k | k
  · rw [CanvasBus.step, CanvasBus.present]
    split_ifs <;> rfl
  · rfl
  · rw [CanvasBus.step, CanvasBus.navigate]
    split_ifs <;> rfl
  · rfl
  · rw [CanvasBus.step, CanvasBus.eval]
    split_ifs <;> rfl
  · rw [CanvasBus.step, CanvasBus.evalResult]
    split
    · rfl
    · split_ifs <;> rfl
  · rw [CanvasBus.step, CanvasBus.timeout]
    split
    · split_ifs
      · exact hreject _ _
      · rfl
    · rfl
  · rw [CanvasBus.step]
    split_ifs <;> rfl
  · rfl
  · rfl
  · rw [CanvasBus.step]
    split <;> rfl

theorem ok_run (capacity : ℕ) (hpos : 0 < capacity) (queueSize : ℤ) (events : List (BusEvent V)) :
    Ok (run isDashboardOnlyUrl capacity hpos queueSize events) ∧
      (run isDashboardOnlyUrl capacity hpos queueSize events).queueSize = queueSize := by
  have htaken : Taken ([] : Dict String ℕ) ([] : List (EvalCall V)) [] :=
    ⟨fun _ _ hget => (by cases hget), fun _ _ _ hcall => (by cases hcall),
      fun _ hresult => absurd hresult List.not_mem_nil, List.nodup_nil,
      fun _ _ _ hcall => (by cases hcall)⟩
  have hempty : Ok ({ store := .empty capacity hpos, queueSize } : CanvasBus V) :=
    ⟨(CanvasStore.ok_run hpos []).1, fun _ _ hget => (by cases hget),
      fun _ _ hget => (by cases hget), htaken⟩
  have hstep : ∀ (s : CanvasBus V) (event : BusEvent V), s.Ok ∧ s.queueSize = queueSize →
      (s.step isDashboardOnlyUrl event).Ok ∧
        (s.step isDashboardOnlyUrl event).queueSize = queueSize := by
    rintro s event ⟨hok, hsize⟩
    exact ⟨hok.step isDashboardOnlyUrl event,
      (queueSize_step isDashboardOnlyUrl s event).trans hsize⟩
  exact foldl_invariant hstep ⟨hempty, rfl⟩ events

/-- Whatever is presented, hidden, evaluated and answered, an agent that the store knows looks to
who reads all events as it does to the store; a subscriber has been given the events since it came
in their order, none twice, and all of them while there were not more than its queue has room for;
an eval and the result that it took are about one request, and no two evals took one result; and an
eval that waits is the one that a result for its request reaches, if request ids are not used
twice. -/
theorem run_published (capacity : ℕ) (hpos : 0 < capacity) (queueSize : ℤ)
    (events : List (BusEvent V)) :
    let s := run isDashboardOnlyUrl capacity hpos queueSize events
    (∀ agentId state, s.store.states.get? agentId = some state →
      viewOf agentId s.published = some state.view) ∧
    (∀ k sub, s.subs.get? k = some sub → Heard queueSize s.published sub) ∧
    (∀ n call reply, s.evals[n]? = some call → call.outcome = some (.answered reply) →
      ⟨call.requestId, reply, some n⟩ ∈ s.results) ∧
    (∀ result ∈ s.results, ∀ n, result.taker = some n → ∃ call, s.evals[n]? = some call ∧
      call.requestId = result.requestId ∧ call.outcome = some (.answered result.reply)) ∧
    (s.results.filterMap EvalResult.taker).Nodup ∧
    ((s.evals.map EvalCall.requestId).Nodup → ∀ n call, s.evals[n]? = some call →
      call.outcome = none → s.waiters.get? call.requestId = some n) := by
  obtain ⟨hok, hsize⟩ := ok_run isDashboardOnlyUrl capacity hpos queueSize events
  refine ⟨hok.shows, fun k sub hget => ?_, hok.taken.answered, hok.taken.taken, hok.taken.once,
    hok.taken.reachable⟩
  have hheard := hok.heard k sub hget
  rwa [hsize] at hheard

/-- A page that was hidden is hidden to who reads the events. -/
theorem run_published_hidden :
    viewOf "a" (run (V := ℕ) (fun _ => false) 1 Nat.one_pos 64
      [.present 9 "a" "p" "" 0, .hide "a" 1]).published = some ⟨"p", "", 1, true⟩ :=
  (run_published (V := ℕ) (fun _ => false) 1 Nat.one_pos 64
    [.present 9 "a" "p" "" 0, .hide "a" 1]).1 "a" ⟨"p", "", 1, 1, true⟩ (by decide)

end CanvasBus

end OxenClaw.Canvas
