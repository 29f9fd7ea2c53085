import OxenClaw.Lib.Dict
import OxenClaw.Lib.Runs
import OxenClaw.Lib.Trace

/-!
# Cancelling a prompt

`AcpServer` over `PiAgentAcpRuntime`. A `session/cancel` sets two flags : the `cancel_event` of the
server's session, which the next prompt clears, and `cancelled` of the runtime's session, which only
the turn that sees it clears. The server looks at its flag after every update it has sent, the
runtime at its own when a turn begins, when the agent has yielded and when it has ended. An event
is what a task does between two awaits.

A cancellation that the runtime does not see, since the server ended the turn on its own flag, the
turn was over, or none was in progress, stays set and ends the next prompt of the session. If no turn
begins with the flag set, none is cancelled from a session with the same key, and the agent is not
cancelled by itself, then only a cancellation after a prompt ends it (`justified_of_clean`).
-/

namespace OxenClaw.Acp

/-- What a prompt is answered : a stop reason, or an error. -/
inductive Answer where
  | stop
  | cancel
  | error
  deriving DecidableEq

/-- What the agent did before the runtime looks at its flag. -/
inductive AgentStep where
  /-- It yielded a text, blank or not. -/
  | text (blank : Bool)
  | ended
  deriving DecidableEq

/-- How far the prompt of a session has got. -/
inductive Turn where
  | idle
  /-- The runtime waits for the agent. -/
  | agent
  /-- The server sends an update. Tool events may be left, and a step of the agent. -/
  | sending (rest : Option (ℕ × AgentStep))
  /-- The response is being written. -/
  | answering (answer : Answer)
  deriving DecidableEq

/-- `_ServerSession`, with the key of its handle. -/
structure ServerSession where
  key : String
  cancelEvent : Bool := false
  turn : Turn := .idle
  deriving DecidableEq

/-- What passes between the client and the server. -/
inductive Wire where
  | prompt (sid : ℕ)
  | cancel (sid : ℕ)
  | response (sid : ℕ) (answer : Answer)
  deriving DecidableEq

/-- The server and the runtime. The sessions are numbered as they are minted, and `cancelled` has
the flag of each key of the runtime. -/
structure CancelState where
  sessionCounter : ℕ := 0
  sessions : Dict ℕ ServerSession := []
  cancelled : Dict String Bool := []
  wire : List Wire := []
  deriving DecidableEq

inductive CancelEvent where
  /-- `session/new`, with the key the client names or one that is minted. -/
  | newSession (key : String)
  | prompt (sid : ℕ)
  | cancel (sid : ℕ)
  /-- The agent yields or ends, after some tool events. -/
  | agentSteps (sid : ℕ) (tools : ℕ) (next : AgentStep)
  /-- `handle` raises. -/
  | agentRaises (sid : ℕ)
  /-- `handle` raises `CancelledError`. -/
  | agentCancelled (sid : ℕ)
  /-- An update has been sent. -/
  | sent (sid : ℕ)
  | sendFails (sid : ℕ)
  /-- The response has been written. -/
  | responded (sid : ℕ)
  deriving DecidableEq

namespace CancelState

variable (s : CancelState)

/-- `state.cancelled.is_set()`. -/
def isCancelled (key : String) : Bool :=
  (s.cancelled.get? key).getD false

def setSession (sid : ℕ) (sess : ServerSession) : CancelState :=
  { s with sessions := s.sessions.set sid sess }

/-- The runtime ends the turn of a session on its flag. -/
def endOnFlag (sid : ℕ) (sess : ServerSession) : CancelState :=
  { s.setSession sid { sess with turn := .answering .cancel } with
    cancelled := s.cancelled.set sess.key false }

/-- The runtime goes on after the tool events it has drained are yielded. -/
def afterTools (sid : ℕ) (sess : ServerSession) : ℕ → AgentStep → CancelState
  | tools + 1, next => s.setSession sid { sess with turn := .sending (some (tools, next)) }
  | 0, next =>
    if s.isCancelled sess.key then s.endOnFlag sid sess
    else
      s.setSession sid { sess with
        turn := match next with
          | .ended => .answering .stop
          | .text true => .agent
          | .text false => .sending none }

def log (ws : List Wire) : CancelState :=
  { s with wire := s.wire ++ ws }

/-- One event. A prompt is sent to a session when the last one has been answered. -/
def step : CancelEvent → CancelState
  | .newSession key =>
    { s.setSession (s.sessionCounter + 1) { key } with sessionCounter := s.sessionCounter + 1 }
  | .prompt sid =>
    match s.sessions.get? sid with
    | none => s.log [.prompt sid, .response sid .error]
    | some sess =>
      if sess.turn = .idle then
        let sess := { sess with cancelEvent := false }
        if s.isCancelled sess.key then (s.log [.prompt sid]).endOnFlag sid sess
        else (s.log [.prompt sid]).setSession sid { sess with turn := .agent }
      else s
  | .cancel sid =>
    match s.sessions.get? sid with
    | none => s.log [.cancel sid]
    | some sess =>
      { (s.log [.cancel sid]).setSession sid { sess with cancelEvent := true } with
        cancelled := s.cancelled.set sess.key true }
  | .agentSteps sid tools next =>
    match s.sessions.get? sid with
    | none => s
    | some sess => if sess.turn = .agent then s.afterTools sid sess tools next else s
  | .agentRaises sid =>
    match s.sessions.get? sid with
    | none => s
    | some sess =>
      if sess.turn = .agent then s.setSession sid { sess with turn := .answering .error } else s
  | .agentCancelled sid =>
    match s.sessions.get? sid with
    | none => s
    | some sess => if sess.turn = .agent then s.endOnFlag sid sess else s
  | .sent sid =>
    match s.sessions.get? sid with
    | none => s
    | some sess =>
      match sess.turn with
      | .sending rest =>
        if sess.cancelEvent then s.setSession sid { sess with turn := .answering .cancel }
        else
          match rest with
          | none => s.setSession sid { sess with turn := .agent }
          | some (tools, next) => s.afterTools sid sess tools next
      | _ => s
  | .sendFails sid =>
    match s.sessions.get? sid with
    | none => s
    | some sess =>
      match sess.turn with
      | .sending _ => s.setSession sid { sess with turn := .answering .error }
      | _ => s
  | .responded sid =>
    match s.sessions.get? sid with
    | none => s
    | some sess =>
      match sess.turn with
      | .answering answer =>
        (s.log [.response sid answer]).setSession sid { sess with turn := .idle }
      | _ => s

end CancelState

/-- A `session/cancel` has been received since the last prompt. -/
def CancelledSince (wire : List Wire) (sid : ℕ) : Prop :=
  ∃ before after, wire = before ++ .cancel sid :: after ∧ .prompt sid ∉ after

/-- A prompt is answered with `cancel` only after such a message. -/
def Permits (before : List Wire) (w : Wire) : Prop :=
  ∀ sid, w = .response sid .cancel → CancelledSince before sid

/-- A turn begins with the flag of the runtime cleared, no prompt is in progress in another session
with the key of one that is cancelled, and the agent is cancelled only after the client asked for
it. -/
def Clean (s : CancelState) : CancelEvent → Prop
  | .prompt sid => ∀ sess, s.sessions.get? sid = some sess → s.isCancelled sess.key = false
  | .cancel sid => ∀ sess, s.sessions.get? sid = some sess → ∀ sid' sess',
      s.sessions.get? sid' = some sess' → sid' ≠ sid → sess'.key = sess.key → sess'.turn = .idle
  | .agentCancelled sid => ∀ sess, s.sessions.get? sid = some sess → sess.cancelEvent = true
  | _ => True

/-! ## The flags -/

/-- A flag that is set while a prompt is in progress, and an answer, are due to a message received
since. -/
structure Due (s : CancelState) (sid : ℕ) (sess : ServerSession) : Prop where
  server : sess.cancelEvent = true → CancelledSince s.wire sid
  runtime : s.isCancelled sess.key = true → CancelledSince s.wire sid
  answer : sess.turn = .answering .cancel → CancelledSince s.wire sid

/-- What clean events keep. -/
structure Sound (s : CancelState) : Prop where
  wire : Justified Permits s.wire
  sessions : ∀ sid sess, s.sessions.get? sid = some sess → sess.turn ≠ .idle → Due s sid sess

theorem CancelledSince.append {wire ws : List Wire} {sid : ℕ} (h : CancelledSince wire sid)
    (hws : .prompt sid ∉ ws) : CancelledSince (wire ++ ws) sid := by
  obtain ⟨before, after, rfl, hafter⟩ := h
  refine ⟨before, after ++ ws, by rw [List.append_assoc, List.cons_append], ?_⟩
  exact fun hmem => (List.mem_append.1 hmem).elim hafter hws

theorem cancelledSince_append (wire : List Wire) (sid : ℕ) :
    CancelledSince (wire ++ [.cancel sid]) sid :=
  ⟨wire, [], rfl, List.not_mem_nil⟩

theorem isCancelled_of_set {s s' : CancelState} {key : String} {b : Bool}
    (h : s'.cancelled = s.cancelled.set key b) (key' : String) :
    s'.isCancelled key' = if key' = key then b else s.isCancelled key' := by
  unfold CancelState.isCancelled
  rw [h, Dict.get?_set]
  split_ifs <;> rfl

/-- A session is put in place where its flags are due. -/
theorem Sound.setSession {s : CancelState} (h : Sound s) {sid : ℕ} {sess : ServerSession}
    (hdue : sess.turn ≠ .idle → Due s sid sess) : Sound (s.setSession sid sess) := by
  refine ⟨h.wire, fun sid' sess' hget hturn => ?_⟩
  change Dict.get? (s.sessions.set sid sess) sid' = some sess' at hget
  have hsame (hdue : Due s sid' sess') : Due (s.setSession sid sess) sid' sess' :=
    ⟨hdue.server, hdue.runtime, hdue.answer⟩
  rw [Dict.get?_set] at hget
  split_ifs at hget with hsid
  · obtain rfl := Option.some.inj hget
    rw [hsid]
    rw [hsid] at hsame
    exact hsame (hdue hturn)
  · exact hsame (h.sessions sid' sess' hget hturn)

/-- A flag is cleared. -/
theorem Sound.clear {s : CancelState} (h : Sound s) (key : String) :
    Sound { s with cancelled := s.cancelled.set key false } := by
  refine ⟨h.wire, fun sid sess hget hturn => ?_⟩
  have hdue := h.sessions sid sess hget hturn
  refine ⟨hdue.server, fun hflag => hdue.runtime ?_, hdue.answer⟩
  rw [isCancelled_of_set (s := s) rfl] at hflag
  split_ifs at hflag
  exact hflag

/-- The runtime ends a turn on its flag. -/
theorem Sound.endOnFlag {s : CancelState} (h : Sound s) {sid : ℕ} {sess : ServerSession}
    (hdue : Due s sid sess) (hsince : CancelledSince s.wire sid) :
    Sound (s.endOnFlag sid sess) := by
  have hset : Sound (s.setSession sid { sess with turn := .answering .cancel }) :=
    h.setSession fun _ => ⟨hdue.server, hdue.runtime, fun _ => hsince⟩
  exact hset.clear sess.key

theorem Sound.afterTools {s : CancelState} (h : Sound s) {sid : ℕ} {sess : ServerSession}
    (hdue : Due s sid sess) (tools : ℕ) (next : AgentStep) :
    Sound (s.afterTools sid sess tools next) := by
  rcases tools with _ | tools
  · simp only [CancelState.afterTools]
    split_ifs with hflag
    · exact h.endOnFlag hdue (hdue.runtime hflag)
    · refine h.setSession fun _ => ⟨hdue.server, hdue.runtime, fun hanswer => ?_⟩
      rcases next with (_ | _) | _ <;> cases hanswer
  · exact h.setSession fun _ => ⟨hdue.server, hdue.runtime, by rintro ⟨⟩⟩

/-- Messages that are no prompts, and answers that are permitted. -/
theorem Sound.log {s : CancelState} (h : Sound s) {ws : List Wire}
    (hprompt : ∀ sid sess, s.sessions.get? sid = some sess → sess.turn ≠ .idle → .prompt sid ∉ ws)
    (hws : Justified (fun before w => Permits (s.wire ++ before) w) ws) : Sound (s.log ws) := by
  refine ⟨justified_append.2 ⟨h.wire, hws⟩, fun sid sess hget hturn => ?_⟩
  have hdue := h.sessions sid sess hget hturn
  have hnot := hprompt sid sess hget hturn
  exact ⟨fun h => (hdue.server h).append hnot, fun h => (hdue.runtime h).append hnot,
    fun h => (hdue.answer h).append hnot⟩

/-- Every clean event keeps that. -/
theorem sound_step {s : CancelState} {e : CancelEvent} (h : Sound s) (hclean : Clean s e) :
    Sound (s.step e) := by
  rcases e with key | sid | sid | ⟨sid, tools, next⟩ | sid | sid | sid | sid | sid
  case newSession =>
    have hset : Sound (s.setSession (s.sessionCounter + 1) { key }) :=
      h.setSession fun hturn => absurd rfl hturn
    exact ⟨hset.wire, fun sid sess hget hturn =>
      have hdue := hset.sessions sid sess hget hturn
      ⟨hdue.server, hdue.runtime, hdue.answer⟩⟩
  all_goals rcases hget : s.sessions.get? sid with _ | sess
  case prompt.none =>
    simp only [CancelState.step, hget]
    refine h.log (fun sid' sess hget' _ hmem => ?_) ?_
    · obtain rfl : sid' = sid := by simpa using hmem
      rw [hget] at hget'
      cases hget'
    · rw [justified_cons, justified_singleton]
      refine ⟨?_, ?_⟩ <;> rintro _ ⟨⟩
  case prompt.some =>
    have hflag : s.isCancelled sess.key = false := hclean sess hget
    simp only [CancelState.step, hget, hflag, Bool.false_eq_true, ↓reduceIte]
    split_ifs with hidle
    · have hlog : Sound (s.log [.prompt sid]) := by
        refine h.log (fun sid' sess' hget' hturn hmem => ?_) ?_
        · obtain rfl : sid' = sid := by simpa using hmem
          rw [hget] at hget'
          exact hturn (Option.some.inj hget' ▸ hidle)
        · rw [justified_singleton]
          rintro _ ⟨⟩
      refine hlog.setSession fun _ => ⟨by rintro ⟨⟩, fun hset => ?_, by rintro ⟨⟩⟩
      exact absurd (hflag.symm.trans hset) Bool.false_ne_true
    · exact h
  case cancel.none =>
    simp only [CancelState.step, hget]
    refine h.log (fun _ _ _ _ hmem => by simp at hmem) ?_
    rw [justified_singleton]
    exact fun sid' h => by cases h
  case cancel.some =>
    simp only [CancelState.step, hget]
    have hlog : Sound (s.log [.cancel sid]) := by
      refine h.log (fun _ _ _ _ hmem => by simp at hmem) ?_
      rw [justified_singleton]
      rintro _ ⟨⟩
    have hsince : CancelledSince (s.log [.cancel sid]).wire sid := cancelledSince_append s.wire sid
    have hset : Sound ((s.log [.cancel sid]).setSession sid { sess with cancelEvent := true }) :=
      hlog.setSession fun _ => ⟨fun _ => hsince, fun _ => hsince, fun _ => hsince⟩
    refine ⟨hset.wire, fun sid' sess' hget' hturn => ?_⟩
    by_cases hsid : sid' = sid
    · rw [hsid]
      exact ⟨fun _ => hsince, fun _ => hsince, fun _ => hsince⟩
    · have hdue := hset.sessions sid' sess' hget' hturn
      refine ⟨hdue.server, fun hflag => hdue.runtime ?_, hdue.answer⟩
      change Dict.get? (s.sessions.set sid _) sid' = some sess' at hget'
      rw [Dict.get?_set_of_ne hsid] at hget'
      rw [isCancelled_of_set (s := s) rfl, if_neg] at hflag
      · exact hflag
      · exact fun hkey => hturn (hclean sess hget sid' sess' hget' hsid hkey)
  case agentSteps.some =>
    simp only [CancelState.step, hget]
    split_ifs with hturn
    · exact h.afterTools (h.sessions sid sess hget (by rw [hturn]; rintro ⟨⟩)) tools next
    · exact h
  case agentRaises.some =>
    simp only [CancelState.step, hget]
    split_ifs with hturn
    · have hdue := h.sessions sid sess hget (by rw [hturn]; rintro ⟨⟩)
      exact h.setSession fun _ => ⟨hdue.server, hdue.runtime, by rintro ⟨⟩⟩
    · exact h
  case agentCancelled.some =>
    simp only [CancelState.step, hget]
    split_ifs with hturn
    · have hdue := h.sessions sid sess hget (by rw [hturn]; rintro ⟨⟩)
      exact h.endOnFlag hdue (hdue.server (hclean sess hget))
    · exact h
  case sent.some =>
    simp only [CancelState.step, hget]
    rcases hturn : sess.turn with _ | _ | rest | _
    case sending =>
      have hdue := h.sessions sid sess hget (by rw [hturn]; rintro ⟨⟩)
      simp only
      split_ifs with hflag
      · exact h.setSession fun _ => ⟨hdue.server, hdue.runtime, fun _ => hdue.server hflag⟩
      · rcases rest with _ | ⟨tools, next⟩
        · exact h.setSession fun _ => ⟨hdue.server, hdue.runtime, by rintro ⟨⟩⟩
        · exact h.afterTools hdue tools next
    all_goals exact h
  case sendFails.some =>
    simp only [CancelState.step, hget]
    rcases hturn : sess.turn with _ | _ | rest | _
    case sending =>
      have hdue := h.sessions sid sess hget (by rw [hturn]; rintro ⟨⟩)
      exact h.setSession fun _ => ⟨hdue.server, hdue.runtime, by rintro ⟨⟩⟩
    all_goals exact h
  case responded.some =>
    simp only [CancelState.step, hget]
    rcases hturn : sess.turn with _ | _ | _ | answer
    case answering =>
      have hdue := h.sessions sid sess hget (by rw [hturn]; rintro ⟨⟩)
      have hlog : Sound (s.log [.response sid answer]) := by
        refine h.log (fun _ _ _ _ hmem => by simp at hmem) ?_
        rw [justified_singleton]
        rintro sid' ⟨⟩
        rw [List.append_nil]
        exact hdue.answer hturn
      exact hlog.setSession fun hidle => absurd rfl hidle
    all_goals exact h
  all_goals
    simp only [CancelState.step, hget]
    exact h

/-- In a run of clean events a prompt is answered with `cancel` only if a cancellation for its session
has been received since. -/
theorem justified_of_clean (es : List CancelEvent) (hclean : EachStep CancelState.step Clean {} es) :
    ∀ s ∈ trail CancelState.step {} es, Justified Permits s.wire := by
  have hsound : ∀ s ∈ trail CancelState.step {} es, Sound s := by
    refine hclean.forall_mem_trail (fun s e => sound_step) ⟨justified_nil, ?_⟩
    rintro sid sess ⟨⟩
  exact fun s hs => (hsound s hs).wire

/-- A prompt that is cancelled after its second update. -/
theorem justified_cancelled_prompt :
    Justified Permits (([.newSession "k", .prompt 1, .agentSteps 1 1 (.text false), .sent 1,
      .cancel 1, .sent 1, .responded 1] : List CancelEvent).foldl CancelState.step {}).wire :=
  justified_of_clean _ (by
    refine ⟨trivial, ?_, trivial, trivial, ?_, trivial, trivial, trivial⟩
    · rintro sess ⟨⟩
      rfl
    · rintro sess ⟨⟩ sid' sess' hget hne
      have hkeys : sid' ∈ [1] := Dict.mem_keys_iff.2 ⟨sess', hget⟩
      exact absurd (List.mem_singleton.1 hkeys) hne) _ (foldl_mem_trail _ _)

/-- A prompt is cancelled, and the server ends the turn on its own flag. The next prompt is answered
with `cancel` though nobody has cancelled it. -/
theorem staleFlag_not_justified :
    ¬∀ s ∈ trail CancelState.step {} [.newSession "k", .prompt 1, .agentSteps 1 0 (.text false),
        .cancel 1, .sent 1, .responded 1, .prompt 1, .responded 1], Justified Permits s.wire := by
  intro h
  have hlast := h _ (foldl_mem_trail _ _)
  have hwire : (List.foldl CancelState.step {} [.newSession "k", .prompt 1,
      .agentSteps 1 0 (.text false), .cancel 1, .sent 1, .responded 1, .prompt 1,
      .responded 1]).wire = [.prompt 1, .cancel 1, .response 1 .cancel, .prompt 1,
      .response 1 .cancel] := by decide
  rw [hwire] at hlast
  obtain ⟨before, after, hsplit, hafter⟩ := hlast 4 _ rfl 1 rfl
  rcases before with _ | ⟨w₁, _ | ⟨w₂, _ | ⟨w₃, _ | ⟨w₄, before⟩⟩⟩⟩ <;> simp at hsplit
  obtain ⟨-, rfl⟩ := hsplit
  simp at hafter

end OxenClaw.Acp
