import OxenClaw.Pi.SessionManagers
import OxenClaw.Pi.ToolPairs

/-!
# Forking a session

`fork_session` of `pi/lifecycle.py`, over either session manager. The fork has the messages up to an
index, inclusive. Where that one calls tools, their results are cut off (`forkSession_spec`).
-/

namespace OxenClaw

open Message

structure ForkOptions where
  untilIndex : Option ℤ := none
  title : Option String := none
  carryCompactions : Bool := true

/-- The last index that is kept. -/
def ForkOptions.last (opts : ForkOptions) (messages : List Message) : ℤ :=
  max (-1) (min (opts.untilIndex.getD (messages.length - 1)) (messages.length - 1))

/-- `title or f"fork of {src.title or src.id[:8]}"`. -/
def ForkOptions.titleOf (opts : ForkOptions) (src : AgentSession) : String :=
  match opts.title with
  | some (title) => if title = "" then forkTitle src else title
  | none => forkTitle src
where
  forkTitle (src : AgentSession) : String :=
    "fork of " ++ match src.title with
      | some title => if title = "" then String.ofList (src.id.toList.take 8) else title
      | none => String.ofList (src.id.toList.take 8)

/-- `{**metadata, "forked_from": .., "forked_at_index": ..}`. -/
def forkMetadata (src : AgentSession) (last : ℤ) : Args :=
  (Dict.set (Dict.set src.metadata "forked_from" (.str src.id)) "forked_at_index" (.int last))

/-- What the new session is created with. -/
def ForkOptions.create (opts : ForkOptions) (src : AgentSession) : CreateAgentSessionOptions where
  agentId := src.agentId
  modelId := src.modelId
  title := some (opts.titleOf src)
  metadata := some (forkMetadata src (opts.last src.messages))

/-- The new session with the messages and compactions of its source. -/
def ForkOptions.fill (opts : ForkOptions) (src new : AgentSession) : AgentSession :=
  { new with
    messages := src.messages.take (opts.last src.messages + 1).toNat
    compactions := if opts.carryCompactions then src.compactions else new.compactions }

variable {M : Type}

/-- `fork_session`. The new session is created with an id and times that are drawn. -/
def forkSession (step : World M → Operation → World M × Answer) (w : World M) (sourceId : String)
    (opts : ForkOptions) (newId : String) (createdAt updatedAt now : ℚ) :
    World M × Option AgentSession :=
  match step w (.get sourceId) with
  | (w, .session (some src)) =>
    match step w (.create (opts.create src) newId createdAt updatedAt) with
    | (w', .session (some _)) =>
      let saved := (step w' (.save w.held.length (opts.fill src) now)).1
      (saved, saved.object? w.held.length)
    | (w', _) => (w', none)
  | (w, _) => (w, none)

/-- The session that a manager has under an id. -/
def InMemorySessionManager.session? (w : World InMemorySessionManager) (id : String) :
    Option AgentSession :=
  (w.manager.get? id).bind (w.objects[·]?)

def SessionDb.session? (w : World SessionDb) (id : String) : Option AgentSession :=
  (w.manager.get id).join

/-- A fork of a well-paired session : its messages are the first ones of the source. Their results
have their calls, and the calls are answered, but for those of the last message. -/
structure ForkOf (src new : AgentSession) : Prop where
  front : new.messages <+: src.messages
  results : ResultsFollow new.messages
  answered : ∀ before m next after, new.messages = before ++ m :: next :: after → m.Calls →
    m.AnsweredBy next
  wellPaired : WellPaired new.messages ↔ ∀ m ∈ new.messages.getLast?, ¬m.Calls

/-! ## The new session and its source -/

theorem forkOf_take {src new : AgentSession} (hpaired : WellPaired src.messages)
    (hfollow : ResultsFollow src.messages) {k : ℕ} (hnew : new.messages = src.messages.take k) :
    ForkOf src new := by
  have hfront : new.messages <+: src.messages := hnew ▸ List.take_prefix _ _
  exact ⟨hfront, hfollow.of_prefix hfront,
    fun _ _ _ _ hm => answeredBy_of_prefix hpaired hfront hm, wellPaired_prefix_iff hpaired hfront⟩

variable {src : AgentSession} {sourceId newId : String}

theorem forkSession_inMemory {w : World InMemorySessionManager}
    (hsrc : InMemorySessionManager.session? w sourceId = some src)
    (hfresh : newId ∉ Dict.keys w.manager) (opts : ForkOptions) (createdAt updatedAt now : ℚ) :
    ∃ w' new, forkSession InMemorySessionManager.step w sourceId opts newId createdAt updatedAt now =
        (w', some new) ∧ new.messages = src.messages.take (opts.last src.messages + 1).toNat ∧
      InMemorySessionManager.session? w' sourceId = some src := by
  obtain ⟨r, hr, hobject⟩ := Option.bind_eq_some_iff.1 hsrc
  have hlt : r < w.objects.length := (List.getElem?_eq_some_iff.1 hobject).1
  have hne : sourceId ≠ newId := by
    rintro rfl
    exact hfresh (Dict.mem_keys_iff.2 ⟨r, hr⟩)
  -- The new session is a new object, which the caller holds behind the source.
  simp only [forkSession, InMemorySessionManager.step, hr, hobject, World.alloc, World.hold,
    World.object?, World.ref?, World.update]
  simp only [List.length_append, List.length_singleton, List.append_assoc, List.cons_append,
    List.nil_append, List.getElem?_append_right, Nat.le_add_right, Nat.add_sub_cancel_left,
    List.getElem?_cons_succ, List.getElem?_cons_zero, Option.join_some, Option.bind_some, le_refl,
    Nat.sub_self, List.set_append_right, List.set_cons_zero]
  refine ⟨_, _, rfl, rfl, ?_⟩
  have hmanager : ((w.manager.set newId w.objects.length).set newId w.objects.length).get?
      sourceId = some r := by
    rw [Dict.get?_set_of_ne hne, Dict.get?_set_of_ne hne, hr]
  refine Option.bind_eq_some_iff.2 ⟨r, hmanager, ?_⟩
  rw [List.getElem?_append_left hlt, hobject]

theorem forkSession_sqlite {w : World SessionDb}
    (hsrc : SessionDb.session? w sourceId = some src)
    (hfresh : newId ∉ Dict.keys w.manager.sessions) (opts : ForkOptions)
    (createdAt updatedAt now : ℚ) :
    ∃ w' new, forkSession SessionDb.step w sourceId opts newId createdAt updatedAt now =
        (w', some new) ∧ new.messages = src.messages.take (opts.last src.messages + 1).toNat ∧
      SessionDb.session? w' sourceId = some src := by
  have hget : w.manager.get sourceId = some (some src) := Option.join_eq_some_iff.1 hsrc
  have hne : sourceId ≠ newId := by
    rintro rfl
    rw [SessionDb.get_of_not_mem hfresh] at hget
    cases hget
  obtain ⟨db, hdb⟩ : ∃ db, w.manager.create
      ((opts.create src).session newId createdAt updatedAt) = some db := by
    exact ⟨_, if_neg hfresh⟩
  have hkept : db.get sourceId = some (some src) := by
    rw [SessionDb.get_create_of_ne hdb hne, hget]
  simp only [forkSession, SessionDb.step, hget, hdb, World.alloc, World.object?, World.ref?,
    World.update]
  simp only [List.length_append, List.length_singleton, List.append_assoc, List.cons_append,
    List.nil_append, List.getElem?_append_right, Nat.le_add_right, Nat.add_sub_cancel_left,
    List.getElem?_cons_succ, List.getElem?_cons_zero, Option.join_some, Option.bind_some,
    List.set_append_right, List.set_cons_succ, List.set_cons_zero]
  refine ⟨_, _, rfl, rfl, ?_⟩
  refine Option.join_eq_some_iff.2 ?_
  rw [SessionDb.get_save_of_ne _ _ _ hne, hkept]

/-- A fork of a well-paired session, with either manager : the source is as it was, and only the
calls of the last message that is kept may have lost their results. -/
theorem forkSession_spec (hpaired : WellPaired src.messages) (hfollow : ResultsFollow src.messages)
    (opts : ForkOptions) (createdAt updatedAt now : ℚ) :
    (∀ w : World InMemorySessionManager, InMemorySessionManager.session? w sourceId = some src →
      newId ∉ Dict.keys w.manager → ∃ w' new,
        forkSession InMemorySessionManager.step w sourceId opts newId createdAt updatedAt now =
          (w', some new) ∧ ForkOf src new ∧
        InMemorySessionManager.session? w' sourceId = some src) ∧
    (∀ w : World SessionDb, SessionDb.session? w sourceId = some src →
      newId ∉ Dict.keys w.manager.sessions → ∃ w' new,
        forkSession SessionDb.step w sourceId opts newId createdAt updatedAt now =
          (w', some new) ∧ ForkOf src new ∧ SessionDb.session? w' sourceId = some src) := by
  constructor
  · intro w hsrc hfresh
    obtain ⟨w', new, hfork, hnew, hkept⟩ :=
      forkSession_inMemory hsrc hfresh opts createdAt updatedAt now
    exact ⟨w', new, hfork, forkOf_take hpaired hfollow hnew, hkept⟩
  · intro w hsrc hfresh
    obtain ⟨w', new, hfork, hnew, hkept⟩ :=
      forkSession_sqlite hsrc hfresh opts createdAt updatedAt now
    exact ⟨w', new, hfork, forkOf_take hpaired hfollow hnew, hkept⟩

/-- A question that is answered with a tool. -/
def weatherSession : AgentSession where
  id := "s1"
  messages := [.user (.text "Is it hot?"), .assistant ⟨[.toolUse ⟨"t1", "weather", []⟩], none, none⟩,
    .toolResult [⟨"t1", .text "31 C", false⟩], .assistant ⟨[.text "Yes."], none, none⟩]
  createdAt := 1
  updatedAt := 1

def weatherWorld : World InMemorySessionManager where
  objects := [weatherSession]
  manager := [("s1", 0)]

/-- The fork at the result. -/
theorem forkSession_weather : ∃ w' new,
    forkSession InMemorySessionManager.step weatherWorld "s1" { untilIndex := some 2 } "s2" 2 2 3 =
      (w', some new) ∧ ForkOf weatherSession new ∧
    InMemorySessionManager.session? w' "s1" = some weatherSession :=
  (forkSession_spec (by decide) (by decide) { untilIndex := some 2 } 2 2 3).1 weatherWorld rfl
    (by decide)

/-- The fork at the call : it is not answered. -/
theorem forkSession_not_wellPaired :
    WellPaired weatherSession.messages ∧ ResultsFollow weatherSession.messages ∧
      (forkSession InMemorySessionManager.step weatherWorld "s1" { untilIndex := some 1 } "s2" 2 2
        3).2.map AgentSession.messages = some (weatherSession.messages.take 2) ∧
      ¬WellPaired (weatherSession.messages.take 2) :=
  ⟨by decide, by decide, rfl, by decide⟩

end OxenClaw
