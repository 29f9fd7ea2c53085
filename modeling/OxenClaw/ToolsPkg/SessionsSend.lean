import OxenClaw.Lib.Runs
import OxenClaw.Pi.Persistence

/-!
# Messages sent into a session with a turn under way

A turn of `PiAgent` (`agents/pi_agent.py`) loads its session, runs, and saves the transcript it has
then, compacted or not. `sessions_send` (`tools_pkg/session_tools.py`) loads the session, appends a
message, saves, and reports it. On `SQLiteSessionManager` each loads a copy of its own, and a save
replaces the whole transcript.

A run is a list of these loads and saves in any order. Beside the store it keeps which send each
stored message is of. Every message that was reported stays in the transcript exactly if nothing is
saved that was loaded before a report, or compacted over a reported message (`kept_iff`).
-/

namespace OxenClaw.SessionsSend

/-- A message of a transcript, and the send that appended it. -/
abbrev Entry := Message × Option ℕ

/-- Who holds a copy of the session. -/
inductive Writer where
  | turn (id : ℕ)
  | send (id : ℕ)
  deriving DecidableEq

/-- A copy of the session, and how many messages had been reported when it was loaded. -/
structure Copy where
  session : AgentSession
  log : List Entry
  seen : ℕ

structure State where
  db : SessionDb
  /-- The stored transcript. -/
  log : List Entry
  copies : Dict Writer Copy := []
  /-- The messages that `sessions_send` reported as appended. -/
  reported : List (ℕ × String) := []

/-- A compaction : what stands in for the first `count` messages. -/
structure Compacted where
  count : ℕ
  summary : Message
  entry : CompactionRecord

inductive Event where
  /-- `_ensure_session` finds the session, and the turn appends the user's message. -/
  | turnLoad (id : ℕ) (user : Message)
  /-- The turn appends what the run produced, may compact, and saves. -/
  | turnSave (id : ℕ) (appended : List Message) (compacted : Option Compacted) (now : ℚ)
  | sendLoad (id : ℕ)
  | sendSave (id : ℕ) (text : String) (now : ℚ)

/-- The message of a send. -/
def sent (r : ℕ × String) : Entry :=
  (.user (.text r.2), some r.1)

def compact {α : Type} (compacted : Option Compacted) (stand : Message → α) (xs : List α) :
    List α :=
  match compacted with
  | some c => stand c.summary :: xs.drop c.count
  | none => xs

namespace State

/-- `sm.get(sid)`, with `own` appended. -/
def load (sid : String) (w : Writer) (own : List Message) (s : State) : State :=
  match s.db.get sid with
  | some (some session) =>
    { s with copies := s.copies.set w {
        session := { session with messages := session.messages ++ own }
        log := s.log ++ own.map (·, none)
        seen := s.reported.length } }
  | _ => s

/-- `sm.save(session)`. -/
def save (w : Writer) (session : AgentSession) (log : List Entry) (now : ℚ) (s : State) : State :=
  { s with db := s.db.save session now, log := log, copies := s.copies.erase w }

def step (sid : String) (s : State) : Event → State
  | .turnLoad id user => s.load sid (.turn id) [user]
  | .turnSave id appended compacted now =>
    match s.copies.get? (.turn id) with
    | some c =>
      s.save (.turn id)
        { c.session with
          messages := compact compacted (·) (c.session.messages ++ appended)
          compactions := c.session.compactions ++ (compacted.map Compacted.entry).toList }
        (compact compacted (·, none) (c.log ++ appended.map (·, none))) now
    | none => s
  | .sendLoad id => if id ∈ s.reported.map Prod.fst then s else s.load sid (.send id) []
  | .sendSave id text now =>
    match s.copies.get? (.send id) with
    | some c =>
      { s.save (.send id)
          { c.session with messages := c.session.messages ++ [.user (.text text)] }
          (c.log ++ [sent (id, text)]) now with
        reported := s.reported ++ [(id, text)] }
    | none => s

/-- A session as it is stored before any of the runs. -/
def Initial (sid : String) (s : State) : Prop :=
  (∃ session, s.db.get sid = some (some session) ∧ s.log = session.messages.map (·, none)) ∧
    s.copies = [] ∧ s.reported = []

/-- Every message that was reported is in the stored transcript. -/
def Kept (sid : String) (s : State) : Prop :=
  ∃ session, s.db.get sid = some (some session) ∧ session.messages = s.log.map Prod.fst ∧
    ∀ r ∈ s.reported, sent r ∈ s.log

/-- What is saved was loaded after the last report, and no message of a send is compacted. -/
def Fresh (s : State) : Event → Prop
  | .turnSave id _ compacted _ => ∀ c, s.copies.get? (.turn id) = some c →
      c.seen = s.reported.length ∧ ∀ k, compacted = some k → ∀ e ∈ c.log.take k.count, e.2 = none
  | .sendSave id _ _ => ∀ c, s.copies.get? (.send id) = some c → c.seen = s.reported.length
  | _ => True

end State

/-! ## The messages of sends -/

/-- The sends that a transcript has messages of. -/
def ids (log : List Entry) : List ℕ :=
  log.filterMap Prod.snd

theorem ids_append (a b : List Entry) : ids (a ++ b) = ids a ++ ids b :=
  List.filterMap_append

theorem ids_map_none (messages : List Message) : ids (messages.map (·, none)) = [] := by
  rw [ids, List.filterMap_map]
  exact List.filterMap_eq_nil_iff.2 fun _ _ => rfl

theorem mem_ids_of_sent {r : ℕ × String} {log : List Entry} (h : sent r ∈ log) : r.1 ∈ ids log :=
  List.mem_filterMap.2 ⟨_, h, rfl⟩

/-- What a compaction leaves. -/
def remaining (compacted : Option Compacted) (log : List Entry) : List Entry :=
  match compacted with
  | some k => log.drop k.count
  | none => log

theorem remaining_sublist (compacted : Option Compacted) (log : List Entry) :
    (remaining compacted log).Sublist log := by
  cases compacted with
  | none => exact List.Sublist.refl log
  | some k => exact List.drop_sublist k.count log

/-- What a turn saves of its copy. -/
theorem ids_compact (compacted : Option Compacted) (log : List Entry) (appended : List Message) :
    ids (compact compacted (·, none) (log ++ appended.map (·, none)))
      = ids (remaining compacted log) := by
  cases compacted with
  | none =>
    rw [compact, remaining, ids_append, ids_map_none, List.append_nil]
  | some k =>
    have hhead : ids ((k.summary, none) :: (log ++ appended.map (·, none)).drop k.count)
        = ids ((log ++ appended.map (·, none)).drop k.count) := rfl
    rw [compact, remaining, hhead, List.drop_append, ← List.map_drop, ids_append, ids_map_none,
      List.append_nil]

theorem map_compact (compacted : Option Compacted) (log : List Entry) (appended : List Message) :
    (compact compacted (·, none) (log ++ appended.map (·, none))).map Prod.fst
      = compact compacted (·) (log.map Prod.fst ++ appended) := by
  cases compacted with
  | none => simp [compact, Function.comp_def]
  | some k => simp [compact, Function.comp_def, List.map_drop]

/-! ## What a run keeps -/

/-- A copy has no message that was reported after it was loaded, and every one reported before. -/
structure Copy.Ok (sid : String) (reported : List (ℕ × String)) (c : Copy) : Prop where
  id_eq : c.session.id = sid
  messages : c.session.messages = c.log.map Prod.fst
  nodup : (ids c.log).Nodup
  seen_le : c.seen ≤ reported.length
  origins : ids c.log ⊆ (reported.take c.seen).map Prod.fst
  complete : ∀ r ∈ reported.take c.seen, sent r ∈ c.log

theorem Copy.Ok.report {sid : String} {reported : List (ℕ × String)} {c : Copy}
    (h : c.Ok sid reported) (r : ℕ × String) : c.Ok sid (reported ++ [r]) := by
  have htake : (reported ++ [r]).take c.seen = reported.take c.seen :=
    List.take_append_of_le_length h.seen_le
  refine ⟨h.id_eq, h.messages, h.nodup, ?_, ?_, ?_⟩
  · rw [List.length_append]
    exact h.seen_le.trans (Nat.le_add_right _ _)
  · rw [htake]
    exact h.origins
  · rw [htake]
    exact h.complete

namespace State

/-- Sends report once, and what is stored or copied is of sends that reported. -/
structure Ok (sid : String) (s : State) : Prop where
  nodup : (ids s.log).Nodup
  reported : (s.reported.map Prod.fst).Nodup
  origins : ids s.log ⊆ s.reported.map Prod.fst
  copies : ∀ w c, s.copies.get? w = some c → c.Ok sid s.reported
  sends : ∀ id c, s.copies.get? (.send id) = some c → id ∉ s.reported.map Prod.fst

variable {sid : String} {s : State}

theorem Initial.ok (h : s.Initial sid) : s.Ok sid := by
  obtain ⟨⟨session, -, hlog⟩, hcopies, hreported⟩ := h
  have hids : ids s.log = [] := by rw [hlog, ids_map_none]
  refine ⟨?_, ?_, ?_, ?_, ?_⟩
  · rw [hids]
    exact List.nodup_nil
  · rw [hreported]
    exact List.nodup_nil
  · rw [hids]
    exact List.nil_subset _
  · intro w c hc
    rw [hcopies] at hc
    cases hc
  · intro id c hc
    rw [hcopies] at hc
    cases hc

theorem Initial.kept (h : s.Initial sid) : s.Kept sid := by
  obtain ⟨⟨session, hget, hlog⟩, -, hreported⟩ := h
  refine ⟨session, hget, ?_, ?_⟩
  · simp [hlog, Function.comp_def]
  · rw [hreported]
    exact fun r hr => absurd hr List.not_mem_nil

theorem Ok.load (h : s.Ok sid) (hk : s.Kept sid) {w : Writer} (own : List Message)
    (hw : ∀ id, w = .send id → id ∉ s.reported.map Prod.fst) : (s.load sid w own).Ok sid := by
  obtain ⟨session, hget, hmessages, hreported⟩ := hk
  have hid := SessionDb.id_of_get hget
  rw [State.load, hget]
  have hids : ids (s.log ++ own.map (·, none)) = ids s.log := by
    rw [ids_append, ids_map_none, List.append_nil]
  refine ⟨h.nodup, h.reported, h.origins, fun w' c hc => ?_, fun id c hc => ?_⟩
  · rw [Dict.get?_set] at hc
    split_ifs at hc
    · cases hc
      refine ⟨hid, ?_, ?_, le_rfl, ?_, ?_⟩
      · simp [hmessages, Function.comp_def]
      · rw [hids]
        exact h.nodup
      · rw [hids, List.take_length]
        exact h.origins
      · rw [List.take_length]
        exact fun r hr => List.mem_append_left _ (hreported r hr)
    · exact h.copies w' c hc
  · rw [Dict.get?_set] at hc
    split_ifs at hc with heq
    · exact hw id heq.symm
    · exact h.sends id c hc

theorem kept_load (h : s.Kept sid) (w : Writer) (own : List Message) :
    (s.load sid w own).Kept sid := by
  obtain ⟨session, hget, hkept⟩ := h
  rw [State.load, hget]
  exact ⟨session, hget, hkept⟩

/-- What a save stores, and what was reported by then. -/
theorem kept_save_iff {c : Copy} (hc : c.Ok sid s.reported) (w : Writer) (session : AgentSession)
    (log : List Entry) (now : ℚ) (reported : List (ℕ × String)) (hid : session.id = c.session.id)
    (hmessages : session.messages = log.map Prod.fst) :
    Kept sid { s.save w session log now with reported := reported } ↔
      ∀ r ∈ reported, sent r ∈ log := by
  have hget := SessionDb.get_save s.db session now
  rw [hid, hc.id_eq] at hget
  constructor
  · rintro ⟨-, -, -, hkept⟩
    exact hkept
  · exact fun hkept => ⟨_, hget, hmessages, hkept⟩

theorem Ok.save (h : s.Ok sid) {c : Copy} {w : Writer} {session : AgentSession}
    {log : List Entry} {now : ℚ} (hc : c.Ok sid s.reported) (hlog : (ids log).Sublist (ids c.log)) :
    (s.save w session log now).Ok sid where
  nodup := hc.nodup.sublist hlog
  reported := h.reported
  origins := fun id hid => by
    obtain ⟨r, hr, rfl⟩ := List.mem_map.1 (hc.origins (hlog.subset hid))
    exact List.mem_map.2 ⟨r, List.mem_of_mem_take hr, rfl⟩
  copies := fun w' c' hc' => h.copies w' c' (Dict.get?_of_get?_erase hc').2
  sends := fun id c' hc' => h.sends id c' (Dict.get?_of_get?_erase hc').2

theorem step_turnSave {id : ℕ} {c : Copy} (hc : s.copies.get? (.turn id) = some c)
    (appended : List Message) (compacted : Option Compacted) (now : ℚ) :
    s.step sid (.turnSave id appended compacted now) = s.save (.turn id)
      { c.session with
        messages := compact compacted (·) (c.session.messages ++ appended)
        compactions := c.session.compactions ++ (compacted.map Compacted.entry).toList }
      (compact compacted (·, none) (c.log ++ appended.map (·, none))) now := by
  rw [State.step, hc]

theorem step_sendSave {id : ℕ} {c : Copy} (hc : s.copies.get? (.send id) = some c) (text : String)
    (now : ℚ) : s.step sid (.sendSave id text now) = { s.save (.send id)
      { c.session with messages := c.session.messages ++ [.user (.text text)] }
      (c.log ++ [sent (id, text)]) now with reported := s.reported ++ [(id, text)] } := by
  rw [State.step, hc]

theorem Ok.step (h : s.Ok sid) (hk : s.Kept sid) (e : Event) : (s.step sid e).Ok sid := by
  cases e with
  | turnLoad id user => exact h.load hk [user] fun _ heq => nomatch heq
  | turnSave id appended compacted now =>
    cases hc : s.copies.get? (.turn id) with
    | none =>
      rw [State.step, hc]
      exact h
    | some c =>
      rw [step_turnSave hc]
      refine h.save (h.copies _ c hc) ?_
      rw [ids_compact]
      exact (remaining_sublist compacted c.log).filterMap _
  | sendLoad id =>
    rw [State.step]
    split_ifs with hid
    · exact h
    · refine h.load hk [] fun id' heq => ?_
      cases heq
      exact hid
  | sendSave id text now =>
    cases hc : s.copies.get? (.send id) with
    | none =>
      rw [State.step, hc]
      exact h
    | some c =>
      rw [step_sendSave hc]
      have hok := h.copies _ c hc
      have hnew := h.sends id c hc
      have hids : ids (c.log ++ [sent (id, text)]) = ids c.log ++ [id] := ids_append _ _
      have hold : ids c.log ⊆ s.reported.map Prod.fst := fun j hj => by
        obtain ⟨r, hr, rfl⟩ := List.mem_map.1 (hok.origins hj)
        exact List.mem_map.2 ⟨r, List.mem_of_mem_take hr, rfl⟩
      refine ⟨?_, ?_, ?_, fun w c' hc' => ?_, fun id' c' hc' => ?_⟩
      · show (ids (c.log ++ [sent (id, text)])).Nodup
        rw [hids, ← List.concat_eq_append]
        exact hok.nodup.concat fun hmem => hnew (hold hmem)
      · rw [List.map_append, List.map_singleton, ← List.concat_eq_append]
        exact h.reported.concat hnew
      · show ids (c.log ++ [sent (id, text)]) ⊆ _
        rw [hids, List.map_append]
        exact List.append_subset.2 ⟨fun j hj => List.mem_append_left _ (hold hj),
          fun j hj => List.mem_append_right _ hj⟩
      · exact (h.copies w c' (Dict.get?_of_get?_erase hc').2).report (id, text)
      · obtain ⟨hne, hc'⟩ := Dict.get?_of_get?_erase hc'
        rw [List.map_append, List.mem_append, List.map_singleton, List.mem_singleton, not_or]
        exact ⟨h.sends id' c' hc', fun heq => hne (congrArg Writer.send heq)⟩

/-- A copy that has every message reported is one that was loaded after the last report. -/
theorem Ok.seen_eq_of_reported (h : s.Ok sid) {c : Copy} (hc : c.Ok sid s.reported)
    (hall : ∀ r ∈ s.reported, r.1 ∈ ids c.log) : c.seen = s.reported.length := by
  by_contra hne
  have hlt : c.seen < s.reported.length := lt_of_le_of_ne hc.seen_le hne
  have hmem := hc.origins (hall _ (List.getElem_mem hlt))
  have hsplit := h.reported
  rw [← List.take_append_drop c.seen s.reported, List.map_append] at hsplit
  have hdrop : s.reported[c.seen].1 ∈ (s.reported.drop c.seen).map Prod.fst :=
    List.mem_map.2 ⟨_, List.mem_drop_iff_getElem.2 ⟨0, by simpa using hlt, by simp⟩, rfl⟩
  exact (List.nodup_append'.1 hsplit).2.2 hmem hdrop

/-- A save keeps what was reported exactly if it is fresh. -/
theorem Ok.kept_step_iff (h : s.Ok sid) (hk : s.Kept sid) (e : Event) :
    (s.step sid e).Kept sid ↔ s.Fresh e := by
  cases e with
  | turnLoad id user => exact iff_of_true (kept_load hk _ _) trivial
  | sendLoad id =>
    refine iff_of_true ?_ trivial
    rw [State.step]
    split_ifs
    · exact hk
    · exact kept_load hk _ _
  | sendSave id text now =>
    rw [State.Fresh]
    cases hc : s.copies.get? (.send id) with
    | none =>
      rw [State.step, hc]
      exact iff_of_true hk fun c hc' => nomatch hc'
    | some c =>
      have hok := h.copies _ c hc
      have hmessages : c.session.messages ++ [Message.user (.text text)]
          = (c.log ++ [sent (id, text)]).map Prod.fst := by
        rw [hok.messages, List.map_append]
        rfl
      rw [step_sendSave hc]
      refine (kept_save_iff hok _ _ _ _ _ (by rfl) (by exact hmessages)).trans ?_
      simp only [Option.some.injEq, forall_eq']
      constructor
      · intro hall
        refine h.seen_eq_of_reported hok fun r hr => ?_
        have hmem := mem_ids_of_sent (hall r (List.mem_append_left _ hr))
        rw [ids_append, List.mem_append] at hmem
        refine hmem.resolve_right fun hin => ?_
        have heq : r.1 = id := by simpa [ids, sent] using hin
        exact h.sends id c hc (heq ▸ List.mem_map_of_mem hr)
      · intro hseen r hr
        rcases List.mem_append.1 hr with hr | hr
        · exact List.mem_append_left _ (hok.complete r (by rwa [hseen, List.take_length]))
        · rw [List.mem_singleton.1 hr]
          exact List.mem_append_right _ (List.mem_singleton_self _)
  | turnSave id appended compacted now =>
    rw [State.Fresh]
    cases hc : s.copies.get? (.turn id) with
    | none =>
      rw [State.step, hc]
      exact iff_of_true hk fun c hc' => nomatch hc'
    | some c =>
      have hok := h.copies _ c hc
      have hmessages : compact compacted (·) (c.session.messages ++ appended)
          = (compact compacted (·, none) (c.log ++ appended.map (·, none))).map Prod.fst := by
        rw [hok.messages, map_compact]
      rw [step_turnSave hc]
      refine (kept_save_iff hok _ _ _ _ _ (by rfl) (by exact hmessages)).trans ?_
      simp only [Option.some.injEq, forall_eq']
      constructor
      · intro hall
        have hids : ∀ r ∈ s.reported, r.1 ∈ ids (remaining compacted c.log) := fun r hr => by
          rw [← ids_compact compacted c.log appended]
          exact mem_ids_of_sent (hall r hr)
        have hsub : ids (remaining compacted c.log) ⊆ ids c.log :=
          ((remaining_sublist compacted c.log).filterMap _).subset
        refine ⟨h.seen_eq_of_reported hok fun r hr => hsub (hids r hr), fun k hk e he => ?_⟩
        subst hk
        -- a message of a send among those compacted would be among the others as well
        cases horigin : e.2 with
        | none => rfl
        | some id =>
          have htake : id ∈ ids (c.log.take k.count) := List.mem_filterMap.2 ⟨e, he, horigin⟩
          have hin : ids (c.log.take k.count) ⊆ ids c.log :=
            ((List.take_sublist k.count c.log).filterMap _).subset
          obtain ⟨r, hr, rfl⟩ := List.mem_map.1 (hok.origins (hin htake))
          have hnodup := hok.nodup
          rw [← List.take_append_drop k.count c.log, ids_append] at hnodup
          exact absurd (hids r (List.mem_of_mem_take hr))
            ((List.nodup_append'.1 hnodup).2.2 htake)
      · rintro ⟨hseen, hcut⟩ r hr
        have hmem : sent r ∈ c.log := hok.complete r (by rwa [hseen, List.take_length])
        cases compacted with
        | none => exact List.mem_append_left _ hmem
        | some k =>
          rw [← List.take_append_drop k.count c.log] at hmem
          rcases List.mem_append.1 hmem with htake | hdrop
          · exact absurd (hcut k rfl _ htake) (by simp [sent])
          · refine List.mem_cons_of_mem _ ?_
            rw [List.drop_append]
            exact List.mem_append_left _ hdrop

end State

/-- Every message that `sessions_send` reported is in the stored transcript, in every state of a run
of turns and sends on one session, exactly if whatever is saved was loaded after the last report,
and no compaction takes in a message of a send. -/
theorem kept_iff {sid : String} {s : State} (h : s.Initial sid) (events : List Event) :
    (∀ s' ∈ trail (State.step sid) s events, s'.Kept sid) ↔
      EachStep (State.step sid) State.Fresh s events :=
  forall_mem_trail_iff_of_keeps (I := State.Ok sid)
    (fun _ e hok hk => hok.step hk e) (fun _ e hok hk => hok.kept_step_iff hk e) h.ok h.kept events

/-- A store with one empty session. -/
def oneSession : State where
  db := SessionDb.save {} { id := "s", createdAt := 0, updatedAt := 0 } 0
  log := []

theorem initial_oneSession : oneSession.Initial "s" :=
  ⟨⟨_, SessionDb.get_save {} { id := "s", createdAt := 0, updatedAt := 0 } 0, rfl⟩, rfl, rfl⟩

theorem kept_iff_one_send :
    (∀ s' ∈ trail (State.step "s") oneSession
        [.turnLoad 0 (.user (.text "hi")), .turnSave 0 [] none 1, .sendLoad 1, .sendSave 1 "note" 2],
      s'.Kept "s") ↔
      EachStep (State.step "s") State.Fresh oneSession
        [.turnLoad 0 (.user (.text "hi")), .turnSave 0 [] none 1, .sendLoad 1,
          .sendSave 1 "note" 2] :=
  kept_iff initial_oneSession _

/-- A note sent while a turn is under way is gone once the turn has saved. -/
theorem turn_overwrites_send :
    ¬∀ (sid : String) (s : State) (events : List Event), s.Initial sid →
      (events.foldl (State.step sid) s).copies = [] →
      (events.foldl (State.step sid) s).Kept sid := by
  intro hall
  obtain ⟨-, -, -, hkept⟩ := hall "s" oneSession
    [.turnLoad 0 (.user (.text "hi")), .sendLoad 1, .sendSave 1 "note" 1, .turnSave 0 [] none 2]
    initial_oneSession rfl
  have hmem := mem_ids_of_sent (hkept (1, "note") List.mem_cons_self)
  exact absurd hmem (by decide +kernel)

end OxenClaw.SessionsSend
