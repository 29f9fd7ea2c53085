import OxenClaw.Lib.Runs
import OxenClaw.Lib.Traverse
import OxenClaw.Pi.Persistence

/-!
# Two session managers

`InMemorySessionManager` (`pi/session.py`) keeps the session objects themselves,
`SQLiteSessionManager` (`pi/persistence.py`) rows from which `get` builds an object anew. A caller
holds the objects it built or was given, changes them, and hands them to `save` (`World`).

Objects that the in-memory manager gave out for one session are one object, so a change of it is
seen before it is saved, and through every name the caller has for it. Callers that save what they
change, and let go of an object once its session was saved through another (`Disciplined`), get the
same answers from both managers, except that the in-memory list stands in the order in which the
sessions were put and the SQLite list has the session saved last in front (`answers_agree`).
-/

namespace OxenClaw

/-- `CreateAgentSessionOptions`. -/
structure CreateAgentSessionOptions where
  agentId : String := "default"
  modelId : Option String := none
  title : Option String := none
  metadata : Option Args := none

/-- The session that `create` builds, with the id and the times that it draws. -/
def CreateAgentSessionOptions.session (opts : CreateAgentSessionOptions) (id : String)
    (createdAt updatedAt : ℚ) : AgentSession where
  id := id
  title := opts.title
  agentId := opts.agentId
  modelId := opts.modelId
  metadata := opts.metadata.getD []
  createdAt := createdAt
  updatedAt := updatedAt

/-- `SessionEntry`, with all its fields. -/
structure SessionListing where
  id : String
  title : Option String
  agentId : String
  modelId : Option String
  messageCount : ℕ
  createdAt : ℚ
  updatedAt : ℚ
  deriving DecidableEq

def AgentSession.entry (s : AgentSession) : SessionListing where
  id := s.id
  title := s.title
  agentId := s.agentId
  modelId := s.modelId
  messageCount := s.messages.length
  createdAt := s.createdAt
  updatedAt := s.updatedAt

/-! ## The caller -/

/-- Where an object is. -/
abbrev Ref := ℕ

/-- The objects, those the caller holds in the order in which it got them, and the manager. -/
structure World (M : Type) where
  objects : List AgentSession := []
  held : List (Option Ref) := []
  manager : M

/-- What a caller does. An operation on an object names it by its place in `held`. -/
inductive Operation where
  | create (opts : CreateAgentSessionOptions) (id : String) (createdAt updatedAt : ℚ)
  /-- An object that the caller builds itself. -/
  | build (s : AgentSession)
  | get (id : String)
  | edit (x : ℕ) (f : AgentSession → AgentSession)
  /-- A change, as an append to the messages, and `save` at once. -/
  | save (x : ℕ) (f : AgentSession → AgentSession) (now : ℚ)
  | list (agentId : Option String)
  | delete (id : String)

inductive Answer where
  | done
  | raised
  | session (s : Option AgentSession)
  | entries (rows : List SessionListing)
  | deleted (found : Bool)

namespace World

variable {M : Type}

/-- A new object, which the caller holds. -/
def alloc (w : World M) (s : AgentSession) : World M :=
  { w with objects := w.objects ++ [s], held := w.held ++ [some w.objects.length] }

def hold (w : World M) (r : Option Ref) : World M :=
  { w with held := w.held ++ [r] }

def ref? (w : World M) (x : ℕ) : Option Ref :=
  w.held[x]?.join

/-- The object that the caller holds at `x`. -/
def object? (w : World M) (x : ℕ) : Option AgentSession :=
  (w.ref? x).bind (w.objects[·]?)

def update (w : World M) (r : Ref) (s : AgentSession) : World M :=
  { w with objects := w.objects.set r s }

def edit (w : World M) (x : ℕ) (f : AgentSession → AgentSession) : World M :=
  match w.ref? x, w.object? x with
  | some r, some s => w.update r (f s)
  | _, _ => w

end World

/-! ## `InMemorySessionManager` -/

/-- `_sessions`. -/
abbrev InMemorySessionManager := Dict String Ref

namespace InMemorySessionManager

def list (m : InMemorySessionManager) (objects : List AgentSession) (agentId : Option String) :
    List SessionListing :=
  m.filterMap fun e => objects[e.2]?.bind fun s =>
    if agentId.all (s.agentId = ·) then some s.entry else none

def step (w : World InMemorySessionManager) : Operation → World InMemorySessionManager × Answer
  | .create opts id createdAt updatedAt =>
    let s := opts.session id createdAt updatedAt
    ({ w.alloc s with manager := w.manager.set id w.objects.length }, .session (some s))
  | .build s => (w.alloc s, .done)
  | .get id =>
    match w.manager.get? id with
    | some r => (w.hold (some r), .session w.objects[r]?)
    | none => (w.hold none, .session none)
  | .edit x f => (w.edit x f, .done)
  | .save x f now =>
    match w.ref? x, w.object? x with
    | some r, some s =>
      ({ w.update r { f s with updatedAt := now } with manager := w.manager.set (f s).id r }, .done)
    | _, _ => (w, .done)
  | .list agentId => (w, .entries (list w.manager w.objects agentId))
  | .delete id =>
    ({ w with manager := w.manager.erase id }, .deleted (w.manager.get? id).isSome)

end InMemorySessionManager

/-! ## `SQLiteSessionManager` -/

namespace SessionDb

/-- `SQLiteSessionManager.create`. An id that is taken is refused. -/
def create (db : SessionDb) (s : AgentSession) : Option SessionDb :=
  if s.id ∈ Dict.keys db.sessions then none
  else some { db with
    sessions := db.sessions.set s.id {
      agentId := s.agentId, modelId := s.modelId, title := s.title, createdAt := s.createdAt
      updatedAt := s.updatedAt, metadataJson := .obj s.metadata } }

def entry (db : SessionDb) (id : String) (row : SessionRow) : SessionListing where
  id := id
  title := row.title
  agentId := row.agentId
  modelId := row.modelId
  messageCount := (db.messages.filter fun m => m.sessionId = id).length
  createdAt := row.createdAt
  updatedAt := row.updatedAt

/-- The rows of an agent, in the order of the table. -/
def rows (db : SessionDb) (agentId : Option String) : List SessionListing :=
  db.sessions.filterMap fun e =>
    if agentId.all (e.2.agentId = ·) then some (db.entry e.1 e.2) else none

/-- `SQLiteSessionManager.list`, the last one updated first. -/
def list (db : SessionDb) (agentId : Option String) : List SessionListing :=
  (db.rows agentId).insertionSort fun a b => b.updatedAt ≤ a.updatedAt

def step (w : World SessionDb) : Operation → World SessionDb × Answer
  | .create opts id createdAt updatedAt =>
    let s := opts.session id createdAt updatedAt
    match w.manager.create s with
    | some db => ({ w.alloc s with manager := db }, .session (some s))
    | none => (w.hold none, .raised)
  | .build s => (w.alloc s, .done)
  | .get id =>
    match w.manager.get id with
    | some (some s) => (w.alloc s, .session (some s))
    | some none => (w.hold none, .session none)
    | none => (w.hold none, .raised)
  | .edit x f => (w.edit x f, .done)
  | .save x f now =>
    match w.ref? x, w.object? x with
    | some r, some s =>
      ({ w.update r { f s with updatedAt := now } with
        manager := w.manager.save { f s with updatedAt := now } now }, .done)
    | _, _ => (w, .done)
  | .list agentId => (w, .entries (w.manager.list agentId))
  | .delete id =>
    ({ w with manager := w.manager.delete id }, .deleted (w.manager.sessions.get? id).isSome)

end SessionDb

/-! ## Disciplined callers -/

/-- The in-memory world, and the names whose session was changed through another name. -/
structure Tracked where
  world : World InMemorySessionManager
  stale : List ℕ := []

namespace Tracked

/-- The other names of an object. -/
def aliases (w : World InMemorySessionManager) (x : ℕ) : List ℕ :=
  (List.range w.held.length).filter fun y => y ≠ x ∧ w.ref? y = w.ref? x

def track (t : Tracked) : Operation → List ℕ
  | .edit x _ | .save x _ _ => aliases t.world x ++ t.stale
  | _ => t.stale

def step (t : Tracked) (op : Operation) : Tracked × Answer :=
  (⟨(InMemorySessionManager.step t.world op).1, t.track op⟩,
    (InMemorySessionManager.step t.world op).2)

/-- The object is the one that the manager has for its session. -/
def Stored (w : World InMemorySessionManager) (x : ℕ) : Prop :=
  ∃ r id, w.ref? x = some r ∧ w.manager.get? id = some r

/-- An id is drawn once. What is changed is saved at once, or was not stored. What is saved has the
id and the time of creation of the session as stored, and no other name for it was used to change
it. -/
def Disciplined (t : Tracked) : Operation → Prop
  | .create _ id _ _ => t.world.manager.get? id = none
  | .edit x _ => x ∉ t.stale ∧ ¬Stored t.world x
  | .save x f _ => x ∉ t.stale ∧ ∀ s, t.world.object? x = some s → (f s).id = s.id ∧
      ∀ r, t.world.manager.get? s.id = some r →
        t.world.objects[r]?.map AgentSession.createdAt = some (f s).createdAt
  | _ => True

end Tracked

/-- The same answer, or lists of the same rows of which the second is sorted. -/
def Answer.Agree : Answer → Answer → Prop
  | .entries rows, .entries rows' =>
    rows'.Perm rows ∧ rows'.Pairwise fun a b => b.updatedAt ≤ a.updatedAt
  | a, b => a = b

/-! ## What the store returns -/

namespace SessionDb

variable {db db' : SessionDb} {id : String}

/-- The rows of messages and compactions belong to sessions that exist (`FOREIGN KEY`). -/
structure Closed (db : SessionDb) : Prop where
  messages : ∀ m ∈ db.messages, m.sessionId ∈ Dict.keys db.sessions
  compactions : ∀ c ∈ db.compactions, c.sessionId ∈ Dict.keys db.sessions

theorem select_filter_of_ne (rows : List PayloadRow) {id' : String} (h : id' ≠ id) :
    select (rows.filter fun r => r.sessionId ≠ id) id' = select rows id' := by
  rw [select, select, List.filter_filter]
  refine congrArg (fun kept => (kept.insertionSort fun r r' => r.idx ≤ r'.idx).map
    PayloadRow.payload) (List.filter_congr fun r _ => ?_)
  by_cases hr : r.sessionId = id' <;> simp [hr, h]

theorem select_replace_of_ne (rows : List PayloadRow) (payloads : List Json) {id' : String}
    (h : id' ≠ id) : select (replace rows id payloads) id' = select rows id' := by
  have hnew : (payloads.zipIdx.map fun p => (⟨id, p.2, p.1⟩ : PayloadRow)).filter
      (fun r => r.sessionId = id') = [] :=
    List.filter_eq_nil_iff.2 fun r hr => by
      obtain ⟨p, -, rfl⟩ := List.mem_map.1 hr
      simpa using h.symm
  rw [← select_filter_of_ne rows h, select, select, replace, List.filter_append, hnew,
    List.append_nil]

theorem select_eq_nil {rows : List PayloadRow} (h : ∀ r ∈ rows, r.sessionId ≠ id) :
    select rows id = [] := by
  rw [select, List.filter_eq_nil_iff.2 fun r hr => by simpa using h r hr]
  rfl

theorem get_congr (hsessions : db'.sessions.get? id = db.sessions.get? id)
    (hmessages : select db'.messages id = select db.messages id)
    (hcompactions : select db'.compactions id = select db.compactions id) :
    db'.get id = db.get id := by
  rw [get, get, hsessions, hmessages, hcompactions]

theorem get_of_not_mem (h : id ∉ Dict.keys db.sessions) : db.get id = some none := by
  rw [get, Dict.get?_eq_none_iff.2 h]

theorem get_create {s : AgentSession} (hdb : db.Closed) (h : db.create s = some db')
    (hmessages : s.messages = []) (hcompactions : s.compactions = []) :
    db'.get s.id = some (some s) := by
  rw [create] at h
  split_ifs at h with hnew
  rw [← Option.some.inj h, get]
  have hnone : ∀ rows : List PayloadRow, (∀ r ∈ rows, r.sessionId ∈ Dict.keys db.sessions) →
      select rows s.id = [] := fun rows hrows =>
    select_eq_nil fun r hr heq => hnew (heq ▸ hrows r hr)
  obtain ⟨id, title, agentId, modelId, messages, compactions, createdAt, updatedAt, metadata⟩ := s
  obtain rfl : messages = [] := hmessages
  obtain rfl : compactions = [] := hcompactions
  simp [hnone _ hdb.messages, hnone _ hdb.compactions, Json.obj?]

theorem get_create_of_ne {s : AgentSession} (h : db.create s = some db') (hid : id ≠ s.id) :
    db'.get id = db.get id := by
  rw [create] at h
  split_ifs at h
  rw [← Option.some.inj h]
  exact get_congr (Dict.get?_set_of_ne hid _ _) rfl rfl

theorem get_save_of_ne (db : SessionDb) (s : AgentSession) (now : ℚ) (hid : id ≠ s.id) :
    (db.save s now).get id = db.get id :=
  get_congr (Dict.get?_set_of_ne hid _ _) (select_replace_of_ne _ _ hid)
    (select_replace_of_ne _ _ hid)

theorem get_delete_of_ne (db : SessionDb) {id' : String} (hid : id' ≠ id) :
    (db.delete id).get id' = db.get id' :=
  get_congr (Dict.get?_erase_of_ne hid _) (select_filter_of_ne _ hid) (select_filter_of_ne _ hid)

theorem Closed.create {s : AgentSession} (hdb : db.Closed) (h : db.create s = some db') :
    db'.Closed := by
  rw [SessionDb.create] at h
  split_ifs at h
  rw [← Option.some.inj h]
  exact ⟨fun m hm => Dict.mem_keys_set.2 (.inl (hdb.messages m hm)),
    fun c hc => Dict.mem_keys_set.2 (.inl (hdb.compactions c hc))⟩

theorem Closed.save (hdb : db.Closed) (s : AgentSession) (now : ℚ) : (db.save s now).Closed := by
  have hrows : ∀ (rows : List PayloadRow) (payloads : List Json),
      (∀ r ∈ rows, r.sessionId ∈ Dict.keys db.sessions) →
      ∀ r ∈ replace rows s.id payloads, r.sessionId ∈ Dict.keys (db.save s now).sessions := by
    intro rows payloads hrows r hr
    rcases List.mem_append.1 hr with hr | hr
    · exact Dict.mem_keys_set.2 (.inl (hrows r (List.mem_filter.1 hr).1))
    · obtain ⟨p, -, rfl⟩ := List.mem_map.1 hr
      exact Dict.mem_keys_set.2 (.inr rfl)
  exact ⟨hrows _ _ hdb.messages, hrows _ _ hdb.compactions⟩

theorem Closed.delete (hdb : db.Closed) (id : String) : (db.delete id).Closed := by
  have hrows : ∀ rows : List PayloadRow, (∀ r ∈ rows, r.sessionId ∈ Dict.keys db.sessions) →
      ∀ r ∈ rows.filter (fun r => r.sessionId ≠ id),
        r.sessionId ∈ Dict.keys (db.delete id).sessions := by
    intro rows hrows r hr
    obtain ⟨hr, hne⟩ := List.mem_filter.1 hr
    obtain ⟨row, hrow⟩ := Dict.mem_keys_iff.1 (hrows r hr)
    have hne : r.sessionId ≠ id := by simpa using hne
    exact Dict.mem_keys_iff.2 ⟨row, (Dict.get?_erase_of_ne hne _).trans hrow⟩
  exact ⟨hrows _ hdb.messages, hrows _ hdb.compactions⟩

/-- The list has of a session what `get` returns. -/
theorem entry_of_get {s : AgentSession} (h : db.get id = some (some s)) :
    ∃ row, db.sessions.get? id = some row ∧ db.entry id row = s.entry ∧ row.agentId = s.agentId ∧
      row.createdAt = s.createdAt := by
  rw [get] at h
  cases hrow : db.sessions.get? id with
  | none => simp [hrow] at h
  | some row =>
    simp only [hrow, Option.bind_eq_bind, Option.bind_eq_some_iff, Option.some.injEq,
      Option.pure_def] at h
    obtain ⟨messages, hmessages, compactions, -, metadata, -, rfl⟩ := h
    refine ⟨row, rfl, ?_, rfl, rfl⟩
    have hlen : messages.length = (select db.messages id).length := Traverse.length_of_mapM hmessages
    simp [entry, AgentSession.entry, hlen, select]

end SessionDb

/-! ## What the caller holds -/

namespace World

variable {M : Type} {w : World M} {x y : ℕ} {r : Ref} {s : AgentSession}

/-- What the caller holds is an object. -/
def Valid (w : World M) : Prop :=
  ∀ x r, w.ref? x = some r → r < w.objects.length

theorem exists_ref (h : w.object? x = some s) : ∃ r, w.ref? x = some r ∧ w.objects[r]? = some s :=
  Option.bind_eq_some_iff.1 h

theorem ref?_hold (w : World M) (r : Option Ref) (x : ℕ) :
    (w.hold r).ref? x = if x = w.held.length then r else w.ref? x := by
  rw [ref?, ref?, hold]
  split_ifs with hx
  · rw [hx, List.getElem?_concat_length]
    rfl
  · rcases Nat.lt_or_gt_of_ne hx with hlt | hgt
    · rw [List.getElem?_append_left hlt]
    · rw [List.getElem?_eq_none (by rw [List.length_append, List.length_singleton]; omega),
        List.getElem?_eq_none (by omega)]

theorem ref?_alloc (w : World M) (s : AgentSession) (x : ℕ) :
    (w.alloc s).ref? x = if x = w.held.length then some w.objects.length else w.ref? x :=
  ref?_hold w (some w.objects.length) x

theorem object?_hold (w : World M) (r : Option Ref) (x : ℕ) : (w.hold r).object? x
    = if x = w.held.length then r.bind (w.objects[·]?) else w.object? x := by
  rw [object?, ref?_hold]
  split_ifs <;> rfl

theorem object?_alloc (hw : w.Valid) (s : AgentSession) (x : ℕ) :
    (w.alloc s).object? x = if x = w.held.length then some s else w.object? x := by
  rw [object?, ref?_alloc]
  split_ifs
  · exact List.getElem?_concat_length
  · cases hr : w.ref? x with
    | none => rw [object?, hr]; rfl
    | some r =>
      rw [object?, hr]
      exact List.getElem?_append_left (hw x r hr)

theorem object?_update (hr : r < w.objects.length) (s : AgentSession) (x : ℕ) :
    (w.update r s).object? x = if w.ref? x = some r then some s else w.object? x := by
  have href : (w.update r s).ref? x = w.ref? x := rfl
  rw [object?, href, object?]
  split_ifs with hx
  · rw [hx]
    exact List.getElem?_set_self hr
  · cases hy : w.ref? x with
    | none => rfl
    | some r' =>
      refine List.getElem?_set_ne fun heq => hx ?_
      rw [hy, heq]

theorem Valid.hold (hw : w.Valid) {r : Option Ref} (hr : ∀ r', r = some r' → r' < w.objects.length) :
    (w.hold r).Valid := by
  intro x r' hx
  rw [ref?_hold] at hx
  split_ifs at hx
  · exact hr r' hx
  · exact hw x r' hx

theorem Valid.alloc (hw : w.Valid) (s : AgentSession) : (w.alloc s).Valid := by
  intro x r hx
  have hlen : (w.alloc s).objects.length = w.objects.length + 1 := List.length_append
  rw [ref?_alloc] at hx
  rw [hlen]
  split_ifs at hx
  · cases hx
    exact Nat.lt_succ_self _
  · exact Nat.lt_succ_of_lt (hw x r hx)

theorem Valid.update (hw : w.Valid) (r : Ref) (s : AgentSession) : (w.update r s).Valid := by
  intro x r' hx
  have hlen : (w.update r s).objects.length = w.objects.length := List.length_set
  rw [hlen]
  exact hw x r' hx

/-- Every object is held at one place. -/
def Distinct (w : World M) : Prop :=
  ∀ x y r, w.ref? x = some r → w.ref? y = some r → x = y

theorem Distinct.hold_none (hw : w.Distinct) : (w.hold none).Distinct := by
  intro x y r hx hy
  rw [ref?_hold] at hx hy
  split_ifs at hx hy
  exact hw x y r hx hy

theorem Distinct.alloc (hw : w.Distinct) (hvalid : w.Valid) (s : AgentSession) :
    (w.alloc s).Distinct := by
  intro x y r hx hy
  rw [ref?_alloc] at hx hy
  split_ifs at hx hy with hxl hyl hyl
  · rw [hxl, hyl]
  · cases hx
    exact absurd (hvalid y _ hy) (lt_irrefl _)
  · cases hy
    exact absurd (hvalid x _ hx) (lt_irrefl _)
  · exact hw x y r hx hy

end World

theorem Tracked.ref?_ne_of_not_mem_aliases {w : World InMemorySessionManager} {x y : ℕ} {r : Ref}
    (h : y ∉ Tracked.aliases w x) (hy : y ≠ x) (hx : w.ref? x = some r) : w.ref? y ≠ some r := by
  intro heq
  have hlt : y < w.held.length := by
    by_contra hge
    rw [World.ref?, List.getElem?_eq_none (not_lt.1 hge)] at heq
    cases heq
  refine h (List.mem_filter.2 ⟨List.mem_range.2 hlt, ?_⟩)
  simp [hy, heq, hx]

/-! ## The two worlds -/

/-- The in-memory world and the SQLite world, along the same operations. -/
structure Agrees (t : Tracked) (d : World SessionDb) : Prop where
  length : t.world.held.length = d.held.length
  valid : t.world.Valid
  valid' : d.Valid
  distinct : d.Distinct
  fresh : ∀ x ∉ t.stale, t.world.object? x = d.object? x
  stored : ∀ id r, t.world.manager.get? id = some r →
    ∃ s, t.world.objects[r]? = some s ∧ s.id = id ∧ d.manager.get id = some (some s)
  keys : Dict.keys t.world.manager = Dict.keys d.manager.sessions
  nodup : (Dict.keys t.world.manager).Nodup
  closed : d.manager.Closed

namespace Agrees

variable {t : Tracked} {d : World SessionDb}

theorem get_of_none (h : Agrees t d) {id : String} (hid : t.world.manager.get? id = none) :
    d.manager.get id = some none :=
  SessionDb.get_of_not_mem (h.keys ▸ Dict.get?_eq_none_iff.1 hid)

/-- The rows of the table are those of the in-memory list. -/
theorem list_eq_rows (h : Agrees t d) (agentId : Option String) :
    InMemorySessionManager.list t.world.manager t.world.objects agentId
      = d.manager.rows agentId := by
  have hm := Dict.eq_filterMap_keys h.nodup
  have hd := Dict.eq_filterMap_keys (h.keys ▸ h.nodup)
  rw [InMemorySessionManager.list, SessionDb.rows, hm, hd, List.filterMap_filterMap,
    List.filterMap_filterMap, ← h.keys]
  refine List.filterMap_congr fun id hid => ?_
  obtain ⟨r, hr⟩ := Dict.mem_keys_iff.1 hid
  obtain ⟨s, hs, -, hget⟩ := h.stored id r hr
  obtain ⟨row, hrow, hentry, hagent, -⟩ := SessionDb.entry_of_get hget
  simp [hr, hs, hrow, hentry, hagent]

/-- Both worlds get an object that is the same. -/
theorem alloc (h : Agrees t d) (s : AgentSession) :
    Agrees ⟨t.world.alloc s, t.stale⟩ (d.alloc s) where
  length := by
    simp only [World.alloc, List.length_append, h.length]
    rfl
  valid := h.valid.alloc s
  valid' := h.valid'.alloc s
  distinct := h.distinct.alloc h.valid' s
  fresh := fun x hx => by
    rw [World.object?_alloc h.valid, World.object?_alloc h.valid', h.length, h.fresh x hx]
  stored := fun id r hr => by
    obtain ⟨s', hs', hid⟩ := h.stored id r hr
    have hlt := (List.getElem?_eq_some_iff.1 hs').1
    exact ⟨s', (List.getElem?_append_left hlt).trans hs', hid⟩
  keys := h.keys
  nodup := h.nodup
  closed := h.closed

/-- Neither world gets an object. -/
theorem hold_none (h : Agrees t d) : Agrees ⟨t.world.hold none, t.stale⟩ (d.hold none) where
  length := by
    simp only [World.hold, List.length_append, h.length]
  valid := h.valid.hold (by simp)
  valid' := h.valid'.hold (by simp)
  distinct := h.distinct.hold_none
  fresh := fun x hx => by
    rw [World.object?_hold, World.object?_hold, h.length, h.fresh x hx, Option.bind_none,
      Option.bind_none]
  stored := h.stored
  keys := h.keys
  nodup := h.nodup
  closed := h.closed

/-- The in-memory world gets another name for an object, the SQLite world an object like it. -/
theorem hold_alloc (h : Agrees t d) {r : Ref} {s : AgentSession}
    (hr : t.world.objects[r]? = some s) :
    Agrees ⟨t.world.hold (some r), t.stale⟩ (d.alloc s) where
  length := by
    simp only [World.hold, World.alloc, List.length_append, h.length]
    rfl
  valid := h.valid.hold fun r' heq => by
    rw [← Option.some.inj heq]
    exact (List.getElem?_eq_some_iff.1 hr).1
  valid' := h.valid'.alloc s
  distinct := h.distinct.alloc h.valid' s
  fresh := fun x hx => by
    rw [World.object?_hold, World.object?_alloc h.valid', h.length, h.fresh x hx, Option.bind_some,
      hr]
  stored := h.stored
  keys := h.keys
  nodup := h.nodup
  closed := h.closed

/-- A session that both managers get under a new id. -/
theorem create (h : Agrees t d) {s : AgentSession} {db : SessionDb}
    (hdb : d.manager.create s = some db)
    (hmessages : s.messages = []) (hcompactions : s.compactions = []) :
    Agrees ⟨{ t.world.alloc s with manager := t.world.manager.set s.id t.world.objects.length },
      t.stale⟩ { d.alloc s with manager := db } where
  length := (h.alloc s).length
  valid := (h.alloc s).valid
  valid' := (h.alloc s).valid'
  distinct := (h.alloc s).distinct
  fresh := (h.alloc s).fresh
  stored := fun id r hr => by
    rw [Dict.get?_set] at hr
    split_ifs at hr with hid
    · subst hid
      cases hr
      exact ⟨s, List.getElem?_concat_length, rfl,
        SessionDb.get_create h.closed hdb hmessages hcompactions⟩
    · rw [SessionDb.get_create_of_ne hdb hid]
      exact (h.alloc s).stored id r hr
  keys := by
    have hsessions : ∃ row, db.sessions = d.manager.sessions.set s.id row := by
      rw [SessionDb.create] at hdb
      split_ifs at hdb
      exact ⟨_, congrArg SessionDb.sessions (Option.some.inj hdb).symm⟩
    obtain ⟨row, hrow⟩ := hsessions
    rw [hrow, Dict.keys_set, Dict.keys_set, h.keys]
  nodup := Dict.nodup_keys_set h.nodup _ _
  closed := h.closed.create hdb

/-- An object changed in both worlds, through a name that was fresh. -/
theorem fresh_update (h : Agrees t d) {x : ℕ} {r r' : Ref} {s : AgentSession}
    (hr : t.world.ref? x = some r) (hr' : d.ref? x = some r') :
    ∀ y ∉ Tracked.aliases t.world x ++ t.stale,
      (t.world.update r s).object? y = (d.update r' s).object? y := by
  intro y hy
  obtain ⟨halias, hstale⟩ := not_or.1 (mt List.mem_append.2 hy)
  rw [World.object?_update (h.valid x r hr), World.object?_update (h.valid' x r' hr')]
  by_cases hyx : y = x
  · rw [hyx, if_pos hr, if_pos hr']
  · rw [if_neg (Tracked.ref?_ne_of_not_mem_aliases halias hyx hr),
      if_neg fun heq => hyx (h.distinct y x r' heq hr'), h.fresh y hstale]

theorem edit (h : Agrees t d) {x : ℕ} (f : AgentSession → AgentSession) (hx : x ∉ t.stale)
    (hstored : ¬Tracked.Stored t.world x) :
    Agrees ⟨t.world.edit x f, Tracked.aliases t.world x ++ t.stale⟩ (d.edit x f) := by
  have hobject := h.fresh x hx
  cases hs : t.world.object? x with
  | none =>
    have ht : t.world.edit x f = t.world := by
      simp [World.edit, hs]
    have hd : d.edit x f = d := by
      simp [World.edit, ← hobject, hs]
    rw [ht, hd]
    exact { h with fresh := fun y hy => h.fresh y fun hmem => hy (List.mem_append_right _ hmem) }
  | some s =>
    obtain ⟨r, hr, -⟩ := World.exists_ref hs
    obtain ⟨r', hr', -⟩ := World.exists_ref (hobject ▸ hs)
    have ht : t.world.edit x f = t.world.update r (f s) := by
      simp [World.edit, hr, hs]
    have hd : d.edit x f = d.update r' (f s) := by
      simp [World.edit, hr', ← hobject, hs]
    rw [ht, hd]
    exact {
      length := h.length
      valid := h.valid.update r (f s)
      valid' := h.valid'.update r' (f s)
      distinct := h.distinct
      fresh := h.fresh_update hr hr'
      stored := fun id q hq => by
        have hne : r ≠ q := fun heq => hstored ⟨q, id, heq ▸ hr, hq⟩
        obtain ⟨s', hs', hid⟩ := h.stored id q hq
        exact ⟨s', (List.getElem?_set_ne hne).trans hs', hid⟩
      keys := h.keys
      nodup := h.nodup
      closed := h.closed }

/-- The time of creation that `save` writes is that of the object. -/
theorem createdAt_save (h : Agrees t d) {s : AgentSession}
    (hcreated : ∀ r, t.world.manager.get? s.id = some r →
      t.world.objects[r]?.map AgentSession.createdAt = some s.createdAt) :
    ((d.manager.sessions.get? s.id).map SessionRow.createdAt).getD s.createdAt = s.createdAt := by
  cases hrow : d.manager.sessions.get? s.id with
  | none => rfl
  | some row =>
    have hmem : s.id ∈ Dict.keys t.world.manager := h.keys ▸ Dict.mem_keys_iff.2 ⟨row, hrow⟩
    obtain ⟨r, hr⟩ := Dict.mem_keys_iff.1 hmem
    obtain ⟨s', hs', -, hget⟩ := h.stored s.id r hr
    obtain ⟨row', hrow', -, -, hrowCreated⟩ := SessionDb.entry_of_get hget
    have hsame := hcreated r hr
    rw [hs', Option.map_some, Option.some.injEq] at hsame
    rw [hrow] at hrow'
    cases hrow'
    exact hrowCreated.trans hsame

theorem save (h : Agrees t d) {x : ℕ} {r r' : Ref} {s s' : AgentSession} {now : ℚ}
    (hr : t.world.ref? x = some r) (hs : t.world.objects[r]? = some s) (hr' : d.ref? x = some r')
    (hid : s'.id = s.id) (hnow : s'.updatedAt = now)
    (hcreated : ∀ r, t.world.manager.get? s'.id = some r →
      t.world.objects[r]?.map AgentSession.createdAt = some s'.createdAt) :
    Agrees ⟨{ t.world.update r s' with manager := t.world.manager.set s'.id r },
      Tracked.aliases t.world x ++ t.stale⟩
      { d.update r' s' with manager := d.manager.save s' now } where
  length := h.length
  valid := h.valid.update r s'
  valid' := h.valid'.update r' s'
  distinct := h.distinct
  fresh := h.fresh_update hr hr'
  stored := fun id q hq => by
    rw [Dict.get?_set] at hq
    split_ifs at hq with heq
    · subst heq
      cases hq
      refine ⟨s', List.getElem?_set_self (h.valid x r hr), rfl, ?_⟩
      rw [SessionDb.get_save, h.createdAt_save hcreated, ← hnow]
    · obtain ⟨s'', hs'', hid'', hget⟩ := h.stored id q hq
      have hne : r ≠ q := by
        rintro rfl
        rw [hs] at hs''
        cases hs''
        exact heq (hid''.symm.trans hid.symm)
      rw [SessionDb.get_save_of_ne _ _ _ heq]
      exact ⟨s'', (List.getElem?_set_ne hne).trans hs'', hid'', hget⟩
  keys := by
    rw [SessionDb.save, Dict.keys_set, Dict.keys_set, h.keys]
  nodup := Dict.nodup_keys_set h.nodup _ _
  closed := h.closed.save s' now

theorem delete (h : Agrees t d) (id : String) :
    Agrees ⟨{ t.world with manager := t.world.manager.erase id }, t.stale⟩
      { d with manager := d.manager.delete id } where
  length := h.length
  valid := h.valid
  valid' := h.valid'
  distinct := h.distinct
  fresh := h.fresh
  stored := fun id' r hr => by
    obtain ⟨hne, hr⟩ := Dict.get?_of_get?_erase hr
    rw [SessionDb.get_delete_of_ne _ hne]
    exact h.stored id' r hr
  keys := by
    rw [SessionDb.delete, Dict.keys_erase, Dict.keys_erase, h.keys]
  nodup := Dict.nodup_keys_erase h.nodup id
  closed := h.closed.delete id

/-- Every operation of a disciplined caller keeps the worlds alike and gets the same answer. -/
theorem step (h : Agrees t d) {op : Operation} (hop : t.Disciplined op) :
    Agrees (t.step op).1 (SessionDb.step d op).1 ∧
      (t.step op).2.Agree (SessionDb.step d op).2 := by
  cases op with
  | create opts id createdAt updatedAt =>
    have hnew : (opts.session id createdAt updatedAt).id ∉ Dict.keys d.manager.sessions :=
      h.keys ▸ Dict.get?_eq_none_iff.1 hop
    have hsome : ∃ db, d.manager.create (opts.session id createdAt updatedAt) = some db := by
      rw [SessionDb.create, if_neg hnew]
      exact ⟨_, rfl⟩
    obtain ⟨db, hdb⟩ := hsome
    rw [SessionDb.step, hdb]
    exact ⟨h.create hdb rfl rfl, rfl⟩
  | build s => exact ⟨h.alloc s, rfl⟩
  | get id =>
    rw [Tracked.step, InMemorySessionManager.step, SessionDb.step]
    cases hr : t.world.manager.get? id with
    | none =>
      rw [h.get_of_none hr]
      exact ⟨h.hold_none, rfl⟩
    | some r =>
      obtain ⟨s, hs, -, hget⟩ := h.stored id r hr
      rw [hget]
      exact ⟨h.hold_alloc hs, congrArg Answer.session hs⟩
  | edit x f => exact ⟨h.edit f hop.1 hop.2, rfl⟩
  | save x f now =>
    obtain ⟨hx, hsame⟩ := hop
    have hobject := h.fresh x hx
    rw [Tracked.step, InMemorySessionManager.step, SessionDb.step, ← hobject]
    cases hs : t.world.object? x with
    | none =>
      have hsame : Agrees ⟨t.world, Tracked.aliases t.world x ++ t.stale⟩ d :=
        { h with fresh := fun y hy => h.fresh y fun hmem => hy (List.mem_append_right _ hmem) }
      cases t.world.ref? x <;> cases d.ref? x <;> exact ⟨hsame, rfl⟩
    | some s =>
      obtain ⟨r, hr, hrs⟩ := World.exists_ref hs
      obtain ⟨r', hr', -⟩ := World.exists_ref (hobject ▸ hs)
      obtain ⟨hid, hcreated⟩ := hsame s hs
      rw [hr, hr']
      exact ⟨h.save hr hrs hr' hid rfl (fun q hq => hcreated q (hid ▸ hq)), rfl⟩
  | list agentId =>
    refine ⟨h, ?_, List.pairwise_insertionSort _ _⟩
    rw [SessionDb.list, h.list_eq_rows]
    exact List.perm_insertionSort _ _
  | delete id =>
    refine ⟨h.delete id, congrArg Answer.deleted ?_⟩
    have hmem : (t.world.manager.get? id).isSome ↔ (d.manager.sessions.get? id).isSome := by
      rw [Option.isSome_iff_exists, Option.isSome_iff_exists, ← Dict.mem_keys_iff, h.keys,
        Dict.mem_keys_iff]
    exact Bool.eq_iff_iff.2 hmem

/-- Nothing is stored, and the caller holds nothing. -/
theorem empty : Agrees ⟨{ manager := [] }, []⟩ { manager := {} } where
  length := rfl
  valid := fun x r hr => by cases hr
  valid' := fun x r hr => by cases hr
  distinct := fun x y r hx _ => by cases hx
  fresh := fun x _ => rfl
  stored := fun id r hr => by cases hr
  keys := rfl
  nodup := List.nodup_nil
  closed := ⟨by simp, by simp⟩

end Agrees

/-! ## Runs -/

/-- What the in-memory manager answers. -/
def inMemoryAnswers (ops : List Operation) : List Answer :=
  outputs InMemorySessionManager.step { manager := [] } ops

/-- What the SQLite manager answers. -/
def sqliteAnswers (ops : List Operation) : List Answer :=
  outputs SessionDb.step { manager := {} } ops

/-- Every operation is one of a disciplined caller. -/
def DisciplinedRun (ops : List Operation) : Prop :=
  EachStep (fun t op => (Tracked.step t op).1) Tracked.Disciplined ⟨{ manager := [] }, []⟩ ops

theorem outputs_track (t : Tracked) (ops : List Operation) :
    outputs Tracked.step t ops = outputs InMemorySessionManager.step t.world ops := by
  induction ops generalizing t with
  | nil => rfl
  | cons op ops ih => exact congrArg _ (ih _)

/-- An append to the messages. -/
def say (s : AgentSession) : AgentSession :=
  { s with messages := s.messages ++ [.user (.text "hi")] }

/-- Two sessions, of which the first gets a message and the second is deleted. -/
def twoSessions : List Operation :=
  [.create {} "a" 1 1, .create {} "b" 2 2, .list none,
    .save 0 say 3, .get "a", .list none, .delete "b", .list none]

/-- One caller for each demand of the discipline, which it does not meet : an id drawn twice, a
change that is not saved, an object whose session was saved through another, and an object with
another time of creation. -/
def undisciplined : List (List Operation) :=
  [[.create {} "a" 1 1, .create {} "a" 2 2],
    [.create {} "a" 1 1, .edit 0 say, .get "a"],
    [.create {} "a" 1 1, .get "a", .save 0 say 2, .save 1 say 3, .get "a"],
    [.create {} "a" 1 1, .build { id := "a", createdAt := 2, updatedAt := 2 }, .save 1 id 3,
      .get "a"]]

/-- What tells answers apart that are not lists : the messages and the time of creation of a
session, and whether the manager raised. -/
def Answer.digest : Answer → Option (ℕ × ℚ) × Bool
  | .session (some s) => (some (s.messages.length, s.createdAt), false)
  | .raised => (none, true)
  | _ => (none, false)

theorem Answer.Agree.digest_eq {a b : Answer} (h : a.Agree b) : a.digest = b.digest := by
  cases a <;> cases b <;> first | rfl | exact congrArg Answer.digest h

end OxenClaw
