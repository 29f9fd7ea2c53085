import Mathlib.Data.List.ReduceOption
import OxenClaw.ToolsPkg.SessionTools

/-!
# The children that `sessions_spawn` creates

The tool looks up the key that it is asked for, and `SessionManager.create` draws the id of the
child. The key is not passed on : the other tools find the child under it exactly if it is what was
drawn (`addressed_iff`), and until then it stays free for another spawn.
-/

namespace OxenClaw.SessionTools

/-- What a call is asked for, and what it draws. -/
abbrev Spawn := SpawnArgs × Drawn

namespace SessionManager

variable {M : Type} (S : SessionManager M)

/-- The child that a call creates, nothing where it fails. -/
def created (m : M) (c : Spawn) : Option Session :=
  (sessionsSpawn S m c.1 c.2).2.saved

def afterSpawn (m : M) (c : Spawn) : M :=
  (sessionsSpawn S m c.1 c.2).1

def Exists (m : M) (key : String) : Prop :=
  ∃ s, S.get m (resolveSessionId key) = some (some s)

def Missing (m : M) (key : String) : Prop :=
  S.get m (resolveSessionId key) = some none

/-- Each tool that takes a session by its key takes this one. -/
def Resolves (m : M) (key : String) (child : Session) : Prop :=
  ∃ s, s.id = child.id ∧ ∀ act, withSession S m key act = act (resolveSessionId key) s

/-- A call succeeds if the parent is there and the child is not, and is found under its key. -/
structure Addressed (m : M) (c : Spawn) : Prop where
  created_iff : (∃ child, S.created m c = some child) ↔
    S.Exists m c.1.parentSessionKey ∧ S.Missing m c.1.childSessionKey
  resolves : ∀ child, S.created m c = some child →
    S.Resolves (S.afterSpawn m c) c.1.childSessionKey child

/-- What is drawn for the child is the key that it is asked for with. -/
def DrawsKey (m : M) (c : Spawn) : Prop :=
  S.Exists m c.1.parentSessionKey → S.Missing m c.1.childSessionKey →
    c.2.id = resolveSessionId c.1.childSessionKey

/-- The step, with the child key of a call that succeeds. -/
def spawnStep (m : M) (c : Spawn) : M × Option String :=
  (S.afterSpawn m c, (S.created m c).map fun _ => resolveSessionId c.1.childSessionKey)

/-- The child keys of the calls that succeed. -/
def createdKeys (m : M) (calls : List Spawn) : List String :=
  (outputs S.spawnStep m calls).reduceOption

/-- A session is stored under an id, and the others are as they were. -/
structure Puts (m m' : M) (id : String) : Prop where
  get_self : ∃ s, S.get m' id = some (some s) ∧ s.id = id
  get_of_ne : ∀ id', id' ≠ id → S.get m' id' = S.get m id'

end SessionManager

/-- A manager keeps each session under its id. -/
structure Keyed {M : Type} (S : SessionManager M) where
  Ok : M → Prop
  create_of_missing : ∀ m opts id createdAt updatedAt, S.get m id = some none →
    ∃ r, S.create m opts id createdAt updatedAt = some r
  create : ∀ m opts id createdAt updatedAt m' s, Ok m →
    S.create m opts id createdAt updatedAt = some (m', s) →
      s.id = id ∧ s.messages = [] ∧ Ok m' ∧ S.Puts m m' id
  save : ∀ m s now, Ok m → s.messages = [] →
    ∃ m', S.save m s now = some m' ∧ Ok m' ∧ S.Puts m m' s.id

namespace Keyed

variable {M : Type} {S : SessionManager M} (K : Keyed S) {m : M} {c : Spawn}

theorem puts_trans {m m' m'' : M} {id : String} (h : S.Puts m m' id) (h' : S.Puts m' m'' id) :
    S.Puts m m'' id where
  get_self := h'.get_self
  get_of_ne id' hid := (h'.get_of_ne id' hid).trans (h.get_of_ne id' hid)

/-- A call fails, and leaves the store, or it creates a child of the id that it draws. -/
theorem spawn_cases (hm : K.Ok m) :
    (S.created m c = none ∧ S.afterSpawn m c = m ∧
      (S.Exists m c.1.parentSessionKey → S.Missing m c.1.childSessionKey →
        S.get m c.2.id ≠ some none)) ∨
    ∃ child, S.created m c = some child ∧ child.id = c.2.id ∧
      S.Exists m c.1.parentSessionKey ∧ S.Missing m c.1.childSessionKey ∧
      K.Ok (S.afterSpawn m c) ∧ S.Puts m (S.afterSpawn m c) c.2.id := by
  obtain ⟨args, drawn⟩ := c
  simp only [SessionManager.created, SessionManager.afterSpawn, sessionsSpawn]
  rcases hparent : S.get m (resolveSessionId args.parentSessionKey) with _ | _ | parent
  · refine .inl ⟨rfl, rfl, ?_⟩
    rintro ⟨s, hs⟩
    rw [hparent] at hs
    cases hs
  · refine .inl ⟨rfl, rfl, ?_⟩
    rintro ⟨s, hs⟩
    rw [hparent] at hs
    cases hs
  rcases hchild : S.get m (resolveSessionId args.childSessionKey) with _ | _ | existing
  · refine .inl ⟨rfl, rfl, fun _ hmissing => ?_⟩
    rw [SessionManager.Missing, hchild] at hmissing
    cases hmissing
  · dsimp only
    rcases hcreate : S.create m (childOptions args (resolveSessionId args.parentSessionKey) parent
        drawn) drawn.id drawn.createdAt drawn.updatedAt with _ | ⟨m', child⟩
    · refine .inl ⟨rfl, rfl, fun _ _ hfree => ?_⟩
      obtain ⟨r, hr⟩ := K.create_of_missing m (childOptions args
        (resolveSessionId args.parentSessionKey) parent drawn) drawn.id drawn.createdAt
        drawn.updatedAt hfree
      rw [hcreate] at hr
      cases hr
    · obtain ⟨hid, hmessages, hok, hputs⟩ := K.create m _ _ _ _ m' child hm hcreate
      right
      by_cases hcopy : args.copyCompactions = true ∧ parent.compactions ≠ []
      · obtain ⟨m'', hsave, hok', hputs'⟩ := K.save m'
          { child with compactions := parent.compactions } drawn.now hok hmessages
        have hputs' : S.Puts m' m'' drawn.id := hid ▸ hputs'
        simp only [if_pos hcopy, hsave]
        exact ⟨_, rfl, hid, ⟨parent, hparent⟩, hchild, hok', puts_trans hputs hputs'⟩
      · simp only [if_neg hcopy]
        exact ⟨_, rfl, hid, ⟨parent, hparent⟩, hchild, hok, hputs⟩
  · refine .inl ⟨rfl, rfl, fun _ hmissing => ?_⟩
    rw [SessionManager.Missing, hchild] at hmissing
    cases hmissing

theorem ok_afterSpawn (hm : K.Ok m) : K.Ok (S.afterSpawn m c) := by
  rcases K.spawn_cases (c := c) hm with ⟨-, hsame, -⟩ | ⟨child, -, -, -, -, hok, -⟩
  · rwa [hsame]
  · exact hok

/-- What a key finds. -/
theorem resolves_iff {key : String} {child : Session} :
    S.Resolves m key child ↔
      ∃ s, S.get m (resolveSessionId key) = some (some s) ∧ s.id = child.id := by
  constructor
  · rintro ⟨s, hid, hact⟩
    have hraise := hact fun _ _ => (m, { answer := none })
    have hanswer := hact fun _ _ => (m, { answer := some .null })
    rcases hget : S.get m (resolveSessionId key) with _ | _ | s'
    · simp [withSession, hget] at hanswer
    · simp [withSession, hget, error] at hraise
    · have hread := hact fun _ s => (m, { answer := none, saved := some s })
      simp only [withSession, hget, Prod.mk.injEq, Outcome.mk.injEq, Option.some.injEq,
        true_and] at hread
      exact ⟨s', rfl, hread ▸ hid⟩
  · rintro ⟨s, hs, hid⟩
    refine ⟨s, hid, fun act => ?_⟩
    rw [withSession]
    simp only [hs]

theorem addressed_iff_drawsKey (hm : K.Ok m) : S.Addressed m c ↔ S.DrawsKey m c := by
  rcases K.spawn_cases (c := c) hm with
    ⟨hnone, -, htaken⟩ | ⟨child, hcreated, hid, hparent, hmissing, -, hputs⟩
  · constructor
    · intro h hparent hmissing
      obtain ⟨child, hchild⟩ := h.created_iff.2 ⟨hparent, hmissing⟩
      rw [hnone] at hchild
      cases hchild
    · intro h
      have hfails : ¬∃ child, S.created m c = some child := by simp [hnone]
      refine ⟨iff_of_false hfails ?_, fun child hchild => absurd ⟨child, hchild⟩ hfails⟩
      rintro ⟨hparent, hmissing⟩
      exact htaken hparent hmissing (h hparent hmissing ▸ hmissing)
  · constructor
    · intro h _ _
      obtain ⟨s, hs, -⟩ := resolves_iff.1 (h.resolves child hcreated)
      by_contra hne
      rw [hputs.get_of_ne _ (Ne.symm hne), hmissing] at hs
      cases hs
    · intro h
      refine ⟨iff_of_true ⟨child, hcreated⟩ ⟨hparent, hmissing⟩, fun child' hchild' => ?_⟩
      obtain ⟨s, hs, hsid⟩ := hputs.get_self
      rw [hcreated] at hchild'
      rw [resolves_iff, ← h hparent hmissing, ← Option.some.inj hchild']
      exact ⟨s, hs, hsid.trans hid.symm⟩

/-- What is stored stays, as no call deletes. -/
theorem isStored_afterSpawn (hm : K.Ok m) {id : String} (h : ∃ s, S.get m id = some (some s)) :
    ∃ s, S.get (S.afterSpawn m c) id = some (some s) := by
  rcases K.spawn_cases (c := c) hm with ⟨-, hsame, -⟩ | ⟨child, -, -, -, -, -, hputs⟩
  · rwa [hsame]
  · rcases eq_or_ne id c.2.id with rfl | hne
    · obtain ⟨s, hs, -⟩ := hputs.get_self
      exact ⟨s, hs⟩
    · rwa [hputs.get_of_ne id hne]

theorem createdKeys_cons (c : Spawn) (calls : List Spawn) :
    S.createdKeys m (c :: calls) =
      ((S.created m c).map fun _ => resolveSessionId c.1.childSessionKey).toList ++
        S.createdKeys (S.afterSpawn m c) calls := by
  simp only [SessionManager.createdKeys, outputs, SessionManager.spawnStep]
  rcases S.created m c with _ | child
  · exact List.reduceOption_cons_of_none _
  · exact List.reduceOption_cons_of_some _ _

/-- No later call succeeds with the key of a session that is stored. -/
theorem not_mem_createdKeys (hm : K.Ok m) {id : String} (h : ∃ s, S.get m id = some (some s))
    (calls : List Spawn) : id ∉ S.createdKeys m calls := by
  induction calls generalizing m with
  | nil => exact List.not_mem_nil
  | cons c calls ih =>
    rw [createdKeys_cons, List.mem_append, not_or]
    refine ⟨fun hkey => ?_, ih (K.ok_afterSpawn hm) (K.isStored_afterSpawn hm h)⟩
    obtain ⟨child, hcreated, rfl⟩ := Option.map_eq_some_iff.1 (Option.mem_toList.1 hkey)
    rcases K.spawn_cases (c := c) hm with ⟨hnone, -⟩ | ⟨-, -, -, -, hmissing, -⟩
    · rw [hnone] at hcreated
      cases hcreated
    · obtain ⟨s, hs⟩ := h
      rw [hmissing] at hs
      cases hs

theorem nodup_createdKeys (hm : K.Ok m) {calls : List Spawn}
    (h : EachStep S.afterSpawn S.Addressed m calls) : (S.createdKeys m calls).Nodup := by
  induction calls generalizing m with
  | nil => exact List.nodup_nil
  | cons c calls ih =>
    obtain ⟨hc, hcalls⟩ := h
    have hrest := ih (K.ok_afterSpawn hm) hcalls
    rw [createdKeys_cons]
    rcases hcreated : S.created m c with _ | child
    · exact hrest
    · obtain ⟨s, hs, -⟩ := resolves_iff.1 (hc.resolves child hcreated)
      exact List.nodup_cons.2
        ⟨K.not_mem_createdKeys (K.ok_afterSpawn hm) ⟨s, hs⟩ calls, hrest⟩

/-- Along a run. -/
theorem addressed_run_iff (hm : K.Ok m) (calls : List Spawn) :
    EachStep S.afterSpawn S.Addressed m calls ∧ (S.createdKeys m calls).Nodup ↔
      EachStep S.afterSpawn S.DrawsKey m calls := by
  have hsteps : ∀ {m : M}, K.Ok m → (EachStep S.afterSpawn S.Addressed m calls ↔
      EachStep S.afterSpawn S.DrawsKey m calls) := by
    induction calls with
    | nil => exact fun _ => Iff.rfl
    | cons c calls ih =>
      exact fun hm => and_congr (K.addressed_iff_drawsKey hm) (ih (K.ok_afterSpawn hm))
  rw [← hsteps hm]
  exact and_iff_left_of_imp (K.nodup_createdKeys hm)

end Keyed

/-! ## The two managers -/

theorem puts_set (m : Dict String Session) (s : Session) : inMemory.Puts m (m.set s.id s) s.id where
  get_self := ⟨s, congrArg some (Dict.get?_set_self m s.id s), rfl⟩
  get_of_ne _ hid := congrArg some (Dict.get?_set_of_ne hid m s)

def inMemoryKeyed : Keyed inMemory where
  Ok _ := True
  create_of_missing m opts id createdAt updatedAt _ := ⟨_, rfl⟩
  create m opts id createdAt updatedAt m' s _ h := by
    obtain ⟨rfl, rfl⟩ := Prod.mk.inj (Option.some.inj h)
    exact ⟨rfl, rfl, trivial, puts_set m (Session.ofAgent (opts.session id createdAt updatedAt))⟩
  save m s now _ _ := ⟨_, rfl, trivial, puts_set m { s with updatedAt := now }⟩

theorem puts_of_get {db db' : SessionDb} {s : AgentSession} {id : String}
    (hget : db'.get id = some (some s)) (hothers : ∀ id', id' ≠ id → db'.get id' = db.get id') :
    sqlite.Puts db db' id where
  get_self := ⟨_, get_sqlite hget, SessionDb.id_of_get hget⟩
  get_of_ne id' hid := congrArg (Option.map _) (hothers id' hid)

/-- `INSERT` fails on an id that is taken, and nothing else raises. -/
def sqliteKeyed : Keyed sqlite where
  Ok := SessionDb.Closed
  create_of_missing db opts id createdAt updatedAt h := by
    obtain ⟨found, hfound, hnone⟩ := Option.map_eq_some_iff.1 h
    obtain rfl := Option.map_eq_none_iff.1 hnone
    have hnew : id ∉ Dict.keys db.sessions := by
      rw [← Dict.get?_eq_none_iff]
      rcases hrow : db.sessions.get? id with _ | row
      · rfl
      · rw [SessionDb.get, hrow] at hfound
        simp [Option.bind_eq_some_iff] at hfound
    exact ⟨_, congrArg (Option.map _) (if_neg hnew)⟩
  create db opts id createdAt updatedAt db' s hclosed h := by
    obtain ⟨db'', hcreate, heq⟩ := Option.map_eq_some_iff.1 h
    obtain ⟨rfl, rfl⟩ := Prod.mk.inj heq
    exact ⟨rfl, rfl, hclosed.create hcreate, puts_of_get
      (SessionDb.get_create hclosed hcreate rfl rfl) fun id' hid =>
        SessionDb.get_create_of_ne hcreate hid⟩
  save db s now hclosed hmessages := by
    have hms : s.messages.mapM Element.message? = some [] := by
      rw [hmessages]
      rfl
    exact ⟨_, congrArg (Option.map _) hms, hclosed.save _ now, puts_of_get
      (SessionDb.get_save db (s.toAgent []) now) fun id' hid =>
        SessionDb.get_save_of_ne db (s.toAgent []) now hid⟩

/-- A run of calls succeeds where it is asked to and no key twice, each child found under its key,
exactly if every child is given, by chance, the id that is asked for. -/
theorem addressed_iff (memory : Dict String Session) {db : SessionDb} (hdb : db.Closed)
    (calls : List Spawn) :
    (EachStep inMemory.afterSpawn inMemory.Addressed memory calls ∧
        (inMemory.createdKeys memory calls).Nodup ↔
      EachStep inMemory.afterSpawn inMemory.DrawsKey memory calls) ∧
    (EachStep sqlite.afterSpawn sqlite.Addressed db calls ∧ (sqlite.createdKeys db calls).Nodup ↔
      EachStep sqlite.afterSpawn sqlite.DrawsKey db calls) :=
  ⟨inMemoryKeyed.addressed_run_iff trivial calls, sqliteKeyed.addressed_run_iff hdb calls⟩

/-- The same child key twice. -/
def twins : List Spawn :=
  [({ parentSessionKey := "s", childSessionKey := "c" }, ⟨"d", 2, 2, 2, 2⟩),
    ({ parentSessionKey := "s", childSessionKey := "c" }, ⟨"e", 3, 3, 3, 3⟩)]

theorem addressed_iff_twins :
    (EachStep inMemory.afterSpawn inMemory.Addressed greetedMemory twins ∧
        (inMemory.createdKeys greetedMemory twins).Nodup ↔
      EachStep inMemory.afterSpawn inMemory.DrawsKey greetedMemory twins) ∧
    (EachStep sqlite.afterSpawn sqlite.Addressed greetedDb twins ∧
        (sqlite.createdKeys greetedDb twins).Nodup ↔
      EachStep sqlite.afterSpawn sqlite.DrawsKey greetedDb twins) :=
  addressed_iff greetedMemory sqliteOk_greetedDb.closed twins

/-- Both calls succeed, and `c` is free after them. -/
theorem twins_not_addressed :
    ¬(EachStep inMemory.afterSpawn inMemory.Addressed greetedMemory twins ∧
        (inMemory.createdKeys greetedMemory twins).Nodup) ∧
    ¬(EachStep sqlite.afterSpawn sqlite.Addressed greetedDb twins ∧
        (sqlite.createdKeys greetedDb twins).Nodup) := by
  have hmemory : inMemory.createdKeys greetedMemory twins = ["c", "c"] := by decide +kernel
  have hdb : sqlite.createdKeys greetedDb twins = ["c", "c"] := by decide +kernel
  constructor
  · rintro ⟨-, hnodup⟩
    rw [hmemory] at hnodup
    exact absurd hnodup (by decide)
  · rintro ⟨-, hnodup⟩
    rw [hdb] at hnodup
    exact absurd hnodup (by decide)

end OxenClaw.SessionTools
