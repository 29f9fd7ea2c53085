import Mathlib.Algebra.Order.Ring.Rat
import OxenClaw.Lib.Dict
import OxenClaw.Lib.Runs

/-!
# The llama-server that is managed

`LlamaCppServer` keeps one child process for a spec. It starts a child for another spec once the old
one is killed, and does not start a spec again soon after it failed. Calls hold the lock, so they
come one after the other; a child may exit at any time, or ignore that it is killed.

Whatever has happened, a child that still runs is the one that is kept, or has ignored its kill.
Who asks for the spec of the child that runs is given its URL, and nothing else happens. Otherwise
the spec is started, exactly if no call for it that began in the last minute has failed since
`unload`; a URL is that of the child that was started, and after a failure none runs
(`run_answers`).
-/

namespace OxenClaw.Pi.LlamaCpp

/-! ## Specs -/

/-- What `LlamaCppServerSpec` has for the command line. -/
structure LlamaCppServerSpec where
  ggufPath : String
  nCtx : ℤ := 65536
  nGpuLayers : ℤ := 999
  nThreads : ℤ := -1
  nParallel : ℤ := 1
  nBatch : Option ℤ := none
  apiKey : Option String := none
  chatTemplate : Option String := none
  mmprojPath : Option String := none
  flashAttn : Bool := true
  noContextShift : Bool := true
  useJinja : Bool := true
  embedding : Bool := false
  pooling : Option String := none
  extraArgs : List String := []

/-- What `cache_key` returns. -/
structure CacheKey where
  ggufPath : String
  nCtx : ℤ
  nGpuLayers : ℤ
  nThreads : ℤ
  nParallel : ℤ
  nBatch : Option ℤ
  chatTemplate : Option String
  mmprojPath : Option String
  flashAttn : Bool
  noContextShift : Bool
  useJinja : Bool
  embedding : Bool
  pooling : Option String
  extraArgs : List String
  deriving DecidableEq

/-- `cache_key`. -/
def cacheKey (spec : LlamaCppServerSpec) : CacheKey where
  ggufPath := spec.ggufPath
  nCtx := spec.nCtx
  nGpuLayers := spec.nGpuLayers
  nThreads := spec.nThreads
  nParallel := spec.nParallel
  nBatch := spec.nBatch
  chatTemplate := spec.chatTemplate
  mmprojPath := spec.mmprojPath
  flashAttn := spec.flashAttn
  noContextShift := spec.noContextShift
  useJinja := spec.useJinja
  embedding := spec.embedding
  pooling := spec.pooling
  extraArgs := spec.extraArgs

/-- An option of the command line whose value counts only if it is not empty. -/
def flag (name : String) (value : Option String) : List String :=
  match value with
  | some v => if v = "" then [] else [name, v]
  | none => []

/-- `_build_command`. -/
def buildCommand (binary : String) (spec : LlamaCppServerSpec) (port : ℕ) : List String :=
  [binary, "-m", spec.ggufPath, "--host", "127.0.0.1", "--port", toString port, "-c",
    toString spec.nCtx, "--parallel", toString spec.nParallel, "-ngl", toString spec.nGpuLayers] ++
  (if 0 < spec.nThreads then ["--threads", toString spec.nThreads] else []) ++
  flag "-b" ((spec.nBatch.filter (· ≠ 0)).map toString) ++
  (if spec.flashAttn then ["--flash-attn", "on"] else []) ++
  (if spec.embedding then ["--embedding"] ++ flag "--pooling" spec.pooling
  else
    (if spec.noContextShift then ["--no-context-shift"] else []) ++
    (if spec.useJinja then ["--jinja"] else []) ++
    flag "--chat-template-file" spec.chatTemplate ++
    (match spec.mmprojPath with
      | some path => ["--mmproj", path]
      | none => [])) ++
  flag "--api-key" spec.apiKey ++ spec.extraArgs

/-- Specs that count as one start the same command, but for the API key. -/
theorem buildCommand_congr {spec spec' : LlamaCppServerSpec}
    (hkey : cacheKey spec = cacheKey spec') (hapi : spec.apiKey = spec'.apiKey) (binary : String)
    (port : ℕ) : buildCommand binary spec port = buildCommand binary spec' port := by
  obtain ⟨⟩ := spec
  obtain ⟨⟩ := spec'
  simp only [cacheKey, CacheKey.mk.injEq] at hkey
  obtain ⟨rfl, rfl, rfl, rfl, rfl, rfl, rfl, rfl, rfl, rfl, rfl, rfl, rfl, rfl⟩ := hkey
  obtain rfl := hapi
  rfl

/-! ## The manager -/

/-- How `_wait_for_health` ends. It is `raised` where the probe raises what is not caught. -/
inductive Health where
  | ready
  | exited
  | timedOut
  | raised
  deriving DecidableEq

/-- A child process. -/
structure Child where
  spec : LlamaCppServerSpec
  port : ℕ
  health : Health
  alive : Bool
  ignoredKill : Bool := false

/-- What a spawn comes to. It is `refused` where there is no model file, no binary, or no process
can be made, and `raised` where there is no port; `stubborn` is whether the new child would ignore
its kill. -/
inductive Launch where
  | refused
  | raised
  | started (port : ℕ) (health : Health) (stubborn : Bool)

/-- What `ensure_loaded` comes to: the URL with its port, or an error. -/
inductive Answer where
  | url (port : ℕ)
  | recent
  | failed
  | raised

inductive Entry where
  | call (spec : LlamaCppServerSpec) (now : ℚ) (answer : Answer)
  | unload

/-- The manager, with all children so far and the calls that were made. -/
structure LlamaCppServer where
  proc : Option ℕ := none
  port : Option ℕ := none
  spec : Option LlamaCppServerSpec := none
  spawnFailCache : Dict CacheKey ℚ := []
  children : List Child := []
  log : List Entry := []

inductive Event where
  /-- `stubborn` is whether the child that is kept would ignore its kill. -/
  | ensureLoaded (spec : LlamaCppServerSpec) (now : ℚ) (launch : Launch) (stubborn : Bool)
  | unload (stubborn : Bool)
  | exits (child : ℕ)

/-- `_FAIL_CACHE_TTL_S`. -/
def failCacheTtlS : ℚ := 60

/-- A child that is killed, if it runs. -/
def Child.kill (stubborn : Bool) (child : Child) : Child :=
  if child.alive then { child with alive := stubborn, ignoredKill := stubborn } else child

def Child.exit (child : Child) : Child :=
  { child with alive := false }

namespace LlamaCppServer

/-- `is_running`. -/
def isRunning (s : LlamaCppServer) : Bool :=
  s.proc.any fun n => s.children[n]?.any Child.alive

/-- `base_url`, by its port. -/
def baseUrl (s : LlamaCppServer) : Option ℕ :=
  if s.isRunning then s.port else none

/-- `_kill_locked`. -/
def kill (s : LlamaCppServer) (stubborn : Bool) : LlamaCppServer :=
  match s.proc with
  | none => s
  | some n =>
    { s with
      proc := none
      port := none
      spec := none
      children := s.children.modify n (Child.kill stubborn) }

/-- A spawn that failed is remembered, as of when the call began. -/
def fail (s : LlamaCppServer) (spec : LlamaCppServerSpec) (now : ℚ) : LlamaCppServer :=
  { s with spawnFailCache := s.spawnFailCache.set (cacheKey spec) now }

/-- A child is started and kept. -/
def start (s : LlamaCppServer) (spec : LlamaCppServerSpec) (port : ℕ) (health : Health) :
    LlamaCppServer :=
  { s with
    proc := some s.children.length
    port := some port
    spec := some spec
    children := s.children ++ [{ spec, port, health, alive := decide (health ≠ .exited) }] }

/-- `_spawn_locked`, and what `ensure_loaded` makes of its error. -/
def spawn (s : LlamaCppServer) (spec : LlamaCppServerSpec) (now : ℚ) :
    Launch → LlamaCppServer × Answer
  | .refused => (s.fail spec now, .failed)
  | .raised => (s, .raised)
  | .started port .ready _ => (s.start spec port .ready, .url port)
  | .started port .raised _ => (s.start spec port .raised, .raised)
  | .started port health stubborn =>
    (((s.start spec port health).kill stubborn).fail spec now, .failed)

/-- `ensure_loaded` where no child runs for the spec. -/
def load (s : LlamaCppServer) (spec : LlamaCppServerSpec) (now : ℚ) (launch : Launch) :
    LlamaCppServer × Answer :=
  match s.spawnFailCache.get? (cacheKey spec) with
  | some failedAt =>
    if now - failedAt < failCacheTtlS then (s, .recent) else s.spawn spec now launch
  | none => s.spawn spec now launch

/-- `ensure_loaded`. -/
def ensureLoaded (s : LlamaCppServer) (spec : LlamaCppServerSpec) (now : ℚ) (launch : Launch)
    (stubborn : Bool) : LlamaCppServer × Answer :=
  if s.isRunning then
    if s.spec.any fun kept => decide (cacheKey kept = cacheKey spec) then
      (s, s.port.elim .raised .url)
    else (s.kill stubborn).load spec now launch
  else s.load spec now launch

/-- `unload`. -/
def unload (s : LlamaCppServer) (stubborn : Bool) : LlamaCppServer :=
  { s.kill stubborn with spawnFailCache := [] }

def note (s : LlamaCppServer) (entry : Entry) : LlamaCppServer :=
  { s with log := s.log ++ [entry] }

def step (s : LlamaCppServer) : Event → LlamaCppServer
  | .ensureLoaded spec now launch stubborn =>
    (s.ensureLoaded spec now launch stubborn).1.note
      (.call spec now (s.ensureLoaded spec now launch stubborn).2)
  | .unload stubborn => (s.unload stubborn).note .unload
  | .exits n => { s with children := s.children.modify n Child.exit }

def run (events : List Event) : LlamaCppServer :=
  events.foldl step {}

/-! ## What holds of every run -/

/-- When the last call began that failed for a key, since the last `unload`. -/
def lastFailure (key : CacheKey) (log : List Entry) : Option ℚ :=
  log.foldl (fun last entry =>
    match entry with
    | .unload => none
    | .call spec now .failed => if cacheKey spec = key then some now else last
    | .call _ _ _ => last) none

/-- A call for the spec failed that began in the last minute. -/
def Remembers (s : LlamaCppServer) (spec : LlamaCppServerSpec) (now : ℚ) : Prop :=
  ∃ t ∈ lastFailure (cacheKey spec) s.log, now - t < failCacheTtlS

/-- The child that is kept runs, on this port and for this spec. It became ready, or the probe
raised. -/
def Serves (s : LlamaCppServer) (spec : LlamaCppServerSpec) (port : ℕ) : Prop :=
  ∃ n child, s.proc = some n ∧ s.children[n]? = some child ∧ child.alive = true ∧
    child.port = port ∧ cacheKey child.spec = cacheKey spec ∧
    (child.health = .ready ∨ child.health = .raised)

/-- What may be answered where no child runs for the spec, and what it leaves. -/
def Loaded (s s' : LlamaCppServer) (spec : LlamaCppServerSpec) (now : ℚ) (launch : Launch) :
    Answer → Prop
  | .url port => ¬ s.Remembers spec now ∧ s'.Serves spec port ∧ s'.proc = some s.children.length ∧
      ∃ stubborn, launch = .started port .ready stubborn
  | .recent => s.Remembers spec now ∧ s'.isRunning = false ∧
      s'.children.length = s.children.length
  | .failed => ¬ s.Remembers spec now ∧ s'.isRunning = false ∧ (launch = .refused ∨
      ∃ port health stubborn, launch = .started port health stubborn ∧
        (health = .exited ∨ health = .timedOut))
  | .raised => ¬ s.Remembers spec now ∧ (launch = .raised ∨
      s'.proc = some s.children.length ∧ ∃ port stubborn, launch = .started port .raised stubborn)

/-- A child that runs is kept, or has ignored its kill. -/
def NoneLeft (s : LlamaCppServer) : Prop :=
  ∀ n child, s.children[n]? = some child → child.alive = true →
    s.proc = some n ∨ child.ignoredKill = true

/-- The invariant of a run. -/
structure Ok (s : LlamaCppServer) : Prop where
  left : s.NoneLeft
  /-- The port and the spec are those of the child that is kept. -/
  kept : ∀ n, s.proc = some n → ∃ child, s.children[n]? = some child ∧
    s.port = some child.port ∧ s.spec = some child.spec ∧
    (child.health = .ready ∨ child.health = .raised)
  cache : ∀ key, s.spawnFailCache.get? key = lastFailure key s.log

variable {s : LlamaCppServer} {spec : LlamaCppServerSpec} {now : ℚ}

theorem lastFailure_snoc (key : CacheKey) (log : List Entry) (entry : Entry) :
    lastFailure key (log ++ [entry]) =
      match entry with
      | .unload => none
      | .call spec now .failed => if cacheKey spec = key then some now else lastFailure key log
      | .call _ _ _ => lastFailure key log := by
  rw [lastFailure, List.foldl_append]
  rfl

theorem isRunning_iff : s.isRunning = true ↔
    ∃ n child, s.proc = some n ∧ s.children[n]? = some child ∧ child.alive = true := by
  simp only [isRunning, Option.any_eq_true]
  constructor
  · rintro ⟨n, hn, child, hchild, halive⟩
    exact ⟨n, child, hn, hchild, halive⟩
  · rintro ⟨n, child, hn, hchild, halive⟩
    exact ⟨n, hn, child, hchild, halive⟩

/-! ### A child is killed or started -/

@[simp] theorem kill_proc (s : LlamaCppServer) (stubborn : Bool) :
    (s.kill stubborn).proc = none := by
  unfold kill
  split
  · assumption
  · rfl

@[simp] theorem kill_log (s : LlamaCppServer) (stubborn : Bool) :
    (s.kill stubborn).log = s.log := by
  unfold kill
  split <;> rfl

@[simp] theorem kill_spawnFailCache (s : LlamaCppServer) (stubborn : Bool) :
    (s.kill stubborn).spawnFailCache = s.spawnFailCache := by
  unfold kill
  split <;> rfl

@[simp] theorem length_kill_children (s : LlamaCppServer) (stubborn : Bool) :
    (s.kill stubborn).children.length = s.children.length := by
  unfold kill
  split
  · rfl
  · exact List.length_modify ..

@[simp] theorem isRunning_kill (s : LlamaCppServer) (stubborn : Bool) :
    (s.kill stubborn).isRunning = false := by
  rw [isRunning, kill_proc]
  rfl

theorem NoneLeft.kill (h : s.NoneLeft) (stubborn : Bool) : (s.kill stubborn).NoneLeft := by
  intro m child hm halive
  unfold LlamaCppServer.kill at hm ⊢
  split at hm
  · exact h m child hm halive
  · rename_i n hn
    refine Or.inr ?_
    rw [List.getElem?_modify] at hm
    obtain ⟨old, hold, rfl⟩ := Option.map_eq_some_iff.1 hm
    split_ifs at halive ⊢ with hnm
    · -- the child that is killed runs only if it ignores that
      unfold Child.kill at halive ⊢
      split_ifs at halive ⊢ with hrun
      · exact halive
      · exact absurd halive hrun
    · rcases h m old hold halive with hkept | hignored
      · rw [hn] at hkept
        exact absurd (Option.some.inj hkept) hnm
      · exact hignored

theorem NoneLeft.start (h : s.NoneLeft) (hidle : s.isRunning = false) (port : ℕ)
    (health : Health) : (s.start spec port health).NoneLeft := by
  intro m child hm halive
  rcases Nat.lt_or_ge m s.children.length with hlt | hge
  · have hold : s.children[m]? = some child := by
      rwa [LlamaCppServer.start, List.getElem?_append_left hlt] at hm
    rcases h m child hold halive with hkept | hignored
    · rw [isRunning_iff.2 ⟨m, child, hkept, hold, halive⟩] at hidle
      cases hidle
    · exact Or.inr hignored
  · obtain ⟨hm', -⟩ := List.getElem?_eq_some_iff.1 hm
    rw [LlamaCppServer.start, List.length_append, List.length_singleton] at hm'
    obtain rfl : m = s.children.length := by omega
    exact Or.inl rfl

theorem Ok.kill (h : Ok s) (stubborn : Bool) : Ok (s.kill stubborn) where
  left := h.left.kill stubborn
  kept n hn := by
    rw [kill_proc] at hn
    cases hn
  cache key := by
    rw [kill_spawnFailCache, kill_log]
    exact h.cache key

/-- A child that did not become ready is started and killed. -/
theorem Ok.start_kill (h : Ok s) (hidle : s.isRunning = false) (port : ℕ) (health : Health)
    (stubborn : Bool) : Ok ((s.start spec port health).kill stubborn) where
  left := (h.left.start hidle port health).kill stubborn
  kept n hn := by
    rw [kill_proc] at hn
    cases hn
  cache key := by
    rw [kill_spawnFailCache, kill_log]
    exact h.cache key

theorem getElem?_start (s : LlamaCppServer) (spec : LlamaCppServerSpec) (port : ℕ)
    (health : Health) : (s.start spec port health).children[s.children.length]? =
      some { spec, port, health, alive := decide (health ≠ .exited) } := by
  rw [start]
  exact List.getElem?_concat_length ..

theorem Ok.start (h : Ok s) (hidle : s.isRunning = false) (port : ℕ) {health : Health}
    (hhealth : health = .ready ∨ health = .raised) : Ok (s.start spec port health) where
  left := h.left.start hidle port health
  kept n hn := by
    obtain rfl := Option.some.inj hn
    exact ⟨_, getElem?_start s spec port health, rfl, rfl, hhealth⟩
  cache := h.cache

/-! ### The calls -/

/-- An answer that is no failure is not remembered. -/
theorem Ok.note (h : Ok s) {answer : Answer} (hanswer : answer ≠ .failed) :
    Ok (s.note (.call spec now answer)) where
  left := h.left
  kept := h.kept
  cache key := by
    rw [LlamaCppServer.note, lastFailure_snoc]
    rcases answer with _ | _ | _ | _
    · exact h.cache key
    · exact h.cache key
    · exact absurd rfl hanswer
    · exact h.cache key

theorem Ok.fail (h : Ok s) : Ok ((s.fail spec now).note (.call spec now .failed)) where
  left := h.left
  kept := h.kept
  cache key := by
    rw [LlamaCppServer.note, lastFailure_snoc]
    simp only [LlamaCppServer.fail]
    rw [Dict.get?_set, h.cache key]
    simp only [eq_comm]

theorem spawn_ok (h : Ok s) (hidle : s.isRunning = false) (launch : Launch) :
    Ok ((s.spawn spec now launch).1.note (.call spec now (s.spawn spec now launch).2)) := by
  rcases launch with _ | _ | ⟨port, health, stubborn⟩
  · exact h.fail
  · exact h.note Answer.noConfusion
  · rcases health with _ | _ | _ | _
    · exact (h.start hidle port (Or.inl rfl)).note Answer.noConfusion
    · exact (h.start_kill hidle port .exited stubborn).fail
    · exact (h.start_kill hidle port .timedOut stubborn).fail
    · exact (h.start hidle port (Or.inr rfl)).note Answer.noConfusion

theorem load_ok (h : Ok s) (hidle : s.isRunning = false) (launch : Launch) :
    Ok ((s.load spec now launch).1.note (.call spec now (s.load spec now launch).2)) := by
  unfold load
  split
  · split_ifs
    · exact h.note Answer.noConfusion
    · exact spawn_ok h hidle launch
  · exact spawn_ok h hidle launch

theorem isRunning_fail (hidle : s.isRunning = false) : (s.fail spec now).isRunning = false :=
  hidle

/-- What a spawn answers where no failure is remembered. -/
theorem spawn_loaded (hidle : s.isRunning = false) (hfresh : ¬ s.Remembers spec now)
    (launch : Launch) :
    Loaded s (s.spawn spec now launch).1 spec now launch (s.spawn spec now launch).2 := by
  rcases launch with _ | _ | ⟨port, health, stubborn⟩
  · exact ⟨hfresh, isRunning_fail hidle, Or.inl rfl⟩
  · exact ⟨hfresh, Or.inl rfl⟩
  · rcases health with _ | _ | _ | _
    · exact ⟨hfresh, ⟨_, _, rfl, getElem?_start s spec port .ready, rfl, rfl, rfl, Or.inl rfl⟩, rfl,
        stubborn, rfl⟩
    · exact ⟨hfresh, isRunning_fail (isRunning_kill _ _),
        Or.inr ⟨port, _, stubborn, rfl, Or.inl rfl⟩⟩
    · exact ⟨hfresh, isRunning_fail (isRunning_kill _ _),
        Or.inr ⟨port, _, stubborn, rfl, Or.inr rfl⟩⟩
    · exact ⟨hfresh, Or.inr ⟨rfl, port, stubborn, rfl⟩⟩

theorem load_loaded (h : Ok s) (hidle : s.isRunning = false) (launch : Launch) :
    Loaded s (s.load spec now launch).1 spec now launch (s.load spec now launch).2 := by
  have hlast := h.cache (cacheKey spec)
  unfold load
  split
  · rename_i failedAt hget
    rw [hget] at hlast
    split_ifs with hrecent
    · exact ⟨⟨failedAt, hlast.symm, hrecent⟩, hidle, rfl⟩
    · refine spawn_loaded hidle ?_ launch
      rintro ⟨t, ht, hlt⟩
      rw [← hlast] at ht
      obtain rfl := Option.some.inj ht
      exact hrecent hlt
  · rename_i hget
    rw [hget] at hlast
    refine spawn_loaded hidle ?_ launch
    rintro ⟨t, ht, -⟩
    rw [← hlast] at ht
    cases ht

/-- The child that ran before is killed first. -/
theorem Loaded.of_kill {s' : LlamaCppServer} {launch : Launch} {answer : Answer} {stubborn : Bool}
    (h : Loaded (s.kill stubborn) s' spec now launch answer) :
    Loaded s s' spec now launch answer := by
  have hremembers : (s.kill stubborn).Remembers spec now ↔ s.Remembers spec now := by
    rw [Remembers, Remembers, kill_log]
  rcases answer with _ | _ | _ | _ <;>
    simpa only [Loaded, hremembers, length_kill_children] using h

theorem serves_iff (h : Ok s) : (∃ port, s.Serves spec port) ↔ s.isRunning = true ∧
    (s.spec.any fun kept => decide (cacheKey kept = cacheKey spec)) = true := by
  rw [isRunning_iff]
  constructor
  · rintro ⟨port, n, child, hn, hchild, halive, -, hkey, -⟩
    obtain ⟨child', hchild', -, hspec, -⟩ := h.kept n hn
    obtain rfl := Option.some.inj (hchild.symm.trans hchild')
    exact ⟨⟨n, child, hn, hchild, halive⟩, by rw [hspec]; simpa using hkey⟩
  · rintro ⟨⟨n, child, hn, hchild, halive⟩, hkey⟩
    obtain ⟨child', hchild', -, hspec, hhealth⟩ := h.kept n hn
    obtain rfl := Option.some.inj (hchild.symm.trans hchild')
    rw [hspec] at hkey
    exact ⟨child.port, n, child, hn, hchild, halive, rfl, by simpa using hkey, hhealth⟩

theorem baseUrl_eq_some_iff (h : Ok s) (port : ℕ) :
    s.baseUrl = some port ↔ ∃ spec, s.Serves spec port := by
  rw [baseUrl]
  constructor
  · intro hport
    split_ifs at hport with hrun
    obtain ⟨n, child, hn, hchild, halive⟩ := isRunning_iff.1 hrun
    obtain ⟨child', hchild', hport', -, hhealth⟩ := h.kept n hn
    obtain rfl := Option.some.inj (hchild.symm.trans hchild')
    exact ⟨child.spec, n, child, hn, hchild, halive, Option.some.inj (hport'.symm.trans hport), rfl,
      hhealth⟩
  · rintro ⟨spec, n, child, hn, hchild, halive, hport, -, -⟩
    obtain ⟨child', hchild', hport', -, -⟩ := h.kept n hn
    obtain rfl := Option.some.inj (hchild.symm.trans hchild')
    rw [if_pos (isRunning_iff.2 ⟨n, child, hn, hchild, halive⟩), hport', hport]

theorem ensureLoaded_of_serves (h : Ok s) {port : ℕ} (hserves : s.Serves spec port)
    (launch : Launch) (stubborn : Bool) :
    s.ensureLoaded spec now launch stubborn = (s, .url port) := by
  obtain ⟨hrun, hkey⟩ := (serves_iff h).1 ⟨port, hserves⟩
  obtain ⟨n, child, hn, hchild, -, hport, -, -⟩ := hserves
  obtain ⟨child', hchild', hport', -, -⟩ := h.kept n hn
  obtain rfl := Option.some.inj (hchild.symm.trans hchild')
  rw [ensureLoaded, if_pos hrun, if_pos hkey, hport', hport]
  rfl

/-- Where no child runs for the spec, `ensure_loaded` loads it in a state in which none runs. -/
theorem ensureLoaded_of_not_serves (h : Ok s) (hserves : ∀ port, ¬ s.Serves spec port)
    (now : ℚ) (launch : Launch) (stubborn : Bool) :
    (s.isRunning = false ∧ s.ensureLoaded spec now launch stubborn = s.load spec now launch) ∨
    s.ensureLoaded spec now launch stubborn = (s.kill stubborn).load spec now launch := by
  unfold ensureLoaded
  split_ifs with hrun hkey
  · obtain ⟨port, hport⟩ := (serves_iff h).2 ⟨hrun, hkey⟩
    exact absurd hport (hserves port)
  · exact Or.inr rfl
  · exact Or.inl ⟨Bool.eq_false_iff.2 hrun, rfl⟩

theorem ensureLoaded_loaded (h : Ok s) (hserves : ∀ port, ¬ s.Serves spec port)
    (launch : Launch) (stubborn : Bool) :
    Loaded s (s.ensureLoaded spec now launch stubborn).1 spec now launch
      (s.ensureLoaded spec now launch stubborn).2 := by
  rcases ensureLoaded_of_not_serves h hserves now launch stubborn with ⟨hidle, he⟩ | he
  · rw [he]
    exact load_loaded h hidle launch
  · rw [he]
    exact (load_loaded (h.kill stubborn) (isRunning_kill _ _) launch).of_kill

/-! ### The run -/

theorem ensureLoaded_ok (h : Ok s) (launch : Launch) (stubborn : Bool) :
    Ok (s.step (.ensureLoaded spec now launch stubborn)) := by
  rw [step]
  by_cases hserves : ∃ port, s.Serves spec port
  · obtain ⟨port, hport⟩ := hserves
    rw [ensureLoaded_of_serves h hport]
    exact h.note Answer.noConfusion
  · rw [not_exists] at hserves
    rcases ensureLoaded_of_not_serves h hserves now launch stubborn with ⟨hidle, he⟩ | he
    · rw [he]
      exact load_ok h hidle launch
    · rw [he]
      exact load_ok (h.kill stubborn) (isRunning_kill _ _) launch

theorem unload_ok (h : Ok s) (stubborn : Bool) : Ok (s.step (.unload stubborn)) where
  left := h.left.kill stubborn
  kept := (h.kill stubborn).kept
  cache key := by
    rw [step, note, lastFailure_snoc]
    rfl

theorem exits_ok (h : Ok s) (n : ℕ) : Ok (s.step (.exits n)) where
  left m child hm halive := by
    rw [step, List.getElem?_modify] at hm
    obtain ⟨old, hold, rfl⟩ := Option.map_eq_some_iff.1 hm
    split_ifs at halive ⊢
    · cases halive
    · exact h.left m old hold halive
  kept m hm := by
    obtain ⟨child, hchild, hport, hspec, hhealth⟩ := h.kept m hm
    rw [step, List.getElem?_modify, hchild]
    refine ⟨_, rfl, ?_⟩
    split_ifs
    · exact ⟨hport, hspec, hhealth⟩
    · exact ⟨hport, hspec, hhealth⟩
  cache := h.cache

theorem step_ok (s : LlamaCppServer) (event : Event) (h : Ok s) : Ok (s.step event) := by
  rcases event with ⟨spec, now, launch, stubborn⟩ | stubborn | n
  · exact ensureLoaded_ok h launch stubborn
  · exact unload_ok h stubborn
  · exact exits_ok h n

theorem run_ok (events : List Event) : Ok (run events) := by
  refine foldl_invariant step_ok ?_ events
  exact ⟨by simp [NoneLeft], by simp, fun key => rfl⟩

/-- After every run. -/
theorem run_answers (events : List Event) (spec : LlamaCppServerSpec) (now : ℚ) (launch : Launch)
    (stubborn : Bool) : (run events).NoneLeft ∧
    (∀ port, (run events).baseUrl = some port ↔ ∃ spec', (run events).Serves spec' port) ∧
    (∀ port, (run events).Serves spec port →
      (run events).ensureLoaded spec now launch stubborn = (run events, .url port)) ∧
    ((∀ port, ¬ (run events).Serves spec port) →
      Loaded (run events) ((run events).ensureLoaded spec now launch stubborn).1 spec now launch
        ((run events).ensureLoaded spec now launch stubborn).2) := by
  have hok := run_ok events
  refine ⟨hok.left, baseUrl_eq_some_iff hok, fun port hport => ?_, fun hserves => ?_⟩
  · exact ensureLoaded_of_serves hok hport launch stubborn
  · exact ensureLoaded_loaded hok hserves launch stubborn

end LlamaCppServer

end OxenClaw.Pi.LlamaCpp
