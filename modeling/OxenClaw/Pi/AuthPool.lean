import Mathlib.Algebra.Order.Field.Rat
import Mathlib.Data.List.MinMax
import Mathlib.Data.List.Rotate
import Mathlib.Data.NNRat.Defs
import OxenClaw.Lib.Dict
import OxenClaw.Lib.Runs

/-!
# Auth-key pools

`AuthKeyPool` rotates the keys of a provider. A failure cools a key down, for as long as the
provider asked with its `Retry-After` where it did, and `get` passes over a key that cools.

Beside the pool a run keeps what it owes the providers : the deadlines they set for a key
since its last success (`PoolRun.deadlines`), and with each key handed out the deadlines that
stood against it then. A report is heard (`PoolRun.Heard`) if no deadline is lost by it. Two
reports that are not : one that comes within five seconds of the last, which is dropped with
the deadline it carries, and one that asks for less than an earlier one, which overwrites it.
-/

namespace OxenClaw

/-- `PoolStrategy`. -/
inductive PoolStrategy where
  | roundRobin
  | fillFirst
  | leastUsed
  | random
  deriving DecidableEq

/-- One key in a per-provider rotation. -/
structure PoolEntry where
  keyId : String
  apiKey : String
  failureCount : ℕ := 0
  lastFailureTs : Option ℚ := none
  cooldownUntil : ℚ := 0
  useCount : ℕ := 0

namespace PoolEntry

/-- `is_alive`, at the time `now`. -/
def isAlive (e : PoolEntry) (now : ℚ) : Bool :=
  decide (e.cooldownUntil ≤ now)

/-- A failure within five seconds of the last one is not counted. -/
def coalesces (e : PoolEntry) (now : ℚ) : Bool :=
  e.lastFailureTs.any fun last => decide (now - last < 5)

/-- The cap on a provider's `Retry-After`, in seconds. -/
def retryAfterCap : ℚ := 3600

/-- How long the next failure cools a key down. -/
def cooldown (e : PoolEntry) (cooldownSeconds : ℚ) (retryAfterSeconds : Option ℚ) : ℚ :=
  match retryAfterSeconds.filter (0 < ·) with
  | some r => min r retryAfterCap
  | none => cooldownSeconds * if 3 ≤ e.failureCount + 1 then 5 else 1

/-- A failure that is counted. -/
def fail (e : PoolEntry) (cooldownSeconds now : ℚ) (retryAfterSeconds : Option ℚ) : PoolEntry :=
  { e with
    failureCount := e.failureCount + 1
    lastFailureTs := some now
    cooldownUntil := now + e.cooldown cooldownSeconds retryAfterSeconds }

/-- `use_count += 1`. -/
def use (e : PoolEntry) : PoolEntry :=
  { e with useCount := e.useCount + 1 }

/-- A success ends a streak of failures. -/
def succeed (e : PoolEntry) : PoolEntry :=
  if e.failureCount = 0 then e else { e with failureCount := 0, cooldownUntil := 0 }

end PoolEntry

/-- Multi-strategy pool with cooldown on failure. -/
structure AuthKeyPool where
  cooldownSeconds : ℚ := 60
  strategy : PoolStrategy := .roundRobin
  byProvider : Dict String (List PoolEntry) := []
  cursor : Dict String ℕ := []
  lockedKeyId : Dict String String := []

namespace AuthKeyPool

/-- `by_provider.get(provider, [])`. -/
def entries (p : AuthKeyPool) (provider : String) : List PoolEntry :=
  (p.byProvider.get? provider).getD []

/-- The entries of a provider changed in place. -/
def update (p : AuthKeyPool) (provider : String) (f : List PoolEntry → List PoolEntry) :
    AuthKeyPool :=
  { p with byProvider := p.byProvider.map fun e => (e.1, if e.1 = provider then f e.2 else e.2) }

def add (p : AuthKeyPool) (provider keyId apiKey : String) : AuthKeyPool :=
  { p with
    byProvider := p.byProvider.set provider (p.entries provider ++ [{ keyId, apiKey }]) }

def lock (p : AuthKeyPool) (provider keyId : String) : AuthKeyPool :=
  { p with lockedKeyId := p.lockedKeyId.set provider keyId }

def unlock (p : AuthKeyPool) (provider : String) : AuthKeyPool :=
  { p with lockedKeyId := p.lockedKeyId.erase provider }

/-- The key a lock pins, with its index. -/
def pinned (p : AuthKeyPool) (provider : String) : Option (PoolEntry × ℕ) :=
  (p.lockedKeyId.get? provider).bind fun lockedId =>
    (p.entries provider).zipIdx.find? fun e => e.1.keyId = lockedId

/-- The alive key the strategy picks, with its index. A random choice is an index `choice`. -/
def pick (p : AuthKeyPool) (provider : String) (now : ℚ) (choice : ℕ) : Option (PoolEntry × ℕ) :=
  let entries := (p.entries provider).zipIdx
  let alive := entries.filter fun e => e.1.isAlive now
  match p.strategy with
  | .fillFirst => alive.head?
  | .leastUsed => alive.argmin fun e => e.1.useCount
  | .random => alive[choice % alive.length]?
  | .roundRobin =>
    (entries.rotate ((p.cursor.get? provider).getD 0 % entries.length)).find? fun e =>
      e.1.isAlive now

/-- Round robin goes on after the key it picked. -/
def advance (p : AuthKeyPool) (provider : String) (idx : ℕ) : AuthKeyPool :=
  if p.strategy = .roundRobin then
    { p with cursor := p.cursor.set provider ((idx + 1) % (p.entries provider).length) }
  else p

/-- `get` at the time `now` : the key handed out, and the pool after. -/
def get (p : AuthKeyPool) (provider : String) (now : ℚ) (choice : ℕ) :
    Option (String × String) × AuthKeyPool :=
  match p.pinned provider with
  | some (e, idx) =>
    (some (e.keyId, e.apiKey), p.update provider fun es => es.modify idx PoolEntry.use)
  | none =>
    match p.pick provider now choice with
    | none => (none, p)
    | some (e, idx) =>
      (some (e.keyId, e.apiKey),
        (p.advance provider idx).update provider fun es => es.modify idx PoolEntry.use)

/-- The loop of `report_failure`, which stops at the first key of that id. -/
def failFirst (cooldownSeconds : ℚ) (keyId : String) (now : ℚ) (retryAfterSeconds : Option ℚ) :
    List PoolEntry → List PoolEntry
  | [] => []
  | e :: es =>
    if e.keyId ≠ keyId then e :: failFirst cooldownSeconds keyId now retryAfterSeconds es
    else if e.coalesces now then e :: es
    else e.fail cooldownSeconds now retryAfterSeconds :: es

def reportFailure (p : AuthKeyPool) (provider keyId : String) (now : ℚ)
    (retryAfterSeconds : Option ℚ) : AuthKeyPool :=
  p.update provider (failFirst p.cooldownSeconds keyId now retryAfterSeconds)

def reportSuccess (p : AuthKeyPool) (provider keyId : String) : AuthKeyPool :=
  p.update provider fun es => es.map fun e => if e.keyId = keyId then e.succeed else e

/-! ## What an operation does to the entries -/

theorem entries_update (p : AuthKeyPool) (provider : String)
    {f : List PoolEntry → List PoolEntry} (hf : f [] = []) (q : String) :
    (p.update provider f).entries q = if q = provider then f (p.entries q) else p.entries q := by
  rw [entries, entries, update, Dict.get?_map fun k es => if k = provider then f es else es]
  cases p.byProvider.get? q with
  | none =>
    split_ifs
    · exact hf.symm
    · rfl
  | some es => rfl

theorem entries_add (p : AuthKeyPool) (provider keyId apiKey q : String) :
    (p.add provider keyId apiKey).entries q =
      if q = provider then p.entries q ++ [{ keyId := keyId, apiKey := apiKey }]
      else p.entries q := by
  rw [entries, add, Dict.get?_set]
  split_ifs with h
  · rw [h]
    rfl
  · rfl

theorem entries_advance (p : AuthKeyPool) (provider : String) (idx : ℕ) (q : String) :
    (p.advance provider idx).entries q = p.entries q := by
  unfold advance
  split_ifs
  · rfl
  · rfl

/-- Counting a use changes neither a key's name nor its cooldown. -/
theorem exists_of_mem_use {p : AuthKeyPool} {provider q : String} {idx : ℕ} {e : PoolEntry}
    (h : e ∈ (p.update provider fun es => es.modify idx PoolEntry.use).entries q) :
    ∃ e' ∈ p.entries q, e'.keyId = e.keyId ∧ e'.cooldownUntil = e.cooldownUntil := by
  have hmodify : ∀ es : List PoolEntry, e ∈ es.modify idx PoolEntry.use →
      ∃ e' ∈ es, e'.keyId = e.keyId ∧ e'.cooldownUntil = e.cooldownUntil := by
    intro es hmem
    obtain ⟨i, hi, rfl⟩ := List.getElem_of_mem hmem
    rw [List.length_modify] at hi
    refine ⟨es[i], List.getElem_mem hi, ?_⟩
    rw [List.getElem_modify]
    split_ifs
    · exact ⟨rfl, rfl⟩
    · exact ⟨rfl, rfl⟩
  have hnil : (fun es : List PoolEntry => es.modify idx PoolEntry.use) [] = [] :=
    List.modify_nil _ _
  rw [entries_update p provider (f := fun es => es.modify idx PoolEntry.use) hnil] at h
  split_ifs at h
  · exact hmodify _ h
  · exact ⟨e, h, rfl, rfl⟩

theorem exists_of_mem_get {p : AuthKeyPool} {provider q : String} {now : ℚ} {choice : ℕ}
    {e : PoolEntry} (h : e ∈ (p.get provider now choice).2.entries q) :
    ∃ e' ∈ p.entries q, e'.keyId = e.keyId ∧ e'.cooldownUntil = e.cooldownUntil := by
  unfold get at h
  split at h
  · exact exists_of_mem_use h
  · split at h
    · exact ⟨e, h, rfl, rfl⟩
    · rename_i idx _
      have huse := exists_of_mem_use h
      rwa [entries_advance] at huse

/-- What the strategies pick is one of the provider's keys, and alive. -/
theorem mem_of_pick {p : AuthKeyPool} {provider : String} {now : ℚ} {choice : ℕ} {e : PoolEntry}
    {idx : ℕ} (h : p.pick provider now choice = some (e, idx)) :
    e ∈ p.entries provider ∧ e.cooldownUntil ≤ now := by
  have halive : (e, idx) ∈ (p.entries provider).zipIdx ∧ e.isAlive now = true := by
    unfold pick at h
    split at h
    · exact List.mem_filter.1 (List.mem_of_mem_head? h)
    · exact List.mem_filter.1 (List.argmin_mem h)
    · exact List.mem_filter.1 (List.mem_of_getElem? h)
    · have hfind := List.find?_some h
      exact ⟨List.mem_rotate.1 (List.mem_of_find?_eq_some h), hfind⟩
  exact ⟨List.fst_mem_of_mem_zipIdx halive.1, of_decide_eq_true halive.2⟩

/-- A key that `get` hands out is pinned or alive. -/
theorem mem_of_get {p : AuthKeyPool} {provider : String} {now : ℚ} {choice : ℕ}
    {key : String × String} (h : (p.get provider now choice).1 = some key) :
    p.lockedKeyId.get? provider = some key.1 ∨
      ∃ e ∈ p.entries provider, e.keyId = key.1 ∧ e.cooldownUntil ≤ now := by
  unfold get at h
  split at h
  · rename_i e idx hpinned
    obtain ⟨lockedId, hlocked, hfind⟩ := Option.bind_eq_some_iff.1 hpinned
    have hid : e.keyId = lockedId := by simpa using List.find?_some hfind
    rw [← Option.some.inj h, hlocked, hid]
    exact Or.inl rfl
  · split at h
    · cases h
    · rename_i e idx hpick
      obtain ⟨hmem, halive⟩ := mem_of_pick hpick
      rw [← Option.some.inj h]
      exact Or.inr ⟨e, hmem, rfl, halive⟩

/-- The keys after a failure : of another id, the reported one, or one behind it. -/
theorem mem_failFirst {cooldownSeconds now : ℚ} {keyId : String} {r : Option ℚ}
    {e : PoolEntry} {es : List PoolEntry}
    (h : e ∈ failFirst cooldownSeconds keyId now r es) : e.keyId ≠ keyId ∧ e ∈ es ∨
      ∃ e' others, es.dropWhile (fun x => x.keyId ≠ keyId) = e' :: others ∧ e.keyId = keyId ∧
        (e ∈ others ∨ e = if e'.coalesces now then e' else e'.fail cooldownSeconds now r) := by
  induction es with
  | nil => cases h
  | cons x es ih =>
    rw [failFirst] at h
    by_cases hx : x.keyId = keyId
    · rw [if_neg (not_not.2 hx)] at h
      have hdrop : (x :: es).dropWhile (fun x => x.keyId ≠ keyId) = x :: es :=
        List.dropWhile_cons_of_neg (by simpa using hx)
      by_cases hid : e.keyId = keyId
      · refine Or.inr ⟨x, es, hdrop, hid, ?_⟩
        split_ifs at h ⊢
        · exact (List.mem_cons.1 h).symm
        · exact (List.mem_cons.1 h).symm
      · have hne : e ≠ x ∧ e ≠ x.fail cooldownSeconds now r :=
          ⟨fun he => hid (he ▸ hx), fun he => hid (he ▸ hx)⟩
        refine Or.inl ⟨hid, List.mem_cons_of_mem _ ?_⟩
        split_ifs at h
        · exact (List.mem_cons.1 h).resolve_left hne.1
        · exact (List.mem_cons.1 h).resolve_left hne.2
    · rw [if_pos hx] at h
      rcases List.mem_cons.1 h with rfl | h
      · exact Or.inl ⟨hx, List.mem_cons_self⟩
      · rw [List.dropWhile_cons_of_pos (by simpa using hx)]
        exact (ih h).imp_left fun h => ⟨h.1, List.mem_cons_of_mem _ h.2⟩

end AuthKeyPool

/-! ## Runs against what the providers asked for -/

/-- A deadline before which a key is not to be used. -/
structure Mandate where
  provider : String
  keyId : String
  deadline : ℚ

/-- A key handed out, with the deadlines that stood against it. -/
structure Handout where
  provider : String
  keyId : String
  time : ℚ
  deadlines : List ℚ
  deriving DecidableEq

/-- A pool, the clock, and what happened to its keys. -/
structure PoolRun where
  pool : AuthKeyPool
  now : ℚ
  mandates : List Mandate := []
  handouts : List Handout := []

inductive PoolOp where
  | get (provider : String) (choice : ℕ)
  | reportFailure (provider keyId : String) (retryAfterSeconds : Option ℚ)
  | reportSuccess (provider keyId : String)
  | add (provider keyId apiKey : String)
  | lock (provider keyId : String)
  | unlock (provider : String)

/-- An operation, after a while. -/
structure PoolEvent where
  wait : ℚ≥0
  op : PoolOp

/-- The deadline a failure with a `Retry-After` sets. -/
def mandate (now : ℚ) (retryAfterSeconds : Option ℚ) : Option ℚ :=
  retryAfterSeconds.map fun r => now + min r PoolEntry.retryAfterCap

namespace PoolRun

/-- The deadlines that stand against a key. -/
def deadlines (s : PoolRun) (provider keyId : String) : List ℚ :=
  (s.mandates.filter fun m => m.provider = provider ∧ m.keyId = keyId).map Mandate.deadline

def wait (s : PoolRun) (time : ℚ≥0) : PoolRun :=
  { s with now := s.now + time }

def perform (s : PoolRun) : PoolOp → PoolRun
  | .get provider choice =>
    { s with
      pool := (s.pool.get provider s.now choice).2
      handouts := s.handouts ++ (s.pool.get provider s.now choice).1.toList.map fun key =>
        ⟨provider, key.1, s.now, s.deadlines provider key.1⟩ }
  | .reportFailure provider keyId r =>
    { s with
      pool := s.pool.reportFailure provider keyId s.now r
      mandates := s.mandates ++ (mandate s.now r).toList.map (⟨provider, keyId, ·⟩) }
  | .reportSuccess provider keyId =>
    { s with
      pool := s.pool.reportSuccess provider keyId
      mandates := s.mandates.filter fun m => ¬(m.provider = provider ∧ m.keyId = keyId) }
  | .add provider keyId apiKey => { s with pool := s.pool.add provider keyId apiKey }
  | .lock provider keyId => { s with pool := s.pool.lock provider keyId }
  | .unlock provider => { s with pool := s.pool.unlock provider }

def step (s : PoolRun) (e : PoolEvent) : PoolRun :=
  (s.wait e.wait).perform e.op

/-- No key was handed out before a deadline that stood against it. -/
def Honoured (s : PoolRun) : Prop :=
  ∀ h ∈ s.handouts, ∀ d ∈ h.deadlines, d ≤ h.time

/-- The report of a failure loses no deadline : one that is coalesced asks for nothing that the
key does not do already, one that is counted asks for no less than the others, and further keys
under the same id, which no report reaches, cool for as long. -/
def FailureHeard (s : PoolRun) (provider keyId : String) (r : Option ℚ) : Prop :=
  let named := (s.pool.entries provider).dropWhile fun e => e.keyId ≠ keyId
  (∀ e ∈ named.head?,
    if e.coalesces s.now then ∀ d ∈ mandate s.now r, d ≤ max s.now e.cooldownUntil
    else ∀ d ∈ s.deadlines provider keyId,
      d ≤ max s.now (s.now + e.cooldown s.pool.cooldownSeconds r)) ∧
  ∀ e ∈ named.tail, e.keyId = keyId → ∀ d ∈ mandate s.now r, d ≤ max s.now e.cooldownUntil

instance (s : PoolRun) (provider keyId : String) (r : Option ℚ) :
    Decidable (s.FailureHeard provider keyId r) :=
  inferInstanceAs (Decidable (_ ∧ _))

/-- When an operation keeps the deadlines. A pinned key is handed out even if it cools, and a
key that is added starts out alive. -/
def OpHeard (s : PoolRun) : PoolOp → Prop
  | .get provider _ => ∀ keyId ∈ s.pool.lockedKeyId.get? provider,
      ∀ d ∈ s.deadlines provider keyId, d ≤ s.now
  | .reportFailure provider keyId r => s.FailureHeard provider keyId r
  | .add provider keyId _ => ∀ d ∈ s.deadlines provider keyId, d ≤ s.now
  | _ => True

instance (s : PoolRun) : (op : PoolOp) → Decidable (s.OpHeard op)
  | .get provider _ => inferInstanceAs (Decidable (∀ keyId ∈ s.pool.lockedKeyId.get? provider,
      ∀ d ∈ s.deadlines provider keyId, d ≤ s.now))
  | .reportFailure provider keyId r =>
    inferInstanceAs (Decidable (s.FailureHeard provider keyId r))
  | .add provider keyId _ =>
    inferInstanceAs (Decidable (∀ d ∈ s.deadlines provider keyId, d ≤ s.now))
  | .reportSuccess _ _ | .lock _ _ | .unlock _ => .isTrue trivial

def Heard (s : PoolRun) (e : PoolEvent) : Prop :=
  (s.wait e.wait).OpHeard e.op

instance (s : PoolRun) (e : PoolEvent) : Decidable (s.Heard e) :=
  inferInstanceAs (Decidable ((s.wait e.wait).OpHeard e.op))

/-- Every key cools as long as its deadlines ask. -/
def Cooled (s : PoolRun) : Prop :=
  ∀ provider, ∀ e ∈ s.pool.entries provider, ∀ d ∈ s.deadlines provider e.keyId,
    d ≤ max s.now e.cooldownUntil

/-! ## One operation -/

theorem Cooled.wait {s : PoolRun} (h : s.Cooled) (time : ℚ≥0) : (s.wait time).Cooled := by
  intro provider e he d hd
  have hnow : s.now ≤ s.now + time := le_add_of_nonneg_right time.2
  exact (h provider e he d hd).trans (max_le_max_right _ hnow)

theorem mem_deadlines {s : PoolRun} {provider keyId : String} {d : ℚ} :
    d ∈ s.deadlines provider keyId ↔ (⟨provider, keyId, d⟩ : Mandate) ∈ s.mandates := by
  constructor
  · intro h
    obtain ⟨⟨provider', keyId', d'⟩, hm, rfl⟩ := List.mem_map.1 h
    obtain ⟨hmem, hkey⟩ := List.mem_filter.1 hm
    obtain ⟨rfl, rfl⟩ := of_decide_eq_true hkey
    exact hmem
  · intro h
    exact List.mem_map.2 ⟨_, List.mem_filter.2 ⟨h, decide_eq_true ⟨rfl, rfl⟩⟩, rfl⟩

/-- A failure adds its own deadline to those of its key. -/
theorem mem_deadlines_reportFailure {s : PoolRun} {provider keyId q k : String} {r : Option ℚ}
    {d : ℚ} (h : d ∈ (s.perform (.reportFailure provider keyId r)).deadlines q k) :
    d ∈ s.deadlines q k ∨ q = provider ∧ k = keyId ∧ d ∈ mandate s.now r := by
  rcases List.mem_append.1 (mem_deadlines.1 h) with h | h
  · exact Or.inl (mem_deadlines.2 h)
  · obtain ⟨d', hd', heq⟩ := List.mem_map.1 h
    obtain ⟨rfl, rfl, rfl⟩ := Mandate.mk.inj heq
    exact Or.inr ⟨rfl, rfl, Option.mem_toList.1 hd'⟩

/-- A success leaves the deadlines of the other keys. -/
theorem mem_deadlines_reportSuccess {s : PoolRun} {provider keyId q k : String} {d : ℚ}
    (h : d ∈ (s.perform (.reportSuccess provider keyId)).deadlines q k) :
    d ∈ s.deadlines q k ∧ ¬(q = provider ∧ k = keyId) := by
  obtain ⟨hmem, hkey⟩ := List.mem_filter.1 (mem_deadlines.1 h)
  exact ⟨mem_deadlines.2 hmem, of_decide_eq_true hkey⟩

/-- The deadline a counted failure sets is no later than the cooldown it starts. -/
theorem mandate_le_cooldown {now d : ℚ} {r : Option ℚ} (h : d ∈ mandate now r) (e : PoolEntry)
    (cooldownSeconds : ℚ) : d ≤ max now (now + e.cooldown cooldownSeconds r) := by
  obtain ⟨r, rfl, rfl⟩ := Option.map_eq_some_iff.1 h
  by_cases hr : 0 < r
  · have hcooldown : e.cooldown cooldownSeconds (some r) = min r PoolEntry.retryAfterCap := by
      simp [PoolEntry.cooldown, Option.filter, hr]
    rw [hcooldown]
    exact le_max_right _ _
  · have hmin : min r PoolEntry.retryAfterCap ≤ 0 := (min_le_left _ _).trans (not_lt.1 hr)
    exact le_max_of_le_left (add_le_of_nonpos_right hmin)

theorem Cooled.reportFailure {s : PoolRun} (h : s.Cooled) {provider keyId : String}
    {r : Option ℚ} (hheard : s.FailureHeard provider keyId r) :
    (s.perform (.reportFailure provider keyId r)).Cooled := by
  intro q e he d hd
  have hentries : e ∈ (s.pool.reportFailure provider keyId s.now r).entries q := he
  rw [AuthKeyPool.reportFailure, AuthKeyPool.entries_update _ _ rfl] at hentries
  rcases mem_deadlines_reportFailure hd with hold | ⟨rfl, hkey, hnew⟩
  · -- a deadline that stood before
    split_ifs at hentries with hq
    · subst hq
      rcases AuthKeyPool.mem_failFirst hentries with ⟨-, hmem⟩ | ⟨e', others, hdrop, hid, hcase⟩
      · exact h _ e hmem d hold
      · have hmem : ∀ x ∈ e' :: others, x ∈ s.pool.entries q := fun x hx =>
          (List.dropWhile_sublist _).subset (hdrop ▸ hx)
        rw [FailureHeard, hdrop] at hheard
        have hfirst := hheard.1 e' rfl
        rcases hcase with hothers | rfl
        · exact h _ e (hmem e (List.mem_cons_of_mem _ hothers)) d hold
        · by_cases hcoalesces : e'.coalesces s.now
          · rw [if_pos hcoalesces] at hold ⊢
            exact h _ e' (hmem e' List.mem_cons_self) d hold
          · rw [if_neg hcoalesces] at hfirst hid hold ⊢
            exact hfirst d (hid ▸ hold)
    · exact h q e hentries d hold
  · -- the deadline of this report
    rw [if_pos rfl] at hentries
    rcases AuthKeyPool.mem_failFirst hentries with ⟨hne, -⟩ | ⟨e', others, hdrop, -, hcase⟩
    · exact absurd hkey hne
    · rw [FailureHeard, hdrop] at hheard
      have hfirst := hheard.1 e' rfl
      rcases hcase with hothers | rfl
      · exact hheard.2 e hothers hkey d hnew
      · by_cases hcoalesces : e'.coalesces s.now
        · rw [if_pos hcoalesces] at hfirst ⊢
          exact hfirst d hnew
        · rw [if_neg hcoalesces]
          exact mandate_le_cooldown hnew e' _

theorem Cooled.reportSuccess {s : PoolRun} (h : s.Cooled) (provider keyId : String) :
    (s.perform (.reportSuccess provider keyId)).Cooled := by
  intro q e he d hd
  obtain ⟨hold, hother⟩ := mem_deadlines_reportSuccess hd
  have hentries : e ∈ (s.pool.reportSuccess provider keyId).entries q := he
  rw [AuthKeyPool.reportSuccess, AuthKeyPool.entries_update _ _ rfl] at hentries
  split_ifs at hentries with hq
  · obtain ⟨e', hmem, rfl⟩ := List.mem_map.1 hentries
    split_ifs at hother hold ⊢ with hid
    · have hname : e'.succeed.keyId = keyId := by
        unfold PoolEntry.succeed
        split_ifs
        · exact hid
        · exact hid
      exact absurd ⟨hq, hname⟩ hother
    · exact h q e' hmem d hold
  · exact h q e hentries d hold

/-- An operation that is heard keeps every key cool as long as its deadlines ask. -/
theorem Cooled.perform {s : PoolRun} (h : s.Cooled) {op : PoolOp} (hop : s.OpHeard op) :
    (s.perform op).Cooled := by
  cases op with
  | get provider choice =>
    intro q e he d hd
    obtain ⟨e', hmem, hid, hcooldown⟩ := AuthKeyPool.exists_of_mem_get he
    rw [← hcooldown]
    exact h q e' hmem d (hid ▸ hd)
  | reportFailure provider keyId r => exact h.reportFailure hop
  | reportSuccess provider keyId => exact h.reportSuccess provider keyId
  | add provider keyId apiKey =>
    intro q e he d hd
    have hentries : e ∈ (s.pool.add provider keyId apiKey).entries q := he
    rw [AuthKeyPool.entries_add] at hentries
    split_ifs at hentries with hq
    · rcases List.mem_append.1 hentries with hmem | hmem
      · exact h q e hmem d hd
      · obtain rfl := List.mem_singleton.1 hmem
        exact le_max_of_le_left (hop d (hq ▸ hd))
    · exact h q e hentries d hd
  | lock provider keyId => exact h
  | unlock provider => exact h

/-- What a pool whose keys are cool hands out, no deadline stands against. -/
theorem Cooled.handout {s : PoolRun} (h : s.Cooled) {provider : String} {choice : ℕ}
    (hop : s.OpHeard (.get provider choice)) {key : String × String}
    (hkey : (s.pool.get provider s.now choice).1 = some key) :
    ∀ d ∈ s.deadlines provider key.1, d ≤ s.now := by
  intro d hd
  rcases AuthKeyPool.mem_of_get hkey with hlocked | ⟨e, hmem, hid, halive⟩
  · exact hop key.1 hlocked d hd
  · have hcool := h provider e hmem d (hid ▸ hd)
    rwa [max_eq_left halive] at hcool

theorem Cooled.honoured {s : PoolRun} (hcool : s.Cooled) (h : s.Honoured) {op : PoolOp}
    (hop : s.OpHeard op) : (s.perform op).Honoured := by
  cases op with
  | get provider choice =>
    intro x hx
    rcases List.mem_append.1 hx with hx | hx
    · exact h x hx
    · obtain ⟨key, hkey, rfl⟩ := List.mem_map.1 hx
      exact hcool.handout hop (Option.mem_toList.1 hkey)
  | reportFailure provider keyId r => exact h
  | reportSuccess provider keyId => exact h
  | add provider keyId apiKey => exact h
  | lock provider keyId => exact h
  | unlock provider => exact h

/-! ## Runs -/

/-- Where every report is heard, no key is handed out before a deadline that stands against
it. -/
theorem honoured_of_heard (pool : AuthKeyPool) (now : ℚ) (es : List PoolEvent)
    (h : EachStep step Heard { pool, now } es) :
    ∀ s ∈ trail step { pool, now } es, s.Honoured := by
  have hstart : Cooled { pool, now } ∧ Honoured { pool, now } :=
    ⟨fun _ _ _ _ hd => absurd hd List.not_mem_nil, fun _ hx => absurd hx List.not_mem_nil⟩
  have hrun := EachStep.forall_mem_trail (I := fun s => s.Cooled ∧ s.Honoured)
    (fun s e hs he => ?_) h hstart
  · exact fun s hs => (hrun s hs).2
  · have hwait := hs.1.wait e.wait
    exact ⟨hwait.perform he, hwait.honoured hs.2 he⟩

/-- A pool of one key. -/
def onePool : AuthKeyPool :=
  ({} : AuthKeyPool).add "anthropic" "primary" "sk"

/-- A server that asks twice, the second time after a success. -/
def askedTwice : List PoolEvent :=
  [⟨0, .reportFailure "anthropic" "primary" (some 30)⟩, ⟨40, .get "anthropic" 0⟩,
    ⟨1, .reportSuccess "anthropic" "primary"⟩,
    ⟨9, .reportFailure "anthropic" "primary" (some 7200)⟩, ⟨100, .get "anthropic" 0⟩]

theorem honoured_of_heard_askedTwice :
    (askedTwice.foldl step { pool := onePool, now := 0 }).Honoured :=
  honoured_of_heard onePool 0 askedTwice (by decide +kernel) _ (foldl_mem_trail askedTwice _)

/-- A failure without a `Retry-After`, and two seconds later one that asks for an hour. -/
def askedTooSoon : List PoolEvent :=
  [⟨0, .reportFailure "anthropic" "primary" none⟩,
    ⟨2, .reportFailure "anthropic" "primary" (some 3600)⟩, ⟨60, .get "anthropic" 0⟩]

/-- The hour is not waited for : the key is handed out after a minute. -/
theorem askedTooSoon_not_honoured :
    ¬∀ (pool : AuthKeyPool) (now : ℚ) (es : List PoolEvent),
      ∀ s ∈ trail step { pool, now } es, s.Honoured := by
  intro h
  have hlast := h onePool 0 askedTooSoon _ (foldl_mem_trail askedTooSoon _)
  have hhandout : (⟨"anthropic", "primary", 62, [3602]⟩ : Handout) ∈
      (askedTooSoon.foldl step { pool := onePool, now := 0 }).handouts := by
    decide +kernel
  have hle : (3602 : ℚ) ≤ 62 := hlast _ hhandout 3602 List.mem_cons_self
  exact absurd hle (by decide +kernel)

end PoolRun

end OxenClaw
