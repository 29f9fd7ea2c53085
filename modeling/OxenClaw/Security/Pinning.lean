import Mathlib.Data.Rat.Defs
import OxenClaw.Lib.Asyncio
import OxenClaw.Lib.Dict
import OxenClaw.Lib.Runs
import OxenClaw.Security.UrlGuard

/-!
# The pinned resolver

`PinnedResolver` keeps the addresses of a host for a while (`cache`) and remembers for each
host which addresses have passed the policy (`validatedIps`), so that these are not checked
again. `resolve` holds the resolver's lock and suspends in `getaddrinfo`; the policy may be
replaced meanwhile, which empties both. `ResolverRun.step` is what happens between two awaits.

What both hold, the policy in force accepts (`Pinned`), and so do the addresses of every call
of `resolve` that returns, at the moment it returns (`resolve_accepted`).
-/

namespace OxenClaw.Security

open Asyncio

/-- `socket.AF_INET`. -/
def afInet : ℤ := 2

/-- `socket.AF_INET6`. -/
def afInet6 : ℤ := 10

/-- An answer of `getaddrinfo`, its family and `sockaddr[0]`. -/
structure AddrInfo where
  family : ℤ
  address : String

/-- What `getaddrinfo` does : answer, or raise a `gaierror`. -/
abbrev DnsAnswer := Except String (List AddrInfo)

/-- `_PinnedEntry`. -/
structure PinnedEntry where
  addresses : List String
  family : ℤ
  cachedAt : ℚ

/-- `PinnedResolver`, without its lock. -/
structure PinnedResolver where
  policy : NetPolicy
  ttl : ℚ
  cache : Dict (String × ℤ) PinnedEntry := []
  validatedIps : Dict String (List String) := []

/-- One of the results of `resolve`. -/
structure ResolvedHost where
  hostname : String
  host : String
  port : ℤ
  family : ℤ
  proto : ℤ := 0
  flags : ℤ := 0

/-- A call of `resolve`. -/
structure ResolveCall where
  id : ℕ
  host : String
  port : ℤ
  family : ℤ
  deriving DecidableEq

section

variable (lib : NetLib)

namespace PinnedResolver

/-- `replace_policy`. -/
def replacePolicy (r : PinnedResolver) (policy : NetPolicy) : PinnedResolver :=
  { r with policy, cache := [], validatedIps := [] }

/-- `close`. -/
def close (r : PinnedResolver) : PinnedResolver :=
  { r with cache := [], validatedIps := [] }

/-- `_format`. -/
def format (call : ResolveCall) (addrs : List String) : List ResolvedHost :=
  addrs.map fun addr =>
    { hostname := call.host, host := addr, port := call.port, family := call.family }

/-- `self._validated_ips.setdefault(host, set())`. -/
def seen (r : PinnedResolver) (host : String) : List String :=
  (r.validatedIps.get? host).getD []

def setSeen (r : PinnedResolver) (host : String) (ips : List String) : PinnedResolver :=
  { r with validatedIps := r.validatedIps.set host ips }

/-- The addresses of a cache entry that is fresh. -/
def cached (r : PinnedResolver) (call : ResolveCall) (now : ℚ) : Option (List String) :=
  (r.cache.get? (call.host, call.family)).bind fun entry =>
    if now - entry.cachedAt < r.ttl then some entry.addresses else none

/-- The loop over the answers, each checked unless its address has been for this host. -/
def validate (r : PinnedResolver) (host : String) :
    List AddrInfo → PinnedResolver × Except SsrFBlockedError (List String)
  | [] => (r, .ok [])
  | info :: infos =>
    if info.family ≠ afInet ∧ info.family ≠ afInet6 then validate r host infos
    else
      let r := r.setSeen host (r.seen host)
      if info.address ∈ r.seen host then
        let rest := validate r host infos
        (rest.1, rest.2.map (info.address :: ·))
      else
        match assertIpAllowed lib info.address r.policy host with
        | .error e => (r, .error e)
        | .ok _ =>
          let rest := validate (r.setSeen host (r.seen host ++ [info.address])) host infos
          (rest.1, rest.2.map (info.address :: ·))

/-- `_resolve_locked` from its await on, for a call that looked at the clock at `now`. -/
def answered (r : PinnedResolver) (call : ResolveCall) (now : ℚ) (answer : DnsAnswer) :
    PinnedResolver × Except SsrFBlockedError (List ResolvedHost) :=
  match answer with
  | .error exc => (r, .error (.dnsFailed call.host exc))
  | .ok infos =>
    match validate lib r call.host infos with
    | (r, .error e) => (r, .error e)
    | (r, .ok addresses) =>
      if addresses = [] then (r, .error (.noUsableAddresses call.host))
      else
        let entry : PinnedEntry := ⟨addresses.eraseDups, call.family, now⟩
        ({ r with cache := r.cache.set (call.host, call.family) entry },
          .ok (format call entry.addresses))

end PinnedResolver

/-- What a call of `resolve` came to, and the policy in force then. -/
structure Resolved where
  call : ResolveCall
  policy : NetPolicy
  result : Except SsrFBlockedError (List ResolvedHost)

/-- A resolver with its lock, the calls inside `getaddrinfo` with the time they read before it,
and what calls came to. -/
structure ResolverRun where
  resolver : PinnedResolver
  lock : Lock ResolveCall := {}
  calls : ℕ := 0
  looking : List (ResolveCall × ℚ) := []
  resolved : List Resolved := []

/-- What happens between two awaits. -/
inductive ResolverEvent where
  /-- `resolve` is called. -/
  | resolve (host : String) (port family : ℤ) (now : ℚ)
  /-- A call goes on from its await of the lock. -/
  | resume (call : ResolveCall) (now : ℚ)
  /-- A call is cancelled where it waits for the lock. -/
  | cancel (call : ResolveCall)
  /-- Its await of the lock raises. -/
  | abandon (call : ResolveCall)
  /-- A call goes on from `getaddrinfo`. -/
  | answer (call : ResolveCall) (answer : DnsAnswer)
  /-- `getaddrinfo` raises otherwise, or the call is cancelled in it. -/
  | lookupRaises (call : ResolveCall)
  | replacePolicy (policy : NetPolicy)
  | close

namespace ResolverRun

/-- No call has been made. -/
def new (policy : NetPolicy) (ttl : ℚ) : ResolverRun where
  resolver := { policy, ttl }

/-- The lock is released and the call returns or raises. -/
def finish (s : ResolverRun) (call : ResolveCall)
    (result : Except SsrFBlockedError (List ResolvedHost)) : ResolverRun :=
  { s with
    lock := s.lock.release
    resolved := s.resolved ++ [⟨call, s.resolver.policy, result⟩] }

/-- `_resolve_locked` up to its await : a fresh cache entry is returned, else the call looks
its host up. -/
def lookUp (s : ResolverRun) (call : ResolveCall) (now : ℚ) : ResolverRun :=
  match s.resolver.cached call now with
  | some addresses => s.finish call (.ok (PinnedResolver.format call addresses))
  | none => { s with looking := s.looking ++ [(call, now)] }

/-- What a call that looks its host up read from the clock. -/
def lookedAt (s : ResolverRun) (call : ResolveCall) : Option ℚ :=
  (s.looking.find? fun l => l.1 = call).map Prod.snd

def leave (s : ResolverRun) (call : ResolveCall) : ResolverRun :=
  { s with looking := s.looking.filter fun l => l.1 ≠ call }

/-- One event. An event of a call that is not at that point changes nothing. -/
def step (s : ResolverRun) : ResolverEvent → ResolverRun
  | .resolve host port family now =>
    let call : ResolveCall := ⟨s.calls, host, port, family⟩
    let s := { s with calls := s.calls + 1 }
    if s.lock.isFree then lookUp { s with lock := s.lock.take } call now
    else { s with lock := s.lock.enqueue call }
  | .resume call now =>
    if Waiters.wait s.lock.waiters call = some .woken then
      lookUp { s with lock := s.lock.resume call } call now
    else s
  | .cancel call => { s with lock := s.lock.cancel call }
  | .abandon call =>
    if (Waiters.wait s.lock.waiters call).any (· ≠ .pending) then
      { s with lock := s.lock.abandon call }
    else s
  | .answer call answer =>
    match s.lookedAt call with
    | some now =>
      let r := s.resolver.answered lib call now answer
      finish { s.leave call with resolver := r.1 } call r.2
    | none => s
  | .lookupRaises call =>
    if (s.lookedAt call).isSome then
      let s := s.leave call
      { s with lock := s.lock.release }
    else s
  | .replacePolicy policy => { s with resolver := s.resolver.replacePolicy policy }
  | .close => { s with resolver := s.resolver.close }

end ResolverRun

end

/-! ## Validated addresses -/

section

variable {lib : NetLib}

/-- The policy accepts the address this is. -/
def Accepted (lib : NetLib) (policy : NetPolicy) (addr : String) : Prop :=
  ∃ ip, lib.ipAddress addr = some ip ∧
    classifyBlocked ip policy.allowPrivateNetwork policy.allowLoopback = none

/-- What the resolver keeps, its policy accepts. -/
structure Pinned (lib : NetLib) (r : PinnedResolver) : Prop where
  cache : ∀ key entry, r.cache.get? key = some entry →
    ∀ addr ∈ entry.addresses, Accepted lib r.policy addr
  seen : ∀ host, ∀ addr ∈ r.seen host, Accepted lib r.policy addr

theorem accepted_of_assertIpAllowed {addr host : String} {policy : NetPolicy} {ip : IPAddress}
    (h : assertIpAllowed lib addr policy host = .ok ip) :
    Accepted lib policy addr := by
  unfold assertIpAllowed at h
  rcases hip : lib.ipAddress addr with _ | ip'
  · simp [hip] at h
  · rw [hip] at h
    dsimp only at h
    rcases hreason :
      classifyBlocked ip' policy.allowPrivateNetwork policy.allowLoopback with _ | reason
    · exact ⟨ip', hip, hreason⟩
    · simp [hreason] at h

theorem pinned_new (policy : NetPolicy) (ttl : ℚ) :
    Pinned lib { policy, ttl } :=
  ⟨by simp, by simp [PinnedResolver.seen]⟩

/-- Emptied, whatever the policy. -/
theorem pinned_replacePolicy (r : PinnedResolver) (policy : NetPolicy) :
    Pinned lib (r.replacePolicy policy) :=
  ⟨by simp [PinnedResolver.replacePolicy],
    by simp [PinnedResolver.replacePolicy, PinnedResolver.seen]⟩

theorem pinned_close (r : PinnedResolver) : Pinned lib r.close :=
  ⟨by simp [PinnedResolver.close], by simp [PinnedResolver.close, PinnedResolver.seen]⟩

theorem seen_setSeen (r : PinnedResolver) (host host' : String) (ips : List String) :
    (r.setSeen host ips).seen host' = if host' = host then ips else r.seen host' := by
  rw [PinnedResolver.seen, PinnedResolver.setSeen, Dict.get?_set]
  split_ifs <;> rfl

theorem Pinned.setSeen {r : PinnedResolver} (h : Pinned lib r) {host : String}
    {ips : List String} (hips : ∀ addr ∈ ips, Accepted lib r.policy addr) :
    Pinned lib (r.setSeen host ips) := by
  refine ⟨h.cache, fun host' addr haddr => ?_⟩
  rw [seen_setSeen] at haddr
  split_ifs at haddr
  · exact hips addr haddr
  · exact h.seen host' addr haddr

theorem Pinned.setCache {r : PinnedResolver} (h : Pinned lib r) {key : String × ℤ}
    {entry : PinnedEntry} (hentry : ∀ addr ∈ entry.addresses, Accepted lib r.policy addr) :
    Pinned lib { r with cache := r.cache.set key entry } := by
  refine ⟨fun key' entry' hget => ?_, h.seen⟩
  have hget : (r.cache.set key entry).get? key' = some entry' := hget
  rw [Dict.get?_set] at hget
  split_ifs at hget
  · obtain rfl := Option.some.inj hget
    exact hentry
  · exact h.cache key' entry' hget

theorem accepted_of_map {policy : NetPolicy} {addr : String}
    {rest : Except SsrFBlockedError (List String)} (haddr : Accepted lib policy addr)
    (hrest : ∀ addrs, rest = .ok addrs → ∀ a ∈ addrs, Accepted lib policy a)
    {addrs : List String} (h : rest.map (addr :: ·) = .ok addrs) :
    ∀ a ∈ addrs, Accepted lib policy a := by
  rcases rest with e | tail
  · cases h
  · obtain rfl := Except.ok.inj h
    exact List.forall_mem_cons.2 ⟨haddr, hrest tail rfl⟩

/-- The loop over the answers runs without an await : the policy is the same all along, and
accepts every address the loop lets through. -/
theorem pinned_validate {r : PinnedResolver} (h : Pinned lib r) (host : String)
    (infos : List AddrInfo) :
    Pinned lib (r.validate lib host infos).1 ∧
      (r.validate lib host infos).1.policy = r.policy ∧
      ∀ addrs, (r.validate lib host infos).2 = .ok addrs →
        ∀ addr ∈ addrs, Accepted lib r.policy addr := by
  induction infos generalizing r with
  | nil =>
    refine ⟨h, rfl, fun addrs haddrs => ?_⟩
    obtain rfl := Except.ok.inj haddrs
    simp
  | cons info infos ih =>
    unfold PinnedResolver.validate
    by_cases hfamily : info.family ≠ afInet ∧ info.family ≠ afInet6
    · rw [if_pos hfamily]
      exact ih h
    rw [if_neg hfamily]
    have hseen : Pinned lib (r.setSeen host (r.seen host)) := h.setSeen (h.seen host)
    have hpolicy : (r.setSeen host (r.seen host)).policy = r.policy := rfl
    generalize r.setSeen host (r.seen host) = r' at hseen hpolicy ⊢
    rw [← hpolicy]
    dsimp only
    by_cases hmem : info.address ∈ r'.seen host
    · rw [if_pos hmem]
      obtain ⟨hpinned, hsame, hrest⟩ := ih hseen
      exact ⟨hpinned, hsame, fun addrs => accepted_of_map (hseen.seen host _ hmem) hrest⟩
    · rw [if_neg hmem]
      rcases hassert : assertIpAllowed lib info.address r'.policy host with e | ip
      · exact ⟨hseen, rfl, nofun⟩
      · have haddr := accepted_of_assertIpAllowed hassert
        have hadded : Pinned lib (r'.setSeen host (r'.seen host ++ [info.address])) := by
          refine hseen.setSeen fun addr h => ?_
          rcases List.mem_append.1 h with h | h
          · exact hseen.seen host addr h
          · rw [List.mem_singleton.1 h]
            exact haddr
        obtain ⟨hpinned, hsame, hrest⟩ := ih hadded
        exact ⟨hpinned, hsame, fun addrs => accepted_of_map haddr hrest⟩

/-- What a lookup that is answered returns. -/
theorem pinned_answered {r : PinnedResolver} (h : Pinned lib r) (call : ResolveCall) (now : ℚ)
    (answer : DnsAnswer) :
    Pinned lib (r.answered lib call now answer).1 ∧
      (r.answered lib call now answer).1.policy = r.policy ∧
      ∀ hosts, (r.answered lib call now answer).2 = .ok hosts →
        ∀ found ∈ hosts, Accepted lib r.policy found.host := by
  unfold PinnedResolver.answered
  rcases answer with exc | infos
  · exact ⟨h, rfl, nofun⟩
  obtain ⟨hpinned, hpolicy, haddrs⟩ := pinned_validate h call.host infos
  dsimp only
  rcases hresult : r.validate lib call.host infos with ⟨r', e | addrs⟩
  all_goals rw [hresult] at hpinned hpolicy haddrs
  · exact ⟨hpinned, hpolicy, nofun⟩
  dsimp only
  split_ifs with hnil
  · exact ⟨hpinned, hpolicy, nofun⟩
  · have hunique : ∀ addr ∈ addrs.eraseDups, Accepted lib r.policy addr :=
      fun addr haddr => haddrs addrs rfl addr (List.mem_eraseDups.1 haddr)
    refine ⟨hpinned.setCache (hpolicy ▸ hunique), hpolicy, fun hosts hhosts found hfound => ?_⟩
    obtain rfl := Except.ok.inj hhosts
    obtain ⟨addr, haddr, rfl⟩ := List.mem_map.1 hfound
    exact hunique addr haddr

/-- A cache entry that is returned. -/
theorem accepted_of_cached {r : PinnedResolver} (h : Pinned lib r) {call : ResolveCall} {now : ℚ}
    {addrs : List String} (hcached : r.cached call now = some addrs) :
    ∀ addr ∈ addrs, Accepted lib r.policy addr := by
  obtain ⟨entry, hentry, hfresh⟩ := Option.bind_eq_some_iff.1 hcached
  split_ifs at hfresh
  obtain rfl := Option.some.inj hfresh
  exact h.cache _ entry hentry

/-! ## Runs -/

/-- Every call that returned has returned accepted addresses. -/
structure ResolverRun.Ok (lib : NetLib) (s : ResolverRun) : Prop where
  pinned : Pinned lib s.resolver
  resolved : ∀ r ∈ s.resolved, ∀ hosts, r.result = .ok hosts →
    ∀ found ∈ hosts, Accepted lib r.policy found.host

namespace ResolverRun

theorem Ok.finish {s : ResolverRun} (h : s.Ok lib) {call : ResolveCall}
    {result : Except SsrFBlockedError (List ResolvedHost)}
    (hresult : ∀ hosts, result = .ok hosts →
      ∀ found ∈ hosts, Accepted lib s.resolver.policy found.host) :
    (s.finish call result).Ok lib := by
  refine ⟨h.pinned, fun r hr => ?_⟩
  rcases List.mem_append.1 hr with hr | hr
  · exact h.resolved r hr
  · rw [List.mem_singleton.1 hr]
    exact hresult

theorem Ok.lookUp {s : ResolverRun} (h : s.Ok lib) (call : ResolveCall) (now : ℚ) :
    (s.lookUp call now).Ok lib := by
  unfold ResolverRun.lookUp
  rcases hcached : s.resolver.cached call now with _ | addrs
  · exact ⟨h.pinned, h.resolved⟩
  · refine h.finish fun hosts hhosts found hfound => ?_
    obtain rfl := Except.ok.inj hhosts
    obtain ⟨addr, haddr, rfl⟩ := List.mem_map.1 hfound
    exact accepted_of_cached h.pinned hcached addr haddr

/-- The lock and the calls on their way have no part in it. -/
theorem Ok.congr {s s' : ResolverRun} (h : s.Ok lib) (hresolver : s'.resolver = s.resolver)
    (hresolved : s'.resolved = s.resolved) : s'.Ok lib :=
  ⟨hresolver ▸ h.pinned, hresolved ▸ h.resolved⟩

/-- Every event keeps the invariant. -/
theorem Ok.step {s : ResolverRun} (h : s.Ok lib) (e : ResolverEvent) : (s.step lib e).Ok lib := by
  cases e with
  | resolve host port family now =>
    unfold ResolverRun.step
    dsimp only
    split_ifs
    · refine Ok.lookUp ?_ _ now
      exact h.congr rfl rfl
    · exact h.congr rfl rfl
  | resume call now =>
    unfold ResolverRun.step
    dsimp only
    split_ifs
    · refine Ok.lookUp ?_ call now
      exact h.congr rfl rfl
    · exact h
  | cancel call => exact h.congr rfl rfl
  | abandon call =>
    unfold ResolverRun.step
    dsimp only
    split_ifs
    · exact h.congr rfl rfl
    · exact h
  | answer call answer =>
    unfold ResolverRun.step
    rcases hlooked : s.lookedAt call with _ | now
    · simpa [hlooked] using h
    · obtain ⟨hpinned, hpolicy, hresult⟩ := pinned_answered h.pinned call now answer
      have hleft : ResolverRun.Ok lib { s.leave call with
          resolver := (s.resolver.answered lib call now answer).1 } := ⟨hpinned, h.resolved⟩
      simp only [hlooked]
      refine hleft.finish fun hosts hhosts found hfound => ?_
      rw [hpolicy]
      exact hresult hosts hhosts found hfound
  | lookupRaises call =>
    unfold ResolverRun.step
    dsimp only
    split_ifs
    · exact h.congr rfl rfl
    · exact h
  | replacePolicy policy => exact ⟨pinned_replacePolicy _ policy, h.resolved⟩
  | close => exact ⟨pinned_close _, h.resolved⟩

end ResolverRun

/-- In any interleaving of calls of `resolve`, of `replace_policy` and of `close`, with any
answers at any times, the policy in force when a call returns accepts what it returns. -/
theorem resolve_accepted (lib : NetLib) (policy : NetPolicy) (ttl : ℚ)
    (es : List ResolverEvent) : ∀ s ∈ trail (ResolverRun.step lib) (.new policy ttl) es,
      ∀ r ∈ s.resolved, ∀ hosts, r.result = .ok hosts →
        ∀ found ∈ hosts, Accepted lib r.policy found.host := by
  have hnew : (ResolverRun.new policy ttl).Ok lib := ⟨pinned_new policy ttl, by simp [ResolverRun.new]⟩
  intro s hs
  exact (forall_mem_trail (I := ResolverRun.Ok lib) (fun _ e h => h.step e) hnew es s hs).resolved

end

/-- A library that knows one address. -/
def oneAddress : NetLib where
  ipAddress s := if s = "8.8.8.8" then some (.v4 ⟨IPv4Address.quad 8 8 8 8, by decide⟩) else none
  str _ := "8.8.8.8"
  inetAton s := s = "8.8.8.8"
  isDecimal c := c.isDigit
  lower s := s
  urlparse _ := none

/-- A call that looks its host up and is answered. -/
def oneAnswer : List ResolverEvent :=
  [.resolve "dns.test" 443 afInet 0,
    .answer ⟨0, "dns.test", 443, afInet⟩ (.ok [⟨afInet, "8.8.8.8"⟩])]

theorem resolve_accepted_oneAnswer : Accepted oneAddress {} "8.8.8.8" := by
  have hmem : oneAnswer.foldl (ResolverRun.step oneAddress) (.new {} 60) ∈
      trail (ResolverRun.step oneAddress) (.new {} 60) oneAnswer := foldl_mem_trail _ _
  exact resolve_accepted oneAddress {} 60 _ _ hmem
    ⟨⟨0, "dns.test", 443, afInet⟩, {}, .ok [⟨"dns.test", "8.8.8.8", 443, afInet, 0, 0⟩]⟩
    (List.mem_singleton.2 rfl) _ rfl _ (List.mem_singleton.2 rfl)

end OxenClaw.Security
