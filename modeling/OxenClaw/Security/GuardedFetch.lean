import OxenClaw.Security.Pinning

/-!
# The guarded fetch

`webGuardedFetch` follows redirects itself, at most five hops, and checks the URL of each before
it is requested. The HTTP library reads the host of a URL on its own : it normalises it, connects
to a host that is then an IP literal, and asks the session's resolver for any other.
`FetchRun.step` is one hop, with the server free to answer anything.

Every connection of a fetch goes to an address the policy accepts exactly if no URL that passes
the check has a host that the library turns into a refused IP literal which the check did not
read (`connections_accepted_iff`, `Disguised`). A host in full-width digits is one
(`fullWidth_not_accepted`); a host the library leaves as it is never is
(`not_disguised_of_unchanged`).
-/

namespace OxenClaw.Security

/-- What a fetch uses of the HTTP library, and of text. -/
structure HttpLib where
  /-- The host of a URL as it is connected to, normalised, where the URL is valid. -/
  requestHost : String → Option String
  /-- A host that is an IP literal. -/
  literal : String → Option IPAddress
  /-- `raw.decode("utf-8", errors="replace")`. -/
  decode : List UInt8 → String
  extractReadableText : String → String

/-- A response : its status, two of its headers and its content. -/
structure Response where
  status : ℤ
  location : Option String := none
  contentType : Option String := none
  content : List UInt8 := []

/-- What the world does in a hop : how the library asks the resolver and what DNS answers,
which of the addresses it connects to, and the response where one comes. -/
structure Hop where
  call : ResolveCall
  now : ℚ
  dns : DnsAnswer
  tries : List ℕ
  response : Option Response

structure FetchResult where
  url : String
  finalUrl : String
  status : ℤ
  contentType : Option String
  body : String
  truncated : Bool

/-- How a fetch ends. -/
inductive FetchOutcome where
  | returned (result : FetchResult)
  | blocked (e : UrlError)
  | resolveFails (e : SsrFBlockedError)
  | requestFails
  | tooManyRedirects (url : String)

def FetchOutcome.tooManyMessage (repr : String → String) (url : String) : String :=
  "too many redirects fetching " ++ repr url

/-- What `web_guarded_fetch` is called with. -/
structure FetchArgs where
  url : String
  maxBytes : ℕ
  readability : Bool
  policy : NetPolicy

/-- A fetch on its way, the hops it has left and where it connected to. -/
structure FetchRun where
  current : String
  hops : ℕ := 5
  resolver : PinnedResolver
  connections : List (Option IPAddress) := []
  outcome : Option FetchOutcome := none

/-- `DEFAULT_TTL_SECONDS`. -/
def defaultTtlSeconds : ℚ := 60

section

variable (lib : NetLib) (http : HttpLib) (args : FetchArgs)

/-- `policy_pre_flight`. -/
def policyPreFlight (url : String) (policy : NetPolicy) : Except UrlError String :=
  assertUrlAllowed lib url policy

/-- `resolve` of the session's resolver, which nobody else uses. -/
def PinnedResolver.resolve (r : PinnedResolver) (call : ResolveCall) (now : ℚ)
    (dns : DnsAnswer) : PinnedResolver × Except SsrFBlockedError (List ResolvedHost) :=
  match r.cached call now with
  | some addresses => (r, .ok (PinnedResolver.format call addresses))
  | none => r.answered lib call now dns

namespace FetchRun

/-- A fetch before its first hop, its guarded session open. -/
def new : FetchRun where
  current := args.url
  resolver := { policy := args.policy, ttl := defaultTtlSeconds }

/-- Where a redirect goes. -/
def redirected (current location : String) : String :=
  if location.toList.head? = some '/' then
    match lib.urlparse current with
    | some parsed => parsed.scheme ++ "://" ++ parsed.netloc ++ location
    | none => location
  else location

/-- The result of a response that is no redirect. -/
def result (current : String) (resp : Response) : FetchResult :=
  let truncated : Bool := args.maxBytes < resp.content.length
  let text := http.decode (resp.content.take args.maxBytes)
  let html := resp.contentType.any fun ctype => Py.contains "html" (lib.lower ctype)
  { url := args.url, finalUrl := current, status := resp.status
    contentType := resp.contentType
    body := if args.readability && html then http.extractReadableText text else text
    truncated }

/-- The library connects : to the host that is an IP literal, or to addresses the resolver
returns for it. Whether the request goes on. -/
def connect (s : FetchRun) (hop : Hop) : FetchRun × Bool :=
  match http.requestHost s.current with
  | none => ({ s with outcome := some .requestFails }, false)
  | some host =>
    match http.literal host with
    | some ip => ({ s with connections := s.connections ++ [some ip] }, true)
    | none =>
      match s.resolver.resolve lib { hop.call with host } hop.now hop.dns with
      | (r, .error e) => ({ s with resolver := r, outcome := some (.resolveFails e) }, false)
      | (r, .ok hosts) =>
        let tried := (hop.tries.filterMap (hosts[·]?)).map fun found => lib.ipAddress found.host
        ({ s with resolver := r, connections := s.connections ++ tried }, true)

/-- What the response makes of the fetch. -/
def respond (s : FetchRun) (response : Option Response) : FetchRun :=
  match response with
  | none => { s with outcome := some .requestFails }
  | some resp =>
    match resp.location.filter fun _ => 300 ≤ resp.status ∧ resp.status < 400 with
    | some location =>
      let s := { s with current := redirected lib s.current location, hops := s.hops - 1 }
      if s.hops = 0 then { s with outcome := some (.tooManyRedirects args.url) } else s
    | none => { s with outcome := some (.returned (result lib http args s.current resp)) }

/-- One hop. A fetch that has ended stays as it is. -/
def step (s : FetchRun) (hop : Hop) : FetchRun :=
  if s.outcome.isSome then s
  else
    match policyPreFlight lib s.current args.policy with
    | .error e => { s with outcome := some (.blocked e) }
    | .ok _ =>
      match s.connect lib http hop with
      | (s, true) => s.respond lib http args hop.response
      | (s, false) => s

end FetchRun

/-- A connection goes to an address the policy accepts. -/
def GoesToAccepted (policy : NetPolicy) (connection : Option IPAddress) : Prop :=
  ∃ ip, connection = some ip ∧
    classifyBlocked ip policy.allowPrivateNetwork policy.allowLoopback = none

/-- The library connects to an address that the policy refuses and that the check does not read
in the host. -/
def Disguised (policy : NetPolicy) (url : String) : Prop :=
  ∃ parsed host ip, lib.urlparse url = some parsed ∧ http.requestHost url = some host ∧
    http.literal host = some ip ∧
    classifyBlocked ip policy.allowPrivateNetwork policy.allowLoopback ≠ none ∧
    lib.ipAddress (stripBrackets (parsed.hostname.getD "")) ≠ some ip

/-- The URL of a hop, where it passes the check, is not disguised. -/
def HopHonest (s : FetchRun) (_ : Hop) : Prop :=
  s.outcome = none → (∃ host, policyPreFlight lib s.current args.policy = .ok host) →
    ¬Disguised lib http args.policy s.current

end

section

variable {lib : NetLib} {http : HttpLib} {args : FetchArgs}

/-- What a URL that passes the check has been checked for. -/
theorem checked_of_preFlight {url host : String} {policy : NetPolicy}
    (h : policyPreFlight lib url policy = .ok host) :
    ∃ parsed, lib.urlparse url = some parsed ∧ parsed.hostname.getD "" = host ∧
      isLooseIpv4Literal lib host = false ∧ hostReason lib host policy = none := by
  unfold policyPreFlight assertUrlAllowed at h
  rcases hparsed : lib.urlparse url with _ | parsed
  · simp [hparsed] at h
  rw [hparsed] at h
  dsimp only at h
  by_cases hscheme : (!policy.isSchemeAllowed lib.lower parsed.scheme) = true
  · rw [if_pos hscheme] at h
    cases h
  rw [if_neg hscheme] at h
  by_cases hname : parsed.hostname.getD "" = ""
  · rw [if_pos hname] at h
    cases h
  rw [if_neg hname] at h
  rcases hport : parsed.port with _ | port
  · simp [hport] at h
  rw [hport] at h
  dsimp only at h
  rcases hallowed : port.filter fun port => !policy.isPortAllowed port with _ | refused
  · rw [hallowed] at h
    dsimp only at h
    by_cases hloose : isLooseIpv4Literal lib (parsed.hostname.getD "") = true
    · simp [hloose] at h
    rw [if_neg hloose] at h
    rcases hreason : hostReason lib (parsed.hostname.getD "") policy with _ | reason
    · rw [hreason] at h
      dsimp only at h
      split_ifs at h
      obtain rfl := Except.ok.inj h
      exact ⟨parsed, rfl, rfl, by simpa using hloose, hreason⟩
    · simp [hreason] at h
  · simp [hallowed] at h

/-- A host the library leaves as it is. It reads an IP literal where `ipaddress` does, or where
`inet_aton` reads an IPv4 address in a form that is not the standard one. -/
theorem not_disguised_of_unchanged {url host : String} {policy : NetPolicy} {parsed : ParsedUrl}
    (hpass : policyPreFlight lib url policy = .ok host) (hparsed : lib.urlparse url = some parsed)
    (hsame : http.requestHost url = parsed.hostname)
    (hliteral : ∀ host ip, http.literal host = some ip →
      lib.ipAddress host = some ip ∨ lib.inetAton host = true ∧ isCanonicalIpv4 lib host = false)
    (hbrackets : ∀ host ip, lib.ipAddress host = some ip →
      lib.ipAddress (stripBrackets host) = some ip) :
    ¬Disguised lib http policy url := by
  rintro ⟨parsed', host', ip, hparsed', hhost, hip, -, hunread⟩
  obtain rfl : parsed = parsed' := Option.some.inj (hparsed.symm.trans hparsed')
  obtain ⟨parsed'', hparsed'', hname, hloose, -⟩ := checked_of_preFlight hpass
  obtain rfl : parsed = parsed'' := Option.some.inj (hparsed.symm.trans hparsed'')
  have hhost' : parsed.hostname.getD "" = host' := by rw [← hsame, hhost, Option.getD_some]
  rw [hhost'] at hunread hname
  rcases hliteral host' ip hip with hread | ⟨haton, hcanonical⟩
  · exact hunread (hbrackets host' ip hread)
  · rw [← hname, isLooseIpv4Literal] at hloose
    simp [haton, hcanonical] at hloose

/-- The session's resolver in a hop. -/
theorem pinned_resolve {r : PinnedResolver} (h : Pinned lib r) (call : ResolveCall) (now : ℚ)
    (dns : DnsAnswer) :
    Pinned lib (r.resolve lib call now dns).1 ∧
      (r.resolve lib call now dns).1.policy = r.policy ∧
      ∀ hosts, (r.resolve lib call now dns).2 = .ok hosts →
        ∀ found ∈ hosts, Accepted lib r.policy found.host := by
  unfold PinnedResolver.resolve
  rcases hcached : r.cached call now with _ | addrs
  · exact pinned_answered h call now dns
  · refine ⟨h, rfl, fun hosts hhosts found hfound => ?_⟩
    obtain rfl := Except.ok.inj hhosts
    obtain ⟨addr, haddr, rfl⟩ := List.mem_map.1 hfound
    exact accepted_of_cached h hcached addr haddr

namespace FetchRun

/-- The session's resolver keeps to the policy of the fetch. -/
structure Guarded (lib : NetLib) (args : FetchArgs) (s : FetchRun) : Prop where
  pinned : Pinned lib s.resolver
  policy : s.resolver.policy = args.policy

/-- Where the library connects : to the literal, or to addresses the resolver has let through. -/
theorem connections_connect (http : HttpLib) {s : FetchRun} (h : s.Guarded lib args) (hop : Hop) :
    (s.connect lib http hop).1.Guarded lib args ∧
      ((∃ host ip, http.requestHost s.current = some host ∧ http.literal host = some ip ∧
          (s.connect lib http hop).1.connections = s.connections ++ [some ip]) ∨
        (∀ host, http.requestHost s.current = some host → http.literal host = none) ∧
          ∃ more, (s.connect lib http hop).1.connections = s.connections ++ more ∧
            ∀ c ∈ more, GoesToAccepted args.policy c) := by
  unfold FetchRun.connect
  rcases hhost : http.requestHost s.current with _ | host
  · exact ⟨⟨h.pinned, h.policy⟩, .inr ⟨nofun, [], by simp, by simp⟩⟩
  dsimp only
  rcases hliteral : http.literal host with _ | ip
  · have hnone : ∀ host', some host = some host' → http.literal host' = none := by
      rintro host' hhost'
      rwa [← Option.some.inj hhost']
    obtain ⟨hpinned, hpolicy, haccepted⟩ :=
      pinned_resolve h.pinned { hop.call with host } hop.now hop.dns
    dsimp only
    rcases hresult : s.resolver.resolve lib { hop.call with host } hop.now hop.dns with
      ⟨r, e | hosts⟩
    all_goals rw [hresult] at hpinned hpolicy haccepted
    · exact ⟨⟨hpinned, hpolicy.trans h.policy⟩, .inr ⟨hnone, [], by simp, by simp⟩⟩
    · refine ⟨⟨hpinned, hpolicy.trans h.policy⟩, .inr ⟨hnone, _, rfl, fun c hc => ?_⟩⟩
      obtain ⟨found, hfound, rfl⟩ := List.mem_map.1 hc
      obtain ⟨i, -, hi⟩ := List.mem_filterMap.1 hfound
      have := haccepted hosts rfl found (List.mem_of_getElem? hi)
      rwa [h.policy] at this
  · exact ⟨⟨h.pinned, h.policy⟩, .inl ⟨host, ip, rfl, hliteral, rfl⟩⟩

theorem respond_eq (s : FetchRun) (response : Option Response) :
    (s.respond lib http args response).connections = s.connections ∧
      (s.respond lib http args response).resolver = s.resolver := by
  unfold FetchRun.respond
  rcases response with _ | resp
  · exact ⟨rfl, rfl⟩
  dsimp only
  split
  · split_ifs <;> exact ⟨rfl, rfl⟩
  · exact ⟨rfl, rfl⟩

/-- The connections of a hop whose URL passes the check are those of its request. -/
theorem step_of_preFlight (http : HttpLib) {s : FetchRun} (hrunning : s.outcome = none) {host : String}
    (hpass : policyPreFlight lib s.current args.policy = .ok host) (hop : Hop) :
    (s.step lib http args hop).connections = (s.connect lib http hop).1.connections ∧
      (s.step lib http args hop).resolver = (s.connect lib http hop).1.resolver := by
  unfold FetchRun.step
  rw [hrunning, hpass]
  dsimp only
  rw [if_neg (by simp)]
  rcases s.connect lib http hop with ⟨s', _ | _⟩
  · exact ⟨rfl, rfl⟩
  · exact respond_eq s' hop.response

/-- A fetch that has ended, or whose URL does not pass the check, connects nowhere. -/
theorem step_of_not_preFlight (http : HttpLib) {s : FetchRun}
    (h : ¬(s.outcome = none ∧ ∃ host, policyPreFlight lib s.current args.policy = .ok host))
    (hop : Hop) : (s.step lib http args hop).connections = s.connections ∧
      (s.step lib http args hop).resolver = s.resolver := by
  unfold FetchRun.step
  split_ifs with hended
  · exact ⟨rfl, rfl⟩
  · have hrunning : s.outcome = none := by simpa using hended
    rcases hcheck : policyPreFlight lib s.current args.policy with e | host
    · exact ⟨rfl, rfl⟩
    · exact absurd ⟨hrunning, host, hcheck⟩ h

theorem Guarded.step {s : FetchRun} (h : s.Guarded lib args) (hop : Hop) :
    (s.step lib http args hop).Guarded lib args := by
  by_cases hpass : s.outcome = none ∧ ∃ host, policyPreFlight lib s.current args.policy = .ok host
  · obtain ⟨hrunning, host, hpass⟩ := hpass
    obtain ⟨hguarded, -⟩ := connections_connect http h hop
    have hresolver := (step_of_preFlight http hrunning hpass hop).2
    exact ⟨hresolver ▸ hguarded.pinned, hresolver ▸ hguarded.policy⟩
  · have hresolver := (step_of_not_preFlight http hpass hop).2
    exact ⟨hresolver ▸ h.pinned, hresolver ▸ h.policy⟩

/-- A hop keeps to accepted addresses exactly if its URL is not disguised. -/
theorem accepted_step_iff {s : FetchRun} (h : s.Guarded lib args)
    (hs : ∀ c ∈ s.connections, GoesToAccepted args.policy c) (hop : Hop) :
    (∀ c ∈ (s.step lib http args hop).connections, GoesToAccepted args.policy c) ↔
      HopHonest lib http args s hop := by
  by_cases hpass : s.outcome = none ∧ ∃ host, policyPreFlight lib s.current args.policy = .ok host
  · obtain ⟨hrunning, host, hpass⟩ := hpass
    obtain ⟨parsed, hparsed, hname, -, hreason⟩ := checked_of_preFlight hpass
    obtain ⟨-, hconnections⟩ := connections_connect http h hop
    have hstep := (step_of_preFlight http hrunning hpass hop).1
    rw [hstep]
    rcases hconnections with ⟨host', ip, hhost', hip, hmore⟩ | ⟨hnone, more, hmore, haccepted⟩
    · rw [hmore]
      constructor
      · rintro hall _ _ ⟨parsed', host'', ip', -, hhost'', hip', hrefused, -⟩
        obtain rfl : host' = host'' := Option.some.inj (hhost'.symm.trans hhost'')
        obtain rfl : ip = ip' := Option.some.inj (hip.symm.trans hip')
        obtain ⟨ip'', heq, haccepted⟩ := hall (some ip) (by simp)
        obtain rfl := Option.some.inj heq
        exact hrefused haccepted
      · intro hhonest c hc
        rcases List.mem_append.1 hc with hc | hc
        · exact hs c hc
        · refine ⟨ip, List.mem_singleton.1 hc, ?_⟩
          by_contra hrefused
          refine hhonest hrunning ⟨host, hpass⟩ ⟨parsed, host', ip, hparsed, hhost', hip, hrefused, ?_⟩
          intro hread
          rw [hostReason, ← hname, hread] at hreason
          exact hrefused hreason
    · refine iff_of_true (fun c hc => ?_) ?_
      · rw [hmore] at hc
        rcases List.mem_append.1 hc with hc | hc
        · exact hs c hc
        · exact haccepted c hc
      · rintro - - ⟨parsed', host', ip, -, hhost', hip, -⟩
        rw [hnone host' hhost'] at hip
        exact absurd hip (by simp)
  · rw [(step_of_not_preFlight http hpass hop).1]
    exact iff_of_true hs fun hrunning hchecked => absurd ⟨hrunning, hchecked⟩ hpass

end FetchRun

/-- Every connection of a fetch goes to an address the policy accepts, whatever redirects the
server sends and whatever DNS answers, exactly if no URL it requests is disguised. -/
theorem connections_accepted_iff (lib : NetLib) (http : HttpLib) (args : FetchArgs)
    (hops : List Hop) :
    (∀ s ∈ trail (FetchRun.step lib http args) (.new args) hops,
        ∀ c ∈ s.connections, GoesToAccepted args.policy c) ↔
      EachStep (FetchRun.step lib http args) (HopHonest lib http args) (.new args) hops := by
  refine forall_mem_trail_iff (I := FetchRun.Guarded lib args)
    (P := fun s => ∀ c ∈ s.connections, GoesToAccepted args.policy c)
    (fun _ hop h => h.step hop) (fun _ hop h hs => FetchRun.accepted_step_iff h hs hop)
    ⟨pinned_new _ _, rfl⟩ ?_ hops
  simp [FetchRun.new]

end

/-- A dotted quad. -/
def dottedQuad (host : String) : Option IPAddress :=
  let number (part : List Char) : Option ℕ :=
    if part ≠ [] ∧ part.all Char.isDigit then
      some (part.foldl (fun n c => n * 10 + (c.toNat - '0'.toNat)) 0)
    else none
  match (host.toList.splitOn '.').map number with
  | [some a, some b, some c, some d] =>
    if h : IPv4Address.quad a b c d < 2 ^ 32 then some (.v4 ⟨_, h⟩) else none
  | _ => none

/-- A full-width digit or full stop as the ASCII one. -/
def narrow (c : Char) : Char :=
  if 0xFF0E ≤ c.toNat ∧ c.toNat ≤ 0xFF19 then Char.ofNat (c.toNat - 0xFEE0) else c

/-- A library that reads addresses as dotted quads and plain URLs of a host and a path. -/
def plainLib : NetLib where
  ipAddress := dottedQuad
  str
    | .v4 ip => IPv4Address.str ip
    | .v6 ip => toString ip.val
  inetAton host := (dottedQuad host).isSome
  isDecimal c := (narrow c).isDigit
  lower s := s
  urlparse url :=
    if "http://".toList.isPrefixOf url.toList then
      let netloc := String.ofList ((url.toList.drop 7).takeWhile (· ≠ '/'))
      some ⟨"http", netloc, some netloc, some none⟩
    else none

def plainHttp : HttpLib where
  requestHost url :=
    ((plainLib.urlparse url).bind ParsedUrl.hostname).map fun host =>
      String.ofList (host.toList.map narrow)
  literal := dottedQuad
  decode _ := ""
  extractReadableText text := text

theorem consistent_nil : ∀ pat ∈ ([] : List String), pat ∉ ([] : List String) :=
  fun _ h => absurd h List.not_mem_nil

/-- A fetch of a loopback address in full-width digits. -/
def fullWidth : FetchArgs :=
  ⟨"http://１２７.０.０.１/", 1000, true, { consistent := consistent_nil }⟩

theorem fullWidth_not_accepted : ¬ ∀ hops : List Hop,
    ∀ s ∈ trail (FetchRun.step plainLib plainHttp fullWidth) (.new fullWidth) hops,
      ∀ c ∈ s.connections, GoesToAccepted fullWidth.policy c := by
  intro h
  let hop : Hop := ⟨⟨0, "", 80, afInet⟩, 0, .ok [], [], none⟩
  have hlast := h [hop] _ (foldl_mem_trail _ _)
  have hloopback : some (.v4 ⟨IPv4Address.quad 127 0 0 1, by decide⟩) ∈
      ([hop].foldl (FetchRun.step plainLib plainHttp fullWidth) (.new fullWidth)).connections := by
    decide
  obtain ⟨ip, hip, haccepted⟩ := hlast _ hloopback
  obtain rfl := Option.some.inj hip
  exact absurd haccepted (by decide)

end OxenClaw.Security
