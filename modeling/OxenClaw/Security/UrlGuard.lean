import OxenClaw.Lib.Python
import OxenClaw.Security.Ssrf

/-!
# Checks of URLs and addresses

`assertUrlAllowed` is the pre-flight check of a URL, `assertIpAllowed` that of an address a host
resolves to. A host is an address in its standard notation, or an IPv4 address in one of the
looser forms of `inet_aton`, which are refused (`isLooseIpv4Literal`), or a name.
-/

namespace OxenClaw.Security

/-- What a check or a lookup raises. -/
inductive SsrFBlockedError where
  | schemeNotAllowed (scheme : String) (allowed : List String)
  | noHost
  | portNotAllowed (port : ℤ)
  | looseIpv4 (host : String)
  | blockedHost (host reason : String)
  | hostnameNotAllowed (host : String)
  | unparseableIp (ip hostname : String)
  | blockedIp (hostname ip reason : String)
  | dnsFailed (host exc : String)
  | noUsableAddresses (host : String)

/-- `repr` of a string, and the `tuple` of schemes as it prints. -/
def SsrFBlockedError.message (repr : String → String) (tuple : List String → String) :
    SsrFBlockedError → String
  | .schemeNotAllowed scheme allowed => "scheme " ++ repr scheme ++ " not in " ++ tuple allowed
  | .noHost => "URL has no host"
  | .portNotAllowed port => "port " ++ toString port ++ " not allowed by policy"
  | .looseIpv4 host => "loose IPv4 literal refused: " ++ repr host
  | .blockedHost host reason => "URL host " ++ repr host ++ " blocked: " ++ reason
  | .hostnameNotAllowed host => "hostname " ++ repr host ++ " not allowed by policy"
  | .unparseableIp ip hostname =>
    "unparseable IP " ++ repr ip ++ " for " ++ repr hostname ++ ": " ++ repr ip ++
      " does not appear to be an IPv4 or IPv6 address"
  | .blockedIp hostname ip reason =>
    repr hostname ++ " resolves to " ++ ip ++ " which is blocked: " ++ reason
  | .dnsFailed host exc => "DNS resolution failed for " ++ repr host ++ ": " ++ exc
  | .noUsableAddresses host => "no usable addresses returned for " ++ repr host

/-- What `urlparse` finds in a URL. Reading the port may raise. -/
structure ParsedUrl where
  scheme : String
  netloc : String
  hostname : Option String
  port : Option (Option ℤ)

/-- What the checks use of the standard library. -/
structure NetLib where
  /-- `ipaddress.ip_address`. -/
  ipAddress : String → Option IPAddress
  /-- `str` of an address. -/
  str : IPAddress → String
  /-- `socket.inet_aton`, where it does not raise. -/
  inetAton : String → Bool
  /-- A character that `\d` matches. -/
  isDecimal : Char → Bool
  /-- `str.lower`. -/
  lower : String → String
  /-- `urllib.parse.urlparse`, where it does not raise. -/
  urlparse : String → Option ParsedUrl

section

variable (lib : NetLib)

/-- One number of `_CANONICAL_IPV4_RE`, up to 255 and without leading zeros. -/
def isOctet : List Char → Bool
  | [a] => lib.isDecimal a
  | [a, b] => '1' ≤ a && a ≤ '9' && lib.isDecimal b
  | [a, b, c] =>
    (a = '2' && b = '5' && '0' ≤ c && c ≤ '5') ||
      (a = '2' && '0' ≤ b && b ≤ '4' && lib.isDecimal c) ||
      (a = '1' && lib.isDecimal b && lib.isDecimal c)
  | _ => false

/-- `is_canonical_ipv4`. A `$` also matches before a last newline. -/
def isCanonicalIpv4 (host : String) : Bool :=
  match host.toList.splitOn '.' with
  | [a, b, c, d] =>
    isOctet lib a && isOctet lib b && isOctet lib c &&
      (isOctet lib d || (d.getLast? = some '\n' && isOctet lib d.dropLast))
  | _ => false

/-- `host.rstrip(".")`. -/
def rstripDots (host : String) : String :=
  String.ofList (host.toList.rdropWhile (· = '.'))

/-- `is_loose_ipv4_literal`. -/
def isLooseIpv4Literal (host : String) : Bool :=
  let h := rstripDots host
  if h ≠ host ∧ (isCanonicalIpv4 lib h ∨ lib.inetAton h) then true
  else if isCanonicalIpv4 lib host then false
  else lib.inetAton host

/-- `host.strip("[]")`. -/
def stripBrackets (host : String) : String :=
  let isBracket (c : Char) : Bool := c = '[' || c = ']'
  String.ofList ((host.toList.dropWhile isBracket).rdropWhile isBracket)

/-- The reason against a host that is an address. -/
def hostReason (host : String) (policy : NetPolicy) : Option String :=
  (lib.ipAddress (stripBrackets host)).bind fun ip =>
    classifyBlocked ip policy.allowPrivateNetwork policy.allowLoopback

/-- What `assert_url_allowed` raises : a `ValueError` of the parser is `none`. -/
abbrev UrlError := Option SsrFBlockedError

/-- `assert_url_allowed`. -/
def assertUrlAllowed (url : String) (policy : NetPolicy) : Except UrlError String :=
  match lib.urlparse url with
  | none => .error none
  | some parsed =>
    if !policy.isSchemeAllowed lib.lower parsed.scheme then
      .error (some (.schemeNotAllowed parsed.scheme policy.allowedSchemes))
    else
      let host := parsed.hostname.getD ""
      if host = "" then .error (some .noHost)
      else
        match parsed.port with
        | none => .error none
        | some port =>
          match port.filter fun port => !policy.isPortAllowed port with
          | some port => .error (some (.portNotAllowed port))
          | none =>
            if isLooseIpv4Literal lib host then .error (some (.looseIpv4 host))
            else
              match hostReason lib host policy with
              | some reason => .error (some (.blockedHost host reason))
              | none =>
                if policy.isHostnameAllowed lib.lower host then .ok host
                else .error (some (.hostnameNotAllowed host))

/-- `assert_ip_allowed`. -/
def assertIpAllowed (ipStr : String) (policy : NetPolicy) (hostname : String) :
    Except SsrFBlockedError IPAddress :=
  match lib.ipAddress ipStr with
  | none => .error (.unparseableIp ipStr hostname)
  | some ip =>
    match classifyBlocked ip policy.allowPrivateNetwork policy.allowLoopback with
    | some reason => .error (.blockedIp hostname (lib.str ip) reason)
    | none => .ok ip

end

end OxenClaw.Security
