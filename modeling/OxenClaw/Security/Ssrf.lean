import Mathlib.Algebra.Ring.Nat
import Mathlib.Data.List.Induction
import Mathlib.Order.Nat
import OxenClaw.Security.Policy

/-!
# Addresses and the strictness of merged policies

`classifyBlocked` refuses special-use addresses, some of them unless a flag allows them.
Fewer flags refuse more (`classifyBlocked_mono`).

A merge is at least as strict as what it merges unless a list comes out empty that was a
restriction, or an empty one meets a list : `StepKeeps` says when one step is
(`mergeTwo_strict_iff`), and `mergePolicies_strict_iff` when all of them are.
-/

namespace OxenClaw.Security

/-! ## `ipaddress` -/

abbrev IPv4Address := Fin (2 ^ 32)

abbrev IPv6Address := Fin (2 ^ 128)

inductive IPAddress where
  | v4 (ip : IPv4Address)
  | v6 (ip : IPv6Address)
  deriving DecidableEq

/-- A network, its address and the number of bits after its prefix. -/
structure Network where
  address : ℕ
  hostBits : ℕ

/-- `ip in network`. -/
def Network.has (n : Network) (ip : ℕ) : Bool :=
  ip >>> n.hostBits = n.address >>> n.hostBits

namespace IPv4Address

/-- The address `a.b.c.d` as a number. -/
def quad (a b c d : ℕ) : ℕ :=
  ((a * 256 + b) * 256 + c) * 256 + d

/-- The byte at an index, `ip.packed[i]`. -/
def packed (ip : IPv4Address) (i : ℕ) : ℕ :=
  (ip.val >>> (8 * (3 - i))) % 256

/-- `str(ip)`. -/
def str (ip : IPv4Address) : String :=
  ".".intercalate ((List.range 4).map fun i => toString (packed ip i))

def privateNetworks : List Network :=
  [⟨quad 0 0 0 0, 24⟩, ⟨quad 10 0 0 0, 24⟩, ⟨quad 127 0 0 0, 24⟩, ⟨quad 169 254 0 0, 16⟩,
    ⟨quad 172 16 0 0, 20⟩, ⟨quad 192 0 0 0, 8⟩, ⟨quad 192 0 0 170, 1⟩, ⟨quad 192 0 2 0, 8⟩,
    ⟨quad 192 168 0 0, 16⟩, ⟨quad 198 18 0 0, 17⟩, ⟨quad 198 51 100 0, 8⟩,
    ⟨quad 203 0 113 0, 8⟩, ⟨quad 240 0 0 0, 28⟩, ⟨quad 255 255 255 255, 0⟩]

def privateNetworksExceptions : List Network :=
  [⟨quad 192 0 0 9, 0⟩, ⟨quad 192 0 0 10, 0⟩]

def isLoopback (ip : IPv4Address) : Bool := Network.has ⟨quad 127 0 0 0, 24⟩ ip

def isLinkLocal (ip : IPv4Address) : Bool := Network.has ⟨quad 169 254 0 0, 16⟩ ip

def isMulticast (ip : IPv4Address) : Bool := Network.has ⟨quad 224 0 0 0, 28⟩ ip

def isReserved (ip : IPv4Address) : Bool := Network.has ⟨quad 240 0 0 0, 28⟩ ip

def isPrivate (ip : IPv4Address) : Bool :=
  privateNetworks.any (·.has ip) && privateNetworksExceptions.all fun n => !n.has ip

end IPv4Address

namespace IPv6Address

/-- The address that starts with the groups. -/
def groups (gs : List ℕ) : ℕ :=
  (gs.foldl (fun ip g => ip * 2 ^ 16 + g) 0) * 2 ^ (16 * (8 - gs.length))

def privateNetworks : List Network :=
  [⟨1, 0⟩, ⟨0, 0⟩, ⟨groups [0, 0, 0, 0, 0, 0xffff], 32⟩, ⟨groups [0x64, 0xff9b, 1], 80⟩,
    ⟨groups [0x100], 64⟩, ⟨groups [0x2001], 105⟩, ⟨groups [0x2001, 0xdb8], 96⟩,
    ⟨groups [0x2002], 112⟩, ⟨groups [0xfc00], 121⟩, ⟨groups [0xfe80], 118⟩]

def privateNetworksExceptions : List Network :=
  [⟨groups [0x2001, 1] + 1, 0⟩, ⟨groups [0x2001, 1] + 2, 0⟩, ⟨groups [0x2001, 3], 96⟩,
    ⟨groups [0x2001, 4, 0x112], 80⟩, ⟨groups [0x2001, 0x20], 100⟩, ⟨groups [0x2001, 0x30], 100⟩]

def reservedNetworks : List Network :=
  [⟨0, 120⟩, ⟨groups [0x100], 120⟩, ⟨groups [0x200], 121⟩, ⟨groups [0x400], 122⟩,
    ⟨groups [0x800], 123⟩, ⟨groups [0x1000], 124⟩, ⟨groups [0x4000], 125⟩,
    ⟨groups [0x6000], 125⟩, ⟨groups [0x8000], 125⟩, ⟨groups [0xa000], 125⟩,
    ⟨groups [0xc000], 125⟩, ⟨groups [0xe000], 124⟩, ⟨groups [0xf000], 123⟩,
    ⟨groups [0xf800], 122⟩, ⟨groups [0xfe00], 119⟩]

/-- The low 32 bits, as an IPv4 address. -/
def low32 (n : ℕ) : IPv4Address := ⟨n % 2 ^ 32, Nat.mod_lt _ (by decide)⟩

def ipv4Mapped (ip : IPv6Address) : Option IPv4Address :=
  if ip.val >>> 32 = 0xffff then some (low32 ip) else none

def sixtofour (ip : IPv6Address) : Option IPv4Address :=
  if ip.val >>> 112 = 0x2002 then some (low32 (ip.val >>> 80)) else none

/-- The client of a teredo address, whose bits are flipped. -/
def teredoClient (ip : IPv6Address) : Option IPv4Address :=
  if ip.val >>> 96 = 0x20010000 then some (low32 (2 ^ 32 - 1 - ip.val % 2 ^ 32)) else none

def isLoopback (ip : IPv6Address) : Bool := ip.val = 1

def isLinkLocal (ip : IPv6Address) : Bool := Network.has ⟨groups [0xfe80], 118⟩ ip

def isMulticast (ip : IPv6Address) : Bool := Network.has ⟨groups [0xff00], 120⟩ ip

def isReserved (ip : IPv6Address) : Bool := reservedNetworks.any (·.has ip)

def isPrivate (ip : IPv6Address) : Bool :=
  match ipv4Mapped ip with
  | some mapped => IPv4Address.isPrivate mapped
  | none => privateNetworks.any (·.has ip) && privateNetworksExceptions.all fun n => !n.has ip

/-- `is_ipv4_in_ipv6`. -/
def embedded (ip : IPv6Address) : Option IPv4Address :=
  (ipv4Mapped ip).or ((sixtofour ip).or (teredoClient ip))

end IPv6Address

/-! ## `classify_blocked` -/

/-- The first reason that applies. -/
def firstReason (reasons : List (Bool × String)) : Option String :=
  (reasons.find? Prod.fst).map Prod.snd

open IPv4Address in
/-- `classify_blocked` of an IPv4 address. -/
def classifyBlocked4 (ip : IPv4Address) (allowPrivate allowLoopback : Bool) : Option String :=
  firstReason
    [(isLoopback ip && !allowLoopback, "IPv4 loopback (127/8)"),
      (isLinkLocal ip, "IPv4 link-local (169.254/16)"),
      (isMulticast ip, "IPv4 multicast"),
      (isReserved ip, "IPv4 reserved (240/4)"),
      (str ip = "255.255.255.255", "IPv4 broadcast"),
      (packed ip 0 = 0, "IPv4 0.0.0.0/8"),
      (packed ip 0 = 100 && 64 ≤ packed ip 1 && packed ip 1 < 128, "IPv4 CGNAT (100.64/10)"),
      (packed ip 0 = 198 && (packed ip 1 = 18 || packed ip 1 = 19),
        "IPv4 RFC2544 benchmark (198.18/15)"),
      (isPrivate ip && !allowPrivate, "IPv4 private (RFC1918)")]

open IPv6Address in
/-- `classify_blocked` of an IPv6 address, past the address embedded in it. -/
def classifyBlocked6 (ip : IPv6Address) (allowPrivate allowLoopback : Bool) : Option String :=
  firstReason
    [(isLoopback ip && !allowLoopback, "IPv6 loopback (::1)"),
      (isLinkLocal ip, "IPv6 link-local (fe80::/10)"),
      (isMulticast ip, "IPv6 multicast"),
      (isPrivate ip && !allowPrivate, "IPv6 private/ULA"),
      (isReserved ip, "IPv6 reserved")]

/-- The reason for the address embedded in an IPv6 address. -/
def classifyEmbedded (ip : IPv6Address) (allowPrivate allowLoopback : Bool) : Option String :=
  (IPv6Address.embedded ip).bind fun inner =>
    (classifyBlocked4 inner allowPrivate allowLoopback).map fun reason =>
      "IPv6-embedded IPv4 " ++ IPv4Address.str inner ++ ": " ++ reason

/-- `classify_blocked`. -/
def classifyBlocked (ip : IPAddress) (allowPrivate allowLoopback : Bool) : Option String :=
  match ip with
  | .v4 ip => classifyBlocked4 ip allowPrivate allowLoopback
  | .v6 ip =>
    (classifyEmbedded ip allowPrivate allowLoopback).or
      (classifyBlocked6 ip allowPrivate allowLoopback)

theorem firstReason_eq_none {reasons : List (Bool × String)} :
    firstReason reasons = none ↔ ∀ r ∈ reasons, r.1 = false := by
  simp [firstReason, List.find?_eq_none]

/-! ## Fewer flags refuse more -/

section
variable {private₁ private₂ loopback₁ loopback₂ : Bool}

theorem classifyBlocked4_mono (hprivate : private₁ = true → private₂ = true)
    (hloopback : loopback₁ = true → loopback₂ = true) {ip : IPv4Address}
    (h : classifyBlocked4 ip private₁ loopback₁ = none) :
    classifyBlocked4 ip private₂ loopback₂ = none := by
  simp only [classifyBlocked4, firstReason_eq_none, List.forall_mem_cons, Bool.and_eq_false_iff,
    Bool.not_eq_false'] at h ⊢
  exact ⟨h.1.imp_right hloopback, h.2.1, h.2.2.1, h.2.2.2.1, h.2.2.2.2.1, h.2.2.2.2.2.1,
    h.2.2.2.2.2.2.1, h.2.2.2.2.2.2.2.1, h.2.2.2.2.2.2.2.2.1.imp_right hprivate,
    h.2.2.2.2.2.2.2.2.2⟩

theorem classifyBlocked6_mono (hprivate : private₁ = true → private₂ = true)
    (hloopback : loopback₁ = true → loopback₂ = true) {ip : IPv6Address}
    (h : classifyBlocked6 ip private₁ loopback₁ = none) :
    classifyBlocked6 ip private₂ loopback₂ = none := by
  simp only [classifyBlocked6, firstReason_eq_none, List.forall_mem_cons, Bool.and_eq_false_iff,
    Bool.not_eq_false'] at h ⊢
  exact ⟨h.1.imp_right hloopback, h.2.1, h.2.2.1, h.2.2.2.1.imp_right hprivate, h.2.2.2.2⟩

theorem classifyBlocked_mono (hprivate : private₁ = true → private₂ = true)
    (hloopback : loopback₁ = true → loopback₂ = true) {ip : IPAddress}
    (h : classifyBlocked ip private₁ loopback₁ = none) :
    classifyBlocked ip private₂ loopback₂ = none := by
  cases ip with
  | v4 ip => exact classifyBlocked4_mono hprivate hloopback h
  | v6 ip =>
    obtain ⟨hembedded, hown⟩ := Option.or_eq_none_iff.1 h
    refine Option.or_eq_none_iff.2 ⟨?_, classifyBlocked6_mono hprivate hloopback hown⟩
    unfold classifyEmbedded at hembedded ⊢
    rw [Option.bind_eq_none_iff] at hembedded ⊢
    intro inner hinner
    have hnone := Option.map_eq_none_iff.1 (hembedded inner hinner)
    exact Option.map_eq_none_iff.2 (classifyBlocked4_mono hprivate hloopback hnone)

end

/-! ## What a policy permits -/

/-- Where a request goes. -/
structure Target where
  hostname : String
  port : ℤ
  scheme : String
  address : IPAddress

/-- The address passes `classify_blocked` with the policy's flags. -/
def NetPolicy.isAddressAllowed (p : NetPolicy) (ip : IPAddress) : Bool :=
  (classifyBlocked ip p.allowPrivateNetwork p.allowLoopback).isNone

def NetPolicy.permits (lower : String → String) (p : NetPolicy) (t : Target) : Bool :=
  p.isHostnameAllowed lower t.hostname && p.isPortAllowed t.port &&
    p.isSchemeAllowed lower t.scheme && p.isAddressAllowed t.address

/-- A merge that raises refuses everything. -/
def permitsMerged (lower : String → String) (merged : Except NetPolicyError NetPolicy)
    (t : Target) : Bool :=
  match merged with
  | .ok m => m.permits lower t
  | .error _ => false

/-- What the first policy allows the second does, part by part. -/
structure StricterThan (lower : String → String) (m p : NetPolicy) : Prop where
  hostname : ∀ host, m.isHostnameAllowed lower host = true → p.isHostnameAllowed lower host = true
  port : ∀ port, m.isPortAllowed port = true → p.isPortAllowed port = true
  scheme : ∀ scheme, m.isSchemeAllowed lower scheme = true → p.isSchemeAllowed lower scheme = true
  address : ∀ ip, m.isAddressAllowed ip = true → p.isAddressAllowed ip = true

theorem StricterThan.permits {lower : String → String} {m p : NetPolicy}
    (h : StricterThan lower m p) {t : Target} (ht : m.permits lower t = true) :
    p.permits lower t = true := by
  simp only [NetPolicy.permits, Bool.and_eq_true] at ht ⊢
  obtain ⟨⟨⟨hhost, hport⟩, hscheme⟩, haddress⟩ := ht
  exact ⟨⟨⟨h.hostname _ hhost, h.port _ hport⟩, h.scheme _ hscheme⟩, h.address _ haddress⟩

/-! ## One step of a merge -/

/-- The step that merges `p` into `out`, the merge of the policies `before`, gives up no
restriction : an allowlist that comes out empty restricted nothing that is not denied, and a
list that was empty meets only what it allowed. -/
structure StepKeeps (lower : String → String) (before : List NetPolicy) (out p : NetPolicy) :
    Prop where
  hostnames : out.allowedHostnames = [] ∨ p.allowedHostnames = [] ∨
    (∃ pat ∈ out.allowedHostnames, pat ∈ p.allowedHostnames) ∨
    ∀ host, hostnameMatches lower (lower host) out.deniedHostnames = false →
      hostnameMatches lower (lower host) p.deniedHostnames = false →
      ∀ q ∈ before ++ [p], q.isHostnameAllowed lower host = true
  ports : (out.extraAllowedPorts = [] → ∀ port, p.isPortAllowed port = true →
      ∀ q ∈ before, q.isPortAllowed port = true) ∧
    (p.extraAllowedPorts = [] → ∀ port, out.isPortAllowed port = true →
      p.isPortAllowed port = true)
  schemes : (out.allowedSchemes = [] → ∀ scheme, p.isSchemeAllowed lower scheme = true →
      ∀ q ∈ before, q.isSchemeAllowed lower scheme = true) ∧
    (p.allowedSchemes = [] → ∀ scheme, out.isSchemeAllowed lower scheme = true →
      p.isSchemeAllowed lower scheme = true)

section
variable {lower : String → String} {before : List NetPolicy} {out p m : NetPolicy}

/-- The flags are only ever cleared. -/
theorem mergeTwo_address (hm : mergeTwo out p = .ok m) (ip : IPAddress)
    (h : m.isAddressAllowed ip = true) :
    out.isAddressAllowed ip = true ∧ p.isAddressAllowed ip = true := by
  obtain ⟨-, -, hprivate, hloopback, -⟩ := NetPolicy.new_eq_ok hm
  simp only [NetPolicy.isAddressAllowed, Option.isNone_iff_eq_none, hprivate, hloopback] at h ⊢
  refine ⟨classifyBlocked_mono ?_ ?_ h, classifyBlocked_mono ?_ ?_ h⟩ <;>
    simp only [Bool.and_eq_true] <;> tauto

/-- A merged allowlist that is not empty matches only what both lists match. -/
theorem mergeTwo_matches (hm : mergeTwo out p = .ok m) (hout : out.allowedHostnames ≠ [])
    (hp : p.allowedHostnames ≠ []) {host : String}
    (h : hostnameMatches lower host m.allowedHostnames = true) :
    hostnameMatches lower host out.allowedHostnames = true ∧
      hostnameMatches lower host p.allowedHostnames = true := by
  rw [(NetPolicy.new_eq_ok hm).1] at h
  obtain ⟨pat, hpat, hmatch⟩ := hostnameMatches_iff.1 h
  obtain ⟨hpatOut, hpatP⟩ := (mem_mergeList hout hp).1 hpat
  exact ⟨hostnameMatches_iff.2 ⟨pat, hpatOut, hmatch⟩, hostnameMatches_iff.2 ⟨pat, hpatP, hmatch⟩⟩

/-- Where a step loses no allowlist, it allows what both sides allow. -/
theorem mergeTwo_hostname (hm : mergeTwo out p = .ok m)
    (hkeep : out.allowedHostnames = [] ∨ p.allowedHostnames = [] ∨
      ∃ pat ∈ out.allowedHostnames, pat ∈ p.allowedHostnames) {host : String}
    (h : m.isHostnameAllowed lower host = true) :
    out.isHostnameAllowed lower host = true ∧ p.isHostnameAllowed lower host = true := by
  rw [NetPolicy.isHostnameAllowed_iff, mergeTwo_denied hm] at h
  obtain ⟨⟨hout, hp⟩, hallowed⟩ := h
  have hlist := (NetPolicy.new_eq_ok hm).1
  simp only [NetPolicy.isHostnameAllowed_iff, hout, hp, true_and]
  rcases eq_or_ne out.allowedHostnames [] with hnil | hne
  · rw [hnil, mergeList_nil_left] at hlist
    exact ⟨Or.inl hnil, hlist ▸ hallowed⟩
  rcases eq_or_ne p.allowedHostnames [] with hnil' | hne'
  · rw [hnil', mergeList_nil_right] at hlist
    exact ⟨hlist ▸ hallowed, Or.inl hnil'⟩
  obtain ⟨pat, hpat, hpat'⟩ := (hkeep.resolve_left hne).resolve_left hne'
  have hm' : m.allowedHostnames ≠ [] := fun hnil =>
    (mergeList_eq_nil hne hne').1 (hlist.symm.trans hnil) pat hpat hpat'
  exact (mergeTwo_matches hm hne hne' (hallowed.resolve_left hm')).imp Or.inr Or.inr

theorem mergeTwo_hostname_iff (hm : mergeTwo out p = .ok m)
    (hbefore : ∀ q ∈ before, ∀ host, out.isHostnameAllowed lower host = true →
      q.isHostnameAllowed lower host = true) :
    (∀ q ∈ before ++ [p], ∀ host, m.isHostnameAllowed lower host = true →
        q.isHostnameAllowed lower host = true) ↔
      (out.allowedHostnames = [] ∨ p.allowedHostnames = [] ∨
        (∃ pat ∈ out.allowedHostnames, pat ∈ p.allowedHostnames) ∨
        ∀ host, hostnameMatches lower (lower host) out.deniedHostnames = false →
          hostnameMatches lower (lower host) p.deniedHostnames = false →
          ∀ q ∈ before ++ [p], q.isHostnameAllowed lower host = true) := by
  constructor
  · intro hstrict
    by_cases hout : out.allowedHostnames = []
    · exact Or.inl hout
    by_cases hp : p.allowedHostnames = []
    · exact Or.inr (Or.inl hp)
    by_cases hshare : ∃ pat ∈ out.allowedHostnames, pat ∈ p.allowedHostnames
    · exact Or.inr (Or.inr (Or.inl hshare))
    refine Or.inr (Or.inr (Or.inr fun host hdout hdp q hq => hstrict q hq host ?_))
    push Not at hshare
    have hnil : m.allowedHostnames = [] := by
      rw [(NetPolicy.new_eq_ok hm).1]
      exact (mergeList_eq_nil hout hp).2 hshare
    exact NetPolicy.isHostnameAllowed_iff.2 ⟨(mergeTwo_denied hm _).2 ⟨hdout, hdp⟩, Or.inl hnil⟩
  · intro hcond q hq host hallowed
    rw [← or_assoc, ← or_assoc, or_assoc (a := _ = [])] at hcond
    rcases hcond with hkeep | hsame
    · obtain ⟨hout, hp⟩ := mergeTwo_hostname hm hkeep hallowed
      rcases List.mem_append.1 hq with hq | hq
      · exact hbefore q hq host hout
      · rwa [List.mem_singleton.1 hq]
    · obtain ⟨hdenied, -⟩ := NetPolicy.isHostnameAllowed_iff.1 hallowed
      obtain ⟨hdout, hdp⟩ := (mergeTwo_denied hm _).1 hdenied
      exact hsame host hdout hdp q hq

/-- A step is strict exactly when it keeps every restriction. -/
theorem mergeTwo_strict_iff (hm : mergeTwo out p = .ok m)
    (hbefore : ∀ q ∈ before, StricterThan lower out q) :
    (∀ q ∈ before ++ [p], StricterThan lower m q) ↔ StepKeeps lower before out p := by
  obtain ⟨-, -, -, -, hports, hschemes⟩ := NetPolicy.new_eq_ok hm
  have hhost := mergeTwo_hostname_iff hm fun q hq => (hbefore q hq).hostname
  have hport := mergeList_strict_iff (M := fun x => m.isPortAllowed x = true)
    (B := fun x => ∀ q ∈ before, q.isPortAllowed x = true)
    out.isPortAllowed_iff p.isPortAllowed_iff (fun x => hports ▸ m.isPortAllowed_iff x)
    fun x hx q hq => (hbefore q hq).port x hx
  have hscheme := mergeList_strict_iff (M := fun x => m.isSchemeAllowed lower x = true)
    (B := fun x => ∀ q ∈ before, q.isSchemeAllowed lower x = true)
    out.isSchemeAllowed_iff p.isSchemeAllowed_iff (fun x => hschemes ▸ m.isSchemeAllowed_iff x)
    fun x hx q hq => (hbefore q hq).scheme x hx
  constructor
  · intro hstrict
    have hp : StricterThan lower m p := hstrict p (by simp)
    have hq : ∀ q ∈ before, StricterThan lower m q := fun q hq => hstrict q (by simp [hq])
    exact ⟨hhost.1 fun q hq => (hstrict q hq).hostname,
      hport.1 fun x hx => ⟨fun q hmem => (hq q hmem).port x hx, hp.port x hx⟩,
      hscheme.1 fun x hx => ⟨fun q hmem => (hq q hmem).scheme x hx, hp.scheme x hx⟩⟩
  · intro hkeeps q hq
    refine ⟨hhost.2 hkeeps.hostnames q hq, fun x hx => ?_, fun x hx => ?_, fun ip hip => ?_⟩
    · obtain ⟨hqs, hp⟩ := hport.2 hkeeps.ports x hx
      rcases List.mem_append.1 hq with hq | hq
      · exact hqs q hq
      · rwa [List.mem_singleton.1 hq]
    · obtain ⟨hqs, hp⟩ := hscheme.2 hkeeps.schemes x hx
      rcases List.mem_append.1 hq with hq | hq
      · exact hqs q hq
      · rwa [List.mem_singleton.1 hq]
    · obtain ⟨hout, hp⟩ := mergeTwo_address hm ip hip
      rcases List.mem_append.1 hq with hq | hq
      · exact (hbefore q hq).address ip hout
      · rwa [List.mem_singleton.1 hq]

end

/-! ## Merges of any number of policies -/

/-- The merge is at least as strict as each policy, if it does not raise. -/
def MergeIsStrict (lower : String → String) (policies : List NetPolicy) : Prop :=
  ∀ m, mergePolicies (policies.map some) = .ok m → ∀ q ∈ policies, StricterThan lower m q

/-- Every step that does not raise gives up no restriction. -/
def EveryStepKeeps (lower : String → String) (policies : List NetPolicy) : Prop :=
  ∀ before p after out, policies = before ++ p :: after → before ≠ [] →
    mergePolicies (before.map some) = .ok out → (∃ m, mergeTwo out p = .ok m) →
    StepKeeps lower before out p

section
variable {lower : String → String} {before : List NetPolicy}

theorem mergeIsStrict_nil : MergeIsStrict lower [] :=
  nofun

theorem mergeIsStrict_singleton (p : NetPolicy) : MergeIsStrict lower [p] := by
  intro m hm q hq
  obtain rfl := List.mem_singleton.1 hq
  obtain rfl := Except.ok.inj hm
  exact ⟨fun _ => id, fun _ => id, fun _ => id, fun _ => id⟩

/-- One more policy keeps a strict merge strict exactly when its step does. -/
theorem mergeIsStrict_append_singleton (hne : before ≠ []) (hbefore : MergeIsStrict lower before)
    (p : NetPolicy) : MergeIsStrict lower (before ++ [p]) ↔
      ∀ out, mergePolicies (before.map some) = .ok out → (∃ m, mergeTwo out p = .ok m) →
        StepKeeps lower before out p := by
  unfold MergeIsStrict
  rw [mergePolicies_append_singleton hne]
  constructor
  · rintro hstrict out hout ⟨m, hm⟩
    have hmerged := hstrict m (by rw [hout]; exact hm)
    exact (mergeTwo_strict_iff hm (hbefore out hout)).1 hmerged
  · intro hkeeps m hmerged
    rcases hout : mergePolicies (before.map some) with e | out
    · rw [hout] at hmerged
      cases hmerged
    · rw [hout] at hmerged
      exact (mergeTwo_strict_iff hmerged (hbefore out hout)).2 (hkeeps out hout ⟨m, hmerged⟩)

end

/-- All merges on the way are at least as strict as what they merge exactly when every step
keeps the restrictions. Then the whole merge permits only what every policy permits. -/
theorem mergePolicies_strict_iff (lower : String → String) (policies : List NetPolicy) :
    ((∀ before, before <+: policies → MergeIsStrict lower before) ↔
        EveryStepKeeps lower policies) ∧
      (EveryStepKeeps lower policies →
        ∀ t, permitsMerged lower (mergePolicies (policies.map some)) t = true →
          ∀ q ∈ policies, q.permits lower t = true) := by
  have hiff : (∀ before, before <+: policies → MergeIsStrict lower before) ↔
      EveryStepKeeps lower policies := by
    constructor
    · rintro hstrict before p after out rfl hne hout hm
      have hbefore := hstrict before (List.prefix_append _ _)
      have hnext := hstrict (before ++ [p]) (by simp)
      exact (mergeIsStrict_append_singleton hne hbefore p).1 hnext out hout hm
    · intro hkeeps before
      induction before using List.reverseRecOn with
      | nil => exact fun _ => mergeIsStrict_nil
      | append_singleton before p ih =>
        rintro ⟨after, hafter⟩
        rcases eq_or_ne before [] with rfl | hne
        · exact mergeIsStrict_singleton p
        · rw [List.append_assoc, List.singleton_append] at hafter
          have hbefore := ih ⟨p :: after, hafter⟩
          exact (mergeIsStrict_append_singleton hne hbefore p).2 fun out =>
            hkeeps before p after out hafter.symm hne
  refine ⟨hiff, fun hkeeps t ht q hq => ?_⟩
  rcases hmerged : mergePolicies (policies.map some) with e | m
  · rw [hmerged] at ht
    cases ht
  · rw [hmerged] at ht
    exact (hiff.2 hkeeps policies (List.prefix_refl _) m hmerged q hq).permits ht

/-- Two allowlists with nothing in common merge to everything. -/
theorem mergePolicies_not_strict :
    ¬∀ (policies : List NetPolicy) (t : Target),
      permitsMerged id (mergePolicies (policies.map some)) t = true →
        ∀ q ∈ policies, q.permits id t = true := by
  intro h
  have hfirst := h [{ allowedHostnames := ["a.com"] }, { allowedHostnames := ["b.com"] }]
    ⟨"evil.com", 443, "https", .v4 ⟨IPv4Address.quad 8 8 8 8, by decide⟩⟩ (by decide) _
    List.mem_cons_self
  exact absurd hfirst (by decide)

/-- Two allowlists with a name in common. -/
theorem mergePolicies_strict_iff_shared :
    ∀ t, permitsMerged id (mergePolicies (List.map some
        [{ allowedHostnames := ["a.com", "b.com"] }, { allowedHostnames := ["b.com"] }])) t = true →
      ∀ q ∈ [({ allowedHostnames := ["a.com", "b.com"] } : NetPolicy),
        { allowedHostnames := ["b.com"] }], q.permits id t = true := by
  refine (mergePolicies_strict_iff id _).2 ?_
  rintro before p after out hpolicies hne hout -
  obtain ⟨q, qs, rfl⟩ := List.exists_cons_of_ne_nil hne
  obtain ⟨rfl, hrest⟩ := List.cons.inj hpolicies
  rcases qs with _ | ⟨r, rs⟩
  · obtain ⟨rfl, -⟩ := List.cons.inj hrest
    obtain rfl := Except.ok.inj hout
    exact ⟨Or.inr (Or.inr (Or.inl ⟨"b.com", by decide, by decide⟩)),
      ⟨fun _ port hport q hq => by obtain rfl := List.mem_singleton.1 hq; exact hport,
        fun _ _ hport => hport⟩, nofun, nofun⟩
  · simp at hrest

end OxenClaw.Security
