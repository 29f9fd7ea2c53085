import OxenClaw.Security.Ssrf

/-!
# Which addresses the classifier lets through

An address should pass if it is in no range that is always blocked, a loopback address if that flag
allows it, any other private address if the other one does, and an address that embeds another one
if that one passes (`MayPass`). `classifyBlocked` asks loopback addresses of IPv4 for both flags,
since they are private as well. It lets through what it should everywhere else
(`classifyBlocked_eq_none_iff`).
-/

namespace OxenClaw.Security

/-! ## What should pass -/

namespace IPv4Address

/-- Link-local, multicast, reserved, broadcast, `0/8`, CGNAT and benchmark. -/
def alwaysBlocked : List Network :=
  [⟨quad 169 254 0 0, 16⟩, ⟨quad 224 0 0 0, 28⟩, ⟨quad 240 0 0 0, 28⟩,
    ⟨quad 255 255 255 255, 0⟩, ⟨quad 0 0 0 0, 24⟩, ⟨quad 100 64 0 0, 22⟩, ⟨quad 198 18 0 0, 17⟩]

structure MayPass (ip : IPv4Address) (allowPrivate allowLoopback : Bool) : Prop where
  notBlocked : ∀ n ∈ alwaysBlocked, n.has ip = false
  loopback : isLoopback ip = true → allowLoopback = true
  otherPrivate : isPrivate ip = true → isLoopback ip = false → allowPrivate = true

end IPv4Address

namespace IPv6Address

/-- Link-local, multicast and reserved. -/
def alwaysBlocked : List Network :=
  ⟨groups [0xfe80], 118⟩ :: ⟨groups [0xff00], 120⟩ :: reservedNetworks

structure MayPass (ip : IPv6Address) (allowPrivate allowLoopback : Bool) : Prop where
  notBlocked : ∀ n ∈ alwaysBlocked, n.has ip = false
  loopback : isLoopback ip = true → allowLoopback = true
  otherPrivate : isPrivate ip = true → isLoopback ip = false → allowPrivate = true
  embedded : ∀ inner ∈ embedded ip, inner.MayPass allowPrivate allowLoopback

end IPv6Address

/-- What is to be let through. -/
def MayPass (allowPrivate allowLoopback : Bool) : IPAddress → Prop
  | .v4 ip => ip.MayPass allowPrivate allowLoopback
  | .v6 ip => ip.MayPass allowPrivate allowLoopback

/-- A loopback address of IPv4 that only its own flag allows. -/
def LoopbackOnly (allowPrivate allowLoopback : Bool) : IPAddress → Prop
  | .v4 ip => IPv4Address.isLoopback ip = true ∧ allowLoopback = true ∧ allowPrivate = false
  | .v6 _ => False

/-! ## IPv4 -/

section

variable {allowPrivate allowLoopback : Bool}

namespace IPv4Address

variable {ip : IPv4Address}

/-- A text of an address starts with its first byte. -/
theorem packed_of_str {ip jp : IPv4Address} (h : str ip = str jp) : packed ip 0 = packed jp 0 := by
  have hread : ∀ ip, (str ip).toList.takeWhile (· ≠ '.') = Nat.toDigits 10 (packed ip 0) := by
    intro ip
    have hdigits : ∀ c ∈ Nat.toDigits 10 (packed ip 0), decide (c ≠ '.') = true := by
      intro c hc
      have hdigit := Nat.isDigit_of_mem_toDigits (by decide) (by decide) hc
      refine decide_eq_true ?_
      rintro rfl
      exact absurd hdigit (by decide)
    have hstr : (str ip).toList = Nat.toDigits 10 (packed ip 0) ++
        '.' :: (Nat.toDigits 10 (packed ip 1) ++ '.' :: (Nat.toDigits 10 (packed ip 2) ++
          '.' :: Nat.toDigits 10 (packed ip 3))) := by
      simp [str, List.range, List.range.loop]
    rw [hstr, List.takeWhile_append_of_pos hdigits]
    simp
  have hdigits : Nat.toDigits 10 (packed ip 0) = Nat.toDigits 10 (packed jp 0) := by
    rw [← hread, h, hread]
  have hvalue := congrArg (fun l => Nat.ofDigitChars 10 l 0) hdigits
  simpa using hvalue

theorem str_ne_broadcast (h : isReserved ip = false) : str ip ≠ "255.255.255.255" := by
  intro hstr
  have hbroadcast : str ⟨2 ^ 32 - 1, by decide⟩ = "255.255.255.255" := by decide +kernel
  have hpacked := packed_of_str (hstr.trans hbroadcast.symm)
  have hval := ip.isLt
  simp only [packed, isReserved, Network.has, quad, Nat.shiftRight_eq_div_pow,
    decide_eq_false_iff_not] at hpacked h
  omega

/-- The tests on the bytes are those for the ranges. -/
theorem cgnat_iff : (packed ip 0 = 100 && 64 ≤ packed ip 1 && packed ip 1 < 128) =
    Network.has ⟨quad 100 64 0 0, 22⟩ ip := by
  have hval := ip.isLt
  rw [Bool.eq_iff_iff]
  simp only [packed, Network.has, quad, Nat.shiftRight_eq_div_pow, Bool.and_eq_true,
    decide_eq_true_eq]
  omega

theorem benchmark_iff : (packed ip 0 = 198 && (packed ip 1 = 18 || packed ip 1 = 19)) =
    Network.has ⟨quad 198 18 0 0, 17⟩ ip := by
  have hval := ip.isLt
  rw [Bool.eq_iff_iff]
  simp only [packed, Network.has, quad, Nat.shiftRight_eq_div_pow, Bool.and_eq_true,
    Bool.or_eq_true, decide_eq_true_eq]
  omega

theorem zero_iff : (packed ip 0 = 0 : Bool) = Network.has ⟨quad 0 0 0 0, 24⟩ ip := by
  have hval := ip.isLt
  rw [Bool.eq_iff_iff]
  simp only [packed, Network.has, quad, Nat.shiftRight_eq_div_pow, decide_eq_true_eq]
  omega

/-- The broadcast address is reserved. -/
theorem not_broadcast (h : isReserved ip = false) :
    Network.has ⟨quad 255 255 255 255, 0⟩ ip = false := by
  simp only [isReserved, Network.has, quad, Nat.shiftRight_eq_div_pow,
    decide_eq_false_iff_not] at h ⊢
  omega

theorem isPrivate_of_isLoopback (h : isLoopback ip = true) : isPrivate ip = true := by
  simp [isLoopback, isPrivate, Network.has, privateNetworks, privateNetworksExceptions, quad,
    Nat.shiftRight_eq_div_pow] at h ⊢
  omega

theorem notBlocked_of_isLoopback (h : isLoopback ip = true) :
    ∀ n ∈ alwaysBlocked, n.has ip = false := by
  simp [isLoopback, alwaysBlocked, Network.has, quad, Nat.shiftRight_eq_div_pow] at h ⊢
  omega

/-- An address passes the classifier if a private one has the flag for private addresses, too. -/
theorem classifyBlocked4_eq_none_iff : classifyBlocked4 ip allowPrivate allowLoopback = none ↔
    (∀ n ∈ alwaysBlocked, n.has ip = false) ∧ (isLoopback ip = true → allowLoopback = true) ∧
      (isPrivate ip = true → allowPrivate = true) := by
  have himp : ∀ a b : Bool, (a && !b) = false ↔ (a = true → b = true) := by decide
  simp only [classifyBlocked4, firstReason_eq_none, List.forall_mem_cons, cgnat_iff, benchmark_iff,
    zero_iff, himp, alwaysBlocked]
  constructor
  · rintro ⟨hloop, hlink, hmulti, hreserved, -, hzero, hcgnat, hbench, hprivate, -⟩
    exact ⟨⟨hlink, hmulti, hreserved, not_broadcast hreserved, hzero, hcgnat, hbench,
      fun _ h => absurd h List.not_mem_nil⟩, hloop, hprivate⟩
  · rintro ⟨⟨hlink, hmulti, hreserved, -, hzero, hcgnat, hbench, -⟩, hloop, hprivate⟩
    exact ⟨hloop, hlink, hmulti, hreserved, decide_eq_false (str_ne_broadcast hreserved), hzero,
      hcgnat, hbench, hprivate, fun _ h => absurd h List.not_mem_nil⟩

/-- With the flag for private addresses, the classifier lets through what it should. -/
theorem mayPass_of_allowPrivate : classifyBlocked4 ip true allowLoopback = none ↔
    ip.MayPass true allowLoopback := by
  rw [classifyBlocked4_eq_none_iff]
  exact ⟨fun ⟨hblocked, hloop, _⟩ => ⟨hblocked, hloop, fun _ _ => rfl⟩,
    fun h => ⟨h.notBlocked, h.loopback, fun _ => rfl⟩⟩

theorem mayPass_iff : (classifyBlocked4 ip allowPrivate allowLoopback = none ↔
      ip.MayPass allowPrivate allowLoopback) ↔
    ¬(isLoopback ip = true ∧ allowLoopback = true ∧ allowPrivate = false) := by
  rw [classifyBlocked4_eq_none_iff]
  constructor
  · rintro hiff ⟨hloop, hallow, hnot⟩
    have hpass : ip.MayPass allowPrivate allowLoopback := by
      refine ⟨notBlocked_of_isLoopback hloop, fun _ => hallow, fun _ hno => ?_⟩
      rw [hloop] at hno
      cases hno
    have hprivate := (hiff.2 hpass).2.2 (isPrivate_of_isLoopback hloop)
    exact Bool.false_ne_true (hnot.symm.trans hprivate)
  · intro hnot
    constructor
    · rintro ⟨hblocked, hloop, hprivate⟩
      exact ⟨hblocked, hloop, fun h _ => hprivate h⟩
    · intro h
      refine ⟨h.notBlocked, h.loopback, fun hprivate => ?_⟩
      rcases hloop : isLoopback ip with _ | _
      · exact h.otherPrivate hprivate hloop
      · by_contra hflag
        exact hnot ⟨hloop, h.loopback hloop, Bool.eq_false_iff.2 hflag⟩

end IPv4Address

/-! ## IPv6 -/

namespace IPv6Address

variable {ip : IPv6Address}

theorem isReserved_of_isLoopback (h : isLoopback ip = true) : isReserved ip = true := by
  simp [isLoopback, isReserved, Network.has, reservedNetworks, groups,
    Nat.shiftRight_eq_div_pow] at h ⊢
  omega

theorem isReserved_of_ipv4Mapped {inner : IPv4Address} (h : ipv4Mapped ip = some inner) :
    isReserved ip = true := by
  have hmapped : ip.val / 2 ^ 32 = 0xffff := by
    unfold ipv4Mapped at h
    split_ifs at h with hmapped
    rwa [Nat.shiftRight_eq_div_pow] at hmapped
  simp [isReserved, Network.has, reservedNetworks, groups, Nat.shiftRight_eq_div_pow]
  omega

/-- An address that embeds another one, and is not reserved, is private. -/
theorem isPrivate_of_embedded {inner : IPv4Address} (h : embedded ip = some inner)
    (hreserved : isReserved ip = false) : isPrivate ip = true := by
  have hnone : ipv4Mapped ip = none := by
    rcases hmapped : ipv4Mapped ip with _ | mapped
    · rfl
    · rw [isReserved_of_ipv4Mapped hmapped] at hreserved
      cases hreserved
  have hranges : ip.val / 2 ^ 112 = 0x2002 ∨ ip.val / 2 ^ 96 = 0x20010000 := by
    rw [embedded, hnone, Option.none_or] at h
    rcases hsix : sixtofour ip with _ | six
    · rw [hsix, Option.none_or, teredoClient] at h
      split_ifs at h with hteredo
      exact Or.inr (Nat.shiftRight_eq_div_pow .. ▸ hteredo)
    · unfold sixtofour at hsix
      split_ifs at hsix with hprefix
      exact Or.inl (Nat.shiftRight_eq_div_pow .. ▸ hprefix)
  rw [isPrivate, hnone]
  simp [Network.has, privateNetworks, privateNetworksExceptions, groups,
    Nat.shiftRight_eq_div_pow]
  omega

theorem isReserved_eq_false_iff :
    isReserved ip = false ↔ ∀ n ∈ reservedNetworks, n.has ip = false := by
  simp [isReserved]

theorem isReserved_eq_false (h : ∀ n ∈ alwaysBlocked, n.has ip = false) : isReserved ip = false :=
  isReserved_eq_false_iff.2 fun n hn =>
    h n (List.mem_cons_of_mem _ (List.mem_cons_of_mem _ hn))

theorem classifyBlocked6_eq_none_iff : classifyBlocked6 ip allowPrivate allowLoopback = none ↔
    (∀ n ∈ alwaysBlocked, n.has ip = false) ∧ (isLoopback ip = true → allowLoopback = true) ∧
      (isPrivate ip = true → allowPrivate = true) := by
  have himp : ∀ a b : Bool, (a && !b) = false ↔ (a = true → b = true) := by decide
  simp only [classifyBlocked6, firstReason_eq_none, List.forall_mem_cons, himp, alwaysBlocked,
    isReserved_eq_false_iff]
  constructor
  · rintro ⟨hloop, hlink, hmulti, hprivate, hreserved, -⟩
    exact ⟨⟨hlink, hmulti, hreserved⟩, hloop, hprivate⟩
  · rintro ⟨⟨hlink, hmulti, hreserved⟩, hloop, hprivate⟩
    exact ⟨hloop, hlink, hmulti, hprivate, hreserved, fun _ h => absurd h List.not_mem_nil⟩

theorem mayPass_iff : classifyBlocked (.v6 ip) allowPrivate allowLoopback = none ↔
    ip.MayPass allowPrivate allowLoopback := by
  rw [classifyBlocked, Option.or_eq_none_iff, classifyBlocked6_eq_none_iff, classifyEmbedded,
    Option.bind_eq_none_iff]
  simp only [Option.map_eq_none_iff]
  constructor
  · rintro ⟨hinner, hblocked, hloop, hprivate⟩
    refine ⟨hblocked, hloop, fun h _ => hprivate h, fun inner hmem => ?_⟩
    have hreserved := isReserved_eq_false hblocked
    have hallow := hprivate (isPrivate_of_embedded hmem hreserved)
    subst hallow
    exact IPv4Address.mayPass_of_allowPrivate.1 (hinner inner hmem)
  · intro h
    have hreserved := isReserved_eq_false h.notBlocked
    have hprivate : isPrivate ip = true → allowPrivate = true := fun hp => by
      refine h.otherPrivate hp (Bool.eq_false_iff.2 fun hloop => ?_)
      rw [isReserved_of_isLoopback hloop] at hreserved
      cases hreserved
    refine ⟨fun inner hmem => ?_, h.notBlocked, h.loopback, hprivate⟩
    have hallow := hprivate (isPrivate_of_embedded hmem hreserved)
    subst hallow
    exact IPv4Address.mayPass_of_allowPrivate.2 (h.embedded inner hmem)

end IPv6Address

/-! ## Every address -/

/-- Nothing passes the classifier that should not. -/
theorem mayPass_of_classifyBlocked {ip : IPAddress}
    (h : classifyBlocked ip allowPrivate allowLoopback = none) :
    MayPass allowPrivate allowLoopback ip := by
  rcases ip with ip | ip
  · obtain ⟨hblocked, hloop, hprivate⟩ := IPv4Address.classifyBlocked4_eq_none_iff.1 h
    exact ⟨hblocked, hloop, fun hp _ => hprivate hp⟩
  · exact IPv6Address.mayPass_iff.1 h

/-- The classifier lets through what it should, but loopback addresses of IPv4 that only the flag
for loopback addresses allows. -/
theorem classifyBlocked_eq_none_iff (ip : IPAddress) (allowPrivate allowLoopback : Bool) :
    (classifyBlocked ip allowPrivate allowLoopback = none ↔
      MayPass allowPrivate allowLoopback ip) ↔ ¬LoopbackOnly allowPrivate allowLoopback ip := by
  rcases ip with ip | ip
  · exact IPv4Address.mayPass_iff
  · exact iff_of_true IPv6Address.mayPass_iff id

/-- `127.0.0.1` is refused where loopback addresses are allowed. -/
theorem loopback_refused : ¬∀ (ip : IPAddress) (allowPrivate allowLoopback : Bool),
    classifyBlocked ip allowPrivate allowLoopback = none ↔
      MayPass allowPrivate allowLoopback ip := by
  intro h
  have hpass : IPv4Address.MayPass ⟨IPv4Address.quad 127 0 0 1, by decide⟩ false true :=
    ⟨by decide, fun _ => rfl, fun _ hno => absurd hno (by decide)⟩
  have hnone := (h (.v4 _) false true).2 hpass
  have hreason : classifyBlocked (.v4 ⟨IPv4Address.quad 127 0 0 1, by decide⟩) false true =
      some "IPv4 private (RFC1918)" := by decide +kernel
  rw [hreason] at hnone
  cases hnone

end

end OxenClaw.Security
