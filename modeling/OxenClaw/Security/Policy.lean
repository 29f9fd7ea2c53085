import OxenClaw.Lib.Glob
import Mathlib.Data.List.ReduceOption

/-!
# Outbound network policies

A `NetPolicy` has globs for hostnames, extra ports and schemes. An empty allowlist means
every hostname, no extra ports mean the default ones. `mergePolicies` folds any number of
policies into one, list by list (`mergeList`).

What a merged list has : everything the other has when one is empty
(`mergeList_nil_left`, `mergeList_nil_right`), and otherwise what both have
(`mem_mergeList`), which may be nothing (`mergeList_eq_nil`). The empty list then reads as
no restriction.
-/

namespace OxenClaw.Security

/-- `NetPolicyError`, with the hostname pattern it names. -/
structure NetPolicyError where
  pattern : String

def NetPolicyError.message (repr : String → String) (e : NetPolicyError) : String :=
  "hostname pattern " ++ repr e.pattern ++ " appears in both allow and deny"

/-- `_DEFAULT_PORTS`. -/
def defaultPorts : List ℤ := [80, 443]

/-- `NetPolicy`. No pattern is both allowed and denied. -/
structure NetPolicy where
  allowedHostnames : List String := []
  deniedHostnames : List String := []
  allowPrivateNetwork : Bool := false
  allowLoopback : Bool := false
  extraAllowedPorts : List ℤ := []
  allowedSchemes : List String := ["http", "https"]
  consistent : ∀ pat ∈ allowedHostnames, pat ∉ deniedHostnames := by simp

/-- The constructor with its `__post_init__`. -/
def NetPolicy.new (allowedHostnames deniedHostnames : List String)
    (allowPrivateNetwork allowLoopback : Bool) (extraAllowedPorts : List ℤ)
    (allowedSchemes : List String) : Except NetPolicyError NetPolicy :=
  match h : allowedHostnames.find? (· ∈ deniedHostnames) with
  | some pat => .error ⟨pat⟩
  | none => .ok
    { allowedHostnames, deniedHostnames, allowPrivateNetwork, allowLoopback, extraAllowedPorts,
      allowedSchemes
      consistent := fun pat hpat => by simpa using List.find?_eq_none.1 h pat hpat }

section
variable (lower : String → String)

/-- `hostname_matches`. -/
def hostnameMatches (host : String) (patterns : List String) : Bool :=
  patterns.any fun pat => fnmatchcase (lower host) (lower pat)

/-- `NetPolicy.is_hostname_allowed`. -/
def NetPolicy.isHostnameAllowed (p : NetPolicy) (hostname : String) : Bool :=
  if hostnameMatches lower (lower hostname) p.deniedHostnames then false
  else if p.allowedHostnames = [] then true
  else hostnameMatches lower (lower hostname) p.allowedHostnames

/-- `NetPolicy.is_port_allowed`. -/
def NetPolicy.isPortAllowed (p : NetPolicy) (port : ℤ) : Bool :=
  port ∈ defaultPorts || port ∈ p.extraAllowedPorts

/-- `NetPolicy.is_scheme_allowed`. -/
def NetPolicy.isSchemeAllowed (p : NetPolicy) (scheme : String) : Bool :=
  lower scheme ∈ p.allowedSchemes

end

/-! ## Merging -/

/-- What `_merge_allowlist`, `_merge_ports` and `_merge_schemes` all do. -/
def mergeList {α : Type*} [DecidableEq α] (a b : List α) : List α :=
  if a = [] then b
  else if b = [] then a
  else a.filter (· ∈ b)

/-- One step of `merge_policies`. -/
def mergeTwo (out p : NetPolicy) : Except NetPolicyError NetPolicy :=
  NetPolicy.new (mergeList out.allowedHostnames p.allowedHostnames)
    (out.deniedHostnames ++ p.deniedHostnames).eraseDups
    (out.allowPrivateNetwork && p.allowPrivateNetwork)
    (out.allowLoopback && p.allowLoopback)
    (mergeList out.extraAllowedPorts p.extraAllowedPorts)
    (mergeList out.allowedSchemes p.allowedSchemes)

/-- `merge_policies`. -/
def mergePolicies (policies : List (Option NetPolicy)) : Except NetPolicyError NetPolicy :=
  match policies.reduceOption with
  | [] => .ok {}
  | p :: ps => ps.foldlM mergeTwo p

/-! ## Merged lists -/

section
variable {α : Type*} [DecidableEq α] {a b : List α} {x : α}

@[simp] theorem mergeList_nil_left : mergeList [] b = b :=
  if_pos rfl

@[simp] theorem mergeList_nil_right : mergeList a [] = a := by
  rcases eq_or_ne a [] with rfl | ha
  · rfl
  · rw [mergeList, if_neg ha, if_pos rfl]

theorem mem_mergeList (ha : a ≠ []) (hb : b ≠ []) : x ∈ mergeList a b ↔ x ∈ a ∧ x ∈ b := by
  rw [mergeList, if_neg ha, if_neg hb, List.mem_filter, decide_eq_true_eq]

theorem mergeList_eq_nil (ha : a ≠ []) (hb : b ≠ []) :
    mergeList a b = [] ↔ ∀ x ∈ a, x ∉ b := by
  rw [mergeList, if_neg ha, if_neg hb, List.filter_eq_nil_iff]
  simp only [decide_eq_true_eq]

/-- When a merged list lets through only what `B` and the second list do : where a list is
empty, the other must not let through more. `d` is let through without a list. -/
theorem mergeList_strict_iff {ι : Type*} {d : ι → Prop} {f : ι → α} {A P M B : ι → Prop}
    (hA : ∀ i, A i ↔ d i ∨ f i ∈ a) (hP : ∀ i, P i ↔ d i ∨ f i ∈ b)
    (hM : ∀ i, M i ↔ d i ∨ f i ∈ mergeList a b) (hB : ∀ i, A i → B i) :
    (∀ i, M i → B i ∧ P i) ↔ (a = [] → ∀ i, P i → B i) ∧ (b = [] → ∀ i, A i → P i) := by
  rcases eq_or_ne a [] with rfl | ha
  · have hMP : ∀ i, M i ↔ P i := fun i => by rw [hM, hP, mergeList_nil_left]
    have hAP : ∀ i, A i → P i := fun i hi => (hP i).2 (Or.inl (by simpa using (hA i).1 hi))
    exact ⟨fun h => ⟨fun _ i hi => (h i ((hMP i).2 hi)).1, fun _ => hAP⟩,
      fun h i hi => ⟨h.1 rfl i ((hMP i).1 hi), (hMP i).1 hi⟩⟩
  rcases eq_or_ne b [] with rfl | hb
  · have hMA : ∀ i, M i ↔ A i := fun i => by rw [hM, hA, mergeList_nil_right]
    exact ⟨fun h => ⟨fun hnil => absurd hnil ha, fun _ i hi => (h i ((hMA i).2 hi)).2⟩,
      fun h i hi => ⟨hB i ((hMA i).1 hi), h.2 rfl i ((hMA i).1 hi)⟩⟩
  · refine ⟨fun _ => ⟨fun hnil => absurd hnil ha, fun hnil => absurd hnil hb⟩, fun _ i hi => ?_⟩
    rw [hM, mem_mergeList ha hb] at hi
    exact ⟨hB i ((hA i).2 (hi.imp_right And.left)), (hP i).2 (hi.imp_right And.right)⟩

end

/-! ## Merged policies -/

theorem NetPolicy.new_eq_ok {allowed denied : List String} {privateNetwork loopback : Bool}
    {ports : List ℤ} {schemes : List String} {m : NetPolicy}
    (h : NetPolicy.new allowed denied privateNetwork loopback ports schemes = .ok m) :
    m.allowedHostnames = allowed ∧ m.deniedHostnames = denied ∧
      m.allowPrivateNetwork = privateNetwork ∧ m.allowLoopback = loopback ∧
      m.extraAllowedPorts = ports ∧ m.allowedSchemes = schemes := by
  unfold NetPolicy.new at h
  split at h
  · cases h
  · obtain rfl := Except.ok.inj h
    exact ⟨rfl, rfl, rfl, rfl, rfl, rfl⟩

/-- A policy is refused only for a pattern on both of its lists. -/
theorem NetPolicy.new_eq_error {allowed denied : List String} {privateNetwork loopback : Bool}
    {ports : List ℤ} {schemes : List String} {e : NetPolicyError}
    (h : NetPolicy.new allowed denied privateNetwork loopback ports schemes = .error e) :
    e.pattern ∈ allowed ∧ e.pattern ∈ denied := by
  unfold NetPolicy.new at h
  split at h
  · next pat hfind =>
    obtain rfl := Except.error.inj h
    exact ⟨List.mem_of_find?_eq_some hfind, by simpa using List.find?_some hfind⟩
  · cases h

/-- One more policy is one more step. -/
theorem mergePolicies_append_singleton {before : List NetPolicy} (hne : before ≠ [])
    (p : NetPolicy) : mergePolicies ((before ++ [p]).map some) =
      mergePolicies (before.map some) >>= fun out => mergeTwo out p := by
  obtain ⟨q, qs, rfl⟩ := List.exists_cons_of_ne_nil hne
  have hsome : ∀ l : List NetPolicy, (l.map some).reduceOption = l := fun l => by
    simp [List.reduceOption, List.filterMap_map]
  simp only [mergePolicies, hsome, List.cons_append, List.foldlM_append, List.foldlM_cons,
    List.foldlM_nil, bind_pure]

section
variable {lower : String → String} {out p m : NetPolicy}

theorem hostnameMatches_iff {host : String} {patterns : List String} :
    hostnameMatches lower host patterns = true ↔
      ∃ pat ∈ patterns, fnmatchcase (lower host) (lower pat) = true := by
  rw [hostnameMatches, List.any_eq_true]

theorem NetPolicy.isHostnameAllowed_iff {host : String} :
    p.isHostnameAllowed lower host = true ↔
      hostnameMatches lower (lower host) p.deniedHostnames = false ∧
        (p.allowedHostnames = [] ∨ hostnameMatches lower (lower host) p.allowedHostnames = true) := by
  unfold NetPolicy.isHostnameAllowed
  split_ifs with hdenied hempty
  · simp [hdenied]
  · simp [hdenied, hempty]
  · simp [hdenied, hempty]

theorem NetPolicy.isPortAllowed_iff (p : NetPolicy) (port : ℤ) :
    p.isPortAllowed port = true ↔ port ∈ defaultPorts ∨ id port ∈ p.extraAllowedPorts := by
  simp [NetPolicy.isPortAllowed]

theorem NetPolicy.isSchemeAllowed_iff (p : NetPolicy) (scheme : String) :
    p.isSchemeAllowed lower scheme = true ↔ False ∨ lower scheme ∈ p.allowedSchemes := by
  simp [NetPolicy.isSchemeAllowed]

/-- The merge denies what one of the two denies. -/
theorem mergeTwo_denied (h : mergeTwo out p = .ok m) (host : String) :
    hostnameMatches lower host m.deniedHostnames = false ↔
      hostnameMatches lower host out.deniedHostnames = false ∧
        hostnameMatches lower host p.deniedHostnames = false := by
  obtain ⟨-, hdenied, -⟩ := NetPolicy.new_eq_ok h
  rw [hdenied, ← Bool.or_eq_false_iff, ← Bool.not_eq_true, ← Bool.not_eq_true, Bool.or_eq_true,
    hostnameMatches_iff, hostnameMatches_iff, hostnameMatches_iff]
  simp only [List.mem_eraseDups, List.mem_append, or_and_right, exists_or]

end

end OxenClaw.Security
