import OxenClaw.Pi.Run.Attempt

/-!
# Failover to the next model of the chain

`shouldFailover` decides whether an attempt's failure is the model's, `resolveNextModel`
walks the chain from the cursor to the next registered model. Without a wrap the cursor
moves forward; a wrap needs `cycle` and an unused cycle (`resolveNextModel_forward_or_wrap`).
-/

namespace OxenClaw

/-- `_FAILOVER_STOP_REASONS`. -/
def failoverStopReasons : List String :=
  ["error", "model_error", "provider_error", "overloaded", "rate_limit"]

/-- `should_failover`, whose `custom_predicate` no caller sets : the `failover` field of
the decision. -/
def shouldFailover (result : AttemptResult) (chain : List String) (chainCursor : ℕ)
    (emptyStreak : ℕ) (emptyStreakThreshold : ℤ) (cycle : Bool) (cyclesUsed : ℕ) : Bool :=
  if chain.length ≤ chainCursor + 1 ∧ (cycle = false ∨ chain.length ≤ cyclesUsed) then false
  else if result.error.isSome then true
  else if result.message.stopReason.any (· ∈ failoverStopReasons) then true
  else emptyStreakThreshold ≤ emptyStreak

/-- The position at an offset from the cursor, `none` past the tail when the walk does not
wrap and once it is all the way around. -/
def chainPosition (n cursor : ℕ) (wraps : Bool) (offset : ℕ) : Option ℕ :=
  if cursor + offset < n then some (cursor + offset)
  else if wraps = true ∧ cursor + offset - n ≠ cursor then some (cursor + offset - n)
  else none

/-- The `for` loop of `resolve_next_model`, over the offsets that are left. The cursor is a
position of the chain. -/
def resolveFrom (chain : List String) (cursor : ℕ) (require : String → Option Model)
    (wraps : Bool) : List ℕ → Option Model × ℕ
  | [] => (none, chain.length)
  | offset :: offsets =>
    match chainPosition chain.length cursor wraps offset with
    | none => (none, chain.length)
    | some idx =>
      match chain[idx]?.bind require with
      | some model => (some model, idx)
      | none => resolveFrom chain cursor require wraps offsets

/-- `resolve_next_model`. -/
def resolveNextModel (chain : List String) (cursor : ℕ) (require : String → Option Model)
    (cycle : Bool) (cyclesUsed : ℕ) : Option Model × ℕ :=
  if chain = [] then (none, 0)
  else
    let wraps := cycle && cyclesUsed < chain.length
    let maxOffset := if wraps then chain.length else chain.length - 1
    resolveFrom chain cursor require wraps (List.range' 1 maxOffset)

/-- A model is found at the position of one of the offsets. -/
theorem exists_position_of_resolveFrom {chain : List String} {cursor : ℕ}
    {require : String → Option Model} {wraps : Bool} {model : Model} {idx : ℕ} :
    ∀ {offsets : List ℕ}, resolveFrom chain cursor require wraps offsets = (some model, idx) →
      idx < chain.length ∧ ∃ offset ∈ offsets,
        chainPosition chain.length cursor wraps offset = some idx
  | [], h => by simp [resolveFrom] at h
  | offset :: offsets, h => by
    rw [resolveFrom] at h
    cases hpos : chainPosition chain.length cursor wraps offset with
    | none => simp [hpos] at h
    | some i =>
      rw [hpos] at h
      cases hreq : chain[i]?.bind require with
      | some m =>
        simp only [hreq, Prod.mk.injEq, Option.some.injEq] at h
        obtain ⟨-, rfl⟩ := h
        obtain ⟨id, hid, -⟩ := Option.bind_eq_some_iff.1 hreq
        exact ⟨(List.getElem?_eq_some_iff.1 hid).1, offset, List.mem_cons_self, hpos⟩
      | none =>
        simp only [hreq] at h
        obtain ⟨hlt, o, ho, hpos'⟩ := exists_position_of_resolveFrom h
        exact ⟨hlt, o, List.mem_cons_of_mem _ ho, hpos'⟩

/-- The next model is further down the chain, or before the cursor on an unused cycle. -/
theorem resolveNextModel_forward_or_wrap {chain : List String} {cursor : ℕ}
    {require : String → Option Model} {cycle : Bool} {cyclesUsed : ℕ} {model : Model} {idx : ℕ}
    (h : resolveNextModel chain cursor require cycle cyclesUsed = (some model, idx)) :
    idx < chain.length ∧ (cursor < idx ∨ cyclesUsed < chain.length ∧ idx < cursor) := by
  rw [resolveNextModel] at h
  split_ifs at h with hnil
  · simp at h
  · obtain ⟨hlt, offset, hmem, hpos⟩ := exists_position_of_resolveFrom h
    have hrange := List.mem_range'_1.1 hmem
    refine ⟨hlt, ?_⟩
    unfold chainPosition at hpos
    split_ifs at hpos hrange with hfwd hwraps hwrap
    all_goals
      simp only [Bool.and_eq_true, decide_eq_true_eq, Option.some.injEq] at *
      omega

end OxenClaw
