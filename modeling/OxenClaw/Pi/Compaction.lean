import OxenClaw.Lib.Python
import OxenClaw.Pi.Messages

/-!
# Compaction of a transcript

`decideCompaction` picks a cut of the transcript, `applyCompaction` replaces what is
before the cut by one summary message. The cut starts `keepTailTurns` messages before
the end and moves forward past every position that would part a tool call from its
results (`safeCut`).

A balanced transcript is cut between whole pairs (`lt_cut_iff`), so the result is the
summary and a balanced suffix. `SessionOp.run_balanced` carries this over any number of
appended turns and compactions.
-/

namespace OxenClaw.Compaction

open OxenClaw Message

/-- `CompactionPlan`. -/
structure CompactionPlan where
  needed : Bool
  keepTailCount : ℕ
  dropIndexes : List ℕ
  reason : String
  tokensBefore : ℤ
  tokensAfterEstimated : ℤ

/-- `CompactionEntry`, without the archive path that no function here sets. -/
structure CompactionEntry where
  id : String
  summary : String
  replacedMessageIndexes : List ℕ
  createdAt : ℚ
  reason : String
  tokensBefore : ℤ
  tokensAfter : ℤ

/-- `CompactionGuard` : the token counts before and after recent passes. -/
structure CompactionGuard where
  history : List (ℤ × ℤ) := []

/-- Whether a pass saved less than `threshold` of the prompt. -/
def ineffective (threshold : ℚ) (pass : ℤ × ℤ) : Bool :=
  decide (0 < pass.1) && decide (((pass.1 - pass.2 : ℤ) : ℚ) / pass.1 < threshold)

/-- `should_skip_compaction`. -/
def shouldSkipCompaction (guard : CompactionGuard) (thresholdPct : ℚ) : Bool :=
  if guard.history.length < 2 then false
  else (guard.history.drop (guard.history.length - 2)).all
    (ineffective (max 0 thresholdPct / 100))

/-- What a compaction is run with : the token model, the keyword arguments of
`decide_compaction`, and the summariser, which may raise. -/
structure CompactionPolicy where
  estimateTokens : List Message → ℤ
  modelContextTokens : ℤ
  thresholdRatio : ℚ := 17 / 20
  keepTailTurns : ℤ := 6
  reason : String := "auto"
  force : Bool := false
  guard : Option CompactionGuard := none
  guardThresholdPct : ℚ := 10
  summarizer : List Message → Option String

/-! ## The cut -/

/-- `_is_user_or_assistant_pair_index` : cutting before `idx` parts no tool call from
its results. -/
def isPairIndex (messages : List Message) (idx : ℕ) : Bool :=
  if idx = 0 ∨ messages.length ≤ idx then true
  else
    match messages[idx - 1]?, messages[idx]? with
    | some (.assistant prev), some (.toolResult _) => prev.toolUses.isEmpty
    | _, _ => true

/-- The `while` loop of `decide_compaction`, for at most `fuel` rounds. -/
def safeCut (messages : List Message) : ℕ → ℕ → ℕ
  | 0, tailStart => tailStart
  | fuel + 1, tailStart =>
    if tailStart < messages.length ∧ isPairIndex messages tailStart = false then
      safeCut messages fuel (tailStart + 1)
    else tailStart

/-- `decide_compaction`. -/
def decideCompaction (policy : CompactionPolicy) (messages : List Message) : CompactionPlan :=
  if messages = [] then ⟨false, 0, [], policy.reason, 0, 0⟩
  else
    let tokensNow := policy.estimateTokens messages
    let threshold := Py.int (policy.modelContextTokens * policy.thresholdRatio)
    if !policy.force && tokensNow < threshold then
      ⟨false, 0, [], policy.reason, tokensNow, tokensNow⟩
    else if policy.guard.any (shouldSkipCompaction · policy.guardThresholdPct) then
      ⟨false, 0, [], policy.reason, tokensNow, tokensNow⟩
    else
      let n := messages.length
      let tailStart := safeCut messages n (max 1 (n - policy.keepTailTurns)).toNat
      if n ≤ tailStart then ⟨false, n, [], policy.reason, tokensNow, tokensNow⟩
      else
        let droppedTokens := ((messages.take tailStart).map fun m => policy.estimateTokens [m]).sum
        ⟨true, n - tailStart, List.range tailStart, policy.reason, tokensNow,
          tokensNow - droppedTokens + max 200 (droppedTokens / 10)⟩

/-- The `SystemMessage` that stands in for `count` dropped messages. -/
def summaryMessage (count : ℕ) (text : String) : Message :=
  .system s!"[COMPACTED SUMMARY of {count} prior messages]\n{text}"

/-- `apply_compaction`. `none` when it raises : the summariser does, or an index of the
plan is outside the transcript. `id` and `now` stand for the new entry's stamp. -/
def applyCompaction (policy : CompactionPolicy) (messages : List Message) (plan : CompactionPlan)
    (id : String) (now : ℚ) : Option (List Message × CompactionEntry) :=
  if plan.needed = false then
    some (messages, ⟨id, "", [], now, plan.reason, plan.tokensBefore, plan.tokensBefore⟩)
  else do
    let dropped ← plan.dropIndexes.mapM (messages[·]?)
    let summaryText ← policy.summarizer dropped
    let tail := match plan.dropIndexes.max? with
      | some last => messages.drop (last + 1)
      | none => messages
    let newMessages := summaryMessage dropped.length summaryText :: tail
    some (newMessages, ⟨id, summaryText, plan.dropIndexes, now, plan.reason, plan.tokensBefore,
      policy.estimateTokens newMessages⟩)

/-- `maybe_compact` on the session's messages : unchanged when nothing is compacted or
the summariser raises. -/
def maybeCompact (policy : CompactionPolicy) (id : String) (now : ℚ) (messages : List Message) :
    List Message :=
  let plan := decideCompaction { policy with guard := none } messages
  if plan.needed then
    match applyCompaction policy messages plan id now with
    | some (newMessages, _) => newMessages
    | none => messages
  else messages

/-! ## What the cut parts -/

/-- The loop stops at a safe position or at the end. -/
theorem safeCut_spec (messages : List Message) :
    ∀ {fuel t : ℕ}, messages.length ≤ t + fuel →
      messages.length ≤ safeCut messages fuel t ∨
        isPairIndex messages (safeCut messages fuel t) = true
  | 0, _, h => Or.inl (by simpa [safeCut] using h)
  | fuel + 1, t, h => by
    rw [safeCut]
    split_ifs with hc
    · exact safeCut_spec messages (by omega)
    · rw [not_and_or, not_lt, Bool.not_eq_false] at hc
      exact hc

theorem le_safeCut (messages : List Message) :
    ∀ (fuel t : ℕ), t ≤ safeCut messages fuel t
  | 0, _ => le_rfl
  | fuel + 1, t => by
    rw [safeCut]
    split_ifs
    · exact (Nat.le_succ t).trans (le_safeCut messages fuel (t + 1))
    · exact le_rfl

/-- A plan that is needed drops a non-empty proper prefix up to a safe position. -/
theorem decideCompaction_needed {policy : CompactionPolicy} {messages : List Message}
    (h : (decideCompaction policy messages).needed = true) :
    ∃ t, 1 ≤ t ∧ t < messages.length ∧ isPairIndex messages t = true ∧
      (decideCompaction policy messages).dropIndexes = List.range t ∧
      (decideCompaction policy messages).keepTailCount = messages.length - t := by
  unfold decideCompaction at h ⊢
  dsimp only at h ⊢
  split_ifs at h ⊢ with _ _ _ hlt
  refine ⟨_, ?_, not_le.1 hlt, ?_, rfl, rfl⟩
  · exact le_trans (by omega) (le_safeCut _ _ _)
  · exact (safeCut_spec messages (by omega)).resolve_left hlt

theorem decideCompaction_not_needed {policy : CompactionPolicy} {messages : List Message}
    (h : (decideCompaction policy messages).needed = false) :
    (decideCompaction policy messages).dropIndexes = [] := by
  unfold decideCompaction at h ⊢
  dsimp only at h ⊢
  split_ifs at h ⊢ <;> rfl

/-- Indexing a list at `0, .., t - 1`. -/
theorem mapM_range_getElem? {α : Type*} {l : List α} :
    ∀ {t : ℕ}, t ≤ l.length → (List.range t).mapM (l[·]?) = some (l.take t)
  | 0, _ => by simp
  | t + 1, h => by
    have ih := mapM_range_getElem? (Nat.le_of_succ_le h)
    rw [List.range_succ, List.mapM_append, ih, List.take_add_one]
    have ht : l[t]? = some l[t] := List.getElem?_eq_getElem h
    rw [ht, List.mapM_cons, ht]
    rfl

/-- `apply_compaction` on a plan that drops the first `t` messages. -/
theorem applyCompaction_range {policy : CompactionPolicy} {messages : List Message}
    {plan : CompactionPlan} {t : ℕ} {text : String} (hn : plan.needed = true)
    (hd : plan.dropIndexes = List.range t) (ht : 1 ≤ t) (hlt : t < messages.length)
    (hs : policy.summarizer (messages.take t) = some text) (id : String) (now : ℚ) :
    ∃ entry, applyCompaction policy messages plan id now =
        some (summaryMessage t text :: messages.drop t, entry) ∧
      entry.replacedMessageIndexes = List.range t := by
  have hdropped : (List.range t).mapM (messages[·]?) = some (messages.take t) :=
    mapM_range_getElem? hlt.le
  have hmax : (List.range t).max? = some (t - 1) := by
    rw [List.max?_eq_some_iff]
    exact ⟨List.mem_range.2 (by omega), fun b hb => by have := List.mem_range.1 hb; omega⟩
  have hlen : (messages.take t).length = t := List.length_take_of_le hlt.le
  have hdrop : t - 1 + 1 = t := Nat.sub_add_cancel ht
  simp only [applyCompaction, hn, hd, hdropped, hs, hmax, hlen, hdrop, Option.bind_eq_bind,
    Option.bind_some, reduceCtorEq, if_false]
  exact ⟨_, rfl, rfl⟩

/-- A safe position of a balanced transcript has both a call and its results on one
side. -/
theorem lt_cut_iff {messages : List Message} {t i : ℕ} {m : Message} (hb : Balanced messages)
    (ht : t < messages.length) (hp : isPairIndex messages t = true)
    (hi : messages[i]? = some m) (hc : m.Calls) : i < t ↔ i + 1 < t := by
  refine ⟨fun hlt => ?_, fun h => by omega⟩
  obtain ⟨b, hb', rs, rfl, -⟩ := followed_iff_getElem?.1 hb i m hi hc
  by_contra hge
  obtain rfl : t = i + 1 := by omega
  have hmid : ¬(i + 1 = 0 ∨ messages.length ≤ i + 1) := by omega
  cases m with
  | assistant msg =>
    rw [isPairIndex, if_neg hmid, Nat.add_sub_cancel, hi, hb'] at hp
    exact hc (List.isEmpty_iff.1 hp)
  | system _ => simp at hc
  | user _ => simp at hc
  | toolResult _ => simp at hc

/-! ## Compaction of a balanced transcript -/

@[simp] theorem not_calls_summaryMessage (count : ℕ) (text : String) :
    ¬(summaryMessage count text).Calls :=
  not_calls_system _

/-- The summary and any suffix of a balanced transcript are balanced. -/
theorem balanced_summary_drop {messages : List Message} (hb : Balanced messages) (t : ℕ)
    (text : String) : Balanced (summaryMessage t text :: messages.drop t) :=
  (followed_cons_of_not (not_calls_summaryMessage t text)).2 (hb.drop t)

/-- A plan that is not needed leaves the transcript as it is. -/
theorem applyCompaction_not_needed {policy : CompactionPolicy} {messages : List Message}
    {plan : CompactionPlan} (hn : plan.needed = false) (id : String) (now : ℚ) :
    ∃ entry, applyCompaction policy messages plan id now = some (messages, entry) ∧
      entry.replacedMessageIndexes = [] := by
  rw [applyCompaction, if_pos hn]
  exact ⟨_, rfl, rfl⟩

/-- A needed plan whose summariser raises changes nothing. -/
theorem applyCompaction_range_raises {policy : CompactionPolicy} {messages : List Message}
    {plan : CompactionPlan} {t : ℕ} (hn : plan.needed = true)
    (hd : plan.dropIndexes = List.range t) (hlt : t < messages.length)
    (hs : policy.summarizer (messages.take t) = none) (id : String) (now : ℚ) :
    applyCompaction policy messages plan id now = none := by
  have hdropped : (List.range t).mapM (messages[·]?) = some (messages.take t) :=
    mapM_range_getElem? hlt.le
  simp only [applyCompaction, hn, hd, hdropped, hs, Option.bind_eq_bind, Option.bind_some,
    Option.bind_none, reduceCtorEq, if_false]

/-- `maybe_compact` keeps a transcript balanced. -/
theorem maybeCompact_balanced {messages : List Message} (hb : Balanced messages)
    (policy : CompactionPolicy) (id : String) (now : ℚ) :
    Balanced (maybeCompact policy id now messages) := by
  unfold maybeCompact
  dsimp only
  split_ifs with hn
  · obtain ⟨t, ht, hlt, -, hd, -⟩ := decideCompaction_needed hn
    cases hs : policy.summarizer (messages.take t) with
    | none =>
      rw [applyCompaction_range_raises hn hd hlt hs]
      exact hb
    | some text =>
      obtain ⟨entry, happly, -⟩ := applyCompaction_range hn hd ht hlt hs id now
      rw [happly]
      exact balanced_summary_drop hb t text
  · exact hb

/-- What happens to a session's messages : a turn is added or a compaction is tried. -/
inductive SessionOp where
  | append (turn : List Message)
  | compact (policy : CompactionPolicy) (id : String) (now : ℚ)

/-- The messages after one operation. -/
def SessionOp.apply (messages : List Message) : SessionOp → List Message
  | .append turn => messages ++ turn
  | .compact policy id now => maybeCompact policy id now messages

/-- One operation keeps the transcript balanced. -/
theorem SessionOp.apply_balanced {messages : List Message} (hb : Balanced messages) :
    ∀ op : SessionOp, (∀ turn, op = .append turn → Balanced turn) → Balanced (op.apply messages)
  | .append turn, h => hb.append (h turn rfl)
  | .compact policy id now, _ => maybeCompact_balanced hb policy id now

/-- Any number of appended turns and compactions keep the transcript balanced. -/
theorem SessionOp.run_balanced {ops : List SessionOp} :
    ∀ {messages : List Message}, Balanced messages →
      (∀ turn, SessionOp.append turn ∈ ops → Balanced turn) →
      Balanced (ops.foldl SessionOp.apply messages) := by
  induction ops with
  | nil => exact fun hb _ => hb
  | cons op ops ih =>
    intro messages hb hops
    refine ih (SessionOp.apply_balanced hb op fun turn hop => hops turn (by simp [hop]))
      fun turn hmem => hops turn (List.mem_cons_of_mem _ hmem)

/-- Compaction of a balanced transcript : nothing, or one summary in the place of a
prefix that parts no call from its results. Runs of it stay balanced. -/
theorem compaction_keeps_pairs (policy : CompactionPolicy) {messages : List Message}
    (hb : Balanced messages) :
    ((decideCompaction policy messages).needed = false →
      (decideCompaction policy messages).dropIndexes = [] ∧
      ∀ id now, ∃ entry,
        applyCompaction policy messages (decideCompaction policy messages) id now =
          some (messages, entry) ∧ entry.replacedMessageIndexes = []) ∧
    ((decideCompaction policy messages).needed = true →
      ∃ t, 1 ≤ t ∧ t < messages.length ∧
        (decideCompaction policy messages).dropIndexes = List.range t ∧
        (∀ i m, messages[i]? = some m → m.Calls → (i < t ↔ i + 1 < t)) ∧
        (policy.summarizer (messages.take t) = none → ∀ id now,
          applyCompaction policy messages (decideCompaction policy messages) id now = none) ∧
        ∀ text, policy.summarizer (messages.take t) = some text → ∀ id now,
          Balanced (summaryMessage t text :: messages.drop t) ∧
          ∃ entry, applyCompaction policy messages (decideCompaction policy messages) id now =
              some (summaryMessage t text :: messages.drop t, entry) ∧
            entry.replacedMessageIndexes = List.range t) ∧
    ∀ ops : List SessionOp, (∀ turn, SessionOp.append turn ∈ ops → Balanced turn) →
      Balanced (ops.foldl SessionOp.apply messages) := by
  refine ⟨fun hn => ⟨decideCompaction_not_needed hn, applyCompaction_not_needed hn⟩,
    fun hn => ?_, fun ops hops => SessionOp.run_balanced hb hops⟩
  obtain ⟨t, ht, hlt, hp, hd, -⟩ := decideCompaction_needed hn
  refine ⟨t, ht, hlt, hd, fun i m hi hc => lt_cut_iff hb hlt hp hi hc,
    applyCompaction_range_raises hn hd hlt, fun text hs id now => ?_⟩
  exact ⟨balanced_summary_drop hb t text, applyCompaction_range hn hd ht hlt hs id now⟩

/-- A forced compaction of a call, its result and a question keeps one message. -/
theorem compaction_keeps_pairs_one_turn :
    let call : Message := .assistant { content := [.toolUse ⟨"t1", "ls", []⟩] }
    let messages : List Message :=
      [.user (.text "list"), call, .toolResult [⟨"t1", .text "a.txt", false⟩], .user (.text "ok")]
    let policy : CompactionPolicy :=
      { estimateTokens := fun l => l.length, modelContextTokens := 100, keepTailTurns := 2,
        force := true, summarizer := fun _ => some "listed" }
    (decideCompaction policy messages).dropIndexes = List.range 3 ∧
      Balanced (summaryMessage 3 "listed" :: messages.drop 3) := by
  intro call messages policy
  have hb : Balanced messages := by
    have hpair : BalancedBy call (.toolResult [⟨"t1", .text "a.txt", false⟩]) :=
      ⟨_, rfl, fun id => by simp [call, AssistantMessage.toolUses, AssistantBlock.toolUse?]⟩
    simp [messages, Balanced, followed_cons_of_not, followed_cons_cons, hpair]
  have hd : (decideCompaction policy messages).dropIndexes = List.range 3 := by decide
  obtain ⟨-, hneeded, -⟩ := compaction_keeps_pairs policy hb
  obtain ⟨t, -, -, ht, -, -, h⟩ := hneeded (by decide)
  obtain rfl : t = 3 := by simpa using congrArg List.length (ht.symm.trans hd)
  exact ⟨hd, (h "listed" rfl "" 0).1⟩

end OxenClaw.Compaction
