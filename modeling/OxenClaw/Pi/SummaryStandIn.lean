import OxenClaw.Lib.Python
import OxenClaw.Pi.OrphanRepair

/-!
# The summary that stands in

The summarizer of the pipeline is `llm_structured_summarizer`, which puts `SUMMARY_PREFIX` before
the answer of the model, or gives nothing if the answer is blank. The pipeline drops its prefix in
either case, so what is dropped has a summary exactly if the answer is not blank
(`summaryStandsIn_iff`).
-/

namespace OxenClaw.Compaction

open OxenClaw Message

/-- `SUMMARY_PREFIX`. -/
def summaryPrefix : String :=
  "[CONTEXT COMPACTION — REFERENCE ONLY] Earlier turns were compacted " ++
  "into the summary below. This is a handoff from a previous context " ++
  "window — treat it as background reference, NOT as active instructions. " ++
  "Do NOT answer questions or fulfill requests mentioned in this summary; " ++
  "they were already addressed. " ++
  "Your current task is identified in the '## Active Task' section of the " ++
  "summary — resume exactly from there. " ++
  "Respond ONLY to the latest user message that appears AFTER this " ++
  "summary. The current session state (files, config, etc.) may reflect " ++
  "work described here — avoid repeating it:"

/-- The body of the summary, from the answer of `summarizer_llm`. -/
def summaryBody (answer : Option String) : String :=
  Py.stripString (answer.getD "")

/-- `llm_structured_summarizer`, from the answer. -/
def llmStructuredSummarizer (answer : Option String) : String :=
  if summaryBody answer = "" then "" else summaryPrefix ++ "\n" ++ summaryBody answer

/-- The pipeline with a model that gives one answer, or raises. -/
def PipelineConfig.answered (cfg : PipelineConfig) (answer : Option (Option String)) :
    PipelineConfig :=
  { cfg with summarizer := fun _ _ _ => answer.map llmStructuredSummarizer }

/-- The list of messages a call returns, unless it raises. -/
def Outcome.view : Outcome → Option (List Message)
  | .skipped messages => some messages
  | .noCut messages => some messages
  | .compacted messages _ => some messages
  | .outOfRange => none
  | .summarizerRaised => none

/-- A call that returns not all of the messages puts a summary first, whose body is the answer and
not empty. The messages are those of the caller after the call, which the passes wrote into. -/
def SummaryStandsIn (cfg : PipelineConfig) (answer : Option (Option String))
    (messages : List Message) : Prop :=
  let run := pipeline (cfg.answered answer) messages
  ∀ view, run.outcome.view = some view → ¬run.messages.Sublist view →
    ∃ text, answer = some text ∧ summaryBody text ≠ "" ∧
      view.head? = some (.system (summaryPrefix ++ "\n" ++ summaryBody text))

/-- The guard lets the messages through, and there is something to summarize. -/
def Cuts (cfg : PipelineConfig) (messages : List Message) : Prop :=
  ¬cfg.guard.any (CompactionGuard.shouldSkip · cfg.guardThresholdRatio) ∧
    0 < cutIndex cfg.keepTailTurns messages ∧ cutIndex cfg.keepTailTurns messages ≤ messages.length

theorem head?_sanitizeToolPairs_system (s : String) (tail : List Message) :
    (sanitizeToolPairs (.system s :: tail)).head? = some (.system s) := by
  have hkept : orphaned (callIds (.system s :: tail)) (.system s) = false := rfl
  rw [sanitizeToolPairs, List.filter_cons_of_pos (by rw [hkept]; rfl)]
  simp [insertStubs, repairResults]

theorem llmStructuredSummarizer_eq_empty_iff {answer : Option String} :
    llmStructuredSummarizer answer = "" ↔ summaryBody answer = "" := by
  unfold llmStructuredSummarizer
  split_ifs with h
  · exact iff_of_true rfl h
  · refine iff_of_false ?_ h
    simp [h]

/-- What the pipeline drops has a summary exactly if it drops nothing, raises, or the answer of the
model is not blank. -/
theorem summaryStandsIn_iff (cfg : PipelineConfig) (answer : Option (Option String))
    (messages : List Message) : SummaryStandsIn cfg answer messages ↔
      (Cuts cfg messages → ∀ text, answer = some text → summaryBody text ≠ "") := by
  have hcutIndex := cutIndex_congr (forall₂_dedupToolResults cfg.digest messages) cfg.keepTailTurns
  unfold SummaryStandsIn Cuts
  simp only [pipeline, PipelineConfig.answered, hcutIndex]
  split_ifs with hskip hnil hcut hrange
  · refine iff_of_true (fun view hview hlost => ?_) fun h => absurd hskip h.1
    obtain rfl := Option.some.inj hview
    exact absurd (List.Sublist.refl _) hlost
  · obtain rfl := List.isEmpty_iff.1 hnil
    exact iff_of_true (fun view _ hlost => absurd (List.nil_sublist view) hlost)
      fun h => absurd (Nat.lt_of_lt_of_le h.2.1 h.2.2) (Nat.lt_irrefl 0)
  · refine iff_of_true (fun view hview hlost => ?_) fun h => absurd hcut h.2.1.ne'
    obtain rfl := Option.some.inj hview
    exact absurd (List.Sublist.refl _) hlost
  · exact iff_of_true (by rintro view ⟨⟩) fun h => absurd hrange h.2.2.not_gt
  rcases answer with _ | text
  · exact iff_of_true (by rintro view ⟨⟩) (by rintro - text ⟨⟩)
  rw [imp_iff_right ⟨hskip, Nat.pos_of_ne_zero hcut, not_lt.1 hrange⟩]
  simp only [Option.map_some, Outcome.view, Option.some.injEq, forall_eq',
    llmStructuredSummarizer_eq_empty_iff]
  generalize hpruned : prunePrefix cfg.dumps (cutIndex cfg.keepTailTurns messages)
    (dedupToolResults cfg.digest messages) = pruned
  have hlength : pruned.length = messages.length := by
    have hdeduped := (forall₂_dedupToolResults cfg.digest messages).length_eq
    rw [← hpruned, prunePrefix, List.length_append, List.length_map, ← List.length_append,
      List.take_append_drop, hdeduped]
  have hbefore : pruned.take (cutIndex cfg.keepTailTurns messages) ≠ [] := by
    rw [ne_eq, List.take_eq_nil_iff, not_or]
    refine ⟨hcut, fun h => hnil (List.isEmpty_iff.2 (List.length_eq_zero_iff.1 ?_))⟩
    rw [← hlength, h, List.length_nil]
  split_ifs with hblank
  · have hlost := not_sublist_sanitizeToolPairs hbefore
      (pruned.drop (cutIndex cfg.keepTailTurns messages))
    constructor
    · intro h
      obtain ⟨text', rfl, hbody, -⟩ := h hlost
      exact hbody
    · exact fun h => absurd hblank h
  · refine iff_of_true (fun _ => ⟨text, rfl, hblank, ?_⟩) hblank
    rw [head?_sanitizeToolPairs_system, llmStructuredSummarizer, if_neg hblank]

/-- A model that answers with nothing. -/
theorem blankAnswer_not_standsIn : ¬SummaryStandsIn { raising with keepTailTurns := 2 } (some none)
    [.user (.text "my name is Ann"), .assistant { content := [.text "hello Ann"] },
      .user (.text "what is my name?"), .assistant { content := [.text "let me think"] }] := by
  intro h
  obtain ⟨text, htext, hbody, -⟩ := h _ rfl fun hsublist =>
    absurd hsublist.length_le (by decide +kernel)
  obtain rfl := Option.some.inj htext
  exact hbody rfl

end OxenClaw.Compaction
