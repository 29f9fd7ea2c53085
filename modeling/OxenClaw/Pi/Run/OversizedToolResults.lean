import Mathlib.Algebra.BigOperators.Group.List.Basic
import Mathlib.Algebra.Order.Group.Nat
import Mathlib.Algebra.Ring.Nat
import OxenClaw.Pi.Messages
import OxenClaw.Pi.Run.TruncationBounds

/-!
# Oversized tool results

`truncate_oversized_tool_results_in_messages` cuts each result of a tool-result message that is too
long by itself, where `session_likely_has_oversized_tool_results` looks at the text of the whole
message. Several results that fit one by one, or the parts of one that are never cut below 2000
characters, are left as they are and the detector stays on (`settled_iff`).

`hasImportantTail` is `_has_important_tail`, and `share` the budget of a part, which is computed in
floating point.
-/

namespace OxenClaw

/-- `int(max_chars * (length / total))`, of a part in a list. -/
abbrev Share := (maxChars : ℤ) → (length total : ℕ) → ℤ

/-- The length of a part that is text. -/
def UserBlock.textLength : UserBlock → ℕ
  | .text s => s.length
  | .image .. => 0

/-- The length of the text of a result. -/
def Content.textLength : Content → ℕ
  | .text s => s.length
  | .blocks bs => (bs.map UserBlock.textLength).sum

/-- `_tool_result_text_length`. -/
def toolResultTextLength (results : List ToolResultBlock) : ℕ :=
  (results.map fun r => r.content.textLength).sum

variable (hasImportantTail : String → Bool) (share : Share)

/-- The budget of a part, in a list of `total` characters. -/
def partBudget (maxChars : ℤ) (total : ℕ) (text : String) : ℤ :=
  max minKeepChars (share maxChars text.length (max 1 total))

def truncatePart (maxChars : ℤ) (total : ℕ) : UserBlock → UserBlock
  | .text s =>
    if s = "" then .text s
    else .text (truncateToolResultText hasImportantTail s (partBudget share maxChars total s))
  | b => b

/-- `new_text != b.text`. -/
def partChanges (maxChars : ℤ) (total : ℕ) : UserBlock → Bool
  | .text s =>
    s ≠ "" && truncateToolResultText hasImportantTail s (partBudget share maxChars total s) ≠ s
  | _ => false

/-- `_truncate_block_in_place`, and whether it changed the block. -/
def truncateBlock (maxChars : ℤ) (block : ToolResultBlock) : ToolResultBlock × Bool :=
  match block.content with
  | .text s =>
    if (s.length : ℤ) ≤ maxChars then (block, false)
    else ({ block with content := .text (truncateToolResultText hasImportantTail s maxChars) }, true)
  | .blocks bs =>
    let total := (bs.map UserBlock.textLength).sum
    if (total : ℤ) ≤ maxChars then (block, false)
    else
      ({ block with content := .blocks (bs.map (truncatePart hasImportantTail share maxChars total)) },
        bs.any (partChanges hasImportantTail share maxChars total))

/-- `truncate_tool_result_message`, and the number of blocks it changed. -/
def truncateToolResultMessage (maxChars : ℤ) (results : List ToolResultBlock) :
    List ToolResultBlock × ℕ :=
  if (toolResultTextLength results : ℤ) ≤ maxChars then (results, 0)
  else
    let cut := results.map (truncateBlock hasImportantTail share maxChars)
    (cut.map Prod.fst, cut.countP Prod.snd)

def truncateMessage (maxChars : ℤ) : Message → Message × ℕ
  | .toolResult results =>
    let cut := truncateToolResultMessage hasImportantTail share maxChars results
    (.toolResult cut.1, cut.2)
  | m => (m, 0)

/-- `truncate_oversized_tool_results_in_messages`. -/
def truncateOversizedToolResults (contextWindowTokens : ℤ) (messages : List Message) :
    List Message × ℕ :=
  let maxChars := calculateMaxToolResultChars contextWindowTokens
  let cut := messages.map (truncateMessage hasImportantTail share maxChars)
  (cut.map Prod.fst, (cut.map Prod.snd).sum)

/-- `session_likely_has_oversized_tool_results`. -/
def hasOversizedToolResults (contextWindowTokens : ℤ) (messages : List Message) : Bool :=
  messages.any fun m =>
    calculateMaxToolResultChars contextWindowTokens < (toolResultTextLength m.results : ℤ)

/-- What is left of the text of a result that is cut by itself : of a text by
`truncate_tool_result_text` at the maximum, of the parts of a list by the same at their budgets. -/
def cutLength (maxChars : ℤ) : Content → ℕ
  | .text s =>
    if (s.length : ℤ) ≤ maxChars then s.length
    else (truncateToolResultText hasImportantTail s maxChars).length
  | .blocks bs =>
    let total := (bs.map UserBlock.textLength).sum
    if (total : ℤ) ≤ maxChars then total
    else (bs.map fun
      | .text s =>
        (truncateToolResultText hasImportantTail s (partBudget share maxChars total s)).length
      | .image .. => 0).sum

/-- The results of a message fit together, or do when each that is too long has been cut. -/
def FitTogether (maxChars : ℤ) (results : List ToolResultBlock) : Prop :=
  (toolResultTextLength results : ℤ) ≤ maxChars ∨
    (((results.map fun r => cutLength hasImportantTail share maxChars r.content).sum : ℕ) : ℤ) ≤
      maxChars

/-- After the truncation the detector answers no, and a second one changes nothing. -/
structure Settled (contextWindowTokens : ℤ) (messages : List Message) : Prop where
  detector : hasOversizedToolResults contextWindowTokens
    (truncateOversizedToolResults hasImportantTail share contextWindowTokens messages).1 = false
  again : truncateOversizedToolResults hasImportantTail share contextWindowTokens
      (truncateOversizedToolResults hasImportantTail share contextWindowTokens messages).1 =
    ((truncateOversizedToolResults hasImportantTail share contextWindowTokens messages).1, 0)

/-! ## Lengths after the truncation -/

variable {hasImportantTail share}

theorem textLength_truncatePart (maxChars : ℤ) (total : ℕ) (b : UserBlock) :
    (truncatePart hasImportantTail share maxChars total b).textLength = match b with
      | .text s =>
        (truncateToolResultText hasImportantTail s (partBudget share maxChars total s)).length
      | .image .. => 0 := by
  rcases b with s | _
  · simp only [truncatePart]
    split_ifs with hs
    · have hbudget : (0 : ℤ) < partBudget share maxChars total s := by
        unfold partBudget minKeepChars
        omega
      have hfits : ((s.length : ℕ) : ℤ) ≤ partBudget share maxChars total s := by
        rw [hs] at hbudget ⊢
        exact hbudget.le
      rw [truncateToolResultText, if_neg (not_le.2 hbudget), if_pos hfits]
      rfl
    · rfl
  · rfl

theorem textLength_truncateBlock (maxChars : ℤ) (block : ToolResultBlock) :
    (truncateBlock hasImportantTail share maxChars block).1.content.textLength =
      cutLength hasImportantTail share maxChars block.content := by
  unfold truncateBlock cutLength
  rcases hcontent : block.content with s | bs
  · simp only
    split_ifs with hfits
    · rw [hcontent]
      rfl
    · rfl
  · simp only
    split_ifs with hfits
    · rw [hcontent]
      rfl
    · simp only [Content.textLength, List.map_map]
      exact congrArg List.sum (List.map_congr_left fun b _ => textLength_truncatePart _ _ b)

/-- A message is within the maximum afterwards exactly if its results fit together. -/
theorem toolResultTextLength_truncate_le_iff (maxChars : ℤ) (results : List ToolResultBlock) :
    (toolResultTextLength (truncateToolResultMessage hasImportantTail share maxChars results).1 :
        ℤ) ≤ maxChars ↔ FitTogether hasImportantTail share maxChars results := by
  unfold truncateToolResultMessage FitTogether
  split_ifs with hfits
  · exact iff_of_true hfits (Or.inl hfits)
  · rw [or_iff_right hfits]
    have hlengths : results.map ((fun r : ToolResultBlock => r.content.textLength) ∘ Prod.fst ∘
          truncateBlock hasImportantTail share maxChars) =
        results.map fun r => cutLength hasImportantTail share maxChars r.content :=
      List.map_congr_left fun r _ => textLength_truncateBlock maxChars r
    simp only [toolResultTextLength, List.map_map]
    rw [hlengths]

/-- A truncation of what is within the maximum does nothing. -/
theorem truncateOversizedToolResults_of_not_oversized {contextWindowTokens : ℤ}
    {messages : List Message} (h : hasOversizedToolResults contextWindowTokens messages = false) :
    truncateOversizedToolResults hasImportantTail share contextWindowTokens messages =
      (messages, 0) := by
  have hsame : ∀ m ∈ messages, truncateMessage hasImportantTail share
      (calculateMaxToolResultChars contextWindowTokens) m = (m, 0) := by
    intro m hm
    have hfits := List.any_eq_false.1 h m hm
    rcases m with _ | _ | _ | results
    case toolResult =>
      have hle : (toolResultTextLength results : ℤ) ≤
          calculateMaxToolResultChars contextWindowTokens :=
        not_lt.1 fun hlt => hfits (decide_eq_true hlt)
      simp only [truncateMessage, truncateToolResultMessage, if_pos hle]
    all_goals rfl
  unfold truncateOversizedToolResults
  simp only
  rw [List.map_congr_left hsame]
  simp [Function.comp_def]

/-- The truncation settles the session exactly if in each message the results fit together once those
that are too long have been cut one by one. -/
theorem settled_iff (hasImportantTail : String → Bool) (share : Share) (contextWindowTokens : ℤ)
    (messages : List Message) :
    Settled hasImportantTail share contextWindowTokens messages ↔
      ∀ m ∈ messages, FitTogether hasImportantTail share
        (calculateMaxToolResultChars contextWindowTokens) m.results := by
  have hdetector : hasOversizedToolResults contextWindowTokens
      (truncateOversizedToolResults hasImportantTail share contextWindowTokens messages).1 = false ↔
      ∀ m ∈ messages, FitTogether hasImportantTail share
        (calculateMaxToolResultChars contextWindowTokens) m.results := by
    simp only [hasOversizedToolResults, truncateOversizedToolResults, List.map_map]
    rw [List.any_eq_false]
    simp only [List.mem_map, forall_exists_index, and_imp, forall_apply_eq_imp_iff₂,
      Function.comp_apply, decide_eq_true_eq, not_lt]
    refine forall₂_congr fun m _ => ?_
    rcases m with _ | _ | _ | results
    case toolResult => exact toolResultTextLength_truncate_le_iff _ results
    all_goals
      refine iff_of_true ?_ (Or.inl ?_) <;>
        exact (show (0 : ℤ) ≤ minKeepChars by decide).trans (le_max_left _ _)
  rw [← hdetector]
  exact ⟨fun h => h.detector, fun h => ⟨h, truncateOversizedToolResults_of_not_oversized h⟩⟩

/-- 1500 characters. -/
def longText : String :=
  String.ofList (List.replicate 1500 'a')

theorem length_longText : longText.length = 1500 :=
  String.length_ofList.trans List.length_replicate

def twoResults : List Message :=
  [.toolResult [⟨"t1", .text longText, false⟩, ⟨"t2", .text longText, false⟩]]

/-- Each fits by itself, and the detector stays on. -/
theorem twoResults_not_settled :
    ¬Settled (fun _ => false) (fun maxChars length total => maxChars * length / total) 0
      twoResults := by
  intro h
  have hmax : calculateMaxToolResultChars 0 = 2000 := by
    norm_num [calculateMaxToolResultChars, Py.int, minKeepChars, hardMaxToolResultChars]
  have hoversized : hasOversizedToolResults 0 twoResults = true := by
    simp [hasOversizedToolResults, twoResults, hmax, toolResultTextLength, Content.textLength,
      length_longText]
  have hsame : truncateOversizedToolResults (fun _ => false)
      (fun maxChars length total => maxChars * length / total) 0 twoResults = (twoResults, 0) := by
    simp [truncateOversizedToolResults, twoResults, hmax, truncateMessage,
      truncateToolResultMessage, truncateBlock, toolResultTextLength, Content.textLength,
      length_longText]
  have hdetector := h.detector
  rw [hsame, hoversized] at hdetector
  cases hdetector

end OxenClaw
