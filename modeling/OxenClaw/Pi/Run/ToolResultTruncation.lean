import Mathlib.Tactic.NormNum
import OxenClaw.Lib.Python

/-!
# Truncation of one tool result

`truncateToolResultText` cuts an over-long output at a line break near the budget. Where
the end of the text looks important it keeps head and tail and drops the middle.
-/

namespace OxenClaw

/-- `HARD_MAX_TOOL_RESULT_CHARS`. -/
def hardMaxToolResultChars : ℤ := 400000

/-- `MIN_KEEP_CHARS`. -/
def minKeepChars : ℤ := 2000

/-- `TRUNCATION_SUFFIX`. -/
def truncationSuffix : String :=
  "\n\n⚠️ [Content truncated — original was too large for the model's " ++
    "context window. The content above is a partial view. If you need " ++
    "more, request specific sections or use offset/limit parameters to " ++
    "read smaller chunks.]"

/-- `MIDDLE_OMISSION_MARKER`. -/
def middleOmissionMarker : String :=
  "\n\n⚠️ [... middle content omitted — showing head and tail ...]\n\n"

/-- `calculate_max_tool_result_chars`. -/
def calculateMaxToolResultChars (contextWindowTokens : ℤ) : ℤ :=
  let safeTokens := max 0 (Py.int (contextWindowTokens * (3 / 10 : ℚ)))
  max minKeepChars (min (safeTokens * 4) hardMaxToolResultChars)

/-- `text.rfind("\n", 0, end)`, `-1` when there is none. -/
def rfindNewline (text : List Char) (stop : ℤ) : ℤ :=
  match (text.take stop.toNat).reverse.idxOf? '\n' with
  | some i => (text.take stop.toNat).length - 1 - i
  | none => -1

/-- `text.find("\n", start)`, `-1` when there is none. -/
def findNewline (text : List Char) (start : ℤ) : ℤ :=
  match (text.drop start.toNat).idxOf? '\n' with
  | some i => start.toNat + i
  | none => -1

/-- `truncate_tool_result_text`. `hasImportantTail` is the two regular expressions of
`_has_important_tail` on the end of the text. -/
def truncateToolResultText (hasImportantTail : String → Bool) (text : String) (maxChars : ℤ)
    (suffix : String := truncationSuffix) (minKeep : ℤ := minKeepChars) : String :=
  if maxChars ≤ 0 then ""
  else if (text.length : ℤ) ≤ maxChars then text
  else
    let minKeep := if maxChars < minKeep then max 0 (maxChars - suffix.length) else minKeep
    let budget := max minKeep (maxChars - suffix.length)
    let chars := text.toList
    let tailBudget := min (budget / 3) 4000
    let headBudget := budget - tailBudget - middleOmissionMarker.length
    if hasImportantTail text ∧ minKeep * 2 < budget ∧ minKeep < headBudget then
      let headNewline := rfindNewline chars headBudget
      let headCut :=
        if Py.int (headBudget * (4 / 5 : ℚ)) < headNewline then headNewline else headBudget
      let tailStart := (text.length : ℤ) - tailBudget
      let tailNewline := findNewline chars tailStart
      let tailStart :=
        if tailNewline ≠ -1 ∧ tailNewline < tailStart + Py.int (tailBudget * (1 / 5 : ℚ)) then
          tailNewline + 1
        else tailStart
      String.ofList (chars.take headCut.toNat) ++ middleOmissionMarker ++
        String.ofList (chars.drop tailStart.toNat) ++ suffix
    else
      let lastNewline := rfindNewline chars budget
      let cutPoint := if Py.int (budget * (4 / 5 : ℚ)) < lastNewline then lastNewline else budget
      String.ofList (chars.take cutPoint.toNat) ++ suffix

theorem rfindNewline_of_notMem {text : List Char} (h : '\n' ∉ text) (stop : ℤ) :
    rfindNewline text stop = -1 := by
  have hnone : (text.take stop.toNat).reverse.idxOf? '\n' = none := by
    rw [List.idxOf?_eq_none_iff, List.mem_reverse]
    exact fun hmem => h (List.mem_of_mem_take hmem)
  rw [rfindNewline, hnone]

theorem length_truncationSuffix : truncationSuffix.length = 217 := by
  unfold truncationSuffix
  rw [String.length_append, String.length_append, String.length_append]
  decide +kernel

/-- A text on one line is cut where the suffix fits. -/
theorem truncate_of_oneLine {text : String} {maxChars : ℤ} (hline : '\n' ∉ text.toList)
    (hmax : minKeepChars + truncationSuffix.length ≤ maxChars) (hlong : maxChars < text.length) :
    truncateToolResultText (fun _ => false) text maxChars =
      String.ofList (text.toList.take (maxChars - truncationSuffix.length).toNat) ++
        truncationSuffix := by
  have hkeep : minKeepChars = 2000 := rfl
  rw [hkeep] at hmax
  have hbudget : max minKeepChars (maxChars - truncationSuffix.length) =
      maxChars - truncationSuffix.length := by
    rw [hkeep]
    omega
  have hminKeep : (if maxChars < minKeepChars then max 0 (maxChars - truncationSuffix.length)
      else minKeepChars) = minKeepChars := if_neg (by omega)
  have hcut : ¬Py.int ((maxChars - truncationSuffix.length : ℤ) * (4 / 5 : ℚ)) < -1 := by
    have hnonneg : (0 : ℚ) ≤ (maxChars - truncationSuffix.length : ℤ) * (4 / 5 : ℚ) := by
      have hbudget : (0 : ℤ) ≤ maxChars - truncationSuffix.length := by omega
      exact mul_nonneg (Int.cast_nonneg hbudget) (by norm_num)
    have hfloor := Int.floor_nonneg.2 hnonneg
    rw [Py.int, if_pos hnonneg]
    omega
  unfold truncateToolResultText
  rw [if_neg (by omega), if_neg (by omega)]
  dsimp only
  rw [hminKeep, hbudget, if_neg fun h => Bool.false_ne_true h.1, rfindNewline_of_notMem hline, if_neg hcut]

end OxenClaw
