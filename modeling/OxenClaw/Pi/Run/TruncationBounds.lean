import OxenClaw.Pi.Run.ToolResultTruncation

/-!
# How long a truncated text is

`truncate_tool_result_text` cuts a text that is longer than its maximum to a budget and adds a suffix
of 217 characters. From 2000 on the budget is not lowered below 2000, so a maximum between 2000 and
2217 is exceeded unless the text is cut at a line break before that, and the suffix alone exceeds a
maximum below 217 (`truncated_iff`).
-/

namespace OxenClaw

/-- A line break near the end of what fits, or the end of it. -/
def newlineCut (text : List Char) (budget : ℤ) : ℤ :=
  if Py.int (budget * (4 / 5 : ℚ)) < rfindNewline text budget then rfindNewline text budget
  else budget

/-- What `truncate_tool_result_text` cuts a text to that is longer than the maximum. -/
def truncationBudget (maxChars : ℤ) : ℤ :=
  if maxChars < minKeepChars then max 0 (maxChars - truncationSuffix.length)
  else max minKeepChars (maxChars - truncationSuffix.length)

/-- A front of the text and the suffix, or a front and an end with the two markers. -/
def KeepsEnds (text result : String) : Prop :=
  (∃ k, result = String.ofList (text.toList.take k) ++ truncationSuffix) ∨
    ∃ j k, j ≤ k ∧ result = String.ofList (text.toList.take j) ++ middleOmissionMarker ++
      String.ofList (text.toList.drop k) ++ truncationSuffix

/-- What a truncated text should be. Of a maximum of 0 only the empty text is left. -/
structure Truncated (text : String) (maxChars : ℤ) (result : String) : Prop where
  fits : (result.length : ℤ) ≤ maxChars
  kept : (text.length : ℤ) ≤ maxChars → result = text
  ends : 0 < maxChars → maxChars < text.length → KeepsEnds text result

/-- The maximum leaves room for the suffix, and it is below the floor of 2000 characters, or leaves
room for those as well, or a line break near the floor is far enough before it. -/
def LeavesRoom (text : String) (maxChars : ℤ) : Prop :=
  truncationSuffix.length ≤ maxChars ∧
    (maxChars < minKeepChars ∨ minKeepChars + truncationSuffix.length ≤ maxChars ∨
      1600 < rfindNewline text.toList minKeepChars ∧
        rfindNewline text.toList minKeepChars + truncationSuffix.length ≤ maxChars)

/-! ## Line breaks -/

theorem rfindNewline_lt (text : List Char) {stop : ℤ} (hstop : 0 ≤ stop) :
    rfindNewline text stop < stop := by
  unfold rfindNewline
  have hlength := List.length_take_le stop.toNat text
  split <;> omega

theorem newlineCut_le (text : List Char) {budget : ℤ} (hbudget : 0 ≤ budget) :
    newlineCut text budget ≤ budget := by
  have := rfindNewline_lt text hbudget
  unfold newlineCut
  split_ifs <;> omega

theorem int_nonneg {x : ℚ} (hx : 0 ≤ x) : 0 ≤ Py.int x := by
  rw [Py.int, if_pos hx]
  exact Int.floor_nonneg.2 hx

theorem newlineCut_nonneg (text : List Char) {budget : ℤ} (hbudget : 0 ≤ budget) :
    0 ≤ newlineCut text budget := by
  have hint : 0 ≤ Py.int (budget * (4 / 5 : ℚ)) :=
    int_nonneg (mul_nonneg (Int.cast_nonneg hbudget) (by norm_num))
  unfold newlineCut
  split_ifs <;> omega

theorem le_findNewline (text : List Char) {start : ℤ} (hstart : 0 ≤ start) :
    findNewline text start = -1 ∨ start ≤ findNewline text start := by
  unfold findNewline
  split
  · exact Or.inr (by omega)
  · exact Or.inl rfl

/-! ## A text that does not fit -/

theorem truncationBudget_nonneg (maxChars : ℤ) : 0 ≤ truncationBudget maxChars := by
  unfold truncationBudget minKeepChars
  split_ifs <;> omega

/-- A long text is cut to the budget, or its two ends are. -/
theorem truncate_cases (hasImportantTail : String → Bool) {text : String} {maxChars : ℤ}
    (hpos : 0 < maxChars) (hlong : maxChars < text.length) :
    truncateToolResultText hasImportantTail text maxChars =
        String.ofList (text.toList.take (newlineCut text.toList (truncationBudget maxChars)).toNat) ++
          truncationSuffix ∨
      minKeepChars * 2 < truncationBudget maxChars ∧ ∃ j k : ℕ, j ≤ k ∧
        (j + middleOmissionMarker.length + (text.length - k : ℕ) : ℤ) ≤ truncationBudget maxChars ∧
        truncateToolResultText hasImportantTail text maxChars =
          String.ofList (text.toList.take j) ++ middleOmissionMarker ++
            String.ofList (text.toList.drop k) ++ truncationSuffix := by
  obtain ⟨minKeep, hminKeep⟩ : ∃ minKeep, minKeep = if maxChars < minKeepChars then
      max 0 (maxChars - truncationSuffix.length) else minKeepChars := ⟨_, rfl⟩
  have hkeepChars : minKeepChars = 2000 := rfl
  have hbudget : max minKeep (maxChars - truncationSuffix.length) = truncationBudget maxChars := by
    unfold truncationBudget
    rw [hminKeep]
    split_ifs <;> omega
  unfold truncateToolResultText
  rw [if_neg (by omega), if_neg (by omega)]
  dsimp only
  rw [← hminKeep, hbudget]
  obtain ⟨budget, hb⟩ : ∃ budget, budget = truncationBudget maxChars := ⟨_, rfl⟩
  rw [← hb]
  have hnonneg : 0 ≤ budget := hb ▸ truncationBudget_nonneg maxChars
  by_cases hends : hasImportantTail text = true ∧ minKeep * 2 < budget ∧
      minKeep < budget - min (budget / 3) 4000 - middleOmissionMarker.length
  · rw [if_pos hends]
    -- The two ends are kept only where the budget is above its floor.
    have hfloor : minKeep = minKeepChars ∧ budget = maxChars - truncationSuffix.length := by
      rw [← hb] at hbudget
      split_ifs at hminKeep with hsmall <;> omega
    obtain ⟨-, htwice, hhead⟩ := hends
    obtain ⟨tailBudget, htail⟩ : ∃ tailBudget, tailBudget = min (budget / 3) 4000 := ⟨_, rfl⟩
    rw [← htail] at hhead ⊢
    obtain ⟨headBudget, hheadBudget⟩ : ∃ headBudget,
      headBudget = budget - tailBudget - middleOmissionMarker.length := ⟨_, rfl⟩
    rw [← hheadBudget] at hhead ⊢
    obtain ⟨tailStart, htailStart⟩ : ∃ tailStart, tailStart = (text.length : ℤ) - tailBudget :=
      ⟨_, rfl⟩
    rw [← htailStart]
    obtain ⟨start, hstart⟩ : ∃ start, start =
      if findNewline text.toList tailStart ≠ -1 ∧
          findNewline text.toList tailStart < tailStart + Py.int (tailBudget * (1 / 5 : ℚ)) then
        findNewline text.toList tailStart + 1
      else tailStart := ⟨_, rfl⟩
    rw [← hstart]
    have hle : tailStart ≤ start := by
      have := le_findNewline text.toList (show 0 ≤ tailStart by omega)
      split_ifs at hstart <;> omega
    have hcut : newlineCut text.toList headBudget ≤ headBudget :=
      newlineCut_le text.toList (by omega)
    refine Or.inr ⟨by omega, (newlineCut text.toList headBudget).toNat, start.toNat, ?_, ?_, rfl⟩
    · omega
    · omega
  · rw [if_neg hends]
    exact Or.inl rfl

theorem length_ofList_take (text : String) (k : ℕ) :
    (String.ofList (text.toList.take k)).length = min k text.length := by
  rw [String.length_ofList, List.length_take, String.length_toList]

theorem length_ofList_drop (text : String) (k : ℕ) :
    (String.ofList (text.toList.drop k)).length = text.length - k := by
  rw [String.length_ofList, List.length_drop, String.length_toList]

theorem keepsEnds_truncate (hasImportantTail : String → Bool) {text : String} {maxChars : ℤ}
    (hpos : 0 < maxChars) (hlong : maxChars < text.length) :
    KeepsEnds text (truncateToolResultText hasImportantTail text maxChars) := by
  rcases truncate_cases hasImportantTail hpos hlong with h | ⟨-, j, k, hjk, -, h⟩
  · exact Or.inl ⟨_, h⟩
  · exact Or.inr ⟨j, k, hjk, h⟩

/-- What is kept of a long text leaves room for the suffix. -/
theorem leavesRoom_iff {text : String} {maxChars : ℤ} (hpos : 0 < maxChars) :
    LeavesRoom text maxChars ↔
      newlineCut text.toList (truncationBudget maxChars) + truncationSuffix.length ≤ maxChars := by
  have hkeepChars : minKeepChars = 2000 := rfl
  have hcut := newlineCut_le text.toList (truncationBudget_nonneg maxChars)
  have hcut' := newlineCut_nonneg text.toList (truncationBudget_nonneg maxChars)
  unfold LeavesRoom
  rw [hkeepChars, length_truncationSuffix]
  have hbudget : truncationBudget maxChars = if maxChars < 2000 then max 0 (maxChars - 217)
      else max 2000 (maxChars - 217) := by
    rw [truncationBudget, hkeepChars, length_truncationSuffix]
    rfl
  rcases lt_or_ge maxChars 2000 with hsmall | hlarge
  · rw [if_pos hsmall] at hbudget
    omega
  · rw [if_neg (by omega)] at hbudget
    rcases lt_or_ge maxChars 2217 with hfloor | hroom
    · have hfour : Py.int ((2000 : ℤ) * (4 / 5 : ℚ)) = 1600 := by norm_num [Py.int]
      have hbudget : truncationBudget maxChars = 2000 := by omega
      rw [hbudget, newlineCut, hfour]
      split_ifs <;> omega
    · omega

/-- A long text fits afterwards exactly if the maximum leaves room. -/
theorem length_truncate_le_iff (hasImportantTail : String → Bool) {text : String} {maxChars : ℤ}
    (hpos : 0 < maxChars) (hlong : maxChars < text.length) :
    ((truncateToolResultText hasImportantTail text maxChars).length : ℤ) ≤ maxChars ↔
      LeavesRoom text maxChars := by
  have hkeepChars : minKeepChars = 2000 := rfl
  have hsuffix : truncationSuffix.length = 217 := length_truncationSuffix
  have hcut := newlineCut_le text.toList (truncationBudget_nonneg maxChars)
  have hcut' := newlineCut_nonneg text.toList (truncationBudget_nonneg maxChars)
  have hbudget : truncationBudget maxChars ≤ max 2000 (maxChars - 217) := by
    rw [truncationBudget, hkeepChars, hsuffix]
    split_ifs <;> omega
  rw [leavesRoom_iff hpos, hsuffix]
  rcases truncate_cases hasImportantTail hpos hlong with h | ⟨hbig, j, k, hjk, hlength, h⟩
  · rw [h, String.length_append, length_ofList_take, hsuffix]
    omega
  · refine iff_of_true ?_ (by omega)
    rw [h]
    simp only [String.length_append, length_ofList_take, length_ofList_drop, hsuffix]
    omega

/-- A truncated text is what it should be if it fits, the maximum is 0 or it leaves room. -/
theorem truncated_iff (hasImportantTail : String → Bool) (text : String) {maxChars : ℤ}
    (hmax : 0 ≤ maxChars) :
    Truncated text maxChars (truncateToolResultText hasImportantTail text maxChars) ↔
      text.length ≤ maxChars ∨ maxChars = 0 ∨ LeavesRoom text maxChars := by
  rcases hmax.eq_or_lt with rfl | hpos
  · have hempty : truncateToolResultText hasImportantTail text 0 = "" := if_pos le_rfl
    rw [hempty]
    refine iff_of_true ⟨le_rfl, fun h => ?_, fun h => absurd h (lt_irrefl _)⟩ (Or.inr (Or.inl rfl))
    exact (String.length_eq_zero_iff.1 (by omega)).symm
  · rcases le_or_gt (text.length : ℤ) maxChars with hfits | hlong
    · have hsame : truncateToolResultText hasImportantTail text maxChars = text := by
        unfold truncateToolResultText
        rw [if_neg (by omega), if_pos hfits]
      rw [hsame]
      exact iff_of_true ⟨hfits, fun _ => rfl, fun _ h => absurd hfits (not_le.2 h)⟩ (Or.inl hfits)
    · have hiff := length_truncate_le_iff hasImportantTail hpos hlong
      constructor
      · exact fun h => Or.inr (Or.inr (hiff.1 h.fits))
      · rintro (h | h | h)
        · omega
        · omega
        · exact ⟨hiff.2 h, fun hfits => absurd hfits (not_le.2 hlong),
            fun _ _ => keepsEnds_truncate hasImportantTail hpos hlong⟩

/-- 300 characters cut to 250. -/
theorem truncated_line : Truncated (String.ofList (List.replicate 300 'a')) 250
    (truncateToolResultText (fun _ => false) (String.ofList (List.replicate 300 'a')) 250) :=
  (truncated_iff (fun _ => false) (String.ofList (List.replicate 300 'a')) (by omega)).2
    (Or.inr (Or.inr ⟨by rw [length_truncationSuffix]; omega, Or.inl (by unfold minKeepChars; omega)⟩))

/-- 3000 characters on one line cut to 2000 : the result has 2217. -/
theorem line_not_truncated : ¬Truncated (String.ofList (List.replicate 3000 'a')) 2000
    (truncateToolResultText (fun _ => false) (String.ofList (List.replicate 3000 'a')) 2000) := by
  intro h
  have hlong : (2000 : ℤ) < (String.ofList (List.replicate 3000 'a')).length := by
    rw [String.length_ofList, List.length_replicate]
    omega
  have hroom := (length_truncate_le_iff (fun _ => false) (by omega) hlong).1 h.fits
  have hline : '\n' ∉ (String.ofList (List.replicate 3000 'a')).toList := by
    rw [String.toList_ofList, List.mem_replicate]
    rintro ⟨-, hc⟩
    cases hc
  have hkeepChars : minKeepChars = 2000 := rfl
  obtain ⟨-, h | h | h⟩ := hroom
  · omega
  · rw [length_truncationSuffix] at h
    omega
  · rw [rfindNewline_of_notMem hline] at h
    omega

end OxenClaw
