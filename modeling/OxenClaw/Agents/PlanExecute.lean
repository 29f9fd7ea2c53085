import OxenClaw.Lib.Cuts
import OxenClaw.Lib.Maxima
import OxenClaw.Lib.Regex
import OxenClaw.Pi.Tools

/-!
# Plan, then execute

The model first writes a plan without tools. Its numbered lines are the steps
(`extractNumberedSteps`), and each step is run and verified on its own, a few times at most
(`runPlanThenExecute`).

Of the numbered lines those are kept whose number is above the last that was kept, so that a
line of prose which begins with a number takes part too : `2024 was a good year` drops every
step below it. Which steps are read and run is `carried_iff`.

`run_agent_turn` is a parameter, asked by the number of the call; `none` is an exception.
-/

namespace OxenClaw.PlanExecute

open OxenClaw Py

/-! ## The numbered lines -/

/-- `(?:[-*]\s+)?`. -/
def skipBullet : List Char → List Char
  | b :: c :: s =>
    if (b = '-' ∨ b = '*') ∧ isSpace c then s.dropWhile isSpace else b :: c :: s
  | s => s

/-- `(?:\*\*)?`. -/
def skipEmphasis : List Char → List Char
  | '*' :: '*' :: s => s
  | s => s

/-- `\s*(?:\*\*)?\s*(.+?)\s*$`, the group without the space around it. Asterisks at the end of
the line are the body themselves. -/
def numberedBody (s : List Char) : Option (List Char) :=
  if s = [] then none
  else if s.dropWhile isSpace = ['*', '*'] then some ['*', '*']
  else some (strip (skipEmphasis (s.dropWhile isSpace)))

/-- `_NUMBERED_LINE_RE.match(line)` : the number as it is written, and the body. -/
def numberedLine (u : Unicode) (line : List Char) : Option (List Char × List Char) :=
  let s := (skipEmphasis (skipBullet (line.dropWhile isSpace))).dropWhile isSpace
  if s.takeWhile u.isDigit = [] then none
  else
    match s.dropWhile u.isDigit with
    | [] => none
    | c :: rest =>
      if c = '.' ∨ c = ')' ∨ isSpace c then
        (numberedBody rest).map fun body => (s.takeWhile u.isDigit, body)
      else none

/-- `int(digits)`. -/
def intOfDigits (u : Unicode) (digits : List Char) : ℕ :=
  digits.foldl (fun n c => n * 10 + (u.digit c).getD 0) 0

/-- What a line adds to `steps`. -/
def numberedStep (u : Unicode) (line : List Char) : Option (ℕ × String) :=
  match numberedLine u line with
  | some (digits, body) =>
    if body = [] then none else some (intOfDigits u digits, String.ofList body)
  | none => none

/-- `int` raises beyond 4300 digits. -/
def numberTooLong (u : Unicode) (line : List Char) : Bool :=
  match numberedLine u line with
  | some (digits, _) => 4300 < digits.length
  | none => false

/-- `extract_numbered_steps`, `none` when it raises. -/
def extractNumberedSteps (u : Unicode) (planText : String) : Option (List String) :=
  let lines := splitlines planText.toList
  if lines.any (numberTooLong u) then none
  else some (Maxima.climb 0 (lines.filterMap (numberedStep u)))

/-! ## The verdict -/

/-- `_extract_text`. -/
def extractText (message : AssistantMessage) : String :=
  stripString (String.intercalate "\n" (message.content.filterMap fun
    | .text s => if s = "" then none else some s
    | _ => none))

/-- `Verdict`. -/
structure Verdict where
  met : Bool
  reason : String

/-- What stands behind the colon, or behind the first `n` characters. -/
def verdictTail (line : List Char) (n : ℕ) (otherwise : String) : String :=
  let tail := match partition [':'] line with
    | some (_, after) => strip after
    | none => stripChars [' ', '-', '—'] (line.drop n)
  if tail = [] then otherwise else String.ofList tail

/-- The verdict of one line, where it begins with one. -/
def verdictOfLine (text : PyText) (rawLine : List Char) : Option Verdict :=
  let line := strip ((strip rawLine).dropWhile fun c => ['-', '*', '•'].contains c)
  let low := (text.lower (String.ofList line)).toList
  if ['y', 'e', 's'].isPrefixOf low then some ⟨true, verdictTail line 3 "yes"⟩
  else if ['n', 'o'].isPrefixOf low then some ⟨false, verdictTail line 2 "no"⟩
  else none

/-- `parse_verdict`. -/
def parseVerdict (text : PyText) (reply : String) : Verdict :=
  let cleaned := strip reply.toList
  if cleaned = [] then ⟨false, "(empty verifier reply)"⟩
  else
    match (splitlines cleaned).findSome? (verdictOfLine text) with
    | some verdict => verdict
    | none =>
      let head := String.ofList ((text.lower (String.ofList cleaned)).toList.take 80)
      if contains "yes" head ∧ ¬contains "no" head then ⟨true, String.ofList (cleaned.take 120)⟩
      else if contains "no" head ∧ ¬contains "yes" head then
        ⟨false, String.ofList (cleaned.take 120)⟩
      else
        ⟨false, "(ambiguous: " ++ text.repr (.str (String.ofList (cleaned.take 80))) ++ ")"⟩

/-! ## The prompts -/

/-- `_PLANNING_GUIDANCE`. -/
def planningGuidance : String :=
  "\n\n────── PLANNING PHASE ──────\n" ++
    "For THIS turn ONLY, do not call any tools. Produce a numbered " ++
    "plan (3-7 actionable steps) that fulfils the user's request. " ++
    "Format strictly as:\n" ++
    "1. <step>\n2. <step>\n3. <step>\n" ++
    "Each step should be concrete enough that an executor can do it " ++
    "with one or two tool calls. Quote any input values from the " ++
    "user's request verbatim so the executor doesn't lose them — " ++
    "but never pre-compute, embed, or quote the *derived output* of " ++
    "a step (the upper-cased string, the sum, the sorted list, etc.). " ++
    "Reply with the plan only — no preamble, no commentary."

/-- `_PLAN_VALIDATOR_GUIDANCE`. -/
def planValidatorGuidance : String :=
  "Review the plan above as a critic, not the author. Reject the " ++
    "plan ONLY if one of these two concrete defects is present:\n" ++
    "  (a) A step embeds a literal expected output — a quoted " ++
    "      transformed string, a numeric sum, a sorted list, etc. " ++
    "      Re-stating input verbatim is fine; pre-computing a " ++
    "      derived result is not.\n" ++
    "  (b) A step required by the user's request is missing entirely.\n" ++
    "Do NOT reject for wording, brevity, ambiguity, style, or " ++
    "minor redundancy — those are the executor's problem, not the " ++
    "plan's. When in doubt, answer YES.\n" ++
    "Reply on a single line:\n" ++
    "  YES: <one-line reason the plan is sound>\n" ++
    "or\n" ++
    "  NO: <step number + which defect (a) or (b) and the literal " ++
    "      embedded value, if any>"

/-- `_REPLAN_NUDGE_TEMPLATE`. -/
def replanNudge (reason : String) : String :=
  "The previous plan was rejected. Reason: " ++ reason ++ "\n" ++
    "Produce a corrected numbered plan now. Describe the ACTION only " ++
    "for each step — do NOT include expected outputs or pre-computed " ++
    "values. Reply with the plan only."

/-- `_STEP_GUIDANCE_TEMPLATE`. -/
def stepGuidance (n total : ℕ) (step : String) : String :=
  "\n\n────── EXECUTION PHASE — STEP " ++ toString n ++ "/" ++ toString total ++ " ──────\n" ++
    "Now execute step " ++ toString n ++ ": " ++ step ++ "\n" ++
    "Use the available tools as needed. When done with this step, " ++
    "give a one-line summary of what was accomplished."

/-- `_VERIFIER_GUIDANCE_TEMPLATE`. -/
def verifierGuidance (n : ℕ) (step : String) : String :=
  "Did the previous turn satisfy step " ++ toString n ++ " of the plan? " ++
    "Step " ++ toString n ++ ": " ++ step ++ "\n" ++
    "Reply EXACTLY in this format on a single line:\n" ++
    "  YES: <one-line reason>\n" ++
    "or\n" ++
    "  NO: <one-line reason>\n" ++
    "Be strict — only answer YES if the step is genuinely complete " ++
    "(not just attempted)."

/-- The nudge before another attempt. -/
def retryNudge (n : ℕ) (step reason : String) : String :=
  "The previous attempt did not satisfy step " ++ toString n ++ ". Reason: " ++ reason ++ "\n" ++
    "Retry step " ++ toString n ++ ": " ++ step

/-! ## The run -/

/-- What `run_agent_turn` is called with; `tools` is whether it gets some. -/
structure Prompt where
  system : String
  history : List Message
  tools : Bool

/-- What `run_agent_turn` returns. -/
structure Turn where
  finalMessage : AssistantMessage
  appendedMessages : List Message

/-- The arguments of `run_plan_then_execute`. -/
structure Settings where
  userRequest : String
  system : String
  history : List Message := []
  verifierRetryCap : ℤ := 1
  planRetryCap : ℤ := 1

/-- `StepRun`. -/
structure StepRun where
  stepText : String
  attempts : ℕ := 0
  finalText : String := ""
  verifierMet : Bool := false
  verifierReason : String := ""

/-- `PlanExecuteResult`. -/
structure PlanExecuteResult where
  planText : String := ""
  planSteps : List String := []
  stepRuns : List StepRun := []
  finalText : String := ""
  fellBackToSingleCall : Bool := false
  totalTurns : ℕ := 0
  planAttempts : ℕ := 0
  planVerdictMet : Bool := false
  planVerdictReason : String := ""

/-- The steps that were tried. -/
def PlanExecuteResult.executed (out : PlanExecuteResult) : List String :=
  (out.stepRuns.filter fun run => 0 < run.attempts).map StepRun.stepText

/-- `UserMessage(content=text)`. -/
def userText (text : String) : Message :=
  .user (.text text)

variable (u : Unicode) (text : PyText) (turn : ℕ → Prompt → Option Turn) (settings : Settings)

/-- The plan and its validation, `remaining` attempts at most. -/
def planAttemptsFrom : ℕ → ℕ → List Message → PlanExecuteResult → Option PlanExecuteResult
  | 0, _, _, out => some out
  | remaining + 1, attempt, planHistory, out => do
    let planTurn ← turn out.totalTurns ⟨settings.system ++ planningGuidance, planHistory, false⟩
    let planText := extractText planTurn.finalMessage
    let planSteps ← extractNumberedSteps u planText
    let out := { out with
      totalTurns := out.totalTurns + 1
      planAttempts := attempt + 1
      planText := planText
      planSteps := planSteps }
    if planSteps = [] then some out
    else do
      let validatorTurn ← turn out.totalTurns
        ⟨settings.system,
          planHistory ++ planTurn.appendedMessages ++ [userText planValidatorGuidance], false⟩
      let verdict := parseVerdict text (extractText validatorTurn.finalMessage)
      let out := { out with
        totalTurns := out.totalTurns + 1
        planVerdictMet := verdict.met
        planVerdictReason := verdict.reason }
      if verdict.met then some out
      else
        planAttemptsFrom remaining (attempt + 1)
          (if (attempt : ℤ) < settings.planRetryCap then
            planHistory ++ planTurn.appendedMessages ++ [userText (replanNudge verdict.reason)]
          else planHistory) out

/-- What the attempts at one step change. -/
structure StepState where
  stepHistory : List Message
  run : StepRun
  totalTurns : ℕ

/-- The attempts at step `i`, `remaining` at most. -/
def stepAttemptsFrom (i : ℕ) (step : String) : ℕ → ℕ → StepState → Option StepState
  | 0, _, s => some s
  | remaining + 1, attemptIdx, s => do
    let stepTurn ← turn s.totalTurns ⟨settings.system, s.stepHistory, true⟩
    let stepHistory := s.stepHistory ++ stepTurn.appendedMessages
    let verifierTurn ← turn (s.totalTurns + 1)
      ⟨settings.system, stepHistory ++ [userText (verifierGuidance i step)], false⟩
    let verdict := parseVerdict text (extractText verifierTurn.finalMessage)
    let run := { s.run with
      attempts := s.run.attempts + 1
      finalText := extractText stepTurn.finalMessage
      verifierMet := verdict.met
      verifierReason := verdict.reason }
    if verdict.met then some ⟨stepHistory, run, s.totalTurns + 2⟩
    else
      stepAttemptsFrom i step remaining (attemptIdx + 1)
        ⟨if (attemptIdx : ℤ) < settings.verifierRetryCap then
            stepHistory ++ [userText (retryNudge i step verdict.reason)]
          else stepHistory, run, s.totalTurns + 2⟩

/-- The steps from number `i` on. -/
def stepsFrom (total : ℕ) : ℕ → List String → List Message → PlanExecuteResult →
    Option PlanExecuteResult
  | _, [], _, out => some out
  | i, step :: steps, accumulated, out => do
    let s ← stepAttemptsFrom text turn settings i step (settings.verifierRetryCap + 1).toNat 0
      ⟨accumulated ++ [userText (stepGuidance i total step)], { stepText := step }, out.totalTurns⟩
    stepsFrom total (i + 1) steps s.stepHistory
      { out with stepRuns := out.stepRuns ++ [s.run], totalTurns := s.totalTurns }

/-- `_format_step_summary`. -/
def formatStepSummary (idx : ℕ) (run : StepRun) : String :=
  let icon := if run.verifierMet then "✓" else "⚠"
  let suffix :=
    if run.verifierReason = "" then "  " ++ icon ++ " (no verifier reason)"
    else "  " ++ icon ++ " " ++ run.verifierReason
  let body := if run.finalText = "" then "(no text emitted)" else run.finalText
  if 1 < run.attempts then
    "[Step " ++ toString idx ++ "] (×" ++ toString run.attempts ++ ") " ++ body ++ "\n" ++ suffix
  else "[Step " ++ toString idx ++ "] " ++ body ++ "\n" ++ suffix

/-- `run_plan_then_execute`, `none` when a turn or the reading of a plan raises. -/
def runPlanThenExecute : Option PlanExecuteResult := do
  let out ← planAttemptsFrom u text turn settings (settings.planRetryCap + 1).toNat 0
    (settings.history ++
      [userText ("User request: " ++ settings.userRequest ++ "\n\nProduce the plan.")]) {}
  if out.planSteps = [] then do
    let single ← turn out.totalTurns
      ⟨settings.system, settings.history ++ [userText settings.userRequest], true⟩
    some { out with
      totalTurns := out.totalTurns + 1
      fellBackToSingleCall := true
      finalText := extractText single.finalMessage }
  else do
    let out ← stepsFrom text turn settings out.planSteps.length 1 out.planSteps
      (settings.history ++ [userText ("User request: " ++ settings.userRequest),
        .assistant ⟨[.text ("Plan:\n" ++ out.planText)], some "end_turn", none⟩]) out
    some { out with
      finalText := String.intercalate "\n\n"
        (out.stepRuns.mapIdx fun i run => formatStepSummary (i + 1) run) }

/-! ## What is run -/

variable {u text turn settings} {out out' : PlanExecuteResult}

/-- The steps are those of the plan, and none has run. -/
structure Planned (u : Unicode) (out : PlanExecuteResult) : Prop where
  planSteps : extractNumberedSteps u out.planText = some out.planSteps
  stepRuns : out.stepRuns = []

theorem planned_start : Planned u {} :=
  ⟨rfl, rfl⟩

/-- An attempt leaves the steps of its own plan. -/
theorem planned_of_planAttemptsFrom {remaining attempt : ℕ} {planHistory : List Message}
    (h : planAttemptsFrom u text turn settings remaining attempt planHistory out = some out')
    (hplanned : Planned u out) : Planned u out' := by
  induction remaining generalizing attempt planHistory out with
  | zero =>
    obtain rfl := Option.some.inj h
    exact hplanned
  | succ remaining ih =>
    obtain ⟨planTurn, -, h⟩ := Option.bind_eq_some_iff.1 h
    obtain ⟨planSteps, hsteps, h⟩ := Option.bind_eq_some_iff.1 h
    dsimp only at h
    by_cases hnone : planSteps = []
    · rw [if_pos hnone] at h
      obtain rfl := Option.some.inj h
      exact ⟨hsteps, hplanned.stepRuns⟩
    · rw [if_neg hnone] at h
      obtain ⟨validatorTurn, -, h⟩ := Option.bind_eq_some_iff.1 h
      split at h
      · obtain rfl := Option.some.inj h
        exact ⟨hsteps, hplanned.stepRuns⟩
      · exact ih h ⟨hsteps, hplanned.stepRuns⟩

/-- Attempts are counted, and are of the same step. -/
theorem run_of_stepAttemptsFrom {i : ℕ} {step : String} {remaining attemptIdx : ℕ}
    {s s' : StepState}
    (h : stepAttemptsFrom text turn settings i step remaining attemptIdx s = some s') :
    s'.run.stepText = s.run.stepText ∧ s.run.attempts ≤ s'.run.attempts ∧
      (s'.run.attempts = s.run.attempts ↔ remaining = 0) := by
  induction remaining generalizing attemptIdx s with
  | zero =>
    obtain rfl := Option.some.inj h
    exact ⟨rfl, le_rfl, iff_of_true rfl rfl⟩
  | succ remaining ih =>
    obtain ⟨stepTurn, -, h⟩ := Option.bind_eq_some_iff.1 h
    obtain ⟨verifierTurn, -, h⟩ := Option.bind_eq_some_iff.1 h
    dsimp only at h
    split_ifs at h
    · obtain rfl := Option.some.inj h
      exact ⟨rfl, Nat.le_succ _, by simp⟩
    · obtain ⟨htext, hle, -⟩ := ih h
      dsimp only at htext hle
      exact ⟨htext, by omega, by omega⟩
    · obtain ⟨htext, hle, -⟩ := ih h
      dsimp only at htext hle
      exact ⟨htext, by omega, by omega⟩

/-- Every step has its run, in order, tried at least once where a retry cap is not negative. -/
theorem stepRuns_of_stepsFrom {total i : ℕ} {steps : List String} {accumulated : List Message}
    (h : stepsFrom text turn settings total i steps accumulated out = some out') :
    ∃ runs : List StepRun, out'.stepRuns = out.stepRuns ++ runs ∧
      runs.map StepRun.stepText = steps ∧
      (∀ run ∈ runs, 0 < run.attempts ↔ 0 ≤ settings.verifierRetryCap) ∧
      out'.planText = out.planText := by
  induction steps generalizing i accumulated out with
  | nil =>
    obtain rfl := Option.some.inj h
    exact ⟨[], (List.append_nil _).symm, rfl, by simp, rfl⟩
  | cons step steps ih =>
    obtain ⟨s, hs, h⟩ := Option.bind_eq_some_iff.1 h
    obtain ⟨htext, -, hzero⟩ := run_of_stepAttemptsFrom hs
    obtain ⟨runs, hruns, hsteps, htried, hplan⟩ := ih h
    refine ⟨s.run :: runs, ?_, ?_, fun run hrun => ?_, hplan⟩
    · rw [hruns, List.append_assoc, List.singleton_append]
    · rw [List.map_cons, hsteps, htext]
    · rcases List.mem_cons.1 hrun with rfl | hrun
      · rw [Nat.pos_iff_ne_zero, Ne, hzero]
        omega
      · exact htried run hrun

/-- A run tries all steps of its plan, or none. -/
theorem executed_of_run (h : runPlanThenExecute u text turn settings = some out) :
    ∃ steps, extractNumberedSteps u out.planText = some steps ∧
      out.executed = if 0 ≤ settings.verifierRetryCap then steps else [] := by
  obtain ⟨planned, hplanned, h⟩ := Option.bind_eq_some_iff.1 h
  obtain ⟨hsteps, hnoRuns⟩ := planned_of_planAttemptsFrom hplanned planned_start
  refine ⟨planned.planSteps, ?_⟩
  split_ifs at h with hempty
  · obtain ⟨single, -, h⟩ := Option.bind_eq_some_iff.1 h
    obtain rfl := Option.some.inj h
    refine ⟨hsteps, ?_⟩
    rw [PlanExecuteResult.executed, hnoRuns, hempty, ite_self]
    rfl
  · obtain ⟨finished, hfinished, h⟩ := Option.bind_eq_some_iff.1 h
    obtain rfl := Option.some.inj h
    obtain ⟨runs, hruns, hmap, htried, hplan⟩ := stepRuns_of_stepsFrom hfinished
    refine ⟨hplan ▸ hsteps, ?_⟩
    rw [hnoRuns, List.nil_append] at hruns
    rw [PlanExecuteResult.executed]
    dsimp only
    rw [hruns]
    split_ifs with hcap
    · have hall : runs.filter (fun run => decide (0 < run.attempts)) = runs :=
        List.filter_eq_self.2 fun run hrun => decide_eq_true ((htried run hrun).2 hcap)
      rw [hall, hmap]
    · have hnone : runs.filter (fun run => decide (0 < run.attempts)) = [] :=
        List.filter_eq_nil_iff.2 fun run hrun hpos =>
          hcap ((htried run hrun).1 (of_decide_eq_true hpos))
      rw [hnone]
      rfl

/-! ## Which steps are read -/

/-- Every number can be read, and lines from first to last read as the steps, each with a number
above 0 and above that of every numbered line before it. -/
def Recorded (u : Unicode) (planText : String) (steps : List String) : Prop :=
  (∀ line ∈ splitlines planText.toList, numberTooLong u line = false) ∧
    ∃ places, Maxima.RecordsAt (numberedStep u) 0 (splitlines planText.toList) places steps

theorem sublist_extractNumberedSteps_iff {planText : String} {steps : List String} :
    (∃ read, extractNumberedSteps u planText = some read ∧ steps.Sublist read) ↔
      Recorded u planText steps := by
  rw [Recorded, ← Maxima.sublist_climb_iff]
  by_cases hlong : (splitlines planText.toList).any (numberTooLong u) = true
  · have hnone : extractNumberedSteps u planText = none := if_pos hlong
    refine iff_of_false ?_ ?_
    · rintro ⟨read, hread, -⟩
      cases hnone.symm.trans hread
    · rintro ⟨hall, -⟩
      obtain ⟨line, hline, hline'⟩ := List.any_eq_true.1 hlong
      exact Bool.false_ne_true ((hall line hline).symm.trans hline')
  · have hsome : extractNumberedSteps u planText = some
        (Maxima.climb 0 ((splitlines planText.toList).filterMap (numberedStep u))) := if_neg hlong
    have hall : ∀ line ∈ splitlines planText.toList, numberTooLong u line = false := by
      simpa using hlong
    rw [hsome, and_iff_right hall]
    exact ⟨fun ⟨read, hread, hsub⟩ => Option.some.inj hread ▸ hsub, fun hsub => ⟨_, rfl, hsub⟩⟩

/-! ### The lines of a plan -/

/-- `f"{i}. {s}"`. -/
def planLine (i : ℕ) (s : List Char) : List Char :=
  Nat.toDigits 10 i ++ '.' :: ' ' :: s

theorem skipBullet_of_head {c : Char} (hdash : c ≠ '-') (hstar : c ≠ '*') (s : List Char) :
    skipBullet (c :: s) = c :: s := by
  rcases s with _ | ⟨d, s⟩
  · rfl
  · exact if_neg fun h => h.1.elim hdash hstar

theorem skipEmphasis_of_notMem {s : List Char} (h : '*' ∉ s) : skipEmphasis s = s := by
  rw [skipEmphasis]
  rintro s rfl
  exact h List.mem_cons_self

theorem digit_of_isDigit {c : Char} (h : c.isDigit = true) : u.digit c = some (c.toNat - 48) := by
  have hlt : c.toNat < 128 := by
    unfold Char.isDigit at h
    simp only [Bool.and_eq_true, decide_eq_true_eq, UInt32.le_iff_toNat_le] at h
    exact h.2.trans_lt (by decide)
  rw [Unicode.digit, if_pos hlt, if_pos h]

theorem isDigit_of_mem_toDigits {i : ℕ} {c : Char} (h : c ∈ Nat.toDigits 10 i) :
    c.isDigit = true :=
  Nat.isDigit_of_mem_toDigits (by decide) (by decide) h

theorem intOfDigits_toDigits (i : ℕ) : intOfDigits u (Nat.toDigits 10 i) = i := by
  have hfold : intOfDigits u (Nat.toDigits 10 i) = Nat.ofDigitChars 10 (Nat.toDigits 10 i) 0 := by
    rw [intOfDigits, Nat.ofDigitChars]
    refine List.foldl_ext _ _ _ fun n c hc => ?_
    rw [digit_of_isDigit (isDigit_of_mem_toDigits hc), Option.getD_some, Nat.mul_comm]
    rfl
  rw [hfold]
  simp

/-- The line of a step reads as its number and the step. -/
theorem numberedLine_planLine (i : ℕ) {s : List Char} (hstar : '*' ∉ s) :
    numberedLine u (planLine i s) = some (Nat.toDigits 10 i, strip s) := by
  obtain ⟨d, ds, hdigits⟩ := List.exists_cons_of_ne_nil (Nat.toDigits_ne_nil (b := 10) (n := i))
  have hd : d.isDigit = true := isDigit_of_mem_toDigits (hdigits ▸ List.mem_cons_self)
  have hspace : isSpace d = false :=
    isSpace_of_isAlphanum (by rw [Char.isAlphanum, hd, Bool.or_true])
  have hhead : ((skipEmphasis (skipBullet ((planLine i s).dropWhile isSpace))).dropWhile isSpace) =
      planLine i s := by
    have hne (c : Char) (hc : c.isDigit = false) : d ≠ c := by
      rintro rfl
      exact Bool.false_ne_true (hc.symm.trans hd)
    have hkeep (s : List Char) : (d :: s).dropWhile isSpace = d :: s := by
      rw [List.dropWhile_cons, hspace, if_neg Bool.false_ne_true]
    have hemphasis (s : List Char) : skipEmphasis (d :: s) = d :: s := by
      rw [skipEmphasis]
      rintro s h
      exact hne '*' (by decide) (List.cons.inj h).1
    rw [planLine, hdigits, List.cons_append, hkeep,
      skipBullet_of_head (hne '-' (by decide)) (hne '*' (by decide)), hemphasis, hkeep]
  have hall : ∀ c ∈ Nat.toDigits 10 i, u.isDigit c = true := fun c hc => by
    rw [Unicode.isDigit, digit_of_isDigit (isDigit_of_mem_toDigits hc), Option.isSome_some]
  have hdot : u.isDigit '.' = false := rfl
  have htake : (planLine i s).takeWhile u.isDigit = Nat.toDigits 10 i := by
    rw [planLine, List.takeWhile_append_of_pos hall, List.takeWhile_cons, hdot,
      if_neg Bool.false_ne_true, List.append_nil]
  have hdrop : (planLine i s).dropWhile u.isDigit = '.' :: ' ' :: s := by
    rw [planLine, List.dropWhile_append_of_pos hall, List.dropWhile_cons, hdot,
      if_neg Bool.false_ne_true]
  have hbody : numberedBody (' ' :: s) = some (strip s) := by
    have hdropped : (' ' :: s).dropWhile isSpace = s.dropWhile isSpace := rfl
    have hstar' : '*' ∉ s.dropWhile isSpace := fun h => hstar (List.dropWhile_subset _ h)
    have hne : s.dropWhile isSpace ≠ ['*', '*'] := fun h => hstar' (h ▸ List.mem_cons_self)
    rw [numberedBody, if_neg (List.cons_ne_nil _ _), hdropped, if_neg hne,
      skipEmphasis_of_notMem hstar', strip, strip, List.dropWhile_idempotent]
  unfold numberedLine
  dsimp only
  rw [hhead, htake, hdrop, if_neg (by rw [hdigits]; exact List.cons_ne_nil _ _)]
  dsimp only
  rw [if_pos (.inl rfl), hbody, Option.map_some]

theorem numberedStep_planLine (i : ℕ) {s : List Char} (hstar : '*' ∉ s) (hblank : strip s ≠ []) :
    numberedStep u (planLine i s) = some (i, String.ofList (strip s)) := by
  rw [numberedStep, numberedLine_planLine i hstar]
  dsimp only
  rw [if_neg hblank, intOfDigits_toDigits]

/-- The lines of the steps stand at `places`, and no step is blank or has emphasis. -/
structure PlanAt (lines : List (List Char)) (places : List ℕ) (steps : List String) : Prop where
  sorted : places.Pairwise (· < ·)
  length : places.length = steps.length
  line : ∀ i (hp : i < places.length) (hs : i < steps.length),
    lines[places[i]]? = some (planLine (i + 1) steps[i].toList)
  notBlank : ∀ s ∈ steps, strip s.toList ≠ []
  noEmphasis : ∀ s ∈ steps, '*' ∉ s.toList

/-- Among lines whose numbers stay below that of the next step, a plan is recorded. -/
theorem PlanAt.recorded {planText : String} {places : List ℕ} {steps : List String}
    (h : PlanAt (splitlines planText.toList) places steps)
    (hread : ∀ line ∈ splitlines planText.toList, numberTooLong u line = false)
    (hbelow : ∀ i (hp : i < places.length), ∀ j < places[i], ∀ line,
      (splitlines planText.toList)[j]? = some line →
        ∀ m b, numberedStep u line = some (m, b) → m < i + 1) :
    Recorded u planText (steps.map stripString) := by
  refine ⟨hread, places, h.sorted, List.forall₂_map_right_iff.2
    (List.forall₂_iff_get.2 ⟨h.length, fun i hp hs => ?_⟩)⟩
  have hmem : steps[i] ∈ steps := List.getElem_mem hs
  exact ⟨_, i + 1, h.line i hp hs,
    numberedStep_planLine (i + 1) (h.noEmphasis _ hmem) (h.notBlank _ hmem), Nat.succ_pos i,
    hbelow i hp⟩

/-- The steps are read from the plan, in order, and a run of that plan tries all of them. -/
def Carried (u : Unicode) (text : PyText) (turn : ℕ → Prompt → Option Turn) (settings : Settings)
    (planText : String) (steps : List String) : Prop :=
  (∃ read, extractNumberedSteps u planText = some read ∧ steps.Sublist read) ∧
    ∀ out, runPlanThenExecute u text turn settings = some out → out.planText = planText →
      steps.Sublist out.executed

/-- Steps are carried out exactly where they are recorded, and a step has an attempt in a run of
the plan. -/
theorem carried_iff (u : Unicode) (text : PyText) (turn : ℕ → Prompt → Option Turn)
    (settings : Settings) (planText : String) (steps : List String) :
    Carried u text turn settings planText steps ↔ Recorded u planText steps ∧
      (steps = [] ∨ 0 ≤ settings.verifierRetryCap ∨
        ¬∃ out, runPlanThenExecute u text turn settings = some out ∧ out.planText = planText) := by
  rw [Carried, sublist_extractNumberedSteps_iff]
  refine and_congr_right fun hrecorded => ?_
  obtain ⟨read, hread, hsub⟩ := sublist_extractNumberedSteps_iff.2 hrecorded
  constructor
  · intro hruns
    by_contra hnot
    push Not at hnot
    obtain ⟨hsteps, hcap, out, hout, hplan⟩ := hnot
    obtain ⟨read', -, hexecuted⟩ := executed_of_run hout
    have hnone := hruns out hout hplan
    rw [hexecuted, if_neg (not_le.2 hcap), List.sublist_nil] at hnone
    exact hsteps hnone
  · rintro hcase out hout rfl
    obtain ⟨read', hread', hexecuted⟩ := executed_of_run hout
    obtain rfl := Option.some.inj (hread.symm.trans hread')
    rw [hexecuted]
    rcases hcase with rfl | hcap | hno
    · exact List.nil_sublist _
    · rwa [if_pos hcap]
    · exact absurd ⟨out, hout, rfl⟩ hno

/-- A plan below a line of prose. -/
def chattyPlan : String :=
  "2024 goals\n1. ab"

theorem extractNumberedSteps_chattyPlan :
    extractNumberedSteps .ascii chattyPlan = some ["goals"] := by
  decide +kernel

/-- The step of a plan with one line of prose is dropped, and the prose is run. -/
theorem chattyPlan_not_carried : ¬Carried .ascii ⟨id, fun _ => "", fun _ => ""⟩
    (fun _ _ => some ⟨⟨[.text chattyPlan], some "end_turn", none⟩, []⟩) ⟨"", "", [], 1, 1⟩
    chattyPlan ["ab"] := by
  rintro ⟨⟨read, hread, hsub⟩, -⟩
  obtain rfl := Option.some.inj (extractNumberedSteps_chattyPlan.symm.trans hread)
  exact absurd (List.singleton_sublist.1 hsub) (by decide)

end OxenClaw.PlanExecute
