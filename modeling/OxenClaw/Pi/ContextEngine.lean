import OxenClaw.Lib.Binary64
import OxenClaw.Lib.Numbered
import OxenClaw.Pi.Run.PreemptiveCompaction

/-!
# The context engine

Before each turn `OpenclawContextEngine.assemble` estimates the prompt. Where it is over
four fifths of the budget, the body of every tool result is cut to its first 1024 characters,
and a marker says how many are gone. The blocks are cut in place, so that the next turn starts
from what this one left.

A marker has its own length, and a cut body is again above the limit. A body that is only a
little too long grows, and the next turn cuts into the marker of this one
(`trimText_trimText_iff` : only a text of 1046 characters is cut to itself). When the prompt
neither grows nor changes again is `assemble_settles_iff`.

Blocks are values here : one block does not stand in two messages.
-/

namespace OxenClaw.ContextEngine

open OxenClaw PreemptiveCompaction

/-- `DEFAULT_CHARS_PER_TOKEN`. -/
def defaultCharsPerToken : ℚ := 7 / 2

/-- `proactive_threshold_ratio`, the number `0.80` stands for. -/
def proactiveThresholdRatio : ℚ := 3602879701896397 / 4503599627370496

/-- `proactive_keep_chars`. -/
def proactiveKeepChars : ℕ := 1024

/-! ## Cutting one body -/

/-- `f"\n[...trimmed {n} chars]"`. -/
def trimmedMarker (n : ℕ) : List Char :=
  '\n' :: '[' :: '.' :: '.' :: '.' :: 't' :: 'r' :: 'i' :: 'm' :: 'm' :: 'e' :: 'd' :: ' ' ::
    (Nat.toDigits 10 n ++ [' ', 'c', 'h', 'a', 'r', 's', ']'])

/-- What is kept of a text that is too long, and the marker. -/
def trimText (keepChars : ℕ) (text : List Char) : List Char :=
  if text.length ≤ keepChars then text
  else text.take keepChars ++ trimmedMarker (text.length - keepChars)

/-- The length of a cut text. -/
def trimmedLength (keepChars length : ℕ) : ℕ :=
  if length ≤ keepChars then length
  else keepChars + (20 + (Nat.toDigits 10 (length - keepChars)).length)

@[simp] theorem length_trimmedMarker (n : ℕ) :
    (trimmedMarker n).length = 20 + (Nat.toDigits 10 n).length := by
  simp only [trimmedMarker, List.length_cons, List.length_append, List.length_nil]
  omega

theorem trimmedMarker_inj {m n : ℕ} (h : trimmedMarker m = trimmedMarker n) : m = n := by
  have hdigits : Nat.toDigits 10 m = Nat.toDigits 10 n := by
    simpa [trimmedMarker] using h
  have hsuffix : [] ++ Numbered.suffix m = [] ++ Numbered.suffix n :=
    congrArg (fun digits => [] ++ '-' :: digits) hdigits
  exact Numbered.suffix_inj hsuffix

@[simp] theorem length_trimText (k : ℕ) (text : List Char) :
    (trimText k text).length = trimmedLength k text.length := by
  rw [trimText, trimmedLength]
  split_ifs with h
  · rfl
  · rw [List.length_append, List.length_take, length_trimmedMarker, min_eq_left (by omega)]

/-- Twenty more than its number of digits is the number twenty-two alone. -/
theorem eq_twenty_add_length_toDigits_iff {n : ℕ} :
    n = 20 + (Nat.toDigits 10 n).length ↔ n = 22 := by
  refine ⟨fun h => ?_, fun h => h ▸ by decide⟩
  generalize hd : (Nat.toDigits 10 n).length = d at h
  rcases Nat.lt_or_ge d 3 with hlt | hge
  · obtain rfl | rfl | rfl : d = 0 ∨ d = 1 ∨ d = 2 := by omega
    · exact absurd hd (by rw [h]; decide)
    · exact absurd hd (by rw [h]; decide)
    · exact h
  · -- a number of `d` digits is far beyond `20 + d`
    obtain ⟨e, rfl⟩ := Nat.exists_eq_add_of_le' hge
    have hlarge : 10 ^ (e + 2) ≤ n := by
      by_contra hsmall
      have := (Nat.length_toDigits_le_iff (by omega) (by omega)).2 (not_le.1 hsmall)
      omega
    have hpow : e < 10 ^ e := Nat.lt_pow_self (by omega)
    rw [Nat.pow_add] at hlarge
    omega

/-- A second cut changes every text that is too long, except of 22 characters too many. -/
theorem trimText_trimText_iff (k : ℕ) (text : List Char) :
    trimText k (trimText k text) = trimText k text ↔
      text.length ≤ k ∨ text.length = k + 22 := by
  rcases le_or_gt text.length k with hshort | hlong
  · have htrim : trimText k text = text := if_pos hshort
    rw [htrim, htrim]
    exact iff_of_true rfl (.inl hshort)
  have htrim : trimText k text = text.take k ++ trimmedMarker (text.length - k) :=
    if_neg (by omega)
  have hlength : (trimText k text).length =
      k + (20 + (Nat.toDigits 10 (text.length - k)).length) := by
    rw [length_trimText, trimmedLength, if_neg (by omega)]
  have hkept : (trimText k text).take k = text.take k := by
    rw [htrim, List.take_append_of_le_length (by rw [List.length_take]; omega), List.take_take,
      min_self]
  have hagain : trimText k (trimText k text) =
      text.take k ++ trimmedMarker (20 + (Nat.toDigits 10 (text.length - k)).length) := by
    rw [trimText, if_neg (by omega), hkept, hlength, Nat.add_sub_cancel_left]
  have hcancel : trimText k (trimText k text) = trimText k text ↔
      text.length - k = 20 + (Nat.toDigits 10 (text.length - k)).length := by
    rw [hagain, htrim, List.append_cancel_left_eq]
    exact ⟨fun h => (trimmedMarker_inj h).symm, fun h => by rw [← h]⟩
  rw [hcancel, eq_twenty_add_length_toDigits_iff]
  omega

/-! ## Cutting the messages -/

/-- What one block is left with; a list too long to cut stays. -/
def trimContent (keepChars : ℕ) : Content → Content
  | .text s => .text (String.ofList (trimText keepChars s.toList))
  | .blocks bs => .blocks bs

def trimMessage (keepChars : ℕ) : Message → Message
  | .toolResult rs =>
    .toolResult (rs.map fun r => { r with content := trimContent keepChars r.content })
  | m => m

/-- The characters that are gone, fewer than none where a body grew. -/
def removedChars (keepChars : ℕ) (messages : List Message) : ℤ :=
  (messages.map fun m => (m.results.map fun r =>
    (contentLength r.content : ℤ) - contentLength (trimContent keepChars r.content)).sum).sum

/-- `_trim_tool_results_inplace` : what the messages become and the count returned, `none` when
a list and a text are added. -/
def trimToolResultsInplace (messages : List Message) (keepChars : ℕ) :
    Option (List Message × ℤ) :=
  if messages.any fun m => m.results.any fun r => cutRaises keepChars r.content then none
  else some (messages.map (trimMessage keepChars), removedChars keepChars messages)

theorem trimContent_trimContent_iff (k : ℕ) (c : Content) :
    trimContent k (trimContent k c) = trimContent k c ↔
      ∀ s, c = .text s → s.length ≤ k ∨ s.length = k + 22 := by
  rcases c with s | bs
  · simp [trimContent, String.ofList_inj, trimText_trimText_iff, String.length_toList]
  · simp [trimContent]

@[simp] theorem cutRaises_trimContent (k k' : ℕ) (c : Content) :
    cutRaises k (trimContent k' c) = cutRaises k c := by
  cases c <;> rfl

theorem results_trimMessage (k : ℕ) (m : Message) : (trimMessage k m).results =
    m.results.map fun r => { r with content := trimContent k r.content } := by
  cases m <;> rfl

/-- Some list is too long to be cut. -/
def Uncuttable (keepChars : ℕ) (messages : List Message) : Prop :=
  ∃ m ∈ messages, ∃ r ∈ m.results, cutRaises keepChars r.content = true

theorem trimToolResultsInplace_of_not {messages : List Message} {k : ℕ}
    (h : ¬Uncuttable k messages) : trimToolResultsInplace messages k =
      some (messages.map (trimMessage k), removedChars k messages) := by
  refine if_neg fun hany => h ?_
  obtain ⟨m, hm, hr⟩ := List.any_eq_true.1 hany
  exact ⟨m, hm, List.any_eq_true.1 hr⟩

theorem trimToolResultsInplace_of_uncuttable {messages : List Message} {k : ℕ}
    (h : Uncuttable k messages) : trimToolResultsInplace messages k = none := by
  obtain ⟨m, hm, hr⟩ := h
  exact if_pos (List.any_eq_true.2 ⟨m, hm, List.any_eq_true.2 hr⟩)

theorem not_uncuttable_map_trimMessage {messages : List Message} {k : ℕ}
    (h : ¬Uncuttable k messages) : ¬Uncuttable k (messages.map (trimMessage k)) := by
  rintro ⟨_, hm', _, hr', hraises⟩
  obtain ⟨m, hm, rfl⟩ := List.mem_map.1 hm'
  rw [results_trimMessage] at hr'
  obtain ⟨r, hr, rfl⟩ := List.mem_map.1 hr'
  exact h ⟨m, hm, r, hr, (cutRaises_trimContent k k r.content).symm.trans hraises⟩

/-- No text is cut into again. -/
def CutOnce (keepChars : ℕ) (messages : List Message) : Prop :=
  ∀ m ∈ messages, ∀ r ∈ m.results, ∀ s, r.content = .text s →
    s.length ≤ keepChars ∨ s.length = keepChars + 22

theorem trimMessage_trimMessage_iff (k : ℕ) (m : Message) :
    trimMessage k (trimMessage k m) = trimMessage k m ↔
      ∀ r ∈ m.results, ∀ s, r.content = .text s → s.length ≤ k ∨ s.length = k + 22 := by
  rcases m with _ | _ | _ | rs
  · simp [trimMessage]
  · simp [trimMessage]
  · simp [trimMessage]
  · simp [trimMessage, trimContent_trimContent_iff]

theorem map_trimMessage_trimMessage_iff (k : ℕ) (messages : List Message) :
    (messages.map (trimMessage k)).map (trimMessage k) = messages.map (trimMessage k) ↔
      CutOnce k messages := by
  rw [List.map_map, List.map_inj_left]
  exact forall₂_congr fun m _ => trimMessage_trimMessage_iff k m

/-! ## The estimate -/

/-- The estimate of a body of `length` items. -/
def tokens (length : ℕ) : ℤ :=
  estimateTokensFromLength length defaultCharsPerToken

/-- The tokens a body loses, fewer than none where it grows. -/
def contentGain (keepChars : ℕ) : Content → ℤ
  | .text s => tokens s.length - tokens (trimmedLength keepChars s.length)
  | .blocks _ => 0

/-- The tokens that all bodies lose. -/
def trimGain (keepChars : ℕ) (messages : List Message) : ℤ :=
  (messages.map fun m => (m.results.map fun r => contentGain keepChars r.content).sum).sum

theorem tokens_trimContent (k : ℕ) (c : Content) :
    tokens (contentLength (trimContent k c)) = tokens (contentLength c) - contentGain k c := by
  rcases c with s | bs
  · simp [trimContent, contentLength, contentGain, String.length_toList]
  · simp [trimContent, contentLength, contentGain]

theorem sum_map_sub {α : Type*} (f g : α → ℤ) (l : List α) :
    (l.map fun a => f a - g a).sum = (l.map f).sum - (l.map g).sum := by
  induction l with
  | nil => rfl
  | cons a l ih =>
    simp only [List.map_cons, List.sum_cons, ih]
    omega

theorem estimateMessageTokens_trimMessage (k : ℕ) (m : Message) :
    estimateMessageTokens defaultCharsPerToken (trimMessage k m) =
      estimateMessageTokens defaultCharsPerToken m -
        (m.results.map fun r => contentGain k r.content).sum := by
  rcases m with _ | _ | _ | rs
  · exact (sub_zero _).symm
  · exact (sub_zero _).symm
  · exact (sub_zero _).symm
  · have hsum : ∀ r ∈ rs, tokens (contentLength (trimContent k r.content)) =
        tokens (contentLength r.content) - contentGain k r.content :=
      fun r _ => tokens_trimContent k r.content
    rw [trimMessage, estimateMessageTokens, List.map_map]
    exact (congrArg List.sum (List.map_congr_left hsum)).trans (sum_map_sub _ _ rs)

/-- What is estimated of the messages of a session. -/
def estimated (messages : List Message) : ℤ :=
  estimatePromptTokens none messages defaultCharsPerToken

theorem estimated_map_trimMessage (k : ℕ) (messages : List Message) :
    estimated (messages.map (trimMessage k)) = estimated messages - trimGain k messages := by
  have hsum : messages.map (estimateMessageTokens defaultCharsPerToken ∘ trimMessage k) = _ :=
    List.map_congr_left fun m _ => estimateMessageTokens_trimMessage k m
  rw [estimated, estimated, estimatePromptTokens, estimatePromptTokens, trimGain, List.map_map,
    hsum, sum_map_sub, add_sub_assoc]

/-! ## Assembling -/

/-- `AssembleResult`, its messages and its estimate. -/
structure AssembleResult where
  messages : List Message
  estimatedTokens : ℤ

/-- `int(token_budget * proactive_threshold_ratio)`, `none` when it raises. -/
def threshold (tokenBudget : ℤ) : Option ℤ :=
  match Binary64.ofRat tokenBudget with
  | .fin budget => (Binary64.ofRat (budget * proactiveThresholdRatio)).toInt.toOption
  | _ => none

/-- `OpenclawContextEngine.assemble`, `none` when it raises. -/
def assemble (messages : List Message) (tokenBudget : Option ℤ) : Option AssembleResult :=
  let total := estimated messages
  match tokenBudget with
  | none => some ⟨messages, total⟩
  | some budget =>
    if budget ≤ 0 then some ⟨messages, total⟩
    else do
      let limit ← threshold budget
      if total ≤ limit then some ⟨messages, total⟩
      else do
        let (trimmed, removed) ← trimToolResultsInplace messages proactiveKeepChars
        some ⟨trimmed, if removed = 0 then total else estimated trimmed⟩

/-- The prompt does not grow, and assembling what comes out changes nothing. -/
def Settles (messages : List Message) (tokenBudget : Option ℤ) : Prop :=
  ∃ out again, assemble messages tokenBudget = some out ∧
    estimated out.messages ≤ estimated messages ∧
    assemble out.messages tokenBudget = some again ∧ again.messages = out.messages

/-- Nothing is cut within the limit. -/
theorem assemble_of_le {messages : List Message} {budget limit : ℤ}
    (hlimit : threshold budget = some limit) (h : estimated messages ≤ limit) :
    assemble messages (some budget) = some ⟨messages, estimated messages⟩ := by
  by_cases hbudget : budget ≤ 0
  · exact if_pos hbudget
  · simp only [assemble, if_neg hbudget, hlimit, Option.bind_eq_bind, Option.bind_some, if_pos h]

/-- Above the limit every body is cut. -/
theorem assemble_of_lt {messages : List Message} {budget limit : ℤ} (hbudget : 0 < budget)
    (hlimit : threshold budget = some limit) (h : limit < estimated messages) :
    (assemble messages (some budget)).map AssembleResult.messages =
      (trimToolResultsInplace messages proactiveKeepChars).map Prod.fst := by
  simp only [assemble, if_neg (not_le.2 hbudget), hlimit, Option.bind_eq_bind, Option.bind_some,
    if_neg (not_le.2 h)]
  rcases trimToolResultsInplace messages proactiveKeepChars with _ | ⟨trimmed, removed⟩
  · rfl
  · rfl

/-- Every body can be cut, all of them together lose no fewer tokens than they get, and then the
prompt is within the limit or no text is cut into again. -/
def CutsWell (limit : ℤ) (messages : List Message) : Prop :=
  ¬Uncuttable proactiveKeepChars messages ∧ 0 ≤ trimGain proactiveKeepChars messages ∧
    (estimated messages - trimGain proactiveKeepChars messages ≤ limit ∨
      CutOnce proactiveKeepChars messages)

/-- What is returned unchanged settles. -/
theorem settles_of_unchanged {messages : List Message} {tokenBudget : Option ℤ} {total : ℤ}
    (h : assemble messages tokenBudget = some ⟨messages, total⟩) :
    Settles messages tokenBudget :=
  ⟨_, _, h, le_rfl, h, rfl⟩

/-- Above the limit. -/
theorem settles_iff_of_lt {messages : List Message} {budget limit : ℤ} (hbudget : 0 < budget)
    (hlimit : threshold budget = some limit) (h : limit < estimated messages) :
    Settles messages (some budget) ↔ CutsWell limit messages := by
  have hassemble := assemble_of_lt hbudget hlimit h
  by_cases hraises : Uncuttable proactiveKeepChars messages
  · rw [trimToolResultsInplace_of_uncuttable hraises, Option.map_none, Option.map_eq_none_iff]
      at hassemble
    refine iff_of_false ?_ fun hsettles => hsettles.1 hraises
    rintro ⟨out, again, hout, -⟩
    cases hassemble.symm.trans hout
  rw [trimToolResultsInplace_of_not hraises, Option.map_some, Option.map_eq_some_iff] at hassemble
  obtain ⟨out, hout, hmessages⟩ := hassemble
  have hmessages : out.messages = messages.map (trimMessage proactiveKeepChars) := hmessages
  have hestimated : estimated out.messages =
      estimated messages - trimGain proactiveKeepChars messages := by
    rw [hmessages]
    exact estimated_map_trimMessage _ _
  have hagain : (∃ again, assemble out.messages (some budget) = some again ∧
      again.messages = out.messages) ↔
      estimated out.messages ≤ limit ∨ CutOnce proactiveKeepChars messages := by
    rcases le_or_gt (estimated out.messages) limit with hle | hlt
    · exact iff_of_true ⟨_, assemble_of_le hlimit hle, rfl⟩ (.inl hle)
    · have hsecond := assemble_of_lt hbudget hlimit hlt
      rw [hmessages, trimToolResultsInplace_of_not (not_uncuttable_map_trimMessage hraises),
        Option.map_some, Option.map_eq_some_iff, ← hmessages] at hsecond
      obtain ⟨again, heq, hcut⟩ := hsecond
      rw [or_iff_right (not_le.2 hlt), ← map_trimMessage_trimMessage_iff, ← hmessages]
      refine ⟨?_, fun hsame => ⟨again, heq, hcut.trans hsame⟩⟩
      rintro ⟨again', heq', hsame⟩
      obtain rfl := Option.some.inj (heq.symm.trans heq')
      exact hcut.symm.trans hsame
  rw [CutsWell, ← hestimated, ← hagain]
  constructor
  · rintro ⟨out', again, hout', hle, heq, hsame⟩
    obtain rfl := Option.some.inj (hout.symm.trans hout')
    exact ⟨hraises, by omega, again, heq, hsame⟩
  · rintro ⟨-, hgain, again, heq, hsame⟩
    exact ⟨out, again, hout, by omega, heq, hsame⟩

/-- Assembling settles exactly where nothing is to be cut (no budget, or an estimate within four
fifths of it) or all is cut well. -/
theorem assemble_settles_iff (messages : List Message) (tokenBudget : Option ℤ) :
    Settles messages tokenBudget ↔ ∀ budget, tokenBudget = some budget → 0 < budget →
      ∃ limit, threshold budget = some limit ∧
        (estimated messages ≤ limit ∨ CutsWell limit messages) := by
  rcases tokenBudget with _ | budget
  · exact iff_of_true (settles_of_unchanged rfl) fun _ h => absurd h (Option.some_ne_none _).symm
  rcases le_or_gt budget 0 with hneg | hpos
  · have hsame : assemble messages (some budget) = some ⟨messages, estimated messages⟩ :=
      if_pos hneg
    refine iff_of_true (settles_of_unchanged hsame) ?_
    rintro _ ⟨⟩ hpos
    exact absurd hpos (not_lt.2 hneg)
  rcases hlimit : threshold budget with _ | limit
  · refine iff_of_false ?_ fun h => ?_
    · rintro ⟨out, again, hout, -⟩
      simp only [assemble, if_neg (not_le.2 hpos), hlimit, Option.bind_eq_bind, Option.bind_none,
        reduceCtorEq] at hout
    · obtain ⟨limit, hsome, -⟩ := h budget rfl hpos
      exact absurd (hlimit.symm.trans hsome) (Option.some_ne_none _).symm
  rcases le_or_gt (estimated messages) limit with hle | hlt
  · refine iff_of_true (settles_of_unchanged (assemble_of_le hlimit hle)) ?_
    rintro _ ⟨⟩ -
    exact ⟨limit, hlimit, .inl hle⟩
  · refine ⟨fun hsettles => ?_, fun h => ?_⟩
    · rintro _ ⟨⟩ -
      exact ⟨limit, hlimit, .inr ((settles_iff_of_lt hpos hlimit hlt).1 hsettles)⟩
    · obtain ⟨limit', hsome, hcase⟩ := h budget rfl hpos
      obtain rfl := Option.some.inj (hlimit.symm.trans hsome)
      exact (settles_iff_of_lt hpos hlimit hlt).2 (hcase.resolve_left (not_le.2 hlt))

theorem proactiveThresholdRatio_le_one : proactiveThresholdRatio ≤ 1 := by
  rw [proactiveThresholdRatio, div_le_one (by norm_num)]
  norm_num

/-- A limit is no larger than its budget. -/
theorem threshold_le {n : ℕ} {limit : ℤ} (hn : n < 2 ^ 53) (h : threshold n = some limit) :
    limit ≤ n := by
  have hround : Binary64.ofRat ((n : ℤ) : ℚ) = .fin n := by
    rw [Int.cast_natCast]
    exact Binary64.ofRat_natCast hn
  have hproduct := Binary64.ofRat_le_ofRat
    (mul_le_of_le_one_right (Nat.cast_nonneg n) proactiveThresholdRatio_le_one)
  rw [threshold, hround] at h
  exact Binary64.le_of_toInt_eq (Binary64.ofRat_natCast hn ▸ hproduct)
    (Binary64.IntOf.toOption_eq_some_iff.1 h)

/-- One result of 1025 characters. -/
def longResult : List Message :=
  [.toolResult [⟨"t", .text (String.ofList (List.replicate 1025 'a')), false⟩]]

theorem tokens_eq {n : ℕ} (h : n ≠ 0) : tokens n = max 1 ((2 * n / 7 : ℕ) : ℤ) := by
  have hquotient : (n : ℚ) / defaultCharsPerToken = ((2 * n : ℕ) : ℚ) / (7 : ℕ) := by
    rw [defaultCharsPerToken]
    push_cast
    ring
  have hnonneg : (0 : ℚ) ≤ ((2 * n : ℕ) : ℚ) / (7 : ℕ) := by positivity
  rw [tokens, estimateTokensFromLength, if_neg h, hquotient, Py.int, if_pos hnonneg,
    Rat.floor_natCast_div_natCast, Int.natCast_ediv]

theorem estimated_longResult : estimated longResult = 292 := by
  have hblock (s : String) :
      estimated [.toolResult [⟨"t", .text s, false⟩]] = tokens s.length := by
    simp [estimated, estimatePromptTokens, estimateMessageTokens, estimateTokensFromLength,
      contentLength, tokens]
  unfold longResult
  rw [hblock, String.length_ofList, List.length_replicate, tokens_eq (by omega)]
  rfl

theorem trimGain_longResult : trimGain proactiveKeepChars longResult = -6 := by
  have hblock (s : String) : trimGain proactiveKeepChars
      [.toolResult [⟨"t", .text s, false⟩]] = contentGain proactiveKeepChars (.text s) := by
    simp [trimGain]
  have hlength : trimmedLength proactiveKeepChars 1025 = 1045 := rfl
  unfold longResult
  rw [hblock, contentGain, String.length_ofList, List.length_replicate, hlength,
    tokens_eq (by omega), tokens_eq (by omega)]
  rfl

/-- It is cut to 1045 characters. -/
theorem longResult_not_settles : ¬Settles longResult (some 100) := by
  intro hsettles
  rcases hlimit : threshold 100 with _ | limit
  · obtain ⟨out, again, hout, -⟩ := hsettles
    simp only [assemble, hlimit, Option.bind_eq_bind, Option.bind_none] at hout
    split_ifs at hout with h
    exact absurd h (by decide)
  · have hle := threshold_le (n := 100) (by decide) hlimit
    have hlt : limit < estimated longResult := by
      rw [estimated_longResult]
      omega
    have hgain := ((settles_iff_of_lt (by decide) hlimit hlt).1 hsettles).2.1
    rw [trimGain_longResult] at hgain
    exact absurd hgain (by decide)

end OxenClaw.ContextEngine
