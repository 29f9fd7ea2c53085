import Mathlib.Algebra.BigOperators.Group.Multiset.Basic
import Mathlib.Algebra.Ring.Int.Defs
import OxenClaw.Pi.Run.PreemptiveCompaction

/-!
# What truncating the tool results saves

`decide` lets the tool results be truncated if what they have beyond 1024 characters covers the
overflow. The truncation keeps 1024 characters of each and adds a marker of 15, and the estimate
rounds each result by itself, so it may save less than that, or make the prompt longer
(`truncation_settles_iff`).
-/

namespace OxenClaw.PreemptiveCompaction

open OxenClaw

/-- What the decision is made with, but for the messages. -/
structure PromptLimits where
  system : Option String := none
  contextWindow : ℤ
  thresholdRatio : ℚ
  charsPerToken : ℚ
  charsPerToken_pos : 0 < charsPerToken
  reserveTokens : ℤ := 1024

namespace PromptLimits

variable (limits : PromptLimits)

def decide (messages : List Message) : CompactionDecision :=
  PreemptiveCompaction.decide limits.system messages limits.contextWindow limits.thresholdRatio
    limits.charsPerToken limits.reserveTokens

def budget : ℤ :=
  max 1 (Py.int (limits.contextWindow * limits.thresholdRatio) - limits.reserveTokens)

def tokens (messages : List Message) : ℤ :=
  estimatePromptTokens limits.system messages limits.charsPerToken

/-- A result beyond 1024 characters becomes one of 1039. -/
def savedOf (r : ToolResultBlock) : ℤ :=
  if 1024 < contentLength r.content then
    estimateTokensFromLength (contentLength r.content) limits.charsPerToken -
      estimateTokensFromLength 1039 limits.charsPerToken
  else 0

def saved (messages : List Message) : ℤ :=
  (messages.map fun m => (m.results.map limits.savedOf).sum).sum

/-- If the tool results are to be truncated, they can be, and the next decision is to do nothing. -/
def Settles (messages : List Message) : Prop :=
  (limits.decide messages).route = .truncateToolResults →
    ∃ truncated, truncateToolResults messages = some truncated ∧
      (limits.decide truncated).route = .noop

end PromptLimits

/-- No result is a list of more than 1024 blocks. -/
def ShortLists (messages : List Message) : Prop :=
  ∀ m ∈ messages, ∀ r ∈ m.results, ∀ bs, r.content = .blocks bs → bs.length ≤ 1024

/-! ## The estimate after the truncation -/

variable (limits : PromptLimits) {messages : List Message}

theorem sum_map_sub {α : Type*} (l : List α) (f g : α → ℤ) :
    (l.map fun a => f a - g a).sum = (l.map f).sum - (l.map g).sum := by
  have h := Multiset.sum_map_sub (f := f) (g := g) (m := (l : Multiset α))
  rwa [Multiset.map_coe, Multiset.map_coe, Multiset.map_coe, Multiset.sum_coe, Multiset.sum_coe,
    Multiset.sum_coe] at h

theorem contentLength_truncateContent {c : Content} (h : cutRaises 1024 c = false) :
    contentLength (truncateContent 1024 c) =
      if 1024 < contentLength c then 1039 else contentLength c := by
  have hmarker : "\n[...truncated]".length = 15 := by decide +kernel
  rcases c with s | bs
  · rcases lt_or_ge 1024 s.length with hlong | hlong
    · have htake : (s.toList.take 1024).length = 1024 := by
        rw [List.length_take, String.length_toList]
        omega
      rw [truncateContent, if_pos hlong, contentLength, contentLength, if_pos hlong,
        String.length_append, String.length_ofList, htake, hmarker]
    · rw [truncateContent, if_neg hlong.not_gt, contentLength, if_neg hlong.not_gt]
  · have hshort : ¬1024 < bs.length := of_decide_eq_false h
    exact (if_neg hshort).symm

theorem estimate_truncateMessage {m : Message}
    (h : ∀ r ∈ m.results, cutRaises 1024 r.content = false) :
    estimateMessageTokens limits.charsPerToken (truncateMessage 1024 m) =
      estimateMessageTokens limits.charsPerToken m - (m.results.map limits.savedOf).sum := by
  rcases m with _ | content | _ | results
  case toolResult =>
    simp only [truncateMessage, estimateMessageTokens, Message.results_toolResult, List.map_map]
    rw [← sum_map_sub]
    refine congrArg List.sum (List.map_congr_left fun r hr => ?_)
    simp only [Function.comp_apply, contentLength_truncateContent (h r hr), PromptLimits.savedOf]
    split_ifs <;> omega
  all_goals simp [truncateMessage]

theorem tokens_truncate (h : ∀ m ∈ messages, ∀ r ∈ m.results, cutRaises 1024 r.content = false) :
    limits.tokens (messages.map (truncateMessage 1024)) =
      limits.tokens messages - limits.saved messages := by
  have hmessages : (messages.map (truncateMessage 1024)).map
      (estimateMessageTokens limits.charsPerToken) = messages.map fun m =>
        estimateMessageTokens limits.charsPerToken m - (m.results.map limits.savedOf).sum := by
    rw [List.map_map]
    exact List.map_congr_left fun m hm => estimate_truncateMessage limits (h m hm)
  unfold PromptLimits.tokens estimatePromptTokens PromptLimits.saved
  rw [hmessages, sum_map_sub]
  omega

theorem route_eq_noop_iff (messages : List Message) : (limits.decide messages).route = .noop ↔
    limits.tokens messages ≤ limits.budget := by
  unfold PromptLimits.decide decide
  simp only
  change (if limits.tokens messages ≤ limits.budget then _ else _ : CompactionDecision).route = _ ↔ _
  split_ifs with hfits hcover
  · exact iff_of_true rfl hfits
  · exact iff_of_false (by rintro ⟨⟩) hfits
  · exact iff_of_false (by rintro ⟨⟩) hfits

theorem shortLists_iff : ShortLists messages ↔
    ∀ m ∈ messages, ∀ r ∈ m.results, cutRaises 1024 r.content = false := by
  refine forall₂_congr fun m _ => forall₂_congr fun r _ => ?_
  rcases r.content with s | bs
  · exact iff_of_true (fun bs h => by cases h) rfl
  · simp [cutRaises]

/-- Truncating the tool results, where that is decided, settles the prompt exactly if none is a list
too long to cut and what is saved covers the overflow. -/
theorem truncation_settles_iff (messages : List Message) : limits.Settles messages ↔
    ((limits.decide messages).route = .truncateToolResults →
      ShortLists messages ∧
        limits.tokens messages - limits.budget ≤ limits.saved messages) := by
  refine imp_congr_right fun _ => ?_
  rw [shortLists_iff]
  unfold truncateToolResults
  split_ifs with hraises
  · refine iff_of_false (by rintro ⟨truncated, ⟨⟩, -⟩) fun h => ?_
    obtain ⟨m, hm, hany⟩ := List.any_eq_true.1 hraises
    obtain ⟨r, hr, hcut⟩ := List.any_eq_true.1 hany
    rw [h.1 m hm r hr] at hcut
    cases hcut
  · have hcut : ∀ m ∈ messages, ∀ r ∈ m.results, cutRaises 1024 r.content = false := by
      simpa using hraises
    rw [and_iff_right hcut]
    have hnoop := route_eq_noop_iff limits (messages.map (truncateMessage 1024))
    rw [tokens_truncate limits hcut] at hnoop
    constructor
    · rintro ⟨truncated, htruncated, hroute⟩
      obtain rfl := Option.some.inj htruncated
      have := hnoop.1 hroute
      omega
    · exact fun h => ⟨_, rfl, hnoop.2 (by omega)⟩

def smallWindow : PromptLimits where
  contextWindow := 1550
  thresholdRatio := 17 / 20
  charsPerToken := 7 / 2
  charsPerToken_pos := by norm_num

theorem budget_smallWindow : smallWindow.budget = 293 := by
  decide +kernel

theorem tokens_smallWindow (r : ToolResultBlock) :
    smallWindow.tokens [.toolResult [r]] =
      estimateTokensFromLength (contentLength r.content) (7 / 2) := by
  simp [PromptLimits.tokens, smallWindow, estimatePromptTokens, estimateMessageTokens,
    estimateTokensFromLength]

/-- One result of 1031 characters, which is one token too much, becomes one of 1039. -/
theorem longResult_not_settled :
    ¬smallWindow.Settles
      [.toolResult [⟨"c1", .text (String.ofList (List.replicate 1031 'x')), false⟩]] := by
  have hlength : contentLength (.text (String.ofList (List.replicate 1031 'x'))) = 1031 :=
    String.length_ofList.trans List.length_replicate
  generalize hr : (⟨"c1", .text (String.ofList (List.replicate 1031 'x')), false⟩ :
    ToolResultBlock) = r
  have hlong : contentLength r.content = 1031 := by rw [← hr, hlength]
  have hcut : cutRaises 1024 r.content = false := by rw [← hr]; rfl
  have hbefore : smallWindow.tokens [.toolResult [r]] = 294 := by
    rw [tokens_smallWindow, hlong]
    decide +kernel
  have hsaved : smallWindow.saved [.toolResult [r]] = -2 := by
    simp only [PromptLimits.saved, List.map_cons, List.map_nil, List.sum_cons, List.sum_nil,
      Message.results_toolResult, PromptLimits.savedOf, hlong]
    decide +kernel
  have hroute : (smallWindow.decide [.toolResult [r]]).route = .truncateToolResults := by
    have hreducible : toolResultReducibleChars [.toolResult [r]] = 7 := by
      simp [toolResultReducibleChars, hlong]
    change (if smallWindow.tokens [.toolResult [r]] ≤ smallWindow.budget then _ else
      if smallWindow.tokens [.toolResult [r]] - smallWindow.budget ≤
        Py.int (toolResultReducibleChars [.toolResult [r]] / (7 / 2 : ℚ)) then _ else _ :
      CompactionDecision).route = _
    rw [hbefore, hreducible, budget_smallWindow, if_neg (by decide), if_pos (by decide +kernel)]
  intro h
  obtain ⟨truncated, htruncated, hnoop⟩ := h hroute
  have hcuts : ∀ m ∈ [Message.toolResult [r]], ∀ r ∈ m.results,
      cutRaises 1024 r.content = false := by
    simpa using hcut
  obtain rfl : [Message.toolResult [r]].map (truncateMessage 1024) = truncated := by
    simpa [truncateToolResults, hcut] using htruncated
  rw [route_eq_noop_iff, tokens_truncate smallWindow hcuts, hbefore, hsaved,
    budget_smallWindow] at hnoop
  omega

end OxenClaw.PreemptiveCompaction
