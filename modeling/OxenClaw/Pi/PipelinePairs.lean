import OxenClaw.Pi.SummaryStandIn

/-!
# Tool calls and results after the pipeline

What the structured summarizer pipeline returns has each result behind its call. If it cut the
transcript, the calls and results are of the same ids, and the last user message is there if the
messages to keep did not begin behind the end. If it did not, calls, results and user messages are
those of the transcript (`pipeline_pairsKept`).
-/

namespace OxenClaw.Compaction

open OxenClaw Message

/-- The most recent user message. -/
def lastUser? (messages : List Message) : Option Message :=
  (messages.filter isUser).getLast?

/-- What the passes of the pipeline leave of a message. -/
def SameTurn (m m' : Message) : Prop :=
  m.calledIds = m'.calledIds ∧ m.answeredIds = m'.answeredIds ∧
    (m.isUser = true ∨ m'.isUser = true → m = m')

/-- What holds of the list a call returns. -/
def PairsKept (cfg : PipelineConfig) (messages : List Message) : Prop :=
  match (pipeline cfg messages).outcome with
  | .skipped view | .noCut view => ResultsFollow view ∧ List.Forall₂ SameTurn view messages
  | .compacted view _ => ResultsFollow view ∧
      (∀ id, id ∈ view.flatMap answeredIds ↔ id ∈ view.flatMap calledIds) ∧
      (1 ≤ cfg.keepTailTurns → 2 ≤ messages.length → lastUser? view = lastUser? messages)
  | .outOfRange | .summarizerRaised => True

/-! ## The passes -/

theorem SameTurn.refl (m : Message) : SameTurn m m :=
  ⟨rfl, rfl, fun _ => rfl⟩

theorem map_toolUseId_dedupBlocks (digest : String → String) (seen : Dict String String)
    (blocks : List ToolResultBlock) :
    (dedupBlocks digest seen blocks).2.map ToolResultBlock.toolUseId =
      blocks.map ToolResultBlock.toolUseId := by
  induction blocks generalizing seen with
  | nil => rfl
  | cons block blocks ih =>
    have hblock : (dedupBlock digest seen block).2.toolUseId = block.toolUseId := by
      unfold dedupBlock
      simp only
      split_ifs
      · rfl
      · split <;> rfl
    rw [dedupBlocks, List.map_cons, List.map_cons, hblock, ih]

theorem sameTurn_dedupFrom (digest : String → String) (seen : Dict String String)
    (messages : List Message) :
    List.Forall₂ SameTurn (dedupFrom digest seen messages) messages := by
  induction messages generalizing seen with
  | nil => exact .nil
  | cons m messages ih =>
    rcases m with _ | _ | _ | results
    case toolResult =>
      refine .cons ⟨rfl, map_toolUseId_dedupBlocks digest seen results, fun h => ?_⟩ (ih _)
      rcases h with h | h <;> cases h
    all_goals exact .cons (SameTurn.refl _) (ih _)

theorem sameTurn_dedupToolResults (digest : String → String) (messages : List Message) :
    List.Forall₂ SameTurn (dedupToolResults digest messages) messages := by
  have h := List.rel_reverse (sameTurn_dedupFrom digest [] messages.reverse)
  rwa [List.reverse_reverse] at h

variable {l messages : List Message}

theorem refers_iff_of_sameTurn (h : List.Forall₂ SameTurn l messages) {seen : List String} :
    Exchange.Refers calledIds answeredIds seen l ↔
      Exchange.Refers calledIds answeredIds seen messages := by
  induction h generalizing seen with
  | nil => rfl
  | cons hm _ ih => rw [Exchange.Refers, Exchange.Refers, hm.1, hm.2.1, ih]

theorem flatMap_calledIds_of_sameTurn (h : List.Forall₂ SameTurn l messages) :
    l.flatMap calledIds = messages.flatMap calledIds := by
  induction h with
  | nil => rfl
  | cons hm _ ih => rw [List.flatMap_cons, List.flatMap_cons, hm.1, ih]

theorem filter_isUser_of_sameTurn (h : List.Forall₂ SameTurn l messages) :
    l.filter isUser = messages.filter isUser := by
  induction h with
  | nil => rfl
  | @cons m m' l messages hm _ ih =>
    rw [List.filter_cons, List.filter_cons, ih]
    by_cases huser : m.isUser = true
    · rw [hm.2.2 (Or.inl huser)]
    · have huser' : ¬m'.isUser = true := fun h => huser (by rw [hm.2.2 (Or.inr h)]; exact h)
      rw [if_neg huser, if_neg huser']

/-! ## The cut -/

theorem alignBoundaryBackward_le (messages : List Message) (cut : ℕ) :
    alignBoundaryBackward messages cut ≤ cut := by
  unfold alignBoundaryBackward
  split_ifs with hcut
  · exact le_rfl
  have hlength := (List.dropWhile_suffix isToolResult
    (l := (messages.take cut).reverse)).length_le
  rw [List.length_reverse, List.length_take] at hlength
  split
  · rename_i m before hbefore
    rw [hbefore, List.length_cons] at hlength
    split_ifs <;> omega
  · exact le_rfl

theorem filter_isUser_eq_nil (h : ∀ m ∈ l, isUser m = false) : l.filter isUser = [] :=
  List.filter_eq_nil_iff.2 fun m hm => by simp [h m hm]

theorem lastUser?_append {u : Message} {before after : List Message} (hu : u.isUser = true)
    (hafter : ∀ m ∈ after, isUser m = false) : lastUser? (before ++ u :: after) = some u := by
  rw [lastUser?, List.filter_append, List.filter_cons_of_pos hu, filter_isUser_eq_nil hafter,
    List.getLast?_concat]

/-- Behind a cut that was before the end, the last user message is still there. -/
theorem lastUser?_drop {cut cut' : ℕ} (hcut : cut < messages.length)
    (hle : cut' ≤ ensureLastUserMessageInTail messages cut) :
    lastUser? (messages.drop cut') = lastUser? messages := by
  unfold ensureLastUserMessageInTail at hle
  rw [if_neg hcut.not_ge] at hle
  have hsplit : messages.reverse.takeWhile (!·.isUser) ++ messages.reverse.dropWhile (!·.isUser) =
      messages.reverse := List.takeWhile_append_dropWhile
  have hafter : ∀ m ∈ (messages.reverse.takeWhile (!·.isUser)).reverse, isUser m = false :=
    fun m hm => by simpa using List.mem_takeWhile_imp (List.mem_reverse.1 hm)
  have hfirst := List.head?_dropWhile_not (!·.isUser) messages.reverse
  rcases hdrop : messages.reverse.dropWhile (!·.isUser) with _ | ⟨u, before⟩
  · rw [hdrop, List.append_nil] at hsplit
    rw [hsplit, List.reverse_reverse] at hafter
    rw [lastUser?, lastUser?, filter_isUser_eq_nil hafter,
      filter_isUser_eq_nil fun m hm => hafter m (List.mem_of_mem_drop hm)]
  · rw [hdrop] at hle hsplit hfirst
    have hu : u.isUser = true := by simpa using hfirst
    have hbefore : cut' ≤ before.reverse.length := by
      rw [List.length_reverse]
      simp only at hle
      split_ifs at hle <;> omega
    generalize messages.reverse.takeWhile (!·.isUser) = after at hsplit hafter
    obtain rfl : before.reverse ++ u :: after.reverse = messages := by
      rw [← List.reverse_inj, ← hsplit]
      simp
    rw [List.drop_append_of_le_length hbefore, lastUser?_append hu hafter,
      lastUser?_append hu hafter]

theorem lastUser?_drop_cutIndex {keepTailTurns : ℤ} (hkeep : 1 ≤ keepTailTurns)
    (hlength : 2 ≤ messages.length) :
    lastUser? (messages.drop (cutIndex keepTailTurns messages)) = lastUser? messages := by
  unfold cutIndex
  refine lastUser?_drop ?_ (alignBoundaryBackward_le messages _)
  have hstart : (max 1 (messages.length - keepTailTurns)).toNat < messages.length := by omega
  exact (alignBoundaryBackward_le messages _).trans_lt hstart

/-! ## The repaired tail -/

/-- In the end of a transcript the results whose call is in it follow that call. -/
theorem refers_tail {before tail : List Message}
    (hunique : ((before ++ tail).flatMap calledIds).Nodup) (hfollow : ResultsFollow (before ++ tail)) :
    Exchange.Refers calledIds (fun m => m.answeredIds.filter (· ∈ callIds tail)) [] tail := by
  rw [List.flatMap_append] at hunique
  refine Exchange.refers_of_extra tail (fun m _ id hid => ?_)
    ((Exchange.refers_append before tail []).1 hfollow).2
  obtain ⟨hid, hcalled⟩ := List.mem_filter.1 hid
  rw [decide_eq_true_eq, callIds_eq] at hcalled
  exact ⟨hid, fun hbefore => (List.nodup_append.1 hunique).2.2 id hbefore id hcalled rfl⟩

theorem drop_prunePrefix (dumps : Json → String) {cut : ℕ} (hcut : cut ≤ messages.length) :
    (prunePrefix dumps cut messages).drop cut = messages.drop cut :=
  List.drop_left' (by rw [List.length_map, List.length_take, Nat.min_eq_left hcut])

/-- Where tool-call ids are unique and each result follows its call, the same goes for what the
pipeline returns. -/
theorem pipeline_pairsKept (cfg : PipelineConfig) (messages : List Message)
    (hunique : (messages.flatMap calledIds).Nodup) (hfollow : ResultsFollow messages) :
    PairsKept cfg messages := by
  have hsame := sameTurn_dedupToolResults cfg.digest messages
  have hfollow' : ResultsFollow (dedupToolResults cfg.digest messages) :=
    (refers_iff_of_sameTurn hsame).2 hfollow
  unfold PairsKept
  simp only [pipeline]
  split_ifs with hskip hnil hcut hrange
  · exact ⟨hfollow, List.forall₂_same.2 fun m _ => SameTurn.refl m⟩
  · obtain rfl := List.isEmpty_iff.1 hnil
    exact ⟨hfollow, .nil⟩
  · exact ⟨hfollow', hsame⟩
  · trivial
  rcases cfg.summarizer _ _ _ with _ | summary
  · trivial
  have hlength := hsame.length_eq
  simp only
  rw [drop_prunePrefix cfg.dumps (by omega)]
  have hlast : 1 ≤ cfg.keepTailTurns → 2 ≤ messages.length →
      lastUser? ((dedupToolResults cfg.digest messages).drop
        (cutIndex cfg.keepTailTurns (dedupToolResults cfg.digest messages))) =
          lastUser? messages := fun hkeep hlong => by
    rw [lastUser?_drop_cutIndex hkeep (by omega), lastUser?, filter_isUser_of_sameTurn hsame,
      lastUser?]
  generalize cutIndex cfg.keepTailTurns (dedupToolResults cfg.digest messages) = cut at *
  have hsplit := List.take_append_drop cut (dedupToolResults cfg.digest messages)
  rw [← flatMap_calledIds_of_sameTurn hsame, ← hsplit] at hunique
  rw [← hsplit] at hfollow'
  have htail := refers_tail hunique hfollow'
  generalize (dedupToolResults cfg.digest messages).drop cut = tail at htail hlast ⊢
  split_ifs
  · refine ⟨resultsFollow_sanitizeToolPairs htail, fun _ => mem_answeredIds_sanitizeToolPairs,
      fun hkeep hlong => ?_⟩
    rw [← hlast hkeep hlong, lastUser?, filter_isUser_sanitizeToolPairs, lastUser?]
  · refine ⟨resultsFollow_sanitizeToolPairs ⟨by simp [answeredIds], htail⟩,
      fun _ => mem_answeredIds_sanitizeToolPairs, fun hkeep hlong => ?_⟩
    rw [← hlast hkeep hlong, lastUser?, filter_isUser_sanitizeToolPairs, lastUser?]
    rfl

theorem pipeline_pairsKept_answered : PairsKept
    { raising with keepTailTurns := 2, summarizer := fun _ _ _ => some "summary" }
    [.user (.text "hi"), .assistant { content := [.toolUse { id := "t1", name := "grep" }] },
      .toolResult [{ toolUseId := "t1", content := .text "found" }], .user (.text "go on")] :=
  pipeline_pairsKept _ _ (by decide) (by decide)

/-- The guard skips, and a call that was not answered stays so. -/
theorem pipeline_keeps_unanswered :
    ¬∀ (cfg : PipelineConfig) (messages : List Message), (messages.flatMap calledIds).Nodup →
      ResultsFollow messages → ∀ view, (pipeline cfg messages).outcome.view = some view →
        lastUser? view = lastUser? messages ∧ ResultsFollow view ∧
        ∀ id, id ∈ view.flatMap answeredIds ↔ id ∈ view.flatMap calledIds := by
  intro hall
  have hview := hall { raising with guard := some ⟨[(1000, 995), (1000, 990)]⟩ }
    [.user (.text "hi"), .assistant { content := [.toolUse { id := "t1", name := "grep" }] }]
    (by decide) (by decide)
    [.user (.text "hi"), .assistant { content := [.toolUse { id := "t1", name := "grep" }] }]
    (by rw [pipeline, if_pos (by decide +kernel)]; rfl)
  exact absurd ((hview.2.2 "t1").2 (by decide)) (by decide)

end OxenClaw.Compaction
