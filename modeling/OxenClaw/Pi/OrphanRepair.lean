import OxenClaw.Pi.SummarizerPipeline
import OxenClaw.Pi.ToolPairs

/-!
# The repair of orphans

What `sanitizeToolPairs` leaves of a list of messages. It takes messages with results away and puts
stubs behind messages with calls, so a list whose first part is gone does not come back
(`not_sublist_sanitizeToolPairs`), and every call has a result and every result a call
(`mem_calledIds_sanitizeToolPairs_iff`).
-/

namespace OxenClaw.Compaction

open OxenClaw Message

/-! ## Leading elements -/

/-- A part of a list with all elements that break its leading run has no longer leading run. -/
theorem length_takeWhile_le_of_sublist {α : Type*} {p : α → Bool} {l m : List α} (h : l.Sublist m)
    (hcount : l.countP (!p ·) = m.countP (!p ·)) :
    (l.takeWhile p).length ≤ (m.takeWhile p).length := by
  induction h with
  | slnil => exact le_rfl
  | @cons l m a h ih =>
    have hle := h.countP_le (p := (!p ·))
    by_cases ha : p a = true
    · rw [List.countP_cons_of_neg (by simp [ha])] at hcount
      rw [List.takeWhile_cons_of_pos ha, List.length_cons]
      exact (ih hcount).trans (Nat.le_succ _)
    · rw [List.countP_cons_of_pos (by simp [ha])] at hcount
      omega
  | @cons_cons l m a h ih =>
    by_cases ha : p a = true
    · rw [List.countP_cons_of_neg (by simp [ha]), List.countP_cons_of_neg (by simp [ha])] at hcount
      rw [List.takeWhile_cons_of_pos ha, List.takeWhile_cons_of_pos ha]
      exact Nat.succ_le_succ (ih hcount)
    · rw [List.takeWhile_cons_of_neg ha]
      exact Nat.zero_le _

/-! ## Stubs -/

@[simp] theorem toolUses_repairResults (surviving : List String) (m : Message) :
    (repairResults surviving m).toolUses = m.toolUses := by
  rcases m with _ | _ | _ | results <;> try rfl
  unfold repairResults
  simp only
  split_ifs <;> rfl

@[simp] theorem isToolResult_repairResults (surviving : List String) (m : Message) :
    isToolResult (repairResults surviving m) = isToolResult m := by
  rcases m with _ | _ | _ | results <;> try rfl
  unfold repairResults
  simp only
  split_ifs <;> rfl

theorem toolUses_of_isToolResult {m : Message} (h : isToolResult m = true) : m.toolUses = [] := by
  rcases m with _ | _ | _ | _ <;> first | rfl | cases h

theorem takeWhile_insertStubs (missing : List String) (l : List Message) :
    (insertStubs missing l).takeWhile isToolResult = l.takeWhile isToolResult := by
  induction l generalizing missing with
  | nil => rfl
  | cons m l ih =>
    by_cases hm : isToolResult m = true
    · simp [insertStubs, toolUses_of_isToolResult hm, hm, ih]
    · unfold insertStubs
      simp only
      split_ifs <;> simp [hm]

theorem countP_insertStubs (missing : List String) (l : List Message) :
    (insertStubs missing l).countP (!isToolResult ·) = l.countP (!isToolResult ·) := by
  induction l generalizing missing with
  | nil => rfl
  | cons m l ih =>
    unfold insertStubs
    simp only
    split_ifs
    · rw [List.countP_cons, List.countP_cons, ih]
    · rw [List.countP_cons, List.countP_cons_of_neg (by simp [isToolResult]), ih,
        List.countP_cons]

theorem isToolResult_of_orphaned {surviving : List String} {m : Message}
    (h : orphaned surviving m = true) : isToolResult m = true := by
  rcases m with _ | _ | _ | _ <;> first | rfl | cases h

/-- What stands before a list whose orphans are repaired is not found in the repaired list. -/
theorem not_sublist_sanitizeToolPairs {before : List Message} (hbefore : before ≠ [])
    (tail : List Message) :
    ¬(before ++ tail.map (repairResults (callIds tail))).Sublist (sanitizeToolPairs tail) := by
  intro h
  have hkept : ((tail.filter fun m => !orphaned (callIds tail) m).map
      (repairResults (callIds tail))).Sublist (tail.map (repairResults (callIds tail))) :=
    List.filter_sublist.map _
  have hcount : ((tail.filter fun m => !orphaned (callIds tail) m).map
      (repairResults (callIds tail))).countP (!isToolResult ·) =
        (tail.map (repairResults (callIds tail))).countP (!isToolResult ·) := by
    rw [List.countP_map, List.countP_map, List.countP_filter]
    refine List.countP_congr fun m _ => ?_
    by_cases hm : orphaned (callIds tail) m = true
    · simp [isToolResult_of_orphaned hm]
    · simp [hm]
  have hlead := length_takeWhile_le_of_sublist hkept hcount
  have hout := h.countP_le (p := (!isToolResult ·))
  rw [sanitizeToolPairs, countP_insertStubs, hcount, List.countP_append] at hout
  have hall : ∀ m ∈ before, isToolResult m = true := by
    simpa using List.countP_eq_zero.1 (by omega : before.countP (!isToolResult ·) = 0)
  have hwhole := length_takeWhile_le_of_sublist h (by
    rw [sanitizeToolPairs, countP_insertStubs, hcount, List.countP_append]
    omega)
  rw [sanitizeToolPairs, takeWhile_insertStubs, List.takeWhile_append_of_pos hall,
    List.length_append] at hwhole
  have := List.length_pos_of_ne_nil hbefore
  omega

/-! ## Calls and results -/

variable {surviving missing : List String} {l : List Message} {m : Message}

theorem calledIds_repairResults (surviving : List String) (m : Message) :
    (repairResults surviving m).calledIds = m.calledIds := by
  rw [calledIds, toolUses_repairResults, calledIds]

theorem calledIds_of_isToolResult (h : isToolResult m = true) : m.calledIds = [] := by
  rw [calledIds, toolUses_of_isToolResult h, List.map_nil]

theorem callIds_eq (l : List Message) : callIds l = l.flatMap calledIds := by
  rw [callIds, List.map_flatMap]
  rfl

theorem answeredIds_repairResults (h : orphaned surviving m = false) :
    (repairResults surviving m).answeredIds = m.answeredIds.filter (· ∈ surviving) := by
  rcases m with _ | _ | _ | results <;> try rfl
  have hfilter : (results.map ToolResultBlock.toolUseId).filter (· ∈ surviving) =
      (results.filter fun r => r.toolUseId ∈ surviving).map ToolResultBlock.toolUseId := by
    rw [List.filter_map]
    rfl
  unfold repairResults
  simp only [answeredIds, results_toolResult, hfilter]
  split_ifs with hnone
  · rw [List.isEmpty_iff] at hnone
    rcases results with _ | ⟨r, results⟩
    · rfl
    · have hgone : ∀ e ∈ r :: results, e.toolUseId ∉ surviving := by
        simpa [List.filter_eq_nil_iff] using hnone
      refine absurd ?_ (Bool.eq_false_iff.1 h)
      simpa [orphaned] using hgone
  · rfl

theorem answeredIds_of_orphaned (h : orphaned surviving m = true) :
    m.answeredIds.filter (· ∈ surviving) = [] := by
  rw [orphaned, Bool.and_eq_true, List.all_eq_true] at h
  refine List.filter_eq_nil_iff.2 fun i hi => ?_
  obtain ⟨r, hr, rfl⟩ := List.mem_map.1 hi
  simpa using h.2 r hr

/-- What is left of the messages, before the stubs. -/
def left (surviving : List String) (m : Message) : Option Message :=
  if orphaned surviving m then none else some (repairResults surviving m)

theorem filterMap_left (surviving : List String) (l : List Message) :
    (l.filter fun m => !orphaned surviving m).map (repairResults surviving) =
      l.filterMap (left surviving) := by
  induction l with
  | nil => rfl
  | cons m l ih =>
    by_cases hm : orphaned surviving m = true
    · simp [left, hm, ih]
    · simp [left, hm, ih]

theorem sanitizeToolPairs_eq (l : List Message) : sanitizeToolPairs l =
    insertStubs ((callIds l).filter fun i => i ∉ l.flatMap answeredIds)
      (l.filterMap (left (callIds l))) := by
  rw [sanitizeToolPairs, filterMap_left, List.map_flatMap]
  rfl

/-- One message, with the stub behind it if it has calls of which one is missing. -/
theorem insertStubs_cons (missing : List String) (m : Message) (l : List Message) :
    ∃ stubs missing', insertStubs missing (m :: l) = m :: stubs ++ insertStubs missing' l ∧
      stubs.flatMap calledIds = [] ∧
      (∀ i, i ∈ stubs.flatMap answeredIds ↔ i ∈ m.calledIds ∧ i ∈ missing) ∧
      (∀ i, i ∈ missing' ↔ i ∈ missing ∧ i ∉ m.calledIds) ∧ stubs.filter isUser = [] := by
  have hpending : ∀ i, i ∈ (m.toolUses.filter fun b => b.id ∈ missing).map ToolUseBlock.id ↔
      i ∈ m.calledIds ∧ i ∈ missing := fun i => by
    simp only [calledIds, List.mem_map, List.mem_filter, decide_eq_true_eq]
    constructor
    · rintro ⟨b, ⟨hb, hmissing⟩, rfl⟩
      exact ⟨⟨b, hb, rfl⟩, hmissing⟩
    · rintro ⟨⟨b, hb, rfl⟩, hmissing⟩
      exact ⟨b, ⟨hb, hmissing⟩, rfl⟩
  rw [insertStubs]
  split_ifs with hnone
  · rw [List.isEmpty_iff] at hnone
    rw [hnone] at hpending
    have hno : ∀ i, ¬(i ∈ m.calledIds ∧ i ∈ missing) := by simpa using hpending
    refine ⟨[], missing, rfl, rfl, by simpa using hpending, fun i => ?_, rfl⟩
    have := hno i
    tauto
  · refine ⟨[_], _, rfl, rfl, fun i => ?_, fun i => ?_, rfl⟩
    · rw [← hpending]
      simp [answeredIds]
    · rw [List.mem_filter, decide_eq_true_eq, hpending]
      tauto

theorem flatMap_calledIds_insertStubs (missing : List String) (l : List Message) :
    (insertStubs missing l).flatMap calledIds = l.flatMap calledIds := by
  induction l generalizing missing with
  | nil => rfl
  | cons m l ih =>
    obtain ⟨stubs, missing', heq, hcalls, -⟩ := insertStubs_cons missing m l
    rw [heq, List.flatMap_append, List.flatMap_cons, hcalls, ih, List.append_nil, List.flatMap_cons]

theorem filter_isUser_insertStubs (missing : List String) (l : List Message) :
    (insertStubs missing l).filter isUser = l.filter isUser := by
  induction l generalizing missing with
  | nil => rfl
  | cons m l ih =>
    obtain ⟨stubs, missing', heq, -, -, -, husers⟩ := insertStubs_cons missing m l
    rw [heq, List.filter_append, List.filter_cons, ih, husers, List.filter_cons]
    split_ifs <;> rfl

theorem mem_answeredIds_insertStubs {i : String} :
    i ∈ (insertStubs missing l).flatMap answeredIds ↔
      i ∈ l.flatMap answeredIds ∨ i ∈ missing ∧ i ∈ l.flatMap calledIds := by
  induction l generalizing missing with
  | nil => simp [insertStubs]
  | cons m l ih =>
    obtain ⟨stubs, missing', heq, -, hstubs, hmissing, -⟩ := insertStubs_cons missing m l
    rw [heq]
    simp only [List.flatMap_append, List.flatMap_cons, List.mem_append, ih, hstubs, hmissing]
    tauto

theorem refers_insertStubs {seen : List String}
    (h : Exchange.Refers calledIds answeredIds seen l) :
    Exchange.Refers calledIds answeredIds seen (insertStubs missing l) := by
  induction l generalizing missing seen with
  | nil => exact trivial
  | cons m l ih =>
    obtain ⟨stubs, missing', heq, hcalls, hstubs, -⟩ := insertStubs_cons missing m l
    rw [heq, Exchange.refers_append, List.flatMap_cons, hcalls, List.append_nil]
    refine ⟨⟨h.1, Exchange.refers_of_forall_mem stubs fun stub hstub i hi => ?_⟩, ih h.2⟩
    exact List.mem_append_left _ ((hstubs i).1 (List.mem_flatMap.2 ⟨stub, hstub, hi⟩)).1

theorem through_left_calledIds (surviving : List String) :
    Exchange.through (left surviving) calledIds = calledIds := by
  ext1 m
  unfold Exchange.through left
  split_ifs with hm
  · exact (calledIds_of_isToolResult (isToolResult_of_orphaned hm)).symm
  · exact calledIds_repairResults surviving m

theorem through_left_answeredIds (surviving : List String) :
    Exchange.through (left surviving) answeredIds =
      fun m => m.answeredIds.filter (· ∈ surviving) := by
  ext1 m
  unfold Exchange.through left
  split_ifs with hm
  · exact (answeredIds_of_orphaned hm).symm
  · exact answeredIds_repairResults (Bool.eq_false_iff.2 hm)

/-- Results that follow their call, of those whose call is there, do so after the repair. -/
theorem resultsFollow_sanitizeToolPairs (h : Exchange.Refers calledIds
    (fun m => m.answeredIds.filter (· ∈ callIds l)) [] l) : ResultsFollow (sanitizeToolPairs l) := by
  rw [sanitizeToolPairs_eq]
  refine refers_insertStubs ?_
  rwa [Exchange.refers_filterMap, through_left_calledIds, through_left_answeredIds]

theorem flatMap_filterMap_left (g : Message → List String) (surviving : List String)
    (l : List Message) : (l.filterMap (left surviving)).flatMap g =
      l.flatMap (Exchange.through (left surviving) g) := by
  induction l with
  | nil => rfl
  | cons m l ih =>
    rcases hm : left surviving m with _ | m'
    · rw [List.filterMap_cons_none hm, ih, List.flatMap_cons, Exchange.through, hm]
      rfl
    · rw [List.filterMap_cons_some hm, List.flatMap_cons, ih, List.flatMap_cons, Exchange.through,
        hm]
      rfl

theorem flatMap_calledIds_sanitizeToolPairs (l : List Message) :
    (sanitizeToolPairs l).flatMap calledIds = l.flatMap calledIds := by
  rw [sanitizeToolPairs_eq, flatMap_calledIds_insertStubs, flatMap_filterMap_left,
    through_left_calledIds]

/-- After the repair the results are those of exactly the calls. -/
theorem mem_answeredIds_sanitizeToolPairs {i : String} :
    i ∈ (sanitizeToolPairs l).flatMap answeredIds ↔ i ∈ (sanitizeToolPairs l).flatMap calledIds := by
  rw [flatMap_calledIds_sanitizeToolPairs, sanitizeToolPairs_eq, mem_answeredIds_insertStubs,
    flatMap_filterMap_left, flatMap_filterMap_left, through_left_calledIds,
    through_left_answeredIds, callIds_eq]
  have hfilter : i ∈ l.flatMap (fun m => m.answeredIds.filter (· ∈ l.flatMap calledIds)) ↔
      i ∈ l.flatMap answeredIds ∧ i ∈ l.flatMap calledIds := by
    rw [← List.filter_flatMap, List.mem_filter, decide_eq_true_eq]
  rw [hfilter, List.mem_filter, decide_eq_true_eq]
  tauto

theorem isUser_of_isToolResult (h : isToolResult m = true) : m.isUser = false := by
  rcases m with _ | _ | _ | _ <;> first | rfl | cases h

theorem left_of_not_isToolResult (h : isToolResult m = false) : left surviving m = some m := by
  rcases m with _ | _ | _ | _ <;> first | rfl | cases h

theorem isToolResult_of_left {m' : Message} (hm : isToolResult m = true)
    (h : left surviving m = some m') : isToolResult m' = true := by
  unfold left at h
  split_ifs at h
  obtain rfl := Option.some.inj h
  rwa [isToolResult_repairResults]

theorem filter_isUser_sanitizeToolPairs (l : List Message) :
    (sanitizeToolPairs l).filter isUser = l.filter isUser := by
  rw [sanitizeToolPairs_eq, filter_isUser_insertStubs]
  generalize callIds l = surviving
  induction l with
  | nil => rfl
  | cons m l ih =>
    by_cases hm : isToolResult m = true
    · rw [List.filter_cons_of_neg (by simp [isUser_of_isToolResult hm])]
      rcases hleft : left surviving m with _ | m'
      · rw [List.filterMap_cons_none hleft, ih]
      · have hm' := isUser_of_isToolResult (isToolResult_of_left hm hleft)
        rw [List.filterMap_cons_some hleft, List.filter_cons_of_neg (by simp [hm']), ih]
    · rw [List.filterMap_cons_some (left_of_not_isToolResult (Bool.eq_false_iff.2 hm)),
        List.filter_cons, List.filter_cons, ih]

end OxenClaw.Compaction
