import Mathlib.Data.List.DropRight
import OxenClaw.Lib.Python
import OxenClaw.Lib.StableSort

/-!
# The system prompt and its cacheable prefix

`assemble_system_prompt` of `pi/system_prompt.py`. The contributions are put in the order of
their priorities, and the boundary reported is behind the last cacheable one. What it covers does
not depend on the volatile bodies exactly when no volatile contribution comes before a cacheable
one (`coveredParts_eq_iff`).
-/

namespace OxenClaw

/-- `PromptMode`. -/
inductive PromptMode where
  | chat
  | code
  | qa
  | structured
  | tool

def PromptMode.name : PromptMode → String
  | .chat => "chat"
  | .code => "code"
  | .qa => "qa"
  | .structured => "structured"
  | .tool => "tool"

structure SystemPromptContribution where
  name : String
  body : String
  priority : ℤ := 100
  cacheable : Bool := true
  enabled : Bool := true

namespace SystemPrompt

/-- `bool(c.body.strip())`. -/
def hasBody (c : SystemPromptContribution) : Bool :=
  decide (Py.stripString c.body ≠ "")

/-- `sorted(contributions, key=lambda c: c.priority)`. -/
def byPriority (contributions : List SystemPromptContribution) : List SystemPromptContribution :=
  contributions.insertionSort fun c c' => c.priority ≤ c'.priority

/-- `enabled_sorted`. -/
def enabledSorted (contributions : List SystemPromptContribution) :
    List SystemPromptContribution :=
  byPriority (contributions.filter fun c => c.enabled && hasBody c)

/-- `cache_prefix_end` after the loop over the contributions, from index `idx` on. -/
def cachePrefixEnd : ℤ → ℤ → List SystemPromptContribution → ℤ
  | _, prefixEnd, [] => prefixEnd
  | idx, prefixEnd, c :: cs =>
    cachePrefixEnd (idx + 1) (if c.cacheable then idx else prefixEnd) cs

/-- The footer hint. -/
def modeFooter : PromptMode → List String
  | .chat => []
  | mode => [s!"[mode:{mode.name}]"]

/-- `parts`. -/
def promptParts (base : String) (contributions : List SystemPromptContribution)
    (mode : PromptMode) : List String :=
  (if Py.stripString base = "" then [] else [Py.stripString base]) ++
    (enabledSorted contributions).map (fun c => Py.stripString c.body) ++ modeFooter mode

/-- `assemble_system_prompt`. -/
def assembleSystemPrompt (base : String) (contributions : List SystemPromptContribution)
    (mode : PromptMode) : String × ℤ :=
  (String.intercalate "\n\n" (promptParts base contributions mode),
    cachePrefixEnd 0 (-1) (enabledSorted contributions) + 1)

/-! ## The common contributions -/

/-- `time_contribution`. -/
def timeContribution (isoNow timezone : String) : SystemPromptContribution where
  name := "time"
  body := s!"Current time: {isoNow} ({timezone})"
  priority := 10
  cacheable := false

/-- `skills_contribution`. -/
def skillsContribution (skillsBlock : String) : SystemPromptContribution where
  name := "skills"
  body := skillsBlock
  priority := 20

/-- `memory_contribution`. -/
def memoryContribution (memoryBlock : String) : SystemPromptContribution where
  name := "memory"
  body := memoryBlock
  priority := 80
  cacheable := false

/-- `embedded_context_contribution`. -/
def embeddedContextContribution (filesBlock : String) : SystemPromptContribution where
  name := "embedded_context"
  body := filesBlock
  priority := 30

/-! ## What the cache may rely on -/

/-- The parts before the boundary, "first N parts". -/
def coveredParts (base : String) (contributions : List SystemPromptContribution)
    (mode : PromptMode) : List String :=
  (promptParts base contributions mode).take (assembleSystemPrompt base contributions mode).2.toNat

/-- The contributions are the same, or volatile ones that differ in their bodies. -/
def SameButVolatile (c c' : SystemPromptContribution) : Prop :=
  c'.name = c.name ∧ c'.priority = c.priority ∧ c'.cacheable = c.cacheable ∧
    c'.enabled = c.enabled ∧ (c.cacheable = true → c'.body = c.body)

/-- In the order of priorities no enabled volatile contribution comes before an enabled cacheable
one with a body. -/
def CacheableFirst (contributions : List SystemPromptContribution) : Prop :=
  (byPriority (contributions.filter SystemPromptContribution.enabled)).Pairwise fun c c' =>
    c.cacheable = false → ¬(c'.cacheable = true ∧ hasBody c' = true)

/-! ## The boundary -/

/-- The contributions up to the last cacheable one. -/
def covered (cs : List SystemPromptContribution) : List SystemPromptContribution :=
  cs.rdropWhile fun c => !c.cacheable

theorem cachePrefixEnd_append (c : SystemPromptContribution) :
    ∀ (cs : List SystemPromptContribution) (idx prefixEnd : ℤ),
      cachePrefixEnd idx prefixEnd (cs ++ [c]) =
        if c.cacheable then idx + cs.length else cachePrefixEnd idx prefixEnd cs
  | [], idx, prefixEnd => by simp [cachePrefixEnd]
  | d :: cs, idx, prefixEnd => by
    rw [List.cons_append, cachePrefixEnd, cachePrefixEnd_append c cs, cachePrefixEnd,
      List.length_cons]
    split_ifs
    all_goals push_cast; omega

/-- The boundary is behind the last cacheable contribution. -/
theorem cachePrefixEnd_eq (cs : List SystemPromptContribution) :
    cachePrefixEnd 0 (-1) cs + 1 = (covered cs).length := by
  induction cs using List.reverseRecOn with
  | nil => rfl
  | append_singleton cs c ih =>
    rw [cachePrefixEnd_append, covered]
    cases hc : c.cacheable with
    | true =>
      rw [List.rdropWhile_concat_neg _ _ _ (by simp [hc])]
      simp
    | false =>
      rw [List.rdropWhile_concat_pos _ _ _ (by simp [hc]), if_neg (by simp)]
      exact ih

theorem covered_append_volatile (cs : List SystemPromptContribution) :
    covered cs ++ cs.rtakeWhile (fun c => !c.cacheable) = cs :=
  List.rdropWhile_append_rtakeWhile

theorem cacheable_of_mem_rtakeWhile {cs : List SystemPromptContribution}
    {c : SystemPromptContribution} (h : c ∈ cs.rtakeWhile fun c => !c.cacheable) :
    c.cacheable = false := by
  simpa using List.mem_rtakeWhile_imp h

/-- No cacheable contribution is behind the boundary. -/
theorem filter_cacheable_covered (cs : List SystemPromptContribution) :
    (covered cs).filter SystemPromptContribution.cacheable =
      cs.filter SystemPromptContribution.cacheable := by
  conv_rhs => rw [← covered_append_volatile cs]
  rw [List.filter_append]
  have hnone : (cs.rtakeWhile fun c => !c.cacheable).filter SystemPromptContribution.cacheable =
      [] := List.filter_eq_nil_iff.2 fun c hc => by simp [cacheable_of_mem_rtakeWhile hc]
  rw [hnone, List.append_nil]

/-- Only cacheable contributions are covered when no volatile one comes before one of them. -/
theorem forall_cacheable_covered_iff (cs : List SystemPromptContribution) :
    (∀ c ∈ covered cs, c.cacheable = true) ↔
      cs.Pairwise fun c c' => c.cacheable = false → c'.cacheable = false := by
  constructor
  · intro h
    rw [← covered_append_volatile cs, List.pairwise_append]
    refine ⟨List.pairwise_of_forall_mem_list fun c hc c' _ hvolatile => ?_,
      List.pairwise_of_forall_mem_list fun _ _ c' hc' _ => cacheable_of_mem_rtakeWhile hc',
      fun _ _ c' hc' _ => cacheable_of_mem_rtakeWhile hc'⟩
    rw [h c hc] at hvolatile
    cases hvolatile
  · intro h c hc
    by_contra hvolatile
    rw [Bool.not_eq_true] at hvolatile
    have hne : covered cs ≠ [] := List.ne_nil_of_mem hc
    have hnot : ¬(!((covered cs).getLast hne).cacheable) = true :=
      List.rdropWhile_last_not _ cs hne
    have hlast : ((covered cs).getLast hne).cacheable = true := by simpa using hnot
    have hcovered : (covered cs).Pairwise fun c c' =>
        c.cacheable = false → c'.cacheable = false :=
      h.sublist (List.rdropWhile_prefix _ cs).sublist
    rw [← List.dropLast_append_getLast hne] at hcovered hc
    have hinit : c ∈ (covered cs).dropLast := by
      rcases List.mem_append.1 hc with hc | hc
      · exact hc
      · rw [List.mem_singleton.1 hc, hlast] at hvolatile
        cases hvolatile
    have hbad := (List.pairwise_append.1 hcovered).2.2 c hinit _ List.mem_cons_self hvolatile
    rw [hlast] at hbad
    cases hbad

/-- The parts covered are the bodies up to the boundary, or with a base it and all but the last
of them. -/
theorem coveredParts_eq (base : String) (cs : List SystemPromptContribution) (mode : PromptMode) :
    coveredParts base cs mode =
      if Py.stripString base = "" then
        (covered (enabledSorted cs)).map fun c => Py.stripString c.body
      else if covered (enabledSorted cs) = [] then []
      else Py.stripString base ::
        (covered (enabledSorted cs)).dropLast.map fun c => Py.stripString c.body := by
  have hn : (assembleSystemPrompt base cs mode).2.toNat = (covered (enabledSorted cs)).length := by
    rw [assembleSystemPrompt, cachePrefixEnd_eq]
    exact Int.toNat_natCast _
  obtain ⟨rest, hrest⟩ : covered (enabledSorted cs) <+: enabledSorted cs :=
    List.rdropWhile_prefix _ _
  rw [coveredParts, hn, promptParts]
  generalize covered (enabledSorted cs) = front at hrest ⊢
  rw [← hrest, List.map_append]
  split_ifs with hbase hfront
  · rw [List.nil_append, List.append_assoc, List.take_left' (by simp)]
  · rw [hfront]
    rfl
  · obtain ⟨init, last, rfl⟩ : ∃ init last, front = init ++ [last] :=
      ⟨_, _, (List.dropLast_append_getLast hfront).symm⟩
    simp

theorem length_coveredParts (base : String) (cs : List SystemPromptContribution)
    (mode : PromptMode) :
    (coveredParts base cs mode).length = (covered (enabledSorted cs)).length := by
  rw [coveredParts_eq]
  split_ifs with hbase hfront
  · exact List.length_map _
  · rw [hfront]
    rfl
  · have hpos := List.length_pos_iff.2 hfront
    rw [List.length_cons, List.length_map, List.length_dropLast]
    omega

/-! ## Changing volatile bodies -/

/-- The contributions that are shown are those with a body, of all enabled ones in their order. -/
theorem enabledSorted_eq (cs : List SystemPromptContribution) :
    enabledSorted cs = (byPriority (cs.filter SystemPromptContribution.enabled)).filter hasBody := by
  rw [byPriority, StableSort.filter_insertionSort, List.filter_filter, enabledSorted, byPriority]
  simp only [Bool.and_comm]

/-- The cacheable contributions that are shown, in their order. -/
theorem filter_cacheable_enabledSorted (cs : List SystemPromptContribution) :
    (enabledSorted cs).filter SystemPromptContribution.cacheable =
      byPriority (cs.filter fun c => c.enabled && hasBody c && c.cacheable) := by
  rw [enabledSorted, byPriority, StableSort.filter_insertionSort, List.filter_filter, byPriority]
  simp only [Bool.and_comm]

/-- The contribution with another body, if it is volatile. -/
def setBody (body : String) (c : SystemPromptContribution) : SystemPromptContribution :=
  if c.cacheable then c else { c with body }

section
variable (body : String) (c : SystemPromptContribution)

theorem setBody_of_cacheable {c : SystemPromptContribution} (h : c.cacheable = true) :
    setBody body c = c :=
  if_pos h

theorem sameButVolatile_setBody : SameButVolatile c (setBody body c) := by
  unfold setBody
  split_ifs with h
  · exact ⟨rfl, rfl, rfl, rfl, fun _ => rfl⟩
  · exact ⟨rfl, rfl, rfl, rfl, fun hcacheable => absurd hcacheable h⟩

@[simp] theorem priority_setBody : (setBody body c).priority = c.priority :=
  (sameButVolatile_setBody body c).2.1

@[simp] theorem cacheable_setBody : (setBody body c).cacheable = c.cacheable :=
  (sameButVolatile_setBody body c).2.2.1

@[simp] theorem enabled_setBody : (setBody body c).enabled = c.enabled :=
  (sameButVolatile_setBody body c).2.2.2.1

theorem body_setBody_of_volatile {c : SystemPromptContribution} (h : c.cacheable = false) :
    (setBody body c).body = body := by
  rw [setBody, if_neg (by simp [h])]

end

/-- Other bodies leave the order. -/
theorem byPriority_map_setBody (body : String) (cs : List SystemPromptContribution) :
    byPriority ((cs.map (setBody body)).filter SystemPromptContribution.enabled) =
      (byPriority (cs.filter SystemPromptContribution.enabled)).map (setBody body) := by
  have hfilter : (cs.map (setBody body)).filter SystemPromptContribution.enabled =
      (cs.filter SystemPromptContribution.enabled).map (setBody body) := by
    rw [List.filter_map]
    simp only [Function.comp_def, enabled_setBody]
  rw [hfilter, byPriority, byPriority]
  exact (List.map_insertionSort _ _ _ _ fun _ _ _ _ => by simp).symm

/-- With a body for all volatile contributions, they come behind the cacheable ones exactly when
they do in the order. -/
theorem cacheableFirst_iff_pairwise_setBody {body : String} (hbody : Py.stripString body ≠ "")
    (cs : List SystemPromptContribution) :
    CacheableFirst cs ↔ (enabledSorted (cs.map (setBody body))).Pairwise fun c c' =>
      c.cacheable = false → c'.cacheable = false := by
  rw [enabledSorted_eq, byPriority_map_setBody, List.pairwise_filter, List.pairwise_map,
    CacheableFirst]
  refine List.Pairwise.iff fun c c' => ?_
  simp only [cacheable_setBody]
  constructor
  · intro h _ hbody' hvolatile
    by_contra hcacheable
    rw [Bool.not_eq_false] at hcacheable
    rw [setBody_of_cacheable body hcacheable] at hbody'
    exact h hvolatile ⟨hcacheable, hbody'⟩
  · rintro h hvolatile ⟨hcacheable, hbody'⟩
    rw [setBody_of_cacheable body hcacheable] at h
    have hshown : hasBody (setBody body c) = true := by
      rw [hasBody, body_setBody_of_volatile body hvolatile]
      exact decide_eq_true hbody
    rw [h hshown hbody' hvolatile] at hcacheable
    cases hcacheable

/-- The cacheable contributions that are shown do not depend on volatile bodies. -/
theorem filter_cacheable_of_sameButVolatile {cs cs' : List SystemPromptContribution}
    (h : List.Forall₂ SameButVolatile cs cs') :
    (enabledSorted cs').filter SystemPromptContribution.cacheable =
      (enabledSorted cs).filter SystemPromptContribution.cacheable := by
  rw [filter_cacheable_enabledSorted, filter_cacheable_enabledSorted]
  congr 1
  induction h with
  | nil => rfl
  | @cons c c' cs cs' hc _ ih =>
    obtain ⟨hname, hpriority, hcacheable, henabled, hbody⟩ := hc
    rw [List.filter_cons, List.filter_cons, ih]
    cases hcase : c.cacheable with
    | false => simp [hcacheable, hcase]
    | true =>
      have hsame : c' = c := by
        rcases c with ⟨name, body, priority, cacheable, enabled⟩
        rcases c' with ⟨name', body', priority', cacheable', enabled'⟩
        obtain rfl : name' = name := hname
        obtain rfl : priority' = priority := hpriority
        obtain rfl : cacheable' = cacheable := hcacheable
        obtain rfl : enabled' = enabled := henabled
        obtain rfl : body' = body := hbody hcase
        rfl
      rw [hsame, hcase]

/-- Neither does the order of volatile and cacheable ones. -/
theorem CacheableFirst.of_sameButVolatile {cs cs' : List SystemPromptContribution}
    (h : List.Forall₂ SameButVolatile cs cs') (hfirst : CacheableFirst cs) :
    CacheableFirst cs' := by
  have henabled : List.Forall₂ SameButVolatile (cs.filter SystemPromptContribution.enabled)
      (cs'.filter SystemPromptContribution.enabled) :=
    List.rel_filter (fun c c' hc => iff_of_eq (congrArg (· = true) hc.2.2.2.1.symm)) h
  have hsorted : List.Forall₂ SameButVolatile
      (byPriority (cs.filter SystemPromptContribution.enabled))
      (byPriority (cs'.filter SystemPromptContribution.enabled)) :=
    StableSort.forall₂_insertionSort
      (fun a b a' b' ha hb => by rw [ha.2.1, hb.2.1]) henabled
  refine StableSort.pairwise_of_forall₂ (fun a b a' b' ha hb hab hvolatile hb' => ?_) hsorted
    hfirst
  obtain ⟨hcacheable, hbody⟩ := hb'
  rw [ha.2.2.1] at hvolatile
  rw [hb.2.2.1] at hcacheable
  rw [hasBody, hb.2.2.2.2 hcacheable] at hbody
  exact hab hvolatile ⟨hcacheable, hbody⟩

/-- With the cacheable contributions first, they are what is covered. -/
theorem CacheableFirst.covered_eq {cs : List SystemPromptContribution} (h : CacheableFirst cs) :
    covered (enabledSorted cs) =
      (enabledSorted cs).filter SystemPromptContribution.cacheable := by
  have hpairwise : (enabledSorted cs).Pairwise fun c c' =>
      c.cacheable = false → c'.cacheable = false := by
    rw [enabledSorted_eq, List.pairwise_filter]
    refine h.imp fun {c c'} hcc' _ hbody hvolatile => ?_
    by_contra hcacheable
    exact hcc' hvolatile ⟨by simpa using hcacheable, hbody⟩
  rw [← filter_cacheable_covered]
  exact (List.filter_eq_self.2 ((forall_cacheable_covered_iff _).2 hpairwise)).symm

/-- Volatile contributions with higher priorities than all cacheable ones come behind them. -/
theorem cacheableFirst_of_priority {cs : List SystemPromptContribution}
    (h : ∀ c ∈ cs, ∀ c' ∈ cs, c.cacheable = false → c'.cacheable = true →
      c'.priority < c.priority) : CacheableFirst cs := by
  have hsorted : (byPriority (cs.filter SystemPromptContribution.enabled)).Pairwise
      fun c c' => c.priority ≤ c'.priority :=
    List.pairwise_insertionSort _ _
  have hmem (c : SystemPromptContribution)
      (hc : c ∈ byPriority (cs.filter SystemPromptContribution.enabled)) : c ∈ cs :=
    (List.mem_filter.1 ((List.mem_insertionSort _).1 hc)).1
  refine hsorted.imp_of_mem fun {c c'} hc hc' hle hvolatile hcacheable => ?_
  have hlt := h c (hmem c hc) c' (hmem c' hc') hvolatile hcacheable.1
  omega

/-- The skills, the embedded files and the recalled memories are in that order, whatever they
are. -/
theorem cacheableFirst_standard (skills files memory : String) :
    CacheableFirst [memoryContribution memory, skillsContribution skills,
      embeddedContextContribution files] := by
  refine cacheableFirst_of_priority ?_
  simp [memoryContribution, skillsContribution, embeddedContextContribution]

/-- What the boundary covers is the same for all volatile bodies exactly when, in the order of
priorities, no enabled volatile contribution comes before a cacheable one with a body. -/
theorem coveredParts_eq_iff (base : String) (cs : List SystemPromptContribution)
    (mode : PromptMode) :
    (∀ cs', List.Forall₂ SameButVolatile cs cs' →
        coveredParts base cs' mode = coveredParts base cs mode) ↔ CacheableFirst cs := by
  constructor
  · intro h
    have hset (body : String) : (covered (enabledSorted (cs.map (setBody body)))).length =
        (covered (enabledSorted cs)).length := by
      have hrelated : List.Forall₂ SameButVolatile cs (cs.map (setBody body)) :=
        List.forall₂_map_right_iff.2
          (List.forall₂_same.2 fun c _ => sameButVolatile_setBody body c)
      rw [← length_coveredParts base _ mode, h _ hrelated, length_coveredParts]
    have hcacheable (body : String) :
        (enabledSorted (cs.map (setBody body))).filter SystemPromptContribution.cacheable =
          (enabledSorted cs).filter SystemPromptContribution.cacheable :=
      filter_cacheable_of_sameButVolatile (List.forall₂_map_right_iff.2
        (List.forall₂_same.2 fun c _ => sameButVolatile_setBody body c))
    -- without volatile bodies nothing but cacheable contributions is shown and covered
    have hblank : ∀ c ∈ covered (enabledSorted (cs.map (setBody ""))), c.cacheable = true := by
      intro c hc
      have hshown := (List.rdropWhile_prefix _ _).subset hc
      rw [enabledSorted_eq, byPriority_map_setBody, List.mem_filter, List.mem_map] at hshown
      obtain ⟨⟨d, -, rfl⟩, hbody⟩ := hshown
      by_contra hvolatile
      rw [Bool.not_eq_true, cacheable_setBody] at hvolatile
      rw [hasBody, body_setBody_of_volatile "" hvolatile] at hbody
      exact absurd hbody (by decide)
    have hlength : ((enabledSorted cs).filter SystemPromptContribution.cacheable).length =
        (covered (enabledSorted cs)).length := by
      rw [← hset "", ← hcacheable "", ← filter_cacheable_covered, List.filter_eq_self.2 hblank]
    have hall : ∀ c ∈ covered (enabledSorted (cs.map (setBody "x"))), c.cacheable = true := by
      rw [← List.length_filter_eq_length_iff, filter_cacheable_covered, hcacheable, hlength, hset]
    exact (cacheableFirst_iff_pairwise_setBody (by decide) cs).2
      ((forall_cacheable_covered_iff _).1 hall)
  · intro hfirst cs' hcs'
    have hcovered : covered (enabledSorted cs') = covered (enabledSorted cs) := by
      rw [hfirst.covered_eq, (hfirst.of_sameButVolatile hcs').covered_eq,
        filter_cacheable_of_sameButVolatile hcs']
    rw [coveredParts_eq, coveredParts_eq, hcovered]

/-- The time comes before the skills : a minute later another prefix is covered. -/
theorem coveredParts_time_ne :
    ¬∀ (base : String) (cs cs' : List SystemPromptContribution) (mode : PromptMode),
      List.Forall₂ SameButVolatile cs cs' →
        coveredParts base cs' mode = coveredParts base cs mode := by
  intro h
  let prompt (isoNow : String) : List SystemPromptContribution :=
    [timeContribution isoNow "KST", skillsContribution "none"]
  have hrelated : List.Forall₂ SameButVolatile (prompt "12:34") (prompt "12:35") :=
    .cons ⟨rfl, rfl, rfl, rfl, by rintro ⟨⟩⟩ (.cons ⟨rfl, rfl, rfl, rfl, fun _ => rfl⟩ .nil)
  exact absurd (h "You help." _ _ .chat hrelated) (by decide)

end SystemPrompt

end OxenClaw
