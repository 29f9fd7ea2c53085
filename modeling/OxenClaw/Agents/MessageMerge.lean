import OxenClaw.Lib.Coalesce
import OxenClaw.Lib.Dict
import OxenClaw.Lib.Rewriting
import OxenClaw.Pi.Messages

/-!
# Merging consecutive messages of one role

`agents/message_merge.py`. Adjacent user messages become one, and adjacent assistant messages.
The blocks of the transcript stay, in order, but that texts of users are joined and separated
(`Kept`). Usage counts are added key by key, which raises where the first value under a key is
no number and a later one is (`coalesced_iff`).
-/

namespace OxenClaw.MessageMerge

open OxenClaw

/-! ## Two messages -/

/-- `_user_to_blocks`. -/
def userToBlocks : Content → List UserBlock
  | .text s => if s = "" then [] else [.text s]
  | .blocks bs => bs

/-- The text of a text block. -/
def text? : UserBlock → Option String
  | .text s => some s
  | .image _ _ => none

/-- The blocks of both, with a separator in between. -/
def mergedBlocks (a b : List UserBlock) : List UserBlock :=
  if a ≠ [] ∧ b ≠ [] then a ++ [.text "---"] ++ b else a ++ b

/-- `_merge_user`. -/
def mergeUser (a b : Content) : Content :=
  let merged := mergedBlocks (userToBlocks a) (userToBlocks b)
  if merged.all fun blk => (text? blk).isSome then
    .text ("\n\n".intercalate ((merged.filterMap text?).filter fun s => s ≠ ""))
  else .blocks merged

/-- A value as a number, `none` if `isinstance(v, (int, float))` is false. -/
def number? : Json → Option Json
  | .bool b => some (.int (if b then 1 else 0))
  | .int n => some (.int n)
  | .float x => some (.float x)
  | _ => none

/-- `a + v` for a number `v`, `none` when it raises. -/
def addNumber (a v : Json) : Option Json :=
  match number? a, number? v with
  | some (.int m), some (.int n) => some (.int (m + n))
  | some (.int m), some (.float y) => some (.float (m + y))
  | some (.float x), some (.int n) => some (.float (x + n))
  | some (.float x), some (.float y) => some (.float (x + y))
  | _, _ => none

/-- One key of a usage dictionary. -/
def addUsage (usage : Args) (entry : String × Json) : Option Args :=
  if (number? entry.2).isSome then
    (addNumber ((Dict.get? usage entry.1).getD (.int 0)) entry.2).map (Dict.set usage entry.1)
  else if entry.1 ∈ Dict.keys usage then some usage
  else some (Dict.set usage entry.1 entry.2)

/-- The fields of `usage or {}`. -/
def usageFields (m : AssistantMessage) : Args :=
  m.usage.getD []

/-- The usage of two messages, `none` when adding it up raises. -/
def mergedUsage (a b : AssistantMessage) : Option (Option Args) :=
  if usageFields a ≠ [] ∨ usageFields b ≠ [] then
    ((usageFields a ++ usageFields b).foldlM addUsage []).map some
  else some none

/-- `_merge_assistant`, `none` when it raises. -/
def mergeAssistant (a b : AssistantMessage) : Option AssistantMessage :=
  (mergedUsage a b).map fun usage =>
    { content := a.content ++ b.content
      stopReason := if b.stopReason.getD "" ≠ "" then b.stopReason else a.stopReason
      usage }

/-! ## The transcript -/

/-- One message, with the output and the number of merges so far. -/
def mergeStep : List Message × ℕ → Message → Option (List Message × ℕ)
  | (out, merged), msg =>
    match out.getLast?, msg with
    | none, msg => some ([msg], merged)
    | some (.user a), .user b => some (out.dropLast ++ [.user (mergeUser a b)], merged + 1)
    | some (.assistant a), .assistant b =>
      (mergeAssistant a b).map fun m => (out.dropLast ++ [.assistant m], merged + 1)
    | some _, msg => some (out ++ [msg], merged)

/-- `merge_consecutive_same_role` : what the messages become and the number of merges, `none` when
it raises, which leaves the messages as they are. -/
def mergeConsecutiveSameRole (messages : List Message) : Option (List Message × ℕ) :=
  if messages.length < 2 then some (messages, 0)
  else (messages.foldlM mergeStep ([], 0)).map fun (out, merged) =>
    (if merged ≠ 0 then out else messages, merged)

/-- Messages that are merged where they are adjacent. -/
def alike : Message → Message → Bool
  | .user _, .user _ => true
  | .assistant _, .assistant _ => true
  | _, _ => false

/-- What may not get lost : a block, or a message that is not merged. -/
inductive Item where
  | user (block : UserBlock)
  | assistant (block : AssistantBlock)
  | whole (message : Message)

def items : Message → List Item
  | .user content => (userToBlocks content).map .user
  | .assistant m => m.content.map .assistant
  | m => [.whole m]

/-- Empty texts of users are dropped, others are separated and joined. -/
inductive TextRule : List Item → List Item → Prop
  | empty : TextRule [.user (.text "")] []
  | separate (a b : UserBlock) :
    TextRule [.user a, .user b] [.user a, .user (.text "---"), .user b]
  | join (s t : String) :
    TextRule [.user (.text s), .user (.text t)] [.user (.text (s ++ "\n\n" ++ t))]

/-- The items are kept in order, but for what `TextRule` does. -/
def Kept (messages out : List Message) : Prop :=
  Rewrites TextRule (messages.flatMap items) (out.flatMap items)

/-- No two adjacent messages could be merged, the items are kept, the messages removed are counted,
and a second merge changes nothing. -/
def Coalesced (messages : List Message) : Prop :=
  ∃ out merged, mergeConsecutiveSameRole messages = some (out, merged) ∧
    (out.IsChain fun a b => alike a b = false) ∧ Kept messages out ∧
    out.length + merged = messages.length ∧ mergeConsecutiveSameRole out = some (out, 0)

def usageOf : Message → Args
  | .assistant m => usageFields m
  | _ => []

/-- There is a number under a key whose first value is none. -/
def Clashes (entries : Args) : Prop :=
  ∃ e ∈ entries, (number? e.2).isSome ∧
    ∃ v, Dict.get? entries e.1 = some v ∧ number? v = none

/-- In no run of adjacent messages of one role do the usage counts clash. -/
def UsageAdds (messages : List Message) : Prop :=
  ∀ run ∈ messages.splitBy alike, 2 ≤ run.length → ¬Clashes (run.flatMap usageOf)

/-! ## Blocks -/

theorem rewrites_mergedBlocks (a b : List UserBlock) :
    Rewrites TextRule ((a ++ b).map .user) ((mergedBlocks a b).map .user) := by
  unfold mergedBlocks
  split_ifs with h
  · obtain ⟨a, x, rfl⟩ := (List.eq_nil_or_concat' a).resolve_left h.1
    obtain ⟨y, b, rfl⟩ := List.exists_cons_of_ne_nil h.2
    have hrule := (Rewrites.of_rule (TextRule.separate x y)).append_left (a.map .user)
    simpa using hrule.append_right (b.map .user)
  · exact Rewrites.refl _

/-- Texts that are not empty are joined. -/
theorem rewrites_join (s : String) (l : List String) :
    Rewrites TextRule ((s :: l).map fun t => .user (.text t))
      [.user (.text ("\n\n".intercalate (s :: l)))] := by
  induction l generalizing s with
  | nil => exact Rewrites.refl _
  | cons t l ih =>
    have hrest := (ih t).append_left [.user (.text s)]
    rw [String.intercalate_cons_cons]
    exact hrest.trans (Rewrites.of_rule (TextRule.join s _))

theorem rewrites_filter (l : List String) :
    Rewrites TextRule (l.map fun t => .user (.text t))
      ((l.filter fun t => t ≠ "").map fun t => .user (.text t)) := by
  induction l with
  | nil => exact Rewrites.refl _
  | cons t l ih =>
    by_cases ht : t = ""
    · subst ht
      simpa using (Rewrites.of_rule TextRule.empty).append ih
    · simpa [ht] using ih.append_left [.user (.text t)]

theorem eq_map_of_all_text {l : List UserBlock} (h : l.all fun blk => (text? blk).isSome) :
    l = (l.filterMap text?).map .text := by
  induction l with
  | nil => rfl
  | cons blk l ih =>
    rw [List.all_cons, Bool.and_eq_true] at h
    rcases blk with t | _
    · simpa [text?] using ih h.2
    · exact absurd h.1 (by simp [text?])

theorem rewrites_mergeUser (a b : Content) :
    Rewrites TextRule ((userToBlocks a ++ userToBlocks b).map .user)
      ((userToBlocks (mergeUser a b)).map .user) := by
  refine (rewrites_mergedBlocks _ _).trans ?_
  unfold mergeUser
  simp only
  split_ifs with htext
  · generalize mergedBlocks (userToBlocks a) (userToBlocks b) = merged at htext ⊢
    have hjoined : Rewrites TextRule (((merged.filterMap text?).filter fun t => t ≠ "").map
        fun t => .user (.text t)) ((userToBlocks (.text ("\n\n".intercalate
          ((merged.filterMap text?).filter fun t => t ≠ "")))).map .user) := by
      rcases hl : (merged.filterMap text?).filter fun t => t ≠ "" with _ | ⟨t, l⟩
      · exact Rewrites.refl _
      · have ht : t ≠ "" := by
          have := List.of_mem_filter (hl ▸ List.mem_cons_self)
          simpa using this
        have hne : "\n\n".intercalate (t :: l) ≠ "" := by
          rcases l with _ | ⟨u, l⟩ <;> simp [ht]
        rw [userToBlocks, if_neg hne]
        exact rewrites_join t l
    have hmap : merged.map Item.user = (merged.filterMap text?).map fun t => .user (.text t) := by
      conv_lhs => rw [eq_map_of_all_text htext, List.map_map]
      rfl
    rw [hmap]
    exact (rewrites_filter _).trans hjoined
  · exact Rewrites.refl _

/-! ## Usage counts -/

/-- A usage dictionary as `addUsage` leaves it. -/
def Canonical (usage : Args) : Prop :=
  (Dict.keys usage).Nodup ∧ ∀ e ∈ usage, number? e.2 = none ∨ number? e.2 = some e.2

theorem number?_cases (v : Json) :
    number? v = none ∨ (∃ n, number? v = some (.int n)) ∨ ∃ x, number? v = some (.float x) := by
  cases v <;> simp [number?]

theorem number?_addNumber {a v w : Json} (h : addNumber a v = some w) : number? w = some w := by
  unfold addNumber at h
  split at h <;> simp only [reduceCtorEq, Option.some.injEq] at h <;> subst h <;> rfl

theorem addNumber_eq_none_iff {a v : Json} (hv : (number? v).isSome) :
    addNumber a v = none ↔ number? a = none := by
  rcases number?_cases v with hv' | ⟨n, hv'⟩ | ⟨x, hv'⟩
  · simp [hv'] at hv
  all_goals
    rcases number?_cases a with ha | ⟨m, ha⟩ | ⟨y, ha⟩ <;> simp [addNumber, ha, hv']

theorem addNumber_zero {v : Json} (hv : number? v = some v) : addNumber (.int 0) v = some v := by
  have hzero : number? (.int 0) = some (.int 0) := rfl
  rcases number?_cases v with hv' | ⟨n, hv'⟩ | ⟨x, hv'⟩
  · simp [hv'] at hv
  all_goals
    obtain rfl := Option.some.inj (hv'.symm.trans hv)
    simp [addNumber, hv, hzero]

/-- Whether the first value under a key is a number. -/
def numeric? (d : Args) (key : String) : Option Bool :=
  (Dict.get? d key).map fun v => (number? v).isSome

theorem numeric?_append (d d' : Args) (key : String) :
    numeric? (d ++ d') key = (numeric? d key).or (numeric? d' key) := by
  induction d with
  | nil => simp [numeric?]
  | cons e d ih =>
    simp only [numeric?] at ih ⊢
    rw [List.cons_append, Dict.get?_cons, Dict.get?_cons]
    split_ifs with hk
    · rfl
    · exact ih

theorem numeric?_set (d : Args) (k key : String) (v : Json) :
    numeric? (Dict.set d k v) key =
      if key = k then some (number? v).isSome else numeric? d key := by
  rw [numeric?, Dict.get?_set]
  split_ifs <;> rfl

theorem addUsage_eq_none_iff {usage : Args} {e : String × Json} : addUsage usage e = none ↔
    (number? e.2).isSome ∧ numeric? usage e.1 = some false := by
  unfold addUsage
  split_ifs with hnumber hkey
  · rw [Option.map_eq_none_iff, addNumber_eq_none_iff hnumber, and_iff_right hnumber, numeric?]
    rcases Dict.get? usage e.1 with _ | v
    · simp [number?]
    · simp
  · simp [hnumber]
  · simp [hnumber]

theorem Canonical.set {usage : Args} (h : Canonical usage) (k : String) {v : Json}
    (hv : number? v = none ∨ number? v = some v) : Canonical (Dict.set usage k v) := by
  refine ⟨Dict.nodup_keys_set h.1 k v, fun e he => ?_⟩
  rcases Dict.mem_set he with rfl | he
  · exact hv
  · exact h.2 e he

theorem Canonical.addUsage {usage usage' : Args} (h : Canonical usage) {e : String × Json}
    (hadd : addUsage usage e = some usage') : Canonical usage' := by
  unfold MessageMerge.addUsage at hadd
  split_ifs at hadd with hnumber hkey
  · obtain ⟨w, hw, rfl⟩ := Option.map_eq_some_iff.1 hadd
    exact h.set e.1 (Or.inr (number?_addNumber hw))
  · obtain rfl := Option.some.inj hadd
    exact h
  · obtain rfl := Option.some.inj hadd
    exact h.set e.1 (Or.inl (by simpa using hnumber))

theorem numeric?_addUsage {usage usage' : Args} {e : String × Json}
    (hadd : addUsage usage e = some usage') (key : String) :
    numeric? usage' key = numeric? (usage ++ [e]) key := by
  have hone : numeric? [e] key = if key = e.1 then some (number? e.2).isSome else none := by
    rw [numeric?, Dict.get?_cons]
    simp only [eq_comm (a := e.1)]
    split_ifs <;> rfl
  rw [numeric?_append, hone]
  have hclash : ¬((number? e.2).isSome ∧ numeric? usage e.1 = some false) := fun h => by
    rw [addUsage_eq_none_iff.2 h] at hadd
    cases hadd
  unfold addUsage at hadd
  split_ifs at hadd with hnumber hkey
  · obtain ⟨w, hw, rfl⟩ := Option.map_eq_some_iff.1 hadd
    rw [numeric?_set, number?_addNumber hw]
    split_ifs with hk
    · subst hk
      rcases hbefore : numeric? usage e.1 with _ | _ | _
      · rw [hnumber]
        rfl
      · exact absurd ⟨hnumber, hbefore⟩ hclash
      · rfl
    · rw [Option.or_none]
  · obtain rfl := Option.some.inj hadd
    split_ifs with hk
    · subst hk
      obtain ⟨v, hv⟩ := Dict.mem_keys_iff.1 hkey
      rw [numeric?, hv]
      rfl
    · rw [Option.or_none]
  · obtain rfl := Option.some.inj hadd
    rw [numeric?_set]
    split_ifs with hk
    · subst hk
      rw [numeric?, Dict.get?_eq_none_iff.2 hkey]
      rfl
    · rw [Option.or_none]

theorem clashes_iff {entries : Args} : Clashes entries ↔
    ∃ e ∈ entries, (number? e.2).isSome ∧ numeric? entries e.1 = some false := by
  simp [Clashes, numeric?]

theorem clashes_append_singleton {entries : Args} {e : String × Json} :
    Clashes (entries ++ [e]) ↔
      Clashes entries ∨ (number? e.2).isSome ∧ numeric? entries e.1 = some false := by
  simp only [clashes_iff, numeric?_append]
  constructor
  · rintro ⟨e', he', hnumber, hfirst⟩
    rcases hbefore : numeric? entries e'.1 with _ | b
    · rw [hbefore, Option.none_or, numeric?, Option.map_eq_some_iff] at hfirst
      obtain ⟨v, hv, hvnumber⟩ := hfirst
      have hmem := List.mem_singleton.1 (Dict.mem_of_get? hv)
      rcases List.mem_append.1 he' with he' | he'
      · have hkey : e'.1 ∉ Dict.keys entries := by
          rw [← Dict.get?_eq_none_iff]
          simpa [numeric?] using hbefore
        exact absurd (List.mem_map_of_mem he') hkey
      · obtain rfl := List.mem_singleton.1 he'
        rw [← hmem] at hnumber
        rw [hnumber] at hvnumber
        cases hvnumber
    · rw [hbefore, Option.some_or] at hfirst
      rcases List.mem_append.1 he' with he' | he'
      · exact Or.inl ⟨e', he', hnumber, hbefore.trans hfirst⟩
      · obtain rfl := List.mem_singleton.1 he'
        exact Or.inr ⟨hnumber, hbefore.trans hfirst⟩
  · rintro (⟨e', he', hnumber, hfirst⟩ | ⟨hnumber, hfirst⟩)
    · exact ⟨e', List.mem_append_left _ he', hnumber, by rw [hfirst, Option.some_or]⟩
    · exact ⟨e, by simp, hnumber, by rw [hfirst, Option.some_or]⟩

/-- What adding entries one by one gives, and when it raises. -/
theorem foldlM_addUsage (entries : Args) :
    (∀ usage, entries.foldlM addUsage [] = some usage →
      Canonical usage ∧ ∀ key, numeric? usage key = numeric? entries key) ∧
    (entries.foldlM addUsage [] = none ↔ Clashes entries) := by
  induction entries using List.reverseRecOn with
  | nil =>
    refine ⟨fun usage h => ?_, iff_of_false (by rintro ⟨⟩) (by simp [Clashes])⟩
    obtain rfl := Option.some.inj h
    exact ⟨⟨List.nodup_nil, by simp⟩, fun _ => rfl⟩
  | append_singleton entries e ih =>
    obtain ⟨hsome, hnone⟩ := ih
    have hfold : (entries ++ [e]).foldlM addUsage [] =
        (entries.foldlM addUsage []).bind fun usage => addUsage usage e := by
      simp [List.foldlM_append]
    rw [hfold, clashes_append_singleton, ← hnone]
    rcases husage : entries.foldlM addUsage [] with _ | usage
    · exact ⟨by rintro _ ⟨⟩, by simp⟩
    · obtain ⟨hcanonical, hnumeric⟩ := hsome usage husage
      rw [Option.bind_some, addUsage_eq_none_iff, hnumeric]
      refine ⟨fun usage' hadd => ⟨hcanonical.addUsage hadd, fun key => ?_⟩, by simp⟩
      rw [numeric?_addUsage hadd, numeric?_append, numeric?_append, hnumeric]

/-- A dictionary that was added up is left as it is. -/
theorem foldlM_addUsage_canonical {usage : Args} (h : Canonical usage) :
    usage.foldlM addUsage [] = some usage := by
  induction usage using List.reverseRecOn with
  | nil => rfl
  | append_singleton usage e ih =>
    obtain ⟨hkeys, hvalues⟩ := h
    rw [Dict.keys, List.map_append, List.nodup_append] at hkeys
    have hkey : e.1 ∉ Dict.keys usage := fun hmem => hkeys.2.2 e.1 hmem e.1 (by simp) rfl
    have hset : Dict.set usage e.1 e.2 = usage ++ [e] := Dict.set_of_notMem_keys e.2 hkey
    have hadd : addUsage usage e = some (usage ++ [e]) := by
      unfold addUsage
      rw [Dict.get?_eq_none_iff.2 hkey, if_neg hkey, Option.getD_none, hset]
      split_ifs with hnumber
      · have hself := (hvalues e (by simp)).resolve_left fun hnone => by simp [hnone] at hnumber
        rw [addNumber_zero hself, Option.map_some, hset]
      · rfl
    have hbefore := ih ⟨hkeys.1, fun e he => hvalues e (List.mem_append_left _ he)⟩
    simp [List.foldlM_append, hbefore, hadd]

/-! ## Runs of assistant messages -/

theorem foldlM_usageFields_mergeAssistant {a b m : AssistantMessage}
    (h : mergeAssistant a b = some m) :
    (usageFields a ++ usageFields b).foldlM addUsage [] = some (usageFields m) := by
  obtain ⟨usage, husage, rfl⟩ := Option.map_eq_some_iff.1 h
  unfold mergedUsage at husage
  split_ifs at husage with hsome
  · obtain ⟨total, htotal, rfl⟩ := Option.map_eq_some_iff.1 husage
    exact htotal
  · rw [not_or, not_not, not_not] at hsome
    obtain rfl := Option.some.inj husage
    rw [hsome.1, hsome.2]
    rfl

theorem mergeAssistant_eq_none_iff {a b : AssistantMessage} : mergeAssistant a b = none ↔
    (usageFields a ++ usageFields b).foldlM addUsage [] = none := by
  rw [mergeAssistant, Option.map_eq_none_iff]
  unfold mergedUsage
  split_ifs with hsome
  · rw [Option.map_eq_none_iff]
  · rw [not_or, not_not, not_not] at hsome
    simp [hsome.1, hsome.2]

/-- Two messages of one role, merged; two that are not alike are never asked for. -/
def mergePair : Message → Message → Option Message
  | .user a, .user b => some (.user (mergeUser a b))
  | .assistant a, .assistant b => (mergeAssistant a b).map .assistant
  | _, b => some b

/-- A message that was merged goes on with its usage added up. -/
theorem foldlM_mergePair_eq_none_iff {m : AssistantMessage} (hm : Canonical (usageFields m))
    (l : List AssistantMessage) :
    (l.map .assistant).foldlM mergePair (.assistant m) = none ↔
      (l.flatMap usageFields).foldlM addUsage (usageFields m) = none := by
  induction l generalizing m with
  | nil => simp
  | cons b l ih =>
    have hstart : ∀ entries, (usageFields m ++ entries).foldlM addUsage [] =
        entries.foldlM addUsage (usageFields m) := fun entries => by
      rw [List.foldlM_append, foldlM_addUsage_canonical hm]
      rfl
    rw [List.map_cons, List.foldlM_cons, List.flatMap_cons, List.foldlM_append, ← hstart]
    rcases hmerge : mergeAssistant m b with _ | m'
    · simp [mergePair, hmerge, mergeAssistant_eq_none_iff.1 hmerge]
    · have hfields := foldlM_usageFields_mergeAssistant hmerge
      have hm' := ((foldlM_addUsage _).1 _ hfields).1
      simpa [mergePair, hmerge, hfields] using ih hm'

/-- A run of at least two assistant messages raises exactly if its usage counts clash. -/
theorem mergeRun_assistant_eq_none_iff (a b : AssistantMessage) (l : List AssistantMessage) :
    Coalesce.mergeRun mergePair ((a :: b :: l).map .assistant) = none ↔
      Clashes ((a :: b :: l).flatMap usageFields) := by
  rw [← (foldlM_addUsage _).2, List.flatMap_cons, List.flatMap_cons, ← List.append_assoc,
    List.foldlM_append, List.map_cons, List.map_cons, Coalesce.mergeRun, List.foldlM_cons]
  rcases hmerge : mergeAssistant a b with _ | m
  · simp [mergePair, hmerge, mergeAssistant_eq_none_iff.1 hmerge]
  · have hfields := foldlM_usageFields_mergeAssistant hmerge
    have hm := ((foldlM_addUsage _).1 _ hfields).1
    simpa [mergePair, hmerge, hfields] using foldlM_mergePair_eq_none_iff hm l

theorem mergeRun_user_ne_none (a : Content) (l : List Content) :
    Coalesce.mergeRun mergePair ((a :: l).map .user) ≠ none := by
  rw [List.map_cons, Coalesce.mergeRun]
  induction l generalizing a with
  | nil => simp
  | cons b l ih => exact ih (mergeUser a b)

theorem alike_mergePair {a b c : Message} (hab : alike a b = true)
    (h : mergePair a b = some c) (d : Message) : alike c d = alike b d ∧ alike d c = alike d a := by
  rcases a with _ | a | a | _ <;> rcases b with _ | b | b | _ <;> try cases hab
  · obtain rfl := Option.some.inj h
    cases d <;> exact ⟨rfl, rfl⟩
  · obtain ⟨m, -, rfl⟩ := Option.map_eq_some_iff.1 h
    cases d <;> exact ⟨rfl, rfl⟩

theorem exists_users {a : Content} {l : List Message}
    (h : (Message.user a :: l).IsChain fun x y => alike x y = true) :
    ∃ cs : List Content, l = cs.map .user := by
  induction l generalizing a with
  | nil => exact ⟨[], rfl⟩
  | cons b l ih =>
    obtain ⟨hab, h⟩ := List.isChain_cons_cons.1 h
    rcases b with _ | b | _ | _ <;> try cases hab
    obtain ⟨cs, rfl⟩ := ih h
    exact ⟨b :: cs, rfl⟩

theorem exists_assistants {a : AssistantMessage} {l : List Message}
    (h : (Message.assistant a :: l).IsChain fun x y => alike x y = true) :
    ∃ ms : List AssistantMessage, l = ms.map .assistant := by
  induction l generalizing a with
  | nil => exact ⟨[], rfl⟩
  | cons b l ih =>
    obtain ⟨hab, h⟩ := List.isChain_cons_cons.1 h
    rcases b with _ | _ | b | _ <;> try cases hab
    obtain ⟨ms, rfl⟩ := ih h
    exact ⟨b :: ms, rfl⟩

/-- Merging raises in a run exactly if it has at least two messages and its usage counts clash. -/
theorem mergeRun_eq_none_iff {run : List Message} (hnil : run ≠ [])
    (hrun : run.IsChain fun x y => alike x y = true) :
    Coalesce.mergeRun mergePair run = none ↔
      2 ≤ run.length ∧ Clashes (run.flatMap usageOf) := by
  rcases run with _ | ⟨a, _ | ⟨b, l⟩⟩
  · exact absurd rfl hnil
  · exact iff_of_false (by rintro ⟨⟩) fun h => absurd h.1 (by simp)
  rw [and_iff_right (by simp)]
  rcases a with _ | a | a | _
  · cases (List.isChain_cons_cons.1 hrun).1
  · obtain ⟨cs, hcs⟩ := exists_users hrun
    have husage : (Message.user a :: b :: l).flatMap usageOf = [] := by
      rw [hcs, List.flatMap_cons, List.flatMap_map]
      exact List.flatMap_eq_nil_iff.2 fun _ _ => rfl
    rw [husage, hcs]
    exact iff_of_false (mergeRun_user_ne_none a cs) (by simp [Clashes])
  · obtain ⟨_ | ⟨b, ms⟩, hms⟩ := exists_assistants hrun
    · cases hms
    · have husage : (Message.assistant a :: (b :: ms).map .assistant).flatMap usageOf =
          (a :: b :: ms).flatMap usageFields := by
        rw [← List.map_cons, List.flatMap_map]
        rfl
      rw [hms, husage]
      exact mergeRun_assistant_eq_none_iff a b ms
  · cases (List.isChain_cons_cons.1 hrun).1

/-! ## The whole transcript -/

/-- A step adds the message to the output; what does not get longer was merged. -/
theorem mergeStep_eq (out : List Message) (merged : ℕ) (msg : Message) :
    mergeStep (out, merged) msg = (Coalesce.add alike mergePair out msg).map fun out' =>
      (out', if out'.length = out.length then merged + 1 else merged) := by
  rcases List.eq_nil_or_concat' out with rfl | ⟨out, prev, rfl⟩
  · rfl
  rw [Coalesce.add_append_singleton]
  rcases prev with _ | a | a | _ <;> rcases msg with _ | b | b | _ <;>
    simp [mergeStep, alike, mergePair, Function.comp_def]

theorem length_add {out out' : List Message} {msg : Message}
    (h : Coalesce.add alike mergePair out msg = some out') :
    out'.length = out.length ∨ out' = out ++ [msg] := by
  rcases List.eq_nil_or_concat' out with rfl | ⟨out, prev, rfl⟩
  · exact Or.inr (Option.some.inj h).symm
  rw [Coalesce.add_append_singleton] at h
  split_ifs at h
  · obtain ⟨c, -, rfl⟩ := Option.map_eq_some_iff.1 h
    exact Or.inl (by simp)
  · exact Or.inr (Option.some.inj h).symm

/-- The merges make up for what the output is shorter, and without one it is the messages. -/
theorem foldlM_mergeStep (messages : List Message) :
    (messages.foldlM mergeStep ([], 0) =
      (messages.foldlM (Coalesce.add alike mergePair) []).map fun out =>
        (out, messages.length - out.length)) ∧
    ∀ out, messages.foldlM (Coalesce.add alike mergePair) [] = some out →
      out.length ≤ messages.length ∧ (out.length = messages.length → out = messages) := by
  induction messages using List.reverseRecOn with
  | nil =>
    refine ⟨rfl, fun out h => ?_⟩
    obtain rfl := Option.some.inj h
    exact ⟨le_rfl, fun _ => rfl⟩
  | append_singleton messages msg ih =>
    obtain ⟨hfold, hout⟩ := ih
    have hlast : ∀ {β : Type} (f : β → Message → Option β) (b : β),
        (messages ++ [msg]).foldlM f b = (messages.foldlM f b).bind fun b => f b msg := by
      intro β f b
      simp [List.foldlM_append]
    rw [hlast, hlast, hfold]
    rcases hmessages : messages.foldlM (Coalesce.add alike mergePair) [] with _ | out
    · exact ⟨rfl, by rintro _ ⟨⟩⟩
    obtain ⟨hle, heq⟩ := hout out hmessages
    rw [Option.map_some, Option.bind_some, Option.bind_some, mergeStep_eq]
    rcases hadd : Coalesce.add alike mergePair out msg with _ | out'
    · exact ⟨rfl, by rintro _ ⟨⟩⟩
    have hmessage : (messages ++ [msg]).length = messages.length + 1 := by simp
    refine ⟨congrArg some (Prod.ext rfl ?_), fun out'' hout'' => ?_⟩
    · rcases length_add hadd with hlength | rfl
      · simp only [hlength, if_true]
        omega
      · simp
    · obtain rfl := Option.some.inj hout''
      rcases length_add hadd with hlength | rfl
      · exact ⟨by omega, fun h => by omega⟩
      · refine ⟨by simpa using hle, fun h => ?_⟩
        rw [heq (by simpa using h)]

theorem mergeConsecutiveSameRole_eq (messages : List Message) :
    mergeConsecutiveSameRole messages =
      (messages.foldlM (Coalesce.add alike mergePair) []).map fun out =>
        (out, messages.length - out.length) := by
  obtain ⟨hfold, hout⟩ := foldlM_mergeStep messages
  unfold mergeConsecutiveSameRole
  split_ifs with hshort
  · rcases messages with _ | ⟨m, _ | ⟨n, messages⟩⟩
    · rfl
    · rfl
    · simp only [List.length_cons] at hshort
      omega
  · rw [hfold]
    rcases hmessages : messages.foldlM (Coalesce.add alike mergePair) [] with _ | out
    · rfl
    obtain ⟨hle, heq⟩ := hout out hmessages
    refine congrArg some (Prod.ext ?_ rfl)
    simp only
    split_ifs with hmerged
    · rfl
    · exact (heq (by omega)).symm

theorem kept_add {out out' : List Message} {msg : Message}
    (h : Coalesce.add alike mergePair out msg = some out') : Kept (out ++ [msg]) out' := by
  unfold Kept
  rcases List.eq_nil_or_concat' out with rfl | ⟨out, prev, rfl⟩
  · obtain rfl := Option.some.inj h
    exact Rewrites.refl _
  rw [Coalesce.add_append_singleton] at h
  split_ifs at h with halike
  · obtain ⟨c, hc, rfl⟩ := Option.map_eq_some_iff.1 h
    have hitems : Rewrites TextRule (items prev ++ items msg) (items c) := by
      rcases prev with _ | a | a | _ <;> rcases msg with _ | b | b | _ <;> try cases halike
      · obtain rfl := Option.some.inj hc
        simpa [items] using rewrites_mergeUser a b
      · obtain ⟨m, hm, rfl⟩ := Option.map_eq_some_iff.1 hc
        obtain ⟨usage, -, rfl⟩ := Option.map_eq_some_iff.1 hm
        simpa [items] using Rewrites.refl _
    simpa using hitems.append_left (out.flatMap items)
  · obtain rfl := Option.some.inj h
    exact Rewrites.refl _

theorem kept_foldlM {messages out : List Message}
    (h : messages.foldlM (Coalesce.add alike mergePair) [] = some out) : Kept messages out := by
  induction messages using List.reverseRecOn generalizing out with
  | nil =>
    obtain rfl := Option.some.inj h
    exact Rewrites.refl _
  | append_singleton messages msg ih =>
    simp only [List.foldlM_append, List.foldlM_cons, List.foldlM_nil, bind_pure] at h
    obtain ⟨before, hbefore, hadd⟩ := Option.bind_eq_some_iff.1 h
    refine Rewrites.trans ?_ (kept_add hadd)
    simpa using (ih hbefore).append_right (items msg)

theorem usageAdds_iff {messages : List Message} :
    UsageAdds messages ↔ messages.foldlM (Coalesce.add alike mergePair) [] ≠ none := by
  have hkeeps : Coalesce.KeepsAlike alike mergePair := fun b a c hba hc d =>
    (alike_mergePair hba hc d).1
  rw [ne_eq, Coalesce.foldlM_add_eq_none_iff hkeeps, not_exists]
  refine forall_congr' fun run => ?_
  rw [not_and]
  refine forall_congr' fun hrun => ?_
  rw [mergeRun_eq_none_iff (List.ne_nil_of_mem_splitBy hrun) (List.isChain_of_mem_splitBy hrun),
    not_and]

/-- Messages of one role are merged, with nothing lost, exactly if no usage counts clash. -/
theorem coalesced_iff (messages : List Message) : Coalesced messages ↔ UsageAdds messages := by
  rw [usageAdds_iff, Coalesced]
  constructor
  · rintro ⟨out, merged, hmerge, -⟩ hnone
    rw [mergeConsecutiveSameRole_eq, hnone] at hmerge
    cases hmerge
  · intro hsome
    obtain ⟨out, hout⟩ := Option.ne_none_iff_exists'.1 hsome
    have hchain := Coalesce.isChain_foldlM_add (fun b a c hba hc d =>
      (alike_mergePair hba hc d).2) List.isChain_nil hout
    have hagain : mergeConsecutiveSameRole out = some (out, 0) := by
      rw [mergeConsecutiveSameRole_eq, Coalesce.foldlM_add_of_isChain hchain, Option.map_some,
        Nat.sub_self]
    have hle := ((foldlM_mergeStep messages).2 out hout).1
    refine ⟨out, messages.length - out.length, ?_, hchain, kept_foldlM hout, by omega, hagain⟩
    rw [mergeConsecutiveSameRole_eq, hout, Option.map_some]

/-- A count that is `null` in one message and a number in the next. -/
theorem nullCount_not_coalesced : ¬Coalesced
    [.assistant ⟨[.text "a"], none, some [("prompt_tokens", .null)]⟩,
      .assistant ⟨[.text "b"], none, some [("prompt_tokens", .int 3)]⟩] := by
  rintro ⟨out, merged, ⟨⟩, -⟩

end OxenClaw.MessageMerge
