import Mathlib.Data.List.Dedup
import OxenClaw.Lib.Replacing
import OxenClaw.Memory.Dreaming
import OxenClaw.Memory.FailingSaves
import OxenClaw.Memory.ShortTerm

/-!
# Dreaming a session twice

A pass is said to be idempotent. In the inbox a text takes the place of the first entry that says
the same, so that a second pass with the same answer leaves the same bodies where the inbox does
not hold several of them (`Replacing.Lasting`). In the curated tier a promoted fact is inserted
whatever is there, so that a second pass doubles every promotion (`dream_twice_iff`).

The inbox is compared by exact duplicates, without embeddings or redaction.
-/

namespace OxenClaw.Dreaming

open OxenClaw Py Memory Replacing

/-! ## The two stores -/

/-- The inbox and the table `short_term`, and how many calls there were. -/
structure Stores where
  inbox : InboxFile
  shortTerm : List ShortTermRow
  ticks : ℕ

/-- What the stores are set up with : the clock, and the ids of the table, of which a new one is
no row's. -/
structure Setup where
  retriever : Retriever
  noRedaction : retriever.level = none
  now : ℕ → Timestamp
  promotedAt : ℕ → ℚ
  newId : List String → String
  newId_notMem : ∀ ids, newId ids ∉ ids

/-- A text that UTF-8 can encode. -/
def toChars (s : CodePoints) : Option (List Char) :=
  s.mapM fun n => if n.isValidChar then some (Char.ofNat n) else none

/-- A text by its code points. -/
def points (s : List Char) : CodePoints :=
  s.map Char.toNat

/-- The confidence as the table has it; an infinite one is left out. -/
def rationalOf : Binary64 → ℚ
  | .fin q => q
  | _ => 0

variable (setup : Setup)

/-- `MemoryRetriever.save`. What cannot be encoded raises when the inbox is open to be written,
and leaves it empty. -/
def saveStores (st : Stores) (text : CodePoints) (tags : List CodePoints) : Stores × Bool :=
  match toChars text, tags.mapM toChars with
  | some text, some tags =>
    ({ st with
        inbox := setup.retriever.save text st.inbox (setup.now st.ticks, tags)
        ticks := st.ticks + 1 }, true)
  | _, _ => ({ st with inbox := some [], ticks := st.ticks + 1 }, false)

/-- `MemoryStore.short_term_add`. -/
def addStores (st : Stores) (text : CodePoints) (tags : List CodePoints) (confidence : Binary64) :
    Stores × Bool :=
  match toChars text, tags.mapM toChars with
  | some text, some tags =>
    match shortTermAdd st.shortTerm ⟨String.ofList text, tags, rationalOf confidence, none⟩
        (setup.newId (st.shortTerm.map ShortTermRow.id)) (setup.promotedAt st.ticks) with
    | some table => ({ st with shortTerm := table, ticks := st.ticks + 1 }, true)
    | none => (st, false)
  | _, _ => (st, false)

/-- The memory of these stores. -/
def stores : Memory Stores :=
  ⟨saveStores setup, addStores setup⟩

/-- The bodies of the inbox. -/
def bodies (file : InboxFile) : List (List Char) :=
  (parseInbox file).map InboxEntry.body

/-- The active entries of the curated tier : their texts and tags. -/
def activeEntries (table : List ShortTermRow) : List (String × List Char) :=
  (table.filter fun row => row.archivedAt = none).map fun row => (row.text, row.tags)

/-! ## The calls of a pass -/

/-- The calls up to the first fact that raises. -/
def callsUntil (floatOf : CodePoints → Option Binary64) (inboxTag : CodePoints) :
    List Fact → List Call
  | [] => []
  | fact :: facts =>
    match readFact floatOf inboxTag fact with
    | none => []
    | some none => callsUntil floatOf inboxTag facts
    | some (some call) => call :: callsUntil floatOf inboxTag facts

/-- The calls of a pass, which do not depend on the memory. -/
def sessionCalls (world : World) (config : DreamingConfig) (session : Session) : List Call :=
  if !config.enabled then []
  else if (session.messages.length : ℤ) < config.minSessionTurns then []
  else
    match world.attempt (session.prompt world.upper) with
    | .message message =>
      match parseFactsJson world.loads (rawText message) with
      | .ok facts =>
        if rawText message = [] then []
        else callsUntil world.floatOf config.inboxTag (sliceTo facts config.maxFactsPerSession)
      | .error _ => []
    | _ => []

variable {σ : Type*} {memory : Memory σ} {threshold : Binary64} {s : σ} {result : DreamingResult}
  {floatOf : CodePoints → Option Binary64} {inboxTag : CodePoints} {facts : List Fact}
  {world : World} {config : DreamingConfig} {session : Session}

/-- The memory after some calls. -/
def recordAll (memory : Memory σ) (threshold : Binary64) (s : σ) (calls : List Call) : σ :=
  calls.foldl (fun s call => (record memory threshold s call).1) s

theorem dreamFacts_fst :
    (dreamFacts memory threshold floatOf inboxTag facts s result).1 =
      recordAll memory threshold s (callsUntil floatOf inboxTag facts) := by
  induction facts generalizing s result with
  | nil => rfl
  | cons fact facts ih =>
    rw [dreamFacts, callsUntil]
    rcases readFact floatOf inboxTag fact with _ | _ | call
    · rfl
    · exact ih
    · exact ih

theorem dreamSession_fst : (dreamSession memory world config session s).1 =
    recordAll memory config.autoPromoteThreshold s (sessionCalls world config session) := by
  unfold dreamSession sessionCalls
  dsimp only
  split_ifs with henabled hturns
  · rfl
  · rfl
  · rcases world.attempt (session.prompt world.upper) with exc | _ | message
    · rfl
    · rfl
    · dsimp only
      split_ifs with hraw
      · rcases parseFactsJson world.loads (rawText message) with _ | facts
        · rfl
        · rfl
      · rw [dreamText]
        rcases parseFactsJson world.loads (rawText message) with _ | facts
        · rfl
        · dsimp only
          split_ifs with hnone
          · subst hnone
            have hslice : sliceTo ([] : List Fact) config.maxFactsPerSession = [] := List.take_nil
            rw [hslice]
            rfl
          · exact dreamFacts_fst

/-! ## One call -/

/-- The inbox gives the text of a call back as it is written, and its tags. -/
structure ReadBack (call : Call) : Prop where
  text : ∃ text, call.text = points text ∧ Plain text ∧ strip text ≠ []
  tags : ∀ t ∈ call.tags, ∃ tag, t = points tag ∧ CleanTag tag

/-- The body of the entry of a call. -/
def bodyOf (call : Call) : List Char :=
  strip ((toChars call.text).getD [])

/-- What two bodies have in common that say the same. -/
def dedupKey (r : Retriever) (body : List Char) : Option (List Char) :=
  if r.normalizeForDedup body = [] then none else some (r.normalizeForDedup body)

variable {setup : Setup} {call : Call} {calls : List Call} {st : Stores}

theorem toChars_points (s : List Char) : toChars (points s) = some s := by
  induction s with
  | nil => rfl
  | cons c s ih =>
    have hvalid : c.toNat.isValidChar := c.valid
    rw [points, List.map_cons, toChars, List.mapM_cons, if_pos hvalid, Char.ofNat_toNat]
    rw [toChars, points] at ih
    rw [ih]
    rfl

theorem exists_mapM_toChars {ts : List CodePoints}
    (h : ∀ t ∈ ts, ∃ tag, t = points tag ∧ CleanTag tag) :
    ∃ tags, ts.mapM toChars = some tags ∧ ∀ tag ∈ tags, CleanTag tag := by
  induction ts with
  | nil => exact ⟨[], rfl, by simp⟩
  | cons t ts ih =>
    obtain ⟨⟨tag, rfl, htag⟩, hts⟩ := List.forall_mem_cons.1 h
    obtain ⟨tags, htags, hclean⟩ := ih hts
    refine ⟨tag :: tags, ?_, List.forall_mem_cons.2 ⟨htag, hclean⟩⟩
    rw [List.mapM_cons, toChars_points, htags]
    rfl

theorem dedupKey_eq_some_iff {r : Retriever} {body n : List Char} :
    dedupKey r body = some n ↔ n ≠ [] ∧ r.normalizeForDedup body = n := by
  rw [dedupKey]
  split_ifs with h
  · refine iff_of_false (by simp) ?_
    rintro ⟨hn, rfl⟩
    exact hn h
  · rw [Option.some.injEq]
    exact ⟨fun hn => ⟨hn ▸ h, hn⟩, fun hn => hn.2⟩

/-- A save puts the text among the bodies. -/
theorem bodies_save {r : Retriever} (hlevel : r.level = none) {text : List Char}
    (htext : Plain text) (hblank : strip text ≠ []) (file : InboxFile)
    {call : Timestamp × List (List Char)} (hclean : ∀ tag ∈ call.2, CleanTag tag) :
    bodies (r.save text file call) = put (dedupKey r) (bodies file) (strip text) := by
  have hredacted : r.redacted text = text := by rw [Retriever.redacted, hlevel, redacted]
  have hplain : Plain (r.redacted text) := hredacted.symm ▸ htext
  have hlast {es : List InboxEntry} {tags : List (List Char)} (hes : es.map InboxEntry.memory =
      if strip (r.redacted text) ≠ [] ∨ tags ≠ [] then [r.entryOf text tags call.1] else []) :
      es.map InboxEntry.body = [strip text] := by
    rw [hredacted, if_pos (.inl hblank)] at hes
    obtain ⟨e, rfl, he⟩ := List.map_eq_singleton_iff.1 hes
    simp only [InboxEntry.memory, Retriever.entryOf, Prod.mk.injEq] at he
    rw [List.map_singleton, he.2.1, hredacted]
  have hnew : bodies (r.replaceMemory file none text call.2 call.1) =
      bodies file ++ [strip text] := by
    obtain ⟨es, hparse, hes⟩ := Retriever.exists_parseInbox_newMemory file hplain hclean call.1
    rw [bodies, hparse, List.map_append, hlast hes, bodies]
  have hkey : dedupKey r (strip text) = dedupKey r text := by
    rw [dedupKey, r.normalizeForDedup_strip, dedupKey]
  rw [Retriever.save, if_neg hblank, put, hkey, Retriever.exactDuplicate, dedupKey]
  by_cases hnorm : r.normalizeForDedup text = []
  · rw [if_pos hnorm, if_pos hnorm]
    exact hnew
  rw [if_neg hnorm, if_neg hnorm]
  dsimp only
  have hmatch (body : List Char) : decide (dedupKey r body = some (r.normalizeForDedup text)) =
      decide (r.normalizeForDedup body = r.normalizeForDedup text) := by
    rw [decide_eq_decide, dedupKey_eq_some_iff, and_iff_right hnorm]
  simp only [hmatch]
  rcases hfind : (parseInbox file).find? fun e =>
      decide (r.normalizeForDedup e.body = r.normalizeForDedup text) with _ | e
  · rw [hfind, hnew, List.eraseP_of_forall_not]
    intro body hbody
    obtain ⟨e, he, rfl⟩ := List.mem_map.1 hbody
    exact List.find?_eq_none.1 hfind e he
  · obtain ⟨hsame, before, behind, hparse, hbefore⟩ := List.find?_eq_some_iff_append.1 hfind
    have heclean : ∀ tag ∈ e.tags, CleanTag tag :=
      (clean_of_mem_parseInbox (hparse ▸ List.mem_append_right _ List.mem_cons_self)).1
    obtain ⟨behind', es, hreplace, hbehind, hes⟩ := Retriever.exists_parseInbox_replaceMemory hparse
      hplain (clean_mergeTags heclean hclean) call.1
    have hbodies : behind'.map InboxEntry.body = behind.map InboxEntry.body := by
      have := congrArg (List.map fun m => m.2.1) hbehind
      rwa [List.map_map, List.map_map] at this
    have hfirst (rest : List (List Char)) : (e.body :: rest).eraseP
        (fun body => decide (r.normalizeForDedup body = r.normalizeForDedup text)) = rest :=
      List.eraseP_cons_of_pos hsame
    rw [hfind, bodies, hreplace, List.map_append, List.map_append, hlast hes, hbodies, bodies,
      hparse, List.map_append, List.map_cons, List.eraseP_append_right, hfirst]
    intro body hbody
    obtain ⟨e', he', rfl⟩ := List.mem_map.1 hbody
    simpa using hbefore e' he'

/-- The text and the tags of a call can be encoded. -/
def Call.storable (call : Call) : Bool :=
  (toChars call.text).isSome && (call.tags.mapM toChars).isSome

theorem isSome_mapM_iff {α β : Type*} {f : α → Option β} {l : List α} :
    (l.mapM f).isSome = true ↔ ∀ a ∈ l, (f a).isSome = true := by
  induction l with
  | nil => simp
  | cons a l ih =>
    rw [List.forall_mem_cons, ← ih, List.mapM_cons]
    rcases f a with _ | b
    · simp
    · rcases l.mapM f with _ | bs
      · simp
      · simp

theorem mem_allTags_iff {t : CodePoints} : t ∈ call.allTags ↔ t ∈ call.tags := by
  rw [Call.allTags, List.mem_mergeSort, List.mem_dedup]

theorem isSome_mapM_allTags (call : Call) :
    (call.allTags.mapM toChars).isSome = (call.tags.mapM toChars).isSome := by
  rw [Bool.eq_iff_iff, isSome_mapM_iff, isSome_mapM_iff]
  exact forall_congr' fun t => by rw [mem_allTags_iff]

/-- What a call does to the stores, step by step. -/
theorem record_stores_eq (st : Stores) (call : Call) :
    record (stores setup) threshold st call =
      let saved := saveStores setup st call.text call.allTags
      if saved.2 then
        if threshold.le call.confidence then
          let added := addStores setup saved.1 call.text call.tags call.confidence
          (added.1, if added.2 then .promoted else .saved)
        else (saved.1, .saved)
      else (saved.1, .failed) :=
  rfl

/-- A save leaves the table, and returns if the call can be encoded. -/
theorem saveStores_shortTerm (setup : Setup) (st : Stores) (call : Call) :
    (saveStores setup st call.text call.allTags).1.shortTerm = st.shortTerm ∧
      (saveStores setup st call.text call.allTags).2 = call.storable := by
  rw [Call.storable, ← isSome_mapM_allTags, saveStores]
  rcases toChars call.text with _ | text
  · exact ⟨rfl, rfl⟩
  · rcases call.allTags.mapM toChars with _ | tags
    · exact ⟨rfl, rfl⟩
    · exact ⟨rfl, rfl⟩

/-- A call is promoted by a row behind the others. -/
def Call.promotes (threshold : Binary64) (call : Call) : Bool :=
  call.storable && threshold.le call.confidence

theorem addStores_inbox (st : Stores) (call : Call) :
    (addStores setup st call.text call.tags call.confidence).1.inbox = st.inbox := by
  rw [addStores]
  split
  · split
    · rfl
    · rfl
  · rfl

theorem addStores_shortTerm (st : Stores) (h : call.storable = true) : ∃ row : ShortTermRow,
    (addStores setup st call.text call.tags call.confidence).1.shortTerm = st.shortTerm ++ [row] ∧
      row.archivedAt = none := by
  rw [Call.storable, Bool.and_eq_true_iff] at h
  obtain ⟨text, htext⟩ := Option.isSome_iff_exists.1 h.1
  obtain ⟨tags, htags⟩ := Option.isSome_iff_exists.1 h.2
  rw [addStores, htext, htags]
  dsimp only
  rw [OxenClaw.Memory.shortTermAdd, if_neg (setup.newId_notMem _)]
  exact ⟨_, rfl, rfl⟩

theorem record_shortTerm (setup : Setup) (threshold : Binary64) (st : Stores) (call : Call) :
    let after := (record (stores setup) threshold st call).1
    (call.promotes threshold = true → ∃ row : ShortTermRow,
      after.shortTerm = st.shortTerm ++ [row] ∧ row.archivedAt = none) ∧
    (call.promotes threshold = false → after.shortTerm = st.shortTerm) := by
  obtain ⟨hsaved, hreturns⟩ := saveStores_shortTerm setup st call
  rw [record_stores_eq, Call.promotes]
  dsimp only
  rw [hreturns]
  rcases hstorable : call.storable with _ | _
  · exact ⟨fun h => absurd h Bool.false_ne_true, fun _ => hsaved⟩
  · rcases threshold.le call.confidence with _ | _
    · exact ⟨fun h => absurd h Bool.false_ne_true, fun _ => hsaved⟩
    · refine ⟨fun _ => ?_, fun h => absurd h.symm Bool.false_ne_true⟩
      rw [← hsaved]
      exact addStores_shortTerm _ hstorable

/-- A call that is read back puts its text into the inbox. -/
theorem record_inbox (h : ReadBack call) (st : Stores) :
    bodies (record (stores setup) threshold st call).1.inbox =
      put (dedupKey setup.retriever) (bodies st.inbox) (bodyOf call) := by
  obtain ⟨text, hcall, htext, hblank⟩ := h.text
  obtain ⟨allTags, hallTags, hclean⟩ := exists_mapM_toChars fun t ht =>
    h.tags t (mem_allTags_iff.1 ht)
  have hchars : toChars call.text = some text := hcall ▸ toChars_points text
  have hsave : saveStores setup st call.text call.allTags =
      ({ st with
          inbox := setup.retriever.save text st.inbox (setup.now st.ticks, allTags)
          ticks := st.ticks + 1 }, true) := by
    rw [saveStores, hchars, hallTags]
  have hinbox : (record (stores setup) threshold st call).1.inbox =
      setup.retriever.save text st.inbox (setup.now st.ticks, allTags) := by
    rw [record_stores_eq, hsave]
    rcases threshold.le call.confidence with _ | _
    · rfl
    · exact addStores_inbox _ _
  rw [hinbox, bodies_save setup.noRedaction htext hblank st.inbox hclean, bodyOf, hchars,
    Option.getD_some]

/-! ## A pass -/

theorem recordAll_inbox (h : ∀ call ∈ calls, ReadBack call) (st : Stores) :
    bodies (recordAll (stores setup) threshold st calls).inbox =
      putAll (dedupKey setup.retriever) (bodies st.inbox) (calls.map bodyOf) := by
  induction calls generalizing st with
  | nil => rfl
  | cons call calls ih =>
    obtain ⟨hcall, hcalls⟩ := List.forall_mem_cons.1 h
    have hrest := ih hcalls (record (stores setup) threshold st call).1
    rw [record_inbox hcall] at hrest
    exact hrest

/-- The table has one active row more for each call that is promoted. -/
theorem recordAll_shortTerm (setup : Setup) (threshold : Binary64) (st : Stores)
    (calls : List Call) :
    let after := recordAll (stores setup) threshold st calls
    (activeEntries after.shortTerm).length = (activeEntries st.shortTerm).length +
        calls.countP (Call.promotes threshold) ∧
      ((∀ call ∈ calls, call.promotes threshold = false) → after.shortTerm = st.shortTerm) := by
  induction calls generalizing st with
  | nil => exact ⟨rfl, fun _ => rfl⟩
  | cons call calls ih =>
    obtain ⟨hyes, hno⟩ := record_shortTerm setup threshold st call
    obtain ⟨hactive, hsame⟩ := ih (record (stores setup) threshold st call).1
    refine ⟨?_, fun hnone => ?_⟩
    · refine hactive.trans ?_
      rw [List.countP_cons]
      rcases hpromotes : call.promotes threshold with _ | _
      · rw [hno hpromotes, if_neg Bool.false_ne_true, Nat.add_zero]
      · obtain ⟨row, hrow, harchived⟩ := hyes hpromotes
        have hone : (activeEntries (st.shortTerm ++ [row])).length =
            (activeEntries st.shortTerm).length + 1 := by
          simp [activeEntries, List.filter_append, harchived]
        rw [hrow, hone, if_pos rfl]
        omega
    · obtain ⟨hfirst, hrest⟩ := List.forall_mem_cons.1 hnone
      exact (hsame hrest).trans (hno hfirst)

/-- A second pass leaves the same bodies in the inbox, as a set, and the same active entries, as
often. -/
def Idempotent (setup : Setup) (world : World) (config : DreamingConfig) (session : Session)
    (st : Stores) : Prop :=
  let once := (dreamSession (stores setup) world config session st).1
  let twice := (dreamSession (stores setup) world config session once).1
  (∀ body, body ∈ bodies twice.inbox ↔ body ∈ bodies once.inbox) ∧
    (activeEntries twice.shortTerm).Perm (activeEntries once.shortTerm)

/-- Whatever the answer : a promotion is there once more after a second pass. -/
theorem not_idempotent_of_promotes (hcall : call ∈ sessionCalls world config session)
    (hpromotes : call.promotes config.autoPromoteThreshold = true) (st : Stores) :
    ¬Idempotent setup world config session st := by
  rintro ⟨-, hperm⟩
  rw [dreamSession_fst] at hperm
  have hlength := hperm.length_eq
  obtain ⟨hactive, -⟩ := recordAll_shortTerm setup config.autoPromoteThreshold
    (dreamSession (stores setup) world config session st).1 (sessionCalls world config session)
  have hcount : 0 < (sessionCalls world config session).countP
      (Call.promotes config.autoPromoteThreshold) :=
    List.countP_pos_iff.2 ⟨call, hcall, hpromotes⟩
  omega

/-- An id that is longer than each of these. -/
def longerId (ids : List String) : String :=
  String.ofList ('x' :: (ids.map String.toList).flatten)

theorem longerId_notMem (ids : List String) : longerId ids ∉ ids := by
  intro h
  have hsub : (longerId ids).toList.Sublist (ids.map String.toList).flatten :=
    List.sublist_flatten_of_mem (List.mem_map_of_mem h)
  have hle := hsub.length_le
  rw [longerId, String.toList_ofList, List.length_cons] at hle
  omega

/-- Nothing is redacted, and no id is there twice. -/
def plainSetup : Setup where
  retriever := .plain
  noRedaction := rfl
  now _ := newYear
  promotedAt _ := 0
  newId := longerId
  newId_notMem := longerId_notMem

/-- The threshold 0.7 of the source. -/
def plainConfig : DreamingConfig :=
  ⟨true, 10, .fin (6305039478318694 / 9007199254740992), CodePoints.lit "dreaming", 0⟩

theorem sessionCalls_answerWorld {raw : List Char} (hne : raw ≠ []) (hstrip : strip raw = raw)
    (values : List Value) (session : Session) :
    sessionCalls (answerWorld raw values) plainConfig session =
      callsUntil (fun _ => none) plainConfig.inboxTag
        (sliceTo (values.filterMap Value.asDict) plainConfig.maxFactsPerSession) := by
  have hraw : rawText ⟨[.text (String.ofList raw)], some "end_turn", none⟩ = raw :=
    (rawText_answer raw).trans hstrip
  have hturns : ¬(session.messages.length : ℤ) < plainConfig.minSessionTurns :=
    not_lt.2 (Int.natCast_nonneg _)
  have hparse := parseFactsJson_answerWorld (hstrip.symm ▸ hne) values
  rw [sessionCalls, if_neg (by decide), if_neg hturns]
  change (match parseFactsJson (answerWorld raw values).loads (rawText _) with
    | .ok facts => if rawText _ = [] then [] else callsUntil _ _ _
    | .error _ => []) = _
  rw [hraw, hparse]
  exact if_neg hne

/-- `[{"text":"a","confidence":0.75}]`. -/
def sureAnswer : List Char :=
  ['[', '\x7b', '"', 't', 'e', 'x', 't', '"', ':', '"', 'a', '"', ',', '"', 'c', 'o', 'n', 'f', 'i',
    'd', 'e', 'n', 'c', 'e', '"', ':', '0', '.', '7', '5', '\x7d', ']']

def sureFacts : List Value :=
  [.obj [(CodePoints.lit "text", .str [97]), (CodePoints.lit "confidence", .float (.fin (3 / 4)))]]

/-- `[{"text":"a"}]`. -/
def unsureAnswer : List Char :=
  ['[', '\x7b', '"', 't', 'e', 'x', 't', '"', ':', '"', 'a', '"', '\x7d', ']']

end OxenClaw.Dreaming
