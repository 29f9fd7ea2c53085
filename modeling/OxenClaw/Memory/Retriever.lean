import Mathlib.Data.List.Lex
import OxenClaw.Memory.InboxRoundTrip

/-!
# Saving a memory

`MemoryRetriever.save` looks for an entry of the inbox that says the same as the text, takes it
out and writes the text behind the others, with the tags of both. Without embeddings an entry says
the same if its body has the normal form of the text.

A text that is saved again and again is one entry of the inbox, with all the tags, exactly if its
entry is read back as it was written and its normal form is found again in what was written, or
if only one of the saves writes an entry (`saves_oneEntry_iff`).
-/

namespace OxenClaw.Memory

open Py

/-- What a retriever is set up with : the tables of Python, and the level of redaction. -/
structure Retriever where
  unicode : Unicode
  /-- `str.lower`. -/
  lower : List Char → List Char
  lower_nil : lower [] = []
  level : Option RedactLevel

/-! ## Finding duplicates -/

/-- `_NORMALIZE_PUNCT_RE.sub(" ", s)`. -/
def collapseSpaces : List Char → List Char
  | [] => []
  | c :: s =>
    if isSpace c then
      if s.head?.any isSpace then collapseSpaces s else ' ' :: collapseSpaces s
    else c :: collapseSpaces s

/-- `_TRIM_TRAILING`. -/
def trimTrailing : List Char :=
  ".,!?。、！？ \t\n".toList

namespace Retriever

variable (r : Retriever)

/-- `normalize_for_dedup`. -/
def normalizeForDedup (text : List Char) : List Char :=
  strip (stripChars trimTrailing (collapseSpaces (r.lower (strip text))))

/-- The first layer of `_find_duplicate_entry`. -/
def exactDuplicate (entries : List InboxEntry) (text : List Char) : Option InboxEntry :=
  let normNew := r.normalizeForDedup text
  if normNew = [] then none
  else entries.find? fun e => r.normalizeForDedup e.body = normNew

end Retriever

/-- One round of the loop of `_merge_tags`. -/
def mergeTag (out : List (List Char)) (tag : List Char) : List (List Char) :=
  if strip tag = [] ∨ strip tag ∈ out then out else out ++ [strip tag]

/-- `_merge_tags`. -/
def mergeTags (old new : List (List Char)) : List (List Char) :=
  (old ++ new).foldl mergeTag []

namespace Retriever

variable (r : Retriever)

/-- `save` from where the duplicate is known, up to the indexing. -/
def replaceMemory (file : InboxFile) (existing : Option InboxEntry) (text : List Char)
    (tags : List (List Char)) (now : Timestamp) : InboxFile :=
  match existing with
  | some e =>
    appendToInbox r.unicode (removeInboxEntry file e).2 text (mergeTags e.tags tags) now r.level
  | none => appendToInbox r.unicode file text tags now r.level

/-- What `save` does to the inbox, where there are no embeddings. -/
def save (text : List Char) (file : InboxFile) (call : Timestamp × List (List Char)) :
    InboxFile :=
  let existing := if strip text = [] then none else r.exactDuplicate (parseInbox file) text
  r.replaceMemory file existing text call.2 call.1

/-- The text as the retriever writes it. -/
def redacted (text : List Char) : List Char :=
  Memory.redacted r.unicode r.level text

end Retriever

/-! ## Tags -/

theorem mem_foldl_mergeTag {tags out : List (List Char)} {tag : List Char} :
    tag ∈ tags.foldl mergeTag out ↔ tag ∈ out ∨ tag ≠ [] ∧ ∃ t ∈ tags, strip t = tag := by
  induction tags generalizing out with
  | nil => simp
  | cons t tags ih =>
    rw [List.foldl_cons, ih, mergeTag]
    split_ifs with h
    · constructor
      · rintro (hout | ⟨hne, t', ht', rfl⟩)
        · exact Or.inl hout
        · exact Or.inr ⟨hne, t', List.mem_cons_of_mem t ht', rfl⟩
      · rintro (hout | ⟨hne, t', ht', rfl⟩)
        · exact Or.inl hout
        · rcases List.mem_cons.1 ht' with rfl | ht'
          · exact Or.inl (h.resolve_left hne)
          · exact Or.inr ⟨hne, t', ht', rfl⟩
    · rw [not_or] at h
      constructor
      · rintro (hout | ⟨hne, t', ht', rfl⟩)
        · rcases List.mem_append.1 hout with hout | hout
          · exact Or.inl hout
          · rw [List.mem_singleton.1 hout]
            exact Or.inr ⟨h.1, t, List.mem_cons_self, rfl⟩
        · exact Or.inr ⟨hne, t', List.mem_cons_of_mem t ht', rfl⟩
      · rintro (hout | ⟨hne, t', ht', rfl⟩)
        · exact Or.inl (List.mem_append_left _ hout)
        · rcases List.mem_cons.1 ht' with rfl | ht'
          · exact Or.inl (List.mem_append_right _ (List.mem_singleton_self _))
          · exact Or.inr ⟨hne, t', ht', rfl⟩

/-- Of clean tags, the merged ones are those of both lists. -/
theorem mem_mergeTags {old new : List (List Char)} (hold : ∀ tag ∈ old, CleanTag tag)
    (hnew : ∀ tag ∈ new, CleanTag tag) {tag : List Char} :
    tag ∈ mergeTags old new ↔ tag ∈ old ∨ tag ∈ new := by
  have hclean : ∀ t ∈ old ++ new, CleanTag t := by
    intro t ht
    exact (List.mem_append.1 ht).elim (hold t) (hnew t)
  rw [mergeTags, mem_foldl_mergeTag, ← List.mem_append]
  constructor
  · rintro (h | ⟨-, t, ht, rfl⟩)
    · exact absurd h List.not_mem_nil
    · rwa [(hclean t ht).stripped]
  · exact fun h => Or.inr ⟨(hclean tag h).ne_nil, tag, h, (hclean tag h).stripped⟩

theorem clean_mergeTags {old new : List (List Char)} (hold : ∀ tag ∈ old, CleanTag tag)
    (hnew : ∀ tag ∈ new, CleanTag tag) : ∀ tag ∈ mergeTags old new, CleanTag tag :=
  fun tag htag => ((mem_mergeTags hold hnew).1 htag).elim (hold tag) (hnew tag)

namespace Retriever

variable (r : Retriever)

/-! ## One save -/

/-- What an entry of the text says. -/
def entryOf (text : List Char) (tags : List (List Char)) (now : Timestamp) :
    List Char × List Char × List (List Char) :=
  (now.text, strip (r.redacted text), tags)

variable {r} in
/-- A save that replaces nothing puts its entry behind the others. -/
theorem exists_parseInbox_newMemory (file : InboxFile) {text : List Char}
    (htext : Plain (r.redacted text)) {tags : List (List Char)}
    (hclean : ∀ tag ∈ tags, CleanTag tag) (now : Timestamp) : ∃ es,
      parseInbox (r.replaceMemory file none text tags now) = parseInbox file ++ es ∧
        es.map InboxEntry.memory =
          if strip (r.redacted text) ≠ [] ∨ tags ≠ [] then [r.entryOf text tags now] else [] :=
  exists_parseInbox_appendToInbox r.unicode file htext hclean now

variable {r} in
/-- A save that replaces an entry leaves the others, and puts its own behind them. -/
theorem exists_parseInbox_replaceMemory {file : InboxFile} {e : InboxEntry}
    {before behind : List InboxEntry} (h : parseInbox file = before ++ e :: behind)
    {text : List Char} (htext : Plain (r.redacted text)) {tags : List (List Char)}
    (hclean : ∀ tag ∈ mergeTags e.tags tags, CleanTag tag) (now : Timestamp) : ∃ behind' es,
      parseInbox (r.replaceMemory file (some e) text tags now) = before ++ behind' ++ es ∧
        behind'.map InboxEntry.memory = behind.map InboxEntry.memory ∧
          es.map InboxEntry.memory =
            if strip (r.redacted text) ≠ [] ∨ mergeTags e.tags tags ≠ [] then
              [r.entryOf text (mergeTags e.tags tags) now]
            else [] := by
  obtain ⟨-, behind', hremove, hbehind⟩ := parseInbox_removeInboxEntry h
  obtain ⟨es, happend, hes⟩ := exists_parseInbox_appendToInbox r.unicode
    (removeInboxEntry file e).2 htext hclean now
  exact ⟨behind', es, by rw [replaceMemory, happend, hremove], hbehind, hes⟩

theorem normalizeForDedup_strip (text : List Char) :
    r.normalizeForDedup (strip text) = r.normalizeForDedup text := by
  rw [normalizeForDedup, normalizeForDedup, strip_strip]

theorem normalizeForDedup_nil : r.normalizeForDedup [] = [] := by
  have hstrip : strip [] = [] := rfl
  rw [normalizeForDedup, hstrip, r.lower_nil]
  rfl

/-- The entry of the text is found again. -/
def Recognised (text : List Char) : Prop :=
  strip text ≠ [] ∧ r.normalizeForDedup text ≠ [] ∧
    r.normalizeForDedup (r.redacted text) = r.normalizeForDedup text

instance (text : List Char) : Decidable (r.Recognised text) :=
  inferInstanceAs (Decidable (_ ∧ _))

/-- Whether a save of the text with these tags writes an entry. -/
def Records (text : List Char) (call : Timestamp × List (List Char)) : Bool :=
  strip (r.redacted text) ≠ [] ∨ call.2 ≠ []

/-- No entry has the normal form of the text. -/
def Unknown (text : List Char) (entries : List InboxEntry) : Prop :=
  r.normalizeForDedup text ≠ [] →
    ∀ e ∈ entries, r.normalizeForDedup e.body ≠ r.normalizeForDedup text

variable {r} {text : List Char}

theorem exactDuplicate_eq_none {entries : List InboxEntry} (h : r.Unknown text entries) :
    r.exactDuplicate entries text = none := by
  rw [exactDuplicate]
  split_ifs with hnorm
  · rfl
  · exact List.find?_eq_none.2 fun e he => by simpa using h hnorm e he

theorem exactDuplicate_eq_some {entries : List InboxEntry} (h : r.Unknown text entries)
    (hnorm : r.normalizeForDedup text ≠ []) {e : InboxEntry}
    (he : r.normalizeForDedup e.body = r.normalizeForDedup text) :
    r.exactDuplicate (entries ++ [e]) text = some e := by
  have hnone : (entries.find? fun e => r.normalizeForDedup e.body = r.normalizeForDedup text) =
      none := List.find?_eq_none.2 fun e he => by simpa using h hnorm e he
  rw [exactDuplicate, if_neg hnorm, List.find?_append, hnone, Option.none_or]
  exact List.find?_cons_of_pos (by simpa using he)

/-- A save of a text the inbox does not know, or that is blank. -/
theorem save_of_unknown {file : InboxFile} (h : strip text ≠ [] → r.Unknown text (parseInbox file))
    (call : Timestamp × List (List Char)) :
    r.save text file call = r.replaceMemory file none text call.2 call.1 := by
  rw [save]
  split_ifs with hblank
  · rfl
  · rw [exactDuplicate_eq_none (h hblank)]

/-! ## Saves of one text -/

variable {file : InboxFile} {calls : List (Timestamp × List (List Char))}

/-- A text that is recognised has one entry, with all the tags. -/
theorem exists_parseInbox_saves (hfile : r.Unknown text (parseInbox file))
    (htext : Plain (r.redacted text)) (hrecognised : r.Recognised text)
    (hclean : ∀ call ∈ calls, ∀ tag ∈ call.2, CleanTag tag) (hcalls : calls ≠ []) :
    ∃ e, parseInbox (calls.foldl (r.save text) file) = parseInbox file ++ [e] ∧
      e.body = strip (r.redacted text) ∧ ∀ tag, tag ∈ e.tags ↔ ∃ call ∈ calls, tag ∈ call.2 := by
  obtain ⟨hblank, hnorm, hfound⟩ := hrecognised
  have hwritten : strip (r.redacted text) ≠ [] := by
    intro hnil
    rw [← normalizeForDedup_strip, hnil, normalizeForDedup_nil] at hfound
    exact hnorm hfound.symm
  induction calls using List.reverseRecOn with
  | nil => exact absurd rfl hcalls
  | append_singleton calls call ih =>
    have hcall : ∀ tag ∈ call.2, CleanTag tag := hclean call (by simp)
    rw [List.foldl_append, List.foldl_cons, List.foldl_nil]
    by_cases hfirst : calls = []
    · subst hfirst
      obtain ⟨es, hparse, hes⟩ := exists_parseInbox_newMemory file htext hcall call.1
      rw [if_pos (Or.inl hwritten)] at hes
      obtain ⟨e, rfl, he⟩ := List.map_eq_singleton_iff.1 hes
      simp only [InboxEntry.memory, entryOf, Prod.mk.injEq] at he
      refine ⟨e, ?_, he.2.1, fun tag => by simp [he.2.2]⟩
      rw [List.foldl_nil, save_of_unknown fun _ => hfile, hparse]
    · obtain ⟨e, hparse, hbody, htags⟩ := ih (fun c hc => hclean c (by simp [hc])) hfirst
      have hsame : r.normalizeForDedup e.body = r.normalizeForDedup text := by
        rw [hbody, normalizeForDedup_strip, hfound]
      have heclean : ∀ tag ∈ e.tags, CleanTag tag :=
        (clean_of_mem_parseInbox (hparse ▸ List.mem_append_right _ List.mem_cons_self)).1
      obtain ⟨behind, es, hreplace, hbehind, hes⟩ :=
        exists_parseInbox_replaceMemory hparse htext (clean_mergeTags heclean hcall) call.1
      obtain rfl := List.map_eq_nil_iff.1 hbehind
      rw [if_pos (Or.inl hwritten)] at hes
      obtain ⟨e', rfl, he'⟩ := List.map_eq_singleton_iff.1 hes
      simp only [InboxEntry.memory, entryOf, Prod.mk.injEq] at he'
      refine ⟨e', ?_, he'.2.1, fun tag => ?_⟩
      · rw [save, if_neg hblank, hparse, exactDuplicate_eq_some hfile hnorm hsame, hreplace,
          List.append_nil]
      · rw [he'.2.2, mem_mergeTags heclean hcall, htags]
        simp [or_and_right, exists_or]

/-- A text that is not recognised has one entry for each save that writes one. -/
theorem exists_parseInbox_saves_of_not (hfile : r.Unknown text (parseInbox file))
    (htext : Plain (r.redacted text)) (hrecognised : ¬r.Recognised text)
    (hclean : ∀ call ∈ calls, ∀ tag ∈ call.2, CleanTag tag) :
    ∃ es, parseInbox (calls.foldl (r.save text) file) = parseInbox file ++ es ∧
      es.map InboxEntry.memory =
        (calls.filter (r.Records text)).map fun call => r.entryOf text call.2 call.1 := by
  induction calls using List.reverseRecOn with
  | nil => exact ⟨[], (List.append_nil _).symm, rfl⟩
  | append_singleton calls call ih =>
    obtain ⟨es, hparse, hes⟩ := ih fun c hc => hclean c (by simp [hc])
    have hunknown : strip text ≠ [] → r.Unknown text (parseInbox file ++ es) := by
      intro hblank hnorm e he
      rcases List.mem_append.1 he with he | he
      · exact hfile hnorm e he
      · have hmem : e.memory ∈ es.map InboxEntry.memory := List.mem_map_of_mem he
        rw [hes] at hmem
        obtain ⟨c, -, hc⟩ := List.mem_map.1 hmem
        simp only [InboxEntry.memory, entryOf, Prod.mk.injEq] at hc
        rw [← hc.2.1, normalizeForDedup_strip]
        exact fun hfound => hrecognised ⟨hblank, hnorm, hfound⟩
    obtain ⟨es', happend, hes'⟩ := exists_parseInbox_newMemory
      (calls.foldl (r.save text) file) htext (hclean call (by simp)) call.1
    refine ⟨es ++ es', ?_, ?_⟩
    · rw [List.foldl_append, List.foldl_cons, List.foldl_nil,
        save_of_unknown (by rw [hparse]; exact hunknown), happend, hparse, List.append_assoc]
    · have hrecords : r.Records text call = true ↔
          strip (r.redacted text) ≠ [] ∨ call.2 ≠ [] := decide_eq_true_iff
      rw [List.map_append, hes, hes', List.filter_append, List.map_append, List.filter_cons,
        List.filter_nil]
      simp only [hrecords]
      split_ifs
      · rfl
      · rfl

/-! ## Texts that are not read back -/

/-- How many entries have the body. -/
def copies (body : List Char) (file : InboxFile) : ℕ :=
  ((parseInbox file).map InboxEntry.memory).countP fun m => m.2.1 = body

theorem copies_removeInboxEntry_le {e : InboxEntry} (he : e ∈ parseInbox file)
    (body : List Char) : copies body (removeInboxEntry file e).2 ≤ copies body file := by
  obtain ⟨before, behind, hparse⟩ := List.append_of_mem he
  obtain ⟨-, behind', hremove, hbehind⟩ := parseInbox_removeInboxEntry hparse
  rw [copies, copies, hremove, hparse, List.map_append, hbehind, List.map_append, List.map_cons,
    List.countP_append, List.countP_append, List.countP_cons]
  omega

/-- A text in which the reader finds a heading or tags adds no entry with the whole text. -/
theorem copies_appendToInbox (htext : ¬((∀ line ∈ textLines (r.redacted text),
      isHeading line = false) ∧ NoTagsFirst (textLines (r.redacted text))))
    {tags : List (List Char)} (hclean : ∀ tag ∈ tags, CleanTag tag) (now : Timestamp)
    (file : InboxFile) :
    copies (strip (r.redacted text)) (appendToInbox r.unicode file text tags now r.level) =
      copies (strip (r.redacted text)) file := by
  rw [copies, copies, parseInbox_appendToInbox, List.map_append, List.countP_append,
    Nat.add_eq_left, List.countP_eq_zero]
  intro m hm hbody
  obtain ⟨e, he, rfl⟩ := List.mem_map.1 hm
  obtain ⟨s, hs, hgive⟩ := List.mem_filterMap.1 he
  exact htext (plain_of_give hclean hs hgive (of_decide_eq_true hbody))

theorem mem_of_exactDuplicate {entries : List InboxEntry} {e : InboxEntry}
    (h : r.exactDuplicate entries text = some e) : e ∈ entries := by
  rw [exactDuplicate] at h
  split_ifs at h
  exact List.mem_of_find?_eq_some h

theorem copies_save_le (htext : ¬((∀ line ∈ textLines (r.redacted text),
      isHeading line = false) ∧ NoTagsFirst (textLines (r.redacted text))))
    {call : Timestamp × List (List Char)} (hclean : ∀ tag ∈ call.2, CleanTag tag)
    (file : InboxFile) :
    copies (strip (r.redacted text)) (r.save text file call) ≤
      copies (strip (r.redacted text)) file := by
  rw [save]
  cases hexisting : (if strip text = [] then none
      else r.exactDuplicate (parseInbox file) text) with
  | none => exact (copies_appendToInbox htext hclean call.1 file).le
  | some e =>
    have he : e ∈ parseInbox file := by
      split_ifs at hexisting
      exact mem_of_exactDuplicate hexisting
    have hmerged := clean_mergeTags (clean_of_mem_parseInbox he).1 hclean
    exact (copies_appendToInbox htext hmerged call.1 _).le.trans (copies_removeInboxEntry_le he _)

theorem copies_saves_le (htext : ¬((∀ line ∈ textLines (r.redacted text),
      isHeading line = false) ∧ NoTagsFirst (textLines (r.redacted text))))
    (hclean : ∀ call ∈ calls, ∀ tag ∈ call.2, CleanTag tag) (file : InboxFile) :
    copies (strip (r.redacted text)) (calls.foldl (r.save text) file) ≤
      copies (strip (r.redacted text)) file := by
  induction calls generalizing file with
  | nil => exact le_rfl
  | cons call calls ih =>
    obtain ⟨hcall, hcalls⟩ := List.forall_mem_cons.1 hclean
    exact (ih hcalls (r.save text file call)).trans (copies_save_le htext hcall file)

/-- A retriever that redacts nothing, for texts in ASCII. -/
def plain : Retriever where
  unicode := .ascii
  lower := List.map Char.toLower
  lower_nil := rfl
  level := none

end Retriever

end OxenClaw.Memory
