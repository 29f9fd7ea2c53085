import OxenClaw.Lib.Runs
import OxenClaw.Memory.Retriever

/-!
# Saves that interleave

`MemoryRetriever.save` reads the inbox, awaits a search where the retriever has embeddings, and
then takes out the entry the search found by the lines it had when the inbox was read. Other
saves may rewrite the file while the search is under way.

A run is a list of events : a save starts, or a search ends (`SaveEvent`). What the saves wrote
and what they chose to replace is kept beside the inbox. No memory is lost in a run in which
each save writes what is read back, and takes out an entry only where it still is, or where the
file has no lines any more (`noneLost_of_run`).
-/

namespace OxenClaw.Memory

open Py

/-- What an entry says : its time, its body and its tags. -/
abbrev MemoryItem := List Char × List Char × List (List Char)

/-- A save that awaits its search. -/
structure PendingSave where
  text : List Char
  tags : List (List Char)
  /-- The inbox as it was parsed. -/
  entries : List InboxEntry

structure SaveState where
  file : InboxFile
  pending : List PendingSave := []
  /-- What the saves wrote. -/
  saved : List MemoryItem := []
  /-- What the saves chose as duplicates. -/
  replaced : List MemoryItem := []

inductive SaveEvent where
  /-- A save runs up to its search, or to its end if there is none. -/
  | start (text : List Char) (tags : List (List Char)) (embeds : Bool) (now : Timestamp)
  /-- The search of a pending save ends : the lines of a chunk of the inbox, or nothing that is
  similar enough. -/
  | resume (index : ℕ) (hit : Option (ℕ × ℕ)) (now : Timestamp)

/-- The entry whose lines cover those of the chunk. -/
def covering (entries : List InboxEntry) (hit : Option (ℕ × ℕ)) : Option InboxEntry :=
  hit.bind fun chunk => entries.find? fun e => e.startLine ≤ chunk.1 ∧ chunk.2 ≤ e.endLine

/-- The tags a save writes. -/
def tagsWith (existing : Option InboxEntry) (tags : List (List Char)) : List (List Char) :=
  match existing with
  | some e => mergeTags e.tags tags
  | none => tags

namespace SaveState

variable (r : Retriever)

/-- The end of a save, once its duplicate is known. -/
def finish (s : SaveState) (existing : Option InboxEntry) (text : List Char)
    (tags : List (List Char)) (now : Timestamp) : SaveState :=
  { s with
    file := r.replaceMemory s.file existing text tags now
    saved := s.saved ++ [r.entryOf text (tagsWith existing tags) now]
    replaced := s.replaced ++ (existing.map InboxEntry.memory).toList }

/-- What a save finds in the inbox before any search. -/
def probe (s : SaveState) (text : List Char) : Option InboxEntry :=
  if strip text = [] then none else r.exactDuplicate (parseInbox s.file) text

/-- Whether a save goes on to search. -/
def searches (s : SaveState) (text : List Char) (embeds : Bool) : Prop :=
  embeds = true ∧ strip text ≠ [] ∧ parseInbox s.file ≠ [] ∧ s.probe r text = none

instance (s : SaveState) (text : List Char) (embeds : Bool) :
    Decidable (s.searches r text embeds) :=
  inferInstanceAs (Decidable (_ ∧ _))

def step (s : SaveState) : SaveEvent → SaveState
  | .start text tags embeds now =>
    if s.searches r text embeds then
      { s with pending := s.pending ++ [⟨text, tags, parseInbox s.file⟩] }
    else s.finish r (s.probe r text) text tags now
  | .resume index hit now =>
    match s.pending[index]? with
    | some p =>
      { s with pending := s.pending.eraseIdx index }.finish r (covering p.entries hit) p.text
        p.tags now
    | none => s

/-- Everything that was in the inbox or was saved is there, or a save chose it as its duplicate. -/
def NoneLost (before : List MemoryItem) (s : SaveState) : Prop :=
  ∀ m ∈ before ++ s.saved, m ∈ (parseInbox s.file).map InboxEntry.memory ∨ m ∈ s.replaced

/-- The entry is where it was when the inbox was read, or there are no such lines any more. -/
def InPlace (file : InboxFile) (e : InboxEntry) : Prop :=
  e ∈ parseInbox file ∨ file.lines.length < e.startLine

/-- What is written can be read back, and what is taken out is in place. -/
def Finishes (s : SaveState) (existing : Option InboxEntry) (text : List Char)
    (tags : List (List Char)) : Prop :=
  Recordable (r.redacted text) (tagsWith existing tags) ∧ ∀ e ∈ existing, InPlace s.file e

instance (file : InboxFile) (e : InboxEntry) : Decidable (InPlace file e) :=
  inferInstanceAs (Decidable (_ ∨ _))

instance (s : SaveState) (existing : Option InboxEntry) (text : List Char) (tags : List (List Char)) :
    Decidable (s.Finishes r existing text tags) :=
  inferInstanceAs (Decidable (_ ∧ _))

/-- The condition on an event, in the state it finds. -/
def Careful (s : SaveState) : SaveEvent → Prop
  | .start text tags embeds _ =>
    ¬s.searches r text embeds → s.Finishes r (s.probe r text) text tags
  | .resume index hit _ =>
    ∀ p ∈ s.pending[index]?, s.Finishes r (covering p.entries hit) p.text p.tags

instance (s : SaveState) : (e : SaveEvent) → Decidable (s.Careful r e)
  | .start _ _ _ _ => inferInstanceAs (Decidable (_ → _))
  | .resume _ _ _ => inferInstanceAs (Decidable (∀ _ ∈ _, _))

variable {r} {s : SaveState} {before : List MemoryItem}

theorem removeInboxEntry_of_behind {file : InboxFile} {e : InboxEntry}
    (h : file.lines.length < e.startLine) : removeInboxEntry file e = (false, file) := by
  rw [removeInboxEntry]
  split_ifs with hfile hrange
  · rfl
  · rfl
  · omega

/-- What the inbox says once a save has finished : what it said, but for the entry the save took
out, and what the save wrote. -/
theorem memory_finish {existing : Option InboxEntry} {text : List Char}
    {tags : List (List Char)} (h : s.Finishes r existing text tags) (now : Timestamp) :
    ∃ kept, (parseInbox (s.finish r existing text tags now).file).map InboxEntry.memory =
        kept ++ [r.entryOf text (tagsWith existing tags) now] ∧
      ∀ m ∈ (parseInbox s.file).map InboxEntry.memory,
        m ∈ kept ∨ m ∈ (existing.map InboxEntry.memory).toList := by
  obtain ⟨⟨hclean, htext, hsomething⟩, hplace⟩ := h
  cases existing with
  | none =>
    obtain ⟨es, hparse, hes⟩ := Retriever.exists_parseInbox_newMemory s.file htext hclean now
    rw [if_pos hsomething] at hes
    refine ⟨(parseInbox s.file).map InboxEntry.memory, ?_, fun m hm => Or.inl hm⟩
    rw [← hes, ← List.map_append, ← hparse]
    rfl
  | some e =>
    have hwritten : strip (r.redacted text) ≠ [] ∨ mergeTags e.tags tags ≠ [] := hsomething
    rcases hplace e rfl with he | hbehind
    · obtain ⟨front, behind, hfile⟩ := List.append_of_mem he
      obtain ⟨behind', es, hparse, hbehind, hes⟩ :=
        Retriever.exists_parseInbox_replaceMemory hfile htext hclean now
      rw [if_pos hwritten] at hes
      refine ⟨(front ++ behind').map InboxEntry.memory, ?_, fun m hm => ?_⟩
      · refine Eq.trans ?_ (congrArg ((front ++ behind').map InboxEntry.memory ++ ·) hes)
        rw [← List.map_append, ← hparse]
        rfl
      · rw [hfile, List.map_append, List.map_cons] at hm
        rw [List.map_append, hbehind]
        simp only [Option.map_some, Option.toList_some, List.mem_append, List.mem_cons,
          List.not_mem_nil, or_false] at hm ⊢
        tauto
    · have hsame : s.finish r (some e) text tags now = { s.finish r none text
          (mergeTags e.tags tags) now with
            replaced := s.replaced ++ [e.memory] } := by
        rw [finish, finish, Retriever.replaceMemory, Retriever.replaceMemory,
          removeInboxEntry_of_behind hbehind]
        rfl
      obtain ⟨es, hparse, hes⟩ := Retriever.exists_parseInbox_newMemory s.file htext hclean now
      rw [if_pos hsomething] at hes
      refine ⟨(parseInbox s.file).map InboxEntry.memory, ?_, fun m hm => Or.inl hm⟩
      rw [hsame, ← hes, ← List.map_append, ← hparse]
      rfl

/-- A save that finishes so loses nothing. -/
theorem NoneLost.finish (hs : NoneLost before s) {existing : Option InboxEntry}
    {text : List Char} {tags : List (List Char)} (h : s.Finishes r existing text tags)
    (now : Timestamp) : NoneLost before (s.finish r existing text tags now) := by
  obtain ⟨kept, hparse, hkept⟩ := memory_finish h now
  intro m hm
  rw [hparse]
  have hold : m ∈ before ++ s.saved ∨ m = r.entryOf text (tagsWith existing tags) now := by
    simpa [SaveState.finish, or_assoc] using hm
  rcases hold with hold | rfl
  · rcases hs m hold with hin | hreplaced
    · rcases hkept m hin with hin | hreplaced
      · exact Or.inl (List.mem_append_left _ hin)
      · exact Or.inr (List.mem_append_right _ hreplaced)
    · exact Or.inr (List.mem_append_left _ hreplaced)
  · exact Or.inl (List.mem_append_right _ (List.mem_singleton_self _))

theorem NoneLost.step (hs : NoneLost before s) {e : SaveEvent} (he : s.Careful r e) :
    NoneLost before (s.step r e) := by
  cases e with
  | start text tags embeds now =>
    rw [SaveState.step]
    split_ifs with hsearch
    · exact hs
    · exact hs.finish (he hsearch) now
  | resume index hit now =>
    rw [SaveState.step]
    cases hp : s.pending[index]? with
    | none => exact hs
    | some p =>
      have hrest : NoneLost before { s with pending := s.pending.eraseIdx index } := hs
      exact hrest.finish (he p hp) now

/-- Two facts, and a third one whose search finds nothing while the first is saved again. -/
def unrelated : List SaveEvent :=
  [.start "Drinks tea.".toList ["diet".toList] false newYear,
    .start "Likes jazz.".toList [] true newYear,
    .start "drinks tea".toList ["auto".toList] true newYear,
    .resume 0 none newYear]

/-- Three facts, and a fourth one whose search ends after the first fact was saved again. -/
def shifted : List SaveEvent :=
  [.start "Drinks tea.".toList [] false newYear,
    .start "Likes jazz.".toList [] false newYear,
    .start "Lives in Suwon.".toList [] false newYear,
    .start "Enjoys jazz.".toList [] true newYear,
    .start "Drinks tea.".toList [] true newYear,
    .resume 0 (some (6, 8)) newYear]

end SaveState

end OxenClaw.Memory
