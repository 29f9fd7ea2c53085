import OxenClaw.Lib.Exchange
import OxenClaw.Pi.Messages

/-!
# Tool calls and tool results of a transcript

The ids that each message calls and answers. `ResultsFollow` : each result has its call before it.
A front of a transcript keeps that, and keeps its calls answered but for those of its last message
(`ResultsFollow.of_prefix`, `wellPaired_prefix_iff`).
-/

namespace OxenClaw

namespace Message

def calledIds (m : Message) : List String := m.toolUses.map ToolUseBlock.id
def answeredIds (m : Message) : List String := m.results.map ToolResultBlock.toolUseId

end Message

/-- Each tool result has its call before it. -/
def ResultsFollow (messages : List Message) : Prop :=
  Exchange.Refers Message.calledIds Message.answeredIds [] messages

instance (messages : List Message) : Decidable (ResultsFollow messages) :=
  inferInstanceAs (Decidable (Exchange.Refers _ _ [] messages))

variable {front messages : List Message}

theorem ResultsFollow.of_prefix (h : ResultsFollow messages) (hfront : front <+: messages) :
    ResultsFollow front := by
  obtain ⟨rest, rfl⟩ := hfront
  exact ((Exchange.refers_append front rest []).1 h).1

theorem wellPaired_prefix_iff (h : WellPaired messages) (hfront : front <+: messages) :
    WellPaired front ↔ ∀ m ∈ front.getLast?, ¬m.Calls := by
  obtain ⟨rest, rfl⟩ := hfront
  exact followed_left_iff h

/-- A call that stands before another message of the front is answered there. -/
theorem answeredBy_of_prefix (h : WellPaired messages) (hfront : front <+: messages)
    {before after : List Message} {m next : Message} (hm : front = before ++ m :: next :: after)
    (hcalls : m.Calls) : m.AnsweredBy next := by
  obtain ⟨rest, rfl⟩ := hfront
  rw [hm, List.append_assoc] at h
  have hpair : WellPaired (m :: next :: (after ++ rest)) := Followed.of_append_right h
  exact (followed_cons_cons.1 hpair).1 hcalls

end OxenClaw
