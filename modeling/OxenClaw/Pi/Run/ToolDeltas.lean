import OxenClaw.Pi.Run.Assemble

/-!
# What becomes of the deltas of a tool call

`run_attempt` buffers the deltas of a tool call under its id. A start event sets the buffer of its
id up again, so that what came before it is gone, and a delta whose id is never started is in no
call. Nothing is lost exactly if no call has a delta before its last start event, unless the call is
flagged (`deltasKept_iff`).
-/

namespace OxenClaw

/-- The events `run_attempt` reads : an error is the last one. -/
def eventsRead : List AssistantMessageEvent → List AssistantMessageEvent
  | [] => []
  | event :: events => if event.isError then [event] else event :: eventsRead events

/-- The delta an event has for a call. -/
def AssistantMessageEvent.deltaFor (tid : String) : AssistantMessageEvent → String
  | .toolUseInputDelta id inputDelta => if id = tid then inputDelta else ""
  | _ => ""

/-- All deltas for a call, in arrival order. -/
def allDeltas (events : List AssistantMessageEvent) (tid : String) : String :=
  String.join (events.map (·.deltaFor tid))

/-- The block is flagged : the call has no name, or its text cannot be repaired. -/
def Flagged (loads : String → Option Json) (name args : String) : Prop :=
  name = "" ∨ args ≠ "" ∧ (JsonRepair.repairAndParse loads args).1 = .null

/-- Every call has all deltas of its id, or is flagged, and every delta is for a call. -/
structure DeltasKept (loads : String → Option Json) (events : List AssistantMessageEvent) :
    Prop where
  complete : ∀ call ∈ (collect {} events).tools.calls,
    call.arguments = allDeltas (eventsRead events) call.id ∨
      Flagged loads call.name call.arguments
  called : ∀ tid, allDeltas (eventsRead events) tid ≠ "" →
    ∃ call ∈ (collect {} events).tools.calls, call.id = tid

/-- A call with deltas is started, and has none before its last start event, unless the name in it
is empty or the text after it cannot be repaired. -/
structure StartsFirst (loads : String → Option Json) (events : List AssistantMessageEvent) :
    Prop where
  started : ∀ tid, allDeltas events tid ≠ "" →
    ∃ name, AssistantMessageEvent.toolUseStart tid name ∈ events
  last : ∀ before tid name after, events = before ++ .toolUseStart tid name :: after →
    (∀ name', AssistantMessageEvent.toolUseStart tid name' ∉ after) →
    allDeltas before tid = "" ∨ Flagged loads name (allDeltas after tid)

variable {loads : String → Option Json} {events : List AssistantMessageEvent}

/-- A flagged block has the text as it came. -/
theorem toolBlock_of_flagged {call : ToolCall} (h : Flagged loads call.name call.arguments) :
    (toolBlock loads call).map (·.input) =
      some [("_raw", .str call.arguments), ("_parse_error", .bool true)] := by
  unfold toolBlock
  simp only
  rcases h with hname | ⟨hargs, hnull⟩
  · rw [if_pos hname]
    rfl
  · rw [if_neg hargs, hnull]
    split_ifs <;> rfl

theorem allDeltas_append (es fs : List AssistantMessageEvent) (tid : String) :
    allDeltas (es ++ fs) tid = allDeltas es tid ++ allDeltas fs tid := by
  rw [allDeltas, List.map_append, String.join_append]
  rfl

theorem allDeltas_cons (event : AssistantMessageEvent) (es : List AssistantMessageEvent)
    (tid : String) : allDeltas (event :: es) tid = event.deltaFor tid ++ allDeltas es tid := by
  rw [← List.singleton_append, allDeltas_append]
  simp [allDeltas, String.join]

/-- The buffer of the run is the one of the events read. -/
theorem tools_collect_eq (events : List AssistantMessageEvent) (c : Collected) :
    (collect c events).tools = (eventsRead events).foldl ToolBuffer.read c.tools := by
  induction events generalizing c with
  | nil => rfl
  | cons event events ih =>
    rw [collect, eventsRead]
    split_ifs with herror
    · rcases event with _ | _ | _ | _ | _ | _ | _ | _ <;> rfl
    · rw [ih, List.foldl_cons]
      rcases event with _ | _ | _ | _ | _ | _ | _ | _ <;> rfl

/-- The ids of the calls are those of the start events. -/
theorem mem_toolOrder_iff {tid : String} (events : List AssistantMessageEvent) :
    tid ∈ (events.foldl ToolBuffer.read {}).toolOrder ↔
      ∃ name, AssistantMessageEvent.toolUseStart tid name ∈ events := by
  induction events using List.reverseRecOn with
  | nil => simp
  | append_singleton events event ih =>
    rw [List.foldl_append, List.foldl_cons, List.foldl_nil]
    rcases event with _ | _ | ⟨id, name⟩ | _ | _ | _ | _ | _
    case toolUseStart =>
      simp only [ToolBuffer.read, List.mem_append, ih, List.mem_singleton,
        AssistantMessageEvent.toolUseStart.injEq, exists_or]
      refine or_congr_right ⟨fun h => ⟨name, h, rfl⟩, ?_⟩
      rintro ⟨_, h, -⟩
      exact h
    all_goals simpa [ToolBuffer.read] using ih

/-- With no further start event a call only gets its deltas. -/
theorem get?_foldl_read {tid : String} {b : ToolBuffer} {slot : ToolSlot}
    (hslot : b.toolBuf.get? tid = some slot)
    (hnone : ∀ name, AssistantMessageEvent.toolUseStart tid name ∉ events) :
    (events.foldl ToolBuffer.read b).toolBuf.get? tid =
      some { slot with args := slot.args ++ allDeltas events tid } := by
  induction events generalizing b slot with
  | nil =>
    rw [List.foldl_nil, hslot]
    simp [allDeltas]
  | cons event events ih =>
    have hrest : ∀ name, AssistantMessageEvent.toolUseStart tid name ∉ events :=
      fun name h => hnone name (List.mem_cons_of_mem _ h)
    rw [List.foldl_cons, allDeltas_cons, ← String.append_assoc]
    suffices hread : (b.read event).toolBuf.get? tid =
        some { slot with args := slot.args ++ event.deltaFor tid } from ih hread hrest
    rcases event with _ | _ | ⟨id, name⟩ | ⟨id, delta⟩ | _ | _ | _ | _
    case toolUseStart =>
      have hne : tid ≠ id := by
        rintro rfl
        exact hnone name List.mem_cons_self
      rw [ToolBuffer.read, Dict.get?_set_of_ne hne, hslot]
      simp [AssistantMessageEvent.deltaFor]
    case toolUseInputDelta =>
      rw [ToolBuffer.read, Dict.get?_update]
      by_cases hid : tid = id
      · simp [AssistantMessageEvent.deltaFor, ← hid, hslot]
      · simp [AssistantMessageEvent.deltaFor, hid, Ne.symm hid, hslot]
    all_goals simpa [ToolBuffer.read, AssistantMessageEvent.deltaFor] using hslot

/-- A call has what came after its last start event. -/
theorem get?_of_lastStart {after : List AssistantMessageEvent} {tid : String}
    (before : List AssistantMessageEvent) (name : String)
    (hnone : ∀ name', AssistantMessageEvent.toolUseStart tid name' ∉ after) :
    ((before ++ .toolUseStart tid name :: after).foldl ToolBuffer.read {}).toolBuf.get? tid =
      some { name, args := allDeltas after tid } := by
  rw [List.foldl_append, List.foldl_cons, get?_foldl_read (Dict.get?_set_self _ tid _) hnone]
  simp

/-- A call that is started has a last start event. -/
theorem exists_lastStart {tid name : String}
    (h : AssistantMessageEvent.toolUseStart tid name ∈ events) :
    ∃ before name' after, events = before ++ .toolUseStart tid name' :: after ∧
      ∀ name', AssistantMessageEvent.toolUseStart tid name' ∉ after := by
  induction events generalizing name with
  | nil => cases h
  | cons event events ih =>
    by_cases hrest : ∃ name', AssistantMessageEvent.toolUseStart tid name' ∈ events
    · obtain ⟨name', hname'⟩ := hrest
      obtain ⟨before, last, after, hsplit, hnone⟩ := ih hname'
      exact ⟨event :: before, last, after, by rw [hsplit, List.cons_append], hnone⟩
    · rcases List.mem_cons.1 h with rfl | h
      · exact ⟨[], name, events, rfl, fun name' h => hrest ⟨name', h⟩⟩
      · exact absurd ⟨name, h⟩ hrest

/-- The call of an id is what its last start event and the deltas after it make. -/
theorem mem_calls_iff {before after : List AssistantMessageEvent} {tid name : String}
    (hnone : ∀ name', AssistantMessageEvent.toolUseStart tid name' ∉ after) (call : ToolCall)
    (hid : call.id = tid) :
    call ∈ ((before ++ .toolUseStart tid name :: after).foldl ToolBuffer.read {}).calls ↔
      call = { id := tid, name, arguments := allDeltas after tid } := by
  have hslot := get?_of_lastStart before name hnone
  unfold ToolBuffer.calls
  rw [List.mem_map]
  constructor
  · rintro ⟨tid', -, rfl⟩
    obtain rfl : tid' = tid := hid
    simp only [hslot, Option.getD_some]
  · rintro rfl
    refine ⟨tid, (mem_toolOrder_iff _).2 ⟨name, by simp⟩, ?_⟩
    simp only [hslot, Option.getD_some]

/-- The deltas before the last start event are what a call lacks. -/
theorem arguments_eq_iff (before after : List AssistantMessageEvent) (tid name : String) :
    allDeltas after tid = allDeltas (before ++ .toolUseStart tid name :: after) tid ↔
      allDeltas before tid = "" := by
  rw [allDeltas_append, allDeltas_cons]
  simp only [AssistantMessageEvent.deltaFor, String.empty_append, ← String.toList_inj,
    String.toList_append, List.self_eq_append_left, String.toList_empty]

/-- No delta is lost exactly if every call with deltas has all of them after its last start event,
or is flagged. -/
theorem deltasKept_iff (loads : String → Option Json) (events : List AssistantMessageEvent) :
    DeltasKept loads events ↔ StartsFirst loads (eventsRead events) := by
  have htools : (collect {} events).tools = (eventsRead events).foldl ToolBuffer.read {} :=
    tools_collect_eq events {}
  constructor
  · intro hkept
    refine ⟨fun tid hdeltas => ?_, fun before tid name after hsplit hnone => ?_⟩
    · obtain ⟨call, hcall, rfl⟩ := hkept.called tid hdeltas
      rw [htools] at hcall
      obtain ⟨tid, htid, rfl⟩ := List.mem_map.1 hcall
      exact (mem_toolOrder_iff _).1 htid
    · have hcall := hkept.complete { id := tid, name, arguments := allDeltas after tid }
      rw [htools, hsplit, mem_calls_iff hnone _ rfl, arguments_eq_iff] at hcall
      exact hcall rfl
  · intro hfirst
    refine ⟨fun call hcall => ?_, fun tid hdeltas => ?_⟩
    · rw [htools] at hcall
      obtain ⟨name, hstart⟩ : ∃ name,
          AssistantMessageEvent.toolUseStart call.id name ∈ eventsRead events := by
        obtain ⟨tid, htid, rfl⟩ := List.mem_map.1 hcall
        exact (mem_toolOrder_iff _).1 htid
      obtain ⟨before, name, after, hsplit, hnone⟩ := exists_lastStart hstart
      rw [hsplit] at hcall ⊢
      rw [(mem_calls_iff hnone call rfl).1 hcall, arguments_eq_iff]
      exact hfirst.last before call.id name after hsplit hnone
    · obtain ⟨name, hstart⟩ := hfirst.started tid hdeltas
      obtain ⟨before, name, after, hsplit, hnone⟩ := exists_lastStart hstart
      refine ⟨{ id := tid, name, arguments := allDeltas after tid }, ?_, rfl⟩
      rw [htools, hsplit]
      exact (mem_calls_iff hnone _ rfl).2 rfl

/-- The deltas come before their start event, and the tool is called without arguments. -/
theorem earlyDelta_not_kept :
    ¬∃ loads, DeltasKept loads
      [.toolUseInputDelta "a" "\x7b\"path\": \"x\"\x7d", .toolUseStart "a" "delete"] := by
  rintro ⟨loads, hkept⟩
  rcases hkept.complete ⟨"a", "delete", ""⟩ (List.mem_singleton.2 rfl) with h | h | h
  · exact absurd h (by decide)
  · exact absurd h (by decide)
  · exact h.1 rfl

end OxenClaw
