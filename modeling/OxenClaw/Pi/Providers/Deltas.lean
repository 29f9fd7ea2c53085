import OxenClaw.Lib.Trace
import OxenClaw.Pi.Providers.OpenaiShared
import OxenClaw.Pi.Run.Assemble

/-!
# The stream delta by delta

For the tool calls of a stream only its deltas and the places where a `finish_reason`
stands count (`Wire`). `feed` takes the provider's loop and `run_attempt` through one of
them, and `state` through a stream; `calls_assembled` says that whole chunks do the same.

A delta either starts a call, or adds to one that is started, or waits until its slot has
both an id and a name (`feed_starts`, `feed_started`, `feed_waits`).
-/

namespace OxenClaw

open OpenaiShared

/-- What a stream says about tool calls. -/
inductive Wire where
  | delta (tc : ToolCallDelta)
  | finish

/-- The delta, if it is one. -/
def Wire.delta? : Wire → Option ToolCallDelta
  | .delta tc => some tc
  | .finish => none

/-- The deltas of a chunk, then its `finish_reason`. -/
def Chunk.wires (chunk : Chunk) : List Wire :=
  match chunk.choice with
  | none => []
  | some choice => choice.toolCalls.map .delta ++
      if given choice.finishReason = "" then [] else [.finish]

/-- A stream's chunks one after the other. -/
def wiresOf (chunks : List Chunk) : List Wire :=
  chunks.flatMap Chunk.wires

/-- The tool calls that `stream_openai_compatible` followed by `run_attempt` assembles. -/
def assembled (chunks : List Chunk) : List ToolCall :=
  (collect {} (streamOpenaiCompatible chunks)).tools.calls

namespace Deltas

/-- The deltas of a stream. -/
def deltas (d : List Wire) : List ToolCallDelta :=
  d.filterMap Wire.delta?

/-- What the deltas of an index make of its slot. -/
def slot (d : List Wire) (i : ℤ) : ToolCall :=
  slotOf ToolCallDelta.index {} ToolCall.merge (deltas d) i

/-- The indices of the deltas, in order. -/
def indices (d : List Wire) : List ℤ :=
  keysInOrder ToolCallDelta.index (deltas d)

/-- One step of the provider's loop, its events read by `run_attempt`. -/
def feed (s : StreamState × ToolBuffer) : Wire → StreamState × ToolBuffer
  | .delta tc => ((s.1.onToolCall tc).1, (s.1.onToolCall tc).2.foldl ToolBuffer.read s.2)
  | .finish => ({ s.1 with toolStarted := [], emittedStop := true }, s.2)

/-- Both after a stream. -/
def state (d : List Wire) : StreamState × ToolBuffer :=
  d.foldl feed ({}, {})

theorem state_append_singleton (d : List Wire) (w : Wire) :
    state (d ++ [w]) = feed (state d) w := by
  rw [state, List.foldl_append]
  rfl

/-! ## Slots -/

theorem deltas_append (d e : List Wire) : deltas (d ++ e) = deltas d ++ deltas e :=
  List.filterMap_append

@[simp] theorem slot_nil (i : ℤ) : slot [] i = {} := rfl

@[simp] theorem slot_append_finish (d : List Wire) (i : ℤ) :
    slot (d ++ [.finish]) i = slot d i := by
  rw [slot, deltas_append]
  exact congrArg (slotOf _ _ _ · i) (List.append_nil _)

theorem slot_append_delta (d : List Wire) (tc : ToolCallDelta) (i : ℤ) :
    slot (d ++ [.delta tc]) i =
      if tc.index = i then (slot d i).merge tc else slot d i := by
  rw [slot, deltas_append]
  exact slotOf_append_singleton _ _ _

theorem slot_append_delta_self (d : List Wire) (tc : ToolCallDelta) :
    slot (d ++ [.delta tc]) tc.index = (slot d tc.index).merge tc := by
  rw [slot_append_delta, if_pos rfl]

theorem slot_append_delta_of_ne (d : List Wire) {tc : ToolCallDelta} {i : ℤ}
    (h : i ≠ tc.index) : slot (d ++ [.delta tc]) i = slot d i := by
  rw [slot_append_delta, if_neg (Ne.symm h)]

theorem mem_indices {d : List Wire} {i : ℤ} :
    i ∈ indices d ↔ ∃ tc ∈ deltas d, tc.index = i :=
  mem_keysInOrder.trans List.mem_map

/-- A slot with something in it has had a delta. -/
theorem mem_indices_of_slot_ne {d : List Wire} {i : ℤ} (h : slot d i ≠ {}) : i ∈ indices d := by
  by_contra hi
  have hnil : (deltas d).filter (fun tc => tc.index = i) = [] :=
    List.filter_eq_nil_iff.2 fun tc htc => by
      simpa using fun hidx => hi (mem_indices.2 ⟨tc, htc, hidx⟩)
  rw [slot, slotOf, hnil] at h
  exact h rfl

theorem mem_indices_of_complete {d : List Wire} {i : ℤ} (h : (slot d i).Complete) :
    i ∈ indices d :=
  mem_indices_of_slot_ne fun hslot => h.1 (by rw [hslot])

/-- A slot stays complete. -/
theorem complete_merge {c : ToolCall} (h : c.Complete) (tc : ToolCallDelta) :
    (c.merge tc).Complete := by
  refine ⟨?_, ?_⟩
  · rw [ToolCall.merge]
    split_ifs with hid
    · exact h.1
    · exact hid
  · intro hname
    exact h.2 (String.append_eq_empty_iff.1 hname).1

theorem complete_append {d : List Wire} {i : ℤ} (h : (slot d i).Complete) (w : Wire) :
    (slot (d ++ [w]) i).Complete := by
  cases w with
  | finish => rwa [slot_append_finish]
  | delta tc =>
    rw [slot_append_delta]
    split_ifs
    · exact complete_merge h tc
    · exact h

/-! ## One step -/

/-- The indices whose calls are started. -/
def live (d : List Wire) : List ℤ :=
  (state d).1.toolStarted

/-- The ids of the start events. -/
def order (d : List Wire) : List String :=
  (state d).2.toolOrder

/-- What `run_attempt` holds for an id. -/
def held (d : List Wire) (id : String) : Option ToolSlot :=
  (state d).2.toolBuf.get? id

/-- The provider's slot of an index. -/
theorem getD_toolBuf (d : List Wire) (i : ℤ) :
    ((state d).1.toolBuf.get? i).getD {} = slot d i := by
  have hbuf : (state d).1.toolBuf = gather ToolCallDelta.index {} ToolCall.merge (deltas d) := by
    induction d using List.reverseRecOn with
    | nil => rfl
    | append_singleton d w ih =>
      rw [state_append_singleton, deltas_append]
      cases w with
      | finish =>
        refine ih.trans ?_
        rw [show deltas [Wire.finish] = [] from rfl, List.append_nil]
      | delta tc =>
        refine Eq.trans ?_ (gather_append_singleton _ _).symm
        rw [← ih]
        rfl
  rw [hbuf, getD_gather, slot]

/-- A delta that completes the slot of an index that is not started starts its call. -/
theorem append_starts {d : List Wire} {tc : ToolCallDelta} (hlive : tc.index ∉ live d)
    (hcomplete : ((slot d tc.index).merge tc).Complete) :
    live (d ++ [.delta tc]) = live d ++ [tc.index] ∧
      order (d ++ [.delta tc]) = order d ++ [((slot d tc.index).merge tc).id] ∧
      ∀ x, held (d ++ [.delta tc]) x =
        if x = ((slot d tc.index).merge tc).id then
          some { name := ((slot d tc.index).merge tc).name
                 args := given tc.function.arguments }
        else held d x := by
  have hc := congrArg (ToolCall.merge · tc) (getD_toolBuf d tc.index)
  generalize (slot d tc.index).merge tc = c at hc hcomplete
  have hs : (state d).1.Starts tc.index c := ⟨hlive, hcomplete⟩
  have hmem : tc.index ∈ (state d).1.toolStarted ++ [tc.index] :=
    List.mem_append_right _ List.mem_cons_self
  have hfeed : feed (state d) (.delta tc) =
      ({ (state d).1 with
          toolBuf := (state d).1.toolBuf.update tc.index {} (·.merge tc)
          toolStarted := (state d).1.toolStarted ++ [tc.index] },
        (fragment c.id (given tc.function.arguments)).foldl ToolBuffer.read
          ((state d).2.read (.toolUseStart c.id c.name))) := by
    simp [feed, StreamState.onToolCall, hc, hs, hmem, fragment]
  have hset : ((state d).2.read (.toolUseStart c.id c.name)).toolBuf.get? c.id =
      some { name := c.name } := Dict.get?_set_self _ _ _
  obtain ⟨horder, hget⟩ := read_fragment (given tc.function.arguments) hset
  rw [live, order, state_append_singleton, hfeed]
  refine ⟨rfl, horder, fun x => ?_⟩
  rw [held, state_append_singleton, hfeed]
  refine (hget x).trans ?_
  split_ifs with hx
  · rw [String.empty_append]
  · exact Dict.get?_set_of_ne hx _ _

/-- A delta of a started call adds its arguments. -/
theorem append_started {d : List Wire} {tc : ToolCallDelta} (hlive : tc.index ∈ live d)
    {slot₀ : ToolSlot} (hheld : held d ((slot d tc.index).merge tc).id = some slot₀) :
    live (d ++ [.delta tc]) = live d ∧ order (d ++ [.delta tc]) = order d ∧
      ∀ x, held (d ++ [.delta tc]) x =
        if x = ((slot d tc.index).merge tc).id then
          some { slot₀ with args := slot₀.args ++ given tc.function.arguments }
        else held d x := by
  have hc := congrArg (ToolCall.merge · tc) (getD_toolBuf d tc.index)
  generalize (slot d tc.index).merge tc = c at hc hheld
  have hs : ¬(state d).1.Starts tc.index c := fun h => h.1 hlive
  have hmem : tc.index ∈ (state d).1.toolStarted := hlive
  have hfeed : feed (state d) (.delta tc) =
      ({ (state d).1 with toolBuf := (state d).1.toolBuf.update tc.index {} (·.merge tc) },
        (fragment c.id (given tc.function.arguments)).foldl ToolBuffer.read (state d).2) := by
    simp [feed, StreamState.onToolCall, hc, hs, hmem, fragment]
  obtain ⟨horder, hget⟩ := read_fragment (given tc.function.arguments) hheld
  rw [live, order, state_append_singleton, hfeed]
  refine ⟨rfl, horder, fun x => ?_⟩
  rw [held, state_append_singleton, hfeed]
  exact hget x

/-- A delta of a slot that still lacks its id or its name is kept back. -/
theorem append_waits {d : List Wire} {tc : ToolCallDelta} (hlive : tc.index ∉ live d)
    (hcomplete : ¬((slot d tc.index).merge tc).Complete) :
    live (d ++ [.delta tc]) = live d ∧ order (d ++ [.delta tc]) = order d ∧
      ∀ x, held (d ++ [.delta tc]) x = held d x := by
  have hc := congrArg (ToolCall.merge · tc) (getD_toolBuf d tc.index)
  generalize (slot d tc.index).merge tc = c at hc hcomplete
  have hs : ¬(state d).1.Starts tc.index c := fun h => hcomplete h.2
  have hmem : tc.index ∉ (state d).1.toolStarted := hlive
  have hfeed : feed (state d) (.delta tc) =
      ({ (state d).1 with toolBuf := (state d).1.toolBuf.update tc.index {} (·.merge tc) },
        (state d).2) := by
    simp [feed, StreamState.onToolCall, hc, hs, hmem]
  rw [live, order, state_append_singleton, hfeed]
  refine ⟨rfl, rfl, fun x => ?_⟩
  rw [held, state_append_singleton, hfeed]
  rfl

theorem append_finish (d : List Wire) :
    live (d ++ [.finish]) = [] ∧ order (d ++ [.finish]) = order d ∧
      ∀ x, held (d ++ [.finish]) x = held d x := by
  rw [live, order, state_append_singleton]
  refine ⟨rfl, rfl, fun x => ?_⟩
  rw [held, state_append_singleton]
  rfl

/-! ## Whole chunks -/

theorem foldl_onToolCalls (tcs : List ToolCallDelta) (s : StreamState) (b : ToolBuffer) :
    ((s.onToolCalls tcs).1, (s.onToolCalls tcs).2.foldl ToolBuffer.read b) =
      (tcs.map Wire.delta).foldl feed (s, b) := by
  induction tcs generalizing s b with
  | nil => rfl
  | cons tc tcs ih =>
    rw [List.map_cons, List.foldl_cons, feed, ← ih, StreamState.onToolCalls, List.foldl_append]

theorem foldl_ends (s : StreamState) (b : ToolBuffer) : s.ends.foldl ToolBuffer.read b = b := by
  rw [StreamState.ends, List.foldl_map]
  induction s.toolStarted.insertionSort (· ≤ ·) with
  | nil => rfl
  | cons idx rest ih => exact ih

theorem foldl_onFinish (s : StreamState) (b : ToolBuffer) (finish : String) :
    ((s.onFinish finish).1, (s.onFinish finish).2.foldl ToolBuffer.read b) =
      (if finish = "" then [] else [Wire.finish]).foldl feed (s, b) := by
  rw [StreamState.onFinish]
  split_ifs
  · rfl
  · rw [List.foldl_append, foldl_ends]
    rfl

theorem foldl_onChunk (chunk : Chunk) (s : StreamState) (b : ToolBuffer) :
    ((s.onChunk chunk).1, (s.onChunk chunk).2.foldl ToolBuffer.read b) =
      chunk.wires.foldl feed (s, b) := by
  obtain ⟨usage, choice⟩ := chunk
  have husage : ((usage.map AssistantMessageEvent.usage).toList).foldl ToolBuffer.read b = b := by
    cases usage <;> rfl
  cases choice with
  | none => exact congrArg (s, ·) husage
  | some choice =>
    have hthinking := foldl_textEvent (.thinkingDelta · none) fun _ _ => rfl
    have htext := foldl_textEvent .textDelta fun _ _ => rfl
    have hcalls := foldl_onToolCalls choice.toolCalls s b
    simp only [StreamState.onChunk, StreamState.onChoice, Chunk.wires, List.foldl_append, husage,
      hthinking, htext]
    rw [← hcalls, ← foldl_onFinish]

theorem foldl_run (chunks : List Chunk) (s : StreamState) (b : ToolBuffer) :
    (s.run chunks).foldl ToolBuffer.read b = ((wiresOf chunks).foldl feed (s, b)).2 := by
  induction chunks generalizing s b with
  | nil =>
    rw [StreamState.run]
    split_ifs
    · rfl
    · rw [List.foldl_append, foldl_ends]
      rfl
  | cons chunk chunks ih =>
    rw [StreamState.run, List.foldl_append, ih, wiresOf, wiresOf, List.flatMap_cons,
      List.foldl_append, ← foldl_onChunk]

theorem noError_ends (s : StreamState) : NoError s.ends := by
  rintro event h
  obtain ⟨idx, -, rfl⟩ := List.mem_map.1 h
  rfl

theorem noError_onToolCalls (tcs : List ToolCallDelta) (s : StreamState) :
    NoError (s.onToolCalls tcs).2 := by
  induction tcs generalizing s with
  | nil => exact List.forall_mem_nil _
  | cons tc tcs ih =>
    exact noError_append.2 ⟨noError_append.2 ⟨noError_ite rfl, noError_ite rfl⟩, ih _⟩

theorem noError_onFinish (s : StreamState) (finish : String) : NoError (s.onFinish finish).2 := by
  rw [StreamState.onFinish]
  split_ifs
  · exact List.forall_mem_nil _
  · exact noError_append.2 ⟨noError_ends s, noError_singleton rfl⟩

theorem noError_onChunk (s : StreamState) (chunk : Chunk) : NoError (s.onChunk chunk).2 := by
  obtain ⟨usage, choice⟩ := chunk
  have husage : NoError ((usage.map AssistantMessageEvent.usage).toList) := by
    cases usage with
    | none => exact List.forall_mem_nil _
    | some usage => exact noError_singleton rfl
  cases choice with
  | none => exact husage
  | some choice =>
    refine noError_append.2 ⟨husage, noError_append.2 ⟨noError_append.2 ⟨noError_append.2 ⟨?_, ?_⟩,
      noError_onToolCalls _ _⟩, noError_onFinish _ _⟩⟩
    · exact noError_textEvent (fun _ => rfl) _
    · exact noError_textEvent (fun _ => rfl) _

/-- The provider's loop yields no error event. -/
theorem noError_run (chunks : List Chunk) (s : StreamState) : NoError (s.run chunks) := by
  induction chunks generalizing s with
  | nil =>
    rw [StreamState.run]
    split_ifs
    · exact List.forall_mem_nil _
    · exact noError_append.2 ⟨noError_ends s, noError_singleton rfl⟩
  | cons chunk chunks ih => exact noError_append.2 ⟨noError_onChunk s chunk, ih _⟩

/-- The calls are those of the deltas one by one. -/
theorem assembled_eq (chunks : List Chunk) : assembled chunks = (state (wiresOf chunks)).2.calls := by
  rw [assembled, streamOpenaiCompatible, tools_collect (noError_run chunks {}), foldl_run]
  rfl

/-- The deltas of whole chunks. -/
theorem deltas_wiresOf (chunks : List Chunk) : deltas (wiresOf chunks) =
    chunks.flatMap fun chunk => (chunk.choice.map Choice.toolCalls).getD [] := by
  have hchunk : ∀ chunk : Chunk,
      deltas chunk.wires = (chunk.choice.map Choice.toolCalls).getD [] := by
    rintro ⟨usage, choice⟩
    cases choice with
    | none => rfl
    | some choice =>
      have hmap : deltas (choice.toolCalls.map .delta) = choice.toolCalls := by
        rw [deltas, List.filterMap_map]
        exact List.filterMap_some
      rw [Chunk.wires, deltas_append, hmap]
      split_ifs <;> exact List.append_nil _
  induction chunks with
  | nil => rfl
  | cons chunk chunks ih =>
    rw [wiresOf, List.flatMap_cons, deltas_append, hchunk, List.flatMap_cons, ← ih, wiresOf]

end Deltas

end OxenClaw
