import OxenClaw.Lib.Slots
import OxenClaw.Pi.Run.Assemble

/-!
# The native Ollama stream

`stream_ollama_native` from the decoded NDJSON frames on, and what `run_attempt` makes of
its tool calls. A call that comes without an id gets one from its place in its own frame,
so calls of different frames can have one id, and the buffer keeps the last of them. The
message has every call as the model made it exactly if calls of one id are alike, no call
comes after the `done` frame, and no call has arguments that are no object
(`message_hasOwnCalls_iff`).

`json.dumps` and `json.loads` are parameters.
-/

namespace OxenClaw.Ollama

/-- One of `message["tool_calls"]`. -/
structure NativeCall where
  id : Option String := none
  name : Option String := none
  arguments : Option Json := none

/-- One NDJSON frame. -/
structure Frame where
  thinking : Option String := none
  content : Option String := none
  toolCalls : List NativeCall := []
  done : Bool := false
  doneReason : Option String := none
  promptEvalCount : Option ℤ := none
  evalCount : Option ℤ := none

/-- `args`, where it is no string : nothing stands for the empty object. -/
def NativeCall.value (tc : NativeCall) : Json :=
  match tc.arguments with
  | some v => if v.truthy then v else .obj []
  | none => .obj []

/-- `args_str`. -/
def NativeCall.argsText (dumps : Json → String) (tc : NativeCall) : String :=
  match tc.arguments with
  | some (.str s) => s
  | _ => dumps tc.value

/-- A call with a name, its id from its place `idx` in the frame if it has none. -/
def NativeCall.toCall (dumps : Json → String) (traceId : String) (tc : NativeCall) (idx : ℕ) :
    ToolCall where
  id := if given tc.id = "" then "call_" ++ traceId ++ "_" ++ toString idx else given tc.id
  name := given tc.name
  arguments := tc.argsText dumps

/-- `_normalize_tool_call`. -/
def normalizeToolCall (dumps : Json → String) (traceId : String) (tc : NativeCall) (idx : ℕ) :
    Option ToolCall :=
  if given tc.name = "" then none else some (tc.toCall dumps traceId idx)

/-- The calls of a frame. -/
def Frame.calls (dumps : Json → String) (traceId : String) (frame : Frame) : List ToolCall :=
  frame.toolCalls.zipIdx.filterMap fun p => normalizeToolCall dumps traceId p.1 p.2

/-- The events of one call. -/
def callEvents (call : ToolCall) : List AssistantMessageEvent :=
  [.toolUseStart call.id call.name] ++ fragment call.id call.arguments ++ [.toolUseEnd call.id]

/-- A count of the usage. -/
def countJson (n : Option ℤ) : Json :=
  (n.map Json.int).getD .null

/-- `usage_out`. -/
def Frame.usage (frame : Frame) : Args :=
  [("prompt_tokens", countJson frame.promptEvalCount),
    ("completion_tokens", countJson frame.evalCount),
    ("total_tokens", .int (frame.promptEvalCount.getD 0 + frame.evalCount.getD 0))]

/-- The events of a `done` frame, after the calls `out`. -/
def Frame.doneEvents (frame : Frame) (out : List ToolCall) : List AssistantMessageEvent :=
  let reason := if given frame.doneReason = "" then "stop" else given frame.doneReason
  [.usage frame.usage, .stop (if out.isEmpty then reason else "tool_calls")]

/-- The loop over the frames, with the calls so far. -/
def streamFrames (dumps : Json → String) (traceId : String) :
    List ToolCall → List Frame → List AssistantMessageEvent
  | _, [] => []
  | out, frame :: frames =>
    let calls := frame.calls dumps traceId
    textEvent (.thinkingDelta · none) (given frame.thinking) ++
      textEvent .textDelta (given frame.content) ++ calls.flatMap callEvents ++
      if frame.done then frame.doneEvents (out ++ calls)
      else streamFrames dumps traceId (out ++ calls) frames

/-- `stream_ollama_native`. -/
def streamOllamaNative (dumps : Json → String) (traceId : String) (frames : List Frame) :
    List AssistantMessageEvent :=
  streamFrames dumps traceId [] frames

/-! ## The calls the model made -/

/-- A well-formed call is one `_normalize_tool_call` accepts. -/
def NativeCall.WellFormed (tc : NativeCall) : Prop :=
  given tc.name ≠ ""

instance : DecidablePred NativeCall.WellFormed := fun tc =>
  inferInstanceAs (Decidable (given tc.name ≠ ""))

/-- The well-formed calls of some frames. -/
def wellFormedCalls (frames : List Frame) : List NativeCall :=
  frames.flatMap fun frame => frame.toolCalls.filter fun tc => tc.WellFormed

/-- The frames the loop reads : to the first `done` one. -/
def readFrames : List Frame → List Frame
  | [] => []
  | frame :: frames => if frame.done then [frame] else frame :: readFrames frames

/-- The frames after it. -/
def unreadFrames : List Frame → List Frame
  | [] => []
  | frame :: frames => if frame.done then frames else unreadFrames frames

/-- The well-formed calls that are read, each with its place in its frame. -/
def placedCalls (frames : List Frame) : List (NativeCall × ℕ) :=
  (readFrames frames).flatMap fun frame => frame.toolCalls.zipIdx.filter fun p => p.1.WellFormed

/-- A call's own name and arguments, if there is a block that can have them : arguments that
are text are decoded as `run_attempt` does. -/
def NativeCall.own (loads : String → Option Json) (tc : NativeCall) : Option (String × Args) :=
  match tc.arguments with
  | some (.str s) =>
    (toolBlock loads { name := given tc.name, arguments := s }).map fun b => (b.name, b.input)
  | _ =>
    match tc.value with
    | .obj fields => some (given tc.name, fields)
    | _ => none

/-- The assembled message has one tool call for each well-formed call of the frames, in
order, with that call's own name and arguments. -/
def HasOwnCalls (lower : String → String) (sameLetter : Char → Char → Bool)
    (dumps : Json → String) (loads : String → Option Json) (traceId : String)
    (frames : List Frame) : Prop :=
  ∃ r, runAttempt lower sameLetter loads (streamOllamaNative dumps traceId frames) = some r ∧
    r.message.toolUses.map (fun b => some (b.name, b.input)) =
      (wellFormedCalls frames).map (NativeCall.own loads)

/-! ## The buffer after the stream -/

section Buffer

variable {dumps : Json → String} {traceId : String}

/-- What is left of the calls of an id : the last one. -/
def lastCall (calls : List ToolCall) (id : String) : ToolCall :=
  slotOf ToolCall.id {} (fun _ call => call) calls id

theorem exists_lastCall {calls : List ToolCall} {call : ToolCall} (h : call ∈ calls) :
    ∃ last ∈ calls, last.id = call.id ∧ lastCall calls call.id = last :=
  exists_mem_slotOf_replace (List.mem_map_of_mem h)

/-- A call's events start it and fill its slot. -/
theorem read_callEvents (b : ToolBuffer) (call : ToolCall) :
    ((callEvents call).foldl ToolBuffer.read b).toolOrder = b.toolOrder ++ [call.id] ∧
      ∀ x, ((callEvents call).foldl ToolBuffer.read b).toolBuf.get? x =
        if x = call.id then some { name := call.name, args := call.arguments }
        else b.toolBuf.get? x := by
  have hset : (b.read (.toolUseStart call.id call.name)).toolBuf.get? call.id =
      some { name := call.name } := Dict.get?_set_self _ _ _
  obtain ⟨horder, hget⟩ := read_fragment call.arguments hset
  rw [callEvents, List.foldl_append, List.foldl_append]
  refine ⟨horder, fun x => (hget x).trans ?_⟩
  split_ifs with hx
  · rw [String.empty_append]
  · exact Dict.get?_set_of_ne hx _ _

/-- After some calls, each start event stands for the last call of its id. -/
theorem calls_read (calls : List ToolCall) :
    ((calls.flatMap callEvents).foldl ToolBuffer.read {}).calls =
      calls.map fun call => lastCall calls call.id := by
  have hbuf : ((calls.flatMap callEvents).foldl ToolBuffer.read {}).toolOrder =
        calls.map ToolCall.id ∧
      ∀ x ∈ calls.map ToolCall.id,
        ((calls.flatMap callEvents).foldl ToolBuffer.read {}).toolBuf.get? x =
          some { name := (lastCall calls x).name, args := (lastCall calls x).arguments } := by
    induction calls using List.reverseRecOn with
    | nil => exact ⟨rfl, nofun⟩
    | append_singleton calls call ih =>
      obtain ⟨horder, hget⟩ := read_callEvents
        ((calls.flatMap callEvents).foldl ToolBuffer.read {}) call
      have hfold : ((calls ++ [call]).flatMap callEvents).foldl ToolBuffer.read {} =
          (callEvents call).foldl ToolBuffer.read
            ((calls.flatMap callEvents).foldl ToolBuffer.read {}) := by
        rw [List.flatMap_append, List.foldl_append, List.flatMap_singleton]
      rw [hfold, horder, ih.1, List.map_append]
      refine ⟨rfl, fun x hx => ?_⟩
      rw [hget, lastCall, slotOf_append_singleton]
      by_cases hid : x = call.id
      · rw [if_pos hid, if_pos hid.symm]
      · rw [if_neg hid, if_neg (Ne.symm hid)]
        refine ih.2 x ((List.mem_append.1 hx).resolve_right fun h => ?_)
        exact hid (List.mem_singleton.1 h)
  rw [ToolBuffer.calls, hbuf.1, List.map_map]
  refine List.map_congr_left fun call hcall => ?_
  obtain ⟨last, -, hid, hlast⟩ := exists_lastCall hcall
  rw [Function.comp, hbuf.2 _ (List.mem_map_of_mem hcall), Option.getD_some, hlast, ← hid]

theorem noError_callEvents (call : ToolCall) : NoError (callEvents call) :=
  noError_append.2 ⟨noError_append.2 ⟨noError_singleton rfl, noError_ite rfl⟩,
    noError_singleton rfl⟩

/-- The calls of a frame, each from its place. -/
theorem calls_frame (frame : Frame) : frame.calls dumps traceId =
    (frame.toolCalls.zipIdx.filter fun p => p.1.WellFormed).map fun p =>
      p.1.toCall dumps traceId p.2 := by
  rw [Frame.calls]
  induction frame.toolCalls.zipIdx with
  | nil => rfl
  | cons p ps ih =>
    rw [List.filterMap_cons, normalizeToolCall, List.filter_cons, ih]
    by_cases hname : given p.1.name = "" <;> simp [hname, NativeCall.WellFormed]

/-- The stream brings the events of the placed calls, and others that are no calls. -/
theorem foldl_streamFrames (frames : List Frame) (out : List ToolCall) (b : ToolBuffer) :
    (streamFrames dumps traceId out frames).foldl ToolBuffer.read b =
      (((placedCalls frames).map fun p => p.1.toCall dumps traceId p.2).flatMap
        callEvents).foldl ToolBuffer.read b := by
  induction frames generalizing out b with
  | nil => rfl
  | cons frame frames ih =>
    have hthinking := foldl_textEvent (.thinkingDelta · none) fun _ _ => rfl
    have htext := foldl_textEvent .textDelta fun _ _ => rfl
    rw [streamFrames, List.foldl_append, List.foldl_append, List.foldl_append, hthinking, htext,
      placedCalls, readFrames]
    by_cases hdone : frame.done
    · rw [if_pos hdone, if_pos hdone, List.flatMap_singleton, ← calls_frame]
      rfl
    · rw [if_neg hdone, if_neg hdone, ih, List.flatMap_cons, List.map_append, ← calls_frame,
        List.flatMap_append, List.foldl_append, placedCalls]

theorem noError_streamFrames (frames : List Frame) (out : List ToolCall) :
    NoError (streamFrames dumps traceId out frames) := by
  induction frames generalizing out with
  | nil => exact List.forall_mem_nil _
  | cons frame frames ih =>
    refine noError_append.2 ⟨noError_append.2 ⟨noError_append.2 ⟨?_, ?_⟩, ?_⟩, ?_⟩
    · exact noError_textEvent (fun _ => rfl) _
    · exact noError_textEvent (fun _ => rfl) _
    · intro event h
      obtain ⟨call, -, hevent⟩ := List.mem_flatMap.1 h
      exact noError_callEvents call event hevent
    · split_ifs
      · exact noError_append.2 ⟨noError_singleton rfl, noError_singleton rfl⟩
      · exact ih _

/-- The calls `run_attempt` has at the end. -/
theorem calls_collect (frames : List Frame) :
    (collect {} (streamOllamaNative dumps traceId frames)).tools.calls =
      (placedCalls frames).map fun p =>
        lastCall ((placedCalls frames).map fun p => p.1.toCall dumps traceId p.2)
          (p.1.toCall dumps traceId p.2).id := by
  rw [streamOllamaNative, tools_collect (noError_streamFrames frames []), foldl_streamFrames,
    calls_read, List.map_map]
  rfl

end Buffer

/-! ## Own names and arguments -/

section Own

variable {lower : String → String} {sameLetter : Char → Char → Bool} {dumps : Json → String}
  {loads : String → Option Json} {traceId : String}

/-- What a block of the call has of it. -/
def blockOf (loads : String → Option Json) (call : ToolCall) : Option (String × Args) :=
  (toolBlock loads call).map fun b => (b.name, b.input)

/-- The codec gives back the arguments it wrote. -/
def Lossless (dumps : Json → String) (loads : String → Option Json) (tc : NativeCall) : Prop :=
  loads (dumps tc.value) = some tc.value

/-- `None` stands for no arguments. -/
theorem value_ne_null (tc : NativeCall) : tc.value ≠ .null := by
  rw [NativeCall.value]
  split
  · rename_i v _
    split_ifs with hv
    · rintro rfl
      cases hv
    · nofun
  · nofun

theorem argsText_str {tc : NativeCall} {s : String} (h : tc.arguments = some (.str s)) :
    tc.argsText dumps = s := by
  rw [NativeCall.argsText, h]

theorem argsText_value {tc : NativeCall} (h : ∀ s, tc.arguments = some (.str s) → False) :
    tc.argsText dumps = dumps tc.value := by
  rw [NativeCall.argsText]
  split
  · rename_i s hs
    exact absurd hs (h s)
  · rfl

/-- The block of a normalized call has the call's own name and arguments. -/
theorem blockOf_toCall (hblank : ∀ s, Py.strip s.toList = [] → loads s = none) {tc : NativeCall}
    (hwell : tc.WellFormed) (hlossless : Lossless dumps loads tc) (idx : ℕ) :
    blockOf loads (tc.toCall dumps traceId idx) = tc.own loads := by
  have hparse : Py.strip (dumps tc.value).toList ≠ [] := by
    intro h
    rw [Lossless, hblank _ h] at hlossless
    cases hlossless
  have hvalue : blockOf loads { name := given tc.name, arguments := dumps tc.value } =
      match tc.value with
      | .obj fields => some (given tc.name, fields)
      | _ => none := by
    have hblock : toolBlock loads { name := given tc.name, arguments := dumps tc.value } =
        toolUseBlock "" (given tc.name) tc.value :=
      toolBlock_of_loads hwell hparse hlossless (value_ne_null tc)
    rw [blockOf, hblock]
    cases tc.value <;> rfl
  rw [NativeCall.own]
  split
  · rename_i s hs
    exact toolBlock_congr rfl (argsText_str hs)
  · rename_i hs
    rw [← hvalue]
    exact toolBlock_congr rfl (argsText_value hs)

theorem frames_eq (frames : List Frame) : frames = readFrames frames ++ unreadFrames frames := by
  induction frames with
  | nil => rfl
  | cons frame frames ih =>
    rw [readFrames, unreadFrames]
    split_ifs
    · rfl
    · rw [List.cons_append, ← ih]

/-- Calls of the frames that are read, and calls of those that are not. -/
theorem wellFormedCalls_eq (frames : List Frame) : wellFormedCalls frames =
    (placedCalls frames).map Prod.fst ++ wellFormedCalls (unreadFrames frames) := by
  have hframe : ∀ (tcs : List NativeCall) (n : ℕ),
      ((tcs.zipIdx n).filter fun p => p.1.WellFormed).map Prod.fst =
        tcs.filter fun tc => tc.WellFormed := by
    intro tcs
    induction tcs with
    | nil => exact fun _ => rfl
    | cons tc tcs ih =>
      intro n
      by_cases htc : tc.WellFormed <;> simp [htc, ih (n + 1)]
  have hread : (placedCalls frames).map Prod.fst = wellFormedCalls (readFrames frames) := by
    rw [placedCalls, wellFormedCalls, List.map_flatMap]
    simp only [hframe]
  rw [hread, wellFormedCalls, wellFormedCalls, wellFormedCalls, ← List.flatMap_append, ← frames_eq]

theorem wellFormed_of_mem_placedCalls {frames : List Frame} {p : NativeCall × ℕ}
    (h : p ∈ placedCalls frames) : p.1.WellFormed := by
  obtain ⟨frame, -, hp⟩ := List.mem_flatMap.1 h
  simpa using (List.mem_filter.1 hp).2

/-- Blocks for all of a list, by what they have. -/
theorem exists_blocks_iff {α β γ : Type*} {f : α → Option β} {g : β → γ} (as : List α)
    (os : List (Option γ)) :
    (∃ bs : List β, as.map f = bs.map some ∧ bs.map (fun b => some (g b)) = os) ↔
      as.map (fun a => (f a).map g) = os ∧ ∀ o ∈ os, o.isSome := by
  constructor
  · rintro ⟨bs, has, rfl⟩
    have hmap := congrArg (List.map (Option.map g)) has
    rw [List.map_map, List.map_map] at hmap
    refine ⟨hmap, ?_⟩
    simp
  · rintro ⟨rfl, hsome⟩
    have hf : ∀ a ∈ as, (f a).isSome := fun a ha => by
      simpa using hsome _ (List.mem_map_of_mem ha)
    have hbs : as.map f = (as.filterMap f).map some := by
      induction as with
      | nil => rfl
      | cons a as ih =>
        obtain ⟨b, hb⟩ := Option.isSome_iff_exists.1 (hf a List.mem_cons_self)
        rw [List.map_cons, List.filterMap_cons_some hb, List.map_cons, hb,
          ih (fun o ho => hsome o (List.mem_cons_of_mem _ ho))
            fun a ha => hf a (List.mem_cons_of_mem _ ha)]
    refine ⟨as.filterMap f, hbs, ?_⟩
    have hmap := congrArg (List.map (Option.map g)) hbs
    rw [List.map_map, List.map_map] at hmap
    exact hmap.symm

/-- In terms of the calls `run_attempt` has at the end. -/
theorem hasOwnCalls_iff_calls (frames : List Frame) :
    HasOwnCalls lower sameLetter dumps loads traceId frames ↔
      (collect {} (streamOllamaNative dumps traceId frames)).tools.calls.map (blockOf loads) =
          (wellFormedCalls frames).map (NativeCall.own loads) ∧
        ∀ tc ∈ wellFormedCalls frames, (tc.own loads).isSome := by
  have hblocks := exists_blocks_iff (f := toolBlock loads) (g := fun b => (b.name, b.input))
    (collect {} (streamOllamaNative dumps traceId frames)).tools.calls
    ((wellFormedCalls frames).map (NativeCall.own loads))
  rw [List.forall_mem_map] at hblocks
  refine Iff.trans ?_ hblocks
  constructor
  · rintro ⟨r, hr, hown⟩
    obtain ⟨message, hmessage, hr⟩ := Option.bind_eq_some_iff.1 hr
    obtain rfl := Option.some.inj hr
    exact ⟨_, toolUses_message hmessage, hown⟩
  · rintro ⟨blocks, hcalls, hown⟩
    obtain ⟨message, hmessage⟩ := exists_message_iff.2 ⟨blocks, hcalls⟩
    have huses : message.toolUses = blocks :=
      List.map_injective_iff.2 (Option.some_injective _) ((toolUses_message hmessage).symm.trans hcalls)
    refine ⟨_, Option.bind_eq_some_iff.2 ⟨message, hmessage, rfl⟩, ?_⟩
    rw [← hown, ← huses]

/-- The message has each call's own name and arguments exactly if all well-formed calls
come by the `done` frame, the arguments of each are an object, and calls of one id are alike. -/
theorem message_hasOwnCalls_iff (frames : List Frame)
    (hblank : ∀ s, Py.strip s.toList = [] → loads s = none)
    (hlossless : ∀ tc ∈ wellFormedCalls frames, Lossless dumps loads tc) :
    HasOwnCalls lower sameLetter dumps loads traceId frames ↔
      wellFormedCalls (unreadFrames frames) = [] ∧
        (∀ p ∈ placedCalls frames, (p.1.own loads).isSome) ∧
        ∀ p ∈ placedCalls frames, ∀ q ∈ placedCalls frames,
          (p.1.toCall dumps traceId p.2).id = (q.1.toCall dumps traceId q.2).id →
            p.1.own loads = q.1.own loads := by
  have hcalls := wellFormedCalls_eq frames
  have hblock : ∀ p ∈ placedCalls frames,
      blockOf loads (p.1.toCall dumps traceId p.2) = p.1.own loads := by
    intro p hp
    refine blockOf_toCall hblank (wellFormed_of_mem_placedCalls hp) (hlossless _ ?_) _
    rw [hcalls]
    exact List.mem_append_left _ (List.mem_map_of_mem hp)
  generalize hall : (placedCalls frames).map (fun p => p.1.toCall dumps traceId p.2) = all
  -- the block of a call is that of some call of its id
  have hlast : ∀ p ∈ placedCalls frames, ∃ q ∈ placedCalls frames,
      (q.1.toCall dumps traceId q.2).id = (p.1.toCall dumps traceId p.2).id ∧
        blockOf loads (lastCall all (p.1.toCall dumps traceId p.2).id) = q.1.own loads := by
    intro p hp
    have hcall : p.1.toCall dumps traceId p.2 ∈ all := hall ▸ List.mem_map_of_mem hp
    obtain ⟨last, hmem, hid, hlast⟩ := exists_lastCall hcall
    rw [← hall] at hmem
    obtain ⟨q, hq, rfl⟩ := List.mem_map.1 hmem
    exact ⟨q, hq, hid, by rw [hlast, hblock q hq]⟩
  rw [hasOwnCalls_iff_calls, calls_collect, hall, List.map_map, hcalls, List.map_append,
    List.map_map]
  constructor
  · rintro ⟨heq, hsome⟩
    have hunread : (wellFormedCalls (unreadFrames frames)).map (NativeCall.own loads) = [] := by
      have hlen := congrArg List.length heq
      rw [List.length_append, List.length_map, List.length_map] at hlen
      exact List.length_eq_zero_iff.1 (by omega)
    rw [hunread, List.append_nil] at heq
    have hown := List.map_eq_map_iff.1 heq
    refine ⟨List.map_eq_nil_iff.1 hunread, fun p hp => ?_, fun p hp q hq hid => ?_⟩
    · exact hsome p.1 (List.mem_append_left _ (List.mem_map_of_mem hp))
    · have hp := hown p hp
      have hq := hown q hq
      simp only [Function.comp, hid] at hp hq
      exact hp.symm.trans hq
  · rintro ⟨hunread, hsome, halike⟩
    rw [hunread, List.map_nil, List.append_nil, List.append_nil]
    refine ⟨List.map_congr_left fun p hp => ?_, fun tc htc => ?_⟩
    · obtain ⟨q, hq, hid, hblock⟩ := hlast p hp
      exact hblock.trans (halike q hq p hp hid)
    · obtain ⟨p, hp, rfl⟩ := List.mem_map.1 htc
      exact hsome p hp

end Own

/-- `json.loads` of the empty object. -/
def loadsEmpty (s : String) : Option Json :=
  if s = "\x7b\x7d" then some (.obj []) else none

theorem loadsEmpty_blank (s : String) (h : Py.strip s.toList = []) : loadsEmpty s = none := by
  rw [loadsEmpty, if_neg]
  rintro rfl
  revert h
  decide

/-- A call without an id and without arguments. -/
def plainCall (name : String) : NativeCall :=
  { name := some name, arguments := some (.obj []) }

/-- Two calls in the first frame. -/
def oneFrame : List Frame :=
  [{ toolCalls := [plainCall "ls", plainCall "pwd"] }, { done := true }]

theorem message_hasOwnCalls_oneFrame :
    HasOwnCalls id (· == ·) (fun _ => "\x7b\x7d") loadsEmpty "t" oneFrame := by
  refine (message_hasOwnCalls_iff oneFrame loadsEmpty_blank ?_).2 ⟨rfl, ?_, ?_⟩
  · intro tc htc
    have hvalue : tc.value = .obj [] := by
      rcases List.mem_cons.1 htc with rfl | htc
      · rfl
      · rw [List.mem_singleton.1 htc]
        rfl
    rw [Lossless, hvalue]
    rfl
  · decide +kernel
  · have hids : ∀ p ∈ placedCalls oneFrame, ∀ q ∈ placedCalls oneFrame,
        (p.1.toCall (fun _ => "\x7b\x7d") "t" p.2).id =
          (q.1.toCall (fun _ => "\x7b\x7d") "t" q.2).id → p.2 = q.2 := by decide +kernel
    intro p hp q hq hid
    have hpq := hids p hp q hq hid
    have hplaced : placedCalls oneFrame = [(plainCall "ls", 0), (plainCall "pwd", 1)] := rfl
    simp only [hplaced, List.mem_cons, List.not_mem_nil, or_false] at hp hq
    rcases hp with rfl | rfl <;> rcases hq with rfl | rfl <;> first | rfl | cases hpq

/-- Two calls, each the first of its frame. -/
def twoFrames : List Frame :=
  [{ toolCalls := [plainCall "ls"] }, { toolCalls := [plainCall "pwd"], done := true }]

theorem message_not_hasOwnCalls :
    ¬HasOwnCalls id (· == ·) (fun _ => "\x7b\x7d") loadsEmpty "t" twoFrames := by
  intro h
  have hnames := congrArg (List.map (Option.map Prod.fst)) (hasOwnCalls_iff_calls twoFrames |>.1 h).1
  revert hnames
  decide +kernel

end OxenClaw.Ollama
