import OxenClaw.Lib.Dict
import OxenClaw.Lib.JsonValue

/-!
# The gateway's router

`Router.dispatch` (`gateway/router.py`) validates a request, looks its method up, validates the
parameters, runs the handler and makes a response of what it returns or raises. `_handle_message`
(`gateway/server.py`) sends the response without its members that are `None`.

What pydantic does beyond the declared fields is a parameter (`Pydantic`), and so is what a handler
does. `none` for a response is an exception that `dispatch` lets through, and `none` for a frame is
one that the serialisation raises.
-/

namespace OxenClaw.Gateway

open CodePoints

/-- A `dict` of a message. -/
abbrev Fields := Dict CodePoints JsonValue

/-- The `id: int | str` of `RpcRequest` and `RpcResponse`. -/
inductive RpcId where
  | int (n : ℤ)
  | str (s : CodePoints)
  deriving DecidableEq

def RpcId.json : RpcId → JsonValue
  | .int n => .int n
  | .str s => .str s

/-- The id can be sent. -/
def RpcId.Encodable : RpcId → Prop
  | .int _ => True
  | .str s => CodePoints.Encodable s

instance : (id : RpcId) → Decidable id.Encodable
  | .int _ => inferInstanceAs (Decidable True)
  | .str s => inferInstanceAs (Decidable s.Encodable)

structure RpcRequest where
  id : RpcId
  method : CodePoints
  params : Fields

structure RpcError where
  code : ℤ
  message : CodePoints
  data : Option JsonValue := none

/-- `RpcResponse`, the result being a Python value or `None`. -/
structure RpcResponse (ρ : Type*) where
  id : RpcId
  result : Option ρ := none
  error : Option RpcError := none

/-- What pydantic makes of the values that no field of the source pins down. -/
structure Pydantic (ρ : Type*) where
  /-- Validation of a value as `int | str`. -/
  idOf : JsonValue → Option RpcId
  /-- What is serialised for a value, unless that raises. -/
  serialize : ρ → Option JsonValue
  /-- The text of the error for a request that is not valid. -/
  requestError : Fields → String

/-- Integers and strings are validated as they are. -/
structure Pydantic.KeepsIds {ρ : Type*} (pyd : Pydantic ρ) : Prop where
  int : ∀ n, pyd.idOf (.int n) = some (.int n)
  str : ∀ s, pyd.idOf (.str s) = some (.str s)

/-- What a handler does. A `value` is `None` or another value that is no model. -/
inductive Outcome (ρ : Type*) where
  | value (v : Option ρ)
  /-- A model, and what its `model_dump` returns unless it raises. -/
  | model (dump : Option (Option ρ))
  | rateLimited (text : CodePoints) (retryAfter : Option ℚ)
  | approvalAuth (text : CodePoints)
  | channelError (text : CodePoints)
  /-- Any other `Exception`. -/
  | exception
  /-- What is raised and is no `Exception`, such as `CancelledError`. -/
  | baseException

/-- `params_model.model_validate(..)`. -/
inductive Validated (π : Type*) where
  | valid (p : π)
  | invalid (text : String)
  /-- A validator of the model raises something else. -/
  | raises

/-- A registered handler. It is called with the `dict` where it has no model. -/
structure Method (π ρ : Type*) where
  paramsModel : Option (Fields → Validated π)
  handler : Fields ⊕ π → Outcome ρ

/-! ## Error codes -/

def invalidRequest : ℤ := -32600
def methodNotFound : ℤ := -32601
def invalidParams : ℤ := -32602
def internalError : ℤ := -32603
def unauthorized : ℤ := -32001
def channelErrorCode : ℤ := -32010
def rateLimitedCode : ℤ := -32011

variable {π ρ : Type*} (pyd : Pydantic ρ)

/-! ## Dispatch -/

/-- `jsonrpc: Literal["2.0"] = "2.0"`. -/
def versionOk : Option JsonValue → Bool
  | none => true
  | some (.str s) => s = lit "2.0"
  | some _ => false

/-- `RpcRequest.model_validate(raw)`. -/
def validateRequest (raw : Fields) : Option RpcRequest :=
  if raw.keys.all ([lit "jsonrpc", lit "id", lit "method", lit "params"].contains ·) &&
      versionOk (raw.get? (lit "jsonrpc")) then
    match (raw.get? (lit "id")).bind pyd.idOf, raw.get? (lit "method"), raw.get? (lit "params") with
    | some id, some (.str method), none => some { id, method, params := [] }
    | some id, some (.str method), some (.obj params) => some { id, method, params }
    | _, _, _ => none
  else none

/-- `_err`, which validates the id it is given. -/
def err (id : JsonValue) (code : ℤ) (message : CodePoints) (data : Option JsonValue) :
    Option (RpcResponse ρ) :=
  (pyd.idOf id).map fun id => { id, error := some { code, message, data } }

/-- The response to what a handler has done. -/
def respond (corrId : String) (id : RpcId) : Outcome ρ → Option (RpcResponse ρ)
  | .value v => some { id, result := v }
  | .model dump => dump.map fun v => { id, result := v }
  | .rateLimited text retryAfter => err pyd id.json rateLimitedCode text
      (some (.obj [(lit "retry_after", (retryAfter.map JsonValue.float).getD .null)]))
  | .approvalAuth text => err pyd id.json unauthorized text none
  | .channelError text => err pyd id.json channelErrorCode text none
  | .exception => err pyd id.json internalError (lit "internal error")
      (some (.obj [(lit "correlation_id", .str (lit corrId))]))
  | .baseException => none

/-- `Router.dispatch`. `unknownMethod` is the text `f"unknown method {req.method!r}"`, which has no
surrogates since `repr` escapes them. -/
def dispatch (handlers : Dict CodePoints (Method π ρ)) (unknownMethod : CodePoints → String)
    (corrId : String) (raw : Fields) : Option (RpcResponse ρ) :=
  match validateRequest pyd raw with
  | none => err pyd ((raw.get? (lit "id")).getD (.int 0)) invalidRequest
      (lit (pyd.requestError raw)) none
  | some req =>
    match handlers.get? req.method with
    | none => err pyd req.id.json methodNotFound (lit (unknownMethod req.method)) none
    | some m =>
      match m.paramsModel with
      | none => respond pyd corrId req.id (m.handler (.inl req.params))
      | some validate =>
        match validate req.params with
        | .valid p => respond pyd corrId req.id (m.handler (.inr p))
        | .invalid text => err pyd req.id.json invalidParams (lit text) none
        | .raises => none

/-! ## The frame -/

/-- The members of an error that are not `None`. -/
def RpcError.members (e : RpcError) : Fields :=
  [(lit "code", .int e.code), (lit "message", .str e.message)] ++
    (e.data.map (lit "data", ·)).toList

/-- The result as it is serialised, unless it is `None`. -/
def RpcResponse.resultJson (r : RpcResponse ρ) : Option (Option JsonValue) :=
  match r.result with
  | none => some none
  | some v => (pyd.serialize v).map some

/-- The members of a response that are not `None`. -/
def members (id : RpcId) (result : Option JsonValue) (error : Option RpcError) : Fields :=
  [(lit "jsonrpc", .str (lit "2.0")), (lit "id", id.json)] ++
    (result.map (lit "result", ·)).toList ++
    (error.map fun e => (lit "error", JsonValue.obj e.members)).toList

/-- `response.model_dump_json(exclude_none=True)`. -/
def frame (r : RpcResponse ρ) : Option Fields :=
  if r.id.Encodable ∧ ∀ e ∈ r.error, e.message.Encodable then
    (r.resultJson pyd).map fun result => members r.id result r.error
  else none

/-! ## What the client gets -/

/-- The frame has the id of the request where that is an integer or a string, and a result or an
error, not both. -/
structure Answers (raw f : Fields) : Prop where
  int : ∀ n, raw.get? (lit "id") = some (.int n) → f.get? (lit "id") = some (.int n)
  str : ∀ s, raw.get? (lit "id") = some (.str s) → f.get? (lit "id") = some (.str s)
  exclusive : (f.get? (lit "result")).isSome = !(f.get? (lit "error")).isSome

/-- There is a response, and what is sent of it answers the request. -/
def Answered (raw : Fields) (response : Option (RpcResponse ρ)) : Prop :=
  ∃ r f, response = some r ∧ frame pyd r = some f ∧ Answers raw f

/-- A handler that returns something other than `None` that can be serialised, or raises an
`Exception` whose text, where it is sent, has no surrogates. -/
def Outcome.Sendable : Outcome ρ → Prop
  | .value v => ∃ x ∈ v, (pyd.serialize x).isSome = true
  | .model dump => ∃ v ∈ dump, ∃ x ∈ v, (pyd.serialize x).isSome = true
  | .rateLimited text _ | .approvalAuth text | .channelError text => CodePoints.Encodable text
  | .exception => True
  | .baseException => False

/-- The parameters are validated without an exception of another kind, and the handler does
something that can be sent. -/
def Method.Sendable (m : Method π ρ) (params : Fields) : Prop :=
  match m.paramsModel with
  | none => (m.handler (.inl params)).Sendable pyd
  | some validate =>
    match validate params with
    | .valid p => (m.handler (.inr p)).Sendable pyd
    | .invalid _ => True
    | .raises => False

/-- A request that is not valid has an id that a response can have, or none; the id has no
surrogates; and the handler of the method does what can be sent. -/
def Answerable (handlers : Dict CodePoints (Method π ρ)) (raw : Fields) : Prop :=
  match validateRequest pyd raw with
  | none => ∃ id, pyd.idOf ((raw.get? (lit "id")).getD (.int 0)) = some id ∧ id.Encodable
  | some req => req.id.Encodable ∧ ∀ m, handlers.get? req.method = some m → m.Sendable pyd req.params

variable {pyd} {raw : Fields} {id : RpcId} {r : RpcResponse ρ}

theorem Pydantic.KeepsIds.idOf_json (h : pyd.KeepsIds) (id : RpcId) : pyd.idOf id.json = some id := by
  rcases id with n | s
  · exact h.int n
  · exact h.str s

/-- A response with this id has the id of the request. -/
structure Carries (raw : Fields) (id : RpcId) : Prop where
  int : ∀ n, raw.get? (lit "id") = some (.int n) → id = .int n
  str : ∀ s, raw.get? (lit "id") = some (.str s) → id = .str s

theorem Pydantic.KeepsIds.carries (h : pyd.KeepsIds) {x : JsonValue}
    (hx : raw.get? (lit "id") = none ∨ raw.get? (lit "id") = some x) (hid : pyd.idOf x = some id) :
    Carries raw id := by
  have hsame : ∀ {y}, raw.get? (lit "id") = some y → y = x := by
    intro y hy
    rcases hx with hx | hx
    · rw [hx] at hy
      cases hy
    · exact Option.some.inj (hy.symm.trans hx)
  refine ⟨fun n hn => ?_, fun s hs => ?_⟩
  · rw [← hsame hn, h.int] at hid
    exact (Option.some.inj hid).symm
  · rw [← hsame hs, h.str] at hid
    exact (Option.some.inj hid).symm

theorem get?_members (id : RpcId) (result : Option JsonValue) (error : Option RpcError) :
    (members id result error).get? (lit "id") = some id.json ∧
      (members id result error).get? (lit "result") = result ∧
      (members id result error).get? (lit "error") = error.map fun e => .obj e.members := by
  have hlit : lit "jsonrpc" ≠ lit "id" ∧ lit "jsonrpc" ≠ lit "result" ∧
      lit "jsonrpc" ≠ lit "error" ∧ lit "id" ≠ lit "result" ∧ lit "id" ≠ lit "error" ∧
      lit "result" ≠ lit "error" := by decide
  obtain ⟨hji, hjr, hje, hir, hie, hre⟩ := hlit
  rcases result with _ | x <;> rcases error with _ | e <;>
    simp [members, Dict.get?, hji, hjr, hje, hir, hie, hre, hre.symm]

/-- A response with the id of the request answers it exactly if it can be sent and has a result or
an error that is not `None`. -/
theorem answered_some_iff (hid : Carries raw r.id) : Answered pyd raw (some r) ↔
    (r.id.Encodable ∧ ∀ e ∈ r.error, e.message.Encodable) ∧
      ∃ result, r.resultJson pyd = some result ∧ result.isSome = !r.error.isSome := by
  have hanswered : Answered pyd raw (some r) ↔ ∃ f, frame pyd r = some f ∧ Answers raw f := by
    simp [Answered]
  rw [hanswered]
  unfold frame
  split_ifs with hencodable
  · rw [and_iff_right hencodable]
    constructor
    · rintro ⟨f, hf, hanswers⟩
      obtain ⟨result, hresult, rfl⟩ := Option.map_eq_some_iff.1 hf
      obtain ⟨-, hget, hget'⟩ := get?_members r.id result r.error
      have hexclusive := hanswers.exclusive
      rw [hget, hget', Option.isSome_map] at hexclusive
      exact ⟨result, hresult, hexclusive⟩
    · rintro ⟨result, hresult, hexclusive⟩
      obtain ⟨hget, hget', hget''⟩ := get?_members r.id result r.error
      refine ⟨_, Option.map_eq_some_iff.2 ⟨result, hresult, rfl⟩, fun n hn => ?_, fun s hs => ?_, ?_⟩
      · rw [hget, hid.int n hn, RpcId.json]
      · rw [hget, hid.str s hs, RpcId.json]
      · rw [hget', hget'', Option.isSome_map, hexclusive]
  · exact iff_of_false (by simp) fun h => hencodable h.1

theorem not_answered_none : ¬Answered pyd raw none := by
  rintro ⟨r, f, h, -⟩
  cases h

theorem answered_result_iff (hid : Carries raw id) (v : Option ρ) :
    Answered pyd raw (some { id, result := v }) ↔
      id.Encodable ∧ ∃ x ∈ v, (pyd.serialize x).isSome = true := by
  rw [answered_some_iff hid]
  rcases v with _ | x
  · simp [RpcResponse.resultJson]
  · simp [RpcResponse.resultJson, Option.isSome_iff_exists]

theorem answered_err_iff (h : pyd.KeepsIds) {x : JsonValue}
    (hx : raw.get? (lit "id") = none ∨ raw.get? (lit "id") = some x) (code : ℤ)
    (message : CodePoints) (data : Option JsonValue) :
    Answered pyd raw (err pyd x code message data) ↔
      message.Encodable ∧ ∃ id, pyd.idOf x = some id ∧ id.Encodable := by
  unfold err
  rcases hidOf : pyd.idOf x with _ | id
  · simp [not_answered_none]
  · rw [Option.map_some, answered_some_iff (h.carries hx hidOf)]
    simp [RpcResponse.resultJson, and_comm]

/-- An error for a request that has been validated. -/
theorem answered_err_json_iff (h : pyd.KeepsIds) {x : JsonValue}
    (hx : raw.get? (lit "id") = some x) (hid : pyd.idOf x = some id) (code : ℤ)
    (message : CodePoints) (data : Option JsonValue) :
    Answered pyd raw (err pyd id.json code message data) ↔ id.Encodable ∧ message.Encodable := by
  have hcarries := h.carries (Or.inr hx) hid
  unfold err
  rw [h.idOf_json, Option.map_some, answered_some_iff hcarries]
  simp [RpcResponse.resultJson]

theorem answered_respond_iff (h : pyd.KeepsIds) {x : JsonValue}
    (hx : raw.get? (lit "id") = some x) (hid : pyd.idOf x = some id) (corrId : String)
    (outcome : Outcome ρ) : Answered pyd raw (respond pyd corrId id outcome) ↔
      id.Encodable ∧ outcome.Sendable pyd := by
  have hcarries := h.carries (Or.inr hx) hid
  rcases outcome with v | dump | ⟨text, retryAfter⟩ | text | text | _ | _
  · exact answered_result_iff hcarries v
  · rcases dump with _ | v
    · exact iff_of_false not_answered_none fun h => by simp [Outcome.Sendable] at h
    · rw [respond, Option.map_some, answered_result_iff hcarries]
      simp [Outcome.Sendable]
  · exact answered_err_json_iff h hx hid _ text _
  · exact answered_err_json_iff h hx hid _ text _
  · exact answered_err_json_iff h hx hid _ text _
  · rw [respond, answered_err_json_iff h hx hid]
    exact and_congr_right fun _ => iff_of_true (encodable_lit _) trivial
  · exact iff_of_false not_answered_none fun h => h.2

/-- A valid request has an id that validation accepts. -/
theorem id_of_validateRequest {req : RpcRequest} (h : validateRequest pyd raw = some req) :
    ∃ x, raw.get? (lit "id") = some x ∧ pyd.idOf x = some req.id := by
  unfold validateRequest at h
  split_ifs at h
  split at h
  · next hid _ _ =>
    rw [← Option.some.inj h]
    exact Option.bind_eq_some_iff.1 hid
  · next hid _ _ =>
    rw [← Option.some.inj h]
    exact Option.bind_eq_some_iff.1 hid
  · cases h

/-- A request is answered exactly if a response can have its id, the id can be sent, and the handler
of its method returns a value that can be sent and is not `None`, or raises an `Exception`. -/
theorem answered_dispatch_iff (h : pyd.KeepsIds) (handlers : Dict CodePoints (Method π ρ))
    (unknownMethod : CodePoints → String) (corrId : String) (raw : Fields) :
    Answered pyd raw (dispatch pyd handlers unknownMethod corrId raw) ↔
      Answerable pyd handlers raw := by
  unfold dispatch Answerable
  rcases hreq : validateRequest pyd raw with _ | req
  · have hx : raw.get? (lit "id") = none ∨
        raw.get? (lit "id") = some ((raw.get? (lit "id")).getD (.int 0)) := by
      rcases raw.get? (lit "id") with _ | x
      · exact Or.inl rfl
      · exact Or.inr rfl
    rw [answered_err_iff h hx]
    exact and_iff_right (encodable_lit _)
  · obtain ⟨x, hx, hid⟩ := id_of_validateRequest hreq
    simp only
    rcases handlers.get? req.method with _ | m
    · rw [answered_err_json_iff h hx hid]
      exact and_congr_right fun _ => iff_of_true (encodable_lit _) fun _ h => by cases h
    · simp only [Option.some.injEq, forall_eq', Method.Sendable]
      rcases m.paramsModel with _ | validate
      · exact answered_respond_iff h hx hid corrId _
      · simp only
        rcases validate req.params with p | text | _
        · exact answered_respond_iff h hx hid corrId _
        · rw [answered_err_json_iff h hx hid]
          exact and_congr_right fun _ => iff_of_true (encodable_lit _) trivial
        · exact iff_of_false not_answered_none fun h => h.2

/-- Validation as it is documented, of results that are JSON values. -/
def plainPydantic : Pydantic JsonValue where
  idOf
    | .int n => some (.int n)
    | .str s => some (.str s)
    | .bool b => some (.int (if b then 1 else 0))
    | .float x => if x.den = 1 then some (.int x.num) else none
    | _ => none
  serialize := some
  requestError _ := "1 validation error for RpcRequest"

theorem plainPydantic_keepsIds : plainPydantic.KeepsIds :=
  ⟨fun _ => rfl, fun _ => rfl⟩

/-- A handler without a model. -/
def plainMethod (outcome : Outcome JsonValue) : Method Empty JsonValue where
  paramsModel := none
  handler _ := outcome

/-- A request for `ping`. -/
def pingRequest (id : JsonValue) : Fields :=
  [(lit "id", id), (lit "method", .str (lit "ping"))]

/-- A handler that returns a value. -/
theorem answered_dispatch_ping :
    Answered plainPydantic (pingRequest (.int 1)) (dispatch plainPydantic
      [(lit "ping", plainMethod (.value (some (.bool true))))] (fun _ => "") ""
      (pingRequest (.int 1))) :=
  (answered_dispatch_iff plainPydantic_keepsIds _ _ _ _).2
    ⟨trivial, fun m hm => by
      obtain rfl := Option.some.inj hm
      exact ⟨.bool true, rfl, rfl⟩⟩

/-- A handler that returns `None` is answered by a frame without result and error, and a request
whose id is `null` by none. -/
theorem dispatch_not_answered :
    ¬Answered plainPydantic (pingRequest (.int 1)) (dispatch plainPydantic
      [(lit "ping", plainMethod (.value none))] (fun _ => "") "" (pingRequest (.int 1))) ∧
    dispatch plainPydantic ([] : Dict CodePoints (Method Empty JsonValue)) (fun _ => "") ""
      (pingRequest .null) = none := by
  refine ⟨?_, rfl⟩
  have hdispatch : dispatch plainPydantic [(lit "ping", plainMethod (.value none))] (fun _ => "") ""
      (pingRequest (.int 1)) = some { id := .int 1, result := none } := rfl
  have hcarries : Carries (pingRequest (.int 1)) (.int 1) :=
    plainPydantic_keepsIds.carries (Or.inr rfl) rfl
  rw [hdispatch, answered_result_iff hcarries]
  simp

end OxenClaw.Gateway
