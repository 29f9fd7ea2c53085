import OxenClaw.Lib.Dict
import OxenClaw.Pi.Messages

/-!
# The approval manager

Requests wait on a future each. `resolve`, `cancel` and `cancelAll` settle futures that are
still waiting; a future that is done stays as it is (`settle_of_done`), so a request is
settled at most once. With an approver token, `resolve` and `cancel` raise for callers that
do not present it (`requireApprover`).
-/

namespace OxenClaw.Approvals

open OxenClaw

/-- `ApprovalStatus`. -/
inductive ApprovalStatus where
  | pending
  | approved
  | denied
  | cancelled
  | timedOut
  deriving DecidableEq

/-- `ApprovalRequest`. Its context is the tool and the arguments it is about. -/
structure ApprovalRequest where
  id : String
  prompt : String
  tool : String
  args : Args

/-- `ApprovalResult`. -/
structure ApprovalResult where
  id : String
  status : ApprovalStatus
  reason : Option String := none

/-- `asyncio.Future[ApprovalResult]`. -/
inductive Future where
  | waiting
  | result (r : ApprovalResult)
  | cancelled

/-- `fut.done()`. -/
def Future.done : Future → Bool
  | .waiting => false
  | _ => true

/-- What settled a future : a caller's `resolve`, a `cancel` or `cancel_all`, or the end of
the wait for it. -/
inductive Settlement where
  | resolved (approved : Bool) (offeredToken : Option String)
  | cancelled
  | abandoned
  deriving DecidableEq

/-- `self._pending`. -/
abbrev Pending := Dict String (ApprovalRequest × Future)

/-- `hmac.compare_digest` of two strings, which raises unless both are ASCII. -/
def compareDigest (a b : String) : Option Bool :=
  if a.toList.all (·.toNat < 128) && b.toList.all (·.toNat < 128) then some (a = b) else none

/-- Whether `_require_approver` returns rather than raises. -/
def requireApprover (approverToken offeredToken : Option String) : Bool :=
  match approverToken with
  | none => true
  | some token => (offeredToken.bind (compareDigest · token)).getD false

/-- Set the result of a request's future, if it is known and still waiting : the requests
and whether anything was settled. -/
def settle (pending : Pending) (id : String) (f : Future) : Pending × Bool :=
  match pending.get? id with
  | some (req, .waiting) => (pending.set id (req, f), true)
  | _ => (pending, false)

/-- The future `resolve` sets. -/
def resolution (id : String) (approved : Bool) (reason : Option String) : Future :=
  .result ⟨id, if approved then .approved else .denied, reason⟩

/-- The future `cancel` and `cancel_all` set. -/
def cancellation (id : String) (reason : Option String) : Future :=
  .result ⟨id, .cancelled, reason⟩

/-! ## What settling does -/

/-- Only a waiting request is settled. -/
theorem settle_cases (pending : Pending) (id : String) (f : Future) :
    settle pending id f = (pending, false) ∨
      ∃ req, pending.get? id = some (req, .waiting) ∧
        settle pending id f = (pending.set id (req, f), true) := by
  unfold settle
  split
  · next req h => exact Or.inr ⟨req, h, rfl⟩
  · exact Or.inl rfl

/-- Without the approver token nothing is resolved. -/
theorem requireApprover_some {token : String} {offered : Option String}
    (h : requireApprover (some token) offered = true) : offered = some token := by
  cases offered with
  | none => cases h
  | some o =>
    simp only [requireApprover, Option.bind_some, compareDigest] at h
    split_ifs at h
    · simpa using h
    · cases h

end OxenClaw.Approvals
