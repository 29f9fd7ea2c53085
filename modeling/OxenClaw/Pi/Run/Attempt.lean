import OxenClaw.Pi.Messages

/-!
# One inference attempt

What a model call hands to the run loop, and what the classifier makes of its error.
-/

namespace OxenClaw

/-- `Model`, the fields the run loop reads. -/
structure Model where
  id : String
  provider : String := "ollama"
  contextWindow : ℤ := 8192
  maxOutputTokens : ℤ := 4096

/-- `ErrorEvent`, without the exception object. -/
structure ErrorEvent where
  message : String := ""
  retryable : Bool := false
  retryAfterSeconds : Option ℚ := none
  statusCode : Option ℤ := none

/-- `AttemptResult`, without the raw events. -/
structure AttemptResult where
  message : AssistantMessage
  usage : Option Args := none
  error : Option ErrorEvent := none
  textEmitted : Bool := false

/-- `FailoverReason`. -/
inductive FailoverReason where
  | none
  | transient
  | rateLimit
  | contextOverflow
  | payloadTooLarge
  | auth
  | server
  | clientAbort
  | providerBlocked
  | thinkingSignature
  | emptyResponse
  | modelNotFound
  | creditExhausted
  | sessionExpired
  | unknown
  deriving DecidableEq

/-- `ClassifiedError`, the fields that decide what the loop does. -/
structure ClassifiedError where
  reason : FailoverReason
  retryable : Bool
  shouldCompress : Bool := false
  shouldFallback : Bool := false

end OxenClaw
