import Congine.Kernel.Models
/-!
# Establishing a complete text

What a LangChain callback is handed is made of host objects, and reading
one may raise. The adapter reads a stream chunk and a final response for
exactly one text with nothing riding alongside it, and refuses whatever it
cannot account for.
-/

namespace Congine

/-- `_RefusalReason`. -/
inductive RefusalReason where
  | missingRunId | unhashableRunId
  | nonTextStreamToken | unsupportedStreamChunk | streamTokenChunkMismatch | streamBufferExceeded
  | missingFinalResponse | malformedFinalResponse | noGeneration | multipleGenerationGroups
  | multipleGenerations
  | nonTextContent | textMessageMismatch | toolOrActionContent | unsupportedMessageMetadata
  | outputTruncated | outputIncomplete | unknownTermination | streamFinalMismatch
  deriving DecidableEq

/-- What is raised while an object is inspected: `_Refusal`, or whatever
the object's own code raises. -/
inductive InspectionSignal where
  | refusal (reason : RefusalReason)
  | raised (exc : Exc)
  deriving DecidableEq

/-- What the adapter finds out about an object. Any of it may raise. -/
class HostObjects (Obj : Type) where
  isNone : Obj → Bool
  /-- `getattr(value, name)`, with `none` for an `AttributeError`. -/
  getattr : Obj → String → Except Exc (Option Obj)
  /-- `isinstance(value, str)`, and the text. -/
  asStr : Obj → Except Exc (Option String)
  /-- `isinstance(value, Enum)`, and the member's value and name. -/
  asEnum : Obj → Except Exc (Option (Obj × Obj))
  /-- `isinstance(value, Sized) and len(value) == 0`. -/
  isEmptySized : Obj → Except Exc Bool
  /-- `isinstance(value, Mapping)`. -/
  isMapping : Obj → Except Exc Bool
  /-- `mapping.get(key)`, with `none` for `None`. -/
  get : Obj → String → Except Exc (Option Obj)
  /-- What the iteration over `mapping.values()` yields. -/
  values : Obj → List (Except Exc Obj)
  /-- `isinstance(value, (list, tuple))`, and the items. -/
  asSequence : Obj → Except Exc (Option (List Obj))
  /-- `text.strip().lower()`. -/
  normalize : String → String

variable {Obj : Type} [HostObjects Obj]

open HostObjects

/-! ## The boundary around host code -/

/-- Host code inside a check that does not catch what it raises. -/
def host {α : Type} (x : Except Exc α) : Except InspectionSignal α := x.mapError .raised

/-- `except Exception`: a refusal passes, a host failure is classified. -/
def guarded {α : Type} (fallback : RefusalReason) :
    Except InspectionSignal α → Except InspectionSignal α
  | .error (.raised exc) =>
      if exc.isException then .error (.refusal fallback) else .error (.raised exc)
  | x => x

/-- `getattr(value, name, None)`, with `none` for `None`. -/
def getattrOrNone (value : Obj) (name : String) : Except InspectionSignal (Option Obj) :=
  (host (getattr value name)).map (·.filter fun found => !isNone found)

/-! ## The checks -/

/-- `_ACTION_FIELDS`. -/
def actionFields : List String := ["tool_calls", "invalid_tool_calls", "tool_call_chunks"]

/-- `_ACTION_KWARGS`. -/
def actionKwargs : List String := ["function_call", "tool_calls"]

/-- `_TERMINATION_KEYS`. -/
def terminationKeys : List String := ["finish_reason", "stop_reason"]

def completeTerminations : List String := ["stop", "end_turn", "stop_sequence"]

def truncatedTerminations : List String := ["length", "max_tokens", "max_output_tokens"]

def incompleteTerminations : List String := ["content_filter", "safety", "refusal"]

/-- `_is_present`: neither `None` nor empty. -/
def isPresent (malformed : RefusalReason) : Option Obj → Except InspectionSignal Bool
  | none => .ok false
  | some value => guarded malformed ((host (isEmptySized value)).map not)

/-- `raise _Refusal(reason)` over the first present value. -/
def refusePresent (reason malformed : RefusalReason) (value : Option Obj) :
    Except InspectionSignal Unit :=
  (isPresent malformed value).bind fun present =>
    if present then .error (.refusal reason) else .ok ()

/-- The value an `Enum` member that is no `str` stands for. -/
def enumText (value : Obj) : Except InspectionSignal Obj :=
  (host (asEnum value)).bind fun member =>
    (host (asStr value)).bind fun text =>
      match member, text with
      | some (memberValue, memberName), none =>
          (host (asStr memberValue)).map fun memberText =>
            if memberText.isSome then memberValue else memberName
      -- A member that is itself a `str` is read as the text it is.
      | _, _ => .ok value

/-- `_normalize_termination`. -/
def normalizeTermination (malformed : RefusalReason) :
    Option Obj → Except InspectionSignal (Option String)
  | none => .ok none
  | some value =>
      (enumText value).bind fun value =>
        (host (asStr value)).bind fun text =>
          match text with
          | none => .error (.refusal malformed)
          | some text =>
              let text := normalize Obj text
              -- `or None`: a blank value says nothing of how the output ended.
              .ok (if text = "" then none else some text)

/-- One termination value against the three sets. -/
def judgeTermination : Option String → Except InspectionSignal Unit
  | none => .ok ()
  | some termination =>
      if termination ∈ completeTerminations then .ok ()
      else if termination ∈ truncatedTerminations then .error (.refusal .outputTruncated)
      else if termination ∈ incompleteTerminations then .error (.refusal .outputIncomplete)
      else .error (.refusal .unknownTermination)

/-- `_check_termination`. -/
def checkTermination (malformed : RefusalReason) : Option Obj → Except InspectionSignal Unit
  | none => .ok ()
  | some metadata =>
      (host (isMapping metadata)).bind fun mapping =>
        if !mapping then .error (.refusal malformed)
        else terminationKeys.forM fun key =>
          (host (get metadata key)).bind fun value =>
            (normalizeTermination malformed value).bind judgeTermination

/-- The side channels of `additional_kwargs`: the two action keys, then
every value. -/
def checkExtra (malformed : RefusalReason) : Option Obj → Except InspectionSignal Unit
  | none => .ok ()
  | some extra =>
      (host (isMapping extra)).bind fun mapping =>
        if !mapping then .error (.refusal malformed)
        else
          (actionKwargs.forM fun key =>
            (host (get extra key)).bind
              (refusePresent .toolOrActionContent malformed)).bind fun _ =>
          (values extra).forM fun value =>
            (host value).bind fun value =>
              refusePresent .unsupportedMessageMetadata malformed
                (if isNone value then none else some value)

/-- The text of an attribute that is a `str`. -/
def asText : Option Obj → Except InspectionSignal (Option String)
  | none => .ok none
  | some value => host (asStr value)

/-- `_inspect_message`: the text of a message with nothing alongside it. -/
def inspectMessage (malformed : RefusalReason) (message : Obj) : Except InspectionSignal String :=
  (actionFields.forM fun name =>
    (getattrOrNone message name).bind (refusePresent .toolOrActionContent malformed)).bind fun _ =>
  (getattrOrNone message "additional_kwargs").bind fun extra =>
  (checkExtra malformed extra).bind fun _ =>
  (host (getattr message "content")).bind fun content =>
  (asText content).bind fun text =>
  match text with
  | none => .error (.refusal .nonTextContent)
  | some text =>
      (getattrOrNone message "response_metadata").bind fun metadata =>
        (checkTermination malformed metadata).map fun _ => text

/-- The text of a chunk: of its message where it has one, or of itself. -/
def chunkText (chunk : Obj) : Except InspectionSignal String :=
  (getattrOrNone chunk "message").bind fun message =>
    match message with
    | some message => inspectMessage .unsupportedStreamChunk message
    | none =>
        (host (getattr chunk "text")).bind fun found =>
          (asText found).bind fun text =>
            match text with
            | none => .error (.refusal .unsupportedStreamChunk)
            | some text => .ok text

/-- `_inspect_stream_observation`, with the token's text where it accepts. -/
def inspectStreamObservation (token chunk : Obj) : Except InspectionSignal String :=
  guarded .unsupportedStreamChunk <|
    (host (asStr token)).bind fun text =>
      match text with
      | none => .error (.refusal .nonTextStreamToken)
      | some text =>
          -- Without a chunk the token stands for itself.
          if isNone chunk then .ok text
          else
            (chunkText chunk).bind fun found =>
              if found ≠ text then .error (.refusal .streamTokenChunkMismatch)
              else
                (getattrOrNone chunk "generation_info").bind fun info =>
                  (checkTermination .unsupportedStreamChunk info).map fun _ => text

/-- `_inspect_llm_output`. -/
def inspectLlmOutput : Option Obj → Except InspectionSignal Unit
  | none => .ok ()
  | some llmOutput =>
      guarded .malformedFinalResponse <|
        (host (isMapping llmOutput)).bind fun mapping =>
          if !mapping then .error (.refusal .malformedFinalResponse)
          else
            -- All of the action keys before any termination key. The other keys are not read.
            ((actionFields ++ actionKwargs).forM fun key =>
              (host (get llmOutput key)).bind
                (refusePresent .toolOrActionContent .malformedFinalResponse)).bind fun _ =>
            checkTermination .malformedFinalResponse (some llmOutput)

/-- `isinstance(value, (list, tuple))` with exactly one item. -/
def onlyItem (many : RefusalReason) (value : Obj) : Except InspectionSignal Obj :=
  (host (asSequence value)).bind fun items =>
    match items with
    | none => .error (.refusal .malformedFinalResponse)
    | some [] => .error (.refusal .noGeneration)
    | some [item] => .ok item
    | some _ => .error (.refusal many)

/-- The text of one generation: of its message, of itself, and one where
both are there. -/
def generationText (generation : Obj) : Except InspectionSignal String :=
  (host (getattr generation "text")).bind fun found =>
    (getattrOrNone generation "message").bind fun message =>
      match message with
      | some message =>
          (inspectMessage .malformedFinalResponse message).bind fun complete =>
            (asText found).bind fun text =>
              if text.any (· ≠ complete) then .error (.refusal .textMessageMismatch)
              else .ok complete
      | none =>
          (asText found).bind fun text =>
            match text with
            | some text => .ok text
            | none => .error (.refusal .nonTextContent)

/-- `_extract_complete_text`. -/
def extractCompleteText (response : Obj) : Except InspectionSignal String :=
  guarded .malformedFinalResponse <|
    if isNone response then .error (.refusal .missingFinalResponse)
    else
      (host (getattr response "generations")).bind fun generations =>
        match generations with
        | none => .error (.refusal .malformedFinalResponse)
        | some generations =>
            (onlyItem .multipleGenerationGroups generations).bind fun group =>
            (onlyItem .multipleGenerations group).bind fun generation =>
            (generationText generation).bind fun complete =>
            (getattrOrNone generation "generation_info").bind fun info =>
            (checkTermination .malformedFinalResponse info).bind fun _ =>
            (getattrOrNone response "llm_output").bind fun llmOutput =>
            (inspectLlmOutput llmOutput).map fun _ => complete

end Congine
