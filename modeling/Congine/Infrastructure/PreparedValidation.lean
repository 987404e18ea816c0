import Congine.Common.Runs
import Congine.Common.Table
import Congine.Infrastructure.CanonicalIdentity
import Congine.Infrastructure.JsonSchemaValidator
import Congine.Infrastructure.ObjectGraph
/-!
# Semantic validation over the preparation cache

Calls of `JsonSchemaSemanticValidator.validate` on one evaluator, step by
step, while their callers keep the schema objects and change them at will
between the steps. A call that owns its schema works on the copy from then
on; one that cannot works on the caller's object as it stands at each
step, and leaves the cache alone. The strings of a schema are ones of
Unicode scalar values.
-/

namespace Congine

/-! ## The evaluator -/

/-- What a step of an evaluation is run on. -/
inductive Subject where
  | owned (snapshot : Json)
  | live (heap : Heap) (schema : PyValue)

/-- What `check_schema` does: return, raise a `SchemaError` with a message,
or raise something else. -/
inductive CheckOutcome where
  | passed
  | refused (message : String)
  | raised (exc : Exc)
  deriving DecidableEq

structure PreparingValidator (Digest : Type) where
  /-- `self._validator_cls.check_schema`. -/
  checkSchema : Subject → CheckOutcome
  /-- The errors of a payload under a schema, and what the iteration raises after them. -/
  iterErrors : Json → Subject → List SemanticError × Option Exc
  /-- `_check_schema_patterns` on an object that is no owned copy. -/
  livePatterns : Heap → PyValue → Except Exc (List BreachDetail)
  /-- `self._validator_cls`, the class object. -/
  validatorCls : ℕ
  formatChecking : Bool := false
  maxBreaches : ℤ := 100
  /-- The digest in `content_digest`, of a text in ASCII. -/
  sha256 : String → Digest
  /-- `float.__repr__`. -/
  floatRepr : FloatFormat ℚ
  /-- The frames the interpreter has left for the walk over a schema. -/
  frames : ℕ

/-- How `prepare_identity` left the schema of a call. -/
inductive Identity (Digest : Type) where
  | owned (snapshot : Json) (digest : Digest)
  | unowned
  deriving DecidableEq

variable {Digest : Type}

namespace PreparingValidator

variable (v : PreparingValidator Digest)

/-- `_check_schema_patterns`. -/
def patterns : Subject → Except Exc (List BreachDetail)
  | .owned snapshot => .ok (JsonSchemaSemanticValidator.checkSchemaPatterns snapshot)
  | .live heap schema => v.livePatterns heap schema

/-- A fresh validator, and the loop over its errors. -/
def evaluateOn (payload : Json) (subject : Subject) : SemanticOutcome :=
  JsonSchemaSemanticValidator.evaluate {
    checkSchema := fun _ => none
    iterErrors := fun payload _ => v.iterErrors payload subject
    identified := fun _ => false
    maxBreaches := v.maxBreaches } payload .null

/-- `content_digest`. -/
def contentDigest (blob : String) : Digest := v.sha256 blob

/-- `prepare_identity`. -/
def prepareIdentity (heap : Heap) (schema : PyValue) :
    Except Exc (Identity Digest) :=
  (ownAndAudit heap v.frames schema).bind fun owned =>
    match owned with
    | none => .ok .unowned
    | some snapshot =>
        (Snapshot.canonicalBlob v.floatRepr snapshot.toSnapshot).map fun blob =>
          .owned snapshot (v.contentDigest blob)

def key (digest : Digest) : CacheKey Digest :=
  preparationKey digest v.validatorCls v.formatChecking

/-- `validate` without a preparation cache, over what each of its three
readings of the schema sees. -/
def uncached (payload : Json) (guarded checked evaluated : Subject) : SemanticOutcome :=
  match v.patterns guarded with
  | .error exc => .raised exc
  | .ok (breach :: breaches) => .policyFault (breach :: breaches)
  | .ok [] =>
      match v.checkSchema checked with
      | .raised exc => .raised exc
      | .refused message =>
          .policyFault [JsonSchemaSemanticValidator.schemaBreach message]
      | .passed => v.evaluateOn payload evaluated

end PreparingValidator

/-! ## Calls in flight -/

/-- What a call does next. -/
inductive CallStage (Digest : Type) where
  | identity
  | patterns (id : Identity Digest)
  | lookup (snapshot : Json) (digest : Digest)
  | check (id : Identity Digest)
  | mark (snapshot : Json) (digest : Digest)
  | evaluate (id : Identity Digest)
  | done (outcome : SemanticOutcome)

/-- A call, and the heaps its readings of the schema saw. -/
structure SemanticCall (Digest : Type) where
  payload : Json
  schema : PyValue
  stage : CallStage Digest := .identity
  seenAt : Heap
  guardedAt : Heap
  checkedAt : Heap
  evaluatedAt : Heap

/-- The call, to go on from a stage. -/
def SemanticCall.goTo (call : SemanticCall Digest) (stage : CallStage Digest) :
    SemanticCall Digest :=
  { call with stage := stage }

/-- The call, over with an outcome. -/
def SemanticCall.finish (call : SemanticCall Digest) (outcome : SemanticOutcome) :
    SemanticCall Digest :=
  call.goTo (.done outcome)

/-- What a step reads, of the copy or of the object as it stands. -/
def Identity.subject (heap : Heap) (schema : PyValue) : Identity Digest → Subject
  | owned snapshot _ => .owned snapshot
  | unowned => .live heap schema

structure PreparedState (Digest : Type) where
  heap : Heap
  cache : SchemaPreparationCache Digest := {}
  calls : List (SemanticCall Digest) := []
  /-- The owned contents `check_schema` has passed so far. -/
  passed : List Json := []

inductive SemanticEvent where
  | validate (payload : Json) (schema : PyValue)
  /-- The callers change their objects. -/
  | mutate (heap : Heap)
  | advance (call : ℕ)
  | clear

namespace PreparingValidator

variable [DecidableEq Digest] (v : PreparingValidator Digest)

/-- The next step of a call, on the heap and the cache as they are: the
call, the cache, and the content `check_schema` passed, if it did. -/
def advanceCall (heap : Heap) (cache : SchemaPreparationCache Digest)
    (call : SemanticCall Digest) :
    SemanticCall Digest × SchemaPreparationCache Digest × List Json :=
  match call.stage with
  | .identity =>
      let call := { call with seenAt := heap }
      match v.prepareIdentity heap call.schema with
      | .error exc => (call.finish (.raised exc), cache, [])
      | .ok id => (call.goTo (.patterns id), cache, [])
  | .patterns id =>
      let call := { call with guardedAt := heap }
      match v.patterns (id.subject heap call.schema), id with
      | .error exc, _ => (call.finish (.raised exc), cache, [])
      | .ok (breach :: breaches), _ =>
          (call.finish (.policyFault (breach :: breaches)), cache, [])
      -- Only an owned copy may be looked up or marked: a live object can change after.
      | .ok [], .owned snapshot digest => (call.goTo (.lookup snapshot digest), cache, [])
      | .ok [], .unowned => (call.goTo (.check .unowned), cache, [])
  | .lookup snapshot digest =>
      let (prepared, cache) := cache.isPrepared (v.key digest)
      -- A hit skips `check_schema`, never the evaluation.
      if prepared then (call.goTo (.evaluate (.owned snapshot digest)), cache, [])
      else (call.goTo (.check (.owned snapshot digest)), cache, [])
  | .check id =>
      let call := { call with checkedAt := heap }
      match v.checkSchema (id.subject heap call.schema), id with
      | .raised exc, _ => (call.finish (.raised exc), cache, [])
      | .refused message, _ =>
          (call.finish (.policyFault [JsonSchemaSemanticValidator.schemaBreach message]), cache, [])
      | .passed, .owned snapshot digest => (call.goTo (.mark snapshot digest), cache, [snapshot])
      | .passed, .unowned => (call.goTo (.evaluate .unowned), cache, [])
  | .mark snapshot digest =>
      (call.goTo (.evaluate (.owned snapshot digest)), cache.markPrepared (v.key digest), [])
  | .evaluate id =>
      let call := { call with evaluatedAt := heap }
      (call.finish (v.evaluateOn call.payload (id.subject heap call.schema)), cache, [])
  | .done _ => (call, cache, [])

def step (e : SemanticEvent) (s : PreparedState Digest) : PreparedState Digest :=
  match e with
  | .validate payload schema =>
      { s with calls := s.calls ++ [{
          payload := payload
          schema := schema
          seenAt := s.heap
          guardedAt := s.heap
          checkedAt := s.heap
          evaluatedAt := s.heap }] }
  | .mutate heap => { s with heap := heap }
  | .clear => { s with cache := s.cache.clear }
  | .advance i =>
      match s.calls[i]? with
      | none => s
      | some call =>
          -- The cache is locked for a step and not for a call: others may step in between.
          let (call, cache, passed) := v.advanceCall s.heap s.cache call
          { s with calls := s.calls.set i call, cache := cache, passed := passed ++ s.passed }

/-! ## Transparency -/

omit [DecidableEq Digest]

/-- The outcome of a call is that of an evaluator without a cache: on the
content its schema denoted when the snapshot was taken, or, where it
denoted none, on the object as each reading saw it. -/
structure Transparent (call : SemanticCall Digest) (outcome : SemanticOutcome) : Prop where
  owned : ∀ c, Denotes call.seenAt call.schema c →
    outcome = v.uncached call.payload (.owned c) (.owned c) (.owned c)
  unowned : (∀ c, ¬ Denotes call.seenAt call.schema c) →
    outcome = v.uncached call.payload (.live call.guardedAt call.schema)
      (.live call.checkedAt call.schema) (.live call.evaluatedAt call.schema)

/-- A marker in the cache is one of this evaluator, for a content that
`check_schema` has passed. -/
def MarkersSound (cache : SchemaPreparationCache Digest) (passed : List Json) : Prop :=
  ∀ key ∈ cache.entries, ∃ c ∈ passed,
    v.checkSchema (.owned c) = .passed ∧ key = v.key (v.contentDigest (c.blob v.floatRepr))

/-- The event prepares no identity it would raise on: the walk over the
schema stays within the frames there are, and no integer of a document the
schema denotes is too long to print. -/
def Identifiable (e : SemanticEvent) (s : PreparedState Digest) : Prop :=
  ∀ i call, e = .advance i → s.calls[i]? = some call → call.stage = .identity →
    (∀ exc, ownAndAudit s.heap v.frames call.schema ≠ .error exc) ∧
      ∀ c, Denotes s.heap call.schema c → hasLongInt c = false

end PreparingValidator

end Congine
