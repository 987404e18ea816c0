import Congine.Adapters.CompleteText
import Congine.Common.Runs
import Mathlib.Data.Finset.Card
import Mathlib.Logic.Function.Basic
/-!
# The LangChain callback handler

The callbacks of `CongineCallbackHandler` over the state they share: the
active runs, the results and the latest result. A run is known by its id
as a dictionary key. An id may fail at any use the callback makes of it,
but that an empty dictionary does not look at the key it is to drop; and
the container may turn a callback away.
-/

namespace Congine

/-! ## Runs -/

/-- `_RunStatus`. -/
inductive RunStatus where
  | collectingText | refused
  deriving DecidableEq

/-- `_RunState`. -/
structure RunState where
  parts : List String := []
  length : ℕ := 0
  status : RunStatus := .collectingText
  refusalReason : Option RefusalReason := none
  deriving DecidableEq

/-- `_refuse_locked`: the first reason stands. -/
def RunState.refuse (state : RunState) (reason : RefusalReason) : RunState where
  parts := []
  length := 0
  status := .refused
  refusalReason := state.refusalReason.or (some reason)

/-- `"".join(parts)`. -/
def RunState.joined (state : RunState) : String := String.join state.parts

/-! ## Callbacks -/

/-- The uses a callback makes of a run id: its hash on admission, `_runs`,
`_results`, and `_results` again after a failure. -/
inductive KeyUse where
  | admission | runs | results | retry
  deriving DecidableEq

/-- `run_id`. What each use of an id raises is `fault`. -/
inductive RunId (Key : Type) where
  | missing
  | of (key : Key) (fault : KeyUse → Option Exc)

inductive CallbackKind (Obj : Type) where
  | newToken (token chunk : Obj)
  | «end» (response : Obj)
  | error

structure Callback (Key Obj : Type) where
  /-- `container.ensure_open()`. -/
  opened : Except Exc Unit := .ok ()
  runId : RunId Key
  kind : CallbackKind Obj

/-- What the callback does to its caller. -/
inductive CallbackOutcome where
  | returned (result : Option ValidationResult)
  | refused (reason : RefusalReason)
  | raised (exc : Exc)
  deriving DecidableEq

/-- The arguments of `execute`. -/
structure Invocation where
  payload : Json
  contractId : String
  contractVersion : String
  deriving DecidableEq

/-- What a callback answers, and the use-case calls it makes. -/
structure Answer where
  outcome : CallbackOutcome
  invoked : List Invocation := []
  deriving DecidableEq

/-! ## The handler -/

structure CongineCallbackHandler where
  contractId : String
  version : String := "latest"
  payloadKey : String := "text"
  maxBufferChars : ℤ
  /-- `validate_contract_usecase.execute`, at its `n`-th call. -/
  execute : ℕ → Invocation → Except Exc ValidationResult

/-- A dictionary: what it holds under each key, and the keys it holds. -/
structure PyDict (Key α : Type) where
  get : Key → Option α
  keys : Finset Key
  mem_keys : ∀ key, key ∈ keys ↔ (get key).isSome = true

namespace PyDict

variable {Key α : Type}

instance : CoeFun (PyDict Key α) fun _ => Key → Option α := ⟨get⟩

def empty : PyDict Key α := ⟨fun _ => none, ∅, by simp⟩

/-- What dropping a key raises of it: in an empty dictionary `dict.pop`
with a default does not hash it. -/
def popFault (d : PyDict Key α) (fault : Option Exc) : Option Exc :=
  if d.keys.card = 0 then none else fault

@[simp] theorem popFault_none (d : PyDict Key α) : d.popFault none = none := ite_self _

variable [DecidableEq Key]

/-- A value under the key, or none any more. -/
def set (d : PyDict Key α) (key : Key) (value : Option α) : PyDict Key α where
  get := Function.update d.get key value
  keys := if value.isSome then insert key d.keys else d.keys.erase key
  mem_keys := by
    intro k
    rcases eq_or_ne k key with rfl | hne
    · rcases value with _ | value
      · simp
      · simp
    · rcases value with _ | value
      · simp [hne, d.mem_keys]
      · simp [hne, d.mem_keys]

@[simp] theorem set_self (d : PyDict Key α) (key : Key) (value : Option α) :
    d.set key value key = value := Function.update_self _ _ _

theorem set_of_ne {r key : Key} (hne : r ≠ key) (d : PyDict Key α) (value : Option α) :
    d.set key value r = d r := Function.update_of_ne hne _ _

end PyDict

/-- `_runs`, `_results` and `_last_result`, and the calls made so far. -/
structure HandlerState (Key : Type) where
  runs : PyDict Key RunState
  results : PyDict Key ValidationResult
  lastResult : Option ValidationResult
  calls : ℕ

namespace HandlerState

variable {Key : Type}

def empty : HandlerState Key := ⟨.empty, .empty, none, 0⟩

def clearLast (s : HandlerState Key) : HandlerState Key := { s with lastResult := none }

def called (s : HandlerState Key) : HandlerState Key := { s with calls := s.calls + 1 }

variable [DecidableEq Key]

def setRun (s : HandlerState Key) (key : Key) (state : RunState) : HandlerState Key :=
  { s with runs := s.runs.set key (some state) }

def popRun (s : HandlerState Key) (key : Key) : HandlerState Key :=
  { s with runs := s.runs.set key none }

/-- `_record_result(key, result)`. -/
def record (s : HandlerState Key) (key : Key) (result : ValidationResult) : HandlerState Key :=
  { s with results := s.results.set key (some result), lastResult := some result }

def popResult (s : HandlerState Key) (key : Key) : HandlerState Key :=
  { s with results := s.results.set key none }

end HandlerState

namespace CongineCallbackHandler

variable {Key Obj : Type} [DecidableEq Key] [HostObjects Obj] (h : CongineCallbackHandler)

/-- `_require_run_key`. -/
def requireRunKey : RunId Key → Except InspectionSignal (Key × (KeyUse → Option Exc))
  | .missing => .error (.refusal .missingRunId)
  | .of key fault =>
      match fault .admission with
      | some exc =>
          if exc.isException then .error (.refusal .unhashableRunId) else .error (.raised exc)
      | none => .ok (key, fault)

/-- A signal at the public boundary: past the inspections only the run id
raises, so what is raised there is charged to it. -/
def publicOutcome : InspectionSignal → CallbackOutcome
  | .refusal reason => .refused reason
  | .raised exc => if exc.isException then .refused .unhashableRunId else .raised exc

/-- `_mark_refused`. -/
def markRefused (key : Key) (fault : KeyUse → Option Exc) (reason : RefusalReason)
    (s : HandlerState Key) : Except InspectionSignal (Option RefusalReason) × HandlerState Key :=
  match fault .runs with
  | some exc => (.error (.raised exc), s)
  | none =>
      let state := ((s.runs key).getD {}).refuse reason
      (.ok state.refusalReason, s.setRun key state)

/-- `_collect_token`: the standing refusal, if any. -/
def collectToken (key : Key) (fault : KeyUse → Option Exc) (token chunk : Obj)
    (s : HandlerState Key) : Except InspectionSignal (Option RefusalReason) × HandlerState Key :=
  match inspectStreamObservation token chunk with
  | .error (.refusal reason) => markRefused key fault reason s
  | .error (.raised exc) => (.error (.raised exc), s)
  | .ok text =>
      match fault .runs with
      | some exc => (.error (.raised exc), s)
      | none =>
          let state := (s.runs key).getD {}
          if state.refusalReason.isSome then (.ok state.refusalReason, s.setRun key state)
          else if h.maxBufferChars < state.length + text.length then
            -- Never clipped: a prefix would certify what was not seen.
            let state := state.refuse .streamBufferExceeded
            (.ok state.refusalReason, s.setRun key state)
          else
            (.ok none, s.setRun key { state with
              parts := state.parts ++ [text]
              length := state.length + text.length })

/-- `on_llm_new_token`. -/
def onLlmNewToken (id : RunId Key) (token chunk : Obj) (s : HandlerState Key) :
    Answer × HandlerState Key :=
  match requireRunKey id with
  | .error signal => ({ outcome := publicOutcome signal }, s)
  | .ok (key, fault) =>
      match h.collectToken key fault token chunk s with
      | (.error signal, s) => ({ outcome := publicOutcome signal }, s)
      | (.ok none, s) => ({ outcome := .returned none }, s)
      | (.ok (some reason), s) => ({ outcome := .refused reason }, s)

/-- `_establish_completion`. -/
def establishCompletion (key : Key) (fault : KeyUse → Option Exc) (response : Obj)
    (s : HandlerState Key) : Except InspectionSignal String × HandlerState Key :=
  match s.runs.popFault (fault .runs) with
  | some exc => (.error (.raised exc), s)
  | none =>
      let state := s.runs key
      -- The run is over whatever becomes of its text.
      let s := s.popRun key
      match state.bind RunState.refusalReason with
      | some reason => (.error (.refusal reason), s)
      | none =>
          match extractCompleteText response with
          | .error signal => (.error signal, s)
          | .ok finalText =>
              if state.any (·.joined ≠ finalText) then
                (.error (.refusal .streamFinalMismatch), s)
              else (.ok finalText, s)

/-- `_best_effort_record_failure`: what escapes it, if anything. -/
def bestEffortRecordFailure (key : Key) (fault : Option Exc) (s : HandlerState Key) :
    Option Exc × HandlerState Key :=
  match s.results.popFault fault with
  | some exc => (if exc.isException then none else some exc, s)
  | none => (none, (s.popResult key).clearLast)

/-- The `except` clauses of `_evaluate`. -/
def evaluationFailed (key : Key) (fault : Option Exc) (exc : Exc) (s : HandlerState Key) :
    CallbackOutcome × HandlerState Key :=
  if !exc.isException then (.raised exc, s)
  else
    match bestEffortRecordFailure key fault s with
    | (some escaped, s) => (.raised escaped, s)
    | (none, s) => (if exc.isCongine then .raised exc else .returned none, s)

/-- What `_evaluate` hands the use case. -/
def invocation (completion : String) : Invocation where
  payload := .obj [(h.payloadKey, .str completion)]
  contractId := h.contractId
  contractVersion := h.version

/-- `_evaluate`. -/
def evaluate (key : Key) (fault : KeyUse → Option Exc) (completion : String)
    (s : HandlerState Key) : Answer × HandlerState Key :=
  let invocation := h.invocation completion
  let result := h.execute s.calls invocation
  let s := s.called
  let (outcome, s) :=
    match result with
    | .error exc => evaluationFailed key (fault .results) exc s
    | .ok result =>
        match fault .results with
        | some exc => evaluationFailed key (fault .retry) exc s
        -- Only a result that was recorded is returned.
        | none => (.returned (some result), s.record key result)
  ({ outcome := outcome, invoked := [invocation] }, s)

/-- `on_llm_end`. -/
def onLlmEnd (id : RunId Key) (response : Obj) (s : HandlerState Key) :
    Answer × HandlerState Key :=
  match requireRunKey id with
  | .error (.refusal reason) => ({ outcome := .refused reason }, s.clearLast)
  | .error (.raised exc) => ({ outcome := .raised exc }, s)
  | .ok (key, fault) =>
      match establishCompletion key fault response s with
      | (.ok completion, s) => h.evaluate key fault completion s
      | (.error (.refusal reason), s) =>
          match bestEffortRecordFailure key (fault .results) s with
          | (some escaped, s) => ({ outcome := .raised escaped }, s)
          | (none, s) => ({ outcome := .refused reason }, s)
      | (.error (.raised exc), s) =>
          -- Charged to the run id, which then keeps no books either.
          if exc.isException then ({ outcome := .refused .unhashableRunId }, s.clearLast)
          else ({ outcome := .raised exc }, s)

/-- `except Exception` of `on_llm_error`: a failing id ends the bookkeeping. -/
def errorOutcome (exc : Exc) : CallbackOutcome :=
  if exc.isException ∧ !exc.isCongine then .returned none else .raised exc

/-- `on_llm_error`. No entry is ever under a missing id. -/
def onLlmError (id : RunId Key) (s : HandlerState Key) : Answer × HandlerState Key :=
  match id with
  | .missing => ({ outcome := .returned none }, s.clearLast)
  | .of key fault =>
      match s.runs.popFault (fault .runs) with
      | some exc => ({ outcome := errorOutcome exc }, s)
      | none =>
          let s := s.popRun key
          match s.results.popFault (fault .results) with
          | some exc => ({ outcome := errorOutcome exc }, s)
          | none => ({ outcome := .returned none }, (s.popResult key).clearLast)

/-- A callback. A closed container turns it away before any state is
touched. -/
def respond (c : Callback Key Obj) (s : HandlerState Key) : Answer × HandlerState Key :=
  match c.opened with
  | .error exc =>
      ({ outcome := if exc.isException ∧ !exc.isCongine then .returned none else .raised exc }, s)
  | .ok _ =>
      match c.kind with
      | .newToken token chunk => h.onLlmNewToken c.runId token chunk s
      | .end response => h.onLlmEnd c.runId response s
      | .error => onLlmError c.runId s

/-- The handler as a system: one callback after the other. -/
def step (c : Callback Key Obj) (s : HandlerState Key) : HandlerState Key := (h.respond c s).2

/-- The entries of a run are as they were. -/
structure Untouched (r : Key) (s s' : HandlerState Key) : Prop where
  runs_eq : s'.runs r = s.runs r
  results_eq : s'.results r = s.results r

section Untouched

variable {h} {r key : Key} {s : HandlerState Key}

omit [DecidableEq Key] in
theorem Untouched.refl (s : HandlerState Key) : Untouched r s s := ⟨rfl, rfl⟩

omit [DecidableEq Key] in
theorem Untouched.trans {s₁ s₂ s₃ : HandlerState Key} (h₁ : Untouched r s₁ s₂)
    (h₂ : Untouched r s₂ s₃) : Untouched r s₁ s₃ :=
  ⟨h₂.runs_eq.trans h₁.runs_eq, h₂.results_eq.trans h₁.results_eq⟩

theorem untouched_setRun (hne : r ≠ key) (state : RunState) :
    Untouched r s (s.setRun key state) :=
  ⟨PyDict.set_of_ne hne _ _, rfl⟩

theorem untouched_popRun (hne : r ≠ key) : Untouched r s (s.popRun key) :=
  ⟨PyDict.set_of_ne hne _ _, rfl⟩

theorem untouched_popResult (hne : r ≠ key) : Untouched r s (s.popResult key).clearLast :=
  ⟨rfl, PyDict.set_of_ne hne _ _⟩

theorem untouched_record (hne : r ≠ key) (result : ValidationResult) :
    Untouched r s (s.record key result) :=
  ⟨rfl, PyDict.set_of_ne hne _ _⟩

theorem untouched_collectToken (hne : r ≠ key) (fault : KeyUse → Option Exc)
    (token chunk : Obj) :
    Untouched r s (h.collectToken key fault token chunk s).2 := by
  unfold collectToken markRefused
  split
  · split
    · exact .refl s
    · exact untouched_setRun hne _
  · exact .refl s
  · split
    · exact .refl s
    · simp only
      split_ifs
      · exact untouched_setRun hne _
      · exact untouched_setRun hne _
      · exact untouched_setRun hne _

theorem untouched_establishCompletion (hne : r ≠ key) (fault : KeyUse → Option Exc)
    (response : Obj) :
    Untouched r s (establishCompletion key fault response s).2 := by
  unfold establishCompletion
  split
  · exact .refl s
  · have hpop : Untouched r s (s.popRun key) := untouched_popRun hne
    simp only
    split
    · exact hpop
    · split
      · exact hpop
      · split_ifs
        · exact hpop
        · exact hpop

theorem untouched_bestEffort (hne : r ≠ key) (fault : Option Exc) :
    Untouched r s (bestEffortRecordFailure key fault s).2 := by
  unfold bestEffortRecordFailure
  split
  · exact .refl s
  · exact untouched_popResult hne

theorem untouched_evaluationFailed (hne : r ≠ key) (fault : Option Exc) (exc : Exc) :
    Untouched r s (evaluationFailed key fault exc s).2 := by
  have hbest := untouched_bestEffort (s := s) hne fault
  unfold evaluationFailed
  split
  · exact .refl s
  · generalize bestEffortRecordFailure key fault s = out at hbest
    rcases out with ⟨_ | escaped, s'⟩
    · exact hbest
    · exact hbest

theorem untouched_evaluate (hne : r ≠ key) (fault : KeyUse → Option Exc)
    (completion : String) :
    Untouched r s (h.evaluate key fault completion s).2 := by
  have hcalled : Untouched r s s.called := ⟨rfl, rfl⟩
  unfold evaluate
  simp only
  split
  · exact hcalled.trans (untouched_evaluationFailed hne _ _)
  · split
    · exact hcalled.trans (untouched_evaluationFailed hne _ _)
    · exact hcalled.trans (untouched_record hne _)

end Untouched

variable {h}

theorem untouched_onLlmNewToken {r key : Key} (hne : r ≠ key) (fault : KeyUse → Option Exc)
    (token chunk : Obj) (s : HandlerState Key) :
    Untouched r s (h.onLlmNewToken (.of key fault) token chunk s).2 := by
  have hcollect := untouched_collectToken (h := h) (s := s) hne fault token chunk
  unfold onLlmNewToken
  rcases hadm : fault .admission with _ | exc
  · simp only [requireRunKey, hadm]
    generalize h.collectToken key fault token chunk s = out at hcollect
    rcases out with ⟨signal | _ | reason, s'⟩
    · exact hcollect
    · exact hcollect
    · exact hcollect
  · simp only [requireRunKey, hadm]
    split_ifs
    · exact .refl s
    · exact .refl s

theorem untouched_onLlmEnd {r key : Key} (hne : r ≠ key) (fault : KeyUse → Option Exc)
    (response : Obj) (s : HandlerState Key) :
    Untouched r s (h.onLlmEnd (.of key fault) response s).2 := by
  have hclear : ∀ s' : HandlerState Key, Untouched r s' s'.clearLast := fun _ => ⟨rfl, rfl⟩
  have hestablish := untouched_establishCompletion (s := s) hne fault response
  unfold onLlmEnd
  rcases hadm : fault .admission with _ | exc
  · simp only [requireRunKey, hadm]
    generalize establishCompletion key fault response s = out at hestablish
    rcases out with ⟨(reason | exc) | completion, s'⟩
    · have hbest := untouched_bestEffort (s := s') hne (fault .results)
      simp only
      generalize bestEffortRecordFailure key (fault .results) s' = out at hbest
      rcases out with ⟨_ | escaped, s''⟩
      · exact hestablish.trans hbest
      · exact hestablish.trans hbest
    · simp only
      split_ifs
      · exact hestablish.trans (hclear s')
      · exact hestablish
    · exact hestablish.trans (untouched_evaluate hne fault completion)
  · simp only [requireRunKey, hadm]
    split_ifs
    · exact hclear s
    · exact .refl s

omit [HostObjects Obj] in
theorem untouched_onLlmError {r key : Key} (hne : r ≠ key) (fault : KeyUse → Option Exc)
    (s : HandlerState Key) : Untouched r s (onLlmError (.of key fault) s).2 := by
  have hpop : Untouched r s (s.popRun key) := untouched_popRun hne
  unfold onLlmError
  simp only
  split
  · exact .refl s
  · split
    · exact hpop
    · exact hpop.trans (untouched_popResult hne)

/-- **A callback leaves the entries of every other run alone.** -/
theorem untouched_step {r : Key} {c : Callback Key Obj}
    (hc : ∀ key fault, c.runId = .of key fault → r ≠ key) (s : HandlerState Key) :
    Untouched r s (h.step c s) := by
  have hclear : Untouched r s s.clearLast := ⟨rfl, rfl⟩
  unfold step respond
  split
  · exact .refl s
  · rcases hid : c.runId with _ | ⟨key, fault⟩
    · split
      · exact .refl s
      · exact hclear
      · exact hclear
    · have hne := hc key fault hid
      split
      · exact untouched_onLlmNewToken hne fault _ _ s
      · exact untouched_onLlmEnd hne fault _ s
      · exact untouched_onLlmError hne fault s

end CongineCallbackHandler

/-! ## Plain responses -/

/-- The objects of a response that is one plain text. -/
inductive PlainObject where
  | none
  | text (s : String)
  | generation (s : String)
  | group (s : String)
  | groups (s : String)
  | result (s : String)

instance : HostObjects PlainObject where
  isNone
    | .none => true
    | _ => false
  getattr
    | .result s, "generations" => .ok (some (.groups s))
    | .generation s, "text" => .ok (some (.text s))
    | _, _ => .ok Option.none
  asStr
    | .text s => .ok (some s)
    | _ => .ok Option.none
  asEnum _ := .ok Option.none
  isEmptySized _ := .ok false
  isMapping _ := .ok false
  get _ _ := .ok Option.none
  values _ := []
  asSequence
    | .groups s => .ok (some [.group s])
    | .group s => .ok (some [.generation s])
    | _ => .ok Option.none
  normalize := id

/-- A buffer of four characters over a use case that passes everything. -/
def plainHandler : CongineCallbackHandler where
  contractId := "chat"
  maxBufferChars := 4
  execute _ _ := .ok { status := .pass }

end Congine
