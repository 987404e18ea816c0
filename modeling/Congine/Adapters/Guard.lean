import Congine.UseCases.PayloadView
/-!
# The guard around a function

`congine_guard` runs the function it wraps, validates what it returned
and decides what the caller gets. The three modes, the synchronous and
the asynchronous wrapper and every way a call can end are here; the
function, its extractor and the objects they make are parameters.
-/

namespace Congine

/-! ## What the decorator is given -/

/-- `_MODES`. Any other mode is refused where the decorator is applied. -/
inductive GuardMode where
  | envelope | output | raise
  deriving DecidableEq

/-- A function to wrap, by `inspect.iscoroutinefunction`. -/
inductive GuardedFunction (Args Obj : Type) where
  | sync (fn : Args → Except Exc Obj)
  | async (fn : Args → Except Exc Obj)

/-- What calling it, or awaiting the call, returns or raises. -/
def GuardedFunction.invoke {Args Obj : Type} : GuardedFunction Args Obj → Args → Except Exc Obj
  | sync fn => fn
  | async fn => fn

/-- A container, as the guard uses one. -/
structure GuardContext where
  closed : Bool
  validateContractUsecase : ValidateContractUseCase

/-- `ensure_open`. -/
def GuardContext.ensureOpen (ctx : GuardContext) : Except Exc Unit :=
  if ctx.closed then .error (.congine .lifecycle) else .ok ()

/-- The runner each wrapper validates on: `execute` in the one,
`execute_async` in the other. -/
def GuardedFunction.runner {Args Obj : Type} (u : ValidateContractUseCase) :
    GuardedFunction Args Obj → EvaluationStage → ℤ → RunOutcome
  | sync _ => u.runWithTimeout
  | async _ => u.runWithTimeoutAsync

/-- What a wrapper hands its caller. -/
inductive Delivered (Obj : Type) where
  | output (output : Obj)
  | envelope (output : Obj) (validationResult : ValidationResult)
  deriving DecidableEq

/-- The wrapped function's output, in whatever it is delivered. -/
def Delivered.carried {Obj : Type} : Delivered Obj → Obj
  | output o => o
  | envelope o _ => o

structure CongineGuard (Obj : Type) where
  contractId : String
  version : String := "latest"
  container : Option GuardContext := none
  /-- `ServiceContainer.get_default()`. -/
  defaultContainer : Except Exc GuardContext
  mode : GuardMode := .envelope
  extractor : Option (Obj → Except Exc Obj) := none
  /-- An object, as the workflow reads it. -/
  view : Obj → PayloadView

namespace CongineGuard

open ValidateContractUseCase

variable {Args Obj : Type} (g : CongineGuard Obj)

/-! ## A call -/

/-- `_resolve`. -/
def resolve : Except Exc GuardContext :=
  match g.container with
  | some container => .ok container
  | none => g.defaultContainer

/-- `_payload`. -/
def payload (output : Obj) : Except Exc Obj :=
  match g.extractor with
  | some extractor => extractor output
  | none => .ok output

/-- `_finish`. -/
def finish (output : Obj) (validationResult : ValidationResult) : Except Exc (Delivered Obj) :=
  match g.mode with
  | .raise =>
      -- The output is withheld, but the function has run.
      if !validationResult.isPass then .error (.congine .validation) else .ok (.output output)
  | .output => .ok (.output output)
  | .envelope => .ok (.envelope output validationResult)

/-- What stands before the validation: the container, open, what the
function returned and the payload made of it. -/
def prepare (fn : GuardedFunction Args Obj) (args : Args) :
    Except Exc (GuardContext × Obj × Obj) :=
  g.resolve.bind fun ctx =>
    ctx.ensureOpen.bind fun _ =>
      (fn.invoke args).bind fun output =>
        (g.payload output).map fun payload => (ctx, output, payload)

variable [Host]

/-- `sync_wrapper` and `async_wrapper`. The trace is that of the one
execution of the use case, and empty where there was none. -/
def call (fn : GuardedFunction Args Obj) (args : Args) : Except Exc (Delivered Obj) × Trace :=
  match g.prepare fn args with
  | .error exc => (.error exc, {})
  | .ok (ctx, output, payload) =>
      let u := ctx.validateContractUsecase
      match u.executeView (fn.runner u) (g.view payload) g.contractId g.version with
      | (.error exc, t) => (.error exc, t)
      | (.ok result, t) => (g.finish output result, t)

/-! ## Governed calls -/

/-- The call reaches a result: the payload extracted from this output was
evaluated on this container. -/
structure Reaches (fn : GuardedFunction Args Obj) (args : Args) (ctx : GuardContext)
    (output payload : Obj) (r : ValidationResult) : Prop where
  prepared : g.prepare fn args = .ok (ctx, output, payload)
  evaluated : (ctx.validateContractUsecase.evaluateView (fn.runner ctx.validateContractUsecase)
    (g.view payload) g.contractId {}).1 = .ok r

omit [Host] in
/-- What the container resolved, the output returned and the payload
extracted have to do with each other. -/
theorem prepare_eq_ok {fn : GuardedFunction Args Obj} {args : Args} {ctx : GuardContext}
    {output payload : Obj} :
    g.prepare fn args = .ok (ctx, output, payload) ↔
      g.resolve = .ok ctx ∧ ctx.closed = false ∧ fn.invoke args = .ok output ∧
        g.payload output = .ok payload := by
  unfold prepare GuardContext.ensureOpen
  rcases g.resolve with exc | ctx'
  · simp [Except.bind]
  · rcases fn.invoke args with exc | output'
    · cases hc : ctx'.closed <;> simp [Except.bind, hc]
    · rcases hp : g.payload output' with exc | payload' <;> cases hc : ctx'.closed <;>
        simp [Except.bind, Except.map, hc, hp]
      all_goals grind

/-- The guard governs what its caller gets: it raises in its own name, or
the container it runs on does. -/
def Governs : Prop :=
  g.mode = .raise ∨ ∀ ctx, g.resolve = .ok ctx → ctx.validateContractUsecase.failMode = .strict

/-- The bus of the container takes what it is handed. -/
def BusReturns : Prop :=
  ∀ ctx, g.resolve = .ok ctx → ∀ e, ctx.validateContractUsecase.publish e = .ok ()

/-- What holds of one call. -/
structure Governed (fn : GuardedFunction Args Obj) (args : Args) : Prop where
  /-- What is delivered was validated, enforced and passed. -/
  delivered : g.Governs → ∀ d, (g.call fn args).1 = .ok d → ∃ ctx payload r,
    g.Reaches fn args ctx d.carried payload r ∧ r.isPass ∧ r.isEnforced ∧
      ctx.validateContractUsecase.Cleared (g.view payload) g.contractId
  /-- Nothing that passes is held back. -/
  passed : ∀ ctx output payload r, g.Reaches fn args ctx output payload r → r.isPass →
    ∃ d, (g.call fn args).1 = .ok d ∧ d.carried = output
  raised : g.Governs →
    (∀ ctx output payload r, g.Reaches fn args ctx output payload r →
      ¬ (r.isPass ∧ r.isEnforced)) →
    ∃ exc, (g.call fn args).1 = .error exc
  /-- An execution with a result leaves one event behind, also where the
  call ends by raising. -/
  published : ∀ ctx output payload r, g.Reaches fn args ctx output payload r →
    ∃ e, (g.call fn args).2.events = [e] ∧ e.contractId = g.contractId ∧
      e.contractVersion = g.version ∧ e.status = r.status ∧ e.degradedReason = r.degradedReason
  /-- One without a result raises, and leaves none. -/
  silent : (∀ ctx output payload r, ¬ g.Reaches fn args ctx output payload r) →
    (g.call fn args).2.events = [] ∧ ∃ exc, (g.call fn args).1 = .error exc

variable {g}

/-- **A call that reaches a result** publishes it and goes by the strict
mode, then by the guard's. -/
theorem call_of_reaches (hbus : g.BusReturns) {fn : GuardedFunction Args Obj} {args : Args}
    {ctx : GuardContext} {output payload : Obj} {r : ValidationResult}
    (h : g.Reaches fn args ctx output payload r) :
    (g.call fn args).2.events = [telemetryEvent r g.contractId g.version] ∧
      (g.call fn args).1 =
        if !r.isPass ∧ ctx.validateContractUsecase.failMode = .strict then
          .error (.congine .validation)
        else g.finish output r := by
  obtain ⟨hresolve, -, -, -⟩ := g.prepare_eq_ok.mp h.prepared
  have hpublish := hbus ctx hresolve
  obtain ⟨hevents, -⟩ := evaluateView_verdict (u := ctx.validateContractUsecase)
    (fn.runner ctx.validateContractUsecase) (g.view payload) g.contractId
  have hevaluated := h.evaluated
  simp only [call, h.prepared, ValidateContractUseCase.executeView]
  generalize ctx.validateContractUsecase.evaluateView (fn.runner ctx.validateContractUsecase)
    (g.view payload) g.contractId {} = out at hevents hevaluated
  obtain ⟨res, t⟩ := out
  obtain rfl : res = .ok r := hevaluated
  simp only [ValidateContractUseCase.finalize, hpublish]
  have hone : (t.publish (telemetryEvent r g.contractId g.version)).events =
      [telemetryEvent r g.contractId g.version] := by
    rw [Trace.events_publish, hevents, List.nil_append]
  -- Published by now, whether or not the strict mode raises over it.
  split_ifs with hstrict
  · exact ⟨hone, rfl⟩
  · exact ⟨hone, rfl⟩

/-- A call that reaches none raises what it met on the way. -/
theorem call_of_not_reaches {fn : GuardedFunction Args Obj} {args : Args}
    (h : ∀ ctx output payload r, ¬ g.Reaches fn args ctx output payload r) :
    (g.call fn args).2.events = [] ∧ ∃ exc, (g.call fn args).1 = .error exc := by
  simp only [call]
  rcases hp : g.prepare fn args with exc | ⟨ctx, output, payload⟩
  · exact ⟨rfl, exc, rfl⟩
  · obtain ⟨hevents, -⟩ := evaluateView_verdict (u := ctx.validateContractUsecase)
      (fn.runner ctx.validateContractUsecase) (g.view payload) g.contractId
    have hreach := fun r hr => h ctx output payload r ⟨hp, hr⟩
    simp only [ValidateContractUseCase.executeView]
    generalize ctx.validateContractUsecase.evaluateView (fn.runner ctx.validateContractUsecase)
      (g.view payload) g.contractId {} = out at hevents hreach
    rcases out with ⟨exc | r, t⟩
    · exact ⟨hevents, exc, rfl⟩
    · exact absurd rfl (hreach r)

omit [Host] in
/-- What a guard that lets a result through carries is the output. -/
theorem finish_carried {output : Obj} {r : ValidationResult} {d : Delivered Obj}
    (h : g.finish output r = .ok d) : d.carried = output ∧ (g.mode = .raise → r.isPass) := by
  unfold finish at h
  split at h
  · split_ifs at h with hp
    obtain rfl := Except.ok.inj h
    exact ⟨rfl, fun _ => by simpa using hp⟩
  · next hmode =>
    obtain rfl := Except.ok.inj h
    exact ⟨rfl, fun hr => by simp [hr] at hmode⟩
  · next hmode =>
    obtain rfl := Except.ok.inj h
    exact ⟨rfl, fun hr => by simp [hr] at hmode⟩

omit [Host] in
theorem finish_of_pass (output : Obj) {r : ValidationResult} (hp : r.isPass) :
    ∃ d, g.finish output r = .ok d := by
  unfold finish
  rw [hp]
  cases g.mode with
  | envelope => exact ⟨_, rfl⟩
  | output => exact ⟨_, rfl⟩
  | raise => exact ⟨_, rfl⟩

/-- **A governed guard delivers a pass and nothing else.** -/
theorem pass_of_delivered (hbus : g.BusReturns) (hgoverns : g.Governs)
    {fn : GuardedFunction Args Obj} {args : Args} {ctx : GuardContext} {output payload : Obj}
    {r : ValidationResult} (h : g.Reaches fn args ctx output payload r) {d : Delivered Obj}
    (hd : (g.call fn args).1 = .ok d) : d.carried = output ∧ r.isPass := by
  rw [(call_of_reaches hbus h).2] at hd
  split_ifs at hd with hstrict
  obtain ⟨hcarried, hraise⟩ := finish_carried hd
  refine ⟨hcarried, ?_⟩
  rcases hgoverns with hmode | hfail
  · exact hraise hmode
  · have := hfail ctx (g.prepare_eq_ok.mp h.prepared).1
    by_contra hn
    exact hstrict ⟨by simpa using hn, this⟩

/-- **Governed delivery**: for every function, extractor, object, runner
and container whose bus returns, a guard that governs hands over an output
only where the payload extracted from it was evaluated, enforced, passed
and cleared, and raises otherwise; in every mode an execution with a
result publishes that result, once, before anything is raised over it. -/
theorem governed_delivery (g : CongineGuard Obj) (hbus : g.BusReturns)
    (fn : GuardedFunction Args Obj) (args : Args) : g.Governed fn args := by
  have hverdict : ∀ ctx output payload r, g.Reaches fn args ctx output payload r →
      ctx.validateContractUsecase.Verdict (g.view payload) g.contractId r := by
    intro ctx output payload r h
    exact (evaluateView_verdict (fn.runner ctx.validateContractUsecase) (g.view payload)
      g.contractId).2 r h.evaluated
  have hdelivered : g.Governs → ∀ d, (g.call fn args).1 = .ok d → ∃ ctx payload r,
      g.Reaches fn args ctx d.carried payload r ∧ r.isPass := by
    intro hgoverns d hd
    -- Delivered without such a result, the call reached none, or one that did not pass.
    by_contra hn
    push Not at hn
    by_cases hr : ∃ ctx output payload r, g.Reaches fn args ctx output payload r
    · obtain ⟨ctx, output, payload, r, h⟩ := hr
      obtain ⟨rfl, hp⟩ := pass_of_delivered hbus hgoverns h hd
      exact hn ctx payload r h hp
    · push Not at hr
      obtain ⟨-, exc, hexc⟩ := call_of_not_reaches hr
      rw [hexc] at hd
      cases hd
  refine ⟨?_, ?_, ?_, ?_, call_of_not_reaches⟩
  · intro hgoverns d hd
    obtain ⟨ctx, payload, r, h, hp⟩ := hdelivered hgoverns d hd
    obtain ⟨henforced, hcleared⟩ := (hverdict _ _ _ _ h).enforced_of_pass hp
    exact ⟨ctx, payload, r, h, hp, henforced, hcleared⟩
  · intro ctx output payload r h hp
    obtain ⟨d, hd⟩ := finish_of_pass (g := g) output hp
    refine ⟨d, ?_, (finish_carried hd).1⟩
    rw [(call_of_reaches hbus h).2, if_neg (by simp [hp]), hd]
  · intro hgoverns hno
    rcases hcall : (g.call fn args).1 with exc | d
    · exact ⟨exc, rfl⟩
    · obtain ⟨ctx, payload, r, h, hp⟩ := hdelivered hgoverns d hcall
      exact absurd ⟨hp, ((hverdict _ _ _ _ h).enforced_of_pass hp).1⟩ (hno _ _ _ _ h)
  · intro ctx output payload r h
    exact ⟨_, (call_of_reaches hbus h).1, rfl, rfl, rfl, (hverdict _ _ _ _ h).event_reason _⟩

/-- A raising guard on the contract of `steady`. -/
def gatedOrders : CongineGuard Json where
  contractId := "orders"
  container := some ⟨false, steady⟩
  defaultContainer := .error (.congine .configuration)
  mode := .raise
  view := steady.viewOf

omit [Host] in
/-- It lets an order through, and raises over a text. -/
theorem governed_delivery_orders :
    (@call Unit Json gatedOrders Host.literal (.sync fun _ => .ok steadyPayload) ()).1 =
        .ok (.output steadyPayload) ∧
      (@call Unit Json gatedOrders Host.literal (.sync fun _ => .ok (.str "late")) ()).1 =
        .error (.congine .validation) ∧
      @Governed Unit Json gatedOrders Host.literal (.sync fun _ => .ok steadyPayload) () := by
  have hbus : gatedOrders.BusReturns := by
    intro ctx hctx e
    obtain rfl := Except.ok.inj hctx
    rfl
  exact ⟨by decide +kernel, by decide +kernel,
    @governed_delivery Unit Json Host.literal gatedOrders hbus (.sync fun _ => .ok steadyPayload)
      ()⟩

end CongineGuard

end Congine
