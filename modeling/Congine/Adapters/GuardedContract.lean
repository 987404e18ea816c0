import Congine.Adapters.Guard
import Congine.UseCases.EnforcedVerdict
/-!
# What a guarded function lets out

A guard that governs, over the store of a process: whatever turns have been
taken at the store and whatever the function returned, an output its caller
gets is one whose payload keeps the last known good contract of the id.
-/

namespace Congine.CongineGuard

open ValidateContractUseCase SyncContractsUseCase

variable {Args Obj : Type} [Host]

/-- What is delivered was evaluated, and passed where the guard governs. A
bus that raises delivers nothing. -/
theorem reaches_of_delivered {g : CongineGuard Obj} {fn : GuardedFunction Args Obj} {args : Args}
    {d : Delivered Obj} (hd : (g.call fn args).1 = .ok d) :
    ∃ ctx payload r, g.Reaches fn args ctx d.carried payload r ∧ (g.Governs → r.isPass) := by
  simp only [call] at hd
  rcases hp : g.prepare fn args with exc | ⟨ctx, output, payload⟩
  · rw [hp] at hd
    cases hd
  · rw [hp] at hd
    simp only [executeView] at hd
    rcases he : ctx.validateContractUsecase.evaluateView (fn.runner ctx.validateContractUsecase)
      (g.view payload) g.contractId {} with ⟨exc | r, t⟩
    · rw [he] at hd
      cases hd
    · rw [he] at hd
      simp only [finalize] at hd
      cases hpublish : ctx.validateContractUsecase.publish
        (telemetryEvent r g.contractId g.version) with
      | error exc =>
        rw [hpublish] at hd
        cases hd
      | ok _ =>
        rw [hpublish] at hd
        simp only at hd
        split_ifs at hd with hstrict
        obtain ⟨hcarried, hraise⟩ := finish_carried hd
        have hreaches : g.Reaches fn args ctx output payload r := ⟨hp, by rw [he]⟩
        refine ⟨ctx, payload, r, hcarried ▸ hreaches, fun hgoverns => ?_⟩
        rcases hgoverns with hmode | hfail
        · exact hraise hmode
        · have := hfail ctx (g.prepare_eq_ok.mp hp).1
          by_contra hn
          exact hstrict ⟨by simpa using hn, this⟩

variable {u : SyncContractsUseCase} {v : ValidateContractUseCase} {σ : SyncState}

/-- A payload that is cleared on the store keeps the contract that governs. -/
theorem keeps_of_cleared (h : u.Vetted σ) {payload : Json} {contractId : String}
    (hcleared : (v.resolvingIn u σ).Cleared ((v.resolvingIn u σ).viewOf payload) contractId) :
    ∃ schema, u.Governing σ contractId schema ∧ v.Keeps schema payload := by
  obtain ⟨schema, hschema, -, hdict, hrules, hsemantic⟩ := hcleared.found
  have hgoverning := h.resolved hschema
  obtain ⟨native, hnative, hpass⟩ := (validate_pass_iff_rules hdict).mpr hrules
  have hclean : native.breaches = [] := by
    by_contra hne
    have hempty : native.breaches.isEmpty = false := by simpa using hne
    simp [ValidationResult.isPass, (localValidator_result hnative).2, hempty] at hpass
  obtain ⟨hobj, hmeets⟩ := (native_clean_iff hgoverning.grammar hnative).mp hclean
  refine ⟨schema, hgoverning, hobj, hmeets, fun semanticValidator hsome => ?_⟩
  have hsem := hsemantic (by simp [resolvingIn, hsome])
  simpa only [viewOf, resolvingIn, hsome] using hsem

/-- **A governing guard lets out only what keeps its contract**: in every
run of turns at the store, for every function, extractor, mode and runner,
a delivered output is one whose payload is an object that meets the schema
admitted last under the id, alive at the lookup, and that the semantic
evaluator finds nothing in. -/
theorem delivered_keeps {capacity : ℕ} {ttlSeconds : ℤ} (hstart : Started capacity ttlSeconds σ)
    (events : List ProcessEvent) {g : CongineGuard Json} (hgoverns : g.Governs) {closed : Bool}
    (hresolve : g.resolve = .ok ⟨closed, v.resolvingIn u (run u.processStep events σ)⟩)
    (hview : g.view = (v.resolvingIn u (run u.processStep events σ)).viewOf)
    (fn : GuardedFunction Args Json) (args : Args) {d : Delivered Json}
    (hd : (g.call fn args).1 = .ok d) :
    ∃ payload schema, g.payload d.carried = .ok payload ∧
      u.Governing (run u.processStep events σ) g.contractId schema ∧ v.Keeps schema payload := by
  have hvetted := vetted_run (u := u) hstart events
  obtain ⟨ctx, payload, r, hreaches, hpass⟩ := reaches_of_delivered hd
  obtain ⟨hctx, -, -, hpayload⟩ := g.prepare_eq_ok.mp hreaches.prepared
  obtain rfl := Except.ok.inj (hctx.symm.trans hresolve)
  have hverdict := (evaluateView_verdict
    (fn.runner (v.resolvingIn u (run u.processStep events σ))) (g.view payload)
    g.contractId).2 r hreaches.evaluated
  obtain ⟨-, hcleared⟩ := hverdict.enforced_of_pass (hpass hgoverns)
  rw [hview] at hcleared
  obtain ⟨schema, hgoverning, hkeeps⟩ := keeps_of_cleared hvetted hcleared
  exact ⟨payload, schema, hpayload, hgoverning, hkeeps⟩

/-- `steady`, over the store after two passes at once. -/
def stocked : ValidateContractUseCase :=
  steady.resolvingIn everySecond (run everySecond.processStep ordersTurns { schemaStorage := {} })

/-- A raising guard over that store. -/
def stockedOrders : CongineGuard Json where
  contractId := "orders"
  container := some ⟨false, stocked⟩
  defaultContainer := .error (.congine .configuration)
  mode := .raise
  view := stocked.viewOf

omit [Host] in
/-- It raises over an order without an id, and lets the other through. -/
theorem delivered_keeps_orders :
    (@call Unit Json (@stockedOrders Host.literal) Host.literal
        (.sync fun _ => .ok (.obj [])) ()).1 =
        .error (.congine .validation) ∧
      ∃ payload schema, (@stockedOrders Host.literal).payload steadyPayload = .ok payload ∧
        @Governing Host.literal everySecond
          (run (@processStep Host.literal everySecond) ordersTurns { schemaStorage := {} })
          "orders" schema ∧
        @Keeps Host.literal steady schema payload := by
  let _ := Host.literal
  have hd : (stockedOrders.call (.sync fun _ => .ok steadyPayload) ()).1 =
      .ok (.output steadyPayload) := by decide +kernel
  exact ⟨by decide +kernel, delivered_keeps (σ := { schemaStorage := {} }) ⟨rfl, rfl⟩ ordersTurns
    (g := stockedOrders) (.inl rfl) rfl rfl (.sync fun _ => .ok steadyPayload) () hd⟩

end Congine.CongineGuard
