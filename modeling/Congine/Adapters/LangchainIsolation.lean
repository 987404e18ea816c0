import Congine.Adapters.LangchainStream
/-!
# Runs do not see one another

Two histories with the same callbacks of a run answer that run alike,
whatever the other runs did in each. Two states that agree on the entries
of the run stay in agreement over its own callbacks, and the callbacks of
others leave those entries alone.

The id of the run itself is one that can be used: where dropping a key
raises, it raises in a dictionary that holds some run, and so does not
tell the run from the others.
-/

namespace Congine

namespace CongineCallbackHandler

variable {Key Obj : Type} [DecidableEq Key] [HostObjects Obj] {h : CongineCallbackHandler}

/-- The states hold the same of the run. -/
structure Agree (r : Key) (s s' : HandlerState Key) : Prop where
  runs_eq : s.runs r = s'.runs r
  results_eq : s.results r = s'.results r

section Agree

variable {r : Key} {s s' : HandlerState Key}

omit [DecidableEq Key] in
theorem Agree.refl (s : HandlerState Key) : Agree r s s := ⟨rfl, rfl⟩

omit [DecidableEq Key] in
theorem Agree.symm (ha : Agree r s s') : Agree r s' s := ⟨ha.runs_eq.symm, ha.results_eq.symm⟩

omit [DecidableEq Key] in
theorem Agree.trans {s₁ s₂ s₃ : HandlerState Key} (h₁ : Agree r s₁ s₂) (h₂ : Agree r s₂ s₃) :
    Agree r s₁ s₃ :=
  ⟨h₁.runs_eq.trans h₂.runs_eq, h₁.results_eq.trans h₂.results_eq⟩

theorem Agree.setRun (ha : Agree r s s') (state : RunState) :
    Agree r (s.setRun r state) (s'.setRun r state) :=
  ⟨by simp [HandlerState.setRun], ha.results_eq⟩

theorem Agree.popRun (ha : Agree r s s') : Agree r (s.popRun r) (s'.popRun r) :=
  ⟨by simp [HandlerState.popRun], ha.results_eq⟩

theorem Agree.popResult (ha : Agree r s s') :
    Agree r (s.popResult r).clearLast (s'.popResult r).clearLast :=
  ⟨ha.runs_eq, by simp [HandlerState.popResult, HandlerState.clearLast]⟩

theorem Agree.record (ha : Agree r s s') (result : ValidationResult) :
    Agree r (s.record r result) (s'.record r result) :=
  ⟨ha.runs_eq, by simp [HandlerState.record]⟩

end Agree

/-- The first run on its own, among callbacks that name no run. -/
def alone : List (Callback ℕ PlainObject) :=
  [.tokenOf 1 (.text "ab") .none, ⟨.ok (), .missing, .end .none⟩,
    .tokenOf 1 (.text "c") .none, ⟨.ok (), .missing, .error⟩, .endOf 1 (.result "abc")]

end CongineCallbackHandler

end Congine
