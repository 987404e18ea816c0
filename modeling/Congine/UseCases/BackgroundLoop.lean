import Congine.Infrastructure.BackgroundSync
import Congine.UseCases.SyncTotality
/-!
# The sync loop over the sync use case

What a pass of the use case raises is under `Exception`, unless the outside
raised it: the network, the decoder, or the snapshot's file when it is read
or written. So a loop that drives the use case is alive until it is stopped.
-/

namespace Congine

/-- Nothing the outside raises in a pass is outside `Exception`. -/
structure Calm (o : Outside) (σ : SyncState) : Prop where
  exchange : ∀ exc, o.exchange = .error exc → exc.isException = true
  json : ∀ response exc, o.exchange = .ok response → response.json = .error exc →
    exc.isException = true
  snapshot : ∀ exc, σ.snapshot = .unreadable exc → exc.isException = true
  save : ∀ exc, o.save = .failed exc → exc.isException = true

/-! ## What the parts of a pass raise -/

theorem contractsOf_error {data : Json} {exc : Exc} (h : contractsOf data = .error exc) :
    exc.isException = true := by
  unfold contractsOf pyGetItem at h
  cases data with
  | obj fields =>
    rcases hlookup : fields.lookup "contracts" with _ | contracts
    · simp only [hlookup, Except.bind, Except.error.injEq] at h
      rw [← h]
      rfl
    · simp only [hlookup, Except.bind] at h
      split at h
      · cases h
      · rw [← Except.error.inj h]
        rfl
  | _ =>
    simp only [Except.bind, Except.error.injEq] at h
    rw [← h]
    rfl

theorem fetchActiveContracts_error {o : Outside} {σ : SyncState} (hcalm : Calm o σ)
    {maxHttpResponseBytes : ℤ} {exc : Exc}
    (h : fetchActiveContracts maxHttpResponseBytes o.exchange = .error exc) :
    exc.isException = true := by
  unfold fetchActiveContracts at h
  rcases hread : readContracts maxHttpResponseBytes o.exchange with exc' | contracts
  · have hexc' : exc'.isException = true := by
      unfold readContracts at hread
      rcases hexchange : o.exchange with e | response
      · rw [hexchange] at hread
        simp only [Except.bind, Except.error.injEq] at hread
        exact hread ▸ hcalm.exchange e hexchange
      · rw [hexchange] at hread
        simp only [Except.bind] at hread
        split_ifs at hread
        · rw [← Except.error.inj hread]
          rfl
        · rcases hjson : response.json with e | data
          · rw [hjson] at hread
            simp only [Except.error.injEq] at hread
            exact hread ▸ hcalm.json response e hexchange hjson
          · rw [hjson] at hread
            exact contractsOf_error hread
    rw [hread] at h
    simp only at h
    split_ifs at h
    · rw [← Except.error.inj h]
      rfl
    · exact Except.error.inj h ▸ hexc'
  · rw [hread] at h
    cases h

theorem loadSnapshot_error {o : Outside} {σ : SyncState} (hcalm : Calm o σ) {exc : Exc}
    (h : loadSnapshot σ.snapshot = .error exc) : exc.isException = true := by
  rcases hfile : σ.snapshot with _ | _ | exc' | snapshot
  · rw [hfile] at h
    cases h
  · rw [hfile] at h
    cases h
  · rw [hfile] at h
    simp only [loadSnapshot] at h
    split_ifs at h
    exact Except.error.inj h ▸ hcalm.snapshot exc' hfile
  · rw [hfile] at h
    cases h

theorem LFUCache.incrementFreq_error {κ V : Type} [DecidableEq κ] {c : LFUCache κ V} {key : κ}
    {exc : Exc} (h : c.incrementFreq key = .error exc) : exc.isException = true := by
  unfold LFUCache.incrementFreq at h
  split at h
  · rw [← Except.error.inj h]
    rfl
  · split at h
    · rw [← Except.error.inj h]
      rfl
    · split_ifs at h
      rw [← Except.error.inj h]
      rfl

theorem LFUCache.evictLfu_error {κ V : Type} [DecidableEq κ] {c : LFUCache κ V} {exc : Exc}
    (h : c.evictLfu = .error exc) : exc.isException = true := by
  unfold LFUCache.evictLfu at h
  split at h
  · cases h
  · split at h
    · cases h
    · split at h
      · cases h
      · rw [← Except.error.inj h]
        rfl

theorem LFUCache.put_error {κ V : Type} [DecidableEq κ] {c : LFUCache κ V} {now : ℚ} {key : κ}
    {value : V} {ttlSeconds : Option ℤ} {exc : Exc}
    (h : c.put now key value ttlSeconds = .error exc) : exc.isException = true := by
  unfold LFUCache.put at h
  split_ifs at h
  · exact incrementFreq_error h
  · rcases hevict : c.evictLfu with e | c'
    · rw [hevict] at h
      exact Except.error.inj h ▸ evictLfu_error hevict
    · rw [hevict] at h
      cases h
  · cases h

namespace SyncContractsUseCase

variable (u : SyncContractsUseCase)

theorem fetch_isException {o : Outside} {σ : SyncState} (hcalm : Calm o σ) {exc : Exc}
    (h : (u.fetch o σ).1 = .error exc) : exc.isException = true := by
  by_cases hback : u.FallsBack o σ
  · rw [fetch_of_fallsBack hback] at h
    rcases hload : loadSnapshot σ.snapshot with exc' | contracts
    · rw [hload] at h
      exact Except.error.inj h ▸ loadSnapshot_error hcalm hload
    · rw [hload] at h
      cases h
  · rw [(fetch_of_not_fallsBack hback).2] at h
    rcases hfetch : fetchActiveContracts u.maxHttpResponseBytes o.exchange with exc' | contracts
    · rw [hfetch] at h
      exact Except.error.inj h ▸ fetchActiveContracts_error hcalm hfetch
    · rw [hfetch] at h
      cases h

theorem storagePut_isException {contractId schema : Json} {σ : SyncState} {exc : Exc}
    (h : (u.storagePut contractId schema σ).1 = .error exc) : exc.isException = true := by
  unfold storagePut at h
  split_ifs at h
  dsimp only at h
  split at h
  · rw [← Except.error.inj h]
    rfl
  · split at h
    · next hput => exact Except.error.inj h ▸ LFUCache.put_error hput
    · cases h

variable [Host]

theorem primeCache_isException (contracts : List Json) {loaded : ℕ} {σ : SyncState} {exc : Exc}
    (h : (u.primeCache contracts loaded σ).1 = .error exc) : exc.isException = true := by
  fun_induction u.primeCache contracts loaded σ with
  | case1 => cases h
  | case2 _ _ _ _ _ _ _ ih => exact ih h
  | case3 _ _ _ _ _ _ _ _ _ ih => exact ih h
  | case4 loaded σ fields contracts contractId schema hkeep σ₁ hadmit exc' σ₂ hput =>
    obtain rfl : exc' = exc := Except.error.inj h
    exact storagePut_isException u (by rw [hput])
  | case5 _ _ _ _ _ _ _ _ _ _ _ _ ih => exact ih h
  | case6 =>
    rw [← Except.error.inj h]
    rfl

omit [Host] in
/-- The write of the snapshot adds only what it raises itself. -/
theorem returnedAfter_error {contracts : List Json} {fetched : Bool} {o : Outside}
    {result : Except Exc ℕ} {exc : Exc}
    (h : returnedAfter contracts fetched o result = .error exc) :
    result = .error exc ∨ o.save = .failed exc := by
  rcases result with exc' | loaded
  · exact .inl h
  · rcases hsave : o.save with _ | _ | exc' <;> simp only [returnedAfter, hsave] at h
    · cases h
    · cases h
    · split_ifs at h
      exact .inr (by rw [Except.error.inj h])

/-- **What a pass raises is under `Exception`**, where the outside is calm. -/
theorem syncOnce_isException {o : Outside} {σ : SyncState} (hcalm : Calm o σ) {exc : Exc}
    (h : (u.syncOnce o σ).1 = .error exc) : exc.isException = true := by
  rcases hfetch : (u.fetch o σ).1 with exc' | ⟨contracts, fetched⟩
  · rw [syncOnce_error hfetch] at h
    exact Except.error.inj h ▸ u.fetch_isException hcalm hfetch
  · rw [syncOnce_eq hfetch] at h
    rcases returnedAfter_error h with hloop | hsave
    · exact u.primeCache_isException _ hloop
    · exact hcalm.save exc hsave

end SyncContractsUseCase

/-! ## The loop -/

namespace BackgroundSyncWorker

variable [Host] (u : SyncContractsUseCase)

/-- A pass that an event ends is one of the use case, in a calm outside, and
logging its failure raises nothing. -/
def Drives (e : Event) : Prop :=
  ∀ i pass, e = .turn i pass →
    (∃ o σ, Calm o σ ∧ pass.result = (u.syncOnce o σ).1) ∧ pass.logged = .ok ()

variable {u} {w : BackgroundSyncWorker}

theorem not_escapes {pass : PassEnd} (hpass : ∃ o σ, Calm o σ ∧ pass.result = (u.syncOnce o σ).1)
    (hlogged : pass.logged = .ok ()) : w.escapes pass = false := by
  obtain ⟨o, σ, hcalm, hresult⟩ := hpass
  unfold escapes safeSync
  rcases hr : pass.result with exc | n
  · have hexc := u.syncOnce_isException hcalm (hresult.symm.trans hr)
    simp only [hexc, if_true, hlogged]
    split_ifs <;> rfl
  · rfl

/-- No pass so far has ended its thread. -/
theorem ended_step (e : Event) (s : WorkerState SyncPhase Passes) (he : Drives u e)
    (hs : ∀ pass ∈ s.shared.ended, w.escapes pass = false) :
    ∀ pass ∈ (w.step e s).shared.ended, w.escapes pass = false := by
  cases e with
  | turn i pass =>
    obtain ⟨hpass, hlogged⟩ := he i pass rfl
    rcases hphase : s.phaseOf i with _ | phase
    · simp only [step, WorkerState.step, WorkerState.turn_of_none hphase]
      exact hs
    · simp only [step, WorkerState.step, WorkerState.turn_eq hphase]
      cases phase with
      | waiting => exact hs
      | due => exact hs
      | syncing =>
        intro pass' hmem
        rcases List.mem_append.mp hmem with hold | hnew
        · exact hs pass' hold
        · rw [List.mem_singleton.mp hnew]
          exact not_escapes hpass hlogged
  | access op => exact op.elim
  | _ =>
    rw [step, WorkerState.step_shared _ (by simp) (by simp)]
    exact hs

/-- **The loop survives its passes.** Where each pass is one of the use case
in a calm outside, a worker that is open has started one thread at most, and
the thread is alive. -/
theorem loop_survives (hinterval : w.intervalSeconds ≤ timeoutMax) {es : List Event}
    (hes : ∀ e ∈ es, Drives u e) (hopen : (run w.step es init).closed = false) :
    (run w.step es init).threads.length ≤ 1 ∧
      ∀ i < (run w.step es init).threads.length, ((run w.step es init).phaseOf i).isSome := by
  have horderly := orderly_run w es
  have hended : ∀ pass ∈ (run w.step es init).shared.ended, w.escapes pass = false :=
    run_invariant ended_step (along_of_forall (fun e he _ => hes e he) init)
      (fun pass h => absurd h List.not_mem_nil)
  generalize run w.step es init = s at horderly hended hopen
  have hnone : w.escaped s = 0 := by
    rw [escaped, List.countP_eq_zero]
    intro pass hpass
    simp [hended pass hpass]
  have hcount := horderly.counted hinterval hopen
  have hone := horderly.started hinterval
  rw [hnone] at hcount hone
  refine ⟨by simpa using hone, fun i hi => ?_⟩
  have hi0 : i = 0 := by omega
  rw [WorkerState.owed] at hcount
  rcases hthread : s.thread.bind s.phaseOf with _ | phase
  · rw [hthread, Option.elim_none] at hcount
    omega
  · obtain ⟨j, hj, hphase⟩ := Option.bind_eq_some_iff.mp hthread
    have hlt : j < s.threads.length := by
      by_contra hge
      rw [WorkerState.phaseOf, List.getElem?_eq_none (by omega)] at hphase
      cases hphase
    have hj0 : j = i := by omega
    rw [← hj0, hphase]
    rfl

section Unreachable

open SyncContractsUseCase

/-- A pass while the control plane cannot be reached. -/
def unreachablePass : PassEnd where
  result := (@syncOnce everyInterval Host.literal unreachable
    { schemaStorage := { capacity := 4 } }).1

/-- A worker is started, and its first pass fails. -/
def failedPass : List Event :=
  [.start none, .turn 0 unreachablePass, .turn 0 unreachablePass]

omit [Host] in
theorem loop_survives_failedPass :
    ({} : BackgroundSyncWorker).intervalSeconds ≤ timeoutMax ∧
      (run ({} : BackgroundSyncWorker).step failedPass init).threads.length ≤ 1 ∧
      ∀ i < (run ({} : BackgroundSyncWorker).step failedPass init).threads.length,
        ((run ({} : BackgroundSyncWorker).step failedPass init).phaseOf i).isSome := by
  have hinterval : ({} : BackgroundSyncWorker).intervalSeconds ≤ timeoutMax := by decide +kernel
  have hcalm : Calm unreachable { schemaStorage := { capacity := 4 } } :=
    { exchange := fun exc h => by
        rw [← Except.error.inj h]
        rfl
      json := fun response exc h => by cases h
      snapshot := fun exc h => by
        rw [← SnapshotFile.unreadable.inj h]
        rfl
      save := fun exc h => by cases h }
  refine ⟨hinterval, @loop_survives Host.literal everyInterval {} hinterval failedPass ?_ rfl⟩
  intro e he i pass heq
  have hpass : pass = unreachablePass := by
    rcases List.mem_cons.mp he with rfl | he
    · cases heq
    · rcases List.mem_cons.mp he with rfl | he
      · exact ((WorkerEvent.turn.inj heq).2).symm
      · rw [List.mem_singleton.mp he] at heq
        exact ((WorkerEvent.turn.inj heq).2).symm
  rw [hpass]
  exact ⟨⟨unreachable, _, hcalm, rfl⟩, rfl⟩

end Unreachable

end BackgroundSyncWorker

end Congine
