import Congine.Infrastructure.BackgroundSync
import Congine.Infrastructure.CacheSweeper
import Congine.Infrastructure.ExecutorAccounts
import Congine.Infrastructure.TelemetryConservation
/-!
# The parts a container owns

The sync worker, the validation executor, the event bus and the cache with
its sweeper, each as it is modelled by itself. Any caller and any of their
threads may step at any moment; what a container does is stop them, one
after the other. A part that is stopped stays so, and from then on takes on
nothing: no sync pass but one that was due, no validation, no event, no
sweep.
-/

namespace Congine

variable {V : Type}

/-- What the parts are constructed with. -/
structure Wiring where
  syncWorker : BackgroundSyncWorker := { runImmediately := false }
  eventBus : QueueEventBus := { startWorker := false }
  sweepInterval : ℚ := 30
  /-- What asyncio hands over of an exception. -/
  convert : Exc → Option Exc := some

/-- The attributes of a container; one that is not assigned, or is `None`, is
missing. So is a `NoOpEventBus`, which nothing is asked of. -/
structure Parts (V : Type) where
  syncWorker : Option (WorkerState SyncPhase Passes) := none
  validationExecutor : Option (BoundedValidationExecutor V) := none
  eventBus : Option BusState := none
  schemaStorage : Option (WorkerState LFUCache.SweepPhase (LFUCache.ServedCache Json.Key Json)) :=
    none

/-- A step of a part: of one of its threads, or of any caller. -/
inductive PartEvent (V : Type) where
  | syncWorker (e : BackgroundSyncWorker.Event)
  | validationExecutor (e : BoundedValidationExecutor.Event V)
  | eventBus (e : BusEvent)
  | schemaStorage (e : LFUCache.Event Json.Key Json)

inductive Component where
  | syncWorker | validationExecutor | eventBus | schemaStorage
  deriving DecidableEq

namespace Parts

def step (g : Wiring) : PartEvent V → Parts V → Parts V
  | .syncWorker e, p => { p with syncWorker := p.syncWorker.map (g.syncWorker.step e) }
  | .validationExecutor e, p =>
    { p with
      validationExecutor :=
        p.validationExecutor.map (BoundedValidationExecutor.step g.convert e) }
  | .eventBus e, p => { p with eventBus := p.eventBus.map (g.eventBus.step e) }
  | .schemaStorage e, p =>
    { p with schemaStorage := p.schemaStorage.map (LFUCache.step g.sweepInterval e) }

/-- Another thread is in the lock that stopping the component takes. -/
def isBusy (p : Parts V) : Component → Bool
  | .validationExecutor => p.validationExecutor.any (·.lock.isSome)
  | _ => false

/-- `sync_worker.stop()`, `validation_executor.shutdown(wait=False)`,
`event_bus.stop(drain=drain)` and `schema_storage.stop()`, as events. -/
def stopEvents (drain : Bool) : Component → List (PartEvent V)
  | .syncWorker => [.syncWorker .stop]
  | .validationExecutor => [.validationExecutor .shutdown, .validationExecutor .closePool]
  | .eventBus => [.eventBus (.stop drain)]
  | .schemaStorage => [.schemaStorage .stop]

def stop (g : Wiring) (drain : Bool) (c : Component) (p : Parts V) : Parts V :=
  run (step g) (stopEvents drain c) p

/-- The component has been closed, if it is there. -/
def isStopped (p : Parts V) : Component → Bool
  | .syncWorker => p.syncWorker.all (·.closed)
  | .validationExecutor => p.validationExecutor.all (·.shutdown)
  | .eventBus => p.eventBus.all (·.closed)
  | .schemaStorage => p.schemaStorage.all (·.closed)

section

variable {g : Wiring} {p : Parts V} {c : Component}

/-- A flag that every step keeps stays up where there is a part to step. -/
theorem all_map {State : Type} {flag : State → Bool} {f : State → State}
    (hf : ∀ s, flag s = true → flag (f s) = true) {o : Option State} (h : o.all flag = true) :
    (o.map f).all flag = true := by
  cases o with
  | none => rfl
  | some s =>
    rw [Option.all_some] at h
    rw [Option.map_some, Option.all_some]
    exact hf s h

/-- **A stopped component stays stopped**, whoever does what to it. -/
theorem isStopped_step (e : PartEvent V) (h : p.isStopped c = true) :
    (step g e p).isStopped c = true := by
  cases e with
  | syncWorker e =>
    cases c with
    | syncWorker => exact all_map (fun s hs => ((WorkerState.step_effect e s).of_closed hs).1) h
    | _ => exact h
  | validationExecutor e =>
    cases c with
    | validationExecutor =>
      exact all_map
        (fun s hs => (BoundedValidationExecutor.step_keeps g.convert e s).shutdown_of hs) h
    | _ => exact h
  | eventBus e =>
    cases c with
    | eventBus =>
      have hkeep : ∀ s : BusState, s.closed = true → (g.eventBus.step e s).closed = true :=
        fun s hs => (QueueEventBus.step_of_closed e hs).1
      exact all_map hkeep h
    | _ => exact h
  | schemaStorage e =>
    cases c with
    | schemaStorage => exact all_map (fun s hs => ((WorkerState.step_effect e s).of_closed hs).1) h
    | _ => exact h

theorem isStopped_run (es : List (PartEvent V)) (h : p.isStopped c = true) :
    (run (step g) es p).isStopped c = true := by
  have hkeep : ∀ (e : PartEvent V) (p : Parts V),
      p.isStopped c = true → (step g e p).isStopped c = true :=
    fun e _ => isStopped_step e
  exact run_of_kept hkeep h es

/-- What puts a flag up does so wherever there is a part. -/
theorem all_of_sets {State : Type} {flag : State → Bool} {f : State → State} {o : Option State}
    (hf : ∀ s ∈ o, flag (f s) = true) : (o.map f).all flag = true := by
  cases o with
  | none => rfl
  | some s => exact hf s rfl

/-- A stop stops its component, where its lock is free. -/
theorem isStopped_stop (drain : Bool) (h : p.isBusy c = false) :
    (p.stop g drain c).isStopped c = true := by
  cases c with
  | syncWorker => exact all_of_sets fun _ _ => WorkerState.stop_closed
  | validationExecutor =>
    refine isStopped_step (.validationExecutor .closePool) (all_of_sets fun s hs => ?_)
    have hfree : s.lock.isSome = false := by
      rw [isBusy, hs, Option.any_some] at h
      exact h
    simp [BoundedValidationExecutor.step, hfree]
  | eventBus => exact all_of_sets fun _ _ => rfl
  | schemaStorage => exact all_of_sets fun _ _ => WorkerState.stop_closed

/-! ## Each part by itself -/

theorem run_syncWorker (es : List (PartEvent V)) (p : Parts V) :
    ∃ es', (run (step g) es p).syncWorker = p.syncWorker.map (run g.syncWorker.step es') := by
  have hpart : ∀ (e : PartEvent V) (p : Parts V), ∃ es', (step g e p).syncWorker =
      run (fun e => Option.map (g.syncWorker.step e)) es' p.syncWorker := by
    intro e p
    cases e with
    | syncWorker e => exact ⟨[e], rfl⟩
    | _ => exact ⟨[], rfl⟩
  obtain ⟨es', h⟩ := run_project syncWorker hpart es p
  exact ⟨es', h.trans (run_option es' _)⟩

theorem run_validationExecutor (es : List (PartEvent V)) (p : Parts V) :
    ∃ es', (run (step g) es p).validationExecutor =
      p.validationExecutor.map (run (BoundedValidationExecutor.step g.convert) es') := by
  have hpart : ∀ (e : PartEvent V) (p : Parts V), ∃ es', (step g e p).validationExecutor =
      run (fun e => Option.map (BoundedValidationExecutor.step g.convert e)) es'
        p.validationExecutor := by
    intro e p
    cases e with
    | validationExecutor e => exact ⟨[e], rfl⟩
    | _ => exact ⟨[], rfl⟩
  obtain ⟨es', h⟩ := run_project validationExecutor hpart es p
  exact ⟨es', h.trans (run_option es' _)⟩

theorem run_eventBus (es : List (PartEvent V)) (p : Parts V) :
    ∃ es', (run (step g) es p).eventBus = p.eventBus.map (run g.eventBus.step es') := by
  have hpart : ∀ (e : PartEvent V) (p : Parts V), ∃ es', (step g e p).eventBus =
      run (fun e => Option.map (g.eventBus.step e)) es' p.eventBus := by
    intro e p
    cases e with
    | eventBus e => exact ⟨[e], rfl⟩
    | _ => exact ⟨[], rfl⟩
  obtain ⟨es', h⟩ := run_project eventBus hpart es p
  exact ⟨es', h.trans (run_option es' _)⟩

theorem run_schemaStorage (es : List (PartEvent V)) (p : Parts V) :
    ∃ es', (run (step g) es p).schemaStorage =
      p.schemaStorage.map (run (LFUCache.step g.sweepInterval) es') := by
  have hpart : ∀ (e : PartEvent V) (p : Parts V), ∃ es', (step g e p).schemaStorage =
      run (fun e => Option.map (LFUCache.step g.sweepInterval e)) es' p.schemaStorage := by
    intro e p
    cases e with
    | schemaStorage e => exact ⟨[e], rfl⟩
    | _ => exact ⟨[], rfl⟩
  obtain ⟨es', h⟩ := run_project schemaStorage hpart es p
  exact ⟨es', h.trans (run_option es' _)⟩

/-- Each part is in a state it can come to. -/
structure Sound (p : Parts V) : Prop where
  syncWorker : ∀ s ∈ p.syncWorker, s.Sound
  validationExecutor : ∀ s ∈ p.validationExecutor, s.Books

theorem Sound.run (hp : p.Sound) (es : List (PartEvent V)) : (Congine.run (step g) es p).Sound := by
  refine ⟨fun s' hs' => ?_, fun s' hs' => ?_⟩
  · obtain ⟨es', h⟩ := run_syncWorker (g := g) es p
    rw [h] at hs'
    obtain ⟨s, hs, rfl⟩ := Option.map_eq_some_iff.mp hs'
    have hkeep : ∀ e s, WorkerState.Sound s → (g.syncWorker.step e s).Sound :=
      fun e s hs => hs.step e s
    exact run_of_kept hkeep (hp.syncWorker s hs) es'
  · obtain ⟨es', h⟩ := run_validationExecutor (g := g) es p
    rw [h] at hs'
    obtain ⟨s, hs, rfl⟩ := Option.map_eq_some_iff.mp hs'
    exact run_of_kept (fun e _ hs => hs.of_step g.convert e) (hp.validationExecutor s hs) es'

/-! ## Parts that are stopped -/

/-- What parts that were stopped in one state have done since: a sync pass
that was due, and nothing else that is new. -/
structure Retired (p p' : Parts V) : Prop where
  syncWorker : ∀ s ∈ p.syncWorker, ∀ s' ∈ p'.syncWorker,
    s'.threads.length = s.threads.length ∧ s'.shared.begun ≤ s.shared.begun + 1
  /-- A validation the pool has taken it took before. -/
  validationExecutor : ∀ s ∈ p.validationExecutor, ∀ s' ∈ p'.validationExecutor,
    ∀ (i : ℕ) (c' : Call V), s'.calls[i]? = some c' → c'.future ≠ none →
      ∃ c, s.calls[i]? = some c ∧ c.future ≠ none
  eventBus : ∀ s ∈ p.eventBus, ∀ s' ∈ p'.eventBus, s'.accepted = s.accepted
  schemaStorage : ∀ s ∈ p.schemaStorage, ∀ s' ∈ p'.schemaStorage,
    ∃ rest, s'.shared.log = s.shared.log ++ rest ∧ ∀ x ∈ rest, x.bySweeper = false

/-- The part that was there, run. -/
theorem eq_of_map {State : Type} {f : State → State} {o o' : Option State} (h : o' = o.map f)
    {s s' : State} (hs : s ∈ o) (hs' : s' ∈ o') : s' = f s := by
  rw [h, hs, Option.map_some] at hs'
  exact (Option.some.inj hs').symm

theorem flag_of_all {State : Type} {flag : State → Bool} {o : Option State}
    (h : o.all flag = true) {s : State} (hs : s ∈ o) : flag s = true := by
  rwa [hs, Option.all_some] at h

/-- **Parts that are all stopped are retired**, whatever comes. -/
theorem Sound.retired (hp : p.Sound) (hstopped : ∀ c, p.isStopped c = true)
    (es : List (PartEvent V)) : p.Retired (Congine.run (step g) es p) where
  syncWorker s hs s' hs' := by
    obtain ⟨es', h⟩ := run_syncWorker (g := g) es p
    rw [eq_of_map h hs hs']
    obtain ⟨hthreads, hbegun, -⟩ := BackgroundSyncWorker.run_of_closed (w := g.syncWorker)
      (hp.syncWorker s hs) (flag_of_all (hstopped .syncWorker) hs) es'
    have hle := BackgroundSyncWorker.owed_beginsPass_le (s := s)
    exact ⟨hthreads, by omega⟩
  validationExecutor s hs s' hs' i c' hi hfuture := by
    obtain ⟨es', h⟩ := run_validationExecutor (g := g) es p
    rw [eq_of_map h hs hs'] at hi
    exact (hp.validationExecutor s hs).none_accepted g.convert
      (flag_of_all (hstopped .validationExecutor) hs) es' i c' hi hfuture
  eventBus s hs s' hs' := by
    obtain ⟨es', h⟩ := run_eventBus (g := g) es p
    rw [eq_of_map h hs hs']
    have hkeep : ∀ e t, t.closed = true ∧ t.accepted = s.accepted →
        (g.eventBus.step e t).closed = true ∧ (g.eventBus.step e t).accepted = s.accepted := by
      rintro e t ⟨hclosed, hsame⟩
      have hkept : (g.eventBus.step e t).closed = true ∧
          (g.eventBus.step e t).accepted = t.accepted := QueueEventBus.step_of_closed e hclosed
      exact ⟨hkept.1, hkept.2.trans hsame⟩
    exact (run_of_kept hkeep ⟨flag_of_all (hstopped .eventBus) hs, rfl⟩ es').2
  schemaStorage s hs s' hs' := by
    obtain ⟨es', h⟩ := run_schemaStorage (g := g) es p
    obtain ⟨rest, hlog, -, hby⟩ := LFUCache.run_added g.sweepInterval es' s
    rw [eq_of_map h hs hs']
    exact ⟨rest, hlog, hby (flag_of_all (hstopped .schemaStorage) hs)⟩

end

end Parts

end Congine
