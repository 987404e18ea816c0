import Congine.Adapters.ContainerLifecycle
/-!
# Constructing a container

The parts are built one after the other and their threads started last, but
for the finalizer. Any of these may raise; what has been built by then is
torn down, and the container is never handed out.

While the rest is built the threads that are started run. No one else has
the parts yet.
-/

namespace Congine

variable {V : Type}

/-- What the configuration decides of the make-up of a container. -/
structure Plan where
  maxWorkers : ℕ := 10
  maxPending : ℕ := 10
  cacheCapacity : ℕ := 500
  cacheTtlSeconds : ℤ := 300
  /-- `local_contracts_dir is not None`. -/
  standalone : Bool := false
  telemetryEnabled : Bool := true
  startBackgroundServices : Bool := true

/-- The statements of `_initialize_components`, each of which may raise. -/
inductive BuildStep where
  | logger | validationExecutor | schemaStorage | circuitBreaker | contractRepository
  | eventBus | semanticValidator | driftEngine | validators | validateContractUsecase
  | syncContractsUsecase | syncWorker | startStorage | startEventBus | armFinalizer
  deriving DecidableEq

def buildOrder : List BuildStep :=
  [.logger, .validationExecutor, .schemaStorage, .circuitBreaker, .contractRepository, .eventBus,
    .semanticValidator, .driftEngine, .validators, .validateContractUsecase,
    .syncContractsUsecase, .syncWorker, .startStorage, .startEventBus, .armFinalizer]

/-- A turn of a thread a container has started. -/
inductive ThreadTurn where
  | sweeper (thread : ℕ) (clock : Json.Key → ℚ)
  | drain (granted posted : Bool)

def ThreadTurn.event : ThreadTurn → PartEvent V
  | sweeper thread clock => .schemaStorage (.turn thread clock)
  | drain granted posted => .eventBus (.work granted posted)

/-- What goes wrong, and what the threads do meanwhile. -/
structure Circumstances where
  fault : BuildStep → Option Exc := fun _ => none
  before : BuildStep → List ThreadTurn := fun _ => []
  /-- What the stop of a component raises, should it come to that. -/
  stopFault : Component → Option Exc := fun _ => none

namespace Plan

variable (plan : Plan) (g : Wiring)

/-- The parts after a statement. -/
def build : BuildStep → Parts V → Parts V
  | .validationExecutor, p =>
    { p with validationExecutor := some (.new plan.maxWorkers plan.maxPending) }
  | .schemaStorage, p =>
    { p with
      schemaStorage := some (LFUCache.unstarted plan.cacheCapacity plan.cacheTtlSeconds) }
  | .eventBus, p =>
    { p with eventBus := if plan.telemetryEnabled then some g.eventBus.init else none }
  | .syncWorker, p =>
    { p with syncWorker := if plan.standalone then none else some BackgroundSyncWorker.init }
  | .startStorage, p =>
    if plan.startBackgroundServices then p.step g (.schemaStorage (.start none)) else p
  | .startEventBus, p =>
    if plan.startBackgroundServices then p.step g (.eventBus .start) else p
  | _, p => p

/-- The parts after a statement that raised. -/
def buildFailed (exc : Exc) : BuildStep → Parts V → Parts V
  | .startStorage, p => p.step g (.schemaStorage (.start (some exc)))
  | _, p => p

/-- `_initialize_components`, from a statement on. -/
def initializeComponents (w : Circumstances) : List BuildStep → Parts V → Except Exc Unit × Parts V
  | [], p => (.ok (), p)
  | st :: sts, p =>
    let p := run (Parts.step g) ((w.before st).map ThreadTurn.event) p
    match w.fault st with
    | some exc => (.error exc, buildFailed g exc st p)
    | none => initializeComponents w sts (plan.build g st p)

/-- `_teardown_components` of the constructor: an `Exception` is suppressed. -/
def teardown (w : Circumstances) : List Component → Parts V → Except Exc Unit × Parts V
  | [], p => (.ok (), p)
  | c :: rest, p =>
    match ContainerState.afterStop (w.stopFault c) [] with
    | .ok _ => teardown w rest (p.stop g false c)
    | .error exc => (.error exc, p.stop g false c)

/-- `__init__`: a container, or what it raises and the parts it leaves. -/
def construct (w : Circumstances) : Except (Exc × Parts V) (ContainerState V) :=
  match plan.initializeComponents g w buildOrder ({} : Parts V) with
  | (.ok (), parts) => .ok { parts }
  | (.error exc, p) =>
    match teardown g w teardownOrder p with
    | (.ok (), p) => .error (exc, p)
    | (.error exc', p) => .error (exc', p)

/-! ## While the rest is built -/

section

variable {plan g} {w : Circumstances} {p : Parts V}

/-- The parts of a container that has not been handed out: no call is in the
lock of the executor. -/
structure Uncalled (p : Parts V) : Prop where
  sound : p.Sound
  lock : ∀ s ∈ p.validationExecutor, s.lock = none

theorem run_turns_validationExecutor (ts : List ThreadTurn) (p : Parts V) :
    (run (Parts.step g) (ts.map ThreadTurn.event) p).validationExecutor =
      p.validationExecutor := by
  induction ts generalizing p with
  | nil => rfl
  | cons t ts ih =>
    rw [List.map_cons, run_cons, ih]
    cases t <;> rfl

theorem Uncalled.turns (hp : Uncalled p) (ts : List ThreadTurn) :
    Uncalled (run (Parts.step g) (ts.map ThreadTurn.event) p) where
  sound := hp.sound.run _
  lock := by
    rw [run_turns_validationExecutor]
    exact hp.lock

theorem Uncalled.build (hp : Uncalled p) (st : BuildStep) : Uncalled (plan.build g st p) := by
  cases st with
  | validationExecutor =>
    refine ⟨{ hp.sound with validationExecutor := fun s hs => ?_ }, fun s hs => ?_⟩
    · rw [← Option.some.inj hs]
      exact BoundedValidationExecutor.books_new _ _
    · rw [← Option.some.inj hs]
      rfl
  | syncWorker =>
    refine ⟨{ hp.sound with syncWorker := fun s hs => ?_ }, hp.lock⟩
    simp only [Plan.build] at hs
    split_ifs at hs
    · cases hs
    · rw [← Option.some.inj hs]
      exact WorkerState.sound_init _
  | startStorage =>
    simp only [Plan.build]
    split_ifs
    · exact ⟨hp.sound.run (g := g) [.schemaStorage (.start none)], hp.lock⟩
    · exact hp
  | startEventBus =>
    simp only [Plan.build]
    split_ifs
    · exact ⟨hp.sound.run (g := g) [.eventBus .start], hp.lock⟩
    · exact hp
  | _ => exact ⟨{ hp.sound with }, hp.lock⟩

theorem Uncalled.buildFailed (hp : Uncalled p) (exc : Exc) (st : BuildStep) :
    Uncalled (Plan.buildFailed g exc st p) := by
  cases st with
  | startStorage =>
    exact ⟨hp.sound.run (g := g) [.schemaStorage (.start (some exc))], hp.lock⟩
  | _ => exact hp

theorem Uncalled.initializeComponents (sts : List BuildStep) (hp : Uncalled p) :
    Uncalled (plan.initializeComponents g w sts p).2 := by
  induction sts generalizing p with
  | nil => exact hp
  | cons st sts ih =>
    rw [Plan.initializeComponents]
    have hturns := hp.turns (g := g) (w.before st)
    rcases w.fault st with _ | exc
    · exact ih (hturns.build st)
    · exact hturns.buildFailed exc st

theorem Uncalled.stop (hp : Uncalled p) (c : Component) : Uncalled (p.stop g false c) := by
  refine ⟨hp.sound.run _, fun s' hs' => ?_⟩
  cases c with
  | validationExecutor =>
    obtain ⟨s₁, hs₁, rfl⟩ := Option.map_eq_some_iff.mp hs'
    obtain ⟨s, hs, rfl⟩ := Option.map_eq_some_iff.mp hs₁
    have hlock := hp.lock s hs
    simp [BoundedValidationExecutor.step, hlock]
  | _ => exact hp.lock s' hs'

theorem Uncalled.not_isBusy (hp : Uncalled p) (c : Component) : p.isBusy c = false := by
  cases c with
  | validationExecutor =>
    rcases hexecutor : p.validationExecutor with _ | s
    · simp [Parts.isBusy, hexecutor]
    · simp [Parts.isBusy, hexecutor, hp.lock s hexecutor]
  | _ => rfl

theorem uncalled_empty : Uncalled ({} : Parts V) where
  sound := ⟨fun s hs => (by cases hs), fun s hs => (by cases hs)⟩
  lock s hs := by cases hs

/-- **What a constructor raises** is what the first statement that fails raised. -/
theorem initializeComponents_result (sts : List BuildStep) (p : Parts V) :
    (plan.initializeComponents g w sts p).1 =
      match sts.findSome? w.fault with
      | some exc => .error exc
      | none => .ok () := by
  induction sts generalizing p with
  | nil => rfl
  | cons st sts ih =>
    rw [Plan.initializeComponents, List.findSome?_cons]
    rcases w.fault st with _ | exc
    · exact ih _
    · rfl

/-! ## The teardown of the constructor -/

/-- No stop raises outside `Exception`. -/
def Contained (w : Circumstances) : Prop :=
  ∀ c exc, w.stopFault c = some exc → exc.isException = true

theorem afterStop_ok (hw : Contained w) (c : Component) :
    ContainerState.afterStop (w.stopFault c) [] = .ok [] := by
  unfold ContainerState.afterStop
  rcases hfault : w.stopFault c with _ | exc
  · rfl
  · simp only [hw c exc hfault, if_true]

theorem teardown_stopped (hw : Contained w) (rest : List Component) (hp : Uncalled p)
    (h : ContainerState.StoppedBut p rest) :
    (teardown g w rest p).1 = .ok () ∧ ∀ c, (teardown g w rest p).2.isStopped c = true := by
  induction rest generalizing p with
  | nil => exact ⟨rfl, fun c => (h c).resolve_left List.not_mem_nil⟩
  | cons c rest ih =>
    rw [teardown, afterStop_ok hw c]
    exact ih (hp.stop c) (h.stop false (hp.not_isBusy c))

theorem Uncalled.teardown (rest : List Component) (hp : Uncalled p) :
    Uncalled (Plan.teardown g w rest p).2 := by
  induction rest generalizing p with
  | nil => exact hp
  | cons c rest ih =>
    rw [Plan.teardown]
    split
    · exact ih (hp.stop c)
    · exact hp.stop c

/-! ## All or nothing -/

/-- What is handed out: every part the configuration asks for, the sync
worker not started, and the threads of the others where they are wanted. -/
structure Handed (plan : Plan) (s : ContainerState V) : Prop where
  sound : s.Sound ∧ s.parts.Sound
  opened : s.closed = false ∧ s.finalizerAlive = true
  syncWorker : s.parts.syncWorker = if plan.standalone then none else some BackgroundSyncWorker.init
  validationExecutor : s.parts.validationExecutor = some (.new plan.maxWorkers plan.maxPending)
  eventBus : s.parts.eventBus.isSome = plan.telemetryEnabled
  schemaStorage : ∃ storage, s.parts.schemaStorage = some storage ∧
    storage.threads.length = if plan.startBackgroundServices then 1 else 0

/-- Statements that raise nothing leave what the threads and each of them keep. -/
theorem initializeComponents_invariant {P : Parts V → Prop} (sts : List BuildStep)
    (hnone : ∀ st ∈ sts, w.fault st = none)
    (hturn : ∀ (t : ThreadTurn) p, P p → P (p.step g t.event))
    (hbuild : ∀ st ∈ sts, ∀ p, P p → P (plan.build g st p)) (hp : P p) :
    P (plan.initializeComponents g w sts p).2 := by
  induction sts generalizing p with
  | nil => exact hp
  | cons st sts ih =>
    obtain ⟨hst, hsts⟩ := List.forall_mem_cons.mp hnone
    obtain ⟨hbst, hbsts⟩ := List.forall_mem_cons.mp hbuild
    rw [Plan.initializeComponents, hst]
    have hkeep : ∀ e p, (∃ t : ThreadTurn, e = t.event) → P p → P (Parts.step g e p) := by
      rintro e p ⟨t, rfl⟩ hp
      exact hturn t p hp
    refine ih hsts hbsts (hbst _ (run_invariant hkeep (along_of_forall (fun e he _ => ?_) _) hp))
    obtain ⟨t, -, rfl⟩ := List.mem_map.mp he
    exact ⟨t, rfl⟩

theorem initializeComponents_append (sts sts' : List BuildStep)
    (hnone : ∀ st ∈ sts, w.fault st = none) (p : Parts V) :
    plan.initializeComponents g w (sts ++ sts') p =
      plan.initializeComponents g w sts' (plan.initializeComponents g w sts p).2 := by
  induction sts generalizing p with
  | nil => rfl
  | cons st sts ih =>
    obtain ⟨hst, hsts⟩ := List.forall_mem_cons.mp hnone
    rw [List.cons_append, Plan.initializeComponents, Plan.initializeComponents, hst]
    exact ih hsts _

/-- What a statement settles, and nothing after it touches. -/
theorem initializeComponents_settled {P : Parts V → Prop} (before : List BuildStep) (st : BuildStep)
    (after : List BuildStep) (hnone : ∀ st ∈ before ++ st :: after, w.fault st = none)
    (hset : P (plan.build g st (run (Parts.step g) ((w.before st).map ThreadTurn.event)
      (plan.initializeComponents g w before p).2)))
    (hturn : ∀ (t : ThreadTurn) p, P p → P (p.step g t.event))
    (hbuild : ∀ st ∈ after, ∀ p, P p → P (plan.build g st p)) :
    P (plan.initializeComponents g w (before ++ st :: after) p).2 := by
  rw [initializeComponents_append before _
      fun st' h => hnone st' (List.mem_append_left _ h),
    Plan.initializeComponents, hnone st (by simp)]
  exact initializeComponents_invariant after (fun st' h => hnone st' (by simp [h])) hturn hbuild
    hset

theorem build_syncWorker {st : BuildStep} (h : st ≠ .syncWorker) :
    (plan.build g st p).syncWorker = p.syncWorker := by
  cases st with
  | syncWorker => exact absurd rfl h
  | startStorage | startEventBus =>
    simp only [Plan.build]
    split_ifs <;> rfl
  | _ => rfl

theorem build_validationExecutor {st : BuildStep} (h : st ≠ .validationExecutor) :
    (plan.build g st p).validationExecutor = p.validationExecutor := by
  cases st with
  | validationExecutor => exact absurd rfl h
  | startStorage | startEventBus =>
    simp only [Plan.build]
    split_ifs <;> rfl
  | _ => rfl

theorem build_eventBus {st : BuildStep} (h : st ≠ .eventBus) :
    (plan.build g st p).eventBus.isSome = p.eventBus.isSome := by
  cases st with
  | eventBus => exact absurd rfl h
  | startStorage =>
    simp only [Plan.build]
    split_ifs <;> rfl
  | startEventBus =>
    simp only [Plan.build]
    split_ifs
    · exact Option.isSome_map
    · rfl
  | _ => rfl

theorem build_schemaStorage {st : BuildStep} (h : st ≠ .schemaStorage) (h' : st ≠ .startStorage) :
    (plan.build g st p).schemaStorage = p.schemaStorage := by
  cases st with
  | schemaStorage => exact absurd rfl h
  | startStorage => exact absurd rfl h'
  | startEventBus =>
    simp only [Plan.build]
    split_ifs <;> rfl
  | _ => rfl

/-- A sweeper that has not been started takes no turn. -/
theorem turn_unstarted (t : ThreadTurn) {capacity : ℕ} {ttlSeconds : ℤ}
    (h : p.schemaStorage = some (LFUCache.unstarted capacity ttlSeconds)) :
    (p.step g t.event).schemaStorage = some (LFUCache.unstarted capacity ttlSeconds) := by
  cases t with
  | sweeper thread clock =>
    have hnone : (LFUCache.unstarted (κ := Json.Key) (V := Json) capacity ttlSeconds).phaseOf
        thread = none := rfl
    have hsame := WorkerState.turn_of_none (p := LFUCache.sweeper g.sweepInterval) hnone clock
    simp only [ThreadTurn.event, Parts.step, h, Option.map_some, LFUCache.step, WorkerState.step,
      hsame]
  | drain granted posted => exact h

/-- The cache is there, and so many sweepers have been started. -/
def SweepersStarted (n : ℕ) (p : Parts V) : Prop :=
  ∃ storage, p.schemaStorage = some storage ∧ storage.threads.length = n

theorem SweepersStarted.turn {n : ℕ} (h : SweepersStarted n p) (t : ThreadTurn) :
    SweepersStarted n (p.step g t.event) := by
  obtain ⟨storage, hstorage, hlength⟩ := h
  cases t with
  | sweeper thread clock =>
    refine ⟨_, congrArg (Option.map (LFUCache.step g.sweepInterval (.turn thread clock))) hstorage,
      ?_⟩
    rw [← hlength]
    simp only [LFUCache.step, WorkerState.step, WorkerState.turn]
    split
    · rfl
    · exact List.length_set
  | drain granted posted => exact ⟨storage, hstorage, hlength⟩

section

variable (hnone : ∀ st, w.fault st = none)

include hnone

theorem syncWorker_of_initialized :
    (plan.initializeComponents g w buildOrder p).2.syncWorker =
      if plan.standalone then none else some BackgroundSyncWorker.init := by
  generalize hworker : (if plan.standalone then none else some BackgroundSyncWorker.init) = worker
  refine initializeComponents_settled (P := fun p => p.syncWorker = worker)
    (buildOrder.take 11) .syncWorker (buildOrder.drop 12) (fun st _ => hnone st) hworker ?_ ?_
  · intro t p hp
    cases t <;> exact hp
  · intro st hst p hp
    have hne : ∀ st ∈ buildOrder.drop 12, st ≠ .syncWorker := by decide
    rw [build_syncWorker (hne st hst), hp]

theorem validationExecutor_of_initialized :
    (plan.initializeComponents g w buildOrder p).2.validationExecutor =
      some (.new plan.maxWorkers plan.maxPending) := by
  refine initializeComponents_settled
    (P := fun p => p.validationExecutor = some (.new plan.maxWorkers plan.maxPending))
    (buildOrder.take 1) .validationExecutor (buildOrder.drop 2) (fun st _ => hnone st) rfl ?_ ?_
  · intro t p hp
    cases t <;> exact hp
  · intro st hst p hp
    have hne : ∀ st ∈ buildOrder.drop 2, st ≠ .validationExecutor := by decide
    rw [build_validationExecutor (hne st hst), hp]

theorem eventBus_of_initialized :
    (plan.initializeComponents g w buildOrder p).2.eventBus.isSome = plan.telemetryEnabled := by
  refine initializeComponents_settled
    (P := fun p => p.eventBus.isSome = plan.telemetryEnabled)
    (buildOrder.take 5) .eventBus (buildOrder.drop 6) (fun st _ => hnone st) ?_ ?_ ?_
  · simp only [Plan.build]
    cases plan.telemetryEnabled <;> rfl
  · intro t p hp
    cases t with
    | sweeper thread clock => exact hp
    | drain granted posted =>
      rw [← hp]
      exact Option.isSome_map
  · intro st hst p hp
    have hne : ∀ st ∈ buildOrder.drop 6, st ≠ .eventBus := by decide
    rw [build_eventBus (hne st hst), hp]

theorem schemaStorage_of_initialized :
    SweepersStarted (if plan.startBackgroundServices then 1 else 0)
      (plan.initializeComponents g w buildOrder p).2 := by
  have hbuilt : (plan.initializeComponents g w (buildOrder.take 12) p).2.schemaStorage =
      some (LFUCache.unstarted plan.cacheCapacity plan.cacheTtlSeconds) := by
    refine initializeComponents_settled
      (P := fun p => p.schemaStorage =
        some (LFUCache.unstarted plan.cacheCapacity plan.cacheTtlSeconds))
      (buildOrder.take 2) .schemaStorage ((buildOrder.take 12).drop 3) (fun st _ => hnone st) rfl
      (fun t p hp => turn_unstarted t hp) ?_
    intro st hst p hp
    have hne : ∀ st ∈ (buildOrder.take 12).drop 3, st ≠ .schemaStorage ∧ st ≠ .startStorage := by
      decide
    rw [build_schemaStorage (hne st hst).1 (hne st hst).2, hp]
  have hturns : (run (Parts.step g) ((w.before .startStorage).map ThreadTurn.event)
      (plan.initializeComponents g w (buildOrder.take 12) p).2).schemaStorage =
        some (LFUCache.unstarted plan.cacheCapacity plan.cacheTtlSeconds) := by
    generalize (plan.initializeComponents g w (buildOrder.take 12) p).2 = p at hbuilt
    generalize w.before .startStorage = ts
    induction ts generalizing p with
    | nil => exact hbuilt
    | cons t ts ih => exact ih _ (turn_unstarted t hbuilt)
  refine initializeComponents_settled
    (P := SweepersStarted (if plan.startBackgroundServices then 1 else 0))
    (buildOrder.take 12) .startStorage (buildOrder.drop 13) (fun st _ => hnone st) ?_
    (fun t p hp => hp.turn t) ?_
  · simp only [Plan.build]
    split_ifs
    · exact ⟨_, congrArg (Option.map (LFUCache.step g.sweepInterval (.start none))) hturns, rfl⟩
    · exact ⟨_, hturns, rfl⟩
  · intro st hst p hp
    have hne : ∀ st ∈ buildOrder.drop 13, st ≠ .schemaStorage ∧ st ≠ .startStorage := by decide
    obtain ⟨storage, hstorage, hlength⟩ := hp
    exact ⟨storage, by rw [build_schemaStorage (hne st hst).1 (hne st hst).2, hstorage], hlength⟩

end

/-- **Construction is all or nothing.** Where no statement raises, a sound
container is handed out with the parts its configuration asks for. Where
one does, wherever it is and whatever the threads already started have done,
the constructor raises what it raised, and every part built by then is
stopped and retired. -/
theorem construct_atomic (plan : Plan) (g : Wiring) (w : Circumstances) :
    ((∀ st, w.fault st = none) →
      ∃ s : ContainerState V, plan.construct g w = .ok s ∧ plan.Handed s) ∧
    (∀ exc, buildOrder.findSome? w.fault = some exc → Contained w →
      ∃ p : Parts V, plan.construct g w = .error (exc, p) ∧ (∀ c, p.isStopped c = true) ∧
        ∀ es, p.Retired (run (Parts.step g) es p)) := by
  constructor
  · intro hnone
    have hresult : (plan.initializeComponents g w buildOrder ({} : Parts V)).1 = _ :=
      initializeComponents_result buildOrder _
    have hsearch : buildOrder.findSome? w.fault = none :=
      List.findSome?_eq_none_iff.mpr fun st _ => hnone st
    rw [hsearch] at hresult
    have hparts : Uncalled (plan.initializeComponents g w buildOrder ({} : Parts V)).2 :=
      uncalled_empty.initializeComponents buildOrder
    have hsync : (plan.initializeComponents g w buildOrder ({} : Parts V)).2.syncWorker = _ :=
      syncWorker_of_initialized hnone
    have hexecutor :
        (plan.initializeComponents g w buildOrder ({} : Parts V)).2.validationExecutor = _ :=
      validationExecutor_of_initialized hnone
    have hbus : (plan.initializeComponents g w buildOrder ({} : Parts V)).2.eventBus.isSome = _ :=
      eventBus_of_initialized hnone
    have hstorage :
        SweepersStarted _ (plan.initializeComponents g w buildOrder ({} : Parts V)).2 :=
      schemaStorage_of_initialized hnone
    unfold construct
    rcases hinit : plan.initializeComponents g w buildOrder ({} : Parts V) with ⟨result, p⟩
    rw [hinit] at hresult hparts hsync hexecutor hbus hstorage
    simp only at hresult
    subst hresult
    exact ⟨{ parts := p }, rfl, ⟨ContainerState.sound_init p, hparts.sound⟩, ⟨rfl, rfl⟩, hsync,
      hexecutor, hbus, hstorage⟩
  · intro exc hsearch hw
    have hresult : (plan.initializeComponents g w buildOrder ({} : Parts V)).1 = _ :=
      initializeComponents_result buildOrder _
    rw [hsearch] at hresult
    have hparts : Uncalled (plan.initializeComponents g w buildOrder ({} : Parts V)).2 :=
      uncalled_empty.initializeComponents buildOrder
    unfold construct
    rcases hinit : plan.initializeComponents g w buildOrder ({} : Parts V) with ⟨result, p⟩
    rw [hinit] at hresult hparts
    simp only at hresult
    subst hresult
    obtain ⟨hok, hstopped⟩ := teardown_stopped (g := g) hw teardownOrder hparts
      (fun c => .inl (by cases c <;> simp [teardownOrder]))
    have htorn := hparts.teardown (g := g) (w := w) teardownOrder
    rcases hteardown : teardown g w teardownOrder p with ⟨result, p'⟩
    rw [hteardown] at hok hstopped htorn
    simp only at hok
    subst hok
    simp only [hteardown]
    exact ⟨p', rfl, hstopped, fun es => htorn.sound.retired hstopped es⟩

end

/-- The drain thread of the event bus cannot be started; the sweeper has
taken a turn by then. -/
def threadless : Circumstances where
  fault st := if st = .startEventBus then some (.other "RuntimeError") else none
  before st := if st = .startEventBus then [.sweeper 0 fun _ => 0] else []

theorem construct_atomic_threadless :
    (∃ s : ContainerState Unit, ({} : Plan).construct {} {} = .ok s ∧ ({} : Plan).Handed s) ∧
      ∃ p : Parts Unit, ({} : Plan).construct {} threadless = .error (.other "RuntimeError", p) ∧
        (∀ c, p.isStopped c = true) ∧ ∀ es, p.Retired (run (Parts.step {}) es p) :=
  ⟨(construct_atomic {} {} {}).1 fun _ => rfl,
    (construct_atomic {} {} threadless).2 _ (by decide) fun _ _ h => by cases h⟩

end Plan

end Congine
