import Congine.Common.Worker
import Congine.Infrastructure.QueueEventBus
/-!
# The background sync worker

A daemon thread that runs a sync pass and waits for the interval, over and
over, until it is stopped. An error of a pass is logged and the loop goes
on; an exception outside `Exception` ends the thread, and so does an error
of the log.

A wait that has timed out is not taken back by a stop that comes after, so
a pass may still begin once the worker is closed.
-/

namespace Congine

structure BackgroundSyncWorker where
  intervalSeconds : ℚ := 300
  /-- `logger is not None`. -/
  logging : Bool := true
  runImmediately : Bool := true

/-- What a sync pass ends in, and what logging its failure does. -/
structure PassEnd where
  result : Except Exc ℕ
  logged : Except Exc Unit := .ok ()

/-- Where the thread stands in `_run_loop`. -/
inductive SyncPhase where
  /-- In the wait for the next pass. -/
  | waiting
  /-- Past it, and about to call `sync_once`. -/
  | due
  | syncing
  deriving DecidableEq

/-- The passes so far. -/
structure Passes where
  begun : ℕ := 0
  ended : List PassEnd := []

namespace BackgroundSyncWorker

variable (w : BackgroundSyncWorker)

/-- `_safe_sync`, from where the pass is over. -/
def safeSync (e : PassEnd) : Except Exc Unit :=
  match e.result with
  | .ok _ => .ok ()
  | .error exc =>
    if exc.isException then (if w.logging then e.logged else .ok ()) else .error exc

/-- The pass ends the thread. -/
def escapes (e : PassEnd) : Bool := !(w.safeSync e).isOk

/-- One turn of `_run_loop`; the wait raises where the platform cannot time it. -/
def runLoop (stopEvent : Bool) (e : PassEnd) :
    SyncPhase → Passes → Option SyncPhase × Passes
  | .waiting, passes =>
    (if stopEvent ∨ timeoutMax < w.intervalSeconds then none else some .due, passes)
  | .due, passes => (some .syncing, { passes with begun := passes.begun + 1 })
  | .syncing, passes =>
    (if w.escapes e then none else some .waiting, { passes with ended := passes.ended ++ [e] })

/-- The loop; no one else touches the count of its passes. -/
def loop : LoopProgram SyncPhase PassEnd Empty Passes where
  entry := if w.runImmediately then .due else .waiting
  turn stopEvent _ e := w.runLoop stopEvent e
  access := Empty.elim

/-- A worker that has not been started. -/
def init : WorkerState SyncPhase Passes := { shared := {} }

abbrev Event := WorkerEvent PassEnd Empty Exc

def step : Event → WorkerState SyncPhase Passes → WorkerState SyncPhase Passes :=
  WorkerState.step w.loop (.congine .lifecycle)

/-! ## What is asked of the worker -/

/-- A pass is in progress. -/
def inPass : SyncPhase → ℕ
  | .syncing => 1
  | _ => 0

/-- A pass begins, whatever comes. -/
def beginsPass : SyncPhase → ℕ
  | .due => 1
  | _ => 0

/-- The turns left to a thread whose worker is stopped. -/
def turnsLeft : SyncPhase → ℕ
  | .waiting => 1
  | .syncing => 2
  | .due => 3

/-- How many passes ended the thread that ran them. -/
def escaped (s : WorkerState SyncPhase Passes) : ℕ := s.shared.ended.countP w.escapes

/-- One thread, one pass at a time; and no thread is lost but to a pass that
ended it, so that an open worker has started one more than those. -/
structure Orderly (s : WorkerState SyncPhase Passes) : Prop where
  alive_unique : ∀ i j, (s.phaseOf i).isSome → (s.phaseOf j).isSome → i = j
  paired : s.shared.begun = s.shared.ended.length + s.owed inPass
  counted : w.intervalSeconds ≤ timeoutMax → s.closed = false →
    s.threads.length = w.escaped s + s.owed fun _ => 1
  started : w.intervalSeconds ≤ timeoutMax → s.threads.length ≤ w.escaped s + 1
  /-- A thread that is alive is stopped by the exit hook, until the worker is closed. -/
  hooked : s.closed = false → s.isAlive = true → 0 < s.registered

/-! ## Every run is orderly -/

structure Inv (s : WorkerState SyncPhase Passes) : Prop where
  sound : s.Sound
  paired : s.shared.begun = s.shared.ended.length + s.owed inPass
  counted : w.intervalSeconds ≤ timeoutMax → s.closed = false →
    s.threads.length = w.escaped s + s.owed fun _ => 1
  started : w.intervalSeconds ≤ timeoutMax → s.threads.length ≤ w.escaped s + 1

section

variable {w} {s : WorkerState SyncPhase Passes}

theorem Inv.orderly (hs : w.Inv s) : w.Orderly s where
  alive_unique _ _ hi hj := hs.sound.alive_unique hi hj
  paired := hs.paired
  counted := hs.counted
  started := hs.started
  hooked hopen halive := (hs.sound.hooked hopen).mp (hs.sound.alive_hooked hopen halive)

theorem inv_init : w.Inv init where
  sound := WorkerState.sound_init _
  paired := rfl
  counted _ _ := rfl
  started _ := Nat.zero_le _

/-- The first place of a thread is in no pass. -/
theorem inPass_entry : inPass w.loop.entry = 0 := by
  unfold loop
  split_ifs <;> rfl

/-- A turn of the thread that is alive, where the accounts are as they should be. -/
theorem Inv.turn (hs : w.Inv s) {i : ℕ} {phase : SyncPhase} (h : s.phaseOf i = some phase)
    (e : PassEnd) : w.Inv (s.turn w.loop i e) := by
  have hsound := hs.sound.turn (p := w.loop) i e
  have howed : ∀ owes : SyncPhase → ℕ, (s.turn w.loop i e).owed owes =
      (w.runLoop s.stopEvent e phase s.shared).1.elim 0 owes := fun owes =>
    WorkerState.owed_turn hs.sound h e
  have hnow : ∀ owes : SyncPhase → ℕ, s.owed owes = owes phase := fun owes =>
    WorkerState.owed_of_phaseOf hs.sound h
  have hshared : (s.turn w.loop i e).shared = (w.runLoop s.stopEvent e phase s.shared).2 := by
    rw [WorkerState.turn_eq h]
    rfl
  have hclosed : (s.turn w.loop i e).closed = s.closed := by rw [WorkerState.turn_eq h]
  have hlength : (s.turn w.loop i e).threads.length = s.threads.length := by
    rw [WorkerState.turn_eq h]
    exact List.length_set
  have hpaired := hs.paired
  have hcounted := hs.counted
  have hstarted := hs.started
  have hsignalled := hs.sound.signalled
  rw [hnow] at hpaired hcounted
  cases phase with
  | waiting =>
    have hsame : (s.turn w.loop i e).shared = s.shared := hshared
    refine ⟨hsound, ?_, fun hinterval hopen => ?_, fun hinterval => ?_⟩
    · rw [hsame, howed]
      simp only [runLoop]
      split_ifs <;> exact hpaired
    · rw [hclosed] at hopen
      have hwait : ¬ (s.stopEvent = true ∨ timeoutMax < w.intervalSeconds) := by
        rw [hsignalled, hopen]
        rintro (hstop | hlong)
        · cases hstop
        · exact absurd hinterval (not_le.mpr hlong)
      rw [hlength, escaped, hsame, howed]
      simp only [runLoop, if_neg hwait]
      exact hcounted hinterval hopen
    · rw [hlength, escaped, hsame]
      exact hstarted hinterval
  | due =>
    refine ⟨hsound, ?_, fun hinterval hopen => ?_, fun hinterval => ?_⟩
    · rw [hshared, howed]
      simp only [runLoop, Option.elim_some, inPass] at hpaired ⊢
      omega
    · rw [hclosed] at hopen
      rw [hlength, escaped, hshared, howed]
      exact hcounted hinterval hopen
    · rw [hlength, escaped, hshared]
      exact hstarted hinterval
  | syncing =>
    have hended : w.escaped (s.turn w.loop i e) = w.escaped s + if w.escapes e then 1 else 0 := by
      rw [escaped, hshared, escaped]
      simp [runLoop, List.countP_append, List.countP_singleton]
    refine ⟨hsound, ?_, fun hinterval hopen => ?_, fun hinterval => ?_⟩
    · rw [hshared, howed]
      simp only [runLoop, List.length_append, List.length_singleton]
      split_ifs <;> simpa [inPass] using hpaired
    · rw [hclosed] at hopen
      have hcount := hcounted hinterval hopen
      rw [hlength, hended, howed]
      simp only [runLoop]
      split_ifs
      · simpa using hcount
      · simpa using hcount
    · have hle := hstarted hinterval
      rw [hlength, hended]
      omega

/-- A step that leaves the passes as they are, and what the thread owes. -/
theorem Inv.of_owed (hs : w.Inv s) {s' : WorkerState SyncPhase Passes} (hsound : s'.Sound)
    (hshared : s'.shared = s.shared) (howed : s'.owed inPass = s.owed inPass)
    (hcounted : w.intervalSeconds ≤ timeoutMax → s'.closed = false →
      s'.threads.length = w.escaped s + s'.owed fun _ => 1)
    (hstarted : w.intervalSeconds ≤ timeoutMax → s'.threads.length ≤ w.escaped s + 1) :
    w.Inv s' where
  sound := hsound
  paired := by rw [hshared, howed, hs.paired]
  counted := by
    rw [escaped, hshared]
    exact hcounted
  started := by
    rw [escaped, hshared]
    exact hstarted

theorem Inv.step (e : Event) (s : WorkerState SyncPhase Passes) (hs : w.Inv s) :
    w.Inv (w.step e s) := by
  have hsound : (w.step e s).Sound := hs.sound.step e s
  have heffect : WorkerState.Effect w.loop s (w.step e s) := WorkerState.step_effect e s
  generalize w.step e s = s' at heffect hsound
  cases heffect with
  | still threads thread shared closed =>
    refine hs.of_owed hsound shared (WorkerState.owed_congr threads thread) ?_ ?_
    · intro hinterval hopen
      have hwas : s.closed = false := by
        by_contra hclosed
        rw [closed (by simpa using hclosed)] at hopen
        cases hopen
      rw [threads, WorkerState.owed_congr threads thread]
      exact hs.counted hinterval hwas
    · rw [threads]
      exact hs.started
  | started hopen hdead threads thread shared closed =>
    have hone : s'.owed (fun _ => 1) = 1 := WorkerState.owed_started threads thread
    have hcount : w.intervalSeconds ≤ timeoutMax → s'.threads.length = w.escaped s + 1 := by
      intro hinterval
      have hcounted := hs.counted hinterval hopen
      rw [WorkerState.owed_of_dead hdead] at hcounted
      rw [threads, List.length_append, hcounted]
      rfl
    refine hs.of_owed hsound shared ?_ (fun hinterval _ => ?_) (fun hinterval => ?_)
    · rw [WorkerState.owed_of_dead hdead, WorkerState.owed_started threads thread, inPass_entry]
    · rw [hone, hcount hinterval]
    · rw [hcount hinterval]
  | failed hopen hdead threads thread shared closed =>
    have hnone : ∀ owes : SyncPhase → ℕ, s'.owed owes = s.owed owes := fun owes => by
      rw [WorkerState.owed_of_none thread, WorkerState.owed_of_dead hdead]
    refine hs.of_owed hsound shared (hnone _) (fun hinterval _ => ?_) (fun hinterval => ?_)
    · rw [threads, hnone]
      exact hs.counted hinterval hopen
    · rw [threads]
      exact hs.started hinterval
  | turned hphase input => exact hs.turn hphase input
  | accessed op => exact op.elim

/-- **Whatever the callers, the passes and the schedule, the worker is orderly.** -/
theorem orderly_run (w : BackgroundSyncWorker) (es : List Event) :
    w.Orderly (run w.step es init) :=
  (run_of_kept Inv.step inv_init es).orderly

/-! ## After the stop -/

/-- A turn of `beginsPass` is paid for by the place that owes it. -/
theorem beginsPass_paid (e : PassEnd) (phase : SyncPhase) (passes : Passes) :
    beginsPass phase + (w.loop.turn true true e phase passes).1.elim 0 beginsPass ≤
      beginsPass phase := by
  cases phase with
  | waiting => simp [loop, runLoop, beginsPass]
  | due => simp [loop, runLoop, beginsPass]
  | syncing =>
    simp only [loop, runLoop, beginsPass]
    split_ifs <;> simp [beginsPass]

theorem turnsLeft_paid (e : PassEnd) (phase : SyncPhase) (passes : Passes) :
    1 + (w.loop.turn true true e phase passes).1.elim 0 turnsLeft ≤ turnsLeft phase := by
  cases phase with
  | waiting => simp [loop, runLoop, turnsLeft]
  | due => simp [loop, runLoop, turnsLeft]
  | syncing =>
    simp only [loop, runLoop, turnsLeft]
    split_ifs <;> simp [turnsLeft]

/-- A turn at which a pass is due begins it. -/
theorem begun_step (e : Event) (s : WorkerState SyncPhase Passes) :
    (w.step e s).shared.begun = s.shared.begun + WorkerState.turnCost beginsPass e s := by
  cases e with
  | turn i e =>
    rcases hphase : s.phaseOf i with _ | phase
    · simp [step, WorkerState.step, WorkerState.turn_of_none hphase, WorkerState.turnCost, hphase]
    · simp only [step, WorkerState.step, WorkerState.turn_eq hphase, WorkerState.turnCost, hphase]
      cases phase <;> rfl
  | access op => exact op.elim
  | _ => rw [step, WorkerState.step_shared _ (by simp) (by simp)]; rfl

theorem begun_run (hs : s.Sound) (es : List Event) :
    (run w.step es s).shared.begun =
      s.shared.begun + charge w.step (WorkerState.turnCost beginsPass) es s := by
  have hkeep : ∀ e (s : WorkerState SyncPhase Passes), s.Sound → (w.step e s).Sound :=
    fun e s hs => hs.step e s
  exact @run_counter _ _ w.step _ _ (fun s => s.shared.begun) hkeep (fun e s _ => begun_step e s)
    s hs es

/-- What is left of a worker that was stopped in one state and has come to
another. -/
structure StoppedIn (w : BackgroundSyncWorker) (s s' : WorkerState SyncPhase Passes) : Prop where
  closed : s'.closed = true
  /-- No thread is started. -/
  threads : s'.threads.length = s.threads.length
  /-- No pass begins but the one that was due when the stop came. -/
  begun : s'.shared.begun ≤ s.shared.begun + s.owed beginsPass
  /-- Once the join has seen the thread end, none is alive again. -/
  at_rest : s'.stopCall = .returned true → ∀ es i, (run w.step es s').phaseOf i = none
  unhooked : (∀ callback thread, s'.stopCall ≠ .unregistering callback thread) → s'.registered = 0

/-- The stop itself gives no thread a turn. -/
theorem stop_owed (owes : SyncPhase → ℕ) : s.stop.owed owes = s.owed owes := by
  unfold WorkerState.stop
  split_ifs
  · rfl
  · exact WorkerState.owed_congr rfl rfl

theorem stop_same : s.stop.shared = s.shared ∧ s.stop.threads = s.threads := by
  unfold WorkerState.stop
  split_ifs <;> exact ⟨rfl, rfl⟩

theorem owed_le {owes : SyncPhase → ℕ} {n : ℕ} (h : ∀ phase, owes phase ≤ n) : s.owed owes ≤ n := by
  rw [WorkerState.owed]
  rcases s.thread.bind s.phaseOf with _ | phase
  · exact Nat.zero_le n
  · exact h phase

theorem owed_beginsPass_le : s.owed beginsPass ≤ 1 :=
  owed_le fun phase => by cases phase <;> simp [beginsPass]

/-- A closed worker starts no thread, begins no pass but one that is due,
and has three turns left at most. -/
theorem run_of_closed (hs : s.Sound) (hclosed : s.closed = true) (es : List Event) :
    (run w.step es s).threads.length = s.threads.length ∧
      (run w.step es s).shared.begun ≤ s.shared.begun + s.owed beginsPass ∧
      charge w.step (WorkerState.turnCost fun _ => 1) es s ≤ s.owed turnsLeft := by
  have hlength : (run w.step es s).threads.length = s.threads.length :=
    (WorkerState.run_of_closed hclosed es).2
  have hpasses : charge w.step (WorkerState.turnCost beginsPass) es s +
      (run w.step es s).owed beginsPass ≤ s.owed beginsPass :=
    WorkerState.charge_of_closed (beginsPass_paid (w := w)) hs hclosed es
  have hturns : charge w.step (WorkerState.turnCost fun _ => 1) es s +
      (run w.step es s).owed turnsLeft ≤ s.owed turnsLeft :=
    WorkerState.charge_of_closed (turnsLeft_paid (w := w)) hs hclosed es
  have hbegun := begun_run (w := w) hs es
  exact ⟨hlength, by omega, by omega⟩

/-- **A stop is terminal.** Whenever it comes in a run, and whatever comes
after: no thread starts, no pass begins but one that was due, which is one
at most, and the thread ends within three turns. -/
theorem stoppedIn_run (w : BackgroundSyncWorker) (es es' : List Event) :
    w.StoppedIn (run w.step es init) (run w.step es' (run w.step es init).stop) ∧
      (run w.step es init).owed beginsPass ≤ 1 ∧
      charge w.step (WorkerState.turnCost fun _ => 1) es' (run w.step es init).stop ≤ 3 := by
  have hs := (run_of_kept Inv.step (inv_init (w := w)) es).sound
  generalize run w.step es init = s at hs
  have hclosed : s.stop.closed = true := WorkerState.stop_closed
  obtain ⟨hshared, hthreads⟩ := stop_same (s := s)
  obtain ⟨hlength, hbegun, hturns⟩ := run_of_closed (w := w) hs.stop hclosed es'
  rw [stop_owed, hshared] at hbegun
  rw [hthreads] at hlength
  have hstill : (run w.step es' s.stop).closed = true := (WorkerState.run_of_closed hclosed es').1
  have hkeep : ∀ e (s : WorkerState SyncPhase Passes), s.Sound → (w.step e s).Sound :=
    fun e s hs => hs.step e s
  have hsound : (run w.step es' s.stop).Sound := run_of_kept hkeep hs.stop es'
  have hle : s.stop.owed turnsLeft ≤ 3 := owed_le fun phase => by cases phase <;> simp [turnsLeft]
  refine ⟨⟨hstill, hlength, hbegun, hsound.at_rest, fun hcall => ?_⟩, owed_beginsPass_le,
    Nat.le_trans hturns hle⟩
  have hok := hsound.call
  cases hc : (run w.step es' s.stop).stopCall with
  | uncalled =>
    rw [hc] at hok
    cases hok.symm.trans hstill
  | unregistering callback thread => exact absurd hc (hcall callback thread)
  | joining thread =>
    rw [hc] at hok
    exact hok.2.1
  | returned ended =>
    rw [hc] at hok
    exact hok.2.1

/-- A pass that was due when the stop came begins after it. -/
example : (run ({} : BackgroundSyncWorker).step [.turn 0 ⟨.ok 0, .ok ()⟩]
    (run ({} : BackgroundSyncWorker).step [.start none] init).stop).shared.begun = 1 := rfl

end

end BackgroundSyncWorker

end Congine
