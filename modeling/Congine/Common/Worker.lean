import Congine.Common.Runs
/-!
# Workers with a terminal stop

An owner starts a daemon thread under its lock, at most one at a time, and
stops it for good: the stop signals an event the thread looks at, takes
back the exit hook and joins the thread for a while. The thread runs a loop
over data it shares with other callers, who come in between its turns.

After the stop no thread starts, and the one alive has left what its loop
takes to look at the event: what a turn may cost is bounded by what its
place in the loop still owes.
-/

namespace Congine

/-- A loop over shared data. A turn sees whether the stop is signalled and
whether the owner is closed, and ends the thread where it leads nowhere. -/
structure LoopProgram (Phase Input Op Shared : Type*) where
  entry : Phase
  turn : Bool → Bool → Input → Phase → Shared → Option Phase × Shared
  /-- What another caller does to the data. -/
  access : Op → Shared → Shared

/-- Where the call of `stop` that closes the worker stands. -/
inductive StopCall where
  | uncalled
  | unregistering (callback : Bool) (thread : Option ℕ)
  | joining (thread : Option ℕ)
  /-- The call has returned; whether it left no thread alive. -/
  | returned (ended : Bool)
  deriving DecidableEq

structure WorkerState (Phase Shared : Type*) where
  closed : Bool := false
  stopEvent : Bool := false
  /-- Every thread started, at its place in the loop; one that has ended is at none. -/
  threads : List (Option Phase) := []
  thread : Option ℕ := none
  atexitCallback : Bool := false
  /-- How often `stop` is registered as an exit hook. -/
  registered : ℕ := 0
  stopCall : StopCall := .uncalled
  shared : Shared

inductive WorkerEvent (Input Op Err : Type*) where
  /-- A call of `start`; what starting the thread raises. -/
  | start (failure : Option Err)
  /-- A call of `stop`, as far as it holds the lock. -/
  | stop
  | unregister
  /-- The join is over: the thread has ended, or the timeout is up. -/
  | join
  | turn (thread : ℕ) (input : Input)
  | access (op : Op)

namespace WorkerState

variable {Phase Input Op Shared Err : Type*}

/-- The place of a thread that is alive. -/
def phaseOf (s : WorkerState Phase Shared) (i : ℕ) : Option Phase := s.threads[i]?.join

/-- `self._thread is not None and self._thread.is_alive()`. -/
def isAlive (s : WorkerState Phase Shared) : Bool := s.thread.any fun i => (s.phaseOf i).isSome

variable (p : LoopProgram Phase Input Op Shared)

/-- `start`, with what it raises on a closed worker. -/
def start (closedError : Err) (failure : Option Err) (s : WorkerState Phase Shared) :
    Except Err Unit × WorkerState Phase Shared :=
  if s.closed then (.error closedError, s)
  else if s.isAlive then (.ok (), s)
  else
    match failure with
    | none =>
      (.ok (), { s with
        stopEvent := false
        thread := some s.threads.length
        threads := s.threads ++ [some p.entry]
        atexitCallback := true
        registered := s.registered + 1 })
    -- Unregistering the hook takes back every registration of it.
    | some e =>
      (.error e,
        { s with stopEvent := false, thread := none, atexitCallback := false, registered := 0 })

def stop (s : WorkerState Phase Shared) : WorkerState Phase Shared :=
  if s.closed then s
  else
    { s with
      closed := true
      stopEvent := true
      atexitCallback := false
      stopCall := .unregistering s.atexitCallback s.thread }

def unregister (s : WorkerState Phase Shared) : WorkerState Phase Shared :=
  match s.stopCall with
  | .unregistering callback thread =>
    { s with
      registered := if callback then 0 else s.registered
      stopCall := .joining thread }
  | _ => s

def join (s : WorkerState Phase Shared) : WorkerState Phase Shared :=
  match s.stopCall with
  | .joining thread =>
    { s with stopCall := .returned (!thread.any fun i => (s.phaseOf i).isSome) }
  | _ => s

def turn (i : ℕ) (input : Input) (s : WorkerState Phase Shared) : WorkerState Phase Shared :=
  match s.phaseOf i with
  | none => s
  | some phase =>
    { s with
      threads := s.threads.set i (p.turn s.stopEvent s.closed input phase s.shared).1
      shared := (p.turn s.stopEvent s.closed input phase s.shared).2 }

def step (closedError : Err) :
    WorkerEvent Input Op Err → WorkerState Phase Shared → WorkerState Phase Shared
  | .start failure, s => (start p closedError failure s).2
  | .stop, s => s.stop
  | .unregister, s => s.unregister
  | .join, s => s.join
  | .turn i input, s => s.turn p i input
  | .access op, s => { s with shared := p.access op s.shared }

/-! ## What every step keeps -/

/-- What is left to the call of `stop`: until it has unregistered it, the
hook it took may be registered, and the thread it joins is the last one. -/
def CallOk (s : WorkerState Phase Shared) : StopCall → Prop
  | .uncalled => s.closed = false
  | .unregistering callback thread =>
    s.closed = true ∧ (callback = false → s.registered = 0) ∧ thread = s.thread
  | .joining thread => s.closed = true ∧ s.registered = 0 ∧ thread = s.thread
  | .returned ended => s.closed = true ∧ s.registered = 0 ∧ (ended = true → s.isAlive = false)

structure Sound (s : WorkerState Phase Shared) : Prop where
  /-- A thread that is alive is the one started last. -/
  current : ∀ i, (s.phaseOf i).isSome → s.thread = some i
  signalled : s.stopEvent = s.closed
  hooked : s.closed = false → (s.atexitCallback = true ↔ 0 < s.registered)
  alive_hooked : s.closed = false → s.isAlive = true → s.atexitCallback = true
  call : s.CallOk s.stopCall

section

variable {p} {s : WorkerState Phase Shared} {closedError : Err}

theorem isAlive_iff : s.isAlive = true ↔ ∃ i, s.thread = some i ∧ (s.phaseOf i).isSome := by
  rw [isAlive]
  cases s.thread <;> simp

theorem Sound.isAlive_of_phaseOf (hs : s.Sound) {i : ℕ} (h : (s.phaseOf i).isSome) :
    s.isAlive = true :=
  isAlive_iff.mpr ⟨i, hs.current i h, h⟩

/-- **No two threads are alive.** -/
theorem Sound.alive_unique (hs : s.Sound) {i j : ℕ} (hi : (s.phaseOf i).isSome)
    (hj : (s.phaseOf j).isSome) : i = j :=
  Option.some.inj ((hs.current i hi).symm.trans (hs.current j hj))

theorem phaseOf_append (phase : Phase) (i : ℕ) {s' : WorkerState Phase Shared}
    (h : s'.threads = s.threads ++ [some phase]) :
    s'.phaseOf i = if i = s.threads.length then some phase else s.phaseOf i := by
  rw [phaseOf, h, phaseOf]
  rcases Nat.lt_trichotomy i s.threads.length with hlt | rfl | hgt
  · rw [List.getElem?_append_left hlt, if_neg (by omega)]
  · simp
  · rw [if_neg (by omega), List.getElem?_eq_none (by simp; omega),
      List.getElem?_eq_none (by omega)]

theorem phaseOf_set (phase : Option Phase) {i : ℕ} (h : (s.phaseOf i).isSome) (j : ℕ)
    {s' : WorkerState Phase Shared} (hset : s'.threads = s.threads.set i phase) :
    s'.phaseOf j = if j = i then phase else s.phaseOf j := by
  have hlt : i < s.threads.length := by
    by_contra hge
    rw [phaseOf, List.getElem?_eq_none (by omega)] at h
    cases h
  rw [phaseOf, hset, phaseOf, List.getElem?_set]
  by_cases hj : j = i
  · subst hj
    simp [hlt]
  · simp [hj, Ne.symm hj]

theorem turn_eq {i : ℕ} {phase : Phase} (h : s.phaseOf i = some phase) (input : Input) :
    s.turn p i input =
      { s with
        threads := s.threads.set i (p.turn s.stopEvent s.closed input phase s.shared).1
        shared := (p.turn s.stopEvent s.closed input phase s.shared).2 } := by
  rw [turn, h]

theorem turn_of_none {i : ℕ} (h : s.phaseOf i = none) (input : Input) : s.turn p i input = s := by
  rw [turn, h]

theorem phaseOf_turn {i : ℕ} {phase : Phase} (h : s.phaseOf i = some phase) (input : Input)
    (j : ℕ) : (s.turn p i input).phaseOf j =
      if j = i then (p.turn s.stopEvent s.closed input phase s.shared).1 else s.phaseOf j := by
  rw [turn_eq h]
  exact phaseOf_set _ (by rw [h]; rfl) j rfl

/-- A turn brings no thread to life. -/
theorem phaseOf_of_turn {i j : ℕ} {input : Input} (h : ((s.turn p i input).phaseOf j).isSome) :
    (s.phaseOf j).isSome := by
  rcases hphase : s.phaseOf i with _ | phase
  · rwa [turn_of_none hphase] at h
  · rw [phaseOf_turn hphase] at h
    by_cases hj : j = i
    · rw [hj, hphase]
      rfl
    · rwa [if_neg hj] at h

theorem Sound.start (hs : s.Sound) (failure : Option Err) :
    (WorkerState.start p closedError failure s).2.Sound := by
  unfold WorkerState.start
  by_cases hclosed : s.closed = true
  · rwa [if_pos hclosed]
  by_cases halive : s.isAlive = true
  · rwa [if_neg hclosed, if_pos halive]
  rw [if_neg hclosed, if_neg halive]
  have hopen : s.closed = false := by simpa using hclosed
  have hdead : ∀ i, ¬ (s.phaseOf i).isSome := fun i hi => halive (hs.isAlive_of_phaseOf hi)
  have hcall : s.stopCall = .uncalled := by
    have := hs.call
    revert this
    cases s.stopCall <;> simp [CallOk, hopen]
  cases failure with
  | none =>
    exact
      { current := fun i hi => by
          rw [phaseOf_append p.entry i rfl] at hi
          split_ifs at hi with hlast
          · rw [hlast]
          · exact absurd hi (hdead i)
        signalled := hopen.symm
        hooked := fun _ => by simp
        alive_hooked := fun _ _ => rfl
        call := by
          rw [hcall]
          exact hopen }
  | some e =>
    exact
      { current := fun i hi => absurd hi (hdead i)
        signalled := hopen.symm
        hooked := fun _ => by simp
        alive_hooked := fun _ h => by cases h
        call := by
          rw [hcall]
          exact hopen }

theorem Sound.stop (hs : s.Sound) : s.stop.Sound := by
  unfold WorkerState.stop
  split_ifs with hclosed
  · exact hs
  · have hopen : s.closed = false := by simpa using hclosed
    exact
      { current := hs.current
        signalled := rfl
        hooked := fun h => by cases h
        alive_hooked := fun h => by cases h
        call := by
          refine ⟨rfl, fun hcallback => ?_, rfl⟩
          have := (hs.hooked hopen).not.mp (by rw [hcallback]; exact Bool.false_ne_true)
          exact Nat.eq_zero_of_not_pos this }

theorem Sound.unregister (hs : s.Sound) : s.unregister.Sound := by
  unfold WorkerState.unregister
  have hcall := hs.call
  split
  · next callback thread heq =>
    rw [heq] at hcall
    obtain ⟨hclosed, hregistered, hthread⟩ := hcall
    exact
      { current := hs.current
        signalled := hs.signalled
        hooked := fun h => Bool.noConfusion (hclosed.symm.trans h)
        alive_hooked := fun h => Bool.noConfusion (hclosed.symm.trans h)
        call := by
          refine ⟨hclosed, ?_, hthread⟩
          cases callback
          · exact hregistered rfl
          · rfl }
  · exact hs

theorem Sound.join (hs : s.Sound) : s.join.Sound := by
  unfold WorkerState.join
  have hcall := hs.call
  split
  · next thread heq =>
    rw [heq] at hcall
    obtain ⟨hclosed, hregistered, rfl⟩ := hcall
    exact
      { hs with
        call := by
          refine ⟨hclosed, hregistered, fun h => ?_⟩
          exact (Bool.not_eq_true' _).mp h }
  · exact hs

/-- What only ends threads and touches the data keeps the rest. -/
theorem Sound.of_ended (hs : s.Sound) {threads : List (Option Phase)} {shared : Shared}
    (h : ∀ i, (({ s with threads, shared } : WorkerState Phase Shared).phaseOf i).isSome →
      (s.phaseOf i).isSome) : ({ s with threads, shared } : WorkerState Phase Shared).Sound := by
  have halive : ({ s with threads, shared } : WorkerState Phase Shared).isAlive = true →
      s.isAlive = true := by
    intro ha
    obtain ⟨i, -, hi⟩ := isAlive_iff.mp ha
    exact hs.isAlive_of_phaseOf (h i hi)
  exact
    { current := fun i hi => hs.current i (h i hi)
      signalled := hs.signalled
      hooked := hs.hooked
      alive_hooked := fun hopen ha => hs.alive_hooked hopen (halive ha)
      call := by
        have hcall := hs.call
        show CallOk _ s.stopCall
        cases hc : s.stopCall with
        | returned ended =>
          rw [hc] at hcall
          obtain ⟨hclosed, hregistered, hended⟩ := hcall
          refine ⟨hclosed, hregistered, fun he => ?_⟩
          exact Bool.eq_false_iff.mpr fun ha => by
            have := hended he
            rw [halive ha] at this
            cases this
        | _ =>
          rw [hc] at hcall
          exact hcall }

theorem Sound.turn (hs : s.Sound) (i : ℕ) (input : Input) : (s.turn p i input).Sound := by
  rcases hphase : s.phaseOf i with _ | phase
  · rwa [turn_of_none hphase]
  · have hended : ∀ j, ((s.turn p i input).phaseOf j).isSome → (s.phaseOf j).isSome :=
      fun j => phaseOf_of_turn
    rw [turn_eq hphase] at hended ⊢
    exact hs.of_ended hended

theorem Sound.step (e : WorkerEvent Input Op Err) (s : WorkerState Phase Shared) (hs : s.Sound) :
    (step p closedError e s).Sound := by
  cases e with
  | start failure => exact hs.start failure
  | stop => exact hs.stop
  | unregister => exact hs.unregister
  | join => exact hs.join
  | turn i input => exact hs.turn i input
  | access op => exact hs.of_ended fun i hi => hi

theorem sound_init (shared : Shared) : ({ shared } : WorkerState Phase Shared).Sound where
  current i hi := by simp [phaseOf] at hi
  signalled := rfl
  hooked _ := by simp
  alive_hooked _ h := by cases h
  call := rfl

/-! ## What a step can do -/

/-- A step starts a thread, tries to, gives a thread its turn or lets another
caller at the data; any other leaves threads and data as they are. -/
inductive Effect (p : LoopProgram Phase Input Op Shared) (s : WorkerState Phase Shared) :
    WorkerState Phase Shared → Prop
  | still {s' : WorkerState Phase Shared} (threads : s'.threads = s.threads)
      (thread : s'.thread = s.thread) (shared : s'.shared = s.shared)
      (closed : s.closed = true → s'.closed = true) : Effect p s s'
  | started {s' : WorkerState Phase Shared} (hopen : s.closed = false) (hdead : s.isAlive = false)
      (threads : s'.threads = s.threads ++ [some p.entry])
      (thread : s'.thread = some s.threads.length) (shared : s'.shared = s.shared)
      (closed : s'.closed = false) : Effect p s s'
  | failed {s' : WorkerState Phase Shared} (hopen : s.closed = false) (hdead : s.isAlive = false)
      (threads : s'.threads = s.threads) (thread : s'.thread = none)
      (shared : s'.shared = s.shared) (closed : s'.closed = false) : Effect p s s'
  | turned {i : ℕ} {phase : Phase} (h : s.phaseOf i = some phase) (input : Input) :
      Effect p s (s.turn p i input)
  | accessed (op : Op) : Effect p s { s with shared := p.access op s.shared }

theorem step_effect (e : WorkerEvent Input Op Err) (s : WorkerState Phase Shared) :
    Effect p s (step p closedError e s) := by
  have hstill : Effect p s s := .still rfl rfl rfl id
  cases e with
  | start failure =>
    simp only [step, start]
    by_cases hclosed : s.closed = true
    · rwa [if_pos hclosed]
    by_cases halive : s.isAlive = true
    · rwa [if_neg hclosed, if_pos halive]
    rw [if_neg hclosed, if_neg halive]
    rw [Bool.not_eq_true] at hclosed halive
    cases failure with
    | none => exact .started hclosed halive rfl rfl rfl hclosed
    | some e => exact .failed hclosed halive rfl rfl rfl hclosed
  | stop =>
    simp only [step, stop]
    split
    · exact hstill
    · exact .still rfl rfl rfl fun _ => rfl
  | unregister =>
    simp only [step, unregister]
    split
    · exact .still rfl rfl rfl id
    · exact hstill
  | join =>
    simp only [step, join]
    split
    · exact .still rfl rfl rfl id
    · exact hstill
  | turn i input =>
    rcases hphase : s.phaseOf i with _ | phase
    · rw [step, turn_of_none hphase]
      exact hstill
    · exact .turned hphase input
  | access op => exact .accessed op

/-- Only turns and the other callers touch the data. -/
theorem step_shared (e : WorkerEvent Input Op Err) (hturn : ∀ i input, e ≠ .turn i input)
    (haccess : ∀ op, e ≠ .access op) : (step p closedError e s).shared = s.shared := by
  cases e with
  | start failure =>
    simp only [step, start]
    split_ifs
    · rfl
    · rfl
    · cases failure <;> rfl
  | stop =>
    simp only [step, stop]
    split_ifs <;> rfl
  | unregister =>
    simp only [step, unregister]
    split <;> rfl
  | join =>
    simp only [step, join]
    split <;> rfl
  | turn i input => exact absurd rfl (hturn i input)
  | access op => exact absurd rfl (haccess op)

/-! ## What a thread owes -/

/-- What the thread that is alive owes at its place. -/
def owed (owes : Phase → ℕ) (s : WorkerState Phase Shared) : ℕ :=
  (s.thread.bind s.phaseOf).elim 0 owes

variable {owes : Phase → ℕ}

theorem owed_congr {s' : WorkerState Phase Shared} (hthreads : s'.threads = s.threads)
    (hthread : s'.thread = s.thread) : s'.owed owes = s.owed owes := by
  have hphase : s'.phaseOf = s.phaseOf := funext fun i => by rw [phaseOf, hthreads, phaseOf]
  rw [owed, hthread, hphase, owed]

theorem owed_of_phaseOf (hs : s.Sound) {i : ℕ} {phase : Phase} (h : s.phaseOf i = some phase) :
    s.owed owes = owes phase := by
  rw [owed, hs.current i (by rw [h]; rfl), Option.bind_some, h]
  rfl

theorem owed_of_dead (h : s.isAlive = false) : s.owed owes = 0 := by
  rw [owed]
  cases hthread : s.thread with
  | none => rfl
  | some i =>
    have hnone : s.phaseOf i = none := by simpa [isAlive, hthread] using h
    rw [Option.bind_some, hnone]
    rfl

theorem owed_of_none {s' : WorkerState Phase Shared} (h : s'.thread = none) :
    s'.owed owes = 0 := by
  rw [owed, h]
  rfl

theorem owed_started {s' : WorkerState Phase Shared} {phase : Phase}
    (hthreads : s'.threads = s.threads ++ [some phase])
    (hthread : s'.thread = some s.threads.length) : s'.owed owes = owes phase := by
  rw [owed, hthread, Option.bind_some, phaseOf_append phase _ hthreads, if_pos rfl]
  rfl

theorem owed_turn (hs : s.Sound) {i : ℕ} {phase : Phase} (h : s.phaseOf i = some phase)
    (input : Input) : (s.turn p i input).owed owes =
      (p.turn s.stopEvent s.closed input phase s.shared).1.elim 0 owes := by
  have hthread : (s.turn p i input).thread = some i := by
    rw [turn_eq h]
    exact hs.current i (by rw [h]; rfl)
  rw [owed, hthread, Option.bind_some, phaseOf_turn h, if_pos rfl]

/-! ## After the stop -/

theorem stop_closed : s.stop.closed = true := by
  unfold stop
  split_ifs with hclosed
  · exact hclosed
  · rfl

/-- A closed worker stays closed, and starts no thread. -/
theorem Effect.of_closed {s' : WorkerState Phase Shared} (h : Effect p s s')
    (hclosed : s.closed = true) : s'.closed = true ∧ s'.threads.length = s.threads.length := by
  cases h with
  | still threads _ _ closed => exact ⟨closed hclosed, by rw [threads]⟩
  | started hopen => cases hclosed.symm.trans hopen
  | failed hopen => cases hclosed.symm.trans hopen
  | turned hphase input =>
    rw [turn_eq hphase]
    exact ⟨hclosed, List.length_set⟩
  | accessed op => exact ⟨hclosed, rfl⟩

theorem run_of_closed (hclosed : s.closed = true) (es : List (WorkerEvent Input Op Err)) :
    (run (step p closedError) es s).closed = true ∧
      (run (step p closedError) es s).threads.length = s.threads.length := by
  have hkeep : ∀ e s', s'.closed = true ∧ s'.threads.length = s.threads.length →
      (step p closedError e s').closed = true ∧
        (step p closedError e s').threads.length = s.threads.length := by
    rintro e s' ⟨hclosed', hsame⟩
    obtain ⟨hstill, hlength⟩ := (step_effect e s').of_closed hclosed'
    exact ⟨hstill, hlength.trans hsame⟩
  exact run_of_kept hkeep ⟨hclosed, rfl⟩ es

/-- No thread is alive once the join has seen the thread end. -/
theorem Sound.dead_of_returned (hs : s.Sound) (h : s.stopCall = .returned true) :
    s.isAlive = false := by
  have hcall := hs.call
  rw [h] at hcall
  exact hcall.2.2 rfl

theorem step_returned (e : WorkerEvent Input Op Err) {ended : Bool} (hs : s.Sound)
    (h : s.stopCall = .returned ended) :
    (step p closedError e s).stopCall = .returned ended := by
  have hclosed : s.closed = true := by
    have hcall := hs.call
    rw [h] at hcall
    exact hcall.1
  cases e with
  | start failure => simp [step, start, hclosed, h]
  | stop => simp [step, stop, hclosed, h]
  | unregister => simp [step, unregister, h]
  | join => simp [step, join, h]
  | turn i input =>
    simp only [step, turn]
    split <;> exact h
  | access op => exact h

/-- **A joined worker is at rest**: no thread is alive, and none will be. -/
theorem Sound.at_rest (hs : s.Sound) (h : s.stopCall = .returned true)
    (es : List (WorkerEvent Input Op Err)) (i : ℕ) :
    (run (WorkerState.step p closedError) es s).phaseOf i = none := by
  have hkeep : ∀ e s, s.Sound ∧ s.stopCall = .returned true →
      (WorkerState.step p closedError e s).Sound ∧
        (WorkerState.step p closedError e s).stopCall = .returned true :=
    fun e s hs => ⟨hs.1.step e s, step_returned e hs.1 hs.2⟩
  obtain ⟨hrun, hreturned⟩ := run_of_kept hkeep ⟨hs, h⟩ es
  have hdead := hrun.dead_of_returned hreturned
  by_contra hne
  rw [hrun.isAlive_of_phaseOf (i := i) (Option.ne_none_iff_isSome.mp hne)] at hdead
  cases hdead

/-- What a turn of a thread that is alive costs; nothing else costs. -/
def turnCost (cost : Phase → ℕ) (e : WorkerEvent Input Op Err) (s : WorkerState Phase Shared) :
    ℕ :=
  match e with
  | .turn i _ => (s.phaseOf i).elim 0 cost
  | _ => 0

variable {cost : Phase → ℕ}

theorem step_owed (hpaid : ∀ input phase shared,
      cost phase + (p.turn true true input phase shared).1.elim 0 owes ≤ owes phase)
    (e : WorkerEvent Input Op Err) (hs : s.Sound) (hclosed : s.closed = true) :
    turnCost cost e s + (step p closedError e s).owed owes ≤ s.owed owes := by
  cases e with
  | turn i input =>
    rcases hphase : s.phaseOf i with _ | phase
    · simp [step, turn_of_none hphase, turnCost, hphase]
    · rw [owed_of_phaseOf hs hphase]
      simp only [step, turnCost, hphase, Option.elim_some, owed_turn hs hphase, hs.signalled,
        hclosed]
      exact hpaid input phase s.shared
  | start failure => simp [step, start, hclosed, turnCost]
  | stop => simp [step, stop, hclosed, turnCost]
  | unregister =>
    simp only [step, unregister, turnCost, Nat.zero_add]
    split <;> exact Nat.le_refl _
  | join =>
    simp only [step, join, turnCost, Nat.zero_add]
    split <;> exact Nat.le_refl _
  | access op =>
    simp only [step, turnCost, Nat.zero_add]
    exact Nat.le_refl _

/-- **The turns of a closed worker cost no more than its thread owes**,
where a turn that sees the stop pays for itself. -/
theorem charge_of_closed (hpaid : ∀ input phase shared,
      cost phase + (p.turn true true input phase shared).1.elim 0 owes ≤ owes phase)
    (hs : s.Sound) (hclosed : s.closed = true) (es : List (WorkerEvent Input Op Err)) :
    charge (step p closedError) (turnCost cost) es s +
      (run (step p closedError) es s).owed owes ≤ s.owed owes := by
  have hkeep : ∀ e s, s.Sound ∧ s.closed = true →
      (step p closedError e s).Sound ∧ (step p closedError e s).closed = true :=
    fun e s hs => ⟨hs.1.step e s, ((step_effect e s).of_closed hs.2).1⟩
  exact charge_add_le hkeep (fun e s hs => step_owed hpaid e hs.1 hs.2) ⟨hs, hclosed⟩ es

end

end WorkerState

end Congine
