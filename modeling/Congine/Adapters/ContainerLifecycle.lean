import Congine.Adapters.ContainerParts
/-!
# Closing a container

Any number of callers may close a container, and use it meanwhile. The
first to take the lock marks it closed, detaches the finalizer and tears
the parts down one by one; a later one waits for that to be over, for eight
seconds. A container that is dropped unclosed is torn down by its
finalizer, which also fires when the interpreter exits, whoever still holds
the container.

A stop that raises has stopped its component: each of the four sets its
closed flag before anything of it can raise.
-/

namespace Congine

variable {V : Type}

/-- Where a call of `close` stands. -/
inductive CloseCall where
  /-- It has marked the container closed, and took its finalizer. -/
  | detaching (finalizer : Bool)
  /-- In `_teardown_components`, with these left to stop. -/
  | tearing (rest : List Component)
  /-- At the `finally`, with what escaped the teardown. -/
  | completing (escaped : Option Exc)
  /-- `_close_complete.wait(timeout=8.0)`. -/
  | waiting
  /-- It has returned or raised; whether the teardown was over. -/
  | returned (complete : Bool) (raised : Option Exc)
  deriving DecidableEq

namespace CloseCall

/-- The call that closed the container, still at it. -/
def active : CloseCall → Bool
  | detaching _ | tearing _ | completing _ => true
  | _ => false

def isReturned : CloseCall → Bool
  | returned _ _ => true
  | _ => false

end CloseCall

/-- Where a call of `start_background_sync` stands. -/
inductive StartCall where
  /-- Past `ensure_open`. -/
  | ensured
  | ended (result : Except Exc Unit)

structure ContainerState (V : Type) where
  parts : Parts V
  closed : Bool := false
  closeComplete : Bool := false
  /-- `_finalizer is not None`. -/
  finalizer : Bool := true
  /-- The finalizer has neither fired nor been detached. -/
  finalizerAlive : Bool := true
  closes : List CloseCall := []
  starts : List StartCall := []
  /-- The finalizer's teardown, once it has fired. -/
  finalizing : Option (List Component) := none
  /-- No one holds the container any more. -/
  dropped : Bool := false
  /-- Teardowns begun. -/
  teardowns : ℕ := 0
  /-- What a stop raised outside `Exception`: the rest of its teardown is left undone. -/
  escaped : List Exc := []

inductive ContainerEvent (V : Type) where
  | close
  /-- The next statement of a call of `close`; what the stop in it raises. -/
  | advance (i : ℕ) (raised : Option Exc)
  | startBackgroundSync
  /-- `sync_worker.start()`; what starting the thread raises. -/
  | startWorker (i : ℕ) (failure : Option Exc)
  /-- The container is collected, once no call is in progress. -/
  | drop
  /-- The interpreter exits. -/
  | exit
  /-- The finalizer's next stop. -/
  | finalize (raised : Option Exc)
  | part (e : PartEvent V)

/-- `_teardown_components`: the producers before the consumers. -/
def teardownOrder : List Component :=
  [.syncWorker, .validationExecutor, .eventBus, .schemaStorage]

namespace ContainerState

variable (g : Wiring)

def setClose (s : ContainerState V) (i : ℕ) (call : CloseCall) : ContainerState V :=
  { s with closes := s.closes.set i call }

/-- `close`, as far as it holds the lock. -/
def close (s : ContainerState V) : ContainerState V :=
  if s.dropped then s
  else if s.closed then
    { s with closes := s.closes ++ [if s.closeComplete then .returned true none else .waiting] }
  else
    { s with closed := true, finalizer := false, closes := s.closes ++ [.detaching s.finalizer] }

/-- What is left of a teardown when a stop is over, unless it escaped. -/
def afterStop (raised : Option Exc) (rest : List Component) : Except Exc (List Component) :=
  match raised with
  | some exc => if exc.isException then .ok rest else .error exc
  | none => .ok rest

def advance (i : ℕ) (raised : Option Exc) (s : ContainerState V) : ContainerState V :=
  match s.closes[i]? with
  | some (.detaching finalizer) =>
    if s.closeComplete then s.setClose i (.returned true none)
    else
      { s.setClose i (.tearing teardownOrder) with
        finalizerAlive := if finalizer then false else s.finalizerAlive
        teardowns := s.teardowns + 1 }
  | some (.tearing []) => s.setClose i (.completing none)
  | some (.tearing (c :: rest)) =>
    if s.parts.isBusy c then s
    else
      match afterStop raised rest with
      | .ok rest => { s.setClose i (.tearing rest) with parts := s.parts.stop g true c }
      | .error exc =>
        { s.setClose i (.completing (some exc)) with
          parts := s.parts.stop g true c
          escaped := s.escaped ++ [exc] }
  | some (.completing escaped) =>
    { s.setClose i (.returned true escaped) with closeComplete := true }
  -- The wait is over: the teardown is, or the eight seconds are.
  | some .waiting => s.setClose i (.returned s.closeComplete none)
  | _ => s

/-- `start_background_sync`, as far as `ensure_open`. -/
def startBackgroundSync (s : ContainerState V) : ContainerState V :=
  if s.dropped then s
  else
    { s with
      starts := s.starts ++
        [if s.closed then .ended (.error (.congine .lifecycle)) else .ensured] }

def startWorker (i : ℕ) (failure : Option Exc) (s : ContainerState V) : ContainerState V :=
  match s.starts[i]? with
  | some .ensured =>
    match s.parts.syncWorker with
    | none => { s with starts := s.starts.set i (.ended (.ok ())) }
    | some worker =>
      { s with
        starts := s.starts.set i
          (.ended (WorkerState.start g.syncWorker.loop (.congine .lifecycle) failure worker).1)
        parts := s.parts.step g (.syncWorker (.start failure)) }
  | _ => s

/-- The finalizer fires, if it is alive. -/
def fire (s : ContainerState V) : ContainerState V :=
  if s.finalizerAlive then
    { s with
      finalizerAlive := false
      finalizing := some teardownOrder
      teardowns := s.teardowns + 1 }
  else s

/-- The container is collected where no call holds it. -/
def drop (s : ContainerState V) : ContainerState V :=
  if s.dropped then s
  else if s.closes.all CloseCall.isReturned ∧
      s.starts.all (fun | .ensured => false | _ => true) then
    { s with dropped := true }.fire
  else s

def finalize (raised : Option Exc) (s : ContainerState V) : ContainerState V :=
  match s.finalizing with
  | some (c :: rest) =>
    if s.parts.isBusy c then s
    else
      match afterStop raised rest with
      | .ok rest => { s with finalizing := some rest, parts := s.parts.stop g false c }
      | .error exc =>
        { s with
          finalizing := some []
          parts := s.parts.stop g false c
          escaped := s.escaped ++ [exc] }
  | _ => s

def step : ContainerEvent V → ContainerState V → ContainerState V
  | .close, s => s.close
  | .advance i raised, s => s.advance g i raised
  | .startBackgroundSync, s => s.startBackgroundSync
  | .startWorker i failure, s => s.startWorker g i failure
  | .drop, s => s.drop
  | .exit, s => s.fire
  | .finalize raised, s => s.finalize g raised
  | .part e, s => { s with parts := s.parts.step g e }

/-! ## What every step keeps -/

/-- Every component but these is stopped. -/
def StoppedBut (p : Parts V) (rest : List Component) : Prop := ∀ c, c ∈ rest ∨ p.isStopped c = true

/-- What is known where the first call of `close` stands. -/
def CloserOk (s : ContainerState V) : CloseCall → Prop
  | .detaching finalizer => s.closeComplete = false ∧ finalizer = true
  | .tearing rest =>
    s.closeComplete = false ∧ s.finalizerAlive = false ∧ StoppedBut s.parts rest
  | .completing escaped =>
    s.closeComplete = false ∧ s.finalizerAlive = false ∧
      (StoppedBut s.parts [] ∨ escaped.isSome ∧ s.escaped ≠ [])
  | .waiting => False
  | .returned _ _ =>
    s.closeComplete = true ∧ s.finalizerAlive = false ∧
      (StoppedBut s.parts [] ∨ s.escaped ≠ [])

/-- The first call has begun its teardown. -/
def tornDown (s : ContainerState V) : ℕ :=
  match s.closes.head? with
  | none | some (.detaching _) => 0
  | some _ => 1

structure Sound (s : ContainerState V) : Prop where
  /-- The first call of `close` is the one that closes. -/
  opened : s.closed = false → s.closes = [] ∧ s.finalizer = true ∧ s.closeComplete = false
  closer : s.closed = true → ∃ call calls, s.closes = call :: calls ∧ s.CloserOk call
  others : ∀ call calls, s.closes = call :: calls → ∀ call' ∈ calls, call'.active = false
  returned : ∀ raised, .returned true raised ∈ s.closes → s.closeComplete = true
  finalizer_alive : s.finalizerAlive = false → s.closed = false → s.finalizing.isSome
  fired : s.finalizing.isSome → s.finalizerAlive = false
  finalizing : ∀ rest ∈ s.finalizing, StoppedBut s.parts rest ∨ s.escaped ≠ []
  counted : s.teardowns = s.tornDown + if s.finalizing.isSome then 1 else 0
  /-- A container that is dropped has been torn down, or is being. -/
  dropped : s.dropped = true →
    s.closes.all CloseCall.isReturned = true ∧ (s.closed = false → s.finalizing.isSome)

section

variable {g : Wiring} {s : ContainerState V}

theorem sound_init (parts : Parts V) : ({ parts } : ContainerState V).Sound where
  opened _ := ⟨rfl, rfl, rfl⟩
  closer h := by cases h
  others _ _ h := by cases h
  returned _ h := absurd h List.not_mem_nil
  finalizer_alive h := by cases h
  fired h := by cases h
  finalizing _ h := by cases h
  counted := rfl
  dropped h := by cases h

/-! ### The parts under a container -/

theorem StoppedBut.run {p : Parts V} {rest : List Component} (h : StoppedBut p rest)
    (es : List (PartEvent V)) : StoppedBut (Congine.run (Parts.step g) es p) rest := fun c =>
  (h c).imp id (Parts.isStopped_run es)

theorem StoppedBut.stop {p : Parts V} {c : Component} {rest : List Component}
    (h : StoppedBut p (c :: rest)) (drain : Bool) (hbusy : p.isBusy c = false) :
    StoppedBut (p.stop g drain c) rest := by
  intro c'
  rcases h c' with hmem | hstopped
  · rcases List.mem_cons.mp hmem with rfl | hrest
    · exact .inr (Parts.isStopped_stop drain hbusy)
    · exact .inl hrest
  · exact .inr (Parts.isStopped_run _ hstopped)

/-- **Each step of the container is some steps of its parts.** -/
theorem step_parts (e : ContainerEvent V) (s : ContainerState V) :
    ∃ es, (step g e s).parts = run (Parts.step g) es s.parts := by
  have hsame : ∃ es, s.parts = run (Parts.step g) es s.parts := ⟨[], rfl⟩
  cases e with
  | close =>
    simp only [step, close]
    split_ifs <;> exact hsame
  | advance i raised =>
    simp only [step, advance]
    split
    · split_ifs <;> exact hsame
    · exact hsame
    · next c rest _ =>
      split_ifs
      · exact hsame
      · split <;> exact ⟨Parts.stopEvents true c, rfl⟩
    · exact hsame
    · exact hsame
    · exact hsame
  | startBackgroundSync =>
    simp only [step, startBackgroundSync]
    split_ifs <;> exact hsame
  | startWorker i failure =>
    simp only [step, startWorker]
    split
    · split
      · exact hsame
      · exact ⟨[.syncWorker (.start failure)], rfl⟩
    · exact hsame
  | drop =>
    simp only [step, drop, fire]
    split_ifs <;> exact hsame
  | exit =>
    simp only [step, fire]
    split_ifs <;> exact hsame
  | finalize raised =>
    simp only [step, finalize]
    split
    · next c rest _ =>
      split_ifs
      · exact hsame
      · split <;> exact ⟨Parts.stopEvents false c, rfl⟩
    · exact hsame
  | part e => exact ⟨[e], rfl⟩

theorem run_parts (es : List (ContainerEvent V)) (s : ContainerState V) :
    ∃ es', (run (step g) es s).parts = run (Parts.step g) es' s.parts :=
  run_project parts step_parts es s

/-! ### The calls of `close` -/

theorem Sound.closed_of_closes (hs : s.Sound) {call : CloseCall} {calls : List CloseCall}
    (hcloses : s.closes = call :: calls) : s.closed = true ∧ s.CloserOk call := by
  have hclosed : s.closed = true := by
    by_contra hopen
    have hnil := (hs.opened (by simpa using hopen)).1
    rw [hcloses] at hnil
    cases hnil
  obtain ⟨call', calls', h, hok⟩ := hs.closer hclosed
  rw [(List.cons.inj (hcloses.symm.trans h)).1]
  exact ⟨hclosed, hok⟩

/-- A call that is at it is the first of the calls. -/
theorem Sound.head_of_active (hs : s.Sound) {i : ℕ} {call : CloseCall}
    (hi : s.closes[i]? = some call) (hactive : call.active = true) :
    i = 0 ∧ s.closed = true ∧ s.CloserOk call ∧ ∃ calls, s.closes = call :: calls := by
  rcases hcloses : s.closes with _ | ⟨head, calls⟩
  · rw [hcloses] at hi
    cases hi
  · rw [hcloses] at hi
    cases i with
    | zero =>
      rw [List.getElem?_cons_zero, Option.some.injEq] at hi
      subst hi
      obtain ⟨hclosed, hok⟩ := hs.closed_of_closes hcloses
      exact ⟨rfl, hclosed, hok, calls, rfl⟩
    | succ j =>
      rw [List.getElem?_cons_succ] at hi
      have hnot := hs.others head calls hcloses call (List.mem_of_getElem? hi)
      rw [hactive] at hnot
      cases hnot

theorem eq_of_afterStop {raised : Option Exc} {rest rest' : List Component}
    (h : afterStop raised rest = .ok rest') : rest = rest' := by
  unfold afterStop at h
  split at h
  · split_ifs at h
    exact Except.ok.inj h
  · exact Except.ok.inj h

/-- The first call takes a step: what is asked of the state where it stands next. -/
theorem Sound.advanceHead (hs : s.Sound) {call call' : CloseCall} {calls : List CloseCall}
    (hcloses : s.closes = call :: calls) (hactive : call.active = true) {s' : ContainerState V}
    (hcloses' : s'.closes = call' :: calls) (hclosed' : s'.closed = true)
    (hok : s'.CloserOk call') (hreturned : s.closeComplete = true → s'.closeComplete = true)
    (hfinalizing : s'.finalizing = s.finalizing)
    (hfired : s.finalizerAlive = false → s'.finalizerAlive = false)
    (hstopped : ∀ rest ∈ s.finalizing, StoppedBut s.parts rest ∨ s.escaped ≠ [] →
      StoppedBut s'.parts rest ∨ s'.escaped ≠ [])
    (hcounted : s'.teardowns + s.tornDown = s.teardowns + s'.tornDown)
    (hdropped : s'.dropped = s.dropped) : s'.Sound where
  opened h := by rw [hclosed'] at h; cases h
  closer _ := ⟨call', calls, hcloses', hok⟩
  others call₀ calls₀ h call'' hmem := by
    obtain ⟨rfl, rfl⟩ := List.cons.inj (hcloses'.symm.trans h)
    exact hs.others call calls hcloses call'' hmem
  returned raised h := by
    rw [hcloses'] at h
    rcases List.mem_cons.mp h with rfl | hmem
    · exact hok.1
    · exact hreturned (hs.returned raised (hcloses ▸ List.mem_cons_of_mem call hmem))
  finalizer_alive _ h := by rw [hclosed'] at h; cases h
  fired h := by
    rw [hfinalizing] at h
    exact hfired (hs.fired h)
  finalizing rest h := by
    rw [hfinalizing] at h
    exact hstopped rest h (hs.finalizing rest h)
  counted := by
    have hcount := hs.counted
    rw [hfinalizing]
    omega
  dropped h := by
    have hall := (hs.dropped (hdropped ▸ h)).1
    rw [hcloses, List.all_cons, Bool.and_eq_true] at hall
    cases call <;> simp [CloseCall.isReturned, CloseCall.active] at hall hactive

/-- A later call of `close` comes in. -/
theorem Sound.later (hs : s.Sound) (hclosed : s.closed = true) (hdropped : ¬ s.dropped = true)
    {call' : CloseCall} (hactive : call'.active = false)
    (hreturned : ∀ raised, call' = .returned true raised → s.closeComplete = true) :
    ({ s with closes := s.closes ++ [call'] } : ContainerState V).Sound := by
  obtain ⟨call, calls, hcloses, hok⟩ := hs.closer hclosed
  have hnew : s.closes ++ [call'] = call :: (calls ++ [call']) := by rw [hcloses]; rfl
  refine
    { opened := fun h => absurd (hclosed.symm.trans h) (by decide)
      closer := fun _ => ⟨call, _, hnew, ?_⟩
      others := fun call₀ calls₀ h call'' hmem => ?_
      returned := fun raised h => ?_
      finalizer_alive := hs.finalizer_alive
      fired := hs.fired
      finalizing := hs.finalizing
      counted := ?_
      dropped := fun h => absurd h hdropped }
  · cases call <;> exact hok
  · obtain ⟨-, rfl⟩ := List.cons.inj (hnew.symm.trans h)
    rcases List.mem_append.mp hmem with hold | hlast
    · exact hs.others call calls hcloses call'' hold
    · rw [List.mem_singleton.mp hlast]
      exact hactive
  · rcases List.mem_append.mp h with hold | hlast
    · exact hs.returned raised hold
    · exact hreturned raised (List.mem_singleton.mp hlast).symm
  · have hcount := hs.counted
    simp only [tornDown, hcloses, List.head?_cons] at hcount
    simp only [tornDown, hcloses, List.cons_append, List.head?_cons]
    exact hcount

theorem Sound.close (hs : s.Sound) : s.close.Sound := by
  unfold ContainerState.close
  split_ifs with hdropped hclosed hcomplete
  · exact hs
  · exact hs.later hclosed hdropped rfl fun _ _ => hcomplete
  · exact hs.later hclosed hdropped rfl fun _ h => by cases h
  · have hopen : s.closed = false := by simpa using hclosed
    obtain ⟨hnil, hfinalizer, hcomplete⟩ := hs.opened hopen
    refine
      { opened := fun h => by cases h
        closer := fun _ => ⟨.detaching s.finalizer, [], by simp [hnil], hcomplete, hfinalizer⟩
        others := fun call calls h call' hmem => ?_
        returned := fun raised h => ?_
        finalizer_alive := fun _ h => by cases h
        fired := hs.fired
        finalizing := hs.finalizing
        counted := ?_
        dropped := fun h => absurd h hdropped }
    · simp only [hnil, List.nil_append] at h
      obtain ⟨-, rfl⟩ := List.cons.inj h
      cases hmem
    · simp [hnil] at h
    · have hcount := hs.counted
      simp only [tornDown, hnil, List.head?_nil] at hcount
      simp only [tornDown, hnil, List.nil_append, List.head?_cons]
      exact hcount

/-- A waiting call takes up again. -/
theorem Sound.awake (hs : s.Sound) {i : ℕ} (hi : s.closes[i]? = some .waiting) :
    (s.setClose i (.returned s.closeComplete none)).Sound := by
  rcases hcloses : s.closes with _ | ⟨call, calls⟩
  · rw [hcloses] at hi
    cases hi
  obtain ⟨hclosed, hok⟩ := hs.closed_of_closes hcloses
  rw [hcloses] at hi
  obtain ⟨j, rfl⟩ : ∃ j, i = j + 1 := by
    cases i with
    | zero =>
      rw [List.getElem?_cons_zero] at hi
      rw [Option.some.inj hi] at hok
      exact hok.elim
    | succ j => exact ⟨j, rfl⟩
  have hnew : (s.setClose (j + 1) (.returned s.closeComplete none)).closes =
      call :: calls.set j (.returned s.closeComplete none) := by rw [setClose, hcloses]; rfl
  refine
    { opened := fun h => absurd (hclosed.symm.trans h) (by decide)
      closer := fun _ => ⟨call, _, hnew, ?_⟩
      others := fun call₀ calls₀ h call' hmem => ?_
      returned := fun raised h => ?_
      finalizer_alive := hs.finalizer_alive
      fired := hs.fired
      finalizing := hs.finalizing
      counted := ?_
      dropped := fun h => ?_ }
  · cases call <;> exact hok
  · obtain ⟨-, rfl⟩ := List.cons.inj (hnew.symm.trans h)
    rcases List.mem_or_eq_of_mem_set hmem with hold | rfl
    · exact hs.others call calls hcloses call' hold
    · rfl
  · rw [hnew] at h
    rcases List.mem_cons.mp h with rfl | hmem
    · exact hok.1
    · rcases List.mem_or_eq_of_mem_set hmem with hold | hset
      · exact hs.returned raised (hcloses ▸ List.mem_cons_of_mem call hold)
      · exact (CloseCall.returned.inj hset).1.symm
  · have hcount := hs.counted
    rw [tornDown, hcloses] at hcount
    rw [tornDown, hnew]
    exact hcount
  · have hall := (hs.dropped h).1
    rw [hcloses, List.all_eq_true] at hall
    have hwait := hall .waiting (List.mem_cons_of_mem call (List.mem_of_getElem? hi))
    cases hwait

theorem Sound.advance (hs : s.Sound) (i : ℕ) (raised : Option Exc) :
    (s.advance g i raised).Sound := by
  unfold ContainerState.advance
  split
  · next finalizer hi =>
    obtain ⟨rfl, hclosed, ⟨hcomplete, hfinalizer⟩, calls, hcloses⟩ := hs.head_of_active hi rfl
    rw [if_neg (by simp [hcomplete])]
    refine hs.advanceHead hcloses rfl
      (show _ = CloseCall.tearing teardownOrder :: calls by rw [setClose, hcloses]; rfl) hclosed
      ⟨hcomplete, by simp [hfinalizer], fun c => .inl ?_⟩
      id rfl (fun h => by simp [h]) (fun _ _ h => h) ?_ rfl
    · cases c <;> simp [teardownOrder]
    · simp [tornDown, setClose, hcloses]
  · next hi =>
    obtain ⟨rfl, hclosed, ⟨hcomplete, hfinalizer, hstopped⟩, calls, hcloses⟩ :=
      hs.head_of_active hi rfl
    refine hs.advanceHead hcloses rfl
      (show _ = CloseCall.completing none :: calls by rw [setClose, hcloses]; rfl) hclosed
      ⟨hcomplete, hfinalizer, .inl hstopped⟩ id rfl
      id (fun _ _ h => h) ?_ rfl
    simp [tornDown, setClose, hcloses]
  · next c rest hi =>
    obtain ⟨rfl, hclosed, ⟨hcomplete, hfinalizer, hstopped⟩, calls, hcloses⟩ :=
      hs.head_of_active hi rfl
    split_ifs with hbusy
    · exact hs
    have hfree : s.parts.isBusy c = false := by simpa using hbusy
    split
    · next rest' hafter =>
      obtain rfl := eq_of_afterStop hafter
      refine hs.advanceHead hcloses rfl
        (show _ = CloseCall.tearing rest :: calls by rw [setClose, hcloses]; rfl) hclosed
        ⟨hcomplete, hfinalizer, hstopped.stop true hfree⟩
        id rfl id (fun _ _ h => h.imp (fun h => h.run _) id) ?_ rfl
      simp [tornDown, setClose, hcloses]
    · next exc hafter =>
      refine hs.advanceHead hcloses rfl
        (show _ = CloseCall.completing (some exc) :: calls by rw [setClose, hcloses]; rfl)
        hclosed ⟨hcomplete, hfinalizer, .inr ⟨rfl, by simp⟩⟩
        id rfl id (fun _ _ _ => .inr (by simp)) ?_ rfl
      simp [tornDown, setClose, hcloses]
  · next escaped hi =>
    obtain ⟨rfl, hclosed, ⟨-, hfinalizer, hstopped⟩, calls, hcloses⟩ := hs.head_of_active hi rfl
    refine hs.advanceHead hcloses rfl
      (show _ = CloseCall.returned true escaped :: calls by rw [setClose, hcloses]; rfl) hclosed
      ⟨rfl, hfinalizer, hstopped.imp id fun h => h.2⟩ (fun _ => rfl) rfl id (fun _ _ h => h) ?_
      rfl
    simp [tornDown, setClose, hcloses]
  · next hi => exact hs.awake hi
  · exact hs

/-! ### The finalizer, and the other callers -/

theorem Sound.fire (hs : s.Sound) : s.fire.Sound := by
  unfold ContainerState.fire
  split_ifs with halive
  · have hnone : s.finalizing.isSome = false := by
      by_contra hne
      rw [hs.fired ((Bool.not_eq_false _).mp hne)] at halive
      cases halive
    exact
      { hs with
        closer := fun h => by
          obtain ⟨call, calls, hcloses, hok⟩ := hs.closer h
          refine ⟨call, calls, hcloses, ?_⟩
          cases call with
          | detaching finalizer => exact hok
          | waiting => exact hok
          | _ => exact absurd (halive.symm.trans hok.2.1) (by decide)
        finalizer_alive := fun _ _ => rfl
        fired := fun _ => rfl
        finalizing := fun rest h => by
          obtain rfl := Option.some.inj h
          exact .inl fun c => .inl (by cases c <;> simp [teardownOrder])
        counted := by
          have hcount := hs.counted
          rw [hnone, if_neg Bool.false_ne_true] at hcount
          show s.teardowns + 1 = s.tornDown + 1
          omega
        dropped := fun h => ⟨(hs.dropped h).1, fun _ => rfl⟩ }
  · exact hs

theorem Sound.drop (hs : s.Sound) : s.drop.Sound := by
  unfold ContainerState.drop
  split_ifs with hdropped hidle
  · exact hs
  · have hall : s.closes.all CloseCall.isReturned = true := hidle.1
    by_cases halive : s.finalizerAlive = true
    · have hfire := hs.fire
      unfold ContainerState.fire at hfire ⊢
      rw [if_pos halive] at hfire
      rw [if_pos halive]
      exact { hfire with dropped := fun _ => ⟨hall, fun _ => rfl⟩ }
    · unfold ContainerState.fire
      rw [if_neg halive]
      exact
        { hs with
          dropped := fun _ => ⟨hall, hs.finalizer_alive (by simpa using halive)⟩ }
  · exact hs

/-- The parts move on, and nothing of the container does. -/
theorem Sound.ofParts (hs : s.Sound) (es : List (PartEvent V)) (starts : List StartCall) :
    ({ s with parts := run (Parts.step g) es s.parts, starts } : ContainerState V).Sound :=
  { hs with
    closer := fun h => by
      obtain ⟨call, calls, hcloses, hok⟩ := hs.closer h
      refine ⟨call, calls, hcloses, ?_⟩
      cases call with
      | tearing rest => exact ⟨hok.1, hok.2.1, hok.2.2.run es⟩
      | completing escaped => exact ⟨hok.1, hok.2.1, hok.2.2.imp (fun h => h.run es) id⟩
      | returned complete raised => exact ⟨hok.1, hok.2.1, hok.2.2.imp (fun h => h.run es) id⟩
      | _ => exact hok
    finalizing := fun rest h => (hs.finalizing rest h).imp (fun h => h.run es) id }

theorem Sound.finalize (hs : s.Sound) (raised : Option Exc) : (s.finalize g raised).Sound := by
  unfold ContainerState.finalize
  split
  · next c rest hfinalizing =>
    split_ifs with hbusy
    · exact hs
    have hfree : s.parts.isBusy c = false := by simpa using hbusy
    have hsome : s.finalizing.isSome := by rw [hfinalizing]; rfl
    have hparts := hs.ofParts (g := g) (Parts.stopEvents false c) s.starts
    have hcount := hs.counted
    rw [if_pos hsome] at hcount
    split
    · next rest' hafter =>
      obtain rfl := eq_of_afterStop hafter
      exact
        { hparts with
          finalizer_alive := fun _ _ => rfl
          fired := fun _ => hs.fired hsome
          finalizing := fun rest₀ h => by
            obtain rfl := Option.some.inj h
            exact (hs.finalizing _ hfinalizing).imp (fun h => h.stop false hfree) id
          counted := hcount
          dropped := fun h => ⟨(hs.dropped h).1, fun _ => rfl⟩ }
    · next exc hafter =>
      have hclosers : ∀ call, ContainerState.CloserOk
          { s with parts := run (Parts.step g) (Parts.stopEvents false c) s.parts } call →
          ContainerState.CloserOk
            { s with
              parts := run (Parts.step g) (Parts.stopEvents false c) s.parts
              finalizing := some []
              escaped := s.escaped ++ [exc] } call := by
        intro call hok
        cases call with
        | completing escaped =>
          exact ⟨hok.1, hok.2.1, hok.2.2.imp id fun h => ⟨h.1, by simp⟩⟩
        | returned complete raised => exact ⟨hok.1, hok.2.1, .inr (by simp)⟩
        | _ => exact hok
      exact
        { hparts with
          closer := fun h => by
            obtain ⟨call, calls, hcloses, hok⟩ := hparts.closer h
            exact ⟨call, calls, hcloses, hclosers call hok⟩
          finalizer_alive := fun _ _ => rfl
          fired := fun _ => hs.fired hsome
          finalizing := fun _ _ => .inr (by simp)
          counted := hcount
          dropped := fun h => ⟨(hs.dropped h).1, fun _ => rfl⟩ }
  · exact hs

theorem Sound.step (e : ContainerEvent V) (s : ContainerState V) (hs : s.Sound) :
    (step g e s).Sound := by
  cases e with
  | close => exact hs.close
  | advance i raised => exact hs.advance i raised
  | startBackgroundSync =>
    simp only [ContainerState.step, ContainerState.startBackgroundSync]
    split_ifs
    · exact hs
    · exact { hs with }
    · exact { hs with }
  | startWorker i failure =>
    simp only [ContainerState.step, ContainerState.startWorker]
    split
    · split
      · exact { hs with }
      · exact hs.ofParts (g := g) [.syncWorker (.start failure)] _
    · exact hs
  | drop => exact hs.drop
  | exit => exact hs.fire
  | finalize raised => exact hs.finalize raised
  | part e => exact hs.ofParts (g := g) [e] s.starts

/-! ## Runs in which the interpreter does not exit -/

/-- A container the finalizer tears down was dropped unclosed. -/
def DroppedOpen (s : ContainerState V) : Prop :=
  s.finalizing.isSome → s.dropped = true ∧ s.closed = false

theorem DroppedOpen.step (hs : s.Sound) (h : s.DroppedOpen) {e : ContainerEvent V}
    (he : e ≠ .exit) : (step g e s).DroppedOpen := by
  cases e with
  | close =>
    intro hsome
    simp only [ContainerState.step, ContainerState.close] at hsome ⊢
    split_ifs at hsome ⊢ with hdropped
    · exact h hsome
    · exact absurd (h hsome).1 hdropped
    · exact absurd (h hsome).1 hdropped
    · exact absurd (h hsome).1 hdropped
  | advance i raised =>
    simp only [ContainerState.step, ContainerState.advance]
    split
    · split_ifs <;> exact h
    · exact h
    · split_ifs
      · exact h
      · split <;> exact h
    · exact h
    · exact h
    · exact h
  | startBackgroundSync =>
    simp only [ContainerState.step, ContainerState.startBackgroundSync]
    split_ifs <;> exact h
  | startWorker i failure =>
    simp only [ContainerState.step, ContainerState.startWorker]
    split
    · split <;> exact h
    · exact h
  | drop =>
    simp only [ContainerState.step, ContainerState.drop, ContainerState.fire]
    split_ifs with hdropped hidle halive
    · exact h
    · intro _
      refine ⟨rfl, ?_⟩
      by_contra hclosed
      -- Every call has returned, and the first of them has detached the finalizer.
      obtain ⟨call, calls, hcloses, hok⟩ := hs.closer ((Bool.not_eq_false _).mp hclosed)
      have hall := hidle.1
      rw [hcloses, List.all_cons, Bool.and_eq_true] at hall
      cases call with
      | returned complete raised =>
        have hdetached : s.finalizerAlive = false := hok.2.1
        exact absurd (hdetached.symm.trans halive) (by decide)
      | _ => exact absurd hall.1 (by simp [CloseCall.isReturned])
    · intro hsome
      exact absurd (h hsome).1 hdropped
    · exact h
  | exit => exact absurd rfl he
  | finalize raised =>
    intro hsome
    have hwas : s.finalizing.isSome := by
      simp only [ContainerState.step, ContainerState.finalize] at hsome
      split at hsome
      · next hfinalizing => rw [hfinalizing]; rfl
      · exact hsome
    obtain ⟨hdropped, hopen⟩ := h hwas
    simp only [ContainerState.step, ContainerState.finalize]
    split
    · split_ifs
      · exact ⟨hdropped, hopen⟩
      · split <;> exact ⟨hdropped, hopen⟩
    · exact ⟨hdropped, hopen⟩
  | part e => exact h

/-- **Where the interpreter does not exit, a container is torn down once at most.** -/
theorem Sound.teardowns_le (hs : s.Sound) (h : s.DroppedOpen) : s.teardowns ≤ 1 := by
  have hcount := hs.counted
  by_cases hsome : s.finalizing.isSome
  · rw [if_pos hsome, tornDown, (hs.opened (h hsome).2).1] at hcount
    exact hcount.le
  · rw [if_neg hsome, tornDown] at hcount
    rw [hcount]
    split <;> decide

/-! ## What a closed container is -/

/-- What holds of a container in any state. -/
structure Tidy (s : ContainerState V) : Prop where
  /-- One call closes: the first. -/
  one_closer : ∀ i call, s.closes[i]? = some call → call.active = true → i = 0
  /-- A call that returns before its wait times out leaves a complete teardown. -/
  returned : ∀ raised, .returned true raised ∈ s.closes → s.closeComplete = true
  teardowns_le : s.teardowns ≤ 2
  /-- A container that is dropped has been torn down, or its finalizer is at it. -/
  dropped : s.dropped = true → s.closeComplete = true ∨ s.finalizing.isSome
  /-- A teardown that is over, of which nothing escaped, leaves every component stopped. -/
  stopped : s.closeComplete = true ∨ s.finalizing = some [] → s.escaped = [] →
    ∀ c, s.parts.isStopped c = true

theorem Sound.tidy (hs : s.Sound) : s.Tidy where
  one_closer i call hi hactive := (hs.head_of_active hi hactive).1
  returned := hs.returned
  teardowns_le := by
    have hcount := hs.counted
    have hone : s.tornDown ≤ 1 := by
      unfold tornDown
      split <;> decide
    split_ifs at hcount <;> omega
  dropped h := by
    obtain ⟨hall, hopen⟩ := hs.dropped h
    by_cases hclosed : s.closed = true
    · obtain ⟨call, calls, hcloses, hok⟩ := hs.closer hclosed
      rw [hcloses, List.all_cons, Bool.and_eq_true] at hall
      cases call with
      | returned complete raised => exact .inl hok.1
      | _ => exact absurd hall.1 (by simp [CloseCall.isReturned])
    · exact .inr (hopen (by simpa using hclosed))
  stopped h hnone c := by
    have hall : StoppedBut s.parts [] := by
      rcases h with hcomplete | hfinalized
      · have hclosed : s.closed = true := by
          by_contra hopen
          rw [(hs.opened (by simpa using hopen)).2.2] at hcomplete
          cases hcomplete
        obtain ⟨call, calls, -, hok⟩ := hs.closer hclosed
        cases call with
        | returned complete raised => exact hok.2.2.resolve_right fun h => h hnone
        | waiting => exact hok.elim
        | _ => exact absurd (hok.1.symm.trans hcomplete) (by decide)
      · exact (hs.finalizing [] hfinalized).resolve_right fun h => h hnone
    exact (hall c).resolve_left List.not_mem_nil

end

/-- **Closing is orderly and terminal.** In every run of callers that close a
container, use it and drop it, and of the threads of its parts: one call
closes and the others wait for it; the parts are torn down once, and once
more only where the interpreter exits; a container that is dropped is torn
down in any case. Once a teardown is over the parts are retired, whatever
comes, unless a stop raised outside `Exception`. -/
theorem tidy_run (g : Wiring) {parts : Parts V} (hparts : parts.Sound)
    (es es' : List (ContainerEvent V)) :
    let s := run (step g) es { parts }
    let s' := run (step g) es' s
    s.Tidy ∧ (.exit ∉ es → s.teardowns ≤ 1) ∧
      (s.closeComplete = true ∨ s.finalizing = some [] → s.escaped = [] →
        s.parts.Retired s'.parts) := by
  intro s s'
  have hs : s.Sound := run_of_kept Sound.step (sound_init parts) es
  refine ⟨hs.tidy, fun hexit => ?_, fun hover hnone => ?_⟩
  · have hkeep : ∀ e (s : ContainerState V), e ≠ .exit → s.Sound ∧ s.DroppedOpen →
        (step g e s).Sound ∧ (step g e s).DroppedOpen :=
      fun e s he hs => ⟨hs.1.step e s, hs.2.step hs.1 he⟩
    have hdropped : s.Sound ∧ s.DroppedOpen :=
      run_invariant hkeep (along_of_forall (fun e he _ => ne_of_mem_of_not_mem he hexit) _)
        ⟨sound_init parts, fun h => by cases h⟩
    exact hdropped.1.teardowns_le hdropped.2
  · obtain ⟨before, hbefore⟩ := run_parts (g := g) es { parts }
    obtain ⟨after, hafter⟩ := run_parts (g := g) es' s
    have hsound : s.parts.Sound := by
      show (run (step g) es { parts }).parts.Sound
      rw [hbefore]
      exact hparts.run before
    rw [show s'.parts = _ from hafter]
    exact hsound.retired (hs.tidy.stopped hover hnone) after

/-- The parts of a new container. -/
def newParts : Parts Unit where
  syncWorker := some BackgroundSyncWorker.init
  validationExecutor := some (.new 2 2)
  eventBus := some (QueueEventBus.init { startWorker := false })
  schemaStorage := some (LFUCache.unstarted 4 300)

theorem newParts_sound : newParts.Sound where
  syncWorker s hs := by
    rw [← Option.some.inj hs]
    exact WorkerState.sound_init _
  validationExecutor s hs := by
    rw [← Option.some.inj hs]
    exact BoundedValidationExecutor.books_new 2 2

/-- A caller is about to start the sync worker when two others close. -/
def racingStart : List (ContainerEvent Unit) :=
  [.startBackgroundSync, .close, .close, .advance 0 none, .advance 0 none, .startWorker 0 none,
    .advance 0 none, .advance 0 none, .advance 0 none, .advance 0 none, .advance 0 none,
    .advance 1 none]

theorem tidy_run_racingStart : newParts.Sound ∧
    (run (step {}) racingStart { parts := newParts }).Tidy :=
  ⟨newParts_sound, (tidy_run {} newParts_sound racingStart []).1⟩

/-- The start comes too late, and both closes see the teardown over. -/
example : (run (step {}) racingStart { parts := newParts }).closes =
    [.returned true none, .returned true none] := rfl

end ContainerState

end Congine
