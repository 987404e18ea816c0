import Congine.Infrastructure.ExecutorBooks
/-!
# The backlog of the thread pool

The bound on outstanding work is on permits, and a permit comes back when
its future is done. An async wait that is given up cancels a future that was
not started: the permit comes back while the item is in the pool's queue
still, and the next call queues behind it. Where no such future is
cancelled, every item of the pool holds a permit and the pool holds no more
than the capacity.
-/

namespace Congine

variable {V : Type}

namespace BoundedValidationExecutor

variable {convert : Exc → Option Exc} {s : BoundedValidationExecutor V} {i : ℕ} {c c' : Call V}
variable {e : Event V}

/-- The work items the thread pool holds, queued or executing. -/
def poolItems (s : BoundedValidationExecutor V) : ℕ := s.queue.length + s.busy

/-- The step gives up an async wait whose function has not begun. -/
def cancelsQueued : Event V → BoundedValidationExecutor V → Bool
  | .timeoutAsync i, s =>
      s.calls[i]?.any fun c =>
        c.stage = .waiting && c.async && c.elapsed s.now && c.future = some .pending
  | .cancelCaller i, s =>
      s.calls[i]?.any fun c => c.stage = .waiting && c.async && c.future = some .pending
  | _, _ => false

/-! ## The queue -/

/-- What a step does to the queue. -/
theorem step_queue (convert : Exc → Option Exc) (e : Event V) (s : BoundedValidationExecutor V) :
    (step convert e s).queue = s.queue ∨
      (∃ i c, s.calls[i]? = some c ∧ c.stage = .counted ∧
        (step convert e s).queue = s.queue ++ [i] ∧
        (step convert e s).calls =
          s.calls.set i { c with stage := .submitted, future := some .pending }) ∨
      e = .take ∧ ∃ i, s.queue = i :: (step convert e s).queue := by
  have hsem : ∀ t : BoundedValidationExecutor V, t.semRelease.queue = t.queue := by
    intro t
    unfold semRelease
    split <;> rfl
  cases e with
  | call async timeoutMs =>
    left
    simp only [step, enter]
    split_ifs <;> rfl
  | proceed =>
    simp only [step]
    split
    · exact .inl rfl
    · next i hlock =>
      rcases hi : s.calls[i]? with _ | c
      · rw [move, hi]
        exact .inl rfl
      · simp only [move, hi, if_true]
        unfold proceed
        split
        · exact .inl rfl
        · next hstage =>
          split
          · exact .inl rfl
          · exact .inr (.inl ⟨i, c, hi, hstage, rfl, rfl⟩)
        · exact .inl (hsem _)
        · exact .inl rfl
        · exact .inl rfl
  | register i => exact .inl (move_of (P := fun t => t.queue = s.queue) rfl fun c _ _ => rfl)
  | take =>
    rcases hqueue : s.queue with _ | ⟨i, queue⟩
    · left
      rw [step, take, hqueue]
      exact hqueue
    · simp only [step, take, hqueue]
      split
      · split
        · exact .inl hqueue
        · split
          · exact .inr (.inr ⟨trivial, i, rfl⟩)
          · exact .inr (.inr ⟨trivial, i, rfl⟩)
      · exact .inl hqueue
  | finish i result => exact .inl (move_of (P := fun t => t.queue = s.queue) rfl fun c _ _ => rfl)
  | countOut i => exact .inl (move_of (P := fun t => t.queue = s.queue) rfl fun c _ _ => rfl)
  | release i => exact .inl (move_of (P := fun t => t.queue = s.queue) rfl fun c _ _ => hsem _)
  | timeout i => exact .inl (move_of (P := fun t => t.queue = s.queue) rfl fun c _ _ => rfl)
  | timeoutAsync i => exact .inl (move_of (P := fun t => t.queue = s.queue) rfl fun c _ _ => rfl)
  | cancelCaller i => exact .inl (move_of (P := fun t => t.queue = s.queue) rfl fun c _ _ => rfl)
  | deliver i => exact .inl (move_of (P := fun t => t.queue = s.queue) rfl fun c _ _ => rfl)
  | shutdown =>
    left
    simp only [step]
    split_ifs <;> rfl
  | closePool => exact .inl rfl
  | tick elapsed =>
    left
    simp only [step]
    split_ifs <;> rfl

/-! ## Queued items hold permits -/

/-- Each number in the queue is there once and is of a future not started. -/
structure Backlog (s : BoundedValidationExecutor V) : Prop where
  nodup : s.queue.Nodup
  pending : ∀ i ∈ s.queue, ∃ c, s.calls[i]? = some c ∧ c.future = some .pending

theorem addDoneCallback_future (c : Call V) : c.addDoneCallback.future = c.future := by
  unfold Call.addDoneCallback
  split <;> rfl

/-- **A future that was not started stays so**, but for a worker that takes it. -/
theorem Change.pending (h : Change convert s i e c c') (hi : s.calls[i]? = some c)
    (hpending : c.future = some .pending) (hkeep : cancelsQueued e s = false) :
    c'.future = some .pending ∨ s.queue = i :: (step convert e s).queue := by
  cases h
  case submitted hlock hstage hqueue => exact .inl rfl
  case registered hstage => exact .inl ((addDoneCallback_future c).trans hpending)
  case started hqueue hpending' => exact .inr hqueue
  case finished result hrunning => simp [hpending] at hrunning
  case timedOutAsync hstage hasync helapsed =>
    simp [cancelsQueued, hi, hstage, hasync, helapsed, hpending] at hkeep
  case callerCancelled hstage hasync => simp [cancelsQueued, hi, hstage, hasync, hpending] at hkeep
  all_goals exact .inl hpending

theorem Backlog.of_step (hbooks : Books s) (h : Backlog s) (hkeep : cancelsQueued e s = false) :
    Backlog (step convert e s) := by
  -- What was queued and still is waits still.
  have hstill : ∀ j ∈ s.queue, s.queue ≠ j :: (step convert e s).queue →
      ∃ c, (step convert e s).calls[j]? = some c ∧ c.future = some .pending := by
    intro j hj hne
    obtain ⟨c, hc, hpending⟩ := h.pending j hj
    obtain ⟨c', hc', rfl | hchange⟩ := step_get convert e hc
    · exact ⟨c', hc', hpending⟩
    · exact ⟨c', hc', (hchange.pending hc hpending hkeep).resolve_right hne⟩
  rcases step_queue convert e s with hsame | ⟨i, c, hi, hstage, hqueue, hcalls⟩ | ⟨-, i, hqueue⟩
  · rw [hsame] at hstill
    refine ⟨hsame ▸ h.nodup, fun j hj => hstill j (hsame ▸ hj) fun heq => ?_⟩
    have hlength := congrArg List.length heq
    rw [List.length_cons] at hlength
    omega
  · have hlt : i < s.calls.length := (List.getElem?_eq_some_iff.mp hi).1
    have hnew : i ∉ s.queue := by
      intro hmem
      obtain ⟨c', hc', hpending⟩ := h.pending i hmem
      obtain rfl := Option.some.inj (hi.symm.trans hc')
      have hnone := (hbooks.sound_of hi).future_iff.mpr (by rw [hstage]; rfl)
      rw [hnone] at hpending
      cases hpending
    constructor
    · rw [hqueue]
      exact List.nodup_append.mpr ⟨h.nodup, List.nodup_singleton i,
        fun j hj k hk hjk => hnew (by rw [← List.mem_singleton.mp hk, ← hjk]; exact hj)⟩
    · intro j hj
      rw [hqueue] at hj hstill
      rcases List.mem_append.mp hj with hj | hj
      · refine hstill j hj fun heq => ?_
        have hlength := congrArg List.length heq
        rw [List.length_cons, List.length_append] at hlength
        omega
      · rw [List.mem_singleton.mp hj, hcalls, List.getElem?_set_self hlt]
        exact ⟨_, rfl, rfl⟩
  · have hnodup := h.nodup
    rw [hqueue] at hnodup
    obtain ⟨hnotMem, hrest⟩ := List.nodup_cons.mp hnodup
    refine ⟨hrest, fun j hj => hstill j ?_ fun heq => ?_⟩
    · rw [hqueue]
      exact List.mem_cons_of_mem i hj
    · rw [hqueue] at heq
      exact hnotMem ((List.cons.inj heq).1 ▸ hj)

/-- **Every item of the pool holds a permit.** -/
theorem poolItems_le_capacity (hbooks : Books s) (h : Backlog s) : s.poolItems ≤ s.capacity := by
  have hqueue : s.queue.length ≤ s.calls.countP fun c => c.future = some .pending :=
    length_le_countP h.nodup fun i hi => by
      obtain ⟨c, hc, hpending⟩ := h.pending i hi
      exact ⟨c, hc, by simpa using hpending⟩
  have hheld : (s.calls.countP fun c => c.future = some .pending) + s.busy ≤
      (s.calls.map Call.held).sum := by
    refine countP_add_countP_le fun c hc => ?_
    have hsound := hbooks.sound c hc
    by_cases hactive : c.future = some .pending ∨ c.future = some .running
    · have hdone : c.done = false := by
        rcases hactive with h | h <;> simp [Call.done, h, FutureState.done]
      have hruns := hsound.runs
      rw [hdone] at hruns
      simp only [Bool.false_eq_true, and_false, if_false] at hruns
      have hu : c.stage.unsubmitted = false := by
        rw [← Bool.not_eq_true, ← hsound.future_iff]
        rcases hactive with h | h <;> simp [h]
      rw [Call.held_of_submitted hu]
      rcases hactive with h | h <;> simp [h] <;> omega
    · rw [not_or] at hactive
      simp [hactive.1, hactive.2]
  have hsem := hbooks.sem_add
  unfold poolItems
  omega

/-- **The pool holds no more than the capacity** in any state of a run that
gives up no async wait whose function has not begun. -/
theorem poolItems_bounded (convert : Exc → Option Exc) (maxWorkers maxPending : ℕ)
    (es : List (Event V))
    (h : Along (step convert) (fun e s => cancelsQueued e s = false) es
      (new maxWorkers maxPending)) :
    (run (step convert) es (new maxWorkers maxPending)).poolItems ≤ maxWorkers + maxPending := by
  have hkept : ∀ e (s : BoundedValidationExecutor V), cancelsQueued e s = false →
      Books s ∧ Backlog s → Books (step convert e s) ∧ Backlog (step convert e s) :=
    fun e s hkeep ⟨hbooks, hbacklog⟩ =>
      ⟨hbooks.of_step convert e, hbacklog.of_step hbooks hkeep⟩
  have hnew : Backlog (new maxWorkers maxPending : BoundedValidationExecutor V) :=
    ⟨List.nodup_nil, fun i hi => by cases hi⟩
  obtain ⟨hbooks, hbacklog⟩ := run_invariant hkept h ⟨books_new maxWorkers maxPending, hnew⟩
  rw [← run_capacity (V := V) convert es maxWorkers maxPending]
  exact poolItems_le_capacity hbooks hbacklog

/-- One worker and one slot: the worker is held, an async call times out in
the queue and gives its permit back, and another call takes it. -/
def staleItem : List (Event ℕ) :=
  submission 0 false 10000 ++ [.take] ++ submission 1 true 10 ++
    [.tick 1, .timeoutAsync 1, .countOut 1, .release 1] ++ submission 2 true 10

/-- **The pool holds three items where the capacity is two.** -/
theorem staleItem_poolItems :
    (run (step some) staleItem (new 1 1)).poolItems = 3 ∧
      (new 1 1 : BoundedValidationExecutor ℕ).capacity = 2 := by
  decide +kernel

/-- Two calls that are waited for. -/
theorem poolItems_bounded_two :
    Along (step some) (fun e s => cancelsQueued e s = false)
        (submission 0 false 10000 ++ [.take] ++ submission 1 true 10 : List (Event ℕ)) (new 1 1) ∧
      (run (step some) (submission 0 false 10000 ++ [.take] ++ submission 1 true 10 :
        List (Event ℕ)) (new 1 1)).poolItems ≤ 1 + 1 := by
  have hquiet : Along (step some) (fun e s => cancelsQueued e s = false)
      (submission 0 false 10000 ++ [.take] ++ submission 1 true 10 : List (Event ℕ)) (new 1 1) :=
    along_of_forall (fun e he s => by
      simp only [submission, List.cons_append, List.nil_append, List.mem_cons,
        List.not_mem_nil, or_false] at he
      rcases he with rfl | rfl | rfl | rfl | rfl | rfl | rfl | rfl | rfl <;> rfl) _
  exact ⟨hquiet, poolItems_bounded some 1 1 _ hquiet⟩

end BoundedValidationExecutor

end Congine
