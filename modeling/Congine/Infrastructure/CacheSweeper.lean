import Congine.Common.Worker
import Congine.Infrastructure.LfuCacheHistory
import Congine.Infrastructure.QueueEventBus
/-!
# The cache under its sweeper

The sweeper is a daemon thread that waits for the interval and then, under
the cache's lock, evicts what has expired. Every operation holds the lock
from its first read to its last write, so the callers' operations and the
sweeps come one after the other, in some order: a history, which the log of
a `ServedCache` keeps.

Unlike the sync worker the sweeper looks again under the lock, so it
evicts nothing once the cache is closed.
-/

namespace Congine

variable {κ V : Type} [DecidableEq κ]

namespace LFUCache

/-- An operation, what it answered, and whether the sweeper called it. -/
structure Served (κ V : Type) where
  op : Op κ V
  answer : Except Exc (Answer V)
  bySweeper : Bool

/-- The cache, and the operations on it so far. -/
structure ServedCache (κ V : Type) where
  cache : LFUCache κ V
  log : List (Served κ V) := []

namespace ServedCache

def serve (bySweeper : Bool) (op : Op κ V) (c : ServedCache κ V) : ServedCache κ V :=
  match perform op c.cache with
  | .ok (answer, cache) => { cache, log := c.log ++ [⟨op, .ok answer, bySweeper⟩] }
  | .error exc => { c with log := c.log ++ [⟨op, .error exc, bySweeper⟩] }

end ServedCache

/-- Where the thread stands in `_sweep_loop`. -/
inductive SweepPhase where
  | waiting
  /-- Past the wait, and about to take the lock. -/
  | locking
  deriving DecidableEq

/-- One turn of `_sweep_loop`, with the instants a sweep reads. -/
def sweepLoop (sweepInterval : ℚ) (stopEvent closed : Bool) (clock : κ → ℚ) :
    SweepPhase → ServedCache κ V → Option SweepPhase × ServedCache κ V
  | .waiting, c => (if stopEvent ∨ timeoutMax < sweepInterval then none else some .locking, c)
  | .locking, c => if closed then (none, c) else (some .waiting, c.serve true (.sweepExpired clock))

def sweeper (sweepInterval : ℚ) : LoopProgram SweepPhase (κ → ℚ) (Op κ V) (ServedCache κ V) where
  entry := .waiting
  turn := sweepLoop sweepInterval
  access := ServedCache.serve false

abbrev Event (κ V : Type) := WorkerEvent (κ → ℚ) (Op κ V) Exc

/-- A cache whose sweeper has not been started. -/
def unstarted (capacity : ℕ) (ttlSeconds : ℤ) : WorkerState SweepPhase (ServedCache κ V) where
  shared := { cache := { capacity, ttlSeconds } }

def step (sweepInterval : ℚ) : Event κ V → WorkerState SweepPhase (ServedCache κ V) →
    WorkerState SweepPhase (ServedCache κ V) :=
  WorkerState.step (sweeper sweepInterval) (.congine .lifecycle)

/-- The operations callers ask for in a run, in order. -/
def asked (es : List (Event κ V)) : List (Op κ V) :=
  es.filterMap fun
    | .access op => some op
    | _ => none

/-! ## The log is a history -/

/-- No operation of the log has raised, each is answered as the abstract
cache answers it, and the cache is what the history leaves. -/
structure Linearized (capacity : ℕ) (ttlSeconds : ℤ) (c : ServedCache κ V) : Prop where
  answered : c.log.map (·.answer) =
    (serveTotal (intend ttlSeconds) (c.log.map (·.op)) { capacity }).1.map .ok
  refines : RefinesFor capacity ttlSeconds c.cache
    (serveTotal (intend ttlSeconds) (c.log.map (·.op)) { capacity }).2

section

variable {capacity : ℕ} {ttlSeconds : ℤ} {sweepInterval : ℚ} {c : ServedCache κ V}
  {s : WorkerState SweepPhase (ServedCache κ V)}

theorem Linearized.serve (hcap : capacity ≠ 0) (h : Linearized capacity ttlSeconds c)
    (bySweeper : Bool) (op : Op κ V) :
    Linearized capacity ttlSeconds (c.serve bySweeper op) := by
  obtain ⟨cache, hperform, hrefines⟩ := h.refines.perform hcap op
  have hserve : c.serve bySweeper op =
      { cache, log := c.log ++ [⟨op, .ok (intend ttlSeconds op
        (serveTotal (intend ttlSeconds) (c.log.map (·.op)) { capacity }).2).1, bySweeper⟩] } := by
    rw [ServedCache.serve, hperform]
  have hops : (c.serve bySweeper op).log.map (·.op) = c.log.map (·.op) ++ [op] := by
    rw [hserve, List.map_append]
    rfl
  refine ⟨?_, ?_⟩
  · rw [hops, serveTotal_concat, hserve, List.map_append, List.map_append, h.answered]
    rfl
  · rw [hops, serveTotal_concat, hserve]
    exact hrefines

theorem Linearized.step (hcap : capacity ≠ 0) (e : Event κ V)
    (s : WorkerState SweepPhase (ServedCache κ V)) (h : Linearized capacity ttlSeconds s.shared) :
    Linearized capacity ttlSeconds (LFUCache.step sweepInterval e s).shared := by
  cases e with
  | turn i clock =>
    rcases hphase : s.phaseOf i with _ | phase
    · simpa only [LFUCache.step, WorkerState.step, WorkerState.turn_of_none hphase]
    · simp only [LFUCache.step, WorkerState.step, WorkerState.turn_eq hphase]
      cases phase with
      | waiting => exact h
      | locking =>
        simp only [sweeper, sweepLoop]
        split_ifs
        · exact h
        · exact Linearized.serve (c := s.shared) hcap h true (.sweepExpired clock)
  | access op => exact h.serve hcap false op
  | _ =>
    rw [LFUCache.step, WorkerState.step_shared _ (by simp) (by simp)]
    exact h

/-! ## Whose operations they are -/

theorem serve_log (bySweeper : Bool) (op : Op κ V) (c : ServedCache κ V) :
    ∃ answer, (c.serve bySweeper op).log = c.log ++ [⟨op, answer, bySweeper⟩] := by
  unfold ServedCache.serve
  split
  · exact ⟨_, rfl⟩
  · exact ⟨_, rfl⟩

/-- What a step or a run adds to the log: what the callers ask for, and what
the sweeper does, which is nothing on a closed cache. -/
def Added (closed : Bool) (asked : List (Op κ V)) (before after : List (Served κ V)) : Prop :=
  ∃ rest, after = before ++ rest ∧ (rest.filter fun x => !x.bySweeper).map (·.op) = asked ∧
    (closed = true → ∀ x ∈ rest, x.bySweeper = false)

omit [DecidableEq κ] in
theorem Added.none (closed : Bool) (log : List (Served κ V)) : Added closed [] log log :=
  ⟨[], by simp, rfl, fun _ x hx => absurd hx List.not_mem_nil⟩

omit [DecidableEq κ] in
theorem Added.trans {closed closed' : Bool} {asked asked' : List (Op κ V)}
    {log log' log'' : List (Served κ V)} (hclosed : closed = true → closed' = true)
    (h : Added closed asked log log') (h' : Added closed' asked' log' log'') :
    Added closed (asked ++ asked') log log'' := by
  obtain ⟨rest, rfl, rfl, hby⟩ := h
  obtain ⟨rest', rfl, rfl, hby'⟩ := h'
  refine ⟨rest ++ rest', List.append_assoc .., ?_, fun hc x hx => ?_⟩
  · rw [List.filter_append, List.map_append]
  · rcases List.mem_append.mp hx with hx | hx
    · exact hby hc x hx
    · exact hby' (hclosed hc) x hx

theorem step_added (e : Event κ V) (s : WorkerState SweepPhase (ServedCache κ V)) :
    Added s.closed (asked [e]) s.shared.log (step sweepInterval e s).shared.log := by
  cases e with
  | turn i clock =>
    rcases hphase : s.phaseOf i with _ | phase
    · simp only [step, WorkerState.step, WorkerState.turn_of_none hphase]
      exact .none _ _
    · simp only [step, WorkerState.step, WorkerState.turn_eq hphase]
      cases phase with
      | waiting => exact .none _ _
      | locking =>
        simp only [sweeper, sweepLoop]
        split_ifs with hclosed
        · exact .none _ _
        · obtain ⟨answer, hlog⟩ := serve_log true (.sweepExpired clock) s.shared
          rw [hlog]
          exact ⟨_, rfl, rfl, fun hc => absurd hc hclosed⟩
  | access op =>
    obtain ⟨answer, hlog⟩ := serve_log false op s.shared
    refine ⟨_, hlog, rfl, fun _ x hx => ?_⟩
    rw [List.mem_singleton.mp hx]
  | _ =>
    rw [step, WorkerState.step_shared _ (by simp) (by simp)]
    exact .none _ _

theorem run_added (sweepInterval : ℚ) (es : List (Event κ V))
    (s : WorkerState SweepPhase (ServedCache κ V)) :
    Added s.closed (asked es) s.shared.log (run (step sweepInterval) es s).shared.log := by
  induction es generalizing s with
  | nil => exact .none _ _
  | cons e es ih =>
    have hasked : asked (e :: es) = asked [e] ++ asked es := by
      rw [asked, ← List.singleton_append, List.filterMap_append]
      rfl
    rw [hasked]
    exact (step_added e s).trans
      (fun hc => ((WorkerState.step_effect e s).of_closed hc).1) (ih _)

/-- **The cache is linearizable under its sweeper, and left alone by it once
stopped.** Whatever the callers, the sweeper and the stops do in whatever
order, the operations they complete make up a sequential history: it holds
what the callers asked for in their order, none of it raised, and each is
answered as the abstract cache answers it. After a stop the history grows
by what callers ask for and by nothing else. -/
theorem linearized_run {capacity : ℕ} (hcap : 0 < capacity) (ttlSeconds : ℤ) (sweepInterval : ℚ)
    (es es' : List (Event κ V)) :
    let s := run (step sweepInterval) es (unstarted capacity ttlSeconds)
    let s' := run (step sweepInterval) es' s.stop
    Linearized capacity ttlSeconds s.shared ∧
      (s.shared.log.filter fun x => !x.bySweeper).map (·.op) = asked es ∧
      Linearized capacity ttlSeconds s'.shared ∧
      ∃ rest, s'.shared.log = s.shared.log ++ rest ∧ rest.map (·.op) = asked es' ∧
        ∀ x ∈ rest, x.bySweeper = false := by
  intro s s'
  have hpos : capacity ≠ 0 := by omega
  have hstart : Linearized capacity ttlSeconds
      (unstarted capacity ttlSeconds : WorkerState SweepPhase (ServedCache κ V)).shared :=
    ⟨rfl, Refines.new capacity ttlSeconds, rfl, rfl⟩
  have hkeep : ∀ e (s : WorkerState SweepPhase (ServedCache κ V)),
      Linearized capacity ttlSeconds s.shared →
        Linearized capacity ttlSeconds (step sweepInterval e s).shared :=
    Linearized.step hpos
  have hs : Linearized capacity ttlSeconds s.shared := run_of_kept hkeep hstart es
  have hstop : s.stop.shared = s.shared := by
    unfold WorkerState.stop
    split_ifs <;> rfl
  have hs' : Linearized capacity ttlSeconds s'.shared :=
    run_of_kept hkeep (hstop.symm ▸ hs) es'
  obtain ⟨rest, hlog, hrest, -⟩ := run_added sweepInterval es
    (unstarted capacity ttlSeconds : WorkerState SweepPhase (ServedCache κ V))
  refine ⟨hs, ?_, hs', ?_⟩
  · rw [hlog]
    exact hrest
  · obtain ⟨rest', hlog', hrest', hby⟩ := run_added sweepInterval es' s.stop
    have hcallers := hby WorkerState.stop_closed
    refine ⟨rest', hlog'.trans (by rw [hstop]), ?_, hcallers⟩
    rw [← hrest', List.filter_eq_self.mpr fun x hx => by rw [hcallers x hx]; rfl]

end

/-- An entry that lasts a minute, a sweep an hour later, and a read. -/
def sweptEntry : List (Event ℕ ℕ) :=
  [.start none, .access (.put 0 1 10 (some 60)), .turn 0 fun _ => 3600, .turn 0 fun _ => 3600]

theorem linearized_sweptEntry : 0 < 2 ∧
    Linearized 2 300 (run (step 30) sweptEntry (unstarted 2 300)).shared := by
  refine ⟨by decide, ?_⟩
  exact (linearized_run (by decide : 0 < 2) 300 30 sweptEntry []).1

example : (run (step 30) (sweptEntry ++ [.access (.get 3601 1)]) (unstarted 2 300)).shared.log.map
    (fun x => (x.answer, x.bySweeper)) =
      [(.ok .done, false), (.ok (.count 1), true), (.ok (.found none), false)] := by
  decide +kernel

end LFUCache

end Congine
