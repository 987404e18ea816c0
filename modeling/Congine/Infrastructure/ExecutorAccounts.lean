import Congine.Infrastructure.ExecutorBooks
/-!
# Every permit comes back

Once the pool is done with every function it took, the completion callbacks
are all that is left to run: nothing blocks them, and they leave no call
counted in and every permit free.
-/

namespace Congine

variable {V : Type}

/-- The function has finished or been cancelled, and its callback has run. -/
structure Call.Settled (c : Call V) : Prop where
  done : c.done = true
  registered : c.stage.registered = true
  entering_eq : c.entering = 0
  leaving_eq : c.leaving = 0

/-- **A settled call has released its permit once.** -/
theorem Call.Settled.releases_eq {c : Call V} (h : c.Settled) (hc : c.Sound) : c.releases = 1 := by
  have hruns := hc.runs
  rw [if_pos ⟨h.registered, h.done⟩, h.entering_eq, h.leaving_eq] at hruns
  omega

theorem Call.releases_le_one {c : Call V} (hc : c.Sound) : c.releases ≤ 1 := by
  have hruns := hc.runs
  split at hruns <;> omega

namespace BoundedValidationExecutor

variable {s : BoundedValidationExecutor V} {i : ℕ} {c : Call V}

/-- No call is inside the lock while nobody holds it. -/
theorem Books.not_inside (h : Books s) (hlock : s.lock = none) (hc : c ∈ s.calls) :
    c.stage.inside = false := by
  have hsum := h.inside_eq
  rw [hlock] at hsum
  have hle := List.single_le_sum (fun _ _ => Nat.zero_le _) _
    (List.mem_map_of_mem (f := fun c : Call V => c.stage.inside.toNat) hc)
  rcases hinside : c.stage.inside with _ | _
  · rfl
  · rw [hinside] at hle
    simp only [Option.isSome_none, Bool.toNat_true, Bool.toNat_false] at hle hsum
    omega

/-- **Where every accepted call is settled, the books are closed.** -/
theorem Books.closed_of_settled (h : Books s) (hlock : s.lock = none)
    (hsettled : ∀ c ∈ s.calls, c.future ≠ none → c.Settled) :
    s.inFlight = 0 ∧ s.sem = s.capacity := by
  have hheld : ∀ c ∈ s.calls, c.held = 0 := by
    intro c hc
    have hsound := h.sound c hc
    by_cases hfuture : c.future = none
    · have hinside := h.not_inside hlock hc
      have hu := hsound.future_iff.mp hfuture
      unfold Call.held
      cases hstage : c.stage <;> simp_all [Stage.inside, Stage.unsubmitted]
    · have hu : c.stage.unsubmitted = false := by
        rw [← Bool.not_eq_true, ← hsound.future_iff]
        exact hfuture
      rw [Call.held_of_submitted hu, (hsettled c hc hfuture).releases_eq hsound]
  have hsum : (s.calls.map Call.held).sum = 0 := by
    rw [List.sum_eq_zero_iff]
    intro n hn
    obtain ⟨c, hc, rfl⟩ := List.mem_map.mp hn
    exact hheld c hc
  have hle : (s.calls.map Call.counted).sum ≤ (s.calls.map Call.held).sum :=
    List.sum_le_sum fun c _ => c.counted_le_held
  have hsem := h.sem_add
  have hin := h.inFlight_eq
  omega

/-! ## Running the callbacks that are left -/

/-- What is left of the callback of a call whose future is done. -/
def settle (i : ℕ) : List (Event V) := [.register i, .countOut i, .release i]

variable (convert : Exc → Option Exc)

/-- The other calls do not take part. -/
theorem settle_get_ne {e : Event V} (he : e ∈ settle (V := V) i) {j : ℕ} (hij : i ≠ j) :
    (step convert e s).calls[j]? = s.calls[j]? := by
  have hput : ∀ c : Call V, (s.calls.set i c)[j]? = s.calls[j]? :=
    fun c => List.getElem?_set_ne hij
  simp only [settle, List.mem_cons, List.not_mem_nil, or_false] at he
  rcases he with rfl | rfl | rfl
  · exact move_of (P := fun t => t.calls[j]? = s.calls[j]?) rfl fun c _ _ => hput _
  · exact move_of (P := fun t => t.calls[j]? = s.calls[j]?) rfl fun c _ _ => hput _
  · refine move_of (P := fun t => t.calls[j]? = s.calls[j]?) rfl fun c _ _ => ?_
    rw [semRelease_calls]
    exact hput _

theorem settle_lock {e : Event V} (he : e ∈ settle (V := V) i) :
    (step convert e s).lock = s.lock := by
  simp only [settle, List.mem_cons, List.not_mem_nil, or_false] at he
  rcases he with rfl | rfl | rfl
  · exact move_of (P := fun t => t.lock = s.lock) rfl fun c _ _ => rfl
  · exact move_of (P := fun t => t.lock = s.lock) rfl fun c _ _ => rfl
  · refine move_of (P := fun t => t.lock = s.lock) rfl fun c _ _ => ?_
    unfold semRelease
    split <;> rfl

/-- **A call whose future is done can be settled**, whatever the others do. -/
theorem settle_spec (h : Books s) (hlock : s.lock = none) (hi : s.calls[i]? = some c)
    (hdone : c.done = true) :
    ∃ c', (run (step convert) (settle i) s).calls[i]? = some c' ∧ c'.Settled := by
  have hlt : i < s.calls.length := (List.getElem?_eq_some_iff.mp hi).1
  -- The callback is registered.
  obtain ⟨c₁, hi₁, hdone₁, hreg₁⟩ : ∃ c₁, (step convert (.register i) s).calls[i]? = some c₁ ∧
      c₁.done = true ∧ c₁.stage.registered = true := by
    rw [step, move_eq hi]
    by_cases hstage : c.stage = .submitted
    · rw [if_pos (by simpa using hstage)]
      refine ⟨_, List.getElem?_set_self hlt, ?_, rfl⟩
      rw [Call.addDoneCallback, if_pos hdone]
      exact hdone
    · rw [if_neg (by simpa using hstage)]
      refine ⟨c, hi, hdone, ?_⟩
      have hu : c.stage.unsubmitted ≠ true := by
        rw [Ne, ← (h.sound_of hi).future_iff]
        intro hnone
        rw [Call.done, hnone] at hdone
        cases hdone
      cases hs : c.stage <;> simp_all [Stage.unsubmitted, Stage.registered]
  have h₁ : Books (step convert (.register i) s) := h.of_step convert _
  have hlock₁ : (step convert (.register i) s).lock = none :=
    (settle_lock convert (i := i) (by simp [settle])).trans hlock
  have hruns₁ := (h₁.sound_of hi₁).runs
  rw [if_pos ⟨hreg₁, hdone₁⟩] at hruns₁
  generalize hs₁ : step convert (.register i) s = s₁ at *
  -- It counts the call out.
  obtain ⟨c₂, hi₂, hdone₂, hreg₂, hentering₂⟩ : ∃ c₂,
      (step convert (.countOut i) s₁).calls[i]? = some c₂ ∧ c₂.done = true ∧
        c₂.stage.registered = true ∧ c₂.entering = 0 := by
    rw [step, move_eq hi₁]
    have hlt₁ : i < s₁.calls.length := (List.getElem?_eq_some_iff.mp hi₁).1
    by_cases hentering : 0 < c₁.entering
    · rw [if_pos (by simp [hentering, hlock₁])]
      refine ⟨_, List.getElem?_set_self hlt₁, hdone₁, hreg₁, ?_⟩
      simp only
      omega
    · rw [if_neg (by simp [hentering])]
      exact ⟨c₁, hi₁, hdone₁, hreg₁, by omega⟩
  have h₂ : Books (step convert (.countOut i) s₁) := h₁.of_step convert _
  have hruns₂ := (h₂.sound_of hi₂).runs
  rw [if_pos ⟨hreg₂, hdone₂⟩] at hruns₂
  generalize hs₂ : step convert (.countOut i) s₁ = s₂ at *
  -- And releases the semaphore.
  have hrun : run (step convert) (settle i) s = step convert (.release i) s₂ := by
    rw [settle, run_cons, run_cons, run_cons, hs₁, hs₂]
    rfl
  rw [hrun, step, move_eq hi₂]
  have hlt₂ : i < s₂.calls.length := (List.getElem?_eq_some_iff.mp hi₂).1
  by_cases hleaving : 0 < c₂.leaving
  · rw [if_pos (by simpa using hleaving), semRelease_calls]
    refine ⟨_, List.getElem?_set_self hlt₂, hdone₂, hreg₂, hentering₂, ?_⟩
    simp only
    omega
  · rw [if_neg (by simpa using hleaving)]
    exact ⟨c₂, hi₂, hdone₂, hreg₂, hentering₂, by omega⟩

/-- The callbacks of the calls in a list. -/
def settleAll (is : List ℕ) : List (Event V) := is.flatMap settle

theorem settle_kept {es : List (Event V)} (hes : ∀ e ∈ es, e ∈ settle (V := V) i)
    (h : Books s) (hlock : s.lock = none) :
    Books (run (step convert) es s) ∧ (run (step convert) es s).lock = none ∧
      ∀ j, i ≠ j → (run (step convert) es s).calls[j]? = s.calls[j]? := by
  induction es generalizing s with
  | nil => exact ⟨h, hlock, fun j _ => rfl⟩
  | cons e es ih =>
    have he := hes e List.mem_cons_self
    obtain ⟨hbooks, hnone, hget⟩ := ih (fun e' he' => hes e' (List.mem_cons_of_mem _ he'))
      (h.of_step convert e) ((settle_lock convert he).trans hlock)
    exact ⟨hbooks, hnone, fun j hij => (hget j hij).trans (settle_get_ne convert he hij)⟩

/-- The calls the pool took are done. -/
def AllDone (s : BoundedValidationExecutor V) : Prop :=
  ∀ (i : ℕ) (c : Call V), s.calls[i]? = some c → c.future ≠ none → c.done = true

/-- A call of the pool is settled, if there is one under the number. -/
def SettledAt (s : BoundedValidationExecutor V) (i : ℕ) : Prop :=
  ∀ c, s.calls[i]? = some c → c.future ≠ none → c.Settled

theorem settledAt_settle (h : Books s) (hlock : s.lock = none) (hdone : AllDone s) (i : ℕ) :
    SettledAt (run (step convert) (settle i) s) i := by
  intro c' hi' hfuture'
  rcases hi : s.calls[i]? with _ | c
  · have hsame : run (step convert) (settle i) s = s := by
      simp [settle, step, move, hi]
    rw [hsame, hi] at hi'
    cases hi'
  · by_cases hfuture : c.future = none
    · have hinside := h.not_inside hlock (List.mem_of_getElem? hi)
      have hu := (h.sound_of hi).future_iff.mp hfuture
      have hstage : c.stage = .refused := by
        cases hs : c.stage <;> simp_all [Stage.inside, Stage.unsubmitted]
      rw [refused_run convert h hi hstage, Option.some.injEq] at hi'
      exact absurd (hi' ▸ hfuture) hfuture'
    · obtain ⟨c'', hi'', hsettled⟩ := settle_spec convert h hlock hi (hdone i c hi hfuture)
      rwa [Option.some.inj (hi'.symm.trans hi'')]

/-- **The callbacks that are left can all run.** -/
theorem settleAll_spec (is : List ℕ) (h : Books s) (hlock : s.lock = none) (hdone : AllDone s) :
    Books (run (step convert) (settleAll is) s) ∧
      (run (step convert) (settleAll is) s).lock = none ∧
      (∀ j ∉ is, (run (step convert) (settleAll is) s).calls[j]? = s.calls[j]?) ∧
      ∀ j ∈ is, SettledAt (run (step convert) (settleAll is) s) j := by
  induction is generalizing s with
  | nil => exact ⟨h, hlock, fun j _ => rfl, fun j hj => by cases hj⟩
  | cons i is ih =>
    obtain ⟨h₁, hlock₁, hget₁⟩ := settle_kept convert (fun _ (he : _ ∈ settle i) => he) h hlock
    have hsettled₁ := settledAt_settle convert h hlock hdone i
    have hdone₁ : AllDone (run (step convert) (settle i) s) := by
      intro j c hj hfuture
      by_cases hij : i = j
      · subst hij
        exact (hsettled₁ c hj hfuture).done
      · exact hdone j c ((hget₁ j hij).symm.trans hj) hfuture
    obtain ⟨h₂, hlock₂, hget₂, hsettled₂⟩ := ih h₁ hlock₁ hdone₁
    have hrun : run (step convert) (settleAll (i :: is)) s =
        run (step convert) (settleAll is) (run (step convert) (settle i) s) := by
      rw [settleAll, List.flatMap_cons, run_append]
      rfl
    rw [hrun]
    refine ⟨h₂, hlock₂, fun j hj => ?_, fun j hj => ?_⟩
    · rw [List.mem_cons, not_or] at hj
      exact (hget₂ j hj.2).trans (hget₁ j (Ne.symm hj.1))
    · by_cases hmem : j ∈ is
      · exact hsettled₂ j hmem
      · obtain rfl : j = i := (List.mem_cons.mp hj).resolve_right hmem
        intro c hc
        exact hsettled₁ c ((hget₂ j hmem).symm.trans hc)

/-- The callbacks that are left. -/
def callbacks (s : BoundedValidationExecutor V) : List (Event V) :=
  settleAll (List.range s.calls.length)

theorem Books.closed_of_done (h : Books s) (hlock : s.lock = none) (hdone : AllDone s) :
    (run (step convert) s.callbacks s).inFlight = 0 ∧
      (run (step convert) s.callbacks s).sem = (run (step convert) s.callbacks s).capacity := by
  obtain ⟨hbooks, hnone, hget, hsettled⟩ :=
    settleAll_spec convert (List.range s.calls.length) h hlock hdone
  refine hbooks.closed_of_settled hnone fun c hc hfuture => ?_
  obtain ⟨j, hj⟩ := List.getElem?_of_mem hc
  by_cases hmem : j ∈ List.range s.calls.length
  · exact hsettled j hmem c hj hfuture
  · have hnone' : s.calls[j]? = none :=
      List.getElem?_eq_none (not_lt.mp fun hlt => hmem (List.mem_range.mpr hlt))
    rw [hget j hmem, hnone'] at hj
    cases hj

/-! ## The accounts of a state -/

/-- What is asked of a state of an executor of a given capacity. -/
structure Accounts (convert : Exc → Option Exc) (capacity : ℕ)
    (s : BoundedValidationExecutor V) : Prop where
  inFlight_nonneg : 0 ≤ s.inFlight
  inFlight_le : s.inFlight ≤ capacity
  inFlight_add_sem_le : s.inFlight + s.sem ≤ capacity
  /-- The semaphore is never released too often, and once by each call whose
  function has finished or been cancelled and whose callback has run. -/
  not_overReleased : s.overReleased = false
  releases_le : ∀ c ∈ s.calls, c.releases ≤ 1
  releases_eq : ∀ c ∈ s.calls, c.Settled → c.releases = 1
  /-- A shed call changes the shed count; it is the last of the calls made. -/
  shed_step : ∀ async timeoutMs, s.lock = none → s.shutdown = false → s.sem = 0 →
    step convert (.call async timeoutMs) s =
      { s with
        rejectedTotal := s.rejectedTotal + 1
        calls := s.calls ++
          [{ async, timeoutMs, stage := .refused, outcome := some .loadShedError }] }
  /-- Its function is never submitted, whatever comes. -/
  shed_never : ∀ (i : ℕ) (c : Call V), s.calls[i]? = some c → c.outcome = some .loadShedError →
    ∀ es, ∃ c', (run (step convert) es s).calls[i]? = some c' ∧ c'.future = none
  /-- The books are closed where every accepted call is settled, and where its
  function is done the callbacks that are left close them. -/
  closed_of_settled : s.lock = none → (∀ c ∈ s.calls, c.future ≠ none → c.Settled) →
    s.inFlight = 0 ∧ s.sem = capacity
  closed_of_done : s.lock = none → (∀ c ∈ s.calls, c.future ≠ none → c.done = true) →
    (run (step convert) s.callbacks s).inFlight = 0 ∧
      (run (step convert) s.callbacks s).sem = capacity
  /-- What the pool has taken after a shutdown it took before. -/
  none_accepted : s.shutdown = true → ∀ es (i : ℕ) (c' : Call V),
    (run (step convert) es s).calls[i]? = some c' → c'.future ≠ none →
      ∃ c, s.calls[i]? = some c ∧ c.future ≠ none

/-- Nothing is accepted by a run from a shutdown on. -/
theorem Books.none_accepted (h : Books s) (hshut : s.shutdown = true) (es : List (Event V)) (i : ℕ)
    (c' : Call V) (hi : (run (step convert) es s).calls[i]? = some c')
    (hfuture : c'.future ≠ none) :
    ∃ c, s.calls[i]? = some c ∧ c.future ≠ none := by
  induction es generalizing s with
  | nil => exact ⟨c', hi, hfuture⟩
  | cons e es ih =>
    obtain ⟨c, hc, hc'⟩ := ih (h.of_step convert e) ((step_keeps convert e s).shutdown_of hshut) hi
    exact not_accepted_of_shutdown convert e h hshut hc hc'

/-- **The executor's accounts balance in every state**, whatever the
submissions, the timeouts, the cancellations and the shutdowns, in whatever
order the threads step. -/
theorem accounts_run (convert : Exc → Option Exc) (maxWorkers maxPending : ℕ)
    (es : List (Event V)) :
    Accounts convert (maxWorkers + maxPending)
      (run (step convert) es (new maxWorkers maxPending)) := by
  have hcap := run_capacity (V := V) convert es maxWorkers maxPending
  have hbooks := books_run convert es maxWorkers maxPending
  have hshed := shedRefused_run convert es maxWorkers maxPending
  generalize run (step convert) es (new maxWorkers maxPending) = s at *
  obtain ⟨hnonneg, hle, hsum⟩ := hbooks.bounds
  rw [hcap] at hle hsum
  refine ⟨hnonneg, hle, hsum, hbooks.released, fun c hc => Call.releases_le_one (hbooks.sound c hc),
    fun c hc hsettled => hsettled.releases_eq (hbooks.sound c hc), ?_, ?_, ?_, ?_,
    hbooks.none_accepted convert⟩
  · intro async timeoutMs hlock hopen hsem
    rw [step, enter, if_neg (by simp [hlock]), if_neg (by simp [hopen]), if_pos hsem]
    rfl
  · intro i c hi houtcome es
    have hstage := hshed i c hi houtcome
    refine ⟨c, refused_run convert hbooks hi hstage es, ?_⟩
    rw [(hbooks.sound_of hi).future_iff, hstage]
    rfl
  · intro hlock hsettled
    rw [← hcap]
    exact hbooks.closed_of_settled hlock hsettled
  · intro hlock hdone
    have hrun : (run (step convert) s.callbacks s).capacity = maxWorkers + maxPending :=
      run_capacity_of convert hcap s.callbacks
    rw [← hrun]
    exact hbooks.closed_of_done convert hlock fun i c hi => hdone c (List.mem_of_getElem? hi)

end BoundedValidationExecutor

end Congine
