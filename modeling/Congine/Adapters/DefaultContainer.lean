import Congine.Adapters.TenantRegistry
import Congine.Common.Calls
import Congine.Common.Runs
/-!
# The shared default container

`get_default` looks at the shared container twice: once without the lock,
and again under it before it constructs one. `reset_default` takes the
container away under the lock and closes it after. Any number of calls of
either may be at any statement, and any holder may close a container at any
moment. The registry of tenants, which a reset empties under a lock of its
own, is left out.
-/

namespace Congine

/-- Where a call of `get_default` or of `reset_default` stands. -/
inductive DefaultCall where
  /-- About to read the deployment mode. -/
  | probing
  | reading
  | checking (instance_ : ℕ)
  | locking
  -- Under the lock.
  | rereading
  | rechecking (instance_ : ℕ)
  | constructing
  | returning (instance_ : ℕ)
  | ended (result : Except Exc ℕ)
  | resetLocking
  /-- Under the lock. -/
  | clearing
  | closing (default : Option ℕ)
  | reset

namespace DefaultCall

/-- The call holds `_default_lock`. -/
def inside : DefaultCall → Bool
  | rereading | rechecking _ | constructing | returning _ | clearing => true
  | _ => false

/-- The container the call has settled on. -/
def settled? : DefaultCall → Option ℕ
  | returning c | ended (.ok c) => some c
  | _ => none

end DefaultCall

structure DefaultState where
  containers : List ServiceContainer := []
  defaultInstance : Option ℕ := none
  defaultLock : Option ℕ := none
  calls : List DefaultCall := []

/-- What a statement finds outside. -/
structure Reading where
  /-- `deployment_mode_from_env() is MULTI_TENANT`. -/
  multiTenant : Except Exc Bool := .ok false
  /-- The configuration of the environment, or what it or the constructor raises. -/
  constructed : Except Exc CongineConfig

inductive DefaultEvent where
  | getDefault
  | resetDefault
  | advance (call : ℕ) (r : Reading)
  /-- A holder closes a container. -/
  | close (container : ℕ)

namespace DefaultState

/-- The container has been constructed and not been closed. -/
def isLive (s : DefaultState) (container : ℕ) : Bool :=
  s.containers[container]?.any fun c => !c.closed

def setCall (s : DefaultState) (i : ℕ) (call : DefaultCall) : DefaultState :=
  { s with calls := s.calls.set i call }

/-- The call leaves the lock. -/
def leave (s : DefaultState) (i : ℕ) (call : DefaultCall) : DefaultState :=
  { s.setCall i call with defaultLock := none }

/-- The call takes the lock, if it is free. -/
def enter (s : DefaultState) (i : ℕ) (call : DefaultCall) : DefaultState :=
  if s.defaultLock.isSome then s else { s.setCall i call with defaultLock := some i }

def close (s : DefaultState) (container : ℕ) : DefaultState :=
  { s with containers := s.containers.modify container fun c => { c with closed := true } }

def advance (i : ℕ) (r : Reading) (s : DefaultState) : DefaultState :=
  match s.calls[i]? with
  | some .probing =>
    match r.multiTenant with
    | .error exc => s.setCall i (.ended (.error exc))
    | .ok true => s.setCall i (.ended (.error (.congine .configuration)))
    | .ok false => s.setCall i .reading
  | some .reading =>
    match s.defaultInstance with
    | none => s.setCall i .locking
    | some c => s.setCall i (.checking c)
  | some (.checking c) => s.setCall i (if s.isLive c then .ended (.ok c) else .locking)
  | some .locking => s.enter i .rereading
  | some .rereading =>
    match s.defaultInstance with
    | none => s.setCall i .constructing
    | some c => s.setCall i (.rechecking c)
  | some (.rechecking c) => s.setCall i (if s.isLive c then .returning c else .constructing)
  | some .constructing =>
    match r.constructed with
    | .error exc => s.leave i (.ended (.error exc))
    | .ok config =>
      { s.setCall i (.returning s.containers.length) with
        containers := s.containers ++ [{ config, closed := false }]
        defaultInstance := some s.containers.length }
  | some (.returning c) => s.leave i (.ended (.ok c))
  | some .resetLocking => s.enter i .clearing
  | some .clearing => { s.leave i (.closing s.defaultInstance) with defaultInstance := none }
  | some (.closing none) => s.setCall i .reset
  | some (.closing (some c)) => (s.close c).setCall i .reset
  | _ => s

def step : DefaultEvent → DefaultState → DefaultState
  | .getDefault, s => { s with calls := s.calls ++ [.probing] }
  | .resetDefault, s => { s with calls := s.calls ++ [.resetLocking] }
  | .advance i r, s => s.advance i r
  | .close c, s => s.close c

/-! ## What every step keeps -/

/-- A call of `reset_default` is about to close the container. -/
def BeingReset (s : DefaultState) (c : ℕ) : Prop := .closing (some c) ∈ s.calls

/-- What a call knows of the containers. -/
def Knows (s : DefaultState) : DefaultCall → Prop
  -- Under the lock the shared container stays the one that was read.
  | .rechecking c => s.defaultInstance = some c
  | .constructing => ∀ c, s.defaultInstance = some c → s.isLive c = false
  | .returning c | .ended (.ok c) => c < s.containers.length
  -- What a reset has taken away is not put back.
  | .closing (some c) => c < s.containers.length ∧ s.defaultInstance ≠ some c
  | _ => True

structure Inv (s : DefaultState) : Prop where
  lock : Excludes DefaultCall.inside s.calls s.defaultLock
  knows : ∀ call ∈ s.calls, s.Knows call
  default_lt : ∀ c, s.defaultInstance = some c → c < s.containers.length
  /-- No container is left open but the shared one and those about to be closed. -/
  live : ∀ c, s.isLive c = true → s.defaultInstance = some c ∨ s.BeingReset c

theorem inv_init : ({} : DefaultState).Inv where
  lock := .nil
  knows call h := absurd h List.not_mem_nil
  default_lt c h := by cases h
  live c h := by simp [isLive] at h

section

variable {s : DefaultState}

theorem lt_of_isLive {c : ℕ} (h : s.isLive c = true) : c < s.containers.length := by
  by_contra hge
  rw [isLive, List.getElem?_eq_none (not_lt.mp hge)] at h
  cases h

theorem length_close (c : ℕ) : (s.close c).containers.length = s.containers.length :=
  List.length_modify _ _ _

theorem isLive_close {c c' : ℕ} (h : (s.close c).isLive c' = true) :
    s.isLive c' = true ∧ c' ≠ c := by
  unfold isLive close at h
  rw [List.getElem?_modify] at h
  rcases hc : s.containers[c']? with _ | container
  · rw [hc] at h
    cases h
  · rw [hc] at h
    by_cases heq : c = c'
    · simp [heq] at h
    · refine ⟨?_, fun h' => heq h'.symm⟩
      simpa [isLive, hc, heq] using h

/-- A call about to close a container is still there when another takes a step. -/
theorem BeingReset.setCall {i c : ℕ} {call call' : DefaultCall} (hi : s.calls[i]? = some call)
    (hreset : call ≠ .closing (some c)) (h : s.BeingReset c) : (s.setCall i call').BeingReset c :=
  mem_moved hi hreset h

/-- A call takes a step that leaves the containers as they are. -/
theorem Inv.move (hs : s.Inv) {lock : Option ℕ} {i : ℕ} {call call' : DefaultCall}
    (hi : s.calls[i]? = some call) (hlock : Excludes DefaultCall.inside (s.calls.set i call') lock)
    (hknows : s.Knows call') (hreset : ∀ c, call ≠ .closing (some c)) :
    ({ s.setCall i call' with defaultLock := lock } : DefaultState).Inv where
  lock := hlock
  knows call₀ h := by
    rcases List.mem_or_eq_of_mem_set h with hold | rfl
    · exact hs.knows call₀ hold
    · exact hknows
  default_lt := hs.default_lt
  live c h := (hs.live c h).imp id fun h => h.setCall hi (hreset c)

theorem Inv.setCall (hs : s.Inv) {i : ℕ} {call call' : DefaultCall} (hi : s.calls[i]? = some call)
    (hinside : call'.inside = call.inside) (hknows : s.Knows call')
    (hreset : ∀ c, call ≠ .closing (some c)) : (s.setCall i call').Inv :=
  hs.move hi (hs.lock.move hi hinside) hknows hreset

theorem Inv.enter (hs : s.Inv) {i : ℕ} {call call' : DefaultCall} (hi : s.calls[i]? = some call)
    (hinside : call'.inside = true) (hknows : s.Knows call')
    (hreset : ∀ c, call ≠ .closing (some c)) : (s.enter i call').Inv := by
  unfold DefaultState.enter
  split_ifs with hlocked
  · exact hs
  · have hfree : Excludes DefaultCall.inside s.calls none := by
      rw [← Option.not_isSome_iff_eq_none.mp hlocked]
      exact hs.lock
    exact hs.move hi (hfree.enter hi hinside) hknows hreset

theorem Inv.leave (hs : s.Inv) {i : ℕ} {call call' : DefaultCall} (hi : s.calls[i]? = some call)
    (hinside : call.inside = true) (hout : call'.inside = false) (hknows : s.Knows call') :
    (s.leave i call').Inv :=
  hs.move hi (hs.lock.leave hi hinside hout) hknows (by rintro c rfl; cases hinside)

/-- What a call that is not inside knows is not lost, however the shared
container changes. -/
theorem Knows.later {s' : DefaultState} {call : DefaultCall} (hout : call.inside = false)
    (hlen : s.containers.length ≤ s'.containers.length)
    (hdefault : ∀ c, s'.defaultInstance = some c →
      s.defaultInstance = some c ∨ s.containers.length ≤ c)
    (h : s.Knows call) : s'.Knows call := by
  cases call with
  | rechecking c => cases hout
  | constructing => cases hout
  | returning c => cases hout
  | ended result =>
    cases result with
    | error exc => trivial
    | ok c => exact Nat.lt_of_lt_of_le h hlen
  | closing default =>
    cases default with
    | none => trivial
    | some c =>
      refine ⟨Nat.lt_of_lt_of_le h.1 hlen, fun hc => ?_⟩
      rcases hdefault c hc with hold | hnew
      · exact h.2 hold
      · exact absurd h.1 (not_lt.mpr hnew)
  | _ => trivial

/-- The call inside changes the shared container, and no other call minds. -/
theorem Inv.knows_later (hs : s.Inv) {s' : DefaultState} {i : ℕ} {call call' : DefaultCall}
    (hi : s.calls[i]? = some call) (hinside : call.inside = true)
    (hlen : s.containers.length ≤ s'.containers.length)
    (hdefault : ∀ c, s'.defaultInstance = some c →
      s.defaultInstance = some c ∨ s.containers.length ≤ c)
    (hknows : s'.Knows call') {call₀ : DefaultCall} (h : call₀ ∈ (s.setCall i call').calls) :
    s'.Knows call₀ := by
  obtain ⟨j, hj⟩ := List.getElem?_of_mem h
  rcases getElem?_moved hi hj with ⟨-, rfl⟩ | ⟨hij, hold⟩
  · exact hknows
  · refine Knows.later ?_ hlen hdefault (hs.knows call₀ (List.mem_of_getElem? hold))
    by_contra hin
    exact hij (hs.lock.eq_of_inside hi hinside hold ((Bool.not_eq_false _).mp hin))

/-- A container is closed, by a holder or by a reset. -/
theorem Inv.close (hs : s.Inv) (c : ℕ) : (s.close c).Inv where
  lock := hs.lock
  knows call h := by
    have hcall := hs.knows call h
    cases call with
    | constructing =>
      intro c' hc'
      rw [Bool.eq_false_iff]
      intro hlive
      have hdead := hcall c' hc'
      rw [(isLive_close hlive).1] at hdead
      cases hdead
    | ended result =>
      cases result with
      | error exc => trivial
      | ok c' => exact Nat.lt_of_lt_of_eq hcall (length_close c).symm
    | returning c' => exact Nat.lt_of_lt_of_eq hcall (length_close c).symm
    | closing default =>
      cases default with
      | none => trivial
      | some c' => exact ⟨Nat.lt_of_lt_of_eq hcall.1 (length_close c).symm, hcall.2⟩
    | _ => exact hcall
  default_lt c' h := Nat.lt_of_lt_of_eq (hs.default_lt c' h) (length_close c).symm
  live c' h := hs.live c' (isLive_close h).1

theorem Inv.construct (hs : s.Inv) {i : ℕ} (hi : s.calls[i]? = some .constructing)
    (config : CongineConfig) :
    ({ s.setCall i (.returning s.containers.length) with
        containers := s.containers ++ [{ config, closed := false }]
        defaultInstance := some s.containers.length } : DefaultState).Inv where
  lock := hs.lock.move hi rfl
  knows call₀ h := by
    refine hs.knows_later hi rfl (by simp) (fun c hc => ?_) ?_ h
    · exact .inr (Option.some.inj hc).le
    · simp [Knows]
  default_lt c hc := by simp [← Option.some.inj hc]
  live c h := by
    rcases Nat.lt_trichotomy c s.containers.length with hlt | rfl | hgt
    · have hlive : s.isLive c = true := by
        simpa [isLive, List.getElem?_append_left hlt] using h
      rcases hs.live c hlive with hdefault | hreset
      · have hdead := hs.knows .constructing (List.mem_of_getElem? hi) c hdefault
        rw [hlive] at hdead
        cases hdead
      · exact .inr (hreset.setCall hi (by simp))
    · exact .inl rfl
    · have hnone : (s.containers ++ [{ config, closed := false }])[c]? = none := by
        rw [List.getElem?_eq_none_iff, List.length_append, List.length_singleton]
        exact hgt
      simp [isLive, hnone] at h

theorem Inv.clear (hs : s.Inv) {i : ℕ} (hi : s.calls[i]? = some .clearing) :
    ({ s.leave i (.closing s.defaultInstance) with
      defaultInstance := none } : DefaultState).Inv where
  lock := hs.lock.leave hi rfl rfl
  knows call₀ h := by
    refine hs.knows_later hi rfl ?_ (fun c hc => ?_) ?_ h
    · exact Nat.le_refl _
    · cases hc
    cases hdefault : s.defaultInstance with
    | none => trivial
    | some c => exact ⟨hs.default_lt c hdefault, by simp⟩
  default_lt c h := by cases h
  live c h := by
    refine .inr ?_
    rcases hs.live c h with hdefault | hreset
    · refine List.mem_of_getElem? (i := i) ?_
      show (s.calls.set i (.closing s.defaultInstance))[i]? = _
      rw [getElem?_moved_self hi, hdefault]
    · exact hreset.setCall hi (by simp)

theorem Inv.closeReset (hs : s.Inv) {i c : ℕ} (hi : s.calls[i]? = some (.closing (some c))) :
    ((s.close c).setCall i .reset).Inv where
  lock := hs.lock.move hi rfl
  knows call₀ h := by
    rcases List.mem_or_eq_of_mem_set h with hold | rfl
    · exact (hs.close c).knows call₀ hold
    · trivial
  default_lt := (hs.close c).default_lt
  live c' h := by
    obtain ⟨hlive, hne⟩ := isLive_close (s := s) h
    exact (hs.live c' hlive).imp id fun h =>
      BeingReset.setCall (s := s.close c) hi (by simp [hne.symm]) h

theorem Inv.advance (hs : s.Inv) (i : ℕ) (r : Reading) : (s.advance i r).Inv := by
  unfold DefaultState.advance
  split
  · next hi =>
    split <;> exact hs.setCall hi rfl trivial (by simp)
  · next hi =>
    split <;> exact hs.setCall hi rfl trivial (by simp)
  · next c hi =>
    split_ifs with hlive
    · exact hs.setCall hi rfl (lt_of_isLive hlive) (by simp)
    · exact hs.setCall hi rfl trivial (by simp)
  · next hi => exact hs.enter hi rfl trivial (by simp)
  · next hi =>
    split
    · next hnone => exact hs.setCall hi rfl (fun c h => by rw [hnone] at h; cases h) (by simp)
    · next c hsome => exact hs.setCall hi rfl hsome (by simp)
  · next c hi =>
    split_ifs with hlive
    · exact hs.setCall hi rfl (lt_of_isLive hlive) (by simp)
    · refine hs.setCall hi rfl (fun c' hc' => ?_) (by simp)
      have hdefault : s.defaultInstance = some c :=
        hs.knows (.rechecking c) (List.mem_of_getElem? hi)
      rw [← Option.some.inj (hdefault.symm.trans hc')]
      simpa using hlive
  · next hi =>
    split
    · exact hs.leave hi rfl rfl trivial
    · next config _ => exact hs.construct hi config
  · next c hi => exact hs.leave hi rfl rfl (hs.knows (.returning c) (List.mem_of_getElem? hi))
  · next hi => exact hs.enter hi rfl trivial (by simp)
  · next hi => exact hs.clear hi
  · next hi => exact hs.setCall hi rfl trivial (by simp)
  · next c hi => exact hs.closeReset hi
  · exact hs

theorem Inv.lt_of_settled (hs : s.Inv) {call : DefaultCall} (hcall : call ∈ s.calls) {c : ℕ}
    (h : call.settled? = some c) : c < s.containers.length := by
  have hknows := hs.knows call hcall
  cases call with
  | returning c' =>
    rw [← Option.some.inj h]
    exact hknows
  | ended result =>
    cases result with
    | error exc => cases h
    | ok c' =>
      rw [← Option.some.inj h]
      exact hknows
  | _ => cases h

/-- A call comes in. -/
theorem Inv.add (hs : s.Inv) {call : DefaultCall} (hout : call.inside = false)
    (hknows : s.Knows call) :
    ({ s with calls := s.calls ++ [call] } : DefaultState).Inv where
  lock := hs.lock.join hout
  knows call₀ h := by
    rcases List.mem_append.mp h with hold | hnew
    · exact hs.knows call₀ hold
    · rw [List.mem_singleton.mp hnew]
      exact hknows
  default_lt := hs.default_lt
  live c h := (hs.live c h).imp id fun h => List.mem_append_left _ h

theorem Inv.step (e : DefaultEvent) (s : DefaultState) (hs : s.Inv) : (step e s).Inv := by
  cases e with
  | getDefault => exact hs.add rfl trivial
  | resetDefault => exact hs.add rfl trivial
  | advance i r => exact hs.advance i r
  | close c => exact hs.close c

end

/-! ## How many containers there are -/

/-- The call is a reset that has not cleared the shared container yet. -/
def willClear : DefaultCall → Bool
  | .resetLocking | .clearing => true
  | _ => false

/-- The shared container can be handed out. -/
def isShared (s : DefaultState) : Bool := s.defaultInstance.any s.isLive

/-- The containers there are, and the ones that may still be constructed without
another reset or close. -/
def allowance (s : DefaultState) : ℕ :=
  s.containers.length + s.calls.countP willClear + if s.isShared then 0 else 1

section

variable {s : DefaultState}

theorem allowance_setCall_le {i : ℕ} {call call' : DefaultCall} (hi : s.calls[i]? = some call)
    (h : willClear call' = true → willClear call = true) :
    (s.setCall i call').allowance ≤ s.allowance := by
  have hset := countP_moved willClear hi call'
  have hle : (willClear call').toNat ≤ (willClear call).toNat := Bool.toNat_le_toNat h
  have hcalls : (s.calls.set i call').countP willClear ≤ s.calls.countP willClear := by omega
  exact Nat.add_le_add_right (Nat.add_le_add_left hcalls _) _

theorem allowance_enter_le {i : ℕ} {call call' : DefaultCall} (hi : s.calls[i]? = some call)
    (h : willClear call' = true → willClear call = true) :
    (s.enter i call').allowance ≤ s.allowance := by
  unfold enter
  split_ifs
  · exact Nat.le_refl _
  · exact allowance_setCall_le hi h

theorem Inv.allowance_construct (hs : s.Inv) {i : ℕ} (hi : s.calls[i]? = some .constructing)
    (config : CongineConfig) :
    ({ s.setCall i (.returning s.containers.length) with
        containers := s.containers ++ [{ config, closed := false }]
        defaultInstance := some s.containers.length } : DefaultState).allowance = s.allowance := by
  have hset : (s.setCall i (.returning s.containers.length)).calls.countP willClear =
      s.calls.countP willClear := countP_moved willClear hi _
  have hnone : s.isShared = false := by
    have hdead := hs.knows .constructing (List.mem_of_getElem? hi)
    rw [isShared, Option.any_eq_false]
    intro c hc
    simpa using hdead c hc
  have hsaved : s.allowance = s.containers.length + s.calls.countP willClear + 1 := by
    simp [allowance, hnone]
  rw [hsaved]
  simp [allowance, hset, isShared, isLive]
  omega

theorem allowance_clear_le {i : ℕ} (hi : s.calls[i]? = some .clearing) :
    ({ s.leave i (.closing s.defaultInstance) with defaultInstance := none } :
      DefaultState).allowance ≤ s.allowance := by
  have hset := countP_moved willClear hi (.closing s.defaultInstance)
  simp only [willClear] at hset
  simp only [allowance, isShared, leave, setCall, Option.any_none]
  split_ifs <;> simp at hset ⊢
  all_goals omega

theorem allowance_add (call : DefaultCall) :
    ({ s with calls := s.calls ++ [call] } : DefaultState).allowance =
      s.allowance + (willClear call).toNat := by
  have hcount : (s.calls ++ [call]).countP willClear =
      s.calls.countP willClear + (willClear call).toNat := by
    cases h : willClear call <;> simp [List.countP_append, h]
  show s.containers.length + (s.calls ++ [call]).countP willClear + _ = _
  rw [hcount, ← Nat.add_assoc, Nat.add_right_comm]
  rfl

/-- Closing a container may take the shared one. -/
theorem allowance_close_le (c : ℕ) : (s.close c).allowance ≤ s.allowance + 1 := by
  unfold allowance
  rw [length_close]
  show _ + s.calls.countP willClear + _ ≤ _
  split_ifs <;> omega

/-- Closing another container leaves the shared one as it is. -/
theorem allowance_close_eq {c : ℕ} (h : s.defaultInstance ≠ some c) :
    (s.close c).allowance = s.allowance := by
  have hshared : (s.close c).isShared = s.isShared := by
    show s.defaultInstance.any (s.close c).isLive = s.defaultInstance.any s.isLive
    cases hdefault : s.defaultInstance with
    | none => rfl
    | some c' =>
      have hne : c ≠ c' := by
        rintro rfl
        exact h hdefault
      simp [isLive, close, hne]
  unfold allowance
  rw [length_close, hshared]
  rfl

theorem Inv.allowance_advance_le (hs : s.Inv) (i : ℕ) (r : Reading) :
    (s.advance i r).allowance ≤ s.allowance := by
  unfold DefaultState.advance
  split
  · next hi => split <;> exact allowance_setCall_le hi (by simp [willClear])
  · next hi => split <;> exact allowance_setCall_le hi (by simp [willClear])
  · next c hi => split_ifs <;> exact allowance_setCall_le hi (by simp [willClear])
  · next hi => exact allowance_enter_le hi (by simp [willClear])
  · next hi => split <;> exact allowance_setCall_le hi (by simp [willClear])
  · next c hi => split_ifs <;> exact allowance_setCall_le hi (by simp [willClear])
  · next hi =>
    split
    · exact allowance_setCall_le hi (by simp [willClear])
    · next config _ => exact (hs.allowance_construct hi config).le
  · next c hi => exact allowance_setCall_le hi (by simp [willClear])
  · next hi => exact allowance_enter_le hi (by simp [willClear])
  · next hi => exact allowance_clear_le hi
  · next hi => exact allowance_setCall_le hi (by simp [willClear])
  · next c hi =>
    have hne := (hs.knows (.closing (some c)) (List.mem_of_getElem? hi)).2
    rw [← allowance_close_eq hne]
    exact allowance_setCall_le (s := s.close c) hi (by simp [willClear])
  · exact Nat.le_refl _

/-! ## What a call returns -/

/-- The container the call has settled on. -/
def settledOn (s : DefaultState) (i : ℕ) : Option ℕ := s.calls[i]?.bind DefaultCall.settled?

theorem settledOn_setCall {i j c : ℕ} {call call' : DefaultCall} (hi : s.calls[i]? = some call)
    (h : (s.setCall i call').settledOn j = some c) :
    s.settledOn j = some c ∨ i = j ∧ call'.settled? = some c := by
  obtain ⟨call₀, hcall, hsettled⟩ := Option.bind_eq_some_iff.mp h
  rcases getElem?_moved hi hcall with ⟨hij, rfl⟩ | ⟨-, hold⟩
  · exact .inr ⟨hij, hsettled⟩
  · exact .inl (Option.bind_eq_some_iff.mpr ⟨call₀, hold, hsettled⟩)

/-- A step that leaves the call in the middle settles nothing. -/
theorem settledOn_of_none {i j c : ℕ} {call call' : DefaultCall} (hi : s.calls[i]? = some call)
    (hnone : call'.settled? = none) (h : (s.setCall i call').settledOn j = some c) :
    s.settledOn j = some c :=
  (settledOn_setCall hi h).resolve_right (by simp [hnone])

/-- **A call settles on an open container.** -/
theorem settledOn_advance {i j c : ℕ} {r : Reading} (h : (s.advance i r).settledOn j = some c) :
    s.settledOn j = some c ∨ (s.advance i r).isLive c = true := by
  revert h
  unfold DefaultState.advance
  split
  · next hi => split <;> exact fun h => .inl (settledOn_of_none hi rfl h)
  · next hi => split <;> exact fun h => .inl (settledOn_of_none hi rfl h)
  · next c hi =>
    split_ifs with hlive
    · intro h
      refine (settledOn_setCall hi h).imp id fun hc => ?_
      rw [← Option.some.inj hc.2]
      exact hlive
    · exact fun h => .inl (settledOn_of_none hi rfl h)
  · next hi =>
    unfold enter
    split_ifs
    · exact .inl
    · exact fun h => .inl (settledOn_of_none hi rfl h)
  · next hi => split <;> exact fun h => .inl (settledOn_of_none hi rfl h)
  · next c hi =>
    split_ifs with hlive
    · intro h
      refine (settledOn_setCall hi h).imp id fun hc => ?_
      rw [← Option.some.inj hc.2]
      exact hlive
    · exact fun h => .inl (settledOn_of_none hi rfl h)
  · next hi =>
    split
    · exact fun h => .inl (settledOn_of_none hi rfl h)
    · intro h
      refine (settledOn_setCall hi h).imp id fun hc => ?_
      rw [← Option.some.inj hc.2]
      simp [isLive]
  · next c hi =>
    intro h
    refine .inl ((settledOn_setCall hi h).elim id fun hc => ?_)
    obtain ⟨rfl, hsettled⟩ := hc
    rw [settledOn, hi]
    exact hsettled
  · next hi =>
    unfold enter
    split_ifs
    · exact .inl
    · exact fun h => .inl (settledOn_of_none hi rfl h)
  · next hi => exact fun h => .inl (settledOn_of_none hi rfl h)
  · next hi => exact fun h => .inl (settledOn_of_none hi rfl h)
  · next c hi => exact fun h => .inl (settledOn_of_none (s := s.close c) hi rfl h)
  · exact .inl

theorem settledOn_step {e : DefaultEvent} {j c : ℕ} (hbefore : s.settledOn j = none)
    (h : (step e s).settledOn j = some c) : (step e s).isLive c = true := by
  have hnew : ∀ call : DefaultCall, call.settled? = none →
      ({ s with calls := s.calls ++ [call] } : DefaultState).settledOn j ≠ some c := by
    intro call hnone hsettled
    obtain ⟨call₀, hcall, hc⟩ := Option.bind_eq_some_iff.mp hsettled
    rcases getElem?_joined hcall with hold | ⟨-, rfl⟩
    · rw [settledOn, hold] at hbefore
      exact absurd (hbefore.symm.trans hc) (by simp)
    · rw [hnone] at hc
      cases hc
  cases e with
  | getDefault => exact absurd h (hnew _ rfl)
  | resetDefault => exact absurd h (hnew _ rfl)
  | advance i r => exact (settledOn_advance h).resolve_left (by simp [hbefore])
  | close c' =>
    rw [show (step (.close c') s).settledOn j = s.settledOn j from rfl, hbefore] at h
    cases h

end

/-- The containers a run constructs, one for each reset and each close at
most and one more. -/
def spends : DefaultEvent → Bool
  | .resetDefault | .close _ => true
  | _ => false

theorem allowance_step_le (e : DefaultEvent) (s : DefaultState) (hs : s.Inv) :
    (step e s).allowance ≤ s.allowance + if spends e then 1 else 0 := by
  cases e with
  | getDefault => exact (allowance_add .probing).le
  | resetDefault => exact (allowance_add .resetLocking).le
  | advance i r => exact hs.allowance_advance_le i r
  | close c => exact allowance_close_le c

/-- What holds of the shared container in every state. -/
structure Consistent (s : DefaultState) : Prop where
  /-- One call at most is under the lock, and the lock is held by one that is. -/
  lock : Excludes DefaultCall.inside s.calls s.defaultLock
  /-- No container is left open but the shared one and those about to be closed. -/
  live : ∀ c, s.isLive c = true → s.defaultInstance = some c ∨ s.BeingReset c
  /-- A call settles on an open container. -/
  settles : ∀ e i c, s.settledOn i = none → (step e s).settledOn i = some c →
    (step e s).isLive c = true

/-- **The shared container over every run.** No container is lost sight of
while it is open, and a run without a reset or a close constructs one for
all its calls. -/
theorem consistent_run (es : List DefaultEvent) :
    let s := run step es {}
    s.Consistent ∧ s.containers.length ≤ 1 + es.countP spends ∧
      (es.countP spends = 0 → ∀ i j c c', s.settledOn i = some c → s.settledOn j = some c' →
        c = c') := by
  intro s
  have hs : s.Inv := run_of_kept Inv.step inv_init es
  have hallowance : s.allowance ≤ 1 + es.countP spends :=
    run_le_countP Inv.step allowance_step_le inv_init es
  have hlen : s.containers.length ≤ 1 + es.countP spends := by
    unfold allowance at hallowance
    omega
  have hlt : ∀ i c, s.settledOn i = some c → c < s.containers.length := by
    intro i c h
    obtain ⟨call, hcall, hsettled⟩ := Option.bind_eq_some_iff.mp h
    exact hs.lt_of_settled (List.mem_of_getElem? hcall) hsettled
  refine ⟨⟨hs.lock, hs.live, fun e i c => settledOn_step⟩, hlen, fun hnone i j c c' hi hj => ?_⟩
  have hc := hlt i c hi
  have hc' := hlt j c' hj
  omega

end DefaultState

end Congine
