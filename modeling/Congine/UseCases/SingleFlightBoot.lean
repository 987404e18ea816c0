import Mathlib.Logic.Function.Basic
import Congine.UseCases.RestartEquivalence
/-!
# The single-flight boot

Any number of workers boot over one snapshot file and one boot lock. The
worker that takes the lock fetches, primes its cache, writes the snapshot
and lets go; one that does not loads the snapshot at once. A worker's
stages are those of `syncOnce` and `loadSnapshotOnly`; between two of them
any other worker may take its own.
-/

namespace Congine

open SyncContractsUseCase

/-- The workers that boot, and what the control plane answers each. -/
structure Fleet (Worker : Type*) where
  usecase : Worker → SyncContractsUseCase
  capacity : Worker → ℕ
  ttlSeconds : Worker → ℤ
  circuitBreaker : Worker → Option CircuitBreaker
  exchange : Except Exc HttpResponse

/-- Where a worker stands in `sync_once_single_flight`. -/
inductive BootPhase where
  | starting
  /-- The lock is held. -/
  | fetching
  | priming (contracts : Option (List Json)) (fetched : Bool)
  | saving (contracts : List Json) (loaded : ℕ)
  | releasing (result : Except Exc ℕ)
  /-- The lock is another's. -/
  | loading
  | finished (result : Except Exc ℕ)

structure BootWorker where
  phase : BootPhase := .starting
  process : SyncState

/-- The workers, and what they share. -/
structure BootState (Worker : Type*) where
  disk : SnapshotFile := .absent
  lock : Option Worker := none
  worker : Worker → BootWorker

/-- A worker takes its next step; should that save, `save` comes of it. -/
structure BootEvent (Worker : Type*) where
  worker : Worker
  save : SaveOutcome := .written
  fetchedAt : String := ""

namespace Fleet

variable {Worker : Type*} (f : Fleet Worker)

/-- A worker's process before its boot: nothing is cached. -/
def fresh (w : Worker) : SyncState where
  schemaStorage := { capacity := f.capacity w, ttlSeconds := f.ttlSeconds w }
  circuitBreaker := f.circuitBreaker w

/-- No snapshot, a free lock. -/
def init : BootState Worker where
  worker w := { process := f.fresh w }

def outside (e : BootEvent Worker) : Outside where
  exchange := f.exchange
  save := e.save
  fetchedAt := e.fetchedAt

@[simp] theorem outside_save (e : BootEvent Worker) : (f.outside e).save = e.save := rfl

@[simp] theorem outside_fetchedAt (e : BootEvent Worker) : (f.outside e).fetchedAt = e.fetchedAt :=
  rfl

variable [DecidableEq Worker]

omit f in
/-- The worker of the event is at its next phase. -/
def put (s : BootState Worker) (w : Worker) (phase : BootPhase) (process : SyncState) :
    BootState Worker :=
  { s with worker := Function.update s.worker w { phase, process } }

section

variable {s : BootState Worker} {w w' : Worker} {phase : BootPhase} {process : SyncState}

omit f in
@[simp] theorem put_self : (put s w phase process).worker w = { phase, process } := by
  simp [put]

omit f in
theorem put_other (hw : w' ≠ w) : (put s w phase process).worker w' = s.worker w' := by
  simp [put, hw]

end

section Host

variable [Host]

/-- The fetched batch is primed, and persisted next if it is fresh. -/
def primed (contracts : Option (List Json)) (fetched : Bool) (s : BootState Worker) (w : Worker)
    (σ : SyncState) : BootState Worker :=
  match contracts with
  | none | some [] => put s w (.releasing (.ok 0)) σ
  | some contracts =>
    match (f.usecase w).primeCache contracts 0 σ with
    | (.error exc, σ) => put s w (.releasing (.error exc)) σ
    | (.ok loaded, σ) =>
      put s w (if fetched then .saving contracts loaded else .releasing (.ok loaded)) σ

def step (e : BootEvent Worker) (s : BootState Worker) : BootState Worker :=
  let w := e.worker
  let σ := { (s.worker w).process with snapshot := s.disk }
  match (s.worker w).phase with
  | .starting =>
    match s.lock with
    | none => { put s w .fetching σ with lock := some w }
    -- Another worker fetches: this one reads the disk as it is, without waiting.
    | some _ => put s w .loading σ
  | .fetching =>
    match (f.usecase w).fetch (f.outside e) σ with
    | (.error exc, σ) => put s w (.releasing (.error exc)) σ
    | (.ok (contracts, fetched), σ) => put s w (.priming contracts fetched) σ
  | .priming contracts fetched => f.primed contracts fetched s w σ
  | .saving contracts loaded =>
    match saveSnapshot contracts e.fetchedAt e.save s.disk with
    -- `os.replace`: the next reader sees all of the file or none.
    | .ok disk => { put s w (.releasing (.ok loaded)) σ with disk }
    | .error exc => put s w (.releasing (if exc.isOSError then .ok loaded else .error exc)) σ
  | .releasing result => { put s w (.finished result) σ with lock := none }
  | .loading =>
    match (f.usecase w).loadSnapshotOnly (f.outside e) σ with
    | (result, σ) => put s w (.finished result) σ
  | .finished _ => s

/-! ## What is asked of a boot -/

/-- The control plane is healthy: every fetch delivers the batch. -/
structure Healthy (batch : List Json) : Prop where
  delivers : ∀ w, fetchActiveContracts (f.usecase w).maxHttpResponseBytes f.exchange = .ok batch
  allows : ∀ w b, f.circuitBreaker w = some b → b.state = .closed

/-- The worker's cache holds the batch as it admits it. -/
def Holds (batch : List Json) (w : Worker) (σ : SyncState) : Prop :=
  (f.usecase w).Primed batch (f.fresh w).schemaStorage σ.schemaStorage

/-- Every worker that has finished its boot holds the batch. -/
def Booted (batch : List Json) (s : BootState Worker) : Prop :=
  ∀ w n, (s.worker w).phase = .finished (.ok n) → f.Holds batch w (s.worker w).process

/-- The worker's cache has room for what it admits of the batch, where no
entry makes it raise. -/
structure Room (batch : List Json) (w : Worker) : Prop where
  none_of_zero : f.capacity w = 0 → ∀ id schema, ¬ (f.usecase w).Admitted batch id schema
  fits : (∀ c ∈ batch, (f.usecase w).Passable c) →
    ((f.usecase w).keysWith batch (f.fresh w).schemaStorage).card ≤ f.capacity w

/-- The worker of an event, should it be about to finish, can finish with
the batch. -/
structure Supplied (batch : List Json) (e : BootEvent Worker) (s : BootState Worker) : Prop where
  /-- A snapshot is there to load, unless the worker admits nothing of the batch. -/
  written : (s.worker e.worker).phase = .loading →
    (∃ id schema, (f.usecase e.worker).Admitted batch id schema) → s.disk ≠ .absent
  room : (s.worker e.worker).phase = .loading ∨
      (∃ n, (s.worker e.worker).phase = .releasing (.ok n)) → f.Room batch e.worker

/-! ## What a stage does -/

variable {f} {batch : List Json} {w : Worker} {σ : SyncState}

omit [DecidableEq Worker] [Host] in
/-- A worker of a healthy boot fetches the batch. -/
theorem Healthy.fetch (h : f.Healthy batch) (e : BootEvent Worker)
    (hσ : σ.circuitBreaker = f.circuitBreaker w) :
    ((f.usecase w).fetch (f.outside e) σ).1 = .ok (some batch, true) := by
  have hallows : ((f.usecase w).breakerAllows σ).1 = true := by
    unfold breakerAllows
    rw [hσ]
    rcases hb : f.circuitBreaker w with _ | b
    · rfl
    · have hclosed : (b.maybeHalfOpen ((f.usecase w).clock σ.instants)).state = .closed :=
        CircuitBreaker.maybeHalfOpen_closed_iff.mpr (h.allows w b hb)
      simp only [CircuitBreaker.allow_of_closed hclosed]
  have hdelivers := h.delivers w
  have hfresh : ¬ (f.usecase w).FallsBack (f.outside e) σ := by
    rintro (hrefused | hsync)
    · rw [hallows] at hrefused
      cases hrefused
    · rw [outside, hdelivers] at hsync
      cases hsync
  rw [(fetch_of_not_fallsBack hfresh).2, outside, hdelivers]
  rfl

omit [DecidableEq Worker] in
/-- Where nothing is admitted there is nothing to hold. -/
theorem holds_of_none (hnone : ∀ id schema, ¬ (f.usecase w).Admitted batch id schema)
    (hσ : σ.schemaStorage = (f.fresh w).schemaStorage) : f.Holds batch w σ where
  admitted id schema hlast := absurd hlast.admitted (hnone id schema)
  other id _ := by rw [hσ]

omit [DecidableEq Worker] in
/-- An empty cache holds no batch of which anything is admitted. -/
theorem none_of_holds (hσ : σ.schemaStorage = (f.fresh w).schemaStorage)
    (h : f.Holds batch w σ) (id schema : Json) : ¬ (f.usecase w).Admitted batch id schema := by
  intro hadmitted
  obtain ⟨schema', hlast⟩ := exists_lastAdmitted hadmitted
  have hmapped := h.admitted id schema' hlast
  rw [hσ, fresh, mapped_new] at hmapped
  cases hmapped

omit [DecidableEq Worker] in
/-- A key of the batch is that of an admitted id. -/
theorem admitted_of_mem_keysWith {key : Json.Key}
    (h : key ∈ (f.usecase w).keysWith batch (f.fresh w).schemaStorage) :
    ∃ id schema, (f.usecase w).Admitted batch id schema ∧ id.hash? = some key := by
  rw [keysWith, List.mem_toFinset, List.mem_append] at h
  rcases h with hstored | hwritten
  · exact absurd hstored List.not_mem_nil
  · obtain ⟨⟨key, schema⟩, hw, rfl⟩ := List.mem_map.mp hwritten
    obtain ⟨contract, hcontract, hwrite⟩ := List.mem_filterMap.mp hw
    obtain ⟨id, hentry, hkey⟩ := writeOf_eq_some_iff.mp hwrite
    exact ⟨id, schema, ⟨contract, hcontract, id, hentry, .inl rfl⟩, hkey⟩

omit [DecidableEq Worker] in
theorem room_of_none (hnone : ∀ id schema, ¬ (f.usecase w).Admitted batch id schema) :
    f.Room batch w where
  none_of_zero _ := hnone
  fits _ := by
    have hempty : (f.usecase w).keysWith batch (f.fresh w).schemaStorage = ∅ := by
      refine Finset.eq_empty_iff_forall_notMem.mpr fun key hkey => ?_
      obtain ⟨id, schema, hadmitted, -⟩ := admitted_of_mem_keysWith hkey
      exact hnone id schema hadmitted
    rw [hempty]
    exact Nat.zero_le _

omit [DecidableEq Worker] in
/-- A cache that holds the batch stores a key for each of its ids. -/
theorem card_le_of_holds (h : f.Holds batch w σ) :
    ((f.usecase w).keysWith batch (f.fresh w).schemaStorage).card ≤ σ.schemaStorage.size := by
  have hstored : (f.usecase w).keysWith batch (f.fresh w).schemaStorage ⊆
      σ.schemaStorage.keyToValue.keys.toFinset := by
    intro key hkey
    obtain ⟨id, schema, hadmitted, hid⟩ := admitted_of_mem_keysWith hkey
    obtain ⟨schema', hlast⟩ := exists_lastAdmitted hadmitted
    have hmapped := h.admitted id schema' hlast
    rw [LFUCache.mapped, hid, Option.bind_some] at hmapped
    obtain ⟨entry, hentry, -⟩ := Option.map_eq_some_iff.mp hmapped
    exact List.mem_toFinset.mpr
      (AList.mem_keys.mp (LFUCache.mem_keyToValue_iff.mpr ⟨entry, hentry⟩))
  refine le_trans (Finset.card_le_card hstored) (List.toFinset_card_le _)

omit [DecidableEq Worker] in
/-- **A cache the loop got through holds the batch exactly where it has room.** -/
theorem primeCache_holds_iff (hσ : σ.schemaStorage = (f.fresh w).schemaStorage) {n : ℕ}
    {σ' : SyncState} (hprime : (f.usecase w).primeCache batch 0 σ = (.ok n, σ')) :
    (∀ c ∈ batch, c.isObj = true) ∧ (f.Holds batch w σ' ↔ f.Room batch w) := by
  have hwf : σ.schemaStorage.WellFormed := by
    rw [hσ]
    exact LFUCache.wellFormed_new _ _
  have hcapacity : σ.schemaStorage.capacity = f.capacity w := by rw [hσ]; rfl
  by_cases hcap : f.capacity w = 0
  · obtain ⟨hagree, hok⟩ := primeCache_zero (u := f.usecase w) (hcapacity.trans hcap) batch 0
    rw [hprime] at hagree hok
    have hσ' : σ'.schemaStorage = (f.fresh w).schemaStorage := hagree.schemaStorage_eq.trans hσ
    refine ⟨hok.mp ⟨n, rfl⟩, fun h => ?_, fun h => holds_of_none (h.none_of_zero hcap) hσ'⟩
    exact room_of_none (none_of_holds hσ' h)
  · have hcases := primeCache_cases (u := f.usecase w) hwf (hcapacity ▸ hcap) batch 0
    rw [hprime] at hcases
    cases hcases with
    | done hpass hagree =>
      refine ⟨fun c hc => (hpass c hc).1, fun h => ⟨fun hzero => absurd hzero hcap, fun _ => ?_⟩,
        fun h => ?_⟩
      · have hsize := run_write_size_le (u := f.usecase w) hwf (hcapacity ▸ hcap)
          (by rw [hσ]; exact Nat.zero_le _) ((f.usecase w).writesOf batch)
        rw [← hagree.schemaStorage_eq, hcapacity] at hsize
        exact le_trans (card_le_of_holds h) hsize
      · have hfits : σ.schemaStorage.Fits ((f.usecase w).keysWith batch σ.schemaStorage) := by
          refine ⟨hwf, fun key hkey => ?_, ?_⟩
          · rw [hσ] at hkey
            exact absurd hkey (AList.notMem_empty key)
          · rw [hcapacity, hσ]
            exact h.fits hpass
        have hprimed := primed_of_run hfits hpass
        rwa [hσ, ← hagree.schemaStorage_eq] at hprimed

omit [DecidableEq Worker] in
/-- A batch there is no room for is got through. -/
theorem primeCache_ok_of_not_room (hσ : σ.schemaStorage = (f.fresh w).schemaStorage)
    (hobj : ∀ c ∈ batch, c.isObj = true) (h : ¬ f.Room batch w) :
    ∃ n, ((f.usecase w).primeCache batch 0 σ).1 = .ok n := by
  have hcapacity : σ.schemaStorage.capacity = f.capacity w := by rw [hσ]; rfl
  by_cases hcap : f.capacity w = 0
  · exact (primeCache_zero (u := f.usecase w) (hcapacity.trans hcap) batch 0).2.mpr hobj
  · have hpassable : ∀ c ∈ batch, (f.usecase w).Passable c := by
      by_contra hnot
      exact h ⟨fun hzero => absurd hzero hcap, fun hpass => absurd hpass hnot⟩
    have hwf : σ.schemaStorage.WellFormed := by
      rw [hσ]
      exact LFUCache.wellFormed_new _ _
    have hcases := primeCache_cases (u := f.usecase w) hwf (hcapacity ▸ hcap) batch 0
    generalize (f.usecase w).primeCache batch 0 σ = out at hcases
    cases hcases with
    | done => exact ⟨_, rfl⟩
    | stopped hsplit hpass _ => exact absurd (hpassable _ (by rw [hsplit]; simp)) hpass

section Loaded

variable {fetchedAt : String} (o : Outside) (hσ : σ.schemaStorage = (f.fresh w).schemaStorage)
  (hne : batch ≠ []) (hobj : ∀ c ∈ batch, c.isObj = true)
  (hdisk : σ.snapshot = .decoded (snapshotEnvelope batch fetchedAt))

include hne hobj hdisk

omit [DecidableEq Worker] in
/-- Loading the snapshot of the batch primes the cache with it. -/
theorem loadSnapshotOnly_eq :
    ((f.usecase w).loadSnapshotOnly o σ).1 = ((f.usecase w).primeCache batch 0 σ).1 ∧
      ((f.usecase w).loadSnapshotOnly o σ).2.schemaStorage =
        ((f.usecase w).primeCache batch 0 σ).2.schemaStorage := by
  have heq : (f.usecase w).loadSnapshotOnly o σ =
      (f.usecase w).applyContracts (some batch) false o σ := by
    unfold SyncContractsUseCase.loadSnapshotOnly
    rw [hdisk, loadSnapshot_envelope hne hobj]
  rw [heq, applyContracts_eq]
  exact ⟨returnedAfter_stale _ _ _, rfl⟩

include hσ

omit [DecidableEq Worker] in
theorem loadSnapshotOnly_holds_iff {n : ℕ}
    (hload : ((f.usecase w).loadSnapshotOnly o σ).1 = .ok n) :
    f.Holds batch w ((f.usecase w).loadSnapshotOnly o σ).2 ↔ f.Room batch w := by
  obtain ⟨hresult, hstorage⟩ := loadSnapshotOnly_eq (f := f) (w := w) o hne hobj hdisk
  have hprime : (f.usecase w).primeCache batch 0 σ =
      (.ok n, ((f.usecase w).primeCache batch 0 σ).2) := Prod.ext (hresult.symm.trans hload) rfl
  rw [Holds, hstorage]
  exact (primeCache_holds_iff hσ hprime).2

omit [DecidableEq Worker] in
theorem loadSnapshotOnly_ok_of_not_room (h : ¬ f.Room batch w) :
    ∃ n, ((f.usecase w).loadSnapshotOnly o σ).1 = .ok n := by
  rw [(loadSnapshotOnly_eq (f := f) (w := w) o hne hobj hdisk).1]
  exact primeCache_ok_of_not_room hσ hobj h

end Loaded

omit [DecidableEq Worker] in
theorem loadSnapshotOnly_absent (o : Outside) (hdisk : σ.snapshot = .absent) :
    (f.usecase w).loadSnapshotOnly o σ = (.ok 0, σ) := by
  unfold SyncContractsUseCase.loadSnapshotOnly
  rw [hdisk]
  rfl

/-! ## The invariant -/

variable (f) (batch) in
/-- The snapshot is the batch's, once there is one. -/
def DiskOk (disk : SnapshotFile) : Prop :=
  disk = .absent ∨ batch ≠ [] ∧ (∀ c ∈ batch, c.isObj = true) ∧
    ∃ fetchedAt, disk = .decoded (snapshotEnvelope batch fetchedAt)

variable (f) (batch) in
/-- A worker up to its end: nothing is cached before it primes, and what it
saves or leaves with is the batch, as far as there is room. -/
def WorkerOk (w : Worker) (x : BootWorker) : Prop :=
  match x.phase with
  | .starting | .fetching | .loading =>
    x.process.schemaStorage = (f.fresh w).schemaStorage ∧
      x.process.circuitBreaker = f.circuitBreaker w
  | .priming contracts fetched =>
    contracts = some batch ∧ fetched = true ∧
      x.process.schemaStorage = (f.fresh w).schemaStorage
  | .saving contracts _ =>
    contracts = batch ∧ batch ≠ [] ∧ (∀ c ∈ batch, c.isObj = true) ∧
      (f.Holds batch w x.process ↔ f.Room batch w)
  | .releasing (.ok _) => f.Holds batch w x.process ↔ f.Room batch w
  | .releasing (.error _) | .finished _ => True

variable (f) (batch) in
structure Inv (s : BootState Worker) : Prop where
  disk : DiskOk batch s.disk
  worker : ∀ w, f.WorkerOk batch w (s.worker w)

variable {s : BootState Worker} {phase : BootPhase} {process : SyncState}

/-- One worker moves, and the snapshot is the batch's still. -/
theorem Inv.put (hs : f.Inv batch s) (hw : f.WorkerOk batch w { phase, process })
    {disk : SnapshotFile} (hdisk : DiskOk batch disk) (lock : Option Worker) :
    f.Inv batch { put s w phase process with disk, lock } := by
  refine ⟨hdisk, fun w' => ?_⟩
  by_cases hw' : w' = w
  · subst hw'
    simpa [Fleet.put] using hw
  · simpa [Fleet.put, hw'] using hs.worker w'

omit [DecidableEq Worker] in
theorem inv_init : f.Inv batch f.init := ⟨.inl rfl, fun _ => ⟨rfl, rfl⟩⟩

/-- The batch is fetched. -/
theorem Inv.step_fetching (h : f.Healthy batch) {e : BootEvent Worker} (hs : f.Inv batch s)
    (hphase : (s.worker e.worker).phase = .fetching) : f.Inv batch (f.step e s) := by
  have hw := hs.worker e.worker
  rw [WorkerOk, hphase] at hw
  have hfetch := h.fetch (σ := { (s.worker e.worker).process with snapshot := s.disk }) e hw.2
  have hagree := (f.usecase e.worker).fetch_agrees (f.outside e)
    { (s.worker e.worker).process with snapshot := s.disk }
  simp only [Fleet.step, hphase]
  split
  · rename_i heq
    rw [heq] at hfetch
    cases hfetch
  · rename_i contracts fetched σ' heq
    rw [heq] at hfetch hagree
    obtain ⟨rfl, rfl⟩ := Prod.mk.inj (Except.ok.inj hfetch)
    refine hs.put ?_ hs.disk _
    exact ⟨rfl, rfl, hagree.schemaStorage_eq.trans hw.1⟩

/-- Priming holds the batch where there is room, and goes on to save it. -/
theorem Inv.primed (hs : f.Inv batch s) (hσ : σ.schemaStorage = (f.fresh w).schemaStorage) :
    f.Inv batch (f.primed (some batch) true s w σ) := by
  unfold Fleet.primed
  split
  · rename_i heq
    cases heq
  · rename_i heq
    obtain rfl := Option.some.inj heq
    refine hs.put ?_ hs.disk _
    have hnone : ∀ id schema, ¬ (f.usecase w).Admitted [] id schema :=
      fun id schema ⟨c, hc, _⟩ => List.not_mem_nil hc
    exact iff_of_true (holds_of_none hnone hσ) (room_of_none hnone)
  · rename_i contracts hne heq
    obtain rfl := Option.some.inj heq
    split
    · refine hs.put ?_ hs.disk _
      trivial
    · rename_i loaded σ' hprime
      obtain ⟨hobj, hholds⟩ := primeCache_holds_iff hσ hprime
      refine hs.put ?_ hs.disk _
      exact ⟨rfl, fun hnil => hne (by rw [hnil]), hobj, hholds⟩

/-- What is saved is the batch. -/
theorem Inv.step_saving {e : BootEvent Worker} (hs : f.Inv batch s) {contracts : List Json}
    {loaded : ℕ} (hphase : (s.worker e.worker).phase = .saving contracts loaded) :
    f.Inv batch (f.step e s) := by
  have hw := hs.worker e.worker
  rw [WorkerOk, hphase] at hw
  obtain ⟨hcontracts, hne, hobj, hholds⟩ := hw
  simp only [Fleet.step, hphase, hcontracts]
  unfold saveSnapshot
  rcases e.save with _ | _ | exc
  · refine hs.put ?_ (.inr ⟨hne, hobj, e.fetchedAt, rfl⟩) _
    exact hholds
  · refine hs.put ?_ hs.disk _
    exact hholds
  · refine hs.put ?_ hs.disk _
    rcases exc.isOSError with _ | _
    · trivial
    · exact hholds

/-- **Every step keeps the invariant.** -/
theorem Inv.step (h : f.Healthy batch) (e : BootEvent Worker) (hs : f.Inv batch s) :
    f.Inv batch (f.step e s) := by
  have hw := hs.worker e.worker
  cases hphase : (s.worker e.worker).phase with
  | starting =>
    rw [WorkerOk, hphase] at hw
    simp only [Fleet.step, hphase]
    split
    · refine hs.put ?_ hs.disk _
      exact hw
    · refine hs.put ?_ hs.disk _
      exact hw
  | fetching => exact hs.step_fetching h hphase
  | priming contracts fetched =>
    rw [WorkerOk, hphase] at hw
    obtain ⟨rfl, rfl, hfresh⟩ := hw
    simp only [Fleet.step, hphase]
    exact hs.primed hfresh
  | saving contracts loaded => exact hs.step_saving hphase
  | releasing result =>
    simp only [Fleet.step, hphase]
    refine hs.put ?_ hs.disk _
    trivial
  | loading =>
    simp only [Fleet.step, hphase]
    refine hs.put ?_ hs.disk _
    trivial
  | finished result => simpa only [Fleet.step, hphase] using hs

/-! ## How a worker finishes -/

/-- A step is its worker's alone. -/
theorem step_other {e : BootEvent Worker} (hw : w ≠ e.worker) :
    (f.step e s).worker w = s.worker w := by
  unfold Fleet.step
  dsimp only
  split
  · split <;> exact put_other hw
  · split <;> exact put_other hw
  · unfold primed
    split
    · exact put_other hw
    · exact put_other hw
    · split <;> exact put_other hw
  · split <;> exact put_other hw
  · exact put_other hw
  · exact put_other hw
  · rfl

variable (f) in
/-- What the worker of an event would load. -/
def loads (e : BootEvent Worker) (s : BootState Worker) : Except Exc ℕ × SyncState :=
  (f.usecase e.worker).loadSnapshotOnly (f.outside e)
    { (s.worker e.worker).process with snapshot := s.disk }

/-- **A worker ends** by letting go of the lock, or by loading the snapshot. -/
theorem finished_cases {e : BootEvent Worker} {n : ℕ}
    (h : ((f.step e s).worker e.worker).phase = .finished (.ok n)) :
    (s.worker e.worker).phase = .finished (.ok n) ∧
        (f.step e s).worker e.worker = s.worker e.worker ∨
      (s.worker e.worker).phase = .releasing (.ok n) ∧
        ((f.step e s).worker e.worker).process.schemaStorage =
          (s.worker e.worker).process.schemaStorage ∨
      (s.worker e.worker).phase = .loading ∧ (f.loads e s).1 = .ok n ∧
        ((f.step e s).worker e.worker).process = (f.loads e s).2 := by
  unfold Fleet.step at h ⊢
  dsimp only at h ⊢
  split at h
  · split at h <;> simp [Fleet.put] at h
  · split at h <;> simp [Fleet.put] at h
  · unfold primed at h
    split at h
    · simp [Fleet.put] at h
    · simp [Fleet.put] at h
    · split at h
      · simp [Fleet.put] at h
      · split at h <;> simp [Fleet.put] at h
  · split at h <;> simp [Fleet.put] at h
  · rename_i result hphase
    simp only [put_self, BootPhase.finished.injEq] at h
    refine .inr (.inl ⟨by rw [hphase, h], ?_⟩)
    simp only [put_self]
  · rename_i hphase
    simp only [put_self, BootPhase.finished.injEq] at h
    refine .inr (.inr ⟨hphase, h, ?_⟩)
    simp only [put_self, loads]
  · exact .inl ⟨h, rfl⟩

theorem step_loading {e : BootEvent Worker} (hphase : (s.worker e.worker).phase = .loading) :
    (f.step e s).worker e.worker = ⟨.finished (f.loads e s).1, (f.loads e s).2⟩ := by
  unfold Fleet.step
  simp only [hphase, put_self, loads]

theorem step_releasing {e : BootEvent Worker} {result : Except Exc ℕ}
    (hphase : (s.worker e.worker).phase = .releasing result) :
    (f.step e s).worker e.worker =
      ⟨.finished result, { (s.worker e.worker).process with snapshot := s.disk }⟩ := by
  unfold Fleet.step
  simp only [hphase, put_self]

/-- **A supplied step leaves every finished worker with the batch.** -/
theorem Booted.step (hs : f.Inv batch s) {e : BootEvent Worker} (hsupplied : f.Supplied batch e s)
    (hboot : f.Booted batch s) : f.Booted batch (f.step e s) := by
  intro w n hfinished
  by_cases hw : w = e.worker
  · subst hw
    have hworker := hs.worker e.worker
    obtain ⟨hphase, hsame⟩ | ⟨hphase, hsame⟩ | ⟨hphase, hload, hsame⟩ := finished_cases hfinished
    · rw [hsame]
      exact hboot _ n hphase
    · rw [WorkerOk, hphase] at hworker
      unfold Holds
      rw [hsame]
      exact hworker.mpr (hsupplied.room (.inr ⟨n, hphase⟩))
    · rw [WorkerOk, hphase] at hworker
      rw [hsame]
      rcases hs.disk with habsent | ⟨hne, hobj, fetchedAt, hdisk⟩
      · have hsame :
            f.loads e s = (.ok 0, { (s.worker e.worker).process with snapshot := s.disk }) :=
          loadSnapshotOnly_absent (f.outside e) habsent
        rw [hsame]
        refine holds_of_none (fun id schema hadmitted => ?_) hworker.1
        exact hsupplied.written hphase ⟨id, schema, hadmitted⟩ habsent
      · exact (loadSnapshotOnly_holds_iff (f.outside e)
          (σ := { (s.worker e.worker).process with snapshot := s.disk }) hworker.1 hne hobj hdisk
          hload).mpr (hsupplied.room (.inl hphase))
  · rw [step_other hw] at hfinished ⊢
    exact hboot w n hfinished

/-- A worker that loads before there is a snapshot finishes with nothing,
and one without room loses some of what it admits. -/
theorem Booted.supplied (hs : f.Inv batch s) {e : BootEvent Worker}
    (hboot : f.Booted batch (f.step e s)) : f.Supplied batch e s := by
  have hworker := hs.worker e.worker
  have hwritten : (s.worker e.worker).phase = .loading →
      (∃ id schema, (f.usecase e.worker).Admitted batch id schema) → s.disk ≠ .absent := by
    rintro hphase ⟨id, schema, hadmitted⟩ habsent
    rw [WorkerOk, hphase] at hworker
    have hsame : f.loads e s = (.ok 0, { (s.worker e.worker).process with snapshot := s.disk }) :=
      loadSnapshotOnly_absent (f.outside e) habsent
    have hholds := hboot e.worker 0 (by rw [step_loading hphase, hsame])
    rw [step_loading hphase, hsame] at hholds
    exact none_of_holds (σ := { (s.worker e.worker).process with snapshot := s.disk }) hworker.1
      hholds id schema hadmitted
  refine ⟨hwritten, ?_⟩
  rintro (hphase | ⟨n, hphase⟩)
  · rw [WorkerOk, hphase] at hworker
    rcases hs.disk with habsent | ⟨hne, hobj, fetchedAt, hdisk⟩
    · exact room_of_none fun id schema hadmitted =>
        hwritten hphase ⟨id, schema, hadmitted⟩ habsent
    · by_contra hroom
      obtain ⟨n, hload⟩ := loadSnapshotOnly_ok_of_not_room (f.outside e)
        (σ := { (s.worker e.worker).process with snapshot := s.disk }) hworker.1 hne hobj hdisk
        hroom
      have hholds := hboot e.worker n (by rw [step_loading hphase, loads, hload])
      rw [step_loading hphase] at hholds
      exact hroom ((loadSnapshotOnly_holds_iff (f.outside e)
        (σ := { (s.worker e.worker).process with snapshot := s.disk }) hworker.1 hne hobj hdisk
        hload).mp hholds)
  · rw [WorkerOk, hphase] at hworker
    have hholds := hboot e.worker n (by rw [step_releasing hphase])
    rw [step_releasing hphase] at hholds
    exact hworker.mp hholds

/-! ## Over every interleaving -/

/-- **Who boots with the contracts.** Over a healthy control plane, in any
interleaving of any number of workers, every worker that finishes its boot
holds the fetched batch as it admits it, if and only if each one that does
not get the lock finds the snapshot written when it loads it, or admits
nothing of the batch, and each has room in its cache for what it admits. -/
theorem booted_iff_supplied (h : f.Healthy batch) (events : List (BootEvent Worker)) :
    Along f.step (fun e s => f.Booted batch (f.step e s)) events f.init ↔
      Along f.step (f.Supplied batch) events f.init := by
  constructor
  · intro hrun
    exact along_of_invariant (fun e s _ hs => Inv.step h e hs)
      (fun e s hboot hs => Booted.supplied hs hboot) hrun inv_init
  · intro hrun
    have hstep : ∀ e s, f.Supplied batch e s → f.Inv batch s ∧ f.Booted batch s →
        f.Inv batch (f.step e s) ∧ f.Booted batch (f.step e s) :=
      fun e s hsupplied hs => ⟨Inv.step h e hs.1, Booted.step hs.1 hsupplied hs.2⟩
    exact along_of_invariant hstep (fun e s hsupplied hs => (hstep e s hsupplied hs).2) hrun
      ⟨inv_init, fun w n hphase => by cases hphase⟩

/-- **A worker on its own boots as `syncOnce` does**, whatever comes of its
five steps. -/
theorem boot_alone {e : BootEvent Worker} (hphase : (s.worker e.worker).phase = .starting)
    (hlock : s.lock = none) :
    let out := (f.usecase e.worker).syncOnce (f.outside e)
      { (s.worker e.worker).process with snapshot := s.disk }
    let s' := run f.step [e, e, e, e, e] s
    (s'.worker e.worker).phase = .finished out.1 ∧
      (s'.worker e.worker).process.schemaStorage = out.2.schemaStorage ∧
      s'.disk = out.2.snapshot ∧ s'.lock = none := by
  dsimp only
  have hagree := (f.usecase e.worker).fetch_agrees (f.outside e)
    { (s.worker e.worker).process with snapshot := s.disk }
  have hstart : f.step e s = { put s e.worker .fetching
      { (s.worker e.worker).process with snapshot := s.disk } with lock := some e.worker } := by
    simp only [Fleet.step, hphase, hlock]
  rw [run_cons, hstart]
  rcases hfetch : (f.usecase e.worker).fetch (f.outside e)
    { (s.worker e.worker).process with snapshot := s.disk } with ⟨exc | ⟨contracts, fetched⟩, σ⟩
  all_goals
    rw [hfetch] at hagree
    have hdisk : σ.snapshot = s.disk := hagree.snapshot_eq
  · simp [Fleet.step, put, hfetch, syncOnce, hdisk]
  · have hsame : { σ with snapshot := s.disk } = σ := by rw [← hdisk]
    rcases contracts with _ | _ | ⟨c, cs⟩
    · simp [Fleet.step, put, hfetch, syncOnce, primed, applyContracts, hdisk]
    · simp [Fleet.step, put, hfetch, syncOnce, primed, applyContracts, hdisk]
    · have hkept := primeCache_snapshot (u := f.usecase e.worker) (c :: cs) 0 σ
      rcases hprime : (f.usecase e.worker).primeCache (c :: cs) 0 σ with ⟨exc | loaded, σ'⟩
      all_goals
        rw [hprime] at hkept
        have hdisk' : σ'.snapshot = s.disk := hkept.trans hdisk
      · simp [Fleet.step, put, hfetch, syncOnce, primed, applyContracts, hsame, hprime, hdisk']
      · rcases fetched with _ | _
        · simp [Fleet.step, put, hfetch, syncOnce, primed, applyContracts, hsame, hprime, hdisk']
        · simp only [syncOnce, hfetch, applyContracts, hprime, if_true, hdisk', outside_save,
            outside_fetchedAt]
          rcases hsave : saveSnapshot (c :: cs) e.fetchedAt e.save s.disk with exc | disk
          · rcases hos : exc.isOSError with _ | _ <;>
              simp [Fleet.step, put, hfetch, primed, hsame, hprime, hsave, hos, hdisk']
          · simp [Fleet.step, put, hfetch, primed, hsame, hprime, hsave]

end Host

/-! ## Workers that boot together -/

/-- Any number of like workers, and one contract. -/
def ordersFleet : Fleet ℕ where
  usecase _ := everyInterval
  capacity _ := 500
  ttlSeconds _ := 300
  circuitBreaker _ := none
  exchange := (deliver [ordersContract]).exchange

theorem healthy_ordersFleet : ordersFleet.Healthy [ordersContract] where
  delivers _ := rfl
  allows _ _ h := by cases h

theorem room_ordersFleet (w : ℕ) : @Room ℕ ordersFleet Host.literal [ordersContract] w := by
  let _ := Host.literal
  have hcard : (everyInterval.keysWith [ordersContract]
      ({ capacity := 500, ttlSeconds := 300 } : LFUCache Json.Key Json)).card ≤ 500 := by
    decide +kernel
  exact ⟨fun hzero => absurd hzero (Nat.succ_ne_zero 499), fun _ => hcard⟩

/-- The second worker loads what the first has saved. -/
theorem booted_iff_supplied_orders :
    Along (@Fleet.step ℕ ordersFleet _ Host.literal)
      (fun e s => @Booted ℕ ordersFleet Host.literal [ordersContract]
        (@Fleet.step ℕ ordersFleet _ Host.literal e s))
      [{ worker := 0 }, { worker := 1 }, { worker := 0 }, { worker := 0 }, { worker := 0 },
        { worker := 1 }, { worker := 0 }] ordersFleet.init := by
  let _ := Host.literal
  have hidle : ∀ {x : BootPhase}, (match x with | .loading => false | _ => true) = true →
      x ≠ .loading := by
    rintro x hx rfl
    cases hx
  have hwritten : ∀ {x : SnapshotFile}, (match x with | .decoded _ => true | _ => false) = true →
      x ≠ .absent := by
    rintro x hx rfl
    cases hx
  refine (booted_iff_supplied healthy_ordersFleet _).mpr
    ⟨⟨fun h => ?_, fun _ => room_ordersFleet 0⟩, ⟨fun h => ?_, fun _ => room_ordersFleet 1⟩,
      ⟨fun h => ?_, fun _ => room_ordersFleet 0⟩, ⟨fun h => ?_, fun _ => room_ordersFleet 0⟩,
      ⟨fun h => ?_, fun _ => room_ordersFleet 0⟩, ⟨fun _ _ => ?_, fun _ => room_ordersFleet 1⟩,
      ⟨fun h => ?_, fun _ => room_ordersFleet 0⟩, trivial⟩
  · exact absurd h (hidle (by decide +kernel))
  · exact absurd h (hidle (by decide +kernel))
  · exact absurd h (hidle (by decide +kernel))
  · exact absurd h (hidle (by decide +kernel))
  · exact absurd h (hidle (by decide +kernel))
  · exact hwritten (by decide +kernel)
  · exact absurd h (hidle (by decide +kernel))

/-- The second worker finds the lock taken and loads before the first has
even fetched: it finishes with an empty cache. -/
theorem boots_empty :
    ¬ Along (@Fleet.step ℕ ordersFleet _ Host.literal)
      (fun e s => @Booted ℕ ordersFleet Host.literal [ordersContract]
        (@Fleet.step ℕ ordersFleet _ Host.literal e s))
      [{ worker := 0 }, { worker := 1 }, { worker := 1 }] ordersFleet.init := by
  let _ := Host.literal
  rintro ⟨-, -, hboot, -⟩
  have hholds := hboot 1 0 rfl
  have hentry : everyInterval.admittedEntry ordersContract =
      some (.str "orders", .obj [("required", .arr [.str "id"])]) := by decide +kernel
  have hmapped := hholds.admitted (.str "orders") (.obj [("required", .arr [.str "id"])])
    ⟨[], ordersContract, [], _, rfl, hentry, .inl rfl, fun _ ⟨_, hmem, _⟩ => List.not_mem_nil hmem⟩
  revert hmapped
  decide +kernel

end Fleet

end Congine
