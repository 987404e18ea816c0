import Congine.UseCases.LastKnownGood
/-!
# Restarting while the control plane is away

The cache takes from a batch what admission lets through, the snapshot
takes the batch as it came. A process that restarts on the snapshot alone
finds under an id what it held before exactly where the last fetched batch
holds an admitted entry of the id; a version whose update was refused is
not on disk any more.
-/

namespace Congine

namespace SyncContractsUseCase

/-- The batch a pass fetches, if it fetches one that is not empty. -/
def freshBatch : Except Exc (Option (List Json) × Bool) → Option (List Json)
  | .ok (some (c :: cs), true) => some (c :: cs)
  | _ => none

theorem freshBatch_eq_some_iff {batch : List Json}
    {result : Except Exc (Option (List Json) × Bool)} :
    freshBatch result = some batch ↔ result = .ok (some batch, true) ∧ batch ≠ [] := by
  constructor
  · intro h
    unfold freshBatch at h
    split at h
    · obtain rfl := Option.some.inj h
      exact ⟨rfl, List.cons_ne_nil _ _⟩
    · cases h
  · rintro ⟨rfl, hne⟩
    obtain ⟨c, cs, rfl⟩ := List.exists_cons_of_ne_nil hne
    rfl

/-- The state a restarted process syncs from first. -/
def restarted (capacity : ℕ) (ttlSeconds : ℤ) (breaker : Option CircuitBreaker) (σ : SyncState) :
    SyncState where
  schemaStorage := { capacity, ttlSeconds }
  circuitBreaker := breaker
  snapshot := σ.snapshot

/-- Nothing is mapped in a cache just made. -/
theorem mapped_new (capacity : ℕ) (ttlSeconds : ℤ) (id : Json) :
    ({ capacity, ttlSeconds } : LFUCache Json.Key Json).mapped id = none := by
  unfold LFUCache.mapped
  cases id.hash? with
  | none => rfl
  | some key => rfl

section Host

variable [Host] (u : SyncContractsUseCase)

def fetchedBy : SyncEvent → SyncState → Option (List Json)
  | .pass o, σ => freshBatch (u.fetch o σ).1
  | _, _ => none

/-- The last batch a run fetches. -/
def lastFetched : List SyncEvent → SyncState → Option (List Json)
  | [], _ => none
  | e :: es, σ => (lastFetched es (u.step e σ)).or (u.fetchedBy e σ)

/-- A batch that is fetched is one the loop gets past, and its snapshot is
written. -/
def Persists : SyncEvent → SyncState → Prop
  | .pass o, σ => ∀ batch, u.fetchedBy (.pass o) σ = some batch →
      (∀ c ∈ batch, u.Passable c) ∧ o.save = .written
  | _, _ => True

/-- The batch is on disk as it came, and the store agrees with it. -/
structure Mirrors (batch : List Json) (σ : SyncState) : Prop where
  snapshot : loadSnapshot σ.snapshot = .ok (some batch)
  passable : ∀ c ∈ batch, u.Passable c
  entry_last : ∀ key schema, lastWrite key (u.writesOf batch) = some schema →
    ∀ entry, σ.schemaStorage.stored? key = some entry → entry.1 = schema

/-- The cache is sound, and the last fetched batch is mirrored. -/
structure Persisted (last : Option (List Json)) (σ : SyncState) : Prop where
  wellFormed : σ.schemaStorage.WellFormed
  capacity_ne : σ.schemaStorage.capacity ≠ 0
  mirrors : ∀ batch, last = some batch → u.Mirrors batch σ

variable {u} {σ σ' : SyncState} {batch : List Json}

/-! ## What the two stores agree on -/

theorem Mirrors.of_entries (h : u.Mirrors batch σ) (hsnapshot : σ'.snapshot = σ.snapshot)
    (hentries : ∀ key entry, σ'.schemaStorage.stored? key = some entry →
      σ.schemaStorage.stored? key = some entry) : u.Mirrors batch σ' where
  snapshot := by rw [hsnapshot, h.snapshot]
  passable := h.passable
  entry_last key schema hlast entry hentry :=
    h.entry_last key schema hlast entry (hentries key entry hentry)

/-- A batch the loop gets past leaves under each key it writes its last
write. -/
theorem entry_last_of_passable (hwf : σ.schemaStorage.WellFormed)
    (hcap : σ.schemaStorage.capacity ≠ 0) {o : Outside} {σ₂ : SyncState}
    (hσ₂ : (run u.write (u.writesOf (u.delivered o σ)) (u.fetch o σ).2).Agrees σ₂)
    {key : Json.Key} {schema : Json}
    (hlast : lastWrite key (u.writesOf (u.delivered o σ)) = some schema) {entry : Json × ℚ}
    (hentry : σ₂.schemaStorage.stored? key = some entry) : entry.1 = schema := by
  have hagree := u.fetch_agrees o σ
  rw [hσ₂.schemaStorage_eq] at hentry
  exact (run_write_spec (u := u) (hagree.wellFormed hwf) (hagree.capacity_ne hcap)
    (u.writesOf (u.delivered o σ))).entry_last key schema hlast entry hentry

/-- **A pass mirrors the batch it fetches.** -/
theorem mirrors_of_fetched (hwf : σ.schemaStorage.WellFormed)
    (hcap : σ.schemaStorage.capacity ≠ 0) {o : Outside}
    (hfetched : u.fetchedBy (.pass o) σ = some batch) (hpass : ∀ c ∈ batch, u.Passable c)
    (hsave : o.save = .written) : u.Mirrors batch (u.syncOnce o σ).2 := by
  obtain ⟨hfetch, hne⟩ := freshBatch_eq_some_iff.mp hfetched
  have hdelivered : u.delivered o σ = batch := by rw [delivered, hfetch]
  obtain ⟨n, σ₂, hσ₂, heq⟩ := syncOnce_passable hwf hcap hfetch (by rwa [hdelivered])
  rw [heq]
  refine ⟨?_, hpass, fun key schema hlast entry hentry => ?_⟩
  · simp only [snapshotAfter, hdelivered, hsave, ne_eq, hne, not_false_eq_true, and_self, if_true]
    exact loadSnapshot_envelope hne (fun c hc => (hpass c hc).1) _
  · exact entry_last_of_passable hwf hcap hσ₂ (by rwa [hdelivered]) hentry

/-- **A pass that fetches nothing new keeps what is mirrored**: it raises
before the loop, finds no entries, or reads the mirrored batch back. -/
theorem Mirrors.pass (h : u.Mirrors batch σ) (hwf : σ.schemaStorage.WellFormed)
    (hcap : σ.schemaStorage.capacity ≠ 0) {o : Outside}
    (hfetched : u.fetchedBy (.pass o) σ = none) : u.Mirrors batch (u.syncOnce o σ).2 := by
  have hagree := u.fetch_agrees o σ
  have hkept : ∀ key entry, (u.fetch o σ).2.schemaStorage.stored? key = some entry →
      σ.schemaStorage.stored? key = some entry := by
    intro key entry hentry
    rwa [hagree.schemaStorage_eq] at hentry
  cases hfetch : (u.fetch o σ).1 with
  | error exc =>
    rw [syncOnce_error hfetch]
    exact h.of_entries hagree.snapshot_eq hkept
  | ok obtained =>
    obtain ⟨contracts, fetched⟩ := obtained
    by_cases hnil : u.delivered o σ = []
    · obtain ⟨n, σ₂, hσ₂, heq⟩ := syncOnce_passable hwf hcap hfetch (by simp [hnil])
      rw [heq]
      refine h.of_entries (by simp [hnil, snapshotAfter]) fun key entry hentry => hkept key entry ?_
      simp only [hnil] at hσ₂
      rwa [hσ₂.schemaStorage_eq] at hentry
    · -- Entries that are not fresh come from the snapshot.
      have hdelivered : u.delivered o σ = contracts.getD [] := by
        rw [delivered, hfetch]
        cases contracts <;> rfl
      have hback : u.FallsBack o σ := by
        by_contra hback
        obtain ⟨-, hfresh⟩ := fetch_of_not_fallsBack hback
        rw [hfetch] at hfresh
        cases hf : fetchActiveContracts u.maxHttpResponseBytes o.exchange with
        | error exc => rw [hf] at hfresh; cases hfresh
        | ok fresh =>
          rw [hf] at hfresh
          obtain ⟨rfl, rfl⟩ := Prod.mk.inj (Except.ok.inj hfresh)
          have hsome := freshBatch_eq_some_iff.mpr ⟨hfetch, by rwa [hdelivered] at hnil⟩
          rw [fetchedBy, hsome] at hfetched
          cases hfetched
      have hload := fetch_of_fallsBack hback
      rw [hfetch, h.snapshot] at hload
      obtain ⟨rfl, rfl⟩ := Prod.mk.inj (Except.ok.inj hload)
      obtain ⟨n, σ₂, hσ₂, heq⟩ := syncOnce_passable hwf hcap hfetch
        (by rw [hdelivered]; exact h.passable)
      rw [heq]
      refine ⟨?_, h.passable, fun key schema hlast entry hentry => ?_⟩
      · simpa [snapshotAfter] using h.snapshot
      · exact entry_last_of_passable hwf hcap hσ₂ (by rwa [hdelivered]) hentry

/-- **Every event keeps the last fetched batch mirrored.** -/
theorem Persisted.step {last : Option (List Json)} (h : u.Persisted last σ) {e : SyncEvent}
    (he : u.Persists e σ) : u.Persisted ((u.fetchedBy e σ).or last) (u.step e σ) := by
  obtain ⟨hwf, hcapacity, -⟩ := step_wellFormed (u := u) h.wellFormed e
  refine ⟨hwf, hcapacity ▸ h.capacity_ne, fun batch hlast => ?_⟩
  cases e with
  | pass o =>
    cases hfetched : u.fetchedBy (.pass o) σ with
    | some fresh =>
      rw [hfetched, Option.some_or, Option.some.injEq] at hlast
      subst hlast
      obtain ⟨hpass, hsave⟩ := he _ hfetched
      exact mirrors_of_fetched h.wellFormed h.capacity_ne hfetched hpass hsave
    | none =>
      rw [hfetched, Option.none_or] at hlast
      exact (h.mirrors batch hlast).pass h.wellFormed h.capacity_ne hfetched
  | read key =>
    obtain ⟨storage, hget, haged⟩ := LFUCache.get_spec h.wellFormed (u.clock σ.instants) key
    simp only [SyncContractsUseCase.step, SyncContractsUseCase.read, hget]
    exact (h.mirrors batch hlast).of_entries rfl fun _ _ => haged.entry_of
  | sweep =>
    have haged := LFUCache.sweepExpired_spec h.wellFormed (u.clock σ.instants)
    exact (h.mirrors batch hlast).of_entries rfl fun _ _ => haged.entry_of
  | advance => exact (h.mirrors batch hlast).of_entries rfl fun _ _ hentry => hentry

theorem persisted_run {last : Option (List Json)} (h : u.Persisted last σ)
    {events : List SyncEvent} (hrun : Along u.step u.Persists events σ) :
    u.Persisted ((u.lastFetched events σ).or last) (run u.step events σ) := by
  induction events generalizing σ last with
  | nil => exact h
  | cons e es ih =>
    obtain ⟨he, hes⟩ := hrun
    have := ih (h.step he) hes
    rwa [← Option.or_assoc] at this

/-! ## A cache of no capacity -/

/-- **Nothing is ever stored** where there is no capacity. -/
theorem void_step (h : σ.schemaStorage.Void) (e : SyncEvent) :
    (u.step e σ).schemaStorage.Void := by
  obtain ⟨hwf, hcapacity, -⟩ := step_wellFormed (u := u) h.wellFormed e
  refine h.of_entries hwf hcapacity fun key entry hentry => ?_
  cases e with
  | pass o =>
    obtain ⟨ws, σ₁, σ₂, -, hσ₁, hcap, hσ₂, snapshot, heq⟩ :=
      syncOnce_writes (u := u) h.wellFormed o
    obtain rfl : ws = [] := by
      by_contra hne
      exact hcap hne h.capacity_eq
    simp only [step] at hentry
    rwa [heq, hσ₂.schemaStorage_eq, run_nil, hσ₁.schemaStorage_eq] at hentry
  | read key' =>
    obtain ⟨storage, hget, haged⟩ := LFUCache.get_spec h.wellFormed (u.clock σ.instants) key'
    simp only [step, read, hget] at hentry
    exact haged.entry_of hentry
  | sweep => exact (LFUCache.sweepExpired_spec h.wellFormed (u.clock σ.instants)).entry_of hentry
  | advance => exact hentry

theorem void_run {capacity : ℕ} {ttlSeconds : ℤ} (hstart : Started capacity ttlSeconds σ)
    (hzero : capacity = 0) (events : List SyncEvent) :
    (run u.step events σ).schemaStorage.Void := by
  have hstep : ∀ e σ, σ.schemaStorage.Void → (u.step e σ).schemaStorage.Void :=
    fun e _ h => void_step h e
  refine run_of_kept hstep ?_ events
  rw [hstart.1]
  exact ⟨LFUCache.wellFormed_new capacity ttlSeconds, hzero, fun key => AList.lookup_empty key⟩

/-! ## The restart -/

/-- **A restart primes the empty cache with the snapshot.** -/
theorem restarted_primed {capacity : ℕ} {ttlSeconds : ℤ}
    (hload : loadSnapshot σ.snapshot = .ok (some batch)) (hpass : ∀ c ∈ batch, u.Passable c)
    (hcap : (u.keysWith batch { capacity, ttlSeconds }).card ≤ capacity)
    (breaker : Option CircuitBreaker) {o : Outside} {name : String}
    (hdown : o.exchange = .error (.httpError name)) :
    (∃ n, (u.syncOnce o (restarted capacity ttlSeconds breaker σ)).1 = .ok n) ∧
      u.Primed batch { capacity, ttlSeconds }
        (u.syncOnce o (restarted capacity ttlSeconds breaker σ)).2.schemaStorage := by
  set σ' := restarted capacity ttlSeconds breaker σ with hσ'
  have hagree := u.fetch_agrees o σ'
  have hback : u.FallsBack o σ' := by
    right
    rw [hdown]
    rfl
  have hfetch : (u.fetch o σ').1 = .ok (some batch, false) := by
    rw [fetch_of_fallsBack hback, hσ', restarted, hload]
    rfl
  have hdelivered : u.delivered o σ' = batch := by rw [delivered, hfetch]
  have hfits : (u.fetch o σ').2.schemaStorage.Fits
      (u.keysWith batch (u.fetch o σ').2.schemaStorage) := by
    rw [hagree.schemaStorage_eq]
    exact ⟨LFUCache.wellFormed_new capacity ttlSeconds,
      fun key hkey => absurd hkey (AList.notMem_empty key), hcap⟩
  obtain ⟨hok, hprimed⟩ := (primeCache_primed_iff hfits).mpr hpass
  rw [syncOnce_eq hfetch, hdelivered, returnedAfter_stale]
  rw [hagree.schemaStorage_eq] at hprimed
  exact ⟨hok, hprimed⟩

/-- **What a restart keeps**: after any run over a new cache whose fetched
batches the loop gets past and whose snapshots are written, a process that
restarts with an empty cache while the control plane cannot be reached
gets through its first pass, and finds under an id that was active before
the same schema exactly where the last fetched batch holds an admitted
entry of the id. -/
theorem restart_maps_iff {capacity : ℕ} {ttlSeconds : ℤ} (hstart : Started capacity ttlSeconds σ)
    {events : List SyncEvent} (hrun : Along u.step u.Persists events σ)
    (hlast : u.lastFetched events σ = some batch)
    (hcap : (u.keysWith batch { capacity, ttlSeconds }).card ≤ capacity)
    {id schema : Json} {key : Json.Key} (hkey : id.hash? = some key) {now : ℚ}
    (hactive : (run u.step events σ).schemaStorage.peek now key = some schema)
    (clock : ℕ → ℚ) (breaker : Option CircuitBreaker) {o : Outside} {name : String}
    (hdown : o.exchange = .error (.httpError name)) :
    let u' := { u with clock := clock }
    let out := u'.syncOnce o (restarted capacity ttlSeconds breaker (run u.step events σ))
    (∃ n, out.1 = .ok n) ∧
      (out.2.schemaStorage.mapped id = some schema ↔ ∃ schema', u.Admitted batch id schema') := by
  intro u' out
  obtain ⟨entry, hentry, hlive⟩ := Option.bind_eq_some_iff.mp hactive
  have hschema : entry.1 = schema := by
    split_ifs at hlive
    exact Option.some.inj hlive
  have hne : capacity ≠ 0 := by
    intro hzero
    rw [(void_run hstart hzero events).entry_eq] at hentry
    cases hentry
  have hpersisted : u.Persisted none σ := by
    obtain ⟨hstorage, -⟩ := hstart
    refine ⟨?_, ?_, fun batch h => by cases h⟩ <;> rw [hstorage]
    · exact LFUCache.wellFormed_new capacity ttlSeconds
    · exact hne
  have hmirrors : u.Mirrors batch (run u.step events σ) :=
    (persisted_run hpersisted hrun).mirrors batch (by rw [hlast, Option.some_or])
  -- The clock has no part in what is admitted.
  obtain ⟨hok, hprimed⟩ : (∃ n, out.1 = .ok n) ∧
      u.Primed batch { capacity, ttlSeconds } out.2.schemaStorage := by
    obtain ⟨hok, hprimed⟩ := restarted_primed (u := u') hmirrors.snapshot hmirrors.passable hcap
      breaker hdown
    exact ⟨hok, hprimed.admitted, hprimed.other⟩
  refine ⟨hok, fun hmapped => ?_, fun ⟨schema', hadmitted⟩ => ?_⟩
  · by_contra hnone
    rw [hprimed.other id (fun schema' h => hnone ⟨schema', h⟩), mapped_new] at hmapped
    cases hmapped
  · obtain ⟨lastSchema, hlastAdmitted⟩ := exists_lastAdmitted hadmitted
    have hwritten := lastWrite_of_lastAdmitted hkey hlastAdmitted
    rw [hprimed.admitted id lastSchema hlastAdmitted, ← hschema,
      hmirrors.entry_last key lastSchema hwritten entry hentry]

end Host

/-! ## A version that is not on disk any more -/

/-- A process whose schemas live for an hour. -/
def hourly : SyncContractsUseCase := { everyInterval with cacheTtlSeconds := 3600 }

/-- A contract that asks for its id. -/
def named (contractId : String) : Json :=
  .obj [("id", .str contractId), ("schema", .obj [("required", .arr [.str "id"])])]

theorem restart_maps_orders :
    (∃ n, (@syncOnce hourly Host.literal unreachable (restarted 500 300 none
        (run (@step hourly Host.literal) [.pass (deliver [ordersContract])]
          { schemaStorage := {} }))).1 = .ok n) ∧
      ((@syncOnce hourly Host.literal unreachable (restarted 500 300 none
          (run (@step hourly Host.literal) [.pass (deliver [ordersContract])]
            { schemaStorage := {} }))).2.schemaStorage.mapped (.str "orders") =
          some (.obj [("required", .arr [.str "id"])]) ↔
        ∃ schema', @Admitted Host.literal hourly [ordersContract] (.str "orders") schema') := by
  let _ := Host.literal
  have hkey : (Json.str "orders").hash? = some (.str "orders") := rfl
  have hrun : Along hourly.step hourly.Persists [.pass (deliver [ordersContract])]
      { schemaStorage := {} } := by
    refine ⟨fun batch hfetched => ?_, trivial⟩
    have hbatch : hourly.fetchedBy (.pass (deliver [ordersContract])) { schemaStorage := {} } =
        some [ordersContract] := rfl
    obtain rfl := Option.some.inj (hbatch.symm.trans hfetched)
    refine ⟨fun c hc => ?_, rfl⟩
    rw [List.mem_singleton.mp hc]
    exact passable_orders
  have hactive : (run hourly.step [.pass (deliver [ordersContract])]
      { schemaStorage := {} }).schemaStorage.peek 0 (.str "orders") =
        some (.obj [("required", .arr [.str "id"])]) := by decide +kernel
  exact restart_maps_iff (u := hourly) ⟨rfl, rfl⟩ hrun (by decide +kernel) (by decide +kernel) hkey
    hactive hourly.clock none rfl

/-- A refused update replaces the version on disk and not the one in the
cache; and a version that reads have kept in a full cache is the first one
a restart evicts. -/
theorem restart_loses_orders :
    let u := hourly
    let refused := run (@step u Host.literal) refusedUpdate { schemaStorage := {} }
    let read := [.pass (deliver [ordersContract]), .read (.str "orders"),
      .pass (deliver [ordersContract, named "users", named "items"])]
    let full := run (@step u Host.literal) read { schemaStorage := { capacity := 2 } }
    (@lastFetched Host.literal u refusedUpdate { schemaStorage := {} } = some [refusedOrders] ∧
      (u.read (.str "orders") refused).1 = .ok (some (.obj [("required", .arr [.str "id"])])) ∧
      (@syncOnce u Host.literal unreachable (restarted 500 300 none refused)).1 = .ok 0 ∧
      (@syncOnce u Host.literal unreachable
        (restarted 500 300 none refused)).2.schemaStorage.mapped (.str "orders") = none) ∧
    (u.read (.str "orders") full).1 = .ok (some (.obj [("required", .arr [.str "id"])])) ∧
      (@syncOnce u Host.literal unreachable
        (restarted 2 300 none full)).2.schemaStorage.mapped (.str "orders") = none := by
  exact ⟨⟨by decide +kernel, by decide +kernel, by decide +kernel, by decide +kernel⟩,
    by decide +kernel, by decide +kernel⟩

end SyncContractsUseCase

end Congine
