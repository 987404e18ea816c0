import Congine.UseCases.SyncWrites
/-!
# A sync pass over any batch

A pass should raise nothing, whatever the batch, and leave under each id
the schema of its last admitted entry. `CleanPass` is when it does: the
loop reads `id` off an entry without asking whether it is an object, and
hands the store an id without asking whether it can be a key; the body of
the response and the bytes of the snapshot go unchecked in the same way,
and the write of the snapshot may raise what is no `OSError`.
-/

namespace Congine

/-! ## Ids -/

/-- Two ids a dictionary takes for one key, or the same value. -/
def SameId (id id' : Json) : Prop := id = id' ∨ ∃ key, id.hash? = some key ∧ id'.hash? = some key

/-- The schema stored under an id. -/
def LFUCache.mapped (c : LFUCache Json.Key Json) (id : Json) : Option Json :=
  id.hash?.bind fun key => (c.stored? key).map Prod.fst

theorem SameId.hash_eq {id id' : Json} (h : SameId id id') : id.hash? = id'.hash? := by
  obtain rfl | ⟨key, hk, hk'⟩ := h
  · rfl
  · rw [hk, hk']

theorem sameId_of_hash {id id' : Json} {key : Json.Key} (h : id.hash? = some key)
    (h' : id'.hash? = some key) : SameId id id' := .inr ⟨key, h, h'⟩

namespace SyncContractsUseCase

section Host

variable [Host] (u : SyncContractsUseCase)

/-! ## What a pass should leave -/

/-- A batch holds an admitted entry of an id. -/
def Admitted (batch : List Json) (id schema : Json) : Prop :=
  ∃ contract ∈ batch, ∃ id', u.admittedEntry contract = some (id', schema) ∧ SameId id id'

/-- The schema is that of the last admitted entry of the id. -/
def LastAdmitted (batch : List Json) (id schema : Json) : Prop :=
  ∃ before contract after id', batch = before ++ contract :: after ∧
    u.admittedEntry contract = some (id', schema) ∧ SameId id id' ∧
    ∀ schema', ¬ u.Admitted after id schema'

/-- **Primed**: every id with an admitted entry maps to its last one, and
every other id to what it mapped to before. -/
structure Primed (batch : List Json) (before after : LFUCache Json.Key Json) : Prop where
  admitted : ∀ id schema, u.LastAdmitted batch id schema → after.mapped id = some schema
  other : ∀ id, (∀ schema, ¬ u.Admitted batch id schema) → after.mapped id = before.mapped id

/-- When a pass raises nothing and primes the cache. -/
structure CleanPass (o : Outside) (σ : SyncState) : Prop where
  /-- The exchange fails as transport or decoding does, or the decoded body
  is an object. -/
  exchange : (u.breakerAllows σ).1 = true → QuietExchange u.maxHttpResponseBytes o.exchange
  /-- A snapshot that is read holds text the decoder accepts. -/
  snapshot : u.FallsBack o σ → σ.snapshot.Readable
  /-- Every entry is an object, and every admitted id a possible key. -/
  entries : ∀ contract ∈ u.delivered o σ, u.Passable contract
  /-- Writing the snapshot of a batch that was fetched raises at most an
  `OSError`. -/
  save : ¬ u.FallsBack o σ → u.delivered o σ ≠ [] → ∀ exc, o.save = .failed exc →
    exc.isOSError = true

/-- The keys a cache holds, and those a batch adds. -/
def keysWith (batch : List Json) (c : LFUCache Json.Key Json) : Finset Json.Key :=
  (c.keyToValue.keys ++ (u.writesOf batch).map Prod.fst).toFinset

variable {u}

/-! ## Entries and writes -/

/-- An id with an admitted entry has a last one. -/
theorem exists_lastAdmitted {batch : List Json} {id schema : Json}
    (h : u.Admitted batch id schema) : ∃ schema', u.LastAdmitted batch id schema' := by
  induction batch generalizing schema with
  | nil =>
    obtain ⟨contract, hmem, -⟩ := h
    exact absurd hmem List.not_mem_nil
  | cons c cs ih =>
    by_cases hlater : ∃ schema', u.Admitted cs id schema'
    · obtain ⟨schema', hlater⟩ := hlater
      obtain ⟨schema'', before, contract, after, id', rfl, hlast⟩ := ih hlater
      exact ⟨schema'', c :: before, contract, after, id', rfl, hlast⟩
    · obtain ⟨contract, hmem, id', hentry, hsame⟩ := h
      rcases List.mem_cons.mp hmem with rfl | hmem
      · exact ⟨schema, [], contract, cs, id', rfl, hentry, hsame,
          fun schema' hs => hlater ⟨schema', hs⟩⟩
      · exact absurd ⟨schema, contract, hmem, id', hentry, hsame⟩ hlater

theorem writeOf_eq_some_iff {contract schema : Json} {key : Json.Key} :
    u.writeOf contract = some (key, schema) ↔
      ∃ id, u.admittedEntry contract = some (id, schema) ∧ id.hash? = some key := by
  simp only [writeOf, Option.bind_eq_some_iff, Option.map_eq_some_iff, Prod.mk.injEq, Prod.exists]
  constructor
  · rintro ⟨id, schema', hentry, key', hkey, rfl, rfl⟩
    exact ⟨id, hentry, hkey⟩
  · rintro ⟨id, hentry, hkey⟩
    exact ⟨id, schema, hentry, key, hkey, rfl, rfl⟩

/-- A key no entry of the batch is admitted under is not written. -/
theorem not_mem_writesOf {batch : List Json} {id : Json} {key : Json.Key}
    (hkey : id.hash? = some key) (h : ∀ schema, ¬ u.Admitted batch id schema) :
    key ∉ (u.writesOf batch).map Prod.fst := by
  intro hmem
  obtain ⟨⟨key', schema⟩, hw, rfl⟩ := List.mem_map.mp hmem
  obtain ⟨contract, hcontract, hwrite⟩ := List.mem_filterMap.mp hw
  obtain ⟨id', hentry, hkey'⟩ := writeOf_eq_some_iff.mp hwrite
  exact h schema ⟨contract, hcontract, id', hentry, sameId_of_hash hkey hkey'⟩

/-- **The last admitted entry is the last write** to its key. -/
theorem lastWrite_of_lastAdmitted {batch : List Json} {id schema : Json} {key : Json.Key}
    (hkey : id.hash? = some key) (h : u.LastAdmitted batch id schema) :
    lastWrite key (u.writesOf batch) = some schema := by
  obtain ⟨before, contract, after, id', rfl, hentry, hsame, hafter⟩ := h
  have hwrite : u.writeOf contract = some (key, schema) :=
    writeOf_eq_some_iff.mpr ⟨id', hentry, hsame.hash_eq ▸ hkey⟩
  refine lastWrite_eq_some_iff.mpr ⟨u.writesOf before, u.writesOf after, ?_,
    not_mem_writesOf hkey hafter⟩
  rw [writesOf, List.filterMap_append, List.filterMap_cons, hwrite]
  rfl

/-- The id of an admitted entry the loop gets past is a key. -/
theorem exists_key {batch : List Json} {id schema : Json}
    (hpass : ∀ c ∈ batch, u.Passable c) (h : u.Admitted batch id schema) :
    ∃ key, id.hash? = some key := by
  obtain ⟨contract, hmem, id', hentry, hsame⟩ := h
  rw [hsame.hash_eq]
  exact Option.isSome_iff_exists.mp ((hpass contract hmem).2 _ hentry)

theorem LastAdmitted.admitted {batch : List Json} {id schema : Json}
    (h : u.LastAdmitted batch id schema) : u.Admitted batch id schema := by
  obtain ⟨before, contract, after, id', rfl, hentry, hsame, -⟩ := h
  exact ⟨contract, by simp, id', hentry, hsame⟩

/-! ## Priming within capacity -/

/-- **A batch got through primes the cache**, where it fits. -/
theorem primed_of_run {batch : List Json} {σ : SyncState}
    (hfits : σ.schemaStorage.Fits (u.keysWith batch σ.schemaStorage))
    (hpass : ∀ c ∈ batch, u.Passable c) :
    u.Primed batch σ.schemaStorage (run u.write (u.writesOf batch) σ).schemaStorage := by
  have hkeys : ∀ w ∈ u.writesOf batch, w.1 ∈ u.keysWith batch σ.schemaStorage := by
    intro w hw
    rw [keysWith, List.mem_toFinset, List.mem_append]
    exact .inr (List.mem_map_of_mem hw)
  obtain ⟨-, hentries⟩ := run_write_fits (u := u) hfits hkeys
  refine ⟨fun id schema hlast => ?_, fun id hnone => ?_⟩
  · obtain ⟨key, hkey⟩ := exists_key hpass hlast.admitted
    rw [LFUCache.mapped, hkey, Option.bind_some]
    exact (hentries key).1 schema (lastWrite_of_lastAdmitted hkey hlast)
  · unfold LFUCache.mapped
    cases hkey : id.hash? with
    | none => rfl
    | some key =>
      have := (hentries key).2 (lastWrite_eq_none_iff.mpr (not_mem_writesOf hkey hnone))
      rw [Option.bind_some, Option.bind_some, this]

/-- **The loop raises nothing and primes the cache exactly where** it gets
past every entry. -/
theorem primeCache_primed_iff {batch : List Json} {σ : SyncState}
    (hfits : σ.schemaStorage.Fits (u.keysWith batch σ.schemaStorage)) :
    (∃ n, (u.primeCache batch 0 σ).1 = .ok n) ∧
        u.Primed batch σ.schemaStorage (u.primeCache batch 0 σ).2.schemaStorage ↔
      ∀ c ∈ batch, u.Passable c := by
  by_cases hcap : σ.schemaStorage.capacity = 0
  · obtain ⟨hagree, hok⟩ := primeCache_zero (u := u) hcap batch 0
    rw [hok, hagree.schemaStorage_eq]
    constructor
    · rintro ⟨hobj, hprimed⟩ c hc
      refine ⟨hobj c hc, fun entry hentry => ?_⟩
      obtain ⟨schema, hlast⟩ := exists_lastAdmitted (u := u)
        ⟨c, hc, entry.1, hentry, Or.inl (rfl : entry.1 = entry.1)⟩
      have hmapped := hprimed.admitted entry.1 schema hlast
      cases hkey : entry.1.hash? with
      | some key => rfl
      | none =>
        rw [LFUCache.mapped, hkey] at hmapped
        cases hmapped
    · intro hpass
      refine ⟨fun c hc => (hpass c hc).1, fun id schema hlast => ?_, fun _ _ => rfl⟩
      -- An admitted id would take a place the cache does not have.
      obtain ⟨key, hkey⟩ := exists_key hpass hlast.admitted
      have hwritten := lastWrite_of_lastAdmitted hkey hlast
      have hmem : key ∈ (u.writesOf batch).map Prod.fst := by
        by_contra hnot
        rw [lastWrite_eq_none_iff.mpr hnot] at hwritten
        cases hwritten
      have hpos : 0 < (u.keysWith batch σ.schemaStorage).card :=
        Finset.card_pos.mpr ⟨key, by
          rw [keysWith, List.mem_toFinset, List.mem_append]
          exact .inr hmem⟩
      have := hfits.card_le
      omega
  · have hcases := primeCache_cases (u := u) hfits.wellFormed hcap batch 0
    generalize u.primeCache batch 0 σ = out at hcases
    cases hcases with
    | done hpass hσ' =>
      refine ⟨fun _ => hpass, fun _ => ⟨⟨_, rfl⟩, ?_⟩⟩
      rw [hσ'.schemaStorage_eq]
      exact primed_of_run hfits hpass
    | stopped hsplit hpass _ =>
      refine ⟨fun ⟨⟨n, h⟩, _⟩ => (by cases h), fun h => absurd (h _ ?_) hpass⟩
      rw [hsplit]
      simp

omit [Host] in
/-- What was fetched is what the pass did not fall back from. -/
theorem fetched_iff {o : Outside} {σ : SyncState} {contracts : Option (List Json)}
    {fetched : Bool} (h : (u.fetch o σ).1 = .ok (contracts, fetched)) :
    fetched = true ↔ ¬ u.FallsBack o σ := by
  by_cases hback : u.FallsBack o σ
  · rw [fetch_of_fallsBack hback] at h
    rcases hload : loadSnapshot σ.snapshot with exc | loaded
    · rw [hload] at h
      cases h
    · rw [hload] at h
      obtain ⟨-, rfl⟩ := Prod.mk.inj (Except.ok.inj h)
      simpa using hback
  · rw [(fetch_of_not_fallsBack hback).2] at h
    rcases hexchange : fetchActiveContracts u.maxHttpResponseBytes o.exchange with exc | fresh
    · rw [hexchange] at h
      cases h
    · rw [hexchange] at h
      obtain ⟨-, rfl⟩ := Prod.mk.inj (Except.ok.inj h)
      simpa using hback

/-- **A pass raises nothing and primes the cache exactly where it is clean**:
whatever the exchange, the snapshot and the entries, from any cache its
operations reach, where the ids stored and admitted fit its capacity. -/
theorem syncOnce_primes_iff (o : Outside) {σ : SyncState} (hreach : σ.schemaStorage.Reachable)
    (hcap : (u.keysWith (u.delivered o σ) σ.schemaStorage).card ≤ σ.schemaStorage.capacity) :
    (∃ n, (u.syncOnce o σ).1 = .ok n) ∧
        u.Primed (u.delivered o σ) σ.schemaStorage (u.syncOnce o σ).2.schemaStorage ↔
      u.CleanPass o σ := by
  have hagree := u.fetch_agrees o σ
  have hfits : (u.fetch o σ).2.schemaStorage.Fits
      (u.keysWith (u.delivered o σ) (u.fetch o σ).2.schemaStorage) := by
    rw [hagree.schemaStorage_eq]
    refine ⟨hreach.wellFormed, fun key hkey => ?_, hcap⟩
    rw [keysWith, List.mem_toFinset, List.mem_append]
    exact .inl hkey
  have hclean : u.CleanPass o σ ↔
      (∃ obtained, (u.fetch o σ).1 = .ok obtained) ∧
        (∀ c ∈ u.delivered o σ, u.Passable c) ∧
          (¬ u.FallsBack o σ → u.delivered o σ ≠ [] → ∀ exc, o.save = .failed exc →
            exc.isOSError = true) := by
    rw [fetch_ok_iff]
    exact ⟨fun h => ⟨⟨h.exchange, h.snapshot⟩, h.entries, h.save⟩,
      fun h => ⟨h.1.1, h.1.2, h.2.1, h.2.2⟩⟩
  rw [hclean]
  cases hfetch : (u.fetch o σ).1 with
  | error exc =>
    rw [syncOnce_error hfetch]
    exact ⟨fun ⟨⟨n, h⟩, _⟩ => (by cases h), fun ⟨⟨_, h⟩, _⟩ => (by cases h)⟩
  | ok obtained =>
    obtain ⟨contracts, fetched⟩ := obtained
    have hprime := primeCache_primed_iff hfits
    rw [hagree.schemaStorage_eq] at hprime
    rw [syncOnce_eq hfetch, returnedAfter_ok_iff, ← hprime, SaveQuiet, fetched_iff hfetch]
    constructor
    · rintro ⟨⟨hloop, hquiet⟩, hprimed⟩
      exact ⟨⟨_, rfl⟩, ⟨hloop, hprimed⟩, hquiet⟩
    · rintro ⟨-, ⟨hloop, hprimed⟩, hquiet⟩
      exact ⟨⟨hloop, hquiet⟩, hprimed⟩

end Host

/-! ## Batches of the control plane -/

/-- A clock that reads five minutes more each time. -/
def everyInterval : SyncContractsUseCase where
  clock i := 300 * i
  maxHttpResponseBytes := 1048576

/-- The control plane answers with a body. -/
def answers (data : Json) : Outside where
  exchange := .ok { contentLength := 64, json := .ok data }

def deliver (contracts : List Json) : Outside := answers (.obj [("contracts", .arr contracts)])

/-- The control plane cannot be reached. -/
def unreachable : Outside where
  exchange := .error (.httpError "ConnectError")

def ordersContract : Json :=
  .obj [("id", .str "orders"), ("schema", .obj [("required", .arr [.str "id"])])]

theorem passable_orders : @Passable everyInterval Host.literal ordersContract := by
  let _ := Host.literal
  refine ⟨rfl, fun entry h => ?_⟩
  have : everyInterval.admittedEntry ordersContract =
      some (.str "orders", .obj [("required", .arr [.str "id"])]) := by decide +kernel
  obtain rfl := Option.some.inj (this.symm.trans h)
  rfl

theorem syncOnce_primes_orders :
    (∃ n, (@syncOnce everyInterval Host.literal (deliver [.obj [], ordersContract])
        { schemaStorage := {} }).1 = .ok n) ∧
      @Primed Host.literal everyInterval
        (everyInterval.delivered (deliver [.obj [], ordersContract]) { schemaStorage := {} })
        ({} : LFUCache Json.Key Json)
        (@syncOnce everyInterval Host.literal (deliver [.obj [], ordersContract])
          { schemaStorage := {} }).2.schemaStorage := by
  let _ := Host.literal
  refine (syncOnce_primes_iff (deliver [.obj [], ordersContract])
    (σ := { schemaStorage := {} }) (.new 500 300) (by decide +kernel)).mpr ⟨?_, ?_, ?_, ?_⟩
  · intro _ _
    rfl
  · intro _
    exact .inr rfl
  · intro contract hmem
    have hbatch : everyInterval.delivered (deliver [.obj [], ordersContract])
        { schemaStorage := {} } = [.obj [], ordersContract] := rfl
    rw [hbatch] at hmem
    simp only [List.mem_cons, List.not_mem_nil, or_false] at hmem
    rcases hmem with rfl | rfl
    · exact ⟨rfl, fun entry h => by cases h⟩
    · exact passable_orders
  · intro _ _ exc h
    cases h

/-- An entry that is not an object, an admitted id that cannot be a key, a
body that is not an object and a snapshot that is not UTF-8 each raise, and
the contract behind them is not stored. So does a write that ends in no
`OSError`, once they are. -/
theorem syncOnce_raises :
    (@syncOnce everyInterval Host.literal (deliver [.str "orders", ordersContract])
        { schemaStorage := {} }).1 = .error .attributeError ∧
      ¬ @Primed Host.literal everyInterval [.str "orders", ordersContract] {}
        (@syncOnce everyInterval Host.literal (deliver [.str "orders", ordersContract])
          { schemaStorage := {} }).2.schemaStorage ∧
      (@syncOnce everyInterval Host.literal
        (deliver [.obj [("id", .arr [.int 1]), ("schema", .obj [])], ordersContract])
        { schemaStorage := {} }).1 = .error .typeError ∧
      (@syncOnce everyInterval Host.literal (answers (.arr [ordersContract]))
        { schemaStorage := {} }).1 = .error .typeError ∧
      (@syncOnce everyInterval Host.literal unreachable
        { schemaStorage := {}, snapshot := .unreadable .unicodeDecodeError }).1 =
        .error .unicodeDecodeError ∧
      (@syncOnce everyInterval Host.literal
        { deliver [ordersContract] with save := .failed .recursionError }
        { schemaStorage := {} }).1 = .error .recursionError := by
  refine ⟨by decide +kernel, fun h => ?_, by decide +kernel, by decide +kernel, by decide +kernel,
    by decide +kernel⟩
  let _ := Host.literal
  have hentry : everyInterval.admittedEntry ordersContract =
      some (.str "orders", .obj [("required", .arr [.str "id"])]) := by decide +kernel
  have hmapped := h.admitted (.str "orders") (.obj [("required", .arr [.str "id"])])
    ⟨[.str "orders"], ordersContract, [], _, rfl, hentry, .inl rfl,
      fun _ ⟨_, hmem, _⟩ => List.not_mem_nil hmem⟩
  revert hmapped
  decide +kernel

end SyncContractsUseCase

end Congine
