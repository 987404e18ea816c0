import Congine.UseCases.LastKnownGood
/-!
# The store under interleaved passes

The threads of a process take turns at its store: a pass gets to the next
entry of its batch, a validation looks its contract up, the sweeper drops
what has expired. Any number of passes may be under way at a time, each
with its own batch, and a whole pass is such turns in a row. In every run
of turns the store is vetted: it holds only what admission let through,
under each key the schema admitted last.
-/

namespace Congine

/-- A turn one of the threads of a process takes. -/
inductive ProcessEvent where
  /-- A pass fetches, or falls back to the snapshot. -/
  | fetch (o : Outside)
  /-- A pass gets to an entry of its batch. -/
  | prime (contract : Json)
  /-- A pass writes its batch to disk. -/
  | persist (contracts : List Json) (o : Outside)
  | read (key : Json.Key)
  | sweep
  | advance

namespace SyncContractsUseCase

section Host

variable [Host] (u : SyncContractsUseCase)

/-- One turn. The lock of the store admits no finer interleaving. -/
def processStep : ProcessEvent → SyncState → SyncState
  | .fetch o, σ => (u.fetch o σ).2
  | .prime contract, σ => (u.primeCache [contract] 0 σ).2
  | .persist contracts o, σ =>
      match saveSnapshot contracts o.fetchedAt o.save σ.snapshot with
      | .ok snapshot => { σ with snapshot := snapshot }
      | .error _ => σ
  | .read key, σ => u.step (.read key) σ
  | .sweep, σ => u.step .sweep σ
  | .advance, σ => u.step .advance σ

/-- **The store is vetted**: under each key it holds the schema admitted
last under it, with its own time to live, and admission let through every
schema of the log. -/
structure Vetted (σ : SyncState) : Prop where
  wellFormed : σ.schemaStorage.WellFormed
  stored : ∀ key schema expireAt, σ.schemaStorage.stored? key = some (schema, expireAt) →
    ∃ admittedAt, lastWrite key σ.admissions = some (schema, admittedAt) ∧
      expireAt = admittedAt + (u.cacheTtlSeconds : ℤ)
  admitted : ∀ a ∈ σ.admissions, u.admits a.2.1 = true

variable {u} {σ σ' : SyncState}

/-! ## A pass, turn by turn -/

/-- The loop takes one entry, then the others. -/
theorem primeCache_cons (contract : Json) (contracts : List Json) (loaded : ℕ) (σ : SyncState) :
    u.primeCache (contract :: contracts) loaded σ =
      match u.primeCache [contract] loaded σ with
      | (.error exc, σ) => (.error exc, σ)
      | (.ok loaded, σ) => u.primeCache contracts loaded σ := by
  cases contract with
  | obj fields =>
    simp only [primeCache]
    split
    · rfl
    · rcases u.admit_ ((fields.lookup "id").getD .null) (.obj fields)
        ((fields.lookup "schema").getD .null) σ with ⟨_ | _, σ'⟩
      · rfl
      · dsimp only
        rcases u.storagePut ((fields.lookup "id").getD .null)
          ((fields.lookup "schema").getD .null) σ' with ⟨_ | _, σ''⟩
        · rfl
        · rfl
  | _ => rfl

/-- The count of the loop does not bear on what it leaves. -/
theorem primeCache_loaded (contracts : List Json) (loaded loaded' : ℕ) (σ : SyncState) :
    (u.primeCache contracts loaded σ).2 = (u.primeCache contracts loaded' σ).2 := by
  induction contracts generalizing loaded loaded' σ with
  | nil => rfl
  | cons contract contracts ih =>
    cases contract with
    | obj fields =>
      simp only [primeCache]
      split
      · exact ih _ _ _
      · rcases u.admit_ ((fields.lookup "id").getD .null) (.obj fields)
          ((fields.lookup "schema").getD .null) σ with ⟨_ | _, σ'⟩
        · exact ih _ _ _
        · dsimp only
          rcases u.storagePut ((fields.lookup "id").getD .null)
            ((fields.lookup "schema").getD .null) σ' with ⟨_ | _, σ''⟩
          · rfl
          · exact ih _ _ _
    | _ => rfl

/-- **The loop is a turn for each entry** it gets to. -/
theorem primeCache_run (contracts : List Json) (loaded : ℕ) (σ : SyncState) :
    ∃ n, (u.primeCache contracts loaded σ).2 =
      run u.processStep ((contracts.take n).map .prime) σ := by
  induction contracts generalizing loaded σ with
  | nil => exact ⟨0, rfl⟩
  | cons contract contracts ih =>
    have hone : (u.primeCache [contract] loaded σ).2 = u.processStep (.prime contract) σ :=
      primeCache_loaded [contract] loaded 0 σ
    rw [primeCache_cons]
    rcases hprime : u.primeCache [contract] loaded σ with ⟨exc | loaded', σ'⟩
    · rw [hprime] at hone
      exact ⟨1, hone⟩
    · obtain ⟨n, hn⟩ := ih loaded' σ'
      rw [hprime] at hone
      obtain rfl : σ' = u.processStep (.prime contract) σ := hone
      exact ⟨n + 1, hn⟩

/-- A batch applied is primed entry by entry, then written to disk or not. -/
theorem applyContracts_run (contracts : Option (List Json)) (fetched : Bool) (o : Outside)
    (σ : SyncState) :
    ∃ es, (u.applyContracts contracts fetched o σ).2 = run u.processStep es σ := by
  obtain ⟨n, hn⟩ := primeCache_run (u := u) (contracts.getD []) 0 σ
  rw [applyContracts_eq]
  simp only [hn, snapshotAfter]
  split
  · next hwritten =>
    refine ⟨((contracts.getD []).take n).map .prime ++ [.persist (contracts.getD []) o], ?_⟩
    rw [run_concat]
    simp only [processStep, saveSnapshot, hwritten.2.2.2]
  · exact ⟨((contracts.getD []).take n).map .prime, rfl⟩

/-- **A whole pass is a run of turns**: its fetch, then an entry at a time,
and the snapshot where it writes one. -/
theorem syncOnce_run (o : Outside) (σ : SyncState) :
    ∃ es, (u.syncOnce o σ).2 = run u.processStep es σ := by
  have hfetch : u.processStep (.fetch o) σ = (u.fetch o σ).2 := rfl
  unfold syncOnce
  rcases hf : u.fetch o σ with ⟨exc | ⟨contracts, fetched⟩, σ'⟩
  · exact ⟨[.fetch o], by rw [run_cons, hfetch, hf, run_nil]⟩
  · obtain ⟨es, hes⟩ := applyContracts_run (u := u) contracts fetched o σ'
    exact ⟨.fetch o :: es, by rw [run_cons, hfetch, hf]; exact hes⟩

theorem loadSnapshotOnly_run (o : Outside) (σ : SyncState) :
    ∃ es, (u.loadSnapshotOnly o σ).2 = run u.processStep es σ := by
  unfold loadSnapshotOnly
  rcases loadSnapshot σ.snapshot with exc | contracts
  · exact ⟨[], rfl⟩
  · exact applyContracts_run contracts false o σ

/-! ## What keeps the store vetted -/

theorem Vetted.agrees (h : u.Vetted σ) (ha : σ.Agrees σ') : u.Vetted σ' where
  wellFormed := ha.wellFormed h.wellFormed
  stored := by
    rw [ha.schemaStorage_eq, ha.admissions_eq]
    exact h.stored
  admitted := by
    rw [ha.admissions_eq]
    exact h.admitted

/-- **A write of an admitted schema**: it is the last under its key from
now on, and what it displaces is gone. -/
theorem Vetted.write (h : u.Vetted σ) (hcap : σ.schemaStorage.capacity ≠ 0)
    {w : Json.Key × Json} (hw : u.admits w.2 = true) :
    u.Vetted (u.write w σ) ∧ (u.write w σ).schemaStorage.capacity ≠ 0 := by
  obtain ⟨storage, heq, hwritten⟩ := write_spec (u := u) h.wellFormed hcap w
  rw [heq]
  refine ⟨⟨hwritten.wellFormed, fun key schema expireAt hstored => ?_, fun a ha => ?_⟩,
    hwritten.capacity_eq ▸ hcap⟩
  · by_cases hkey : key = w.1
    · subst hkey
      obtain ⟨rfl, rfl⟩ := Prod.mk.inj (Option.some.inj (hwritten.entry_self.symm.trans hstored))
      exact ⟨u.clock σ.instants, lastWrite_concat_self _ _ _, rfl⟩
    · have hold : σ.schemaStorage.stored? key = some (schema, expireAt) := by
        rcases hwritten.entry_other key hkey with hkept | hgone
        · exact hkept.symm.trans hstored
        · rw [hgone] at hstored
          cases hstored
      rw [lastWrite_concat_ne hkey]
      exact h.stored key schema expireAt hold
  · rcases List.mem_append.mp ha with hold | hnew
    · exact h.admitted a hold
    · rw [List.mem_singleton.mp hnew]
      exact hw

theorem Vetted.run_write (h : u.Vetted σ) (hcap : σ.schemaStorage.capacity ≠ 0)
    {ws : List (Json.Key × Json)} (hws : ∀ w ∈ ws, u.admits w.2 = true) :
    u.Vetted (run u.write ws σ) := by
  have hstep : ∀ (w : Json.Key × Json) (σ : SyncState), u.admits w.2 = true →
      (u.Vetted σ ∧ σ.schemaStorage.capacity ≠ 0) →
      u.Vetted (u.write w σ) ∧ (u.write w σ).schemaStorage.capacity ≠ 0 :=
    fun w σ hw hv => hv.1.write hv.2 hw
  exact (run_invariant hstep (along_of_forall (fun w hw _ => hws w hw) σ) ⟨h, hcap⟩).1

/-- Dropping expired entries leaves the others as they were. -/
theorem Vetted.aged (h : u.Vetted σ) {storage : LFUCache Json.Key Json}
    (haged : LFUCache.Aged σ.schemaStorage storage (u.clock σ.instants)) :
    u.Vetted { σ with schemaStorage := storage, instants := σ.instants + 1 } where
  wellFormed := haged.wellFormed
  stored key schema expireAt hstored := h.stored key schema expireAt (haged.entry_of hstored)
  admitted := h.admitted

/-- What is written of a batch was admitted. -/
theorem admits_of_mem_writesOf {contracts : List Json} {w : Json.Key × Json}
    (hw : w ∈ u.writesOf contracts) : u.admits w.2 = true := by
  obtain ⟨contract, -, hwrite⟩ := List.mem_filterMap.mp hw
  obtain ⟨key, schema⟩ := w
  obtain ⟨id, hentry, -⟩ := writeOf_eq_some_iff.mp hwrite
  simp only [admittedEntry, Option.ite_none_right_eq_some, Option.some.injEq, Prod.mk.injEq]
    at hentry
  obtain ⟨⟨-, -, hadmits⟩, -, rfl⟩ := hentry
  exact hadmits

/-- **Priming keeps the store vetted**, whatever the batch and wherever the
loop ends. -/
theorem Vetted.primeCache (h : u.Vetted σ) (contracts : List Json) (loaded : ℕ) :
    u.Vetted (u.primeCache contracts loaded σ).2 := by
  by_cases hcap : σ.schemaStorage.capacity = 0
  · exact h.agrees (primeCache_zero hcap contracts loaded).1
  · have hcases := primeCache_cases (u := u) h.wellFormed hcap contracts loaded
    generalize u.primeCache contracts loaded σ = out at hcases
    cases hcases with
    | done _ hσ' => exact (h.run_write hcap fun w hw => admits_of_mem_writesOf hw).agrees hσ'
    | stopped _ _ hσ' => exact (h.run_write hcap fun w hw => admits_of_mem_writesOf hw).agrees hσ'

/-- **Every turn keeps the store vetted.** -/
theorem Vetted.processStep (h : u.Vetted σ) (e : ProcessEvent) :
    u.Vetted (u.processStep e σ) := by
  cases e with
  | fetch o => exact h.agrees (u.fetch_agrees o σ)
  | prime contract => exact h.primeCache [contract] 0
  | persist contracts o =>
    simp only [SyncContractsUseCase.processStep]
    split
    · exact ⟨h.wellFormed, h.stored, h.admitted⟩
    · exact h
  | read key =>
    obtain ⟨storage, hget, haged⟩ := LFUCache.get_spec h.wellFormed (u.clock σ.instants) key
    simp only [SyncContractsUseCase.processStep, step, read, hget]
    exact h.aged haged
  | sweep => exact h.aged (LFUCache.sweepExpired_spec h.wellFormed (u.clock σ.instants))
  | advance => exact h.agrees ⟨rfl, rfl, rfl, Nat.le_succ _⟩

theorem vetted_started {capacity : ℕ} {ttlSeconds : ℤ} (h : Started capacity ttlSeconds σ) :
    u.Vetted σ := by
  obtain ⟨hstorage, hlog⟩ := h
  refine ⟨?_, fun key schema expireAt hstored => ?_, fun a ha => ?_⟩
  · rw [hstorage]
    exact LFUCache.wellFormed_new capacity ttlSeconds
  · rw [hstorage, LFUCache.stored?, AList.lookup_empty] at hstored
    cases hstored
  · rw [hlog] at ha
    cases ha

/-- **A run keeps the store vetted.** -/
theorem vetted_run {capacity : ℕ} {ttlSeconds : ℤ} (h : Started capacity ttlSeconds σ)
    (events : List ProcessEvent) : u.Vetted (run u.processStep events σ) := by
  have hstep : ∀ e σ, u.Vetted σ → u.Vetted (u.processStep e σ) := fun e σ h => h.processStep e
  exact run_of_kept hstep (vetted_started h) events

/-- **What a lookup finds** is the schema admitted last under the key, and
alive. An entry displaced in a full cache is not found. -/
theorem Vetted.read_some (h : u.Vetted σ) {key : Json.Key} {schema : Json}
    (hread : (u.read key σ).1 = .ok (some schema)) :
    u.lastKnownGood σ key = some schema ∧ u.admits schema = true := by
  obtain ⟨storage, hget, -⟩ := LFUCache.get_spec h.wellFormed (u.clock σ.instants) key
  simp only [read, hget, Except.ok.injEq, LFUCache.peek] at hread
  rcases hstored : σ.schemaStorage.stored? key with _ | ⟨schema', expireAt⟩
  · rw [hstored] at hread
    cases hread
  · rw [hstored, Option.bind_some] at hread
    obtain ⟨admittedAt, hlast, rfl⟩ := h.stored key schema' expireAt hstored
    simp only [LFUCache.isExpired, decide_eq_true_eq] at hread
    split_ifs at hread with hexpired
    obtain rfl := Option.some.inj hread
    obtain ⟨before, after, hlog, -⟩ := lastWrite_eq_some_iff.mp hlast
    refine ⟨?_, h.admitted (key, schema', admittedAt) (by rw [hlog]; simp)⟩
    rw [lastKnownGood, hlast, Option.bind_some]
    exact if_pos (not_le.mp hexpired)

end Host

end SyncContractsUseCase

end Congine
