import Congine.UseCases.SyncTotality
/-!
# The last known good version

Between passes the cache is read, swept and left to age. In every run the
log of admissions says what a read finds: the version admitted last, as
long as its time to live has not run out since. A pass that fails or
rejects an update adds nothing to the log, and so changes no answer; nor
does it renew one, and a version nobody admits again in time is gone.
-/

namespace Congine

inductive SyncEvent where
  | pass (o : Outside)
  | read (key : Json.Key)
  | sweep
  | advance

namespace SyncContractsUseCase

variable (u : SyncContractsUseCase)

/-- `schema_storage.get(contract_id)`. -/
def read (key : Json.Key) (σ : SyncState) : Except Exc (Option Json) × SyncState :=
  match σ.schemaStorage.get (u.clock σ.instants) key with
  | .error exc => (.error exc, { σ with instants := σ.instants + 1 })
  | .ok (found, schemaStorage) =>
      (.ok found, { σ with schemaStorage := schemaStorage, instants := σ.instants + 1 })

/-- One event. A sweep takes one reading of the clock. -/
def step [Host] : SyncEvent → SyncState → SyncState
  | .pass o, σ => (u.syncOnce o σ).2
  | .read key, σ => (u.read key σ).2
  | .sweep, σ =>
      { σ with
        schemaStorage := (σ.schemaStorage.sweepExpired (u.clock σ.instants)).2
        instants := σ.instants + 1 }
  | .advance, σ => { σ with instants := σ.instants + 1 }

/-- What a read should find: the version admitted last, while it lives. -/
def lastKnownGood (σ : SyncState) (key : Json.Key) : Option Json :=
  (lastWrite key σ.admissions).bind fun (schema, admittedAt) =>
    if u.clock σ.instants < admittedAt + (u.cacheTtlSeconds : ℤ) then some schema else none

/-- The store holds the version of a key admitted last, or dropped it once
it had expired. -/
def HoldsLast (σ : SyncState) (key : Json.Key) : Prop :=
  match lastWrite key σ.admissions with
  | none => σ.schemaStorage.stored? key = none
  | some (schema, admittedAt) =>
      σ.schemaStorage.stored? key = some (schema, admittedAt + (u.cacheTtlSeconds : ℤ)) ∨
        σ.schemaStorage.stored? key = none ∧
          ∃ i < σ.instants, admittedAt + (u.cacheTtlSeconds : ℤ) ≤ u.clock i

/-- **The store tracks the log**, and holds keys of a set it has room for. -/
structure Tracks (S : Finset Json.Key) (σ : SyncState) : Prop where
  fits : σ.schemaStorage.Fits S
  holdsLast : ∀ key, u.HoldsLast σ key

/-- Every schema admitted so far has its key in a set. -/
def KeysIn (S : Finset Json.Key) (σ : SyncState) : Prop := ∀ a ∈ σ.admissions, a.1 ∈ S

variable {u} {S : Finset Json.Key} {σ σ' : SyncState}

/-! ## What keeps the store on the log -/

/-- An answer outlives a step that leaves its entry and its log. -/
theorem HoldsLast.later {key : Json.Key} (h : u.HoldsLast σ key)
    (hlog : lastWrite key σ'.admissions = lastWrite key σ.admissions)
    (hentry : σ'.schemaStorage.stored? key = σ.schemaStorage.stored? key)
    (hle : σ.instants ≤ σ'.instants) : u.HoldsLast σ' key := by
  unfold HoldsLast at h ⊢
  rw [hlog, hentry]
  split at h
  · exact h
  · rcases h with hkept | ⟨hgone, i, hi, hexp⟩
    · exact .inl hkept
    · exact .inr ⟨hgone, i, lt_of_lt_of_le hi hle, hexp⟩

theorem Tracks.agrees (h : u.Tracks S σ) (ha : σ.Agrees σ') : u.Tracks S σ' where
  fits := ha.schemaStorage_eq ▸ h.fits
  holdsLast key := (h.holdsLast key).later (by rw [ha.admissions_eq])
    (by rw [ha.schemaStorage_eq]) ha.instants_le

/-- **A write keeps the store on the log.** -/
theorem Tracks.write (h : u.Tracks S σ) {w : Json.Key × Json} (hw : w.1 ∈ S) :
    u.Tracks S (u.write w σ) := by
  have hcap : σ.schemaStorage.capacity ≠ 0 :=
    Nat.ne_of_gt (lt_of_lt_of_le (Finset.card_pos.mpr ⟨_, hw⟩) h.fits.card_le)
  obtain ⟨storage, heq, hwritten⟩ := write_spec (u := u) h.fits.wellFormed hcap w
  rw [heq]
  refine ⟨hwritten.fits h.fits hw, fun key => ?_⟩
  by_cases hkey : key = w.1
  · subst hkey
    unfold HoldsLast
    rw [lastWrite_concat_self]
    exact .inl hwritten.entry_self
  · exact (h.holdsLast key).later (lastWrite_concat_ne hkey _ _)
      (hwritten.entry_kept (h.fits.room hw) key hkey) (Nat.le_succ _)

theorem Tracks.run_write (h : u.Tracks S σ) {ws : List (Json.Key × Json)}
    (hws : ∀ w ∈ ws, w.1 ∈ S) : u.Tracks S (run u.write ws σ) := by
  have hstep : ∀ w σ, w.1 ∈ S → u.Tracks S σ → u.Tracks S (u.write w σ) :=
    fun _ _ hw ht => ht.write hw
  exact run_invariant hstep (along_of_forall (fun w hw _ => hws w hw) σ) h

/-- **Dropping expired entries** keeps the store on the log. -/
theorem Tracks.aged (h : u.Tracks S σ) {storage : LFUCache Json.Key Json}
    (haged : LFUCache.Aged σ.schemaStorage storage (u.clock σ.instants)) :
    u.Tracks S { σ with schemaStorage := storage, instants := σ.instants + 1 } := by
  refine ⟨⟨haged.wellFormed, fun key hkey => ?_, haged.capacity_eq ▸ h.fits.card_le⟩,
    fun key => ?_⟩
  · obtain ⟨entry, hsome⟩ := LFUCache.mem_keyToValue_iff.mp hkey
    exact h.fits.stored_mem key (LFUCache.mem_keyToValue_iff.mpr ⟨entry, haged.entry_of hsome⟩)
  · rcases haged.entry_kept key with hkept | ⟨hgone, entry, hsome, hexp⟩
    · exact (h.holdsLast key).later rfl hkept (Nat.le_succ _)
    · have hlast := h.holdsLast key
      unfold HoldsLast at hlast ⊢
      simp only
      split at hlast
      · exact hgone
      · rcases hlast with hkept | ⟨hnone, -⟩
        -- It is dropped now, so it has expired by this instant.
        · rw [hsome, Option.some.injEq] at hkept
          rw [hkept] at hexp
          exact .inr ⟨hgone, σ.instants, Nat.lt_succ_self _, hexp⟩
        · rw [hsome] at hnone
          cases hnone

/-- A process that has stored nothing yet, whatever is on disk. -/
def Started (capacity : ℕ) (ttlSeconds : ℤ) (σ : SyncState) : Prop :=
  σ.schemaStorage = { capacity, ttlSeconds } ∧ σ.admissions = []

section Host

variable [Host]

/-- **A pass writes admitted entries of its batch**, in the state its fetch
leaves, and stores nothing else. -/
theorem syncOnce_writes (hwf : σ.schemaStorage.WellFormed) (o : Outside) :
    ∃ ws σ₁ σ₂, (∀ w ∈ ws, w ∈ u.writesOf (u.delivered o σ)) ∧ σ.Agrees σ₁ ∧
      (ws ≠ [] → σ.schemaStorage.capacity ≠ 0) ∧ (run u.write ws σ₁).Agrees σ₂ ∧
      ∃ snapshot, (u.syncOnce o σ).2 = { σ₂ with snapshot := snapshot } := by
  have hagree := u.fetch_agrees o σ
  cases hfetch : (u.fetch o σ).1 with
  | error exc =>
    rw [syncOnce_error hfetch]
    exact ⟨[], (u.fetch o σ).2, (u.fetch o σ).2, fun w hw => absurd hw List.not_mem_nil, hagree,
      fun h => absurd rfl h, SyncState.Agrees.refl _, _, rfl⟩
  | ok obtained =>
    obtain ⟨contracts, fetched⟩ := obtained
    rw [syncOnce_eq hfetch]
    by_cases hcap : σ.schemaStorage.capacity = 0
    · obtain ⟨hzero, -⟩ := primeCache_zero (u := u) (σ := (u.fetch o σ).2)
        (by rw [hagree.schemaStorage_eq]; exact hcap) (u.delivered o σ) 0
      exact ⟨[], (u.fetch o σ).2, _, fun w hw => absurd hw List.not_mem_nil, hagree,
        fun h => absurd rfl h, hzero, _, rfl⟩
    · have hcases := primeCache_cases (u := u) (hagree.wellFormed hwf) (hagree.capacity_ne hcap)
        (u.delivered o σ) 0
      generalize u.primeCache (u.delivered o σ) 0 (u.fetch o σ).2 = out at hcases
      cases hcases with
      | @done loaded σ' hpass hσ' =>
        exact ⟨_, _, σ', fun w hw => hw, hagree, fun _ => hcap, hσ', _, rfl⟩
      | @stopped exc σ' before after contract hsplit hpass hσ' =>
        refine ⟨_, _, σ', fun w hw => ?_, hagree, fun _ => hcap, hσ', _, rfl⟩
        rw [hsplit, writesOf, List.filterMap_append]
        exact List.mem_append_left _ hw

/-- **A pass only adds to the log**, and adds only writes of its batch. -/
theorem syncOnce_admissions (hwf : σ.schemaStorage.WellFormed) (o : Outside) :
    ∃ added, (u.syncOnce o σ).2.admissions = σ.admissions ++ added ∧
      ∀ a ∈ added, (a.1, a.2.1) ∈ u.writesOf (u.delivered o σ) := by
  obtain ⟨ws, σ₁, σ₂, hws, hσ₁, hcap, hσ₂, snapshot, heq⟩ := syncOnce_writes (u := u) hwf o
  rw [heq, hσ₂.admissions_eq]
  by_cases hnil : ws = []
  · refine ⟨[], ?_, fun a ha => absurd ha List.not_mem_nil⟩
    rw [hnil, run_nil, hσ₁.admissions_eq, List.append_nil]
  · obtain ⟨added, hadded, hmap⟩ := (run_write_spec (u := u) (hσ₁.wellFormed hwf)
      (hσ₁.capacity_ne (hcap hnil)) ws).admissions_eq
    refine ⟨added, by rw [hadded, hσ₁.admissions_eq], fun a ha => hws _ ?_⟩
    rw [← hmap]
    exact List.mem_map_of_mem ha

/-- **Every event keeps the store on the log**, as long as the keys put into
it are among those it has room for. -/
theorem Tracks.step (h : u.Tracks S σ) (e : SyncEvent)
    (hkeys : KeysIn S (u.step e σ)) : u.Tracks S (u.step e σ) := by
  have hwf := h.fits.wellFormed
  cases e with
  | pass o =>
    obtain ⟨ws, σ₁, σ₂, hws, hσ₁, hcap, hσ₂, snapshot, heq⟩ := syncOnce_writes (u := u) hwf o
    -- Whatever a pass writes it logs.
    have hkeys' : ∀ w ∈ ws, w.1 ∈ S := by
      intro w hw
      obtain ⟨added, hadded, hmap⟩ := (run_write_spec (u := u) (hσ₁.wellFormed hwf)
        (hσ₁.capacity_ne (hcap (List.ne_nil_of_mem hw))) ws).admissions_eq
      rw [← hmap] at hw
      obtain ⟨a, ha, rfl⟩ := List.mem_map.mp hw
      refine hkeys a ?_
      simp only [SyncContractsUseCase.step]
      rw [heq, hσ₂.admissions_eq, hadded]
      exact List.mem_append_right _ ha
    simp only [SyncContractsUseCase.step]
    rw [heq]
    have htracks := ((h.agrees hσ₁).run_write hkeys').agrees hσ₂
    exact ⟨htracks.fits, htracks.holdsLast⟩
  | read key =>
    obtain ⟨storage, hget, haged⟩ := LFUCache.get_spec hwf (u.clock σ.instants) key
    simp only [SyncContractsUseCase.step, read, hget]
    exact h.aged haged
  | sweep => exact h.aged (LFUCache.sweepExpired_spec hwf (u.clock σ.instants))
  | advance => exact h.agrees ⟨rfl, rfl, rfl, Nat.le_succ _⟩

/-- **Every event keeps the cache sound** and of its capacity, and only adds
to the log. -/
theorem step_wellFormed (hwf : σ.schemaStorage.WellFormed) (e : SyncEvent) :
    (u.step e σ).schemaStorage.WellFormed ∧
      (u.step e σ).schemaStorage.capacity = σ.schemaStorage.capacity ∧
      σ.admissions ⊆ (u.step e σ).admissions := by
  cases e with
  | pass o =>
    obtain ⟨ws, σ₁, σ₂, -, hσ₁, hcap, hσ₂, snapshot, heq⟩ := syncOnce_writes (u := u) hwf o
    obtain ⟨added, hadded, -⟩ := syncOnce_admissions (u := u) hwf o
    have hlog : σ.admissions ⊆ (u.syncOnce o σ).2.admissions := by
      rw [hadded]
      exact List.subset_append_left _ _
    simp only [step]
    refine ⟨?_, ?_, hlog⟩ <;> rw [heq, hσ₂.schemaStorage_eq]
    · by_cases hnil : ws = []
      · rw [hnil, run_nil]
        exact hσ₁.wellFormed hwf
      · exact (run_write_spec (u := u) (hσ₁.wellFormed hwf)
          (hσ₁.capacity_ne (hcap hnil)) ws).wellFormed
    · by_cases hnil : ws = []
      · rw [hnil, run_nil, hσ₁.schemaStorage_eq]
      · rw [(run_write_spec (u := u) (hσ₁.wellFormed hwf)
          (hσ₁.capacity_ne (hcap hnil)) ws).capacity_eq, hσ₁.schemaStorage_eq]
  | read key =>
    obtain ⟨storage, hget, haged⟩ := LFUCache.get_spec hwf (u.clock σ.instants) key
    simp only [step, read, hget]
    exact ⟨haged.wellFormed, haged.capacity_eq, List.Subset.refl _⟩
  | sweep =>
    have haged := LFUCache.sweepExpired_spec hwf (u.clock σ.instants)
    exact ⟨haged.wellFormed, haged.capacity_eq, List.Subset.refl _⟩
  | advance => exact ⟨hwf, rfl, List.Subset.refl _⟩

end Host

/-! ## A version that runs out -/

/-- An update that admission refuses. -/
def refusedOrders : Json :=
  .obj [("id", .str "orders"), ("schema", .obj [("frobnicate", .int 1)])]

/-- The contract is stored, its update refused, and a read comes when the
stored version has just run out. -/
def refusedUpdate : List SyncEvent :=
  [.pass (deliver [ordersContract]), .pass (deliver [refusedOrders])]

end SyncContractsUseCase

end Congine
