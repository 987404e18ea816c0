import Congine.Common.LastWrite
import Congine.Common.Runs
import Congine.Infrastructure.LfuCacheSpec
import Congine.UseCases.SyncContracts
/-!
# What a pass writes

The entries of a batch that admission lets through, in order, are the
writes of a pass over it. The loop performs them one by one and stops at
the first entry it cannot get past: one that is not an object, or an
admitted one whose id is not hashable. What the store holds afterwards is
the last write to each key over what it held before.
-/

namespace Congine

namespace SyncContractsUseCase

variable (u : SyncContractsUseCase)

/-- One admitted schema put into the store. -/
def write (w : Json.Key × Json) (σ : SyncState) : SyncState :=
  match σ.schemaStorage.put (u.clock σ.instants) w.1 w.2 (some u.cacheTtlSeconds) with
  | .error _ => σ
  | .ok schemaStorage =>
      { σ with
        schemaStorage := schemaStorage
        instants := σ.instants + 1
        admissions := σ.admissions ++ [(w.1, w.2, u.clock σ.instants)] }

section Host

variable [Host]

/-- Whether a schema gets through the gate. -/
def admits (schema : Json) : Bool :=
  (u.admissionError schema).isNone &&
    (admitContract schema u.admissionMode u.enforcedKeywords u.semanticCapability).admitted

/-- The id and schema of an entry that is admitted. -/
def admittedEntry (contract : Json) : Option (Json × Json) :=
  let contractId := (contract.get? "id").getD .null
  let schema := (contract.get? "schema").getD .null
  if contractId.truthy ∧ ¬ schema.isNull ∧ u.admits schema then some (contractId, schema) else none

/-- What storing an entry writes. -/
def writeOf (contract : Json) : Option (Json.Key × Json) :=
  (u.admittedEntry contract).bind fun entry => entry.1.hash?.map fun key => (key, entry.2)

/-- The writes of a batch, in order. -/
def writesOf (contracts : List Json) : List (Json.Key × Json) := contracts.filterMap u.writeOf

/-- The loop gets past an entry. -/
def Passable (contract : Json) : Prop :=
  contract.isObj ∧ ∀ entry, u.admittedEntry contract = some entry → entry.1.hash?.isSome

end Host

end SyncContractsUseCase

/-! ## States up to what no entry is stored by -/

/-- A later state with the same store, snapshot and log. -/
structure SyncState.Agrees (σ σ' : SyncState) : Prop where
  schemaStorage_eq : σ'.schemaStorage = σ.schemaStorage
  snapshot_eq : σ'.snapshot = σ.snapshot
  admissions_eq : σ'.admissions = σ.admissions
  instants_le : σ.instants ≤ σ'.instants

theorem SyncState.Agrees.refl (σ : SyncState) : σ.Agrees σ := ⟨rfl, rfl, rfl, le_rfl⟩

theorem SyncState.Agrees.trans {σ₁ σ₂ σ₃ : SyncState} (h : σ₁.Agrees σ₂) (h' : σ₂.Agrees σ₃) :
    σ₁.Agrees σ₃ :=
  ⟨h'.schemaStorage_eq.trans h.schemaStorage_eq, h'.snapshot_eq.trans h.snapshot_eq,
    h'.admissions_eq.trans h.admissions_eq, le_trans h.instants_le h'.instants_le⟩

theorem SyncState.Agrees.wellFormed {σ σ' : SyncState} (h : σ.Agrees σ')
    (hwf : σ.schemaStorage.WellFormed) : σ'.schemaStorage.WellFormed := by
  rw [h.schemaStorage_eq]
  exact hwf

theorem SyncState.Agrees.capacity_ne {σ σ' : SyncState} (h : σ.Agrees σ')
    (hcap : σ.schemaStorage.capacity ≠ 0) : σ'.schemaStorage.capacity ≠ 0 := by
  rw [h.schemaStorage_eq]
  exact hcap

namespace SyncContractsUseCase

variable {u : SyncContractsUseCase}

/-! ## One write -/

/-- **A write stores its entry** and logs it. -/
theorem write_spec {σ : SyncState} (hwf : σ.schemaStorage.WellFormed)
    (hcap : σ.schemaStorage.capacity ≠ 0) (w : Json.Key × Json) :
    ∃ storage, u.write w σ = { σ with
        schemaStorage := storage
        instants := σ.instants + 1
        admissions := σ.admissions ++ [(w.1, w.2, u.clock σ.instants)] } ∧
      LFUCache.Written σ.schemaStorage storage w.1
        (w.2, u.clock σ.instants + (u.cacheTtlSeconds : ℤ)) := by
  obtain ⟨storage, heq, hwritten⟩ :=
    LFUCache.put_spec hwf hcap (u.clock σ.instants) w.1 w.2 (some u.cacheTtlSeconds)
  refine ⟨storage, ?_, hwritten⟩
  simp only [write, heq]

/-- Storing an admitted entry, by its id. -/
theorem storagePut_spec {σ : SyncState} (hwf : σ.schemaStorage.WellFormed)
    (hcap : σ.schemaStorage.capacity ≠ 0) (contractId schema : Json) :
    (∃ key, contractId.hash? = some key ∧
        u.storagePut contractId schema σ = (.ok (), u.write (key, schema) σ)) ∨
      contractId.hash? = none ∧
        u.storagePut contractId schema σ =
          (.error .typeError, { σ with instants := σ.instants + 1 }) := by
  unfold storagePut
  rw [if_neg hcap]
  cases hhash : contractId.hash? with
  | none => exact .inr ⟨rfl, rfl⟩
  | some key =>
    obtain ⟨storage, heq, -⟩ :=
      LFUCache.put_spec hwf hcap (u.clock σ.instants) key schema (some u.cacheTtlSeconds)
    exact .inl ⟨key, rfl, by simp only [write, heq]⟩

theorem write_health (w : Json.Key × Json) (σ : SyncState) (health : AdmissionHealth) :
    u.write w { σ with health := health } = { u.write w σ with health := health } := by
  unfold write
  simp only
  split <;> rfl

theorem run_write_health (ws : List (Json.Key × Json)) (σ : SyncState)
    (health : AdmissionHealth) :
    run u.write ws { σ with health := health } =
      { run u.write ws σ with health := health } := by
  induction ws generalizing σ with
  | nil => rfl
  | cons w ws ih => rw [run_cons, run_cons, write_health, ih]

/-! ## Many writes -/

/-- What writes leave: the store, the clock and the log move, and nothing
else. -/
structure Wrote (σ : SyncState) (ws : List (Json.Key × Json)) (σ' : SyncState) : Prop where
  wellFormed : σ'.schemaStorage.WellFormed
  capacity_eq : σ'.schemaStorage.capacity = σ.schemaStorage.capacity
  snapshot_eq : σ'.snapshot = σ.snapshot
  instants_le : σ.instants ≤ σ'.instants
  /-- Each write is logged. -/
  admissions_eq : ∃ added, σ'.admissions = σ.admissions ++ added ∧
    added.map (Prod.map id Prod.fst) = ws
  /-- A written key holds its last write, unless it was evicted since. -/
  entry_last : ∀ key schema, lastWrite key ws = some schema →
    ∀ entry, σ'.schemaStorage.stored? key = some entry → entry.1 = schema
  entry_other : ∀ key, lastWrite key ws = none →
    σ'.schemaStorage.stored? key = σ.schemaStorage.stored? key ∨
      σ'.schemaStorage.stored? key = none

theorem run_write_spec {σ : SyncState} (hwf : σ.schemaStorage.WellFormed)
    (hcap : σ.schemaStorage.capacity ≠ 0) (ws : List (Json.Key × Json)) :
    Wrote σ ws (run u.write ws σ) := by
  induction ws generalizing σ with
  | nil =>
    exact {
      wellFormed := hwf
      capacity_eq := rfl
      snapshot_eq := rfl
      instants_le := le_rfl
      admissions_eq := ⟨[], (List.append_nil _).symm, rfl⟩
      entry_last := fun key schema h => by cases h
      entry_other := fun key _ => .inl rfl }
  | cons w ws ih =>
    obtain ⟨storage, heq, hwritten⟩ := write_spec (u := u) hwf hcap w
    rw [run_cons, heq]
    have hrest := ih (σ := { σ with
      schemaStorage := storage
      instants := σ.instants + 1
      admissions := σ.admissions ++ [(w.1, w.2, u.clock σ.instants)] })
      hwritten.wellFormed (by simpa [hwritten.capacity_eq] using hcap)
    obtain ⟨added, hadded, hmap⟩ := hrest.admissions_eq
    refine {
      wellFormed := hrest.wellFormed
      capacity_eq := hrest.capacity_eq.trans hwritten.capacity_eq
      snapshot_eq := hrest.snapshot_eq
      instants_le := le_trans (Nat.le_succ _) hrest.instants_le
      admissions_eq := ⟨(w.1, w.2, u.clock σ.instants) :: added, ?_, ?_⟩
      entry_last := fun key schema hlast entry hentry => ?_
      entry_other := fun key hnone => ?_ }
    · rw [hadded, List.append_assoc, List.singleton_append]
    · rw [List.map_cons, hmap]
      rfl
    · -- Either a later write to the key decides, or this one and nothing after it.
      rw [lastWrite_cons] at hlast
      cases hws : lastWrite key ws with
      | some schema' =>
        rw [hws, Option.some_or, Option.some.injEq] at hlast
        exact hlast ▸ hrest.entry_last key schema' hws entry hentry
      | none =>
        rw [hws, Option.none_or] at hlast
        split_ifs at hlast with hkey
        rcases hrest.entry_other key hws with hkept | hgone
        · rw [hkept, hkey, hwritten.entry_self, Option.some.injEq] at hentry
          rw [← hentry]
          exact Option.some.inj hlast
        · rw [hgone] at hentry
          cases hentry
    · rw [lastWrite_cons, Option.or_eq_none_iff] at hnone
      obtain ⟨hws, hne⟩ := hnone
      have hkey : key ≠ w.1 := fun h => by simp [h] at hne
      rcases hrest.entry_other key hws with hkept | hgone
      · rw [hkept]
        exact hwritten.entry_other key hkey
      · exact .inr hgone

theorem write_size_le {σ : SyncState} (hwf : σ.schemaStorage.WellFormed)
    (hsize : σ.schemaStorage.size ≤ σ.schemaStorage.capacity) (w : Json.Key × Json) :
    (u.write w σ).schemaStorage.size ≤ (u.write w σ).schemaStorage.capacity := by
  unfold write
  split
  · exact hsize
  · next hput => exact LFUCache.put_size_le hwf hsize hput

/-- **No writes outgrow the cache.** -/
theorem run_write_size_le {σ : SyncState} (hwf : σ.schemaStorage.WellFormed)
    (hcap : σ.schemaStorage.capacity ≠ 0)
    (hsize : σ.schemaStorage.size ≤ σ.schemaStorage.capacity) (ws : List (Json.Key × Json)) :
    (run u.write ws σ).schemaStorage.size ≤ σ.schemaStorage.capacity := by
  have hkept : ∀ (w : Json.Key × Json) (σ : SyncState),
      (σ.schemaStorage.WellFormed ∧ σ.schemaStorage.capacity ≠ 0 ∧
        σ.schemaStorage.size ≤ σ.schemaStorage.capacity) →
      (u.write w σ).schemaStorage.WellFormed ∧ (u.write w σ).schemaStorage.capacity ≠ 0 ∧
        (u.write w σ).schemaStorage.size ≤ (u.write w σ).schemaStorage.capacity := by
    rintro w σ ⟨hwf, hcap, hsize⟩
    have hle := write_size_le (u := u) hwf hsize w
    obtain ⟨storage, heq, hwritten⟩ := write_spec (u := u) hwf hcap w
    rw [heq] at hle ⊢
    exact ⟨hwritten.wellFormed, hwritten.capacity_eq ▸ hcap, hle⟩
  obtain ⟨-, -, hle⟩ := run_of_kept hkept ⟨hwf, hcap, hsize⟩ ws
  rwa [(run_write_spec hwf hcap ws).capacity_eq] at hle

/-- **Within capacity nothing is evicted**: a written key holds its last
write, and any other what it held. -/
theorem run_write_fits {σ : SyncState} {S : Finset Json.Key} (hfits : σ.schemaStorage.Fits S)
    {ws : List (Json.Key × Json)} (hws : ∀ w ∈ ws, w.1 ∈ S) :
    (run u.write ws σ).schemaStorage.Fits S ∧
      ∀ key, (∀ schema, lastWrite key ws = some schema →
          ((run u.write ws σ).schemaStorage.stored? key).map Prod.fst = some schema) ∧
        (lastWrite key ws = none →
          (run u.write ws σ).schemaStorage.stored? key = σ.schemaStorage.stored? key) := by
  induction ws generalizing σ with
  | nil => exact ⟨hfits, fun key => ⟨fun schema h => (by cases h), fun _ => rfl⟩⟩
  | cons w ws ih =>
    have hw : w.1 ∈ S := hws w List.mem_cons_self
    have hcap : σ.schemaStorage.capacity ≠ 0 :=
      Nat.ne_of_gt (lt_of_lt_of_le (Finset.card_pos.mpr ⟨_, hw⟩) hfits.card_le)
    obtain ⟨storage, heq, hwritten⟩ := write_spec (u := u) hfits.wellFormed hcap w
    rw [run_cons, heq]
    obtain ⟨hfits', hentries⟩ := ih (σ := { σ with
      schemaStorage := storage
      instants := σ.instants + 1
      admissions := σ.admissions ++ [(w.1, w.2, u.clock σ.instants)] })
      (hwritten.fits hfits hw) (fun w' hw' => hws w' (List.mem_cons_of_mem _ hw'))
    refine ⟨hfits', fun key => ⟨fun schema hlast => ?_, fun hnone => ?_⟩⟩
    · rw [lastWrite_cons] at hlast
      cases hrest : lastWrite key ws with
      | some schema' =>
        rw [hrest, Option.some_or] at hlast
        rw [(hentries key).1 schema' hrest, hlast]
      | none =>
        rw [hrest, Option.none_or] at hlast
        split_ifs at hlast with hkey
        rw [(hentries key).2 hrest, hkey, hwritten.entry_self]
        exact hlast
    · rw [lastWrite_cons, Option.or_eq_none_iff] at hnone
      have hkey : key ≠ w.1 := fun h => by simp [h] at hnone
      rw [(hentries key).2 hnone.1]
      exact hwritten.entry_kept (hfits.room hw) key hkey

/-! ## The loop -/

section Host

variable [Host]

/-- **Admission changes nothing but its counters.** -/
theorem admit_spec (contractId contract schema : Json) (σ : SyncState) :
    ∃ health, u.admit_ contractId contract schema σ =
      (u.admits schema, { σ with health := health }) := by
  unfold admit_ admits
  cases u.admissionError schema with
  | some errorType => exact ⟨_, rfl⟩
  | none =>
    simp only
    split
    · next h => exact ⟨σ.health, by simp [h]⟩
    · next h =>
      rw [Bool.eq_false_iff.mpr h]
      exact ⟨_, rfl⟩

omit [Host] in
variable (u) in
theorem storagePut_snapshot (contractId schema : Json) (σ : SyncState) :
    (u.storagePut contractId schema σ).2.snapshot = σ.snapshot := by
  unfold storagePut
  split
  · rfl
  · dsimp only
    split
    · rfl
    · split <;> rfl

/-- Priming writes no snapshot. -/
theorem primeCache_snapshot (contracts : List Json) (loaded : ℕ) (σ : SyncState) :
    (u.primeCache contracts loaded σ).2.snapshot = σ.snapshot := by
  induction contracts generalizing loaded σ with
  | nil => rfl
  | cons contract contracts ih =>
    cases contract with
    | obj fields =>
      unfold primeCache
      dsimp only
      split
      · exact ih loaded σ
      · obtain ⟨health, hgate⟩ := u.admit_spec ((fields.lookup "id").getD .null) (.obj fields)
          ((fields.lookup "schema").getD .null) σ
        rw [hgate]
        rcases u.admits ((fields.lookup "schema").getD .null) with _ | _
        · exact ih loaded { σ with health := health }
        · have hput := u.storagePut_snapshot ((fields.lookup "id").getD .null)
            ((fields.lookup "schema").getD .null) { σ with health := health }
          dsimp only
          split
          · rename_i heq
            rw [heq] at hput
            exact hput
          · rename_i σ' heq
            rw [heq] at hput
            exact (ih (loaded + 1) σ').trans hput
    | _ => rfl

/-- How the loop over a batch ends: past every entry, or at the first it
cannot get past. -/
inductive PrimeCases (u : SyncContractsUseCase) (contracts : List Json) (σ : SyncState) :
    Except Exc ℕ × SyncState → Prop
  | done {loaded : ℕ} {σ' : SyncState} (hpass : ∀ c ∈ contracts, u.Passable c)
      (hσ' : (run u.write (u.writesOf contracts) σ).Agrees σ') :
      PrimeCases u contracts σ (.ok loaded, σ')
  | stopped {exc : Exc} {σ' : SyncState} {before after : List Json} {contract : Json}
      (hsplit : contracts = before ++ contract :: after) (hpass : ¬ u.Passable contract)
      (hσ' : (run u.write (u.writesOf before) σ).Agrees σ') :
      PrimeCases u contracts σ (.error exc, σ')

/-- One more entry got past, whose write, if any, is done. -/
theorem PrimeCases.cons {contract : Json} {contracts : List Json} {σ σ₁ : SyncState}
    {out : Except Exc ℕ × SyncState} (h : PrimeCases u contracts σ₁ out)
    (hpass : u.Passable contract)
    (hσ₁ : ∃ health, σ₁ = { run u.write (u.writeOf contract).toList σ with health := health }) :
    PrimeCases u (contract :: contracts) σ out := by
  obtain ⟨health, rfl⟩ := hσ₁
  have hwrites : ∀ cs,
      u.writesOf (contract :: cs) = (u.writeOf contract).toList ++ u.writesOf cs := by
    intro cs
    unfold writesOf
    cases hw : u.writeOf contract with
    | none => simp [hw]
    | some w => simp [hw]
  have hagree : ∀ cs σ', (run u.write (u.writesOf cs)
      { run u.write (u.writeOf contract).toList σ with health := health }).Agrees σ' →
      (run u.write (u.writesOf (contract :: cs)) σ).Agrees σ' := by
    intro cs σ' h
    rw [run_write_health] at h
    rw [hwrites, run_append]
    exact ⟨h.schemaStorage_eq, h.snapshot_eq, h.admissions_eq, h.instants_le⟩
  cases h with
  | done hrest hσ' =>
    exact .done (List.forall_mem_cons.mpr ⟨hpass, hrest⟩) (hagree _ _ hσ')
  | @stopped exc σ' before after c hsplit hc hσ' =>
    have : contract :: contracts = (contract :: before) ++ c :: after := by rw [hsplit]; rfl
    exact .stopped this hc (hagree _ _ hσ')

/-- An entry with no write leaves the store alone. -/
theorem primeCache_skip {contract : Json} (hobj : contract.isObj = true)
    (hnone : u.admittedEntry contract = none) (contracts : List Json) (loaded : ℕ)
    (σ : SyncState) :
    ∃ health, u.primeCache (contract :: contracts) loaded σ =
      u.primeCache contracts loaded { σ with health := health } := by
  obtain ⟨fields, rfl⟩ : ∃ fields, contract = .obj fields := ⟨_, Json.eq_obj_of_isObj hobj⟩
  rw [primeCache]
  split
  · exact ⟨σ.health, rfl⟩
  · next hskip =>
    rw [not_or, Bool.not_eq_true', Bool.not_eq_false] at hskip
    obtain ⟨health, hgate⟩ := u.admit_spec ((fields.lookup "id").getD .null) (.obj fields)
      ((fields.lookup "schema").getD .null) σ
    have hrefused : u.admits ((fields.lookup "schema").getD .null) = false := by
      rw [Bool.eq_false_iff]
      intro h
      simp [admittedEntry, hskip.1, hskip.2, h] at hnone
    rw [hgate, hrefused]
    exact ⟨health, rfl⟩

/-- An admitted entry is stored. -/
theorem primeCache_admitted {contract contractId schema : Json}
    (hsome : u.admittedEntry contract = some (contractId, schema)) (contracts : List Json)
    (loaded : ℕ) (σ : SyncState) :
    contract.isObj = true ∧ ∃ health, u.primeCache (contract :: contracts) loaded σ =
      match u.storagePut contractId schema { σ with health := health } with
      | (.error exc, σ) => (.error exc, σ)
      | (.ok _, σ) => u.primeCache contracts (loaded + 1) σ := by
  simp only [admittedEntry, Option.ite_none_right_eq_some, Option.some.injEq, Prod.mk.injEq]
    at hsome
  obtain ⟨⟨ht, hn, hadmits⟩, rfl, rfl⟩ := hsome
  cases contract with
  | obj fields =>
    refine ⟨rfl, ?_⟩
    rw [Json.get?_obj] at ht hn hadmits
    rw [primeCache, if_neg (by simpa [ht] using hn)]
    obtain ⟨health, hgate⟩ := u.admit_spec ((fields.lookup "id").getD .null) (.obj fields)
      ((fields.lookup "schema").getD .null) σ
    rw [hgate, Json.get?_obj] at *
    rw [hadmits]
    exact ⟨health, rfl⟩
  | _ => cases ht

/-- **What the loop does** to a cache that can hold anything. -/
theorem primeCache_cases {σ : SyncState} (hwf : σ.schemaStorage.WellFormed)
    (hcap : σ.schemaStorage.capacity ≠ 0) (contracts : List Json) (loaded : ℕ) :
    PrimeCases u contracts σ (u.primeCache contracts loaded σ) := by
  induction contracts generalizing loaded σ with
  | nil => exact .done (fun c hc => absurd hc List.not_mem_nil) (SyncState.Agrees.refl σ)
  | cons contract contracts ih =>
    have hsplit : contract :: contracts = [] ++ contract :: contracts := rfl
    by_cases hobj : contract.isObj = true
    · cases hentry : u.admittedEntry contract with
      | none =>
        obtain ⟨health, heq⟩ := primeCache_skip hobj hentry contracts loaded σ
        rw [heq]
        have hpass : u.Passable contract :=
          ⟨hobj, fun entry h => by rw [hentry] at h; cases h⟩
        have hwrite : u.writeOf contract = none := by rw [writeOf, hentry]; rfl
        have hrest := ih (σ := { σ with health := health }) hwf hcap loaded
        exact hrest.cons hpass ⟨health, by rw [hwrite]; rfl⟩
      | some entry =>
        obtain ⟨contractId, schema⟩ := entry
        obtain ⟨-, health, heq⟩ := primeCache_admitted hentry contracts loaded σ
        rw [heq]
        rcases storagePut_spec (u := u) (σ := { σ with health := health }) hwf hcap contractId
          schema with ⟨key, hkey, hput⟩ | ⟨hnone, hput⟩
        · rw [hput]
          have hpass : u.Passable contract := by
            refine ⟨hobj, fun entry h => ?_⟩
            obtain rfl := Option.some.inj (hentry.symm.trans h)
            rw [hkey]
            rfl
          have hwrite : u.writeOf contract = some (key, schema) := by
            rw [writeOf, hentry, Option.bind_some, hkey]
            rfl
          obtain ⟨storage, hstep, hwritten⟩ :=
            write_spec (u := u) (σ := { σ with health := health }) hwf hcap (key, schema)
          have hrest := ih (σ := u.write (key, schema) { σ with health := health })
            (by rw [hstep]; exact hwritten.wellFormed)
            (by rw [hstep]; exact hwritten.capacity_eq ▸ hcap) (loaded + 1)
          refine hrest.cons hpass ⟨health, ?_⟩
          rw [hwrite, ← run_write_health]
          rfl
        · rw [hput]
          have hpass : ¬ u.Passable contract := by
            rintro ⟨-, h⟩
            have := h _ hentry
            rw [hnone] at this
            cases this
          exact .stopped hsplit hpass ⟨rfl, rfl, rfl, Nat.le_succ _⟩
    · have hraise :
          u.primeCache (contract :: contracts) loaded σ = (.error .attributeError, σ) := by
        cases contract with
        | obj fields => exact absurd rfl hobj
        | _ => rfl
      rw [hraise]
      exact .stopped hsplit (fun h => hobj h.1) (SyncState.Agrees.refl σ)

/-- A cache without capacity is never written, and no id is looked up in it. -/
theorem primeCache_zero {σ : SyncState} (hcap : σ.schemaStorage.capacity = 0)
    (contracts : List Json) (loaded : ℕ) :
    σ.Agrees (u.primeCache contracts loaded σ).2 ∧
      ((∃ n, (u.primeCache contracts loaded σ).1 = .ok n) ↔ ∀ c ∈ contracts, c.isObj = true) := by
  induction contracts generalizing loaded σ with
  | nil =>
    exact ⟨SyncState.Agrees.refl σ, fun _ c hc => absurd hc List.not_mem_nil, fun _ => ⟨_, rfl⟩⟩
  | cons contract contracts ih =>
    rw [List.forall_mem_cons]
    by_cases hobj : contract.isObj = true
    · rw [and_iff_right hobj]
      have hhealth : ∀ health, σ.Agrees { σ with health := health } :=
        fun health => ⟨rfl, rfl, rfl, le_rfl⟩
      cases hentry : u.admittedEntry contract with
      | none =>
        obtain ⟨health, heq⟩ := primeCache_skip hobj hentry contracts loaded σ
        obtain ⟨hagree, hok⟩ := ih (σ := { σ with health := health }) hcap loaded
        rw [heq]
        exact ⟨(hhealth health).trans hagree, hok⟩
      | some entry =>
        obtain ⟨contractId, schema⟩ := entry
        obtain ⟨-, health, heq⟩ := primeCache_admitted hentry contracts loaded σ
        obtain ⟨hagree, hok⟩ := ih (σ := { σ with health := health }) hcap (loaded + 1)
        rw [heq, storagePut, if_pos hcap]
        exact ⟨(hhealth health).trans hagree, hok⟩
    · have hraise :
          u.primeCache (contract :: contracts) loaded σ = (.error .attributeError, σ) := by
        cases contract with
        | obj fields => exact absurd rfl hobj
        | _ => rfl
      rw [hraise]
      exact ⟨SyncState.Agrees.refl σ, fun ⟨n, h⟩ => (by cases h), fun h => absurd h.1 hobj⟩

end Host

/-! ## The pass -/

/-- The snapshot after a pass over a batch. -/
def snapshotAfter (contracts : List Json) (fetched : Bool) (o : Outside) (returned : Bool)
    (file : SnapshotFile) : SnapshotFile :=
  if fetched ∧ returned ∧ contracts ≠ [] ∧ o.save = .written then
    .decoded (snapshotEnvelope contracts o.fetchedAt)
  else file

/-- What a pass over a batch returns: the count of the loop, unless the
write of the snapshot raises what is no `OSError`. -/
def returnedAfter (contracts : List Json) (fetched : Bool) (o : Outside) :
    Except Exc ℕ → Except Exc ℕ
  | .error exc => .error exc
  | .ok loaded =>
      match o.save with
      | .failed exc =>
          if fetched ∧ contracts ≠ [] ∧ !exc.isOSError then .error exc else .ok loaded
      | _ => .ok loaded

/-- Writing the snapshot of a fresh batch raises at most an `OSError`. -/
def SaveQuiet (contracts : List Json) (fetched : Bool) (o : Outside) : Prop :=
  fetched = true → contracts ≠ [] → ∀ exc, o.save = .failed exc → exc.isOSError = true

/-- **A pass returns exactly where** its loop does and the write is quiet. -/
theorem returnedAfter_ok_iff {contracts : List Json} {fetched : Bool} {o : Outside}
    {result : Except Exc ℕ} :
    (∃ n, returnedAfter contracts fetched o result = .ok n) ↔
      (∃ n, result = .ok n) ∧ SaveQuiet contracts fetched o := by
  rcases result with exc | loaded
  · simp [returnedAfter]
  · rcases hsave : o.save with _ | _ | exc
    · simp [returnedAfter, SaveQuiet, hsave]
    · simp [returnedAfter, SaveQuiet, hsave]
    · simp only [returnedAfter, SaveQuiet, hsave]
      split_ifs with h
      · simp only [Bool.not_eq_true', ne_eq] at h
        simp [h.1, h.2.1, h.2.2]
      · simp only [Bool.not_eq_true', ne_eq, not_and, Bool.not_eq_false] at h
        refine iff_of_true ⟨loaded, rfl⟩ ⟨⟨loaded, rfl⟩, fun hfetched hne exc' heq => ?_⟩
        rw [← SaveOutcome.failed.inj heq]
        exact h hfetched hne

/-- A batch that was not fetched is not written back. -/
@[simp]
theorem returnedAfter_stale (contracts : List Json) (o : Outside) (result : Except Exc ℕ) :
    returnedAfter contracts false o result = result := by
  cases result with
  | error exc => rfl
  | ok loaded => cases hsave : o.save <;> simp [returnedAfter, hsave]

/-- **Applying a batch is priming the cache with it**, and the snapshot is
written only for a fresh one that was got through. -/
theorem applyContracts_eq [Host] (contracts : Option (List Json)) (fetched : Bool) (o : Outside)
    (σ : SyncState) :
    let out := u.primeCache (contracts.getD []) 0 σ
    u.applyContracts contracts fetched o σ =
      (returnedAfter (contracts.getD []) fetched o out.1, { out.2 with
      snapshot := snapshotAfter (contracts.getD []) fetched o out.1.isOk out.2.snapshot }) := by
  have hempty : ∀ returned file, snapshotAfter [] fetched o returned file = file := by
    intro returned file
    simp [snapshotAfter]
  match contracts with
  | none => cases hsave : o.save <;> simp [applyContracts, primeCache, hempty, returnedAfter, hsave]
  | some [] =>
    cases hsave : o.save <;> simp [applyContracts, primeCache, hempty, returnedAfter, hsave]
  | some (c :: cs) =>
    simp only [applyContracts, Option.getD_some]
    cases hprime : u.primeCache (c :: cs) 0 σ with
    | mk result σ' =>
      cases result with
      | error exc => simp [snapshotAfter, returnedAfter, Except.isOk, Except.toBool]
      | ok loaded =>
        cases fetched with
        | false => cases hsave : o.save <;> simp [snapshotAfter, returnedAfter, hsave]
        | true =>
          rcases hsave : o.save with _ | _ | exc
          · simp [saveSnapshot, hsave, snapshotAfter, returnedAfter, Except.isOk, Except.toBool]
          · simp [saveSnapshot, hsave, snapshotAfter, returnedAfter, Except.isOk, Except.toBool]
          · rcases hos : exc.isOSError with _ | _ <;>
              simp [saveSnapshot, hsave, snapshotAfter, returnedAfter, Except.isOk, Except.toBool,
                hos]

variable (u) in
theorem breakerAllows_agrees (σ : SyncState) : σ.Agrees (u.breakerAllows σ).2 := by
  unfold breakerAllows
  split
  · exact SyncState.Agrees.refl σ
  · exact ⟨rfl, rfl, rfl, Nat.le_succ _⟩

variable (u) in
theorem breakerRecordFailure_agrees (σ : SyncState) : σ.Agrees (u.breakerRecordFailure σ) := by
  unfold breakerRecordFailure
  split
  · exact SyncState.Agrees.refl σ
  · exact ⟨rfl, rfl, rfl, Nat.le_succ _⟩

variable (u) in
/-- **A fetch moves the breaker and the clock only.** -/
theorem fetch_agrees (o : Outside) (σ : SyncState) : σ.Agrees (u.fetch o σ).2 := by
  have hallows := u.breakerAllows_agrees σ
  unfold fetch
  simp only
  split
  · exact hallows
  · split
    · exact hallows.trans ⟨rfl, rfl, rfl, le_rfl⟩
    · exact hallows.trans (u.breakerRecordFailure_agrees _)
    · exact hallows

variable (u) in
/-- The pass reads the snapshot: the breaker refuses, or the fetch reports a
sync error. -/
def FallsBack (o : Outside) (σ : SyncState) : Prop :=
  (u.breakerAllows σ).1 = false ∨
    fetchActiveContracts u.maxHttpResponseBytes o.exchange = .error (.congine .sync)

/-- What a pass that falls back finds. -/
theorem fetch_of_fallsBack {o : Outside} {σ : SyncState} (h : u.FallsBack o σ) :
    (u.fetch o σ).1 = (loadSnapshot σ.snapshot).map (·, false) := by
  have hallows := (u.breakerAllows_agrees σ).snapshot_eq
  unfold fetch
  simp only
  rcases h with h | h
  · rw [h]
    simp [hallows]
  · split
    · rw [hallows]
    · rw [h]
      simp only
      rw [(u.breakerRecordFailure_agrees _).snapshot_eq, hallows]

/-- **A pass that falls back is the snapshot loaded**, after the fetch. -/
theorem syncOnce_of_fallsBack [Host] {o : Outside} {σ : SyncState} (h : u.FallsBack o σ) :
    u.syncOnce o σ = u.loadSnapshotOnly o (u.fetch o σ).2 := by
  have hfetch := fetch_of_fallsBack h
  have hsnapshot := (u.fetch_agrees o σ).snapshot_eq
  unfold syncOnce loadSnapshotOnly
  cases hf : u.fetch o σ with
  | mk result σ₁ =>
    rw [hf] at hfetch hsnapshot
    simp only at hfetch hsnapshot
    rw [hsnapshot, hfetch]
    cases loadSnapshot σ.snapshot <;> rfl

/-- What a pass finds that does not fall back. -/
theorem fetch_of_not_fallsBack {o : Outside} {σ : SyncState} (h : ¬ u.FallsBack o σ) :
    (u.breakerAllows σ).1 = true ∧
      (u.fetch o σ).1 =
        (fetchActiveContracts u.maxHttpResponseBytes o.exchange).map (some ·, true) := by
  rw [FallsBack, not_or, Bool.not_eq_false] at h
  obtain ⟨hallowed, hsync⟩ := h
  refine ⟨hallowed, ?_⟩
  unfold fetch
  simp only [hallowed, Bool.not_true, Bool.false_eq_true, if_false]
  split
  · next heq => rw [heq]; rfl
  · next heq => exact absurd heq hsync
  · next heq => rw [heq]; rfl

/-- **A fetch delivers exactly where** the exchange it has is one it has an
answer to, and the snapshot it reads is readable. -/
theorem fetch_ok_iff {o : Outside} {σ : SyncState} :
    (∃ obtained, (u.fetch o σ).1 = .ok obtained) ↔
      ((u.breakerAllows σ).1 = true → QuietExchange u.maxHttpResponseBytes o.exchange) ∧
        (u.FallsBack o σ → σ.snapshot.Readable) := by
  rw [← fetchActiveContracts_quiet_iff, ← loadSnapshot_ok_iff]
  by_cases hback : u.FallsBack o σ
  · rw [fetch_of_fallsBack hback, forall_prop_of_true hback]
    constructor
    · rintro ⟨obtained, hok⟩
      cases hload : loadSnapshot σ.snapshot with
      | error exc => rw [hload] at hok; cases hok
      | ok contracts =>
        refine ⟨fun hallowed exc hexc => ?_, contracts, rfl⟩
        rcases hback with h | h
        · rw [hallowed] at h
          cases h
        · exact Except.error.inj (hexc.symm.trans h)
    · rintro ⟨-, contracts, hload⟩
      rw [hload]
      exact ⟨_, rfl⟩
  · obtain ⟨hallowed, hfetch⟩ := fetch_of_not_fallsBack hback
    rw [hfetch, forall_prop_of_true hallowed, forall_prop_of_false hback, and_true]
    constructor
    · rintro ⟨obtained, hok⟩ exc hexc
      rw [hexc] at hok
      cases hok
    · intro hquiet
      cases hexc : fetchActiveContracts u.maxHttpResponseBytes o.exchange with
      | error exc =>
        exact absurd (.inr (hquiet exc hexc ▸ hexc)) hback
      | ok contracts => exact ⟨_, rfl⟩

variable (u) in
/-- The batch a pass applies. -/
def delivered (o : Outside) (σ : SyncState) : List Json :=
  match (u.fetch o σ).1 with
  | .ok (some contracts, _) => contracts
  | _ => []

/-- **A pass is its fetch, then its batch applied.** -/
theorem syncOnce_eq [Host] {o : Outside} {σ : SyncState} {contracts : Option (List Json)}
    {fetched : Bool} (h : (u.fetch o σ).1 = .ok (contracts, fetched)) :
    let out := u.primeCache (u.delivered o σ) 0 (u.fetch o σ).2
    u.syncOnce o σ = (returnedAfter (u.delivered o σ) fetched o out.1, { out.2 with
      snapshot := snapshotAfter (u.delivered o σ) fetched o out.1.isOk out.2.snapshot }) := by
  have hdelivered : u.delivered o σ = contracts.getD [] := by
    rw [delivered, h]
    cases contracts <;> rfl
  have happly := applyContracts_eq (u := u) contracts fetched o (u.fetch o σ).2
  simp only at happly ⊢
  rw [hdelivered, ← happly]
  unfold syncOnce
  cases hf : u.fetch o σ with
  | mk result σ₁ =>
    rw [hf] at h
    simp only at h
    rw [h]

theorem syncOnce_error [Host] {o : Outside} {σ : SyncState} {exc : Exc}
    (h : (u.fetch o σ).1 = .error exc) : u.syncOnce o σ = (.error exc, (u.fetch o σ).2) := by
  unfold syncOnce
  cases hf : u.fetch o σ with
  | mk result σ₁ =>
    rw [hf] at h
    simp only at h
    rw [h]

/-- **A pass over entries it can get past** ends with all of them that were
admitted written, and the snapshot too where they were fresh. -/
theorem syncOnce_passable [Host] {o : Outside} {σ : SyncState}
    (hwf : σ.schemaStorage.WellFormed) (hcap : σ.schemaStorage.capacity ≠ 0)
    {contracts : Option (List Json)} {fetched : Bool}
    (hfetch : (u.fetch o σ).1 = .ok (contracts, fetched))
    (hpass : ∀ c ∈ u.delivered o σ, u.Passable c) :
    ∃ n σ₂, (run u.write (u.writesOf (u.delivered o σ)) (u.fetch o σ).2).Agrees σ₂ ∧
      u.syncOnce o σ = (returnedAfter (u.delivered o σ) fetched o (.ok n), { σ₂ with
        snapshot := snapshotAfter (u.delivered o σ) fetched o true σ.snapshot }) := by
  have hagree := u.fetch_agrees o σ
  have heq := syncOnce_eq hfetch
  have hcases := primeCache_cases (u := u) (hagree.wellFormed hwf) (hagree.capacity_ne hcap)
    (u.delivered o σ) 0
  generalize u.primeCache (u.delivered o σ) 0 (u.fetch o σ).2 = out at heq hcases
  cases hcases with
  | @done loaded σ' _ hσ' =>
    have hwrote := run_write_spec (u := u) (hagree.wellFormed hwf) (hagree.capacity_ne hcap)
      (u.writesOf (u.delivered o σ))
    have hsnapshot : σ'.snapshot = σ.snapshot := by
      rw [hσ'.snapshot_eq, hwrote.snapshot_eq, hagree.snapshot_eq]
    refine ⟨loaded, σ', hσ', ?_⟩
    rw [heq]
    simp only [hsnapshot]
    rfl
  | stopped hsplit hstop =>
    exact absurd (hpass _ (by rw [hsplit]; simp)) hstop

end SyncContractsUseCase

end Congine
