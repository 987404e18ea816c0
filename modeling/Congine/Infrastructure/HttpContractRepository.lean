import Congine.Kernel.Dynamic
/-!
# The HTTP contract repository

Contracts come from the control plane or, stale, from a snapshot on disk.
What the network and the file system do is an input: the outcome of the
exchange, the state of the snapshot file, the outcome of a write. The
headers, the URL and the directory's permissions are left out.
-/

namespace Congine

/-! ## Fetching -/

/-- A response that `raise_for_status` lets through. -/
structure HttpResponse where
  /-- `len(response.content)`. -/
  contentLength : ℕ
  /-- `response.json()`. -/
  json : Except Exc Json

/-- The classes `fetch_active_contracts` turns into a sync error. -/
def caughtByFetch : Exc → Bool
  | .httpError _ | .keyError | .congine .sync => true
  | exc => exc.isValueError

/-- The list under `contracts` in the decoded body. -/
def contractsOf (data : Json) : Except Exc (List Json) :=
  (pyGetItem data "contracts").bind fun contracts =>
    match contracts with
    | .arr contracts => .ok contracts
    | _ => .error (.congine .sync)

/-- The body of the `try` of `fetch_active_contracts`. -/
def readContracts (maxHttpResponseBytes : ℤ) (exchange : Except Exc HttpResponse) :
    Except Exc (List Json) :=
  exchange.bind fun response =>
    if maxHttpResponseBytes < response.contentLength then .error (.congine .sync)
    else response.json.bind contractsOf

def fetchActiveContracts (maxHttpResponseBytes : ℤ) (exchange : Except Exc HttpResponse) :
    Except Exc (List Json) :=
  match readContracts maxHttpResponseBytes exchange with
  | .ok contracts => .ok contracts
  | .error exc => if caughtByFetch exc then .error (.congine .sync) else .error exc

/-! ## The snapshot on disk -/

/-- What stands at the snapshot path. -/
inductive SnapshotFile where
  | symlink
  | foreign
  /-- Opening, reading or parsing it raises. -/
  | unreadable (exc : Exc)
  | decoded (snapshot : Json)

def SnapshotFile.absent : SnapshotFile := .unreadable (.osError "FileNotFoundError")

/-- `_validate_envelope`: the members that are objects, if there are any. -/
def validateEnvelope (snapshot : Json) : Option (List Json) :=
  match snapshot.get? "contracts" with
  | some (.arr contracts) =>
      -- Entries that are no objects are dropped; an envelope of none counts as no snapshot.
      match contracts.filter Json.isObj with
      | [] => none
      | contracts => some contracts
  | _ => none

def loadSnapshot : SnapshotFile → Except Exc (Option (List Json))
  | .symlink | .foreign => .ok none
  | .unreadable exc => if exc = .jsonDecodeError ∨ exc.isOSError then .ok none else .error exc
  | .decoded snapshot => .ok (validateEnvelope snapshot)

/-- What becomes of a write: a busy lock drops it, the file system may fail
it, or `json.dump` does, on entries too deep for the stack. -/
inductive SaveOutcome where
  | written
  | lockBusy
  | failed (exc : Exc)
  deriving DecidableEq

/-- The document `save_snapshot` writes. -/
def snapshotEnvelope (contracts : List Json) (fetchedAt : String) : Json :=
  .obj [("version", .str "1.0"), ("contracts", .arr contracts), ("fetched_at", .str fetchedAt)]

def saveSnapshot (contracts : List Json) (fetchedAt : String) (outcome : SaveOutcome)
    (file : SnapshotFile) : Except Exc SnapshotFile :=
  match outcome with
  | .written => .ok (.decoded (snapshotEnvelope contracts fetchedAt))
  | .lockBusy => .ok file
  -- The file under construction is removed, and the exception goes on.
  | .failed exc => .error exc

/-! ## What the two paths answer -/

/-- The outcomes of an exchange a fetch has an answer to: it fails as
transport or decoding does, or the decoded body is an object. -/
def QuietExchange (maxHttpResponseBytes : ℤ) : Except Exc HttpResponse → Prop
  | .error exc => caughtByFetch exc
  | .ok response =>
      response.contentLength ≤ maxHttpResponseBytes →
        match response.json with
        | .error exc => caughtByFetch exc
        | .ok data => data.isObj

/-- A body that is not an object cannot be subscripted by a name, and the
`TypeError` is none of the classes caught. -/
theorem contractsOf_caught_iff {data : Json} :
    (∀ exc, contractsOf data = .error exc → caughtByFetch exc) ↔ data.isObj := by
  cases data with
  | obj fields =>
    refine ⟨fun _ => rfl, fun _ exc h => ?_⟩
    simp only [contractsOf, pyGetItem] at h
    cases hget : fields.lookup "contracts" with
    | none =>
      simp only [hget, Except.bind, Except.error.injEq] at h
      rw [← h]
      rfl
    | some contracts =>
      simp only [hget, Except.bind] at h
      split at h
      · cases h
      · rw [← Except.error.inj h]
        rfl
  | _ => exact ⟨fun h => absurd (h .typeError rfl) (by decide), fun h => by cases h⟩

theorem readContracts_caught_iff {maxHttpResponseBytes : ℤ} {exchange : Except Exc HttpResponse} :
    (∀ exc, readContracts maxHttpResponseBytes exchange = .error exc → caughtByFetch exc) ↔
      QuietExchange maxHttpResponseBytes exchange := by
  cases exchange with
  | error exc => simp [readContracts, QuietExchange, Except.bind]
  | ok response =>
    simp only [readContracts, QuietExchange, Except.bind]
    by_cases hlen : maxHttpResponseBytes < response.contentLength
    · rw [if_pos hlen]
      refine ⟨fun _ hle => absurd hle (not_le.mpr hlen), fun _ exc h => ?_⟩
      rw [← Except.error.inj h]
      rfl
    · rw [if_neg hlen, forall_prop_of_true (not_lt.mp hlen)]
      cases response.json with
      | error exc => simp
      | ok data => exact contractsOf_caught_iff

/-- **A fetch delivers or reports a sync error** exactly on those outcomes. -/
theorem fetchActiveContracts_quiet_iff {maxHttpResponseBytes : ℤ}
    {exchange : Except Exc HttpResponse} :
    (∀ exc, fetchActiveContracts maxHttpResponseBytes exchange = .error exc →
        exc = .congine .sync) ↔
      QuietExchange maxHttpResponseBytes exchange := by
  rw [← readContracts_caught_iff]
  unfold fetchActiveContracts
  constructor
  · intro h exc hread
    rw [hread] at h
    by_contra hcaught
    have := h exc (by simp [hcaught])
    rw [this] at hcaught
    exact hcaught rfl
  · intro h exc hfetch
    split at hfetch
    · cases hfetch
    · next exc' hread =>
      rw [if_pos (h exc' hread), Except.error.injEq] at hfetch
      exact hfetch.symm

/-- Reading the snapshot raises nothing: what it raises is caught. -/
def SnapshotFile.Readable : SnapshotFile → Prop
  | .unreadable exc => exc = .jsonDecodeError ∨ exc.isOSError
  | _ => True

theorem loadSnapshot_ok_iff {file : SnapshotFile} :
    (∃ contracts, loadSnapshot file = .ok contracts) ↔ file.Readable := by
  cases file with
  | unreadable exc =>
    simp only [loadSnapshot, SnapshotFile.Readable]
    split_ifs with h
    · exact ⟨fun _ => h, fun _ => ⟨none, rfl⟩⟩
    · exact ⟨fun ⟨_, hok⟩ => (by cases hok), fun hc => absurd hc h⟩
  | _ => exact ⟨fun _ => trivial, fun _ => ⟨_, rfl⟩⟩

/-- A snapshot of objects is read back as it was written. -/
theorem loadSnapshot_envelope {contracts : List Json} (hne : contracts ≠ [])
    (hobj : ∀ c ∈ contracts, c.isObj = true) (fetchedAt : String) :
    loadSnapshot (.decoded (snapshotEnvelope contracts fetchedAt)) = .ok (some contracts) := by
  have hfilter : contracts.filter Json.isObj = contracts := List.filter_eq_self.mpr hobj
  have hget : (snapshotEnvelope contracts fetchedAt).get? "contracts" = some (.arr contracts) := rfl
  rw [loadSnapshot, validateEnvelope, hget]
  simp only [hfilter]

end Congine
