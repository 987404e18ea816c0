import Congine.Infrastructure.SnapshotInvariant
/-!
# The snapshot is saved whole

`saveSnapshot` and `loadSnapshot` are what the steps of a save and of a
load come to. What stands at the path is at all times what stood there
first or the whole document of one save; a save changes it at one step, and
then it ends as written; and a load answers for what stood there at one
moment, however many steps it took.
-/

namespace Congine

namespace SnapshotDir

variable (site : SnapshotSite)

section

variable {site}
variable {s₀ s s' : SnapshotDir} {es : List SnapshotEvent} {i : ℕ}
variable {call : SnapshotCall} {inode : ℕ}

theorem file_congr (hpath : s'.path = s.path)
    (hcontent : ∀ inode own, s.path.target = some (inode, own) →
      s'.contentOf inode = s.contentOf inode) : s'.file site = s.file site := by
  unfold SnapshotDir.file
  rw [hpath]
  cases hfile : s.path with
  | file inode own =>
    rw [hfile] at hcontent
    simp only [hcontent inode own rfl]
  | _ => rfl

/-- The step moves the document of a save to the path. -/
def Replaces (site : SnapshotSite) (s s' : SnapshotDir) : Prop :=
  ∃ (i : ℕ) (snapshot : Json) (temp : ℕ), s.calls[i]? = some (.replacing snapshot temp) ∧
    s'.calls[i]? = some (.releasing snapshot .written none) ∧
      s'.file site = site.fileOf (site.dump snapshot)

theorem Inv.file_advanceSave (hs : Inv site s₀ es s) (turn : Turn)
    (hi : s.calls[i]? = some call) :
    (SnapshotDir.advanceSave site i turn s call).file site = s.file site ∨
      Replaces site s (SnapshotDir.advanceSave site i turn s call) := by
  unfold SnapshotDir.advanceSave
  cases call with
  | makingDir snapshot => cases turn <;> exact .inl rfl
  | acquiring snapshot =>
    simp only
    split
    · exact .inl rfl
    · cases turn with
      | passes bytes =>
        simp only
        split <;> exact .inl rfl
      | _ => exact .inl rfl
  | creating snapshot =>
    have hcreate : ∀ inode own, s.path.target = some (inode, own) →
        (s.inodes ++ [[]])[inode]?.getD [] = s.contentOf inode := by
      intro inode own htarget
      rw [List.getElem?_append_left (hs.settled_target htarget).1]
      rfl
    cases turn with
    | fails exc => exact .inl rfl
    | _ => exact .inl (file_congr rfl hcreate)
  | dumping snapshot temp written =>
    cases turn with
    | passes bytes =>
      simp only
      split
      · exact .inl rfl
      · refine .inl (file_congr rfl fun inode own htarget => ?_)
        have hne : temp ≠ inode := by
          rintro rfl
          exact (hs.settled_target htarget).2 _ (List.mem_of_getElem? hi) rfl
        show (s.inodes.set temp _)[inode]?.getD [] = _
        rw [List.getElem?_set_ne hne]
        rfl
    | _ => exact .inl rfl
  | replacing snapshot temp =>
    have hmoved : Replaces site s
        { s.setCall i (.releasing snapshot .written none) with
          path := .file temp true
          temps := s.temps.filter (· ≠ temp) } := by
      refine ⟨i, snapshot, temp, hi, getElem?_moved_self hi, ?_⟩
      rw [file_own rfl, ← (hs.knows i _ hi).2]
      rfl
    cases turn with
    | fails exc => exact .inl rfl
    | _ => exact .inr hmoved
  | discarding snapshot temp exc => cases turn <;> exact .inl rfl
  | releasing snapshot outcome left => exact .inl rfl
  | _ => exact .inl rfl

theorem file_advanceLoad (i : ℕ) (turn : Turn) (s : SnapshotDir) (call : SnapshotCall) :
    (SnapshotDir.advanceLoad site i turn s call).file site = s.file site := by
  unfold SnapshotDir.advanceLoad
  cases call with
  | opening => simp only; split <;> rfl
  | reading inode text =>
    simp only
    split
    · split <;> rfl
    · rfl
    · rfl
  | _ => rfl

theorem Inv.file_step (hs : Inv site s₀ es s) (e : SnapshotEvent) :
    (SnapshotDir.step site e s).file site = s.file site ∨
      Replaces site s (SnapshotDir.step site e s) := by
  cases e with
  | save contracts fetchedAt => exact .inl rfl
  | load => exact .inl rfl
  | advance i turn =>
    cases hi : s.calls[i]? with
    | none =>
      refine .inl ?_
      simp only [SnapshotDir.step, hi]
    | some call =>
      simp only [SnapshotDir.step, hi]
      split_ifs
      · exact .inl (file_advanceLoad i turn s call)
      · exact hs.file_advanceSave turn hi
  | kill i =>
    cases hi : s.calls[i]? with
    | none =>
      refine .inl ?_
      simp only [SnapshotDir.step, hi, Option.elim_none]
    | some call =>
      simp only [SnapshotDir.step, hi, Option.elim_some]
      rw [SnapshotDir.kill]
      split <;> exact .inl rfl

end

/-- What holds of the snapshot in every state a run reaches. -/
structure Whole (site : SnapshotSite) (s₀ : SnapshotDir) (es : List SnapshotEvent)
    (s : SnapshotDir) : Prop where
  /-- What stands at the path stood there at first, or is the whole document of a save. -/
  file : s.file site = s₀.file site ∨ ∃ contracts fetchedAt, .save contracts fetchedAt ∈ es ∧
    s.file site = .decoded (snapshotEnvelope contracts fetchedAt)
  /-- It changes only as a save moves its document there, which then ends as written. -/
  changes : ∀ e, (step site e s).file site = s.file site ∨ Replaces site s (step site e s)
  /-- A save that ends as written did that while it was under way. -/
  saves : ∀ (i : ℕ) snapshot left, s.calls[i]? = some (.saved snapshot .written left) →
    left = none ∧ Found site s₀ es i (.decoded snapshot)
  /-- A load answers for what stood there at a moment while it was under way, or gives up. -/
  loads : ∀ (i : ℕ) result, s.calls[i]? = some (.loaded result) →
    result = .ok none ∨ ∃ file, Found site s₀ es i file ∧ result = loadSnapshot file
  /-- With the lock there is one writer. -/
  writers : site.portalocker = true → Excludes SnapshotCall.inside s.calls s.lock
  /-- A file of a temporary name is some call's own, or one it has left behind. -/
  temps : ∀ temp ∈ s.temps, ∃ (i : ℕ) (call : SnapshotCall), s.calls[i]? = some call ∧
    call.temp? = some temp

theorem inv_init {inodes : List (List UInt8)} {path : SnapshotPath}
    (hpath : ∀ inode own, path.target = some (inode, own) → inode < inodes.length) :
    Inv site { inodes, path } [] { inodes, path } where
  lock _ := .nil
  owns := .nil _
  temps temp h := absurd h List.not_mem_nil
  knows i call h := by simp at h
  first inode own htarget :=
    ⟨⟨hpath inode own htarget, fun call h => absurd h List.not_mem_nil⟩, rfl⟩
  path := .inl rfl

theorem inv_run {inodes : List (List UInt8)} {path : SnapshotPath}
    (hpath : ∀ inode own, path.target = some (inode, own) → inode < inodes.length)
    (es : List SnapshotEvent) :
    Inv site { inodes, path } es (run (step site) es { inodes, path }) := by
  have hstep : ∀ past e s,
      s = run (step site) past { inodes, path } ∧ Inv site { inodes, path } past s →
      step site e s = run (step site) (past ++ [e]) { inodes, path } ∧
        Inv site { inodes, path } (past ++ [e]) (step site e s) := by
    rintro past e s ⟨hreached, hs⟩
    refine ⟨?_, hs.step e hreached⟩
    rw [run_concat, hreached]
  exact (run_history hstep ⟨rfl, inv_init site hpath⟩ es).2

/-- **The snapshot over every run**: saves are atomic and loads see no half
of one, whatever fails and whoever dies. -/
theorem whole_run {inodes : List (List UInt8)} {path : SnapshotPath}
    (hpath : ∀ inode own, path.target = some (inode, own) → inode < inodes.length)
    (es : List SnapshotEvent)
    (hload : ∀ contracts fetchedAt, .save contracts fetchedAt ∈ es →
      site.load (site.dump (snapshotEnvelope contracts fetchedAt)) =
        .ok (snapshotEnvelope contracts fetchedAt)) :
    Whole site { inodes, path } es (run (step site) es { inodes, path }) := by
  have hs := inv_run site hpath es
  have hwhole : ∀ snapshot, Asked es snapshot →
      site.fileOf (site.dump snapshot) = .decoded snapshot := by
    rintro snapshot ⟨contracts, fetchedAt, hmem, rfl⟩
    rw [SnapshotSite.fileOf, hload contracts fetchedAt hmem]
  refine ⟨?_, hs.file_step, fun i snapshot left hi => ?_, fun i result hi => hs.knows i _ hi,
    hs.lock, hs.temps⟩
  · rcases hs.path with heq | ⟨inode, snapshot, heq, -, hasked, hcontent⟩
    · refine .inl (file_congr heq fun inode own htarget => ?_)
      exact (hs.first inode own htarget).2
    · obtain ⟨contracts, fetchedAt, hmem, rfl⟩ := hasked
      refine .inr ⟨contracts, fetchedAt, hmem, ?_⟩
      rw [file_own heq, hcontent, hwhole _ ⟨contracts, fetchedAt, hmem, rfl⟩]
  · obtain ⟨hasked, hwritten⟩ := hs.knows i _ hi
    rw [← hwhole snapshot hasked]
    exact hwritten rfl

/-! A process dies while it saves. -/

def oneContract : List Json := [.obj [("name", .str "orders")]]

def oneText : List UInt8 :=
  ("\x7b\"version\": \"1.0\", \"contracts\": [\x7b\"name\": \"orders\"\x7d], " ++
    "\"fetched_at\": \"2026-01-01T00:00:00+00:00\"\x7d").toUTF8.toList

/-- The text of one document, and the parse of that. -/
def oneSite : SnapshotSite where
  portalocker := true
  posix := true
  dump _ := oneText
  load text :=
    if text = oneText then .ok (snapshotEnvelope oneContract "2026-01-01T00:00:00+00:00")
    else .error .jsonDecodeError

def interruptedSave : List SnapshotEvent :=
  [.save oneContract "2026-01-01T00:00:00+00:00", .advance 0 (.passes 0), .advance 0 (.passes 0),
    .advance 0 (.passes 0), .load, .kill 0, .advance 1 (.passes 0), .advance 1 (.passes 0),
    .advance 1 (.passes 0)]

theorem whole_run_interruptedSave :
    Whole oneSite {} interruptedSave (run (step oneSite) interruptedSave {}) := by
  refine whole_run oneSite (fun inode own h => by cases h) interruptedSave
    fun contracts fetchedAt hmem => ?_
  have heq : contracts = oneContract ∧ fetchedAt = "2026-01-01T00:00:00+00:00" := by
    simpa [interruptedSave] using hmem
  rw [heq.1, heq.2]
  exact if_pos rfl

/-- The lock is free again, the file it had made is left, and there is nothing to load. -/
example :
    let s := run (step oneSite) interruptedSave {}
    s.lock = none ∧ s.temps = [0] ∧ s.calls = [.killed (some 0), .loaded (.ok none)] :=
  ⟨rfl, rfl, rfl⟩

end SnapshotDir

end Congine
