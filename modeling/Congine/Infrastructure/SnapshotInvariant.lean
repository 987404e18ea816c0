import Congine.Common.Calls
import Congine.Common.Runs
import Congine.Infrastructure.SnapshotProcesses
/-!
# What the saves and loads of a snapshot keep

A file that is no call's own is settled: what it holds does not change any
more. A save owns its file until it has moved it to the path, and all that
stands at the path, and all that loads read, is settled. `Inv` holds this
together with what each call knows, and `Inv.acted` is what a step of one
call has to leave alone for the others.
-/

namespace Congine

namespace SnapshotDir

variable {site : SnapshotSite}
variable {s₀ s s' : SnapshotDir} {es : List SnapshotEvent} {i : ℕ}
variable {call call' : SnapshotCall} {snapshot : Json} {file : SnapshotFile} {inode : ℕ}

/-- The file is no call's own: none writes or removes it. -/
def Settled (s : SnapshotDir) (inode : ℕ) : Prop :=
  inode < s.inodes.length ∧ ∀ call ∈ s.calls, call.temp? ≠ some inode

/-- The document is one that a save was asked for. -/
def Asked (es : List SnapshotEvent) (snapshot : Json) : Prop :=
  ∃ contracts fetchedAt, .save contracts fetchedAt ∈ es ∧
    snapshot = snapshotEnvelope contracts fetchedAt

def UnderWay (s : SnapshotDir) (i : ℕ) : Prop :=
  ∃ call, s.calls[i]? = some call ∧ call.ended = false

/-- This is what stood at the path at some moment the call was under way. -/
def Found (site : SnapshotSite) (s₀ : SnapshotDir) (es : List SnapshotEvent) (i : ℕ)
    (file : SnapshotFile) : Prop :=
  Once (step site) (fun s => s.UnderWay i ∧ s.file site = file) es s₀

/-- What a call knows of the files. -/
def Knows (site : SnapshotSite) (s₀ : SnapshotDir) (es : List SnapshotEvent) (s : SnapshotDir)
    (i : ℕ) : SnapshotCall → Prop
  | .makingDir snapshot | .acquiring snapshot | .creating snapshot | .discarding snapshot _ _ =>
      Asked es snapshot
  | .dumping snapshot temp written =>
      Asked es snapshot ∧ s.contentOf temp = (site.dump snapshot).take written
  | .replacing snapshot temp => Asked es snapshot ∧ s.contentOf temp = site.dump snapshot
  | .releasing snapshot outcome left | .saved snapshot outcome left =>
      Asked es snapshot ∧ (outcome = .written →
        left = none ∧ Found site s₀ es i (site.fileOf (site.dump snapshot)))
  | .stating => s.path.isSymlink = false
  | .opening => s.path.isSymlink = false ∧ isForeign site s.path = false
  -- The file may not stand at the path any more, but it is what it was.
  | .reading inode text =>
      s.Settled inode ∧ text <+: s.contentOf inode ∧
        Found site s₀ es i (site.fileOf (s.contentOf inode))
  | .loaded result =>
      result = .ok none ∨ ∃ file, Found site s₀ es i file ∧ result = loadSnapshot file
  | .looking | .killed _ => True

structure Inv (site : SnapshotSite) (s₀ : SnapshotDir) (es : List SnapshotEvent)
    (s : SnapshotDir) : Prop where
  lock : site.portalocker = true → Excludes SnapshotCall.inside s.calls s.lock
  owns : Owns SnapshotCall.temp? s.calls s.inodes.length
  temps : ∀ temp ∈ s.temps, ∃ (i : ℕ) (call : SnapshotCall), s.calls[i]? = some call ∧
    call.temp? = some temp
  knows : ∀ (i : ℕ) call, s.calls[i]? = some call → Knows site s₀ es s i call
  first : ∀ inode own, s₀.path.target = some (inode, own) →
    s.Settled inode ∧ s.contentOf inode = s₀.contentOf inode
  path : s.path = s₀.path ∨ ∃ inode snapshot, s.path = .file inode true ∧ s.Settled inode ∧
    Asked es snapshot ∧ s.contentOf inode = site.dump snapshot

theorem Asked.later (h : Asked es snapshot) (e : SnapshotEvent) : Asked (es ++ [e]) snapshot := by
  obtain ⟨contracts, fetchedAt, hmem, heq⟩ := h
  exact ⟨contracts, fetchedAt, List.mem_append_left _ hmem, heq⟩

/-- What a call relies on, of the files and of what stands at the path. -/
structure Frame (s s' : SnapshotDir) (call : SnapshotCall) : Prop where
  settled : ∀ inode, s.Settled inode → s'.Settled inode ∧ s'.contentOf inode = s.contentOf inode
  own : ∀ temp, call.temp? = some temp → s'.contentOf temp = s.contentOf temp
  path : s'.path = s.path ∨ ∃ inode, s'.path = .file inode true

theorem isForeign_own (site : SnapshotSite) (inode : ℕ) :
    isForeign site (.file inode true) = false := by
  simp [isForeign, SnapshotPath.target]

theorem Frame.not_isSymlink (h : Frame s s' call) (hpath : s.path.isSymlink = false) :
    s'.path.isSymlink = false := by
  rcases h.path with heq | ⟨inode, heq⟩
  · rw [heq, hpath]
  · rw [heq]
    rfl

theorem Frame.not_isForeign (h : Frame s s' call) (hpath : isForeign site s.path = false) :
    isForeign site s'.path = false := by
  rcases h.path with heq | ⟨inode, heq⟩
  · rw [heq, hpath]
  · rw [heq, isForeign_own]

/-- **What a call knows outlasts the steps of the others.** -/
theorem Knows.later (e : SnapshotEvent) (hframe : Frame s s' call)
    (h : Knows site s₀ es s i call) : Knows site s₀ (es ++ [e]) s' i call := by
  cases call with
  | makingDir snapshot => exact Asked.later h e
  | acquiring snapshot => exact Asked.later h e
  | creating snapshot => exact Asked.later h e
  | discarding snapshot temp exc => exact Asked.later h e
  | dumping snapshot temp written => exact ⟨h.1.later e, (hframe.own temp rfl).trans h.2⟩
  | replacing snapshot temp => exact ⟨h.1.later e, (hframe.own temp rfl).trans h.2⟩
  | releasing snapshot outcome left =>
    exact ⟨h.1.later e, fun hwritten => ⟨(h.2 hwritten).1, (h.2 hwritten).2.later e⟩⟩
  | saved snapshot outcome left =>
    exact ⟨h.1.later e, fun hwritten => ⟨(h.2 hwritten).1, (h.2 hwritten).2.later e⟩⟩
  | looking => trivial
  | stating => exact hframe.not_isSymlink h
  | opening => exact ⟨hframe.not_isSymlink h.1, hframe.not_isForeign h.2⟩
  | reading inode text =>
    obtain ⟨hsettled, hread, hfound⟩ := h
    obtain ⟨hsettled', hsame⟩ := hframe.settled inode hsettled
    refine ⟨hsettled', ?_, ?_⟩
    · rw [hsame]
      exact hread
    · rw [hsame]
      exact hfound.later e
  | loaded result =>
    refine h.imp id ?_
    rintro ⟨file, hfound, heq⟩
    exact ⟨file, hfound.later e, heq⟩
  | killed left => trivial

/-! ### One effect at a time -/

theorem Settled.of_calls (h : s.Settled inode) (hlen : s'.inodes.length = s.inodes.length)
    (hcalls : ∀ call ∈ s'.calls, call.temp? = some inode →
      ∃ call ∈ s.calls, call.temp? = some inode) : s'.Settled inode := by
  refine ⟨hlen ▸ h.1, fun call hcall htemp => ?_⟩
  obtain ⟨call₀, hcall₀, htemp₀⟩ := hcalls call hcall htemp
  exact h.2 call₀ hcall₀ htemp₀

/-- Another call moves, and gives nothing away that it did not have. -/
theorem Settled.moved (h : s.Settled inode) (hi : s.calls[i]? = some call)
    (hlen : s'.inodes.length = s.inodes.length) (hcalls : s'.calls = s.calls.set i call')
    (htemp : ∀ temp, call'.temp? = some temp → call.temp? = some temp) :
    s'.Settled inode := by
  refine h.of_calls hlen fun call₀ hcall₀ htemp₀ => ?_
  rw [hcalls] at hcall₀
  rcases List.mem_or_eq_of_mem_set hcall₀ with hold | rfl
  · exact ⟨call₀, hold, htemp₀⟩
  · exact ⟨call, List.mem_of_getElem? hi, htemp inode htemp₀⟩

/-- **A step of one call keeps the invariant** where it leaves alone what
the other calls rely on. -/
theorem Inv.acted (hs : Inv site s₀ es s) (e : SnapshotEvent) (hi : s.calls[i]? = some call)
    (hcalls : s'.calls = s.calls.set i call')
    (hlock : site.portalocker = true → Excludes SnapshotCall.inside s'.calls s'.lock)
    (hholds : Owns SnapshotCall.temp? s'.calls s'.inodes.length)
    (htemps : ∀ temp ∈ s'.temps, call'.temp? = some temp ∨ temp ∈ s.temps ∧ call.temp? ≠ some temp)
    (hframe : ∀ j call₀, i ≠ j → s.calls[j]? = some call₀ → Frame s s' call₀)
    (hsettled : ∀ inode, s.Settled inode →
      s'.Settled inode ∧ s'.contentOf inode = s.contentOf inode)
    (hknows : Knows site s₀ (es ++ [e]) s' i call')
    (hpath : s'.path = s.path ∨ ∃ inode snapshot, s'.path = .file inode true ∧
      s'.Settled inode ∧ Asked (es ++ [e]) snapshot ∧ s'.contentOf inode = site.dump snapshot) :
    Inv site s₀ (es ++ [e]) s' := by
  refine ⟨hlock, hholds, fun temp hmem => ?_, fun j call₀ hj => ?_, fun inode own htarget => ?_, ?_⟩
  · rw [hcalls]
    rcases htemps temp hmem with hown | ⟨hold, hgone⟩
    · exact ⟨i, call', getElem?_moved_self hi, hown⟩
    · obtain ⟨j, call₀, hj, htemp₀⟩ := hs.temps temp hold
      have hij : i ≠ j := by
        rintro rfl
        rw [Option.some.inj (hj.symm.trans hi)] at htemp₀
        exact hgone htemp₀
      exact ⟨j, call₀, (List.getElem?_set_ne hij).trans hj, htemp₀⟩
  · rw [hcalls] at hj
    rcases getElem?_moved hi hj with ⟨rfl, rfl⟩ | ⟨hij, hold⟩
    · exact hknows
    · exact (hs.knows j call₀ hold).later e (hframe j call₀ hij hold)
  · obtain ⟨hset, hsame⟩ := hs.first inode own htarget
    obtain ⟨hset', hsame'⟩ := hsettled inode hset
    exact ⟨hset', hsame'.trans hsame⟩
  · rcases hpath with heq | hnew
    · rw [heq]
      refine hs.path.imp id ?_
      rintro ⟨inode, snapshot, hfile, hset, hasked, hcontent⟩
      obtain ⟨hset', hsame'⟩ := hsettled inode hset
      exact ⟨inode, snapshot, hfile, hset', hasked.later e, hsame'.trans hcontent⟩
    · exact .inr hnew

/-- What the steps that leave every file as it is have in common. -/
theorem Inv.moved (hs : Inv site s₀ es s) (e : SnapshotEvent) {lock : Option ℕ}
    {temps : List ℕ} (hi : s.calls[i]? = some call)
    (hlock : site.portalocker = true →
      Excludes SnapshotCall.inside (s.calls.set i call') lock)
    (htemp : ∀ temp, call'.temp? = some temp → call.temp? = some temp)
    (htemps : ∀ temp ∈ temps, temp ∈ s.temps ∧
      (call.temp? = some temp → call'.temp? = some temp))
    (hknows : Knows site s₀ es s i call') :
    Inv site s₀ (es ++ [e]) { s.setCall i call' with lock := lock, temps := temps } := by
  have hframe : ∀ call₀, Frame s { s.setCall i call' with lock := lock, temps := temps } call₀ :=
    fun call₀ => ⟨fun inode h => ⟨h.moved hi rfl rfl htemp, rfl⟩, fun _ _ => rfl, .inl rfl⟩
  refine hs.acted e hi rfl hlock (hs.owns.move hi htemp) (fun temp hmem => ?_)
    (fun _ call₀ _ _ => hframe call₀) (hframe call).settled (hknows.later e (hframe call'))
    (.inl rfl)
  by_cases hown : call.temp? = some temp
  · exact .inl ((htemps temp hmem).2 hown)
  · exact .inr ⟨(htemps temp hmem).1, hown⟩

/-- A call moves on and touches neither a file nor the lock. -/
theorem Inv.setCall (hs : Inv site s₀ es s) (e : SnapshotEvent) (hi : s.calls[i]? = some call)
    (hinside : call'.inside = call.inside) (htemp : call'.temp? = call.temp?)
    (hknows : Knows site s₀ es s i call') : Inv site s₀ (es ++ [e]) (s.setCall i call') :=
  hs.moved e hi (fun hlocker => (hs.lock hlocker).move hi hinside)
    (fun _ h => htemp ▸ h) (fun _ h => ⟨h, fun h => htemp ▸ h⟩) hknows

/-- A call removes its own file. -/
theorem Inv.unlink (hs : Inv site s₀ es s) (e : SnapshotEvent) {temp : ℕ}
    (hi : s.calls[i]? = some call) (hinside : call'.inside = call.inside)
    (hold : call.temp? = some temp) (hnone : call'.temp? = none)
    (hknows : Knows site s₀ es s i call') :
    Inv site s₀ (es ++ [e])
      { s.setCall i call' with temps := s.temps.filter (· ≠ temp) } := by
  refine hs.moved e hi (fun hlocker => (hs.lock hlocker).move hi hinside) (fun _ h => ?_)
    (fun temp' hmem => ?_) hknows
  · rw [hnone] at h
    cases h
  · obtain ⟨hmem, hne⟩ := List.mem_filter.mp hmem
    refine ⟨hmem, fun h => ?_⟩
    rw [Option.some.inj (hold.symm.trans h)] at hne
    simp at hne

/-- A save makes a file of its own. -/
theorem Inv.create (hs : Inv site s₀ es s) (e : SnapshotEvent)
    (hi : s.calls[i]? = some (.creating snapshot)) :
    Inv site s₀ (es ++ [e])
      { s.setCall i (.dumping snapshot s.inodes.length 0) with
        inodes := s.inodes ++ [[]]
        temps := s.temps ++ [s.inodes.length] } := by
  have hlen : (s.inodes ++ [[]]).length = s.inodes.length + 1 := by simp
  have hsame : ∀ inode, inode < s.inodes.length →
      (s.inodes ++ [[]])[inode]?.getD [] = s.contentOf inode := by
    intro inode h
    rw [List.getElem?_append_left h]
    rfl
  have hsettled : ∀ inode, s.Settled inode →
      Settled { s.setCall i (.dumping snapshot s.inodes.length 0) with
        inodes := s.inodes ++ [[]]
        temps := s.temps ++ [s.inodes.length] } inode := by
    intro inode h
    refine ⟨hlen ▸ Nat.lt_succ_of_lt h.1, fun call₀ hcall₀ => ?_⟩
    rcases List.mem_or_eq_of_mem_set hcall₀ with hold | rfl
    · exact h.2 call₀ hold
    · intro htemp
      exact absurd (Option.some.inj htemp) (Nat.ne_of_gt h.1)
  refine hs.acted e hi rfl (fun hlocker => (hs.lock hlocker).move hi rfl)
    (hlen ▸ hs.owns.take hi rfl) (fun temp hmem => ?_) (fun j call₀ hij hj => ?_)
    (fun inode h => ⟨hsettled inode h, hsame inode h.1⟩) ⟨Asked.later (hs.knows i _ hi) e, ?_⟩
    (.inl rfl)
  · rcases List.mem_append.mp hmem with hold | hnew
    · exact .inr ⟨hold, nofun⟩
    · rw [List.mem_singleton.mp hnew]
      exact .inl rfl
  · exact ⟨fun inode h => ⟨hsettled inode h, hsame inode h.1⟩,
      fun temp htemp => hsame temp (hs.owns.lt j call₀ temp hj htemp), .inl rfl⟩
  · simp [contentOf]

/-- A save writes on, to its own file. -/
theorem Inv.write (hs : Inv site s₀ es s) (e : SnapshotEvent) {temp written : ℕ} (total : ℕ)
    (hi : s.calls[i]? = some (.dumping snapshot temp written)) :
    Inv site s₀ (es ++ [e])
      { s.setCall i (.dumping snapshot temp total) with
        inodes := s.inodes.set temp ((site.dump snapshot).take total) } := by
  have hother : ∀ inode, temp ≠ inode →
      (s.inodes.set temp ((site.dump snapshot).take total))[inode]?.getD [] =
        s.contentOf inode := by
    intro inode hne
    rw [List.getElem?_set_ne hne]
    rfl
  have hsettled : ∀ inode, s.Settled inode →
      Settled { s.setCall i (.dumping snapshot temp total) with
        inodes := s.inodes.set temp ((site.dump snapshot).take total) } inode ∧
      (s.inodes.set temp ((site.dump snapshot).take total))[inode]?.getD [] =
        s.contentOf inode := by
    intro inode h
    refine ⟨h.moved hi List.length_set rfl fun _ h => h, hother inode ?_⟩
    rintro rfl
    exact h.2 _ (List.mem_of_getElem? hi) rfl
  refine hs.acted e hi rfl (fun hlocker => (hs.lock hlocker).move hi rfl) ?_
    (fun temp' hmem => ?_) (fun j call₀ hij hj => ⟨hsettled, fun temp' htemp' => ?_, .inl rfl⟩)
    hsettled ⟨(hs.knows i _ hi).1.later e, ?_⟩ (.inl rfl)
  · show Owns _ _ (s.inodes.set _ _).length
    rw [List.length_set]
    exact hs.owns.move hi fun _ h => h
  · by_cases hown : temp = temp'
    · rw [← hown]
      exact .inl rfl
    · exact .inr ⟨hmem, fun h => hown (Option.some.inj h)⟩
  · refine hother temp' ?_
    rintro rfl
    exact hij (hs.owns.eq i j _ call₀ temp hi hj rfl htemp')
  · show (s.inodes.set _ _)[temp]?.getD [] = _
    rw [List.getElem?_set_self (hs.owns.lt i _ temp hi rfl)]
    rfl

/-- A file of the user's own is read for what it holds. -/
theorem file_own (hpath : s.path = .file inode true) :
    s.file site = site.fileOf (s.contentOf inode) := by
  rw [SnapshotDir.file, hpath]
  simp only [isForeign_own]
  rfl

/-- **A save moves its file to the path**, whole. -/
theorem Inv.replace (hs : Inv site s₀ es s) (e : SnapshotEvent) {temp : ℕ}
    (hi : s.calls[i]? = some (.replacing snapshot temp))
    (hreached : { s.setCall i (.releasing snapshot .written none) with
      path := .file temp true
      temps := s.temps.filter (· ≠ temp) } = run (step site) (es ++ [e]) s₀) :
    Inv site s₀ (es ++ [e])
      { s.setCall i (.releasing snapshot .written none) with
        path := .file temp true
        temps := s.temps.filter (· ≠ temp) } := by
  obtain ⟨hasked, hcontent⟩ := hs.knows i _ hi
  have hsettled : ∀ inode, s.Settled inode →
      Settled { s.setCall i (.releasing snapshot .written none) with
        path := .file temp true
        temps := s.temps.filter (· ≠ temp) } inode :=
    fun inode h => h.moved hi rfl rfl nofun
  have hown : Settled { s.setCall i (.releasing snapshot .written none) with
      path := .file temp true
      temps := s.temps.filter (· ≠ temp) } temp := by
    refine ⟨hs.owns.lt i _ temp hi rfl, fun call₀ hcall₀ htemp₀ => ?_⟩
    obtain ⟨j, hj⟩ := List.getElem?_of_mem hcall₀
    rcases getElem?_moved hi hj with ⟨-, rfl⟩ | ⟨hij, hold⟩
    · cases htemp₀
    · exact hij (hs.owns.eq i j _ call₀ temp hi hold rfl htemp₀)
  refine hs.acted e hi rfl (fun hlocker => (hs.lock hlocker).move hi rfl)
    (hs.owns.move hi nofun) (fun temp' hmem => ?_)
    (fun j call₀ hij hj =>
      ⟨fun inode h => ⟨hsettled inode h, rfl⟩, fun _ _ => rfl, .inr ⟨temp, rfl⟩⟩)
    (fun inode h => ⟨hsettled inode h, rfl⟩) ⟨hasked.later e, fun _ => ⟨rfl, ?_⟩⟩
    (.inr ⟨temp, snapshot, rfl, hown, hasked.later e, hcontent⟩)
  · obtain ⟨hmem, hne⟩ := List.mem_filter.mp hmem
    refine .inr ⟨hmem, fun h => ?_⟩
    rw [Option.some.inj h] at hne
    simp at hne
  · refine Once.now ?_
    rw [← hreached]
    refine ⟨⟨_, getElem?_moved_self hi, rfl⟩, ?_⟩
    rw [file_own rfl, ← hcontent]
    rfl

theorem Inv.stay (hs : Inv site s₀ es s) (e : SnapshotEvent) : Inv site s₀ (es ++ [e]) s where
  lock := hs.lock
  owns := hs.owns
  temps := hs.temps
  knows i call hi :=
    (hs.knows i call hi).later e ⟨fun _ h => ⟨h, rfl⟩, fun _ _ => rfl, .inl rfl⟩
  first := hs.first
  path := by
    refine hs.path.imp id ?_
    rintro ⟨inode, snapshot, hfile, hset, hasked, hcontent⟩
    exact ⟨inode, snapshot, hfile, hset, hasked.later e, hcontent⟩

/-- A call comes in. -/
theorem Inv.join (hs : Inv site s₀ es s) (e : SnapshotEvent) (hout : call.inside = false)
    (hnone : call.temp? = none)
    (hknows : Knows site s₀ (es ++ [e]) { s with calls := s.calls ++ [call] } s.calls.length call) :
    Inv site s₀ (es ++ [e]) { s with calls := s.calls ++ [call] } := by
  have hsettled : ∀ inode, s.Settled inode →
      Settled { s with calls := s.calls ++ [call] } inode := by
    intro inode h
    refine h.of_calls rfl fun call₀ hcall₀ htemp₀ => ?_
    rcases List.mem_append.mp hcall₀ with hold | hnew
    · exact ⟨call₀, hold, htemp₀⟩
    · rw [List.mem_singleton.mp hnew, hnone] at htemp₀
      cases htemp₀
  refine ⟨fun hlocker => (hs.lock hlocker).join hout, hs.owns.join hnone, fun temp hmem => ?_,
    fun j call₀ hj => ?_, fun inode own htarget => ?_, ?_⟩
  · obtain ⟨j, call₀, hj, htemp₀⟩ := hs.temps temp hmem
    exact ⟨j, call₀, getElem?_joined_old hj, htemp₀⟩
  · rcases getElem?_joined hj with hold | ⟨rfl, rfl⟩
    · exact (hs.knows j call₀ hold).later e
        ⟨fun inode h => ⟨hsettled inode h, rfl⟩, fun _ _ => rfl, .inl rfl⟩
    · exact hknows
  · obtain ⟨hset, hsame⟩ := hs.first inode own htarget
    exact ⟨hsettled inode hset, hsame⟩
  · refine hs.path.imp id ?_
    rintro ⟨inode, snapshot, hfile, hset, hasked, hcontent⟩
    exact ⟨inode, snapshot, hfile, hsettled inode hset, hasked.later e, hcontent⟩

/-! ### Every step -/

theorem Inv.advanceSave (hs : Inv site s₀ es s) (e : SnapshotEvent) (turn : Turn)
    (hi : s.calls[i]? = some call)
    (hreached : advanceSave site i turn s call = run (step site) (es ++ [e]) s₀) :
    Inv site s₀ (es ++ [e]) (advanceSave site i turn s call) := by
  have hknows := hs.knows i call hi
  unfold SnapshotDir.advanceSave at hreached ⊢
  cases call with
  | makingDir snapshot =>
    cases turn with
    | fails exc => exact hs.setCall e hi rfl rfl ⟨hknows, nofun⟩
    | _ => exact hs.setCall e hi rfl rfl hknows
  | acquiring snapshot =>
    clear hreached
    by_cases hlocker : site.portalocker = true
    · simp only [hlocker, Bool.not_true, Bool.false_eq_true, if_false]
      cases turn with
      | fails exc => exact hs.setCall e hi rfl rfl ⟨hknows, nofun⟩
      | timesOut => exact hs.setCall e hi rfl rfl ⟨hknows, nofun⟩
      | passes bytes =>
        simp only
        split_ifs with hlocked
        · exact hs.stay e
        · refine hs.moved e hi (fun h => ?_) (fun _ h => h) (fun _ h => ⟨h, fun h => h⟩) hknows
          have hfree := hs.lock h
          rw [Option.not_isSome_iff_eq_none.mp hlocked] at hfree
          exact hfree.enter hi rfl
    · simp only [hlocker, Bool.not_false, if_true]
      exact hs.moved e hi (fun h => absurd h hlocker) (fun _ h => h) (fun _ h => ⟨h, fun h => h⟩)
        hknows
  | creating snapshot =>
    cases turn with
    | fails exc => exact hs.setCall e hi rfl rfl ⟨hknows, nofun⟩
    | _ => exact hs.create e hi
  | dumping snapshot temp written =>
    cases turn with
    | fails exc => exact hs.setCall e hi rfl rfl hknows.1
    | timesOut => exact hs.stay e
    | passes bytes =>
      simp only
      split_ifs with hall
      · refine hs.setCall e hi rfl rfl ⟨hknows.1, ?_⟩
        rw [hknows.2, List.take_of_length_le hall]
      · exact hs.write e _ hi
  | replacing snapshot temp =>
    cases turn with
    | fails exc => exact hs.setCall e hi rfl rfl hknows.1
    | _ => exact hs.replace e hi hreached
  | discarding snapshot temp exc =>
    cases turn with
    | fails exc' => exact hs.setCall e hi rfl rfl ⟨hknows, nofun⟩
    | _ => exact hs.unlink e hi rfl rfl rfl ⟨hknows, nofun⟩
  | releasing snapshot outcome left =>
    exact hs.moved e hi (fun hlocker => (hs.lock hlocker).leave hi rfl rfl) (fun _ h => h)
      (fun _ h => ⟨h, fun h => h⟩) hknows
  | _ => exact hs.stay e

theorem found_now (hreached : s = run (step site) es s₀) (hi : s.calls[i]? = some call)
    (hended : call.ended = false) : Found site s₀ es i (s.file site) := by
  refine Once.now ?_
  rw [← hreached]
  exact ⟨⟨call, hi, hended⟩, rfl⟩

/-- What the path leads to is no call's own. -/
theorem Inv.settled_target (hs : Inv site s₀ es s) {own : Bool}
    (htarget : s.path.target = some (inode, own)) : s.Settled inode := by
  rcases hs.path with heq | ⟨inode', snapshot, heq, hsettled, -⟩
  · rw [heq] at htarget
    exact (hs.first inode own htarget).1
  · rw [heq] at htarget
    cases htarget
    exact hsettled

/-- A load that has passed both checks finds what it opens. -/
theorem file_of_target (hlink : s.path.isSymlink = false) (hforeign : isForeign site s.path = false)
    {own : Bool} (htarget : s.path.target = some (inode, own)) :
    s.file site = site.fileOf (s.contentOf inode) := by
  rw [SnapshotDir.file]
  cases hpath : s.path with
  | absent =>
    rw [hpath] at htarget
    cases htarget
  | symlink target =>
    rw [hpath] at hlink
    cases hlink
  | file inode' own' =>
    rw [hpath] at htarget hforeign
    cases htarget
    simp only [hforeign]
    rfl

theorem Inv.advanceLoad (hs : Inv site s₀ es s) (e : SnapshotEvent) (turn : Turn)
    (hi : s.calls[i]? = some call) (hreached : s = run (step site) es s₀) :
    Inv site s₀ (es ++ [e]) (advanceLoad site i turn s call) := by
  have hknows := hs.knows i call hi
  unfold SnapshotDir.advanceLoad
  cases call with
  | looking =>
    by_cases hlink : s.path.isSymlink = true
    · rw [if_pos hlink]
      exact hs.setCall e hi rfl rfl (.inl rfl)
    · rw [if_neg hlink]
      exact hs.setCall e hi rfl rfl ((Bool.not_eq_true _).mp hlink)
  | stating =>
    by_cases hforeign : isForeign site s.path = true
    · rw [if_pos hforeign]
      exact hs.setCall e hi rfl rfl (.inl rfl)
    · rw [if_neg hforeign]
      exact hs.setCall e hi rfl rfl ⟨hknows, by simpa using hforeign⟩
  | opening =>
    simp only
    split
    · next inode own htarget =>
      refine hs.setCall e hi rfl rfl ⟨hs.settled_target htarget, List.nil_prefix, ?_⟩
      rw [← file_of_target hknows.1 hknows.2 htarget]
      exact found_now hreached hi rfl
    · exact hs.setCall e hi rfl rfl (.inl rfl)
    · exact hs.setCall e hi rfl rfl (.inl rfl)
    · exact hs.stay e
  | reading inode text =>
    obtain ⟨hsettled, hread, hfound⟩ := hknows
    simp only
    split
    · next bytes =>
      split
      · next hend =>
        refine hs.setCall e hi rfl rfl (.inr ⟨_, hfound, ?_⟩)
        rw [hread.eq_of_length_le (List.drop_eq_nil_iff.mp hend)]
      · refine hs.setCall e hi rfl rfl ⟨hsettled, ?_, hfound⟩
        calc text ++ ((s.contentOf inode).drop text.length).take bytes
            <+: text ++ (s.contentOf inode).drop text.length :=
              (List.prefix_append_right_inj text).mpr (List.take_prefix _ _)
          _ = s.contentOf inode := List.prefix_iff_eq_append.mp hread
    · exact hs.setCall e hi rfl rfl (.inl rfl)
    · exact hs.stay e
  | _ => exact hs.stay e

theorem Inv.kill (hs : Inv site s₀ es s) (e : SnapshotEvent) (hi : s.calls[i]? = some call) :
    Inv site s₀ (es ++ [e]) (kill i s call) := by
  rw [SnapshotDir.kill]
  by_cases hended : call.ended = true
  · rw [if_pos hended]
    exact hs.stay e
  · rw [if_neg hended]
    refine hs.moved e hi (fun hlocker => ?_) (fun _ h => h) (fun _ h => ⟨h, fun h => h⟩) trivial
    have hlock := hs.lock hlocker
    by_cases hin : call.inside = true
    · have hheld : s.lock = some i := (hlock i).mp (by simp [hi, hin])
      rw [if_pos hheld]
      exact hlock.leave hi hin rfl
    · have hfree : s.lock ≠ some i := fun h => hin (by simpa [hi] using (hlock i).mpr h)
      rw [if_neg hfree]
      exact hlock.move hi ((Bool.not_eq_true _).mp hin).symm

theorem Inv.step (e : SnapshotEvent) (hs : Inv site s₀ es s)
    (hreached : s = run (step site) es s₀) : Inv site s₀ (es ++ [e]) (step site e s) := by
  have hnext : SnapshotDir.step site e s = run (SnapshotDir.step site) (es ++ [e]) s₀ := by
    rw [run_concat, hreached]
  cases e with
  | save contracts fetchedAt =>
    exact hs.join _ rfl rfl ⟨contracts, fetchedAt, by simp, rfl⟩
  | load => exact hs.join _ rfl rfl trivial
  | advance i turn =>
    cases hi : s.calls[i]? with
    | none =>
      simp only [SnapshotDir.step, hi]
      exact hs.stay _
    | some call =>
      simp only [SnapshotDir.step, hi] at hnext ⊢
      split_ifs at hnext ⊢ with hloads
      · exact hs.advanceLoad _ turn hi hreached
      · exact hs.advanceSave _ turn hi hnext
  | kill i =>
    cases hi : s.calls[i]? with
    | none =>
      simp only [SnapshotDir.step, hi]
      exact hs.stay _
    | some call =>
      simp only [SnapshotDir.step, hi]
      exact hs.kill _ hi

end SnapshotDir

end Congine
