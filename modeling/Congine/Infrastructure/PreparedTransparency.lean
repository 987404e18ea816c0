import Congine.Common.Cut
import Congine.Infrastructure.PreparedValidation
/-!
# The preparation cache is transparent

At every stage a call knows of its schema what an evaluator without a
cache would have found out by then, and every marker stands for a check
that passed. The one stage that takes a marker's word for it is the
lookup, and there equal digests are equal texts, and so equal contents.
-/

namespace Congine

namespace PreparingValidator

variable {Digest : Type} {v : PreparingValidator Digest}

variable (v) in
/-- The digest tells texts apart, and the check goes by the content. -/
structure Deterministic : Prop where
  collision_free : Function.Injective v.sha256
  check_content : ∀ a b, canonical a = canonical b →
    v.checkSchema (.owned a) = .passed → v.checkSchema (.owned b) = .passed

/-! ## What a call knows -/

variable (v) in
/-- The identity is the one of the schema, as it was when it was prepared. -/
def IdentityOf (call : SemanticCall Digest) : Identity Digest → Prop
  | .owned c digest =>
      Denotes call.seenAt call.schema c ∧ digest = v.contentDigest (c.blob v.floatRepr)
  | .unowned => ∀ c, ¬ Denotes call.seenAt call.schema c

variable (v) in
/-- The pattern guard found nothing. -/
def GuardPassed (call : SemanticCall Digest) (id : Identity Digest) : Prop :=
  v.patterns (id.subject call.guardedAt call.schema) = .ok []

variable (v) in
/-- `check_schema` passes what was read, whether it ran or a marker stood
for it. -/
def CheckPassed (call : SemanticCall Digest) (id : Identity Digest) : Prop :=
  v.checkSchema (id.subject call.checkedAt call.schema) = .passed

variable (v) in
/-- What a call knows at its stage. -/
def Knows (passed : List Json) (call : SemanticCall Digest) : Prop :=
  match call.stage with
  | .identity => True
  | .patterns id => v.IdentityOf call id
  | .lookup c digest => v.IdentityOf call (.owned c digest) ∧ v.GuardPassed call (.owned c digest)
  | .check id => v.IdentityOf call id ∧ v.GuardPassed call id
  | .mark c digest => v.IdentityOf call (.owned c digest) ∧
      v.GuardPassed call (.owned c digest) ∧ v.CheckPassed call (.owned c digest) ∧ c ∈ passed
  | .evaluate id => v.IdentityOf call id ∧ v.GuardPassed call id ∧ v.CheckPassed call id
  | .done outcome => v.Transparent call outcome

/-- More checks passed is no less known. -/
theorem Knows.mono {passed passed' : List Json} (hsub : passed ⊆ passed')
    {call : SemanticCall Digest} (hk : v.Knows passed call) : v.Knows passed' call := by
  unfold Knows at hk ⊢
  split at hk
  · trivial
  · exact hk
  · exact hk
  · exact hk
  · obtain ⟨hid, hguard, hcheck, hmem⟩ := hk
    exact ⟨hid, hguard, hcheck, hsub hmem⟩
  · exact hk
  · exact hk

/-- A call over its identity's subjects ends in a transparent outcome. -/
theorem knows_finish (passed : List Json) (call : SemanticCall Digest) (id : Identity Digest)
    (hid : v.IdentityOf call id) {outcome : SemanticOutcome}
    (h : v.uncached call.payload (id.subject call.guardedAt call.schema)
      (id.subject call.checkedAt call.schema) (id.subject call.evaluatedAt call.schema) =
        outcome) :
    v.Knows passed (call.finish outcome) := by
  show v.Transparent (call.finish outcome) outcome
  rcases id with ⟨c, digest⟩ | _
  · obtain ⟨hden, -⟩ := hid
    refine ⟨fun c' hc' => ?_, fun hnone => absurd hden (hnone c)⟩
    rw [hc'.unique hden]
    exact h.symm
  · exact ⟨fun c hc => absurd hc (hid c), fun _ => h.symm⟩

/-! ## Markers -/

theorem MarkersSound.mono {cache cache' : SchemaPreparationCache Digest}
    {passed passed' : List Json} (hm : v.MarkersSound cache passed)
    (hcache : ∀ key ∈ cache'.entries, key ∈ cache.entries)
    (hsub : passed ⊆ passed') : v.MarkersSound cache' passed' := by
  intro key hkey
  obtain ⟨c, hc, hcheck, rfl⟩ := hm key (hcache key hkey)
  exact ⟨c, hsub hc, hcheck, rfl⟩

/-- **A marker speaks for every content with its digest.** -/
theorem MarkersSound.check {cache : SchemaPreparationCache Digest} {passed : List Json}
    (hm : v.MarkersSound cache passed) (hdet : v.Deterministic) {c : Json}
    (hkey : v.key (v.contentDigest (c.blob v.floatRepr)) ∈ cache.entries) :
    v.checkSchema (.owned c) = .passed := by
  obtain ⟨c', -, hcheck, heq⟩ := hm _ hkey
  have hdigest : v.sha256 (c.blob v.floatRepr) = v.sha256 (c'.blob v.floatRepr) := by
    simpa [key, preparationKey, contentDigest] using heq
  have hcanonical := (blob_eq_iff v.floatRepr).mp (hdet.collision_free hdigest)
  exact hdet.check_content c' c hcanonical.symm hcheck

/-! ## One step of a call -/

/-- The step of a call whose identity is prepared without raising. -/
theorem prepareIdentity_ok {heap : Heap} {call : SemanticCall Digest}
    (hwalk : ∀ exc, ownAndAudit heap v.frames call.schema ≠ .error exc)
    (hshort : ∀ c, Denotes heap call.schema c → hasLongInt c = false) :
    ∃ id, v.prepareIdentity heap call.schema = .ok id ∧
      v.IdentityOf { call with seenAt := heap } id := by
  rcases howned : ownAndAudit heap v.frames call.schema with exc | owned
  · exact absurd howned (hwalk exc)
  obtain ⟨hsome, hnone⟩ := ownAndAudit_spec howned
  rcases owned with _ | c
  · refine ⟨.unowned, ?_, hnone rfl⟩
    simp [prepareIdentity, howned, Except.bind]
  · have hden := hsome c rfl
    refine ⟨.owned c (v.contentDigest (c.blob v.floatRepr)), ?_, hden, rfl⟩
    simp [prepareIdentity, howned, Except.bind, Except.map, canonicalBlob_toSnapshot,
      hshort c hden]

variable [DecidableEq Digest]

/-- **Every step of a call keeps what it knows, and what the markers say.** -/
theorem knows_advanceCall (hdet : v.Deterministic) {heap : Heap}
    {cache : SchemaPreparationCache Digest} {passed : List Json} {call : SemanticCall Digest}
    (hm : v.MarkersSound cache passed)
    (hk : v.Knows passed call)
    (hok : call.stage = .identity →
      (∀ exc, ownAndAudit heap v.frames call.schema ≠ .error exc) ∧
        ∀ c, Denotes heap call.schema c → hasLongInt c = false) :
    v.Knows ((v.advanceCall heap cache call).2.2 ++ passed) (v.advanceCall heap cache call).1 ∧
      v.MarkersSound (v.advanceCall heap cache call).2.1
        ((v.advanceCall heap cache call).2.2 ++ passed) := by
  rcases hstage : call.stage with _ | id | ⟨c, digest⟩ | id | ⟨c, digest⟩ | id | outcome
  · obtain ⟨hwalk, hshort⟩ := hok hstage
    obtain ⟨id, hprepare, hid⟩ := prepareIdentity_ok hwalk hshort
    simp only [advanceCall, hstage, hprepare]
    exact ⟨hid, hm⟩
  · have hid : v.IdentityOf call id := by simpa only [Knows, hstage] using hk
    simp only [advanceCall, hstage]
    rcases hguard : v.patterns (id.subject heap call.schema) with exc | _ | ⟨breach, breaches⟩
    · exact ⟨knows_finish _ { call with guardedAt := heap } id hid (by simp [uncached, hguard]), hm⟩
    · rcases id with ⟨c, digest⟩ | _
      · exact ⟨⟨hid, hguard⟩, hm⟩
      · exact ⟨⟨hid, hguard⟩, hm⟩
    · exact ⟨knows_finish _ { call with guardedAt := heap } id hid (by simp [uncached, hguard]), hm⟩
  · obtain ⟨hid, hguard⟩ : v.IdentityOf call (.owned c digest) ∧
        v.GuardPassed call (.owned c digest) := by
      simpa only [Knows, hstage] using hk
    have hm' : v.MarkersSound (cache.isPrepared (v.key digest)).2 passed :=
      hm.mono (fun key => SchemaPreparationCache.mem_isPrepared) (List.Subset.refl _)
    simp only [advanceCall, hstage]
    split_ifs with hprepared
    · -- The marker stands for a check of a content with this digest.
      have hmem := SchemaPreparationCache.isPrepared_iff.mp hprepared
      rw [hid.2] at hmem
      exact ⟨⟨hid, hguard, hm.check hdet hmem⟩, hm'⟩
    · exact ⟨⟨hid, hguard⟩, hm'⟩
  · obtain ⟨hid, hguard⟩ : v.IdentityOf call id ∧ v.GuardPassed call id := by
      simpa only [Knows, hstage] using hk
    unfold GuardPassed at hguard
    simp only [advanceCall, hstage]
    rcases hcheck : v.checkSchema (id.subject heap call.schema) with _ | message | exc
    · rcases id with ⟨c, digest⟩ | _
      · refine ⟨⟨hid, hguard, hcheck, List.mem_cons_self⟩, ?_⟩
        exact hm.mono (fun key => id) (List.subset_cons_self c passed)
      · exact ⟨⟨hid, hguard, hcheck⟩, hm⟩
    · refine ⟨knows_finish _ { call with checkedAt := heap } id hid ?_, hm⟩
      simp [uncached, hguard, hcheck]
    · refine ⟨knows_finish _ { call with checkedAt := heap } id hid ?_, hm⟩
      simp [uncached, hguard, hcheck]
  · obtain ⟨hid, hguard, hcheck, hmem⟩ : v.IdentityOf call (.owned c digest) ∧
        v.GuardPassed call (.owned c digest) ∧ v.CheckPassed call (.owned c digest) ∧
          c ∈ passed := by
      simpa only [Knows, hstage] using hk
    simp only [advanceCall, hstage]
    refine ⟨⟨hid, hguard, hcheck⟩, fun key hkey => ?_⟩
    rcases SchemaPreparationCache.mem_markPrepared hkey with hkey | rfl
    · exact hm key hkey
    · exact ⟨c, hmem, hcheck, by rw [hid.2]⟩
  · obtain ⟨hid, hguard, hcheck⟩ : v.IdentityOf call id ∧ v.GuardPassed call id ∧
        v.CheckPassed call id := by
      simpa only [Knows, hstage] using hk
    unfold GuardPassed at hguard
    unfold CheckPassed at hcheck
    simp only [advanceCall, hstage]
    refine ⟨knows_finish _ { call with evaluatedAt := heap } id hid ?_, hm⟩
    simp [uncached, hguard, hcheck]
  · simp only [advanceCall, hstage]
    exact ⟨hk, hm⟩

/-! ## Whole runs -/

omit [DecidableEq Digest] in
/-- An event that is no step of a call prepares no identity. -/
theorem identifiable_of_idle {e : SemanticEvent} {s : PreparedState Digest}
    (h : ∀ i, e ≠ .advance i) : v.Identifiable e s :=
  fun i _ he => absurd he (h i)

omit [DecidableEq Digest] in
/-- Nor does a step of a call that has one. -/
theorem identifiable_of_prepared {i : ℕ} {call : SemanticCall Digest} {s : PreparedState Digest}
    (hcall : s.calls[i]? = some call) (hstage : call.stage ≠ .identity) :
    v.Identifiable (.advance i) s := by
  rintro j call' heq hcall' hidentity
  obtain rfl := SemanticEvent.advance.inj heq
  rw [hcall] at hcall'
  obtain rfl := Option.some.inj hcall'
  exact absurd hidentity hstage

variable (v) in
/-- What every run keeps. -/
structure Sound (s : PreparedState Digest) : Prop where
  markers : v.MarkersSound s.cache s.passed
  calls : ∀ call ∈ s.calls, v.Knows s.passed call

/-- **Every identifiable step keeps the calls and the markers sound.** -/
theorem sound_step (hdet : v.Deterministic) (e : SemanticEvent) (s : PreparedState Digest)
    (hok : v.Identifiable e s) (hs : v.Sound s) : v.Sound (v.step e s) := by
  obtain ⟨hmarkers, hcalls⟩ := hs
  cases e with
  | validate payload schema =>
    refine ⟨hmarkers, fun call hcall => ?_⟩
    rcases List.mem_append.mp hcall with hcall | hcall
    · exact hcalls call hcall
    · rw [List.mem_singleton.mp hcall]
      trivial
  | mutate heap => exact ⟨hmarkers, hcalls⟩
  | advance i =>
    rcases hcall : s.calls[i]? with _ | call
    · simpa only [step, hcall] using Sound.mk hmarkers hcalls
    · have hmem := List.mem_of_getElem? hcall
      obtain ⟨hknows, hmarkers'⟩ := knows_advanceCall hdet hmarkers (hcalls call hmem)
        (hok i call rfl hcall)
      simp only [step, hcall]
      refine ⟨hmarkers', forall_mem_set (fun c hc => ?_) hknows i⟩
      exact (hcalls c hc).mono (List.subset_append_right _ _)
  | clear => exact ⟨fun key hkey => absurd hkey List.not_mem_nil, hcalls⟩

/-- **The cache is transparent**: over every run of calls, however their
steps interleave, whatever the callers do to their schemas between them and
whatever the cache drops, in which the identities can be prepared, each
call ends as it would without a cache, and each marker stands for a check
that passed. -/
theorem transparent_run (v : PreparingValidator Digest) (hdet : v.Deterministic) (heap : Heap)
    (events : List SemanticEvent)
    (hok : Along v.step v.Identifiable events { heap := heap }) :
    (∀ call ∈ (run v.step events { heap := heap }).calls, ∀ outcome, call.stage = .done outcome →
      v.Transparent call outcome) ∧
    v.MarkersSound (run v.step events { heap := heap }).cache
      (run v.step events { heap := heap }).passed := by
  have hstart : v.Sound { heap := heap } :=
    ⟨fun key hkey => absurd hkey List.not_mem_nil, fun call hcall => absurd hcall List.not_mem_nil⟩
  have hsound := run_invariant (sound_step hdet) hok hstart
  refine ⟨fun call hcall outcome hdone => ?_, hsound.markers⟩
  have hknows := hsound.calls call hcall
  rwa [Knows, hdone] at hknows

/-- A float by the numerator and the denominator it is the ratio of. -/
def ratioFloats : FloatFormat ℚ where
  repr q := intRepr q.num ++ 'e' :: Nat.toDigits 10 q.den
  injective := by
    intro p q h
    obtain ⟨hp, hp'⟩ := upTo_sep_append (point_not_mem_intRepr p.num).2 (Nat.toDigits 10 p.den)
    obtain ⟨hq, hq'⟩ := upTo_sep_append (point_not_mem_intRepr q.num).2 (Nat.toDigits 10 q.den)
    have hnum : intRepr p.num = intRepr q.num := hp.symm.trans ((congrArg _ h).trans hq)
    have hden : Nat.toDigits 10 p.den = Nat.toDigits 10 q.den :=
      hp'.symm.trans ((congrArg _ h).trans hq')
    refine Rat.ext (intRepr_injective hnum) ?_
    rw [← @Nat.ofDigitChars_ten_toDigits p.den, hden, Nat.ofDigitChars_ten_toDigits]
  isNumeral := by
    intro q c hc
    rcases List.mem_append.mp hc with hc | hc
    · rcases intRepr_digits hc with rfl | hdigit
      · decide
      · simp [isNumeral, hdigit]
    · rcases List.mem_cons.mp hc with rfl | hc
      · decide
      · have := Nat.isDigit_of_mem_toDigits (by decide) (by decide) hc
        simp [isNumeral, this]
  point q := .inr (by simp)

/-- A library that takes every schema and finds no error. -/
def lenient : PreparingValidator String where
  checkSchema _ := .passed
  iterErrors _ _ := ([], none)
  livePatterns _ _ := .ok []
  validatorCls := 0
  sha256 := id
  floatRepr := ratioFloats
  frames := 100

/-- A schema of one member. -/
def oneMember (key : String) (value : PyValue) : Heap := fun _ => .dict [(.str key, value)]

/-- A call whose schema changes once its snapshot is taken. -/
def changedSchema : List SemanticEvent :=
  [.validate (.int 5) (.ref 0), .advance 0, .mutate (oneMember "type" (.str "array")),
    .advance 0, .advance 0, .advance 0, .advance 0, .advance 0]

theorem transparent_run_changed :
    (run lenient.step changedSchema { heap := oneMember "type" (.str "integer") }).calls.map
        (·.stage) = [.done (.evaluated [])] ∧
      (∀ call ∈ (run lenient.step changedSchema
          { heap := oneMember "type" (.str "integer") }).calls, ∀ outcome,
        call.stage = .done outcome → lenient.Transparent call outcome) ∧
      lenient.MarkersSound
        (run lenient.step changedSchema { heap := oneMember "type" (.str "integer") }).cache
        (run lenient.step changedSchema { heap := oneMember "type" (.str "integer") }).passed := by
  have hdet : lenient.Deterministic := ⟨fun _ _ h => h, fun _ _ _ _ => rfl⟩
  have hok : Along lenient.step lenient.Identifiable changedSchema
      { heap := oneMember "type" (.str "integer") } := by
    refine ⟨?_, ?_, ?_, ?_, ?_, ?_, ?_, ?_, trivial⟩
    · exact identifiable_of_idle (by simp)
    · rintro i call ⟨⟩ hcall -
      obtain rfl := Option.some.inj hcall
      refine ⟨by rintro exc ⟨⟩, fun c hc => ?_⟩
      have hdenotes : Denotes (oneMember "type" (.str "integer")) (.ref 0)
          (.obj [("type", .str "integer")]) := ⟨2, rfl⟩
      rw [hc.unique hdenotes]
      rfl
    · exact identifiable_of_idle (by simp)
    -- From here on the call has its snapshot.
    · exact identifiable_of_prepared rfl (by rintro ⟨⟩)
    · exact identifiable_of_prepared rfl (by rintro ⟨⟩)
    · exact identifiable_of_prepared rfl (by rintro ⟨⟩)
    · exact identifiable_of_prepared rfl (by rintro ⟨⟩)
    · exact identifiable_of_prepared rfl (by rintro ⟨⟩)
  exact ⟨rfl, transparent_run lenient hdet _ changedSchema hok⟩

/-- The least integer the interpreter does not print. -/
def longMaximum : ℤ := 10 ^ Text.maxIntDigits

/-- A call on a schema with such a bound. -/
def longSchema : List SemanticEvent := [.validate (.int 5) (.ref 0), .advance 0]

/-- The bound is content like any other, and the check and the evaluation
take it; the digest of it raises. -/
theorem transparent_run_longMaximum :
    lenient.Deterministic ∧ ¬ ∀ call ∈ (run lenient.step longSchema
        { heap := oneMember "maximum" (.int longMaximum) }).calls, ∀ outcome,
      call.stage = .done outcome → lenient.Transparent call outcome := by
  refine ⟨⟨fun _ _ h => h, fun _ _ _ _ => rfl⟩, ?_⟩
  have hlong : hasLongInt (.obj [("maximum", .int longMaximum)]) = true := by decide +kernel
  generalize longMaximum = n at hlong ⊢
  have howned : ownAndAudit (oneMember "maximum" (.int n)) lenient.frames (.ref 0) =
      .ok (some (.obj [("maximum", .int n)])) := rfl
  have hprepare : lenient.prepareIdentity (oneMember "maximum" (.int n)) (.ref 0) =
      .error .valueError := by
    simp [prepareIdentity, howned, Except.bind, canonicalBlob_toSnapshot, hlong, Except.map]
  have hdenotes : Denotes (oneMember "maximum" (.int n)) (.ref 0)
      (.obj [("maximum", .int n)]) := ⟨2, rfl⟩
  have hcalls : (run lenient.step longSchema { heap := oneMember "maximum" (.int n) }).calls =
      [{ payload := .int 5, schema := .ref 0, stage := .done (.raised .valueError),
         seenAt := oneMember "maximum" (.int n), guardedAt := oneMember "maximum" (.int n),
         checkedAt := oneMember "maximum" (.int n),
         evaluatedAt := oneMember "maximum" (.int n) }] := by
    simp [run, longSchema, step, advanceCall, hprepare, SemanticCall.finish, SemanticCall.goTo]
  intro h
  rw [hcalls] at h
  have hraised := (h _ List.mem_cons_self (.raised .valueError) rfl).owned _ hdenotes
  cases hraised

end PreparingValidator

end Congine
