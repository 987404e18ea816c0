import Congine.Adapters.LangchainHandler
import Mathlib.Data.List.Induction
/-!
# The stream of one run

What a run is evaluated on is told by its own tokens since it last ended
or failed, and by its final response. `Tracks` is what its entry holds of
those tokens; every callback keeps it, and the law of the stream is read
off it.
-/

namespace Congine

variable {Key Obj : Type} [DecidableEq Key] [HostObjects Obj]

/-! ## The tokens of a run -/

namespace Callback

/-- The callback is made for the run. -/
def ofRun (r : Key) (c : Callback Key Obj) : Bool :=
  match c.runId with
  | .missing => false
  | .of key _ => key = r

/-- The callback ends the run, or reports its failure. -/
def finishes (r : Key) (c : Callback Key Obj) : Bool :=
  c.ofRun r && match c.kind with
    | .newToken _ _ => false
    | _ => true

/-- The container is open, and no use of the run id raises. -/
def Usable (c : Callback Key Obj) : Prop :=
  c.opened = .ok () ∧ ∃ key, c.runId = .of key fun _ => none

/-- What a token of the run was found to be: its text, or a refusal. -/
def observed (r : Key) (c : Callback Key Obj) : Option (Except RefusalReason String) :=
  if c.ofRun r then
    match c.kind with
    | .newToken token chunk =>
        match inspectStreamObservation token chunk with
        | .ok text => some (.ok text)
        | .error (.refusal reason) => some (.error reason)
        | .error (.raised _) => none
    | _ => none
  else none

/-- `on_llm_new_token` of a run, in an open container. -/
def tokenOf (r : Key) (token chunk : Obj) : Callback Key Obj where
  runId := .of r fun _ => none
  kind := .newToken token chunk

/-- `on_llm_end` of a run, in an open container. -/
def endOf (r : Key) (response : Obj) : Callback Key Obj where
  runId := .of r fun _ => none
  kind := .end response

end Callback

/-- The tokens of a run since it last ended or failed, in order. -/
def observations (r : Key) (cs : List (Callback Key Obj)) : List (Except RefusalReason String) :=
  (sinceLast (Callback.finishes r) cs).reverse.filterMap (Callback.observed r)

/-- The texts among them. -/
def texts (obs : List (Except RefusalReason String)) : List String :=
  obs.filterMap Except.toOption

/-- What their texts come to in length. -/
def totalLength (obs : List (Except RefusalReason String)) : ℕ :=
  ((texts obs).map String.length).sum

@[simp] theorem observations_nil (r : Key) :
    observations r ([] : List (Callback Key Obj)) = [] := rfl

theorem observations_concat (r : Key) (cs : List (Callback Key Obj)) (c : Callback Key Obj) :
    observations r (cs ++ [c]) =
      if c.finishes r then [] else observations r cs ++ (c.observed r).toList := by
  unfold observations
  rw [sinceLast_concat]
  split_ifs
  · rfl
  · rw [List.reverse_cons, List.filterMap_append]
    rcases h : c.observed r with _ | o <;> simp [h]

@[simp] theorem texts_append (obs obs' : List (Except RefusalReason String)) :
    texts (obs ++ obs') = texts obs ++ texts obs' := List.filterMap_append

@[simp] theorem totalLength_append (obs obs' : List (Except RefusalReason String)) :
    totalLength (obs ++ obs') = totalLength obs + totalLength obs' := by
  unfold totalLength
  rw [texts_append, List.map_append, List.sum_append]

namespace CongineCallbackHandler

variable (h : CongineCallbackHandler)

/-- A refusal was recorded over these tokens: one was refused, or their
length ran past the buffer. -/
def RefusalRecorded (obs : List (Except RefusalReason String)) : Prop :=
  (∃ reason, .error reason ∈ obs) ∨ obs ≠ [] ∧ h.maxBufferChars < totalLength obs

/-- What the entry of a run holds of its tokens. -/
inductive Tracks : List (Except RefusalReason String) → Option RunState → Prop
  | idle : Tracks [] none
  | collecting {obs : List (Except RefusalReason String)} (hne : obs ≠ [])
      (hnone : ¬ h.RefusalRecorded obs) :
      Tracks obs (some { parts := texts obs, length := totalLength obs })
  | refused {obs : List (Except RefusalReason String)} (reason : RefusalReason)
      (hrec : h.RefusalRecorded obs) :
      Tracks obs (some { status := .refused, refusalReason := some reason })

variable {h}

/-- A recorded refusal stays recorded. -/
theorem RefusalRecorded.append {obs : List (Except RefusalReason String)}
    (hrec : h.RefusalRecorded obs) (o : Except RefusalReason String) :
    h.RefusalRecorded (obs ++ [o]) := by
  rcases hrec with ⟨reason, hmem⟩ | ⟨-, hlt⟩
  · exact .inl ⟨reason, List.mem_append_left _ hmem⟩
  · refine .inr ⟨by simp, ?_⟩
    rw [totalLength_append]
    omega

/-- A refused token is recorded over whatever was there. -/
theorem Tracks.refuse {obs : List (Except RefusalReason String)} {st : Option RunState}
    (ht : h.Tracks obs st) (reason : RefusalReason) {o : Except RefusalReason String}
    (hrec : h.RefusalRecorded (obs ++ [o])) :
    h.Tracks (obs ++ [o]) (some ((st.getD {}).refuse reason)) := by
  rcases ht with _ | ⟨-, -⟩ | ⟨first, -⟩
  · exact .refused reason hrec
  · exact .refused reason hrec
  · exact .refused first hrec

variable (h) in
/-- What a token does to the entry of its run. -/
def absorb (state : RunState) : Except RefusalReason String → RunState
  | .error reason => state.refuse reason
  | .ok text =>
      if state.refusalReason.isSome then state
      else if h.maxBufferChars < state.length + text.length then
        state.refuse .streamBufferExceeded
      else { state with
        parts := state.parts ++ [text]
        length := state.length + text.length }

/-- **The entry follows its tokens**, one at a time. -/
theorem Tracks.absorb {obs : List (Except RefusalReason String)} {st : Option RunState}
    (ht : h.Tracks obs st) (o : Except RefusalReason String) :
    h.Tracks (obs ++ [o]) (some (h.absorb (st.getD {}) o)) := by
  rcases o with reason | text
  · exact ht.refuse reason (.inl ⟨reason, by simp⟩)
  · have hlen : totalLength (obs ++ [.ok text]) = totalLength obs + text.length := by
      rw [totalLength_append]
      simp [totalLength, texts, Except.toOption]
    have htexts : texts (obs ++ [.ok text]) = texts obs ++ [text] := by
      rw [texts_append]
      rfl
    -- Over a collecting entry the bound decides, and it decides the record too.
    have hcollect : ¬ (∃ reason, .error reason ∈ obs) →
        h.Tracks (obs ++ [.ok text])
          (some (h.absorb { parts := texts obs, length := totalLength obs } (.ok text))) := by
      intro hclean
      simp only [CongineCallbackHandler.absorb, Option.isSome_none, Bool.false_eq_true, if_false]
      split_ifs with hlt
      · refine .refused _ (.inr ⟨by simp, ?_⟩)
        rw [hlen]
        omega
      · rw [← hlen, ← htexts]
        refine .collecting (by simp) ?_
        rintro (⟨reason, hmem⟩ | ⟨-, hlt'⟩)
        · exact hclean ⟨reason, by simpa using hmem⟩
        · rw [hlen] at hlt'
          omega
    rcases ht with _ | ⟨-, hnone⟩ | ⟨first, hrec⟩
    · exact hcollect fun ⟨_, hmem⟩ => absurd hmem List.not_mem_nil
    · exact hcollect fun hmem => hnone (.inl hmem)
    · exact .refused first (hrec.append _)

/-- What the entry of a run is after one of its tokens, and what the
callback answers. -/
theorem collectToken_observed (r : Key) (s : HandlerState Key) (token chunk : Obj)
    (o : Except RefusalReason String)
    (ho : inspectStreamObservation token chunk = o.mapError .refusal) :
    h.collectToken r (fun _ => none) token chunk s =
      (.ok (h.absorb ((s.runs r).getD {}) o).refusalReason,
        s.setRun r (h.absorb ((s.runs r).getD {}) o)) := by
  rcases o with reason | text
  · simp only [collectToken, ho, Except.mapError, markRefused, absorb]
  · simp only [collectToken, ho, Except.mapError, absorb]
    split_ifs with hsome hlt
    · rfl
    · rfl
    · simp_all

/-! ## The end of a run -/

theorem runs_bestEffort (key : Key) (fault : Option Exc) (s : HandlerState Key) :
    (bestEffortRecordFailure key fault s).2.runs = s.runs := by
  unfold bestEffortRecordFailure
  split
  · rfl
  · rfl

theorem runs_evaluationFailed (key : Key) (fault : Option Exc) (exc : Exc)
    (s : HandlerState Key) : (evaluationFailed key fault exc s).2.runs = s.runs := by
  have hbest := runs_bestEffort key fault s
  unfold evaluationFailed
  split
  · rfl
  · generalize bestEffortRecordFailure key fault s = out at hbest
    rcases out with ⟨_ | escaped, s'⟩
    · exact hbest
    · exact hbest

theorem runs_evaluate (key : Key) (fault : KeyUse → Option Exc) (completion : String)
    (s : HandlerState Key) : (h.evaluate key fault completion s).2.runs = s.runs := by
  unfold evaluate
  simp only
  split
  · exact runs_evaluationFailed _ _ _ s.called
  · split
    · exact runs_evaluationFailed _ _ _ s.called
    · rfl

/-- The text a run is evaluated on, if it is: over its entry and the final
response. -/
def completeText (state : Option RunState) (response : Obj) : Option String :=
  if (state.bind RunState.refusalReason).isSome then none
  else
    match extractCompleteText response with
    | .error _ => none
    | .ok finalText => if state.any (·.joined ≠ finalText) then none else some finalText

/-- A usable id keeps the books of a failure, whatever they hold. -/
theorem bestEffort_usable (r : Key) (s : HandlerState Key) :
    bestEffortRecordFailure r none s = (none, (s.popResult r).clearLast) := by
  simp only [bestEffortRecordFailure, PyDict.popFault_none]

/-- **What the end of a usable run does**: its entry is gone, and the use
case is called on its complete text, if it has one. -/
theorem onLlmEnd_usable (r : Key) (response : Obj) (s : HandlerState Key) :
    (h.onLlmEnd (.of r fun _ => none) response s).1.invoked =
        ((completeText (s.runs r) response).map h.invocation).toList ∧
      (h.onLlmEnd (.of r fun _ => none) response s).2.runs r = none := by
  have hgone : (s.popRun r).runs r = none := PyDict.set_self _ _ _
  simp only [onLlmEnd, requireRunKey, establishCompletion, completeText, PyDict.popFault_none,
    bestEffort_usable]
  rcases hstate : (s.runs r).bind RunState.refusalReason with _ | reason
  · rcases hext : extractCompleteText response with (reason | exc) | finalText
    · exact ⟨rfl, hgone⟩
    · simp only [Option.isSome_none, Bool.false_eq_true, if_false]
      split_ifs
      · exact ⟨rfl, hgone⟩
      · exact ⟨rfl, hgone⟩
    · simp only [Option.isSome_none, Bool.false_eq_true, if_false]
      split_ifs with hjoined
      · exact ⟨rfl, hgone⟩
      · refine ⟨rfl, ?_⟩
        rw [runs_evaluate]
        exact hgone
  · exact ⟨rfl, hgone⟩

/-- The failure of a usable run leaves nothing of it. -/
theorem onLlmError_usable (r : Key) (s : HandlerState Key) :
    (onLlmError (.of r fun _ => none) s).2.runs r = none := by
  simp only [onLlmError, PyDict.popFault_none]
  exact PyDict.set_self _ _ _

/-! ## A usable history -/

variable (h) in
/-- The state after a history. -/
def after (cs : List (Callback Key Obj)) : HandlerState Key := run h.step cs .empty

theorem after_concat (cs : List (Callback Key Obj)) (c : Callback Key Obj) :
    h.after (cs ++ [c]) = h.step c (h.after cs) := run_concat cs c _

omit [HostObjects Obj] in
/-- A usable callback of a run names it, and nothing else. -/
theorem ofRun_of_usable {r : Key} {c : Callback Key Obj} (hu : c.Usable) (hr : c.ofRun r) :
    c.opened = .ok () ∧ c.runId = .of r fun _ => none := by
  obtain ⟨hopen, key, hkey⟩ := hu
  refine ⟨hopen, ?_⟩
  simp only [Callback.ofRun, hkey, decide_eq_true_eq] at hr
  rw [hkey, hr]

omit [HostObjects Obj] in
theorem ne_of_not_ofRun {r : Key} {c : Callback Key Obj} (hr : c.ofRun r = false) :
    ∀ key fault, c.runId = .of key fault → r ≠ key := by
  rintro key fault hkey rfl
  simp [Callback.ofRun, hkey] at hr

/-- What a token callback of a usable run leaves of its entry. -/
theorem tracks_token {r : Key} {obs : List (Except RefusalReason String)} {s : HandlerState Key}
    (ht : h.Tracks obs (s.runs r)) {c : Callback Key Obj} {token chunk : Obj} (hr : c.ofRun r)
    (hkind : c.kind = .newToken token chunk) :
    h.Tracks (obs ++ (c.observed r).toList)
      ((h.onLlmNewToken (.of r fun _ => none) token chunk s).2.runs r) := by
  simp only [Callback.observed, hr, if_true, hkind, onLlmNewToken, requireRunKey]
  rcases hinspect : inspectStreamObservation token chunk with (reason | exc) | text
  · rw [collectToken_observed r s token chunk (.error reason) hinspect]
    have habsorb := ht.absorb (.error reason)
    rcases hreason : (h.absorb ((s.runs r).getD {}) (.error reason)).refusalReason with _ | first
    · simpa [HandlerState.setRun] using habsorb
    · simpa [HandlerState.setRun] using habsorb
  · simpa [collectToken, hinspect] using ht
  · rw [collectToken_observed r s token chunk (.ok text) hinspect]
    have habsorb := ht.absorb (.ok text)
    rcases hreason : (h.absorb ((s.runs r).getD {}) (.ok text)).refusalReason with _ | first
    · simpa [HandlerState.setRun] using habsorb
    · simpa [HandlerState.setRun] using habsorb

/-- **Every usable callback keeps the entries with their tokens.** -/
theorem tracks_step {r : Key} {cs : List (Callback Key Obj)} {s : HandlerState Key}
    (ht : h.Tracks (observations r cs) (s.runs r)) {c : Callback Key Obj} (hu : c.Usable) :
    h.Tracks (observations r (cs ++ [c])) ((h.step c s).runs r) := by
  rw [observations_concat]
  rcases hr : c.ofRun r with _ | _
  · have hfin : c.finishes r = false := by simp [Callback.finishes, hr]
    have hobs : c.observed r = none := by simp [Callback.observed, hr]
    rw [(untouched_step (ne_of_not_ofRun hr) s).runs_eq, hfin, hobs]
    simpa using ht
  · obtain ⟨hopen, hid⟩ := ofRun_of_usable hu hr
    simp only [step, respond, hopen, hid, Callback.finishes, hr, Bool.true_and]
    rcases hkind : c.kind with ⟨token, chunk⟩ | response | _
    · exact tracks_token ht hr hkind
    · simp only [(onLlmEnd_usable (h := h) r response s).2]
      exact .idle
    · simp only [onLlmError_usable]
      exact .idle

/-- **After any usable history every entry tells its tokens.** -/
theorem tracks_after {cs : List (Callback Key Obj)} (hu : ∀ c ∈ cs, c.Usable) (r : Key) :
    h.Tracks (observations r cs) ((h.after cs).runs r) := by
  induction cs using List.reverseRecOn with
  | nil => exact .idle
  | append_singleton cs c ih =>
    rw [after_concat]
    exact tracks_step (ih fun c' hc' => hu c' (List.mem_append_left _ hc'))
      (hu c (by simp))

/-! ## The law of the stream -/

/-- A token of a refused run leaves the refusal in place, whatever the id
does. -/
theorem collectToken_refused {r : Key} {s : HandlerState Key} {reason : RefusalReason}
    (hs : (s.runs r).bind RunState.refusalReason = some reason) (fault : KeyUse → Option Exc)
    (token chunk : Obj) :
    ((h.collectToken r fault token chunk s).2.runs r).bind RunState.refusalReason =
      some reason := by
  obtain ⟨state, hstate, hreason⟩ := Option.bind_eq_some_iff.mp hs
  unfold collectToken markRefused
  split
  · split
    · exact hs
    · simp [HandlerState.setRun, RunState.refuse, hstate, hreason]
  · exact hs
  · split
    · exact hs
    · simp [HandlerState.setRun, hstate, hreason]

/-- **A refusal is sticky**: only the end or the failure of its run lifts
it. -/
theorem refusal_step {r : Key} {s : HandlerState Key} {reason : RefusalReason}
    (hs : (s.runs r).bind RunState.refusalReason = some reason) {c : Callback Key Obj}
    (hfin : c.finishes r = false) :
    ((h.step c s).runs r).bind RunState.refusalReason = some reason := by
  rcases hr : c.ofRun r with _ | _
  · rw [(untouched_step (ne_of_not_ofRun hr) s).runs_eq]
    exact hs
  · rcases hid : c.runId with _ | ⟨key, fault⟩
    · simp [Callback.ofRun, hid] at hr
    · obtain rfl : key = r := by simpa [Callback.ofRun, hid] using hr
      rcases hkind : c.kind with ⟨token, chunk⟩ | response | _
      · have hcollect := collectToken_refused (h := h) hs fault token chunk
        unfold step respond
        split
        · exact hs
        · simp only [hkind, hid, onLlmNewToken]
          rcases hadm : fault .admission with _ | exc
          · simp only [requireRunKey, hadm]
            generalize h.collectToken key fault token chunk s = out at hcollect
            rcases out with ⟨signal | _ | first, s'⟩
            · exact hcollect
            · exact hcollect
            · exact hcollect
          · simp only [requireRunKey, hadm]
            split_ifs
            · exact hs
            · exact hs
      · simp [Callback.finishes, hr, hkind] at hfin
      · simp [Callback.finishes, hr, hkind] at hfin

/-- A refused run answers every further token with its refusal. -/
theorem onLlmNewToken_refused {r : Key} {s : HandlerState Key} {reason : RefusalReason}
    (hs : (s.runs r).bind RunState.refusalReason = some reason) (token chunk : Obj) :
    (h.onLlmNewToken (.of r fun _ => none) token chunk s).1.outcome = .refused reason ∨
      ∃ exc, inspectStreamObservation token chunk = .error (.raised exc) := by
  obtain ⟨state, hstate, hreason⟩ := Option.bind_eq_some_iff.mp hs
  simp only [onLlmNewToken, requireRunKey, collectToken]
  rcases inspectStreamObservation token chunk with (first | exc) | text
  · simp [markRefused, hstate, hreason, RunState.refuse]
  · exact .inr ⟨exc, rfl⟩
  · simp [hstate, hreason]

variable (h) in
/-- What holds after a history, and of the callback that comes next. -/
structure StreamLaw (cs : List (Callback Key Obj)) : Prop where
  /-- The use case is called at the end of a run on exactly the complete
  text its tokens agree with. -/
  invoked_iff : ∀ (r : Key) (response : Obj) (t : String),
    (h.respond (.endOf r response) (h.after cs)).1.invoked = [h.invocation t] ↔
      ¬ h.RefusalRecorded (observations r cs) ∧ extractCompleteText response = .ok t ∧
        (texts (observations r cs) ≠ [] → t = String.join (texts (observations r cs)))
  /-- Once, at the end of a run, or not at all. -/
  once : ∀ c : Callback Key Obj, c.Usable →
    (h.respond c (h.after cs)).1.invoked = [] ∨
      ∃ r response t, c = .endOf r response ∧
        (h.respond c (h.after cs)).1.invoked = [h.invocation t]
  /-- The refusal recorded for a run is the one its entry carries. -/
  recorded_iff : ∀ r, h.RefusalRecorded (observations r cs) ↔
    ∃ reason, ((h.after cs).runs r).bind RunState.refusalReason = some reason
  sticky : ∀ r reason cs', ((h.after cs).runs r).bind RunState.refusalReason = some reason →
    (∀ c ∈ cs', c.finishes r = false) →
    ((h.after (cs ++ cs')).runs r).bind RunState.refusalReason = some reason
  refuses : ∀ r reason, ((h.after cs).runs r).bind RunState.refusalReason = some reason →
    ∀ token chunk : Obj,
      (h.respond (.tokenOf r token chunk) (h.after cs)).1.outcome = .refused reason ∨
        ∃ exc, inspectStreamObservation token chunk = .error (.raised exc)
  /-- A refused run keeps no text. -/
  refused : ∀ r state, (h.after cs).runs r = some state → state.refusalReason.isSome →
    state.status = .refused ∧ state.parts = [] ∧ state.length = 0
  collecting : ∀ r state, (h.after cs).runs r = some state → state.refusalReason = none →
    state.status = .collectingText ∧ state.length = (state.parts.map String.length).sum ∧
      state.length ≤ h.maxBufferChars

theorem invocation_injective : Function.Injective h.invocation := by
  intro t t' heq
  simpa [invocation] using heq

/-- Tokens none of which was refused have texts. -/
theorem texts_ne_nil {obs : List (Except RefusalReason String)} (hne : obs ≠ [])
    (hclean : ¬ ∃ reason, .error reason ∈ obs) : texts obs ≠ [] := by
  rcases obs with _ | ⟨reason | text, obs⟩
  · exact absurd rfl hne
  · exact absurd ⟨reason, List.mem_cons_self⟩ hclean
  · simp [texts, Except.toOption]

/-- **What the entry of a run says of its complete text**, its tokens say. -/
theorem Tracks.completeText_iff {obs : List (Except RefusalReason String)} {st : Option RunState}
    (ht : h.Tracks obs st) (response : Obj) (t : String) :
    completeText st response = some t ↔
      ¬ h.RefusalRecorded obs ∧ extractCompleteText response = .ok t ∧
        (texts obs ≠ [] → t = String.join (texts obs)) := by
  rcases ht with _ | ⟨hne, hnone⟩ | ⟨reason, hrec⟩
  · have hnone : ¬ h.RefusalRecorded [] := by
      rintro (⟨reason, hmem⟩ | ⟨hne, -⟩)
      · exact List.not_mem_nil hmem
      · exact hne rfl
    rcases hext : extractCompleteText response with signal | finalText
    · simp [completeText, hext]
    · simp [completeText, hext, hnone, texts]
  · have htexts : texts obs ≠ [] := texts_ne_nil hne fun hmem => hnone (.inl hmem)
    rcases hext : extractCompleteText response with signal | finalText
    · simp [completeText, hext]
    · have hjoined : ({ parts := texts obs, length := totalLength obs } : RunState).joined =
          String.join (texts obs) := rfl
      by_cases hjoin : String.join (texts obs) = finalText
      · have hcomplete : completeText (some { parts := texts obs, length := totalLength obs })
            response = some finalText := by
          simp [completeText, hext, hjoined, hjoin]
        rw [hcomplete, Option.some.injEq, Except.ok.injEq]
        constructor
        · rintro rfl
          exact ⟨hnone, rfl, fun _ => hjoin.symm⟩
        · rintro ⟨-, rfl, -⟩
          rfl
      · have hcomplete : completeText (some { parts := texts obs, length := totalLength obs })
            response = none := by
          simp [completeText, hext, hjoined, hjoin]
        rw [hcomplete, Except.ok.injEq]
        constructor
        · intro heq
          cases heq
        · rintro ⟨-, rfl, heq⟩
          exact absurd (heq htexts).symm hjoin
  · simp [completeText, hrec]

theorem Tracks.recorded_iff {obs : List (Except RefusalReason String)} {st : Option RunState}
    (ht : h.Tracks obs st) :
    h.RefusalRecorded obs ↔ ∃ reason, st.bind RunState.refusalReason = some reason := by
  rcases ht with _ | ⟨-, hnone⟩ | ⟨reason, hrec⟩
  · constructor
    · rintro (⟨reason, hmem⟩ | ⟨hne, -⟩)
      · exact absurd hmem List.not_mem_nil
      · exact absurd rfl hne
    · rintro ⟨reason, hreason⟩
      cases hreason
  · simp [hnone]
  · simp [hrec]

theorem Tracks.of_refused {obs : List (Except RefusalReason String)} {state : RunState}
    (ht : h.Tracks obs (some state)) (hreason : state.refusalReason.isSome) :
    state.status = .refused ∧ state.parts = [] ∧ state.length = 0 := by
  rcases ht with _ | ⟨-, -⟩ | ⟨reason, -⟩
  · cases hreason
  · exact ⟨rfl, rfl, rfl⟩

/-- What a collecting entry holds stays within the buffer, as long as no
refusal was recorded. -/
theorem Tracks.of_collecting {obs : List (Except RefusalReason String)} {state : RunState}
    (ht : h.Tracks obs (some state)) (hreason : state.refusalReason = none) :
    state.status = .collectingText ∧ state.length = (state.parts.map String.length).sum ∧
      state.length ≤ h.maxBufferChars := by
  rcases ht with _ | ⟨hne, hnone⟩ | ⟨reason, -⟩
  · refine ⟨rfl, rfl, ?_⟩
    by_contra hlt
    exact hnone (.inr ⟨hne, by simpa using hlt⟩)
  · cases hreason

theorem onLlmNewToken_invoked (id : RunId Key) (token chunk : Obj) (s : HandlerState Key) :
    (h.onLlmNewToken id token chunk s).1.invoked = [] := by
  unfold onLlmNewToken
  split
  · rfl
  · split
    · rfl
    · rfl
    · rfl

omit [HostObjects Obj] in
theorem onLlmError_invoked (id : RunId Key) (s : HandlerState Key) :
    (onLlmError id s).1.invoked = [] := by
  unfold onLlmError
  split
  · rfl
  · split
    · rfl
    · simp only
      split
      · rfl
      · rfl

/-- **The law of the stream**, after every usable history: over any number
of runs, however their callbacks interleave. -/
theorem stream_law (h : CongineCallbackHandler) (cs : List (Callback Key Obj))
    (hu : ∀ c ∈ cs, c.Usable) : h.StreamLaw cs := by
  have htracks : ∀ r, h.Tracks (observations r cs) ((h.after cs).runs r) := tracks_after hu
  have hend : ∀ r (response : Obj), (h.respond (.endOf r response) (h.after cs)).1.invoked =
      ((completeText ((h.after cs).runs r) response).map h.invocation).toList :=
    fun r response => (onLlmEnd_usable r response (h.after cs)).1
  refine ⟨?_, ?_, fun r => (htracks r).recorded_iff, ?_, ?_, ?_, ?_⟩
  · intro r response t
    rw [hend, ← (htracks r).completeText_iff response t]
    rcases completeText ((h.after cs).runs r) response with _ | t'
    · simp
    · simp [invocation_injective.eq_iff]
  · rintro ⟨opened, runId, kind⟩ ⟨rfl, key, rfl⟩
    rcases kind with ⟨token, chunk⟩ | response | _
    · exact .inl (onLlmNewToken_invoked _ token chunk _)
    · have hinvoked := hend key response
      rcases hcomplete : completeText ((h.after cs).runs key) response with _ | t
      · rw [hcomplete] at hinvoked
        exact .inl hinvoked
      · rw [hcomplete] at hinvoked
        exact .inr ⟨key, response, t, rfl, hinvoked⟩
    · exact .inl (onLlmError_invoked _ _)
  · intro r reason cs' hs hfin
    induction cs' using List.reverseRecOn with
    | nil => simpa using hs
    | append_singleton cs' c ih =>
      rw [← List.append_assoc, after_concat]
      exact refusal_step (ih fun c' hc' => hfin c' (List.mem_append_left _ hc'))
        (hfin c (by simp))
  · intro r reason hs token chunk
    exact onLlmNewToken_refused hs token chunk
  · intro r state hstate hreason
    exact (hstate ▸ htracks r).of_refused hreason
  · intro r state hstate hreason
    exact (hstate ▸ htracks r).of_collecting hreason

/-- Two runs at once, the second past the buffer. -/
def interleaved : List (Callback ℕ PlainObject) :=
  [.tokenOf 1 (.text "ab") .none, .tokenOf 2 (.text "abcde") .none, .tokenOf 1 (.text "c") .none]

theorem stream_law_interleaved :
    (plainHandler.respond (.endOf 1 (PlainObject.result "abc"))
        (plainHandler.after interleaved)).1.invoked = [plainHandler.invocation "abc"] ∧
      (plainHandler.respond (.endOf 2 (PlainObject.result "abcde"))
        (plainHandler.after interleaved)).1 = { outcome := .refused .streamBufferExceeded } ∧
      plainHandler.StreamLaw interleaved := by
  have hu : ∀ c ∈ interleaved, c.Usable := by
    intro c hc
    simp only [interleaved, List.mem_cons, List.not_mem_nil, or_false] at hc
    rcases hc with rfl | rfl | rfl
    · exact ⟨rfl, 1, rfl⟩
    · exact ⟨rfl, 2, rfl⟩
    · exact ⟨rfl, 1, rfl⟩
  exact ⟨by decide +kernel, by decide +kernel, stream_law plainHandler interleaved hu⟩

end CongineCallbackHandler

end Congine
