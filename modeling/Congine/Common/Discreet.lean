import Congine.Common.Loop
import Mathlib.Data.Set.Finite.List
import Mathlib.Data.List.Sublists
/-!
# What a report can tell of its subject

A report on a subject gathers findings, or raises. It is discreet where the
findings come from one list, in its order, whatever the subject: all it can
tell is which of them it makes. Discreet reports are few, and a loop of
discreet reports is one.
-/

namespace Congine

variable {σ ε α β : Type*}

/-- Whatever the subject, what is reported is part of the findings, in their
order. -/
def TellsWithin (report : σ → Except ε (List β)) (findings : List β) : Prop :=
  ∀ subject ys, report subject = .ok ys → ys.Sublist findings

def Discreet (report : σ → Except ε (List β)) : Prop := ∃ findings, TellsWithin report findings

namespace Discreet

variable {report : σ → Except ε (List β)}

/-- A report that does not look at its subject. -/
theorem blind (x : Except ε (List β)) : Discreet fun _ : σ => x := by
  cases x with
  | error e => exact ⟨[], fun _ _ h => by cases h⟩
  | ok findings =>
    refine ⟨findings, fun _ ys h => ?_⟩
    rw [← Except.ok.inj h]

/-- A report that is one of two others', wherever it is made, tells no more
than both. -/
theorem either {σ₁ σ₂ : Type*} {report₁ : σ₁ → Except ε (List β)}
    {report₂ : σ₂ → Except ε (List β)} (h₁ : Discreet report₁) (h₂ : Discreet report₂)
    (h : ∀ subject ys, report subject = .ok ys →
      (∃ subject₁, report₁ subject₁ = .ok ys) ∨ ∃ subject₂, report₂ subject₂ = .ok ys) :
    Discreet report := by
  obtain ⟨findings₁, hwithin₁⟩ := h₁
  obtain ⟨findings₂, hwithin₂⟩ := h₂
  refine ⟨findings₁ ++ findings₂, fun subject ys hys => ?_⟩
  rcases h subject ys hys with ⟨subject₁, hys₁⟩ | ⟨subject₂, hys₂⟩
  · exact List.sublist_append_of_sublist_left (hwithin₁ subject₁ ys hys₁)
  · exact List.sublist_append_of_sublist_right (hwithin₂ subject₂ ys hys₂)

/-- A report that is another's, or makes no finding. -/
theorem of_or {σ' : Type*} {report' : σ' → Except ε (List β)} (h : Discreet report')
    (hreport : ∀ subject ys, report subject = .ok ys →
      ys = [] ∨ ∃ subject', report' subject' = .ok ys) : Discreet report := by
  refine either (blind (.ok []) : Discreet fun _ : Unit => _) h fun subject ys hys => ?_
  rcases hreport subject ys hys with rfl | hsame
  · exact .inl ⟨(), rfl⟩
  · exact .inr hsame

/-- A report may make one of some findings, or none. -/
theorem oneOf (findings : List β) (h : ∀ subject ys, report subject = .ok ys →
    ys = [] ∨ ∃ finding ∈ findings, ys = [finding]) : Discreet report := by
  refine ⟨findings, fun subject ys hys => ?_⟩
  rcases h subject ys hys with rfl | ⟨finding, hmem, rfl⟩
  · exact List.nil_sublist _
  · exact List.singleton_sublist.mpr hmem

/-- What is looked up may raise, and decides which finding is made. -/
theorem map (findings : List β) {lookup : σ → Except ε α} {reported : α → List β}
    (h : ∀ a, reported a = [] ∨ ∃ finding ∈ findings, reported a = [finding]) :
    Discreet fun subject => (lookup subject).map reported := by
  refine oneOf findings fun subject ys hys => ?_
  rcases hlookup : lookup subject with e | a
  · simp [hlookup, Except.map] at hys
  · obtain rfl : reported a = ys := by simpa [hlookup, Except.map] using hys
    exact h a

/-- What a report is made with first does not depend on its subject. -/
theorem bind {found : Except ε α} {report : α → σ → Except ε (List β)}
    (h : ∀ a, Discreet (report a)) : Discreet fun subject => found.bind (report · subject) := by
  cases found with
  | error e => exact .blind _
  | ok a => exact h a

/-- **A loop of discreet reports is discreet.** -/
theorem collect {report : α → σ → Except ε (List β)} (xs : List α)
    (h : ∀ x ∈ xs, Discreet (report x)) :
    Discreet fun subject => Congine.collect (report · subject) xs := by
  induction xs with
  | nil => exact .blind (.ok [])
  | cons x xs ih =>
    obtain ⟨findings, hwithin⟩ := h x List.mem_cons_self
    obtain ⟨findings', hwithin'⟩ := ih fun x hx => h x (List.mem_cons_of_mem _ hx)
    refine ⟨findings ++ findings', fun subject ys hys => ?_⟩
    simp only [Congine.collect] at hys
    rcases hx : report x subject with e | us
    · simp [hx, Except.bind] at hys
    · rcases hxs : Congine.collect (report · subject) xs with e | vs
      · simp [hx, hxs, Except.bind, Except.map] at hys
      · obtain rfl : us ++ vs = ys := by simpa [hx, hxs, Except.bind, Except.map] using hys
        exact (hwithin subject us hx).append (hwithin' subject vs hxs)

end Discreet

/-- **There are finitely many parts of a list of findings.** -/
theorem finite_sublists (findings : List β) : {ys : List β | ys.Sublist findings}.Finite :=
  findings.sublists.finite_toSet.subset fun _ h => List.mem_sublists.mpr h

end Congine
