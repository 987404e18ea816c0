import Mathlib.Data.Finset.Card
import Mathlib.Logic.Relation
/-!
# Following a partial function until it repeats

`chase` follows `next` from an element and remembers what it passed. It
answers `true` at the first element met a second time and `false` where
the chain ends. Where every value of `next` lies in a finite list the
answer comes within the length of that list, and it is `true` exactly
where the chain never ends. Between the two are the cycles of a relation,
which is what such a chain ends in.
-/

namespace Congine

variable {α : Type*} [DecidableEq α] (next : α → Option α)

/-- Follow `next` from `x`, having passed `seen`; `none` only when `fuel`
runs out. -/
def chase : ℕ → List α → α → Option Bool
  | 0, _, _ => none
  | fuel + 1, seen, x =>
      if x ∈ seen then some true
      else
        match next x with
        | none => some false
        | some y => chase fuel (x :: seen) y

variable {next}

/-- Passing a new element leaves one fewer to pass. -/
theorem card_sdiff_cons_lt {targets : Finset α} {seen : List α} {x : α} (hx : x ∈ targets)
    (hs : x ∉ seen) :
    (targets \ (x :: seen).toFinset).card < (targets \ seen.toFinset).card := by
  refine Finset.card_lt_card ⟨fun y hy => ?_, fun hsub => ?_⟩
  · simp only [Finset.mem_sdiff, List.mem_toFinset, List.mem_cons, not_or] at hy ⊢
    exact ⟨hy.1, hy.2.2⟩
  · have hmem : x ∈ targets \ seen.toFinset := by simp [hx, hs]
    have := hsub hmem
    simp at this

theorem chase_isSome_of_mem {targets : Finset α} (hnext : ∀ x y, next x = some y → y ∈ targets) :
    ∀ {fuel : ℕ} {seen : List α} {x : α}, x ∈ targets →
      (targets \ seen.toFinset).card < fuel → (chase next fuel seen x).isSome := by
  intro fuel
  -- The targets not seen yet bound the steps that are left.
  induction fuel with
  | zero => intro seen x _ h; omega
  | succ fuel ih =>
    intro seen x hx hfuel
    rw [chase]
    by_cases hs : x ∈ seen
    · simp [hs]
    · rw [if_neg hs]
      cases hn : next x with
      | none => simp
      | some y =>
        have := card_sdiff_cons_lt hx hs
        exact ih (hnext x y hn) (by omega)

/-- **The chase ends**: with fuel past the number of values `next` has,
there is an answer. The start need not be such a value, which costs one
more step. -/
theorem chase_isSome {targets : List α} (hnext : ∀ x y, next x = some y → y ∈ targets)
    {fuel : ℕ} (hfuel : targets.length + 2 ≤ fuel) (x : α) : (chase next fuel [] x).isSome := by
  obtain ⟨fuel, rfl⟩ : ∃ n, fuel = n + 1 := ⟨fuel - 1, by omega⟩
  rw [chase, if_neg List.not_mem_nil]
  cases hn : next x with
  | none => simp
  | some y =>
    have hmem : ∀ a b, next a = some b → b ∈ targets.toFinset :=
      fun a b h => List.mem_toFinset.mpr (hnext a b h)
    refine chase_isSome_of_mem hmem (hmem x y hn) ?_
    have h1 : (targets.toFinset \ [x].toFinset).card ≤ targets.toFinset.card :=
      Finset.card_le_card Finset.sdiff_subset
    have h2 := List.toFinset_card_le targets
    omega

/-- A chain inside a set closed under `next` is never found to end. -/
theorem chase_ne_false {Live : α → Prop} (hlive : ∀ x, Live x → ∃ y, next x = some y ∧ Live y) :
    ∀ {fuel : ℕ} {seen : List α} {x : α}, Live x → chase next fuel seen x ≠ some false := by
  intro fuel
  induction fuel with
  | zero => intro seen x _ h; cases h
  | succ fuel ih =>
    intro seen x hx
    obtain ⟨y, hy, hlivey⟩ := hlive x hx
    rw [chase]
    by_cases hs : x ∈ seen
    · simp [hs]
    · rw [if_neg hs, hy]
      exact ih hlivey

/-- **An endless chain is found out.** -/
theorem chase_eq_true {targets : List α} (hnext : ∀ x y, next x = some y → y ∈ targets)
    {Live : α → Prop} (hlive : ∀ x, Live x → ∃ y, next x = some y ∧ Live y) {fuel : ℕ}
    (hfuel : targets.length + 2 ≤ fuel) {x : α} (hx : Live x) :
    chase next fuel [] x = some true := by
  obtain ⟨b, hb⟩ := Option.isSome_iff_exists.mp (chase_isSome hnext hfuel x)
  cases b with
  | true => exact hb
  | false => exact absurd hb (chase_ne_false hlive hx)

/-! ## Cycles -/

section Cycles

open Relation

variable {β : Type*} {r s : β → β → Prop}

/-- The successor of a point on a cycle is on the cycle. -/
theorem exists_transGen_succ {x : β} (h : TransGen r x x) : ∃ y, r x y ∧ TransGen r y y := by
  obtain ⟨y, hxy, hyx⟩ := TransGen.head'_iff.mp h
  exact ⟨y, hxy, TransGen.tail' hyx hxy⟩

/-- A path over two relations takes a step of the second, or is a path of
the first. -/
theorem transGen_or_exists_step {x y : β} (h : TransGen (fun a b => r a b ∨ s a b) x y) :
    TransGen r x y ∨ ∃ a b, ReflTransGen (fun a b => r a b ∨ s a b) x a ∧ s a b ∧
      ReflTransGen (fun a b => r a b ∨ s a b) b y := by
  induction h with
  | single hxy =>
    rcases hxy with hr | hs
    · exact .inl (.single hr)
    · exact .inr ⟨_, _, .refl, hs, .refl⟩
  | @tail y z hxy hyz ih =>
    rcases ih with hr | ⟨a, b, hxa, hab, hby⟩
    · rcases hyz with hr' | hs
      · exact .inl (hr.tail hr')
      · exact .inr ⟨y, z, hxy.to_reflTransGen, hs, .refl⟩
    · exact .inr ⟨a, b, hxa, hab, hby.tail hyz⟩

end Cycles

/-! ## Endless chains -/

section Endless

open Relation

/-- The chain of `next` from `x` never ends. -/
def Endless (next : α → Option α) (x : α) : Prop :=
  ∃ chain : ℕ → α, chain 0 = x ∧ ∀ n, next (chain n) = some (chain (n + 1))

omit [DecidableEq α] in
theorem Endless.exists_next {x : α} (h : Endless next x) :
    ∃ y, next x = some y ∧ Endless next y := by
  obtain ⟨chain, rfl, hchain⟩ := h
  exact ⟨chain 1, hchain 0, fun n => chain (n + 1), rfl, fun n => hchain (n + 1)⟩

omit [DecidableEq α] in
/-- A chain inside a set closed under `next` never ends. -/
theorem endless_of_live {Live : α → Prop} (hlive : ∀ x, Live x → ∃ y, next x = some y ∧ Live y)
    {x : α} (hx : Live x) : Endless next x := by
  choose! succ hsucc using hlive
  have hall : ∀ n, Live (succ^[n] x) := by
    intro n
    induction n with
    | zero => exact hx
    | succ n ih =>
      rw [Function.iterate_succ_apply']
      exact (hsucc _ ih).2
  refine ⟨fun n => succ^[n] x, rfl, fun n => ?_⟩
  simp only [Function.iterate_succ_apply']
  exact (hsucc _ (hall n)).1

omit [DecidableEq α] in
/-- A chain that leads to a cycle never ends. -/
theorem endless_of_transGen {x c : α} (hxc : ReflTransGen (fun a b => next a = some b) x c)
    (hc : TransGen (fun a b => next a = some b) c c) : Endless next x := by
  have hlive : ∀ a, (∃ c, ReflTransGen (fun a b => next a = some b) a c ∧
      TransGen (fun a b => next a = some b) c c) → ∃ b, next a = some b ∧
        ∃ c, ReflTransGen (fun a b => next a = some b) b c ∧
          TransGen (fun a b => next a = some b) c c := by
    rintro a ⟨c, hac, hc⟩
    rcases ReflTransGen.cases_head hac with rfl | ⟨b, hab, hbc⟩
    · obtain ⟨b, hab, hb⟩ := exists_transGen_succ hc
      exact ⟨b, hab, b, .refl, hb⟩
    · exact ⟨b, hab, c, hbc, hc⟩
  exact endless_of_live hlive ⟨c, hxc, hc⟩

/-- An element met a second time is on a cycle: all that was passed leads
to where the chase stands. -/
theorem endless_of_chase {fuel : ℕ} {seen : List α} {x : α} (h : chase next fuel seen x = some true)
    (hseen : ∀ s ∈ seen, TransGen (fun a b => next a = some b) s x) : Endless next x := by
  induction fuel generalizing seen x with
  | zero => cases h
  | succ fuel ih =>
    rw [chase] at h
    by_cases hs : x ∈ seen
    · exact endless_of_transGen .refl (hseen x hs)
    · rw [if_neg hs] at h
      cases hn : next x with
      | none => simp [hn] at h
      | some y =>
        simp only [hn] at h
        have hpassed : ∀ s ∈ x :: seen, TransGen (fun a b => next a = some b) s y := by
          intro s hmem
          rcases List.mem_cons.mp hmem with rfl | hmem
          · exact .single hn
          · exact (hseen s hmem).tail hn
        obtain ⟨chain, rfl, hchain⟩ := ih h hpassed
        -- The chain of the successor, with `x` before it.
        refine ⟨fun n => n.casesOn x chain, rfl, fun n => ?_⟩
        cases n with
        | zero => exact hn
        | succ n => exact hchain n

/-- **The chase answers `true` exactly where the chain never ends.** -/
theorem chase_eq_true_iff {targets : List α} (hnext : ∀ x y, next x = some y → y ∈ targets)
    {fuel : ℕ} (hfuel : targets.length + 2 ≤ fuel) {x : α} :
    chase next fuel [] x = some true ↔ Endless next x := by
  constructor
  · intro h
    exact endless_of_chase h (fun s hs => absurd hs List.not_mem_nil)
  · intro h
    exact chase_eq_true hnext (fun y hy => hy.exists_next) hfuel h

/-- Past the number of values the fuel does not matter. -/
theorem chase_eq_of_fuel {targets : List α} (hnext : ∀ x y, next x = some y → y ∈ targets)
    {fuel fuel' : ℕ} (hfuel : targets.length + 2 ≤ fuel) (hfuel' : targets.length + 2 ≤ fuel')
    (x : α) : chase next fuel [] x = chase next fuel' [] x := by
  obtain ⟨b, hb⟩ := Option.isSome_iff_exists.mp (chase_isSome hnext hfuel x)
  obtain ⟨b', hb'⟩ := Option.isSome_iff_exists.mp (chase_isSome hnext hfuel' x)
  have hiff : chase next fuel [] x = some true ↔ chase next fuel' [] x = some true :=
    (chase_eq_true_iff hnext hfuel).trans (chase_eq_true_iff hnext hfuel').symm
  rw [hb, hb'] at hiff ⊢
  simp only [Option.some.injEq] at hiff ⊢
  exact Bool.eq_iff_iff.mpr hiff

end Endless

end Congine
