import Mathlib.Data.List.Basic
import Mathlib.Data.List.Induction
import Mathlib.Data.List.Flatten
/-!
# Redaction by spans

A redactor reads a text as pieces: letters it keeps, and spans it cuts out
and replaces by a mask. Where a span is known by its end, reading from the
right, two redactions that show the same cannot stem from a text and a
proper suffix of it (`eq_of_redacted_eq`): piece by piece from the end,
they cut the same spans, and the longer text has letters left over.

A mask that begins with a letter neither redaction keeps is read off the
result. Its other occurrences are counted by parity.
-/

namespace Congine

/-- A piece of a text: a letter kept, or a span cut out. -/
inductive Piece (α : Type) where
  | keep (c : α)
  | cut (span : List α)

namespace Piece

variable {α : Type}

/-- The text of a piece. -/
def source : Piece α → List α
  | keep c => [c]
  | cut span => span

/-- What a reader sees of a piece. -/
def shape : Piece α → Option α
  | keep c => some c
  | cut _ => none

end Piece

variable {α : Type}

def sourceOf (ps : List (Piece α)) : List α := ps.flatMap Piece.source

def shapesOf (ps : List (Piece α)) : List (Option α) := ps.map Piece.shape

/-- A piece as shown: a letter, or the mask. -/
def shown (mask : List α) : Option α → List α
  | some c => [c]
  | none => mask

/-- The text with its cut spans masked. -/
def redactedOf (mask : List α) (ps : List (Piece α)) : List α := (shapesOf ps).flatMap (shown mask)

@[simp] theorem sourceOf_append (ps qs : List (Piece α)) :
    sourceOf (ps ++ qs) = sourceOf ps ++ sourceOf qs := by
  simp [sourceOf]

@[simp] theorem shapesOf_append (ps qs : List (Piece α)) :
    shapesOf (ps ++ qs) = shapesOf ps ++ shapesOf qs := by
  simp [shapesOf]

@[simp] theorem redactedOf_append (mask : List α) (ps qs : List (Piece α)) :
    redactedOf mask (ps ++ qs) = redactedOf mask ps ++ redactedOf mask qs := by
  simp [redactedOf]

theorem mem_sourceOf_of_keep {c : α} {ps : List (Piece α)} (h : some c ∈ shapesOf ps) :
    c ∈ sourceOf ps := by
  obtain ⟨p, hp, hshape⟩ := List.mem_map.mp h
  refine List.mem_flatMap.mpr ⟨p, hp, ?_⟩
  cases p with
  | keep d => simpa [Piece.source] using (Option.some.inj hshape).symm
  | cut s => cases hshape

/-! ## What is cut -/

section Alignment

variable (Cut : α → List α → Prop)

/-- The last letter of a text, with the one before the text where it is empty. -/
def lastFrom (a : α) (l : List α) : α := (a :: l).getLast (List.cons_ne_nil a l)

theorem lastFrom_append (a : α) (l m : List α) :
    lastFrom a (l ++ m) = lastFrom (lastFrom a l) m := by
  induction l generalizing a with
  | nil => rfl
  | cons b l ih => exact ih b

/-- Every cut of a text is allowed after the letter it follows. -/
def Lawful : α → List (Piece α) → Prop
  | _, [] => True
  | _, .keep c :: ps => Lawful c ps
  | a, .cut span :: ps => Cut a span ∧ Lawful (lastFrom a span) ps

/-- A cut is known by its end: where two end, they are one. -/
def EndDetermined : Prop :=
  ∀ {a b : α} {s t x y : List α}, Cut a s → Cut b t → x ++ a :: s = y ++ b :: t → s = t

variable {Cut}

theorem lawful_append {a : α} {ps qs : List (Piece α)} :
    Lawful Cut a (ps ++ qs) ↔ Lawful Cut a ps ∧ Lawful Cut (lastFrom a (sourceOf ps)) qs := by
  induction ps generalizing a with
  | nil => simp [Lawful, sourceOf, lastFrom]
  | cons p ps ih =>
    cases p with
    | keep c => exact ih
    | cut span =>
      have hlast : lastFrom a (sourceOf (.cut span :: ps)) =
          lastFrom (lastFrom a span) (sourceOf ps) := lastFrom_append a span (sourceOf ps)
      rw [List.cons_append, Lawful, Lawful, ih, and_assoc, hlast]

theorem cons_eq_concat_lastFrom (a : α) (l : List α) :
    ∃ front, a :: l = front ++ [lastFrom a l] :=
  ⟨_, (List.dropLast_append_getLast (List.cons_ne_nil a l)).symm⟩

/-- **Alignment.** Two readings of the same shape, of a text and of one it
ends with, are the same reading. -/
theorem eq_of_shapesOf_eq (hCut : EndDetermined Cut) {a b : α} {ps qs : List (Piece α)}
    (hp : Lawful Cut a ps) (hq : Lawful Cut b qs) (hshape : shapesOf ps = shapesOf qs)
    (hsource : ∃ x, x ++ a :: sourceOf ps = b :: sourceOf qs) : ps = qs := by
  induction ps using List.reverseRecOn generalizing qs with
  | nil =>
    have hnil : qs = [] := by simpa [shapesOf] using hshape.symm
    exact hnil.symm
  | append_singleton ps p ih =>
    -- The readings end in pieces of one shape: one letter, or cuts that end together.
    rcases List.eq_nil_or_concat' qs with rfl | ⟨qs, q, rfl⟩
    · simp [shapesOf] at hshape
    · rw [shapesOf_append, shapesOf_append] at hshape
      obtain ⟨hfront, hlast⟩ := List.append_inj' hshape rfl
      have hpq : p.shape = q.shape := List.head_eq_of_cons_eq hlast
      rw [lawful_append] at hp hq
      obtain ⟨x, hx⟩ := hsource
      have heq : p = q := by
        cases p with
        | keep c =>
          cases q with
          | keep d => rw [Option.some.inj hpq]
          | cut t => cases hpq
        | cut s =>
          cases q with
          | keep d => cases hpq
          | cut t =>
            obtain ⟨u, hu⟩ := cons_eq_concat_lastFrom a (sourceOf ps)
            obtain ⟨v, hv⟩ := cons_eq_concat_lastFrom b (sourceOf qs)
            have hends : (x ++ u) ++ lastFrom a (sourceOf ps) :: s =
                v ++ lastFrom b (sourceOf qs) :: t := by
              simp only [sourceOf_append, ← List.cons_append, hu, hv] at hx
              simpa [sourceOf, Piece.source] using hx
            rw [hCut hp.2.1 hq.2.1 hends]
      subst heq
      have hrest : x ++ a :: sourceOf ps = b :: sourceOf qs := by
        simp only [sourceOf_append, ← List.cons_append, ← List.append_assoc] at hx
        exact List.append_cancel_right hx
      rw [ih hp.1 hq.1 hfront ⟨x, hrest⟩]

end Alignment

/-! ## What is shown -/

section Shown

variable {q : α} {mask : List α}

/-- The mask is told from the letters kept by the letter it begins with. -/
theorem eq_of_shown_eq {xs ys : List (Option α)} (hx : some q ∉ xs) (hy : some q ∉ ys)
    (h : xs.flatMap (shown (q :: mask)) = ys.flatMap (shown (q :: mask))) : xs = ys := by
  induction xs generalizing ys with
  | nil =>
    cases ys with
    | nil => rfl
    | cons y ys => cases y <;> simp [shown] at h
  | cons x xs ih =>
    rw [List.mem_cons, not_or] at hx
    cases ys with
    | nil => cases x <;> simp [shown] at h
    | cons y ys =>
      rw [List.mem_cons, not_or] at hy
      cases x with
      | none =>
        cases y with
        | none =>
          simp only [List.flatMap_cons, shown] at h
          rw [ih hx.2 hy.2 (List.append_cancel_left h)]
        | some d =>
          simp only [List.flatMap_cons, shown, List.cons_append, List.cons.injEq] at h
          exact absurd (congrArg some h.1) hy.1
      | some c =>
        cases y with
        | none =>
          simp only [List.flatMap_cons, shown, List.cons_append, List.cons.injEq] at h
          exact absurd (congrArg some h.1.symm) hx.1
        | some d =>
          simp only [List.flatMap_cons, shown, List.cons_append, List.nil_append,
            List.cons.injEq] at h
          rw [h.1, ih hx.2 hy.2 h.2]

/-- **What is shown determines what was read**, of a text and one it ends with. -/
theorem eq_of_redactedOf_eq {Cut : α → List α → Prop} (hCut : EndDetermined Cut) {a b : α}
    {ps qs : List (Piece α)} (hp : Lawful Cut a ps) (hq : Lawful Cut b qs)
    (hpq : some q ∉ shapesOf ps) (hqq : some q ∉ shapesOf qs)
    (h : redactedOf (q :: mask) ps = redactedOf (q :: mask) qs)
    (hsource : ∃ x, x ++ a :: sourceOf ps = b :: sourceOf qs) : ps = qs :=
  eq_of_shapesOf_eq hCut hp hq (eq_of_shown_eq hpq hqq h) hsource

/-- The same of a text and a longer one is never shown. -/
theorem redactedOf_ne {Cut : α → List α → Prop} (hCut : EndDetermined Cut) {a : α} {u : List α}
    {ps qs : List (Piece α)} (hp : Lawful Cut a ps) (hq : Lawful Cut a qs)
    (hpq : some q ∉ shapesOf ps) (hqq : some q ∉ shapesOf qs)
    (hsource : sourceOf qs = u ++ a :: sourceOf ps) :
    redactedOf (q :: mask) qs ≠ redactedOf (q :: mask) ps := by
  intro h
  have heq := eq_of_redactedOf_eq hCut hp hq hpq hqq h.symm ⟨a :: u, by simp [hsource]⟩
  have hlength := congrArg List.length hsource
  simp only [heq, List.length_append, List.length_cons] at hlength
  omega

/-- A letter is shown where it is kept, and as often as masks have it. -/
theorem count_redactedOf [DecidableEq α] (c : α) (ps : List (Piece α)) :
    (redactedOf mask ps).count c =
      mask.count c * (shapesOf ps).count none + (shapesOf ps).count (some c) := by
  induction ps with
  | nil => simp [redactedOf, shapesOf]
  | cons p ps ih =>
    have hcons : redactedOf mask (p :: ps) = shown mask p.shape ++ redactedOf mask ps := rfl
    have hshapes : shapesOf (p :: ps) = p.shape :: shapesOf ps := rfl
    rw [hcons, hshapes, List.count_append, ih]
    cases p with
    | keep d =>
      by_cases hd : d = c
      · simp [shown, Piece.shape, hd]
        omega
      · simp [shown, Piece.shape, hd]
    | cut s =>
      simp [shown, Piece.shape, Nat.mul_add]
      omega

end Shown

end Congine
