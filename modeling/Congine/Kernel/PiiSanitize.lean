import Congine.Common.Redaction
import Congine.Kernel.Models
/-!
# The sanitiser, piece by piece

What `sanitize_breach_message` keeps of a message and what it cuts. A
quoted span and a run of digits are both known by their end: the span has
no other quote of its kind inside, the run is not part of a longer one.
So a text and a proper suffix that begins after an apostrophe are never
sanitised to the same (`sanitizeFrom_ne`).
-/

namespace Congine

/-- The pieces `sanitizeFrom` reads a text as. -/
def pieces (afterWord : Bool) : List Char → List (Piece Char)
  | [] => []
  | c :: cs =>
      if c = '"' ∨ c = '\'' then
        match _h : closeQuote c cs with
        | some rest => .cut (c :: (cs.takeWhile (· ≠ c) ++ [c])) :: pieces false rest
        | none => .keep c :: pieces false cs
      else if c.isDigit ∧ !afterWord ∧ 4 ≤ ((c :: cs).takeWhile Char.isDigit).length ∧
          !(cs.dropWhile Char.isDigit).head?.any isWordChar then
        .cut (c :: cs.takeWhile Char.isDigit) :: pieces true (cs.dropWhile Char.isDigit)
      else .keep c :: pieces (isWordChar c) cs
termination_by cs => cs.length
decreasing_by
  · have := length_closeQuote _h
    simp only [List.length_cons]
    omega
  · simp
  · have := (List.dropWhile_suffix Char.isDigit (l := cs)).length_le
    simp only [List.length_cons]
    omega
  · simp

/-! ## Closing a quote -/

section CloseQuote

variable {quote : Char} {cs rest : List Char}

/-- A quote closes at the first of its kind, on the same line. -/
theorem eq_of_closeQuote (h : closeQuote quote cs = some rest) :
    cs = cs.takeWhile (· ≠ quote) ++ quote :: rest := by
  induction cs with
  | nil => cases h
  | cons c cs ih =>
    rw [closeQuote] at h
    split_ifs at h with hq hnl
    · obtain rfl := Option.some.inj h
      simp [hq]
    · rw [List.takeWhile_cons_of_pos (by simpa using hq), List.cons_append, ← ih h]

theorem closeQuote_append (hq : quote ∉ cs) (hnl : '\n' ∉ cs) :
    closeQuote quote (cs ++ quote :: rest) = some rest := by
  induction cs with
  | nil => simp [closeQuote]
  | cons c cs ih =>
    rw [List.mem_cons, not_or] at hq hnl
    rw [List.cons_append, closeQuote, if_neg (Ne.symm hq.1), if_neg (Ne.symm hnl.1),
      ih hq.2 hnl.2]

/-- On one line, only a quote with no other of its kind stays open. -/
theorem not_mem_of_closeQuote (hnl : '\n' ∉ cs) (h : closeQuote quote cs = none) :
    quote ∉ cs := by
  induction cs with
  | nil => exact List.not_mem_nil
  | cons c cs ih =>
    rw [List.mem_cons, not_or] at hnl
    rw [closeQuote, if_neg (Ne.symm hnl.1)] at h
    split_ifs at h with hq
    rw [List.mem_cons, not_or]
    exact ⟨Ne.symm hq, ih hnl.2 h⟩

end CloseQuote

/-! ## The pieces are the sanitiser's -/

theorem sourceOf_pieces (afterWord : Bool) (cs : List Char) :
    sourceOf (pieces afterWord cs) = cs := by
  fun_induction pieces afterWord cs with
  | case1 => rfl
  | case2 afterWord c cs hc rest hclose ih =>
    have hcons : sourceOf (.cut (c :: (cs.takeWhile (· ≠ c) ++ [c])) :: pieces false rest) =
        c :: (cs.takeWhile (· ≠ c) ++ [c]) ++ sourceOf (pieces false rest) := rfl
    rw [hcons, ih]
    conv_rhs => rw [eq_of_closeQuote hclose]
    simp
  | case3 afterWord c cs hc hclose ih => exact congrArg (c :: ·) ih
  | case4 afterWord c cs hc hdigits ih =>
    have hcons : sourceOf (.cut (c :: cs.takeWhile Char.isDigit) ::
        pieces true (cs.dropWhile Char.isDigit)) =
        c :: cs.takeWhile Char.isDigit ++
          sourceOf (pieces true (cs.dropWhile Char.isDigit)) := rfl
    rw [hcons, ih, List.cons_append, List.takeWhile_append_dropWhile]
  | case5 afterWord c cs hc hdigits ih => exact congrArg (c :: ·) ih

theorem redactedOf_pieces (afterWord : Bool) (cs : List Char) :
    redactedOf redacted (pieces afterWord cs) = sanitizeFrom afterWord cs := by
  fun_induction pieces afterWord cs with
  | case1 => simp [redactedOf, shapesOf, sanitizeFrom]
  | case2 afterWord c cs hc rest hclose ih =>
    rw [sanitizeFrom, if_pos hc, hclose]
    exact congrArg (redacted ++ ·) ih
  | case3 afterWord c cs hc hclose ih =>
    rw [sanitizeFrom, if_pos hc, hclose]
    exact congrArg (c :: ·) ih
  | case4 afterWord c cs hc hdigits ih =>
    rw [sanitizeFrom, if_neg hc, if_pos hdigits]
    exact congrArg (redacted ++ ·) ih
  | case5 afterWord c cs hc hdigits ih =>
    rw [sanitizeFrom, if_neg hc, if_neg hdigits]
    exact congrArg (c :: ·) ih

/-! ## What the sanitiser cuts -/

/-- The spans the sanitiser cuts after a letter: between two quotes of one
kind, or digits that no word runs into. -/
inductive Cuts : Char → List Char → Prop where
  | quoted {prev quote : Char} {body : List Char} : quote.isDigit = false → quote ∉ body →
      Cuts prev (quote :: (body ++ [quote]))
  | digits {prev : Char} {span : List Char} : isWordChar prev = false → span ≠ [] →
      (∀ c ∈ span, c.isDigit = true) → Cuts prev span

theorem isWordChar_of_isDigit {c : Char} (h : c.isDigit = true) : isWordChar c = true := by
  simp [isWordChar, Char.isAlphanum, h]

theorem isWordChar_quote {c : Char} (h : c = '"' ∨ c = '\'') :
    isWordChar c = false ∧ c.isDigit = false := by
  rcases h with rfl | rfl
  · decide
  · decide

/-- After the last of a letter, what follows it settles the rest. -/
theorem append_cons_inj_of_notMem_right {α : Type} {c : α} {x y s t : List α} (hs : c ∉ s)
    (ht : c ∉ t) (h : x ++ c :: s = y ++ c :: t) : x = y ∧ s = t := by
  rcases List.append_eq_append_iff.mp h with ⟨u, rfl, hu⟩ | ⟨u, rfl, hu⟩
  · cases u with
    | nil => exact ⟨(List.append_nil x).symm, (List.cons.inj hu).2⟩
    | cons d u =>
      obtain ⟨-, hs'⟩ := List.cons.inj hu
      exact absurd (by simp [hs']) hs
  · cases u with
    | nil => exact ⟨List.append_nil y, (List.cons.inj hu).2.symm⟩
    | cons d u =>
      obtain ⟨-, ht'⟩ := List.cons.inj hu
      exact absurd (by simp [ht']) ht

/-- A maximal run of digits is known by its end. -/
theorem digits_inj {a b : Char} {s t x y : List Char} (ha : a.isDigit = false)
    (hb : b.isDigit = false) (hs : ∀ c ∈ s, c.isDigit = true) (ht : ∀ c ∈ t, c.isDigit = true)
    (h : x ++ a :: s = y ++ b :: t) : s = t := by
  have hrun : ∀ {a : Char} {s x : List Char}, a.isDigit = false → (∀ c ∈ s, c.isDigit = true) →
      (x ++ a :: s).reverse.takeWhile Char.isDigit = s.reverse := by
    intro a s x ha hs
    have hs' : ∀ c ∈ s.reverse, c.isDigit = true := by
      intro c hc
      exact hs c (List.mem_reverse.mp hc)
    rw [List.reverse_append, List.reverse_cons, List.append_assoc,
      List.takeWhile_append_of_pos hs']
    simp [ha]
  rw [← List.reverse_inj, ← hrun ha hs, h, hrun hb ht]

/-- **A cut is known by its end.** -/
theorem endDetermined_cuts : EndDetermined Cuts := by
  intro a b s t x y hs ht h
  cases hs with
  | @quoted q body hq hbody =>
    cases ht with
    | @quoted r body' hr hbody' =>
      -- One last letter, so quotes of one kind: the nearest before it opens the span.
      have hcut : (x ++ a :: q :: body) ++ [q] = (y ++ b :: r :: body') ++ [r] := by simpa using h
      obtain ⟨hopen, hqr⟩ := List.append_inj' hcut rfl
      obtain rfl := List.head_eq_of_cons_eq hqr
      have hopen' : (x ++ [a]) ++ q :: body = (y ++ [b]) ++ q :: body' := by simpa using hopen
      rw [(append_cons_inj_of_notMem_right hbody hbody' hopen').2]
    | digits hb hne hdigits =>
      obtain ⟨u, d, rfl⟩ := List.eq_nil_or_concat' t |>.resolve_left hne
      have hcut : (x ++ a :: q :: body) ++ [q] = (y ++ b :: u) ++ [d] := by simpa using h
      obtain rfl := List.head_eq_of_cons_eq (List.append_inj' hcut rfl).2
      simp [hdigits q (by simp)] at hq
  | digits ha hne hdigits =>
    cases ht with
    | @quoted r body' hr hbody' =>
      obtain ⟨u, d, rfl⟩ := List.eq_nil_or_concat' s |>.resolve_left hne
      have hcut : (x ++ a :: u) ++ [d] = (y ++ b :: r :: body') ++ [r] := by simpa using h
      obtain rfl := List.head_eq_of_cons_eq (List.append_inj' hcut rfl).2
      simp [hdigits d (by simp)] at hr
    | digits hb hne' hdigits' =>
      have hdigit : ∀ {c : Char}, isWordChar c = false → c.isDigit = false := by
        intro c hc
        cases hd : c.isDigit with
        | true =>
          rw [isWordChar_of_isDigit hd] at hc
          cases hc
        | false => rfl
      exact digits_inj (hdigit ha) (hdigit hb) hdigits hdigits' h

theorem lastFrom_concat {α : Type} (a c : α) (l : List α) : lastFrom a (l ++ [c]) = c := by
  rw [lastFrom_append]
  rfl

theorem lastFrom_mem {α : Type} {a : α} {l : List α} (h : l ≠ []) : lastFrom a l ∈ l := by
  obtain ⟨u, d, rfl⟩ := List.eq_nil_or_concat' l |>.resolve_left h
  rw [lastFrom_concat]
  simp

/-- **What the sanitiser cuts is a quoted span or a whole number.** -/
theorem lawful_pieces (prev : Char) (afterWord : Bool) (cs : List Char)
    (h : isWordChar prev = afterWord) : Lawful Cuts prev (pieces afterWord cs) := by
  fun_induction pieces afterWord cs generalizing prev with
  | case1 => trivial
  | case2 afterWord c cs hc rest hclose ih =>
    refine ⟨.quoted (isWordChar_quote hc).2 ?_, ih _ ?_⟩
    · intro hmem
      simpa using List.mem_takeWhile_imp hmem
    · rw [← List.cons_append, lastFrom_concat]
      exact (isWordChar_quote hc).1
  | case3 afterWord c cs hc hclose ih => exact ih c (isWordChar_quote hc).1
  | case4 afterWord c cs hc hdigits ih =>
    have hspan : ∀ d ∈ c :: cs.takeWhile Char.isDigit, d.isDigit = true := by
      intro d hd
      rcases List.mem_cons.mp hd with rfl | hd
      · exact hdigits.1
      · exact List.mem_takeWhile_imp hd
    refine ⟨.digits ?_ (List.cons_ne_nil _ _) hspan, ih _ ?_⟩
    · rw [h]
      simpa using hdigits.2.1
    · exact isWordChar_of_isDigit (hspan _ (lastFrom_mem (List.cons_ne_nil _ _)))
  | case5 afterWord c cs hc hdigits ih => exact ih c rfl

/-! ## What is shown -/

/-- An apostrophe is kept, the last of the text, and what follows it is read
afresh. -/
def KeepsLast (ps : List (Piece Char)) : Prop :=
  ∃ front back, ps = front ++ .keep '\'' :: pieces false back ∧
    some '\'' ∉ shapesOf front ∧ '\'' ∉ back

/-- A piece that is no kept apostrophe goes to the front. -/
theorem KeepsLast.cons {p : Piece Char} {ps : List (Piece Char)} (hp : p.shape ≠ some '\'')
    (hps : some '\'' ∈ shapesOf ps → KeepsLast ps) (h : some '\'' ∈ shapesOf (p :: ps)) :
    KeepsLast (p :: ps) := by
  have hmem : some '\'' ∈ p.shape :: shapesOf ps := h
  rcases List.mem_cons.mp hmem with heq | hrest
  · exact absurd heq.symm hp
  · obtain ⟨front, back, rfl, hfront, hback⟩ := hps hrest
    refine ⟨p :: front, back, rfl, ?_, hback⟩
    intro hin
    have hin' : some '\'' ∈ p.shape :: shapesOf front := hin
    rcases List.mem_cons.mp hin' with heq | hin'
    · exact hp heq.symm
    · exact hfront hin'

/-- An apostrophe kept is the last of its line. -/
theorem keepsLast_pieces (afterWord : Bool) (cs : List Char) (hnl : '\n' ∉ cs)
    (h : some '\'' ∈ shapesOf (pieces afterWord cs)) : KeepsLast (pieces afterWord cs) := by
  fun_induction pieces afterWord cs with
  | case1 => cases h
  | case2 afterWord c cs hc rest hclose ih =>
    have hrest : '\n' ∉ rest := by
      intro hmem
      apply hnl
      rw [eq_of_closeQuote hclose]
      simp [hmem]
    exact .cons nofun (ih hrest) h
  | case3 afterWord c cs hc hclose ih =>
    rw [List.mem_cons, not_or] at hnl
    by_cases hq : c = '\''
    · subst hq
      exact ⟨[], cs, rfl, List.not_mem_nil, not_mem_of_closeQuote hnl.2 hclose⟩
    · exact .cons (fun heq => hq (Option.some.inj heq)) (ih hnl.2) h
  | case4 afterWord c cs hc hdigits ih =>
    rw [List.mem_cons, not_or] at hnl
    have hrest : '\n' ∉ cs.dropWhile Char.isDigit := by
      intro hmem
      exact hnl.2 ((List.dropWhile_sublist _).mem hmem)
    exact .cons nofun (ih hrest) h
  | case5 afterWord c cs hc hdigits ih =>
    rw [List.mem_cons, not_or] at hnl
    exact .cons (fun heq => hc (.inr (Option.some.inj heq))) (ih hnl.2) h

/-- The text around an apostrophe kept. -/
theorem eq_of_pieces_eq {afterWord : Bool} {cs back : List Char} {front : List (Piece Char)}
    (h : pieces afterWord cs = front ++ .keep '\'' :: pieces false back) :
    cs = sourceOf front ++ '\'' :: back := by
  have hkeep : sourceOf (.keep '\'' :: pieces false back) =
      '\'' :: sourceOf (pieces false back) := rfl
  rw [← sourceOf_pieces afterWord cs, h, sourceOf_append, hkeep, sourceOf_pieces]

theorem count_redacted : redacted.count '\'' = 2 := by decide

/-- The apostrophes of masks are even in number, and one more is kept at most. -/
theorem count_sanitizeFrom (afterWord : Bool) {cs : List Char} (hnl : '\n' ∉ cs) :
    (sanitizeFrom afterWord cs).count '\'' % 2 =
      if some '\'' ∈ shapesOf (pieces afterWord cs) then 1 else 0 := by
  rw [← redactedOf_pieces, count_redactedOf, count_redacted]
  split_ifs with h
  · obtain ⟨front, back, heq, hfront, hback⟩ := keepsLast_pieces afterWord cs hnl h
    have hrest : some '\'' ∉ shapesOf (pieces false back) := by
      intro hmem
      have := mem_sourceOf_of_keep hmem
      rw [sourceOf_pieces] at this
      exact hback this
    have hone : (shapesOf (pieces afterWord cs)).count (some '\'') = 1 := by
      have hcons : shapesOf (Piece.keep '\'' :: pieces false back) =
          some '\'' :: shapesOf (pieces false back) := rfl
      rw [heq, shapesOf_append, hcons, List.count_append, List.count_cons_self,
        List.count_eq_zero.mpr hfront, List.count_eq_zero.mpr hrest]
    rw [hone]
    omega
  · rw [List.count_eq_zero.mpr h]
    omega

/-- **A line and what follows an apostrophe in it are never sanitised to
the same.** -/
theorem sanitizeFrom_ne {u z : List Char} (hu : '\n' ∉ u) (hz : '\n' ∉ z) :
    sanitizeFrom false (u ++ '\'' :: z) ≠ sanitizeFrom false z := by
  intro h
  have hnl : '\n' ∉ u ++ '\'' :: z := by simp [hu, hz]
  have hlong := lawful_pieces '\'' false (u ++ '\'' :: z) rfl
  have hshort := lawful_pieces '\'' false z rfl
  have hparity := count_sanitizeFrom false hnl
  rw [h, count_sanitizeFrom false hz] at hparity
  by_cases hkeep : some '\'' ∈ shapesOf (pieces false z)
  · -- The last apostrophe of both texts is kept: they differ before it, if at all.
    have hkeep' : some '\'' ∈ shapesOf (pieces false (u ++ '\'' :: z)) := by
      by_contra hno
      simp [hkeep, hno] at hparity
    obtain ⟨ps, back, hps, hpsq, hback⟩ := keepsLast_pieces false z hz hkeep
    obtain ⟨qs, back', hqs, hqsq, hback'⟩ := keepsLast_pieces false _ hnl hkeep'
    have hsplit : (u ++ '\'' :: sourceOf ps) ++ '\'' :: back = sourceOf qs ++ '\'' :: back' := by
      rw [← eq_of_pieces_eq hqs, List.append_assoc, List.cons_append, ← eq_of_pieces_eq hps]
    obtain ⟨hsource, rfl⟩ := append_cons_inj_of_notMem_right hback hback' hsplit
    rw [← redactedOf_pieces, ← redactedOf_pieces, hps, hqs, redactedOf_append,
      redactedOf_append] at h
    rw [hps, lawful_append] at hshort
    rw [hqs, lawful_append] at hlong
    exact redactedOf_ne endDetermined_cuts hshort.1 hlong.1 hpsq hqsq hsource.symm
      (List.append_cancel_right h)
  · have hkeep' : some '\'' ∉ shapesOf (pieces false (u ++ '\'' :: z)) := by
      intro hyes
      simp [hkeep, hyes] at hparity
    rw [← redactedOf_pieces, ← redactedOf_pieces] at h
    exact redactedOf_ne endDetermined_cuts hshort hlong hkeep hkeep'
      (by rw [sourceOf_pieces, sourceOf_pieces]) h

end Congine
