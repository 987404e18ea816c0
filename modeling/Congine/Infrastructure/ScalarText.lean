import Congine.Common.JsonText
import Congine.Common.Text
/-!
# The text of a scalar

The scalars of plain JSON as `json.dumps` writes them, over floats of any
type that prints as floats do. Scalars of one class are told apart by
their text; numbers and the others differ in their first letter, integers
and floats by a point or an exponent. So scalars keep apart in any
document (`Scalar.format`).
-/

namespace Congine

/-- The scalars of a snapshot, over its floats. -/
inductive Scalar (F : Type) where
  | null
  | bool (b : Bool)
  | int (i : ℤ)
  | float (x : F)
  | str (s : String)
  deriving DecidableEq

/-! ## Printing scalars -/

/-- The letters of the decimal notations. -/
def isNumeral (c : Char) : Bool := c.isDigit || c ∈ ['-', '+', '.', 'e']

/-- `float.__repr__` of finite floats: one text a value, written in
digits, signs, a point and an exponent, with one of the last two. -/
structure FloatFormat (F : Type) where
  repr : F → List Char
  injective : Function.Injective repr
  isNumeral : ∀ x, ∀ c ∈ repr x, isNumeral c = true
  point : ∀ x, '.' ∈ repr x ∨ 'e' ∈ repr x

/-- `int.__repr__`, in decimal. -/
def intRepr (i : ℤ) : List Char :=
  if i < 0 then '-' :: Nat.toDigits 10 i.natAbs else Nat.toDigits 10 i.natAbs

theorem intRepr_digits {i : ℤ} {c : Char} (h : c ∈ intRepr i) : c = '-' ∨ c.isDigit = true := by
  rw [intRepr] at h
  split_ifs at h with hi
  · rcases List.mem_cons.mp h with rfl | hc
    · exact .inl rfl
    · exact .inr (Nat.isDigit_of_mem_toDigits (by decide) (by decide) hc)
  · exact .inr (Nat.isDigit_of_mem_toDigits (by decide) (by decide) h)

/-- An integer has neither point nor exponent. -/
theorem point_not_mem_intRepr (i : ℤ) : '.' ∉ intRepr i ∧ 'e' ∉ intRepr i := by
  constructor
  · intro h
    rcases intRepr_digits h with hc | hc
    · exact absurd hc (by decide)
    · exact absurd hc (by decide)
  · intro h
    rcases intRepr_digits h with hc | hc
    · exact absurd hc (by decide)
    · exact absurd hc (by decide)

theorem minus_not_mem_toDigits (n : ℕ) : '-' ∉ Nat.toDigits 10 n := by
  intro h
  have := Nat.isDigit_of_mem_toDigits (by decide) (by decide) h
  simp at this

theorem intRepr_injective : Function.Injective intRepr := by
  intro i j h
  have hdigits : ∀ n m : ℕ, Nat.toDigits 10 n = Nat.toDigits 10 m → n = m := by
    intro n m hnm
    rw [← @Nat.ofDigitChars_ten_toDigits n, hnm, Nat.ofDigitChars_ten_toDigits]
  rw [intRepr, intRepr] at h
  split_ifs at h with hi hj hj
  · have := hdigits _ _ (List.cons.inj h).2
    omega
  · exact absurd (h ▸ List.mem_cons_self) (minus_not_mem_toDigits j.natAbs)
  · exact absurd (h ▸ List.mem_cons_self) (minus_not_mem_toDigits i.natAbs)
  · have := hdigits _ _ h
    omega

namespace Scalar

variable {F : Type} (fmt : FloatFormat F)

/-- A scalar as the encoder writes it. -/
def print : Scalar F → List Char
  | null => "null".toList
  | bool true => "true".toList
  | bool false => "false".toList
  | int i => intRepr i
  | float x => fmt.repr x
  | str s => quote s

/-- The scalars written in decimal. -/
def isNumber : Scalar F → Bool
  | int _ => true
  | float _ => true
  | _ => false

theorem isNumeral_of_mem_print {a : Scalar F} (ha : a.isNumber = true) :
    ∀ c ∈ a.print fmt, isNumeral c = true := by
  intro c hc
  cases a with
  | int i =>
    rcases intRepr_digits hc with rfl | hdigit
    · decide
    · simp [isNumeral, hdigit]
  | float x => exact fmt.isNumeral x c hc
  | _ => cases ha

theorem print_ne_nil {a : Scalar F} (ha : a.isNumber = true) : a.print fmt ≠ [] := by
  cases a with
  | int i =>
    rw [print, intRepr]
    split_ifs with hi
    · exact List.cons_ne_nil _ _
    · exact Nat.toDigits_ne_nil
  | float x =>
    intro h
    rw [print] at h
    have := fmt.point x
    simp [h] at this
  | _ => cases ha

/-- The other scalars begin with a letter no decimal has. -/
theorem print_head {a : Scalar F} (ha : a.isNumber = false) :
    ∃ c t, a.print fmt = c :: t ∧ isNumeral c = false ∧ c ∉ ['[', ']', '{'] := by
  cases a with
  | null => exact ⟨_, _, rfl, by decide, by decide⟩
  | bool b =>
    cases b with
    | true => exact ⟨_, _, rfl, by decide, by decide⟩
    | false => exact ⟨_, _, rfl, by decide, by decide⟩
  | str s => exact ⟨_, _, rfl, by decide, by decide⟩
  | int i => cases ha
  | float x => cases ha

theorem not_isNumeral_of_delimited {r : List Char} (hr : Delimited r) :
    ∀ c ∈ r.head?, isNumeral c = false := by
  intro c hc
  rcases hr c hc with rfl | rfl | rfl
  · decide
  · decide
  · decide

/-- A decimal ends where its letters do. -/
theorem numeral_append_inj {t u r s : List Char} (ht : ∀ c ∈ t, isNumeral c = true)
    (hu : ∀ c ∈ u, isNumeral c = true) (hr : Delimited r) (hs : Delimited s)
    (h : t ++ r = u ++ s) : t = u ∧ r = s := by
  have hrest : ∀ {r : List Char}, Delimited r → r.takeWhile isNumeral = [] := by
    intro r hr
    cases r with
    | nil => rfl
    | cons c r => rw [List.takeWhile_cons, not_isNumeral_of_delimited hr c rfl]; rfl
  have htake := congrArg (List.takeWhile isNumeral) h
  rw [List.takeWhile_append_of_pos ht, List.takeWhile_append_of_pos hu, hrest hr, hrest hs,
    List.append_nil, List.append_nil] at htake
  subst htake
  exact ⟨rfl, List.append_cancel_left h⟩

/-- Within its class, a number is told by its text, and the class by point
and exponent. -/
theorem print_inj_of_isNumber {a b : Scalar F} (ha : a.isNumber = true) (hb : b.isNumber = true)
    (h : a.print fmt = b.print fmt) : a = b := by
  have hpoint : ∀ (i : ℤ) (x : F), intRepr i ≠ fmt.repr x := by
    intro i x heq
    have hint := point_not_mem_intRepr i
    rw [heq] at hint
    rcases fmt.point x with hx | hx
    · exact hint.1 hx
    · exact hint.2 hx
  cases a with
  | int i =>
    cases b with
    | int j => rw [intRepr_injective h]
    | float y => exact absurd h (hpoint i y)
    | _ => cases hb
  | float x =>
    cases b with
    | int j => exact absurd h.symm (hpoint j x)
    | float y => rw [fmt.injective h]
    | _ => cases hb
  | _ => cases ha

/-- The other scalars differ by their letters, or by what is quoted. -/
theorem print_append_inj_of_not_isNumber {a b : Scalar F} {r s : List Char}
    (ha : a.isNumber = false) (hb : b.isNumber = false)
    (h : a.print fmt ++ r = b.print fmt ++ s) : a = b ∧ r = s := by
  cases a with
  | null =>
    cases b with
    | null => simpa [print] using h
    | bool b => cases b <;> simp [print] at h
    | str s => simp [print, quote] at h
    | _ => cases hb
  | bool a =>
    cases b with
    | null => cases a <;> simp [print] at h
    | bool b => cases a <;> cases b <;> simp [print] at h ⊢ <;> exact h
    | str s => cases a <;> simp [print, quote] at h
    | _ => cases hb
  | str k =>
    cases b with
    | null => simp [print, quote] at h
    | bool b => cases b <;> simp [print, quote] at h
    | str l =>
      obtain ⟨rfl, hrest⟩ := quote_append_inj h
      exact ⟨rfl, hrest⟩
    | _ => cases hb
  | _ => cases ha

/-- A number and another scalar differ in their first letter. -/
theorem print_ne_of_isNumber {a b : Scalar F} {r s : List Char} (ha : a.isNumber = true)
    (hb : b.isNumber = false) : a.print fmt ++ r ≠ b.print fmt ++ s := by
  obtain ⟨c, t, hbc, hc, -⟩ := print_head fmt hb
  rcases hat : a.print fmt with _ | ⟨d, u⟩
  · exact absurd hat (print_ne_nil fmt ha)
  · have hd : isNumeral d = true := isNumeral_of_mem_print fmt ha d (by simp [hat])
    intro h
    rw [hbc] at h
    rw [(List.cons.inj h).1, hc] at hd
    cases hd

/-- **Scalars are told apart in any document.** -/
def format : ScalarFormat (Scalar F) where
  print := print fmt
  head := by
    intro a
    cases ha : a.isNumber with
    | true =>
      rcases hat : a.print fmt with _ | ⟨d, u⟩
      · exact absurd hat (print_ne_nil fmt ha)
      · have hd : isNumeral d = true := isNumeral_of_mem_print fmt ha d (by simp [hat])
        refine ⟨d, u, rfl, ?_, ?_, ?_⟩
        all_goals
          rintro rfl
          exact absurd hd (by decide)
    | false =>
      obtain ⟨c, t, hc, -, hmem⟩ := print_head fmt ha
      simp only [List.mem_cons, List.not_mem_nil, or_false, not_or] at hmem
      exact ⟨c, t, hc, hmem⟩
  append_inj := by
    intro a b r s hr hs h
    cases ha : a.isNumber with
    | true =>
      cases hb : b.isNumber with
      | true =>
        obtain ⟨heq, hrest⟩ := numeral_append_inj (isNumeral_of_mem_print fmt ha)
          (isNumeral_of_mem_print fmt hb) hr hs h
        exact ⟨print_inj_of_isNumber fmt ha hb heq, hrest⟩
      | false => exact absurd h (print_ne_of_isNumber fmt ha hb)
    | false =>
      cases hb : b.isNumber with
      | true => exact absurd h.symm (print_ne_of_isNumber fmt hb ha)
      | false => exact print_append_inj_of_not_isNumber fmt ha hb h

/-- An integer the interpreter refuses to print. -/
def isLongInt : Scalar F → Bool
  | int i => 10 ^ Text.maxIntDigits ≤ i.natAbs
  | _ => false

end Scalar

end Congine
