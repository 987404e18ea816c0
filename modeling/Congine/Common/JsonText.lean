import Mathlib.Data.List.Forall2
import Mathlib.Data.List.Perm.Basic
import Mathlib.Data.List.Sort
import Mathlib.Data.String.Basic
/-!
# The text of a document

Documents over scalars of any type, and the compact text of one: arrays
and objects between brackets, a comma between their parts, the keys in
ASCII between quotes. The text is uniquely readable: a document is told
from what follows it, as long as that is nothing or a delimiter. It is
enough that the scalars are, so `ScalarFormat` asks it of them alone.

`sortKeys` puts the members of every object in key order, and `Same` is
what it forgets: two documents are the same when one is the other with
members of objects reordered, at any depth.
-/

namespace Congine

/-! ## Numerals of a fixed width -/

/-- The last `w` hexadecimal digits of a number. -/
def hexDigits : ℕ → ℕ → List Char
  | 0, _ => []
  | w + 1, n => hexDigits w (n / 16) ++ [Nat.digitChar (n % 16)]

@[simp] theorem length_hexDigits (w n : ℕ) : (hexDigits w n).length = w := by
  induction w generalizing n with
  | zero => rfl
  | succ w ih => simp [hexDigits, ih]

theorem digitChar_injective : ∀ i < 16, ∀ j < 16, Nat.digitChar i = Nat.digitChar j → i = j := by
  decide

theorem hexDigits_injective {w n m : ℕ} (hn : n < 16 ^ w) (hm : m < 16 ^ w)
    (h : hexDigits w n = hexDigits w m) : n = m := by
  induction w generalizing n m with
  | zero => omega
  | succ w ih =>
    rw [hexDigits, hexDigits] at h
    obtain ⟨hhigh, hlow⟩ := List.append_inj' h rfl
    have hhigh' : n / 16 = m / 16 := ih (by omega) (by omega) hhigh
    have hlow' : n % 16 = m % 16 :=
      digitChar_injective _ (Nat.mod_lt _ (by decide)) _ (Nat.mod_lt _ (by decide))
        (List.head_eq_of_cons_eq hlow)
    omega

theorem hexDigits_append_inj {w n m : ℕ} {r s : List Char} (hn : n < 16 ^ w) (hm : m < 16 ^ w)
    (h : hexDigits w n ++ r = hexDigits w m ++ s) : n = m ∧ r = s := by
  obtain ⟨hdigits, hrest⟩ := List.append_inj h (by simp)
  exact ⟨hexDigits_injective hn hm hdigits, hrest⟩

/-! ## Quoted strings

Every character is spelled in ASCII, and no spelling begins another, nor
with the quote that ends the string. -/

/-- The characters with a spelling of two letters, by the second. -/
def shortEscapes : List (Char × Char) :=
  [('"', '"'), ('\\', '\\'), ('\n', 'n'), ('\r', 'r'), ('\t', 't'), ('\x0c', 'f'), ('\x08', 'b')]

/-- One code unit, spelled by its number. -/
def unitEscape (n : ℕ) : List Char := '\\' :: 'u' :: hexDigits 4 n

/-- A character by its code units: one, or a pair of surrogates. -/
def longEscape (c : Char) : List Char :=
  if c.toNat < 0x10000 then unitEscape c.toNat
  else
    unitEscape (0xd800 + (c.toNat - 0x10000) / 0x400) ++
      unitEscape (0xdc00 + (c.toNat - 0x10000) % 0x400)

def escapeChar (c : Char) : List Char :=
  match shortEscapes.lookup c with
  | some e => ['\\', e]
  | none => if 0x20 ≤ c.toNat ∧ c.toNat ≤ 0x7e then [c] else longEscape c

/-- A string between quotes. -/
def quote (s : String) : List Char := '"' :: (s.toList.flatMap escapeChar ++ ['"'])

theorem unitEscape_append_inj {n m : ℕ} {r s : List Char} (hn : n < 0x10000) (hm : m < 0x10000)
    (h : unitEscape n ++ r = unitEscape m ++ s) : n = m ∧ r = s := by
  simp only [unitEscape, List.cons_append, List.cons.injEq, true_and] at h
  exact hexDigits_append_inj (by omega) (by omega) h

theorem toNat_lt_surrogates_or_gt (c : Char) :
    c.toNat < 0xd800 ∨ (0xdfff < c.toNat ∧ c.toNat < 0x110000) := c.valid

/-- A code unit that is a character is no surrogate. -/
theorem longEscape_append_inj {c d : Char} {r s : List Char}
    (h : longEscape c ++ r = longEscape d ++ s) : c = d ∧ r = s := by
  have hc := toNat_lt_surrogates_or_gt c
  have hd := toNat_lt_surrogates_or_gt d
  rw [longEscape, longEscape] at h
  split_ifs at h with hcs hds hds
  · obtain ⟨hunit, hrest⟩ := unitEscape_append_inj hcs hds h
    exact ⟨Char.toNat_inj.mp hunit, hrest⟩
  · rw [List.append_assoc] at h
    obtain ⟨hunit, -⟩ := unitEscape_append_inj hcs (by omega) h
    omega
  · rw [List.append_assoc] at h
    obtain ⟨hunit, -⟩ := unitEscape_append_inj (by omega) hds h
    omega
  · rw [List.append_assoc, List.append_assoc] at h
    obtain ⟨hhigh, h⟩ := unitEscape_append_inj (by omega) (by omega) h
    obtain ⟨hlow, hrest⟩ := unitEscape_append_inj (by omega) (by omega) h
    have hnat : c.toNat = d.toNat := by omega
    exact ⟨Char.toNat_inj.mp hnat, hrest⟩

/-- The three ways to spell a character, told apart by the first two letters. -/
theorem escapeChar_cases (c : Char) :
    (∃ e, (c, e) ∈ shortEscapes ∧ escapeChar c = ['\\', e]) ∨
      (c ≠ '"' ∧ c ≠ '\\' ∧ escapeChar c = [c]) ∨ escapeChar c = longEscape c := by
  rcases hlook : shortEscapes.lookup c with _ | e
  · by_cases hplain : 0x20 ≤ c.toNat ∧ c.toNat ≤ 0x7e
    · refine .inr (.inl ⟨?_, ?_, by simp [escapeChar, hlook, hplain]⟩)
      · rintro rfl
        simp [shortEscapes] at hlook
      · rintro rfl
        simp [shortEscapes] at hlook
    · exact .inr (.inr (by simp [escapeChar, hlook, hplain]))
  · refine .inl ⟨e, ?_, by simp [escapeChar, hlook]⟩
    obtain ⟨front, back, heq, -⟩ := List.lookup_eq_some_iff.mp hlook
    simp [heq]

theorem shortEscapes_letters : ∀ p ∈ shortEscapes, p.2 ≠ 'u' ∧
    ∀ q ∈ shortEscapes, p.2 = q.2 → p.1 = q.1 := by
  decide

theorem longEscape_head (c : Char) : ∃ t, longEscape c = '\\' :: 'u' :: t := by
  rw [longEscape]
  split_ifs
  · exact ⟨_, rfl⟩
  · exact ⟨_, rfl⟩

/-- **No spelling begins another.** -/
theorem escapeChar_append_inj {c d : Char} {r s : List Char}
    (h : escapeChar c ++ r = escapeChar d ++ s) : c = d ∧ r = s := by
  obtain ⟨tc, htc⟩ := longEscape_head c
  obtain ⟨td, htd⟩ := longEscape_head d
  rcases escapeChar_cases c with ⟨e, he, hec⟩ | ⟨-, hc, hec⟩ | hec
  · have hletter := shortEscapes_letters (c, e) he
    rcases escapeChar_cases d with ⟨f, hf, hed⟩ | ⟨-, hd, hed⟩ | hed
    · simp only [hec, hed, List.cons_append, List.nil_append, List.cons.injEq, true_and] at h
      exact ⟨hletter.2 (d, f) hf h.1, h.2⟩
    · simp [hec, hed, Ne.symm hd] at h
    · simp [hec, hed, htd, hletter.1] at h
  · rcases escapeChar_cases d with ⟨f, hf, hed⟩ | ⟨-, hd, hed⟩ | hed
    · simp [hec, hed, hc] at h
    · simpa [hec, hed] using h
    · simp [hec, hed, htd, hc] at h
  · rcases escapeChar_cases d with ⟨f, hf, hed⟩ | ⟨-, hd, hed⟩ | hed
    · have hletter := shortEscapes_letters (d, f) hf
      simp [hec, hed, htc, Ne.symm hletter.1] at h
    · simp [hec, hed, htc, Ne.symm hd] at h
    · rw [hec, hed] at h
      exact longEscape_append_inj h

/-- No spelling begins with the quote that ends a string. -/
theorem escapeChar_head (c : Char) : ∃ a t, escapeChar c = a :: t ∧ a ≠ '"' := by
  rcases escapeChar_cases c with ⟨e, -, hec⟩ | ⟨hc, -, hec⟩ | hec
  · exact ⟨_, _, hec, by decide⟩
  · exact ⟨_, _, hec, hc⟩
  · obtain ⟨t, ht⟩ := longEscape_head c
    exact ⟨_, _, hec.trans ht, by decide⟩

theorem escapes_append_inj {cs ds r s : List Char}
    (h : cs.flatMap escapeChar ++ '"' :: r = ds.flatMap escapeChar ++ '"' :: s) :
    cs = ds ∧ r = s := by
  induction cs generalizing ds with
  | nil =>
    cases ds with
    | nil => simpa using h
    | cons d ds =>
      obtain ⟨a, t, hd, ha⟩ := escapeChar_head d
      simp [hd, Ne.symm ha] at h
  | cons c cs ih =>
    cases ds with
    | nil =>
      obtain ⟨a, t, hc, ha⟩ := escapeChar_head c
      simp [hc, ha] at h
    | cons d ds =>
      rw [List.flatMap_cons, List.flatMap_cons, List.append_assoc, List.append_assoc] at h
      obtain ⟨rfl, hmore⟩ := escapeChar_append_inj h
      obtain ⟨rfl, hrest⟩ := ih hmore
      exact ⟨rfl, hrest⟩

/-- **A quoted string is told from whatever follows it.** -/
theorem quote_append_inj {k l : String} {r s : List Char} (h : quote k ++ r = quote l ++ s) :
    k = l ∧ r = s := by
  simp only [quote, List.cons_append, List.cons.injEq, true_and, List.append_assoc,
    List.nil_append] at h
  obtain ⟨hchars, hrest⟩ := escapes_append_inj h
  exact ⟨String.toList_inj.mp hchars, hrest⟩

/-! ## Documents -/

/-- A document over scalars of a type. -/
inductive Doc (S : Type) where
  | scalar (s : S)
  | arr (xs : List (Doc S))
  | obj (fields : List (String × Doc S))

/-- What follows a document: nothing, or what separates or closes. -/
def Delimited (r : List Char) : Prop := ∀ c ∈ r.head?, c = ',' ∨ c = ']' ∨ c = '}'

/-- A way to print scalars that keeps them apart, from each other and from
the punctuation around them. -/
structure ScalarFormat (S : Type) where
  print : S → List Char
  head : ∀ s, ∃ c t, print s = c :: t ∧ c ≠ '[' ∧ c ≠ ']' ∧ c ≠ '{'
  append_inj : ∀ {a b r s}, Delimited r → Delimited s → print a ++ r = print b ++ s →
    a = b ∧ r = s

namespace Doc

variable {S : Type}

mutual

/-- The compact text of a document. -/
def text (fmt : ScalarFormat S) : Doc S → List Char
  | scalar s => fmt.print s
  | arr [] => ['[', ']']
  | arr (x :: xs) => '[' :: (text fmt x ++ textElements fmt xs)
  | obj [] => ['{', '}']
  | obj ((k, x) :: fs) => '{' :: (quote k ++ ':' :: (text fmt x ++ textMembers fmt fs))

/-- The further elements of an array, with its closing bracket. -/
def textElements (fmt : ScalarFormat S) : List (Doc S) → List Char
  | [] => [']']
  | x :: xs => ',' :: (text fmt x ++ textElements fmt xs)

/-- The further members of an object, with its closing brace. -/
def textMembers (fmt : ScalarFormat S) : List (String × Doc S) → List Char
  | [] => ['}']
  | (k, x) :: fs => ',' :: (quote k ++ ':' :: (text fmt x ++ textMembers fmt fs))

end

section Letters

variable (fmt : ScalarFormat S)

/-- No document begins with a bracket that closes. -/
theorem text_head (x : Doc S) : ∃ c t, text fmt x = c :: t ∧ c ≠ ']' := by
  cases x with
  | scalar s =>
    obtain ⟨c, t, hs, -, hc, -⟩ := fmt.head s
    exact ⟨c, t, by rw [text, hs], hc⟩
  | arr xs =>
    cases xs with
    | nil => exact ⟨_, _, by rw [text], by decide⟩
    | cons x xs => exact ⟨_, _, by rw [text], by decide⟩
  | obj fs =>
    cases fs with
    | nil => exact ⟨_, _, by rw [text], by decide⟩
    | cons f fs => exact ⟨_, _, by rw [text], by decide⟩

theorem delimited_textElements (xs : List (Doc S)) (r : List Char) :
    Delimited (textElements fmt xs ++ r) := by
  cases xs with
  | nil => simp [Delimited, textElements]
  | cons x xs => simp [Delimited, textElements]

theorem delimited_textMembers (fs : List (String × Doc S)) (r : List Char) :
    Delimited (textMembers fmt fs ++ r) := by
  cases fs with
  | nil => simp [Delimited, textMembers]
  | cons f fs => simp [Delimited, textMembers]

theorem text_arr (xs : List (Doc S)) : ∃ t, text fmt (arr xs) = '[' :: t := by
  cases xs with
  | nil => exact ⟨_, by rw [text]⟩
  | cons x xs => exact ⟨_, by rw [text]⟩

theorem text_obj (fs : List (String × Doc S)) : ∃ t, text fmt (obj fs) = '{' :: t := by
  cases fs with
  | nil => exact ⟨_, by rw [text]⟩
  | cons f fs => exact ⟨_, by rw [text]⟩

end Letters

variable {fmt : ScalarFormat S}

/-! The first letters of documents of different kinds differ. -/

theorem print_ne_text_arr {a : S} {xs : List (Doc S)} {r s : List Char} :
    fmt.print a ++ r ≠ text fmt (arr xs) ++ s := by
  obtain ⟨c, t, ha, hc, -, -⟩ := fmt.head a
  obtain ⟨u, hu⟩ := text_arr fmt xs
  simp [ha, hu, hc]

theorem print_ne_text_obj {a : S} {fs : List (String × Doc S)} {r s : List Char} :
    fmt.print a ++ r ≠ text fmt (obj fs) ++ s := by
  obtain ⟨c, t, ha, -, -, hc⟩ := fmt.head a
  obtain ⟨u, hu⟩ := text_obj fmt fs
  simp [ha, hu, hc]

theorem text_arr_ne_text_obj {xs : List (Doc S)} {fs : List (String × Doc S)}
    {r s : List Char} : text fmt (arr xs) ++ r ≠ text fmt (obj fs) ++ s := by
  obtain ⟨t, ht⟩ := text_arr fmt xs
  obtain ⟨u, hu⟩ := text_obj fmt fs
  simp [ht, hu]

mutual

/-- **Unique readability.** The text of a document, up to a delimiter,
determines the document. -/
theorem text_append_inj : ∀ {x y : Doc S} {r s : List Char}, Delimited r → Delimited s →
    text fmt x ++ r = text fmt y ++ s → x = y ∧ r = s
  | scalar a, y, r, s, hr, hs, h => by
    cases y with
    | scalar b =>
      simp only [text] at h
      obtain ⟨rfl, hrest⟩ := fmt.append_inj hr hs h
      exact ⟨rfl, hrest⟩
    | arr ys =>
      rw [text.eq_1] at h
      exact absurd h print_ne_text_arr
    | obj gs =>
      rw [text.eq_1] at h
      exact absurd h print_ne_text_obj
  | arr xs, y, r, s, hr, hs, h => by
    cases y with
    | scalar b =>
      rw [text.eq_1] at h
      exact absurd h.symm print_ne_text_arr
    | arr ys =>
      match xs, ys with
      | [], [] => exact ⟨rfl, by simpa [text] using h⟩
      | [], y :: ys =>
        obtain ⟨c, t, hy, hc⟩ := text_head fmt y
        simp [text, hy, Ne.symm hc] at h
      | x :: xs, [] =>
        obtain ⟨c, t, hx, hc⟩ := text_head fmt x
        simp [text, hx, hc] at h
      | x :: xs, y :: ys =>
        simp only [text, List.cons_append, List.cons.injEq, true_and, List.append_assoc] at h
        obtain ⟨rfl, hmore⟩ := text_append_inj (delimited_textElements fmt xs r)
          (delimited_textElements fmt ys s) h
        obtain ⟨rfl, hrest⟩ := textElements_append_inj hmore
        exact ⟨rfl, hrest⟩
    | obj gs => exact absurd h text_arr_ne_text_obj
  | obj fs, y, r, s, hr, hs, h => by
    cases y with
    | scalar b =>
      rw [text.eq_1] at h
      exact absurd h.symm print_ne_text_obj
    | arr ys => exact absurd h.symm text_arr_ne_text_obj
    | obj gs =>
      match fs, gs with
      | [], [] => exact ⟨rfl, by simpa [text] using h⟩
      | [], (l, y) :: gs => simp [text, quote] at h
      | (k, x) :: fs, [] => simp [text, quote] at h
      | (k, x) :: fs, (l, y) :: gs =>
        simp only [text, List.cons_append, List.cons.injEq, true_and, List.append_assoc] at h
        obtain ⟨rfl, hmember⟩ := quote_append_inj h
        obtain ⟨rfl, hmore⟩ := text_append_inj (delimited_textMembers fmt fs r)
          (delimited_textMembers fmt gs s) (List.cons.inj hmember).2
        obtain ⟨rfl, hrest⟩ := textMembers_append_inj hmore
        exact ⟨rfl, hrest⟩

theorem textElements_append_inj : ∀ {xs ys : List (Doc S)} {r s : List Char},
    textElements fmt xs ++ r = textElements fmt ys ++ s → xs = ys ∧ r = s
  | [], ys, r, s, h => by
    cases ys with
    | nil => exact ⟨rfl, by simpa [textElements] using h⟩
    | cons y ys => simp [textElements] at h
  | x :: xs, ys, r, s, h => by
    cases ys with
    | nil => simp [textElements] at h
    | cons y ys =>
      simp only [textElements, List.cons_append, List.cons.injEq, true_and,
        List.append_assoc] at h
      obtain ⟨rfl, hmore⟩ := text_append_inj (delimited_textElements fmt xs r)
        (delimited_textElements fmt ys s) h
      obtain ⟨rfl, hrest⟩ := textElements_append_inj hmore
      exact ⟨rfl, hrest⟩

theorem textMembers_append_inj : ∀ {fs gs : List (String × Doc S)} {r s : List Char},
    textMembers fmt fs ++ r = textMembers fmt gs ++ s → fs = gs ∧ r = s
  | [], gs, r, s, h => by
    cases gs with
    | nil => exact ⟨rfl, by simpa [textMembers] using h⟩
    | cons g gs => simp [textMembers] at h
  | (k, x) :: fs, gs, r, s, h => by
    cases gs with
    | nil => simp [textMembers] at h
    | cons g gs =>
      obtain ⟨l, y⟩ := g
      simp only [textMembers, List.cons_append, List.cons.injEq, true_and,
        List.append_assoc] at h
      obtain ⟨rfl, hmember⟩ := quote_append_inj h
      obtain ⟨rfl, hmore⟩ := text_append_inj (delimited_textMembers fmt fs r)
        (delimited_textMembers fmt gs s) (List.cons.inj hmember).2
      obtain ⟨rfl, hrest⟩ := textMembers_append_inj hmore
      exact ⟨rfl, hrest⟩

end

theorem text_injective : Function.Injective (text fmt) := by
  intro x y h
  have hnil : Delimited [] := by simp [Delimited]
  exact (text_append_inj hnil hnil (congrArg (· ++ []) h)).1

end Doc

end Congine
