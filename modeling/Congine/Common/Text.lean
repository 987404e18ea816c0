import Mathlib.Algebra.GroupWithZero.Nat
import Mathlib.Data.List.Dedup
import Mathlib.Data.List.Infix
import Mathlib.Data.List.Sort
import Mathlib.Data.List.TakeWhile
import Mathlib.Data.String.Basic
/-!
# Text

Strings as sequences of code points, with the handful of operations a
program in a dynamic language leans on: splitting at a separator and
joining with it, the parts up to and after the last one, prefixes,
two-character replacement, sorted sets of names and the integer reader.
Every operation is read through `String.toList`, so a fact about one is a
fact about lists.
-/

namespace Congine

namespace Text

/-- The parts of `s` between occurrences of `sep`. -/
def split (sep : Char) (s : String) : List String :=
  (s.toList.splitOn sep).map String.ofList

/-- The part of `s` after the last `sep`, and all of `s` where there is none. -/
def afterLast (sep : Char) (s : String) : String :=
  String.ofList (s.toList.reverse.takeWhile (· ≠ sep)).reverse

/-- `s` up to and including the last `sep`. -/
def upToLast (sep : Char) (s : String) : String :=
  String.ofList (s.toList.reverse.dropWhile (· ≠ sep)).reverse

/-- The parts of a list with `sep` between them. -/
def join (sep : Char) (parts : List String) : String :=
  (String.singleton sep).intercalate parts

/-- `s` begins with `p`. -/
def startsWith (p s : String) : Bool := p.toList.isPrefixOf s.toList

/-- The names of a list once each, in code-point order. -/
def sortedSet (xs : List String) : List String := xs.dedup.insertionSort (· ≤ ·)

/-- Every occurrence of the pair `a b`, left to right and without
overlap, replaced by `r`. -/
def replacePair (a b r : Char) : List Char → List Char
  | [] => []
  | [c] => [c]
  | c :: d :: cs =>
      if c = a ∧ d = b then r :: replacePair a b r cs else c :: replacePair a b r (d :: cs)

/-! ## Replacing pairs -/

theorem replacePair_pair (a b r : Char) (cs : List Char) :
    replacePair a b r (a :: b :: cs) = r :: replacePair a b r cs := by
  rw [replacePair, if_pos ⟨rfl, rfl⟩]

theorem replacePair_cons_of_ne {a b r c : Char} (h : c ≠ a) (cs : List Char) :
    replacePair a b r (c :: cs) = c :: replacePair a b r cs := by
  cases cs with
  | nil => rfl
  | cons d cs => rw [replacePair, if_neg fun hpair => h hpair.1]

theorem replacePair_cons_cons_of_ne {a b r d : Char} (c : Char) (h : d ≠ b) (cs : List Char) :
    replacePair a b r (c :: d :: cs) = c :: replacePair a b r (d :: cs) := by
  rw [replacePair, if_neg fun hpair => h hpair.2]

/-- Replacing a pair by what weighs as much as both loses no weight. -/
theorem sum_le_sum_replacePair {a b r : Char} {f g : Char → ℕ} (hpair : f a + f b ≤ g r)
    (hle : ∀ c, f c ≤ g c) (cs : List Char) :
    (cs.map f).sum ≤ ((replacePair a b r cs).map g).sum := by
  induction cs using replacePair.induct a b with
  | case1 => exact le_rfl
  | case2 c => simpa [replacePair] using hle c
  | case3 c d cs hcd ih =>
    obtain ⟨rfl, rfl⟩ := hcd
    rw [replacePair_pair]
    simp only [List.map_cons, List.sum_cons]
    omega
  | case4 c d cs hcd ih =>
    have hc := hle c
    rw [replacePair, if_neg hcd]
    simp only [List.map_cons, List.sum_cons] at ih ⊢
    omega

/-! ## Prefixes -/

theorem startsWith_iff {p s : String} : startsWith p s = true ↔ p.toList <+: s.toList :=
  List.isPrefixOf_iff_prefix

theorem startsWith_append (p s : String) : startsWith p (p ++ s) = true := by
  rw [startsWith_iff, String.toList_append]
  exact List.prefix_append _ _

/-! ## Splitting and joining

A text is its parts, so joining loses exactly the boundaries between the
parts that were joined: what is left of them is the parts of each, one
after the other. -/

theorem split_injective (sep : Char) : Function.Injective (split sep) := by
  intro s t h
  have hparts : s.toList.splitOn sep = t.toList.splitOn sep :=
    List.map_injective_iff.mpr (fun _ _ => String.ofList_injective) h
  have hjoin : ∀ u : String, [sep].intercalate (u.toList.splitOn sep) = u.toList :=
    fun u => List.intercalate_splitOn sep
  rw [← String.toList_inj, ← hjoin s, hparts, hjoin t]

theorem split_eq_singleton {sep : Char} {s : String} (h : sep ∉ s.toList) : split sep s = [s] := by
  rw [split, List.splitOn_eq_singleton h, List.map_singleton, String.ofList_toList]

theorem split_ne_nil (sep : Char) (s : String) : split sep s ≠ [] :=
  fun h => List.splitOn_ne_nil sep s.toList (List.map_eq_nil_iff.mp h)

theorem toList_join (sep : Char) (parts : List String) :
    (join sep parts).toList = [sep].intercalate (parts.map String.toList) := by
  rw [join, String.toList_intercalate, String.toList_singleton]

/-- **The parts of a join are the parts of what is joined.** -/
theorem split_join (sep : Char) {parts : List String} (hne : parts ≠ []) :
    split sep (join sep parts) = parts.flatMap (split sep) := by
  rw [split, toList_join]
  induction parts with
  | nil => exact absurd rfl hne
  | cons p ps ih =>
    cases ps with
    | nil => simp [split]
    | cons q ps =>
      have hcons : [sep].intercalate ((p :: q :: ps).map String.toList) =
          p.toList ++ sep :: [sep].intercalate ((q :: ps).map String.toList) := by simp
      rw [hcons, List.splitOn_append_cons_self, List.map_append, ih (List.cons_ne_nil q ps)]
      rfl

/-- A text is the join of its parts. -/
theorem join_split (sep : Char) (s : String) : join sep (split sep s) = s := by
  have hparts : (split sep s).map String.toList = s.toList.splitOn sep := by
    simp [split, Function.comp_def]
  rw [← String.toList_inj, toList_join, hparts, List.intercalate_splitOn]

theorem join_eq_iff (sep : Char) {ps qs : List String} (hps : ps ≠ []) (hqs : qs ≠ []) :
    join sep ps = join sep qs ↔ ps.flatMap (split sep) = qs.flatMap (split sep) := by
  rw [← split_join sep hps, ← split_join sep hqs]
  exact (split_injective sep).eq_iff.symm

/-- The last separator of a text is the one its last part follows. -/
theorem toLast_append {sep : Char} {p s : String} (hs : sep ∉ s.toList)
    (hp : p = "" ∨ p.toList.getLast? = some sep) :
    upToLast sep (p ++ s) = p ∧ afterLast sep (p ++ s) = s := by
  have hpass : ∀ c ∈ s.toList.reverse, (decide (c ≠ sep)) = true := by
    intro c hc
    have hne : c ≠ sep := fun heq => hs (heq ▸ List.mem_reverse.mp hc)
    exact decide_eq_true hne
  have hstop : p.toList.reverse.dropWhile (· ≠ sep) = p.toList.reverse ∧
      p.toList.reverse.takeWhile (· ≠ sep) = [] := by
    rcases hp with rfl | hp
    · exact ⟨rfl, rfl⟩
    · obtain ⟨front, hfront⟩ := List.getLast?_eq_some_iff.mp hp
      simp [hfront]
  constructor
  · rw [upToLast, String.toList_append, List.reverse_append, List.dropWhile_append_of_pos hpass,
      hstop.1, List.reverse_reverse, String.ofList_toList]
  · rw [afterLast, String.toList_append, List.reverse_append, List.takeWhile_append_of_pos hpass,
      hstop.2, List.append_nil, List.reverse_reverse, String.ofList_toList]

/-! ## Sorted sets -/

@[simp] theorem mem_sortedSet {x : String} {xs : List String} : x ∈ sortedSet xs ↔ x ∈ xs := by
  simp [sortedSet, List.mem_insertionSort]

theorem sortedSet_eq_nil {xs : List String} : sortedSet xs = [] ↔ xs = [] := by
  constructor
  · intro h
    refine List.eq_nil_iff_forall_not_mem.mpr fun x hx => ?_
    have : x ∈ sortedSet xs := mem_sortedSet.mpr hx
    rw [h] at this
    exact List.not_mem_nil this
  · rintro rfl
    rfl

/-! ## Reading an integer

The reader is permissive: blanks around the number, a sign, single
underscores between digits and decimal digits of every script. It gives
up on more than `maxIntDigits` digits. -/

/-- The code points of the digit zero of every decimal script. -/
def decimalZeros : List ℕ :=
  [0x30, 0x660, 0x6f0, 0x7c0, 0x966, 0x9e6, 0xa66, 0xae6, 0xb66, 0xbe6, 0xc66, 0xce6, 0xd66,
    0xde6, 0xe50, 0xed0, 0xf20, 0x1040, 0x1090, 0x17e0, 0x1810, 0x1946, 0x19d0, 0x1a80, 0x1a90,
    0x1b50, 0x1bb0, 0x1c40, 0x1c50, 0xa620, 0xa8d0, 0xa900, 0xa9d0, 0xa9f0, 0xaa50, 0xabf0,
    0xff10, 0x104a0, 0x10d30, 0x11066, 0x110f0, 0x11136, 0x111d0, 0x112f0, 0x11450, 0x114d0,
    0x11650, 0x116c0, 0x11730, 0x118e0, 0x11950, 0x11c50, 0x11d50, 0x11da0, 0x16a60, 0x16ac0,
    0x16b50, 0x1d7ce, 0x1d7d8, 0x1d7e2, 0x1d7ec, 0x1d7f6, 0x1e140, 0x1e2f0, 0x1e950, 0x1fbf0]

/-- The value of a decimal digit of any script. -/
def digit? (c : Char) : Option ℕ :=
  (decimalZeros.find? fun z => z ≤ c.toNat ∧ c.toNat < z + 10).map (c.toNat - ·)

/-- The blanks the reader drops at both ends. -/
def isBlank (c : Char) : Bool :=
  (0x9 ≤ c.toNat ∧ c.toNat ≤ 0xd) ∨ (0x2000 ≤ c.toNat ∧ c.toNat ≤ 0x200a) ∨
    c.toNat ∈ [0x20, 0x85, 0xa0, 0x1680, 0x2028, 0x2029, 0x202f, 0x205f, 0x3000]

def strip (cs : List Char) : List Char :=
  ((cs.dropWhile isBlank).reverse.dropWhile isBlank).reverse

/-- The digits of a run in which single underscores stand between digits. -/
def digits? : List Char → Option (List ℕ)
  | [] => none
  | [c] => (digit? c).map ([·])
  | c :: d :: cs =>
      match digit? c with
      | none => none
      | some n => if d = '_' then (digits? cs).map (n :: ·) else (digits? (d :: cs)).map (n :: ·)

/-- The longest run of digits the reader converts. -/
def maxIntDigits : ℕ := 4300

def natOfDigits (ds : List ℕ) : ℕ := ds.foldl (fun n d => 10 * n + d) 0

/-- `int(s)`, with `none` for the `ValueError`. -/
def parseInt (s : String) : Option ℤ :=
  let unsigned (cs : List Char) : Option ℕ :=
    (digits? cs).bind fun ds => if ds.length ≤ maxIntDigits then some (natOfDigits ds) else none
  match strip s.toList with
  | '-' :: cs => (unsigned cs).map fun n => -(n : ℤ)
  | '+' :: cs => (unsigned cs).map fun n => (n : ℤ)
  | cs => (unsigned cs).map fun n => (n : ℤ)

example : parseInt " +1_0\n" = some 10 := by decide
example : parseInt "1__0" = none := by decide

theorem isDigit_iff {c : Char} : c.isDigit = true ↔ 48 ≤ c.toNat ∧ c.toNat ≤ 57 := by
  simp only [Char.isDigit, Bool.and_eq_true, decide_eq_true_eq]
  exact Iff.rfl

theorem digit?_of_isDigit {c : Char} (h : c.isDigit = true) : digit? c = some (c.toNat - 48) := by
  obtain ⟨hle, hge⟩ := isDigit_iff.mp h
  have hzero : decimalZeros.find? (fun z => z ≤ c.toNat ∧ c.toNat < z + 10) = some 48 :=
    List.find?_cons_of_pos (decide_eq_true ⟨hle, by omega⟩)
  rw [digit?, hzero]
  rfl

theorem isBlank_of_isDigit {c : Char} (h : c.isDigit = true) : isBlank c = false := by
  obtain ⟨hle, hge⟩ := isDigit_iff.mp h
  simp only [isBlank, List.mem_cons, List.not_mem_nil, or_false, decide_eq_false_iff_not]
  omega

theorem strip_of_forall_isDigit {cs : List Char} (h : ∀ c ∈ cs, c.isDigit = true) :
    strip cs = cs := by
  have hkeep : ∀ ds : List Char, (∀ c ∈ ds, c.isDigit = true) → ds.dropWhile isBlank = ds := by
    intro ds hds
    cases ds with
    | nil => rfl
    | cons d ds =>
      have hd : ¬ isBlank d = true := by simp [isBlank_of_isDigit (hds d List.mem_cons_self)]
      exact List.dropWhile_cons_of_neg hd
  rw [strip, hkeep cs h, hkeep _ fun c hc => h c (List.mem_reverse.mp hc), List.reverse_reverse]

theorem digits?_of_forall_isDigit {cs : List Char} (hne : cs ≠ [])
    (h : ∀ c ∈ cs, c.isDigit = true) : digits? cs = some (cs.map fun c => c.toNat - 48) := by
  induction cs with
  | nil => exact absurd rfl hne
  | cons c cs ih =>
    obtain ⟨hc, hcs⟩ := List.forall_mem_cons.mp h
    cases cs with
    | nil => simp [digits?, digit?_of_isDigit hc]
    | cons d cs =>
      have hd : d ≠ '_' := by
        rintro rfl
        exact absurd (hcs '_' List.mem_cons_self) (by decide)
      rw [digits?, digit?_of_isDigit hc]
      simp only [hd, if_false, ih (List.cons_ne_nil d cs) hcs]
      rfl

/-- **The decimal text of a number is read back**, if it is not too long. -/
theorem parseInt_toString (i : ℕ) :
    parseInt (toString i) = if i < 10 ^ maxIntDigits then some (i : ℤ) else none := by
  have hdigit : ∀ c ∈ Nat.toDigits 10 i, c.isDigit = true :=
    fun c hc => Nat.isDigit_of_mem_toDigits (by decide) (by decide) hc
  have hlength : (Nat.toDigits 10 i).length ≤ maxIntDigits ↔ i < 10 ^ maxIntDigits :=
    Nat.length_toDigits_le_iff (by decide) (by decide)
  have hvalue : natOfDigits ((Nat.toDigits 10 i).map fun c => c.toNat - 48) = i := by
    rw [natOfDigits, List.foldl_map]
    exact Nat.ofDigitChars_ten_toDigits
  have hsign : ∀ c ∈ Nat.toDigits 10 i, c ≠ '-' ∧ c ≠ '+' := by
    intro c hc
    constructor
    · rintro rfl
      exact absurd (hdigit '-' hc) (by decide)
    · rintro rfl
      exact absurd (hdigit '+' hc) (by decide)
  have hread := digits?_of_forall_isDigit Nat.toDigits_ne_nil hdigit
  rw [parseInt, Nat.toString_eq_repr, Nat.toList_repr, strip_of_forall_isDigit hdigit]
  split
  · rename_i hcs
    exact absurd rfl (hsign '-' (hcs ▸ List.mem_cons_self)).1
  · rename_i hcs
    exact absurd rfl (hsign '+' (hcs ▸ List.mem_cons_self)).2
  · simp only [hread, Option.bind_some, List.length_map, hlength, hvalue]
    split_ifs
    · rfl
    · rfl

end Text

end Congine
