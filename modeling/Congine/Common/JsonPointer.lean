import Congine.Common.Json
import Congine.Common.Percent
import Congine.Common.Text
/-!
# JSON pointers

A pointer is a list of reference tokens, each written after a `/`, with
`~0` for `~` and `~1` for `/` in it. On an object a token is the name of
a member; on an array it is the index of an element, in decimal and
without leading zeros. A fragment of a URI spells a pointer, so it is
percent-decoded before anything else. Evaluation fails at a text that is
no pointer, and where a token leads nowhere.

The pointer of a position is the one that leads there and to no other
place; `evaluate_eq_some_iff` is that evaluation is this and nothing more.
-/

namespace Congine

/-- How a pointer writes a step. -/
def Step.token : Step → String
  | .key k => k
  | .index i => toString i

namespace Pointer

/-! ## Writing and reading -/

def escapeChar (c : Char) : List Char :=
  if c = '~' then ['~', '0'] else if c = '/' then ['~', '1'] else [c]

def escape (token : String) : String := String.ofList (token.toList.flatMap escapeChar)

/-- What is written with escapes; `none` where a `~` begins none, and at a
`/`, which no token has. -/
def unescapeChars : List Char → Option (List Char)
  | [] => some []
  | c :: cs =>
      if c = '~' then
        match cs with
        | '0' :: rest => (unescapeChars rest).map ('~' :: ·)
        | '1' :: rest => (unescapeChars rest).map ('/' :: ·)
        | _ => none
      else if c = '/' then none
      else (unescapeChars cs).map (c :: ·)

def unescape (token : String) : Option String := (unescapeChars token.toList).map String.ofList

/-- Texts one after the other, each after a `/`. -/
def slashed (texts : List String) : String := texts.foldr (fun text rest => "/" ++ text ++ rest) ""

/-- The text of a pointer. -/
def print (tokens : List String) : String := slashed (tokens.map escape)

/-- The tokens of a pointer; `none` for a text that is none. -/
def parse (s : String) : Option (List String) :=
  match s.toList with
  | [] => some []
  | '/' :: rest => (Text.split '/' (String.ofList rest)).mapM unescape
  | _ => none

/-! ## Evaluation -/

/-- The index a token is: the number whose decimal text it is. -/
def index? (token : String) : Option ℕ :=
  let i := Nat.ofDigitChars 10 token.toList 0
  if toString i = token then some i else none

/-- Where a token leads from a value. -/
def step? (current : Json) (token : String) : Option Step :=
  match current with
  | .obj _ => some (.key token)
  | .arr _ => (index? token).map .index
  | _ => none

/-- The value the tokens lead to. -/
def evaluate (root : Json) (tokens : List String) : Option Json :=
  tokens.foldlM (fun current token => (step? current token).bind current.child?) root

/-- The tokens of the pointer a fragment spells. -/
def fragmentTokens (fragment : String) : Option (List String) :=
  (Percent.decode fragment).bind parse

/-- **The value a fragment refers to.** -/
def evaluateFragment (root : Json) (fragment : String) : Option Json :=
  (fragmentTokens fragment).bind (evaluate root)

/-- The position the tokens lead to. -/
def locate : Json → List String → Option Position
  | _, [] => some []
  | current, token :: tokens =>
      (step? current token).bind fun step =>
        (current.child? step).bind fun child => (locate child tokens).map (step :: ·)

/-- The position a fragment refers to. -/
def locateFragment (root : Json) (fragment : String) : Option Position :=
  (fragmentTokens fragment).bind (locate root)

/-- The fragment that refers to a position. -/
def fragmentOf (p : Position) : String := Percent.encode (print (p.map Step.token))

/-! ## Escapes -/

theorem unescapeChars_zero (rest : List Char) :
    unescapeChars ('~' :: '0' :: rest) = (unescapeChars rest).map ('~' :: ·) := by
  rw [unescapeChars, if_pos rfl]

theorem unescapeChars_one (rest : List Char) :
    unescapeChars ('~' :: '1' :: rest) = (unescapeChars rest).map ('/' :: ·) := by
  rw [unescapeChars, if_pos rfl]

theorem unescapeChars_tilde {cs : List Char} (hzero : ∀ rest, cs ≠ '0' :: rest)
    (hone : ∀ rest, cs ≠ '1' :: rest) : unescapeChars ('~' :: cs) = none := by
  rw [unescapeChars.eq_def]
  simp only [if_true]

theorem unescapeChars_slash (cs : List Char) : unescapeChars ('/' :: cs) = none := by
  rw [unescapeChars.eq_def]
  simp

theorem unescapeChars_cons {c : Char} (htilde : c ≠ '~') (hslash : c ≠ '/') (cs : List Char) :
    unescapeChars (c :: cs) = (unescapeChars cs).map (c :: ·) := by
  rw [unescapeChars.eq_def]
  simp only [htilde, hslash, if_false]

theorem unescapeChars_escapeChar_append (c : Char) (cs : List Char) :
    unescapeChars (escapeChar c ++ cs) = (unescapeChars cs).map (c :: ·) := by
  unfold escapeChar
  split_ifs with htilde hslash
  · rw [htilde]
    exact unescapeChars_zero cs
  · rw [hslash]
    exact unescapeChars_one cs
  · exact unescapeChars_cons htilde hslash cs

/-- **What is read is what was written.** -/
theorem unescapeChars_eq_some_iff {cs ds : List Char} :
    unescapeChars cs = some ds ↔ cs = ds.flatMap escapeChar := by
  constructor
  · intro h
    induction cs using unescapeChars.induct generalizing ds with
    | case1 =>
      obtain rfl := Option.some.inj h
      rfl
    | case2 rest ih =>
      rw [unescapeChars_zero] at h
      obtain ⟨tail, htail, rfl⟩ := Option.map_eq_some_iff.mp h
      rw [List.flatMap_cons, ← ih htail]
      rfl
    | case3 rest ih =>
      rw [unescapeChars_one] at h
      obtain ⟨tail, htail, rfl⟩ := Option.map_eq_some_iff.mp h
      rw [List.flatMap_cons, ← ih htail]
      rfl
    | case4 cs hzero hone =>
      rw [unescapeChars_tilde hzero hone] at h
      cases h
    | case5 cs =>
      rw [unescapeChars_slash] at h
      cases h
    | case6 c cs htilde hslash ih =>
      rw [unescapeChars_cons htilde hslash] at h
      obtain ⟨tail, htail, rfl⟩ := Option.map_eq_some_iff.mp h
      rw [List.flatMap_cons, ← ih htail, escapeChar, if_neg htilde, if_neg hslash]
      rfl
  · rintro rfl
    induction ds with
    | nil => rfl
    | cons d ds ih =>
      rw [List.flatMap_cons, unescapeChars_escapeChar_append, ih]
      rfl

theorem unescape_eq_some_iff {s token : String} : unescape s = some token ↔ s = escape token := by
  have hchars : ∀ cs : List Char, unescapeChars s.toList = some cs ∧ String.ofList cs = token ↔
      cs = token.toList ∧ s.toList = cs.flatMap escapeChar := by
    intro cs
    rw [unescapeChars_eq_some_iff, ← String.toList_inj, String.toList_ofList, and_comm]
  simp only [unescape, Option.map_eq_some_iff, hchars, exists_eq_left]
  rw [escape, ← String.toList_inj, String.toList_ofList]

theorem slash_not_mem_escape (token : String) : '/' ∉ (escape token).toList := by
  rw [escape, String.toList_ofList, List.mem_flatMap]
  rintro ⟨c, -, hc⟩
  unfold escapeChar at hc
  split_ifs at hc with htilde hslash
  · exact absurd hc (by decide)
  · exact absurd hc (by decide)
  · exact hslash (List.mem_singleton.mp hc).symm

/-! ## Texts of pointers -/

@[simp] theorem slashed_nil : slashed [] = "" := rfl

@[simp] theorem slashed_cons (text : String) (texts : List String) :
    slashed (text :: texts) = "/" ++ text ++ slashed texts := rfl

/-- Texts after a `/` each are a `/` and the texts joined. -/
theorem toList_slashed {texts : List String} (h : texts ≠ []) :
    (slashed texts).toList = '/' :: (Text.join '/' texts).toList := by
  induction texts with
  | nil => exact absurd rfl h
  | cons text texts ih =>
    cases texts with
    | nil => simp [Text.toList_join]
    | cons next texts =>
      rw [slashed_cons, String.toList_append, ih (List.cons_ne_nil next texts)]
      simp [Text.toList_join]

/-- Cutting at each `/` loses nothing. -/
theorem toList_slashed_split (s : String) :
    (slashed (Text.split '/' s)).toList = '/' :: s.toList := by
  rw [toList_slashed (Text.split_ne_nil '/' s), Text.join_split]

theorem mapM_unescape_eq_some_iff {texts tokens : List String} :
    texts.mapM unescape = some tokens ↔ texts = tokens.map escape := by
  induction texts generalizing tokens with
  | nil =>
    rw [List.mapM_nil]
    cases tokens with
    | nil => simp
    | cons => simp
  | cons text texts ih =>
    simp only [List.mapM_cons, Option.bind_eq_bind, Option.pure_def, Option.bind_eq_some_iff,
      Option.some.injEq, ih, unescape_eq_some_iff]
    constructor
    · rintro ⟨token, rfl, rest, rfl, rfl⟩
      rfl
    · intro h
      cases tokens with
      | nil => cases h
      | cons token rest =>
        obtain ⟨rfl, rfl⟩ := List.cons.inj h
        exact ⟨token, rfl, rest, rfl, rfl⟩

theorem split_escaped {tokens : List String} (h : tokens ≠ []) :
    Text.split '/' (Text.join '/' (tokens.map escape)) = tokens.map escape := by
  have hne : tokens.map escape ≠ [] := fun hnil => h (List.map_eq_nil_iff.mp hnil)
  rw [Text.split_join '/' hne, List.flatMap_map]
  have hparts : ∀ token : String, Text.split '/' (escape token) = [escape token] :=
    fun token => Text.split_eq_singleton (slash_not_mem_escape token)
  simp only [hparts]
  exact List.map_eq_flatMap.symm

theorem toList_print {tokens : List String} (h : tokens ≠ []) :
    (print tokens).toList = '/' :: (Text.join '/' (tokens.map escape)).toList :=
  toList_slashed fun hnil => h (List.map_eq_nil_iff.mp hnil)

/-- **A text is a pointer exactly where it is written of tokens.** -/
theorem parse_eq_some_iff {s : String} {tokens : List String} :
    parse s = some tokens ↔ s = print tokens := by
  unfold parse
  rw [← String.toList_inj]
  split
  · rename_i hs
    rw [hs]
    by_cases htokens : tokens = []
    · simp [htokens, print]
    · simp [toList_print htokens, Ne.symm htokens]
  · rename_i rest hs
    rw [hs, mapM_unescape_eq_some_iff]
    constructor
    · intro h
      rw [print, ← h, toList_slashed_split, String.toList_ofList]
    · intro h
      by_cases htokens : tokens = []
      · simp [htokens, print] at h
      · rw [toList_print htokens] at h
        rw [(List.cons.inj h).2, String.ofList_toList, split_escaped htokens]
  · rename_i hnil hslash
    refine ⟨nofun, fun h => ?_⟩
    by_cases htokens : tokens = []
    · exact absurd (h.trans (by simp [htokens, print])) hnil
    · exact absurd (h.trans (toList_print htokens)) (hslash _)

theorem parse_print (tokens : List String) : parse (print tokens) = some tokens :=
  parse_eq_some_iff.mpr rfl

/-! ## Evaluation and positions -/

theorem index?_eq_some_iff {token : String} {i : ℕ} :
    index? token = some i ↔ token = toString i := by
  simp only [index?]
  constructor
  · intro h
    split_ifs at h with hcanonical
    rw [← hcanonical, Option.some.inj h]
  · rintro rfl
    have hread : Nat.ofDigitChars 10 (toString i).toList 0 = i := by
      show Nat.ofDigitChars 10 (Nat.repr i).toList 0 = i
      rw [Nat.repr_eq_ofList_toDigits, String.toList_ofList, Nat.ofDigitChars_ten_toDigits]
    simp only [hread, if_true]

/-- A token leads where a step leads that it writes. -/
theorem descend_eq_some_iff {current child : Json} {token : String} :
    (step? current token).bind current.child? = some child ↔
      ∃ step : Step, token = step.token ∧ current.child? step = some child := by
  rw [Option.bind_eq_some_iff]
  cases current with
  | obj fields =>
    simp only [step?, Option.some.injEq, exists_eq_left']
    constructor
    · exact fun h => ⟨.key token, rfl, h⟩
    · rintro ⟨step, rfl, h⟩
      cases step with
      | key k => exact h
      | index i => cases h
  | arr xs =>
    simp only [step?, Option.map_eq_some_iff, index?_eq_some_iff]
    constructor
    · rintro ⟨step, ⟨i, rfl, rfl⟩, h⟩
      exact ⟨.index i, rfl, h⟩
    · rintro ⟨step, rfl, h⟩
      cases step with
      | key k => cases h
      | index i => exact ⟨.index i, ⟨i, rfl, rfl⟩, h⟩
  | _ => simp [step?, Json.child?]

/-- **Evaluation is following the position the tokens write**, and nothing
more. -/
theorem evaluate_eq_some_iff {root value : Json} {tokens : List String} :
    evaluate root tokens = some value ↔
      ∃ p : Position, tokens = p.map Step.token ∧ root.at? p = some value := by
  induction tokens generalizing root with
  | nil =>
    constructor
    · exact fun h => ⟨[], rfl, h⟩
    · rintro ⟨p, hp, hat⟩
      obtain rfl := List.map_eq_nil_iff.mp hp.symm
      exact hat
  | cons token tokens ih =>
    rw [evaluate, List.foldlM_cons, Option.bind_eq_bind, Option.bind_eq_some_iff]
    constructor
    · rintro ⟨child, hchild, hrest⟩
      obtain ⟨step, rfl, hstep⟩ := descend_eq_some_iff.mp hchild
      obtain ⟨p, rfl, hp⟩ := ih.mp hrest
      exact ⟨step :: p, rfl, Option.bind_eq_some_iff.mpr ⟨child, hstep, hp⟩⟩
    · rintro ⟨p, hp, hat⟩
      cases p with
      | nil => cases hp
      | cons step p =>
        obtain ⟨rfl, rfl⟩ := List.cons.inj hp
        obtain ⟨child, hstep, hrest⟩ := Option.bind_eq_some_iff.mp hat
        exact ⟨child, descend_eq_some_iff.mpr ⟨step, rfl, hstep⟩, ih.mpr ⟨p, rfl, hrest⟩⟩

/-- A place further in is a place of a value inside. -/
theorem exists_child_of_isSome {current : Json} {s : Step} {p : Position}
    (h : (current.at? (s :: p)).isSome) :
    ∃ child, current.child? s = some child ∧ (child.at? p).isSome := by
  obtain ⟨value, hvalue⟩ := Option.isSome_iff_exists.mp h
  obtain ⟨child, hchild, hp⟩ := Option.bind_eq_some_iff.mp hvalue
  exact ⟨child, hchild, Option.isSome_of_mem hp⟩

/-- A place is where its own tokens lead. -/
theorem locate_of_isSome {root : Json} {p : Position} (h : (root.at? p).isSome) :
    locate root (p.map Step.token) = some p := by
  induction p generalizing root with
  | nil => rfl
  | cons step p ih =>
    obtain ⟨child, hchild, hp⟩ := exists_child_of_isSome h
    have hstep : step? root step.token = some step := by
      cases root with
      | obj fields =>
        cases step with
        | key k => rfl
        | index i => cases hchild
      | arr xs =>
        cases step with
        | key k => cases hchild
        | index i => exact congrArg (·.map Step.index) (index?_eq_some_iff.mpr rfl)
      | _ => cases hchild
    rw [List.map_cons, locate, hstep, Option.bind_some, hchild, Option.bind_some, ih hp]
    rfl

theorem locateFragment_of_tokens {root : Json} {fragment : String} {p : Position}
    (h : (root.at? p).isSome) (htokens : fragmentTokens fragment = some (p.map Step.token)) :
    locateFragment root fragment = some p := by
  rw [locateFragment, htokens, Option.bind_some, locate_of_isSome h]

theorem step_eq_of_token_eq {current : Json} {s s' : Step} (h : (current.child? s).isSome)
    (h' : (current.child? s').isSome) (htoken : s.token = s'.token) : s = s' := by
  cases current with
  | obj fields =>
    cases s with
    | key k =>
      cases s' with
      | key k' =>
        have hk : k = k' := htoken
        rw [hk]
      | index i => cases h'
    | index i => cases h
  | arr xs =>
    cases s with
    | key k => cases h
    | index i =>
      cases s' with
      | key k => cases h'
      | index i' =>
        have hi : index? (Step.index i).token = some i := index?_eq_some_iff.mpr rfl
        rw [index?_eq_some_iff.mpr htoken] at hi
        rw [Option.some.inj hi]
  | _ => cases h

/-- **Places of a document with one pointer are one place.** -/
theorem position_eq_of_tokens_eq {root : Json} {p q : Position} (hp : (root.at? p).isSome)
    (hq : (root.at? q).isSome) (htokens : p.map Step.token = q.map Step.token) : p = q := by
  induction p generalizing root q with
  | nil => exact (List.map_eq_nil_iff.mp htokens.symm).symm
  | cons s p ih =>
    cases q with
    | nil => cases htokens
    | cons s' q =>
      obtain ⟨htoken, hrest⟩ := List.cons.inj htokens
      obtain ⟨child, hchild, hp⟩ := exists_child_of_isSome hp
      obtain ⟨child', hchild', hq⟩ := exists_child_of_isSome hq
      obtain rfl := step_eq_of_token_eq (Option.isSome_of_mem hchild)
        (Option.isSome_of_mem hchild') htoken
      obtain rfl := Option.some.inj (hchild.symm.trans hchild')
      rw [ih hp hq hrest]

theorem fragmentTokens_fragmentOf (p : Position) :
    fragmentTokens (fragmentOf p) = some (p.map Step.token) := by
  rw [fragmentTokens, fragmentOf, Percent.decode_encode, Option.bind_some, parse_print]

/-- **The fragment of a position refers to the value there.** -/
theorem evaluateFragment_fragmentOf {root value : Json} {p : Position}
    (h : root.at? p = some value) : evaluateFragment root (fragmentOf p) = some value := by
  rw [evaluateFragment, fragmentTokens_fragmentOf, Option.bind_some]
  exact evaluate_eq_some_iff.mpr ⟨p, rfl, h⟩

end Pointer

end Congine
