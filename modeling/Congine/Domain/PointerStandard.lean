import Congine.Domain.PointerPlaces
/-!
# Local references and the standard

`resolvePointer` against the evaluation of the pointer a fragment spells.
A fragment is not percent-decoded and a `~` that begins no escape is left
as it stands, so a fragment that has either is read as other tokens, and
some document tells the two readings apart. On the fragments without them
the places the tokens name decide.
-/

namespace Congine

variable {root : Json} {tokens : List String} {p : Position}

/-! ## Tokens as they stand -/

/-- The tokens of a fragment as they stand in it. -/
def rawTokens (fragment : String) : Option (List String) :=
  if fragment = "" then some []
  else
    match fragment.toList with
    | '/' :: rest => some ((Text.split '/' (String.ofList rest)).map unescapePointerToken)
    | _ => none

theorem pointerTokens_fragment (fragment : String) :
    pointerTokens ("#" ++ fragment) = rawTokens fragment := by
  have hbody : ("#" ++ fragment).toList = '#' :: fragment.toList := by simp
  have hstart : Text.startsWith "#" ("#" ++ fragment) = true := Text.startsWith_append "#" fragment
  have hwhole : ("#" ++ fragment = "" ∨ "#" ++ fragment = "#") ↔ fragment = "" := by
    rw [← String.toList_inj, ← String.toList_inj, ← String.toList_inj, hbody]
    show '#' :: fragment.toList = [] ∨ '#' :: fragment.toList = ['#'] ↔ fragment.toList = []
    simp
  by_cases hnil : fragment = ""
  · rw [pointerTokens, if_pos (hwhole.mpr hnil), rawTokens, if_pos hnil]
  · rw [pointerTokens, if_neg (hwhole.not.mpr hnil), rawTokens, if_neg hnil, if_pos hstart, hbody]
    rfl

theorem resolvePointer_fragment (root : Json) (fragment : String) :
    resolvePointer root ("#" ++ fragment) =
      (rawTokens fragment).bind fun tokens => tokens.foldlM descend root := by
  rw [resolvePointer, pointerTokens_fragment]

/-- What is written with escapes is read back. -/
theorem unescapePointerToken_escape (token : String) :
    unescapePointerToken (Pointer.escape token) = token := by
  rw [unescapePointerToken, Pointer.escape, String.toList_ofList, ← String.toList_inj,
    String.toList_ofList]
  induction token.toList with
  | nil => rfl
  | cons c cs ih =>
    rw [List.flatMap_cons, Pointer.escapeChar]
    split_ifs with htilde hslash
    · subst htilde
      have hkeep : ∀ rest, Text.replacePair '~' '1' '/' ('~' :: '0' :: rest) =
          '~' :: '0' :: Text.replacePair '~' '1' '/' rest := by
        intro rest
        rw [Text.replacePair_cons_cons_of_ne '~' (by decide),
          Text.replacePair_cons_of_ne (by decide)]
      simp only [List.cons_append, List.nil_append]
      rw [hkeep, Text.replacePair_pair, ih]
    · subst hslash
      simp only [List.cons_append, List.nil_append]
      rw [Text.replacePair_pair, Text.replacePair_cons_of_ne (by decide), ih]
    · rw [List.singleton_append, Text.replacePair_cons_of_ne htilde,
        Text.replacePair_cons_of_ne htilde, ih]

/-- Where the fragment is the text of a pointer, its tokens are those of the
pointer. -/
theorem rawTokens_of_parse {fragment : String} {tokens : List String}
    (h : Pointer.parse fragment = some tokens) : rawTokens fragment = some tokens := by
  obtain rfl := Pointer.parse_eq_some_iff.mp h
  by_cases hnil : tokens = []
  · simp [hnil, Pointer.print, rawTokens]
  · have hne : Pointer.print tokens ≠ "" := by
      rw [Ne, ← String.toList_inj, Pointer.toList_print hnil]
      exact List.cons_ne_nil _ _
    rw [rawTokens, if_neg hne, Pointer.toList_print hnil]
    simp only [String.ofList_toList, Pointer.split_escaped hnil, List.map_map]
    simp [Function.comp_def, unescapePointerToken_escape]

theorem rawTokens_eq_none {fragment : String} (hne : fragment ≠ "")
    (h : Text.startsWith "/" fragment = false) : rawTokens fragment = none := by
  rw [rawTokens, if_neg hne]
  split
  · rename_i rest hrest
    rw [Text.startsWith, hrest] at h
    cases h
  · rfl

/-- A fragment that begins like a pointer is texts after a `/` each. -/
theorem exists_texts_of_startsWith {fragment : String} (h : Text.startsWith "/" fragment = true) :
    ∃ texts, fragment = Pointer.slashed texts ∧
      rawTokens fragment = some (texts.map unescapePointerToken) := by
  obtain ⟨rest, hrest⟩ := Text.startsWith_iff.mp h
  have hcs : fragment.toList = '/' :: rest := hrest.symm
  have hne : fragment ≠ "" := by
    rintro rfl
    cases hcs
  refine ⟨Text.split '/' (String.ofList rest), ?_, ?_⟩
  · rw [← String.toList_inj, Pointer.toList_slashed_split, String.toList_ofList, hcs]
  · rw [rawTokens, if_neg hne, hcs]
    rfl

/-! ## Reading a fragment in two ways -/

/-- Writing a token that was read with escapes left standing does not
shorten it. -/
theorem length_le_escape_unescapePointerToken (text : String) :
    text.toList.length ≤ (Pointer.escape (unescapePointerToken text)).toList.length := by
  rw [Pointer.escape, unescapePointerToken, String.toList_ofList, String.toList_ofList,
    List.length_flatMap]
  -- Halfway a `/` weighs the two characters it is written with.
  have hslash : (text.toList.map fun _ => 1).sum ≤
      ((Text.replacePair '~' '1' '/' text.toList).map fun c => if c = '/' then 2 else 1).sum :=
    Text.sum_le_sum_replacePair (by decide) (fun c => by split_ifs <;> omega) _
  have htilde : ∀ cs : List Char, (cs.map fun c => if c = '/' then 2 else 1).sum ≤
      ((Text.replacePair '~' '0' '~' cs).map fun c => (Pointer.escapeChar c).length).sum :=
    Text.sum_le_sum_replacePair (by decide) fun c => by
      by_cases hc : c = '/'
      · rw [hc]
        decide
      · rw [if_neg hc, Pointer.escapeChar, if_neg hc]
        split_ifs
        · decide
        · exact le_rfl
  rw [List.map_const', List.sum_replicate_nat, Nat.mul_one] at hslash
  exact hslash.trans (htilde _)

theorem length_slashed_le (f : String → String)
    (h : ∀ text, text.toList.length ≤ (f text).toList.length) (texts : List String) :
    (Pointer.slashed texts).toList.length ≤ (Pointer.slashed (texts.map f)).toList.length := by
  induction texts with
  | nil => exact le_rfl
  | cons text texts ih =>
    have htext := h text
    simp only [List.map_cons, Pointer.slashed_cons, String.toList_append, List.length_append]
    omega

/-- **A percent sign is read differently**: as it stands, or with the two
digits after it. -/
theorem rawTokens_ne_of_percent {fragment : String} {tokens : List String}
    (hpercent : '%' ∈ fragment.toList) (hraw : rawTokens fragment = some tokens) :
    Pointer.fragmentTokens fragment ≠ some tokens := by
  intro h
  obtain ⟨text, hdecode, hparse⟩ := Option.bind_eq_some_iff.mp h
  have hshorter := Percent.length_lt_of_decode hdecode hpercent
  have hstart : Text.startsWith "/" fragment = true := by
    by_contra hno
    have hne : fragment ≠ "" := by
      rintro rfl
      exact absurd hpercent List.not_mem_nil
    rw [rawTokens_eq_none hne (by simpa using hno)] at hraw
    cases hraw
  obtain ⟨texts, rfl, hmap⟩ := exists_texts_of_startsWith hstart
  obtain rfl := Option.some.inj (hraw.symm.trans hmap)
  obtain rfl := Pointer.parse_eq_some_iff.mp hparse
  have hle := length_slashed_le (Pointer.escape ∘ unescapePointerToken)
    length_le_escape_unescapePointerToken texts
  rw [Pointer.print, List.map_map] at hshorter
  omega

/-! ## When a fragment resolves as the standard says -/

/-- The reference is resolved to what the fragment refers to. -/
def Conforms (root : Json) (fragment : String) : Prop :=
  resolvePointer root ("#" ++ fragment) = Pointer.evaluateFragment root fragment

/-- The text of a pointer with no percent sign in it, or no fragment of a
pointer and not even begun like one. -/
def PlainFragment (fragment : String) : Prop :=
  ('%' ∉ fragment.toList ∧ (Pointer.parse fragment).isSome) ∨
    (Text.startsWith "/" fragment = false ∧ Pointer.fragmentTokens fragment = none)

theorem fragmentTokens_of_not_mem {fragment : String} (h : '%' ∉ fragment.toList) :
    Pointer.fragmentTokens fragment = Pointer.parse fragment := by
  rw [Pointer.fragmentTokens, Percent.decode_of_not_mem h, Option.bind_some]

/-- On the text of a pointer the places of the document decide. -/
theorem conforms_iff_of_parse {fragment : String} (hpercent : '%' ∉ fragment.toList)
    (hparse : Pointer.parse fragment = some tokens) :
    Conforms root fragment ↔ NamedCanonically root tokens := by
  rw [Conforms, resolvePointer_fragment, rawTokens_of_parse hparse, Pointer.evaluateFragment,
    fragmentTokens_of_not_mem hpercent, hparse, Option.bind_some, Option.bind_some]
  exact foldlM_descend_eq_evaluate_iff

/-- **In one document**: a plain fragment is resolved as the standard says
exactly where its tokens name places only canonically. -/
theorem conforms_iff_of_plain {fragment : String} (h : PlainFragment fragment) :
    Conforms root fragment ↔
      ∀ tokens, Pointer.parse fragment = some tokens → NamedCanonically root tokens := by
  rcases h with ⟨hpercent, hsome⟩ | ⟨hstart, hnone⟩
  · obtain ⟨tokens, hparse⟩ := Option.isSome_iff_exists.mp hsome
    rw [conforms_iff_of_parse hpercent hparse, hparse]
    simp
  · have hne : fragment ≠ "" := by
      rintro rfl
      exact absurd hnone (by decide)
    have hraw := rawTokens_eq_none hne hstart
    have hparse : Pointer.parse fragment = none := by
      rw [Option.eq_none_iff_forall_ne_some]
      intro tokens hparse
      cases hraw.symm.trans (rawTokens_of_parse hparse)
    rw [Conforms, resolvePointer_fragment, hraw, Pointer.evaluateFragment, hnone, hparse]
    simp

/-- A fragment that is not plain is read as other tokens, or as tokens where
it has none. -/
theorem rawTokens_ne_fragmentTokens {fragment : String} (h : ¬ PlainFragment fragment) :
    rawTokens fragment ≠ Pointer.fragmentTokens fragment := by
  intro heq
  rcases hraw : rawTokens fragment with _ | tokens
  · have hstart : Text.startsWith "/" fragment = false := by
      by_contra hstart
      obtain ⟨texts, -, hsome⟩ := exists_texts_of_startsWith (by simpa using hstart)
      cases hraw.symm.trans hsome
    exact h (.inr ⟨hstart, heq.symm.trans hraw⟩)
  · by_cases hpercent : '%' ∈ fragment.toList
    · exact rawTokens_ne_of_percent hpercent hraw (heq.symm.trans hraw)
    · have hparse : Pointer.parse fragment = some tokens := by
        rw [← fragmentTokens_of_not_mem hpercent, ← heq, hraw]
      exact h (.inl ⟨hpercent, Option.isSome_of_mem hparse⟩)

/-- And then some document tells the two readings apart. -/
theorem exists_not_conforms {fragment : String} (h : ¬ PlainFragment fragment) :
    ∃ root, ¬ Conforms root fragment := by
  have hne := rawTokens_ne_fragmentTokens h
  rcases hraw : rawTokens fragment with _ | tokens
  · obtain ⟨tokens, htokens⟩ := Option.ne_none_iff_exists'.mp (hraw ▸ hne).symm
    refine ⟨nest tokens, fun hconforms => ?_⟩
    rw [Conforms, resolvePointer_fragment, hraw, Pointer.evaluateFragment, htokens,
      Option.bind_some, evaluate_nest] at hconforms
    cases hconforms
  · refine ⟨nest tokens, fun hconforms => ?_⟩
    rw [Conforms, resolvePointer_fragment, hraw, Option.bind_some, foldlM_descend_nest] at hconforms
    obtain ⟨tokens', htokens', hvalue⟩ := Option.bind_eq_some_iff.mp hconforms.symm
    obtain rfl := eq_of_evaluate_nest hvalue
    exact hne (hraw.trans htokens'.symm)

/-- A position whose fragment needs no percent sign is where the reference
to it leads. -/
theorem resolvePointer_fragmentOf {value : Json} (hvalue : root.at? p = some value)
    (hread : ∀ i, Step.index i ∈ p → i < 10 ^ Text.maxIntDigits)
    (hpercent : '%' ∉ (Pointer.fragmentOf p).toList) :
    resolvePointer root ("#" ++ Pointer.fragmentOf p) = some value := by
  have hplace : (root.at? p).isSome := Option.isSome_of_mem hvalue
  have hparse : Pointer.parse (Pointer.fragmentOf p) = some (p.map Step.token) := by
    rw [← fragmentTokens_of_not_mem hpercent, Pointer.fragmentTokens_fragmentOf]
  have hnamed : NamedCanonically root (p.map Step.token) := by
    constructor
    · intro q hq
      rw [hq.eq_of_tokens hplace rfl]
    · intro q hq htokens
      rw [← Pointer.position_eq_of_tokens_eq hplace hq htokens]
      exact hread
  rw [(conforms_iff_of_parse hpercent hparse).mpr hnamed]
  exact Pointer.evaluateFragment_fragmentOf hvalue

/-- **When references follow the standard.** In every document: those of a
plain fragment whose tokens are all read alike. In one document: a plain
fragment exactly where its tokens name places only canonically. So the
fragment of a place leads there if it has no percent sign and its indices
can be read. -/
theorem resolvePointer_conforms_iff (fragment : String) :
    ((∀ root, Conforms root fragment) ↔ PlainFragment fragment ∧
        ∀ tokens, Pointer.parse fragment = some tokens → ∀ token ∈ tokens, ReadAlike token) ∧
      (PlainFragment fragment → ∀ root, Conforms root fragment ↔
        ∀ tokens, Pointer.parse fragment = some tokens → NamedCanonically root tokens) ∧
      ∀ root p value, fragment = Pointer.fragmentOf p → root.at? p = some value →
        (∀ i, Step.index i ∈ p → i < 10 ^ Text.maxIntDigits) → '%' ∉ fragment.toList →
          resolvePointer root ("#" ++ fragment) = some value := by
  refine ⟨⟨fun hall => ?_, ?_⟩, fun hplain root => conforms_iff_of_plain hplain, ?_⟩
  · have hplain : PlainFragment fragment := by
      by_contra hno
      obtain ⟨root, hroot⟩ := exists_not_conforms hno
      exact hroot (hall root)
    refine ⟨hplain, fun tokens hparse token hmem => ?_⟩
    by_contra hno
    obtain ⟨front, back, rfl⟩ := List.append_of_mem hmem
    obtain ⟨root, hroot⟩ := exists_not_namedCanonically hno front back
    exact hroot ((conforms_iff_of_plain hplain).mp (hall root) _ hparse)
  · rintro ⟨hplain, halike⟩ root
    exact (conforms_iff_of_plain hplain).mpr fun tokens hparse =>
      namedCanonically_of_readAlike (halike tokens hparse) root
  · rintro root p value rfl hvalue hread hpercent
    exact resolvePointer_fragmentOf hvalue hread hpercent

/-- A key that is percent-encoded is not found, and an element is found
from the end. -/
theorem resolvePointer_not_conforms :
    let root : Json := .obj [("a b", .int 1), ("items", .arr [.int 2])]
    (resolvePointer root "#/a%20b" = none ∧
        Pointer.evaluateFragment root "/a%20b" = some (.int 1)) ∧
      resolvePointer root "#/items/-1" = some (.int 2) ∧
        Pointer.evaluateFragment root "/items/-1" = none := by
  decide +kernel

end Congine
