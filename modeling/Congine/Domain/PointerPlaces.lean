import Congine.Common.JsonPointer
import Congine.Domain.Reference
/-!
# The places tokens name

Following the tokens of a local reference against following those of a
JSON pointer. On an object the two go the same way; on an array a token
is read by the permissive integer reader, so that signs, blanks, leading
zeros and counting from the end are accepted. In one document they agree
exactly where the tokens name places only as pointers do, and in every
document exactly where each token is read alike.
-/

namespace Congine

/-! ## Naming places -/

/-- The place of a document that tokens name, where a token on an array is
read as an integer and counts from the end below zero. -/
inductive Names : Json → List String → Position → Prop
  | here {current : Json} : Names current [] []
  | member {fields : List (String × Json)} {k : String} {child : Json} {tokens : List String}
      {p : Position} :
      fields.lookup k = some child → Names child tokens p →
      Names (.obj fields) (k :: tokens) (.key k :: p)
  | element {xs : List Json} {token : String} {i : ℕ} {child : Json} {tokens : List String}
      {p : Position} :
      xs[i]? = some child →
      Text.parseInt token = some (i : ℤ) ∨ Text.parseInt token = some ((i : ℤ) - xs.length) →
      Names child tokens p → Names (.arr xs) (token :: tokens) (.index i :: p)

variable {root : Json} {tokens : List String} {p : Position}

theorem listIndex?_eq_some_iff {n j : ℕ} {i : ℤ} :
    listIndex? n i = some j ↔ j < n ∧ (i = j ∨ i = j - n) := by
  simp only [listIndex?]
  split_ifs with hsign hrange hrange
  · rw [Option.some.injEq]
    omega
  · simp only [false_iff]
    omega
  · rw [Option.some.injEq]
    omega
  · simp only [false_iff]
    omega

/-- **The loop stands where the tokens name.** -/
theorem follow_eq_some_iff : follow root tokens = some p ↔ Names root tokens p := by
  induction tokens generalizing root p with
  | nil =>
    constructor
    · intro h
      obtain rfl := Option.some.inj h
      exact .here
    · intro h
      cases h
      rfl
  | cons token tokens ih =>
    simp only [follow, Option.bind_eq_some_iff, Option.map_eq_some_iff, ih]
    constructor
    · rintro ⟨step, hstep, child, hchild, rest, hrest, rfl⟩
      cases root with
      | obj fields =>
        obtain rfl := Option.some.inj hstep
        exact .member hchild hrest
      | arr xs =>
        simp only [pointerStep?, Option.map_eq_some_iff, Option.bind_eq_some_iff] at hstep
        obtain ⟨i, ⟨n, hread, hindex⟩, rfl⟩ := hstep
        obtain ⟨-, hn⟩ := listIndex?_eq_some_iff.mp hindex
        refine .element hchild ?_ hrest
        rcases hn with rfl | rfl
        · exact .inl hread
        · exact .inr hread
      | _ => cases hstep
    · intro h
      cases h with
      | member hchild hrest => exact ⟨_, rfl, _, hchild, _, hrest, rfl⟩
      | @element xs _ i _ _ _ hchild hread hrest =>
        have hi : i < xs.length := (List.getElem?_eq_some_iff.mp hchild).1
        refine ⟨.index i, ?_, _, hchild, _, hrest, rfl⟩
        simp only [pointerStep?, Option.map_eq_some_iff, Option.bind_eq_some_iff, Step.index.injEq,
          exists_eq_right, listIndex?_eq_some_iff]
        rcases hread with hread | hread
        · exact ⟨i, hread, hi, .inl rfl⟩
        · exact ⟨i - xs.length, hread, hi, .inr rfl⟩

/-- What the loop returns is at the place the tokens name. -/
theorem foldlM_descend_eq_some_iff {value : Json} :
    tokens.foldlM descend root = some value ↔
      ∃ p, Names root tokens p ∧ root.at? p = some value := by
  simp only [foldlM_descend, Option.bind_eq_some_iff, follow_eq_some_iff]

theorem Names.isSome (h : Names root tokens p) : (root.at? p).isSome := by
  induction h with
  | here => rfl
  | @member fields k child _ _ hchild _ ih =>
    have hstep : (Json.obj fields).child? (.key k) = some child := hchild
    simpa [Json.at?, hstep] using ih
  | @element xs _ i child _ _ hchild _ _ ih =>
    have hstep : (Json.arr xs).child? (.index i) = some child := hchild
    simpa [Json.at?, hstep] using ih

/-! ## Where both readings of the tokens agree -/

/-- The tokens name places of the document only as their pointers do, and
no array index among those is too long to be read. -/
structure NamedCanonically (root : Json) (tokens : List String) : Prop where
  canonical : ∀ p, Names root tokens p → tokens = p.map Step.token
  readable : ∀ p, (root.at? p).isSome → tokens = p.map Step.token →
    ∀ i, Step.index i ∈ p → i < 10 ^ Text.maxIntDigits

/-- A place whose indices can be read is named by its own tokens. -/
theorem names_of_isSome (h : (root.at? p).isSome)
    (hread : ∀ i, Step.index i ∈ p → i < 10 ^ Text.maxIntDigits) :
    Names root (p.map Step.token) p := by
  induction p generalizing root with
  | nil => exact .here
  | cons step p ih =>
    obtain ⟨child, hchild, hp⟩ := Pointer.exists_child_of_isSome h
    have hrest := ih hp fun i hi => hread i (List.mem_cons_of_mem step hi)
    cases root with
    | obj fields =>
      cases step with
      | key k => exact .member hchild hrest
      | index i => cases hchild
    | arr xs =>
      cases step with
      | key k => cases hchild
      | index i =>
        refine .element hchild (.inl ?_) hrest
        exact (Text.parseInt_toString i).trans (if_pos (hread i List.mem_cons_self))
    | _ => cases hchild

/-- An index is read as itself, if it can be read. -/
theorem index_eq_of_read {n i j : ℕ} {token : String} (hi : i < n)
    (hread : Text.parseInt token = some (i : ℤ) ∨ Text.parseInt token = some ((i : ℤ) - n))
    (htoken : token = (Step.index j).token) : j < 10 ^ Text.maxIntDigits ∧ i = j := by
  have hself : Text.parseInt token = if j < 10 ^ Text.maxIntDigits then some (j : ℤ) else none :=
    htoken ▸ Text.parseInt_toString j
  by_cases hshort : j < 10 ^ Text.maxIntDigits
  · rw [if_pos hshort] at hself
    refine ⟨hshort, ?_⟩
    rcases hread with hread | hread
    · have heq := Option.some.inj (hself.symm.trans hread)
      omega
    · have heq := Option.some.inj (hself.symm.trans hread)
      omega
  · rw [if_neg hshort] at hself
    rcases hread with hread | hread
    · exact absurd (hself.symm.trans hread) nofun
    · exact absurd (hself.symm.trans hread) nofun

/-- And where it is, its indices can be read. -/
theorem Names.readable (h : Names root tokens p) (htokens : tokens = p.map Step.token) :
    ∀ i, Step.index i ∈ p → i < 10 ^ Text.maxIntDigits := by
  induction h with
  | here => exact fun i hi => absurd hi List.not_mem_nil
  | member _ _ ih =>
    intro i hi
    rcases List.mem_cons.mp hi with hi | hi
    · cases hi
    · exact ih (List.cons.inj htokens).2 i hi
  | @element _ _ j _ _ _ hchild hread _ ih =>
    intro i hi
    obtain ⟨htoken, hrest⟩ := List.cons.inj htokens
    rcases List.mem_cons.mp hi with hi | hi
    · obtain rfl := Step.index.inj hi
      exact (index_eq_of_read (List.getElem?_eq_some_iff.mp hchild).1 hread htoken).1
    · exact ih hrest i hi

/-- A place named in two ways is one place, if one of them is its pointer. -/
theorem Names.eq_of_tokens {q : Position} (h : Names root tokens p) (hq : (root.at? q).isSome)
    (htokens : tokens = q.map Step.token) : p = q := by
  induction h generalizing q with
  | here => exact (List.map_eq_nil_iff.mp htokens.symm).symm
  | @member fields k child _ _ hchild _ ih =>
    cases q with
    | nil => cases htokens
    | cons step q =>
      obtain ⟨htoken, hrest⟩ := List.cons.inj htokens
      obtain ⟨child', hchild', hq⟩ := Pointer.exists_child_of_isSome hq
      cases step with
      | index i => cases hchild'
      | key k' =>
        obtain rfl : k = k' := htoken
        obtain rfl := Option.some.inj (hchild.symm.trans hchild')
        rw [ih hq hrest]
  | @element xs token i child _ _ hchild hread _ ih =>
    cases q with
    | nil => cases htokens
    | cons step q =>
      obtain ⟨htoken, hrest⟩ := List.cons.inj htokens
      obtain ⟨child', hchild', hq⟩ := Pointer.exists_child_of_isSome hq
      cases step with
      | key k => cases hchild'
      | index j =>
        obtain ⟨-, rfl⟩ := index_eq_of_read (List.getElem?_eq_some_iff.mp hchild).1 hread htoken
        obtain rfl := Option.some.inj (hchild.symm.trans hchild')
        rw [ih hq hrest]

/-- **The loop agrees with the standard on tokens** exactly where these are
canonical. -/
theorem foldlM_descend_eq_evaluate_iff :
    tokens.foldlM descend root = Pointer.evaluate root tokens ↔ NamedCanonically root tokens := by
  constructor
  · intro h
    constructor
    · intro p hp
      obtain ⟨value, hvalue⟩ := Option.isSome_iff_exists.mp hp.isSome
      have hresolved := foldlM_descend_eq_some_iff.mpr ⟨p, hp, hvalue⟩
      rw [h] at hresolved
      obtain ⟨q, htokens, hq⟩ := Pointer.evaluate_eq_some_iff.mp hresolved
      rw [hp.eq_of_tokens (Option.isSome_of_mem hq) htokens]
      exact htokens
    · intro p hp htokens
      obtain ⟨value, hvalue⟩ := Option.isSome_iff_exists.mp hp
      have hevaluated := Pointer.evaluate_eq_some_iff.mpr ⟨p, htokens, hvalue⟩
      rw [← h] at hevaluated
      obtain ⟨q, hq, -⟩ := foldlM_descend_eq_some_iff.mp hevaluated
      obtain rfl := hq.eq_of_tokens hp htokens
      exact hq.readable htokens
  · intro h
    refine Option.ext fun value => ?_
    rw [foldlM_descend_eq_some_iff, Pointer.evaluate_eq_some_iff]
    constructor
    · rintro ⟨p, hp, hvalue⟩
      exact ⟨p, h.canonical p hp, hvalue⟩
    · rintro ⟨p, rfl, hvalue⟩
      have hp : (root.at? p).isSome := Option.isSome_of_mem hvalue
      exact ⟨p, names_of_isSome hp (h.readable p hp rfl), hvalue⟩

/-! ## Documents with one place -/

/-- A value under keys, the outermost first. -/
def nestIn (keys : List String) (value : Json) : Json :=
  keys.foldr (fun key inner => .obj [(key, inner)]) value

/-- A document with one place, named by the tokens. -/
def nest (tokens : List String) : Json := nestIn tokens .null

@[simp] theorem nest_cons (token : String) (tokens : List String) :
    nest (token :: tokens) = .obj [(token, nest tokens)] := rfl

theorem at?_nestIn (keys : List String) (value : Json) (p : Position) :
    (nestIn keys value).at? (keys.map .key ++ p) = value.at? p := by
  induction keys with
  | nil => rfl
  | cons key keys ih =>
    have hchild : (nestIn (key :: keys) value).child? (.key key) = some (nestIn keys value) := by
      simp [nestIn, Json.child?]
    rw [List.map_cons, List.cons_append, Json.at?, hchild]
    exact ih

theorem names_nestIn (keys : List String) {value : Json} (h : Names value tokens p) :
    Names (nestIn keys value) (keys ++ tokens) (keys.map .key ++ p) := by
  induction keys with
  | nil => exact h
  | cons key keys ih =>
    have hlookup : [(key, nestIn keys value)].lookup key = some (nestIn keys value) := by simp
    exact .member hlookup ih

theorem at?_nest (tokens : List String) : (nest tokens).at? (tokens.map .key) = some .null := by
  have h := at?_nestIn tokens .null []
  rwa [List.append_nil] at h

theorem names_nest (tokens : List String) : Names (nest tokens) tokens (tokens.map .key) := by
  have h : Names (nestIn tokens .null) (tokens ++ []) (tokens.map .key ++ []) :=
    names_nestIn tokens .here
  rwa [List.append_nil, List.append_nil] at h

theorem foldlM_descend_nest (tokens : List String) :
    tokens.foldlM descend (nest tokens) = some .null :=
  foldlM_descend_eq_some_iff.mpr ⟨_, names_nest tokens, at?_nest tokens⟩

theorem map_token_key (keys : List String) : (keys.map Step.key).map Step.token = keys := by
  simp [Function.comp_def, Step.token]

theorem tokens_of_at?_nest {tokens : List String} {p : Position}
    (h : (nest tokens).at? p = some .null) : tokens = p.map Step.token := by
  induction tokens generalizing p with
  | nil =>
    cases p with
    | nil => rfl
    | cons step p => cases h
  | cons token tokens ih =>
    cases p with
    | nil => cases h
    | cons step p =>
      obtain ⟨child, hchild, hp⟩ := Option.bind_eq_some_iff.mp h
      cases step with
      | index i => cases hchild
      | key k =>
        have hlookup : [(token, nest tokens)].lookup k = some child := hchild
        have hfound := Json.mem_of_lookup hlookup
        obtain ⟨rfl, rfl⟩ := Prod.mk.inj (List.mem_singleton.mp hfound)
        rw [ih hp]
        rfl

/-- The standard finds the place under its own tokens only. -/
theorem eq_of_evaluate_nest {tokens tokens' : List String}
    (h : Pointer.evaluate (nest tokens) tokens' = some .null) : tokens' = tokens := by
  obtain ⟨p, rfl, hp⟩ := Pointer.evaluate_eq_some_iff.mp h
  exact (tokens_of_at?_nest hp).symm

theorem evaluate_nest (tokens : List String) :
    Pointer.evaluate (nest tokens) tokens = some .null :=
  Pointer.evaluate_eq_some_iff.mpr ⟨_, (map_token_key tokens).symm, at?_nest tokens⟩

/-! ## Tokens every array reads alike -/

/-- The integer reader and the standard make the same index of a token. -/
def ReadAlike (token : String) : Prop :=
  Text.parseInt token = Option.map (fun i : ℕ => (i : ℤ)) (Pointer.index? token)

/-- Tokens read alike name places canonically in every document. -/
theorem namedCanonically_of_readAlike (h : ∀ token ∈ tokens, ReadAlike token) (root : Json) :
    NamedCanonically root tokens := by
  constructor
  · intro p hp
    induction hp with
    | here => rfl
    | member _ _ ih =>
      rw [List.map_cons, ← ih fun token hmem => h token (List.mem_cons_of_mem _ hmem)]
      rfl
    | @element xs token i _ _ _ hchild hread _ ih =>
      have hi : i < xs.length := (List.getElem?_eq_some_iff.mp hchild).1
      have hindex : Pointer.index? token = some i := by
        have halike : ReadAlike token := h token List.mem_cons_self
        rw [ReadAlike] at halike
        rcases hread with hread | hread
        · obtain ⟨j, hj, heq⟩ := Option.map_eq_some_iff.mp (halike.symm.trans hread)
          rw [hj, Int.ofNat_inj.mp heq]
        · obtain ⟨j, -, heq⟩ := Option.map_eq_some_iff.mp (halike.symm.trans hread)
          omega
      rw [List.map_cons, ← ih fun token hmem => h token (List.mem_cons_of_mem _ hmem),
        Pointer.index?_eq_some_iff.mp hindex]
      rfl
  · rintro p - rfl i hi
    have halike : ReadAlike (toString i) := h _ (List.mem_map_of_mem hi)
    by_contra hlarge
    rw [ReadAlike, Text.parseInt_toString, if_neg hlarge,
      Pointer.index?_eq_some_iff.mpr rfl] at halike
    cases halike

/-- An array in which one element goes on. -/
def arrayWith (n i : ℕ) (inner : Json) : Json := .arr ((List.replicate n .null).set i inner)

/-- A document in which a token among others stands on an array. -/
def nestArray (front : List String) (n i : ℕ) (back : List String) : Json :=
  nestIn front (arrayWith n i (nest back))

/-- Its place. -/
def nestPlace (front : List String) (i : ℕ) (back : List String) : Position :=
  front.map .key ++ .index i :: back.map .key

theorem map_token_nestPlace (front : List String) (i : ℕ) (back : List String) :
    (nestPlace front i back).map Step.token = front ++ toString i :: back := by
  rw [nestPlace, List.map_append, List.map_cons, map_token_key, map_token_key]
  rfl

theorem child?_arrayWith {n i : ℕ} (h : i < n) (inner : Json) :
    (arrayWith n i inner).child? (.index i) = some inner := by
  simp [arrayWith, Json.child?, h]

theorem isSome_nestPlace {n i : ℕ} (h : i < n) (front back : List String) :
    ((nestArray front n i back).at? (nestPlace front i back)).isSome := by
  rw [nestArray, nestPlace, at?_nestIn, Json.at?, child?_arrayWith h, Option.bind_some, at?_nest]
  rfl

theorem names_nestPlace {n i : ℕ} (h : i < n) {token : String}
    (hread : Text.parseInt token = some (i : ℤ) ∨ Text.parseInt token = some ((i : ℤ) - n))
    (front back : List String) :
    Names (nestArray front n i back) (front ++ token :: back) (nestPlace front i back) := by
  refine names_nestIn front (.element (child?_arrayWith h (nest back)) ?_ (names_nest back))
  rwa [List.length_set, List.length_replicate]

/-- **A token that is not read alike** leads to a place of some document that
it does not name canonically. -/
theorem exists_not_namedCanonically {token : String} (h : ¬ ReadAlike token)
    (front back : List String) : ∃ root, ¬ NamedCanonically root (front ++ token :: back) := by
  -- A place that is named otherwise than canonically.
  have hother : ∀ n i : ℕ, i < n → Pointer.index? token = none →
      Text.parseInt token = some (i : ℤ) ∨ Text.parseInt token = some ((i : ℤ) - n) →
        ¬ NamedCanonically (nestArray front n i back) (front ++ token :: back) := by
    intro n i hi hindex hread hnamed
    have htokens := hnamed.canonical _ (names_nestPlace hi hread front back)
    rw [map_token_nestPlace] at htokens
    have htoken := (List.cons.inj (List.append_cancel_left htokens)).1
    rw [Pointer.index?_eq_some_iff.mpr htoken] at hindex
    cases hindex
  rcases hindex : Pointer.index? token with _ | i
  · rcases hread : Text.parseInt token with _ | z
    · rw [ReadAlike, hindex, hread] at h
      exact absurd rfl h
    · rcases lt_or_ge z 0 with hz | hz
      · have hz' : z = ((0 : ℕ) : ℤ) - ((-z).toNat : ℤ) := by omega
        exact ⟨_, hother (-z).toNat 0 (by omega) hindex (.inr (hread.trans (congrArg some hz')))⟩
      · have hz' : z = (z.toNat : ℤ) := by omega
        exact ⟨_, hother (z.toNat + 1) z.toNat (by omega) hindex
          (.inl (hread.trans (congrArg some hz')))⟩
  · have htoken := Pointer.index?_eq_some_iff.mp hindex
    refine ⟨nestArray front (i + 1) i back, fun hnamed => h ?_⟩
    have hshort : i < 10 ^ Text.maxIntDigits := by
      refine hnamed.readable _ (isSome_nestPlace (Nat.lt_succ_self i) front back) ?_ i ?_
      · rw [map_token_nestPlace, htoken]
      · exact List.mem_append_right _ List.mem_cons_self
    rw [ReadAlike, hindex, htoken, Text.parseInt_toString, if_pos hshort]
    rfl

end Congine
