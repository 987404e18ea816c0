import Congine.Common.Chase
import Congine.Common.Json
import Congine.Common.Text
/-!
# Local references

A local reference is a JSON pointer into the document it stands in.
`resolvePointer` follows one to a value and `resolvePosition` to the
position of that value; `referenceCycle` follows `$ref` from pointer to
pointer until one repeats. Every pointer after the first is a `$ref` of
the document, so the chase ends within their number.
-/

namespace Congine

/-! ## Pointers -/

/-- `_unescape_pointer_token`: `~1` first, so that `~01` is `~1`. -/
def unescapePointerToken (token : String) : String :=
  String.ofList (Text.replacePair '~' '0' '~' (Text.replacePair '~' '1' '/' token.toList))

/-- The tokens of a pointer; `none` where its body does not start at `/`. -/
def pointerTokens (pointer : String) : Option (List String) :=
  if pointer = "" ∨ pointer = "#" then some []
  else
    let body := if Text.startsWith "#" pointer then pointer.toList.drop 1 else pointer.toList
    match body with
    | '/' :: rest => some ((Text.split '/' (String.ofList rest)).map unescapePointerToken)
    | _ => none

/-- The place `i` names in a list of `n`, counted from the end below zero. -/
def listIndex? (n : ℕ) (i : ℤ) : Option ℕ :=
  let j := if i < 0 then n + i else i
  if 0 ≤ j ∧ j < n then some j.toNat else none

/-- Where a token leads from a value. -/
def pointerStep? (current : Json) (token : String) : Option Step :=
  match current with
  | .obj _ => some (.key token)
  | .arr xs => ((Text.parseInt token).bind (listIndex? xs.length)).map .index
  | _ => none

/-- The value a token leads to. -/
def descend (current : Json) (token : String) : Option Json :=
  (pointerStep? current token).bind current.child?

/-- `_resolve_pointer`, with `none` for the sentinel of a missing target. -/
def resolvePointer (root : Json) (pointer : String) : Option Json :=
  (pointerTokens pointer).bind fun tokens => tokens.foldlM descend root

example : unescapePointerToken "a~01b~1" = "a~1b/" := by decide

example : (resolvePointer (.obj [("", .arr [.null, .str "x"])]) "#//-1").map (·.typeName) =
    some "str" := by decide

/-- The position a list of tokens leads to. -/
def follow : Json → List String → Option Position
  | _, [] => some []
  | current, token :: tokens =>
      (pointerStep? current token).bind fun step =>
        (current.child? step).bind fun child => (follow child tokens).map (step :: ·)

/-- The position of a pointer's target. -/
def resolvePosition (root : Json) (pointer : String) : Option Position :=
  (pointerTokens pointer).bind (follow root)

theorem foldlM_descend (root : Json) (tokens : List String) :
    tokens.foldlM descend root = (follow root tokens).bind root.at? := by
  -- The loop keeps the value reached; `follow` keeps the way to it.
  induction tokens generalizing root with
  | nil => simp [follow]
  | cons token tokens ih =>
    rw [List.foldlM_cons, follow, descend]
    cases hs : pointerStep? root token with
    | none => simp
    | some step =>
      cases hc : root.child? step with
      | none => simp [hc]
      | some child =>
        simp only [Option.bind_some, hc, ih, Option.bind_eq_bind]
        cases follow child tokens with
        | none => simp
        | some p => simp [Json.at?, hc]

/-- **A pointer's target is the value at its position.** -/
theorem resolvePointer_eq (root : Json) (pointer : String) :
    resolvePointer root pointer = (resolvePosition root pointer).bind root.at? := by
  rw [resolvePointer, resolvePosition]
  cases pointerTokens pointer with
  | none => rfl
  | some tokens => exact foldlM_descend root tokens

/-! ## The references of a document -/

/-- The `$ref` of a node, where it is a string. -/
def refOf (node : Json) : Option String :=
  match node.get? "$ref" with
  | some (.str ref) => some ref
  | _ => none

mutual

/-- Every string standing under a key `$ref`, wherever in the document. -/
def refStrings : Json → List String
  | .arr xs => refStringsArr xs
  | .obj fs => (refOf (.obj fs)).toList ++ refStringsObj fs
  | _ => []

def refStringsArr : List Json → List String
  | [] => []
  | x :: xs => refStrings x ++ refStringsArr xs

def refStringsObj : List (String × Json) → List String
  | [] => []
  | (_, x) :: fs => refStrings x ++ refStringsObj fs

end

theorem refStrings_subset_arr {x : Json} : ∀ {xs : List Json}, x ∈ xs →
    refStrings x ⊆ refStringsArr xs
  | y :: ys, h => by
    rw [refStringsArr]
    rcases List.mem_cons.mp h with rfl | h
    · exact List.subset_append_left _ _
    · exact List.Subset.trans (refStrings_subset_arr h) (List.subset_append_right _ _)

theorem refStrings_subset_obj {k : String} {x : Json} : ∀ {fs : List (String × Json)},
    (k, x) ∈ fs → refStrings x ⊆ refStringsObj fs
  | (k', y) :: ys, h => by
    rw [refStringsObj]
    rcases List.mem_cons.mp h with heq | h
    · rw [(Prod.mk.inj heq).2]
      exact List.subset_append_left _ _
    · exact List.Subset.trans (refStrings_subset_obj h) (List.subset_append_right _ _)

theorem refStrings_subset_of_child? {j c : Json} {s : Step} (h : j.child? s = some c) :
    refStrings c ⊆ refStrings j := by
  cases j with
  | obj fs =>
    cases s with
    | key k =>
      rw [refStrings]
      exact List.Subset.trans (refStrings_subset_obj (Json.mem_of_lookup h))
        (List.subset_append_right _ _)
    | index i => cases h
  | arr xs =>
    cases s with
    | key k => cases h
    | index i =>
      rw [refStrings]
      exact refStrings_subset_arr (List.mem_of_getElem? h)
  | _ => cases h

theorem refStrings_subset_of_at? {j c : Json} {p : Position} (h : j.at? p = some c) :
    refStrings c ⊆ refStrings j := by
  induction p generalizing j with
  | nil =>
    obtain rfl := Option.some.inj h
    exact List.Subset.refl _
  | cons s p ih =>
    obtain ⟨d, hd, hc⟩ := Option.bind_eq_some_iff.mp h
    exact List.Subset.trans (ih hc) (refStrings_subset_of_child? hd)

/-- The reference of a node is one of the document's. -/
theorem mem_refStrings {root node : Json} {p : Position} {ref : String}
    (hp : root.at? p = some node) (href : refOf node = some ref) : ref ∈ refStrings root := by
  refine refStrings_subset_of_at? hp ?_
  cases node with
  | obj fs =>
    rw [refStrings, href]
    simp
  | _ => cases href

/-! ## Cycles -/

/-- The local reference standing at a pointer's target. -/
def nextReference (root : Json) (pointer : String) : Option String :=
  (resolvePointer root pointer).bind fun target =>
    (refOf target).filter fun next => Text.startsWith "#" next

/-- `_reference_cycle`: following `$ref` from `start` comes back to a
pointer. The fuel is never used up (`referenceCycle_isSome`). -/
def referenceCycle (root : Json) (start : String) : Bool :=
  chase (nextReference root) ((refStrings root).length + 2) [] start == some true

theorem nextReference_mem {root : Json} {pointer next : String}
    (h : nextReference root pointer = some next) : next ∈ refStrings root := by
  obtain ⟨target, htarget, hnext⟩ := Option.bind_eq_some_iff.mp h
  rw [resolvePointer_eq] at htarget
  obtain ⟨p, -, hp⟩ := Option.bind_eq_some_iff.mp htarget
  exact mem_refStrings hp (Option.filter_eq_some_iff.mp hnext).1

/-- **Following references ends**, in an answer. -/
theorem referenceCycle_isSome (root : Json) (start : String) :
    (chase (nextReference root) ((refStrings root).length + 2) [] start).isSome :=
  chase_isSome (fun _ _ h => nextReference_mem h) le_rfl start

/-- **An endless chain of references is reported as a cycle.** -/
theorem referenceCycle_of_live {root : Json} (Live : String → Prop)
    (hlive : ∀ ref, Live ref → ∃ next, nextReference root ref = some next ∧ Live next)
    {start : String} (hstart : Live start) : referenceCycle root start = true := by
  rw [referenceCycle, chase_eq_true (fun _ _ h => nextReference_mem h) hlive le_rfl hstart]
  rfl

/-- From each pointer to the local `$ref` string at its target. -/
def ReferenceChain (root : Json) (chain : ℕ → String) : Prop :=
  ∀ n, ∃ target, resolvePointer root (chain n) = some target ∧
    target.get? "$ref" = some (.str (chain (n + 1))) ∧
    Text.startsWith "#" (chain (n + 1)) = true

theorem refOf_eq_some_iff {node : Json} {ref : String} :
    refOf node = some ref ↔ node.get? "$ref" = some (.str ref) := by
  unfold refOf
  split
  · rename_i found hfound
    rw [hfound, Option.some.injEq, Option.some.injEq, Json.str.injEq]
  · rename_i hnone
    exact ⟨nofun, fun h => absurd h (hnone ref)⟩

theorem nextReference_eq_some_iff {root : Json} {pointer next : String} :
    nextReference root pointer = some next ↔ ∃ target, resolvePointer root pointer = some target ∧
      target.get? "$ref" = some (.str next) ∧ Text.startsWith "#" next = true := by
  simp only [nextReference, Option.bind_eq_some_iff, Option.filter_eq_some_iff, refOf_eq_some_iff]

/-- **The walk along references is exact**: it ends within the references
of the document, whatever pointer it starts from, and reports a cycle
exactly where the chain of references never ends. -/
theorem referenceCycle_exact (root : Json) (start : String) :
    (∀ fuel, (refStrings root).length + 2 ≤ fuel →
        chase (nextReference root) fuel [] start = some (referenceCycle root start)) ∧
      (referenceCycle root start = true ↔
        ∃ chain : ℕ → String, chain 0 = start ∧ ReferenceChain root chain) := by
  have hnext : ∀ pointer next, nextReference root pointer = some next → next ∈ refStrings root :=
    fun _ _ h => nextReference_mem h
  constructor
  · intro fuel hfuel
    rw [chase_eq_of_fuel hnext hfuel le_rfl]
    obtain ⟨found, hfound⟩ := Option.isSome_iff_exists.mp (referenceCycle_isSome root start)
    rw [referenceCycle, hfound]
    cases found with
    | true => rfl
    | false => rfl
  · have hendless : referenceCycle root start = true ↔ Endless (nextReference root) start := by
      rw [referenceCycle, beq_iff_eq]
      exact chase_eq_true_iff hnext le_rfl
    rw [hendless]
    simp only [Endless, ReferenceChain, nextReference_eq_some_iff]

end Congine
