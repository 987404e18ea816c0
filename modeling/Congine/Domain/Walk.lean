import Congine.Common.Json
import Congine.Domain.Vocabulary
/-!
# The structural walk

`walk` visits a schema and every subschema beneath it through the
keywords whose value is a schema, a list of schemas or a map of them.
What a visit is labelled with is a parameter: the admission checks label
it with the path they report, the proofs with its position. `Visited` is
the walk as a relation, and `mem_subschemas` says the two agree.
-/

namespace Congine

/-- Keywords whose value is itself a schema. -/
def schemaValued : List String :=
  ["items", "contains", "not", "if", "then", "else", "propertyNames", "additionalProperties",
    "unevaluatedItems", "unevaluatedProperties"]

/-- Keywords whose value is a list of schemas. -/
def schemaListValued : List String := ["allOf", "anyOf", "oneOf", "prefixItems"]

/-- Keywords whose value maps names to schemas. -/
def schemaMapValued : List String :=
  ["properties", "patternProperties", "$defs", "definitions", "dependentSchemas"]

/-! ## The sites below a node -/

/-- The object under a keyword. -/
def valuedSites (node : Json) (keyword : String) : List (Position × Json) :=
  match node.get? keyword with
  | some child => if child.isObj then [([.key keyword], child)] else []
  | none => []

/-- The elements of the list under a keyword. -/
def listSites (node : Json) (keyword : String) : List (Position × Json) :=
  match node.get? keyword with
  | some (.arr children) =>
      children.zipIdx.map fun (child, index) => ([.key keyword, .index index], child)
  | _ => []

/-- The members of the object under a keyword. -/
def mapSites (node : Json) (keyword : String) : List (Position × Json) :=
  match node.get? keyword with
  | some (.obj children) =>
      children.map fun (name, child) => ([.key keyword, .key name], child)
  | _ => []

/-- The places right below a node the walk looks at, in its order. -/
def subschemaSites (node : Json) : List (Position × Json) :=
  schemaValued.flatMap (valuedSites node) ++ schemaListValued.flatMap (listSites node) ++
    schemaMapValued.flatMap (mapSites node) ++
    -- `items` may be a list in draft 4 to 2019-09.
    listSites node "items"

theorem mem_valuedSites {node child : Json} {keyword : String} {steps : Position} :
    (steps, child) ∈ valuedSites node keyword ↔
      steps = [.key keyword] ∧ node.get? keyword = some child ∧ child.isObj = true := by
  rw [valuedSites]
  cases hc : node.get? keyword with
  | none => simp
  | some c =>
    simp only [Option.some.injEq]
    by_cases hobj : c.isObj = true
    · rw [if_pos hobj, List.mem_singleton, Prod.mk.injEq]
      constructor
      · rintro ⟨rfl, rfl⟩
        exact ⟨rfl, rfl, hobj⟩
      · rintro ⟨rfl, rfl, -⟩
        exact ⟨rfl, rfl⟩
    · rw [if_neg hobj]
      simp only [List.not_mem_nil, false_iff]
      rintro ⟨-, rfl, h⟩
      exact hobj h

theorem mem_listSites {node child : Json} {keyword : String} {steps : Position} :
    (steps, child) ∈ listSites node keyword ↔
      ∃ children i, node.get? keyword = some (.arr children) ∧ children[i]? = some child ∧
        steps = [.key keyword, .index i] := by
  rw [listSites]
  split
  · next children heq =>
    simp only [heq, List.mem_map, Prod.mk.injEq, Prod.exists, List.mem_zipIdx_iff_getElem?]
    constructor
    · rintro ⟨c, i, hc, rfl, rfl⟩
      exact ⟨children, i, rfl, hc, rfl⟩
    · rintro ⟨_, i, h, hc, rfl⟩
      obtain rfl := Json.arr.inj (Option.some.inj h)
      exact ⟨child, i, hc, rfl, rfl⟩
  · next hne =>
    simp only [List.not_mem_nil, false_iff]
    rintro ⟨children, _, heq, -⟩
    exact hne children heq

theorem mem_mapSites {node child : Json} {keyword : String} {steps : Position} :
    (steps, child) ∈ mapSites node keyword ↔
      ∃ children name, node.get? keyword = some (.obj children) ∧ (name, child) ∈ children ∧
        steps = [.key keyword, .key name] := by
  rw [mapSites]
  split
  · next children heq =>
    simp only [heq, List.mem_map, Prod.mk.injEq, Prod.exists]
    constructor
    · rintro ⟨name, c, hc, rfl, rfl⟩
      exact ⟨children, name, rfl, hc, rfl⟩
    · rintro ⟨_, name, h, hc, rfl⟩
      obtain rfl := Json.obj.inj (Option.some.inj h)
      exact ⟨name, child, hc, rfl, rfl⟩
  · next hne =>
    simp only [List.not_mem_nil, false_iff]
    rintro ⟨children, _, heq, -⟩
    exact hne children heq

/-- **The sites of a node**: one case for each kind of schema-bearing
keyword. -/
theorem mem_subschemaSites {node child : Json} {steps : Position} :
    (steps, child) ∈ subschemaSites node ↔
      (∃ keyword ∈ schemaValued, (steps, child) ∈ valuedSites node keyword) ∨
      (∃ keyword ∈ "items" :: schemaListValued, (steps, child) ∈ listSites node keyword) ∨
      ∃ keyword ∈ schemaMapValued, (steps, child) ∈ mapSites node keyword := by
  simp only [subschemaSites, List.mem_append, List.mem_flatMap, List.exists_mem_cons_iff]
  constructor
  · rintro (((h | h) | h) | h)
    · exact .inl h
    · exact .inr (.inl (.inr h))
    · exact .inr (.inr h)
    · exact .inr (.inl (.inl h))
  · rintro (h | (h | h) | h)
    · exact .inl (.inl (.inl h))
    · exact .inr h
    · exact .inl (.inl (.inr h))
    · exact .inl (.inr h)

/-- A site lies inside its node. -/
theorem depth_lt_of_mem_subschemaSites {node child : Json} {steps : Position}
    (h : (steps, child) ∈ subschemaSites node) : child.depth < node.depth := by
  have inside : ∀ {keyword : String} {c : Json}, node.get? keyword = some c →
      c.depth < node.depth := by
    intro keyword c hc
    rw [← Json.at?_key] at hc
    exact Json.depth_lt_of_at? hc
  rcases mem_subschemaSites.mp h with ⟨k, -, h⟩ | ⟨k, -, h⟩ | ⟨k, -, h⟩
  · exact inside (mem_valuedSites.mp h).2.1
  · obtain ⟨children, i, heq, hmem, -⟩ := mem_listSites.mp h
    have := inside heq
    have := Json.depth_le_depthArr (List.mem_of_getElem? hmem)
    simp only [Json.depth] at *
    omega
  · obtain ⟨children, name, heq, hmem, -⟩ := mem_mapSites.mp h
    have := inside heq
    have := Json.depth_le_depthObj hmem
    simp only [Json.depth] at *
    omega

/-! ## The walk -/

section Walk

variable {π : Type*} (extend : π → Position → π)

/-- The labelled subschemas of a node, the node itself first. -/
def walk (label : π) (node : Json) : List (π × Json) :=
  if node.isObj then
    (label, node) :: (subschemaSites node).attach.flatMap fun ⟨(steps, child), _h⟩ =>
      walk (extend label steps) child
  else []
termination_by node.depth
decreasing_by exact depth_lt_of_mem_subschemaSites _h

variable {extend}

theorem mem_walk {label l : π} {node n : Json} :
    (l, n) ∈ walk extend label node ↔
      node.isObj = true ∧ (l = label ∧ n = node ∨ ∃ steps child,
        (steps, child) ∈ subschemaSites node ∧
          (l, n) ∈ walk extend (extend label steps) child) := by
  rw [walk]
  split
  · next hobj =>
    simp only [List.mem_cons, Prod.mk.injEq, List.mem_flatMap, List.mem_attach, true_and,
      Subtype.exists, Prod.exists, hobj]
    constructor
    · rintro (h | ⟨steps, child, hs, h⟩)
      · exact .inl h
      · exact .inr ⟨steps, child, hs, h⟩
    · rintro (h | ⟨steps, child, hs, h⟩)
      · exact .inl h
      · exact .inr ⟨steps, child, hs, h⟩
  · next hobj => simp [hobj]

variable (extend) in
/-- Relabelling commutes with the walk. -/
theorem walk_map {ρ : Type*} (extend' : ρ → Position → ρ) (f : π → ρ)
    (hf : ∀ l s, f (extend l s) = extend' (f l) s) (label : π) (node : Json) :
    walk extend' (f label) node = (walk extend label node).map fun v => (f v.1, v.2) := by
  induction hd : node.depth using Nat.strong_induction_on generalizing label node with
  | _ d ih =>
    rw [walk, walk]
    split
    · simp only [List.map_cons, List.map_flatMap]
      congr 1
      refine List.flatMap_congr fun ⟨(steps, child), hs⟩ _ => ?_
      rw [← hf]
      exact ih child.depth (hd ▸ depth_lt_of_mem_subschemaSites hs) _ _ rfl
    · rfl

end Walk

/-- The text of one step in a reported path. -/
def Step.render : Step → String
  | .key k => "." ++ k
  | .index i => "[" ++ toString i ++ "]"

/-- The text of a position in a reported path. -/
def renderSteps (steps : Position) : String := String.join (steps.map Step.render)

/-- `_walk_subschemas`: every subschema under the path it is reported by. -/
def walkSubschemas (node : Json) (path : String) : List (String × Json) :=
  walk (fun path steps => path ++ renderSteps steps) path node

/-- Every subschema under its position. -/
def subschemas (root : Json) : List (Position × Json) := walk (· ++ ·) [] root

example : (walkSubschemas (.obj [("allOf", .arr [.obj [], .null, .obj [("not", .obj [])]])])
    "<root>").map (·.1) = ["<root>", "<root>.allOf[0]", "<root>.allOf[2]",
      "<root>.allOf[2].not"] := by decide +kernel

/-! ## Reported paths and positions -/

theorem renderSteps_append (p q : Position) :
    renderSteps (p ++ q) = renderSteps p ++ renderSteps q := by
  simp [renderSteps, String.join_eq]

/-- The path of a visit is the rendering of its position. -/
theorem walkSubschemas_eq (root : Json) (path : String) :
    walkSubschemas root path =
      (subschemas root).map fun v => (path ++ renderSteps v.1, v.2) := by
  have hext : ∀ p s : Position, path ++ renderSteps (p ++ s) = path ++ renderSteps p ++
      renderSteps s := fun p s => by rw [renderSteps_append, String.append_assoc]
  have h := walk_map (· ++ ·) (fun l s => l ++ renderSteps s)
    (fun p => path ++ renderSteps p) hext [] root
  have hnil : path ++ renderSteps [] = path := by simp [renderSteps, String.join_eq]
  rw [hnil] at h
  exact h

theorem mem_walkSubschemas {root node : Json} {path label : String} :
    (label, node) ∈ walkSubschemas root path ↔
      ∃ p, (p, node) ∈ subschemas root ∧ label = path ++ renderSteps p := by
  rw [walkSubschemas_eq]
  simp only [List.mem_map, Prod.mk.injEq, Prod.exists]
  constructor
  · rintro ⟨p, n, h, rfl, rfl⟩
    exact ⟨p, h, rfl⟩
  · rintro ⟨p, h, rfl⟩
    exact ⟨p, node, h, rfl, rfl⟩

/-- Only the root is reported under the bare path. -/
theorem append_renderSteps_eq_self {path : String} {p : Position} :
    path ++ renderSteps p = path ↔ p = [] := by
  constructor
  · intro h
    have hlist := congrArg String.toList h
    rw [String.toList_append, List.append_right_eq_self] at hlist
    cases p with
    | nil => rfl
    | cons s p => cases s <;> simp [renderSteps, String.join_eq, Step.render] at hlist
  · rintro rfl
    simp [renderSteps, String.join_eq]

/-! ## The walk as a relation -/

/-- The walk from `root` visits a node at a position. -/
inductive Visited (root : Json) : Position → Json → Prop
  | root (hobj : root.isObj = true) : Visited root [] root
  | site {p steps : Position} {node child : Json} (h : Visited root p node)
      (hs : (steps, child) ∈ subschemaSites node) (hobj : child.isObj = true) :
      Visited root (p ++ steps) child

theorem Visited.isObj {root node : Json} {p : Position} (h : Visited root p node) :
    node.isObj = true := by
  cases h with
  | root hobj => exact hobj
  | site _ _ hobj => exact hobj

/-- A walk started at a visited node visits only what the whole walk does. -/
theorem visited_of_mem_walk {root : Json} {p q : Position} {node n : Json}
    (hp : Visited root p node) (h : (q, n) ∈ walk (· ++ ·) p node) : Visited root q n := by
  induction hd : node.depth using Nat.strong_induction_on generalizing p node with
  | _ d ih =>
    obtain ⟨-, ⟨rfl, rfl⟩ | ⟨steps, child, hs, hw⟩⟩ := mem_walk.mp h
    · exact hp
    · have hchild : child.isObj = true := (mem_walk.mp hw).1
      exact ih child.depth (hd ▸ depth_lt_of_mem_subschemaSites hs) (hp.site hs hchild) hw rfl

/-- A walk goes on below each node it meets. -/
theorem mem_walk_site {p q steps : Position} {node n child : Json}
    (h : (q, n) ∈ walk (· ++ ·) p node)
    (hs : (steps, child) ∈ subschemaSites n) (hobj : child.isObj = true) :
    (q ++ steps, child) ∈ walk (· ++ ·) p node := by
  induction hd : node.depth using Nat.strong_induction_on generalizing p node with
  | _ d ih =>
    obtain ⟨hnode, ⟨rfl, rfl⟩ | ⟨steps', child', hs', hw⟩⟩ := mem_walk.mp h
    · exact mem_walk.mpr ⟨hnode, .inr ⟨steps, child, hs, mem_walk.mpr ⟨hobj, .inl ⟨rfl, rfl⟩⟩⟩⟩
    · have hlt := hd ▸ depth_lt_of_mem_subschemaSites hs'
      exact mem_walk.mpr ⟨hnode, .inr ⟨steps', child', hs', ih child'.depth hlt hw rfl⟩⟩

/-- **The walk visits exactly the visited**: its enumeration is the
closure of the root under the sites. -/
theorem mem_subschemas {root node : Json} {p : Position} :
    (p, node) ∈ subschemas root ↔ Visited root p node := by
  constructor
  · intro h
    exact visited_of_mem_walk (.root (mem_walk.mp h).1) h
  · intro h
    induction h with
    | root hobj => exact mem_walk.mpr ⟨hobj, .inl ⟨rfl, rfl⟩⟩
    | site _ hs hobj ih => exact mem_walk_site ih hs hobj

/-! ## The first two levels -/

theorem steps_ne_nil {node child : Json} {steps : Position}
    (h : (steps, child) ∈ subschemaSites node) : steps ≠ [] := by
  rintro rfl
  rcases mem_subschemaSites.mp h with ⟨k, -, h⟩ | ⟨k, -, h⟩ | ⟨k, -, h⟩
  · cases (mem_valuedSites.mp h).1
  · obtain ⟨_, _, -, -, h⟩ := mem_listSites.mp h
    cases h
  · obtain ⟨_, _, -, -, h⟩ := mem_mapSites.mp h
    cases h

/-- The one visit at the empty position is the root's. -/
theorem Visited.eq_root {root node : Json} (h : Visited root [] node) : node = root := by
  generalize hp : ([] : Position) = p at h
  cases h with
  | root => rfl
  | site _ hs _ => exact absurd (List.append_eq_nil_iff.mp hp.symm).2 (steps_ne_nil hs)

/-- One key below the root stands a keyword whose value is a schema. -/
theorem Visited.mem_schemaValued {root node : Json} {k : String}
    (h : Visited root [.key k] node) : k ∈ schemaValued := by
  generalize hp : ([.key k] : Position) = p at h
  cases h with
  | root => cases hp
  | @site p steps n _ _ hs _ =>
    -- A list or a map site is two steps down, so only one is too short.
    have hlen : p.length + steps.length = 1 := by
      rw [← List.length_append, ← hp]
      rfl
    rcases mem_subschemaSites.mp hs with ⟨k', hk', h⟩ | ⟨k', -, h⟩ | ⟨k', -, h⟩
    · rw [(mem_valuedSites.mp h).1] at hp
      obtain ⟨-, h⟩ := List.append_inj' (show [] ++ [Step.key k] = _ from hp) rfl
      cases h
      exact hk'
    · obtain ⟨_, _, -, -, h⟩ := mem_listSites.mp h
      rw [h] at hlen
      simp at hlen
    · obtain ⟨_, _, -, -, h⟩ := mem_mapSites.mp h
      rw [h] at hlen
      simp at hlen

/-- **What is visited under `properties` is an entry of it.** -/
theorem Visited.mem_propertiesOf {root node : Json} {name : String}
    (h : Visited root [.key "properties", .key name] node) :
    (name, node) ∈ propertiesOf root := by
  generalize hp : ([.key "properties", .key name] : Position) = p at h
  cases h with
  | root => cases hp
  | @site p steps n _ hv hs _ =>
    rcases mem_subschemaSites.mp hs with ⟨k, -, h⟩ | ⟨k, -, h⟩ | ⟨k, -, h⟩
    · rw [(mem_valuedSites.mp h).1] at hp
      obtain ⟨rfl, -⟩ := List.append_inj'
        (show [Step.key "properties"] ++ [Step.key name] = _ from hp) rfl
      exact absurd hv.mem_schemaValued (by decide)
    · obtain ⟨_, _, -, -, h⟩ := mem_listSites.mp h
      rw [h] at hp
      obtain ⟨-, h⟩ := List.append_inj'
        (show [] ++ [Step.key "properties", Step.key name] = _ from hp) rfl
      cases h
    · obtain ⟨children, _, hget, hmem, h⟩ := mem_mapSites.mp h
      rw [h] at hp
      obtain ⟨rfl, h⟩ := List.append_inj'
        (show [] ++ [Step.key "properties", Step.key name] = _ from hp) rfl
      cases h
      rw [hv.eq_root] at hget
      rw [propertiesOf, hget]
      exact hmem

end Congine
