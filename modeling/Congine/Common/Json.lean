import Mathlib.Algebra.Order.Ring.Unbundled.Rat
/-!
# JSON documents

Decoded JSON values as a dynamic language holds them: integers and
floats apart, objects in insertion order. A float is its exact rational
value, so comparison and equality are those of the numbers.

`child?` and `at?` address the values inside a document by position, and
`depth` is the measure a traversal descends on. `eq` is the language's
`==` on decoded values, under which booleans are numbers, and `Key` is
what a dictionary makes of a hashable value: equal values, one key.
-/

namespace Congine

inductive Json where
  | null
  | bool (b : Bool)
  | int (i : ℤ)
  | float (q : ℚ)
  | str (s : String)
  | arr (xs : List Json)
  | obj (fields : List (String × Json))

namespace Json

/-! ## Equality of documents -/

mutual

/-- Whether two documents are the same term. -/
def same : Json → Json → Bool
  | null, null => true
  | bool a, bool b => a = b
  | int i, int j => i = j
  | float p, float q => p = q
  | str s, str t => s = t
  | arr xs, arr ys => sameArr xs ys
  | obj fs, obj gs => sameObj fs gs
  | _, _ => false

def sameArr : List Json → List Json → Bool
  | [], [] => true
  | x :: xs, y :: ys => same x y && sameArr xs ys
  | _, _ => false

def sameObj : List (String × Json) → List (String × Json) → Bool
  | [], [] => true
  | (k, x) :: fs, (l, y) :: gs => k = l && same x y && sameObj fs gs
  | _, _ => false

end

mutual

theorem same_iff : ∀ {a b : Json}, same a b = true ↔ a = b
  | null, b => by cases b <;> simp [same]
  | bool _, b => by cases b <;> simp [same]
  | int _, b => by cases b <;> simp [same]
  | float _, b => by cases b <;> simp [same]
  | str _, b => by cases b <;> simp [same]
  | arr xs, b => by
    cases b with
    | arr ys => simp [same, @sameArr_iff xs ys]
    | _ => simp [same]
  | obj fs, b => by
    cases b with
    | obj gs => simp [same, @sameObj_iff fs gs]
    | _ => simp [same]

theorem sameArr_iff : ∀ {xs ys : List Json}, sameArr xs ys = true ↔ xs = ys
  | [], ys => by cases ys <;> simp [sameArr]
  | x :: xs, ys => by
    cases ys with
    | nil => simp [sameArr]
    | cons y ys => simp [sameArr, @same_iff x y, @sameArr_iff xs ys]

theorem sameObj_iff : ∀ {fs gs : List (String × Json)}, sameObj fs gs = true ↔ fs = gs
  | [], gs => by cases gs <;> simp [sameObj]
  | (k, x) :: fs, gs => by
    cases gs with
    | nil => simp [sameObj]
    | cons g gs =>
      obtain ⟨l, y⟩ := g
      simp [sameObj, @same_iff x y, @sameObj_iff fs gs]

end

instance : DecidableEq Json := fun a b => decidable_of_iff (same a b = true) same_iff

end Json

/-- One step into a document: a member of an object, an element of an array. -/
inductive Step where
  | key (k : String)
  | index (i : ℕ)
  deriving DecidableEq

/-- A position in a document, read from the root. -/
abbrev Position := List Step

namespace Json

/-- The class of a decoded value. -/
inductive Kind where
  | noneType | bool | int | float | str | list | dict
  deriving DecidableEq

def kind : Json → Kind
  | null => .noneType
  | bool _ => .bool
  | int _ => .int
  | float _ => .float
  | str _ => .str
  | arr _ => .list
  | obj _ => .dict

/-- `type(value).__name__`. -/
def Kind.name : Kind → String
  | noneType => "NoneType"
  | bool => "bool"
  | int => "int"
  | float => "float"
  | str => "str"
  | list => "list"
  | dict => "dict"

def typeName (j : Json) : String := j.kind.name

def isObj : Json → Bool
  | obj _ => true
  | _ => false

def isNull : Json → Bool
  | null => true
  | _ => false

/-- The members of an object, in order; nothing has members otherwise. -/
def fields : Json → List (String × Json)
  | obj fs => fs
  | _ => []

/-- `value.get(key)`, with `none` where the key is absent. -/
def get? (j : Json) (k : String) : Option Json := j.fields.lookup k

/-- `key in value`. -/
def has (j : Json) (k : String) : Bool := (j.get? k).isSome

@[simp] theorem fields_obj (fs : List (String × Json)) : (obj fs).fields = fs := rfl

@[simp] theorem get?_obj (fs : List (String × Json)) (k : String) :
    (obj fs).get? k = fs.lookup k := rfl

theorem mem_of_lookup {α : Type*} {k : String} {v : α} :
    ∀ {fs : List (String × α)}, fs.lookup k = some v → (k, v) ∈ fs
  | (k', v') :: fs, h => by
    rw [List.lookup_cons] at h
    by_cases hk : k == k'
    · simp only [hk, Option.some.injEq] at h
      rw [eq_of_beq hk, h]
      exact List.mem_cons_self
    · simp only [hk] at h
      exact List.mem_cons_of_mem _ (mem_of_lookup h)

/-- A key of an object is present. -/
theorem lookup_isSome_of_mem {α : Type*} {k : String} {v : α} :
    ∀ {fs : List (String × α)}, (k, v) ∈ fs → (fs.lookup k).isSome
  | (k', v') :: fs, h => by
    rw [List.lookup_cons]
    by_cases hk : k == k'
    · simp [hk]
    · rcases List.mem_cons.mp h with heq | hmem
      · exact absurd (by simp [(Prod.mk.inj heq).1]) hk
      · simp only [hk]
        exact lookup_isSome_of_mem hmem

theorem isNull_iff {j : Json} : j.isNull = true ↔ j = null := by
  cases j <;> simp [isNull]

theorem eq_obj_of_isObj {j : Json} (h : j.isObj = true) : j = obj j.fields := by
  cases j with
  | obj fs => rfl
  | _ => simp [isObj] at h

/-- Only an object has keys. -/
theorem isObj_of_get? {j v : Json} {k : String} (h : j.get? k = some v) : j.isObj = true := by
  cases j with
  | obj fs => rfl
  | _ => cases h

/-! ## Positions -/

/-- The value one step in. -/
def child? : Json → Step → Option Json
  | obj fs, .key k => fs.lookup k
  | arr xs, .index i => xs[i]?
  | _, _ => none

/-- The value at a position. -/
def at? (j : Json) : Position → Option Json
  | [] => some j
  | s :: p => (j.child? s).bind fun c => c.at? p

@[simp] theorem at?_nil (j : Json) : j.at? [] = some j := rfl

@[simp] theorem at?_key (j : Json) (k : String) : j.at? [.key k] = j.get? k := by
  cases j <;> simp [at?, child?, get?, fields]

/-! ## Depth -/

mutual

/-- How far a document nests. -/
def depth : Json → ℕ
  | arr xs => depthArr xs + 1
  | obj fs => depthObj fs + 1
  | _ => 0

def depthArr : List Json → ℕ
  | [] => 0
  | x :: xs => max x.depth (depthArr xs)

def depthObj : List (String × Json) → ℕ
  | [] => 0
  | (_, x) :: fs => max x.depth (depthObj fs)

end

theorem depth_le_depthArr {x : Json} : ∀ {xs : List Json}, x ∈ xs → x.depth ≤ depthArr xs
  | y :: ys, h => by
    rw [depthArr]
    rcases List.mem_cons.mp h with rfl | h
    · exact le_max_left _ _
    · exact le_trans (depth_le_depthArr h) (le_max_right _ _)

theorem depth_le_depthObj {k : String} {x : Json} :
    ∀ {fs : List (String × Json)}, (k, x) ∈ fs → x.depth ≤ depthObj fs
  | (k', y) :: ys, h => by
    rw [depthObj]
    rcases List.mem_cons.mp h with heq | h
    · rw [(Prod.mk.inj heq).2]
      exact le_max_left _ _
    · exact le_trans (depth_le_depthObj h) (le_max_right _ _)

/-- A value inside another is shallower. -/
theorem depth_lt_of_child? {j c : Json} {s : Step} (h : j.child? s = some c) :
    c.depth < j.depth := by
  cases j with
  | obj fs =>
    cases s with
    | key k =>
      have := depth_le_depthObj (mem_of_lookup (show fs.lookup k = some c from h))
      rw [depth]
      omega
    | index i => simp [child?] at h
  | arr xs =>
    cases s with
    | key k => simp [child?] at h
    | index i =>
      have := depth_le_depthArr (List.mem_of_getElem? (show xs[i]? = some c from h))
      rw [depth]
      omega
  | _ => simp [child?] at h

theorem depth_lt_of_at? {j c : Json} {s : Step} {p : Position} (h : j.at? (s :: p) = some c) :
    c.depth < j.depth := by
  induction p generalizing j s with
  | nil =>
    simp only [at?, Option.bind_eq_some_iff] at h
    obtain ⟨d, hd, hdc⟩ := h
    rw [← Option.some.inj hdc]
    exact depth_lt_of_child? hd
  | cons t p ih =>
    rw [at?, Option.bind_eq_some_iff] at h
    obtain ⟨d, hd, hdc⟩ := h
    exact lt_trans (ih hdc) (depth_lt_of_child? hd)

/-! ## The language's view of a value -/

/-- The number a value is, booleans included. -/
def number? : Json → Option ℚ
  | bool b => some (if b then 1 else 0)
  | int i => some i
  | float q => some q
  | _ => none

/-- Whether a condition takes the value for true. -/
def truthy : Json → Bool
  | null => false
  | bool b => b
  | int i => i ≠ 0
  | float q => q ≠ 0
  | str s => s ≠ ""
  | arr xs => !xs.isEmpty
  | obj fs => !fs.isEmpty

mutual

/-- `==` on decoded values: numbers by value, booleans among them, and
objects up to the order of their members. -/
def eq : Json → Json → Bool
  | null, null => true
  | str s, str t => s = t
  | arr xs, arr ys => eqArr xs ys
  | obj fs, obj gs => fs.length = gs.length && eqObj fs gs
  | a, b =>
      match a.number?, b.number? with
      | some x, some y => x = y
      | _, _ => false

def eqArr : List Json → List Json → Bool
  | [], [] => true
  | x :: xs, y :: ys => eq x y && eqArr xs ys
  | _, _ => false

def eqObj : List (String × Json) → List (String × Json) → Bool
  | [], _ => true
  | (k, x) :: fs, gs =>
      (match gs.lookup k with
        | some y => eq x y
        | none => false) && eqObj fs gs

end

/-- What a dictionary keys a hashable value by. -/
inductive Key where
  | null
  | num (q : ℚ)
  | str (s : String)
  deriving DecidableEq

/-- The key of a value, with `none` for the `TypeError` of an unhashable one. -/
def hash? : Json → Option Key
  | null => some .null
  | str s => some (.str s)
  | arr _ => none
  | obj _ => none
  | j => j.number?.map .num

end Json

end Congine
