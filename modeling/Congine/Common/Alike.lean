import Congine.Common.Json
import Mathlib.Data.List.Perm.Subperm
/-!
# Documents alike up to their scalars

Two documents are alike under a relation on scalars when they nest in
the same way and each scalar of one is related to the scalar the other
has in its place. Arrays are compared by index and objects by key, so
the order of an object's members plays no part. Every equality of JSON
values is one of these, and differs from the others in what it takes for
the same scalar only.
-/

namespace Congine

namespace Json

/-- Neither an array nor an object. -/
def isScalar : Json → Bool
  | arr _ => false
  | obj _ => false
  | _ => true

/-- Alike up to a relation on scalars. -/
inductive Alike (R : Json → Json → Prop) : Json → Json → Prop
  | scalar {a b : Json} : a.isScalar = true → b.isScalar = true → R a b → Alike R a b
  | node {a b : Json} : a.isScalar = false → a.kind = b.kind →
      (∀ s, (a.child? s).isSome = (b.child? s).isSome) →
      (∀ s x y, a.child? s = some x → b.child? s = some y → Alike R x y) → Alike R a b

/-! ## Distinct keys -/

mutual

/-- No object in the document names a key twice, as no dictionary does. -/
def distinctKeys : Json → Bool
  | arr xs => distinctKeysArr xs
  | obj fs => (fs.map Prod.fst).Nodup && distinctKeysObj fs
  | _ => true

def distinctKeysArr : List Json → Bool
  | [] => true
  | x :: xs => distinctKeys x && distinctKeysArr xs

def distinctKeysObj : List (String × Json) → Bool
  | [] => true
  | (_, x) :: fs => distinctKeys x && distinctKeysObj fs

end

theorem distinctKeysArr_iff {xs : List Json} :
    distinctKeysArr xs = true ↔ ∀ x ∈ xs, x.distinctKeys = true := by
  induction xs with
  | nil => simp [distinctKeysArr]
  | cons x xs ih => simp [distinctKeysArr, ih]

theorem distinctKeysObj_iff {fs : List (String × Json)} :
    distinctKeysObj fs = true ↔ ∀ k x, (k, x) ∈ fs → x.distinctKeys = true := by
  induction fs with
  | nil => simp [distinctKeysObj]
  | cons f fs ih =>
    obtain ⟨l, y⟩ := f
    simp only [distinctKeysObj, Bool.and_eq_true, ih, List.mem_cons, Prod.mk.injEq]
    constructor
    · rintro ⟨hy, hfs⟩ k x (⟨-, rfl⟩ | hmem)
      · exact hy
      · exact hfs k x hmem
    · intro h
      exact ⟨h l y (Or.inl ⟨rfl, rfl⟩), fun k x hmem => h k x (Or.inr hmem)⟩

theorem nodup_of_distinctKeys {fs : List (String × Json)} (h : (obj fs).distinctKeys = true) :
    (fs.map Prod.fst).Nodup := by
  simp only [distinctKeys, Bool.and_eq_true, decide_eq_true_eq] at h
  exact h.1

theorem distinctKeys_child? {j c : Json} {s : Step} (h : j.distinctKeys = true)
    (hc : j.child? s = some c) : c.distinctKeys = true := by
  cases j with
  | arr xs =>
    cases s with
    | key k => cases hc
    | index i => exact distinctKeysArr_iff.mp h c (List.mem_of_getElem? hc)
  | obj fs =>
    cases s with
    | key k =>
      simp only [distinctKeys, Bool.and_eq_true] at h
      exact distinctKeysObj_iff.mp h.2 k c (mem_of_lookup hc)
    | index i => cases hc
  | _ => cases hc

/-- A member of a dictionary is what its key looks up. -/
theorem lookup_of_mem {α : Type*} {k : String} {v : α} :
    ∀ {fs : List (String × α)}, (fs.map Prod.fst).Nodup → (k, v) ∈ fs → fs.lookup k = some v
  | (l, w) :: fs, hnodup, hmem => by
    rw [List.map_cons, List.nodup_cons] at hnodup
    rcases List.mem_cons.mp hmem with heq | hin
    · obtain ⟨rfl, rfl⟩ := Prod.mk.inj heq
      exact List.lookup_cons_self
    · have hne : k ≠ l := by
        intro heq
        exact hnodup.1 (heq ▸ List.mem_map.mpr ⟨(k, v), hin, rfl⟩)
      rw [List.lookup_cons, beq_false_of_ne hne]
      exact lookup_of_mem hnodup.2 hin

theorem lookup_isSome_iff {α : Type*} {k : String} {fs : List (String × α)} :
    (fs.lookup k).isSome = true ↔ k ∈ fs.map Prod.fst := by
  constructor
  · intro h
    obtain ⟨v, hv⟩ := Option.isSome_iff_exists.mp h
    exact List.mem_map.mpr ⟨(k, v), mem_of_lookup hv, rfl⟩
  · intro h
    obtain ⟨⟨l, v⟩, hmem, rfl⟩ := List.mem_map.mp h
    exact lookup_isSome_of_mem hmem

/-! ## Agreement position by position -/

/-- **Induction on a document** by way of the values one step in. -/
theorem child_induction {P : Json → Prop}
    (h : ∀ j, (∀ s c, j.child? s = some c → P c) → P j) (j : Json) : P j := by
  induction hd : j.depth using Nat.strong_induction_on generalizing j with
  | _ d ih =>
    refine h j fun s c hc => ?_
    have hlt := depth_lt_of_child? hc
    exact ih c.depth (by omega) c rfl

/-- Two values agree where they stand: related scalars, or containers of
one kind. -/
def AgreeHere (R : Json → Json → Prop) (a b : Json) : Prop :=
  (a.isScalar = true ∧ b.isScalar = true ∧ R a b) ∨ (a.isScalar = false ∧ a.kind = b.kind)

/-- What two documents have at one position agrees, nothing with nothing. -/
def AgreeAt (R : Json → Json → Prop) : Option Json → Option Json → Prop
  | none, none => True
  | some a, some b => AgreeHere R a b
  | _, _ => False

theorem agreeHere_of_alike {R : Json → Json → Prop} {a b : Json} (h : Alike R a b) :
    AgreeHere R a b := by
  cases h with
  | scalar ha hb hR => exact Or.inl ⟨ha, hb, hR⟩
  | node ha hkind _ _ => exact Or.inr ⟨ha, hkind⟩

theorem child?_of_isScalar {j : Json} (h : j.isScalar = true) (s : Step) : j.child? s = none := by
  cases j with
  | arr xs => cases h
  | obj fs => cases h
  | _ => rfl

/-- **Alike is agreement at every position.** -/
theorem alike_iff_at {R : Json → Json → Prop} {a b : Json} :
    Alike R a b ↔ ∀ p, AgreeAt R (a.at? p) (b.at? p) := by
  constructor
  · intro h p
    induction p generalizing a b with
    | nil => exact agreeHere_of_alike h
    | cons s p ih =>
      rw [at?, at?]
      cases h with
      | scalar ha hb _ =>
        rw [child?_of_isScalar ha, child?_of_isScalar hb]
        trivial
      | node _ _ hsome hchild =>
        have hs := hsome s
        rcases ha : a.child? s with _ | x
        · rw [ha] at hs
          have hb : b.child? s = none := Option.not_isSome_iff_eq_none.mp (by simp [← hs])
          rw [hb]
          trivial
        · rw [ha] at hs
          obtain ⟨y, hb⟩ := Option.isSome_iff_exists.mp hs.symm
          rw [hb]
          exact ih (hchild s x y ha hb)
  · intro h
    induction a using child_induction generalizing b with
    | h a ih =>
      rcases (h [] : AgreeHere R a b) with ⟨ha, hb, hR⟩ | ⟨ha, hkind⟩
      · exact .scalar ha hb hR
      · have hstep : ∀ s, AgreeAt R (a.child? s) (b.child? s) := by
          intro s
          have hs := h [s]
          simpa only [at?, Option.bind_fun_some] using hs
        refine .node ha hkind (fun s => ?_) fun s x y hx hy => ih s x hx fun p => ?_
        · have hs := hstep s
          rcases hx : a.child? s with _ | x
          · rcases hy : b.child? s with _ | y
            · rfl
            · rw [hx, hy] at hs
              exact hs.elim
          · rcases hy : b.child? s with _ | y
            · rw [hx, hy] at hs
              exact hs.elim
            · rfl
        · have hp := h (s :: p)
          simpa only [at?, hx, hy, Option.bind_some] using hp

/-! ## The language's equality -/

theorem eqArr_iff {xs ys : List Json} :
    eqArr xs ys = true ↔ (∀ i : ℕ, xs[i]?.isSome = ys[i]?.isSome) ∧
      ∀ (i : ℕ) x y, xs[i]? = some x → ys[i]? = some y → x.eq y = true := by
  induction xs generalizing ys with
  | nil =>
    cases ys with
    | nil => simp [eqArr]
    | cons y ys =>
      simp only [eqArr, Bool.false_eq_true, false_iff, not_and]
      exact fun h => absurd (h 0) (by simp)
  | cons x xs ih =>
    cases ys with
    | nil =>
      simp only [eqArr, Bool.false_eq_true, false_iff, not_and]
      exact fun h => absurd (h 0) (by simp)
    | cons y ys =>
      rw [eqArr, Bool.and_eq_true, ih]
      constructor
      · rintro ⟨hxy, hsome, heq⟩
        refine ⟨fun i => ?_, fun i u v hu hv => ?_⟩
        · cases i with
          | zero => rfl
          | succ i => exact hsome i
        · cases i with
          | zero =>
            obtain rfl := Option.some.inj hu
            obtain rfl := Option.some.inj hv
            exact hxy
          | succ i => exact heq i u v hu hv
      · rintro ⟨hsome, heq⟩
        exact ⟨heq 0 x y rfl rfl, fun i => hsome (i + 1), fun i => heq (i + 1)⟩

theorem eqObj_iff {fs gs : List (String × Json)} :
    eqObj fs gs = true ↔ ∀ k x, (k, x) ∈ fs → ∃ y, gs.lookup k = some y ∧ x.eq y = true := by
  induction fs with
  | nil => simp [eqObj]
  | cons f fs ih =>
    obtain ⟨l, z⟩ := f
    rw [eqObj, Bool.and_eq_true, ih]
    constructor
    · rintro ⟨hz, hfs⟩ k x hmem
      rcases List.mem_cons.mp hmem with heq | hin
      · obtain ⟨rfl, rfl⟩ := Prod.mk.inj heq
        rcases hget : gs.lookup k with _ | y
        · simp [hget] at hz
        · exact ⟨y, rfl, by simpa [hget] using hz⟩
      · exact hfs k x hin
    · intro h
      obtain ⟨y, hget, hy⟩ := h l z List.mem_cons_self
      exact ⟨by rw [hget]; exact hy, fun k x hin => h k x (List.mem_cons_of_mem _ hin)⟩

/-- Dictionaries are equal where they have the same keys and equal values
under each. -/
theorem eq_obj_iff {fs gs : List (String × Json)} (hf : (fs.map Prod.fst).Nodup)
    (hg : (gs.map Prod.fst).Nodup) :
    (obj fs).eq (obj gs) = true ↔ (∀ k, (fs.lookup k).isSome = (gs.lookup k).isSome) ∧
      ∀ k x y, fs.lookup k = some x → gs.lookup k = some y → x.eq y = true := by
  rw [eq, Bool.and_eq_true, decide_eq_true_eq, eqObj_iff]
  constructor
  · rintro ⟨hlen, hall⟩
    have hsub : fs.map Prod.fst ⊆ gs.map Prod.fst := by
      intro k hk
      obtain ⟨⟨l, x⟩, hmem, rfl⟩ := List.mem_map.mp hk
      obtain ⟨y, hy, -⟩ := hall l x hmem
      exact lookup_isSome_iff.mp (by rw [hy]; rfl)
    -- As many keys, none twice and all among the other's: the same keys.
    have hperm : (fs.map Prod.fst).Perm (gs.map Prod.fst) :=
      (hf.subperm hsub).perm_of_length_le (by simp [hlen])
    refine ⟨fun k => ?_, fun k x y hx hy => ?_⟩
    · rw [Bool.eq_iff_iff, lookup_isSome_iff, lookup_isSome_iff]
      exact hperm.mem_iff
    · obtain ⟨z, hz, heq⟩ := hall k x (mem_of_lookup hx)
      rwa [Option.some.inj (hy.symm.trans hz)]
  · rintro ⟨hsome, heq⟩
    have hperm : (fs.map Prod.fst).Perm (gs.map Prod.fst) :=
      (List.perm_ext_iff_of_nodup hf hg).mpr fun k => by
        rw [← lookup_isSome_iff, ← lookup_isSome_iff, hsome]
    refine ⟨by simpa using hperm.length_eq, fun k x hmem => ?_⟩
    have hx := lookup_of_mem hf hmem
    obtain ⟨y, hy⟩ := Option.isSome_iff_exists.mp ((hsome k).symm.trans (by rw [hx]; rfl))
    exact ⟨y, hy, heq k x y hx hy⟩

/-- **The language's equality is one of these**, on documents whose objects
name no key twice. -/
theorem eq_iff_alike {a b : Json} (ha : a.distinctKeys = true) (hb : b.distinctKeys = true) :
    a.eq b = true ↔ Alike (fun x y => x.eq y = true) a b := by
  induction a using child_induction generalizing b with
  | h a ih =>
    constructor
    · intro heq
      cases a with
      | arr xs =>
        cases b with
        | arr ys =>
          obtain ⟨hsome, hall⟩ := eqArr_iff.mp heq
          refine .node rfl rfl (fun s => ?_) fun s x y hx hy => ?_
          · cases s with
            | key k => rfl
            | index i => exact hsome i
          · refine (ih s x hx (distinctKeys_child? ha hx) (distinctKeys_child? hb hy)).mp ?_
            cases s with
            | key k => cases hx
            | index i => exact hall i x y hx hy
        | _ => simp [eq, number?] at heq
      | obj fs =>
        cases b with
        | obj gs =>
          obtain ⟨hsome, hall⟩ :=
            (eq_obj_iff (nodup_of_distinctKeys ha) (nodup_of_distinctKeys hb)).mp heq
          refine .node rfl rfl (fun s => ?_) fun s x y hx hy => ?_
          · cases s with
            | key k => exact hsome k
            | index i => rfl
          · refine (ih s x hx (distinctKeys_child? ha hx) (distinctKeys_child? hb hy)).mp ?_
            cases s with
            | key k => exact hall k x y hx hy
            | index i => cases hx
        | _ => simp [eq, number?] at heq
      | _ =>
        refine .scalar rfl ?_ heq
        cases b with
        | arr ys => simp [eq, number?] at heq
        | obj gs => simp [eq, number?] at heq
        | _ => rfl
    · intro h
      cases h with
      | scalar _ _ heq => exact heq
      | node hnode hkind hsome hchild =>
        have hchild : ∀ s x y, a.child? s = some x → b.child? s = some y → x.eq y = true :=
          fun s x y hx hy => (ih s x hx (distinctKeys_child? ha hx)
            (distinctKeys_child? hb hy)).mpr (hchild s x y hx hy)
        cases a with
        | arr xs =>
          cases b with
          | arr ys =>
            exact eqArr_iff.mpr ⟨fun i => hsome (.index i), fun i => hchild (.index i)⟩
          | _ => cases hkind
        | obj fs =>
          cases b with
          | obj gs =>
            exact (eq_obj_iff (nodup_of_distinctKeys ha) (nodup_of_distinctKeys hb)).mpr
              ⟨fun k => hsome (.key k), fun k => hchild (.key k)⟩
          | _ => cases hkind
        | _ => cases hnode

/-! ## Equality of JSON values -/

/-- The same JSON scalar: a number by its value, whichever class holds it,
and a boolean never a number. -/
def sameScalar : Json → Json → Bool
  | null, null => true
  | bool a, bool b => a = b
  | int i, int j => i = j
  | int i, float q => (i : ℚ) = q
  | float p, int j => p = (j : ℚ)
  | float p, float q => p = q
  | str s, str t => s = t
  | _, _ => false

/-- Equal as JSON values. -/
def JsonEqual (a b : Json) : Prop := Alike (fun x y => sameScalar x y = true) a b

def isBool : Json → Bool
  | bool _ => true
  | _ => false

/-- Two documents have a boolean in the same positions. -/
def BooleansAgree (a b : Json) : Prop := ∀ p, (a.at? p).any isBool = (b.at? p).any isBool

mutual

/-- Every boolean in the document read as the number it is. -/
def numeric : Json → Json
  | bool b => int (if b then 1 else 0)
  | arr xs => arr (numericArr xs)
  | obj fs => obj (numericObj fs)
  | j => j

def numericArr : List Json → List Json
  | [] => []
  | x :: xs => numeric x :: numericArr xs

def numericObj : List (String × Json) → List (String × Json)
  | [] => []
  | (k, x) :: fs => (k, numeric x) :: numericObj fs

end

theorem getElem?_numericArr (xs : List Json) (i : ℕ) :
    (numericArr xs)[i]? = xs[i]?.map numeric := by
  induction xs generalizing i with
  | nil => rfl
  | cons x xs ih =>
    cases i with
    | zero => rfl
    | succ i => exact ih i

theorem lookup_numericObj (fs : List (String × Json)) (k : String) :
    (numericObj fs).lookup k = (fs.lookup k).map numeric := by
  induction fs with
  | nil => rfl
  | cons f fs ih =>
    obtain ⟨l, x⟩ := f
    rw [numericObj, List.lookup_cons, List.lookup_cons]
    by_cases hk : k == l
    · simp [hk]
    · simp only [hk]
      exact ih

theorem child?_numeric (j : Json) (s : Step) : j.numeric.child? s = (j.child? s).map numeric := by
  cases j with
  | arr xs =>
    cases s with
    | key k => rfl
    | index i => exact getElem?_numericArr xs i
  | obj fs =>
    cases s with
    | key k => exact lookup_numericObj fs k
    | index i => rfl
  | _ => rfl

theorem at?_numeric (j : Json) (p : Position) : j.numeric.at? p = (j.at? p).map numeric := by
  induction p generalizing j with
  | nil => rfl
  | cons s p ih =>
    rw [at?, at?, child?_numeric]
    rcases j.child? s with _ | c
    · rfl
    · exact ih c

/-- Here, equal as the language has it is equal as JSON once booleans are
numbers. -/
theorem agreeHere_eq_iff_numeric {a b : Json} :
    AgreeHere (fun x y => x.eq y = true) a b ↔
      AgreeHere (fun x y => sameScalar x y = true) a.numeric b.numeric := by
  cases a <;> cases b <;> simp [AgreeHere, isScalar, kind, numeric, sameScalar, eq, number?]
  case bool.bool p q => cases p <;> cases q <;> simp
  case bool.int p i => cases p <;> simp <;> norm_cast
  case int.bool i q => cases q <;> simp

/-- Here, equal as JSON is equal once booleans are numbers, and both or
neither a boolean. -/
theorem agreeHere_same_iff {a b : Json} :
    AgreeHere (fun x y => sameScalar x y = true) a b ↔
      AgreeHere (fun x y => sameScalar x y = true) a.numeric b.numeric ∧ a.isBool = b.isBool := by
  cases a <;> cases b <;> simp [AgreeHere, isScalar, kind, numeric, sameScalar, isBool]
  case bool.bool p q => cases p <;> cases q <;> simp

theorem eq_iff_numeric {a b : Json} (ha : a.distinctKeys = true) (hb : b.distinctKeys = true) :
    a.eq b = true ↔ JsonEqual a.numeric b.numeric := by
  rw [eq_iff_alike ha hb, JsonEqual, alike_iff_at, alike_iff_at]
  refine forall_congr' fun p => ?_
  rw [at?_numeric, at?_numeric]
  rcases a.at? p with _ | x
  · rcases b.at? p with _ | y
    · exact Iff.rfl
    · exact Iff.rfl
  · rcases b.at? p with _ | y
    · exact Iff.rfl
    · exact agreeHere_eq_iff_numeric

/-- **Equal as JSON is equal with booleans read as numbers, and booleans in
the same positions.** -/
theorem jsonEqual_iff {a b : Json} :
    JsonEqual a b ↔ JsonEqual a.numeric b.numeric ∧ BooleansAgree a b := by
  simp only [JsonEqual, alike_iff_at, BooleansAgree, ← forall_and]
  refine forall_congr' fun p => ?_
  rw [at?_numeric, at?_numeric]
  rcases a.at? p with _ | x
  · rcases b.at? p with _ | y
    · simp [AgreeAt]
    · simp [AgreeAt]
  · rcases b.at? p with _ | y
    · simp [AgreeAt]
    · exact agreeHere_same_iff

end Json

end Congine
