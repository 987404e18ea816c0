import Congine.Common.JsonText
/-!
# Documents up to the order of their keys

`Same` says that two documents differ in the order of object members at
most, at any depth. `sortKeys` is its normal form, for documents whose
objects have distinct keys: it reorders nothing but members, and what it
reorders the same way was the same. The text of the normal form is then
an identity for the content (`text_sortKeys_eq_iff`).
-/

namespace Congine

namespace Doc

variable {S : Type}

mutual

/-- Equal up to the order of members, at every depth. -/
inductive Same : Doc S → Doc S → Prop where
  | scalar {s : S} : Same (scalar s) (scalar s)
  | arr {xs ys : List (Doc S)} : SameElements xs ys → Same (arr xs) (arr ys)
  | obj {fs hs gs : List (String × Doc S)} : SameMembers fs hs → hs.Perm gs →
      Same (obj fs) (obj gs)

inductive SameElements : List (Doc S) → List (Doc S) → Prop where
  | nil : SameElements [] []
  | cons {x y : Doc S} {xs ys : List (Doc S)} : Same x y → SameElements xs ys →
      SameElements (x :: xs) (y :: ys)

inductive SameMembers : List (String × Doc S) → List (String × Doc S) → Prop where
  | nil : SameMembers [] []
  | cons {k : String} {x y : Doc S} {fs gs : List (String × Doc S)} : Same x y →
      SameMembers fs gs → SameMembers ((k, x) :: fs) ((k, y) :: gs)

end

mutual

/-- The document with the members of every object in key order. -/
def sortKeys : Doc S → Doc S
  | scalar s => scalar s
  | arr xs => arr (sortKeysElements xs)
  | obj fs => obj ((sortKeysMembers fs).insertionSort fun f g => f.1 ≤ g.1)

def sortKeysElements : List (Doc S) → List (Doc S)
  | [] => []
  | x :: xs => sortKeys x :: sortKeysElements xs

def sortKeysMembers : List (String × Doc S) → List (String × Doc S)
  | [] => []
  | (k, x) :: fs => (k, sortKeys x) :: sortKeysMembers fs

end

mutual

/-- No object has a key twice. -/
def distinctKeys : Doc S → Bool
  | scalar _ => true
  | arr xs => distinctKeysElements xs
  | obj fs => decide (fs.map Prod.fst).Nodup && distinctKeysMembers fs

def distinctKeysElements : List (Doc S) → Bool
  | [] => true
  | x :: xs => distinctKeys x && distinctKeysElements xs

def distinctKeysMembers : List (String × Doc S) → Bool
  | [] => true
  | (_, x) :: fs => distinctKeys x && distinctKeysMembers fs

end

mutual

/-- Some scalar of the document satisfies `p`. -/
def anyScalar (p : S → Bool) : Doc S → Bool
  | scalar s => p s
  | arr xs => anyScalarElements p xs
  | obj fs => anyScalarMembers p fs

def anyScalarElements (p : S → Bool) : List (Doc S) → Bool
  | [] => false
  | x :: xs => anyScalar p x || anyScalarElements p xs

def anyScalarMembers (p : S → Bool) : List (String × Doc S) → Bool
  | [] => false
  | (_, x) :: fs => anyScalar p x || anyScalarMembers p fs

end

theorem sortKeysMembers_eq_map (fs : List (String × Doc S)) :
    sortKeysMembers fs = fs.map fun f => (f.1, f.2.sortKeys) := by
  induction fs with
  | nil => rfl
  | cons f fs ih => rw [sortKeysMembers, ih, List.map_cons]

theorem anyScalarMembers_eq_any (p : S → Bool) (fs : List (String × Doc S)) :
    anyScalarMembers p fs = fs.any fun f => f.2.anyScalar p := by
  induction fs with
  | nil => rfl
  | cons f fs ih => rw [anyScalarMembers, ih, List.any_cons]

theorem keys_sortKeysMembers (fs : List (String × Doc S)) :
    (sortKeysMembers fs).map Prod.fst = fs.map Prod.fst := by
  simp [sortKeysMembers_eq_map]

mutual

/-- Sorting moves scalars about and changes none. -/
theorem anyScalar_sortKeys (p : S → Bool) : ∀ x : Doc S, x.sortKeys.anyScalar p = x.anyScalar p
  | scalar a => rfl
  | arr xs => by rw [sortKeys, anyScalar, anyScalar, anyScalarElements_sortKeys p xs]
  | obj fs => by
    rw [sortKeys, anyScalar, anyScalar, anyScalarMembers_eq_any,
      (List.perm_insertionSort _ _).any_eq, ← anyScalarMembers_eq_any,
      anyScalarMembers_sortKeys p fs]

theorem anyScalarElements_sortKeys (p : S → Bool) : ∀ xs : List (Doc S),
    anyScalarElements p (sortKeysElements xs) = anyScalarElements p xs
  | [] => rfl
  | x :: xs => by
    rw [sortKeysElements, anyScalarElements, anyScalarElements, anyScalar_sortKeys p x,
      anyScalarElements_sortKeys p xs]

theorem anyScalarMembers_sortKeys (p : S → Bool) : ∀ fs : List (String × Doc S),
    anyScalarMembers p (sortKeysMembers fs) = anyScalarMembers p fs
  | [] => rfl
  | (k, x) :: fs => by
    rw [sortKeysMembers, anyScalarMembers, anyScalarMembers, anyScalar_sortKeys p x,
      anyScalarMembers_sortKeys p fs]

end

/-! ## The normal form -/

/-- Members with distinct keys have one sorted order. -/
theorem insertionSort_eq_of_perm {fs gs : List (String × Doc S)}
    (hnodup : (fs.map Prod.fst).Nodup) (h : fs.Perm gs) :
    (fs.insertionSort fun f g => f.1 ≤ g.1) = gs.insertionSort fun f g => f.1 ≤ g.1 := by
  have hf := List.perm_insertionSort (fun f g : String × Doc S => f.1 ≤ g.1) fs
  have hg := List.perm_insertionSort (fun f g : String × Doc S => f.1 ≤ g.1) gs
  refine List.Perm.eq_of_pairwise ?_ (List.pairwise_insertionSort _ fs)
    (List.pairwise_insertionSort _ gs) (hf.trans (h.trans hg.symm))
  intro f g hfm hgm hle hge
  have hkeys : f.1 = g.1 := le_antisymm hle hge
  exact List.inj_on_of_nodup_map hnodup (hf.mem_iff.mp hfm) (h.mem_iff.mpr (hg.mem_iff.mp hgm))
    hkeys

mutual

theorem Same.sortKeys_eq : ∀ {x y : Doc S}, Same x y → x.distinctKeys = true →
    x.sortKeys = y.sortKeys
  | _, _, .scalar, _ => rfl
  | _, _, .arr h, hd => by
    rw [distinctKeys] at hd
    rw [sortKeys, sortKeys, h.sortKeys_eq hd]
  | _, _, .obj h hperm, hd => by
    rw [distinctKeys, Bool.and_eq_true, decide_eq_true_eq] at hd
    have hmembers := h.sortKeys_eq hd.2
    rw [sortKeys, sortKeys]
    refine congrArg obj (insertionSort_eq_of_perm ?_ ?_)
    · rw [keys_sortKeysMembers]
      exact hd.1
    · rw [hmembers, sortKeysMembers_eq_map, sortKeysMembers_eq_map]
      exact hperm.map _

theorem SameElements.sortKeys_eq : ∀ {xs ys : List (Doc S)}, SameElements xs ys →
    distinctKeysElements xs = true → sortKeysElements xs = sortKeysElements ys
  | _, _, .nil, _ => rfl
  | _, _, .cons h hs, hd => by
    rw [distinctKeysElements, Bool.and_eq_true] at hd
    rw [sortKeysElements, sortKeysElements, h.sortKeys_eq hd.1, hs.sortKeys_eq hd.2]

theorem SameMembers.sortKeys_eq : ∀ {fs gs : List (String × Doc S)}, SameMembers fs gs →
    distinctKeysMembers fs = true → sortKeysMembers fs = sortKeysMembers gs
  | _, _, .nil, _ => rfl
  | _, _, .cons h hs, hd => by
    rw [distinctKeysMembers, Bool.and_eq_true] at hd
    rw [sortKeysMembers, sortKeysMembers, h.sortKeys_eq hd.1, hs.sortKeys_eq hd.2]

end

mutual

theorem same_of_sortKeys_eq : ∀ {x y : Doc S}, x.sortKeys = y.sortKeys → Same x y
  | scalar a, y, h => by
    cases y with
    | scalar b =>
      simp only [sortKeys, scalar.injEq] at h
      exact h ▸ .scalar
    | arr ys => simp [sortKeys] at h
    | obj gs => simp [sortKeys] at h
  | arr xs, y, h => by
    cases y with
    | scalar b => simp [sortKeys] at h
    | arr ys =>
      simp only [sortKeys, arr.injEq] at h
      exact .arr (same_of_sortKeysElements_eq h)
    | obj gs => simp [sortKeys] at h
  | obj fs, y, h => by
    cases y with
    | scalar b => simp [sortKeys] at h
    | arr ys => simp [sortKeys] at h
    | obj gs =>
      simp only [sortKeys, obj.injEq] at h
      -- What is sorted alike is a permutation, and one of members is one of what was sorted.
      have hperm : (sortKeysMembers fs).Perm (gs.map fun g => (g.1, g.2.sortKeys)) := by
        rw [← sortKeysMembers_eq_map]
        refine (List.perm_insertionSort (fun f g => f.1 ≤ g.1) _).symm.trans ?_
        rw [h]
        exact List.perm_insertionSort _ _
      obtain ⟨hs, hmap, hgs⟩ : ∃ hs : List (String × Doc S),
          sortKeysMembers fs = hs.map (fun g => (g.1, g.2.sortKeys)) ∧ hs.Perm gs := by
        have hcomp := congrFun (congrFun (List.eq_map_comp_perm
          fun g : String × Doc S => (g.1, g.2.sortKeys)) (sortKeysMembers fs)) gs
        exact hcomp.mpr hperm
      rw [← sortKeysMembers_eq_map] at hmap
      exact .obj (same_of_sortKeysMembers_eq hmap) hgs

theorem same_of_sortKeysElements_eq : ∀ {xs ys : List (Doc S)},
    sortKeysElements xs = sortKeysElements ys → SameElements xs ys
  | [], ys, h => by
    cases ys with
    | nil => exact .nil
    | cons y ys => simp [sortKeysElements] at h
  | x :: xs, ys, h => by
    cases ys with
    | nil => simp [sortKeysElements] at h
    | cons y ys =>
      simp only [sortKeysElements, List.cons.injEq] at h
      exact .cons (same_of_sortKeys_eq h.1) (same_of_sortKeysElements_eq h.2)

theorem same_of_sortKeysMembers_eq : ∀ {fs gs : List (String × Doc S)},
    sortKeysMembers fs = sortKeysMembers gs → SameMembers fs gs
  | [], gs, h => by
    cases gs with
    | nil => exact .nil
    | cons g gs => simp [sortKeysMembers] at h
  | (k, x) :: fs, gs, h => by
    cases gs with
    | nil => simp [sortKeysMembers] at h
    | cons g gs =>
      obtain ⟨l, y⟩ := g
      simp only [sortKeysMembers, List.cons.injEq, Prod.mk.injEq] at h
      obtain ⟨⟨rfl, hxy⟩, hmore⟩ := h
      exact .cons (same_of_sortKeys_eq hxy) (same_of_sortKeysMembers_eq hmore)

end

/-- **The normal form is exact**, where keys are distinct. -/
theorem sortKeys_eq_iff {x y : Doc S} (hx : x.distinctKeys = true) :
    x.sortKeys = y.sortKeys ↔ Same x y := by
  constructor
  · exact same_of_sortKeys_eq
  · intro h
    exact h.sortKeys_eq hx

/-- **The text of the normal form identifies the content.** -/
theorem text_sortKeys_eq_iff {fmt : ScalarFormat S} {x y : Doc S} (hx : x.distinctKeys = true) :
    text fmt x.sortKeys = text fmt y.sortKeys ↔ Same x y := by
  rw [text_injective.eq_iff]
  exact sortKeys_eq_iff hx

end Doc

end Congine
