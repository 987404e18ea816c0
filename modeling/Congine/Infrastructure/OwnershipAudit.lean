import Congine.Infrastructure.ObjectGraph
import Mathlib.Data.Finset.Card
import Mathlib.Data.Finset.SDiff
import Mathlib.Logic.Relation
/-!
# The ownership audit on object graphs

A value is cacheable when all that is reached from it through built-in
dictionaries and lists is plain, and no container reaches itself. The
audit decides that, on any finite graph, sharing and cycles included: the
containers it has not entered are fewer with every frame, and it refuses
a value only for something that is not plain or a way back to the path.
-/

namespace Congine

/-! ## Reaching -/

/-- What a container holds, of the two kinds the walk enters. -/
def PyObject.children : PyObject → List PyValue
  | .dict items => items.map Prod.snd
  | .list items => items
  | .other => []

/-- What is reached from a value through built-in dictionaries and lists. -/
inductive Reaches (heap : Heap) : PyValue → PyValue → Prop where
  | refl {v : PyValue} : Reaches heap v v
  | child {a : ℕ} {v w : PyValue} : v ∈ (heap a).children → Reaches heap v w →
      Reaches heap (.ref a) w

/-- One container is directly in another. -/
def Holds (heap : Heap) (a b : ℕ) : Prop := PyValue.ref b ∈ (heap a).children

/-- `type(key) is str`. -/
def PyKey.isStr : PyKey → Bool
  | .str _ => true
  | .other => false

/-- A value that is plain, whatever it holds: null, a boolean, an integer, a
finite float, a string, a built-in list, or a built-in dictionary with
string keys. -/
def PlainValue (heap : Heap) : PyValue → Prop
  | .null | .bool _ | .int _ | .str _ => True
  | .float q => q.isSome = true
  | .ref a =>
      match heap a with
      | .dict items => ∀ item ∈ items, item.1.isStr = true
      | .list _ => True
      | .other => False
  | .other => False

/-- What the audit is to report. -/
structure Cacheable (heap : Heap) (v : PyValue) : Prop where
  plain : ∀ w, Reaches heap v w → PlainValue heap w
  acyclic : ∀ a, Reaches heap v (.ref a) → ¬ Relation.TransGen (Holds heap) a a

section Reach

variable {heap : Heap} {v w : PyValue} {a b : ℕ}

/-- What a child reaches by containers, its container does. -/
theorem transGen_of_reaches (hv : v ∈ (heap a).children) (h : Reaches heap v (.ref b)) :
    Relation.TransGen (Holds heap) a b := by
  generalize hw : PyValue.ref b = w at h
  induction h generalizing a with
  | refl =>
    subst hw
    exact .single hv
  | child hmem _ ih => exact .head hv (ih hmem hw)

end Reach

/-! ## The loops of the walk -/

section Loops

variable {walk : PyValue → Except Exc (Option Json)}

theorem ownItems_returns {items : List (PyKey × PyValue)}
    (h : ∀ item ∈ items, ∃ r, walk item.2 = .ok r) : ∃ r, ownItems walk items = .ok r := by
  induction items with
  | nil => exact ⟨_, rfl⟩
  | cons item items ih =>
    rcases item with ⟨k | _, value⟩
    · obtain ⟨r, hr⟩ := h (.str k, value) List.mem_cons_self
      obtain ⟨rest, hrest⟩ := ih fun item hitem => h item (List.mem_cons_of_mem _ hitem)
      have hvalue : walk value = .ok r := hr
      rcases r with _ | child
      · exact ⟨none, by simp [ownItems, hvalue, Except.bind]⟩
      · exact ⟨_, by simp [ownItems, hvalue, hrest, Except.bind, Except.map]; rfl⟩
    · exact ⟨none, rfl⟩

theorem ownList_returns {values : List PyValue} (h : ∀ v ∈ values, ∃ r, walk v = .ok r) :
    ∃ r, ownList walk values = .ok r := by
  induction values with
  | nil => exact ⟨_, rfl⟩
  | cons value values ih =>
    obtain ⟨r, hr⟩ := h value List.mem_cons_self
    obtain ⟨rest, hrest⟩ := ih fun v hv => h v (List.mem_cons_of_mem _ hv)
    rcases r with _ | child
    · exact ⟨none, by simp [ownList, hr, Except.bind]⟩
    · exact ⟨_, by simp [ownList, hr, hrest, Except.bind, Except.map]; rfl⟩

/-- The loop gives up at a key that is no string, or with the walk. -/
theorem ownItems_refuses {items : List (PyKey × PyValue)} (h : ownItems walk items = .ok none) :
    ∃ item ∈ items, item.1.isStr = false ∨ walk item.2 = .ok none := by
  induction items with
  | nil => simp [ownItems] at h
  | cons item items ih =>
    rcases item with ⟨k | _, value⟩
    · rcases ownItems_cons_none h with hnone | hnone
      · exact ⟨_, List.mem_cons_self, .inr hnone⟩
      · obtain ⟨item, hitem, hwhy⟩ := ih hnone
        exact ⟨item, List.mem_cons_of_mem _ hitem, hwhy⟩
    · exact ⟨_, List.mem_cons_self, .inl rfl⟩

theorem ownList_refuses {values : List PyValue} (h : ownList walk values = .ok none) :
    ∃ v ∈ values, walk v = .ok none := by
  induction values with
  | nil => simp [ownList] at h
  | cons value values ih =>
    rcases ownList_cons_none h with hnone | hnone
    · exact ⟨value, List.mem_cons_self, hnone⟩
    · obtain ⟨v, hv, hrefused⟩ := ih hnone
      exact ⟨v, List.mem_cons_of_mem _ hv, hrefused⟩

end Loops

/-! ## Termination -/

/-- **The walk returns**, as soon as it has a frame for every container not
on its path: each frame puts one more of a finite number there. -/
theorem own_returns {heap : Heap} (containers : Finset ℕ) {n : ℕ} {active : List ℕ} {v : PyValue}
    (hreach : ∀ a, Reaches heap v (.ref a) → a ∈ containers)
    (hframes : (containers \ active.toFinset).card < n) :
    ∃ r, own heap n active v = .ok r := by
  induction n generalizing active v with
  | zero => omega
  | succ n ih =>
    rcases v with _ | b | i | q | s | a | _
    · exact ⟨_, rfl⟩
    · exact ⟨_, rfl⟩
    · exact ⟨_, rfl⟩
    · exact ⟨_, rfl⟩
    · exact ⟨_, rfl⟩
    · by_cases ha : a ∈ active
      · rw [own]
        rcases heap a with items | items | _
        · exact ⟨none, by simp [ha]⟩
        · exact ⟨none, by simp [ha]⟩
        · exact ⟨none, rfl⟩
      · -- Inside this container one address fewer is left to enter.
        have hless : (containers \ (a :: active).toFinset).card < n := by
          have hmem : a ∈ containers \ active.toFinset := by
            simp [hreach a .refl, ha]
          have herase : containers \ (a :: active).toFinset =
              (containers \ active.toFinset).erase a := by
            ext b
            simp only [List.toFinset_cons, Finset.mem_sdiff, Finset.mem_insert, not_or,
              Finset.mem_erase]
            tauto
          rw [herase, Finset.card_erase_of_mem hmem]
          have := Finset.card_pos.mpr ⟨a, hmem⟩
          omega
        have hchild : ∀ w ∈ (heap a).children, ∃ r, own heap n (a :: active) w = .ok r := by
          intro w hw
          exact ih (fun b hb => hreach b (.child hw hb)) hless
        rw [own]
        rcases ho : heap a with items | items | _
        · rw [ho] at hchild
          have hitems : ∀ item ∈ items, ∃ r, own heap n (a :: active) item.2 = .ok r :=
            fun item hitem => hchild item.2 (List.mem_map_of_mem hitem)
          obtain ⟨r, hr⟩ := ownItems_returns hitems
          exact ⟨_, by simp [ha, hr, Except.map]; rfl⟩
        · rw [ho] at hchild
          obtain ⟨r, hr⟩ : ∃ r, ownList (own heap n (a :: active)) items = .ok r :=
            ownList_returns hchild
          exact ⟨_, by simp [ha, hr, Except.map]; rfl⟩
        · exact ⟨none, rfl⟩
    · exact ⟨_, rfl⟩

/-! ## The verdict -/

section Verdict

variable {heap : Heap}

/-- Refused is only what is not plain, leads back to the path, or goes round. -/
theorem own_refuses {n : ℕ} {active : List ℕ} {v : PyValue}
    (h : own heap n active v = .ok none) :
    (∃ w, Reaches heap v w ∧ ¬ PlainValue heap w) ∨ (∃ a ∈ active, Reaches heap v (.ref a)) ∨
      ∃ a, Reaches heap v (.ref a) ∧ Relation.TransGen (Holds heap) a a := by
  induction n generalizing active v with
  | zero => cases h
  | succ n ih =>
    rcases v with _ | b | i | q | s | a | _
    · cases h
    · cases h
    · cases h
    · rcases q with _ | q
      · exact .inl ⟨_, .refl, by simp [PlainValue]⟩
      · cases h
    · cases h
    · -- A child is refused for one of the three: a way back to this container is a cycle.
      have hchild : ∀ w ∈ (heap a).children, own heap n (a :: active) w = .ok none →
          (∃ w, Reaches heap (.ref a) w ∧ ¬ PlainValue heap w) ∨
            (∃ b ∈ active, Reaches heap (.ref a) (.ref b)) ∨
            ∃ b, Reaches heap (.ref a) (.ref b) ∧ Relation.TransGen (Holds heap) b b := by
        intro w hw hnone
        rcases ih hnone with ⟨x, hx, hplain⟩ | ⟨b, hb, hreach⟩ | ⟨b, hreach, hcycle⟩
        · exact .inl ⟨x, .child hw hx, hplain⟩
        · rcases List.mem_cons.mp hb with rfl | hb
          · exact .inr (.inr ⟨b, .refl, transGen_of_reaches hw hreach⟩)
          · exact .inr (.inl ⟨b, hb, .child hw hreach⟩)
        · exact .inr (.inr ⟨b, .child hw hreach, hcycle⟩)
      rw [own] at h
      rcases ho : heap a with items | items | _
      · rw [ho] at hchild
        simp only [ho] at h
        split_ifs at h with ha
        · exact .inr (.inl ⟨a, ha, .refl⟩)
        · obtain ⟨fields, hfields, hmap⟩ := map_map_eq_ok h
          obtain rfl : fields = none := by simpa using hmap
          obtain ⟨item, hitem, hkey | hnone⟩ := ownItems_refuses hfields
          · refine .inl ⟨.ref a, .refl, ?_⟩
            intro hplain
            simp only [PlainValue, ho] at hplain
            rw [hplain item hitem] at hkey
            cases hkey
          · exact hchild item.2 (List.mem_map_of_mem hitem) hnone
      · rw [ho] at hchild
        simp only [ho] at h
        split_ifs at h with ha
        · exact .inr (.inl ⟨a, ha, .refl⟩)
        · obtain ⟨cs, hcs, hmap⟩ := map_map_eq_ok h
          obtain rfl : cs = none := by simpa using hmap
          obtain ⟨w, hw, hnone⟩ := ownList_refuses hcs
          exact hchild w hw hnone
      · exact .inl ⟨.ref a, .refl, by simp [PlainValue, ho]⟩
    · exact .inl ⟨_, .refl, by simp [PlainValue]⟩

theorem contentItems_children {read : PyValue → Option Json} {items : List (PyKey × PyValue)}
    {fields : List (String × Json)} (h : contentItems read items = some fields) :
    ∀ item ∈ items, item.1.isStr = true ∧ ∃ c, read item.2 = some c := by
  induction items generalizing fields with
  | nil => simp
  | cons item items ih =>
    rcases item with ⟨k | _, value⟩
    · simp only [contentItems, Option.bind_eq_some_iff, Option.map_eq_some_iff] at h
      obtain ⟨child, hchild, rest, hrest, -⟩ := h
      intro item hitem
      rcases List.mem_cons.mp hitem with rfl | hitem
      · exact ⟨rfl, child, hchild⟩
      · exact ih hrest item hitem
    · cases h

theorem contentList_children {read : PyValue → Option Json} {values : List PyValue}
    {cs : List Json} (h : contentList read values = some cs) :
    ∀ v ∈ values, ∃ c, read v = some c := by
  induction values generalizing cs with
  | nil => simp
  | cons value values ih =>
    simp only [contentList, Option.bind_eq_some_iff, Option.map_eq_some_iff] at h
    obtain ⟨child, hchild, rest, hrest, -⟩ := h
    intro v hv
    rcases List.mem_cons.mp hv with rfl | hv
    · exact ⟨child, hchild⟩
    · exact ih hrest v hv

/-- What a document is read of is plain, and its children are read a level less deep. -/
theorem content_children {n a : ℕ} {c : Json} (h : content heap n (.ref a) = some c) :
    PlainValue heap (.ref a) ∧ ∃ m, n = m + 1 ∧
      ∀ w ∈ (heap a).children, ∃ d, content heap m w = some d := by
  rcases n with _ | m
  · cases h
  · rw [content] at h
    rcases ho : heap a with items | items | _
    · simp only [ho, Option.map_eq_some_iff] at h
      obtain ⟨fields, hfields, -⟩ := h
      have hitems := contentItems_children hfields
      refine ⟨?_, m, rfl, ?_⟩
      · simp only [PlainValue, ho]
        intro item hitem
        exact (hitems item hitem).1
      · intro w hw
        obtain ⟨item, hitem, rfl⟩ := List.mem_map.mp hw
        exact (hitems item hitem).2
    · simp only [ho, Option.map_eq_some_iff] at h
      obtain ⟨cs, hcs, -⟩ := h
      exact ⟨by simp only [PlainValue, ho], m, rfl, contentList_children hcs⟩
    · simp [ho] at h

theorem plainValue_of_content {n : ℕ} {v w : PyValue} {c : Json}
    (h : content heap n v = some c) (hreach : Reaches heap v w) : PlainValue heap w := by
  induction hreach generalizing n c with
  | @refl v =>
    rcases v with _ | b | i | q | s | a | _
    · trivial
    · trivial
    · trivial
    · rcases n with _ | n
      · cases h
      · obtain ⟨x, hx, -⟩ := Option.map_eq_some_iff.mp h
        simp [PlainValue, hx]
    · trivial
    · exact (content_children h).1
    · rcases n with _ | n
      · cases h
      · cases h
  | child hmem _ ih =>
    obtain ⟨-, m, -, hchildren⟩ := content_children h
    obtain ⟨d, hd⟩ := hchildren _ hmem
    exact ih hd

/-- Going down a document gets less deep. -/
theorem content_of_transGen {n a b : ℕ} {c : Json} (h : content heap n (.ref a) = some c)
    (hpath : Relation.TransGen (Holds heap) a b) :
    ∃ m < n, ∃ d, content heap m (.ref b) = some d := by
  induction hpath with
  | single hab =>
    obtain ⟨-, m, rfl, hchildren⟩ := content_children h
    exact ⟨m, by omega, hchildren _ hab⟩
  | tail _ hbc ih =>
    obtain ⟨m, hm, d, hd⟩ := ih
    obtain ⟨-, k, rfl, hchildren⟩ := content_children hd
    exact ⟨k, by omega, hchildren _ hbc⟩

theorem not_transGen_of_content {n a : ℕ} {c : Json} (h : content heap n (.ref a) = some c) :
    ¬ Relation.TransGen (Holds heap) a a := by
  intro hcycle
  induction n using Nat.strong_induction_on generalizing c with
  | _ n ih =>
    obtain ⟨m, hm, d, hd⟩ := content_of_transGen h hcycle
    exact ih m hm hd

/-- What is reached in a document is a document. -/
theorem content_of_reaches {n : ℕ} {v w : PyValue} {c : Json} (h : content heap n v = some c)
    (hreach : Reaches heap v w) : ∃ m d, content heap m w = some d := by
  induction hreach generalizing n c with
  | refl => exact ⟨n, c, h⟩
  | child hmem _ ih =>
    obtain ⟨-, m, -, hchildren⟩ := content_children h
    obtain ⟨d, hd⟩ := hchildren _ hmem
    exact ih hd

/-- **Where the walk returns, its verdict is exact.** -/
theorem own_isSome_iff {n : ℕ} {v : PyValue} {owned : Option Json}
    (h : own heap n [] v = .ok owned) : owned.isSome = true ↔ Cacheable heap v := by
  constructor
  · intro hsome
    obtain ⟨c, rfl⟩ := Option.isSome_iff_exists.mp hsome
    have hread := own_some h
    refine ⟨fun w hw => plainValue_of_content hread hw, fun a ha => ?_⟩
    obtain ⟨m, d, hd⟩ := content_of_reaches hread ha
    exact not_transGen_of_content hd
  · intro hcacheable
    rcases owned with _ | c
    · rcases own_refuses h with ⟨w, hw, hplain⟩ | ⟨a, ha, -⟩ | ⟨a, ha, hcycle⟩
      · exact absurd (hcacheable.plain w hw) hplain
      · exact absurd ha List.not_mem_nil
      · exact absurd hcycle (hcacheable.acyclic a ha)
    · rfl

end Verdict

end Congine
