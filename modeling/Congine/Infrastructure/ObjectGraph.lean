import Congine.Kernel.Models
/-!
# Objects a caller keeps

A schema arrives as an object of its caller, who may change it at any
time: containers by address, shared and perhaps cyclic. `content` reads an
object as a document, as far down as it is told to, and what an object
denotes is what some depth makes of it. `own` is the walk that copies an
object and audits it; it stops at a container it is inside of, where
`content` would go round.
-/

namespace Congine

/-- A value held by a variable or a container. `other` is a value of a
class no walk takes for plain JSON. -/
inductive PyValue where
  | null
  | bool (b : Bool)
  | int (i : ℤ)
  /-- A float, with `none` for the ones that are not finite. -/
  | float (q : Option ℚ)
  | str (s : String)
  | ref (address : ℕ)
  | other

/-- A dictionary key, by `type(key) is str`. -/
inductive PyKey where
  | str (s : String)
  | other

/-- A container, by its exact class. -/
inductive PyObject where
  | dict (items : List (PyKey × PyValue))
  | list (items : List PyValue)
  | other

/-- The containers at one instant. -/
abbrev Heap := ℕ → PyObject

/-! ## What an object denotes -/

/-- The members of a dictionary, read one by one. -/
def contentItems (read : PyValue → Option Json) :
    List (PyKey × PyValue) → Option (List (String × Json))
  | [] => some []
  | (.other, _) :: _ => none
  | (.str k, value) :: items =>
      (read value).bind fun child => (contentItems read items).map ((k, child) :: ·)

/-- The elements of a list, read one by one. -/
def contentList (read : PyValue → Option Json) : List PyValue → Option (List Json)
  | [] => some []
  | value :: values =>
      (read value).bind fun child => (contentList read values).map (child :: ·)

/-- A value read down to a depth. -/
def content (heap : Heap) : ℕ → PyValue → Option Json
  | 0, _ => none
  | _ + 1, .null => some .null
  | _ + 1, .bool b => some (.bool b)
  | _ + 1, .int i => some (.int i)
  | _ + 1, .float q => q.map .float
  | _ + 1, .str s => some (.str s)
  -- A container is read with one level less for what it holds.
  | n + 1, .ref a =>
      match heap a with
      | .dict items => (contentItems (content heap n) items).map .obj
      | .list items => (contentList (content heap n) items).map .arr
      | .other => none
  | _ + 1, .other => none

/-- The value denotes a document: plain JSON all the way down. -/
def Denotes (heap : Heap) (value : PyValue) (c : Json) : Prop :=
  ∃ n, content heap n value = some c

section Monotone

variable {read read' : PyValue → Option Json}

theorem contentItems_mono (h : ∀ v c, read v = some c → read' v = some c)
    {items : List (PyKey × PyValue)} {fields : List (String × Json)}
    (hi : contentItems read items = some fields) : contentItems read' items = some fields := by
  induction items generalizing fields with
  | nil => exact hi
  | cons item items ih =>
    rcases item with ⟨k | _, value⟩
    · simp only [contentItems, Option.bind_eq_some_iff, Option.map_eq_some_iff] at hi ⊢
      obtain ⟨child, hchild, rest, hrest, rfl⟩ := hi
      exact ⟨child, h value child hchild, rest, ih hrest, rfl⟩
    · cases hi

theorem contentList_mono (h : ∀ v c, read v = some c → read' v = some c)
    {values : List PyValue} {cs : List Json}
    (hi : contentList read values = some cs) : contentList read' values = some cs := by
  induction values generalizing cs with
  | nil => exact hi
  | cons value values ih =>
    simp only [contentList, Option.bind_eq_some_iff, Option.map_eq_some_iff] at hi ⊢
    obtain ⟨child, hchild, rest, hrest, rfl⟩ := hi
    exact ⟨child, h value child hchild, rest, ih hrest, rfl⟩

end Monotone

theorem content_succ {heap : Heap} {n : ℕ} {value : PyValue} {c : Json}
    (h : content heap n value = some c) : content heap (n + 1) value = some c := by
  induction n generalizing value c with
  | zero => cases h
  | succ n ih =>
    rcases value with _ | b | i | q | s | a | _
    · exact h
    · exact h
    · exact h
    · exact h
    · exact h
    · rw [content] at h ⊢
      rcases ho : heap a with items | items | _
      · simp only [ho, Option.map_eq_some_iff] at h ⊢
        obtain ⟨fields, hfields, rfl⟩ := h
        exact ⟨fields, contentItems_mono (fun v c => ih) hfields, rfl⟩
      · simp only [ho, Option.map_eq_some_iff] at h ⊢
        obtain ⟨cs, hcs, rfl⟩ := h
        exact ⟨cs, contentList_mono (fun v c => ih) hcs, rfl⟩
      · simp [ho] at h
    · exact h

theorem content_mono {heap : Heap} {n m : ℕ} (hnm : n ≤ m) {value : PyValue} {c : Json}
    (h : content heap n value = some c) : content heap m value = some c := by
  induction m, hnm using Nat.le_induction with
  | base => exact h
  | succ m _ ih => exact content_succ ih

/-- **A value denotes one document at most.** -/
theorem Denotes.unique {heap : Heap} {value : PyValue} {c c' : Json} (h : Denotes heap value c)
    (h' : Denotes heap value c') : c = c' := by
  obtain ⟨n, hn⟩ := h
  obtain ⟨m, hm⟩ := h'
  have hmax := content_mono (Nat.le_max_left n m) hn
  exact Option.some.inj (hmax.symm.trans (content_mono (Nat.le_max_right n m) hm))

/-! ## Owning an object -/

/-- The loop over the members of a dictionary: the first that cannot be
owned ends it. -/
def ownItems (walk : PyValue → Except Exc (Option Json)) :
    List (PyKey × PyValue) → Except Exc (Option (List (String × Json)))
  | [] => .ok (some [])
  | (.other, _) :: _ => .ok none
  | (.str k, value) :: items =>
      (walk value).bind fun child =>
        match child with
        | none => .ok none
        | some child => (ownItems walk items).map (·.map ((k, child) :: ·))

/-- The loop over the elements of a list. -/
def ownList (walk : PyValue → Except Exc (Option Json)) :
    List PyValue → Except Exc (Option (List Json))
  | [] => .ok (some [])
  | value :: values =>
      (walk value).bind fun child =>
        match child with
        | none => .ok none
        | some child => (ownList walk values).map (·.map (child :: ·))

/-- `_own`, over the frames the interpreter has left and the containers on
the path: an owned copy, or `none` for what cannot be owned. -/
def own (heap : Heap) : ℕ → List ℕ → PyValue → Except Exc (Option Json)
  | 0, _, _ => .error .recursionError
  | _ + 1, _, .null => .ok (some .null)
  | _ + 1, _, .bool b => .ok (some (.bool b))
  | _ + 1, _, .int i => .ok (some (.int i))
  | _ + 1, _, .float q => .ok (q.map .float)
  | _ + 1, _, .str s => .ok (some (.str s))
  | n + 1, active, .ref a =>
      match heap a with
      | .dict items =>
          -- The walk is inside this container: a cycle, which no document has.
          if a ∈ active then .ok none
          else (ownItems (own heap n (a :: active)) items).map (·.map .obj)
      | .list items =>
          if a ∈ active then .ok none
          else (ownList (own heap n (a :: active)) items).map (·.map .arr)
      | .other => .ok none
  | _ + 1, _, .other => .ok none

/-- `own_and_audit`. -/
def ownAndAudit (heap : Heap) (frames : ℕ) (value : PyValue) : Except Exc (Option Json) :=
  own heap frames [] value

section Walk

variable {walk : PyValue → Except Exc (Option Json)} {read : PyValue → Option Json}

/-! What a turn of either loop can do: it stops with the walk, or goes on
with the child the walk owned. -/

theorem ownItems_cons_some {k : String} {value : PyValue} {items : List (PyKey × PyValue)}
    {fields : List (String × Json)}
    (h : ownItems walk ((.str k, value) :: items) = .ok (some fields)) :
    ∃ child rest, walk value = .ok (some child) ∧ ownItems walk items = .ok (some rest) ∧
      (k, child) :: rest = fields := by
  rw [ownItems] at h
  rcases hw : walk value with exc | _ | child
  · simp [hw, Except.bind] at h
  · simp [hw, Except.bind] at h
  · rcases hrest : ownItems walk items with exc | _ | rest
    · simp [hw, hrest, Except.bind, Except.map] at h
    · simp [hw, hrest, Except.bind, Except.map] at h
    · exact ⟨child, rest, rfl, rfl, by simpa [hw, hrest, Except.bind, Except.map] using h⟩

theorem ownItems_cons_none {k : String} {value : PyValue} {items : List (PyKey × PyValue)}
    (h : ownItems walk ((.str k, value) :: items) = .ok none) :
    walk value = .ok none ∨ ownItems walk items = .ok none := by
  rw [ownItems] at h
  rcases hw : walk value with exc | _ | child
  · simp [hw, Except.bind] at h
  · exact .inl rfl
  · rcases hrest : ownItems walk items with exc | _ | rest
    · simp [hw, hrest, Except.bind, Except.map] at h
    · exact .inr rfl
    · simp [hw, hrest, Except.bind, Except.map] at h

theorem ownList_cons_some {value : PyValue} {values : List PyValue} {cs : List Json}
    (h : ownList walk (value :: values) = .ok (some cs)) :
    ∃ child rest, walk value = .ok (some child) ∧ ownList walk values = .ok (some rest) ∧
      child :: rest = cs := by
  rw [ownList] at h
  rcases hw : walk value with exc | _ | child
  · simp [hw, Except.bind] at h
  · simp [hw, Except.bind] at h
  · rcases hrest : ownList walk values with exc | _ | rest
    · simp [hw, hrest, Except.bind, Except.map] at h
    · simp [hw, hrest, Except.bind, Except.map] at h
    · exact ⟨child, rest, rfl, rfl, by simpa [hw, hrest, Except.bind, Except.map] using h⟩

theorem ownList_cons_none {value : PyValue} {values : List PyValue}
    (h : ownList walk (value :: values) = .ok none) :
    walk value = .ok none ∨ ownList walk values = .ok none := by
  rw [ownList] at h
  rcases hw : walk value with exc | _ | child
  · simp [hw, Except.bind] at h
  · exact .inl rfl
  · rcases hrest : ownList walk values with exc | _ | rest
    · simp [hw, hrest, Except.bind, Except.map] at h
    · exact .inr rfl
    · simp [hw, hrest, Except.bind, Except.map] at h

theorem ownItems_some (h : ∀ v c, walk v = .ok (some c) → read v = some c)
    {items : List (PyKey × PyValue)} {fields : List (String × Json)}
    (hi : ownItems walk items = .ok (some fields)) : contentItems read items = some fields := by
  induction items generalizing fields with
  | nil =>
    obtain rfl : [] = fields := by simpa [ownItems] using hi
    rfl
  | cons item items ih =>
    rcases item with ⟨k | _, value⟩
    · obtain ⟨child, rest, hchild, hrest, rfl⟩ := ownItems_cons_some hi
      rw [contentItems, h value child hchild, ih hrest]
      rfl
    · simp [ownItems] at hi

theorem ownList_some (h : ∀ v c, walk v = .ok (some c) → read v = some c)
    {values : List PyValue} {cs : List Json}
    (hi : ownList walk values = .ok (some cs)) : contentList read values = some cs := by
  induction values generalizing cs with
  | nil =>
    obtain rfl : [] = cs := by simpa [ownList] using hi
    rfl
  | cons value values ih =>
    obtain ⟨child, rest, hchild, hrest, rfl⟩ := ownList_cons_some hi
    rw [contentList, h value child hchild, ih hrest]
    rfl

/-- Where the loop gives up on members that can be read, the walk gave up
on one of them. -/
theorem ownItems_none {items : List (PyKey × PyValue)} (hi : ownItems walk items = .ok none)
    {fields : List (String × Json)} (hc : contentItems read items = some fields) :
    ∃ v c, walk v = .ok none ∧ read v = some c := by
  induction items generalizing fields with
  | nil => simp [ownItems] at hi
  | cons item items ih =>
    rcases item with ⟨k | _, value⟩
    · simp only [contentItems, Option.bind_eq_some_iff, Option.map_eq_some_iff] at hc
      -- The member given up on is this one, or among the rest.
      obtain ⟨child, hchild, rest, hrest, -⟩ := hc
      rcases ownItems_cons_none hi with hnone | hnone
      · exact ⟨value, child, hnone, hchild⟩
      · exact ih hnone hrest
    · cases hc

theorem ownList_none {values : List PyValue} (hi : ownList walk values = .ok none)
    {cs : List Json} (hc : contentList read values = some cs) :
    ∃ v c, walk v = .ok none ∧ read v = some c := by
  induction values generalizing cs with
  | nil => simp [ownList] at hi
  | cons value values ih =>
    simp only [contentList, Option.bind_eq_some_iff, Option.map_eq_some_iff] at hc
    obtain ⟨child, hchild, rest, hrest, -⟩ := hc
    rcases ownList_cons_none hi with hnone | hnone
    · exact ⟨value, child, hnone, hchild⟩
    · exact ih hnone hrest

end Walk

/-- A container is owned as what its loop makes, or not at all. -/
theorem map_map_eq_ok {α : Type} {f : α → Json} {x : Except Exc (Option α)} {o : Option Json}
    (h : x.map (·.map f) = .ok o) : ∃ o', x = .ok o' ∧ o'.map f = o := by
  rcases x with exc | o'
  · cases h
  · exact ⟨o', rfl, Except.ok.inj h⟩

/-- **What is owned is what was there.** -/
theorem own_some {heap : Heap} {n : ℕ} {active : List ℕ} {value : PyValue} {c : Json}
    (h : own heap n active value = .ok (some c)) : content heap n value = some c := by
  induction n generalizing active value c with
  | zero => cases h
  | succ n ih =>
    rcases value with _ | b | i | q | s | a | _
    · exact Except.ok.inj h
    · exact Except.ok.inj h
    · exact Except.ok.inj h
    · exact Except.ok.inj h
    · exact Except.ok.inj h
    · rw [own] at h
      rw [content]
      rcases ho : heap a with items | items | _
      · simp only [ho] at h ⊢
        split_ifs at h with ha
        · cases h
        · obtain ⟨fields, hfields, hmap⟩ := map_map_eq_ok h
          rcases fields with _ | fields
          · cases hmap
          · rw [ownItems_some (fun v c => ih) hfields]
            exact hmap
      · simp only [ho] at h ⊢
        split_ifs at h with ha
        · cases h
        · obtain ⟨cs, hcs, hmap⟩ := map_map_eq_ok h
          rcases cs with _ | cs
          · cases hmap
          · rw [ownList_some (fun v c => ih) hcs]
            exact hmap
      · simp [ho] at h
    · cases h

/-- What the walk gives up on can be read only by way of a container on its
path: going round by such a container, the reading would never end. -/
theorem own_none {heap : Heap} {n : ℕ} {active : List ℕ} {value : PyValue}
    (h : own heap n active value = .ok none) {m : ℕ} {c : Json}
    (hc : content heap m value = some c) :
    ∃ a ∈ active, ∃ m' ≤ m, ∃ c', content heap m' (.ref a) = some c' := by
  induction n generalizing active value m c with
  | zero => cases h
  | succ n ih =>
    rcases m with _ | m
    · cases hc
    rcases value with _ | b | i | q | s | a | _
    · cases h
    · cases h
    · cases h
    · rcases q with _ | q
      · cases hc
      · cases h
    · cases h
    · -- The child given up on leads back to the path, or to the container itself, read less deep.
      induction m using Nat.strong_induction_on generalizing c with
      | _ m ihm =>
        have hback : ∀ v d, own heap n (a :: active) v = .ok none → content heap m v = some d →
            ∃ b ∈ active, ∃ m' ≤ m + 1, ∃ c', content heap m' (.ref b) = some c' := by
          intro v d hv hd
          obtain ⟨b, hb, m', hm', c', hc'⟩ := ih hv hd
          rcases List.mem_cons.mp hb with rfl | hb
          · rcases m' with _ | m'
            · cases hc'
            · obtain ⟨b', hb', k, hk, hread⟩ := ihm m' (by omega) hc'
              exact ⟨b', hb', k, by omega, hread⟩
          · exact ⟨b, hb, m', by omega, c', hc'⟩
        rw [own] at h
        have hread := hc
        rw [content] at hc
        rcases ho : heap a with items | items | _
        · simp only [ho] at h hc
          split_ifs at h with ha
          · exact ⟨a, ha, m + 1, le_rfl, c, hread⟩
          · obtain ⟨fields, hfields, hmap⟩ := map_map_eq_ok h
            obtain rfl : fields = none := by simpa using hmap
            obtain ⟨cs, hcs, -⟩ := Option.map_eq_some_iff.mp hc
            obtain ⟨v, d, hv, hd⟩ := ownItems_none hfields hcs
            exact hback v d hv hd
        · simp only [ho] at h hc
          split_ifs at h with ha
          · exact ⟨a, ha, m + 1, le_rfl, c, hread⟩
          · obtain ⟨fields, hfields, hmap⟩ := map_map_eq_ok h
            obtain rfl : fields = none := by simpa using hmap
            obtain ⟨cs, hcs, -⟩ := Option.map_eq_some_iff.mp hc
            obtain ⟨v, d, hv, hd⟩ := ownList_none hfields hcs
            exact hback v d hv hd
        · simp [ho] at hc
    · cases hc

/-- **The audit is exact**: what it owns is what the object denotes, and
what it refuses denotes nothing. -/
theorem ownAndAudit_spec {heap : Heap} {frames : ℕ} {value : PyValue} {owned : Option Json}
    (h : ownAndAudit heap frames value = .ok owned) :
    (∀ c, owned = some c → Denotes heap value c) ∧
      (owned = none → ∀ c, ¬ Denotes heap value c) := by
  refine ⟨?_, ?_⟩
  · rintro c rfl
    exact ⟨frames, own_some h⟩
  · rintro rfl c ⟨m, hm⟩
    obtain ⟨a, ha, -⟩ := own_none h hm
    exact List.not_mem_nil ha

end Congine
