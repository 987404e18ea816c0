import Congine.Infrastructure.OwnershipAudit
import Mathlib.Logic.Function.Basic
/-!
# The snapshot on the heap

The walk again, now with the containers it builds. An arena is a heap and
the address its free part starts at; the walk takes a container from there
before it enters one, and writes to what it took and to nothing else. So
what the caller holds stays as it was, the snapshot reads as the document
the walk on its own makes (`sound_own`), and nothing in it is the caller's.
-/

namespace Congine

/-- A heap with the addresses from `next` on free. -/
structure Arena where
  heap : Heap
  next : ℕ

namespace Arena

/-- The container at an address is now `obj`. -/
def set (st : Arena) (target : ℕ) (obj : PyObject) : Arena :=
  { st with heap := Function.update st.heap target obj }

/-- A new container, at the address that was free next. -/
def alloc (st : Arena) (obj : PyObject) : Arena :=
  { st.set st.next obj with next := st.next + 1 }

/-- `owned[key] = child`: the keys of a dictionary are distinct, so each is new. -/
def setItem (st : Arena) (target : ℕ) (key : String) (child : PyValue) : Arena :=
  match st.heap target with
  | .dict items => st.set target (.dict (items ++ [(.str key, child)]))
  | _ => st

/-- `items.append(child)`. -/
def append (st : Arena) (target : ℕ) (child : PyValue) : Arena :=
  match st.heap target with
  | .list items => st.set target (.list (items ++ [child]))
  | _ => st

/-- A step of the walk: the owned value, or `none`, and the arena after it. -/
abbrev Walk := PyValue → Arena → Except Exc (Option PyValue × Arena)

/-- The loop over the members of a dictionary, into the one at `target`. -/
def ownItems (walk : Walk) (target : ℕ) :
    List (PyKey × PyValue) → Arena → Except Exc (Option PyValue × Arena)
  | [], st => .ok (some (.ref target), st)
  | (.other, _) :: _, st => .ok (none, st)
  | (.str k, value) :: items, st =>
      (walk value st).bind fun r =>
        match r.1 with
        | none => .ok (none, r.2)
        | some child => ownItems walk target items (r.2.setItem target k child)

/-- The loop over the elements of a list, into the one at `target`. -/
def ownList (walk : Walk) (target : ℕ) :
    List PyValue → Arena → Except Exc (Option PyValue × Arena)
  | [], st => .ok (some (.ref target), st)
  | value :: values, st =>
      (walk value st).bind fun r =>
        match r.1 with
        | none => .ok (none, r.2)
        | some child => ownList walk target values (r.2.append target child)

/-- `_own`, with the containers it builds. -/
def own : ℕ → List ℕ → Walk
  | 0, _, _, _ => .error .recursionError
  | _ + 1, _, .null, st => .ok (some .null, st)
  | _ + 1, _, .bool b, st => .ok (some (.bool b), st)
  | _ + 1, _, .int i, st => .ok (some (.int i), st)
  | _ + 1, _, .float q, st => .ok (q.map fun x => .float (some x), st)
  | _ + 1, _, .str s, st => .ok (some (.str s), st)
  | n + 1, active, .ref a, st =>
      match st.heap a with
      | .dict items =>
          if a ∈ active then .ok (none, st)
          else ownItems (own n (a :: active)) st.next items (st.alloc (.dict []))
      | .list items =>
          if a ∈ active then .ok (none, st)
          else ownList (own n (a :: active)) st.next items (st.alloc (.list []))
      | .other => .ok (none, st)
  | _ + 1, _, .other, st => .ok (none, st)

/-- `own_and_audit`, with the snapshot it builds. -/
def ownAndAudit (frames : ℕ) (value : PyValue) (st : Arena) :
    Except Exc (Option PyValue × Arena) :=
  own frames [] value st

/-! ## Regions -/

/-- Containers at the addresses of a region hold containers of the region only. -/
def Closed (heap : Heap) (lo hi : ℕ) : Prop :=
  ∀ a, lo ≤ a → a < hi → ∀ b, PyValue.ref b ∈ (heap a).children → lo ≤ b ∧ b < hi

/-- A value that is no container, or one of the region. -/
def Within (lo hi : ℕ) (v : PyValue) : Prop := ∀ a, v = .ref a → lo ≤ a ∧ a < hi

section Regions

variable {heap heap' : Heap} {lo hi : ℕ} {v w : PyValue}

theorem within_of_reaches (hclosed : Closed heap lo hi) (hv : Within lo hi v)
    (h : Reaches heap v w) : Within lo hi w := by
  induction h with
  | refl => exact hv
  | @child a v w hmem _ ih =>
    apply ih
    rintro b rfl
    have ha := hv a rfl
    exact hclosed a ha.1 ha.2 b hmem

theorem contentItems_congr {read read' : PyValue → Option Json}
    {items : List (PyKey × PyValue)} (h : ∀ item ∈ items, read' item.2 = read item.2) :
    contentItems read' items = contentItems read items := by
  induction items with
  | nil => rfl
  | cons item items ih =>
    rcases item with ⟨k | _, value⟩
    · have hvalue : read' value = read value := h (.str k, value) List.mem_cons_self
      rw [contentItems, contentItems, hvalue,
        ih fun item hitem => h item (List.mem_cons_of_mem _ hitem)]
    · rfl

theorem contentList_congr {read read' : PyValue → Option Json} {values : List PyValue}
    (h : ∀ v ∈ values, read' v = read v) : contentList read' values = contentList read values := by
  induction values with
  | nil => rfl
  | cons value values ih =>
    rw [contentList, contentList, h value List.mem_cons_self,
      ih fun v hv => h v (List.mem_cons_of_mem _ hv)]

/-- **Frame.** What reads a closed region reads the same of any heap that
agrees on it. -/
theorem content_congr (hclosed : Closed heap lo hi)
    (hagree : ∀ a, lo ≤ a → a < hi → heap' a = heap a) (n : ℕ) (hv : Within lo hi v) :
    content heap' n v = content heap n v := by
  induction n generalizing v with
  | zero => rfl
  | succ n ih =>
    rcases v with _ | b | i | q | s | a | _
    · rfl
    · rfl
    · rfl
    · rfl
    · rfl
    · have ha := hv a rfl
      have hchild : ∀ w ∈ (heap a).children, content heap' n w = content heap n w := by
        intro w hw
        apply ih
        rintro b rfl
        exact hclosed a ha.1 ha.2 b hw
      rw [content, content, hagree a ha.1 ha.2]
      rcases ho : heap a with items | items | _
      · rw [ho] at hchild
        have hitems : contentItems (content heap' n) items = contentItems (content heap n) items :=
          contentItems_congr fun item hitem => hchild item.2 (List.mem_map_of_mem hitem)
        simp only [hitems]
      · rw [ho] at hchild
        have hlist : contentList (content heap' n) items = contentList (content heap n) items :=
          contentList_congr hchild
        simp only [hlist]
      · rfl
    · rfl

end Regions

/-! ## What a step leaves -/

/-- What was allocated before is as it was. -/
structure Extends (st st' : Arena) : Prop where
  next_le : st.next ≤ st'.next
  heap_eq : ∀ a < st.next, st'.heap a = st.heap a

theorem Extends.refl (st : Arena) : Extends st st := ⟨le_rfl, fun _ _ => rfl⟩

theorem Extends.trans {st₁ st₂ st₃ : Arena} (h : Extends st₁ st₂) (h' : Extends st₂ st₃) :
    Extends st₁ st₃ := by
  refine ⟨h.next_le.trans h'.next_le, ?_⟩
  intro a ha
  rw [h'.heap_eq a (lt_of_lt_of_le ha h.next_le), h.heap_eq a ha]

/-- `v` is built since `st`, of new containers only, and reads as `c`. -/
structure Built (n : ℕ) (st st' : Arena) (v : PyValue) (c : Json) : Prop extends
    Extends st st' where
  closed : Closed st'.heap st.next st'.next
  within : Within st.next st'.next v
  content : content st'.heap n v = some c

/-- The step with its containers does what the step on documents does. -/
def Sound (n : ℕ) (st : Arena) (pure : Except Exc (Option Json))
    (r : Except Exc (Option PyValue × Arena)) : Prop :=
  match pure with
  | .error exc => r = .error exc
  | .ok none => ∃ st', r = .ok (none, st') ∧ Extends st st'
  | .ok (some c) => ∃ v st', r = .ok (some v, st') ∧ Built n st st' v c

/-- **Composition.** A step, and from what it builds a further one, which
counts from the arena before both. -/
theorem Sound.bind {m n : ℕ} {st₀ st : Arena} {p : Except Exc (Option Json)}
    {r : Except Exc (Option PyValue × Arena)} (h : Sound n st p r) (hext : Extends st₀ st)
    (pureNext : Json → Except Exc (Option Json))
    (next : PyValue → Arena → Except Exc (Option PyValue × Arena))
    (hnext : ∀ v st' c, Built n st st' v c → Sound m st₀ (pureNext c) (next v st')) :
    Sound m st₀ (p.bind fun c => c.elim (.ok none) pureNext)
      (r.bind fun out => out.1.elim (.ok (none, out.2)) fun v => next v out.2) := by
  rcases p with exc | _ | c
  · have hraise : r = .error exc := h
    rw [hraise]
    rfl
  · obtain ⟨st', rfl, hext'⟩ := h
    exact ⟨st', rfl, hext.trans hext'⟩
  · obtain ⟨v, st', rfl, hbuilt⟩ := h
    exact hnext v st' c hbuilt

/-! ## Filling a container -/

theorem contentList_concat {read : PyValue → Option Json} {vs : List PyValue} {v : PyValue}
    {cs : List Json} {c : Json} (hvs : contentList read vs = some cs) (hv : read v = some c) :
    contentList read (vs ++ [v]) = some (cs ++ [c]) := by
  induction vs generalizing cs with
  | nil =>
    obtain rfl := Option.some.inj hvs
    simp [contentList, hv]
  | cons w vs ih =>
    simp only [contentList, Option.bind_eq_some_iff, Option.map_eq_some_iff] at hvs
    obtain ⟨d, hd, rest, hrest, rfl⟩ := hvs
    simp [contentList, hd, ih hrest]

/-- Members read as their keys and values do. -/
theorem contentItems_of_contentList {read : PyValue → Option Json}
    {items : List (PyKey × PyValue)} {fields : List (String × Json)}
    (hkeys : items.map Prod.fst = fields.map fun f => PyKey.str f.1)
    (hvalues : contentList read (items.map Prod.snd) = some (fields.map Prod.snd)) :
    contentItems read items = some fields := by
  induction items generalizing fields with
  | nil =>
    obtain rfl : fields = [] := by simpa using hkeys.symm
    rfl
  | cons item items ih =>
    obtain ⟨key, value⟩ := item
    rcases fields with _ | ⟨⟨k, c⟩, fields⟩
    · simp at hkeys
    · simp only [List.map_cons, List.cons.injEq] at hkeys
      obtain ⟨rfl, hkeys⟩ := hkeys
      simp only [List.map_cons, contentList, Option.bind_eq_some_iff, Option.map_eq_some_iff,
        List.cons.injEq] at hvalues
      obtain ⟨d, hd, rest, hrest, rfl, rfl⟩ := hvalues
      rw [contentItems, hd, ih hkeys hrest]
      rfl

/-- In the loop: the container taken at `st₀.next` holds `vs` so far, which
read as `cs`, and all since is built below it. -/
structure Filling (n : ℕ) (st₀ st : Arena) (vs : List PyValue) (cs : List Json) : Prop where
  lt : st₀.next < st.next
  heap_eq : ∀ a < st₀.next, st.heap a = st₀.heap a
  children : (st.heap st₀.next).children = vs
  closed : Closed st.heap (st₀.next + 1) st.next
  within : ∀ v ∈ vs, Within (st₀.next + 1) st.next v
  content : contentList (content st.heap n) vs = some cs

namespace Filling

variable {n : ℕ} {st₀ st st' : Arena} {vs : List PyValue} {cs : List Json}

theorem of_alloc (st₀ : Arena) (n : ℕ) {obj : PyObject} (hobj : obj.children = []) :
    Filling n st₀ (st₀.alloc obj) [] [] where
  lt := Nat.lt_succ_self _
  heap_eq a ha := Function.update_of_ne ha.ne _ _
  children := by
    rw [← hobj]
    exact congrArg PyObject.children (Function.update_self _ _ _)
  closed a ha ha' := by
    have : (st₀.alloc obj).next = st₀.next + 1 := rfl
    omega
  within v hv := absurd hv List.not_mem_nil
  content := rfl

theorem toExtends (h : Filling n st₀ st vs cs) : Extends st₀ st := ⟨h.lt.le, h.heap_eq⟩

/-- **One more child**, built since, goes into the container. -/
theorem put (h : Filling n st₀ st vs cs) {v : PyValue} {c : Json} (hv : Built n st st' v c)
    {obj : PyObject} (hobj : obj.children = vs ++ [v]) :
    Filling n st₀ (st'.set st₀.next obj) (vs ++ [v]) (cs ++ [c]) := by
  have hlt := h.lt
  have hle := hv.next_le
  have hset : ∀ a, a ≠ st₀.next → (st'.set st₀.next obj).heap a = st'.heap a :=
    fun a ha => Function.update_of_ne ha _ _
  have hnext : (st'.set st₀.next obj).next = st'.next := rfl
  have hself : (st'.set st₀.next obj).heap st₀.next = obj := Function.update_self _ _ _
  refine ⟨by omega, ?_, by rw [hself, hobj], ?_, ?_, ?_⟩
  · intro a ha
    rw [hset a ha.ne, hv.heap_eq a (by omega), h.heap_eq a ha]
  · -- What was built before refers to what was built before, the rest to the rest.
    intro a ha ha' b hb
    rw [hset a (by omega)] at hb
    rcases Nat.lt_or_ge a st.next with hold | hnew
    · rw [hv.heap_eq a hold] at hb
      have := h.closed a ha hold b hb
      omega
    · have := hv.closed a hnew ha' b hb
      omega
  · intro w hw a hwa
    rcases List.mem_append.mp hw with hw | hw
    · have := h.within w hw a hwa
      omega
    · obtain rfl := List.mem_singleton.mp hw
      have := hv.within a hwa
      omega
  · refine contentList_concat ?_ ?_
    · rw [← h.content]
      refine contentList_congr fun w hw => content_congr h.closed ?_ n (h.within w hw)
      intro a ha ha'
      rw [hset a (by omega), hv.heap_eq a ha']
    · rw [← hv.content]
      refine content_congr hv.closed ?_ n hv.within
      intro a ha ha'
      exact hset a (by omega)

/-- The container, when it is full. -/
theorem built (h : Filling n st₀ st vs cs) {c : Json}
    (hc : Congine.content st.heap (n + 1) (.ref st₀.next) = some c) :
    Built (n + 1) st₀ st (.ref st₀.next) c := by
  have hlt := h.lt
  refine ⟨h.toExtends, ?_, ?_, hc⟩
  · intro a ha ha' b hb
    rcases eq_or_lt_of_le ha with rfl | hgt
    · rw [h.children] at hb
      have := h.within _ hb b rfl
      omega
    · have := h.closed a hgt ha' b hb
      omega
  · intro a heq
    obtain rfl := PyValue.ref.inj heq
    omega

end Filling

/-! ## The walk with its containers -/

section Simulation

variable {heap : Heap} {base n : ℕ} {st₀ st : Arena}

/-- The caller's part of an arena: the heap it had, below an address. -/
structure Owns (heap : Heap) (base : ℕ) (st : Arena) : Prop where
  le : base ≤ st.next
  heap_eq : ∀ a < base, st.heap a = heap a

theorem Owns.of_extends (h : Owns heap base st₀) (h' : Extends st₀ st) : Owns heap base st := by
  refine ⟨h.le.trans h'.next_le, ?_⟩
  intro a ha
  rw [h'.heap_eq a (lt_of_lt_of_le ha h.le), h.heap_eq a ha]

variable {pure : PyValue → Except Exc (Option Json)} {walk : Walk}

/-- **The loop over a dictionary**, with `done` copied as `fields`. -/
theorem sound_ownItems {items done : List (PyKey × PyValue)} {fields : List (String × Json)}
    (howns : Owns heap base st₀)
    (hwalk : ∀ item ∈ items, ∀ st, Owns heap base st →
      Sound n st (pure item.2) (walk item.2 st))
    (hfill : Filling n st₀ st (done.map Prod.snd) (fields.map Prod.snd))
    (hobj : st.heap st₀.next = .dict done)
    (hkeys : done.map Prod.fst = fields.map fun f => PyKey.str f.1) :
    Sound (n + 1) st₀
      ((Congine.ownItems pure items).map (·.map fun rest => .obj (fields ++ rest)))
      (ownItems walk st₀.next items st) := by
  induction items generalizing st done fields with
  | nil =>
    refine ⟨_, _, rfl, hfill.built ?_⟩
    rw [Congine.content, hobj]
    simp only [contentItems_of_contentList hkeys hfill.content, List.append_nil, Option.map_some]
  | cons item items ih =>
    rcases item with ⟨k | _, value⟩
    · have hpure : (Congine.ownItems pure ((.str k, value) :: items)).map
          (·.map fun rest => Json.obj (fields ++ rest)) =
          (pure value).bind fun c => c.elim (.ok none) fun c =>
            (Congine.ownItems pure items).map
              (·.map fun rest => Json.obj ((fields ++ [(k, c)]) ++ rest)) := by
        rw [Congine.ownItems]
        rcases pure value with exc | _ | c
        · rfl
        · rfl
        · rcases Congine.ownItems pure items with exc | _ | rest <;>
            simp [Except.bind, Except.map]
      have hturn : ownItems walk st₀.next ((.str k, value) :: items) st =
          (walk value st).bind fun out => out.1.elim (.ok (none, out.2)) fun v =>
            ownItems walk st₀.next items (out.2.setItem st₀.next k v) := by
        rw [ownItems]
        rcases walk value st with exc | ⟨_ | v, st'⟩ <;> rfl
      have hstep : Sound n st (pure value) (walk value st) :=
        hwalk (.str k, value) List.mem_cons_self st (howns.of_extends hfill.toExtends)
      rw [hpure, hturn]
      refine hstep.bind hfill.toExtends _
        (fun v st' => ownItems walk st₀.next items (st'.setItem st₀.next k v)) ?_
      intro v st' c hbuilt
      have hobj' : st'.heap st₀.next = .dict done := by
        rw [hbuilt.heap_eq _ hfill.lt, hobj]
      have hset : st'.setItem st₀.next k v =
          st'.set st₀.next (.dict (done ++ [(PyKey.str k, v)])) := by
        rw [setItem, hobj']
      have hfill' : Filling n st₀ (st'.setItem st₀.next k v)
          ((done ++ [(PyKey.str k, v)]).map Prod.snd) ((fields ++ [(k, c)]).map Prod.snd) := by
        rw [hset, List.map_append, List.map_append]
        exact hfill.put hbuilt (by simp [PyObject.children])
      refine ih (fun item hitem => hwalk item (List.mem_cons_of_mem _ hitem)) hfill' ?_ ?_
      · rw [hset]
        exact Function.update_self _ _ _
      · simp [hkeys]
    · exact ⟨st, rfl, hfill.toExtends⟩

/-- **The loop over a list**, with what reads as `cs` copied. -/
theorem sound_ownList {values done : List PyValue} {cs : List Json}
    (howns : Owns heap base st₀)
    (hwalk : ∀ v ∈ values, ∀ st, Owns heap base st → Sound n st (pure v) (walk v st))
    (hfill : Filling n st₀ st done cs) (hobj : st.heap st₀.next = .list done) :
    Sound (n + 1) st₀ ((Congine.ownList pure values).map (·.map fun rest => .arr (cs ++ rest)))
      (ownList walk st₀.next values st) := by
  induction values generalizing st done cs with
  | nil =>
    refine ⟨_, _, rfl, hfill.built ?_⟩
    rw [Congine.content, hobj]
    simp only [hfill.content, List.append_nil, Option.map_some]
  | cons value values ih =>
    have hpure : (Congine.ownList pure (value :: values)).map
        (·.map fun rest => Json.arr (cs ++ rest)) =
        (pure value).bind fun c => c.elim (.ok none) fun c =>
          (Congine.ownList pure values).map
            (·.map fun rest => Json.arr ((cs ++ [c]) ++ rest)) := by
      rw [Congine.ownList]
      rcases pure value with exc | _ | c
      · rfl
      · rfl
      · rcases Congine.ownList pure values with exc | _ | rest <;>
          simp [Except.bind, Except.map]
    have hturn : ownList walk st₀.next (value :: values) st =
        (walk value st).bind fun out => out.1.elim (.ok (none, out.2)) fun v =>
          ownList walk st₀.next values (out.2.append st₀.next v) := by
      rw [ownList]
      rcases walk value st with exc | ⟨_ | v, st'⟩ <;> rfl
    have hstep := hwalk value List.mem_cons_self st (howns.of_extends hfill.toExtends)
    rw [hpure, hturn]
    refine hstep.bind hfill.toExtends _
      (fun v st' => ownList walk st₀.next values (st'.append st₀.next v)) ?_
    intro v st' c hbuilt
    have hobj' : st'.heap st₀.next = .list done := by
      rw [hbuilt.heap_eq _ hfill.lt, hobj]
    have hset : st'.append st₀.next v = st'.set st₀.next (.list (done ++ [v])) := by
      rw [append, hobj']
    have hfill' : Filling n st₀ (st'.append st₀.next v) (done ++ [v]) (cs ++ [c]) := by
      rw [hset]
      exact hfill.put hbuilt rfl
    refine ih (fun v hv => hwalk v (List.mem_cons_of_mem _ hv)) hfill' ?_
    rw [hset]
    exact Function.update_self _ _ _

/-- What is no container is its own copy. -/
theorem built_leaf (st : Arena) {v : PyValue} {c : Json} (hv : ∀ a, v ≠ .ref a)
    (hc : Congine.content st.heap n v = some c) : Built n st st v c :=
  ⟨.refl st, fun a ha ha' => by omega, fun a heq => absurd heq (hv a), hc⟩

/-- **Simulation.** With its containers, the walk decides and reads as it
does on documents. -/
theorem sound_own {active : List ℕ} {v : PyValue} (howns : Owns heap base st)
    (hreach : ∀ a, Reaches heap v (.ref a) → a < base) :
    Sound n st (Congine.own heap n active v) (own n active v st) := by
  induction n generalizing active v st with
  | zero => rfl
  | succ n ih =>
    rcases v with _ | b | i | q | s | a | _
    · exact ⟨_, _, rfl, built_leaf st nofun rfl⟩
    · exact ⟨_, _, rfl, built_leaf st nofun rfl⟩
    · exact ⟨_, _, rfl, built_leaf st nofun rfl⟩
    · rcases q with _ | q
      · exact ⟨_, rfl, .refl st⟩
      · exact ⟨_, _, rfl, built_leaf st nofun rfl⟩
    · exact ⟨_, _, rfl, built_leaf st nofun rfl⟩
    · have hchild : ∀ w ∈ (heap a).children, ∀ st, Owns heap base st →
          Sound n st (Congine.own heap n (a :: active) w) (own n (a :: active) w st) := by
        intro w hw st hst
        exact ih hst fun b hb => hreach b (.child hw hb)
      rw [Congine.own, own, howns.heap_eq a (hreach a .refl)]
      rcases ho : heap a with items | items | _
      · rw [ho] at hchild
        simp only
        split_ifs with ha
        · exact ⟨st, rfl, .refl st⟩
        · have hfill : Filling n st (st.alloc (.dict []))
              (([] : List (PyKey × PyValue)).map Prod.snd)
              (([] : List (String × Json)).map Prod.snd) := Filling.of_alloc st n rfl
          exact sound_ownItems howns
            (fun item hitem => hchild item.2 (List.mem_map_of_mem hitem)) hfill
            (Function.update_self _ _ _) rfl
      · rw [ho] at hchild
        simp only
        split_ifs with ha
        · exact ⟨st, rfl, .refl st⟩
        · exact sound_ownList howns hchild (Filling.of_alloc st n rfl)
            (Function.update_self _ _ _)
      · exact ⟨st, rfl, .refl st⟩
    · exact ⟨_, rfl, .refl st⟩

end Simulation

/-! ## The audit -/

section Audit

variable {st st' : Arena} {v : PyValue} {frames : ℕ}

/-- **The audit is correct on object graphs.** For a value whose graph lies
in the allocated part of the heap: with more frames than there are
containers the audit returns; where it returns it reports cacheable
exactly what is plain and acyclic, and leaves what was there as it was;
the snapshot of a cacheable value reads as the value does, and reaches new
containers only. -/
theorem ownAndAudit_correct (hlive : ∀ a, Reaches st.heap v (.ref a) → a < st.next) :
    (∀ frames, st.next < frames → ∃ owned st', ownAndAudit frames v st = .ok (owned, st')) ∧
    ∀ frames owned st', ownAndAudit frames v st = .ok (owned, st') →
      (owned.isSome = true ↔ Cacheable st.heap v) ∧
      (∀ a < st.next, st'.heap a = st.heap a) ∧
      ∀ snapshot, owned = some snapshot →
        (∃ c, Denotes st.heap v c ∧ Denotes st'.heap snapshot c) ∧
        ∀ a, Reaches st'.heap snapshot (.ref a) → st.next ≤ a := by
  have howns : Owns st.heap st.next st := ⟨le_rfl, fun _ _ => rfl⟩
  constructor
  · intro frames hframes
    have hsound : Sound frames st (Congine.own st.heap frames [] v) (own frames [] v st) :=
      sound_own howns hlive
    obtain ⟨r, hr⟩ : ∃ r, Congine.own st.heap frames [] v = .ok r :=
      own_returns (Finset.range st.next) (fun a ha => Finset.mem_range.mpr (hlive a ha))
        (by simpa using hframes)
    rw [hr] at hsound
    rcases r with _ | c
    · obtain ⟨st', hnone, -⟩ := hsound
      exact ⟨none, st', hnone⟩
    · obtain ⟨w, st', hsome, -⟩ := hsound
      exact ⟨some w, st', hsome⟩
  · intro frames owned st' h
    have hsound : Sound frames st (Congine.own st.heap frames [] v) (own frames [] v st) :=
      sound_own howns hlive
    have hrun : own frames [] v st = .ok (owned, st') := h
    rw [hrun] at hsound
    rcases hr : Congine.own st.heap frames [] v with exc | _ | c
    · rw [hr] at hsound
      cases hsound
    · rw [hr] at hsound
      obtain ⟨st'', heq, hext⟩ := hsound
      obtain ⟨rfl, rfl⟩ := Prod.mk.inj (Except.ok.inj heq)
      exact ⟨own_isSome_iff hr, hext.heap_eq, nofun⟩
    · rw [hr] at hsound
      obtain ⟨w, st'', heq, hbuilt⟩ := hsound
      obtain ⟨rfl, rfl⟩ := Prod.mk.inj (Except.ok.inj heq)
      refine ⟨own_isSome_iff hr, hbuilt.heap_eq, ?_⟩
      rintro snapshot heq
      obtain rfl := Option.some.inj heq
      refine ⟨⟨c, ⟨frames, own_some hr⟩, ⟨frames, hbuilt.content⟩⟩, ?_⟩
      intro a ha
      exact (within_of_reaches hbuilt.closed hbuilt.within ha a rfl).1

/-- A dictionary that holds one list twice. -/
def shared : Arena where
  heap
    | 0 => .dict [(.str "left", .ref 1), (.str "right", .ref 1)]
    | 1 => .list [.int 1]
    | _ => .other
  next := 2

theorem closed_shared : Closed shared.heap 0 2 := by
  intro a _ ha b hb
  have hcases : a = 0 ∨ a = 1 := by omega
  rcases hcases with rfl | rfl
  · simp [shared, PyObject.children] at hb
    omega
  · simp [shared, PyObject.children] at hb

theorem ownAndAudit_correct_shared : ∃ st', ownAndAudit 3 (.ref 0) shared =
    .ok (some (.ref 2), st') ∧ Cacheable shared.heap (.ref 0) := by
  have hroot : Within 0 2 (.ref 0) := by
    intro a ha
    obtain rfl := PyValue.ref.inj ha
    omega
  have hlive : ∀ a, Reaches shared.heap (.ref 0) (.ref a) → a < shared.next :=
    fun a ha => (within_of_reaches closed_shared hroot ha a rfl).2
  exact ⟨_, rfl, ((ownAndAudit_correct hlive).2 3 _ _ rfl).1.mp rfl⟩

end Audit

end Arena

end Congine
