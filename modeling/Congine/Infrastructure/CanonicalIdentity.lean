import Congine.Common.KeyOrder
import Congine.Infrastructure.ScalarText
import Congine.Infrastructure.SchemaPreparation
/-!
# The identity of canonical content

The text `canonical_blob` gives, letter by letter: `json.dumps` with
sorted keys, compact separators and ASCII strings. It is an identity for
what a snapshot says, up to the order of keys. Of two documents the texts
are equal where their canonical forms are, and every snapshot the audit
accepts has one identity, for its objects have distinct keys.

A string is one of Unicode scalar values. Two lone surrogates that stand
together are written as the character they encode is, so that beyond these
strings the text is no identity.
-/

namespace Congine

/-- An owned snapshot. -/
abbrev Snapshot (F : Type) := Doc (Scalar F)

/-! ## The text of a snapshot -/

namespace Snapshot

variable {F : Type} (fmt : FloatFormat F)

/-- `canonical_blob`. -/
def canonicalBlob (snapshot : Snapshot F) : Except Exc String :=
  let sorted := snapshot.sortKeys
  if sorted.anyScalar Scalar.isLongInt then .error .valueError
  else .ok (String.ofList (sorted.text (Scalar.format fmt)))

variable {fmt} {a b : Snapshot F} {blob : String}

theorem canonicalBlob_eq_ok_iff : canonicalBlob fmt a = .ok blob ↔
    a.sortKeys.anyScalar Scalar.isLongInt = false ∧
      String.ofList (a.sortKeys.text (Scalar.format fmt)) = blob := by
  rw [canonicalBlob]
  split_ifs with hlong
  · simp [hlong]
  · simp [hlong]

/-- **Canonical content identity is exact.** A snapshot shares its blob
with the snapshots that are the same value, up to the order of object
keys at any depth, and with no other. -/
theorem canonicalBlob_exact (ha : a.distinctKeys = true) (h : canonicalBlob fmt a = .ok blob) :
    canonicalBlob fmt b = .ok blob ↔ Doc.Same a b := by
  rw [canonicalBlob_eq_ok_iff] at h
  obtain ⟨hlong, rfl⟩ := h
  rw [← Doc.text_sortKeys_eq_iff ha, canonicalBlob_eq_ok_iff]
  constructor
  · rintro ⟨-, htext⟩
    exact (String.ofList_injective htext).symm
  · intro htext
    have hsorted : a.sortKeys = b.sortKeys := Doc.text_injective htext
    exact ⟨hsorted ▸ hlong, by rw [htext]⟩

/-- Whole floats, with the sign a zero keeps. -/
def wholeFloats : FloatFormat (Bool × ℕ) where
  repr x := (if x.1 then ['-'] else []) ++ (Nat.toDigits 10 x.2 ++ ['.', '0'])
  injective := by
    rintro ⟨b, n⟩ ⟨c, m⟩ h
    have hdigits : ∀ n m : ℕ, Nat.toDigits 10 n ++ ['.', '0'] = Nat.toDigits 10 m ++ ['.', '0'] →
        n = m := by
      intro n m hnm
      rw [← @Nat.ofDigitChars_ten_toDigits n, List.append_cancel_right hnm,
        Nat.ofDigitChars_ten_toDigits]
    have hsign : ∀ n m : ℕ, '-' :: (Nat.toDigits 10 n ++ ['.', '0']) ≠
        Nat.toDigits 10 m ++ ['.', '0'] := by
      intro n m hnm
      have hmem : '-' ∈ Nat.toDigits 10 m ++ ['.', '0'] := hnm ▸ List.mem_cons_self
      rcases List.mem_append.mp hmem with hm | hm
      · exact minus_not_mem_toDigits m hm
      · exact absurd hm (by decide)
    cases b with
    | true =>
      cases c with
      | true => rw [hdigits n m (List.cons.inj h).2]
      | false => exact absurd h (hsign n m)
    | false =>
      cases c with
      | true => exact absurd h.symm (hsign m n)
      | false => rw [hdigits n m h]
  isNumeral := by
    intro x c hc
    simp only [List.mem_append] at hc
    rcases hc with hc | hc | hc
    · split_ifs at hc with hb
      · obtain rfl : c = '-' := List.mem_singleton.mp hc
        decide
      · cases hc
    · have := Nat.isDigit_of_mem_toDigits (by decide) (by decide) hc
      simp [isNumeral, this]
    · rcases List.mem_cons.mp hc with rfl | hc
      · decide
      · obtain rfl : c = '0' := List.mem_singleton.mp hc
        decide
  point := by
    intro x
    exact .inl (by simp)

/-- `{"b": 1, "a": [-0.0, true]}`. -/
def keysDown : Snapshot (Bool × ℕ) :=
  .obj [("b", .scalar (.int 1)), ("a", .arr [.scalar (.float (true, 0)), .scalar (.bool true)])]

/-- The same, key by key in order. -/
def keysUp : Snapshot (Bool × ℕ) :=
  .obj [("a", .arr [.scalar (.float (true, 0)), .scalar (.bool true)]), ("b", .scalar (.int 1))]

theorem canonicalBlob_exact_keysDown :
    canonicalBlob wholeFloats keysUp = .ok "\x7b\"a\":[-0.0,true],\"b\":1\x7d" ↔
      Doc.Same keysDown keysUp :=
  canonicalBlob_exact (by decide) (by decide +kernel)

end Snapshot

/-! ## The text of a document -/

mutual

/-- A document as a snapshot over exact floats. -/
def Json.toSnapshot : Json → Snapshot ℚ
  | .null => .scalar .null
  | .bool b => .scalar (.bool b)
  | .int i => .scalar (.int i)
  | .float q => .scalar (.float q)
  | .str s => .scalar (.str s)
  | .arr xs => .arr (toSnapshotElements xs)
  | .obj fs => .obj (toSnapshotMembers fs)

def toSnapshotElements : List Json → List (Snapshot ℚ)
  | [] => []
  | x :: xs => x.toSnapshot :: toSnapshotElements xs

def toSnapshotMembers : List (String × Json) → List (String × Snapshot ℚ)
  | [] => []
  | (k, x) :: fs => (k, x.toSnapshot) :: toSnapshotMembers fs

end

theorem toSnapshotMembers_eq_map (fs : List (String × Json)) :
    toSnapshotMembers fs = fs.map fun f => (f.1, f.2.toSnapshot) := by
  induction fs with
  | nil => rfl
  | cons f fs ih => rw [toSnapshotMembers, ih, List.map_cons]

mutual

theorem toSnapshot_canonical : ∀ c : Json, (canonical c).toSnapshot = c.toSnapshot.sortKeys
  | .null => rfl
  | .bool _ => rfl
  | .int _ => rfl
  | .float _ => rfl
  | .str _ => rfl
  | .arr xs => by
    rw [canonical, Json.toSnapshot, Json.toSnapshot, Doc.sortKeys, toSnapshotElements_canonical xs]
  | .obj fs => by
    have hsort : ∀ gs : List (String × Json),
        (gs.insertionSort fun f g => f.1 ≤ g.1).map (fun f => (f.1, f.2.toSnapshot)) =
          (gs.map fun f => (f.1, f.2.toSnapshot)).insertionSort fun f g => f.1 ≤ g.1 :=
      fun gs => List.map_insertionSort _ _ _ gs fun f hf g hg => Iff.rfl
    rw [canonical, Json.toSnapshot, Json.toSnapshot, Doc.sortKeys,
      ← toSnapshotMembers_canonical fs, toSnapshotMembers_eq_map, toSnapshotMembers_eq_map, hsort]

theorem toSnapshotElements_canonical : ∀ xs : List Json,
    toSnapshotElements (canonicalList xs) = Doc.sortKeysElements (toSnapshotElements xs)
  | [] => rfl
  | x :: xs => by
    rw [canonicalList, toSnapshotElements, toSnapshotElements, Doc.sortKeysElements,
      toSnapshot_canonical x, toSnapshotElements_canonical xs]

theorem toSnapshotMembers_canonical : ∀ fs : List (String × Json),
    toSnapshotMembers (canonicalItems fs) = Doc.sortKeysMembers (toSnapshotMembers fs)
  | [] => rfl
  | (k, x) :: fs => by
    rw [canonicalItems, toSnapshotMembers, toSnapshotMembers, Doc.sortKeysMembers,
      toSnapshot_canonical x, toSnapshotMembers_canonical fs]

end

mutual

theorem anyScalar_toSnapshot : ∀ c : Json,
    c.toSnapshot.anyScalar Scalar.isLongInt = hasLongInt c
  | .null => rfl
  | .bool _ => rfl
  | .int _ => by simp only [Json.toSnapshot, Doc.anyScalar, Scalar.isLongInt, hasLongInt]
  | .float _ => rfl
  | .str _ => rfl
  | .arr xs => by
    rw [Json.toSnapshot, Doc.anyScalar, hasLongInt, anyScalarElements_toSnapshot xs]
  | .obj fs => by
    rw [Json.toSnapshot, Doc.anyScalar, hasLongInt, anyScalarMembers_toSnapshot fs]

theorem anyScalarElements_toSnapshot : ∀ xs : List Json,
    Doc.anyScalarElements Scalar.isLongInt (toSnapshotElements xs) = hasLongIntList xs
  | [] => rfl
  | x :: xs => by
    rw [toSnapshotElements, Doc.anyScalarElements, hasLongIntList, anyScalar_toSnapshot x,
      anyScalarElements_toSnapshot xs]

theorem anyScalarMembers_toSnapshot : ∀ fs : List (String × Json),
    Doc.anyScalarMembers Scalar.isLongInt (toSnapshotMembers fs) = hasLongIntItems fs
  | [] => rfl
  | (k, x) :: fs => by
    rw [toSnapshotMembers, Doc.anyScalarMembers, hasLongIntItems, anyScalar_toSnapshot x,
      anyScalarMembers_toSnapshot fs]

end

/-- What `json.dumps` makes of a document, its keys sorted. -/
def Json.blob (fmt : FloatFormat ℚ) (c : Json) : String :=
  String.ofList ((canonical c).toSnapshot.text (Scalar.format fmt))

/-- `json.dumps` prints integers in decimal, and so meets the limit on their
digits. -/
theorem canonicalBlob_toSnapshot (fmt : FloatFormat ℚ) (c : Json) :
    Snapshot.canonicalBlob fmt c.toSnapshot =
      if hasLongInt c then .error .valueError else .ok (c.blob fmt) := by
  have hlong : c.toSnapshot.sortKeys.anyScalar Scalar.isLongInt = hasLongInt c := by
    rw [Doc.anyScalar_sortKeys, anyScalar_toSnapshot]
  simp only [Snapshot.canonicalBlob, hlong, Json.blob, toSnapshot_canonical]

mutual

theorem toSnapshot_injective : ∀ {c d : Json}, c.toSnapshot = d.toSnapshot → c = d
  | .null, d, h => by cases d <;> simp_all [Json.toSnapshot]
  | .bool _, d, h => by cases d <;> simp_all [Json.toSnapshot]
  | .int _, d, h => by cases d <;> simp_all [Json.toSnapshot]
  | .float _, d, h => by cases d <;> simp_all [Json.toSnapshot]
  | .str _, d, h => by cases d <;> simp_all [Json.toSnapshot]
  | .arr xs, d, h => by
    cases d with
    | arr ys =>
      simp only [Json.toSnapshot, Doc.arr.injEq] at h
      rw [toSnapshotElements_injective h]
    | _ => simp [Json.toSnapshot] at h
  | .obj fs, d, h => by
    cases d with
    | obj gs =>
      simp only [Json.toSnapshot, Doc.obj.injEq] at h
      rw [toSnapshotMembers_injective h]
    | _ => simp [Json.toSnapshot] at h

theorem toSnapshotElements_injective : ∀ {xs ys : List Json},
    toSnapshotElements xs = toSnapshotElements ys → xs = ys
  | [], ys, h => by
    cases ys with
    | nil => rfl
    | cons y ys => simp [toSnapshotElements] at h
  | x :: xs, ys, h => by
    cases ys with
    | nil => simp [toSnapshotElements] at h
    | cons y ys =>
      simp only [toSnapshotElements, List.cons.injEq] at h
      rw [toSnapshot_injective h.1, toSnapshotElements_injective h.2]

theorem toSnapshotMembers_injective : ∀ {fs gs : List (String × Json)},
    toSnapshotMembers fs = toSnapshotMembers gs → fs = gs
  | [], gs, h => by
    cases gs with
    | nil => rfl
    | cons g gs => simp [toSnapshotMembers] at h
  | (k, x) :: fs, gs, h => by
    cases gs with
    | nil => simp [toSnapshotMembers] at h
    | cons g gs =>
      obtain ⟨l, y⟩ := g
      simp only [toSnapshotMembers, List.cons.injEq, Prod.mk.injEq] at h
      obtain ⟨⟨rfl, hxy⟩, hmore⟩ := h
      rw [toSnapshot_injective hxy, toSnapshotMembers_injective hmore]

end

/-- **Equal texts, equal canonical forms.** -/
theorem blob_eq_iff (fmt : FloatFormat ℚ) {c d : Json} :
    c.blob fmt = d.blob fmt ↔ canonical c = canonical d := by
  constructor
  · intro h
    exact toSnapshot_injective (Doc.text_injective (String.ofList_injective h))
  · intro h
    rw [Json.blob, h, Json.blob]

/-! ## What the audit accepts -/

section Accepted

variable {heap : Heap}

theorem keys_contentItems {read : PyValue → Option Json} {items : List (PyKey × PyValue)}
    {fields : List (String × Json)} (h : contentItems read items = some fields) :
    items.map Prod.fst = (fields.map Prod.fst).map PyKey.str := by
  induction items generalizing fields with
  | nil =>
    obtain rfl := Option.some.inj h
    rfl
  | cons item items ih =>
    rcases item with ⟨k | _, value⟩
    · simp only [contentItems, Option.bind_eq_some_iff, Option.map_eq_some_iff] at h
      obtain ⟨child, -, rest, hrest, rfl⟩ := h
      rw [List.map_cons, ih hrest]
      rfl
    · cases h

theorem distinctKeys_contentItems {read : PyValue → Option Json}
    (hread : ∀ v c, read v = some c → c.toSnapshot.distinctKeys = true)
    {items : List (PyKey × PyValue)} {fields : List (String × Json)}
    (h : contentItems read items = some fields) :
    Doc.distinctKeysMembers (toSnapshotMembers fields) = true := by
  induction items generalizing fields with
  | nil =>
    obtain rfl := Option.some.inj h
    rfl
  | cons item items ih =>
    rcases item with ⟨k | _, value⟩
    · simp only [contentItems, Option.bind_eq_some_iff, Option.map_eq_some_iff] at h
      obtain ⟨child, hchild, rest, hrest, rfl⟩ := h
      rw [toSnapshotMembers, Doc.distinctKeysMembers, hread value child hchild, ih hrest]
      rfl
    · cases h

theorem distinctKeys_contentList {read : PyValue → Option Json}
    (hread : ∀ v c, read v = some c → c.toSnapshot.distinctKeys = true)
    {values : List PyValue} {cs : List Json} (h : contentList read values = some cs) :
    Doc.distinctKeysElements (toSnapshotElements cs) = true := by
  induction values generalizing cs with
  | nil =>
    obtain rfl := Option.some.inj h
    rfl
  | cons value values ih =>
    simp only [contentList, Option.bind_eq_some_iff, Option.map_eq_some_iff] at h
    obtain ⟨child, hchild, rest, hrest, rfl⟩ := h
    rw [toSnapshotElements, Doc.distinctKeysElements, hread value child hchild, ih hrest]
    rfl

/-- Dictionaries have no key twice, and so neither has what they hold. -/
theorem distinctKeys_content
    (hheap : ∀ a items, heap a = .dict items → (items.map Prod.fst).Nodup) {n : ℕ}
    {value : PyValue} {c : Json} (h : content heap n value = some c) :
    c.toSnapshot.distinctKeys = true := by
  induction n generalizing value c with
  | zero => cases h
  | succ n ih =>
    rcases value with _ | b | i | q | s | a | _
    · obtain rfl := Option.some.inj h
      rfl
    · obtain rfl := Option.some.inj h
      rfl
    · obtain rfl := Option.some.inj h
      rfl
    · obtain ⟨x, -, rfl⟩ := Option.map_eq_some_iff.mp h
      rfl
    · obtain rfl := Option.some.inj h
      rfl
    · rw [content] at h
      rcases ho : heap a with items | items | _
      · simp only [ho, Option.map_eq_some_iff] at h
        obtain ⟨fields, hfields, rfl⟩ := h
        have hnodup := hheap a items ho
        rw [keys_contentItems hfields] at hnodup
        have hkeys : (toSnapshotMembers fields).map Prod.fst = fields.map Prod.fst := by
          simp [toSnapshotMembers_eq_map]
        rw [Json.toSnapshot, Doc.distinctKeys, hkeys, decide_eq_true (List.Nodup.of_map _ hnodup),
          distinctKeys_contentItems (fun v c => ih) hfields]
        rfl
      · simp only [ho, Option.map_eq_some_iff] at h
        obtain ⟨cs, hcs, rfl⟩ := h
        rw [Json.toSnapshot, Doc.distinctKeys]
        exact distinctKeys_contentList (fun v c => ih) hcs
      · simp [ho] at h
    · cases h

/-- **What the audit accepts has distinct keys**, and so an exact identity. -/
theorem distinctKeys_of_ownAndAudit
    (hheap : ∀ a items, heap a = .dict items → (items.map Prod.fst).Nodup) {frames : ℕ}
    {value : PyValue} {c : Json} (h : ownAndAudit heap frames value = .ok (some c)) :
    c.toSnapshot.distinctKeys = true :=
  distinctKeys_content hheap (own_some h)

end Accepted

end Congine
