import Congine.Common.Alike
import Congine.Domain.NativeTotality
/-!
# The enum rule and equality of JSON values

The rule asks whether the value is `in` the list it is given, which is
the language's equality: a boolean there is the number 0 or 1, at any
depth. As JSON values the two are never equal, and the type rule beside
it takes care to keep them apart. So the rule also takes a value that
differs from a member only in having a boolean where the other has a
number, and is membership up to equality of JSON values everywhere else.
-/

namespace Congine

open Json

/-- The list a field's constraint is, or has under `enum`. -/
def Allows (spec : Json) (allowed : List Json) : Prop :=
  (if spec.isObj then (spec.get? "enum").getD (.arr []) else spec) = .arr allowed

/-- The rule runs and has nothing against the value of a field. -/
def EnumAccepts (payload enumMap : Json) (fieldName : String) : Prop :=
  ∃ breaches, RuleEngine.enumValues payload enumMap = .ok breaches ∧
    ∀ b ∈ breaches, b.field ≠ fieldName

/-- A member of a constraint is a value inside it. -/
theorem distinctKeys_of_allows {spec : Json} {allowed : List Json}
    (hspec : spec.distinctKeys = true) (h : Allows spec allowed) :
    ∀ m ∈ allowed, m.distinctKeys = true := by
  have hlist : (Json.arr allowed).distinctKeys = true := by
    rw [← h]
    cases spec with
    | obj fs =>
      rcases hget : (obj fs).get? "enum" with _ | found
      · simp [isObj, distinctKeys, distinctKeysArr]
      · simp only [isObj, if_true, Option.getD_some]
        exact distinctKeys_child? (s := .key "enum") hspec hget
    | _ => exact hspec
  exact distinctKeysArr_iff.mp hlist

/-- What the rule reports of one field that is there. -/
theorem enumValues_judge {spec : Json} {allowed : List Json} (h : Allows spec allowed)
    (value : Json) (report : BreachDetail) :
    ((pyIn value (if spec.isObj then (spec.get? "enum").getD (.arr []) else spec)).map
        fun found => if found then [] else [report]) =
      .ok (if allowed.any fun m => value.eq m then [] else [report]) := by
  rw [h]
  rfl

/-- On lists the rule returns, and names the fields whose value equals no
member of theirs. -/
theorem enumValues_spec (payload : Json) {items : List (String × Json)}
    (hlists : ∀ name spec, (name, spec) ∈ items → ∃ allowed, Allows spec allowed) :
    ∃ breaches, RuleEngine.enumValues payload (.obj items) = .ok breaches ∧ ∀ fieldName,
      (∃ b ∈ breaches, b.field = fieldName) ↔ ∃ spec value allowed, (fieldName, spec) ∈ items ∧
        payload.get? fieldName = some value ∧ Allows spec allowed ∧
          ¬ ∃ m ∈ allowed, value.eq m = true := by
  have hreturns : Returns (RuleEngine.enumValues payload (.obj items)) := by
    refine onPresent_returns_iff.mpr fun name spec value hmem _ => ?_
    obtain ⟨allowed, hallowed⟩ := hlists name spec hmem
    exact ⟨_, enumValues_judge hallowed value _⟩
  obtain ⟨breaches, hrun⟩ := hreturns
  refine ⟨breaches, hrun, fun fieldName => ?_⟩
  constructor
  · rintro ⟨b, hb, rfl⟩
    obtain ⟨⟨name, spec⟩, hmem, zs, hzs, hin⟩ := (mem_of_collect hrun).mp hb
    rcases hget : payload.get? name with _ | value
    · simp only [hget, Except.ok.injEq] at hzs
      subst hzs
      cases hin
    · obtain ⟨allowed, hallowed⟩ := hlists name spec hmem
      simp only [hget] at hzs
      rw [enumValues_judge hallowed] at hzs
      obtain rfl := Except.ok.inj hzs
      split at hin
      · cases hin
      · next hany =>
        obtain rfl := List.mem_singleton.mp hin
        exact ⟨spec, value, allowed, hmem, hget, hallowed,
          fun hex => hany (List.any_eq_true.mpr hex)⟩
  · rintro ⟨spec, value, allowed, hmem, hget, hallowed, hnone⟩
    have hany : ¬ (allowed.any fun m => value.eq m) = true :=
      fun h => hnone (List.any_eq_true.mp h)
    let report : BreachDetail := {
      rule := "ENUM_VALUES"
      field := fieldName
      message := some ("Value for '" ++ fieldName ++ "' is not an allowed enum value") }
    refine ⟨report, (mem_of_collect hrun).mpr
      ⟨(fieldName, spec), hmem, [report], ?_, List.mem_singleton_self _⟩, rfl⟩
    simp only [hget]
    rw [enumValues_judge hallowed, if_neg hany]

/-- The rule takes the value of a field where it equals a member, as the
language has it. -/
theorem enumAccepts_iff {payload : Json} {items : List (String × Json)} {fieldName : String}
    {spec value : Json} {allowed : List Json} (hkeys : (items.map Prod.fst).Nodup)
    (hlists : ∀ name spec, (name, spec) ∈ items → ∃ allowed, Allows spec allowed)
    (hspec : (fieldName, spec) ∈ items) (hallowed : Allows spec allowed)
    (hvalue : payload.get? fieldName = some value) :
    EnumAccepts payload (.obj items) fieldName ↔ ∃ m ∈ allowed, value.eq m = true := by
  obtain ⟨breaches, hrun, hnamed⟩ := enumValues_spec payload hlists
  have haccepts : EnumAccepts payload (.obj items) fieldName ↔
      ¬ ∃ b ∈ breaches, b.field = fieldName := by
    constructor
    · rintro ⟨bs, hbs, hnone⟩ ⟨b, hb, hfield⟩
      obtain rfl := Except.ok.inj (hrun.symm.trans hbs)
      exact hnone b hb hfield
    · exact fun hnone => ⟨breaches, hrun, fun b hb hfield => hnone ⟨b, hb, hfield⟩⟩
  rw [haccepts, hnamed]
  constructor
  · intro h
    by_contra hnone
    exact h ⟨spec, value, allowed, hspec, hvalue, hallowed, hnone⟩
  · rintro hex ⟨spec', value', allowed', hspec', hvalue', hallowed', hnone⟩
    -- One key, one constraint, one value.
    obtain rfl : spec = spec' := Option.some.inj
      ((lookup_of_mem hkeys hspec).symm.trans (lookup_of_mem hkeys hspec'))
    obtain rfl := Option.some.inj (hvalue.symm.trans hvalue')
    obtain rfl := Json.arr.inj (hallowed.symm.trans hallowed')
    exact hnone hex

/-- **When the enum rule is membership of JSON values**: exactly where, if
reading booleans as numbers makes the value equal to a member, some member
it is then equal to has its booleans where the value has them. -/
theorem enumAccepts_jsonEqual_iff {payload : Json} {items : List (String × Json)}
    {fieldName : String} {spec value : Json} {allowed : List Json}
    (hpayload : payload.distinctKeys = true) (hmap : (Json.obj items).distinctKeys = true)
    (hlists : ∀ name spec, (name, spec) ∈ items → ∃ allowed, Allows spec allowed)
    (hspec : (fieldName, spec) ∈ items) (hallowed : Allows spec allowed)
    (hvalue : payload.get? fieldName = some value) :
    (EnumAccepts payload (.obj items) fieldName ↔ ∃ m ∈ allowed, JsonEqual value m) ↔
      ((∃ m ∈ allowed, JsonEqual value.numeric m.numeric) →
        ∃ m ∈ allowed, JsonEqual value.numeric m.numeric ∧ BooleansAgree value m) := by
  have hkeys := nodup_of_distinctKeys hmap
  have hdv : value.distinctKeys = true := by
    rw [eq_obj_of_isObj (isObj_of_get? hvalue)] at hpayload
    exact distinctKeys_child? (s := .key fieldName) hpayload hvalue
  have hds : spec.distinctKeys = true :=
    distinctKeys_child? (s := .key fieldName) hmap (lookup_of_mem hkeys hspec)
  have hdm := distinctKeys_of_allows hds hallowed
  have hnumeric : (∃ m ∈ allowed, value.eq m = true) ↔
      ∃ m ∈ allowed, JsonEqual value.numeric m.numeric :=
    exists_congr fun m => and_congr_right fun hm => eq_iff_numeric hdv (hdm m hm)
  have hsame : (∃ m ∈ allowed, JsonEqual value m) ↔
      ∃ m ∈ allowed, JsonEqual value.numeric m.numeric ∧ BooleansAgree value m :=
    exists_congr fun m => and_congr_right fun _ => jsonEqual_iff
  rw [enumAccepts_iff hkeys hlists hspec hallowed hvalue, hnumeric, hsame]
  constructor
  · exact fun h => h.mp
  · exact fun h => ⟨h, fun ⟨m, hm, heq, _⟩ => ⟨m, hm, heq⟩⟩

/-- A list without booleans, and a value that is in it. -/
theorem enumAccepts_jsonEqual_two :
    EnumAccepts (.obj [("n", .float 2)]) (.obj [("n", .obj [("enum", .arr [.int 2])])]) "n" ↔
      ∃ m ∈ [Json.int 2], JsonEqual (.float 2) m := by
  have hallows : Allows (.obj [("enum", .arr [.int 2])]) [.int 2] := rfl
  refine (enumAccepts_jsonEqual_iff (by decide) (by decide) (fun name spec hmem => ?_)
    List.mem_cons_self hallows rfl).mpr fun _ => ?_
  · obtain ⟨-, rfl⟩ := Prod.mk.inj (List.mem_singleton.mp hmem)
    exact ⟨[.int 2], rfl⟩
  · have hbools : BooleansAgree (.float 2) (.int 2) := by
      rintro (_ | ⟨s, p⟩) <;> rfl
    exact ⟨.int 2, List.mem_cons_self, .scalar rfl rfl (by decide), hbools⟩

/-- **`true` is taken for 1 and `[false]` for `[0]`.** -/
theorem enumAccepts_boolean_for_number :
    (EnumAccepts (.obj [("n", .bool true)]) (.obj [("n", .obj [("enum", .arr [.int 1])])]) "n" ∧
      ¬ ∃ m ∈ [Json.int 1], JsonEqual (.bool true) m) ∧
    EnumAccepts (.obj [("n", .arr [.bool false])])
        (.obj [("n", .obj [("enum", .arr [.arr [.int 0]])])]) "n" ∧
      ¬ ∃ m ∈ [Json.arr [.int 0]], JsonEqual (.arr [.bool false]) m := by
  refine ⟨⟨⟨[], by decide, by simp⟩, ?_⟩, ⟨[], by decide, by simp⟩, ?_⟩
  · rintro ⟨m, hm, heq⟩
    obtain rfl := List.mem_singleton.mp hm
    exact absurd ((jsonEqual_iff.mp heq).2 []) (by decide)
  · rintro ⟨m, hm, heq⟩
    obtain rfl := List.mem_singleton.mp hm
    exact absurd ((jsonEqual_iff.mp heq).2 [.index 0]) (by decide)

end Congine
