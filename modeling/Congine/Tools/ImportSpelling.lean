import Congine.Tools.CheckArchitecture
/-!
# The spellings of an import

What an import of a module names is settled by the interpreter: a module of
the package, an attribute of one, or all of its names. The gate judges the
text it records. The two agree on the layer of everything the package
holds, except directly under its root: there a name may be a submodule or
an attribute, and the gate goes by the spelling.
-/

namespace Congine

namespace CheckArchitecture

open Python

/-! ## What an import names -/

inductive Target where
  | module (name : String)
  | attribute (owner name : String)
  | everything (owner : String)
  deriving DecidableEq

/-- The modules that can be imported, and the attributes of each that are
not among its submodules. -/
structure Installed where
  hasModule : String → Bool
  hasAttribute : String → String → Bool

namespace Installed

variable (installed : Installed)

/-- `from owner import name`: an attribute goes before a submodule. -/
def importFrom (owner : String) (name : Identifier) : Option Target :=
  if installed.hasModule owner then
    if name.text = "*" then some (.everything owner)
    else if installed.hasAttribute owner name.text then some (.attribute owner name.text)
    else if installed.hasModule (Text.join '.' [owner, name.text]) then
      some (.module (Text.join '.' [owner, name.text]))
    else none
  else none

end Installed

/-- The package relative imports of a module start from, part by part. -/
def packageParts (path : SourcePath) : List String :=
  if path.isPackage then Text.split '.' path.moduleName
  else (Text.split '.' path.moduleName).dropLast

/-- The module a from-import takes its names from, as the interpreter
resolves it: it does not go above the root. -/
def importedModule (path : SourcePath) (from_ : Option DottedName) (level : ℕ) :
    Option String :=
  if level = 0 then from_.map DottedName.text
  else if (packageParts path).length < level then none
  else
    let base := Text.join '.' ((packageParts path).take ((packageParts path).length - (level - 1)))
    match from_ with
    | none => some base
    | some name => some (Text.join '.' [base, name.text])

/-- One way to spell an import: one alias of an import statement. -/
inductive Spelling where
  | module (line : ℕ) (node : ImportAlias)
  | member (line : ℕ) (from_ : Option DottedName) (node : FromAlias) (level : ℕ)

/-- The spellings in an import statement. -/
def spellings : Import → List Spelling
  | .names line aliases => aliases.map (.module line)
  | .members line from_ aliases level => aliases.map fun node => .member line from_ node level

namespace Spelling

def line : Spelling → ℕ
  | .module line _ => line
  | .member line _ _ _ => line

/-- What the spelling names in a module of the package, if anything. -/
def target (installed : Installed) (path : SourcePath) : Spelling → Option Target
  | .module _ node =>
      if installed.hasModule node.name.text then some (.module node.name.text) else none
  | .member _ from_ node level =>
      (importedModule path from_ level).bind fun owner => installed.importFrom owner node.name

/-- The text the gate records of the spelling. -/
def edge (path : SourcePath) : Spelling → Option String
  | .module _ node => some node.name.text
  | .member _ from_ node level =>
      let module := resolveFromModule path from_ level
      if module = "" then none
      else if module = package ∨ from_ = none then
        if (layerByDirectory node.name.text).isSome ∨ from_ = none then
          some (Text.join '.' [module, node.name.text])
        else some module
      else some module

end Spelling

mutual

/-- The import statements in a statement, however deep. -/
def importsInStmt : Stmt → List Import
  | .functionDef _ _ _ _ _ body => importsIn body
  | .classDef _ _ _ _ body => importsIn body
  | .importStmt node => [node]
  | .ifStmt _ body orelse => importsIn body ++ importsIn orelse
  | .globalStmt _ => []
  | .nonlocalStmt _ => []
  | .other _ _ body => importsIn body

def importsIn : List Stmt → List Import
  | [] => []
  | s :: ss => importsInStmt s ++ importsIn ss

end

/-- The spellings of the imports of a file, at any depth. -/
def SourceFile.spellings (file : SourceFile) : List Spelling :=
  (importsIn file.body).flatMap CheckArchitecture.spellings

/-! ## What the gate says of a spelling -/

/-- The gate reports the spelling: a violation stands on its line, with the
text recorded of it. -/
def Reported (violations : List LayerViolation) (path : SourcePath) (spelling : Spelling) : Prop :=
  ∃ v ∈ violations, v.path = path ∧ v.line = spelling.line ∧
    spelling.edge path = some v.targetModule

/-- Every two spellings of a target in a module have the same verdict,
whatever files they are in. -/
def SpellingFree (installed : Installed) (path : SourcePath) (t : Target) : Prop :=
  ∀ files files' violations violations', checkArchitecture files = .ok violations →
    checkArchitecture files' = .ok violations' →
    ∀ file ∈ files, ∀ file' ∈ files', file.path = path → file'.path = path →
    ∀ spelling ∈ file.spellings, ∀ spelling' ∈ file'.spellings,
    spelling.target installed path = some t → spelling'.target installed path = some t →
    (Reported violations path spelling ↔ Reported violations' path spelling')

/-- The target is the root package, or what its `__init__` offers. -/
def ThroughAggregator : Target → Prop
  | .module name => name = package
  | .attribute owner _ => owner = package
  | .everything owner => owner = package

/-- A target the root package offers is rejected under every spelling, in
the modules of the package the gate looks at. -/
def AggregatorRejected (installed : Installed) (path : SourcePath) (t : Target) : Prop :=
  ThroughAggregator t → path.isAggregator = false →
    ∀ files violations, checkArchitecture files = .ok violations →
    ∀ file ∈ files, file.path = path → ∀ spelling ∈ file.spellings,
    spelling.target installed path = some t → Reported violations path spelling

/-- The target is not to be had from the root package, but by the name of a
layer; and where such a name is an attribute of the root, the layer is one
the module may not import. -/
def ToldApart (installed : Installed) (path : SourcePath) (t : Target) : Prop :=
  ∀ layer, path.sourceLayer = .ok layer → path.isAggregator = false →
    ∀ name, installed.importFrom package name = some t →
      ∃ target, layerByDirectory name.text = some target ∧
        (ThroughAggregator t → target ∉ allowedDependencies layer)

/-! ## Layers of recorded texts -/

theorem split_join_pair (a b : String) :
    Text.split '.' (Text.join '.' [a, b]) = Text.split '.' a ++ Text.split '.' b := by
  rw [Text.split_join '.' (List.cons_ne_nil _ _)]
  simp

theorem split_package : Text.split '.' package = [package] :=
  Text.split_eq_singleton (by decide)

theorem eq_package_iff {module : String} :
    module = package ↔ Text.split '.' module = [package] := by
  rw [← split_package]
  exact (Text.split_injective '.').eq_iff.symm

/-- A name below a module other than the root is in the layer of the module. -/
theorem targetLayer_member {owner : String} (howner : owner ≠ package) (name : String) :
    targetLayer (Text.join '.' [owner, name]) = targetLayer owner := by
  unfold targetLayer
  rw [split_join_pair]
  rcases hsplit : Text.split '.' owner with _ | ⟨root, _ | ⟨directory, rest⟩⟩
  · exact absurd hsplit (by simp [Text.split])
  -- One part that is not the root: neither text is internal.
  · have hroot : root ≠ package := by
      rintro rfl
      exact howner (eq_package_iff.mpr hsplit)
    simp [hroot]
  · rfl

/-- A name below the root is in the layer of its directory, or the kernel. -/
theorem targetLayer_root (name : Identifier) :
    targetLayer (Text.join '.' [package, name.text]) =
      some ((layerByDirectory name.text).getD 0) := by
  unfold targetLayer
  rw [split_join_pair, split_package, Text.split_eq_singleton name.no_dot]
  simp

theorem targetLayer_package : targetLayer package = some publicAggregatorLayer := by
  unfold targetLayer
  rw [split_package]
  simp

theorem layerByDirectory_star : layerByDirectory "*" = none := by decide

/-- The layers there are, and what each of them may import. -/
theorem sourceLayer_cases {path : SourcePath} {layer : ℕ} (h : path.sourceLayer = .ok layer) :
    0 ∈ allowedDependencies layer ∧ publicAggregatorLayer ∉ allowedDependencies layer := by
  have hsmall : layer ≤ 5 := by
    unfold SourcePath.sourceLayer at h
    split at h
    · obtain rfl := Except.ok.inj h
      omega
    · split at h
      next layer' hlayer =>
        obtain rfl := Except.ok.inj h
        have hmem : ∀ l ∈ [1, 2, 3, 4, 5], l ≤ 5 := by decide
        refine hmem layer' ?_
        unfold layerByDirectory at hlayer
        have hpair := Json.mem_of_lookup hlayer
        simp only [List.mem_cons, Prod.mk.injEq, List.not_mem_nil, or_false] at hpair ⊢
        omega
      · cases h
  have hrows : ∀ l ≤ 5, 0 ∈ allowedDependencies l ∧
      publicAggregatorLayer ∉ allowedDependencies l := by decide
  exact hrows layer hsmall

/-! ## The text recorded of a spelling -/

theorem split_moduleName (path : SourcePath) : Text.split '.' path.moduleName =
    package :: (path.directories ++ if path.isPackage then [] else [path.stem]).map
      Identifier.text := by
  have hpackage : package = (Identifier.mk package).text := rfl
  rw [SourcePath.moduleName, hpackage, ← List.map_cons]
  exact split_join_identifiers (List.cons_ne_nil _ _)

/-- A module's relative imports start from the directory it is in. -/
theorem packageParts_eq (path : SourcePath) :
    packageParts path = package :: path.directories.map Identifier.text := by
  unfold packageParts
  rw [split_moduleName]
  by_cases hpackage : path.isPackage = true
  · simp [hpackage]
  · have hcons : package :: (path.directories ++ [path.stem]).map Identifier.text =
        (package :: path.directories.map Identifier.text) ++ [path.stem.text] := by simp
    rw [if_neg hpackage, if_neg hpackage, hcons, List.dropLast_concat]

/-- What is joined from the root on is not empty. -/
theorem join_ne_empty {parts : List String}
    (h : (parts.flatMap (Text.split '.')).head? = some package) : Text.join '.' parts ≠ "" := by
  intro hempty
  have hne : parts ≠ [] := by
    rintro rfl
    cases h
  have hsplit := Text.split_join '.' hne
  rw [hempty, Text.split_eq_singleton List.not_mem_nil] at hsplit
  rw [← hsplit, List.head?_cons] at h
  exact absurd (Option.some.inj h) (by decide)

/-- **The gate resolves a from-import as the interpreter does**, where the
interpreter does. -/
theorem resolveFromModule_eq {path : SourcePath} {from_ : Option DottedName} {level : ℕ}
    {owner : String} (h : importedModule path from_ level = some owner) :
    resolveFromModule path from_ level = owner ∧ owner ≠ "" := by
  unfold importedModule at h
  unfold resolveFromModule
  split_ifs at h with hlevel hshort
  · obtain ⟨name, rfl, rfl⟩ := Option.map_eq_some_iff.mp h
    rw [if_pos hlevel]
    exact ⟨rfl, name.text_ne_empty⟩
  · have hparts : (if path.isPackage then Text.split '.' path.moduleName
        else (Text.split '.' path.moduleName).dropLast) = packageParts path := rfl
    have hlong : ¬ (packageParts path).length < level - 1 := by omega
    -- At least the root is left of the package.
    obtain ⟨base, hbase⟩ : ∃ base,
        (packageParts path).take ((packageParts path).length - (level - 1)) =
          package :: base := by
      have hpos : (packageParts path).length - (level - 1) ≠ 0 := by omega
      obtain ⟨n, hn⟩ := Nat.exists_eq_succ_of_ne_zero hpos
      exact ⟨_, by rw [hn, packageParts_eq, List.take_succ_cons]⟩
    rw [if_neg hlevel]
    simp only [hparts, if_neg hlong, hbase] at h ⊢
    rcases from_ with _ | name
    · obtain rfl := Option.some.inj h
      refine ⟨by simp, join_ne_empty ?_⟩
      simp [split_package]
    · obtain rfl := Option.some.inj h
      refine ⟨?_, join_ne_empty ?_⟩
      · simp only [Option.map_some, Option.getD_some]
        rw [Text.join_eq_iff '.' (by simp) (by simp), List.flatMap_append, flatMap_split_text]
        simp only [List.flatMap_cons, List.flatMap_nil, List.append_nil]
        rw [Text.split_join '.' (List.cons_ne_nil _ _)]
        rfl
      · simp [Text.split_join, split_package]

/-! ## The layer of a target -/

/-- The layer a target is in, where the gate can tell it. -/
def layerOf : Target → Option ℕ
  | .module name => targetLayer name
  | .attribute owner name =>
      if owner = package then some ((layerByDirectory name).getD 0) else targetLayer owner
  | .everything owner => targetLayer owner

/-- What a from-import may name. -/
theorem importFrom_cases {installed : Installed} {owner : String} {name : Identifier} {t : Target}
    (h : installed.importFrom owner name = some t) :
    name.text = "*" ∧ t = .everything owner ∨ t = .attribute owner name.text ∨
      t = .module (Text.join '.' [owner, name.text]) := by
  unfold Installed.importFrom at h
  split_ifs at h with hmodule hstar hattribute hsub
  · exact .inl ⟨hstar, (Option.some.inj h).symm⟩
  · exact .inr (.inl (Option.some.inj h).symm)
  · exact .inr (.inr (Option.some.inj h).symm)

/-- A spelling names what it is a member spelling of, or a module outright. -/
theorem target_cases {installed : Installed} {path : SourcePath} {spelling : Spelling} {t : Target}
    (h : spelling.target installed path = some t) :
    (∃ module, t = .module module ∧ spelling.edge path = some module) ∨
      ∃ line from_ node level owner, spelling = .member line from_ node level ∧
        resolveFromModule path from_ level = owner ∧ owner ≠ "" ∧
        installed.importFrom owner node.name = some t := by
  rcases spelling with ⟨line, node⟩ | ⟨line, from_, node, level⟩
  · simp only [Spelling.target] at h
    split_ifs at h with hmodule
    exact .inl ⟨node.name.text, (Option.some.inj h).symm, rfl⟩
  · obtain ⟨owner, howner, hmember⟩ := Option.bind_eq_some_iff.mp h
    obtain ⟨hresolve, hne⟩ := resolveFromModule_eq howner
    exact .inr ⟨line, from_, node, level, owner, rfl, hresolve, hne, hmember⟩

/-- **The text recorded of a spelling is in the layer of its target**, as
long as the root is asked for layers only. -/
theorem targetLayer_edge {installed : Installed} {path : SourcePath} {spelling : Spelling}
    {t : Target} (h : spelling.target installed path = some t)
    (hroot : ∀ name, installed.importFrom package name = some t →
      (layerByDirectory name.text).isSome = true) :
    ∃ module, spelling.edge path = some module ∧ targetLayer module = layerOf t := by
  rcases target_cases h with ⟨module, rfl, hedge⟩ |
    ⟨line, from_, node, level, owner, rfl, hresolve, hne, hmember⟩
  · exact ⟨module, hedge, rfl⟩
  by_cases howner : owner = package
  -- Asked of the root, the name is a layer's, and so is the text.
  · subst howner
    have hlayer := hroot node.name hmember
    refine ⟨Text.join '.' [package, node.name.text], ?_, ?_⟩
    · simp only [Spelling.edge, hresolve, if_neg hne, true_or, if_true, hlayer]
    · rw [targetLayer_root]
      rcases importFrom_cases hmember with ⟨hstar, rfl⟩ | rfl | rfl
      · rw [hstar, layerByDirectory_star] at hlayer
        cases hlayer
      · rw [layerOf, if_pos rfl]
      · rw [layerOf, targetLayer_root]
  -- Below another module, name and module are in one layer.
  · have hlayer : layerOf t = targetLayer owner := by
      rcases importFrom_cases hmember with ⟨-, rfl⟩ | rfl | rfl
      · rfl
      · rw [layerOf, if_neg howner]
      · exact targetLayer_member howner node.name.text
    rcases from_ with _ | name
    · refine ⟨Text.join '.' [owner, node.name.text], ?_, ?_⟩
      · simp only [Spelling.edge, hresolve, if_neg hne, or_true, if_true]
      · rw [targetLayer_member howner, hlayer]
    · refine ⟨owner, ?_, hlayer.symm⟩
      simp [Spelling.edge, hresolve, hne, howner]

end CheckArchitecture

end Congine
