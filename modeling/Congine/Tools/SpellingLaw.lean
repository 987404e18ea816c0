import Congine.Tools.ImportSpelling
/-!
# The gate and the spelling of an import

What the gate reports of a spelling is the layer of the text it records.
Over every file of a module, however deep its imports stand, the verdict
goes by the target, except for the names asked of the root: these are
attributes to an absolute import and submodules to a relative one.
-/

namespace Congine

namespace CheckArchitecture

open Python

/-! ## Reports -/

/-- A visit of an import statement records every spelling in it. -/
theorem mem_visitImport {path : SourcePath} {typeChecking : Bool} {node : Import}
    {spelling : Spelling} (hmem : spelling ∈ spellings node) {module : String}
    (hedge : spelling.edge path = some module) :
    ⟨module, spelling.line, typeChecking⟩ ∈ visitImport path typeChecking node := by
  rcases node with ⟨line, aliases⟩ | ⟨line, from_, aliases, level⟩
  · obtain ⟨node, hnode, rfl⟩ := List.mem_map.mp hmem
    obtain rfl := Option.some.inj hedge
    exact List.mem_map.mpr ⟨node, hnode, rfl⟩
  · obtain ⟨node, hnode, rfl⟩ := List.mem_map.mp hmem
    simp only [Spelling.edge] at hedge
    simp only [visitImport, Spelling.line]
    split_ifs at hedge with hempty hmembers hlayer
    · obtain rfl := Option.some.inj hedge
      rw [if_neg hempty, if_pos hmembers]
      exact List.mem_map.mpr ⟨node, hnode, if_pos hlayer⟩
    · obtain rfl := Option.some.inj hedge
      rw [if_neg hempty, if_pos hmembers]
      exact List.mem_map.mpr ⟨node, hnode, if_neg hlayer⟩
    · obtain rfl := Option.some.inj hedge
      rw [if_neg hempty, if_neg hmembers]
      exact List.mem_singleton_self _

mutual

/-- **Every import statement is visited**, whatever it is nested in. -/
theorem visitImport_subset_stmt {path : SourcePath} {node : Import} :
    ∀ (s : Stmt) (scopes : List ScopeFrame) (typeChecking : Bool), node ∈ importsInStmt s →
      ∃ tc, visitImport path tc node ⊆ visitStmt path scopes typeChecking s
  | .functionDef _ params decorators defaults _ body, scopes, typeChecking, h => by
    obtain ⟨tc, hsub⟩ :=
      visitImport_subset body (functionFrame params body :: scopes) typeChecking h
    exact ⟨tc, fun r hr => List.mem_append_right _ (hsub hr)⟩
  | .classDef _ decorators bases keywords body, scopes, typeChecking, h => by
    obtain ⟨tc, hsub⟩ := visitImport_subset body (classFrame body :: scopes) typeChecking h
    exact ⟨tc, fun r hr => List.mem_append_right _ (hsub hr)⟩
  | .importStmt node', scopes, typeChecking, h => by
    obtain rfl := List.mem_singleton.mp h
    exact ⟨typeChecking, List.Subset.refl _⟩
  | .ifStmt test body orelse, scopes, typeChecking, h => by
    rcases List.mem_append.mp h with h | h
    · obtain ⟨tc, hsub⟩ := visitImport_subset body scopes
        (typeChecking || typeCheckingGuard scopes test = some true) h
      exact ⟨tc, fun r hr => List.mem_append_left _ (List.mem_append_right _ (hsub hr))⟩
    · obtain ⟨tc, hsub⟩ := visitImport_subset orelse scopes
        (typeChecking || typeCheckingGuard scopes test = some false) h
      exact ⟨tc, fun r hr => List.mem_append_right _ (hsub hr)⟩
  | .globalStmt _, _, _, h => absurd h List.not_mem_nil
  | .nonlocalStmt _, _, _, h => absurd h List.not_mem_nil
  | .other exprs _ body, scopes, typeChecking, h => by
    obtain ⟨tc, hsub⟩ := visitImport_subset body scopes typeChecking h
    exact ⟨tc, fun r hr => List.mem_append_right _ (hsub hr)⟩

theorem visitImport_subset {path : SourcePath} {node : Import} :
    ∀ (ss : List Stmt) (scopes : List ScopeFrame) (typeChecking : Bool), node ∈ importsIn ss →
      ∃ tc, visitImport path tc node ⊆ visitStmts path scopes typeChecking ss
  | [], _, _, h => absurd h List.not_mem_nil
  | s :: ss, scopes, typeChecking, h => by
    rcases List.mem_append.mp h with h | h
    · obtain ⟨tc, hsub⟩ := visitImport_subset_stmt s scopes typeChecking h
      exact ⟨tc, fun r hr => List.mem_append_left _ (hsub hr)⟩
    · obtain ⟨tc, hsub⟩ := visitImport_subset ss scopes typeChecking h
      exact ⟨tc, fun r hr => List.mem_append_right _ (hsub hr)⟩

end

theorem judge_eq_some {path : SourcePath} {layer : ℕ} {recorded : RecordedImport}
    {v : LayerViolation} (h : judge path layer recorded = some v) :
    ∃ target, targetLayer recorded.module = some target ∧ target ∉ allowedDependencies layer ∧
      ⟨path, recorded.line, layer, target, recorded.module, recorded.typeChecking⟩ = v := by
  unfold judge at h
  rcases htarget : targetLayer recorded.module with _ | target
  · simp [htarget] at h
  · simp only [htarget] at h
    split_ifs at h with hallowed
    exact ⟨target, rfl, hallowed, Option.some.inj h⟩

theorem checkArchitecture_cons {file : SourceFile} {files : List SourceFile}
    {violations : List LayerViolation} (h : checkArchitecture (file :: files) = .ok violations) :
    ∃ first rest, checkFile file = .ok first ∧ checkArchitecture files = .ok rest ∧
      first ++ rest = violations := by
  rw [checkArchitecture] at h
  rcases hfirst : checkFile file with exc | first
  · rw [hfirst] at h
    cases h
  · rcases hrest : checkArchitecture files with exc | rest
    · rw [hfirst, hrest] at h
      cases h
    · rw [hfirst, hrest] at h
      exact ⟨first, rest, rfl, rfl, Except.ok.inj h⟩

/-- **What a violation is**: a recorded edge the matrix has no entry for. -/
theorem violation_spec {files : List SourceFile} {violations : List LayerViolation}
    (h : checkArchitecture files = .ok violations) {v : LayerViolation} (hv : v ∈ violations) :
    v.path.isAggregator = false ∧ v.path.sourceLayer = .ok v.sourceLayer ∧
      targetLayer v.targetModule = some v.targetLayer ∧
      v.targetLayer ∉ allowedDependencies v.sourceLayer := by
  induction files generalizing violations with
  | nil =>
    obtain rfl := Except.ok.inj h
    exact absurd hv List.not_mem_nil
  | cons file files ih =>
    obtain ⟨first, rest, hfirst, hrest, rfl⟩ := checkArchitecture_cons h
    rcases List.mem_append.mp hv with hv | hv
    · unfold checkFile at hfirst
      split_ifs at hfirst with hroot
      · obtain rfl := Except.ok.inj hfirst
        exact absurd hv List.not_mem_nil
      · rcases hlayer : file.path.sourceLayer with exc | layer
        · rw [hlayer] at hfirst
          cases hfirst
        · rw [hlayer] at hfirst
          obtain rfl := Except.ok.inj hfirst
          obtain ⟨recorded, -, hjudge⟩ := List.mem_filterMap.mp hv
          obtain ⟨target, htarget, hnot, rfl⟩ := judge_eq_some hjudge
          exact ⟨by simpa using hroot, hlayer, htarget, hnot⟩
    · exact ih hrest hv

/-- **The check looks at every file**: what a file records and the matrix
does not allow it is among the violations. -/
theorem violation_of_recorded {files : List SourceFile} {violations : List LayerViolation}
    (h : checkArchitecture files = .ok violations) {file : SourceFile} (hfile : file ∈ files)
    (hroot : file.path.isAggregator = false) :
    ∃ layer, file.path.sourceLayer = .ok layer ∧ ∀ recorded ∈ recordedImports file,
      ∀ target, targetLayer recorded.module = some target → target ∉ allowedDependencies layer →
        ⟨file.path, recorded.line, layer, target, recorded.module, recorded.typeChecking⟩ ∈
          violations := by
  induction files generalizing violations with
  | nil => exact absurd hfile List.not_mem_nil
  | cons file' files ih =>
    obtain ⟨first, rest, hfirst, hrest, rfl⟩ := checkArchitecture_cons h
    rcases List.mem_cons.mp hfile with rfl | hfile
    · rcases hlayer : file.path.sourceLayer with exc | layer
      · simp [checkFile, hroot, hlayer, Except.map] at hfirst
      · obtain rfl : (recordedImports file).filterMap (judge file.path layer) = first := by
          simpa [checkFile, hroot, hlayer, Except.map] using hfirst
        refine ⟨layer, rfl, fun recorded hrecorded target htarget hnot => ?_⟩
        refine List.mem_append_left _ (List.mem_filterMap.mpr ⟨recorded, hrecorded, ?_⟩)
        simp [judge, htarget, hnot]
    · obtain ⟨layer, hlayer, hall⟩ := ih hrest hfile
      exact ⟨layer, hlayer, fun recorded hrecorded target htarget hnot =>
        List.mem_append_right _ (hall recorded hrecorded target htarget hnot)⟩

/-- **A spelling is reported by the layer of its text** alone. -/
theorem reported_iff {files : List SourceFile} {violations : List LayerViolation}
    (h : checkArchitecture files = .ok violations) {file : SourceFile} (hfile : file ∈ files)
    (hroot : file.path.isAggregator = false) {layer : ℕ}
    (hlayer : file.path.sourceLayer = .ok layer)
    {spelling : Spelling} (hspelling : spelling ∈ file.spellings) {module : String}
    (hedge : spelling.edge file.path = some module) :
    Reported violations file.path spelling ↔
      ∃ target, targetLayer module = some target ∧ target ∉ allowedDependencies layer := by
  constructor
  · rintro ⟨v, hv, hpath, -, hmodule⟩
    obtain ⟨-, hsource, htarget, hnot⟩ := violation_spec h hv
    rw [hpath, hlayer] at hsource
    rw [hedge] at hmodule
    obtain rfl := Option.some.inj hmodule
    obtain rfl := Except.ok.inj hsource
    exact ⟨v.targetLayer, htarget, hnot⟩
  · rintro ⟨target, htarget, hnot⟩
    obtain ⟨layer', hlayer', hall⟩ := violation_of_recorded h hfile hroot
    rw [hlayer] at hlayer'
    obtain rfl := Except.ok.inj hlayer'
    obtain ⟨node, hnode, hspelling⟩ := List.mem_flatMap.mp hspelling
    obtain ⟨tc, hsub⟩ := visitImport_subset file.body [moduleFrame file.body] false hnode
    have hrecorded := hsub (mem_visitImport hspelling hedge)
    exact ⟨_, hall _ hrecorded target htarget hnot, rfl, rfl, hedge⟩

/-! ## Names the root is asked for -/

/-- The root package, as an import spells it. -/
def rootName : DottedName := ⟨[⟨package, by decide, by decide⟩], by simp⟩

theorem text_rootName : rootName.text = package := by
  rw [eq_package_iff, rootName.split_text]
  rfl

/-- `from congine_core import name`. -/
def absoluteSpelling (name : Identifier) : Spelling := .member 1 (some rootName) ⟨name, none⟩ 0

/-- `from ... import name`, with as many dots as lead to the root. -/
def relativeSpelling (path : SourcePath) (name : Identifier) : Spelling :=
  .member 1 none ⟨name, none⟩ (packageParts path).length

/-- A file with an import of one name. -/
def fileOf (path : SourcePath) : Spelling → SourceFile
  | .module line node => ⟨path, [.importStmt (.names line [node])]⟩
  | .member line from_ node level => ⟨path, [.importStmt (.members line from_ [node] level)]⟩

theorem mem_spellings_fileOf (path : SourcePath) (spelling : Spelling) :
    spelling ∈ (fileOf path spelling).spellings := by
  rcases spelling with ⟨line, node⟩ | ⟨line, from_, node, level⟩
  · simp [fileOf, SourceFile.spellings, importsIn, importsInStmt, spellings]
  · simp [fileOf, SourceFile.spellings, importsIn, importsInStmt, spellings]

theorem fileOf_path (path : SourcePath) (spelling : Spelling) :
    (fileOf path spelling).path = path := by
  rcases spelling with ⟨line, node⟩ | ⟨line, from_, node, level⟩
  · rfl
  · rfl

theorem importedModule_absolute (path : SourcePath) :
    importedModule path (some rootName) 0 = some package := by
  rw [importedModule, if_pos rfl, Option.map_some, text_rootName]

theorem importedModule_relative (path : SourcePath) :
    importedModule path none (packageParts path).length = some package := by
  have hjoin : Text.join '.' [package] = package := by
    rw [eq_package_iff, Text.split_join '.' (List.cons_ne_nil _ _), List.flatMap_singleton,
      split_package]
  unfold importedModule
  rw [packageParts_eq]
  have hone : (package :: path.directories.map Identifier.text).length -
      ((package :: path.directories.map Identifier.text).length - 1) = 1 := by
    simp
  rw [if_neg (by simp), if_neg (Nat.lt_irrefl _), hone, List.take_succ_cons, List.take_zero, hjoin]

/-- An absolute import of a name from the root is one of a layer, or of the
aggregator. -/
theorem edge_absoluteSpelling (path : SourcePath) (name : Identifier) :
    (absoluteSpelling name).edge path =
      if (layerByDirectory name.text).isSome then some (Text.join '.' [package, name.text])
      else some package := by
  obtain ⟨hresolve, hne⟩ := resolveFromModule_eq (importedModule_absolute path)
  simp [absoluteSpelling, Spelling.edge, hresolve, hne]

/-- A relative one is always taken for one of a submodule. -/
theorem edge_relativeSpelling (path : SourcePath) (name : Identifier) :
    (relativeSpelling path name).edge path = some (Text.join '.' [package, name.text]) := by
  obtain ⟨hresolve, hne⟩ := resolveFromModule_eq (importedModule_relative path)
  simp [relativeSpelling, Spelling.edge, hresolve, hne]

theorem exists_violations {path : SourcePath} {layer : ℕ} (hlayer : path.sourceLayer = .ok layer)
    (spelling : Spelling) :
    ∃ violations, checkArchitecture [fileOf path spelling] = .ok violations := by
  have hpath := fileOf_path path spelling
  unfold checkArchitecture checkFile
  rw [hpath, hlayer]
  split_ifs
  · exact ⟨_, rfl⟩
  · exact ⟨_, rfl⟩

/-- What a spelling alone in a file of a module gets. -/
theorem reported_fileOf {path : SourcePath} {layer : ℕ} (hlayer : path.sourceLayer = .ok layer)
    (hroot : path.isAggregator = false) {spelling : Spelling} {module : String}
    (hedge : spelling.edge path = some module) {violations : List LayerViolation}
    (h : checkArchitecture [fileOf path spelling] = .ok violations) :
    Reported violations path spelling ↔
      ∃ target, targetLayer module = some target ∧ target ∉ allowedDependencies layer := by
  have hpath := fileOf_path path spelling
  have hiff := reported_iff h (List.mem_singleton_self _) (by rw [hpath]; exact hroot)
    (by rw [hpath]; exact hlayer) (mem_spellings_fileOf path spelling)
    (by rw [hpath]; exact hedge)
  rwa [hpath] at hiff

/-! ## The law -/

/-- **Told apart, a target has one verdict.** -/
theorem spellingFree_of_toldApart {installed : Installed} {path : SourcePath} {t : Target}
    (htold : ToldApart installed path t) : SpellingFree installed path t := by
  rintro files files' violations violations' h h' file hfile file' hfile' rfl hpath
    spelling hspelling spelling' hspelling' htarget htarget'
  by_cases hroot : file.path.isAggregator = true
  -- The root is not looked at, and has no report of any import.
  · have hnone : ∀ vs fs s, checkArchitecture fs = .ok vs → ¬ Reported vs file.path s := by
      rintro vs fs s hvs ⟨v, hv, hvpath, -⟩
      have hnot := (violation_spec hvs hv).1
      rw [hvpath, hroot] at hnot
      cases hnot
    exact iff_of_false (hnone violations files spelling h) (hnone violations' files' spelling' h')
  · have hroot : file.path.isAggregator = false := by simpa using hroot
    obtain ⟨layer, hlayer, -⟩ := violation_of_recorded h hfile hroot
    have hlayers : ∀ name, installed.importFrom package name = some t →
        (layerByDirectory name.text).isSome = true := by
      intro name hname
      obtain ⟨target, hname, -⟩ := htold layer hlayer hroot name hname
      simp [hname]
    obtain ⟨module, hedge, hmodule⟩ := targetLayer_edge htarget hlayers
    obtain ⟨module', hedge', hmodule'⟩ := targetLayer_edge htarget' hlayers
    have hiff := reported_iff h hfile hroot hlayer hspelling hedge
    have hiff' := reported_iff h' hfile' (by rw [hpath]; exact hroot) (by rw [hpath]; exact hlayer)
      hspelling' (by rw [hpath]; exact hedge')
    rw [hpath] at hiff'
    rw [hiff, hiff', hmodule, hmodule']

/-- A name of the root that is had through it was asked of it. -/
theorem importFrom_of_throughAggregator {installed : Installed} {path : SourcePath}
    {spelling : Spelling} {t : Target} (h : spelling.target installed path = some t)
    (hthrough : ThroughAggregator t) :
    t = .module package ∨ ∃ name, installed.importFrom package name = some t ∧
      (t = .attribute package name.text ∨ name.text = "*") := by
  rcases target_cases h with ⟨module, rfl, -⟩ | ⟨line, from_, node, level, owner, -, -, -, hmember⟩
  · obtain rfl := hthrough
    exact .inl rfl
  · rcases importFrom_cases hmember with ⟨hstar, rfl⟩ | rfl | rfl
    · obtain rfl := hthrough
      exact .inr ⟨node.name, hmember, .inr hstar⟩
    · obtain rfl := hthrough
      exact .inr ⟨node.name, hmember, .inl rfl⟩
    · exact .inl (by rw [hthrough])

/-- **Told apart, what the root offers is rejected.** -/
theorem aggregatorRejected_of_toldApart {installed : Installed} {path : SourcePath} {t : Target}
    (htold : ToldApart installed path t) : AggregatorRejected installed path t := by
  rintro hthrough hroot files violations h file hfile rfl spelling hspelling htarget
  obtain ⟨layer, hlayer, -⟩ := violation_of_recorded h hfile hroot
  have hlayers : ∀ name, installed.importFrom package name = some t →
      ∃ target, layerByDirectory name.text = some target ∧ target ∉ allowedDependencies layer := by
    intro name hname
    obtain ⟨target, hname, hnot⟩ := htold layer hlayer hroot name hname
    exact ⟨target, hname, hnot hthrough⟩
  obtain ⟨module, hedge, hmodule⟩ := targetLayer_edge htarget fun name hname => by
    obtain ⟨target, hname, -⟩ := hlayers name hname
    simp [hname]
  rw [reported_iff h hfile hroot hlayer hspelling hedge, hmodule]
  -- The root itself is in no row of the matrix; a name of it is a layer's, by what is assumed.
  rcases importFrom_of_throughAggregator htarget hthrough with rfl | ⟨name, hname, hcase⟩
  · exact ⟨publicAggregatorLayer, targetLayer_package, (sourceLayer_cases hlayer).2⟩
  · obtain ⟨target, hlayer', hnot⟩ := hlayers name hname
    rcases hcase with rfl | hstar
    · refine ⟨target, ?_, hnot⟩
      rw [layerOf, if_pos rfl, hlayer']
      rfl
    · rw [hstar, layerByDirectory_star] at hlayer'
      cases hlayer'

/-- **The gate is blind to spelling exactly where the root is asked for its
layers only**, and refuses what goes through the root exactly where no
layer's name is an attribute of it. -/
theorem spelling_law (installed : Installed) (path : SourcePath) (t : Target) :
    (SpellingFree installed path t ∧ AggregatorRejected installed path t) ↔
      ToldApart installed path t := by
  refine ⟨?_, fun htold =>
    ⟨spellingFree_of_toldApart htold, aggregatorRejected_of_toldApart htold⟩⟩
  rintro ⟨hfree, hrejected⟩ layer hlayer hroot name hname
  have habsolute : (absoluteSpelling name).target installed path = some t := by
    simp [absoluteSpelling, Spelling.target, importedModule_absolute, hname]
  have hrelative : (relativeSpelling path name).target installed path = some t := by
    simp [relativeSpelling, Spelling.target, importedModule_relative, hname]
  obtain ⟨violations, h⟩ := exists_violations hlayer (absoluteSpelling name)
  obtain ⟨violations', h'⟩ := exists_violations hlayer (relativeSpelling path name)
  have hedge := edge_absoluteSpelling path name
  have hiff := hfree _ _ _ _ h h' _ (List.mem_singleton_self _) _ (List.mem_singleton_self _)
    (fileOf_path _ _) (fileOf_path _ _) _ (mem_spellings_fileOf _ _) _ (mem_spellings_fileOf _ _)
    habsolute hrelative
  rcases hdirectory : layerByDirectory name.text with _ | target
  · -- No layer's name: the absolute import is refused, the relative one is let through.
    rw [hdirectory] at hedge
    have hyes := (reported_fileOf hlayer hroot hedge h).mpr
      ⟨publicAggregatorLayer, targetLayer_package, (sourceLayer_cases hlayer).2⟩
    obtain ⟨target, htarget, hnot⟩ := (reported_fileOf hlayer hroot
      (edge_relativeSpelling path name) h').mp (hiff.mp hyes)
    rw [targetLayer_root, hdirectory] at htarget
    obtain rfl := Option.some.inj htarget
    exact absurd (sourceLayer_cases hlayer).1 hnot
  -- A layer's name: where it is an attribute of the root, the absolute import is refused.
  · refine ⟨target, rfl, fun hthrough => ?_⟩
    rw [hdirectory] at hedge
    have hyes := hrejected hthrough hroot _ _ h _ (List.mem_singleton_self _) (fileOf_path _ _) _
      (mem_spellings_fileOf _ _) habsolute
    obtain ⟨target', htarget, hnot⟩ := (reported_fileOf hlayer hroot hedge h).mp hyes
    rw [targetLayer_root, hdirectory] at htarget
    obtain rfl := Option.some.inj htarget
    exact hnot

/-- The root package with one name of its public surface. -/
def publicSurface : Installed where
  hasModule name := name = package
  hasAttribute owner name := owner = package ∧ name = "ServiceContainer"

/-- `usecases/workflow.py`. -/
def workflow : SourcePath :=
  ⟨[⟨"usecases", by decide, by decide⟩], ⟨"workflow", by decide, by decide⟩⟩

def serviceContainer : Identifier := ⟨"ServiceContainer", by decide, by decide⟩

/-- `from congine_core import ServiceContainer` is refused in a use case,
and `from .. import ServiceContainer` is let through. -/
theorem spelling_law_serviceContainer :
    ¬ SpellingFree publicSurface workflow (.attribute package "ServiceContainer") ∧
      ¬ AggregatorRejected publicSurface workflow (.attribute package "ServiceContainer") := by
  have habsolute : checkArchitecture [fileOf workflow (absoluteSpelling serviceContainer)] =
      .ok [⟨workflow, 1, 3, 6, package, false⟩] := by rfl
  have hrelative :
      checkArchitecture [fileOf workflow (relativeSpelling workflow serviceContainer)] =
      .ok [] := by rfl
  have htarget : (absoluteSpelling serviceContainer).target publicSurface workflow =
      some (.attribute package "ServiceContainer") := by rfl
  have htarget' : (relativeSpelling workflow serviceContainer).target publicSurface workflow =
      some (.attribute package "ServiceContainer") := by rfl
  have hnot : ¬ Reported [] workflow (relativeSpelling workflow serviceContainer) := by
    rintro ⟨v, hv, -⟩
    exact absurd hv List.not_mem_nil
  refine ⟨fun hfree => hnot ?_, fun hrejected => hnot ?_⟩
  · have hiff := hfree _ _ _ _ habsolute hrelative _ (List.mem_singleton_self _) _
      (List.mem_singleton_self _) (fileOf_path _ _) (fileOf_path _ _) _ (mem_spellings_fileOf _ _) _
      (mem_spellings_fileOf _ _) htarget htarget'
    exact hiff.mp ⟨_, List.mem_singleton_self _, rfl, rfl, rfl⟩
  · exact hrejected rfl rfl _ _ hrelative _ (List.mem_singleton_self _) (fileOf_path _ _) _
      (mem_spellings_fileOf _ _) htarget'

end CheckArchitecture

end Congine
