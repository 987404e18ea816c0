import Congine.Kernel.Models
import Congine.Tools.PythonSyntax
/-!
# The architecture gate

`check_architecture` visits every module of the package but its root,
records the internal imports it finds, static and dynamic, and reports
those the layer matrix does not permit. What a name may stand for is read
off tables of the names each scope binds.
-/

namespace Congine

namespace CheckArchitecture

open Python

/-! ## Layers -/

/-- `_PACKAGE`. -/
def package : String := "congine_core"

/-- `_PUBLIC_AGGREGATOR_LAYER`. -/
def publicAggregatorLayer : ℕ := 6

/-- `_LAYER_BY_DIRECTORY`. -/
def layerByDirectory (directory : String) : Option ℕ :=
  [("ports", 1), ("domain", 2), ("usecases", 3), ("infrastructure", 4), ("adapters", 5)].lookup
    directory

/-- `_ALLOWED_DEPENDENCIES`. -/
def allowedDependencies : ℕ → List ℕ
  | 0 => [0]
  | 1 => [0, 1]
  | 2 => [0, 1, 2]
  | 3 => [0, 1, 2, 3]
  -- Infrastructure implements ports, and reaches neither domain nor use cases.
  | 4 => [0, 1, 4]
  | 5 => [0, 1, 2, 3, 4, 5]
  | _ => []

/-- The path of a source file under the package, without its suffix. -/
structure SourcePath where
  directories : List Identifier
  stem : Identifier
  deriving DecidableEq

namespace SourcePath

variable (path : SourcePath)

def isPackage : Bool := path.stem.text = "__init__"

/-- `path == public_aggregator`. -/
def isAggregator : Bool := path.directories = [] ∧ path.isPackage

/-- `_source_layer`. -/
def sourceLayer : Except Exc ℕ :=
  match path.directories with
  | [] => .ok 0
  | directory :: _ =>
      match layerByDirectory directory.text with
      | some layer => .ok layer
      | none => .error .valueError

/-- `_module_name`. -/
def moduleName : String :=
  Text.join '.' (package ::
    (path.directories ++ if path.isPackage then [] else [path.stem]).map Identifier.text)

end SourcePath

/-- `_target_layer`. -/
def targetLayer (module : String) : Option ℕ :=
  match Text.split '.' module with
  | [] => none
  | root :: rest =>
      if root ≠ package then none
      else match rest with
        -- The root itself is no allowed target, in no row of the matrix.
        | [] => some publicAggregatorLayer
        | directory :: _ => some ((layerByDirectory directory).getD 0)

/-! ## The names a scope binds -/

/-- The set a visited binding puts its name into, next to `bound`. -/
inductive BindingKind where
  | rebound
  | directTypeChecking
  | typingModule
  | importModuleFunction
  | importlibModule
  deriving DecidableEq

/-- `visit_Import` of the `BindingVisitor`, for one alias. -/
def bindImportAlias (node : ImportAlias) : String × BindingKind :=
  (node.asname.getD node.name.first,
    if node.name.text ∈ ["typing", "typing_extensions"] then .typingModule
    else if node.name.text = "importlib" then .importlibModule
    else .rebound)

/-- `visit_ImportFrom` of the `BindingVisitor`, for one alias. -/
def bindFromAlias (module : Option DottedName) (node : FromAlias) : String × BindingKind :=
  let module := (module.map DottedName.text).getD ""
  (node.asname.getD node.name.text,
    if module ∈ ["typing", "typing_extensions"] ∧ node.name.text = "TYPE_CHECKING" then
      .directTypeChecking
    else if module = "importlib" ∧ node.name.text = "import_module" then .importModuleFunction
    else .rebound)

def bindImport : Import → List (String × BindingKind)
  | .names _ aliases => aliases.map bindImportAlias
  | .members _ module aliases _ => aliases.map (bindFromAlias module)

mutual

/-- The `BindingVisitor` on an expression: every name that is stored to,
outside lambdas. -/
def bindExpr : Expr → List (String × BindingKind)
  | .name id .store => [(id, .rebound)]
  | .name _ _ => []
  | .constant _ => []
  | .attribute value _ => bindExpr value
  | .call _ func args keywords => bindExpr func ++ bindExprs args ++ bindExprs keywords
  | .keyword _ value => bindExpr value
  | .not operand => bindExpr operand
  | .lambda _ _ _ => []
  -- The variables of a comprehension are stored to like any name.
  | .comp elts generators => bindExprs elts ++ bindExprs generators
  | .comprehension target iter ifs => bindExpr target ++ bindExpr iter ++ bindExprs ifs
  | .namedExpr target value => (target, .rebound) :: bindExpr value
  | .other children => bindExprs children

def bindExprs : List Expr → List (String × BindingKind)
  | [] => []
  | e :: es => bindExpr e ++ bindExprs es

end

mutual

/-- The `BindingVisitor` on a statement. It does not go into definitions. -/
def bindStmt : Stmt → List (String × BindingKind)
  | .functionDef name _ _ _ _ _ => [(name, .rebound)]
  | .classDef name _ _ _ _ => [(name, .rebound)]
  | .importStmt node => bindImport node
  | .ifStmt test body orelse => bindExpr test ++ bindStmts body ++ bindStmts orelse
  | .globalStmt _ => []
  | .nonlocalStmt _ => []
  | .other exprs _ body => bindExprs exprs ++ bindStmts body

def bindStmts : List Stmt → List (String × BindingKind)
  | [] => []
  | s :: ss => bindStmt s ++ bindStmts ss

end

/-- `_ScopeAliases`. -/
structure ScopeAliases where
  bound : List String
  directTypeChecking : List String
  typingModules : List String
  importModuleFunctions : List String
  importlibModules : List String

/-- The names of the bindings of a kind. -/
def namesOfKind (bindings : List (String × BindingKind)) (kind : BindingKind) : List String :=
  (bindings.filter (·.2 = kind)).map (·.1)

/-- The names found in two of the alias categories. -/
def ambiguous (bindings : List (String × BindingKind)) : List String :=
  let categories := [namesOfKind bindings .directTypeChecking, namesOfKind bindings .typingModule,
    namesOfKind bindings .importModuleFunction, namesOfKind bindings .importlibModule]
  (bindings.map (·.1)).filter fun name => 2 ≤ categories.countP (name ∈ ·)

/-- `_scope_aliases`. -/
def scopeAliases (statements : List Stmt) (parameters : List String) : ScopeAliases :=
  let bindings := parameters.map (·, .rebound) ++ bindStmts statements
  let blocked := namesOfKind bindings .rebound ++ ambiguous bindings
  { bound := bindings.map (·.1)
    directTypeChecking := (namesOfKind bindings .directTypeChecking).filter (· ∉ blocked)
    typingModules := (namesOfKind bindings .typingModule).filter (· ∉ blocked)
    -- A discovered loader stays one where another binding makes it ambiguous.
    importModuleFunctions := namesOfKind bindings .importModuleFunction
    importlibModules := namesOfKind bindings .importlibModule }

/-! ## Scopes -/

inductive ScopeKind where
  | module
  | function
  | classBody
  deriving DecidableEq

/-- `_ScopeFrame`. -/
structure ScopeFrame where
  kind : ScopeKind
  aliases : ScopeAliases

/-- `_visible_scope_frames`, on the scopes from the current one outward. -/
def visibleScopeFrames : List ScopeFrame → List ScopeFrame
  | [] => []
  | frame :: outer =>
      match frame.kind with
      | .module => frame :: outer
      -- A class is seen from its own statements, and from nowhere further in.
      | .function => frame :: outer.filter (·.kind ≠ .classBody)
      | .classBody => frame :: outer.filter (·.kind ≠ .classBody)

/-- The loop of `_resolves_as`, over the visible frames. -/
def resolvesIn (name : String) (category : ScopeAliases → List String) : List ScopeFrame → Bool
  | [] => false
  | frame :: frames =>
      if name ∈ category frame.aliases then true
      else if name ∈ frame.aliases.bound then false
      else resolvesIn name category frames

/-- `_resolves_as`. -/
def resolvesAs (scopes : List ScopeFrame) (name : String)
    (category : ScopeAliases → List String) : Bool :=
  resolvesIn name category (visibleScopeFrames scopes)

/-- `_is_bound`. -/
def isBound (scopes : List ScopeFrame) (name : String) : Bool :=
  (visibleScopeFrames scopes).any fun frame => name ∈ frame.aliases.bound

/-- `_is_type_checking_reference`. -/
def isTypeCheckingReference (scopes : List ScopeFrame) : Expr → Bool
  | .name id _ => resolvesAs scopes id (·.directTypeChecking)
  | .attribute (.name id _) attr =>
      attr = "TYPE_CHECKING" ∧ resolvesAs scopes id (·.typingModules)
  | _ => false

/-- `_type_checking_guard`. -/
def typeCheckingGuard (scopes : List ScopeFrame) : Expr → Option Bool
  | .not operand => if isTypeCheckingReference scopes operand then some false else none
  | test => if isTypeCheckingReference scopes test then some true else none

/-! ## The visit of a module -/

/-- `_RecordedImport`. -/
structure RecordedImport where
  module : String
  line : ℕ
  typeChecking : Bool
  deriving DecidableEq

/-- `_resolve_from_module`. -/
def resolveFromModule (path : SourcePath) (module : Option DottedName) (level : ℕ) : String :=
  if level = 0 then (module.map DottedName.text).getD ""
  else
    let parts := Text.split '.' path.moduleName
    let parts := if path.isPackage then parts else parts.dropLast
    let ascend := level - 1
    -- At one level too many nothing is left of the package, and no error is raised.
    if parts.length < ascend then ""
    else Text.join '.' (parts.take (parts.length - ascend) ++
      (module.map fun name => Text.split '.' name.text).getD [])

/-- `visit_Import` and `visit_ImportFrom`. -/
def visitImport (path : SourcePath) (typeChecking : Bool) : Import → List RecordedImport
  | .names line aliases => aliases.map fun node => ⟨node.name.text, line, typeChecking⟩
  | .members line from_ aliases level =>
      let module := resolveFromModule path from_ level
      if module = "" then []
      else if module = package ∨ from_ = none then
        -- From the root, an absolute import of no layer is one of the aggregator.
        aliases.map fun node =>
          if (layerByDirectory node.name.text).isSome ∨ from_ = none then
            ⟨Text.join '.' [module, node.name.text], line, typeChecking⟩
          else ⟨module, line, typeChecking⟩
      else [⟨module, line, typeChecking⟩]

/-- `is_dynamic_import`. -/
def isDynamicImport (scopes : List ScopeFrame) : Expr → Bool
  | .name id _ =>
      (id = "__import__" ∧ isBound scopes id = false) ∨
        resolvesAs scopes id (·.importModuleFunctions)
  | .attribute (.name id _) attr =>
      attr = "import_module" ∧ resolvesAs scopes id (·.importlibModules)
  | _ => false

/-- `visit_Call`, up to the visit of its parts: the literal it records. -/
def visitCall (scopes : List ScopeFrame) (func : Expr) (args : List Expr) : Option String :=
  match args with
  | .constant (.str value) :: _ => if isDynamicImport scopes func then some value else none
  | _ => none

mutual

/-- The visit of an expression, in a scope. -/
def visitExpr (scopes : List ScopeFrame) (typeChecking : Bool) : Expr → List RecordedImport
  | .name _ _ => []
  | .constant _ => []
  | .attribute value _ => visitExpr scopes typeChecking value
  | .call line func args keywords =>
      (visitCall scopes func args).toList.map (⟨·, line, typeChecking⟩) ++
        visitExpr scopes typeChecking func ++ visitExprs scopes typeChecking args ++
        visitExprs scopes typeChecking keywords
  | .keyword _ value => visitExpr scopes typeChecking value
  | .not operand => visitExpr scopes typeChecking operand
  -- A lambda and a comprehension are visited in the scope they stand in.
  | .lambda _ defaults body =>
      visitExprs scopes typeChecking defaults ++ visitExpr scopes typeChecking body
  | .comp elts generators =>
      visitExprs scopes typeChecking elts ++ visitExprs scopes typeChecking generators
  | .comprehension target iter ifs =>
      visitExpr scopes typeChecking target ++ visitExpr scopes typeChecking iter ++
        visitExprs scopes typeChecking ifs
  | .namedExpr _ value => visitExpr scopes typeChecking value
  | .other children => visitExprs scopes typeChecking children

def visitExprs (scopes : List ScopeFrame) (typeChecking : Bool) :
    List Expr → List RecordedImport
  | [] => []
  | e :: es => visitExpr scopes typeChecking e ++ visitExprs scopes typeChecking es

end

/-- The scope of a function, by `_visit_function`. -/
def functionFrame (params : List String) (body : List Stmt) : ScopeFrame :=
  ⟨.function, scopeAliases body params⟩

/-- The scope of a class, by `visit_ClassDef`. -/
def classFrame (body : List Stmt) : ScopeFrame := ⟨.classBody, scopeAliases body []⟩

/-- The scope of a module, by the constructor of the visitor. -/
def moduleFrame (body : List Stmt) : ScopeFrame := ⟨.module, scopeAliases body []⟩

mutual

/-- The visit of a statement, in a scope. The annotations of a function are
not visited. -/
def visitStmt (path : SourcePath) (scopes : List ScopeFrame) (typeChecking : Bool) :
    Stmt → List RecordedImport
  | .functionDef _ params decorators defaults _ body =>
      visitExprs scopes typeChecking decorators ++ visitExprs scopes typeChecking defaults ++
        visitStmts path (functionFrame params body :: scopes) typeChecking body
  | .classDef _ decorators bases keywords body =>
      visitExprs scopes typeChecking decorators ++ visitExprs scopes typeChecking bases ++
        visitExprs scopes typeChecking keywords ++
        visitStmts path (classFrame body :: scopes) typeChecking body
  | .importStmt node => visitImport path typeChecking node
  | .ifStmt test body orelse =>
      -- The guard is a label on what is recorded; both arms are visited.
      let guard := typeCheckingGuard scopes test
      visitExpr scopes typeChecking test ++
        visitStmts path scopes (typeChecking || guard = some true) body ++
        visitStmts path scopes (typeChecking || guard = some false) orelse
  | .globalStmt _ => []
  | .nonlocalStmt _ => []
  | .other exprs _ body =>
      visitExprs scopes typeChecking exprs ++ visitStmts path scopes typeChecking body

def visitStmts (path : SourcePath) (scopes : List ScopeFrame) (typeChecking : Bool) :
    List Stmt → List RecordedImport
  | [] => []
  | s :: ss => visitStmt path scopes typeChecking s ++ visitStmts path scopes typeChecking ss

end

/-! ## The check -/

structure SourceFile where
  path : SourcePath
  body : List Stmt

/-- `LayerViolation`. -/
structure LayerViolation where
  path : SourcePath
  line : ℕ
  sourceLayer : ℕ
  targetLayer : ℕ
  targetModule : String
  typeChecking : Bool
  deriving DecidableEq

/-- The violation a recorded import of a file is, if it is one. -/
def judge (path : SourcePath) (sourceLayer : ℕ) (recorded : RecordedImport) :
    Option LayerViolation :=
  match targetLayer recorded.module with
  | none => none
  | some target =>
      if target ∈ allowedDependencies sourceLayer then none
      else some ⟨path, recorded.line, sourceLayer, target, recorded.module, recorded.typeChecking⟩

/-- The imports a visit of a file records. -/
def recordedImports (file : SourceFile) : List RecordedImport :=
  visitStmts file.path [moduleFrame file.body] false file.body

/-- One turn of the loop of `check_architecture`. -/
def checkFile (file : SourceFile) : Except Exc (List LayerViolation) :=
  if file.path.isAggregator then .ok []
  else file.path.sourceLayer.map fun layer =>
    (recordedImports file).filterMap (judge file.path layer)

/-- `check_architecture`, over the files in the order of their paths. -/
def checkArchitecture : List SourceFile → Except Exc (List LayerViolation)
  | [] => .ok []
  | file :: files =>
      (checkFile file).bind fun violations => (checkArchitecture files).map (violations ++ ·)

end CheckArchitecture

end Congine
