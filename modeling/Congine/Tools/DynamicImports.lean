import Congine.Tools.LexicalScope
import Congine.Tools.SpellingLaw
/-!
# Dynamic imports

The calls of a module, each with the regions it stands in; the ones that
reach an import function by the rules of lexical scope, and the modules
they name in a literal; and which of them the gate reports. The gate keeps
a scope for every function and class around a call and none for a lambda or
a comprehension, and it does not visit annotations.
-/

namespace Congine

namespace CheckArchitecture

open Python

/-! ## Calls -/

/-- A call, and where it stands. -/
structure CallSite where
  /-- From the innermost outward. -/
  regions : List Region
  /-- It is no part of an annotation of a function. -/
  visited : Bool
  line : ℕ
  func : Expr
  args : List Expr
  keywords : List Expr

mutual

/-- The calls in an expression that stands in some regions. -/
def exprSites (regions : List Region) (visited : Bool) : Expr → List CallSite
  | .name _ _ => []
  | .constant _ => []
  | .attribute value _ => exprSites regions visited value
  | .call line func args keywords =>
      ⟨regions, visited, line, func, args, keywords⟩ ::
        (exprSites regions visited func ++ exprsSites regions visited args ++
          exprsSites regions visited keywords)
  | .keyword _ value => exprSites regions visited value
  | .not operand => exprSites regions visited operand
  -- A lambda and a comprehension are regions of their own.
  | .lambda params defaults body =>
      exprsSites regions visited defaults ++
        exprSites (.lambda params body :: regions) visited body
  | .comp elts generators =>
      exprsSites (.comp generators :: regions) visited elts ++
        generatorsSites regions (.comp generators :: regions) visited generators
  | .comprehension target iter ifs =>
      exprSites regions visited target ++ exprSites regions visited iter ++
        exprsSites regions visited ifs
  | .namedExpr _ value => exprSites regions visited value
  | .other children => exprsSites regions visited children

def exprsSites (regions : List Region) (visited : Bool) : List Expr → List CallSite
  | [] => []
  | e :: es => exprSites regions visited e ++ exprsSites regions visited es

/-- The calls in the generators of a comprehension: the first iterable
belongs to what is around it. -/
def generatorsSites (outer inner : List Region) (visited : Bool) : List Expr → List CallSite
  | [] => []
  | .comprehension target iter ifs :: generators =>
      exprSites inner visited target ++ exprSites outer visited iter ++
        exprsSites inner visited ifs ++ exprsSites inner visited generators
  | e :: es => exprSites inner visited e ++ exprsSites inner visited es

end

mutual

/-- The calls in a statement. -/
def stmtSites (regions : List Region) : Stmt → List CallSite
  | .functionDef _ params decorators defaults annotations body =>
      -- All of these stand around the function; its annotations are not visited.
      exprsSites regions true decorators ++ exprsSites regions true defaults ++
        exprsSites regions false annotations ++ stmtsSites (.function params body :: regions) body
  | .classDef name decorators bases keywords body =>
      exprsSites regions true decorators ++ exprsSites regions true bases ++
        exprsSites regions true keywords ++ stmtsSites (.classBody name body :: regions) body
  | .importStmt _ => []
  | .ifStmt test body orelse =>
      exprSites regions true test ++ stmtsSites regions body ++ stmtsSites regions orelse
  | .globalStmt _ => []
  | .nonlocalStmt _ => []
  | .other exprs _ body => exprsSites regions true exprs ++ stmtsSites regions body

def stmtsSites (regions : List Region) : List Stmt → List CallSite
  | [] => []
  | s :: ss => stmtSites regions s ++ stmtsSites regions ss

end

inductive Loader where
  | builtinImport
  | importModule
  deriving DecidableEq

/-- The callee may be the import function, by the rules of lexical scope. -/
def CallSite.Calls (body : List Stmt) (site : CallSite) : Loader → Prop
  | .builtinImport =>
      ∃ ctx, site.func = .name "__import__" ctx ∧
        Referent.builtin ∈ resolve body "__import__" site.regions
  | .importModule =>
      (∃ name ctx, site.func = .name name ctx ∧
        Referent.bound .importModule ∈ resolve body name site.regions) ∨
      ∃ name ctx, site.func = .attribute (.name name ctx) "import_module" ∧
        Referent.bound .importlib ∈ resolve body name site.regions

/-- An argument, by its position or its name. -/
def argument (args keywords : List Expr) (position : ℕ) (name : String) : Option Expr :=
  args[position]?.or (keywords.findSome? fun
    | .keyword (some arg) value => if arg = name then some value else none
    | _ => none)

def literal? : Expr → Option String
  | .constant (.str value) => some value
  | _ => none

/-- `importlib._bootstrap._resolve_name`, for a name with dots in front. -/
def resolveName (name anchor : String) : Option String :=
  let level := (name.toList.takeWhile (· = '.')).length
  let rest := String.ofList (name.toList.dropWhile (· = '.'))
  let parts := Text.split '.' anchor
  if anchor = "" ∨ parts.length < level then none
  else
    let base := Text.join '.' (parts.take (parts.length - (level - 1)))
    if rest = "" then some base else some (Text.join '.' [base, rest])

/-- The module a call of an import function names in a literal: absolutely,
or relative to a literal package. -/
def CallSite.target (site : CallSite) : Loader → Option String
  | .builtinImport =>
      match argument site.args site.keywords 4 "level" with
      -- A call at a level other than zero is relative to no literal.
      | none => (argument site.args site.keywords 0 "name").bind literal?
      | some (.constant (.int 0)) => (argument site.args site.keywords 0 "name").bind literal?
      | some _ => none
  | .importModule =>
      ((argument site.args site.keywords 0 "name").bind literal?).bind fun name =>
        if Text.startsWith "." name then
          ((argument site.args site.keywords 1 "package").bind literal?).bind (resolveName name)
        else some name

/-! ## What the gate makes of a call -/

/-- The scope the gate keeps for a region, if it keeps one. -/
def gateFrame : Region → Option ScopeFrame
  | .function params body => some (functionFrame params body)
  | .classBody _ body => some (classFrame body)
  | .lambda _ _ => none
  | .comp _ => none

/-- The scopes of the gate in some regions of a module. -/
def gateScopes (body : List Stmt) (regions : List Region) : List ScopeFrame :=
  regions.filterMap gateFrame ++ [moduleFrame body]

/-- What the visit of a call records, if there is one. -/
def CallSite.recorded (body : List Stmt) (site : CallSite) : Option String :=
  if site.visited then visitCall (gateScopes body site.regions) site.func site.args else none

/-- Of some blocks, from the innermost outward, the first to write the name
imports it. -/
def ImportedIn (blocks : List Block) (name : String) (imports : Block → Prop) : Prop :=
  ∃ inner block outer, blocks = inner ++ block :: outer ∧ imports block ∧
    ∀ b ∈ inner, name ∉ b.written

/-- The callee is written as an import function, by what stands in the
blocks visible around the call. -/
def WrittenAsLoader (blocks : List Block) (func : Expr) : Prop :=
  (∃ name ctx, func = .name name ctx ∧ ImportedIn blocks name (·.ImportsFunction name)) ∨
    (∃ ctx, func = .name "__import__" ctx ∧ ∀ b ∈ blocks, "__import__" ∉ b.written) ∨
    ∃ name ctx, func = .attribute (.name name ctx) "import_module" ∧
      ImportedIn blocks name (·.ImportsModule name)

/-- The call is there to see: outside annotations, the module as it is in
the first position, and the callee written as an import function. -/
structure Seen (file : SourceFile) (site : CallSite) (module : String) : Prop where
  visited : site.visited = true
  positional : ∃ rest, site.args = .constant (.str module) :: rest
  callee : WrittenAsLoader (visibleBlocks file.body site.regions) site.func

end CheckArchitecture

end Congine
