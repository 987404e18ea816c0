import Congine.Tools.PythonSyntax
/-!
# Lexical scope

What a name refers to at a place of a module, as the language settles it:
the blocks that can bind names are the module, functions, classes, lambdas
and comprehensions; a name belongs to a block that binds it, unless a
`global` or a `nonlocal` statement there says it belongs further out; and a
name that is free in a block is looked for in the blocks around it, classes
left out. What no block binds is looked for among the globals, and last
among the builtins. A class does not wait for its own names to be bound: one
that is not, yet or any longer, is looked for among the globals, and a
global likewise among the builtins. The compiler renames what begins with
two underscores in a class.
-/

namespace Congine

namespace Python

/-! ## Private names -/

/-- What the compiler makes of a name in a class: with two underscores in
front of it and not two behind, it is the class's own. -/
def mangle (cls : Option String) (name : String) : String :=
  if name.toList.take 2 = ['_', '_'] ∧ name.toList.reverse.take 2 ≠ ['_', '_'] then
    match cls.map fun cls => cls.toList.dropWhile (· = '_') with
    | some (c :: cs) => String.ofList ('_' :: c :: cs ++ name.toList)
    -- No class, or one whose name is all underscores.
    | _ => name
  else name

example : mangle (some "_Loader") "__load" = "_Loader__load" ∧
    mangle (some "_Loader") "__import__" = "__import__" := by decide

/-! ## Bindings -/

/-- What a binding makes of a name, with regard to `importlib`. -/
inductive Meaning where
  | importlib
  | importModule
  | other
  deriving DecidableEq

/-- What `from importlib import *` binds. -/
def importlibSurface : List (String × Meaning) :=
  [("__import__", .other), ("import_module", .importModule), ("invalidate_caches", .other),
    ("reload", .other)]

/-- `import importlib.util` binds `importlib`. -/
def ImportAlias.binding (node : ImportAlias) : String × Meaning :=
  match node.asname with
  | some asname => (asname, if node.name.text = "importlib" then .importlib else .other)
  | none => (node.name.first, if node.name.first = "importlib" then .importlib else .other)

/-- What an alias of a from-import binds, by the module it is taken from.
What a star binds is known of `importlib` only. -/
def FromAlias.bindings (source : Option String) (node : FromAlias) : List (String × Meaning) :=
  if node.name.text = "*" then if source = some "importlib" then importlibSurface else []
  else
    [(node.asname.getD node.name.text,
      if source = some "importlib" ∧ node.name.text = "import_module" then .importModule
      else .other)]

def Import.bindings : Import → List (String × Meaning)
  | .names _ aliases => aliases.map ImportAlias.binding
  | .members _ source aliases level =>
      aliases.flatMap
        (FromAlias.bindings (if level = 0 then source.map DottedName.text else none))

mutual

/-- The names an expression binds in the block it stands in. A lambda binds
none there, and a comprehension none of its variables. -/
def assigned : Expr → List String
  | .name id .store => [id]
  | .name id .del => [id]
  | .name _ .load => []
  | .constant _ => []
  | .attribute value _ => assigned value
  | .call _ func args keywords => assigned func ++ assignedAll args ++ assignedAll keywords
  | .keyword _ value => assigned value
  | .not operand => assigned operand
  -- The defaults of a lambda are evaluated where it stands, its body is not.
  | .lambda _ defaults _ => assignedAll defaults
  | .comp elts generators => assignedAll elts ++ assignedAll generators
  -- An assignment expression in a comprehension binds around it.
  | .comprehension _ iter ifs => assigned iter ++ assignedAll ifs
  | .namedExpr target value => target :: assigned value
  | .other children => assignedAll children

def assignedAll : List Expr → List String
  | [] => []
  | e :: es => assigned e ++ assignedAll es

end

/-- The variables of a comprehension. -/
def variablesOf : List Expr → List String
  | [] => []
  | .comprehension target _ _ :: generators => assigned target ++ variablesOf generators
  | _ :: generators => variablesOf generators

def others (names : List String) : List (String × Meaning) := names.map (·, .other)

mutual

/-- The bindings a statement makes in the block it stands in. -/
def bindingsOf : Stmt → List (String × Meaning)
  | .functionDef name _ decorators defaults annotations _ =>
      (name, .other) ::
        others (assignedAll decorators ++ assignedAll defaults ++ assignedAll annotations)
  | .classDef name decorators bases keywords _ =>
      (name, .other) ::
        others (assignedAll decorators ++ assignedAll bases ++ assignedAll keywords)
  | .importStmt node => node.bindings
  | .ifStmt test body orelse => others (assigned test) ++ bindings body ++ bindings orelse
  | .globalStmt _ => []
  | .nonlocalStmt _ => []
  | .other exprs captures body => others (assignedAll exprs ++ captures) ++ bindings body

def bindings : List Stmt → List (String × Meaning)
  | [] => []
  | s :: ss => bindingsOf s ++ bindings ss

end

mutual

/-- The names a block's statements declare global or nonlocal. -/
def declaredOf : Stmt → List String × List String
  | .globalStmt names => (names, [])
  | .nonlocalStmt names => ([], names)
  | .ifStmt _ body orelse =>
      ((declared body).1 ++ (declared orelse).1, (declared body).2 ++ (declared orelse).2)
  | .other _ _ body => declared body
  | .functionDef _ _ _ _ _ _ => ([], [])
  | .classDef _ _ _ _ _ => ([], [])
  | .importStmt _ => ([], [])

def declared : List Stmt → List String × List String
  | [] => ([], [])
  | s :: ss => ((declaredOf s).1 ++ (declared ss).1, (declaredOf s).2 ++ (declared ss).2)

end

/-- The names a block declares global, in the class it stands in. -/
def declaredGlobal (cls : Option String) (body : List Stmt) : List String :=
  (declared body).1.map (mangle cls)

/-- And nonlocal. -/
def declaredNonlocal (cls : Option String) (body : List Stmt) : List String :=
  (declared body).2.map (mangle cls)

/-- Bindings in a class. -/
def mangleAll (cls : Option String) (bs : List (String × Meaning)) : List (String × Meaning) :=
  bs.map fun b => (mangle cls b.1, b.2)

/-- The bindings of a block under names it declares neither global nor
nonlocal. -/
def localBindings (cls : Option String) (params : List String) (body : List Stmt) :
    List (String × Meaning) :=
  (mangleAll cls (others params ++ bindings body)).filter fun b =>
    b.1 ∉ declaredGlobal cls body ∧ b.1 ∉ declaredNonlocal cls body

mutual

/-- The bindings the blocks in a statement make of names they declare global. -/
def globalBindingsOf (cls : Option String) : Stmt → List (String × Meaning)
  | .functionDef _ _ _ _ _ body =>
      (mangleAll cls (bindings body)).filter (·.1 ∈ declaredGlobal cls body) ++
        globalBindings cls body
  | .classDef name _ _ _ body =>
      (mangleAll (some name) (bindings body)).filter (·.1 ∈ declaredGlobal (some name) body) ++
        globalBindings (some name) body
  | .ifStmt _ body orelse => globalBindings cls body ++ globalBindings cls orelse
  | .other _ _ body => globalBindings cls body
  | .importStmt _ => []
  | .globalStmt _ => []
  | .nonlocalStmt _ => []

def globalBindings (cls : Option String) : List Stmt → List (String × Meaning)
  | [] => []
  | s :: ss => globalBindingsOf cls s ++ globalBindings cls ss

end

mutual

/-- The bindings the blocks in a statement make of names that belong to a
function around it: those declared nonlocal, and not caught by a function
in between. -/
def nonlocalBindingsOf (cls : Option String) : Stmt → List (String × Meaning)
  | .functionDef _ params _ _ _ body =>
      (mangleAll cls (bindings body)).filter (·.1 ∈ declaredNonlocal cls body) ++
        (nonlocalBindings cls body).filter fun b => b.1 ∉ (localBindings cls params body).map (·.1)
  | .classDef name _ _ _ body =>
      (mangleAll (some name) (bindings body)).filter (·.1 ∈ declaredNonlocal (some name) body) ++
        nonlocalBindings (some name) body
  | .ifStmt _ body orelse => nonlocalBindings cls body ++ nonlocalBindings cls orelse
  | .other _ _ body => nonlocalBindings cls body
  | .importStmt _ => []
  | .globalStmt _ => []
  | .nonlocalStmt _ => []

def nonlocalBindings (cls : Option String) : List Stmt → List (String × Meaning)
  | [] => []
  | s :: ss => nonlocalBindingsOf cls s ++ nonlocalBindings cls ss

end

/-! ## Blocks -/

/-- A block below the module, as the syntax has it. -/
inductive Region where
  | function (params : List String) (body : List Stmt)
  | classBody (name : String) (body : List Stmt)
  | lambda (params : List String) (body : Expr)
  | comp (generators : List Expr)

namespace Region

/-- The bindings of the names that belong to the block. -/
def bindings (cls : Option String) : Region → List (String × Meaning)
  | function params body =>
      localBindings cls params body ++
        (nonlocalBindings cls body).filter fun b => b.1 ∈ (localBindings cls params body).map (·.1)
  | classBody _ body => localBindings cls [] body
  | lambda params body => mangleAll cls (others (params ++ assigned body))
  | comp generators => mangleAll cls (others (variablesOf generators))

/-- The names the block declares global. -/
def globals (cls : Option String) : Region → List String
  | function _ body => declaredGlobal cls body
  | classBody _ body => declaredGlobal cls body
  | lambda _ _ => []
  | comp _ => []

def isClass : Region → Bool
  | classBody _ _ => true
  | _ => false

end Region

/-- The class whose private names are those of the innermost of some regions. -/
def privateClass : List Region → Option String
  | [] => none
  | .classBody name _ :: _ => some name
  | .function _ _ :: outer => privateClass outer
  | .lambda _ _ :: outer => privateClass outer
  | .comp _ :: outer => privateClass outer

/-- The bindings of the names that belong to the module. -/
def moduleBindings (body : List Stmt) : List (String × Meaning) :=
  bindings body ++ globalBindings none body

/-- What the bindings of a block make of a name. -/
def meanings (bindings : List (String × Meaning)) (name : String) : List Meaning :=
  (bindings.filter (·.1 = name)).map (·.2)

/-! ## Resolution -/

/-- What a name may refer to. -/
inductive Referent where
  | bound (meaning : Meaning)
  | builtin
  deriving DecidableEq

def referents (bindings : List (String × Meaning)) (name : String) : List Referent :=
  (meanings bindings name).map .bound

/-- A name among the globals, and then among the builtins. -/
def globalReferents (body : List Stmt) (name : String) : List Referent :=
  referents (moduleBindings body) name ++ [.builtin]

/-- A name free in what the regions enclose, from the innermost outward. -/
def lookup (body : List Stmt) (name : String) : List Region → List Referent
  | [] => globalReferents body name
  | region :: outer =>
      -- The names of a class are no names of the blocks in it.
      if region.isClass then lookup body name outer
      else if name ∈ region.globals (privateClass (region :: outer)) then globalReferents body name
      else if meanings (region.bindings (privateClass (region :: outer))) name = [] then
        lookup body name outer
      else referents (region.bindings (privateClass (region :: outer))) name

/-- A name in the innermost of some regions, as the compiler has it. -/
def resolveIn (body : List Stmt) (name : String) : List Region → List Referent
  | [] => globalReferents body name
  | region :: outer =>
      if name ∈ region.globals (privateClass (region :: outer)) then globalReferents body name
      else if meanings (region.bindings (privateClass (region :: outer))) name = [] then
        lookup body name outer
      -- Where the class has not bound it, its own name is a global.
      else if region.isClass then
        referents (region.bindings (privateClass (region :: outer))) name ++
          globalReferents body name
      else referents (region.bindings (privateClass (region :: outer))) name

/-- What a name may refer to in the innermost of some regions of a module:
the meanings its bindings give it in the block it belongs to, and what is
looked for next where they need not have been made. -/
def resolve (body : List Stmt) (name : String) (regions : List Region) : List Referent :=
  resolveIn body (mangle (privateClass regions) name) regions

/-! ## Blocks as they are written -/

mutual

/-- An expression and the expressions in it, up to lambdas. -/
def parts : Expr → List Expr
  | .name id ctx => [.name id ctx]
  | .constant value => [.constant value]
  | .attribute value attr => .attribute value attr :: parts value
  | .call line func args keywords =>
      .call line func args keywords :: (parts func ++ partsAll args ++ partsAll keywords)
  | .keyword arg value => .keyword arg value :: parts value
  | .not operand => .not operand :: parts operand
  | .lambda params defaults body => [.lambda params defaults body]
  | .comp elts generators => .comp elts generators :: (partsAll elts ++ partsAll generators)
  | .comprehension target iter ifs =>
      .comprehension target iter ifs :: (parts target ++ parts iter ++ partsAll ifs)
  | .namedExpr target value => .namedExpr target value :: parts value
  | .other children => .other children :: partsAll children

def partsAll : List Expr → List Expr
  | [] => []
  | e :: es => parts e ++ partsAll es

end

/-- The name an expression stores to. -/
def Expr.stored? : Expr → Option String
  | .name id .store => some id
  | .namedExpr target _ => some target
  | _ => none

mutual

/-- A statement and the statements in it, up to definitions. -/
def statementsOf : Stmt → List Stmt
  | .ifStmt test body orelse => .ifStmt test body orelse :: (statements body ++ statements orelse)
  | .other exprs captures body => .other exprs captures body :: statements body
  | .functionDef name params decorators defaults annotations body =>
      [.functionDef name params decorators defaults annotations body]
  | .classDef name decorators bases keywords body => [.classDef name decorators bases keywords body]
  | .importStmt node => [.importStmt node]
  | .globalStmt names => [.globalStmt names]
  | .nonlocalStmt names => [.nonlocalStmt names]

def statements : List Stmt → List Stmt
  | [] => []
  | s :: ss => statementsOf s ++ statements ss

end

/-- The names an import is for. -/
def Import.named : Import → List String
  | .names _ aliases => aliases.map fun node => node.asname.getD node.name.first
  | .members _ _ aliases _ => aliases.map fun node => node.asname.getD node.name.text

/-- The names a statement writes by itself. -/
def Stmt.written : Stmt → List String
  | .functionDef name _ _ _ _ _ => [name]
  | .classDef name _ _ _ _ => [name]
  | .importStmt node => node.named
  | .ifStmt test _ _ => (parts test).filterMap Expr.stored?
  | .other exprs _ _ => (partsAll exprs).filterMap Expr.stored?
  | .globalStmt _ => []
  | .nonlocalStmt _ => []

/-- `import importlib`, or `import importlib as name`. -/
def Import.ImportsModule (name : String) : Import → Prop
  | .names _ aliases =>
      ∃ node ∈ aliases, node.name.text = "importlib" ∧ node.asname.getD node.name.first = name
  | .members _ _ _ _ => False

/-- `from importlib import import_module`, or that `as name`. -/
def Import.ImportsFunction (name : String) : Import → Prop
  | .names _ _ => False
  | .members _ source aliases _ => source.map DottedName.text = some "importlib" ∧
      ∃ node ∈ aliases, node.name.text = "import_module" ∧ node.asname.getD node.name.text = name

/-- The statements of a function with its parameters, of a class or of the
module. -/
structure Block where
  params : List String
  body : List Stmt

namespace Block

variable (block : Block)

/-- The names written in the block: its parameters, and what its statements
write outside the definitions and the lambdas in them. The variables of its
comprehensions are among these. -/
def written : List String := block.params ++ (statements block.body).flatMap Stmt.written

def ImportsModule (name : String) : Prop :=
  ∃ node, .importStmt node ∈ statements block.body ∧ node.ImportsModule name

def ImportsFunction (name : String) : Prop :=
  ∃ node, .importStmt node ∈ statements block.body ∧ node.ImportsFunction name

end Block

/-- The functions around, and the module. -/
def functionBlocks (body : List Stmt) : List Region → List Block
  | [] => [⟨[], body⟩]
  | .function params inner :: outer => ⟨params, inner⟩ :: functionBlocks body outer
  | .classBody _ _ :: outer => functionBlocks body outer
  | .lambda _ _ :: outer => functionBlocks body outer
  | .comp _ :: outer => functionBlocks body outer

/-- The innermost function or class around, the functions around that, and
the module. -/
def visibleBlocks (body : List Stmt) : List Region → List Block
  | [] => [⟨[], body⟩]
  | .function params inner :: outer => ⟨params, inner⟩ :: functionBlocks body outer
  | .classBody _ inner :: outer => ⟨[], inner⟩ :: functionBlocks body outer
  | .lambda _ _ :: outer => visibleBlocks body outer
  | .comp _ :: outer => visibleBlocks body outer

end Python

end Congine
