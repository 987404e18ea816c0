import Congine.Common.Text
/-!
# The syntax of a Python module

The nodes of a parsed module, as far as imports, names and calls go. A node
that says nothing of these is `other`, with its parts in the order a
generic visit comes to them.
-/

namespace Congine

namespace Python

/-! ## Names -/

/-- A name the parser takes for one, and the star of an import. -/
structure Identifier where
  text : String
  nonempty : text ≠ "" := by decide
  no_dot : '.' ∉ text.toList := by decide
  deriving DecidableEq

/-- The name of a module in an import, with dots between its parts. -/
structure DottedName where
  parts : List Identifier
  nonempty : parts ≠ [] := by decide
  deriving DecidableEq

def DottedName.text (name : DottedName) : String :=
  Text.join '.' (name.parts.map Identifier.text)

/-- What stands before the first dot. -/
def DottedName.first (name : DottedName) : String := (name.parts.head name.nonempty).text

theorem split_join_identifiers {names : List Identifier} (hne : names ≠ []) :
    Text.split '.' (Text.join '.' (names.map Identifier.text)) = names.map Identifier.text := by
  rw [Text.split_join '.' (by simpa using hne), List.flatMap_map]
  have hsplit : ∀ n : Identifier, Text.split '.' n.text = [n.text] :=
    fun n => Text.split_eq_singleton n.no_dot
  simp [hsplit, List.map_eq_flatMap]

theorem DottedName.split_text (name : DottedName) :
    Text.split '.' name.text = name.parts.map Identifier.text :=
  split_join_identifiers name.nonempty

/-- The parts of a name have no parts of their own. -/
theorem flatMap_split_text (name : DottedName) :
    (Text.split '.' name.text).flatMap (Text.split '.') = Text.split '.' name.text := by
  have hsplit : ∀ n : Identifier, Text.split '.' n.text = [n.text] :=
    fun n => Text.split_eq_singleton n.no_dot
  rw [name.split_text, List.flatMap_map]
  simp [hsplit, List.map_eq_flatMap]

theorem DottedName.text_ne_empty (name : DottedName) : name.text ≠ "" := by
  intro hempty
  have hsplit := name.split_text
  rw [hempty, Text.split_eq_singleton (List.not_mem_nil)] at hsplit
  rcases hparts : name.parts with _ | ⟨n, rest⟩
  · exact name.nonempty hparts
  · rw [hparts, List.map_cons, List.cons.injEq] at hsplit
    exact n.nonempty hsplit.1.symm

/-! ## Expressions -/

inductive ExprContext where
  | load
  | store
  | del
  deriving DecidableEq

inductive Constant where
  | str (value : String)
  | int (value : ℤ)
  | other
  deriving DecidableEq

/-- An expression. A `keyword` stands among the keywords of a call or a
class, a `comprehension` among the generators of a `comp`, which is a list,
set or dictionary comprehension or a generator expression. -/
inductive Expr where
  | name (id : String) (ctx : ExprContext)
  | constant (value : Constant)
  | attribute (value : Expr) (attr : String)
  | call (line : ℕ) (func : Expr) (args keywords : List Expr)
  | keyword (arg : Option String) (value : Expr)
  | not (operand : Expr)
  | lambda (params : List String) (defaults : List Expr) (body : Expr)
  | comp (elts generators : List Expr)
  | comprehension (target iter : Expr) (ifs : List Expr)
  | namedExpr (target : String) (value : Expr)
  | other (children : List Expr)

/-! ## Statements -/

/-- `import name as asname`. -/
structure ImportAlias where
  name : DottedName
  asname : Option String := none

/-- `from .. import name as asname`. -/
structure FromAlias where
  name : Identifier
  asname : Option String := none

/-- An import statement. -/
inductive Import where
  | names (line : ℕ) (aliases : List ImportAlias)
  | members (line : ℕ) (module : Option DottedName) (aliases : List FromAlias) (level : ℕ)

/-- A statement. The `captures` of one are the names it binds that are no
`Name` nodes: those of exception handlers and of patterns. -/
inductive Stmt where
  | functionDef (name : String) (params : List String)
      (decorators defaults annotations : List Expr) (body : List Stmt)
  | classDef (name : String) (decorators bases keywords : List Expr) (body : List Stmt)
  | importStmt (node : Import)
  | ifStmt (test : Expr) (body orelse : List Stmt)
  | globalStmt (names : List String)
  | nonlocalStmt (names : List String)
  | other (exprs : List Expr) (captures : List String) (body : List Stmt)

end Python

end Congine
