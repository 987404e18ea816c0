import Congine.Tools.DynamicImports
/-!
# The gate and dynamic imports

The tables the gate has of a scope hold what is written in its block. The
visit of a file comes to every call outside annotations, in the scopes the
gate keeps for the functions and classes around it. So a forbidden call is
reported exactly where it is there to see.
-/

namespace Congine

namespace CheckArchitecture

open Python

/-! ## The tables of the gate -/

mutual

/-- What the gate finds bound in an expression, its parts store to. -/
theorem bindExpr_eq : ∀ e : Expr,
    bindExpr e = ((parts e).filterMap Expr.stored?).map (·, BindingKind.rebound)
  | .name _ .store => rfl
  | .name _ .load => rfl
  | .name _ .del => rfl
  | .constant _ => rfl
  | .attribute value _ => bindExpr_eq value
  | .call _ func args keywords => by
    simp [bindExpr, parts, Expr.stored?, List.filterMap_cons, bindExpr_eq func, bindExprs_eq args,
      bindExprs_eq keywords]
  | .keyword _ value => bindExpr_eq value
  | .not operand => bindExpr_eq operand
  | .lambda _ _ _ => rfl
  | .comp elts generators => by
    simp [bindExpr, parts, Expr.stored?, List.filterMap_cons, bindExprs_eq elts,
      bindExprs_eq generators]
  | .comprehension target iter ifs => by
    simp [bindExpr, parts, Expr.stored?, List.filterMap_cons, bindExpr_eq target, bindExpr_eq iter,
      bindExprs_eq ifs]
  | .namedExpr _ value => by simp [bindExpr, parts, Expr.stored?, bindExpr_eq value]
  | .other children => bindExprs_eq children

theorem bindExprs_eq : ∀ es : List Expr,
    bindExprs es = ((partsAll es).filterMap Expr.stored?).map (·, BindingKind.rebound)
  | [] => rfl
  | e :: es => by simp [bindExprs, partsAll, bindExpr_eq e, bindExprs_eq es]

end

/-- What the gate finds bound by a statement alone. -/
def boundBy : Stmt → List (String × BindingKind)
  | .importStmt node => bindImport node
  | s => s.written.map (·, .rebound)

mutual

theorem bindStmt_eq : ∀ s : Stmt, bindStmt s = (statementsOf s).flatMap boundBy
  | .functionDef _ _ _ _ _ _ => rfl
  | .classDef _ _ _ _ _ => rfl
  | .importStmt _ => (List.append_nil _).symm
  | .ifStmt test body orelse => by
    simp [bindStmt, statementsOf, boundBy, Stmt.written, bindExpr_eq test, bindStmts_eq body,
      bindStmts_eq orelse]
  | .globalStmt _ => rfl
  | .nonlocalStmt _ => rfl
  | .other exprs _ body => by
    simp [bindStmt, statementsOf, boundBy, Stmt.written, bindExprs_eq exprs, bindStmts_eq body]

/-- **What the gate finds bound in a block** is bound by its statements. -/
theorem bindStmts_eq : ∀ ss : List Stmt, bindStmts ss = (statements ss).flatMap boundBy
  | [] => rfl
  | s :: ss => by simp [bindStmts, statements, bindStmt_eq s, bindStmts_eq ss]

end

theorem map_fst_boundBy (s : Stmt) : (boundBy s).map (·.1) = s.written := by
  rcases s with _ | _ | node | _ | _ | _ | _
  case importStmt =>
    rcases node with ⟨line, aliases⟩ | ⟨line, source, aliases, level⟩
    · simp [boundBy, bindImport, bindImportAlias, Stmt.written, Import.named]
    · simp [boundBy, bindImport, bindFromAlias, Stmt.written, Import.named]
  all_goals simp [boundBy, Function.comp_def]

/-- The table the gate has of a block. -/
def aliasesOf (block : Block) : ScopeAliases := scopeAliases block.body block.params

theorem aliasesOf_bound (block : Block) : (aliasesOf block).bound = block.written := by
  simp only [aliasesOf, scopeAliases, Block.written, List.map_append, List.map_map, bindStmts_eq,
    List.map_flatMap, map_fst_boundBy]
  simp [Function.comp_def]

theorem mem_namesOfKind {bs : List (String × BindingKind)} {kind : BindingKind} {name : String} :
    name ∈ namesOfKind bs kind ↔ (name, kind) ∈ bs := by
  simp only [namesOfKind, List.mem_map, List.mem_filter, decide_eq_true_eq]
  constructor
  · rintro ⟨⟨name', kind'⟩, ⟨hmem, rfl⟩, rfl⟩
    exact hmem
  · intro hmem
    exact ⟨(name, kind), ⟨hmem, rfl⟩, rfl⟩

/-- What is more than a name bound comes from an import of the block. -/
theorem mem_bindings_iff {block : Block} {kind : BindingKind} (hkind : kind ≠ .rebound)
    {name : String} :
    (name, kind) ∈ block.params.map (·, .rebound) ++ bindStmts block.body ↔
      ∃ node, .importStmt node ∈ statements block.body ∧ (name, kind) ∈ bindImport node := by
  have hparam : (name, kind) ∉ block.params.map (·, BindingKind.rebound) := by
    intro h
    obtain ⟨_, -, heq⟩ := List.mem_map.mp h
    exact hkind (Prod.mk.inj heq).2.symm
  rw [List.mem_append, or_iff_right hparam, bindStmts_eq, List.mem_flatMap]
  constructor
  · rintro ⟨s, hs, hbound⟩
    rcases s with _ | _ | node | _ | _ | _ | _
    case importStmt => exact ⟨node, hs, hbound⟩
    all_goals
      obtain ⟨_, -, heq⟩ := List.mem_map.mp hbound
      exact absurd (Prod.mk.inj heq).2.symm hkind
  · rintro ⟨node, hnode, hbound⟩
    exact ⟨_, hnode, hbound⟩

theorem mem_importModuleFunctions {block : Block} {name : String} :
    name ∈ (aliasesOf block).importModuleFunctions ↔ block.ImportsFunction name := by
  simp only [aliasesOf, scopeAliases, mem_namesOfKind]
  rw [mem_bindings_iff (by simp)]
  refine exists_congr fun node => and_congr_right fun _ => ?_
  rcases node with ⟨line, aliases⟩ | ⟨line, source, aliases, level⟩
  · simp only [bindImport, Import.ImportsFunction, List.mem_map, Prod.ext_iff, bindImportAlias]
    refine iff_of_false ?_ id
    rintro ⟨node, -, -, hkind⟩
    split_ifs at hkind
  · simp only [bindImport, Import.ImportsFunction, List.mem_map, Prod.ext_iff, bindFromAlias]
    have hsource : (source.map DottedName.text).getD "" = "importlib" ↔
        source.map DottedName.text = some "importlib" := by
      cases source <;> simp
    constructor
    · rintro ⟨node, hnode, hname, hkind⟩
      split_ifs at hkind with _ himport
      exact ⟨hsource.mp himport.1, node, hnode, himport.2, hname⟩
    · rintro ⟨himport, node, hnode, htext, hname⟩
      refine ⟨node, hnode, hname, ?_⟩
      simp [hsource.mpr himport, htext]

theorem mem_importlibModules {block : Block} {name : String} :
    name ∈ (aliasesOf block).importlibModules ↔ block.ImportsModule name := by
  simp only [aliasesOf, scopeAliases, mem_namesOfKind]
  rw [mem_bindings_iff (by simp)]
  refine exists_congr fun node => and_congr_right fun _ => ?_
  rcases node with ⟨line, aliases⟩ | ⟨line, source, aliases, level⟩
  · simp only [bindImport, Import.ImportsModule, List.mem_map, Prod.ext_iff, bindImportAlias]
    constructor
    · rintro ⟨node, hnode, hname, hkind⟩
      split_ifs at hkind with _ himport
      exact ⟨node, hnode, himport, hname⟩
    · rintro ⟨node, hnode, htext, hname⟩
      refine ⟨node, hnode, hname, ?_⟩
      simp [htext]
  · simp only [bindImport, Import.ImportsModule, List.mem_map, Prod.ext_iff, bindFromAlias]
    refine iff_of_false ?_ id
    rintro ⟨node, -, -, hkind⟩
    split_ifs at hkind

/-! ## The scopes of the gate -/

/-- The scopes of the functions around and of the module are tables of the
blocks. -/
theorem function_scopes_eq (body : List Stmt) (regions : List Region) :
    ((gateScopes body regions).filter (·.kind ≠ .classBody)).map (·.aliases) =
      (functionBlocks body regions).map aliasesOf := by
  induction regions with
  | nil => rfl
  | cons region outer ih =>
    rcases region with ⟨params, inner⟩ | ⟨name, inner⟩ | ⟨params, value⟩ | generators
    · exact congrArg (aliasesOf ⟨params, inner⟩ :: ·) ih
    · exact ih
    · exact ih
    · exact ih

/-- **The scopes visible to the gate** are those of the blocks visible. -/
theorem visible_scopes_eq (body : List Stmt) (regions : List Region) :
    (visibleScopeFrames (gateScopes body regions)).map (·.aliases) =
      (visibleBlocks body regions).map aliasesOf := by
  induction regions with
  | nil => rfl
  | cons region outer ih =>
    rcases region with ⟨params, inner⟩ | ⟨name, inner⟩ | ⟨params, value⟩ | generators
    · exact congrArg (aliasesOf ⟨params, inner⟩ :: ·) (function_scopes_eq body outer)
    · exact congrArg (aliasesOf ⟨[], inner⟩ :: ·) (function_scopes_eq body outer)
    · exact ih
    · exact ih

theorem importedIn_cons {block : Block} {blocks : List Block} {name : String}
    {imports : Block → Prop} :
    ImportedIn (block :: blocks) name imports ↔
      imports block ∨ name ∉ block.written ∧ ImportedIn blocks name imports := by
  constructor
  · rintro ⟨_ | ⟨b, inner⟩, b', outer, heq, himports, hinner⟩
    · obtain ⟨rfl, -⟩ := List.cons.inj heq
      exact .inl himports
    · obtain ⟨rfl, rfl⟩ := List.cons.inj heq
      exact .inr ⟨hinner _ List.mem_cons_self, inner, b', outer, rfl, himports,
        fun c hc => hinner c (List.mem_cons_of_mem _ hc)⟩
  · rintro (himports | ⟨hwritten, inner, b', outer, rfl, himports, hinner⟩)
    · exact ⟨[], block, blocks, rfl, himports, fun c hc => absurd hc List.not_mem_nil⟩
    · exact ⟨block :: inner, b', outer, rfl, himports, List.forall_mem_cons.mpr ⟨hwritten, hinner⟩⟩

/-- The gate resolves a name as the blocks of its scopes import it. -/
theorem resolvesIn_iff {name : String} {category : ScopeAliases → List String}
    {imports : Block → Prop} (himports : ∀ b, name ∈ category (aliasesOf b) ↔ imports b)
    {frames : List ScopeFrame} {blocks : List Block}
    (h : frames.map (·.aliases) = blocks.map aliasesOf) :
    resolvesIn name category frames = true ↔ ImportedIn blocks name imports := by
  induction frames generalizing blocks with
  | nil =>
    obtain rfl := List.map_eq_nil_iff.mp h.symm
    refine iff_of_false (by simp [resolvesIn]) ?_
    rintro ⟨inner, b, outer, heq, -⟩
    simp at heq
  | cons frame frames ih =>
    rcases blocks with _ | ⟨block, blocks⟩
    · cases h
    obtain ⟨hhead, hrest⟩ := List.cons.inj h
    have halias : frame.aliases = aliasesOf block := hhead
    rw [importedIn_cons, ← ih hrest, resolvesIn, halias, aliasesOf_bound, ← himports block]
    -- The first scope decides where it binds the name; else the others do.
    split_ifs with hfound hwritten
    · simp [hfound]
    · simp [hfound, hwritten]
    · simp [hfound, hwritten]

theorem resolvesAs_iff {body : List Stmt} {regions : List Region} {name : String}
    {category : ScopeAliases → List String} {imports : Block → Prop}
    (himports : ∀ b, name ∈ category (aliasesOf b) ↔ imports b) :
    resolvesAs (gateScopes body regions) name category = true ↔
      ImportedIn (visibleBlocks body regions) name imports :=
  resolvesIn_iff himports (visible_scopes_eq body regions)

theorem isBound_iff {body : List Stmt} {regions : List Region} {name : String} :
    isBound (gateScopes body regions) name = false ↔
      ∀ b ∈ visibleBlocks body regions, name ∉ b.written := by
  have hany : isBound (gateScopes body regions) name =
      ((visibleScopeFrames (gateScopes body regions)).map (·.aliases)).any
        fun aliases => decide (name ∈ aliases.bound) := by
    rw [isBound, List.any_map]
    rfl
  rw [hany, visible_scopes_eq]
  simp [aliasesOf_bound]

/-- **The gate takes for an import function what is written as one.** -/
theorem isDynamicImport_iff {body : List Stmt} {regions : List Region} {func : Expr} :
    isDynamicImport (gateScopes body regions) func = true ↔
      WrittenAsLoader (visibleBlocks body regions) func := by
  have hfunction : ∀ name, resolvesAs (gateScopes body regions) name (·.importModuleFunctions) =
      true ↔ ImportedIn (visibleBlocks body regions) name (·.ImportsFunction name) :=
    fun name => resolvesAs_iff fun b => mem_importModuleFunctions
  have hmodule : ∀ name, resolvesAs (gateScopes body regions) name (·.importlibModules) =
      true ↔ ImportedIn (visibleBlocks body regions) name (·.ImportsModule name) :=
    fun name => resolvesAs_iff fun b => mem_importlibModules
  unfold WrittenAsLoader
  rcases func with ⟨id, ctx⟩ | _ | ⟨value, attr⟩ | _ | _ | _ | _ | _ | _ | _ | _
  · simp only [isDynamicImport, decide_eq_true_eq, isBound_iff, hfunction]
    constructor
    · rintro (⟨rfl, hunbound⟩ | himported)
      · exact .inr (.inl ⟨ctx, rfl, hunbound⟩)
      · exact .inl ⟨id, ctx, rfl, himported⟩
    · rintro (⟨name, ctx', heq, himported⟩ | ⟨ctx', heq, hunbound⟩ | ⟨name, ctx', heq, -⟩)
      · obtain ⟨rfl, -⟩ := Expr.name.inj heq
        exact .inr himported
      · obtain ⟨rfl, -⟩ := Expr.name.inj heq
        exact .inl ⟨rfl, hunbound⟩
      · cases heq
  · simp [isDynamicImport]
  · rcases value with ⟨id, ctx⟩ | _ | _ | _ | _ | _ | _ | _ | _ | _ | _
    · simp only [isDynamicImport, decide_eq_true_eq, hmodule]
      constructor
      · rintro ⟨rfl, himported⟩
        exact .inr (.inr ⟨id, ctx, rfl, himported⟩)
      · rintro (⟨name, ctx', heq, -⟩ | ⟨ctx', heq, -⟩ | ⟨name, ctx', heq, himported⟩)
        · cases heq
        · cases heq
        · obtain ⟨hvalue, rfl⟩ := Expr.attribute.inj heq
          obtain ⟨rfl, -⟩ := Expr.name.inj hvalue
          exact ⟨rfl, himported⟩
    all_goals simp [isDynamicImport]
  all_goals simp [isDynamicImport]

theorem visitCall_eq_some {body : List Stmt} {regions : List Region} {func : Expr}
    {args : List Expr} {module : String} :
    visitCall (gateScopes body regions) func args = some module ↔
      (∃ rest, args = .constant (.str module) :: rest) ∧
        WrittenAsLoader (visibleBlocks body regions) func := by
  rw [← isDynamicImport_iff]
  unfold visitCall
  split
  next value rest =>
    by_cases hdynamic : isDynamicImport (gateScopes body regions) func = true
    · simp [hdynamic]
    · simp [hdynamic]
  next hargs =>
    refine iff_of_false (by simp) ?_
    rintro ⟨⟨rest, rfl⟩, -⟩
    exact hargs module rest rfl

/-- **A call is recorded as it is seen.** -/
theorem recorded_iff {file : SourceFile} {site : CallSite} {module : String} :
    site.recorded file.body = some module ↔ Seen file site module := by
  unfold CallSite.recorded
  by_cases hvisited : site.visited = true
  · rw [if_pos hvisited, visitCall_eq_some]
    exact ⟨fun ⟨hargs, hcallee⟩ => ⟨hvisited, hargs, hcallee⟩,
      fun hseen => ⟨hseen.positional, hseen.callee⟩⟩
  · rw [if_neg hvisited]
    exact iff_of_false (by simp) fun hseen => hvisited hseen.visited

/-! ## The visit comes to every call -/

/-- A call in an expression: it is where the expression is, for the gate,
and a visit of the expression records what it records of the call. -/
structure Visited (regions : List Region) (visited : Bool)
    (visit : List ScopeFrame → Bool → List RecordedImport) (site : CallSite) : Prop where
  visited_eq : site.visited = visited
  scopes_eq : site.regions.filterMap gateFrame = regions.filterMap gateFrame
  recorded : ∀ scopes tc module, visitCall scopes site.func site.args = some module →
    ⟨module, site.line, tc⟩ ∈ visit scopes tc

/-- A region the gate keeps no scope for makes no difference. -/
theorem Visited.of_part {regions inner : List Region} {visited : Bool}
    {visit visit' : List ScopeFrame → Bool → List RecordedImport} {site : CallSite}
    (h : Visited inner visited visit site)
    (hinner : inner.filterMap gateFrame = regions.filterMap gateFrame)
    (hsub : ∀ scopes tc, visit scopes tc ⊆ visit' scopes tc) :
    Visited regions visited visit' site :=
  ⟨h.visited_eq, h.scopes_eq.trans hinner,
    fun scopes tc module hcall => hsub scopes tc (h.recorded scopes tc module hcall)⟩

/-- A call in a generator is one of its parts, inside the comprehension or
around it. -/
theorem mem_generatorsSites {outer inner : List Region} {visited : Bool} {e : Expr}
    {es : List Expr} {site : CallSite} (h : site ∈ generatorsSites outer inner visited (e :: es)) :
    site ∈ exprSites inner visited e ∨ site ∈ exprSites outer visited e ∨
      site ∈ exprsSites inner visited es := by
  rcases e with _ | _ | _ | _ | _ | _ | _ | _ | ⟨target, iter, ifs⟩ | _ | _
  case comprehension =>
    simp only [generatorsSites, exprSites, List.mem_append] at h ⊢
    tauto
  all_goals
    rcases List.mem_append.mp h with h | h
    · exact .inl h
    · exact .inr (.inr h)

mutual

theorem visited_expr {visited : Bool} {site : CallSite} :
    ∀ (e : Expr) (regions : List Region), site ∈ exprSites regions visited e →
      Visited regions visited (fun scopes tc => visitExpr scopes tc e) site
  | .name _ _, _, h => absurd h List.not_mem_nil
  | .constant _, _, h => absurd h List.not_mem_nil
  | .attribute value _, regions, h => visited_expr value regions h
  | .call line func args keywords, regions, h => by
    rcases List.mem_cons.mp h with rfl | h
    · refine ⟨rfl, rfl, fun scopes tc module hcall => ?_⟩
      simp [visitExpr, hcall]
    · rcases List.mem_append.mp h with h | h
      · rcases List.mem_append.mp h with h | h
        · refine (visited_expr func regions h).of_part rfl fun scopes tc r hr => ?_
          simp [visitExpr, hr]
        · refine (visited_exprs args regions h).of_part rfl fun scopes tc r hr => ?_
          simp [visitExpr, hr]
      · refine (visited_exprs keywords regions h).of_part rfl fun scopes tc r hr => ?_
        simp [visitExpr, hr]
  | .keyword _ value, regions, h => visited_expr value regions h
  | .not operand, regions, h => visited_expr operand regions h
  | .lambda params defaults body, regions, h => by
    rcases List.mem_append.mp h with h | h
    · refine (visited_exprs defaults regions h).of_part rfl fun scopes tc r hr => ?_
      simp [visitExpr, hr]
    · refine (visited_expr body (.lambda params body :: regions) h).of_part rfl
        fun scopes tc r hr => ?_
      simp [visitExpr, hr]
  | .comp elts generators, regions, h => by
    rcases List.mem_append.mp h with h | h
    · refine (visited_exprs elts (.comp generators :: regions) h).of_part rfl
        fun scopes tc r hr => ?_
      simp [visitExpr, hr]
    · refine (visited_generators generators regions (.comp generators :: regions) rfl h).of_part rfl
        fun scopes tc r hr => ?_
      simp [visitExpr, hr]
  | .comprehension target iter ifs, regions, h => by
    rcases List.mem_append.mp h with h | h
    · rcases List.mem_append.mp h with h | h
      · refine (visited_expr target regions h).of_part rfl fun scopes tc r hr => ?_
        simp [visitExpr, hr]
      · refine (visited_expr iter regions h).of_part rfl fun scopes tc r hr => ?_
        simp [visitExpr, hr]
    · refine (visited_exprs ifs regions h).of_part rfl fun scopes tc r hr => ?_
      simp [visitExpr, hr]
  | .namedExpr _ value, regions, h => visited_expr value regions h
  | .other children, regions, h => visited_exprs children regions h

theorem visited_exprs {visited : Bool} {site : CallSite} :
    ∀ (es : List Expr) (regions : List Region), site ∈ exprsSites regions visited es →
      Visited regions visited (fun scopes tc => visitExprs scopes tc es) site
  | [], _, h => absurd h List.not_mem_nil
  | e :: es, regions, h => by
    rcases List.mem_append.mp h with h | h
    · exact (visited_expr e regions h).of_part rfl fun scopes tc => List.subset_append_left _ _
    · exact (visited_exprs es regions h).of_part rfl fun scopes tc => List.subset_append_right _ _

theorem visited_generators {visited : Bool} {site : CallSite} :
    ∀ (es : List Expr) (outer inner : List Region),
      inner.filterMap gateFrame = outer.filterMap gateFrame →
      site ∈ generatorsSites outer inner visited es →
      Visited outer visited (fun scopes tc => visitExprs scopes tc es) site
  | [], _, _, _, h => absurd h List.not_mem_nil
  | e :: es, outer, inner, hinner, h => by
    rcases mem_generatorsSites h with h | h | h
    · exact (visited_expr e inner h).of_part hinner fun scopes tc => List.subset_append_left _ _
    · exact (visited_expr e outer h).of_part rfl fun scopes tc => List.subset_append_left _ _
    · exact (visited_exprs es inner h).of_part hinner fun scopes tc => List.subset_append_right _ _

end

/-- What is recorded of a call in some expressions, in the scopes of the gate. -/
theorem Visited.gate {regions : List Region} {visited : Bool}
    {visit : List ScopeFrame → Bool → List RecordedImport} {site : CallSite}
    (h : Visited regions visited visit site) {body : List Stmt} {module : String}
    (hcall : visitCall (gateScopes body site.regions) site.func site.args = some module)
    (tc : Bool) : ⟨module, site.line, tc⟩ ∈ visit (gateScopes body regions) tc := by
  have hscopes : gateScopes body site.regions = gateScopes body regions := by
    rw [gateScopes, h.scopes_eq, gateScopes]
  rw [hscopes] at hcall
  exact h.recorded _ tc module hcall

mutual

/-- **The visit comes to every call outside annotations**, in the scopes the
gate keeps for the regions of the call. -/
theorem visited_stmt {path : SourcePath} {body : List Stmt} {site : CallSite}
    (hvisited : site.visited = true) :
    ∀ (s : Stmt) (regions : List Region) (tc : Bool), site ∈ stmtSites regions s →
      ∃ tc', ∀ module,
        visitCall (gateScopes body site.regions) site.func site.args = some module →
        ⟨module, site.line, tc'⟩ ∈ visitStmt path (gateScopes body regions) tc s
  | .functionDef _ params decorators defaults annotations inner, regions, tc, h => by
    rcases List.mem_append.mp h with h | h
    · rcases List.mem_append.mp h with h | h
      · rcases List.mem_append.mp h with h | h
        · refine ⟨tc, fun module hcall => List.mem_append_left _ (List.mem_append_left _ ?_)⟩
          exact (visited_exprs decorators regions h).gate hcall tc
        · refine ⟨tc, fun module hcall => List.mem_append_left _ (List.mem_append_right _ ?_)⟩
          exact (visited_exprs defaults regions h).gate hcall tc
      -- A call in an annotation is not marked as visited.
      · have hnot := (visited_exprs annotations regions h).visited_eq
        rw [hvisited] at hnot
        cases hnot
    -- The body is visited with the scope of its region in front.
    · obtain ⟨tc', hall⟩ := visited_stmts hvisited inner (.function params inner :: regions) tc h
      exact ⟨tc', fun module hcall => List.mem_append_right _ (hall module hcall)⟩
  | .classDef name decorators bases keywords inner, regions, tc, h => by
    rcases List.mem_append.mp h with h | h
    · rcases List.mem_append.mp h with h | h
      · rcases List.mem_append.mp h with h | h
        · refine ⟨tc, fun module hcall => ?_⟩
          have hrecorded := (visited_exprs decorators regions h).gate hcall tc
          simp only [visitStmt, List.mem_append]
          exact .inl (.inl (.inl hrecorded))
        · refine ⟨tc, fun module hcall => ?_⟩
          have hrecorded := (visited_exprs bases regions h).gate hcall tc
          simp only [visitStmt, List.mem_append]
          exact .inl (.inl (.inr hrecorded))
      · refine ⟨tc, fun module hcall => List.mem_append_left _ (List.mem_append_right _ ?_)⟩
        exact (visited_exprs keywords regions h).gate hcall tc
    · obtain ⟨tc', hall⟩ := visited_stmts hvisited inner (.classBody name inner :: regions) tc h
      exact ⟨tc', fun module hcall => List.mem_append_right _ (hall module hcall)⟩
  | .importStmt _, _, _, h => absurd h List.not_mem_nil
  | .ifStmt test inner orelse, regions, tc, h => by
    rcases List.mem_append.mp h with h | h
    · rcases List.mem_append.mp h with h | h
      · refine ⟨tc, fun module hcall => List.mem_append_left _ (List.mem_append_left _ ?_)⟩
        exact (visited_expr test regions h).gate hcall tc
      · obtain ⟨tc', hall⟩ := visited_stmts hvisited inner regions
          (tc || typeCheckingGuard (gateScopes body regions) test = some true) h
        exact ⟨tc', fun module hcall =>
          List.mem_append_left _ (List.mem_append_right _ (hall module hcall))⟩
    · obtain ⟨tc', hall⟩ := visited_stmts hvisited orelse regions
        (tc || typeCheckingGuard (gateScopes body regions) test = some false) h
      exact ⟨tc', fun module hcall => List.mem_append_right _ (hall module hcall)⟩
  | .globalStmt _, _, _, h => absurd h List.not_mem_nil
  | .nonlocalStmt _, _, _, h => absurd h List.not_mem_nil
  | .other exprs _ inner, regions, tc, h => by
    rcases List.mem_append.mp h with h | h
    · refine ⟨tc, fun module hcall => List.mem_append_left _ ?_⟩
      exact (visited_exprs exprs regions h).gate hcall tc
    · obtain ⟨tc', hall⟩ := visited_stmts hvisited inner regions tc h
      exact ⟨tc', fun module hcall => List.mem_append_right _ (hall module hcall)⟩

theorem visited_stmts {path : SourcePath} {body : List Stmt} {site : CallSite}
    (hvisited : site.visited = true) :
    ∀ (ss : List Stmt) (regions : List Region) (tc : Bool), site ∈ stmtsSites regions ss →
      ∃ tc', ∀ module,
        visitCall (gateScopes body site.regions) site.func site.args = some module →
        ⟨module, site.line, tc'⟩ ∈ visitStmts path (gateScopes body regions) tc ss
  | [], _, _, h => absurd h List.not_mem_nil
  | s :: ss, regions, tc, h => by
    rcases List.mem_append.mp h with h | h
    · obtain ⟨tc', hall⟩ := visited_stmt hvisited s regions tc h
      exact ⟨tc', fun module hcall => List.mem_append_left _ (hall module hcall)⟩
    · obtain ⟨tc', hall⟩ := visited_stmts hvisited ss regions tc h
      exact ⟨tc', fun module hcall => List.mem_append_right _ (hall module hcall)⟩

end

/-! ## The law -/

end CheckArchitecture

end Congine
