import Congine.Tools.DynamicCompleteness
/-!
# Where the gate resolves names as the language does

Some things keep the tables of the gate from the bindings of the language:
the variables of a comprehension count as bindings of the block around it,
`global` and `nonlocal` statements count for nothing, an import of a
submodule is not one of `importlib`, and neither is a star; a private name
is taken as it is written, and a name that is bound for one that stays so. A
name that has no part in these is found wherever it is an import function.
-/

namespace Congine

namespace CheckArchitecture

open Python

/-! ## Private names -/

/-- No private name, and none that one is made into. -/
def PublicName (name : String) : Prop := name.toList.head? ≠ some '_' ∨ name = "__import__"

/-- **A public name is only itself**, in every class. -/
theorem mangle_eq_iff {name : String} (h : PublicName name) (cls : Option String) (id : String) :
    mangle cls id = name ↔ id = name := by
  unfold mangle
  split_ifs with hprivate
  · split
    · next c cs hcls =>
      obtain ⟨cls, -, hdrop⟩ := Option.map_eq_some_iff.mp hcls
      have hc : c ≠ '_' := by
        have hhead := List.head?_dropWhile_not (fun c => decide (c = '_')) cls.toList
        rw [hdrop] at hhead
        simpa using hhead
      refine iff_of_false (fun heq => ?_) (fun heq => ?_)
      · have hlist : name.toList = '_' :: c :: cs ++ id.toList := by
          rw [← heq, String.toList_ofList]
        rcases h with h | rfl
        · exact h (by rw [hlist]; rfl)
        · have hsecond := congrArg (·[1]?) hlist
          exact hc (Option.some.inj hsecond).symm
      · rcases h with h | rfl
        · rw [heq] at hprivate
          rcases hlist : name.toList with _ | ⟨d, ds⟩
          · rw [hlist] at hprivate
            exact absurd hprivate.1 (by simp)
          · rw [hlist, List.take_succ_cons] at hprivate
            exact h (by rw [hlist, (List.cons.inj hprivate.1).1]; rfl)
        · exact hprivate.2 (by rw [heq]; decide)
    · exact Iff.rfl
  · exact Iff.rfl

theorem mem_mangleAll {name : String} (h : PublicName name) {cls : Option String}
    {bs : List (String × Meaning)} {m : Meaning} :
    (name, m) ∈ mangleAll cls bs ↔ (name, m) ∈ bs := by
  simp only [mangleAll, List.mem_map, Prod.mk.injEq, mangle_eq_iff h]
  constructor
  · rintro ⟨⟨name', m'⟩, hmem, rfl, rfl⟩
    exact hmem
  · intro hmem
    exact ⟨(name, m), hmem, rfl, rfl⟩

theorem mem_map_mangle {name : String} (h : PublicName name) {cls : Option String}
    {names : List String} : name ∈ names.map (mangle cls) ↔ name ∈ names := by
  simp only [List.mem_map, mangle_eq_iff h, exists_eq_right]

/-! ## Straight names -/

mutual

/-- The variables of the comprehensions in an expression, outside lambdas. -/
def comprehensionVariables : Expr → List String
  | .name _ _ => []
  | .constant _ => []
  | .attribute value _ => comprehensionVariables value
  | .call _ func args keywords =>
      comprehensionVariables func ++ comprehensionVariablesAll args ++
        comprehensionVariablesAll keywords
  | .keyword _ value => comprehensionVariables value
  | .not operand => comprehensionVariables operand
  | .lambda _ _ _ => []
  | .comp elts generators =>
      comprehensionVariablesAll elts ++ comprehensionVariablesAll generators
  | .comprehension target iter ifs =>
      assigned target ++ comprehensionVariables target ++ comprehensionVariables iter ++
        comprehensionVariablesAll ifs
  | .namedExpr _ value => comprehensionVariables value
  | .other children => comprehensionVariablesAll children

def comprehensionVariablesAll : List Expr → List String
  | [] => []
  | e :: es => comprehensionVariables e ++ comprehensionVariablesAll es

end

mutual

/-- Those in the statements of a block. -/
def variablesOfStmt : Stmt → List String
  | .functionDef _ _ _ _ _ _ => []
  | .classDef _ _ _ _ _ => []
  | .importStmt _ => []
  | .ifStmt test body orelse =>
      comprehensionVariables test ++ variablesOfBlock body ++ variablesOfBlock orelse
  | .globalStmt _ => []
  | .nonlocalStmt _ => []
  | .other exprs _ body => comprehensionVariablesAll exprs ++ variablesOfBlock body

def variablesOfBlock : List Stmt → List String
  | [] => []
  | s :: ss => variablesOfStmt s ++ variablesOfBlock ss

end

/-- The statement is no star import, and no import of a submodule of
`importlib` under the name of `importlib` itself. -/
def PlainImport : Import → Prop
  | .names _ aliases => ∀ node ∈ aliases, node.asname = none → node.name.first = "importlib" →
      node.name.text = "importlib"
  | .members _ _ aliases _ => ∀ node ∈ aliases, node.name.text ≠ "*"

/-- In the block of these statements, the gate has all there is to know of
the name. -/
structure Straight (name : String) (body : List Stmt) : Prop where
  public_name : PublicName name
  no_variable : name ∉ variablesOfBlock body
  not_global : name ∉ (declared body).1
  not_nonlocal : name ∉ (declared body).2
  not_bound_inside : ∀ cls, ∀ b ∈ globalBindings cls body ++ nonlocalBindings cls body, b.1 ≠ name
  plain : ∀ node ∈ importsIn body, PlainImport node

/-- The set the gate keeps for what a binding means. -/
def kindOf : Meaning → BindingKind
  | .importlib => .importlibModule
  | .importModule => .importModuleFunction
  | .other => .rebound

/-! ## Bindings of a block -/

/-- What each of two parts has in one of its lists, both have in theirs
together. -/
theorem mem_append_of_parts {α : Type} {a : α} {xs xs' ys ys' zs zs' : List α}
    (h : a ∈ xs → a ∈ ys ++ zs) (h' : a ∈ xs' → a ∈ ys' ++ zs') (ha : a ∈ xs ++ xs') :
    a ∈ (ys ++ ys') ++ (zs ++ zs') := by
  rcases List.mem_append.mp ha with ha | ha
  · rcases List.mem_append.mp (h ha) with hy | hz
    · exact List.mem_append_left _ (List.mem_append_left _ hy)
    · exact List.mem_append_right _ (List.mem_append_left _ hz)
  · rcases List.mem_append.mp (h' ha) with hy | hz
    · exact List.mem_append_left _ (List.mem_append_right _ hy)
    · exact List.mem_append_right _ (List.mem_append_right _ hz)

mutual

/-- What the gate takes for bound in an expression is, or is a
comprehension's variable. -/
theorem assigned_of_bindExpr (name : String) :
    ∀ e : Expr, name ∈ (bindExpr e).map (·.1) → name ∈ assigned e ++ comprehensionVariables e
  | .name id .store, h => by simpa [bindExpr, assigned, comprehensionVariables] using h
  | .name _ .load, h => by simp [bindExpr] at h
  | .name _ .del, h => by simp [bindExpr] at h
  | .constant _, h => by simp [bindExpr] at h
  | .attribute value _, h => assigned_of_bindExpr name value h
  | .call _ func args keywords, h => by
    rw [bindExpr, List.map_append, List.map_append] at h
    have hcallee := mem_append_of_parts (assigned_of_bindExpr name func)
      (assigned_of_bindExprs name args)
    exact mem_append_of_parts hcallee (assigned_of_bindExprs name keywords) h
  | .keyword _ value, h => assigned_of_bindExpr name value h
  | .not operand, h => assigned_of_bindExpr name operand h
  | .lambda _ _ _, h => by simp [bindExpr] at h
  | .comp elts generators, h => by
    rw [bindExpr, List.map_append] at h
    exact mem_append_of_parts (assigned_of_bindExprs name elts)
      (assigned_of_bindExprs name generators) h
  | .comprehension target iter ifs, h => by
    rw [bindExpr, List.map_append, List.map_append] at h
    -- What is assigned in the target is a variable, and the block around has none of it.
    have htarget : name ∈ (bindExpr target).map (·.1) →
        name ∈ ([] : List String) ++ (assigned target ++ comprehensionVariables target) :=
      assigned_of_bindExpr name target
    have hiter := mem_append_of_parts htarget (assigned_of_bindExpr name iter)
    exact mem_append_of_parts hiter (assigned_of_bindExprs name ifs) h
  | .namedExpr target value, h => by
    rcases List.mem_cons.mp h with rfl | h
    · exact List.mem_cons_self
    · exact List.mem_cons_of_mem target (assigned_of_bindExpr name value h)
  | .other children, h => assigned_of_bindExprs name children h

theorem assigned_of_bindExprs (name : String) :
    ∀ es : List Expr, name ∈ (bindExprs es).map (·.1) →
      name ∈ assignedAll es ++ comprehensionVariablesAll es
  | [], h => by simp [bindExprs] at h
  | e :: es, h => by
    rw [bindExprs, List.map_append] at h
    exact mem_append_of_parts (assigned_of_bindExpr name e) (assigned_of_bindExprs name es) h

end

theorem bindImportAlias_eq {node : ImportAlias}
    (hplain : node.asname = none → node.name.first = "importlib" → node.name.text = "importlib") :
    (bindImportAlias node).1 = node.binding.1 ∧
      (node.binding.2 ≠ .other → (bindImportAlias node).2 = kindOf node.binding.2) := by
  have hkind : node.name.text = "importlib" → (bindImportAlias node).2 = .importlibModule := by
    intro htext
    simp [bindImportAlias, htext]
  rcases hasname : node.asname with _ | asname
  · refine ⟨by simp [bindImportAlias, ImportAlias.binding, hasname], fun hother => ?_⟩
    by_cases hfirst : node.name.first = "importlib"
    · rw [hkind (hplain hasname hfirst)]
      simp [ImportAlias.binding, hasname, hfirst, kindOf]
    · simp [ImportAlias.binding, hasname, hfirst] at hother
  · refine ⟨by simp [bindImportAlias, ImportAlias.binding, hasname], fun hother => ?_⟩
    by_cases htext : node.name.text = "importlib"
    · rw [hkind htext]
      simp [ImportAlias.binding, hasname, htext, kindOf]
    · simp [ImportAlias.binding, hasname, htext] at hother

theorem bindFromAlias_eq {from_ : Option DottedName} {level : ℕ} {node : FromAlias}
    (hplain : node.name.text ≠ "*") :
    ∃ meaning, node.bindings (if level = 0 then from_.map DottedName.text else none) =
        [((bindFromAlias from_ node).1, meaning)] ∧
      (meaning ≠ .other → (bindFromAlias from_ node).2 = kindOf meaning) := by
  by_cases hloader : level = 0 ∧ from_.map DottedName.text = some "importlib" ∧
      node.name.text = "import_module"
  · obtain ⟨rfl, hsource, hname⟩ := hloader
    refine ⟨.importModule, by simp [FromAlias.bindings, bindFromAlias, hsource, hname], fun _ => ?_⟩
    simp [bindFromAlias, hsource, hname, kindOf]
  · refine ⟨.other, ?_, fun hother => absurd rfl hother⟩
    rw [FromAlias.bindings, if_neg hplain, if_neg]
    · rfl
    · rintro ⟨hsource, hname⟩
      split_ifs at hsource with hlevel
      exact hloader ⟨hlevel, hsource, hname⟩

/-- A plain import is the same to the gate and to the language. -/
theorem bindImport_plain {node : Import} (hplain : PlainImport node) :
    (bindImport node).map (·.1) = node.bindings.map (·.1) ∧
      ∀ b ∈ node.bindings, b.2 ≠ .other → (b.1, kindOf b.2) ∈ bindImport node := by
  rcases node with ⟨line, aliases⟩ | ⟨line, from_, aliases, level⟩
  · constructor
    · simp only [bindImport, Import.bindings, List.map_map]
      exact List.map_congr_left fun node hnode => (bindImportAlias_eq (hplain node hnode)).1
    · rintro b hb hother
      obtain ⟨node, hnode, rfl⟩ := List.mem_map.mp hb
      obtain ⟨hname, hkind⟩ := bindImportAlias_eq (hplain node hnode)
      refine List.mem_map.mpr ⟨node, hnode, ?_⟩
      rw [← hname, ← hkind hother]
  · constructor
    · simp only [bindImport, Import.bindings, List.map_map, List.map_flatMap]
      rw [List.map_eq_flatMap]
      refine List.flatMap_congr fun node hnode => ?_
      obtain ⟨meaning, hbindings, -⟩ := bindFromAlias_eq (hplain node hnode)
      rw [hbindings]
      rfl
    · rintro b hb hother
      obtain ⟨node, hnode, hb⟩ := List.mem_flatMap.mp hb
      obtain ⟨meaning, hbindings, hkind⟩ := bindFromAlias_eq (hplain node hnode)
      rw [hbindings] at hb
      obtain rfl := List.mem_singleton.mp hb
      refine List.mem_map.mpr ⟨node, hnode, ?_⟩
      rw [← hkind hother]

@[simp] theorem map_fst_others (names : List String) : (others names).map (·.1) = names := by
  simp [others, Function.comp_def]

theorem eq_other_of_mem_others {names : List String} {b : String × Meaning}
    (h : b ∈ others names) : b.2 = .other := by
  obtain ⟨name, -, rfl⟩ := List.mem_map.mp h
  rfl

mutual

/-- What the gate takes for bound by a statement is, or is a
comprehension's variable. -/
theorem bound_of_bindStmt (name : String) :
    ∀ s : Stmt, (∀ node ∈ importsInStmt s, PlainImport node) → name ∈ (bindStmt s).map (·.1) →
      name ∈ (bindingsOf s).map (·.1) ++ variablesOfStmt s
  | .functionDef name' _ _ _ _ _, _, h => by
    simp only [bindStmt, List.map_cons, List.map_nil, List.mem_singleton] at h
    simp [bindingsOf, h]
  | .classDef name' _ _ _ _, _, h => by
    simp only [bindStmt, List.map_cons, List.map_nil, List.mem_singleton] at h
    simp [bindingsOf, h]
  | .importStmt node, hplain, h => by
    rw [bindStmt, (bindImport_plain (hplain node (List.mem_singleton_self _))).1] at h
    exact List.mem_append_left _ h
  | .ifStmt test body orelse, hplain, h => by
    have hbody := bound_of_bindStmts name body fun node hnode =>
      hplain node (List.mem_append_left _ hnode)
    have horelse := bound_of_bindStmts name orelse fun node hnode =>
      hplain node (List.mem_append_right _ hnode)
    rw [bindStmt, List.map_append, List.map_append] at h
    rw [bindingsOf, variablesOfStmt, List.map_append, List.map_append, map_fst_others]
    have htest := mem_append_of_parts (assigned_of_bindExpr name test) hbody
    exact mem_append_of_parts htest horelse h
  | .globalStmt _, _, h => by simp [bindStmt] at h
  | .nonlocalStmt _, _, h => by simp [bindStmt] at h
  | .other exprs captures body, hplain, h => by
    have hexprs : name ∈ (bindExprs exprs).map (·.1) →
        name ∈ (assignedAll exprs ++ captures) ++ comprehensionVariablesAll exprs := by
      intro hbound
      rcases List.mem_append.mp (assigned_of_bindExprs name exprs hbound) with hbound | hvariable
      · exact List.mem_append_left _ (List.mem_append_left _ hbound)
      · exact List.mem_append_right _ hvariable
    rw [bindStmt, List.map_append] at h
    rw [bindingsOf, variablesOfStmt, List.map_append, map_fst_others]
    exact mem_append_of_parts hexprs (bound_of_bindStmts name body hplain) h

theorem bound_of_bindStmts (name : String) :
    ∀ ss : List Stmt, (∀ node ∈ importsIn ss, PlainImport node) → name ∈ (bindStmts ss).map (·.1) →
      name ∈ (bindings ss).map (·.1) ++ variablesOfBlock ss
  | [], _, h => by simp [bindStmts] at h
  | s :: ss, hplain, h => by
    have hs := bound_of_bindStmt name s fun node hnode =>
      hplain node (List.mem_append_left _ hnode)
    have hss := bound_of_bindStmts name ss fun node hnode =>
      hplain node (List.mem_append_right _ hnode)
    rw [bindStmts, List.map_append] at h
    rw [bindings, variablesOfBlock, List.map_append]
    exact mem_append_of_parts hs hss h

end

mutual

/-- An import the language sees in a statement the gate sees. -/
theorem bindStmt_of_bound {b : String × Meaning} (hother : b.2 ≠ .other) :
    ∀ s : Stmt, (∀ node ∈ importsInStmt s, PlainImport node) → b ∈ bindingsOf s →
      (b.1, kindOf b.2) ∈ bindStmt s
  | .functionDef _ _ _ _ _ _, _, h => by
    rcases List.mem_cons.mp h with rfl | h
    · exact absurd rfl hother
    · exact absurd (eq_other_of_mem_others h) hother
  | .classDef _ _ _ _ _, _, h => by
    rcases List.mem_cons.mp h with rfl | h
    · exact absurd rfl hother
    · exact absurd (eq_other_of_mem_others h) hother
  | .importStmt node, hplain, h =>
    (bindImport_plain (hplain node (List.mem_singleton_self _))).2 b h hother
  | .ifStmt test body orelse, hplain, h => by
    rcases List.mem_append.mp h with h | h
    · rcases List.mem_append.mp h with h | h
      · exact absurd (eq_other_of_mem_others h) hother
      · have hbody := bindStmts_of_bound hother body
          (fun node hnode => hplain node (List.mem_append_left _ hnode)) h
        exact List.mem_append_left _ (List.mem_append_right _ hbody)
    · have horelse := bindStmts_of_bound hother orelse
        (fun node hnode => hplain node (List.mem_append_right _ hnode)) h
      exact List.mem_append_right _ horelse
  | .globalStmt _, _, h => absurd h List.not_mem_nil
  | .nonlocalStmt _, _, h => absurd h List.not_mem_nil
  | .other exprs captures body, hplain, h => by
    rcases List.mem_append.mp h with h | h
    · exact absurd (eq_other_of_mem_others h) hother
    · exact List.mem_append_right _ (bindStmts_of_bound hother body hplain h)

theorem bindStmts_of_bound {b : String × Meaning} (hother : b.2 ≠ .other) :
    ∀ ss : List Stmt, (∀ node ∈ importsIn ss, PlainImport node) → b ∈ bindings ss →
      (b.1, kindOf b.2) ∈ bindStmts ss
  | [], _, h => absurd h List.not_mem_nil
  | s :: ss, hplain, h => by
    rcases List.mem_append.mp h with h | h
    · have hs := bindStmt_of_bound hother s
        (fun node hnode => hplain node (List.mem_append_left _ hnode)) h
      exact List.mem_append_left _ hs
    · have hss := bindStmts_of_bound hother ss
        (fun node hnode => hplain node (List.mem_append_right _ hnode)) h
      exact List.mem_append_right _ hss

end

/-! ## Blocks and scopes -/

theorem mem_meanings {bs : List (String × Meaning)} {name : String} {m : Meaning} :
    m ∈ meanings bs name ↔ (name, m) ∈ bs := by
  simp only [meanings, List.mem_map, List.mem_filter, decide_eq_true_eq]
  constructor
  · rintro ⟨⟨name', m'⟩, ⟨hmem, rfl⟩, rfl⟩
    exact hmem
  · intro hmem
    exact ⟨(name, m), ⟨hmem, rfl⟩, rfl⟩

/-- The names the gate keeps for a meaning. -/
def categoryOf (m : Meaning) (aliases : ScopeAliases) : List String :=
  match m with
  | .importlib => aliases.importlibModules
  | .importModule => aliases.importModuleFunctions
  | .other => []

/-- A scope of the gate and the bindings of a block agree on a name: what
the block imports the scope does, and what it does not bind the scope does
not. -/
structure Agrees (name : String) (bs : List (String × Meaning)) (aliases : ScopeAliases) :
    Prop where
  import_found : ∀ m, m ≠ .other → m ∈ meanings bs name → name ∈ categoryOf m aliases
  unbound : meanings bs name = [] → name ∉ aliases.bound

/-- **The gate and the language agree on a straight name in a block.** -/
theorem agrees_of_straight {name : String} {body : List Stmt} (hstraight : Straight name body)
    (params : List String) {bs : List (String × Meaning)}
    (hbs : ∀ m, (name, m) ∈ bs ↔ (name, m) ∈ others params ++ bindings body) :
    Agrees name bs (scopeAliases body params) := by
  constructor
  · intro m hother hm
    have hmem := (hbs m).mp (mem_meanings.mp hm)
    rcases List.mem_append.mp hmem with hmem | hmem
    · exact absurd (eq_other_of_mem_others hmem) hother
    have hbound := bindStmts_of_bound hother body hstraight.plain hmem
    -- A loader stays in its set whatever else binds its name.
    rcases m with _ | _ | _
    · simp only [categoryOf, scopeAliases, namesOfKind, List.mem_map, List.mem_filter]
      exact ⟨_, ⟨List.mem_append_right _ hbound, by simp [kindOf]⟩, rfl⟩
    · simp only [categoryOf, scopeAliases, namesOfKind, List.mem_map, List.mem_filter]
      exact ⟨_, ⟨List.mem_append_right _ hbound, by simp [kindOf]⟩, rfl⟩
    · exact absurd rfl hother
  · intro hnone hname
    have hmem : name ∈ (others params ++ bindings body).map (·.1) := by
      simp only [scopeAliases, List.map_append, List.mem_append, map_fst_others] at hname ⊢
      rcases hname with hname | hname
      · exact .inl (by simpa using hname)
      · have hbound := bound_of_bindStmts name body hstraight.plain hname
        rcases List.mem_append.mp hbound with hbound | hbound
        · exact .inr hbound
        · exact absurd hbound hstraight.no_variable
    obtain ⟨⟨_, m⟩, hb, rfl⟩ := List.mem_map.mp hmem
    have hm := mem_meanings.mpr ((hbs m).mpr hb)
    rw [hnone] at hm
    exact absurd hm List.not_mem_nil

/-- The name is straight in a region that has statements. -/
def StraightIn (name : String) : Region → Prop
  | .function _ body => Straight name body
  | .classBody _ body => Straight name body
  | .lambda _ _ => True
  | .comp _ => True

theorem Straight.not_mem_globals {name : String} {body : List Stmt} (h : Straight name body)
    (cls : Option String) : name ∉ declaredGlobal cls body :=
  (mem_map_mangle h.public_name).not.mpr h.not_global

theorem mem_localBindings {name : String} {body : List Stmt} (hstraight : Straight name body)
    (cls : Option String) (params : List String) (m : Meaning) :
    (name, m) ∈ localBindings cls params body ↔ (name, m) ∈ others params ++ bindings body := by
  have hlocal : name ∉ declaredNonlocal cls body :=
    (mem_map_mangle hstraight.public_name).not.mpr hstraight.not_nonlocal
  rw [localBindings, List.mem_filter, mem_mangleAll hstraight.public_name]
  simp [hstraight.not_mem_globals, hlocal]

theorem agrees_function {name : String} {cls : Option String} {params : List String}
    {body : List Stmt} (hstraight : Straight name body) :
    Agrees name ((Region.function params body).bindings cls)
      (functionFrame params body).aliases := by
  refine agrees_of_straight hstraight params fun m => ?_
  rw [Region.bindings, List.mem_append, mem_localBindings hstraight]
  -- No block inside lends the function a binding of the name.
  refine ⟨fun h => h.resolve_right fun hinside => ?_, .inl⟩
  have hmem := (List.mem_filter.mp hinside).1
  exact hstraight.not_bound_inside cls _ (List.mem_append_right _ hmem) rfl

theorem agrees_class {name cls' : String} {cls : Option String} {body : List Stmt}
    (hstraight : Straight name body) :
    Agrees name ((Region.classBody cls' body).bindings cls) (classFrame body).aliases :=
  agrees_of_straight hstraight [] (mem_localBindings hstraight cls [])

theorem agrees_module {name : String} {body : List Stmt} (hstraight : Straight name body) :
    Agrees name (moduleBindings body) (moduleFrame body).aliases := by
  refine agrees_of_straight hstraight [] fun m => ?_
  rw [moduleBindings, List.mem_append]
  refine ⟨fun h => h.resolve_right fun hinside => ?_, .inl⟩
  exact hstraight.not_bound_inside none _ (List.mem_append_left _ hinside) rfl

/-! ## Resolution -/

theorem bound_mem_referents {bs : List (String × Meaning)} {name : String} {m : Meaning} :
    Referent.bound m ∈ referents bs name ↔ m ∈ meanings bs name := by
  simp [referents]

theorem builtin_not_mem_referents {bs : List (String × Meaning)} {name : String} :
    Referent.builtin ∉ referents bs name := by
  simp [referents]

/-- The scopes of the gate agree with what a name may refer to: an import
among that is found in them, and where the builtin `__import__` is, no
scope binds the name. -/
structure AgreesOn (name : String) (rs : List Referent) (frames : List ScopeFrame) : Prop where
  import_found : ∀ m, m ≠ .other → Referent.bound m ∈ rs →
    resolvesIn name (categoryOf m) frames = true
  unbound : name = "__import__" → Referent.builtin ∈ rs → ∀ f ∈ frames, name ∉ f.aliases.bound

/-- A scope in front that does not bind the name. -/
theorem AgreesOn.skip {name : String} {frame : ScopeFrame} {rs : List Referent}
    {frames : List ScopeFrame} (hunbound : name ∉ frame.aliases.bound)
    (houter : AgreesOn name rs frames) : AgreesOn name rs (frame :: frames) := by
  refine ⟨fun m hother hm => ?_, fun hname hrs f hf => ?_⟩
  · rw [resolvesIn, if_neg hunbound, houter.import_found m hother hm]
    exact ite_self true
  · rcases List.mem_cons.mp hf with rfl | hf
    · exact hunbound
    · exact houter.unbound hname hrs f hf

/-- A scope in front, with the bindings of its block. -/
theorem AgreesOn.cons {name : String} {bs : List (String × Meaning)} {frame : ScopeFrame}
    {rs : List Referent} {frames : List ScopeFrame} (h : Agrees name bs frame.aliases)
    (houter : AgreesOn name rs frames) :
    AgreesOn name (if meanings bs name = [] then rs else referents bs name) (frame :: frames) := by
  by_cases hnone : meanings bs name = []
  · rw [if_pos hnone]
    exact houter.skip (h.unbound hnone)
  · rw [if_neg hnone]
    refine ⟨fun m hother hm => ?_, fun _ hrs => absurd hrs builtin_not_mem_referents⟩
    rw [resolvesIn, if_pos (h.import_found m hother (bound_mem_referents.mp hm))]

/-- What a lambda or a comprehension binds is no import. -/
theorem AgreesOn.others {name : String} {cls : Option String} {names : List String}
    {rs : List Referent} {frames : List ScopeFrame} (houter : AgreesOn name rs frames) :
    AgreesOn name (if meanings (mangleAll cls (others names)) name = [] then rs
      else referents (mangleAll cls (others names)) name) frames := by
  by_cases hnone : meanings (mangleAll cls (Python.others names)) name = []
  · rwa [if_pos hnone]
  · rw [if_neg hnone]
    refine ⟨fun m hother hm => ?_, fun _ hrs => absurd hrs builtin_not_mem_referents⟩
    obtain ⟨b, hb, heq⟩ := List.mem_map.mp (mem_meanings.mp (bound_mem_referents.mp hm))
    exact absurd ((Prod.mk.inj heq).2.symm.trans (eq_other_of_mem_others hb)) hother

/-- The scopes of the gate a name is looked for in from inside a function. -/
def functionScopes (body : List Stmt) (regions : List Region) : List ScopeFrame :=
  (gateScopes body regions).filter (·.kind ≠ .classBody)

/-- The module puts nothing of its own in front of the builtin `__import__`. -/
def NoFallback (name : String) (body : List Stmt) : Prop :=
  name = "__import__" → meanings (moduleBindings body) name = []

theorem agreesOn_module {name : String} {body : List Stmt} (hmodule : Straight name body)
    (hbuiltin : NoFallback name body) :
    AgreesOn name (globalReferents body name) [moduleFrame body] := by
  have hagrees := agrees_module hmodule
  refine ⟨fun m hother hm => ?_, fun hname _ f hf => ?_⟩
  · have hbound : Referent.bound m ∈ referents (moduleBindings body) name := by
      simpa [globalReferents] using hm
    rw [resolvesIn, if_pos (hagrees.import_found m hother (bound_mem_referents.mp hbound))]
  · rw [List.mem_singleton.mp hf]
    exact hagrees.unbound (hbuiltin hname)

/-- **A name free in some regions is looked for where the language looks.** -/
theorem lookup_agrees {name : String} {body : List Stmt} (hmodule : Straight name body)
    (hbuiltin : NoFallback name body) {regions : List Region}
    (hregions : ∀ r ∈ regions, StraightIn name r) :
    AgreesOn name (lookup body name regions) (functionScopes body regions) := by
  induction regions with
  | nil => exact agreesOn_module hmodule hbuiltin
  | cons region outer ih =>
    have ih := ih fun r hr => hregions r (List.mem_cons_of_mem _ hr)
    have hregion := hregions region List.mem_cons_self
    rcases region with ⟨params, inner⟩ | ⟨cls, inner⟩ | ⟨params, value⟩ | generators
    -- A function answers on both sides, a class on neither, and the rest have no scope.
    · have hglobal := hregion.not_mem_globals (privateClass (.function params inner :: outer))
      rw [lookup, if_neg (by simp [Region.isClass]), Region.globals, if_neg hglobal]
      exact AgreesOn.cons (agrees_function hregion) ih
    · exact ih
    · exact ih.others
    · exact ih.others

/-- A class that lambdas and comprehensions stand directly in does not bind
the name. -/
def ClassClear (name : String) : List Region → Prop
  | .lambda _ _ :: outer => ClassClear name outer
  | .comp _ :: outer => ClassClear name outer
  | .classBody _ body :: _ => ∀ b ∈ bindings body, b.1 ≠ name
  | .function _ _ :: _ => True
  | [] => True

/-- From a lambda or a comprehension, that class is not looked into; and in
the class itself, a name it binds is that binding or nothing. -/
def ClearAround (name : String) (body : List Stmt) : List Region → Prop
  | .lambda _ _ :: outer => ClassClear name outer
  | .comp _ :: outer => ClassClear name outer
  | .classBody _ inner :: _ => (∀ b ∈ bindings inner, b.1 ≠ name) ∨
      name ≠ "__import__" ∧ meanings (moduleBindings body) name = []
  | .function _ _ :: _ => True
  | [] => True

/-- A class that does not write the name has no binding of it. -/
theorem meanings_class_eq_nil {name cls' : String} {cls : Option String} {inner : List Stmt}
    (hstraight : Straight name inner) (hclear : ∀ b ∈ bindings inner, b.1 ≠ name) :
    meanings ((Region.classBody cls' inner).bindings cls) name = [] := by
  refine List.eq_nil_iff_forall_not_mem.mpr fun m hm => ?_
  have hmem := (mem_localBindings hstraight cls [] m).mp (mem_meanings.mp hm)
  exact hclear _ hmem rfl

/-- From a lambda or a comprehension the gate looks where the language does. -/
theorem lookup_agrees_visible {name : String} {body : List Stmt} (hmodule : Straight name body)
    (hbuiltin : NoFallback name body) {regions : List Region}
    (hregions : ∀ r ∈ regions, StraightIn name r) (hclear : ClassClear name regions) :
    AgreesOn name (lookup body name regions) (visibleScopeFrames (gateScopes body regions)) := by
  induction regions with
  | nil => exact agreesOn_module hmodule hbuiltin
  | cons region outer ih =>
    have hrest : ∀ r ∈ outer, StraightIn name r :=
      fun r hr => hregions r (List.mem_cons_of_mem _ hr)
    have hregion := hregions region List.mem_cons_self
    rcases region with ⟨params, inner⟩ | ⟨cls, inner⟩ | ⟨params, value⟩ | generators
    · exact lookup_agrees hmodule hbuiltin hregions
    -- The gate looks into this class, the language does not: it does not bind the name.
    · have hnone := @meanings_class_eq_nil name cls (some cls) inner hregion hclear
      have houter := lookup_agrees hmodule hbuiltin hrest
      exact houter.skip ((agrees_class hregion).unbound hnone)
    · exact (ih hrest hclear).others
    · exact (ih hrest hclear).others

/-- **A straight name refers for the gate to what it does for the language.** -/
theorem resolve_agrees {name : String} {body : List Stmt} (hmodule : Straight name body)
    (hbuiltin : NoFallback name body) {regions : List Region}
    (hregions : ∀ r ∈ regions, StraightIn name r) (hclear : ClearAround name body regions) :
    AgreesOn name (resolve body name regions) (visibleScopeFrames (gateScopes body regions)) := by
  have hname : mangle (privateClass regions) name = name :=
    (mangle_eq_iff hmodule.public_name _ name).mpr rfl
  rw [resolve, hname]
  rcases regions with _ | ⟨region, outer⟩
  · exact agreesOn_module hmodule hbuiltin
  have hrest : ∀ r ∈ outer, StraightIn name r := fun r hr => hregions r (List.mem_cons_of_mem _ hr)
  have hregion := hregions region List.mem_cons_self
  have houter := lookup_agrees hmodule hbuiltin hrest
  rcases region with ⟨params, inner⟩ | ⟨cls, inner⟩ | ⟨params, value⟩ | generators
  · have hglobal := hregion.not_mem_globals (privateClass (.function params inner :: outer))
    rw [resolveIn, Region.globals, if_neg hglobal]
    exact AgreesOn.cons (agrees_function hregion) houter
  · have hglobal := hregion.not_mem_globals (privateClass (.classBody cls inner :: outer))
    have hagrees : Agrees name ((Region.classBody cls inner).bindings
        (privateClass (.classBody cls inner :: outer))) (classFrame inner).aliases :=
      agrees_class hregion
    rw [resolveIn, Region.globals, if_neg hglobal]
    by_cases hnone : meanings ((Region.classBody cls inner).bindings
        (privateClass (.classBody cls inner :: outer))) name = []
    · rw [if_pos hnone]
      exact houter.skip (hagrees.unbound hnone)
    -- The class binds the name: what it may fall back on is nothing.
    · rw [if_neg hnone, if_pos (by rfl)]
      obtain ⟨hne, hmodule⟩ := hclear.resolve_left fun h =>
        hnone (meanings_class_eq_nil hregion h)
      refine ⟨fun m hother hm => ?_, fun heq => absurd heq hne⟩
      rw [globalReferents, referents.eq_def (moduleBindings body), hmodule] at hm
      have hbound : m ∈ meanings ((Region.classBody cls inner).bindings
          (privateClass (.classBody cls inner :: outer))) name :=
        bound_mem_referents.mp (by simpa using hm)
      exact (resolvesIn.eq_def ..).trans (if_pos (hagrees.import_found m hother hbound))
  · exact (lookup_agrees_visible hmodule hbuiltin hrest hclear).others
  · exact (lookup_agrees_visible hmodule hbuiltin hrest hclear).others

/-! ## Calls -/

/-- The name of the callee is straight in the module and all the regions
around the call, and it is not kept from it by a class, nor put in front of
the builtin by the module. -/
structure StraightCall (body : List Stmt) (site : CallSite) (name : String) : Prop where
  in_module : Straight name body
  in_regions : ∀ r ∈ site.regions, StraightIn name r
  no_class : ClearAround name body site.regions
  no_fallback : NoFallback name body

theorem StraightCall.agrees {body : List Stmt} {site : CallSite} {name : String}
    (h : StraightCall body site name) :
    AgreesOn name (resolve body name site.regions)
      (visibleScopeFrames (gateScopes body site.regions)) :=
  resolve_agrees h.in_module h.no_fallback h.in_regions h.no_class

end CheckArchitecture

end Congine
